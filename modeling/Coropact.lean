import Coropact.Http.Router
import Coropact.Gateway.ForwardedHeaders
import Coropact.Gateway.LenientReading
import Coropact.Gateway.RetrySafety
import Coropact.Gateway.Accounting
import Coropact.Gateway.DoubleBucket
import Coropact.Gateway.AdmissionBound
import Coropact.Gateway.RequestAdmission
import Coropact.Gateway.SessionInput
import Coropact.Gateway.Persistence
import Coropact.Gateway.Routing
import Coropact.Gateway.FaultOrigin
import Coropact.Gateway.BreakerRecovery
import Coropact.Gateway.BreakerProbes
import Coropact.Gateway.StallFallback
import Coropact.Gateway.EffectiveWeight
import Coropact.Gateway.SmoothSchedule
import Coropact.Gateway.NextPrime
import Coropact.Gateway.PassiveHealth
import Coropact.Gateway.MaglevShares
import Coropact.Gateway.DemotedPeers
import Coropact.Gateway.RingStability
import Coropact.Gateway.WeightRange
import Coropact.Gateway.Selection
import Coropact.Gateway.Health
import Coropact.Gateway.IdleExpiry
import Coropact.Ds.MpscCalls
import Coropact.Luring.LatencyHistogram
import Coropact.Luring.MailboxWakeups
import Coropact.Luring.ReadTimeout
import Coropact.Luring.ReadyQueues
import Coropact.Luring.StreamClose
import Coropact.Luring.Listener
import Coropact.Luring.TimerArming
import Coropact.Coro.JoinState
import Coropact.Net.Connect
import Coropact.Net.EPollPoller
import Coropact.Net.ReactorStream
import Coropact.Net.TimerPass
import Coropact.Net.TimerCalls
import Coropact.Net.EventLoop
import Coropact.Log.Order
import Coropact.Log.Restart
import Coropact.Coro.FrameLayout
