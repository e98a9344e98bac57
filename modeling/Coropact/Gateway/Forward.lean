/-
One proxied request (`ProxyPass::Forward`, `Send502`, `SelectFailoverPeer` and `IsIdempotent` in
`include/coropact/gateway/proxy_pass.h` and `src/gateway/proxy_pass.cc`, the request slots of
`include/coropact/gateway/upstream.h`).

The coroutine is a machine over its program points: an event is one call it makes or one atomic access, with the answer.
The load balancer, the pool, the connector, the streams and the availability of peers answer as they like; `none` is an
error, a timeout included. A run is the list of its events, so what was read, written and reported is read off the run.

The counters of the upstream and its peers belong to the memory that calls share: `Coropact.Gateway.Accounting` gives
the answers of their atomic accesses. Left out: the statistics of the pool, and the clock behind `AvailableAt`.
-/
import Coropact.Gateway.BuildRequest
import Coropact.Gateway.Relay

namespace Coropact.Gateway

open Coropact.Http Coropact.Text Coropact.Machine Option

/-! ## Model -/

inductive ProxyForwardStatus where
  | completed | noPeer | clientClosed | upstreamFailed
deriving DecidableEq, Repr

def isIdempotent : Method → Bool
  | .get | .head | .put | .delete | .options | .trace => true
  | _ => false

/-- `kResp` of `Send502` -/
def k502 : Bytes :=
  str ("HTTP/1.1 502 Bad Gateway\r\nContent-Type: text/plain\r\nContent-Length: 11\r\n" ++
    "Connection: close\r\n\r\nBad Gateway")

section Machine

variable {P S : Type*} [DecidableEq P] [DecidableEq S]

/-- what a call is given: the request and the order its headers are walked in, the upstream, whether there is a breaker,
and whether the client stream can be shut down -/
structure ForwardCfg (P : Type*) where
  request : HttpRequest
  iter : List (Bytes × Bytes)
  forwarded : ForwardedHeaderContext
  peers : List P
  config : P → UpstreamPeerConfig
  maxConcurrentRequests : BitVec 64
  hasCb : Bool
  closable : Bool

inductive FwdEvent (P S : Type*) where
  | slotAdd
  | slotLoad (v : BitVec 64)
  | slotCas (expected : BitVec 64) (ok : Bool) (now : BitVec 64)
  | slotSub
  | lbSelect (r : Option P)
  | failover (available : List P)
  | peerAdd (p : P)
  | peerRequests (p : P)
  | peerSub (p : P)
  | peerFailure (p : P)
  | poolAcquire (p : P) (r : Option S)
  | connect (p : P) (r : Option S)
  | upstreamWrite (s : S) (buf : Bytes) (r : Option ℕ)
  | relay (s : S) (e : RelayEvent)
  | cbFailure
  | write502 (buf : Bytes) (r : Option ℕ)
  | shutdown
  | poolRelease (p : P) (s : S)
deriving DecidableEq, Repr

structure Call (P : Type*) where
  peer : P
  cbReported : Bool := false
  retriesLeft : ℤ := 2
  requestOnWire : Bool := false
deriving DecidableEq, Repr

inductive Site where
  | connect | write | relay
deriving DecidableEq, Repr

inductive FwdPc (P S : Type*) where
  | start
  | slotCas (current : BitVec 64)
  | cbNoPeer
  | select
  | slotSubNoPeer
  | peerAdd (c : Call P)
  | peerRequests (c : Call P)
  | acquire (c : Call P)
  | connect (c : Call P)
  | upstreamWrite (c : Call P) (s : S) (buf : Bytes)
  | relay (c : Call P) (s : S) (r : RelayPc)
  | peerFailure (c : Call P) (site : Site)
  | retrySelect (c : Call P) (site : Site)
  | failover (c : Call P) (site : Site)
  | switchPeer (c : Call P) (site : Site) (next : P)
  | cbFailure (c : Call P)
  | write502 (c : Call P) (buf : Bytes)
  | shutdown (c : Call P)
  | poolRelease (c : Call P) (s : S)
  | releasePeer (c : Call P) (status : ProxyForwardStatus)
  | releaseSlot (status : ProxyForwardStatus)
  | returned (status : ProxyForwardStatus)
deriving DecidableEq, Repr

variable (cfg : ForwardCfg P)

def requestText (p : P) : Bytes := buildRequestInto cfg.request cfg.iter (cfg.config p) cfg.forwarded

/-- `if (cb) cb->OnFailure(); co_return kNoPeer` -/
def failNoPeer : FwdPc P S := if cfg.hasCb then .cbNoPeer else .returned .noPeer

/-- the test at the head of the loop of `TryAcquireRequestSlot` -/
def slotLoop (current : BitVec 64) : FwdPc P S :=
  if current < cfg.maxConcurrentRequests then .slotCas current else failNoPeer cfg

def startUpstreamWrite (c : Call P) (s : S) (buf : Bytes) : FwdPc P S :=
  if buf = [] then .relay { c with requestOnWire := true } s (.head []) else .upstreamWrite c s buf

/-- the end of a failed request: one report to the breaker unless it has one, then the 502 -/
def giveUp (c : Call P) : FwdPc P S :=
  if !c.cbReported && cfg.hasCb then .cbFailure { c with cbReported := true }
  else .write502 { c with cbReported := true } k502

/-- `request_on_wire` and the method decide first, `retries_left--` is evaluated only behind them -/
def mayRetry (c : Call P) : Site → Bool
  | .connect => !c.requestOnWire || isIdempotent cfg.request.method
  | .write | .relay => isIdempotent cfg.request.method

def afterFailure (c : Call P) (site : Site) : FwdPc P S :=
  if mayRetry cfg c site then
    if 0 < c.retriesLeft then .retrySelect { c with retriesLeft := c.retriesLeft - 1 } site
    else giveUp cfg { c with retriesLeft := c.retriesLeft - 1 }
  else giveUp cfg c

def after502 (c : Call P) : FwdPc P S := if cfg.closable then .shutdown c else .releasePeer c .upstreamFailed

def start502 (c : Call P) (buf : Bytes) : FwdPc P S := if buf = [] then after502 cfg c else .write502 c buf

def afterRelay (c : Call P) (s : S) (r : Relay) : FwdPc P S :=
  match r.pc with
  | .returned none => .peerFailure { c with cbReported := r.cbReported } .relay
  | .returned (some true) => .poolRelease { c with cbReported := r.cbReported } s
  | .returned (some false) => .releasePeer { c with cbReported := r.cbReported } .completed
  | pc => .relay { c with cbReported := r.cbReported } s pc

/-- `SelectFailoverPeer`: the first other peer that is available when it is asked -/
def selectFailoverPeer (current : P) (available : List P) : Option P :=
  cfg.peers.find? fun p => p ≠ current ∧ p ∈ available

/-- the retry goes on to the next peer; only the retry behind a failed relay takes `request_on_wire` back -/
def Call.switch (c : Call P) (site : Site) (next : P) : Call P :=
  { c with peer := next, requestOnWire := c.requestOnWire && site ≠ .relay }

/-- what one `WriteSome` leaves of a buffer; `none` if `WriteAll` fails with it -/
def writeRest (buf : Bytes) : Option ℕ → Option Bytes
  | none | some 0 => none
  | some n => some (buf.drop n)

def fits (buf : Bytes) (r : Option ℕ) : Bool := r.getD 0 ≤ buf.length

def fwdStep (pc : FwdPc P S) (e : FwdEvent P S) : Option (FwdPc P S) :=
  match pc with
  | .start =>
    match e with
    | .slotAdd => if cfg.maxConcurrentRequests = 0 then some .select else none
    | .slotLoad v => if cfg.maxConcurrentRequests = 0 then none else some (slotLoop cfg v)
    | _ => none
  | .slotCas current =>
    match e with
    | .slotCas expected ok now =>
      if expected ≠ current then none else if ok then some .select else some (slotLoop cfg now)
    | _ => none
  | .cbNoPeer =>
    match e with
    | .cbFailure => some (.returned .noPeer)
    | _ => none
  | .select =>
    match e with
    | .lbSelect none => some .slotSubNoPeer
    | .lbSelect (some p) => some (.peerAdd { peer := p })
    | _ => none
  | .slotSubNoPeer =>
    match e with
    | .slotSub => some (failNoPeer cfg)
    | _ => none
  | .peerAdd c =>
    match e with
    | .peerAdd p => if p = c.peer then some (.peerRequests c) else none
    | _ => none
  | .peerRequests c =>
    match e with
    | .peerRequests p => if p = c.peer then some (.acquire c) else none
    | _ => none
  | .acquire c =>
    match e with
    | .poolAcquire p none => if p = c.peer then some (.connect c) else none
    | .poolAcquire p (some s) => if p = c.peer then some (startUpstreamWrite c s (requestText cfg p)) else none
    | _ => none
  | .connect c =>
    match e with
    | .connect p none => if p = c.peer then some (.peerFailure c .connect) else none
    | .connect p (some s) => if p = c.peer then some (startUpstreamWrite c s (requestText cfg p)) else none
    | _ => none
  | .upstreamWrite c s buf =>
    match e with
    | .upstreamWrite s' buf' r =>
      if s' = s ∧ buf' = buf ∧ fits buf r then
        match writeRest buf r with
        | none => some (.peerFailure { c with requestOnWire := true } .write)
        | some rest => some (startUpstreamWrite c s rest)
      else none
    | _ => none
  | .relay c s pc =>
    match e with
    | .relay s' e =>
      if s' = s then (relayStep cfg.request.method cfg.hasCb ⟨c.cbReported, pc⟩ e).map (afterRelay c s) else none
    | _ => none
  | .peerFailure c site =>
    match e with
    | .peerFailure p => if p = c.peer then some (afterFailure cfg c site) else none
    | _ => none
  | .retrySelect c site =>
    match e with
    | .lbSelect r =>
      match r.filter (· ≠ c.peer) with
      | some next => some (.switchPeer c site next)
      | none => some (.failover c site)
    | _ => none
  | .failover c site =>
    match e with
    | .failover available =>
      match selectFailoverPeer cfg c.peer available with
      | some next => some (.switchPeer c site next)
      | none => some (giveUp cfg c)
    | _ => none
  | .switchPeer c site next =>
    match e with
    | .peerSub p => if p = c.peer then some (.peerAdd (c.switch site next)) else none
    | _ => none
  | .cbFailure c =>
    match e with
    | .cbFailure => some (.write502 c k502)
    | _ => none
  | .write502 c buf =>
    match e with
    | .write502 buf' r =>
      if buf' = buf ∧ fits buf r then
        match writeRest buf r with
        | none => some (after502 cfg c)
        | some rest => some (start502 cfg c rest)
      else none
    | _ => none
  | .shutdown c =>
    match e with
    | .shutdown => some (.releasePeer c .upstreamFailed)
    | _ => none
  | .poolRelease c s =>
    match e with
    | .poolRelease p s' => if p = c.peer ∧ s' = s then some (.releasePeer c .completed) else none
    | _ => none
  | .releasePeer c status =>
    match e with
    | .peerSub p => if p = c.peer then some (.releaseSlot status) else none
    | _ => none
  | .releaseSlot status =>
    match e with
    | .slotSub => some (.returned status)
    | _ => none
  | .returned _ => none

/-! ## What a step can do -/

inductive FwdMove : FwdPc P S → FwdEvent P S → FwdPc P S → Prop
  | slotAdd (h : cfg.maxConcurrentRequests = 0) : FwdMove .start .slotAdd .select
  | slotLoad (h : cfg.maxConcurrentRequests ≠ 0) (v : BitVec 64) : FwdMove .start (.slotLoad v) (slotLoop cfg v)
  | slotCasTaken (current now : BitVec 64) : FwdMove (.slotCas current) (.slotCas current true now) .select
  | slotCasAgain (current now : BitVec 64) :
      FwdMove (.slotCas current) (.slotCas current false now) (slotLoop cfg now)
  | cbNoPeer : FwdMove .cbNoPeer .cbFailure (.returned .noPeer)
  | selectNone : FwdMove .select (.lbSelect none) .slotSubNoPeer
  | selectPeer (p : P) : FwdMove .select (.lbSelect (some p)) (.peerAdd { peer := p })
  | slotSubNoPeer : FwdMove .slotSubNoPeer .slotSub (failNoPeer cfg)
  | peerAdd (c : Call P) : FwdMove (.peerAdd c) (.peerAdd c.peer) (.peerRequests c)
  | peerRequests (c : Call P) : FwdMove (.peerRequests c) (.peerRequests c.peer) (.acquire c)
  | acquireNone (c : Call P) : FwdMove (.acquire c) (.poolAcquire c.peer none) (.connect c)
  | acquirePooled (c : Call P) (s : S) :
      FwdMove (.acquire c) (.poolAcquire c.peer (some s)) (startUpstreamWrite c s (requestText cfg c.peer))
  | connectFailed (c : Call P) : FwdMove (.connect c) (.connect c.peer none) (.peerFailure c .connect)
  | connected (c : Call P) (s : S) :
      FwdMove (.connect c) (.connect c.peer (some s)) (startUpstreamWrite c s (requestText cfg c.peer))
  | writeFailed (c : Call P) (s : S) (buf : Bytes) (r : Option ℕ) (h : writeRest buf r = none) :
      FwdMove (.upstreamWrite c s buf) (.upstreamWrite s buf r) (.peerFailure { c with requestOnWire := true } .write)
  | writeSome (c : Call P) (s : S) (buf : Bytes) (n : ℕ) (hpos : 0 < n) (hle : n ≤ buf.length) :
      FwdMove (.upstreamWrite c s buf) (.upstreamWrite s buf (some n)) (startUpstreamWrite c s (buf.drop n))
  | relay (c : Call P) (s : S) (pc : RelayPc) (e : RelayEvent) (r : Relay)
      (h : relayStep cfg.request.method cfg.hasCb ⟨c.cbReported, pc⟩ e = some r) :
      FwdMove (.relay c s pc) (.relay s e) (afterRelay c s r)
  | peerFailure (c : Call P) (site : Site) :
      FwdMove (.peerFailure c site) (.peerFailure c.peer) (afterFailure cfg c site)
  | retryOther (c : Call P) (site : Site) (next : P) (h : next ≠ c.peer) :
      FwdMove (.retrySelect c site) (.lbSelect (some next)) (.switchPeer c site next)
  | retrySame (c : Call P) (site : Site) (r : Option P) (h : r.filter (· ≠ c.peer) = none) :
      FwdMove (.retrySelect c site) (.lbSelect r) (.failover c site)
  | failover (c : Call P) (site : Site) (available : List P) (next : P)
      (h : selectFailoverPeer cfg c.peer available = some next) :
      FwdMove (.failover c site) (.failover available) (.switchPeer c site next)
  | failoverNone (c : Call P) (site : Site) (available : List P)
      (h : selectFailoverPeer cfg c.peer available = none) :
      FwdMove (.failover c site) (.failover available) (giveUp cfg c)
  | switchPeer (c : Call P) (site : Site) (next : P) :
      FwdMove (.switchPeer c site next) (.peerSub c.peer) (.peerAdd (c.switch site next))
  | cbFailure (c : Call P) : FwdMove (.cbFailure c) .cbFailure (.write502 c k502)
  | write502Failed (c : Call P) (buf : Bytes) (r : Option ℕ) (h : writeRest buf r = none) :
      FwdMove (.write502 c buf) (.write502 buf r) (after502 cfg c)
  | write502Some (c : Call P) (buf : Bytes) (n : ℕ) (hpos : 0 < n) (hle : n ≤ buf.length) :
      FwdMove (.write502 c buf) (.write502 buf (some n)) (start502 cfg c (buf.drop n))
  | shutdown (c : Call P) : FwdMove (.shutdown c) .shutdown (.releasePeer c .upstreamFailed)
  | poolRelease (c : Call P) (s : S) : FwdMove (.poolRelease c s) (.poolRelease c.peer s) (.releasePeer c .completed)
  | releasePeer (c : Call P) (status : ProxyForwardStatus) :
      FwdMove (.releasePeer c status) (.peerSub c.peer) (.releaseSlot status)
  | releaseSlot (status : ProxyForwardStatus) : FwdMove (.releaseSlot status) .slotSub (.returned status)

variable {cfg}

theorem writeRest_eq_none {buf : Bytes} {r : Option ℕ} : writeRest buf r = none ↔ r.getD 0 = 0 := by
  rcases r with _ | _ | n <;> simp [writeRest]

theorem writeRest_eq_some {buf rest : Bytes} {r : Option ℕ} (h : writeRest buf r = some rest) (hf : fits buf r = true) :
    ∃ n, r = some n ∧ 0 < n ∧ n ≤ buf.length ∧ rest = buf.drop n := by
  rcases r with _ | _ | n
  · cases h
  · cases h
  · cases h
    exact ⟨n + 1, rfl, Nat.succ_pos n, by simpa [fits] using hf, rfl⟩

theorem fits_of_writeRest {buf : Bytes} {r : Option ℕ} (h : writeRest buf r = none) : fits buf r = true := by
  simp [fits, writeRest_eq_none.1 h]

theorem fwdMove_of_step {pc pc' : FwdPc P S} {e : FwdEvent P S} (h : fwdStep cfg pc e = some pc') :
    FwdMove cfg pc e pc' := by
  revert h
  -- a case for each branch of the source; those without a step are closed at once
  fun_cases fwdStep cfg pc e <;> intro h <;> try cases h
  case case7 heq =>
    obtain rfl := not_not.1 heq
    exact .slotCasTaken _ _
  case case8 ok _ heq hok =>
    obtain rfl := not_not.1 heq
    obtain rfl : ok = false := Bool.eq_false_iff.2 hok
    exact .slotCasAgain _ _
  case case33 hsame hrest =>
    obtain ⟨rfl, rfl, -⟩ := hsame
    exact .writeFailed _ _ _ _ hrest
  case case34 hsame rest hrest =>
    obtain ⟨rfl, rfl, hfits⟩ := hsame
    obtain ⟨n, rfl, hpos, hle, rfl⟩ := writeRest_eq_some hrest hfits
    exact .writeSome _ _ _ n hpos hle
  case case37 =>
    obtain ⟨r, hr, rfl⟩ := map_eq_some_iff.1 h
    exact .relay _ _ _ _ r hr
  case case43 hnext =>
    obtain ⟨rfl, hne⟩ := filter_eq_some_iff.1 hnext
    exact .retryOther _ _ _ (by simpa using hne)
  case case54 hsame hrest =>
    obtain ⟨rfl, -⟩ := hsame
    exact .write502Failed _ _ _ hrest
  case case55 hsame rest hrest =>
    obtain ⟨rfl, hfits⟩ := hsame
    obtain ⟨n, rfl, hpos, hle, rfl⟩ := writeRest_eq_some hrest hfits
    exact .write502Some _ _ n hpos hle
  case case60 hsame =>
    obtain ⟨rfl, rfl⟩ := hsame
    exact .poolRelease _ _
  all_goals constructor <;> assumption

theorem fwdStep_iff {pc pc' : FwdPc P S} {e : FwdEvent P S} :
    fwdStep cfg pc e = some pc' ↔ FwdMove cfg pc e pc' := by
  refine ⟨fwdMove_of_step, fun h => ?_⟩
  cases h with
  | slotAdd h => simp [fwdStep, h]
  | slotLoad h v => exact if_neg h
  | writeFailed c s buf r h => simp [fwdStep, h, fits_of_writeRest h]
  | write502Failed c buf r h => simp [fwdStep, h, fits_of_writeRest h]
  | writeSome c s buf n hpos hle =>
    obtain ⟨n, rfl⟩ := Nat.exists_eq_succ_of_ne_zero hpos.ne'
    simpa [fwdStep, writeRest, fits] using hle
  | write502Some c buf n hpos hle =>
    obtain ⟨n, rfl⟩ := Nat.exists_eq_succ_of_ne_zero hpos.ne'
    simpa [fwdStep, writeRest, fits] using hle
  | relay c s pc e r h => simp [fwdStep, h]
  | retryOther c site next h => simp [fwdStep, Option.filter, h]
  | retrySame c site r h => simp only [fwdStep, h]
  | failover c site available next h => simp only [fwdStep, h]
  | failoverNone c site available h => simp only [fwdStep, h]
  | _ => simp [fwdStep]

end Machine

end Coropact.Gateway
