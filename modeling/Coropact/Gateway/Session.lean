/-
One client connection (`GatewaySessionService::ServeWithPool`, `HandleParseStatus` and `ApplyAction` in
`include/coropact/gateway/gateway_session_service.h`).

The session is a machine over its program points, as `Forward` is, which runs inside it: an event `forward` is an event
of the call in progress, named by its upstream. A run is the list of the events; `current` cuts off what belongs to
earlier requests, so `forwardEvents (current l)` is the run of the call in progress and `clientBytes (current l)` what
the client took since the request was handled.

`served` is the point where `ApplyAction` has returned true: the next event resets the parser and goes on with the bytes
that are left. It keeps the job when the request was forwarded.

Left out: the pool and the connector, which answer inside `Forward`, and the reuse of the buffers.
-/
import Coropact.Gateway.Attempts
import Coropact.Gateway.GatewayCore

namespace Coropact.Gateway

open Coropact.Http Coropact.Text Coropact.Machine List Option

/-! ## Model -/

/-- a request on its way to an upstream, with the order its headers are walked in -/
structure Job (P : Type*) where
  request : HttpRequest
  iter : List (Bytes × Bytes)
  target : ProxyTarget P

inductive SessionPc (P S : Type*) where
  | reading
  | handling
  | asking (job : Job P)
  | proxying (job : Job P) (pc : FwdPc P S)
  | fallback (job : Job P) (buf : Bytes)
  | sending (buf : Bytes) (close : Bool)
  | served (job : Option (Job P))
  | shuttingDown
  | closing
  | closed

structure Session (P S : Type*) where
  parser : HttpParser := {}
  pc : SessionPc P S := .reading

inductive SessionEvent (P S : Type*) where
  | read (r : Option Bytes) (date : HttpDate)
  | handle (iter : List (Bytes × Bytes)) (answers : Answers)
  | allow (upstream : Bytes) (ok : Bool) (date : HttpDate)
  | forward (upstream : Bytes) (e : FwdEvent P S)
  | forwarded (date : HttpDate)
  | write (buf : Bytes) (r : Option ℕ)
  | next (date : HttpDate)
  | shutdown
  | close

section Machine

variable {P S : Type*} [DecidableEq P] [DecidableEq S] (core : GatewayCore P) (clientIp : Bytes)

/-- what `Forward` is called with -/
def Job.cfg (job : Job P) : ForwardCfg P where
  request := job.request
  iter := job.iter
  forwarded := core.makeForwardedContext job.target
  peers := job.target.upstream.peers
  config := job.target.upstream.config
  maxConcurrentRequests := job.target.upstream.maxConcurrentRequests
  hasCb := job.target.circuitBreaker
  closable := true

def afterSend (close : Bool) : SessionPc P S := if close then .shuttingDown else .served none

def startSend (buf : Bytes) (close : Bool) : SessionPc P S := if buf = [] then afterSend close else .sending buf close

/-- the fallback is written whatever becomes of it -/
def startFallback (job : Job P) (buf : Bytes) : SessionPc P S :=
  if buf = [] then .served (some job) else .fallback job buf

/-- `HandleParseStatus`, and the test at the head of the loop over complete requests -/
def handleParseStatus (r : ParseStatus × HttpParser) (date : HttpDate) : Session P S where
  parser := r.2
  pc :=
    if r.1 = .cont ∨ r.1 = .gotAll then if r.2.gotAll then .handling else .reading
    else startSend (handleParseError r.1 date) true

def applyAction (request : HttpRequest) (iter : List (Bytes × Bytes)) : Action P → SessionPc P S
  | .send response close => startSend response close
  | .proxy target => .proxying ⟨request, iter, target⟩ .start

def decided (request : HttpRequest) (iter : List (Bytes × Bytes)) : Decision P → SessionPc P S
  | .act a => applyAction request iter a
  | .ask target => .asking ⟨request, iter, target⟩

/-- `ApplyAction` behind `Forward` -/
def afterForward (job : Job P) (date : HttpDate) : ProxyForwardStatus → SessionPc P S
  | .noPeer => startFallback job (proxyUnavailable job.target.route date)
  | .clientClosed | .upstreamFailed => .closing
  | .completed => .served (some job)

def sessionStep (s : Session P S) (e : SessionEvent P S) : Option (Session P S) :=
  match s.pc, e with
  | .reading, .read r date =>
    match r with
    | none | some [] => some { s with pc := .closing }
    | some chunk => if kReadBuffer < chunk.length then none
        else some (handleParseStatus (s.parser.feed kLimits chunk) date)
  | .handling, .handle iter answers =>
    if iter.Perm s.parser.request.headers then
      some { s with
        pc := decided s.parser.request iter (core.handleRequest s.parser.request clientIp answers) }
    else none
  | .asking job, .allow upstream ok date =>
    if upstream = job.target.upstream.name then
      some { s with pc := applyAction job.request job.iter (afterAllow job.target ok date) }
    else none
  | .proxying job pc, .forward upstream e =>
    if upstream = job.target.upstream.name then
      (fwdStep (job.cfg core) pc e).map fun pc' => { s with pc := .proxying job pc' }
    else none
  | .proxying job (.returned status), .forwarded date => some { s with pc := afterForward job date status }
  | .fallback job buf, .write buf' r =>
    if buf' = buf ∧ fits buf r then
      match writeRest buf r with
      | none => some { s with pc := .served (some job) }
      | some rest => some { s with pc := startFallback job rest }
    else none
  | .sending buf close, .write buf' r =>
    if buf' = buf ∧ fits buf r then
      match writeRest buf r with
      | none => some { s with pc := .closing }
      | some rest => some { s with pc := startSend rest close }
    else none
  | .served _, .next date => some (handleParseStatus (s.parser.reset.parseAvailable kLimits) date)
  | .shuttingDown, .shutdown => some { s with pc := .closing }
  | .closing, .close => some { s with pc := .closed }
  | _, _ => none

/-! ## What a step can do -/

inductive SessionMove : Session P S → SessionEvent P S → Session P S → Prop
  | readEnd (p : HttpParser) (r : Option Bytes) (date : HttpDate) (h : r.getD [] = []) :
      SessionMove ⟨p, .reading⟩ (.read r date) ⟨p, .closing⟩
  | read (p : HttpParser) (chunk : Bytes) (date : HttpDate) (hne : chunk ≠ []) (hlen : chunk.length ≤ kReadBuffer) :
      SessionMove ⟨p, .reading⟩ (.read (some chunk) date) (handleParseStatus (p.feed kLimits chunk) date)
  | handle (p : HttpParser) (iter : List (Bytes × Bytes)) (answers : Answers) (h : iter.Perm p.request.headers) :
      SessionMove ⟨p, .handling⟩ (.handle iter answers)
        ⟨p, decided p.request iter (core.handleRequest p.request clientIp answers)⟩
  | allow (p : HttpParser) (job : Job P) (ok : Bool) (date : HttpDate) :
      SessionMove ⟨p, .asking job⟩ (.allow job.target.upstream.name ok date)
        ⟨p, applyAction job.request job.iter (afterAllow job.target ok date)⟩
  | forward (p : HttpParser) (job : Job P) (pc pc' : FwdPc P S) (e : FwdEvent P S)
      (h : fwdStep (job.cfg core) pc e = some pc') :
      SessionMove ⟨p, .proxying job pc⟩ (.forward job.target.upstream.name e) ⟨p, .proxying job pc'⟩
  | forwarded (p : HttpParser) (job : Job P) (status : ProxyForwardStatus) (date : HttpDate) :
      SessionMove ⟨p, .proxying job (.returned status)⟩ (.forwarded date) ⟨p, afterForward job date status⟩
  | fallbackFailed (p : HttpParser) (job : Job P) (buf : Bytes) (r : Option ℕ) (h : writeRest buf r = none) :
      SessionMove ⟨p, .fallback job buf⟩ (.write buf r) ⟨p, .served (some job)⟩
  | fallbackSome (p : HttpParser) (job : Job P) (buf : Bytes) (n : ℕ) (hpos : 0 < n) (hle : n ≤ buf.length) :
      SessionMove ⟨p, .fallback job buf⟩ (.write buf (some n)) ⟨p, startFallback job (buf.drop n)⟩
  | sendFailed (p : HttpParser) (buf : Bytes) (close : Bool) (r : Option ℕ) (h : writeRest buf r = none) :
      SessionMove ⟨p, .sending buf close⟩ (.write buf r) ⟨p, .closing⟩
  | sendSome (p : HttpParser) (buf : Bytes) (close : Bool) (n : ℕ) (hpos : 0 < n) (hle : n ≤ buf.length) :
      SessionMove ⟨p, .sending buf close⟩ (.write buf (some n)) ⟨p, startSend (buf.drop n) close⟩
  | next (p : HttpParser) (job : Option (Job P)) (date : HttpDate) :
      SessionMove ⟨p, .served job⟩ (.next date) (handleParseStatus (p.reset.parseAvailable kLimits) date)
  | shutdown (p : HttpParser) : SessionMove ⟨p, .shuttingDown⟩ .shutdown ⟨p, .closing⟩
  | close (p : HttpParser) : SessionMove ⟨p, .closing⟩ .close ⟨p, .closed⟩

variable {core clientIp}

theorem sessionMove_of_step {s s' : Session P S} {e : SessionEvent P S}
    (h : sessionStep core clientIp s e = some s') : SessionMove core clientIp s e s' := by
  obtain ⟨p, pc⟩ := s
  revert h
  fun_cases sessionStep core clientIp ⟨p, pc⟩ e <;> intro h <;> try cases h
  all_goals
    dsimp only at *
    subst_vars
  case case1 | case2 => exact .readEnd p _ _ rfl
  case case4 hne hlen => exact .read p _ _ hne (not_lt.1 hlen)
  case case9 =>
    obtain ⟨pc', hstep, rfl⟩ := map_eq_some_iff.1 h
    exact .forward p _ _ pc' _ hstep
  case case12 hbuf hrest =>
    obtain ⟨rfl, -⟩ := hbuf
    exact .fallbackFailed p _ _ _ hrest
  case case13 hbuf _ hrest =>
    obtain ⟨rfl, hfits⟩ := hbuf
    obtain ⟨n, rfl, hpos, hle, rfl⟩ := writeRest_eq_some hrest hfits
    exact .fallbackSome p _ _ n hpos hle
  case case15 hbuf hrest =>
    obtain ⟨rfl, -⟩ := hbuf
    exact .sendFailed p _ _ _ hrest
  case case16 hbuf _ hrest =>
    obtain ⟨rfl, hfits⟩ := hbuf
    obtain ⟨n, rfl, hpos, hle, rfl⟩ := writeRest_eq_some hrest hfits
    exact .sendSome p _ _ n hpos hle
  all_goals constructor <;> assumption

end Machine

/-! ## Reading a run -/

section Trace

variable {P S : Type*}

/-- the events since the last request was handled -/
def current (l : List (SessionEvent P S)) : List (SessionEvent P S) :=
  l.foldl (fun cur e => match e with | .handle _ _ => [] | e => cur ++ [e]) []

def SessionEvent.forwardEvent : SessionEvent P S → Option (FwdEvent P S)
  | .forward _ e => some e
  | _ => none

def forwardEvents (l : List (SessionEvent P S)) : List (FwdEvent P S) := l.filterMap SessionEvent.forwardEvent

def SessionEvent.toClient : SessionEvent P S → Bytes
  | .forward _ e => e.toClient
  | .write buf r => buf.take (r.getD 0)
  | _ => []

def clientBytes (l : List (SessionEvent P S)) : Bytes := l.flatMap SessionEvent.toClient

def SessionEvent.writeFails : SessionEvent P S → Bool
  | .write _ r => r.getD 0 = 0
  | _ => false

@[simp] theorem current_handle (l : List (SessionEvent P S)) (iter : List (Bytes × Bytes)) (answers : Answers) :
    current (l ++ [.handle iter answers]) = [] := by
  simp [current, foldl_append]

theorem current_snoc (l : List (SessionEvent P S)) {e : SessionEvent P S}
    (he : ∀ iter answers, e ≠ .handle iter answers) :
    current (l ++ [e]) = current l ++ [e] := by
  cases e with
  | handle iter answers => exact absurd rfl (he iter answers)
  | _ => simp [current, foldl_append]

@[simp] theorem forwardEvents_snoc (l : List (SessionEvent P S)) (e : SessionEvent P S) :
    forwardEvents (l ++ [e]) = forwardEvents l ++ e.forwardEvent.toList := by
  rw [forwardEvents, filterMap_append, forwardEvents]
  cases h : e.forwardEvent <;> simp [h]

@[simp] theorem clientBytes_snoc (l : List (SessionEvent P S)) (e : SessionEvent P S) :
    clientBytes (l ++ [e]) = clientBytes l ++ e.toClient := by
  simp [clientBytes]

end Trace

/-! ## The call in progress -/

section Answering

variable {P S : Type*} [DecidableEq P] [DecidableEq S] {core : GatewayCore P} {clientIp : Bytes}

structure Calling (core : GatewayCore P) (job : Job P) (cur : List (SessionEvent P S)) (pc : FwdPc P S) : Prop where
  run : run (fwdStep (job.cfg core)) .start (forwardEvents cur) = some pc
  client : clientBytes cur = toClient (forwardEvents cur)

/-- the call found no peer; of the fallback the client does not have `rest` yet -/
structure Refused (core : GatewayCore P) (job : Job P) (cur : List (SessionEvent P S)) (rest : Bytes) : Prop where
  run : run (fwdStep (job.cfg core)) .start (forwardEvents cur) = some (.returned .noPeer)
  client : ∃ date, clientBytes cur ++ rest = toClient (forwardEvents cur) ++ proxyUnavailable job.target.route date

/-- a forwarded request that was served: the call is complete, or the fallback was sent as far as the client took it -/
def Served (core : GatewayCore P) (job : Job P) (cur : List (SessionEvent P S)) : Prop :=
  Calling core job cur (.returned .completed) ∨
    ∃ rest, Refused core job cur rest ∧ (rest = [] ∨ ∃ e ∈ cur, e.writeFails = true)

def Answering (core : GatewayCore P) (cur : List (SessionEvent P S)) : SessionPc P S → Prop
  | .asking _ => forwardEvents cur = [] ∧ clientBytes cur = []
  | .proxying job pc => Calling core job cur pc
  | .fallback job buf => Refused core job cur buf
  | .served (some job) => Served core job cur
  | _ => True

theorem answering_startSend (cur : List (SessionEvent P S)) (buf : Bytes) (close : Bool) :
    Answering core cur (startSend buf close) := by
  unfold startSend afterSend
  split_ifs <;> trivial

theorem answering_handleParseStatus (cur : List (SessionEvent P S)) (r : ParseStatus × HttpParser) (date : HttpDate) :
    Answering core cur (handleParseStatus r date).pc := by
  unfold handleParseStatus
  dsimp only
  split_ifs
  · trivial
  · trivial
  · exact answering_startSend _ _ _

theorem calling_start (job : Job P) {cur : List (SessionEvent P S)} (hevents : forwardEvents cur = [])
    (hclient : clientBytes cur = []) : Calling core job cur .start :=
  ⟨by rw [hevents]; rfl, by rw [hevents, hclient]; rfl⟩

theorem answering_applyAction {cur : List (SessionEvent P S)} (hevents : forwardEvents cur = [])
    (hclient : clientBytes cur = []) (request : HttpRequest) (iter : List (Bytes × Bytes)) (a : Action P) :
    Answering core cur (applyAction request iter a) := by
  cases a with
  | send response close => exact answering_startSend _ _ _
  | proxy target => exact calling_start _ hevents hclient

theorem answering_startFallback {job : Job P} {cur : List (SessionEvent P S)} {buf : Bytes}
    (h : Refused core job cur buf) : Answering core cur (startFallback job buf) := by
  unfold startFallback
  split_ifs with hnil
  · exact .inr ⟨buf, h, .inl hnil⟩
  · exact h

theorem calling_snoc {job : Job P} {cur : List (SessionEvent P S)} {pc : FwdPc P S} (h : Calling core job cur pc)
    {e : SessionEvent P S} (he : e.forwardEvent = none) (hc : e.toClient = []) : Calling core job (cur ++ [e]) pc := by
  refine ⟨?_, ?_⟩
  · rw [forwardEvents_snoc, he, toList_none, append_nil]
    exact h.run
  · rw [forwardEvents_snoc, he, clientBytes_snoc, hc, toList_none, append_nil, append_nil]
    exact h.client

theorem calling_forward {job : Job P} {cur : List (SessionEvent P S)} {pc pc' : FwdPc P S} {e : FwdEvent P S}
    (h : Calling core job cur pc) (hstep : fwdStep (job.cfg core) pc e = some pc') :
    Calling core job (cur ++ [.forward job.target.upstream.name e]) pc' := by
  refine ⟨?_, ?_⟩
  · rw [forwardEvents_snoc]
    change run _ _ (_ ++ [e]) = _
    rw [run_snoc, h.run, bind_some]
    exact hstep
  · rw [forwardEvents_snoc, clientBytes_snoc, h.client]
    exact (toClient_snoc _ _).symm

theorem refused_write {job : Job P} {cur : List (SessionEvent P S)} {buf : Bytes} (h : Refused core job cur buf)
    (r : Option ℕ) : Refused core job (cur ++ [.write buf r]) (buf.drop (r.getD 0)) := by
  obtain ⟨hrun, date, hclient⟩ := h
  refine ⟨?_, date, ?_⟩
  · rw [forwardEvents_snoc]
    exact (congrArg _ (append_nil _)).trans hrun
  · rw [forwardEvents_snoc, clientBytes_snoc]
    change _ ++ buf.take (r.getD 0) ++ buf.drop (r.getD 0) = toClient (_ ++ []) ++ _
    rw [append_nil, append_assoc, take_append_drop, hclient]

theorem served_of_failed {job : Job P} {cur : List (SessionEvent P S)} {buf : Bytes} {r : Option ℕ}
    (h : Refused core job cur buf) (hr : writeRest buf r = none) : Served core job (cur ++ [.write buf r]) := by
  refine .inr ⟨_, refused_write h r, .inr ⟨.write buf r, by simp, ?_⟩⟩
  simpa [SessionEvent.writeFails] using writeRest_eq_none.1 hr

theorem answering_afterForward {job : Job P} {cur : List (SessionEvent P S)} {status : ProxyForwardStatus}
    (h : Calling core job cur (.returned status)) (date : HttpDate) :
    Answering core cur (afterForward job date status) := by
  cases status with
  | completed => exact .inl h
  | noPeer => exact answering_startFallback ⟨h.run, date, by rw [h.client]⟩
  | clientClosed | upstreamFailed => trivial

theorem step_answering {l : List (SessionEvent P S)} {s s' : Session P S} {e : SessionEvent P S}
    (h : Answering core (current l) s.pc) (hmove : SessionMove core clientIp s e s') :
    Answering core (current (l ++ [e])) s'.pc := by
  cases hmove with
  | handle p iter answers =>
    rw [current_handle]
    cases core.handleRequest p.request clientIp answers with
    | act a => exact answering_applyAction rfl rfl _ _ a
    | ask target => exact ⟨rfl, rfl⟩
  | allow p job ok date =>
    rw [current_snoc l (by simp)]
    obtain ⟨hevents, hclient⟩ := h
    refine answering_applyAction ?_ ?_ _ _ _
    · rw [forwardEvents_snoc, hevents]
      rfl
    · rw [clientBytes_snoc, hclient]
      rfl
  | forward p job pc pc' e hstep =>
    rw [current_snoc l (by simp)]
    exact calling_forward h hstep
  | forwarded p job status date =>
    rw [current_snoc l (by simp)]
    exact answering_afterForward (calling_snoc h rfl rfl) date
  | fallbackFailed p job buf r hr =>
    rw [current_snoc l (by simp)]
    exact served_of_failed h hr
  | fallbackSome p job buf n =>
    rw [current_snoc l (by simp)]
    exact answering_startFallback (refused_write h (some n))
  | sendSome => exact answering_startSend _ _ _
  | read | next => exact answering_handleParseStatus _ _ _
  | readEnd | sendFailed | shutdown | close => trivial

theorem run_answering {l : List (SessionEvent P S)} {s : Session P S}
    (h : run (sessionStep core clientIp) {} l = some s) : Answering core (current l) s.pc := by
  refine run_induct (fun l (s : Session P S) => Answering core (current l) s.pc) ?_ ?_ l s h
  · trivial
  · intro l s e s' _ ih hstep
    exact step_answering ih (sessionMove_of_step hstep)

end Answering

def someDate : HttpDate := ⟨str "Thu, 01 Jan 1970 00:00:00 GMT", by decide⟩

/-- a session reads a GET with a Host header and handles it -/
def getRead : List (SessionEvent Unit Unit) :=
  [.read (some (str "GET / HTTP/1.1\r\nHost: gw\r\n\r\n")) someDate,
    .handle [(str "host", str "gw")]
      { globalOk := true, perIpOk := true, handled := fun _ => .threw [], requestId := str "1", date := someDate }]

end Coropact.Gateway
