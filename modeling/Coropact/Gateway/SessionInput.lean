/-
What a session makes of the bytes of its client (`GatewaySessionService::ServeWithPool` in
`include/coropact/gateway/gateway_session_service.h`).

Requests may come one behind the other in one read, or in pieces. Behind a response the parser is reset, which keeps the
bytes that it has not used, and they are looked at before anything more is read.
-/
import Coropact.Gateway.Routing
import Coropact.Gateway.Session
import Coropact.Http.Incremental

namespace Coropact.Gateway

open Coropact.Http Coropact.Machine List

section Input

variable {P S : Type*}

def SessionEvent.input : SessionEvent P S → Bytes
  | .read (some chunk) _ => chunk
  | _ => []

def readBytes (l : List (SessionEvent P S)) : Bytes := l.flatMap SessionEvent.input

/-- `rest` is behind the requests that were handled -/
def Unused (rest : Bytes) (s : Session P S) : Prop :=
  match s.pc with
  | .reading => s.parser.gotAll = false ∧ s.parser.pending = rest
  | .handling => ∃ t : RequestText, rest = t.bytes ++ s.parser.pending ∧ s.parser.request = t.request
  | .asking _ | .proxying _ _ | .fallback _ _ | .sending _ false | .served _ => s.parser.pending = rest
  | .sending _ true | .shuttingDown | .closing | .closed => True

theorem unused_handleParseStatus {p : HttpParser} (hp : p.gotAll = false) (date : HttpDate) :
    Unused p.pending (handleParseStatus (p.parseAvailable kLimits) date : Session P S) := by
  unfold handleParseStatus
  cases h : p.parseAvailable kLimits with
  | mk status q =>
  by_cases hcont : status = .cont
  · subst hcont
    obtain ⟨hpend, hgot⟩ := HttpParser.parseAvailable_cont h
    simp [Unused, hgot, hpend]
  by_cases hall : status = .gotAll
  · subst hall
    obtain ⟨text, hpend, hreq⟩ := HttpParser.parseAvailable_gotAll hp h
    have hgot : q.gotAll = true := by
      obtain ⟨_, _, _, _, -, -, -, -, -, -, hq⟩ := HttpParser.parseAvailable_stages hp h
      rw [hq]
      rfl
    simp only [hgot, Unused, or_true, if_true]
    exact ⟨text, hpend, hreq⟩
  · simp only [hcont, hall, or_self, if_false, startSend, afterSend]
    split_ifs <;> trivial

theorem unused_startSend {rest : Bytes} {p : HttpParser} (hp : p.pending = rest) (buf : Bytes) (close : Bool) :
    Unused rest (⟨p, startSend buf close⟩ : Session P S) := by
  unfold startSend afterSend
  cases close <;> split_ifs <;> simp_all [Unused]

theorem unused_startFallback {rest : Bytes} {p : HttpParser} (hp : p.pending = rest) (job : Job P) (buf : Bytes) :
    Unused rest (⟨p, startFallback job buf⟩ : Session P S) := by
  unfold startFallback
  split_ifs <;> exact hp

theorem unused_applyAction {rest : Bytes} {p : HttpParser} (hp : p.pending = rest) (request : HttpRequest)
    (iter : List (Bytes × Bytes)) (a : Action P) : Unused rest (⟨p, applyAction request iter a⟩ : Session P S) := by
  cases a with
  | send response close => exact unused_startSend hp response close
  | proxy target => exact hp

variable [DecidableEq P] [DecidableEq S] (core : GatewayCore P) (clientIp : Bytes)

def handledAt (s : Session P S) : SessionEvent P S → List HttpRequest
  | .handle _ _ => [s.parser.request]
  | _ => []

/-- the requests that are passed to `HandleRequest` along the events -/
def handledRequests : Session P S → List (SessionEvent P S) → List HttpRequest
  | _, [] => []
  | s, e :: l => handledAt s e ++ ((sessionStep core clientIp s e).elim [] fun t => handledRequests t l)

variable {core clientIp} {s t : Session P S} {e : SessionEvent P S} {l : List (SessionEvent P S)}

theorem handledRequests_snoc {u : Session P S} (h : run (sessionStep core clientIp) u l = some s) :
    handledRequests core clientIp u (l ++ [e]) = handledRequests core clientIp u l ++ handledAt s e := by
  induction l generalizing u with
  | nil =>
    obtain rfl := Option.some.inj h
    cases h : sessionStep core clientIp u e <;> simp [handledRequests, h]
  | cons a l ih =>
    obtain ⟨v, hv, hl⟩ := Option.bind_eq_some_iff.1 h
    simp [handledRequests, hv, ih hl]

/-- one step uses no byte but those of a request that it handles -/
theorem step_unused {rest : Bytes} (h : Unused rest s) (hmove : SessionMove core clientIp s e t) :
    ∃ texts : List RequestText, ∃ rest', rest ++ e.input = texts.flatMap RequestText.bytes ++ rest' ∧
      handledAt s e = texts.map RequestText.request ∧ Unused rest' t := by
  cases hmove with
  | handle p iter answers =>
    obtain ⟨text, hrest, hreq⟩ := h
    refine ⟨[text], p.pending, by simp [SessionEvent.input, hrest], by simpa [handledAt] using hreq, ?_⟩
    cases core.handleRequest p.request clientIp answers with
    | act a => exact unused_applyAction rfl _ _ a
    | ask target => exact (rfl : p.pending = p.pending)
  | read p chunk date =>
    obtain ⟨hgot, rfl⟩ := h
    exact ⟨[], _, rfl, rfl, unused_handleParseStatus (p := { p with pending := p.pending ++ chunk }) hgot date⟩
  | next p job date =>
    refine ⟨[], rest, append_nil _, rfl, ?_⟩
    exact h ▸ unused_handleParseStatus (p := p.reset) rfl date
  | allow p job ok date => exact ⟨[], rest, append_nil _, rfl, unused_applyAction h _ _ _⟩
  | forward p job pc pc' e => exact ⟨[], rest, append_nil _, rfl, h⟩
  | forwarded p job status date =>
    refine ⟨[], rest, append_nil _, rfl, ?_⟩
    cases status with
    | noPeer => exact unused_startFallback h _ _
    | completed => exact h
    | clientClosed | upstreamFailed => trivial
  | fallbackFailed p job buf r => exact ⟨[], rest, append_nil _, rfl, h⟩
  | fallbackSome p job buf n => exact ⟨[], rest, append_nil _, rfl, unused_startFallback h _ _⟩
  | sendSome p buf close n =>
    refine ⟨[], rest, append_nil _, rfl, ?_⟩
    cases close with
    | false => exact unused_startSend h _ _
    | true =>
      unfold startSend afterSend
      split_ifs <;> trivial
  | readEnd | sendFailed | shutdown | close => exact ⟨[], _, rfl, rfl, trivial⟩

/-- **The requests that are handled are those that the client sent**, in their order and each once: what was read is the
texts of these requests one behind the other, and the bytes that are left. As long as the session goes on the parser
holds these bytes, so none is lost, used twice or taken from one request into another, whatever the reads, the upstreams
and the client do. -/
theorem session_requests_in_order (h : run (sessionStep core clientIp) {} l = some s) :
    ∃ texts : List RequestText, ∃ rest, readBytes l = texts.flatMap RequestText.bytes ++ rest ∧
      handledRequests core clientIp {} l = texts.map RequestText.request ∧ Unused rest s := by
  refine run_induct (fun l (s : Session P S) => ∃ texts : List RequestText, ∃ rest,
    readBytes l = texts.flatMap RequestText.bytes ++ rest ∧
      handledRequests core clientIp {} l = texts.map RequestText.request ∧ Unused rest s) ?_ ?_ l s h
  · exact ⟨[], [], rfl, rfl, rfl, rfl⟩
  · rintro l s e t hrun ⟨texts, rest, hread, hhandled, hunused⟩ hstep
    obtain ⟨new, rest', hrest, hnew, hunused'⟩ := step_unused hunused (sessionMove_of_step hstep)
    refine ⟨texts ++ new, rest', ?_, ?_, hunused'⟩
    · calc readBytes (l ++ [e]) = readBytes l ++ e.input := by simp [readBytes]
        _ = texts.flatMap RequestText.bytes ++ (rest ++ e.input) := by rw [hread, append_assoc]
        _ = (texts ++ new).flatMap RequestText.bytes ++ rest' := by rw [hrest, flatMap_append, append_assoc]
    · rw [handledRequests_snoc hrun, hhandled, hnew, map_append]

end Input

/-- of a request and the start of the next one in one read, the request is handled -/
theorem session_requests_in_order_getRead : ∃ s, run (sessionStep emptyCore []) {} getRead = some s ∧
    ∃ texts : List RequestText, ∃ rest, readBytes getRead = texts.flatMap RequestText.bytes ++ rest ∧
      handledRequests emptyCore [] {} getRead = texts.map RequestText.request ∧ Unused rest s := by
  have hfacts : (run (sessionStep emptyCore []) {} getRead).isSome = true := by decide +kernel
  obtain ⟨s, hrun⟩ := Option.isSome_iff_exists.1 hfacts
  exact ⟨s, hrun, session_requests_in_order hrun⟩

end Coropact.Gateway
