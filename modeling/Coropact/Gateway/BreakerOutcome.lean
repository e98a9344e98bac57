/-
What a proxied request tells the circuit breaker.

`cb_reported` is shared by the relay, which reports on the first complete response head, and by the exits of `Forward`,
which report a failure when no head was complete; it survives retries. `Told` follows it through a call: the reports
made and the report owed at the program point are the verdict on the first complete head of the run.
-/
import Coropact.Gateway.RelayFeed
import Coropact.Gateway.Session

namespace Coropact.Gateway

open Coropact.Http Coropact.Text Coropact.Machine List Option

variable {P S : Type*}

/-! ## Reports and heads of a run -/

/-- what an event reports to the breaker: `true` for `OnSuccess`, `false` for `OnFailure` -/
def FwdEvent.outcome : FwdEvent P S → Option Bool
  | .cbFailure | .relay _ .cbFailure => some false
  | .relay _ .cbSuccess => some true
  | _ => none

open FwdEvent

def outcomes (es : List (FwdEvent P S)) : List Bool := es.filterMap FwdEvent.outcome

/-- the status of the response head that is complete in the bytes read, as the gateway reads it -/
def headStatus (m : Method) (reads : Bytes) : Option ℤ :=
  (find (CRLF ++ CRLF) reads).map fun headerEnd => (rewriteHeaders (reads.take (headerEnd + 4)) m).1.status

/-- the status of the first complete head; the attempts are listed from the last to the first -/
def firstHead (m : Method) : List (Attempt P) → Option ℤ
  | [] => none
  | a :: past => (firstHead m past).or (headStatus m a.reads)

/-- success exactly when there is a complete head with a status below 500 -/
def verdict (status : Option ℤ) : Bool := status.any (· < 500)

@[simp] theorem outcomes_snoc (es : List (FwdEvent P S)) (e : FwdEvent P S) :
    outcomes (es ++ [e]) = outcomes es ++ e.outcome.toList := by
  cases h : e.outcome <;> simp [outcomes, filterMap_append, h]

variable {as : List (Attempt P)} {outs : List Bool} {m : Method} {pc pc' : FwdPc P S} {e : FwdEvent P S} {c : Call P}
  {reads : Bytes}

theorem headStatus_of_progress {text : Bytes} {state : ResponseState} (h : progress m reads = some (state, text)) :
    headStatus m reads = some state.status := by
  obtain ⟨headerEnd, hfind, heq⟩ := map_eq_some_iff.1 h
  rw [headStatus, hfind, map_some, ← (Prod.mk.inj heq).1, (forward_framing _ _).2.1]

theorem headStatus_of_progress_none (h : progress m reads = none) :
    headStatus m reads = none := by
  rw [progress, map_eq_none_iff] at h
  rw [headStatus, h, map_none]

theorem headStatus_head (m : Method) (h : ResponseHead) (rest : Bytes) :
    headStatus m (h.bytes ++ rest) = some (h.status : ℤ) := by
  rw [headStatus_of_progress (progress_head h m rest), (forward_framing _ _).2.1, headState_status]

theorem headStatus_append {text : Bytes} {state : ResponseState} (h : progress m reads = some (state, text))
    (chunk : Bytes) :
    headStatus m (reads ++ chunk) = headStatus m reads := by
  rw [headStatus_of_progress (progress_append h chunk), headStatus_of_progress h, (forward_framing _ _).2.1]

/-! ## The relay -/

/-- the report the relay is about to make -/
def RelayPc.owed : RelayPc → List Bool
  | .cbFailure _ _ => [false]
  | .peerSuccess _ _ | .cbSuccess _ _ => [true]
  | _ => []

/-- reports made and owed are the verdict on the first head, if there is one, and the flag says whether there is -/
structure Tally (status : Option ℤ) (outs owed : List Bool) (reported : Bool) : Prop where
  flag : reported = status.isSome
  reports : outs ++ owed = if status.isSome then [verdict status] else []

theorem owed_startWrite (state : ResponseState) (buf : Bytes) : (startWrite state buf).owed = [] := by
  unfold startWrite afterWrite
  split_ifs <;> rfl

theorem relay_tally {a : Attempt P} {past : List (Attempt P)} {r r' : Relay} {e : RelayEvent} (s : S)
    (hat : a.At m r.pc)
    (h : Tally (firstHead m (a :: past)) outs r.pc.owed r.cbReported) (hstep : relayStep m true r e = some r') :
    Tally (firstHead m (a.add (.relay s e : FwdEvent P S) :: past))
      (outs ++ (relay s e : FwdEvent P S).outcome.toList) r'.pc.owed r'.cbReported := by
  -- unless the step completes the head, the first head is what it was
  have hsame : headStatus m (a.reads ++ e.bytesRead) = headStatus m a.reads →
      firstHead m (a.add (.relay s e : FwdEvent P S) :: past) = firstHead m (a :: past) := by
    intro heq
    simp only [firstHead, Attempt.add, heq]
  cases relayStep_iff.1 hstep with
  | headError | headEof | bodyError | bodyEof | writeError | writeZero | peerSuccess =>
    rw [hsame (by simp [RelayEvent.bytesRead])]
    simpa [FwdEvent.outcome, RelayPc.owed] using h
  | headMore c pending chunk _ _ hfind =>
    obtain ⟨hpending, -, hnone⟩ := hat
    have hmore : progress m (a.reads ++ chunk) = none := by
      rw [← hpending, progress, hfind, map_none]
    rw [hsame ((headStatus_of_progress_none hmore).trans (headStatus_of_progress_none hnone).symm)]
    simpa [FwdEvent.outcome, RelayPc.owed] using h
  | headDone c pending chunk _ _ headerEnd hfind =>
    obtain ⟨hpending, -, hnone⟩ := hat
    obtain ⟨state, text, hprog, heq⟩ := progress_headDone m hfind true c
    have hnew : headStatus m (a.reads ++ chunk) = some state.status := by
      rw [← hpending]
      exact headStatus_of_progress hprog
    have hfirst : firstHead m (a.add (.relay s (.read (some chunk)) : FwdEvent P S) :: past) =
        (firstHead m past).or (some state.status) := by
      simp only [firstHead, Attempt.add, RelayEvent.bytesRead, hnew]
    have hold : firstHead m (a :: past) = firstHead m past := by
      simp only [firstHead, headStatus_of_progress_none hnone, or_none]
    rw [hold] at h
    obtain ⟨hflag, hreports⟩ := h
    simp only [RelayPc.owed, append_nil] at hreports
    rw [hfirst, heq]
    cases hpast : firstHead m past with
    | some old =>
      -- an earlier head was reported on: this one is not
      rw [hpast] at hflag hreports
      have hc : c = true := hflag
      subst hc
      exact ⟨rfl, by simpa [FwdEvent.outcome, owed_startWrite, Option.or] using hreports⟩
    | none =>
      rw [hpast] at hflag hreports
      have hc : c = false := hflag
      subst hc
      have houts : outs = [] := hreports
      subst houts
      by_cases hstatus : 500 ≤ state.status
      · refine ⟨by simp [hstatus], ?_⟩
        simp [hstatus, FwdEvent.outcome, RelayPc.owed, verdict]
      · refine ⟨by simp [hstatus], ?_⟩
        simp only [hstatus, FwdEvent.outcome, RelayPc.owed, verdict]
        simp
        omega
  | bodyChunk c state chunk =>
    obtain ⟨hprog, -⟩ := hat
    rw [hsame (headStatus_append hprog chunk)]
    simp only [FwdEvent.outcome, owed_startWrite, toList_none, append_nil]
    exact h
  | writeSome c state buf n =>
    rw [hsame (by simp [RelayEvent.bytesRead])]
    simp only [FwdEvent.outcome, owed_startWrite, toList_none, append_nil]
    exact h
  | cbFailure | cbSuccess =>
    rw [hsame (by simp [RelayEvent.bytesRead])]
    simp only [owed_startWrite]
    exact ⟨h.flag, (append_nil _).trans h.reports⟩

/-! ## The call -/

variable {cfg : ForwardCfg P}

/-- no report was made and no head was complete -/
structure Untold (m : Method) (as : List (Attempt P)) (outs : List Bool) : Prop where
  outs : outs = []
  head : firstHead m as = none

/-- what the breaker was told, at each program point of a call with a breaker -/
def Told (m : Method) (as : List (Attempt P)) (outs : List Bool) : FwdPc P S → Prop
  | .start | .slotCas _ | .cbNoPeer | .select | .slotSubNoPeer | .cbFailure _ => Untold m as outs
  | .peerAdd c | .peerRequests c | .acquire c | .connect c | .upstreamWrite c _ _ | .peerFailure c _ | .retrySelect c _
  | .failover c _ | .switchPeer c _ _ => Tally (firstHead m as) outs [] c.cbReported
  | .relay c _ pc => Tally (firstHead m as) outs pc.owed c.cbReported
  | .write502 _ _ | .shutdown _ | .poolRelease _ _ | .releasePeer _ _ | .releaseSlot _ | .returned _ =>
    outs = [verdict (firstHead m as)]

theorem Tally.untold (h : Tally (firstHead m as) outs [] false) : Untold m as outs := by
  have hnone : firstHead m as = none := isNone_iff_eq_none.1 (by simpa using h.flag.symm)
  have hreports := h.reports
  rw [hnone] at hreports
  exact ⟨by simpa using hreports, hnone⟩

theorem Untold.tally (h : Untold m as outs) :
    Tally (firstHead m as) outs [] false := by
  rw [h.head, h.outs]
  exact ⟨rfl, rfl⟩

theorem Tally.final {status : Option ℤ} (h : Tally status outs [] true) :
    outs = [verdict status] := by
  have hreports := h.reports
  rwa [← h.flag, append_nil] at hreports

theorem Untold.final (h : Untold m as outs) :
    outs ++ [false] = [verdict (firstHead m as)] := by
  rw [h.head, h.outs]
  rfl

theorem told_giveUp (hcb : cfg.hasCb = true) (h : Tally (firstHead m as) outs [] c.cbReported) :
    Told m as outs (giveUp cfg c : FwdPc P S) := by
  unfold giveUp
  cases hc : c.cbReported with
  | false =>
    rw [hc] at h
    simp only [hcb, Bool.not_false, Bool.and_self, if_true]
    exact h.untold
  | true =>
    rw [hc] at h
    exact h.final

theorem told_afterFailure (hcb : cfg.hasCb = true) (h : Tally (firstHead m as) outs [] c.cbReported) (site : Site) :
    Told m as outs (afterFailure cfg c site : FwdPc P S) := by
  unfold afterFailure
  split_ifs
  · exact h
  · exact told_giveUp hcb h
  · exact told_giveUp hcb h

theorem told_afterRelay {a : Attempt P} {past : List (Attempt P)} {r : Relay} (s : S) (hat : a.At m r.pc)
    (h : Tally (firstHead m (a :: past)) outs r.pc.owed r.cbReported) :
    Told m (a :: past) outs (afterRelay c s r) := by
  obtain ⟨reported, pc⟩ := r
  -- a relay that returns a value has seen a complete head
  have hvalue : ∀ keepalive, pc = .returned (some keepalive) → outs = [verdict (firstHead m (a :: past))] := by
    rintro keepalive rfl
    obtain ⟨state, hprog, -⟩ := hat
    have hsome : (firstHead m (a :: past)).isSome = true := by
      simp [firstHead, headStatus_of_progress hprog]
    have hreported : reported = true := h.flag.trans hsome
    subst hreported
    exact h.final
  cases pc with
  | returned answer =>
    rcases answer with _ | _ | _
    · exact h
    · exact hvalue false rfl
    · exact hvalue true rfl
  | _ => exact h

theorem firstHead_record (he : ∀ s r, e ≠ .relay s r) :
    firstHead m (record as e) = firstHead m as := by
  cases e with
  | poolAcquire p r =>
    exact or_none
  | upstreamWrite s buf r => cases as <;> rfl
  | relay s r => exact absurd rfl (he s r)
  | _ => rw [record_silent (by exact trivial)]

theorem told_record (h : Told m as outs pc) (he : ∀ s r, e ≠ .relay s r) (hout : e.outcome = none) :
    Told m (record as e) (outs ++ e.outcome.toList) pc := by
  have hhead : firstHead m (record as e) = firstHead m as := firstHead_record he
  rw [hout, toList_none, append_nil]
  cases pc with
  | start | slotCas | cbNoPeer | select | slotSubNoPeer | cbFailure => exact ⟨h.outs, hhead.trans h.head⟩
  | _ =>
    simp only [Told] at h ⊢
    rw [hhead]
    exact h

section Call

variable [DecidableEq P]

theorem step_told (hcb : cfg.hasCb = true) (hlink : Linked cfg as pc) (h : Told cfg.request.method as outs pc)
    (hmove : FwdMove cfg pc e pc') :
    Told cfg.request.method (record as e) (outs ++ e.outcome.toList) pc' := by
  cases hmove with
  | slotLoad | slotCasAgain | slotSubNoPeer =>
    refine told_record ?_ (by simp) rfl
    simp only [slotLoop, failNoPeer, hcb]
    first | exact h | split_ifs <;> exact h
  | selectPeer p =>
    have htold : Told cfg.request.method as outs (.peerAdd { peer := p } : FwdPc P S) := Untold.tally h
    exact told_record htold (by simp) rfl
  | cbNoPeer | cbFailure =>
    rw [record_silent (by exact trivial)]
    exact Untold.final h
  | acquirePooled | connected | writeSome =>
    refine told_record ?_ (by simp) rfl
    unfold startUpstreamWrite
    split_ifs <;> exact h
  | relay c s pc e r hr =>
    rw [hcb] at hr
    obtain ⟨a, past, rfl, -, -, hat, -⟩ := hlink
    exact told_afterRelay s (relayStep_inv (r := ⟨c.cbReported, pc⟩) hat hr)
      (relay_tally (r := ⟨c.cbReported, pc⟩) s hat h hr)
  | peerFailure c site => exact told_record (told_afterFailure hcb h site) (by simp) rfl
  | failoverNone => exact told_record (told_giveUp hcb h) (by simp) rfl
  | write502Failed | write502Some =>
    refine told_record ?_ (by simp) rfl
    simp only [start502, after502]
    split_ifs <;> exact h
  | _ => exact told_record h (by simp) rfl

/-- **One outcome per call**: a call with a breaker that has returned has made exactly one report, the verdict on the
first complete head of the run. -/
theorem run_told [DecidableEq S] (hcb : cfg.hasCb = true) {es : List (FwdEvent P S)}
    (h : run (fwdStep cfg) .start es = some pc) : Told cfg.request.method (attempts es) (outcomes es) pc := by
  refine run_induct (fun es pc => Told cfg.request.method (attempts es) (outcomes es) pc) ?_ ?_ es pc h
  · exact ⟨rfl, rfl⟩
  · intro es pc e pc' hrun ih hstep
    rw [attempts_snoc, outcomes_snoc]
    exact step_told hcb (run_linked hrun) ih (fwdStep_iff.1 hstep)

/-! ## Calls without a breaker -/

def Reporting : FwdPc P S → Prop
  | .cbNoPeer | .cbFailure _ | .relay _ _ (.cbFailure _ _) | .relay _ _ (.cbSuccess _ _) => True
  | _ => False

theorem outcome_eq_none (hmove : FwdMove cfg pc e pc') (h : ¬ Reporting pc) :
    e.outcome = none := by
  cases hmove with
  | cbNoPeer | cbFailure => exact absurd trivial h
  | relay c s pc e r hr =>
    cases relayStep_iff.1 hr with
    | cbFailure | cbSuccess => exact absurd trivial h
    | _ => rfl
  | _ => rfl

omit [DecidableEq P] in
theorem not_reporting_startWrite (c : Call P) (s : S) (b : Bool) (state : ResponseState) (buf : Bytes) :
    ¬ Reporting (afterRelay c s ⟨b, startWrite state buf⟩) := by
  unfold startWrite afterWrite
  split_ifs
  · cases state.upstreamKeepalive <;> exact id
  · exact id
  · exact id

theorem step_mute (hcb : cfg.hasCb = false) (hmove : FwdMove cfg pc e pc') :
    ¬ Reporting pc' := by
  cases hmove with
  | slotLoad | slotCasAgain | slotSubNoPeer | peerFailure | failoverNone =>
    simp only [slotLoop, failNoPeer, afterFailure, giveUp, hcb, Bool.and_false, Bool.false_eq_true, if_false]
    first | exact id | split_ifs <;> exact id
  | acquirePooled | connected | writeSome | write502Failed | write502Some =>
    simp only [startUpstreamWrite, start502, after502]
    split_ifs <;> exact id
  | relay c s pc e r hr =>
    rw [hcb] at hr
    cases relayStep_iff.1 hr with
    | headDone _ pending chunk _ _ headerEnd hfind =>
      obtain ⟨state, text, -, heq⟩ := progress_headDone cfg.request.method hfind false c.cbReported
      simp only [heq, Bool.false_eq_true, if_false]
      split_ifs
      · exact not_reporting_startWrite c s _ _ _
      · exact not_reporting_startWrite c s _ _ _
      · exact id
    | bodyChunk | writeSome | cbFailure | cbSuccess | peerSuccess => exact not_reporting_startWrite c s _ _ _
    | _ => exact id
  | _ => exact id

theorem run_mute [DecidableEq S] (hcb : cfg.hasCb = false) {es : List (FwdEvent P S)}
    (h : run (fwdStep cfg) .start es = some pc) : outcomes es = [] := by
  refine (run_induct (fun es pc => ¬ Reporting pc ∧ outcomes es = []) ⟨id, rfl⟩ ?_ es pc h).2
  rintro es pc e pc' - ⟨hpc, houts⟩ hstep
  have hmove := fwdStep_iff.1 hstep
  refine ⟨step_mute hcb hmove, ?_⟩
  rw [outcomes_snoc, houts, outcome_eq_none hmove hpc]
  rfl

end Call

/-! ## Sessions -/

section Session

/-- how often `AllowRequest` of the breaker of an upstream said yes -/
def admitted (u : Bytes) (l : List (SessionEvent P S)) : ℕ :=
  l.countP fun e => match e with | .allow upstream ok _ => ok && upstream = u | _ => false

/-- what an event reports to the breaker of an upstream -/
def SessionEvent.report (u : Bytes) : SessionEvent P S → Option Bool
  | .forward upstream e => if upstream = u then e.outcome else none
  | _ => none

def reports (u : Bytes) (l : List (SessionEvent P S)) : List Bool := l.filterMap (SessionEvent.report u)

def Session.forwarding (s : Session P S) : Bool :=
  match s.pc with
  | .proxying _ _ => true
  | _ => false

def owing (u : Bytes) (cur : List (SessionEvent P S)) : SessionPc P S → ℕ
  | .proxying job _ =>
    if job.target.upstream.name = u ∧ job.target.circuitBreaker = true then 1 - (outcomes (forwardEvents cur)).length
    else 0
  | _ => 0

/-- reports made and owed are as many as admissions, and only a breaker is asked -/
structure Balanced (u : Bytes) (l : List (SessionEvent P S)) (pc : SessionPc P S) : Prop where
  count : (reports u l).length + owing u (current l) pc = admitted u l
  asked : ∀ job, pc = .asking job → job.target.circuitBreaker = true

theorem length_reports_snoc (u : Bytes) (l : List (SessionEvent P S)) (e : SessionEvent P S) :
    (reports u (l ++ [e])).length = (reports u l).length + (e.report u).toList.length := by
  cases h : e.report u <;> simp [reports, filterMap_append, h]

theorem admitted_snoc (u : Bytes) (l : List (SessionEvent P S)) {e : SessionEvent P S}
    (he : ∀ upstream ok date, e ≠ .allow upstream ok date) : admitted u (l ++ [e]) = admitted u l := by
  cases e with
  | allow upstream ok date => exact absurd rfl (he upstream ok date)
  | _ => simp [admitted, countP_append]

theorem admitted_allow (u upstream : Bytes) (l : List (SessionEvent P S)) (ok : Bool) (date : HttpDate) :
    admitted u (l ++ [.allow upstream ok date]) = admitted u l + if ok = true ∧ upstream = u then 1 else 0 := by
  simp [admitted, countP_append, countP_cons]

/-- the session is at a point that has nothing to do with a breaker -/
def Idle (pc : SessionPc P S) : Prop := (∀ job, pc ≠ .asking job) ∧ ∀ job fpc, pc ≠ .proxying job fpc

theorem idle_startSend (buf : Bytes) (close : Bool) : Idle (startSend buf close : SessionPc P S) := by
  unfold startSend afterSend
  split_ifs <;> exact ⟨by simp, by simp⟩

theorem idle_startFallback (job : Job P) (buf : Bytes) : Idle (startFallback job buf : SessionPc P S) := by
  unfold startFallback
  split_ifs <;> exact ⟨by simp, by simp⟩

theorem idle_handleParseStatus (r : ParseStatus × HttpParser) (date : HttpDate) :
    Idle (handleParseStatus r date : Session P S).pc := by
  unfold handleParseStatus
  dsimp only
  split_ifs
  · exact ⟨by simp, by simp⟩
  · exact ⟨by simp, by simp⟩
  · exact idle_startSend _ _

theorem idle_afterForward (job : Job P) (date : HttpDate) (status : ProxyForwardStatus) :
    Idle (afterForward job date status : SessionPc P S) := by
  cases status with
  | noPeer => exact idle_startFallback _ _
  | _ => exact ⟨by simp [afterForward], by simp [afterForward]⟩

theorem Idle.owing {pc : SessionPc P S} (h : Idle pc) (u : Bytes) (cur : List (SessionEvent P S)) :
    owing u cur pc = 0 := by
  cases pc with
  | proxying job fpc => exact absurd rfl (h.2 job fpc)
  | _ => rfl

variable {l : List (SessionEvent P S)} {u : Bytes}

theorem balanced_idle {pc pc' : SessionPc P S} {e : SessionEvent P S} (h : Balanced u l pc)
    (hpc : owing u (current l) pc = 0)
    (hpc' : Idle pc') (hreport : e.report u = none) (hadmitted : admitted u (l ++ [e]) = admitted u l) :
    Balanced u (l ++ [e]) pc' := by
  refine ⟨?_, fun job hjob => absurd hjob (hpc'.1 job)⟩
  rw [length_reports_snoc, hreport, hadmitted, hpc'.owing, ← h.count, hpc]
  rfl

theorem Told.length_le (h : Told m as outs pc) :
    outs.length ≤ 1 := by
  have htally : ∀ {status owed reported}, Tally status outs owed reported → outs.length ≤ 1 := by
    intro status owed reported ht
    have hlen := congrArg List.length ht.reports
    rw [length_append] at hlen
    split_ifs at hlen
    · rw [length_singleton] at hlen
      omega
    · rw [length_nil] at hlen
      omega
  cases pc with
  | start | slotCas | cbNoPeer | select | slotSubNoPeer | cbFailure => simp [h.outs]
  | peerAdd | peerRequests | acquire | connect | upstreamWrite | peerFailure | retrySelect | failover | switchPeer
  | relay => exact htally h
  | write502 | shutdown | poolRelease | releasePeer | releaseSlot | returned =>
    rw [show outs = _ from h]
    exact le_rfl

variable [DecidableEq P] [DecidableEq S] {core : GatewayCore P} {clientIp : Bytes}

/-- an admitted call that has come to `pc` made one report at most, and exactly one when it has returned -/
theorem calling_outcomes {job : Job P} {cur : List (SessionEvent P S)} (h : Calling core job cur pc) :
    if job.target.circuitBreaker = true then
      (outcomes (forwardEvents cur)).length ≤ 1 ∧ ∀ status, pc = .returned status →
        (outcomes (forwardEvents cur)).length = 1
    else outcomes (forwardEvents cur) = [] := by
  split_ifs with hcb
  · have hasCb : (job.cfg core).hasCb = true := hcb
    have htold := run_told hasCb h.run
    refine ⟨htold.length_le, ?_⟩
    rintro status rfl
    rw [show outcomes (forwardEvents cur) = _ from htold]
    rfl
  · have hasCb : (job.cfg core).hasCb = false := Bool.eq_false_iff.2 hcb
    exact run_mute hasCb h.run

theorem owing_forward {job : Job P} (h : Calling core job (current l ++ [.forward job.target.upstream.name e]) pc') :
    ((SessionEvent.forward job.target.upstream.name e).report u).toList.length +
        owing u (current l ++ [.forward job.target.upstream.name e]) (.proxying job pc') =
      owing u (current l) (.proxying job pc) := by
  have houts := calling_outcomes h
  have hsplit : (outcomes (forwardEvents (current l ++ [SessionEvent.forward job.target.upstream.name e]))).length =
      (outcomes (forwardEvents (current l))).length + e.outcome.toList.length := by
    rw [forwardEvents_snoc]
    change (outcomes (_ ++ [e])).length = _
    rw [outcomes_snoc, length_append]
  simp only [owing, SessionEvent.report]
  by_cases hu : job.target.upstream.name = u
  · by_cases hcb : job.target.circuitBreaker = true
    · rw [if_pos hcb] at houts
      rw [if_pos hu, if_pos ⟨hu, hcb⟩, if_pos ⟨hu, hcb⟩]
      omega
    · rw [if_neg hcb] at houts
      rw [houts, length_nil] at hsplit
      rw [if_pos hu, if_neg (fun h => hcb h.2), if_neg (fun h => hcb h.2)]
      omega
  · simp [hu]

theorem step_balanced {s s' : Session P S} {e : SessionEvent P S} (hrun : run (sessionStep core clientIp) {} l = some s)
    (h : Balanced u l s.pc) (hstep : sessionStep core clientIp s e = some s') : Balanced u (l ++ [e]) s'.pc := by
  have hnow := run_answering hrun
  have hrun' : run (sessionStep core clientIp) {} (l ++ [e]) = some s' := by rw [run_snoc, hrun]; exact hstep
  have hnext := run_answering hrun'
  cases sessionMove_of_step hstep with
  | handle p iter answers =>
    have hconsistent := handleRequest_consistent core p.request clientIp answers
    have hcount := h.count
    cases hdec : core.handleRequest p.request clientIp answers with
    | ask target =>
      rw [hdec] at hconsistent
      refine ⟨?_, ?_⟩
      · rw [length_reports_snoc, admitted_snoc u l (by simp)]
        exact hcount
      · rintro job hjob
        cases hjob
        exact hconsistent
    | act a =>
      cases a with
      | send response close => exact balanced_idle h rfl (idle_startSend _ _) rfl (admitted_snoc u l (by simp))
      | proxy target =>
        rw [hdec] at hconsistent
        have hcb : target.circuitBreaker = false := hconsistent
        refine ⟨?_, fun job hjob => by cases hjob⟩
        rw [length_reports_snoc, admitted_snoc u l (by simp)]
        simp only [decided, applyAction, owing, hcb, Bool.false_eq_true, and_false]
        exact hcount
  | allow p job ok date =>
    have hcb := h.asked job rfl
    have hcount := h.count
    cases ok with
    | false =>
      refine balanced_idle h rfl (idle_startSend _ _) rfl ?_
      rw [admitted_allow]
      simp
    | true =>
      refine ⟨?_, fun job hjob => by cases hjob⟩
      have hnone : forwardEvents (current (l ++ [SessionEvent.allow job.target.upstream.name true date])) = [] := by
        rw [current_snoc l (by simp), forwardEvents_snoc, hnow.1]
        rfl
      rw [length_reports_snoc, admitted_allow, ← hcount]
      simp only [applyAction, afterAllow, if_true, owing, hnone, hcb, true_and]
      simp [SessionEvent.report, outcomes]
  | forward p job pc pc' e hmove =>
    refine ⟨?_, fun job hjob => by cases hjob⟩
    have hcount := h.count
    rw [current_snoc l (by simp)] at hnext ⊢
    rw [length_reports_snoc, admitted_snoc u l (by simp), ← hcount, ← owing_forward hnext, add_assoc]
  | forwarded p job status date =>
    have hidle : owing u (current l) (.proxying job (.returned status)) = 0 := by
      have houts := calling_outcomes hnow
      simp only [owing]
      split_ifs with hcb
      · rw [if_pos hcb.2] at houts
        rw [houts.2 status rfl]
      · rfl
    exact balanced_idle h hidle (idle_afterForward job date status) rfl (admitted_snoc u l (by simp))
  | fallbackSome => exact balanced_idle h rfl (idle_startFallback _ _) rfl (admitted_snoc u l (by simp))
  | sendSome => exact balanced_idle h rfl (idle_startSend _ _) rfl (admitted_snoc u l (by simp))
  | read | next => exact balanced_idle h rfl (idle_handleParseStatus _ _) rfl (admitted_snoc u l (by simp))
  | readEnd | fallbackFailed | sendFailed | shutdown | close =>
    exact balanced_idle h rfl ⟨by simp, by simp⟩ rfl (admitted_snoc u l (by simp))

theorem run_balanced {s : Session P S} (u : Bytes) (h : run (sessionStep core clientIp) {} l = some s) :
    Balanced u l s.pc := by
  refine run_induct (fun l (s : Session P S) => Balanced u l s.pc) ⟨rfl, by simp⟩ ?_ l s h
  intro l s e s' hrun ih hstep
  exact step_balanced hrun ih hstep

/-- **Exactly one breaker outcome.** A call with a breaker that has returned has made exactly one report, a success if
and only if the first complete response head of its run has a status below 500; for a well-formed head that status is
its status code. So in every session each breaker gets as many reports as it admitted requests, but for the request that
is being forwarded. -/
theorem one_outcome :
    (∀ (cfg : ForwardCfg P) (es : List (FwdEvent P S)) (status : ProxyForwardStatus), cfg.hasCb = true →
        run (fwdStep cfg) .start es = some (.returned status) →
        ∃ outcome, outcomes es = [outcome] ∧
          (outcome = true ↔ ∃ code, firstHead cfg.request.method (attempts es) = some code ∧ code < 500)) ∧
      (∀ (m : Method) (h : ResponseHead) (rest : Bytes), headStatus m (h.bytes ++ rest) = some (h.status : ℤ)) ∧
      ∀ (core : GatewayCore P) (clientIp : Bytes) (l : List (SessionEvent P S)) (s : Session P S) (u : Bytes),
        run (sessionStep core clientIp) {} l = some s →
        (reports u l).length ≤ admitted u l ∧ admitted u l ≤ (reports u l).length + 1 ∧
          (s.forwarding = false → (reports u l).length = admitted u l) := by
  refine ⟨?_, fun m h rest => headStatus_head m h rest, ?_⟩
  · intro cfg es status hcb hrun
    refine ⟨_, run_told hcb hrun, ?_⟩
    simp [verdict, Option.any_eq_true]
  · intro core clientIp l s u hrun
    have hcount := (run_balanced u hrun).count
    have hle : owing u (current l) s.pc ≤ 1 := by
      unfold owing
      split
      · split_ifs <;> omega
      · exact Nat.zero_le 1
    refine ⟨by omega, by omega, fun hidle => ?_⟩
    have hzero : owing u (current l) s.pc = 0 := by
      obtain ⟨p, pc⟩ := s
      cases pc with
      | proxying => cases hidle
      | _ => rfl
    omega

end Session

/-! ## A call and a session -/

def breakerCfg : ForwardCfg Unit := { getCfg with hasCb := true }

def breakerRun : List (FwdEvent Unit Unit) :=
  getStart ++
    [.relay () (.read (some (str "HTTP/1.1 204 No Content\r\n\r\n"))), .relay () .peerSuccess, .relay () .cbSuccess,
      .relay () (.write (str "HTTP/1.1 204 No Content\r\n\r\n") (some 27)), .poolRelease () (), .peerSub (), .slotSub]

def breakerCore : GatewayCore Unit :=
  (GatewayCore.make (str "gw")
    (({} : UpstreamRegistry Unit).add
      { name := str "up", circuitBreakerEnabled := true, peers := [], config := fun _ => {} })
    someDate).addProxyRouteWith (str "/") (str "up") {} true someDate

/-- the breaker admits a request that finds all request slots taken -/
def breakerSession : List (SessionEvent Unit Unit) :=
  getRead ++ [.allow (str "up") true someDate, .forward (str "up") (.slotLoad 1024), .forward (str "up") .cbFailure,
    .forwarded someDate]

theorem one_outcome_success :
    (∃ outcome, outcomes breakerRun = [outcome] ∧
        (outcome = true ↔ ∃ code, firstHead .get (attempts breakerRun) = some code ∧ code < 500)) ∧
      (run (sessionStep breakerCore []) {} breakerSession).map Session.forwarding = some false ∧
      (reports (str "up") breakerSession).length = admitted (str "up") breakerSession ∧
      reports (str "up") breakerSession = [false] := by
  have hrun : (run (sessionStep breakerCore []) {} breakerSession).map Session.forwarding = some false := by
    decide +kernel
  refine ⟨one_outcome.1 breakerCfg breakerRun .completed rfl (by decide +kernel), hrun, ?_, by decide +kernel⟩
  obtain ⟨s, hs, hidle⟩ := map_eq_some_iff.1 hrun
  exact (one_outcome.2.2 breakerCore [] breakerSession s (str "up") hs).2.2 hidle

end Coropact.Gateway
