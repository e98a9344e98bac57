/-
Whose fault a reported failure is.

`UpstreamFault` lists what an upstream can do wrong in a call: a connect, write or read that fails, a stream that ends
before a complete head, a head with a status of 500 or above. `OnlyFaults` asks that nothing else is reported: every
`OnFailure` of a peer comes right behind such a fault, every `OnFailure` of the breaker behind one, and a write to the
client that fails ends the call as kClientClosed, with no further attempt.

`Forward` does not keep to it. A refused request slot and a load balancer without a peer are reported to the breaker,
and an error of `RelayResponse` is taken for one of the upstream although it may be one of the client. `Fair` leaves out
those steps.
-/
import Coropact.Gateway.BreakerOutcome

namespace Coropact.Gateway

open Coropact.Http Coropact.Text Coropact.Machine

variable {P S : Type*}

/-! ## Faults and reports -/

def readSoFar (es : List (FwdEvent P S)) : Bytes := (attempts es).head?.elim [] Attempt.reads

/-- the event is a fault of the upstream, behind the events `es` -/
def UpstreamFault (m : Method) (es : List (FwdEvent P S)) : FwdEvent P S → Prop
  | .connect _ none => True
  | .upstreamWrite _ _ r => r.getD 0 = 0
  | .relay _ (.read none) => True
  | .relay _ (.read (some chunk)) =>
    headStatus m (readSoFar es) = none ∧ (chunk = [] ∨ ∃ status ∈ headStatus m (readSoFar es ++ chunk), 500 ≤ status)
  | _ => False

def Faulted (m : Method) (es : List (FwdEvent P S)) : Prop := ∃ l f r, es = l ++ f :: r ∧ UpstreamFault m l f

def LastFault (m : Method) (es : List (FwdEvent P S)) : Prop := ∃ l f, es = l ++ [f] ∧ UpstreamFault m l f

/-- a report of a failure has a fault behind it: the last event for the peer, some event for the breaker -/
def Blamed (m : Method) (es : List (FwdEvent P S)) : FwdEvent P S → Prop
  | .peerFailure _ => LastFault m es
  | .cbFailure | .relay _ .cbFailure => Faulted m es
  | _ => True

/-- a write to the client that fails or takes nothing -/
def FwdEvent.clientFails : FwdEvent P S → Prop
  | .relay _ (.write _ r) | .write502 _ r => r.getD 0 = 0
  | _ => False

/-- only faults of the upstream are reported, and a failed write to the client closes the call -/
structure OnlyFaults (m : Method) (es : List (FwdEvent P S)) (pc : FwdPc P S) : Prop where
  blamed : EachStep (Blamed m) [] es
  closed : ∀ l e r, es = l ++ e :: r → e.clientFails →
    (∀ status, pc = .returned status → status = .clientClosed) ∧ ∀ p s, .poolAcquire p s ∉ r

/-- with a breaker a slot is not refused and the first selection finds a peer; no write to the client fails -/
def Fair (cfg : ForwardCfg P) (es : List (FwdEvent P S)) : FwdEvent P S → Prop
  | .slotLoad v | .slotCas _ false v => cfg.hasCb = true → v < cfg.maxConcurrentRequests
  | .lbSelect none => cfg.hasCb = true → attempts es ≠ []
  | e => ¬ e.clientFails

variable {es : List (FwdEvent P S)} {pc : FwdPc P S} {e : FwdEvent P S} {m : Method}

theorem LastFault.faulted (h : LastFault m es) : Faulted m es := by
  obtain ⟨l, f, rfl, hf⟩ := h
  exact ⟨l, f, [], rfl, hf⟩

theorem Faulted.snoc (h : Faulted m es) (e : FwdEvent P S) :
    Faulted m (es ++ [e]) := by
  obtain ⟨l, f, r, rfl, hf⟩ := h
  exact ⟨l, f, r ++ [e], by simp, hf⟩

theorem lastFault_snoc (h : UpstreamFault m es e) :
    LastFault m (es ++ [e]) :=
  ⟨es, e, rfl, h⟩

theorem Fair.not_clientFails {cfg : ForwardCfg P} (h : Fair cfg es e) :
    ¬ e.clientFails := by
  cases e with
  | slotLoad | slotCas | lbSelect => exact id
  | _ => exact h

/-! ## Fair steps -/

section Step

variable {cfg : ForwardCfg P}

/-- what is known at the points that lead to a report -/
def Grounded (cfg : ForwardCfg P) (es : List (FwdEvent P S)) : FwdPc P S → Prop
  | .cbNoPeer => False
  | .slotSubNoPeer => cfg.hasCb = false
  | .peerFailure _ _ => LastFault cfg.request.method es
  | .retrySelect _ _ | .failover _ _ | .cbFailure _ | .relay _ _ (.cbFailure _ _) => Faulted cfg.request.method es
  | _ => True

theorem startWrite_fine (state : ResponseState) (buf : Bytes) :
    ¬ (startWrite state buf = .returned none ∨ ∃ state' buf', startWrite state buf = .cbFailure state' buf') := by
  unfold startWrite afterWrite
  split_ifs <;> simp

theorem relay_fault {a : Attempt P} {past : List (Attempt P)} {r r' : Relay} {e : RelayEvent} {hasCb : Bool} (s : S)
    (has : attempts es = a :: past) (hat : a.At m r.pc) (hwrite : ¬ (FwdEvent.relay s e : FwdEvent P S).clientFails)
    (hstep : relayStep m hasCb r e = some r')
    (hpc : r'.pc = .returned none ∨ ∃ state buf, r'.pc = .cbFailure state buf) :
    UpstreamFault m es (.relay s e) := by
  have hread : readSoFar es = a.reads := by rw [readSoFar, has]; rfl
  cases relayStep_iff.1 hstep with
  | headError | bodyError => trivial
  | headEof c pending =>
    obtain ⟨-, -, hnone⟩ := hat
    exact ⟨by rw [hread, headStatus_of_progress_none hnone], .inl rfl⟩
  | headDone c pending chunk _ _ headerEnd hfind =>
    obtain ⟨hpending, -, hnone⟩ := hat
    obtain ⟨state, text, hprog, heq⟩ := progress_headDone m hfind hasCb c
    refine ⟨by rw [hread, headStatus_of_progress_none hnone], .inr ⟨state.status, ?_, ?_⟩⟩
    · rw [hread, ← hpending]
      exact headStatus_of_progress hprog
    · rw [heq] at hpc
      split_ifs at hpc with _ h500
      · exact absurd hpc (startWrite_fine _ _)
      · exact h500
      · exact h500
      · rcases hpc with hpc | ⟨_, _, hpc⟩ <;> cases hpc
  | writeError | writeZero => exact absurd rfl hwrite
  | bodyEof | headMore => rcases hpc with hpc | ⟨_, _, hpc⟩ <;> cases hpc
  | peerSuccess c state buf =>
    dsimp only at hpc
    split_ifs at hpc
    · rcases hpc with hpc | ⟨_, _, hpc⟩ <;> cases hpc
    · exact absurd hpc (startWrite_fine _ _)
  | bodyChunk | writeSome | cbFailure | cbSuccess => exact absurd hpc (startWrite_fine _ _)

theorem grounded_afterRelay {c : Call P} {s : S} {r : Relay}
    (h : r.pc = .returned none ∨ (∃ state buf, r.pc = .cbFailure state buf) → LastFault cfg.request.method es) :
    Grounded cfg es (afterRelay c s r) := by
  obtain ⟨reported, pc⟩ := r
  cases pc with
  | returned answer =>
    rcases answer with _ | _ | _
    · exact h (.inl rfl)
    · trivial
    · trivial
  | cbFailure state buf => exact (h (.inr ⟨state, buf, rfl⟩)).faulted
  | _ => trivial

variable [DecidableEq P]

theorem step_grounded {pc' : FwdPc P S} (hlink : Linked cfg (attempts es) pc) (h : Grounded cfg es pc)
    (hfair : Fair cfg es e)
    (hmove : FwdMove cfg pc e pc') : Blamed cfg.request.method es e ∧ Grounded cfg (es ++ [e]) pc' := by
  cases hmove with
  | slotLoad _ v | slotCasAgain _ v =>
    refine ⟨trivial, ?_⟩
    unfold slotLoop failNoPeer
    split_ifs with hv hcb
    · trivial
    · exact hv (hfair hcb)
    · trivial
  | cbNoPeer => exact absurd h id
  | selectNone =>
    refine ⟨trivial, Bool.eq_false_iff.2 fun hcb => ?_⟩
    exact hfair hcb hlink
  | slotSubNoPeer =>
    rw [failNoPeer, show cfg.hasCb = false from h]
    exact ⟨trivial, trivial⟩
  | acquirePooled | connected | writeSome | write502Failed | write502Some =>
    refine ⟨trivial, ?_⟩
    simp only [startUpstreamWrite, start502, after502]
    split_ifs <;> trivial
  | connectFailed => exact ⟨trivial, lastFault_snoc trivial⟩
  | writeFailed c s buf r hr => exact ⟨trivial, lastFault_snoc (writeRest_eq_none.1 hr)⟩
  | relay c s pc e r hr =>
    obtain ⟨a, past, has, -, -, hat, -⟩ := hlink
    refine ⟨?_, grounded_afterRelay fun hpc => lastFault_snoc ?_⟩
    · cases relayStep_iff.1 hr with
      | cbFailure => exact h
      | _ => trivial
    · exact relay_fault (r := ⟨c.cbReported, pc⟩) s has hat hfair.not_clientFails hr hpc
  | peerFailure c site =>
    refine ⟨h, ?_⟩
    unfold afterFailure giveUp
    split_ifs <;> first | exact h.faulted.snoc _ | trivial
  | retrySame => exact ⟨trivial, Faulted.snoc h _⟩
  | failoverNone c =>
    refine ⟨trivial, ?_⟩
    unfold giveUp
    split_ifs
    · exact Faulted.snoc h _
    · trivial
  | cbFailure => exact ⟨h, trivial⟩
  | _ => exact ⟨trivial, trivial⟩

end Step

/-! ## Runs -/

section Run

variable {cfg : ForwardCfg P} [DecidableEq P] [DecidableEq S]

theorem run_grounded (h : run (fwdStep cfg) .start es = some pc) (hfair : EachStep (Fair cfg) [] es) :
    EachStep (Blamed cfg.request.method) [] es ∧ Grounded cfg es pc := by
  have hstart : Grounded cfg [] (.start : FwdPc P S) := trivial
  refine run_induct_of (Fair cfg) (fun es pc => EachStep (Blamed cfg.request.method) [] es ∧ Grounded cfg es pc)
    ⟨trivial, hstart⟩ ?_ es pc h hfair
  rintro es pc e pc' hrun ⟨hblamed, hgrounded⟩ hfair hstep
  obtain ⟨h1, h2⟩ := step_grounded (run_linked hrun) hgrounded hfair (fwdStep_iff.1 hstep)
  exact ⟨eachStep_snoc.2 ⟨hblamed, h1⟩, h2⟩

omit [DecidableEq P] [DecidableEq S] in
theorem record_ne_nil {as : List (Attempt P)} (h : as ≠ []) (e : FwdEvent P S) : record as e ≠ [] := by
  cases as with
  | nil => exact absurd rfl h
  | cons a past => cases e <;> simp [record]

omit [DecidableEq P] [DecidableEq S] in
theorem attempts_append_ne_nil {l : List (FwdEvent P S)} (h : attempts l ≠ []) (r : List (FwdEvent P S)) :
    attempts (l ++ r) ≠ [] := by
  induction r using List.reverseRecOn with
  | nil => simpa using h
  | append_singleton r e ih =>
    rw [← List.append_assoc, attempts_snoc]
    exact record_ne_nil ih e

theorem attempts_of_faulted (h : run (fwdStep cfg) .start es = some pc) (hfault : Faulted m es) : attempts es ≠ [] := by
  obtain ⟨l, f, r, rfl, hf⟩ := hfault
  refine attempts_append_ne_nil ?_ _
  obtain ⟨pc₁, hrun, hrest⟩ := run_append_some h
  obtain ⟨pc₂, hstep, -⟩ := Option.bind_eq_some_iff.1 hrest
  have hlink := run_linked hrun
  cases fwdStep_iff.1 hstep with
  | connectFailed =>
    obtain ⟨past, has, -⟩ := hlink
    simp [has]
  | writeFailed | writeSome | relay =>
    obtain ⟨a, past, has, -⟩ := hlink
    simp [has]
  | _ => exact absurd hf id

/-- the call is on its way to kNoPeer -/
def Refusing : FwdPc P S → Prop
  | .cbNoPeer | .slotSubNoPeer | .returned .noPeer => True
  | _ => False

omit [DecidableEq P] [DecidableEq S] in
theorem refusing_failNoPeer : Refusing (failNoPeer cfg : FwdPc P S) := by
  unfold failNoPeer
  split_ifs <;> trivial

theorem run_refusing {status : ProxyForwardStatus} (hpc : Refusing pc)
    (h : run (fwdStep cfg) pc es = some (.returned status)) :
    status = .noPeer := by
  have hend : Refusing (.returned status : FwdPc P S) := by
    refine run_induct (fun _ pc => Refusing pc) hpc ?_ es _ h
    intro _ pc e pc' _ ih hstep
    cases fwdStep_iff.1 hstep with
    | cbNoPeer => trivial
    | slotSubNoPeer => exact refusing_failNoPeer
    | _ => exact absurd ih id
  cases status with
  | noPeer => rfl
  | _ => exact absurd hend id

theorem refusing_of_unfair {l : List (FwdEvent P S)} {pc' : FwdPc P S} (hlink : Linked cfg (attempts l) pc)
    (hstep : fwdStep cfg pc e = some pc') (hfair : ¬ Fair cfg l e) :
    e.clientFails ∨ cfg.hasCb = true ∧ Refusing pc' := by
  cases fwdStep_iff.1 hstep with
  | slotLoad _ v | slotCasAgain _ v =>
    obtain ⟨hcb, hv⟩ := Classical.not_imp.1 hfair
    refine .inr ⟨hcb, ?_⟩
    rw [slotLoop, if_neg hv]
    exact refusing_failNoPeer
  | selectNone => exact .inr ⟨(Classical.not_imp.1 hfair).1, trivial⟩
  | retrySame c site r hr =>
    cases r with
    | none =>
      obtain ⟨a, past, has, -⟩ := hlink
      exact absurd (fun _ => by simp [has]) hfair
    | some p => exact absurd id hfair
  | relay | write502Failed | write502Some => exact .inl (not_not.1 hfair)
  | _ => exact absurd id hfair

/-- **Only upstream faults count as upstream faults**, in every run in which no call with a breaker is refused for want
of a slot or a peer and no write to the client fails; and a call that has returned with only such faults reported was
one. -/
theorem only_upstream_faults :
    (∀ (es : List (FwdEvent P S)) (pc : FwdPc P S), run (fwdStep cfg) .start es = some pc →
        EachStep (Fair cfg) [] es → OnlyFaults cfg.request.method es pc) ∧
      ∀ (es : List (FwdEvent P S)) (status : ProxyForwardStatus), run (fwdStep cfg) .start es =
        some (.returned status) →
        OnlyFaults cfg.request.method es (.returned status) → EachStep (Fair cfg) [] es := by
  refine ⟨fun es pc h hfair => ⟨(run_grounded h hfair).1, fun l e r heq hfails => ?_⟩, ?_⟩
  · exact absurd hfails (eachStep_iff.1 hfair l e r heq).not_clientFails
  · intro es status h honly
    rw [eachStep_iff]
    intro l e r heq
    by_contra hunfair
    have hended : Ended cfg.request.method (attempts es) status := run_linked h
    obtain ⟨pc, hrun, hrest⟩ := run_append_some (heq ▸ h)
    obtain ⟨pc', hstep, hrest⟩ := Option.bind_eq_some_iff.1 hrest
    rcases refusing_of_unfair (run_linked hrun) hstep hunfair with hfails | ⟨hcb, hrefusing⟩
    · -- `Forward` never returns kClientClosed
      obtain rfl := (honly.closed l e r heq hfails).1 status rfl
      exact hended
    · -- the breaker was told of a failure without an attempt
      obtain rfl := run_refusing hrefusing hrest
      have hnone : attempts es = [] := hended
      have houts : outcomes es = [verdict (firstHead cfg.request.method (attempts es))] := run_told hcb h
      rw [hnone] at houts
      obtain ⟨f, hf, hfalse⟩ : ∃ f ∈ es, f.outcome = some false := by
        rw [← List.mem_filterMap]
        change false ∈ outcomes es
        rw [houts]
        exact List.mem_singleton.2 rfl
      obtain ⟨l', r', hsplit⟩ := List.append_of_mem hf
      have hblamed := eachStep_iff.1 honly.blamed l' f r' hsplit
      have hfault : Faulted cfg.request.method l' := by
        cases f with
        | cbFailure => exact hblamed
        | relay s e =>
          cases e with
          | cbFailure => exact hblamed
          | _ => cases hfalse
        | _ => cases hfalse
      obtain ⟨pc₁, hrun₁, -⟩ := run_append_some (hsplit ▸ h)
      refine attempts_append_ne_nil (attempts_of_faulted hrun₁ hfault) (f :: r') ?_
      rw [← hsplit, hnone]

end Run

/-- the client of a call with a breaker is gone when the response is written to it -/
def goneRun : List (FwdEvent Unit Unit) :=
  getStart ++
    [.relay () (.read (some (str "HTTP/1.1 204 No Content\r\n\r\n"))), .relay () .peerSuccess, .relay () .cbSuccess,
      .relay () (.write (str "HTTP/1.1 204 No Content\r\n\r\n") none), .peerFailure (), .lbSelect none, .failover [],
      .write502 k502 none, .peerSub (), .slotSub]

def fullRun : List (FwdEvent Unit Unit) := [.slotLoad 1, .cbFailure]

/-- a client that is gone counts as a failure of the peer, and the call does not end as kClientClosed; a full bulkhead
counts as a failure of the upstream -/
theorem client_write_blamed :
    (run (fwdStep breakerCfg) .start goneRun = some (.returned .upstreamFailed) ∧
        ¬ OnlyFaults .get goneRun (.returned .upstreamFailed)) ∧
      run (fwdStep breakerCfg) .start fullRun = some (.returned .noPeer) ∧
      ¬ OnlyFaults .get fullRun (.returned .noPeer) := by
  refine ⟨⟨by decide +kernel, fun h => ?_⟩, by decide +kernel, fun h => ?_⟩
  · have hclosed := (h.closed (goneRun.take 10) (.relay () (.write (str "HTTP/1.1 204 No Content\r\n\r\n") none))
      (goneRun.drop 11) rfl rfl).1 .upstreamFailed rfl
    cases hclosed
  · obtain ⟨l, f, r, heq, hf⟩ : Faulted .get [FwdEvent.slotLoad 1] := h.blamed.2.1
    cases l with
    | nil =>
      obtain ⟨rfl, -⟩ := List.cons.inj heq
      exact hf
    | cons e l => simp at heq

/-- no connection to the peer of a call with a breaker -/
def unreachedRun : List (FwdEvent Unit Unit) :=
  [.slotLoad 0, .slotCas 0 true 0, .lbSelect (some ()), .peerAdd (), .peerRequests (), .poolAcquire () none,
    .connect () none, .peerFailure (), .lbSelect none, .failover [], .cbFailure, .write502 k502 (some k502.length),
    .peerSub (), .slotSub]

theorem only_upstream_faults_unreached :
    run (fwdStep breakerCfg) .start unreachedRun = some (.returned .upstreamFailed) ∧
      OnlyFaults .get unreachedRun (.returned .upstreamFailed) ∧ EachStep (Fair breakerCfg) [] unreachedRun := by
  have hrun : run (fwdStep breakerCfg) .start unreachedRun = some (.returned .upstreamFailed) := by decide +kernel
  have hfair : EachStep (Fair breakerCfg) [] unreachedRun := by
    refine ⟨fun _ => by decide, ?_⟩
    have hwhole : k502 ≠ [] := by decide
    simp [EachStep, Fair, FwdEvent.clientFails, attempts, record, hwhole]
  have honly : OnlyFaults .get unreachedRun (.returned .upstreamFailed) := only_upstream_faults.1 _ _ hrun hfair
  exact ⟨hrun, honly, only_upstream_faults.2 _ _ hrun honly⟩

end Coropact.Gateway
