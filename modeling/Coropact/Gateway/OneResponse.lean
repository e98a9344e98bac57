/-
What the client of a proxied request gets.

`OneResponse` says that every byte the client took comes from one place: the relay of a single attempt, whose rewritten
head and relayed body it is a prefix of, or the 502. `Forward` does not remember whether the relay has committed the
response: after a relay that fails in the middle of a response it goes on to the next peer, or to the 502. So the
property holds along the runs in which the relay fails only while the client has nothing of the attempt.
-/
import Coropact.Gateway.Attempts

namespace Coropact.Gateway

open Coropact.Http Coropact.Text Coropact.Machine List

variable {P S : Type*} {cfg : ForwardCfg P}

/-! ## One source -/

/-- the bytes the client took are those of one attempt, a prefix of its rewritten head and relayed body; or they are a
prefix of the 502 -/
def OneResponse (m : Method) (es : List (FwdEvent P S)) : Prop :=
  (∃ pre a post, attempts es = pre ++ a :: post ∧ (∀ b ∈ pre ++ post, b.relayed = []) ∧ sent502 es = [] ∧
      toClient es = a.relayed ∧ ∃ state text, progress m a.reads = some (state, text) ∧ a.relayed <+: text) ∨
    (∀ a ∈ attempts es, a.relayed = []) ∧ toClient es = sent502 es ∧ sent502 es <+: k502

/-- an answer that makes `RelayResponse` return an error behind the head; the end of the stream is none -/
def RelayEvent.fails (e : RelayEvent) : Bool := !e.answered && !e.isEof

/-- the relay fails only while the client has nothing of the attempt -/
def CleanFailure (es : List (FwdEvent P S)) : FwdEvent P S → Prop
  | .relay _ e => e.fails = true → ∀ a ∈ (attempts es).head?, a.relayed = []
  | _ => True

instance (es : List (FwdEvent P S)) (e : FwdEvent P S) : Decidable (CleanFailure es e) := by
  cases e <;> unfold CleanFailure <;> infer_instance

/-- nothing was sent to the client -/
structure Quiet (as : List (Attempt P)) (sent client : Bytes) : Prop where
  relayed : ∀ a ∈ as, a.relayed = []
  sent : sent = []
  client : client = []

/-- the client's bytes are those of the last attempt -/
def FromAttempt (as : List (Attempt P)) (sent client : Bytes) : Prop :=
  ∃ a past, as = a :: past ∧ (∀ b ∈ past, b.relayed = []) ∧ sent = [] ∧ client = a.relayed

/-- the client's bytes are those of the 502, of which `rest` is still to come -/
structure From502 (as : List (Attempt P)) (sent client rest : Bytes) : Prop where
  relayed : ∀ a ∈ as, a.relayed = []
  client : client = sent
  text : sent ++ rest = k502

def Answered (as : List (Attempt P)) (sent client : Bytes) : ProxyForwardStatus → Prop
  | .completed => FromAttempt as sent client
  | .noPeer => Quiet as sent client
  | _ => ∃ rest, From502 as sent client rest

/-- where the client's bytes come from, at each program point; `sent` are those of the 502 -/
def Sourced (as : List (Attempt P)) (sent client : Bytes) : FwdPc P S → Prop
  | .relay _ _ _ | .poolRelease _ _ => FromAttempt as sent client
  | .write502 _ buf => From502 as sent client buf
  | .shutdown _ => ∃ rest, From502 as sent client rest
  | .releasePeer _ status | .releaseSlot status | .returned status => Answered as sent client status
  | _ => Quiet as sent client

variable {as : List (Attempt P)} {es : List (FwdEvent P S)} {sent client : Bytes} {e : FwdEvent P S} {m : Method}
  {pc : FwdPc P S} {r : Relay}

theorem Quiet.from502 (h : Quiet as sent client) :
    From502 as sent client k502 :=
  ⟨h.relayed, h.client.trans h.sent.symm, by rw [h.sent, nil_append]⟩

theorem Quiet.fromAttempt {a : Attempt P} {past : List (Attempt P)} (h : Quiet (a :: past) sent client) :
    FromAttempt (a :: past) sent client := by
  obtain ⟨ha, hpast⟩ := forall_mem_cons.1 h.relayed
  exact ⟨a, past, rfl, hpast, h.sent, h.client.trans ha.symm⟩

theorem sourced_startUpstreamWrite (h : Quiet as sent client) (hne : as ≠ []) (c : Call P) (s : S) (buf : Bytes) :
    Sourced as sent client (startUpstreamWrite c s buf) := by
  unfold startUpstreamWrite
  split_ifs
  · cases as with
    | nil => exact absurd rfl hne
    | cons a past => exact h.fromAttempt
  · exact h

theorem sourced_giveUp (h : Quiet as sent client) (c : Call P) :
    Sourced as sent client (giveUp cfg c : FwdPc P S) := by
  unfold giveUp
  split_ifs
  · exact h
  · exact h.from502

theorem sourced_after502 {rest : Bytes} (h : From502 as sent client rest) (c : Call P) :
    Sourced as sent client (after502 cfg c : FwdPc P S) := by
  unfold after502
  split_ifs <;> exact ⟨rest, h⟩

theorem Quiet.oneResponse (h : Quiet (attempts es) (sent502 es) (toClient es)) : OneResponse m es :=
  .inr ⟨h.relayed, h.client.trans h.sent.symm, h.sent ▸ nil_prefix⟩

theorem From502.oneResponse {rest : Bytes} (h : From502 (attempts es) (sent502 es) (toClient es) rest) :
    OneResponse m es :=
  .inr ⟨h.relayed, h.client, ⟨rest, h.text⟩⟩

theorem FromAttempt.oneResponse (hdue : ∀ a ∈ attempts es, a.Due m)
    (h : FromAttempt (attempts es) (sent502 es) (toClient es)) :
    OneResponse m es := by
  obtain ⟨a, past, has, hpast, hsent, hclient⟩ := h
  rcases hdue a (by simp [has]) with hnil | ⟨state, text, hprog, htext⟩
  · refine Quiet.oneResponse ⟨?_, hsent, hclient.trans hnil⟩
    rw [has]
    exact forall_mem_cons.2 ⟨hnil, hpast⟩
  · exact .inl ⟨[], a, past, has, hpast, hsent, hclient, state, text, hprog, htext⟩

/-! ## Events that send nothing -/

theorem sent502_eq_nil (h : e.toClient = []) : e.sent502 = [] := by
  cases e with
  | relay => rfl
  | _ => exact h

theorem quiet_record (h : Quiet as sent client) (he : e.toClient = []) :
    Quiet (record as e) (sent ++ e.sent502) (client ++ e.toClient) := by
  refine ⟨?_, by rw [h.sent, sent502_eq_nil he]; rfl, by rw [h.client, he]; rfl⟩
  cases e with
  | poolAcquire p r => exact forall_mem_cons.2 ⟨rfl, h.relayed⟩
  | upstreamWrite s buf r =>
    cases as with
    | nil => exact forall_mem_nil _
    | cons a past => exact forall_mem_cons.2 (forall_mem_cons.1 h.relayed)
  | relay s e =>
    cases as with
    | nil => exact forall_mem_nil _
    | cons a past =>
      obtain ⟨ha, hpast⟩ := forall_mem_cons.1 h.relayed
      refine forall_mem_cons.2 ⟨?_, hpast⟩
      change a.relayed ++ e.bytesSent = []
      rw [ha, show e.bytesSent = [] from he, append_nil]
  | _ =>
    rw [record_silent (by exact trivial)]
    exact h.relayed

theorem sourced_silent (h : Sourced as sent client pc) (hs : e.Silent) (he : e.toClient = []) :
    Sourced (record as e) (sent ++ e.sent502) (client ++ e.toClient) pc := by
  rw [record_silent hs, he, sent502_eq_nil he, append_nil, append_nil]
  exact h

theorem fromAttempt_relay (h : FromAttempt as sent client) (s : S) (e : RelayEvent) :
    FromAttempt (record as (.relay s e)) (sent ++ []) (client ++ e.bytesSent) := by
  obtain ⟨a, past, rfl, hpast, hsent, rfl⟩ := h
  exact ⟨_, past, rfl, hpast, by rw [hsent, append_nil], rfl⟩

/-! ## The step -/

theorem relayStep_failed {hasCb : Bool} {r' : Relay} {e : RelayEvent} (hstep : relayStep m hasCb r e = some r')
    (hf : r'.pc = .returned none) :
    e.bytesSent = [] ∧ (e.fails = true ∨ ∃ pending, r.pc = .head pending) := by
  have hanswered : e.answered = false := by
    rw [Bool.eq_false_iff]
    exact fun h => relayStep_ne_failed hstep h hf
  cases relayStep_iff.1 hstep with
  | headError c pending => exact ⟨rfl, .inr ⟨pending, rfl⟩⟩
  | headEof c pending => exact ⟨rfl, .inr ⟨pending, rfl⟩⟩
  | bodyError | writeError | writeZero => exact ⟨by simp [RelayEvent.bytesSent], .inl rfl⟩
  | bodyEof => cases hf
  | headMore _ _ _ hne | headDone _ _ _ hne | bodyChunk _ _ _ hne => simp [RelayEvent.answered, hne] at hanswered
  | writeSome _ _ _ n hpos => simp [RelayEvent.answered, hpos.ne'] at hanswered
  | cbFailure | cbSuccess | peerSuccess => cases hanswered

theorem sourced_afterRelay {c : Call P} {s : S} (h : FromAttempt as sent client)
    (hf : r.pc = .returned none → Quiet as sent client) :
    Sourced as sent client (afterRelay c s r) := by
  obtain ⟨reported, pc⟩ := r
  cases pc with
  | returned answer =>
    rcases answer with _ | _ | _
    · exact hf rfl
    · exact h
    · exact h
  | _ => exact h

theorem sourced_relay {c : Call P} {s : S} {pc : RelayPc} {e : RelayEvent}
    (hlink : Linked cfg (attempts es) (.relay c s pc : FwdPc P S)) (h : FromAttempt (attempts es) sent client)
    (hclean : CleanFailure es (.relay s e))
    (hr : relayStep cfg.request.method cfg.hasCb ⟨c.cbReported, pc⟩ e = some r) :
    Sourced (record (attempts es) (.relay s e)) (sent ++ []) (client ++ e.bytesSent) (afterRelay c s r) := by
  refine sourced_afterRelay (fromAttempt_relay h s e) fun hf => ?_
  obtain ⟨hnothing, hcause⟩ := relayStep_failed hr hf
  obtain ⟨a, past, has, hpast, rfl, rfl⟩ := h
  have hrelayed : a.relayed = [] := by
    rcases hcause with hfails | ⟨pending, hpc⟩
    · exact hclean hfails a (by rw [has]; rfl)
    · obtain ⟨a', past', has', -, -, hat, -⟩ := hlink
      obtain ⟨rfl, rfl⟩ := List.cons.inj (has.symm.trans has')
      rw [show pc = .head pending from hpc] at hat
      exact hat.2.1
  refine quiet_record (e := .relay s e) ⟨?_, rfl, hrelayed⟩ hnothing
  rw [has]
  exact forall_mem_cons.2 ⟨hrelayed, hpast⟩

variable [DecidableEq P]

theorem step_sourced {pc' : FwdPc P S} (hlink : Linked cfg (attempts es) pc) (h : Sourced (attempts es) sent client pc)
    (hclean : CleanFailure es e) (hmove : FwdMove cfg pc e pc') :
    Sourced (record (attempts es) e) (sent ++ e.sent502) (client ++ e.toClient) pc' := by
  cases hmove with
  | slotLoad | slotCasAgain | slotSubNoPeer =>
    simp only [slotLoop, failNoPeer]
    split_ifs <;> exact quiet_record h rfl
  | acquirePooled c s => exact sourced_startUpstreamWrite (quiet_record h rfl) (by simp [record]) c s _
  | connected c s =>
    obtain ⟨past, has, -⟩ := hlink
    exact sourced_startUpstreamWrite (quiet_record h rfl) (by simp [has, record]) c s _
  | writeSome c s buf n _ _ =>
    obtain ⟨a, past, has, -⟩ := hlink
    exact sourced_startUpstreamWrite (quiet_record h rfl) (by simp [has, record]) c s _
  | relay c s pc e r hr => exact sourced_relay hlink h hclean hr
  | peerFailure c site =>
    unfold afterFailure
    split_ifs
    · exact quiet_record h rfl
    · exact sourced_giveUp (quiet_record h rfl) _
    · exact sourced_giveUp (quiet_record h rfl) _
  | failoverNone => exact sourced_giveUp (quiet_record h rfl) _
  | cbFailure c => exact (quiet_record h rfl).from502
  | write502Failed c buf r hr =>
    have hnothing : (FwdEvent.write502 buf r : FwdEvent P S).toClient = [] := by
      simp [FwdEvent.toClient, FwdEvent.sent502, writeRest_eq_none.1 hr]
    refine sourced_silent (sourced_after502 h _) trivial hnothing
  | write502Some c buf n _ _ =>
    rw [record_silent (by exact trivial)]
    have hsent : From502 (attempts es) (sent ++ buf.take n) (client ++ buf.take n) (buf.drop n) := by
      refine ⟨h.relayed, by rw [h.client], ?_⟩
      rw [append_assoc, take_append_drop]
      exact h.text
    unfold start502
    split_ifs
    · exact sourced_after502 hsent _
    · exact hsent
  | shutdown | poolRelease | releasePeer | releaseSlot => exact sourced_silent h trivial rfl
  | _ => exact quiet_record h rfl

/-! ## Runs -/

variable [DecidableEq S]

theorem run_sourced (h : run (fwdStep cfg) .start es = some pc) (hclean : EachStep CleanFailure [] es) :
    Sourced (attempts es) (sent502 es) (toClient es) pc := by
  refine run_induct_of CleanFailure (fun es pc => Sourced (attempts es) (sent502 es) (toClient es) pc) ?_ ?_ es pc h
    hclean
  · exact ⟨forall_mem_nil _, rfl, rfl⟩
  · intro es pc e pc' hrun ih hclean hstep
    rw [attempts_snoc, sent502_snoc, toClient_snoc]
    exact step_sourced (run_linked hrun) ih hclean (fwdStep_iff.1 hstep)

/-- **One response per proxied request**, along every run in which the relay fails only while the client has nothing of
the attempt: all bytes the client took are a prefix of the rewritten head and relayed body of one attempt, and no other
attempt and no 502 added any; or they are a prefix of the 502. -/
theorem one_response {es : List (FwdEvent P S)} {pc : FwdPc P S} (h : run (fwdStep cfg) .start es = some pc)
    (hclean : EachStep CleanFailure [] es) : OneResponse cfg.request.method es := by
  have hdue := (run_linked h).due
  have hsourced := run_sourced h hclean
  cases pc with
  | relay | poolRelease => exact FromAttempt.oneResponse hdue hsourced
  | write502 => exact From502.oneResponse hsourced
  | shutdown =>
    obtain ⟨rest, h502⟩ := hsourced
    exact h502.oneResponse
  | releasePeer _ status | releaseSlot status | returned status =>
    cases status with
    | completed => exact FromAttempt.oneResponse hdue hsourced
    | noPeer => exact Quiet.oneResponse hsourced
    | clientClosed | upstreamFailed =>
      obtain ⟨rest, h502⟩ := hsourced
      exact h502.oneResponse
  | _ => exact Quiet.oneResponse hsourced

/-- the head and two of five bytes arrive and are relayed -/
def brokenResponse : Bytes := str "HTTP/1.1 200 OK\r\nContent-Length: 5\r\n\r\nab"

def brokenRun : List (FwdEvent Unit Unit) :=
  getStart ++
    [.relay () (.read (some brokenResponse)), .relay () .peerSuccess,
      .relay () (.write brokenResponse (some brokenResponse.length)), .relay () (.read none), .peerFailure (),
      .lbSelect (some ()), .failover [()], .write502 k502 (some k502.length), .peerSub (), .slotSub]

/-- the client gets the beginning of a response and the 502 behind it -/
theorem response_then_502 :
    run (fwdStep getCfg) .start brokenRun = some (.returned .upstreamFailed) ∧
      toClient brokenRun = brokenResponse ++ k502 ∧ ¬ OneResponse .get brokenRun := by
  have hfacts : run (fwdStep getCfg) .start brokenRun = some (.returned .upstreamFailed) ∧
      toClient brokenRun = brokenResponse ++ k502 ∧ sent502 brokenRun ≠ [] ∧
      ¬∀ a ∈ attempts brokenRun, a.relayed = [] := by decide +kernel
  obtain ⟨hrun, hclient, hsome, hrelayed⟩ := hfacts
  refine ⟨hrun, hclient, ?_⟩
  rintro (⟨-, -, -, -, -, hsent, -⟩ | ⟨hnone, -⟩)
  · exact hsome hsent
  · exact hrelayed hnone

/-- the first read fails, so the 502 is all the client gets -/
def silentRun : List (FwdEvent Unit Unit) :=
  getStart ++
    [.relay () (.read none), .peerFailure (), .lbSelect none, .failover [], .write502 k502 (some k502.length),
      .peerSub (), .slotSub]

theorem one_response_502 :
    run (fwdStep getCfg) .start silentRun = some (.returned .upstreamFailed) ∧ toClient silentRun = k502 ∧
      OneResponse .get silentRun := by
  have hfacts : run (fwdStep getCfg) .start silentRun = some (.returned .upstreamFailed) ∧ toClient silentRun = k502 ∧
      EachStep CleanFailure [] silentRun := by decide +kernel
  obtain ⟨hrun, hclient, hclean⟩ := hfacts
  have hone := one_response hrun hclean
  exact ⟨hrun, hclient, hone⟩

end Coropact.Gateway
