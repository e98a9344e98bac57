/-
Retry safety of `ProxyPass::Forward`.

A rank orders the program points of the retry loop: the retries left, then the place in the loop, then the bytes that
are still to be written. Every step lowers it, except for the steps inside a relay and the spinning of the
compare-exchange loop in front of the retry loop. So a call that never returns is one whose relay never returns (or
whose compare-exchange never ends): connects, writes and the retry loop itself cannot go on for ever.
-/
import Coropact.Gateway.Attempts

namespace Coropact.Gateway

open Coropact.Http Coropact.Text Coropact.Machine

variable {P S : Type*} {cfg : ForwardCfg P}

/-! ## The rank of a program point -/

/-- the retries left and the place in the loop -/
def weight : FwdPc P S → ℕ
  | .start => 100
  | .slotCas _ => 99
  | .select => 98
  | .retrySelect c _ => 20 * c.retriesLeft.toNat + 15
  | .failover c _ => 20 * c.retriesLeft.toNat + 14
  | .switchPeer c _ _ => 20 * c.retriesLeft.toNat + 13
  | .peerAdd c => 20 * c.retriesLeft.toNat + 12
  | .peerRequests c => 20 * c.retriesLeft.toNat + 11
  | .acquire c => 20 * c.retriesLeft.toNat + 10
  | .connect c => 20 * c.retriesLeft.toNat + 9
  | .upstreamWrite c _ _ => 20 * c.retriesLeft.toNat + 8
  | .relay c _ _ => 20 * c.retriesLeft.toNat + 7
  | .peerFailure c _ => 20 * c.retriesLeft.toNat + 6
  | .cbFailure _ => 5
  | .write502 _ _ => 4
  | .shutdown _ | .poolRelease _ _ => 3
  | .releasePeer _ _ | .slotSubNoPeer => 2
  | .releaseSlot _ | .cbNoPeer => 1
  | .returned _ => 0

/-- the bytes that a `WriteAll` has still to write -/
def unsent : FwdPc P S → ℕ
  | .upstreamWrite _ _ buf | .write502 _ buf => buf.length
  | _ => 0

def rank (pc : FwdPc P S) : ℕ ×ₗ ℕ := toLex (weight pc, unsent pc)

/-- inside `RelayResponse` -/
def InRelay : FwdPc P S → Prop
  | .relay _ _ _ => True
  | _ => False

/-- inside the compare-exchange loop of `TryAcquireRequestSlot` -/
def InSlotLoop : FwdPc P S → Prop
  | .slotCas _ => True
  | _ => False

variable {pc pc' : FwdPc P S}

theorem rank_lt_of_weight (h : weight pc' < weight pc) : rank pc' < rank pc :=
  Prod.Lex.toLex_lt_toLex.2 (.inl h)

theorem rank_lt_of_unsent (hw : weight pc' = weight pc) (h : unsent pc' < unsent pc) :
    rank pc' < rank pc :=
  Prod.Lex.toLex_lt_toLex.2 (.inr ⟨hw, h⟩)

theorem unsent_drop {buf : Bytes} {n : ℕ} (hpos : 0 < n) (hle : n ≤ buf.length) : (buf.drop n).length < buf.length := by
  rw [List.length_drop]
  omega

theorem rank_afterRelay (c : Call P) (s : S) (pc : RelayPc) (r : Relay) :
    rank (afterRelay c s r) < rank (.relay c s pc) ∨ rank (afterRelay c s r) = rank (.relay c s pc) := by
  obtain ⟨reported, pc'⟩ := r
  cases pc' with
  | returned answer =>
    refine .inl (rank_lt_of_weight ?_)
    rcases answer with _ | _ | _
    · simp [afterRelay, weight]
    · simp only [afterRelay, weight]
      omega
    · simp only [afterRelay, weight]
      omega
  | _ => exact .inr rfl

theorem rank_slotLoop (current v : BitVec 64) :
    rank (slotLoop cfg v : FwdPc P S) < rank (.slotCas current : FwdPc P S) ∨
      rank (slotLoop cfg v : FwdPc P S) = rank (.slotCas current : FwdPc P S) := by
  unfold slotLoop failNoPeer
  split_ifs
  · exact .inr rfl
  · exact .inl (rank_lt_of_weight (by simp [weight]))
  · exact .inl (rank_lt_of_weight (by simp [weight]))

theorem afterRelay_live (c : Call P) (s : S) (r : Relay) (c' : Call P) (s' : S) (answer : Option Bool) :
    afterRelay c s r ≠ .relay c' s' (.returned answer) := by
  obtain ⟨reported, pc⟩ := r
  cases pc with
  | returned x => rcases x with _ | _ | _ <;> simp [afterRelay]
  | _ => simp [afterRelay]

/-! ## Steps lower the rank -/

section Step

variable [DecidableEq P]

theorem step_rank {e : FwdEvent P S} (hmove : FwdMove cfg pc e pc') :
    rank pc' < rank pc ∨ rank pc' = rank pc ∧ (InRelay pc ∨ InSlotLoop pc) := by
  cases hmove with
  | slotCasAgain current now => exact (rank_slotLoop current now).imp_right fun h => ⟨h, .inr trivial⟩
  | relay c s pc e r _ => exact (rank_afterRelay c s pc r).imp_right fun h => ⟨h, .inl trivial⟩
  | writeSome c s buf n hpos hle =>
    unfold startUpstreamWrite
    split_ifs
    · exact .inl (rank_lt_of_weight (by simp [weight]))
    · exact .inl (rank_lt_of_unsent rfl (unsent_drop hpos hle))
  | write502Some c buf n hpos hle =>
    unfold start502 after502
    split_ifs
    · exact .inl (rank_lt_of_weight (by simp [weight]))
    · exact .inl (rank_lt_of_weight (by simp [weight]))
    · exact .inl (rank_lt_of_unsent rfl (unsent_drop hpos hle))
  | slotLoad | slotSubNoPeer | acquirePooled | connected | peerFailure | failoverNone | write502Failed =>
    refine .inl (rank_lt_of_weight ?_)
    simp only [slotLoop, failNoPeer, startUpstreamWrite, afterFailure, giveUp, after502]
    split_ifs <;> simp only [weight] <;> omega
  | selectPeer p => exact .inl (rank_lt_of_weight (by simp [weight]))
  | _ => exact .inl (rank_lt_of_weight (by simp [weight, Call.switch]))

/-! ## A call can always go on -/

theorem fwdMove_live {e : FwdEvent P S} (hmove : FwdMove cfg pc e pc') (c : Call P) (s : S) (answer : Option Bool) :
    pc' ≠ .relay c s (.returned answer) := by
  cases hmove with
  | relay c' s' pc e r _ => exact afterRelay_live c' s' r c s answer
  | slotLoad | slotCasAgain | slotSubNoPeer | acquirePooled | connected | writeSome | peerFailure | failoverNone
  | write502Failed | write502Some =>
    simp only [slotLoop, failNoPeer, startUpstreamWrite, afterFailure, giveUp, start502, after502]
    split_ifs <;> simp
  | _ => simp

theorem relay_moves {pc : RelayPc} (h : ∀ answer, pc ≠ .returned answer) (m : Method) (hasCb reported : Bool) :
    ∃ e r, relayStep m hasCb ⟨reported, pc⟩ e = some r := by
  cases pc with
  | head pending => exact ⟨.read none, _, rfl⟩
  | cbFailure state buf => exact ⟨.cbFailure, _, rfl⟩
  | peerSuccess state buf => exact ⟨.peerSuccess, _, rfl⟩
  | cbSuccess state buf => exact ⟨.cbSuccess, _, rfl⟩
  | write state buf => exact ⟨.write buf none, _, relayStep_iff.2 (.writeError reported state buf)⟩
  | body state => exact ⟨.read none, _, rfl⟩
  | returned answer => exact absurd rfl (h answer)

theorem fwdMove_exists (hlive : ∀ c s answer, pc ≠ .relay c s (.returned answer))
    (h : ∀ status, pc ≠ .returned status) :
    ∃ e pc', FwdMove cfg pc e pc' := by
  cases pc with
  | start =>
    by_cases hlimit : cfg.maxConcurrentRequests = 0
    · exact ⟨_, _, .slotAdd hlimit⟩
    · exact ⟨_, _, .slotLoad hlimit 0⟩
  | slotCas current => exact ⟨_, _, .slotCasTaken current 0⟩
  | cbNoPeer => exact ⟨_, _, .cbNoPeer⟩
  | select => exact ⟨_, _, .selectNone⟩
  | slotSubNoPeer => exact ⟨_, _, .slotSubNoPeer⟩
  | peerAdd c => exact ⟨_, _, .peerAdd c⟩
  | peerRequests c => exact ⟨_, _, .peerRequests c⟩
  | acquire c => exact ⟨_, _, .acquireNone c⟩
  | connect c => exact ⟨_, _, .connectFailed c⟩
  | upstreamWrite c s buf => exact ⟨_, _, .writeFailed c s buf none rfl⟩
  | relay c s pc =>
    have hpc : ∀ answer, pc ≠ .returned answer := fun answer h => hlive c s answer (h ▸ rfl)
    obtain ⟨e, r, hr⟩ := relay_moves hpc cfg.request.method cfg.hasCb c.cbReported
    exact ⟨_, _, .relay c s pc e r hr⟩
  | peerFailure c site => exact ⟨_, _, .peerFailure c site⟩
  | retrySelect c site => exact ⟨_, _, .retrySame c site none rfl⟩
  | failover c site =>
    exact ⟨_, _, .failoverNone c site [] (by simp [selectFailoverPeer])⟩
  | switchPeer c site next => exact ⟨_, _, .switchPeer c site next⟩
  | cbFailure c => exact ⟨_, _, .cbFailure c⟩
  | write502 c buf => exact ⟨_, _, .write502Failed c buf none rfl⟩
  | shutdown c => exact ⟨_, _, .shutdown c⟩
  | poolRelease c s => exact ⟨_, _, .poolRelease c s⟩
  | releasePeer c status => exact ⟨_, _, .releasePeer c status⟩
  | releaseSlot status => exact ⟨_, _, .releaseSlot status⟩
  | returned status => exact absurd rfl (h status)

/-! ## Runs -/

variable [DecidableEq S]

theorem run_settles {f : ℕ → FwdPc P S} {ev : ℕ → FwdEvent P S}
    (hf : ∀ n, fwdStep cfg (f n) (ev n) = some (f (n + 1))) :
    ∃ n, (∀ m ≥ n, InRelay (f m)) ∨ ∀ m ≥ n, InSlotLoop (f m) := by
  have hstep : ∀ (pc : FwdPc P S) e pc', fwdStep cfg pc e = some pc' →
      rank pc' < rank pc ∨ rank pc' = rank pc ∧ (InRelay pc ∨ InSlotLoop pc) :=
    fun pc e pc' h => step_rank (fwdStep_iff.1 h)
  obtain ⟨n, hn⟩ := spins_of_rank rank (fun pc => InRelay pc ∨ InSlotLoop pc) hstep hf
  -- the weight tells the two apart, and it stays as it is
  have hweight : ∀ m ≥ n, weight (f m) = weight (f n) := fun m hm => congrArg (fun x => (ofLex x).1) (hn m hm).2
  have hrelay : ∀ pc : FwdPc P S, InRelay pc → weight pc % 20 = 7 := by
    intro pc hpc
    cases pc with
    | relay c s r =>
      simp only [weight]
      omega
    | _ => exact absurd hpc id
  have hslot : ∀ pc : FwdPc P S, InSlotLoop pc → weight pc % 20 = 19 := by
    intro pc hpc
    cases pc with
    | slotCas v => simp [weight]
    | _ => exact absurd hpc id
  refine ⟨n, ?_⟩
  rcases (hn n le_rfl).1 with h | h
  · refine .inl fun m hm => (hn m hm).1.resolve_right fun h' => ?_
    have h1 := hrelay _ h
    have h2 := hslot _ h'
    rw [hweight m hm] at h2
    omega
  · refine .inr fun m hm => (hn m hm).1.resolve_left fun h' => ?_
    have h1 := hslot _ h
    have h2 := hrelay _ h'
    rw [hweight m hm] at h2
    omega

theorem run_moves {es : List (FwdEvent P S)} (h : run (fwdStep cfg) .start es = some pc) :
    (∃ status, pc = .returned status) ∨ ∃ e pc', fwdStep cfg pc e = some pc' := by
  have hlive : ∀ c s answer, pc ≠ .relay c s (.returned answer) := by
    refine run_induct (fun _ pc => ∀ c s answer, pc ≠ .relay c s (.returned answer)) ?_ ?_ es pc h
    · simp
    · exact fun _ _ _ _ _ _ hstep => fwdMove_live (fwdStep_iff.1 hstep)
  by_cases hret : ∃ status, pc = .returned status
  · exact .inl hret
  · have hmove : ∃ e pc', FwdMove cfg pc e pc' := fwdMove_exists hlive (not_exists.1 hret)
    obtain ⟨e, pc', hmove⟩ := hmove
    exact .inr ⟨e, pc', fwdStep_iff.2 hmove⟩

/-- **Retry safety.** After any run: a request whose method is not idempotent was written in one attempt at most, and no
attempt wrote more than its request; there were three attempts at most, each to another peer than the attempt before it;
and the call has returned or can go on, but not for ever unless one relay never returns (or, in front of the retry loop,
the compare-exchange never ends). -/
theorem retry_safe {es : List (FwdEvent P S)} {pc : FwdPc P S} (h : run (fwdStep cfg) .start es = some pc) :
    (isIdempotent cfg.request.method = false → (attempts es).countP Attempt.wrote ≤ 1) ∧
      (∀ a ∈ attempts es, a.written <+: requestText cfg a.peer) ∧
      (attempts es).length ≤ 3 ∧ Alternating (attempts es) ∧
      ((∃ status, pc = .returned status) ∨ ∃ e pc', fwdStep cfg pc e = some pc') ∧
      ∀ (f : ℕ → FwdPc P S) (ev : ℕ → FwdEvent P S), f 0 = pc → (∀ n, fwdStep cfg (f n) (ev n) = some (f (n + 1))) →
        ∃ n, (∀ m ≥ n, InRelay (f m)) ∨ ∀ m ≥ n, InSlotLoop (f m) := by
  obtain ⟨halt, hlen⟩ := run_budget h
  refine ⟨fun hm => ?_, run_written h, hlen, halt, run_moves h, fun f ev _ hf => run_settles hf⟩
  have hpast := run_unwritten hm h
  cases has : attempts es with
  | nil => simp
  | cons a past =>
    rw [has] at hpast
    have hzero : past.countP Attempt.wrote = 0 := List.countP_eq_zero.2 fun b hb => by simp [hpast b hb]
    rw [List.countP_cons, hzero]
    split_ifs <;> simp

end Step

/-- a POST with two peers, the first of which does not answer -/
def postCfg : ForwardCfg Bool where
  request := { method := .post, version := .http11, path := str "/a" }
  iter := []
  forwarded := {}
  peers := [false, true]
  config := fun _ => { host := str "up", port := 80 }
  maxConcurrentRequests := 1
  hasCb := true
  closable := true

/-- connect fails, the retry writes the request, the relay fails: no further retry -/
def postRun : List (FwdEvent Bool Unit) :=
  [.slotLoad 0, .slotCas 0 true 0, .lbSelect (some false), .peerAdd false, .peerRequests false,
    .poolAcquire false none, .connect false none, .peerFailure false, .lbSelect (some true), .peerSub false,
    .peerAdd true, .peerRequests true, .poolAcquire true none, .connect true (some ()),
    .upstreamWrite () (requestText postCfg true) (some (requestText postCfg true).length), .relay () (.read none),
    .peerFailure true, .cbFailure, .write502 k502 none, .shutdown, .peerSub true, .slotSub]

theorem retry_safe_post :
    run (fwdStep postCfg) .start postRun = some (.returned .upstreamFailed) ∧
      (attempts postRun).countP Attempt.wrote ≤ 1 ∧ Alternating (attempts postRun) ∧ (attempts postRun).length = 2 := by
  have hrun : run (fwdStep postCfg) .start postRun = some (.returned .upstreamFailed) := by decide +kernel
  obtain ⟨hwrote, -, -, halt, -, -⟩ := retry_safe hrun
  exact ⟨hrun, hwrote rfl, halt, rfl⟩

end Coropact.Gateway
