/-
The counters that concurrent calls of `Forward` share: `active_requests_` of the upstream, with the compare-exchange
loop of `TryAcquireRequestSlot`, and `active` of each peer.

Any number of calls run over one upstream, interleaved at their atomic accesses. The counters are the machine integers
of the source: 64 bits for the upstream, 32 bits with a sign for a peer. Each access moves its counter by what it
changes about who holds what, so counter and holders balance modulo the width (`Par.run_balance`).
-/
import Mathlib.Data.BitVec
import Coropact.Gateway.Forward

namespace Coropact.Gateway

open Coropact.Http Coropact.Text Coropact.Machine Function

variable {P S : Type*}

/-! ## Model -/

@[ext] structure Counters (P : Type*) where
  activeRequests : BitVec 64 := 0
  active : P → BitVec 32 := fun _ => 0

/-- an access checks its answer against the memory and updates it; all other events leave the counters alone -/
def memStep [DecidableEq P] (m : Counters P) : FwdEvent P S → Option (Counters P)
  | .slotAdd => some { m with activeRequests := m.activeRequests + 1 }
  | .slotLoad v => if v = m.activeRequests then some m else none
  | .slotCas expected true _ =>
    if m.activeRequests = expected then some { m with activeRequests := expected + 1 } else none
  | .slotCas _ false now => if now = m.activeRequests then some m else none
  | .slotSub => some { m with activeRequests := m.activeRequests - 1 }
  | .peerAdd p => some { m with active := update m.active p (m.active p + 1) }
  | .peerSub p => some { m with active := update m.active p (m.active p - 1) }
  | _ => some m

/-- the call is between a successful `TryAcquireRequestSlot` and its `ReleaseRequestSlot` -/
def holdsSlot : FwdPc P S → Bool
  | .start | .slotCas _ | .cbNoPeer | .returned _ => false
  | _ => true

/-- the peer whose `active` the call has raised and not yet lowered -/
def heldPeer : FwdPc P S → Option P
  | .peerRequests c | .acquire c | .connect c | .upstreamWrite c _ _ | .relay c _ _ | .peerFailure c _
  | .retrySelect c _ | .failover c _ | .switchPeer c _ _ | .cbFailure c | .write502 c _ | .shutdown c
  | .poolRelease c _ | .releasePeer c _ => some c.peer
  | _ => none

def slotDelta : FwdEvent P S → BitVec 64
  | .slotAdd | .slotCas _ true _ => 1
  | .slotSub => -1
  | _ => 0

/-- what an event adds to the counter of `p` -/
def peerDelta [DecidableEq P] (p : P) : FwdEvent P S → BitVec 32
  | .peerAdd q => if q = p then 1 else 0
  | .peerSub q => if q = p then -1 else 0
  | _ => 0

def slotWeight (pc : FwdPc P S) : BitVec 64 := if holdsSlot pc then 1 else 0

def peerWeight [DecidableEq P] (p : P) (pc : FwdPc P S) : BitVec 32 := if heldPeer pc = some p then 1 else 0

/-! ## Each access moves counter and holders alike -/

variable {e : FwdEvent P S}

section Delta

variable [DecidableEq P]

theorem memStep_slots {m m' : Counters P} (h : memStep m e = some m') :
    m'.activeRequests = m.activeRequests + slotDelta e := by
  cases e with
  | slotLoad v =>
    simp only [memStep] at h
    split_ifs at h
    cases h
    simp [slotDelta]
  | slotCas expected ok now =>
    cases ok with
    | false =>
      simp only [memStep] at h
      split_ifs at h
      cases h
      simp [slotDelta]
    | true =>
      simp only [memStep] at h
      split_ifs at h with heq
      cases h
      rw [heq]
      rfl
  | slotAdd =>
    cases h
    rfl
  | slotSub =>
    cases h
    exact BitVec.sub_eq_add_neg _ _
  | _ =>
    cases h
    simp [slotDelta]

theorem memStep_peer (p : P) {m m' : Counters P} (h : memStep m e = some m') :
    m'.active p = m.active p + peerDelta p e := by
  cases e with
  | slotLoad v =>
    simp only [memStep] at h
    split_ifs at h
    cases h
    simp [peerDelta]
  | slotCas expected ok now =>
    cases ok <;> simp only [memStep] at h <;> split_ifs at h <;> cases h <;> simp [peerDelta]
  | peerAdd q =>
    cases h
    by_cases hq : q = p
    · simp [peerDelta, hq]
    · simp [peerDelta, hq, update_of_ne (Ne.symm hq)]
  | peerSub q =>
    cases h
    by_cases hq : q = p
    · simp [peerDelta, hq, BitVec.sub_eq_add_neg]
    · simp [peerDelta, hq, update_of_ne (Ne.symm hq)]
  | _ =>
    cases h
    simp [peerDelta]

end Delta

section Holders

variable {cfg : ForwardCfg P}

theorem heldPeer_afterRelay (c : Call P) (s : S) (r : Relay) : heldPeer (afterRelay c s r) = some c.peer := by
  obtain ⟨reported, pc⟩ := r
  cases pc with
  | returned answer => rcases answer with _ | _ | _ <;> rfl
  | _ => rfl

variable {pc pc' : FwdPc P S}

theorem holdsSlot_of_heldPeer {p : P} (h : heldPeer pc = some p) : holdsSlot pc = true := by
  cases pc with
  | start | slotCas | cbNoPeer | returned => cases h
  | _ => rfl

theorem slotLoop_slotCas {x v : BitVec 64} (h : (slotLoop cfg x : FwdPc P S) = .slotCas v) :
    v < cfg.maxConcurrentRequests := by
  unfold slotLoop failNoPeer at h
  split_ifs at h with hlt
  cases h
  exact hlt

variable [DecidableEq P]

theorem fwdMove_slots (hmove : FwdMove cfg pc e pc') :
    slotWeight pc' = slotWeight pc + slotDelta e := by
  cases hmove with
  | slotLoad | slotCasAgain | slotSubNoPeer | acquirePooled | connected | writeSome | peerFailure | failoverNone
  | write502Failed | write502Some =>
    simp only [slotLoop, failNoPeer, startUpstreamWrite, afterFailure, giveUp, start502, after502]
    split_ifs <;> simp [slotWeight, holdsSlot, slotDelta]
  | relay =>
    rw [slotWeight, holdsSlot_of_heldPeer (heldPeer_afterRelay _ _ _)]
    simp [slotWeight, holdsSlot, slotDelta]
  | _ => simp [slotWeight, holdsSlot, slotDelta]

theorem fwdMove_peer (p : P) (hmove : FwdMove cfg pc e pc') :
    peerWeight p pc' = peerWeight p pc + peerDelta p e := by
  cases hmove with
  | slotLoad | slotCasAgain | slotSubNoPeer | acquirePooled | connected | writeSome | peerFailure | failoverNone
  | write502Failed | write502Some =>
    simp only [slotLoop, failNoPeer, startUpstreamWrite, afterFailure, giveUp, start502, after502]
    split_ifs <;> simp [peerWeight, heldPeer, peerDelta]
  | relay =>
    rw [peerWeight, heldPeer_afterRelay]
    simp [peerWeight, heldPeer, peerDelta]
  | switchPeer c | releasePeer c =>
    by_cases hp : c.peer = p
    · simp [peerWeight, heldPeer, peerDelta, hp]
    · simp [peerWeight, heldPeer, peerDelta, hp]
  | _ => simp [peerWeight, heldPeer, peerDelta]

theorem fwdMove_slotCas (hmove : FwdMove cfg pc e pc') (v : BitVec 64) (h : pc' = .slotCas v) :
    v < cfg.maxConcurrentRequests := by
  cases hmove with
  | slotLoad | slotCasAgain => exact slotLoop_slotCas h
  | relay => cases (heldPeer_afterRelay _ _ _).symm.trans (congrArg heldPeer h)
  | slotSubNoPeer | acquirePooled | connected | writeSome | peerFailure | failoverNone | write502Failed
  | write502Some =>
    simp only [failNoPeer, startUpstreamWrite, afterFailure, giveUp, start502, after502] at h
    split_ifs at h
  | _ => cases h

theorem fwdMove_acquires (hmove : FwdMove cfg pc e pc') (hpc : holdsSlot pc = false) (hpc' : holdsSlot pc' = true) :
    cfg.maxConcurrentRequests = 0 ∨ ∃ v now, pc = .slotCas v ∧ e = .slotCas v true now := by
  cases hmove with
  | slotAdd h => exact .inl h
  | slotCasTaken v now => exact .inr ⟨v, now, rfl, rfl⟩
  | slotLoad | slotCasAgain =>
    unfold slotLoop failNoPeer at hpc'
    split_ifs at hpc' <;> cases hpc'
  | cbNoPeer => cases hpc'
  | _ => cases hpc

end Holders

/-! ## Concurrent calls -/

section Calls

variable {ι : Type*} [Fintype ι] [DecidableEq ι]

/-- calls over one upstream, each at its own program point -/
abbrev Calls (ι P S : Type*) := Counters P × (ι → FwdPc P S)

def callsStart : Calls ι P S := ({}, fun _ => .start)

/-- the number of calls between a successful acquire and its release -/
def slotHolders (s : Calls ι P S) : ℕ := (Finset.univ.filter fun i => holdsSlot (s.2 i) = true).card

theorem slotHolders_kept {s t : Calls ι P S} {i : ι} {c : FwdPc P S} (ht : t.2 = update s.2 i c)
    (hkeep : holdsSlot c = true → holdsSlot (s.2 i) = true) : slotHolders t ≤ slotHolders s := by
  refine Finset.card_le_card fun j hj => ?_
  simp only [Finset.mem_filter, Finset.mem_univ, true_and, ht] at hj ⊢
  by_cases hji : j = i
  · subst hji
    rw [update_self] at hj
    exact hkeep hj
  · rwa [update_of_ne hji] at hj

theorem slotHolders_succ {s t : Calls ι P S} {i : ι} {c : FwdPc P S} (ht : t.2 = update s.2 i c) :
    slotHolders t ≤ slotHolders s + 1 := by
  refine (Finset.card_le_card (t := insert i (Finset.univ.filter fun j => holdsSlot (s.2 j) = true)) ?_).trans
    (Finset.card_insert_le _ _)
  intro j hj
  simp only [Finset.mem_insert, Finset.mem_filter, Finset.mem_univ, true_and, ht] at hj ⊢
  by_cases hji : j = i
  · exact .inl hji
  · rw [update_of_ne hji] at hj
    exact .inr hj

variable [DecidableEq P]

/-- the number of calls that hold `p` -/
def peerHolders (s : Calls ι P S) (p : P) : ℕ := (Finset.univ.filter fun i => heldPeer (s.2 i) = some p).card

variable [DecidableEq S]

def callsStep (cfg : ι → ForwardCfg P) : Calls ι P S → ι × FwdEvent P S → Option (Calls ι P S) :=
  Par.step memStep fun i => fwdStep (cfg i)

variable {cfg : ι → ForwardCfg P} {l : List (ι × FwdEvent P S)} {s : Calls ι P S}

theorem slots_balance (h : run (callsStep cfg) callsStart l = some s) :
    s.1.activeRequests = (slotHolders s : BitVec 64) := by
  have hbal := Par.run_balance (fun m : Counters P => m.activeRequests) slotWeight slotDelta
    (fun _ _ _ => memStep_slots) (fun _ _ _ _ hstep => fwdMove_slots (fwdStep_iff.1 hstep)) l s h
  have hsum : ∑ i, slotWeight (s.2 i) = (slotHolders s : BitVec 64) := Finset.sum_boole _ _
  have hstart : ∑ i : ι, slotWeight ((callsStart : Calls ι P S).2 i) = 0 := Finset.sum_eq_zero fun _ _ => rfl
  rw [hsum, hstart] at hbal
  exact sub_eq_zero.1 (hbal.trans (sub_zero _))

theorem peer_balance (h : run (callsStep cfg) callsStart l = some s) (p : P) :
    s.1.active p = (peerHolders s p : BitVec 32) := by
  have hbal := Par.run_balance (fun m : Counters P => m.active p) (peerWeight p) (peerDelta p)
    (fun _ _ _ => memStep_peer p) (fun _ _ _ _ hstep => fwdMove_peer p (fwdStep_iff.1 hstep)) l s h
  have hsum : ∑ i, peerWeight p (s.2 i) = (peerHolders s p : BitVec 32) := Finset.sum_boole _ _
  have hstart : ∑ i : ι, peerWeight p ((callsStart : Calls ι P S).2 i) = 0 := Finset.sum_eq_zero fun _ _ => rfl
  rw [hsum, hstart] at hbal
  exact sub_eq_zero.1 (hbal.trans (sub_zero _))

/-- **The limit is never exceeded.** A compare-exchange that succeeds finds the counter where it was read, below the
limit; and below the limit the counter is the number of holders. -/
theorem slotHolders_le {limit : BitVec 64} (hlimit : ∀ i, (cfg i).maxConcurrentRequests = limit) (hne : limit ≠ 0)
    (h : run (callsStep cfg) callsStart l = some s) : slotHolders s ≤ limit.toNat := by
  refine run_induct (fun _ (s : Calls ι P S) => slotHolders s ≤ limit.toNat) ?_ ?_ l s h
  · simp [slotHolders, callsStart, holdsSlot]
  · rintro l s ⟨i, e⟩ t hrun ih hstep
    obtain ⟨c, hmem, hloc, ht⟩ := Par.step_some hstep
    have hmove := fwdStep_iff.1 hloc
    by_cases hnew : holdsSlot c = true ∧ holdsSlot (s.2 i) = false
    · rcases fwdMove_acquires hmove hnew.2 hnew.1 with hzero | ⟨v, now, hpc, rfl⟩
      · exact absurd ((hlimit i).symm.trans hzero) hne
      · have hv : v < limit := by
          have hinv :=
            Par.run_local (fun i (pc : FwdPc P S) => ∀ v, pc = .slotCas v → v < (cfg i).maxConcurrentRequests)
            (fun i pc e pc' _ hst => fwdMove_slotCas (fwdStep_iff.1 hst)) (by simp [callsStart]) l s hrun i v hpc
          rwa [hlimit i] at hinv
        have hcounter : s.1.activeRequests = v := by
          by_contra hcon
          simp [memStep, hcon] at hmem
        have hholders : slotHolders s = v.toNat := by
          have hbal := congrArg BitVec.toNat (slots_balance hrun)
          rw [hcounter, BitVec.natCast_eq_ofNat, BitVec.toNat_ofNat, Nat.mod_eq_of_lt (ih.trans_lt limit.isLt)] at hbal
          exact hbal.symm
        calc slotHolders t ≤ slotHolders s + 1 := slotHolders_succ ht
          _ = v.toNat + 1 := by rw [hholders]
          _ ≤ limit.toNat := hv
    · refine (slotHolders_kept ht fun hc => ?_).trans ih
      by_contra hs
      exact hnew ⟨hc, by simpa using hs⟩

/-- **Exact accounting under concurrency.** In every interleaving of any calls over one upstream: a nonzero limit is
never exceeded; the upstream's counter is the number of calls between acquire and release, which under a limit always
fits it; a peer's counter is the number of calls that hold it, while that fits an `int`; and when all calls have
returned, all counters are back where they were. -/
theorem accounting_exact {limit : BitVec 64} (hlimit : ∀ i, (cfg i).maxConcurrentRequests = limit)
    (h : run (callsStep cfg) callsStart l = some s) :
    (limit ≠ 0 → slotHolders s ≤ limit.toNat) ∧
      (limit ≠ 0 ∨ slotHolders s < 2 ^ 64 → s.1.activeRequests.toNat = slotHolders s) ∧
      (∀ p, peerHolders s p < 2 ^ 31 → (s.1.active p).toInt = peerHolders s p) ∧
      ((∀ i, ∃ status, s.2 i = .returned status) → s.1 = (callsStart : Calls ι P S).1) := by
  refine ⟨fun hne => slotHolders_le hlimit hne h, fun hfits => ?_, fun p hp => ?_, fun hret => ?_⟩
  · have hlt : slotHolders s < 2 ^ 64 := by
      rcases hfits with hne | hlt
      · exact (slotHolders_le hlimit hne h).trans_lt limit.isLt
      · exact hlt
    rw [slots_balance h, BitVec.natCast_eq_ofNat, BitVec.toNat_ofNat, Nat.mod_eq_of_lt hlt]
  · have hnat : (s.1.active p).toNat = peerHolders s p := by
      rw [peer_balance h p, BitVec.natCast_eq_ofNat, BitVec.toNat_ofNat, Nat.mod_eq_of_lt (by omega)]
    rw [BitVec.toInt_eq_toNat_of_lt (by omega), hnat]
  · have hslots : slotHolders s = 0 := by
      refine Finset.card_eq_zero.2 (Finset.filter_eq_empty_iff.2 fun i _ => ?_)
      obtain ⟨status, hi⟩ := hret i
      simp [hi, holdsSlot]
    have hpeers : ∀ p, peerHolders s p = 0 := by
      intro p
      refine Finset.card_eq_zero.2 (Finset.filter_eq_empty_iff.2 fun i _ => ?_)
      obtain ⟨status, hi⟩ := hret i
      simp [hi, heldPeer]
    refine Counters.ext ?_ (funext fun p => ?_)
    · rw [slots_balance h, hslots]
      rfl
    · rw [peer_balance h p, hpeers p]
      rfl

end Calls

/-! ## Examples -/

/-- a GET to an upstream with one peer and the given limit -/
def limitCfg (limit : BitVec 64) : ForwardCfg Unit where
  request := { method := .get, version := .http11, path := str "/a" }
  iter := []
  forwarded := {}
  peers := [()]
  config := fun _ => { host := str "up", port := 80 }
  maxConcurrentRequests := limit
  hasCb := false
  closable := false

/-- two calls race for one slot: both read zero, one compare-exchange fails and that call finds no slot -/
def raceRun : List (Bool × FwdEvent Unit Unit) :=
  [(false, .slotLoad 0), (true, .slotLoad 0), (true, .slotCas 0 true 0), (true, .lbSelect (some ())),
    (true, .peerAdd ()), (false, .slotCas 0 false 1)]

theorem accounting_exact_race :
    ∃ s, run (callsStep fun _ => limitCfg 1) callsStart raceRun = some s ∧ slotHolders s ≤ 1 ∧
      s.1.activeRequests.toNat = slotHolders s ∧ (s.1.active ()).toInt = peerHolders s () := by
  have hsome : (run (callsStep fun _ => limitCfg 1) callsStart raceRun).isSome := by decide +kernel
  obtain ⟨s, hrun⟩ := Option.isSome_iff_exists.1 hsome
  obtain ⟨hlimit, hslots, hpeers, -⟩ := accounting_exact (fun _ => rfl) hrun
  have hfew : peerHolders s () ≤ 2 := Finset.card_le_univ _
  exact ⟨s, hrun, hlimit (by decide), hslots (.inl (by decide)), hpeers () (by omega)⟩

theorem run_holding {n : ℕ} {s : Calls (Fin n) Unit Unit} {i : Fin n} (hs : s.2 i = .start) :
    run (callsStep fun _ => limitCfg 0) s [(i, .slotAdd), (i, .lbSelect (some ())), (i, .peerAdd ())] =
      some (⟨s.1.activeRequests + 1, update s.1.active () (s.1.active () + 1)⟩,
        update s.2 i (.peerRequests { peer := () })) := by
  simp [run_cons, callsStep, Par.step, memStep, fwdStep, limitCfg, hs]

theorem exists_holding (n k : ℕ) (hk : k ≤ n) :
    ∃ l, ∃ s : Calls (Fin n) Unit Unit, run (callsStep fun _ => limitCfg 0) callsStart l = some s ∧
      ∀ i : Fin n, s.2 i = if i.val < k then .peerRequests { peer := () } else .start := by
  induction k with
  | zero => exact ⟨[], callsStart, rfl, fun i => rfl⟩
  | succ k ih =>
    obtain ⟨l, s, hrun, hs⟩ := ih (by omega)
    have hstart : s.2 ⟨k, hk⟩ = .start := by simp [hs]
    have hnext := run_append (callsStep fun _ => limitCfg 0) callsStart l
      [(⟨k, hk⟩, .slotAdd), (⟨k, hk⟩, .lbSelect (some ())), (⟨k, hk⟩, .peerAdd ())]
    rw [hrun, Option.bind_some, run_holding hstart] at hnext
    refine ⟨_, _, hnext, fun i => ?_⟩
    by_cases hi : i = ⟨k, hk⟩
    · subst hi
      simp
    · have hne : i.val ≠ k := fun h => hi (Fin.ext h)
      have hlt : i.val < k + 1 ↔ i.val < k := by omega
      simp only [update_of_ne hi, hs, hlt]

/-- 2^31 calls that hold one peer, and its counter is negative -/
theorem peer_count_wraps :
    ∃ l, ∃ s : Calls (Fin (2 ^ 31)) Unit Unit, run (callsStep fun _ => limitCfg 0) callsStart l = some s ∧
      peerHolders s () = 2 ^ 31 ∧ (s.1.active ()).toInt = -2 ^ 31 := by
  obtain ⟨l, s, hrun, hs⟩ := exists_holding (2 ^ 31) (2 ^ 31) le_rfl
  have hholders : peerHolders s () = 2 ^ 31 := by
    have hall : ∀ i ∈ Finset.univ, heldPeer (s.2 i) = some () := fun i _ => by simp only [hs, i.isLt, if_true, heldPeer]
    rw [peerHolders, Finset.filter_true_of_mem hall, Finset.card_univ, Fintype.card_fin]
  refine ⟨l, s, hrun, hholders, ?_⟩
  rw [peer_balance hrun (), hholders]
  decide

end Coropact.Gateway
