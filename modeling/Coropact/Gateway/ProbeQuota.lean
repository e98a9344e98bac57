/-
The quota of probes and the wait in OPEN, with any number of threads (`include/coropact/gateway/circuit_breaker.h`).

`QuotaKept` is what the breaker is meant to guarantee: between a publication of HALF_OPEN and the end of that period at
most `half_open_max_requests` calls return true, and a call that takes its slot after an entry to OPEN (the CAS to
kTransitioningToOpen, from which on `state()` reports OPEN) returns true only `open_timeout` later. `AllowRequest` reads
`state_`, takes its slot and stores the probe time in separate accesses, so a call that has seen HALF_OPEN may take a
slot of the counter that a transition has reset meanwhile.
-/
import Coropact.Gateway.BreakerThreads

namespace Coropact.Gateway

open Coropact.Machine List Function

variable {ι : Type*}

/-! ## What is meant, and when it holds -/

def Access.opens : Access → Bool
  | .cas c seen => c.via = .kTransitioningToOpen ∧ seen = c.source
  | _ => false

open Access

structure QuotaKept (cfg : CircuitBreakerConfig) (tr : List (ι × Access)) : Prop where
  /-- from a publication of HALF_OPEN to the next transition -/
  quota : ∀ l i r, tr = l ++ (i, .publish .kHalfOpen) :: r → (∀ e ∈ r, e.2.changes = false) →
    (r.filter fun e => e.2.returnsTrue).length ≤ cfg.halfOpenMaxRequests.toNat
  /-- the call of thread `i` takes its slot behind the entry `e` and returns true -/
  waits : ∀ l e l' i now slot r, tr = l ++ e :: (l' ++ (i, .grant now slot) :: r) → e.2.opens = true →
    (i, .claimSlot slot) ∈ l' → clockAt l + cfg.openTimeout.toNat ≤ clockAt (l ++ e :: l')

variable [DecidableEq ι]

/-- `AllowRequest` acts on the state it has seen: it takes its slot, stores its probe time, leaves OPEN -/
def Access.acts : Access → Bool
  | .claimSlot _ | .grant _ _ | .cas .reopen .kOpen => true
  | _ => false

/-- calls act on what they have seen -/
structure Orderly (tr : List (ι × Access)) (e : ι × Access) : Prop where
  /-- no transition has begun since the call saw the state -/
  fresh : e.2.acts = true → Fresh e.1 tr
  /-- a probe cycle is given up at the time the call has read -/
  onClock : e.2 = .cas .stall .kHalfOpen → OnClock e.1 tr
  inRange : e.2 ≠ .claimSlot (BitVec.allOnes 64)

instance (tr : List (ι × Access)) (e : ι × Access) : Decidable (Orderly tr e) :=
  decidable_of_iff ((e.2.acts = true → Fresh e.1 tr) ∧ (e.2 = .cas .stall .kHalfOpen → OnClock e.1 tr) ∧
    e.2 ≠ .claimSlot (BitVec.allOnes 64)) ⟨fun ⟨h, h', h''⟩ => ⟨h, h', h''⟩, fun ⟨h, h', h''⟩ => ⟨h, h', h''⟩⟩

/-! ## The wait in OPEN -/

/-- every entry to OPEN so far was at time `t` or before -/
def OpenedBy (tr : List (ι × Access)) (t : ℕ) : Prop :=
  EachStep (fun l e => e.2.opens = true → clockAt l ≤ t) [] tr

/-- the timeout of every entry to OPEN so far has passed at time `t` -/
def WaitedAt (cfg : CircuitBreakerConfig) (tr : List (ι × Access)) (t : ℕ) : Prop :=
  EachStep (fun l e => e.2.opens = true → clockAt l + cfg.openTimeout.toNat ≤ t) [] tr

variable {tr : List (ι × Access)} {cfg : CircuitBreakerConfig} {e : ι × Access} {now : BitVec 64}
  {ws : List BreakerStore}
  {c : Transition} {t : ℕ}

omit [DecidableEq ι] in
theorem OpenedBy.snoc (h : OpenedBy tr t) (he : e.2.opens = true → clockAt tr ≤ t) : OpenedBy (tr ++ [e]) t :=
  eachStep_snoc.2 ⟨h, he⟩

omit [DecidableEq ι] in
theorem OpenedBy.waited {u : ℕ} (h : OpenedBy tr t) (hle : t + cfg.openTimeout.toNat ≤ u) : WaitedAt cfg tr u := by
  refine eachStep_iff.2 fun l e r heq hopens => ?_
  have := eachStep_iff.1 h l e r heq hopens
  omega

omit [DecidableEq ι] in
theorem WaitedAt.mono {u : ℕ} (h : WaitedAt cfg tr t) (hle : t ≤ u) : WaitedAt cfg tr u :=
  eachStep_iff.2 fun l e r heq hopens => (eachStep_iff.1 h l e r heq hopens).trans hle

omit [DecidableEq ι] in
theorem WaitedAt.snoc (h : WaitedAt cfg tr t) (he : e.2.opens = false) : WaitedAt cfg (tr ++ [e]) t :=
  eachStep_snoc.2 ⟨h, fun hopens => by rw [he] at hopens; cases hopens⟩

/-- `open_entered_ms_` when the remaining stores are done -/
def enteredAfter (ws : List BreakerStore) (entered : BitVec 64) : BitVec 64 :=
  ws.foldl (fun x w => match w with
    | .entered now => now
    | _ => x) entered

structure Guarded (cfg : CircuitBreakerConfig) (tr : List (ι × Access)) (s : SharedBreaker × (ι → Pc)) : Prop where
  entered : s.1.cells.state = .kOpen → ∃ t ≤ s.1.clock, s.1.cells.openEnteredMs = nowMs t ∧ OpenedBy tr t
  storing : ∀ i c ws, s.2 i = .storing c ws → c.target = .kOpen →
    ∃ t ≤ s.1.clock, enteredAfter ws s.1.cells.openEnteredMs = nowMs t ∧ OpenedBy tr t
  timed : ∀ i now, s.2 i = .openEntered now → Fresh i tr →
    ∃ t u, s.1.cells.openEnteredMs = nowMs t ∧ now = nowMs u ∧ t ≤ u ∧ u ≤ s.1.clock ∧ OpenedBy tr t
  timedOut : ∀ i, s.2 i = .reopenCas → Fresh i tr → WaitedAt cfg tr s.1.clock
  waited : s.1.cells.state ≠ .kOpen → s.1.cells.state ≠ .kTransitioningToOpen → WaitedAt cfg tr s.1.clock

section Steps

variable {cfg : CircuitBreakerConfig} {m m' : SharedBreaker} {pc pc' : Pc} {a : Access}

theorem BreakerStep.openEnteredMs (h : BreakerStep cfg m pc a m' pc') (hpc : pc.changing = none) :
    m'.cells.openEnteredMs = m.cells.openEnteredMs := by
  cases h with
  | store c w ws => cases hpc
  | _ => rfl

theorem BreakerStep.storing (h : BreakerStep cfg m pc a m' pc') (hpc' : pc' = .storing c ws) (hc : c.target = .kOpen) :
    (pc.changing = some c ∧
      (enteredAfter ws m'.cells.openEnteredMs = nowMs m.clock ∨
        ∃ ws', pc = .storing c ws' ∧
          enteredAfter ws m'.cells.openEnteredMs = enteredAfter ws' m.cells.openEnteredMs)) ∨
    ∃ now, pc = .stallCas now ∧ a = .cas .stall .kHalfOpen ∧ enteredAfter ws m'.cells.openEnteredMs = now := by
  cases h with
  | tick => exact .inl ⟨hpc' ▸ rfl, .inr ⟨ws, hpc', rfl⟩⟩
  | enter method => cases (congrArg Pc.changing hpc').symm.trans (afterLoad_none method _).1
  | reopen | close =>
    cases hpc'
    cases hc
  | stall now =>
    cases hpc'
    exact .inr ⟨now, rfl, rfl, rfl⟩
  | enteredClock c' =>
    cases hpc'
    refine .inl ⟨rfl, .inl ?_⟩
    cases c <;> first | rfl | cases hc
  | store c' w ws' =>
    cases hpc'
    refine .inl ⟨rfl, .inr ⟨w :: ws, rfl, ?_⟩⟩
    cases w <;> rfl
  | publish c' => split_ifs at hpc'
  | count _ _ _ _ _ _ _ hcount => cases (congrArg Pc.changing hpc').symm.trans (counting_none hcount).1
  | _ => cases hpc'

theorem BreakerStep.openEntered (h : BreakerStep cfg m pc a m' pc') (hpc' : pc' = .openEntered now) :
    (pc = .openEntered now ∧ a.readsState = false) ∨
      (pc = .openClock ∧ now = nowMs m.clock ∧ a.readsState = false) := by
  cases h with
  | tick => exact .inl ⟨hpc', rfl⟩
  | enter method => cases (congrArg Pc.now hpc').symm.trans (afterLoad_none method _).2
  | openClock =>
    cases hpc'
    exact .inr ⟨rfl, rfl, rfl⟩
  | publish c' => split_ifs at hpc'
  | count _ _ _ _ _ _ _ hcount => cases (congrArg Pc.sees hpc').symm.trans (counting_none hcount).2.1
  | _ => cases hpc'

theorem BreakerStep.reopenCas (h : BreakerStep cfg m pc a m' pc') (hpc' : pc' = .reopenCas) :
    (pc = .reopenCas ∧ a.readsState = false) ∨
      ∃ now, pc = .openEntered now ∧ a.readsState = false ∧ cfg.timeoutMs ≤ now - m.cells.openEnteredMs := by
  cases h with
  | tick => exact .inl ⟨hpc', rfl⟩
  | enter method => cases method <;> cases hs : m.cells.state <;> rw [hs] at hpc' <;> cases hpc'
  | timedOut now hle => exact .inr ⟨now, rfl, rfl, hle⟩
  | publish c' => split_ifs at hpc'
  | count _ _ _ _ _ _ _ hcount => cases (congrArg Pc.sees hpc').symm.trans (counting_none hcount).2.1
  | _ => cases hpc'

theorem Access.changes_of_opens (h : a.opens = true) : a.changes = true := by
  cases a with
  | cas c seen =>
    simp only [opens, decide_eq_true_eq] at h
    exact decide_eq_true h.2
  | _ => cases h

theorem BreakerStep.not_opens (h : BreakerStep cfg m pc a m' pc') (hs : m.cells.state = c.via) :
    a.opens = false := by
  by_contra hopens
  have hchanges := changes_of_opens (Bool.eq_true_of_not_eq_false hopens)
  cases h.stateMove with
  | stays _ ha => cases ha.symm.trans hchanges
  | begins d hs' => exact d.source_ne_via c (hs'.symm.trans hs)
  | ends d _ ha =>
    rw [ha] at hchanges
    cases hchanges

end Steps

section Guarded

variable {cfg : CircuitBreakerConfig} {tr : List (ι × Access)} {s t : SharedBreaker × (ι → Pc)} {k : ι}
  {a : Access} {pc : Pc}

omit [DecidableEq ι] in
theorem openedBy_clockAt (tr : List (ι × Access)) : OpenedBy tr (clockAt tr) := by
  refine eachStep_iff.2 fun l e r heq _ => ?_
  rw [heq, clockAt, clockAt, map_append, sum_append]
  exact Nat.le_add_right _ _

theorem guarded_entered (hd : Discipline tr s) (h : Guarded cfg tr s) (hmove : BreakerStep cfg s.1 (s.2 k) a t.1 pc)
    (hopen : t.1.cells.state = .kOpen) :
    ∃ u ≤ t.1.clock, t.1.cells.openEnteredMs = nowMs u ∧ OpenedBy (tr ++ [(k, a)]) u := by
  have hclock := hmove.clock
  cases hmove.stateMove with
  | stays hs ha =>
    have hstate := hs.symm.trans hopen
    obtain ⟨u, hu, hentered, hopened⟩ := h.entered hstate
    have hkept := hmove.openEnteredMs (hd.changing_none hstate trivial k)
    refine ⟨u, by omega, hkept.trans hentered, hopened.snoc fun hopens => ?_⟩
    rw [changes_of_opens hopens] at ha
    cases ha
  | begins c hs hm =>
    rw [hm] at hopen
    cases c <;> cases hopen
  | ends c hm ha hpc =>
    rw [hm] at hopen ⊢
    obtain ⟨u, hu, hentered, hopened⟩ := h.storing k c [] hpc hopen
    exact ⟨u, hu, hentered, hopened.snoc fun hopens => by rw [ha] at hopens; cases hopens⟩

theorem guarded_storing (hd : Discipline tr s) (h : Guarded cfg tr s) (hmove : BreakerStep cfg s.1 (s.2 k) a t.1 pc)
    (ho : Orderly tr (k, a)) (hpc : pc = .storing c ws) (hc : c.target = .kOpen) :
    ∃ u ≤ t.1.clock, enteredAfter ws t.1.cells.openEnteredMs = nowMs u ∧ OpenedBy (tr ++ [(k, a)]) u := by
  have hclock := hmove.clock
  rcases hmove.storing hpc hc with ⟨hchg, hstores⟩ | ⟨now, hstall, rfl, hnow⟩
  · have hopens := hmove.not_opens (hd.owner k c hchg)
    rcases hstores with hnow | ⟨ws', hpc', hsame⟩
    · refine ⟨s.1.clock, by omega, hnow, ?_⟩
      exact (hd.clock ▸ openedBy_clockAt tr).snoc fun hc => by cases hopens.symm.trans hc
    · obtain ⟨u, hu, hentered, hopened⟩ := h.storing k c ws' hpc' hc
      exact ⟨u, by omega, hsame.trans hentered, hopened.snoc fun hc => by cases hopens.symm.trans hc⟩
  · -- the stall fallback stores the time it read before the CAS
    have hon : now = nowMs s.1.clock := (hd.reading k now (by rw [hstall]; rfl)).2 (ho.onClock rfl)
    refine ⟨s.1.clock, by omega, hnow.trans hon, ?_⟩
    exact (hd.clock ▸ openedBy_clockAt tr).snoc fun _ => hd.clock.ge

theorem guarded_storing_other (hd : Discipline tr s) (h : Guarded cfg tr s)
    (hmove : BreakerStep cfg s.1 (s.2 k) a t.1 pc)
    {j : ι} (hj : j ≠ k) (hpc : s.2 j = .storing c ws) (hc : c.target = .kOpen) :
    ∃ u ≤ t.1.clock, enteredAfter ws t.1.cells.openEnteredMs = nowMs u ∧ OpenedBy (tr ++ [(k, a)]) u := by
  have hclock := hmove.clock
  have hchg : (s.2 j).changing = some c := by rw [hpc]; rfl
  have hopens := hmove.not_opens (hd.owner j c hchg)
  have hnone : (s.2 k).changing = none := by
    cases hk : (s.2 k).changing with
    | none => rfl
    | some d => exact absurd (hd.alone j k c d hchg hk) hj
  obtain ⟨u, hu, hentered, hopened⟩ := h.storing j c ws hpc hc
  refine ⟨u, by omega, ?_, hopened.snoc fun hc => by cases hopens.symm.trans hc⟩
  rw [hmove.openEnteredMs hnone, hentered]

theorem guarded_timed (hd : Discipline tr s) (hmove : BreakerStep cfg s.1 (s.2 k) a t.1 pc) (ha : a.changes = false)
    (hopen : s.1.cells.state = .kOpen)
    (h : ∃ v u, s.1.cells.openEnteredMs = nowMs v ∧ now = nowMs u ∧ v ≤ u ∧ u ≤ s.1.clock ∧ OpenedBy tr v) :
    ∃ v u, t.1.cells.openEnteredMs = nowMs v ∧ now = nowMs u ∧ v ≤ u ∧ u ≤ t.1.clock ∧ OpenedBy (tr ++ [(k, a)]) v := by
  have hclock := hmove.clock
  obtain ⟨v, u, hentered, hnow, hle, hu, hopened⟩ := h
  refine ⟨v, u, (hmove.openEnteredMs (hd.changing_none hopen trivial k)).trans hentered, hnow, hle, by omega,
    hopened.snoc fun hopens => ?_⟩
  rw [changes_of_opens hopens] at ha
  cases ha

omit [DecidableEq ι] in
theorem WaitedAt.step (hmove : BreakerStep cfg s.1 (s.2 k) a t.1 pc) (ha : a.opens = false)
    (h : WaitedAt cfg tr s.1.clock) : WaitedAt cfg (tr ++ [(k, a)]) t.1.clock :=
  (h.mono (by rw [hmove.clock]; exact Nat.le_add_right _ _)).snoc ha

theorem Access.opens_of_changes (h : a.changes = false) : a.opens = false := by
  by_contra hopens
  cases h.symm.trans (changes_of_opens (Bool.eq_true_of_not_eq_false hopens))

theorem guarded_waited (h : Guarded cfg tr s) (hd : Discipline tr s) (hmove : BreakerStep cfg s.1 (s.2 k) a t.1 pc)
    (ho : Orderly tr (k, a)) (hopen : t.1.cells.state ≠ .kOpen) (hto : t.1.cells.state ≠ .kTransitioningToOpen) :
    WaitedAt cfg (tr ++ [(k, a)]) t.1.clock := by
  cases hmove.stateMove with
  | stays hs ha => exact (h.waited (hs ▸ hopen) (hs ▸ hto)).step hmove (opens_of_changes ha)
  | begins c hs hm ha hpc =>
    rw [hm] at hto
    have hopens : a.opens = false := by
      rw [ha]
      exact decide_eq_false fun hc => hto hc.1
    refine WaitedAt.step hmove hopens ?_
    cases c with
    | reopen =>
      refine h.timedOut k ?_ (ho.fresh (by rw [ha]; rfl))
      cases hk : s.2 k <;> rw [hk] at hpc <;> first | rfl | cases hpc
    | close => exact h.waited (by rw [hs]; decide) (by rw [hs]; decide)
    | stall | fail | trip => exact absurd rfl hto
  | ends c hm ha hpc =>
    rw [hm] at hopen
    have hvia := hd.owner k c (by rw [hpc]; rfl)
    refine WaitedAt.step hmove (by rw [ha]; rfl) ?_
    cases c with
    | reopen | close => exact h.waited (by rw [hvia]; decide) (by rw [hvia]; decide)
    | stall | fail | trip => exact absurd rfl hopen

theorem step_guarded (hcfg : cfg.openTimeout < 2 ^ 63) (hd : Discipline tr s) (h : Guarded cfg tr s) (ho : Orderly tr e)
    (hstep : threadsStep cfg s e = some t) : Guarded cfg (tr ++ [e]) t := by
  obtain ⟨pc, hmove, hpcs⟩ := threadsStep_some hstep
  obtain ⟨k, a⟩ := e
  dsimp only at hmove hpcs
  refine ⟨guarded_entered hd h hmove, ?_, ?_, ?_, guarded_waited h hd hmove ho⟩
  · rw [hpcs, forall_update_iff _ fun i (p : Pc) => ∀ c ws, p = .storing c ws → c.target = .kOpen →
      ∃ u ≤ t.1.clock, enteredAfter ws t.1.cells.openEnteredMs = nowMs u ∧ OpenedBy (tr ++ [(k, a)]) u]
    exact ⟨fun c ws hpc hc => guarded_storing hd h hmove ho hpc hc,
      fun j hj c ws hpc hc => guarded_storing_other hd h hmove hj hpc hc⟩
  · rw [hpcs, forall_update_iff _ fun i (p : Pc) => ∀ now, p = .openEntered now → Fresh i (tr ++ [(k, a)]) →
      ∃ v u, t.1.cells.openEnteredMs = nowMs v ∧ now = nowMs u ∧ v ≤ u ∧ u ≤ t.1.clock ∧ OpenedBy (tr ++ [(k, a)]) v]
    refine ⟨fun now hpc hf => ?_, fun j hj now hpc hf => ?_⟩
    · rw [fresh_self] at hf
      rcases hmove.openEntered hpc with ⟨hpc', hread⟩ | ⟨hpc', rfl, hread⟩
      · obtain ⟨ha, hf⟩ := hf.resolve_left (by rw [hread]; decide)
        exact guarded_timed hd hmove ha (hd.fresh k .kOpen (by rw [hpc']; rfl) hf) (h.timed k now hpc' hf)
      · obtain ⟨ha, hf⟩ := hf.resolve_left (by rw [hread]; decide)
        have hopen := hd.fresh k .kOpen (by rw [hpc']; rfl) hf
        obtain ⟨v, hv, hentered, hopened⟩ := h.entered hopen
        exact guarded_timed hd hmove ha hopen ⟨v, s.1.clock, hentered, rfl, hv, le_rfl, hopened⟩
    · obtain ⟨ha, hf⟩ := (fresh_other hj).1 hf
      exact guarded_timed hd hmove ha (hd.fresh j .kOpen (by rw [hpc]; rfl) hf) (h.timed j now hpc hf)
  · rw [hpcs, forall_update_iff _ fun i (p : Pc) => p = .reopenCas → Fresh i (tr ++ [(k, a)]) →
      WaitedAt cfg (tr ++ [(k, a)]) t.1.clock]
    refine ⟨fun hpc hf => ?_, fun j hj hpc hf => ?_⟩
    · rw [fresh_self] at hf
      rcases hmove.reopenCas hpc with ⟨hpc', hread⟩ | ⟨now, hpc', hread, hle⟩
      · obtain ⟨ha, hf⟩ := hf.resolve_left (by rw [hread]; decide)
        exact (h.timedOut k hpc' hf).step hmove (opens_of_changes ha)
      · obtain ⟨ha, hf⟩ := hf.resolve_left (by rw [hread]; decide)
        obtain ⟨v, u, hentered, rfl, hvu, hu, hopened⟩ := h.timed k now hpc' hf
        rw [hentered] at hle
        have hpast := CircuitBreakerConfig.elapsed_of_le hcfg hvu hle
        exact (hopened.waited (hpast.trans hu)).step hmove (opens_of_changes ha)
    · obtain ⟨ha, hf⟩ := (fresh_other hj).1 hf
      exact (h.timedOut j hpc hf).step hmove (opens_of_changes ha)

end Guarded

/-! ## The slots of a period -/

/-- the accesses since HALF_OPEN was last published -/
def inHalfOpen (tr : List (ι × Access)) : List (ι × Access) :=
  tr.rtakeWhile fun e => decide (e.2 ≠ .publish .kHalfOpen)

/-- the slots of the calls that have returned true -/
def slotsOf (tr : List (ι × Access)) : List ℕ :=
  tr.filterMap fun e => match e.2 with
    | .grant _ slot => some slot.toNat
    | _ => none

structure SlotsKept (cfg : CircuitBreakerConfig) (tr : List (ι × Access)) (s : SharedBreaker × (ι → Pc)) : Prop where
  trues : ((inHalfOpen tr).filter fun e => e.2.returnsTrue).length = (slotsOf (inHalfOpen tr)).length
  nodup : (slotsOf (inHalfOpen tr)).Nodup
  bound : ∀ n ∈ slotsOf (inHalfOpen tr), n < cfg.maxProbes.toNat ∧ n < s.1.cells.halfOpenRequests.toNat
  /-- calls that have taken their slot and are about to return -/
  pending : ∀ i now slot, s.2 i = .grant now slot → Fresh i tr →
    slot.toNat < cfg.maxProbes.toNat ∧ slot.toNat < s.1.cells.halfOpenRequests.toNat ∧
      slot.toNat ∉ slotsOf (inHalfOpen tr)
  distinct : ∀ i j now now' slot, s.2 i = .grant now slot → s.2 j = .grant now' slot → Fresh i tr → Fresh j tr → i = j

section Slots

variable {cfg : CircuitBreakerConfig} {tr : List (ι × Access)} {s t : SharedBreaker × (ι → Pc)} {k : ι}
  {a : Access} {pc : Pc}

omit [DecidableEq ι] in
theorem inHalfOpen_snoc (h : e.2 ≠ .publish .kHalfOpen) :
    inHalfOpen (tr ++ [e]) = inHalfOpen tr ++ [e] := by
  rw [inHalfOpen, rtakeWhile_concat_pos _ _ _ (by simpa using h), inHalfOpen]

omit [DecidableEq ι] in
theorem inHalfOpen_publish : inHalfOpen (tr ++ [(k, .publish .kHalfOpen)]) = [] :=
  rtakeWhile_concat_neg _ _ _ (by simp)

variable {m m' : SharedBreaker} {slot : BitVec 64} {pc' : Pc}

theorem BreakerStep.admit_pc (h : BreakerStep cfg m pc a m' pc') (hpc' : pc' = .grant now slot) :
    (pc = .grant now slot ∧ ∃ ms, a = .tick ms) ∨
      (a = .claimSlot slot ∧ slot = m.cells.halfOpenRequests ∧ slot < cfg.maxProbes ∧
        m'.cells.halfOpenRequests = slot + 1) := by
  cases h with
  | tick _ ms => exact .inl ⟨hpc', ms, rfl⟩
  | enter method => cases (congrArg Pc.now hpc').symm.trans (afterLoad_none method _).2
  | taken now' hlt =>
    cases hpc'
    exact .inr ⟨rfl, rfl, hlt, rfl⟩
  | publish c' => split_ifs at hpc'
  | count _ _ _ _ _ _ _ hcount => cases (congrArg Pc.sees hpc').symm.trans (counting_none hcount).2.1
  | _ => cases hpc'

theorem BreakerStep.admit_access (h : BreakerStep cfg m pc (.grant now slot) m' pc') :
    pc = .grant now slot ∧ pc' = .idle ∧ m'.cells.halfOpenRequests = m.cells.halfOpenRequests := by
  cases h with
  | grant => exact ⟨rfl, rfl, rfl⟩
  | count _ _ _ _ _ _ ha _ => cases ha

theorem BreakerStep.requests (h : BreakerStep cfg m pc a m' pc') (hpc : pc.changing = none) :
    m'.cells.halfOpenRequests = m.cells.halfOpenRequests ∨
      (a = .claimSlot m.cells.halfOpenRequests ∧ m'.cells.halfOpenRequests = m.cells.halfOpenRequests + 1) := by
  cases h with
  | taken | full => exact .inr ⟨rfl, rfl⟩
  | store => cases hpc
  | _ => exact .inl rfl

theorem BreakerStep.returnsTrue (h : BreakerStep cfg m pc a m' pc') (hs : m.cells.state = .kHalfOpen)
    (hret : ∀ now slot, a ≠ .grant now slot) : a.returnsTrue = false := by
  cases h with
  | enter method => cases method <;> rw [hs] <;> rfl
  | count _ _ _ _ _ _ hcount _ => cases a <;> first | rfl | cases hcount
  | grant now slot => exact absurd rfl (hret now slot)
  | _ => rfl

theorem requests_le (ho : Orderly tr (k, a)) (hmove : BreakerStep cfg s.1 (s.2 k) a t.1 pc)
    (hpc : (s.2 k).changing = none) : s.1.cells.halfOpenRequests.toNat ≤ t.1.cells.halfOpenRequests.toNat := by
  rcases hmove.requests hpc with heq | ⟨rfl, heq⟩
  · rw [heq]
  · rw [heq, toNat_add_one_of_ne fun hc => ho.inRange (by rw [hc])]
    exact Nat.le_succ _

theorem slots_quiet (hd : Discipline tr s) (h : SlotsKept cfg tr s) (ho : Orderly tr (k, a))
    (hmove : BreakerStep cfg s.1 (s.2 k) a t.1 pc) (hpcs : t.2 = update s.2 k pc)
    (hs : s.1.cells.state = .kHalfOpen) (ha : a.changes = false) (hpub : ∀ state, a ≠ .publish state)
    (hret : ∀ now slot, a ≠ .grant now slot) : SlotsKept cfg (tr ++ [(k, a)]) t := by
  have hnone := hd.changing_none hs trivial k
  have hle := requests_le ho hmove hnone
  have hfalse := hmove.returnsTrue hs hret
  have hslots : slotsOf (inHalfOpen (tr ++ [(k, a)])) = slotsOf (inHalfOpen tr) := by
    rw [inHalfOpen_snoc (hpub _), slotsOf, filterMap_append]
    have hone : [(k, a)].filterMap (fun e : ι × Access => match e.2 with
        | .grant _ slot => some slot.toNat
        | _ => none) = [] := by
      cases a <;> first | rfl | exact absurd rfl (hret _ _)
    rw [hone, append_nil, slotsOf]
  -- what a call that is about to return has, before and after the step
  have hpending : ∀ i now slot, t.2 i = .grant now slot → Fresh i (tr ++ [(k, a)]) →
      (s.2 i = .grant now slot ∧ Fresh i tr) ∨ (i = k ∧ slot = s.1.cells.halfOpenRequests ∧ slot < cfg.maxProbes ∧
        t.1.cells.halfOpenRequests.toNat = slot.toNat + 1) := by
    intro i now slot hpc hf
    rw [hpcs] at hpc
    by_cases hi : i = k
    · subst hi
      rw [update_self] at hpc
      rcases hmove.admit_pc hpc with ⟨hpc', ms, rfl⟩ | ⟨rfl, rfl, hlt, heq⟩
      · exact .inl ⟨hpc', ((fresh_self.1 hf).resolve_left nofun).2⟩
      · exact .inr ⟨rfl, rfl, hlt, by rw [heq, toNat_add_one_of_ne fun hc => ho.inRange (by rw [hc])]⟩
    · rw [update_of_ne hi] at hpc
      exact .inl ⟨hpc, ((fresh_other hi).1 hf).2⟩
  refine ⟨?_, ?_, ?_, ?_, ?_⟩
  · rw [hslots, inHalfOpen_snoc (hpub _), filter_append, ← h.trues]
    simp [hfalse]
  · rw [hslots]
    exact h.nodup
  · rw [hslots]
    intro n hn
    have := h.bound n hn
    omega
  · rw [hslots]
    intro i now slot hpc hf
    rcases hpending i now slot hpc hf with ⟨hpc, hf⟩ | ⟨rfl, rfl, hlt, hnext⟩
    · obtain ⟨hmax, hreq, hnot⟩ := h.pending i now slot hpc hf
      exact ⟨hmax, by omega, hnot⟩
    · refine ⟨hlt, by omega, fun hmem => ?_⟩
      have := (h.bound _ hmem).2
      omega
  · intro i j now now' slot hi hj hfi hfj
    rcases hpending i now slot hi hfi with ⟨hi', hfi'⟩ | ⟨rfl, hslot, -, -⟩
    · rcases hpending j now' slot hj hfj with ⟨hj', hfj'⟩ | ⟨rfl, hslot, -, -⟩
      · exact h.distinct i j now now' slot hi' hj' hfi' hfj'
      · have := (h.pending i now slot hi' hfi').2.1
        rw [hslot] at this
        omega
    · rcases hpending j now' slot hj hfj with ⟨hj', hfj'⟩ | ⟨rfl, -, -, -⟩
      · have := (h.pending j now' slot hj' hfj').2.1
        rw [hslot] at this
        omega
      · rfl

theorem slots_return (h : SlotsKept cfg tr s) (ho : Orderly tr (k, .grant now slot)) (hpc : s.2 k = .grant now slot)
    (hreq : t.1.cells.halfOpenRequests = s.1.cells.halfOpenRequests) (hpcs : t.2 = update s.2 k .idle) :
    SlotsKept cfg (tr ++ [(k, .grant now slot)]) t := by
  have hfresh : Fresh k tr := ho.fresh rfl
  obtain ⟨hmax, hlt, hnot⟩ := h.pending k now slot hpc hfresh
  have hslots : slotsOf (inHalfOpen (tr ++ [(k, .grant now slot)])) = slotsOf (inHalfOpen tr) ++ [slot.toNat] := by
    rw [inHalfOpen_snoc (by simp), slotsOf, filterMap_append]
    rfl
  have hpending : ∀ i now' slot', t.2 i = .grant now' slot' → Fresh i (tr ++ [(k, .grant now slot)]) →
      i ≠ k ∧ s.2 i = .grant now' slot' ∧ Fresh i tr := by
    intro i now' slot' hpc' hf
    rw [hpcs] at hpc'
    by_cases hi : i = k
    · rw [hi, update_self] at hpc'
      cases hpc'
    · rw [update_of_ne hi] at hpc'
      exact ⟨hi, hpc', ((fresh_other hi).1 hf).2⟩
  refine ⟨?_, ?_, ?_, ?_, ?_⟩
  · rw [hslots, inHalfOpen_snoc (by simp), filter_append, length_append, length_append, h.trues]
    rfl
  · rw [hslots, nodup_append]
    refine ⟨h.nodup, by simp, ?_⟩
    rintro n hn _ hm rfl
    exact hnot (mem_singleton.1 hm ▸ hn)
  · rw [hslots, hreq]
    intro n hn
    rcases mem_append.1 hn with hn | hn
    · exact h.bound n hn
    · rw [mem_singleton.1 hn]
      exact ⟨hmax, hlt⟩
  · rw [hslots, hreq]
    intro i now' slot' hpc' hf
    obtain ⟨hi, hpci, hfi⟩ := hpending i now' slot' hpc' hf
    obtain ⟨hmax', hlt', hnot'⟩ := h.pending i now' slot' hpci hfi
    refine ⟨hmax', hlt', fun hmem => ?_⟩
    rcases mem_append.1 hmem with hmem | hmem
    · exact hnot' hmem
    · obtain rfl : slot' = slot := BitVec.eq_of_toNat_eq (mem_singleton.1 hmem)
      exact hi (h.distinct i k now' now slot' hpci hpc hfi hfresh)
  · intro i j now₁ now₂ slot' hi hj hfi hfj
    obtain ⟨-, hi, hfi⟩ := hpending i now₁ slot' hi hfi
    obtain ⟨-, hj, hfj⟩ := hpending j now₂ slot' hj hfj
    exact h.distinct i j now₁ now₂ slot' hi hj hfi hfj

theorem step_slots (hd : Discipline tr s) (h : s.1.cells.state = .kHalfOpen → SlotsKept cfg tr s) (ho : Orderly tr e)
    (hstep : threadsStep cfg s e = some t) (hhalf : t.1.cells.state = .kHalfOpen) :
    SlotsKept cfg (tr ++ [e]) t := by
  obtain ⟨pc, hmove, hpcs⟩ := threadsStep_some hstep
  obtain ⟨k, a⟩ := e
  dsimp only at hmove hpcs
  cases hmove.stateMove with
  | stays hs ha hpub =>
    have hs := hs.symm.trans hhalf
    by_cases hret : ∃ now slot, a = .grant now slot
    · obtain ⟨now, slot, rfl⟩ := hret
      obtain ⟨hpc, rfl, hreq⟩ := hmove.admit_access
      exact slots_return (h hs) ho hpc hreq hpcs
    · exact slots_quiet hd (h hs) ho hmove hpcs hs ha hpub fun now slot heq => hret ⟨now, slot, heq⟩
  | begins c _ hm =>
    rw [hm] at hhalf
    cases c <;> cases hhalf
  | ends c hm ha hpc hpc' =>
    rw [hm] at hhalf
    obtain rfl : c = .reopen := by cases c <;> first | rfl | cases hhalf
    -- a call that is about to return has seen an earlier period
    have hnone : ∀ i now slot, t.2 i = .grant now slot → ¬ Fresh i (tr ++ [(k, a)]) := by
      intro i now slot hi hf
      rw [hpcs] at hi
      by_cases hik : i = k
      · rw [hik, update_self, hpc'] at hi
        cases hi
      · rw [update_of_ne hik] at hi
        have hhalf := hd.fresh i .kHalfOpen (by rw [hi]; rfl) ((fresh_other hik).1 hf).2
        exact absurd (hhalf.symm.trans (hd.owner k .reopen (by rw [hpc]; rfl))) (by decide)
    have hnil : inHalfOpen (tr ++ [(k, a)]) = [] := by
      rw [ha]
      exact inHalfOpen_publish
    refine ⟨by rw [hnil]; rfl, by rw [hnil]; exact nodup_nil, ?_, ?_, ?_⟩
    · rw [hnil]
      exact fun n hn => absurd hn not_mem_nil
    · exact fun i now slot hi hf => absurd hf (hnone i now slot hi)
    · exact fun i j now now' slot hi _ hf _ => absurd hf (hnone i now slot hi)

end Slots

/-! ## Runs -/

section Runs

variable {cfg : CircuitBreakerConfig} {tr : List (ι × Access)} {s : SharedBreaker × (ι → Pc)}

theorem run_guarded (hcfg : cfg.openTimeout < 2 ^ 63) (h : run (threadsStep cfg) threadsInit tr = some s)
    (ho : EachStep Orderly [] tr) : Guarded cfg tr s ∧ (s.1.cells.state = .kHalfOpen → SlotsKept cfg tr s) := by
  have h0 : Guarded cfg ([] : List (ι × Access)) threadsInit :=
    ⟨fun hc => (by cases hc), fun _ _ _ hc => (by cases hc), fun _ _ hc => (by cases hc), fun _ hc => (by cases hc),
      fun _ _ => trivial⟩
  refine run_induct_of Orderly (fun tr s => Guarded cfg tr s ∧ (s.1.cells.state = .kHalfOpen → SlotsKept cfg tr s))
    ⟨h0, fun hc => (by cases hc)⟩ ?_ tr s h ho
  intro tr s e t hrun ih ho hstep
  have hd := run_discipline hrun
  exact ⟨step_guarded hcfg hd ih.1 ho hstep, step_slots hd ih.2 ho hstep⟩

theorem run_period (h : run (threadsStep cfg) threadsInit tr = some s) :
    ∀ l i r, tr = l ++ (i, .publish .kHalfOpen) :: r → (∀ e ∈ r, e.2.changes = false) →
      s.1.cells.state = .kHalfOpen ∧ inHalfOpen tr = r := by
  refine run_induct (fun (tr : List (ι × Access)) (s : SharedBreaker × (ι → Pc)) => ∀ l i r,
    tr = l ++ (i, .publish .kHalfOpen) :: r → (∀ e ∈ r, e.2.changes = false) →
      s.1.cells.state = .kHalfOpen ∧ inHalfOpen tr = r) (fun l i r heq => by simp at heq) ?_ tr s h
  intro tr s e t hrun ih hstep l i r heq hquiet
  have hd := run_discipline hrun
  obtain ⟨pc, hmove, -⟩ := threadsStep_some hstep
  rcases snoc_eq_append_cons heq with ⟨rfl, rfl, rfl⟩ | ⟨r', htr, rfl⟩
  · refine ⟨?_, inHalfOpen_publish⟩
    cases hmove.stateMove with
    | stays _ _ hpub => exact absurd rfl (hpub _)
    | begins c _ _ ha => cases ha
    | ends c hm ha =>
      rw [hm]
      exact (publish.inj ha).symm
  · obtain ⟨hs, hin⟩ := ih l i r' htr fun e he => hquiet e (by simp [he])
    have hx := hquiet e (by simp)
    cases hmove.stateMove with
    | stays hs' _ hpub => exact ⟨hs'.trans hs, by rw [inHalfOpen_snoc (hpub _), hin]⟩
    | begins c _ _ ha =>
      rw [ha, changes, decide_eq_false_iff_not] at hx
      exact absurd rfl hx
    | ends c _ _ hpc => exact absurd (hs.symm.trans (hd.owner e.1 c (by rw [hpc]; rfl))) (by cases c <;> decide)

theorem SlotsKept.quota (h : SlotsKept cfg tr s) :
    ((inHalfOpen tr).filter fun e => e.2.returnsTrue).length ≤ cfg.maxProbes.toNat := by
  rw [h.trues, ← toFinset_card_of_nodup h.nodup]
  calc (slotsOf (inHalfOpen tr)).toFinset.card
      ≤ (Finset.range cfg.maxProbes.toNat).card :=
        Finset.card_le_card fun n hn => Finset.mem_range.2 (h.bound n (mem_toFinset.1 hn)).1
    _ = cfg.maxProbes.toNat := Finset.card_range _

/-- **The quota of probes and the wait in OPEN** hold in every run of any number of threads in which calls act on what
they have seen. -/
theorem quota_kept (hquota : 0 ≤ cfg.halfOpenMaxRequests ∧ cfg.halfOpenMaxRequests < 2 ^ 31)
    (htimeout : cfg.openTimeout < 2 ^ 63) (h : run (threadsStep cfg) threadsInit tr = some s)
    (ho : EachStep Orderly [] tr) : QuotaKept cfg tr := by
  have hmax : cfg.maxProbes.toNat = cfg.halfOpenMaxRequests.toNat :=
    ofInt_toNat hquota.1 (hquota.2.trans (by decide))
  refine ⟨fun l i r heq hquiet => ?_, fun l e l' i now slot r heq hopens hclaim => ?_⟩
  · obtain ⟨hs, hin⟩ := run_period h l i r heq hquiet
    have hkept := ((run_guarded htimeout h ho).2 hs).quota
    rwa [hin, hmax] at hkept
  · obtain ⟨l₁, l₂, rfl⟩ := append_of_mem hclaim
    have hsplit : tr = (l ++ e :: l₁) ++ (i, .claimSlot slot) :: (l₂ ++ (i, .grant now slot) :: r) := by
      rw [heq]
      simp
    obtain ⟨s₁, hrun, hrest⟩ := run_append_some (hsplit ▸ h)
    obtain ⟨hbefore, hclaim, -⟩ := eachStep_append.1 (hsplit ▸ ho)
    obtain ⟨s₂, hstep, -⟩ := Option.bind_eq_some_iff.1 hrest
    have hd := run_discipline hrun
    have hs := hd.claims (hclaim.fresh rfl) hstep
    have hwaited := (run_guarded htimeout hrun hbefore).1.waited (by rw [hs]; decide) (by rw [hs]; decide)
    have hle := eachStep_iff.1 hwaited l e l₁ rfl hopens
    rw [hd.clock] at hle
    have hmono : clockAt (l ++ e :: l₁) ≤ clockAt (l ++ e :: (l₁ ++ (i, .claimSlot slot) :: l₂)) := by
      rw [clockAt, clockAt]
      simp
    exact hle.trans hmono

end Runs

def quickCfg : CircuitBreakerConfig := { failureThreshold := 1, openTimeout := 1 }

/-- the runs below have three threads -/
instance neZeroThree : NeZero 3 := ⟨by decide⟩

/-- thread 0 reports the failure that trips the breaker, and the timeout passes -/
def tripTrace : List (Fin 3 × Access) :=
  [(0, .enter .onFailure .kClosed), (0, .loadCounts 0), (0, .recheck .kClosed),
   (0, .casCounts 0 (packClosedCounts 1 0) 0 true), (0, .cas .trip .kClosed), (0, .readClock 0),
     (0, .store (.entered 0)),
   (0, .store .successes), (0, .store .requests), (0, .store .probe), (0, .store .transitions), (0, .publish .kOpen),
   (0, .tick 1)]

/-- thread `i` begins a probe cycle -/
def reopenTrace (i : Fin 3) (now entered : BitVec 64) : List (Fin 3 × Access) :=
  [(i, .enter .allowRequest .kOpen), (i, .readClock now), (i, .loadEntered entered), (i, .cas .reopen .kOpen),
   (i, .store .requests), (i, .store .successes), (i, .store .probe), (i, .store .transitions),
     (i, .publish .kHalfOpen)]

def admitTrace (i : Fin 3) (now : BitVec 64) : List (Fin 3 × Access) :=
  [(i, .readClock now), (i, .claimSlot 0), (i, .grant now 0)]

theorem quota_kept_cycle :
    EachStep Orderly [] (tripTrace ++ reopenTrace 1 1 0 ++ admitTrace 1 1) ∧
      QuotaKept quickCfg (tripTrace ++ reopenTrace 1 1 0 ++ admitTrace 1 1) := by
  have hrun : (run (threadsStep quickCfg) threadsInit (tripTrace ++ reopenTrace 1 1 0 ++ admitTrace 1 1)).isSome =
      true := by
    decide +kernel
  have horderly : EachStep Orderly [] (tripTrace ++ reopenTrace 1 1 0 ++ admitTrace 1 1) := by decide +kernel
  obtain ⟨s, hs⟩ := Option.isSome_iff_exists.1 hrun
  exact ⟨horderly, quota_kept (by decide) (by decide) hs horderly⟩

/-- thread 1 reports that its probe has failed -/
def failTrace (now : BitVec 64) : List (Fin 3 × Access) :=
  [(1, .enter .onFailure .kHalfOpen), (1, .cas .fail .kHalfOpen), (1, .readClock now), (1, .store (.entered now)),
   (1, .store .successes), (1, .store .requests), (1, .store .probe), (1, .store .transitions), (1, .publish .kOpen)]

/-- thread 2 sees HALF_OPEN before the probe of thread 1 fails, and takes its slot after that -/
def staleSlot : List (Fin 3 × Access) :=
  tripTrace ++ reopenTrace 1 1 0 ++ admitTrace 1 1 ++
    [(2, .enter .allowRequest .kHalfOpen), (2, .readClock 1)] ++ failTrace 1 ++ [(2, .claimSlot 0), (2, .grant 1 0)]

/-- thread 2 takes the slot of one period and stores its probe time in the next -/
def staleStore : List (Fin 3 × Access) :=
  tripTrace ++ reopenTrace 1 1 0 ++
    [(2, .enter .allowRequest .kHalfOpen), (2, .readClock 1), (2, .claimSlot 0), (1, .readClock 1), (1, .claimSlot 1),
     (1, .loadProbe 0), (1, .cas .stall .kHalfOpen), (1, .store (.entered 1)), (1, .store .successes),
     (1, .store .requests), (1, .store .probe), (1, .store .transitions), (1, .publish .kOpen), (1, .tick 1)] ++
    reopenTrace 1 2 1 ++ admitTrace 1 2 ++ [(2, .grant 1 0)]

/-- **A call that acts on a state that has passed.** One call is let through right after the breaker has opened; in
another run two calls return true in a period with a quota of one. -/
theorem stale_calls_admitted :
    ((run (threadsStep quickCfg) threadsInit staleSlot).isSome = true ∧ ¬ QuotaKept quickCfg staleSlot) ∧
      (run (threadsStep quickCfg) threadsInit staleStore).isSome = true ∧ ¬ QuotaKept quickCfg staleStore := by
  refine ⟨⟨by decide +kernel, fun h => ?_⟩, by decide +kernel, fun h => ?_⟩
  · have hwaits := h.waits (staleSlot.take 28) (1, .cas .fail .kHalfOpen)
      ((failTrace 1).drop 2 ++ [(2, .claimSlot 0)]) 2 1 0 [] (by decide +kernel) rfl (by decide)
    exact absurd hwaits (by decide +kernel)
  · have hquota := h.quota (staleStore.take 44) 1 (admitTrace 1 2 ++ [(2, .grant 1 0)]) (by decide +kernel) (by decide)
    exact absurd hquota (by decide +kernel)

end Coropact.Gateway
