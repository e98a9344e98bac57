/-
The stall fallback of HALF_OPEN, with any number of threads (`include/coropact/gateway/circuit_breaker.h`).

A call that finds the quota used up compares the clock it has read with `half_open_probe_ms_` and moves HALF_OPEN back
to OPEN. `StallsLate` is what that is meant for: the timeout has passed since every probe of the period was admitted.
The probe time is stored after the slot is taken, and it is compared, by an unsigned subtraction, with a clock read
before both; so a probe time that is not stored yet, or is later than the clock that was read, counts as a stall.
-/
import Coropact.Gateway.ProbeQuota

namespace Coropact.Gateway

open Coropact.Machine Function

variable {ι : Type*}

/-! ## What is meant, and when it holds -/

/-- a probe is admitted: a slot below the quota is taken -/
def Access.takes (cfg : CircuitBreakerConfig) : Access → Bool
  | .claimSlot slot => slot < cfg.maxProbes
  | _ => false

/-- every probe admitted in the current period was admitted at a time with `P` -/
def Probes (cfg : CircuitBreakerConfig) (tr : List (ι × Access)) (P : ℕ → Prop) : Prop :=
  ∀ l e r, tr = l ++ e :: r → e.2.takes cfg = true → (∀ x ∈ r, x.2 ≠ .publish .kHalfOpen) → P (clockAt l)

/-- `AllowRequest` moves HALF_OPEN back to OPEN only if the timeout has passed since every probe of the period -/
def StallsLate (cfg : CircuitBreakerConfig) (tr : List (ι × Access)) : Prop :=
  ∀ l i r, tr = l ++ (i, .cas .stall .kHalfOpen) :: r → Probes cfg l fun u => u + cfg.openTimeout.toNat ≤ clockAt l

variable [DecidableEq ι]

def Access.claims : Access → Bool
  | .claimSlot _ => true
  | _ => false

def Access.admits : Access → Bool
  | .grant _ _ => true
  | _ => false

/-- thread `i` has no probe time to store -/
def Stored (cfg : CircuitBreakerConfig) (i : ι) (tr : List (ι × Access)) : Prop :=
  Since (fun e => decide (e.1 = i) && e.2.admits) (fun e => decide (e.1 = i) && e.2.takes cfg) tr

structure Timely (cfg : CircuitBreakerConfig) (tr : List (ι × Access)) (e : ι × Access) : Prop where
  /-- no transition has begun since the call saw HALF_OPEN -/
  fresh : e.2.claims = true ∨ e.2 = .cas .stall .kHalfOpen → Fresh e.1 tr
  /-- slots are taken at the time the call has read -/
  onClock : e.2.claims = true → OnClock e.1 tr
  /-- with the probe times of all admitted calls stored -/
  stored : e.2.claims = true → ∀ i, Stored cfg i tr
  inRange : e.2 ≠ .claimSlot (BitVec.allOnes 64)

instance (cfg : CircuitBreakerConfig) (i : ι) (tr : List (ι × Access)) : Decidable (Stored cfg i tr) :=
  inferInstanceAs (Decidable (Since _ _ tr))

instance [Fintype ι] (cfg : CircuitBreakerConfig) (tr : List (ι × Access)) (e : ι × Access) :
    Decidable (Timely cfg tr e) :=
  decidable_of_iff ((e.2.claims = true ∨ e.2 = .cas .stall .kHalfOpen → Fresh e.1 tr) ∧
    (e.2.claims = true → OnClock e.1 tr) ∧ (e.2.claims = true → ∀ i, Stored cfg i tr) ∧
    e.2 ≠ .claimSlot (BitVec.allOnes 64))
    ⟨fun ⟨h₁, h₂, h₃, h₄⟩ => ⟨h₁, h₂, h₃, h₄⟩, fun ⟨h₁, h₂, h₃, h₄⟩ => ⟨h₁, h₂, h₃, h₄⟩⟩

variable {a : Access} {i : ι} {pc' : Pc}

section Probes

variable {cfg : CircuitBreakerConfig} {tr : List (ι × Access)} {P Q : ℕ → Prop}

omit [DecidableEq ι] in
theorem Probes.mono (h : Probes cfg tr P) (hPQ : ∀ u, P u → Q u) : Probes cfg tr Q :=
  fun l e r heq htakes hr => hPQ _ (h l e r heq htakes hr)

omit [DecidableEq ι] in
theorem Probes.snoc {e : ι × Access} (h : Probes cfg tr P) (he : e.2.takes cfg = true → P (clockAt tr)) :
    Probes cfg (tr ++ [e]) P := by
  intro l x r heq htakes hr
  rcases snoc_eq_append_cons heq with ⟨rfl, rfl, rfl⟩ | ⟨r', rfl, rfl⟩
  · exact he htakes
  · exact h l x r' rfl htakes fun y hy => hr y (List.mem_append_left _ hy)

omit [DecidableEq ι] in
theorem probes_publish : Probes cfg (tr ++ [(i, .publish .kHalfOpen)]) P := by
  intro l x r heq htakes hr
  rcases snoc_eq_append_cons heq with ⟨rfl, rfl, rfl⟩ | ⟨r', rfl, rfl⟩
  · cases htakes
  · exact absurd rfl (hr (i, .publish .kHalfOpen) (by simp))

omit [DecidableEq ι] in
theorem probes_clockAt : Probes cfg tr fun u => u ≤ clockAt tr := by
  intro l e r heq _ _
  rw [heq, clockAt, clockAt, List.map_append, List.sum_append]
  exact Nat.le_add_right _ _

theorem stored_self :
    Stored cfg i (tr ++ [(i, a)]) ↔ a.admits = true ∨ a.takes cfg = false ∧ Stored cfg i tr := by
  simp [Stored, since_snoc]

theorem stored_other {j : ι} (h : j ≠ i) : Stored cfg j (tr ++ [(i, a)]) ↔ Stored cfg j tr := by
  simp [Stored, since_snoc, h.symm]

end Probes

/-! ## Steps -/

def Pc.probing : Pc → Bool
  | .grant _ _ | .probe _ | .stallCas _ => true
  | _ => false

/-- what a step does to the slots and the probe time -/
inductive ProbeMove (cfg : CircuitBreakerConfig) (m : SharedBreaker) (pc : Pc) (a : Access) (m' : SharedBreaker)
    (pc' : Pc) :
    Prop
  | taken (now : BitVec 64) (hpc : pc = .claim now) (ha : a = .claimSlot m.cells.halfOpenRequests)
      (hlt : m.cells.halfOpenRequests < cfg.maxProbes) (hreq : m'.cells.halfOpenRequests = m.cells.halfOpenRequests + 1)
      (hpc' : pc' = .grant now m.cells.halfOpenRequests)
  | full (now : BitVec 64) (hpc : pc = .claim now) (ha : a = .claimSlot m.cells.halfOpenRequests)
      (hle : cfg.maxProbes ≤ m.cells.halfOpenRequests) (hreq : m'.cells.halfOpenRequests = m.cells.halfOpenRequests + 1)
      (hprobe : m'.cells.halfOpenProbeMs = m.cells.halfOpenProbeMs) (hpc' : pc' = .probe now)
  | returned (now slot : BitVec 64) (hpc : pc = .grant now slot) (ha : a.takes cfg = false)
      (hreq : m'.cells.halfOpenRequests = m.cells.halfOpenRequests) (hprobe : m'.cells.halfOpenProbeMs = now)
      (hpc' : pc' = .idle)
  | stalled (now : BitVec 64) (hpc : pc = .probe now) (ha : a.takes cfg = false) (hread : a.readsState = false)
      (hm : m' = m)
      (hle : cfg.timeoutMs ≤ now - m.cells.halfOpenProbeMs) (hpc' : pc' = .stallCas now)
  | other (ha : a.takes cfg = false) (hadm : a.admits = false)
      (hreq : m'.cells.halfOpenRequests = m.cells.halfOpenRequests)
      (hprobe : m'.cells.halfOpenProbeMs = m.cells.halfOpenProbeMs)
      (hpc : pc' = pc ∧ a.readsState = false ∨ pc'.probing = false ∧ ∀ now slot, pc ≠ .grant now slot)
  | changing (ha : a.takes cfg = false) (hpc : pc.changing ≠ none) (hpc' : pc'.probing = false)

theorem BreakerStep.probeMove {cfg : CircuitBreakerConfig} {m m' : SharedBreaker} {pc : Pc}
    (h : BreakerStep cfg m pc a m' pc') : ProbeMove cfg m pc a m' pc' := by
  cases h with
  | tick => exact .other rfl rfl rfl rfl (.inl ⟨rfl, rfl⟩)
  | enter method =>
    refine .other rfl rfl rfl rfl (.inr ⟨?_, nofun⟩)
    cases method <;> cases m.cells.state <;> rfl
  | taken now hlt => exact .taken now rfl rfl hlt rfl rfl
  | full now hle => exact .full now rfl rfl hle rfl rfl rfl
  | grant now slot => exact .returned now slot rfl rfl rfl rfl rfl
  | stalled now _ hle => exact .stalled now rfl rfl rfl rfl hle rfl
  | missed _ c hcas =>
    refine .other rfl rfl rfl rfl (.inr ⟨rfl, ?_⟩)
    rintro now slot rfl
    cases hcas
  | enteredClock | store => exact .changing rfl nofun rfl
  | publish c =>
    refine .changing rfl nofun ?_
    cases c <;> rfl
  | count _ _ _ _ _ hcount ha hcount' =>
    refine .other ?_ ?_ rfl rfl (.inr ⟨?_, ?_⟩)
    · cases a <;> first | rfl | cases ha
    · cases a <;> first | rfl | cases ha
    · rcases hcount' with hcount' | rfl | rfl | rfl
      · cases pc' <;> first | rfl | cases hcount'
      all_goals rfl
    · rintro now slot rfl
      cases hcount
  | openClock | tooSoon | timedOut | joined | reopen | claimClock | unresolved | stall | close | fail | trip =>
    exact .other rfl rfl rfl rfl (.inr ⟨rfl, nofun⟩)

section Measured

/-- a call that is about to store its probe time -/
structure Measured (cfg : CircuitBreakerConfig) (tr : List (ι × Access)) (s : SharedBreaker × (ι → Pc)) : Prop where
  pending : ∀ i now slot, s.2 i = .grant now slot → ∃ t ≤ s.1.clock, now = nowMs t ∧ Probes cfg tr (· ≤ t)
  /-- with no probe time outstanding, the one stored is that of the last probe, if there was one -/
  stored : (∀ i now slot, s.2 i ≠ .grant now slot) → Probes cfg tr (fun _ => False) ∨
    ∃ t ≤ s.1.clock, s.1.cells.halfOpenProbeMs = nowMs t ∧ Probes cfg tr (· ≤ t)
  full : ∀ i now, s.2 i = .probe now → Fresh i tr → cfg.maxProbes ≤ s.1.cells.halfOpenRequests ∧
    (∀ j now slot, s.2 j ≠ .grant now slot) ∧ (Probes cfg tr (fun _ => False) ∨
      ∃ t u, s.1.cells.halfOpenProbeMs = nowMs t ∧ now = nowMs u ∧ t ≤ u ∧ u ≤ s.1.clock ∧ Probes cfg tr (· ≤ t))
  stalled : ∀ i now, s.2 i = .stallCas now → Fresh i tr → cfg.maxProbes ≤ s.1.cells.halfOpenRequests ∧
    Probes cfg tr (· + cfg.openTimeout.toNat ≤ s.1.clock)

variable {cfg : CircuitBreakerConfig} {tr : List (ι × Access)} {s t : SharedBreaker × (ι → Pc)} {k : ι}
  {a : Access} {pc : Pc}

theorem run_owing (h : run (threadsStep cfg) threadsInit tr = some s) :
    ∀ i now slot, s.2 i = .grant now slot → ¬ Stored cfg i tr := by
  refine run_induct (fun (tr : List (ι × Access)) (s : SharedBreaker × (ι → Pc)) =>
    ∀ i now slot, s.2 i = .grant now slot → ¬ Stored cfg i tr) (fun i now slot hc => by cases hc) ?_ tr s h
  intro tr s e t _ ih hstep
  obtain ⟨pc, hmove, hpcs⟩ := threadsStep_some hstep
  obtain ⟨k, a⟩ := e
  dsimp only at hmove hpcs
  rw [hpcs, forall_update_iff _ fun i (p : Pc) => ∀ now slot, p = .grant now slot → ¬ Stored cfg i (tr ++ [(k, a)])]
  refine ⟨fun now slot hpc => ?_, fun j hj now slot hpc => ?_⟩
  · rw [stored_self]
    cases hmove.probeMove with
    | taken now' _ ha hlt =>
      rintro (hadm | ⟨htakes, -⟩)
      · rw [ha] at hadm
        cases hadm
      · rw [ha] at htakes
        exact of_decide_eq_false htakes hlt
    | full now' _ _ _ _ _ hpc' => cases hpc'.symm.trans hpc
    | returned now' slot' _ _ _ _ hpc' => cases hpc'.symm.trans hpc
    | stalled now' _ _ _ _ _ hpc' => cases hpc'.symm.trans hpc
    | changing _ _ hpc' =>
      rw [hpc] at hpc'
      cases hpc'
    | other _ hadm _ _ hpc' =>
      rintro (hadm' | ⟨-, hstored⟩)
      · cases hadm.symm.trans hadm'
      · rcases hpc' with ⟨hsame, -⟩ | ⟨hprobing, -⟩
        · exact ih k now slot (hsame.symm.trans hpc) hstored
        · rw [hpc] at hprobing
          cases hprobing
  · rw [stored_other hj]
    exact ih j now slot hpc

/-- a step that leaves the probe time alone: what the threads know carries over, and the mover's part is left to show -/
theorem Measured.frame (h : Measured cfg tr s) (hpcs : t.2 = update s.2 k pc) (hclock : s.1.clock ≤ t.1.clock)
    (hsnoc : ∀ {P : ℕ → Prop}, Probes cfg tr P → Probes cfg (tr ++ [(k, a)]) P)
    (hmax : cfg.maxProbes ≤ s.1.cells.halfOpenRequests → cfg.maxProbes ≤ t.1.cells.halfOpenRequests)
    (hprobe : t.1.cells.halfOpenProbeMs = s.1.cells.halfOpenProbeMs)
    (hgrant : ∀ now slot, pc = .grant now slot ↔ s.2 k = .grant now slot)
    (hfull : ∀ now, pc = .probe now → Fresh k (tr ++ [(k, a)]) → cfg.maxProbes ≤ s.1.cells.halfOpenRequests ∧
      (∀ j now slot, s.2 j ≠ .grant now slot) ∧ (Probes cfg tr (fun _ => False) ∨
        ∃ t u, s.1.cells.halfOpenProbeMs = nowMs t ∧ now = nowMs u ∧ t ≤ u ∧ u ≤ s.1.clock ∧ Probes cfg tr (· ≤ t)))
    (hstalled : ∀ now, pc = .stallCas now → Fresh k (tr ++ [(k, a)]) → cfg.maxProbes ≤ s.1.cells.halfOpenRequests ∧
      Probes cfg tr (· + cfg.openTimeout.toNat ≤ s.1.clock)) : Measured cfg (tr ++ [(k, a)]) t := by
  have hself : t.2 k = pc := by rw [hpcs, update_self]
  have hother : ∀ i, i ≠ k → t.2 i = s.2 i := fun i hik => by rw [hpcs, update_of_ne hik]
  have hgrants : ∀ i now slot, t.2 i = .grant now slot ↔ s.2 i = .grant now slot := by
    intro i now slot
    by_cases hik : i = k
    · rw [hik, hself, hgrant]
    · rw [hother i hik]
  refine ⟨fun i now slot hi => ?_, fun hnone => ?_, fun i now hi hf => ?_, fun i now hi hf => ?_⟩
  · obtain ⟨u, hu, hnow, hprobes⟩ := h.pending i now slot ((hgrants i now slot).1 hi)
    exact ⟨u, hu.trans hclock, hnow, hsnoc hprobes⟩
  · rw [hprobe]
    exact (h.stored fun i now slot hi => hnone i now slot ((hgrants i now slot).2 hi)).imp hsnoc
      fun ⟨u, hu, hstored, hprobes⟩ => ⟨u, hu.trans hclock, hstored, hsnoc hprobes⟩
  · have hbefore := if hik : i = k then hfull now (by rw [← hself, ← hik, hi]) (hik ▸ hf)
      else h.full i now (hother i hik ▸ hi) ((fresh_other hik).1 hf).2
    obtain ⟨hle, hnone, hprobes⟩ := hbefore
    rw [hprobe]
    exact ⟨hmax hle, fun j now slot hj => hnone j now slot ((hgrants j now slot).1 hj), hprobes.imp hsnoc
      fun ⟨u, v, hstored, hnow, huv, hv, hprobes⟩ => ⟨u, v, hstored, hnow, huv, hv.trans hclock, hsnoc hprobes⟩⟩
  · have hbefore := if hik : i = k then hstalled now (by rw [← hself, ← hik, hi]) (hik ▸ hf)
      else h.stalled i now (hother i hik ▸ hi) ((fresh_other hik).1 hf).2
    exact ⟨hmax hbefore.1, hsnoc (hbefore.2.mono fun u hu => hu.trans hclock)⟩

theorem measured_other (h : Measured cfg tr s) (hmove : BreakerStep cfg s.1 (s.2 k) a t.1 pc)
    (hpcs : t.2 = update s.2 k pc) (ha : a.takes cfg = false)
    (hreq : t.1.cells.halfOpenRequests = s.1.cells.halfOpenRequests)
    (hprobe : t.1.cells.halfOpenProbeMs = s.1.cells.halfOpenProbeMs)
    (hpc : pc = s.2 k ∧ a.readsState = false ∨ pc.probing = false ∧ ∀ now slot, s.2 k ≠ .grant now slot) :
    Measured cfg (tr ++ [(k, a)]) t := by
  have hclock : s.1.clock ≤ t.1.clock := by rw [hmove.clock]; exact Nat.le_add_right _ _
  have hframe :=
    h.frame hpcs hclock (fun hP => hP.snoc fun htakes => by cases ha.symm.trans htakes) (by rw [hreq]; exact id)
    hprobe
  rcases hpc with ⟨hpc, hread⟩ | ⟨hprobing, hgrant⟩
  · have hfresh : Fresh k (tr ++ [(k, a)]) → Fresh k tr := by
      rw [fresh_self, hread]
      exact fun hf => (hf.resolve_left (by decide)).2
    exact hframe (fun _ _ => by rw [hpc]) (fun now hnow hf => h.full k now (hpc ▸ hnow) (hfresh hf))
      fun now hnow hf => h.stalled k now (hpc ▸ hnow) (hfresh hf)
  · refine hframe (fun now slot => iff_of_false ?_ (hgrant now slot)) ?_ ?_
    · rintro rfl
      cases hprobing
    · rintro now rfl
      cases hprobing
    · rintro now rfl
      cases hprobing

theorem update_other (hpcs : t.2 = update s.2 k pc) (hi : t.2 i = pc') (hne : pc ≠ pc') :
    i ≠ k ∧ s.2 i = pc' := by
  rw [hpcs] at hi
  by_cases hik : i = k
  · rw [hik, update_self] at hi
    exact absurd hi hne
  · rw [update_of_ne hik] at hi
    exact ⟨hik, hi⟩

variable {now : BitVec 64}

theorem measured_taken (hd : Discipline tr s) (h : Measured cfg tr s) (ht : Timely cfg tr (k, a))
    (hnone : ∀ i now slot, s.2 i ≠ .grant now slot) (hpc : s.2 k = .claim now)
    (ha : a = .claimSlot s.1.cells.halfOpenRequests) (hlt : s.1.cells.halfOpenRequests < cfg.maxProbes)
    (hclock : t.1.clock = s.1.clock) (hpcs : t.2 = update s.2 k (.grant now s.1.cells.halfOpenRequests)) :
    Measured cfg (tr ++ [(k, a)]) t := by
  subst ha
  have hnow : now = nowMs s.1.clock := (hd.reading k now (by rw [hpc]; rfl)).2 (ht.onClock rfl)
  refine ⟨fun i now' slot hi => ?_, fun hno => ?_, fun i now' hi hf => ?_, fun i now' hi hf => ?_⟩
  · rw [hpcs] at hi
    by_cases hik : i = k
    · rw [hik, update_self] at hi
      obtain ⟨rfl, -⟩ := Pc.grant.inj hi
      refine ⟨s.1.clock, hclock.ge, hnow, ?_⟩
      rw [hd.clock]
      exact probes_clockAt.snoc fun _ => le_rfl
    · rw [update_of_ne hik] at hi
      exact absurd hi (hnone i now' slot)
  · exact absurd (by rw [hpcs, update_self]) (hno k now s.1.cells.halfOpenRequests)
  · obtain ⟨hik, hi⟩ := update_other hpcs hi nofun
    exact absurd hlt (BitVec.not_lt.2 (h.full i now' hi ((fresh_other hik).1 hf).2).1)
  · obtain ⟨hik, hi⟩ := update_other hpcs hi nofun
    exact absurd hlt (BitVec.not_lt.2 (h.stalled i now' hi ((fresh_other hik).1 hf).2).1)

theorem measured_full (hd : Discipline tr s) (h : Measured cfg tr s) (ht : Timely cfg tr (k, a))
    (hnone : ∀ i now slot, s.2 i ≠ .grant now slot) (hpc : s.2 k = .claim now)
    (ha : a = .claimSlot s.1.cells.halfOpenRequests) (hle : cfg.maxProbes ≤ s.1.cells.halfOpenRequests)
    (hreq : t.1.cells.halfOpenRequests = s.1.cells.halfOpenRequests + 1)
    (hprobe : t.1.cells.halfOpenProbeMs = s.1.cells.halfOpenProbeMs) (hclock : t.1.clock = s.1.clock)
    (hpcs : t.2 = update s.2 k (.probe now)) : Measured cfg (tr ++ [(k, a)]) t := by
  subst ha
  have hnow : now = nowMs s.1.clock := (hd.reading k now (by rw [hpc]; rfl)).2 (ht.onClock rfl)
  have hmax : cfg.maxProbes ≤ t.1.cells.halfOpenRequests := by
    rw [BitVec.le_def] at hle ⊢
    rw [hreq, toNat_add_one_of_ne fun hc => ht.inRange (by rw [hc])]
    omega
  refine h.frame hpcs hclock.ge (fun hP => hP.snoc fun htakes => ?_) (fun _ => hmax) hprobe
    (fun now slot => iff_of_false nofun (hnone k now slot)) (fun now' hnow' _ => ⟨hle, hnone, ?_⟩) nofun
  · exact absurd (of_decide_eq_true htakes) (BitVec.not_lt.2 hle)
  · obtain rfl := Pc.probe.inj hnow'
    exact (h.stored hnone).imp_right fun ⟨u, hu, hstored, hprobes⟩ => ⟨u, s.1.clock, hstored, hnow, hu, le_rfl, hprobes⟩

theorem measured_returned (h : Measured cfg tr s) {slot : BitVec 64} (hpc : s.2 k = .grant now slot)
    (ha : a.takes cfg = false) (hreq : t.1.cells.halfOpenRequests = s.1.cells.halfOpenRequests)
    (hprobe : t.1.cells.halfOpenProbeMs = now) (hclock : s.1.clock ≤ t.1.clock) (hpcs : t.2 = update s.2 k .idle) :
    Measured cfg (tr ++ [(k, a)]) t := by
  have hsnoc : ∀ {P : ℕ → Prop}, Probes cfg tr P → Probes cfg (tr ++ [(k, a)]) P :=
    fun hP => hP.snoc fun htakes => by cases ha.symm.trans htakes
  refine ⟨fun i now' slot' hi => ?_, fun _ => ?_, fun i now' hi hf => ?_, fun i now' hi hf => ?_⟩
  · obtain ⟨-, hi⟩ := update_other hpcs hi nofun
    obtain ⟨u, hu, hnow, hprobes⟩ := h.pending i now' slot' hi
    exact ⟨u, hu.trans hclock, hnow, hsnoc hprobes⟩
  · obtain ⟨u, hu, hnow, hprobes⟩ := h.pending k now slot hpc
    exact .inr ⟨u, hu.trans hclock, hprobe.trans hnow, hsnoc hprobes⟩
  · obtain ⟨hik, hi⟩ := update_other hpcs hi nofun
    exact absurd hpc ((h.full i now' hi ((fresh_other hik).1 hf).2).2.1 k now slot)
  · obtain ⟨hik, hi⟩ := update_other hpcs hi nofun
    obtain ⟨hmax, hprobes⟩ := h.stalled i now' hi ((fresh_other hik).1 hf).2
    exact ⟨hreq ▸ hmax, hsnoc (hprobes.mono fun u hu => hu.trans hclock)⟩

theorem measured_stalled (hcfg : cfg.openTimeout < 2 ^ 63) (h : Measured cfg tr s) (hpc : s.2 k = .probe now)
    (ha : a.takes cfg = false) (hread : a.readsState = false) (hm : t.1 = s.1)
    (hle : cfg.timeoutMs ≤ now - s.1.cells.halfOpenProbeMs) (hpcs : t.2 = update s.2 k (.stallCas now)) :
    Measured cfg (tr ++ [(k, a)]) t := by
  refine h.frame hpcs (by rw [hm]) (fun hP => hP.snoc fun htakes =>
    by cases ha.symm.trans htakes) (by rw [hm]; exact id)
    (by rw [hm]) (fun now slot => iff_of_false nofun (by rw [hpc]; nofun)) nofun fun now' _ hf => ?_
  rw [fresh_self, hread] at hf
  obtain ⟨hmax, -, hprobes⟩ := h.full k now hpc (hf.resolve_left (by decide)).2
  refine ⟨hmax, ?_⟩
  rcases hprobes with hnever | ⟨u, v, hstored, rfl, huv, hv, hprobes⟩
  · exact hnever.mono fun _ hc => hc.elim
  · rw [hstored] at hle
    have hpast := CircuitBreakerConfig.elapsed_of_le hcfg huv hle
    refine hprobes.mono fun w hw => ?_
    omega

theorem measured_published (hd : Discipline tr s) (hpc : s.2 k = .storing .reopen [])
    (hclock : t.1.clock = s.1.clock) (hpcs : t.2 = update s.2 k .claimClock) :
    Measured cfg (tr ++ [(k, .publish .kHalfOpen)]) t := by
  -- a call past its claim has seen an earlier period
  have hstale : ∀ i v, i ≠ k → (s.2 i).sees = some v → ¬ Fresh i (tr ++ [(k, .publish .kHalfOpen)]) := by
    intro i v hik hsees hf
    have hvia := hd.owner k .reopen (by rw [hpc]; rfl)
    rw [← hd.fresh i v hsees ((fresh_other hik).1 hf).2, hvia] at hsees
    exact Transition.via_ne_sees .reopen _ hsees
  refine ⟨fun i now slot hi => ?_, fun _ => .inl probes_publish, fun i now hi hf => ?_, fun i now hi hf => ?_⟩
  · obtain ⟨-, hi⟩ := update_other hpcs hi nofun
    obtain ⟨u, hu, hnow⟩ := (hd.reading i now (by rw [hi]; rfl)).1
    exact ⟨u, hclock ▸ hu, hnow, probes_publish⟩
  · obtain ⟨hik, hi⟩ := update_other hpcs hi nofun
    exact absurd hf (hstale i .kHalfOpen hik (by rw [hi]; rfl))
  · obtain ⟨hik, hi⟩ := update_other hpcs hi nofun
    exact absurd hf (hstale i .kHalfOpen hik (by rw [hi]; rfl))

theorem step_measured {e : ι × Access} (hcfg : cfg.openTimeout < 2 ^ 63) (hd : Discipline tr s)
    (howing : ∀ i now slot, s.2 i = .grant now slot → ¬ Stored cfg i tr)
    (h : s.1.cells.state = .kHalfOpen → Measured cfg tr s) (ht : Timely cfg tr e)
    (hstep : threadsStep cfg s e = some t) (hhalf : t.1.cells.state = .kHalfOpen) : Measured cfg (tr ++ [e]) t := by
  obtain ⟨pc, hmove, hpcs⟩ := threadsStep_some hstep
  obtain ⟨k, a⟩ := e
  dsimp only at hmove hpcs
  have hclock := hmove.clock
  cases hmove.stateMove with
  | stays hs =>
    have hs := hs.symm.trans hhalf
    have hno : a.claims = true → ∀ i now slot, s.2 i ≠ .grant now slot :=
      fun hc i now slot hi => howing i now slot hi (ht.stored hc i)
    cases hmove.probeMove with
    | taken now hpc ha hlt hreq hpc' =>
      exact measured_taken hd (h hs) ht (hno (by rw [ha]; rfl)) hpc ha hlt (by rw [hclock, ha]; rfl) (hpc' ▸ hpcs)
    | full now hpc ha hle hreq hprobe hpc' =>
      exact measured_full hd (h hs) ht
        (hno (by rw [ha]; rfl)) hpc ha hle hreq hprobe (by rw [hclock, ha]; rfl) (hpc' ▸ hpcs)
    | returned now slot hpc ha hreq hprobe hpc' =>
      exact measured_returned (h hs) hpc ha hreq hprobe (by omega) (hpc' ▸ hpcs)
    | stalled now hpc ha hread hm hle hpc' => exact measured_stalled hcfg (h hs) hpc ha hread hm hle (hpc' ▸ hpcs)
    | other ha _ hreq hprobe hpc => exact measured_other (h hs) hmove hpcs ha hreq hprobe hpc
    | changing _ hpc => exact absurd (hd.changing_none hs trivial k) hpc
  | begins c _ hm =>
    rw [hm] at hhalf
    cases c <;> cases hhalf
  | ends c hm ha hpc hpc' =>
    rw [hm] at hhalf
    obtain rfl : c = .reopen := by cases c <;> first | rfl | cases hhalf
    subst ha
    exact measured_published hd hpc hclock (by rw [hpcs, hpc']; rfl)

theorem run_measured (hcfg : cfg.openTimeout < 2 ^ 63) (h : run (threadsStep cfg) threadsInit tr = some s)
    (ht : EachStep (Timely cfg) [] tr) : s.1.cells.state = .kHalfOpen → Measured cfg tr s := by
  refine run_induct_of (Timely cfg) (fun tr s => s.1.cells.state = .kHalfOpen → Measured cfg tr s)
    (fun hc => by cases hc)
    ?_ tr s h ht
  intro tr s e t hrun ih ht hstep
  exact step_measured hcfg (run_discipline hrun) (run_owing hrun) ih ht hstep

theorem BreakerStep.stall_access {m m' : SharedBreaker} (h : BreakerStep cfg m pc a m' pc')
    (ha : a = .cas .stall .kHalfOpen) :
    m.cells.state = .kHalfOpen ∧ ∃ now, pc = .stallCas now := by
  cases h with
  | stall now hs => exact ⟨hs, now, rfl⟩
  | missed _ _ _ hs =>
    obtain ⟨rfl, hhalf⟩ := Access.cas.inj ha
    exact absurd hhalf hs
  | count _ _ _ _ _ _ hcount _ =>
    rw [ha] at hcount
    cases hcount
  | _ => cases ha

/-- **The breaker falls back only after a stall**, in every run of any number of threads in which slots are taken at the
time the call has read and with no probe time outstanding. -/
theorem stalls_late (htimeout : cfg.openTimeout < 2 ^ 63) (h : run (threadsStep cfg) threadsInit tr = some s)
    (ht : EachStep (Timely cfg) [] tr) : StallsLate cfg tr := by
  rintro l i r rfl
  obtain ⟨s₁, hrun, hrest⟩ := run_append_some h
  obtain ⟨hbefore, hstall, -⟩ := eachStep_append.1 ht
  obtain ⟨s₂, hstep, -⟩ := Option.bind_eq_some_iff.1 hrest
  obtain ⟨pc, hmove, -⟩ := threadsStep_some hstep
  obtain ⟨hs, now, hpc⟩ := hmove.stall_access rfl
  have hprobes := ((run_measured htimeout hrun hbefore hs).stalled i now hpc (hstall.fresh (.inr rfl))).2
  rwa [(run_discipline hrun).clock] at hprobes

end Measured

/-- the probe of thread 1 is admitted, its outcome does not come, and thread 2 falls back -/
def stalledTrace : List (Fin 3 × Access) :=
  tripTrace ++ reopenTrace 1 1 0 ++ admitTrace 1 1 ++
    [(2, .tick 1), (2, .enter .allowRequest .kHalfOpen), (2, .readClock 2), (2, .claimSlot 1), (2, .loadProbe 1),
     (2, .cas .stall .kHalfOpen)]

theorem stalls_late_stalledTrace : EachStep (Timely quickCfg) [] stalledTrace ∧ StallsLate quickCfg stalledTrace := by
  have hrun : (run (threadsStep quickCfg) threadsInit stalledTrace).isSome = true := by decide +kernel
  have htimely : EachStep (Timely quickCfg) [] stalledTrace := by decide +kernel
  obtain ⟨s, hs⟩ := Option.isSome_iff_exists.1 hrun
  exact ⟨htimely, stalls_late (by decide) hs htimely⟩

/-- thread 2 has taken the slot, and thread 1 finds no probe time -/
def unstoredProbe : List (Fin 3 × Access) :=
  tripTrace ++ reopenTrace 1 1 0 ++
    [(2, .enter .allowRequest .kHalfOpen), (2, .readClock 1), (2, .claimSlot 0), (1, .readClock 1), (1, .claimSlot 1),
     (1, .loadProbe 0), (1, .cas .stall .kHalfOpen)]

/-- thread 1 has read the clock before the probe of thread 2 is admitted, and finds a later probe time -/
def earlierClock : List (Fin 3 × Access) :=
  tripTrace ++ reopenTrace 1 1 0 ++
    [(1, .readClock 1), (2, .tick 1), (2, .enter .allowRequest .kHalfOpen)] ++ admitTrace 2 2 ++
    [(1, .claimSlot 1), (1, .loadProbe 2), (1, .cas .stall .kHalfOpen)]

/-- **A fallback with no stall.** The breaker falls back at the moment its probe is admitted: the probe time is not
stored yet, or the difference to an earlier clock wraps. -/
theorem stall_without_wait :
    ((run (threadsStep quickCfg) threadsInit unstoredProbe).isSome = true ∧ ¬ StallsLate quickCfg unstoredProbe) ∧
      (run (threadsStep quickCfg) threadsInit earlierClock).isSome = true ∧ ¬ StallsLate quickCfg earlierClock := by
  refine ⟨⟨by decide +kernel, fun h => ?_⟩, by decide +kernel, fun h => ?_⟩
  · have hlate := h (unstoredProbe.take 28) 1 [] (by decide +kernel) (unstoredProbe.take 24) (2, .claimSlot 0)
      [(1, .readClock 1), (1, .claimSlot 1), (1, .loadProbe 0)] (by decide +kernel) (by decide) (by decide)
    exact absurd hlate (by decide +kernel)
  · have hlate := h (earlierClock.take 30) 1 [] (by decide +kernel) (earlierClock.take 26) (2, .claimSlot 0)
      [(2, .grant 2 0), (1, .claimSlot 1), (1, .loadProbe 2)] (by decide +kernel) (by decide) (by decide)
    exact absurd hlate (by decide +kernel)

end Coropact.Gateway
