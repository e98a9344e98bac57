/-
The kernel timeouts of the timer queue of an io_uring loop.

`Reconcile` runs at the end of every handler. When it returns, a pending timer is to be covered: the kernel has the
driver or the fallback with a deadline that is not later, or an update whose completion runs `Reconcile` again. It is
not if a `SubmitOp` fails, nor if a timer is added that expires before a fallback that is out: `Reconcile` returns at
once while the control operation is pending.
-/
import Coropact.Luring.TimerCallbacks

namespace Coropact.Luring

open Coropact.Machine Option Bool

/-! ## Statements -/

/-- the kernel has a timeout that is not later than `expiration`, or an update -/
def TimeoutDriver.Covers (d : TimeoutDriver) (expiration : ℕ) : Prop :=
  (∃ deadline, d.driverOut = some deadline ∧ deadline ≤ expiration) ∨
  (∃ deadline, d.controlOut = some (.fallback deadline) ∧ deadline ≤ expiration) ∨
  ∃ deadline, d.controlOut = some (.update deadline)

/-- when no handler is running, every pending timer is covered -/
def LUringTimerQueue.Covered (s : LUringTimerQueue) : Prop :=
  s.pass = .idle → ∀ t ∈ s.timers, s.driver.Covers t.expiration

def TimerEvent.submitted : TimerEvent → Option Bool
  | .addTimer _ _ submitted | .cancel _ submitted | .controlComplete _ _ submitted | .passEnds submitted => submitted
  | _ => none

/-- a fallback that is out is not later than `when` -/
def TimeoutDriver.noEarlier (d : TimeoutDriver) (when : ℕ) : Bool :=
  match d.controlOut with
  | some (.fallback deadline) => deadline ≤ when
  | _ => true

def TimerEvent.adds : TimerEvent → Option ℕ
  | .addTimer when _ _ => some when
  | _ => none

/-- no `SubmitOp` of the step fails, and it adds no timer that expires before a fallback that is out -/
def LUringTimerQueue.Prompt (s : LUringTimerQueue) (e : TimerEvent) : Prop :=
  e.submitted ≠ some false ∧ ∀ when ∈ e.adds, s.driver.noEarlier when = true

instance (s : LUringTimerQueue) (e : TimerEvent) : Decidable (s.Prompt e) := instDecidableAnd

/-! ## The flags and the kernel -/

/-- the flags and deadlines say what the kernel has; a fallback is not later than any timer -/
structure DriverInv (d : TimeoutDriver) (timers : List Timer) : Prop where
  armed : d.driverArmed = d.driverOut.isSome
  deadline : ∀ x, d.driverOut = some x → d.driverDeadline = x
  pending : d.controlPending = d.controlOut.isSome
  isFallback : d.controlIsFallback = true ↔ ∃ x, d.controlOut = some (.fallback x)
  fallbackArmed : d.fallbackArmed = true ↔ ∃ x, d.controlOut = some (.fallback x)
  early : ∀ x, d.controlOut = some (.fallback x) → ∀ t ∈ timers, x ≤ t.expiration

section Driver

variable {d d' : TimeoutDriver} {timers timers' : List Timer} {submitted : Option Bool}

theorem DriverInv.subset (inv : DriverInv d timers) (hsub : ∀ t ∈ timers', t ∈ timers) : DriverInv d timers' :=
  ⟨inv.armed, inv.deadline, inv.pending, inv.isFallback, inv.fallbackArmed, fun x hx t ht =>
    inv.early x hx t (hsub t ht)⟩

theorem DriverInv.insert (inv : DriverInv d timers) {x : Timer} (hmem : ∀ t ∈ timers', t = x ∨ t ∈ timers)
    (hx : d.noEarlier x.expiration = true) : DriverInv d timers' := by
  refine ⟨inv.armed, inv.deadline, inv.pending, inv.isFallback, inv.fallbackArmed, fun y hy t ht => ?_⟩
  rcases hmem t ht with rfl | hold
  · simpa [TimeoutDriver.noEarlier, hy] using hx
  · exact inv.early y hy t hold

theorem DriverInv.driverCompleted (inv : DriverInv d timers) :
    DriverInv { d with driverArmed := false, driverDeadline := 0, driverOut := none } timers :=
  ⟨rfl, nofun, inv.pending, inv.isFallback, inv.fallbackArmed, inv.early⟩

theorem DriverInv.controlCompleted (inv : DriverInv d timers) (result : ℤ) :
    DriverInv (d.controlCompleted result) timers := by
  unfold TimeoutDriver.controlCompleted
  dsimp only
  split
  · exact ⟨inv.armed, inv.deadline, rfl, by simp, by simp, nofun⟩
  · rename_i hupdate
    have hflag : d.controlIsFallback = false := eq_false_iff.2 hupdate
    have harmed : d.fallbackArmed = false :=
      eq_false_iff.2 fun h => hupdate (inv.isFallback.2 (inv.fallbackArmed.1 h))
    split
    · refine ⟨?_, fun x hx => ?_, rfl, by simp [hflag], by simp [harmed], nofun⟩
      · rw [isSome_map]
        exact inv.armed
      · obtain ⟨y, -, rfl⟩ := map_eq_some_iff.1 hx
        rfl
    · exact ⟨inv.armed, inv.deadline, rfl, by simp [hflag], by simp [harmed], nofun⟩

/-- **Reconcile**: if its `SubmitOp` does not fail, every timer is covered. -/
theorem DriverInv.reconcile (inv : DriverInv d timers) (hsorted : timers.Pairwise TimerLe)
    (hok : submitted ≠ some false) (h : d.reconcile (timers.head?.map (·.expiration)) submitted = some d') :
    DriverInv d' timers ∧ ∀ t ∈ timers, d'.Covers t.expiration := by
  unfold TimeoutDriver.reconcile at h
  dsimp only at h
  split at h
  · -- the control operation is out
    rename_i hpending
    obtain ⟨-, rfl⟩ := of_ite_some h
    refine ⟨inv, fun t ht => ?_⟩
    obtain ⟨op, hop⟩ := isSome_iff_exists.1 (inv.pending ▸ hpending)
    cases op with
    | update deadline => exact .inr (.inr ⟨deadline, hop⟩)
    | fallback deadline => exact .inr (.inl ⟨deadline, hop, inv.early deadline hop t ht⟩)
  rename_i hpending
  have hnone : d.controlOut = none := by
    rw [inv.pending, not_isSome_iff_eq_none] at hpending
    exact hpending
  have hnotFallback : ¬∃ x, d.controlOut = some (.fallback x) := by
    rintro ⟨x, hx⟩
    cases hnone.symm.trans hx
  cases timers with
  | nil =>
    obtain ⟨-, rfl⟩ := of_ite_some h
    exact ⟨inv, nofun⟩
  | cons first rest =>
    have hfirst : ∀ t ∈ first :: rest, first.expiration ≤ t.expiration := fun t ht => head_expiration_le hsorted ht
    have htrue : ∀ {b : Bool}, submitted = some b → b = true := by
      rintro (_ | _) hb
      · exact absurd hb hok
      · rfl
    dsimp only [List.head?_cons, map_some] at h
    split_ifs at h with harmed hearlier hsupported hfallback hsubmitted hsubmitted
    · -- the driver is armed
      obtain ⟨b, hb, rfl⟩ := map_eq_some_iff.1 h
      obtain rfl := htrue hb
      refine ⟨⟨rfl, fun x hx => some.inj hx, inv.pending, inv.isFallback, inv.fallbackArmed, inv.early⟩, fun t ht => ?_⟩
      exact .inl ⟨first.expiration, rfl, hfirst t ht⟩
    · -- it is updated
      obtain ⟨b, hb, rfl⟩ := map_eq_some_iff.1 h
      obtain rfl := htrue hb
      refine ⟨⟨inv.armed, inv.deadline, rfl, ⟨nofun, nofun⟩, ⟨fun h => ?_, nofun⟩, nofun⟩, fun t ht => ?_⟩
      · exact absurd (inv.fallbackArmed.1 h) hnotFallback
      · exact .inr (.inr ⟨first.expiration, rfl⟩)
    · -- the fallback is armed
      obtain ⟨b, hb, rfl⟩ := map_eq_some_iff.1 h
      obtain rfl := htrue hb
      refine ⟨⟨inv.armed, inv.deadline, rfl, ⟨fun _ => ⟨_, rfl⟩, fun _ => rfl⟩, ⟨fun _ => ⟨_, rfl⟩, fun _ => rfl⟩, ?_⟩,
        fun t ht => ?_⟩
      · intro x hx
        obtain rfl := ControlOp.fallback.inj (some.inj hx)
        exact hfirst
      · exact .inr (.inl ⟨first.expiration, rfl, hfirst t ht⟩)
    · exact absurd (inv.fallbackArmed.1 (not_eq_false _ ▸ hfallback)) hnotFallback
    · -- the driver is not late
      obtain rfl := some.inj h
      refine ⟨inv, fun t ht => ?_⟩
      rw [inv.armed, not_eq_false] at harmed
      obtain ⟨deadline, hout⟩ := isSome_iff_exists.1 harmed
      rw [inv.deadline deadline hout] at hearlier
      exact .inl ⟨deadline, hout, (Nat.le_of_not_lt hearlier).trans (hfirst t ht)⟩

end Driver

/-! ## Runs -/

section Runs

variable {s t : LUringTimerQueue}

/-- the flags fit the kernel, and between handlers every timer is covered -/
def LUringTimerQueue.Armed (s : LUringTimerQueue) : Prop := DriverInv s.driver s.timers ∧ s.Covered

theorem armed_of_reconcile {submitted : Option Bool} (hok : submitted ≠ some false) (inv : DriverInv s.driver s.timers)
    (hsorted : s.timers.Pairwise TimerLe) (h : s.reconcile submitted = some t) : t.Armed := by
  obtain ⟨d, hd, rfl⟩ := reconcile_some h
  obtain ⟨inv', hcovers⟩ := inv.reconcile hsorted hok hd
  exact ⟨inv', fun _ => hcovers⟩

theorem timerStep_covered {e : TimerEvent} (inv : TimerInv s) (harmed : s.Armed) (hprompt : s.Prompt e)
    (h : timerStep s e = some t) : t.Armed := by
  obtain ⟨hdriver, hcovered⟩ := harmed
  obtain ⟨hok, hadds⟩ := hprompt
  cases e with
  | addTimer when sequence submitted =>
    obtain ⟨-, h⟩ := ite_none_right_eq_some.1 h
    rcases addTimer_some h with ⟨errno, next, -, rfl⟩ | ⟨-, timers, hinsert, hrec⟩
    · exact ⟨hdriver, hcovered⟩
    · obtain ⟨-, hmem, hsorted, -⟩ := insertTimer_out hinsert
      have hdriver' := hdriver.insert (fun u hu => (hmem u).1 hu) (hadds when rfl)
      exact armed_of_reconcile hok hdriver' (hsorted inv.safe.ordered.1) hrec
  | cancel sequence submitted =>
    obtain ⟨-, h⟩ := ite_none_right_eq_some.1 h
    rcases cancel_some h with rfl | ⟨x, -, hrec⟩
    · exact ⟨hdriver, hcovered⟩
    · have hdriver' := hdriver.subset fun u (hu : u ∈ s.timers.erase x) => List.mem_of_mem_erase hu
      exact armed_of_reconcile hok hdriver' (inv.safe.ordered.1.sublist List.erase_sublist) hrec
  | driverComplete now =>
    obtain ⟨-, rfl⟩ := of_ite_some h
    exact ⟨hdriver.driverCompleted, nofun⟩
  | controlComplete result now submitted =>
    have hdriver' := hdriver.controlCompleted result
    obtain ⟨-, -, -, ⟨-, rfl⟩ | ⟨-, d, hd, rfl⟩⟩ := controlComplete_some h
    · exact ⟨hdriver', nofun⟩
    · obtain ⟨inv', hcovers⟩ := hdriver'.reconcile inv.safe.ordered.1 hok hd
      exact ⟨inv', fun _ => hcovers⟩
  | pop =>
    obtain ⟨now, x, rest, hpass, htimers, -, hcases⟩ := pop_some h
    have hdriver' : DriverInv s.driver rest := hdriver.subset fun u hu => htimers ▸ List.mem_cons_of_mem x hu
    rcases hcases with ⟨-, rfl⟩ | ⟨owned, -, rfl⟩
    · refine ⟨hdriver', fun hidle => ?_⟩
      cases hpass.symm.trans hidle
    · exact ⟨hdriver', nofun⟩
  | callbackReturns =>
    obtain ⟨now, -, rfl⟩ := callbackReturns_some h
    exact ⟨hdriver, nofun⟩
  | passEnds submitted =>
    obtain ⟨now, -, -, d, hd, rfl⟩ := passEnds_some h
    obtain ⟨inv', hcovers⟩ := hdriver.reconcile inv.safe.ordered.1 hok hd
    exact ⟨inv', fun _ => hcovers⟩

def PromptAt (tr : List TimerEvent) (e : TimerEvent) : Prop := ∀ s ∈ run timerStep {} tr, s.Prompt e

instance (tr : List TimerEvent) (e : TimerEvent) : Decidable (PromptAt tr e) :=
  inferInstanceAs (Decidable (∀ s ∈ run timerStep {} tr, s.Prompt e))

theorem run_covered : ∀ (tr : List TimerEvent) (s : LUringTimerQueue), run timerStep {} tr = some s →
    EachStep PromptAt [] tr → s.Armed :=
  run_induct_of PromptAt (fun _ s => s.Armed) ⟨⟨rfl, nofun, rfl, by simp, by simp, nofun⟩, fun _ => nofun⟩
    fun tr s _ _ hs harmed hprompt hst => timerStep_covered (run_timerInv tr s hs) harmed (hprompt s hs) hst

/-- **No timer is armed too late**, in every run in which no `SubmitOp` fails and no timer is added that expires before
a fallback that is out. -/
theorem never_armed_late {tr : List TimerEvent} (hrun : run timerStep {} tr = some s)
    (hprompt : EachStep PromptAt [] tr) :
    s.Covered :=
  (run_covered tr s hrun hprompt).2

end Runs

/-- an earlier timer comes; the kernel rejects the update; the fallback is armed, expires and runs its timer -/
def rejectedRun : List TimerEvent :=
  [.addTimer 10 0 (some true), .addTimer 8 1 (some true), .controlComplete (-22) 1 (some true), .addTimer 9 2 none,
   .controlComplete (-62) 8 none, .pop, .callbackReturns, .passEnds (some true)]

theorem never_armed_late_rejectedRun : ∃ s, run timerStep {} rejectedRun = some s ∧ s.Covered ∧
    s.timers = [⟨9, 2⟩, ⟨10, 0⟩] ∧ s.driver.driverOut = some 10 ∧ s.driver.controlOut = some (.fallback 9) :=
  ⟨_, rfl, never_armed_late (rfl : run timerStep {} rejectedRun = some _) (by decide), by decide, rfl, rfl⟩

/-- the kernel rejects the update and the fallback is armed for 8; then a timer that expires at 6 is added -/
def earlierRun : List TimerEvent :=
  [.addTimer 10 0 (some true), .addTimer 8 1 (some true), .controlComplete (-22) 1 (some true), .addTimer 6 2 none]

/-- **A pending timer without a timeout.** If the `SubmitOp` of `Arm` fails, `AddTimer` has succeeded and the kernel has
nothing. If a timer is added that expires before the fallback that is out, the kernel's earliest deadline is 8, and the
timer expires at 6. -/
theorem armed_late :
    (∃ s, run timerStep {} [.addTimer 5 0 (some false)] = some s ∧ s.pass = .idle ∧ s.timers = [⟨5, 0⟩] ∧
      s.driver.driverOut = none ∧ s.driver.controlOut = none ∧ ¬s.Covered) ∧
    ∃ s, run timerStep {} earlierRun = some s ∧ s.pass = .idle ∧ s.timers = [⟨6, 2⟩, ⟨8, 1⟩, ⟨10, 0⟩] ∧
      s.driver.driverOut = some 10 ∧ s.driver.controlOut = some (.fallback 8) ∧ ¬s.Covered := by
  refine ⟨⟨_, rfl, rfl, by decide, rfl, rfl, fun h => ?_⟩, ⟨_, rfl, rfl, by decide, rfl, rfl, fun h => ?_⟩⟩
  · rcases h rfl ⟨5, 0⟩ (by decide) with ⟨d, hd, -⟩ | ⟨d, hd, -⟩ | ⟨d, hd⟩ <;> cases hd
  · rcases h rfl ⟨6, 2⟩ (by decide) with ⟨d, hd, hle⟩ | ⟨d, hd, hle⟩ | ⟨d, hd⟩
    · obtain rfl := some.inj hd
      exact absurd hle (by decide)
    · obtain rfl := ControlOp.fallback.inj (some.inj hd)
      exact absurd hle (by decide)
    · cases hd

end Coropact.Luring
