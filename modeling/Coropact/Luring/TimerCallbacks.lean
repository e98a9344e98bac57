/-
The callbacks of the timer queue of an io_uring loop.

Callbacks run in the middle of `PopWhile` and may add and cancel timers. At every point between two steps, also inside a
callback, the ordered set and the map hold the same timers; a timer leaves both before its callback starts, so a
callback starts once, and a `Cancel` that succeeds leaves no callback to start. The timer whose callback starts is the
earliest of all that are pending then: a callback that starts later is that of a timer that does not expire before it,
or that was added in between.
-/
import Coropact.Luring.TimerQueue

namespace Coropact.Luring

open Coropact.Machine List Function Option

/-! ## Statements -/

/-- the start of the callback of the timer with this number -/
def TimerAction.starts (sequence : ℕ) : TimerAction → Bool
  | .started t _ => t.sequence = sequence
  | _ => false

open TimerAction

structure LogSafe (log : List TimerAction) : Prop where
  once : ∀ sequence, log.countP (·.starts sequence) ≤ 1
  due : ∀ t now, .started t now ∈ log → t.expiration ≤ now
  notCancelled : ∀ l sequence r, log = l ++ .cancelled sequence :: r → ∀ x ∈ r, x.starts sequence = false
  /-- of two callbacks, in one pass or not, the later is that of a timer that does not expire earlier, or that was added
  after the first had started -/
  order : ∀ l t now m u now' r, log = l ++ .started t now :: m ++ .started u now' :: r → .added u ∉ m →
    t.expiration ≤ u.expiration

structure CallbacksSafe (s : LUringTimerQueue) : Prop where
  /-- the ordered set and the map hold the same timers -/
  same : ∀ sequence t, s.active sequence = some t ↔ t ∈ s.timers ∧ t.sequence = sequence
  ordered : s.timers.Pairwise TimerLe ∧ s.timers.Nodup
  log : LogSafe s.log

/-! ## The log -/

section Log

variable {log : List TimerAction} {x : TimerAction}

theorem LogSafe.snoc (h : LogSafe log) (hx : ∀ sequence, x.starts sequence = false) : LogSafe (log ++ [x]) := by
  have hne : ∀ t now, x ≠ .started t now := by
    rintro t now rfl
    simpa [starts] using hx t.sequence
  constructor
  · intro sequence
    rw [countP_append, countP_singleton, hx sequence]
    exact h.once sequence
  · intro t now hmem
    rcases mem_append.1 hmem with hold | hnew
    · exact h.due t now hold
    · exact absurd (mem_singleton.1 hnew).symm (hne t now)
  · intro l sequence r heq y hy
    rcases snoc_eq_append_cons heq with ⟨-, -, rfl⟩ | ⟨r', hlog, rfl⟩
    · cases hy
    · rcases mem_append.1 hy with hold | hnew
      · exact h.notCancelled l sequence r' hlog y hold
      · exact mem_singleton.1 hnew ▸ hx sequence
  · intro l t now m u now' r heq hm
    rcases snoc_eq_append_cons heq with ⟨-, hxu, -⟩ | ⟨r', hlog, -⟩
    · exact absurd hxu (hne u now')
    · exact h.order l t now m u now' r' hlog hm

/-- a callback starts that has not started, whose timer is due, has not been cancelled and is not before its turn -/
theorem LogSafe.start (h : LogSafe log) {t : Timer} {now : ℕ} (hdue : t.expiration ≤ now)
    (hnew : ∀ y ∈ log, y.starts t.sequence = false) (hcancel : .cancelled t.sequence ∉ log)
    (hturn : ∀ l u now' r, log = l ++ .started u now' :: r → .added t ∉ r → u.expiration ≤ t.expiration) :
    LogSafe (log ++ [.started t now]) := by
  constructor
  · intro sequence
    rw [countP_append, countP_singleton]
    by_cases hseq : t.sequence = sequence
    · have hzero : log.countP (·.starts sequence) = 0 := by
        rw [countP_eq_zero]
        intro y hy
        rw [← hseq, hnew y hy]
        decide
      rw [hzero]
      split <;> decide
    · simpa [starts, hseq] using h.once sequence
  · intro u now' hmem
    rcases mem_append.1 hmem with hold | hlast
    · exact h.due u now' hold
    · obtain ⟨rfl, rfl⟩ := started.inj (mem_singleton.1 hlast)
      exact hdue
  · intro l sequence r heq y hy
    rcases snoc_eq_append_cons heq with ⟨-, -, rfl⟩ | ⟨r', hlog, rfl⟩
    · cases hy
    · rcases mem_append.1 hy with hold | hlast
      · exact h.notCancelled l sequence r' hlog y hold
      · have hne : t.sequence ≠ sequence := by
          rintro rfl
          exact hcancel (hlog ▸ by simp)
        rw [mem_singleton.1 hlast]
        simpa [starts] using hne
  · intro l u now' m v now'' r heq hm
    rcases snoc_eq_append_cons heq with ⟨hlog, hv, -⟩ | ⟨r', hlog, -⟩
    · obtain ⟨rfl, rfl⟩ := started.inj hv
      exact hturn l u now' m hlog hm
    · exact h.order l u now' m v now'' r' hlog hm

end Log

/-! ## The invariant -/

structure TimerInv (s : LUringTimerQueue) : Prop where
  safe : CallbacksSafe s
  bound : ∀ t ∈ s.timers, t.sequence < s.nextSequence
  /-- a timer whose callback started, or that was cancelled, is not pending, and its number is not given again -/
  gone : ∀ x ∈ s.log, ∀ sequence, x.starts sequence = true ∨ x = .cancelled sequence →
    sequence < s.nextSequence ∧ s.active sequence = none
  /-- what was pending when a callback started does not expire before its timer -/
  later : ∀ l t now r, s.log = l ++ .started t now :: r → ∀ u ∈ s.timers, .added u ∉ r → t.expiration ≤ u.expiration

section Invariant

variable {s t : LUringTimerQueue}

theorem later_snoc {log : List TimerAction} {timers : List Timer} {x : TimerAction} (hx : ∀ u now, x ≠ .started u now)
    (h : ∀ l t now r, log = l ++ .started t now :: r → ∀ u ∈ timers, .added u ∉ r → t.expiration ≤ u.expiration) :
    ∀ l t now r, log ++ [x] = l ++ .started t now :: r → ∀ u ∈ timers, .added u ∉ r → t.expiration ≤ u.expiration := by
  intro l t now r heq u hu hadded
  rcases snoc_eq_append_cons heq with ⟨-, hxt, -⟩ | ⟨r', hlog, rfl⟩
  · exact absurd hxt (hx t now)
  · exact h l t now r' hlog u hu fun hmem => hadded (mem_append_left _ hmem)

theorem TimerInv.keep (inv : TimerInv s) (htimers : t.timers = s.timers) (hactive : t.active = s.active)
    (hnext : s.nextSequence ≤ t.nextSequence) (hlog : t.log = s.log ∨ ∃ errno, t.log = s.log ++ [.failed errno]) :
    TimerInv t := by
  have hgone : ∀ x ∈ s.log, ∀ sequence, x.starts sequence = true ∨ x = .cancelled sequence →
      sequence < t.nextSequence ∧ t.active sequence = none := by
    intro x hx sequence h
    obtain ⟨hlt, hnone⟩ := inv.gone x hx sequence h
    exact ⟨hlt.trans_le hnext, hactive ▸ hnone⟩
  have hbound : ∀ u ∈ t.timers, u.sequence < t.nextSequence := fun u hu => (inv.bound u (htimers ▸ hu)).trans_le hnext
  have hsame : ∀ sequence u, t.active sequence = some u ↔ u ∈ t.timers ∧ u.sequence = sequence := by
    rw [htimers, hactive]
    exact inv.safe.same
  have hordered : t.timers.Pairwise TimerLe ∧ t.timers.Nodup := htimers ▸ inv.safe.ordered
  rcases hlog with hlog | ⟨errno, hlog⟩
  · refine ⟨⟨hsame, hordered, hlog ▸ inv.safe.log⟩, hbound, hlog ▸ hgone, ?_⟩
    rw [hlog, htimers]
    exact inv.later
  · refine ⟨⟨hsame, hordered, hlog ▸ inv.safe.log.snoc fun _ => rfl⟩, hbound, fun x hx sequence h => ?_, ?_⟩
    · rcases mem_append.1 (hlog ▸ hx) with hold | hnew
      · exact hgone x hold sequence h
      · obtain rfl := mem_singleton.1 hnew
        exact h.elim nofun nofun
    · rw [hlog, htimers]
      exact later_snoc nofun inv.later

theorem TimerInv.add (inv : TimerInv s) {x : Timer} (hseq : s.nextSequence ≤ x.sequence)
    (htimers : insertTimer s.timers x = some t.timers) (hactive : t.active = update s.active x.sequence (some x))
    (hnext : t.nextSequence = x.sequence + 1) (hlog : t.log = s.log ++ [.added x]) : TimerInv t := by
  obtain ⟨-, hmem, hsorted, hnodup⟩ := insertTimer_out htimers
  have hfresh : ∀ u ∈ s.timers, u.sequence ≠ x.sequence := fun u hu => ((inv.bound u hu).trans_le hseq).ne
  refine ⟨⟨fun sequence u => ?_, ⟨hsorted inv.safe.ordered.1, hnodup inv.safe.ordered.2⟩,
    hlog ▸ inv.safe.log.snoc fun _ => rfl⟩,
    fun u hu => ?_, fun y hy sequence h => ?_, fun l u now r heq v hv hadded => ?_⟩
  · rw [hactive, hmem]
    by_cases hx : sequence = x.sequence
    · subst hx
      rw [update_self, some.injEq]
      refine ⟨fun h => ⟨.inl h.symm, h ▸ rfl⟩, fun ⟨h, hu⟩ => ?_⟩
      exact (h.resolve_right fun hold => hfresh u hold hu).symm
    · rw [update_of_ne hx, inv.safe.same]
      refine and_congr_left fun hu => ⟨.inr, fun h => h.resolve_left ?_⟩
      rintro rfl
      exact hx hu.symm
  · rw [hnext]
    rcases (hmem u).1 hu with rfl | hold
    · exact Nat.lt_succ_self _
    · exact ((inv.bound u hold).trans_le hseq).trans (Nat.lt_succ_self _)
  · rcases mem_append.1 (hlog ▸ hy) with hold | hnew
    · obtain ⟨hlt, hnone⟩ := inv.gone y hold sequence h
      have hne : sequence ≠ x.sequence := (hlt.trans_le hseq).ne
      exact ⟨by omega, by rw [hactive, update_of_ne hne, hnone]⟩
    · obtain rfl := mem_singleton.1 hnew
      exact h.elim nofun nofun
  · rcases snoc_eq_append_cons (hlog ▸ heq) with ⟨-, hx, -⟩ | ⟨r', hold, rfl⟩
    · cases hx
    · rcases (hmem v).1 hv with rfl | hmemv
      · exact absurd (mem_append_right _ (mem_singleton_self _)) hadded
      · exact inv.later l u now r' hold v hmemv fun h => hadded (mem_append_left _ h)

theorem TimerInv.remove (inv : TimerInv s) {x : Timer} (hx : x ∈ s.timers) (htimers : t.timers = s.timers.erase x)
    (hactive : t.active = update s.active x.sequence none) :
    (∀ sequence u, t.active sequence = some u ↔ u ∈ t.timers ∧ u.sequence = sequence) ∧
      (t.timers.Pairwise TimerLe ∧ t.timers.Nodup) := by
  refine ⟨fun sequence u => ?_, ?_, ?_⟩
  · rw [hactive, htimers, inv.safe.ordered.2.mem_erase_iff]
    by_cases hseq : sequence = x.sequence
    · subst hseq
      rw [update_self]
      refine ⟨nofun, fun ⟨⟨hne, hu⟩, hsame⟩ => absurd ?_ hne⟩
      exact some.inj (((inv.safe.same _ u).2 ⟨hu, hsame⟩).symm.trans ((inv.safe.same _ x).2 ⟨hx, rfl⟩))
    · rw [update_of_ne hseq, inv.safe.same]
      refine and_congr_left fun hu => ⟨fun h => ⟨?_, h⟩, And.right⟩
      rintro rfl
      exact hseq hu.symm
  · rw [htimers]
    exact inv.safe.ordered.1.sublist erase_sublist
  · rw [htimers]
    exact inv.safe.ordered.2.erase x

theorem TimerInv.gone_remove (inv : TimerInv s) {x : Timer} (hx : x ∈ s.timers) {a : TimerAction}
    (ha : ∀ sequence, a.starts sequence = true ∨ a = .cancelled sequence → sequence = x.sequence)
    (hactive : t.active = update s.active x.sequence none) (hnext : t.nextSequence = s.nextSequence)
    (hlog : t.log = s.log ++ [a]) :
    ∀ y ∈ t.log, ∀ sequence, y.starts sequence = true ∨ y = .cancelled sequence →
      sequence < t.nextSequence ∧ t.active sequence = none := by
  intro y hy sequence h
  rw [hnext, hactive]
  rcases mem_append.1 (hlog ▸ hy) with hold | hnew
  · obtain ⟨hlt, hnone⟩ := inv.gone y hold sequence h
    refine ⟨hlt, ?_⟩
    by_cases hseq : sequence = x.sequence
    · rw [hseq, update_self]
    · rw [update_of_ne hseq, hnone]
  · obtain rfl := mem_singleton.1 hnew
    obtain rfl := ha sequence h
    exact ⟨inv.bound x hx, update_self ..⟩

theorem TimerInv.cancel (inv : TimerInv s) {x : Timer} {sequence : ℕ} (hx : s.active sequence = some x)
    (htimers : t.timers = s.timers.erase x) (hactive : t.active = update s.active sequence none)
    (hnext : t.nextSequence = s.nextSequence) (hlog : t.log = s.log ++ [.cancelled sequence]) : TimerInv t := by
  obtain ⟨hmem, rfl⟩ := (inv.safe.same sequence x).1 hx
  obtain ⟨hsame, hordered⟩ := inv.remove hmem htimers hactive
  have hsub : ∀ u ∈ t.timers, u ∈ s.timers := fun u hu => mem_of_mem_erase (htimers ▸ hu)
  refine ⟨⟨hsame, hordered, hlog ▸ inv.safe.log.snoc fun _ => rfl⟩, fun u hu => hnext ▸ inv.bound u (hsub u hu),
    inv.gone_remove hmem (fun n h => ?_) hactive hnext hlog, ?_⟩
  · exact h.elim nofun fun heq => (cancelled.inj heq).symm
  · rw [hlog]
    exact later_snoc nofun fun l u now r heq v hv => inv.later l u now r heq v (hsub v hv)

/-- **A callback starts**: its timer is the earliest of the pending ones, and is pending no more. -/
theorem TimerInv.start (inv : TimerInv s) {x owned : Timer} {now : ℕ} (htimers : s.timers = x :: t.timers)
    (hdue : x.expiration ≤ now) (hx : s.active x.sequence = some owned)
    (hactive : t.active = update s.active x.sequence none) (hnext : t.nextSequence = s.nextSequence)
    (hlog : t.log = s.log ++ [.started owned now]) : TimerInv t := by
  have hmem : x ∈ s.timers := htimers ▸ mem_cons_self
  obtain rfl : x = owned := some.inj (((inv.safe.same _ x).2 ⟨hmem, rfl⟩).symm.trans hx)
  have herase : t.timers = s.timers.erase x := by rw [htimers, erase_cons_head]
  have hsub : ∀ u ∈ t.timers, u ∈ s.timers := fun u hu => htimers ▸ mem_cons_of_mem x hu
  have hpending : ∀ y ∈ s.log, ¬(y.starts x.sequence = true ∨ y = .cancelled x.sequence) := by
    intro y hy h
    cases (inv.gone y hy x.sequence h).2.symm.trans hx
  obtain ⟨hsame, hordered⟩ := inv.remove hmem herase hactive
  refine ⟨⟨hsame, hordered, ?_⟩, fun u hu => hnext ▸ inv.bound u (hsub u hu),
    inv.gone_remove hmem (fun n h => ?_) hactive hnext hlog, fun l u now' r heq v hv hadded => ?_⟩
  · rw [hlog]
    refine inv.safe.log.start hdue (fun y hy => ?_) (fun h => hpending _ h (.inr rfl)) fun l u now' r heq hadded => ?_
    · exact Bool.eq_false_iff.2 fun h => hpending y hy (.inl h)
    · exact inv.later l u now' r heq x hmem hadded
  · refine h.elim (fun hs => ?_) nofun
    simpa [starts, eq_comm] using hs
  · rcases snoc_eq_append_cons (hlog ▸ heq) with ⟨-, hstarted, -⟩ | ⟨r', hold, rfl⟩
    · obtain ⟨rfl, -⟩ := started.inj hstarted
      exact head_expiration_le (htimers ▸ inv.safe.ordered.1) (mem_cons_of_mem _ hv)
    · exact inv.later l u now' r' hold v (hsub v hv) fun h => hadded (mem_append_left _ h)

theorem timerMove_inv (inv : TimerInv s) (h : TimerMove s t) : TimerInv t := by
  cases h with
  | keep htimers hactive hnext hlog => exact inv.keep htimers hactive hnext hlog
  | add x hseq htimers hactive hnext hlog => exact inv.add hseq htimers hactive hnext hlog
  | cancel x sequence hx htimers hactive hnext hlog => exact inv.cancel hx htimers hactive hnext hlog
  | drop x htimers hx hactive hnext hlog =>
    -- the map has every timer of the set
    have hmem : x ∈ s.timers := htimers ▸ mem_cons_self
    cases hx.symm.trans ((inv.safe.same _ x).2 ⟨hmem, rfl⟩)
  | start x owned now htimers hdue hx hactive hnext hlog => exact inv.start htimers hdue hx hactive hnext hlog

theorem init_timerInv : TimerInv {} where
  safe :=
    { same := fun _ _ => ⟨nofun, nofun⟩
      ordered := ⟨.nil, .nil⟩
      log := ⟨fun _ => Nat.zero_le 1, nofun, by simp, by simp⟩ }
  bound := nofun
  gone := nofun
  later := by simp

theorem run_timerInv : ∀ (tr : List TimerEvent) (s : LUringTimerQueue), run timerStep {} tr = some s → TimerInv s :=
  run_induct (fun _ s => TimerInv s) init_timerInv fun _ _ _ _ _ inv hst => timerMove_inv inv (.of_step hst)

/-- **Callbacks run at most once, when they are due, and not after a successful `Cancel`**, and the set and the map
agree, at every point of every run. -/
theorem callbacks_safe {tr : List TimerEvent} (hrun : run timerStep {} tr = some s) : CallbacksSafe s :=
  (run_timerInv tr s hrun).safe

end Invariant

/-- three timers; the callback of the first cancels the second and adds one that is due at once and runs in the same
pass -/
def cancellingRun : List TimerEvent :=
  [.addTimer 5 0 (some true), .addTimer 7 1 none, .addTimer 9 2 none, .driverComplete 10, .pop, .cancel 1 (some true),
   .addTimer 3 4 (some true), .callbackReturns, .pop, .callbackReturns, .pop, .callbackReturns, .passEnds none,
   .cancel 1 none]

theorem callbacks_safe_cancellingRun : ∃ s, run timerStep {} cancellingRun = some s ∧ CallbacksSafe s ∧ s.timers = [] ∧
    s.log = [.added ⟨5, 0⟩, .added ⟨7, 1⟩, .added ⟨9, 2⟩, .started ⟨5, 0⟩ 10, .cancelled 1, .added ⟨3, 4⟩,
      .started ⟨3, 4⟩ 10, .started ⟨9, 2⟩ 10, .failed ENOENT] :=
  ⟨_, rfl, callbacks_safe (rfl : run timerStep {} cancellingRun = some _), by decide, by decide⟩

end Coropact.Luring
