/-
The timer queue of an io_uring loop (`src/luring/timer_queue.cc`, `PopWhile` of
`include/coropact/ds/intrusive_rbtree.h`, `include/coropact/time/timer.h`, `timer_tree.h`).

The pending timers are in an ordered set, by expiration and sequence number, and in a map from sequence numbers. One
kernel timeout, the driver, is to wake the loop for the earliest. If an earlier timer comes, the driver is updated, or,
on a kernel that rejects updates, a second timeout is armed, the fallback; update and fallback share one control
operation.

When the driver or the fallback completes, the expired timers are popped one by one and their callbacks run. A callback
may call `AddTimer` and `Cancel`: a step of the model is such a call, the start of a callback, its return, the beginning
of a handler or the end of its pass. The clock is read at the beginning of a pass and does not go back. Sequence numbers
are drawn by all queues of the process from one counter: here a new one is any that is larger than those before. A
`SubmitOp` and its answer are part of the step that makes it; `driverOut` and `controlOut` are the operations that the
kernel has.
-/
import Coropact.Core.Errno
import Coropact.Core.Machine
import Mathlib.Data.List.Sort

namespace Coropact.Luring

open Coropact.Machine Function

/-! ## Model -/

structure Timer where
  /-- in microseconds -/
  expiration : ℕ
  sequence : ℕ
deriving DecidableEq, Repr

def timerLess (a b : Timer) : Bool :=
  if a.expiration < b.expiration then true
  else if b.expiration < a.expiration then false
  else a.sequence < b.sequence

/-- what the control operation that the kernel has is for -/
inductive ControlOp where
  | update (deadline : ℕ)
  | fallback (deadline : ℕ)
deriving DecidableEq, Repr

/-- the flags and deadlines of the queue; a deadline that is invalid is 0 -/
structure TimeoutDriver where
  driverArmed : Bool := false
  controlPending : Bool := false
  controlIsFallback : Bool := false
  fallbackArmed : Bool := false
  timeoutUpdateSupported : Bool := true
  driverDeadline : ℕ := 0
  requestedDeadline : ℕ := 0
  driverOut : Option ℕ := none
  controlOut : Option ControlOp := none
deriving DecidableEq, Repr

inductive Pass where
  | idle
  /-- in `PopWhile`, between two callbacks -/
  | processing (now : ℕ)
  | inCallback (now : ℕ)
deriving DecidableEq, Repr

inductive TimerAction where
  | added (t : Timer)
  /-- `Cancel` returned success -/
  | cancelled (sequence : ℕ)
  /-- `AddTimer` or `Cancel` returned an error -/
  | failed (errno : ℕ)
  /-- the callback starts, in a pass that began at `now` -/
  | started (t : Timer) (now : ℕ)
deriving DecidableEq, Repr

structure LUringTimerQueue where
  timers : List Timer := []
  active : ℕ → Option Timer := fun _ => none
  driver : TimeoutDriver := {}
  pass : Pass := .idle
  clock : ℕ := 0
  nextSequence : ℕ := 0
  log : List TimerAction := []

open LUringTimerQueue

def TimeoutDriver.arm (d : TimeoutDriver) (deadline : ℕ) (submitted : Bool) : TimeoutDriver :=
  if submitted then { d with driverArmed := true, driverDeadline := deadline, driverOut := some deadline } else d

def TimeoutDriver.armFallback (d : TimeoutDriver) (deadline : ℕ) (submitted : Bool) : TimeoutDriver :=
  if submitted then
    { d with
      controlIsFallback := true, controlPending := true, fallbackArmed := true, controlOut :=
        some (.fallback deadline) }
  else { d with controlIsFallback := false }

def TimeoutDriver.update (d : TimeoutDriver) (deadline : ℕ) (submitted : Bool) : TimeoutDriver :=
  let d := { d with requestedDeadline := deadline, controlIsFallback := false }
  if submitted then { d with controlPending := true, controlOut := some (.update deadline) } else d

/-- `Reconcile` with the expiration of the earliest timer; `submitted` is the answer of its `SubmitOp`, if it makes one
-/
def TimeoutDriver.reconcile (d : TimeoutDriver) (earliest : Option ℕ) (submitted : Option Bool) :
    Option TimeoutDriver :=
  let unchanged := if submitted = none then some d else none
  if d.controlPending then unchanged
  else
    match earliest with
    | none => unchanged
    | some expiration =>
      if d.driverArmed = false then submitted.map (d.arm expiration)
      else if expiration < d.driverDeadline then
        if d.timeoutUpdateSupported then submitted.map (d.update expiration)
        else if d.fallbackArmed = false then submitted.map (d.armFallback expiration)
        else unchanged
      else unchanged

def LUringTimerQueue.earliest (s : LUringTimerQueue) : Option ℕ := s.timers.head?.map (·.expiration)

def LUringTimerQueue.reconcile (s : LUringTimerQueue) (submitted : Option Bool) : Option LUringTimerQueue :=
  (s.driver.reconcile s.earliest submitted).map fun d => { s with driver := d }

def LUringTimerQueue.act (s : LUringTimerQueue) (a : TimerAction) : LUringTimerQueue := { s with log := s.log ++ [a] }

/-- a call that returns an error makes no `SubmitOp` -/
def LUringTimerQueue.fail (s : LUringTimerQueue) (errno : ℕ) (submitted : Option Bool) : Option LUringTimerQueue :=
  if submitted = none then some (s.act (.failed errno)) else none

/-- `Insert` of the ordered set, and `false` if it has an equal timer -/
def insertTimer (timers : List Timer) (t : Timer) : Option (List Timer) :=
  if t ∈ timers then none else some (timers.orderedInsert (fun a b => timerLess b a = false) t)

def LUringTimerQueue.addTimer (s : LUringTimerQueue) (when sequence : ℕ) (submitted : Option Bool) :
    Option LUringTimerQueue :=
  if when = 0 then s.fail EINVAL submitted
  else if sequence < s.nextSequence then none
  else
    let t : Timer := ⟨when, sequence⟩
    let s := { s with nextSequence := sequence + 1 }
    if (s.active sequence).isSome then s.fail EEXIST submitted
    else
      match insertTimer s.timers t with
      | none => s.fail EEXIST submitted
      | some timers =>
        ({ s with timers := timers, active := update s.active sequence (some t) }.act (.added t)).reconcile
          submitted

def LUringTimerQueue.cancel (s : LUringTimerQueue) (sequence : ℕ) (submitted : Option Bool) : Option LUringTimerQueue :=
  match s.active sequence with
  | none => s.fail ENOENT submitted
  | some t =>
    ({ s with timers := s.timers.erase t, active := update s.active sequence none }.act
      (.cancelled sequence)).reconcile submitted

/-- `HandleDriverComplete` up to the first pop -/
def LUringTimerQueue.handleDriverComplete (s : LUringTimerQueue) (now : ℕ) : LUringTimerQueue :=
  { s with
    driver := { s.driver with driverArmed := false, driverDeadline := 0, driverOut := none }
    pass := .processing now
    clock := now }

/-- what the completion of the control operation does to the flags; a fallback has expired, an update succeeded if its
result is 0 -/
def TimeoutDriver.controlCompleted (d : TimeoutDriver) (result : ℤ) : TimeoutDriver :=
  let d := { d with controlPending := false, controlOut := none }
  if d.controlIsFallback then { d with controlIsFallback := false, fallbackArmed := false }
  else if result = 0 then
    { d with driverDeadline := d.requestedDeadline, driverOut := d.driverOut.map fun _ => d.requestedDeadline }
  else { d with timeoutUpdateSupported := false }

/-- `HandleControlComplete`, in the case of a fallback up to the first pop -/
def LUringTimerQueue.handleControlComplete (s : LUringTimerQueue) (result : ℤ) (now : ℕ) (submitted : Option Bool) :
    Option LUringTimerQueue :=
  let completed := { s with driver := s.driver.controlCompleted result }
  if s.driver.controlIsFallback then
    if submitted = none then some { completed with pass := .processing now, clock := now } else none
  else completed.reconcile submitted

/-- one round of `PopWhile`: the earliest timer, if it has expired, is erased, and its callback starts -/
def LUringTimerQueue.pop (s : LUringTimerQueue) (now : ℕ) : Option LUringTimerQueue :=
  match s.timers with
  | [] => none
  | t :: rest =>
    if t.expiration ≤ now then
      let s := { s with timers := rest }
      match s.active t.sequence with
      | none => some s
      | some owned =>
        some ({ s with active := update s.active t.sequence none, pass := .inCallback now }.act
          (.started owned now))
    else none

inductive TimerEvent where
  | addTimer (when sequence : ℕ) (submitted : Option Bool)
  | cancel (sequence : ℕ) (submitted : Option Bool)
  | driverComplete (now : ℕ)
  | controlComplete (result : ℤ) (now : ℕ) (submitted : Option Bool)
  | pop
  | callbackReturns
  /-- no expired timer is left: `Reconcile`, and the handler returns -/
  | passEnds (submitted : Option Bool)
deriving DecidableEq, Repr

/-- a call is made between handlers or in a callback -/
def Pass.mayCall : Pass → Bool
  | .processing _ => false
  | _ => true

def timerStep (s : LUringTimerQueue) : TimerEvent → Option LUringTimerQueue
  | .addTimer when sequence submitted => if s.pass.mayCall then s.addTimer when sequence submitted else none
  | .cancel sequence submitted => if s.pass.mayCall then s.cancel sequence submitted else none
  | .driverComplete now =>
    if s.pass = .idle ∧ s.driver.driverOut.isSome ∧ s.clock ≤ now then some (s.handleDriverComplete now) else none
  | .controlComplete result now submitted =>
    if s.pass = .idle ∧ s.driver.controlOut.isSome ∧ s.clock ≤ now then s.handleControlComplete result now submitted
    else none
  | .pop =>
    match s.pass with
    | .processing now => s.pop now
    | _ => none
  | .callbackReturns =>
    match s.pass with
    | .inCallback now => some { s with pass := .processing now }
    | _ => none
  | .passEnds submitted =>
    match s.pass with
    | .processing now =>
      if ∀ expiration ∈ s.earliest, now < expiration then { s with pass := .idle }.reconcile submitted else none
    | _ => none

/-! ## The ordered set -/

/-- not after `b` -/
def TimerLe (a b : Timer) : Prop := timerLess b a = false

instance : DecidableRel TimerLe := fun a b => inferInstanceAs (Decidable (timerLess b a = false))

theorem timerLe_iff {a b : Timer} :
    TimerLe a b ↔ a.expiration < b.expiration ∨ (a.expiration = b.expiration ∧ a.sequence ≤ b.sequence) := by
  unfold TimerLe timerLess
  split_ifs with h1 h2
  · simp
    omega
  · simp
    omega
  · simp
    omega

instance : IsTrans Timer TimerLe := ⟨fun a b c => by simp only [timerLe_iff]; omega⟩

instance : Std.Total TimerLe := ⟨fun a b => by simp only [timerLe_iff]; omega⟩

theorem insertTimer_out {timers timers' : List Timer} {t : Timer} (h : insertTimer timers t = some timers') :
    t ∉ timers ∧ (∀ u, u ∈ timers' ↔ u = t ∨ u ∈ timers) ∧ (timers.Pairwise TimerLe → timers'.Pairwise TimerLe) ∧
      (timers.Nodup → timers'.Nodup) := by
  obtain ⟨hnot, heq⟩ := Option.ite_none_left_eq_some.1 h
  obtain rfl := Option.some.inj heq
  refine ⟨hnot, fun u => List.mem_orderedInsert _, fun hsorted => ?_, fun hnodup => ?_⟩
  · exact List.Pairwise.orderedInsert (r := TimerLe) t timers hsorted
  · rw [(List.perm_orderedInsert _ t timers).nodup_iff, List.nodup_cons]
    exact ⟨hnot, hnodup⟩

theorem head_expiration_le {t : Timer} {rest : List Timer} (h : (t :: rest).Pairwise TimerLe) {u : Timer}
    (hu : u ∈ t :: rest) : t.expiration ≤ u.expiration := by
  rcases List.mem_cons.1 hu with rfl | hrest
  · exact le_rfl
  · have hle := timerLe_iff.1 (List.rel_of_pairwise_cons h hrest)
    omega

/-! ## What a step does to the set, the map and the log -/

inductive TimerMove (s t : LUringTimerQueue) : Prop
  /-- at most a failed call is logged -/
  | keep (htimers : t.timers = s.timers) (hactive : t.active = s.active) (hnext : s.nextSequence ≤ t.nextSequence)
      (hlog : t.log = s.log ∨ ∃ errno, t.log = s.log ++ [.failed errno])
  | add (x : Timer) (hseq : s.nextSequence ≤ x.sequence) (htimers : insertTimer s.timers x = some t.timers)
      (hactive : t.active = update s.active x.sequence (some x)) (hnext : t.nextSequence = x.sequence + 1)
      (hlog : t.log = s.log ++ [.added x])
  | cancel (x : Timer) (sequence : ℕ) (hx : s.active sequence = some x) (htimers : t.timers = s.timers.erase x)
      (hactive : t.active = update s.active sequence none) (hnext : t.nextSequence = s.nextSequence)
      (hlog : t.log = s.log ++ [.cancelled sequence])
  /-- a timer that the map does not have is popped -/
  | drop (x : Timer) (htimers : s.timers = x :: t.timers) (hx : s.active x.sequence = none)
      (hactive : t.active = s.active) (hnext : t.nextSequence = s.nextSequence) (hlog : t.log = s.log)
  | start (x owned : Timer) (now : ℕ) (htimers : s.timers = x :: t.timers) (hdue : x.expiration ≤ now)
      (hx : s.active x.sequence = some owned) (hactive : t.active = update s.active x.sequence none)
      (hnext : t.nextSequence = s.nextSequence) (hlog : t.log = s.log ++ [.started owned now])

section Moves

variable {s t : LUringTimerQueue} {submitted : Option Bool}

theorem reconcile_some (h : s.reconcile submitted = some t) :
    ∃ d, s.driver.reconcile s.earliest submitted = some d ∧ t = { s with driver := d } := by
  obtain ⟨d, hd, rfl⟩ := Option.map_eq_some_iff.1 h
  exact ⟨d, hd, rfl⟩

theorem fail_some {errno : ℕ} (h : s.fail errno submitted = some t) : t = s.act (.failed errno) :=
  (of_ite_some h).2.symm

theorem addTimer_some {when sequence : ℕ} (h : s.addTimer when sequence submitted = some t) :
    (∃ errno next, s.nextSequence ≤ next ∧ t = { s with nextSequence := next, log := s.log ++ [.failed errno] }) ∨
    (s.nextSequence ≤ sequence ∧ ∃ timers, insertTimer s.timers ⟨when, sequence⟩ = some timers ∧
      reconcile { s with
        nextSequence := sequence + 1, timers := timers, log := s.log ++ [.added ⟨when, sequence⟩]
        active := update s.active sequence (some ⟨when, sequence⟩) } submitted = some t) := by
  unfold addTimer at h
  split at h
  · exact .inl ⟨_, s.nextSequence, le_rfl, fail_some h⟩
  split at h
  · cases h
  rename_i hseq
  have hseq : s.nextSequence ≤ sequence := Nat.le_of_not_lt hseq
  dsimp only at h
  split at h
  · exact .inl ⟨_, sequence + 1, Nat.le_succ_of_le hseq, fail_some h⟩
  split at h
  · exact .inl ⟨_, sequence + 1, Nat.le_succ_of_le hseq, fail_some h⟩
  · exact .inr ⟨hseq, _, ‹_›, h⟩

theorem cancel_some {sequence : ℕ} (h : s.cancel sequence submitted = some t) :
    (t = s.act (.failed ENOENT)) ∨
    (∃ x, s.active sequence = some x ∧ reconcile { s with
      timers := s.timers.erase x, active := update s.active sequence none
      log := s.log ++ [.cancelled sequence] } submitted = some t) := by
  unfold cancel at h
  split at h
  · exact .inl (fail_some h)
  · exact .inr ⟨_, ‹_›, h⟩

theorem controlComplete_some {result : ℤ} {now : ℕ} (h : timerStep s (.controlComplete result now submitted) = some t) :
    s.pass = .idle ∧ s.driver.controlOut.isSome ∧ s.clock ≤ now ∧
      ((s.driver.controlIsFallback = true ∧
          t = { s with driver := s.driver.controlCompleted result, pass := .processing now, clock := now }) ∨
       (s.driver.controlIsFallback = false ∧
          ∃ d, (s.driver.controlCompleted result).reconcile s.earliest submitted = some d ∧
            t = { s with driver := d })) := by
  obtain ⟨⟨hidle, hout, hclock⟩, h⟩ := Option.ite_none_right_eq_some.1 h
  refine ⟨hidle, hout, hclock, ?_⟩
  unfold handleControlComplete at h
  dsimp only at h
  split at h
  · obtain ⟨-, rfl⟩ := of_ite_some h
    exact .inl ⟨‹_›, rfl⟩
  · obtain ⟨d, hd, rfl⟩ := reconcile_some h
    exact .inr ⟨Bool.eq_false_iff.2 ‹_›, d, hd, rfl⟩

theorem pop_some (h : timerStep s .pop = some t) :
    ∃ now x rest, s.pass = .processing now ∧ s.timers = x :: rest ∧ x.expiration ≤ now ∧
      ((s.active x.sequence = none ∧ t = { s with timers := rest }) ∨
       (∃ owned, s.active x.sequence = some owned ∧ t = { s with
          timers := rest, active := update s.active x.sequence none, pass := .inCallback now
          log := s.log ++ [.started owned now] })) := by
  simp only [timerStep] at h
  split at h
  · rename_i now hpass
    unfold pop at h
    split at h
    · cases h
    · rename_i x rest htimers
      obtain ⟨hdue, h⟩ := Option.ite_none_right_eq_some.1 h
      refine ⟨now, x, rest, hpass, htimers, hdue, ?_⟩
      dsimp only at h
      split at h
      · exact .inl ⟨‹_›, (Option.some.inj h).symm⟩
      · exact .inr ⟨_, ‹_›, (Option.some.inj h).symm⟩
  · cases h

theorem callbackReturns_some (h : timerStep s .callbackReturns = some t) :
    ∃ now, s.pass = .inCallback now ∧ t = { s with pass := .processing now } := by
  simp only [timerStep] at h
  split at h
  · exact ⟨_, ‹_›, (Option.some.inj h).symm⟩
  · cases h

theorem passEnds_some (h : timerStep s (.passEnds submitted) = some t) :
    ∃ now, s.pass = .processing now ∧ (∀ expiration ∈ s.earliest, now < expiration) ∧
      ∃ d, s.driver.reconcile s.earliest submitted = some d ∧ t = { s with pass := .idle, driver := d } := by
  simp only [timerStep] at h
  split at h
  · obtain ⟨hnone, h⟩ := Option.ite_none_right_eq_some.1 h
    obtain ⟨d, hd, rfl⟩ := reconcile_some h
    exact ⟨_, ‹_›, hnone, d, hd, rfl⟩
  · cases h

theorem TimerMove.of_step {e : TimerEvent} (h : timerStep s e = some t) : TimerMove s t := by
  cases e with
  | addTimer when sequence submitted =>
    obtain ⟨-, h⟩ := Option.ite_none_right_eq_some.1 h
    rcases addTimer_some h with ⟨errno, next, hnext, rfl⟩ | ⟨hseq, timers, hinsert, hrec⟩
    · exact .keep rfl rfl hnext (.inr ⟨errno, rfl⟩)
    · obtain ⟨d, -, rfl⟩ := reconcile_some hrec
      exact .add ⟨when, sequence⟩ hseq hinsert rfl rfl rfl
  | cancel sequence submitted =>
    obtain ⟨-, h⟩ := Option.ite_none_right_eq_some.1 h
    rcases cancel_some h with rfl | ⟨x, hx, hrec⟩
    · exact .keep rfl rfl le_rfl (.inr ⟨ENOENT, rfl⟩)
    · obtain ⟨d, -, rfl⟩ := reconcile_some hrec
      exact .cancel x sequence hx rfl rfl rfl rfl
  | driverComplete now =>
    obtain ⟨-, rfl⟩ := of_ite_some h
    exact .keep rfl rfl le_rfl (.inl rfl)
  | controlComplete result now submitted =>
    obtain ⟨-, -, -, ⟨-, rfl⟩ | ⟨-, d, -, rfl⟩⟩ := controlComplete_some h
    · exact .keep rfl rfl le_rfl (.inl rfl)
    · exact .keep rfl rfl le_rfl (.inl rfl)
  | pop =>
    obtain ⟨now, x, rest, -, htimers, hdue, ⟨hx, rfl⟩ | ⟨owned, hx, rfl⟩⟩ := pop_some h
    · exact .drop x htimers hx rfl rfl rfl
    · exact .start x owned now htimers hdue hx rfl rfl rfl
  | callbackReturns =>
    obtain ⟨now, -, rfl⟩ := callbackReturns_some h
    exact .keep rfl rfl le_rfl (.inl rfl)
  | passEnds submitted =>
    obtain ⟨now, -, -, d, -, rfl⟩ := passEnds_some h
    exact .keep rfl rfl le_rfl (.inl rfl)

end Moves

end Coropact.Luring
