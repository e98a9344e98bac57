/-
The loop of the reactor (`src/net/event_loop.cc`): queued functors, `Quit` and the wakeup descriptor.

Any thread may call `QueueInLoop` and `Quit`. On another thread both are followed by a write to an eventfd that the loop
polls; a thread is `waking` between its push, or its store of the flag, and that write. On the loop thread `Quit` writes
nothing, and `QueueInLoop` writes only while functors are run. The loop runs the functors that are queued, looks at the
flag and at the queue, polls, with timeout zero if a functor is queued, and dispatches the channels that are active;
reading the eventfd, in the callback of its channel, sets its counter to zero.

A step of the model is one access: a critical section, a load or store of a flag, a read or write of the eventfd.
Functors and callbacks of channels may call `QueueInLoop` and `Quit` any number of times. A poll may return with any set
of channels that are ready, also with none. Functors are of any type, and threads are named by any type.
-/
import Coropact.Core.Machine

namespace Coropact.Net

open Coropact.Machine List Option Function

/-! ## Model -/

inductive ActiveChannel where
  | wakeup
  | other
deriving DecidableEq, Repr

inductive LoopPc where
  /-- before `Loop` is called, or after it has returned -/
  | outside
  /-- `while (!quit_)` -/
  | check
  -- `DoPendingFunctors`
  | storeCalling
  | swap
  | nextFunctor
  | inFunctor
  /-- `if (quit_)` -/
  | quitCheck
  | immediateWork
  /-- about to call `Poll`, or in it, with a nonzero timeout or with zero -/
  | poll (nonzero : Bool)
  | dispatch (active : List ActiveChannel)
  | inCallback (rest : List ActiveChannel)
deriving DecidableEq, Repr

structure EventLoop (α ι : Type*) where
  quit : Bool := false
  callingPendingFunctors : Bool := false
  pendingFunctors : List α := []
  /-- the vector of `DoPendingFunctors`, from the functor that is next -/
  functors : List α := []
  eventfd : ℕ := 0
  pc : LoopPc := .outside
  /-- the loop thread is in `QueueInLoop`, behind its push -/
  pushed : Bool := false
  waking : ι → Bool := fun _ => false
  /-- all functors that were queued, and those that were started -/
  queued : List α := []
  ran : List α := []

inductive ReactorEvent (α ι : Type*) where
  -- on another thread
  | push (i : ι) (functor : α)
  | quit (i : ι)
  | wakeup (i : ι)
  -- on the loop thread, in a functor, in a callback or outside of `Loop`
  | loopPush (functor : α)
  | loopWakeup
  | loopQuit
  -- the loop
  | enter
  | loadQuit
  | storeCalling
  | swap
  | runFunctor
  | functorReturns
  | functorsDone
  | loadQuitAgain
  | hasImmediateWork
  | pollReturns (active : List ActiveChannel)
  | handleEvent
  | callbackReturns
  | dispatchDone
deriving DecidableEq, Repr

/-- the largest value of an eventfd's counter; a write that would exceed it fails with EAGAIN -/
def eventfdMax : ℕ := 2 ^ 64 - 2

def writeEventfd (n : ℕ) : ℕ := if n < eventfdMax then n + 1 else n

def LoopPc.runsUserCode : LoopPc → Bool
  | .outside | .inFunctor | .inCallback _ => true
  | _ => false

section Model

variable {α ι : Type*} [DecidableEq ι]

/-- what the loop does at each program point; `pollReturns` reports the wakeup channel only if the eventfd is readable
-/
def EventLoop.advance (s : EventLoop α ι) (e : ReactorEvent α ι) : Option (EventLoop α ι) :=
  match s.pc, e with
  | .outside, .enter => some { s with pc := .check }
  | .check, .loadQuit => some { s with pc := if s.quit then .outside else .storeCalling }
  | .storeCalling, .storeCalling => some { s with callingPendingFunctors := true, pc := .swap }
  | .swap, .swap => some { s with functors := s.pendingFunctors, pendingFunctors := [], pc := .nextFunctor }
  | .nextFunctor, .runFunctor =>
    match s.functors with
    | [] => none
    | f :: rest => some { s with functors := rest, ran := s.ran ++ [f], pc := .inFunctor }
  | .inFunctor, .functorReturns => some { s with pc := .nextFunctor }
  | .nextFunctor, .functorsDone =>
    match s.functors with
    | [] => some { s with callingPendingFunctors := false, pc := .quitCheck }
    | _ => none
  | .quitCheck, .loadQuitAgain => some { s with pc := if s.quit then .outside else .immediateWork }
  | .immediateWork, .hasImmediateWork => some { s with pc := .poll s.pendingFunctors.isEmpty }
  | .poll _, .pollReturns active =>
    if .wakeup ∈ active → 0 < s.eventfd then some { s with pc := .dispatch active } else none
  | .dispatch (.wakeup :: rest), .handleEvent => some { s with eventfd := 0, pc := .dispatch rest }
  | .dispatch (.other :: rest), .handleEvent => some { s with pc := .inCallback rest }
  | .inCallback rest, .callbackReturns => some { s with pc := .dispatch rest }
  | .dispatch [], .dispatchDone => some { s with pc := .check }
  | _, _ => none

def reactorStep (s : EventLoop α ι) : ReactorEvent α ι → Option (EventLoop α ι)
  | .push i f =>
    if s.waking i then none
    else some { s with
      pendingFunctors := s.pendingFunctors ++ [f], queued := s.queued ++ [f], waking :=
        update s.waking i true }
  | .quit i => if s.waking i then none else some { s with quit := true, waking := update s.waking i true }
  | .wakeup i =>
    if s.waking i then some { s with eventfd := writeEventfd s.eventfd, waking := update s.waking i false }
    else none
  | .loopPush f =>
    if s.pc.runsUserCode ∧ s.pushed = false then
      some { s with pendingFunctors := s.pendingFunctors ++ [f], queued := s.queued ++ [f], pushed := true }
    else none
  | .loopWakeup =>
    if s.pushed then
      some { s with
        eventfd := if s.callingPendingFunctors then writeEventfd s.eventfd else s.eventfd
        pushed := false }
    else none
  | .loopQuit => if s.pc.runsUserCode ∧ s.pushed = false then some { s with quit := true } else none
  | e => if s.pushed then none else s.advance e

def ReactorEvent.isFunctorsDone : ReactorEvent α ι → Bool
  | .functorsDone => true
  | _ => false

/-! ## Every wait is covered -/

/-- the descriptor is readable, or a thread is about to write to it -/
def EventLoop.Covered (s : EventLoop α ι) : Prop := 0 < s.eventfd ∨ ∃ i, s.waking i = true

/-- the loop has the vector of functors -/
def LoopPc.inBatch : LoopPc → Bool
  | .nextFunctor | .inFunctor => true
  | _ => false

/-- the loop has seen the flag clear, and will not look again before the poll returns -/
def LoopPc.quitSeen : LoopPc → Bool
  | .immediateWork | .poll _ => true
  | _ => false

structure ReactorInv (s : EventLoop α ι) : Prop where
  order : s.ran ++ (s.functors ++ s.pendingFunctors) = s.queued
  batch : s.pc.inBatch = false → s.functors = []
  quit : s.pc.quitSeen = true → s.quit = true → s.Covered
  queue : s.pc = .poll true → s.pendingFunctors ≠ [] → s.Covered

variable {s t : EventLoop α ι}

theorem writeEventfd_pos (n : ℕ) : 0 < writeEventfd n := by
  unfold writeEventfd eventfdMax
  split_ifs with h
  · exact Nat.succ_pos n
  · exact Nat.lt_of_lt_of_le (by decide) (Nat.not_lt.1 h)

theorem runsUserCode_quitSeen {pc : LoopPc} (h : pc.runsUserCode = true) : pc.quitSeen = false := by
  cases pc <;> first | rfl | cases h

omit [DecidableEq ι] in
theorem ReactorInv.push (inv : ReactorInv s) (f : α) (pushed : Bool) (waking : ι → Bool)
    (hwait : s.pc.quitSeen = true → ∃ i, waking i = true) :
    ReactorInv { s with
      pendingFunctors := s.pendingFunctors ++ [f], queued := s.queued ++ [f], pushed := pushed, waking := waking } where
  order := by
    dsimp only
    rw [← inv.order]
    simp only [append_assoc]
  batch := inv.batch
  quit hpc _ := .inr (hwait hpc)
  queue hpc _ := .inr (hwait (by rw [show s.pc = .poll true from hpc]; rfl))

omit [DecidableEq ι] in
theorem ReactorInv.setQuit (inv : ReactorInv s) (waking : ι → Bool)
    (hwait : s.pc.quitSeen = true → ∃ i, waking i = true) : ReactorInv { s with quit := true, waking := waking } where
  order := inv.order
  batch := inv.batch
  quit hpc _ := .inr (hwait hpc)
  queue hpc _ := .inr (hwait (by rw [show s.pc = .poll true from hpc]; rfl))

omit [DecidableEq ι] in
theorem ReactorInv.of_not_waiting (horder : s.ran ++ (s.functors ++ s.pendingFunctors) = s.queued)
    (hbatch : s.pc.inBatch = false → s.functors = []) (hpc : s.pc.quitSeen = false) : ReactorInv s where
  order := horder
  batch := hbatch
  quit hseen := by
    rw [hpc] at hseen
    cases hseen
  queue hpoll := by
    rw [hpoll] at hpc
    cases hpc

omit [DecidableEq ι] in
theorem ReactorInv.go (inv : ReactorInv s) (hs : s.pc.inBatch = false) {pc : LoopPc} (hpc : pc.quitSeen = false)
    (calling : Bool) (n : ℕ) : ReactorInv { s with pc := pc, callingPendingFunctors := calling, eventfd := n } :=
  .of_not_waiting inv.order (fun _ => inv.batch hs) hpc

variable {e : ReactorEvent α ι} {before : List α} {n : ℕ}

omit [DecidableEq ι] in
theorem ReactorInv.advance (inv : ReactorInv s) (h : s.advance e = some t) : ReactorInv t := by
  revert h
  fun_cases EventLoop.advance s e <;> intro h <;> cases h
  case case4 hpc =>
    refine .of_not_waiting ?_ (fun hbatch => by cases hbatch) rfl
    rw [← inv.order, inv.batch (by rw [hpc]; rfl), nil_append, append_nil]
  case case6 hfunctors =>
    refine .of_not_waiting ?_ (fun hbatch => by cases hbatch) rfl
    rw [← inv.order, hfunctors, append_assoc]
    rfl
  case case7 => exact .of_not_waiting inv.order (fun hbatch => by cases hbatch) rfl
  case case8 hempty => exact .of_not_waiting inv.order (fun _ => hempty) rfl
  case case10 hpc =>
    -- the second test: the flag is clear if the loop goes on
    refine ⟨inv.order, fun _ => inv.batch (by rw [hpc]; rfl), fun hseen hquit => ?_, fun hpoll => ?_⟩
    · rw [show s.quit = true from hquit] at hseen
      cases hseen
    · dsimp only at hpoll
      split_ifs at hpoll
  case case11 hpc =>
    -- the timeout is nonzero if the queue is empty
    refine ⟨inv.order, fun _ => inv.batch (by rw [hpc]; rfl), fun _ => inv.quit (by rw [hpc]; rfl), fun hpoll hne => ?_⟩
    exact absurd (isEmpty_iff.1 (LoopPc.poll.inj hpoll)) hne
  all_goals
    refine inv.go (by rw [‹s.pc = _›]; rfl) ?_ _ _
    try split_ifs
    all_goals rfl

omit [DecidableEq ι] in
theorem ReactorInv.write (inv : ReactorInv s) (waking : ι → Bool) (pushed : Bool)
    (hcovered : s.Covered → 0 < n ∨ ∃ i, waking i = true) :
    ReactorInv { s with eventfd := n, waking := waking, pushed := pushed } where
  order := inv.order
  batch := inv.batch
  quit hpc hquit := hcovered (inv.quit hpc hquit)
  queue hpc hne := hcovered (inv.queue hpc hne)

theorem reactorStep_inv (inv : ReactorInv s) (h : reactorStep s e = some t) : ReactorInv t := by
  cases e with
  | push i f =>
    obtain ⟨-, h⟩ := ite_none_left_eq_some.1 h
    exact some.inj h ▸ inv.push f _ _ fun _ => ⟨i, update_self ..⟩
  | quit i =>
    obtain ⟨-, h⟩ := ite_none_left_eq_some.1 h
    exact some.inj h ▸ inv.setQuit _ fun _ => ⟨i, update_self ..⟩
  | wakeup i =>
    obtain ⟨-, rfl⟩ := of_ite_some h
    exact inv.write _ _ fun _ => .inl (writeEventfd_pos _)
  | loopPush f =>
    obtain ⟨⟨huser, -⟩, rfl⟩ := of_ite_some h
    refine inv.push f _ _ fun hseen => ?_
    rw [runsUserCode_quitSeen huser] at hseen
    cases hseen
  | loopWakeup =>
    obtain ⟨-, rfl⟩ := of_ite_some h
    refine inv.write _ _ fun hcovered => ?_
    split_ifs
    · exact .inl (writeEventfd_pos _)
    · exact hcovered
  | loopQuit =>
    obtain ⟨⟨huser, -⟩, rfl⟩ := of_ite_some h
    refine inv.setQuit _ fun hseen => ?_
    rw [runsUserCode_quitSeen huser] at hseen
    cases hseen
  | _ =>
    obtain ⟨-, h⟩ := ite_none_left_eq_some.1 h
    exact inv.advance h

theorem run_reactorInv : ∀ (tr : List (ReactorEvent α ι)) (s : EventLoop α ι),
    run reactorStep {} tr = some s → ReactorInv s :=
  run_induct (fun _ s => ReactorInv s) (.of_not_waiting rfl (fun _ => rfl) rfl) fun _ _ _ _ _ inv hst =>
    reactorStep_inv inv hst

/-! ## Every functor is run -/

/-- `n` batches have been finished since `before` was all that was queued -/
structure Served (before : List α) (n : ℕ) (s : EventLoop α ι) : Prop where
  queued : before <+: s.queued
  /-- the batch that is being run was taken afterwards -/
  batch : 1 ≤ n → s.pc.inBatch = true → before <+: s.ran ++ s.functors
  ran : 2 ≤ n → before <+: s.ran

omit [DecidableEq ι] in
theorem Served.keep (h : Served before n s) (hqueued : s.queued <+: t.queued) (hran : t.ran = s.ran)
    (hfunctors : t.functors = s.functors) (hpc : t.pc.inBatch = true → s.pc.inBatch = true) :
    Served before n t where
  queued := h.queued.trans hqueued
  batch hn hbatch := by
    rw [hran, hfunctors]
    exact h.batch hn (hpc hbatch)
  ran hn := hran ▸ h.ran hn

/-- the number of batches that are finished in a step -/
def ReactorEvent.done (e : ReactorEvent α ι) : ℕ := if e.isFunctorsDone then 1 else 0

omit [DecidableEq ι] in
theorem Served.advance (h : Served before n s) (inv : ReactorInv s) (hst : s.advance e = some t) :
    Served before (n + e.done) t := by
  revert hst
  fun_cases EventLoop.advance s e <;> intro hst <;> cases hst
  case case4 hpc =>
    -- the batch has all that was queued and not run
    have hall : s.ran ++ s.pendingFunctors = s.queued := by
      rw [← inv.order, inv.batch (by rw [hpc]; rfl), nil_append]
    exact ⟨h.queued, fun _ _ => hall.symm ▸ h.queued, h.ran⟩
  case case6 hpc f rest hfunctors =>
    refine ⟨h.queued, fun hn _ => ?_, fun hn => (h.ran hn).trans (prefix_append _ _)⟩
    have hbefore := h.batch hn (by rw [hpc]; rfl)
    rw [hfunctors] at hbefore
    dsimp only
    rwa [append_assoc]
  case case7 hpc => exact h.keep (prefix_refl _) rfl rfl fun _ => by rw [hpc]; rfl
  case case8 hpc hempty =>
    -- the second batch from there is finished
    refine ⟨h.queued, fun _ hbatch => (by cases hbatch), fun hn => ?_⟩
    have hbefore := h.batch (Nat.le_of_succ_le_succ hn) (by rw [hpc]; rfl)
    rwa [hempty, append_nil] at hbefore
  all_goals
    refine h.keep (prefix_refl _) rfl rfl fun hbatch => ?_
    dsimp only at hbatch
    try split_ifs at hbatch
    all_goals cases hbatch

theorem reactorStep_served (h : Served before n s) (inv : ReactorInv s) (hst : reactorStep s e = some t) :
    Served before (n + e.done) t := by
  cases e with
  | push i f =>
    obtain ⟨-, hst⟩ := ite_none_left_eq_some.1 hst
    exact some.inj hst ▸ h.keep (prefix_append _ _) rfl rfl id
  | quit i =>
    obtain ⟨-, hst⟩ := ite_none_left_eq_some.1 hst
    exact some.inj hst ▸ h.keep (prefix_refl _) rfl rfl id
  | wakeup i | loopWakeup =>
    obtain ⟨-, rfl⟩ := of_ite_some hst
    exact h.keep (prefix_refl _) rfl rfl id
  | loopPush f =>
    obtain ⟨-, rfl⟩ := of_ite_some hst
    exact h.keep (prefix_append _ _) rfl rfl id
  | loopQuit =>
    obtain ⟨-, rfl⟩ := of_ite_some hst
    exact h.keep (prefix_refl _) rfl rfl id
  | _ =>
    obtain ⟨-, hst⟩ := ite_none_left_eq_some.1 hst
    exact h.advance inv hst

theorem run_served (inv : ReactorInv s) : ∀ (r : List (ReactorEvent α ι)) (t : EventLoop α ι),
    run reactorStep s r = some t → Served s.queued (r.countP ReactorEvent.isFunctorsDone) t := by
  intro r t hrun
  have hstart : Served s.queued 0 s := ⟨prefix_refl _, fun hn => (by cases hn), fun hn => (by cases hn)⟩
  refine (run_induct (fun r t => ReactorInv t ∧ Served s.queued (r.countP ReactorEvent.isFunctorsDone) t)
    ⟨inv, hstart⟩ ?_ r t hrun).2
  intro l u e v _ ⟨inv, h⟩ hst
  rw [countP_append, countP_singleton]
  exact ⟨reactorStep_inv inv hst, reactorStep_served h inv hst⟩

/-- **No lost wakeup.** In every run, whenever the loop waits, or is about to, in a poll with a nonzero timeout while a
functor is queued or the flag is set, the descriptor is readable or a thread is about to make it so. Functors are run at
most once and in the order in which they were queued; all that is queued has been run when the loop has finished two
more batches. -/
theorem no_lost_wakeup {tr : List (ReactorEvent α ι)} (hrun : run reactorStep {} tr = some s) :
    (s.pc = .poll true → s.pendingFunctors ≠ [] ∨ s.quit = true → 0 < s.eventfd ∨ ∃ i, s.waking i = true) ∧
    s.ran <+: s.queued ∧
    ∀ r t, run reactorStep s r = some t → 2 ≤ r.countP ReactorEvent.isFunctorsDone → s.queued <+: t.ran := by
  have inv := run_reactorInv tr s hrun
  refine ⟨fun hpoll hwork => ?_, ?_, fun r t hr hn => (run_served inv r t hr).ran hn⟩
  · rcases hwork with hne | hquit
    · exact inv.queue hpoll hne
    · exact inv.quit (by rw [hpoll]; rfl) hquit
  · rw [← inv.order]
    exact prefix_append _ _

end Model

/-- two threads queue functors while the loop runs; one of them runs late and queues another functor -/
def wakeupRun : List (ReactorEvent ℕ ℕ) :=
  [.push 0 10, .enter, .loadQuit, .storeCalling, .wakeup 0, .swap, .runFunctor, .loopPush 11, .loopWakeup,
    .functorReturns,
   .functorsDone, .loadQuitAgain, .hasImmediateWork, .pollReturns [.wakeup], .handleEvent, .dispatchDone, .loadQuit,
   .storeCalling, .swap, .runFunctor, .functorReturns, .functorsDone, .loadQuitAgain, .hasImmediateWork, .push 1 12]

theorem no_lost_wakeup_wakeupRun : ∃ s, run reactorStep {} wakeupRun = some s ∧ s.pc = .poll true ∧
    s.pendingFunctors = [12] ∧ s.eventfd = 0 ∧ s.ran = [10, 11] ∧
    (s.pc = .poll true → s.pendingFunctors ≠ [] ∨ s.quit = true → 0 < s.eventfd ∨ ∃ i, s.waking i = true) ∧
    s.ran <+: s.queued ∧
    ∀ r t, run reactorStep s r = some t → 2 ≤ r.countP ReactorEvent.isFunctorsDone → s.queued <+: t.ran := by
  have hfacts : ∃ s ∈ run reactorStep {} wakeupRun, s.pc = .poll true ∧ s.pendingFunctors = [12] ∧ s.eventfd = 0 ∧
      s.ran = [10, 11] := by decide +kernel
  obtain ⟨s, hs, hpc, hpending, hfd, hran⟩ := hfacts
  exact ⟨s, hs, hpc, hpending, hfd, hran, no_lost_wakeup hs⟩

end Coropact.Net
