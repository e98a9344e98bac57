/-
The timer queue of a reactor loop (`src/net/timer_queue.cc`, `include/coropact/time/timer.h`, `timer_tree.h`,
`src/time/timestamp.cc`, `PopWhile` of `include/coropact/ds/intrusive_rbtree.h`).

A timer is an object of the queue's pool, and the queue has its address: in the ordered set `timers`, in the table
`activeTimers`, which is searched by sequence number, and, while its callback runs, in `processingTimer`. One timerfd is
to wake the loop for the earliest. `HandleRead` pops the expired timers one by one and runs their callbacks; a callback
may call `AddTimer` and `Cancel`, also of the timer that is running. A repeating timer that was not cancelled goes back
with a new expiration, any other timer is released.

A step of the model is a call on the loop thread, the beginning of `HandleRead`, the start of a callback, its return or
the end of the pass. Times are in microseconds and exact, the interval is in seconds. Sequence numbers are drawn by all
queues of the process from one counter: here a new one is any that is larger than those before. The address of a new
timer is any that is free. `HandleRead` is dispatched on the answer of a poll that may be out of date, since another
handler may have set the timerfd again: `expired` says whether its read finds an expiration.
-/
import Coropact.Core.Machine
import Coropact.Core.Pool
import Mathlib.Data.List.Sort
import Mathlib.Data.Rat.Floor

namespace Coropact.Net

open Coropact.Machine List

/-! ## Model -/

structure Timer where
  expiration : ℕ
  interval : ℚ
  sequence : ℕ
deriving DecidableEq, Repr, Inhabited

/-- `repeat_` -/
def Timer.repeats (t : Timer) : Bool := 0 < t.interval

/-- the cast of a floating-point number to `int64_t`; what does not fit becomes the least number, as on x86 -/
def toInt64 (x : ℚ) : ℤ :=
  let n := if 0 ≤ x then ⌊x⌋ else ⌈x⌉
  if -2 ^ 63 ≤ n ∧ n < 2 ^ 63 then n else -2 ^ 63

def addTime (timestamp : ℕ) (seconds : ℚ) : ℕ :=
  let delta := toInt64 (seconds * 1000000)
  if delta < 0 ∧ (timestamp : ℤ) < -delta then 0 else ((timestamp + delta) % 2 ^ 64).toNat

def Timer.restart (t : Timer) (now : ℕ) : Timer := { t with expiration := addTime now t.interval }

def timerLess (a b : Timer) : Bool :=
  if a.expiration < b.expiration then true
  else if b.expiration < a.expiration then false
  else a.sequence < b.sequence

/-- a setting of the timerfd: when it was made, and the time after which it is to fire -/
structure TimerfdSetting where
  setAt : ℕ
  tvSec : ℕ
  tvNsec : ℕ
deriving DecidableEq, Repr

def TimerfdSetting.fireAt (a : TimerfdSetting) : ℕ := a.setAt + (a.tvSec * 1000000 + a.tvNsec / 1000)

/-- `set_timerfd`, when the clock is at `now` -/
def setTimerfd (expiration now : ℕ) : TimerfdSetting :=
  let us : ℤ := (expiration : ℤ) - now
  let us : ℕ := if us < 100 then 100 else us.toNat
  { setAt := now, tvSec := us / 1000000, tvNsec := us % 1000000 * 1000 }

inductive Phase where
  | idle
  /-- in `PopWhile`, between two callbacks -/
  | popping (now : ℕ)
  | running (now timer : ℕ)
  | destroying
deriving DecidableEq, Repr

structure TimerQueue where
  pool : Pool Timer := {}
  timers : List ℕ := []
  activeTimers : List ℕ := []
  processingTimer : Option ℕ := none
  processingTimerCancelled : Bool := false
  timerfd : Option TimerfdSetting := none
  phase : Phase := .idle
  nextSequence : ℕ := 0
  /-- the sequence numbers of the timers whose callbacks were started -/
  started : List ℕ := []

namespace TimerQueue

def timer (q : TimerQueue) (p : ℕ) : Timer := q.pool.get p

/-- these addresses are used -/
def touch (q : TimerQueue) (ps : List ℕ) : TimerQueue := { q with pool := q.pool.touch ps }

/-- `timer_pool_.Acquire` -/
def acquire (q : TimerQueue) (p when : ℕ) (interval : ℚ) (sequence : ℕ) : Option TimerQueue :=
  if q.pool.object p = none ∧ q.nextSequence ≤ sequence then
    some { q with
      pool := q.pool.acquire Timer.sequence p ⟨when, interval, sequence⟩
      nextSequence := sequence + 1 }
  else none

/-- `timer_pool_.Release` -/
def release (q : TimerQueue) (p : ℕ) : TimerQueue := { q with pool := q.pool.release Timer.sequence p }

/-- `timers_.Insert`, which walks over timers of the tree, right where the new one is not less -/
def insertTimers (q : TimerQueue) (p : ℕ) : TimerQueue :=
  let q := q.touch (p :: q.timers)
  if p ∈ q.timers then q
  else { q with timers := q.timers.orderedInsert (fun a b => timerLess (q.timer a) (q.timer b) = true) p }

/-- `timers_.Erase` -/
def eraseTimers (q : TimerQueue) (p : ℕ) : TimerQueue :=
  { q.touch (p :: q.timers) with timers := q.timers.erase p }

/-- `active_timers_.Insert` -/
def insertActive (q : TimerQueue) (p : ℕ) : TimerQueue :=
  let q := q.touch (p :: q.activeTimers)
  if p ∈ q.activeTimers then q else { q with activeTimers := p :: q.activeTimers }

/-- `active_timers_.Erase` -/
def eraseActive (q : TimerQueue) (p : ℕ) : TimerQueue :=
  { q.touch (p :: q.activeTimers) with activeTimers := q.activeTimers.erase p }

/-- `active_timers_.Find` -/
def find (q : TimerQueue) (sequence : ℕ) : Option ℕ := q.activeTimers.find? fun p => (q.timer p).sequence = sequence

def resetTimerfd (q : TimerQueue) (expiration now : ℕ) : TimerQueue :=
  { q with timerfd := some (setTimerfd expiration now) }

def earliest (q : TimerQueue) : Option ℕ := q.timers.head?.map fun p => (q.timer p).expiration

/-- the functor of `AddTimer` -/
def register (q : TimerQueue) (p now : ℕ) : TimerQueue :=
  let q := q.touch (p :: q.timers.head?.toList)
  let earliestChanged := ∀ e ∈ q.earliest, (q.timer p).expiration < e
  let q := (q.insertTimers p).insertActive p
  if earliestChanged then q.resetTimerfd (q.timer p).expiration now else q

/-- the functor of `Cancel` -/
def cancel (q : TimerQueue) (sequence : ℕ) : TimerQueue :=
  let q := q.touch q.activeTimers
  match q.find sequence with
  | some p => ((q.eraseActive p).eraseTimers p).release p
  | none =>
    let q := q.touch q.processingTimer.toList
    -- the timer is in its callback
    if ∃ p ∈ q.processingTimer, (q.timer p).sequence = sequence then { q with processingTimerCancelled := true } else q

/-- `HandleRead` up to the first pop -/
def handleRead (q : TimerQueue) (now : ℕ) (expired : Bool) : TimerQueue :=
  { q with timerfd := if expired then none else q.timerfd, phase := .popping now }

/-- one round of `PopWhile`: the earliest timer, if it has expired, is erased, and its callback starts -/
def pop (q : TimerQueue) (now : ℕ) : Option TimerQueue :=
  match q.timers with
  | [] => none
  | p :: _ =>
    let q := q.touch [p]
    if (q.timer p).expiration ≤ now then
      let q := (q.eraseTimers p).eraseActive p
      some { q with
        processingTimer := some p
        processingTimerCancelled := false
        phase := .running now p
        started := q.started ++ [(q.timer p).sequence] }
    else none

/-- the rest of the round, when the callback has returned -/
def callbackReturns (q : TimerQueue) (now p : ℕ) : TimerQueue :=
  let cancelled := q.processingTimerCancelled
  let q : TimerQueue :=
    { q.touch [p] with processingTimer := none, processingTimerCancelled := false, phase := .popping now }
  if (q.timer p).repeats ∧ cancelled = false then
    let q : TimerQueue := { q with pool := q.pool.set p ((q.timer p).restart now) }
    (q.insertTimers p).insertActive p
  else q.release p

/-- `PopWhile` finds no expired timer, and `HandleRead` returns; the clock is at `clock` when the timerfd is set -/
def passEnds (q : TimerQueue) (now clock : ℕ) : Option TimerQueue :=
  let q := q.touch q.timers.head?.toList
  match q.earliest with
  | none => some { q with phase := .idle }
  | some e => if now < e then some ({ q with phase := .idle }.resetTimerfd e clock) else none

/-- one round of the loop in the destructor -/
def destroyEarliest (q : TimerQueue) : Option TimerQueue :=
  match q.timers with
  | [] => none
  | p :: _ => some (((q.eraseActive p).eraseTimers p).release p)

end TimerQueue

inductive QueueEvent where
  | addTimer (slot when : ℕ) (interval : ℚ) (sequence now : ℕ)
  | cancel (sequence : ℕ)
  | handleRead (now : ℕ) (expired : Bool)
  | pop
  | callbackReturns
  | passEnds (clock : ℕ)
  | destroy
  | destroyEarliest
deriving DecidableEq, Repr

/-- a call is made between handlers or in a callback -/
def Phase.mayCall : Phase → Bool
  | .idle | .running _ _ => true
  | _ => false

def queueStep (q : TimerQueue) : QueueEvent → Option TimerQueue
  | .addTimer slot when interval sequence now =>
    if q.phase.mayCall then (q.acquire slot when interval sequence).map fun q => q.register slot now else none
  | .cancel sequence => if q.phase.mayCall then some (q.cancel sequence) else none
  | .handleRead now expired =>
    if q.phase = .idle ∧ (expired = true → q.timerfd.isSome) then some (q.handleRead now expired) else none
  | .pop =>
    match q.phase with
    | .popping now => q.pop now
    | _ => none
  | .callbackReturns =>
    match q.phase with
    | .running now p => some (q.callbackReturns now p)
    | _ => none
  | .passEnds clock =>
    match q.phase with
    | .popping now => q.passEnds now clock
    | _ => none
  | .destroy => if q.phase = .idle then some { q with phase := .destroying, timerfd := none } else none
  | .destroyEarliest => if q.phase = .destroying then q.destroyEarliest else none

/-! ## Setting the timerfd -/

theorem fireAt_setTimerfd (expiration now : ℕ) : (setTimerfd expiration now).fireAt = max expiration (now + 100) := by
  have hsplit : ∀ us : ℕ, us / 1000000 * 1000000 + us % 1000000 * 1000 / 1000 = us := by
    intro us
    rw [Nat.mul_div_cancel _ (by decide)]
    exact Nat.div_add_mod' us 1000000
  simp only [setTimerfd, TimerfdSetting.fireAt, hsplit]
  split_ifs with h
  · omega
  · omega

/-! ## The invariant -/

def Phase.processing : Phase → Option ℕ
  | .running _ p => some p
  | _ => none

/-- the addresses in use: registered timers, the one whose callback runs, and the acquired timers that are not
registered yet -/
def TimerQueue.slots (q : TimerQueue) (waiting : List ℕ) : List ℕ := q.timers ++ (q.processingTimer.toList ++ waiting)

structure QueueInv (waiting : List ℕ) (q : TimerQueue) : Prop where
  pool : q.pool.Holds Timer.sequence (q.slots waiting)
  fresh : ∀ k ∈ q.pool.acquired, k < q.nextSequence
  active : q.activeTimers.Perm q.timers
  sorted : q.timers.Pairwise fun a b => (q.timer a).expiration ≤ (q.timer b).expiration
  processing : q.processingTimer = q.phase.processing
  armed : q.phase = .idle → ∀ e ∈ q.earliest, ∃ a ∈ q.timerfd, a.fireAt ≤ max e (a.setAt + 100)

/-- `p` goes into the tree and the table -/
def TimerQueue.enlist (q : TimerQueue) (p : ℕ) : TimerQueue :=
  { q with
    timers := q.timers.orderedInsert (fun a b => timerLess (q.timer a) (q.timer b) = true) p
    activeTimers := p :: q.activeTimers }

/-- `p` leaves them -/
def TimerQueue.delist (q : TimerQueue) (p : ℕ) : TimerQueue :=
  { q with timers := q.timers.erase p, activeTimers := q.activeTimers.erase p }

section Containers

variable {q : TimerQueue} {p : ℕ} {waiting : List ℕ}

theorem timerLess_expiration {a b : Timer} (h : timerLess a b = true) : a.expiration ≤ b.expiration := by
  unfold timerLess at h
  split_ifs at h
  · omega
  · omega

theorem not_timerLess_expiration {a b : Timer} (h : ¬timerLess a b = true) : b.expiration ≤ a.expiration := by
  unfold timerLess at h
  split_ifs at h
  · exact absurd rfl h
  · omega
  · omega

theorem timers_enlist_perm (q : TimerQueue) (p : ℕ) : (q.enlist p).timers.Perm (p :: q.timers) :=
  perm_orderedInsert _ p q.timers

theorem pairwise_orderedInsert {α : Type*} {r s : α → α → Prop} [DecidableRel r] [IsTrans α s]
    (hr : ∀ a b, r a b → s a b) (hnr : ∀ a b, ¬r a b → s b a) {l : List α} (x : α) (h : l.Pairwise s) :
    (l.orderedInsert r x).Pairwise s := by
  induction l with
  | nil => exact pairwise_singleton _ _
  | cons y l ih =>
    obtain ⟨hy, hl⟩ := pairwise_cons.1 h
    rw [List.orderedInsert]
    split_ifs with hxy
    · refine pairwise_cons.2 ⟨fun z hz => ?_, h⟩
      rcases mem_cons.1 hz with rfl | hz
      · exact hr x z hxy
      · exact trans_of s (hr x y hxy) (hy z hz)
    · refine pairwise_cons.2 ⟨fun z hz => ?_, ih hl⟩
      rcases (mem_orderedInsert r).1 hz with rfl | hz
      · exact hnr z y hxy
      · exact hy z hz

theorem sorted_enlist (h : q.timers.Pairwise fun a b => (q.timer a).expiration ≤ (q.timer b).expiration) (p : ℕ) :
    (q.enlist p).timers.Pairwise fun a b => (q.timer a).expiration ≤ (q.timer b).expiration := by
  have htrans : IsTrans ℕ fun a b => (q.timer a).expiration ≤ (q.timer b).expiration := ⟨fun _ _ _ => le_trans⟩
  exact pairwise_orderedInsert (fun _ _ => timerLess_expiration) (fun _ _ => not_timerLess_expiration) p h

theorem earliest_enlist (q : TimerQueue) (p : ℕ) :
    (q.enlist p).earliest = some (q.earliest.elim (q.timer p).expiration (min (q.timer p).expiration)) := by
  unfold TimerQueue.enlist TimerQueue.earliest
  dsimp only
  cases q.timers with
  | nil => rfl
  | cons e rest =>
    rw [List.orderedInsert]
    split_ifs with h
    · exact congrArg some (min_eq_left (timerLess_expiration h)).symm
    · exact congrArg some (min_eq_right (not_timerLess_expiration h)).symm

theorem earliest_le (h : q.timers.Pairwise fun a b => (q.timer a).expiration ≤ (q.timer b).expiration) {e : ℕ}
    (he : e ∈ q.earliest) {p : ℕ} (hp : p ∈ q.timers) : e ≤ (q.timer p).expiration := by
  obtain ⟨first, hfirst, rfl⟩ := Option.map_eq_some_iff.1 he
  obtain ⟨rest, htimers⟩ := List.head?_eq_some_iff.1 hfirst
  rw [htimers] at h hp
  rcases mem_cons.1 hp with rfl | hp
  · exact le_rfl
  · exact rel_of_pairwise_cons h hp

theorem earliest_mem {e : ℕ} (he : e ∈ q.earliest) : ∃ p ∈ q.timers, (q.timer p).expiration = e := by
  obtain ⟨first, hfirst, rfl⟩ := Option.map_eq_some_iff.1 he
  exact ⟨first, mem_of_head? hfirst, rfl⟩

variable {slots : List ℕ}

theorem touch_eq {ps : List ℕ} (hpool : q.pool.Holds Timer.sequence slots) (hps : ∀ p ∈ ps, p ∈ slots) :
    q.touch ps = q := by
  rw [TimerQueue.touch, hpool.touch hps]

theorem insertTimers_eq (htouch : q.touch (p :: q.timers) = q) (hnot : p ∉ q.timers) :
    q.insertTimers p =
      { q with timers := q.timers.orderedInsert (fun a b => timerLess (q.timer a) (q.timer b) = true) p } := by
  unfold TimerQueue.insertTimers
  dsimp only
  rw [htouch, if_neg hnot]

theorem insertActive_eq (htouch : q.touch (p :: q.activeTimers) = q) (hnot : p ∉ q.activeTimers) :
    q.insertActive p = { q with activeTimers := p :: q.activeTimers } := by
  unfold TimerQueue.insertActive
  dsimp only
  rw [htouch, if_neg hnot]

theorem insert_eq (hpool : q.pool.Holds Timer.sequence slots) (hp : p ∈ slots) (htimers : ∀ r ∈ q.timers, r ∈ slots)
    (hactive : q.activeTimers.Perm q.timers) (hnot : p ∉ q.timers) :
    (q.insertTimers p).insertActive p = q.enlist p := by
  have htouch : q.touch (p :: q.timers) = q := touch_eq hpool (forall_mem_cons.2 ⟨hp, htimers⟩)
  rw [insertTimers_eq htouch hnot, insertActive_eq]
  · rfl
  · exact touch_eq hpool (forall_mem_cons.2 ⟨hp, fun r hr => htimers r (hactive.subset hr)⟩)
  · exact fun h => hnot (hactive.subset h)

theorem erase_eq (hpool : q.pool.Holds Timer.sequence slots) (hp : p ∈ slots) (htimers : ∀ r ∈ q.timers, r ∈ slots)
    (hactive : q.activeTimers.Perm q.timers) :
    (q.eraseTimers p).eraseActive p = q.delist p ∧ (q.eraseActive p).eraseTimers p = q.delist p := by
  have htouch : q.pool.touch (p :: q.timers) = q.pool := hpool.touch (forall_mem_cons.2 ⟨hp, htimers⟩)
  have htouch' : q.pool.touch (p :: q.activeTimers) = q.pool :=
    hpool.touch (forall_mem_cons.2 ⟨hp, fun r hr => htimers r (hactive.subset hr)⟩)
  constructor
  · simp only [TimerQueue.eraseTimers, TimerQueue.eraseActive, TimerQueue.touch, htouch, htouch']
    rfl
  · simp only [TimerQueue.eraseTimers, TimerQueue.eraseActive, TimerQueue.touch, htouch, htouch']
    rfl

end Containers

/-! ## What the operations do -/

section Operations

variable {waiting : List ℕ} {q t : TimerQueue} {p : ℕ}

theorem mem_slots (hp : p ∈ q.timers) : p ∈ q.slots waiting := mem_append_left _ hp

theorem mem_slots_processing (hp : q.processingTimer = some p) : p ∈ q.slots waiting := by
  simp [TimerQueue.slots, hp]

theorem QueueInv.acquire {when sequence : ℕ} {interval : ℚ} (inv : QueueInv waiting q)
    (h : q.acquire p when interval sequence = some t) :
    QueueInv (p :: waiting) t ∧ q.pool.object p = none ∧ sequence ∉ q.pool.acquired ∧
      t = { q with
        pool := q.pool.acquire Timer.sequence p ⟨when, interval, sequence⟩
        nextSequence := sequence + 1 } := by
  obtain ⟨⟨hfree, hseq⟩, rfl⟩ := of_ite_some h
  have hnew : sequence ∉ q.pool.acquired := fun hmem => absurd (inv.fresh _ hmem) (Nat.not_lt.2 hseq)
  have hkeep : ∀ r ∈ q.timers, (q.pool.acquire Timer.sequence p ⟨when, interval, sequence⟩).get r = q.timer r := by
    intro r hr
    refine Pool.get_of_update rfl fun heq => ?_
    have hlive := (inv.pool.live r).1 (mem_slots hr)
    rw [heq, hfree] at hlive
    cases hlive
  refine ⟨⟨?_, ?_, inv.active, ?_, inv.processing, ?_⟩, hfree, hnew, rfl⟩
  · refine (inv.pool.acquire hfree hnew).perm ?_
    unfold TimerQueue.slots
    rw [← append_assoc, ← append_assoc]
    exact perm_middle.symm
  · intro k hk
    rcases mem_append.1 hk with hold | hself
    · exact Nat.lt_succ_of_le ((inv.fresh k hold).le.trans hseq)
    · exact Nat.lt_succ_of_le (mem_singleton.1 hself).le
  · refine inv.sorted.imp_of_mem fun ha hb hab => ?_
    rw [TimerQueue.timer, TimerQueue.timer, hkeep _ ha, hkeep _ hb]
    exact hab
  · intro hidle e he
    obtain ⟨first, hfirst, rfl⟩ := Option.map_eq_some_iff.1 he
    rw [TimerQueue.timer, hkeep first (mem_of_head? hfirst)]
    exact inv.armed hidle _ (Option.map_eq_some_iff.2 ⟨first, hfirst, rfl⟩)

theorem QueueInv.register_eq (inv : QueueInv (p :: waiting) q) (now : ℕ) :
    q.register p now =
      if ∀ e ∈ q.earliest, (q.timer p).expiration < e then (q.enlist p).resetTimerfd (q.timer p).expiration now
      else q.enlist p := by
  have hp : p ∈ q.slots (p :: waiting) := by simp [TimerQueue.slots]
  have hnot : p ∉ q.timers := by
    intro hmem
    exact (nodup_append.1 inv.pool.nodup).2.2 p hmem p (by simp) rfl
  have htouch : q.touch (p :: q.timers.head?.toList) = q := by
    refine touch_eq inv.pool (forall_mem_cons.2 ⟨hp, fun r hr => mem_slots (mem_of_head? ?_)⟩)
    exact Option.mem_toList.1 hr
  unfold TimerQueue.register
  dsimp only
  rw [htouch, insert_eq inv.pool hp (fun r hr => mem_slots hr) inv.active hnot]
  rfl

theorem slots_enlist_perm (q : TimerQueue) (p : ℕ) (waiting : List ℕ) :
    ((q.enlist p).slots waiting).Perm (q.slots (p :: waiting)) := by
  refine ((timers_enlist_perm q p).append_right _).trans ?_
  unfold TimerQueue.slots
  rw [← append_assoc, ← append_assoc]
  exact perm_middle.symm

theorem QueueInv.enlist (inv : QueueInv (p :: waiting) q) (fd : Option TimerfdSetting)
    (harmed : q.phase = .idle → ∀ e ∈ (q.enlist p).earliest, ∃ a ∈ fd, a.fireAt ≤ max e (a.setAt + 100)) :
    QueueInv waiting { q.enlist p with timerfd := fd } where
  pool := inv.pool.perm (slots_enlist_perm q p waiting).symm
  fresh := inv.fresh
  active := (inv.active.cons p).trans (timers_enlist_perm q p).symm
  sorted := sorted_enlist inv.sorted p
  processing := inv.processing
  armed := harmed

theorem QueueInv.register (inv : QueueInv (p :: waiting) q) (now : ℕ) : QueueInv waiting (q.register p now) := by
  rw [inv.register_eq]
  split_ifs with hchanged
  · refine inv.enlist _ fun _ e he => ⟨_, rfl, ?_⟩
    -- the new timer is the earliest
    have hearliest : e = (q.timer p).expiration := by
      rw [earliest_enlist, Option.mem_some_iff] at he
      cases hq : q.earliest with
      | none => rw [← he, hq, Option.elim_none]
      | some first => rw [← he, hq, Option.elim_some, min_eq_left (hchanged first hq).le]
    rw [fireAt_setTimerfd, hearliest]
    rfl
  · refine inv.enlist q.timerfd fun hidle e he => inv.armed hidle e ?_
    -- there is a timer that is not later
    obtain ⟨first, hq, hle⟩ : ∃ first ∈ q.earliest, first ≤ (q.timer p).expiration := by
      by_contra hnone
      exact hchanged fun first hfirst => Nat.lt_of_not_le fun hle => hnone ⟨first, hfirst, hle⟩
    rw [earliest_enlist, hq, Option.elim_some, min_eq_right hle] at he
    exact Option.mem_some_iff.1 he ▸ hq

theorem QueueInv.release (inv : QueueInv (p :: waiting) q) : QueueInv waiting (q.release p) := by
  have hperm : (q.slots (p :: waiting)).Perm (p :: q.slots waiting) := by
    unfold TimerQueue.slots
    rw [← append_assoc, ← append_assoc]
    exact perm_middle
  have hpool := inv.pool.perm hperm
  have hkeep : ∀ r ∈ q.timers, (q.release p).timer r = q.timer r := by
    intro r hr
    refine Pool.get_of_update rfl fun heq => ?_
    exact (nodup_cons.1 hpool.nodup).1 (mem_slots (heq ▸ hr))
  have hearliest : (q.release p).earliest = q.earliest := by
    unfold TimerQueue.earliest
    rw [show (q.release p).timers = q.timers from rfl]
    cases h : q.timers.head? with
    | none => rfl
    | some first => exact congrArg (some ·.expiration) (hkeep first (mem_of_head? h))
  refine ⟨hpool.release, inv.fresh, inv.active, ?_, inv.processing, ?_⟩
  · refine inv.sorted.imp_of_mem fun ha hb hab => ?_
    rw [hkeep _ ha, hkeep _ hb]
    exact hab
  · rw [hearliest]
    exact inv.armed

theorem QueueInv.delist (inv : QueueInv waiting q) (hp : p ∈ q.timers) : QueueInv (p :: waiting) (q.delist p) := by
  refine ⟨inv.pool.perm (((perm_cons_erase hp).append_right _).trans ?_), inv.fresh, inv.active.erase p,
    inv.sorted.sublist erase_sublist, inv.processing, fun hidle e he => ?_⟩
  · unfold TimerQueue.slots
    rw [← append_assoc, ← append_assoc]
    exact perm_middle.symm
  · -- the earliest has not become earlier
    obtain ⟨r, hr, rfl⟩ := earliest_mem he
    obtain ⟨first, rest, hfirst⟩ := exists_cons_of_ne_nil (ne_nil_of_mem hp)
    have hq : (q.timer first).expiration ∈ q.earliest := by rw [TimerQueue.earliest, hfirst]; rfl
    obtain ⟨a, ha, hle⟩ := inv.armed hidle _ hq
    exact ⟨a, ha, hle.trans (max_le_max_right _ (earliest_le inv.sorted hq (mem_of_mem_erase hr)))⟩

variable {now clock : ℕ}

theorem QueueInv.setAside (inv : QueueInv waiting q) (hphase : q.phase = .running now p) :
    QueueInv (p :: waiting)
      { q with processingTimer := none, processingTimerCancelled := false, phase := .popping now } := by
  have hprocessing : q.processingTimer = some p := by rw [inv.processing, hphase]; rfl
  refine ⟨?_, inv.fresh, inv.active, inv.sorted, rfl, fun hidle => by cases hidle⟩
  have hpool := inv.pool
  rw [TimerQueue.slots, hprocessing] at hpool
  exact hpool

theorem QueueInv.set {x : Timer} (inv : QueueInv (p :: waiting) q) (hx : x.sequence = (q.timer p).sequence)
    (hphase : q.phase ≠ .idle) : QueueInv (p :: waiting) { q with pool := q.pool.set p x } := by
  have hp : p ∈ q.slots (p :: waiting) := by simp [TimerQueue.slots]
  have hkeep : ∀ r ∈ q.timers, (q.pool.set p x).get r = q.timer r := by
    intro r hr
    refine Pool.get_of_update (P := q.pool.touch [p]) rfl fun heq => ?_
    exact (nodup_append.1 inv.pool.nodup).2.2 r hr p (by simp) heq
  refine ⟨inv.pool.set hp hx, inv.fresh, inv.active, ?_, inv.processing, fun hidle => absurd hidle hphase⟩
  refine inv.sorted.imp_of_mem fun ha hb hab => ?_
  rw [TimerQueue.timer, TimerQueue.timer, hkeep _ ha, hkeep _ hb]
  exact hab

theorem QueueInv.cancel_out (inv : QueueInv waiting q) (sequence : ℕ) :
    (∃ p ∈ q.timers, (q.timer p).sequence = sequence ∧ q.cancel sequence = (q.delist p).release p) ∨
    (∃ p, q.processingTimer = some p ∧ (q.timer p).sequence = sequence ∧
      q.cancel sequence = { q with processingTimerCancelled := true }) ∨
    ((∀ p ∈ q.timers ++ q.processingTimer.toList, (q.timer p).sequence ≠ sequence) ∧ q.cancel sequence = q) := by
  have htouch : q.touch q.activeTimers = q := touch_eq inv.pool fun r hr => mem_slots (inv.active.subset hr)
  have htouch' : q.touch q.processingTimer.toList = q :=
    touch_eq inv.pool fun r hr => mem_slots_processing (Option.mem_toList.1 hr)
  unfold TimerQueue.cancel
  dsimp only
  rw [htouch]
  cases hfind : q.find sequence with
  | some p =>
    have hp : p ∈ q.timers := inv.active.subset (mem_of_find?_eq_some hfind)
    refine .inl ⟨p, hp, by simpa using List.find?_some hfind, ?_⟩
    dsimp only
    rw [(erase_eq inv.pool (mem_slots hp) (fun r hr => mem_slots hr) inv.active).2]
  | none =>
    dsimp only
    rw [htouch']
    have hnone : ∀ p ∈ q.timers, (q.timer p).sequence ≠ sequence := fun p hp =>
      of_decide_eq_false (Bool.eq_false_iff.2 (List.find?_eq_none.1 hfind p (inv.active.symm.subset hp)))
    split_ifs with hprocessing
    · obtain ⟨p, hp, hseq⟩ := hprocessing
      exact .inr (.inl ⟨p, hp, hseq, rfl⟩)
    · refine .inr (.inr ⟨fun p hp heq => ?_, rfl⟩)
      rcases mem_append.1 hp with hp | hp
      · exact hnone p hp heq
      · exact hprocessing ⟨p, Option.mem_toList.1 hp, heq⟩

theorem QueueInv.cancel (inv : QueueInv waiting q) (sequence : ℕ) : QueueInv waiting (q.cancel sequence) := by
  rcases inv.cancel_out sequence with ⟨p, hp, -, heq⟩ | ⟨p, -, -, heq⟩ | ⟨-, heq⟩ <;> rw [heq]
  · exact (inv.delist hp).release
  · exact ⟨inv.pool, inv.fresh, inv.active, inv.sorted, inv.processing, inv.armed⟩
  · exact inv

theorem QueueInv.pop_eq {rest : List ℕ} (inv : QueueInv waiting q) (htimers : q.timers = p :: rest)
    (hdue : (q.timer p).expiration ≤ now) :
    q.pop now = some { q.delist p with
      processingTimer := some p
      processingTimerCancelled := false
      phase := .running now p
      started := q.started ++ [(q.timer p).sequence] } := by
  have hp : p ∈ q.timers := htimers ▸ mem_cons_self
  rw [TimerQueue.pop, htimers]
  dsimp only
  rw [touch_eq inv.pool (by simpa using mem_slots hp), if_pos hdue,
    (erase_eq inv.pool (mem_slots hp) (fun r hr => mem_slots hr) inv.active).1]
  rfl

theorem QueueInv.pop_out (inv : QueueInv waiting q) (h : q.pop now = some t) :
    ∃ p ∈ q.timers, (q.timer p).expiration ≤ now ∧
      t = { q.delist p with
        processingTimer := some p
        processingTimerCancelled := false
        phase := .running now p
        started := q.started ++ [(q.timer p).sequence] } := by
  cases htimers : q.timers with
  | nil =>
    rw [TimerQueue.pop, htimers] at h
    cases h
  | cons p rest =>
    by_cases hdue : (q.timer p).expiration ≤ now
    · rw [inv.pop_eq htimers hdue] at h
      exact ⟨p, mem_cons_self, hdue, (Option.some.inj h).symm⟩
    · rw [TimerQueue.pop, htimers] at h
      exact absurd (of_ite_some h).1 hdue

theorem QueueInv.pop (inv : QueueInv waiting q) (hphase : q.phase = .popping now) (h : q.pop now = some t) :
    QueueInv waiting t := by
  obtain ⟨p, hp, -, rfl⟩ := inv.pop_out h
  have hprocessing : q.processingTimer = none := by rw [inv.processing, hphase]; rfl
  have inv' := inv.delist hp
  refine ⟨?_, inv'.fresh, inv'.active, inv'.sorted, rfl, fun hidle => by cases hidle⟩
  have hpool := inv'.pool
  rw [TimerQueue.slots, show (q.delist p).processingTimer = none from hprocessing] at hpool
  exact hpool

theorem QueueInv.callbackReturns_out (inv : QueueInv waiting q) (hphase : q.phase = .running now p) :
    q.callbackReturns now p =
      (if (q.timer p).repeats ∧ q.processingTimerCancelled = false then
        TimerQueue.enlist { q with
          processingTimer := none, processingTimerCancelled := false, phase := .popping now
          pool := q.pool.set p ((q.timer p).restart now) } p
      else TimerQueue.release { q with
          processingTimer := none, processingTimerCancelled := false, phase := .popping now } p) := by
  have hprocessing : q.processingTimer = some p := by rw [inv.processing, hphase]; rfl
  have inv₁ := inv.setAside hphase
  unfold TimerQueue.callbackReturns
  dsimp only
  rw [touch_eq inv.pool (by simpa using mem_slots_processing hprocessing)]
  refine ite_congr rfl (fun _ => ?_) fun _ => rfl
  have inv₂ := inv₁.set (x := (q.timer p).restart now) rfl (by simp)
  exact insert_eq inv₂.pool (by simp [TimerQueue.slots]) (fun r hr => mem_slots hr) inv₂.active fun hmem =>
    (nodup_append.1 inv₂.pool.nodup).2.2 p hmem p (by simp) rfl

theorem QueueInv.callbackReturns (inv : QueueInv waiting q) (hphase : q.phase = .running now p) :
    QueueInv waiting (q.callbackReturns now p) := by
  rw [inv.callbackReturns_out hphase]
  have inv₁ := inv.setAside hphase
  split_ifs with hagain
  · exact (inv₁.set (x := (q.timer p).restart now) rfl (by simp)).enlist _ fun hidle => by cases hidle
  · exact inv₁.release

theorem QueueInv.passEnds_out (inv : QueueInv waiting q) (h : q.passEnds now clock = some t) :
    t = { q with phase := .idle, timerfd := q.earliest.elim q.timerfd fun e => some (setTimerfd e clock) } := by
  unfold TimerQueue.passEnds at h
  dsimp only at h
  rw [touch_eq inv.pool fun r hr => mem_slots (mem_of_head? (Option.mem_toList.1 hr))] at h
  split at h
  · rename_i hnone
    rw [← Option.some.inj h, hnone, Option.elim_none]
  · rename_i e he
    rw [← (of_ite_some h).2, he, Option.elim_some]
    rfl

theorem QueueInv.passEnds (inv : QueueInv waiting q) (hphase : q.phase = .popping now)
    (h : q.passEnds now clock = some t) :
    QueueInv waiting t := by
  obtain rfl := inv.passEnds_out h
  refine ⟨inv.pool, inv.fresh, inv.active, inv.sorted, by rw [inv.processing, hphase]; rfl, fun _ e he => ?_⟩
  rw [show q.earliest = some e from he, Option.elim_some]
  exact ⟨_, rfl, (fireAt_setTimerfd e clock).le⟩

theorem QueueInv.destroyEarliest_out (inv : QueueInv waiting q) (h : q.destroyEarliest = some t) :
    ∃ p ∈ q.timers, t = (q.delist p).release p := by
  unfold TimerQueue.destroyEarliest at h
  split at h
  · cases h
  · rename_i p rest htimers
    have hp : p ∈ q.timers := htimers ▸ mem_cons_self
    rw [(erase_eq inv.pool (mem_slots hp) (fun r hr => mem_slots hr) inv.active).2] at h
    exact ⟨p, hp, (Option.some.inj h).symm⟩

theorem handleRead_some {expired : Bool} (h : queueStep q (.handleRead now expired) = some t) :
    q.phase = .idle ∧ t = q.handleRead now expired := by
  obtain ⟨⟨hidle, -⟩, rfl⟩ := of_ite_some h
  exact ⟨hidle, rfl⟩

theorem pop_some (h : queueStep q .pop = some t) : ∃ now, q.phase = .popping now ∧ q.pop now = some t := by
  simp only [queueStep] at h
  split at h
  · exact ⟨_, ‹_›, h⟩
  · cases h

theorem callbackReturns_some (h : queueStep q .callbackReturns = some t) :
    ∃ now p, q.phase = .running now p ∧ t = q.callbackReturns now p := by
  simp only [queueStep] at h
  split at h
  · exact ⟨_, _, ‹_›, (Option.some.inj h).symm⟩
  · cases h

theorem passEnds_some (h : queueStep q (.passEnds clock) = some t) :
    ∃ now, q.phase = .popping now ∧ q.passEnds now clock = some t := by
  simp only [queueStep] at h
  split at h
  · exact ⟨_, ‹_›, h⟩
  · cases h

theorem queueStep_inv {e : QueueEvent} (inv : QueueInv waiting q) (h : queueStep q e = some t) :
    QueueInv waiting t := by
  cases e with
  | addTimer slot when interval sequence now =>
    obtain ⟨-, h⟩ := Option.ite_none_right_eq_some.1 h
    obtain ⟨q₁, hacquire, rfl⟩ := Option.map_eq_some_iff.1 h
    exact (inv.acquire hacquire).1.register now
  | cancel sequence =>
    obtain ⟨-, rfl⟩ := of_ite_some h
    exact inv.cancel sequence
  | handleRead now expired =>
    obtain ⟨hidle, rfl⟩ := handleRead_some h
    refine ⟨inv.pool, inv.fresh, inv.active, inv.sorted, ?_, fun hpopping => by cases hpopping⟩
    exact inv.processing.trans (by rw [hidle]; rfl)
  | pop =>
    obtain ⟨now, hphase, hpop⟩ := pop_some h
    exact inv.pop hphase hpop
  | callbackReturns =>
    obtain ⟨now, p, hphase, rfl⟩ := callbackReturns_some h
    exact inv.callbackReturns hphase
  | passEnds clock =>
    obtain ⟨now, hphase, hends⟩ := passEnds_some h
    exact inv.passEnds hphase hends
  | destroy =>
    obtain ⟨hidle, rfl⟩ := of_ite_some h
    refine ⟨inv.pool, inv.fresh, inv.active, inv.sorted, ?_, fun hdestroying => by cases hdestroying⟩
    exact inv.processing.trans (by rw [hidle]; rfl)
  | destroyEarliest =>
    obtain ⟨-, h⟩ := Option.ite_none_right_eq_some.1 h
    obtain ⟨p, hp, rfl⟩ := inv.destroyEarliest_out h
    exact (inv.delist hp).release

theorem init_queueInv : QueueInv [] ({} : TimerQueue) where
  pool := Pool.Holds.empty
  fresh _ hk := by cases hk
  active := List.Perm.nil
  sorted := List.Pairwise.nil
  processing := rfl
  armed _ _ he := by cases he

theorem run_queueInv {tr : List QueueEvent} (hrun : run queueStep {} tr = some q) : QueueInv [] q :=
  run_induct (fun _ q => QueueInv [] q) init_queueInv (fun _ _ _ _ _ inv hst => queueStep_inv inv hst) tr q hrun

end Operations

/-! ## Every run on the loop thread -/

structure TimerQueue.Consistent (q : TimerQueue) : Prop where
  /-- a timer that was not released is in the tree and in the table, once each, or its callback runs -/
  placed : ∀ p, (q.pool.object p).isSome →
    (q.timers.count p = 1 ∧ q.activeTimers.count p = 1 ∧ q.processingTimer ≠ some p) ∨
    (q.timers.count p = 0 ∧ q.activeTimers.count p = 0 ∧ q.processingTimer = some p)
  /-- and nothing else is -/
  held : ∀ p, p ∈ q.timers ∨ p ∈ q.activeTimers ∨ q.processingTimer = some p → (q.pool.object p).isSome
  /-- no timer was used after it was released -/
  unused : q.pool.fault = false
  /-- a timer is released once, when it is gone, and not before -/
  released : ∀ k ∈ q.pool.acquired,
    (∀ p t, q.pool.object p = some t → t.sequence = k → q.pool.released.count k = 0) ∧
    ((∀ p t, q.pool.object p = some t → t.sequence ≠ k) → q.pool.released.count k = 1)
  acquired : ∀ k ∈ q.pool.released, k ∈ q.pool.acquired
  /-- after the destructor all are -/
  destroyed : q.phase = .destroying → q.timers = [] → ∀ k ∈ q.pool.acquired, q.pool.released.count k = 1
  /-- between handlers the timerfd is set for the earliest timer -/
  armed : q.phase = .idle → q.timers ≠ [] → ∃ first ∈ q.timers, ∃ a,
    (∀ p ∈ q.timers, (q.timer first).expiration ≤ (q.timer p).expiration) ∧ q.timerfd = some a ∧
    a.fireAt ≤ max (q.timer first).expiration (a.setAt + 100)

theorem QueueInv.placed {q : TimerQueue} (inv : QueueInv [] q) {p : ℕ} (hp : (q.pool.object p).isSome) :
    (q.timers.count p = 1 ∧ q.activeTimers.count p = 1 ∧ q.processingTimer ≠ some p) ∨
    (q.timers.count p = 0 ∧ q.activeTimers.count p = 0 ∧ q.processingTimer = some p) := by
  obtain ⟨htimers, -, hdisjoint⟩ := nodup_append.1 inv.pool.nodup
  rw [inv.active.count_eq]
  rcases mem_append.1 ((inv.pool.live p).2 hp) with hmem | hmem
  · have hcount := count_eq_one_of_mem htimers hmem
    exact .inl ⟨hcount, hcount, fun heq => hdisjoint p hmem p (by simp [heq]) rfl⟩
  · have hprocessing : q.processingTimer = some p := by simpa using hmem
    have hcount : q.timers.count p = 0 := count_eq_zero.2 fun hp => hdisjoint p hp p hmem rfl
    exact .inr ⟨hcount, hcount, hprocessing⟩

theorem QueueInv.released {q : TimerQueue} (inv : QueueInv [] q) {k : ℕ} (hk : k ∈ q.pool.acquired) :
    (∀ p t, q.pool.object p = some t → t.sequence = k → q.pool.released.count k = 0) ∧
    ((∀ p t, q.pool.object p = some t → t.sequence ≠ k) → q.pool.released.count k = 1) := by
  constructor
  · rintro p t hp rfl
    have hmem : p ∈ q.slots [] := (inv.pool.live p).2 (by rw [hp]; rfl)
    have htag := (inv.pool.tag_mem hmem).2
    rw [Pool.get_of_object hp] at htag
    exact count_eq_zero.2 htag
  · intro hgone
    rcases inv.pool.count_released hk with ⟨⟨p, hp, htag⟩, -⟩ | ⟨-, hcount⟩
    · exact absurd htag (hgone p _ (inv.pool.object_eq hp))
    · exact hcount

/-- **The queue is consistent** after any sequence of `AddTimer`, `Cancel` and `HandleRead` on the loop thread, with any
calls from inside callbacks. -/
theorem timerQueue_consistent {tr : List QueueEvent} {q : TimerQueue} (hrun : run queueStep {} tr = some q) :
    q.Consistent := by
  have inv := run_queueInv hrun
  refine ⟨fun p hp => inv.placed hp, fun p hp => (inv.pool.live p).1 ?_, inv.pool.fault, fun k hk => inv.released hk,
    fun k hk => inv.pool.account.subset (mem_append_right _ hk), fun hphase hempty k hk => ?_, fun hidle hne => ?_⟩
  · rcases hp with hp | hp | hp
    · exact mem_slots hp
    · exact mem_slots (inv.active.subset hp)
    · exact mem_slots_processing hp
  · refine (inv.released hk).2 fun p t hp => absurd ((inv.pool.live p).2 (by rw [hp]; rfl)) ?_
    simp [TimerQueue.slots, hempty, inv.processing, hphase, Phase.processing]
  · obtain ⟨first, rest, hfirst⟩ := exists_cons_of_ne_nil hne
    have he : (q.timer first).expiration ∈ q.earliest := by rw [TimerQueue.earliest, hfirst]; rfl
    obtain ⟨a, ha, hle⟩ := inv.armed hidle _ he
    exact ⟨first, hfirst ▸ mem_cons_self, a, fun p hp => earliest_le inv.sorted he hp, ha, hle⟩

/-- A timer that fires every half second cancels itself in its second callback and adds another, which gets its address
after the release; a one-shot timer is cancelled between the passes. -/
def callbackRun : List QueueEvent :=
  [.addTimer 0 1000 (1 / 2) 5 0, .addTimer 1 2000 0 6 0, .handleRead 1000 true, .pop, .callbackReturns, .passEnds 1010,
   .cancel 6, .handleRead 501000 true, .pop, .cancel 5, .addTimer 1 600000 0 8 501000, .callbackReturns,
     .passEnds 501020,
   .addTimer 0 501050 0 9 501030]

theorem timerQueue_consistent_callbackRun : ∃ q, run queueStep {} callbackRun = some q ∧ q.Consistent ∧
    q.started = [5, 5] ∧ q.pool.released = [6, 5] ∧ q.timers = [0, 1] ∧ q.timerfd.map (·.fireAt) = some 501130 := by
  have hfacts : (run queueStep {} callbackRun).isSome ∧ ∀ q ∈ run queueStep {} callbackRun,
      q.started = [5, 5] ∧ q.pool.released = [6, 5] ∧ q.timers = [0, 1] ∧ q.timerfd.map (·.fireAt) = some 501130 := by
    decide +kernel
  obtain ⟨q, hq⟩ := Option.isSome_iff_exists.1 hfacts.1
  exact ⟨q, hq, timerQueue_consistent hq, hfacts.2 q hq⟩

end Coropact.Net
