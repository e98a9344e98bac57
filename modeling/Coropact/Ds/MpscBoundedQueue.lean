/-
The bounded queue with many producers and one consumer (`include/coropact/ds/mpsc_bounded_queue.h`), one atomic access
at a time.

`capacity` is a power of two. Each cell has a sequence number: `p` while its cell waits for the value of position `p`,
`p + 1` when that value is published, `p + capacity` when the consumer has released it. Positions are 64-bit words and
differences are taken of their signed values, as in the source; a cell is found with a mask. The storage of a cell is an
optional value: `none` is raw memory, and what `TryPop` moves out is whatever it finds there. An event is one access of
one thread with the answer it got; both CAS loops use the weak form, which may fail although the value is the expected
one. Constructing the value and moving it out are steps of their own.
-/
import Coropact.Core.Machine
import Coropact.Core.Ring

namespace Coropact.Ds

open Coropact.Machine Function

/-! ## Model -/

structure Cell (T : Type*) where
  sequence : BitVec 64
  value : Option T
deriving DecidableEq, Repr

structure MpscBoundedQueue (T : Type*) where
  enqueuePosition : BitVec 64 := 0
  dequeuePosition : BitVec 64 := 0
  /-- only the cells below the capacity are used -/
  buffer : ℕ → Cell T := fun i => ⟨BitVec.ofNat 64 i, none⟩

/-- `position & mask` -/
def index (capacity : ℕ) (position : BitVec 64) : ℕ := (position &&& BitVec.ofNat 64 (capacity - 1)).toNat

def difference (sequence position : BitVec 64) : ℤ := sequence.toInt - position.toInt

inductive QueueAccess (T : Type*) where
  /-- `TryPush(value)` begins with its load of `enqueue_position_` -/
  | tryPush (value : T) (position : BitVec 64)
  | pushSequence (position sequence : BitVec 64)
  | reloadEnqueue (position : BitVec 64)
  /-- `enqueue_position_.compare_exchange_weak` -/
  | reserve (value : T) (position seen : BitVec 64) (ok : Bool)
  | construct (position : BitVec 64) (value : T)
  /-- the producer's store to the sequence number; returns kPushed -/
  | publish (position : BitVec 64)
  /-- `TryPop()` begins with its load of `dequeue_position_` -/
  | tryPop (position : BitVec 64)
  | popSequence (position sequence : BitVec 64)
  | reloadDequeue (position : BitVec 64)
  /-- `dequeue_position_.compare_exchange_weak` -/
  | advance (position seen : BitVec 64) (ok : Bool)
  | take (position : BitVec 64) (found : Option T)
  /-- the consumer's store to the sequence number; returns the value -/
  | release (position : BitVec 64)
deriving DecidableEq, Repr

inductive QueuePc (T : Type*) where
  | idle
  -- `TryPush`
  | pushSequence (value : T) (position : BitVec 64) | reloadEnqueue (value : T)
  | reserve (value : T) (position : BitVec 64) | construct (value : T) (position : BitVec 64)
  | publish (position : BitVec 64)
  -- `TryPop`
  | popSequence (position : BitVec 64) | reloadDequeue | advance (position : BitVec 64) | take (position : BitVec 64)
  | release (position : BitVec 64) (found : Option T)
deriving DecidableEq, Repr

section Model

variable {T : Type*} [DecidableEq T] (capacity : ℕ)

/-- the queue with cell `position & mask` changed -/
def MpscBoundedQueue.setCell (q : MpscBoundedQueue T) (position : BitVec 64) (c : Cell T) : MpscBoundedQueue T :=
  { q with buffer := update q.buffer (index capacity position) c }

def MpscBoundedQueue.cell (q : MpscBoundedQueue T) (position : BitVec 64) : Cell T := q.buffer (index capacity position)

def queueMemory (q : MpscBoundedQueue T) : QueueAccess T → Option (MpscBoundedQueue T)
  | .tryPush _ position | .reloadEnqueue position => if position = q.enqueuePosition then some q else none
  | .pushSequence position sequence | .popSequence position sequence =>
    if sequence = (q.cell capacity position).sequence then some q else none
  | .reserve _ position seen ok =>
    if seen = q.enqueuePosition ∧ (ok = true → seen = position) then
      some (if ok then { q with enqueuePosition := position + 1 } else q)
    else none
  | .construct position value =>
      some (q.setCell capacity position { q.cell capacity position with value := some value })
  | .publish position => some (q.setCell capacity position { q.cell capacity position with sequence := position + 1 })
  | .tryPop position | .reloadDequeue position => if position = q.dequeuePosition then some q else none
  | .advance position seen ok =>
    if seen = q.dequeuePosition ∧ (ok = true → seen = position) then
      some (if ok then { q with dequeuePosition := position + 1 } else q)
    else none
  | .take position found =>
    if found = (q.cell capacity position).value then
      some (q.setCell capacity position { q.cell capacity position with value := none })
    else none
  | .release position =>
    some (q.setCell capacity position
      { q.cell capacity position with sequence := position + BitVec.ofNat 64 capacity })

def producerStep : QueuePc T → QueueAccess T → Option (QueuePc T)
  | .idle, .tryPush value position => some (.pushSequence value position)
  | .pushSequence value position, .pushSequence position' sequence =>
    if position' = position then
      some (if difference sequence position = 0 then .reserve value position
            else if difference sequence position < 0 then .idle  -- kFull
            else .reloadEnqueue value)
    else none
  | .reloadEnqueue value, .reloadEnqueue position => some (.pushSequence value position)
  | .reserve value position, .reserve value' position' seen ok =>
    if value' = value ∧ position' = position then
      some (if ok then .construct value position else .pushSequence value seen)
    else none
  | .construct value position, .construct position' value' =>
    if value' = value ∧ position' = position then some (.publish position) else none
  | .publish position, .publish position' => if position' = position then some .idle else none
  | _, _ => none

def consumerStep : QueuePc T → QueueAccess T → Option (QueuePc T)
  | .idle, .tryPop position => some (.popSequence position)
  | .popSequence position, .popSequence position' sequence =>
    if position' = position then
      some (if difference sequence (position + 1) = 0 then .advance position
            else if difference sequence (position + 1) < 0 then .idle  -- nullopt
            else .reloadDequeue)
    else none
  | .reloadDequeue, .reloadDequeue position => some (.popSequence position)
  | .advance position, .advance position' seen ok =>
    if position' = position then some (if ok then .take position else .popSequence seen) else none
  | .take position, .take position' found => if position' = position then some (.release position found) else none
  | .release position _, .release position' => if position' = position then some .idle else none
  | _, _ => none

variable {ι : Type*} [DecidableEq ι]

/-- `none` is the consumer, the others are producers -/
def queueStep : MpscBoundedQueue T × (Option ι → QueuePc T) → Option ι × QueueAccess T →
    Option (MpscBoundedQueue T × (Option ι → QueuePc T)) :=
  Par.step (queueMemory capacity) fun i => if i = none then consumerStep else producerStep

def queueInit : MpscBoundedQueue T × (Option ι → QueuePc T) := ({}, fun _ => .idle)

end Model

/-! ## What a step can do -/

inductive PushStep {T : Type*} (capacity : ℕ) (q : MpscBoundedQueue T) :
    QueuePc T → QueueAccess T → MpscBoundedQueue T → QueuePc T → Prop
  | tryPush (value : T) :
      PushStep capacity q .idle (.tryPush value q.enqueuePosition) q (.pushSequence value q.enqueuePosition)
  | room (value : T) (position : BitVec 64) (h : difference (q.cell capacity position).sequence position = 0) :
      PushStep capacity q (.pushSequence value position) (.pushSequence position (q.cell capacity position).sequence) q
        (.reserve value position)
  | full (value : T) (position : BitVec 64) (h : difference (q.cell capacity position).sequence position < 0) :
      PushStep capacity q (.pushSequence value position)
        (.pushSequence position (q.cell capacity position).sequence) q .idle
  | behind (value : T) (position : BitVec 64) :
      PushStep capacity q (.pushSequence value position) (.pushSequence position (q.cell capacity position).sequence) q
        (.reloadEnqueue value)
  | reload (value : T) :
      PushStep capacity q (.reloadEnqueue value) (.reloadEnqueue q.enqueuePosition) q
        (.pushSequence value q.enqueuePosition)
  | reserve (value : T) :
      PushStep capacity q (.reserve value q.enqueuePosition)
        (.reserve value q.enqueuePosition q.enqueuePosition true)
        { q with enqueuePosition := q.enqueuePosition + 1 } (.construct value q.enqueuePosition)
  | missed (value : T) (position : BitVec 64) :
      PushStep capacity q (.reserve value position) (.reserve value position q.enqueuePosition false) q
        (.pushSequence value q.enqueuePosition)
  | construct (value : T) (position : BitVec 64) :
      PushStep capacity q (.construct value position) (.construct position value)
        (q.setCell capacity position { q.cell capacity position with value := some value }) (.publish position)
  | publish (position : BitVec 64) :
      PushStep capacity q (.publish position) (.publish position)
        (q.setCell capacity position { q.cell capacity position with sequence := position + 1 }) .idle

inductive PopStep {T : Type*} (capacity : ℕ) (q : MpscBoundedQueue T) :
    QueuePc T → QueueAccess T → MpscBoundedQueue T → QueuePc T → Prop
  | tryPop : PopStep capacity q .idle (.tryPop q.dequeuePosition) q (.popSequence q.dequeuePosition)
  | ready (position : BitVec 64) (h : difference (q.cell capacity position).sequence (position + 1) = 0) :
      PopStep capacity q (.popSequence position) (.popSequence position (q.cell capacity position).sequence) q
        (.advance position)
  | empty (position : BitVec 64) (h : difference (q.cell capacity position).sequence (position + 1) < 0) :
      PopStep capacity q (.popSequence position) (.popSequence position (q.cell capacity position).sequence) q .idle
  | behind (position : BitVec 64) :
      PopStep capacity q (.popSequence position)
        (.popSequence position (q.cell capacity position).sequence) q .reloadDequeue
  | reload : PopStep capacity q .reloadDequeue (.reloadDequeue q.dequeuePosition) q (.popSequence q.dequeuePosition)
  | advance :
      PopStep capacity q (.advance q.dequeuePosition) (.advance q.dequeuePosition q.dequeuePosition true)
        { q with dequeuePosition := q.dequeuePosition + 1 } (.take q.dequeuePosition)
  | missed (position : BitVec 64) :
      PopStep capacity q (.advance position) (.advance position q.dequeuePosition false) q
        (.popSequence q.dequeuePosition)
  | take (position : BitVec 64) :
      PopStep capacity q (.take position) (.take position (q.cell capacity position).value)
        (q.setCell capacity position { q.cell capacity position with value := none })
        (.release position (q.cell capacity position).value)
  | release (position : BitVec 64) (found : Option T) :
      PopStep capacity q (.release position found) (.release position)
        (q.setCell capacity position { q.cell capacity position with sequence := position + BitVec.ofNat 64 capacity })
        .idle

section Inversion

variable {T : Type*} [DecidableEq T] {capacity : ℕ} {q q' : MpscBoundedQueue T} {pc pc' : QueuePc T} {a : QueueAccess T}

/-- a compare-exchange: it saw the current position, and moved it only if that was the expected one -/
theorem of_compareExchange {α β : Type*} [DecidableEq α] {current expected seen : α} {ok : Bool} {x y z : β}
    (h : (if seen = current ∧ (ok = true → seen = expected) then some (if ok then x else y) else none) = some z) :
    seen = current ∧ (ok = true ∧ expected = current ∧ z = x ∨ ok = false ∧ z = y) := by
  obtain ⟨⟨rfl, hok⟩, rfl⟩ := of_ite_some h
  cases ok with
  | true => exact ⟨rfl, .inl ⟨rfl, (hok rfl).symm, rfl⟩⟩
  | false => exact ⟨rfl, .inr ⟨rfl, rfl⟩⟩

theorem producerStep_move (hm : queueMemory capacity q a = some q') (hp : producerStep pc a = some pc') :
    PushStep capacity q pc a q' pc' := by
  revert hp
  fun_cases producerStep pc a <;> intro hp <;> cases hp
  case case1 | case4 =>
    obtain ⟨rfl, rfl⟩ := of_ite_some hm
    constructor
  case case2 =>
    obtain ⟨rfl, rfl⟩ := of_ite_some hm
    split_ifs with h0 hneg
    · exact .room _ _ h0
    · exact .full _ _ hneg
    · exact .behind _ _
  case case5 hsame =>
    obtain ⟨rfl, rfl⟩ := hsame
    obtain ⟨rfl, ⟨rfl, rfl, rfl⟩ | ⟨rfl, rfl⟩⟩ := of_compareExchange hm
    · exact .reserve _
    · exact .missed _ _
  case case7 hsame =>
    obtain ⟨rfl, rfl⟩ := hsame
    exact Option.some.inj hm ▸ .construct _ _
  case case9 => exact Option.some.inj hm ▸ .publish _

theorem consumerStep_move (hm : queueMemory capacity q a = some q') (hp : consumerStep pc a = some pc') :
    PopStep capacity q pc a q' pc' := by
  revert hp
  fun_cases consumerStep pc a <;> intro hp <;> cases hp
  case case1 | case4 | case7 =>
    obtain ⟨rfl, rfl⟩ := of_ite_some hm
    constructor
  case case2 =>
    obtain ⟨rfl, rfl⟩ := of_ite_some hm
    split_ifs with h0 hneg
    · exact .ready _ h0
    · exact .empty _ hneg
    · exact .behind _
  case case5 =>
    obtain ⟨rfl, ⟨rfl, rfl, rfl⟩ | ⟨rfl, rfl⟩⟩ := of_compareExchange hm
    · exact .advance
    · exact .missed _
  case case9 => exact Option.some.inj hm ▸ .release _ _

variable {ι : Type*} [DecidableEq ι] {s t : MpscBoundedQueue T × (Option ι → QueuePc T)}

theorem queueStep_producer {i : ι} (h : queueStep capacity s (some i, a) = some t) :
    ∃ pc', PushStep capacity s.1 (s.2 (some i)) a t.1 pc' ∧ t.2 = update s.2 (some i) pc' := by
  obtain ⟨pc', hm, hp, ht⟩ := Par.step_some h
  exact ⟨pc', producerStep_move hm hp, ht⟩

theorem queueStep_consumer (h : queueStep capacity s (none, a) = some t) :
    ∃ pc', PopStep capacity s.1 (s.2 none) a t.1 pc' ∧ t.2 = update s.2 none pc' := by
  obtain ⟨pc', hm, hp, ht⟩ := Par.step_some h
  exact ⟨pc', consumerStep_move hm hp, ht⟩

end Inversion

end Coropact.Ds
