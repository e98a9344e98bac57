/-
The bounded queue called by one thread at a time (`include/coropact/ds/mpsc_bounded_queue.h`).

A call runs from beginning to end with nothing beside it. The loops of `TryPush` and `TryPop` are one loop over the load
of a sequence number; `fuel` bounds its iterations, and `none` is a loop that goes on. A compare-exchange that fails
although it finds the expected position leaves it and the loop begins again, so spurious failures are left out.

The static assertions admit a capacity of 1. Then a published cell has the sequence number of one that waits for the
next position: every push succeeds, and after the second one `TryPop` never returns (`one_cell_overfills`).
-/
import Coropact.Ds.MpscFifo

namespace Coropact.Ds

open Coropact.Ring Coropact.Machine List

/-! ## Model -/

/-- what the static assertions ask of `Capacity` -/
def AdmittedCapacity (capacity : ℕ) : Prop :=
  capacity > 0 ∧ capacity &&& (capacity - 1) = 0 ∧ capacity ≤ (2 ^ 64 - 1) / 2

instance (capacity : ℕ) : Decidable (AdmittedCapacity capacity) := inferInstanceAs (Decidable (_ ∧ _ ∧ _))

/-- the loop of `TryPush` and of `TryPop`: the position it has claimed, if there is one -/
def claimLoop (difference : BitVec 64 → ℤ) (shared : BitVec 64) : ℕ → BitVec 64 → Option (Option (BitVec 64))
  | 0, _ => none
  | fuel + 1, position =>
    if difference position = 0 then
      if shared = position then some (some position) else claimLoop difference shared fuel shared
    else if difference position < 0 then some none
    else claimLoop difference shared fuel shared

inductive QueueCall (T : Type*) where
  | tryPush (value : T)
  | tryPop
deriving DecidableEq, Repr

inductive QueueAnswer (T : Type*) where
  | pushed
  | full
  | empty
  | popped (found : Option T)
deriving DecidableEq, Repr

section Model

variable {T : Type*} (capacity fuel : ℕ)

/-- the rest of `TryPush`, from its compare-exchange on -/
def MpscBoundedQueue.pushAt (q : MpscBoundedQueue T) (position : BitVec 64) (value : T) : MpscBoundedQueue T :=
  let q := { q with enqueuePosition := position + 1 }
  let q := q.setCell capacity position { q.cell capacity position with value := some value }
  q.setCell capacity position { q.cell capacity position with sequence := position + 1 }

/-- the rest of `TryPop`, from its compare-exchange on -/
def MpscBoundedQueue.popAt (q : MpscBoundedQueue T) (position : BitVec 64) : MpscBoundedQueue T :=
  let q := { q with dequeuePosition := position + 1 }
  let q := q.setCell capacity position { q.cell capacity position with value := none }
  q.setCell capacity position { q.cell capacity position with sequence := position + BitVec.ofNat 64 capacity }

def tryPush (q : MpscBoundedQueue T) (value : T) : Option (QueueAnswer T × MpscBoundedQueue T) :=
  (claimLoop (fun position => difference (q.cell capacity position).sequence position) q.enqueuePosition fuel
    q.enqueuePosition).map fun
  | none => (.full, q)
  | some position => (.pushed, q.pushAt capacity position value)

def tryPop (q : MpscBoundedQueue T) : Option (QueueAnswer T × MpscBoundedQueue T) :=
  (claimLoop (fun position => difference (q.cell capacity position).sequence (position + 1)) q.dequeuePosition fuel
    q.dequeuePosition).map fun
  | none => (.empty, q)
  | some position => (.popped (q.cell capacity position).value, q.popAt capacity position)

def queueCall (q : MpscBoundedQueue T) : QueueCall T → Option (QueueAnswer T × MpscBoundedQueue T)
  | .tryPush value => tryPush capacity fuel q value
  | .tryPop => tryPop capacity fuel q

/-- a queue that holds `capacity` values at most: the values that are pushed and not popped, the oldest first -/
def boundedCall (l : List T) : QueueCall T → QueueAnswer T × List T
  | .tryPush value => if l.length < capacity then (.pushed, l ++ [value]) else (.full, l)
  | .tryPop => match l with | [] => (.empty, []) | x :: l => (.popped (some x), l)

end Model

def pushCount {T : Type*} (calls : List (QueueCall T)) : ℕ :=
  calls.countP fun | .tryPush _ => true | .tryPop => false

/-! ## Between calls -/

section Calls

variable {T : Type*} {C n : ℕ} {q : MpscBoundedQueue T} {l : List T} (hidx : ∀ p : BitVec 64, index C p = p.toNat % C)

/-- between calls everything reserved is published and everything moved out is released -/
structure Rests (C : ℕ) (h : History T) (q : MpscBoundedQueue T) : Prop where
  queue : QueueInv C h q
  dequeue : q.dequeuePosition.toNat = h.releases
  popped : h.popped.length = h.releases
  published : ∀ p < h.reserved.length, p ∈ h.published

/-- the queue holds `l`, after `n` pushes at most -/
def Represents (C n : ℕ) (q : MpscBoundedQueue T) (l : List T) : Prop :=
  ∃ h, Rests C h q ∧ h.waiting = l ∧ h.reserved.length ≤ n

theorem claimLoop_self (d : BitVec 64 → ℤ) (shared : BitVec 64) (fuel : ℕ) : claimLoop d shared (fuel + 1) shared =
    if d shared = 0 then some (some shared) else if d shared < 0 then some none
      else claimLoop d shared fuel shared := by
  rw [claimLoop, if_pos rfl]

variable {h : History T}

theorem Rests.waiting_length (hr : Rests C h q) : h.waiting.length + h.releases = h.reserved.length := by
  have hle := hr.queue.releases_le
  rw [History.waiting, length_drop, hr.popped]
  omega

theorem Represents.length_le (hr : Represents C n q l) : l.length ≤ C := by
  obtain ⟨h, hr, rfl, -⟩ := hr
  have hlen := hr.waiting_length
  have hroom := hr.queue.room
  omega

include hidx

theorem Rests.pushAt (hb : h.reserved.length + C < 2 ^ 63) (hr : Rests C h q) (hroom : h.waiting.length < C)
    (value : T) :
    Rests C ((h.next (.reserve value q.enqueuePosition q.enqueuePosition true)).next (.publish q.enqueuePosition))
      (q.pushAt C q.enqueuePosition value) := by
  have hq := hr.queue
  have hwait := hr.waiting_length
  have henq := hq.enqueue
  have hnot : q.enqueuePosition.toNat ∉ h.published := fun hmem => by
    have := hq.reserved _ hmem
    omega
  have hlen : (h.next (.reserve value q.enqueuePosition q.enqueuePosition true)).reserved.length =
      h.reserved.length + 1 := by
    simp [History.next]
  have hlt : q.enqueuePosition.toNat <
      (h.next (.reserve value q.enqueuePosition q.enqueuePosition true)).reserved.length := by omega
  have hreserve := hq.reserve ⟨by omega, by omega⟩ (by omega) value q.enqueuePosition
  refine ⟨(hreserve.construct hidx hlt hnot value).publish hidx ⟨by omega, by simp [History.next]; omega⟩ hlt hnot ?_,
    hr.dequeue, hr.popped, fun p hp => ?_⟩
  · simp [cell_setCell_self, History.next, henq]
  · have hp' : p < h.reserved.length + 1 := hlen ▸ hp
    rcases Nat.lt_succ_iff_lt_or_eq.1 hp' with hold | rfl
    · exact mem_append_left _ (hr.published p hold)
    · rw [← henq]
      exact mem_append_right _ mem_cons_self

theorem Rests.popAt (hC : 2 ≤ C) (hb : h.reserved.length + C < 2 ^ 63) (hr : Rests C h q)
    (hpos : h.releases < h.reserved.length) (found : Option T) :
    Rests C ((h.next (.take q.dequeuePosition found)).next (.release q.dequeuePosition))
      (q.popAt C q.dequeuePosition) := by
  have hpub := hr.published _ hpos
  have hadvance : QueueInv C h { q with dequeuePosition := q.dequeuePosition + 1 } := { hr.queue with }
  refine ⟨(hadvance.take hidx hC hr.dequeue hr.popped found).release hidx ⟨?_, ?_⟩ hr.dequeue hpub, ?_, ?_,
    hr.published⟩
  · simp only [History.next]
    omega
  · simp only [History.next]
    omega
  · have hdeq := hr.dequeue
    exact (toNat_add_one (by omega)).trans (by rw [hdeq]; rfl)
  · simp [History.next, hr.popped]

theorem tryPush_agrees (hC : 2 ≤ C) (hn : n + C < 2 ^ 63) (hr : Represents C n q l) (value : T) (fuel : ℕ) :
    ∃ q', tryPush C (fuel + 1) q value = some ((boundedCall C l (.tryPush value)).1, q') ∧
      Represents C (n + 1) q' (boundedCall C l (.tryPush value)).2 := by
  obtain ⟨h, hr, rfl, hlen⟩ := hr
  have hq := hr.queue
  have hwait := hr.waiting_length
  have henq := hq.enqueue
  have hneg := push_difference_neg_iff hidx hC ⟨by omega, by omega⟩ hq henq.le
  rw [tryPush, claimLoop_self, boundedCall]
  by_cases hroom : h.waiting.length < C
  · have hwaits := (hq.cell hidx (p := q.enqueuePosition) (by omega) (by omega)).waits fun hmem => by
      have := hq.reserved _ hmem
      omega
    have hzero : difference (q.cell C q.enqueuePosition).sequence q.enqueuePosition = 0 := by
      rw [difference_eq (by omega) (by omega)]
      omega
    rw [if_pos hzero, if_pos hroom]
    refine ⟨_, rfl, _, hr.pushAt hidx (by omega) hroom value, ?_, by simp [History.next]; omega⟩
    exact drop_append_of_le_length (show h.popped.length ≤ _ by rw [hr.popped]; omega)
  · have hfull : difference (q.cell C q.enqueuePosition).sequence q.enqueuePosition < 0 :=
      hneg.2 (by have := hq.room; omega)
    rw [if_neg hfull.ne, if_pos hfull, if_neg hroom]
    exact ⟨_, rfl, h, hr, rfl, by omega⟩

theorem tryPop_agrees (hC : 2 ≤ C) (hn : n + C < 2 ^ 63) (hr : Represents C n q l) (fuel : ℕ) :
    ∃ q', tryPop C (fuel + 1) q = some ((boundedCall C l .tryPop).1, q') ∧
      Represents C n q' (boundedCall C l .tryPop).2 := by
  obtain ⟨h, hr, rfl, hlen⟩ := hr
  have hq := hr.queue
  have hwait := hr.waiting_length
  have hdiff := pop_difference hidx hC ⟨by omega, by omega⟩ hq hr.dequeue
  rw [tryPop, claimLoop_self, hdiff]
  by_cases hpos : h.releases < h.reserved.length
  · have hpub := hr.published _ hpos
    rw [if_pos hpub, if_pos rfl]
    have hcell := hq.cell hidx (p := q.dequeuePosition) hr.dequeue.ge (by rw [hr.dequeue]; omega)
    have hvalue : (q.cell C q.dequeuePosition).value = some h.reserved[h.releases] := by
      rw [hcell.value (by rwa [hr.dequeue]) (by rw [hr.dequeue, hr.popped]), hr.dequeue, List.getElem?_eq_getElem hpos]
    have hwaiting : h.waiting = h.reserved[h.releases] :: h.reserved.drop (h.releases + 1) := by
      rw [History.waiting, hr.popped, drop_eq_getElem_cons hpos]
    refine ⟨_, ?_, _, hr.popAt hidx hC (by omega) hpos none, ?_, hlen⟩
    · simp only [hwaiting, Option.map_some, hvalue, boundedCall]
    · rw [hwaiting]
      simp [History.waiting, History.next, hr.popped, boundedCall]
  · have hempty : h.releases ∉ h.published := fun hmem => hpos (hq.reserved _ hmem)
    have hnil : h.waiting = [] := length_eq_zero_iff.1 (by omega)
    rw [if_neg hempty, if_neg (by decide), hnil]
    exact ⟨_, rfl, h, hr, hnil, hlen⟩

omit hidx in
theorem exists_two_pow (h : AdmittedCapacity C) : ∃ k, C = 2 ^ k := by
  obtain ⟨hpos, hand, -⟩ := h
  refine ⟨C.log2, ?_⟩
  have hle := Nat.log2_self_le hpos.ne'
  have hlt := Nat.lt_log2_self (n := C)
  by_contra hne
  -- otherwise `C` and `C - 1` have their highest bit in common
  have hbit : (C &&& (C - 1)).testBit C.log2 = true := by
    rw [Nat.testBit_and, Nat.testBit_of_two_pow_le_and_two_pow_add_one_gt hle hlt,
      Nat.testBit_of_two_pow_le_and_two_pow_add_one_gt (by omega) (by omega)]
    rfl
  rw [hand, Nat.zero_testBit] at hbit
  cases hbit

theorem queueCall_agrees (hC : 2 ≤ C) (fuel : ℕ) (call : QueueCall T) (calls : List (QueueCall T))
    (hn : n + pushCount (call :: calls) + C < 2 ^ 63) (hr : Represents C n q l) :
    ∃ q', queueCall C (fuel + 1) q call = some ((boundedCall C l call).1, q') ∧
      ∃ n', n' + pushCount calls + C < 2 ^ 63 ∧ Represents C n' q' (boundedCall C l call).2 := by
  cases call with
  | tryPush value =>
    have hcount : pushCount (.tryPush value :: calls) = pushCount calls + 1 := countP_cons_of_pos rfl
    obtain ⟨q', hq, hr'⟩ := tryPush_agrees hidx hC (by omega) hr value fuel
    exact ⟨q', hq, n + 1, by omega, hr'⟩
  | tryPop =>
    have hcount : pushCount (.tryPop :: calls) = pushCount calls := countP_cons_of_neg (by simp)
    obtain ⟨q', hq, hr'⟩ := tryPop_agrees hidx hC (by omega) hr fuel
    exact ⟨q', hq, n, by omega, hr'⟩

omit hidx

/-- **The queue is bounded.** With an admitted capacity of two or more, every sequence of calls returns, and answers
like a queue that holds `C` values at most: a push succeeds exactly if there is room, a pop gives the oldest value. -/
theorem queue_bound (hadmitted : AdmittedCapacity C) (hC : 2 ≤ C) (calls : List (QueueCall T))
    (hn : pushCount calls + C < 2 ^ 63) (fuel : ℕ) :
    ∃ answers q l, replies (queueCall C (fuel + 1)) {} calls = some (answers, q) ∧
      replies (fun l call => some (boundedCall C l call)) [] calls = some (answers, l) ∧ l.length ≤ C := by
  obtain ⟨k, rfl⟩ := exists_two_pow hadmitted
  have hk : k ≤ 64 := by
    have := (Nat.pow_le_pow_iff_right (by decide)).1 (show 2 ^ k ≤ 2 ^ 64 by omega)
    omega
  have hidx : ∀ p : BitVec 64, index (2 ^ k) p = p.toNat % 2 ^ k := fun p => and_mask hk p
  have hstart : Represents (2 ^ k) 0 ({} : MpscBoundedQueue T) [] :=
    ⟨{}, ⟨init_queueInv (by omega), rfl, rfl, fun p hp => absurd hp (Nat.not_lt_zero p)⟩, rfl, le_rfl⟩
  obtain ⟨answers, q, l, hq, hl, n, -, hr⟩ := replies_refine
    (R := fun calls q l => ∃ n, n + pushCount calls + 2 ^ k < 2 ^ 63 ∧ Represents (2 ^ k) n q l)
    (fun call calls _ _ ⟨_, hn, hr⟩ => queueCall_agrees hidx hC fuel call calls hn hr) calls _ _ ⟨0, by omega, hstart⟩
  exact ⟨answers, q, l, hq, hl, hr.length_le⟩

end Calls

def threeCalls : List (QueueCall ℕ) := [.tryPush 7, .tryPush 8, .tryPush 9, .tryPop]

theorem queue_bound_threeCalls : AdmittedCapacity 2 ∧ ∃ answers q l,
    replies (queueCall 2 1) {} threeCalls = some (answers, q) ∧
      replies (fun l call => some (boundedCall 2 l call)) [] threeCalls = some (answers, l) ∧ l.length ≤ 2 :=
  ⟨by decide, queue_bound (by decide) le_rfl threeCalls (by decide) 0⟩

/-- **One cell.** The assertions admit it, both pushes succeed, and then `TryPop` runs for ever. -/
theorem one_cell_overfills : AdmittedCapacity 1 ∧ ∃ q : MpscBoundedQueue ℕ,
    replies (queueCall 1 1) {} [.tryPush 7, .tryPush 8] = some ([.pushed, .pushed], q) ∧
      ∀ fuel, queueCall 1 fuel q .tryPop = none := by
  refine ⟨by decide, _, rfl, fun fuel => ?_⟩
  refine Option.map_eq_none_iff.2 ?_
  induction fuel with
  | zero => rfl
  | succ fuel ih =>
    rw [claimLoop_self, if_neg (by decide)]
    exact ih

end Coropact.Ds
