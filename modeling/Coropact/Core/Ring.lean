/-
Positions in a ring of cells.

A ring of `C` cells serves positions 0, 1, 2, …; position `p` has cell `p % C`, so at any time the ring holds a window
of `C` consecutive positions, each in a cell of its own. `Holds` says something about the cell of every position of the
window.

Results:
- `mod_inj`: two positions of a window do not share a cell.
- `exists_window`: a cell serves one position of the window, at or behind any earlier position of that cell.
- `Holds.update`, `Holds.shift`: one cell changes; the window moves on by one.
- `and_mask`: the cell of a position in a ring of 2 ^ k cells, computed with a mask.
- `fifo_conserves`: what went into a first-in first-out queue came out in that order or is still in it.
-/
import Coropact.Core.Machine
import Mathlib.Data.BitVec

namespace Coropact.Ring

open Coropact.Machine Function

/-! ## The window -/

variable {α : Type*} {C r : ℕ}

theorem mod_inj {p q : ℕ} (hp : r ≤ p) (hp' : p < r + C) (hq : r ≤ q) (hq' : q < r + C) (h : p % C = q % C) :
    p = q := by
  wlog hle : p ≤ q generalizing p q
  · exact (this hq hq' hp hp' h.symm (not_le.1 hle).le).symm
  have hdvd : C ∣ q - p := (Nat.modEq_iff_dvd' hle).1 h
  have hzero : q - p = 0 := Nat.eq_zero_of_dvd_of_lt hdvd (by omega)
  omega

theorem exists_window {p : ℕ} (hC : 0 < C) (hp : p < r + C) : ∃ q, r ≤ q ∧ q < r + C ∧ q % C = p % C ∧ p ≤ q := by
  rcases le_or_gt r p with hle | hlt
  · exact ⟨p, hle, hp, rfl, le_rfl⟩
  · -- as many laps behind `p` as it takes to reach the window
    refine ⟨p + C * ((r - p + (C - 1)) / C), ?_, ?_, Nat.add_mul_mod_self_left _ _ _, Nat.le_add_right _ _⟩
    · have := Nat.div_add_mod (r - p + (C - 1)) C
      have := Nat.mod_lt (r - p + (C - 1)) hC
      omega
    · have := Nat.mul_div_le (r - p + (C - 1)) C
      omega

/-- every position of the window from `r` on finds `P` in its cell -/
def Holds (C r : ℕ) (cells : ℕ → α) (P : ℕ → α → Prop) : Prop := ∀ p, r ≤ p → p < r + C → P p (cells (p % C))

variable {cells : ℕ → α} {P Q : ℕ → α → Prop}

theorem Holds.mono (h : Holds C r cells P) (hPQ : ∀ p c, r ≤ p → p < r + C → P p c → Q p c) : Holds C r cells Q :=
  fun p hp hp' => hPQ p _ hp hp' (h p hp hp')

theorem Holds.update (h : Holds C r cells P) {q : ℕ} (hq : r ≤ q) (hq' : q < r + C) {x : α} (hx : Q q x)
    (hPQ : ∀ p c, p ≠ q → P p c → Q p c) : Holds C r (Function.update cells (q % C) x) Q := by
  intro p hp hp'
  by_cases hpq : p = q
  · rw [hpq, update_self]
    exact hx
  · rw [update_of_ne fun hc => hpq (mod_inj hp hp' hq hq' hc)]
    exact hPQ p _ hpq (h p hp hp')

/-- the window moves on by one: the cell it leaves behind now serves the next lap -/
theorem Holds.shift (h : Holds C r cells P) {x : α} (hx : P (r + C) x) :
    Holds C (r + 1) (Function.update cells (r % C) x) P := by
  intro p hp hp'
  rcases Nat.lt_or_ge p (r + C) with hlt | hge
  · have hne : p % C ≠ r % C := fun hc => by
      have := mod_inj (by omega) hlt le_rfl (by omega) hc
      omega
    rw [update_of_ne hne]
    exact h p (by omega) hlt
  · obtain rfl : p = r + C := by omega
    rw [Nat.add_mod_right, update_self]
    exact hx

/-! ## Positions as words -/

theorem and_mask {k : ℕ} (hk : k ≤ 64) (p : BitVec 64) :
    (p &&& BitVec.ofNat 64 (2 ^ k - 1)).toNat = p.toNat % 2 ^ k := by
  have hlt : 2 ^ k - 1 < 2 ^ 64 := by
    have := Nat.pow_le_pow_right (show 0 < 2 by decide) hk
    omega
  rw [BitVec.toNat_and, BitVec.toNat_ofNat, Nat.mod_eq_of_lt hlt, Nat.and_two_pow_sub_one_eq_mod]

/-! ## The queue a ring stands for -/

inductive FifoOp (α : Type*) where
  | enqueue (x : α)
  | dequeue (found : Option α)
deriving DecidableEq, Repr

/-- a first-in first-out queue without a bound; what a dequeue finds is the oldest element -/
def fifoStep [DecidableEq α] : List α → FifoOp α → Option (List α)
  | q, .enqueue x => some (q ++ [x])
  | [], .dequeue _ => none
  | x :: q, .dequeue found => if found = some x then some q else none

def FifoOp.enqueued : FifoOp α → Option α
  | .enqueue x => some x
  | .dequeue _ => none

def FifoOp.dequeued : FifoOp α → Option (Option α)
  | .enqueue _ => none
  | .dequeue found => some found

theorem fifo_conserves [DecidableEq α] : ∀ (ops : List (FifoOp α)) (q : List α), run fifoStep [] ops = some q →
    (ops.filterMap FifoOp.enqueued).map some = ops.filterMap FifoOp.dequeued ++ q.map some := by
  refine run_induct (fun ops (q : List α) => (ops.filterMap FifoOp.enqueued).map some =
    ops.filterMap FifoOp.dequeued ++ q.map some) rfl fun ops q op q' _ ih hop => ?_
  cases op with
  | enqueue x =>
    obtain rfl := Option.some.inj hop
    simp [FifoOp.enqueued, FifoOp.dequeued, ih]
  | dequeue found =>
    cases q with
    | nil => cases hop
    | cons x q =>
      obtain ⟨rfl, rfl⟩ := of_ite_some hop
      simp [FifoOp.enqueued, FifoOp.dequeued, ih]

end Coropact.Ring
