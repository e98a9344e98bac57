/-
Accounts that are charged in turns.

A finite set of accounts holds integers that sum to 0. In each turn some accounts are credited, each with its own
nonnegative amount, and the account of the turn that then holds the most is charged the whole of what was credited.
Which accounts take part and with how much may change from turn to turn.

- `Balanced`: the accounts sum to 0, and any `k` of `n` accounts together hold at most `B * k * (n - k)`.
- `Balanced.turn`: a turn that credits at most `B` keeps this.
- `Balanced.le`, `Balanced.ge`: so no account ever gets further from 0 than `B * (n - 1)`, whatever the turns are.
- `Level.turn`: if every turn credits all accounts with the same positive amounts, each stays above what a turn charges;
- `Level.eq_zero`: so when all accounts are multiples of that charge, they are 0.
-/
import Mathlib.Algebra.Order.BigOperators.Group.Finset
import Mathlib.Tactic

namespace Coropact.Balance

open Finset

variable {ι : Type*} [DecidableEq ι]

structure Balanced (s : Finset ι) (B : ℤ) (x : ι → ℤ) : Prop where
  sum_eq : ∑ i ∈ s, x i = 0
  sum_le : ∀ K ⊆ s, ∑ i ∈ K, x i ≤ B * K.card * (s.card - K.card)

/-- the accounts after a turn: `w` is credited and `m` is charged -/
def turn (s : Finset ι) (x w : ι → ℤ) (m : ι) (i : ι) : ℤ := x i + w i - if i = m then ∑ j ∈ s, w j else 0

variable {s : Finset ι} {B : ℤ} {x w : ι → ℤ} {m : ι}

omit [DecidableEq ι] in
theorem balanced_zero (s : Finset ι) (hB : 0 ≤ B) : Balanced s B fun _ => 0 where
  sum_eq := sum_const_zero
  sum_le := by
    intro K hK
    rw [sum_const_zero]
    have hcard : (K.card : ℤ) ≤ s.card := by exact_mod_cast card_le_card hK
    positivity

theorem sum_turn {K : Finset ι} :
    ∑ i ∈ K, turn s x w m i = ∑ i ∈ K, x i + ∑ i ∈ K, w i - if m ∈ K then ∑ j ∈ s, w j else 0 := by
  simp only [turn, sum_sub_distrib, sum_add_distrib, sum_ite_eq']

omit [DecidableEq ι] in
theorem largest_pos (hsum : ∑ i ∈ s, x i = 0) (hpos : 0 < ∑ i ∈ s, w i) (hmax : ∀ i ∈ s, x i + w i ≤ x m + w m) :
    0 < x m + w m := by
  by_contra hle
  have hnonpos : ∑ i ∈ s, (x i + w i) ≤ 0 := sum_nonpos fun i hi => (hmax i hi).trans (not_lt.1 hle)
  rw [sum_add_distrib] at hnonpos
  linarith

namespace Balanced

omit [DecidableEq ι] in
theorem le (h : Balanced s B x) {i : ι} (hi : i ∈ s) : x i ≤ B * (s.card - 1) := by
  have hone := h.sum_le {i} (singleton_subset_iff.2 hi)
  simpa using hone

theorem ge (h : Balanced s B x) {i : ι} (hi : i ∈ s) : -(B * (s.card - 1)) ≤ x i := by
  have hrest := h.sum_le (s.erase i) (erase_subset i s)
  have hsum := add_sum_erase s x hi
  rw [h.sum_eq] at hsum
  have hcard : ((s.erase i).card : ℤ) = s.card - 1 := by
    rw [card_erase_of_mem hi]
    have hpos := card_pos.2 ⟨i, hi⟩
    omega
  rw [hcard] at hrest
  have hone : B * ((s.card : ℤ) - 1) * (s.card - (s.card - 1)) = B * (s.card - 1) := by ring
  linarith

/-- the accounts `K` that share in the turn without its charge hold less than those with one of them left out and those
with the charged one put in, on average -/
theorem sum_le_of_charged (h : Balanced s B x) (hw : ∀ i ∈ s, 0 ≤ w i) (hB : ∑ i ∈ s, w i ≤ B) {K : Finset ι}
    (hK : K ⊆ s) (hm : m ∈ s) (hmK : m ∉ K) {j : ι} (hj : j ∈ K) (hle : x j + w j ≤ x m + w m) :
    ∑ i ∈ K, x i + ∑ i ∈ K, w i ≤ B * K.card * (s.card - K.card) := by
  have hless := h.sum_le (K.erase j) ((erase_subset j K).trans hK)
  have hmore := h.sum_le (insert m K) (insert_subset hm hK)
  have hcredit : ∀ L ⊆ s, ∑ i ∈ L, w i ≤ B := by
    intro L hL
    exact (sum_le_sum_of_subset_of_nonneg hL fun i hi _ => hw i hi).trans hB
  have hwless := hcredit (K.erase j) ((erase_subset j K).trans hK)
  have hwmore := hcredit (insert m K) (insert_subset hm hK)
  have hcardless : ((K.erase j).card : ℤ) = K.card - 1 := by
    rw [card_erase_of_mem hj]
    have hpos := card_pos.2 ⟨j, hj⟩
    omega
  have hcardmore : ((insert m K).card : ℤ) = K.card + 1 := by
    rw [card_insert_of_notMem hmK]
    push_cast
    rfl
  rw [hcardless] at hless
  rw [hcardmore] at hmore
  rw [sum_insert hmK] at hmore hwmore
  have hxj := add_sum_erase K x hj
  have hwj := add_sum_erase K w hj
  linarith

/-- **One turn.** -/
theorem turn (h : Balanced s B x) (hw : ∀ i ∈ s, 0 ≤ w i) (hB : ∑ i ∈ s, w i ≤ B) (hm : m ∈ s)
    (hmax : ∀ i ∈ s, w i ≠ 0 → x i + w i ≤ x m + w m) : Balanced s B (turn s x w m) where
  sum_eq := by
    rw [sum_turn, if_pos hm, h.sum_eq]
    ring
  sum_le := by
    intro K hK
    rw [sum_turn]
    have hpart : ∑ i ∈ K, w i ≤ ∑ i ∈ s, w i := sum_le_sum_of_subset_of_nonneg hK fun i hi _ => hw i hi
    split_ifs with hmK
    · -- what is charged is at least what was credited
      have hold := h.sum_le K hK
      linarith
    · by_cases hshare : ∃ j ∈ K, w j ≠ 0
      · obtain ⟨j, hj, hwj⟩ := hshare
        have hcharged := h.sum_le_of_charged hw hB hK hm hmK hj (hmax j (hK hj) hwj)
        linarith
      · push Not at hshare
        rw [sum_eq_zero hshare]
        have hold := h.sum_le K hK
        linarith

end Balanced

/-! ## Turns of fixed amounts -/

/-- the accounts sum to 0, and none is as low as one charge -/
structure Level (s : Finset ι) (w x : ι → ℤ) : Prop where
  sum_eq : ∑ i ∈ s, x i = 0
  above : ∀ i ∈ s, -∑ j ∈ s, w j < x i

namespace Level

theorem turn (h : Level s w x) (hw : ∀ i ∈ s, 0 < w i) (hm : m ∈ s) (hmax : ∀ i ∈ s, x i + w i ≤ x m + w m) :
    Level s w (turn s x w m) where
  sum_eq := by
    rw [sum_turn, if_pos hm, h.sum_eq]
    ring
  above := by
    intro i hi
    have hpositive := largest_pos h.sum_eq (Finset.sum_pos hw ⟨m, hm⟩) hmax
    have hold := h.above i hi
    have hwi := hw i hi
    unfold Balance.turn
    split_ifs with him
    · subst him
      linarith
    · linarith

omit [DecidableEq ι] in
theorem eq_zero (h : Level s w x) (hdvd : ∀ i ∈ s, ∑ j ∈ s, w j ∣ x i) (hpos : 0 < ∑ j ∈ s, w j) :
    ∀ i ∈ s, x i = 0 := by
  have hnonneg : ∀ i ∈ s, 0 ≤ x i := by
    intro i hi
    obtain ⟨c, hc⟩ := hdvd i hi
    have hlow := h.above i hi
    rw [hc] at hlow ⊢
    have hcpos : -1 < c := by nlinarith
    exact mul_nonneg hpos.le (by omega)
  exact (sum_eq_zero_iff_of_nonneg hnonneg).1 h.sum_eq

omit [DecidableEq ι] in
theorem le (h : Level s w x) {i : ι} (hi : i ∈ s) : x i ≤ (s.card - 1) * ∑ j ∈ s, w j := by
  classical
  have hsum := add_sum_erase s x hi
  have hothers : (s.erase i).card • (-∑ j ∈ s, w j) ≤ ∑ j ∈ s.erase i, x j :=
    card_nsmul_le_sum _ _ _ fun j hj => (h.above j (mem_of_mem_erase hj)).le
  have hcard : ((s.erase i).card : ℤ) = s.card - 1 := by
    rw [card_erase_of_mem hi]
    have hpos := card_pos.2 ⟨i, hi⟩
    omega
  rw [h.sum_eq] at hsum
  rw [nsmul_eq_mul, hcard] at hothers
  linarith

end Level

end Coropact.Balance
