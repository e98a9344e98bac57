/-
Smooth weighted round robin with steady peers (`SmoothWeightedRoundRobinLB::Select` in
`include/coropact/gateway/load_balancer.h`).

While the same peers are available with the same positive effective weights, the calls share the requests out exactly:
among any `W` calls in a row, where `W` is the sum of the weights, each peer is chosen as often as its weight says. The
`W` calls may start anywhere.

A running weight is what its peer was credited less what it was charged, so after a multiple of `W` calls it is a
multiple of `W`. It is never as low as `-W`, and the running weights sum to 0; so they are all 0 then, and the calls
repeat from there.
-/
import Coropact.Gateway.LoadBalancer
import Mathlib.Data.Nat.Count

namespace Coropact.Gateway.SmoothWeightedRoundRobinLB

open Coropact.Balance List

variable {P : Type*} [DecidableEq P]

/-- the strategy before call `k`, which sees the peers `g k` at time `now k` -/
def after (g : ℕ → PeerGroup P) (now : ℕ → ℕ) : ℕ → SmoothWeightedRoundRobinLB P
  | 0 => {}
  | k + 1 => ((after g now k).select (g k) (now k)).2

/-- the answer of call `k` -/
def picked (g : ℕ → PeerGroup P) (now : ℕ → ℕ) (k : ℕ) : Option P := ((after g now k).select (g k) (now k)).1

/-- every call finds the peers `avail` available, with the effective weights `w` -/
structure Steady (g : ℕ → PeerGroup P) (now : ℕ → ℕ) (avail : List P) (w : P → ℕ) : Prop where
  nodup : avail.Nodup
  available : ∀ k, (g k).available (now k) = avail
  weight : ∀ k, ∀ p ∈ avail, (g k).effectiveWeight p = w p
  pos : ∀ p ∈ avail, 0 < w p

/-- the sums of the calls before `n` do not overflow -/
structure Fits (g : ℕ → PeerGroup P) (now : ℕ → ℕ) (avail : List P) (w : P → ℕ) (n : ℕ) : Prop where
  total : ((avail.map w).sum : ℤ) ≤ kIntMax
  sums : ∀ k < n, ∀ p ∈ avail, (after g now k).currentWeights p + w p ≤ kIntMax

def share (avail : List P) (w : P → ℕ) (p : P) : ℤ := if p ∈ avail then w p else 0

variable {g : ℕ → PeerGroup P} {now : ℕ → ℕ} {avail : List P} {w : P → ℕ}

theorem sum_share (hnodup : avail.Nodup) : ∑ p ∈ avail.toFinset, share avail w p = ((avail.map w).sum : ℕ) := by
  rw [← sum_toFinset w hnodup, Nat.cast_sum]
  apply Finset.sum_congr rfl
  intro p hp
  exact if_pos (mem_toFinset.1 hp)

theorem select_congr {g g' : PeerGroup P} {nowMs nowMs' : ℕ} (havail : g.available nowMs = g'.available nowMs')
    (hweight : ∀ p ∈ g.available nowMs, g.effectiveWeight p = g'.effectiveWeight p)
    (lb : SmoothWeightedRoundRobinLB P) :
    lb.select g nowMs = lb.select g' nowMs' := by
  have hvisit : ∀ scan : Scan P, List.foldl (visit g) scan (g.available nowMs) = List.foldl (visit g') scan
      (g.available nowMs) := by
    intro scan
    apply foldl_ext
    intro scan p hp
    simp only [visit, hweight p hp]
  have hsum : intSum 0 g.effectiveWeight (g.available nowMs) = intSum 0 g'.effectiveWeight (g.available nowMs) := by
    apply foldl_ext
    intro total p hp
    rw [hweight p hp]
  simp only [select, hvisit, hsum, ← havail]

namespace Steady

theorem credit_eq (h : Steady g now avail w) (k : ℕ) : credit (g k) (now k) = share avail w := by
  funext p
  unfold credit share
  rw [h.available]
  split_ifs with hp
  · rw [h.weight k p hp]
    exact max_eq_left (Int.natCast_nonneg _)
  · rfl

theorem select_eq_select (h : Steady g now avail w) (lb : SmoothWeightedRoundRobinLB P) (i j : ℕ) :
    lb.select (g i) (now i) = lb.select (g j) (now j) := by
  apply select_congr
  · rw [h.available, h.available]
  · rw [h.available]
    intro p hp
    rw [h.weight i p hp, h.weight j p hp]

omit [DecidableEq P] in
theorem sum_pos (h : Steady g now avail w) (hne : avail ≠ []) : 0 < (avail.map w).sum := by
  obtain ⟨p, hp⟩ := exists_mem_of_ne_nil _ hne
  exact (h.pos p hp).trans_le (single_le_sum (fun _ _ => Nat.zero_le _) _ (mem_map_of_mem hp))

theorem share_pos (h : Steady g now avail w) : ∀ p ∈ avail.toFinset, 0 < share avail w p := by
  intro p hp
  rw [share, if_pos (mem_toFinset.1 hp)]
  exact_mod_cast h.pos p (mem_toFinset.1 hp)

/-- **One call.** The peer that holds the most is chosen and charged. -/
theorem call (h : Steady g now avail w) (hne : avail ≠ []) {k : ℕ}
    (hlevel : Level avail.toFinset (share avail w) (after g now k).currentWeights)
    (hfits : Fits g now avail w (k + 1)) :
    ∃ m ∈ avail, picked g now k = some m ∧
      (after g now (k + 1)).currentWeights = turn avail.toFinset (after g now k).currentWeights (share avail w) m ∧
      ∀ p ∈ avail.toFinset, (after g now k).currentWeights p + share avail w p ≤
        (after g now k).currentWeights m + share avail w m := by
  have hpos : (0 : ℤ) < (avail.map w).sum := by exact_mod_cast h.sum_pos hne
  have hsum : ∑ p ∈ avail.toFinset, share avail w p = ((avail.map w).sum : ℕ) := sum_share h.nodup
  have htotal : intSum 0 (g k).effectiveWeight avail = (avail.map w).sum := by
    have hmap : (avail.map fun p => max ((g k).effectiveWeight p) 0).sum = ((avail.map w).sum : ℕ) := by
      rw [← hsum, ← sum_toFinset _ h.nodup, ← h.credit_eq k]
      apply Finset.sum_congr rfl
      intro p hp
      rw [credit, h.available, if_pos (mem_toFinset.1 hp)]
    rw [intSum_eq le_rfl (hmap ▸ hfits.total), hmap]
  have hbelow : ∀ p ∈ avail, -((avail.map w).sum : ℤ) < (after g now k).currentWeights p := by
    intro p hp
    have habove := hlevel.above p (mem_toFinset.2 hp)
    rwa [hsum] at habove
  have hmax := hfits.total
  unfold kIntMax at hmax
  have hcredited : ∀ p ∈ avail, kIntMin < (after g now k).currentWeights p + share avail w p ∧
      (after g now k).currentWeights p + share avail w p ≤ kIntMax := by
    intro p hp
    have hlow := hbelow p hp
    have hshare := h.share_pos p (mem_toFinset.2 hp)
    refine ⟨by unfold kIntMin; omega, ?_⟩
    rw [share, if_pos hp]
    exact hfits.sums k (Nat.lt_succ_self k) p hp
  have hcharged : ∀ m ∈ avail, (∀ p ∈ avail, (after g now k).currentWeights p + share avail w p ≤
      (after g now k).currentWeights m + share avail w m) →
      kIntMin ≤ (after g now k).currentWeights m + share avail w m - ((avail.map w).sum : ℕ) := by
    intro m hm hmost
    have hnext := hlevel.turn h.share_pos (mem_toFinset.2 hm) fun p hp => hmost p (mem_toFinset.1 hp)
    have hlow := hnext.above m (mem_toFinset.2 hm)
    rw [turn, if_pos rfl, hsum] at hlow
    unfold kIntMin
    omega
  have hcall := @select_charges P _ (g k) (after g now k) (now k)
  rw [h.available, h.credit_eq] at hcall
  obtain ⟨m, hm, hselect, hmost⟩ := hcall h.nodup hpos htotal hcredited hcharged
  refine ⟨m, hm, by rw [picked, hselect], ?_, fun p hp => hmost p (mem_toFinset.1 hp)⟩
  rw [after, hselect]
  funext p
  rw [turn, hsum]

theorem level_after (h : Steady g now avail w) (hne : avail ≠ []) {k : ℕ} (hfits : Fits g now avail w k) :
    Level avail.toFinset (share avail w) (after g now k).currentWeights := by
  induction k with
  | zero =>
    refine ⟨Finset.sum_const_zero, fun p _ => ?_⟩
    rw [sum_share h.nodup]
    exact_mod_cast neg_neg_of_pos (Int.natCast_pos.2 (h.sum_pos hne))
  | succ k ih =>
    have hlevel := ih ⟨hfits.total, fun j hj => hfits.sums j (by omega)⟩
    obtain ⟨m, hm, -, hnext, hmost⟩ := h.call hne hlevel hfits
    rw [hnext]
    exact hlevel.turn h.share_pos (mem_toFinset.2 hm) hmost

theorem currentWeights_eq (h : Steady g now avail w) (hne : avail ≠ []) {k : ℕ} (hfits : Fits g now avail w k) (p : P) :
    (after g now k).currentWeights p =
      k * share avail w p - (avail.map w).sum * (Nat.count (fun j => picked g now j = some p) k : ℕ) := by
  induction k with
  | zero => simp [after]
  | succ k ih =>
    have hearlier : Fits g now avail w k := ⟨hfits.total, fun j hj => hfits.sums j (by omega)⟩
    obtain ⟨m, -, hpicked, hnext, -⟩ := h.call hne (h.level_after hne hearlier) hfits
    rw [hnext, turn, sum_share h.nodup, ih hearlier, Nat.count_succ, hpicked]
    by_cases hpm : p = m
    · subst hpm
      simp only [if_true]
      push_cast
      ring
    · have hmp : ¬ some m = some p := fun heq => hpm (Option.some.inj heq).symm
      rw [if_neg hpm, if_neg hmp]
      push_cast
      ring

/-- no sum of any call overflows if the number of peers times the sum of their weights fits an `int` -/
theorem fits_of_small (h : Steady g now avail w) (hne : avail ≠ [])
    (hsmall : (avail.length * (avail.map w).sum : ℤ) ≤ kIntMax) (n : ℕ) : Fits g now avail w n := by
  have hlength : (1 : ℤ) ≤ avail.length := by exact_mod_cast length_pos_iff.2 hne
  have htotal : ((avail.map w).sum : ℤ) ≤ kIntMax := by nlinarith
  induction n with
  | zero => exact ⟨htotal, fun k hk => absurd hk (Nat.not_lt_zero k)⟩
  | succ n ih =>
    refine ⟨htotal, fun k hk p hp => ?_⟩
    rcases Nat.lt_succ_iff_lt_or_eq.1 hk with hk | rfl
    · exact ih.sums k hk p hp
    · have hle := (h.level_after hne ih).le (mem_toFinset.2 hp)
      rw [sum_share h.nodup, toFinset_card_of_nodup h.nodup] at hle
      have hw : (w p : ℤ) ≤ (avail.map w).sum := by
        exact_mod_cast single_le_sum (fun _ _ => Nat.zero_le _) _ (mem_map_of_mem hp)
      linarith

theorem currentWeights_mul (h : Steady g now avail w) (hne : avail ≠ []) (hfits : ∀ n, Fits g now avail w n)
    (n : ℕ) (p : P) :
    (after g now (n * (avail.map w).sum)).currentWeights p = 0 := by
  have heq := h.currentWeights_eq hne (hfits (n * (avail.map w).sum))
  have hdvd : ∀ q, ((avail.map w).sum : ℤ) ∣ (after g now (n * (avail.map w).sum)).currentWeights q := by
    intro q
    rw [heq q, Nat.cast_mul, mul_comm (n : ℤ), mul_assoc]
    exact dvd_sub (dvd_mul_right _ _) (dvd_mul_right _ _)
  have hlevel := h.level_after hne (hfits (n * (avail.map w).sum))
  have hzero := hlevel.eq_zero (by rw [sum_share h.nodup]; exact fun q _ => hdvd q)
    (by rw [sum_share h.nodup]; exact_mod_cast h.sum_pos hne)
  by_cases hp : p ∈ avail
  · exact hzero p (mem_toFinset.2 hp)
  · -- a peer that is not available is never credited and never chosen
    have hnever : ∀ j, picked g now j ≠ some p := by
      intro j hj
      obtain ⟨m, hm, hpicked, -⟩ := h.call hne (h.level_after hne (hfits j)) (hfits (j + 1))
      rw [hpicked, Option.some.injEq] at hj
      exact hp (hj ▸ hm)
    simp [heq p, share, hp, hnever, Nat.count_eq_card_filter_range]

theorem after_add (h : Steady g now avail w) (hne : avail ≠ []) (hfits : ∀ n, Fits g now avail w n) (k : ℕ) :
    after g now ((avail.map w).sum + k) = after g now k := by
  induction k with
  | zero =>
    have hzero := h.currentWeights_mul hne hfits 1
    rw [one_mul] at hzero
    rw [add_zero, after, ← funext hzero]
  | succ k ih =>
    rw [← add_assoc, after, after, ih, h.select_eq_select _ ((avail.map w).sum + k) k]

end Steady

/-- **Exact shares.** Among the `W` calls from any call `a` on each peer is chosen as often as its weight says, and
after every multiple of `W` calls all running weights are 0. -/
theorem smooth_schedule_exact (h : Steady g now avail w) (hne : avail ≠ []) (hfits : ∀ n, Fits g now avail w n) :
    (∀ a, ∀ p ∈ avail, Nat.count (fun i => picked g now (a + i) = some p) (avail.map w).sum = w p) ∧
      ∀ n p, (after g now (n * (avail.map w).sum)).currentWeights p = 0 := by
  refine ⟨fun a p hp => ?_, h.currentWeights_mul hne hfits⟩
  have hfirst : Nat.count (fun i => picked g now i = some p) (avail.map w).sum = w p := by
    have heq := h.currentWeights_eq hne (hfits (avail.map w).sum) p
    have hzero := h.currentWeights_mul hne hfits 1 p
    rw [one_mul, heq, ← mul_sub, share, if_pos hp] at hzero
    rcases mul_eq_zero.1 hzero with hsum | hdiff
    · exact absurd hsum (by exact_mod_cast (h.sum_pos hne).ne')
    · omega
  have hrepeat : ∀ i, picked g now ((avail.map w).sum + i) = picked g now i := by
    intro i
    rw [picked, picked, h.after_add hne hfits, h.select_eq_select _ ((avail.map w).sum + i) i]
  -- the calls before `a + W`, counted from either end
  have hleft := Nat.count_add (fun i => picked g now i = some p) a (avail.map w).sum
  have hright := Nat.count_add (fun i => picked g now i = some p) (avail.map w).sum a
  simp only [hrepeat] at hright
  rw [add_comm a, hright, hfirst] at hleft
  omega

def pair : PeerGroup (Fin 2) where
  peers := [0, 1]
  config p := { name := [], host := [], port := 9000, weight := if p = 0 then 2 else 1 }
  state p := { effectiveWeight := if p = 0 then 2 else 1 }

theorem steady_pair : Steady (fun _ => pair) id [0, 1] fun p => if p = 0 then 2 else 1 where
  nodup := by decide
  available _ := rfl
  weight _ := by decide
  pos := by decide

theorem smooth_schedule_exact_pair :
    (∀ a, ∀ p ∈ [0, 1], Nat.count (fun i => picked (fun _ => pair) id (a + i) = some p) 3 = if p = 0 then 2 else 1) ∧
      ∀ n p, (after (fun _ => pair) id (n * 3)).currentWeights p = 0 :=
  smooth_schedule_exact steady_pair (by decide) (steady_pair.fits_of_small (by decide) (by decide))

end Coropact.Gateway.SmoothWeightedRoundRobinLB
