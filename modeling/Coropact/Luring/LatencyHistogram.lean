/-
The latency histogram of a loop (`RecordLatency` and `HistogramPercentileNs` in `src/luring/loop.cc`).

A sample is counted in the bucket of its logarithm, and a percentile is the upper end of the first bucket up to which
there are as many samples as its rank says. The counters have 64 bits; in the computation of a percentile a number that
does not fit gives no result, so that a result says that none has occurred.
-/
import Mathlib.Data.Nat.Log
import Mathlib.Tactic

namespace Coropact.Luring

open List Function

def kLatencyHistogramBucketCount : ℕ := 64

/-- the loop of `RecordLatency`, with the number of buckets that are left -/
def bucketOf : ℕ → ℕ → ℕ
  | 0, _ => 0
  | left + 1, value => if 1 < value then bucketOf left (value / 2) + 1 else 0

def recordLatency (histogram : ℕ → ℕ) (latency : ℕ) : ℕ → ℕ :=
  let bucket := bucketOf (kLatencyHistogramBucketCount - 1) latency
  update histogram bucket ((histogram bucket + 1) % 2 ^ 64)

def recordAll (l : List ℕ) : ℕ → ℕ := l.foldl recordLatency fun _ => 0

/-- a number, if it fits into 64 bits -/
def fits (x : ℕ) : Option ℕ := if x < 2 ^ 64 then some x else none

def upperEnd (bucket : ℕ) : ℕ := if 63 ≤ bucket then 2 ^ 64 - 1 else 2 ^ (bucket + 1)

/-- the loop over the buckets, with the number of those that are left -/
def scan (histogram : ℕ → ℕ) (rank : ℕ) : ℕ → ℕ → ℕ → Option ℕ
  | 0, _, _ => some (2 ^ 64 - 1)
  | left + 1, bucket, cumulative => do
    let cumulative ← fits (cumulative + histogram bucket)
    if rank ≤ cumulative then some (upperEnd bucket) else scan histogram rank left (bucket + 1) cumulative

def histogramPercentileNs (histogram : ℕ → ℕ) (samples percentile : ℕ) : Option ℕ :=
  if samples = 0 then some 0
  else do
    let whole ← fits (samples / 100 * percentile)
    let part ← fits (samples % 100 * percentile + 99)
    let rank ← fits (whole + part / 100)
    scan histogram (max 1 rank) kLatencyHistogramBucketCount 0 0

/-! ## Buckets -/

theorem bucketOf_eq {left value : ℕ} (h : value < 2 ^ (left + 1)) : bucketOf left value = Nat.log 2 value := by
  induction left generalizing value with
  | zero => exact (Nat.log_of_lt (by omega)).symm
  | succ left ih =>
    rw [bucketOf]
    split_ifs with hone
    · rw [ih (by omega), ← Nat.log_of_one_lt_of_le (by decide) hone]
    · exact (Nat.log_of_lt (by omega)).symm

theorem upperEnd_bounds {s : ℕ} (hs : s < 2 ^ 64) :
    s ≤ upperEnd (Nat.log 2 s) ∧ upperEnd (Nat.log 2 s) ≤ max 2 (2 * s) := by
  rcases Nat.eq_zero_or_pos s with rfl | hpos
  · decide
  have hlow : 2 ^ Nat.log 2 s ≤ s := Nat.pow_log_le_self 2 hpos.ne'
  have hhigh : s < 2 ^ (Nat.log 2 s + 1) := Nat.lt_pow_succ_log_self (by decide) s
  unfold upperEnd
  split_ifs with hlast
  · have hhalf : 2 ^ 63 ≤ s := (Nat.pow_le_pow_right (by decide) hlast).trans hlow
    omega
  · rw [pow_succ] at hhigh ⊢
    omega

section Samples

variable {l : List ℕ}

theorem recordAll_eq (h64 : ∀ x ∈ l, x < 2 ^ 64) (hfew : l.length < 2 ^ 64) (b : ℕ) :
    recordAll l b = l.countP (Nat.log 2 · = b) := by
  induction l using List.reverseRecOn with
  | nil => rfl
  | append_singleton l x ih =>
    rw [length_append, length_singleton] at hfew
    have hold := ih (fun y hy => h64 y (mem_append_left _ hy)) (by omega)
    have hx : bucketOf 63 x = Nat.log 2 x := bucketOf_eq (h64 x (by simp))
    have hle : l.countP (Nat.log 2 · = b) ≤ l.length := countP_le_length
    rw [recordAll, foldl_concat, ← recordAll, recordLatency, kLatencyHistogramBucketCount, hx, countP_append]
    by_cases hb : b = Nat.log 2 x
    · rw [← hb, update_self, hold, Nat.mod_eq_of_lt (by omega)]
      simp [hb]
    · rw [update_of_ne hb, hold]
      simp [Ne.symm hb]

/-- the search ends in the first bucket up to which there are as many samples as the rank says -/
theorem scan_eq {histogram : ℕ → ℕ} (hcount : ∀ b, histogram b = l.countP (Nat.log 2 · = b)) (hfew : l.length < 2 ^ 64)
    {rank b : ℕ} (hreached : rank ≤ l.countP (Nat.log 2 · ≤ b)) (hbefore : ∀ k < b, l.countP (Nat.log 2 · ≤ k) < rank)
    {left bucket : ℕ} (hlo : bucket ≤ b) (hhi : b < bucket + left) :
    scan histogram rank left bucket (l.countP (Nat.log 2 · < bucket)) = some (upperEnd b) := by
  induction left generalizing bucket with
  | zero => omega
  | succ left ih =>
    have hsum : l.countP (Nat.log 2 · < bucket) + histogram bucket = l.countP (Nat.log 2 · ≤ bucket) := by
      rw [hcount]
      clear hcount hfew hreached hbefore ih
      induction l with
      | nil => rfl
      | cons x l ih => simp only [countP_cons, decide_eq_true_eq]; split_ifs <;> omega
    have hle : l.countP (Nat.log 2 · ≤ bucket) ≤ l.length := countP_le_length
    rw [scan, hsum, fits, if_pos (by omega)]
    change (if _ then _ else _) = _
    rcases hlo.eq_or_lt with rfl | hlt
    · rw [if_pos hreached]
    · rw [if_neg (not_le.2 (hbefore bucket hlt))]
      simpa only [Nat.lt_succ_iff] using ih hlt (by omega)

/-- the least value that as many samples do not exceed as the percentile says -/
def NearestRank (l : List ℕ) (percentile s : ℕ) : Prop :=
  (l.length * percentile + 99) / 100 ≤ l.countP (· ≤ s) ∧
    ∀ v < s, l.countP (· ≤ v) < (l.length * percentile + 99) / 100

theorem NearestRank.mem {p s : ℕ} (h : NearestRank l p s) (hpos : 0 < l.length * p) : s ∈ l := by
  by_contra hs
  have hbelow : l.countP (· ≤ s) = l.countP (· < s) :=
    countP_congr fun x hx => by simpa using (ne_of_mem_of_not_mem hx hs).le_iff_lt
  obtain ⟨hreached, hleast⟩ := h
  rw [hbelow] at hreached
  cases s with
  | zero =>
    rw [countP_eq_zero.2 (by simp)] at hreached
    omega
  | succ s =>
    simp only [Nat.lt_succ_iff] at hreached
    exact absurd (hleast s s.lt_succ_self) hreached.not_gt

/-- **The accuracy of a percentile**, of fewer than 2 ^ 64 samples. -/
theorem latency_percentile (h64 : ∀ x ∈ l, x < 2 ^ 64) (hne : l ≠ []) (hfew : l.length < 2 ^ 64) {p : ℕ} (hp : 1 ≤ p)
    (hp' : p ≤ 100) : ∃ s ∈ l, NearestRank l p s ∧
      ∃ v, histogramPercentileNs (recordAll l) l.length p = some v ∧ s ≤ v ∧ v ≤ max 2 (2 * s) := by
  have hpos : 0 < l.length := length_pos_iff.2 hne
  have hone : l.length * 1 ≤ l.length * p := Nat.mul_le_mul_left _ hp
  have hall : l.length * p ≤ l.length * 100 := Nat.mul_le_mul_left _ hp'
  have hpart : l.length % 100 * p ≤ 99 * 100 := Nat.mul_le_mul (by omega) hp'
  have hsome : ∃ v, (l.length * p + 99) / 100 ≤ l.countP (· ≤ v) := by
    refine ⟨2 ^ 64, ?_⟩
    rw [countP_eq_length.2 fun x hx => decide_eq_true (h64 x hx).le]
    omega
  obtain ⟨s, hs⟩ : ∃ s, NearestRank l p s := 
    ⟨Nat.find hsome, Nat.find_spec hsome, fun v hv => not_le.1 (Nat.find_min hsome hv)⟩
  have hmem : s ∈ l := hs.mem (by omega)
  refine ⟨s, hmem, hs, upperEnd (Nat.log 2 s), ?_, upperEnd_bounds (h64 s hmem)⟩
  have hlast : Nat.log 2 s < 64 := Nat.log_lt_of_lt_pow' (by decide) (h64 s hmem)
  have hreached : (l.length * p + 99) / 100 ≤ l.countP (Nat.log 2 · ≤ Nat.log 2 s) :=
    hs.1.trans (countP_mono_left fun x _ hx => by simpa using Nat.log_mono_right (by simpa using hx))
  have hbefore : ∀ k < Nat.log 2 s, l.countP (Nat.log 2 · ≤ k) < (l.length * p + 99) / 100 := by
    intro k hk
    have hpow : 2 ^ (k + 1) ≤ s :=
      (Nat.pow_le_pow_right (by decide) hk).trans (Nat.pow_log_le_self 2 fun hzero => by simp [hzero] at hk)
    have hpos : 0 < 2 ^ (k + 1) := Nat.two_pow_pos _
    refine lt_of_le_of_lt (countP_mono_left fun x _ hx => ?_) (hs.2 (2 ^ (k + 1) - 1) (by omega))
    have hlog : Nat.log 2 x < k + 1 := Nat.lt_succ_of_le (by simpa using hx)
    have hlt := Nat.lt_pow_of_log_lt (by decide) hlog
    exact decide_eq_true (by omega)
  have hscan := scan_eq (recordAll_eq h64 hfew) hfew hreached hbefore (Nat.zero_le _) (by omega : _ < 0 + 64)
  have hzero : l.countP (Nat.log 2 · < 0) = 0 := by simp
  -- the split division gives the rank
  have hrank : l.length / 100 * p + (l.length % 100 * p + 99) / 100 = (l.length * p + 99) / 100 := by
    have hsplit : l.length * p + 99 = 100 * (l.length / 100 * p) + (l.length % 100 * p + 99) := by
      conv_lhs => rw [← Nat.div_add_mod l.length 100]
      ring
    rw [hsplit, Nat.mul_add_div (by decide)]
  rw [histogramPercentileNs, if_neg hpos.ne', fits, if_pos (by omega), fits, if_pos (by omega)]
  simp only [Option.bind_eq_bind, Option.bind_some, hrank]
  rw [fits, if_pos (by omega), Option.bind_some, max_eq_right (by omega), ← hscan, hzero]
  rfl

theorem latency_percentile_median : ∃ s ∈ [5, 700, 12], NearestRank [5, 700, 12] 50 s ∧
    ∃ v, histogramPercentileNs (recordAll [5, 700, 12]) 3 50 = some v ∧ s ≤ v ∧ v ≤ max 2 (2 * s) :=
  latency_percentile (by decide) (by decide) (by decide) (by decide) (by decide)

end Samples

/-- so many samples of one value leave the counter of the samples at zero -/
theorem samples_wrap :
    histogramPercentileNs (recordAll (List.replicate (2 ^ 64) 700)) (2 ^ 64 % 2 ^ 64) 50 = some 0 ∧
      NearestRank (List.replicate (2 ^ 64) 700) 50 700 := by
  refine ⟨rfl, ?_, fun v hv => ?_⟩
  · rw [length_replicate, countP_replicate]
    decide
  · rw [length_replicate, countP_replicate, if_neg (by simpa using hv)]
    decide

end Coropact.Luring
