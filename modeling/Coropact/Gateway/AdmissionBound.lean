/-
How many requests a token bucket lets through (`TokenBucket::TryConsume` in `include/coropact/gateway/rate_limiter.h`).

The calls come at times that never go back. Every refill is rounded down to units, so the calls of a stretch of time
take no more than what the bucket held at the first of them and what the rate brings from then on. A call that is
rejected stores the rounded refill too: what was cut off is lost unless every millisecond brings a whole number of
units.
-/
import Coropact.Gateway.RateLimiter

namespace Coropact.Gateway.TokenBucket

open List

def after (b : TokenBucket) (times : List ℕ) : TokenBucket := times.foldl (fun b now => (b.tryConsume now).2) b

/-- how many of the calls at these times are accepted and come between `t₁` and `t₂` -/
def accepted (b : TokenBucket) (t₁ t₂ : ℕ) : List ℕ → ℕ
  | [] => 0
  | now :: rest =>
    (if (b.tryConsume now).1 ∧ t₁ ≤ now ∧ now ≤ t₂ then 1 else 0) + accepted (b.tryConsume now).2 t₁ t₂ rest

/-- the units that a time brings before they are rounded down -/
def inflow (rate : ℚ) (ms : ℕ) : ℚ := ms * rate * kScale / 1000

variable {b : TokenBucket} {t₁ t₂ now : ℕ} {times : List ℕ}

theorem inflow_nonneg {rate : ℚ} (hrate : 0 ≤ rate) (ms : ℕ) : 0 ≤ inflow rate ms := by
  unfold inflow
  positivity

theorem inflow_add (rate : ℚ) (a b : ℕ) : inflow rate (a + b) = inflow rate a + inflow rate b := by
  unfold inflow
  push_cast
  ring

theorem newTokens_le_burst (hburst : 0 ≤ b.burst) : (b.newTokens now : ℚ) ≤ b.burst * kScale := by
  have hle : b.newTokens now ≤ b.burstScaled := by
    rw [newTokens_eq]
    exact min_le_right _ _
  calc (b.newTokens now : ℚ) ≤ b.burstScaled := by exact_mod_cast hle
    _ ≤ b.burst * kScale := Nat.floor_le (by positivity)

theorem newTokens_le_inflow (hrate : 0 ≤ b.rate) :
    (b.newTokens now : ℚ) ≤ b.scaledTokens + inflow b.rate (now - b.lastRefillMs) := by
  have hle : b.newTokens now ≤ b.scaledTokens + b.refill (now - b.lastRefillMs) := by
    rw [newTokens_eq]
    exact min_le_left _ _
  calc (b.newTokens now : ℚ) ≤ b.scaledTokens + b.refill (now - b.lastRefillMs) := by exact_mod_cast hle
    _ ≤ b.scaledTokens + inflow b.rate (now - b.lastRefillMs) := by
      gcongr
      exact Nat.floor_le (inflow_nonneg hrate _)

theorem taken_le (b : TokenBucket) (t₁ t₂ now : ℕ) :
    (kScale * (if (b.tryConsume now).1 ∧ t₁ ≤ now ∧ now ≤ t₂ then 1
      else 0 : ℕ) + (b.tryConsume now).2.scaledTokens : ℚ) ≤
      b.newTokens now := by
  norm_cast
  unfold tryConsume
  by_cases hfew : b.newTokens now < kScale
  · simp [hfew]
  · simp only [hfew, if_false]
    split_ifs <;> omega

theorem accepted_eq_zero (h : ∀ t ∈ times, t₂ < t) : b.accepted t₁ t₂ times = 0 := by
  induction times generalizing b with
  | nil => rfl
  | cons now rest ih =>
    obtain ⟨hnow, hrest⟩ := forall_mem_cons.1 h
    rw [accepted, ih hrest, if_neg (by omega)]

/-- from a call on, no more units are taken than the bucket holds in that call and the rate brings afterwards -/
theorem spent_le (hrate : 0 ≤ b.rate) (hsorted : (now :: times).Pairwise (· ≤ ·)) (hnow : now ≤ t₂) :
    (kScale * b.accepted t₁ t₂ (now :: times) : ℚ) ≤ b.newTokens now + inflow b.rate (t₂ - now) := by
  induction times generalizing b now with
  | nil =>
    have htaken := taken_le b t₁ t₂ now
    have hnonneg := inflow_nonneg hrate (t₂ - now)
    rw [accepted, accepted, add_zero]
    linarith
  | cons next rest ih =>
    have htaken := taken_le b t₁ t₂ now
    have hnonneg := inflow_nonneg hrate (t₂ - now)
    obtain ⟨hfirst, hrest⟩ := pairwise_cons.1 hsorted
    have hle : now ≤ next := hfirst next mem_cons_self
    rw [accepted, Nat.cast_add, mul_add]
    rcases le_or_gt next t₂ with hnext | hnext
    · have hspent := ih (b := (b.tryConsume now).2) (by rwa [rate_tryConsume]) hrest hnext
      have hheld := @newTokens_le_inflow (b.tryConsume now).2 next (by rwa [rate_tryConsume])
      rw [rate_tryConsume] at hspent hheld
      rw [lastRefillMs_tryConsume] at hheld
      have hsplit := inflow_add b.rate (next - now) (t₂ - next)
      rw [show next - now + (t₂ - next) = t₂ - now by omega] at hsplit
      linarith
    · have hlate : ∀ t ∈ next :: rest, t₂ < t :=
        forall_mem_cons.2 ⟨hnext, fun t ht => hnext.trans_le ((pairwise_cons.1 hrest).1 t ht)⟩
      rw [accepted_eq_zero hlate, Nat.cast_zero]
      linarith

theorem accepted_le (hrate : 0 ≤ b.rate) (hburst : 0 ≤ b.burst) (hsorted : times.Pairwise (· ≤ ·)) (hle : t₁ ≤ t₂) :
    (kScale * b.accepted t₁ t₂ times : ℚ) ≤ b.burst * kScale + inflow b.rate (t₂ - t₁) := by
  have hnonneg := inflow_nonneg hrate (t₂ - t₁)
  have hscale : (0 : ℚ) ≤ b.burst * kScale := by positivity
  induction times generalizing b with
  | nil =>
    rw [accepted, Nat.cast_zero]
    linarith
  | cons now rest ih =>
    obtain ⟨hfirst, hrest⟩ := pairwise_cons.1 hsorted
    rcases lt_or_ge now t₁ with hearly | hin
    · -- a call before the stretch is not counted
      have hlater := ih (b := (b.tryConsume now).2)
      simp only [rate_tryConsume, burst_tryConsume] at hlater
      rw [accepted, if_neg (by omega), zero_add]
      exact hlater hrate hburst hrest hnonneg hscale
    · rcases le_or_gt now t₂ with hnow | hlate
      · have hspent : (kScale * b.accepted t₁ t₂ (now :: rest) : ℚ) ≤ _ := spent_le hrate hsorted hnow
        have hheld := @newTokens_le_burst b now hburst
        have hsplit := inflow_add b.rate (now - t₁) (t₂ - now)
        rw [show now - t₁ + (t₂ - now) = t₂ - t₁ by omega] at hsplit
        have hbefore := inflow_nonneg hrate (now - t₁)
        linarith
      · rw [accepted_eq_zero (forall_mem_cons.2 ⟨hlate, fun t ht => hlate.trans_le (hfirst t ht)⟩)]
        rw [Nat.cast_zero]
        linarith

theorem scaledTokens_after (hburst : 0 ≤ b.burst) (hb : (b.scaledTokens : ℚ) ≤ b.burst * kScale) (times : List ℕ) :
    ((b.after times).scaledTokens : ℚ) ≤ b.burst * kScale := by
  induction times generalizing b with
  | nil => exact hb
  | cons now rest ih =>
    have htaken := taken_le b 0 now now
    have hle : ((b.tryConsume now).2.scaledTokens : ℚ) ≤ b.newTokens now :=
      (le_add_of_nonneg_left (by positivity)).trans htaken
    have hnext := ih (b := (b.tryConsume now).2)
    rw [burst_tryConsume] at hnext
    exact hnext hburst (hle.trans (newTokens_le_burst hburst))

/-- **The bound on admission.** -/
theorem admission_bound {rate burst : ℚ} (hrate : 0 ≤ rate) (hburst : 0 ≤ burst) (start : ℕ) (times : List ℕ)
    (hsorted : times.Pairwise (· ≤ ·)) :
    (((make rate burst start).after times).scaledTokens : ℚ) ≤ burst * kScale ∧
      ∀ t₁ t₂, t₁ ≤ t₂ →
        ((make rate burst start).accepted t₁ t₂ times : ℚ) ≤ burst + rate * (t₂ - t₁ : ℕ) / 1000 := by
  refine ⟨scaledTokens_after (b := make rate burst start) hburst (Nat.floor_le (by positivity)) times,
    fun t₁ t₂ hle => ?_⟩
  have hunits := accepted_le (b := make rate burst start) hrate hburst hsorted hle
  have hinflow : inflow rate (t₂ - t₁) = rate * (t₂ - t₁ : ℕ) / 1000 * kScale := by
    unfold inflow
    ring
  have hscale : (0 : ℚ) < kScale := by norm_num [kScale]
  change _ ≤ burst * kScale + inflow rate (t₂ - t₁) at hunits
  rw [hinflow, ← add_mul, mul_comm] at hunits
  exact le_of_mul_le_mul_right hunits hscale

/-- a bucket of two tokens and one per second, called four times within a second -/
theorem admission_bound_fourCalls :
    ((make 1 2 0).after [0, 0, 500, 1000]).scaledTokens ≤ (2 : ℚ) * kScale ∧ ∀ t₁ t₂, t₁ ≤ t₂ →
      ((make 1 2 0).accepted t₁ t₂ [0, 0, 500, 1000] : ℚ) ≤ 2 + 1 * (t₂ - t₁ : ℕ) / 1000 :=
  admission_bound (by norm_num) (by norm_num) 0 _ (by decide)

/-! ## Rejected calls -/

def outcomes (b : TokenBucket) : List ℕ → List Bool
  | [] => []
  | now :: rest => (b.tryConsume now).1 :: outcomes (b.tryConsume now).2 rest

theorem outcomes_append (b : TokenBucket) (l r : List ℕ) :
    b.outcomes (l ++ r) = b.outcomes l ++ (b.after l).outcomes r := by
  induction l generalizing b with
  | nil => rfl
  | cons now l ih => exact congrArg ((b.tryConsume now).1 :: ·) (ih _)

theorem length_outcomes (b : TokenBucket) (l : List ℕ) : (b.outcomes l).length = l.length := by
  induction l generalizing b with
  | nil => rfl
  | cons now l ih => rw [outcomes, length_cons, ih, length_cons]

theorem outcomes_congr {b' : TokenBucket} (hrate : b.rate = b'.rate) (hburst : b.burst = b'.burst)
    (htokens : ∀ t ∈ times, b.newTokens t = b'.newTokens t) : b.outcomes times = b'.outcomes times := by
  cases times with
  | nil => rfl
  | cons now rest =>
    rw [outcomes, outcomes, tryConsume_congr hrate hburst (htokens now mem_cons_self)]

@[simp] theorem rate_after (b : TokenBucket) (times : List ℕ) : (b.after times).rate = b.rate := by
  induction times generalizing b with
  | nil => rfl
  | cons now rest ih => exact (ih _).trans (rate_tryConsume b now)

@[simp] theorem burst_after (b : TokenBucket) (times : List ℕ) : (b.after times).burst = b.burst := by
  induction times generalizing b with
  | nil => rfl
  | cons now rest ih => exact (ih _).trans (burst_tryConsume b now)

theorem refill_of_whole {units : ℕ} (hwhole : b.rate * 1000 = units) (ms : ℕ) : b.refill ms = units * ms := by
  have hunits : (ms : ℚ) * b.rate * kScale / 1000 = (units * ms : ℕ) := by
    push_cast
    rw [← hwhole, show (kScale : ℚ) = 1000 * 1000 by norm_num [kScale]]
    ring
  rw [refill, hunits, Nat.floor_natCast]

/-- the time of the last call is not ahead, or the bucket is full anyway -/
def Ready (b : TokenBucket) (now : ℕ) : Prop := b.lastRefillMs ≤ now ∨ b.scaledTokens = b.burstScaled

theorem ready_after (rate burst : ℚ) (start : ℕ) (hlate : ∀ t ∈ times, t ≤ now) :
    ((make rate burst start).after times).Ready now := by
  induction times using List.reverseRecOn with
  | nil => exact .inr rfl
  | append_singleton times t _ =>
    rw [after, foldl_concat]
    exact .inl ((lastRefillMs_tryConsume _ t).trans_le (hlate t (by simp)))

/-- **A rejected call keeps the progress of the refill**, if none is cut off. -/
theorem newTokens_rejected {units : ℕ} (hwhole : b.rate * 1000 = units) (hready : b.Ready now)
    (hrejected : (b.tryConsume now).1 = false) {t : ℕ} (hle : now ≤ t) :
      (b.tryConsume now).2.newTokens t = b.newTokens t := by
  have hfew : b.newTokens now < kScale := by
    by_contra hmany
    simp [tryConsume, hmany] at hrejected
  have hkept : (b.tryConsume now).2 = { b with lastRefillMs := now, scaledTokens := b.newTokens now } := by
    simp [tryConsume, hfew]
  rw [hkept, newTokens_eq,
    refill_of_whole (b := { b with lastRefillMs := now, scaledTokens := b.newTokens now }) hwhole,
    newTokens_eq, newTokens_eq, refill_of_whole hwhole, refill_of_whole hwhole]
  change min (min (b.scaledTokens + units * (now - b.lastRefillMs)) b.burstScaled + units * (t - now)) b.burstScaled = _
  rcases hready with hlast | hfull
  · have hsplit : units * (t - b.lastRefillMs) = units * (now - b.lastRefillMs) + units * (t - now) := by
      rw [← mul_add]
      congr 1
      omega
    omega
  · omega

/-- **Rejected calls are free** where each millisecond brings a whole number of units: the bucket refills as if the call
had not been made, and every other call has the answer it has without it. -/
theorem rejected_calls_free {rate burst : ℚ} (_hrate : 0 < rate) (_hburst : 0 < burst) {units : ℕ}
    (hwhole : rate * 1000 = units) (start : ℕ) (l r : List ℕ) (now : ℕ) (hsorted : (l ++ now :: r).Pairwise (· ≤ ·))
    (hrejected : (((make rate burst start).after l).tryConsume now).1 = false) :
    (∀ t, now ≤ t →
      (((make rate burst start).after l).tryConsume now).2.newTokens t =
        ((make rate burst start).after l).newTokens t) ∧
      (make rate burst start).outcomes
        (l ++ r) = ((make rate burst start).outcomes (l ++ now :: r)).eraseIdx l.length := by
  obtain ⟨-, hlater, hbefore⟩ := pairwise_append.1 hsorted
  have hready : ((make rate burst start).after l).Ready now :=
    ready_after rate burst start fun t ht => hbefore t ht now mem_cons_self
  have hkept : ∀ t, now ≤ t → (((make rate burst start).after l).tryConsume now).2.newTokens t =
      ((make rate burst start).after l).newTokens t := fun t ht =>
    newTokens_rejected (by rw [rate_after]; exact hwhole) hready hrejected ht
  refine ⟨hkept, ?_⟩
  rw [outcomes_append, outcomes_append, outcomes, ← length_outcomes (make rate burst start) l,
    eraseIdx_append_of_length_le le_rfl,
    Nat.sub_self, eraseIdx_cons_zero]
  exact congrArg _ (outcomes_congr (by simp) (by simp) fun t ht => (hkept t ((pairwise_cons.1 hlater).1 t ht)).symm)

/-- one token per second, polled twice while it is empty -/
theorem rejected_calls_free_polled :
    (∀ t, 500 ≤ t →
      (((make 1 1 0).after [0]).tryConsume 500).2.newTokens t = ((make 1 1 0).after [0]).newTokens t) ∧
      (make 1 1 0).outcomes ([0] ++ [700, 1000]) = ((make 1 1 0).outcomes ([0] ++ 500 :: [700, 1000])).eraseIdx 1 := by
  have hwhole : (1 : ℚ) * 1000 = (1000 : ℕ) := by norm_num
  exact rejected_calls_free (by norm_num) (by norm_num) hwhole 0 [0] [700, 1000] 500 (by decide) (by decide +kernel)

/-- a third of a token and half a unit per millisecond: polled at 1 and 2, the bucket has no token at 3; without the
second poll it has one -/
theorem rejected_call_delays :
    ((make (666667 / 2000) 1 0).outcomes [0, 1, 2, 3]) = [true, false, false, false] ∧
      (make (666667 / 2000) 1 0).outcomes [0, 1, 3] = [true, false, true] := by
  constructor <;> decide +kernel

end Coropact.Gateway.TokenBucket
