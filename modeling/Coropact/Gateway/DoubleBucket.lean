/-
Token buckets in the arithmetic of the machine (`TokenBucket` in `include/coropact/gateway/rate_limiter.h`).

The operations are those of `TokenBucket`; every operation on doubles is rounded, the sum of tokens wraps at 64 bits,
and a conversion to `uint64_t` that does not fit may give anything. `Doubles` asks of the rounding what the doubles of
IEEE 754 have.
-/
import Coropact.Gateway.GatewayConfig
import Coropact.Gateway.RateLimiter

namespace Coropact.Gateway

open List

/-! ## Model -/

/-- the arithmetic of doubles, as far as the bucket needs it -/
structure Doubles where
  round : ℚ → ℚ
  near : ∀ x, 0 ≤ x → x < 2 ^ 100 → |round x - x| ≤ (x + 1) / 2 ^ 52
  mono : Monotone round
  round_nat : ∀ n : ℕ, n ≤ 2 ^ 53 → round n = n
  /-- what a conversion to `uint64_t` gives that does not fit -/
  outOfRange : ℚ → ℕ

def Doubles.toUint64 (D : Doubles) (x : ℚ) : ℕ := if -1 < x ∧ x < 2 ^ 64 then ⌊x⌋₊ else D.outOfRange x

structure DoubleBucket (D : Doubles) where
  lastRefillMs : ℕ
  scaledTokens : ℕ
  rate : ℚ
  burst : ℚ

namespace DoubleBucket

variable {D : Doubles} {b : DoubleBucket D} {rate burst : ℚ} {now ms : ℕ}

def make (rate burst : ℚ) (now : ℕ) : DoubleBucket D where
  lastRefillMs := now
  scaledTokens := D.toUint64 (D.round (burst * kScale))
  rate := rate
  burst := burst

def burstScaled (b : DoubleBucket D) : ℕ := D.toUint64 (D.round (b.burst * kScale))

/-- `elasped * rate_ * kScale / 1000.0` -/
def units (D : Doubles) (rate : ℚ) (ms : ℕ) : ℚ := D.round (D.round (D.round (D.round ms * rate) * kScale) / 1000)

def refill (b : DoubleBucket D) (ms : ℕ) : ℕ := D.toUint64 (units D b.rate ms)

def newTokens (b : DoubleBucket D) (now : ℕ) : ℕ :=
  let elapsed := if b.lastRefillMs < now then now - b.lastRefillMs else 0
  let tokens := (b.scaledTokens + b.refill elapsed) % 2 ^ 64
  if b.burstScaled < tokens then b.burstScaled else tokens

def tryConsume (b : DoubleBucket D) (now : ℕ) : Bool × DoubleBucket D :=
  if b.newTokens now < kScale then (false, { b with lastRefillMs := now, scaledTokens := b.newTokens now })
  else (true, { b with lastRefillMs := now, scaledTokens := b.newTokens now - kScale })

def after (b : DoubleBucket D) (times : List ℕ) : DoubleBucket D := times.foldl (fun b now => (b.tryConsume now).2) b

/-! ## Within the range -/

/-- a time whose refill is far from 64 bits -/
structure Reach (rate : ℚ) (ms : ℕ) : Prop where
  time : ms ≤ 2 ^ 53
  units : ms * rate * 1000 ≤ 2 ^ 62

theorem round_nonneg {x : ℚ} (hx : 0 ≤ x) : 0 ≤ D.round x := by
  have hzero := D.round_nat 0 (by norm_num)
  rw [Nat.cast_zero] at hzero
  exact hzero ▸ D.mono hx

theorem near_le {x : ℚ} (hx : 0 ≤ x) (hlt : x < 2 ^ 100) :
    D.round x ≤ x + (x + 1) / 2 ^ 52 ∧ x - (x + 1) / 2 ^ 52 ≤ D.round x := by
  obtain ⟨hlow, hhigh⟩ := abs_le.1 (D.near x hx hlt)
  exact ⟨by linarith, by linarith⟩

/-- three roundings, the first factor being exact -/
theorem units_near (hrate : 0 ≤ rate) (h : Reach rate ms) : 0 ≤ units D rate ms ∧
    units D rate ms ≤ ms * rate * 1000 + ms * rate * 1000 / 2 ^ 49 + 1 ∧
      ms * rate * 1000 - ms * rate * 1000 / 2 ^ 49 - 1 ≤ units D rate ms := by
  have hunits := h.units
  have h0 : 0 ≤ (ms : ℚ) * rate := by positivity
  have hx := round_nonneg (D := D) h0
  have hy : 0 ≤ D.round (D.round (ms * rate) * 1000000) := round_nonneg (by linarith)
  obtain ⟨hx1, hx2⟩ := near_le (D := D) h0 (by linarith)
  obtain ⟨hy1, hy2⟩ := near_le (D := D) (x := D.round (ms * rate) * 1000000) (by linarith) (by linarith)
  obtain ⟨hz1, hz2⟩ := near_le (D := D) (x := D.round (D.round (ms * rate) * 1000000) / 1000)
    (by linarith) (by linarith)
  rw [units, D.round_nat ms h.time, show (kScale : ℚ) = 1000000 by norm_num [kScale]]
  exact ⟨round_nonneg (by linarith), by linarith, by linarith⟩

theorem toUint64_of_range {x : ℚ} (hx : 0 ≤ x) (hlt : x < 2 ^ 64) : D.toUint64 x = ⌊x⌋₊ :=
  if_pos ⟨by linarith, hlt⟩

theorem refill_near (hrate : 0 ≤ b.rate) (h : Reach b.rate ms) :
    (b.refill ms : ℚ) ≤ ms * b.rate * 1000 + ms * b.rate * 1000 / 2 ^ 49 + 1 ∧
      ms * b.rate * 1000 - ms * b.rate * 1000 / 2 ^ 49 - 2 ≤ (b.refill ms : ℚ) := by
  obtain ⟨hpos, hhigh, hlow⟩ := units_near (D := D) hrate h
  have hunits := h.units
  rw [refill, toUint64_of_range hpos (by linarith)]
  have hfloor := Nat.lt_floor_add_one (units D b.rate ms)
  exact ⟨(Nat.floor_le hpos).trans hhigh, by linarith⟩

theorem refill_lt (hrate : 0 ≤ b.rate) (h : Reach b.rate ms) : b.refill ms < 2 ^ 63 := by
  have hunits := h.units
  have hhigh := (refill_near hrate h).1
  have hlt : (b.refill ms : ℚ) < (2 ^ 63 : ℕ) := by
    push_cast
    linarith
  exact_mod_cast hlt

theorem burstScaled_lt (h0 : 0 ≤ b.burst) (hburst : b.burst ≤ 2 ^ 42) : b.burstScaled < 2 ^ 63 := by
  have hscale : (kScale : ℚ) = 1000000 := by norm_num [kScale]
  have hx : 0 ≤ b.burst * kScale := by positivity
  obtain ⟨hhigh, -⟩ := near_le (D := D) hx (by rw [hscale]; linarith)
  rw [hscale] at hhigh
  rw [burstScaled, toUint64_of_range (round_nonneg hx) (by rw [hscale]; linarith), hscale]
  refine (Nat.floor_lt (round_nonneg (by linarith))).2 ?_
  push_cast
  linarith

theorem le_burstScaled (hone : 1 ≤ b.burst) (hburst : b.burst ≤ 2 ^ 42) : kScale ≤ b.burstScaled := by
  have hscale : (kScale : ℚ) = 1000000 := by norm_num [kScale]
  have hx : (kScale : ℚ) ≤ b.burst * kScale := le_mul_of_one_le_left (Nat.cast_nonneg _) hone
  obtain ⟨hhigh, -⟩ := near_le (D := D) (x := b.burst * kScale) (by linarith) (by rw [hscale]; linarith)
  rw [hscale] at hhigh
  have hmono := D.mono hx
  rw [D.round_nat kScale (by decide)] at hmono
  rw [burstScaled, toUint64_of_range (by linarith) (by rw [hscale]; linarith)]
  exact Nat.le_floor hmono

theorem newTokens_eq (htokens : b.scaledTokens ≤ b.burstScaled) (hburst : b.burstScaled < 2 ^ 63)
    (hrefill : b.refill (now - b.lastRefillMs) < 2 ^ 63) :
    b.newTokens now = min (b.scaledTokens + b.refill (now - b.lastRefillMs)) b.burstScaled := by
  have helapsed : (if b.lastRefillMs < now then now - b.lastRefillMs else 0) = now - b.lastRefillMs := by
    split_ifs <;> omega
  rw [newTokens, helapsed]
  split_ifs <;> omega

theorem newTokens_le (b : DoubleBucket D) (now : ℕ) : b.newTokens now ≤ b.burstScaled := by
  unfold newTokens
  dsimp only
  split_ifs <;> omega

theorem tryConsume_allowed (b : DoubleBucket D) (now : ℕ) : (b.tryConsume now).1 = true ↔ kScale ≤ b.newTokens now := by
  unfold tryConsume
  split_ifs with h
  · simpa using h
  · simpa using h

/-- what a call leaves -/
theorem tryConsume_eq (b : DoubleBucket D) (now : ℕ) : (b.tryConsume now).2 = { b with
    lastRefillMs := now
    scaledTokens := b.newTokens now - if (b.tryConsume now).1 then kScale else 0 } := by
  by_cases h : b.newTokens now < kScale
  · have hcall : b.tryConsume now = (false, { b with lastRefillMs := now, scaledTokens := b.newTokens now }) := if_pos h
    rw [hcall]
    rfl
  · have hcall : b.tryConsume now = (true, { b with lastRefillMs := now, scaledTokens := b.newTokens now - kScale }) :=
      if_neg h
    rw [hcall]
    rfl

/-! ## Limits that are accepted -/

theorem after_make (rate burst : ℚ) (start : ℕ) (times : List ℕ) :
    let b := (make rate burst start : DoubleBucket D).after times
    b.rate = rate ∧ b.burst = burst ∧ b.scaledTokens ≤ b.burstScaled := by
  induction times using List.reverseRecOn with
  | nil => exact ⟨rfl, rfl, le_rfl⟩
  | append_singleton times now ih =>
    obtain ⟨hrate, hburst, -⟩ := ih
    rw [after, foldl_concat, ← after, tryConsume_eq]
    exact ⟨hrate, hburst, (Nat.sub_le _ _).trans (newTokens_le _ _)⟩

/-- after a time that brings two tokens there is one -/
theorem tryConsume_refilled (htokens : b.scaledTokens ≤ b.burstScaled) (hone : 1 ≤ b.burst) (hburst : b.burst ≤ 2 ^ 42)
    (hrate : 0 ≤ b.rate) (hreach : Reach b.rate ms) (htwo : 2000 ≤ ms * b.rate) :
    (b.tryConsume (b.lastRefillMs + ms)).1 = true := by
  have hlast : b.lastRefillMs + ms - b.lastRefillMs = ms := by omega
  have hrefill := refill_lt hrate hreach
  have hlow := (refill_near hrate hreach).2
  have hunits : kScale ≤ b.refill ms := by
    have hle : ((kScale : ℕ) : ℚ) ≤ b.refill ms := by
      rw [show (kScale : ℚ) = 1000000 by norm_num [kScale]]
      linarith
    exact_mod_cast hle
  rw [tryConsume_allowed, newTokens_eq htokens (burstScaled_lt (by linarith) hburst) (by rwa [hlast]), hlast]
  exact le_min (by omega) (le_burstScaled hone hburst)

/-- rates and bursts far from the ends of 64 bits, and one token at least -/
structure Moderate (rate burst : ℚ) : Prop where
  one_le : 1 ≤ burst
  burst_le : burst ≤ 2 ^ 42
  le_rate : 1 / 2 ^ 41 ≤ rate
  rate_le : rate ≤ 2 ^ 51

/-- **A limit admits a request in the end**: from some waiting time on, as long as the refill is far from 64 bits. -/
theorem accepted_limit_admits (D : Doubles) {rate burst : ℚ} (h : Moderate rate burst) (start : ℕ) (times : List ℕ) :
    ∃ wait, Reach rate wait ∧ ∀ ms, wait ≤ ms → Reach rate ms →
      let b := (make rate burst start : DoubleBucket D).after times
      (b.tryConsume (b.lastRefillMs + ms)).1 = true := by
  obtain ⟨hone, hburst, hslow, hfast⟩ := h
  have hpos : 0 < rate := lt_of_lt_of_le (by norm_num) hslow
  have htwo : 2000 / rate * rate = 2000 := div_mul_cancel₀ _ hpos.ne'
  refine ⟨⌈2000 / rate⌉₊, ⟨?_, ?_⟩, fun ms hms hreach => ?_⟩
  · refine Nat.ceil_le.2 ((div_le_iff₀ hpos).2 ?_)
    push_cast
    linarith
  · have hceil := (Nat.ceil_lt_add_one (div_nonneg (by norm_num) hpos.le : 0 ≤ 2000 / rate)).le
    have hmul := mul_le_mul_of_nonneg_right hceil hpos.le
    rw [add_mul, htwo] at hmul
    linarith
  · obtain ⟨hrate', hburst', htokens⟩ := after_make (D := D) rate burst start times
    have hwait : 2000 ≤ ms * rate := by
      rw [← htwo]
      exact mul_le_mul_of_nonneg_right (Nat.ceil_le.1 hms) hpos.le
    refine tryConsume_refilled htokens ?_ ?_ ?_ ?_ ?_
    · rwa [hburst']
    · rwa [hburst']
    · rw [hrate']
      exact hpos.le
    · rwa [hrate']
    · rwa [hrate']

/-- doubles that are never rounded -/
def exactDoubles : Doubles where
  round := id
  near := fun x hx _ => by
    rw [id, sub_self, abs_zero]
    positivity
  mono := monotone_id
  round_nat := fun _ _ => rfl
  outOfRange := fun _ => 0

theorem accepted_limit_admits_two : Moderate 1 2 ∧ ∃ wait, Reach 1 wait ∧ ∀ ms, wait ≤ ms → Reach 1 ms →
    let b := (make 1 2 0 : DoubleBucket exactDoubles).after [0, 0, 500]
    (b.tryConsume (b.lastRefillMs + ms)).1 = true := by
  have hmoderate : Moderate 1 2 := ⟨by norm_num, by norm_num, by norm_num, by norm_num⟩
  exact ⟨hmoderate, accepted_limit_admits exactDoubles hmoderate 0 _⟩

/-- a configuration whose limit for all clients has this rate and burst -/
def limited (rate burst : ℚ) : GatewayConfig where
  rateLimit := { «global» := { enabled := true, rate := .finite rate, burst := .finite burst } }

/-- a limit of half a token is accepted and refuses every request -/
theorem accepted_limit_starves : validateGatewayConfig (limited 1 (1 / 2)) = .ok () ∧ ∀ (D : Doubles) start times now,
    (((make 1 (1 / 2) start : DoubleBucket D).after times).tryConsume now).1 = false := by
  refine ⟨by decide +kernel, fun D start times now => ?_⟩
  obtain ⟨-, hburst, -⟩ := after_make (D := D) 1 (1 / 2) start times
  have hscaled : ((make 1 (1 / 2) start : DoubleBucket D).after times).burstScaled = 500000 := by
    have hround : D.round (1 / 2 * kScale) = 500000 := by
      rw [show (1 / 2 * kScale : ℚ) = (500000 : ℕ) by norm_num [kScale], D.round_nat _ (by norm_num)]
      rfl
    rw [burstScaled, hburst, hround, toUint64_of_range (by norm_num) (by norm_num)]
    exact Nat.floor_ofNat 500000
  have hle := newTokens_le ((make 1 (1 / 2) start : DoubleBucket D).after times) now
  rw [← Bool.not_eq_true, tryConsume_allowed, not_le, show kScale = 1000000 from rfl]
  omega

end DoubleBucket

end Coropact.Gateway
