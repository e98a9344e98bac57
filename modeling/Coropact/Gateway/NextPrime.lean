/-
`IsPrime` and `NextPrime` of the Maglev balancer (`include/coropact/gateway/load_balancer.h`) in 64-bit arithmetic.

A sum that does not fit into a `size_t` gives no result, and neither does a loop that has not ended when the fuel is
used up. So a result says that nothing has wrapped around and that the loops have ended.
-/
import Coropact.Gateway.MaglevHash
import Mathlib.Order.Bounds.Basic

namespace Coropact.Gateway.MaglevHashLB

/-- a `size_t`, if the number fits into one -/
def word (x : ℕ) : Option ℕ := if x < 2 ^ 64 then some x else none

theorem word_of_lt {x : ℕ} (h : x < 2 ^ 64) : word x = some x := if_pos h

/-- the loop of `IsPrime` from the divisor `d` on -/
def isPrimeFrom64 (num : ℕ) : ℕ → ℕ → Option Bool
  | 0, _ => none
  | fuel + 1, d =>
    if d ≤ num / d then
      (word (d + 2)).bind fun e =>
        if num % d = 0 ∨ num % e = 0 then some false else (word (d + 6)).bind (isPrimeFrom64 num fuel)
    else some true

def isPrime64 (num : ℕ) : Option Bool :=
  if num < 2 then some false
  else if num = 2 ∨ num = 3 then some true
  else if num % 2 = 0 ∨ num % 3 = 0 then some false
  else isPrimeFrom64 num num 5

/-- the loop of `NextPrime` -/
def nextPrimeFrom64 : ℕ → ℕ → Option ℕ
  | 0, _ => none
  | fuel + 1, num =>
    (isPrime64 num).bind fun prime => if prime then some num else (word (num + 2)).bind (nextPrimeFrom64 fuel)

def nextPrime64 (num : ℕ) : Option ℕ :=
  if num ≤ 2 then some 2
  else (if num % 2 = 0 then word (num + 1) else some num).bind fun num => nextPrimeFrom64 num num

variable {num fuel : ℕ}

theorem isPrimeFrom64_eq (hnum : num < 2 ^ 64) {d : ℕ} (hd : 2 ≤ d) (hpos : 0 < fuel) (hfuel : num < fuel + d) :
    isPrimeFrom64 num fuel d = some (isPrimeFrom num fuel d) := by
  induction fuel generalizing d with
  | zero => exact absurd hpos (lt_irrefl 0)
  | succ fuel ih =>
    rw [isPrimeFrom64, isPrimeFrom]
    by_cases hmore : d ≤ num / d
    · have hsquare : d * d ≤ num := (Nat.le_div_iff_mul_le (by omega)).1 hmore
      have hsmall : d < 2 ^ 32 := by nlinarith
      have hdouble : 2 * d ≤ d * d := Nat.mul_le_mul_right d hd
      rw [if_pos hmore, if_pos hmore, word_of_lt (by omega), word_of_lt (by omega), Option.bind_some, Option.bind_some]
      split_ifs
      · rfl
      · exact ih (by omega) (by omega) (by omega)
    · rw [if_neg hmore, if_neg hmore]

theorem isPrime64_eq (hnum : num < 2 ^ 64) : isPrime64 num = some (isPrime num) := by
  unfold isPrime64 isPrime
  split_ifs with hsmall
  · rfl
  · rfl
  · rfl
  · exact isPrimeFrom64_eq hnum (by omega) (by omega) (by omega)

theorem nextPrimeFrom64_eq {k : ℕ} (hk : k < fuel) (hprime : (num + 2 * k).Prime) (hfits : num + 2 * k < 2 ^ 64) :
    nextPrimeFrom64 fuel num = some (nextPrimeFrom fuel num) := by
  induction fuel generalizing num k with
  | zero => exact absurd hk (Nat.not_lt_zero k)
  | succ fuel ih =>
    rw [nextPrimeFrom64, nextPrimeFrom, isPrime64_eq (by omega), Option.bind_some]
    split_ifs with hnum
    · rfl
    · cases k with
      | zero => exact absurd ((isPrime_iff num).2 hprime) hnum
      | succ k =>
        have hshift : num + 2 + 2 * k = num + 2 * (k + 1) := by ring
        rw [word_of_lt (by omega), Option.bind_some]
        exact ih (k := k) (by omega) (hshift ▸ hprime) (by omega)

/-- **The primes of the table**: `NextPrime` ends with the least prime from its argument on, `IsPrime` decides
primality, and no sum in either wraps around. -/
theorem next_prime_least :
    (∀ num < 2 ^ 63, ∃ p, nextPrime64 num = some p ∧ IsLeast {p | p.Prime ∧ max num 2 ≤ p} p) ∧
      ∀ num < 2 ^ 64 - 2, ∃ b, isPrime64 num = some b ∧ (b = true ↔ num.Prime) := by
  refine ⟨fun num hnum => ?_, fun num hnum => ⟨_, isPrime64_eq (by omega), isPrime_iff num⟩⟩
  by_cases hsmall : num ≤ 2
  · refine ⟨2, if_pos hsmall, ⟨Nat.prime_two, by omega⟩, fun q hq => ?_⟩
    exact hq.1.two_le
  -- the search is among the odd numbers from `m` on, and there is a prime below `2 * m`
  obtain ⟨m, hm, hodd, hle, hlt, hstart⟩ : ∃ m, (if num % 2 = 0 then word (num + 1) else some num) = some m ∧
    m % 2 = 1 ∧
      num ≤ m ∧ m < 2 ^ 63 ∧ ∀ q, q.Prime → num ≤ q → m ≤ q := by
    by_cases heven : num % 2 = 0
    · refine ⟨num + 1, by rw [if_pos heven, word_of_lt (by omega)], by omega, by omega, by omega, fun q hq hle => ?_⟩
      have hqodd := hq.eq_two_or_odd
      omega
    · exact ⟨num, if_neg heven, by omega, le_rfl, hnum, fun q _ hle => hle⟩
  obtain ⟨p, hp, hlt', hle'⟩ := Nat.exists_prime_lt_and_le_two_mul m (by omega)
  have hpodd := hp.eq_two_or_odd
  have hoffset : m + 2 * ((p - m) / 2) = p := by omega
  have hprime : (m + 2 * ((p - m) / 2)).Prime := by rwa [hoffset]
  obtain ⟨hfound, hfrom, hupto⟩ := nextPrimeFrom_spec (by omega : (p - m) / 2 < m) hprime
  refine ⟨nextPrimeFrom m m, ?_, ⟨hfound, by omega⟩, fun q hq => ?_⟩
  · rw [nextPrime64, if_neg hsmall, hm, Option.bind_some]
    exact nextPrimeFrom64_eq (by omega) hprime (by omega)
  · have hqodd := hq.1.eq_two_or_odd
    have hmq := hstart q hq.1 (le_trans (le_max_left _ _) hq.2)
    by_cases hnear : (q - m) / 2 < m
    · have hoffset' : m + 2 * ((q - m) / 2) = q := by omega
      exact (nextPrimeFrom_spec hnear (by rw [hoffset']; exact hq.1)).2.2.trans hoffset'.le
    · omega

theorem next_prime_least_ninety : ∃ p, nextPrime64 90 = some p ∧ IsLeast {p | p.Prime ∧ max 90 2 ≤ p} p :=
  next_prime_least.1 90 (by decide)

end Coropact.Gateway.MaglevHashLB
