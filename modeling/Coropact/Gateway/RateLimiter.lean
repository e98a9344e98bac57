/-
The rate limiter (`include/coropact/gateway/rate_limiter.h`).

Tokens are counted in units of a millionth. `TryConsume` refills a bucket by the time since its last refill and then
takes one whole token out of it, or refuses. There is one bucket for all requests and one for each client address; the
latter are made on demand, up to a cap, and a sweep at the cap drops those that must be full again by then.

Rate and burst are exact rationals and counters are natural numbers: rounding of `double` and overflow are left out. The
clock is read anew wherever the source reads it (`Reads`). The mutexes make each call atomic.
-/
import Coropact.Core.Machine
import Coropact.Http.Ascii
import Mathlib.Data.List.AList
import Mathlib.Data.Rat.Floor

namespace Coropact.Gateway

open Coropact.Http Coropact.Machine List Option

/-! ## Token buckets -/

def kScale : ℕ := 1000000

structure TokenBucket where
  lastRefillMs : ℕ
  scaledTokens : ℕ
  rate : ℚ
  burst : ℚ
deriving DecidableEq

namespace TokenBucket

def make (rate burst : ℚ) (now : ℕ) : TokenBucket where
  lastRefillMs := now
  scaledTokens := ⌊burst * kScale⌋₊
  rate := rate
  burst := burst

def burstScaled (b : TokenBucket) : ℕ := ⌊b.burst * kScale⌋₊

/-- the units that `ms` milliseconds bring -/
def refill (b : TokenBucket) (ms : ℕ) : ℕ := ⌊ms * b.rate * kScale / 1000⌋₊

/-- `new_tokens` -/
def newTokens (b : TokenBucket) (now : ℕ) : ℕ :=
  let elapsed := if b.lastRefillMs < now then now - b.lastRefillMs else 0
  let tokens := b.scaledTokens + b.refill elapsed
  if b.burstScaled < tokens then b.burstScaled else tokens

def tryConsume (b : TokenBucket) (now : ℕ) : Bool × TokenBucket :=
  if b.newTokens now < kScale then (false, { b with lastRefillMs := now, scaledTokens := b.newTokens now })
  else (true, { b with lastRefillMs := now, scaledTokens := b.newTokens now - kScale })

def refilledToFull (b : TokenBucket) (now : ℕ) : Bool :=
  if b.rate ≤ 0 then false
  else if now ≤ b.lastRefillMs then false
  else b.burst / b.rate * 1000 ≤ (now - b.lastRefillMs : ℕ)

variable {b : TokenBucket} {now : ℕ}

theorem newTokens_eq (b : TokenBucket) (now : ℕ) :
    b.newTokens now = min (b.scaledTokens + b.refill (now - b.lastRefillMs)) b.burstScaled := by
  have helapsed : (if b.lastRefillMs < now then now - b.lastRefillMs else 0) = now - b.lastRefillMs := by
    split_ifs <;> omega
  rw [newTokens, helapsed]
  split_ifs <;> omega

@[simp] theorem rate_tryConsume (b : TokenBucket) (now : ℕ) : (b.tryConsume now).2.rate = b.rate := by
  unfold tryConsume
  split_ifs <;> rfl

@[simp] theorem burst_tryConsume (b : TokenBucket) (now : ℕ) : (b.tryConsume now).2.burst = b.burst := by
  unfold tryConsume
  split_ifs <;> rfl

@[simp] theorem lastRefillMs_tryConsume (b : TokenBucket) (now : ℕ) : (b.tryConsume now).2.lastRefillMs = now := by
  unfold tryConsume
  split_ifs <;> rfl

/-- the answer and the bucket behind it depend on the units there are, and not on when they were counted last -/
theorem tryConsume_congr {b' : TokenBucket} (hrate : b.rate = b'.rate) (hburst : b.burst = b'.burst)
    (htokens : b.newTokens now = b'.newTokens now) : b.tryConsume now = b'.tryConsume now := by
  rw [tryConsume, tryConsume, htokens, hrate, hburst]

theorem refilledToFull_iff :
    b.refilledToFull now = true ↔
      0 < b.rate ∧ b.lastRefillMs < now ∧ b.burst / b.rate * 1000 ≤ (now - b.lastRefillMs : ℕ) := by
  unfold refilledToFull
  split_ifs with hrate hlast
  · simp [hrate]
  · simp [hlast]
  · simp [not_le.1 hrate, not_le.1 hlast]

theorem refilledToFull_mono {later : ℕ} (h : b.refilledToFull now = true) (hle : now ≤ later) :
    b.refilledToFull later = true := by
  obtain ⟨hrate, hlast, hfull⟩ := refilledToFull_iff.1 h
  refine refilledToFull_iff.2 ⟨hrate, hlast.trans_le hle, hfull.trans ?_⟩
  exact_mod_cast Nat.sub_le_sub_right hle _

theorem newTokens_of_full (h : b.refilledToFull now = true) : b.newTokens now = b.burstScaled := by
  obtain ⟨hrate, -, hfull⟩ := refilledToFull_iff.1 h
  have hunits : b.burst * kScale ≤ (now - b.lastRefillMs : ℕ) * b.rate * kScale / 1000 := by
    have hmul : b.burst * 1000 ≤ (now - b.lastRefillMs : ℕ) * b.rate := by
      calc b.burst * 1000 = b.burst / b.rate * 1000 * b.rate := by field_simp
        _ ≤ (now - b.lastRefillMs : ℕ) * b.rate := mul_le_mul_of_nonneg_right hfull hrate.le
    rw [le_div_iff₀ (by norm_num)]
    calc b.burst * kScale * 1000 = b.burst * 1000 * kScale := by ring
      _ ≤ (now - b.lastRefillMs : ℕ) * b.rate * kScale := mul_le_mul_of_nonneg_right hmul (Nat.cast_nonneg _)
  have hrefill : b.burstScaled ≤ b.refill (now - b.lastRefillMs) := Nat.floor_le_floor hunits
  rw [newTokens_eq]
  omega

theorem newTokens_make (rate burst : ℚ) (start now : ℕ) :
    (make rate burst start).newTokens now = (make rate burst start).burstScaled := by
  have hstart : (make rate burst start).scaledTokens = (make rate burst start).burstScaled := rfl
  rw [newTokens_eq, hstart]
  omega

/-- **A bucket that must be full by now is as good as new**, then and at every later time. -/
theorem tryConsume_of_full {later : ℕ} (h : b.refilledToFull now = true) (hle : now ≤ later) (start : ℕ) :
    b.tryConsume later = (make b.rate b.burst start).tryConsume later := by
  refine tryConsume_congr rfl rfl ?_
  rw [newTokens_of_full (refilledToFull_mono h hle), newTokens_make]
  rfl

end TokenBucket

/-! ## The limiter -/

theorem length_keys_insert {α β : Type*} [DecidableEq α] (m : AList fun _ : α => β) (a : α) (b : β) :
    (m.insert a b).keys.length = if a ∈ m then m.keys.length else m.keys.length + 1 := by
  rw [AList.keys_insert, length_cons]
  split_ifs with h
  · rw [length_erase_of_mem (AList.mem_keys.1 h)]
    have hpos := length_pos_of_mem (AList.mem_keys.1 h)
    omega
  · rw [erase_of_not_mem fun hmem => h (AList.mem_keys.2 hmem)]

structure RateLimiterConfig where
  globalEnabled : Bool := false
  globalRate : ℚ := 1000
  globalBurst : ℚ := 2000
  perIpEnabled : Bool := false
  perIpRate : ℚ := 10
  perIpBurst : ℚ := 20
  perIpMaxBuckets : ℕ := 65536
deriving DecidableEq

/-- the buckets by client address -/
abbrev IpBuckets := AList fun _ : Bytes => TokenBucket

structure RateLimiter where
  config : RateLimiterConfig
  globalBucket : TokenBucket
  ipBuckets : IpBuckets := ∅
  lastEvictMs : ℕ := 0

/-- what one call of `AllowPerIP` reads from the clock, where it reads it -/
structure Reads where
  evict : ℕ
  create : ℕ
  consume : ℕ
  evict_le : evict ≤ create
  create_le : create ≤ consume

/-- what a call of `AllowPerIP` comes to; it returns true for `allowed` only -/
inductive PerIp where
  | allowed | limited | noPlace
deriving DecidableEq, Repr

def kEvictIntervalMs : ℕ := 1000

theorem nodupKeys_filter (m : IpBuckets) (p : (Sigma fun _ : Bytes => TokenBucket) → Bool) :
    (m.entries.filter p).NodupKeys := m.nodupKeys.sublist filter_sublist

namespace RateLimiter

def make (config : RateLimiterConfig) (now : ℕ) : RateLimiter where
  config := config
  globalBucket := .make config.globalRate config.globalBurst now

def allowGlobal (l : RateLimiter) (now : ℕ) : Bool × RateLimiter :=
  if l.config.globalEnabled then
    ((l.globalBucket.tryConsume now).1, { l with globalBucket := (l.globalBucket.tryConsume now).2 })
  else (true, l)

def perIpBucketCount (l : RateLimiter) : ℕ := l.ipBuckets.keys.length

/-- `EvictFullBucketsLocked` -/
def evictFullBuckets (l : RateLimiter) (now : ℕ) : RateLimiter :=
  if now - l.lastEvictMs < kEvictIntervalMs then l
  else
    { l with
      lastEvictMs := now
      ipBuckets := ⟨l.ipBuckets.entries.filter fun e => !e.2.refilledToFull now, nodupKeys_filter _ _⟩ }

def consumeFrom (l : RateLimiter) (ip : Bytes) (b : TokenBucket) (now : ℕ) : PerIp × RateLimiter :=
  (if (b.tryConsume now).1 then .allowed else .limited,
    { l with ipBuckets := l.ipBuckets.insert ip (b.tryConsume now).2 })

def full (l : RateLimiter) : Bool := l.config.perIpMaxBuckets ≤ l.perIpBucketCount

/-- the room `AllowPerIP` makes for an address without a bucket -/
def makeRoom (l : RateLimiter) (now : ℕ) : RateLimiter :=
  if l.config.perIpMaxBuckets ≠ 0 ∧ l.full then l.evictFullBuckets now else l

def allowPerIp (l : RateLimiter) (ip : Bytes) (t : Reads) : PerIp × RateLimiter :=
  if l.config.perIpEnabled then
    match l.ipBuckets.lookup ip with
    | some b => l.consumeFrom ip b t.consume
    | none =>
      let l := l.makeRoom t.evict
      if l.config.perIpMaxBuckets ≠ 0 ∧ l.full then (.noPlace, l)
      else l.consumeFrom ip (.make l.config.perIpRate l.config.perIpBurst t.create) t.consume
  else (.allowed, l)

end RateLimiter

/-! ## Calls of `AllowPerIP` -/

/-- a call and what it came to -/
structure PerIpCall where
  ip : Bytes
  reads : Reads
  outcome : PerIp

def perIpStep (l : RateLimiter) (c : PerIpCall) : Option RateLimiter :=
  if (l.allowPerIp c.ip c.reads).1 = c.outcome then some (l.allowPerIp c.ip c.reads).2 else none

/-- the clock does not go back from one call to the next -/
def Nondecreasing : List PerIpCall → Prop := List.Pairwise fun c d => c.reads.consume ≤ d.reads.evict

namespace RateLimiter

variable {l l' : RateLimiter}

@[simp] theorem config_evictFullBuckets (l : RateLimiter) (now : ℕ) : (l.evictFullBuckets now).config = l.config := by
  unfold evictFullBuckets
  split_ifs <;> rfl

@[simp] theorem config_makeRoom (l : RateLimiter) (now : ℕ) : (l.makeRoom now).config = l.config := by
  unfold makeRoom
  split_ifs
  · exact config_evictFullBuckets l now
  · rfl

theorem lookup_evictFullBuckets (l : RateLimiter) (now : ℕ) (ip : Bytes) (b : TokenBucket) :
    ((l.evictFullBuckets now).ipBuckets.lookup ip = some b → l.ipBuckets.lookup ip = some b) ∧
      (l.ipBuckets.lookup ip = some b →
        (l.evictFullBuckets now).ipBuckets.lookup ip = some b ∨ b.refilledToFull now = true) := by
  unfold evictFullBuckets
  split_ifs
  · exact ⟨id, .inl⟩
  · simp only [← mem_def, AList.mem_lookup_iff, mem_filter]
    refine ⟨And.left, fun h => ?_⟩
    cases hfull : b.refilledToFull now with
    | true => exact .inr rfl
    | false => exact .inl ⟨h, rfl⟩

theorem lookup_makeRoom (l : RateLimiter) (now : ℕ) (ip : Bytes) (b : TokenBucket) :
    ((l.makeRoom now).ipBuckets.lookup ip = some b → l.ipBuckets.lookup ip = some b) ∧
      (l.ipBuckets.lookup ip = some b →
        (l.makeRoom now).ipBuckets.lookup ip = some b ∨ b.refilledToFull now = true) := by
  unfold makeRoom
  split_ifs
  · exact lookup_evictFullBuckets l now ip b
  · exact ⟨id, .inl⟩

theorem count_makeRoom (l : RateLimiter) (now : ℕ) : (l.makeRoom now).perIpBucketCount ≤ l.perIpBucketCount := by
  unfold makeRoom evictFullBuckets
  split_ifs
  · exact le_rfl
  · exact (filter_sublist.map Sigma.fst).length_le
  · exact le_rfl

theorem count_allowPerIp (ip : Bytes) (t : Reads) (hcap : l.config.perIpMaxBuckets ≠ 0)
    (h : l.perIpBucketCount ≤ l.config.perIpMaxBuckets) :
    (l.allowPerIp ip t).2.perIpBucketCount ≤ (l.allowPerIp ip t).2.config.perIpMaxBuckets := by
  unfold allowPerIp
  split
  case isFalse => exact h
  case isTrue =>
    split
    case h_1 b hb =>
      have hmem : ip ∈ l.ipBuckets := AList.lookup_isSome.1 (by rw [hb]; rfl)
      rw [consumeFrom, perIpBucketCount, length_keys_insert, if_pos hmem]
      exact h
    case h_2 =>
      have hroom := count_makeRoom l t.evict
      dsimp only
      split_ifs with hfull
      · rw [config_makeRoom]
        exact hroom.trans h
      · rw [config_makeRoom, full, decide_eq_true_eq, config_makeRoom, not_and, not_le] at hfull
        rw [consumeFrom, perIpBucketCount, length_keys_insert, config_makeRoom]
        have hlt := hfull hcap
        unfold perIpBucketCount at hlt
        split_ifs <;> omega

@[simp] theorem config_allowPerIp (l : RateLimiter) (ip : Bytes) (t : Reads) :
    (l.allowPerIp ip t).2.config = l.config := by
  unfold allowPerIp
  split
  · split
    · rfl
    · dsimp only
      split_ifs
      · exact config_makeRoom l t.evict
      · exact config_makeRoom l t.evict
  · rfl

end RateLimiter

theorem perIpStep_some {l l' : RateLimiter} {c : PerIpCall} (h : perIpStep l c = some l') :
    (l.allowPerIp c.ip c.reads).1 = c.outcome ∧ (l.allowPerIp c.ip c.reads).2 = l' := of_ite_some h

/-- **The number of buckets stays under the cap.** -/
theorem count_le {config : RateLimiterConfig} (hcap : config.perIpMaxBuckets ≠ 0) (start : ℕ) (tr : List PerIpCall)
    (l : RateLimiter) (hrun : run perIpStep (.make config start) tr = some l) :
    l.perIpBucketCount ≤ config.perIpMaxBuckets := by
  have hinv : l.config = config ∧ l.perIpBucketCount ≤ l.config.perIpMaxBuckets := by
    refine run_induct (fun _ l => l.config = config ∧ l.perIpBucketCount ≤ l.config.perIpMaxBuckets)
      ⟨rfl, Nat.zero_le _⟩ ?_ tr l hrun
    rintro - l c l' - ⟨hconfig, hle⟩ hstep
    obtain ⟨-, rfl⟩ := perIpStep_some hstep
    exact ⟨by rw [RateLimiter.config_allowPerIp, hconfig], RateLimiter.count_allowPerIp _ _ (hconfig ▸ hcap) hle⟩
  exact hinv.1 ▸ hinv.2

/-! ## The limiter without a cap -/

/-- The limiter `l` and one without a cap, `u`, at a time `now`: `u` has all buckets of `l`, and the others it has must
be full by then. -/
structure Simulates (config : RateLimiterConfig) (now : ℕ) (l u : RateLimiter) : Prop where
  capped : l.config = config
  uncapped : u.config = { config with perIpMaxBuckets := 0 }
  rates : ∀ ip b, u.ipBuckets.lookup ip = some b → b.rate = config.perIpRate ∧ b.burst = config.perIpBurst
  kept : ∀ ip b, l.ipBuckets.lookup ip = some b → u.ipBuckets.lookup ip = some b
  dropped : ∀ ip b, u.ipBuckets.lookup ip = some b →
    l.ipBuckets.lookup ip = some b ∨ b.refilledToFull now = true

namespace Simulates

variable {config : RateLimiterConfig} {now : ℕ} {l u : RateLimiter}

theorem later (h : Simulates config now l u) {later : ℕ} (hle : now ≤ later) : Simulates config later l u :=
  { h with dropped := fun ip b hb => (h.dropped ip b hb).imp_right (TokenBucket.refilledToFull_mono · hle) }

theorem makeRoom (h : Simulates config now l u) : Simulates config now (l.makeRoom now) u where
  capped := by rw [RateLimiter.config_makeRoom, h.capped]
  uncapped := h.uncapped
  rates := h.rates
  kept := fun ip b hb => h.kept ip b ((RateLimiter.lookup_makeRoom l now ip b).1 hb)
  dropped := fun ip b hb => (h.dropped ip b hb).elim (RateLimiter.lookup_makeRoom l now ip b).2 .inr

theorem consumeFrom (h : Simulates config now l u) (ip : Bytes) {b b' : TokenBucket} {t : ℕ}
    (hrate : b'.rate = config.perIpRate ∧ b'.burst = config.perIpBurst) (hsame : b.tryConsume t = b'.tryConsume t) :
    (l.consumeFrom ip b t).1 = (u.consumeFrom ip b' t).1 ∧
      Simulates config now (l.consumeFrom ip b t).2 (u.consumeFrom ip b' t).2 := by
  rw [RateLimiter.consumeFrom, RateLimiter.consumeFrom, hsame]
  refine ⟨rfl, h.capped, h.uncapped, ?_, ?_, ?_⟩
  · intro ip' b₁ hb₁
    by_cases hip : ip' = ip
    · subst hip
      rw [AList.lookup_insert] at hb₁
      obtain rfl := some.inj hb₁
      rwa [TokenBucket.rate_tryConsume, TokenBucket.burst_tryConsume]
    · rw [AList.lookup_insert_ne hip] at hb₁
      exact h.rates ip' b₁ hb₁
  · intro ip' b₁ hb₁
    by_cases hip : ip' = ip
    · subst hip
      rw [AList.lookup_insert] at hb₁ ⊢
      exact hb₁
    · rw [AList.lookup_insert_ne hip] at hb₁ ⊢
      exact h.kept ip' b₁ hb₁
  · intro ip' b₁ hb₁
    by_cases hip : ip' = ip
    · subst hip
      rw [AList.lookup_insert] at hb₁ ⊢
      exact .inl hb₁
    · rw [AList.lookup_insert_ne hip] at hb₁ ⊢
      exact h.dropped ip' b₁ hb₁

/-- **One call.** For lack of a place the limiter without a cap is left alone, and every other call answers alike. -/
theorem allowPerIp (h : Simulates config now l u) (ip : Bytes) (t : Reads) (hnow : now ≤ t.evict) :
    (l.allowPerIp ip t).1 = .noPlace ∧ Simulates config t.consume (l.allowPerIp ip t).2 u ∨
      (l.allowPerIp ip t).1 ≠ .noPlace ∧ (l.allowPerIp ip t).1 = (u.allowPerIp ip t).1 ∧
        Simulates config t.consume (l.allowPerIp ip t).2 (u.allowPerIp ip t).2 := by
  have hlast : t.evict ≤ t.consume := t.evict_le.trans t.create_le
  have hcap : u.config.perIpMaxBuckets = 0 := by rw [h.uncapped]
  have hrate : u.config.perIpRate = config.perIpRate := by rw [h.uncapped]
  have hburst : u.config.perIpBurst = config.perIpBurst := by rw [h.uncapped]
  have henabled : u.config.perIpEnabled = l.config.perIpEnabled := by rw [h.uncapped, h.capped]
  have hne : ∀ (l : RateLimiter) (b : TokenBucket), (l.consumeFrom ip b t.consume).1 ≠ .noPlace := by
    intro l b
    rw [RateLimiter.consumeFrom]
    dsimp only
    split_ifs <;> decide
  unfold RateLimiter.allowPerIp
  rw [henabled]
  split_ifs with hon
  · cases hl : l.ipBuckets.lookup ip with
    | some b =>
      rw [h.kept ip b hl]
      exact .inr ⟨hne l b, ((h.later (hnow.trans hlast)).consumeFrom ip (h.rates ip b (h.kept ip b hl)) rfl)⟩
    | none =>
      have hroom := (h.later hnow).makeRoom
      have hunlimited : u.makeRoom t.evict = u := by rw [RateLimiter.makeRoom, if_neg fun hfull => hfull.1 hcap]
      dsimp only
      have hplace : ¬ (u.config.perIpMaxBuckets ≠ 0 ∧ u.full = true) := fun hfull => hfull.1 hcap
      rw [hunlimited, if_neg hplace]
      split_ifs with hfull
      · exact .inl ⟨rfl, hroom.later hlast⟩
      · refine .inr ⟨hne _ _, ?_⟩
        cases hu : u.ipBuckets.lookup ip with
        | none =>
          rw [hroom.capped, hrate, hburst]
          exact (hroom.later hlast).consumeFrom ip ⟨rfl, rfl⟩ rfl
        | some b =>
          -- the limiter made a new bucket for an address whose old one was dropped because it must have been full
          have hdropped : b.refilledToFull now = true := by
            rcases h.dropped ip b hu with hkept | hdropped
            · rw [hl] at hkept
              cases hkept
            · exact hdropped
          obtain ⟨hbrate, hbburst⟩ := h.rates ip b hu
          rw [hroom.capped, ← hbrate, ← hbburst]
          exact (hroom.later hlast).consumeFrom ip ⟨hbrate, hbburst⟩
            (TokenBucket.tryConsume_of_full hdropped (hnow.trans hlast) t.create).symm
  · exact .inr ⟨by simp, rfl, h.later (hnow.trans hlast)⟩

end Simulates

/-- **Every run is matched without a cap**, by the calls that were not refused for lack of a place. -/
theorem run_lossless {config : RateLimiterConfig} (tr : List PerIpCall) (htime : Nondecreasing tr) :
    ∀ (now : ℕ) (l u l' : RateLimiter), Simulates config now l u → (∀ c ∈ tr, now ≤ c.reads.evict) →
      run perIpStep l tr = some l' →
        ∃ u', run perIpStep u (tr.filter fun c => c.outcome ≠ .noPlace) = some u' := by
  induction tr with
  | nil => exact fun _ _ u _ _ _ _ => ⟨u, rfl⟩
  | cons c tr ih =>
    intro now l u l' hsim hnow hrun
    obtain ⟨hnow, hrest⟩ := forall_mem_cons.1 hnow
    obtain ⟨hlater, htime⟩ := pairwise_cons.1 htime
    obtain ⟨l₁, hstep, hrun⟩ := bind_eq_some_iff.1 hrun
    obtain ⟨houtcome, rfl⟩ := perIpStep_some hstep
    rcases hsim.allowPerIp c.ip c.reads hnow with ⟨hplace, hsim'⟩ | ⟨hplace, hsame, hsim'⟩
    · rw [filter_cons_of_neg (by simp [← houtcome, hplace])]
      exact ih htime _ _ u l' hsim' hlater hrun
    · rw [filter_cons_of_pos (by simpa [← houtcome] using hplace), run_cons, perIpStep,
        if_pos (hsame.symm.trans houtcome), bind_some]
      exact ih htime _ _ _ l' hsim' hlater hrun

/-- **Eviction is lossless.** For every configuration and every sequence of calls of `AllowPerIP` at nondecreasing
times: the number of buckets does not exceed a cap that is not 0, after any of the calls, and the calls that were not
refused for lack of a place have the same outcomes without a cap, one after the other and by themselves. -/
theorem eviction_lossless (config : RateLimiterConfig) (start : ℕ) (tr : List PerIpCall) (l : RateLimiter)
    (htime : Nondecreasing tr) (hrun : run perIpStep (.make config start) tr = some l) :
    (config.perIpMaxBuckets ≠ 0 → ∀ tr', tr' <+: tr → ∃ l', run perIpStep (.make config start) tr' = some l' ∧
        l'.perIpBucketCount ≤ config.perIpMaxBuckets) ∧
      ∃ u, run perIpStep (.make { config with perIpMaxBuckets := 0 } start)
        (tr.filter fun c => c.outcome ≠ .noPlace) = some u := by
  constructor
  · rintro hcap tr' ⟨rest, rfl⟩
    obtain ⟨l', hl', -⟩ := run_append_some hrun
    exact ⟨l', hl', count_le hcap start tr' l' hl'⟩
  · have hstart : Simulates config 0 (.make config start) (.make { config with perIpMaxBuckets := 0 } start) :=
      ⟨rfl, rfl, fun ip b hb => (by cases hb), fun ip b hb => (by cases hb), fun ip b hb => (by cases hb)⟩
    exact run_lossless tr htime 0 _ _ l hstart (fun c _ => Nat.zero_le _) hrun

def Reads.at (now : ℕ) : Reads := ⟨now, now, now, le_rfl, le_rfl⟩

/-- one place and one token; the second client comes to a place once the first bucket must be full again -/
def onePlace : RateLimiterConfig := { perIpEnabled := true, perIpRate := 1, perIpBurst := 1, perIpMaxBuckets := 1 }

def sweepRun : List PerIpCall :=
  [⟨[1], .at 0, .allowed⟩, ⟨[1], .at 400, .limited⟩, ⟨[2], .at 500, .noPlace⟩, ⟨[2], .at 2000, .allowed⟩,
    ⟨[1], .at 2500, .noPlace⟩, ⟨[1], .at 4000, .allowed⟩]

theorem eviction_lossless_sweepRun :
    ∃ l, run perIpStep (.make onePlace 0) sweepRun = some l ∧ l.perIpBucketCount ≤ 1 ∧
      ∃ u, run perIpStep (.make { onePlace with perIpMaxBuckets := 0 } 0)
        [⟨[1], .at 0, .allowed⟩, ⟨[1], .at 400, .limited⟩, ⟨[2], .at 2000, .allowed⟩, ⟨[1], .at 4000, .allowed⟩] =
          some u := by
  have hfacts : (run perIpStep (.make onePlace 0) sweepRun).isSome = true := by decide +kernel
  obtain ⟨l, hrun⟩ := isSome_iff_exists.1 hfacts
  have htime : Nondecreasing sweepRun := by
    simp [Nondecreasing, sweepRun, Reads.at]
  obtain ⟨hcap, hlossless⟩ := eviction_lossless onePlace 0 sweepRun l htime hrun
  obtain ⟨l', hrun', hle⟩ := hcap (by decide) sweepRun (prefix_refl _)
  obtain rfl := some.inj (hrun.symm.trans hrun')
  exact ⟨l, hrun, hle, hlossless⟩

end Coropact.Gateway
