/-
The circuit breaker of an upstream (`include/coropact/gateway/circuit_breaker.h`), one call at a time.

The fields are the atomics of the source with their widths: `state_` with the three values it is in while a call changes
it, and 64-bit counters and timestamps that wrap; `closed_counts_` packs the failures and the success streak of CLOSED
into one word. `NowMs` is the clock in milliseconds as a 64-bit value; `AllowRequest` reads it once in the OPEN branch
and once in the HALF_OPEN branch. Here each call runs alone, so every CAS succeeds; `Gateway.BreakerThreads` has the
accesses one by one.
-/
import Coropact.Core.Machine
import Mathlib.Data.BitVec

namespace Coropact.Gateway

open Coropact.Machine

/-! ## Model -/

/-- the values of `state_` -/
inductive BreakerState where
  | kClosed | kOpen | kHalfOpen | kTransitioningToOpen | kTransitioningToHalfOpen | kTransitioningToClosed
deriving DecidableEq, Repr

structure CircuitBreakerConfig where
  failureThreshold : ℤ := 5
  successThreshold : ℤ := 2
  /-- milliseconds -/
  openTimeout : ℤ := 10000
  halfOpenMaxRequests : ℤ := 1
deriving DecidableEq, Repr

structure CircuitBreaker where
  state : BreakerState := .kClosed
  closedCounts : BitVec 64 := 0
  halfOpenSuccessCount : BitVec 64 := 0
  halfOpenRequests : BitVec 64 := 0
  halfOpenProbeMs : BitVec 64 := 0
  openEnteredMs : BitVec 64 := 0
  transitionCount : BitVec 64 := 0
deriving DecidableEq, Repr

open CircuitBreaker

def packClosedCounts (failures successes : BitVec 32) : BitVec 64 :=
  failures.setWidth 64 <<< 32 ||| successes.setWidth 64

def closedFailures (counts : BitVec 64) : BitVec 32 := (counts >>> 32).setWidth 32

def closedSuccesses (counts : BitVec 64) : BitVec 32 := counts.setWidth 32

def saturatingIncrement (value : BitVec 32) : BitVec 32 := if value = BitVec.allOnes 32 then value else value + 1

/-- the clock as `NowMs` returns it -/
def nowMs (t : ℕ) : BitVec 64 := BitVec.ofNat 64 t

namespace CircuitBreakerConfig

variable (cfg : CircuitBreakerConfig)

/-- `FailureThreshold()` -/
def failureLimit : BitVec 32 := if 0 < cfg.failureThreshold then BitVec.ofInt 32 cfg.failureThreshold else 1

/-- `SuccessThreshold()` -/
def successLimit : BitVec 32 := if 0 < cfg.successThreshold then BitVec.ofInt 32 cfg.successThreshold else 1

/-- `static_cast<uint64_t>(cfg_.open_timeout.count())` -/
def timeoutMs : BitVec 64 := BitVec.ofInt 64 cfg.openTimeout

/-- `static_cast<uint64_t>(cfg_.half_open_max_requests)` -/
def maxProbes : BitVec 64 := BitVec.ofInt 64 cfg.halfOpenMaxRequests

/-- every value positive and in the range of its type: `int`, and the `int64_t` that counts milliseconds -/
structure Positive (cfg : CircuitBreakerConfig) : Prop where
  failure : 0 < cfg.failureThreshold ∧ cfg.failureThreshold < 2 ^ 31
  success : 0 < cfg.successThreshold ∧ cfg.successThreshold < 2 ^ 31
  timeout : 0 < cfg.openTimeout ∧ cfg.openTimeout < 2 ^ 63
  probes : 0 < cfg.halfOpenMaxRequests ∧ cfg.halfOpenMaxRequests < 2 ^ 31

end CircuitBreakerConfig

namespace CircuitBreaker

variable (cfg : CircuitBreakerConfig)

/-- the stores behind a CAS to kTransitioningToOpen -/
def enterOpen (b : CircuitBreaker) (now : BitVec 64) : CircuitBreaker :=
  { b with
    openEnteredMs := now
    halfOpenSuccessCount := 0
    halfOpenRequests := 0
    halfOpenProbeMs := 0
    transitionCount := b.transitionCount + 1
    state := .kOpen }

/-- the stores behind a CAS to kTransitioningToHalfOpen -/
def enterHalfOpen (b : CircuitBreaker) : CircuitBreaker :=
  { b with
    halfOpenRequests := 0
    halfOpenSuccessCount := 0
    halfOpenProbeMs := 0
    transitionCount := b.transitionCount + 1
    state := .kHalfOpen }

/-- the stores behind a CAS to kTransitioningToClosed -/
def enterClosed (b : CircuitBreaker) : CircuitBreaker :=
  { b with
    closedCounts := 0
    halfOpenSuccessCount := 0
    halfOpenRequests := 0
    halfOpenProbeMs := 0
    transitionCount := b.transitionCount + 1
    state := .kClosed }

/-- the HALF_OPEN branch of `AllowRequest` -/
def claimProbe (b : CircuitBreaker) (now : BitVec 64) : Bool × CircuitBreaker :=
  let slot := b.halfOpenRequests
  let b := { b with halfOpenRequests := slot + 1 }
  if slot < cfg.maxProbes then (true, { b with halfOpenProbeMs := now })
  else if 0 < cfg.openTimeout ∧ cfg.timeoutMs ≤ now - b.halfOpenProbeMs then (false, b.enterOpen now)
  else (false, b)

/-- `now` is the clock in the OPEN branch, `now'` the clock in the HALF_OPEN branch -/
def allowRequest (b : CircuitBreaker) (now now' : BitVec 64) : Bool × CircuitBreaker :=
  match b.state with
  | .kClosed => (true, b)
  | .kOpen => if now - b.openEnteredMs < cfg.timeoutMs then (false, b) else claimProbe cfg b.enterHalfOpen now'
  | .kHalfOpen => claimProbe cfg b now'
  | _ => (false, b)

def onSuccess (b : CircuitBreaker) : CircuitBreaker :=
  match b.state with
  | .kClosed =>
    let successes := saturatingIncrement (closedSuccesses b.closedCounts)
    if cfg.successLimit ≤ successes then { b with closedCounts := packClosedCounts 0 0 }
    else { b with closedCounts := packClosedCounts (closedFailures b.closedCounts) successes }
  | .kHalfOpen =>
    let n := b.halfOpenSuccessCount + 1
    let b := { b with halfOpenSuccessCount := n }
    if cfg.successLimit.setWidth 64 ≤ n then b.enterClosed else b
  | _ => b

def onFailure (b : CircuitBreaker) (now : BitVec 64) : CircuitBreaker :=
  match b.state with
  | .kHalfOpen => b.enterOpen now
  | .kClosed =>
    let failures := saturatingIncrement (closedFailures b.closedCounts)
    let b := { b with closedCounts := packClosedCounts failures 0 }
    if cfg.failureLimit ≤ failures then b.enterOpen now else b
  | _ => b

end CircuitBreaker

/-! ## Words -/

theorem closedFailures_pack (f s : BitVec 32) : closedFailures (packClosedCounts f s) = f := by
  unfold closedFailures packClosedCounts
  ext i hi
  grind

theorem closedSuccesses_pack (f s : BitVec 32) : closedSuccesses (packClosedCounts f s) = s := by
  unfold closedSuccesses packClosedCounts
  ext i hi
  grind

theorem saturatingIncrement_toNat {v : BitVec 32} (h : v.toNat + 1 < 2 ^ 32) :
    (saturatingIncrement v).toNat = v.toNat + 1 := by
  have hne : v ≠ BitVec.allOnes 32 := by
    rintro rfl
    simp at h
  rw [saturatingIncrement, if_neg hne]
  exact Nat.mod_eq_of_lt h

theorem add_one_toNat {v : BitVec 64} (h : v.toNat + 1 < 2 ^ 64) : (v + 1).toNat = v.toNat + 1 := by
  rw [BitVec.toNat_add]
  exact Nat.mod_eq_of_lt h

theorem toNat_add_one_of_ne {v : BitVec 64} (h : v ≠ BitVec.allOnes 64) : (v + 1).toNat = v.toNat + 1 := by
  refine add_one_toNat ?_
  have hne : v.toNat ≠ 2 ^ 64 - 1 := fun hc => h (BitVec.eq_of_toNat_eq (by rw [hc, BitVec.toNat_allOnes]))
  omega

theorem ofInt_toNat {w : ℕ} {z : ℤ} (h0 : 0 ≤ z) (h : z < 2 ^ w) : (BitVec.ofInt w z).toNat = z.toNat := by
  rw [BitVec.toNat_ofInt, Int.emod_eq_of_lt h0 (by exact_mod_cast h)]

theorem nowMs_sub {t now : ℕ} (h : t ≤ now) : nowMs now - nowMs t = nowMs (now - t) := by
  have hadd : nowMs now = nowMs (now - t) + nowMs t := by
    rw [nowMs, nowMs, nowMs, ← BitVec.ofNat_add, Nat.sub_add_cancel h]
  rw [hadd, BitVec.add_sub_cancel]

namespace CircuitBreakerConfig

variable {cfg : CircuitBreakerConfig}

theorem Positive.failureLimit_toNat (h : cfg.Positive) : cfg.failureLimit.toNat = cfg.failureThreshold.toNat := by
  rw [failureLimit, if_pos h.failure.1, ofInt_toNat h.failure.1.le (h.failure.2.trans (by decide))]

theorem Positive.successLimit_toNat (h : cfg.Positive) : cfg.successLimit.toNat = cfg.successThreshold.toNat := by
  rw [successLimit, if_pos h.success.1, ofInt_toNat h.success.1.le (h.success.2.trans (by decide))]

theorem Positive.maxProbes_toNat (h : cfg.Positive) : cfg.maxProbes.toNat = cfg.halfOpenMaxRequests.toNat :=
  ofInt_toNat h.probes.1.le (h.probes.2.trans (by decide))

theorem elapsed_of_le (h : cfg.openTimeout < 2 ^ 63) {t now : ℕ} (hle : t ≤ now)
    (hpast : cfg.timeoutMs ≤ nowMs now - nowMs t) : t + cfg.openTimeout.toNat ≤ now := by
  rcases le_or_gt cfg.openTimeout 0 with hzero | hpos
  · rw [Int.toNat_of_nonpos hzero]
    exact hle
  · have htimeout : cfg.timeoutMs.toNat = cfg.openTimeout.toNat := ofInt_toNat hpos.le (h.trans (by decide))
    rw [nowMs_sub hle, BitVec.le_def, nowMs, BitVec.toNat_ofNat] at hpast
    omega

theorem Positive.elapsed (h : cfg.Positive) {t now : ℕ} (hle : t ≤ now) (hpast : cfg.timeoutMs ≤ nowMs now - nowMs t) :
    t + cfg.openTimeout.toNat ≤ now :=
  elapsed_of_le h.timeout.2 hle hpast

end CircuitBreakerConfig

/-! ## What a call does -/

inductive BreakerCall where
  /-- the clock when the call begins, and in its HALF_OPEN branch -/
  | allowRequest (now now' : ℕ)
  | onSuccess
  | onFailure (now : ℕ)
deriving DecidableEq, Repr

def CircuitBreaker.perform (cfg : CircuitBreakerConfig) (b : CircuitBreaker) : BreakerCall → Bool × CircuitBreaker
  | .allowRequest now now' => b.allowRequest cfg (nowMs now) (nowMs now')
  | .onSuccess => (false, b.onSuccess cfg)
  | .onFailure now => (false, b.onFailure cfg (nowMs now))

/-- what a call can do to a breaker that no other call is changing -/
inductive BreakerMove (cfg : CircuitBreakerConfig) (b : CircuitBreaker) : BreakerCall → Bool → CircuitBreaker → Prop
  | pass (now now' : ℕ) (hs : b.state = .kClosed) : BreakerMove cfg b (.allowRequest now now') true b
  | recover (hs : b.state = .kClosed) (h : cfg.successLimit ≤ saturatingIncrement (closedSuccesses b.closedCounts)) :
      BreakerMove cfg b .onSuccess false { b with closedCounts := packClosedCounts 0 0 }
  | succeed (hs : b.state = .kClosed) (h : ¬ cfg.successLimit ≤ saturatingIncrement (closedSuccesses b.closedCounts)) :
      BreakerMove cfg b .onSuccess false
        { b with closedCounts := packClosedCounts (closedFailures b.closedCounts)
                                  (saturatingIncrement (closedSuccesses b.closedCounts)) }
  | fail (now : ℕ) (hs : b.state = .kClosed)
      (h : ¬ cfg.failureLimit ≤ saturatingIncrement (closedFailures b.closedCounts)) :
      BreakerMove cfg b (.onFailure now) false
        { b with closedCounts := packClosedCounts (saturatingIncrement (closedFailures b.closedCounts)) 0 }
  | trip (now : ℕ) (hs : b.state = .kClosed)
      (h : cfg.failureLimit ≤ saturatingIncrement (closedFailures b.closedCounts)) :
      BreakerMove cfg b (.onFailure now) false
        (enterOpen
          { b with closedCounts := packClosedCounts (saturatingIncrement (closedFailures b.closedCounts)) 0 }
            (nowMs now))
  | reject (now now' : ℕ) (hs : b.state = .kOpen) (h : nowMs now - b.openEnteredMs < cfg.timeoutMs) :
      BreakerMove cfg b (.allowRequest now now') false b
  | ignore (call : BreakerCall) (hs : b.state = .kOpen) (h : ∀ now now', call ≠ .allowRequest now now') :
      BreakerMove cfg b call false b
  | reopen (now now' : ℕ) (hs : b.state = .kOpen) (h : cfg.timeoutMs ≤ nowMs now - b.openEnteredMs) :
      BreakerMove cfg b (.allowRequest now now') true
        { b.enterHalfOpen with halfOpenRequests := 1, halfOpenProbeMs := nowMs now' }
  | grant (now now' : ℕ) (hs : b.state = .kHalfOpen) (h : b.halfOpenRequests < cfg.maxProbes) :
      BreakerMove cfg b (.allowRequest now now') true
        { b with halfOpenRequests := b.halfOpenRequests + 1, halfOpenProbeMs := nowMs now' }
  | stall (now now' : ℕ) (hs : b.state = .kHalfOpen) (hfull : cfg.maxProbes ≤ b.halfOpenRequests)
      (h : cfg.timeoutMs ≤ nowMs now' - b.halfOpenProbeMs) :
      BreakerMove cfg b (.allowRequest now now') false
        (enterOpen { b with halfOpenRequests := b.halfOpenRequests + 1 } (nowMs now'))
  | refuse (now now' : ℕ) (hs : b.state = .kHalfOpen) (hfull : cfg.maxProbes ≤ b.halfOpenRequests)
      (h : nowMs now' - b.halfOpenProbeMs < cfg.timeoutMs) :
      BreakerMove cfg b (.allowRequest now now') false { b with halfOpenRequests := b.halfOpenRequests + 1 }
  | probeOk (hs : b.state = .kHalfOpen) (h : ¬ cfg.successLimit.setWidth 64 ≤ b.halfOpenSuccessCount + 1) :
      BreakerMove cfg b .onSuccess false { b with halfOpenSuccessCount := b.halfOpenSuccessCount + 1 }
  | close (hs : b.state = .kHalfOpen) (h : cfg.successLimit.setWidth 64 ≤ b.halfOpenSuccessCount + 1) :
      BreakerMove cfg b .onSuccess false
        (enterClosed { b with halfOpenSuccessCount := b.halfOpenSuccessCount + 1 })
  | probeFailed (now : ℕ) (hs : b.state = .kHalfOpen) :
      BreakerMove cfg b (.onFailure now) false (b.enterOpen (nowMs now))

/-- the state is one of the three that no call is changing -/
def Settled : BreakerState → Prop
  | .kClosed | .kOpen | .kHalfOpen => True
  | _ => False

section Step

variable {cfg : CircuitBreakerConfig}

theorem claimProbe_enterHalfOpen (hcfg : cfg.Positive) (b : CircuitBreaker) (now : BitVec 64) :
    claimProbe cfg b.enterHalfOpen now =
      (true, { b.enterHalfOpen with halfOpenRequests := 1, halfOpenProbeMs := now }) := by
  have hslot : b.enterHalfOpen.halfOpenRequests < cfg.maxProbes := by
    have hpos := hcfg.probes.1
    have hzero : b.enterHalfOpen.halfOpenRequests.toNat = 0 := rfl
    rw [BitVec.lt_def, hcfg.maxProbes_toNat]
    omega
  have hone : b.enterHalfOpen.halfOpenRequests + 1 = 1 := by
    change (0 : BitVec 64) + 1 = 1
    decide
  simp only [claimProbe, if_pos hslot, hone]

theorem perform_move (hcfg : cfg.Positive) {b : CircuitBreaker} (hb : Settled b.state) (call : BreakerCall) :
    BreakerMove cfg b call (b.perform cfg call).1 (b.perform cfg call).2 := by
  obtain ⟨state, counts, successes, requests, probeMs, enteredMs, transitions⟩ := b
  cases state with
  | kClosed =>
    cases call with
    | allowRequest now now' => exact .pass now now' rfl
    | onSuccess =>
      simp only [perform, onSuccess]
      split_ifs with h
      · exact .recover rfl h
      · exact .succeed rfl h
    | onFailure now =>
      simp only [perform, onFailure]
      split_ifs with h
      · exact .trip now rfl h
      · exact .fail now rfl h
  | kOpen =>
    cases call with
    | allowRequest now now' =>
      simp only [perform, allowRequest]
      split_ifs with h
      · exact .reject now now' rfl h
      · rw [claimProbe_enterHalfOpen hcfg]
        exact .reopen now now' rfl (BitVec.not_lt.1 h)
    | onSuccess => exact .ignore _ rfl (by simp)
    | onFailure now => exact .ignore _ rfl (by simp)
  | kHalfOpen =>
    cases call with
    | allowRequest now now' =>
      simp only [perform, allowRequest, claimProbe]
      split_ifs with h h'
      · exact .grant now now' rfl h
      · exact .stall now now' rfl (BitVec.not_lt.1 h) h'.2
      · exact .refuse now now' rfl (BitVec.not_lt.1 h) (BitVec.not_le.1 fun hle => h' ⟨hcfg.timeout.1, hle⟩)
    | onSuccess =>
      simp only [perform, onSuccess]
      split_ifs with h
      · exact .close rfl h
      · exact .probeOk rfl h
    | onFailure now => exact .probeFailed now rfl
  | kTransitioningToOpen | kTransitioningToHalfOpen | kTransitioningToClosed => exact absurd hb id

end Step

end Coropact.Gateway
