/-
Histories of the circuit breaker (`include/coropact/gateway/circuit_breaker.h`), one call after the other.

A history is a log: each entry holds a call, what `AllowRequest` returned, and the state before and after. What is said
about a history is said about its log alone: the period since the last change of state, the outcomes reported in it, the
probes admitted in it, the last entry to OPEN. The code keeps counters instead, which it resets at the changes.
-/
import Coropact.Gateway.CircuitBreaker
import Mathlib.Data.List.DropRight

namespace Coropact.Gateway

open Coropact.Machine List Option

/-! ## Logs -/

def BreakerCall.time : BreakerCall → ℕ
  | .allowRequest _ now' => now'
  | .onSuccess => 0
  | .onFailure now => now

open BreakerCall

def BreakerCall.outcome : BreakerCall → Option Bool
  | .allowRequest _ _ => none
  | .onSuccess => some true
  | .onFailure _ => some false

def BreakerCall.isAllow : BreakerCall → Bool
  | .allowRequest _ _ => true
  | _ => false

structure LogEntry where
  call : BreakerCall
  /-- what `AllowRequest` returned -/
  admitted : Bool
  before : BreakerState
  after : BreakerState
deriving DecidableEq, Repr

open LogEntry

def LogEntry.changes (x : LogEntry) : Bool := x.before != x.after

def LogEntry.opens (x : LogEntry) : Bool := x.changes && x.after == .kOpen

/-- the entries behind the last change of state -/
def sinceChange (log : List LogEntry) : List LogEntry := log.rtakeWhile fun x => !x.changes

def lastChange (log : List LogEntry) : Option LogEntry := (log.filter changes).getLast?

/-- the current period: the entry that began it and what followed -/
def period (log : List LogEntry) : List LogEntry := (lastChange log).toList ++ sinceChange log

def probes (log : List LogEntry) : List LogEntry := (period log).filter admitted

def lastProbe (log : List LogEntry) : Option ℕ := (probes log).getLast?.map fun x => x.call.time

def lastOpened (log : List LogEntry) : Option ℕ := (log.filter opens).getLast?.map fun x => x.call.time

def outcomesIn (log : List LogEntry) : List Bool := (sinceChange log).filterMap fun x => x.call.outcome

/-- the outcomes behind the last run of `n` successes in a row -/
def sinceRun (n : ℕ) (os : List Bool) : List Bool :=
  os.drop (Nat.findGreatest (fun k => List.replicate n true <:+ os.take k) os.length)

def changeCount (log : List LogEntry) : ℕ := log.countP changes

/-- the rules of the state machine, for one entry behind a log -/
structure Lawful (cfg : CircuitBreakerConfig) (log : List LogEntry) (x : LogEntry) : Prop where
  /-- CLOSED trips at the failure that makes the failures behind the last run of successes reach the threshold -/
  trips : x.before = .kClosed → (x.after = .kOpen ∨ x.after = .kClosed) ∧
    (x.after = .kOpen ↔ x.call.outcome = some false ∧
      (sinceRun cfg.successThreshold.toNat (outcomesIn log ++ [false])).count false = cfg.failureThreshold.toNat)
  /-- no request is admitted before the timeout has passed since the last entry to OPEN -/
  waits : ∀ now now', x.call = .allowRequest now now' → x.admitted = true →
    ∀ t ∈ lastOpened log, t + cfg.openTimeout.toNat ≤ now
  /-- HALF_OPEN admits no more requests than the quota -/
  quota : x.after = .kHalfOpen → (probes (log ++ [x])).length ≤ cfg.halfOpenMaxRequests.toNat
  /-- HALF_OPEN closes at the success that makes the threshold -/
  closes : x.before = .kHalfOpen → (x.after = .kClosed ↔
    x.call.outcome = some true ∧ (outcomesIn log).count true + 1 = cfg.successThreshold.toNat)
  fails : x.before = .kHalfOpen → x.call.outcome = some false → x.after = .kOpen
  /-- and otherwise only at a refused request, when the timeout has passed since the last probe -/
  stalls : x.before = .kHalfOpen → x.after = .kOpen → x.call.outcome = some false ∨
    (∃ now now', x.call = .allowRequest now now') ∧ x.admitted = false ∧
      ∃ p, lastProbe log = some p ∧ p + cfg.openTimeout.toNat ≤ x.call.time

/-! ## Logs one entry longer -/

section Snoc

variable {log : List LogEntry} {x : LogEntry}

theorem changes_iff : x.changes = true ↔ x.before ≠ x.after := by simp [changes]

theorem sinceChange_same (h : x.before = x.after) : sinceChange (log ++ [x]) = sinceChange log ++ [x] := by
  have hx : x.changes = false := by simp [changes, h]
  exact rtakeWhile_concat_pos _ _ _ (by simp [hx])

theorem sinceChange_change (h : x.before ≠ x.after) : sinceChange (log ++ [x]) = [] := by
  have hx : x.changes = true := changes_iff.2 h
  exact rtakeWhile_concat_neg _ _ _ (by simp [hx])

theorem lastChange_same (h : x.before = x.after) : lastChange (log ++ [x]) = lastChange log := by
  have hx : x.changes = false := by simp [changes, h]
  simp [lastChange, filter_append, hx]

theorem lastChange_change (h : x.before ≠ x.after) : lastChange (log ++ [x]) = some x := by
  have hx : x.changes = true := changes_iff.2 h
  simp [lastChange, filter_append, hx]

theorem period_same (h : x.before = x.after) : period (log ++ [x]) = period log ++ [x] := by
  rw [period, lastChange_same h, sinceChange_same h, ← append_assoc, period]

theorem period_change (h : x.before ≠ x.after) : period (log ++ [x]) = [x] := by
  rw [period, lastChange_change h, sinceChange_change h]
  rfl

theorem lastOpened_opens (h : x.before ≠ x.after) (ho : x.after = .kOpen) :
    lastOpened (log ++ [x]) = some x.call.time := by
  have hx : x.opens = true := by simp [opens, changes_iff.2 h, ho]
  simp [lastOpened, filter_append, hx]

theorem lastOpened_other (h : x.before = x.after ∨ x.after ≠ .kOpen) : lastOpened (log ++ [x]) = lastOpened log := by
  have hx : x.opens = false := by
    rcases h with h | h
    · simp [opens, changes, h]
    · simp [opens, h]
  simp [lastOpened, filter_append, hx]

theorem changeCount_snoc : changeCount (log ++ [x]) = changeCount log + if x.before = x.after then 0 else 1 := by
  rw [changeCount, countP_append, changeCount]
  by_cases h : x.before = x.after <;> simp [changes, h]

theorem outcomesIn_change (h : x.before ≠ x.after) : outcomesIn (log ++ [x]) = [] := by
  rw [outcomesIn, sinceChange_change h]
  rfl

theorem outcomesIn_same (h : x.before = x.after) :
    outcomesIn (log ++ [x]) = outcomesIn log ++ x.call.outcome.toList := by
  rw [outcomesIn, sinceChange_same h, outcomesIn]
  cases hx : x.call.outcome <;> simp [hx]

end Snoc

/-! ## Runs of successes -/

section SinceRun

variable {n : ℕ} {os : List Bool}

variable {b : Bool}

theorem findGreatest_snoc :
    Nat.findGreatest (fun k => List.replicate n true <:+ (os ++ [b]).take k) os.length =
      Nat.findGreatest (fun k => List.replicate n true <:+ os.take k) os.length := by
  have hle : ∀ k ≤ os.length, (os ++ [b]).take k = os.take k := fun k hk => take_append_of_le_length hk
  rw [Nat.findGreatest_eq_iff]
  obtain ⟨h1, h2, h3⟩ := Nat.findGreatest_eq_iff.1 (Eq.refl
    (Nat.findGreatest (fun k => List.replicate n true <:+ os.take k) os.length))
  refine ⟨h1, fun hne => ?_, fun k hk hk' => ?_⟩
  · rw [hle _ h1]
    exact h2 hne
  · rw [hle k hk']
    exact h3 hk hk'

theorem sinceRun_run (h : List.replicate n true <:+ os ++ [b]) : sinceRun n (os ++ [b]) = [] := by
  have hlen : (os ++ [b]).length = os.length + 1 := by simp
  have htake : (os ++ [b]).take (os.length + 1) = os ++ [b] := take_of_length_le hlen.le
  rw [sinceRun, hlen, Nat.findGreatest_succ, if_pos (by rw [htake]; exact h), drop_eq_nil_of_le hlen.le]

theorem sinceRun_snoc (h : ¬ List.replicate n true <:+ os ++ [b]) :
    sinceRun n (os ++ [b]) = sinceRun n os ++ [b] := by
  have hlen : (os ++ [b]).length = os.length + 1 := by simp
  have htake : (os ++ [b]).take (os.length + 1) = os ++ [b] := take_of_length_le hlen.le
  rw [sinceRun, hlen, Nat.findGreatest_of_not (by rw [htake]; exact h), findGreatest_snoc,
    drop_append_of_le_length (Nat.findGreatest_le _), sinceRun]

/-- the number of successes at the end -/
def streak (os : List Bool) : ℕ := (os.rtakeWhile id).length

theorem streak_true : streak (os ++ [true]) = streak os + 1 := by
  rw [streak, rtakeWhile_concat_pos _ _ _ rfl, length_append]
  rfl

theorem streak_false : streak (os ++ [false]) = 0 := by
  rw [streak, rtakeWhile_concat_neg _ _ _ (by decide)]
  rfl

theorem replicate_suffix_iff : List.replicate n true <:+ os ↔ n ≤ streak os := by
  constructor
  · intro h
    induction n generalizing os with
    | zero => exact Nat.zero_le _
    | succ n ih =>
      obtain ⟨pre, rfl⟩ := h
      rw [replicate_succ', ← append_assoc, streak_true]
      exact Nat.succ_le_succ (ih ⟨pre, rfl⟩)
  · intro h
    have hall : os.rtakeWhile id = List.replicate (streak os) true := by
      rw [eq_replicate_iff]
      exact ⟨rfl, fun b hb => mem_rtakeWhile_imp hb⟩
    refine List.IsSuffix.trans ⟨List.replicate (streak os - n) true, ?_⟩ (List.rtakeWhile_suffix id os)
    rw [hall, replicate_append_replicate, Nat.sub_add_cancel h]

end SinceRun

/-! ## The counters and the log -/

structure Timed where
  breaker : CircuitBreaker := {}
  clock : ℕ := 0
deriving DecidableEq, Repr

def BreakerCall.InTime (clock : ℕ) : BreakerCall → Prop
  | .allowRequest now now' => clock ≤ now ∧ now ≤ now'
  | .onSuccess => True
  | .onFailure now => clock ≤ now

instance (clock : ℕ) (call : BreakerCall) : Decidable (call.InTime clock) := by
  cases call <;> unfold BreakerCall.InTime <;> infer_instance

def BreakerCall.clockAfter (clock : ℕ) : BreakerCall → ℕ
  | .allowRequest _ now' => now'
  | .onSuccess => clock
  | .onFailure now => now

/-- one call; the entry must say what happens -/
def logStep (cfg : CircuitBreakerConfig) (s : Timed) (x : LogEntry) : Option Timed :=
  if x.call.InTime s.clock ∧ x.before = s.breaker.state ∧ x.admitted = (s.breaker.perform cfg x.call).1 ∧
      x.after = (s.breaker.perform cfg x.call).2.state then
    some ⟨(s.breaker.perform cfg x.call).2, x.call.clockAfter s.clock⟩
  else none

theorem logStep_some {cfg : CircuitBreakerConfig} {s s' : Timed} {x : LogEntry} (h : logStep cfg s x = some s') :
    x.call.InTime s.clock ∧ x.before = s.breaker.state ∧ x.admitted = (s.breaker.perform cfg x.call).1 ∧
      x.after = s'.breaker.state ∧ s'.breaker = (s.breaker.perform cfg x.call).2 ∧
        s'.clock = x.call.clockAfter s.clock := by
  unfold logStep at h
  split_ifs at h with hx
  cases h
  exact ⟨hx.1, hx.2.1, hx.2.2.1, hx.2.2.2, rfl, rfl⟩

section Tracked

variable (cfg : CircuitBreakerConfig)

structure ClosedCounts (os : List Bool) (counts : BitVec 64) : Prop where
  failures : (closedFailures counts).toNat = (sinceRun cfg.successThreshold.toNat os).count false
  failures_lt : (closedFailures counts).toNat < cfg.failureThreshold.toNat
  successes_lt : (closedSuccesses counts).toNat < cfg.successThreshold.toNat
  /-- the counter starts over behind a run that reaches the threshold, the streak does not -/
  successes_le : (closedSuccesses counts).toNat ≤ streak os
  successes_eq : (closedFailures counts).toNat ≠ 0 → (closedSuccesses counts).toNat = streak os

structure ProbeCounts (log : List LogEntry) (b : CircuitBreaker) (clock : ℕ) : Prop where
  requests : b.halfOpenRequests.toNat = (period log).countP fun x => x.call.isAllow
  probes : (probes log).length = min b.halfOpenRequests.toNat cfg.halfOpenMaxRequests.toNat
  successes : b.halfOpenSuccessCount.toNat = (outcomesIn log).count true
  successes_lt : b.halfOpenSuccessCount.toNat < cfg.successThreshold.toNat
  probeMs : ∃ p, lastProbe log = some p ∧ b.halfOpenProbeMs = nowMs p ∧ p ≤ clock

/-- the timeout has passed since the last entry to OPEN -/
def Waited (log : List LogEntry) (clock : ℕ) : Prop := ∀ t ∈ lastOpened log, t + cfg.openTimeout.toNat ≤ clock

def InPhase (log : List LogEntry) (s : Timed) : Prop :=
  match s.breaker.state with
  | .kClosed => ClosedCounts cfg (outcomesIn log) s.breaker.closedCounts ∧ Waited cfg log s.clock
  | .kOpen => ∃ t, lastOpened log = some t ∧ s.breaker.openEnteredMs = nowMs t ∧ t ≤ s.clock
  | .kHalfOpen => ProbeCounts cfg log s.breaker s.clock ∧ Waited cfg log s.clock
  | _ => False

structure Tracked (log : List LogEntry) (s : Timed) : Prop where
  count : s.breaker.transitionCount.toNat = changeCount log
  phase : InPhase cfg log s

end Tracked

section Step

variable {cfg : CircuitBreakerConfig} {log : List LogEntry} {s s' : Timed} {x : LogEntry}

theorem Tracked.settled (h : Tracked cfg log s) : Settled s.breaker.state := by
  have hphase := h.phase
  unfold InPhase at hphase
  cases hs : s.breaker.state with
  | kClosed | kOpen | kHalfOpen => trivial
  | _ =>
    rw [hs] at hphase
    exact hphase

variable {os : List Bool} {counts : BitVec 64} {clock : ℕ}

theorem Waited.mono {clock' : ℕ} (h : Waited cfg log clock) (hle : clock ≤ clock') : Waited cfg log clock' :=
  fun t ht => (h t ht).trans hle

theorem Waited.snoc {clock' : ℕ} (h : Waited cfg log clock) (hle : clock ≤ clock')
    (hx : x.before = x.after ∨ x.after ≠ .kOpen) : Waited cfg (log ++ [x]) clock' := by
  rw [Waited, lastOpened_other hx]
  exact h.mono hle

theorem ClosedCounts.snoc_false (hcfg : cfg.Positive) (h : ClosedCounts cfg os counts) :
    (saturatingIncrement (closedFailures counts)).toNat =
      (sinceRun cfg.successThreshold.toNat (os ++ [false])).count false := by
  have hrun : ¬ List.replicate cfg.successThreshold.toNat true <:+ os ++ [false] := by
    rw [replicate_suffix_iff, streak_false]
    have := hcfg.success.1
    omega
  have hlt := h.failures_lt
  have hmax := hcfg.failure.2
  rw [saturatingIncrement_toNat (by omega), sinceRun_snoc hrun, count_append, ← h.failures]
  rfl

theorem closedCounts_fail (hcfg : cfg.Positive) (h : ClosedCounts cfg os counts)
    (hlt : ¬ cfg.failureLimit ≤ saturatingIncrement (closedFailures counts)) :
    ClosedCounts cfg (os ++ [false]) (packClosedCounts (saturatingIncrement (closedFailures counts)) 0) := by
  have hzero : (0 : BitVec 32).toNat = 0 := rfl
  rw [BitVec.not_le, BitVec.lt_def, hcfg.failureLimit_toNat] at hlt
  have hpos := hcfg.success.1
  constructor
  · rw [closedFailures_pack, h.snoc_false hcfg]
  · rw [closedFailures_pack]
    exact hlt
  · rw [closedSuccesses_pack]
    omega
  · rw [closedSuccesses_pack]
    exact Nat.zero_le _
  · rw [closedSuccesses_pack, streak_false]
    exact fun _ => rfl

theorem closedCounts_recover (hcfg : cfg.Positive) (h : ClosedCounts cfg os counts)
    (hle : cfg.successLimit ≤ saturatingIncrement (closedSuccesses counts)) :
    ClosedCounts cfg (os ++ [true]) (packClosedCounts 0 0) := by
  have hzero : (0 : BitVec 32).toNat = 0 := rfl
  have hlt := h.successes_lt
  rw [BitVec.le_def, hcfg.successLimit_toNat, saturatingIncrement_toNat (by omega)] at hle
  have hrun : List.replicate cfg.successThreshold.toNat true <:+ os ++ [true] := by
    rw [replicate_suffix_iff, streak_true]
    have := h.successes_le
    omega
  have hf := hcfg.failure.1
  constructor
  · rw [closedFailures_pack, sinceRun_run hrun]
    rfl
  · rw [closedFailures_pack]
    omega
  · rw [closedSuccesses_pack]
    omega
  · rw [closedSuccesses_pack]
    exact Nat.zero_le _
  · rw [closedFailures_pack]
    exact fun hne => absurd hzero hne

theorem closedCounts_succeed (hcfg : cfg.Positive) (h : ClosedCounts cfg os counts)
    (hlt : ¬ cfg.successLimit ≤ saturatingIncrement (closedSuccesses counts)) :
    ClosedCounts cfg (os ++ [true])
      (packClosedCounts (closedFailures counts) (saturatingIncrement (closedSuccesses counts))) := by
  have hlt' := h.successes_lt
  have hmax := hcfg.success.2
  have hinc : (saturatingIncrement (closedSuccesses counts)).toNat = (closedSuccesses counts).toNat + 1 :=
    saturatingIncrement_toNat (by omega)
  rw [BitVec.not_le, BitVec.lt_def, hcfg.successLimit_toNat, hinc] at hlt
  constructor
  · rw [closedFailures_pack]
    by_cases hrun : List.replicate cfg.successThreshold.toNat true <:+ os ++ [true]
    · -- a longer run than the counter knows of: there are no failures behind the one before
      rw [sinceRun_run hrun]
      by_contra hne
      have hstreak := h.successes_eq hne
      rw [replicate_suffix_iff, streak_true] at hrun
      omega
    · rw [sinceRun_snoc hrun, count_append, h.failures]
      rfl
  · rw [closedFailures_pack]
    exact h.failures_lt
  · rw [closedSuccesses_pack, hinc]
    exact hlt
  · rw [closedSuccesses_pack, hinc, streak_true]
    exact Nat.succ_le_succ h.successes_le
  · rw [closedFailures_pack, closedSuccesses_pack, hinc, streak_true]
    intro hne
    rw [h.successes_eq hne]

theorem closedCounts_zero (hcfg : cfg.Positive) : ClosedCounts cfg [] 0 := by
  have hf := hcfg.failure.1
  have hs := hcfg.success.1
  have h1 : (closedFailures 0).toNat = 0 := rfl
  have h2 : (closedSuccesses 0).toNat = 0 := rfl
  refine ⟨?_, by omega, by omega, by omega, fun hne => absurd h1 hne⟩
  rw [h1]
  simp [sinceRun]

theorem clock_le_clockAfter {call : BreakerCall} (h : call.InTime clock) : clock ≤ call.clockAfter clock := by
  cases call with
  | allowRequest now now' => exact h.1.trans h.2
  | onSuccess => exact le_rfl
  | onFailure now => exact h

theorem count_same (h : Tracked cfg log s) (hx : x.before = x.after)
    (ht : s'.breaker.transitionCount = s.breaker.transitionCount) :
    s'.breaker.transitionCount.toNat = changeCount (log ++ [x]) := by
  rw [ht, h.count, changeCount_snoc, if_pos hx, Nat.add_zero]

theorem count_change (hlen : log.length + 1 < 2 ^ 64) (h : Tracked cfg log s) (hx : x.before ≠ x.after)
    (ht : s'.breaker.transitionCount = s.breaker.transitionCount + 1) :
    s'.breaker.transitionCount.toNat = changeCount (log ++ [x]) := by
  have hle : changeCount log ≤ log.length := countP_le_length
  have hcount := h.count
  rw [ht, add_one_toNat (by omega), h.count, changeCount_snoc, if_neg hx]

theorem lawful_of_ne (hb : x.before ≠ .kHalfOpen)
    (htrips : x.before = .kClosed → (x.after = .kOpen ∨ x.after = .kClosed) ∧
      (x.after = .kOpen ↔ x.call.outcome = some false ∧
        (sinceRun cfg.successThreshold.toNat (outcomesIn log ++ [false])).count false = cfg.failureThreshold.toNat))
    (hwaits : ∀ now now', x.call = .allowRequest now now' → x.admitted = true → Waited cfg log now)
    (hquota : x.after = .kHalfOpen → (probes (log ++ [x])).length ≤ cfg.halfOpenMaxRequests.toNat) : Lawful cfg log x :=
  ⟨htrips, hwaits, hquota, fun hc => absurd hc hb, fun hc => absurd hc hb, fun hc => absurd hc hb⟩

theorem lastProbe_admitted (hsame : x.before = x.after) (hadm : x.admitted = true) :
    lastProbe (log ++ [x]) = some x.call.time := by
  rw [lastProbe, probes, period_same hsame, filter_append, filter_cons_of_pos hadm]
  simp

theorem probes_admitted (hsame : x.before = x.after) (hadm : x.admitted = true) :
    probes (log ++ [x]) = probes log ++ [x] := by
  rw [probes, period_same hsame, filter_append, filter_cons_of_pos hadm]
  rfl

theorem probes_refused (hsame : x.before = x.after) (hadm : x.admitted = false) : probes (log ++ [x]) = probes log := by
  rw [probes, period_same hsame, filter_append, filter_cons_of_neg (by simp [hadm]), filter_nil,
    append_nil, probes]

theorem period_length_le (log : List LogEntry) : (period log).length ≤ log.length := by
  induction log using List.reverseRecOn with
  | nil => simp [period, lastChange, sinceChange]
  | append_singleton log x ih =>
    by_cases h : x.before = x.after
    · rw [period_same h, length_append, length_append]
      exact Nat.add_le_add_right ih _
    · rw [period_change h, length_append]
      exact Nat.le_add_left _ _

theorem successLimit_le_iff (hcfg : cfg.Positive) {n : BitVec 64} (hn : n.toNat < cfg.successThreshold.toNat) :
    cfg.successLimit.setWidth 64 ≤ n + 1 ↔ n.toNat + 1 = cfg.successThreshold.toNat := by
  have hmax := hcfg.success.2
  rw [BitVec.le_def, BitVec.toNat_setWidth, hcfg.successLimit_toNat, add_one_toNat (by omega)]
  omega

section ProbeCounts

variable {b : CircuitBreaker} {clock clock' : ℕ}

theorem ProbeCounts.requests_snoc (h : ProbeCounts cfg log b clock) (hlen : log.length + 1 < 2 ^ 64)
    (hsame : x.before = x.after) (hallow : x.call.isAllow = true) :
    (b.halfOpenRequests + 1).toNat = b.halfOpenRequests.toNat + 1 ∧
      (b.halfOpenRequests + 1).toNat = (period (log ++ [x])).countP fun x => x.call.isAllow := by
  have hreq := h.requests
  have hbound : (period log).countP (fun x => x.call.isAllow) ≤ log.length :=
    countP_le_length.trans (period_length_le log)
  have hinc : (b.halfOpenRequests + 1).toNat = b.halfOpenRequests.toNat + 1 := add_one_toNat (by omega)
  refine ⟨hinc, ?_⟩
  rw [hinc, hreq, period_same hsame]
  simp [hallow]

theorem ProbeCounts.successes_snoc (h : ProbeCounts cfg log b clock) (hsame : x.before = x.after)
    (hnone : x.call.outcome = none) : b.halfOpenSuccessCount.toNat = (outcomesIn (log ++ [x])).count true := by
  rw [outcomesIn_same hsame, hnone]
  simpa using h.successes

theorem ProbeCounts.probeMs_snoc (h : ProbeCounts cfg log b clock) (hmono : clock ≤ clock') (hsame : x.before = x.after)
    (hadm : x.admitted = false) : ∃ p, lastProbe (log ++ [x]) = some p ∧ b.halfOpenProbeMs = nowMs p ∧ p ≤ clock' := by
  obtain ⟨p, hp, hprobe, hple⟩ := h.probeMs
  rw [lastProbe, probes_refused hsame hadm]
  exact ⟨p, hp, hprobe, hple.trans hmono⟩

theorem probeCounts_grant (h : ProbeCounts cfg log b clock) (hlen : log.length + 1 < 2 ^ 64)
    (hsame : x.before = x.after) {now now' : ℕ} (hcall : x.call = .allowRequest now now') (hadm : x.admitted = true)
    (hfree : b.halfOpenRequests.toNat < cfg.halfOpenMaxRequests.toNat) (hclock : now' ≤ clock') :
    ProbeCounts cfg (log ++ [x])
      { b with halfOpenRequests := b.halfOpenRequests + 1, halfOpenProbeMs := nowMs now' } clock' := by
  obtain ⟨hinc, hreq⟩ := h.requests_snoc hlen hsame (by rw [hcall]; rfl)
  have hprobes := h.probes
  refine ⟨hreq, ?_, h.successes_snoc hsame (by rw [hcall]; rfl), h.successes_lt, now', ?_, rfl, hclock⟩
  · rw [probes_admitted hsame hadm, length_append, length_singleton, hinc]
    omega
  · rw [lastProbe_admitted hsame hadm, hcall]
    rfl

theorem probeCounts_refuse (h : ProbeCounts cfg log b clock) (hlen : log.length + 1 < 2 ^ 64) (hmono : clock ≤ clock')
    (hsame : x.before = x.after) {now now' : ℕ} (hcall : x.call = .allowRequest now now') (hadm : x.admitted = false)
    (hfull : cfg.halfOpenMaxRequests.toNat ≤ b.halfOpenRequests.toNat) :
    ProbeCounts cfg (log ++ [x]) { b with halfOpenRequests := b.halfOpenRequests + 1 } clock' := by
  obtain ⟨hinc, hreq⟩ := h.requests_snoc hlen hsame (by rw [hcall]; rfl)
  have hprobes := h.probes
  refine ⟨hreq, ?_, h.successes_snoc hsame (by rw [hcall]; rfl), h.successes_lt, h.probeMs_snoc hmono hsame hadm⟩
  rw [probes_refused hsame hadm, hinc]
  omega

theorem probeCounts_succeed (hcfg : cfg.Positive) (h : ProbeCounts cfg log b clock) (hmono : clock ≤ clock')
    (hsame : x.before = x.after) (hcall : x.call = .onSuccess) (hadm : x.admitted = false)
    (hlt : b.halfOpenSuccessCount.toNat + 1 ≠ cfg.successThreshold.toNat) :
    ProbeCounts cfg (log ++ [x]) { b with halfOpenSuccessCount := b.halfOpenSuccessCount + 1 } clock' := by
  have hsuccLt := h.successes_lt
  have hmax := hcfg.success.2
  have hinc : (b.halfOpenSuccessCount + 1).toNat = b.halfOpenSuccessCount.toNat + 1 := add_one_toNat (by omega)
  refine ⟨?_, ?_, ?_, ?_, h.probeMs_snoc hmono hsame hadm⟩
  · rw [h.requests, period_same hsame]
    simp [hcall, isAllow]
  · rw [probes_refused hsame hadm]
    exact h.probes
  · rw [hinc, h.successes, outcomesIn_same hsame, hcall]
    simp [outcome]
  · rw [hinc]
    omega

end ProbeCounts

/-! ## One move -/

section Moves

variable {b b' : CircuitBreaker} {call : BreakerCall} {admitted : Bool} {clock' : ℕ}

theorem inPhase_closed (hs : b.state = .kClosed) (hs' : b'.state = .kClosed)
    (hcounts : ClosedCounts cfg (outcomesIn log ++ call.outcome.toList) b'.closedCounts)
    (hwaited : Waited cfg log clock)
    (hle : clock ≤ clock') : InPhase cfg (log ++ [⟨call, admitted, b.state, b'.state⟩]) ⟨b', clock'⟩ := by
  simp only [InPhase, hs']
  rw [outcomesIn_same hs]
  exact ⟨hcounts, hwaited.snoc hle (.inl hs)⟩

theorem inPhase_opens (hs : b.state ≠ .kOpen) (hs' : b'.state = .kOpen) (hms : b'.openEnteredMs = nowMs call.time)
    (hle : call.time ≤ clock') : InPhase cfg (log ++ [⟨call, admitted, b.state, b'.state⟩]) ⟨b', clock'⟩ := by
  simp only [InPhase, hs']
  exact ⟨call.time, lastOpened_opens hs rfl, hms, hle⟩

theorem inPhase_halfOpen (hs : b.state = .kHalfOpen) (hs' : b'.state = .kHalfOpen)
    (hcounts : ProbeCounts cfg (log ++ [⟨call, admitted, b.state, b'.state⟩]) b' clock')
    (hwaited : Waited cfg log clock)
    (hle : clock ≤ clock') : InPhase cfg (log ++ [⟨call, admitted, b.state, b'.state⟩]) ⟨b', clock'⟩ := by
  have hwaited' := hwaited.snoc (x := ⟨call, admitted, b.state, b'.state⟩) hle (.inl (hs.trans hs'.symm))
  rw [InPhase, hs']
  rw [hs'] at hcounts hwaited'
  exact ⟨hcounts, hwaited'⟩

variable (hcfg : cfg.Positive) (hlen : log.length + 1 < 2 ^ 64) (h : Tracked cfg log ⟨b, clock⟩)
  (htime : call.InTime clock) (hmove : BreakerMove cfg b call admitted b')

include hcfg hlen h htime hmove

theorem move_tracked_closed (hs : b.state = .kClosed) :
    Lawful cfg log ⟨call, admitted, b.state, b'.state⟩ ∧
      Tracked cfg (log ++ [⟨call, admitted, b.state, b'.state⟩]) ⟨b', call.clockAfter clock⟩ := by
  have hmono := clock_le_clockAfter htime
  have hphase := h.phase
  simp only [InPhase, hs] at hphase
  obtain ⟨hcounts, hwaited⟩ := hphase
  have hne : b.state ≠ .kHalfOpen := by simp [hs]
  cases hmove with
  | pass now now' =>
    refine ⟨lawful_of_ne hne (by simp [hs, outcome]) ?_ (by simp [hs]), count_same h rfl rfl, ?_⟩
    · rintro _ _ hc -
      cases hc
      exact hwaited.mono htime.1
    · exact inPhase_closed hs hs (by simpa [outcome] using hcounts) hwaited hmono
  | recover _ hle =>
    refine ⟨lawful_of_ne hne (by simp [hs, outcome]) (by simp) (by simp [hs]), count_same h rfl rfl, ?_⟩
    exact inPhase_closed hs hs (closedCounts_recover hcfg hcounts hle) hwaited hmono
  | succeed _ hlt =>
    refine ⟨lawful_of_ne hne (by simp [hs, outcome]) (by simp) (by simp [hs]), count_same h rfl rfl, ?_⟩
    exact inPhase_closed hs hs (closedCounts_succeed hcfg hcounts hlt) hwaited hmono
  | fail now _ hlt =>
    refine ⟨lawful_of_ne hne (fun _ => ⟨.inr hs, ?_⟩) (by simp) (by simp [hs]), count_same h rfl rfl, ?_⟩
    · have hbelow := BitVec.not_le.1 hlt
      rw [BitVec.lt_def, hcfg.failureLimit_toNat, hcounts.snoc_false hcfg] at hbelow
      simp only [hs, reduceCtorEq, false_iff, not_and]
      exact fun _ => hbelow.ne
    · exact inPhase_closed hs hs (closedCounts_fail hcfg hcounts hlt) hwaited hmono
  | trip now _ hle =>
    have hchange : b.state ≠ .kOpen := by simp [hs]
    refine ⟨lawful_of_ne hne (fun _ => ⟨.inl rfl, iff_of_true rfl ⟨rfl, ?_⟩⟩) (by simp) nofun,
      count_change hlen h hchange rfl, inPhase_opens hchange rfl rfl le_rfl⟩
    have hlt := hcounts.failures_lt
    have hmax := hcfg.failure.2
    rw [BitVec.le_def, hcfg.failureLimit_toNat] at hle
    rw [← hcounts.snoc_false hcfg]
    rw [saturatingIncrement_toNat (by omega)] at hle ⊢
    omega
  | reject _ _ hs' | ignore _ hs' | reopen _ _ hs' | grant _ _ hs' | stall _ _ hs' | refuse _ _ hs' | probeOk hs'
  | close hs' | probeFailed _ hs' => exact absurd (hs.symm.trans hs') (by decide)

theorem move_tracked_open (hs : b.state = .kOpen) :
    Lawful cfg log ⟨call, admitted, b.state, b'.state⟩ ∧
      Tracked cfg (log ++ [⟨call, admitted, b.state, b'.state⟩]) ⟨b', call.clockAfter clock⟩ := by
  have hmono := clock_le_clockAfter htime
  have hphase := h.phase
  simp only [InPhase, hs] at hphase
  obtain ⟨t, ht, hentered, hle⟩ := hphase
  have hne : b.state ≠ .kHalfOpen := by simp [hs]
  cases hmove with
  | reject now now' | ignore =>
    refine ⟨lawful_of_ne hne (by simp [hs]) (by simp) (by simp [hs]), count_same h rfl rfl, ?_⟩
    simp only [InPhase, hs]
    exact ⟨t, (lastOpened_other (.inl rfl)).trans ht, hentered, hle.trans hmono⟩
  | reopen now now' _ hpast =>
    have hwait : Waited cfg log now := fun t' ht' => by
      obtain rfl := some.inj (ht.symm.trans ht')
      exact hcfg.elapsed (hle.trans htime.1) (hentered ▸ hpast)
    have hperiod : period (log ++ [⟨.allowRequest now now', true, b.state, .kHalfOpen⟩]) = _ := period_change hne
    have hprobes := congrArg (List.filter admitted) hperiod
    have hquota := hcfg.probes.1
    have hsuccess := hcfg.success.1
    refine ⟨lawful_of_ne hne (by simp [hs]) ?_ fun _ => ?_, count_change hlen h hne rfl,
      ⟨?_, ?_, ?_, ?_, now', ?_, rfl, le_rfl⟩, hwait.snoc htime.2 (.inr nofun)⟩
    · rintro _ _ hc -
      cases hc
      exact hwait
    · exact (congrArg List.length hprobes).trans_le (by change 1 ≤ _; omega)
    · exact (congrArg (List.countP fun x => x.call.isAllow) hperiod).symm
    · exact (congrArg List.length hprobes).trans (by change 1 = min 1 _; omega)
    · rw [outcomesIn_change]
      · rfl
      · exact hne
    · change 0 < _
      omega
    · exact congrArg (fun l => l.getLast?.map fun x => x.call.time) hprobes
  | pass _ _ hs' | recover hs' | succeed hs' | fail _ hs' | trip _ hs' | grant _ _ hs' | stall _ _ hs' | refuse _ _ hs'
  | probeOk hs' | close hs' | probeFailed _ hs' => exact absurd (hs.symm.trans hs') (by decide)

theorem move_tracked_halfOpen (hs : b.state = .kHalfOpen) :
    Lawful cfg log ⟨call, admitted, b.state, b'.state⟩ ∧
      Tracked cfg (log ++ [⟨call, admitted, b.state, b'.state⟩]) ⟨b', call.clockAfter clock⟩ := by
  have hmono := clock_le_clockAfter htime
  have hphase := h.phase
  simp only [InPhase, hs] at hphase
  obtain ⟨hcounts, hwaited⟩ := hphase
  have hprobes := hcounts.probes
  have hchange : b.state ≠ .kOpen := by simp [hs]
  cases hmove with
  | grant now now' _ hfree =>
    rw [BitVec.lt_def, hcfg.maxProbes_toNat] at hfree
    refine ⟨⟨by simp [hs], ?_, fun _ => ?_, by simp [hs, outcome], by simp [outcome], by simp [hs]⟩,
      count_same h rfl rfl,
      inPhase_halfOpen hs hs (probeCounts_grant hcounts hlen rfl rfl rfl hfree le_rfl) hwaited hmono⟩
    · rintro _ _ hc -
      cases hc
      exact hwaited.mono htime.1
    · rw [probes_admitted rfl rfl, length_append, length_singleton]
      omega
  | refuse now now' _ hfull =>
    rw [BitVec.le_def, hcfg.maxProbes_toNat] at hfull
    refine ⟨⟨by simp [hs], by simp, fun _ => ?_, by simp [hs, outcome], by simp [outcome], by simp [hs]⟩,
      count_same h rfl rfl,
      inPhase_halfOpen hs hs (probeCounts_refuse hcounts hlen hmono rfl rfl rfl hfull) hwaited hmono⟩
    rw [probes_refused rfl rfl]
    omega
  | stall now now' _ hfull hpast =>
    obtain ⟨p, hp, hprobe, hple⟩ := hcounts.probeMs
    have hlong : p + cfg.openTimeout.toNat ≤ now' :=
      hcfg.elapsed (hple.trans (htime.1.trans htime.2)) (hprobe ▸ hpast)
    exact ⟨⟨by simp [hs], by simp, nofun, fun _ => ⟨nofun, nofun⟩, fun _ _ => rfl,
      fun _ _ => .inr ⟨⟨now, now', rfl⟩, rfl, p, hp, hlong⟩⟩, count_change hlen h hchange rfl,
      inPhase_opens hchange rfl rfl le_rfl⟩
  | probeOk _ hlt =>
    rw [successLimit_le_iff hcfg hcounts.successes_lt] at hlt
    refine ⟨⟨by simp [hs], by simp, fun _ => ?_, fun _ => ?_, by simp [outcome], by simp [hs]⟩, count_same h rfl rfl,
      inPhase_halfOpen hs hs (probeCounts_succeed hcfg hcounts hmono rfl rfl rfl hlt) hwaited hmono⟩
    · rw [probes_refused rfl rfl]
      omega
    · rw [← hcounts.successes]
      simp only [hs, reduceCtorEq, false_iff, not_and]
      exact fun _ => hlt
  | close _ hle =>
    have hclosed : b.state ≠ .kClosed := by simp [hs]
    rw [successLimit_le_iff hcfg hcounts.successes_lt, hcounts.successes] at hle
    refine ⟨⟨fun hc => absurd hc hclosed, by simp, nofun, fun _ => iff_of_true rfl ⟨rfl, hle⟩, by simp [outcome],
      fun _ => nofun⟩,
      count_change hlen h hclosed rfl, ?_, hwaited.snoc hmono (.inr nofun)⟩
    rw [outcomesIn_change]
    · exact closedCounts_zero hcfg
    · exact hclosed
  | probeFailed now =>
    exact ⟨⟨by simp [hs], by simp, nofun, fun _ => ⟨nofun, nofun⟩, fun _ _ => rfl, fun _ _ => .inl rfl⟩,
      count_change hlen h hchange rfl, inPhase_opens hchange rfl rfl le_rfl⟩
  | pass _ _ hs' | recover hs' | succeed hs' | fail _ hs' | trip _ hs' | reject _ _ hs' | ignore _ hs'
  | reopen _ _ hs' => exact absurd (hs.symm.trans hs') (by decide)

end Moves

theorem step_tracked (hcfg : cfg.Positive) (hlen : log.length + 1 < 2 ^ 64) (h : Tracked cfg log s)
    (hstep : logStep cfg s x = some s') : Lawful cfg log x ∧ Tracked cfg (log ++ [x]) s' := by
  obtain ⟨htime, hbefore, hadm, hafter, hbreaker, hclock⟩ := logStep_some hstep
  have hsettled := h.settled
  have hmove := perform_move hcfg hsettled x.call
  rw [← hadm, ← hbreaker] at hmove
  obtain ⟨call, admitted, before, after⟩ := x
  obtain ⟨b', clock'⟩ := s'
  dsimp only at htime hbefore hafter hclock hmove
  subst hbefore hafter hclock
  cases hs : s.breaker.state with
  | kClosed => exact hs ▸ move_tracked_closed hcfg hlen h htime hmove hs
  | kOpen => exact hs ▸ move_tracked_open hcfg hlen h htime hmove hs
  | kHalfOpen => exact hs ▸ move_tracked_halfOpen hcfg hlen h htime hmove hs
  | _ =>
    rw [hs] at hsettled
    exact hsettled.elim

end Step

/-! ## Whole histories -/

theorem run_tracked {cfg : CircuitBreakerConfig} (hcfg : cfg.Positive) (log : List LogEntry) (s : Timed)
    (h : run (logStep cfg) {} log = some s) (hlen : log.length < 2 ^ 64) :
    EachStep (Lawful cfg) [] log ∧ Tracked cfg log s := by
  refine run_induct (fun log s => log.length < 2 ^ 64 → EachStep (Lawful cfg) [] log ∧
    Tracked cfg log s) ?_ ?_ log s h hlen
  · refine fun _ => ⟨trivial, rfl, closedCounts_zero hcfg, fun t ht => ?_⟩
    simp [lastOpened] at ht
  · intro log s x s' _ ih hstep hlen
    rw [length_append] at hlen
    obtain ⟨hlaws, htracked⟩ := ih (by omega)
    obtain ⟨hlaw, htracked'⟩ := step_tracked hcfg hlen htracked hstep
    exact ⟨eachStep_snoc.2 ⟨hlaws, hlaw⟩, htracked'⟩

/-- **History theorem.** In every history of fewer than 2^64 calls with a clock that does not go back, every call obeys
the rules of the state machine, and `transition_count` is the number of changes of state. -/
theorem history_laws {cfg : CircuitBreakerConfig} (hcfg : cfg.Positive) {log : List LogEntry} {s : Timed}
    (h : run (logStep cfg) {} log = some s) (hlen : log.length < 2 ^ 64) :
    EachStep (Lawful cfg) [] log ∧ s.breaker.transitionCount.toNat = changeCount log := by
  obtain ⟨hlaws, htracked⟩ := run_tracked hcfg log s h hlen
  exact ⟨hlaws, htracked.count⟩

/-- one failure trips, one probe at a time, one success closes -/
def tinyCfg : CircuitBreakerConfig := ⟨1, 1, 1, 1⟩

theorem tinyCfg_positive : tinyCfg.Positive := ⟨by decide, by decide, by decide, by decide⟩

def tripped : LogEntry := ⟨.onFailure 0, false, .kClosed, .kOpen⟩

def reopened : LogEntry := ⟨.allowRequest 1 1, true, .kOpen, .kHalfOpen⟩

def refused : LogEntry := ⟨.allowRequest 1 1, false, .kHalfOpen, .kHalfOpen⟩

def admittedAgain : LogEntry := ⟨.allowRequest 1 1, true, .kHalfOpen, .kHalfOpen⟩

theorem history_laws_cycle :
    EachStep (Lawful tinyCfg) [] [tripped, reopened, refused, ⟨.onSuccess, false, .kHalfOpen, .kClosed⟩] ∧
      (3 : BitVec 64).toNat = changeCount [tripped, reopened, refused, ⟨.onSuccess, false, .kHalfOpen, .kClosed⟩] :=
  history_laws tinyCfg_positive
    (s := ⟨{ closedCounts := 0, openEnteredMs := 0, transitionCount := 3 }, 1⟩) (by decide +kernel) (by decide)

/-! ## A quota that wraps -/

/-- a breaker whose quota is used up, with the probe admitted just now -/
def usedUp (requests : BitVec 64) : Timed :=
  ⟨{ state := .kHalfOpen, closedCounts := packClosedCounts 1 0, halfOpenRequests := requests
     halfOpenProbeMs := nowMs 1, transitionCount := 2 }, 1⟩

theorem refused_step {requests : BitVec 64} (h : requests ≠ 0) :
    logStep tinyCfg (usedUp requests) refused = some (usedUp (requests + 1)) := by
  have hfull : ¬ requests < tinyCfg.maxProbes := by
    rw [BitVec.lt_def, tinyCfg_positive.maxProbes_toNat]
    intro hlt
    refine h (BitVec.eq_of_toNat_eq ?_)
    change _ = 0
    have hone : tinyCfg.halfOpenMaxRequests.toNat = 1 := rfl
    omega
  have hsoon : ¬ (0 < tinyCfg.openTimeout ∧ tinyCfg.timeoutMs ≤ nowMs 1 - nowMs 1) := by decide
  have hperform : (usedUp requests).breaker.perform tinyCfg refused.call =
      (false, (usedUp (requests + 1)).breaker) := by
    simp only [CircuitBreaker.perform, refused, CircuitBreaker.allowRequest, usedUp, CircuitBreaker.claimProbe,
      hfull, hsoon,
      if_false]
  rw [logStep, hperform]
  rfl

theorem run_refused {n : ℕ} {requests : BitVec 64} (h0 : requests ≠ 0) (h : requests.toNat + n ≤ 2 ^ 64) :
    run (logStep tinyCfg) (usedUp requests) (List.replicate n refused) =
      some (usedUp (requests + BitVec.ofNat 64 n)) := by
  induction n generalizing requests with
  | zero =>
    rw [BitVec.add_zero]
    rfl
  | succ n ih =>
    rw [replicate_succ, run_cons, refused_step h0, bind_some]
    cases n with
    | zero => rfl
    | succ n =>
      have hone : (requests + 1).toNat = requests.toNat + 1 := add_one_toNat (by omega)
      have hne : requests + 1 ≠ 0 := by
        intro hc
        have hzero : (requests + 1).toNat = 0 := by rw [hc]; rfl
        omega
      have hsum : BitVec.ofNat 64 (n + 1 + 1) = 1 + BitVec.ofNat 64 (n + 1) := by
        rw [Nat.add_comm (n + 1) 1, BitVec.ofNat_add]
        rfl
      rw [ih hne (by omega), hsum, BitVec.add_assoc]

/-- a trip, a probe, `n` refused requests and one that is admitted -/
def wrapLog (n : ℕ) : List LogEntry := [tripped, reopened] ++ List.replicate n refused ++ [admittedAgain]

theorem run_wrapLog {n : ℕ} (h : n + 1 = 2 ^ 64) : run (logStep tinyCfg) {} (wrapLog n) = some (usedUp 1) := by
  have hstart : run (logStep tinyCfg) {} [tripped, reopened] = some (usedUp 1) := by decide +kernel
  have hone : (1 : BitVec 64).toNat = 1 := rfl
  have hwrap : (1 : BitVec 64) + BitVec.ofNat 64 n = 0 := by
    apply BitVec.eq_of_toNat_eq
    rw [BitVec.toNat_add, BitVec.toNat_ofNat]
    change _ = 0
    omega
  have hlast : run (logStep tinyCfg) (usedUp 0) [admittedAgain] = some (usedUp 1) := by decide +kernel
  rw [wrapLog, run_append, run_append, hstart, bind_some, run_refused (by decide) (by omega), hwrap, bind_some,
    hlast]

theorem probes_replicate_refused (log : List LogEntry) (n : ℕ) :
    probes (log ++ List.replicate n refused) = probes log := by
  induction n with
  | zero => rw [replicate_zero, append_nil]
  | succ n ih => rw [replicate_succ', ← append_assoc, probes_refused rfl rfl, ih]

theorem probes_wrapLog (n : ℕ) : probes (wrapLog n) = [reopened, admittedAgain] := by
  rw [wrapLog, probes_admitted rfl rfl, probes_replicate_refused]
  rfl

/-- 2^64 calls in one HALF_OPEN period with a quota of one: it admits a second request -/
theorem quota_wraps :
    tinyCfg.Positive ∧ (∃ s, run (logStep tinyCfg) {} (wrapLog (2 ^ 64 - 1)) = some s ∧ s.breaker.state = .kHalfOpen) ∧
      (probes (wrapLog (2 ^ 64 - 1))).length = 2 ∧ ¬ EachStep (Lawful tinyCfg) [] (wrapLog (2 ^ 64 - 1)) := by
  refine ⟨tinyCfg_positive, ⟨_, run_wrapLog (by norm_num), rfl⟩, by rw [probes_wrapLog]; rfl, fun hlaws => ?_⟩
  rw [wrapLog, eachStep_snoc] at hlaws
  have hquota := hlaws.2.quota rfl
  change (probes (wrapLog (2 ^ 64 - 1))).length ≤ 1 at hquota
  rw [probes_wrapLog] at hquota
  exact absurd hquota (by decide)

end Coropact.Gateway
