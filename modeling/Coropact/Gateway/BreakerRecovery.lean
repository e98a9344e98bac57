/-
Recovery of the circuit breaker, and the configurations it may have (`src/gateway/gateway_config_yaml.cc`,
`include/coropact/gateway/circuit_breaker.h`).

`parseCircuitBreaker` reads the node of an upstream. What the YAML library makes of a value is an argument: a field is
absent, or its conversion gives a value or the library's text.

From any reachable state the breaker can get back to CLOSED by requests that all succeed. Where `success_threshold` is
above `half_open_max_requests`, one HALF_OPEN period does not admit enough of them; but a probe whose outcome is still
out when the timeout has passed lets the breaker fall back to OPEN and probe again, and the outcomes of all of them
count in the period in which they arrive. `Reported` leaves the time of the reports open.
-/
import Coropact.Gateway.BreakerHistory

namespace Coropact.Gateway

open Coropact.Machine CircuitBreaker List

/-! ## The configuration -/

/-- a field of a YAML map: absent, or what the library's conversion gives -/
abbrev YamlField (α : Type) := Option (Except String α)

/-- the node of a circuit breaker, as far as it is read -/
inductive BreakerNode where
  | scalar (value : Except String Bool)
  | map (enabled : YamlField Bool)
      (failureThreshold successThreshold openTimeoutMs halfOpenMaxRequests : YamlField ℤ)
  | other

/-- the part of `UpstreamConfig` that is set -/
structure BreakerSettings where
  enabled : Bool := false
  circuitBreaker : CircuitBreakerConfig := {}

def intMax : ℤ := 2 ^ 31 - 1

def joinPath (base key : String) : String := if base = "" then key else base ++ "." ++ key

/-- `As`: the library's text behind the path -/
def asValue {α : Type} (value : Except String α) (ctx : String) : Except String α :=
  match value with
  | .ok v => .ok v
  | .error what => .error (ctx ++ ": " ++ what)

def readInteger (value : Except String ℤ) (ctx : String) (minValue maxValue : ℤ) : Except String ℤ := do
  let value ← asValue value ctx
  if value < minValue ∨ maxValue < value then .error (ctx ++ ": value out of range") else .ok value

def readOptionalBool (field : YamlField Bool) (key ctx : String) (out : Bool) : Except String Bool :=
  match field with
  | none => .ok out
  | some value => asValue value (joinPath ctx key)

/-- also `ReadMilliseconds` where the field is present -/
def readOptionalInt (field : YamlField ℤ) (key ctx : String) (out minValue maxValue : ℤ) : Except String ℤ :=
  match field with
  | none => .ok out
  | some value => readInteger value (joinPath ctx key) minValue maxValue

def parseCircuitBreaker (node : BreakerNode) (ctx : String) (config : BreakerSettings) :
    Except String BreakerSettings :=
  match node with
  | .scalar value => do
    let enabled ← asValue value ctx
    .ok { config with enabled := enabled }
  | .map enabled failureThreshold successThreshold openTimeoutMs halfOpenMaxRequests => do
    let cb := config.circuitBreaker
    let enabled ← readOptionalBool enabled "enabled" ctx true
    let failure ← readOptionalInt failureThreshold "failure_threshold" ctx cb.failureThreshold 1 intMax
    let success ← readOptionalInt successThreshold "success_threshold" ctx cb.successThreshold 1 intMax
    let timeout ← readOptionalInt openTimeoutMs "open_timeout_ms" ctx cb.openTimeout 1 intMax
    let probes ← readOptionalInt halfOpenMaxRequests "half_open_max_requests" ctx cb.halfOpenMaxRequests 1 intMax
    .ok ⟨enabled, ⟨failure, success, timeout, probes⟩⟩
  | .other => .error (ctx ++ ": expected a map")

theorem bind_ok {ε α β : Type} {x : Except ε α} {f : α → Except ε β} {r : β} (h : x >>= f = .ok r) :
    ∃ a, x = .ok a ∧ f a = .ok r := by
  cases x with
  | error e => cases h
  | ok a => exact ⟨a, rfl, h⟩

theorem readOptionalInt_range {field : YamlField ℤ} {key ctx : String} {out v : ℤ} (hout : 0 < out ∧ out < 2 ^ 31)
    (h : readOptionalInt field key ctx out 1 intMax = .ok v) : 0 < v ∧ v < 2 ^ 31 := by
  cases field with
  | none =>
    cases h
    exact hout
  | some value =>
    obtain ⟨n, -, h⟩ := bind_ok h
    split_ifs at h with hrange
    cases h
    simp only [intMax] at hrange
    omega

/-- **What the loader accepts is positive and in range.** -/
theorem parseCircuitBreaker_positive {node : BreakerNode} {ctx : String} {config : BreakerSettings}
    (h : parseCircuitBreaker node ctx {} = .ok config) : config.circuitBreaker.Positive := by
  have hdefault : ({} : CircuitBreakerConfig).Positive := ⟨by decide, by decide, by decide, by decide⟩
  cases node with
  | scalar value =>
    obtain ⟨enabled, -, h⟩ := bind_ok h
    cases h
    exact hdefault
  | map =>
    obtain ⟨enabled, -, h⟩ := bind_ok h
    obtain ⟨failure, hf, h⟩ := bind_ok h
    obtain ⟨success, hs, h⟩ := bind_ok h
    obtain ⟨timeout, ht, h⟩ := bind_ok h
    obtain ⟨probes, hp, h⟩ := bind_ok h
    cases h
    have ht' := readOptionalInt_range (by decide) ht
    exact ⟨readOptionalInt_range (by decide) hf, readOptionalInt_range (by decide) hs,
      ⟨ht'.1, ht'.2.trans (by decide)⟩, readOptionalInt_range (by decide) hp⟩
  | other => cases h

/-! ## Getting back to CLOSED -/

/-- no call is changing the breaker, and a HALF_OPEN period has not seen enough successes yet -/
structure Sound (cfg : CircuitBreakerConfig) (b : CircuitBreaker) : Prop where
  settled : Settled b.state
  successes : b.state = .kHalfOpen → b.halfOpenSuccessCount.toNat < cfg.successThreshold.toNat

section Recovery

variable {cfg : CircuitBreakerConfig}

theorem move_sound (hcfg : cfg.Positive) {b b' : CircuitBreaker} {call : BreakerCall} {admitted : Bool}
    (h : Sound cfg b) (hmove : BreakerMove cfg b call admitted b') : Sound cfg b' := by
  have hT := hcfg.success.1
  have hzero : (0 : BitVec 64).toNat < cfg.successThreshold.toNat := by
    change 0 < _
    omega
  cases hmove with
  | pass | reject | ignore => exact h
  | recover hs | succeed hs | fail _ hs =>
    exact ⟨h.settled, fun hc => absurd (hs.symm.trans hc) (by decide)⟩
  | trip | stall | probeFailed => exact ⟨trivial, fun hc => by cases hc⟩
  | reopen => exact ⟨trivial, fun _ => hzero⟩
  | grant _ _ hs | refuse _ _ hs => exact ⟨h.settled, fun hc => h.successes hc⟩
  | probeOk hs hlt =>
    have hsucc := h.successes hs
    have hmax := hcfg.success.2
    rw [successLimit_le_iff hcfg hsucc] at hlt
    refine ⟨h.settled, fun _ => ?_⟩
    rw [add_one_toNat (by omega)]
    omega
  | close => exact ⟨trivial, fun hc => by cases hc⟩

variable {s : Timed}

theorem run_sound (hcfg : cfg.Positive) {log : List LogEntry} (h : run (logStep cfg) {} log = some s) :
    Sound cfg s.breaker := by
  have hstart : Sound cfg ({} : CircuitBreaker) := ⟨trivial, fun hc => by cases hc⟩
  refine run_induct (fun _ s => Sound cfg s.breaker) hstart ?_ log s h
  intro log s x s' _ ih hstep
  obtain ⟨-, -, -, -, hbreaker, -⟩ := logStep_some hstep
  rw [hbreaker]
  exact move_sound hcfg ih (perform_move hcfg ih.settled x.call)

def entryOf (cfg : CircuitBreakerConfig) (b : CircuitBreaker) (call : BreakerCall) : LogEntry :=
  ⟨call, (b.perform cfg call).1, b.state, (b.perform cfg call).2.state⟩

theorem logStep_entryOf {call : BreakerCall} (h : call.InTime s.clock) :
    logStep cfg s (entryOf cfg s.breaker call) = some ⟨(s.breaker.perform cfg call).2, call.clockAfter s.clock⟩ :=
  if_pos ⟨h, rfl, rfl, rfl⟩

theorem exists_nowMs (clock : ℕ) (w : BitVec 64) : ∃ now, clock ≤ now ∧ nowMs now = w := by
  refine ⟨clock + (w.toNat + (2 ^ 64 - clock % 2 ^ 64)), by omega, ?_⟩
  apply BitVec.eq_of_toNat_eq
  rw [nowMs, BitVec.toNat_ofNat]
  omega

theorem exists_elapsed (cfg : CircuitBreakerConfig) (clock : ℕ) (w : BitVec 64) :
    ∃ now, clock ≤ now ∧ nowMs now - w = cfg.timeoutMs := by
  obtain ⟨now, hle, hnow⟩ := exists_nowMs clock (w + cfg.timeoutMs)
  exact ⟨now, hle, by rw [hnow, BitVec.add_comm, BitVec.add_sub_cancel]⟩

/-- requests only, `n` of them admitted, up to a HALF_OPEN period -/
structure Gathers (cfg : CircuitBreakerConfig) (s : Timed) (log : List LogEntry) (n : ℕ) (s' : Timed) : Prop where
  run : run (logStep cfg) s log = some s'
  calls : ∀ x ∈ log, x.call.isAllow = true
  admitted : log.countP LogEntry.admitted = n
  state : s'.breaker.state = .kHalfOpen
  sound : Sound cfg s'.breaker

theorem Gathers.trans {s₁ s₂ s₃ : Timed} {l₁ l₂ : List LogEntry} {m n : ℕ} (h₁ : Gathers cfg s₁ l₁ m s₂)
    (h₂ : Gathers cfg s₂ l₂ n s₃) : Gathers cfg s₁ (l₁ ++ l₂) (m + n) s₃ := by
  refine ⟨?_, ?_, ?_, h₂.state, h₂.sound⟩
  · rw [run_append, h₁.run, Option.bind_some, h₂.run]
  · intro x hx
    rcases mem_append.1 hx with hx | hx
    · exact h₁.calls x hx
    · exact h₂.calls x hx
  · rw [countP_append, h₁.admitted, h₂.admitted]

theorem gathers_one (hcfg : cfg.Positive) {now : ℕ} (h : Sound cfg s.breaker) (hle : s.clock ≤ now)
    (hadm : (s.breaker.perform cfg (.allowRequest now now)).1 = true)
    (hstate : (s.breaker.perform cfg (.allowRequest now now)).2.state = .kHalfOpen) :
    Gathers cfg s [entryOf cfg s.breaker (.allowRequest now now)] 1
      ⟨(s.breaker.perform cfg (.allowRequest now now)).2, now⟩ := by
  have htime : (BreakerCall.allowRequest now now).InTime s.clock := ⟨hle, le_rfl⟩
  refine ⟨?_, ?_, ?_, hstate, move_sound hcfg h (perform_move hcfg h.settled _)⟩
  · rw [run_cons, logStep_entryOf htime]
    rfl
  · intro x hx
    obtain rfl := mem_singleton.1 hx
    rfl
  · simp [entryOf, hadm]

theorem gathers_open (hcfg : cfg.Positive) (h : Sound cfg s.breaker) (hs : s.breaker.state = .kOpen) :
    ∃ log s', Gathers cfg s log 1 s' := by
  obtain ⟨now, hle, hpast⟩ := exists_elapsed cfg s.clock s.breaker.openEnteredMs
  have hperform : s.breaker.perform cfg (.allowRequest now now) =
      (true, { s.breaker.enterHalfOpen with halfOpenRequests := 1, halfOpenProbeMs := nowMs now }) := by
    simp only [perform, allowRequest, hs, hpast]
    rw [if_neg (by simp), claimProbe_enterHalfOpen hcfg]
  exact ⟨_, _, gathers_one hcfg h hle (by rw [hperform]) (by rw [hperform]; rfl)⟩

/-- **A further request can always be admitted**, unless the breaker is CLOSED. -/
theorem admit_one (hcfg : cfg.Positive) (h : Sound cfg s.breaker) (hs : s.breaker.state ≠ .kClosed) :
    ∃ log s', Gathers cfg s log 1 s' := by
  have hsettled := h.settled
  cases hstate : s.breaker.state with
  | kClosed => exact absurd hstate hs
  | kOpen => exact gathers_open hcfg h hstate
  | kHalfOpen =>
    obtain ⟨now, hle, hpast⟩ := exists_elapsed cfg s.clock s.breaker.halfOpenProbeMs
    by_cases hfree : s.breaker.halfOpenRequests < cfg.maxProbes
    · have hperform : s.breaker.perform cfg (.allowRequest now now) =
          (true, { s.breaker with
            halfOpenRequests := s.breaker.halfOpenRequests + 1
            halfOpenProbeMs := nowMs now }) := by
        simp only [perform, allowRequest, hstate, claimProbe, if_pos hfree]
      exact ⟨_, _, gathers_one hcfg h hle (by rw [hperform]) (by rw [hperform]; exact hstate)⟩
    · -- the quota is used up: wait, fall back to OPEN, and probe again
      have hperform : s.breaker.perform cfg (.allowRequest now now) =
          (false, enterOpen { s.breaker with halfOpenRequests := s.breaker.halfOpenRequests + 1 }
            (nowMs now)) := by
        have hstall : 0 < cfg.openTimeout ∧ cfg.timeoutMs ≤ nowMs now - s.breaker.halfOpenProbeMs :=
          ⟨hcfg.timeout.1, hpast ▸ BitVec.le_refl _⟩
        simp only [perform, allowRequest, hstate, claimProbe, if_neg hfree]
        rw [if_pos hstall]
      have hsound := move_sound hcfg h (perform_move hcfg h.settled (.allowRequest now now))
      have htime : (BreakerCall.allowRequest now now).InTime s.clock := ⟨hle, le_rfl⟩
      obtain ⟨log, s', hg⟩ := gathers_open (s := ⟨(s.breaker.perform cfg (.allowRequest now now)).2, now⟩) hcfg hsound
        (by rw [hperform]; rfl)
      refine ⟨entryOf cfg s.breaker (.allowRequest now now) :: log, s', ?_, ?_, ?_, hg.state, hg.sound⟩
      · rw [run_cons, logStep_entryOf htime]
        exact hg.run
      · intro x hx
        rcases mem_cons.1 hx with rfl | hx
        · rfl
        · exact hg.calls x hx
      · rw [countP_cons_of_neg (by simp [entryOf, hperform]), hg.admitted]
  | _ =>
    rw [hstate] at hsettled
    exact hsettled.elim

theorem admit_many (hcfg : cfg.Positive) (h : Sound cfg s.breaker) (hs : s.breaker.state ≠ .kClosed) (n : ℕ) :
    ∃ log s', Gathers cfg s log (n + 1) s' := by
  induction n with
  | zero => exact admit_one hcfg h hs
  | succ n ih =>
    obtain ⟨l₁, s₁, h₁⟩ := ih
    obtain ⟨l₂, s₂, h₂⟩ := admit_one hcfg h₁.sound (by rw [h₁.state]; decide)
    exact ⟨l₁ ++ l₂, s₂, h₁.trans h₂⟩

theorem succeed_many (hcfg : cfg.Positive) (n : ℕ) (h : Sound cfg s.breaker) (hs : s.breaker.state = .kClosed ∨
    s.breaker.state = .kHalfOpen ∧ cfg.successThreshold.toNat ≤ s.breaker.halfOpenSuccessCount.toNat + n) :
    ∃ log s', run (logStep cfg) s log = some s' ∧ log.length = n ∧
      (∀ x ∈ log, x.call = .onSuccess ∧ x.admitted = false) ∧
      s'.breaker.state = .kClosed := by
  induction n generalizing s with
  | zero =>
    rcases hs with hs | ⟨hs, hle⟩
    · exact ⟨[], s, rfl, rfl, by simp, hs⟩
    · have := h.successes hs
      omega
  | succ n ih =>
    have hmove := perform_move hcfg h.settled .onSuccess
    have hsound := move_sound hcfg h hmove
    have hnext : (s.breaker.perform cfg .onSuccess).2.state = .kClosed ∨
        (s.breaker.perform cfg .onSuccess).2.state = .kHalfOpen ∧
          cfg.successThreshold.toNat ≤ (s.breaker.perform cfg .onSuccess).2.halfOpenSuccessCount.toNat + n := by
      generalize hr : s.breaker.perform cfg .onSuccess = r at hmove
      obtain ⟨admitted, b⟩ := r
      cases hmove with
      | recover hs' | succeed hs' => exact .inl hs'
      | ignore _ hs' => rcases hs with hs | ⟨hs, -⟩ <;> exact absurd (hs.symm.trans hs') (by decide)
      | probeOk hs' =>
        rcases hs with hs | ⟨-, hle⟩
        · exact absurd (hs.symm.trans hs') (by decide)
        · have hlt := h.successes hs'
          have hmax := hcfg.success.2
          refine .inr ⟨hs', ?_⟩
          rw [add_one_toNat (by omega)]
          omega
      | close => exact .inl rfl
    have htime : BreakerCall.onSuccess.InTime s.clock := trivial
    obtain ⟨log, s', hrun, hlen, hcalls, hstate⟩ :=
      ih (s := ⟨(s.breaker.perform cfg .onSuccess).2, s.clock⟩) hsound hnext
    refine ⟨entryOf cfg s.breaker .onSuccess :: log, s', ?_, by simp [hlen], ?_, hstate⟩
    · rw [run_cons, logStep_entryOf htime]
      exact hrun
    · intro x hx
      rcases mem_cons.1 hx with rfl | hx
      · exact ⟨rfl, rfl⟩
      · exact hcalls x hx

/-- a continuation in which only requests are made, and each one that is admitted reports success once, after it was
admitted -/
structure Reported (log : List LogEntry) : Prop where
  calls : ∀ x ∈ log, x.call.outcome ≠ some false
  once : log.countP (fun x => x.call = .onSuccess) = log.countP LogEntry.admitted
  after : ∀ l, l <+: log → l.countP (fun x => x.call = .onSuccess) ≤ l.countP LogEntry.admitted

theorem reported_append {l₁ l₂ : List LogEntry} (h₁ : ∀ x ∈ l₁, x.call.isAllow = true)
    (h₂ : ∀ x ∈ l₂, x.call = .onSuccess ∧ x.admitted = false) (hlen : l₂.length = l₁.countP LogEntry.admitted) :
    Reported (l₁ ++ l₂) := by
  have hnone : ∀ l, l <+: l₁ → l.countP (fun x => x.call = .onSuccess) = 0 := by
    intro l hl
    rw [countP_eq_zero]
    intro x hx hc
    have := h₁ x (hl.subset hx)
    rw [of_decide_eq_true hc] at this
    cases this
  have hadm : l₂.countP LogEntry.admitted = 0 := by
    rw [countP_eq_zero]
    intro x hx
    simp [(h₂ x hx).2]
  have hall : l₂.countP (fun x => x.call = .onSuccess) = l₂.length := by
    rw [countP_eq_length]
    intro x hx
    simp [(h₂ x hx).1]
  refine ⟨?_, ?_, ?_⟩
  · intro x hx
    rcases mem_append.1 hx with hx | hx
    · have := h₁ x hx
      cases hc : x.call with
      | allowRequest => simp [BreakerCall.outcome]
      | _ =>
        rw [hc] at this
        cases this
    · rw [(h₂ x hx).1]
      simp [BreakerCall.outcome]
  · rw [countP_append, countP_append, hnone l₁ (List.prefix_refl _), hadm, hall, hlen, Nat.zero_add, Nat.add_zero]
  · rintro l ⟨r, hr⟩
    rcases append_eq_append_iff.1 hr with ⟨l', hl, -⟩ | ⟨l', rfl, hl'⟩
    · rw [hnone l ⟨l', hl.symm⟩]
      exact Nat.zero_le _
    · have hle : l'.countP (fun x => x.call = .onSuccess) ≤ l₂.length := by
        rw [hl', length_append]
        exact countP_le_length.trans (Nat.le_add_right _ _)
      rw [countP_append, countP_append, hnone l₁ (List.prefix_refl _)]
      omega

/-- **Recovery is always possible.** For every configuration the loader accepts, from every state that calls and the
clock can bring about, there is a continuation of requests, each admitted one reporting success once, behind which the
breaker is CLOSED. -/
theorem recovery_possible {node : BreakerNode} {ctx : String} {config : BreakerSettings}
    (hload : parseCircuitBreaker node ctx {} = .ok config) {log : List LogEntry} {s : Timed}
    (h : run (logStep config.circuitBreaker) {} log = some s) :
    ∃ log' s', run (logStep config.circuitBreaker) s log' = some s' ∧ Reported log' ∧ s'.breaker.state = .kClosed := by
  have hcfg := parseCircuitBreaker_positive hload
  have hsound := run_sound hcfg h
  by_cases hs : s.breaker.state = .kClosed
  · exact ⟨[], s, rfl, ⟨by simp, rfl, by simp⟩, hs⟩
  · obtain ⟨l₁, s₁, hg⟩ := admit_many hcfg hsound hs (config.circuitBreaker.successThreshold.toNat - 1)
    obtain ⟨l₂, s₂, hrun, hlen, hcalls, hclosed⟩ := succeed_many hcfg
      (config.circuitBreaker.successThreshold.toNat - 1 + 1) hg.sound (.inr ⟨hg.state, by omega⟩)
    refine ⟨l₁ ++ l₂, s₂, ?_, reported_append hg.calls hcalls (hlen.trans hg.admitted.symm), hclosed⟩
    rw [run_append, hg.run, Option.bind_some, hrun]

/-- a breaker with the default configuration behind five failures -/
def defaultTripped : Timed := ⟨{ state := .kOpen, closedCounts := packClosedCounts 5 0, transitionCount := 1 }, 0⟩

theorem recovery_of_default :
    ∃ log' s', run (logStep {}) defaultTripped log' = some s' ∧ Reported log' ∧ s'.breaker.state = .kClosed := by
  have hload : parseCircuitBreaker (.scalar (.ok true)) "upstreams[0].circuit_breaker" {} = .ok ⟨true, {}⟩ := rfl
  have hrun : run (logStep {}) {} (List.replicate 4 ⟨.onFailure 0, false, .kClosed, .kClosed⟩ ++
      [⟨.onFailure 0, false, .kClosed, .kOpen⟩]) = some defaultTripped := by decide +kernel
  exact recovery_possible hload hrun

end Recovery

end Coropact.Gateway
