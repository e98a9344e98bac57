/-
Whose outcomes move the circuit breaker (`include/coropact/gateway/circuit_breaker.h`).

Here each call belongs to a request: it asks once, and if it was admitted it reports one outcome at any later time
(`Driven`). `OnSuccess` and `OnFailure` carry no identity, so in HALF_OPEN the outcome of a request that was admitted
long before counts as that of a probe. `OwnProbes` is what the state machine is meant to do: the probes of the period
decide, and late outcomes change nothing. It holds in the histories in which outcomes that come after the period of
their request come in OPEN, where they are ignored (`OnTime`).
-/
import Coropact.Gateway.BreakerHistory

namespace Coropact.Gateway

open Coropact.Machine CircuitBreaker List

variable {R : Type*}

/-! ## Requests -/

/-- the requests admitted in the current period, the one that began it included -/
def inPeriod (log : List (R × LogEntry)) : List R :=
  log.foldl (fun rs y => (if y.2.changes then [] else rs) ++ if y.2.admitted then [y.1] else []) []

def admittedOf (log : List (R × LogEntry)) : List R := (log.filter fun y => y.2.admitted).map Prod.fst

def reportedOf (log : List (R × LogEntry)) : List R := (log.filter fun y => y.2.call.outcome.isSome).map Prod.fst

def succeededOf (log : List (R × LogEntry)) : List R := (log.filter fun y => y.2.call.outcome = some true).map Prod.fst

/-- a request asks once, and reports once if it was admitted -/
def Driven (log : List (R × LogEntry)) (y : R × LogEntry) : Prop :=
  if y.2.call.outcome.isSome then y.1 ∈ admittedOf log ∧ y.1 ∉ reportedOf log else ∀ z ∈ log, z.1 ≠ y.1

/-- an outcome is that of a request of the current period, or comes in OPEN -/
def OnTime (log : List (R × LogEntry)) (y : R × LogEntry) : Prop :=
  y.2.call.outcome.isSome = true → y.2.before = .kOpen ∨ y.1 ∈ inPeriod log

instance [DecidableEq R] (log : List (R × LogEntry)) (y : R × LogEntry) : Decidable (Driven log y) :=
  inferInstanceAs (Decidable (if y.2.call.outcome.isSome then y.1 ∈ admittedOf log ∧ y.1 ∉ reportedOf log
    else ∀ z ∈ log, z.1 ≠ y.1))

instance [DecidableEq R] (log : List (R × LogEntry)) (y : R × LogEntry) : Decidable (OnTime log y) :=
  inferInstanceAs (Decidable (y.2.call.outcome.isSome = true → y.2.before = .kOpen ∨ y.1 ∈ inPeriod log))

/-- the probes of the period decide, and late outcomes change nothing; `b` and `b'` are the breaker before and after -/
structure OwnProbes (cfg : CircuitBreakerConfig) (log : List (R × LogEntry)) (y : R × LogEntry)
    (b b' : CircuitBreaker) :
    Prop where
  closes : y.2.before = .kHalfOpen → y.2.after = .kClosed →
    ∃ rs : List R, rs.Nodup ∧ rs.length = cfg.successThreshold.toNat ∧
      ∀ r ∈ rs, r ∈ inPeriod log ∧ r ∈ succeededOf (log ++ [y])
  opens : y.2.before = .kHalfOpen → y.2.after = .kOpen → y.2.call.outcome = some false → y.1 ∈ inPeriod log
  late : y.2.call.outcome.isSome = true → y.1 ∉ inPeriod log → b' = b

section Lists

variable {log : List (R × LogEntry)} {y : R × LogEntry}

theorem inPeriod_snoc : inPeriod (log ++ [y]) =
    (if y.2.changes then [] else inPeriod log) ++ if y.2.admitted then [y.1] else [] := by
  simp [inPeriod]

theorem inPeriod_subset {r : R} (h : r ∈ inPeriod log) : r ∈ admittedOf log := by
  induction log using List.reverseRecOn with
  | nil => simp [inPeriod] at h
  | append_singleton log y ih =>
    rw [inPeriod_snoc] at h
    simp only [admittedOf, filter_append, map_append, mem_append] at ih ⊢
    rcases mem_append.1 h with h | h
    · split_ifs at h
      · simp at h
      · exact .inl (ih h)
    · split_ifs at h with hadm
      · exact .inr (by simp [hadm, mem_singleton.1 h])
      · simp at h

theorem mem_of_admittedOf {r : R} (h : r ∈ admittedOf log) : ∃ z ∈ log, z.1 = r := by
  obtain ⟨z, hz, rfl⟩ := mem_map.1 h
  exact ⟨z, (mem_filter.1 hz).1, rfl⟩

theorem mem_of_succeededOf {r : R} (h : r ∈ succeededOf log) : ∃ z ∈ log, z.1 = r := by
  obtain ⟨z, hz, rfl⟩ := mem_map.1 h
  exact ⟨z, (mem_filter.1 hz).1, rfl⟩

theorem reportedOf_of_succeededOf {r : R} (h : r ∈ succeededOf log) : r ∈ reportedOf log := by
  obtain ⟨z, hz, rfl⟩ := mem_map.1 h
  obtain ⟨hz, hok⟩ := mem_filter.1 hz
  exact mem_map_of_mem (mem_filter.2 ⟨hz, by simp [of_decide_eq_true hok]⟩)

theorem succeededOf_snoc_ok (h : y.2.call.outcome = some true) :
    succeededOf (log ++ [y]) = succeededOf log ++ [y.1] := by
  simp [succeededOf, filter_append, h]

theorem succeededOf_snoc (h : y.2.call.outcome ≠ some true) : succeededOf (log ++ [y]) = succeededOf log := by
  simp [succeededOf, filter_append, h]

theorem inPeriod_report (hsame : y.2.before = y.2.after) (hadm : y.2.admitted = false) :
    inPeriod (log ++ [y]) = inPeriod log := by
  simp [inPeriod_snoc, LogEntry.changes, hsame, hadm]

theorem filter_mem_snoc_length [DecidableEq R] {l rs : List R} {r : R} (hn : l.Nodup) (hr : r ∈ l) (hnew : r ∉ rs) :
    (l.filter (· ∈ rs ++ [r])).length = (l.filter (· ∈ rs)).length + 1 := by
  induction l with
  | nil => simp at hr
  | cons a l ih =>
    obtain ⟨ha, hn⟩ := nodup_cons.1 hn
    rcases mem_cons.1 hr with rfl | hr
    · have hrest : l.filter (· ∈ rs ++ [r]) = l.filter (· ∈ rs) := by
        refine filter_congr fun b hb => ?_
        have hne : b ≠ r := fun hc => ha (hc ▸ hb)
        simp [hne]
      rw [filter_cons_of_pos (by simp), filter_cons_of_neg (by simpa using hnew), hrest, length_cons]
    · have hne : a ≠ r := fun hc => ha (hc ▸ hr)
      by_cases hmem : a ∈ rs
      · rw [filter_cons_of_pos (by simp [hmem]), filter_cons_of_pos (by simp [hmem]), length_cons,
          length_cons, ih hn hr]
      · rw [filter_cons_of_neg (by simp [hmem, hne]), filter_cons_of_neg (by simp [hmem]), ih hn hr]

end Lists

/-! ## The calls, for any configuration -/

section Calls

variable (cfg : CircuitBreakerConfig) {b : CircuitBreaker}

theorem claimProbe_effect (now : BitVec 64) (hs : b.state = .kHalfOpen) :
    (b.claimProbe cfg now).2.state = .kHalfOpen ∧
        (b.claimProbe cfg now).2.halfOpenSuccessCount = b.halfOpenSuccessCount ∨
      (b.claimProbe cfg now).2.state = .kOpen := by
  simp only [claimProbe]
  split_ifs
  · exact .inl ⟨hs, rfl⟩
  · exact .inr rfl
  · exact .inl ⟨hs, rfl⟩

theorem allowRequest_effect (hb : Settled b.state) (now now' : ℕ) :
    b.state = .kClosed ∧ (b.perform cfg (.allowRequest now now')).2 = b ∨
      (b.perform cfg (.allowRequest now now')).2.state = .kOpen ∨
      (b.perform cfg (.allowRequest now now')).2.state = .kHalfOpen ∧
        (b.state = .kHalfOpen ∧
            (b.perform cfg (.allowRequest now now')).2.halfOpenSuccessCount = b.halfOpenSuccessCount ∨
          b.state = .kOpen ∧ (b.perform cfg (.allowRequest now now')).2.halfOpenSuccessCount = 0) := by
  simp only [perform, allowRequest]
  cases hs : b.state with
  | kClosed => exact .inl ⟨rfl, rfl⟩
  | kOpen =>
    split_ifs
    · exact .inr (.inl hs)
    · rcases claimProbe_effect cfg (b := b.enterHalfOpen) (nowMs now') rfl with ⟨hhalf, hzero⟩ | hopen
      · exact .inr (.inr ⟨hhalf, .inr ⟨rfl, hzero⟩⟩)
      · exact .inr (.inl hopen)
  | kHalfOpen =>
    rcases claimProbe_effect cfg (nowMs now') hs with ⟨hhalf, hsame⟩ | hopen
    · exact .inr (.inr ⟨hhalf, .inl ⟨rfl, hsame⟩⟩)
    · exact .inr (.inl hopen)
  | kTransitioningToOpen | kTransitioningToHalfOpen | kTransitioningToClosed =>
    rw [hs] at hb
    exact absurd hb id

theorem report_effect (hb : Settled b.state) {call : BreakerCall} (hcall : call.outcome.isSome = true)
    (hs : b.state ≠ .kHalfOpen) :
    Settled (b.perform cfg call).2.state ∧ (b.perform cfg call).2.state ≠ .kHalfOpen ∧ (b.perform cfg call).1 = false ∧
      (b.state = .kOpen → (b.perform cfg call).2 = b) := by
  obtain ⟨state, counts, successes, requests, probeMs, enteredMs, transitions⟩ := b
  cases state with
  | kClosed =>
    cases call with
    | allowRequest now now' => cases hcall
    | onSuccess =>
      simp only [perform, onSuccess]
      split_ifs <;> simp [Settled]
    | onFailure now =>
      simp only [perform, onFailure, enterOpen]
      split_ifs <;> simp [Settled]
  | kOpen =>
    cases call with
    | allowRequest now now' => cases hcall
    | onSuccess | onFailure now => simp [perform, onSuccess, onFailure, Settled]
  | kHalfOpen => exact absurd rfl hs
  | kTransitioningToOpen | kTransitioningToHalfOpen | kTransitioningToClosed => exact absurd hb id

theorem onSuccess_halfOpen (hs : b.state = .kHalfOpen) : b.perform cfg .onSuccess =
    (false, if cfg.successLimit.setWidth 64 ≤ b.halfOpenSuccessCount + 1 then
        enterClosed { b with halfOpenSuccessCount := b.halfOpenSuccessCount + 1 }
      else { b with halfOpenSuccessCount := b.halfOpenSuccessCount + 1 }) := by
  simp [perform, onSuccess, hs]

theorem onFailure_halfOpen (hs : b.state = .kHalfOpen) (now : ℕ) :
    b.perform cfg (.onFailure now) = (false, b.enterOpen (nowMs now)) := by
  simp [perform, onFailure, hs]

end Calls

/-! ## Histories of requests -/

def drivenStep (cfg : CircuitBreakerConfig) (s : Timed) (y : R × LogEntry) : Option Timed := logStep cfg s y.2

/-- the successes counted in HALF_OPEN are those of the probes of the period -/
structure Counted [DecidableEq R] (cfg : CircuitBreakerConfig) (log : List (R × LogEntry)) (s : Timed) : Prop where
  settled : Settled s.breaker.state
  nodup : (inPeriod log).Nodup
  successes : s.breaker.state = .kHalfOpen →
    s.breaker.halfOpenSuccessCount.toNat = ((inPeriod log).filter (· ∈ succeededOf log)).length
  few : s.breaker.state = .kHalfOpen → s.breaker.halfOpenSuccessCount.toNat < 2 ^ 32

section Step

variable {cfg : CircuitBreakerConfig} {log : List (R × LogEntry)} {s s' : Timed} {y : R × LogEntry}

theorem inPeriod_nodup (hn : (inPeriod log).Nodup) (hnew : y.2.admitted = true → y.1 ∉ inPeriod log) :
    (inPeriod (log ++ [y])).Nodup := by
  rw [inPeriod_snoc]
  by_cases ha : y.2.admitted = true
  · rw [if_pos ha]
    split_ifs
    · simp
    · refine nodup_append.2 ⟨hn, by simp, ?_⟩
      rintro r hr _ hr' rfl
      exact hnew ha (mem_singleton.1 hr' ▸ hr)
  · rw [if_neg ha, append_nil]
    split_ifs
    · exact nodup_nil
    · exact hn

theorem Driven.fresh (h : Driven log y) (hcall : y.2.call.outcome = none) : ∀ z ∈ log, z.1 ≠ y.1 := by
  simpa only [Driven, hcall, Option.isSome_none, Bool.false_eq_true, if_false] using h

theorem filter_admitted [DecidableEq R] (hdriven : Driven log y) (hcall : y.2.call.outcome = none) (rs : List R) :
    (rs ++ [y.1]).filter (· ∈ succeededOf (log ++ [y])) = rs.filter (· ∈ succeededOf log) := by
  have hnew : y.1 ∉ succeededOf log := by
    intro hmem
    obtain ⟨z, hz, heq⟩ := mem_of_succeededOf hmem
    exact hdriven.fresh hcall z hz heq
  rw [succeededOf_snoc (by simp [hcall]), filter_append, filter_cons_of_neg (by simpa using hnew)]
  simp

theorem allowRequest_counted [DecidableEq R] (h : Counted cfg log s) (hdriven : Driven log y)
    (hstep : drivenStep cfg s y = some s') (hcall : y.2.call.outcome = none) :
    (y.2.after = .kClosed → y.2.before = .kClosed) ∧ Counted cfg (log ++ [y]) s' := by
  obtain ⟨-, hbefore, -, hafter, hbreaker, -⟩ := logStep_some hstep
  obtain ⟨now, now', hc⟩ : ∃ now now', y.2.call = .allowRequest now now' := by
    generalize y.2.call = call at hcall
    cases call with
    | allowRequest now now' => exact ⟨now, now', rfl⟩
    | onSuccess | onFailure now => cases hcall
  have heffect := allowRequest_effect cfg h.settled now now'
  rw [← hc, ← hbreaker] at heffect
  -- a probe just admitted has not reported, so it does not count yet
  have hcount : ((inPeriod (log ++ [y])).filter (· ∈ succeededOf (log ++ [y]))).length =
      if y.2.changes then 0 else ((inPeriod log).filter (· ∈ succeededOf log)).length := by
    rw [inPeriod_snoc]
    by_cases ha : y.2.admitted = true
    · rw [if_pos ha, filter_admitted hdriven hcall]
      split_ifs <;> rfl
    · rw [if_neg ha, append_nil, succeededOf_snoc (by simp [hcall])]
      split_ifs <;> rfl
  have hnodup : (inPeriod (log ++ [y])).Nodup := by
    refine inPeriod_nodup h.nodup fun _ hmem => ?_
    obtain ⟨z, hz, heq⟩ := mem_of_admittedOf (inPeriod_subset hmem)
    exact hdriven.fresh hcall z hz heq
  rcases heffect with ⟨hs, hsame⟩ | hopen | ⟨hs, ⟨hb, hsame⟩ | ⟨hb, hzero⟩⟩
  · rw [hsame] at hafter
    exact ⟨fun _ => hbefore.trans hs, by rw [hsame, hs]; trivial, hnodup, fun hc => absurd (hs.symm.trans (hsame ▸ hc))
      (by decide), fun hc => absurd (hs.symm.trans (hsame ▸ hc)) (by decide)⟩
  · exact ⟨fun hc => absurd (hopen.symm.trans (hafter.symm.trans hc)) (by decide), by rw [hopen]; trivial, hnodup,
      fun hc => absurd (hopen.symm.trans hc) (by decide), fun hc => absurd (hopen.symm.trans hc) (by decide)⟩
  · have hch : y.2.changes = false := by simp [LogEntry.changes, hbefore, hafter, hs, hb]
    refine ⟨fun hc => absurd (hs.symm.trans (hafter.symm.trans hc)) (by decide), by rw [hs]; trivial, hnodup,
      fun _ => ?_,
      fun _ => hsame ▸ h.few hb⟩
    rw [hcount, hch, hsame, h.successes hb]
    rfl
  · have hch : y.2.changes = true := by simp [LogEntry.changes, hbefore, hafter, hs, hb]
    refine ⟨fun hc => absurd (hs.symm.trans (hafter.symm.trans hc)) (by decide), by rw [hs]; trivial, hnodup,
      fun _ => ?_,
      fun _ => by simp [hzero]⟩
    rw [hcount, if_pos hch, hzero]
    rfl

/-- the success of a probe of the period; the breaker closes only if enough of them have succeeded -/
theorem success_counted [DecidableEq R] (h : Counted cfg log s) (hs : s.breaker.state = .kHalfOpen)
    (hmem : y.1 ∈ inPeriod log) (hnew : y.1 ∉ succeededOf log) (hok : y.2.call = .onSuccess)
    (hstep : drivenStep cfg s y = some s') :
    (y.2.after = .kClosed →
      cfg.successLimit.toNat ≤ ((inPeriod log).filter (· ∈ succeededOf (log ++ [y]))).length) ∧
    Counted cfg (log ++ [y]) s' := by
  obtain ⟨-, hbefore, hadm, hafter, hbreaker, -⟩ := logStep_some hstep
  rw [hok, onSuccess_halfOpen cfg hs] at hadm hbreaker
  have hfew := h.few hs
  have hlimit : (cfg.successLimit.setWidth 64).toNat = cfg.successLimit.toNat := by
    rw [BitVec.toNat_setWidth]
    exact Nat.mod_eq_of_lt (by have := cfg.successLimit.isLt; omega)
  have hnext : (s.breaker.halfOpenSuccessCount + 1).toNat = s.breaker.halfOpenSuccessCount.toNat + 1 :=
    add_one_toNat (by omega)
  have hcount : (s.breaker.halfOpenSuccessCount + 1).toNat =
      ((inPeriod log).filter (· ∈ succeededOf (log ++ [y]))).length := by
    rw [succeededOf_snoc_ok (by rw [hok]; rfl), filter_mem_snoc_length h.nodup hmem hnew, ← h.successes hs, hnext]
  have hnodup : (inPeriod (log ++ [y])).Nodup := inPeriod_nodup h.nodup (by simp [hadm])
  obtain ⟨b, clock⟩ := s'
  obtain rfl : b = _ := hbreaker
  split_ifs at hafter ⊢ with hle
  · refine ⟨fun _ => ?_, trivial, hnodup, fun hc => (by cases hc), fun hc => (by cases hc)⟩
    rw [BitVec.le_def, hcount] at hle
    exact hle
  · have hafter' : y.2.after = .kHalfOpen := hafter.trans hs
    refine ⟨fun hc => absurd (hafter'.symm.trans hc) (by decide), (by rw [hs]; trivial), hnodup, fun _ =>
      ?_, fun _ => ?_⟩
    · rw [inPeriod_report (by rw [hbefore, hafter', hs]) hadm]
      exact hcount
    · rw [BitVec.not_le, BitVec.lt_def] at hle
      exact hle.trans cfg.successLimit.isLt

theorem report_counted [DecidableEq R] (h : Counted cfg log s) (hsome : y.2.call.outcome.isSome = true)
    (hnot : s.breaker.state = .kHalfOpen → y.2.call ≠ .onSuccess) (hstep : drivenStep cfg s y = some s') :
    (y.2.before = .kHalfOpen → y.2.after ≠ .kClosed) ∧ Counted cfg (log ++ [y]) s' := by
  obtain ⟨-, hbefore, hadm, hafter, hbreaker, -⟩ := logStep_some hstep
  have hkey : Settled s'.breaker.state ∧ s'.breaker.state ≠ .kHalfOpen ∧ y.2.admitted = false ∧
      (s.breaker.state = .kHalfOpen → s'.breaker.state = .kOpen) := by
    rw [hadm, hbreaker]
    by_cases hs : s.breaker.state = .kHalfOpen
    · obtain ⟨now, hc⟩ : ∃ now, y.2.call = .onFailure now := by
        have hnot := hnot hs
        generalize y.2.call = call at hsome hnot
        cases call with
        | allowRequest now now' => cases hsome
        | onSuccess => exact absurd rfl hnot
        | onFailure now => exact ⟨now, rfl⟩
      rw [hc, onFailure_halfOpen cfg hs]
      exact ⟨trivial, by simp [enterOpen], rfl, fun _ => rfl⟩
    · obtain ⟨hsettled, hhalf, hfalse, -⟩ := report_effect cfg h.settled hsome hs
      exact ⟨hsettled, hhalf, hfalse, fun hc => absurd hc hs⟩
  obtain ⟨hsettled, hhalf, hfalse, hopen⟩ := hkey
  refine ⟨fun hb hc => ?_, hsettled, inPeriod_nodup h.nodup (by simp [hfalse]), fun hc => absurd hc hhalf,
    fun hc => absurd hc hhalf⟩
  exact absurd ((hopen (hbefore.symm.trans hb)).symm.trans (hafter.symm.trans hc)) (by decide)

theorem successThreshold_le_limit (hint : cfg.successThreshold < 2 ^ 31) :
    cfg.successThreshold.toNat ≤ cfg.successLimit.toNat := by
  rcases le_or_gt cfg.successThreshold 0 with hle | hgt
  · rw [Int.toNat_of_nonpos hle]
    exact Nat.zero_le _
  · rw [CircuitBreakerConfig.successLimit, if_pos hgt, ofInt_toNat hgt.le (by omega)]

theorem step_counted [DecidableEq R] (hint : cfg.successThreshold < 2 ^ 31) (h : Counted cfg log s)
    (hdriven : Driven log y) (htime : OnTime log y) (hstep : drivenStep cfg s y = some s') :
    OwnProbes cfg log y s.breaker s'.breaker ∧ Counted cfg (log ++ [y]) s' := by
  obtain ⟨-, hbefore, -, -, hbreaker, -⟩ := logStep_some hstep
  -- an outcome in HALF_OPEN is that of a probe of the period which has not reported yet
  have hown : y.2.call.outcome.isSome = true → s.breaker.state = .kHalfOpen →
      y.1 ∈ inPeriod log ∧ y.1 ∉ succeededOf log := by
    intro hsome hb
    simp only [Driven, hsome] at hdriven
    rcases htime hsome with hopen | hmem
    · exact absurd (hb.symm.trans (hbefore.symm.trans hopen)) (by decide)
    · exact ⟨hmem, fun hs => hdriven.2 (reportedOf_of_succeededOf hs)⟩
  have hopens : y.2.before = .kHalfOpen → y.2.after = .kOpen → y.2.call.outcome = some false → y.1 ∈ inPeriod log :=
    fun hb _ hfail => (hown (by simp [hfail]) (hbefore.symm.trans hb)).1
  have hlate : y.2.call.outcome.isSome = true → y.1 ∉ inPeriod log → s'.breaker = s.breaker := by
    intro hsome hnot
    have hopen : s.breaker.state = .kOpen := hbefore.symm.trans ((htime hsome).resolve_right hnot)
    have heffect := report_effect cfg h.settled hsome (by rw [hopen]; decide)
    exact hbreaker.trans (heffect.2.2.2 hopen)
  cases hcall : y.2.call with
  | allowRequest now now' =>
    obtain ⟨hclosed, hcounted⟩ := allowRequest_counted h hdriven hstep (by rw [hcall]; rfl)
    exact ⟨⟨fun hb ha => absurd (hb.symm.trans (hclosed ha)) (by decide), hopens, hlate⟩, hcounted⟩
  | onFailure now =>
    obtain ⟨hclosed, hcounted⟩ := report_counted h (by rw [hcall]; rfl) (fun _ => by simp [hcall]) hstep
    exact ⟨⟨fun hb ha => absurd ha (hclosed hb), hopens, hlate⟩, hcounted⟩
  | onSuccess =>
    by_cases hs : s.breaker.state = .kHalfOpen
    · obtain ⟨hmem, hnew⟩ := hown (by rw [hcall]; rfl) hs
      obtain ⟨henough, hcounted⟩ := success_counted h hs hmem hnew hcall hstep
      refine ⟨⟨fun _ ha => ?_, hopens, hlate⟩, hcounted⟩
      refine ⟨((inPeriod log).filter (· ∈ succeededOf (log ++ [y]))).take cfg.successThreshold.toNat,
        (h.nodup.filter _).sublist (take_sublist _ _), ?_, fun r hr => ?_⟩
      · exact length_take_of_le ((successThreshold_le_limit hint).trans (henough ha))
      · obtain ⟨hr, hs⟩ := mem_filter.1 (mem_of_mem_take hr)
        exact ⟨hr, of_decide_eq_true hs⟩
    · obtain ⟨-, hcounted⟩ := report_counted h (by rw [hcall]; rfl) (fun hc => absurd hc hs) hstep
      exact ⟨⟨fun hb => absurd (hbefore.symm.trans hb) hs, hopens, hlate⟩, hcounted⟩

theorem run_counted [DecidableEq R] (hint : cfg.successThreshold < 2 ^ 31) (h : run (drivenStep cfg) {} log = some s)
    (hdriven : EachStep Driven [] log) (htime : EachStep OnTime [] log) : Counted cfg log s := by
  have h0 : Counted cfg ([] : List (R × LogEntry)) {} :=
    ⟨trivial, nodup_nil, fun hc => (by cases hc), fun hc => (by cases hc)⟩
  refine run_induct_of Driven (fun l s => EachStep OnTime [] l → Counted cfg l s) (fun _ => h0) ?_ log s h hdriven htime
  intro l s y s' _ ih hd hstep ht
  obtain ⟨ht, hty⟩ := eachStep_snoc.1 ht
  exact (step_counted hint (ih ht) hd hty hstep).2

end Step

/-- **Only this period's probes move the breaker**, in every history in which the outcomes that come after the period of
their request come in OPEN. -/
theorem only_own_probes [DecidableEq R] {cfg : CircuitBreakerConfig} (hint : cfg.successThreshold < 2 ^ 31)
    {log : List (R × LogEntry)} {s : Timed} (h : run (drivenStep cfg) {} log = some s)
    (hdriven : EachStep Driven [] log) (htime : EachStep OnTime [] log) :
    ∀ l y r, log = l ++ y :: r → ∃ s₁ s₂, run (drivenStep cfg) {} l = some s₁ ∧ drivenStep cfg s₁ y = some s₂ ∧
      OwnProbes cfg l y s₁.breaker s₂.breaker := by
  rintro l y r rfl
  obtain ⟨s₁, hrun, hrest⟩ := run_append_some h
  obtain ⟨s₂, hstep, -⟩ := Option.bind_eq_some_iff.1 hrest
  obtain ⟨hd, hdy, -⟩ := eachStep_append.1 hdriven
  obtain ⟨ht, hty, -⟩ := eachStep_append.1 htime
  exact ⟨s₁, s₂, hrun, hstep, (step_counted hint (run_counted hint hrun hd ht) hdy hty hstep).1⟩

/-- two requests are admitted, the first one's failure trips the breaker, and the second one reports in OPEN -/
def onTimeLog : List (ℕ × LogEntry) :=
  [(1, ⟨.allowRequest 0 0, true, .kClosed, .kClosed⟩), (2, ⟨.allowRequest 0 0, true, .kClosed, .kClosed⟩),
   (1, ⟨.onFailure 0, false, .kClosed, .kOpen⟩), (2, ⟨.onSuccess, false, .kOpen, .kOpen⟩),
   (3, ⟨.allowRequest 1 1, true, .kOpen, .kHalfOpen⟩), (3, ⟨.onSuccess, false, .kHalfOpen, .kClosed⟩)]

theorem only_own_probes_onTimeLog :
    EachStep Driven [] onTimeLog ∧ EachStep OnTime [] onTimeLog ∧
      ∀ l y r, onTimeLog = l ++ y :: r → ∃ s₁ s₂, run (drivenStep tinyCfg) {} l = some s₁ ∧
        drivenStep tinyCfg s₁ y = some s₂ ∧ OwnProbes tinyCfg l y s₁.breaker s₂.breaker :=
  ⟨by decide, by decide,
    only_own_probes (by decide) (s := ⟨{ transitionCount := 3, openEnteredMs := 0 }, 1⟩) (by decide)
    (by decide) (by decide)⟩

/-- as before, and the second request has not reported when the probe is admitted -/
def waiting : List (ℕ × LogEntry) :=
  [(1, ⟨.allowRequest 0 0, true, .kClosed, .kClosed⟩), (2, ⟨.allowRequest 0 0, true, .kClosed, .kClosed⟩),
   (1, ⟨.onFailure 0, false, .kClosed, .kOpen⟩), (3, ⟨.allowRequest 1 1, true, .kOpen, .kHalfOpen⟩)]

def lateSuccess : ℕ × LogEntry := (2, ⟨.onSuccess, false, .kHalfOpen, .kClosed⟩)

def lateFailure : ℕ × LogEntry := (2, ⟨.onFailure 1, false, .kHalfOpen, .kOpen⟩)

/-- the breaker while the probe of the third request is out -/
def probing : Timed :=
  ⟨{ state := .kHalfOpen, closedCounts := packClosedCounts 1 0, halfOpenRequests := 1, halfOpenProbeMs := nowMs 1,
     transitionCount := 2 }, 1⟩

/-- **A late outcome decides.** The probe of the period has not reported, and the outcome of a request of the CLOSED
period closes the breaker or opens it again. -/
theorem late_outcomes_decide :
    run (drivenStep tinyCfg) {} waiting = some probing ∧
    (EachStep Driven [] (waiting ++ [lateSuccess]) ∧
      ∃ s, drivenStep tinyCfg probing lateSuccess = some s ∧
        ¬ OwnProbes tinyCfg waiting lateSuccess probing.breaker s.breaker) ∧
    (EachStep Driven [] (waiting ++ [lateFailure]) ∧
      ∃ s, drivenStep tinyCfg probing lateFailure = some s ∧
        ¬ OwnProbes tinyCfg waiting lateFailure probing.breaker s.breaker) := by
  refine ⟨by decide, ⟨by decide, ⟨_, rfl, fun h => ?_⟩⟩, ⟨by decide, ⟨_, rfl, fun h => ?_⟩⟩⟩
  · obtain ⟨rs, -, hlen, hrs⟩ := h.closes rfl rfl
    obtain ⟨r, rfl⟩ := length_eq_one_iff.1 hlen
    obtain ⟨hmem, hok⟩ := hrs r (mem_singleton_self r)
    obtain rfl : r = 3 := mem_singleton.1 hmem
    exact absurd hok (by decide)
  · exact absurd (h.opens rfl rfl rfl) (by decide)

end Coropact.Gateway
