/-
The active health check (`HealthCheckRound` and `CompleteHealthProbe` in `include/coropact/gateway/gateway_server.h`).

In each round every peer of every upstream is probed, and the outcome moves two counters: consecutive successes and
consecutive failures. The counters are kept by the name of the peer, not by the peer. Requests succeed and fail in
between; they do not touch the flag.

The streak of a peer is read off the trace: the run of equal outcomes that its probes end with.
-/
import Coropact.Gateway.GatewayConfig

namespace Coropact.Gateway

open Coropact.Http List Function

/-! ## The health check -/

/-- the states of the peers, and the counters by name -/
structure HealthState (P : Type*) where
  state : P → UpstreamPeerState
  successes : Bytes → ℤ := fun _ => 0
  failures : Bytes → ℤ := fun _ => 0

inductive HealthEvent (P : Type*) where
  | probe (p : P) (success : Bool) (nowMs : ℕ)
  | requestFailed (p : P) (nowMs : ℕ)
  | requestSucceeded (p : P)

variable {P : Type*}

/-- the probes of one round, over the peers in the order of the registry -/
def healthCheckRound (order : List P) (success : P → Bool) (nowMs : P → ℕ) : List (HealthEvent P) :=
  order.map fun p => .probe p (success p) (nowMs p)

section

variable [DecidableEq P]

namespace HealthState

def completeHealthProbe (cfg : HealthCheckConfig) (config : P → PeerConfig) (s : HealthState P) (p : P) (success : Bool)
    (nowMs : ℕ) : HealthState P :=
  let name := (config p).name
  if success then
    let peer := (s.state p).onSuccess (config p)
    let ok := int32 (s.successes name + 1)
    if cfg.healthyThreshold ≤ ok then
      { state := update s.state p { peer with down := false, fails := 0 }
        successes := update s.successes name 0
        failures := update s.failures name 0 }
    else
      { state := update s.state p peer
        successes := update s.successes name ok
        failures := update s.failures name 0 }
  else
    let peer := (s.state p).onFailure nowMs
    let failures := int32 (s.failures name + 1)
    { state := update s.state p (if cfg.unhealthyThreshold ≤ failures then { peer with down := true }
      else peer)
      successes := update s.successes name 0
      failures := update s.failures name failures }

def perform (cfg : HealthCheckConfig) (config : P → PeerConfig) (s : HealthState P) : HealthEvent P → HealthState P
  | .probe p success nowMs => s.completeHealthProbe cfg config p success nowMs
  | .requestFailed p nowMs => { s with state := update s.state p ((s.state p).onFailure nowMs) }
  | .requestSucceeded p => { s with state := update s.state p ((s.state p).onSuccess (config p)) }

def start (config : P → PeerConfig) : HealthState P where
  state p := .make (config p)

def after (cfg : HealthCheckConfig) (config : P → PeerConfig) (events : List (HealthEvent P)) : HealthState P :=
  events.foldl (perform cfg config) (start config)

def down (s : HealthState P) (p : P) : Bool := (s.state p).down

end HealthState

/-! ## Streaks -/

def HealthEvent.outcome (p : P) : HealthEvent P → Option Bool
  | .probe q success _ => if q = p then some success else none
  | _ => none

/-- how many probes of this peer in a row, up to now, had this outcome -/
def probeStreak (success : Bool) (p : P) (events : List (HealthEvent P)) : ℕ :=
  ((events.filterMap (HealthEvent.outcome p)).rtakeWhile (· == success)).length

theorem streak_snoc (b : Bool) (p : P) (events : List (HealthEvent P)) (e : HealthEvent P) :
    probeStreak b p (events ++ [e]) =
      match e.outcome p with
      | none => probeStreak b p events
      | some success => if success = b then probeStreak b p events + 1 else 0 := by
  unfold probeStreak
  rw [filterMap_append, filterMap_cons, filterMap_nil]
  cases e.outcome p with
  | none => rw [append_nil]
  | some success =>
    dsimp only
    split_ifs with heq
    · rw [rtakeWhile_concat_pos _ _ _ (by simpa using heq), length_append, length_singleton]
    · rw [rtakeWhile_concat_neg _ _ _ (by simpa using heq), length_nil]

theorem streak_probe_self (b : Bool) (p : P) (events : List (HealthEvent P)) (success : Bool) (nowMs : ℕ) :
    probeStreak b p (events ++ [.probe p success nowMs]) = if success = b then probeStreak b p events + 1 else 0 := by
  rw [streak_snoc, HealthEvent.outcome, if_pos rfl]

theorem streak_probe_other (b : Bool) {p q : P} (hne : p ≠ q) (events : List (HealthEvent P)) (success : Bool)
    (nowMs : ℕ) :
    probeStreak b p (events ++ [.probe q success nowMs]) = probeStreak b p events := by
  rw [streak_snoc, HealthEvent.outcome, if_neg hne.symm]

/-! ## Counters and streaks -/

/-- an `int` that is not above `n` -/
def Counts (x : ℤ) (n : ℕ) : Prop := kIntMin ≤ x ∧ x ≤ n

omit [DecidableEq P] in
theorem Counts.succ {x : ℤ} {n : ℕ} (h : Counts x n) : Counts (int32 (x + 1)) (n + 1) := by
  obtain ⟨hmin, hle⟩ := h
  rcases le_or_gt (x + 1) kIntMax with hfits | hwraps
  · rw [int32_of_fits (by omega) hfits]
    exact ⟨by omega, by push_cast; omega⟩
  · have hlow : -2 ^ 31 ≤ int32 (x + 1) := Int.le_bmod (by norm_num)
    have hhigh : int32 (x + 1) < 2 ^ 31 := Int.bmod_lt (by norm_num)
    unfold kIntMax at hwraps
    exact ⟨hlow, by push_cast; omega⟩

omit [DecidableEq P] in
theorem counts_zero (n : ℕ) : Counts 0 n := ⟨by decide, by positivity⟩

namespace HealthState

variable {cfg : HealthCheckConfig} {config : P → PeerConfig} {s : HealthState P} {events : List (HealthEvent P)}

theorem counters_probe (p : P) (success : Bool) (nowMs : ℕ) (name : Bytes) :
    (s.completeHealthProbe cfg config p success nowMs).successes name =
      (if name = (config p).name then
        if success = true ∧ ¬ cfg.healthyThreshold ≤ int32 (s.successes name + 1) then int32 (s.successes name + 1)
          else 0
      else s.successes name) ∧
    (s.completeHealthProbe cfg config p success nowMs).failures name =
      if name = (config p).name then if success = true then 0 else int32 (s.failures name + 1)
        else s.failures name := by
  unfold completeHealthProbe
  rcases eq_or_ne name (config p).name with rfl | hne
  · cases success with
    | false => simp
    | true => dsimp only; split_ifs <;> simp_all
  · cases success with
    | false => simp [hne]
    | true => dsimp only; split_ifs <;> simp [hne]

/-- no counter exceeds the streak of its peer -/
structure Tracks (config : P → PeerConfig) (s : HealthState P) (events : List (HealthEvent P)) : Prop where
  successes : ∀ p, Counts (s.successes (config p).name) (probeStreak true p events)
  failures : ∀ p, Counts (s.failures (config p).name) (probeStreak false p events)

theorem Tracks.probe (hinj : Function.Injective fun p => (config p).name) (h : Tracks config s events) (q : P)
    (success : Bool) (nowMs : ℕ) :
    Tracks config (s.completeHealthProbe cfg config q success nowMs) (events ++ [.probe q success nowMs]) where
  successes := by
    intro p
    rw [(counters_probe ..).1]
    rcases eq_or_ne p q with rfl | hne
    · rw [if_pos rfl, streak_probe_self]
      split_ifs with hcounts hsuccess hsuccess
      · exact (h.successes p).succ
      · exact absurd hcounts.1 hsuccess
      · exact counts_zero _
      · exact counts_zero _
    · rw [if_neg fun heq => hne (hinj heq), streak_probe_other true hne]
      exact h.successes p
  failures := by
    intro p
    rw [(counters_probe ..).2]
    rcases eq_or_ne p q with rfl | hne
    · rw [if_pos rfl, streak_probe_self]
      cases success with
      | true => exact counts_zero _
      | false => exact (h.failures p).succ
    · rw [if_neg fun heq => hne (hinj heq), streak_probe_other false hne]
      exact h.failures p

/-- **One event.** Requests move neither counters nor streaks. -/
theorem Tracks.perform (hinj : Function.Injective fun p => (config p).name) (h : Tracks config s events)
    (e : HealthEvent P) :
    Tracks config (s.perform cfg config e) (events ++ [e]) := by
  cases e with
  | probe q success nowMs => exact h.probe hinj q success nowMs
  | requestFailed q nowMs =>
      exact ⟨fun p => streak_snoc true p .. ▸ h.successes p, fun p => streak_snoc false p .. ▸ h.failures p⟩
  | requestSucceeded q =>
      exact ⟨fun p => streak_snoc true p .. ▸ h.successes p, fun p => streak_snoc false p .. ▸ h.failures p⟩

theorem counters_le (cfg : HealthCheckConfig) (hinj : Function.Injective fun p => (config p).name)
    (events : List (HealthEvent P)) : Tracks config (after cfg config events) events := by
  induction events using List.reverseRecOn with
  | nil => exact ⟨fun _ => counts_zero 0, fun _ => counts_zero 0⟩
  | append_singleton events e ih =>
    rw [after, foldl_append]
    exact ih.perform hinj e

theorem down_perform (e : HealthEvent P) (p : P) :
    (s.perform cfg config e).down p =
      match e with
      | .probe q true _ => if q = p ∧ cfg.healthyThreshold ≤ int32 (s.successes (config q).name + 1) then false
        else s.down p
      | .probe q false _ => if q = p ∧ cfg.unhealthyThreshold ≤ int32 (s.failures (config q).name + 1) then true
        else s.down p
      | _ => s.down p := by
  have hother : ∀ (q : P) (x : UpstreamPeerState), q ≠ p → update s.state q x p = s.state p :=
    fun q x hne => update_of_ne hne.symm x s.state
  unfold down
  cases e with
  | requestFailed q nowMs =>
    rcases eq_or_ne q p with rfl | hne
    · simp [perform, UpstreamPeerState.onFailure]
    · simp [perform, hother q _ hne]
  | requestSucceeded q =>
    rcases eq_or_ne q p with rfl | hne
    · simp [perform, UpstreamPeerState.onSuccess]
    · simp [perform, hother q _ hne]
  | probe q success nowMs =>
    rcases eq_or_ne q p with rfl | hne
    · cases success with
      | true => simp only [perform, completeHealthProbe]; split_ifs <;> simp_all [UpstreamPeerState.onSuccess]
      | false => simp only [perform, completeHealthProbe]; split_ifs <;> simp_all [UpstreamPeerState.onFailure]
    · cases success with
      | true => simp only [perform, completeHealthProbe]; split_ifs <;> simp_all
      | false => simp only [perform, completeHealthProbe]; split_ifs <;> simp_all

/-- **One event.** A flag that changes ends a streak of its peer. -/
theorem flag_changes (cfg : HealthCheckConfig) (hinj : Function.Injective fun p => (config p).name)
    (events : List (HealthEvent P)) (e : HealthEvent P) (p : P) :
    ((after cfg config events).down p = false → (after cfg config (events ++ [e])).down p = true →
      (∃ nowMs, e = .probe p false nowMs) ∧ cfg.unhealthyThreshold ≤ probeStreak false p (events ++ [e])) ∧
    ((after cfg config events).down p = true → (after cfg config (events ++ [e])).down p = false →
      (∃ nowMs, e = .probe p true nowMs) ∧ cfg.healthyThreshold ≤ probeStreak true p (events ++ [e])) := by
  have htracks := counters_le cfg hinj events
  have hafter : after cfg config (events ++ [e]) = (after cfg config events).perform cfg config e := by
    rw [after, foldl_append]
    rfl
  rw [hafter, down_perform]
  cases e with
  | requestFailed q nowMs =>
      exact ⟨fun hup hdown => absurd hdown (by simp [hup]), fun hdown hup => absurd hup (by simp [hdown])⟩
  | requestSucceeded q =>
      exact ⟨fun hup hdown => absurd hdown (by simp [hup]), fun hdown hup => absurd hup (by simp [hdown])⟩
  | probe q success nowMs =>
    cases success with
    | false =>
      refine ⟨fun hup hdown => ?_, fun hdown hup => ?_⟩
      · dsimp only at hdown
        split_ifs at hdown with hmark
        · obtain ⟨rfl, hle⟩ := hmark
          refine ⟨⟨nowMs, rfl⟩, ?_⟩
          rw [streak_probe_self, if_pos rfl]
          exact hle.trans (htracks.failures q).succ.2
        · rw [hup] at hdown
          cases hdown
      · dsimp only at hup
        split_ifs at hup
        rw [hdown] at hup
        cases hup
    | true =>
      refine ⟨fun hup hdown => ?_, fun hdown hup => ?_⟩
      · dsimp only at hdown
        split_ifs at hdown
        rw [hup] at hdown
        cases hdown
      · dsimp only at hup
        split_ifs at hup with hmark
        · obtain ⟨rfl, hle⟩ := hmark
          refine ⟨⟨nowMs, rfl⟩, ?_⟩
          rw [streak_probe_self, if_pos rfl]
          exact hle.trans (htracks.successes q).succ.2
        · rw [hdown] at hup
          cases hup

end HealthState

end

/-! ## The peers of a configuration -/

namespace GatewayConfig

/-- a peer of a configuration: the position of its upstream and its own -/
abbrev PeerRef (config : GatewayConfig) : Type :=
  (i : Fin config.upstreams.length) × Fin (config.upstreams.get i).peers.length

def peerConfig (config : GatewayConfig) (r : config.PeerRef) : PeerConfig := (config.upstreams.get r.1).peers.get r.2

/-- the health check of a gateway with this configuration, after these events -/
def healthAfter (config : GatewayConfig) (events : List (HealthEvent config.PeerRef)) : HealthState config.PeerRef :=
  .after config.healthCheck.config config.peerConfig events

end GatewayConfig

/-- **Hysteresis.** If the names of all peers of all upstreams are distinct, a flag is set only at the end of
`unhealthy_threshold` failed probes in a row of its peer, and cleared only at the end of `healthy_threshold` successful
ones. -/
theorem down_flag_hysteresis (config : GatewayConfig)
    (hdistinct : Function.Injective fun r => (config.peerConfig r).name) (events : List (HealthEvent config.PeerRef))
    (e : HealthEvent config.PeerRef) (p : config.PeerRef) :
    ((config.healthAfter events).down p = false → (config.healthAfter (events ++ [e])).down p = true →
      (∃ nowMs, e = .probe p false nowMs) ∧
        config.healthCheck.config.unhealthyThreshold ≤ probeStreak false p (events ++ [e])) ∧
    ((config.healthAfter events).down p = true → (config.healthAfter (events ++ [e])).down p = false →
      (∃ nowMs, e = .probe p true nowMs) ∧
        config.healthCheck.config.healthyThreshold ≤ probeStreak true p (events ++ [e])) :=
  HealthState.flag_changes config.healthCheck.config hdistinct events e p

def twoUpstreams (name name' : String) : GatewayConfig where
  healthCheck := { enabled := true, config := { unhealthyThreshold := 2 } }
  upstreams :=
    [{ name := str "api", peers := [{ name := str name, host := str "127.0.0.1", port := 9001 }] },
      { name := str "web", peers := [{ name := str name', host := str "127.0.0.1", port := 9001 }] }]

def apiPeer (name name' : String) : (twoUpstreams name name').PeerRef := ⟨(0 : Fin 2), (0 : Fin 1)⟩

def webPeer (name name' : String) : (twoUpstreams name name').PeerRef := ⟨(1 : Fin 2), (0 : Fin 1)⟩

def silentRound (name name' : String) (nowMs : ℕ) : List (HealthEvent (twoUpstreams name name').PeerRef) :=
  healthCheckRound [apiPeer name name', webPeer name name'] (fun _ => false) fun _ => nowMs

theorem down_flag_hysteresis_twoNames :
    ((twoUpstreams "a" "b").healthAfter (silentRound "a" "b" 5)).down (webPeer "a" "b") = false ∧
      ((twoUpstreams "a" "b").healthAfter (silentRound "a" "b" 5 ++ [.probe (webPeer "a" "b") false 9])).down
        (webPeer "a" "b") = true ∧
      2 ≤ probeStreak false (webPeer "a" "b") (silentRound "a" "b" 5 ++ [.probe (webPeer "a" "b") false 9]) := by
  have hup : ((twoUpstreams "a" "b").healthAfter (silentRound "a" "b" 5)).down (webPeer "a" "b") = false := by decide
  have hdown : ((twoUpstreams "a" "b").healthAfter (silentRound "a" "b" 5 ++ [.probe (webPeer "a" "b") false 9])).down
      (webPeer "a" "b") = true := by decide
  have hstreak := ((down_flag_hysteresis (twoUpstreams "a" "b") (by decide) (silentRound "a" "b" 5)
    (.probe (webPeer "a" "b") false 9) (webPeer "a" "b")).1 hup hdown).2
  exact ⟨hup, hdown, Int.ofNat_le.1 hstreak⟩

/-- **A flag set too early.** The configuration, with one server in two upstreams and a threshold of 2, is accepted. In
the first round, which probes each peer once, the peer of the second upstream is marked down. -/
theorem down_flag_shared_name :
    (twoUpstreams "127.0.0.1:9001" "127.0.0.1:9001").Accepted ∧
      (twoUpstreams "127.0.0.1:9001" "127.0.0.1:9001").healthCheck.config.unhealthyThreshold = 2 ∧
      ((twoUpstreams "127.0.0.1:9001" "127.0.0.1:9001").healthAfter []).down
        (webPeer "127.0.0.1:9001" "127.0.0.1:9001") = false ∧
      ((twoUpstreams "127.0.0.1:9001" "127.0.0.1:9001").healthAfter
        (silentRound "127.0.0.1:9001" "127.0.0.1:9001" 5)).down (webPeer "127.0.0.1:9001" "127.0.0.1:9001") = true ∧
      probeStreak false (webPeer "127.0.0.1:9001" "127.0.0.1:9001") (silentRound "127.0.0.1:9001" "127.0.0.1:9001" 5) =
        1 := by
  decide

end Coropact.Gateway
