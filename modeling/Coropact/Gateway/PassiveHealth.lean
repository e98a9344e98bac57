/-
The passive health check of a peer (`UpstreamPeer::AvailableAt` in `include/coropact/gateway/upstream_peer.h`) over
whole histories.

The rule is about the failures since the last success. The code counts them in 64 bits and compares the count as an
`int`, so it follows the rule up to 2 ^ 31 - 1 failures in a row. With one more the count is negative, and the peer is
available again (`failing_peer_available`).
-/
import Coropact.Gateway.GatewayConfig
import Mathlib.Data.List.DropRight

namespace Coropact.Gateway

open UpstreamPeerState List Option
open Coropact.Http (str)

/-- what happens to a peer; the health checker sets the flag -/
inductive PeerEvent
  | failure (nowMs : ℕ)
  | success
  | down (b : Bool)
deriving DecidableEq

namespace PeerEvent

def time : PeerEvent → Option ℕ
  | .failure nowMs => some nowMs
  | _ => none

def apply (config : PeerConfig) (s : UpstreamPeerState) : PeerEvent → UpstreamPeerState
  | .failure nowMs => s.onFailure nowMs
  | .success => s.onSuccess config
  | .down b => { s with down := b }

end PeerEvent

def peerAfter (config : PeerConfig) (l : List PeerEvent) : UpstreamPeerState :=
    l.foldl (PeerEvent.apply config) (make config)

def recentFailures (l : List PeerEvent) : List ℕ := (l.rtakeWhile (· ≠ .success)).filterMap PeerEvent.time

def markedDown (l : List PeerEvent) : Bool := l.foldl (fun b e => match e with | .down b => b | _ => b) false

variable {config : PeerConfig} {l : List PeerEvent}

theorem recentFailures_snoc {e : PeerEvent} (he : e ≠ .success) :
    recentFailures (l ++ [e]) = recentFailures l ++ e.time.toList := by
  rw [recentFailures, rtakeWhile_concat_pos _ _ _ (by simpa using he), filterMap_append, recentFailures]
  cases h : e.time <;> simp [h]

theorem peerAfter_count (config : PeerConfig) (l : List PeerEvent) :
    (peerAfter config l).fails = BitVec.ofNat 64 (recentFailures l).length ∧ (peerAfter config l).down = markedDown l ∧
      ∀ t ∈ (recentFailures l).getLast?, (peerAfter config l).checkedMs = t := by
  induction l using List.reverseRecOn with
  | nil => exact ⟨rfl, rfl, nofun⟩
  | append_singleton l e ih =>
    obtain ⟨hfails, hdown, hchecked⟩ := ih
    have hmarked : markedDown (l ++ [e]) = match e with | .down b => b | _ => markedDown l := by
      rw [markedDown, foldl_append]
      rfl
    have hafter : peerAfter config (l ++ [e]) = e.apply config (peerAfter config l) := by simp [peerAfter]
    rw [hafter, hmarked]
    cases e with
    | failure nowMs =>
      rw [recentFailures_snoc (by simp)]
      refine ⟨?_, hdown, fun t ht => ?_⟩
      · simp only [PeerEvent.apply, onFailure, hfails, PeerEvent.time, toList_some, length_append,
          length_singleton, BitVec.ofNat_add]
        rfl
      · simpa [PeerEvent.time, PeerEvent.apply, onFailure] using ht
    | success =>
      have hnil : recentFailures (l ++ [.success]) = [] := by
        rw [recentFailures, rtakeWhile_concat_neg _ _ _ (by simp)]
        rfl
      rw [hnil]
      exact ⟨rfl, hdown, nofun⟩
    | down b =>
      rw [recentFailures_snoc (by simp)]
      simp only [PeerEvent.time, toList_none, append_nil]
      exact ⟨hfails, rfl, hchecked⟩

theorem narrowed_fails {n : ℕ} (h : n < 2 ^ 31) : ((BitVec.ofNat 64 n).setWidth 32).toInt = n := by
  have hnat : ((BitVec.ofNat 64 n).setWidth 32).toNat = n := by
    rw [BitVec.toNat_setWidth, BitVec.toNat_ofNat]
    omega
  rw [BitVec.toInt_eq_toNat_of_lt (by omega), hnat]

/-- **The passive health rule**, as long as there are fewer than 2 ^ 31 failures in a row. -/
theorem passive_health_rule (hconfig : config.Parsed) {now : ℕ}
    (hclock : (l.filterMap PeerEvent.time ++ [now]).Pairwise (· ≤ ·)) (hfew : (recentFailures l).length < 2 ^ 31) :
    (peerAfter config l).availableAt config now = false ↔ markedDown l = true ∨
      config.maxFails ≤ (recentFailures l).length ∧ ∃ t ∈ (recentFailures l).getLast?,
        (now - t : ℤ) < config.failTimeout := by
  obtain ⟨hfails, hdown, hchecked⟩ := peerAfter_count config l
  rw [availableAt, isUp, hdown, hfails, narrowed_fails hfew]
  cases hmarked : markedDown l with
  | true => simp
  | false =>
    by_cases hreached : config.maxFails ≤ (recentFailures l).length
    · have hne : recentFailures l ≠ [] := by
        intro hnil
        have hpos := hconfig.maxFails_pos
        rw [hnil] at hreached
        exact absurd (hpos.trans hreached) (by decide)
      obtain ⟨t, ht⟩ : ∃ t, (recentFailures l).getLast? = some t := ⟨_, List.getLast?_eq_some_getLast hne⟩
      have hle : t ≤ now := by
        have hmem : t ∈ l.filterMap PeerEvent.time :=
          ((rtakeWhile_suffix _ l).sublist.filterMap _).subset (mem_of_getLast? ht)
        exact (pairwise_append.1 hclock).2.2 t hmem now mem_cons_self
      have hmin := hconfig.failTimeout_nonneg
      have hmax := hconfig.failTimeout_le
      unfold kIntMax at hmax
      simp only [hchecked t ht, ht, hreached, not_lt.2 hreached, hle, mem_def, some.injEq,
        exists_eq_left']
      simp
      omega
    · simp [hreached, not_le.1 hreached]

/-- a peer with the defaults: three failures, ten seconds -/
def plainPeer : PeerConfig := { host := str "10.0.0.1", port := 80, name := str "a" }

def failsThrice : List PeerEvent := [.failure 1, .success, .failure 2, .failure 3, .failure 5]

theorem passive_health_rule_thrice : (peerAfter plainPeer failsThrice).availableAt plainPeer 7 = false ↔
    markedDown failsThrice = true ∨ plainPeer.maxFails ≤ (recentFailures failsThrice).length ∧
      ∃ t ∈ (recentFailures failsThrice).getLast?, (7 - t : ℤ) < plainPeer.failTimeout :=
  passive_health_rule (by decide) (by decide) (by decide)

theorem recentFailures_replicate (n : ℕ) : recentFailures (List.replicate n (.failure 0)) = List.replicate n 0 := by
  induction n with
  | zero => rfl
  | succ n ih => rw [replicate_succ', recentFailures_snoc (by simp), ih, replicate_succ']; rfl

theorem markedDown_replicate (n : ℕ) : markedDown (List.replicate n (.failure 0)) = false := by
  induction n with
  | zero => rfl
  | succ n ih => rwa [markedDown, replicate_succ, foldl_cons]

/-- the count is negative as an `int` after 2 ^ 31 failures in a row -/
theorem failing_peer_available : ∃ l, markedDown l = false ∧ plainPeer.maxFails ≤ (recentFailures l).length ∧
    (recentFailures l).getLast? = some 0 ∧ 0 < plainPeer.failTimeout ∧
    (peerAfter plainPeer l).availableAt plainPeer 0 = true := by
  obtain ⟨hfails, hdown, -⟩ := peerAfter_count plainPeer (List.replicate (2 ^ 31) (.failure 0))
  rw [recentFailures_replicate, length_replicate] at hfails
  rw [markedDown_replicate] at hdown
  refine ⟨_, markedDown_replicate (2 ^ 31), ?_, ?_, by decide, ?_⟩
  · rw [recentFailures_replicate, length_replicate]
    decide
  · rw [recentFailures_replicate, List.getLast?_replicate]
    rfl
  · rw [availableAt, isUp, hdown, hfails]
    decide

end Coropact.Gateway
