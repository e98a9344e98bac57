/-
Whether a strategy finds an available peer whenever there is one.

`Admits` is what a strategy needs for that, besides an available peer. Round robin, random, hashing by address, weighted
least connections and the two choices need nothing.
-/
import Coropact.Gateway.CachedTables

namespace Coropact.Gateway

open Coropact.Http List

variable {P : Type*} [DecidableEq P]

def Admits (lb : LoadBalancer P) (g : PeerGroup P) (nowMs : ℕ) : Prop :=
  let avail := g.available nowMs
  match lb with
  | .smoothWeightedRoundRobin _ =>
    Balancing.SmallWeights g.peers g.config ∧ (avail ≠ [] → ∃ p ∈ avail, 0 < g.effectiveWeight p)
  | .leastConnection => avail ≠ [] → ∃ p ∈ avail, g.activeRequest p < kIntMax
  | .weightedRandom =>
    (avail.map fun p => max (g.weight p) 0).sum ≤ kIntMax ∧ (avail ≠ [] → ∃ p ∈ avail, 0 < g.weight p)
  | .consistentHash lb =>
    (∀ p ∈ g.peers, semicolon ∉ (g.config p).name) ∧
      (avail.map fun p => max (g.config p).weight 1).sum * lb.vnodesPerUnit ≤ kIntMax
  | .maglevHash _ => ∀ p ∈ g.peers, semicolon ∉ (g.config p).name
  | _ => True

omit [DecidableEq P] in
theorem finds_of_answers {T : Type*} {build : Except SelectFailure T} {avail : List P} {lookup : T → Option P}
    (hnil : avail = [] → build.map lookup = .ok none)
    (hanswers : avail ≠ [] → ∃ t, build = .ok t ∧ ∃ p ∈ avail, lookup t = some p) :
    ∃ answer, build.map lookup = .ok answer ∧ Finds avail answer := by
  rcases eq_or_ne avail [] with rfl | hne
  · exact ⟨none, hnil rfl, by simp [Finds]⟩
  · obtain ⟨t, ht, p, hp, hlookup⟩ := hanswers hne
    exact ⟨some p, by rw [ht, Except.map, hlookup], .of_ne_nil hp rfl⟩

namespace Balancing

variable {h : Hashing P} {peers : List P} {config : P → PeerConfig} {s : Balancing P}

/-- **One call.** -/
theorem Reached.select_finds (hs : Reached h peers config s) (hnodup : peers.Nodup)
    (hinj : ∀ p ∈ peers, ∀ q ∈ peers, (config p).name = (config q).name → p = q) {nowMs : ℕ}
    (hadmits : Admits s.lb s.group nowMs) (ctx : RequestContext) (draws : Draws) :
    ∃ answer, (s.lb.select h s.group nowMs ctx draws).1 = .ok answer ∧ Finds (s.group.available nowMs) answer := by
  have hfresh := fun hclear hhashes => hs.select_fresh ⟨hinj, hclear⟩ hhashes nowMs ctx draws
  have hremembers := hs.remembers
  have hsmall := hs.small hnodup
  have hpeers := hs.peers_eq
  have hconfig := hs.config_eq
  obtain ⟨g, lb⟩ := s
  dsimp only at hfresh hremembers hsmall hpeers hconfig hadmits ⊢
  subst hpeers hconfig
  cases lb with
  | roundRobin lb => exact ⟨_, rfl, finds_nth _ _⟩
  | smoothWeightedRoundRobin lb =>
    exact ⟨_, rfl, SmoothWeightedRoundRobinLB.select_finds (hsmall hadmits.1) (hremembers hadmits.1) hadmits.2⟩
  | leastConnection => exact ⟨_, rfl, LeastConnectionLB.select_finds hadmits⟩
  | weightedLeastConnection => exact ⟨_, rfl, WeightedLeastConnectionLB.select_finds g nowMs⟩
  | random => exact ⟨_, rfl, finds_nth _ _⟩
  | weightedRandom =>
    refine ⟨_, rfl, WeightedRandomLB.select_finds fun hne => ?_⟩
    obtain ⟨p, hp, hpos⟩ := hadmits.2 hne
    rw [intSum_eq le_rfl hadmits.1]
    have hnonneg : ∀ x ∈ (g.available nowMs).map fun p => max (g.weight p) 0, (0 : ℤ) ≤ x := by
      intro x hx
      obtain ⟨q, -, rfl⟩ := mem_map.1 hx
      exact le_max_right _ _
    exact (lt_max_of_lt_left hpos).trans_le (single_le_sum hnonneg _ (mem_map_of_mem hp))
  | ipHash => exact ⟨_, rfl, finds_nth _ _⟩
  | consistentHash lb =>
    rw [← Option.some.inj (hfresh hadmits.1 rfl)]
    refine finds_of_answers (fun hnil => by rw [hnil]; exact ConsistentHashLB.buildRing_nil _) fun hne => ?_
    obtain ⟨ring, hring, hanswers⟩ := ConsistentHashLB.buildRing_answers h hne hremembers.1 hadmits.2
    exact ⟨ring, hring, hanswers _⟩
  | maglevHash lb =>
    rw [← Option.some.inj (hfresh hadmits rfl)]
    refine finds_of_answers (fun hnil => by rw [hnil]; exact MaglevHashLB.buildTable_nil _) fun hne => ?_
    obtain ⟨table, htable, hanswers⟩ := MaglevHashLB.buildTable_answers h hremembers.1 hne
    exact ⟨table, htable, hanswers _⟩
  | p2c => exact ⟨_, rfl, P2CLB.select_finds g nowMs draws⟩

end Balancing

/-- **Every strategy finds an available peer**, if its needs are met. -/
theorem select_finds_available (config : GatewayConfig) (haccepted : config.Accepted) (upstream : GatewayUpstreamConfig)
    (hupstream : upstream ∈ config.upstreams) (h : Hashing (Fin upstream.peers.length))
    (lb : LoadBalancer (Fin upstream.peers.length)) (hlb : Constructed lb)
    (events : List (BalancingEvent (Fin upstream.peers.length))) (nowMs : ℕ) (ctx : RequestContext) (draws : Draws)
    (hadmits : Admits (Balancing.after h ⟨upstream.group, lb⟩ events).lb (Balancing.after h ⟨upstream.group,
      lb⟩ events).group
      nowMs) :
    let s := Balancing.after h ⟨upstream.group, lb⟩ events
    ∃ answer, (s.lb.select h s.group nowMs ctx draws).1 = .ok answer ∧ Finds (s.group.available nowMs) answer := by
  have hwell := ((validateGatewayConfig_ok_iff config).1 haccepted.validated).upstreams upstream hupstream
  have hreached := Balancing.reached_after (Balancing.reached_group haccepted hupstream h hlb) (nodup_finRange _) events
  exact hreached.select_finds (nodup_finRange _)
    (fun _ _ _ _ heq => upstream.name_injective hwell heq) hadmits ctx draws

def pairAfterFailure : Balancing (Fin 2) :=
  Balancing.after (lengthHashing (Fin 2))
    ⟨(GatewayUpstreamConfig.mk (str "api") false 1024 5000 plainPair).group,
      .smoothWeightedRoundRobin {}⟩ [.failure 0 5]

theorem select_finds_available_pairAfterFailure :
    ∃ answer, (pairAfterFailure.lb.select (lengthHashing (Fin 2)) pairAfterFailure.group 6 {} {}).1 = .ok answer ∧
      Finds (pairAfterFailure.group.available 6) answer := by
  have hsmall : Balancing.SmallWeights pairAfterFailure.group.peers pairAfterFailure.group.config := by
    unfold Balancing.SmallWeights
    decide
  have hsome : ∃ p ∈ pairAfterFailure.group.available 6, 0 < pairAfterFailure.group.effectiveWeight p :=
    ⟨1, by decide, by decide⟩
  exact select_finds_available (oneUpstream plainPair) accepted_plainPair _ (mem_singleton_self _)
    (lengthHashing (Fin 2)) (.smoothWeightedRoundRobin {}) .smoothWeightedRoundRobin [.failure (0 : Fin 2) 5] 6 {} {}
    ⟨hsmall, fun _ => hsome⟩

def lonePeer : List PeerConfig := [namedPeer "a"]

def weightlessPeer : List PeerConfig := [{ namedPeer "a" with weight := 0 }]

def failedOnce (h : Hashing (Fin 1)) : Balancing (Fin 1) :=
  Balancing.after h ⟨(GatewayUpstreamConfig.mk (str "api") false 1024 5000 lonePeer).group,
    .smoothWeightedRoundRobin {}⟩
    [.failure (Fin.last 0) 5]

def weightless : Balancing (Fin 1) :=
  ⟨(GatewayUpstreamConfig.mk (str "api") false 1024 5000 weightlessPeer).group, .weightedRandom⟩

/-- **Available peers that are not found.** Both configurations are accepted and the peer is available, but the call
returns none. -/
theorem select_misses_available : (oneUpstream lonePeer).Accepted ∧ (oneUpstream weightlessPeer).Accepted ∧
    ∀ h : Hashing (Fin 1),
      ((failedOnce h).group.available 6 = [0] ∧ ((failedOnce h).lb.select h (failedOnce h).group 6 {} {}).1 =
        .ok none) ∧
        weightless.group.available 6 = [0] ∧ ∀ draws, (weightless.lb.select h weightless.group 6 {} draws).1 =
          .ok none := by
  refine ⟨by decide, by decide, fun h => ⟨⟨rfl, rfl⟩, rfl, fun _ => rfl⟩⟩

end Coropact.Gateway
