/-
The ten load-balancing strategies together (`CreateLoadBalancer` and `LoadBalancer::Select` in
`include/coropact/gateway/load_balancer.h`), and an upstream at work: requests succeed and fail, the health loop sets
and clears the flags of its peers, and in between a strategy selects.

Peers and configurations never change; `Reached` collects what every sequence of events keeps. Nothing is assumed about
the events: which peer fails and when, and what the health loop does, is left open.
-/
import Coropact.Gateway.MaglevHash

namespace Coropact.Gateway

open Coropact.Http Coropact.Balance Function

/-! ## Strategies -/

inductive LoadBalancer (P : Type*) where
  | roundRobin (lb : RoundRobinLB)
  | smoothWeightedRoundRobin (lb : SmoothWeightedRoundRobinLB P)
  | leastConnection
  | weightedLeastConnection
  | random
  | weightedRandom
  | ipHash
  | consistentHash (lb : ConsistentHashLB P)
  | maglevHash (lb : MaglevHashLB P)
  | p2c

variable {P : Type*}

/-- the table of `CreateLoadBalancer`, with the constructors' default arguments -/
def creators : List (Bytes × LoadBalancer P) :=
  [(str "round_robin", .roundRobin {}),
    (str "smooth_weighted_round_robin", .smoothWeightedRoundRobin {}),
    (str "least_connection", .leastConnection),
    (str "weighted_least_connection", .weightedLeastConnection),
    (str "random", .random),
    (str "weighted_random", .weightedRandom),
    (str "ip_hash", .ipHash),
    (str "consistent_hash", .consistentHash (.make 150 (str "client_ip"))),
    (str "maglev_hash", .maglevHash (.make MaglevHashLB.kDefaultTableSize (str "client_ip"))),
    (str "p2c", .p2c)]

def createLoadBalancer (algo : Bytes) : Option (LoadBalancer P) := (creators.find? fun c => c.1 == algo).map Prod.snd

/-- a strategy as its constructor leaves it -/
inductive Constructed : LoadBalancer P → Prop
  | roundRobin : Constructed (.roundRobin {})
  | smoothWeightedRoundRobin : Constructed (.smoothWeightedRoundRobin {})
  | leastConnection : Constructed .leastConnection
  | weightedLeastConnection : Constructed .weightedLeastConnection
  | random : Constructed .random
  | weightedRandom : Constructed .weightedRandom
  | ipHash : Constructed .ipHash
  | consistentHash (vnodesPerUnit : ℤ) (hashOn : Bytes) : Constructed (.consistentHash (.make vnodesPerUnit hashOn))
  | maglevHash (tableSize : ℕ) (hashOn : Bytes) : Constructed (.maglevHash (.make tableSize hashOn))
  | p2c : Constructed .p2c

theorem constructed_of_create {algo : Bytes} {lb : LoadBalancer P} (h : createLoadBalancer algo = some lb) :
    Constructed lb := by
  obtain ⟨c, hfind, rfl⟩ := Option.map_eq_some_iff.1 h
  have hmem := List.mem_of_find?_eq_some hfind
  simp only [creators, List.mem_cons, List.not_mem_nil, or_false] at hmem
  rcases hmem with rfl | rfl | rfl | rfl | rfl | rfl | rfl | rfl | rfl | rfl
  · exact .roundRobin
  · exact .smoothWeightedRoundRobin
  · exact .leastConnection
  · exact .weightedLeastConnection
  · exact .random
  · exact .weightedRandom
  · exact .ipHash
  · exact .consistentHash _ _
  · exact .maglevHash _ _
  · exact .p2c

def LoadBalancer.select [DecidableEq P] (lb : LoadBalancer P) (h : Hashing P) (g : PeerGroup P) (nowMs : ℕ)
    (ctx : RequestContext) (draws : Draws) : Except SelectFailure (Option P) × LoadBalancer P :=
  match lb with
  | .roundRobin lb => ((lb.select g nowMs).map .ok .roundRobin)
  | .smoothWeightedRoundRobin lb => ((lb.select g nowMs).map .ok .smoothWeightedRoundRobin)
  | .leastConnection => (.ok (LeastConnectionLB.select g nowMs), lb)
  | .weightedLeastConnection => (.ok (WeightedLeastConnectionLB.select g nowMs), lb)
  | .random => (.ok (RandomLB.select g nowMs draws), lb)
  | .weightedRandom => (.ok (WeightedRandomLB.select g nowMs draws), lb)
  | .ipHash => (.ok (IPHashLB.select h g nowMs ctx), lb)
  | .consistentHash lb => ((lb.select h g nowMs ctx).map id .consistentHash)
  | .maglevHash lb => ((lb.select h g nowMs ctx).map id .maglevHash)
  | .p2c => (.ok (P2CLB.select g nowMs draws), lb)

/-! ## An upstream at work -/

/-- an upstream and the strategy of a route to it -/
structure Balancing (P : Type*) where
  group : PeerGroup P
  lb : LoadBalancer P

inductive BalancingEvent (P : Type*) where
  /-- `OnFailure` and `OnSuccess`, of a request or of a probe -/
  | failure (p : P) (nowMs : ℕ)
  | success (p : P)
  /-- `active` goes up and down -/
  | begin (p : P)
  | finish (p : P)
  /-- what the health loop writes besides -/
  | setDown (p : P) (down : Bool)
  | clearFails (p : P)
  | select (nowMs : ℕ) (ctx : RequestContext) (draws : Draws)

variable [DecidableEq P]

def PeerGroup.modify (g : PeerGroup P) (p : P) (f : UpstreamPeerState → UpstreamPeerState) : PeerGroup P :=
  { g with state := update g.state p (f (g.state p)) }

namespace Balancing

def perform (h : Hashing P) (s : Balancing P) : BalancingEvent P → Balancing P
  | .failure p nowMs => { s with group := s.group.modify p fun x => x.onFailure nowMs }
  | .success p => { s with group := s.group.modify p fun x => x.onSuccess (s.group.config p) }
  | .begin p => { s with group := s.group.modify p fun x => { x with active := int32 (x.active + 1) } }
  | .finish p => { s with group := s.group.modify p fun x => { x with active := int32 (x.active - 1) } }
  | .setDown p down => { s with group := s.group.modify p fun x => { x with down := down } }
  | .clearFails p => { s with group := s.group.modify p fun x => { x with fails := 0 } }
  | .select nowMs ctx draws => { s with lb := (s.lb.select h s.group nowMs ctx draws).2 }

def after (h : Hashing P) (s : Balancing P) (events : List (BalancingEvent P)) : Balancing P :=
    events.foldl (perform h) s

/-! ## What is kept -/

/-- the sum of the configured weights, times the number of peers, fits an `int` -/
def SmallWeights (peers : List P) (config : P → PeerConfig) : Prop :=
  peers.length * ∑ p ∈ peers.toFinset, max (config p).weight 0 ≤ kIntMax

/-- what a strategy remembers comes from these peers -/
def Remembers (h : Hashing P) (peers : List P) (config : P → PeerConfig) : LoadBalancer P → Prop
  | .smoothWeightedRoundRobin lb =>
    SmallWeights peers config →
      Balanced peers.toFinset (∑ p ∈ peers.toFinset, max (config p).weight 0) lb.currentWeights
  | .consistentHash lb =>
    0 < lb.vnodesPerUnit ∧ ∀ ring, lb.ring = some ring →
      ∃ avail ⊆ peers, ConsistentHashLB.buildRing h lb.vnodesPerUnit config avail = .ok ring
  | .maglevHash lb =>
    lb.tableSize.Prime ∧ ∀ table, lb.table = some table →
      ∃ avail ⊆ peers, MaglevHashLB.buildTable h lb.tableSize config avail = .ok table
  | _ => True

/-- the states in which an upstream with these peers can be -/
structure Reached (h : Hashing P) (peers : List P) (config : P → PeerConfig) (s : Balancing P) : Prop where
  peers_eq : s.group.peers = peers
  config_eq : s.group.config = config
  inWeight : ∀ p ∈ peers, (s.group.state p).InWeight (config p)
  remembers : Remembers h peers config s.lb

variable {h : Hashing P} {peers : List P} {config : P → PeerConfig} {s : Balancing P}

theorem remembers_constructed {lb : LoadBalancer P} (hlb : Constructed lb) : Remembers h peers config lb := by
  cases hlb with
  | smoothWeightedRoundRobin =>
    intro _
    exact balanced_zero _ (Finset.sum_nonneg fun p _ => le_max_right _ _)
  | consistentHash vnodesPerUnit hashOn =>
    refine ⟨?_, fun ring hring => by cases hring⟩
    have hmin : ConsistentHashLB.kVNODESMIN ≤ max ConsistentHashLB.kVNODESMIN
      (min vnodesPerUnit ConsistentHashLB.kVNODESMAX) :=
      le_max_left _ _
    exact lt_of_lt_of_le (by decide) hmin
  | maglevHash tableSize hashOn => exact ⟨MaglevHashLB.nextPrime_prime _, fun table htable => by cases htable⟩
  | _ => exact trivial

theorem Reached.small (hs : Reached h peers config s) (hnodup : peers.Nodup) (hsmall : SmallWeights peers config) :
    SmoothWeightedRoundRobinLB.Small s.group (∑ p ∈ peers.toFinset, max (config p).weight 0) := by
  refine ⟨hs.peers_eq ▸ hnodup, ?_, hs.peers_eq ▸ hsmall⟩
  rw [hs.peers_eq]
  apply Finset.sum_le_sum
  intro p hp
  exact max_le_max (hs.inWeight p (List.mem_toFinset.1 hp)).2 le_rfl

theorem Reached.available_subset (hs : Reached h peers config s) (nowMs : ℕ) : s.group.available nowMs ⊆ peers :=
  hs.peers_eq ▸ (s.group.available_sublist nowMs).subset

/-- **One selection.** What the strategy remembers afterwards comes from the peers. -/
theorem Reached.select (hs : Reached h peers config s) (hnodup : peers.Nodup) (nowMs : ℕ) (ctx : RequestContext)
    (draws : Draws) : Remembers h peers config (s.lb.select h s.group nowMs ctx draws).2 := by
  have hremembers := hs.remembers
  have hsubset := hs.available_subset nowMs
  have hsmall := hs.small hnodup
  have hpeers := hs.peers_eq
  have hconfig := hs.config_eq
  obtain ⟨g, lb⟩ := s
  dsimp only at hremembers hsubset hsmall hpeers hconfig ⊢
  cases lb with
  | smoothWeightedRoundRobin lb =>
    subst hpeers
    intro hsum
    exact SmoothWeightedRoundRobinLB.balanced_select (hsmall hsum) (hremembers hsum) nowMs
  | consistentHash lb =>
    refine ⟨hremembers.1, fun ring hring => ?_⟩
    rcases selectThrough_cached hring with hold | hnew
    · exact hremembers.2 ring hold
    · exact ⟨_, hsubset, hconfig ▸ hnew⟩
  | maglevHash lb =>
    refine ⟨hremembers.1, fun table htable => ?_⟩
    rcases selectThrough_cached htable with hold | hnew
    · exact hremembers.2 table hold
    · exact ⟨_, hsubset, hconfig ▸ hnew⟩
  | _ => exact trivial

theorem Reached.modify (hs : Reached h peers config s) (p : P) {f : UpstreamPeerState → UpstreamPeerState}
    (hf : ∀ x : UpstreamPeerState, x.InWeight (config p) → (f x).InWeight (config p)) :
    Reached h peers config { s with group := s.group.modify p f } := by
  refine ⟨hs.peers_eq, hs.config_eq, fun q hq => ?_, hs.remembers⟩
  change (update s.group.state p (f (s.group.state p)) q).InWeight (config q)
  rcases eq_or_ne q p with rfl | hne
  · rw [update_self]
    exact hf _ (hs.inWeight q hq)
  · rw [update_of_ne hne]
    exact hs.inWeight q hq

theorem reached_perform (hs : Reached h peers config s) (hnodup : peers.Nodup) (e : BalancingEvent P) :
    Reached h peers config (perform h s e) := by
  cases e with
  | failure p nowMs => exact hs.modify p fun x hx => UpstreamPeerState.inWeight_onFailure hx nowMs
  | success p =>
    refine hs.modify p fun x hx => ?_
    rw [hs.config_eq]
    exact UpstreamPeerState.inWeight_onSuccess hx
  | begin p => exact hs.modify p fun x hx => hx
  | finish p => exact hs.modify p fun x hx => hx
  | setDown p down => exact hs.modify p fun x hx => hx
  | clearFails p => exact hs.modify p fun x hx => hx
  | select nowMs ctx draws => exact ⟨hs.peers_eq, hs.config_eq, hs.inWeight, hs.select hnodup nowMs ctx draws⟩

theorem reached_after (hs : Reached h peers config s) (hnodup : peers.Nodup) (events : List (BalancingEvent P)) :
    Reached h peers config (s.after h events) := by
  induction events generalizing s with
  | nil => exact hs
  | cons e events ih => exact ih (reached_perform hs hnodup e)

end Balancing

end Coropact.Gateway
