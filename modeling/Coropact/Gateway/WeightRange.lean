/-
Whether the weight arithmetic of the strategies stays within an `int` (`SmoothWeightedRoundRobinLB::Select`,
`WeightedRandomLB::Select` and `ConsistentHashLB::BuildRing` in `include/coropact/gateway/load_balancer.h`, `ParsePeer`
in `src/gateway/gateway_config_yaml.cc`).

The loader accepts any number of peers with weights up to the largest `int`. `InRange` collects the exact result of
every addition, subtraction and multiplication of weights a call makes, each from the operands the code holds then.
-/
import Coropact.Gateway.CachedTables

namespace Coropact.Gateway

open Coropact.Http Coropact.Balance SmoothWeightedRoundRobinLB List

variable {P : Type*}

def IsInt (x : ℤ) : Prop := kIntMin ≤ x ∧ x ≤ kIntMax

/-- the additions of `intSum` -/
def SumsFit (least : ℤ) (weight : P → ℤ) (l : List P) : Prop :=
  ∀ l₁ p l₂, l = l₁ ++ p :: l₂ → IsInt (intSum least weight l₁ + max (weight p) least)

/-- the subtractions of `WeightedRandomLB.walk` -/
def WalkFits (weight : P → ℤ) : ℤ → List P → Prop
  | _, [] => True
  | r, p :: rest => IsInt (r - max (weight p) 0) ∧
      (0 < int32 (r - max (weight p) 0) → WalkFits weight (int32 (r - max (weight p) 0)) rest)

/-- the results of one call over the peers that are available -/
def InRange [DecidableEq P] (lb : LoadBalancer P) (g : PeerGroup P) (nowMs : ℕ) (draws : Draws) : Prop :=
  let avail := g.available nowMs
  match lb with
  | .smoothWeightedRoundRobin lb =>
    let scan := fun l => List.foldl (visit g) { currentWeights := lb.currentWeights } l
    SumsFit 0 g.effectiveWeight avail ∧ (0 < intSum 0 g.effectiveWeight avail →
      (∀ l₁ p l₂, avail = l₁ ++ p :: l₂ → IsInt ((scan l₁).currentWeights p + max (g.effectiveWeight p) 0)) ∧
      ∀ best, (scan avail).best = some best →
        IsInt ((scan avail).currentWeights best - intSum 0 g.effectiveWeight avail))
  | .weightedRandom =>
    SumsFit 0 g.weight avail ∧ (0 < intSum 0 g.weight avail →
      WalkFits g.weight (1 + draws.first % intSum 0 g.weight avail) avail)
  | .consistentHash lb =>
    SumsFit 1 g.weight avail ∧ IsInt (intSum 1 g.weight avail * lb.vnodesPerUnit) ∧
      ∀ p ∈ avail, IsInt (max (g.weight p) 1 * lb.vnodesPerUnit)
  | _ => True

/-- weights that are small enough for a strategy -/
def Limits [DecidableEq P] (lb : LoadBalancer P) (peers : List P) (config : P → PeerConfig) : Prop :=
  match lb with
  | .smoothWeightedRoundRobin _ => Balancing.SmallWeights peers config
  | .weightedRandom => (peers.map fun p => max (config p).weight 0).sum ≤ kIntMax
  | .consistentHash lb => (peers.map fun p => max (config p).weight 1).sum * lb.vnodesPerUnit ≤ kIntMax
  | _ => True

theorem sum_max_nonneg {least : ℤ} (hleast : 0 ≤ least) (weight : P → ℤ) (l : List P) :
    ∀ x ∈ l.map fun p => max (weight p) least, 0 ≤ x := by
  intro x hx
  obtain ⟨p, -, rfl⟩ := mem_map.1 hx
  exact hleast.trans (le_max_right _ _)

theorem sumsFit_of_le {least : ℤ} {weight : P → ℤ} {l : List P} (hleast : 0 ≤ least)
    (hfits : (l.map fun p => max (weight p) least).sum ≤ kIntMax) : SumsFit least weight l := by
  rintro l₁ p l₂ rfl
  rw [map_append, sum_append, map_cons, sum_cons] at hfits
  have h₁ := sum_nonneg (sum_max_nonneg hleast weight l₁)
  have h₂ := sum_nonneg (sum_max_nonneg hleast weight l₂)
  have hp : 0 ≤ max (weight p) least := hleast.trans (le_max_right _ _)
  rw [intSum_eq hleast (by linarith)]
  exact ⟨by unfold kIntMin; linarith, by linarith⟩

theorem walkFits_of_le {weight : P → ℤ} {l : List P} {r : ℤ} (hpos : 0 ≤ r) (hle : r ≤ kIntMax)
    (hweights : ∀ p ∈ l, max (weight p) 0 ≤ kIntMax) : WalkFits weight r l := by
  induction l generalizing r with
  | nil => exact trivial
  | cons p rest ih =>
    obtain ⟨hp, hrest⟩ := forall_mem_cons.1 hweights
    have hfits : IsInt (r - max (weight p) 0) := by
      unfold kIntMax at hp hle
      exact ⟨by unfold kIntMin; omega, by unfold kIntMax; omega⟩
    rw [WalkFits, int32_of_fits hfits.1 hfits.2]
    exact ⟨hfits, fun hmore => ih hmore.le hfits.2 hrest⟩

namespace Balancing

variable [DecidableEq P] {h : Hashing P} {peers : List P} {config : P → PeerConfig} {s : Balancing P}

theorem Reached.sum_available_le (hs : Reached h peers config s) {least : ℤ} (hleast : 0 ≤ least) (nowMs : ℕ) :
    ((s.group.available nowMs).map fun p => max (s.group.weight p) least).sum ≤
      (peers.map fun p => max (config p).weight least).sum := by
  have hsub := (s.group.available_sublist nowMs).map fun p => max (s.group.weight p) least
  rw [hs.peers_eq] at hsub
  have hle := hsub.sum_le_sum (sum_max_nonneg hleast s.group.weight peers)
  rwa [show s.group.weight = fun p => (config p).weight from hs.config_eq ▸ rfl] at hle ⊢

/-- **One call.** -/
theorem Reached.inRange (hs : Reached h peers config s) (hnodup : peers.Nodup) (hlimits : Limits s.lb peers config)
    (nowMs : ℕ) (draws : Draws) : InRange s.lb s.group nowMs draws := by
  have hremembers := hs.remembers
  have hsmall := hs.small hnodup
  have hsum := fun least (hleast : 0 ≤ least) => hs.sum_available_le hleast nowMs
  have hpeers := hs.peers_eq
  obtain ⟨g, lb⟩ := s
  have hone : ∀ {least : ℤ}, 0 ≤ least → ∀ p ∈ g.available nowMs,
      max (g.weight p) least ≤ ((g.available nowMs).map fun p => max (g.weight p) least).sum := fun hleast p hp =>
    single_le_sum (sum_max_nonneg hleast _ _) _ (mem_map_of_mem hp)
  cases lb with
  | smoothWeightedRoundRobin lb =>
    have hsmall := hsmall hlimits
    have hx := hremembers hlimits
    rw [← hpeers] at hsmall hx
    have hbounds := fun p (hp : p ∈ g.available nowMs) => hsmall.bounds hx hp
    have hcredit : ∀ p ∈ g.available nowMs, credit g nowMs p = max (g.effectiveWeight p) 0 :=
      fun p hp => if_pos hp
    have hnodup := (g.available_sublist nowMs).nodup hsmall.nodup
    have hscanned : ∀ l ⊆ g.available nowMs, l.Nodup → SmoothWeightedRoundRobinLB.Scanned g lb.currentWeights l
        (List.foldl (visit g) { currentWeights := lb.currentWeights } l) := by
      intro l hl hnodup
      refine scanned_foldl hnodup fun p hp => ?_
      rw [← hcredit p (hl hp)]
      exact ⟨(hbounds p (hl hp)).1, (hbounds p (hl hp)).2.1⟩
    refine ⟨sumsFit_of_le le_rfl ?_, fun _ => ⟨fun l₁ p l₂ hl => ?_, fun best hbest => ?_⟩⟩
    · rw [hsmall.sum_available]
      exact hsmall.sum_fits nowMs
    · rw [hl] at hnodup
      have hp : p ∈ g.available nowMs := hl ▸ mem_append_right l₁ mem_cons_self
      have hscan := hscanned l₁ (hl ▸ subset_append_left l₁ (p :: l₂)) (nodup_append.1 hnodup).1
      have hnew : p ∉ l₁ := fun hmem => (nodup_append.1 hnodup).2.2 p hmem p mem_cons_self rfl
      rw [hscan.weights, if_neg hnew, ← hcredit p hp]
      exact ⟨(hbounds p hp).1.le, (hbounds p hp).2.1⟩
    · have hscan := hscanned _ (List.Subset.refl _) hnodup
      obtain ⟨-, hnone, -⟩ | ⟨m, hm, hsome, -, -⟩ := hscan.best
      · rw [hnone] at hbest
        cases hbest
      · rw [hsome, Option.some.injEq] at hbest
        subst hbest
        have htotal := Finset.sum_nonneg fun p (_ : p ∈ g.peers.toFinset) =>
          credit_nonneg g nowMs p
        obtain ⟨-, hle, hcharged⟩ := hbounds m hm
        rw [hscan.weights, if_pos hm, ← hcredit m hm, hsmall.total_eq]
        exact ⟨hcharged, by linarith⟩
  | weightedRandom =>
    have hle := (hsum 0 le_rfl).trans hlimits
    refine ⟨sumsFit_of_le le_rfl hle, fun hpos => walkFits_of_le ?_ ?_ fun p hp => (hone le_rfl p hp).trans hle⟩
    · have hmod := Int.emod_nonneg draws.first hpos.ne'
      omega
    · have hmod := Int.emod_lt_of_pos draws.first hpos
      rw [intSum_eq le_rfl hle] at hmod ⊢
      omega
  | consistentHash lb =>
    have hunit := hremembers.1
    have hle := (mul_le_mul_of_nonneg_right (hsum 1 zero_le_one) hunit.le).trans hlimits
    have hnonneg := sum_nonneg (sum_max_nonneg zero_le_one g.weight (g.available nowMs))
    have hfits : ((g.available nowMs).map fun p => max (g.weight p) 1).sum ≤ kIntMax := by nlinarith
    refine ⟨sumsFit_of_le zero_le_one hfits, ?_, fun p hp => ?_⟩
    · rw [intSum_eq zero_le_one hfits]
      exact ⟨by unfold kIntMin; nlinarith, hle⟩
    · have hp1 : (1 : ℤ) ≤ max (g.weight p) 1 := le_max_right _ _
      have hple := hone zero_le_one p hp
      exact ⟨by unfold kIntMin; nlinarith, by nlinarith⟩
  | _ => exact trivial

end Balancing

/-- **The arithmetic stays in range** if the weights keep to the limits of the strategy. -/
theorem weights_in_range (config : GatewayConfig) (haccepted : config.Accepted) (upstream : GatewayUpstreamConfig)
    (hupstream : upstream ∈ config.upstreams) (h : Hashing (Fin upstream.peers.length))
    (lb : LoadBalancer (Fin upstream.peers.length)) (hlb : Constructed lb)
    (events : List (BalancingEvent (Fin upstream.peers.length))) (nowMs : ℕ) (draws : Draws) :
    let s := Balancing.after h ⟨upstream.group, lb⟩ events
    Limits s.lb upstream.group.peers upstream.group.config → InRange s.lb s.group nowMs draws := by
  intro s hlimits
  have hreached := Balancing.reached_after (Balancing.reached_group haccepted hupstream h hlb) (nodup_finRange _) events
  exact hreached.inRange (nodup_finRange _) hlimits nowMs draws

theorem weights_in_range_plainPair :
    (oneUpstream plainPair).Accepted ∧
      let s := Balancing.after (lengthHashing (Fin 2))
        ⟨(GatewayUpstreamConfig.mk (str "api") false 1024 5000 plainPair).group,
          .smoothWeightedRoundRobin {}⟩ [.select 0 {} {}]
      InRange s.lb s.group 1 {} :=
  ⟨accepted_plainPair, weights_in_range (oneUpstream plainPair) accepted_plainPair _ (mem_singleton_self _) _ _
    .smoothWeightedRoundRobin _ 1 {} (by change _ ≤ kIntMax; decide)⟩

def heaviestPair : List PeerConfig :=
    [{ namedPeer "a" with weight := kIntMax }, { namedPeer "b" with weight := kIntMax }]

def heaviestGroup : PeerGroup (Fin 2) := (GatewayUpstreamConfig.mk (str "api") false 1024 5000 heaviestPair).group

/-- **The arithmetic overflows**, in the first call of each of the three strategies. -/
theorem weights_out_of_range :
    (oneUpstream heaviestPair).Accepted ∧ ¬ InRange (.smoothWeightedRoundRobin {}) heaviestGroup 0 {} ∧
      ¬ InRange .weightedRandom heaviestGroup 0 {} ∧
      ¬ InRange (.consistentHash (.make 150 (str "client_ip"))) heaviestGroup 0 {} := by
  have hbig : ∀ least (weight : Fin 2 → ℤ), intSum least weight [0] + max (weight 1) least = 2 * kIntMax →
      ¬ SumsFit least weight (heaviestGroup.available 0) := by
    intro least weight hsum hfits
    have hle := (hfits [0] 1 [] (by decide)).2
    rw [hsum] at hle
    exact absurd hle (by decide)
  exact ⟨by decide, fun h => hbig 0 heaviestGroup.effectiveWeight (by decide) h.1,
    fun h => hbig 0 heaviestGroup.weight (by decide) h.1, fun h => hbig 1 heaviestGroup.weight (by decide) h.1⟩

end Coropact.Gateway
