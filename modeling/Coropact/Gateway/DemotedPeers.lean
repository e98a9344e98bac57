/-
Whether smooth weighted round robin skips a peer whose effective weight has gone down to 0
(`SmoothWeightedRoundRobinLB::Select` in `include/coropact/gateway/load_balancer.h`, `UpstreamPeer::OnFailure` in
`include/coropact/gateway/upstream_peer.h`).

Such a peer is credited nothing, but it keeps the running weight it had. If that is positive, it may still be the
largest.
-/
import Coropact.Gateway.CachedTables

namespace Coropact.Gateway

open Coropact.Http Coropact.Balance

variable {P : Type*} [DecidableEq P]

namespace Balancing

variable {h : Hashing P} {peers : List P} {config : P → PeerConfig} {s : Balancing P}

/-- no peer without effective weight has a running weight above 0 -/
structure Idle (h : Hashing P) (peers : List P) (config : P → PeerConfig) (s : Balancing P) : Prop where
  reached : Reached h peers config s
  smooth : ∃ lb, s.lb = .smoothWeightedRoundRobin lb ∧
    ∀ p ∈ peers, s.group.effectiveWeight p = 0 → lb.currentWeights p ≤ 0

/-- every peer is available in the calls, and a peer loses its last weight only when its running weight is not positive
-/
def Harmless (s : Balancing P) : BalancingEvent P → Prop
  | .select nowMs _ _ => s.group.available nowMs = s.group.peers
  | .failure p _ => s.group.effectiveWeight p = 1 →
    ∀ lb, s.lb = .smoothWeightedRoundRobin lb → lb.currentWeights p ≤ 0
  | _ => True

theorem effectiveWeight_modify (g : PeerGroup P) (p q : P) (f : UpstreamPeerState → UpstreamPeerState) :
    (g.modify p f).effectiveWeight q = if q = p then (f (g.state p)).effectiveWeight else g.effectiveWeight q := by
  simp only [PeerGroup.modify, PeerGroup.effectiveWeight, Function.update_apply]
  split_ifs <;> rfl

/-- **One call** with every peer available. -/
theorem Idle.select (hs : Idle h peers config s) (hnodup : peers.Nodup) (hsmall : SmallWeights peers config) {nowMs : ℕ}
    (hall : s.group.available nowMs = s.group.peers) (ctx : RequestContext) (draws : Draws) :
    (∀ m, (s.lb.select h s.group nowMs ctx draws).1 = .ok (some m) → 0 < s.group.effectiveWeight m) ∧
      Idle h peers config (perform h s (.select nowMs ctx draws)) := by
  have hreached := reached_perform hs.reached hnodup (.select nowMs ctx draws)
  have hnonneg : ∀ p ∈ peers, 0 ≤ s.group.effectiveWeight p := fun p hp => (hs.reached.inWeight p hp).1
  have hweights := hs.reached.small hnodup hsmall
  have hpeers := hs.reached.peers_eq
  have hbalanced := hs.reached.remembers
  obtain ⟨lb, hlb, hidle⟩ := hs.smooth
  rw [hlb] at hbalanced ⊢
  have hx : Balanced s.group.peers.toFinset (∑ p ∈ peers.toFinset, max (config p).weight 0) lb.currentWeights := by
    rw [hpeers]
    exact hbalanced hsmall
  suffices hcall : (∀ m, (lb.select s.group nowMs).1 = some m → 0 < s.group.effectiveWeight m) ∧
      ∀ p ∈ peers, s.group.effectiveWeight p = 0 → (lb.select s.group nowMs).2.currentWeights p ≤ 0 by
    refine ⟨fun m hm => hcall.1 m (Except.ok.inj hm), hreached, (lb.select s.group nowMs).2, ?_, hcall.2⟩
    change (s.lb.select h s.group nowMs ctx draws).2 = _
    rw [hlb]
    rfl
  rcases lt_or_ge 0 (∑ p ∈ s.group.peers.toFinset, SmoothWeightedRoundRobinLB.credit s.group nowMs p) with hpos | hzero
  · obtain ⟨m, hm, heq, hmost⟩ := SmoothWeightedRoundRobinLB.select_eq hweights hx hpos
    rw [hall] at hm hmost
    have hlargest := largest_pos hx.sum_eq hpos fun p hp => hmost p (List.mem_toFinset.1 hp)
    have hm0 : s.group.effectiveWeight m ≠ 0 := by
      intro hm0
      have hrunning := hidle m (hpeers ▸ hm) hm0
      rw [SmoothWeightedRoundRobinLB.credit, hall, hm0, max_self] at hlargest
      omega
    rw [heq]
    refine ⟨fun m' hm' => ?_, fun p hp hp0 => ?_⟩
    · rw [← Option.some.inj hm']
      exact lt_of_le_of_ne (hnonneg m (hpeers ▸ hm)) hm0.symm
    · have hne : p ≠ m := by
        rintro rfl
        exact hm0 hp0
      change turn _ _ _ _ _ ≤ 0
      rw [turn, if_neg hne, SmoothWeightedRoundRobinLB.credit, hall, hp0, max_self]
      have hrunning := hidle p hp hp0
      omega
  · have heq : lb.select s.group nowMs = (none, lb) := by
      unfold SmoothWeightedRoundRobinLB.select
      dsimp only
      rw [hweights.total_eq, if_pos hzero]
    rw [heq]
    exact ⟨fun m hm => absurd hm (Option.some_ne_none m).symm, hidle⟩

theorem Idle.modify (hs : Idle h peers config s) {p : P} {f : UpstreamPeerState → UpstreamPeerState}
    (hreached : Reached h peers config { s with group := s.group.modify p f })
    (hzero : p ∈ peers → (f (s.group.state p)).effectiveWeight = 0 →
      s.group.effectiveWeight p = 0 ∨ ∀ lb, s.lb = .smoothWeightedRoundRobin lb → lb.currentWeights p ≤ 0) :
    Idle h peers config { s with group := s.group.modify p f } := by
  obtain ⟨lb, hlb, hidle⟩ := hs.smooth
  refine ⟨hreached, lb, hlb, fun q hq hq0 => ?_⟩
  rw [effectiveWeight_modify] at hq0
  split_ifs at hq0 with hqp
  · subst hqp
    rcases hzero hq hq0 with hold | hrunning
    · exact hidle q hq hold
    · exact hrunning lb hlb
  · exact hidle q hq hq0

theorem idle_perform (hs : Idle h peers config s) (hnodup : peers.Nodup) (hsmall : SmallWeights peers config)
    (e : BalancingEvent P) (he : Harmless s e) : Idle h peers config (perform h s e) := by
  have hreached := reached_perform hs.reached hnodup e
  cases e with
  | failure p nowMs =>
    refine hs.modify hreached fun hp hzero => ?_
    unfold UpstreamPeerState.onFailure at hzero
    dsimp only at hzero
    split_ifs at hzero
    · exact .inr (he (by unfold PeerGroup.effectiveWeight; omega))
    · exact .inl hzero
  | success p =>
    refine hs.modify hreached fun hp hzero => ?_
    have hnonneg := (hs.reached.inWeight p hp).1
    unfold UpstreamPeerState.onSuccess at hzero
    dsimp only at hzero
    split_ifs at hzero
    · omega
    · exact .inl hzero
  | select nowMs ctx draws => exact (hs.select hnodup hsmall he ctx draws).2
  | _ => exact hs.modify hreached fun _ hzero => .inl hzero

theorem after_snoc (h : Hashing P) (s : Balancing P) (l : List (BalancingEvent P)) (e : BalancingEvent P) :
    s.after h (l ++ [e]) = perform h (s.after h l) e := by
  simp [after, List.foldl_append]

end Balancing

/-- **Demoted peers are skipped** as long as every event is harmless. -/
theorem demoted_peers_skipped (h : Hashing P) (g : PeerGroup P) (hnodup : g.peers.Nodup)
    (hweights : ∀ p ∈ g.peers, (g.state p).InWeight (g.config p)) (hsmall : Balancing.SmallWeights g.peers g.config)
    (events : List (BalancingEvent P))
    (hharmless : ∀ l e r, events = l ++ e :: r →
    Balancing.Harmless (Balancing.after h ⟨g, .smoothWeightedRoundRobin {}⟩ l) e) :
    ∀ l nowMs ctx draws r p, events = l ++ .select nowMs ctx draws :: r →
      let s := Balancing.after h ⟨g, .smoothWeightedRoundRobin {}⟩ l
      (s.lb.select h s.group nowMs ctx draws).1 = .ok (some p) → 0 < s.group.effectiveWeight p := by
  have hidle : ∀ l r, events = l ++ r →
      Balancing.Idle h g.peers g.config (Balancing.after h ⟨g, .smoothWeightedRoundRobin {}⟩ l) := by
    intro l
    induction l using List.reverseRecOn with
    | nil =>
      intro r _
      exact ⟨⟨rfl, rfl, hweights, Balancing.remembers_constructed .smoothWeightedRoundRobin⟩, {}, rfl,
        fun p _ _ => le_rfl⟩
    | append_singleton l e ih =>
      intro r hr
      rw [List.append_assoc] at hr
      rw [Balancing.after_snoc]
      exact Balancing.idle_perform (ih _ hr) hnodup hsmall e (hharmless l e r hr)
  intro l nowMs ctx draws r p hevents s hp
  exact ((hidle l _ hevents).select hnodup hsmall (hharmless _ _ _ hevents) ctx draws).1 p hp

def oneTwo : PeerGroup (Fin 2) :=
  (GatewayUpstreamConfig.mk (str "api") false 1024 5000 [namedPeer "a", { namedPeer "b" with weight := 2 }]).group

theorem demoted_peers_skipped_oneTwo :
    let s := Balancing.after (lengthHashing (Fin 2)) ⟨oneTwo, .smoothWeightedRoundRobin {}⟩
      [.select 0 {} {}, .failure 1 0, .failure 1 0]
    s.group.effectiveWeight 1 = 0 ∧ (s.lb.select (lengthHashing (Fin 2)) s.group 1 {} {}).1 = .ok (some 0) ∧
      0 < s.group.effectiveWeight 0 := by
  refine ⟨by decide, by decide, demoted_peers_skipped (lengthHashing (Fin 2)) oneTwo (by decide)
    (by unfold UpstreamPeerState.InWeight; decide) (by unfold Balancing.SmallWeights; decide)
    [.select 0 {} {}, .failure 1 0, .failure 1 0, .select 1 {} {}] (fun l e r heq => ?_) _ 1 {} {} [] 0 rfl (by decide)⟩
  rcases l with _ | ⟨e₀, _ | ⟨e₁, _ | ⟨e₂, _ | ⟨e₃, l⟩⟩⟩⟩
  · cases heq
    rfl
  · cases heq
    intro hone
    cases hone
  · cases heq
    intro _ lb hlb
    cases hlb
    decide
  · cases heq
    rfl
  · cases l <;> cases heq

/-- **A demoted peer is chosen.** Its running weight from the first call is still there. -/
theorem demoted_peer_selected :
    let s := Balancing.after (lengthHashing (Fin 2)) ⟨oneTwo, .smoothWeightedRoundRobin {}⟩ [.select 0 {} {},
      .failure 0 0]
    s.group.effectiveWeight 0 = 0 ∧ (s.lb.select (lengthHashing (Fin 2)) s.group 1 {} {}).1 = .ok (some 0) := by
  decide

end Coropact.Gateway
