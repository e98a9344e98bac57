/-
What consistent hashing answers when peers come and go (`ConsistentHashLB::BuildRing` and `Lookup` in
`include/coropact/gateway/load_balancer.h`).

A ring answers with the peer of the virtual node that comes first on the way round from the hash of the key (`Before`).
If no two peers share a hash, that node stays the first when others are taken away, in whatever order the ring was
built.
-/
import Coropact.Gateway.CachedTables

namespace Coropact.Gateway.ConsistentHashLB

open Coropact.Http List

variable {P : Type*}

/-- on the way round the ring from `hash` on, `a` comes no later than `b` -/
def Before (hash a b : ℕ) : Prop := hash ≤ a ∧ (b < hash ∨ a ≤ b) ∨ a < hash ∧ b < hash ∧ a ≤ b

theorem Before.antisymm {hash a b : ℕ} (h : Before hash a b) (h' : Before hash b a) : a = b := by
  unfold Before at h h'
  omega

theorem lookup_first {ring : HashRing P} (hsorted : ring.nodes.Pairwise fun a b => a.1 ≤ b.1) {hash : ℕ} {p : P}
    (hp : lookup ring hash = some p) : ∃ node ∈ ring.nodes, node.2 = p ∧ ∀ n ∈ ring.nodes, Before hash node.1 n.1 := by
  unfold lookup at hp
  split at hp
  · rename_i node hfind
    obtain ⟨hnode, l₁, l₂, hnodes, hbefore⟩ := List.find?_eq_some_iff_append.1 hfind
    have hnode : hash ≤ node.1 := of_decide_eq_true hnode
    rw [hnodes] at hsorted ⊢
    refine ⟨node, mem_append_right l₁ mem_cons_self, Option.some.inj hp, fun n hn => .inl ⟨hnode, ?_⟩⟩
    rcases mem_append.1 hn with hn | hn
    · have hless := hbefore n hn
      simp only [Bool.not_eq_eq_eq_not, Bool.not_true, decide_eq_false_iff_not, not_le] at hless
      exact .inl hless
    · rcases mem_cons.1 hn with rfl | hn
      · exact .inr le_rfl
      · exact .inr ((pairwise_cons.1 (pairwise_append.1 hsorted).2.1).1 n hn)
  · -- every node is before the hash, and the first of all is taken
    rename_i hfind
    obtain ⟨node, hhead, rfl⟩ := Option.map_eq_some_iff.1 hp
    have hless : ∀ n ∈ ring.nodes, n.1 < hash := by
      intro n hn
      simpa using List.find?_eq_none.1 hfind n hn
    obtain ⟨rest, hnodes⟩ := List.head?_eq_some_iff.1 hhead
    rw [hnodes] at hsorted hless ⊢
    refine ⟨node, mem_cons_self, rfl, fun n hn => .inr ⟨hless node mem_cons_self, hless n hn, ?_⟩⟩
    rcases mem_cons.1 hn with rfl | hn
    · exact le_rfl
    · exact (pairwise_cons.1 hsorted).1 n hn

theorem exists_mem_destutter' (l : List (ℕ × P)) (a : ℕ × P) :
    ∀ b ∈ a :: l, ∃ c ∈ l.destutter' (fun a b => a.1 ≠ b.1) a, c.1 = b.1 := by
  induction l generalizing a with
  | nil => exact fun b hb => ⟨b, hb, rfl⟩
  | cons x l ih =>
    intro b hb
    rw [List.destutter'_cons]
    split_ifs with hax
    · rcases mem_cons.1 hb with rfl | hb
      · exact ⟨b, mem_cons_self, rfl⟩
      · obtain ⟨c, hc, heq⟩ := ih x b hb
        exact ⟨c, mem_cons_of_mem a hc, heq⟩
    · rw [not_ne_iff] at hax
      rcases mem_cons.1 hb with rfl | hb
      · exact ih b b mem_cons_self
      · rcases mem_cons.1 hb with rfl | hb
        · obtain ⟨c, hc, heq⟩ := ih a a mem_cons_self
          exact ⟨c, hc, heq.trans hax⟩
        · exact ih a b (mem_cons_of_mem a hb)

variable {h : Hashing P} {unit : ℤ} {config : P → PeerConfig} {avail avail' : List P} {ring ring' : HashRing P}

theorem buildRing_nodes (hring : buildRing h unit config avail = .ok ring) :
    (ring.nodes.Pairwise fun a b => a.1 ≤ b.1) ∧ ring.nodes ⊆ avail.flatMap (vnodes h unit config) ∧
      ∀ node ∈ avail.flatMap (vnodes h unit config), ∃ n ∈ ring.nodes, n.1 = node.1 := by
  unfold buildRing at hring
  dsimp only at hring
  split_ifs at hring
  rw [← Except.ok.inj hring]
  have hsub := destutter_sublist (fun a b : ℕ × P => a.1 ≠ b.1) (h.sort (avail.flatMap (vnodes h unit config)))
  refine ⟨(h.sort_sorted _).sublist hsub, fun node hnode => (h.sort_perm _).mem_iff.1 (hsub.subset hnode),
    fun node hnode => ?_⟩
  have hmem := (h.sort_perm _).mem_iff.2 hnode
  cases hsort : h.sort (avail.flatMap (vnodes h unit config)) with
  | nil =>
    rw [hsort] at hmem
    cases hmem
  | cons a l =>
    rw [hsort] at hmem
    exact exists_mem_destutter' l a node hmem

theorem vnodes_peer {p : P} {node : ℕ × P} (hnode : node ∈ vnodes h unit config p) : node.2 = p := by
  obtain ⟨i, -, rfl⟩ := mem_map.1 hnode
  rfl

def Apart (h : Hashing P) (unit : ℤ) (config : P → PeerConfig) (avail : List P) : Prop :=
  ∀ a ∈ avail.flatMap (vnodes h unit config), ∀ b ∈ avail.flatMap (vnodes h unit config), a.1 = b.1 → a.2 = b.2

/-- **Two rings.** The peer that answers for all of them answers for every part of them it belongs to. -/
theorem ring_stable (hapart : Apart h unit config avail) (hsub : avail' ⊆ avail)
    (hring : buildRing h unit config avail = .ok ring) (hring' : buildRing h unit config avail' = .ok ring')
    {hash : ℕ} {p : P} (hp : lookup ring hash = some p) (hp' : p ∈ avail') : lookup ring' hash = some p := by
  obtain ⟨hsorted, hnodes, hkept⟩ := buildRing_nodes hring
  obtain ⟨hsorted', hnodes', hkept'⟩ := buildRing_nodes hring'
  have hpart : avail'.flatMap (vnodes h unit config) ⊆ avail.flatMap (vnodes h unit config) := by
    intro node hnode
    obtain ⟨q, hq, hmem⟩ := mem_flatMap.1 hnode
    exact mem_flatMap.2 ⟨q, hsub hq, hmem⟩
  obtain ⟨node, hnode, rfl, hfirst⟩ := lookup_first hsorted hp
  -- the first node of the larger ring is in the smaller one
  have hmem : node ∈ avail'.flatMap (vnodes h unit config) := by
    obtain ⟨q, hq, hvnode⟩ := mem_flatMap.1 (hnodes hnode)
    exact mem_flatMap.2 ⟨node.2, hp', vnodes_peer hvnode ▸ hvnode⟩
  obtain ⟨n, hn, hsame⟩ := hkept' node hmem
  obtain ⟨q, hq⟩ := lookup_isSome (ne_nil_of_mem hn) hash
  obtain ⟨node', hnode', rfl, hfirst'⟩ := lookup_first hsorted' hq
  obtain ⟨n', hn', hsame'⟩ := hkept node' (hpart (hnodes' hnode'))
  have heq : node'.1 = node.1 := (hsame ▸ hfirst' n hn).antisymm (hsame' ▸ hfirst n' hn')
  rw [hq, hapart node' (hpart (hnodes' hnode')) node (hnodes hnode) heq]

/-- the cached ring, if it has the fingerprint of these peers, is theirs -/
def NotStale (h : Hashing P) (unit : ℤ) (config : P → PeerConfig) (avail : List P) (cached : Option (HashRing P)) :
    Prop :=
  ∀ ring, cached = some ring → ring.fingerprint = computeFingerprint config avail →
    buildRing h unit config avail = .ok ring

theorem select_eq {hashOn : HashOn} {cached : Option (HashRing P)} {g : PeerGroup P} {nowMs : ℕ}
    (hcached : NotStale h unit g.config (g.available nowMs) cached) (ctx : RequestContext) :
    (select ⟨unit, hashOn, cached⟩ h g nowMs ctx).1 =
      (buildRing h unit g.config (g.available nowMs)).map fun ring => lookup ring
        (h.murmurHash64 (hashKey hashOn ctx) 0) := by
  refine selectThrough_eq (fun hfp => ?_) hcached
  rw [computeFingerprint_eq_nil.1 hfp]
  exact buildRing_nil _

/-- **Minimal disruption.** If the virtual nodes of all peers fit an `int`, a call over a part of them that still has
the peer of the first call answers with it, and a call over the same peers in another order answers the same. -/
theorem consistent_hash_stable (hunit : 0 < unit) (hashOn : HashOn) {g g' : PeerGroup P}
    (hconfig : g'.config = g.config)
    {nowMs nowMs' : ℕ} (hnodup' : (g'.available nowMs').Nodup) (hsub : g'.available nowMs' ⊆ g.available nowMs)
    (hapart : Apart h unit g.config (g.available nowMs))
    (hfits : ((g.available nowMs).map fun p => max (g.config p).weight 1).sum * unit ≤ kIntMax)
    {cached cached' : Option (HashRing P)} (hcached : NotStale h unit g.config (g.available nowMs) cached)
    (hcached' : NotStale h unit g.config (g'.available nowMs') cached') (ctx : RequestContext) :
    (∀ p ∈ g'.available nowMs', (select ⟨unit, hashOn, cached⟩ h g nowMs ctx).1 = .ok (some p) →
      (select ⟨unit, hashOn, cached'⟩ h g' nowMs' ctx).1 = .ok (some p)) ∧
      ((g'.available nowMs').Perm (g.available nowMs) →
        (select ⟨unit, hashOn, cached'⟩ h g' nowMs' ctx).1 = (select ⟨unit, hashOn, cached⟩ h g nowMs ctx).1) := by
  rw [← hconfig] at hcached'
  rw [select_eq hcached, select_eq hcached', hconfig]
  generalize g.available nowMs = avail at *
  generalize g'.available nowMs' = avail' at *
  generalize h.murmurHash64 (hashKey hashOn ctx) 0 = hash
  have hfits' : (avail'.map fun p => max (g.config p).weight 1).sum * unit ≤ kIntMax := by
    obtain ⟨l, hperm, hl⟩ := hnodup'.subperm hsub
    have hle : (l.map fun p => max (g.config p).weight 1).sum ≤ (avail.map fun p => max (g.config p).weight 1).sum := by
      refine (hl.map _).sum_le_sum fun x hx => ?_
      obtain ⟨p, -, rfl⟩ := mem_map.1 hx
      exact zero_le_one.trans (le_max_right _ _)
    rw [← (hperm.map _).sum_eq]
    exact (mul_le_mul_of_nonneg_right hle hunit.le).trans hfits
  have hstable : ∀ p ∈ avail', ∀ ring, buildRing h unit g.config avail = .ok ring → lookup ring hash = some p →
      (buildRing h unit g.config avail').map (fun ring => lookup ring hash) = .ok (some p) := by
    intro p hp ring hring hlookup
    obtain ⟨ring', hring', -⟩ := buildRing_ok (h := h) (ne_nil_of_mem hp) hunit hfits'
    rw [hring', Except.map, ring_stable hapart hsub hring hring' hlookup hp]
  refine ⟨fun p hp hcall => ?_, fun hperm => ?_⟩
  · obtain ⟨ring, hring, -⟩ := buildRing_ok (h := h) (ne_nil_of_mem (hsub hp)) hunit hfits
    rw [hring, Except.map, Except.ok.injEq] at hcall
    exact hstable p hp ring hring hcall
  · rcases eq_or_ne avail [] with rfl | hne
    · rw [hperm.eq_nil]
    · obtain ⟨ring, hring, hanswers⟩ := buildRing_answers h hne hunit hfits
      obtain ⟨p, hp, hlookup⟩ := hanswers hash
      rw [hstable p (hperm.mem_iff.2 hp) ring hring hlookup, hring, Except.map, hlookup]

/-- two peers with names of different lengths; the second is up or down -/
def twoNames (down : Bool) : PeerGroup (Fin 2) where
  peers := [0, 1]
  config p := if p = 0 then namedPeer "a" else namedPeer "bb"
  state p := { down := down && p == 1, effectiveWeight := 1 }

theorem consistent_hash_stable_twoNames : (twoNames true).available 0 = [0] ∧
    ((select ⟨1, .clientIp, none⟩ (lengthHashing (Fin 2)) (twoNames false) 0 {}).1 = .ok (some 0) →
      (select ⟨1, .clientIp, none⟩ (lengthHashing (Fin 2)) (twoNames true) 0 {}).1 = .ok (some 0)) := by
  have hapart : Apart (lengthHashing (Fin 2)) 1 (twoNames false).config ((twoNames false).available 0) := by
    unfold Apart
    decide
  have hsub : (twoNames true).available 0 ⊆ (twoNames false).available 0 := by decide
  have hnone : ∀ avail, NotStale (lengthHashing (Fin 2)) 1 (twoNames false).config avail none :=
    fun avail ring hring => by cases hring
  have hstable := @consistent_hash_stable (Fin 2) (lengthHashing (Fin 2)) 1 one_pos .clientIp (twoNames false)
    (twoNames true) rfl
    0 0 (by decide) hsub hapart (by decide) none none (hnone _) (hnone _) {}
  exact ⟨by decide, hstable.1 0 (by decide)⟩

/-! ## Numbers that wrap -/

/-- peers of the weights 1, 14316558 and 14316558; the third is up or down -/
def heavyPeers (down : Bool) : PeerGroup (Fin 3) where
  peers := [0, 1, 2]
  config p := { namedPeer "a" with name := [97 + UInt8.ofNat p], weight := if p = 0 then 1 else 14316558 }
  state p := { down := down && p == 2, effectiveWeight := 1 }

/-- **A part of the peers that throws.** -/
theorem consistent_hash_unstable :
    (heavyPeers false).available 0 = [0, 1, 2] ∧ (heavyPeers true).available 0 = [0, 1] ∧
      ∀ (h : Hashing (Fin 3)) (ctx : RequestContext),
        (select (make 150 (str "client_ip")) h (heavyPeers false) 0 ctx).1 = .ok (some 0) ∧
        (select (make 150 (str "client_ip")) h (heavyPeers true) 0 ctx).1 = .error .lengthError := by
  have hall : (heavyPeers false).available 0 = [0, 1, 2] := by decide
  have hpart : (heavyPeers true).available 0 = [0, 1] := by decide
  have hmake : (make 150 (str "client_ip") : ConsistentHashLB (Fin 3)) = ⟨150, .clientIp, none⟩ := rfl
  refine ⟨hall, hpart, fun h ctx => ?_⟩
  have hnone : ∀ config avail, NotStale h 150 config avail none := fun config avail ring hring => by cases hring
  constructor
  · rw [hmake, select_eq (hnone _ _), hall]
    have hring : ∃ ring, buildRing h 150 (heavyPeers false).config [0, 1, 2] = .ok ring := by
      unfold buildRing
      rw [if_neg (by decide)]
      exact ⟨_, rfl⟩
    obtain ⟨ring, hring⟩ := hring
    obtain ⟨-, hnodes, hkept⟩ := buildRing_nodes hring
    -- the products of the heavy peers are negative
    have hvnodes : [0, 1, 2].flatMap (vnodes h 150 (heavyPeers false).config) = vnodes h 150
        (heavyPeers false).config 0 := by
      have hheavy : ∀ p : Fin 3, p ≠ 0 → vnodes h 150 (heavyPeers false).config p = [] := by
        intro p hp
        have hcount : (int32 (max ((heavyPeers false).config p).weight 1 * 150)).toNat = 0 := by
          revert p
          decide
        rw [vnodes, hcount]
        rfl
      simp [hheavy]
    rw [hvnodes] at hnodes hkept
    have hfirst : (h.murmurHash64 (((heavyPeers false).config 0).name ++ str "#" ++ toText 0) 0, (0 : Fin 3)) ∈
        vnodes h 150 (heavyPeers false).config 0 := mem_map.2 ⟨0, by decide, rfl⟩
    obtain ⟨n, hn, -⟩ := hkept _ hfirst
    obtain ⟨p, hp⟩ := lookup_isSome (ne_nil_of_mem hn) (h.murmurHash64 (hashKey .clientIp ctx) 0)
    obtain ⟨node, hnode, rfl⟩ := lookup_mem hp
    rw [hring, Except.map, hp, vnodes_peer (hnodes hnode)]
  · rw [hmake, select_eq (hnone _ _), hpart]
    have hring : buildRing h 150 (heavyPeers true).config [0, 1] = .error .lengthError := by
      unfold buildRing
      rw [if_pos (by decide)]
    rw [hring]
    rfl

end Coropact.Gateway.ConsistentHashLB
