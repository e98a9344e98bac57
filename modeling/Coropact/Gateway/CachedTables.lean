/-
Whether the cached table of a hash strategy is ever stale.

`ConsistentHashLB` and `MaglevHashLB` rebuild their table when the fingerprint of the available peers changes.
`LoadBalancer.fresh` is what a table built anew from the peers available now would answer.
-/
import Coropact.Gateway.GatewayConfig

namespace Coropact.Gateway

open Coropact.Http List

variable {P : Type*}

/-- the answer of a ring built from the peers available now -/
def ConsistentHashLB.fresh (lb : ConsistentHashLB P) (h : Hashing P) (g : PeerGroup P) (nowMs : ℕ)
    (ctx : RequestContext) :
    Except SelectFailure (Option P) :=
  (buildRing h lb.vnodesPerUnit g.config (g.available nowMs)).map fun ring =>
    lookup ring (h.murmurHash64 (hashKey lb.hashOn ctx) 0)

open ConsistentHashLB

/-- the answer of a table built from the peers available now -/
def MaglevHashLB.fresh (lb : MaglevHashLB P) (h : Hashing P) (g : PeerGroup P) (nowMs : ℕ) (ctx : RequestContext) :
    Except SelectFailure (Option P) :=
  (buildTable h lb.tableSize g.config (g.available nowMs)).map fun table =>
    lookup table (h.murmurHash64 (hashKey lb.hashOn ctx) 0)

open MaglevHashLB

namespace LoadBalancer

def hashes : LoadBalancer P → Bool
  | .consistentHash _ => true
  | .maglevHash _ => true
  | _ => false

def fresh (lb : LoadBalancer P) (h : Hashing P) (g : PeerGroup P) (nowMs : ℕ) (ctx : RequestContext) :
    Option (Except SelectFailure (Option P)) :=
  match lb with
  | .consistentHash lb => some (lb.fresh h g nowMs ctx)
  | .maglevHash lb => some (lb.fresh h g nowMs ctx)
  | _ => none

end LoadBalancer

variable [DecidableEq P]

namespace Balancing

variable {h : Hashing P} {peers : List P} {config : P → PeerConfig} {s : Balancing P}

theorem hashes_perform (e : BalancingEvent P) : (perform h s e).lb.hashes = s.lb.hashes := by
  cases e with
  | select nowMs ctx draws =>
    obtain ⟨g, lb⟩ := s
    cases lb <;> rfl
  | _ => rfl

theorem hashes_after (events : List (BalancingEvent P)) : (s.after h events).lb.hashes = s.lb.hashes := by
  induction events generalizing s with
  | nil => rfl
  | cons e events ih => exact (ih (s := perform h s e)).trans (hashes_perform e)

/-- **One call.** The fingerprint says which peers the cached table was built from. -/
theorem Reached.select_fresh (hs : Reached h peers config s) (hnames : Legible config peers)
    (hhashes : s.lb.hashes = true) (nowMs : ℕ) (ctx : RequestContext) (draws : Draws) :
    s.lb.fresh h s.group nowMs ctx = some (s.lb.select h s.group nowMs ctx draws).1 := by
  have hremembers := hs.remembers
  have hsubset := hs.available_subset nowMs
  have hconfig := hs.config_eq
  obtain ⟨g, lb⟩ := s
  subst hconfig
  have hnil : computeFingerprint g.config (g.available nowMs) = [] → g.available nowMs = [] :=
    computeFingerprint_eq_nil.1
  cases lb with
  | consistentHash lb =>
    refine congrArg some (selectThrough_eq (fun hfp => ?_) fun ring hring hfp => ?_).symm
    · rw [hnil hfp]
      exact buildRing_nil _
    · obtain ⟨avail, havail, hbuilt⟩ := hremembers.2 ring hring
      rw [buildRing_fingerprint hbuilt] at hfp
      rwa [fingerprint_injOn hnames havail hsubset hfp] at hbuilt
  | maglevHash lb =>
    refine congrArg some (selectThrough_eq (fun hfp => ?_) fun table htable hfp => ?_).symm
    · rw [hnil hfp]
      exact buildTable_nil _
    · obtain ⟨avail, havail, hbuilt⟩ := hremembers.2 table htable
      rw [buildTable_fingerprint hbuilt] at hfp
      rwa [fingerprint_injOn hnames havail hsubset hfp] at hbuilt
  | _ => cases hhashes

end Balancing

theorem GatewayUpstreamConfig.legible {upstream : GatewayUpstreamConfig} (h : upstream.WellFormed)
    (hclear : ∀ peer ∈ upstream.peers, semicolon ∉ peer.name) : Legible upstream.group.config upstream.group.peers where
  inj _ _ _ _ heq := upstream.name_injective h heq
  clear p _ := hclear _ (get_mem upstream.peers p)

/-- **Cached tables are not stale**, if no name holds a semicolon. -/
theorem cached_tables_fresh (config : GatewayConfig) (haccepted : config.Accepted) (upstream : GatewayUpstreamConfig)
    (hupstream : upstream ∈ config.upstreams) (hclear : ∀ peer ∈ upstream.peers, semicolon ∉ peer.name)
    (h : Hashing (Fin upstream.peers.length)) (lb : LoadBalancer (Fin upstream.peers.length)) (hlb : Constructed lb)
    (hhashes : lb.hashes = true) (events : List (BalancingEvent (Fin upstream.peers.length))) (nowMs : ℕ)
    (ctx : RequestContext) (draws : Draws) :
    let s := Balancing.after h ⟨upstream.group, lb⟩ events
    s.lb.fresh h s.group nowMs ctx = some (s.lb.select h s.group nowMs ctx draws).1 := by
  have hwell := ((validateGatewayConfig_ok_iff config).1 haccepted.validated).upstreams upstream hupstream
  have hreached := Balancing.reached_after (Balancing.reached_group haccepted hupstream h hlb) (nodup_finRange _) events
  exact hreached.select_fresh (upstream.legible hwell hclear)
    (by rw [Balancing.hashes_after]; exact hhashes) nowMs ctx draws

/-! ## Fingerprints that collide -/

def namedPeer (name : String) : PeerConfig := { name := str name, host := str "127.0.0.1", port := 9001 }

def oneUpstream (peers : List PeerConfig) : GatewayConfig where
  upstreams := [{ name := str "api", peers := peers }]

def plainPair : List PeerConfig := [namedPeer "a", namedPeer "b"]

theorem accepted_plainPair : (oneUpstream plainPair).Accepted := by decide

def lengthHashing (P : Type*) : Hashing P where
  murmurHash3 := List.length
  murmurHash64 key seed := key.length + seed
  sort nodes := nodes.mergeSort fun a b => a.1 ≤ b.1
  sort_perm nodes := mergeSort_perm nodes _
  sort_sorted nodes := by
    have hsorted := @pairwise_mergeSort _ (fun a b : ℕ × P => decide (a.1 ≤ b.1))
      (fun a b c hab hbc => by simp only [decide_eq_true_eq] at *; omega)
      (fun a b => by simp only [Bool.or_eq_true, decide_eq_true_eq]; omega) nodes
    exact hsorted.imp fun hab => of_decide_eq_true hab

theorem cached_tables_fresh_plainPair :
    (oneUpstream plainPair).Accepted ∧ (∀ peer ∈ plainPair, semicolon ∉ peer.name) ∧
      let s := Balancing.after (lengthHashing (Fin 2))
        ⟨(GatewayUpstreamConfig.mk (str "api") false 1024 5000 plainPair).group,
          .consistentHash (.make 150 (str "client_ip"))⟩
        [.select 0 {} {}, .setDown 0 true]
      s.lb.fresh (lengthHashing (Fin 2)) s.group 1 {} = some (s.lb.select (lengthHashing (Fin 2)) s.group 1 {} {}).1 :=
  ⟨accepted_plainPair, by decide,
    cached_tables_fresh (oneUpstream plainPair) accepted_plainPair _ (mem_singleton_self _) (by decide) _ _
      (.consistentHash 150 (str "client_ip")) rfl _ 1 {} {}⟩

def collidingPeers : List PeerConfig := [namedPeer "a", namedPeer "b", namedPeer "a:1;b"]

def collidingGroup : PeerGroup (Fin 3) := (GatewayUpstreamConfig.mk (str "api") false 1024 5000 collidingPeers).group

/-- the third peer is down while the first call is made; then the others go down and it comes up -/
def failover : List (BalancingEvent (Fin 3)) :=
  [.setDown 2 true, .select 0 {} {}, .setDown 0 true, .setDown 1 true, .setDown 2 false]

def firstTwo : PeerGroup (Fin 3) := collidingGroup.modify 2 fun x => { x with down := true }

def thirdOnly : PeerGroup (Fin 3) :=
  ((firstTwo.modify 0 fun x => { x with down := true }).modify 1 fun x => { x with down := true }).modify 2
    fun x => { x with down := false }

theorem after_failover (h : Hashing (Fin 3)) (lb : LoadBalancer (Fin 3)) :
    Balancing.after h ⟨collidingGroup, lb⟩ failover = ⟨thirdOnly, (lb.select h firstTwo 0 {} {}).2⟩ := rfl

theorem available_thirdOnly : thirdOnly.available 1 = [2] := by decide

theorem fingerprint_collides :
    computeFingerprint collidingGroup.config [0, 1] = computeFingerprint collidingGroup.config [2] ∧
    computeFingerprint collidingGroup.config [2] ≠ [] := by decide

theorem stale_through {T : Type*} (fingerprint : T → Bytes) (build : List (Fin 3) → Except SelectFailure T)
    (lookup : T → Option (Fin 3))
    (hfingerprint : ∀ avail t, build avail = .ok t → fingerprint t = computeFingerprint collidingGroup.config avail)
    (hanswers : ∀ avail ∈ ([[0, 1], [2]] : List (List (Fin 3))), ∃ t, build avail = .ok t ∧ ∃ p ∈ avail,
    lookup t = some p) :
    (build [2]).map lookup = .ok (some 2) ∧
      ∃ p, p ≠ 2 ∧ (selectThrough fingerprint (build [2]) lookup (computeFingerprint collidingGroup.config [2])
        (selectThrough fingerprint (build [0, 1]) lookup (computeFingerprint collidingGroup.config [0, 1]) none).2).1 =
          .ok (some p) := by
  obtain ⟨hsame, hfp⟩ := fingerprint_collides
  obtain ⟨t, ht, p, hp, hold⟩ := hanswers [0, 1] (by decide)
  obtain ⟨t', ht', q, hq, hnew⟩ := hanswers [2] (by decide)
  have hne : ∀ p ∈ ([0, 1] : List (Fin 3)), p ≠ 2 := by decide
  refine ⟨?_, p, hne p hp, ?_⟩
  · rw [ht', Except.map, hnew, mem_singleton.1 hq]
  · rw [hsame, selectThrough_twice hfp ht ((hfingerprint _ _ ht).trans hsame), hold]

/-- **A stale table.** The configuration is accepted, only the third peer is available and a table built anew would
answer with it, but the call answers with another one. -/
theorem cached_table_stale : (oneUpstream collidingPeers).Accepted ∧
    ∀ (h : Hashing (Fin 3)) (lb : LoadBalancer (Fin 3)), Constructed lb → lb.hashes = true →
      let s := Balancing.after h ⟨collidingGroup, lb⟩ failover
      s.group.available 1 = [2] ∧ s.lb.fresh h s.group 1 {} = some (.ok (some 2)) ∧
        ∃ p, p ≠ 2 ∧ (s.lb.select h s.group 1 {} {}).1 = .ok (some p) := by
  refine ⟨by decide, fun h lb hlb hhashes => ?_⟩
  rw [after_failover]
  refine ⟨available_thirdOnly, ?_⟩
  cases hlb with
  | consistentHash vnodesPerUnit hashOn =>
    let unit := max kVNODESMIN (min vnodesPerUnit kVNODESMAX)
    have hmin : 0 < unit := lt_of_lt_of_le (by decide) (le_max_left _ _)
    have hmax : unit ≤ 200 := max_le (by decide) (min_le_right _ _)
    have hstale := stale_through HashRing.fingerprint (buildRing h unit collidingGroup.config)
      (fun ring => lookup ring (h.murmurHash64 (hashKey (parseHashOn hashOn) {}) 0))
      (fun _ _ => buildRing_fingerprint) (by
        intro avail havail
        have hsum : (avail.map fun p => max (collidingGroup.config p).weight 1).sum ≤ 2 ∧ avail ≠ [] := by
          revert avail
          decide
        obtain ⟨ring, hring, hanswers⟩ := buildRing_answers h hsum.2 hmin (by unfold kIntMax; nlinarith)
        exact ⟨ring, hring, hanswers _⟩)
    exact ⟨congrArg some hstale.1, hstale.2⟩
  | maglevHash tableSize hashOn =>
    let size := nextPrime (max kMinTableSize (min tableSize kMaxTableSize))
    have hstale := stale_through LookupTable.fingerprint (buildTable h size collidingGroup.config)
      (fun table => lookup table (h.murmurHash64 (hashKey (parseHashOn hashOn) {}) 0))
      (fun _ _ => buildTable_fingerprint) (by
        intro avail havail
        have hne : avail ≠ [] := by
          revert avail
          decide
        obtain ⟨table, htable, hanswers⟩ := buildTable_answers h (nextPrime_prime _) hne
        exact ⟨table, htable, hanswers _⟩)
    exact ⟨congrArg some hstale.1, hstale.2⟩
  | _ => cases hhashes

end Coropact.Gateway
