/-
The pool of idle upstream streams (`include/coropact/gateway/upstream_conn_pool.h`).

The pool keeps one list of all idle entries in the order of their release, and for each peer a vector of iterators into
that list. An iterator is the address of its list node; the address of a new node is an input, any one that is not in
use. The functions also return the streams they destroy. Times are in nanoseconds, ages are exact. The statistics are
left out.

The abstract pool is the list of entries alone: `Linked` says that counter and vectors agree with it, and each operation
is described by what it does to the list.
-/
import Coropact.Core.Machine
import Coropact.Gateway.GatewayConfig

namespace Coropact.Gateway

open Coropact.Machine List

/-! ## The pool -/

/-- `max_idle_per_peer` is an `int` -/
structure PoolConfig where
  maxIdlePerPeer : BitVec 32 := 8
  maxIdleTotal : ℕ := 0
  keepaliveTimeoutSec : Double := .finite 60

structure IdleEntry (P S : Type*) where
  /-- the address of the list node -/
  node : ℕ
  stream : S
  idleSince : ℕ
  peer : P
deriving DecidableEq, Repr

structure PeerQueue (P : Type*) where
  peer : P
  idle : List ℕ := []
deriving DecidableEq, Repr

open PeerQueue

structure UpstreamStreamPool (P S : Type*) where
  idleTotal : ℕ := 0
  idleEntries : List (IdleEntry P S) := []
  peerQueues : List (PeerQueue P) := []
deriving DecidableEq, Repr

variable {P S : Type*} [DecidableEq P]

def setIdle (p : P) (idle : List ℕ) : List (PeerQueue P) → List (PeerQueue P)
  | [] => []
  | q :: qs => if q.peer = p then { q with idle := idle } :: qs else q :: setIdle p idle qs

def eraseQueue (p : P) : List (PeerQueue P) → List (PeerQueue P)
  | [] => []
  | q :: qs => if q.peer = p then qs else q :: eraseQueue p qs

/-- `now - idle_since >= timeout` -/
def Double.reached (timeout : Double) (age : ℤ) : Bool :=
  match timeout with
  | .nan => false
  | .negInf => true
  | .posInf => false
  | .finite q => q * 1000000000 ≤ age

namespace UpstreamStreamPool

def findPeer (pool : UpstreamStreamPool P S) (p : P) : Option (PeerQueue P) := pool.peerQueues.find? fun q => q.peer = p

def acquire (pool : UpstreamStreamPool P S) (p : P) : Option S × UpstreamStreamPool P S :=
  match pool.findPeer p with
  | none => (none, pool)
  | some q =>
    match q.idle.getLast? with
    | none => (none, { pool with peerQueues := eraseQueue p pool.peerQueues })
    | some node =>
      ((pool.idleEntries.find? fun e => e.node = node).map IdleEntry.stream,
        { idleTotal := pool.idleTotal - 1
          idleEntries := pool.idleEntries.filter fun e => e.node ≠ node
          peerQueues := setIdle p q.idle.dropLast pool.peerQueues })

/-- the destroyed stream and the pool then, or none if it returns false -/
def evictOldest (pool : UpstreamStreamPool P S) : Option (S × UpstreamStreamPool P S) :=
  match pool.idleEntries with
  | [] => none
  | oldest :: rest =>
    match pool.findPeer oldest.peer with
    | none => none
    | some q =>
      if oldest.node ∈ q.idle then
        let idle := q.idle.erase oldest.node
        some (oldest.stream,
          { idleTotal := pool.idleTotal - 1
            idleEntries := rest
            peerQueues := if idle = [] then eraseQueue oldest.peer pool.peerQueues
              else setIdle oldest.peer idle pool.peerQueues })
      else none

def full (cfg : PoolConfig) (idle : List ℕ) : Bool :=
  0 < cfg.maxIdlePerPeer.toInt ∧ cfg.maxIdlePerPeer.toInt ≤ int32 idle.length

/-- the end of `Release`, behind the eviction -/
def enqueue (cfg : PoolConfig) (p : P) (stream : S) (now node : ℕ) (pool : UpstreamStreamPool P S) :
    UpstreamStreamPool P S × List S :=
  let pool := if (pool.findPeer p).isSome then pool else { pool with peerQueues := pool.peerQueues ++ [{ peer := p }] }
  let idle := ((pool.findPeer p).map idle).getD []
  if full cfg idle then (pool, [stream])
  else
    ({ idleTotal := pool.idleTotal + 1
       idleEntries := pool.idleEntries ++ [{ node := node, stream := stream, idleSince := now, peer := p }]
       peerQueues := setIdle p (idle ++ [node]) pool.peerQueues }, [])

/-- the pool then and the streams destroyed -/
def release (cfg : PoolConfig) (p : P) (stream : Option S) (now node : ℕ) (pool : UpstreamStreamPool P S) :
    UpstreamStreamPool P S × List S :=
  match stream with
  | none => (pool, [])
  | some stream =>
    if cfg.maxIdlePerPeer.toInt ≤ 0 ∧ cfg.maxIdleTotal = 0 then (pool, [stream])
    else if (pool.findPeer p).any fun q => full cfg q.idle then (pool, [stream])
    else if cfg.maxIdleTotal ≠ 0 ∧ cfg.maxIdleTotal ≤ pool.idleTotal then
      match pool.evictOldest with
      | none => (pool, [stream])
      | some (victim, pool) => (enqueue cfg p stream now node pool).map id (victim :: ·)
    else enqueue cfg p stream now node pool

/-- the loop of `EvictStale`, which every round shortens the list -/
def evictStaleFrom (cfg : PoolConfig) (now : ℕ) : ℕ → UpstreamStreamPool P S → UpstreamStreamPool P S × List S
  | 0, pool => (pool, [])
  | fuel + 1, pool =>
    match pool.idleEntries.head? with
    | none => (pool, [])
    | some e =>
      if cfg.keepaliveTimeoutSec.reached (now - e.idleSince) then
        match pool.evictOldest with
        | none => (pool, [])
        | some (victim, pool) => (evictStaleFrom cfg now fuel pool).map id (victim :: ·)
      else (pool, [])

def evictStale (cfg : PoolConfig) (now : ℕ) (pool : UpstreamStreamPool P S) : UpstreamStreamPool P S × List S :=
  evictStaleFrom cfg now pool.idleEntries.length pool

end UpstreamStreamPool

/-! ## Queues -/

variable {e : IdleEntry P S} {q : PeerQueue P} {now node : ℕ}

section Queues

variable {p : P} {idle : List ℕ} {qs : List (PeerQueue P)}

theorem map_peer_setIdle : (setIdle p idle qs).map peer = qs.map peer := by
  induction qs with
  | nil => rfl
  | cons q qs ih =>
    rw [setIdle]
    split_ifs
    · rfl
    · rw [map_cons, ih, map_cons]

theorem mem_setIdle (hnodup : (qs.map peer).Nodup) (hq : q ∈ setIdle p idle qs) :
    (q.peer = p ∧ q.idle = idle) ∨ (q.peer ≠ p ∧ q ∈ qs) := by
  induction qs with
  | nil => cases hq
  | cons q' qs ih =>
    rw [map_cons, nodup_cons] at hnodup
    rw [setIdle] at hq
    split_ifs at hq with hpeer
    · rcases mem_cons.1 hq with rfl | hq
      · exact .inl ⟨hpeer, rfl⟩
      · refine .inr ⟨fun hp => hnodup.1 ?_, mem_cons_of_mem q' hq⟩
        rw [hpeer, ← hp]
        exact mem_map_of_mem hq
    · rcases mem_cons.1 hq with rfl | hq
      · exact .inr ⟨hpeer, mem_cons_self⟩
      · exact (ih hnodup.2 hq).imp id fun h => ⟨h.1, mem_cons_of_mem q' h.2⟩

theorem eraseQueue_sublist : (eraseQueue p qs).Sublist qs := by
  induction qs with
  | nil => exact .slnil
  | cons q qs ih =>
    rw [eraseQueue]
    split_ifs
    · exact sublist_cons_self q qs
    · exact ih.cons_cons q

theorem mem_eraseQueue (hnodup : (qs.map peer).Nodup) (hq : q ∈ eraseQueue p qs) :
    q ∈ qs ∧ q.peer ≠ p := by
  induction qs with
  | nil => cases hq
  | cons q' qs ih =>
    rw [map_cons, nodup_cons] at hnodup
    rw [eraseQueue] at hq
    split_ifs at hq with hpeer
    · refine ⟨mem_cons_of_mem q' hq, fun hp => hnodup.1 ?_⟩
      rw [hpeer, ← hp]
      exact mem_map_of_mem hq
    · rcases mem_cons.1 hq with rfl | hq
      · exact ⟨mem_cons_self, hpeer⟩
      · obtain ⟨hmem, hne⟩ := ih hnodup.2 hq
        exact ⟨mem_cons_of_mem q' hmem, hne⟩

theorem mem_peers_eraseQueue {p' : P} (hp' : p' ∈ qs.map peer) (hne : p' ≠ p) :
    p' ∈ (eraseQueue p qs).map peer := by
  induction qs with
  | nil => cases hp'
  | cons q qs ih =>
    rw [eraseQueue]
    split_ifs with hpeer
    · exact (mem_cons.1 hp').resolve_left fun heq => hne (heq.trans hpeer)
    · rw [map_cons]
      rcases mem_cons.1 hp' with rfl | hp'
      · exact mem_cons_self
      · exact mem_cons_of_mem _ (ih hp')

end Queues

/-! ## Counter, vectors and list -/

def nodesOf (entries : List (IdleEntry P S)) (p : P) : List ℕ := (entries.filter fun e => e.peer = p).map IdleEntry.node

def youngest (entries : List (IdleEntry P S)) (p : P) : Option (IdleEntry P S) :=
    (entries.filter fun e => e.peer = p).getLast?

section Nodes

variable {entries : List (IdleEntry P S)} {e : IdleEntry P S} {p : P}

theorem nodesOf_sublist (entries : List (IdleEntry P S)) (p : P) :
    (nodesOf entries p).Sublist (entries.map IdleEntry.node) := filter_sublist.map _

theorem getLast_nodesOf (entries : List (IdleEntry P S)) (p : P) :
    (nodesOf entries p).getLast? = (youngest entries p).map IdleEntry.node := List.getLast?_map

theorem youngest_mem (h : youngest entries p = some e) : e ∈ entries ∧ e.peer = p := by
  have hmem := mem_of_getLast? h
  rw [mem_filter] at hmem
  exact ⟨hmem.1, of_decide_eq_true hmem.2⟩

theorem nodesOf_cons_self (e : IdleEntry P S) (entries : List (IdleEntry P S)) :
    nodesOf (e :: entries) e.peer = e.node :: nodesOf entries e.peer := by
  simp [nodesOf]

theorem nodesOf_cons_of_ne (hne : e.peer ≠ p) : nodesOf (e :: entries) p = nodesOf entries p := by
  simp [nodesOf, hne]

theorem nodesOf_concat_self (entries : List (IdleEntry P S)) (e : IdleEntry P S) :
    nodesOf (entries ++ [e]) e.peer = nodesOf entries e.peer ++ [e.node] := by
  simp [nodesOf]

theorem nodesOf_concat_of_ne (hne : e.peer ≠ p) : nodesOf (entries ++ [e]) p = nodesOf entries p := by
  simp [nodesOf, hne]

theorem nodesOf_filter_node (entries : List (IdleEntry P S)) (node : ℕ) (p : P) :
    nodesOf (entries.filter fun e => e.node ≠ node) p = (nodesOf entries p).filter fun n => n ≠ node := by
  rw [nodesOf, nodesOf, filter_map, filter_filter, filter_filter]
  congr 1
  apply filter_congr
  intro e _
  simp [Bool.and_comm]

omit [DecidableEq P] in
theorem find_node (hnodup : (entries.map IdleEntry.node).Nodup) (he : e ∈ entries) :
    entries.find? (fun e' => e'.node = e.node) = some e := by
  have hsome : (entries.find? fun e' => e'.node = e.node).isSome = true := List.find?_isSome.2 ⟨e, he, by simp⟩
  obtain ⟨e', hfind⟩ := Option.isSome_iff_exists.1 hsome
  have hnode : e'.node = e.node := by simpa using List.find?_some hfind
  rw [hfind, inj_on_of_nodup_map hnodup (mem_of_find?_eq_some hfind) he hnode]

end Nodes

theorem filter_ne_getLast {α : Type*} [DecidableEq α] {l : List α} (hnodup : l.Nodup) {a : α}
    (ha : l.getLast? = some a) :
    l.filter (fun b => b ≠ a) = l.dropLast := by
  obtain ⟨l, rfl⟩ := List.getLast?_eq_some_iff.1 ha
  obtain ⟨-, -, hdisj⟩ := nodup_append.1 hnodup
  rw [filter_append, filter_eq_self.2]
  · simp
  · intro b hb
    exact decide_eq_true (hdisj b hb a (mem_singleton_self a))

namespace UpstreamStreamPool

structure Linked (pool : UpstreamStreamPool P S) : Prop where
  total : pool.idleTotal = pool.idleEntries.length
  nodes : (pool.idleEntries.map IdleEntry.node).Nodup
  queues : (pool.peerQueues.map peer).Nodup
  idle : ∀ q ∈ pool.peerQueues, q.idle = nodesOf pool.idleEntries q.peer
  covered : ∀ e ∈ pool.idleEntries, e.peer ∈ pool.peerQueues.map peer

variable {pool : UpstreamStreamPool P S} {p : P}

theorem findPeer_some (h : pool.findPeer p = some q) : q ∈ pool.peerQueues ∧ q.peer = p :=
  ⟨mem_of_find?_eq_some h, by simpa using List.find?_some h⟩

theorem findPeer_none (h : pool.findPeer p = none) : p ∉ pool.peerQueues.map peer := by
  intro hmem
  obtain ⟨q, hq, rfl⟩ := mem_map.1 hmem
  exact List.find?_eq_none.1 h q hq (decide_eq_true rfl)

theorem findPeer_isSome (h : p ∈ pool.peerQueues.map peer) : ∃ q, pool.findPeer p = some q := by
  cases hfind : pool.findPeer p with
  | none => exact absurd h (findPeer_none hfind)
  | some q => exact ⟨q, rfl⟩

theorem Linked.youngest_eq_none (h : Linked pool) (hp : p ∉ pool.peerQueues.map peer) :
    youngest pool.idleEntries p = none := by
  rw [youngest, List.getLast?_eq_none_iff, filter_eq_nil_iff]
  intro e he hpeer
  exact hp (of_decide_eq_true hpeer ▸ h.covered e he)

theorem Linked.findPeer_idle (h : Linked pool) (hq : pool.findPeer p = some q) :
    q.idle = nodesOf pool.idleEntries p := by
  obtain ⟨hmem, rfl⟩ := findPeer_some hq
  exact h.idle q hmem

/-! ### `Acquire` -/

theorem Linked.eraseQueue (h : Linked pool) (hnone : youngest pool.idleEntries p = none) :
    Linked { pool with peerQueues := eraseQueue p pool.peerQueues } where
  total := h.total
  nodes := h.nodes
  queues := (eraseQueue_sublist.map _).nodup h.queues
  idle q hq := h.idle q (mem_eraseQueue h.queues hq).1
  covered := by
    intro e he
    refine mem_peers_eraseQueue (h.covered e he) fun hpeer => ?_
    rw [youngest, List.getLast?_eq_none_iff, filter_eq_nil_iff] at hnone
    exact hnone e he (decide_eq_true hpeer)

theorem Linked.take (h : Linked pool) (he : youngest pool.idleEntries p = some e) :
    Linked { idleTotal := pool.idleTotal - 1
             idleEntries := pool.idleEntries.filter fun e' => e'.node ≠ e.node
             peerQueues := setIdle p (nodesOf pool.idleEntries p).dropLast pool.peerQueues } := by
  obtain ⟨hmem, hpeer⟩ := youngest_mem he
  have hmap : (pool.idleEntries.filter fun e' => e'.node ≠ e.node).map IdleEntry.node =
      (pool.idleEntries.map IdleEntry.node).erase e.node := by
    rw [h.nodes.erase_eq_filter, filter_map]
    congr 1
    apply filter_congr
    intro e' _
    simp only [bne, ne_eq, decide_not]
    rfl
  have hlast : (nodesOf pool.idleEntries p).getLast? = some e.node := by rw [getLast_nodesOf, he, Option.map_some]
  refine ⟨?_, ?_, ?_, ?_, ?_⟩
  · have hlength := congrArg List.length hmap
    rw [length_map, length_erase_of_mem (mem_map_of_mem hmem), length_map] at hlength
    rw [h.total, hlength]
  · rw [hmap]
    exact h.nodes.erase _
  · rw [map_peer_setIdle]
    exact h.queues
  · intro q hq
    rw [nodesOf_filter_node]
    rcases mem_setIdle h.queues hq with ⟨hqp, hidle⟩ | ⟨hqp, hq⟩
    · rw [hidle, hqp, filter_ne_getLast ((nodesOf_sublist _ p).nodup h.nodes) hlast]
    · rw [h.idle q hq, filter_eq_self.2]
      intro n hn
      refine decide_eq_true fun hnode => hqp ?_
      obtain ⟨e', he', rfl⟩ := mem_map.1 hn
      rw [mem_filter] at he'
      rw [← of_decide_eq_true he'.2, inj_on_of_nodup_map h.nodes he'.1 hmem hnode, hpeer]
  · intro e' he'
    rw [map_peer_setIdle]
    exact h.covered e' (mem_filter.1 he').1

/-- **`Acquire`** returns the entry of the peer that was released last, and takes it out of the list. -/
theorem linked_acquire (h : Linked pool) (p : P) :
    Linked (pool.acquire p).2 ∧ (pool.acquire p).1 = (youngest pool.idleEntries p).map IdleEntry.stream ∧
      (pool.acquire p).2.idleEntries =
        pool.idleEntries.filter fun e => (youngest pool.idleEntries p).all fun y => e.node ≠ y.node := by
  unfold acquire
  cases hfind : pool.findPeer p with
  | none =>
    rw [h.youngest_eq_none (findPeer_none hfind)]
    exact ⟨h, rfl, (filter_eq_self.2 fun _ _ => rfl).symm⟩
  | some q =>
    dsimp only
    rw [h.findPeer_idle hfind, getLast_nodesOf]
    cases hyoung : youngest pool.idleEntries p with
    | none => exact ⟨h.eraseQueue hyoung, rfl, (filter_eq_self.2 fun _ _ => rfl).symm⟩
    | some e =>
      refine ⟨h.take hyoung, ?_, rfl⟩
      dsimp only [Option.map_some]
      rw [find_node h.nodes (youngest_mem hyoung).1, Option.map_some]

/-! ### `EvictOldest` -/

/-- **`EvictOldest`** removes the first entry of the list, and fails only if there is none. -/
theorem linked_evictOldest (h : Linked pool) {rest : List (IdleEntry P S)} (hentries : pool.idleEntries = e :: rest) :
    ∃ pool', pool.evictOldest = some (e.stream, pool') ∧ pool'.idleEntries = rest ∧ Linked pool' := by
  have hcovered := h.covered e (hentries ▸ mem_cons_self)
  obtain ⟨q, hfind⟩ := findPeer_isSome hcovered
  have hidle : q.idle = e.node :: nodesOf rest e.peer := by
    rw [h.findPeer_idle hfind, hentries, nodesOf_cons_self]
  have hnodes : (rest.map IdleEntry.node).Nodup := by
    have hnodes := h.nodes
    rw [hentries, map_cons, nodup_cons] at hnodes
    exact hnodes.2
  have hother : ∀ q' ∈ pool.peerQueues, q'.peer ≠ e.peer → q'.idle = nodesOf rest q'.peer := by
    intro q' hq' hne
    rw [h.idle q' hq', hentries, nodesOf_cons_of_ne hne.symm]
  have htotal : pool.idleTotal - 1 = rest.length := by
    rw [h.total, hentries, length_cons, Nat.add_sub_cancel]
  have hrest : ∀ e' ∈ rest, e'.peer ∈ pool.peerQueues.map peer := fun e' he' =>
    h.covered e' (hentries ▸ mem_cons_of_mem e he')
  unfold evictOldest
  rw [hentries]
  dsimp only
  rw [hfind]
  dsimp only
  rw [hidle, if_pos mem_cons_self, erase_cons_head]
  refine ⟨_, rfl, rfl, ?_⟩
  split_ifs with hempty
  · refine ⟨htotal, hnodes, (eraseQueue_sublist.map _).nodup h.queues, fun q' hq' => ?_, fun e' he' => ?_⟩
    · obtain ⟨hmem, hne⟩ := mem_eraseQueue h.queues hq'
      exact hother q' hmem hne
    · refine mem_peers_eraseQueue (hrest e' he') fun hpeer => ?_
      have hmem : e'.node ∈ nodesOf rest e.peer :=
        mem_map_of_mem (mem_filter.2 ⟨he', decide_eq_true hpeer⟩)
      rw [hempty] at hmem
      cases hmem
  · refine ⟨htotal, hnodes, ?_, fun q' hq' => ?_, fun e' he' => ?_⟩
    · rw [map_peer_setIdle]
      exact h.queues
    · rcases mem_setIdle h.queues hq' with ⟨hpeer, hidle'⟩ | ⟨hne, hmem⟩
      · rw [hidle', hpeer]
      · exact hother q' hmem hne
    · rw [map_peer_setIdle]
      exact hrest e' he'

theorem evictOldest_nil (hentries : pool.idleEntries = []) : pool.evictOldest = none := by
  unfold evictOldest
  rw [hentries]

/-! ### `Release` -/

theorem Linked.pushQueue (h : Linked pool) (hp : p ∉ pool.peerQueues.map peer) :
    Linked { pool with peerQueues := pool.peerQueues ++ [{ peer := p }] } where
  total := h.total
  nodes := h.nodes
  queues := by
    rw [map_append, nodup_append]
    refine ⟨h.queues, nodup_singleton _, fun a ha b hb heq => hp ?_⟩
    have hbp : b = p := mem_singleton.1 hb
    exact hbp ▸ heq ▸ ha
  idle := by
    intro q hq
    rcases mem_append.1 hq with hq | hq
    · exact h.idle q hq
    · rw [mem_singleton.1 hq]
      have hnone := h.youngest_eq_none hp
      rw [youngest, List.getLast?_eq_none_iff] at hnone
      rw [nodesOf, hnone, map_nil]
  covered e he := by
    rw [map_append]
    exact mem_append_left _ (h.covered e he)

theorem Linked.push (h : Linked pool) (hpeer : e.peer ∈ pool.peerQueues.map peer)
    (hnode : e.node ∉ pool.idleEntries.map IdleEntry.node) :
    Linked { idleTotal := pool.idleTotal + 1
             idleEntries := pool.idleEntries ++ [e]
             peerQueues := setIdle e.peer (nodesOf pool.idleEntries e.peer ++ [e.node]) pool.peerQueues } where
  total := by rw [h.total, length_append, length_singleton]
  nodes := by
    rw [map_append, nodup_append]
    refine ⟨h.nodes, nodup_singleton _, fun a ha b hb heq => hnode ?_⟩
    have hbn : b = e.node := mem_singleton.1 hb
    exact hbn ▸ heq ▸ ha
  queues := by
    rw [map_peer_setIdle]
    exact h.queues
  idle := by
    intro q hq
    rcases mem_setIdle h.queues hq with ⟨hqp, hidle⟩ | ⟨hqp, hq⟩
    · rw [hidle, hqp, nodesOf_concat_self]
    · rw [h.idle q hq, nodesOf_concat_of_ne (Ne.symm hqp)]
  covered := by
    intro e' he'
    rw [map_peer_setIdle]
    rcases mem_append.1 he' with he' | he'
    · exact h.covered e' he'
    · rw [mem_singleton.1 he']
      exact hpeer

theorem linked_enqueue (cfg : PoolConfig) (h : Linked pool) (p : P) (stream : S) (now : ℕ)
    (hnode : node ∉ pool.idleEntries.map IdleEntry.node) :
    Linked (pool.enqueue cfg p stream now node).1 ∧
      (((pool.enqueue cfg p stream now node).1.idleEntries = pool.idleEntries ∧
        (pool.enqueue cfg p stream now node).2 = [stream]) ∨
        full cfg (nodesOf pool.idleEntries p) = false ∧
        (pool.enqueue cfg p stream now node).1.idleEntries = pool.idleEntries ++ [⟨node, stream, now, p⟩] ∧
        (pool.enqueue cfg p stream now node).2 = []) := by
  let pool₁ : UpstreamStreamPool P S :=
    if (pool.findPeer p).isSome then pool else { pool with peerQueues := pool.peerQueues ++ [{ peer := p }] }
  have hlinked : Linked pool₁ ∧ pool₁.idleEntries = pool.idleEntries ∧ p ∈ pool₁.peerQueues.map peer := by
    dsimp only [pool₁]
    split_ifs with hsome
    · obtain ⟨q, hq⟩ := Option.isSome_iff_exists.1 hsome
      obtain ⟨hmem, rfl⟩ := findPeer_some hq
      exact ⟨h, rfl, mem_map_of_mem hmem⟩
    · rw [Option.not_isSome_iff_eq_none] at hsome
      refine ⟨h.pushQueue (findPeer_none hsome), rfl, ?_⟩
      rw [map_append]
      exact mem_append_right _ (mem_singleton_self p)
  obtain ⟨hlinked, hentries, hpeer⟩ := hlinked
  obtain ⟨q, hq⟩ := findPeer_isSome hpeer
  have hidle : ((pool₁.findPeer p).map idle).getD [] = nodesOf pool.idleEntries p := by
    rw [hq, Option.map_some, Option.getD_some, hlinked.findPeer_idle hq, hentries]
  have henqueue : pool.enqueue cfg p stream now node =
      if full cfg (nodesOf pool.idleEntries p) then (pool₁, [stream])
      else
        ({ idleTotal := pool₁.idleTotal + 1
           idleEntries := pool₁.idleEntries ++ [⟨node, stream, now, p⟩]
           peerQueues := setIdle p (nodesOf pool.idleEntries p ++ [node]) pool₁.peerQueues }, []) := by
    rw [← hidle]
    rfl
  rw [henqueue]
  split_ifs with hfull
  · exact ⟨hlinked, .inl ⟨hentries, rfl⟩⟩
  · rw [Bool.not_eq_true] at hfull
    refine ⟨?_, .inr ⟨hfull, by rw [hentries], rfl⟩⟩
    rw [← hentries] at hnode ⊢
    exact hlinked.push (e := ⟨node, stream, now, p⟩) hpeer hnode

/-- what `Release` of a stream does to the list; the third argument are the streams it destroys -/
inductive Released (cfg : PoolConfig) (entries : List (IdleEntry P S)) (new : IdleEntry P S) :
    List (IdleEntry P S) → List S → Prop
  | refused : Released cfg entries new entries [new.stream]
  | admitted (hroom : cfg.maxIdleTotal ≠ 0 → entries.length < cfg.maxIdleTotal)
      (hfull : full cfg (nodesOf entries new.peer) = false) : Released cfg entries new (entries ++ [new]) []
  | evicted {e : IdleEntry P S} {rest : List (IdleEntry P S)} (hentries : entries = e :: rest)
      (hfull : full cfg (nodesOf rest new.peer) = false) : Released cfg entries new (rest ++ [new]) [e.stream]
  | evictedRefused {e : IdleEntry P S} {rest : List (IdleEntry P S)} (hentries : entries = e :: rest) :
      Released cfg entries new rest [e.stream, new.stream]

theorem linked_release (cfg : PoolConfig) (h : Linked pool) (p : P) (stream : S) (now : ℕ)
    (hnode : node ∉ pool.idleEntries.map IdleEntry.node) :
    Linked (pool.release cfg p (some stream) now node).1 ∧
      Released cfg pool.idleEntries ⟨node, stream, now, p⟩ (pool.release cfg p (some stream) now node).1.idleEntries
        (pool.release cfg p (some stream) now node).2 := by
  unfold release
  split_ifs with hoff hfull htotal
  · exact ⟨h, .refused⟩
  · exact ⟨h, .refused⟩
  · cases hentries : pool.idleEntries with
    | nil =>
      rw [evictOldest_nil hentries]
      exact ⟨h, hentries ▸ .refused⟩
    | cons e rest =>
      obtain ⟨pool', hevict, hrest, hlinked⟩ := linked_evictOldest h hentries
      rw [hevict]
      have hnode' : node ∉ pool'.idleEntries.map IdleEntry.node := by
        rw [hrest]
        rw [hentries] at hnode
        exact fun hmem => hnode (mem_cons_of_mem _ hmem)
      obtain ⟨henqueue, hcases⟩ := linked_enqueue cfg hlinked p stream now hnode'
      refine ⟨henqueue, ?_⟩
      dsimp only [Prod.map, id]
      rcases hcases with ⟨hsame, hdropped⟩ | ⟨hroom, hpushed, hdropped⟩
      · rw [hsame, hdropped, hrest]
        exact .evictedRefused rfl
      · rw [hpushed, hdropped, hrest]
        exact .evicted rfl (hrest ▸ hroom)
  · obtain ⟨henqueue, hcases⟩ := linked_enqueue cfg h p stream now hnode
    refine ⟨henqueue, ?_⟩
    rcases hcases with ⟨hsame, hdropped⟩ | ⟨hroom, hpushed, hdropped⟩
    · rw [hsame, hdropped]
      exact .refused
    · rw [hpushed, hdropped]
      refine .admitted (fun hne => ?_) hroom
      rw [← h.total]
      exact not_le.1 fun hle => htotal ⟨hne, hle⟩

/-! ### `EvictStale` -/

theorem reached_mono (timeout : Double) {age age' : ℤ} (hle : age ≤ age') (h : timeout.reached age = true) :
    timeout.reached age' = true := by
  cases timeout with
  | nan => exact h
  | negInf => rfl
  | posInf => exact h
  | finite q =>
    simp only [Double.reached, decide_eq_true_eq] at h ⊢
    exact h.trans (by exact_mod_cast hle)

def stale (cfg : PoolConfig) (now : ℕ) (e : IdleEntry P S) : Bool := cfg.keepaliveTimeoutSec.reached (now - e.idleSince)

def Ordered (entries : List (IdleEntry P S)) : Prop := entries.Pairwise fun e e' => e.idleSince ≤ e'.idleSince

omit [DecidableEq P] in
theorem Ordered.not_stale {cfg : PoolConfig} {rest : List (IdleEntry P S)} (h : Ordered (e :: rest))
    (hfresh : stale cfg now e = false) : ∀ e' ∈ e :: rest, stale cfg now e' = false := by
  intro e' he'
  rcases mem_cons.1 he' with rfl | he'
  · exact hfresh
  · have hle := (pairwise_cons.1 h).1 e' he'
    by_contra hstale
    rw [Bool.not_eq_false] at hstale
    have hmono :=
      reached_mono cfg.keepaliveTimeoutSec (show (now : ℤ) - e'.idleSince ≤ now - e.idleSince by omega) hstale
    rw [stale, hmono] at hfresh
    cases hfresh

theorem linked_evictStaleFrom (cfg : PoolConfig) (now : ℕ) {fuel : ℕ} (h : Linked pool)
    (hordered : Ordered pool.idleEntries) (hfuel : pool.idleEntries.length ≤ fuel) :
    Linked (pool.evictStaleFrom cfg now fuel).1 ∧
      (pool.evictStaleFrom cfg now fuel).1.idleEntries = pool.idleEntries.filter (fun e => !stale cfg now e) ∧
      (pool.evictStaleFrom cfg now fuel).2 =
        (pool.idleEntries.filter fun e => stale cfg now e).map IdleEntry.stream := by
  induction fuel generalizing pool with
  | zero =>
    have hnil := length_eq_zero_iff.1 (Nat.le_zero.1 hfuel)
    rw [evictStaleFrom, hnil]
    exact ⟨h, rfl, rfl⟩
  | succ fuel ih =>
    rw [evictStaleFrom]
    cases hentries : pool.idleEntries with
    | nil => exact ⟨h, hentries, rfl⟩
    | cons e rest =>
      rw [hentries] at hordered hfuel
      dsimp only [List.head?_cons]
      by_cases hstale : stale cfg now e = true
      · rw [show cfg.keepaliveTimeoutSec.reached (now - e.idleSince) = true from hstale, if_pos rfl]
        obtain ⟨pool', hevict, hrest, hlinked⟩ := linked_evictOldest h hentries
        rw [hevict]
        obtain ⟨hlinked', hleft, hdropped⟩ := ih hlinked (hrest ▸ (pairwise_cons.1 hordered).2)
          (by rw [hrest]; exact Nat.le_of_succ_le_succ hfuel)
        refine ⟨hlinked', ?_, ?_⟩
        · dsimp only [Prod.map, id]
          rw [hleft, hrest, filter_cons_of_neg (by simp [hstale])]
        · dsimp only [Prod.map]
          rw [hdropped, hrest, filter_cons_of_pos hstale, map_cons]
      · rw [Bool.not_eq_true] at hstale
        have hfresh := hordered.not_stale hstale
        rw [show cfg.keepaliveTimeoutSec.reached (now - e.idleSince) = false from hstale, if_neg Bool.false_ne_true]
        refine ⟨h, ?_, ?_⟩
        · rw [hentries, filter_eq_self.2 fun e' he' => by rw [hfresh e' he']; rfl]
        · rw [filter_eq_nil_iff.2 fun e' he' => by rw [hfresh e' he']; exact Bool.false_ne_true, map_nil]

/-- **`EvictStale`** leaves exactly the entries that are younger than the timeout. -/
theorem linked_evictStale (cfg : PoolConfig) (now : ℕ) (h : Linked pool) (hordered : Ordered pool.idleEntries) :
    Linked (pool.evictStale cfg now).1 ∧
      (pool.evictStale cfg now).1.idleEntries = pool.idleEntries.filter (fun e => !stale cfg now e) ∧
      (pool.evictStale cfg now).2 = (pool.idleEntries.filter fun e => stale cfg now e).map IdleEntry.stream :=
  linked_evictStaleFrom cfg now h hordered le_rfl

/-! ### Sums -/

theorem Linked.sum_idle (h : Linked pool) :
    (pool.peerQueues.map fun q => q.idle.length).sum = pool.idleEntries.length := by
  have hlengths : pool.peerQueues.map (fun q => q.idle.length) =
      (pool.peerQueues.map peer).map fun p => (pool.idleEntries.map IdleEntry.peer).count p := by
    rw [map_map]
    apply map_congr_left
    intro q hq
    rw [h.idle q hq, nodesOf, length_map, ← countP_eq_length_filter, Function.comp_apply, List.count, countP_map]
    rfl
  have hcover : ∀ p ∈ (pool.idleEntries.map IdleEntry.peer : Multiset P), p ∈ (pool.peerQueues.map peer).toFinset := by
    intro p hp
    obtain ⟨e, he, rfl⟩ := mem_map.1 (Multiset.mem_coe.1 hp)
    exact mem_toFinset.2 (h.covered e he)
  have hsum := Multiset.sum_count_eq_card hcover
  rw [hlengths, ← sum_toFinset _ h.queues]
  simpa using hsum

end UpstreamStreamPool

/-! ## Runs -/

inductive PoolEvent (P S : Type*) where
  | acquire (p : P)
  /-- the clock is read, and the node of a new entry is allocated -/
  | release (p : P) (stream : Option S) (now node : ℕ)
  | evictStale (now : ℕ)
deriving DecidableEq, Repr

structure PoolRun (P S : Type*) where
  pool : UpstreamStreamPool P S := {}
  clock : ℕ := 0
  released : List S := []
  returned : List S := []
  dropped : List S := []
deriving DecidableEq, Repr

namespace PoolRun

def step (cfg : PoolConfig) (s : PoolRun P S) : PoolEvent P S → Option (PoolRun P S)
  | .acquire p =>
    let r := s.pool.acquire p
    some { s with pool := r.2, returned := s.returned ++ r.1.toList }
  | .release p stream now node =>
    if s.clock ≤ now ∧ node ∉ s.pool.idleEntries.map IdleEntry.node then
      let r := s.pool.release cfg p stream now node
      some { s with pool := r.1, clock := now, released := s.released ++ stream.toList, dropped := s.dropped ++ r.2 }
    else none
  | .evictStale now =>
    if s.clock ≤ now then
      let r := s.pool.evictStale cfg now
      some { s with pool := r.1, clock := now, dropped := s.dropped ++ r.2 }
    else none

def held (s : PoolRun P S) : List S := s.pool.idleEntries.map IdleEntry.stream

open UpstreamStreamPool

structure Kept (cfg : PoolConfig) (clock : ℕ) (entries : List (IdleEntry P S)) : Prop where
  ordered : Ordered entries
  past : ∀ e ∈ entries, e.idleSince ≤ clock
  perPeer : 0 < cfg.maxIdlePerPeer.toInt → ∀ p, ((nodesOf entries p).length : ℤ) ≤ cfg.maxIdlePerPeer.toInt
  shared : cfg.maxIdleTotal ≠ 0 → entries.length ≤ cfg.maxIdleTotal

variable {cfg : PoolConfig} {clock : ℕ} {entries entries' : List (IdleEntry P S)}

theorem Kept.sublist (h : Kept cfg clock entries) (hsub : entries'.Sublist entries) : Kept cfg clock entries' where
  ordered := h.ordered.sublist hsub
  past e he := h.past e (hsub.subset he)
  perPeer hpos p := by
    have hle : (nodesOf entries' p).length ≤ (nodesOf entries p).length := ((hsub.filter _).map _).length_le
    exact le_trans (by exact_mod_cast hle) (h.perPeer hpos p)
  shared hne := hsub.length_le.trans (h.shared hne)

theorem Kept.later (h : Kept cfg clock entries) (hle : clock ≤ now) : Kept cfg now entries :=
  ⟨h.ordered, fun e he => (h.past e he).trans hle, h.perPeer, h.shared⟩

theorem length_lt_of_not_full {idle : List ℕ} (hfull : full cfg idle = false) (hpos : 0 < cfg.maxIdlePerPeer.toInt)
    (hle : (idle.length : ℤ) ≤ cfg.maxIdlePerPeer.toInt) : (idle.length : ℤ) < cfg.maxIdlePerPeer.toInt := by
  have hmax : 2 * cfg.maxIdlePerPeer.toInt < 2 ^ 32 := BitVec.two_mul_toInt_lt
  have hint : int32 idle.length = idle.length := int32_of_fits (by unfold kIntMin; omega) (by unfold kIntMax; omega)
  rw [full, hint, decide_eq_false_iff_not, not_and, not_le] at hfull
  exact hfull hpos

variable {new : IdleEntry P S} {dropped : List S}

theorem Kept.push (h : Kept cfg clock entries) (hlater : clock ≤ new.idleSince)
    (hfull : full cfg (nodesOf entries new.peer) = false)
    (hroom : cfg.maxIdleTotal ≠ 0 → entries.length < cfg.maxIdleTotal) :
    Kept cfg new.idleSince (entries ++ [new]) where
  ordered := by
    rw [Ordered, pairwise_append]
    refine ⟨h.ordered, pairwise_singleton _ _, fun e he e' he' => ?_⟩
    rw [mem_singleton.1 he']
    exact (h.past e he).trans hlater
  past := by
    intro e he
    rcases mem_append.1 he with he | he
    · exact (h.past e he).trans hlater
    · rw [mem_singleton.1 he]
  perPeer := by
    intro hpos p
    rcases eq_or_ne new.peer p with rfl | hne
    · have hlt := length_lt_of_not_full hfull hpos (h.perPeer hpos new.peer)
      rw [nodesOf_concat_self, length_append, length_singleton]
      push_cast
      omega
    · rw [nodesOf_concat_of_ne hne]
      exact h.perPeer hpos p
  shared hne := by
    rw [length_append]
    exact hroom hne

theorem Kept.released (h : Kept cfg clock entries) (hlater : clock ≤ new.idleSince)
    (hreleased : Released cfg entries new entries' dropped) : Kept cfg new.idleSince entries' := by
  cases hreleased with
  | refused => exact h.later hlater
  | admitted hroom hfull => exact h.push hlater hfull hroom
  | @evicted e rest hentries hfull =>
    have hsub : rest.Sublist entries := hentries ▸ sublist_cons_self e rest
    refine (h.sublist hsub).push hlater hfull fun hne => ?_
    have hshared := h.shared hne
    rw [hentries, length_cons] at hshared
    omega
  | evictedRefused hentries => exact (h.sublist (hentries ▸ sublist_cons_self _ _)).later hlater

omit [DecidableEq P] in
theorem perm_take (hnodup : (entries.map IdleEntry.node).Nodup) (he : e ∈ entries) :
    entries.Perm (e :: entries.filter fun e' => e'.node ≠ e.node) := by
  obtain ⟨l, r, rfl⟩ := append_of_mem he
  have hother : ∀ e' ∈ l ++ r, e'.node ≠ e.node := by
    rw [(perm_middle.map IdleEntry.node).nodup_iff, map_cons, nodup_cons] at hnodup
    exact fun e' he' heq => hnodup.1 (heq ▸ mem_map_of_mem he')
  have hfilter : (l ++ e :: r).filter (fun e' => e'.node ≠ e.node) = l ++ r := by
    rw [filter_append, filter_cons_of_neg (by simp), ← filter_append]
    exact filter_eq_self.2 fun e' he' => decide_eq_true (hother e' he')
  rw [hfilter]
  exact perm_middle

theorem perm_released (h : Released cfg entries new entries' dropped) :
    (entries.map IdleEntry.stream ++ [new.stream]).Perm (entries'.map IdleEntry.stream ++ dropped) := by
  cases h with
  | refused => exact .refl _
  | admitted hroom hfull => simp
  | @evicted e rest hentries hfull =>
    rw [hentries, map_cons, map_append, cons_append]
    exact (perm_append_singleton _ _).symm
  | evictedRefused hentries =>
    rw [hentries, map_cons]
    exact perm_middle.symm

theorem sublist_released (h : Released cfg entries new entries' dropped) :
    entries'.Sublist (entries ++ [new]) := by
  cases h with
  | refused => exact sublist_append_left _ _
  | admitted hroom hfull => exact .refl _
  | @evicted e rest hentries hfull =>
    rw [hentries]
    exact (sublist_cons_self e rest).append_right _
  | evictedRefused hentries =>
    rw [hentries]
    exact (sublist_cons_self _ _).trans (sublist_append_left _ _)

structure Sound (cfg : PoolConfig) (s : PoolRun P S) : Prop where
  linked : UpstreamStreamPool.Linked s.pool
  kept : Kept cfg s.clock s.pool.idleEntries
  /-- every stream that was released is held, was returned or was dropped, as often as it was released -/
  conserved : s.released.Perm (s.held ++ s.returned ++ s.dropped)
  inOrder : s.held.Sublist s.released

variable {s t : PoolRun P S}

theorem Sound.acquire (h : Sound cfg s) (p : P) :
    Sound cfg { s with pool := (s.pool.acquire p).2, returned := s.returned ++ (s.pool.acquire p).1.toList } := by
  obtain ⟨hlinked, hreturned, hentries⟩ := linked_acquire h.linked p
  have hsub : (s.pool.acquire p).2.idleEntries.Sublist s.pool.idleEntries := hentries ▸ filter_sublist
  refine ⟨hlinked, h.kept.sublist hsub, h.conserved.trans ?_, (hsub.map _).trans h.inOrder⟩
  -- the entry that goes is counted as returned
  suffices hperm : s.held.Perm ((s.pool.acquire p).2.idleEntries.map IdleEntry.stream ++ (s.pool.acquire p).1.toList) by
    rw [← Multiset.coe_eq_coe] at hperm ⊢
    simp only [held, ← Multiset.coe_add] at hperm ⊢
    rw [hperm]
    abel
  rw [hentries, hreturned]
  cases hyoung : youngest s.pool.idleEntries p with
  | none => simp [held]
  | some e =>
    have hperm := (perm_take h.linked.nodes (youngest_mem hyoung).1).map IdleEntry.stream
    exact hperm.trans (perm_append_singleton _ _).symm

theorem Sound.release (h : Sound cfg s) (p : P) (stream : Option S) (hclock : s.clock ≤ now)
    (hnode : node ∉ s.pool.idleEntries.map IdleEntry.node) :
    Sound cfg
      { s with
        pool := (s.pool.release cfg p stream now node).1
        clock := now
        released := s.released ++ stream.toList
        dropped := s.dropped ++ (s.pool.release cfg p stream now node).2 } := by
  cases stream with
  | none =>
    refine ⟨h.linked, h.kept.later hclock, ?_, ?_⟩
    · simpa [UpstreamStreamPool.release, held] using h.conserved
    · simpa [UpstreamStreamPool.release, held] using h.inOrder
  | some stream =>
    obtain ⟨hlinked, hreleased⟩ := linked_release cfg h.linked p stream now hnode
    refine ⟨hlinked, h.kept.released hclock hreleased, ?_, ?_⟩
    · have hconserved := h.conserved
      have hperm := perm_released hreleased
      rw [← Multiset.coe_eq_coe] at hconserved hperm ⊢
      simp only [held, ← Multiset.coe_add] at hconserved hperm ⊢
      have hadded : (s.released : Multiset S) + [stream] =
          (s.pool.idleEntries.map IdleEntry.stream + [stream]) + s.returned + s.dropped := by
        rw [hconserved]
        abel
      rw [Option.toList_some, hadded, hperm]
      abel
    · refine ((sublist_released hreleased).map IdleEntry.stream).trans ?_
      rw [map_append]
      exact h.inOrder.append_right _

theorem Sound.evictStale (h : Sound cfg s) (hclock : s.clock ≤ now) :
    Sound cfg
      { s with
        pool := (s.pool.evictStale cfg now).1
        clock := now
        dropped := s.dropped ++ (s.pool.evictStale cfg now).2 } := by
  obtain ⟨hlinked, hleft, hdropped⟩ := linked_evictStale cfg now h.linked h.kept.ordered
  have hsub : (s.pool.evictStale cfg now).1.idleEntries.Sublist s.pool.idleEntries := hleft ▸ filter_sublist
  refine ⟨hlinked, (h.kept.sublist hsub).later hclock, h.conserved.trans ?_, (hsub.map _).trans h.inOrder⟩
  have hperm := (filter_append_perm (fun e => stale cfg now e) s.pool.idleEntries).map IdleEntry.stream
  rw [map_append, ← hdropped, ← hleft] at hperm
  rw [← Multiset.coe_eq_coe] at hperm ⊢
  simp only [held, ← Multiset.coe_add] at hperm ⊢
  rw [← hperm]
  abel

theorem sound_step (e : PoolEvent P S) (hstep : step cfg s e = some t) (h : Sound cfg s) : Sound cfg t := by
  cases e with
  | acquire p =>
    cases hstep
    exact h.acquire p
  | release p stream now node =>
    obtain ⟨⟨hclock, hnode⟩, rfl⟩ := of_ite_some hstep
    exact h.release p stream hclock hnode
  | evictStale now =>
    obtain ⟨hclock, rfl⟩ := of_ite_some hstep
    exact h.evictStale hclock

theorem sound_init : Sound cfg ({} : PoolRun P S) where
  linked :=
    { total := rfl
      nodes := nodup_nil
      queues := nodup_nil
      idle := fun _ hq => absurd hq not_mem_nil
      covered := fun _ he => absurd he not_mem_nil }
  kept :=
    { ordered := List.Pairwise.nil
      past := fun _ he => absurd he not_mem_nil
      perPeer := fun hpos _ => le_of_lt hpos
      shared := fun _ => Nat.zero_le _ }
  conserved := .refl _
  inOrder := .refl _

theorem sound_run {events : List (PoolEvent P S)} (hrun : run (step cfg) {} events = some s) : Sound cfg s :=
  run_induct (fun _ s => Sound cfg s) sound_init (fun _ _ e _ _ h hstep => sound_step e hstep h) events s hrun

end PoolRun

section

open UpstreamStreamPool

/-- **The pool of idle streams.** Whatever the configuration and the calls, counter, vectors and list agree and keep to
the caps (a cap for each peer that is not positive is none), `Acquire` gives the stream of its peer that was released
last, evictions take the oldest entry, `EvictStale` leaves the entries that have not reached the timeout, and no stream
is lost or duplicated. -/
theorem stream_pool_sound (cfg : PoolConfig) (events : List (PoolEvent P S)) (s : PoolRun P S)
    (hrun : run (PoolRun.step cfg) {} events = some s) :
    (s.pool.idleTotal = s.pool.idleEntries.length ∧
      s.pool.idleTotal = (s.pool.peerQueues.map fun q => q.idle.length).sum) ∧
    ((s.pool.peerQueues.map peer).Nodup ∧
      (∀ e ∈ s.pool.idleEntries, e.peer ∈ s.pool.peerQueues.map peer) ∧
      (∀ q ∈ s.pool.peerQueues, q.idle = nodesOf s.pool.idleEntries q.peer) ∧ s.held.Sublist s.released) ∧
    ((0 < cfg.maxIdlePerPeer.toInt → ∀ q ∈ s.pool.peerQueues, (q.idle.length : ℤ) ≤ cfg.maxIdlePerPeer.toInt) ∧
      (cfg.maxIdleTotal ≠ 0 → s.pool.idleTotal ≤ cfg.maxIdleTotal)) ∧
    (∀ p, (s.pool.acquire p).1 = (youngest s.pool.idleEntries p).map IdleEntry.stream) ∧
    (∀ e rest, s.pool.idleEntries = e :: rest →
      (∀ e' ∈ rest, e.idleSince ≤ e'.idleSince) ∧
      ∃ pool, s.pool.evictOldest = some (e.stream, pool) ∧ pool.idleEntries = rest) ∧
    (∀ now, s.clock ≤ now →
      (s.pool.evictStale cfg now).1.idleEntries = s.pool.idleEntries.filter fun e => !stale cfg now e) ∧
    s.released.Perm (s.held ++ s.returned ++ s.dropped) := by
  have h := PoolRun.sound_run hrun
  refine ⟨⟨h.linked.total, ?_⟩, ⟨h.linked.queues, h.linked.covered, h.linked.idle, h.inOrder⟩, ⟨?_, ?_⟩, ?_, ?_, ?_,
    h.conserved⟩
  · rw [h.linked.total, h.linked.sum_idle]
  · intro hpos q hq
    rw [h.linked.idle q hq]
    exact h.kept.perPeer hpos q.peer
  · intro hne
    rw [h.linked.total]
    exact h.kept.shared hne
  · intro p
    exact (linked_acquire h.linked p).2.1
  · intro e rest hentries
    obtain ⟨pool, hevict, hrest, -⟩ := linked_evictOldest h.linked hentries
    have hordered := h.kept.ordered
    rw [hentries] at hordered
    exact ⟨(pairwise_cons.1 hordered).1, pool, hevict, hrest⟩
  · intro now _
    exact (linked_evictStale cfg now h.linked h.kept.ordered).2.1

def sharedBudget : PoolConfig := { maxIdlePerPeer := 0, maxIdleTotal := 2 }

def threeReleases : List (PoolEvent Bool ℕ) :=
  [.release false (some 7) 10 0, .release true (some 8) 11 1, .release false (some 9) 12 2, .acquire true]

theorem stream_pool_sound_threeReleases :
    ∃ s, run (PoolRun.step sharedBudget) {} threeReleases = some s ∧ s.held = [9] ∧
      s.released.Perm (s.held ++ s.returned ++ s.dropped) := by
  refine ⟨{ pool := ?_, clock := 12, released := [7, 8, 9], returned := [8], dropped := [7] }, ?_, ?_, ?_⟩
  · exact
      { idleTotal := 1
        idleEntries := [{ node := 2, stream := 9, idleSince := 12, peer := false }]
        peerQueues := [{ peer := true }, { peer := false, idle := [2] }] }
  · decide +kernel
  · rfl
  · exact (stream_pool_sound sharedBudget threeReleases _ (by decide +kernel)).2.2.2.2.2.2

/-- a negative cap is no cap, though it is not zero -/
theorem negative_cap_exceeded :
    ¬ ∀ (cfg : PoolConfig) (events : List (PoolEvent Bool ℕ)) (s : PoolRun Bool ℕ),
      run (PoolRun.step cfg) {} events = some s →
        cfg.maxIdlePerPeer.toInt ≠ 0 → ∀ q ∈ s.pool.peerQueues, (q.idle.length : ℤ) ≤ cfg.maxIdlePerPeer.toInt := by
  intro h
  have hheld := h { maxIdlePerPeer := -1, maxIdleTotal := 3 } [.release false (some 7) 10 0]
    { pool :=
        { idleTotal := 1
          idleEntries := [{ node := 0, stream := 7, idleSince := 10, peer := false }]
          peerQueues := [{ peer := false, idle := [0] }] }
      clock := 10
      released := [7] }
    (by decide +kernel) (by decide) { peer := false, idle := [0] } (by decide)
  exact absurd hheld (by decide)

end

end Coropact.Gateway
