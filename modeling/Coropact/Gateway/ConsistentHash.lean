/-
Consistent hashing with a cached ring (`ConsistentHashLB` in `include/coropact/gateway/load_balancer.h`).

`Select` writes the names and weights of the available peers into one text, the fingerprint, and uses the ring it built
last as long as the fingerprint is that ring's. Both hash strategies do this; `selectThrough` is that part, for any kind
of table. The two loads of the cached pointer, before and under the lock, read the same value here, since a call is one
step.

A weight of 2^31 / 150 or more wraps the number of virtual nodes; if the total wraps below zero, `reserve` throws.
-/
import Coropact.Core.Text
import Coropact.Gateway.LoadBalancer
import Mathlib.Data.List.Destutter

namespace Coropact.Gateway

open Coropact.Http Coropact.Text List

variable {P : Type*}

/-! ## The key -/

inductive HashOn where
  | clientIp | uri | userId | sessionId
deriving DecidableEq, Repr

def parseHashOn (s : Bytes) : HashOn :=
  if s = str "uri" then .uri
  else if s = str "user_id" then .userId
  else if s = str "session_id" then .sessionId
  else .clientIp

def hashKey (hashOn : HashOn) (ctx : RequestContext) : Bytes :=
  match hashOn with
  | .uri => if ctx.uri ≠ [] then ctx.uri else ctx.clientIp
  | .userId => if ctx.userId ≠ [] then ctx.userId else ctx.clientIp
  | .sessionId => if ctx.sessionId ≠ [] then ctx.sessionId else ctx.clientIp
  | .clientIp => ctx.clientIp

/-! ## The fingerprint -/

def semicolon : UInt8 := 59

/-- `std::to_string` of an `int` -/
def intText (n : ℤ) : Bytes := if 0 ≤ n then toText n.toNat else str "-" ++ toText (-n).toNat

/-- a peer in the fingerprint, without the `;` -/
def fingerprintEntry (c : PeerConfig) : Bytes := c.name ++ colon :: intText c.weight

def computeFingerprint (config : P → PeerConfig) (avail : List P) : Bytes :=
  avail.flatMap fun p => fingerprintEntry (config p) ++ [semicolon]

theorem not_mem_intText {b : UInt8} (hdigit : isDigit b = false) (hminus : b ≠ 45) (n : ℤ) : b ∉ intText n := by
  have htext : ∀ k : ℕ, b ∉ toText k := by
    intro k hb
    rw [(toText_spec k).2.1 b hb] at hdigit
    cases hdigit
  unfold intText
  split_ifs
  · exact htext _
  · rw [mem_append, not_or]
    refine ⟨?_, htext _⟩
    rw [show str "-" = [45] from rfl, mem_singleton]
    exact hminus

theorem name_of_fingerprintEntry {c c' : PeerConfig} (h : fingerprintEntry c = fingerprintEntry c') :
    c.name = c'.name := by
  have hcut : ∀ c : PeerConfig, cutAt colon (fingerprintEntry c).reverse =
      some ((intText c.weight).reverse, c.name.reverse) := by
    intro c
    have hreverse : (fingerprintEntry c).reverse = (intText c.weight).reverse ++ colon :: c.name.reverse := by
      simp [fingerprintEntry]
    rw [hreverse]
    exact cutAt_append (by rw [mem_reverse]; exact not_mem_intText rfl (by decide) _) _
  have hsame := hcut c
  rw [h, hcut c', Option.some.injEq, Prod.mk.injEq] at hsame
  exact (reverse_injective hsame.2).symm

variable {config : P → PeerConfig} {avail : List P}

theorem terminated_fingerprint (h : ∀ p ∈ avail, semicolon ∉ (config p).name) :
    terminated semicolon (computeFingerprint config avail) = avail.map fun p => fingerprintEntry (config p) := by
  induction avail with
  | nil => rfl
  | cons p rest ih =>
    obtain ⟨hp, hrest⟩ := forall_mem_cons.1 h
    have hentry : semicolon ∉ fingerprintEntry (config p) := by
      rw [fingerprintEntry, mem_append, mem_cons, not_or, not_or]
      exact ⟨hp, by decide, not_mem_intText rfl (by decide) _⟩
    rw [computeFingerprint, flatMap_cons, append_assoc, singleton_append, terminated_append hentry, map_cons]
    exact congrArg _ (ih hrest)

theorem eq_of_map_eq {α β : Type*} {f : α → β} {s l l' : List α} (hf : ∀ x ∈ s, ∀ y ∈ s, f x = f y → x = y) (hl : l ⊆ s)
    (hl' : l' ⊆ s) (h : l.map f = l'.map f) : l = l' := by
  induction l generalizing l' with
  | nil => exact (map_eq_nil_iff.1 h.symm).symm
  | cons x l ih =>
    cases l' with
    | nil => cases h
    | cons y l' =>
      rw [map_cons, map_cons, List.cons.injEq] at h
      obtain ⟨hx, hl⟩ := cons_subset.1 hl
      obtain ⟨hy, hl'⟩ := cons_subset.1 hl'
      rw [hf x hx y hy h.1, ih hl hl' h.2]

/-- the names of these peers are distinct and hold no semicolon -/
structure Legible (config : P → PeerConfig) (peers : List P) : Prop where
  inj : ∀ p ∈ peers, ∀ q ∈ peers, (config p).name = (config q).name → p = q
  clear : ∀ p ∈ peers, semicolon ∉ (config p).name

theorem fingerprint_injOn {peers avail' : List P} (h : Legible config peers) (hs : avail ⊆ peers) (hs' : avail' ⊆ peers)
    (heq : computeFingerprint config avail = computeFingerprint config avail') : avail = avail' := by
  have hentries := terminated_fingerprint fun p hp => h.clear p (hs hp)
  rw [heq, terminated_fingerprint fun p hp => h.clear p (hs' hp)] at hentries
  refine eq_of_map_eq (fun p hp q hq hpq => h.inj p hp q hq (name_of_fingerprintEntry hpq)) hs hs' hentries.symm

theorem computeFingerprint_eq_nil :
    computeFingerprint config avail = [] ↔ avail = [] := by
  constructor
  · intro h
    cases avail with
    | nil => rfl
    | cons p rest => simp [computeFingerprint] at h
  · rintro rfl
    rfl

/-! ## Answering through a cached table -/

/-- how a call can fail: `reserve` throws, or the loop that fills a table never ends -/
inductive SelectFailure where
  | lengthError | loops
deriving DecidableEq, Repr

/-- a call with the fingerprint `fp` of the available peers: the answer and the table that is cached then -/
def selectThrough {T : Type*} (fingerprint : T → Bytes) (build : Except SelectFailure T) (lookup : T → Option P)
    (fp : Bytes) (cached : Option T) : Except SelectFailure (Option P) × Option T :=
  if fp = [] then (.ok none, cached)
  else
    match cached.filter fun t => fingerprint t == fp with
    | some t => (.ok (lookup t), cached)
    | none =>
      match build with
      | .error e => (.error e, cached)
      | .ok t => (.ok (lookup t), some t)

section SelectThrough

variable {T : Type*} {fingerprint : T → Bytes} {build : Except SelectFailure T} {lookup : T → Option P} {fp : Bytes}
  {cached : Option T}

theorem selectThrough_cached {t : T} (h : (selectThrough fingerprint build lookup fp cached).2 = some t) :
    cached = some t ∨ build = .ok t := by
  unfold selectThrough at h
  split_ifs at h
  · exact .inl h
  · split at h
    · exact .inl h
    · split at h
      · exact .inl h
      · exact .inr (by rw [Option.some.inj h])

/-- **A cache that is not stale.** If the cached table has this fingerprint only when it is what would be built, the
answer is that of a table built anew. -/
theorem selectThrough_eq (hnil : fp = [] → build.map lookup = .ok none)
    (hfresh : ∀ t, cached = some t → fingerprint t = fp → build = .ok t) :
    (selectThrough fingerprint build lookup fp cached).1 = build.map lookup := by
  unfold selectThrough
  split_ifs with hempty
  · exact (hnil hempty).symm
  · split
    · rename_i t hfilter
      obtain ⟨hcached, hfp⟩ := Option.filter_eq_some_iff.1 hfilter
      rw [hfresh t hcached (eq_of_beq hfp)]
      rfl
    · cases build with
      | error e => rfl
      | ok t => rfl

/-- the first call builds a table and the next one with the same fingerprint uses it, whatever it would build -/
theorem selectThrough_twice {build' : Except SelectFailure T} {lookup' : T → Option P} {t : T} (hfp : fp ≠ [])
    (hbuild : build = .ok t) (ht : fingerprint t = fp) :
    (selectThrough fingerprint build' lookup' fp (selectThrough fingerprint build lookup fp none).2).1 =
      .ok (lookup' t) := by
  have hfirst : (selectThrough fingerprint build lookup fp none).2 = some t := by
    simp [selectThrough, hfp, hbuild]
  rw [hfirst]
  simp [selectThrough, hfp, ht, Option.filter]

end SelectThrough

/-! ## The ring -/

structure HashRing (P : Type*) where
  nodes : List (ℕ × P)
  fingerprint : Bytes

structure ConsistentHashLB (P : Type*) where
  vnodesPerUnit : ℤ
  hashOn : HashOn
  ring : Option (HashRing P) := none

namespace ConsistentHashLB

def kVNODESMAX : ℤ := 200
def kVNODESMIN : ℤ := 100

def make (vnodesPerUnit : ℤ) (hashOn : Bytes) : ConsistentHashLB P where
  vnodesPerUnit := max kVNODESMIN (min vnodesPerUnit kVNODESMAX)
  hashOn := parseHashOn hashOn

/-- the virtual nodes of a peer, `peer_name#0`, `peer_name#1` and so on -/
def vnodes (h : Hashing P) (vnodesPerUnit : ℤ) (config : P → PeerConfig) (p : P) : List (ℕ × P) :=
  let vnodeCnt := int32 (max (config p).weight 1 * vnodesPerUnit)
  (List.range vnodeCnt.toNat).map fun i => (h.murmurHash64 ((config p).name ++ str "#" ++ toText i) 0, p)

def buildRing (h : Hashing P) (vnodesPerUnit : ℤ) (config : P → PeerConfig) (avail : List P) :
    Except SelectFailure (HashRing P) :=
  let totalWeight := intSum 1 (fun p => (config p).weight) avail
  if int32 (totalWeight * vnodesPerUnit) < 0 then .error .lengthError
  else
    let nodes := h.sort (avail.flatMap (vnodes h vnodesPerUnit config))
    .ok { nodes := nodes.destutter fun a b => a.1 ≠ b.1, fingerprint := computeFingerprint config avail }

/-- the first node at or after the hash, or the first of all -/
def lookup (ring : HashRing P) (hash : ℕ) : Option P :=
  match ring.nodes.find? fun node => hash ≤ node.1 with
  | some node => some node.2
  | none => ring.nodes.head?.map Prod.snd

def select (lb : ConsistentHashLB P) (h : Hashing P) (g : PeerGroup P) (nowMs : ℕ) (ctx : RequestContext) :
    Except SelectFailure (Option P) × ConsistentHashLB P :=
  let avail := g.available nowMs
  let r := selectThrough HashRing.fingerprint (buildRing h lb.vnodesPerUnit g.config avail)
    (fun ring => lookup ring (h.murmurHash64 (hashKey lb.hashOn ctx) 0)) (computeFingerprint g.config avail) lb.ring
  (r.1, { lb with ring := r.2 })

variable {h : Hashing P} {vnodesPerUnit : ℤ} {config : P → PeerConfig} {avail : List P} {ring : HashRing P}

theorem buildRing_fingerprint (hring : buildRing h vnodesPerUnit config avail = .ok ring) :
    ring.fingerprint = computeFingerprint config avail := by
  unfold buildRing at hring
  dsimp only at hring
  split_ifs at hring
  rw [← Except.ok.inj hring]

theorem buildRing_mem (hring : buildRing h vnodesPerUnit config avail = .ok ring) {node : ℕ × P}
    (hnode : node ∈ ring.nodes) :
    node.2 ∈ avail := by
  unfold buildRing at hring
  dsimp only at hring
  split_ifs at hring
  rw [← Except.ok.inj hring] at hnode
  have hsorted := (destutter_sublist _ _).subset hnode
  obtain ⟨p, hp, hvnode⟩ := mem_flatMap.1 ((h.sort_perm _).mem_iff.1 hsorted)
  obtain ⟨i, -, rfl⟩ := mem_map.1 hvnode
  exact hp

theorem lookup_mem {hash : ℕ} {p : P} (hp : lookup ring hash = some p) : ∃ node ∈ ring.nodes, node.2 = p := by
  unfold lookup at hp
  split at hp
  · rename_i node hfind
    exact ⟨node, mem_of_find?_eq_some hfind, Option.some.inj hp⟩
  · obtain ⟨node, hhead, rfl⟩ := Option.map_eq_some_iff.1 hp
    exact ⟨node, mem_of_head? hhead, rfl⟩

theorem lookup_isSome (hne : ring.nodes ≠ []) (hash : ℕ) : ∃ p, lookup ring hash = some p := by
  unfold lookup
  split
  · rename_i node _
    exact ⟨node.2, rfl⟩
  · rw [List.head?_eq_some_head hne]
    exact ⟨_, rfl⟩

theorem buildRing_nil (hash : ℕ) :
    (buildRing h vnodesPerUnit config []).map (fun ring => lookup ring hash) = .ok none := by
  have hnodes : h.sort [] = [] := (h.sort_perm []).eq_nil
  unfold buildRing intSum
  dsimp only [foldl_nil]
  rw [zero_mul, show int32 0 = 0 from rfl, if_neg (lt_irrefl _), flatMap_nil, hnodes]
  rfl

theorem buildRing_ok (hne : avail ≠ []) (hunit : 0 < vnodesPerUnit)
    (hfits : (avail.map fun p => max (config p).weight 1).sum * vnodesPerUnit ≤ kIntMax) :
    ∃ ring, buildRing h vnodesPerUnit config avail = .ok ring ∧ ring.nodes ≠ [] := by
  have hone : ∀ x ∈ avail.map fun p => max (config p).weight 1, (1 : ℤ) ≤ x := by
    intro x hx
    obtain ⟨p, -, rfl⟩ := mem_map.1 hx
    exact le_max_right _ _
  have hnonneg : ∀ x ∈ avail.map fun p => max (config p).weight 1, (0 : ℤ) ≤ x :=
    fun x hx => zero_le_one.trans (hone x hx)
  have hsum : (0 : ℤ) ≤ (avail.map fun p => max (config p).weight 1).sum := sum_nonneg hnonneg
  have htotal : int32 (intSum 1 (fun p => (config p).weight) avail * vnodesPerUnit) =
      (avail.map fun p => max (config p).weight 1).sum * vnodesPerUnit := by
    rw [intSum_eq zero_le_one (by nlinarith)]
    refine int32_of_fits ?_ hfits
    unfold kIntMin
    nlinarith
  obtain ⟨p, hp⟩ := exists_mem_of_ne_nil _ hne
  have hcount : 0 < (int32 (max (config p).weight 1 * vnodesPerUnit)).toNat := by
    have hmem : max (config p).weight 1 ∈ avail.map fun p => max (config p).weight 1 := mem_map_of_mem hp
    have hweight := hone _ hmem
    have hle := single_le_sum hnonneg _ hmem
    rw [int32_of_fits (by unfold kIntMin; nlinarith) (by nlinarith)]
    have hpos : 0 < max (config p).weight 1 * vnodesPerUnit := by positivity
    omega
  unfold buildRing
  dsimp only
  rw [htotal, if_neg (not_lt.2 (mul_nonneg hsum hunit.le))]
  refine ⟨_, rfl, ?_⟩
  dsimp only
  rw [Ne, destutter_eq_nil]
  intro hnil
  have hempty : avail.flatMap (vnodes h vnodesPerUnit config) = [] :=
    ((h.sort_perm _).symm.trans (hnil ▸ .refl _)).eq_nil
  have hp0 := flatMap_eq_nil_iff.1 hempty p hp
  rw [vnodes, map_eq_nil_iff, range_eq_nil] at hp0
  omega

/-- **A ring answers** with one of the peers it is built from. -/
theorem buildRing_answers (h : Hashing P) (hne : avail ≠ []) (hunit : 0 < vnodesPerUnit)
    (hfits : (avail.map fun p => max (config p).weight 1).sum * vnodesPerUnit ≤ kIntMax) :
    ∃ ring, buildRing h vnodesPerUnit config avail = .ok ring ∧ ∀ hash, ∃ p ∈ avail, lookup ring hash = some p := by
  obtain ⟨ring, hring, hnodes⟩ := buildRing_ok hne hunit hfits
  refine ⟨ring, hring, fun hash => ?_⟩
  obtain ⟨p, hp⟩ := lookup_isSome hnodes hash
  obtain ⟨node, hnode, rfl⟩ := lookup_mem hp
  exact ⟨node.2, buildRing_mem hring hnode, hp⟩

end ConsistentHashLB

end Coropact.Gateway
