/-
The load-balancing strategies that keep no table (`include/coropact/gateway/load_balancer.h`).

`Select` is given the peers of an upstream with their states (`PeerGroup`) and a time; it loops over the peers that are
available then. The loops filter inline, so a loop here runs over the filtered list. The random draws are inputs, any
number taken into the range the source draws from. The hash functions and `std::sort` are parameters (`Hashing`). One
call is one step.

Results, one for each strategy (`Finds`: the answer is an available peer if there is one, and none otherwise):
- `finds_nth`: round robin, random and hashing by address always find;
- `SmoothWeightedRoundRobinLB.select_finds`: finds if some available peer has a positive effective weight and the sums
  fit an `int`; `SmoothWeightedRoundRobinLB.balanced_select` keeps the running weights bounded for that;
- `LeastConnectionLB.select_finds`: finds if some available peer has fewer active requests than an `int` can count;
- `WeightedLeastConnectionLB.select_finds`, `P2CLB.select_finds`: always find; `weighted_least_exact` says which peer
  the former is;
- `WeightedRandomLB.select_finds`: finds if the weights of the available peers sum to something positive.
-/
import Coropact.Core.Balance
import Coropact.Gateway.UpstreamPeer

namespace Coropact.Gateway

open Coropact.Http List Function

/-! ## What a strategy is given -/

structure RequestContext where
  clientIp : Bytes := []
  uri : Bytes := []
  userId : Bytes := []
  sessionId : Bytes := []
deriving DecidableEq, Repr

/-- the peers of an upstream, in their order; the elements of `P` are the peer objects -/
structure PeerGroup (P : Type*) where
  peers : List P
  config : P → PeerConfig
  state : P → UpstreamPeerState

/-- the functions the strategies call: the hash functions, the second with a seed, and `std::sort` by hash -/
structure Hashing (P : Type*) where
  murmurHash3 : Bytes → ℕ
  murmurHash64 : Bytes → ℕ → ℕ
  sort : List (ℕ × P) → List (ℕ × P)
  sort_perm : ∀ nodes, (sort nodes).Perm nodes
  sort_sorted : ∀ nodes, (sort nodes).Pairwise fun a b => a.1 ≤ b.1

structure Draws where
  first : ℕ := 0
  second : ℕ := 0
deriving DecidableEq, Repr

variable {P : Type*}

-- named instances: the peers of a small group are the same numerals in every module
instance neZeroPair : NeZero 2 := ⟨by decide⟩

instance neZeroTriple : NeZero 3 := ⟨by decide⟩

namespace PeerGroup

def available (g : PeerGroup P) (nowMs : ℕ) : List P := g.peers.filter fun p =>
    (g.state p).availableAt (g.config p) nowMs

def weight (g : PeerGroup P) (p : P) : ℤ := (g.config p).weight
def effectiveWeight (g : PeerGroup P) (p : P) : ℤ := (g.state p).effectiveWeight
def activeRequest (g : PeerGroup P) (p : P) : ℤ := (g.state p).active

theorem available_sublist (g : PeerGroup P) (nowMs : ℕ) : (g.available nowMs).Sublist g.peers := filter_sublist

end PeerGroup

/-- the answer of a call over the available peers `avail` -/
def Finds (avail : List P) (answer : Option P) : Prop := if avail = [] then answer = none
    else ∃ p ∈ avail, answer = some p

theorem finds_nth (avail : List P) (k : ℕ) :
    Finds avail (if avail.length = 0 then none else avail[k % avail.length]?) := by
  unfold Finds
  split_ifs with hnil hzero hzero
  · rfl
  · exact absurd (length_eq_zero_iff.2 hnil) hzero
  · exact absurd (length_eq_zero_iff.1 hzero) hnil
  · have hlt : k % avail.length < avail.length := Nat.mod_lt k (Nat.pos_of_ne_zero hzero)
    exact ⟨avail[k % avail.length], getElem_mem hlt, List.getElem?_eq_getElem hlt⟩

/-! ## By position -/

structure RoundRobinLB where
  counter : BitVec 64 := 0
deriving DecidableEq, Repr

def RoundRobinLB.select (lb : RoundRobinLB) (g : PeerGroup P) (nowMs : ℕ) : Option P × RoundRobinLB :=
  let avail := g.available nowMs
  (if avail.length = 0 then none else avail[lb.counter.toNat % avail.length]?,
    if avail.length = 0 then lb else ⟨lb.counter + 1⟩)

def RandomLB.select (g : PeerGroup P) (nowMs : ℕ) (draws : Draws) : Option P :=
  let avail := g.available nowMs
  if avail.length = 0 then none else avail[draws.first % avail.length]?

def IPHashLB.select (h : Hashing P) (g : PeerGroup P) (nowMs : ℕ) (ctx : RequestContext) : Option P :=
  let avail := g.available nowMs
  let key := if ctx.clientIp = [] then str "0.0.0.0" else ctx.clientIp
  if avail.length = 0 then none else avail[h.murmurHash3 key % avail.length]?

/-! ## By weight -/

/-- `sum += std::max(.., least)` in a loop, in an `int` -/
def intSum (least : ℤ) (weight : P → ℤ) (l : List P) : ℤ :=
    l.foldl (fun total p => int32 (total + max (weight p) least)) 0

variable {l : List P} {nowMs : ℕ}

theorem intSum_eq {least : ℤ} {weight : P → ℤ} (hleast : 0 ≤ least)
    (hfits : (l.map fun p => max (weight p) least).sum ≤ kIntMax) :
    intSum least weight l = (l.map fun p => max (weight p) least).sum := by
  have hnonneg : ∀ l : List P, 0 ≤ (l.map fun p => max (weight p) least).sum := by
    intro l
    apply sum_nonneg
    intro x hx
    obtain ⟨p, -, rfl⟩ := mem_map.1 hx
    exact hleast.trans (le_max_right _ _)
  induction l using List.reverseRecOn with
  | nil => rfl
  | append_singleton l p ih =>
    rw [map_append, sum_append, map_singleton, sum_singleton] at hfits ⊢
    have hl := hnonneg l
    rw [intSum, foldl_append]
    change int32 (intSum least weight l + max (weight p) least) = _
    rw [ih (by omega)]
    exact int32_of_fits (by unfold kIntMin; omega) hfits

structure SmoothWeightedRoundRobinLB (P : Type*) where
  currentWeights : P → ℤ := fun _ => 0

namespace SmoothWeightedRoundRobinLB

structure Scan (P : Type*) where
  best : Option P := none
  bestWeight : ℤ := kIntMin
  currentWeights : P → ℤ

section

variable [DecidableEq P]

def visit (g : PeerGroup P) (scan : Scan P) (p : P) : Scan P :=
  let cur := int32 (scan.currentWeights p + max (g.effectiveWeight p) 0)
  let currentWeights := update scan.currentWeights p cur
  if scan.bestWeight < cur then { best := some p, bestWeight := cur, currentWeights := currentWeights }
  else { scan with currentWeights := currentWeights }

def select (lb : SmoothWeightedRoundRobinLB P) (g : PeerGroup P) (nowMs : ℕ) :
    Option P × SmoothWeightedRoundRobinLB P :=
  let avail := g.available nowMs
  let total := intSum 0 g.effectiveWeight avail
  if total ≤ 0 then (none, lb)
  else
    let scan := avail.foldl (visit g) { currentWeights := lb.currentWeights }
    match scan.best with
    | none => (none, ⟨scan.currentWeights⟩)
    | some best =>
      (some best, ⟨update scan.currentWeights best (int32 (scan.currentWeights best - total))⟩)

end

end SmoothWeightedRoundRobinLB

namespace WeightedRandomLB

/-- the second loop: `r` is what is left of the draw, `last` is `last_available` -/
def walk (weight : P → ℤ) : Option P → ℤ → List P → Option P
  | last, _, [] => last
  | _, r, p :: rest =>
    let r := int32 (r - max (weight p) 0)
    if r ≤ 0 then some p else walk weight (some p) r rest

def select (g : PeerGroup P) (nowMs : ℕ) (draws : Draws) : Option P :=
  let avail := g.available nowMs
  let totalWeight := intSum 0 g.weight avail
  if totalWeight ≤ 0 then none else walk g.weight none (1 + draws.first % totalWeight) avail

end WeightedRandomLB

/-! ## By load -/

namespace LeastConnectionLB

/-- the loop: `best` and `min_active` -/
def visit (g : PeerGroup P) (scan : Option P × ℤ) (p : P) : Option P × ℤ :=
  let active := g.activeRequest p
  if active < scan.2 then (some p, active) else scan

def select (g : PeerGroup P) (nowMs : ℕ) : Option P := ((g.available nowMs).foldl (visit g) (none, kIntMax)).1

end LeastConnectionLB

namespace WeightedLeastConnectionLB

/-- the loop: `best` and `best_weight`; the products are in 64 bits and cannot overflow -/
def visit (g : PeerGroup P) (scan : Option P × ℤ) (p : P) : Option P × ℤ :=
  let weight := max (g.weight p) 1
  match scan.1 with
  | none => (some p, weight)
  | some best => if g.activeRequest p * scan.2 < g.activeRequest best * weight then (some p, weight) else scan

def select (g : PeerGroup P) (nowMs : ℕ) : Option P := ((g.available nowMs).foldl (visit g) (none, 1)).1

end WeightedLeastConnectionLB

namespace P2CLB

def lighter (g : PeerGroup P) : Option P → Option P → Option P
  | none, peer2 => peer2
  | some peer1, none => some peer1
  | some peer1, some peer2 =>
    let w1 := max (g.weight peer1) 1
    let w2 := max (g.weight peer2) 1
    if g.activeRequest peer1 * w2 ≤ g.activeRequest peer2 * w1 then some peer1 else some peer2

def select (g : PeerGroup P) (nowMs : ℕ) (draws : Draws) : Option P :=
  let avail := g.available nowMs
  if avail.length = 0 then none
  else if avail.length = 1 then avail[0]?
  else
    let idx1 := draws.first % avail.length
    let drawn := draws.second % (avail.length - 1)
    let idx2 := if idx1 ≤ drawn then drawn + 1 else drawn
    lighter g avail[idx1]? avail[idx2]?

end P2CLB

/-! ## What they find -/

theorem Finds.of_ne_nil {avail : List P} {p : P} (hp : p ∈ avail) {answer : Option P} (h : answer = some p) :
    Finds avail answer := by
  unfold Finds
  rw [if_neg (ne_nil_of_mem hp)]
  exact ⟨p, hp, h⟩

namespace P2CLB

theorem select_finds (g : PeerGroup P) (nowMs : ℕ) (draws : Draws) :
    Finds (g.available nowMs) (select g nowMs draws) := by
  unfold select
  generalize g.available nowMs = avail
  dsimp only
  split_ifs with hzero hone hshift
  · simp [Finds, length_eq_zero_iff.1 hzero]
  all_goals
    have hpos : 0 < avail.length := Nat.pos_of_ne_zero hzero
  · exact .of_ne_nil (getElem_mem hpos) (List.getElem?_eq_getElem hpos)
  all_goals
    have h1 : draws.first % avail.length < avail.length := Nat.mod_lt _ hpos
    have h2 : draws.second % (avail.length - 1) < avail.length - 1 := Nat.mod_lt _ (by omega)
  · have h2 : draws.second % (avail.length - 1) + 1 < avail.length := by omega
    rw [List.getElem?_eq_getElem h1, List.getElem?_eq_getElem h2]
    unfold lighter
    dsimp only
    split_ifs
    · exact .of_ne_nil (getElem_mem h1) rfl
    · exact .of_ne_nil (getElem_mem h2) rfl
  · have h2 : draws.second % (avail.length - 1) < avail.length := by omega
    rw [List.getElem?_eq_getElem h1, List.getElem?_eq_getElem h2]
    unfold lighter
    dsimp only
    split_ifs
    · exact .of_ne_nil (getElem_mem h1) rfl
    · exact .of_ne_nil (getElem_mem h2) rfl

end P2CLB

namespace LeastConnectionLB

theorem foldl_visit (g : PeerGroup P) (l : List P) :
    (∃ p ∈ l, (l.foldl (visit g) (none, kIntMax)).1 = some p) ∨
      l.foldl (visit g) (none, kIntMax) = (none, kIntMax) ∧ ∀ p ∈ l, kIntMax ≤ g.activeRequest p := by
  induction l using List.reverseRecOn with
  | nil => exact .inr ⟨rfl, forall_mem_nil _⟩
  | append_singleton l p ih =>
    rw [foldl_append, foldl_cons]
    unfold visit at ih ⊢
    dsimp only
    split_ifs with hless
    · exact .inl ⟨p, mem_append_right l (mem_singleton_self p), rfl⟩
    · rcases ih with ⟨m, hm, hbest⟩ | ⟨hscan, hall⟩
      · exact .inl ⟨m, mem_append_left [p] hm, hbest⟩
      · refine .inr ⟨hscan, ?_⟩
        rw [hscan, not_lt] at hless
        exact forall_mem_append.2 ⟨hall, forall_mem_singleton.2 hless⟩

theorem select_finds {g : PeerGroup P}
    (h : g.available nowMs ≠ [] → ∃ p ∈ g.available nowMs, g.activeRequest p < kIntMax) :
    Finds (g.available nowMs) (select g nowMs) := by
  unfold select
  rcases foldl_visit g (g.available nowMs) with ⟨p, hp, hbest⟩ | ⟨hscan, hall⟩
  · exact .of_ne_nil hp hbest
  · rw [hscan]
    unfold Finds
    split_ifs with hnil
    · rfl
    · obtain ⟨p, hp, hlt⟩ := h hnil
      exact absurd hlt (not_lt.2 (hall p hp))

end LeastConnectionLB

namespace WeightedLeastConnectionLB

def load (g : PeerGroup P) (p : P) : ℚ := g.activeRequest p / (max (g.weight p) 1 : ℤ)

theorem cross_lt_iff (g : PeerGroup P) (p q : P) :
    g.activeRequest p * max (g.weight q) 1 < g.activeRequest q * max (g.weight p) 1 ↔ load g p < load g q := by
  have hpos : ∀ p, (0 : ℚ) < (max (g.weight p) 1 : ℤ) := by
    intro p
    exact_mod_cast lt_of_lt_of_le zero_lt_one (le_max_right _ _)
  rw [load, load, div_lt_div_iff₀ (hpos p) (hpos q)]
  norm_cast

theorem foldl_visit (g : PeerGroup P) (hne : l ≠ []) :
    ∃ l₁ m l₂, l = l₁ ++ m :: l₂ ∧ l.foldl (visit g) (none, 1) = (some m, max (g.weight m) 1) ∧
      (∀ q ∈ l₁, load g m < load g q) ∧ ∀ q ∈ l₂, load g m ≤ load g q := by
  induction l using List.reverseRecOn with
  | nil => exact absurd rfl hne
  | append_singleton l p ih =>
    rw [foldl_append, foldl_cons]
    rcases eq_or_ne l [] with rfl | hl
    · exact ⟨[], p, [], rfl, rfl, forall_mem_nil _, forall_mem_nil _⟩
    · obtain ⟨l₁, m, l₂, rfl, hscan, hbefore, hbehind⟩ := ih hl
      rw [hscan, visit]
      dsimp only
      split_ifs with hless
      · -- the new peer is less loaded than the best so far, and so than all
        rw [cross_lt_iff] at hless
        refine ⟨l₁ ++ m :: l₂, p, [], rfl, rfl, ?_, forall_mem_nil _⟩
        exact forall_mem_append.2 ⟨fun q hq => hless.trans (hbefore q hq),
          forall_mem_cons.2 ⟨hless, fun q hq => hless.trans_le (hbehind q hq)⟩⟩
      · rw [cross_lt_iff, not_lt] at hless
        refine ⟨l₁, m, l₂ ++ [p], by simp, rfl, hbefore, ?_⟩
        exact forall_mem_append.2 ⟨hbehind, forall_mem_singleton.2 hless⟩

theorem select_finds (g : PeerGroup P) (nowMs : ℕ) : Finds (g.available nowMs) (select g nowMs) := by
  unfold select
  rcases eq_or_ne (g.available nowMs) [] with hnil | hne
  · rw [hnil]
    rfl
  · obtain ⟨l₁, m, l₂, hl, hscan, -⟩ := foldl_visit g hne
    exact .of_ne_nil (hl ▸ mem_append_right l₁ mem_cons_self) (by rw [hscan])

/-- **The exact minimum.** The answer is the first of the available peers with the least ratio of active requests to
weight; the products that are compared fit 64 bits. -/
theorem weighted_least_exact (g : PeerGroup P) (nowMs : ℕ)
    (hactive : ∀ p ∈ g.peers, 0 ≤ g.activeRequest p ∧ g.activeRequest p ≤ kIntMax)
    (hweight : ∀ p ∈ g.peers, kIntMin ≤ g.weight p ∧ g.weight p ≤ kIntMax) :
    (∀ p ∈ g.available nowMs, ∀ q ∈ g.available nowMs,
      0 ≤ g.activeRequest p * max (g.weight q) 1 ∧ g.activeRequest p * max (g.weight q) 1 < 2 ^ 63) ∧
      (g.available nowMs = [] → select g nowMs = none) ∧
      (g.available nowMs ≠ [] → ∃ l₁ m l₂, g.available nowMs = l₁ ++ m :: l₂ ∧ select g nowMs = some m ∧
        (∀ q ∈ l₁, load g m < load g q) ∧ ∀ q ∈ l₂, load g m ≤ load g q) := by
  refine ⟨fun p hp q hq => ?_, fun hnil => by rw [select, hnil]; rfl, fun hne => ?_⟩
  · obtain ⟨hnonneg, hle⟩ := hactive p ((g.available_sublist nowMs).subset hp)
    have hone : 1 ≤ max (g.weight q) 1 := le_max_right _ _
    have hmax : max (g.weight q) 1 ≤ kIntMax := max_le (hweight q ((g.available_sublist nowMs).subset hq)).2 (by decide)
    unfold kIntMax at hle hmax
    constructor <;> nlinarith
  · obtain ⟨l₁, m, l₂, hl, hscan, hbefore, hbehind⟩ := foldl_visit g hne
    exact ⟨l₁, m, l₂, hl, by rw [select, hscan], hbefore, hbehind⟩

/-- three peers, the last two of which are the least loaded -/
def threePeers : PeerGroup (Fin 3) where
  peers := [0, 1, 2]
  config p := { name := [], host := [], port := 9000, weight := [1, 4, 2].getD p 0 }
  state p := { active := [3, 4, 2].getD p 0, effectiveWeight := 1 }

theorem weighted_least_exact_threePeers :
    ∃ l₁ m l₂, threePeers.available 0 = l₁ ++ m :: l₂ ∧ select threePeers 0 = some m ∧
      (∀ q ∈ l₁, load threePeers m < load threePeers q) ∧ ∀ q ∈ l₂, load threePeers m ≤ load threePeers q :=
  (weighted_least_exact threePeers 0 (by decide) (by decide)).2.2 (by decide)

end WeightedLeastConnectionLB

namespace WeightedRandomLB

theorem walk_some (weight : P → ℤ) (l : List P) (last : Option P) (r : ℤ) (hne : l ≠ []) :
    ∃ p ∈ l, walk weight last r l = some p := by
  induction l generalizing last r with
  | nil => exact absurd rfl hne
  | cons p rest ih =>
    rw [walk]
    split_ifs with hstop
    · exact ⟨p, mem_cons_self, rfl⟩
    · rcases eq_or_ne rest [] with rfl | hrest
      · exact ⟨p, mem_cons_self, rfl⟩
      · obtain ⟨m, hm, heq⟩ := ih (some p) _ hrest
        exact ⟨m, mem_cons_of_mem p hm, heq⟩

theorem select_finds {g : PeerGroup P} {draws : Draws}
    (h : g.available nowMs ≠ [] → 0 < intSum 0 g.weight (g.available nowMs)) :
    Finds (g.available nowMs) (select g nowMs draws) := by
  unfold select
  rcases eq_or_ne (g.available nowMs) [] with hnil | hne
  · rw [hnil]
    rfl
  · obtain ⟨p, hp, heq⟩ := walk_some g.weight (g.available nowMs) none
      (1 + draws.first % intSum 0 g.weight (g.available nowMs)) hne
    refine .of_ne_nil hp ?_
    rw [if_neg (not_le.2 (h hne)), heq]

end WeightedRandomLB

/-! ## Smooth weighted round robin -/

namespace SmoothWeightedRoundRobinLB

open Coropact.Balance

variable [DecidableEq P]

def credit (g : PeerGroup P) (nowMs : ℕ) (p : P) : ℤ := if p ∈ g.available nowMs then max (g.effectiveWeight p) 0 else 0

/-- the second loop after the peers `l`, from the running weights `x` -/
structure Scanned (g : PeerGroup P) (x : P → ℤ) (l : List P) (scan : Scan P) : Prop where
  weights : ∀ p, scan.currentWeights p = if p ∈ l then x p + max (g.effectiveWeight p) 0 else x p
  best : (l = [] ∧ scan.best = none ∧ scan.bestWeight = kIntMin) ∨
    ∃ m ∈ l, scan.best = some m ∧ scan.bestWeight = x m + max (g.effectiveWeight m) 0 ∧
      ∀ p ∈ l, x p + max (g.effectiveWeight p) 0 ≤ x m + max (g.effectiveWeight m) 0

variable {g : PeerGroup P} {x : P → ℤ}

theorem Scanned.visit {scan : Scan P} (h : Scanned g x l scan) {p : P} (hp : p ∉ l)
    (hmin : kIntMin < x p + max (g.effectiveWeight p) 0) (hmax : x p + max (g.effectiveWeight p) 0 ≤ kIntMax) :
    Scanned g x (l ++ [p]) (visit g scan p) := by
  have hcur : int32 (scan.currentWeights p + max (g.effectiveWeight p) 0) = x p + max (g.effectiveWeight p) 0 := by
    rw [h.weights, if_neg hp]
    exact int32_of_fits hmin.le hmax
  have hweights : ∀ q, update scan.currentWeights p (x p + max (g.effectiveWeight p) 0) q =
      if q ∈ l ++ [p] then x q + max (g.effectiveWeight q) 0 else x q := by
    intro q
    rcases eq_or_ne q p with rfl | hq
    · simp
    · rw [update_of_ne hq, h.weights]
      simp [hq]
  have hlast : p ∈ l ++ [p] := mem_append_right l (mem_singleton_self p)
  unfold SmoothWeightedRoundRobinLB.visit
  dsimp only
  rw [hcur]
  split_ifs with hbetter
  · refine ⟨hweights, .inr ⟨p, hlast, rfl, rfl, ?_⟩⟩
    intro q hq
    rcases mem_append.1 hq with hq | hq
    · rcases h.best with ⟨rfl, -, -⟩ | ⟨m, -, -, hbest, hall⟩
      · simp at hq
      · exact (hall q hq).trans (hbest ▸ hbetter.le)
    · rw [mem_singleton.1 hq]
  · refine ⟨hweights, .inr ?_⟩
    rcases h.best with ⟨-, -, hbest⟩ | ⟨m, hm, hsome, hbest, hall⟩
    · exact absurd (hbest ▸ hmin) hbetter
    · refine ⟨m, mem_append_left [p] hm, hsome, hbest, ?_⟩
      intro q hq
      rcases mem_append.1 hq with hq | hq
      · exact hall q hq
      · rw [mem_singleton.1 hq, ← hbest]
        exact not_lt.1 hbetter

theorem scanned_foldl (hnodup : l.Nodup)
    (hfits : ∀ p ∈ l, kIntMin < x p + max (g.effectiveWeight p) 0 ∧ x p + max (g.effectiveWeight p) 0 ≤ kIntMax) :
    Scanned g x l (l.foldl (SmoothWeightedRoundRobinLB.visit g) { currentWeights := x }) := by
  induction l using List.reverseRecOn with
  | nil => exact ⟨fun p => by simp, .inl ⟨rfl, rfl, rfl⟩⟩
  | append_singleton l p ih =>
    obtain ⟨hl, -, hdisj⟩ := nodup_append.1 hnodup
    rw [foldl_append, foldl_cons]
    have hlast : p ∈ l ++ [p] := mem_append_right l (mem_singleton_self p)
    have hp : p ∉ l := fun h => hdisj p h p (mem_singleton_self p) rfl
    exact (ih hl fun q hq => hfits q (mem_append_left [p] hq)).visit hp (hfits p hlast).1 (hfits p hlast).2

/-- the weights are small enough for the running weights of any sequence of calls: `B` bounds the sum of the effective
weights -/
structure Small (g : PeerGroup P) (B : ℤ) : Prop where
  nodup : g.peers.Nodup
  sum_le : ∑ p ∈ g.peers.toFinset, max (g.effectiveWeight p) 0 ≤ B
  fits : g.peers.length * B ≤ kIntMax

variable {B : ℤ} {lb : SmoothWeightedRoundRobinLB P}

theorem credit_nonneg (g : PeerGroup P) (nowMs : ℕ) (p : P) : 0 ≤ credit g nowMs p := by
  unfold credit
  split_ifs
  · exact le_max_right _ _
  · exact le_rfl

theorem credit_le (g : PeerGroup P) (nowMs : ℕ) (p : P) : credit g nowMs p ≤ max (g.effectiveWeight p) 0 := by
  unfold credit
  split_ifs
  · exact le_rfl
  · exact le_max_right _ _

theorem Small.sum_credit_le (h : Small g B) (nowMs : ℕ) : ∑ p ∈ g.peers.toFinset, credit g nowMs p ≤ B :=
  (Finset.sum_le_sum fun p _ => credit_le g nowMs p).trans h.sum_le

theorem Small.sum_available (h : Small g B) (nowMs : ℕ) :
    ((g.available nowMs).map fun p => max (g.effectiveWeight p) 0).sum = ∑ p ∈ g.peers.toFinset, credit g nowMs p := by
  have hsub := g.available_sublist nowMs
  rw [← sum_toFinset _ (hsub.nodup h.nodup)]
  unfold credit
  rw [← Finset.sum_filter]
  apply Finset.sum_congr
  · ext p
    simp only [mem_toFinset, Finset.mem_filter]
    exact ⟨fun hp => ⟨hsub.subset hp, hp⟩, And.right⟩
  · intro p _
    rfl

theorem Small.sum_fits (h : Small g B) (nowMs : ℕ) : ∑ p ∈ g.peers.toFinset, credit g nowMs p ≤ kIntMax := by
  have hB := h.sum_credit_le nowMs
  have hnonneg : 0 ≤ ∑ p ∈ g.peers.toFinset, credit g nowMs p := Finset.sum_nonneg fun p _ => credit_nonneg g nowMs p
  have hfits := h.fits
  rcases Nat.eq_zero_or_pos g.peers.length with hzero | hpos
  · simp [length_eq_zero_iff.1 hzero, kIntMax]
  · have hone : (1 : ℤ) ≤ g.peers.length := by exact_mod_cast hpos
    nlinarith

theorem Small.total_eq (h : Small g B) (nowMs : ℕ) :
    intSum 0 g.effectiveWeight (g.available nowMs) = ∑ p ∈ g.peers.toFinset, credit g nowMs p := by
  rw [intSum_eq le_rfl, h.sum_available]
  rw [h.sum_available]
  exact h.sum_fits nowMs

/-- **One call.** If no sum overflows, each available peer is credited and the first one that then has the most is
charged. -/
theorem select_charges (lb : SmoothWeightedRoundRobinLB P) (nowMs : ℕ) (hnodup : (g.available nowMs).Nodup)
    {total : ℤ} (hpos : 0 < total)
    (htotal : intSum 0 g.effectiveWeight (g.available nowMs) = total)
    (hfits : ∀ p ∈ g.available nowMs, kIntMin < lb.currentWeights p + credit g nowMs p ∧
      lb.currentWeights p + credit g nowMs p ≤ kIntMax)
    (hcharge : ∀ m ∈ g.available nowMs,
      (∀ p ∈ g.available nowMs, lb.currentWeights p + credit g nowMs p ≤ lb.currentWeights m + credit g nowMs m) →
      kIntMin ≤ lb.currentWeights m + credit g nowMs m - total) :
    ∃ m ∈ g.available nowMs,
      lb.select g nowMs = (some m, ⟨fun p => lb.currentWeights p + credit g nowMs p - if p = m then total else 0⟩) ∧
      ∀ p ∈ g.available nowMs, lb.currentWeights p + credit g nowMs p ≤ lb.currentWeights m + credit g nowMs m := by
  have havail : ∀ p ∈ g.available nowMs, credit g nowMs p = max (g.effectiveWeight p) 0 := fun p hp => if_pos hp
  have hscan := scanned_foldl (g := g) (x := lb.currentWeights) hnodup fun p hp => havail p hp ▸ hfits p hp
  have hne : g.available nowMs ≠ [] := by
    intro hnil
    rw [hnil] at htotal
    exact hpos.ne' htotal.symm
  obtain ⟨m, hm, hbest, -, hall⟩ := hscan.best.resolve_left fun hnil => hne hnil.1
  have hmost : ∀ p ∈ g.available nowMs,
      lb.currentWeights p + credit g nowMs p ≤ lb.currentWeights m + credit g nowMs m := by
    intro p hp
    rw [havail p hp, havail m hm]
    exact hall p hp
  have hweights : ∀ p,
    (List.foldl (visit g) { currentWeights := lb.currentWeights } (g.available nowMs)).currentWeights p =
      lb.currentWeights p + credit g nowMs p := by
    intro p
    rw [hscan.weights, credit]
    split_ifs <;> simp
  refine ⟨m, hm, ?_, hmost⟩
  unfold select
  dsimp only
  rw [htotal, if_neg (not_le.2 hpos), hbest]
  dsimp only
  have hle := (hfits m hm).2
  rw [hweights m, int32_of_fits (hcharge m hm hmost) (by omega)]
  congr 2
  funext p
  rcases eq_or_ne p m with rfl | hpm
  · simp
  · rw [update_of_ne hpm, hweights, if_neg hpm, sub_zero]

theorem Small.bounds (h : Small g B) (hx : Balanced g.peers.toFinset B lb.currentWeights) {p : P}
    (hp : p ∈ g.available nowMs) :
    kIntMin < lb.currentWeights p + credit g nowMs p ∧ lb.currentWeights p + credit g nowMs p ≤ kIntMax ∧
      kIntMin ≤ lb.currentWeights p + credit g nowMs p - ∑ q ∈ g.peers.toFinset, credit g nowMs q := by
  have hmem : p ∈ g.peers.toFinset := mem_toFinset.2 ((g.available_sublist nowMs).subset hp)
  have hcard : (g.peers.toFinset.card : ℤ) = g.peers.length := by rw [toFinset_card_of_nodup h.nodup]
  have hle := hx.le hmem
  have hge := hx.ge hmem
  rw [hcard] at hle hge
  have hB := h.sum_credit_le nowMs
  have hfits := h.fits
  have hnonneg := credit_nonneg g nowMs p
  have hcredit : credit g nowMs p ≤ ∑ q ∈ g.peers.toFinset, credit g nowMs q :=
    Finset.single_le_sum (fun q _ => credit_nonneg g nowMs q) hmem
  unfold kIntMin
  unfold kIntMax at hfits ⊢
  refine ⟨?_, ?_, ?_⟩ <;> linarith

theorem select_eq (h : Small g B) (hx : Balanced g.peers.toFinset B lb.currentWeights)
    (hpos : 0 < ∑ p ∈ g.peers.toFinset, credit g nowMs p) :
    ∃ m ∈ g.available nowMs,
      lb.select g nowMs = (some m, ⟨turn g.peers.toFinset lb.currentWeights (credit g nowMs) m⟩) ∧
      ∀ p ∈ g.available nowMs, lb.currentWeights p + credit g nowMs p ≤ lb.currentWeights m + credit g nowMs m :=
  select_charges lb nowMs ((g.available_sublist nowMs).nodup h.nodup) hpos (h.total_eq nowMs)
    (fun _ hp => ⟨(h.bounds hx hp).1, (h.bounds hx hp).2.1⟩) fun _ hm _ => (h.bounds hx hm).2.2

theorem balanced_select (h : Small g B) (hx : Balanced g.peers.toFinset B lb.currentWeights) (nowMs : ℕ) :
    Balanced g.peers.toFinset B (lb.select g nowMs).2.currentWeights := by
  rcases lt_or_ge 0 (∑ p ∈ g.peers.toFinset, credit g nowMs p) with hpos | hzero
  · obtain ⟨m, hm, heq, hall⟩ := select_eq h hx hpos
    rw [heq]
    refine hx.turn (fun p _ => credit_nonneg g nowMs p) (h.sum_credit_le nowMs)
      (mem_toFinset.2 ((g.available_sublist nowMs).subset hm)) ?_
    intro p _ hp
    refine hall p ?_
    by_contra hunavailable
    exact hp (if_neg hunavailable)
  · unfold select
    dsimp only
    rw [h.total_eq, if_pos hzero]
    exact hx

theorem select_finds (h : Small g B) (hx : Balanced g.peers.toFinset B lb.currentWeights)
    (hsome : g.available nowMs ≠ [] → ∃ p ∈ g.available nowMs, 0 < g.effectiveWeight p) :
    Finds (g.available nowMs) (lb.select g nowMs).1 := by
  rcases eq_or_ne (g.available nowMs) [] with hnil | hne
  · unfold select Finds
    simp [hnil, intSum]
  · obtain ⟨p, hp, hweight⟩ := hsome hne
    have hpos : 0 < ∑ p ∈ g.peers.toFinset, credit g nowMs p := by
      apply Finset.sum_pos' fun q _ => credit_nonneg g nowMs q
      refine ⟨p, mem_toFinset.2 ((g.available_sublist nowMs).subset hp), ?_⟩
      rw [credit, if_pos hp]
      exact lt_max_of_lt_left hweight
    obtain ⟨m, hm, heq, -⟩ := select_eq h hx hpos
    exact .of_ne_nil hm (by rw [heq])

end SmoothWeightedRoundRobinLB

end Coropact.Gateway
