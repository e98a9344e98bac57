/-
The router (`src/http/router.cc`, `include/coropact/http/router.h`).

`Add` walks down a trie, one node for each segment of the pattern, and makes the nodes that are missing; a parameter
segment leads to the one parameter child of its node. A failed registration aborts the process, so it has a text and no
router; the place in the source that the text ends with is left out. A map is given by what is found under a key.

`Match` prefers the static child, goes back to the parameter child where that leads nowhere, and stops at the first leaf
that has any handler. A leaf without a handler for the method hides a less specific pattern that has one
(`match_incomplete`).
-/
import Coropact.Http.Request
import Mathlib.Data.Set.Insert
import Mathlib.Data.List.Forall2

namespace Coropact.Http

open Option Function

/-! ## Model -/

structure PathParam where
  key : Bytes
  value : Bytes
deriving DecidableEq, Repr

structure RouteMatch (H : Type*) where
  handler : Option H := none
  params : List PathParam := []
  pathMatched : Bool := false
deriving DecidableEq

structure RouteTrieNode (H : Type*) where
  staticChild : Bytes → Option (RouteTrieNode H) := fun _ => none
  paramChild : Option (RouteTrieNode H) := none
  paramName : Bytes := []
  handlers : List (Method × H) := []

open RouteTrieNode List

/-- the loop of `SplitPath`, with the segment that has begun -/
def splitFrom (seg : Bytes) : Bytes → List Bytes
  | [] => if seg = [] then [] else [seg]
  | b :: rest =>
    if b = slash then (if seg = [] then [] else [seg]) ++ splitFrom [] rest else splitFrom (seg ++ [b]) rest

def splitPath (path : Bytes) : List Bytes := splitFrom [] (if path.head? = some slash then path.tail else path)

def isParamSegment (seg : Bytes) : Bool := seg.head? = some colon

def extractParamName (seg : Bytes) : Bytes := seg.drop 1

def routeFail {α : Type*} (reason path : Bytes) : Except Bytes α :=
  .error (str "router: " ++ reason ++ str " (path=\"" ++ path ++ str "\")")

/-- `Add` from a node on -/
def RouteTrieNode.add {H : Type*} (method : Method) (handler : H) (path : Bytes) :
    List Bytes → RouteTrieNode H → Except Bytes (RouteTrieNode H)
  | [], node =>
    if (node.handlers.lookup method).isSome
      then routeFail (str "duplicate registration for the same (method, path)") path
    else .ok { node with handlers := (method, handler) :: node.handlers }
  | seg :: rest, node =>
    if isParamSegment seg then
      if extractParamName seg = [] then routeFail (str "empty parameter name after ':'") path
      else match node.paramChild with
        | none => do
          let child ← add method handler path rest { paramName := extractParamName seg }
          .ok { node with paramChild := some child }
        | some child =>
          if child.paramName ≠ extractParamName seg then
            routeFail (str "param name conflict at same depth (existing '" ++ child.paramName ++ str "' vs new '" ++
              extractParamName seg ++ str "')") path
          else do
            let child ← add method handler path rest child
            .ok { node with paramChild := some child }
    else do
      let child ← add method handler path rest ((node.staticChild seg).getD {})
      .ok { node with staticChild := update node.staticChild seg (some child) }

structure Registration (H : Type*) where
  method : Method
  path : Bytes
  handler : Option H

abbrev Router := RouteTrieNode

def Router.addRoute {H : Type*} (root : Router H) (x : Registration H) : Except Bytes (Router H) :=
  if x.path.head? ≠ some slash then routeFail (str "path must start with '/'") x.path
  else match x.handler with
    | none => routeFail (str "handler must not be empty") x.path
    | some handler => root.add x.method handler x.path (splitPath x.path)

/-- a router with these routes, registered one after the other -/
def Router.register {H : Type*} (routes : List (Registration H)) : Except Bytes (Router H) :=
  routes.foldlM Router.addRoute {}

/-- `MatchNode`; what is found so far is passed on -/
def RouteTrieNode.matchNode {H : Type*} (method : Method) : List Bytes → RouteTrieNode H → RouteMatch H →
    Bool × RouteMatch H
  | [], node, result =>
    if node.handlers.isEmpty then (false, result)
    else (true, { result with pathMatched := true, handler := (node.handlers.lookup method).or result.handler })
  | seg :: rest, node, result =>
    let (found, result) := match node.staticChild seg with
      | some child => child.matchNode method rest result
      | none => (false, result)
    if found then (true, result)
    else match node.paramChild with
      | none => (false, result)
      | some child =>
        let saved := result.params.length
        let (found, result) :=
          child.matchNode method rest { result with params := result.params ++ [⟨child.paramName, seg⟩] }
        if found then (true, result) else (false, { result with params := result.params.take saved })

/-- `Match` -/
def Router.matchPath {H : Type*} (root : Router H) (method : Method) (path : Bytes) : RouteMatch H :=
  (root.matchNode method (splitPath path) {}).2

/-! ## Routes -/

@[ext] structure Route (H : Type*) where
  segments : List Bytes
  method : Method
  handler : H

def Matches (pattern segments : List Bytes) : Prop :=
  List.Forall₂ (fun p s => isParamSegment p = true ∨ p = s) pattern segments

/-- at the first segment in which the patterns differ, the first one has a text and the other one a parameter -/
def Specific : List Bytes → List Bytes → Prop
  | [], [] => True
  | p :: ps, q :: qs => p = q ∧ Specific ps qs ∨ isParamSegment p = false ∧ isParamSegment q = true
  | _, _ => False

theorem Specific.antisymm : ∀ {ps qs : List Bytes}, Specific ps qs → Specific qs ps → ps = qs
  | [], [], _, _ => rfl
  | p :: ps, q :: qs, h, h' => by
    rcases h with ⟨rfl, h⟩ | ⟨hp, hq⟩
    · rcases h' with ⟨-, h'⟩ | ⟨hp, hp'⟩
      · rw [h.antisymm h']
      · cases hp.symm.trans hp'
    · rcases h' with ⟨rfl, -⟩ | ⟨hq', -⟩
      · cases hp.symm.trans hq
      · cases hq.symm.trans hq'

/-- the names of a pattern, bound to the segments they stand for -/
def bindings (pattern segments : List Bytes) : List PathParam :=
  (pattern.zip segments).filterMap fun ps => if isParamSegment ps.1 then some ⟨extractParamName ps.1, ps.2⟩ else none

section Trie

variable {H : Type*} {n n' c : RouteTrieNode H} {R : Set (Route H)} {seg : Bytes} {segs rest : List Bytes}
  {method : Method}
  {handler : H} {path : Bytes}

/-- what is left of the routes that begin with a segment -/
def routesAfter (seg : Bytes) (R : Set (Route H)) : Set (Route H) := {r | { r with segments := seg :: r.segments } ∈ R}

theorem routesAfter_insert_same :
    routesAfter seg (insert ⟨seg :: rest, method, handler⟩ R) = insert ⟨rest, method, handler⟩ (routesAfter seg R) := by
  ext r
  simp [routesAfter, Set.mem_insert_iff, Route.ext_iff]

theorem routesAfter_insert_ne {seg' : Bytes} (hne : seg' ≠ seg) :
    routesAfter seg' (insert ⟨seg :: rest, method, handler⟩ R) = routesAfter seg' R := by
  ext r
  simp [routesAfter, Set.mem_insert_iff, hne]

theorem routesAfter_insert_nil : routesAfter seg (insert ⟨[], method, handler⟩ R) = routesAfter seg R := by
  ext r
  simp [routesAfter, Set.mem_insert_iff]

namespace RouteTrieNode

def child (n : RouteTrieNode H) (seg : Bytes) : Option (RouteTrieNode H) :=
  if isParamSegment seg then n.paramChild.filter fun c => c.paramName = extractParamName seg else n.staticChild seg

/-- what `Add` puts back at a segment -/
def setChild (n : RouteTrieNode H) (seg : Bytes) (c : RouteTrieNode H) : RouteTrieNode H :=
  if isParamSegment seg then { n with paramChild := some c }
  else { n with staticChild := update n.staticChild seg (some c) }

@[simp] theorem handlers_setChild (seg : Bytes) : (n.setChild seg c).handlers = n.handlers := by
  unfold setChild
  split_ifs <;> rfl

@[simp] theorem paramName_setChild (seg : Bytes) : (n.setChild seg c).paramName = n.paramName := by
  unfold setChild
  split_ifs <;> rfl

/-- the trie holds these routes, and has no node without one -/
inductive Represents : RouteTrieNode H → Set (Route H) → Prop
  | intro {n : RouteTrieNode H} {R : Set (Route H)}
    (handlers : ∀ method handler, n.handlers.lookup method = some handler ↔ ⟨[], method, handler⟩ ∈ R)
    (nonempty : ∀ seg c, n.child seg = some c → (routesAfter seg R).Nonempty)
    (children : ∀ seg c, n.child seg = some c → Represents c (routesAfter seg R))
    (absent : ∀ seg, n.child seg = none → routesAfter seg R = ∅)
    (statics : ∀ seg, isParamSegment seg = true → n.staticChild seg = none) : Represents n R

theorem represents_empty (name : Bytes) : Represents ({ paramName := name } : RouteTrieNode H) ∅ := by
  have hnone : ∀ seg, child ({ paramName := name } : RouteTrieNode H) seg = none := fun seg => by simp [child]
  refine .intro (by simp) (fun seg c h => ?_) (fun seg c h => ?_) (fun seg _ => by simp [routesAfter]) fun _ _ => rfl
  · cases (hnone seg).symm.trans h
  · cases (hnone seg).symm.trans h

theorem bind_ok_iff {ε α β : Type _} {x : Except ε α} {f : α → Except ε β} {b : β} :
    x >>= f = .ok b ↔ ∃ a, x = .ok a ∧ f a = .ok b := by
  cases x with
  | error e => exact iff_of_false nofun nofun
  | ok a => simp [bind, Except.bind]

theorem eq_cons_of_isParamSegment (h : isParamSegment seg = true) : seg = colon :: extractParamName seg := by
  cases seg with
  | nil => cases h
  | cons b seg =>
    have hb : b = colon := by simpa [isParamSegment] using h
    rw [hb]
    rfl

theorem child_param_iff (hparam : isParamSegment seg = true) :
    n.child seg = some c ↔ n.paramChild = some c ∧ c.paramName = extractParamName seg := by
  simp [child, hparam, filter_eq_some_iff]

theorem child_paramChild (h : n.paramChild = some c) : n.child (colon :: c.paramName) = some c :=
  (child_param_iff rfl).2 ⟨h, rfl⟩

/-- what `Add` does at a node that is not the last: it goes on from a child, new or not, and puts back what comes of it
-/
theorem add_cons_iff : n.add method handler path (seg :: rest) = .ok n' ↔
    seg ≠ [colon] ∧ (isParamSegment seg = true → ∀ c, n.paramChild = some c → c.paramName = extractParamName seg) ∧
    ∃ c', add method handler path rest
        ((n.child seg).getD { paramName := if isParamSegment seg then extractParamName seg else [] }) = .ok c' ∧
      n.setChild seg c' = n' := by
  rw [add]
  unfold setChild
  by_cases hparam : isParamSegment seg = true
  · have hempty : extractParamName seg = [] ↔ seg = [colon] := by
      constructor
      · intro h
        rw [eq_cons_of_isParamSegment hparam, h]
      · rintro rfl
        rfl
    rw [if_pos hparam]
    by_cases hcolon : seg = [colon]
    · rw [if_pos (hempty.2 hcolon)]
      exact iff_of_false nofun fun h => h.1 hcolon
    rw [if_neg (mt hempty.1 hcolon)]
    cases hc : n.paramChild with
    | none => simp [child, hparam, hc, hcolon, bind_ok_iff]
    | some c =>
      by_cases hname : c.paramName = extractParamName seg
      · simp [child, hparam, hc, hcolon, hname, bind_ok_iff, filter_some]
      · simp [hparam, hname, routeFail]
  · have hcolon : seg ≠ [colon] := by
      rintro rfl
      exact hparam rfl
    simp [child, hparam, hcolon, bind_ok_iff]

theorem paramName_add (h : n.add method handler path segs = .ok n') : n'.paramName = n.paramName := by
  cases segs with
  | nil =>
    rw [add] at h
    split at h
    · cases h
    · cases h
      rfl
  | cons seg rest =>
    obtain ⟨-, -, c', -, rfl⟩ := add_cons_iff.1 h
    exact paramName_setChild seg

theorem child_setChild {c' : RouteTrieNode H} (hname : isParamSegment seg = true → c'.paramName = extractParamName seg)
    (hsame : isParamSegment seg = true → ∀ c, n.paramChild = some c → c.paramName = extractParamName seg)
    (seg' : Bytes) :
    (n.setChild seg c').child seg' = if seg' = seg then some c' else n.child seg' := by
  unfold setChild
  by_cases hparam : isParamSegment seg = true
  · by_cases hparam' : isParamSegment seg' = true
    · have hiff : c'.paramName = extractParamName seg' ↔ seg' = seg := by
        rw [hname hparam]
        constructor
        · intro h
          rw [eq_cons_of_isParamSegment hparam', eq_cons_of_isParamSegment hparam, h]
        · rintro rfl
          rfl
      by_cases heq : seg' = seg
      · simp [child, hparam, heq, hname hparam]
      · have hnone : n.paramChild.filter (fun c => c.paramName = extractParamName seg') = none := by
          refine filter_eq_none_iff.2 fun c hc => ?_
          rw [hsame hparam c hc, ← hname hparam]
          simpa using mt hiff.1 heq
        simp [child, hparam, hparam', heq, mt hiff.1 heq, hnone, filter_some]
    · have heq : seg' ≠ seg := fun h => hparam' (h ▸ hparam)
      simp [child, hparam, hparam', heq]
  · by_cases hparam' : isParamSegment seg' = true
    · have heq : seg' ≠ seg := fun h => hparam (h ▸ hparam')
      simp [child, hparam, hparam', heq]
    · simp [child, hparam, hparam', update_apply]

theorem Represents.child_of_mem (h : n.Represents R) {r : Route H} (hr : r ∈ routesAfter seg R) :
    ∃ c, n.child seg = some c := by
  obtain ⟨-, -, -, absent, -⟩ := h
  by_contra hnone
  rw [absent seg (eq_none_iff_forall_ne_some.2 fun c hc => hnone ⟨c, hc⟩)] at hr
  exact absurd hr (Set.notMem_empty r)

theorem Represents.childD (h : n.Represents R) (seg : Bytes) (name : Bytes) :
    ((n.child seg).getD { paramName := name }).Represents (routesAfter seg R) := by
  obtain ⟨-, -, children, absent, -⟩ := h
  cases hc : n.child seg with
  | none =>
    rw [absent seg hc]
    exact represents_empty name
  | some c => exact children seg c hc

/-- **Registration.** The trie holds one route more. -/
theorem add_represents (h : n.Represents R) (hadd : n.add method handler path segs = .ok n') :
    n'.Represents (insert ⟨segs, method, handler⟩ R) := by
  induction segs generalizing n n' R with
  | nil =>
    obtain ⟨handlers, nonempty, children, absent, statics⟩ := h
    rw [add] at hadd
    split at hadd
    · cases hadd
    rename_i hnew
    cases hadd
    have hlookup : n.handlers.lookup method = none := not_isSome_iff_eq_none.1 hnew
    have hchild : ∀ seg, child { n with handlers := (method, handler) :: n.handlers } seg = n.child seg :=
      fun seg => rfl
    refine .intro (fun m h => ?_) ?_ ?_ ?_ statics
    · rw [lookup_cons, Set.mem_insert_iff, ← handlers, Route.mk.injEq]
      by_cases hm : m = method
      · simp [hm, hlookup, eq_comm]
      · simp [hm, beq_false_of_ne hm]
    · simpa only [hchild, routesAfter_insert_nil] using nonempty
    · simpa only [hchild, routesAfter_insert_nil] using children
    · simpa only [hchild, routesAfter_insert_nil] using absent
  | cons seg rest ih =>
    obtain ⟨-, hsame, c', hrest, rfl⟩ := add_cons_iff.1 hadd
    have hc' := ih (h.childD seg _) hrest
    obtain ⟨handlers, nonempty, children, absent, statics⟩ := h
    have hname : isParamSegment seg = true → c'.paramName = extractParamName seg := by
      intro hparam
      rw [paramName_add hrest, child, if_pos hparam, if_pos hparam]
      cases hc : n.paramChild with
      | none => rfl
      | some c => simp [Option.filter, hsame hparam c hc]
    have hchild := child_setChild hname hsame
    have hstatics : ∀ seg', isParamSegment seg' = true → (n.setChild seg c').staticChild seg' = none := by
      intro seg' hparam'
      unfold setChild
      split_ifs with hparam
      · exact statics seg' hparam'
      · have hne : seg' ≠ seg := fun h => hparam (h ▸ hparam')
        exact (update_of_ne hne ..).trans (statics seg' hparam')
    refine .intro ?_ (fun seg' c hc => ?_) (fun seg' c hc => ?_) (fun seg' hc => ?_) hstatics
    · simpa using handlers
    all_goals
      rw [hchild] at hc
      by_cases heq : seg' = seg
    · rw [heq, routesAfter_insert_same]
      exact Set.insert_nonempty _ _
    · rw [routesAfter_insert_ne heq]
      exact nonempty seg' c (by rwa [if_neg heq] at hc)
    · rw [if_pos heq, some.injEq] at hc
      rw [heq, routesAfter_insert_same, ← hc]
      exact hc'
    · rw [routesAfter_insert_ne heq]
      exact children seg' c (by rwa [if_neg heq] at hc)
    · rw [if_pos heq] at hc
      cases hc
    · rw [routesAfter_insert_ne heq]
      exact absent seg' (by rwa [if_neg heq] at hc)

/-! ## What can be registered -/

def Compatible (m m' : Method) : List Bytes → List Bytes → Prop
  | [], [] => m ≠ m'
  | p :: ps, q :: qs =>
    (isParamSegment p = true → isParamSegment q = true → p = q) ∧ (p = q → Compatible m m' ps qs)
  | _, _ => True

theorem Compatible.symm {m m' : Method} : ∀ {ps qs : List Bytes}, Compatible m m' ps qs → Compatible m' m qs ps
  | [], [], h => Ne.symm h
  | _ :: _, _ :: _, h => ⟨fun hq hp => (h.1 hp hq).symm, fun heq => (h.2 heq.symm).symm⟩
  | [], _ :: _, _ => trivial
  | _ :: _, [], _ => trivial

theorem add_ok_iff (h : n.Represents R) : (∃ n', n.add method handler path segs = .ok n') ↔
    (∀ seg ∈ segs, seg ≠ [colon]) ∧ ∀ r ∈ R, Compatible r.method method r.segments segs := by
  induction segs generalizing n R with
  | nil =>
    obtain ⟨handlers, -, -, -, -⟩ := h
    have hfree : (∃ n', n.add method handler path [] = .ok n') ↔ n.handlers.lookup method = none := by
      rw [add]
      cases n.handlers.lookup method <;> simp [routeFail]
    rw [hfree, eq_none_iff_forall_ne_some]
    constructor
    · intro hnone
      refine ⟨forall_mem_nil _, fun r hr => ?_⟩
      obtain ⟨_ | ⟨p, ps⟩, m, h⟩ := r
      · intro hm
        exact hnone h ((handlers method h).2 (hm ▸ hr))
      · trivial
    · rintro ⟨-, hcompat⟩ h hlookup
      exact hcompat _ ((handlers method h).1 hlookup) rfl
  | cons seg rest ih =>
    have hstep : (∃ n', n.add method handler path (seg :: rest) = .ok n') ↔ seg ≠ [colon] ∧
        (isParamSegment seg = true → ∀ c, n.paramChild = some c → c.paramName = extractParamName seg) ∧
        (∀ seg ∈ rest, seg ≠ [colon]) ∧ ∀ r ∈ routesAfter seg R, Compatible r.method method r.segments rest := by
      simp only [add_cons_iff, ← ih (h.childD seg (if isParamSegment seg then extractParamName seg else []))]
      simp
    rw [hstep, forall_mem_cons]
    constructor
    · rintro ⟨hcolon, hsame, hnames, hcompat⟩
      refine ⟨⟨hcolon, hnames⟩, fun r hr => ?_⟩
      obtain ⟨_ | ⟨p, ps⟩, m, handler⟩ := r
      · trivial
      refine ⟨fun hp hseg => ?_, fun heq => ?_⟩
      · obtain ⟨c, hc⟩ := h.child_of_mem (r := ⟨ps, m, handler⟩) hr
        obtain ⟨hchild, hname⟩ := (child_param_iff hp).1 hc
        rw [eq_cons_of_isParamSegment hp, eq_cons_of_isParamSegment hseg, ← hname, hsame hseg c hchild]
      · subst heq
        exact hcompat ⟨ps, m, handler⟩ hr
    · rintro ⟨⟨hcolon, hnames⟩, hcompat⟩
      refine ⟨hcolon, fun hparam c hc => ?_, hnames, fun r hr => (hcompat _ hr).2 rfl⟩
      obtain ⟨-, nonempty, -, -, -⟩ := h
      obtain ⟨r, hr⟩ := nonempty _ c (child_paramChild hc)
      have heq := (hcompat _ hr).1 rfl hparam
      rw [← heq]
      rfl

/-! ## The search -/

/-- the answer to a search: nothing, if no route matches, or what the most specific pattern that matches has for the
method -/
def Answers (R : Set (Route H)) (method : Method) (segs : List Bytes) (result : RouteMatch H)
    (x : Bool × RouteMatch H) : Prop :=
  (x = (false, result) ∧ ∀ r ∈ R, ¬Matches r.segments segs) ∨
    ∃ pattern found, x = (true, ⟨found, result.params ++ bindings pattern segs, true⟩) ∧
      (∃ r ∈ R, r.segments = pattern) ∧
      Matches pattern segs ∧ (∀ r ∈ R, Matches r.segments segs → Specific pattern r.segments) ∧
      ∀ handler, found = some handler ↔ ⟨pattern, method, handler⟩ ∈ R

/-- **The search** finds the most specific pattern that matches, or there is none. -/
theorem matchNode_spec (h : n.Represents R) (segs : List Bytes) (result : RouteMatch H)
    (hnone : result.handler = none) :
    Answers R method segs result (n.matchNode method segs result) := by
  induction segs generalizing n R result with
  | nil =>
    obtain ⟨handlers, -, -, -, -⟩ := h
    rw [matchNode]
    cases hhandlers : n.handlers with
    | nil =>
      refine .inl ⟨rfl, fun r hr hmatch => ?_⟩
      obtain ⟨segments, m, h⟩ := r
      obtain rfl := forall₂_nil_right_iff.1 hmatch
      have hlookup := (handlers m h).2 hr
      rw [hhandlers] at hlookup
      cases hlookup
    | cons mh rest =>
      have hfirst : n.handlers.lookup mh.1 = some mh.2 := by
        rw [hhandlers, lookup_cons, beq_self_eq_true]
      refine .inr ⟨[], n.handlers.lookup method, ?_, ⟨_, (handlers _ _).1 hfirst, rfl⟩, .nil, fun r _ hr => ?_,
        handlers method⟩
      · simp [hnone, hhandlers, bindings]
      · rw [forall₂_nil_right_iff.1 hr]
        trivial
  | cons seg rest ih =>
    have hmem : ∀ {seg r}, r ∈ routesAfter seg R → ∃ c, n.child seg = some c := h.child_of_mem
    obtain ⟨-, -, children, -, statics⟩ := h
    -- behind a static child that leads nowhere the parameter child is tried
    have hparam (hstatic : (match n.staticChild seg with
          | some child => child.matchNode method rest result
          | none => (false, result)) = (false, result))
        (hno : isParamSegment seg = false → ∀ r ∈ routesAfter seg R, ¬Matches r.segments rest) :
        Answers R method (seg :: rest) result (n.matchNode method (seg :: rest) result) := by
      rw [matchNode, hstatic]
      -- a route that matches begins with a parameter, that of the child
      have hbegins : ∀ r ∈ R, Matches r.segments (seg :: rest) → ∃ c ps, n.paramChild = some c ∧
          r.segments = (colon :: c.paramName) :: ps ∧ ⟨ps, r.method, r.handler⟩ ∈ routesAfter (colon :: c.paramName) R ∧
          Matches ps rest := by
        intro r hr hmatch
        obtain ⟨p, ps, hfirst, hrest, hps⟩ := forall₂_cons_right_iff.1 hmatch
        have htail : (⟨ps, r.method, r.handler⟩ : Route H) ∈ routesAfter p R := by
          rw [routesAfter, Set.mem_ofPred_eq, ← hps]
          exact hr
        by_cases hp : isParamSegment p = true
        · obtain ⟨c, hcp⟩ := hmem htail
          obtain ⟨hc, hname⟩ := (child_param_iff hp).1 hcp
          have hpc : p = colon :: c.paramName := by rw [hname, ← eq_cons_of_isParamSegment hp]
          exact ⟨c, ps, hc, by rw [hps, hpc], hpc ▸ htail, hrest⟩
        · obtain rfl := hfirst.resolve_left hp
          exact absurd hrest (hno (by simpa using hp) _ htail)
      cases hc : n.paramChild with
      | none =>
        refine .inl ⟨rfl, fun r hr hmatch => ?_⟩
        obtain ⟨c, -, hc', -⟩ := hbegins r hr hmatch
        cases hc.symm.trans hc'
      | some c =>
        rcases ih (children _ c (child_paramChild hc)) { result with params := result.params ++ [⟨c.paramName, seg⟩] }
          hnone with ⟨hfalse, hnone'⟩ | ⟨pattern, found, htrue, ⟨r, hr, hpattern⟩, hmatch, hspecific, hfound⟩
        · refine .inl ⟨by simp [hfalse], fun r hr hmatch => ?_⟩
          obtain ⟨c', ps, hc', -, htail, hrest⟩ := hbegins r hr hmatch
          obtain rfl := some.inj (hc.symm.trans hc')
          exact hnone' _ htail hrest
        · refine .inr ⟨(colon :: c.paramName) :: pattern, found, ?_, ⟨_, hr, congrArg _ hpattern⟩,
            .cons (.inl rfl) hmatch, fun r hr hmatch => ?_, hfound⟩
          · have hbindings : bindings ((colon :: c.paramName) :: pattern) (seg :: rest) =
              ⟨c.paramName, seg⟩ :: bindings pattern rest := rfl
            simp [htrue, hbindings]
          · obtain ⟨c', ps, hc', hps, htail, hrest⟩ := hbegins r hr hmatch
            obtain rfl := some.inj (hc.symm.trans hc')
            rw [hps]
            exact .inl ⟨rfl, hspecific _ htail hrest⟩
    cases hs : n.staticChild seg with
    | none =>
      refine hparam (by rw [hs]) fun hseg r hr => ?_
      obtain ⟨c, hc⟩ := hmem hr
      simp [child, hseg, hs] at hc
    | some c =>
      have hseg : isParamSegment seg = false := by
        by_contra htrue
        cases hs.symm.trans (statics seg (by simpa using htrue))
      have hc : n.child seg = some c := by simpa [child, hseg] using hs
      rcases ih (children seg c hc) result hnone with
        ⟨hfalse, hno⟩ | ⟨pattern, found, htrue, ⟨r, hr, hpattern⟩, hmatch, hspecific, hfound⟩
      · exact hparam (by rw [hs]; exact hfalse) fun _ => hno
      · refine .inr ⟨seg :: pattern, found, ?_, ⟨_, hr, congrArg _ hpattern⟩, .cons (.inr rfl) hmatch,
          fun x hx hmatch => ?_, hfound⟩
        · simp [matchNode, hs, htrue, bindings, hseg]
        · obtain ⟨p, ps, hfirst, hrest, hps⟩ := forall₂_cons_right_iff.1 hmatch
          rw [hps]
          rcases hfirst with hp | rfl
          · exact .inr ⟨hseg, hp⟩
          · refine .inl ⟨rfl, hspecific ⟨ps, x.method, x.handler⟩ ?_ hrest⟩
            rw [routesAfter, Set.mem_ofPred_eq, ← hps]
            exact hx

/-- **The answer depends on the set of the routes.** -/
theorem Answers.unique {result : RouteMatch H} {x y : Bool × RouteMatch H} (hx : Answers R method segs result x)
    (hy : Answers R method segs result y) : x = y := by
  rcases hx with ⟨rfl, hno⟩ | ⟨_, found, rfl, ⟨r, hr, rfl⟩, hmatch, hspecific, hfound⟩
  · rcases hy with ⟨rfl, -⟩ | ⟨_, _, -, ⟨r, hr, rfl⟩, hmatch, -⟩
    · rfl
    · exact absurd hmatch (hno r hr)
  · rcases hy with ⟨-, hno⟩ | ⟨_, found', rfl, ⟨r', hr', rfl⟩, hmatch', hspecific', hfound'⟩
    · exact absurd hmatch (hno r hr)
    · -- of two most specific patterns each is more specific than the other
      have hsame := (hspecific r' hr' hmatch').antisymm (hspecific' r hr hmatch)
      rw [← hsame] at hfound' ⊢
      have heq : found = found' := ext fun handler => (hfound handler).trans (hfound' handler).symm
      rw [heq]

end RouteTrieNode

end Trie

/-! ## Registered routes -/

section Register

variable {H : Type*} {root : Router H} {routes : List (Registration H)} {x y : Registration H}

def routesOf (routes : List (Registration H)) : Set (Route H) :=
  {r | ∃ x ∈ routes, splitPath x.path = r.segments ∧ x.method = r.method ∧ x.handler = some r.handler}

/-- `Add` has nothing to object to the route itself -/
structure Registration.Valid (x : Registration H) : Prop where
  path : x.path.head? = some slash
  handler : x.handler.isSome
  names : ∀ seg ∈ splitPath x.path, seg ≠ [colon]

def Registration.Compatible (x y : Registration H) : Prop :=
  RouteTrieNode.Compatible x.method y.method (splitPath x.path) (splitPath y.path)

theorem addRoute_iff {n : Router H} : root.addRoute x = .ok n ↔
    x.path.head? = some slash ∧ ∃ handler, x.handler = some handler ∧
      root.add x.method handler x.path (splitPath x.path) = .ok n := by
  rw [Router.addRoute]
  by_cases hpath : x.path.head? = some slash
  · cases hhandler : x.handler <;> simp [hpath, routeFail]
  · simp [hpath, routeFail]

theorem register_snoc : Router.register (routes ++ [x]) = Router.register routes >>= fun root => root.addRoute x := by
  simp [Router.register, foldlM_append]

theorem register_represents (h : Router.register routes = .ok root) : root.Represents (routesOf routes) := by
  induction routes using List.reverseRecOn generalizing root with
  | nil =>
    cases h
    have hempty : routesOf ([] : List (Registration H)) = ∅ := by simp [routesOf]
    rw [hempty]
    exact represents_empty []
  | append_singleton routes x ih =>
    rw [register_snoc, bind_ok_iff] at h
    obtain ⟨n, hn, hadd⟩ := h
    obtain ⟨-, handler, hhandler, hadd⟩ := addRoute_iff.1 hadd
    have hroutes : routesOf (routes ++ [x]) = insert ⟨splitPath x.path, x.method, handler⟩ (routesOf routes) := by
      ext r
      simp only [routesOf, Set.mem_ofPred_eq, Set.mem_insert_iff, mem_append, mem_singleton, or_and_right, exists_or,
        exists_eq_left, hhandler, some.injEq, Route.ext_iff]
      rw [or_comm]
      exact or_congr_left (and_congr eq_comm (and_congr eq_comm eq_comm))
    rw [hroutes]
    exact add_represents (ih hn) hadd

/-- **What can be registered**: routes that are valid, and compatible with one another. -/
theorem register_ok_iff : (∃ root, Router.register routes = .ok root) ↔
    (∀ x ∈ routes, x.Valid) ∧ routes.Pairwise Registration.Compatible := by
  induction routes using List.reverseRecOn with
  | nil => exact iff_of_true ⟨{}, rfl⟩ ⟨forall_mem_nil _, .nil⟩
  | append_singleton routes x ih =>
    constructor
    · rintro ⟨root, h⟩
      rw [register_snoc, bind_ok_iff] at h
      obtain ⟨n, hn, hadd⟩ := h
      obtain ⟨hpath, handler, hhandler, hadd⟩ := addRoute_iff.1 hadd
      obtain ⟨hvalid, hpairs⟩ := ih.1 ⟨n, hn⟩
      obtain ⟨hnames, hcompat⟩ := (add_ok_iff (register_represents hn)).1 ⟨root, hadd⟩
      have hx : x.Valid := ⟨hpath, by rw [hhandler]; rfl, hnames⟩
      refine ⟨forall_mem_append.2 ⟨hvalid, forall_mem_singleton.2 hx⟩,
        pairwise_append.2 ⟨hpairs, pairwise_singleton _ _, fun y hy z hz => ?_⟩⟩
      obtain rfl := mem_singleton.1 hz
      obtain ⟨handler', hhandler'⟩ := isSome_iff_exists.1 (hvalid y hy).handler
      exact hcompat ⟨splitPath y.path, y.method, handler'⟩ ⟨y, hy, rfl, rfl, hhandler'⟩
    · rintro ⟨hvalid, hpairs⟩
      obtain ⟨hvalid, hx⟩ := forall_mem_append.1 hvalid
      obtain ⟨hpairs, -, hcompat⟩ := pairwise_append.1 hpairs
      obtain ⟨hpath, hsome, hnames⟩ := hx x mem_cons_self
      obtain ⟨handler, hhandler⟩ := isSome_iff_exists.1 hsome
      obtain ⟨n, hn⟩ := ih.2 ⟨hvalid, hpairs⟩
      have hall : ∀ r ∈ routesOf routes, RouteTrieNode.Compatible r.method x.method r.segments (splitPath x.path) := by
        rintro r ⟨y, hy, hsegments, hmethod, -⟩
        rw [← hsegments, ← hmethod]
        exact hcompat y hy x mem_cons_self
      obtain ⟨root, hadd⟩ := (add_ok_iff (register_represents hn)).2 ⟨hnames, hall⟩
      exact ⟨root, by rw [register_snoc, hn]; exact addRoute_iff.2 ⟨hpath, handler, hhandler, hadd⟩⟩

theorem register_answers (h : Router.register routes = .ok root) (method : Method) (path : Bytes) :
    RouteTrieNode.Answers (routesOf routes) method (splitPath path) {} (root.matchNode method (splitPath path) {}) :=
  matchNode_spec (register_represents h) _ _ rfl

def PatternMatches (pattern path : Bytes) : Prop := Matches (splitPath pattern) (splitPath path)

/-- what `Match` is for: a handler whenever a route of the method matches, and else whether any route matches -/
def CompleteAt (routes : List (Registration H)) (method : Method) (path : Bytes) (result : RouteMatch H) : Prop :=
  ((∃ x ∈ routes, x.method = method ∧ PatternMatches x.path path) → result.handler.isSome) ∧
    (result.pathMatched = true → result.handler = none →
      (∃ x ∈ routes, PatternMatches x.path path) ∧ ∀ x ∈ routes, PatternMatches x.path path → x.method ≠ method)

/-- if a route of the method matches, then the most specific pattern that matches is registered for the method -/
def MethodAtMostSpecific (routes : List (Registration H)) (method : Method) (path : Bytes) : Prop :=
  (∃ x ∈ routes, x.method = method ∧ PatternMatches x.path path) →
    ∀ y ∈ routes, PatternMatches y.path path →
      (∀ z ∈ routes, PatternMatches z.path path → Specific (splitPath y.path) (splitPath z.path)) →
      ∃ z ∈ routes, splitPath z.path = splitPath y.path ∧ z.method = method

/-- **Completeness** holds for a method and a path exactly if the most specific of the patterns that match has the
method, or none of them has it. -/
theorem match_complete (h : Router.register routes = .ok root) (method : Method) (path : Bytes) :
    CompleteAt routes method path (root.matchPath method path) ↔ MethodAtMostSpecific routes method path := by
  obtain ⟨hvalid, -⟩ := register_ok_iff.1 ⟨root, h⟩
  have hhandler : ∀ x ∈ routes, ∃ handler, ⟨splitPath x.path, x.method, handler⟩ ∈ routesOf routes := by
    intro x hx
    obtain ⟨handler, hhandler⟩ := isSome_iff_exists.1 (hvalid x hx).handler
    exact ⟨handler, x, hx, rfl, rfl, hhandler⟩
  rcases register_answers h method path with
    ⟨hfalse, hno⟩ | ⟨_, found, htrue, ⟨r, ⟨y, hy, hyr, -, -⟩, rfl⟩, hmatch, hspecific, hfound⟩
  · have hnone : ∀ x ∈ routes, ¬PatternMatches x.path path := by
      intro x hx hx'
      obtain ⟨handler, hr⟩ := hhandler x hx
      exact hno _ hr hx'
    rw [Router.matchPath, hfalse]
    refine iff_of_true ⟨fun ⟨x, hx, _, hx'⟩ => absurd hx' (hnone x hx), fun hmatched => by cases hmatched⟩ ?_
    rintro ⟨x, hx, -, hx'⟩
    exact absurd hx' (hnone x hx)
  rw [Router.matchPath, htrue]
  rw [← hyr] at hmatch hfound hspecific
  have hfirst : ∀ z ∈ routes, PatternMatches z.path path → Specific (splitPath y.path) (splitPath z.path) := by
    intro z hz hz'
    obtain ⟨handler, hr⟩ := hhandler z hz
    exact hspecific _ hr hz'
  constructor
  · -- the most specific pattern is the one that was found
    rintro ⟨hsome, -⟩ hx y' hy' hmatch' hfirst'
    obtain ⟨handler, rfl⟩ := isSome_iff_exists.1 (hsome hx)
    obtain ⟨z, hz, hsegments, hmethod, -⟩ := (hfound handler).1 rfl
    exact ⟨z, hz, hsegments.trans ((hfirst y' hy' hmatch').antisymm (hfirst' y hy hmatch)), hmethod⟩
  · intro hcond
    have hsome : ∀ x ∈ routes, PatternMatches x.path path → x.method = method → ∃ handler, found = some handler := by
      intro x hx hx' hmethod
      obtain ⟨z, hz, hsame, rfl⟩ := hcond ⟨x, hx, hmethod, hx'⟩ y hy hmatch hfirst
      obtain ⟨handler, hr⟩ := hhandler z hz
      rw [hsame] at hr
      exact ⟨handler, (hfound handler).2 hr⟩
    refine ⟨fun ⟨x, hx, hmethod, hx'⟩ => ?_, fun _ hnone => ⟨⟨y, hy, hmatch⟩, fun x hx hx' hmethod => ?_⟩⟩
    · exact isSome_iff_exists.2 (hsome x hx hx' hmethod)
    · obtain ⟨handler, hhandler⟩ := hsome x hx hx' hmethod
      cases hnone.symm.trans hhandler

end Register

/-- GET /users/me has its handler at the most specific pattern, so the other one for GET is not missed -/
theorem match_complete_gets : ∃ root,
    Router.register [⟨.get, str "/users/:id", some 1⟩, ⟨.get, str "/users/me", some 2⟩] = .ok root ∧
    CompleteAt [⟨.get, str "/users/:id", some 1⟩, ⟨.get, str "/users/me", some 2⟩] .get (str "/users/me")
      (root.matchPath .get (str "/users/me")) := by
  refine ⟨_, rfl, (match_complete rfl .get (str "/users/me")).2 fun _ y hy _ _ => ⟨y, hy, rfl, ?_⟩⟩
  have hget : ∀ z ∈ [⟨.get, str "/users/:id", some 1⟩, (⟨.get, str "/users/me", some 2⟩ : Registration ℕ)],
      z.method = .get := by decide
  exact hget y hy

/-- a pattern with a parameter, and one that is hidden by it for one method -/
def userRoutes : List (Registration ℕ) :=
  [⟨.get, str "/users/:id", some 1⟩, ⟨.post, str "/users/me", some 2⟩]

/-- GET /users/:id is registered and matches, but the leaf of POST /users/me is found first -/
theorem match_incomplete : ∃ root, Router.register userRoutes = .ok root ∧
    (∃ x ∈ userRoutes, x.method = .get ∧ PatternMatches x.path (str "/users/me")) ∧
    root.matchPath .get (str "/users/me") = { pathMatched := true } := by
  refine ⟨_, rfl, ⟨_, mem_cons_self, rfl, ?_⟩, rfl⟩
  exact .cons (.inr rfl) (.cons (.inl rfl) .nil)

/-! ## Slashes -/

/-- a path with slashes repeated or added at the end -/
inductive AddsSlashes (path : Bytes) : Bytes → Prop
  | refl : AddsSlashes path path
  | repeated {l r : Bytes} : AddsSlashes path (l ++ slash :: r) → AddsSlashes path (l ++ slash :: slash :: r)
  | trailing {p : Bytes} : AddsSlashes path p → AddsSlashes path (p ++ [slash])

section Slashes

variable {H : Type*} {root : Router H} {routes routes' : List (Registration H)} {path path' : Bytes}

theorem splitPath_eq (path : Bytes) : splitPath path = splitFrom [] path := by
  rw [splitPath]
  split_ifs with hslash
  · obtain ⟨rest, rfl⟩ := List.head?_eq_some_iff.1 hslash
    simp [splitFrom]
  · rfl

theorem splitFrom_repeated (seg l r : Bytes) : splitFrom seg (l ++ slash :: slash :: r) = splitFrom seg
    (l ++ slash :: r) := by
  induction l generalizing seg with
  | nil => simp [splitFrom]
  | cons b l ih => simp only [cons_append, splitFrom, ih]

theorem splitFrom_trailing (seg p : Bytes) : splitFrom seg (p ++ [slash]) = splitFrom seg p := by
  induction p generalizing seg with
  | nil => simp [splitFrom]
  | cons b p ih => simp only [cons_append, splitFrom, ih]

theorem AddsSlashes.splitPath (h : AddsSlashes path path') : Http.splitPath path' = Http.splitPath path := by
  rw [splitPath_eq, splitPath_eq]
  induction h with
  | refl => rfl
  | repeated _ ih => rw [splitFrom_repeated, ih]
  | trailing _ ih => rw [splitFrom_trailing, ih]

theorem AddsSlashes.head (h : AddsSlashes path path') (hpath : path.head? = some slash) : path'.head? = some slash := by
  induction h with
  | refl => exact hpath
  | @repeated l r _ ih =>
    cases l with
    | nil => rfl
    | cons b l => exact ih
  | trailing _ ih =>
    rw [List.head?_append, ih]
    rfl

/-- the same route, its pattern written with more slashes -/
structure Registration.Respelt (x y : Registration H) : Prop where
  method : y.method = x.method
  handler : y.handler = x.handler
  path : AddsSlashes x.path y.path

theorem RouteTrieNode.add_respelt {method : Method} {handler : H} {segs : List Bytes} {n n' : RouteTrieNode H}
    (h : n.add method handler path segs = .ok n') : n.add method handler path' segs = .ok n' := by
  induction segs generalizing n n' with
  | nil =>
    rw [add] at h ⊢
    split_ifs at h ⊢
    · cases h
    · exact h
  | cons seg rest ih =>
    obtain ⟨hcolon, hsame, c', hadd, hn'⟩ := add_cons_iff.1 h
    exact add_cons_iff.2 ⟨hcolon, hsame, c', ih hadd, hn'⟩

theorem register_respelt (hroutes : List.Forall₂ Registration.Respelt routes routes')
    (h : Router.register routes = .ok root) :
    Router.register routes' = .ok root := by
  rw [Router.register] at h ⊢
  generalize ({} : Router H) = start at h ⊢
  induction hroutes generalizing start with
  | nil => exact h
  | @cons x y l l' hxy _ ih =>
    rw [foldlM_cons, bind_ok_iff] at h ⊢
    obtain ⟨n, hn, hrest⟩ := h
    obtain ⟨hpath, handler, hhandler, hadd⟩ := addRoute_iff.1 hn
    refine ⟨n, addRoute_iff.2 ⟨hxy.path.head hpath, handler, hxy.handler.trans hhandler, ?_⟩, ih n hrest⟩
    rw [hxy.path.splitPath, hxy.method]
    exact add_respelt hadd

/-- **Soundness.** What is found is registered, its parameters are those of the pattern, and neither the order of
registration nor further slashes make a difference. -/
theorem match_sound (h : Router.register routes = .ok root) (method : Method) (path : Bytes) :
    (∀ handler, (root.matchPath method path).handler = some handler → ∃ x ∈ routes, x.method = method ∧
      x.handler = some handler ∧ PatternMatches x.path path ∧
      (root.matchPath method path).params = bindings (splitPath x.path) (splitPath path)) ∧
    ((root.matchPath method path).pathMatched = false → root.matchPath method path = {}) ∧
    ∀ routes' respelt path', routes.Perm routes' → List.Forall₂ Registration.Respelt routes' respelt →
      AddsSlashes path path' →
      ∃ root', Router.register respelt = .ok root' ∧ root'.matchPath method path' = root.matchPath method path := by
  refine ⟨fun handler hhandler => ?_, fun hmatched => ?_, fun routes' respelt path' hperm hrespelt hpath => ?_⟩
  · rcases register_answers h method path with ⟨hfalse, -⟩ | ⟨pattern, found, htrue, -, hmatch, -, hfound⟩
    · rw [Router.matchPath, hfalse] at hhandler
      cases hhandler
    · rw [Router.matchPath, htrue] at hhandler ⊢
      obtain ⟨x, hx, hsegments, hmethod, hsome⟩ := (hfound handler).1 hhandler
      exact ⟨x, hx, hmethod, hsome, by rw [PatternMatches, hsegments]; exact hmatch, by rw [hsegments]; rfl⟩
  · rcases register_answers h method path with ⟨hfalse, -⟩ | ⟨pattern, found, htrue, -⟩
    · rw [Router.matchPath, hfalse]
    · rw [Router.matchPath, htrue] at hmatched
      cases hmatched
  · obtain ⟨hvalid, hpairs⟩ := register_ok_iff.1 ⟨root, h⟩
    have hsymm : ∀ {x y : Registration H}, x.Compatible y → y.Compatible x := RouteTrieNode.Compatible.symm
    obtain ⟨root', hroot'⟩ := register_ok_iff.2
      ⟨fun x hx => hvalid x (hperm.mem_iff.2 hx), (hperm.pairwise_iff hsymm).1 hpairs⟩
    refine ⟨root', register_respelt hrespelt hroot', ?_⟩
    have hsame : routesOf routes' = routesOf routes := by
      ext r
      simp only [routesOf, Set.mem_ofPred_eq, hperm.mem_iff]
    have hanswers := register_answers hroot' method path'
    rw [hsame, hpath.splitPath] at hanswers
    rw [Router.matchPath, Router.matchPath, hpath.splitPath, hanswers.unique (register_answers h method path)]

end Slashes

/-- the two routes registered in the other order, with more slashes -/
theorem match_sound_respelt : ∃ root root', Router.register userRoutes = .ok root ∧
    Router.register [⟨.post, str "/users/me/", some 2⟩, ⟨.get, str "/users/:id", some 1⟩] = .ok root' ∧
    root'.matchPath .get (str "/users/7/") = root.matchPath .get (str "/users/7") := by
  obtain ⟨root, hroot⟩ : ∃ root, Router.register userRoutes = .ok root := ⟨_, rfl⟩
  obtain ⟨root', hroot', hmatch⟩ := (match_sound hroot .get (str "/users/7")).2.2 _
    [⟨.post, str "/users/me/", some 2⟩, ⟨.get, str "/users/:id", some 1⟩] (str "/users/7/") (.swap _ _ [])
    (.cons ⟨rfl, rfl, .trailing .refl⟩ (.cons ⟨rfl, rfl, .refl⟩ .nil)) (.trailing .refl)
  exact ⟨root, root', hroot, hroot', hmatch⟩

end Coropact.Http
