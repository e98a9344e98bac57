/-
A pool of objects at addresses, with an account of what was acquired and released.

An address without an object is free; a released address may be acquired again for another object. An object has a `tag`
that no two objects share, whatever addresses they had, so the account is kept by tags. Every use of an object by its
address goes through `touch`, which records a fault if the address is free: that no fault is recorded is the statement
that nothing is used after it was released.

`Holds slots` says that the objects are exactly at the addresses `slots`, and that every tag acquired is at one of them
or was released, once. A component keeps the addresses it has in several places; moving one between them is a
permutation of `slots`.

- `Holds.touch`: touching addresses that are held changes nothing.
- `Holds.acquire`, `Holds.release`, `Holds.set`, `Holds.perm`: what the operations do to the addresses held.
- `Holds.count_released`: a tag was released once if no object has it, and never otherwise.
- `Next`.
-/
import Mathlib.Data.List.Perm.Basic
import Mathlib.Data.List.Nodup
import Mathlib.Logic.Function.Basic
import Mathlib.Tactic

namespace Coropact

open List Function

structure Pool (α : Type*) where
  object : ℕ → Option α := fun _ => none
  /-- the tags of the objects acquired so far, and of those released -/
  acquired : List ℕ := []
  released : List ℕ := []
  /-- an address was used while it was free -/
  fault : Bool := false

namespace Pool

variable {α : Type*} [Inhabited α]

/-- the object at an address; anything if the address is free -/
def get (P : Pool α) (p : ℕ) : α := (P.object p).getD default

def touch (P : Pool α) (ps : List ℕ) : Pool α :=
  { P with fault := P.fault || ps.any fun p => (P.object p).isNone }

def acquire (tag : α → ℕ) (P : Pool α) (p : ℕ) (x : α) : Pool α :=
  { P with object := update P.object p (some x), acquired := P.acquired ++ [tag x] }

/-- the object changes in place -/
def set (P : Pool α) (p : ℕ) (x : α) : Pool α :=
  let P := P.touch [p]
  { P with object := update P.object p (some x) }

def release (tag : α → ℕ) (P : Pool α) (p : ℕ) : Pool α :=
  let P := P.touch [p]
  { P with object := update P.object p none, released := P.released ++ [tag (P.get p)] }

@[simp] theorem get_touch (P : Pool α) (ps : List ℕ) (p : ℕ) : (P.touch ps).get p = P.get p := rfl

theorem get_of_object {P : Pool α} {p : ℕ} {x : α} (h : P.object p = some x) : P.get p = x := by
  rw [get, h, Option.getD_some]

theorem get_of_update {P Q : Pool α} {p q : ℕ} {o : Option α} (hQ : Q.object = update P.object p o)
    (hq : q ≠ p) :
    Q.get q = P.get q := by
  rw [get, hQ, update_of_ne hq, get]

omit [Inhabited α] in
theorem object_acquire (tag : α → ℕ) (P : Pool α) (p : ℕ) (x : α) : (P.acquire tag p x).object p = some x :=
  update_self ..

/-- the objects are at the addresses `slots`, and every tag acquired is at one of them or was released -/
structure Holds (tag : α → ℕ) (slots : List ℕ) (P : Pool α) : Prop where
  fault : P.fault = false
  nodup : slots.Nodup
  live : ∀ p, p ∈ slots ↔ (P.object p).isSome
  account : (slots.map (fun p => tag (P.get p)) ++ P.released).Perm P.acquired
  fresh : P.acquired.Nodup

namespace Holds

variable {tag : α → ℕ} {slots slots' : List ℕ} {P : Pool α} {p : ℕ} {x : α}

theorem empty : Holds tag [] ({} : Pool α) := ⟨rfl, nodup_nil, by simp, by simp, nodup_nil⟩

theorem perm (h : P.Holds tag slots) (hp : slots.Perm slots') : P.Holds tag slots' where
  fault := h.fault
  nodup := hp.nodup_iff.1 h.nodup
  live q := hp.mem_iff.symm.trans (h.live q)
  account := ((hp.map _).symm.append_right _).trans h.account
  fresh := h.fresh

theorem object_eq (h : P.Holds tag slots) (hp : p ∈ slots) : P.object p = some (P.get p) := by
  obtain ⟨x, hx⟩ := Option.isSome_iff_exists.1 ((h.live p).1 hp)
  rw [get_of_object hx, hx]

theorem touch (h : P.Holds tag slots) {ps : List ℕ} (hps : ∀ q ∈ ps, q ∈ slots) : P.touch ps = P := by
  have hlive : (ps.any fun q => (P.object q).isNone) = false := by
    rw [any_eq_false]
    intro q hq
    rw [h.object_eq (hps q hq)]
    simp
  rw [Pool.touch, hlive, Bool.or_false]

theorem acquire (h : P.Holds tag slots) (hp : P.object p = none) (hx : tag x ∉ P.acquired) :
    (P.acquire tag p x).Holds tag (p :: slots) := by
  have hnot : p ∉ slots := by
    rw [h.live, hp]
    simp
  have hrest : ∀ q ∈ slots, (P.acquire tag p x).get q = P.get q :=
    fun q hq => get_of_update rfl fun heq => hnot (heq ▸ hq)
  have hself : (P.acquire tag p x).get p = x := get_of_object (object_acquire tag P p x)
  refine ⟨h.fault, nodup_cons.2 ⟨hnot, h.nodup⟩, fun q => ?_, ?_, ?_⟩
  · by_cases hq : q = p
    · subst hq
      simp [Pool.acquire]
    · simp [Pool.acquire, hq, h.live q]
  · rw [map_cons, hself, map_congr_left fun q hq => congrArg tag (hrest q hq)]
    exact (h.account.cons _).trans (perm_append_singleton _ _).symm
  · exact nodup_append.2 ⟨h.fresh, nodup_singleton _, fun a ha b hb hab =>
      hx (mem_singleton.1 hb ▸ hab ▸ ha)⟩

theorem release (h : P.Holds tag (p :: slots)) : (P.release tag p).Holds tag slots := by
  have htouch : P.touch [p] = P := h.touch (by simp)
  obtain ⟨hnot, hnodup⟩ := nodup_cons.1 h.nodup
  have hrest : ∀ q ∈ slots, (P.release tag p).get q = P.get q :=
    fun q hq => get_of_update rfl fun heq => hnot (heq ▸ hq)
  refine ⟨congrArg Pool.fault htouch |>.trans h.fault, hnodup, fun q => ?_, ?_, h.fresh⟩
  · by_cases hq : q = p
    · subst hq
      simp [Pool.release, hnot]
    · have := h.live q
      simp only [mem_cons, hq, false_or] at this
      simp [Pool.release, update_of_ne hq, Pool.touch, this]
  · rw [map_congr_left fun q hq => congrArg tag (hrest q hq)]
    refine List.Perm.trans ?_ h.account
    rw [Pool.release, map_cons]
    exact (List.Perm.append_left _ (perm_append_singleton _ _)).trans perm_middle

theorem set (h : P.Holds tag slots) (hp : p ∈ slots) (hx : tag x = tag (P.get p)) : (P.set p x).Holds tag slots := by
  have htouch : P.touch [p] = P := h.touch (by simpa using hp)
  have htags : ∀ q, tag ((P.set p x).get q) = tag (P.get q) := by
    intro q
    by_cases hq : q = p
    · subst hq
      rw [get_of_object (P := P.set q x) (update_self ..), hx]
    · rw [get_of_update (P := P.touch [p]) rfl hq, get_touch]
  refine ⟨congrArg Pool.fault htouch |>.trans h.fault, h.nodup, fun q => ?_, ?_, h.fresh⟩
  · by_cases hq : q = p
    · subst hq
      simp [Pool.set, hp]
    · simp [Pool.set, update_of_ne hq, Pool.touch, h.live q]
  · rw [map_congr_left fun q _ => htags q]
    exact h.account

theorem tag_mem (h : P.Holds tag slots) (hp : p ∈ slots) : tag (P.get p) ∈ P.acquired ∧ tag (P.get p) ∉ P.released := by
  have hmem : tag (P.get p) ∈ slots.map fun q => tag (P.get q) := mem_map_of_mem hp
  refine ⟨h.account.subset (mem_append_left _ hmem), fun hrel => ?_⟩
  exact (nodup_append.1 (h.account.nodup_iff.2 h.fresh)).2.2 _ hmem _ hrel rfl

theorem held_or_released (h : P.Holds tag slots) {k : ℕ} (hk : k ∈ P.acquired) :
    (∃ p ∈ slots, tag (P.get p) = k) ∨ k ∈ P.released := by
  rcases mem_append.1 (h.account.mem_iff.2 hk) with hheld | hrel
  · exact .inl (mem_map.1 hheld)
  · exact .inr hrel

/-- **Released once.** A tag that was acquired was released once if no object has it any more, and never otherwise. -/
theorem count_released (h : P.Holds tag slots) {k : ℕ} (hk : k ∈ P.acquired) :
    ((∃ p ∈ slots, tag (P.get p) = k) ∧ P.released.count k = 0) ∨
    ((∀ p ∈ slots, tag (P.get p) ≠ k) ∧ P.released.count k = 1) := by
  by_cases hheld : ∃ p ∈ slots, tag (P.get p) = k
  · obtain ⟨p, hp, rfl⟩ := hheld
    exact .inl ⟨⟨p, hp, rfl⟩, count_eq_zero.2 (h.tag_mem hp).2⟩
  · refine .inr ⟨fun p hp heq => hheld ⟨p, hp, heq⟩, ?_⟩
    have hnodup := (nodup_append.1 (h.account.nodup_iff.2 h.fresh)).2.1
    exact count_eq_one_of_mem hnodup ((h.held_or_released hk).resolve_left hheld)

end Holds

/-! ## One operation later -/

/-- an object is still at its address, or its tag was released and the address is free -/
structure Next (tag : α → ℕ) (P Q : Pool α) : Prop where
  acquired : P.acquired ⊆ Q.acquired
  released : P.released ⊆ Q.released
  object : ∀ p x, P.object p = some x →
    (∃ y, Q.object p = some y ∧ tag y = tag x) ∨ (tag x ∈ Q.released ∧ Q.object p = none)

namespace Next

variable {tag : α → ℕ} {P : Pool α} {p : ℕ} {x : α}

omit [Inhabited α] in
theorem refl (P : Pool α) : Next tag P P := ⟨fun _ => id, fun _ => id, fun _ x hx => .inl ⟨x, hx, rfl⟩⟩

omit [Inhabited α] in
theorem acquire (hp : P.object p = none) (x : α) : Next tag P (P.acquire tag p x) := by
  refine ⟨subset_append_left _ _, fun _ => id, fun q y hy => .inl ⟨y, ?_, rfl⟩⟩
  have hq : q ≠ p := fun heq => by rw [heq, hp] at hy; cases hy
  exact (update_of_ne hq ..).trans hy

theorem release (P : Pool α) (p : ℕ) : Next tag P (P.release tag p) := by
  refine ⟨fun _ => id, subset_append_left _ _, fun q y hy => ?_⟩
  by_cases hq : q = p
  · subst hq
    refine .inr ⟨mem_append_right _ ?_, update_self ..⟩
    rw [get_touch, get_of_object hy]
    exact mem_singleton_self _
  · exact .inl ⟨y, (update_of_ne hq ..).trans hy, rfl⟩

theorem set (hx : tag x = tag (P.get p)) : Next tag P (P.set p x) := by
  refine ⟨fun _ => id, fun _ => id, fun q y hy => .inl ?_⟩
  by_cases hq : q = p
  · subst hq
    exact ⟨x, update_self .., by rw [hx, get_of_object hy]⟩
  · exact ⟨y, (update_of_ne hq ..).trans hy, rfl⟩

end Next

end Pool

end Coropact
