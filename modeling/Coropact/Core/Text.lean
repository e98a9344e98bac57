/-
Searching and cutting sequences, over an arbitrary alphabet.

- `find pat s`: position of the first occurrence of `pat` in `s`. `find_eq_some_iff` and `find_eq_none_iff` say what it
  returns; `find_prefix_some` and `find_prefix_none` what a search in a prefix of `s` returns, which is what a reader
  that searches a growing buffer needs.
- `PairFree a b l`: the pair `a b` does not occur in `l`.
- `splitPair a b`: cut at each occurrence of the pair; `joinPair` puts the pair between the pieces. The two are
  inverse (`splitPair_joinPair`, `joinPair_splitPair`) on pair-free pieces.
- `terminated c`: the pieces that are ended by `c`; what follows the last `c` is dropped.
- `cutAt c`: the text before and the text after the first `c`.
- `find_joinPair`.
-/
import Mathlib.Tactic

namespace Coropact.Text

open List Option

variable {α : Type*}

variable {s l pat : List α} {a b c : α} {ls : List (List α)} {i : ℕ}

section

variable [DecidableEq α]

/-! ## First occurrence -/

/-- position of the first occurrence of `pat` -/
def find (pat : List α) : List α → Option ℕ
  | [] => if pat = [] then some 0 else none
  | x :: xs => if pat <+: x :: xs then some 0 else (find pat xs).map (· + 1)

theorem find_eq_some_iff (hpat : pat ≠ []) (s : List α) (i : ℕ) :
    find pat s = some i ↔ pat <+: s.drop i ∧ ∀ j < i, ¬ pat <+: s.drop j := by
  induction s generalizing i with
  | nil => simp [find, hpat]
  | cons x xs ih =>
    unfold find
    split_ifs with h
    · constructor
      · intro hi
        simp only [some.injEq] at hi
        subst hi
        exact ⟨h, fun j hj => absurd hj (Nat.not_lt_zero j)⟩
      · rintro ⟨-, hmin⟩
        rcases Nat.eq_zero_or_pos i with rfl | hi
        · rfl
        · exact absurd h (hmin 0 hi)
    · cases i with
      | zero => simp [h]
      | succ i =>
        rw [map_eq_some_iff]
        constructor
        · rintro ⟨k, hk, hki⟩
          obtain rfl : k = i := by omega
          obtain ⟨h1, h2⟩ := (ih k).1 hk
          refine ⟨h1, fun j hj => ?_⟩
          cases j with
          | zero => exact h
          | succ j => exact h2 j (by omega)
        · rintro ⟨h1, h2⟩
          exact ⟨i, (ih i).2 ⟨h1, fun j hj => h2 (j + 1) (by omega)⟩, rfl⟩

theorem find_eq_none_iff (hpat : pat ≠ []) (s : List α) :
    find pat s = none ↔ ∀ j, ¬ pat <+: s.drop j := by
  constructor
  · intro h j hj
    have hex : ∃ j, pat <+: s.drop j := ⟨j, hj⟩
    have := (find_eq_some_iff hpat s (Nat.find hex)).2 ⟨Nat.find_spec hex, fun k hk => Nat.find_min hex hk⟩
    rw [h] at this
    exact absurd this (by simp)
  · intro h
    cases hf : find pat s with
    | none => rfl
    | some i => exact absurd ((find_eq_some_iff hpat s i).1 hf).1 (h i)

theorem find_length_le (hpat : pat ≠ []) (h : find pat s = some i) :
    i + pat.length ≤ s.length := by
  have hp := ((find_eq_some_iff hpat s i).1 h).1.length_le
  have hpos := length_pos_of_ne_nil hpat
  rw [length_drop] at hp
  omega

theorem find_split (hpat : pat ≠ []) (h : find pat s = some i) :
    s = s.take i ++ pat ++ s.drop (i + pat.length) := by
  obtain ⟨t, ht⟩ := ((find_eq_some_iff hpat s i).1 h).1
  have hd : s.drop (i + pat.length) = t := by
    rw [← drop_drop, ← ht, drop_left]
  rw [hd, append_assoc, ht, take_append_drop]

variable {p : List α}

omit [DecidableEq α] in
theorem isPrefix_drop_of_isPrefix (hp : p <+: s) (j : ℕ) (h : pat <+: p.drop j) :
    pat <+: s.drop j := by
  obtain ⟨r, rfl⟩ := hp
  rcases Nat.le_total j p.length with hj | hj
  · rw [drop_append_of_le_length hj]
    exact h.trans (prefix_append _ _)
  · rw [drop_eq_nil_of_le hj, prefix_nil] at h
    exact h ▸ nil_prefix

theorem find_append_some (hpat : pat ≠ []) (h : find pat s = some i) (t : List α) : find pat (s ++ t) = some i := by
  have hlen := find_length_le hpat h
  obtain ⟨hi, hfirst⟩ := (find_eq_some_iff hpat s i).1 h
  refine (find_eq_some_iff hpat _ i).2 ⟨isPrefix_drop_of_isPrefix (List.prefix_append s t) i hi, fun j hj hpre => ?_⟩
  refine hfirst j hj ?_
  rw [drop_append_of_le_length (by omega)] at hpre
  refine prefix_of_prefix_length_le hpre (List.prefix_append _ t) ?_
  rw [length_drop]
  omega

theorem find_prefix_some (hpat : pat ≠ []) (hp : p <+: s) (h : find pat s = some i) (hlen : i + pat.length ≤ p.length) :
    find pat p = some i := by
  obtain ⟨h1, h2⟩ := (find_eq_some_iff hpat s i).1 h
  refine (find_eq_some_iff hpat p i).2 ⟨?_, fun j hj hc => h2 j hj (isPrefix_drop_of_isPrefix hp j hc)⟩
  obtain ⟨r, rfl⟩ := hp
  rw [drop_append_of_le_length (by omega)] at h1
  exact prefix_of_prefix_length_le h1 (prefix_append _ _) (by rw [length_drop]; omega)

theorem find_prefix_none (hpat : pat ≠ []) (hp : p <+: s) (h : find pat s = some i) (hlen : p.length < i + pat.length) :
    find pat p = none := by
  refine (find_eq_none_iff hpat p).2 fun j hj => ?_
  obtain ⟨-, h2⟩ := (find_eq_some_iff hpat s i).1 h
  have hji : i ≤ j := by
    by_contra hc
    exact h2 j (by omega) (isPrefix_drop_of_isPrefix hp j hj)
  have := hj.length_le
  have hpos := length_pos_of_ne_nil hpat
  rw [length_drop] at this
  omega

end

/-! ## Cutting at a pair -/

/-- the pair `a b` does not occur -/
def PairFree (a b : α) (l : List α) : Prop := ¬ [a, b] <:+: l

instance [DecidableEq α] (a b : α) (l : List α) : Decidable (PairFree a b l) := inferInstanceAs (Decidable (¬ _))

theorem pairFree_nil (a b : α) : PairFree a b [] := by simp [PairFree]

theorem PairFree.of_isInfix {l' : List α} (h : PairFree a b l) (hl : l' <:+: l) : PairFree a b l' :=
  fun h' => h (h'.trans hl)

theorem pairFree_cons {x : α} :
    PairFree a b (x :: l) ↔ ¬ [a, b] <+: x :: l ∧ PairFree a b l := by
  simp only [PairFree, infix_cons_iff, not_or]

/-- a symbol of which neither the pair's first nor its second separates two pair-free texts -/
theorem pairFree_append_cons {x : α} (hxa : x ≠ a) (hxb : x ≠ b) {l₁ l₂ : List α} (h₁ : PairFree a b l₁)
    (h₂ : PairFree a b l₂) : PairFree a b (l₁ ++ x :: l₂) := by
  induction l₁ with
  | nil =>
    refine pairFree_cons.2 ⟨fun h => ?_, h₂⟩
    rw [cons_prefix_cons] at h
    exact hxa h.1.symm
  | cons y l ih =>
    obtain ⟨hy, hl⟩ := pairFree_cons.1 h₁
    refine pairFree_cons.2 ⟨fun h => hy ?_, ih hl⟩
    obtain ⟨hya, h⟩ := cons_prefix_cons.1 h
    refine cons_prefix_cons.2 ⟨hya, ?_⟩
    cases l with
    | nil => exact absurd (cons_prefix_cons.1 h).1.symm hxb
    | cons z l => exact cons_prefix_cons.2 ⟨(cons_prefix_cons.1 h).1, nil_prefix⟩

theorem pairFree_of_not_mem (h : a ∉ l ∨ b ∉ l) : PairFree a b l := by
  intro hi
  have ha : a ∈ l := hi.subset (by simp)
  have hb : b ∈ l := hi.subset (by simp)
  tauto

/-- the pair `a b` between any two pieces -/
def joinPair (a b : α) : List (List α) → List α
  | [] => []
  | [l] => l
  | l :: ls => l ++ a :: b :: joinPair a b ls

theorem joinPair_cons_cons (a b : α) (l l' : List α) (ls : List (List α)) :
    joinPair a b (l :: l' :: ls) = l ++ a :: b :: joinPair a b (l' :: ls) := rfl

theorem flatten_map_append_pair (a b : α) (h : ls ≠ []) :
    (ls.map (· ++ [a, b])).flatten = joinPair a b ls ++ [a, b] := by
  induction ls with
  | nil => exact absurd rfl h
  | cons l ls ih =>
    cases ls with
    | nil => simp [joinPair]
    | cons l' ls =>
      rw [map_cons, flatten_cons, ih (by simp), joinPair_cons_cons]
      simp

variable [DecidableEq α]

/-- the pieces between the occurrences of the pair `a b` -/
def splitPair (a b : α) : List α → List (List α)
  | [] => [[]]
  | [x] => [[x]]
  | x :: y :: s =>
    if x = a ∧ y = b then [] :: splitPair a b s
    else
      match splitPair a b (y :: s) with
      | [] => [[x]]
      | l :: ls => (x :: l) :: ls

theorem splitPair_ne_nil (a b : α) (s : List α) : splitPair a b s ≠ [] := by
  fun_cases splitPair a b s with
  | case1 => simp
  | case2 => simp
  | case3 => simp
  | case4 => simp
  | case5 x y s h l ls hl => simp

theorem joinPair_splitPair (a b : α) (s : List α) : joinPair a b (splitPair a b s) = s := by
  fun_induction splitPair a b s with
  | case1 => rfl
  | case2 => rfl
  | case3 x y s h ih =>
    obtain ⟨l, ls, hl⟩ := exists_cons_of_ne_nil (splitPair_ne_nil a b s)
    rw [hl, joinPair_cons_cons, ← hl, ih, h.1, h.2]
    rfl
  | case4 x y s h hnil => exact absurd hnil (splitPair_ne_nil a b _)
  | case5 x y s h l ls hl ih =>
    rw [hl] at ih
    cases ls with
    | nil => simpa [joinPair] using ih
    | cons l' ls =>
      rw [joinPair_cons_cons] at ih ⊢
      rw [cons_append, ih]

theorem splitPair_pairFree (a b : α) (s : List α) : ∀ l ∈ splitPair a b s, PairFree a b l := by
  fun_induction splitPair a b s with
  | case1 => simp [pairFree_nil]
  | case2 x => simp [PairFree, infix_cons_iff]
  | case3 x y s h ih =>
    intro l hl
    rcases mem_cons.1 hl with rfl | hl
    · exact pairFree_nil a b
    · exact ih l hl
  | case4 x y s h hnil => exact absurd hnil (splitPair_ne_nil a b _)
  | case5 x y s h l ls hl ih =>
    intro m hm
    rcases mem_cons.1 hm with rfl | hm
    · refine pairFree_cons.2 ⟨fun hp => h ?_, ih l (by simp [hl])⟩
      rw [cons_prefix_cons] at hp
      refine ⟨hp.1.symm, ?_⟩
      -- the first piece of a text that starts with `y` is empty or starts with `y`
      cases l with
      | nil => simp at hp
      | cons z l =>
        have hz : z = b := (cons_prefix_cons.1 hp.2).1.symm
        have hj := joinPair_splitPair a b (y :: s)
        rw [hl] at hj
        cases ls with
        | nil =>
          simp only [joinPair, List.cons.injEq] at hj
          rw [← hj.1, hz]
        | cons l' ls =>
          rw [joinPair_cons_cons, cons_append, List.cons.injEq] at hj
          rw [← hj.1, hz]
    · exact ih m (by simp [hl, hm])

theorem splitPair_of_pairFree (h : PairFree a b l) : splitPair a b l = [l] := by
  fun_induction splitPair a b l with
  | case1 => rfl
  | case2 => rfl
  | case3 x y s hxy => exact absurd ⟨[], s, by rw [hxy.1, hxy.2]; rfl⟩ h
  | case4 x y s hxy hnil => exact absurd hnil (splitPair_ne_nil a b _)
  | case5 x y s hxy l ls hl ih =>
    rw [ih (pairFree_cons.1 h).2] at hl
    simp only [List.cons.injEq] at hl
    rw [← hl.1, ← hl.2]

theorem splitPair_append (hab : a ≠ b) (h : PairFree a b l) (s : List α) :
    splitPair a b (l ++ a :: b :: s) = l :: splitPair a b s := by
  induction l with
  | nil => simp [splitPair]
  | cons x l ih =>
    obtain ⟨hx, hl⟩ := pairFree_cons.1 h
    cases l with
    | nil =>
      have hne : ¬ (x = a ∧ a = b) := fun hc => hab hc.2
      have ih := ih hl
      rw [nil_append] at ih
      rw [cons_append, nil_append, splitPair, if_neg hne, ih]
    | cons y l =>
      have hne : ¬ (x = a ∧ y = b) := by
        rintro ⟨rfl, rfl⟩
        exact hx ⟨l, rfl⟩
      simp only [cons_append] at ih ⊢
      rw [splitPair, if_neg hne, ih hl]

theorem splitPair_joinPair (hab : a ≠ b) (hne : ls ≠ []) (h : ∀ l ∈ ls, PairFree a b l) :
    splitPair a b (joinPair a b ls) = ls := by
  induction ls with
  | nil => exact absurd rfl hne
  | cons l ls ih =>
    cases ls with
    | nil => exact splitPair_of_pairFree (h l (by simp))
    | cons l' ls =>
      rw [joinPair_cons_cons, splitPair_append hab (h l (by simp)),
        ih (by simp) fun m hm => h m (mem_cons_of_mem _ hm)]

/-! ## Searching for the pair and for the doubled pair -/

/-- a pattern that begins with the pair is not found inside a pair-free text that is followed by `a` -/
theorem find_skip (hab : a ≠ b) (pat : List α) (h : PairFree a b l) (s : List α) :
    find (a :: b :: pat) (l ++ a :: s) = (find (a :: b :: pat) (a :: s)).map (· + l.length) := by
  induction l with
  | nil => simp
  | cons x l ih =>
    obtain ⟨hx, hl⟩ := pairFree_cons.1 h
    have hno : ¬ a :: b :: pat <+: x :: (l ++ a :: s) := by
      intro hp
      rw [cons_prefix_cons] at hp
      cases l with
      | nil => exact hab (cons_prefix_cons.1 hp.2).1.symm
      | cons y l =>
        refine hx (cons_prefix_cons.2 ⟨hp.1, cons_prefix_cons.2 ⟨?_, nil_prefix⟩⟩)
        exact (cons_prefix_cons.1 hp.2).1
    rw [cons_append, find, if_neg hno, ih hl, Option.map_map]
    congr 1

theorem find_pair (hab : a ≠ b) (h : PairFree a b l) (s : List α) :
    find [a, b] (l ++ a :: b :: s) = some l.length := by
  rw [find_skip hab [] h]
  have hp : [a, b] <+: a :: b :: s := ⟨s, rfl⟩
  simp [find, hp]

theorem find_pair_pairFree (h : find [a, b] s = some i) :
    PairFree a b (s.take i) := by
  intro ⟨u, v, huv⟩
  have hmin := ((find_eq_some_iff (by simp) s i).1 h).2
  have hlen := congrArg List.length huv
  have hi := find_length_le (by simp) h
  simp only [length_append, length_cons, length_take] at hlen hi
  refine hmin u.length (by omega) ?_
  refine isPrefix_drop_of_isPrefix (List.take_prefix i s) _ ?_
  rw [← huv, append_assoc, drop_left]
  exact prefix_append _ _

/-- **End of a head.** Pair-free pieces, non-empty from the second on, have their first doubled pair where they end. -/
theorem find_joinPair (hab : a ≠ b) (l : List α) (ls : List (List α)) (hl : PairFree a b l)
    (h : ∀ m ∈ ls, PairFree a b m ∧ m ≠ []) (s : List α) :
    find [a, b, a, b] (joinPair a b (l :: ls) ++ a :: b :: a :: b :: s) = some (joinPair a b (l :: ls)).length := by
  induction ls generalizing l with
  | nil =>
    have hp : [a, b, a, b] <+: a :: b :: a :: b :: s := ⟨s, rfl⟩
    rw [joinPair, find_skip hab [a, b] hl]
    simp [find, hp]
  | cons m ls ih =>
    obtain ⟨hm, hmne⟩ := h m (by simp)
    rw [joinPair_cons_cons, append_assoc, cons_append, cons_append, find_skip hab [a, b] hl]
    -- the pair after `l` is followed by the non-empty pair-free `m`, so no doubled pair starts there
    have hno : ¬ [a, b, a, b] <+: a :: b :: (joinPair a b (m :: ls) ++ a :: b :: a :: b :: s) := by
      intro hp
      have hp := (cons_prefix_cons.1 (cons_prefix_cons.1 hp).2).2
      obtain ⟨x, m', rfl⟩ := exists_cons_of_ne_nil hmne
      have hjoin : ∃ r, joinPair a b ((x :: m') :: ls) ++ a :: b :: a :: b :: s = x :: m' ++ a :: r := by
        cases ls with
        | nil => exact ⟨_, rfl⟩
        | cons l' ls => exact ⟨_, by rw [joinPair_cons_cons, append_assoc]; rfl⟩
      obtain ⟨r, hr⟩ := hjoin
      rw [hr, cons_append, cons_prefix_cons] at hp
      cases m' with
      | nil => exact hab (cons_prefix_cons.1 hp.2).1.symm
      | cons y m' =>
        refine (pairFree_cons.1 hm).1 (cons_prefix_cons.2 ⟨hp.1, cons_prefix_cons.2 ⟨?_, nil_prefix⟩⟩)
        exact (cons_prefix_cons.1 hp.2).1
    have hno' : ¬ [a, b, a, b] <+: b :: (joinPair a b (m :: ls) ++ a :: b :: a :: b :: s) :=
      fun hp => hab (cons_prefix_cons.1 hp).1
    rw [find, if_neg hno, find, if_neg hno', ih m hm fun k hk => h k (mem_cons_of_mem _ hk)]
    simp only [map_some, length_append, length_cons]
    congr 1
    omega

/-! ## Pieces ended by a symbol -/

/-- the pieces ended by `c`; what follows the last `c` is dropped -/
def terminated (c : α) : List α → List (List α)
  | [] => []
  | x :: xs =>
    if x = c then [] :: terminated c xs
    else
      match terminated c xs with
      | [] => []
      | l :: ls => (x :: l) :: ls

theorem terminated_append (h : c ∉ l) (s : List α) :
    terminated c (l ++ c :: s) = l :: terminated c s := by
  induction l with
  | nil => simp [terminated]
  | cons x l ih =>
    simp only [mem_cons, not_or] at h
    rw [cons_append, terminated, if_neg (Ne.symm h.1), ih h.2]

/-- the pieces between the occurrences of `c` -/
def pieces (c : α) : List α → List (List α)
  | [] => [[]]
  | x :: xs =>
    if x = c then [] :: pieces c xs
    else
      match pieces c xs with
      | [] => [[x]]
      | l :: ls => (x :: l) :: ls

theorem pieces_of_not_mem (h : c ∉ s) : pieces c s = [s] := by
  induction s with
  | nil => rfl
  | cons x s ih =>
    simp only [mem_cons, not_or] at h
    rw [pieces, if_neg (Ne.symm h.1), ih h.2]

theorem pieces_isInfix (h : pieces c s = l :: ls) :
    l <+: s ∧ ∀ m ∈ ls, m <:+: s := by
  induction s generalizing l ls with
  | nil =>
    obtain ⟨rfl, rfl⟩ := h
    exact ⟨prefix_rfl, by simp⟩
  | cons x s ih =>
    rw [pieces] at h
    split_ifs at h with hx
    · simp only [List.cons.injEq] at h
      obtain ⟨rfl, rfl⟩ := h
      refine ⟨List.nil_prefix, fun m hm => ?_⟩
      cases hp : pieces c s with
      | nil => rw [hp] at hm; simp at hm
      | cons l' ls' =>
        obtain ⟨h1, h2⟩ := ih hp
        rw [hp] at hm
        rcases mem_cons.1 hm with rfl | hm
        · exact infix_cons h1.isInfix
        · exact infix_cons (h2 m hm)
    · cases hp : pieces c s with
      | nil =>
        rw [hp] at h
        obtain ⟨rfl, rfl⟩ := h
        exact ⟨by simp, by simp⟩
      | cons l' ls' =>
        rw [hp] at h
        obtain ⟨rfl, rfl⟩ := h
        obtain ⟨h1, h2⟩ := ih hp
        exact ⟨cons_prefix_cons.2 ⟨rfl, h1⟩, fun m hm => infix_cons (h2 m hm)⟩

theorem isInfix_of_mem_pieces (h : l ∈ pieces c s) : l <:+: s := by
  cases hp : pieces c s with
  | nil => rw [hp] at h; simp at h
  | cons l' ls =>
    obtain ⟨h1, h2⟩ := pieces_isInfix hp
    rw [hp] at h
    rcases mem_cons.1 h with rfl | h
    · exact h1.isInfix
    · exact h2 l h

theorem find_isSome_iff (hpat : pat ≠ []) : (find pat s).isSome = true ↔ pat <:+: s := by
  constructor
  · intro h
    obtain ⟨i, hi⟩ := isSome_iff_exists.1 h
    exact ((find_eq_some_iff hpat s i).1 hi).1.isInfix.trans (drop_suffix i s).isInfix
  · intro h
    rw [isSome_iff_ne_none]
    intro hnone
    obtain ⟨l, r, rfl⟩ := h
    refine (find_eq_none_iff hpat _).1 hnone l.length ?_
    rw [append_assoc, drop_left]
    exact prefix_append _ _

omit [DecidableEq α] in
/-- what has nothing in common with the end of a text is found in front of it -/
theorem isInfix_of_append {r : List α} (hpat : pat ≠ []) (hdisj : ∀ x ∈ pat, x ∉ r) (h : pat <:+: s ++ r) :
    pat <:+: s := by
  obtain ⟨l, l', h⟩ := h
  rcases append_eq_append_iff.1 h with ⟨as, rfl, -⟩ | ⟨bs, hs, rfl⟩
  · exact ⟨l, as, rfl⟩
  rcases eq_nil_or_concat bs with rfl | ⟨cs, c, rfl⟩
  · exact ⟨l, [], by simpa using hs⟩
  · obtain ⟨p, x, rfl⟩ := (eq_nil_or_concat pat).resolve_left hpat
    have hlast := congrArg getLast? hs
    simp only [concat_eq_append, ← append_assoc, getLast?_concat, some.injEq] at hlast
    exact absurd (by simp [hlast]) (hdisj x (by simp))

/-! ## Cutting once -/

/-- the text before and the text after the first `c` -/
def cutAt (c : α) : List α → Option (List α × List α)
  | [] => none
  | x :: xs => if x = c then some ([], xs) else (cutAt c xs).map fun r => (x :: r.1, r.2)

theorem cutAt_append (h : c ∉ l) (s : List α) : cutAt c (l ++ c :: s) = some (l, s) := by
  induction l with
  | nil => simp [cutAt]
  | cons x l ih =>
    simp only [mem_cons, not_or] at h
    rw [cons_append, cutAt, if_neg (Ne.symm h.1), ih h.2]
    rfl

theorem cutAt_eq_none_iff : cutAt c s = none ↔ c ∉ s := by
  induction s with
  | nil => simp [cutAt]
  | cons x xs ih =>
    rw [cutAt]
    split_ifs with h
    · simp [h]
    · simp [ih, Ne.symm h]

theorem cutAt_eq_some_iff {r : List α} : cutAt c s = some (l, r) ↔ s = l ++ c :: r ∧ c ∉ l := by
  constructor
  · intro h
    induction s generalizing l with
    | nil => simp [cutAt] at h
    | cons x xs ih =>
      rw [cutAt] at h
      split_ifs at h with hx
      · simp only [some.injEq] at h
        obtain ⟨rfl, rfl⟩ := h
        simp [hx]
      · obtain ⟨⟨l', r'⟩, hl, he⟩ := map_eq_some_iff.1 h
        obtain ⟨rfl, rfl⟩ := he
        obtain ⟨h1, h2⟩ := ih hl
        exact ⟨by rw [h1]; rfl, by simp [Ne.symm hx, h2]⟩
  · rintro ⟨rfl, h⟩
    exact cutAt_append h r

/-! ## The last element a partial function picks -/

theorem filterMap_getLast_iff {α β : Type*} {f : α → Option β} {s : List α} {v : β} :
    (s.filterMap f).getLast? = some v ↔ ∃ pre x post, s = pre ++ x :: post ∧ f x = some v ∧ ∀ y ∈ post, f y = none := by
  constructor
  · intro h
    obtain ⟨l, hl⟩ := List.getLast?_eq_some_iff.1 h
    obtain ⟨pre, rest, rfl, -, hrest⟩ := filterMap_eq_append_iff.1 hl
    obtain ⟨skipped, x, post, rfl, -, hx, hpost⟩ := filterMap_eq_cons_iff.1 hrest
    exact ⟨pre ++ skipped, x, post, by simp, hx, filterMap_eq_nil_iff.1 hpost⟩
  · rintro ⟨pre, x, post, rfl, hx, hpost⟩
    simp [hx, filterMap_eq_nil_iff.2 hpost]

end Coropact.Text
