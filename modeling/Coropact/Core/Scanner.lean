/-
Reading messages off a stream that arrives in chunks.

A `Scanner` looks at the front of a buffer: it needs more, or it found an item and says what is left behind it, or the
input is wrong. It may start over on every call. An item depends on its own bytes only, whatever follows them.

- `Reads w is`: the bytes `w` are the items `is`. `Start s u`: a scan of the stream `s` starts at `u`, behind whole
  items.
- `drain`, `feed_eq_drain`, `settled_of_verdicts`.
-/
import Mathlib.Tactic

namespace Coropact.Stream

open List

variable {ι ε α : Type*}

inductive Scan (ι ε α : Type*) where
  | more
  | item (i : ι) (rest : List α)
  | fail (e : ε)

structure Scanner (ι ε α : Type*) where
  scan : List α → Scan ι ε α
  consumes : ∀ {s : List α} {i : ι} {rest : List α}, scan s = .item i rest →
    ∃ w, w ≠ [] ∧ s = w ++ rest ∧ ∀ rest', scan (w ++ rest') = .item i rest'

namespace Scanner

variable (S : Scanner ι ε α)

variable {s rest p u t : List α} {is : List ι} {i : ι}

theorem shorter (h : S.scan s = .item i rest) : rest.length < s.length := by
  obtain ⟨w, hw, rfl, -⟩ := S.consumes h
  have := length_pos_of_ne_nil hw
  rw [length_append]
  omega

/-- the items at the front of the buffer, and the failure behind them or what is left -/
def drain (s : List α) : List ι × Except ε (List α) :=
  match _h : S.scan s with
  | .more => ([], .ok s)
  | .fail e => ([], .error e)
  | .item i rest => (i :: (drain rest).1, (drain rest).2)
termination_by s.length
decreasing_by all_goals exact S.shorter ‹_›

/-- drain the buffer after each chunk, up to the first failure -/
def feed : List α → List (List α) → List ι × Except ε (List α)
  | buf, [] => ([], .ok buf)
  | buf, chunk :: chunks =>
    match S.drain (buf ++ chunk) with
    | (is, .ok left) => (is ++ (feed left chunks).1, (feed left chunks).2)
    | r => r

variable {S}

theorem drain_more (h : S.scan s = .more) : S.drain s = ([], .ok s) := by
  rw [drain]
  split <;> simp_all

theorem drain_fail {e : ε} (h : S.scan s = .fail e) : S.drain s = ([], .error e) := by
  rw [drain]
  split <;> simp_all

theorem drain_item (h : S.scan s = .item i rest) :
    S.drain s = (i :: (S.drain rest).1, (S.drain rest).2) := by
  rw [drain]
  split <;> simp_all

theorem drain_nil_error {e : ε} (h : S.drain s = ([], .error e)) : S.scan s = .fail e := by
  cases hscan : S.scan s with
  | more => simp [drain_more hscan] at h
  | item i rest => simp [drain_item hscan] at h
  | fail e' =>
    simp only [drain_fail hscan, Prod.mk.injEq, Except.error.injEq, true_and] at h
    rw [h]

theorem scan_left {left : List α} (h : S.drain s = (is, .ok left)) : S.scan left = .more := by
  induction hn : s.length using Nat.strong_induction_on generalizing s is with
  | _ n ih =>
    cases hscan : S.scan s with
    | more =>
      rw [drain_more hscan, Prod.mk.injEq, Except.ok.injEq] at h
      rw [← h.2, hscan]
    | fail e => simp [drain_fail hscan] at h
    | item i rest =>
      rw [drain_item hscan, Prod.mk.injEq] at h
      exact ih rest.length (hn ▸ S.shorter hscan) (Prod.ext rfl h.2) rfl

/-! ## Whole items -/

variable (S) in
/-- the bytes are exactly these items -/
inductive Reads : List α → List ι → Prop
  | nil : Reads [] []
  | cons {w w' : List α} {i : ι} {is : List ι} (h : ∀ rest, S.scan (w ++ rest) = .item i rest) (hrest : Reads w' is) :
      Reads (w ++ w') (i :: is)

variable (S) in
/-- a scan of the stream `s` starts at `u` -/
def Start (s u : List α) : Prop := ∃ w is, S.Reads w is ∧ s = w ++ u

variable (S) in
/-- a failure on a part of the message at the front of `u` is the failure on the whole -/
def Settled (u : List α) : Prop := ∀ p t e, u = p ++ t → S.scan p = .fail e → S.scan u = .fail e

theorem start_self (s : List α) : S.Start s s := ⟨[], [], .nil, rfl⟩

theorem start_item (h : S.scan s = .item i rest) (hu : S.Start rest u) : S.Start s u := by
  obtain ⟨w, -, rfl, hw⟩ := S.consumes h
  obtain ⟨w', is, hreads, rfl⟩ := hu
  exact ⟨w ++ w', i :: is, .cons hw hreads, by simp⟩

theorem Reads.drain {w : List α} (h : S.Reads w is) (u : List α) :
    S.drain (w ++ u) = (is ++ (S.drain u).1, (S.drain u).2) := by
  induction h with
  | nil => rfl
  | cons h _ ih =>
    rw [append_assoc, drain_item (h _), ih]
    rfl

/-! ## Cutting does not matter -/

theorem scan_item_append (h : S.scan p = .item i rest) (t : List α) :
    S.scan (p ++ t) = .item i (rest ++ t) := by
  obtain ⟨w, -, rfl, hw⟩ := S.consumes h
  rw [append_assoc, hw]

theorem drain_append (h : ∀ u, S.Start (p ++ t) u → S.Settled u) :
    S.drain (p ++ t) = match S.drain p with
      | (is, .ok left) => (is ++ (S.drain (left ++ t)).1, (S.drain (left ++ t)).2)
      | r => r := by
  induction hn : p.length using Nat.strong_induction_on generalizing p with
  | _ n ih =>
    cases hscan : S.scan p with
    | more =>
      rw [drain_more hscan]
      rfl
    | fail e =>
      rw [drain_fail hscan, drain_fail (h _ (start_self _) p t e rfl hscan)]
    | item i rest =>
      have hgrow : S.scan (p ++ t) = .item i (rest ++ t) := scan_item_append hscan t
      have hrest := ih rest.length (hn ▸ S.shorter hscan) (fun u hu => h u (start_item hgrow hu)) rfl
      rw [drain_item hgrow, drain_item hscan, hrest]
      rcases S.drain rest with ⟨is, e | left⟩ <;> rfl

theorem start_left {left : List α} (hd : S.drain p = (is, .ok left)) (hu : S.Start (left ++ t) u) :
    S.Start (p ++ t) u := by
  induction hn : p.length using Nat.strong_induction_on generalizing p is with
  | _ n ih =>
    cases hscan : S.scan p with
    | more =>
      rw [drain_more hscan, Prod.mk.injEq, Except.ok.injEq] at hd
      exact hd.2 ▸ hu
    | fail e => simp [drain_fail hscan] at hd
    | item i rest =>
      rw [drain_item hscan, Prod.mk.injEq] at hd
      exact start_item (scan_item_append hscan t) (ih rest.length (hn ▸ S.shorter hscan) (Prod.ext rfl hd.2) rfl)

/-- **Cutting does not matter.** If every place of the stream at which a scan starts is settled, feeding the stream in
chunks yields the items, and the failure or the bytes left, that draining it in one piece yields. -/
theorem feed_eq_drain {buf : List α} {chunks : List (List α)} (hbuf : S.scan buf = .more)
    (h : ∀ u, S.Start (buf ++ chunks.flatten) u → S.Settled u) :
      S.feed buf chunks = S.drain (buf ++ chunks.flatten) := by
  induction chunks generalizing buf with
  | nil => rw [flatten_nil, append_nil, drain_more hbuf, feed]
  | cons chunk chunks ih =>
    rw [flatten_cons, ← append_assoc] at h ⊢
    rw [drain_append h, feed]
    cases hd : S.drain (buf ++ chunk) with
    | mk is r =>
      cases r with
      | error e => rfl
      | ok left => simp only [ih (scan_left hd) fun u hu => h u (start_left hd hu)]

theorem feed_one (s : List α) : S.feed [] [s] = S.drain s := by
  rw [feed, nil_append]
  rcases S.drain s with ⟨is, e | left⟩
  · rfl
  · simp [feed]

/-! ## And only there -/

/-- the same message is refused for the same reason, as far as `E` goes -/
def SameVerdicts (E : ε → Prop) (r r' : List ι × Except ε (List α)) : Prop :=
  ∀ n e, E e → (r.1.length = n ∧ r.2 = .error e ↔ r'.1.length = n ∧ r'.2 = .error e)

/-- If a stream is refused for a reason in `E` at the same message however it is cut, no such reason comes too early. -/
theorem settled_of_verdicts {E : ε → Prop}
    (h : ∀ chunks, chunks.flatten = s → SameVerdicts E (S.feed [] chunks) (S.feed [] [s])) (hu : S.Start s u) {e : ε}
    (hE : E e) (hp : u = p ++ t) (hfail : S.scan p = .fail e) :
    S.scan u = .fail e := by
  obtain ⟨w, is, hreads, rfl⟩ := hu
  have hcut : S.feed [] [w ++ p, t] = (is, .error e) := by
    rw [feed, nil_append, hreads.drain, drain_fail hfail]
    simp
  have hwhole : S.feed [] [w ++ u] = (is ++ (S.drain u).1, (S.drain u).2) := by
    rw [feed_one, hreads.drain]
  have hsame := (h [w ++ p, t] (by simp [hp]) is.length e hE).1 (by simp [hcut])
  rw [hwhole, length_append] at hsame
  have hnil : (S.drain u).1 = [] := eq_nil_of_length_eq_zero (by omega)
  exact drain_nil_error (Prod.ext hnil hsame.2)

end Scanner

end Coropact.Stream
