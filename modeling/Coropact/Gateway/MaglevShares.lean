/-
How evenly the logical backends share a Maglev table (`MaglevHashLB::BuildTable` in
`include/coropact/gateway/load_balancer.h`).

An entry holds a peer, and a peer of weight `w` has `w` logical backends, so the table does not tell which of them
filled an entry. The loops never look at the peer of a backend, only at whether an entry is taken; so they do the same
when every backend is labelled with its number instead (`labelled`, `fill_relabel`). The entries of that run are the
owners.
-/
import Coropact.Gateway.CachedTables

namespace Coropact.Gateway.MaglevHashLB

open Coropact.Http List

variable {P Q : Type*}

/-! ## Labels -/

def BackendCursor.relabel (f : P → Q) (b : BackendCursor P) : BackendCursor Q :=
  { peer := f b.peer, offset := b.offset, skip := b.skip, next := b.next }

open BackendCursor

/-- the backends with their numbers for peers -/
def labelled (backends : List (BackendCursor P)) : List (BackendCursor (Fin backends.length)) :=
  (List.finRange backends.length).map fun i => (backends.get i).relabel fun _ => i

theorem relabel_labelled (backends : List (BackendCursor P)) :
    (labelled backends).map (relabel fun i => (backends.get i).peer) = backends := by
  rw [labelled, map_map]
  exact map_get_finRange backends

theorem peers_labelled (backends : List (BackendCursor P)) :
    (labelled backends).map peer = List.finRange backends.length := by
  rw [labelled, map_map]
  exact map_id' _

theorem taken_relabel (f : P → Q) (entries : List (Option P)) (pos : ℕ) :
    taken (entries.map (Option.map f)) pos = taken entries pos := by
  unfold taken
  rw [List.getElem?_map]
  cases entries[pos]? with
  | none => rfl
  | some e => cases e <;> rfl

theorem claim_relabel (f : P → Q) (size fuel : ℕ) (entries : List (Option P)) (b : BackendCursor P) :
    claim size (entries.map (Option.map f)) fuel (b.relabel f) =
      (claim size entries fuel b).map fun r => (r.1, r.2.relabel f) := by
  induction fuel generalizing b with
  | zero => rfl
  | succ fuel ih =>
    have hnext := ih { b with next := b.next + 1 }
    rw [claim, claim, taken_relabel]
    change (if taken entries (b.position size b.next) = true then
      claim size (entries.map (Option.map f)) fuel (relabel f { b with next := b.next + 1 }) else _) = _
    rw [hnext]
    split_ifs <;> rfl

theorem pass_relabel (f : P → Q) (size : ℕ) (backends : List (BackendCursor P)) (entries : List (Option P))
    (filled : ℕ) :
    pass size (backends.map (relabel f)) (entries.map (Option.map f)) filled =
      (pass size backends entries filled).map fun r =>
        (r.1.map (relabel f), r.2.1.map (Option.map f), r.2.2) := by
  induction backends generalizing entries filled with
  | nil => rfl
  | cons b rest ih =>
    rw [map_cons, pass, pass, claim_relabel]
    cases claim size entries size b with
    | none => rfl
    | some r =>
      have hset : (entries.map (Option.map f)).set r.1 (some (f r.2.peer)) =
          (entries.set r.1 (some r.2.peer)).map (Option.map f) := by
        rw [map_set]
        rfl
      simp only [Option.map_some, Option.bind_some]
      change (if filled + 1 = size then some (_, (entries.map (Option.map f)).set r.1 (some (f r.2.peer)),
        filled + 1) else
        (pass size (rest.map (relabel f)) ((entries.map (Option.map f)).set r.1 (some (f r.2.peer)))
          (filled + 1)).map _) = _
      rw [hset, ih]
      split_ifs
      · rfl
      · rw [Option.map_map, Option.map_map]
        rfl

/-- **The labels make no difference.** -/
theorem fill_relabel (f : P → Q) (size fuel : ℕ) (backends : List (BackendCursor P)) (entries : List (Option P))
    (filled : ℕ) :
    fill size fuel (backends.map (relabel f)) (entries.map (Option.map f)) filled =
      (fill size fuel backends entries filled).map (List.map (Option.map f)) := by
  induction fuel generalizing backends entries filled with
  | zero =>
    rw [fill, fill]
    split_ifs <;> rfl
  | succ fuel ih =>
    rw [fill, fill, pass_relabel]
    split_ifs
    · cases pass size backends entries filled with
      | none => rfl
      | some r => exact ih r.1 r.2.1 r.2.2
    · rfl

/-! ## Counting -/

variable [DecidableEq Q] {size : ℕ} {entries : List (Option Q)} {b : BackendCursor Q}

omit [DecidableEq Q] in
theorem claim_some {fuel pos : ℕ} {b' : BackendCursor Q} (hsize : 0 < size)
    (h : claim size entries fuel b = some (pos, b')) :
    taken entries pos = false ∧ pos < size ∧ b'.peer = b.peer := by
  induction fuel generalizing b with
  | zero => cases h
  | succ fuel ih =>
    rw [claim] at h
    split_ifs at h with htaken
    · exact ih (b := { b with next := b.next + 1 }) h
    · cases h
      exact ⟨Bool.eq_false_of_not_eq_true htaken, Nat.mod_lt _ hsize, rfl⟩

theorem count_set_free {pos : ℕ} (hpos : pos < entries.length) (hfree : taken entries pos = false) (q r : Q) :
    (entries.set pos (some q)).count (some r) = entries.count (some r) + if r = q then 1 else 0 := by
  have hnone : entries[pos] = none := by
    unfold taken at hfree
    rw [List.getElem?_eq_getElem hpos] at hfree
    simpa using hfree
  rw [count_set hpos, hnone]
  by_cases hqr : r = q
  · simp [hqr]
  · simp [hqr, Ne.symm hqr]

/-- **One round.** Every backend gets one more entry, unless the table is full before its turn; the others get none. -/
theorem pass_counts {backends backends' : List (BackendCursor Q)} {entries' : List (Option Q)} {filled filled' : ℕ}
    (hlength : entries.length = size) (hsize : 0 < size) (hnodup : (backends.map peer).Nodup)
    (h : pass size backends entries filled = some (backends', entries', filled')) :
    entries'.length = size ∧ backends'.map peer = backends.map peer ∧
      (∀ q ∉ backends.map peer, entries'.count (some q) = entries.count (some q)) ∧
      ∀ q ∈ backends.map peer, entries'.count (some q) = entries.count (some q) + 1 ∨
        entries'.count (some q) = entries.count (some q) ∧ filled' = size := by
  induction backends generalizing entries filled backends' with
  | nil =>
    cases h
    exact ⟨hlength, rfl, fun q _ => rfl, fun q hq => absurd hq not_mem_nil⟩
  | cons b rest ih =>
    rw [map_cons, nodup_cons] at hnodup
    rw [pass, Option.bind_eq_some_iff] at h
    obtain ⟨⟨pos, b'⟩, hclaim, h⟩ := h
    obtain ⟨hfree, hpos, hpeer⟩ := claim_some hsize hclaim
    have hcount := count_set_free (hlength ▸ hpos) hfree b.peer
    have hset : (entries.set pos (some b.peer)).length = size := by rw [length_set, hlength]
    have hne : ∀ q ∈ rest.map peer, q ≠ b.peer := by
      rintro q hq rfl
      exact hnodup.1 hq
    dsimp only at h
    rw [hpeer] at h
    simp only [map_cons, mem_cons, not_or, forall_eq_or_imp]
    split_ifs at h with hfull
    · -- the table is full: the rest gets none
      cases h
      refine ⟨hset, by rw [map_cons, hpeer], fun q hq => ?_, .inl (by simp [hcount]), fun q hq => .inr ⟨?_, hfull⟩⟩
      · rw [hcount, if_neg hq.1, add_zero]
      · rw [hcount, if_neg (hne q hq), add_zero]
    · rw [Option.map_eq_some_iff] at h
      obtain ⟨⟨rest', entries₁, filled₁⟩, hpass, heq⟩ := h
      cases heq
      obtain ⟨hlength', hpeers, hothers, hrest⟩ := ih hset hnodup.2 hpass
      refine ⟨hlength', by rw [map_cons, hpeers, hpeer], fun q hq => ?_, .inl ?_, fun q hq => ?_⟩
      · rw [hothers q hq.2, hcount, if_neg hq.1, add_zero]
      · rw [hothers _ hnodup.1, hcount, if_pos rfl]
      · have hsame : (entries.set pos (some b.peer)).count (some q) = entries.count (some q) := by
          rw [hcount, if_neg (hne q hq), add_zero]
        exact hsame ▸ hrest q hq

/-- **The whole table.** The backends start even, and end within one entry of each other. -/
theorem fill_counts {fuel filled c : ℕ} {backends : List (BackendCursor Q)} {entries' : List (Option Q)}
    (hlength : entries.length = size) (hnodup : (backends.map peer).Nodup)
    (heven : ∀ q ∈ backends.map peer, entries.count (some q) = c)
    (h : fill size fuel backends entries filled = some entries') :
    ∀ q ∈ backends.map peer, ∀ r ∈ backends.map peer,
      entries'.count (some q) ≤ entries'.count (some r) + 1 := by
  induction fuel generalizing backends entries filled c with
  | zero =>
    rw [fill] at h
    split_ifs at h
    cases h
    intro q hq r hr
    rw [heven q hq, heven r hr]
    exact Nat.le_succ c
  | succ fuel ih =>
    rw [fill] at h
    split_ifs at h with hless
    · rw [Option.bind_eq_some_iff] at h
      obtain ⟨⟨backends₁, entries₁, filled₁⟩, hpass, h⟩ := h
      obtain ⟨hlength₁, hpeers, -, hcounts⟩ := pass_counts hlength (by omega) hnodup hpass
      dsimp only at h
      rcases lt_or_ge filled₁ size with hless₁ | hfull
      · rw [← hpeers]
        refine ih hlength₁ (hpeers ▸ hnodup) (c := c + 1) (fun q hq => ?_) h
        rw [hpeers] at hq
        rcases hcounts q hq with hone | ⟨-, hsize⟩
        · rw [hone, heven q hq]
        · omega
      · have hlast : entries' = entries₁ := by
          cases fuel with
          | zero => simpa [fill, not_lt.2 hfull] using h.symm
          | succ fuel => simpa [fill, not_lt.2 hfull] using h.symm
        intro q hq r hr
        have hcq := hcounts q hq
        have hcr := hcounts r hr
        rw [heven q hq] at hcq
        rw [heven r hr] at hcr
        rw [hlast]
        omega
    · cases h
      intro q hq r hr
      rw [heven q hq, heven r hr]
      exact Nat.le_succ c

/-- **Equal shares.** For every table size the constructor can produce the table is built, every entry holds an
available peer, and there are owners of the entries, no two of which differ by more than one entry. -/
theorem table_shares (h : Hashing P) (config : P → PeerConfig) (tableSize : ℕ) (hashOn : Bytes) {avail : List P}
    (hne : avail ≠ []) :
    let size := (make tableSize hashOn : MaglevHashLB P).tableSize
    let backends := avail.flatMap (backendsOf h size config)
    ∃ table owners, buildTable h size config avail = .ok table ∧ table.entries.length = size ∧
      (∀ e ∈ table.entries, ∃ p ∈ avail, e = some p) ∧
      fill size size (labelled backends) (List.replicate size none) 0 = some owners ∧
      table.entries = owners.map (Option.map fun i => (backends.get i).peer) ∧
      ∀ i j : Fin backends.length, owners.count (some i) ≤ owners.count (some j) + 1 := by
  intro size backends
  have hprime : size.Prime := nextPrime_prime _
  obtain ⟨table, htable, hlength, hall⟩ := @buildTable_ok P h size config avail hprime hne
  have hfill : fill size size backends (List.replicate size none) 0 = some table.entries := by
    have hbuilt := htable
    unfold buildTable at hbuilt
    dsimp only at hbuilt
    split_ifs at hbuilt with hempty
    · cases hbuilt
      exact absurd hlength.symm hprime.ne_zero
    · split at hbuilt
      · rename_i entries hentries
        cases hbuilt
        exact hentries
      · cases hbuilt
  have hlabels := fill_relabel (fun i => (backends.get i).peer) size size (labelled backends)
    (List.replicate size none) 0
  rw [relabel_labelled, map_replicate, Option.map_none, hfill] at hlabels
  obtain ⟨owners, howners, hentries⟩ := Option.map_eq_some_iff.1 hlabels.symm
  refine ⟨table, owners, htable, hlength, hall, howners, hentries.symm, fun i j => ?_⟩
  have hcounts := fill_counts (c := 0) length_replicate (by rw [peers_labelled]; exact nodup_finRange _)
    (fun q _ => count_eq_zero.2 fun hmem => by cases eq_of_mem_replicate hmem) howners
  rw [peers_labelled] at hcounts
  exact hcounts i (mem_finRange i) j (mem_finRange j)

theorem table_shares_twoPeers :
    let backends := [0, 1].flatMap (backendsOf (lengthHashing (Fin 2)) 257 (plainPair.get ·))
    ∃ owners, fill 257 257 (labelled backends) (List.replicate 257 none) 0 = some owners ∧
      ∀ i j : Fin backends.length, owners.count (some i) ≤ owners.count (some j) + 1 := by
  have hsize : (make 0 [] : MaglevHashLB (Fin 2)).tableSize = 257 := by decide
  have hshares := table_shares (lengthHashing (Fin 2)) (plainPair.get ·) 0 [] (cons_ne_nil 0 [1])
  rw [hsize] at hshares
  obtain ⟨-, owners, -, -, -, hfill, -, hcounts⟩ := hshares
  exact ⟨owners, hfill, hcounts⟩

end Coropact.Gateway.MaglevHashLB
