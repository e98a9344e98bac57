/-
Bytes as the HTTP layer sees them (`src/http/header_utils.h`, the anonymous namespace of `src/gateway/proxy_pass.cc`).

A `std::string` or `std::string_view` is a list of bytes. `std::tolower` is taken in the "C" locale, the one in force
unless a program calls `setlocale`, which this repository does not. `std::from_chars` is the standard one: it reads the
longest run of digits, takes neither blanks nor a plus sign, and fails without storing a value when there is no digit
or the value does not fit the target type.
-/
import Mathlib.Data.List.DropRight
import Mathlib.Data.List.TakeWhile
import Mathlib.Tactic

namespace Coropact.Http

open List

abbrev Bytes := List UInt8

/-- whether all bytes of a text pass a check is decided along the text, not over all 256 bytes -/
instance decidableAllBytes (p : UInt8 → Prop) [DecidablePred p] (s : Bytes) : Decidable (∀ b ∈ s, p b) :=
  List.decidableBAll p s

instance decidableFirstByte (p : UInt8 → Prop) [DecidablePred p] (b : Option UInt8) : Decidable (∀ a ∈ b, p a) :=
  Option.decidableForallMem b

def str (s : String) : Bytes := s.toList.map fun c => UInt8.ofNat c.toNat

def CR : UInt8 := 13
def LF : UInt8 := 10
def SP : UInt8 := 32
def TAB : UInt8 := 9
def slash : UInt8 := 47
def colon : UInt8 := 58
def comma : UInt8 := 44
def question : UInt8 := 63

def CRLF : Bytes := [CR, LF]

def Clean (s : Bytes) : Prop := CR ∉ s ∧ LF ∉ s

instance (s : Bytes) : Decidable (Clean s) := by
  unfold Clean
  infer_instance

/-- a line without the CR in front of its LF -/
def dropCR (line : Bytes) : Bytes := if line.getLast? = some CR then line.dropLast else line

theorem dropCR_append (l : Bytes) : dropCR (l ++ [CR]) = l := by
  simp [dropCR]

theorem flatten_lines_cons (l : Bytes) (ls : List Bytes) (rest : Bytes) :
    ((l :: ls).map (· ++ CRLF)).flatten ++ rest = l ++ CR :: LF :: ((ls.map (· ++ CRLF)).flatten ++ rest) := by
  simp [CRLF]

theorem forall_byte {p : UInt8 → Prop} (h : ∀ i : Fin 256, p (UInt8.ofFin i)) (b : UInt8) : p b := by
  have := h b.toFin
  simpa using this

/-! ## Case -/

def lowerByte (b : UInt8) : UInt8 := if 65 ≤ b ∧ b ≤ 90 then b + 32 else b

/-- `detail::LowerCopy`, also `HttpRequest::MakeHeaderKey` -/
def lowerCopy (s : Bytes) : Bytes := s.map lowerByte

/-- `AsciiCaseEqual`, and `HeaderNameEqual` of the header map: equal sizes and pairwise equal lower-cased bytes -/
def asciiCaseEqual (lhs rhs : Bytes) : Bool := lowerCopy lhs == lowerCopy rhs

theorem lowerByte_idem (b : UInt8) : lowerByte (lowerByte b) = lowerByte b := by
  refine forall_byte (p := fun b => lowerByte (lowerByte b) = lowerByte b) ?_ b
  decide +kernel

variable {s d : Bytes} {p : UInt8 → Bool} {c b : UInt8}

theorem lowerByte_eq_iff (hc : c < 65 ∨ 122 < c) (b : UInt8) : lowerByte b = c ↔ b = c := by
  unfold lowerByte
  split_ifs with h
  · have hb : (b + 32).toNat = b.toNat + 32 := by
      rw [UInt8.toNat_add, UInt8.toNat_ofNat, Nat.mod_eq_of_lt]
      have := UInt8.le_iff_toNat_le.1 h.2
      simp at this ⊢
      omega
    simp only [UInt8.le_iff_toNat_le, UInt8.lt_iff_toNat_lt, UInt8.toNat_ofNat] at h hc
    constructor <;> intro he <;> exfalso
    · rw [← he, hb] at hc
      omega
    · rw [← he] at hc
      omega
  · rfl

@[simp] theorem lowerCopy_eq_nil : lowerCopy s = [] ↔ s = [] := map_eq_nil_iff

theorem lowerCopy_idem (s : Bytes) : lowerCopy (lowerCopy s) = lowerCopy s := by
  simp only [lowerCopy, map_map]
  exact map_congr_left fun b _ => lowerByte_idem b

theorem mem_lowerCopy_iff (hc : c < 65 ∨ 122 < c) (s : Bytes) : c ∈ lowerCopy s ↔ c ∈ s := by
  simp only [lowerCopy, mem_map, lowerByte_eq_iff hc, exists_eq_right]

theorem asciiCaseEqual_iff (s t : Bytes) : asciiCaseEqual s t = true ↔ lowerCopy s = lowerCopy t := by
  simp [asciiCaseEqual]

/-! ## Trimming -/

def isBlank (b : UInt8) : Bool := b == SP || b == TAB

def trimBy (p : UInt8 → Bool) (s : Bytes) : Bytes := (s.dropWhile p).rdropWhile p

/-- `detail::Trim`: spaces only -/
def trim (s : Bytes) : Bytes := trimBy (· == SP) s

/-- spaces and tabs on both sides, as `NamedByConnection` trims a token -/
def trimBlanks (s : Bytes) : Bytes := trimBy isBlank s

theorem trimBy_isInfix (p : UInt8 → Bool) (s : Bytes) : trimBy p s <:+: s :=
  (List.rdropWhile_prefix p _).isInfix.trans (dropWhile_suffix p).isInfix

theorem dropWhile_mem (hb : b ∈ s) (hp : p b = false) :
    b ∈ s.dropWhile p := by
  rw [← takeWhile_append_dropWhile (p := p) (l := s)] at hb
  rcases mem_append.1 hb with h | h
  · rw [mem_takeWhile_imp h] at hp
    exact absurd hp (by simp)
  · exact h

theorem mem_trimBy_iff (hp : p b = false) : b ∈ trimBy p s ↔ b ∈ s := by
  refine ⟨fun h => (trimBy_isInfix p s).subset h, fun h => ?_⟩
  have h1 := dropWhile_mem h hp
  simp only [trimBy, List.rdropWhile, mem_reverse]
  exact dropWhile_mem (mem_reverse.2 h1) hp

theorem dropWhile_of_none (h : ∀ b ∈ s, p b = false) : s.dropWhile p = s := by
  cases s with
  | nil => rfl
  | cons b s =>
    rw [dropWhile_cons, h b (by simp)]
    rfl

theorem trimBy_of_none (h : ∀ b ∈ s, p b = false) : trimBy p s = s := by
  rw [trimBy, dropWhile_of_none h, List.rdropWhile, dropWhile_of_none fun b hb => h b (mem_reverse.1 hb),
    reverse_reverse]

theorem dropWhile_trimBy (p : UInt8 → Bool) (s : Bytes) : (trimBy p s).dropWhile p = trimBy p s := by
  rw [dropWhile_eq_self_iff]
  intro hl
  obtain ⟨r, hr⟩ := rdropWhile_prefix p (s.dropWhile p)
  have hlen : 0 < (s.dropWhile p).length :=
    lt_of_lt_of_le hl (List.rdropWhile_prefix p (s.dropWhile p)).length_le
  have hfirst := dropWhile_get_zero_not (p := p) s hlen
  have hget : (s.dropWhile p)[0]? = (trimBy p s)[0]? := by
    rw [← hr]
    exact List.getElem?_append_left hl
  rw [List.getElem?_eq_getElem hlen, List.getElem?_eq_getElem hl, Option.some.injEq] at hget
  rw [← hget]
  exact hfirst

theorem trimBy_idem (p : UInt8 → Bool) (s : Bytes) : trimBy p (trimBy p s) = trimBy p s := by
  conv_lhs => rw [trimBy, dropWhile_trimBy, trimBy]
  rw [rdropWhile_idempotent]
  rfl

theorem dropWhile_eq_trimBy_append (p : UInt8 → Bool) (s : Bytes) :
    ∃ r, s.dropWhile p = trimBy p s ++ r ∧ ∀ b ∈ r, p b = true := by
  refine ⟨((s.dropWhile p).reverse.takeWhile p).reverse, ?_, fun b hb => ?_⟩
  · rw [trimBy, List.rdropWhile, ← reverse_append, takeWhile_append_dropWhile, reverse_reverse]
  · exact mem_takeWhile_imp (mem_reverse.1 hb)

theorem lowerCopy_trimBlanks (s : Bytes) : lowerCopy (trimBlanks s) = trimBlanks (lowerCopy s) := by
  have hblank : isBlank ∘ lowerByte = isBlank := by
    funext b
    refine forall_byte (p := fun b => isBlank (lowerByte b) = isBlank b) ?_ b
    decide +kernel
  simp only [trimBlanks, trimBy, lowerCopy, List.rdropWhile, dropWhile_map, hblank, ← map_reverse]

/-! ## Decimal numbers -/

def isDigit (b : UInt8) : Bool := 48 ≤ b && b ≤ 57

theorem isDigit_ne (hb : isDigit b = true) (hc : isDigit c = false) : (b == c) = false := by
  rw [beq_eq_false_iff_ne]
  rintro rfl
  exact absurd (hb.symm.trans hc) (by decide)

def decimal (s : Bytes) : ℕ := s.foldl (fun n b => 10 * n + (b.toNat - 48)) 0

theorem decimal_snoc (d : Bytes) (b : UInt8) : decimal (d ++ [b]) = 10 * decimal d + (b.toNat - 48) := by
  simp [decimal]

theorem decimal_lt (h : ∀ b ∈ d, isDigit b = true) : decimal d < 10 ^ d.length := by
  induction d using List.reverseRecOn with
  | nil => decide
  | append_singleton d b ih =>
    have hb : b.toNat - 48 < 10 := by
      have := h b (by simp)
      simp only [isDigit, Bool.and_eq_true, decide_eq_true_eq, UInt8.le_iff_toNat_le] at this
      have h9 : b.toNat ≤ 57 := this.2
      omega
    have := ih fun c hc => h c (by simp [hc])
    rw [decimal_snoc, length_append, length_singleton, pow_succ]
    omega

/-- `std::from_chars` into an unsigned type with `bound` values: the value and what is left unread -/
def fromChars (bound : ℕ) (s : Bytes) : Option (ℕ × Bytes) :=
  let digits := s.takeWhile isDigit
  if digits = [] then none
  else if decimal digits < bound then some (decimal digits, s.dropWhile isDigit)
  else none

/-- `std::from_chars` into `int` -/
def fromCharsInt : Bytes → Option ℤ
  | [] => none
  | b :: s =>
    if b = 45 then (fromChars (2 ^ 31 + 1) s).map fun r => -(r.1 : ℤ)
    else (fromChars (2 ^ 31) (b :: s)).map fun r => (r.1 : ℤ)

theorem takeWhile_of_all (hd : ∀ b ∈ d, p b = true) (hs : ∀ b ∈ s.head?, p b = false) :
    (d ++ s).takeWhile p = d ∧ (d ++ s).dropWhile p = s := by
  have hnil : s.takeWhile p = [] ∧ s.dropWhile p = s := by
    cases s with
    | nil => simp
    | cons b s =>
      have := hs b (by simp)
      simp [this]
  rw [takeWhile_append_of_pos hd, dropWhile_append_of_pos hd, hnil.1, hnil.2]
  simp

theorem fromChars_digits {bound : ℕ} (hne : d ≠ []) (hd : ∀ b ∈ d, isDigit b = true)
    (hs : ∀ b ∈ s.head?, isDigit b = false)
    (hb : decimal d < bound) : fromChars bound (d ++ s) = some (decimal d, s) := by
  obtain ⟨h1, h2⟩ := takeWhile_of_all hd hs
  simp only [fromChars, h1, h2, hne, if_false, hb, if_true]

theorem fromChars_some {bound n : ℕ} {r : Bytes} (h : fromChars bound s = some (n, r)) :
    ∃ d, d ≠ [] ∧ (∀ b ∈ d, isDigit b = true) ∧ s = d ++ r ∧ decimal d = n ∧ n < bound := by
  simp only [fromChars] at h
  split_ifs at h with h1 h2
  simp only [Option.some.injEq, Prod.mk.injEq] at h
  refine ⟨s.takeWhile isDigit, h1, fun b hb => mem_takeWhile_imp hb, ?_, h.1, h.1 ▸ h2⟩
  rw [← h.2, takeWhile_append_dropWhile]

/-! ## Numbers as text -/

/-- `std::to_string` -/
def toText (n : ℕ) : Bytes := str (toString n)

def digit (n : ℕ) : UInt8 := UInt8.ofNat (Nat.digitChar n).toNat

theorem digit_spec : ∀ n < 10, isDigit (digit n) = true ∧ (digit n).toNat - 48 = n := by decide

theorem toText_eq (n : ℕ) : toText n = (Nat.toDigits 10 n).map fun c => UInt8.ofNat c.toNat := by
  simp [toText, str, toString, Nat.repr]

theorem toText_of_lt {n : ℕ} (h : n < 10) : toText n = [digit n] := by
  rw [toText_eq, Nat.toDigits_of_lt_base h]
  rfl

theorem toText_of_le {n : ℕ} (h : 10 ≤ n) : toText n = toText (n / 10) ++ [digit (n % 10)] := by
  rw [toText_eq, Nat.toDigits_of_base_le (by decide) h, map_append, ← toText_eq]
  rfl

theorem toText_spec (n : ℕ) : toText n ≠ [] ∧ (∀ b ∈ toText n, isDigit b = true) ∧ decimal (toText n) = n := by
  induction n using Nat.strong_induction_on with
  | _ n ih =>
    by_cases hn : n < 10
    · obtain ⟨hd, hv⟩ := digit_spec n hn
      rw [toText_of_lt hn]
      exact ⟨by simp, by simpa using hd, by simpa [decimal] using hv⟩
    · obtain ⟨-, hdigits, hvalue⟩ := ih (n / 10) (by omega)
      obtain ⟨hd, hv⟩ := digit_spec (n % 10) (by omega)
      rw [toText_of_le (not_lt.1 hn)]
      refine ⟨by simp, ?_, ?_⟩
      · intro b hb
        rcases mem_append.1 hb with hb | hb
        · exact hdigits b hb
        · rw [mem_singleton.1 hb]
          exact hd
      · rw [decimal_snoc, hvalue, hv]
        omega

theorem clean_toText (n : ℕ) : Clean (toText n) :=
  ⟨fun hcr => absurd ((toText_spec n).2.1 CR hcr) (by decide), fun hlf =>
    absurd ((toText_spec n).2.1 LF hlf) (by decide)⟩

end Coropact.Http
