/-
Maglev hashing (`MaglevHashLB` in `include/coropact/gateway/load_balancer.h`).

Each peer stands for as many logical backends as its weight says, and each backend walks through the table in steps of
its own (`position`) until it comes to a free entry. The table is full when all entries are taken. The size of the table
is a prime, so a walk comes to every entry. The loops are given as many rounds as there are entries; `none` and
`SelectFailure.loops` say that these did not suffice. The offsets and products stay far below 2^64, so they are natural
numbers.
-/
import Coropact.Gateway.ConsistentHash
import Mathlib.Data.ZMod.Basic
import Mathlib.NumberTheory.Bertrand

namespace Coropact.Gateway

open Coropact.Http List Option

variable {P : Type*}

variable {fuel : ℕ}

namespace MaglevHashLB

/-! ## The size of the table -/

/-- the loop of `IsPrime` from the divisor `d` on -/
def isPrimeFrom (num : ℕ) : ℕ → ℕ → Bool
  | 0, _ => true
  | fuel + 1, d =>
    if d ≤ num / d then
      if num % d = 0 ∨ num % (d + 2) = 0 then false else isPrimeFrom num fuel (d + 6)
    else true

def isPrime (num : ℕ) : Bool :=
  if num < 2 then false
  else if num = 2 ∨ num = 3 then true
  else if num % 2 = 0 ∨ num % 3 = 0 then false
  else isPrimeFrom num num 5

/-- the loop of `NextPrime` -/
def nextPrimeFrom : ℕ → ℕ → ℕ
  | 0, num => num
  | fuel + 1, num => if isPrime num then num else nextPrimeFrom fuel (num + 2)

def nextPrime (num : ℕ) : ℕ :=
  if num ≤ 2 then 2
  else
    let num := if num % 2 = 0 then num + 1 else num
    nextPrimeFrom num num

/-- the loop finds no divisor exactly if there is none up to the square root; numbers between the divisors that are
tried are multiples of 2 or 3 -/
theorem isPrimeFrom_iff {num : ℕ} (h2 : num % 2 ≠ 0) (h3 : num % 3 ≠ 0) {d : ℕ} (hd : d % 6 = 5)
    (hfuel : num < fuel + d) (hbelow : ∀ m, 2 ≤ m → m < d → m * m ≤ num → ¬ m ∣ num) :
    isPrimeFrom num fuel d = true ↔ ∀ m, 2 ≤ m → m * m ≤ num → ¬ m ∣ num := by
  induction fuel generalizing d with
  | zero =>
    refine iff_of_true rfl fun m hm hsq => hbelow m hm ?_ hsq
    nlinarith
  | succ fuel ih =>
    rw [isPrimeFrom]
    have hdpos : 0 < d := by omega
    have hsquare : d ≤ num / d ↔ d * d ≤ num := Nat.le_div_iff_mul_le hdpos
    split_ifs with hmore hdiv
    · rw [hsquare] at hmore
      refine iff_of_false not_false fun hnone => ?_
      rcases hdiv with hdiv | hdiv
      · exact hnone d (by omega) hmore (Nat.dvd_of_mod_eq_zero hdiv)
      · -- the divisor may be beyond the square root; then its cofactor is below it
        obtain ⟨c, hc⟩ := Nat.dvd_of_mod_eq_zero hdiv
        have hcpos : c ≠ 0 := by rintro rfl; omega
        have hc1 : c ≠ 1 := by
          rintro rfl
          have hfive : 5 ≤ d := by omega
          nlinarith
        rcases le_total c (d + 2) with hle | hle
        · exact hnone c (by omega) (by nlinarith) ⟨d + 2, by rw [hc, mul_comm]⟩
        · exact hnone (d + 2) (by omega) (by nlinarith) ⟨c, hc⟩
    · rw [not_or] at hdiv
      refine ih (by omega) (by omega) fun m hm hlt hsq hdvd => ?_
      by_cases hlow : m < d
      · exact hbelow m hm hlow hsq hdvd
      · have hmod := Nat.mod_eq_zero_of_dvd hdvd
        have hmul2 : ∀ k, m = 2 * k → False := by
          rintro k rfl
          exact h2 (Nat.mod_eq_zero_of_dvd ((Dvd.intro k rfl).trans hdvd))
        have hmul3 : ∀ k, m = 3 * k → False := by
          rintro k rfl
          exact h3 (Nat.mod_eq_zero_of_dvd ((Dvd.intro k rfl).trans hdvd))
        obtain rfl | rfl | rfl | rfl | rfl | rfl : m = d ∨ m = d + 1 ∨ m = d + 2 ∨ m = d + 3 ∨ m = d + 4 ∨
            m = d + 5 := by
          omega
        · exact hdiv.1 hmod
        · exact hmul2 ((d + 1) / 2) (by omega)
        · exact hdiv.2 hmod
        · exact hmul2 ((d + 3) / 2) (by omega)
        · exact hmul3 ((d + 4) / 3) (by omega)
        · exact hmul2 ((d + 5) / 2) (by omega)
    · rw [hsquare] at hmore
      refine iff_of_true rfl fun m hm hsq => hbelow m hm ?_ hsq
      nlinarith

theorem isPrime_iff (num : ℕ) : isPrime num = true ↔ num.Prime := by
  unfold isPrime
  split_ifs with hsmall hfew hdiv
  · exact iff_of_false not_false fun hp => absurd hp.two_le (by omega)
  · refine iff_of_true rfl ?_
    rcases hfew with rfl | rfl
    · exact Nat.prime_two
    · exact Nat.prime_three
  · refine iff_of_false not_false fun hp => ?_
    rcases hdiv with hdiv | hdiv
    · have := (Nat.prime_dvd_prime_iff_eq Nat.prime_two hp).1 (Nat.dvd_of_mod_eq_zero hdiv)
      omega
    · have := (Nat.prime_dvd_prime_iff_eq Nat.prime_three hp).1 (Nat.dvd_of_mod_eq_zero hdiv)
      omega
  · rw [not_or] at hdiv
    have hbelow : ∀ m, 2 ≤ m → m < 5 → m * m ≤ num → ¬ m ∣ num := by
      intro m hm hlt _ hdvd
      interval_cases m <;> omega
    rw [isPrimeFrom_iff hdiv.1 hdiv.2 rfl (by omega) hbelow, Nat.prime_def_le_sqrt]
    simp only [Nat.le_sqrt]
    exact ⟨fun h => ⟨by omega, h⟩, fun h => h.2⟩

theorem nextPrimeFrom_spec {num k : ℕ} (hk : k < fuel) (hprime : (num + 2 * k).Prime) :
    (nextPrimeFrom fuel num).Prime ∧ num ≤ nextPrimeFrom fuel num ∧ nextPrimeFrom fuel num ≤ num + 2 * k := by
  induction fuel generalizing num k with
  | zero => omega
  | succ fuel ih =>
    rw [nextPrimeFrom]
    split_ifs with hnum
    · exact ⟨(isPrime_iff num).1 hnum, le_rfl, Nat.le_add_right _ _⟩
    · cases k with
      | zero => exact absurd ((isPrime_iff num).2 hprime) hnum
      | succ k =>
        have hshift : num + 2 + 2 * k = num + 2 * (k + 1) := by ring
        obtain ⟨hfound, hge, hle⟩ := ih (k := k) (by omega) (by rwa [hshift])
        exact ⟨hfound, by omega, by omega⟩

theorem nextPrime_prime (num : ℕ) : (nextPrime num).Prime := by
  have hodd : ∀ n, 2 < n → n % 2 = 1 → (nextPrimeFrom n n).Prime := by
    intro n hn hmod
    obtain ⟨p, hp, hlt, hle⟩ := Nat.exists_prime_lt_and_le_two_mul n (by omega)
    have hpodd : p % 2 = 1 := (hp.eq_two_or_odd).resolve_left (by omega)
    refine (nextPrimeFrom_spec (k := (p - n) / 2) (by omega) ?_).1
    rwa [show n + 2 * ((p - n) / 2) = p by omega]
  unfold nextPrime
  split_ifs with hsmall heven
  · exact Nat.prime_two
  · exact hodd _ (by omega) (by omega)
  · exact hodd _ (by omega) (by omega)

/-! ## Filling the table -/

structure BackendCursor (P : Type*) where
  peer : P
  offset : ℕ
  skip : ℕ
  next : ℕ := 0

/-- the entry a backend comes to after `k` steps -/
def BackendCursor.position (b : BackendCursor P) (size k : ℕ) : ℕ := (b.offset + k * b.skip) % size

def taken (entries : List (Option P)) (pos : ℕ) : Bool := (entries[pos]?.join).isSome

/-- the inner loop: the first free entry on the way of a backend -/
def claim (size : ℕ) (entries : List (Option P)) : ℕ → BackendCursor P → Option (ℕ × BackendCursor P)
  | 0, _ => none
  | fuel + 1, b =>
    let pos := b.position size b.next
    let b := { b with next := b.next + 1 }
    if taken entries pos then claim size entries fuel b else some (pos, b)

/-- the loop over the backends, with its `break` -/
def pass (size : ℕ) : List (BackendCursor P) → List (Option P) → ℕ →
    Option (List (BackendCursor P) × List (Option P) × ℕ)
  | [], entries, filled => some ([], entries, filled)
  | b :: rest, entries, filled =>
    (claim size entries size b).bind fun r =>
      let entries := entries.set r.1 (some r.2.peer)
      let filled := filled + 1
      if filled = size then some (r.2 :: rest, entries, filled)
      else (pass size rest entries filled).map fun s => (r.2 :: s.1, s.2)

def fill (size : ℕ) : ℕ → List (BackendCursor P) → List (Option P) → ℕ → Option (List (Option P))
  | 0, _, entries, filled => if filled < size then none else some entries
  | fuel + 1, backends, entries, filled =>
    if filled < size then (pass size backends entries filled).bind fun r => fill size fuel r.1 r.2.1 r.2.2
      else some entries

end MaglevHashLB

structure LookupTable (P : Type*) where
  entries : List (Option P)
  fingerprint : Bytes

structure MaglevHashLB (P : Type*) where
  tableSize : ℕ
  hashOn : HashOn
  table : Option (LookupTable P) := none

namespace MaglevHashLB

def kDefaultTableSize : ℕ := 65537
def kMinTableSize : ℕ := 257
def kMaxTableSize : ℕ := 1048583

def make (tableSize : ℕ) (hashOn : Bytes) : MaglevHashLB P where
  tableSize := nextPrime (max kMinTableSize (min tableSize kMaxTableSize))
  hashOn := parseHashOn hashOn

def backendsOf (h : Hashing P) (size : ℕ) (config : P → PeerConfig) (p : P) : List (BackendCursor P) :=
  (List.range (max (config p).weight 1).toNat).map fun replica =>
    let id := (config p).name ++ str "#" ++ toText replica
    { peer := p, offset := h.murmurHash64 id 0 % size, skip := h.murmurHash64 id 0x9e3779b9 % (size - 1) + 1 }

def buildTable (h : Hashing P) (size : ℕ) (config : P → PeerConfig) (avail : List P) :
    Except SelectFailure (LookupTable P) :=
  let backends := avail.flatMap (backendsOf h size config)
  let fingerprint := computeFingerprint config avail
  if backends.isEmpty then .ok { entries := [], fingerprint := fingerprint }
  else
    match fill size size backends (List.replicate size none) 0 with
    | some entries => .ok { entries := entries, fingerprint := fingerprint }
    | none => .error .loops

def lookup (table : LookupTable P) (hash : ℕ) : Option P :=
  if table.entries = [] then none else table.entries[hash % table.entries.length]?.join

def select (lb : MaglevHashLB P) (h : Hashing P) (g : PeerGroup P) (nowMs : ℕ) (ctx : RequestContext) :
    Except SelectFailure (Option P) × MaglevHashLB P :=
  let avail := g.available nowMs
  let r := selectThrough LookupTable.fingerprint (buildTable h lb.tableSize g.config avail)
    (fun table => lookup table (h.murmurHash64 (hashKey lb.hashOn ctx) 0)) (computeFingerprint g.config avail) lb.table
  (r.1, { lb with table := r.2 })

/-! ## The table is filled -/

section Fill

variable {size : ℕ} {entries : List (Option P)} {b : BackendCursor P}

/-- what a backend has walked over is taken -/
structure Walked (size : ℕ) (entries : List (Option P)) (b : BackendCursor P) : Prop where
  skip_pos : 0 < b.skip
  skip_lt : b.skip < size
  seen : ∀ k < b.next, taken entries (b.position size k) = true

theorem exists_position (hprime : size.Prime) (hpos : 0 < b.skip) (hlt : b.skip < size) {q : ℕ} (hq : q < size) :
    ∃ k < size, b.position size k = q := by
  have : Fact size.Prime := ⟨hprime⟩
  have hunit : (b.skip : ZMod size) ≠ 0 := by
    rw [Ne, ZMod.natCast_eq_zero_iff]
    exact Nat.not_dvd_of_pos_of_lt hpos hlt
  refine ⟨((q - b.offset : ZMod size) * (b.skip : ZMod size)⁻¹).val, ZMod.val_lt _, ?_⟩
  have hcast : ((b.offset + ((q - b.offset : ZMod size) * (b.skip : ZMod size)⁻¹).val * b.skip : ℕ) : ZMod size) =
      (q : ℕ) := by
    push_cast
    rw [ZMod.natCast_val, ZMod.cast_id, mul_assoc, inv_mul_cancel₀ hunit]
    ring
  have hmod := (ZMod.natCast_eq_natCast_iff' _ _ _).1 hcast
  rw [Nat.mod_eq_of_lt hq] at hmod
  exact hmod

theorem claim_free {k : ℕ} (hk : b.next ≤ k) (hfuel : k < b.next + fuel)
    (hfree : taken entries (b.position size k) = false) :
    ∃ j, b.next ≤ j ∧ claim size entries fuel b = some (b.position size j, { b with next := j + 1 }) ∧
      taken entries (b.position size j) = false ∧ ∀ i, b.next ≤ i → i < j →
        taken entries (b.position size i) = true := by
  induction fuel generalizing b with
  | zero => omega
  | succ fuel ih =>
    rw [claim]
    by_cases htaken : taken entries (b.position size b.next) = true
    · rw [if_pos htaken]
      have hne : b.next ≠ k := by
        rintro rfl
        rw [hfree] at htaken
        cases htaken
      obtain ⟨j, hj, heq, hfirst, hbefore⟩ := ih (b := { b with next := b.next + 1 }) (by dsimp only; omega)
        (by dsimp only; omega) hfree
      dsimp only at hj
      refine ⟨j, by omega, heq, hfirst, fun i hi hij => ?_⟩
      rcases Nat.eq_or_lt_of_le hi with rfl | hi
      · exact htaken
      · exact hbefore i hi hij
    · rw [if_neg htaken]
      exact ⟨b.next, le_rfl, rfl, Bool.not_eq_true _ ▸ htaken, fun i hi hij => absurd hij (by omega)⟩

theorem taken_set {pos : ℕ} {p : P} {i : ℕ} (hpos : pos < entries.length) :
    taken (entries.set pos (some p)) i = (taken entries i || i == pos) := by
  unfold taken
  rcases eq_or_ne i pos with rfl | hne
  · simp [hpos]
  · simp [hne, List.getElem?_set_ne (Ne.symm hne)]

theorem Walked.mono {entries' : List (Option P)} (h : Walked size entries b)
    (hmono : ∀ i, taken entries i = true → taken entries' i = true) : Walked size entries' b :=
  ⟨h.skip_pos, h.skip_lt, fun k hk => hmono _ (h.seen k hk)⟩

theorem Walked.claim (hprime : size.Prime) (hlength : entries.length = size) (h : Walked size entries b)
    (hfree : ∃ q < size, taken entries q = false) :
    ∃ pos b', claim size entries size b = some (pos, b') ∧ pos < size ∧ taken entries pos = false ∧ b'.peer = b.peer ∧
      Walked size (entries.set pos (some b.peer)) b' := by
  obtain ⟨q, hq, hqfree⟩ := hfree
  obtain ⟨k, hk, rfl⟩ := exists_position hprime h.skip_pos h.skip_lt hq
  have hnext : b.next ≤ k := by
    by_contra hseen
    rw [h.seen k (by omega)] at hqfree
    cases hqfree
  have hfuel : k < b.next + size := by omega
  obtain ⟨j, hj, heq, hfirst, hbefore⟩ := claim_free hnext hfuel hqfree
  have hlt : b.position size j < size := Nat.mod_lt _ hprime.pos
  refine ⟨_, _, heq, hlt, hfirst, rfl, ⟨h.skip_pos, h.skip_lt, ?_⟩⟩
  intro i hi
  change i < j + 1 at hi
  change taken _ (b.position size i) = true
  rw [taken_set (hlength ▸ hlt), Bool.or_eq_true, beq_iff_eq]
  rcases Nat.lt_succ_iff_lt_or_eq.1 hi with hij | rfl
  · rcases lt_or_ge i b.next with hseen | hseen
    · exact .inl (h.seen i hseen)
    · exact .inl (hbefore i hseen hij)
  · exact .inr rfl

/-- a table of peers of `avail` in the making -/
structure Filling (size : ℕ) (avail : List P) (entries : List (Option P)) (filled : ℕ) : Prop where
  length_eq : entries.length = size
  count_eq : entries.countP isSome = filled
  mem : ∀ p, some p ∈ entries → p ∈ avail

variable {avail : List P} {filled : ℕ}

theorem Filling.le (h : Filling size avail entries filled) : filled ≤ size := by
  rw [← h.count_eq, ← h.length_eq]
  exact countP_le_length

theorem Filling.exists_free (h : Filling size avail entries filled) (hlt : filled < size) :
    ∃ q < size, taken entries q = false := by
  by_contra hnone
  push Not at hnone
  refine hlt.ne ?_
  rw [← h.count_eq, ← h.length_eq, countP_eq_length]
  intro e he
  obtain ⟨q, hq, rfl⟩ := getElem_of_mem he
  have htaken := hnone q (h.length_eq ▸ hq)
  unfold taken at htaken
  rw [List.getElem?_eq_getElem hq] at htaken
  exact Bool.eq_true_of_not_eq_false htaken

theorem Filling.set (h : Filling size avail entries filled) {pos : ℕ} (hpos : pos < size)
    (hfree : taken entries pos = false)
    {p : P} (hp : p ∈ avail) : Filling size avail (entries.set pos (some p)) (filled + 1) := by
  have hlt : pos < entries.length := h.length_eq ▸ hpos
  refine ⟨by rw [length_set, h.length_eq], ?_, ?_⟩
  · unfold taken at hfree
    rw [List.getElem?_eq_getElem hlt] at hfree
    rw [countP_set hlt, h.count_eq]
    simp only [join_some] at hfree
    simp [hfree]
  · intro q hq
    rcases mem_or_eq_of_mem_set hq with hq | hq
    · exact h.mem q hq
    · rw [some.inj hq]
      exact hp

/-- the backends that take part -/
def Ready (size : ℕ) (avail : List P) (entries : List (Option P)) (backends : List (BackendCursor P)) : Prop :=
  ∀ b ∈ backends, Walked size entries b ∧ b.peer ∈ avail

variable {backends : List (BackendCursor P)}

theorem Ready.mono {entries' : List (Option P)} (h : Ready size avail entries backends)
    (hmono : ∀ i, taken entries i = true → taken entries' i = true) : Ready size avail entries' backends :=
  fun b hb => ⟨(h b hb).1.mono hmono, (h b hb).2⟩

/-- **One round of the backends.** It ends, and with at least one more entry taken. -/
theorem pass_ok (hprime : size.Prime) (hfill : Filling size avail entries filled)
    (hready : Ready size avail entries backends) (hlt : filled < size) :
    ∃ backends' entries' filled', pass size backends entries filled = some (backends', entries', filled') ∧
      Filling size avail entries' filled' ∧ Ready size avail entries' backends' ∧
      (∀ i, taken entries i = true → taken entries' i = true) ∧ backends'.length = backends.length ∧
      filled ≤ filled' ∧ (backends ≠ [] → filled < filled') := by
  induction backends generalizing entries filled with
  | nil => exact ⟨[], entries, filled, rfl, hfill, hready, fun _ h => h, rfl, le_rfl, fun h => absurd rfl h⟩
  | cons b rest ih =>
    obtain ⟨⟨hwalked, hpeer⟩, hrest⟩ := forall_mem_cons.1 hready
    obtain ⟨pos, b', hclaim, hpos, hfree, hsame, hwalked'⟩ :=
      hwalked.claim hprime hfill.length_eq (hfill.exists_free hlt)
    have hmono : ∀ i, taken entries i = true → taken (entries.set pos (some b.peer)) i = true := by
      intro i hi
      rw [taken_set (hfill.length_eq ▸ hpos), hi, Bool.true_or]
    have hset := hfill.set hpos hfree hpeer
    rw [pass, hclaim, bind_some]
    dsimp only
    rw [hsame]
    split_ifs with hfull
    · exact ⟨_, _, _, rfl, hset, forall_mem_cons.2 ⟨⟨hwalked', hsame ▸ hpeer⟩, Ready.mono hrest hmono⟩, hmono, rfl,
        Nat.le_succ _, fun _ => Nat.lt_succ_self _⟩
    · obtain ⟨backends', entries', filled', hpass, hfill', hready', hmono', hcount, hle, -⟩ :=
        ih hset (Ready.mono hrest hmono) (by omega)
      rw [hpass]
      refine ⟨_, _, _, rfl, hfill', forall_mem_cons.2 ⟨⟨hwalked'.mono hmono', hsame ▸ hpeer⟩, hready'⟩,
        fun i hi => hmono' i (hmono i hi), by simp [hcount], by omega, fun _ => by omega⟩

theorem fill_full (hprime : size.Prime) (hne : backends ≠ []) (hfill : Filling size avail entries filled)
    (hready : Ready size avail entries backends) (hfuel : size ≤ filled + fuel) :
    ∃ entries', fill size fuel backends entries filled = some entries' ∧ Filling size avail entries' size := by
  induction fuel generalizing backends entries filled with
  | zero =>
    have hle := hfill.le
    rw [fill, if_neg (by omega)]
    exact ⟨entries, rfl, (by omega : filled = size) ▸ hfill⟩
  | succ fuel ih =>
    rw [fill]
    split_ifs with hlt
    · obtain ⟨backends', entries', filled', hpass, hfill', hready', -, hcount, -, hmore⟩ :=
        pass_ok hprime hfill hready hlt
      have hmore := hmore hne
      rw [hpass]
      refine ih ?_ hfill' hready' (by dsimp only; omega)
      rwa [← length_pos_iff, hcount, length_pos_iff]
    · have hle := hfill.le
      exact ⟨entries, rfl, (by omega : filled = size) ▸ hfill⟩

end Fill

variable {h : Hashing P} {size : ℕ} {config : P → PeerConfig} {avail : List P} {table : LookupTable P}

theorem buildTable_fingerprint (htable : buildTable h size config avail = .ok table) :
    table.fingerprint = computeFingerprint config avail := by
  unfold buildTable at htable
  dsimp only at htable
  split_ifs at htable
  · rw [← Except.ok.inj htable]
  · split at htable
    · rw [← Except.ok.inj htable]
    · cases htable

/-- **The table is built**, and every entry holds an available peer. -/
theorem buildTable_ok (hprime : size.Prime) (hne : avail ≠ []) : ∃ table, buildTable h size config avail = .ok table ∧
    table.entries.length = size ∧ ∀ e ∈ table.entries, ∃ p ∈ avail, e = some p := by
  have hbackends : avail.flatMap (backendsOf h size config) ≠ [] := by
    obtain ⟨p, hp⟩ := exists_mem_of_ne_nil _ hne
    intro hnil
    have hp0 := flatMap_eq_nil_iff.1 hnil p hp
    rw [backendsOf, map_eq_nil_iff, range_eq_nil] at hp0
    omega
  have hready : Ready size avail (List.replicate size none) (avail.flatMap (backendsOf h size config)) := by
    intro b hb
    obtain ⟨p, hp, hb⟩ := mem_flatMap.1 hb
    obtain ⟨i, -, rfl⟩ := mem_map.1 hb
    refine ⟨⟨Nat.succ_pos _, ?_, fun k hk => absurd hk (Nat.not_lt_zero k)⟩, hp⟩
    have htwo := hprime.two_le
    have hmod := Nat.mod_lt (h.murmurHash64 ((config p).name ++ str "#" ++ toText i) 0x9e3779b9)
      (show 0 < size - 1 by omega)
    dsimp only
    omega
  have hempty : Filling size avail (List.replicate size none) 0 := by
    refine ⟨length_replicate, ?_, fun p hp => absurd (eq_of_mem_replicate hp) (some_ne_none p)⟩
    rw [countP_eq_zero]
    intro e he
    rw [eq_of_mem_replicate he]
    exact Bool.false_ne_true
  obtain ⟨entries, hfill, hfull⟩ := fill_full hprime hbackends hempty hready (Nat.le_add_left size 0)
  refine ⟨{ entries := entries, fingerprint := computeFingerprint config avail }, ?_, hfull.length_eq, ?_⟩
  · unfold buildTable
    rw [if_neg (by simpa using hbackends), hfill]
  · intro e he
    have hsome := countP_eq_length.1 (hfull.count_eq.trans hfull.length_eq.symm) e he
    obtain ⟨p, rfl⟩ := isSome_iff_exists.1 hsome
    exact ⟨p, hfull.mem p he, rfl⟩

theorem buildTable_nil (hash : ℕ) :
    (buildTable h size config []).map (fun table => lookup table hash) = .ok none := rfl

/-- **A table answers** with one of the peers it is built from. -/
theorem buildTable_answers (h : Hashing P) (hprime : size.Prime) (hne : avail ≠ []) :
    ∃ table, buildTable h size config avail = .ok table ∧ ∀ hash, ∃ p ∈ avail, lookup table hash = some p := by
  obtain ⟨table, htable, hlength, hall⟩ := buildTable_ok hprime hne
  refine ⟨table, htable, fun hash => ?_⟩
  have hpos : 0 < table.entries.length := hlength ▸ hprime.pos
  have hlt : hash % table.entries.length < table.entries.length := Nat.mod_lt _ hpos
  obtain ⟨p, hp, heq⟩ := hall _ (getElem_mem hlt)
  refine ⟨p, hp, ?_⟩
  unfold lookup
  rw [if_neg (length_pos_iff.1 hpos), List.getElem?_eq_getElem hlt, heq]
  rfl

end MaglevHashLB

end Coropact.Gateway
