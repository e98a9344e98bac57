/-
The bounded queue is first in, first out.

What a run has done is read off its trace (`history`): the values in the order of their reservations, the values moved
out, the positions published, and how many cells have been released. The capacity is a power of two of at least 2; all
positions are below 2 ^ 63, the sequence numbers included, since a released cell's sequence number is the position it
waits for (`PositionsBelow`). Nothing is assumed about the number of producers or the interleaving.

`QueueInv` is about the cells: the ring holds the positions from the first cell not released on, a published one with
its value. `ConsumerAt` and `ProducerAt` say what a thread knows at each of its program points. With one cell the
sequence numbers of a published and of a released cell would be the same, so this is where a capacity of 2 is needed.
-/
import Coropact.Ds.MpscBoundedQueue

namespace Coropact.Ds

open Coropact.Machine Coropact.Ring BitVec Function

/-! ## What a run has done -/

structure History (T : Type*) where
  reserved : List T := []
  popped : List (Option T) := []
  published : List ℕ := []
  releases : ℕ := 0
deriving DecidableEq, Repr

open History

section History

variable {T ι : Type*}

def History.next (h : History T) : QueueAccess T → History T
  | .reserve value _ _ true => { h with reserved := h.reserved ++ [value] }
  | .publish position => { h with published := h.published ++ [position.toNat] }
  | .take _ found => { h with popped := h.popped ++ [found] }
  | .release _ => { h with releases := h.releases + 1 }
  | _ => h

def history (tr : List (Option ι × QueueAccess T)) : History T := tr.foldl (fun h e => h.next e.2) {}

/-- reserved and not moved out -/
def History.waiting (h : History T) : List T := h.reserved.drop h.popped.length

/-- a push takes effect with its reservation, a pop when the value is moved out -/
def QueueAccess.effect : QueueAccess T → Option (FifoOp T)
  | .reserve value _ _ true => some (.enqueue value)
  | .take _ found => some (.dequeue found)
  | _ => none

def effects (tr : List (Option ι × QueueAccess T)) : List (FifoOp T) := tr.filterMap fun e => e.2.effect

/-- the load with which `TryPush` returns kFull -/
def QueueAccess.returnsFull : QueueAccess T → Prop
  | .pushSequence position sequence => difference sequence position < 0
  | _ => False

/-- the load with which `TryPop` returns nullopt -/
def QueueAccess.returnsEmpty : QueueAccess T → Prop
  | .popSequence position sequence => difference sequence (position + 1) < 0
  | _ => False

/-- no position reaches 2 ^ 63: neither the next to be reserved nor a sequence number a released cell has got -/
def PositionsBelow (C : ℕ) (h : History T) : Prop := h.reserved.length < 2 ^ 63 ∧ h.releases + C ≤ 2 ^ 63

instance (C : ℕ) (h : History T) : Decidable (PositionsBelow C h) :=
  inferInstanceAs (Decidable (_ ∧ _))

structure LinearizableFifo [DecidableEq T] (C : ℕ) (tr : List (Option ι × QueueAccess T)) : Prop where
  linear : run fifoStep [] (effects tr) = some (history tr).waiting
  /-- nothing is lost, duplicated or out of order -/
  order : (history tr).reserved.map some = (history tr).popped ++ (history tr).waiting.map some
  /-- reservations are numbered by their positions -/
  numbered : ∀ l i value position seen r, tr = l ++ (i, .reserve value position seen true) :: r →
    position.toNat = (history l).reserved.length
  /-- what is moved out is the oldest value not moved out before, and it has been published -/
  take : ∀ l i position found r, tr = l ++ (i, .take position found) :: r →
    position.toNat = (history l).popped.length ∧ position.toNat ∈ (history l).published ∧
      ∃ value, (history l).reserved[position.toNat]? = some value ∧ found = some value
  empty : ∀ l i a r, tr = l ++ (i, a) :: r → a.returnsEmpty →
    (history l).waiting = [] ∨ (history l).popped.length ∉ (history l).published
  /-- at the moment of the load -/
  full : ∀ l i a r, tr = l ++ (i, a) :: r → a.returnsFull → (history l).reserved.length = (history l).releases + C

theorem history_snoc (l : List (Option ι × QueueAccess T)) (e : Option ι × QueueAccess T) :
    history (l ++ [e]) = (history l).next e.2 := by
  simp [history]

theorem effects_snoc (l : List (Option ι × QueueAccess T)) (e : Option ι × QueueAccess T) :
    effects (l ++ [e]) = effects l ++ e.2.effect.toList := by
  cases he : e.2.effect <;> simp [effects, he]

theorem history_effects (tr : List (Option ι × QueueAccess T)) :
    (effects tr).filterMap FifoOp.enqueued = (history tr).reserved ∧
      (effects tr).filterMap FifoOp.dequeued = (history tr).popped := by
  induction tr using List.reverseRecOn with
  | nil => exact ⟨rfl, rfl⟩
  | append_singleton l e ih =>
    obtain ⟨i, a⟩ := e
    obtain ⟨hres, hpop⟩ := ih
    rw [history_snoc, effects_snoc]
    cases a with
    | reserve value position seen ok =>
      cases ok <;>
        simp [QueueAccess.effect, next, FifoOp.enqueued, FifoOp.dequeued, hres, hpop]
    | _ => simp [QueueAccess.effect, next, FifoOp.enqueued, FifoOp.dequeued, hres, hpop]

theorem PositionsBelow.of_next {C : ℕ} {h : History T} {a : QueueAccess T} (hb : PositionsBelow C (h.next a)) :
    PositionsBelow C h := by
  obtain ⟨hres, hrel⟩ := hb
  cases a with
  | reserve value position seen ok =>
    cases ok with
    | false => exact ⟨hres, hrel⟩
    | true =>
      simp only [next, List.length_append] at hres
      exact ⟨by omega, hrel⟩
  | release position =>
    simp only [next] at hrel
    exact ⟨hres, by omega⟩
  | _ => exact ⟨hres, hrel⟩

theorem PositionsBelow.of_append {C : ℕ} {l r : List (Option ι × QueueAccess T)}
    (hb : PositionsBelow C (history (l ++ r))) : PositionsBelow C (history l) := by
  induction r using List.reverseRecOn with
  | nil => rwa [List.append_nil] at hb
  | append_singleton r e ih =>
    rw [← List.append_assoc, history_snoc] at hb
    exact ih hb.of_next

end History

/-! ## The cells -/

variable {p : BitVec 64}

section Cells

variable {T : Type*} {C : ℕ} {h h' : History T} {q q' : MpscBoundedQueue T}

/-- what the cell of position `p` holds; the value until it is moved out -/
structure CellOk (h : History T) (p : ℕ) (c : Cell T) : Prop where
  waits : p ∉ h.published → c.sequence.toNat = p
  published : p ∈ h.published → c.sequence.toNat = p + 1
  value : p ∈ h.published → h.popped.length ≤ p → c.value = h.reserved[p]?

structure QueueInv (C : ℕ) (h : History T) (q : MpscBoundedQueue T) : Prop where
  enqueue : q.enqueuePosition.toNat = h.reserved.length
  room : h.reserved.length ≤ h.releases + C
  released : ∀ p < h.releases, p ∈ h.published
  reserved : ∀ p ∈ h.published, p < h.reserved.length
  cells : Holds C h.releases q.buffer (CellOk h)

theorem QueueInv.window (hq : QueueInv C h q) {p : ℕ} (hp : p < h.reserved.length) (hpub : p ∉ h.published) :
    h.releases ≤ p ∧ p < h.releases + C :=
  ⟨not_lt.1 fun hlt => hpub (hq.released p hlt), hp.trans_le hq.room⟩

theorem QueueInv.releases_le (hq : QueueInv C h q) : h.releases ≤ h.reserved.length := by
  rcases Nat.eq_zero_or_pos h.releases with h0 | hpos
  · omega
  · have := hq.reserved _ (hq.released (h.releases - 1) (by omega))
    omega

theorem CellOk.sequence_mem {p : ℕ} {c : Cell T} (hc : CellOk h p c) :
    c.sequence.toNat = p ∨ p ∈ h.published ∧ c.sequence.toNat = p + 1 := by
  by_cases hp : p ∈ h.published
  · exact .inr ⟨hp, hc.published hp⟩
  · exact .inl (hc.waits hp)

theorem difference_eq {a b : BitVec 64} (ha : a.toNat < 2 ^ 63) (hb : b.toNat < 2 ^ 63) :
    difference a b = (a.toNat : ℤ) - b.toNat := by
  rw [difference, toInt_eq_toNat_of_lt (by omega), toInt_eq_toNat_of_lt (by omega)]

theorem toNat_add_one (hp : p.toNat < 2 ^ 63) : (p + 1).toNat = p.toNat + 1 := by
  have hone : (1 : BitVec 64).toNat = 1 := rfl
  rw [toNat_add, hone, Nat.mod_eq_of_lt (by omega)]

variable (hidx : ∀ p : BitVec 64, index C p = p.toNat % C)

include hidx

/-- a producer that has read a position up to the next one finds a smaller sequence number only if the ring is full -/
theorem push_difference_neg_iff (hC : 2 ≤ C) (hb : PositionsBelow C h) (hq : QueueInv C h q)
    (hp : p.toNat ≤ h.reserved.length) :
    difference (q.cell C p).sequence p < 0 ↔ p.toNat = h.releases + C := by
  obtain ⟨hres, hrel⟩ := hb
  have hroom := hq.room
  have hlt : ∀ w, h.releases ≤ w → w < h.releases + C → w % C = p.toNat % C → CellOk h w (q.cell C p) := by
    intro w hw hw' hmod
    have := hq.cells w hw hw'
    rwa [hmod, ← hidx] at this
  rcases Nat.lt_or_ge p.toNat (h.releases + C) with hin | hout
  · obtain ⟨w, hw, hw', hmod, hpw⟩ := exists_window (by omega) hin
    rcases (hlt w hw hw' hmod).sequence_mem with hs | ⟨hpub, hs⟩
    · rw [difference_eq (by omega) (by omega)]
      omega
    · have := hq.reserved w hpub
      rw [difference_eq (by omega) (by omega)]
      omega
  · -- one lap ahead of the first cell not released
    have hmod : h.releases % C = p.toNat % C := by
      rw [show p.toNat = h.releases + C by omega, Nat.add_mod_right]
    rcases (hlt h.releases le_rfl (by omega) hmod).sequence_mem with hs | ⟨-, hs⟩ <;>
      · rw [difference_eq (by omega) (by omega)]
        omega

theorem pop_difference (hC : 2 ≤ C) (hb : PositionsBelow C h) (hq : QueueInv C h q) (hp : p.toNat = h.releases) :
    difference (q.cell C p).sequence (p + 1) = if h.releases ∈ h.published then 0 else -1 := by
  obtain ⟨-, hrel⟩ := hb
  have hcell : CellOk h h.releases (q.cell C p) := by
    have := hq.cells h.releases le_rfl (by omega)
    rwa [← hp, ← hidx, hp] at this
  have hnext : (p + 1).toNat = h.releases + 1 := by rw [toNat_add_one (by omega), hp]
  split_ifs with hpub
  · have hs := hcell.published hpub
    rw [difference_eq (by omega) (by omega)]
    omega
  · have hs := hcell.waits hpub
    rw [difference_eq (by omega) (by omega)]
    omega

theorem QueueInv.setCell (hq : QueueInv C h q) (h' : History T) (henq : h'.reserved = h.reserved)
    (hrel : h'.releases = h.releases) (hpub : ∀ p ∈ h'.published, p < h.reserved.length)
    (hsub : ∀ p ∈ h.published, p ∈ h'.published) (hp : h.releases ≤ p.toNat) (hp' : p.toNat < h.releases + C)
    {c : Cell T} (hc : CellOk h' p.toNat c) (hother : ∀ w c, w ≠ p.toNat → CellOk h w c → CellOk h' w c) :
    QueueInv C h' (q.setCell C p c) where
  enqueue := by rw [henq]; exact hq.enqueue
  room := by rw [henq, hrel]; exact hq.room
  released := by rw [hrel]; exact fun w hw => hsub w (hq.released w hw)
  reserved := by rw [henq]; exact hpub
  cells := by
    rw [hrel, MpscBoundedQueue.setCell, hidx]
    exact hq.cells.update hp hp' hc hother

theorem QueueInv.cell (hq : QueueInv C h q) (hp : h.releases ≤ p.toNat) (hp' : p.toNat < h.releases + C) :
    CellOk h p.toNat (q.cell C p) := by
  have := hq.cells p.toNat hp hp'
  rwa [← hidx] at this

theorem QueueInv.construct (hq : QueueInv C h q) (hp : p.toNat < h.reserved.length) (hpub : p.toNat ∉ h.published)
    (value : T) :
    QueueInv C h (q.setCell C p { q.cell C p with value := some value }) := by
  obtain ⟨hlo, hhi⟩ := hq.window hp hpub
  refine hq.setCell hidx h rfl rfl hq.reserved (fun _ => id) hlo hhi ?_ fun _ _ _ => id
  exact ⟨(hq.cell hidx hlo hhi).waits, fun h => absurd h hpub, fun h => absurd h hpub⟩

theorem QueueInv.publish (hb : PositionsBelow C h) (hq : QueueInv C h q) (hp : p.toNat < h.reserved.length)
    (hpub : p.toNat ∉ h.published) (hvalue : (q.cell C p).value = h.reserved[p.toNat]?) :
    QueueInv C (h.next (.publish p)) (q.setCell C p { q.cell C p with sequence := p + 1 }) := by
  obtain ⟨hlo, hhi⟩ := hq.window hp hpub
  have hmem : ∀ w, w ∈ (h.next (.publish p)).published ↔ w ∈ h.published ∨ w = p.toNat := fun w => by simp [next]
  refine hq.setCell hidx (h.next (.publish p)) rfl rfl ?_ (fun w hw => (hmem w).2 (.inl hw)) hlo hhi ?_
    fun w c hne hc => ?_
  · intro w hw
    rcases (hmem w).1 hw with hw | rfl
    · exact hq.reserved w hw
    · exact hp
  · have hpos := hb.1
    exact ⟨fun hn => absurd ((hmem _).2 (.inr rfl)) hn, fun _ => toNat_add_one (by omega), fun _ _ => hvalue⟩
  · have hiff : w ∈ (h.next (.publish p)).published ↔ w ∈ h.published := by rw [hmem, or_iff_left hne]
    exact ⟨fun hn => hc.waits (mt hiff.2 hn), fun hw => hc.published (hiff.1 hw), fun hw => hc.value (hiff.1 hw)⟩

theorem QueueInv.take (hC : 2 ≤ C) (hq : QueueInv C h q) (hp : p.toNat = h.releases)
    (hpop : h.popped.length = h.releases) (found : Option T) :
    QueueInv C (h.next (.take p found)) (q.setCell C p { q.cell C p with value := none }) := by
  have hlen : (h.next (.take p found)).popped.length = h.releases + 1 := by simp [next, hpop]
  have hcell := hq.cell hidx hp.ge (show p.toNat < h.releases + C by omega)
  refine hq.setCell hidx (h.next (.take p found)) rfl rfl hq.reserved (fun _ => id) hp.ge (by omega) ?_
    fun w c _ hc => ?_
  · exact ⟨hcell.waits, hcell.published, fun _ hle => by omega⟩
  · exact ⟨hc.waits, hc.published, fun hw hle => hc.value hw (by omega)⟩

theorem QueueInv.release (hb : PositionsBelow C (h.next (.release p))) (hq : QueueInv C h q) (hp : p.toNat = h.releases)
    (hpub : h.releases ∈ h.published) :
    QueueInv C (h.next (.release p))
      (q.setCell C p { q.cell C p with sequence := p + BitVec.ofNat 64 C }) where
  enqueue := hq.enqueue
  room := hq.room.trans (by simp only [next]; omega)
  released := by
    intro w hw
    rcases Nat.lt_succ_iff_lt_or_eq.1 hw with hw | rfl
    · exact hq.released w hw
    · exact hpub
  reserved := hq.reserved
  cells := by
    have hbound : h.releases + 1 + C ≤ 2 ^ 63 := hb.2
    have hnot : h.releases + C ∉ h.published := fun hmem => by
      have := hq.reserved _ hmem
      have := hq.room
      omega
    have hcells : Holds C h.releases q.buffer (CellOk (h.next (.release p))) :=
      hq.cells.mono fun _ _ _ _ hc => ⟨hc.waits, hc.published, hc.value⟩
    rw [MpscBoundedQueue.setCell, hidx, hp]
    refine hcells.shift ⟨fun _ => ?_, fun hmem => absurd hmem hnot, fun hmem => absurd hmem hnot⟩
    rw [toNat_add, toNat_ofNat, hp, Nat.mod_eq_of_lt (show C < 2 ^ 64 by omega), Nat.mod_eq_of_lt (by omega)]

omit hidx

theorem QueueInv.reserve (hb : PositionsBelow C h) (hq : QueueInv C h q) (hroom : h.reserved.length < h.releases + C)
    (value : T) (p : BitVec 64) : QueueInv C (h.next (.reserve value p p true))
      { q with enqueuePosition := q.enqueuePosition + 1 } where
  enqueue := by
    have henq := hq.enqueue
    have hlt := hb.1
    rw [toNat_add_one (by omega), henq]
    simp [next]
  room := by
    simp only [next, List.length_append, List.length_singleton]
    omega
  released := hq.released
  reserved w hw := by
    have := hq.reserved w hw
    simp only [next, List.length_append]
    omega
  cells := hq.cells.mono fun w c _ _ hc =>
    ⟨hc.waits, hc.published, fun hw hle => by
      rw [hc.value hw hle]
      exact (List.getElem?_append_left (hq.reserved w hw)).symm⟩

end Cells

/-! ## The threads -/

/-- the position a producer has reserved and not published -/
def QueuePc.owns {T : Type*} : QueuePc T → Option ℕ
  | .construct _ position | .publish position => some position.toNat
  | _ => none

/-- what the consumer knows: the next position to pop is the first not released, until it has taken it -/
def ConsumerAt {T : Type*} (h : History T) (q : MpscBoundedQueue T) : QueuePc T → Prop
  | .idle | .reloadDequeue => q.dequeuePosition.toNat = h.releases ∧ h.popped.length = h.releases
  | .popSequence position =>
    position.toNat = h.releases ∧ q.dequeuePosition.toNat = h.releases ∧ h.popped.length = h.releases
  | .advance position =>
    position.toNat = h.releases ∧ q.dequeuePosition.toNat = h.releases ∧ h.popped.length = h.releases ∧
      h.releases ∈ h.published
  | .take position =>
    position.toNat = h.releases ∧ q.dequeuePosition.toNat = h.releases + 1 ∧ h.popped.length = h.releases ∧
      h.releases ∈ h.published
  | .release position _ =>
    position.toNat = h.releases ∧ q.dequeuePosition.toNat = h.releases + 1 ∧ h.popped.length = h.releases + 1 ∧
      h.releases ∈ h.published
  | _ => False

/-- what a producer knows; between reservation and publication the cell of its position is its own -/
def ProducerAt {T : Type*} (C : ℕ) (h : History T) (q : MpscBoundedQueue T) : QueuePc T → Prop
  | .idle | .reloadEnqueue _ => True
  | .pushSequence _ position => position.toNat ≤ h.reserved.length
  | .reserve _ position =>
    position.toNat ≤ h.reserved.length ∧ (position.toNat = h.reserved.length → h.reserved.length < h.releases + C)
  | .construct value position =>
    position.toNat < h.reserved.length ∧ position.toNat ∉ h.published ∧ h.reserved[position.toNat]? = some value
  | .publish position =>
    position.toNat < h.reserved.length ∧ position.toNat ∉ h.published ∧
      (q.cell C position).value = h.reserved[position.toNat]?
  | _ => False

structure Inv {T ι : Type*} (C : ℕ) (h : History T) (q : MpscBoundedQueue T) (pcs : Option ι → QueuePc T) : Prop where
  queue : QueueInv C h q
  consumer : ConsumerAt h q (pcs none)
  producers : ∀ i, ProducerAt C h q (pcs (some i))
  /-- no two producers have reserved the same position -/
  owners : ∀ i j p, (pcs (some i)).owns = some p → (pcs (some j)).owns = some p → i = j

section Threads

variable {T ι : Type*} {C : ℕ} {h h' : History T} {q q' : MpscBoundedQueue T} {pc pc' : QueuePc T}

theorem ConsumerAt.mono (hc : ConsumerAt h q pc) (hdeq : q'.dequeuePosition = q.dequeuePosition)
    (hpop : h'.popped = h.popped) (hrel : h'.releases = h.releases) (hpub : ∀ p ∈ h.published, p ∈ h'.published) :
    ConsumerAt h' q' pc := by
  cases pc with
  | advance position | take position | release position found =>
    obtain ⟨hp, hd, hl, hmem⟩ := hc
    simp only [ConsumerAt, hdeq, hpop, hrel]
    exact ⟨hp, hd, hl, hpub _ hmem⟩
  | idle | reloadDequeue | popSequence position =>
    simp only [ConsumerAt, hdeq, hpop, hrel]
    exact hc
  | _ => exact hc.elim

/-- what is reserved and released only grows, so a producer's knowledge stays if its own cell is left alone -/
theorem ProducerAt.mono (hp : ProducerAt C h q pc) (hres : h.reserved <+: h'.reserved) (hrel : h.releases ≤ h'.releases)
    (hown : ∀ p : BitVec 64, pc.owns = some p.toNat → p.toNat < h.reserved.length → p.toNat ∉ h.published →
      p.toNat ∉ h'.published ∧ (q'.cell C p).value = (q.cell C p).value) : ProducerAt C h' q' pc := by
  have hlen := hres.length_le
  have hget : ∀ p, p < h.reserved.length → h'.reserved[p]? = h.reserved[p]? := fun p hlt => by
    obtain ⟨r, hr⟩ := hres
    rw [← hr, List.getElem?_append_left hlt]
  cases pc with
  | idle | reloadEnqueue value => trivial
  | pushSequence value position => exact le_trans hp hlen
  | reserve value position =>
    obtain ⟨hle, hroom⟩ := hp
    refine ⟨hle.trans hlen, fun heq => ?_⟩
    omega
  | construct value position =>
    obtain ⟨hlt, hpub, hval⟩ := hp
    exact ⟨hlt.trans_le hlen, (hown position rfl hlt hpub).1, by rw [hget _ hlt, hval]⟩
  | publish position =>
    obtain ⟨hlt, hpub, hval⟩ := hp
    obtain ⟨hpub', hcell⟩ := hown position rfl hlt hpub
    exact ⟨hlt.trans_le hlen, hpub', by rw [hcell, hval, hget _ hlt]⟩
  | _ => exact hp

theorem ProducerAt.owned (hp : ProducerAt C h q pc) {p : ℕ} (hown : pc.owns = some p) :
    p < h.reserved.length ∧ p ∉ h.published := by
  cases pc with
  | construct value position | publish position =>
    obtain rfl := Option.some.inj hown
    exact ⟨hp.1, hp.2.1⟩
  | _ => cases hown

theorem cell_setCell_of_ne (hidx : ∀ p : BitVec 64, index C p = p.toNat % C) (hq : QueueInv C h q) {w : BitVec 64}
    (hp : p.toNat < h.reserved.length) (hpub : p.toNat ∉ h.published) (hw : h.releases ≤ w.toNat)
    (hw' : w.toNat < h.releases + C) (hne : p.toNat ≠ w.toNat) (c : Cell T) :
      (q.setCell C w c).cell C p = q.cell C p := by
  obtain ⟨hlo, hhi⟩ := hq.window hp hpub
  refine update_of_ne ?_ _ _
  rw [hidx, hidx]
  exact fun hc => hne (mod_inj hlo hhi hw hw' hc)

theorem ProducerAt.setCell (hidx : ∀ p : BitVec 64, index C p = p.toNat % C) (hp : ProducerAt C h q pc)
    (hq : QueueInv C h q) {w : BitVec 64} (hw : h.releases ≤ w.toNat) (hw' : w.toNat < h.releases + C)
    (hne : pc.owns ≠ some w.toNat) (c : Cell T) (h' : History T) (hres : h'.reserved = h.reserved)
    (hrel : h.releases ≤ h'.releases) (hpub : ∀ p ∈ h'.published, p ∈ h.published ∨ p = w.toNat) :
    ProducerAt C h' (q.setCell C w c) pc := by
  refine hp.mono (hres ▸ List.prefix_refl _) hrel fun p hown hlt hnot => ?_
  have hdiff : p.toNat ≠ w.toNat := fun heq => hne (by rw [hown, heq])
  refine ⟨fun hmem => ?_, by rw [cell_setCell_of_ne hidx hq hlt hnot hw hw' hdiff]⟩
  exact (hpub _ hmem).elim hnot hdiff

theorem cell_setCell_self (p : BitVec 64) (c : Cell T) : (q.setCell C p c).cell C p = c := update_self _ _ _

variable [DecidableEq ι] {pcs : Option ι → QueuePc T} {i : ι}

theorem Inv.pushed (inv : Inv C h q pcs) (hq : QueueInv C h' q') (hcon : ConsumerAt h' q' (pcs none))
    (hown : ProducerAt C h' q' pc') (hothers : ∀ j ≠ i, ProducerAt C h' q' (pcs (some j)))
    (howns : ∀ p, pc'.owns = some p → ∀ j ≠ i, (pcs (some j)).owns ≠ some p) :
    Inv C h' q' (update pcs (some i) pc') where
  queue := hq
  consumer := by
    rw [update_of_ne (by simp)]
    exact hcon
  producers j := by
    by_cases hj : j = i
    · rw [hj, update_self]
      exact hown
    · rw [update_of_ne (by simpa using hj)]
      exact hothers j hj
  owners j k p hjp hkp := by
    by_cases hj : j = i <;> by_cases hk : k = i
    · rw [hj, hk]
    · rw [hj, update_self] at hjp
      rw [update_of_ne (by simpa using hk)] at hkp
      exact absurd hkp (howns p hjp k hk)
    · rw [hk, update_self] at hkp
      rw [update_of_ne (by simpa using hj)] at hjp
      exact absurd hjp (howns p hkp j hj)
    · rw [update_of_ne (by simpa using hj)] at hjp
      rw [update_of_ne (by simpa using hk)] at hkp
      exact inv.owners j k p hjp hkp

theorem Inv.pushLoad (inv : Inv C h q pcs) (hown : ProducerAt C h q pc') (hnone : pc'.owns = none) :
    Inv C h q (update pcs (some i) pc') :=
  inv.pushed inv.queue inv.consumer hown (fun j _ => inv.producers j) fun p hp => by rw [hnone] at hp; cases hp

theorem Inv.popped (inv : Inv C h q pcs) (hq : QueueInv C h' q') (hcon : ConsumerAt h' q' pc')
    (hothers : ∀ j, ProducerAt C h' q' (pcs (some j))) : Inv C h' q' (update pcs none pc') where
  queue := hq
  consumer := by
    rw [update_self]
    exact hcon
  producers j := by
    rw [update_of_ne (by simp)]
    exact hothers j
  owners j k p hjp hkp := by
    exact inv.owners j k p hjp hkp

theorem Inv.popLoad (inv : Inv C h q pcs) (hcon : ConsumerAt h q pc') : Inv C h q (update pcs none pc') :=
  inv.popped inv.queue hcon inv.producers

variable (hidx : ∀ p : BitVec 64, index C p = p.toNat % C) (hC : 2 ≤ C) {a : QueueAccess T}

include hidx hC

theorem push_inv (inv : Inv C h q pcs) (hpc : pcs (some i) = pc) (hmove : PushStep C q pc a q' pc')
    (hb : PositionsBelow C (h.next a)) : Inv C (h.next a) q' (update pcs (some i) pc') := by
  have hi : ProducerAt C h q pc := hpc ▸ inv.producers i
  have hq := inv.queue
  have hne : ∀ p, pc.owns = some p → ∀ j ≠ i, (pcs (some j)).owns ≠ some p := fun p hp j hj hjp =>
    hj (inv.owners j i p hjp (hpc ▸ hp))
  cases hmove with
  | tryPush value => exact inv.pushLoad hq.enqueue.le rfl
  | room value position h0 =>
    refine inv.pushLoad ⟨hi, fun heq => ?_⟩ rfl
    have hnot := mt (push_difference_neg_iff hidx hC hb.of_next hq hi).2 (by rw [h0]; exact lt_irrefl 0)
    exact lt_of_le_of_ne hq.room fun hfull => hnot (heq.trans hfull)
  | full value position _ => exact inv.pushLoad trivial rfl
  | behind value position => exact inv.pushLoad trivial rfl
  | reload value => exact inv.pushLoad hq.enqueue.le rfl
  | missed value position => exact inv.pushLoad hq.enqueue.le rfl
  | reserve value =>
    have hroom := hi.2 hq.enqueue
    refine inv.pushed (hq.reserve hb.of_next hroom value _) (inv.consumer.mono rfl rfl rfl fun _ => id) ?_ ?_ ?_
    · refine ⟨?_, fun hmem => ?_, ?_⟩
      · simp only [hq.enqueue, next, List.length_append, List.length_singleton]
        omega
      · exact absurd (hq.reserved _ hmem) (by rw [hq.enqueue]; exact lt_irrefl _)
      · simp [hq.enqueue, next]
    · intro j _
      exact (inv.producers j).mono (List.prefix_append _ _) le_rfl fun _ _ _ hpub => ⟨hpub, rfl⟩
    · -- the others own positions reserved before
      intro p hp j _ hjp
      obtain rfl := Option.some.inj hp
      have := ((inv.producers j).owned hjp).1
      rw [hq.enqueue] at this
      exact lt_irrefl _ this
  | construct value position =>
    obtain ⟨hlt, hpub, hval⟩ := hi
    obtain ⟨hlo, hhi⟩ := hq.window hlt hpub
    refine inv.pushed (hq.construct hidx hlt hpub value) (inv.consumer.mono rfl rfl rfl fun _ => id) ?_ ?_ hne
    · exact ⟨hlt, hpub, by rw [cell_setCell_self]; exact hval.symm⟩
    · intro j hj
      exact (inv.producers j).setCell hidx hq hlo hhi (hne _ rfl j hj) _ h rfl le_rfl fun _ => .inl
  | publish position =>
    obtain ⟨hlt, hpub, hval⟩ := hi
    obtain ⟨hlo, hhi⟩ := hq.window hlt hpub
    refine inv.pushed (hq.publish hidx hb.of_next hlt hpub hval)
      (inv.consumer.mono rfl rfl rfl fun p hp => List.mem_append_left _ hp) trivial ?_ fun p hp => by cases hp
    intro j hj
    refine (inv.producers j).setCell hidx hq hlo hhi (hne _ rfl j hj) _ _ rfl le_rfl fun p hp => ?_
    simpa [next] using hp

theorem pop_inv (inv : Inv C h q pcs) (hpc : pcs none = pc) (hmove : PopStep C q pc a q' pc')
    (hb : PositionsBelow C (h.next a)) : Inv C (h.next a) q' (update pcs none pc') := by
  have hi : ConsumerAt h q pc := hpc ▸ inv.consumer
  have hq := inv.queue
  -- no producer works on a published cell
  have hfree : ∀ p ∈ h.published, ∀ j, (pcs (some j)).owns ≠ some p :=
    fun p hp j hjp => ((inv.producers j).owned hjp).2 hp
  cases hmove with
  | tryPop => exact inv.popLoad ⟨hi.1, hi⟩
  | ready position h0 =>
    obtain ⟨hp, hd, hl⟩ := hi
    refine inv.popLoad ⟨hp, hd, hl, by_contra fun hmem => ?_⟩
    rw [pop_difference hidx hC hb.of_next hq hp, if_neg hmem] at h0
    cases h0
  | empty position _ => exact inv.popLoad hi.2
  | behind position => exact inv.popLoad hi.2
  | reload => exact inv.popLoad ⟨hi.1, hi⟩
  | missed position => exact inv.popLoad ⟨hi.2.1, hi.2.1, hi.2.2.1⟩
  | advance =>
    obtain ⟨hp, hd, hl, hmem⟩ := hi
    have hlt : q.dequeuePosition.toNat < 2 ^ 63 := by
      have := hb.2
      simp only [next] at this
      omega
    refine inv.popped ⟨hq.enqueue, hq.room, hq.released, hq.reserved, hq.cells⟩
      ⟨hp, by rw [toNat_add_one hlt, hp]; rfl, hl, hmem⟩ fun j => ?_
    exact (inv.producers j).mono (List.prefix_refl _) le_rfl fun _ _ _ hpub => ⟨hpub, rfl⟩
  | take position =>
    obtain ⟨hp, hd, hl, hmem⟩ := hi
    refine inv.popped (hq.take hidx hC hp hl _) ⟨hp, hd, by simp [next, hl], hmem⟩ fun j => ?_
    exact (inv.producers j).setCell hidx hq hp.ge (by omega) (hfree _ (hp ▸ hmem) j) _ _ rfl le_rfl fun _ => .inl
  | release position found =>
    obtain ⟨hp, hd, hl, hmem⟩ := hi
    refine inv.popped (hq.release hidx hb hp hmem) ⟨hd, hl⟩ fun j => ?_
    exact (inv.producers j).setCell hidx hq hp.ge (by omega) (hfree _ (hp ▸ hmem) j) _ _ rfl (Nat.le_succ _)
      fun _ => .inl

end Threads

/-! ## What a step does to the queue it stands for -/

section Moves

variable {T : Type*} {C : ℕ} {h : History T} {q q' : MpscBoundedQueue T} {pc pc' : QueuePc T} {a : QueueAccess T}

theorem ConsumerAt.popped_le (hc : ConsumerAt h q pc) (hq : QueueInv C h q) : h.popped.length ≤ h.reserved.length := by
  have hle := hq.releases_le
  cases pc with
  | idle | reloadDequeue => exact hc.2.trans_le hle
  | popSequence position => exact hc.2.2.trans_le hle
  | advance position | take position => exact hc.2.2.1.trans_le hle
  | release position found => exact hc.2.2.1.trans_le (hq.reserved _ hc.2.2.2)
  | _ => exact hc.elim

theorem push_refines [DecidableEq T] (hmove : PushStep C q pc a q' pc') (hle : h.popped.length ≤ h.reserved.length) :
    run fifoStep h.waiting a.effect.toList = some (h.next a).waiting := by
  cases hmove with
  | reserve value =>
    simp only [QueueAccess.effect, Option.toList_some, run_cons, run_nil, waiting, next, fifoStep]
    rw [List.drop_append_of_le_length hle]
    rfl
  | _ => rfl

theorem push_numbered {value : T} {seen : BitVec 64} (hq : QueueInv C h q)
    (hmove : PushStep C q pc (.reserve value p seen true) q' pc') : p.toNat = h.reserved.length := by
  cases hmove
  exact hq.enqueue

theorem PushStep.owns_cases (hmove : PushStep C q pc a q' pc') :
    ((h.next a).reserved = h.reserved ∧ (h.next a).published = h.published ∧ pc'.owns = pc.owns) ∨
    (∃ value, (h.next a).reserved = h.reserved ++ [value] ∧ (h.next a).published = h.published ∧ pc.owns = none ∧
      pc'.owns = some q.enqueuePosition.toNat) ∨
    ∃ p, (h.next a).reserved = h.reserved ∧ (h.next a).published = h.published ++ [p] ∧ pc.owns = some p := by
  cases hmove with
  | reserve value => exact .inr (.inl ⟨value, rfl, rfl, rfl, rfl⟩)
  | publish position => exact .inr (.inr ⟨position.toNat, rfl, rfl, rfl⟩)
  | _ => exact .inl ⟨rfl, rfl, rfl⟩

theorem PopStep.keeps_reserved (hmove : PopStep C q pc a q' pc') :
    (h.next a).reserved = h.reserved ∧ (h.next a).published = h.published := by
  cases hmove <;> exact ⟨rfl, rfl⟩

theorem PushStep.not_returnsEmpty (hmove : PushStep C q pc a q' pc') : ¬a.returnsEmpty := by
  cases hmove <;> exact id

theorem PopStep.not_returnsFull (hmove : PopStep C q pc a q' pc') : ¬a.returnsFull := by
  cases hmove <;> exact id

variable (hidx : ∀ p : BitVec 64, index C p = p.toNat % C) (hC : 2 ≤ C)

include hidx hC

theorem push_full (hb : PositionsBelow C h) (hq : QueueInv C h q) (hp : ProducerAt C h q pc)
    (hmove : PushStep C q pc a q' pc') (ha : a.returnsFull) : h.reserved.length = h.releases + C := by
  cases hmove with
  | room value position | full value position | behind value position =>
    have hfull := (push_difference_neg_iff hidx hC hb hq hp).1 ha
    exact le_antisymm hq.room (hfull ▸ hp)
  | _ => exact ha.elim

theorem pop_empty (hb : PositionsBelow C h) (hq : QueueInv C h q) (hc : ConsumerAt h q pc)
    (hmove : PopStep C q pc a q' pc') (ha : a.returnsEmpty) : h.popped.length ∉ h.published := by
  cases hmove with
  | ready position | empty position | behind position =>
    obtain ⟨hp, -, hl⟩ := hc
    intro hmem
    have hneg := pop_difference hidx hC hb hq hp
    rw [if_pos (hl ▸ hmem)] at hneg
    exact absurd hneg (ne_of_lt ha)
  | _ => exact ha.elim

theorem pop_take {found : Option T} (hq : QueueInv C h q) (hc : ConsumerAt h q pc)
    (hmove : PopStep C q pc (.take p found) q' pc') : p.toNat = h.popped.length ∧ p.toNat ∈ h.published ∧
      ∃ value, h.reserved[p.toNat]? = some value ∧ found = some value := by
  cases hmove
  obtain ⟨hp, -, hl, hmem⟩ := hc
  have hlt := hq.reserved _ hmem
  have hval := (hq.cell hidx hp.ge (show p.toNat < h.releases + C by omega)).value (hp ▸ hmem) (by omega)
  obtain ⟨value, hget⟩ : ∃ value, h.reserved[p.toNat]? = some value := ⟨_, List.getElem?_eq_getElem (by omega)⟩
  exact ⟨hp.trans hl.symm, hp ▸ hmem, value, hget, hval.trans hget⟩

theorem pop_refines [DecidableEq T] (hq : QueueInv C h q) (hc : ConsumerAt h q pc) (hmove : PopStep C q pc a q' pc') :
    run fifoStep h.waiting a.effect.toList = some (h.next a).waiting := by
  have htake := fun p found (hmove : PopStep C q pc (.take p found) q' pc') => pop_take hidx hC hq hc hmove
  cases hmove with
  | take position =>
    obtain ⟨hn, -, value, hget, hfound⟩ := htake _ _ (.take position)
    rw [hn] at hget
    obtain ⟨hlt, hval⟩ := List.getElem?_eq_some_iff.1 hget
    simp only [QueueAccess.effect, Option.toList_some, run_cons, run_nil, waiting, next,
      List.length_append, List.length_singleton]
    rw [List.drop_eq_getElem_cons hlt, hval, hfound]
    simp [fifoStep]
  | _ => rfl

end Moves

/-! ## Every run -/

section Runs

variable {T ι : Type*} [DecidableEq T] [DecidableEq ι] {C : ℕ} {h : History T} {a : QueueAccess T} {i : Option ι}
  {s t : MpscBoundedQueue T × (Option ι → QueuePc T)}

theorem init_queueInv {T : Type*} {C : ℕ} (hb : C < 2 ^ 64) : QueueInv C ({} : History T) {} where
  enqueue := rfl
  room := Nat.zero_le _
  released p hp := absurd hp (Nat.not_lt_zero p)
  reserved p hp := absurd hp (List.not_mem_nil)
  cells p _ hp := by
    have hlt : p < C := by simpa using hp
    refine ⟨fun _ => ?_, fun hmem => absurd hmem (List.not_mem_nil), fun hmem => absurd hmem (List.not_mem_nil)⟩
    rw [Nat.mod_eq_of_lt hlt]
    exact (toNat_ofNat p 64).trans (Nat.mod_eq_of_lt (hlt.trans hb))

theorem step_move (inv : Inv C h s.1 s.2) (hs : queueStep C s (i, a) = some t) : ∃ pc pc',
    ConsumerAt h s.1 pc ∧ PopStep C s.1 pc a t.1 pc' ∨ ProducerAt C h s.1 pc ∧ PushStep C s.1 pc a t.1 pc' := by
  cases i with
  | none =>
    obtain ⟨pc', hmove, -⟩ := queueStep_consumer hs
    exact ⟨_, pc', .inl ⟨inv.consumer, hmove⟩⟩
  | some i =>
    obtain ⟨pc', hmove, -⟩ := queueStep_producer hs
    exact ⟨_, pc', .inr ⟨inv.producers i, hmove⟩⟩

theorem step_reserved (hq : QueueInv C h s.1)
    (hr : ∀ p < h.reserved.length, p ∈ h.published ∨ ∃ i, (s.2 (some i)).owns = some p)
    (hs : queueStep C s (i, a) = some t) :
    ∀ p < (h.next a).reserved.length, p ∈ (h.next a).published ∨ ∃ i, (t.2 (some i)).owns = some p := by
  cases i with
  | none =>
    obtain ⟨pc', hmove, ht⟩ := queueStep_consumer hs
    obtain ⟨hres, hpub⟩ := hmove.keeps_reserved (h := h)
    rw [hres, hpub, ht]
    simpa using hr
  | some k =>
    obtain ⟨pc', hmove, ht⟩ := queueStep_producer hs
    rw [ht]
    -- the positions of the other producers stay theirs
    have hkeep : ∀ p, (s.2 (some k)).owns ≠ some p ∨ pc'.owns = some p → (∃ i, (s.2 (some i)).owns = some p) →
        ∃ i, (update s.2 (some k) pc' (some i)).owns = some p := by
      rintro p hk ⟨i, hi⟩
      refine ⟨i, ?_⟩
      by_cases hik : i = k
      · subst hik
        rw [update_self]
        exact hk.resolve_left (not_not.2 hi)
      · rwa [update_of_ne (by simpa using hik)]
    rcases hmove.owns_cases (h := h) with ⟨hres, hpub, hown⟩ | ⟨value, hres, hpub, hnone, hown⟩ | ⟨w, hres, hpub, hown⟩
    · intro p hp
      rw [hres] at hp
      rw [hpub]
      refine (hr p hp).imp_right (hkeep p ?_)
      by_cases hk : (s.2 (some k)).owns = some p
      · exact .inr (hown.trans hk)
      · exact .inl hk
    · intro p hp
      rw [hres, List.length_append, List.length_singleton] at hp
      rw [hpub]
      rcases Nat.lt_succ_iff_lt_or_eq.1 hp with hp | rfl
      · exact (hr p hp).imp_right (hkeep p (.inl (by rw [hnone]; simp)))
      · refine .inr ⟨k, ?_⟩
        rw [update_self, hown, hq.enqueue]
    · intro p hp
      rw [hres] at hp
      rw [hpub]
      by_cases hpw : p = w
      · exact .inl (by simp [hpw])
      · refine (hr p hp).imp (fun hmem => List.mem_append_left _ hmem) (hkeep p (.inl ?_))
        rw [hown]
        simpa using Ne.symm hpw

variable (hidx : ∀ p : BitVec 64, index C p = p.toNat % C) (hC : 2 ≤ C)

include hidx hC

theorem step_inv (inv : Inv C h s.1 s.2) (hs : queueStep C s (i, a) = some t) (hb : PositionsBelow C (h.next a)) :
    Inv C (h.next a) t.1 t.2 := by
  cases i with
  | none =>
    obtain ⟨pc', hmove, ht⟩ := queueStep_consumer hs
    exact ht ▸ pop_inv hidx hC inv rfl hmove hb
  | some i =>
    obtain ⟨pc', hmove, ht⟩ := queueStep_producer hs
    exact ht ▸ push_inv hidx hC inv rfl hmove hb

theorem run_inv : ∀ (tr : List (Option ι × QueueAccess T)) (s : MpscBoundedQueue T × (Option ι → QueuePc T)),
    run (queueStep C) queueInit tr = some s → PositionsBelow C (history tr) → Inv C (history tr) s.1 s.2 := by
  refine run_induct (fun tr (s : MpscBoundedQueue T × (Option ι → QueuePc T)) =>
    PositionsBelow C (history tr) → Inv C (history tr) s.1 s.2) (fun hb => ?_) ?_
  · have hlt : C < 2 ^ 64 := by
      have := hb.2
      omega
    exact ⟨init_queueInv hlt, ⟨rfl, rfl⟩, fun _ => trivial, fun _ _ _ hp => by cases hp⟩
  · intro l s e t _ ih hs hb
    rw [history_snoc] at hb ⊢
    exact step_inv hidx hC (ih hb.of_next) hs hb

theorem run_reserved : ∀ (tr : List (Option ι × QueueAccess T)) (s : MpscBoundedQueue T × (Option ι → QueuePc T)),
    run (queueStep C) queueInit tr = some s → PositionsBelow C (history tr) →
      ∀ p < (history tr).reserved.length, p ∈ (history tr).published ∨ ∃ i, (s.2 (some i)).owns = some p := by
  refine run_induct (fun tr (s : MpscBoundedQueue T × (Option ι → QueuePc T)) => PositionsBelow C (history tr) →
    ∀ p < (history tr).reserved.length, p ∈ (history tr).published ∨ ∃ i, (s.2 (some i)).owns = some p) ?_ ?_
  · intro _ p hp
    exact absurd hp (Nat.not_lt_zero p)
  · intro l s e t hl ih hs hb
    rw [history_snoc] at hb ⊢
    exact step_reserved (run_inv hidx hC l s hl hb.of_next).queue (ih hb.of_next) hs

theorem step_refines (inv : Inv C h s.1 s.2) (hs : queueStep C s (i, a) = some t) :
    run fifoStep h.waiting a.effect.toList = some (h.next a).waiting := by
  obtain ⟨pc, pc', ⟨hcon, hmove⟩ | ⟨-, hmove⟩⟩ := step_move inv hs
  · exact pop_refines hidx hC inv.queue hcon hmove
  · exact push_refines hmove (inv.consumer.popped_le inv.queue)

theorem run_refines : ∀ (tr : List (Option ι × QueueAccess T)) (s : MpscBoundedQueue T × (Option ι → QueuePc T)),
    run (queueStep C) queueInit tr = some s → PositionsBelow C (history tr) →
      run fifoStep [] (effects tr) = some (history tr).waiting := by
  refine run_induct (fun tr _ => PositionsBelow C (history tr) →
    run fifoStep [] (effects tr) = some (history tr).waiting)
    (fun _ => rfl) ?_
  intro l s e t hl ih hs hb
  rw [history_snoc] at hb ⊢
  rw [effects_snoc, run_append, ih hb.of_next]
  exact step_refines hidx hC (run_inv hidx hC l s hl hb.of_next) hs

theorem inv_at {tr l r : List (Option ι × QueueAccess T)} {e : Option ι × QueueAccess T}
    (h : run (queueStep C) queueInit tr = some s) (hb : PositionsBelow C (history tr)) (htr : tr = l ++ e :: r) :
    ∃ u t, PositionsBelow C (history l) ∧ Inv C (history l) u.1 u.2 ∧ queueStep C u e = some t := by
  subst htr
  obtain ⟨u, hu, hrest⟩ := run_append_some h
  obtain ⟨t, ht, -⟩ := Option.bind_eq_some_iff.1 hrest
  exact ⟨u, t, hb.of_append, run_inv hidx hC l u hu hb.of_append, ht⟩

omit hidx hC

/-- **The queue is a linearizable FIFO.** -/
theorem mpsc_linearizable_fifo {k : ℕ} (hpow : C = 2 ^ k) (hC : 2 ≤ C) {tr : List (Option ι × QueueAccess T)}
    (h : run (queueStep C) queueInit tr = some s) (hb : PositionsBelow C (history tr)) : LinearizableFifo C tr := by
  have hk : k ≤ 64 := by
    have hle : 2 ^ k ≤ 2 ^ 63 := hpow ▸ le_trans (Nat.le_add_left _ _) hb.2
    have := (Nat.pow_le_pow_iff_right (by decide)).1 hle
    omega
  have hidx : ∀ p : BitVec 64, index C p = p.toNat % C := fun p => by rw [index, hpow, and_mask hk]
  have hlin := run_refines hidx hC tr s h hb
  refine ⟨hlin, ?_, ?_, ?_, ?_, ?_⟩
  · have hall := fifo_conserves _ _ hlin
    rwa [(history_effects tr).1, (history_effects tr).2] at hall
  · intro l i value position seen r htr
    obtain ⟨u, t, -, inv, hs⟩ := inv_at hidx hC h hb htr
    obtain ⟨pc, pc', ⟨-, hmove⟩ | ⟨-, hmove⟩⟩ := step_move inv hs
    · cases hmove
    · exact push_numbered inv.queue hmove
  · intro l i position found r htr
    obtain ⟨u, t, -, inv, hs⟩ := inv_at hidx hC h hb htr
    obtain ⟨pc, pc', ⟨hcon, hmove⟩ | ⟨-, hmove⟩⟩ := step_move inv hs
    · exact pop_take hidx hC inv.queue hcon hmove
    · cases hmove
  · intro l i a r htr ha
    obtain ⟨u, t, hbl, inv, hs⟩ := inv_at hidx hC h hb htr
    obtain ⟨pc, pc', ⟨hcon, hmove⟩ | ⟨-, hmove⟩⟩ := step_move inv hs
    · exact .inr (pop_empty hidx hC hbl inv.queue hcon hmove ha)
    · exact absurd ha hmove.not_returnsEmpty
  · intro l i a r htr ha
    obtain ⟨u, t, hbl, inv, hs⟩ := inv_at hidx hC h hb htr
    obtain ⟨pc, pc', ⟨-, hmove⟩ | ⟨hprod, hmove⟩⟩ := step_move inv hs
    · exact absurd ha hmove.not_returnsFull
    · exact push_full hidx hC hbl inv.queue hprod hmove ha

end Runs

/-- two producers and a ring of two cells: one loses the race for position 0 but publishes position 1 first; the pop in
between finds nothing, a third push finds the ring full, then the first value is popped -/
def overtakenTrace : List (Option Bool × QueueAccess ℕ) :=
  [(some true, .tryPush 7 0), (some false, .tryPush 8 0),
   (some true, .pushSequence 0 0), (some false, .pushSequence 0 0),
   (some true, .reserve 7 0 0 true), (some false, .reserve 8 0 1 false),
   (some false, .pushSequence 1 1), (some false, .reserve 8 1 1 true),
   (some false, .construct 1 8), (some false, .publish 1),
   (none, .tryPop 0), (none, .popSequence 0 0),
   (some true, .construct 0 7), (some true, .publish 0),
   (some false, .tryPush 9 2), (some false, .pushSequence 2 1),
   (none, .tryPop 0), (none, .popSequence 0 1), (none, .advance 0 0 true), (none, .take 0 (some 7)), (none, .release 0)]

theorem mpsc_linearizable_fifo_overtaken : LinearizableFifo 2 overtakenTrace ∧
    (history overtakenTrace).popped = [some 7] ∧ (history overtakenTrace).waiting = [8] := by
  have hrun : (run (queueStep 2) queueInit overtakenTrace).isSome = true := by decide +kernel
  obtain ⟨s, hs⟩ := Option.isSome_iff_exists.1 hrun
  exact ⟨mpsc_linearizable_fifo (k := 1) rfl le_rfl hs (by decide +kernel), by decide +kernel, by decide +kernel⟩

end Coropact.Ds
