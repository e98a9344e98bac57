/-
The layout of a coroutine frame (`AllocateFrame` and `DeallocateFrame` of `include/coropact/coro/frame_allocator.h`).

The raw block begins with a header of four words. The frame is at the first aligned address behind the header and one
more word; the word right before the frame, the marker, has the address of the header. The memory is one of words, at
addresses that are multiples of eight.
-/
import Mathlib.Logic.Function.Basic
import Mathlib.Tactic

namespace Coropact.Coro

open Function Option

structure FrameHeap where
  memory : ℕ → ℕ
  /-- `current_frame_resource` -/
  current : ℕ

/-- the least multiple of `a` from `x` on -/
def alignUp (a x : ℕ) : ℕ := (x + a - 1) / a * a

/-- `std::align`, with the address that it leaves in `ptr` -/
def stdAlign (alignment size ptr space : ℕ) : Option ℕ :=
  if alignUp alignment ptr - ptr + size ≤ space then some (alignUp alignment ptr) else none

/-- `sizeof(FrameAllocationHeader) + FrameAllocationMarkerSize` -/
def framePrefix : ℕ := 32 + 8

namespace FrameHeap

/-- `::new (raw) FrameAllocationHeader` -/
def writeHeader (h : FrameHeap) (raw bytes alignment : ℕ) : FrameHeap :=
  { h with
    memory := update (update (update (update h.memory raw h.current) (raw + 8) raw) (raw + 16) bytes) (raw + 24)
      alignment }

def writeMarker (h : FrameHeap) (frame header : ℕ) : FrameHeap :=
    { h with memory := update h.memory (frame - 8) header }

/-- no result where `std::bad_alloc` is thrown; `allocate` is the current resource -/
def allocateFrame (h : FrameHeap) (allocate : ℕ → ℕ → Option ℕ) (frameSize frameAlignment : ℕ) :
    Option (ℕ × FrameHeap) :=
  let alignment := max frameAlignment 8
  if 2 ^ 64 - 1 - framePrefix < frameSize ∨ 2 ^ 64 - 1 - (framePrefix + frameSize) < alignment then none
  else
    let bytes := framePrefix + frameSize + alignment - 1
    (allocate bytes alignment).bind fun raw =>
      (stdAlign frameAlignment frameSize (raw + framePrefix) (bytes - framePrefix)).map fun frame =>
        (frame, (h.writeHeader raw bytes alignment).writeMarker frame raw)

/-- what is given back: the resource, the raw block, its size and its alignment -/
def deallocateFrame (h : FrameHeap) (frame : ℕ) : Option (ℕ × ℕ × ℕ × ℕ) :=
  if frame = 0 then none
  else
    let header := h.memory (frame - 8)
    some (h.memory header, h.memory (header + 8), h.memory (header + 16), h.memory (header + 24))

end FrameHeap

theorem alignUp_spec {a : ℕ} (ha : 0 < a) (x : ℕ) : a ∣ alignUp a x ∧ x ≤ alignUp a x ∧ alignUp a x < x + a := by
  have hdiv := Nat.div_add_mod' (x + a - 1) a
  have hmod := Nat.mod_lt (x + a - 1) ha
  refine ⟨Dvd.intro_left _ rfl, ?_, ?_⟩ <;> unfold alignUp <;> omega

section Frames

variable {h : FrameHeap} {allocate : ℕ → ℕ → Option ℕ} {frameSize alignment : ℕ}

theorem allocateFrame_eq (hmin : 8 ≤ alignment) (hfits : framePrefix + frameSize + alignment < 2 ^ 64) :
    h.allocateFrame allocate frameSize alignment =
      (allocate (framePrefix + frameSize + alignment - 1) alignment).map fun raw =>
        (alignUp alignment (raw + framePrefix), (h.writeHeader raw (framePrefix + frameSize + alignment - 1)
          alignment).writeMarker (alignUp alignment (raw + framePrefix)) raw) := by
  unfold FrameHeap.allocateFrame
  dsimp only
  rw [max_eq_left hmin, if_neg (by omega)]
  cases allocate (framePrefix + frameSize + alignment - 1) alignment with
  | none => rfl
  | some raw =>
    obtain ⟨-, -, hless⟩ := alignUp_spec (a := alignment) (by omega) (raw + framePrefix)
    rw [bind_some, stdAlign, if_pos (by omega)]
    rfl

/-- **The layout of a frame**, for any size and any alignment that is a multiple of 16, as the powers of two from 16 on
are. `AllocateFrame` throws if the sizes do not fit into 64 bits together or if the resource throws. Otherwise the frame
is aligned and inside the raw block, behind the header and the marker, and as long as only the frame itself is written
`DeallocateFrame` finds the resource and the block, whatever resource is the current one then. -/
theorem frame_round_trip (halign : 16 ∣ alignment) (hpos : 0 < alignment)
    (hresource : ∀ bytes, ∀ raw ∈ allocate bytes alignment, alignment ∣ raw ∧ raw + bytes ≤ 2 ^ 64) :
    let bytes := framePrefix + frameSize + alignment - 1
    (h.allocateFrame allocate frameSize alignment = none ↔ 2 ^ 64 ≤ bytes + 1 ∨ allocate bytes alignment = none) ∧
    ∀ frame h', h.allocateFrame allocate frameSize alignment = some (frame, h') →
      ∃ raw ∈ allocate bytes alignment, bytes < 2 ^ 64 ∧ alignment ∣ frame ∧ frame < 2 ^ 64 ∧ raw + 32 ≤ frame - 8 ∧
        frame + frameSize ≤ raw + bytes ∧
        ∀ later : FrameHeap, (∀ a, a + 8 ≤ frame ∨ frame + frameSize ≤ a → later.memory a = h'.memory a) →
          later.deallocateFrame frame = some (h.current, raw, bytes, alignment) := by
  intro bytes
  have hmin : 16 ≤ alignment := Nat.le_of_dvd hpos halign
  by_cases hfits : framePrefix + frameSize + alignment < 2 ^ 64
  · rw [allocateFrame_eq (by omega) hfits]
    refine ⟨by rw [map_eq_none_iff]; exact ⟨.inr, fun h => h.resolve_left (by omega)⟩, fun frame h' hsome => ?_⟩
    obtain ⟨raw, hraw, heq⟩ := map_eq_some_iff.1 hsome
    obtain ⟨rfl, rfl⟩ := Prod.mk.inj heq
    obtain ⟨hdvd, hend⟩ := hresource _ raw hraw
    obtain ⟨haligned, hle, hless⟩ := alignUp_spec hpos (raw + framePrefix)
    generalize alignUp alignment (raw + framePrefix) = frame at haligned hle hless ⊢
    have hprefix : framePrefix = 40 := rfl
    -- 39 bytes and an alignment behind a multiple of 16 are not the end of the address space
    have hmultiple : 16 ∣ raw := halign.trans hdvd
    refine ⟨raw, hraw, by omega, haligned, by omega, by omega, by omega, fun later hlater => ?_⟩
    have hmarker : later.memory (frame - 8) = raw := by
      rw [hlater _ (.inl (by omega))]
      exact update_self ..
    have hheader : ∀ a, a < raw + 32 → later.memory a = (h.writeHeader raw bytes alignment).memory a := by
      intro a ha
      rw [hlater _ (.inl (by omega))]
      exact update_of_ne (by omega) ..
    rw [FrameHeap.deallocateFrame, if_neg (by omega), hmarker]
    dsimp only
    rw [hheader raw (by omega), hheader (raw + 8) (by omega), hheader (raw + 16) (by omega),
      hheader (raw + 24) (by omega)]
    simp [FrameHeap.writeHeader]
  · have hthrows : h.allocateFrame allocate frameSize alignment = none := if_pos (by omega)
    rw [hthrows]
    exact ⟨⟨fun _ => .inl (by omega), fun _ => rfl⟩, nofun⟩

end Frames

/-- a resource whose blocks are at the address 4096 -/
def lowBlock (bytes _ : ℕ) : Option ℕ := if 4096 + bytes ≤ 2 ^ 64 then some 4096 else none

theorem frame_round_trip_lowBlock : ∃ frame h', FrameHeap.allocateFrame ⟨fun _ => 0, 7⟩ lowBlock 100 64 =
    some (frame, h') ∧
    ∀ later : FrameHeap, (∀ a, a + 8 ≤ frame ∨ frame + 100 ≤ a → later.memory a = h'.memory a) →
      later.deallocateFrame frame = some (7, 4096, 203, 64) := by
  have hresource : ∀ bytes, ∀ raw ∈ lowBlock bytes 64, 64 ∣ raw ∧ raw + bytes ≤ 2 ^ 64 := by
    intro bytes raw hraw
    obtain ⟨hfits, heq⟩ := ite_none_right_eq_some.1 hraw
    rw [← some.inj heq]
    exact ⟨by decide, hfits⟩
  have hsome : FrameHeap.allocateFrame ⟨fun _ => 0, 7⟩ lowBlock 100 64 = some (4160, _) := rfl
  obtain ⟨raw, hraw, -, -, -, -, -, hback⟩ := (frame_round_trip (by decide) (by decide) hresource).2 _ _ hsome
  obtain rfl : 4096 = raw := some.inj hraw
  exact ⟨4160, _, hsome, hback⟩

end Coropact.Coro
