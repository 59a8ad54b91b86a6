import Shadesmar.Memory.Aligned
import Shadesmar.Memory.Halves

namespace Shadesmar.Memory

open Library Library.Rounding

def gap : Nat := 1024

structure ObjectSizes where
  pidSet : Nat
  sharedQueue : Nat
  allocator : Nat

def totalSize (sz : ObjectSizes) (bufferSize : Nat) : Nat :=
  u64 (sz.pidSet + sz.sharedQueue + sz.allocator + bufferSize + 4 * gap)

def segmentSize (sz : ObjectSizes) (bufferSize alignment : Nat) : Nat :=
  u64 (totalSize sz bufferSize + alignment)

structure Layout where
  pidSetAddress : Nat
  sharedQueueAddress : Nat
  allocatorAddress : Nat
  bufferAddress : Nat

def Layout.new (sz : ObjectSizes) (ptr : Nat) : Layout :=
  let pidSetAddress := alignAddress ptr 32
  let sharedQueueAddress := pidSetAddress + sz.pidSet + gap
  let allocatorAddress := sharedQueueAddress + sz.sharedQueue + gap
  { pidSetAddress, sharedQueueAddress, allocatorAddress
    bufferAddress := allocatorAddress + sz.allocator + gap }

structure Layout.Ordered (sz : ObjectSizes) (ptr : Nat) (l : Layout) : Prop where
  pidSet : ptr ≤ l.pidSetAddress
  sharedQueue : l.pidSetAddress + sz.pidSet ≤ l.sharedQueueAddress
  allocator : l.sharedQueueAddress + sz.sharedQueue ≤ l.allocatorAddress
  buffer : l.allocatorAddress + sz.allocator ≤ l.bufferAddress

structure Usage.InSegment (sz : ObjectSizes) (ptr bufferSize : Nat) (u : Usage) : Prop where
  inside : ∀ m x, u.Uses m x → (Layout.new sz ptr).bufferAddress ≤ x ∧
    x < ptr + segmentSize sz bufferSize 32
  apart : ∀ x, u.Uses .req x → ¬ u.Uses .resp x

variable {sz : ObjectSizes} {ptr bufferSize stride : Nat}

theorem segmentSize_eq
    (h : sz.pidSet + sz.sharedQueue + sz.allocator + bufferSize + 4 * gap + 32 < 2 ^ 64) :
    segmentSize sz bufferSize 32 =
      sz.pidSet + sz.sharedQueue + sz.allocator + bufferSize + 4 * gap + 32 := by
  unfold segmentSize totalSize
  rw [u64_eq (show sz.pidSet + sz.sharedQueue + sz.allocator + bufferSize + 4 * gap < 2 ^ 64 by
    omega), u64_eq h]

theorem Layout.ordered (hptr : ptr + 32 ≤ 2 ^ 64) : (Layout.new sz ptr).Ordered sz ptr := by
  have halign : IsAlignment 32 := ⟨5, by decide, rfl⟩
  have hbase := halign.alignAddress_eq hptr
  have hle : ptr ≤ roundUp 32 ptr := le_roundUp halign.pos
  refine ⟨?_, Nat.le_add_right _ _, Nat.le_add_right _ _, Nat.le_add_right _ _⟩
  rw [Layout.new, hbase]
  exact hle

theorem Layout.bufferAddress_lt (hptr : ptr + 32 ≤ 2 ^ 64) :
    (Layout.new sz ptr).bufferAddress <
      ptr + 32 + sz.pidSet + sz.sharedQueue + sz.allocator + 3 * gap := by
  have halign : IsAlignment 32 := ⟨5, by decide, rfl⟩
  have hbase := halign.alignAddress_eq hptr
  have hlt : roundUp 32 ptr < ptr + 32 := roundUp_lt halign.pos
  rw [Layout.new, hbase]
  simp only
  omega

/-- Blocks lie within their halves, so that what `resp` uses ends less than a gap after the
buffer. -/
theorem Usage.InHalves.inSegment {u : Usage} (h : u.InHalves bufferSize)
    (hu : u.Placed (Layout.new sz ptr).bufferAddress stride bufferSize) (hstride : stride ≤ gap)
    (hspace : ptr + sz.pidSet + sz.sharedQueue + sz.allocator + bufferSize + 4 * gap + 32 < 2 ^ 64) :
    u.InSegment sz ptr bufferSize := by
  obtain ⟨hreq, hresp, -⟩ := hu
  have hbuffer : (Layout.new sz ptr).bufferAddress <
      ptr + 32 + sz.pidSet + sz.sharedQueue + sz.allocator + 3 * gap :=
    Layout.bufferAddress_lt (by omega)
  have hsegment : segmentSize sz bufferSize 32 =
      sz.pidSet + sz.sharedQueue + sz.allocator + bufferSize + 4 * gap + 32 :=
    segmentSize_eq (by omega)
  have hbytes : ∀ m x, u.Uses m x → ∃ i, 4 * (i + 1) ≤ bufferSize / 2 ∧
      (u.members.get m).heapBase + 4 * i ≤ x ∧ x < (u.members.get m).heapBase + 4 * i + 4 := by
    rintro m x ⟨b, hb, i, hi, hlow, hhigh⟩
    have hstop := hi.lt_stop
    have hhalf := (h m b hb).2
    exact ⟨i, by omega, hlow, hhigh⟩
  constructor
  · intro m x hx
    obtain ⟨i, hi, hlow, hhigh⟩ := hbytes m x hx
    rw [hsegment]
    cases m <;> simp only [DoubleAllocator.get, hreq, hresp] at hlow hhigh <;> omega
  · intro x hx hx'
    obtain ⟨i, hi, hlow, hhigh⟩ := hbytes .req x hx
    obtain ⟨j, -, hlow', -⟩ := hbytes .resp x hx'
    simp only [DoubleAllocator.get, hreq, hresp] at hlow hhigh hlow'
    omega

/-- Whatever the two heaps of a channel are asked for, their blocks stay in the segment, behind the
other objects and apart from each other, although `resp` leaves the buffer. -/
theorem Usage.stays_in_segment
    (hspace : ptr + sz.pidSet + sz.sharedQueue + sz.allocator + bufferSize + 4 * gap + 32 < 2 ^ 64)
    (hlim : bufferSize ≤ 3 * 2 ^ 33) (hstride : stride ≤ gap)
    {calls : List (Member × Allocator.Operation)} {u : Usage}
    (h : Machine.run Usage.step (.new (Layout.new sz ptr).bufferAddress stride bufferSize) calls =
      some u) :
    (Layout.new sz ptr).Ordered sz ptr ∧ u.InSegment sz ptr bufferSize :=
  ⟨Layout.ordered (by omega),
    (inHalves_of_run hlim h).inSegment (placed_of_run h) hstride hspace⟩

theorem Usage.stays_in_segment_overrun : ∃ u,
    Machine.run Usage.step (.new (Layout.new ⟨512, 2048, 256⟩ 4096).bufferAddress 128 1024)
      [(.resp, .alloc 490 1)] = some u ∧ u.InSegment ⟨512, 2048, 256⟩ 4096 1024 := by
  have hrun : (Machine.run Usage.step
      (.new (Layout.new ⟨512, 2048, 256⟩ 4096).bufferAddress 128 1024)
      [(.resp, .alloc 490 1)]).isSome = true := by decide +kernel
  obtain ⟨u, hu⟩ := Option.isSome_iff_exists.mp hrun
  exact ⟨u, hu, (Usage.stays_in_segment (by decide) (by decide) (by decide) hu).2⟩

end Shadesmar.Memory
