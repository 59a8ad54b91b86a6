import Shadesmar.Memory.Allocator
import Mathlib.Data.Nat.Bitwise

/-! The data `memory/memory.h` lays out in a shared segment: queue elements that
name a block by its handle, and the queue with its counter.  The mutex of a slot
is kept by the models that interleave its users. -/

namespace Shadesmar.Memory

def queueSize : Nat := 1024

/-- `counter & (queue_size() - 1)` -/
def qPos (counter : Nat) : Fin queueSize :=
  ⟨counter &&& (queueSize - 1), Nat.lt_of_le_of_lt Nat.and_le_right (by decide)⟩

theorem qPos_val (counter : Nat) : (qPos counter).val = counter % queueSize :=
  Nat.and_two_pow_sub_one_eq_mod counter 10

theorem qPos_eq_iff {i j : Nat} : qPos i = qPos j ↔ i % queueSize = j % queueSize := by
  rw [Fin.ext_iff, qPos_val, qPos_val]

@[simp] theorem qPos_add (i : Nat) : qPos (i + queueSize) = qPos i := by
  rw [qPos_eq_iff, Nat.add_mod_right]

theorem qPos_u32 (i : Nat) : qPos (u32 i) = qPos i := by
  rw [qPos_eq_iff]
  unfold u32
  exact Nat.mod_mod_of_dvd i (show queueSize ∣ 2 ^ 32 by decide)

theorem u32_succ (i : Nat) : u32 (u32 i + 1) = u32 (i + 1) := by
  unfold u32
  exact Nat.mod_add_mod ..

theorem qPos_ne {i j : Nat} (h : i < j) (hj : j < i + queueSize) : qPos i ≠ qPos j := by
  rw [Ne, qPos_eq_iff]
  unfold queueSize at *
  omega

structure Element where
  size : Nat
  empty : Bool
  addressHandle : Nat
  deriving DecidableEq

def Element.fresh : Element := ⟨0, true, 0⟩

structure SharedQueue (Elem : Type) where
  counter : Nat
  elements : Fin queueSize → Elem

namespace SharedQueue

variable {Elem : Type}

def set (q : SharedQueue Elem) (i : Fin queueSize) (e : Elem) : SharedQueue Elem :=
  { q with elements := Function.update q.elements i e }

@[simp] theorem set_self (q : SharedQueue Elem) (i : Fin queueSize) (e : Elem) :
    (q.set i e).elements i = e := Function.update_self ..

theorem set_ne (q : SharedQueue Elem) {i j : Fin queueSize} (h : j ≠ i) (e : Elem) :
    (q.set i e).elements j = q.elements j := Function.update_of_ne h ..

end SharedQueue

/-- `ptr` is `none` for `nullptr`, and else the bytes it points to. -/
structure Memblock where
  ptr : Option (List UInt8)
  size : Nat
  free : Bool
  deriving DecidableEq

namespace Memblock

/-- `Memblock()` -/
def null : Memblock := ⟨none, 0, true⟩

/-- `Memblock(ptr, size)` for a buffer of `size` bytes. -/
def ofData (data : List UInt8) : Memblock := ⟨some data, data.length, true⟩

def isEmpty (m : Memblock) : Bool := m.ptr.isNone && m.size == 0

def bytes (m : Memblock) : List UInt8 := (m.ptr.getD []).take m.size

def Filled (m : Memblock) : Prop := m.bytes.length = m.size

instance (m : Memblock) : Decidable m.Filled := inferInstanceAs (Decidable (_ = _))

@[simp] theorem bytes_ofData (data : List UInt8) : (ofData data).bytes = data := by
  simp [ofData, bytes]

theorem filled_ofData (data : List UInt8) : (ofData data).Filled := by simp [Filled, ofData, bytes]

@[simp] theorem size_ofData (data : List UInt8) : (ofData data).size = data.length := rfl

end Memblock

end Shadesmar.Memory
