import Shadesmar.Library.Bytes

/-! The ring allocator of `memory/allocator.h`.  Every member function runs under
the allocator's own lock and is one step of the models above this file.  Indices
count 4-byte words of the heap; `uint32_t` and `size_t` arithmetic is arithmetic
on naturals reduced by `u32` and `u64`. -/

namespace Shadesmar.Memory

open Library

@[irreducible] def u32 (n : Nat) : Nat := n % 2 ^ 32

@[irreducible] def u64 (n : Nat) : Nat := n % 2 ^ 64

/-- Subtraction in `uint32_t`. -/
@[irreducible] def sub32 (m n : Nat) : Nat := if n ≤ m then m - n else 2 ^ 32 - (n - m)

/-- Subtraction in `size_t`. -/
@[irreducible] def sub64 (m n : Nat) : Nat := if n ≤ m then m - n else 2 ^ 64 - (n - m)

theorem u32_eq {n : Nat} (h : n < 2 ^ 32) : u32 n = n := by
  unfold u32
  exact Nat.mod_eq_of_lt h

theorem u64_eq {n : Nat} (h : n < 2 ^ 64) : u64 n = n := by
  unfold u64
  exact Nat.mod_eq_of_lt h

theorem sub32_eq {m n : Nat} (h : n ≤ m) : sub32 m n = m - n := by
  unfold sub32
  exact if_pos h

theorem sub64_eq {m n : Nat} (h : n ≤ m) : sub64 m n = m - n := by
  unfold sub64
  exact if_pos h

inductive Abort
  | assertion
  deriving DecidableEq

abbrev Checked := Except Abort

def assert (p : Prop) [Decidable p] : Checked Unit := if p then .ok () else .error .assertion

theorem Checked.bind_eq_ok {A B : Type} {x : Checked A} {f : A → Checked B} {r : B} :
    x >>= f = .ok r ↔ ∃ v, x = .ok v ∧ f v = .ok r := by
  cases x with
  | error e => simp [bind, Except.bind]
  | ok v => simp [bind, Except.bind]

theorem Checked.toOption_eq_some {A : Type} {x : Checked A} {r : A} :
    x.toOption = some r ↔ x = .ok r := by
  cases x <;> simp [Except.toOption]

/-- The macro `SHMALIGN(s, a)`, evaluated in `size_t`: `((s - 1) | (a - 1)) + 1`. -/
def shmalign (s a : Nat) : Nat := u64 ((sub64 s 1 ||| sub64 a 1) + 1)

def alignAddress (ptr alignment : Nat) : Nat := shmalign ptr alignment

/-- `heapBase` is the address `heap_()` computes from `this` and `offset_`, and
`heap` the bytes found from there on. -/
structure Allocator where
  allocIndex : Nat
  freeIndex : Nat
  size : Nat
  heapBase : Nat
  heap : Bytes.Mem

namespace Allocator

/-- `size_ / sizeof(int)` -/
def words (a : Allocator) : Nat := a.size / 4

/-- The constructor; the memory segment is zero-filled when it is created. -/
def new (heapBase size : Nat) : Allocator where
  allocIndex := 0
  freeIndex := 0
  size := size
  heapBase := heapBase
  heap := fun _ => 0

def ptrToHandle (a : Allocator) (p : Nat) : Nat := p - a.heapBase

def handleToPtr (a : Allocator) (h : Nat) : Nat := a.heapBase + h

def getFreeMemory (a : Allocator) : Nat :=
  let freeSize :=
    if a.freeIndex ≤ a.allocIndex then a.words - a.allocIndex + a.freeIndex
    else a.freeIndex - a.allocIndex
  freeSize * 4

def validateIndex (a : Allocator) (index : Nat) : Checked Unit := assert (index < a.words)

def suggestIndex (a : Allocator) (headerIndex payloadSize : Nat) : Checked Nat := do
  a.validateIndex headerIndex
  let payloadIndex := u32 (headerIndex + 1)
  let payloadIndex :=
    if sub32 (u32 (payloadIndex + payloadSize)) 1 ≥ a.words then 0 else payloadIndex
  a.validateIndex payloadIndex
  a.validateIndex (sub32 (u32 (payloadIndex + payloadSize)) 1)
  return payloadIndex

/-- The part of `alloc` before the lock: the payload in words, or `none` when the
request exceeds the size limit. -/
def payloadWords (a : Allocator) (bytes alignment : Nat) : Option Nat :=
  let payloadSize := u32 (u64 (bytes + alignment))
  let payloadSize := if payloadSize = 0 then 4 else payloadSize
  if payloadSize ≥ sub64 a.size (2 * 4) then none
  else
    -- `payload_size & ~3` clears the remainder modulo 4
    let payloadSize :=
      if payloadSize % 4 ≠ 0 then u32 (payloadSize - payloadSize % 4 + 4) else payloadSize
    some (payloadSize / 4)

def allocWords (a : Allocator) (payloadSize alignment : Nat) :
    Checked (Option Nat × Allocator) := do
  let payloadIndex ← a.suggestIndex a.allocIndex payloadSize
  let newAllocIndex := u32 (payloadIndex + payloadSize)
  if a.allocIndex < a.freeIndex ∧ payloadIndex = 0 then
    return (none, a)
  else if payloadIndex ≤ a.freeIndex ∧ a.freeIndex ≤ newAllocIndex then
    return (none, a)
  else if newAllocIndex = a.words ∧ 0 = a.freeIndex then
    return (none, a)
  else
    let newAllocIndex := if newAllocIndex = a.words then 0 else newAllocIndex
    assert (newAllocIndex ≠ a.allocIndex)
    a.validateIndex newAllocIndex
    let heapPtr := a.heapBase + 4 * payloadIndex
    return (some (alignAddress heapPtr alignment),
      { a with
        heap := Bytes.writeWord a.heap a.allocIndex payloadSize
        allocIndex := newAllocIndex })

def allocAligned (a : Allocator) (bytes alignment : Nat) : Checked (Option Nat × Allocator) :=
  match a.payloadWords bytes alignment with
  | none => .ok (none, a)
  | some payloadSize => a.allocWords payloadSize alignment

def alloc (a : Allocator) (bytes : Nat) : Checked (Option Nat × Allocator) :=
  a.allocAligned bytes 1

/-- `nullptr` is `none`. -/
def free (a : Allocator) : Option Nat → Checked (Bool × Allocator)
  | none => .ok (true, a)
  | some ptr => do
    assert (a.heapBase ≤ ptr)
    assert (ptr < a.heapBase + a.size)
    a.validateIndex a.freeIndex
    let payloadSize := Bytes.readWord a.heap a.freeIndex
    let payloadIndex ← a.suggestIndex a.freeIndex payloadSize
    if ptr ≠ a.heapBase + 4 * payloadIndex then
      return (false, a)
    else
      let newFreeIndex := u32 (payloadIndex + payloadSize)
      let newFreeIndex := if newFreeIndex = a.words then 0 else newFreeIndex
      return (true, { a with freeIndex := newFreeIndex })

def reset (a : Allocator) : Allocator := { a with allocIndex := 0, freeIndex := 0 }

def store (a : Allocator) (ptr : Nat) (bs : List UInt8) : Allocator :=
  { a with heap := Bytes.write a.heap (ptr - a.heapBase) bs }

def load (a : Allocator) (ptr n : Nat) : List UInt8 := Bytes.read a.heap (ptr - a.heapBase) n

end Allocator

end Shadesmar.Memory
