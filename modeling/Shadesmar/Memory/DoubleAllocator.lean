import Shadesmar.Memory.Ring

namespace Shadesmar.Memory

structure DoubleAllocator where
  req : Allocator
  resp : Allocator

namespace DoubleAllocator

/-- `heapBase` is the address `offset` bytes after `req`, and `stride` the distance from
`req` to `resp` in the object: each member adds its own offset to its own address. -/
def new (heapBase stride size : Nat) : DoubleAllocator where
  req := .new heapBase (size / 2)
  resp := .new (heapBase + stride + size / 2) (size / 2)

/-- The buffers that the constructors accept and whose indices stay inside their types. -/
structure Admits (heapBase stride size : Nat) : Prop where
  dvd : 8 ∣ size
  le_size : 16 ≤ size
  size_le : size ≤ 2 ^ 32
  inSpace : heapBase + stride + size ≤ 2 ^ 64

theorem Admits.req {heapBase stride size : Nat} (h : Admits heapBase stride size) :
    (new heapBase stride size).req.Sized := by
  obtain ⟨hdvd, hle, hlim, hspace⟩ := h
  refine ⟨?_, ?_, ?_, ?_⟩ <;> simp only [new, Allocator.new] <;> omega

theorem Admits.resp {heapBase stride size : Nat} (h : Admits heapBase stride size) :
    (new heapBase stride size).resp.Sized := by
  obtain ⟨hdvd, hle, hlim, hspace⟩ := h
  refine ⟨?_, ?_, ?_, ?_⟩ <;> simp only [new, Allocator.new] <;> omega

theorem Admits.half_lt {heapBase stride size : Nat} (h : Admits heapBase stride size) :
    size / 2 + 1 < 2 ^ 32 := by
  have := h.size_le
  omega

end DoubleAllocator

end Shadesmar.Memory
