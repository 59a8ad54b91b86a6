import Shadesmar.Memory.Placement

namespace Shadesmar.Memory

open Library

namespace Allocator

inductive Operation
  | alloc (bytes alignment : Nat)
  | free (ptr : Option Nat)
  | store (h : Nat) (data : List UInt8)
  | reset
  deriving DecidableEq

def perform (a : Allocator) : Operation → Option Allocator
  | .alloc bytes alignment => (a.allocAligned bytes alignment).toOption.map Prod.snd
  | .free ptr => (a.free ptr).toOption.map Prod.snd
  | .store h data => some (a.store (a.handleToPtr h) data)
  | .reset => some a.reset

variable {a a' : Allocator} {bytes alignment : Nat} {ptr : Option Nat} {op : Operation}

theorem perform_alloc (h : a.perform (.alloc bytes alignment) = some a') :
    ∃ r, a.allocAligned bytes alignment = .ok (r, a') := by
  obtain ⟨⟨r, t⟩, hcall, rfl⟩ := Option.map_eq_some_iff.mp h
  exact ⟨r, Checked.toOption_eq_some.mp hcall⟩

theorem perform_free (h : a.perform (.free ptr) = some a') :
    ∃ done, a.free ptr = .ok (done, a') := by
  obtain ⟨⟨done, t⟩, hcall, rfl⟩ := Option.map_eq_some_iff.mp h
  exact ⟨done, Checked.toOption_eq_some.mp hcall⟩

namespace Bounded

theorem alloc (h : a.Bounded) {r : Option Nat}
    (ha : a.allocAligned bytes alignment = .ok (r, a')) : a'.Bounded := by
  rcases h.allocAligned_eq bytes alignment with hnone | ⟨size, -, hacc, hpos, hle, hsome⟩
  · obtain ⟨-, rfl⟩ := Prod.mk.inj (Except.ok.inj (hnone.symm.trans ha))
    exact h
  · obtain ⟨-, rfl⟩ := Prod.mk.inj (Except.ok.inj (hsome.symm.trans ha))
    obtain ⟨hfits, -⟩ := hacc.fits h.free_lt h.alloc_lt hpos hle
    exact ⟨h.sized.push _, h.free_lt, hfits.next_lt⟩

theorem free (h : a.Bounded) {done : Bool} (ha : a.free ptr = .ok (done, a')) : a'.Bounded := by
  rcases free_cases ha with rfl | ⟨next, hnext, rfl⟩
  · exact h
  · exact ⟨⟨h.sized.1, h.sized.2, h.sized.3, h.sized.4⟩, hnext, h.alloc_lt⟩

theorem store (h : a.Bounded) (p : Nat) (data : List UInt8) : (a.store p data).Bounded :=
  ⟨h.sized.store p data, h.free_lt, h.alloc_lt⟩

theorem perform (h : a.Bounded) (ha : a.perform op = some a') : a'.Bounded := by
  cases op with
  | alloc bytes alignment =>
    obtain ⟨r, hcall⟩ := perform_alloc ha
    exact h.alloc hcall
  | free ptr =>
    obtain ⟨done, hcall⟩ := perform_free ha
    exact h.free hcall
  | store q data =>
    obtain rfl := Option.some.inj ha
    exact h.store _ data
  | reset =>
    obtain rfl := Option.some.inj ha
    have hpos : 0 < a.words := Nat.zero_lt_of_lt h.free_lt
    exact ⟨⟨h.sized.1, h.sized.2, h.sized.3, h.sized.4⟩, hpos, hpos⟩

end Bounded

theorem bounded_of_run {heapBase size : Nat} (hnew : (new heapBase size).Sized)
    {ops : List Operation} (h : Machine.run perform (new heapBase size) ops = some a) : a.Bounded :=
  (Machine.Run.of_run h).invariant Bounded (bounded_new hnew) fun _ _ _ ht _ hs => ht.perform hs

theorem Bounded.not_accepts (h : a.Bounded) {size : Nat} (hfree : a.getFreeMemory < 4 * size) :
    ¬ a.Accepts size := by
  have hf := h.free_lt
  have ha := h.alloc_lt
  have hplace := place_cases a.words a.allocIndex size
  rintro ⟨hwrap, hover, -⟩
  unfold candidate at hwrap hover
  unfold getFreeMemory at hfree
  dsimp only at hwrap hover hfree
  generalize place a.words a.allocIndex size = p at *
  split_ifs at hfree with hempty
  · -- the free words are those behind the indices and before them, and the block wraps
    omega
  · omega

theorem Bounded.alloc_refused (h : a.Bounded) (hbytes : bytes < 2 ^ 32 - 1)
    (hfree : a.getFreeMemory < bytes) : a.alloc bytes = .ok (none, a) := by
  by_contra hne
  obtain ⟨-, hacc⟩ := (h.alloc_iff (by omega)).mp hne
  exact h.not_accepts (by omega) hacc

end Allocator

end Shadesmar.Memory
