import Shadesmar.Narrowing

namespace Shadesmar.Memory

open Library

namespace Checked

variable {A B C D : Type} {g : B → D}

theorem map_bind_map {x : Checked A} {x' : Checked C} {k : A → C} {f : A → Checked B}
    {f' : C → Checked D} (hx : x' = x.map k) (hf : ∀ v, x = .ok v → f' (k v) = (f v).map g) :
    (x' >>= f') = (x >>= f).map g := by
  subst hx
  cases x with
  | error e => rfl
  | ok v => exact hf v rfl

theorem bind_map {x x' : Checked A} {f : A → Checked B} {f' : A → Checked D} (hx : x' = x)
    (hf : ∀ v, x = .ok v → f' v = (f v).map g) : (x' >>= f') = (x >>= f).map g := by
  refine map_bind_map (k := id) ?_ hf
  rw [hx]
  cases x <;> rfl

theorem ite_map {c : Prop} [Decidable c] {x y : Checked B} {x' y' : Checked D} (hx : x' = x.map g)
    (hy : y' = y.map g) : (if c then x' else y') = (if c then x else y).map g := by
  split_ifs
  · exact hx
  · exact hy

end Checked

namespace Allocator

def mapped (a : Allocator) (base : Nat) : Allocator := { a with heapBase := base }

variable {a : Allocator} {base : Nat}

def translate (a : Allocator) (base p : Nat) : Nat := base + a.ptrToHandle p

@[simp] theorem ptrToHandle_translate (a : Allocator) (base p : Nat) :
    (a.mapped base).ptrToHandle (a.translate base p) = a.ptrToHandle p := Nat.add_sub_cancel_left ..

@[simp] theorem translate_handleToPtr (a : Allocator) (base h : Nat) :
    a.translate base (a.handleToPtr h) = (a.mapped base).handleToPtr h :=
  congrArg (base + ·) (Nat.add_sub_cancel_left ..)

theorem load_mapped (a : Allocator) (base h n : Nat) :
    (a.mapped base).load ((a.mapped base).handleToPtr h) n = a.load (a.handleToPtr h) n := by
  simp [load, handleToPtr, mapped]

theorem store_translate (a : Allocator) (base p : Nat) (data : List UInt8) :
    (a.mapped base).store (a.translate base p) data = (a.store p data).mapped base := by
  have hhandle := ptrToHandle_translate a base p
  unfold ptrToHandle mapped at hhandle
  unfold store mapped
  rw [hhandle]

theorem alloc_mapped (ha : a.heapBase + a.size ≤ 2 ^ 64) (hbase : base + a.size ≤ 2 ^ 64)
    (bytes : Nat) : (a.mapped base).alloc bytes =
      (a.alloc bytes).map fun r => (r.1.map (a.translate base), r.2.mapped base) := by
  have hwords : (a.mapped base).payloadWords bytes 1 = a.payloadWords bytes 1 := rfl
  unfold alloc allocAligned
  rw [hwords]
  cases a.payloadWords bytes 1 with
  | none => rfl
  | some size =>
    refine Checked.bind_map rfl fun index hindex => ?_
    obtain ⟨-, hlt, -⟩ := suggestIndex_ok hindex
    refine Checked.ite_map rfl (Checked.ite_map rfl (Checked.ite_map rfl ?_))
    refine Checked.bind_map rfl fun _ _ => Checked.bind_map rfl fun _ _ => ?_
    unfold words at hlt
    have hhere : alignAddress (a.heapBase + 4 * index) 1 = a.heapBase + 4 * index :=
      alignAddress_one (by omega)
    have hthere : alignAddress (base + 4 * index) 1 = base + 4 * index :=
      alignAddress_one (by omega)
    have hp : a.translate base (a.heapBase + 4 * index) = base + 4 * index :=
      translate_handleToPtr a base (4 * index)
    dsimp only
    rw [hhere, show alignAddress ((a.mapped base).heapBase + 4 * index) 1 = _ from hthere, ← hp]
    rfl

section Indexed

variable {heapBase total : Nat}

theorem Indexed.alloc_mapped (h : a.Indexed heapBase total) (hspace : heapBase + total ≤ 2 ^ 64)
    (hbase : base + total ≤ 2 ^ 64) (bytes : Nat) : (a.mapped base).alloc bytes =
      (a.alloc bytes).map fun r => (r.1.map (a.translate base), r.2.mapped base) := by
  obtain ⟨rfl, rfl, -, -⟩ := h
  exact Allocator.alloc_mapped hspace hbase bytes

theorem Indexed.translate_alloc (h : a.Indexed heapBase total) (hspace : heapBase + total ≤ 2 ^ 64)
    {a' : Allocator} {p : Option Nat} {n : Nat} (ha : a.alloc (u32 n) = .ok (p, a')) :
    a.translate base = a'.translate base := by
  have hheap : a.heapBase = a'.heapBase :=
    h.heapBase_eq.trans (h.alloc hspace (u32_lt n) ha).heapBase_eq.symm
  funext x
  unfold translate ptrToHandle
  rw [hheap]

end Indexed

theorem free_mapped (a : Allocator) (base h : Nat) :
    (a.mapped base).free (some ((a.mapped base).handleToPtr h)) =
      (a.free (some (a.handleToPtr h))).map fun r => (r.1, r.2.mapped base) := by
  have hlow : ∀ b : Nat, assert (b ≤ b + h) = .ok () := fun b => assert_ok (Nat.le_add_right b h)
  have hhigh : assert (base + h < base + a.size) = assert (a.heapBase + h < a.heapBase + a.size) := by
    simp only [assert, Nat.add_lt_add_iff_left]
  refine Checked.bind_map ((hlow base).trans (hlow a.heapBase).symm) fun _ _ => ?_
  refine Checked.bind_map hhigh fun _ _ => Checked.bind_map rfl fun _ _ => ?_
  refine Checked.bind_map rfl fun index _ => ?_
  have hsame : base + h ≠ base + 4 * index ↔ a.heapBase + h ≠ a.heapBase + 4 * index := by omega
  refine (if_congr hsame rfl rfl).trans ?_
  exact Checked.ite_map rfl rfl

end Allocator

end Shadesmar.Memory
