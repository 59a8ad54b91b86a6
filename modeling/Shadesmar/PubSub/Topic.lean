import Shadesmar.Memory.Allocator
import Shadesmar.Memory.Element

/-! `pubsub/topic.h`: the operations on a topic that run without interruption, and
`write` as their composition.  The models of concurrent publishers and readers take
the same operations one at a time. -/

namespace Shadesmar.PubSub

open Library Shadesmar.Memory

def jumpahead (counter queueSize : Nat) : Nat := sub32 counter (u32 (queueSize / 2))

structure Topic where
  queue : SharedQueue Element
  allocator : Allocator

namespace Topic

def new (heapBase bufferSize : Nat) : Topic where
  queue := ⟨0, fun _ => .fresh⟩
  allocator := .new heapBase bufferSize

def counter (t : Topic) : Nat := t.queue.counter

def elem (t : Topic) (q : Fin queueSize) : Element := t.queue.elements q

def incCounter (t : Topic) : Topic :=
  { t with queue := { t.queue with counter := u32 (t.counter + 1) } }

def setElem (t : Topic) (q : Fin queueSize) (e : Element) : Topic :=
  { t with queue := t.queue.set q e }

/-- `allocator_->alloc(size)`, which narrows the size to `uint32_t`. -/
def alloc (t : Topic) (size : Nat) : Checked (Option Nat × Topic) := do
  let (p, a) ← t.allocator.alloc (u32 size)
  return (p, { t with allocator := a })

/-- `DefaultCopier::user_to_shm` -/
def userToShm (t : Topic) (ptr : Nat) (bs : List UInt8) : Topic :=
  { t with allocator := t.allocator.store ptr bs }

def oldAddress (t : Topic) (q : Fin queueSize) : Option Nat :=
  if (t.elem q).empty then none else some (t.allocator.handleToPtr (t.elem q).addressHandle)

def setHandle (t : Topic) (q : Fin queueSize) (ptr : Nat) : Topic :=
  t.setElem q { t.elem q with addressHandle := t.allocator.ptrToHandle ptr }

def setSize (t : Topic) (q : Fin queueSize) (size : Nat) : Topic :=
  t.setElem q { t.elem q with size := size }

def setEmpty (t : Topic) (q : Fin queueSize) : Topic :=
  t.setElem q { t.elem q with empty := false }

def free (t : Topic) (ptr : Option Nat) : Checked (Bool × Topic) := do
  let (done, a) ← t.allocator.free ptr
  return (done, { t with allocator := a })

/-- `while (!free(old_address)) sleep`: at most `fuel` tries; `none` when all failed. -/
def freeLoop : Nat → Topic → Option Nat → Checked (Option Topic)
  | 0, _, _ => .ok none
  | fuel + 1, t, ptr => do
    let (done, t) ← t.free ptr
    if done then return some t else freeLoop fuel t ptr

/-- `none` stands for a free loop that has not ended within `fuel` tries. -/
def write (fuel : Nat) (t : Topic) (memblock : Memblock) : Checked (Option (Bool × Topic)) :=
  if memblock.size > t.allocator.getFreeMemory then
    .ok (some (false, t))
  else do
    let q := qPos t.counter
    match ← t.alloc memblock.size with
    | (none, t) => return some (false, t)
    | (some newAddress, t) =>
      let t := t.userToShm newAddress memblock.bytes
      let oldAddress := t.oldAddress q
      let t := ((t.setHandle q newAddress).setSize q memblock.size).setEmpty q
      match ← t.freeLoop fuel oldAddress with
      | none => return none
      | some t => return some (true, t.incCounter)

section Fields

variable (t : Topic) (q : Fin queueSize) (e : Element) (p n : Nat) (bs : List UInt8)

@[simp] theorem allocator_setElem : (t.setElem q e).allocator = t.allocator := rfl
@[simp] theorem counter_setElem : (t.setElem q e).counter = t.counter := rfl
@[simp] theorem allocator_incCounter : t.incCounter.allocator = t.allocator := rfl
@[simp] theorem elem_incCounter : t.incCounter.elem q = t.elem q := rfl
@[simp] theorem allocator_userToShm : (t.userToShm p bs).allocator = t.allocator.store p bs := rfl
@[simp] theorem elem_userToShm : (t.userToShm p bs).elem q = t.elem q := rfl
@[simp] theorem counter_userToShm : (t.userToShm p bs).counter = t.counter := rfl
@[simp] theorem elem_setElem_self : (t.setElem q e).elem q = e := SharedQueue.set_self ..

theorem elem_setElem_ne {q' : Fin queueSize} (h : q' ≠ q) : (t.setElem q e).elem q' = t.elem q' :=
  SharedQueue.set_ne _ h _

theorem counter_incCounter (h : t.counter + 1 < 2 ^ 32) : t.incCounter.counter = t.counter + 1 :=
  u32_eq h

theorem alloc_ok {t t' : Topic} {p : Option Nat} (h : t.alloc n = .ok (p, t')) :
    ∃ a, t.allocator.alloc (u32 n) = .ok (p, a) ∧ t' = { t with allocator := a } := by
  obtain ⟨⟨p', a⟩, halloc, h⟩ := Checked.bind_eq_ok.mp h
  obtain ⟨rfl, rfl⟩ := Prod.mk.inj (Except.ok.inj h)
  exact ⟨a, halloc, rfl⟩

theorem free_ok {t t' : Topic} {ptr : Option Nat} {done : Bool} (h : t.free ptr = .ok (done, t')) :
    ∃ a, t.allocator.free ptr = .ok (done, a) ∧ t' = { t with allocator := a } := by
  obtain ⟨⟨done', a⟩, hfree, h⟩ := Checked.bind_eq_ok.mp h
  obtain ⟨rfl, rfl⟩ := Prod.mk.inj (Except.ok.inj h)
  exact ⟨a, hfree, rfl⟩

theorem counter_alloc {t t' : Topic} {p : Option Nat} (h : t.alloc n = .ok (p, t')) :
    t'.counter = t.counter := by
  obtain ⟨a, -, rfl⟩ := alloc_ok n h
  rfl

theorem counter_free {t t' : Topic} {ptr : Option Nat} {done : Bool}
    (h : t.free ptr = .ok (done, t')) : t'.counter = t.counter := by
  obtain ⟨a, -, rfl⟩ := free_ok h
  rfl

theorem freeLoop_ok (P : Allocator → Prop)
    (hkeep : ∀ a ptr done a', P a → a.free ptr = .ok (done, a') → P a') {t t' : Topic} {fuel : Nat}
    {ptr : Option Nat} (h : t.freeLoop fuel ptr = .ok (some t')) (hP : P t.allocator) :
    t'.queue = t.queue ∧ P t'.allocator := by
  induction fuel generalizing t with
  | zero => cases h
  | succ fuel ih =>
    obtain ⟨⟨done, t₁⟩, hfree, h⟩ := Checked.bind_eq_ok.mp h
    obtain ⟨a, ha, rfl⟩ := free_ok hfree
    have hP' : P a := hkeep _ _ _ _ hP ha
    cases done with
    | true =>
      obtain rfl := Option.some.inj (Except.ok.inj h)
      exact ⟨rfl, hP'⟩
    | false =>
      simp only [Bool.false_eq_true, if_false] at h
      have hrest := ih h hP'
      exact hrest

theorem elem_swap : (((t.setHandle q p).setSize q n).setEmpty q).elem q =
    ⟨n, false, t.allocator.ptrToHandle p⟩ := by
  simp [setHandle, setSize, setEmpty]

theorem elem_swap_ne {q' : Fin queueSize} (h : q' ≠ q) :
    (((t.setHandle q p).setSize q n).setEmpty q).elem q' = t.elem q' := by
  rw [setEmpty, elem_setElem_ne _ _ _ h, setSize, elem_setElem_ne _ _ _ h, setHandle,
    elem_setElem_ne _ _ _ h]

end Fields

end Topic

end Shadesmar.PubSub
