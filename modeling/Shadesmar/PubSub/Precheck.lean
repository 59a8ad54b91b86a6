import Shadesmar.Memory.Operations
import Shadesmar.PubSub.Topic

namespace Shadesmar.PubSub

open Library Shadesmar.Memory

namespace Topic

/-- Not a function of the source: `write` with its first test left out. -/
def writeUnchecked (fuel : Nat) (t : Topic) (memblock : Memblock) :
    Checked (Option (Bool × Topic)) := do
  let q := qPos t.counter
  match ← t.alloc memblock.size with
  | (none, t) => return some (false, t)
  | (some newAddress, t) =>
    let t := t.userToShm newAddress memblock.bytes
    let oldAddress := t.oldAddress q
    let t := ((t.setHandle q newAddress).setSize q memblock.size).setEmpty q
    match ← t.freeLoop fuel oldAddress with
    | none => return none
    | some t => return some (true, t.incCounter)

/-- What the constructor of `Memory` does to a segment whose participants are all dead. -/
def reset (t : Topic) : Topic where
  queue := ⟨0, fun _ => .fresh⟩
  allocator := t.allocator.reset

inductive Operation
  | write (fuel : Nat) (memblock : Memblock)
  | reset
  deriving DecidableEq

/-- `none` for a `write` that aborts, or that has not returned within its tries. -/
def perform (t : Topic) : Operation → Option Topic
  | .write fuel memblock => (t.write fuel memblock).toOption.join.map Prod.snd
  | .reset => some t.reset

variable {t t' : Topic} {done : Bool} {fuel : Nat} {m : Memblock}

theorem write_unfold (fuel : Nat) (t : Topic) (m : Memblock) : t.write fuel m =
    if m.size > t.allocator.getFreeMemory then .ok (some (false, t)) else t.writeUnchecked fuel m :=
  rfl

theorem bounded_writeUnchecked (h : t.allocator.Bounded)
    (hw : t.writeUnchecked fuel m = .ok (some (done, t'))) : t'.allocator.Bounded := by
  obtain ⟨⟨p, s⟩, halloc, hw⟩ := Checked.bind_eq_ok.mp hw
  obtain ⟨a, ha, rfl⟩ := alloc_ok _ halloc
  have hb : a.Bounded := h.alloc ha
  cases p with
  | none =>
    obtain ⟨-, rfl⟩ := Prod.mk.inj (Option.some.inj (Except.ok.inj hw))
    exact hb
  | some p =>
    obtain ⟨loop, hloop, hw⟩ := Checked.bind_eq_ok.mp hw
    cases loop with
    | none => cases hw
    | some r =>
      obtain ⟨-, rfl⟩ := Prod.mk.inj (Option.some.inj (Except.ok.inj hw))
      have hlast := freeLoop_ok _ (fun _ _ _ _ hs hfree => hs.free hfree) hloop (hb.store p m.bytes)
      exact hlast.2

theorem bounded_write (h : t.allocator.Bounded) (hw : t.write fuel m = .ok (some (done, t'))) :
    t'.allocator.Bounded := by
  rw [write_unfold] at hw
  split_ifs at hw
  · obtain ⟨-, rfl⟩ := Prod.mk.inj (Option.some.inj (Except.ok.inj hw))
    exact h
  · exact bounded_writeUnchecked h hw

theorem bounded_perform (h : t.allocator.Bounded) {op : Operation} (hp : t.perform op = some t') :
    t'.allocator.Bounded := by
  cases op with
  | write fuel m =>
    obtain ⟨⟨d, s⟩, hw, rfl⟩ := Option.map_eq_some_iff.mp hp
    exact bounded_write h (Checked.toOption_eq_some.mp (Option.join_eq_some_iff.mp hw))
  | reset =>
    obtain rfl := Option.some.inj hp
    exact h.perform (show t.allocator.perform .reset = some t.allocator.reset from rfl)

theorem bounded_of_run {heapBase size : Nat} (hnew : (Allocator.new heapBase size).Sized)
    {ops : List Operation} (h : Machine.run perform (new heapBase size) ops = some t) :
    t.allocator.Bounded :=
  (Machine.Run.of_run h).invariant (fun s => s.allocator.Bounded) (Allocator.bounded_new hnew)
    fun _ _ _ hs _ hp => bounded_perform hs hp

theorem write_eq_unchecked (h : t.allocator.Bounded) (fuel : Nat) (hm : m.size < 2 ^ 32 - 1) :
    t.write fuel m = t.writeUnchecked fuel m := by
  rw [write_unfold]
  split_ifs with hfree
  · have hnone : t.allocator.alloc (u32 m.size) = .ok (none, t.allocator) := by
      rw [u32_eq (by omega)]
      exact h.alloc_refused hm hfree
    unfold writeUnchecked alloc
    rw [hnone]
    rfl
  · rfl

/-- The test of the free memory changes no outcome: whatever it refuses is refused by `alloc`. -/
theorem precheck_redundant {heapBase size : Nat} (hdvd : 4 ∣ size) (hle : 8 ≤ size)
    (hlim : size ≤ 2 ^ 31) (hspace : heapBase + size ≤ 2 ^ 64) :
    (∀ ops a, Machine.run Allocator.perform (Allocator.new heapBase size) ops = some a →
      (∀ bytes, bytes < 2 ^ 32 - 1 → a.getFreeMemory < bytes → a.alloc bytes = .ok (none, a)) ∧
      ∀ queue fuel m, m.size < 2 ^ 32 - 1 →
        write fuel ⟨queue, a⟩ m = writeUnchecked fuel ⟨queue, a⟩ m) ∧
    ∀ ops t, Machine.run perform (new heapBase size) ops = some t →
      ∀ fuel m, m.size < 2 ^ 32 - 1 → t.write fuel m = t.writeUnchecked fuel m := by
  have hnew : (Allocator.new heapBase size).Sized :=
    ⟨hdvd, hle, Nat.le_trans hlim (by decide), hspace⟩
  constructor
  · intro ops a hrun
    have ha := Allocator.bounded_of_run hnew hrun
    exact ⟨fun bytes hbytes hfree => ha.alloc_refused hbytes hfree,
      fun queue fuel m hm => write_eq_unchecked ha fuel hm⟩
  · intro ops t hrun fuel m hm
    exact write_eq_unchecked (bounded_of_run hnew hrun) fuel hm

theorem precheck_redundant_full : ∃ t,
    Machine.run perform (new 4096 64) [.write 1 (.ofData (List.replicate 36 7))] = some t ∧
      t.allocator.getFreeMemory = 20 ∧
      t.write 1 (.ofData (List.replicate 30 7)) =
        t.writeUnchecked 1 (.ofData (List.replicate 30 7)) := by
  have hrun : (Machine.run perform (new 4096 64) [.write 1 (.ofData (List.replicate 36 7))]).map
      (fun t => t.allocator.getFreeMemory) = some 20 := by decide +kernel
  obtain ⟨t, ht, hfree⟩ := Option.map_eq_some_iff.mp hrun
  have hall := precheck_redundant (show 4 ∣ 64 by decide) (by decide) (by decide)
    (show 4096 + 64 ≤ 2 ^ 64 by decide)
  exact ⟨t, ht, hfree, hall.2 _ t ht 1 _ (by decide)⟩

end Topic

end Shadesmar.PubSub
