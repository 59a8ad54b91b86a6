import Shadesmar.PubSub.Lapping

namespace Shadesmar.PubSub

open Library Shadesmar.Memory Shadesmar.Concurrency

variable {data : List UInt8}

theorem load_get (a : Allocator) (handle : Nat) {n i : Nat} (h : i < n) :
    (a.load (a.handleToPtr handle) n)[i]? = some (a.heap (handle + i)) := by
  rw [Allocator.load, Allocator.handleToPtr, Nat.add_sub_cancel_left]
  exact Bytes.getElem?_read h

theorem load_succ (a : Allocator) (handle k : Nat) :
    a.load (a.handleToPtr handle) k ++ a.load (a.handleToPtr handle + k) 1 =
      a.load (a.handleToPtr handle) (k + 1) := by
  have hoff : a.handleToPtr handle + k - a.heapBase = a.handleToPtr handle - a.heapBase + k := by
    unfold Allocator.handleToPtr
    omega
  simp only [Allocator.load, hoff, Bytes.read, List.range_succ, List.map_append, List.map_cons,
    List.map_nil, List.range_zero, List.nil_append, Nat.add_zero]

theorem heap_store_below {a : Allocator} {p x : Nat} {bs : List UInt8} (h : x < p - a.heapBase) :
    (a.store p bs).heap x = a.heap x := Bytes.write_outside (.inl h)

/-- What is read where the first message was stored, with a header written into it. -/
theorem load_ne {a : Allocator} {size : Nat} (hheader : a.heap 8 = 1) (hsize : 4 < size)
    (hbyte : data[4]? ≠ some 1) : a.load (a.handleToPtr 4) size ≠ data := by
  intro heq
  rw [← heq] at hbyte
  exact hbyte ((load_get a 4 hsize).trans (congrArg some hheader))

theorem alloc_long : (Topic.new 4096 (2 ^ 32 + 8)).allocator.alloc (u32 (2 ^ 32 - 1)) =
    .ok (some 4100, ⟨2, 0, 2 ^ 32 + 8, 4096, Bytes.writeWord (fun _ => 0) 0 1⟩) := by
  with_unfolding_all rfl

theorem alloc_short (heap : Bytes.Mem) : (Allocator.mk 2 0 (2 ^ 32 + 8) 4096 heap).alloc (u32 1) =
    .ok (some 4108, ⟨4, 0, 2 ^ 32 + 8, 4096, Bytes.writeWord heap 2 1⟩) := by
  with_unfolding_all rfl

theorem write_long (hdata : data.length = 2 ^ 32 - 1) : ∃ (t : Topic) (heap : Bytes.Mem),
    (Topic.new 4096 (2 ^ 32 + 8)).write 1 (.ofData data) = .ok (some (true, t)) ∧
    t.counter = 1 ∧ t.allocator = ⟨2, 0, 2 ^ 32 + 8, 4096, heap⟩ ∧
    t.elem (qPos 0) = ⟨2 ^ 32 - 1, false, 4⟩ ∧ (t.elem (qPos 1)).empty = true := by
  have hsize : (Memblock.ofData data).size = 2 ^ 32 - 1 := hdata
  have hroom : 2 ^ 32 - 1 ≤ (Topic.new 4096 (2 ^ 32 + 8)).allocator.getFreeMemory := by decide
  obtain ⟨t, hwrite, hallocator, hcounter, helem, hrest⟩ :=
    Topic.write_vacant (m := .ofData data) (hsize ▸ hroom) (hsize ▸ alloc_long) rfl
  refine ⟨t, _, hwrite, hcounter.trans (u32_eq (by decide)), hallocator,
    helem.trans (by rw [hsize]; rfl), ?_⟩
  rw [hrest (qPos 1) (show qPos 1 ≠ qPos 0 by decide)]
  rfl

theorem write_long_short (hdata : data.length = 2 ^ 32 - 1) : ∃ t t' : Topic,
    (Topic.new 4096 (2 ^ 32 + 8)).write 1 (.ofData data) = .ok (some (true, t)) ∧
    t.write 1 (.ofData [1]) = .ok (some (true, t')) ∧ t.counter = 1 ∧ t'.counter = 2 ∧
    t'.elem (qPos 0) = ⟨2 ^ 32 - 1, false, 4⟩ ∧ t'.allocator.heap 8 = 1 := by
  obtain ⟨t, heap, hwrite, hone, hallocator, helem, hempty⟩ := write_long hdata
  have halloc : t.allocator.alloc (u32 1) = _ := hallocator ▸ alloc_short heap
  have hroom : 1 ≤ t.allocator.getFreeMemory := by
    rw [hallocator]
    exact (show 1 ≤ (Allocator.mk 2 0 (2 ^ 32 + 8) 4096 fun _ => 0).getFreeMemory by decide)
  obtain ⟨t', hwrite', hallocator', hcounter', -, hrest'⟩ :=
    Topic.write_vacant (m := .ofData [1]) hroom halloc (hone ▸ hempty)
  refine ⟨t, t', hwrite, hwrite', hone, ?_, ?_, ?_⟩
  · rw [hcounter', hone]
    exact u32_eq (by decide)
  · rw [hrest' (qPos 0) (hone ▸ show qPos 0 ≠ qPos 1 by decide)]
    exact helem
  · have hheader : Bytes.writeWord heap 2 1 8 = 1 := Bytes.write_inside (i := 0) (by decide)
    rw [hallocator', heap_store_below (show 8 < 4108 - 4096 by decide)]
    exact hheader

namespace Interleaving.World

variable {n m : Nat} {s : World n m} {j : Fin m} {c handle size : Nat}

theorem run_copy {alloc : Nat → Bool} {held : Fin queueSize} {fast : Bool}
    (halloc : alloc size = true) {k : Nat} (hk : k ≤ size) :
    Machine.run (step alloc) (s.setSub j ⟨c, .copy held fast handle size []⟩)
        (List.replicate k (.subscriber j)) =
      some (s.setSub j ⟨c, .copy held fast handle size
        (s.topic.allocator.load (s.topic.allocator.handleToPtr handle) k)⟩) := by
  induction k with
  | zero => rfl
  | succ k ih =>
    rw [List.replicate_succ', Machine.run_append, ih (Nat.le_of_succ_le hk), Option.bind_some]
    have hlen : (s.topic.allocator.load (s.topic.allocator.handleToPtr handle) k).length = k :=
      Bytes.length_read ..
    simp only [Machine.run, step, stepSub, subs_setSub, hlen, if_pos (Nat.lt_of_succ_le hk), halloc,
      if_true, Option.bind_some]
    simp only [setSub, Function.update_idem, load_succ]

theorem run_read (alloc : Nat → Bool) (hsub : s.subs j = ⟨c, .idle⟩) (hnew : c < s.topic.counter)
    (hlag : sub32 s.topic.counter c < queueSize) (hlock : s.locks (qPos c) = .free)
    (helem : s.topic.elem (qPos c) = ⟨size, false, handle⟩) (halloc : alloc size = true) :
    Machine.run (step alloc) s
        (List.replicate 8 (.subscriber j) ++ List.replicate size (.subscriber j) ++
          List.replicate 2 (.subscriber j)) =
      some (s.setSub j ⟨c, .returned true
        ⟨some (s.topic.allocator.load (s.topic.allocator.handleToPtr handle) size), size, true⟩⟩) := by
  let t : World n m := s.setLock (qPos c) ⟨false, 1⟩
  have hstart : Machine.run (step alloc) s (List.replicate 8 (.subscriber j)) =
      some (t.setSub j ⟨c, .copy (qPos c) true handle size []⟩) := by
    have htry : (s.locks (qPos c)).tryLockSharable = some ⟨false, 1⟩ := by
      rw [hlock]
      rfl
    simp only [List.replicate, Machine.run, step, stepSub, setSub, setLock, hsub, htry, helem, t,
      if_neg (Nat.not_le_of_lt hnew), if_neg (Nat.not_le_of_lt hlag), if_pos hlag,
      Function.update_self, Function.update_idem, Option.bind_some, Option.map_some,
      Bool.false_eq_true, if_false]
  have hback : Function.update (Function.update s.locks (qPos c) ⟨false, 1⟩) (qPos c)
      (RwLock.unlock ⟨false, 1⟩) = s.locks := by
    rw [Function.update_idem, show RwLock.unlock ⟨false, 1⟩ = s.locks (qPos c) from hlock ▸ rfl,
      Function.update_eq_self]
  have hlen : (s.topic.allocator.load (s.topic.allocator.handleToPtr handle) size).length = size :=
    Bytes.length_read ..
  rw [Machine.run_append, Machine.run_append, hstart, Option.bind_some,
    run_copy halloc (Nat.le_refl size), Option.bind_some]
  simp only [List.replicate, Machine.run, step, stepSub, setSub, setLock, t, hlen, halloc, hback,
    Nat.lt_irrefl, Function.update_self, Function.update_idem, Option.bind_some, if_true, if_false]

def longLabels (i : Fin n) (j : Fin m) (data : List UInt8) (size : Nat) : List (Label n m) :=
  (.write i (.ofData data) :: List.replicate 12 (.publisher i)) ++
    (.write i (.ofData [1]) :: List.replicate 12 (.publisher i)) ++
    (List.replicate 8 (.subscriber j) ++ List.replicate size (.subscriber j) ++
      List.replicate 2 (.subscriber j))

theorem run_long (hsize : size = 2 ^ 32 - 1) (hdata : data.length = size)
    (hbyte : data[4]? ≠ some 1) : ∃ (s : World 1 1) (got : List UInt8),
      Machine.run (step fun _ => true) (new 4096 (2 ^ 32 + 8)) (longLabels 0 0 data size) = some s ∧
      s.accepted.length = 2 ∧ s.Published 0 (.ofData data) ∧
      s.subs 0 = ⟨0, .returned true ⟨some got, size, true⟩⟩ ∧ got ≠ data ∧
      ¬ s.Consistent true 0 := by
  obtain ⟨t, t', hlong, hshort, -, htwo, helem, hgot⟩ := write_long_short (hdata.trans hsize)
  rw [← hsize] at helem
  let s₀ : World 1 1 := new 4096 (2 ^ 32 + 8)
  let s₁ : World 1 1 := { s₀ with topic := t, calls := [.ofData data], accepted := [0] }
  let s₂ : World 1 1 := { s₀ with
    topic := t', calls := [.ofData data, .ofData [1]], accepted := [0, 1] }
  let got := t'.allocator.load (t'.allocator.handleToPtr 4) size
  have hlag : sub32 t'.counter 0 < queueSize := by
    rw [htwo, sub32_eq (Nat.zero_le 2)]
    decide
  have hrun₁ := run_write (fun _ => true) (s := s₀) (i := 0) rfl (Memblock.filled_ofData _) rfl hlong
  have hrun₂ := run_write (fun _ => true) (s := s₁) (i := 0) rfl (Memblock.filled_ofData _) rfl hshort
  have hrun₃ := run_read (fun _ => true) (s := s₂) (j := 0) (c := 0) rfl
    (htwo ▸ Nat.two_pos) hlag rfl helem rfl
  have hne : got ≠ data := load_ne hgot (hsize ▸ by decide) hbyte
  have hpublished : s₂.Published 0 (.ofData data) := ⟨0, rfl, rfl⟩
  refine ⟨s₂.setSub 0 ⟨0, .returned true ⟨some got, size, true⟩⟩, got, ?_, rfl, hpublished,
    subs_setSub .., hne, fun hconsistent => ?_⟩
  · rw [longLabels, Machine.run_append, Machine.run_append, hrun₁, Option.bind_some]
    exact (congrArg (Option.bind · _) hrun₂).trans hrun₃
  · obtain ⟨msg, ⟨id, hid, hmsg⟩, -, hbytes⟩ :=
      hconsistent.returned ⟨some got, size, true⟩ (by rw [subs_setSub])
    obtain rfl : 0 = id := Option.some.inj hid
    obtain rfl : Memblock.ofData data = msg := Option.some.inj hmsg
    have hlen : got.length ≤ size := Nat.le_of_eq (Bytes.length_read ..)
    have htake : got.take size = data := hbytes.trans (Memblock.bytes_ofData data)
    exact hne ((List.take_of_length_le hlen).symm.trans htake)

end Interleaving.World

namespace Bus

theorem run_long {size : Nat} (hsize : size = 2 ^ 32 - 1) (hdata : data.length = size)
    (hbyte : data[4]? ≠ some 1) : ∃ (s : Bus 1) (got : List UInt8),
      Machine.run (step (n := 1) (fun _ => true) 1) (new 4096 (2 ^ 32 + 8))
        [.publish 0 data, .publish 0 [1], .spinOnce 0] = some s ∧
      s.accepted = [data, [1]] ∧
      (s.subs 0).delivered = [(0, ⟨some got, size, true⟩)] ∧ got ≠ data ∧
      ¬ s.Delivery (fun _ => true) 0 := by
  obtain ⟨t, t', hlong, hshort, -, htwo, helem, hgot⟩ := write_long_short (hdata.trans hsize)
  rw [← hsize] at helem
  let got := t'.allocator.load (t'.allocator.handleToPtr 4) size
  have hlag : sub32 t'.counter 0 < queueSize := by
    rw [htwo, sub32_eq (Nat.zero_le 2)]
    decide
  have hmove : t'.moveElem (fun _ => true) (qPos 0) ⟨none, 0, true⟩ =
      some ⟨some got, size, true⟩ := by
    unfold Topic.moveElem
    rw [helem]
    rfl
  have hnew : ¬ t'.counter ≤ 0 := by
    rw [htwo]
    decide
  have hget : Subscriber.getMessage (fun _ => true) t' ⟨0, []⟩ =
      (⟨some got, size, true⟩, ⟨0, []⟩) := by
    simp only [Subscriber.getMessage, Memblock.null, Topic.read, if_neg hnew,
      if_neg (Nat.not_le_of_lt hlag), if_pos hlag, hmove]
  have hspin : Subscriber.spinOnce (fun _ => true) t' ⟨0, []⟩ =
      ⟨1, [(0, ⟨some got, size, true⟩)]⟩ := by
    have hnext : u32 (0 + 1) = 1 := u32_eq (by decide)
    simp only [Subscriber.spinOnce, hget, Memblock.isEmpty, Option.isNone_some, Bool.false_and,
      Bool.false_eq_true, if_false, hnext, List.nil_append]
  have hne : got ≠ data := load_ne hgot (hsize ▸ by decide) hbyte
  let sub : Subscriber := ⟨1, [(0, ⟨some got, size, true⟩)]⟩
  let s : Bus 1 := ⟨t', [data, [1]], Function.update (fun _ => .new) 0 sub⟩
  have hdelivered : (s.subs 0).delivered = [(0, ⟨some got, size, true⟩)] := by
    simp only [s, Function.update_self, sub]
  refine ⟨s, got, ?_, rfl, hdelivered, hne, fun hdelivery => ?_⟩
  · simp only [Machine.run, step, publish, new, hlong, hshort, Subscriber.new, hspin,
      Option.bind_some, List.nil_append, List.cons_append, s, sub]
  · obtain ⟨msg, hmsg, hcopy⟩ := hdelivery.inOrder.exact (0, ⟨some got, size, true⟩)
      (by rw [hdelivered]; exact List.mem_singleton_self _)
    obtain rfl : data = msg := Option.some.inj hmsg
    exact hne (Option.some.inj (congrArg Memblock.ptr hcopy))

end Bus

section Long

@[irreducible] def longMessage : List UInt8 := List.replicate (2 ^ 32 - 1) 0

theorem length_longMessage : longMessage.length = 2 ^ 32 - 1 := by
  unfold longMessage
  exact List.length_replicate

theorem longMessage_get : longMessage[4]? ≠ some 1 := by
  unfold longMessage
  rw [List.getElem?_replicate, if_pos (by decide)]
  decide

/-- What the fast path has returned for position 0 is not the message accepted there. -/
theorem fast_read_overwritten : ∃ (s : Interleaving.World 1 1) (got : List UInt8),
    Machine.run (Interleaving.World.step fun _ => true) (.new 4096 (2 ^ 32 + 8))
      (Interleaving.World.longLabels 0 0 longMessage (2 ^ 32 - 1)) = some s ∧
    s.accepted.length = 2 ∧ s.Published 0 (.ofData longMessage) ∧
    s.subs 0 = ⟨0, .returned true ⟨some got, 2 ^ 32 - 1, true⟩⟩ ∧ got ≠ longMessage ∧
    ¬ s.Consistent true 0 := Interleaving.World.run_long rfl length_longMessage longMessage_get

/-- What the callback is given for position 0 is not the message accepted there. -/
theorem delivered_overwritten : ∃ (s : Bus 1) (got : List UInt8),
    Machine.run (Bus.step (n := 1) (fun _ => true) 1) (.new 4096 (2 ^ 32 + 8))
      [.publish 0 longMessage, .publish 0 [1], .spinOnce 0] = some s ∧
    s.accepted = [longMessage, [1]] ∧
    (s.subs 0).delivered = [(0, ⟨some got, 2 ^ 32 - 1, true⟩)] ∧ got ≠ longMessage ∧
    ¬ s.Delivery (fun _ => true) 0 := Bus.run_long rfl length_longMessage longMessage_get

end Long

end Shadesmar.PubSub
