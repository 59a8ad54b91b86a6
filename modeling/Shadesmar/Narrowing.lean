import Shadesmar.Memory.Placement
import Shadesmar.PubSub.Publisher
import Shadesmar.Rpc.Service

namespace Shadesmar.Memory

open Library

/-- The block reserved covers the message as long as neither the narrowing nor the rounding
in `alloc` wraps. -/
theorem le_requestWords_iff (size : Nat) :
    size ≤ 4 * requestWords (u32 size) 1 ↔ size ≤ 2 ^ 32 - 5 := by
  unfold requestWords Allocator.requestBytes u32
  split_ifs <;> omega

namespace Allocator

variable {a a' : Allocator} {p size : Nat}

/-- The element records the size and names a block, laid down by `alloc`, with room for it. -/
def Records (a : Allocator) (size : Nat) (e : Element) : Prop :=
  e.size = size ∧ ∃ p a', a.alloc (u32 size) = .ok (some p, a') ∧
    e.addressHandle = (a'.blockAt a.allocIndex).handle ∧ size ≤ 4 * (a'.blockAt a.allocIndex).size

theorem u32_lt (n : Nat) : u32 n < 2 ^ 32 := by
  unfold u32
  exact Nat.mod_lt n (by decide)

theorem blockAt_alloc (hspace : a.heapBase + a.size ≤ 2 ^ 64) (hsize : a.size < 2 ^ 33)
    (h : a.alloc (u32 size) = .ok (some p, a')) :
    a'.ptrToHandle p = (a'.blockAt a.allocIndex).handle ∧
      (a'.blockAt a.allocIndex).size = requestWords (u32 size) 1 := by
  rcases alloc_ok hspace (u32_lt size) h with ⟨hnone, -⟩ | ⟨index, next, hindex, -, -, hp, rfl⟩
  · cases hnone
  obtain rfl := Option.some.inj hp
  obtain ⟨hheader, -, -, hplace⟩ := suggestIndex_ok hindex
  have hwords : requestWords (u32 size) 1 < 2 ^ 30 := Nat.mod_lt _ (by decide)
  have hword := Bytes.readWord_writeWord (m := a.heap) (i := a.allocIndex)
    (Nat.lt_trans hwords (by decide))
  generalize requestWords (u32 size) 1 = w at *
  have hsum : (a.allocIndex + w) % 2 ^ 32 = a.allocIndex + w := by
    unfold words at hheader
    omega
  have hsucc : (a.allocIndex + 1) % 2 ^ 32 = a.allocIndex + 1 := by
    unfold words at hheader
    omega
  rw [hsum, hsucc] at hplace
  constructor
  · simp only [blockAt, Block.handle, ptrToHandle, hword, Nat.add_sub_cancel_left]
    rw [hplace]
    rfl
  · exact hword

theorem records_iff (hspace : a.heapBase + a.size ≤ 2 ^ 64) (hsize : a.size < 2 ^ 33)
    (h : a.alloc (u32 size) = .ok (some p, a')) {e : Element} (hrecorded : e.size = size)
    (hhandle : e.addressHandle = a'.ptrToHandle p) : a.Records size e ↔ size ≤ 2 ^ 32 - 5 := by
  obtain ⟨hblock, hwords⟩ := blockAt_alloc hspace hsize h
  rw [← le_requestWords_iff size, ← hwords]
  constructor
  · rintro ⟨-, p', a'', halloc, -, hroom⟩
    rw [h] at halloc
    obtain ⟨-, rfl⟩ := Prod.mk.inj (Except.ok.inj halloc)
    exact hroom
  · intro hroom
    exact ⟨hrecorded, p, a', h, hhandle.trans hblock, hroom⟩

theorem Indexed.getFreeMemory_le {heapBase total : Nat} (h : a.Indexed heapBase total) :
    a.getFreeMemory ≤ total := by
  obtain ⟨-, rfl, halloc, hfree⟩ := h
  unfold getFreeMemory
  unfold words at *
  dsimp only
  split_ifs <;> omega

theorem Indexed.served_le {heapBase total : Nat} (h : a.Indexed heapBase total)
    (hspace : heapBase + total ≤ 2 ^ 64) (hdvd : 4 ∣ total) (htotal : total < 2 ^ 32)
    (hroom : size ≤ a.getFreeMemory) (halloc : a.alloc (u32 size) = .ok (some p, a')) :
    size ≤ 2 ^ 32 - 5 := by
  have hle := h.getFreeMemory_le
  obtain ⟨rfl, rfl, -, -⟩ := h
  rcases alloc_ok hspace (u32_lt size) halloc with ⟨hnone, -⟩ | ⟨index, next, -, hlimit, -⟩
  · cases hnone
  rw [u32_eq (by omega)] at hlimit
  unfold requestBytes at hlimit
  by_cases hbig : size ≤ 2 ^ 32 - 5
  · exact hbig
  · rw [sub64_eq (by omega)] at hlimit
    split_ifs at hlimit <;> omega

end Allocator

end Shadesmar.Memory

namespace Shadesmar.PubSub

open Library Shadesmar.Memory

namespace Topic

variable {t t' : Topic} {heapBase total fuel : Nat} {m : Memblock}

theorem write_records {done : Bool} (hspace : heapBase + total ≤ 2 ^ 64)
    (hidx : t.allocator.Indexed heapBase total) (h : t.write fuel m = .ok (some (done, t'))) :
    t'.allocator.Indexed heapBase total ∧
    (done = true → ∃ p a, t.allocator.alloc (u32 m.size) = .ok (some p, a) ∧
      t'.elem (qPos t.counter) = ⟨m.size, false, a.ptrToHandle p⟩) := by
  rw [write_eq] at h
  unfold exchange at h
  split_ifs at h with hroom
  · obtain ⟨rfl, rfl⟩ := Prod.mk.inj (Option.some.inj (Except.ok.inj h))
    exact ⟨hidx, nofun⟩
  · obtain ⟨⟨old, t₁⟩, hexchange, h⟩ := Checked.bind_eq_ok.mp h
    obtain ⟨⟨p, t₂⟩, halloc, hexchange⟩ := Checked.bind_eq_ok.mp hexchange
    obtain ⟨a, ha, rfl⟩ := alloc_ok _ halloc
    have hidx' := hidx.alloc hspace (Allocator.u32_lt _) ha
    cases p with
    | none =>
      obtain ⟨rfl, rfl⟩ := Prod.mk.inj (Except.ok.inj hexchange)
      obtain ⟨rfl, rfl⟩ := Prod.mk.inj (Option.some.inj (Except.ok.inj h))
      exact ⟨hidx', nofun⟩
    | some p =>
      obtain ⟨rfl, rfl⟩ := Prod.mk.inj (Except.ok.inj hexchange)
      obtain ⟨loop, hloop, h⟩ := Checked.bind_eq_ok.mp h
      cases loop with
      | none => cases h
      | some t₃ =>
        obtain ⟨rfl, rfl⟩ := Prod.mk.inj (Option.some.inj (Except.ok.inj h))
        obtain ⟨hqueue, hidx''⟩ := freeLoop_ok _ (fun _ _ _ _ => .free) hloop (hidx'.store p m.bytes)
        refine ⟨hidx'', fun _ => ⟨p, a, ha, ?_⟩⟩
        rw [elem_incCounter]
        unfold elem
        rw [hqueue]
        exact elem_swap _ _ _ _

end Topic

theorem Feed.indexed_of_run {heapBase bufferSize fuel : Nat}
    (hspace : heapBase + bufferSize ≤ 2 ^ 64) {calls : List Memblock} {s : Feed}
    (h : Machine.run (step fuel) (new heapBase bufferSize) calls = some s) :
    s.topic.allocator.Indexed heapBase bufferSize := by
  apply (Machine.Run.of_run h).invariant fun t => t.topic.allocator.Indexed heapBase bufferSize
  · exact .new heapBase bufferSize
  · intro t m t' ht _ hs
    unfold step at hs
    split_ifs at hs with hm
    cases hwrite : t.topic.write fuel m with
    | error e => simp [hwrite] at hs
    | ok result =>
      cases result with
      | none => simp [hwrite] at hs
      | some r =>
        obtain ⟨done, t₁⟩ := r
        have hidx := (Topic.write_records hspace ht hwrite).1
        rw [hwrite] at hs
        cases done <;> exact Option.some.inj hs ▸ hidx

end Shadesmar.PubSub

namespace Shadesmar.Rpc

open Library Shadesmar.Memory

structure Channel.Indexed (heapBase stride bufferSize : Nat) (c : Channel) : Prop where
  req : c.allocator.req.Indexed heapBase (bufferSize / 2)
  resp : c.allocator.resp.Indexed (heapBase + stride + bufferSize / 2) (bufferSize / 2)

namespace Channel

variable {c c' : Channel} {heapBase stride bufferSize pos : Nat} {m : Memblock} {cb : Callback}

theorem writeClient_records {r : Option Nat} (hspace : heapBase + stride + bufferSize ≤ 2 ^ 64)
    (hidx : c.Indexed heapBase stride bufferSize) (h : c.writeClient m = .ok (r, c')) :
    c'.Indexed heapBase stride bufferSize ∧
    ∀ pos, r = some pos → m.size ≤ c.allocator.req.getFreeMemory ∧
      ∃ p a, c.allocator.req.alloc (u32 m.size) = .ok (some p, a) ∧
        (c'.elem (qPos pos)).req = ⟨m.size, false, a.ptrToHandle p⟩ := by
  unfold writeClient at h
  split_ifs at h with hroom
  · obtain ⟨rfl, rfl⟩ := Prod.mk.inj (Except.ok.inj h)
    exact ⟨hidx, nofun⟩
  · rcases accept_cases c (qPos c.counter) with ⟨-, hnone⟩ | ⟨-, hsome⟩
    · simp only [hnone] at h
      obtain ⟨rfl, rfl⟩ := Prod.mk.inj (Except.ok.inj h)
      exact ⟨hidx, nofun⟩
    · simp only [hsome] at h
      obtain ⟨⟨p, c₁⟩, halloc, h⟩ := Checked.bind_eq_ok.mp h
      obtain ⟨a, ha, rfl⟩ := allocReq_ok halloc
      have hreq := hidx.req.alloc (by omega) (Allocator.u32_lt _) ha
      cases p with
      | none =>
        obtain ⟨rfl, rfl⟩ := Prod.mk.inj (Except.ok.inj h)
        exact ⟨⟨hreq, hidx.resp⟩, nofun⟩
      | some p =>
        obtain ⟨rfl, rfl⟩ := Prod.mk.inj (Except.ok.inj h)
        refine ⟨⟨hreq.store p m.bytes, hidx.resp⟩, ?_⟩
        rintro pos ⟨⟩
        refine ⟨Nat.le_of_not_lt hroom, p, a, ha, ?_⟩
        simp only [setReqSize, setReqHandle, elem_setReq_self, storeReq, elem_setReqAllocator]
        rfl

theorem writeServer_records {done : Bool} (hspace : heapBase + stride + bufferSize ≤ 2 ^ 64)
    (hidx : c.Indexed heapBase stride bufferSize) (h : c.writeServer m pos = .ok (done, c')) :
    c'.Indexed heapBase stride bufferSize ∧
    (done = true → m.size ≤ c.allocator.resp.getFreeMemory ∧
      ∃ p a, c.allocator.resp.alloc (u32 m.size) = .ok (some p, a) ∧
        (c'.elem (qPos pos)).resp = ⟨m.size, false, a.ptrToHandle p⟩) := by
  unfold writeServer at h
  split_ifs at h with hroom
  · obtain ⟨rfl, rfl⟩ := Prod.mk.inj (Except.ok.inj h)
    exact ⟨⟨hidx.req, hidx.resp⟩, nofun⟩
  · obtain ⟨⟨p, c₁⟩, halloc, h⟩ := Checked.bind_eq_ok.mp h
    obtain ⟨a, ha, rfl⟩ := allocResp_ok halloc
    have hresp := hidx.resp.alloc (by omega) (Allocator.u32_lt _) ha
    cases p with
    | none =>
      obtain ⟨rfl, rfl⟩ := Prod.mk.inj (Except.ok.inj h)
      exact ⟨⟨hidx.req, hresp⟩, nofun⟩
    | some p =>
      obtain ⟨rfl, rfl⟩ := Prod.mk.inj (Except.ok.inj h)
      refine ⟨⟨hidx.req, hresp.store p m.bytes⟩, fun _ => ⟨Nat.le_of_not_lt hroom, p, a, ha, ?_⟩⟩
      simp only [respond, elem_setResp_self]
      rfl

theorem readClient_indexed {r : Option Memblock} (hidx : c.Indexed heapBase stride bufferSize)
    (h : c.readClient pos = some (.ok (r, c'))) : c'.Indexed heapBase stride bufferSize := by
  have hclean : ∀ {c₁}, c.cleanUp (qPos pos) = .ok c₁ → c₁.Indexed heapBase stride bufferSize := by
    intro c₁ hclean
    simp only [cleanUp] at hclean
    split_ifs at hclean with hsize
    · obtain ⟨c₂, hfree, hclean⟩ := Checked.bind_eq_ok.mp hclean
      obtain ⟨⟨done, a⟩, ha, hfree⟩ := Checked.bind_eq_ok.mp hfree
      obtain rfl := Except.ok.inj hfree
      obtain rfl := Except.ok.inj hclean
      exact ⟨hidx.req.free ha, hidx.resp⟩
    · obtain rfl := Except.ok.inj hclean
      exact ⟨hidx.req, hidx.resp⟩
  simp only [readClient] at h
  split_ifs at h with hempty
  have h := Option.some.inj h
  simp only [receive] at h
  split_ifs at h with hhandle
  · obtain ⟨c₁, hc₁, h⟩ := Checked.bind_eq_ok.mp h
    obtain ⟨-, rfl⟩ := Prod.mk.inj (Except.ok.inj h)
    exact hclean hc₁
  · obtain ⟨c₁, hc₁, h⟩ := Checked.bind_eq_ok.mp h
    obtain ⟨-, rfl⟩ := Prod.mk.inj (Except.ok.inj h)
    exact hclean hc₁

end Channel

theorem Service.indexed_of_run {cb : Callback} {heapBase stride bufferSize : Nat}
    (hspace : heapBase + stride + bufferSize ≤ 2 ^ 64) {labels : List Label} {s : Service}
    (h : Machine.run (step cb) (new heapBase stride bufferSize) labels = some s) :
    s.channel.Indexed heapBase stride bufferSize := by
  apply (Machine.Run.of_run h).invariant fun t => t.channel.Indexed heapBase stride bufferSize
  · exact ⟨.new _ _, .new _ _⟩
  · intro t l t' ht _ hs
    cases l with
    | send memblock =>
      obtain ⟨-, ⟨c, hwrite, rfl⟩ | ⟨pos, c, hwrite, rfl⟩⟩ := send_ok hs
      · exact (Channel.writeClient_records hspace ht hwrite).1
      · exact (Channel.writeClient_records hspace ht hwrite).1
    | serveOnce =>
      obtain ⟨done, c, hprocess, rfl⟩ := serveOnce_ok hs
      rcases Channel.process_cases hprocess with ⟨-, -, rfl⟩ | ⟨-, req, -, hwrite⟩
      · exact ht
      · exact (Channel.writeServer_records hspace ht hwrite).1
    | recv pos =>
      obtain ⟨r, c, hread, rfl⟩ := recv_ok hs
      exact Channel.readClient_indexed ht hread

end Shadesmar.Rpc

namespace Shadesmar

open Library Memory PubSub Rpc

/-- `write` records a size that its block does not cover exactly when the message has
2^32 - 4 bytes or more; the halves of a channel are too small for such messages. -/
theorem recorded_size_covered {heapBase stride bufferSize : Nat} (hdvd : 8 ∣ bufferSize)
    (hlim : bufferSize < 2 ^ 33) (hspace : heapBase + stride + bufferSize ≤ 2 ^ 64) :
    (∀ fuel calls s, Machine.run (Feed.step fuel) (.new heapBase bufferSize) calls = some s →
      ∀ fuel' m t, s.topic.write fuel' m = .ok (some (true, t)) →
        (s.topic.allocator.Records m.size (t.elem (qPos s.topic.counter)) ↔
          m.size ≤ 2 ^ 32 - 5)) ∧
    ∀ cb labels s, Machine.run (Service.step cb) (.new heapBase stride bufferSize) labels = some s →
      (∀ m pos c, s.channel.writeClient m = .ok (some pos, c) →
        s.channel.allocator.req.Records m.size (c.elem (qPos pos)).req) ∧
      ∀ m pos c, s.channel.writeServer m pos = .ok (true, c) →
        s.channel.allocator.resp.Records m.size (c.elem (qPos pos)).resp := by
  have hhalf : bufferSize / 2 < 2 ^ 32 := by omega
  have hfour : 4 ∣ bufferSize / 2 := by omega
  constructor
  · intro fuel calls s h fuel' m t hwrite
    have hidx := Feed.indexed_of_run (by omega) h
    obtain ⟨-, hrecords⟩ := Topic.write_records (by omega) hidx hwrite
    obtain ⟨p, a, halloc, helem⟩ := hrecords rfl
    have hbase := hidx.heapBase_eq
    have hsize := hidx.size_eq
    exact Allocator.records_iff (by omega) (by omega) halloc (by rw [helem]) (by rw [helem])
  · intro cb labels s h
    have hidx := Service.indexed_of_run hspace h
    constructor
    · intro m pos c hwrite
      obtain ⟨-, hrecords⟩ := Channel.writeClient_records hspace hidx hwrite
      obtain ⟨hroom, p, a, halloc, helem⟩ := hrecords pos rfl
      have hbase := hidx.req.heapBase_eq
      have hsize := hidx.req.size_eq
      refine (Allocator.records_iff (by omega) (by omega) halloc (by rw [helem]) (by rw [helem])).mpr ?_
      exact hidx.req.served_le (by omega) hfour hhalf hroom halloc
    · intro m pos c hwrite
      obtain ⟨-, hrecords⟩ := Channel.writeServer_records hspace hidx hwrite
      obtain ⟨hroom, p, a, halloc, helem⟩ := hrecords rfl
      have hbase := hidx.resp.heapBase_eq
      have hsize := hidx.resp.size_eq
      refine (Allocator.records_iff (by omega) (by omega) halloc (by rw [helem]) (by rw [helem])).mpr ?_
      exact hidx.resp.served_le (by omega) hfour hhalf hroom halloc

theorem recorded_size_covered_small : ∃ t,
    (Feed.new 4096 (2 ^ 33 - 8)).topic.write 1 (.ofData [1, 2]) = .ok (some (true, t)) ∧
      ((Feed.new 4096 (2 ^ 33 - 8)).topic.allocator.Records 2 (t.elem (qPos 0)) ↔
        2 ≤ 2 ^ 32 - 5) := by
  have halloc : ((Allocator.new 4096 (2 ^ 33 - 8)).alloc (u32 2)).toOption.map Prod.fst =
      some (some 4100) := by decide +kernel
  obtain ⟨⟨-, a⟩, hresult, rfl⟩ := Option.map_eq_some_iff.mp halloc
  obtain ⟨t, ht, -⟩ := Topic.write_vacant (t := (Feed.new 4096 (2 ^ 33 - 8)).topic)
    (m := .ofData [1, 2]) (by decide) (Checked.toOption_eq_some.mp hresult) rfl
  have hall := recorded_size_covered (show 8 ∣ 2 ^ 33 - 8 by decide) (by decide)
    (show 4096 + 0 + (2 ^ 33 - 8) ≤ 2 ^ 64 by decide)
  exact ⟨t, ht, hall.1 1 [] _ rfl 1 _ t ht⟩

/-- A message of 2^32 bytes is copied into a block of one word. -/
theorem recorded_size_exceeds : ∃ m t, m.Filled ∧ m.size = 2 ^ 32 ∧
    (Feed.new 4096 (2 ^ 33 - 8)).topic.write 1 m = .ok (some (true, t)) ∧
      ¬ (Feed.new 4096 (2 ^ 33 - 8)).topic.allocator.Records m.size (t.elem (qPos 0)) := by
  have hsize : (Memblock.ofData (List.replicate (2 ^ 32) 0)).size = 2 ^ 32 := List.length_replicate
  have halloc : ((Allocator.new 4096 (2 ^ 33 - 8)).alloc (u32 (2 ^ 32))).toOption.map Prod.fst =
      some (some 4100) := by decide +kernel
  obtain ⟨⟨-, a⟩, hresult, rfl⟩ := Option.map_eq_some_iff.mp halloc
  rw [Checked.toOption_eq_some, ← hsize] at hresult
  have hroom : (Memblock.ofData (List.replicate (2 ^ 32) 0)).size ≤
      (Allocator.new 4096 (2 ^ 33 - 8)).getFreeMemory := by
    rw [hsize]
    decide
  obtain ⟨t, ht, -⟩ := Topic.write_vacant (t := (Feed.new 4096 (2 ^ 33 - 8)).topic) hroom hresult rfl
  have hidx : (Feed.new 4096 (2 ^ 33 - 8)).topic.allocator.Indexed 4096 (2 ^ 33 - 8) := .new _ _
  obtain ⟨p, a', ha', helem⟩ := (Topic.write_records (by decide) hidx ht).2 rfl
  change t.elem (qPos 0) = _ at helem
  refine ⟨_, t, Memblock.filled_ofData _, hsize, ht, ?_⟩
  rw [Allocator.records_iff (by decide) (by decide) ha' (by rw [helem]) (by rw [helem]), hsize]
  decide

end Shadesmar
