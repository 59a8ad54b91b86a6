import Shadesmar.Rpc.Service

namespace Shadesmar.Rpc

open Library Shadesmar.Memory

variable {a : Allocator} {bytes : Nat}

theorem payloadWords_eq_none_iff (h : a.Sized) (hbytes : bytes + 1 < 2 ^ 32) :
    a.payloadWords bytes 1 = none ↔ a.size ≤ bytes + 9 := by
  have hs := h.le_size
  have hlimit : sub64 a.size (2 * 4) = a.size - 8 := sub64_eq hs
  have hsum : u32 (u64 (bytes + 1)) = bytes + 1 := by
    rw [u64_eq (by omega), u32_eq hbytes]
  unfold Allocator.payloadWords
  simp only [hlimit, hsum, Nat.succ_ne_zero, if_false]
  by_cases hbig : a.size ≤ bytes + 9
  · rw [if_pos (by omega)]
    simp [hbig]
  · rw [if_neg (by omega)]
    simp [hbig]

theorem getFreeMemory_fresh (h : a.Ring []) : a.getFreeMemory = a.size := by
  have hsame := h.chain.eq_nil_iff.mpr rfl
  have hlt := h.alloc_lt
  have hw := h.sized.words_mul
  simp only [Allocator.getFreeMemory]
  rw [if_pos (Nat.le_of_eq hsame), hsame]
  omega

theorem alloc_fresh_none_iff (h : a.Ring []) (hfree : a.freeIndex = 0)
    (hbytes : bytes + 1 < 2 ^ 32) : a.alloc bytes = .ok (none, a) ↔ a.size ≤ bytes + 9 := by
  have halloc : a.allocIndex = 0 := (h.chain.eq_nil_iff.mpr rfl).symm.trans hfree
  rw [← payloadWords_eq_none_iff h.sized hbytes]
  constructor
  · intro hnone
    rcases Allocator.payloadWords_spec h.sized bytes 1 with hsize | ⟨size, hsize, hpos, hle, -⟩
    · exact hsize
    · exact absurd hnone (h.alloc_accepts hsize hpos (by omega) (by omega))
  · intro hsize
    simp [Allocator.alloc, Allocator.allocAligned, hsize]

namespace Channel

variable {c : Channel} {m : Memblock} {bs : List Block}

theorem writeServer_eq (h : c.allocator.resp.Ring bs) (hsize : c.allocator.resp.size + 1 < 2 ^ 32)
    (m : Memblock) (pos : Nat) :
    (c.writeServer m pos = .ok (false, c.signalError (qPos pos)) ∧
      (c.allocator.resp.getFreeMemory < m.size ∨
        c.allocator.resp.alloc m.size = .ok (none, c.allocator.resp))) ∨
    ∃ b a, c.writeServer m pos =
        .ok (true, (c.setRespAllocator a).setResp (qPos pos) ⟨m.size, false, b.handle⟩) ∧
      a.Ring (bs ++ [b]) ∧ a.freeIndex = c.allocator.resp.freeIndex ∧
      a.size = c.allocator.resp.size ∧ a.heapBase = c.allocator.resp.heapBase ∧
      a.Holds b m.bytes ∧
      (∀ b' ∈ bs, ∀ data, c.allocator.resp.Holds b' data → a.Holds b' data) ∧
      m.size ≤ c.allocator.resp.getFreeMemory ∧
      c.allocator.resp.alloc m.size ≠ .ok (none, c.allocator.resp) := by
  simp only [writeServer]
  split_ifs with hroom
  · exact .inl ⟨rfl, .inl hroom⟩
  · have hle := h.getFreeMemory_le
    unfold allocResp
    rw [u32_eq (by omega)]
    rcases h.alloc m.size with hnone | ⟨b, hsome, hring, hhead, hlays⟩
    · exact .inl ⟨by rw [hnone]; rfl, .inr hnone⟩
    · have hlen : m.bytes.length ≤ 4 * b.size := by
        have hroom := (hlays (by omega)).room
        have hlen : m.bytes.length ≤ m.size := List.length_take_le _ _
        omega
      have hnew : b ∈ bs ++ [b] := by simp
      refine .inr ⟨b, (c.allocator.resp.push b).store ((c.allocator.resp.push b).ptr b) m.bytes,
        ?_, hring.store hnew hlen, rfl, rfl, rfl, Allocator.Holds.store_self _ hlen, ?_,
        Nat.le_of_not_lt hroom, by simp [hsome]⟩
      · rw [hsome]
        have hhandle := Allocator.ptrToHandle_ptr ((c.allocator.resp.push b).store
          ((c.allocator.resp.push b).ptr b) m.bytes) b
        rw [← hhandle]
        rfl
      · intro b' hb' data hdata
        have hne : b' ≠ b := by
          rintro rfl
          exact h.header_ne_alloc hb' hhead
        exact (hdata.push h hb' hhead).store_other hring (by simp [hb']) hnew hne hlen

theorem writeServer_resp (h : c.allocator.resp.Ring bs)
    (hsize : c.allocator.resp.size + 1 < 2 ^ 32) {pos : Nat} {done : Bool} {c' : Channel}
    (hw : c.writeServer m pos = .ok (done, c')) :
    (c'.allocator.resp = c.allocator.resp ∧
      (c.allocator.resp.getFreeMemory < m.size ∨
        c.allocator.resp.alloc m.size = .ok (none, c.allocator.resp))) ∨
    (∃ b, c'.allocator.resp.Ring (bs ++ [b]) ∧
      c'.allocator.resp.freeIndex = c.allocator.resp.freeIndex ∧
      c'.allocator.resp.size = c.allocator.resp.size ∧
      m.size ≤ c.allocator.resp.getFreeMemory ∧
      c.allocator.resp.alloc m.size ≠ .ok (none, c.allocator.resp)) := by
  rcases writeServer_eq h hsize m pos with
    ⟨herror, hwhy⟩ | ⟨b, a, hok, hring, hfree, hsz, -, -, -, hroom, halloc⟩
  · obtain ⟨-, rfl⟩ := Prod.mk.inj (Except.ok.inj (herror.symm.trans hw))
    exact .inl ⟨rfl, hwhy⟩
  · obtain ⟨-, rfl⟩ := Prod.mk.inj (Except.ok.inj (hok.symm.trans hw))
    exact .inr ⟨b, hring, hfree, hsz, hroom, halloc⟩

end Channel

namespace Service

variable {cb : Callback} {s s' : Service} {l : Label}

structure Kept (size : Nat) (s : Service) (bs : List Block) : Prop where
  ring : s.channel.allocator.resp.Ring bs
  free : s.channel.allocator.resp.freeIndex = 0
  size : s.channel.allocator.resp.size = size

/-- The response to the request that `serve_once` finds is too long for a fresh allocator
of the same size, even if it is the empty response of a failed callback. -/
def Refused (cb : Callback) (s : Service) (l : Label) : Prop :=
  l = .serveOnce → ∀ req, s.channel.readServer s.pos = some req →
    s.channel.allocator.resp.size ≤ (cb.answer req).size + 9

theorem Kept.nil_iff {size : Nat} {bs : List Block} (h : s.Kept size bs) :
    s.channel.allocator.resp.allocIndex = s.channel.allocator.resp.freeIndex ↔ bs = [] := by
  rw [eq_comm, h.ring.chain.eq_nil_iff]

/-- Only `serve_once` touches the response allocator. -/
theorem step_resp (h : s.step cb l = some s') (hl : l ≠ .serveOnce) :
    s'.channel.allocator.resp = s.channel.allocator.resp := by
  cases l with
  | serveOnce => exact absurd rfl hl
  | send memblock =>
    obtain ⟨-, ⟨c, hwrite, rfl⟩ | ⟨pos, c, hwrite, rfl⟩⟩ := send_ok h
    · exact (Channel.writeClient_cases hwrite).2.1
    · exact (Channel.writeClient_cases hwrite).2.1
  | recv pos =>
    obtain ⟨r, c, hread, rfl⟩ := recv_ok h
    exact (Channel.readClient_cases hread).2.2.2

theorem Kept.step {size : Nat} (hlim : size + 1 < 2 ^ 32) {bs : List Block} (h : s.Kept size bs)
    (hs : s.step cb l = some s') :
    ∃ bs', s'.Kept size bs' ∧ (bs' = [] ↔ bs = [] ∧ s.Refused cb l) := by
  by_cases hl : l = .serveOnce
  · subst hl
    obtain ⟨done, c, hprocess, rfl⟩ := serveOnce_ok hs
    rcases Channel.process_cases hprocess with ⟨-, hread, rfl⟩ | ⟨-, req, hread, hwrite⟩
    · exact ⟨bs, ⟨h.ring, h.free, h.size⟩, by simp [Refused, hread]⟩
    · have hsmall : s.channel.allocator.resp.size + 1 < 2 ^ 32 := h.size ▸ hlim
      have hrefused : s.Refused cb .serveOnce ↔
          s.channel.allocator.resp.size ≤ (cb.answer req).size + 9 := by simp [Refused, hread]
      have hle := h.ring.getFreeMemory_le
      rw [hrefused]
      rcases Channel.writeServer_resp h.ring hsmall hwrite with ⟨hsame, hwhy⟩ |
          ⟨b, hring, hfree, hsize, hroom, hstored⟩
      · refine ⟨bs, ⟨hsame ▸ h.ring, hsame ▸ h.free, hsame ▸ h.size⟩, ?_⟩
        rw [iff_self_and]
        rintro rfl
        rcases hwhy with hroom | hnone
        · rw [getFreeMemory_fresh h.ring] at hroom
          omega
        · by_contra hfits
          exact hfits ((alloc_fresh_none_iff h.ring h.free (by omega)).mp hnone)
      · refine ⟨bs ++ [b], ⟨hring, hfree.trans h.free, hsize.trans h.size⟩, ?_⟩
        simp only [List.append_eq_nil_iff, List.cons_ne_nil, and_false, false_iff, not_and]
        rintro rfl hbig
        exact hstored ((alloc_fresh_none_iff h.ring h.free (by omega)).mpr hbig)
  · have hsame := step_resp hs hl
    exact ⟨bs, ⟨hsame ▸ h.ring, hsame ▸ h.free, hsame ▸ h.size⟩, by simp [Refused, hl]⟩

theorem kept_new {heapBase stride bufferSize : Nat}
    (hb : DoubleAllocator.Admits heapBase stride bufferSize) :
    (new heapBase stride bufferSize).Kept (bufferSize / 2) [] :=
  ⟨Allocator.ring_new hb.resp, rfl, rfl⟩

/-- The response allocator has no live block, in an idle channel or in another, in exactly
those runs in which no response has ever been stored. -/
theorem response_memory_returned (cb : Callback) {heapBase stride bufferSize : Nat}
    (hb : DoubleAllocator.Admits heapBase stride bufferSize) {labels : List Label} {s : Service}
    (h : Machine.run (step cb) (new heapBase stride bufferSize) labels = some s) :
    s.channel.allocator.resp.allocIndex = s.channel.allocator.resp.freeIndex ↔
      Machine.Run (step cb) (Refused cb) (new heapBase stride bufferSize) labels s := by
  have hlim := hb.half_lt
  apply Machine.Run.exact (fun s => ∃ bs, s.Kept (bufferSize / 2) bs)
    (fun s => s.channel.allocator.resp.allocIndex = s.channel.allocator.resp.freeIndex) h
    ⟨[], kept_new hb⟩ rfl
  rintro t l t' ⟨bs, ht⟩ hs
  obtain ⟨bs', ht', hiff⟩ := ht.step hlim hs
  refine ⟨⟨bs', ht'⟩, ?_⟩
  rw [ht'.nil_iff, ht.nil_iff, hiff]

theorem response_memory_returned_round : ∃ s,
    Machine.run (step .echo) (new 4096 128 (2 ^ 28))
      [.send (.ofData [1, 2]), .serveOnce, .recv 0] = some s ∧
    (s.channel.allocator.resp.allocIndex = s.channel.allocator.resp.freeIndex ↔
      Machine.Run (step .echo) (Refused .echo) (new 4096 128 (2 ^ 28))
        [.send (.ofData [1, 2]), .serveOnce, .recv 0] s) := by
  obtain ⟨s, hs⟩ := Option.isSome_iff_exists.mp (show (Machine.run (step .echo)
    (new 4096 128 (2 ^ 28)) [.send (.ofData [1, 2]), .serveOnce, .recv 0]).isSome by
      decide +kernel)
  exact ⟨s, hs, response_memory_returned .echo ⟨by decide, by decide, by decide, by decide⟩ hs⟩

def Idle (s : Service) : Prop := ∀ id < s.accepted, id ∈ s.invoked ∧ id ∈ s.received

/-- After a single round the block of the response is still live. -/
theorem response_leaks : ∃ labels s,
    Machine.run (step .echo) (new 4096 128 (2 ^ 28)) labels = some s ∧ s.Idle ∧
      s.channel.allocator.resp.allocIndex ≠ s.channel.allocator.resp.freeIndex := by
  have hrun : (Machine.run (step .echo) (new 4096 128 (2 ^ 28))
      [.send (.ofData [1, 2]), .serveOnce, .recv 0]).map (fun s => (s.accepted, s.invoked,
        s.received, s.channel.allocator.resp.allocIndex, s.channel.allocator.resp.freeIndex)) =
      some (1, [0], [0], 2, 0) := by decide +kernel
  obtain ⟨s, hs, hvals⟩ := Option.map_eq_some_iff.mp hrun
  simp only [Prod.mk.injEq] at hvals
  obtain ⟨haccepted, hinvoked, hreceived, halloc, hfree⟩ := hvals
  refine ⟨_, s, hs, ?_, by rw [halloc, hfree]; decide⟩
  intro id hid
  have hzero : id = 0 := by omega
  simp [hzero, hinvoked, hreceived]

end Service

end Shadesmar.Rpc
