import Shadesmar.Rpc.Channel

namespace Shadesmar.Rpc

open Library Shadesmar.Memory

structure Stores (half : Nat) (c : Channel) (bs : List Block)
    (use : Fin queueSize → Option Block) : Prop where
  ring : c.allocator.req.Ring bs
  size : c.allocator.req.size = half
  used : ∀ q b, use q = some b → b ∈ bs
  inj : ∀ q q' b, use q = some b → use q' = some b → q = q'

structure Keeps (c c' : Channel) (use use' : Fin queueSize → Option Block) (q : Fin queueSize) :
    Prop where
  req : (c'.elem q).req = (c.elem q).req
  used : use' q = use q
  base : c'.allocator.req.heapBase = c.allocator.req.heapBase
  holds : ∀ b, use q = some b → ∀ data, c.allocator.req.Holds b data →
    c'.allocator.req.Holds b data

def Stored (c : Channel) (use : Fin queueSize → Option Block) (q : Fin queueSize)
    (data : List UInt8) : Prop :=
  ∃ b, use q = some b ∧ (c.elem q).req = ⟨data.length, false, b.handle⟩ ∧
    c.allocator.req.Holds b data

theorem Stored.keeps {c c' : Channel} {use use' : Fin queueSize → Option Block}
    {q : Fin queueSize} {data : List UInt8} (h : Stored c use q data)
    (hk : Keeps c c' use use' q) : Stored c' use' q data := by
  obtain ⟨b, hb, helem, hholds⟩ := h
  exact ⟨b, hk.used.trans hb, hk.req.trans helem, hk.holds b hb _ hholds⟩

theorem Keeps.trans {c c' c'' : Channel} {use use' use'' : Fin queueSize → Option Block}
    {q : Fin queueSize} (h : Keeps c c' use use' q) (h' : Keeps c' c'' use' use'' q) :
    Keeps c c'' use use'' q := by
  refine ⟨h'.req.trans h.req, h'.used.trans h.used, h'.base.trans h.base, ?_⟩
  intro b hb data hdata
  exact h'.holds b (h.used.trans hb) data (h.holds b hb data hdata)

theorem Stored.readServer {c : Channel} {use : Fin queueSize → Option Block} {pos : Nat}
    {data : List UInt8} (h : Stored c use (qPos pos) data) :
    c.readServer pos = some (.ofData data) := by
  obtain ⟨b, -, helem, hholds⟩ := h
  simp only [Channel.readServer, helem, Bool.false_eq_true, if_false,
    Allocator.handleToPtr_handle, hholds.load]
  rfl

namespace Stores

variable {half : Nat} {c : Channel} {bs : List Block} {use : Fin queueSize → Option Block}
variable {q : Fin queueSize} {b : Block} {data : List UInt8}

theorem setReq (h : Stores half c bs use) (q : Fin queueSize) (e : Element) :
    Stores half (c.setReq q e) bs use := ⟨h.ring, h.size, h.used, h.inj⟩

theorem keeps_setReq {q' : Fin queueSize} (hq : q' ≠ q) (e : Element) :
    Keeps c (c.setReq q e) use use q' :=
  ⟨by rw [Channel.elem_setReq_ne _ _ _ hq], rfl, rfl, fun _ _ _ hb => hb⟩

theorem ne_of_use (h : Stores half c bs use) {q' : Fin queueSize} {b' : Block}
    (hb : use q = some b) (hb' : use q' = some b') (hq : q' ≠ q) : b' ≠ b := by
  rintro rfl
  exact hq (h.inj q' q b' hb' hb)

theorem alloc (h : Stores half c bs use) (hhalf : half + 1 < 2 ^ 32) {size : Nat}
    (hsize : size ≤ half) (q : Fin queueSize) :
    c.allocReq size = .ok (none, c) ∨
    ∃ b c', c.allocReq size = .ok (some (c'.allocator.req.ptr b), c') ∧ size ≤ 4 * b.size ∧
      c'.queue = c.queue ∧ c'.allocator.resp = c.allocator.resp ∧
      Stores half c' (bs ++ [b]) (Function.update use q (some b)) ∧
      ∀ q', q' ≠ q → Keeps c c' use (Function.update use q (some b)) q' := by
  unfold Channel.allocReq
  rw [u32_eq (by omega)]
  rcases h.ring.alloc size with hnone | ⟨b, hsome, hring, hhead, hlays⟩
  · rw [hnone]
    exact .inl rfl
  · rw [hsome]
    have hnew : b ∉ bs := by
      intro hmem
      exact h.ring.header_ne_alloc hmem hhead
    refine .inr ⟨b, c.setReqAllocator (c.allocator.req.push b), rfl,
      Nat.le_of_lt (hlays (by omega)).room, rfl, rfl, ⟨hring, h.size, ?_, ?_⟩, ?_⟩
    · intro q' b' hb'
      by_cases hq : q' = q
      · subst hq
        obtain rfl : b = b' := by simpa using hb'
        simp
      · rw [Function.update_of_ne hq] at hb'
        exact List.mem_append_left _ (h.used q' b' hb')
    · intro q₁ q₂ b' h₁ h₂
      have hfresh : ∀ q' b', q' ≠ q → use q' = some b' → b' ≠ b := by
        rintro q' b' - hb' rfl
        exact hnew (h.used q' b' hb')
      have hinj := h.inj q₁ q₂ b'
      grind [Function.update_apply]
    · intro q' hq
      refine ⟨rfl, Function.update_of_ne hq .., rfl, fun b' hb' data hdata => ?_⟩
      exact hdata.push h.ring (h.used q' b' hb') hhead

theorem store (h : Stores half c bs use) (hb : use q = some b) (hlen : data.length ≤ 4 * b.size) :
    Stores half (c.storeReq (c.allocator.req.ptr b) data) bs use ∧
    (c.storeReq (c.allocator.req.ptr b) data).allocator.req.Holds b data ∧
    ∀ q', q' ≠ q → Keeps c (c.storeReq (c.allocator.req.ptr b) data) use use q' := by
  have hmem := h.used q b hb
  refine ⟨⟨h.ring.store hmem hlen, h.size, h.used, h.inj⟩, Allocator.Holds.store_self _ hlen, ?_⟩
  intro q' hq
  refine ⟨rfl, rfl, rfl, fun b' hb' data' hdata => ?_⟩
  exact hdata.store_other h.ring (h.used q' b' hb') hmem (h.ne_of_use hb hb' hq) hlen

theorem free (h : Stores half c bs use) (hb : use q = some b) :
    ∃ done a bs', c.allocator.req.free (some (c.allocator.req.ptr b)) = .ok (done, a) ∧
      a.Ring bs' ∧ a.size = c.allocator.req.size ∧ a.heapBase = c.allocator.req.heapBase ∧
      (∀ b' ∈ bs, b' ≠ b → b' ∈ bs') ∧
      ∀ b' data, c.allocator.req.Holds b' data → a.Holds b' data := by
  have hmem := h.used q b hb
  have hring := h.ring
  cases bs with
  | nil => simp at hmem
  | cons b₀ rest =>
    by_cases hhead : b = b₀
    · subst hhead
      refine ⟨_, _, rest, hring.free_head, hring.pop, rfl, rfl, ?_, fun b' data hb' => hb'.pop b⟩
      intro b' hb' hne
      exact (List.mem_cons.mp hb').resolve_left hne
    · have htail : b ∈ rest := (List.mem_cons.mp hmem).resolve_left hhead
      exact ⟨_, _, b₀ :: rest, hring.free_tail htail, hring, rfl, rfl, fun b' hb' _ => hb',
        fun b' data hb' => hb'⟩

theorem cleanUp_eq {b₀ : Block} (h : Stores half c (b₀ :: bs) use) (hr : Stored c use q data)
    (hb : use q = some b) :
    c.cleanUp q = .ok ((c.setReqAllocator (if data ≠ [] ∧ b = b₀ then c.allocator.req.pop b₀
      else c.allocator.req)).resetElem q) := by
  obtain ⟨b', hb', helem, -⟩ := hr
  obtain rfl := Option.some.inj (hb'.symm.trans hb)
  simp only [Channel.cleanUp, helem, ne_eq, List.length_eq_zero_iff, Channel.freeReq,
    Allocator.handleToPtr_handle]
  by_cases hzero : data = []
  · rw [if_neg (by simpa using hzero), if_neg (fun hall => hall.1 hzero)]
    rfl
  · rw [if_pos hzero]
    by_cases hhead : b' = b₀
    · subst hhead
      rw [h.ring.free_head, if_pos ⟨hzero, rfl⟩]
      rfl
    · have htail : b' ∈ bs := (List.mem_cons.mp (h.used q b' hb')).resolve_left hhead
      rw [h.ring.free_tail htail, if_neg (fun hall => hhead hall.2)]
      rfl

theorem cleanUp (h : Stores half c bs use) (hr : Stored c use q data) :
    ∃ a bs', c.cleanUp q = .ok ((c.setReqAllocator a).resetElem q) ∧
      Stores half ((c.setReqAllocator a).resetElem q) bs'
        (Function.update use q none) ∧
      ∀ q', q' ≠ q → Keeps c ((c.setReqAllocator a).resetElem q) use
        (Function.update use q none) q' := by
  obtain ⟨b, hb, helem, -⟩ := hr
  obtain ⟨done, a, bs', hfree, hring, hsize, hbase, hlive, hholds⟩ := h.free hb
  have hinj : ∀ q₁ q₂ b', Function.update use q none q₁ = some b' →
      Function.update use q none q₂ = some b' → q₁ = q₂ := by
    intro q₁ q₂ b' h₁ h₂
    have hinj := h.inj q₁ q₂ b'
    grind [Function.update_apply]
  have hother : ∀ q' b', Function.update use q none q' = some b' →
      q' ≠ q ∧ use q' = some b' := by
    intro q' b' hb'
    grind [Function.update_apply]
  unfold Channel.cleanUp
  rw [helem]
  by_cases hzero : data.length = 0
  · refine ⟨c.allocator.req, bs, if_neg (by simpa using hzero), ⟨h.ring, h.size, ?_, hinj⟩, ?_⟩
    · intro q' b' hb'
      exact h.used q' b' (hother q' b' hb').2
    · intro q' hq
      refine ⟨?_, Function.update_of_ne hq .., rfl, fun _ _ _ hb' => hb'⟩
      simp [Channel.resetElem, Channel.elem_setReq_ne, hq]
  · refine ⟨a, bs', ?_, ⟨hring, hsize.trans h.size, ?_, hinj⟩, ?_⟩
    · simp [hzero, Channel.freeReq, hfree, bind, Except.bind, pure, Except.pure]
    · intro q' b' hb'
      obtain ⟨hq, hold⟩ := hother q' b' hb'
      exact hlive b' (h.used q' b' hold) (h.ne_of_use hb hold hq)
    · intro q' hq
      refine ⟨?_, Function.update_of_ne hq .., hbase, fun b' _ data hb' => hholds b' data hb'⟩
      simp [Channel.resetElem, Channel.elem_setReq_ne, hq]

theorem writeClient (h : Stores half c bs use) (hhalf : half + 1 < 2 ^ 32) {m : Memblock}
    (hm : m.Filled)
    (hfresh : (c.elem (qPos c.counter)).req.empty = true →
      (c.elem (qPos c.counter)).req = .fresh) :
    (∃ c', c.writeClient m = .ok (none, c') ∧ c'.elem = c.elem ∧ c'.allocator = c.allocator) ∨
    ∃ b c', c.writeClient m = .ok (some c.counter, c') ∧
      (c.elem (qPos c.counter)).req.empty = true ∧
      (∀ q, (c'.elem q).resp = (c.elem q).resp) ∧ c'.allocator.resp = c.allocator.resp ∧
      Stores half c' (bs ++ [b]) (Function.update use (qPos c.counter) (some b)) ∧
      Stored c' (Function.update use (qPos c.counter) (some b)) (qPos c.counter) m.bytes ∧
      ∀ q, q ≠ qPos c.counter →
        Keeps c c' use (Function.update use (qPos c.counter) (some b)) q := by
  have hsize : m.size ≤ c.allocator.req.getFreeMemory → m.size ≤ half := by
    have hle := h.ring.getFreeMemory_le
    have hhalf := h.size
    omega
  unfold Channel.writeClient
  split_ifs with hroom
  · exact .inl ⟨c, rfl, rfl, rfl⟩
  · generalize hq : qPos c.counter = q at *
    simp only [hq, Channel.accept]
    by_cases hempty : (c.elem q).req.empty = true
    · rw [if_pos hempty]
      dsimp only
      -- the channel with the slot taken
      have htake : Stores half (c.incCounter.setReq q { (c.elem q).req with empty := false })
          bs use := ⟨h.ring, h.size, h.used, h.inj⟩
      have hkeep : ∀ q', q' ≠ q → Keeps c
          (c.incCounter.setReq q { (c.elem q).req with empty := false }) use use q' := by
        intro q' hq'
        refine ⟨?_, rfl, rfl, fun _ _ _ hb => hb⟩
        rw [Channel.elem_setReq_ne _ _ _ hq', Channel.elem_incCounter]
      have hresp : ∀ q', ((c.incCounter.setReq q { (c.elem q).req with empty := false }).elem
          q').resp = (c.elem q').resp := by simp
      have hflag : ((c.incCounter.setReq q { (c.elem q).req with empty := false }).elem
          q).req.empty = false := by simp
      have hreset : ((c.incCounter.setReq q { (c.elem q).req with empty := false }).resetReq
          q).elem = c.elem := by
        funext q'
        by_cases hq' : q' = q
        · subst hq'
          have hreq := hfresh hempty
          simp only [Channel.resetReq, Channel.setReqSize, Channel.setReqHandle,
            Channel.setReqEmpty, Channel.elem_setReq_self, Channel.elem_incCounter]
          change ChannelElem.mk .fresh (c.elem q').resp = c.elem q'
          rw [← hreq]
        · simp [Channel.resetReq, Channel.setReqSize, Channel.setReqHandle,
            Channel.setReqEmpty, Channel.elem_setReq_ne, hq']
      have halloc : (c.incCounter.setReq q { (c.elem q).req with empty := false }).allocator =
          c.allocator := rfl
      generalize c.incCounter.setReq q { (c.elem q).req with empty := false } = c₁ at *
      rcases htake.alloc hhalf (hsize (Nat.le_of_not_lt hroom)) q with
        hnone | ⟨b, c₂, hsome, hbig, hqueue, hallocResp, hstores, hkeep'⟩
      · exact .inl ⟨c₁.resetReq q, by rw [hnone]; rfl, hreset, halloc⟩
      · have hused : Function.update use q (some b) q = some b := Function.update_self ..
        have hlen : m.bytes.length ≤ 4 * b.size := Nat.le_trans (Nat.le_of_eq hm) hbig
        obtain ⟨hstores', hholds, hkeep''⟩ := hstores.store hused hlen
        have helem : ∀ q', c₂.elem q' = c₁.elem q' := fun q' => by
          rw [Channel.elem, hqueue, Channel.elem]
        refine .inr ⟨b, _, by rw [hsome]; rfl, hempty, ?_, ?_, (hstores'.setReq ..).setReq ..,
          ⟨b, hused, ?_, hholds⟩, ?_⟩
        · intro q'
          rw [← hresp q', ← helem q']
          simp [Channel.setReqHandle, Channel.storeReq]
        · exact hallocResp.trans (congrArg _ halloc)
        · simp only [Channel.setReqHandle, Channel.storeReq, Channel.elem_setReq_self,
            Channel.elem_setReqAllocator, helem, hflag, Element.mk.injEq, true_and]
          exact ⟨hm.symm, Allocator.ptrToHandle_ptr ..⟩
        · intro q' hq'
          exact (((hkeep q' hq').trans (hkeep' q' hq')).trans (hkeep'' q' hq')).trans
            ((keeps_setReq hq' _).trans (keeps_setReq hq' _))
    · exact .inl ⟨c, by simp [hempty], rfl, rfl⟩

end Stores

end Shadesmar.Rpc
