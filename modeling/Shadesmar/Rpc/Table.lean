import Shadesmar.Memory.Arena
import Shadesmar.Rpc.Mapping
import Shadesmar.Rpc.Sending

namespace Shadesmar.Rpc

open Library Library.Refinement Shadesmar.Memory

/-- A request that has been accepted and not yet received; its answer is `none` when the server
could not store one. -/
structure Ticket where
  number : Nat
  data : List UInt8
  block : Block
  answer : Option (Option (List UInt8))

structure Table where
  requests : Arena
  responses : Arena
  counter : Nat
  pos : Nat
  accepted : Nat
  slots : Fin queueSize → Option Ticket

namespace Table

def new (heapBase stride bufferSize : Nat) : Table where
  requests := .new heapBase (bufferSize / 2 / 4)
  responses := .new (heapBase + stride + bufferSize / 2) (bufferSize / 2 / 4)
  counter := 0
  pos := 0
  accepted := 0
  slots := fun _ => none

def setSlot (t : Table) (q : Fin queueSize) (k : Option Ticket) : Table :=
  { t with slots := Function.update t.slots q k }

/-- The request heap without the block of a request, which is returned if it is the oldest; the
block of an empty request stays. -/
def without (t : Table) (k : Ticket) : Arena :=
  if k.data ≠ [] ∧ t.requests.blocks.head? = some k.block then t.requests.popFirst
  else t.requests

def reply (cb : Callback) (t : Table) : Service.Label → Option (Service.Outcome × Table)
  | .send m =>
    if m.Filled then
      let q := qPos t.counter
      if t.requests.free < m.size ∨ (t.slots q).isSome then some (.sent none, t)
      else
        match t.requests.room m.size with
        | none => some (.sent none, { t with counter := u32 (t.counter + 1) })
        | some b =>
          some (.sent (some t.counter),
            { t.setSlot q (some ⟨t.accepted, m.bytes, b, none⟩) with
              requests := t.requests.push b
              counter := u32 (t.counter + 1)
              accepted := t.accepted + 1 })
    else none
  | .serveOnce =>
    let q := qPos t.pos
    match t.slots q with
    | none => some (.served none false, { t with pos := u32 (t.pos + 1) })
    | some k =>
      let answer := cb.answer (.ofData k.data)
      match t.responses.room answer.size with
      | none =>
        some (.served (some (k.number, .ofData k.data)) false,
          { t.setSlot q (some { k with answer := some none }) with pos := u32 (t.pos + 1) })
      | some b =>
        some (.served (some (k.number, .ofData k.data)) true,
          { t.setSlot q (some { k with answer := some (some answer.bytes) }) with
            responses := t.responses.push b
            pos := u32 (t.pos + 1) })
  | .recv pos =>
    let q := qPos pos
    match t.slots q with
    | none => none
    | some k =>
      match k.answer with
      | none => none
      | some answer =>
        some (.received (answer.map .ofData), { t.setSlot q none with requests := t.without k })

def uses (t : Table) (q : Fin queueSize) : Option Block := (t.slots q).map Ticket.block

theorem uses_setSlot (t : Table) (q : Fin queueSize) (k : Option Ticket) :
    (t.setSlot q k).uses = Function.update t.uses q (k.map Ticket.block) := by
  funext q'
  by_cases hq : q' = q
  · subst hq
    simp [uses, setSlot]
  · simp [uses, setSlot, hq]

end Table

def Answered (resp : Element) (a : Allocator) (rs : List Block) : Option (Option (List UInt8)) → Prop
  | none => resp = .fresh
  | some none => resp = { Element.fresh with empty := false }
  | some (some data) => ∃ b ∈ rs, b.payload ≠ 0 ∧ resp = ⟨data.length, false, b.handle⟩ ∧
      a.Holds b data

def Seats (s : Service) (rs : List Block) (uses : Fin queueSize → Option Block)
    (q : Fin queueSize) : Option Ticket → Prop
  | none => s.channel.elem q = .fresh
  | some k => Stored s.channel uses q k.data ∧
      Answered (s.channel.elem q).resp s.channel.allocator.resp rs k.answer ∧ s.owner q = k.number

structure Table.Reflects (t : Table) (s : Service) (bs rs : List Block) : Prop where
  stores : Stores s.channel.allocator.req.size s.channel bs t.uses
  requests : t.requests.Outlines s.channel.allocator.req bs
  responses : t.responses.Outlines s.channel.allocator.resp rs
  req_small : s.channel.allocator.req.size + 1 < 2 ^ 32
  resp_small : s.channel.allocator.resp.size + 1 < 2 ^ 32
  never_freed : s.channel.allocator.resp.freeIndex = 0
  counter : t.counter = s.channel.counter
  pos : t.pos = s.pos
  accepted : t.accepted = s.accepted
  slots : ∀ q, Seats s rs t.uses q (t.slots q)

namespace Channel

variable {c : Channel} {m : Memblock} {b : Block}

theorem writeClient_full
    (h : c.allocator.req.getFreeMemory < m.size ∨ c.vacant (qPos c.counter) = false) :
    c.writeClient m = .ok (none, c) := by
  unfold writeClient
  split_ifs with hroom
  · rfl
  · rcases accept_cases c (qPos c.counter) with ⟨-, hnone⟩ | ⟨hvacant, -⟩
    · simp only [hnone]
    · rw [hvacant] at h
      exact absurd (h.resolve_right (by decide)) hroom

theorem writeClient_refused (hroom : m.size ≤ c.allocator.req.getFreeMemory)
    (hfresh : (c.elem (qPos c.counter)).req = .fresh)
    (halloc : c.allocator.req.alloc (u32 m.size) = .ok (none, c.allocator.req)) :
    c.writeClient m = .ok (none, c.incCounter) := by
  have haccept : c.accept (qPos c.counter) = some (c.incCounter.setReq (qPos c.counter)
      { (c.elem (qPos c.counter)).req with empty := false }) := if_pos (by rw [hfresh]; rfl)
  have hback : (c.incCounter.setReq (qPos c.counter) .fresh) = c.incCounter := by
    rw [← hfresh]
    exact setReq_eq_self c.incCounter (qPos c.counter)
  simp only [writeClient, if_neg (Nat.not_lt_of_le hroom), haccept, allocReq, allocator_setReq,
    allocator_incCounter, halloc]
  exact congrArg (fun c' => Except.ok (none, c')) ((resetReq_setReq c.incCounter _ _).trans hback)

theorem writeClient_stored (hroom : m.size ≤ c.allocator.req.getFreeMemory)
    (hfresh : (c.elem (qPos c.counter)).req = .fresh)
    (halloc : c.allocator.req.alloc (u32 m.size) =
      .ok (some (c.allocator.req.ptr b), c.allocator.req.push b)) :
    c.writeClient m = .ok (some c.counter, (c.incCounter.setReqAllocator
      ((c.allocator.req.push b).store (c.allocator.req.ptr b) m.bytes)).setReq (qPos c.counter)
        ⟨m.size, false, b.handle⟩) := by
  have haccept : c.accept (qPos c.counter) = some (c.incCounter.setReq (qPos c.counter)
      { (c.elem (qPos c.counter)).req with empty := false }) := if_pos (by rw [hfresh]; rfl)
  have hhandle := Allocator.ptrToHandle_ptr
    ((c.allocator.req.push b).store (c.allocator.req.ptr b) m.bytes) b
  simp only [writeClient, if_neg (Nat.not_lt_of_le hroom), haccept, allocReq, allocator_setReq,
    allocator_incCounter, halloc]
  refine congrArg (fun c' => Except.ok (some c.counter, c')) ?_
  simp only [setReqAllocator_setReq, storeReq, setReqHandle, setReqSize, elem_setReq_self,
    setReq_setReq, ← hhandle]
  rfl

theorem writeServer_refused {pos : Nat} (h : c.allocator.resp.getFreeMemory < m.size ∨
      c.allocator.resp.alloc (u32 m.size) = .ok (none, c.allocator.resp)) :
    c.writeServer m pos = .ok (false, c.setResp (qPos pos) { Element.fresh with empty := false }) := by
  unfold writeServer
  split_ifs with hroom
  · rfl
  · rw [allocResp, h.resolve_left hroom]
    rfl

theorem writeServer_stored {pos : Nat} (hroom : m.size ≤ c.allocator.resp.getFreeMemory)
    (halloc : c.allocator.resp.alloc (u32 m.size) =
      .ok (some (c.allocator.resp.ptr b), c.allocator.resp.push b)) :
    c.writeServer m pos = .ok (true, (c.setRespAllocator
      ((c.allocator.resp.push b).store (c.allocator.resp.ptr b) m.bytes)).setResp (qPos pos)
        ⟨m.size, false, b.handle⟩) := by
  have hhandle := Allocator.ptrToHandle_ptr
    ((c.allocator.resp.push b).store (c.allocator.resp.ptr b) m.bytes) b
  rw [writeServer, if_neg (Nat.not_lt_of_le hroom), allocResp, halloc, ← hhandle]
  rfl

end Channel

section Blocks

variable {half : Nat} {c c' : Channel} {bs : List Block} {use : Fin queueSize → Option Block}
variable {q : Fin queueSize} {b : Block} {data : List UInt8}

theorem Stores.lay (h : Stores half c bs use) (hring : (c.allocator.req.push b).Ring (bs ++ [b]))
    (hhead : b.header = c.allocator.req.allocIndex) (hlen : data.length ≤ 4 * b.size)
    (halloc : c'.allocator.req = (c.allocator.req.push b).store (c.allocator.req.ptr b) data)
    (helem : ∀ q', q' ≠ q → (c'.elem q').req = (c.elem q').req) :
    Stores half c' (bs ++ [b]) (Function.update use q (some b)) ∧
    c'.allocator.req.Holds b data ∧
    ∀ q', q' ≠ q → Keeps c c' use (Function.update use q (some b)) q' := by
  have hnew : b ∉ bs := fun hmem => h.ring.header_ne_alloc hmem hhead
  have hmem : b ∈ bs ++ [b] := List.mem_append_right bs (List.mem_singleton_self b)
  refine ⟨⟨halloc ▸ hring.store hmem hlen, ?_, ?_, ?_⟩, ?_, ?_⟩
  · rw [halloc]
    exact h.size
  · intro q' b' hb'
    by_cases hq : q' = q
    · subst hq
      obtain rfl : b = b' := by simpa using hb'
      exact hmem
    · rw [Function.update_of_ne hq] at hb'
      exact List.mem_append_left _ (h.used q' b' hb')
  · intro q₁ q₂ b' h₁ h₂
    have hinj := h.inj q₁ q₂ b'
    have hused := h.used
    grind [Function.update_apply]
  · rw [halloc]
    exact Allocator.Holds.store_self (c.allocator.req.push b) hlen
  · intro q' hq
    refine ⟨helem q' hq, Function.update_of_ne hq .., by rw [halloc]; rfl, ?_⟩
    intro b' hb' data' hdata
    have hold := h.used q' b' hb'
    have hne : b' ≠ b := fun heq => hnew (heq ▸ hold)
    rw [halloc]
    exact (hdata.push h.ring hold hhead).store_other hring (List.mem_append_left _ hold) hmem hne hlen

theorem Stores.vacate (h : Stores half c bs use) {bs' : List Block}
    (hring : c'.allocator.req.Ring bs') (hsize : c'.allocator.req.size = c.allocator.req.size)
    (hlive : ∀ q' b', q' ≠ q → use q' = some b' → b' ∈ bs') :
    Stores half c' bs' (Function.update use q none) := by
  have hother : ∀ q' b', Function.update use q none q' = some b' → q' ≠ q ∧ use q' = some b' := by
    intro q' b' hb'
    grind [Function.update_apply]
  refine ⟨hring, hsize.trans h.size, ?_, ?_⟩
  · intro q' b' hb'
    exact hlive q' b' (hother q' b' hb').1 (hother q' b' hb').2
  · intro q₁ q₂ b' h₁ h₂
    exact h.inj q₁ q₂ b' (hother q₁ b' h₁).2 (hother q₂ b' h₂).2

end Blocks

section Seats

variable {s s' : Service} {rs rs' : List Block} {uses uses' : Fin queueSize → Option Block}
variable {q : Fin queueSize} {k : Option Ticket}

theorem Answered.keeps {resp : Element} {a a' : Allocator} {answer : Option (Option (List UInt8))}
    (h : Answered resp a rs answer) (hlive : ∀ b ∈ rs, b ∈ rs')
    (hholds : ∀ b ∈ rs, ∀ data, a.Holds b data → a'.Holds b data) :
    Answered resp a' rs' answer := by
  match answer with
  | none => exact h
  | some none => exact h
  | some (some data) =>
    obtain ⟨b, hb, hpayload, helem, hdata⟩ := h
    exact ⟨b, hlive b hb, hpayload, helem, hholds b hb data hdata⟩

theorem Seats.vacant (h : Seats s rs uses q k) : s.channel.vacant q = !k.isSome := by
  cases k with
  | none =>
    have h : s.channel.elem q = .fresh := h
    simp [Channel.vacant, h, ChannelElem.fresh, Element.fresh]
  | some k =>
    obtain ⟨⟨b, -, helem, -⟩, -⟩ := h
    simp [Channel.vacant, helem]

theorem Seats.keeps (h : Seats s rs uses q k) (hk : Keeps s.channel s'.channel uses uses' q)
    (hresp : (s'.channel.elem q).resp = (s.channel.elem q).resp) (howner : s'.owner q = s.owner q)
    (hlive : ∀ b ∈ rs, b ∈ rs') (hholds : ∀ b ∈ rs, ∀ data,
      s.channel.allocator.resp.Holds b data → s'.channel.allocator.resp.Holds b data) :
    Seats s' rs' uses' q k := by
  cases k with
  | none =>
    have h : s.channel.elem q = .fresh := h
    change ChannelElem.mk (s'.channel.elem q).req (s'.channel.elem q).resp = .fresh
    rw [hk.req, hresp, h]
  | some k => exact ⟨h.1.keeps hk, hresp ▸ h.2.1.keeps hlive hholds, howner.trans h.2.2⟩

end Seats

namespace Table.Reflects

variable {cb : Callback} {t : Table} {s : Service} {bs rs : List Block}

theorem store (h : t.Reflects s bs rs) {m : Memblock} {b : Block} (hm : m.Filled)
    (hresp : (s.channel.elem (qPos s.channel.counter)).resp = .fresh)
    (hring : (s.channel.allocator.req.push b).Ring (bs ++ [b]))
    (hhead : b.header = s.channel.allocator.req.allocIndex) (hlen : m.size < 4 * b.size) :
    Reflects
      { t.setSlot (qPos s.channel.counter) (some ⟨t.accepted, m.bytes, b, none⟩) with
        requests := t.requests.push b
        counter := u32 (s.channel.counter + 1)
        accepted := t.accepted + 1 }
      { s with
        channel := (s.channel.incCounter.setReqAllocator ((s.channel.allocator.req.push b).store
          (s.channel.allocator.req.ptr b) m.bytes)).setReq (qPos s.channel.counter)
            ⟨m.size, false, b.handle⟩
        owner := Function.update s.owner (qPos s.channel.counter) s.accepted
        accepted := s.accepted + 1 } (bs ++ [b]) rs := by
  have hbytes : m.bytes.length = m.size := hm
  have hlen : m.bytes.length ≤ 4 * b.size := by omega
  have huses := t.uses_setSlot (qPos s.channel.counter) (some ⟨t.accepted, m.bytes, b, none⟩)
  generalize hc : (s.channel.incCounter.setReqAllocator ((s.channel.allocator.req.push b).store
    (s.channel.allocator.req.ptr b) m.bytes)).setReq (qPos s.channel.counter)
      ⟨m.size, false, b.handle⟩ = c
  have halloc : c.allocator.req = (s.channel.allocator.req.push b).store
      (s.channel.allocator.req.ptr b) m.bytes := by
    rw [← hc]
    rfl
  have hother : ∀ q, q ≠ qPos s.channel.counter → c.elem q = s.channel.elem q := by
    intro q hq
    rw [← hc, Channel.elem_setReq_ne _ _ _ hq]
    rfl
  obtain ⟨hstores, hholds, hkeeps⟩ := h.stores.lay hring hhead hlen halloc
    fun q hq => congrArg _ (hother q hq)
  have hallocResp : c.allocator.resp = s.channel.allocator.resp := by
    rw [← hc]
    rfl
  have hcounter : c.counter = u32 (s.channel.counter + 1) := by
    rw [← hc]
    rfl
  refine ⟨?_, ?_, hallocResp ▸ h.responses, ?_, hallocResp ▸ h.resp_small,
    hallocResp ▸ h.never_freed, hcounter.symm, h.pos, congrArg (· + 1) h.accepted, ?_⟩
  · change Stores c.allocator.req.size c (bs ++ [b]) (Table.uses (t.setSlot _ _))
    rw [huses, halloc]
    exact hstores
  · change Arena.Outlines _ c.allocator.req (bs ++ [b])
    rw [halloc]
    exact (h.requests.push hring).store (List.mem_append_right bs (List.mem_singleton_self b)) hlen
  · change c.allocator.req.size + 1 < 2 ^ 32
    rw [halloc]
    exact h.req_small
  · intro q
    change Seats _ rs (Table.uses (t.setSlot _ _)) q (Function.update t.slots _ _ q)
    rw [huses]
    by_cases hq : q = qPos s.channel.counter
    · subst hq
      have helem : c.elem (qPos s.channel.counter) = ⟨⟨m.size, false, b.handle⟩, .fresh⟩ := by
        rw [← hc, Channel.elem_setReq_self, ← hresp]
        rfl
      rw [Function.update_self]
      refine ⟨⟨b, Function.update_self .., ?_, hholds⟩, ?_, ?_⟩
      · change (c.elem _).req = _
        rw [helem, hbytes]
      · change Answered (c.elem _).resp _ _ none
        rw [helem]
        rfl
      · change Function.update s.owner _ _ _ = _
        rw [Function.update_self, h.accepted]
    · rw [Function.update_of_ne hq]
      refine (h.slots q).keeps (hkeeps q hq) (congrArg _ (hother q hq)) ?_ (fun _ hb => hb) ?_
      · exact Function.update_of_ne hq ..
      · intro b' _ data hdata
        change c.allocator.resp.Holds b' data
        rw [hallocResp]
        exact hdata

theorem send (h : t.Reflects s bs rs) (m : Memblock) :
    Option.Rel (Agree fun s t => ∃ bs rs, t.Reflects s bs rs) (s.reply cb (.send m))
      (t.reply cb (.send m)) := by
  have hfree : t.requests.free = s.channel.allocator.req.getFreeMemory := h.requests.free
  have hslot := h.slots (qPos s.channel.counter)
  have hvacant := hslot.vacant
  simp only [Service.reply, Service.outcome, Service.step, Table.reply, h.counter, hfree]
  by_cases hm : m.Filled
  · rw [if_pos hm]
    by_cases hstop : s.channel.allocator.req.getFreeMemory < m.size ∨
        (t.slots (qPos s.channel.counter)).isSome = true
    · have hfull : s.channel.writeClient m = .ok (none, s.channel) :=
        Channel.writeClient_full (hstop.imp_right fun hsome => by rw [hvacant, hsome]; rfl)
      rw [hfull, if_pos hm, if_pos hstop]
      exact .some ⟨rfl, bs, rs, h⟩
    · rw [if_pos hm, if_neg hstop]
      rw [not_or] at hstop
      obtain ⟨hroom, hnone⟩ := hstop
      have hroom := Nat.le_of_not_lt hroom
      have hnone : t.slots (qPos s.channel.counter) = none := by simpa using hnone
      rw [hnone] at hslot
      have hfresh : s.channel.elem (qPos s.channel.counter) = .fresh := hslot
      have hreq : (s.channel.elem (qPos s.channel.counter)).req = .fresh := by
        rw [hfresh]
        rfl
      rcases h.requests.alloc h.req_small hroom with
        ⟨hgrant, halloc⟩ | ⟨b, hgrant, halloc, hring, hhead, hlen⟩
      · rw [hgrant, Channel.writeClient_refused hroom hreq halloc]
        refine .some ⟨rfl, bs, rs, ⟨h.stores.ring, h.stores.size, h.stores.used, h.stores.inj⟩,
          h.requests, h.responses, h.req_small, h.resp_small, h.never_freed, rfl, h.pos, h.accepted,
          h.slots⟩
      · rw [hgrant, Channel.writeClient_stored hroom hreq halloc]
        refine .some ⟨rfl, bs ++ [b], rs, h.store hm ?_ hring hhead hlen⟩
        rw [hfresh]
        rfl
  · rw [if_neg hm, if_neg hm]
    cases s.channel.writeClient m with
    | error e => exact .none
    | ok r => exact .none

theorem respond (h : t.Reflects s bs rs) {q : Fin queueSize} {k : Ticket} (hk : t.slots q = some k)
    {r : Arena} {a : Allocator} {rs' : List Block} {e : Element}
    {answer : Option (Option (List UInt8))} {invoked : List Nat} (hout : r.Outlines a rs')
    (hsize : a.size = s.channel.allocator.resp.size)
    (hfree : a.freeIndex = s.channel.allocator.resp.freeIndex) (hlive : ∀ b ∈ rs, b ∈ rs')
    (hholds : ∀ b ∈ rs, ∀ data, s.channel.allocator.resp.Holds b data → a.Holds b data)
    (hanswer : Answered e a rs' answer) :
    Reflects
      { t.setSlot q (some { k with answer }) with
        responses := r
        pos := u32 (s.pos + 1) }
      { s with
        channel := (s.channel.setRespAllocator a).setResp q e
        pos := u32 (s.pos + 1)
        invoked } bs rs' := by
  have huses : (t.setSlot q (some { k with answer })).uses = t.uses := by
    rw [t.uses_setSlot, Option.map_some]
    have hblock : t.uses q = some k.block := by rw [uses, hk, Option.map_some]
    rw [← hblock, Function.update_eq_self]
  have hkeeps : ∀ q', Keeps s.channel ((s.channel.setRespAllocator a).setResp q e) t.uses t.uses
      q' := fun q' => ⟨by simp, rfl, rfl, fun _ _ _ hb => hb⟩
  refine ⟨?_, h.requests, hout, h.req_small, ?_, hfree.trans h.never_freed, h.counter, rfl,
    h.accepted, ?_⟩
  · change Stores _ _ bs (Table.uses (t.setSlot _ _))
    rw [huses]
    exact ⟨h.stores.ring, h.stores.size, h.stores.used, h.stores.inj⟩
  · change a.size + 1 < 2 ^ 32
    rw [hsize]
    exact h.resp_small
  · intro q'
    change Seats _ rs' (Table.uses (t.setSlot _ _)) q' (Function.update t.slots _ _ q')
    rw [huses]
    by_cases hq : q' = q
    · subst hq
      have hslot := h.slots q'
      rw [hk] at hslot
      obtain ⟨hstored, -, howner⟩ := hslot
      rw [Function.update_self]
      refine ⟨hstored.keeps (hkeeps q'), ?_, howner⟩
      change Answered (Channel.elem _ _).resp a rs' answer
      rw [Channel.elem_setResp_self]
      exact hanswer
    · rw [Function.update_of_ne hq]
      refine (h.slots q').keeps (hkeeps q') ?_ rfl hlive hholds
      rw [Channel.elem_setResp_ne _ _ _ hq, Channel.elem_setRespAllocator]

theorem writeServer (h : t.Reflects s bs rs) (m : Memblock) (pos : Nat) :
    t.responses.room m.size = none ∧ s.channel.writeServer m pos =
      .ok (false, s.channel.setResp (qPos pos) { Element.fresh with empty := false }) ∨
    ∃ b, t.responses.room m.size = some b ∧ s.channel.writeServer m pos =
      .ok (true, (s.channel.setRespAllocator ((s.channel.allocator.resp.push b).store
        (s.channel.allocator.resp.ptr b) m.bytes)).setResp (qPos pos) ⟨m.size, false, b.handle⟩) ∧
      (s.channel.allocator.resp.push b).Ring (rs ++ [b]) ∧
      b.header = s.channel.allocator.resp.allocIndex ∧ m.size < 4 * b.size := by
  rcases Nat.lt_or_ge s.channel.allocator.resp.getFreeMemory m.size with hfull | hroom
  · exact .inl ⟨h.responses.room_full hfull, Channel.writeServer_refused (.inl hfull)⟩
  · rcases h.responses.alloc h.resp_small hroom with
      ⟨hgrant, halloc⟩ | ⟨b, hgrant, halloc, hring, hhead, hlen⟩
    · exact .inl ⟨hgrant, Channel.writeServer_refused (.inr halloc)⟩
    · exact .inr ⟨b, hgrant, Channel.writeServer_stored hroom halloc, hring, hhead, hlen⟩

theorem serveOnce (h : t.Reflects s bs rs) :
    Option.Rel (Agree fun s t => ∃ bs rs, t.Reflects s bs rs) (s.reply cb .serveOnce)
      (t.reply cb .serveOnce) := by
  have hslot := h.slots (qPos s.pos)
  have hvacant := hslot.vacant
  simp only [Service.reply, Service.outcome, Service.step, Table.reply, h.pos, process]
  cases hk : t.slots (qPos s.pos) with
  | none =>
    rw [hk] at hvacant
    have hread : s.channel.readServer s.pos = none := Channel.readServer_eq_none.mpr hvacant
    simp only [hread]
    exact .some ⟨rfl, bs, rs, h.stores, h.requests, h.responses, h.req_small, h.resp_small,
      h.never_freed, h.counter, rfl, h.accepted, h.slots⟩
  | some k =>
    rw [hk] at hslot
    obtain ⟨hstored, -, howner⟩ := hslot
    have hread : s.channel.readServer s.pos = some (.ofData k.data) := hstored.readServer
    have hfilled : (cb.answer (.ofData k.data)).bytes.length = (cb.answer (.ofData k.data)).size :=
      cb.filled_answer _
    simp only [hread, Option.map_some, howner]
    generalize cb.answer (.ofData k.data) = m at hfilled ⊢
    rcases h.writeServer m s.pos with ⟨hgrant, hwrite⟩ | ⟨b, hgrant, hwrite, hring, hhead, hlen⟩
    · rw [hwrite, hgrant]
      exact .some ⟨rfl, bs, rs, h.respond hk h.responses rfl rfl (fun _ hb => hb)
        (fun _ _ _ hdata => hdata) rfl⟩
    · have hbytes : m.bytes.length ≤ 4 * b.size := by omega
      have hmem : b ∈ rs ++ [b] := List.mem_append_right rs (List.mem_singleton_self b)
      have hpayload : b.payload ≠ 0 := by
        rw [← h.never_freed]
        exact hring.payload_ne_freeIndex hmem
      rw [hwrite, hgrant]
      refine .some ⟨rfl, bs, rs ++ [b], h.respond hk ((h.responses.push hring).store hmem hbytes)
        rfl rfl (fun _ hb => List.mem_append_left _ hb) ?_ ⟨b, hmem, hpayload, ?_, ?_⟩⟩
      · intro b' hb' data hdata
        have hne : b' ≠ b := by
          rintro rfl
          exact h.responses.ring.header_ne_alloc hb' hhead
        exact (hdata.push h.responses.ring hb' hhead).store_other hring
          (List.mem_append_left _ hb') hmem hne hbytes
      · rw [hfilled]
      · exact Allocator.Holds.store_self (s.channel.allocator.resp.push b) hbytes

theorem cleanUp (h : t.Reflects s bs rs) {q : Fin queueSize} {k : Ticket}
    (hk : t.slots q = some k) :
    ∃ a bs', s.channel.cleanUp q = .ok ((s.channel.setReqAllocator a).resetElem q) ∧
      (t.without k).Outlines a bs' ∧ a.size = s.channel.allocator.req.size ∧
      a.heapBase = s.channel.allocator.req.heapBase ∧
      (∀ q' b', q' ≠ q → t.uses q' = some b' → b' ∈ bs') ∧
      ∀ b data, s.channel.allocator.req.Holds b data → a.Holds b data := by
  have hslot := h.slots q
  rw [hk] at hslot
  have hstored := hslot.1
  have huse : t.uses q = some k.block := by rw [uses, hk, Option.map_some]
  have hblock := h.stores.used q k.block huse
  have hblocks := h.requests.blocks
  have hout := h.requests
  have hstores := h.stores
  cases bs with
  | nil => cases hblock
  | cons b₀ bs =>
    refine ⟨_, if k.data ≠ [] ∧ k.block = b₀ then bs else b₀ :: bs,
      hstores.cleanUp_eq hstored huse, ?_, ?_, ?_, ?_, ?_⟩
    · unfold Table.without
      simp only [hblocks, List.head?_cons, Option.some.injEq, eq_comm (a := b₀)]
      split_ifs
      · exact hout.popFirst
      · exact hout
    · split_ifs <;> rfl
    · split_ifs <;> rfl
    · intro q' b' hq hb'
      have hmem := hstores.used q' b' hb'
      split_ifs with hfreed
      · exact (List.mem_cons.mp hmem).resolve_left (hfreed.2 ▸ hstores.ne_of_use huse hb' hq)
      · exact hmem
    · intro b data hdata
      split_ifs
      · exact hdata.pop b₀
      · exact hdata

theorem vacate (h : t.Reflects s bs rs) {q : Fin queueSize} {r : Arena} {a : Allocator}
    {bs' : List Block} {received : List Nat} (hout : r.Outlines a bs')
    (hsize : a.size = s.channel.allocator.req.size)
    (hbase : a.heapBase = s.channel.allocator.req.heapBase)
    (hlive : ∀ q' b', q' ≠ q → t.uses q' = some b' → b' ∈ bs')
    (hholds : ∀ b data, s.channel.allocator.req.Holds b data → a.Holds b data) :
    Reflects { t.setSlot q none with requests := r }
      { s with
        channel := (s.channel.setReqAllocator a).resetElem q
        received } bs' rs := by
  have huses := t.uses_setSlot q none
  generalize hc : (s.channel.setReqAllocator a).resetElem q = c
  have halloc : c.allocator.req = a := by
    rw [← hc]
    rfl
  have hother : ∀ q', q' ≠ q → c.elem q' = s.channel.elem q' := by
    intro q' hq
    rw [← hc, Channel.resetElem, Channel.elem_setReq_ne _ _ _ hq, Channel.elem_setResp_ne _ _ _ hq]
    rfl
  have hresp : c.allocator.resp = s.channel.allocator.resp := by
    rw [← hc]
    rfl
  have hcounter : c.counter = s.channel.counter := by
    rw [← hc]
    rfl
  refine ⟨?_, halloc ▸ hout, hresp ▸ h.responses, ?_, hresp ▸ h.resp_small, hresp ▸ h.never_freed,
    h.counter.trans hcounter.symm, h.pos, h.accepted, ?_⟩
  · change Stores c.allocator.req.size c bs' (Table.uses (t.setSlot _ _))
    rw [huses, halloc, hsize]
    exact h.stores.vacate (halloc ▸ hout.ring) (halloc ▸ hsize) hlive
  · change c.allocator.req.size + 1 < 2 ^ 32
    rw [halloc, hsize]
    exact h.req_small
  · intro q'
    change Seats _ rs (Table.uses (t.setSlot _ _)) q' (Function.update t.slots _ _ q')
    rw [huses]
    by_cases hq : q' = q
    · subst hq
      rw [Function.update_self]
      change c.elem q' = .fresh
      rw [← hc]
      simp [Channel.resetElem, ChannelElem.fresh]
    · rw [Function.update_of_ne hq]
      refine (h.slots q').keeps ⟨congrArg _ (hother q' hq), Function.update_of_ne hq .., ?_, ?_⟩
        (congrArg _ (hother q' hq)) rfl (fun _ hb => hb) ?_
      · change c.allocator.req.heapBase = _
        rw [halloc, hbase]
      · intro b _ data hdata
        change c.allocator.req.Holds b data
        rw [halloc]
        exact hholds b data hdata
      · intro b _ data hdata
        change c.allocator.resp.Holds b data
        rw [hresp]
        exact hdata

theorem recv (h : t.Reflects s bs rs) (pos : Nat) :
    Option.Rel (Agree fun s t => ∃ bs rs, t.Reflects s bs rs) (s.reply cb (.recv pos))
      (t.reply cb (.recv pos)) := by
  have hslot := h.slots (qPos pos)
  simp only [Service.reply, Service.outcome, Service.step, Table.reply]
  cases hk : t.slots (qPos pos) with
  | none =>
    rw [hk] at hslot
    have hfresh : s.channel.elem (qPos pos) = .fresh := hslot
    have hwaits : s.channel.readClient pos = none := if_pos (by rw [hfresh]; rfl)
    rw [hwaits]
    exact .none
  | some k =>
    rw [hk] at hslot
    obtain ⟨-, hanswered, -⟩ := hslot
    obtain ⟨a, bs', hclean, hout, hsize, hbase, hlive, hholds⟩ := h.cleanUp hk
    have hreceive := Channel.receive_eq hclean
    dsimp only
    cases hanswer : k.answer with
    | none =>
      rw [hanswer] at hanswered
      have hwaits : s.channel.readClient pos = none := if_pos (by
        rw [show (s.channel.elem (qPos pos)).resp = .fresh from hanswered]
        rfl)
      rw [hwaits]
      exact .none
    | some answer =>
      rw [hanswer] at hanswered
      have hread : s.channel.readClient pos = some (.ok (answer.map .ofData,
          (s.channel.setReqAllocator a).resetElem (qPos pos))) := by
        cases answer with
        | none =>
          have hanswered : (s.channel.elem (qPos pos)).resp = _ := hanswered
          simp only [Channel.readClient, hreceive, hanswered]
          rfl
        | some data =>
          obtain ⟨b, -, hpayload, helem, hdata⟩ := hanswered
          have hhandle : b.handle ≠ 0 := by
            simp only [Block.handle]
            omega
          simp only [Channel.readClient, hreceive, helem, if_neg hhandle,
            Allocator.handleToPtr_handle, hdata.load]
          rfl
      rw [hread]
      exact .some ⟨rfl, bs', rs, h.vacate hout hsize hbase hlive hholds⟩

end Table.Reflects

theorem matches_table (cb : Callback) :
    Matches (fun s t => ∃ bs rs, t.Reflects s bs rs) (Service.reply cb) (Table.reply cb) := by
  rintro s t ⟨bs, rs, h⟩ l
  cases l with
  | send m => exact h.send m
  | serveOnce => exact h.serveOnce
  | recv pos => exact h.recv pos

section Runs

variable {cb : Callback} {heapBase stride bufferSize : Nat}

theorem reflects_new (hb : DoubleAllocator.Admits heapBase stride bufferSize) :
    (Table.new heapBase stride bufferSize).Reflects (.new heapBase stride bufferSize) [] [] :=
  ⟨⟨Allocator.ring_new hb.req, rfl, nofun, nofun⟩, .new hb.req, .new hb.resp, hb.half_lt,
    hb.half_lt, rfl, rfl, rfl, rfl, fun _ => rfl⟩

/-- Clients and a server that make their calls one after another cannot tell the channel from
its table: every call returns, waits or aborts, and returns what the table says. -/
theorem replies_eq_table (hb : DoubleAllocator.Admits heapBase stride bufferSize)
    (calls : List Service.Label) :
    outputs (Service.reply cb) (.new heapBase stride bufferSize) calls =
      outputs (Table.reply cb) (.new heapBase stride bufferSize) calls :=
  (matches_table cb).outputs ⟨[], [], reflects_new hb⟩ calls

theorem replies_eq_table_crossed :
    outputs (Service.reply .echo) (.new 4096 64 128) [.send (.ofData [1, 2]), .send (.ofData [3]),
        .send (.ofData (List.replicate 70 0)), .serveOnce, .serveOnce, .recv 1, .recv 0] =
      some [.sent (some 0), .sent (some 1), .sent none,
        .served (some (0, .ofData [1, 2])) true, .served (some (1, .ofData [3])) true,
        .received (some (.ofData [3])), .received (some (.ofData [1, 2]))] := by
  rw [replies_eq_table ⟨by decide, by decide, by decide, by decide⟩]
  decide +kernel

/-- What the constructor of `Memory` does to a segment whose participants are all dead. -/
def Channel.reset (c : Channel) : Channel where
  queue := ⟨0, fun _ => .fresh⟩
  allocator := ⟨c.allocator.req.reset, c.allocator.resp.reset⟩

end Runs

end Shadesmar.Rpc
