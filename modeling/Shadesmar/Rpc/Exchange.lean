import Shadesmar.Rpc.RequestMemory
import Shadesmar.Rpc.ResponseMemory

namespace Shadesmar.Rpc

open Library Shadesmar.Memory

/-- An accepted call of `send`, and what `write_server` returned when the server last
processed its slot. -/
structure Request where
  pos : Nat
  memblock : Memblock
  stored : Option Bool
  deriving DecidableEq

def Request.answer (cb : Callback) (r : Request) : Memblock := cb.answer (.ofData r.memblock.bytes)

structure Exchange where
  service : Service
  requests : Fin queueSize → Option Request

namespace Exchange

abbrev channel (s : Exchange) : Channel := s.service.channel

def new (heapBase stride bufferSize : Nat) : Exchange where
  service := .new heapBase stride bufferSize
  requests := fun _ => none

def permits (s : Exchange) : Service.Label → Bool
  | .recv pos => (s.requests (qPos pos)).any (·.pos == pos)
  | .send _ => true
  | .serveOnce => true

def observe (cb : Callback) (s : Exchange) : Service.Label → Fin queueSize → Option Request
  | .send memblock =>
    match s.channel.writeClient memblock with
    | .ok (some pos, _) => Function.update s.requests (qPos pos) (some ⟨pos, memblock, none⟩)
    | _ => s.requests
  | .serveOnce =>
    let q := qPos s.service.pos
    match s.channel.readServer s.service.pos, process cb s.channel s.service.pos with
    | some _, .ok (done, _) =>
      Function.update s.requests q ((s.requests q).map fun r => { r with stored := some done })
    | _, _ => s.requests
  | .recv pos => Function.update s.requests (qPos pos) none

def step (cb : Callback) (s : Exchange) (l : Service.Label) : Option Exchange :=
  if s.permits l then (s.service.step cb l).map fun service => ⟨service, observe cb s l⟩ else none

def Replied (cb : Callback) (c : Channel) (rs : List Block) (q : Fin queueSize) (r : Request) :
    Prop :=
  match r.stored with
  | none => (c.elem q).resp = .fresh
  | some false => (c.elem q).resp = { Element.fresh with empty := false }
  | some true => ∃ b ∈ rs, b.payload ≠ 0 ∧
      (c.elem q).resp = ⟨(r.answer cb).size, false, b.handle⟩ ∧
      c.allocator.resp.Holds b (r.answer cb).bytes

def Slot (cb : Callback) (c : Channel) (use : Fin queueSize → Option Block) (rs : List Block)
    (q : Fin queueSize) : Option Request → Prop
  | none => c.elem q = .fresh
  | some r => qPos r.pos = q ∧ Stored c use q r.memblock.bytes ∧ Replied cb c rs q r

section Slot

variable {cb : Callback} {c c' : Channel} {use use' : Fin queueSize → Option Block}
variable {rs rs' : List Block} {q : Fin queueSize} {r : Request} {pending : Option Request}

theorem Replied.congr (h : Replied cb c rs q r) (hresp : (c'.elem q).resp = (c.elem q).resp)
    (hlive : ∀ b ∈ rs, b ∈ rs')
    (hholds : ∀ b ∈ rs, ∀ data, c.allocator.resp.Holds b data → c'.allocator.resp.Holds b data) :
    Replied cb c' rs' q r := by
  unfold Replied at *
  rw [hresp]
  cases hstored : r.stored with
  | none => simpa only [hstored] using h
  | some done =>
    cases done with
    | false => simpa only [hstored] using h
    | true =>
      rw [hstored] at h
      obtain ⟨b, hb, hpayload, helem, hdata⟩ := h
      exact ⟨b, hlive b hb, hpayload, helem, hholds b hb _ hdata⟩

theorem Slot.keeps (h : Slot cb c use rs q pending) (hk : Keeps c c' use use' q)
    (hresp : (c'.elem q).resp = (c.elem q).resp) (hlive : ∀ b ∈ rs, b ∈ rs')
    (hholds : ∀ b ∈ rs, ∀ data, c.allocator.resp.Holds b data → c'.allocator.resp.Holds b data) :
    Slot cb c' use' rs' q pending := by
  cases pending with
  | none =>
    have hreq := hk.req
    have h : c.elem q = .fresh := h
    change ChannelElem.mk (c'.elem q).req (c'.elem q).resp = .fresh
    rw [hreq, hresp, h]
  | some r => exact ⟨h.1, h.2.1.keeps hk, h.2.2.congr hresp hlive hholds⟩

theorem Slot.vacant_iff (h : Slot cb c use rs q pending) :
    (c.elem q).req.empty = true ↔ pending = none := by
  cases pending with
  | none =>
    have h : c.elem q = .fresh := h
    simp [h, ChannelElem.fresh, Element.fresh]
  | some r =>
    obtain ⟨-, ⟨b, -, helem, -⟩, -⟩ := h
    simp [helem]

theorem Slot.answered_iff (h : Slot cb c use rs q pending) :
    (c.elem q).resp.empty = false ↔ ∃ r done, pending = some r ∧ r.stored = some done := by
  cases pending with
  | none =>
    have h : c.elem q = .fresh := h
    simp [h, ChannelElem.fresh, Element.fresh]
  | some r =>
    obtain ⟨-, -, hreplied⟩ := h
    unfold Replied at hreplied
    cases hstored : r.stored with
    | none =>
      rw [hstored] at hreplied
      simp [hreplied, hstored, Element.fresh]
    | some done =>
      cases done with
      | false =>
        rw [hstored] at hreplied
        simp [hreplied, hstored]
      | true =>
        rw [hstored] at hreplied
        obtain ⟨b, -, -, helem, -⟩ := hreplied
        simp [helem, hstored]

end Slot

structure Valid (cb : Callback) (half : Nat) (s : Exchange) (bs : List Block)
    (use : Fin queueSize → Option Block) (rs : List Block) : Prop where
  stores : Stores half s.channel bs use
  kept : s.service.Kept half rs
  slots : ∀ q, Slot cb s.channel use rs q (s.requests q)

variable {cb : Callback} {half : Nat} {s s' : Exchange} {bs rs : List Block}
variable {use : Fin queueSize → Option Block}

theorem step_ok {l : Service.Label} (h : s.step cb l = some s') :
    s.permits l = true ∧ ∃ service, s.service.step cb l = some service ∧
      s' = ⟨service, observe cb s l⟩ := by
  unfold step at h
  split_ifs at h with hpermits
  obtain ⟨service, hservice, rfl⟩ := Option.map_eq_some_iff.mp h
  exact ⟨hpermits, service, hservice, rfl⟩

theorem valid_new (cb : Callback) {heapBase stride bufferSize : Nat}
    (hb : DoubleAllocator.Admits heapBase stride bufferSize) :
    (new heapBase stride bufferSize).Valid cb (bufferSize / 2) [] (fun _ => none) [] :=
  ⟨⟨Allocator.ring_new hb.req, rfl, nofun, nofun⟩, Service.kept_new hb, fun _ => rfl⟩

theorem Valid.send (hhalf : half + 1 < 2 ^ 32) (h : s.Valid cb half bs use rs) {m : Memblock}
    (hs : s.step cb (.send m) = some s') : ∃ bs' use', s'.Valid cb half bs' use' rs := by
  obtain ⟨-, service, hservice, rfl⟩ := step_ok hs
  simp only [Service.step] at hservice
  split_ifs at hservice with hm
  have hfresh : (s.channel.elem (qPos s.channel.counter)).req.empty = true →
      (s.channel.elem (qPos s.channel.counter)).req = .fresh := by
    intro hempty
    have hslot := h.slots (qPos s.channel.counter)
    rw [hslot.vacant_iff.mp hempty] at hslot
    have hslot : s.channel.elem _ = .fresh := hslot
    rw [hslot]
    rfl
  rcases h.stores.writeClient hhalf hm hfresh with
    ⟨c', hwrite, helem, halloc⟩ | ⟨b, c', hwrite, hempty, hresp, halloc, hstores, hstored, hkeeps⟩
  · rw [hwrite] at hservice
    obtain rfl := Option.some.inj hservice
    refine ⟨bs, use, ⟨halloc ▸ h.stores.ring, halloc ▸ h.stores.size, h.stores.used,
      h.stores.inj⟩, ⟨halloc ▸ h.kept.ring, halloc ▸ h.kept.free, halloc ▸ h.kept.size⟩, ?_⟩
    intro q
    simp only [observe, hwrite]
    refine (h.slots q).keeps ⟨congrArg _ (congrFun helem q), rfl, by rw [← halloc], ?_⟩
      (congrArg _ (congrFun helem q)) (fun _ hb => hb) ?_
    · intro b _ data hdata
      exact halloc ▸ hdata
    · intro b _ data hdata
      exact halloc ▸ hdata
  · rw [hwrite] at hservice
    obtain rfl := Option.some.inj hservice
    refine ⟨_, _, hstores, ⟨halloc ▸ h.kept.ring, halloc ▸ h.kept.free, halloc ▸ h.kept.size⟩, ?_⟩
    intro q
    simp only [observe, hwrite]
    by_cases hq : q = qPos s.channel.counter
    · subst hq
      rw [Function.update_self]
      have hslot := h.slots (qPos s.channel.counter)
      rw [hslot.vacant_iff.mp hempty] at hslot
      have hslot : s.channel.elem _ = .fresh := hslot
      refine ⟨rfl, hstored, (hresp _).trans ?_⟩
      rw [hslot]
      rfl
    · rw [Function.update_of_ne hq]
      refine (h.slots q).keeps (hkeeps q hq) (hresp q) (fun _ hb => hb) ?_
      intro b _ data hdata
      exact halloc ▸ hdata

theorem Valid.serveOnce (hhalf : half + 1 < 2 ^ 32) (h : s.Valid cb half bs use rs)
    (hs : s.step cb .serveOnce = some s') : ∃ rs', s'.Valid cb half bs use rs' := by
  obtain ⟨-, service, hservice, rfl⟩ := step_ok hs
  simp only [Service.step] at hservice
  generalize hpos : s.service.pos = pos at *
  have hslot := h.slots (qPos pos)
  have hsmall : s.channel.allocator.resp.size + 1 < 2 ^ 32 := h.kept.size ▸ hhalf
  cases hr : s.requests (qPos pos) with
  | none =>
    rw [hr] at hslot
    have hempty : (s.channel.elem (qPos pos)).req.empty = true := hslot.vacant_iff.mpr rfl
    have hread : s.channel.readServer pos = none := if_pos hempty
    have hprocess : process cb s.channel pos = .ok (false, s.channel) := by
      unfold process
      rw [hread]
    rw [hprocess] at hservice
    obtain rfl := Option.some.inj hservice
    refine ⟨rs, h.stores, ⟨h.kept.ring, h.kept.free, h.kept.size⟩, ?_⟩
    simp only [observe, hpos, hread]
    exact h.slots
  | some r =>
    rw [hr] at hslot
    obtain ⟨hq, hreq, -⟩ := hslot
    have hread : s.channel.readServer pos = some (.ofData r.memblock.bytes) := hreq.readServer
    have hprocess : process cb s.channel pos = s.channel.writeServer (r.answer cb) pos := by
      unfold process
      rw [hread]
      rfl
    have hother : ∀ (a : Allocator) (e : Element) (q : Fin queueSize), q ≠ qPos pos →
        (((s.channel.setRespAllocator a).setResp (qPos pos) e).elem q).resp =
          (s.channel.elem q).resp := by
      intro a e q hne
      rw [Channel.elem_setResp_ne _ _ _ hne, Channel.elem_setRespAllocator]
    have hkeeps : ∀ (a : Allocator) (e : Element) (q : Fin queueSize),
        Keeps s.channel ((s.channel.setRespAllocator a).setResp (qPos pos) e) use use q :=
      fun a e q => ⟨by simp, rfl, rfl, fun _ _ _ hb => hb⟩
    rcases Channel.writeServer_eq h.kept.ring hsmall (r.answer cb) pos with
      ⟨herror, -⟩ | ⟨b, a, hok, hring, hfree, hsize, hbase, hholds, hlive, -⟩
    · rw [hprocess, herror] at hservice
      obtain rfl := Option.some.inj hservice
      refine ⟨rs, ⟨h.stores.ring, h.stores.size, h.stores.used, h.stores.inj⟩,
        ⟨h.kept.ring, h.kept.free, h.kept.size⟩, ?_⟩
      intro q
      simp only [observe, hpos, hread, hprocess, herror]
      by_cases hne : q = qPos pos
      · subst hne
        rw [Function.update_self, hr]
        refine ⟨hq, hreq.keeps (hkeeps _ _ _), ?_⟩
        change (Channel.elem _ _).resp = _
        rw [Channel.signalError, Channel.elem_setResp_self]
      · rw [Function.update_of_ne hne]
        exact (h.slots q).keeps (hkeeps _ _ q) (hother _ _ q hne) (fun _ hb => hb)
          fun _ _ _ hdata => hdata
    · rw [hprocess, hok] at hservice
      obtain rfl := Option.some.inj hservice
      refine ⟨rs ++ [b], ⟨h.stores.ring, h.stores.size, h.stores.used, h.stores.inj⟩,
        ⟨hring, hfree.trans h.kept.free, hsize.trans h.kept.size⟩, ?_⟩
      intro q
      simp only [observe, hpos, hread, hprocess, hok]
      by_cases hne : q = qPos pos
      · subst hne
        rw [Function.update_self, hr]
        refine ⟨hq, hreq.keeps (hkeeps _ _ _), b, by simp, ?_, ?_, hholds⟩
        · rw [← h.kept.free, ← hfree]
          exact hring.payload_ne_freeIndex (by simp)
        · rw [Channel.elem_setResp_self]
          rfl
      · rw [Function.update_of_ne hne]
        exact (h.slots q).keeps (hkeeps _ _ q) (hother _ _ q hne)
          (fun _ hb => List.mem_append_left _ hb) hlive

theorem Valid.readClient (h : s.Valid cb half bs use rs) {r : Request} {done : Bool}
    (hr : s.requests (qPos r.pos) = some r) (hstored : r.stored = some done) :
    ∃ c bs', s.channel.readClient r.pos =
        some (.ok (if done then some (.ofData (r.answer cb).bytes) else none, c)) ∧
      c.elem (qPos r.pos) = .fresh ∧
      Stores half c bs' (Function.update use (qPos r.pos) none) ∧
      c.allocator.resp = s.channel.allocator.resp ∧
      (∀ q, q ≠ qPos r.pos → (c.elem q).resp = (s.channel.elem q).resp) ∧
      ∀ q, q ≠ qPos r.pos →
        Keeps s.channel c use (Function.update use (qPos r.pos) none) q := by
  obtain ⟨-, hreq, hreplied⟩ : Slot cb s.channel use rs (qPos r.pos) (some r) := hr ▸ h.slots _
  obtain ⟨a, bs', hclean, hstores, hkeeps⟩ := h.stores.cleanUp hreq
  have hwaits : (s.channel.elem (qPos r.pos)).resp.empty = false :=
    (h.slots _).answered_iff.mpr ⟨r, done, hr, hstored⟩
  refine ⟨_, bs', ?_, ?_, hstores, rfl, ?_, hkeeps⟩
  · simp only [Channel.readClient, hwaits, Bool.false_eq_true, if_false,
      Channel.receive_eq hclean]
    unfold Replied at hreplied
    cases done with
    | false =>
      rw [hstored] at hreplied
      rw [if_pos (by rw [hreplied]; rfl)]
      rfl
    | true =>
      rw [hstored] at hreplied
      obtain ⟨b, -, hpayload, helem, hholds⟩ := hreplied
      have hhandle : b.handle ≠ 0 := by
        simp only [Block.handle]
        omega
      have hfilled : (r.answer cb).bytes.length = (r.answer cb).size := cb.filled_answer _
      rw [if_neg (by rw [helem]; exact hhandle), helem, ← hfilled, Allocator.handleToPtr_handle,
        hholds.load]
      rfl
  · simp [Channel.resetElem, ChannelElem.fresh]
  · intro q hq
    simp [Channel.resetElem, Channel.elem_setResp_ne, hq]

theorem Valid.recv (h : s.Valid cb half bs use rs) {pos : Nat}
    (hs : s.step cb (.recv pos) = some s') : ∃ bs' use', s'.Valid cb half bs' use' rs := by
  obtain ⟨hpermits, service, hservice, rfl⟩ := step_ok hs
  obtain ⟨r, hr, hpos⟩ := (Option.any_eq_true _ _).mp hpermits
  obtain rfl := beq_iff_eq.mp hpos
  obtain ⟨_, c', hread', rfl⟩ := Service.recv_ok hservice
  have hwaits : (s.channel.elem (qPos r.pos)).resp.empty = false :=
    (Channel.readClient_cases hread').1
  obtain ⟨r', done, hr', hstored⟩ := (h.slots _).answered_iff.mp hwaits
  obtain rfl := Option.some.inj (hr.symm.trans hr')
  obtain ⟨c, bs', hread, hfresh, hstores, halloc, hresp, hkeeps⟩ := h.readClient hr hstored
  obtain ⟨-, rfl⟩ := Prod.mk.inj (Except.ok.inj (Option.some.inj (hread'.symm.trans hread)))
  refine ⟨bs', _, hstores, ⟨halloc ▸ h.kept.ring, halloc ▸ h.kept.free, halloc ▸ h.kept.size⟩, ?_⟩
  intro q
  simp only [observe]
  by_cases hq : q = qPos r.pos
  · subst hq
    rw [Function.update_self]
    exact hfresh
  · rw [Function.update_of_ne hq]
    refine (h.slots q).keeps (hkeeps q hq) (hresp q hq) (fun _ hb => hb) ?_
    intro b _ data hdata
    exact halloc ▸ hdata

theorem Valid.step (hhalf : half + 1 < 2 ^ 32) (h : s.Valid cb half bs use rs)
    {l : Service.Label} (hs : s.step cb l = some s') :
    ∃ bs' use' rs', s'.Valid cb half bs' use' rs' := by
  cases l with
  | send m =>
    obtain ⟨bs', use', h'⟩ := h.send hhalf hs
    exact ⟨bs', use', rs, h'⟩
  | serveOnce =>
    obtain ⟨rs', h'⟩ := h.serveOnce hhalf hs
    exact ⟨bs, use, rs', h'⟩
  | recv pos =>
    obtain ⟨bs', use', h'⟩ := h.recv hs
    exact ⟨bs', use', rs, h'⟩

/-- What `recv` does for the requests that have a response, and that only accepted requests
have one. -/
structure Conforms (cb : Callback) (s : Exchange) : Prop where
  recv : ∀ r, s.requests (qPos r.pos) = some r →
    (s.channel.elem (qPos r.pos)).resp.empty = false →
    ∃ done c, r.stored = some done ∧
      s.channel.readClient r.pos =
        some (.ok (if done then some (.ofData (r.answer cb).bytes) else none, c)) ∧
      c.elem (qPos r.pos) = .fresh
  accepted : ∀ q, (s.channel.elem q).resp.empty = false →
    (s.channel.elem q).req.empty = false ∧ ∃ r, s.requests q = some r ∧ qPos r.pos = q

/-- In every run of complete calls `recv` returns the callback's answer to the bytes of the
request, or false when that answer could not be stored, and leaves the slot fresh. -/
theorem exchanges_conform (cb : Callback) {heapBase stride bufferSize : Nat}
    (hb : DoubleAllocator.Admits heapBase stride bufferSize) {labels : List Service.Label}
    {s : Exchange} (h : Machine.run (step cb) (new heapBase stride bufferSize) labels = some s) :
    s.Conforms cb := by
  have hlim := hb.half_lt
  obtain ⟨bs, use, rs, hvalid⟩ : ∃ bs use rs, s.Valid cb (bufferSize / 2) bs use rs := by
    apply (Machine.Run.of_run h).invariant
      (fun s => ∃ bs use rs, s.Valid cb (bufferSize / 2) bs use rs) ⟨_, _, _, valid_new cb hb⟩
    rintro t l t' ⟨bs, use, rs, ht⟩ - hs
    exact ht.step hlim hs
  constructor
  · intro r hr hwaits
    obtain ⟨r', done, hr', hstored⟩ := (hvalid.slots _).answered_iff.mp hwaits
    obtain rfl := Option.some.inj (hr.symm.trans hr')
    obtain ⟨c, -, hread, hfresh, -⟩ := hvalid.readClient hr hstored
    exact ⟨done, c, hstored, hread, hfresh⟩
  · intro q hwaits
    obtain ⟨r, done, hr, -⟩ := (hvalid.slots q).answered_iff.mp hwaits
    have hslot := hvalid.slots q
    rw [hr] at hslot
    obtain ⟨hq, ⟨b, -, helem, -⟩, -⟩ := hslot
    exact ⟨by rw [helem], r, hr, hq⟩

theorem exchanges_conform_round : ∃ s,
    Machine.run (step .echo) (new 4096 128 (2 ^ 28))
      [.send (.ofData [1, 2]), .serveOnce, .send (.ofData []), .recv 0, .serveOnce] = some s ∧
    s.Conforms .echo := by
  obtain ⟨s, hs⟩ := Option.isSome_iff_exists.mp (show (Machine.run (step .echo)
    (new 4096 128 (2 ^ 28))
    [.send (.ofData [1, 2]), .serveOnce, .send (.ofData []), .recv 0, .serveOnce]).isSome by
      decide +kernel)
  exact ⟨s, hs, exchanges_conform .echo ⟨by decide, by decide, by decide, by decide⟩ hs⟩

end Exchange

end Shadesmar.Rpc
