import Shadesmar.Library.Trace
import Shadesmar.Memory.Room
import Shadesmar.Rpc.Order
import Shadesmar.Rpc.Rounds

namespace Shadesmar.Rpc

open Library Shadesmar.Memory

namespace Channel

variable {c c' : Channel} {m : Memblock}

theorem setReq_setReq (c : Channel) (q : Fin queueSize) (e e' : Element) :
    (c.setReq q e).setReq q e' = c.setReq q e' := by
  simp only [setReq, setElem, elem, SharedQueue.set, Function.update_self, Function.update_idem]

theorem setReqAllocator_setReq (c : Channel) (q : Fin queueSize) (e : Element) (a : Allocator) :
    (c.setReq q e).setReqAllocator a = (c.setReqAllocator a).setReq q e := rfl

theorem resetReq_setReq (c : Channel) (q : Fin queueSize) (e : Element) :
    (c.setReq q e).resetReq q = c.setReq q .fresh := by
  simp only [resetReq, setReqSize, setReqHandle, setReqEmpty, elem_setReq_self, setReq_setReq]
  rfl

theorem setReq_eq_self (c : Channel) (q : Fin queueSize) : c.setReq q (c.elem q).req = c := by
  simp only [setReq, setElem, elem, SharedQueue.set, Function.update_eq_self]

def CanStore (c : Channel) (m : Memblock) : Prop :=
  m.size ≤ c.allocator.req.getFreeMemory ∧
    ∃ p a, c.allocator.req.alloc (u32 m.size) = .ok (some p, a)

theorem accepts_iff_vacant (h : c.CanStore m) :
    c.Accepts m ↔ c.vacant (qPos c.counter) = true := by
  obtain ⟨hroom, p, a, halloc⟩ := h
  rw [accepts_iff]
  exact ⟨fun haccepts => haccepts.2.1, fun hvacant => ⟨hroom, hvacant, p, a, halloc⟩⟩

theorem writeClient_exits {r : Option Nat} (h : c.writeClient m = .ok (r, c')) :
    (r = none ∧ c' = c ∧
      (c.allocator.req.getFreeMemory < m.size ∨ c.vacant (qPos c.counter) = false)) ∨
    (m.size ≤ c.allocator.req.getFreeMemory ∧ c.vacant (qPos c.counter) = true ∧
      ((∃ a, c.allocator.req.alloc (u32 m.size) = .ok (none, a) ∧ r = none ∧
        c' = (c.incCounter.setReqAllocator a).setReq (qPos c.counter) .fresh) ∨
      ∃ p a, c.allocator.req.alloc (u32 m.size) = .ok (some p, a) ∧ r = some c.counter ∧
        c'.counter = u32 (c.counter + 1) ∧ c'.allocator.req = a.store p m.bytes)) := by
  unfold writeClient at h
  split_ifs at h with hroom
  · obtain ⟨rfl, rfl⟩ := Prod.mk.inj (Except.ok.inj h)
    exact .inl ⟨rfl, rfl, .inl hroom⟩
  · rcases accept_cases c (qPos c.counter) with ⟨hbusy, hnone⟩ | ⟨hvacant, hsome⟩
    · simp only [hnone] at h
      obtain ⟨rfl, rfl⟩ := Prod.mk.inj (Except.ok.inj h)
      exact .inl ⟨rfl, rfl, .inr hbusy⟩
    · simp only [hsome] at h
      obtain ⟨⟨p, c₁⟩, halloc, h⟩ := Checked.bind_eq_ok.mp h
      obtain ⟨a, hwords, rfl⟩ := allocReq_ok halloc
      refine .inr ⟨Nat.le_of_not_lt hroom, hvacant, ?_⟩
      cases p with
      | none =>
        obtain ⟨rfl, rfl⟩ := Prod.mk.inj (Except.ok.inj h)
        refine .inl ⟨a, hwords, rfl, ?_⟩
        exact (congrArg (resetReq · _) (setReqAllocator_setReq ..)).trans (resetReq_setReq ..)
      | some p =>
        obtain ⟨rfl, rfl⟩ := Prod.mk.inj (Except.ok.inj h)
        exact .inr ⟨p, a, hwords, rfl, rfl, rfl⟩

end Channel

namespace Service

variable {cb : Callback} {s s' : Service} {l : Label} {m : Memblock} {c : Channel}

theorem Lent.failed_send {p : List UInt8 → Prop} {half : Nat} {ls : List (Nat × Block)}
    {use : Fin queueSize → Option Block} (h : s.Lent p half ls use)
    (hsend : s.channel.writeClient m = .ok (none, c)) :
    (c = s.channel ∧ (s.channel.allocator.req.getFreeMemory < m.size ∨
      s.channel.vacant (qPos s.channel.counter) = false)) ∨
    (c = s.channel.incCounter ∧ m.size ≤ s.channel.allocator.req.getFreeMemory ∧
      s.channel.vacant (qPos s.channel.counter) = true) := by
  rcases Channel.writeClient_exits hsend with ⟨-, hsame, hwhy⟩ | ⟨hroom, hvacant, hexit⟩
  · exact .inl ⟨hsame, hwhy⟩
  · obtain ⟨a, halloc, -, rfl⟩ | ⟨p, a, -, hsome, -⟩ := hexit
    · have hkept : s.channel.allocator.req = a := by
        rcases h.stores.ring.alloc (u32 m.size) with hnone | ⟨b, hgrant, -⟩
        · exact (Prod.mk.inj (Except.ok.inj (hnone.symm.trans halloc))).2
        · cases hgrant.symm.trans halloc
      refine .inr ⟨?_, hroom, hvacant⟩
      subst hkept
      rw [← h.fresh _ hvacant]
      exact Channel.setReq_eq_self s.channel.incCounter (qPos s.channel.counter)
    · cases hsome

theorem incCounter_ne (c : Channel) : c.incCounter ≠ c := by
  intro heq
  have hcounter : u32 (c.counter + 1) = c.counter := congrArg Channel.counter heq
  unfold u32 at hcounter
  omega

/-- A `send` that returns false leaves the channel as it was exactly when the message is larger
than the free memory or the slot is occupied; a refused allocation moves the counter. -/
theorem failed_send_keeps_iff (cb : Callback) {heapBase stride bufferSize : Nat}
    (hb : DoubleAllocator.Admits heapBase stride bufferSize) {labels : List Label}
    (h : Machine.run (step cb) (new heapBase stride bufferSize) labels = some s)
    (hsend : s.channel.writeClient m = .ok (none, c)) :
    c = s.channel ↔ s.channel.allocator.req.getFreeMemory < m.size ∨
      s.channel.vacant (qPos s.channel.counter) = false := by
  obtain ⟨-, ls, use, hlent⟩ := lent_of_run hb h
  rcases hlent.failed_send hsend with ⟨rfl, hwhy⟩ | ⟨rfl, hroom, hvacant⟩
  · exact ⟨fun _ => hwhy, fun _ => rfl⟩
  · constructor
    · intro heq
      exact absurd heq (incCounter_ne s.channel)
    · rintro (hfull | hbusy)
      · exact absurd hroom (Nat.not_le_of_lt hfull)
      · simp [hvacant] at hbusy

theorem failed_send_keeps_too_long : ∃ s c,
    Machine.run (step .echo) (new 4096 128 64) [.send (.ofData [1])] = some s ∧
    s.channel.writeClient (.ofData (List.replicate 40 0)) = .ok (none, c) ∧
    (c = s.channel ↔ s.channel.allocator.req.getFreeMemory < (Memblock.ofData
        (List.replicate 40 0)).size ∨ s.channel.vacant (qPos s.channel.counter) = false) := by
  have hrun : (Machine.run (step .echo) (new 4096 128 64) [.send (.ofData [1])]).bind
      (fun s => (s.channel.writeClient (.ofData (List.replicate 40 0))).toOption.map
        (·.1)) = some none := by decide +kernel
  obtain ⟨s, hs, hsend⟩ := Option.bind_eq_some_iff.mp hrun
  obtain ⟨⟨r, c⟩, hsend, rfl⟩ := Option.map_eq_some_iff.mp hsend
  have hsend := Checked.toOption_eq_some.mp hsend
  exact ⟨s, c, hs, hsend,
    failed_send_keeps_iff .echo ⟨by decide, by decide, by decide, by decide⟩ hs hsend⟩

/-- Half a buffer of 64 bytes has 32 bytes to spare, and refuses 30. -/
theorem refused_send_moves_counter : ∃ s c,
    Machine.run (step .echo) (new 4096 128 64) [] = some s ∧
    s.channel.writeClient (.ofData (List.replicate 30 0)) = .ok (none, c) ∧
    s.channel.counter = 0 ∧ c.counter = 1 ∧ c ≠ s.channel := by
  have hrun : (Machine.run (step .echo) (new 4096 128 64) []).bind
      (fun s => (s.channel.writeClient (.ofData (List.replicate 30 0))).toOption.map
        (fun rc => (rc.1, s.channel.counter, rc.2.counter))) = some (none, 0, 1) := by decide +kernel
  obtain ⟨s, hs, hsend⟩ := Option.bind_eq_some_iff.mp hrun
  obtain ⟨⟨r, c⟩, hsend, hvals⟩ := Option.map_eq_some_iff.mp hsend
  simp only [Prod.mk.injEq] at hvals
  obtain ⟨rfl, hbefore, hafter⟩ := hvals
  refine ⟨s, c, hs, Checked.toOption_eq_some.mp hsend, hbefore, hafter, ?_⟩
  rintro rfl
  rw [hbefore] at hafter
  cases hafter

def positions (cb : Callback) (s : Service) (labels : List Label) : List Nat :=
  (Machine.trace (step cb) handedOut s labels).flatten

def outstanding (s : Service) : List Nat :=
  (List.range s.accepted).filter fun id => id ∉ s.received

structure Placed (s : Service) (ps : List Nat) : Prop where
  length : ps.length = s.accepted
  waits : ∀ id p, ps[id]? = some p → id ∈ s.received ∨
    s.channel.vacant (qPos p) = false ∧ s.owner (qPos p) = id

theorem handedOut_eq_nil (hs : s.step cb l = some s') (ha : s'.accepted = s.accepted) :
    s.handedOut l = [] := by
  rcases handedOut_cases hs with ⟨hnil, -⟩ | ⟨-, hnew, -⟩
  · exact hnil
  · omega

theorem Placed.step {ps : List Nat} (h : s.Placed ps) (hs : s.step cb l = some s') :
    s'.Placed (ps ++ s.handedOut l) := by
  obtain ⟨hlength, hwaits⟩ := h
  rcases step_cases hs with ⟨hv, -, ho, ha, -, hr, -⟩ | ⟨m, q, -, -, -, -, -, ha, -, hr⟩ |
      ⟨q, -, -, -, hv, -, ho, ha, -, hr⟩ | ⟨pos, q, -, -, -, hv, -, ho, ha, -, hr⟩
  · rw [handedOut_eq_nil hs ha, List.append_nil]
    exact ⟨by rw [ha, hlength], by simpa only [hv, ho, hr] using hwaits⟩
  · obtain ⟨-, hsame, -⟩ | ⟨hpos, -, hfree, ho, hv⟩ := handedOut_cases hs
    · omega
    · rw [hpos]
      refine ⟨by simp [ha, hlength], fun id p hp => ?_⟩
      rw [hv, ho, hr]
      rcases Nat.lt_or_ge id ps.length with hold | hnew
      · rw [List.getElem?_append_left hold] at hp
        refine (hwaits id p hp).imp_right fun ⟨hbusy, howner⟩ => ?_
        have hne : qPos p ≠ qPos s.channel.counter := by
          intro heq
          rw [heq, hfree] at hbusy
          cases hbusy
        rw [Function.update_of_ne hne, Function.update_of_ne hne]
        exact ⟨hbusy, howner⟩
      · have hid := (List.getElem?_eq_some_iff.mp hp).1
        rw [List.length_append, List.length_singleton] at hid
        obtain rfl : id = ps.length := Nat.le_antisymm (Nat.le_of_lt_succ hid) hnew
        obtain rfl : s.channel.counter = p := by simpa using hp
        rw [Function.update_self, Function.update_self]
        exact .inr ⟨rfl, hlength.symm⟩
  · rw [handedOut_eq_nil hs ha, List.append_nil]
    exact ⟨by rw [ha, hlength], by simpa only [hv, ho, hr] using hwaits⟩
  · rw [handedOut_eq_nil hs ha, List.append_nil]
    refine ⟨by rw [ha, hlength], fun id p hp => ?_⟩
    rw [hv, ho, hr]
    rcases hwaits id p hp with hdone | ⟨hbusy, rfl⟩
    · exact .inl (List.mem_append_left _ hdone)
    · -- the request in the slot that is emptied is the one that is received
      by_cases hq : qPos p = q
      · exact .inl (by simp [hq])
      · exact .inr ⟨by rw [Function.update_of_ne hq, hbusy], rfl⟩

theorem Sound.exists_vacant (h : s.Sound) (hreceived : s.Received)
    (hfew : s.outstanding.length < queueSize) : ∃ q, s.channel.vacant q = true := by
  by_contra hfull
  have hbusy : ∀ q, s.channel.vacant q = false := fun q => by
    simpa using fun hq => hfull ⟨q, hq⟩
  have hinj : Function.Injective s.owner := fun q q' heq => h.distinct q q' (hbusy q) (hbusy q') heq
  have hsub : (List.ofFn s.owner).Subperm s.outstanding := by
    apply (List.nodup_ofFn.mpr hinj).subperm
    intro id hid
    obtain ⟨q, rfl⟩ := List.mem_ofFn.mp hid
    simpa [outstanding] using ⟨h.owner_lt q (hbusy q), hreceived.gone q (hbusy q)⟩
  have hle := hsub.length_le
  rw [List.length_ofFn] at hle
  omega

theorem Placed.vacant_iff {ps : List Nat} (h : s.Placed ps) (hsound : s.Sound)
    (hreceived : s.Received) (q : Fin queueSize) :
    s.channel.vacant q = true ↔ ∀ id p, ps[id]? = some p → qPos p = q → id ∈ s.received := by
  constructor
  · rintro hvacant id p hp rfl
    rcases h.waits id p hp with hdone | ⟨hbusy, -⟩
    · exact hdone
    · rw [hvacant] at hbusy
      cases hbusy
  · intro hall
    by_contra hbusy
    have hbusy : s.channel.vacant q = false := by simpa using hbusy
    have hgone := hreceived.gone q hbusy
    have hlt : s.owner q < ps.length := h.length ▸ hsound.owner_lt q hbusy
    have hp := List.getElem?_eq_getElem hlt
    rcases h.waits _ _ hp with hdone | ⟨hwaits, howner⟩
    · exact hgone hdone
    · exact hgone (hall _ _ hp (hsound.distinct _ _ hwaits hbusy howner))

theorem placed_of_run {heapBase stride bufferSize : Nat} {labels : List Label}
    (h : Machine.run (step cb) (new heapBase stride bufferSize) labels = some s) :
    s.Placed (positions cb (new heapBase stride bufferSize) labels) := by
  have hrun := Machine.Run.of_run h
  clear h
  induction hrun with
  | nil => exact ⟨rfl, nofun⟩
  | snoc hpre _ hs ih =>
    rw [positions, Machine.trace_snoc hpre.run_eq hs, List.flatten_append, List.flatten_singleton]
    exact ih.step hs

/-- While fewer requests are left than there are slots, some slot is vacant; `send` returns
true for a message that can be stored exactly when every request that was given a position of
the slot under the counter has been received. -/
theorem send_accepts_iff (cb : Callback) {heapBase stride bufferSize : Nat} {labels : List Label}
    (h : Machine.run (step cb) (new heapBase stride bufferSize) labels = some s)
    (hfew : s.outstanding.length < queueSize) (hstore : s.channel.CanStore m) :
    (∃ q, s.channel.vacant q = true) ∧
    (s.channel.Accepts m ↔ ∀ id p,
      (positions cb (new heapBase stride bufferSize) labels)[id]? = some p →
        qPos p = qPos s.channel.counter → id ∈ s.received) := by
  obtain ⟨hsound, hreceived⟩ := received_of_run h
  refine ⟨hsound.exists_vacant hreceived hfew, ?_⟩
  rw [Channel.accepts_iff_vacant hstore]
  exact (placed_of_run h).vacant_iff hsound hreceived _

theorem send_accepts_after_round : ∃ s,
    Machine.run (step .echo) (new 4096 128 (2 ^ 28))
      [.send (.ofData [1]), .serveOnce, .recv 0] = some s ∧
    s.outstanding.length < queueSize ∧ s.channel.CanStore (.ofData [2]) ∧
    (∃ q, s.channel.vacant q = true) ∧
    (s.channel.Accepts (.ofData [2]) ↔ ∀ id p, (positions .echo (new 4096 128 (2 ^ 28))
      [.send (.ofData [1]), .serveOnce, .recv 0])[id]? = some p →
        qPos p = qPos s.channel.counter → id ∈ s.received) := by
  have hrun : (Machine.run (step .echo) (new 4096 128 (2 ^ 28))
      [.send (.ofData [1]), .serveOnce, .recv 0]).map (fun s => (s.outstanding,
        s.channel.allocator.req.getFreeMemory,
        (s.channel.allocator.req.alloc (u32 (Memblock.ofData [2]).size)).toOption.map
          (·.1.isSome))) =
      some ([], 2 ^ 27, some true) := by decide +kernel
  obtain ⟨s, hs, hvals⟩ := Option.map_eq_some_iff.mp hrun
  simp only [Prod.mk.injEq] at hvals
  obtain ⟨hleft, hroom, hgrant⟩ := hvals
  obtain ⟨⟨p, a⟩, halloc, hsome⟩ := Option.map_eq_some_iff.mp hgrant
  obtain ⟨p, rfl⟩ := Option.isSome_iff_exists.mp hsome
  have hfew : s.outstanding.length < queueSize := by
    rw [hleft]
    decide
  have hstore : s.channel.CanStore (.ofData [2]) := by
    refine ⟨?_, p, a, Checked.toOption_eq_some.mp halloc⟩
    rw [hroom]
    decide
  exact ⟨s, hs, hfew, hstore, send_accepts_iff .echo hs hfew hstore⟩

section Full

structure Filling (s : Service) (k : Nat) : Prop where
  lent : ∃ ls use, s.Lent (fun _ => True) (2 ^ 27) ls use
  counter : s.channel.counter = k
  accepted : s.accepted = k
  received : s.received = [1]
  ahead : ∀ q, k ≤ q.val → s.channel.vacant q = true
  first : s.channel.vacant (qPos 0) = false
  freeIndex : s.channel.allocator.req.freeIndex = 0
  allocIndex_le : s.channel.allocator.req.allocIndex ≤ 2 * k

variable {k : Nat}

theorem Filling.alloc (h : s.Filling k) (hk : k ≤ 1024) :
    ∃ b, s.channel.allocator.req.alloc (u32 (Memblock.ofData []).size) =
        .ok (some (s.channel.allocator.req.ptr b), s.channel.allocator.req.push b) ∧
      (s.channel.allocator.req.push b).allocIndex ≤ 2 * (k + 1) := by
  rw [show u32 (Memblock.ofData []).size = 0 from u32_eq (by decide)]
  obtain ⟨ls, use, hlent⟩ := h.lent
  have hring := hlent.stores.ring
  have hsize : s.channel.allocator.req.size = 2 ^ 27 := hlent.stores.size
  have hwords : s.channel.allocator.req.words = 2 ^ 25 := by rw [Allocator.words, hsize]; rfl
  have hle := h.allocIndex_le
  have haccepts : s.channel.allocator.req.Accepts 1 := by
    apply Allocator.accepts_of_room hring.free_lt hring.alloc_lt Nat.one_pos
    rw [h.freeIndex, hwords, Cyclic.steps, if_pos (Nat.zero_le _)]
    omega
  have hgrants : s.channel.allocator.req.alloc 0 ≠ .ok (none, s.channel.allocator.req) :=
    (hring.alloc_iff (by decide)).mpr ⟨by rw [hsize]; decide, haccepts⟩
  rcases hring.alloc 0 with hnone | ⟨b, hsome, hring', hhead, hlays⟩
  · exact absurd hnone hgrants
  · refine ⟨b, hsome, ?_⟩
    have htight := (hlays (by decide)).tight
    have hplaced := (hring'.chain.fits (b := b) (by simp)).placed
    have hplace := place_cases (s.channel.allocator.req.push b).words b.header b.size
    change b.next _ ≤ _
    unfold Block.next
    split_ifs <;> omega

theorem Filling.canStore (h : s.Filling k) (hk : k ≤ 1024) :
    s.channel.CanStore (.ofData []) := by
  obtain ⟨b, halloc, -⟩ := h.alloc hk
  exact ⟨Nat.zero_le _, _, _, halloc⟩

theorem Filling.step (cb : Callback) (h : s.Filling k) (hk : k < 1024) :
    ∃ s', Service.step cb s (.send (.ofData [])) = some s' ∧ s'.Filling (k + 1) := by
  have hslot : (qPos k).val = k := by
    rw [qPos_val]
    exact Nat.mod_eq_of_lt hk
  have hvacant : s.channel.vacant (qPos s.channel.counter) = true := by
    rw [h.counter]
    exact h.ahead _ (Nat.le_of_eq hslot.symm)
  obtain ⟨c, hwrite⟩ := (Channel.accepts_iff_vacant (h.canStore (Nat.le_of_lt hk))).mpr hvacant
  have hsend : s.step cb (.send (.ofData [])) = some { s with
      channel := c
      owner := Function.update s.owner (qPos s.channel.counter) s.accepted
      accepted := s.accepted + 1 } := by
    simp only [Service.step, if_pos (Memblock.filled_ofData []), hwrite]
  obtain ⟨ls, use, hlent⟩ := h.lent
  obtain ⟨ls', use', hlent', -⟩ := hlent.send (by decide) hsend trivial
  obtain ⟨b, halloc, hindex⟩ := h.alloc (Nat.le_of_lt hk)
  obtain ⟨-, -, ⟨hnone, -⟩ | ⟨-, -, hflags⟩⟩ := Channel.writeClient_cases hwrite
  · cases hnone
  obtain ⟨hnone, -⟩ | ⟨-, -, ⟨a, -, hnone, -⟩ | ⟨p, a, hstored, -, hcounter, hreq⟩⟩ :=
    Channel.writeClient_exits hwrite
  · cases hnone
  · cases hnone
  obtain ⟨-, rfl⟩ := Prod.mk.inj (Except.ok.inj (halloc.symm.trans hstored))
  rw [h.counter] at hflags
  refine ⟨_, hsend, ⟨ls', use', hlent'⟩, ?_, congrArg (· + 1) h.accepted, h.received, ?_, ?_, ?_, ?_⟩
  · rw [hcounter, h.counter, u32_eq (by omega)]
  · intro q hq
    have hne : q ≠ qPos k := by
      rintro rfl
      omega
    rw [hflags, Function.update_of_ne hne]
    exact h.ahead q (by omega)
  · rw [hflags, Function.update_apply, h.first, ite_self]
  · rw [hreq]
    exact h.freeIndex
  · rw [hreq]
    exact hindex

theorem Filling.run (cb : Callback) (h : s.Filling k) (j : Nat) (hj : k + j ≤ 1024) :
    ∃ s', Machine.run (Service.step cb) s (List.replicate j (.send (.ofData []))) = some s' ∧
      s'.Filling (k + j) := by
  induction j generalizing s k with
  | zero => exact ⟨s, rfl, h⟩
  | succ j ih =>
    obtain ⟨t, ht, hfill⟩ := h.step cb (by omega)
    obtain ⟨s', hs', hfill'⟩ := ih hfill (by omega)
    refine ⟨s', ?_, ?_⟩
    · rw [List.replicate_succ, Machine.run_cons _ ht, hs']
    · rwa [Nat.add_assoc, Nat.add_comm 1 j] at hfill'

def headStart : List Label :=
  [.send (.ofData []), .send (.ofData []), .serveOnce, .serveOnce, .recv 1]

theorem filling_headStart : ∃ s,
    Machine.run (step .echo) (new 4096 128 (2 ^ 28)) headStart = some s ∧ s.Filling 2 := by
  have hrun : (Machine.run (step .echo) (new 4096 128 (2 ^ 28)) headStart).map (fun s =>
      (s.channel.counter, s.accepted, s.received, s.channel.allocator.req.freeIndex,
        s.channel.allocator.req.allocIndex)) = some (2, 2, [1], 0, 4) := by decide +kernel
  have hpositions : positions .echo (new 4096 128 (2 ^ 28)) headStart = [0, 1] := by
    decide +kernel
  obtain ⟨s, hs, hvals⟩ := Option.map_eq_some_iff.mp hrun
  simp only [Prod.mk.injEq] at hvals
  obtain ⟨hcounter, haccepted, hreceived, hfree, halloc⟩ := hvals
  obtain ⟨hsound, hgone⟩ := received_of_run hs
  have hb : DoubleAllocator.Admits 4096 128 (2 ^ 28) :=
    ⟨by decide, by decide, by decide, by decide⟩
  have hlent := (lent_of_run hb hs).2
  have hvacant := fun q => (placed_of_run hs).vacant_iff hsound hgone q
  simp only [hpositions, hreceived] at hvacant
  refine ⟨s, hs, hlent, hcounter, haccepted, hreceived, fun q hq => ?_, ?_, hfree, by omega⟩
  · rw [hvacant]
    rintro id p hp rfl
    match id, hp with
    | 0, hp =>
      obtain rfl : 0 = p := by simpa using hp
      cases hq
    | 1, _ => exact List.mem_singleton_self 1
  · by_contra hbusy
    have hzero := (hvacant (qPos 0)).mp (by simpa using hbusy) 0 0 rfl rfl
    cases List.mem_singleton.mp hzero

/-- The request in slot 0 is never received, and the one in slot 1 is; when the counter has
come round to slot 0, 1023 requests are left, and the next one is turned away. -/
theorem send_refused_beside_vacant : ∃ labels s,
    Machine.run (step .echo) (new 4096 128 (2 ^ 28)) labels = some s ∧
    s.outstanding.length < queueSize ∧ s.channel.CanStore (.ofData []) ∧
    ¬ s.channel.Accepts (.ofData []) := by
  obtain ⟨t, ht, hfill⟩ := filling_headStart
  obtain ⟨s, hs, hfull⟩ := hfill.run .echo 1022 (by decide)
  have hstore := hfull.canStore (by decide)
  refine ⟨headStart ++ List.replicate 1022 (.send (.ofData [])), s, ?_, ?_, hstore, ?_⟩
  · rw [Machine.run_append, ht, Option.bind_some, hs]
  · have hlt : s.outstanding.length < (List.range s.accepted).length := by
      apply List.length_filter_lt_length_iff_exists.mpr
      refine ⟨1, List.mem_range.mpr ?_, by simp [hfull.received]⟩
      rw [hfull.accepted]
      omega
    rw [List.length_range, hfull.accepted] at hlt
    unfold queueSize
    omega
  · rw [Channel.accepts_iff_vacant hstore, hfull.counter]
    have hbusy := hfull.first
    rw [show qPos 0 = qPos (2 + 1022) by decide] at hbusy
    simp [hbusy]

end Full

end Service

end Shadesmar.Rpc
