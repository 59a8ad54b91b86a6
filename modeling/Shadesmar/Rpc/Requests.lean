import Shadesmar.Rpc.Interleaving
import Shadesmar.Rpc.RequestMemory

namespace Shadesmar.Rpc.Interleaving

open Library Shadesmar.Memory

inductive Occupant (n : Nat)
  | vacant
  | writing (i : Fin n)
  | sent (r : Sent n)

variable {n : Nat}

namespace World

structure Occupies (s : World n) (occ : Fin queueSize → Occupant n) : Prop where
  windows : ∀ i q, (s.clients i).window = some q ↔ occ q = .writing i
  pending : ∀ r, r ∈ s.pending ↔ occ r.slot = .sent r
  slots : ∀ q r, occ q = .sent r → r.slot = q
  nodup : s.pending.Nodup
  flags : ∀ q, (s.channel.elem q).req.empty = true ↔ occ q = .vacant
  receives : ∀ i r, s.clients i = .receive r → r ∈ s.pending ∧ r.client = i

section Occupies

variable {s : World n} {occ : Fin queueSize → Occupant n} {i : Fin n} {pc : ClientPc n}
variable {c : Channel} {q : Fin queueSize} {r : Sent n}

theorem Occupies.same (h : s.Occupies occ) (hwindow : pc.window = (s.clients i).window)
    (hflags : ∀ q, (c.elem q).req.empty = (s.channel.elem q).req.empty)
    (hreceive : ∀ r, pc = .receive r → r ∈ s.pending ∧ r.client = i) :
    ((s.setChannel c).setClient i pc).Occupies occ := by
  obtain ⟨hw, hp, hs, hn, hf, hr⟩ := h
  constructor
  · grind [Function.update_apply]
  · exact hp
  · exact hs
  · exact hn
  · exact fun q => (hflags q).symm ▸ hf q
  · grind [Function.update_apply]

theorem Occupies.take (h : s.Occupies occ) (hnone : (s.clients i).window = none)
    (hvacant : occ q = .vacant) (hwindow : pc.window = some q)
    (hself : (c.elem q).req.empty = false)
    (hflags : ∀ q', q' ≠ q → (c.elem q').req.empty = (s.channel.elem q').req.empty) :
    ((s.setChannel c).setClient i pc).Occupies (Function.update occ q (.writing i)) := by
  obtain ⟨hw, hp, hs, hn, hf, hr⟩ := h
  constructor
  · grind [Function.update_apply]
  · grind [Function.update_apply]
  · grind [Function.update_apply]
  · exact hn
  · grind [Function.update_apply]
  · grind [Function.update_apply, ClientPc.window]

theorem Occupies.leave (h : s.Occupies occ) (hwindow : (s.clients i).window = some q)
    (hself : (c.elem q).req.empty = true)
    (hflags : ∀ q', q' ≠ q → (c.elem q').req.empty = (s.channel.elem q').req.empty) :
    ((s.setChannel c).setClient i .idle).Occupies (Function.update occ q .vacant) := by
  obtain ⟨hw, hp, hs, hn, hf, hr⟩ := h
  constructor
  · grind [Function.update_apply, ClientPc.window]
  · grind [Function.update_apply]
  · grind [Function.update_apply]
  · exact hn
  · grind [Function.update_apply]
  · grind [Function.update_apply]

theorem Occupies.publish (h : s.Occupies occ) (hwindow : (s.clients i).window = some r.slot)
    (hflags : ∀ q, (c.elem q).req.empty = (s.channel.elem q).req.empty)
    (accepted : List (Sent n)) :
    ({ s with channel := c, accepted := accepted, pending := s.pending ++ [r] }.setClient i
      .idle).Occupies (Function.update occ r.slot (.sent r)) := by
  obtain ⟨hw, hp, hs, hn, hf, hr⟩ := h
  constructor
  · grind [Function.update_apply, ClientPc.window]
  · grind [Function.update_apply]
  · grind [Function.update_apply]
  · grind
  · grind [Function.update_apply]
  · grind [Function.update_apply]

theorem Occupies.receive (h : s.Occupies occ) (hpc : s.clients i = .receive r)
    (hself : (c.elem r.slot).req.empty = true)
    (hflags : ∀ q', q' ≠ r.slot → (c.elem q').req.empty = (s.channel.elem q').req.empty)
    (received : List (Sent n × Memblock)) :
    ({ s with channel := c, pending := s.pending.erase r, received := received }.setClient i
      .idle).Occupies (Function.update occ r.slot .vacant) := by
  obtain ⟨hw, hp, hs, hn, hf, hr⟩ := h
  constructor
  · grind [Function.update_apply, ClientPc.window]
  · grind [Function.update_apply]
  · grind [Function.update_apply]
  · exact hn.erase r
  · grind [Function.update_apply]
  · grind [Function.update_apply]

end Occupies

end World

def ClientPc.Knows (half : Nat) (c : Channel) (use : Fin queueSize → Option Block) :
    ClientPc n → Prop
  | .checkMemory m => m.Filled
  | .readCounter m => m.Filled ∧ m.size ≤ half
  | .accept m _ => m.Filled ∧ m.size ≤ half
  | .alloc m _ => m.Filled ∧ m.size ≤ half
  | .copy m pos p => m.Filled ∧ ∃ b, use (qPos pos) = some b ∧ p = c.allocator.req.ptr b ∧
      m.size ≤ 4 * b.size
  | .setHandle m pos p => m.Filled ∧ ∃ b, use (qPos pos) = some b ∧ p = c.allocator.req.ptr b ∧
      c.allocator.req.Holds b m.bytes
  | .setSize m pos => m.Filled ∧ ∃ b, use (qPos pos) = some b ∧
      (c.elem (qPos pos)).req.addressHandle = b.handle ∧ c.allocator.req.Holds b m.bytes
  | _ => True

theorem ClientPc.Knows.keeps {half : Nat} {c c' : Channel} {use use' : Fin queueSize → Option Block}
    {pc : ClientPc n} (h : pc.Knows half c use)
    (hk : ∀ q, pc.window = some q → Keeps c c' use use' q) : pc.Knows half c' use' := by
  cases pc with
  | copy m pos p =>
    have hk := hk _ rfl
    obtain ⟨hm, b, hb, hp, hlen⟩ := h
    exact ⟨hm, b, hk.used.trans hb, by rw [hp, Allocator.ptr, Allocator.ptr, hk.base], hlen⟩
  | setHandle m pos p =>
    have hk := hk _ rfl
    obtain ⟨hm, b, hb, hp, hholds⟩ := h
    exact ⟨hm, b, hk.used.trans hb, by rw [hp, Allocator.ptr, Allocator.ptr, hk.base],
      hk.holds b hb _ hholds⟩
  | setSize m pos =>
    have hk := hk _ rfl
    obtain ⟨hm, b, hb, helem, hholds⟩ := h
    exact ⟨hm, b, hk.used.trans hb, by rw [hk.req, helem], hk.holds b hb _ hholds⟩
  | _ => exact h

namespace World

structure Requests (half : Nat) (s : World n) (occ : Fin queueSize → Occupant n)
    (bs : List Block) (use : Fin queueSize → Option Block) : Prop where
  occupies : s.Occupies occ
  stores : Stores half s.channel bs use
  knows : ∀ i, (s.clients i).Knows half s.channel use
  stored : ∀ r, r ∈ s.pending → Stored s.channel use r.slot r.bytes

section Requests

variable {half : Nat} {s s' : World n} {occ occ' : Fin queueSize → Occupant n}
variable {bs bs' : List Block} {use use' : Fin queueSize → Option Block}
variable {i : Fin n} {pc : ClientPc n} {c : Channel} {q : Fin queueSize}

theorem Requests.at_slot (h : s.Requests half occ bs use) (hocc : s'.Occupies occ')
    (hstores : Stores half s'.channel bs' use')
    (hclients : ∀ j, j ≠ i → s'.clients j = s.clients j) (hq : ∀ j, j ≠ i → occ q ≠ .writing j)
    (hsame : ∀ q', q' ≠ q → occ' q' = occ q')
    (hkeeps : ∀ q', q' ≠ q → Keeps s.channel s'.channel use use' q')
    (hknows : (s'.clients i).Knows half s'.channel use')
    (hstored : ∀ r, r ∈ s'.pending → r.slot = q → Stored s'.channel use' r.slot r.bytes) :
    s'.Requests half occ' bs' use' := by
  refine ⟨hocc, hstores, ?_, ?_⟩
  · intro j
    by_cases hj : j = i
    · rw [hj]
      exact hknows
    · rw [hclients j hj]
      refine (h.knows j).keeps fun q' hw => hkeeps q' ?_
      rintro rfl
      exact hq j hj ((h.occupies.windows j q').mp hw)
  · intro r hr
    by_cases hslot : r.slot = q
    · exact hstored r hr hslot
    · have hold : occ r.slot = .sent r := (hsame _ hslot) ▸ (hocc.pending r).mp hr
      exact (h.stored r ((h.occupies.pending r).mpr hold)).keeps (hkeeps _ hslot)

theorem Requests.setClient (h : s.Requests half occ bs use)
    (hwindow : pc.window = (s.clients i).window)
    (hreceive : ∀ r, pc = .receive r → r ∈ s.pending ∧ r.client = i)
    (hknows : pc.Knows half s.channel use) : (s.setClient i pc).Requests half occ bs use := by
  refine ⟨h.occupies.same (c := s.channel) hwindow (fun _ => rfl) hreceive, h.stores, ?_, h.stored⟩
  intro j
  by_cases hj : j = i
  · simpa [hj] using hknows
  · simpa [hj] using h.knows j

theorem Requests.claimed (h : s.Requests half occ bs use) (hi : (s.clients i).window = some q) :
    (∀ j, j ≠ i → occ q ≠ .writing j) ∧ ∀ r ∈ s.pending, r.slot ≠ q := by
  have hocc : occ q = .writing i := (h.occupies.windows i q).mp hi
  refine ⟨fun j hj heq => ?_, fun r hr hslot => ?_⟩
  · rw [hocc] at heq
    exact hj (Occupant.writing.inj heq).symm
  · have hsent := (h.occupies.pending r).mp hr
    rw [hslot, hocc] at hsent
    cases hsent

theorem Requests.inside (h : s.Requests half occ bs use) (hi : (s.clients i).window = some q)
    (hpc : pc.window = some q) (hstores : Stores half c bs' use')
    (hflags : ∀ q, (c.elem q).req.empty = (s.channel.elem q).req.empty)
    (hkeeps : ∀ q', q' ≠ q → Keeps s.channel c use use' q')
    (hknows : pc.Knows half c use') :
    ((s.setChannel c).setClient i pc).Requests half occ bs' use' := by
  obtain ⟨hwriters, hfree⟩ := h.claimed hi
  have hreceive : ∀ r, pc = .receive r → r ∈ s.pending ∧ r.client = i := by
    rintro r rfl
    cases hpc
  refine h.at_slot (i := i) (q := q) (h.occupies.same (hpc.trans hi.symm) hflags hreceive)
    hstores ?_ hwriters (fun _ _ => rfl) hkeeps ?_ fun r hr hslot => absurd hslot (hfree r hr)
  · intro j hj
    simp [hj]
  · simpa using hknows

theorem Requests.setReq (h : s.Requests half occ bs use) (hi : (s.clients i).window = some q)
    (hpc : pc.window = some q) {e : Element} (he : e.empty = (s.channel.elem q).req.empty)
    (hknows : pc.Knows half (s.channel.setReq q e) use) :
    ((s.setChannel (s.channel.setReq q e)).setClient i pc).Requests half occ bs use := by
  refine h.inside hi hpc (h.stores.setReq q e) ?_ (fun q' hq => Stores.keeps_setReq hq e) hknows
  intro q'
  by_cases hq : q' = q
  · subst hq
    rw [Channel.elem_setReq_self, he]
  · rw [Channel.elem_setReq_ne _ _ _ hq]

theorem Requests.take (h : s.Requests half occ bs use) {m : Memblock} {pos : Nat}
    (hpc : s.clients i = .accept m pos)
    (hempty : (s.channel.elem (qPos pos)).req.empty = true) :
    ((s.setChannel (s.channel.incCounter.setReq (qPos pos)
      { (s.channel.elem (qPos pos)).req with empty := false })).setClient i
        (.alloc m pos)).Requests half (Function.update occ (qPos pos) (.writing i)) bs use := by
  have hvacant := (h.occupies.flags _).mp hempty
  have hnone : (s.clients i).window = none := by rw [hpc]; rfl
  have hother : ∀ q', q' ≠ qPos pos → ((s.channel.incCounter.setReq (qPos pos)
      { (s.channel.elem (qPos pos)).req with empty := false }).elem q').req =
        (s.channel.elem q').req := by
    intro q' hq
    simp [Channel.elem_setReq_ne, hq]
  have hoccupies : ((s.setChannel (s.channel.incCounter.setReq (qPos pos)
      { (s.channel.elem (qPos pos)).req with empty := false })).setClient i
        (.alloc m pos)).Occupies (Function.update occ (qPos pos) (.writing i)) :=
    h.occupies.take hnone hvacant rfl (by simp) fun q' hq => by rw [hother q' hq]
  refine h.at_slot (i := i) (q := qPos pos) hoccupies
    ⟨h.stores.ring, h.stores.size, h.stores.used, h.stores.inj⟩ ?_ ?_ ?_ ?_ ?_ ?_
  · intro j hj
    simp [hj]
  · intro j _ heq
    rw [hvacant] at heq
    cases heq
  · intro q' hq
    exact Function.update_of_ne hq ..
  · exact fun q' hq => ⟨hother q' hq, rfl, rfl, fun _ _ _ hb => hb⟩
  · have hknows := h.knows i
    rw [hpc] at hknows
    rw [clients_setClient, if_pos rfl]
    exact hknows
  · intro r hr hslot
    have hsent := (h.occupies.pending r).mp hr
    rw [hslot, hvacant] at hsent
    cases hsent

theorem Requests.leave (h : s.Requests half occ bs use) (hi : (s.clients i).window = some q) :
    ((s.setChannel (s.channel.setReqEmpty q)).setClient i .idle).Requests half
      (Function.update occ q .vacant) bs use := by
  obtain ⟨hwriters, hfree⟩ := h.claimed hi
  refine h.at_slot (i := i) (q := q)
    (h.occupies.leave hi (by simp [Channel.setReqEmpty]) ?_) (h.stores.setReq _ _) ?_ hwriters ?_
    (fun q' hq => Stores.keeps_setReq hq _) ?_ fun r hr hslot => absurd hslot (hfree r hr)
  · intro q' hq
    simp [Channel.setReqEmpty, Channel.elem_setReq_ne, hq]
  · intro j hj
    simp [hj]
  · intro q' hq
    exact Function.update_of_ne hq ..
  · rw [clients_setClient, if_pos rfl]
    trivial

theorem Requests.publish (h : s.Requests half occ bs use) {m : Memblock} {pos : Nat}
    (hpc : s.clients i = .setSize m pos) :
    ({ s with
      channel := s.channel.setReqSize (qPos pos) m.size
      accepted := s.accepted ++ [(⟨i, pos, m.bytes⟩ : Sent n)]
      pending := s.pending ++ [(⟨i, pos, m.bytes⟩ : Sent n)] }.setClient i .idle).Requests half
        (Function.update occ (qPos pos) (.sent ⟨i, pos, m.bytes⟩)) bs use := by
  have hi : (s.clients i).window = some (qPos pos) := by rw [hpc]; rfl
  obtain ⟨hwriters, hfree⟩ := h.claimed hi
  have hbusy : (s.channel.elem (qPos pos)).req.empty = false := by
    rw [← Bool.not_eq_true, h.occupies.flags, (h.occupies.windows i _).mp hi]
    nofun
  have hflags : ∀ q, ((s.channel.setReqSize (qPos pos) m.size).elem q).req.empty =
      (s.channel.elem q).req.empty := by
    intro q
    by_cases hq : q = qPos pos
    · rw [hq]
      simp [Channel.setReqSize]
    · simp [Channel.setReqSize, Channel.elem_setReq_ne, hq]
  have hknows := h.knows i
  rw [hpc] at hknows
  obtain ⟨hm, b, hb, hhandle, hholds⟩ := hknows
  refine h.at_slot (i := i) (q := qPos pos)
    (h.occupies.publish (r := ⟨i, pos, m.bytes⟩) hi hflags _) (h.stores.setReq _ _) ?_ hwriters ?_
    (fun q' hq => Stores.keeps_setReq hq _) ?_ ?_
  · intro j hj
    simp [hj]
  · intro q' hq
    exact Function.update_of_ne hq ..
  · rw [clients_setClient, if_pos rfl]
    trivial
  · intro r hr hslot
    rcases List.mem_append.mp hr with hold | hnew
    · exact absurd hslot (hfree r hold)
    · obtain rfl := List.mem_singleton.mp hnew
      refine ⟨b, hb, ?_, hholds⟩
      have hlen : m.bytes.length = m.size := hm
      simp [Sent.slot, Channel.setReqSize, hbusy, hhandle, hlen]

theorem Requests.receive (h : s.Requests half occ bs use) {r : Sent n}
    (hpc : s.clients i = .receive r) (hstores : Stores half c bs' use')
    (hempty : (c.elem r.slot).req.empty = true)
    (hkeeps : ∀ q', q' ≠ r.slot → Keeps s.channel c use use' q')
    (received : List (Sent n × Memblock)) :
    ({ s with channel := c, pending := s.pending.erase r, received := received }.setClient i
      .idle).Requests half (Function.update occ r.slot .vacant) bs' use' := by
  have hpending := (h.occupies.receives i r hpc).1
  have hocc : occ r.slot = .sent r := (h.occupies.pending r).mp hpending
  refine h.at_slot (i := i) (q := r.slot) (h.occupies.receive hpc hempty ?_ _) hstores ?_ ?_ ?_
    hkeeps ?_ ?_
  · intro q' hq
    rw [(hkeeps q' hq).req]
  · intro j hj
    simp [hj]
  · intro j _ heq
    rw [hocc] at heq
    cases heq
  · intro q' hq
    exact Function.update_of_ne hq ..
  · rw [clients_setClient, if_pos rfl]
    trivial
  · intro r' hr' hslot
    have hmem : r' ∈ s.pending.erase r := hr'
    have hsent := (h.occupies.pending r').mp (List.mem_of_mem_erase hmem)
    rw [hslot, hocc] at hsent
    obtain rfl := Occupant.sent.inj hsent
    exact absurd rfl (h.occupies.nodup.mem_erase_iff.mp hmem).1

inductive Effect (s : World n) (i : Fin n) : World n → Prop
  | quiet {c : Channel} {pc : ClientPc n} : c.allocator.resp = s.channel.allocator.resp →
      (∀ q, (c.elem q).resp = (s.channel.elem q).resp) →
      Effect s i ((s.setChannel c).setClient i pc)
  | publish {c : Channel} {r : Sent n} : (∀ r' ∈ s.pending, r'.slot ≠ r.slot) →
      c.allocator.resp = s.channel.allocator.resp →
      (∀ q, (c.elem q).resp = (s.channel.elem q).resp) →
      Effect s i ({ s with
        channel := c
        accepted := s.accepted ++ [r]
        pending := s.pending ++ [r] }.setClient i .idle)
  | receive {c : Channel} {r : Sent n} {got : List (Sent n × Memblock)} :
      s.clients i = .receive r → r ∈ s.pending →
      (s.channel.elem r.slot).resp.empty = false →
      c.allocator.resp = s.channel.allocator.resp → (c.elem r.slot).resp.empty = true →
      (∀ q, q ≠ r.slot → (c.elem q).resp = (s.channel.elem q).resp) →
      (∀ r' m, (r', m) ∈ got → r' = r ∧ (s.channel.elem r.slot).resp.addressHandle ≠ 0 ∧
        m.bytes = s.channel.allocator.resp.load (s.channel.allocator.resp.handleToPtr
          (s.channel.elem r.slot).resp.addressHandle) (s.channel.elem r.slot).resp.size ∧
        m.size = (s.channel.elem r.slot).resp.size) →
      Effect s i ({ s with
        channel := c
        pending := s.pending.erase r
        received := s.received ++ got }.setClient i .idle)

theorem Requests.stepClient (hhalf : half + 1 < 2 ^ 32) (h : s.Requests half occ bs use)
    (hs : s.stepClient i = some s') :
    (∃ occ' bs' use', s'.Requests half occ' bs' use') ∧ s.Effect i s' := by
  have hknows := h.knows i
  unfold World.stepClient at hs
  cases hpc : s.clients i with
  | idle => simp [hpc] at hs
  | aborted => simp [hpc] at hs
  | checkMemory m =>
    rw [hpc] at hs hknows
    have hle := h.stores.ring.getFreeMemory_le
    have hsize := h.stores.size
    dsimp only at hs
    split_ifs at hs with hroom <;> obtain rfl := Option.some.inj hs
    · refine ⟨⟨occ, bs, use, h.setClient (by rw [hpc]; rfl) (by rintro _ ⟨⟩) trivial⟩, ?_⟩
      exact .quiet (c := s.channel) rfl fun _ => rfl
    · refine ⟨⟨occ, bs, use, ?_⟩, ?_⟩
      · exact h.setClient (by rw [hpc]; rfl) (by rintro _ ⟨⟩) ⟨hknows, by omega⟩
      · exact .quiet (c := s.channel) rfl fun _ => rfl
  | readCounter m =>
    rw [hpc] at hs hknows
    obtain rfl := Option.some.inj hs
    refine ⟨⟨occ, bs, use, h.setClient (by rw [hpc]; rfl) (by rintro _ ⟨⟩) hknows⟩, ?_⟩
    exact .quiet (c := s.channel) rfl fun _ => rfl
  | accept m pos =>
    rw [hpc] at hs hknows
    dsimp only at hs
    unfold Channel.accept at hs
    by_cases hempty : (s.channel.elem (qPos pos)).req.empty = true
    · rw [if_pos hempty] at hs
      obtain rfl := Option.some.inj hs
      exact ⟨⟨_, bs, use, h.take hpc hempty⟩, .quiet rfl fun q => by simp⟩
    · rw [if_neg hempty] at hs
      obtain rfl := Option.some.inj hs
      refine ⟨⟨occ, bs, use, h.setClient (by rw [hpc]; rfl) (by rintro _ ⟨⟩) trivial⟩, ?_⟩
      exact .quiet (c := s.channel) rfl fun _ => rfl
  | alloc m pos =>
    rw [hpc] at hs hknows
    obtain ⟨hm, hsize⟩ := hknows
    have hwin : (s.clients i).window = some (qPos pos) := by rw [hpc]; rfl
    rcases h.stores.alloc hhalf hsize (qPos pos) with hnone | ⟨b, c, hsome, hle, hqueue, hresp,
        hstores, hkeeps⟩
    · simp only [hnone] at hs
      obtain rfl := Option.some.inj hs
      refine ⟨⟨occ, bs, use, h.setClient (by rw [hpc]; rfl) (by rintro _ ⟨⟩) trivial⟩, ?_⟩
      exact .quiet (c := s.channel) rfl fun _ => rfl
    · simp only [hsome] at hs
      obtain rfl := Option.some.inj hs
      have helem : ∀ q, c.elem q = s.channel.elem q := by
        intro q
        simp only [Channel.elem, hqueue]
      refine ⟨⟨occ, _, _, h.inside hwin rfl hstores (fun q => by rw [helem q]) hkeeps
        ⟨hm, b, Function.update_self .., rfl, hle⟩⟩, ?_⟩
      exact .quiet hresp fun q => by rw [helem q]
  | resetSize pos =>
    rw [hpc] at hs
    obtain rfl := Option.some.inj hs
    have hwin : (s.clients i).window = some (qPos pos) := by rw [hpc]; rfl
    exact ⟨⟨occ, bs, use, h.setReq hwin rfl rfl trivial⟩, .quiet rfl fun q => by simp⟩
  | resetHandle pos =>
    rw [hpc] at hs
    obtain rfl := Option.some.inj hs
    have hwin : (s.clients i).window = some (qPos pos) := by rw [hpc]; rfl
    exact ⟨⟨occ, bs, use, h.setReq hwin rfl rfl trivial⟩, .quiet rfl fun q => by simp⟩
  | resetEmpty pos =>
    rw [hpc] at hs
    obtain rfl := Option.some.inj hs
    have hwin : (s.clients i).window = some (qPos pos) := by rw [hpc]; rfl
    exact ⟨⟨_, bs, use, h.leave hwin⟩, .quiet rfl fun q => by simp⟩
  | copy m pos p =>
    rw [hpc] at hs hknows
    obtain rfl := Option.some.inj hs
    have hwin : (s.clients i).window = some (qPos pos) := by rw [hpc]; rfl
    obtain ⟨hm, b, hb, rfl, hle⟩ := hknows
    have hlen : m.bytes.length ≤ 4 * b.size := by
      rw [hm]
      exact hle
    obtain ⟨hstores, hholds, hkeeps⟩ := h.stores.store hb hlen
    exact ⟨⟨occ, bs, use, h.inside hwin rfl hstores (fun _ => rfl) hkeeps ⟨hm, b, hb, rfl, hholds⟩⟩,
      .quiet rfl fun _ => rfl⟩
  | setHandle m pos p =>
    rw [hpc] at hs hknows
    obtain rfl := Option.some.inj hs
    have hwin : (s.clients i).window = some (qPos pos) := by rw [hpc]; rfl
    obtain ⟨hm, b, hb, rfl, hholds⟩ := hknows
    refine ⟨⟨occ, bs, use, h.setReq hwin rfl rfl ⟨hm, b, hb, ?_, hholds⟩⟩,
      .quiet rfl fun q => by simp⟩
    simp
  | setSize m pos =>
    rw [hpc] at hs
    obtain rfl := Option.some.inj hs
    have hwin : (s.clients i).window = some (qPos pos) := by rw [hpc]; rfl
    refine ⟨⟨_, bs, use, h.publish hpc⟩, .publish ?_ rfl fun q => by simp⟩
    exact (h.claimed hwin).2
  | receive r =>
    rw [hpc] at hs
    dsimp only at hs
    split_ifs at hs with hempty
    have hpending := (h.occupies.receives i r hpc).1
    obtain ⟨a, bs', hclean, hstores, hkeeps⟩ := h.stores.cleanUp (h.stored r hpending)
    have hfresh : ((s.channel.setReqAllocator a).resetElem r.slot).elem r.slot = .fresh := by
      simp [Channel.resetElem, ChannelElem.fresh]
    have hresp : ∀ q, q ≠ r.slot → (((s.channel.setReqAllocator a).resetElem r.slot).elem q).resp =
        (s.channel.elem q).resp := by
      intro q hq
      simp [Channel.resetElem, Channel.elem_setResp_ne, hq]
    have hsafe := fun received =>
      h.receive hpc hstores (by rw [hfresh]; rfl) hkeeps received
    rw [Channel.receive_eq hclean] at hs
    by_cases hhandle : (s.channel.elem r.slot).resp.addressHandle = 0
    · rw [if_pos hhandle] at hs
      obtain rfl := Option.some.inj hs
      refine ⟨⟨_, bs', _, hsafe _⟩, ?_⟩
      have heffect : s.Effect i ({ s with
          channel := (s.channel.setReqAllocator a).resetElem r.slot
          pending := s.pending.erase r
          received := s.received ++ [] }.setClient i .idle) :=
        .receive hpc hpending (by simpa using hempty) rfl (by rw [hfresh]; rfl) hresp
          (by rintro _ _ ⟨⟩)
      simpa using heffect
    · rw [if_neg hhandle] at hs
      obtain rfl := Option.some.inj hs
      refine ⟨⟨_, bs', _, hsafe _⟩, ?_⟩
      refine .receive hpc hpending (by simpa using hempty) rfl (by rw [hfresh]; rfl) hresp ?_
      intro r' m hmem
      obtain ⟨rfl, rfl⟩ := Prod.mk.inj (List.mem_singleton.mp hmem)
      refine ⟨rfl, hhandle, ?_, rfl⟩
      simp [Memblock.bytes, Allocator.load]

theorem Requests.startSend (h : s.Requests half occ bs use) {m : Memblock}
    (hs : s.startSend i m = some s') : s'.Requests half occ bs use ∧ s.Effect i s' := by
  unfold World.startSend at hs
  split_ifs at hs with hstart
  obtain rfl := Option.some.inj hs
  refine ⟨h.setClient (by rw [hstart.1]; rfl) nofun hstart.2, ?_⟩
  exact .quiet (c := s.channel) rfl fun _ => rfl

theorem Requests.startRecv (h : s.Requests half occ bs use) {r : Sent n}
    (hs : s.startRecv i r = some s') : s'.Requests half occ bs use ∧ s.Effect i s' := by
  unfold World.startRecv at hs
  split_ifs at hs with hstart
  obtain rfl := Option.some.inj hs
  refine ⟨h.setClient (by rw [hstart.1]; rfl) ?_ trivial, .quiet (c := s.channel) rfl fun _ => rfl⟩
  intro r' heq
  obtain rfl := ClientPc.receive.inj heq
  exact hstart.2

theorem Requests.server (h : s.Requests half occ bs use)
    (hclients : s'.clients = s.clients) (hpending : s'.pending = s.pending)
    (helem : ∀ q, (s'.channel.elem q).req = (s.channel.elem q).req)
    (halloc : s'.channel.allocator.req = s.channel.allocator.req) :
    s'.Requests half occ bs use := by
  have hkeeps : ∀ q, Keeps s.channel s'.channel use use q := by
    intro q
    refine ⟨helem q, rfl, by rw [halloc], fun b _ data hb => ?_⟩
    rw [halloc]
    exact hb
  obtain ⟨⟨hw, hp, hsl, hn, hf, hr⟩, ⟨hring, hsize, hused, hinj⟩, hknows, hstored⟩ := h
  refine ⟨⟨?_, ?_, hsl, ?_, ?_, ?_⟩, ⟨?_, ?_, hused, hinj⟩, ?_, ?_⟩
  · rw [hclients]
    exact hw
  · rw [hpending]
    exact hp
  · rw [hpending]
    exact hn
  · intro q
    rw [helem q]
    exact hf q
  · rw [hclients, hpending]
    exact hr
  · rw [halloc]
    exact hring
  · rw [halloc]
    exact hsize
  · intro i
    rw [hclients]
    exact (hknows i).keeps fun q _ => hkeeps q
  · intro r hr
    rw [hpending] at hr
    exact (hstored r hr).keeps (hkeeps _)

end Requests

theorem requests_new {heapBase stride bufferSize : Nat}
    (hb : DoubleAllocator.Admits heapBase stride bufferSize) :
    (new heapBase stride bufferSize : World n).Requests (bufferSize / 2) (fun _ => .vacant) []
      fun _ => none := by
  refine ⟨⟨?_, ?_, nofun, List.nodup_nil, ?_, nofun⟩, ⟨Allocator.ring_new hb.req, rfl, nofun, nofun⟩,
    fun _ => trivial, nofun⟩
  · exact fun _ _ => ⟨nofun, nofun⟩
  · exact fun _ => ⟨nofun, nofun⟩
  · exact fun _ => ⟨fun _ => rfl, fun _ => rfl⟩

end World

end Shadesmar.Rpc.Interleaving
