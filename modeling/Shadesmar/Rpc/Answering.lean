import Shadesmar.Library.Cyclic
import Shadesmar.Library.Progress
import Shadesmar.Rpc.Responses
import Shadesmar.Rpc.Waiting

namespace Shadesmar.Rpc.Interleaving

open Library Library.Progress Shadesmar.Memory

variable {n : Nat}

def ServerPc.left : ServerPc → Nat
  | .fetchAdd => 0
  | .readServer _ => 6
  | .callback _ _ => 5
  | .checkMemory _ _ => 4
  | .alloc _ _ => 3
  | .copy _ _ _ => 2
  | .publish _ _ _ => 1
  | .signalError _ => 1
  | .aborted => 0

def ServerPc.slot (pc : ServerPc) : Option (Fin queueSize) := pc.reading <|> pc.serving

theorem ServerPc.left_pos {pc : ServerPc} {q : Fin queueSize} (h : pc.slot = some q) :
    0 < pc.left := by
  cases pc with
  | fetchAdd | aborted => cases h
  | _ => simp [left]

def ServerPc.Fits (half : Nat) (a : Allocator) (bs : List Block) : ServerPc → Prop
  | .checkMemory _ resp => resp.Filled
  | .alloc _ resp => resp.Filled ∧ resp.size ≤ half
  | .copy _ resp respAddress => ∃ b ∈ bs, respAddress = a.ptr b ∧ resp.bytes.length ≤ 4 * b.size
  | .aborted => False
  | _ => True

namespace World

def due (s : World n) (q : Fin queueSize) : Nat :=
  if s.server.slot = some q then s.server.left
  else s.server.left + 7 * (Cyclic.steps queueSize (qPos s.pos).val q.val + 1)

structure Ready (half : Nat) (s : World n) (bs : List Block) : Prop where
  ring : s.channel.allocator.resp.Ring bs
  size : s.channel.allocator.resp.size = half
  fits : s.server.Fits half s.channel.allocator.resp bs

variable {cb : Callback} {half : Nat} {s s' : World n} {bs : List Block} {q : Fin queueSize}
variable {i : Fin n}

theorem due_pos (s : World n) (q : Fin queueSize) : 0 < s.due q := by
  unfold due
  split_ifs with hslot
  · exact ServerPc.left_pos hslot
  · omega

theorem due_le (s : World n) (q : Fin queueSize) : s.due q ≤ 7174 := by
  have hsteps := Cyclic.steps_lt (qPos s.pos).isLt q.isLt
  have hleft : s.server.left ≤ 6 := by cases s.server <;> simp [ServerPc.left]
  unfold due queueSize at *
  split_ifs <;> omega

theorem steps_succ {pos : Nat} (h : qPos pos ≠ q) :
    Cyclic.steps queueSize (qPos pos).val q.val =
      Cyclic.steps queueSize (qPos (u32 (pos + 1))).val q.val + 1 := by
  have hq := q.isLt
  rw [Ne, Fin.ext_iff, qPos_val] at h
  rw [qPos_u32, qPos_val, qPos_val]
  unfold Cyclic.steps queueSize at *
  split_ifs <;> omega

theorem due_lt_of_slot (hpos : s'.pos = s.pos) (hslot : s'.server.slot = s.server.slot)
    (hleft : s'.server.left < s.server.left) : s'.due q < s.due q := by
  unfold due
  rw [hpos, hslot]
  split_ifs <;> omega

theorem due_lt_of_fetchAdd (hpos : s'.pos = s.pos) (hslot : s.server.slot ≠ some q)
    (hnext : s'.server = .fetchAdd) (hleft : 0 < s.server.left) : s'.due q < s.due q := by
  unfold due
  have hidle : ServerPc.fetchAdd.left = 0 := rfl
  have hnone : ServerPc.fetchAdd.slot ≠ some q := nofun
  rw [hpos, hnext, if_neg hslot, if_neg hnone, hidle]
  omega

theorem Ready.setServer (h : s.Ready half bs) {pc : ServerPc}
    (hfits : pc.Fits half s.channel.allocator.resp bs) : (s.setServer pc).Ready half bs :=
  ⟨h.ring, h.size, hfits⟩

/-- The server is never blocked, and what it does concerns the responses alone. -/
theorem Ready.stepServer (hhalf : half + 1 < 2 ^ 32) (h : s.Ready half bs) (cb : Callback) :
    ∃ s', s.stepServer cb = some s' ∧ (∃ bs', s'.Ready half bs') ∧
      (∀ q, (s'.channel.elem q).req = (s.channel.elem q).req) ∧
      s'.channel.allocator.req = s.channel.allocator.req := by
  have hfits := h.fits
  unfold World.stepServer
  cases hpc : s.server with
  | aborted =>
    rw [hpc] at hfits
    exact hfits.elim
  | fetchAdd =>
    exact ⟨_, rfl, ⟨bs, h.ring, h.size, trivial⟩, fun _ => rfl, rfl⟩
  | readServer pos =>
    dsimp only
    cases s.channel.readServer pos with
    | none => exact ⟨_, rfl, ⟨bs, h.setServer trivial⟩, fun _ => rfl, rfl⟩
    | some req => exact ⟨_, rfl, ⟨bs, h.setServer trivial⟩, fun _ => rfl, rfl⟩
  | callback pos req =>
    exact ⟨_, rfl, ⟨bs, h.ring, h.size, cb.filled_answer req⟩, fun _ => rfl, rfl⟩
  | checkMemory pos resp =>
    rw [hpc] at hfits
    have hle := h.ring.getFreeMemory_le
    have hsize := h.size
    dsimp only
    split_ifs with hroom
    · exact ⟨_, rfl, ⟨bs, h.setServer trivial⟩, fun _ => rfl, rfl⟩
    · exact ⟨_, rfl, ⟨bs, h.setServer ⟨hfits, by omega⟩⟩, fun _ => rfl, rfl⟩
  | alloc pos resp =>
    rw [hpc] at hfits
    obtain ⟨hfilled, hlen⟩ := hfits
    dsimp only
    unfold Channel.allocResp
    rw [u32_eq (by omega)]
    rcases h.ring.alloc resp.size with hnone | ⟨b, hsome, hring, -, hlays⟩
    · rw [hnone]
      exact ⟨_, rfl, ⟨bs, h.setServer trivial⟩, fun _ => rfl, rfl⟩
    · rw [hsome]
      have hroom := (hlays (by omega)).room
      have hbytes : resp.bytes.length = resp.size := hfilled
      exact ⟨_, rfl, ⟨bs ++ [b], hring, h.size, b, List.mem_append_right _ (List.mem_singleton_self b),
        rfl, by omega⟩, fun _ => rfl, rfl⟩
  | copy pos resp respAddress =>
    rw [hpc] at hfits
    obtain ⟨b, hb, rfl, hlen⟩ := hfits
    exact ⟨_, rfl, ⟨bs, h.ring.store hb hlen, h.size, trivial⟩, fun _ => rfl, rfl⟩
  | publish pos resp respAddress =>
    exact ⟨_, rfl, ⟨bs, h.ring, h.size, trivial⟩, fun q => by simp [Channel.respond], rfl⟩
  | signalError pos =>
    exact ⟨_, rfl, ⟨bs, h.ring, h.size, trivial⟩, fun q => by simp [Channel.signalError], rfl⟩

theorem stepServer_due (hs : s.stepServer cb = some s') (hgo : s'.server ≠ .aborted)
    (hbusy : s.channel.vacant q = false) :
    s'.channel.unanswered q = false ∨ s'.due q < s.due q := by
  unfold World.stepServer at hs
  cases hpc : s.server with
  | aborted => simp [hpc] at hs
  | fetchAdd =>
    rw [hpc] at hs
    obtain rfl := Option.some.inj hs
    refine .inr ?_
    by_cases hq : qPos s.pos = q
    · simp [due, hpc, ServerPc.slot, ServerPc.reading, ServerPc.serving, ServerPc.left, setServer, hq]
    · have hsteps := steps_succ hq
      simp [due, hpc, ServerPc.slot, ServerPc.reading, ServerPc.serving, ServerPc.left, setServer, hq]
      omega
  | readServer pos =>
    rw [hpc] at hs
    dsimp only at hs
    refine .inr ?_
    cases hread : s.channel.readServer pos with
    | none =>
      rw [hread] at hs
      obtain rfl := Option.some.inj hs
      refine due_lt_of_fetchAdd rfl ?_ rfl (by simp [hpc, ServerPc.left])
      rw [hpc]
      intro hslot
      obtain rfl := Option.some.inj hslot
      have hempty : (s.channel.elem (qPos pos)).req.empty = false := hbusy
      simp [Channel.readServer, hempty] at hread
    | some req =>
      rw [hread] at hs
      obtain rfl := Option.some.inj hs
      exact due_lt_of_slot rfl (by rw [hpc]; rfl) (by simp [hpc, ServerPc.left, setServer])
  | callback pos req | copy pos resp respAddress =>
    rw [hpc] at hs
    obtain rfl := Option.some.inj hs
    exact .inr (due_lt_of_slot rfl (by rw [hpc]; rfl) (by simp [hpc, ServerPc.left, setServer]))
  | checkMemory pos resp =>
    rw [hpc] at hs
    dsimp only at hs
    split_ifs at hs <;> obtain rfl := Option.some.inj hs <;>
      exact .inr (due_lt_of_slot rfl (by rw [hpc]; rfl) (by simp [hpc, ServerPc.left, setServer]))
  | alloc pos resp =>
    rw [hpc] at hs
    dsimp only at hs
    cases halloc : s.channel.allocResp resp.size with
    | error e =>
      rw [halloc] at hs
      obtain rfl := Option.some.inj hs
      exact absurd rfl hgo
    | ok pc =>
      obtain ⟨p, c⟩ := pc
      rw [halloc] at hs
      cases p <;> obtain rfl := Option.some.inj hs <;>
        exact .inr (due_lt_of_slot rfl (by rw [hpc]; rfl) (by simp [hpc, ServerPc.left, setServer]))
  | publish pos resp respAddress | signalError pos =>
    rw [hpc] at hs
    obtain rfl := Option.some.inj hs
    by_cases hq : qPos pos = q
    · exact .inl (by simp [Channel.respond, Channel.signalError, hq])
    · refine .inr (due_lt_of_fetchAdd rfl ?_ rfl (by simp [hpc, ServerPc.left]))
      rw [hpc]
      exact fun hslot => hq (Option.some.inj hslot)

def waiting (s : World n) (q : Fin queueSize) : Nat :=
  if s.channel.unanswered q then s.due q else 0

theorem waiting_congr (hpos : s'.pos = s.pos) (hserver : s'.server = s.server)
    (hresp : (s'.channel.elem q).resp = (s.channel.elem q).resp) : s'.waiting q = s.waiting q := by
  unfold waiting due Channel.unanswered
  rw [hpos, hserver, hresp]

theorem unanswered_of_waiting (h : s.waiting q = 0) : s.channel.unanswered q = false := by
  by_contra hnew
  have hpos := s.due_pos q
  rw [waiting, if_pos (by simpa using hnew)] at h
  omega

section Clients

variable {occ : Fin queueSize → Occupant n} {bs' : List Block} {use : Fin queueSize → Option Block}
variable {j : Fin n} {r : Sent n}

theorem Requests.returns (h : s.Requests half occ bs' use) (hi : s.clients i = .receive r)
    (hfull : s.channel.unanswered r.slot = false) :
    ∃ s', s.stepClient i = some s' ∧ s'.clients i = .idle := by
  obtain ⟨a, bs'', hclean, -⟩ := h.stores.cleanUp (h.stored r (h.occupies.receives i r hi).1)
  have hempty : ¬ (s.channel.elem r.slot).resp.empty = true := by
    change ¬ s.channel.unanswered r.slot = true
    simp [hfull]
  unfold World.stepClient
  simp only [hi]
  rw [if_neg hempty, Channel.receive_eq hclean]
  by_cases hhandle : (s.channel.elem r.slot).resp.addressHandle = 0
  · rw [if_pos hhandle]
    exact ⟨_, rfl, by simp⟩
  · rw [if_neg hhandle]
    exact ⟨_, rfl, by simp⟩

theorem Effect.ready (he : s.Effect i s') (h : s.Ready half bs) : s'.Ready half bs := by
  obtain ⟨hring, hsize, hfits⟩ := h
  cases he with
  | quiet hresp _ | publish _ hresp _ | receive _ _ _ hresp _ _ _ =>
    rw [← hresp] at hring hsize hfits
    exact ⟨hring, hsize, hfits⟩

theorem Requests.effect_other (h : s.Requests half occ bs' use) (hi : s.clients i = .receive r)
    (he : s.Effect j s') (hj : j ≠ i) :
    s'.clients i = .receive r ∧ s'.waiting r.slot = s.waiting r.slot := by
  cases he with
  | quiet _ hsame | publish _ _ hsame =>
    exact ⟨by simpa [hj.symm] using hi, waiting_congr rfl rfl (hsame r.slot)⟩
  | @receive c r' got hpc _ _ _ _ hsame _ =>
    have hslot : r.slot ≠ r'.slot := by
      intro heq
      obtain ⟨hr, hown⟩ := h.occupies.receives i r hi
      obtain ⟨hr', hown'⟩ := h.occupies.receives j r' hpc
      obtain rfl := h.occupies.unique hr hr' heq
      exact hj (hown'.symm.trans hown)
    exact ⟨by simpa [hj.symm] using hi, waiting_congr rfl rfl (hsame r.slot hslot)⟩

theorem Requests.server_waiting (h : s.Requests half occ bs' use) (hi : s.clients i = .receive r)
    (hs : s.stepServer cb = some s') (hgo : s'.server ≠ .aborted) :
    s'.waiting r.slot ≤ s.waiting r.slot - 1 := by
  have hbusy : s.channel.vacant r.slot = false := by
    have hocc := (h.occupies.pending r).mp (h.occupies.receives i r hi).1
    refine Bool.eq_false_iff.mpr fun hvacant => ?_
    rw [(h.occupies.flags _).mp hvacant] at hocc
    cases hocc
  unfold waiting
  by_cases hnew : s.channel.unanswered r.slot = true
  · rw [if_pos hnew]
    rcases stepServer_due hs hgo hbusy with hdone | hlt
    · simp [hdone]
    · split_ifs <;> omega
  · obtain ⟨-, -, -, ⟨-, hsame⟩ | ⟨q, -, hanswer⟩⟩ := stepServer_flags hs
    · simp [hsame, hnew]
    · have hstill : s'.channel.unanswered r.slot ≠ true := by
        rw [hanswer, Function.update_apply]
        split_ifs <;> simp_all
      simp [hstill]

end Clients

def Live (half : Nat) (s : World n) : Prop :=
  (∃ occ bs use, s.Requests half occ bs use) ∧ ∃ bs, s.Ready half bs

theorem Live.step {l : Label n} (hhalf : half + 1 < 2 ^ 32) (h : s.Live half)
    (hs : s.step cb l = some s') : s'.Live half := by
  obtain ⟨⟨occ, bs', use, hreq⟩, bs, hready⟩ := h
  cases l with
  | send i m =>
    obtain ⟨hreq', heffect⟩ := hreq.startSend hs
    exact ⟨⟨occ, bs', use, hreq'⟩, bs, heffect.ready hready⟩
  | recv i r =>
    obtain ⟨hreq', heffect⟩ := hreq.startRecv hs
    exact ⟨⟨occ, bs', use, hreq'⟩, bs, heffect.ready hready⟩
  | client i =>
    obtain ⟨hreq', heffect⟩ := hreq.stepClient hhalf hs
    exact ⟨hreq', bs, heffect.ready hready⟩
  | server =>
    obtain ⟨t, ht, hready', helem, halloc⟩ := hready.stepServer hhalf cb
    obtain rfl := Option.some.inj (ht.symm.trans hs)
    obtain ⟨hclients, hpending, -⟩ := stepServer_flags ht
    exact ⟨⟨occ, bs', use, hreq.server hclients hpending helem halloc⟩, hready'⟩

theorem Ready.goes_on (h : s.Ready half bs) : s.server ≠ .aborted := by
  intro hpc
  have hfits := h.fits
  rw [hpc] at hfits
  exact hfits

theorem live_new {heapBase stride bufferSize : Nat}
    (hb : DoubleAllocator.Admits heapBase stride bufferSize) :
    (new heapBase stride bufferSize : World n).Live (bufferSize / 2) :=
  ⟨⟨_, _, _, requests_new hb⟩, [], Allocator.ring_new hb.resp, rfl, trivial⟩

end World

namespace Parking

variable {cb : Callback} {half : Nat} {s s' : Parking n} {i : Fin n} {l : Label n} {r : Sent n}

/-- Nobody receives for another client. -/
def Own : Label n → Prop
  | .recv i r => r.client = i
  | _ => True

def Label.isServer : Label n → Bool
  | .server _ => true
  | _ => false

theorem step_world (hs : s.step cb l = some s') (hown : Own l) :
    s'.world = s.world ∨ ∃ l', s.world.step cb l' = some s'.world := by
  cases l with
  | send i m =>
    obtain ⟨w, hw, rfl⟩ := Option.map_eq_some_iff.mp hs
    exact .inr ⟨.send i m, hw⟩
  | recv i r =>
    simp only [step, startRecv] at hs
    split_ifs at hs with hstart
    obtain rfl := Option.some.inj hs
    exact .inr ⟨.recv i r, if_pos ⟨hstart.1, hstart.2.1, hown⟩⟩
  | client i =>
    simp only [step, stepClient] at hs
    split at hs
    · cases hs
    · obtain ⟨w, hw, rfl⟩ := Option.map_eq_some_iff.mp hs
      exact .inr ⟨.client i, hw⟩
    · split_ifs at hs
      · obtain rfl := Option.some.inj hs
        exact .inl rfl
      · obtain ⟨w, hw, rfl⟩ := Option.map_eq_some_iff.mp hs
        exact .inr ⟨.client i, hw⟩
  | server woken =>
    simp only [step, stepServer] at hs
    split_ifs at hs
    obtain ⟨w, hw, rfl⟩ := Option.map_eq_some_iff.mp hs
    exact .inr ⟨.server, hw⟩
  | spurious i =>
    simp only [step] at hs
    split_ifs at hs
    obtain rfl := Option.some.inj hs
    exact .inl rfl

theorem step_waiting (hhalf : half + 1 < 2 ^ 32) (hlive : s.world.Live half)
    (hi : s.world.clients i = .receive r) (hown : Own l) (hs : s.step cb l = some s') :
    s'.world.clients i = .idle ∨ s'.world.clients i = .receive r ∧
      s'.world.waiting r.slot ≤ s.world.waiting r.slot - if l.isServer then 1 else 0 := by
  obtain ⟨⟨occ, bs', use, hreq⟩, bs, hready⟩ := hlive
  have hbusy : ∀ {j}, s.world.clients j = .idle → j ≠ i := by
    rintro j hj rfl
    rw [hi] at hj
    cases hj
  cases l with
  | send j m =>
    obtain ⟨w, hw, rfl⟩ := Option.map_eq_some_iff.mp hs
    obtain ⟨hj, -⟩ := Option.ite_none_right_eq_some.mp hw
    obtain ⟨hi', hsame⟩ := hreq.effect_other hi (hreq.startSend hw).2 (hbusy hj.1)
    exact .inr ⟨hi', Nat.le_of_eq hsame⟩
  | recv j r' =>
    simp only [step, startRecv] at hs
    split_ifs at hs with hstart
    obtain rfl := Option.some.inj hs
    have hw : s.world.startRecv j r' = some (s.world.setClient j (.receive r')) :=
      if_pos ⟨hstart.1, hstart.2.1, hown⟩
    obtain ⟨hi', hsame⟩ := hreq.effect_other hi (hreq.startRecv hw).2 (hbusy hstart.1)
    exact .inr ⟨hi', Nat.le_of_eq hsame⟩
  | client j =>
    simp only [step, stepClient] at hs
    split at hs
    case h_1 => cases hs
    case h_2 hreceiving _ =>
      obtain ⟨w, hw, rfl⟩ := Option.map_eq_some_iff.mp hs
      have hj : j ≠ i := by
        rintro rfl
        rw [hi] at hreceiving
        cases hreceiving
      obtain ⟨hi', hsame⟩ := hreq.effect_other hi (hreq.stepClient hhalf hw).2 hj
      exact .inr ⟨hi', Nat.le_of_eq hsame⟩
    case h_3 q hreceiving _ =>
      split_ifs at hs with hempty
      · obtain rfl := Option.some.inj hs
        exact .inr ⟨hi, Nat.le_refl _⟩
      · obtain ⟨w, hw, rfl⟩ := Option.map_eq_some_iff.mp hs
        by_cases hj : j = i
        · subst hj
          rw [hi] at hreceiving
          obtain rfl := Option.some.inj hreceiving
          obtain ⟨t, ht, hidle⟩ := hreq.returns hi (Bool.eq_false_iff.mpr hempty)
          obtain rfl := Option.some.inj (ht.symm.trans hw)
          exact .inl hidle
        · obtain ⟨hi', hsame⟩ := hreq.effect_other hi (hreq.stepClient hhalf hw).2 hj
          exact .inr ⟨hi', Nat.le_of_eq hsame⟩
  | server woken =>
    simp only [step, stepServer] at hs
    split_ifs at hs
    obtain ⟨w, hw, rfl⟩ := Option.map_eq_some_iff.mp hs
    obtain ⟨t, ht, ⟨bs'', hready'⟩, -⟩ := hready.stepServer hhalf cb
    obtain rfl := Option.some.inj (ht.symm.trans hw)
    obtain ⟨hclients, -⟩ := World.stepServer_flags ht
    exact .inr ⟨by rw [hclients, hi], hreq.server_waiting hi ht hready'.goes_on⟩
  | spurious j =>
    simp only [step] at hs
    split_ifs at hs
    obtain rfl := Option.some.inj hs
    exact .inr ⟨hi, Nat.le_refl _⟩

theorem Sound.returns (h : s.Sound) (hlive : s.world.Live half) (hi : s.world.clients i = .receive r)
    (hfull : s.world.channel.unanswered r.slot = false) :
    ∃ s', s.step cb (.client i) = some s' ∧ s'.world.clients i = .idle := by
  obtain ⟨⟨occ, bs', use, hreq⟩, -⟩ := hlive
  obtain ⟨w, hw, hidle⟩ := hreq.returns hi hfull
  have hawake : s.waits i ≠ .blocked := fun hblocked => by
    simp [h.blocked i r hblocked hi] at hfull
  have hempty : ¬ (s.world.channel.elem r.slot).resp.empty = true := Bool.eq_false_iff.mp hfull
  have hreceiving : (s.world.clients i).receiving = some r.slot := by
    rw [hi]
    rfl
  refine ⟨(s.setWorld w).setWait i .running, ?_, hidle⟩
  simp only [Parking.step, Parking.stepClient]
  split
  case h_1 hblocked => exact absurd hblocked hawake
  case h_2 hnone _ => simp [hreceiving] at hnone
  case h_3 q hq _ =>
    obtain rfl := Option.some.inj (hreceiving.symm.trans hq)
    rw [if_neg hempty, hw]
    rfl

theorem exists_wakes (s : Parking n) : ∃ woken, s.Wakes woken := by
  unfold Wakes
  split
  · exact ⟨fun _ => false, fun _ => rfl⟩
  · rename_i q _
    refine ⟨fun i => decide (s.BlockedOn q i), fun i hi => of_decide_eq_true hi, ?_⟩
    rintro ⟨i, hi⟩
    exact ⟨i, decide_eq_true hi⟩

structure Served (half : Nat) (s : Parking n) : Prop where
  sound : s.Sound
  live : s.world.Live half

theorem Served.step (hhalf : half + 1 < 2 ^ 32) (h : s.Served half) (hown : Own l)
    (hs : s.step cb l = some s') : s'.Served half := by
  refine ⟨h.sound.step hs, ?_⟩
  rcases step_world hs hown with hsame | ⟨l', hw⟩
  · rw [hsame]
    exact h.live
  · exact h.live.step hhalf hw

theorem served_of_run {heapBase stride bufferSize : Nat}
    (hb : DoubleAllocator.Admits heapBase stride bufferSize) {labels : List (Label n)}
    (h : Machine.run (step cb) (new heapBase stride bufferSize) labels = some s)
    (hown : ∀ l ∈ labels, Own l) : s.Served (bufferSize / 2) := by
  have hrun : Machine.Run (step cb) (fun _ l => Own l) (new heapBase stride bufferSize) labels s :=
    .of_labels h fun l hl _ => hown l hl
  exact hrun.invariant (Served (bufferSize / 2)) ⟨sound_new _ _ _, World.live_new hb⟩
    fun _ _ _ ht hl hs => ht.step hb.half_lt hl hs

theorem Served.server_alone (hhalf : half + 1 < 2 ^ 32) (h : s.Served half)
    (hawake : ∀ i, s.waits i ≠ .blocked) : ∃ s', s.step cb (.server fun _ => false) = some s' ∧
      s'.Served half ∧ ∀ i, s'.waits i ≠ .blocked := by
  obtain ⟨-, bs, hready⟩ := h.live
  obtain ⟨w, hw, -⟩ := hready.stepServer hhalf cb
  have hwakes : s.Wakes fun _ => false := by
    unfold Wakes
    split
    · exact fun _ => rfl
    · refine ⟨fun i hi => Bool.noConfusion hi, ?_⟩
      rintro ⟨i, hi, -⟩
      exact absurd hi (hawake i)
  have hs : s.step cb (.server fun _ => false) = some ⟨w, s.waits⟩ :=
    (if_pos hwakes).trans (by simp [hw])
  exact ⟨_, hs, h.step hhalf (show Own (.server fun _ => false) from trivial) hs, hawake⟩

/-- The server can always take its next step, and `recv` returns: a client that waits for the
response to its request, whatever the others do and however the threads are interleaved, has
returned, or does so with its next step, once the server has taken 7174 steps, which are seven
for each slot and six. -/
theorem recv_returns (cb : Callback) {heapBase stride bufferSize : Nat}
    (hb : DoubleAllocator.Admits heapBase stride bufferSize) {labels : List (Label n)}
    (h : Machine.run (step cb) (new heapBase stride bufferSize) labels = some s)
    (hown : ∀ l ∈ labels, Own l) :
    (∃ woken s', s.step cb (.server woken) = some s') ∧
    ∀ i r, s.world.clients i = .receive r → ∀ ls s', Machine.run (step cb) s ls = some s' →
      (∀ l ∈ ls, Own l) → 7174 ≤ ls.countP Label.isServer →
      (∃ ls₁ ls₂ t, ls = ls₁ ++ ls₂ ∧ Machine.run (step cb) s ls₁ = some t ∧
        t.world.clients i = .idle) ∨
      ∃ t, s'.step cb (.client i) = some t ∧ t.world.clients i = .idle := by
  have hhalf := hb.half_lt
  have hserved := served_of_run hb h hown
  constructor
  · obtain ⟨-, bs, hready⟩ := hserved.live
    obtain ⟨woken, hwakes⟩ := s.exists_wakes
    obtain ⟨w, hw, -⟩ := hready.stepServer hhalf cb
    exact ⟨woken, _, (if_pos hwakes).trans (by rw [hw]; rfl)⟩
  · intro i r hi ls s' hrun hls hturns
    have hrun' : Machine.Run (step cb) (fun _ l => Own l) s ls s' :=
      .of_labels hrun fun l hl _ => hls l hl
    rcases until_done (fun t => t.Served (bufferSize / 2) ∧ t.world.clients i = .receive r)
        (fun t => t.world.clients i = .idle) Label.isServer (fun t => t.world.waiting r.slot)
        (fun t l t' ht _ hl hs => (step_waiting hhalf ht.1.live ht.2 hl hs).imp_right fun hnext =>
          ⟨⟨ht.1.step hhalf hl hs, hnext.1⟩, hnext.2⟩) ⟨hserved, hi⟩ hrun' with
      hdone | ⟨⟨hserved', hi'⟩, hle⟩
    · exact .inl hdone
    · have hwaiting : s.world.waiting r.slot ≤ 7174 := by
        have hdue := s.world.due_le r.slot
        unfold World.waiting
        split_ifs <;> omega
      exact .inr (hserved'.sound.returns hserved'.live hi'
        (World.unanswered_of_waiting (by omega)))

theorem recv_returns_polled : ∃ s s' : Parking 1,
    Machine.run (step .echo) (new 4096 128 (2 ^ 28)) ([.send 0 (.ofData [1, 2])] ++
      List.replicate 7 (.client 0) ++ [.recv 0 ⟨0, 0, [1, 2]⟩]) = some s ∧
    Machine.run (step .echo) s (List.replicate 7174 (.server fun _ => false)) = some s' ∧
    ((∃ ls₁ ls₂ t, List.replicate 7174 (.server fun _ => false) = ls₁ ++ ls₂ ∧
        Machine.run (step .echo) s ls₁ = some t ∧ t.world.clients 0 = .idle) ∨
      ∃ t, s'.step .echo (.client 0) = some t ∧ t.world.clients 0 = .idle) := by
  obtain ⟨s, hs, hi, hrunning⟩ : ∃ s : Parking 1,
      Machine.run (step .echo) (new 4096 128 (2 ^ 28)) ([.send 0 (.ofData [1, 2])] ++
        List.replicate 7 (.client 0) ++ [.recv 0 ⟨0, 0, [1, 2]⟩]) = some s ∧
      s.world.clients 0 = .receive ⟨0, 0, [1, 2]⟩ ∧ s.waits 0 = .running := by
    have hrun : (Machine.run (step .echo) (new 4096 128 (2 ^ 28) : Parking 1)
        ([.send 0 (.ofData [1, 2])] ++ List.replicate 7 (.client 0) ++
          [.recv 0 ⟨0, 0, [1, 2]⟩])).map (fun s => (s.world.clients 0, s.waits 0)) =
        some (.receive ⟨0, 0, [1, 2]⟩, .running) := by decide +kernel
    simpa [Option.map_eq_some_iff] using hrun
  have hb : DoubleAllocator.Admits 4096 128 (2 ^ 28) := by constructor <;> decide
  have hown : ∀ l ∈ ([.send 0 (.ofData [1, 2])] ++ List.replicate 7 (.client 0) ++
      [.recv 0 ⟨0, 0, [1, 2]⟩] : List (Label 1)), Own l := by
    simp [Own]
  have hawake : ∀ i, s.waits i ≠ .blocked := by
    intro i
    rw [Subsingleton.elim i 0, hrunning]
    decide
  have hstep : ∀ (t : Parking 1) l, l ∈ List.replicate 7174 (.server fun _ => false) →
      t.Served (2 ^ 28 / 2) ∧ (∀ i, t.waits i ≠ .blocked) → ∃ t', t.step .echo l = some t' ∧
        t'.Served (2 ^ 28 / 2) ∧ ∀ i, t'.waits i ≠ .blocked := by
    intro t l hl ht
    obtain rfl := List.eq_of_mem_replicate hl
    exact ht.1.server_alone hb.half_lt ht.2
  obtain ⟨s', hs', -⟩ := exists_run _ hstep ⟨served_of_run hb hs hown, hawake⟩
  refine ⟨s, s', hs, hs', (recv_returns .echo hb hs hown).2 0 _ hi _ s' hs' ?_ ?_⟩
  · intro l hl
    obtain rfl := List.eq_of_mem_replicate hl
    trivial
  · rw [List.countP_replicate]
    simp [Label.isServer]

end Parking

end Shadesmar.Rpc.Interleaving
