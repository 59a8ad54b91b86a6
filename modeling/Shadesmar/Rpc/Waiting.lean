import Shadesmar.Rpc.Requests
import Shadesmar.Rpc.Service

/-! The wait in `read_client`.  `CondVar::wait` gives up the mutex of the slot and blocks
in one step; `signal`, which `write_server` sends in the locked section that stores the
response, wakes at least one of the clients that are blocked on the slot. -/

namespace Shadesmar.Rpc.Interleaving

open Library Shadesmar.Memory

variable {n : Nat}

def ServerPc.signals : ServerPc → Option (Fin queueSize)
  | .publish pos _ _ => some (qPos pos)
  | .signalError pos => some (qPos pos)
  | _ => none

inductive Wait
  | running
  | blocked
  | woken
  deriving DecidableEq

structure Parking (n : Nat) where
  world : World n
  waits : Fin n → Wait

/-- The labels of `World`, with the clients that a signal wakes, and wake-ups without a
signal. -/
inductive Parking.Label (n : Nat)
  | send (i : Fin n) (memblock : Memblock)
  | recv (i : Fin n) (r : Sent n)
  | client (i : Fin n)
  | server (woken : Fin n → Bool)
  | spurious (i : Fin n)

namespace Parking

def new (heapBase stride bufferSize : Nat) : Parking n :=
  ⟨.new heapBase stride bufferSize, fun _ => .running⟩

def setWait (s : Parking n) (i : Fin n) (w : Wait) : Parking n :=
  { s with waits := Function.update s.waits i w }

def setWorld (s : Parking n) (w : World n) : Parking n := { s with world := w }

def BlockedOn (s : Parking n) (q : Fin queueSize) (i : Fin n) : Prop :=
  s.waits i = .blocked ∧ (s.world.clients i).receiving = some q

instance (s : Parking n) (q : Fin queueSize) (i : Fin n) : Decidable (s.BlockedOn q i) :=
  inferInstanceAs (Decidable (_ ∧ _))

def Wakes (s : Parking n) (woken : Fin n → Bool) : Prop :=
  match s.world.server.signals with
  | none => ∀ i, woken i = false
  | some q => (∀ i, woken i = true → s.BlockedOn q i) ∧
      ((∃ i, s.BlockedOn q i) → ∃ i, woken i = true)

instance (s : Parking n) (woken : Fin n → Bool) : Decidable (s.Wakes woken) := by
  unfold Wakes
  split <;> infer_instance

def startRecv (s : Parking n) (i : Fin n) (r : Sent n) : Option (Parking n) :=
  if s.world.clients i = .idle ∧ r ∈ s.world.pending ∧ ∀ j, s.world.clients j ≠ .receive r then
    some (s.setWorld (s.world.setClient i (.receive r)))
  else none

def stepClient (s : Parking n) (i : Fin n) : Option (Parking n) :=
  match s.waits i, (s.world.clients i).receiving with
  | .blocked, _ => none
  | _, none => (s.world.stepClient i).map s.setWorld
  | _, some q =>
    if (s.world.channel.elem q).resp.empty then some (s.setWait i .blocked)
    else (s.world.stepClient i).map fun w => (s.setWorld w).setWait i .running

def stepServer (cb : Callback) (s : Parking n) (woken : Fin n → Bool) : Option (Parking n) :=
  if s.Wakes woken then
    (s.world.stepServer cb).map fun w =>
      { world := w, waits := fun i => if woken i then .woken else s.waits i }
  else none

def step (cb : Callback) (s : Parking n) : Label n → Option (Parking n)
  | .send i memblock => (s.world.startSend i memblock).map s.setWorld
  | .recv i r => s.startRecv i r
  | .client i => s.stepClient i
  | .server woken => s.stepServer cb woken
  | .spurious i => if s.waits i = .blocked then some (s.setWait i .woken) else none

/-- A client that waits on a slot sees no response there, or has been woken; and it is the
only one that waits on the slot. -/
structure NoLostWakeup (s : Parking n) : Prop where
  awaits : ∀ i q, s.BlockedOn q i → (s.world.channel.elem q).resp.empty = true
  alone : ∀ i j q, s.waits i ≠ .running → s.waits j ≠ .running →
    (s.world.clients i).receiving = some q → (s.world.clients j).receiving = some q → i = j

end Parking

namespace World

inductive Move (s : World n) (i : Fin n) : World n → Prop
  | quiet {c : Channel} {pc : ClientPc n} : pc.window = none ∨ pc.window = (s.clients i).window →
      pc.receiving = none → c.vacant = s.channel.vacant → c.unanswered = s.channel.unanswered →
      Move s i ((s.setChannel c).setClient i pc)
  | take {c : Channel} {pc : ClientPc n} {q : Fin queueSize} : s.channel.vacant q = true →
      pc.window = some q → pc.receiving = none →
      c.vacant = Function.update s.channel.vacant q false →
      c.unanswered = s.channel.unanswered → Move s i ((s.setChannel c).setClient i pc)
  | leave {c : Channel} {q : Fin queueSize} : (s.clients i).window = some q →
      c.vacant = Function.update s.channel.vacant q true → c.unanswered = s.channel.unanswered →
      Move s i ((s.setChannel c).setClient i .idle)
  | publish {c : Channel} {r : Sent n} {accepted : List (Sent n)} :
      (s.clients i).window = some r.slot → c.vacant = s.channel.vacant →
      c.unanswered = s.channel.unanswered →
      Move s i ({ s with
        channel := c
        accepted := accepted
        pending := s.pending ++ [r] }.setClient i .idle)
  | receive {c : Channel} {r : Sent n} {received : List (Sent n × Memblock)} :
      s.clients i = .receive r → c.vacant = Function.update s.channel.vacant r.slot true →
      c.unanswered = Function.update s.channel.unanswered r.slot true →
      Move s i ({ s with
        channel := c
        pending := s.pending.erase r
        received := received }.setClient i .idle)

variable {s s' : World n} {i : Fin n}

theorem Move.of_stepClient (hs : s.stepClient i = some s') : s.Move i s' := by
  unfold stepClient at hs
  cases hpc : s.clients i with
  | idle => simp [hpc] at hs
  | aborted => simp [hpc] at hs
  | checkMemory m =>
    rw [hpc] at hs
    dsimp only at hs
    split_ifs at hs <;> obtain rfl := Option.some.inj hs <;>
      exact .quiet (c := s.channel) (.inl rfl) rfl rfl rfl
  | readCounter m =>
    rw [hpc] at hs
    obtain rfl := Option.some.inj hs
    exact .quiet (c := s.channel) (.inl rfl) rfl rfl rfl
  | accept m pos =>
    rw [hpc] at hs
    rcases Channel.accept_cases s.channel (qPos pos) with ⟨-, hnone⟩ | ⟨hvacant, hsome⟩
    · simp only [hnone] at hs
      obtain rfl := Option.some.inj hs
      exact .quiet (c := s.channel) (.inl rfl) rfl rfl rfl
    · simp only [hsome] at hs
      obtain rfl := Option.some.inj hs
      exact .take hvacant rfl rfl (by simp) (by simp)
  | alloc m pos =>
    rw [hpc] at hs
    cases halloc : s.channel.allocReq m.size with
    | error e =>
      simp only [halloc] at hs
      obtain rfl := Option.some.inj hs
      exact .quiet (c := s.channel) (.inl rfl) rfl rfl rfl
    | ok pc =>
      obtain ⟨p, c⟩ := pc
      obtain ⟨a, -, rfl⟩ := Channel.allocReq_ok halloc
      simp only [halloc] at hs
      cases p <;> obtain rfl := Option.some.inj hs <;>
        exact .quiet (.inr (by rw [hpc]; rfl)) rfl (by simp) (by simp)
  | resetSize pos | resetHandle pos | setHandle m pos p =>
    rw [hpc] at hs
    obtain rfl := Option.some.inj hs
    refine .quiet (.inr (by rw [hpc]; rfl)) rfl ?_ (by simp [Channel.setReqSize, Channel.setReqHandle])
    simp only [Channel.setReqSize, Channel.setReqHandle, Channel.vacant_setReq]
    exact Function.update_eq_self ..
  | resetEmpty pos =>
    rw [hpc] at hs
    obtain rfl := Option.some.inj hs
    exact .leave (q := qPos pos) (by rw [hpc]; rfl) (by simp [Channel.setReqEmpty])
      (by simp [Channel.setReqEmpty])
  | copy m pos p =>
    rw [hpc] at hs
    obtain rfl := Option.some.inj hs
    exact .quiet (.inr (by rw [hpc]; rfl)) rfl rfl rfl
  | setSize m pos =>
    rw [hpc] at hs
    obtain rfl := Option.some.inj hs
    refine .publish (r := ⟨i, pos, m.bytes⟩) (by rw [hpc]; rfl) ?_ (by simp [Channel.setReqSize])
    simp only [Channel.setReqSize, Channel.vacant_setReq]
    exact Function.update_eq_self ..
  | receive r =>
    rw [hpc] at hs
    dsimp only at hs
    split_ifs at hs with hempty
    cases hreceive : s.channel.receive r.slot with
    | error e =>
      rw [hreceive] at hs
      obtain rfl := Option.some.inj hs
      exact .quiet (c := s.channel) (.inl rfl) rfl rfl rfl
    | ok rc =>
      obtain ⟨got, c⟩ := rc
      have hread : s.channel.readClient r.pos = some (.ok (got, c)) := by
        have hslot : s.channel.receive (qPos r.pos) = .ok (got, c) := hreceive
        have hfull : ¬ (s.channel.elem (qPos r.pos)).resp.empty = true := hempty
        rw [Channel.readClient]
        simp only [hslot]
        rw [if_neg hfull]
      obtain ⟨-, hvacant, hunanswered, -⟩ := Channel.readClient_cases hread
      rw [hreceive] at hs
      cases got <;> obtain rfl := Option.some.inj hs <;>
        exact .receive hpc hvacant hunanswered

/-- A slot that is not free has one tenant: the client that writes there, or the request
that waits there for its response.  A request is received by one client at most. -/
structure Tenancy (s : World n) (occ : Fin queueSize → Occupant n) : Prop where
  windows : ∀ i q, (s.clients i).window = some q → occ q = .writing i
  pending : ∀ r ∈ s.pending, occ r.slot = .sent r
  nodup : s.pending.Nodup
  flags : ∀ q, s.channel.vacant q = true → occ q = .vacant
  receives : ∀ i r, s.clients i = .receive r → r ∈ s.pending
  once : ∀ i j r, s.clients i = .receive r → s.clients j = .receive r → i = j

variable {occ : Fin queueSize → Occupant n}

theorem tenancy_new (heapBase stride bufferSize : Nat) :
    (new heapBase stride bufferSize : World n).Tenancy fun _ => .vacant := by
  constructor <;> simp [new, ClientPc.window]

theorem Tenancy.move (h : s.Tenancy occ) (hm : s.Move i s') : ∃ occ', s'.Tenancy occ' := by
  obtain ⟨hw, hp, hn, hf, hr, ho⟩ := h
  cases hm with
  | @quiet c pc hwindow hreceiving hvacant _ =>
    have hpc : ∀ r, pc ≠ .receive r := by
      rintro r rfl
      cases hreceiving
    refine ⟨occ, ?_, hp, hn, ?_, ?_, ?_⟩
    · grind
    · rw [channel_setClient, channel_setChannel, hvacant]
      exact hf
    · grind
    · grind
  | @take c pc q hfree hwindow hreceiving hvacant _ =>
    have hpc : ∀ r, pc ≠ .receive r := by
      rintro r rfl
      cases hreceiving
    have hempty := hf q hfree
    refine ⟨Function.update occ q (.writing i), ?_, ?_, hn, ?_, ?_, ?_⟩
    · grind [Function.update_apply]
    · grind [Function.update_apply]
    · rw [channel_setClient, channel_setChannel, hvacant]
      grind [Function.update_apply]
    · grind
    · grind
  | @leave c q hwindow hvacant _ =>
    have hocc := hw i q hwindow
    refine ⟨Function.update occ q .vacant, ?_, ?_, hn, ?_, ?_, ?_⟩
    · grind [Function.update_apply, ClientPc.window]
    · grind [Function.update_apply]
    · rw [channel_setClient, channel_setChannel, hvacant]
      grind [Function.update_apply]
    · grind
    · grind
  | @publish c r accepted hwindow hvacant _ =>
    have hocc := hw i r.slot hwindow
    refine ⟨Function.update occ r.slot (.sent r), ?_, ?_, ?_, ?_, ?_, ?_⟩
    · grind [Function.update_apply, ClientPc.window]
    · grind [Function.update_apply]
    · grind
    · change ∀ q, c.vacant q = true → _
      rw [hvacant]
      grind [Function.update_apply]
    · grind
    · grind
  | @receive c r received hpc hvacant _ =>
    have hmem := hr i r hpc
    have hocc := hp r hmem
    refine ⟨Function.update occ r.slot .vacant, ?_, ?_, hn.erase r, ?_, ?_, ?_⟩
    · grind [Function.update_apply, ClientPc.window]
    · grind [Function.update_apply]
    · change ∀ q, c.vacant q = true → _
      rw [hvacant]
      grind [Function.update_apply]
    · grind
    · grind

theorem Tenancy.server (h : s.Tenancy occ) (hclients : s'.clients = s.clients)
    (hpending : s'.pending = s.pending) (hvacant : s'.channel.vacant = s.channel.vacant) :
    s'.Tenancy occ := by
  obtain ⟨hw, hp, hn, hf, hr, ho⟩ := h
  constructor
  · rwa [hclients]
  · rwa [hpending]
  · rwa [hpending]
  · rwa [hvacant]
  · rwa [hclients, hpending]
  · rwa [hclients]

theorem stepServer_flags {cb : Callback} (hs : s.stepServer cb = some s') :
    s'.clients = s.clients ∧ s'.pending = s.pending ∧ s'.channel.vacant = s.channel.vacant ∧
    (s.server.signals = none ∧ s'.channel.unanswered = s.channel.unanswered ∨
      ∃ q, s.server.signals = some q ∧
        s'.channel.unanswered = Function.update s.channel.unanswered q false) := by
  unfold stepServer at hs
  cases hpc : s.server with
  | aborted => simp [hpc] at hs
  | readServer pos =>
    rw [hpc] at hs
    dsimp only at hs
    split at hs <;> obtain rfl := Option.some.inj hs <;>
      exact ⟨rfl, rfl, rfl, .inl ⟨rfl, rfl⟩⟩
  | checkMemory pos resp =>
    rw [hpc] at hs
    dsimp only at hs
    split_ifs at hs <;> obtain rfl := Option.some.inj hs <;>
      exact ⟨rfl, rfl, rfl, .inl ⟨rfl, rfl⟩⟩
  | alloc pos resp =>
    rw [hpc] at hs
    cases halloc : s.channel.allocResp resp.size with
    | error e =>
      simp only [halloc] at hs
      obtain rfl := Option.some.inj hs
      exact ⟨rfl, rfl, rfl, .inl ⟨rfl, rfl⟩⟩
    | ok pc =>
      obtain ⟨p, c⟩ := pc
      obtain ⟨a, -, rfl⟩ := Channel.allocResp_ok halloc
      simp only [halloc] at hs
      cases p <;> obtain rfl := Option.some.inj hs <;> exact ⟨rfl, rfl, rfl, .inl ⟨rfl, rfl⟩⟩
  | fetchAdd | callback pos req | copy pos resp p =>
    rw [hpc] at hs
    obtain rfl := Option.some.inj hs
    exact ⟨rfl, rfl, rfl, .inl ⟨rfl, rfl⟩⟩
  | publish pos resp p | signalError pos =>
    rw [hpc] at hs
    obtain rfl := Option.some.inj hs
    exact ⟨rfl, rfl, by simp [Channel.respond, Channel.signalError],
      .inr ⟨qPos pos, rfl, by simp [Channel.respond, Channel.signalError]⟩⟩

end World

namespace Parking

variable {cb : Callback} {s s' : Parking n} {i j : Fin n} {l : Label n}

structure Sound (s : Parking n) : Prop where
  tenancy : ∃ occ, s.world.Tenancy occ
  waiting : ∀ i, s.waits i ≠ .running → ∃ r, s.world.clients i = .receive r
  blocked : ∀ i r, s.waits i = .blocked → s.world.clients i = .receive r →
    s.world.channel.unanswered r.slot = true

theorem sound_new (heapBase stride bufferSize : Nat) :
    (new heapBase stride bufferSize : Parking n).Sound :=
  ⟨⟨_, World.tenancy_new _ _ _⟩, fun _ hi => absurd rfl hi, nofun⟩

theorem Sound.receiving_inj (h : s.Sound) {r r' : Sent n} (hi : s.world.clients i = .receive r)
    (hj : s.world.clients j = .receive r') (hslot : r.slot = r'.slot) : i = j := by
  obtain ⟨occ, ht⟩ := h.tenancy
  have hocc := ht.pending r (ht.receives i r hi)
  have hocc' := ht.pending r' (ht.receives j r' hj)
  rw [hslot, hocc'] at hocc
  obtain rfl := Occupant.sent.inj hocc
  exact ht.once i j r' hi hj

theorem receiving_eq_some {pc : ClientPc n} {q : Fin queueSize} :
    pc.receiving = some q ↔ ∃ r, pc = .receive r ∧ r.slot = q := by
  cases pc <;> simp [ClientPc.receiving]

theorem Sound.noLostWakeup (h : s.Sound) : s.NoLostWakeup := by
  constructor
  · rintro i q ⟨hblocked, hq⟩
    obtain ⟨r, hr, rfl⟩ := receiving_eq_some.mp hq
    exact h.blocked i r hblocked hr
  · intro i j q _ _ hi hj
    obtain ⟨r, hr, rfl⟩ := receiving_eq_some.mp hi
    obtain ⟨r', hr', hslot⟩ := receiving_eq_some.mp hj
    exact h.receiving_inj hr hr' hslot.symm

theorem Sound.move {w : World n} (h : s.Sound) (hm : s.world.Move i w) :
    ((s.setWorld w).setWait i .running).Sound := by
  have hother : ∀ j, j ≠ i → w.clients j = s.world.clients j := by
    intro j hj
    cases hm <;> simp [hj]
  have hmono : ∀ q, s.world.channel.unanswered q = true → w.channel.unanswered q = true := by
    intro q hq
    cases hm with
    | quiet _ _ _ hsame => exact (congrFun hsame q).trans hq
    | take _ _ _ _ hsame => exact (congrFun hsame q).trans hq
    | leave _ _ hsame => exact (congrFun hsame q).trans hq
    | publish _ _ hsame => exact (congrFun hsame q).trans hq
    | @receive c r _ _ _ hnew =>
      refine (congrFun hnew q).trans ?_
      by_cases hslot : q = r.slot <;> simp [hslot, hq]
  obtain ⟨occ, ht⟩ := h.tenancy
  refine ⟨ht.move hm, ?_, ?_⟩
  · intro j hj
    by_cases hji : j = i
    · simp [setWait, hji] at hj
    · have hwait : s.waits j ≠ .running := by simpa [setWait, setWorld, hji] using hj
      obtain ⟨r, hr⟩ := h.waiting j hwait
      exact ⟨r, (hother j hji).trans hr⟩
  · intro j r hj hr
    by_cases hji : j = i
    · simp [setWait, hji] at hj
    · have hwait : s.waits j = .blocked := by simpa [setWait, setWorld, hji] using hj
      exact hmono _ (h.blocked j r hwait ((hother j hji).symm.trans hr))

theorem Sound.running (h : s.Sound) (hi : (s.world.clients i).receiving = none) :
    s.waits i = .running := by
  by_contra hwait
  obtain ⟨r, hr⟩ := h.waiting i hwait
  rw [hr] at hi
  cases hi

theorem setWait_running (h : s.waits i = .running) (w : World n) :
    (s.setWorld w).setWait i .running = s.setWorld w := by
  simp only [setWait, setWorld, ← h, Function.update_eq_self]

theorem Sound.stepClient (h : s.Sound) (hs : s.stepClient i = some s') : s'.Sound := by
  unfold Parking.stepClient at hs
  split at hs
  case h_1 => cases hs
  case h_2 hreceiving _ =>
    obtain ⟨w, hw, rfl⟩ := Option.map_eq_some_iff.mp hs
    rw [← setWait_running (h.running hreceiving) w]
    exact h.move (.of_stepClient hw)
  case h_3 q hreceiving _ =>
    split_ifs at hs with hempty
    · obtain rfl := Option.some.inj hs
      obtain ⟨r, hr, rfl⟩ := receiving_eq_some.mp hreceiving
      refine ⟨h.tenancy, ?_, ?_⟩
      · intro j hj
        by_cases hji : j = i
        · exact ⟨r, hji ▸ hr⟩
        · exact h.waiting j (by simpa [setWait, hji] using hj)
      · intro j r' hj hr'
        by_cases hji : j = i
        · subst hji
          obtain rfl := ClientPc.receive.inj (hr.symm.trans hr')
          exact hempty
        · exact h.blocked j r' (by simpa [setWait, hji] using hj) hr'
    · obtain ⟨w, hw, rfl⟩ := Option.map_eq_some_iff.mp hs
      exact h.move (.of_stepClient hw)

theorem Sound.stepServer (h : s.Sound) {woken : Fin n → Bool}
    (hs : s.stepServer cb woken = some s') : s'.Sound := by
  unfold Parking.stepServer at hs
  split_ifs at hs with hwakes
  obtain ⟨w, hw, rfl⟩ := Option.map_eq_some_iff.mp hs
  obtain ⟨hclients, hpending, hvacant, hflags⟩ := World.stepServer_flags hw
  obtain ⟨occ, ht⟩ := h.tenancy
  unfold Wakes at hwakes
  refine ⟨⟨occ, ht.server hclients hpending hvacant⟩, ?_, ?_⟩
  · intro i hi
    simp only [hclients]
    by_cases hwoken : woken i = true
    · rcases hflags with ⟨hnone, -⟩ | ⟨q, hsome, -⟩
      · rw [hnone] at hwakes
        simp [hwakes i] at hwoken
      · rw [hsome] at hwakes
        obtain ⟨r, hr, -⟩ := receiving_eq_some.mp (hwakes.1 i hwoken).2
        exact ⟨r, hr⟩
    · exact h.waiting i (by simpa [hwoken] using hi)
  · intro i r hi hr
    simp only [hclients] at hr
    have hasleep : woken i = false := by
      by_contra hwoken
      simp [Bool.eq_true_of_not_eq_false hwoken] at hi
    have hblocked : s.waits i = .blocked := by simpa [hasleep] using hi
    have hempty := h.blocked i r hblocked hr
    rcases hflags with ⟨-, hsame⟩ | ⟨q, hsome, hnew⟩
    · exact (congrFun hsame _).trans hempty
    · by_cases hslot : r.slot = q
      · rw [hsome] at hwakes
        obtain ⟨j, hj⟩ := hwakes.2 ⟨i, hblocked, receiving_eq_some.mpr ⟨r, hr, hslot⟩⟩
        obtain ⟨r', hr', hslot'⟩ := receiving_eq_some.mp (hwakes.1 j hj).2
        obtain rfl := h.receiving_inj hr hr' (hslot.trans hslot'.symm)
        rw [hasleep] at hj
        cases hj
      · simp [hnew, hslot, hempty]

theorem Sound.step (h : s.Sound) (hs : s.step cb l = some s') : s'.Sound := by
  cases l with
  | send i m =>
    obtain ⟨w, hw, rfl⟩ := Option.map_eq_some_iff.mp hs
    unfold World.startSend at hw
    split_ifs at hw with hstart
    obtain rfl := Option.some.inj hw
    rw [← setWait_running (h.running (by rw [hstart.1]; rfl)) _]
    exact h.move (.quiet (c := s.world.channel) (.inl rfl) rfl rfl rfl)
  | recv i r =>
    simp only [Parking.step, startRecv] at hs
    split_ifs at hs with hstart
    obtain rfl := Option.some.inj hs
    obtain ⟨hidle, hmem, hothers⟩ := hstart
    have hrunning : s.waits i = .running := h.running (by rw [hidle]; rfl)
    obtain ⟨occ, hw, hp, hn, hf, hr, ho⟩ := h.tenancy
    refine ⟨⟨occ, ?_, hp, hn, hf, ?_, ?_⟩, ?_, ?_⟩
    · simp only [setWorld]
      grind [ClientPc.window]
    · simp only [setWorld]
      grind
    · simp only [setWorld]
      grind
    · intro j hj
      have hji : j ≠ i := by
        rintro rfl
        exact hj hrunning
      obtain ⟨r', hr'⟩ := h.waiting j hj
      exact ⟨r', by simpa [setWorld, hji] using hr'⟩
    · intro j r' hj hr'
      have hji : j ≠ i := by
        rintro rfl
        exact absurd (hrunning.symm.trans hj) (by decide)
      exact h.blocked j r' hj (by simpa [setWorld, hji] using hr')
  | client i => exact h.stepClient hs
  | server woken => exact h.stepServer hs
  | spurious i =>
    simp only [Parking.step] at hs
    split_ifs at hs with hblocked
    obtain rfl := Option.some.inj hs
    refine ⟨h.tenancy, ?_, ?_⟩
    · intro j hj
      by_cases hji : j = i
      · exact h.waiting j (by simp [hji, hblocked])
      · exact h.waiting j (by simpa [setWait, hji] using hj)
    · intro j r hj hr
      by_cases hji : j = i
      · simp [setWait, hji] at hj
      · exact h.blocked j r (by simpa [setWait, hji] using hj) hr

/-- No client waits on a slot for a response that is there, unless it has been woken, and
no two clients wait on one slot. -/
theorem no_lost_wakeup (cb : Callback) {heapBase stride bufferSize : Nat}
    {labels : List (Label n)} {s : Parking n}
    (h : Machine.run (step cb) (new heapBase stride bufferSize) labels = some s) :
    s.NoLostWakeup := by
  have hsound : s.Sound := (Machine.Run.of_run h).invariant Sound (sound_new _ _ _)
    fun _ _ _ ht _ hs => ht.step hs
  exact hsound.noLostWakeup

theorem no_lost_wakeup_woken : ∃ (labels : List (Label 1)) (s : Parking 1),
    Machine.run (step .echo) (new 4096 128 (2 ^ 28)) labels = some s ∧ s.waits 0 = .woken ∧
      s.NoLostWakeup := by
  have hrun : (Machine.run (step .echo) (new 4096 128 (2 ^ 28) : Parking 1)
      ([.send 0 (.ofData [1, 2])] ++ List.replicate 7 (.client 0) ++
        [.recv 0 ⟨0, 0, [1, 2]⟩, .client 0] ++ List.replicate 6 (.server fun _ => false) ++
        [.server fun _ => true])).map (·.waits 0) = some .woken := by decide +kernel
  obtain ⟨s, hs, hwoken⟩ := Option.map_eq_some_iff.mp hrun
  exact ⟨_, s, hs, hwoken, no_lost_wakeup .echo hs⟩

end Parking

end Shadesmar.Rpc.Interleaving
