import Shadesmar.Library.Machine
import Shadesmar.Rpc.Server

/-! Runs of a channel made of complete calls of `send`, `serve_once` and `recv`.  A client
keeps nothing between its calls, so that a call is told by its arguments; the server
keeps its position.  A request that has been answered stays in its slot until it is
received, and `serve_once` comes round to it again. -/

namespace Shadesmar.Rpc

open Library Shadesmar.Memory

namespace Channel

def vacant (c : Channel) (q : Fin queueSize) : Bool := (c.elem q).req.empty

def unanswered (c : Channel) (q : Fin queueSize) : Bool := (c.elem q).resp.empty

variable (c : Channel) (q : Fin queueSize) (e : Element) (a : Allocator)

@[simp] theorem vacant_setReqAllocator : (c.setReqAllocator a).vacant = c.vacant := rfl
@[simp] theorem vacant_setRespAllocator : (c.setRespAllocator a).vacant = c.vacant := rfl
@[simp] theorem vacant_incCounter : c.incCounter.vacant = c.vacant := rfl
@[simp] theorem unanswered_setReqAllocator : (c.setReqAllocator a).unanswered = c.unanswered := rfl
@[simp] theorem unanswered_setRespAllocator : (c.setRespAllocator a).unanswered = c.unanswered := rfl
@[simp] theorem unanswered_incCounter : c.incCounter.unanswered = c.unanswered := rfl

@[simp] theorem unanswered_setReq : (c.setReq q e).unanswered = c.unanswered := by
  funext q'
  simp [unanswered]

@[simp] theorem vacant_setResp : (c.setResp q e).vacant = c.vacant := by
  funext q'
  simp [vacant]

@[simp] theorem vacant_setReq : (c.setReq q e).vacant = Function.update c.vacant q e.empty := by
  funext q'
  by_cases h : q' = q
  · subst h
    simp [vacant]
  · simp [vacant, h, elem_setReq_ne]

@[simp] theorem unanswered_setResp :
    (c.setResp q e).unanswered = Function.update c.unanswered q e.empty := by
  funext q'
  by_cases h : q' = q
  · subst h
    simp [unanswered]
  · simp [unanswered, h, elem_setResp_ne]

variable {c : Channel} {q : Fin queueSize} {m : Memblock}

theorem accept_cases (c : Channel) (q : Fin queueSize) :
    (c.vacant q = false ∧ c.accept q = none) ∨
    (c.vacant q = true ∧
      c.accept q = some (c.incCounter.setReq q { (c.elem q).req with empty := false })) := by
  unfold accept vacant
  cases (c.elem q).req.empty
  · exact .inl ⟨rfl, rfl⟩
  · exact .inr ⟨rfl, rfl⟩

theorem allocReq_ok {size : Nat} {p : Option Nat} {c' : Channel}
    (h : c.allocReq size = .ok (p, c')) :
    ∃ a, c.allocator.req.alloc (u32 size) = .ok (p, a) ∧ c' = c.setReqAllocator a := by
  obtain ⟨⟨p', a⟩, halloc, h⟩ := Checked.bind_eq_ok.mp h
  obtain ⟨rfl, rfl⟩ := Prod.mk.inj (Except.ok.inj h)
  exact ⟨a, halloc, rfl⟩

theorem allocResp_ok {size : Nat} {p : Option Nat} {c' : Channel}
    (h : c.allocResp size = .ok (p, c')) :
    ∃ a, c.allocator.resp.alloc (u32 size) = .ok (p, a) ∧ c' = c.setRespAllocator a := by
  obtain ⟨⟨p', a⟩, halloc, h⟩ := Checked.bind_eq_ok.mp h
  obtain ⟨rfl, rfl⟩ := Prod.mk.inj (Except.ok.inj h)
  exact ⟨a, halloc, rfl⟩

theorem writeClient_cases {r : Option Nat} {c' : Channel} (h : c.writeClient m = .ok (r, c')) :
    c'.unanswered = c.unanswered ∧ c'.allocator.resp = c.allocator.resp ∧
    (r = none ∧ c'.vacant = c.vacant ∨
      r = some c.counter ∧ c.vacant (qPos c.counter) = true ∧
        c'.vacant = Function.update c.vacant (qPos c.counter) false) := by
  unfold writeClient at h
  split_ifs at h with hroom
  · obtain ⟨rfl, rfl⟩ := Prod.mk.inj (Except.ok.inj h)
    exact ⟨rfl, rfl, .inl ⟨rfl, rfl⟩⟩
  · rcases accept_cases c (qPos c.counter) with ⟨-, hnone⟩ | ⟨hvacant, hsome⟩
    · simp only [hnone] at h
      obtain ⟨rfl, rfl⟩ := Prod.mk.inj (Except.ok.inj h)
      exact ⟨rfl, rfl, .inl ⟨rfl, rfl⟩⟩
    · simp only [hsome] at h
      obtain ⟨⟨p, c₁⟩, halloc, h⟩ := Checked.bind_eq_ok.mp h
      obtain ⟨a, -, rfl⟩ := allocReq_ok halloc
      cases p with
      | none =>
        obtain ⟨rfl, rfl⟩ := Prod.mk.inj (Except.ok.inj h)
        refine ⟨?_, rfl, .inl ⟨rfl, ?_⟩⟩
        · simp [resetReq, setReqEmpty, setReqHandle, setReqSize]
        · simp [resetReq, setReqEmpty, setReqHandle, setReqSize, hvacant]
      | some p =>
        obtain ⟨rfl, rfl⟩ := Prod.mk.inj (Except.ok.inj h)
        refine ⟨?_, rfl, .inr ⟨rfl, hvacant, ?_⟩⟩
        · simp [setReqHandle, setReqSize, storeReq]
        · simp [setReqHandle, setReqSize, storeReq]

theorem cleanUp_ok {c' : Channel} (h : c.cleanUp q = .ok c') :
    ∃ a, c' = (c.setReqAllocator a).resetElem q := by
  simp only [cleanUp] at h
  split_ifs at h with hsize
  · obtain ⟨c₁, hfree, h⟩ := Checked.bind_eq_ok.mp h
    obtain ⟨⟨done, a⟩, -, hfree⟩ := Checked.bind_eq_ok.mp hfree
    obtain rfl := Except.ok.inj hfree
    exact ⟨a, (Except.ok.inj h).symm⟩
  · exact ⟨c.allocator.req, (Except.ok.inj h).symm⟩

theorem readClient_cases {pos : Nat} {r : Option Memblock} {c' : Channel}
    (h : c.readClient pos = some (.ok (r, c'))) :
    c.unanswered (qPos pos) = false ∧
    c'.vacant = Function.update c.vacant (qPos pos) true ∧
    c'.unanswered = Function.update c.unanswered (qPos pos) true ∧
    c'.allocator.resp = c.allocator.resp := by
  simp only [readClient] at h
  split_ifs at h with hempty
  refine ⟨by simpa [unanswered] using hempty, ?_⟩
  have hclean : ∃ c₁, c.cleanUp (qPos pos) = .ok c₁ ∧ c₁ = c' := by
    have h := Option.some.inj h
    simp only [receive] at h
    split_ifs at h with hhandle
    · obtain ⟨c₁, hclean, h⟩ := Checked.bind_eq_ok.mp h
      exact ⟨c₁, hclean, (Prod.mk.inj (Except.ok.inj h)).2⟩
    · obtain ⟨c₁, hclean, h⟩ := Checked.bind_eq_ok.mp h
      exact ⟨c₁, hclean, (Prod.mk.inj (Except.ok.inj h)).2⟩
  obtain ⟨c₁, hclean, rfl⟩ := hclean
  obtain ⟨a, rfl⟩ := cleanUp_ok hclean
  exact ⟨by simp [resetElem, Element.fresh], by simp [resetElem, Element.fresh], rfl⟩

theorem writeServer_fills {pos : Nat} {done : Bool} {c' : Channel}
    (h : c.writeServer m pos = .ok (done, c')) :
    ∃ a e, c' = (c.setRespAllocator a).setResp (qPos pos) e ∧ e.empty = false := by
  unfold writeServer at h
  split_ifs at h with hroom
  · obtain ⟨rfl, rfl⟩ := Prod.mk.inj (Except.ok.inj h)
    exact ⟨c.allocator.resp, _, rfl, rfl⟩
  · obtain ⟨⟨p, c₁⟩, halloc, h⟩ := Checked.bind_eq_ok.mp h
    obtain ⟨a, -, rfl⟩ := allocResp_ok halloc
    cases p with
    | none =>
      obtain ⟨rfl, rfl⟩ := Prod.mk.inj (Except.ok.inj h)
      exact ⟨a, _, rfl, rfl⟩
    | some p =>
      obtain ⟨rfl, rfl⟩ := Prod.mk.inj (Except.ok.inj h)
      exact ⟨a.store p m.bytes, _, rfl, rfl⟩

theorem writeServer_ok {pos : Nat} {done : Bool} {c' : Channel}
    (h : c.writeServer m pos = .ok (done, c')) :
    c'.vacant = c.vacant ∧ c'.unanswered = Function.update c.unanswered (qPos pos) false := by
  obtain ⟨a, e, rfl, he⟩ := writeServer_fills h
  simp [he]

theorem writeServer_req {pos : Nat} {done : Bool} {c' : Channel}
    (h : c.writeServer m pos = .ok (done, c')) :
    c'.allocator.req = c.allocator.req ∧ ∀ q, (c'.elem q).req = (c.elem q).req := by
  obtain ⟨a, e, rfl, -⟩ := writeServer_fills h
  exact ⟨rfl, fun q => by simp⟩

theorem process_cases {cb : Callback} {pos : Nat} {done : Bool} {c' : Channel}
    (h : process cb c pos = .ok (done, c')) :
    (c.vacant (qPos pos) = true ∧ c.readServer pos = none ∧ c' = c) ∨
    (c.vacant (qPos pos) = false ∧ ∃ req, c.readServer pos = some req ∧
      c.writeServer (cb.answer req) pos = .ok (done, c')) := by
  unfold process at h
  cases hread : c.readServer pos with
  | none =>
    rw [hread] at h
    obtain ⟨-, rfl⟩ := Prod.mk.inj (Except.ok.inj h)
    refine .inl ⟨?_, rfl, rfl⟩
    simpa [readServer, vacant] using hread
  | some req =>
    rw [hread] at h
    refine .inr ⟨?_, req, rfl, h⟩
    simp only [readServer] at hread
    split_ifs at hread with hempty
    simpa [vacant] using hempty

end Channel

/-- `accepted` counts the calls of `send` that returned true, and `owner` gives for a slot
the number of the last of them that took it.  `invoked` and `received` list the requests
on which the callback has run, and those whose response `recv` has taken. -/
structure Service where
  channel : Channel
  pos : Nat
  owner : Fin queueSize → Nat
  accepted : Nat
  invoked : List Nat
  received : List Nat

inductive Service.Label
  | send (memblock : Memblock)
  | serveOnce
  | recv (pos : Nat)
  deriving DecidableEq

namespace Service

def new (heapBase stride bufferSize : Nat) : Service where
  channel := .new heapBase stride bufferSize
  pos := 0
  owner := fun _ => 0
  accepted := 0
  invoked := []
  received := []

/-- One complete call; `none` for a `recv` that waits, and for a call that aborts. -/
def step (cb : Callback) (s : Service) : Label → Option Service
  | .send memblock =>
    if memblock.Filled then
      match s.channel.writeClient memblock with
      | .ok (none, c) => some { s with channel := c }
      | .ok (some pos, c) =>
        some { s with
          channel := c
          owner := Function.update s.owner (qPos pos) s.accepted
          accepted := s.accepted + 1 }
      | .error _ => none
    else none
  | .serveOnce =>
    match process cb s.channel s.pos with
    | .ok (_, c) =>
      some { s with
        channel := c
        pos := u32 (s.pos + 1)
        invoked :=
          if (s.channel.readServer s.pos).isSome then s.invoked ++ [s.owner (qPos s.pos)]
          else s.invoked }
    | .error _ => none
  | .recv pos =>
    match s.channel.readClient pos with
    | none => none
    | some (.ok (_, c)) =>
      some { s with channel := c, received := s.received ++ [s.owner (qPos pos)] }
    | some (.error _) => none

section Calls

variable {cb : Callback} {s s' : Service}

theorem send_ok {memblock : Memblock} (h : s.step cb (.send memblock) = some s') :
    memblock.Filled ∧
    ((∃ c, s.channel.writeClient memblock = .ok (none, c) ∧ s' = { s with channel := c }) ∨
    ∃ pos c, s.channel.writeClient memblock = .ok (some pos, c) ∧
      s' = { s with
        channel := c
        owner := Function.update s.owner (qPos pos) s.accepted
        accepted := s.accepted + 1 }) := by
  simp only [step] at h
  split_ifs at h with hfilled
  refine ⟨hfilled, ?_⟩
  cases hwrite : s.channel.writeClient memblock with
  | error e => simp [hwrite] at h
  | ok rc =>
    obtain ⟨r, c⟩ := rc
    rw [hwrite] at h
    cases r with
    | none => exact .inl ⟨c, rfl, (Option.some.inj h).symm⟩
    | some pos => exact .inr ⟨pos, c, rfl, (Option.some.inj h).symm⟩

theorem serveOnce_ok (h : s.step cb .serveOnce = some s') :
    ∃ done c, process cb s.channel s.pos = .ok (done, c) ∧
      s' = { s with
        channel := c
        pos := u32 (s.pos + 1)
        invoked :=
          if (s.channel.readServer s.pos).isSome then s.invoked ++ [s.owner (qPos s.pos)]
          else s.invoked } := by
  simp only [step] at h
  cases hprocess : process cb s.channel s.pos with
  | error e => simp [hprocess] at h
  | ok rc =>
    obtain ⟨done, c⟩ := rc
    rw [hprocess] at h
    exact ⟨done, c, rfl, (Option.some.inj h).symm⟩

theorem recv_ok {pos : Nat} (h : s.step cb (.recv pos) = some s') :
    ∃ r c, s.channel.readClient pos = some (.ok (r, c)) ∧
      s' = { s with channel := c, received := s.received ++ [s.owner (qPos pos)] } := by
  simp only [step] at h
  cases hread : s.channel.readClient pos with
  | none => simp [hread] at h
  | some result =>
    cases result with
    | error e => simp [hread] at h
    | ok rc =>
      obtain ⟨r, c⟩ := rc
      rw [hread] at h
      exact ⟨r, c, rfl, (Option.some.inj h).symm⟩

end Calls

theorem step_cases {cb : Callback} {s s' : Service} {l : Label} (h : s.step cb l = some s') :
    (s'.channel.vacant = s.channel.vacant ∧ s'.channel.unanswered = s.channel.unanswered ∧
      s'.owner = s.owner ∧ s'.accepted = s.accepted ∧ s'.invoked = s.invoked ∧
      s'.received = s.received ∧ (l = .serveOnce → s.channel.vacant (qPos s.pos) = true) ∧
      ∀ pos, l ≠ .recv pos) ∨
    (∃ memblock q, l = .send memblock ∧ s.channel.vacant q = true ∧
      s'.channel.vacant = Function.update s.channel.vacant q false ∧
      s'.channel.unanswered = s.channel.unanswered ∧
      s'.owner = Function.update s.owner q s.accepted ∧ s'.accepted = s.accepted + 1 ∧
      s'.invoked = s.invoked ∧ s'.received = s.received) ∨
    (∃ q, l = .serveOnce ∧ q = qPos s.pos ∧ s.channel.vacant q = false ∧
      s'.channel.vacant = s.channel.vacant ∧
      s'.channel.unanswered = Function.update s.channel.unanswered q false ∧
      s'.owner = s.owner ∧ s'.accepted = s.accepted ∧ s'.invoked = s.invoked ++ [s.owner q] ∧
      s'.received = s.received) ∨
    (∃ pos q, l = .recv pos ∧ q = qPos pos ∧ s.channel.unanswered q = false ∧
      s'.channel.vacant = Function.update s.channel.vacant q true ∧
      s'.channel.unanswered = Function.update s.channel.unanswered q true ∧
      s'.owner = s.owner ∧ s'.accepted = s.accepted ∧ s'.invoked = s.invoked ∧
      s'.received = s.received ++ [s.owner q]) := by
  cases l with
  | send memblock =>
    obtain ⟨-, ⟨c, hwrite, rfl⟩ | ⟨pos, c, hwrite, rfl⟩⟩ := send_ok h
    · obtain ⟨hresp, -, ⟨-, hvacant⟩ | ⟨hnone, -⟩⟩ := Channel.writeClient_cases hwrite
      · exact .inl ⟨hvacant, hresp, rfl, rfl, rfl, rfl, nofun, nofun⟩
      · cases hnone
    · obtain ⟨hresp, -, ⟨hnone, -⟩ | ⟨hsome, hfree, hvacant⟩⟩ := Channel.writeClient_cases hwrite
      · cases hnone
      · obtain rfl := Option.some.inj hsome
        exact .inr (.inl ⟨memblock, _, rfl, hfree, hvacant, hresp, rfl, rfl, rfl, rfl⟩)
  | serveOnce =>
    obtain ⟨done, c, hprocess, rfl⟩ := serveOnce_ok h
    rcases Channel.process_cases hprocess with ⟨hvacant, hread, rfl⟩ | ⟨hbusy, req, hread, hwrite⟩
    · exact .inl ⟨rfl, rfl, rfl, rfl, by simp [hread], rfl, fun _ => hvacant, nofun⟩
    · obtain ⟨hvacant, hresp⟩ := Channel.writeServer_ok hwrite
      exact .inr (.inr (.inl ⟨_, rfl, rfl, hbusy, hvacant, hresp, rfl, rfl, by simp [hread], rfl⟩))
  | recv pos =>
    obtain ⟨r, c, hread, rfl⟩ := recv_ok h
    obtain ⟨hresp, hvacant, hresp', -⟩ := Channel.readClient_cases hread
    exact .inr (.inr (.inr ⟨pos, _, rfl, rfl, hresp, hvacant, hresp', rfl, rfl, rfl, rfl⟩))

structure Sound (s : Service) : Prop where
  owner_lt : ∀ q, s.channel.vacant q = false → s.owner q < s.accepted
  distinct : ∀ q q', s.channel.vacant q = false → s.channel.vacant q' = false →
    s.owner q = s.owner q' → q = q'
  answered : ∀ q, s.channel.vacant q = false →
    (s.channel.unanswered q = false ↔ s.owner q ∈ s.invoked)
  unused : ∀ q, s.channel.vacant q = true → s.channel.unanswered q = true
  invoked_lt : ∀ id ∈ s.invoked, id < s.accepted

theorem sound_new (heapBase stride bufferSize : Nat) : (new heapBase stride bufferSize).Sound := by
  constructor <;> simp [new, Channel.new, Channel.vacant, Channel.unanswered, Channel.elem,
    ChannelElem.fresh, Element.fresh]

theorem Sound.step {cb : Callback} {s s' : Service} {l : Label} (hs : s.Sound)
    (h : s.step cb l = some s') : s'.Sound := by
  obtain ⟨hlt, hinj, hans, hidle, hinv⟩ := hs
  rcases step_cases h with ⟨hv, hu, ho, ha, hi, -⟩ | ⟨m, q, -, hq, hv, hu, ho, ha, hi, -⟩ |
      ⟨q, -, -, hq, hv, hu, ho, ha, hi, -⟩ | ⟨pos, q, -, -, hq, hv, hu, ho, ha, hi, -⟩
  · constructor <;> simp only [hv, hu, ho, ha, hi]
    exacts [hlt, hinj, hans, hidle, hinv]
  · -- the number given to the new request is in no slot and not yet invoked
    have hfresh : ∀ q', s.channel.vacant q' = false → s.owner q' ≠ s.accepted :=
      fun q' hq' => Nat.ne_of_lt (hlt q' hq')
    have hunseen : s.accepted ∉ s.invoked := fun hmem => Nat.lt_irrefl _ (hinv _ hmem)
    have hempty := hidle q hq
    constructor <;> simp only [hv, hu, ho, ha, hi] <;> grind [Function.update_apply]
  · -- only the slot that is served holds the request that is invoked
    have honly : ∀ q', s.channel.vacant q' = false → s.owner q' = s.owner q → q' = q :=
      fun q' hq' => hinj q' q hq' hq
    constructor <;> simp only [hv, hu, ho, ha, hi]
    · exact hlt
    · exact hinj
    · grind [Function.update_apply]
    · grind [Function.update_apply]
    · grind
  · constructor <;> simp only [hv, hu, ho, ha, hi] <;> grind [Function.update_apply]

/-- `serve_once` does not come to a request that it has answered before and whose response
is still in the slot. -/
def NotAnswered (s : Service) (l : Label) : Prop :=
  l = .serveOnce → (s.channel.readServer s.pos).isSome →
    (s.channel.elem (qPos s.pos)).resp.empty = true

theorem notAnswered_iff {s : Service} : s.NotAnswered .serveOnce ↔
    (s.channel.vacant (qPos s.pos) = false → s.channel.unanswered (qPos s.pos) = true) := by
  simp only [NotAnswered, Channel.readServer, Channel.vacant, Channel.unanswered, true_implies]
  split_ifs with hempty <;> simp [hempty]

theorem Sound.nodup_step {cb : Callback} {s s' : Service} {l : Label} (hs : s.Sound)
    (h : s.step cb l = some s') : s'.invoked.Nodup ↔ s.invoked.Nodup ∧ s.NotAnswered l := by
  rcases step_cases h with ⟨-, -, -, -, hi, -, hvacant, -⟩ | ⟨m, q, rfl, -, -, -, -, -, hi, -⟩ |
      ⟨q, rfl, rfl, hq, -, -, -, -, hi, -⟩ | ⟨pos, q, rfl, -, -, -, -, -, -, hi, -⟩
  · rw [hi, iff_self_and]
    rintro - rfl
    exact notAnswered_iff.mpr (fun hbusy => by simp [hvacant rfl] at hbusy) rfl
  · simp [hi, NotAnswered]
  · have hiff := hs.answered _ hq
    rw [hi, notAnswered_iff, List.nodup_append_comm, List.singleton_append, List.nodup_cons, ← hiff]
    simp [hq, and_comm]
  · simp [hi, NotAnswered]

/-- The callback runs at most once on every accepted request in exactly those runs in
which `serve_once` finds no request that it has already answered. -/
theorem at_most_once (cb : Callback) {heapBase stride bufferSize : Nat} {labels : List Label}
    {s : Service} (h : Machine.run (step cb) (new heapBase stride bufferSize) labels = some s) :
    s.invoked.Nodup ↔
      Machine.Run (step cb) NotAnswered (new heapBase stride bufferSize) labels s := by
  apply Machine.Run.exact Sound (fun s => s.invoked.Nodup) h (sound_new _ _ _) List.nodup_nil
  intro t l t' ht hs
  exact ⟨ht.step hs, ht.nodup_step hs⟩

theorem at_most_once_received : ∃ s,
    Machine.run (step .echo) (new 4096 128 (2 ^ 28))
      [.send (.ofData [1, 2]), .serveOnce, .recv 0, .serveOnce] = some s ∧
    (s.invoked.Nodup ↔ Machine.Run (step .echo) NotAnswered (new 4096 128 (2 ^ 28))
      [.send (.ofData [1, 2]), .serveOnce, .recv 0, .serveOnce] s) := by
  obtain ⟨s, hs⟩ := Option.isSome_iff_exists.mp (show (Machine.run (step .echo) (new 4096 128 (2 ^ 28))
    [.send (.ofData [1, 2]), .serveOnce, .recv 0, .serveOnce]).isSome by decide +kernel)
  exact ⟨s, hs, at_most_once .echo hs⟩

/-- The position of the server comes round to slot 0 while its response waits there. -/
theorem serves_twice : ∃ labels s,
    Machine.run (step .echo) (new 4096 128 (2 ^ 28)) labels = some s ∧ ¬ s.invoked.Nodup := by
  have hrun : (Machine.run (step .echo) (new 4096 128 (2 ^ 28))
      (.send (.ofData [1, 2]) :: List.replicate 1025 .serveOnce)).map (·.invoked) =
      some [0, 0] := by decide +kernel
  obtain ⟨s, hs, hinvoked⟩ := Option.map_eq_some_iff.mp hrun
  exact ⟨_, s, hs, by rw [hinvoked]; decide⟩

end Service

end Shadesmar.Rpc
