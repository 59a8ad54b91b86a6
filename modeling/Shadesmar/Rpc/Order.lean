import Shadesmar.Rpc.ResponseMemory

namespace Shadesmar.Rpc

open Library Shadesmar.Memory

namespace Service

variable {cb : Callback} {s s' : Service} {l : Label}

def Pending (s : Service) (n : Nat) : Prop := n < s.accepted ∧ n ∉ s.invoked

def Oldest (s : Service) (n : Nat) : Prop := s.Pending n ∧ ∀ m, s.Pending m → n ≤ m

def Seated (s : Service) : Prop :=
  ∀ n, s.Pending n → ∃ q, s.channel.vacant q = false ∧ s.owner q = n

theorem seated_new (heapBase stride bufferSize : Nat) :
    (new heapBase stride bufferSize).Seated := by
  intro n hn
  exact absurd hn.1 (Nat.not_lt_zero n)

theorem Seated.step (h : s.Seated) (hsound : s.Sound) (hs : s.step cb l = some s') :
    s'.Seated := by
  intro n hn
  obtain ⟨hlt, hnew⟩ := hn
  rcases step_cases hs with ⟨hv, -, ho, ha, hi, -⟩ | ⟨m, q, -, hq, hv, -, ho, ha, hi, -⟩ |
      ⟨q, -, -, -, hv, -, ho, ha, hi, -⟩ | ⟨pos, q, -, -, hq, hv, -, ho, ha, hi, -⟩
  · rw [ha] at hlt
    rw [hi] at hnew
    rw [hv, ho]
    exact h n ⟨hlt, hnew⟩
  · rw [ha] at hlt
    rw [hi] at hnew
    by_cases hlast : n = s.accepted
    · exact ⟨q, by simp [hv], by simp [ho, hlast]⟩
    · obtain ⟨q', hbusy, howner⟩ := h n ⟨by omega, hnew⟩
      have hne : q' ≠ q := by
        rintro rfl
        simp [hq] at hbusy
      exact ⟨q', by simp [hv, hne, hbusy], by simp [ho, hne, howner]⟩
  · rw [ha] at hlt
    rw [hi] at hnew
    rw [hv, ho]
    exact h n ⟨hlt, fun hmem => hnew (List.mem_append_left _ hmem)⟩
  · rw [ha] at hlt
    rw [hi] at hnew
    obtain ⟨q', hbusy, howner⟩ := h n ⟨hlt, hnew⟩
    -- the slot that is given up holds an answered request
    have hne : q' ≠ q := by
      rintro rfl
      exact hnew (howner ▸ (hsound.answered q' hbusy).mp hq)
    exact ⟨q', by simp [hv, hne, hbusy], by simp [ho, howner]⟩

theorem step_pos (hs : s.step cb l = some s') :
    s'.pos = if l = .serveOnce then u32 (s.pos + 1) else s.pos := by
  cases l with
  | send memblock => obtain ⟨-, ⟨c, -, rfl⟩ | ⟨pos, c, -, rfl⟩⟩ := send_ok hs <;> rfl
  | serveOnce =>
    obtain ⟨done, c, -, rfl⟩ := serveOnce_ok hs
    rfl
  | recv pos =>
    obtain ⟨r, c, -, rfl⟩ := recv_ok hs
    rfl

def handedOut (s : Service) : Label → List Nat
  | .send memblock =>
    match s.channel.writeClient memblock with
    | .ok (some pos, _) => [pos]
    | _ => []
  | _ => []

theorem handedOut_cases (hs : s.step cb l = some s') :
    (s.handedOut l = [] ∧ s'.accepted = s.accepted ∧ s'.owner = s.owner ∧
      ∀ q, s'.channel.vacant q = false → s.channel.vacant q = false) ∨
    (s.handedOut l = [s.channel.counter] ∧ s'.accepted = s.accepted + 1 ∧
      s.channel.vacant (qPos s.channel.counter) = true ∧
      s'.owner = Function.update s.owner (qPos s.channel.counter) s.accepted ∧
      s'.channel.vacant = Function.update s.channel.vacant (qPos s.channel.counter) false) := by
  cases l with
  | send memblock =>
    obtain ⟨-, ⟨c, hwrite, rfl⟩ | ⟨pos, c, hwrite, rfl⟩⟩ := send_ok hs
    · obtain ⟨-, -, ⟨-, hvacant⟩ | ⟨hnone, -⟩⟩ := Channel.writeClient_cases hwrite
      · exact .inl ⟨by simp [handedOut, hwrite], rfl, rfl, fun q hq => hvacant ▸ hq⟩
      · cases hnone
    · obtain ⟨-, -, ⟨hnone, -⟩ | ⟨hsome, hfree, hvacant⟩⟩ := Channel.writeClient_cases hwrite
      · cases hnone
      · obtain rfl := Option.some.inj hsome
        exact .inr ⟨by simp [handedOut, hwrite], rfl, hfree, rfl, hvacant⟩
  | serveOnce =>
    rcases step_cases hs with ⟨hv, -, ho, ha, -⟩ | ⟨_, _, hl, -⟩ | ⟨q, -, -, -, hv, -, ho, ha, -⟩ |
        ⟨_, _, hl, -⟩
    · exact .inl ⟨rfl, ha, ho, fun q hq => hv ▸ hq⟩
    · cases hl
    · exact .inl ⟨rfl, ha, ho, fun q hq => hv ▸ hq⟩
    · cases hl
  | recv pos =>
    rcases step_cases hs with ⟨-, -, -, -, -, -, -, hl⟩ | ⟨_, _, hl, -⟩ | ⟨_, hl, -⟩ |
        ⟨_, q, -, -, -, hv, -, ho, ha, -⟩
    · exact absurd rfl (hl pos)
    · cases hl
    · cases hl
    · refine .inl ⟨rfl, ha, ho, ?_⟩
      intro q' hq'
      by_cases hne : q' = q
      · simp [hv, hne] at hq'
      · simpa [hv, hne] using hq'

end Service

/-- `calls` counts the calls of `serve_once`, and `positions` are the positions handed out,
by number of the request. -/
structure Polling where
  service : Service
  calls : Nat
  positions : List Nat

namespace Polling

open Service (Label)

def new (heapBase stride bufferSize : Nat) : Polling := ⟨.new heapBase stride bufferSize, 0, []⟩

def step (cb : Callback) (s : Polling) (l : Label) : Option Polling :=
  (s.service.step cb l).map fun t =>
    { service := t
      calls := if l = .serveOnce then s.calls + 1 else s.calls
      positions := s.positions ++ s.service.handedOut l }

/-- `serve_once` runs the callback on the oldest pending request, and returns what the
storing of the response returns. -/
def ServesOldest (cb : Callback) (s : Polling) (l : Label) : Prop :=
  l = .serveOnce → ∀ n, s.service.Oldest n →
    ∃ t req done c, s.step cb .serveOnce = some t ∧
      t.service.invoked = s.service.invoked ++ [n] ∧
      s.service.channel.readServer s.service.pos = some req ∧
      process cb s.service.channel s.service.pos = .ok (done, c) ∧
      s.service.channel.writeServer (cb.answer req) s.service.pos = .ok (done, c)

/-- As many calls of `serve_once` have been made, up to whole laps, as positions had been
passed when the oldest pending request was accepted. -/
def Aligned (s : Polling) (l : Label) : Prop :=
  l = .serveOnce → ∀ n, s.service.Oldest n → ∀ p, s.positions[n]? = some p →
    s.calls % queueSize = p % queueSize

variable {cb : Callback} {s s' : Polling} {l : Label} {size : Nat}

theorem step_ok (h : s.step cb l = some s') :
    s.service.step cb l = some s'.service ∧
    s'.calls = (if l = .serveOnce then s.calls + 1 else s.calls) ∧
    s'.positions = s.positions ++ s.service.handedOut l := by
  obtain ⟨t, ht, rfl⟩ := Option.map_eq_some_iff.mp h
  exact ⟨ht, rfl, rfl⟩

structure Sound (size : Nat) (s : Polling) : Prop where
  service : s.service.Sound
  seated : s.service.Seated
  kept : ∃ bs, s.service.Kept size bs
  pos : s.service.pos = u32 s.calls
  length : s.positions.length = s.service.accepted
  placed : ∀ q, s.service.channel.vacant q = false →
    ∃ p, s.positions[s.service.owner q]? = some p ∧ qPos p = q

theorem sound_new {heapBase stride bufferSize : Nat}
    (hb : DoubleAllocator.Admits heapBase stride bufferSize) :
    (new heapBase stride bufferSize).Sound (bufferSize / 2) := by
  refine ⟨Service.sound_new _ _ _, Service.seated_new _ _ _, ⟨[], Service.kept_new hb⟩, ?_, rfl, ?_⟩
  · exact (u32_eq (Nat.two_pow_pos 32)).symm
  · intro q hq
    simp [new, Service.new, Channel.new, Channel.vacant, Channel.elem, ChannelElem.fresh,
      Element.fresh] at hq

theorem Sound.step (hlim : size + 1 < 2 ^ 32) (h : s.Sound size) (hs : s.step cb l = some s') :
    s'.Sound size := by
  obtain ⟨hstep, hcalls, hpositions⟩ := step_ok hs
  obtain ⟨bs, hkept⟩ := h.kept
  obtain ⟨bs', hkept', -⟩ := hkept.step hlim hstep
  refine ⟨h.service.step hstep, h.seated.step h.service hstep, ⟨bs', hkept'⟩, ?_, ?_, ?_⟩
  · rw [Service.step_pos hstep, hcalls, h.pos]
    split_ifs
    · exact u32_succ _
    · rfl
  · rw [hpositions, List.length_append, h.length]
    rcases Service.handedOut_cases hstep with ⟨hnone, ha, -⟩ | ⟨hone, ha, -⟩
    · simp [hnone, ha]
    · simp [hone, ha]
  · intro q hq
    rw [hpositions]
    rcases Service.handedOut_cases hstep with ⟨hnone, -, ho, hv⟩ | ⟨hone, -, -, ho, hv⟩
    · rw [hnone, List.append_nil, ho]
      exact h.placed q (hv q hq)
    · rw [hone, ho]
      by_cases hnew : q = qPos s.service.channel.counter
      · refine ⟨s.service.channel.counter, ?_, hnew.symm⟩
        rw [hnew, Function.update_self, ← h.length, List.getElem?_concat_length]
      · rw [hv, Function.update_of_ne hnew] at hq
        obtain ⟨p, hp, hslot⟩ := h.placed q hq
        refine ⟨p, ?_, hslot⟩
        rw [Function.update_of_ne hnew]
        exact (List.getElem?_append_left (List.getElem?_eq_some_iff.mp hp).1).trans hp

theorem Sound.seat (h : s.Sound size) {n : Nat} (hn : s.service.Pending n) :
    ∃ p, s.positions[n]? = some p ∧ s.service.channel.vacant (qPos p) = false ∧
      s.service.owner (qPos p) = n := by
  obtain ⟨q, hbusy, howner⟩ := h.seated n hn
  obtain ⟨p, hp, hslot⟩ := h.placed q hbusy
  subst hslot
  rw [howner] at hp
  exact ⟨p, hp, hbusy, howner⟩

theorem Sound.process (hlim : size + 1 < 2 ^ 32) (h : s.Sound size) :
    ∃ done c, process cb s.service.channel s.service.pos = .ok (done, c) := by
  obtain ⟨bs, hkept⟩ := h.kept
  unfold Rpc.process
  cases hread : s.service.channel.readServer s.service.pos with
  | none => exact ⟨false, _, rfl⟩
  | some req =>
    rcases Channel.writeServer_eq hkept.ring (hkept.size ▸ hlim) (cb.answer req) s.service.pos with
      ⟨herror, -⟩ | ⟨b, a, hok, -⟩
    · exact ⟨false, _, herror⟩
    · exact ⟨true, _, hok⟩

theorem Sound.servesOldest_iff (hlim : size + 1 < 2 ^ 32) (h : s.Sound size) :
    s.ServesOldest cb l ↔ s.Aligned l := by
  have hlook : qPos s.service.pos = qPos s.calls := by rw [h.pos, qPos_u32]
  constructor
  · rintro hserves rfl n hn p hp
    obtain ⟨t, req, done, c, hs, hinvoked, hread, -, -⟩ := hserves rfl n hn
    obtain ⟨p', hp', hbusy, howner⟩ := h.seat hn.1
    obtain rfl := Option.some.inj (hp.symm.trans hp')
    rw [← qPos_eq_iff, ← hlook]
    rcases Service.step_cases (step_ok hs).1 with ⟨-, -, -, -, hi, -⟩ | ⟨_, _, hl, -⟩ |
        ⟨q, -, hq, hvacant, -, -, -, -, hi, -⟩ | ⟨_, _, hl, -⟩
    · rw [hi] at hinvoked
      simp at hinvoked
    · cases hl
    · rw [hi] at hinvoked
      have hsame : s.service.owner q = n := by simpa using hinvoked
      rw [← hq]
      exact h.service.distinct q (qPos p) hvacant hbusy (hsame.trans howner.symm)
    · cases hl
  · rintro haligned rfl n hn
    obtain ⟨p, hp, hbusy, howner⟩ := h.seat hn.1
    have hslot : qPos s.service.pos = qPos p := by
      rw [hlook, qPos_eq_iff]
      exact haligned rfl n hn p hp
    obtain ⟨done, c, hprocess⟩ : ∃ done c, Rpc.process cb s.service.channel s.service.pos =
        .ok (done, c) := h.process hlim
    rcases Channel.process_cases hprocess with ⟨hvacant, -⟩ | ⟨-, req, hread, hwrite⟩
    · simp [hslot, hbusy] at hvacant
    · have hstep : s.service.step cb .serveOnce = some { s.service with
          channel := c
          pos := u32 (s.service.pos + 1)
          invoked := s.service.invoked ++ [n] } := by
        simp [Service.step, hprocess, hread, hslot, howner]
      exact ⟨_, req, done, c, congrArg (Option.map _) hstep, rfl, hread, hprocess, hwrite⟩

def InOrder (s : Polling) : Prop := ∃ k, ∀ n, n ∈ s.service.invoked ↔ n < k

theorem InOrder.step (h : s.InOrder) (hsound : s.service.Sound)
    (hserves : s.ServesOldest cb l) (hs : s.step cb l = some s') : s'.InOrder := by
  obtain ⟨k, hk⟩ := h
  rcases Service.step_cases (step_ok hs).1 with ⟨-, -, -, -, hi, -⟩ | ⟨_, _, -, -, -, -, -, -, hi, -⟩ |
      ⟨q, rfl, -, hbusy, -, -, -, -, hi, -⟩ | ⟨_, _, -, -, -, -, -, -, -, hi, -⟩
  · exact ⟨k, hi ▸ hk⟩
  · exact ⟨k, hi ▸ hk⟩
  · by_cases hpending : s.service.Pending k
    · have hold : s.service.Oldest k := by
        refine ⟨hpending, fun m hm => ?_⟩
        by_contra hlt
        exact hm.2 ((hk m).mpr (by omega))
      obtain ⟨t, _, _, _, ht, hinvoked, -⟩ := hserves rfl k hold
      obtain rfl := Option.some.inj (hs.symm.trans ht)
      refine ⟨k + 1, fun n => ?_⟩
      rw [hinvoked, List.mem_append, List.mem_singleton, hk]
      omega
    · -- nothing is pending, and the request found is one that has been answered
      have hlt := hsound.owner_lt q hbusy
      have hseen : s.service.owner q ∈ s.service.invoked := by
        rw [hk]
        by_contra hle
        exact hpending ⟨by omega, fun hmem => Nat.lt_irrefl k ((hk k).mp hmem)⟩
      refine ⟨k, fun n => ?_⟩
      rw [hi, List.mem_append, List.mem_singleton, ← hk]
      exact ⟨fun hn => hn.elim id fun heq => heq ▸ hseen, .inl⟩
  · exact ⟨k, hi ▸ hk⟩

section Runs

variable {heapBase stride bufferSize : Nat} {labels : List Label}

theorem sound_of_run (hb : DoubleAllocator.Admits heapBase stride bufferSize)
    (h : Machine.run (step cb) (new heapBase stride bufferSize) labels = some s) :
    s.Sound (bufferSize / 2) :=
  (Machine.Run.of_run h).invariant (Sound (bufferSize / 2)) (sound_new hb)
    fun _ _ _ ht _ hs => ht.step hb.half_lt hs

/-- In the state after any run the next `serve_once` serves the oldest pending request if
and only if the two positions agree; it does so all along a run exactly when they agree at
every call, and then the requests are served in the order in which they were accepted. -/
theorem serves_oldest (cb : Callback) (hb : DoubleAllocator.Admits heapBase stride bufferSize)
    (h : Machine.run (step cb) (new heapBase stride bufferSize) labels = some s) :
    (s.ServesOldest cb .serveOnce ↔ s.Aligned .serveOnce) ∧
    (Machine.Run (step cb) (ServesOldest cb) (new heapBase stride bufferSize) labels s ↔
      Machine.Run (step cb) Aligned (new heapBase stride bufferSize) labels s) ∧
    (Machine.Run (step cb) Aligned (new heapBase stride bufferSize) labels s → s.InOrder) := by
  have hlim := hb.half_lt
  have hsound := sound_of_run hb h
  refine ⟨hsound.servesOldest_iff hlim, ⟨fun hrun => ?_, fun hrun => ?_⟩, fun hrun => ?_⟩
  · apply hrun.refine (Sound (bufferSize / 2)) (sound_new hb)
    intro l _ t t' ht hok hs
    exact ⟨ht.step hlim hs, (ht.servesOldest_iff hlim).mp hok⟩
  · apply hrun.refine (Sound (bufferSize / 2)) (sound_new hb)
    intro l _ t t' ht hok hs
    exact ⟨ht.step hlim hs, (ht.servesOldest_iff hlim).mpr hok⟩
  · have hall : s.Sound (bufferSize / 2) ∧ s.InOrder := by
      apply hrun.invariant fun s => s.Sound (bufferSize / 2) ∧ s.InOrder
      · exact ⟨sound_new hb, 0, fun n => by simp [new, Service.new]⟩
      · rintro t l t' ⟨ht, horder⟩ hok hs
        exact ⟨ht.step hlim hs, horder.step ht.service ((ht.servesOldest_iff hlim).mpr hok) hs⟩
    exact hall.2

end Runs

theorem serves_oldest_two : ∃ s,
    Machine.run (step .echo) (new 4096 128 (2 ^ 28))
      [.send (.ofData [1]), .send (.ofData [2]), .serveOnce] = some s ∧
    (s.ServesOldest .echo .serveOnce ↔ s.Aligned .serveOnce) ∧
    (Machine.Run (step .echo) (ServesOldest .echo) (new 4096 128 (2 ^ 28))
        [.send (.ofData [1]), .send (.ofData [2]), .serveOnce] s ↔
      Machine.Run (step .echo) Aligned (new 4096 128 (2 ^ 28))
        [.send (.ofData [1]), .send (.ofData [2]), .serveOnce] s) ∧
    (Machine.Run (step .echo) Aligned (new 4096 128 (2 ^ 28))
        [.send (.ofData [1]), .send (.ofData [2]), .serveOnce] s → s.InOrder) := by
  obtain ⟨s, hs⟩ := Option.isSome_iff_exists.mp (show (Machine.run (step .echo)
    (new 4096 128 (2 ^ 28)) [.send (.ofData [1]), .send (.ofData [2]), .serveOnce]).isSome by
      decide +kernel)
  exact ⟨s, hs, serves_oldest .echo ⟨by decide, by decide, by decide, by decide⟩ hs⟩

/-- After a call of `serve_once` on the empty channel, the next one looks past the request. -/
theorem empty_poll_skips : ∃ labels s t,
    Machine.run (step .echo) (new 4096 128 (2 ^ 28)) labels = some s ∧ s.service.Oldest 0 ∧
      s.step .echo .serveOnce = some t ∧ t.service.invoked = [] ∧
      ¬ s.ServesOldest .echo .serveOnce := by
  have hrun : (Machine.run (step .echo) (new 4096 128 (2 ^ 28))
      [.serveOnce, .send (.ofData [1, 2])]).map (fun s => (s.service.accepted, s.service.invoked,
        (s.step .echo .serveOnce).map (·.service.invoked))) = some (1, [], some []) := by
    decide +kernel
  obtain ⟨s, hs, hvals⟩ := Option.map_eq_some_iff.mp hrun
  simp only [Prod.mk.injEq] at hvals
  obtain ⟨haccepted, hinvoked, hnext⟩ := hvals
  obtain ⟨t, ht, hskipped⟩ := Option.map_eq_some_iff.mp hnext
  have hold : s.service.Oldest 0 := ⟨⟨by omega, by simp [hinvoked]⟩, fun m _ => Nat.zero_le m⟩
  refine ⟨_, s, t, hs, hold, ht, hskipped, fun hserves => ?_⟩
  obtain ⟨t', _, _, _, ht', hserved, -⟩ := hserves rfl 0 hold
  obtain rfl := Option.some.inj (ht.symm.trans ht')
  simp [hskipped] at hserved

end Polling

end Shadesmar.Rpc
