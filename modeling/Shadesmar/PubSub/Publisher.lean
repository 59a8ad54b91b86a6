import Shadesmar.PubSub.Window

namespace Shadesmar.PubSub

open Library Shadesmar.Memory

namespace Topic

/-- `write` up to the free loop: the pointer the loop will be given, or `none` when the
message is refused. -/
def exchange (t : Topic) (memblock : Memblock) : Checked (Option (Option Nat) × Topic) :=
  if memblock.size > t.allocator.getFreeMemory then
    .ok (none, t)
  else do
    let q := qPos t.counter
    match ← t.alloc memblock.size with
    | (none, t) => return (none, t)
    | (some newAddress, t) =>
      let t := t.userToShm newAddress memblock.bytes
      let oldAddress := t.oldAddress q
      return (some oldAddress, ((t.setHandle q newAddress).setSize q memblock.size).setEmpty q)

theorem write_eq (fuel : Nat) (t : Topic) (memblock : Memblock) :
    t.write fuel memblock = (do
      match ← t.exchange memblock with
      | (none, t) => return some (false, t)
      | (some oldAddress, t) =>
        match ← t.freeLoop fuel oldAddress with
        | none => return none
        | some t => return some (true, t.incCounter)) := by
  unfold write exchange
  split_ifs
  · rfl
  · cases t.alloc memblock.size with
    | error e => rfl
    | ok r =>
      obtain ⟨p, t'⟩ := r
      cases p <;> rfl

theorem freeLoop_first {t t' : Topic} {ptr : Option Nat} (h : t.free ptr = .ok (true, t'))
    (fuel : Nat) : t.freeLoop (fuel + 1) ptr = .ok (some t') := by
  rw [freeLoop, h]
  rfl

theorem write_vacant {t : Topic} {m : Memblock} {p : Nat} {a : Allocator}
    (hroom : m.size ≤ t.allocator.getFreeMemory)
    (halloc : t.allocator.alloc (u32 m.size) = .ok (some p, a))
    (hempty : (t.elem (qPos t.counter)).empty = true) :
    ∃ t', t.write 1 m = .ok (some (true, t')) ∧ t'.allocator = a.store p m.bytes ∧
      t'.counter = u32 (t.counter + 1) ∧
      t'.elem (qPos t.counter) = ⟨m.size, false, a.ptrToHandle p⟩ ∧
      ∀ q, q ≠ qPos t.counter → t'.elem q = t.elem q := by
  let t₁ : Topic := ({ t with allocator := a } : Topic).userToShm p m.bytes
  have hold : t₁.oldAddress (qPos t.counter) = none := if_pos hempty
  have hexchange : t.exchange m = .ok (some none, (((t₁.setHandle (qPos t.counter) p).setSize
      (qPos t.counter) m.size).setEmpty (qPos t.counter))) := by
    rw [exchange, alloc, if_neg (Nat.not_lt.mpr hroom), halloc]
    exact hold ▸ rfl
  refine ⟨_, by rw [write_eq, hexchange]; rfl, rfl, rfl, elem_swap .., ?_⟩
  exact fun q hq => elem_swap_ne _ _ _ _ hq

end Topic

namespace Window

variable {t : Topic} {hist : List Entry} {m : Memblock}

theorem exchange
    (h : Window t hist (hist.length - queueSize) hist.length hist.length hist.length)
    (hpos : qPos t.counter = qPos hist.length) (hm : m.Filled) :
    t.exchange m = .ok (none, t) ∧
      (t.allocator.getFreeMemory < m.size ∨ t.alloc m.size = .ok (none, t)) ∨
    ∃ b t', t.allocator.Lays m.size b ∧
      t.exchange m = .ok (some (oldest t' (hist ++ [⟨b, m.bytes⟩]) hist.length), t') ∧
      t'.counter = t.counter ∧ t'.allocator.size = t.allocator.size ∧
      Window t' (hist ++ [⟨b, m.bytes⟩]) (hist.length - queueSize) (hist.length + 1)
        (hist.length + 1) (hist.length + 1) := by
  unfold Topic.exchange
  by_cases hroom : m.size > t.allocator.getFreeMemory
  · rw [if_pos hroom]
    exact .inl ⟨rfl, .inl hroom⟩
  · rw [if_neg hroom, ← show m.bytes.length = m.size from hm]
    have hfits : m.bytes.length ≤ t.allocator.size := by
      have hfree := h.ring.getFreeMemory_le
      have hlen : m.bytes.length = m.size := hm
      omega
    rcases h.alloc m.bytes hfits with hnone | ⟨b, t₁, hsome, hqueue, hsize, hlays, hw⟩
    · rw [hnone]
      exact .inl ⟨rfl, .inr rfl⟩
    · have hget : (hist ++ [⟨b, m.bytes⟩])[hist.length]? = some ⟨b, m.bytes⟩ := by simp
      have hfill := hw.fill hget (Nat.le_of_lt hlays.room)
      have hold := hfill.oldAddress_eq
      have hcount := congrArg SharedQueue.counter hqueue
      have hstores := ((hfill.lock.setHandle (t₁.allocator.ptr b)).setSize m.bytes.length).setEmpty
      have hswap := hstores.swap hget (Nat.lt_succ_self _) (Entry.elem_swap _ _ ⟨b, m.bytes⟩)
      refine .inr ⟨b, _, hlays, ?_, ?_, ?_, hswap⟩
      · rw [hsome, hpos]
        exact congrArg (fun old => Except.ok (some old, _)) hold
      · exact hcount
      · exact hsize

/-- A complete call changes nothing, or the window has moved by one message and only the
increment of the counter is left; the free loop needs one try. -/
theorem write
    (h : Window t hist (hist.length - queueSize) hist.length hist.length hist.length)
    (hpos : qPos t.counter = qPos hist.length) (hm : m.Filled) (fuel : Nat) :
    t.write (fuel + 1) m = .ok (some (false, t)) ∧
      (t.allocator.getFreeMemory < m.size ∨ t.alloc m.size = .ok (none, t)) ∨
    ∃ b t', t.allocator.Lays m.size b ∧ t.write (fuel + 1) m = .ok (some (true, t'.incCounter)) ∧
      t'.counter = t.counter ∧ t'.allocator.size = t.allocator.size ∧
      Window t' (hist ++ [⟨b, m.bytes⟩]) (hist.length + 1 - queueSize) (hist.length + 1)
        (hist.length + 1) (hist.length + 1) := by
  rw [Topic.write_eq]
  rcases h.exchange hpos hm with ⟨hnone, hwhy⟩ | ⟨b, t₁, hlays, hsome, hcount, hsize, hw⟩
  · rw [hnone]
    exact .inl ⟨rfl, hwhy⟩
  · obtain ⟨t₂, hfree, hqueue, hsize', hw'⟩ := hw.free
    rw [hsome]
    simp only [bind, Except.bind, Topic.freeLoop_first hfree]
    refine .inr ⟨b, t₂, hlays, rfl, ?_, hsize'.trans hsize, hw'⟩
    rw [← hcount]
    exact congrArg SharedQueue.counter hqueue

end Window

structure Settled (t : Topic) (hist : List Entry) : Prop where
  window : Window t hist (hist.length - queueSize) hist.length hist.length hist.length
  counter : t.counter = hist.length

namespace Settled

variable {t : Topic} {hist : List Entry} {m : Memblock}

theorem new {heapBase bufferSize : Nat} (h : (Allocator.new heapBase bufferSize).Sized)
    (hsmall : bufferSize + 1 < 2 ^ 32) : Settled (Topic.new heapBase bufferSize) [] where
  window :=
    { ring := Allocator.ring_new h
      small := hsmall
      holds := fun _ _ hk => by simp at hk
      slots := fun _ _ hk => by simp at hk
      unused := fun _ _ => rfl
      freed_le := Nat.le_refl _
      swapped_le := Nat.le_refl _
      locked_le := Nat.le_succ _
      swapped_le_filled := Nat.le_refl _
      filled_le := Nat.le_refl _ }
  counter := rfl

theorem exchange (h : Settled t hist) (hm : m.Filled) :
    t.exchange m = .ok (none, t) ∧
      (t.allocator.getFreeMemory < m.size ∨ t.alloc m.size = .ok (none, t)) ∨
    ∃ b t', t.allocator.Lays m.size b ∧
      t.exchange m = .ok (some (Window.oldest t' (hist ++ [⟨b, m.bytes⟩]) hist.length), t') ∧
      t'.counter = t.counter ∧ t'.allocator.size = t.allocator.size ∧
      Window t' (hist ++ [⟨b, m.bytes⟩]) (hist.length - queueSize) (hist.length + 1)
        (hist.length + 1) (hist.length + 1) := h.window.exchange (by rw [h.counter]) hm

theorem exchanged (h : Settled t hist) (hm : m.Filled) {old : Option Nat} {t' : Topic}
    (ht : t.exchange m = .ok (some old, t')) :
    ∃ b, old = Window.oldest t' (hist ++ [⟨b, m.bytes⟩]) hist.length ∧
      Window t' (hist ++ [⟨b, m.bytes⟩]) (hist.length - queueSize) (hist.length + 1)
        (hist.length + 1) (hist.length + 1) := by
  rcases h.exchange hm with ⟨hnone, -⟩ | ⟨b, t₁, -, hsome, -, -, hw⟩
  · rw [hnone] at ht
    cases ht
  · rw [hsome] at ht
    simp only [Except.ok.injEq, Prod.mk.injEq, Option.some.injEq] at ht
    obtain ⟨rfl, rfl⟩ := ht
    exact ⟨b, rfl, hw⟩

theorem write (h : Settled t hist) (hm : m.Filled) (fuel : Nat) :
    t.write (fuel + 1) m = .ok (some (false, t)) ∧
      (t.allocator.getFreeMemory < m.size ∨ t.alloc m.size = .ok (none, t)) ∨
    ∃ b t', t.allocator.Lays m.size b ∧ t.write (fuel + 1) m = .ok (some (true, t'.incCounter)) ∧
      t'.counter = hist.length ∧ t'.allocator.size = t.allocator.size ∧
      Window t' (hist ++ [⟨b, m.bytes⟩]) (hist.length + 1 - queueSize) (hist.length + 1)
        (hist.length + 1) (hist.length + 1) := by
  have hwrite := h.window.write (by rw [h.counter]) hm fuel
  rwa [h.counter] at hwrite

theorem incCounter {t' : Topic} {r : Entry} (hcount : t'.counter = hist.length)
    (hlt : hist.length + 1 < 2 ^ 32)
    (hw : Window t' (hist ++ [r]) (hist.length + 1 - queueSize) (hist.length + 1)
      (hist.length + 1) (hist.length + 1)) : Settled t'.incCounter (hist ++ [r]) where
  window := by
    rw [List.length_append]
    exact hw.incCounter
  counter := by
    rw [Topic.counter_incCounter _ (by omega), List.length_append, hcount]
    rfl

theorem liveBlocks (h : Settled t hist) :
    t.allocator.liveBlocks = (hist.drop (hist.length - queueSize)).map Entry.block :=
  h.window.ring.liveBlocks

end Settled

structure Feed where
  topic : Topic
  accepted : List Memblock

namespace Feed

def new (heapBase bufferSize : Nat) : Feed := ⟨.new heapBase bufferSize, []⟩

/-- One call of `write`.  `none` stands for a buffer shorter than announced, an abort, and
a free loop that has not ended within `fuel` tries. -/
def step (fuel : Nat) (s : Feed) (m : Memblock) : Option Feed :=
  if m.Filled then
    match s.topic.write fuel m with
    | .ok (some (true, t)) => some ⟨t, s.accepted ++ [m]⟩
    | .ok (some (false, t)) => some ⟨t, s.accepted⟩
    | .ok none => none
    | .error _ => none
  else none

structure Sound (s : Feed) (hist : List Entry) : Prop where
  settled : Settled s.topic hist
  msgs : hist.map Entry.msg = s.accepted.map Memblock.bytes
  filled : ∀ m ∈ s.accepted, m.Filled

theorem Sound.length {s : Feed} {hist : List Entry} (h : s.Sound hist) :
    hist.length = s.accepted.length := by
  simpa using congrArg List.length h.msgs

theorem Sound.step {s s' : Feed} {hist : List Entry} {m : Memblock} {fuel : Nat}
    (h : s.Sound hist) (hs : step (fuel + 1) s m = some s') (hlt : s'.accepted.length < 2 ^ 32) :
    ∃ hist', s'.Sound hist' := by
  by_cases hm : m.Filled
  · rw [Feed.step, if_pos hm] at hs
    rcases h.settled.write hm fuel with ⟨hnone, -⟩ | ⟨b, t', -, hsome, hcount, -, hw⟩
    · rw [hnone] at hs
      obtain rfl := Option.some.inj hs
      exact ⟨hist, h⟩
    · rw [hsome] at hs
      obtain rfl := Option.some.inj hs
      rw [List.length_append, ← h.length] at hlt
      refine ⟨hist ++ [⟨b, m.bytes⟩], Settled.incCounter hcount hlt hw, ?_, ?_⟩
      · simp [h.msgs]
      · intro m' hm'
        rcases List.mem_append.mp hm' with hold | hnew
        · exact h.filled m' hold
        · exact List.mem_singleton.mp hnew ▸ hm
  · rw [Feed.step, if_neg hm] at hs
    cases hs

structure SlidingWindow (s : Feed) : Prop where
  counter : s.topic.counter = s.accepted.length
  live : s.topic.allocator.liveBlocks.length = min s.accepted.length queueSize
  slots : ∀ k m, s.accepted[k]? = some m → s.accepted.length ≤ k + queueSize →
    ∃ b, s.topic.allocator.liveBlocks[k - (s.accepted.length - queueSize)]? = some b ∧
      s.topic.elem (qPos k) = ⟨m.size, false, b.handle⟩ ∧ s.topic.allocator.Holds b m.bytes
  unused : ∀ i, (∀ k, k < s.accepted.length → s.accepted.length ≤ k + queueSize → qPos k ≠ i) →
    (s.topic.elem i).empty = true
  oldest : ∀ m p t, m.Filled → s.topic.exchange m = .ok (some (some p), t) →
    ∃ b, t.allocator.liveBlocks.head? = some b ∧ p = t.allocator.ptr b
  first_try : ∀ m old t, m.Filled → s.topic.exchange m = .ok (some old, t) →
    ∃ t', t.free old = .ok (true, t')
  returns : ∀ m fuel, m.Filled → ∃ done t, s.topic.write (fuel + 1) m = .ok (some (done, t))
  refused : ∀ m fuel t, m.Filled → s.topic.write fuel m = .ok (some (false, t)) → t = s.topic

theorem Sound.accepted_entry {s : Feed} {hist : List Entry} (h : s.Sound hist) {k : Nat}
    {m : Memblock} (hk : s.accepted[k]? = some m) :
    ∃ r, hist[k]? = some r ∧ r.msg = m.bytes ∧ r.msg.length = m.size := by
  have hmsg := congrArg (·[k]?) h.msgs
  simp only [List.getElem?_map, hk, Option.map_some, Option.map_eq_some_iff] at hmsg
  obtain ⟨r, hr, hbytes⟩ := hmsg
  refine ⟨r, hr, hbytes, ?_⟩
  rw [hbytes]
  exact h.filled m (List.mem_of_getElem? hk)

theorem Sound.slidingWindow {s : Feed} {hist : List Entry} (h : s.Sound hist) :
    s.SlidingWindow := by
  have hlen := h.length
  have hlive := h.settled.liveBlocks
  have hw := h.settled.window
  constructor
  case counter => rw [h.settled.counter, hlen]
  case live =>
    rw [hlive, List.length_map, List.length_drop, hlen]
    omega
  case slots =>
    intro k m hk hlap
    obtain ⟨r, hr, hbytes, hsize⟩ := h.accepted_entry hk
    have hlt := (List.getElem?_eq_some_iff.mp hr).1
    refine ⟨r.block, ?_, ?_, ?_⟩
    · have hback : hist.length - queueSize + (k - (s.accepted.length - queueSize)) = k := by omega
      rw [hlive, List.getElem?_map, List.getElem?_drop, hback, hr]
      rfl
    · rw [hw.slots k r hr (by omega) hlt, Entry.element, hsize]
    · rw [← hbytes]
      exact hw.holds k r hr (by omega) hlt
  case unused =>
    intro i hi
    have hfree : hist.length ≤ i.val := by
      by_contra hlt
      -- the last position before the counter that belongs to slot `i`
      have hpos := i.isLt
      refine hi (hist.length - 1 - (hist.length - 1 - i.val) % queueSize) ?_ ?_ ?_
      · omega
      · have := Nat.mod_lt (hist.length - 1 - i.val) (show 0 < queueSize by decide)
        omega
      · apply Fin.ext
        rw [qPos_val]
        unfold queueSize at *
        omega
    rw [hw.unused i hfree]
    rfl
  case oldest =>
    intro m p t hm ht
    obtain ⟨b, hold, hw'⟩ := h.settled.exchanged hm ht
    unfold Window.oldest at hold
    split_ifs at hold
    obtain ⟨r, hr, rfl⟩ := Option.map_eq_some_iff.mp hold.symm
    refine ⟨r.block, ?_, rfl⟩
    rw [hw'.ring.liveBlocks, List.head?_map, List.head?_drop, hr]
    rfl
  case first_try =>
    intro m old t hm ht
    obtain ⟨b, rfl, hw'⟩ := h.settled.exchanged hm ht
    obtain ⟨t'', hfree, -⟩ := hw'.free
    exact ⟨t'', hfree⟩
  case returns =>
    intro m fuel hm
    rcases h.settled.write hm fuel with ⟨hnone, -⟩ | ⟨b, t', -, hsome, -⟩
    · exact ⟨false, s.topic, hnone⟩
    · exact ⟨true, _, hsome⟩
  case refused =>
    intro m fuel t hm ht
    rw [Topic.write_eq] at ht
    rcases h.settled.exchange hm with ⟨hnone, -⟩ | ⟨b, t', -, hsome, -⟩
    · rw [hnone] at ht
      cases ht
      rfl
    · rw [hsome] at ht
      simp only [bind, Except.bind] at ht
      cases hloop : t'.freeLoop fuel (Window.oldest t' (hist ++ [⟨b, m.bytes⟩]) hist.length) with
      | error e =>
        rw [hloop] at ht
        cases ht
      | ok r =>
        rw [hloop] at ht
        cases r <;> cases ht

theorem accepted_le {s s' : Feed} {m : Memblock} {fuel : Nat} (hs : step fuel s m = some s') :
    s.accepted.length ≤ s'.accepted.length := by
  unfold step at hs
  split_ifs at hs
  split at hs <;> first | cases hs; done | skip
  all_goals
    obtain rfl := Option.some.inj hs
    simp

/-- The topic of a single publisher holds the last messages accepted and nothing else. -/
theorem sliding_window {heapBase bufferSize fuel : Nat} (hdvd : 4 ∣ bufferSize)
    (hle : 8 ≤ bufferSize) (hlim : bufferSize ≤ 2 ^ 31) (hspace : heapBase + bufferSize ≤ 2 ^ 64)
    {calls : List Memblock} {s : Feed}
    (h : Machine.run (step (fuel + 1)) (new heapBase bufferSize) calls = some s)
    (hlt : s.accepted.length < 2 ^ 32) : s.SlidingWindow := by
  have hsized : (Allocator.new heapBase bufferSize).Sized :=
    ⟨hdvd, hle, Nat.le_trans hlim (by decide), hspace⟩
  have hnew : (new heapBase bufferSize).Sound [] :=
    ⟨Settled.new hsized (by omega), rfl, fun _ hm => by cases hm⟩
  have hinv : s.accepted.length < 2 ^ 32 → ∃ hist, s.Sound hist := by
    apply (Machine.Run.of_run h).invariant
      fun t => t.accepted.length < 2 ^ 32 → ∃ hist, t.Sound hist
    · exact fun _ => ⟨[], hnew⟩
    · intro t m t' ih _ hs hlt'
      obtain ⟨hist, ht⟩ := ih (Nat.lt_of_le_of_lt (accepted_le hs) hlt')
      exact ht.step hs hlt'
  obtain ⟨hist, hsound⟩ := hinv hlt
  exact hsound.slidingWindow

theorem sliding_window_refusal : ∃ s, Machine.run (step 1) (new 4096 64)
    [.ofData [1, 2, 3], .ofData (List.replicate 60 0), .ofData [4]] = some s ∧
    s.accepted = [.ofData [1, 2, 3], .ofData [4]] ∧ s.SlidingWindow := by
  obtain ⟨s, hs, hacc⟩ : ∃ s, Machine.run (step 1) (new 4096 64)
      [.ofData [1, 2, 3], .ofData (List.replicate 60 0), .ofData [4]] = some s ∧
      s.accepted = [.ofData [1, 2, 3], .ofData [4]] := by
    have hrun : (Machine.run (step 1) (new 4096 64) [.ofData [1, 2, 3],
      .ofData (List.replicate 60 0), .ofData [4]]).map Feed.accepted =
      some [.ofData [1, 2, 3], .ofData [4]] := by decide +kernel
    simpa [Option.map_eq_some_iff] using hrun
  refine ⟨s, hs, hacc, sliding_window (by decide) (by decide) (by decide) (by decide) hs ?_⟩
  rw [hacc]
  decide

end Feed

end Shadesmar.PubSub
