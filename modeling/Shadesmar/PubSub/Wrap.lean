import Shadesmar.Memory.Room
import Shadesmar.PubSub.Subscriber

namespace Shadesmar.PubSub

open Library Shadesmar.Memory

structure Carries (t : Topic) (accepted : List (List UInt8)) (hist : List Entry) : Prop where
  window : Window t hist (hist.length - queueSize) hist.length hist.length hist.length
  counter : t.counter = u32 hist.length
  msgs : hist.map Entry.msg = accepted

namespace Carries

variable {t : Topic} {accepted : List (List UInt8)} {hist : List Entry}

theorem length (h : Carries t accepted hist) : hist.length = accepted.length := by
  simpa using congrArg List.length h.msgs

theorem new {heapBase bufferSize : Nat} (h : (Allocator.new heapBase bufferSize).Sized)
    (hsmall : bufferSize + 1 < 2 ^ 32) : Carries (.new heapBase bufferSize) [] [] where
  window := (Settled.new h hsmall).window
  counter := (u32_eq (show 0 < 2 ^ 32 by decide)).symm
  msgs := rfl

theorem accept (h : Carries t accepted hist) {t' : Topic} {r : Entry}
    (hcount : t'.counter = t.counter)
    (hw : Window t' (hist ++ [r]) (hist.length + 1 - queueSize) (hist.length + 1)
      (hist.length + 1) (hist.length + 1)) :
    Carries t'.incCounter (accepted ++ [r.msg]) (hist ++ [r]) := by
  refine ⟨?_, ?_, by simp [h.msgs]⟩
  · rw [List.length_append]
    exact hw.incCounter
  · change u32 (t'.counter + 1) = _
    rw [hcount, h.counter, u32_succ, List.length_append]
    rfl

theorem publish (h : Carries t accepted hist) (data : List UInt8) (fuel : Nat) :
    PubSub.publish (fuel + 1) t data = .ok (some (false, t)) ∨
    ∃ t' r, r.msg = data ∧ PubSub.publish (fuel + 1) t data = .ok (some (true, t')) ∧
      Carries t' (accepted ++ [r.msg]) (hist ++ [r]) := by
  have hpos : qPos t.counter = qPos hist.length := by rw [h.counter, qPos_u32]
  rcases h.window.write hpos (Memblock.filled_ofData data) fuel with
    ⟨hnone, -⟩ | ⟨b, t', -, hsome, hcount, -, hw⟩
  · exact .inl hnone
  · rw [Memblock.bytes_ofData] at hw
    exact .inr ⟨t'.incCounter, ⟨b, data⟩, rfl, hsome, h.accept hcount hw⟩

end Carries

structure Stream (m : Nat) where
  bus : Bus m
  positions : Fin m → Nat

namespace Stream

variable {n m : Nat}

def new (heapBase bufferSize : Nat) : Stream m := ⟨.new heapBase bufferSize, fun _ => 0⟩

def follow (s : Stream m) (bus : Bus m) : Turn n m → Fin m → Nat
  | .publish _ _ => s.positions
  | .spinOnce j => Function.update s.positions j <|
    if (bus.subs j).delivered.length = (s.bus.subs j).delivered.length then s.positions j
    else bus.accepted.length - sub32 bus.topic.counter (bus.subs j).counter

def step (alloc : Nat → Bool) (fuel : Nat) (s : Stream m) (l : Turn n m) : Option (Stream m) :=
  (s.bus.step alloc fuel l).map fun bus => ⟨bus, s.follow bus l⟩

structure Steady (s : Stream m) (hist : List Entry) : Prop where
  window : Window s.bus.topic hist (hist.length - queueSize) hist.length hist.length hist.length
  counter : s.bus.topic.counter = u32 hist.length
  msgs : hist.map Entry.msg = s.bus.accepted
  counters : ∀ j, (s.bus.subs j).counter = u32 (s.positions j)
  positions_le : ∀ j, s.positions j ≤ s.bus.accepted.length

variable {s s' : Stream m} {hist : List Entry} {alloc : Nat → Bool} {fuel : Nat} {j : Fin m}

theorem Steady.length (h : s.Steady hist) : hist.length = s.bus.accepted.length := by
  simpa using congrArg List.length h.msgs

theorem steady_new {heapBase bufferSize : Nat} (h : (Allocator.new heapBase bufferSize).Sized)
    (hsmall : bufferSize + 1 < 2 ^ 32) : (new heapBase bufferSize : Stream m).Steady [] where
  window := (Carries.new h hsmall).window
  counter := (Carries.new h hsmall).counter
  msgs := rfl
  counters := fun _ => (u32_eq (show 0 < 2 ^ 32 by decide)).symm
  positions_le := fun _ => Nat.le_refl _

/-- What `spin_once` does for a subscriber at position `k`, which may also stand for the
positions that differ from it by a multiple of 2^32. -/
theorem Steady.spinOnce (h : s.Steady hist) (halloc : ∀ n, alloc n = true) {k : Nat}
    (hk : k < s.bus.accepted.length) (hlag : s.bus.accepted.length - k < 2 ^ 32)
    (hcounter : (s.bus.subs j).counter = u32 k)
    (hnew : (s.bus.subs j).counter < s.bus.topic.counter) :
    ∃ data, s.bus.accepted[target s.bus.accepted.length k]? = some data ∧
      (s.bus.subs j).spinOnce alloc s.bus.topic = ⟨u32 (target s.bus.accepted.length k + 1),
        (s.bus.subs j).delivered ++
          [(u32 (target s.bus.accepted.length k), ⟨some data, data.length, true⟩)]⟩ := by
  rw [← h.length] at hk hlag ⊢
  obtain ⟨-, hbelow, -⟩ := target_spec hk
  have hr := List.getElem?_eq_getElem hbelow
  refine ⟨hist[target hist.length k].msg, ?_, ?_⟩
  · rw [← h.msgs, List.getElem?_map, hr]
    rfl
  · exact h.window.spinOnce h.counter halloc hk hlag _ hcounter hnew hr

theorem exists_recent {c p : Nat} (hp : p ≤ c) (hne : u32 p ≠ u32 c) :
    ∃ k < c, c - k < 2 ^ 32 ∧ u32 p = u32 k := by
  refine ⟨c - (c - p) % 2 ^ 32, ?_, ?_, ?_⟩ <;> unfold u32 at * <;> omega

theorem Steady.position_after (h : s.Steady hist) {k : Nat} (hk : k < s.bus.accepted.length)
    (hlag : s.bus.accepted.length - k ≤ 2 ^ 32) :
    s.bus.accepted.length - sub32 s.bus.topic.counter (u32 (k + 1)) = k + 1 := by
  rw [h.counter, h.length, sub32_u32 hk (by omega)]
  omega

theorem step_spinOnce_idle (hold : s.bus.topic.counter ≤ (s.bus.subs j).counter) :
    step (n := n) alloc fuel s (.spinOnce j) = some s := by
  simp [step, Bus.step, follow, spinOnce_of_le alloc hold]

theorem step_spinOnce {c p : Nat} {d : Nat × Memblock}
    (hspin : (s.bus.subs j).spinOnce alloc s.bus.topic = ⟨c, (s.bus.subs j).delivered ++ [d]⟩)
    (hp : s.bus.accepted.length - sub32 s.bus.topic.counter c = p) :
    step (n := n) alloc fuel s (.spinOnce j) = some
      ⟨{ s.bus with subs := Function.update s.bus.subs j ⟨c, (s.bus.subs j).delivered ++ [d]⟩ },
        Function.update s.positions j p⟩ := by
  simp [step, Bus.step, follow, hspin, hp]

theorem Steady.step_cases (h : s.Steady hist) (halloc : ∀ n, alloc n = true)
    (hs : step (n := n) alloc fuel s (.spinOnce j) = some s') :
    s' = s ∨ ∃ k data, k < s.bus.accepted.length ∧
      s' = ⟨{ s.bus with subs := Function.update s.bus.subs j ⟨u32 (k + 1),
          (s.bus.subs j).delivered ++ [(u32 k, ⟨some data, data.length, true⟩)]⟩ },
        Function.update s.positions j (k + 1)⟩ := by
  by_cases hold : s.bus.topic.counter ≤ (s.bus.subs j).counter
  · rw [step_spinOnce_idle hold] at hs
    exact .inl (Option.some.inj hs).symm
  · have hnew := Nat.lt_of_not_le hold
    have hne : u32 (s.positions j) ≠ u32 s.bus.accepted.length := by
      rw [← h.counters j, ← h.length, ← h.counter]
      exact Nat.ne_of_lt hnew
    obtain ⟨k, hk, hlag, hrecent⟩ := exists_recent (h.positions_le j) hne
    obtain ⟨data, -, hspin⟩ := h.spinOnce halloc hk hlag ((h.counters j).trans hrecent) hnew
    obtain ⟨hle, hbelow, -⟩ := target_spec hk
    rw [step_spinOnce hspin (h.position_after hbelow (by omega))] at hs
    exact .inr ⟨_, data, hbelow, (Option.some.inj hs).symm⟩

theorem Steady.step_spinOnce (h : s.Steady hist) (halloc : ∀ n, alloc n = true)
    (hs : step (n := n) alloc fuel s (.spinOnce j) = some s') : s'.Steady hist := by
  rcases h.step_cases halloc hs with rfl | ⟨k, data, hk, rfl⟩
  · exact h
  · refine ⟨h.window, h.counter, h.msgs, fun i => ?_, fun i => ?_⟩
    · by_cases hi : i = j
      · subst hi
        simp
      · simpa [hi] using h.counters i
    · by_cases hi : i = j
      · subst hi
        simpa [Nat.succ_le_iff] using hk
      · simpa [hi] using h.positions_le i

theorem Steady.carries (h : s.Steady hist) : Carries s.bus.topic s.bus.accepted hist :=
  ⟨h.window, h.counter, h.msgs⟩

theorem Steady.accept (h : s.Steady hist) {t : Topic} {r : Entry}
    (hc : Carries t (s.bus.accepted ++ [r.msg]) (hist ++ [r])) :
    Steady ⟨{ s.bus with topic := t, accepted := s.bus.accepted ++ [r.msg] }, s.positions⟩
      (hist ++ [r]) := by
  refine ⟨hc.window, hc.counter, hc.msgs, h.counters, fun j => ?_⟩
  rw [List.length_append]
  exact Nat.le_add_right_of_le (h.positions_le j)

theorem Steady.step_publish (h : s.Steady hist) {i : Fin n} {data : List UInt8}
    (hs : step alloc (fuel + 1) s (.publish i data) = some s') : ∃ hist', s'.Steady hist' := by
  rw [step, Bus.step] at hs
  rcases h.carries.publish data fuel with hrefused | ⟨t, r, rfl, hsome, hc⟩
  · rw [hrefused] at hs
    obtain rfl := Option.some.inj hs
    exact ⟨hist, h.window, h.counter, h.msgs, h.counters, h.positions_le⟩
  · rw [hsome] at hs
    obtain rfl := Option.some.inj hs
    exact ⟨_, h.accept hc⟩

def Delivers (n : Nat) (alloc : Nat → Bool) (fuel : Nat) (s : Stream m) (j : Fin m) (k : Nat) :
    Prop :=
  ∃ data s', s.bus.accepted[k]? = some data ∧
    step (n := n) alloc fuel s (.spinOnce j) = some s' ∧ s'.positions j = k + 1 ∧
    s'.bus.subs j = ⟨u32 (k + 1), (s.bus.subs j).delivered ++
      [(u32 k, ⟨some data, data.length, true⟩)]⟩

theorem Steady.delivers (h : s.Steady hist) (halloc : ∀ n, alloc n = true)
    (hnew : s.positions j < s.bus.accepted.length)
    (hlag : s.bus.accepted.length - s.positions j < 2 ^ 32)
    (hlap : s.bus.accepted.length / 2 ^ 32 = s.positions j / 2 ^ 32) :
    s.Delivers n alloc fuel j (target s.bus.accepted.length (s.positions j)) := by
  have hahead : (s.bus.subs j).counter < s.bus.topic.counter := by
    rw [h.counter, h.length, h.counters j]
    unfold u32
    omega
  obtain ⟨data, hdata, hspin⟩ := h.spinOnce halloc hnew hlag (h.counters j) hahead
  obtain ⟨hle, hbelow, -⟩ := target_spec hnew
  exact ⟨data, _, hdata, Stream.step_spinOnce hspin (h.position_after hbelow (by omega)),
    by simp, by simp⟩

theorem Steady.not_delivers (h : s.Steady hist) (hnew : s.positions j < s.bus.accepted.length)
    (hlag : s.bus.accepted.length - s.positions j < 2 ^ 32)
    (hlap : s.bus.accepted.length / 2 ^ 32 ≠ s.positions j / 2 ^ 32) (k : Nat) :
    ¬ s.Delivers n alloc fuel j k := by
  have hbehind : s.bus.topic.counter ≤ (s.bus.subs j).counter := by
    rw [h.counter, h.length, h.counters j]
    unfold u32
    omega
  rintro ⟨data, s', -, hs, -, hsub⟩
  rw [step_spinOnce_idle hbehind] at hs
  obtain rfl := Option.some.inj hs
  have hlen := congrArg (fun sub => sub.delivered.length) hsub
  simp at hlen

section Runs

variable {heapBase bufferSize : Nat} {turns : List (Turn n m)}

theorem steady_of_run (hdvd : 4 ∣ bufferSize) (hle : 8 ≤ bufferSize)
    (hlim : bufferSize + 1 < 2 ^ 32) (hspace : heapBase + bufferSize ≤ 2 ^ 64)
    (halloc : ∀ n, alloc n = true)
    (h : Machine.run (step alloc (fuel + 1)) (new heapBase bufferSize) turns = some s) :
    ∃ hist, s.Steady hist := by
  have hsized : (Allocator.new heapBase bufferSize).Sized :=
    ⟨hdvd, hle, Nat.le_of_lt (Nat.lt_of_succ_lt hlim), hspace⟩
  apply (Machine.Run.of_run h).invariant (fun t => ∃ hist, t.Steady hist)
    ⟨[], steady_new hsized hlim⟩
  rintro t l t' ⟨hist, ht⟩ - hs
  cases l with
  | publish i data => exact ht.step_publish hs
  | spinOnce j => exact ⟨hist, ht.step_spinOnce halloc hs⟩

/-- A subscriber that is behind, but not by 2^32 messages, is given the message at its position,
or the one 512 before the head, exactly when the counter of the topic has not wrapped since. -/
theorem delivers_iff (hdvd : 4 ∣ bufferSize) (hle : 8 ≤ bufferSize)
    (hlim : bufferSize + 1 < 2 ^ 32) (hspace : heapBase + bufferSize ≤ 2 ^ 64)
    (halloc : ∀ n, alloc n = true)
    (h : Machine.run (step alloc (fuel + 1)) (new heapBase bufferSize) turns = some s)
    (hnew : s.positions j < s.bus.accepted.length)
    (hlag : s.bus.accepted.length - s.positions j < 2 ^ 32) :
    s.Delivers n alloc (fuel + 1) j
        (if s.bus.accepted.length - s.positions j < 1024 then s.positions j
          else s.bus.accepted.length - 512) ↔
      s.bus.accepted.length / 2 ^ 32 = s.positions j / 2 ^ 32 := by
  obtain ⟨hist, hsteady⟩ := steady_of_run hdvd hle hlim hspace halloc h
  constructor
  · intro hdelivers
    by_contra hlap
    exact hsteady.not_delivers hnew hlag hlap _ hdelivers
  · intro hlap
    exact hsteady.delivers halloc hnew hlag hlap

theorem delivers_iff_first : ∃ s : Stream 1,
    Machine.run (step (n := 1) (fun _ => true) 1) (new 4096 64) [.publish 0 [7]] = some s ∧
    (s.Delivers 1 (fun _ => true) 1 0
        (if s.bus.accepted.length - s.positions 0 < 1024 then s.positions 0
          else s.bus.accepted.length - 512) ↔
      s.bus.accepted.length / 2 ^ 32 = s.positions 0 / 2 ^ 32) := by
  have hrun : (Machine.run (step (n := 1) (m := 1) (fun _ => true) 1) (new 4096 64)
      [.publish 0 [7]]).map (fun s => (s.bus.accepted.length, s.positions 0)) = some (1, 0) := by
    decide +kernel
  obtain ⟨s, hs, hvals⟩ := Option.map_eq_some_iff.mp hrun
  obtain ⟨hlength, hposition⟩ := Prod.mk.inj hvals
  refine ⟨s, hs, delivers_iff (by decide) (by decide) (by decide) (by decide) (fun _ => rfl) hs
    ?_ ?_⟩
  · rw [hlength, hposition]
    decide
  · rw [hlength, hposition]
    decide

end Runs

section Long

def cell (k : Nat) : Block := ⟨2 * k % 4096, 2 * k % 4096 + 1, 1⟩

theorem cell_next (k : Nat) : (cell k).next 4096 = 2 * (k + 1) % 4096 := by
  unfold Block.next cell
  dsimp only
  by_cases hwrap : 2 * k % 4096 + 1 + 1 = 4096
  · rw [if_pos hwrap]
    omega
  · rw [if_neg hwrap]
    omega

theorem cell_clear (l : Nat) : 2 * (l - 1024) % 4096 ≠ 2 * l % 4096 + 1 ∧
    2 * (l - 1024) % 4096 ≠ 2 * l % 4096 + 2 ∧
    (2 * l % 4096 + 2 = 4096 → 2 * (l - 1024) % 4096 ≠ 0) := by
  by_cases hlap : l < 1024
  · omega
  · obtain ⟨k, rfl⟩ : ∃ k, l = k + 1024 := ⟨l - 1024, by omega⟩
    have hlt : k % 2048 < 2048 := Nat.mod_lt _ (by decide)
    have hold : 2 * (k + 1024 - 1024) % 4096 = 2 * (k % 2048) := by omega
    have hnew : 2 * (k + 1024) % 4096 = 2 * (k % 2048) + 2048 ∨
        2 * (k + 1024) % 4096 + 2048 = 2 * (k % 2048) := by omega
    rw [hold]
    generalize k % 2048 = x at *
    generalize 2 * (k + 1024) % 4096 = y at *
    omega

structure Uniform (s : Stream m) (hist : List Entry) : Prop where
  steady : s.Steady hist
  size : s.bus.topic.allocator.size = 16384
  allocIndex : s.bus.topic.allocator.allocIndex = 2 * hist.length % 4096
  cells : ∀ k r, hist[k]? = some r → r.block = cell k

theorem uniform_new : (new 4096 16384 : Stream m).Uniform [] :=
  ⟨steady_new ⟨by decide, by decide, by decide, by decide⟩ (by decide), rfl, rfl, nofun⟩

variable {s : Stream m} {hist : List Entry}

theorem Uniform.words (h : s.Uniform hist) : s.bus.topic.allocator.words = 4096 := by
  rw [Allocator.words, h.size]

theorem Uniform.freeIndex (h : s.Uniform hist) :
    s.bus.topic.allocator.freeIndex = 2 * (hist.length - 1024) % 4096 := by
  have hring := h.steady.window.ring
  cases hlive : hist.drop (hist.length - queueSize) with
  | nil =>
    have hnil : hist = [] := by
      have hlen := congrArg List.length hlive
      rw [List.length_drop, List.length_nil] at hlen
      unfold queueSize at hlen
      exact List.eq_nil_of_length_eq_zero (by omega)
    rw [hlive] at hring
    rw [hring.chain.eq_nil_iff.mpr rfl, h.allocIndex, hnil]
    rfl
  | cons r rest =>
    have hr : hist[hist.length - queueSize]? = some r := by
      rw [← List.head?_drop, hlive]
      rfl
    rw [hlive] at hring
    rw [← hring.chain.head.1, h.cells _ r hr]
    rfl

theorem Uniform.accepts (h : s.Uniform hist) : s.bus.topic.alloc 0 ≠ .ok (none, s.bus.topic) := by
  have hring := h.steady.window.ring
  have hwords := h.words
  have hsize : s.bus.topic.allocator.payloadWords 0 1 = some 1 := by
    unfold Allocator.payloadWords
    rw [h.size]
    decide +kernel
  have hacc : s.bus.topic.allocator.Accepts 1 := by
    obtain ⟨hone, htwo, hwrap⟩ := cell_clear hist.length
    have heven : 2 * hist.length % 4096 + 1 < 4096 := by omega
    simp only [Allocator.Accepts, Allocator.candidate, place, hwords, h.freeIndex, h.allocIndex,
      if_neg (Nat.not_le_of_lt heven)]
    omega
  have halloc : s.bus.topic.allocator.alloc 0 =
      .ok (some (alignAddress (s.bus.topic.allocator.ptr
        (s.bus.topic.allocator.candidate 1)) 1), s.bus.topic.allocator.push
        (s.bus.topic.allocator.candidate 1)) := by
    unfold Allocator.alloc Allocator.allocAligned
    rw [hsize]
    simp only [hring.bounded.allocWords_eq 1 Nat.one_pos (by omega), if_pos hacc]
  simp [Topic.alloc, u32_eq, halloc, bind, Except.bind, pure, Except.pure]

theorem Uniform.step (h : s.Uniform hist) : ∃ s' hist',
    Stream.step (n := 1) (fun _ => true) 1 s (.publish 0 []) = some s' ∧ s'.Uniform hist' ∧
      hist'.length = hist.length + 1 ∧ s'.bus.subs = s.bus.subs ∧ s'.positions = s.positions := by
  have hpos : qPos s.bus.topic.counter = qPos hist.length := by rw [h.steady.counter, qPos_u32]
  rcases h.steady.window.write hpos (Memblock.filled_ofData []) 0 with
    ⟨-, hroom | hrefused⟩ | ⟨b, t, hlays, hsome, hcount, hsize, hw⟩
  · exact absurd hroom (Nat.not_lt_zero _)
  · exact absurd hrefused h.accepts
  · have hwords : t.allocator.words = 4096 := by rw [Allocator.words, hsize, h.size]
    have hring := hw.ring
    rw [Memblock.bytes_ofData, Entry.blocks_snoc (by unfold queueSize; omega)] at hring
    have hblock : b = cell hist.length := by
      have hfits := hring.chain.fits (b := b) (by simp)
      rw [hwords, ← h.words] at hfits
      have heven : ¬ 4096 ≤ 2 * hist.length % 4096 + 1 := by omega
      rw [hlays.eq_candidate hfits]
      simp only [Allocator.candidate, Memblock.size_ofData, List.length_nil, h.allocIndex, h.words,
        place, if_neg heven, Nat.zero_div, Nat.zero_add]
      rfl
    have hindex : t.allocator.allocIndex = 2 * (hist.length + 1) % 4096 := by
      rw [hring.chain.last, hblock, hwords, cell_next]
    have hc := h.steady.carries.accept hcount hw
    refine ⟨_, _, ?_, ⟨h.steady.accept hc, ?_, ?_, ?_⟩, by simp, rfl, rfl⟩
    · simp [Stream.step, Bus.step, publish, hsome, follow]
    · exact hsize.trans h.size
    · rw [List.length_append]
      exact hindex
    · intro k r hk
      by_cases hlast : k = hist.length
      · subst hlast
        obtain rfl : ⟨b, []⟩ = r := by simpa using hk
        exact hblock
      · have hlt := (List.getElem?_eq_some_iff.mp hk).1
        rw [List.length_append, List.length_singleton] at hlt
        exact h.cells k r (Window.getElem?_old hk (by omega))

theorem Uniform.publish_many (h : s.Uniform hist) (k : Nat) : ∃ s' hist',
    Machine.run (Stream.step (n := 1) (fun _ => true) 1) s (List.replicate k (.publish 0 [])) =
      some s' ∧ s'.Uniform hist' ∧ hist'.length = hist.length + k ∧ s'.bus.subs = s.bus.subs ∧
      s'.positions = s.positions := by
  induction k generalizing s hist with
  | zero => exact ⟨s, hist, rfl, h, rfl, rfl, rfl⟩
  | succ k ih =>
    obtain ⟨s₁, hist₁, hs₁, h₁, hlen₁, hsubs₁, hpos₁⟩ := h.step
    obtain ⟨s₂, hist₂, hs₂, h₂, hlen₂, hsubs₂, hpos₂⟩ := ih h₁
    refine ⟨s₂, hist₂, ?_, h₂, by omega, hsubs₂.trans hsubs₁, hpos₂.trans hpos₁⟩
    rw [List.replicate_succ, Machine.run_cons _ hs₁, hs₂]

theorem Uniform.spinOnce (h : s.Uniform hist) {s' : Stream m} {j : Fin m}
    (hs : Stream.step (n := 1) (fun _ => true) 1 s (.spinOnce j) = some s') :
    s'.Uniform hist := by
  have hsteady := h.steady.step_spinOnce (fun _ => rfl) hs
  obtain rfl := Option.some.inj hs
  exact ⟨hsteady, h.size, h.allocIndex, h.cells⟩

/-- After one message has been read, 2^32 - 1 further messages bring the counter of the topic
back to 0, and the subscriber is given none of them. -/
theorem wrapped_counter_stops : ∃ (turns : List (Turn 1 1)) (s : Stream 1),
    Machine.run (step (fun _ => true) 1) (new 4096 16384) turns = some s ∧
    s.positions 0 < s.bus.accepted.length ∧ s.bus.accepted.length - s.positions 0 < 2 ^ 32 ∧
    ¬ s.Delivers 1 (fun _ => true) 1 0
        (if s.bus.accepted.length - s.positions 0 < 1024 then s.positions 0
          else s.bus.accepted.length - 512) := by
  obtain ⟨s₁, hist₁, hs₁, h₁, hlen₁, hsubs₁, hpos₁⟩ := (uniform_new (m := 1)).step
  obtain ⟨s₂, hs₂⟩ : ∃ s₂, step (n := 1) (fun _ => true) 1 s₁ (.spinOnce 0) = some s₂ := ⟨_, rfl⟩
  have hpositions : s₁.positions 0 = 0 := by rw [hpos₁]; rfl
  have hlength : s₁.bus.accepted.length = 1 := by rw [← h₁.steady.length, hlen₁]; rfl
  have hdelivers : s₁.Delivers 1 (fun _ => true) 1 0 0 := by
    have hnext : s₁.Delivers 1 (fun _ => true) 1 0
        (target s₁.bus.accepted.length (s₁.positions 0)) :=
      h₁.steady.delivers (fun _ => rfl) (by rw [hpositions, hlength]; decide)
        (by rw [hpositions, hlength]; decide) (by rw [hpositions, hlength]; decide)
    rwa [hpositions, hlength] at hnext
  obtain ⟨data, t, -, ht, hposition, -⟩ := hdelivers
  obtain rfl := Option.some.inj (hs₂.symm.trans ht)
  have h₂ : s₂.Uniform hist₁ := h₁.spinOnce hs₂
  obtain ⟨s, hist, hs, h, hlen, -, hpos⟩ := h₂.publish_many (2 ^ 32 - 1)
  have hcount : s.bus.accepted.length = 2 ^ 32 := by
    rw [← h.steady.length, hlen, hlen₁]
    decide
  have hp : s.positions 0 = 1 := by rw [hpos, hposition]
  refine ⟨.publish 0 [] :: .spinOnce 0 :: List.replicate (2 ^ 32 - 1) (.publish 0 []), s, ?_, ?_, ?_,
    h.steady.not_delivers ?_ ?_ ?_ _⟩
  · rw [Machine.run_cons _ hs₁, Machine.run_cons _ hs₂, hs]
  all_goals
    rw [hcount, hp]
    decide

end Long

end Stream

end Shadesmar.PubSub
