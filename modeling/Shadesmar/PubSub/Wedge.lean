import Shadesmar.PubSub.Capacity

namespace Shadesmar.PubSub

open Library Library.Cyclic Shadesmar.Memory

namespace Topic

/-- Where `free_index_` will be after a call of `write` that is granted. -/
def freeAfter (t : Topic) : Nat :=
  if (t.elem (qPos t.counter)).empty then t.allocator.freeIndex
  else (t.allocator.blockAt t.allocator.freeIndex).next t.allocator.words

def gapAfter (t : Topic) (size : Nat) : Nat :=
  steps t.allocator.words ((t.allocator.candidate (size / 4 + 1)).next t.allocator.words) t.freeAfter

end Topic

namespace Resting

variable {t t' : Topic} {hist : List Entry} {m : Memblock} {r : Entry}

theorem live_snoc (hist : List Entry) (r : Entry) :
    ((hist ++ [r]).drop ((hist ++ [r]).length - queueSize)).map Entry.block =
      (hist.drop (hist.length + 1 - queueSize)).map Entry.block ++ [r.block] := by
  have hle : hist.length + 1 - queueSize ≤ hist.length :=
    Nat.sub_le_of_le_add (by simp [queueSize])
  rw [List.length_append, List.length_singleton, Entry.blocks_snoc hle]

theorem freeAfter_eq (h : Resting t hist) (h' : Resting t' (hist ++ [r]))
    (hr : r.block.header = t.allocator.allocIndex) : t'.allocator.freeIndex = t.freeAfter := by
  have hpos : qPos t.counter = qPos hist.length := by rw [h.counter, qPos_u32]
  have hring := h.window.ring
  have hring' := h'.window.ring
  rw [live_snoc] at hring'
  unfold Topic.freeAfter
  rw [hpos]
  rcases h.window.head_slot with ⟨hlap, helem⟩ | ⟨e, hlap, he, helem⟩
  · rw [helem, if_pos (show Element.fresh.empty = true from rfl)]
    have hall : hist.length + 1 - queueSize = hist.length - queueSize := by omega
    rw [hall] at hring'
    exact hring.chain.start_eq hring'.chain hr
  · rw [helem, if_neg (show ¬ e.element.empty = true from Bool.false_ne_true)]
    rw [Entry.blocks_oldest hlap he] at hring
    rw [Allocator.blockAt_head hring.chain]
    exact hring.chain.tail.start_eq hring'.chain hr

theorem gap_write (h : Resting t hist) {data : List UInt8} {size : Nat}
    (h' : Resting t' (hist ++ [⟨t.allocator.candidate (size / 4 + 1), data⟩]))
    (hsize : t'.allocator.size = t.allocator.size) :
    t'.allocator.gap = t.gapAfter size ∧ t'.allocator.gap ≠ 0 := by
  have hring' := h'.window.ring
  have hne : t'.allocator.allocIndex ≠ t'.allocator.freeIndex := by
    intro heq
    have hnil := hring'.chain.eq_nil_iff.mp heq.symm
    rw [live_snoc] at hnil
    simp at hnil
  have hlast := hring'.chain
  rw [live_snoc] at hlast
  have hwords : t'.allocator.words = t.allocator.words := by
    rw [Allocator.words, hsize, Allocator.words]
  refine ⟨?_, ?_⟩
  · rw [Allocator.gap, hlast.last, h.freeAfter_eq h' rfl, hwords, Topic.gapAfter]
  · rw [Allocator.gap, Ne, steps_eq_zero hring'.alloc_lt]
    exact hne

end Resting

structure Traffic (k : Nat) where
  topic : Topic
  subs : Fin k → Subscriber
  copies : List Memblock

inductive Traffic.Turn (k : Nat)
  | write (m : Memblock)
  | read (pos : Nat)
  | spinOnce (j : Fin k)

namespace Traffic

variable {k : Nat}

def new (heapBase bufferSize : Nat) : Traffic k := ⟨.new heapBase bufferSize, fun _ => .new, []⟩

def step (alloc : Nat → Bool) (fuel : Nat) (s : Traffic k) : Turn k → Option (Traffic k)
  | .write m =>
    if m.Filled then
      match s.topic.write fuel m with
      | .ok (some (_, t)) => some { s with topic := t }
      | .ok none => none
      | .error _ => none
    else none
  | .read pos =>
    match s.topic.read alloc .null pos with
    | (true, memblock, _) => some { s with copies := s.copies ++ [memblock] }
    | (false, _, _) => some s
  | .spinOnce j =>
    some { s with subs := Function.update s.subs j ((s.subs j).spinOnce alloc s.topic) }

def Open (fuel : Nat) (s : Traffic k) : Prop :=
  ∃ m t, m.Filled ∧ s.topic.write fuel m = .ok (some (true, t))

def LeavesRoom (s : Traffic k) : Turn k → Prop
  | .write m => s.topic.Takes m.size → 3 ≤ s.topic.gapAfter m.size
  | .read _ => True
  | .spinOnce _ => True

variable {s s' : Traffic k} {alloc : Nat → Bool} {fuel : Nat} {l : Turn k} {hist : List Entry}

def Sound (s : Traffic k) : Prop :=
  64 ≤ s.topic.allocator.size ∧ ∃ hist, Resting s.topic hist

def HasRoom (s : Traffic k) : Prop := s.topic.allocator.gap = 0 ∨ 3 ≤ s.topic.allocator.gap

theorem sound_new {heapBase bufferSize : Nat} (h : (Allocator.new heapBase bufferSize).Sized)
    (hle : 64 ≤ bufferSize) (hsmall : bufferSize + 1 < 2 ^ 32) :
    (new heapBase bufferSize : Traffic k).Sound := ⟨hle, [], Resting.new h hsmall⟩

theorem hasRoom_of_takes {t : Topic} (h : Resting t hist) {size : Nat} (htakes : t.Takes size) :
    t.allocator.gap = 0 ∨ 3 ≤ t.allocator.gap :=
  htakes.2.2.gap h.window.ring.free_lt h.window.ring.alloc_lt (Nat.succ_pos _)

theorem takes_empty {t : Topic} (h : Resting t hist) (hle : 64 ≤ t.allocator.size)
    (hroom : t.allocator.gap = 0 ∨ 3 ≤ t.allocator.gap) : t.Takes 0 := by
  have hring := h.window.ring
  have hwords := hring.sized.words_mul
  have hone := Allocator.accepts_one_iff hring.free_lt hring.alloc_lt (by omega)
  exact ⟨Nat.zero_le _, by omega, hone.mpr hroom⟩

theorem Sound.open_iff (h : s.Sound) : s.Open (fuel + 1) ↔ s.HasRoom := by
  obtain ⟨hle, hist, hrest⟩ := h
  constructor
  · rintro ⟨m, t, hm, hwrite⟩
    rcases hrest.write hm fuel with ⟨-, hfalse⟩ | ⟨htakes, -⟩
    · rw [hfalse] at hwrite
      cases hwrite
    · exact hasRoom_of_takes hrest htakes
  · intro hroom
    have hempty := Memblock.filled_ofData []
    rcases hrest.write hempty fuel with ⟨hrefused, -⟩ | ⟨-, t, htrue, -⟩
    · exact absurd (takes_empty hrest hle hroom) hrefused
    · exact ⟨.ofData [], t, hempty, htrue⟩

theorem Sound.refuses (h : s.Sound) (hroom : ¬ s.HasRoom) {m : Memblock} (hm : m.Filled)
    (fuel : Nat) : s.topic.write (fuel + 1) m = .ok (some (false, s.topic)) := by
  obtain ⟨-, hist, hrest⟩ := h
  rcases hrest.write hm fuel with ⟨-, hfalse⟩ | ⟨htakes, -⟩
  · exact hfalse
  · exact absurd (hasRoom_of_takes hrest htakes) hroom

theorem Sound.step (h : s.Sound) (hs : step alloc (fuel + 1) s l = some s') :
    s'.Sound ∧ (s'.HasRoom ↔ s.HasRoom ∧ s.LeavesRoom l) := by
  have hsound := h
  obtain ⟨hle, hist, hrest⟩ := h
  cases l with
  | write m =>
    rw [Traffic.step] at hs
    split_ifs at hs with hm
    rcases hrest.write hm fuel with ⟨hrefused, hfalse⟩ | ⟨htakes, t', htrue, hsize, hrest'⟩
    · rw [hfalse] at hs
      obtain rfl := Option.some.inj hs
      exact ⟨hsound, (and_iff_left fun htakes => absurd htakes hrefused).symm⟩
    · rw [htrue] at hs
      obtain rfl := Option.some.inj hs
      obtain ⟨hgap, hne⟩ := hrest.gap_write hrest' hsize
      refine ⟨⟨hsize.symm ▸ hle, _, hrest'⟩, ?_⟩
      constructor
      · intro hroom
        refine ⟨hasRoom_of_takes hrest htakes, fun _ => ?_⟩
        rw [← hgap]
        exact hroom.resolve_left hne
      · rintro ⟨-, hleaves⟩
        refine .inr ?_
        change 3 ≤ t'.allocator.gap
        rw [hgap]
        exact hleaves htakes
  | read pos =>
    rw [Traffic.step] at hs
    split at hs
    · obtain rfl := Option.some.inj hs
      exact ⟨hsound, (and_iff_left trivial).symm⟩
    · obtain rfl := Option.some.inj hs
      exact ⟨hsound, (and_iff_left trivial).symm⟩
  | spinOnce j =>
    obtain rfl := Option.some.inj hs
    exact ⟨hsound, (and_iff_left trivial).symm⟩

section Runs

variable {heapBase bufferSize : Nat} {turns : List (Turn k)}

theorem sound_of_run (hdvd : 4 ∣ bufferSize) (hle : 64 ≤ bufferSize) (hlim : bufferSize ≤ 2 ^ 31)
    (hspace : heapBase + bufferSize ≤ 2 ^ 64)
    (h : Machine.run (step alloc (fuel + 1)) (new heapBase bufferSize) turns = some s) :
    s.Sound := by
  have hsized : (Allocator.new heapBase bufferSize).Sized :=
    ⟨hdvd, Nat.le_trans (by decide) hle, Nat.le_trans hlim (by decide), hspace⟩
  exact (Machine.Run.of_run h).invariant Sound (sound_new hsized hle (by omega))
    fun _ _ _ ht _ hs => (Sound.step ht hs).1

/-- Some message is accepted at the end of exactly those runs in which no call of `write` has
left one or two words. -/
theorem stays_open (hdvd : 4 ∣ bufferSize) (hle : 64 ≤ bufferSize) (hlim : bufferSize ≤ 2 ^ 31)
    (hspace : heapBase + bufferSize ≤ 2 ^ 64)
    (h : Machine.run (step alloc (fuel + 1)) (new heapBase bufferSize) turns = some s) :
    s.Open (fuel + 1) ↔
      Machine.Run (step alloc (fuel + 1)) LeavesRoom (new heapBase bufferSize) turns s := by
  have hsized : (Allocator.new heapBase bufferSize).Sized :=
    ⟨hdvd, Nat.le_trans (by decide) hle, Nat.le_trans hlim (by decide), hspace⟩
  have hnew : (new heapBase bufferSize : Traffic k).HasRoom := .inl (steps_self _ _)
  rw [(sound_of_run hdvd hle hlim hspace h).open_iff]
  exact Machine.Run.exact Sound HasRoom h (sound_new hsized hle (by omega)) hnew
    fun _ _ _ ht hs => ht.step hs

theorem stays_open_two : ∃ s : Traffic 1,
    Machine.run (step (fun _ => true) 1) (new 4096 64)
      [.write (.ofData [7]), .spinOnce 0, .write (.ofData [])] = some s ∧
      (s.Open 1 ↔ Machine.Run (step (fun _ => true) 1) LeavesRoom (new 4096 64)
        [.write (.ofData [7]), .spinOnce 0, .write (.ofData [])] s) := by
  obtain ⟨s, hs⟩ := Option.isSome_iff_exists.mp (show (Machine.run (step (fun _ => true) 1)
    (new 4096 64 : Traffic 1) [.write (.ofData [7]), .spinOnce 0, .write (.ofData [])]).isSome by
      decide +kernel)
  exact ⟨s, hs, stays_open (by decide) (by decide) (by decide) (by decide) hs⟩

/-- Seven empty messages leave two words of sixteen, and every later call is refused. -/
theorem empty_messages_wedge : ∃ s : Traffic 0,
    Machine.run (step (fun _ => true) 1) (new 4096 64) (List.replicate 7 (.write (.ofData []))) =
      some s ∧ ∀ m fuel, m.Filled → s.topic.write (fuel + 1) m = .ok (some (false, s.topic)) := by
  have hrun : (Machine.run (step (fun _ => true) 1) (new 4096 64 : Traffic 0)
      (List.replicate 7 (.write (.ofData [])))).map (fun s => s.topic.allocator.gap) = some 2 := by
    decide +kernel
  obtain ⟨s, hs, hgap⟩ := Option.map_eq_some_iff.mp hrun
  refine ⟨s, hs, fun m fuel hm => ?_⟩
  have hroom : ¬ s.HasRoom := by
    unfold HasRoom
    omega
  exact (sound_of_run (by decide) (by decide) (by decide) (by decide) hs).refuses hroom hm fuel

end Runs

end Traffic

end Shadesmar.PubSub
