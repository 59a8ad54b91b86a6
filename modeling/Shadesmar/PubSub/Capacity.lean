import Shadesmar.Memory.Room
import Shadesmar.PubSub.Subscriber

namespace Shadesmar.PubSub

open Library Library.Cyclic Shadesmar.Memory

def Topic.Takes (t : Topic) (size : Nat) : Prop :=
  size ≤ t.allocator.getFreeMemory ∧ size + 9 < t.allocator.size ∧
    t.allocator.Accepts (size / 4 + 1)

instance (t : Topic) (size : Nat) : Decidable (t.Takes size) :=
  inferInstanceAs (Decidable (_ ∧ _ ∧ _))

/-- No call of `write` is in progress; `hist` are the messages accepted so far, and the
counter counts them modulo 2^32. -/
structure Resting (t : Topic) (hist : List Entry) : Prop where
  window : Window t hist (hist.length - queueSize) hist.length hist.length hist.length
  counter : t.counter = u32 hist.length

namespace Resting

variable {t : Topic} {hist : List Entry} {m : Memblock}

theorem new {heapBase bufferSize : Nat} (h : (Allocator.new heapBase bufferSize).Sized)
    (hsmall : bufferSize + 1 < 2 ^ 32) : Resting (Topic.new heapBase bufferSize) [] :=
  ⟨(Settled.new h hsmall).window, (u32_eq (show 0 < 2 ^ 32 by decide)).symm⟩

theorem alloc_iff (h : Resting t hist) {size : Nat} (hsize : size ≤ t.allocator.getFreeMemory) :
    t.alloc size ≠ .ok (none, t) ↔ t.Takes size := by
  have hle := h.window.ring.getFreeMemory_le
  have hsmall := h.window.small
  have hiff : t.allocator.alloc size ≠ .ok (none, t.allocator) ↔ _ :=
    h.window.ring.alloc_iff (by omega)
  have hnarrow : u32 size = size := u32_eq (by omega)
  have hsame : t.alloc size = .ok (none, t) ↔
      t.allocator.alloc size = .ok (none, t.allocator) := by
    unfold Topic.alloc
    rw [hnarrow]
    constructor
    · intro hnone
      obtain ⟨⟨p, a⟩, halloc, hpair⟩ := Checked.bind_eq_ok.mp hnone
      obtain ⟨rfl, ht⟩ := Prod.mk.inj (Except.ok.inj hpair)
      rw [halloc, ← ht]
    · intro hnone
      rw [hnone]
      rfl
  rw [Ne, hsame, ← Ne, hiff]
  exact (and_iff_right hsize).symm

theorem candidate_eq {b : Block} {data : List UInt8} {t' : Topic}
    (hlays : t.allocator.Lays m.size b) (hsize : t'.allocator.size = t.allocator.size)
    (hw : Window t' (hist ++ [⟨b, data⟩]) (hist.length + 1 - queueSize) (hist.length + 1)
      (hist.length + 1) (hist.length + 1)) :
    b = t.allocator.candidate (m.size / 4 + 1) := by
  have hlast : (hist ++ [(⟨b, data⟩ : Entry)])[hist.length]? = some ⟨b, data⟩ := by simp
  have hold : hist.length + 1 - queueSize ≤ hist.length := Nat.sub_le_of_le_add (by simp [queueSize])
  have hfits := hw.ring.chain.fits (Window.mem_blocks hlast hold)
  have hwords : t'.allocator.words = t.allocator.words := by
    rw [Allocator.words, hsize, Allocator.words]
  rw [hwords] at hfits
  exact hlays.eq_candidate hfits

theorem write (h : Resting t hist) (hm : m.Filled) (fuel : Nat) :
    ¬ t.Takes m.size ∧ t.write (fuel + 1) m = .ok (some (false, t)) ∨
    t.Takes m.size ∧ ∃ t', t.write (fuel + 1) m = .ok (some (true, t')) ∧
      t'.allocator.size = t.allocator.size ∧
      Resting t' (hist ++ [⟨t.allocator.candidate (m.size / 4 + 1), m.bytes⟩]) := by
  have hpos : qPos t.counter = qPos hist.length := by rw [h.counter, qPos_u32]
  by_cases hfree : m.size ≤ t.allocator.getFreeMemory
  · have hiff := h.alloc_iff hfree
    rcases h.window.write hpos hm fuel with ⟨hfalse, hwhy⟩ |
        ⟨b, t', hlays, htrue, hcount, hsize, hw⟩
    · have hnone := hwhy.resolve_left (Nat.not_lt_of_le hfree)
      exact .inl ⟨fun htakes => hiff.mpr htakes hnone, hfalse⟩
    · have htakes : t.Takes m.size := by
        rw [← hiff]
        intro hnone
        rw [Topic.write, if_neg (Nat.not_lt_of_le hfree), hnone] at htrue
        cases htrue
      obtain rfl := candidate_eq hlays hsize hw
      refine .inr ⟨htakes, _, htrue, hsize, ?_, ?_⟩
      · rw [List.length_append]
        exact hw.incCounter
      · change u32 (t'.counter + 1) = _
        rw [hcount, h.counter, u32_succ, List.length_append]
        rfl
  · refine .inl ⟨fun htakes => hfree htakes.1, ?_⟩
    rw [Topic.write, if_pos (Nat.lt_of_not_le hfree)]

theorem takes (h : Resting t hist) {w : Nat} (hblocks : ∀ r ∈ hist, r.block.size + 1 ≤ w)
    (hcap : 1027 * w ≤ t.allocator.words) {size : Nat} (hsize : size / 4 + 2 ≤ w) :
    t.Takes size := by
  have hring := h.window.ring
  have hf := hring.free_lt
  have ha := hring.alloc_lt
  have hlive := hring.chain.steps_le ha (w := w) (by
    intro b hb
    obtain ⟨r, hr, rfl⟩ := List.mem_map.mp hb
    exact hblocks r (List.mem_of_mem_drop hr))
  have hcount : ((hist.drop (hist.length - queueSize)).map Entry.block).length * w ≤ 1024 * w := by
    apply Nat.mul_le_mul_right
    rw [List.length_map, List.length_drop]
    unfold queueSize
    omega
  have hwalk : steps t.allocator.words t.allocator.freeIndex t.allocator.allocIndex ≤
      1024 * w + (w - 2) := by
    split_ifs at hlive <;> omega
  have hwords := hring.sized.words_mul
  refine ⟨?_, ?_, ?_⟩
  · rw [Allocator.getFreeMemory_eq hf ha]
    omega
  · omega
  · exact Allocator.accepts_of_room hf ha (Nat.succ_pos _) (by omega)

end Resting

namespace Feed

variable {s : Feed} {hist : List Entry} {fuel w : Nat}

structure Spacious (s : Feed) (hist : List Entry) (w : Nat) : Prop where
  resting : Resting s.topic hist
  blocks : ∀ r ∈ hist, r.block.size + 1 ≤ w
  room : 1027 * w ≤ s.topic.allocator.words

theorem Spacious.step (h : s.Spacious hist w) (fuel : Nat) {m : Memblock} (hm : m.Filled)
    (hsize : m.size / 4 + 2 ≤ w) : ∃ s' hist', step (fuel + 1) s m = some s' ∧
      s'.accepted = s.accepted ++ [m] ∧ s'.Spacious hist' w := by
  have htakes := h.resting.takes h.blocks h.room hsize
  rcases h.resting.write hm fuel with ⟨hrefused, -⟩ | ⟨-, t', htrue, hsame, hrest⟩
  · exact absurd htakes hrefused
  · refine ⟨⟨t', s.accepted ++ [m]⟩, _, ?_, rfl, hrest, ?_, ?_⟩
    · rw [Feed.step, if_pos hm, htrue]
    · intro r hr
      rcases List.mem_append.mp hr with hold | hnew
      · exact h.blocks r hold
      · obtain rfl := List.mem_singleton.mp hnew
        exact hsize
    · rw [Allocator.words, hsame]
      exact h.room

theorem Spacious.run (h : s.Spacious hist w) {calls : List Memblock}
    (hcalls : ∀ m ∈ calls, m.Filled ∧ m.size / 4 + 2 ≤ w) :
    ∃ s', Machine.run (Feed.step (fuel + 1)) s calls = some s' ∧
      s'.accepted = s.accepted ++ calls := by
  induction calls generalizing s hist with
  | nil => exact ⟨s, rfl, by simp⟩
  | cons m calls ih =>
    obtain ⟨hm, hsize⟩ := hcalls m List.mem_cons_self
    obtain ⟨s₁, hist₁, hs₁, hacc₁, h₁⟩ := h.step fuel hm hsize
    obtain ⟨s₂, hs₂, hacc₂⟩ := ih h₁ fun m' hm' => hcalls m' (List.mem_cons_of_mem m hm')
    refine ⟨s₂, ?_, ?_⟩
    · rw [Machine.run_cons _ hs₁, hs₂]
    · rw [hacc₂, hacc₁, List.append_assoc]
      rfl

/-- In a buffer of 1027 blocks of the largest size, every call of `write` returns true. -/
theorem every_write_accepted {heapBase bufferSize S : Nat} (hdvd : 4 ∣ bufferSize)
    (hcap : 4 * (1027 * (1 + (S + 1 + 3) / 4)) ≤ bufferSize) (hlim : bufferSize ≤ 2 ^ 31)
    (hspace : heapBase + bufferSize ≤ 2 ^ 64) (fuel : Nat) {calls : List Memblock}
    (hcalls : ∀ m ∈ calls, m.Filled ∧ m.size ≤ S) :
    ∃ s, Machine.run (step (fuel + 1)) (new heapBase bufferSize) calls = some s ∧
      s.accepted = calls := by
  have hle : 8 ≤ bufferSize := by omega
  have hsized : (Allocator.new heapBase bufferSize).Sized :=
    ⟨hdvd, hle, Nat.le_trans hlim (by decide), hspace⟩
  have hwords : 4 * (Allocator.new heapBase bufferSize).words = bufferSize := hsized.words_mul
  have hnew : (new heapBase bufferSize).Spacious [] (1 + (S + 1 + 3) / 4) := by
    refine ⟨Resting.new hsized (by omega), nofun, ?_⟩
    change 1027 * _ ≤ (Allocator.new heapBase bufferSize).words
    omega
  refine hnew.run ?_
  intro m hm
  obtain ⟨hfilled, hsize⟩ := hcalls m hm
  exact ⟨hfilled, by omega⟩

theorem every_write_accepted_three : ∃ s, Machine.run (step 1) (new 4096 8216)
    [.ofData [], .ofData [1, 2, 3]] = some s ∧ s.accepted = [.ofData [], .ofData [1, 2, 3]] := by
  apply every_write_accepted (S := 3) (by decide) (by decide) (by decide) (by decide) 0
  intro m hm
  simp only [List.mem_cons, List.not_mem_nil, or_false] at hm
  rcases hm with rfl | rfl
  · exact ⟨Memblock.filled_ofData [], by decide⟩
  · exact ⟨Memblock.filled_ofData [1, 2, 3], by decide⟩

end Feed

end Shadesmar.PubSub
