import Shadesmar.Memory.History

namespace Shadesmar.Memory

open Library

theorem sub32_u32_succ (n : Nat) : sub32 (u32 (n + 1)) 1 = n % 2 ^ 32 := by
  unfold sub32 u32
  split_ifs <;> omega

namespace Allocator

variable {a : Allocator} {bs : List Block} {p w : Nat}

def leftover (a : Allocator) : Nat := Bytes.readWord a.heap a.freeIndex

/-- The leftover word passes for the header of a block, and the payload of that block does
not start at `p`. -/
def Disowns (a : Allocator) (p : Nat) : Prop :=
  if (a.freeIndex + a.leftover) % 2 ^ 32 < a.words then
    a.freeIndex + 1 < a.words ∧ p ≠ a.heapBase + 4 * (a.freeIndex + 1)
  else 0 < a.leftover ∧ a.leftover ≤ a.words ∧ p ≠ a.heapBase

instance (a : Allocator) (p : Nat) : Decidable (a.Disowns p) := by
  unfold Disowns
  infer_instance

theorem assert_error {P : Prop} [Decidable P] (h : ¬ P) : assert P = .error .assertion := if_neg h

theorem suggestIndex_word (h : a.Sized) {i : Nat} (hi : i < a.words) (hw : w < 2 ^ 32) :
    a.suggestIndex i w =
      if (i + w) % 2 ^ 32 < a.words then
        if i + 1 < a.words then .ok (i + 1) else .error .assertion
      else if 0 < w ∧ w ≤ a.words then .ok 0 else .error .assertion := by
  have hlim := h.words_le
  have htwo := h.le_words
  have hnext : u32 (i + 1) = i + 1 := u32_eq (by omega)
  have hlast : sub32 (u32 (i + 1 + w)) 1 = (i + w) % 2 ^ 32 := by
    rw [← sub32_u32_succ]
    congr 2
    omega
  unfold suggestIndex
  simp only [validateIndex, assert_ok hi, hnext, hlast, bind, Except.bind]
  by_cases hfit : (i + w) % 2 ^ 32 < a.words
  · have hstay : ¬ (i + w) % 2 ^ 32 ≥ a.words := by omega
    simp only [if_neg hstay, if_pos hfit, hlast, assert_ok hfit]
    by_cases hroom : i + 1 < a.words
    · rw [if_pos hroom, assert_ok hroom]
      rfl
    · rw [if_neg hroom, assert_error hroom]
  · have hmove : (i + w) % 2 ^ 32 ≥ a.words := by omega
    have hzero : 0 < a.words := by omega
    have hstop : sub32 (u32 (0 + w)) 1 < a.words ↔ 0 < w ∧ w ≤ a.words := by
      rw [Nat.zero_add, u32_eq hw]
      unfold sub32
      split_ifs <;> omega
    simp only [if_pos hmove, if_neg hfit, assert_ok hzero]
    by_cases hsize : 0 < w ∧ w ≤ a.words
    · rw [if_pos hsize, assert_ok (hstop.mpr hsize)]
      rfl
    · rw [if_neg hsize, assert_error (mt hstop.mp hsize)]

theorem leftover_lt (a : Allocator) : a.leftover < 2 ^ 32 := by
  have h0 := (a.heap (4 * a.freeIndex)).toNat_lt
  have h1 := (a.heap (4 * a.freeIndex + 1)).toNat_lt
  have h2 := (a.heap (4 * a.freeIndex + 2)).toNat_lt
  have h3 := (a.heap (4 * a.freeIndex + 3)).toNat_lt
  unfold leftover Bytes.readWord
  omega

theorem Ring.free_empty_iff (h : a.Ring []) (hlo : a.heapBase ≤ p) (hhi : p < a.heapBase + a.size) :
    a.free (some p) = .ok (false, a) ↔ a.Disowns p := by
  have hplace := suggestIndex_word h.sized h.free_lt a.leftover_lt
  obtain ⟨f, hfree⟩ : ∃ f : Nat → Allocator, a.free (some p) =
      (a.suggestIndex a.freeIndex a.leftover).bind fun i =>
        if p ≠ a.heapBase + 4 * i then .ok (false, a) else .ok (true, f i) := by
    simp only [free, validateIndex, assert_ok hlo, assert_ok hhi, assert_ok h.free_lt, bind,
      Except.bind]
    exact ⟨_, rfl⟩
  rw [hfree, hplace]
  unfold Disowns
  split_ifs with hfit hroom hsize
  · simp [Except.bind, hroom]
  · simp [Except.bind, hroom]
  · simp [Except.bind, hsize]
  · simp [Except.bind, ← and_assoc, hsize]

end Allocator

namespace History

variable {s : History} {p : Nat}

def Refuses (s : History) (p : Nat) : Prop := s.allocator.free (some p) = .ok (false, s.allocator)

theorem Sound.refuses_iff (h : s.Sound) (hlo : s.allocator.heapBase ≤ p)
    (hhi : p < s.allocator.heapBase + s.allocator.size)
    (hp : ∀ g ∈ s.grants, p ≠ s.allocator.ptr g.block) :
    s.Refuses p ↔ s.grants ≠ [] ∨ s.allocator.Disowns p := by
  have hring := h.ring
  cases hg : s.grants with
  | nil =>
    rw [hg, List.map_nil] at hring
    rw [Refuses, hring.free_empty_iff hlo hhi]
    simp
  | cons g gs =>
    have hne : p ≠ s.allocator.ptr g.block := hp g (by simp [hg])
    rw [hg, List.map_cons] at hring
    rw [Refuses, hring.free_at hlo hhi, if_neg hne]
    simp

/-- A pointer into the heap that is not the payload address of a live block is refused
exactly when some block is live, or when the word at the free index happens to be the
header of a block elsewhere. -/
theorem not_live_refused {heapBase size : Nat} (hdvd : 4 ∣ size) (hle : 8 ≤ size)
    (hlim : size ≤ 2 ^ 32) (hspace : heapBase + size ≤ 2 ^ 64) {calls : List Call}
    (hs : Machine.run step (new heapBase size) calls = some s) (hlo : s.allocator.heapBase ≤ p)
    (hhi : p < s.allocator.heapBase + s.allocator.size)
    (hp : ∀ g ∈ s.grants, p ≠ s.allocator.ptr g.block) :
    s.Refuses p ↔ s.grants ≠ [] ∨ s.allocator.Disowns p :=
  (sound_of_run ⟨hdvd, hle, hlim, hspace⟩ hs).refuses_iff hlo hhi hp

theorem not_live_refused_twice : ∃ s,
    Machine.run step (new 4096 100) [.alloc 5 1, .alloc 7 1, .free (some 4100)] = some s ∧
      (s.Refuses 4100 ↔ s.grants ≠ [] ∨ s.allocator.Disowns 4100) := by
  have hrun : (Machine.run step (new 4096 100) [.alloc 5 1, .alloc 7 1, .free (some 4100)]).map
      (fun s => (s.allocator.heapBase, s.allocator.size,
        s.grants.map fun g => s.allocator.ptr g.block)) = some (4096, 100, [4112]) := by
    decide +kernel
  obtain ⟨s, hs, hvals⟩ := Option.map_eq_some_iff.mp hrun
  simp only [Prod.mk.injEq] at hvals
  obtain ⟨hbase, hsize, hptrs⟩ := hvals
  refine ⟨s, hs, not_live_refused (by decide) (by decide) (by decide) (by decide) hs (by omega)
    (by omega) ?_⟩
  intro g hg heq
  have hmem : s.allocator.ptr g.block ∈ s.grants.map fun g => s.allocator.ptr g.block :=
    List.mem_map_of_mem hg
  rw [hptrs, ← heq] at hmem
  revert hmem
  decide

/-- `reset` drops the block, and its header stays at the free index. -/
theorem dropped_block_freed : ∃ s a,
    Machine.run step (new 4096 400) [.alloc 100 1, .reset] = some s ∧ s.grants = [] ∧
      s.allocator.free (some 4100) = .ok (true, a) ∧ a.freeIndex = 27 ∧ ¬ s.Refuses 4100 := by
  have hrun : (Machine.run step (new 4096 400) [.alloc 100 1, .reset]).map (fun s =>
      (s.grants.isEmpty, (s.allocator.free (some 4100)).toOption.map fun r =>
        (r.1, r.2.freeIndex))) = some (true, some (true, 27)) := by decide +kernel
  obtain ⟨s, hs, hvals⟩ := Option.map_eq_some_iff.mp hrun
  obtain ⟨hempty, hfree⟩ := Prod.mk.inj hvals
  obtain ⟨⟨done, a⟩, hresult, hfreed⟩ := Option.map_eq_some_iff.mp hfree
  obtain ⟨rfl, hindex⟩ := Prod.mk.inj hfreed
  have hresult := Checked.toOption_eq_some.mp hresult
  refine ⟨s, a, hs, by simpa using hempty, hresult, hindex, ?_⟩
  intro hrefuses
  rw [Refuses, hresult] at hrefuses
  cases hrefuses

end History

end Shadesmar.Memory
