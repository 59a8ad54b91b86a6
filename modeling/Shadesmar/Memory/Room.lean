import Shadesmar.Memory.Ring

namespace Shadesmar.Memory

open Library Library.Cyclic

/-- A chain goes around the heap once at most, so that one block at most leaves words unused
at the end. -/
theorem Chain.steps_le {N i j w : Nat} {m : Bytes.Mem} {bs : List Block} (h : Chain N m i bs j)
    (hj : j < N) (hsize : ∀ b ∈ bs, b.size + 1 ≤ w) :
    steps N i j ≤ bs.length * w + if j < i then w - 2 else 0 := by
  induction h with
  | nil => simp
  | @cons b bs j hfits hword hbet hrest ih =>
    have htail := ih hj fun c hc => hsize c (List.mem_cons_of_mem b hc)
    have hb := hsize b List.mem_cons_self
    have hne := (Chain.cons hfits hword hbet hrest).ne
    have hnext := hfits.next_lt
    obtain ⟨hlt, hpos, hplaced, hstop, hclear, -⟩ := hfits
    have hlen : (b :: bs).length * w = bs.length * w + w := by
      rw [List.length_cons, Nat.succ_mul]
    rw [hlen]
    unfold Block.next Between steps place at *
    -- the block ends before the end of the heap, at its end, or lies behind the wrap
    split_ifs at * <;> omega

theorem Chain.start_eq {N N' i i' j j' : Nat} {m m' : Bytes.Mem} {bs : List Block} {c : Block}
    (h : Chain N m i bs j) (h' : Chain N' m' i' (bs ++ [c]) j') (hc : c.header = j) : i' = i := by
  cases bs with
  | nil => rw [← h'.head.1, hc, h.eq_nil_iff.mpr rfl]
  | cons b bs => rw [← h'.head.1, ← h.head.1]

namespace Allocator

variable {a : Allocator} {bs : List Block} {bytes size : Nat}

def gap (a : Allocator) : Nat := steps a.words a.allocIndex a.freeIndex

theorem getFreeMemory_eq (hf : a.freeIndex < a.words) (ha : a.allocIndex < a.words) :
    a.getFreeMemory = 4 * (a.words - steps a.words a.freeIndex a.allocIndex) := by
  unfold getFreeMemory steps
  dsimp only
  split_ifs <;> omega

theorem Lays.eq_candidate {b : Block} (h : a.Lays bytes b) (hfits : b.Fits a.words) :
    b = a.candidate (bytes / 4 + 1) := by
  have hplaced := hfits.placed
  obtain ⟨hheader, hlow, hhigh⟩ := h
  have hb : b.size = bytes / 4 + 1 := by omega
  rw [hheader, hb] at hplaced
  change Block.mk b.header b.payload b.size = _
  rw [hheader, hplaced, hb]
  rfl

/-- With twice the payload to spare, the wrap does no harm. -/
theorem accepts_of_room (hf : a.freeIndex < a.words) (ha : a.allocIndex < a.words) (hpos : 0 < size)
    (hroom : steps a.words a.freeIndex a.allocIndex + 2 * size + 2 ≤ a.words) : a.Accepts size := by
  have hplace := place_cases a.words a.allocIndex size
  unfold Accepts candidate
  unfold steps at hroom
  dsimp only
  generalize place a.words a.allocIndex size = p at *
  split_ifs at hroom <;> omega

theorem Accepts.gap (h : a.Accepts size) (hf : a.freeIndex < a.words) (ha : a.allocIndex < a.words)
    (hpos : 0 < size) : a.gap = 0 ∨ 3 ≤ a.gap := by
  have hplace := place_cases a.words a.allocIndex size
  unfold Accepts candidate at h
  dsimp only at h
  generalize place a.words a.allocIndex size = p at *
  unfold Allocator.gap steps
  split_ifs <;> omega

theorem accepts_one_iff (hf : a.freeIndex < a.words) (ha : a.allocIndex < a.words)
    (hwords : 4 ≤ a.words) : a.Accepts 1 ↔ a.gap = 0 ∨ 3 ≤ a.gap := by
  refine ⟨fun h => h.gap hf ha Nat.one_pos, fun h => ?_⟩
  have hplace := place_cases a.words a.allocIndex 1
  unfold Allocator.gap steps at h
  unfold Accepts candidate
  dsimp only
  generalize place a.words a.allocIndex 1 = p at *
  split_ifs at h <;> omega

theorem Bounded.alloc_iff (h : a.Bounded) (hbytes : bytes + 1 < 2 ^ 32) :
    a.alloc bytes ≠ .ok (none, a) ↔ bytes + 9 < a.size ∧ a.Accepts (bytes / 4 + 1) := by
  have hrequest : requestBytes bytes 1 = bytes + 1 := by
    unfold requestBytes
    rw [Nat.mod_eq_of_lt hbytes, if_neg (by omega)]
  have hround : (bytes + 1 + 3) / 4 = bytes / 4 + 1 := by omega
  have hwords : a.payloadWords bytes 1 = _ := payloadWords_eq h.sized (by omega)
  rw [hrequest, hround] at hwords
  unfold Allocator.alloc Allocator.allocAligned
  rw [hwords]
  have hw := h.sized.words_mul
  split_ifs with hlimit
  · constructor
    · exact fun hne => absurd rfl hne
    · rintro ⟨hlt, -⟩
      omega
  · simp only [h.allocWords_eq 1 (Nat.succ_pos _) (show bytes / 4 + 1 + 2 ≤ a.words by omega)]
    constructor
    · intro hne
      refine ⟨by omega, ?_⟩
      by_contra hacc
      exact hne (by rw [if_neg hacc])
    · rintro ⟨-, hacc⟩
      rw [if_pos hacc]
      nofun

theorem Ring.alloc_iff (h : a.Ring bs) (hbytes : bytes + 1 < 2 ^ 32) :
    a.alloc bytes ≠ .ok (none, a) ↔ bytes + 9 < a.size ∧ a.Accepts (bytes / 4 + 1) :=
  h.bounded.alloc_iff hbytes

end Allocator

end Shadesmar.Memory
