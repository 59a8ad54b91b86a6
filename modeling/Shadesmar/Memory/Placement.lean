import Shadesmar.Memory.History
import Shadesmar.Memory.Room

namespace Shadesmar.Memory

open Library

/-- The payload words of a request that the size limit lets through.  The rounding up is
done in `uint32_t` as well, and comes to 0 for the last three sizes. -/
def requestWords (bytes alignment : Nat) : Nat :=
  (Allocator.requestBytes bytes alignment + 3) / 4 % 2 ^ 30

namespace Allocator

variable {a a' : Allocator} {bytes alignment header size p : Nat} {ptr : Option Nat} {done : Bool}

theorem payloadWords_some (hsum : bytes + alignment < 2 ^ 64)
    (h : a.payloadWords bytes alignment = some size) :
    requestBytes bytes alignment < sub64 a.size 8 ∧ size = requestWords bytes alignment := by
  have hlt : (bytes + alignment) % 2 ^ 32 < 2 ^ 32 := Nat.mod_lt _ (by decide)
  unfold payloadWords at h
  rw [u64_eq hsum] at h
  unfold requestWords requestBytes
  unfold u32 at h
  generalize (bytes + alignment) % 2 ^ 32 = r at *
  generalize sub64 a.size (2 * 4) = limit at *
  dsimp only at h
  split_ifs at h ⊢
  all_goals
    obtain rfl := Option.some.inj h
    omega

def FitsAhead (a : Allocator) (size : Nat) : Prop :=
  (a.allocIndex + 1) % 2 ^ 32 ≠ 0 ∧ (a.allocIndex + size) % 2 ^ 32 < a.words

theorem last_eq (header size : Nat) :
    sub32 (u32 (u32 (header + 1) + size)) 1 = (header + size) % 2 ^ 32 := by
  unfold sub32 u32
  split_ifs <;> omega

theorem assert_eq_ok {q : Prop} [Decidable q] : assert q = .ok () ↔ q := by
  unfold assert
  split_ifs with h <;> simp [h]

theorem suggestIndex_ok (h : a.suggestIndex header size = .ok p) :
    header < a.words ∧ p < a.words ∧ sub32 (u32 (p + size)) 1 < a.words ∧
      p = if a.words ≤ (header + size) % 2 ^ 32 then 0 else (header + 1) % 2 ^ 32 := by
  obtain ⟨⟨⟩, hheader, h⟩ := Checked.bind_eq_ok.mp h
  obtain ⟨⟨⟩, hfirst, h⟩ := Checked.bind_eq_ok.mp h
  obtain ⟨⟨⟩, hlast, h⟩ := Checked.bind_eq_ok.mp h
  obtain rfl := Except.ok.inj h
  refine ⟨assert_eq_ok.mp hheader, assert_eq_ok.mp hfirst, assert_eq_ok.mp hlast, ?_⟩
  rw [last_eq]
  unfold u32
  rfl

theorem allocWords_ok {r : Option Nat} (h : a.allocWords size alignment = .ok (r, a')) :
    (r = none ∧ a' = a) ∨
    ∃ index next, a.suggestIndex a.allocIndex size = .ok index ∧ next < a.words ∧
      r = some (alignAddress (a.heapBase + 4 * index) alignment) ∧
      a' = { a with heap := Bytes.writeWord a.heap a.allocIndex size, allocIndex := next } := by
  obtain ⟨index, hindex, h⟩ := Checked.bind_eq_ok.mp h
  dsimp only at h
  by_cases hwrap : a.allocIndex < a.freeIndex ∧ index = 0
  · rw [if_pos hwrap] at h
    obtain ⟨rfl, rfl⟩ := Prod.mk.inj (Except.ok.inj h)
    exact .inl ⟨rfl, rfl⟩
  rw [if_neg hwrap] at h
  by_cases hover : index ≤ a.freeIndex ∧ a.freeIndex ≤ u32 (index + size)
  · rw [if_pos hover] at h
    obtain ⟨rfl, rfl⟩ := Prod.mk.inj (Except.ok.inj h)
    exact .inl ⟨rfl, rfl⟩
  rw [if_neg hover] at h
  by_cases hfull : u32 (index + size) = a.words ∧ 0 = a.freeIndex
  · rw [if_pos hfull] at h
    obtain ⟨rfl, rfl⟩ := Prod.mk.inj (Except.ok.inj h)
    exact .inl ⟨rfl, rfl⟩
  rw [if_neg hfull] at h
  obtain ⟨⟨⟩, -, h⟩ := Checked.bind_eq_ok.mp h
  obtain ⟨⟨⟩, hnext, h⟩ := Checked.bind_eq_ok.mp h
  obtain ⟨rfl, rfl⟩ := Prod.mk.inj (Except.ok.inj h)
  exact .inr ⟨index, _, hindex, assert_eq_ok.mp hnext, rfl, rfl⟩

theorem alloc_ok {r : Option Nat} (hspace : a.heapBase + a.size ≤ 2 ^ 64) (hbytes : bytes < 2 ^ 32)
    (h : a.alloc bytes = .ok (r, a')) :
    (r = none ∧ a' = a) ∨
    ∃ index next, a.suggestIndex a.allocIndex (requestWords bytes 1) = .ok index ∧
      requestBytes bytes 1 < sub64 a.size 8 ∧ next < a.words ∧ r = some (a.heapBase + 4 * index) ∧
      a' = { a with
        heap := Bytes.writeWord a.heap a.allocIndex (requestWords bytes 1), allocIndex := next } := by
  unfold Allocator.alloc Allocator.allocAligned at h
  cases hwords : a.payloadWords bytes 1 with
  | none =>
    rw [hwords] at h
    obtain ⟨rfl, rfl⟩ := Prod.mk.inj (Except.ok.inj h)
    exact .inl ⟨rfl, rfl⟩
  | some size =>
    rw [hwords] at h
    obtain ⟨hlimit, rfl⟩ := payloadWords_some (by omega) hwords
    rcases allocWords_ok h with hnone | ⟨index, next, hindex, hnext, rfl, rfl⟩
    · exact .inl hnone
    · obtain ⟨-, hlt, -⟩ := suggestIndex_ok hindex
      refine .inr ⟨index, next, hindex, hlimit, hnext, congrArg some (alignAddress_one ?_), rfl⟩
      unfold words at hlt
      omega

theorem free_cases (h : a.free ptr = .ok (done, a')) :
    a' = a ∨ ∃ next < a.words, a' = { a with freeIndex := next } := by
  cases ptr with
  | none =>
    obtain ⟨-, rfl⟩ := Prod.mk.inj (Except.ok.inj h)
    exact .inl rfl
  | some p =>
    obtain ⟨⟨⟩, -, h⟩ := Checked.bind_eq_ok.mp h
    obtain ⟨⟨⟩, -, h⟩ := Checked.bind_eq_ok.mp h
    obtain ⟨⟨⟩, -, h⟩ := Checked.bind_eq_ok.mp h
    obtain ⟨index, hindex, h⟩ := Checked.bind_eq_ok.mp h
    by_cases hne : p ≠ a.heapBase + 4 * index
    · rw [if_pos hne] at h
      obtain ⟨-, rfl⟩ := Prod.mk.inj (Except.ok.inj h)
      exact .inl rfl
    · rw [if_neg hne] at h
      obtain ⟨-, rfl⟩ := Prod.mk.inj (Except.ok.inj h)
      obtain ⟨hheader, -, hlast, -⟩ := suggestIndex_ok hindex
      refine .inr ⟨_, ?_, rfl⟩
      generalize u32 (index + Bytes.readWord a.heap a.freeIndex) = next at *
      unfold sub32 at hlast
      split_ifs at hlast ⊢ <;> omega

theorem handle_ne_zero_iff (hspace : a.heapBase + a.size ≤ 2 ^ 64) (hbytes : bytes < 2 ^ 32)
    (h : a.alloc bytes = .ok (some p, a')) :
    a'.ptrToHandle p ≠ 0 ↔ a.FitsAhead (requestWords bytes 1) := by
  rcases alloc_ok hspace hbytes h with ⟨hnone, -⟩ | ⟨index, next, hindex, -, -, hp, rfl⟩
  · cases hnone
  obtain rfl := Option.some.inj hp
  obtain ⟨-, -, -, hplace⟩ := suggestIndex_ok hindex
  have hhandle : a.heapBase + 4 * index - a.heapBase = 4 * index := Nat.add_sub_cancel_left ..
  unfold ptrToHandle FitsAhead
  rw [hhandle, hplace]
  split_ifs <;> omega

structure Indexed (heapBase size : Nat) (a : Allocator) : Prop where
  heapBase_eq : a.heapBase = heapBase
  size_eq : a.size = size
  alloc_le : a.allocIndex ≤ a.words
  free_le : a.freeIndex ≤ a.words

namespace Indexed

variable {heapBase total : Nat} {r : Option Nat} {data : List UInt8}

theorem new (heapBase total : Nat) : (Allocator.new heapBase total).Indexed heapBase total :=
  ⟨rfl, rfl, Nat.zero_le _, Nat.zero_le _⟩

theorem alloc (h : a.Indexed heapBase total) (hspace : heapBase + total ≤ 2 ^ 64)
    (hbytes : bytes < 2 ^ 32) (ha : a.alloc bytes = .ok (r, a')) : a'.Indexed heapBase total := by
  obtain ⟨rfl, rfl, hai, hfi⟩ := h
  rcases alloc_ok hspace hbytes ha with ⟨-, rfl⟩ | ⟨index, next, -, -, hnext, -, rfl⟩
  · exact ⟨rfl, rfl, hai, hfi⟩
  · exact ⟨rfl, rfl, Nat.le_of_lt hnext, hfi⟩

theorem free (h : a.Indexed heapBase total) (ha : a.free ptr = .ok (done, a')) :
    a'.Indexed heapBase total := by
  rcases free_cases ha with rfl | ⟨next, hnext, rfl⟩
  · exact h
  · exact ⟨h.heapBase_eq, h.size_eq, h.alloc_le, Nat.le_of_lt hnext⟩

theorem store (h : a.Indexed heapBase total) (p : Nat) (data : List UInt8) :
    (a.store p data).Indexed heapBase total := ⟨h.1, h.2, h.3, h.4⟩

end Indexed

end Allocator

namespace Session

theorem indexed_of_run {heapBase size : Nat} (hspace : heapBase + size ≤ 2 ^ 64)
    {calls : List Call} {s : Session} (h : Machine.run step (new heapBase size) calls = some s) :
    s.allocator.Indexed heapBase size := by
  apply (Machine.Run.of_run h).invariant fun t => t.allocator.Indexed heapBase size
  · exact .new heapBase size
  · intro t c t' ht _ hs
    have hlegal := legal_of_step hs
    cases c with
    | alloc bytes =>
      have hbytes : bytes < 2 ^ 32 := hlegal
      simp only [step, if_pos hbytes] at hs
      cases halloc : t.allocator.alloc bytes with
      | error e => simp [halloc] at hs
      | ok result =>
        obtain ⟨r, a⟩ := result
        have ha := ht.alloc hspace hbytes halloc
        rw [halloc] at hs
        cases r <;> exact Option.some.inj hs ▸ ha
    | free ptr =>
      cases ptr with
      | none => exact Option.some.inj hs ▸ ht
      | some p =>
        have hp : p ∈ t.held := hlegal
        simp only [step, if_pos hp] at hs
        cases hfree : t.allocator.free (some p) with
        | error e => simp [hfree] at hs
        | ok result =>
          obtain ⟨done, a⟩ := result
          have ha := ht.free hfree
          rw [hfree] at hs
          cases done <;> exact Option.some.inj hs ▸ ha

/-- The handle of a block that `alloc` returns is 0 exactly when the block has wrapped. -/
theorem handle_not_sentinel {heapBase size : Nat} (hspace : heapBase + size ≤ 2 ^ 64)
    {calls : List Call} {s : Session} (h : Machine.run step (new heapBase size) calls = some s)
    {bytes p : Nat} {a : Allocator} (hbytes : bytes < 2 ^ 32)
    (ha : s.allocator.alloc bytes = .ok (some p, a)) :
    a.ptrToHandle p ≠ 0 ↔ s.allocator.FitsAhead (requestWords bytes 1) := by
  have hidx := indexed_of_run hspace h
  apply Allocator.handle_ne_zero_iff _ hbytes ha
  rw [hidx.heapBase_eq, hidx.size_eq]
  exact hspace

theorem handle_not_sentinel_ahead : ∃ s p a,
    Machine.run step (new 4096 100) [.alloc 50] = some s ∧
      s.allocator.alloc 32 = .ok (some p, a) ∧ p = 4156 ∧
      (a.ptrToHandle p ≠ 0 ↔ s.allocator.FitsAhead (requestWords 32 1)) := by
  have hrun : ((Machine.run step (new 4096 100) [.alloc 50]).bind fun s =>
      (s.allocator.alloc 32).toOption.map Prod.fst) = some (some 4156) := by decide +kernel
  obtain ⟨s, hs, hr⟩ := Option.bind_eq_some_iff.mp hrun
  obtain ⟨⟨-, a⟩, hresult, rfl⟩ := Option.map_eq_some_iff.mp hr
  have ha := Checked.toOption_eq_some.mp hresult
  exact ⟨s, 4156, a, hs, ha, rfl, handle_not_sentinel (by decide) hs (by decide) ha⟩

/-- The first block is gone, so that a third one wraps to the start of the heap. -/
theorem handle_is_sentinel : ∃ s p a,
    Machine.run step (new 4096 100) [.alloc 50, .alloc 32, .free (some 4100)] = some s ∧
      s.allocator.alloc 40 = .ok (some p, a) ∧ a.ptrToHandle p = 0 := by
  have hrun : ((Machine.run step (new 4096 100) [.alloc 50, .alloc 32, .free (some 4100)]).bind
      fun s => (s.allocator.alloc 40).toOption.map fun r => (r.1, r.2.ptrToHandle 4096)) =
      some (some 4096, 0) := by decide +kernel
  obtain ⟨s, hs, hr⟩ := Option.bind_eq_some_iff.mp hrun
  obtain ⟨⟨p, a⟩, hresult, hvals⟩ := Option.map_eq_some_iff.mp hr
  obtain ⟨rfl, hhandle⟩ := Prod.mk.inj hvals
  exact ⟨s, 4096, a, hs, Checked.toOption_eq_some.mp hresult, hhandle⟩

end Session

namespace Allocator

theorem accepts_empty_iff {a : Allocator} {size : Nat} (hempty : a.allocIndex = a.freeIndex)
    (hfree : a.freeIndex < a.words) (hle : size + 2 ≤ a.words) :
    a.Accepts size ↔ a.freeIndex + size < a.words ∨ size < a.freeIndex := by
  have hplace := place_cases a.words a.freeIndex size
  unfold Accepts candidate
  dsimp only
  rw [hempty]
  generalize place a.words a.freeIndex size = p at *
  omega

end Allocator

namespace History

theorem Sound.size_eq {s s' : History} {c : Call} (h : s.Sound) (hs : s.step c = some s') :
    s'.allocator.size = s.allocator.size := by
  obtain ⟨⟨r, t⟩, hc, rfl⟩ := Option.map_eq_some_iff.mp hs
  rcases h.call_cases hc with (⟨rfl, -⟩ | ⟨-, rfl⟩) | ⟨_, _, _, -, -, -, -, rfl, -⟩ |
      ⟨_, _, -, -, -, rfl⟩ | ⟨_, _, -, -, -, -, rfl⟩ | ⟨-, -, rfl⟩ <;> rfl

theorem size_of_run {heapBase size : Nat} (h : (Allocator.new heapBase size).Sized)
    {calls : List Call} {s : History} (hs : Machine.run step (new heapBase size) calls = some s) :
    s.allocator.size = size := by
  have hall : s.Sound ∧ s.allocator.size = size := by
    apply (Machine.Run.of_run hs).invariant fun t => t.Sound ∧ t.allocator.size = size
    · exact ⟨sound_new h, rfl⟩
    · rintro t c t' ⟨ht, hsize⟩ - hs
      exact ⟨ht.step hs, (ht.size_eq hs).trans hsize⟩
  exact hall.2

/-- What an empty heap serves depends on where the equal indices stand. -/
theorem drained_serves_iff {heapBase size : Nat} (hdvd : 4 ∣ size) (hle : 12 ≤ size)
    (hlim : size ≤ 2 ^ 32) (hspace : heapBase + size ≤ 2 ^ 64) {calls : List Call} {s : History}
    (h : Machine.run step (new heapBase size) calls = some s) (hdrained : s.grants = [])
    {bytes : Nat} (hbytes : bytes + 1 < size - 8) :
    s.allocator.allocIndex = s.allocator.freeIndex ∧
      ((∃ p a, s.allocator.alloc bytes = .ok (some p, a)) ↔
        s.allocator.freeIndex + (bytes / 4 + 1) < s.allocator.words ∨
        bytes / 4 + 1 < s.allocator.freeIndex) := by
  have hnew : (Allocator.new heapBase size).Sized := ⟨hdvd, Nat.le_trans (by decide) hle, hlim, hspace⟩
  have hring := (sound_of_run hnew h).ring
  rw [hdrained, List.map_nil] at hring
  have hempty : s.allocator.allocIndex = s.allocator.freeIndex :=
    (hring.chain.eq_nil_iff.mpr rfl).symm
  have hsize := size_of_run hnew h
  have hwords := hring.sized.words_mul
  have hserved : (∃ p a, s.allocator.alloc bytes = .ok (some p, a)) ↔
      s.allocator.alloc bytes ≠ .ok (none, s.allocator) := by
    rcases hring.alloc bytes with hnone | ⟨b, hsome, -⟩
    · simp [hnone]
    · simp [hsome]
  refine ⟨hempty, ?_⟩
  rw [hserved, hring.alloc_iff (by omega), and_iff_right (by omega),
    Allocator.accepts_empty_iff hempty hring.free_lt (by omega)]

theorem drained_serves_iff_wrapped : ∃ s,
    Machine.run step (new 4096 100) [.alloc 43 1, .free (some 4100)] = some s ∧
      s.allocator.freeIndex = 12 ∧ s.allocator.allocIndex = s.allocator.freeIndex ∧
      ((∃ p a, s.allocator.alloc 40 = .ok (some p, a)) ↔
        s.allocator.freeIndex + 11 < s.allocator.words ∨ 11 < s.allocator.freeIndex) := by
  have hrun : (Machine.run step (new 4096 100) [.alloc 43 1, .free (some 4100)]).map
      (fun s => (s.grants.isEmpty, s.allocator.freeIndex)) = some (true, 12) := by decide +kernel
  obtain ⟨s, hs, hvals⟩ := Option.map_eq_some_iff.mp hrun
  obtain ⟨hempty, hindex⟩ := Prod.mk.inj hvals
  exact ⟨s, hs, hindex, drained_serves_iff (by decide) (by decide) (by decide) (by decide) hs
    (by simpa using hempty) (show 40 + 1 < 100 - 8 by decide)⟩

/-- From word 12 of 25 a block of 14 words neither reaches the end nor fits before. -/
theorem drained_refuses : ∃ s,
    Machine.run step (new 4096 100) [.alloc 43 1, .free (some 4100)] = some s ∧ s.grants = [] ∧
      48 + 1 < 100 - 8 ∧ s.allocator.alloc 48 = .ok (none, s.allocator) := by
  have hrun : (Machine.run step (new 4096 100) [.alloc 43 1, .free (some 4100)]).map (fun s =>
      (s.grants.isEmpty, (s.allocator.alloc 48).toOption.map Prod.fst)) =
      some (true, some none) := by decide +kernel
  obtain ⟨s, hs, hvals⟩ := Option.map_eq_some_iff.mp hrun
  obtain ⟨hempty, hr⟩ := Prod.mk.inj hvals
  obtain ⟨⟨-, a⟩, hresult, rfl⟩ := Option.map_eq_some_iff.mp hr
  have ha := Checked.toOption_eq_some.mp hresult
  have hsound := sound_of_run ⟨by decide, by decide, by decide, by decide⟩ hs
  refine ⟨s, hs, by simpa using hempty, by decide, ?_⟩
  rcases hsound.ring.alloc 48 with hnone | ⟨b, hsome, -⟩
  · exact hnone
  · rw [hsome] at ha
    cases ha

end History

end Shadesmar.Memory
