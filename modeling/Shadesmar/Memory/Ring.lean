import Shadesmar.Library.Cyclic
import Shadesmar.Memory.Allocator
import Mathlib.Data.List.Pairwise
import Mathlib.Tactic.SplitIfs

/-! Blocks of the ring allocator and the chain they form.  A block is a header
word that holds the payload size, and the payload words it announces; `Chain`
walks headers as `free` does, and `Ring` says that the chain runs from
`free_index_` to `alloc_index_` once around the heap at most. -/

namespace Shadesmar.Memory

open Library Library.Cyclic

structure Block where
  header : Nat
  payload : Nat
  size : Nat
  deriving DecidableEq

namespace Block

def next (N : Nat) (b : Block) : Nat := if b.payload + b.size = N then 0 else b.payload + b.size

def handle (b : Block) : Nat := 4 * b.payload

def Owns (b : Block) (x : Nat) : Prop :=
  x = b.header ∨ b.payload ≤ x ∧ x < b.payload + b.size

instance (b : Block) (x : Nat) : Decidable (b.Owns x) := inferInstanceAs (Decidable (_ ∨ _))

end Block

/-- The placement `suggest_index` computes for admissible arguments. -/
def place (N header size : Nat) : Nat := if N ≤ header + size then 0 else header + 1

theorem place_cases (N header size : Nat) : place N header size = 0 ∧ N ≤ header + size ∨
    place N header size = header + 1 ∧ header + size < N := by
  unfold place
  split_ifs <;> omega

structure Block.Fits (N : Nat) (b : Block) : Prop where
  header_lt : b.header < N
  size_pos : 0 < b.size
  placed : b.payload = place N b.header b.size
  stop_le : b.payload + b.size ≤ N
  clear : b.payload = 0 → b.size < b.header
  next_ne : b.next N ≠ b.header

namespace Block.Fits

variable {N : Nat} {b : Block}

theorem next_lt (h : b.Fits N) : b.next N < N := by
  have hh := h.header_lt
  have hs := h.stop_le
  unfold Block.next
  split_ifs <;> omega

theorem owns_arc (h : b.Fits N) {x : Nat} (hx : b.Owns x) :
    x < N ∧ Arc N b.header (b.next N) x := by
  obtain ⟨hlt, hpos, hplaced, hstop, hclear, hne⟩ := h
  unfold place at hplaced
  unfold Block.Owns at hx
  unfold Block.next at *
  unfold Arc steps
  split_ifs at * <;> omega

theorem header_not_payload (h : b.Fits N) :
    b.header < b.payload ∨ b.payload + b.size ≤ b.header := by
  have hplaced := h.placed
  have hclear := h.clear
  unfold place at hplaced
  split_ifs at hplaced <;> omega

end Block.Fits

inductive Chain (N : Nat) (m : Bytes.Mem) : Nat → List Block → Nat → Prop
  | nil {i} : Chain N m i [] i
  | cons {b bs j} : b.Fits N → Bytes.readWord m b.header = b.size →
      Between N b.header (b.next N) j → Chain N m (b.next N) bs j →
      Chain N m b.header (b :: bs) j

namespace Chain

variable {N i j : Nat} {m m' : Bytes.Mem} {b c : Block} {bs : List Block}

theorem head (h : Chain N m i (b :: bs) j) :
    b.header = i ∧ Bytes.readWord m b.header = b.size := by
  cases h with
  | cons _ hword _ _ => exact ⟨rfl, hword⟩

theorem tail (h : Chain N m i (b :: bs) j) : Chain N m (b.next N) bs j := by
  cases h with
  | cons _ _ _ hrest => exact hrest

theorem fits (h : Chain N m i bs j) (hb : b ∈ bs) : b.Fits N := by
  induction h with
  | nil => simp at hb
  | cons hfits _ _ _ ih =>
    rcases List.mem_cons.mp hb with rfl | hb
    · exact hfits
    · exact ih hb

theorem congr (h : Chain N m i bs j)
    (hm : ∀ b ∈ bs, Bytes.readWord m' b.header = Bytes.readWord m b.header) :
    Chain N m' i bs j := by
  induction h with
  | nil => exact .nil
  | cons hfits hword hbet _ ih =>
    refine .cons hfits ?_ hbet (ih fun c hc => hm c (List.mem_cons_of_mem _ hc))
    rw [hm _ List.mem_cons_self, hword]

theorem owns_arc (h : Chain N m i bs j) (hj : j < N) (hb : b ∈ bs) {x : Nat} (hx : b.Owns x) :
    x < N ∧ Arc N i j x := by
  induction h with
  | nil => simp at hb
  | cons hfits _ hbet _ ih =>
    rcases List.mem_cons.mp hb with rfl | hb
    · exact ⟨(hfits.owns_arc hx).1, hbet.arc_left (hfits.owns_arc hx).2⟩
    · obtain ⟨hlt, harc⟩ := ih hj hb
      exact ⟨hlt, hbet.arc_right hfits.header_lt hfits.next_lt hj harc⟩

theorem disjoint (h : Chain N m i bs j) (hj : j < N) :
    bs.Pairwise fun b c => ∀ x, b.Owns x → ¬ c.Owns x := by
  induction h with
  | nil => exact .nil
  | cons hfits _ hbet hrest ih =>
    refine .cons ?_ (ih hj)
    intro c hc x hb hcx
    obtain ⟨hlt, harc⟩ := hrest.owns_arc hj hc hcx
    exact hbet.arc_disjoint hfits.header_lt hfits.next_lt hj (hfits.owns_arc hb).2 harc

theorem ne (h : Chain N m i (b :: bs) j) : i ≠ j := by
  cases h with
  | cons hfits _ hbet _ =>
    intro hij
    have hpos := steps_pos hfits.header_lt (Ne.symm hfits.next_ne)
    rw [hij] at hpos hbet
    unfold Between at hbet
    simp only [steps_self] at hbet
    omega

theorem eq_nil_iff (h : Chain N m i bs j) : i = j ↔ bs = [] := by
  constructor
  · intro hij
    cases bs with
    | nil => rfl
    | cons b bs => exact absurd hij h.ne
  · rintro rfl
    cases h
    rfl

theorem length_le (h : Chain N m i bs j) : bs.length ≤ steps N i j := by
  induction h with
  | nil => simp
  | cons hfits _ hbet _ ih =>
    have hpos := steps_pos hfits.header_lt (Ne.symm hfits.next_ne)
    rw [hbet.length_add, List.length_cons]
    omega

theorem last (h : Chain N m i (bs ++ [c]) j) : j = c.next N := by
  induction bs generalizing i with
  | nil =>
    cases h with
    | cons _ _ _ hrest => exact (hrest.eq_nil_iff.mpr rfl).symm
  | cons b bs ih => exact ih h.tail

theorem snoc (h : Chain N m i bs c.header) (hfits : c.Fits N)
    (hword : Bytes.readWord m c.header = c.size) (hi : i < N)
    (hbet : Between N i c.header (c.next N)) : Chain N m i (bs ++ [c]) (c.next N) := by
  generalize hj : c.header = j at h hbet
  induction h with
  | nil =>
    subst hj
    exact .cons hfits hword (between_right _ _ _) .nil
  | cons hfits' hword' hbet' _ ih =>
    have hc := hfits.header_lt
    rw [hj] at hc
    obtain ⟨hlong, htail⟩ := hbet'.trans hfits'.header_lt hfits'.next_lt hc hbet
    exact .cons hfits' hword' hlong (ih hfits'.next_lt hj htail)

end Chain

namespace Allocator

/-- What the constructor asserts, and the range of sizes in which the index
arithmetic stays inside its types. -/
structure Sized (a : Allocator) : Prop where
  dvd : 4 ∣ a.size
  le_size : 8 ≤ a.size
  size_le : a.size ≤ 2 ^ 32
  inSpace : a.heapBase + a.size ≤ 2 ^ 64

def ptr (a : Allocator) (b : Block) : Nat := a.heapBase + 4 * b.payload

def push (a : Allocator) (b : Block) : Allocator :=
  { a with heap := Bytes.writeWord a.heap b.header b.size, allocIndex := b.next a.words }

def pop (a : Allocator) (b : Block) : Allocator := { a with freeIndex := b.next a.words }

def candidate (a : Allocator) (size : Nat) : Block :=
  ⟨a.allocIndex, place a.words a.allocIndex size, size⟩

def Accepts (a : Allocator) (size : Nat) : Prop :=
  let b := a.candidate size
  ¬ (a.allocIndex < a.freeIndex ∧ b.payload = 0) ∧
  ¬ (b.payload ≤ a.freeIndex ∧ a.freeIndex ≤ b.payload + b.size) ∧
  ¬ (b.payload + b.size = a.words ∧ 0 = a.freeIndex)

instance (a : Allocator) (size : Nat) : Decidable (a.Accepts size) :=
  inferInstanceAs (Decidable (_ ∧ _ ∧ _))

section Fields

variable (a : Allocator) (b c : Block) (p : Nat) (data : List UInt8)

@[simp] theorem ptr_push : (a.push b).ptr c = a.ptr c := rfl

@[simp] theorem ptrToHandle_ptr : a.ptrToHandle (a.ptr b) = b.handle := by
  simp [ptrToHandle, ptr, Block.handle]

@[simp] theorem handleToPtr_handle : a.handleToPtr b.handle = a.ptr b := rfl

theorem store_ptr : (a.store (a.ptr b) data).heap = Bytes.write a.heap b.handle data := by
  simp [store, ptr, Block.handle]

theorem load_ptr (n : Nat) : a.load (a.ptr b) n = Bytes.read a.heap b.handle n := by
  simp [load, ptr, Block.handle]

end Fields

namespace Sized

variable {a : Allocator}

theorem words_mul (h : a.Sized) : 4 * a.words = a.size := Nat.mul_div_cancel' h.dvd

theorem le_words (h : a.Sized) : 2 ≤ a.words := by
  have hw := h.words_mul
  have hs := h.le_size
  omega

theorem words_le (h : a.Sized) : a.words ≤ 2 ^ 30 := by
  have hw := h.words_mul
  have hs := h.size_le
  omega

theorem push (h : a.Sized) (b : Block) : (a.push b).Sized := ⟨h.1, h.2, h.3, h.4⟩

theorem pop (h : a.Sized) (b : Block) : (a.pop b).Sized := ⟨h.1, h.2, h.3, h.4⟩

theorem store (h : a.Sized) (p : Nat) (data : List UInt8) : (a.store p data).Sized :=
  ⟨h.1, h.2, h.3, h.4⟩

end Sized

theorem assert_ok {p : Prop} [Decidable p] (h : p) : assert p = .ok () := if_pos h

theorem alignAddress_one {p : Nat} (h : p < 2 ^ 64) : alignAddress p 1 = p := by
  have hone : sub64 1 1 = 0 := sub64_eq (Nat.le_refl 1)
  unfold alignAddress shmalign
  rw [hone, Nat.or_zero]
  unfold sub64 u64
  split_ifs <;> omega

variable {a : Allocator}

theorem suggestIndex_eq (h : a.Sized) {header size : Nat} (hh : header < a.words)
    (hpos : 0 < size) (hle : size ≤ a.words) :
    a.suggestIndex header size = .ok (place a.words header size) := by
  have hw := h.words_le
  have hone : u32 (header + 1) = header + 1 := u32_eq (by omega)
  have hlast : sub32 (u32 (header + 1 + size)) 1 = header + size := by
    rw [u32_eq (by omega), sub32_eq (by omega)]
    omega
  simp only [suggestIndex, validateIndex, hone, hlast, assert_ok hh, place]
  by_cases hfit : a.words ≤ header + size
  · have hstop : sub32 (u32 (0 + size)) 1 < a.words := by
      rw [u32_eq (by omega), sub32_eq (by omega)]
      omega
    have hzero : 0 < a.words := by omega
    simp only [ge_iff_le, hfit, if_true, assert_ok hstop, assert_ok hzero]
    rfl
  · have hstop : header + size < a.words := by omega
    have hnext : header + 1 < a.words := by omega
    simp only [ge_iff_le, hfit, if_false, hlast, assert_ok hstop, assert_ok hnext]
    rfl

theorem payloadWords_spec (h : a.Sized) (bytes alignment : Nat) :
    a.payloadWords bytes alignment = none ∨
    ∃ size, a.payloadWords bytes alignment = some size ∧ 0 < size ∧ size + 2 ≤ a.words ∧
      (bytes + alignment < 2 ^ 32 → bytes + alignment ≤ 4 * size ∧
        (0 < alignment → 4 * size < bytes + alignment + 4)) := by
  have hw := h.words_mul
  have hs := h.le_size
  have hl := h.size_le
  have hlimit : sub64 a.size (2 * 4) = a.size - 8 := sub64_eq hs
  unfold payloadWords
  rw [hlimit]
  unfold u32 u64
  dsimp only
  split_ifs
  all_goals first
    | exact .inl rfl
    | refine .inr ⟨_, rfl, ?_, ?_, fun _ => ⟨?_, fun _ => ?_⟩⟩ <;> omega

def requestBytes (bytes alignment : Nat) : Nat :=
  if (bytes + alignment) % 2 ^ 32 = 0 then 4 else (bytes + alignment) % 2 ^ 32

theorem payloadWords_eq (h : a.Sized) {bytes alignment : Nat} (hsum : bytes + alignment < 2 ^ 64) :
    a.payloadWords bytes alignment =
      if a.size ≤ requestBytes bytes alignment + 8 then none
      else some ((requestBytes bytes alignment + 3) / 4) := by
  have hs := h.le_size
  have hl := h.size_le
  have hlimit : sub64 a.size (2 * 4) = a.size - 8 := sub64_eq hs
  unfold payloadWords requestBytes
  rw [hlimit, u64_eq hsum]
  unfold u32
  generalize (bytes + alignment) % 2 ^ 32 = r
  dsimp only
  split_ifs <;> first | rfl | omega | (congr 1; omega)

/-- `b` is a block laid down at the allocation index for a request of `bytes` bytes, with
one byte more than asked for, rounded up to whole words. -/
structure Lays (a : Allocator) (bytes : Nat) (b : Block) : Prop where
  header : b.header = a.allocIndex
  room : bytes < 4 * b.size
  tight : 4 * b.size < bytes + 5

structure Bounded (a : Allocator) : Prop where
  sized : a.Sized
  free_lt : a.freeIndex < a.words
  alloc_lt : a.allocIndex < a.words

structure Ring (a : Allocator) (bs : List Block) : Prop where
  sized : a.Sized
  free_lt : a.freeIndex < a.words
  alloc_lt : a.allocIndex < a.words
  chain : Chain a.words a.heap a.freeIndex bs a.allocIndex

theorem Ring.bounded {bs : List Block} (h : a.Ring bs) : a.Bounded := ⟨h.sized, h.free_lt, h.alloc_lt⟩

theorem bounded_new {heapBase size : Nat} (h : (new heapBase size).Sized) :
    (new heapBase size).Bounded := by
  have hw : 0 < (new heapBase size).words := Nat.lt_of_lt_of_le (by decide) h.le_words
  exact ⟨h, hw, hw⟩

theorem ring_new {heapBase size : Nat} (h : (new heapBase size).Sized) :
    (new heapBase size).Ring [] := ⟨h, (bounded_new h).free_lt, (bounded_new h).alloc_lt, .nil⟩

theorem Accepts.fits (hf : a.freeIndex < a.words) (ha : a.allocIndex < a.words) {size : Nat}
    (hpos : 0 < size) (hle : size + 2 ≤ a.words) (h : a.Accepts size) :
    (a.candidate size).Fits a.words ∧
    Between a.words a.freeIndex a.allocIndex ((a.candidate size).next a.words) := by
  unfold Accepts candidate at h
  unfold candidate
  obtain ⟨hwrap, hover, hfull⟩ := h
  have hplace := place_cases a.words a.allocIndex size
  simp only at hwrap hover hfull
  generalize hp : place a.words a.allocIndex size = p at *
  constructor
  · refine ⟨ha, hpos, hp.symm, ?_, ?_, ?_⟩
    · simp only
      omega
    · simp only
      omega
    · simp only [Block.next]
      split_ifs <;> omega
  · simp only [Block.next]
    unfold Between steps
    split_ifs <;> omega

theorem Bounded.allocWords_eq (h : a.Bounded) {size : Nat} (alignment : Nat) (hpos : 0 < size)
    (hle : size + 2 ≤ a.words) :
    a.allocWords size alignment = .ok (if a.Accepts size then
      (some (alignAddress (a.ptr (a.candidate size)) alignment), a.push (a.candidate size))
      else (none, a)) := by
  have hw := h.sized.words_le
  have hp : place a.words a.allocIndex size ≤ a.words := by
    have hlt := h.alloc_lt
    have hplace := place_cases a.words a.allocIndex size
    omega
  simp only [allocWords, suggestIndex_eq h.sized h.alloc_lt hpos (by omega), bind, Except.bind]
  generalize hsum : u32 (place a.words a.allocIndex size + size) = stop
  obtain rfl : place a.words a.allocIndex size + size = stop := by
    rw [← hsum, u32_eq (by omega)]
  by_cases hacc : a.Accepts size
  · obtain ⟨hfits, -⟩ := hacc.fits h.free_lt h.alloc_lt hpos hle
    have hnext : (if place a.words a.allocIndex size + size = a.words then 0
        else place a.words a.allocIndex size + size) < a.words := hfits.next_lt
    have hne : (if place a.words a.allocIndex size + size = a.words then 0
        else place a.words a.allocIndex size + size) ≠ a.allocIndex := hfits.next_ne
    rw [if_pos hacc]
    obtain ⟨hwrap, hover, hfull⟩ := hacc
    simp only [candidate] at hwrap hover hfull
    rw [if_neg hwrap, if_neg hover, if_neg hfull, assert_ok hne, validateIndex, assert_ok hnext]
    rfl
  · rw [if_neg hacc]
    unfold Accepts candidate at hacc
    split_ifs with hwrap hover hfull
    · rfl
    · rfl
    · rfl
    all_goals exact absurd ⟨hwrap, hover, hfull⟩ hacc

theorem Bounded.allocAligned_eq (h : a.Bounded) (bytes alignment : Nat) :
    a.allocAligned bytes alignment = .ok (none, a) ∨
    ∃ size, a.payloadWords bytes alignment = some size ∧ a.Accepts size ∧ 0 < size ∧
      size + 2 ≤ a.words ∧ a.allocAligned bytes alignment =
        .ok (some (alignAddress (a.ptr (a.candidate size)) alignment), a.push (a.candidate size)) := by
  unfold Allocator.allocAligned
  rcases payloadWords_spec h.sized bytes alignment with hnone | ⟨size, hsome, hpos, hle, -⟩
  · rw [hnone]
    exact .inl rfl
  · rw [hsome]
    simp only [h.allocWords_eq alignment hpos hle]
    by_cases hacc : a.Accepts size
    · rw [if_pos hacc]
      exact .inr ⟨size, rfl, hacc, hpos, hle, rfl⟩
    · rw [if_neg hacc]
      exact .inl rfl

namespace Ring

variable {bs : List Block} {b c : Block} {data msg : List UInt8}

theorem not_owns_alloc (h : a.Ring bs) (hb : b ∈ bs) : ¬ b.Owns a.allocIndex := by
  intro hx
  exact not_arc_right _ _ _ (h.chain.owns_arc h.alloc_lt hb hx).2

theorem header_ne_alloc (h : a.Ring bs) (hb : b ∈ bs) : b.header ≠ a.allocIndex := by
  intro heq
  exact h.not_owns_alloc hb (.inl heq.symm)

theorem disjoint (h : a.Ring bs) : bs.Pairwise fun b c => ∀ x, b.Owns x → ¬ c.Owns x :=
  h.chain.disjoint h.alloc_lt

theorem nodup (h : a.Ring bs) : bs.Nodup := by
  apply h.disjoint.imp
  intro b c hbc heq
  subst heq
  exact hbc b.header (.inl rfl) (.inl rfl)

theorem not_owns (h : a.Ring bs) (hb : b ∈ bs) (hc : c ∈ bs) (hne : b ≠ c) {x : Nat}
    (hx : b.Owns x) : ¬ c.Owns x := by
  have hsymm : Std.Symm fun b c : Block => ∀ x, b.Owns x → ¬ c.Owns x :=
    ⟨fun _ _ hbc y hc hb => hbc y hb hc⟩
  exact h.disjoint.forall hb hc hne x hx

theorem payload_inj (h : a.Ring bs) (hb : b ∈ bs) (hc : c ∈ bs) (heq : b.payload = c.payload) :
    b = c := by
  by_contra hne
  have hpb := (h.chain.fits hb).size_pos
  have hpc := (h.chain.fits hc).size_pos
  exact h.not_owns hb hc hne (.inr ⟨Nat.le_refl _, by omega⟩) (.inr ⟨by omega, by omega⟩)

theorem push (h : a.Ring bs) {size : Nat} (hacc : a.Accepts size) (hpos : 0 < size)
    (hle : size + 2 ≤ a.words) :
    (a.push (a.candidate size)).Ring (bs ++ [a.candidate size]) := by
  obtain ⟨hfits, hbet⟩ := hacc.fits h.free_lt h.alloc_lt hpos hle
  have hw := h.sized.words_le
  have hold : Chain a.words (Bytes.writeWord a.heap a.allocIndex size) a.freeIndex bs
      a.allocIndex := by
    apply h.chain.congr
    intro b hb
    exact Bytes.readWord_writeWord_ne (h.header_ne_alloc hb)
  refine ⟨h.sized.push _, h.free_lt, hfits.next_lt, ?_⟩
  exact Chain.snoc (c := a.candidate size) hold hfits
    (Bytes.readWord_writeWord (by simp only [candidate]; omega)) h.free_lt hbet

theorem pop (h : a.Ring (b :: bs)) : (a.pop b).Ring bs := by
  obtain ⟨hsized, hfree, halloc, hchain⟩ := h
  exact ⟨hsized.pop b, (hchain.fits List.mem_cons_self).next_lt, halloc, hchain.tail⟩

theorem header_not_payload (h : a.Ring bs) (hb : b ∈ bs) (hc : c ∈ bs) :
    c.header < b.payload ∨ b.payload + b.size ≤ c.header := by
  by_cases hbc : b = c
  · subst hbc
    exact (h.chain.fits hb).header_not_payload
  · by_contra hin
    exact h.not_owns hb hc hbc (.inr ⟨by omega, by omega⟩) (.inl rfl)

theorem store (h : a.Ring bs) (hb : b ∈ bs) (hlen : data.length ≤ 4 * b.size) :
    (a.store (a.ptr b) data).Ring bs := by
  refine ⟨h.sized.store _ _, h.free_lt, h.alloc_lt, ?_⟩
  apply h.chain.congr
  intro c hc
  rw [store_ptr]
  apply Bytes.readWord_congr
  intro x hx hx'
  have hout := h.header_not_payload hb hc
  apply Bytes.write_outside
  simp only [Block.handle]
  omega

theorem payload_lt (h : a.Ring bs) (hb : b ∈ bs) : b.payload < a.words := by
  have hpos := (h.chain.fits hb).size_pos
  have hstop := (h.chain.fits hb).stop_le
  omega

theorem getFreeMemory_le (h : a.Ring bs) : a.getFreeMemory ≤ a.size := by
  have hw := h.sized.words_mul
  have hf := h.free_lt
  have ha := h.alloc_lt
  unfold getFreeMemory
  dsimp only
  split_ifs <;> omega

theorem ptr_lt (h : a.Ring bs) (hb : b ∈ bs) : a.ptr b < a.heapBase + a.size := by
  have hlt := h.payload_lt hb
  have hw := h.sized.words_mul
  simp only [ptr]
  omega

/-- The word at the free index is a header, so that no payload starts there. -/
theorem payload_ne_freeIndex (h : a.Ring bs) (hb : b ∈ bs) : b.payload ≠ a.freeIndex := by
  cases bs with
  | nil => simp at hb
  | cons c cs =>
    have hhead := h.chain.head.1
    have hpos := (h.chain.fits hb).size_pos
    rcases h.header_not_payload hb List.mem_cons_self with hlt | hle <;> omega

theorem allocAligned (h : a.Ring bs) (bytes alignment : Nat) :
    a.allocAligned bytes alignment = .ok (none, a) ∨
    ∃ b, a.allocAligned bytes alignment = .ok (some (alignAddress (a.ptr b) alignment), a.push b) ∧
      (a.push b).Ring (bs ++ [b]) ∧ b.header = a.allocIndex ∧
      (bytes + alignment < 2 ^ 32 → bytes + alignment ≤ 4 * b.size ∧
        (0 < alignment → 4 * b.size < bytes + alignment + 4)) := by
  rcases h.bounded.allocAligned_eq bytes alignment with hnone | ⟨size, hsome, hacc, hpos, hle, hok⟩
  · exact .inl hnone
  · refine .inr ⟨a.candidate size, hok, h.push hacc hpos hle, rfl, ?_⟩
    rcases payloadWords_spec h.sized bytes alignment with hnone | ⟨size', hsome', -, -, hroom⟩
    · rw [hsome] at hnone
      cases hnone
    · obtain rfl := Option.some.inj (hsome.symm.trans hsome')
      exact hroom

theorem alloc (h : a.Ring bs) (bytes : Nat) :
    a.alloc bytes = .ok (none, a) ∨
    ∃ b, a.alloc bytes = .ok (some (a.ptr b), a.push b) ∧ (a.push b).Ring (bs ++ [b]) ∧
      b.header = a.allocIndex ∧ (bytes + 1 < 2 ^ 32 → a.Lays bytes b) := by
  rcases h.allocAligned bytes 1 with hnone | ⟨b, hsome, hring, hhead, hroom⟩
  · exact .inl hnone
  · refine .inr ⟨b, ?_, hring, hhead, ?_⟩
    · have hlt := hring.ptr_lt (b := b) (by simp)
      have hspace := hring.sized.inSpace
      rw [ptr_push] at hlt
      rw [← alignAddress_one (Nat.lt_of_lt_of_le hlt hspace)]
      exact hsome
    · intro hbytes
      obtain ⟨hle, htight⟩ := hroom hbytes
      have hlt := htight Nat.one_pos
      exact ⟨hhead, by omega, by omega⟩

theorem alloc_accepts (h : a.Ring bs) {bytes size : Nat} (hsize : a.payloadWords bytes 1 = some size)
    (hpos : 0 < size) (hfree : a.freeIndex ≤ a.allocIndex)
    (hroom : a.allocIndex + size + 1 < a.words) : a.alloc bytes ≠ .ok (none, a) := by
  have hacc : a.Accepts size := by
    have hplace : place a.words a.allocIndex size = a.allocIndex + 1 := if_neg (by omega)
    unfold Accepts candidate
    simp only [hplace]
    omega
  have halloc : a.alloc bytes = a.allocWords size 1 := by
    unfold Allocator.alloc Allocator.allocAligned
    rw [hsize]
  rw [halloc, h.bounded.allocWords_eq 1 hpos (by omega), if_pos hacc]
  nofun

theorem free_at (h : a.Ring (b :: bs)) {p : Nat} (hlo : a.heapBase ≤ p)
    (hhi : p < a.heapBase + a.size) :
    a.free (some p) = .ok (if p = a.ptr b then (true, a.pop b) else (false, a)) := by
  have hfits := h.chain.fits (List.mem_cons_self (a := b))
  obtain ⟨hhead, hword⟩ := h.chain.head
  have hsize : Bytes.readWord a.heap a.freeIndex = b.size := by rw [← hhead, hword]
  have hstop := hfits.stop_le
  have hw := h.sized.words_le
  have hplace : a.suggestIndex a.freeIndex b.size = .ok b.payload := by
    rw [suggestIndex_eq h.sized h.free_lt hfits.size_pos (by omega), hfits.placed, hhead]
  have hsum : u32 (b.payload + b.size) = b.payload + b.size := u32_eq (by omega)
  simp only [free, hsize, hplace, assert_ok hlo, assert_ok hhi, validateIndex,
    assert_ok h.free_lt, bind, Except.bind]
  by_cases heq : p = a.ptr b
  · have hptr : ¬ p ≠ a.heapBase + 4 * b.payload := not_not_intro heq
    rw [if_pos heq, if_neg hptr, hsum]
    rfl
  · have hptr : p ≠ a.heapBase + 4 * b.payload := heq
    rw [if_neg heq, if_pos hptr]
    rfl

theorem free_ok (h : a.Ring (b :: bs)) {p : Nat} {done : Bool} {a' : Allocator}
    (hfree : a.free (some p) = .ok (done, a')) :
    p = a.ptr b ∧ done = true ∧ a' = a.pop b ∨ p ≠ a.ptr b ∧ done = false ∧ a' = a := by
  by_cases hlo : a.heapBase ≤ p
  · by_cases hhi : p < a.heapBase + a.size
    · rw [h.free_at hlo hhi] at hfree
      split_ifs at hfree with heq
      · obtain ⟨rfl, rfl⟩ := Prod.mk.inj (Except.ok.inj hfree)
        exact .inl ⟨heq, rfl, rfl⟩
      · obtain ⟨rfl, rfl⟩ := Prod.mk.inj (Except.ok.inj hfree)
        exact .inr ⟨heq, rfl, rfl⟩
    · simp [free, assert, hlo, hhi, bind, Except.bind] at hfree
  · simp [free, assert, hlo, bind, Except.bind] at hfree

theorem free_eq (h : a.Ring (b :: bs)) (hc : c ∈ b :: bs) :
    a.free (some (a.ptr c)) =
      .ok (if c.payload = b.payload then (true, a.pop b) else (false, a)) := by
  have hiff : a.ptr c = a.ptr b ↔ c.payload = b.payload := by
    simp only [ptr]
    omega
  have hlo : a.heapBase ≤ a.ptr c := Nat.le_add_right _ _
  rw [h.free_at hlo (h.ptr_lt hc)]
  simp only [hiff]

theorem free_head (h : a.Ring (b :: bs)) : a.free (some (a.ptr b)) = .ok (true, a.pop b) := by
  rw [h.free_eq List.mem_cons_self, if_pos rfl]

theorem free_tail (h : a.Ring (b :: bs)) (hc : c ∈ bs) :
    a.free (some (a.ptr c)) = .ok (false, a) := by
  have hmem : c ∈ b :: bs := List.mem_cons_of_mem b hc
  rw [h.free_eq hmem, if_neg]
  intro heq
  have hcb := h.payload_inj hmem List.mem_cons_self heq
  subst hcb
  exact (List.nodup_cons.mp h.nodup).1 hc

end Ring

structure Holds (a : Allocator) (b : Block) (data : List UInt8) : Prop where
  fits : data.length ≤ 4 * b.size
  load : a.load (a.ptr b) data.length = data

namespace Holds

variable {bs : List Block} {b c : Block} {data data' : List UInt8}

theorem read (h : a.Holds b data) : Bytes.read a.heap b.handle data.length = data := by
  rw [← load_ptr]
  exact h.load

theorem load_byte (h : a.Holds b data) {i : Nat} (hi : i < data.length) :
    a.load (a.ptr b + i) 1 = [data[i]] := by
  have hread := congrArg (·[i]?) h.read
  simp only [Bytes.getElem?_read hi, List.getElem?_eq_getElem hi, Option.some.injEq] at hread
  have hoffset : a.heapBase + 4 * b.payload + i - a.heapBase = b.handle + i := by
    rw [Block.handle]
    omega
  simp only [Allocator.load, ptr, hoffset, Bytes.read, List.range_one, List.map_singleton,
    Nat.add_zero, hread]

theorem push (h : a.Holds b data) (hr : a.Ring bs) (hb : b ∈ bs) (hc : c.header = a.allocIndex) :
    (a.push c).Holds b data := by
  refine ⟨h.fits, ?_⟩
  have hfits := h.fits
  have hout := hr.not_owns_alloc hb
  simp only [Block.Owns, not_or, not_and_or] at hout
  have hframe : Bytes.read (Bytes.writeWord a.heap c.header c.size) b.handle data.length =
      Bytes.read a.heap b.handle data.length := by
    apply Bytes.read_writeWord_disjoint
    rw [hc, Block.handle]
    omega
  rw [load_ptr]
  exact hframe.trans h.read

theorem pop (h : a.Holds b data) (c : Block) : (a.pop c).Holds b data := ⟨h.fits, h.load⟩

theorem store_self (a : Allocator) (hlen : data.length ≤ 4 * b.size) :
    (a.store (a.ptr b) data).Holds b data := by
  refine ⟨hlen, ?_⟩
  rw [load_ptr, store_ptr, Bytes.read_write]

theorem store_other (h : a.Holds b data) (hr : a.Ring bs) (hb : b ∈ bs) (hc : c ∈ bs)
    (hne : b ≠ c) (hlen : data'.length ≤ 4 * c.size) :
    (a.store (a.ptr c) data').Holds b data := by
  refine ⟨h.fits, ?_⟩
  have hfits := h.fits
  have hposb := (hr.chain.fits hb).size_pos
  have hposc := (hr.chain.fits hc).size_pos
  have hsep : b.payload + b.size ≤ c.payload ∨ c.payload + c.size ≤ b.payload := by
    by_contra hover
    by_cases hle : b.payload ≤ c.payload
    · exact hr.not_owns hb hc hne (.inr ⟨hle, by omega⟩) (.inr ⟨Nat.le_refl _, by omega⟩)
    · exact hr.not_owns hb hc hne (.inr ⟨Nat.le_refl _, by omega⟩) (.inr ⟨by omega, by omega⟩)
  rw [load_ptr, store_ptr, Bytes.read_write_disjoint, h.read]
  simp only [Block.handle]
  omega

end Holds

end Allocator

end Shadesmar.Memory
