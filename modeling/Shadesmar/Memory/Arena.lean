import Shadesmar.Library.Refinement
import Shadesmar.Memory.Operations
import Shadesmar.Memory.Room
import Shadesmar.Memory.History

/-! What the allocator is for: a queue of blocks on a circle of words.  An `Arena` knows where
its first block starts and how large its blocks are, and has no memory; everything else that
the allocator keeps in its heap and its indices follows from that.  No sequence of calls tells
the two apart. -/

namespace Shadesmar.Memory

open Library Library.Cyclic Library.Refinement

/-- The words taken up at index `i` by a block with `n` words of payload: its header and, where
the payload would reach over the end of the heap, the words that are left out there. -/
def cost (N i n : Nat) : Nat := if i + n < N then n + 1 else N - i + n

def advance (N i n : Nat) : Nat := (i + cost N i n) % N

def occupied (N : Nat) : Nat → List Nat → Nat
  | _, [] => 0
  | i, n :: ns => cost N i n + occupied N (advance N i n) ns

def layout (N : Nat) : Nat → List Nat → List Block
  | _, [] => []
  | i, n :: ns => ⟨i, place N i n, n⟩ :: layout N (advance N i n) ns

theorem Block.Fits.next_eq {N : Nat} {b : Block} (h : b.Fits N) :
    b.next N = advance N b.header b.size := by
  obtain ⟨hlt, hpos, hplaced, hstop, hclear, -⟩ := h
  have hplace := place_cases N b.header b.size
  unfold Block.next advance cost
  rw [hplaced] at hstop hclear ⊢
  rcases hplace with ⟨hzero, hfar⟩ | ⟨hnext, hnear⟩
  · have hclear := hclear hzero
    have hne : b.size ≠ N := by omega
    rw [hzero, Nat.zero_add, if_neg hne, if_neg (by omega)]
    have hsum : b.header + (N - b.header + b.size) = b.size + N := by omega
    rw [hsum, Nat.add_mod_right, Nat.mod_eq_of_lt (by omega)]
  · have hsum : b.header + (b.size + 1) = b.header + 1 + b.size := by omega
    rw [hnext, if_pos hnear, hsum]
    by_cases hend : b.header + 1 + b.size = N
    · rw [if_pos hend, hend, Nat.mod_self]
    · rw [if_neg hend, Nat.mod_eq_of_lt (by omega)]

theorem Block.Fits.steps_next {N : Nat} {b : Block} (h : b.Fits N) :
    steps N b.header (b.next N) = cost N b.header b.size := by
  obtain ⟨hlt, hpos, hplaced, hstop, hclear, hne⟩ := h
  unfold Block.next at *
  unfold steps cost
  unfold place at hplaced
  split_ifs at * <;> omega

theorem Chain.layout_eq {N i j : Nat} {m : Bytes.Mem} {bs : List Block} (h : Chain N m i bs j) :
    layout N i (bs.map Block.size) = bs ∧ occupied N i (bs.map Block.size) = steps N i j := by
  induction h with
  | nil => simp [layout, occupied]
  | @cons b bs j hfits _ hbet _ ih =>
    obtain ⟨hlayout, hoccupied⟩ := ih
    have hplaced := hfits.placed
    rw [List.map_cons, layout, occupied, ← hfits.next_eq, hlayout, hoccupied, hbet.length_add,
      hfits.steps_next, ← hplaced]
    exact ⟨rfl, rfl⟩

structure Arena where
  base : Nat
  words : Nat
  first : Nat
  sizes : List Nat

namespace Arena

def new (base words : Nat) : Arena := ⟨base, words, 0, []⟩

def blocks (a : Arena) : List Block := layout a.words a.first a.sizes

def used (a : Arena) : Nat := occupied a.words a.first a.sizes

def stop (a : Arena) : Nat := (a.first + a.used) % a.words

def address (a : Arena) (b : Block) : Nat := a.base + 4 * b.payload

def grant (a : Arena) (n : Nat) : Option Block :=
  if a.used + cost a.words a.stop n < a.words then some ⟨a.stop, place a.words a.stop n, n⟩
  else none

def request (a : Arena) (bytes alignment : Nat) : Option Nat :=
  if 4 * a.words ≤ Allocator.requestBytes bytes alignment + 8 then none
  else some ((Allocator.requestBytes bytes alignment + 3) / 4)

def free (a : Arena) : Nat := 4 * (a.words - a.used)

def room (a : Arena) (size : Nat) : Option Block :=
  if 4 * a.words ≤ size + 9 then none else a.grant (size / 4 + 1)

def push (a : Arena) (b : Block) : Arena := { a with sizes := a.sizes ++ [b.size] }

def pop (a : Arena) (b : Block) : Arena :=
  { a with first := advance a.words a.first b.size, sizes := a.sizes.tail }

def popFirst (a : Arena) : Arena :=
  match a.blocks with
  | [] => a
  | b :: _ => a.pop b

def reset (a : Arena) : Arena := { a with first := 0, sizes := [] }

def call (a : Arena) : History.Call → Option (History.Result × Arena)
  | .alloc bytes alignment =>
    if bytes < 2 ^ 32 ∧ IsAlignment alignment then
      match (a.request bytes alignment).bind a.grant with
      | none => some (.address none, a)
      | some b => some (.address (some (alignAddress (a.address b) alignment)), a.push b)
    else none
  | .free none => some (.freed true, a)
  | .free (some p) =>
    match a.blocks with
    | [] => none
    | b :: _ =>
      if a.base ≤ p ∧ p < a.base + 4 * a.words then
        if p = a.address b then some (.freed true, a.pop b) else some (.freed false, a)
      else none
  | .store b data => if b ∈ a.blocks ∧ data.length ≤ 4 * b.size then some (.unit, a) else none
  | .reset => some (.unit, a.reset)

end Arena

namespace Allocator

variable {a : Allocator} {bs : List Block} {size : Nat}

theorem accepts_iff (hf : a.freeIndex < a.words) (ha : a.allocIndex < a.words) (hpos : 0 < size)
    (hle : size + 2 ≤ a.words) : a.Accepts size ↔
      steps a.words a.freeIndex a.allocIndex + cost a.words a.allocIndex size < a.words := by
  have hplace := place_cases a.words a.allocIndex size
  unfold Accepts candidate steps cost
  dsimp only
  generalize place a.words a.allocIndex size = p at *
  split_ifs <;> omega

theorem free_outside {p : Nat} (h : ¬ (a.heapBase ≤ p ∧ p < a.heapBase + a.size)) :
    a.free (some p) = .error .assertion := by
  by_cases hlo : a.heapBase ≤ p
  · have hhi : ¬ p < a.heapBase + a.size := fun hhi => h ⟨hlo, hhi⟩
    simp [free, assert, hlo, hhi, bind, Except.bind]
  · simp [free, assert, hlo, bind, Except.bind]

end Allocator

structure Arena.Outlines (r : Arena) (a : Allocator) (bs : List Block) : Prop where
  ring : a.Ring bs
  base : r.base = a.heapBase
  words : r.words = a.words
  first : r.first = a.freeIndex
  sizes : r.sizes = bs.map Block.size

namespace Arena.Outlines

variable {r : Arena} {a : Allocator} {b : Block} {bs : List Block} {bytes alignment n : Nat}

theorem blocks (h : r.Outlines a bs) : r.blocks = bs := by
  unfold Arena.blocks
  rw [h.words, h.first, h.sizes]
  exact h.ring.chain.layout_eq.1

theorem used (h : r.Outlines a bs) : r.used = steps a.words a.freeIndex a.allocIndex := by
  unfold Arena.used
  rw [h.words, h.first, h.sizes]
  exact h.ring.chain.layout_eq.2

theorem stop (h : r.Outlines a bs) : r.stop = a.allocIndex := by
  have hf := h.ring.free_lt
  have ha := h.ring.alloc_lt
  unfold Arena.stop
  rw [h.used, h.words, h.first]
  unfold steps
  split_ifs with hle
  · rw [Nat.add_sub_cancel' hle, Nat.mod_eq_of_lt ha]
  · have hsum : a.freeIndex + (a.words - a.freeIndex + a.allocIndex) = a.allocIndex + a.words := by
      omega
    rw [hsum, Nat.add_mod_right, Nat.mod_eq_of_lt ha]

theorem address (h : r.Outlines a bs) (b : Block) : r.address b = a.ptr b := by
  unfold Arena.address Allocator.ptr
  rw [h.base]

theorem grant (h : r.Outlines a bs) (hpos : 0 < n) (hle : n + 2 ≤ a.words) :
    r.grant n = if a.Accepts n then some (a.candidate n) else none := by
  unfold Arena.grant
  rw [h.used, h.stop, h.words]
  simp only [Allocator.accepts_iff h.ring.free_lt h.ring.alloc_lt hpos hle]
  rfl

theorem request (h : r.Outlines a bs) (hsum : bytes + alignment < 2 ^ 64) :
    r.request bytes alignment = a.payloadWords bytes alignment := by
  unfold Arena.request
  rw [Allocator.payloadWords_eq h.ring.sized hsum, h.words, h.ring.sized.words_mul]

theorem allocAligned (h : r.Outlines a bs) (hsum : bytes + alignment < 2 ^ 64) :
    (r.request bytes alignment).bind r.grant = none ∧
        a.allocAligned bytes alignment = .ok (none, a) ∨
      ∃ b, (r.request bytes alignment).bind r.grant = some b ∧
        a.allocAligned bytes alignment =
          .ok (some (alignAddress (r.address b) alignment), a.push b) ∧
        b.header = a.allocIndex ∧ (a.push b).Ring (bs ++ [b]) := by
  rw [h.request hsum]
  rcases Allocator.payloadWords_spec h.ring.sized bytes alignment with
    hnone | ⟨n, hsome, hpos, hle, -⟩
  · refine .inl ⟨by rw [hnone]; rfl, ?_⟩
    unfold Allocator.allocAligned
    rw [hnone]
  · have hcall : a.allocAligned bytes alignment = a.allocWords n alignment := by
      unfold Allocator.allocAligned
      rw [hsome]
    rw [hcall, h.ring.bounded.allocWords_eq alignment hpos hle, hsome, Option.bind_some,
      h.grant hpos hle]
    by_cases hacc : a.Accepts n
    · rw [if_pos hacc, if_pos hacc]
      refine .inr ⟨_, rfl, ?_, rfl, h.ring.push hacc hpos hle⟩
      rw [h.address]
    · rw [if_neg hacc, if_neg hacc]
      exact .inl ⟨rfl, rfl⟩

theorem free (h : r.Outlines a bs) : r.free = a.getFreeMemory := by
  rw [Allocator.getFreeMemory_eq h.ring.free_lt h.ring.alloc_lt, Arena.free, h.words, h.used]

theorem room_eq (h : r.Outlines a bs) (size : Nat) : r.room size =
    if size ≤ a.getFreeMemory ∧ size + 9 < a.size ∧ a.Accepts (size / 4 + 1) then
      some (a.candidate (size / 4 + 1))
    else none := by
  have hw := h.ring.sized.words_mul
  unfold Arena.room
  rw [h.words, hw]
  by_cases hlimit : a.size ≤ size + 9
  · rw [if_pos hlimit, if_neg]
    rintro ⟨-, hlt, -⟩
    omega
  · rw [if_neg hlimit, h.grant (Nat.succ_pos _) (show size / 4 + 1 + 2 ≤ a.words by omega)]
    by_cases hacc : a.Accepts (size / 4 + 1)
    · have hfree : size ≤ a.getFreeMemory := by
        by_contra hfull
        exact h.ring.bounded.not_accepts (by omega) hacc
      rw [if_pos hacc, if_pos ⟨hfree, by omega, hacc⟩]
    · rw [if_neg hacc, if_neg fun hall => hacc hall.2.2]

theorem room_full (h : r.Outlines a bs) {size : Nat} (hfull : a.getFreeMemory < size) :
    r.room size = none := by
  rw [h.room_eq]
  exact if_neg fun hall => Nat.not_le_of_lt hfull hall.1

theorem alloc (h : r.Outlines a bs) (hsmall : a.size + 1 < 2 ^ 32) {size : Nat}
    (hsize : size ≤ a.getFreeMemory) :
    r.room size = none ∧ a.alloc (u32 size) = .ok (none, a) ∨
    ∃ b, r.room size = some b ∧ a.alloc (u32 size) = .ok (some (a.ptr b), a.push b) ∧
      (a.push b).Ring (bs ++ [b]) ∧ b.header = a.allocIndex ∧ size < 4 * b.size := by
  have hle := h.ring.getFreeMemory_le
  have hiff := h.ring.alloc_iff (show size + 1 < 2 ^ 32 by omega)
  rw [u32_eq (by omega), h.room_eq]
  rcases h.ring.alloc size with hnone | ⟨b, hsome, hring, hhead, hlays⟩
  · refine .inl ⟨if_neg fun hall => hiff.mpr hall.2 hnone, hnone⟩
  · have hlays := hlays (by omega)
    have hfits := hring.chain.fits (List.mem_append_right bs (List.mem_singleton_self b))
    have haccepts := hiff.mp (by rw [hsome]; nofun)
    refine .inr ⟨b, ?_, hsome, hring, hhead, hlays.room⟩
    rw [if_pos ⟨hsize, haccepts⟩, ← hlays.eq_candidate hfits]

theorem new {heapBase size : Nat} (h : (Allocator.new heapBase size).Sized) :
    (Arena.new heapBase (size / 4)).Outlines (.new heapBase size) [] :=
  ⟨Allocator.ring_new h, rfl, rfl, rfl, rfl⟩

theorem push (h : r.Outlines a bs) (hring : (a.push b).Ring (bs ++ [b])) :
    (r.push b).Outlines (a.push b) (bs ++ [b]) :=
  ⟨hring, h.base, h.words, h.first, by simp [Arena.push, h.sizes]⟩

theorem pop (h : r.Outlines a (b :: bs)) : (r.pop b).Outlines (a.pop b) bs := by
  have hfits := h.ring.chain.fits (List.mem_cons_self (a := b))
  refine ⟨h.ring.pop, h.base, h.words, ?_, by simp [Arena.pop, h.sizes]⟩
  change advance r.words r.first b.size = b.next a.words
  rw [hfits.next_eq, h.words, h.first, h.ring.chain.head.1]

theorem popFirst (h : r.Outlines a (b :: bs)) : r.popFirst.Outlines (a.pop b) bs := by
  rw [Arena.popFirst, h.blocks]
  exact h.pop

theorem of_ring {a' : Allocator} (h : r.Outlines a bs) (h' : a'.Ring bs) (hne : bs ≠ [])
    (hbase : a'.heapBase = a.heapBase) (hsize : a'.size = a.size) : r.Outlines a' bs := by
  obtain ⟨b, bs, rfl⟩ := List.exists_cons_of_ne_nil hne
  refine ⟨h', ?_, ?_, ?_, h.sizes⟩
  · rw [h.base, hbase]
  · rw [h.words, Allocator.words, Allocator.words, hsize]
  · rw [h.first, ← h.ring.chain.head.1, h'.chain.head.1]

theorem store (h : r.Outlines a bs) {data : List UInt8} (hb : b ∈ bs)
    (hlen : data.length ≤ 4 * b.size) : r.Outlines (a.store (a.ptr b) data) bs :=
  ⟨h.ring.store hb hlen, h.base, h.words, h.first, h.sizes⟩

theorem reset (h : r.Outlines a bs) : r.reset.Outlines a.reset [] :=
  ⟨h.ring.reset, h.base, h.words, rfl, rfl⟩

end Arena.Outlines

def Represents (s : History) (r : Arena) : Prop :=
  r.Outlines s.allocator (s.grants.map Grant.block)

theorem represents_new {heapBase size : Nat} (h : (Allocator.new heapBase size).Sized) :
    Represents (.new heapBase size) (.new heapBase (size / 4)) := Arena.Outlines.new h

theorem Represents.push {s : History} {r : Arena} {g : Grant} (h : Represents s r)
    (hring : (s.allocator.push g.block).Ring (s.grants.map Grant.block ++ [g.block])) :
    Represents ⟨s.allocator.push g.block, s.grants ++ [g]⟩ (r.push g.block) := by
  unfold Represents
  rw [List.map_append]
  exact Arena.Outlines.push h hring

theorem Represents.pop {s : History} {r : Arena} {g : Grant} {gs : List Grant}
    (h : Represents s r) (hs : s.grants = g :: gs) :
    Represents ⟨s.allocator.pop g.block, gs⟩ (r.pop g.block) := by
  unfold Represents at h
  rw [hs] at h
  exact Arena.Outlines.pop h

theorem matches_arena : Matches Represents History.call Arena.call := by
  intro s a hsa c
  have h : a.Outlines s.allocator (s.grants.map Grant.block) := hsa
  cases c with
  | alloc bytes alignment =>
    rw [History.call, Arena.call]
    by_cases hlegal : bytes < 2 ^ 32 ∧ IsAlignment alignment
    · rw [if_pos hlegal, if_pos hlegal]
      obtain ⟨k, hk, rfl⟩ := hlegal.2
      have hsum : bytes + 2 ^ k < 2 ^ 64 := by
        have hpow : 2 ^ k ≤ 2 ^ 63 := Nat.pow_le_pow_right (by decide) (by omega)
        omega
      rcases h.allocAligned hsum with ⟨hnone, hcall⟩ | ⟨b, hsome, hcall, hhead, hring⟩
      · rw [hnone, hcall]
        exact .some ⟨rfl, hsa⟩
      · have hb := Allocator.blockAt_push hring
        rw [hhead] at hb
        rw [hsome, hcall]
        dsimp only
        rw [hb]
        exact .some ⟨rfl, hsa.push (g := ⟨bytes, 2 ^ k, _, b⟩) hring⟩
    · rw [if_neg hlegal, if_neg hlegal]
      exact .none
  | free p =>
    cases p with
    | none => exact .some ⟨rfl, hsa⟩
    | some p =>
      have hblocks := h.blocks
      rw [History.call, Arena.call]
      cases hs : s.grants with
      | nil =>
        rw [hs, List.map_nil] at hblocks
        rw [hblocks]
        exact .none
      | cons g gs =>
        have hring := h.ring
        rw [hs, List.map_cons] at hblocks hring
        have hend : a.base + 4 * a.words = s.allocator.heapBase + s.allocator.size := by
          rw [h.base, h.words, hring.sized.words_mul]
        rw [hblocks, if_neg (List.cons_ne_nil g gs), hend, ← hs]
        dsimp only
        by_cases hin : a.base ≤ p ∧ p < s.allocator.heapBase + s.allocator.size
        · rw [if_pos hin, hring.free_at (h.base ▸ hin.1) hin.2]
          by_cases hp : p = s.allocator.ptr g.block
          · rw [if_pos hp, if_pos (hp.trans (h.address g.block).symm)]
            refine .some ⟨rfl, ?_⟩
            rw [hs]
            exact hsa.pop hs
          · rw [if_neg hp, if_neg fun heq => hp (heq.trans (h.address g.block))]
            exact .some ⟨rfl, hsa⟩
        · rw [if_neg hin, Allocator.free_outside (h.base ▸ hin)]
          exact .none
  | store b data =>
    rw [History.call, Arena.call, h.blocks]
    by_cases hlegal : b ∈ s.grants.map Grant.block ∧ data.length ≤ 4 * b.size
    · rw [if_pos hlegal, if_pos hlegal]
      exact .some ⟨rfl, h.store hlegal.1 hlegal.2⟩
    · rw [if_neg hlegal, if_neg hlegal]
      exact .none
  | reset => exact .some ⟨rfl, h.reset⟩

def History.Call.blank : History.Call → History.Call
  | .store b data => .store b (List.replicate data.length 0)
  | c => c

theorem Arena.call_blank (a : Arena) (c : History.Call) : a.call c.blank = a.call c := by
  cases c with
  | store b data => simp only [History.Call.blank, Arena.call, List.length_replicate]
  | alloc bytes alignment => rfl
  | free p => rfl
  | reset => rfl

theorem Arena.call_fixed {a a' : Arena} {c : History.Call} {r : History.Result}
    (h : a.call c = some (r, a')) : a'.base = a.base ∧ a'.words = a.words := by
  cases c with
  | alloc bytes alignment =>
    rw [Arena.call] at h
    split_ifs at h
    split at h
    all_goals
      obtain ⟨-, rfl⟩ := Prod.mk.inj (Option.some.inj h)
      exact ⟨rfl, rfl⟩
  | free p =>
    cases p with
    | none =>
      obtain ⟨-, rfl⟩ := Prod.mk.inj (Option.some.inj h)
      exact ⟨rfl, rfl⟩
    | some p =>
      rw [Arena.call] at h
      split at h
      · cases h
      · split_ifs at h
        all_goals
          obtain ⟨-, rfl⟩ := Prod.mk.inj (Option.some.inj h)
          exact ⟨rfl, rfl⟩
  | store b data =>
    rw [Arena.call] at h
    split_ifs at h
    obtain ⟨-, rfl⟩ := Prod.mk.inj (Option.some.inj h)
    exact ⟨rfl, rfl⟩
  | reset =>
    obtain ⟨-, rfl⟩ := Prod.mk.inj (Option.some.inj h)
    exact ⟨rfl, rfl⟩

section Runs

variable {heapBase size : Nat}

/-- The allocator is a queue of blocks: every call returns what it returns on the arena. -/
theorem outputs_eq_arena (hdvd : 4 ∣ size) (hle : 8 ≤ size) (hlim : size ≤ 2 ^ 32)
    (hspace : heapBase + size ≤ 2 ^ 64) (calls : List History.Call) :
    outputs History.call (.new heapBase size) calls =
      outputs Arena.call (.new heapBase (size / 4)) calls :=
  matches_arena.outputs (represents_new ⟨hdvd, hle, hlim, hspace⟩) calls

def wrapping : List History.Call :=
  [.alloc 19 1, .alloc 19 1, .alloc 7 1, .free (some 4100), .alloc 7 1, .free (some 4096),
    .free (some 4124)]

theorem outputs_eq_arena_wrapping :
    outputs Arena.call (.new 4096 16) wrapping =
      some [.address (some 4100), .address (some 4124), .address (some 4148), .freed true,
        .address (some 4096), .freed false, .freed true] ∧
    outputs History.call (.new 4096 64) wrapping = outputs Arena.call (.new 4096 16) wrapping :=
  ⟨by decide +kernel,
    outputs_eq_arena (by decide) (by decide) (by decide) (by decide) wrapping⟩

/-- What the callers store in their blocks shows in no result of the allocator, though the
headers lie between the payloads. -/
theorem outputs_blank (hdvd : 4 ∣ size) (hle : 8 ≤ size) (hlim : size ≤ 2 ^ 32)
    (hspace : heapBase + size ≤ 2 ^ 64) (calls : List History.Call) :
    outputs History.call (.new heapBase size) (calls.map History.Call.blank) =
      outputs History.call (.new heapBase size) calls := by
  have hnew : Represents (.new heapBase size) (.new heapBase (size / 4)) :=
    represents_new ⟨hdvd, hle, hlim, hspace⟩
  rw [matches_arena.outputs hnew, matches_arena.outputs hnew, outputs, outputs,
    exec_map Arena.call_blank]

theorem outputs_blank_store :
    outputs History.call (.new 4096 64)
        ([.alloc 3 1, .store ⟨0, 1, 1⟩ [1, 0, 0, 0], .free (some 4100)].map History.Call.blank) =
      outputs History.call (.new 4096 64)
        [.alloc 3 1, .store ⟨0, 1, 1⟩ [1, 0, 0, 0], .free (some 4100)] :=
  outputs_blank (by decide) (by decide) (by decide) (by decide) _

/-- After `reset` the calls return what they return on a new allocator, whatever is left in
the heap. -/
theorem outputs_after_reset (hdvd : 4 ∣ size) (hle : 8 ≤ size) (hlim : size ≤ 2 ^ 32)
    (hspace : heapBase + size ≤ 2 ^ 64) {calls : List History.Call}
    {results : List History.Result} {s : History}
    (hrun : exec History.call (.new heapBase size) calls = some (results, s))
    (later : List History.Call) :
    outputs History.call (.new heapBase size) (calls ++ .reset :: later) =
      (outputs History.call (.new heapBase size) later).map (results ++ .unit :: ·) := by
  have hnew : Represents (.new heapBase size) (.new heapBase (size / 4)) :=
    represents_new ⟨hdvd, hle, hlim, hspace⟩
  obtain ⟨a, ha, hsa⟩ := matches_arena.exec_eq_some hnew hrun
  obtain ⟨hbase, hwords⟩ := exec_invariant
    (fun a => a.base = heapBase ∧ a.words = size / 4)
    (fun a c r a' h hc => ⟨(Arena.call_fixed hc).1.trans h.1, (Arena.call_fixed hc).2.trans h.2⟩)
    ha ⟨rfl, rfl⟩
  have hreset : Represents ⟨s.allocator.reset, []⟩ a.reset := Arena.Outlines.reset hsa
  have hfresh : a.reset = .new heapBase (size / 4) := by
    rw [Arena.reset, Arena.new, hbase, hwords]
  rw [hfresh] at hreset
  have hlater := matches_arena.outputs_eq hreset hnew later
  unfold outputs at hlater ⊢
  rw [exec_append, hrun, Option.bind_some, exec]
  change ((((exec History.call ⟨s.allocator.reset, []⟩ later).map _).map _).map Prod.fst) = _
  rw [Option.map_map, Option.map_map, ← hlater, Option.map_map]
  rfl

theorem outputs_after_reset_wrapping :
    outputs History.call (.new 4096 64) (wrapping ++ .reset :: [.alloc 40 8]) =
      some [.address (some 4100), .address (some 4124), .address (some 4148), .freed true,
        .address (some 4096), .freed false, .freed true, .unit, .address (some 4104)] := by
  have hpast : outputs History.call (.new 4096 64) wrapping =
      some [.address (some 4100), .address (some 4124), .address (some 4148), .freed true,
        .address (some 4096), .freed false, .freed true] := by decide +kernel
  have hlater : outputs History.call (.new 4096 64) [.alloc 40 8] =
      some [.address (some 4104)] := by decide +kernel
  obtain ⟨⟨results, s⟩, hs, rfl⟩ := Option.map_eq_some_iff.mp hpast
  rw [outputs_after_reset (by decide) (by decide) (by decide) (by decide) hs, hlater]
  rfl

end Runs

end Shadesmar.Memory
