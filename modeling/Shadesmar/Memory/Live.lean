import Shadesmar.Library.Machine
import Shadesmar.Memory.Ring

namespace Shadesmar.Memory

open Library Library.Cyclic

namespace Allocator

def blockAt (a : Allocator) (header : Nat) : Block :=
  let size := Bytes.readWord a.heap header
  ⟨header, place a.words header size, size⟩

def walk (a : Allocator) : Nat → Nat → List Block
  | 0, _ => []
  | fuel + 1, header =>
    if header = a.allocIndex then []
    else a.blockAt header :: a.walk fuel ((a.blockAt header).next a.words)

def liveBlocks (a : Allocator) : List Block := a.walk a.words a.freeIndex

theorem blockAt_head {a : Allocator} {i : Nat} {b : Block} {bs : List Block}
    (h : Chain a.words a.heap i (b :: bs) a.allocIndex) : a.blockAt i = b := by
  obtain ⟨rfl, hword⟩ := h.head
  simp only [blockAt, hword, ← (h.fits List.mem_cons_self).placed]

theorem walk_eq {a : Allocator} {i fuel : Nat} {bs : List Block}
    (h : Chain a.words a.heap i bs a.allocIndex) (hfuel : bs.length ≤ fuel) :
    a.walk fuel i = bs := by
  induction bs generalizing i fuel with
  | nil =>
    rw [h.eq_nil_iff.mpr rfl]
    cases fuel with
    | zero => rfl
    | succ fuel => simp [walk]
  | cons b bs ih =>
    obtain ⟨fuel, rfl⟩ := Nat.exists_eq_add_one_of_ne_zero (Nat.ne_zero_of_lt hfuel)
    rw [walk, if_neg h.ne, blockAt_head h, ih h.tail (Nat.le_of_succ_le_succ hfuel)]

theorem Ring.liveBlocks {a : Allocator} {bs : List Block} (h : a.Ring bs) :
    a.liveBlocks = bs := by
  apply walk_eq h.chain
  have hlen := h.chain.length_le
  have hlt := steps_lt h.free_lt h.alloc_lt
  omega

end Allocator

/-- `held` are the pointers returned by `alloc` and not yet released by `free`, in
the order in which they were returned. -/
structure Session where
  allocator : Allocator
  held : List Nat

inductive Call
  | alloc (bytes : Nat)
  | free (ptr : Option Nat)
  deriving DecidableEq

namespace Session

def new (heapBase size : Nat) : Session := ⟨.new heapBase size, []⟩

/-- A call of a caller that passes a `uint32_t` size, and that frees only `nullptr`
and pointers it holds.  `none` stands for any other call and for an abort. -/
def step (s : Session) : Call → Option Session
  | .alloc bytes =>
    if bytes < 2 ^ 32 then
      match s.allocator.alloc bytes with
      | .ok (some p, a) => some ⟨a, s.held ++ [p]⟩
      | .ok (none, a) => some ⟨a, s.held⟩
      | .error _ => none
    else none
  | .free none =>
    match s.allocator.free none with
    | .ok (_, a) => some ⟨a, s.held⟩
    | .error _ => none
  | .free (some p) =>
    if p ∈ s.held then
      match s.allocator.free (some p) with
      | .ok (true, a) => some ⟨a, s.held.erase p⟩
      | .ok (false, a) => some ⟨a, s.held⟩
      | .error _ => none
    else none

def Legal (s : Session) : Call → Prop
  | .alloc bytes => bytes < 2 ^ 32
  | .free none => True
  | .free (some p) => p ∈ s.held

def Sound (s : Session) : Prop :=
  ∃ bs, s.allocator.Ring bs ∧ s.held = bs.map s.allocator.ptr

theorem sound_new {heapBase size : Nat} (h : (Allocator.new heapBase size).Sized) :
    (new heapBase size).Sound := ⟨[], Allocator.ring_new h, rfl⟩

theorem Sound.step_cases {s : Session} (h : s.Sound) {c : Call} (hc : s.Legal c) :
    s.step c = some s ∨
    (∃ bytes b, c = .alloc bytes ∧ s.step c = some ⟨s.allocator.push b, s.held ++ [s.allocator.ptr b]⟩ ∧
      ∃ bs, s.held = bs.map s.allocator.ptr ∧ (s.allocator.push b).Ring (bs ++ [b])) ∨
    (∃ b bs, c = .free (some (s.allocator.ptr b)) ∧ s.allocator.Ring (b :: bs) ∧
      s.held = (b :: bs).map s.allocator.ptr ∧
      s.step c = some ⟨s.allocator.pop b, bs.map s.allocator.ptr⟩) := by
  obtain ⟨bs, hring, hheld⟩ := h
  cases c with
  | alloc bytes =>
    simp only [step, if_pos (show bytes < 2 ^ 32 from hc)]
    rcases hring.alloc bytes with hnone | ⟨b, hsome, hring', -⟩
    · rw [hnone]
      exact .inl rfl
    · rw [hsome]
      exact .inr (.inl ⟨bytes, b, rfl, rfl, bs, hheld, hring'⟩)
  | free ptr =>
    cases ptr with
    | none => exact .inl rfl
    | some p =>
      have hp : p ∈ s.held := hc
      obtain ⟨c, hmem, rfl⟩ := List.mem_map.mp (hheld ▸ hp)
      simp only [step, if_pos hp]
      cases bs with
      | nil => simp at hmem
      | cons b bs =>
        by_cases hcb : c = b
        · subst hcb
          rw [hring.free_head]
          refine .inr (.inr ⟨c, bs, rfl, hring, hheld, ?_⟩)
          simp [hheld]
        · have htail : c ∈ bs := (List.mem_cons.mp hmem).resolve_left hcb
          rw [hring.free_tail htail]
          exact .inl rfl

theorem legal_of_step {s s' : Session} {c : Call} (h : s.step c = some s') : s.Legal c := by
  cases c with
  | alloc bytes =>
    by_contra hb
    simp only [step, if_neg (show ¬ bytes < 2 ^ 32 from hb)] at h
    cases h
  | free ptr =>
    cases ptr with
    | none => trivial
    | some p =>
      by_contra hp
      simp [step, show p ∉ s.held from hp] at h

theorem Sound.step {s s' : Session} {c : Call} (h : s.Sound) (hs : s.step c = some s') :
    s'.Sound := by
  rcases h.step_cases (legal_of_step hs) with hsame | ⟨bytes, b, -, hnew, bs, hheld, hring⟩ |
      ⟨b, bs, -, hring, hheld, hnew⟩
  · rw [hsame] at hs
    exact Option.some.inj hs ▸ h
  · rw [hnew] at hs
    obtain rfl := Option.some.inj hs
    exact ⟨bs ++ [b], hring, by simp [hheld]⟩
  · rw [hnew] at hs
    obtain rfl := Option.some.inj hs
    exact ⟨bs, hring.pop, rfl⟩

/-- The reading of the allocator's state that callers rely on. -/
structure RingInvariant (s : Session) : Prop where
  held_eq : s.held = s.allocator.liveBlocks.map s.allocator.ptr
  chain : Chain s.allocator.words s.allocator.heap s.allocator.freeIndex s.allocator.liveBlocks
    s.allocator.allocIndex
  placed : ∀ b ∈ s.allocator.liveBlocks,
    s.allocator.suggestIndex b.header b.size = .ok b.payload
  inside : ∀ b ∈ s.allocator.liveBlocks, ∀ x, b.Owns x → x < s.allocator.words
  header_out : ∀ b ∈ s.allocator.liveBlocks,
    b.header < b.payload ∨ b.payload + b.size ≤ b.header
  disjoint : s.allocator.liveBlocks.Pairwise fun b c => ∀ x, b.Owns x → ¬ c.Owns x
  alloc_lt : s.allocator.allocIndex < s.allocator.words
  alloc_unowned : ∀ b ∈ s.allocator.liveBlocks, ¬ b.Owns s.allocator.allocIndex
  empty_iff : s.allocator.allocIndex = s.allocator.freeIndex ↔ s.allocator.liveBlocks = []
  freeMemory : s.allocator.getFreeMemory = 4 * ((Finset.range s.allocator.words).filter fun x =>
    ¬ Arc s.allocator.words s.allocator.freeIndex s.allocator.allocIndex x).card
  free_oldest : ∀ b bs, s.allocator.liveBlocks = b :: bs →
    s.allocator.free (some (s.allocator.ptr b)) = .ok (true, s.allocator.pop b) ∧
    (s.allocator.pop b).liveBlocks = bs
  free_other : ∀ b bs c, s.allocator.liveBlocks = b :: bs → c ∈ bs →
    s.allocator.free (some (s.allocator.ptr c)) = .ok (false, s.allocator)
  alloc_refused : ∀ bytes a, s.allocator.alloc bytes = .ok (none, a) → a = s.allocator
  no_abort : ∀ c, s.Legal c → (s.step c).isSome

theorem Sound.ringInvariant {s : Session} (h : s.Sound) : s.RingInvariant := by
  have hsound := h
  obtain ⟨bs, hring, hheld⟩ := h
  have hlive := hring.liveBlocks
  have hfits : ∀ b ∈ bs, b.Fits s.allocator.words := fun b hb => hring.chain.fits hb
  constructor
  case held_eq => rw [hlive, hheld]
  case chain => rw [hlive]; exact hring.chain
  case placed =>
    rw [hlive]
    intro b hb
    have hstop := (hfits b hb).stop_le
    rw [Allocator.suggestIndex_eq hring.sized (hfits b hb).header_lt (hfits b hb).size_pos
      (by omega), (hfits b hb).placed]
  case inside =>
    rw [hlive]
    intro b hb x hx
    exact ((hfits b hb).owns_arc hx).1
  case header_out =>
    rw [hlive]
    exact fun b hb => (hfits b hb).header_not_payload
  case disjoint => rw [hlive]; exact hring.disjoint
  case alloc_lt => exact hring.alloc_lt
  case alloc_unowned => rw [hlive]; exact fun b hb => hring.not_owns_alloc hb
  case empty_iff => rw [hlive, eq_comm]; exact hring.chain.eq_nil_iff
  case freeMemory =>
    rw [card_not_arc hring.free_lt hring.alloc_lt]
    have hf := hring.free_lt
    have ha := hring.alloc_lt
    unfold Allocator.getFreeMemory steps
    dsimp only
    split_ifs <;> omega
  case free_oldest =>
    intro b rest heq
    rw [hlive] at heq
    subst heq
    exact ⟨hring.free_head, hring.pop.liveBlocks⟩
  case free_other =>
    intro b rest c heq hc
    rw [hlive] at heq
    subst heq
    exact hring.free_tail hc
  case alloc_refused =>
    intro bytes a ha
    rcases hring.alloc bytes with hnone | ⟨b, hsome, -⟩
    · rw [hnone] at ha
      cases ha
      rfl
    · rw [hsome] at ha
      cases ha
  case no_abort =>
    intro c hc
    rcases hsound.step_cases hc with h | ⟨_, _, _, h, _⟩ | ⟨_, _, _, _, _, h⟩ <;> simp [h]

/-- The representation invariant holds after every history of the allocator. -/
theorem ring_invariant {heapBase size : Nat} (hdvd : 4 ∣ size) (hle : 8 ≤ size)
    (hlim : size ≤ 2 ^ 32) (hspace : heapBase + size ≤ 2 ^ 64) {calls : List Call} {s : Session}
    (h : Machine.run step (new heapBase size) calls = some s) : s.RingInvariant := by
  have hnew : (new heapBase size).Sound := sound_new ⟨hdvd, hle, hlim, hspace⟩
  have hsound := (Machine.Run.of_run h).invariant Sound hnew fun _ _ _ ht _ hs => ht.step hs
  exact hsound.ringInvariant

theorem ring_invariant_wrap : ∃ s, Machine.run step (new 4096 100)
    [.alloc 50, .alloc 32, .free (some 4100), .alloc 40] = some s ∧ s.RingInvariant := by
  obtain ⟨s, hs⟩ := Option.isSome_iff_exists.mp (show (Machine.run step (new 4096 100)
    [.alloc 50, .alloc 32, .free (some 4100), .alloc 40]).isSome by decide +kernel)
  exact ⟨s, hs, ring_invariant (by decide) (by decide) (by decide) (by decide) hs⟩

end Session

end Shadesmar.Memory
