import Shadesmar.Memory.Live

/-! Histories that use every call of the allocator: allocation with any alignment, `free`
of any pointer while some block is live, stores into live payloads, and `reset`.  What
`free` does when no block is live is left to another module. -/

namespace Shadesmar.Memory

open Library

namespace Allocator

variable {a : Allocator} {b : Block} {bs : List Block}

theorem blockAt_push (h : (a.push b).Ring (bs ++ [b])) : (a.push b).blockAt b.header = b := by
  have hfits := h.chain.fits (b := b) (by simp)
  have hstop := hfits.stop_le
  have hw := h.sized.words_le
  have hword : Bytes.readWord (a.push b).heap b.header = b.size :=
    Bytes.readWord_writeWord (by omega)
  simp only [blockAt, hword, ← hfits.placed]

theorem Ring.reset (h : a.Ring bs) : a.reset.Ring [] := by
  have hpos : 0 < a.words := Nat.lt_of_lt_of_le (by decide) h.sized.le_words
  exact ⟨⟨h.sized.dvd, h.sized.le_size, h.sized.size_le, h.sized.inSpace⟩, hpos, hpos, .nil⟩

end Allocator

/-- The alignments that fit a `size_t`. -/
def IsAlignment (alignment : Nat) : Prop := ∃ k, k < 64 ∧ alignment = 2 ^ k

instance : DecidablePred IsAlignment := fun alignment =>
  decidable_of_iff (∃ k : Fin 64, alignment = 2 ^ k.val)
    ⟨fun ⟨k, hk⟩ => ⟨k, k.isLt, hk⟩, fun ⟨k, hlt, hk⟩ => ⟨⟨k, hlt⟩, hk⟩⟩

/-- An allocation that has succeeded: the request, the address returned, and the block
found at the header that the call has written. -/
structure Grant where
  bytes : Nat
  alignment : Nat
  address : Nat
  block : Block

/-- `grants` are the allocations whose block is live, oldest first. -/
structure History where
  allocator : Allocator
  grants : List Grant

inductive History.Call
  | alloc (bytes alignment : Nat)
  | free (ptr : Option Nat)
  | store (b : Block) (data : List UInt8)
  | reset
  deriving DecidableEq

inductive History.Result
  | address (p : Option Nat)
  | freed (done : Bool)
  | unit
  deriving DecidableEq

namespace History

def new (heapBase size : Nat) : History := ⟨.new heapBase size, []⟩

/-- One call and what it returns; `none` for a call outside of the contract, and for one
that aborts. -/
def call (s : History) : Call → Option (Result × History)
  | .alloc bytes alignment =>
    if bytes < 2 ^ 32 ∧ IsAlignment alignment then
      match s.allocator.allocAligned bytes alignment with
      | .ok (none, a) => some (.address none, ⟨a, s.grants⟩)
      | .ok (some p, a) =>
        let grant := ⟨bytes, alignment, p, a.blockAt s.allocator.allocIndex⟩
        some (.address (some p), ⟨a, s.grants ++ [grant]⟩)
      | .error _ => none
    else none
  | .free none =>
    match s.allocator.free none with
    | .ok (done, a) => some (.freed done, ⟨a, s.grants⟩)
    | .error _ => none
  | .free (some p) =>
    -- with no live block the code answers too, from a stale word
    if s.grants = [] then none
    else
      match s.allocator.free (some p) with
      | .ok (true, a) => some (.freed true, ⟨a, s.grants.tail⟩)
      | .ok (false, a) => some (.freed false, ⟨a, s.grants⟩)
      | .error _ => none
  | .store b data =>
    if b ∈ s.grants.map Grant.block ∧ data.length ≤ 4 * b.size then
      some (.unit, ⟨s.allocator.store (s.allocator.ptr b) data, s.grants⟩)
    else none
  | .reset => some (.unit, ⟨s.allocator.reset, []⟩)

def step (s : History) (c : Call) : Option History := (s.call c).map Prod.snd

structure Sound (s : History) : Prop where
  ring : s.allocator.Ring (s.grants.map Grant.block)
  address : ∀ g ∈ s.grants, g.address = alignAddress (s.allocator.ptr g.block) g.alignment
  request : ∀ g ∈ s.grants, g.bytes < 2 ^ 32 ∧ IsAlignment g.alignment
  room : ∀ g ∈ s.grants, g.bytes + g.alignment < 2 ^ 32 → g.bytes + g.alignment ≤ 4 * g.block.size

theorem sound_new {heapBase size : Nat} (h : (Allocator.new heapBase size).Sized) :
    (new heapBase size).Sound := ⟨Allocator.ring_new h, nofun, nofun, nofun⟩

variable {s s' : History} {c : Call} {r : Result}

theorem Sound.call_cases (h : s.Sound) (hc : s.call c = some (r, s')) :
    (s' = s ∧ r ≠ .freed true ∨ c = .free none ∧ s' = s) ∨
    (∃ bytes alignment b, c = .alloc bytes alignment ∧ bytes < 2 ^ 32 ∧ IsAlignment alignment ∧
      r = .address (some (alignAddress (s.allocator.ptr b) alignment)) ∧
      s' = ⟨s.allocator.push b,
        s.grants ++ [⟨bytes, alignment, alignAddress (s.allocator.ptr b) alignment, b⟩]⟩ ∧
      (s.allocator.push b).Ring (s.grants.map Grant.block ++ [b]) ∧
      b.header = s.allocator.allocIndex ∧
      (bytes + alignment < 2 ^ 32 → bytes + alignment ≤ 4 * b.size)) ∨
    (∃ g gs, s.grants = g :: gs ∧ c = .free (some (s.allocator.ptr g.block)) ∧ r = .freed true ∧
      s' = ⟨s.allocator.pop g.block, gs⟩) ∨
    (∃ b data, c = .store b data ∧ b ∈ s.grants.map Grant.block ∧ data.length ≤ 4 * b.size ∧
      r = .unit ∧ s' = ⟨s.allocator.store (s.allocator.ptr b) data, s.grants⟩) ∨
    (c = .reset ∧ r = .unit ∧ s' = ⟨s.allocator.reset, []⟩) := by
  cases c with
  | alloc bytes alignment =>
    simp only [History.call] at hc
    split_ifs at hc with hlegal
    rcases h.ring.allocAligned bytes alignment with hnone | ⟨b, hsome, hring, hhead, hroom⟩
    · rw [hnone] at hc
      obtain ⟨rfl, rfl⟩ := Prod.mk.inj (Option.some.inj hc)
      exact .inl (.inl ⟨rfl, nofun⟩)
    · rw [hsome] at hc
      obtain ⟨rfl, rfl⟩ := Prod.mk.inj (Option.some.inj hc)
      refine .inr (.inl ⟨bytes, alignment, b, rfl, hlegal.1, hlegal.2, rfl, ?_, hring, hhead,
        fun hsum => (hroom hsum).1⟩)
      rw [← hhead, Allocator.blockAt_push hring]
  | free p =>
    cases p with
    | none =>
      obtain ⟨rfl, rfl⟩ := Prod.mk.inj (Option.some.inj hc)
      exact .inl (.inr ⟨rfl, rfl⟩)
    | some p =>
      simp only [History.call] at hc
      split_ifs at hc with hempty
      obtain ⟨g, gs, hgrants⟩ := List.exists_cons_of_ne_nil hempty
      have hring := h.ring
      rw [hgrants, List.map_cons] at hring
      cases hfree : s.allocator.free (some p) with
      | error e => simp [hfree] at hc
      | ok result =>
        obtain ⟨done, a⟩ := result
        rw [hfree] at hc
        rcases hring.free_ok hfree with ⟨rfl, rfl, rfl⟩ | ⟨-, rfl, rfl⟩
        · obtain ⟨rfl, rfl⟩ := Prod.mk.inj (Option.some.inj hc)
          exact .inr (.inr (.inl ⟨g, gs, hgrants, rfl, rfl, by rw [hgrants, List.tail_cons]⟩))
        · obtain ⟨rfl, rfl⟩ := Prod.mk.inj (Option.some.inj hc)
          exact .inl (.inl ⟨rfl, by decide⟩)
  | store b data =>
    simp only [History.call] at hc
    split_ifs at hc with hlegal
    obtain ⟨rfl, rfl⟩ := Prod.mk.inj (Option.some.inj hc)
    exact .inr (.inr (.inr (.inl ⟨b, data, rfl, hlegal.1, hlegal.2, rfl, rfl⟩)))
  | reset =>
    obtain ⟨rfl, rfl⟩ := Prod.mk.inj (Option.some.inj hc)
    exact .inr (.inr (.inr (.inr ⟨rfl, rfl, rfl⟩)))

theorem Sound.call (h : s.Sound) (hc : s.call c = some (r, s')) : s'.Sound := by
  rcases h.call_cases hc with (⟨rfl, -⟩ | ⟨-, rfl⟩) |
      ⟨bytes, alignment, b, -, hbytes, halignment, -, rfl, hring, hhead, hroom⟩ |
      ⟨g, gs, hgrants, -, -, rfl⟩ | ⟨b, data, -, hb, hlen, -, rfl⟩ | ⟨-, -, rfl⟩
  · exact h
  · exact h
  · refine ⟨?_, ?_, ?_, ?_⟩
    · simpa using hring
    · intro g hg
      rcases List.mem_append.mp hg with hold | hnew
      · exact h.address g hold
      · obtain rfl := List.mem_singleton.mp hnew
        rfl
    · intro g hg
      rcases List.mem_append.mp hg with hold | hnew
      · exact h.request g hold
      · obtain rfl := List.mem_singleton.mp hnew
        exact ⟨hbytes, halignment⟩
    · intro g hg
      rcases List.mem_append.mp hg with hold | hnew
      · exact h.room g hold
      · obtain rfl := List.mem_singleton.mp hnew
        exact hroom
  · have hring := h.ring
    have hmem : ∀ g' ∈ gs, g' ∈ s.grants := by
      intro g' hg'
      rw [hgrants]
      exact List.mem_cons_of_mem g hg'
    rw [hgrants, List.map_cons] at hring
    exact ⟨hring.pop, fun g' hg' => h.address g' (hmem g' hg'),
      fun g' hg' => h.request g' (hmem g' hg'), fun g' hg' => h.room g' (hmem g' hg')⟩
  · exact ⟨h.ring.store hb hlen, h.address, h.request, h.room⟩
  · exact ⟨h.ring.reset, nofun, nofun, nofun⟩

theorem Sound.step (h : s.Sound) (hs : s.step c = some s') : s'.Sound := by
  obtain ⟨⟨r, t⟩, hc, rfl⟩ := Option.map_eq_some_iff.mp hs
  exact h.call hc

theorem sound_of_run {heapBase size : Nat} (h : (Allocator.new heapBase size).Sized)
    {calls : List Call} (hs : Machine.run step (new heapBase size) calls = some s) : s.Sound :=
  (Machine.Run.of_run hs).invariant Sound (sound_new h) fun _ _ _ ht _ hs => ht.step hs

end History

end Shadesmar.Memory
