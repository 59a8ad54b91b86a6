import Shadesmar.Memory.History

/-! Processes that die inside `alloc` or `free`.  The lock of the dead process goes to the
next caller, which finds the allocator as the stores made so far have left it: `alloc`
stores the header word first and `alloc_index_` second, and `free` makes one store. -/

namespace Shadesmar.Memory

open Library

inductive Store
  | header (index value : Nat)
  | allocIndex (value : Nat)
  | freeIndex (value : Nat)

namespace Allocator

def apply (a : Allocator) : Store → Allocator
  | .header index value => { a with heap := Bytes.writeWord a.heap index value }
  | .allocIndex value => { a with allocIndex := value }
  | .freeIndex value => { a with freeIndex := value }

def applyAll (a : Allocator) (stores : List Store) : Allocator := stores.foldl apply a

def allocStores (a : Allocator) (bytes alignment : Nat) : Checked (List Store) :=
  match a.payloadWords bytes alignment with
  | none => .ok []
  | some payloadSize => do
    let payloadIndex ← a.suggestIndex a.allocIndex payloadSize
    let newAllocIndex := u32 (payloadIndex + payloadSize)
    if a.allocIndex < a.freeIndex ∧ payloadIndex = 0 then
      return []
    else if payloadIndex ≤ a.freeIndex ∧ a.freeIndex ≤ newAllocIndex then
      return []
    else if newAllocIndex = a.words ∧ 0 = a.freeIndex then
      return []
    else
      let newAllocIndex := if newAllocIndex = a.words then 0 else newAllocIndex
      assert (newAllocIndex ≠ a.allocIndex)
      a.validateIndex newAllocIndex
      return [.header a.allocIndex payloadSize, .allocIndex newAllocIndex]

def freeStores (a : Allocator) : Option Nat → Checked (List Store)
  | none => .ok []
  | some ptr => do
    assert (a.heapBase ≤ ptr)
    assert (ptr < a.heapBase + a.size)
    a.validateIndex a.freeIndex
    let payloadSize := Bytes.readWord a.heap a.freeIndex
    let payloadIndex ← a.suggestIndex a.freeIndex payloadSize
    if ptr ≠ a.heapBase + 4 * payloadIndex then
      return []
    else
      let newFreeIndex := u32 (payloadIndex + payloadSize)
      return [.freeIndex (if newFreeIndex = a.words then 0 else newFreeIndex)]

theorem allocAligned_stores (a : Allocator) (bytes alignment : Nat) :
    (a.allocAligned bytes alignment).map Prod.snd =
      (a.allocStores bytes alignment).map a.applyAll := by
  unfold allocAligned allocStores
  cases a.payloadWords bytes alignment with
  | none => rfl
  | some size =>
    simp only [allocWords, bind, Except.bind]
    cases a.suggestIndex a.allocIndex size with
    | error e => rfl
    | ok i =>
      dsimp only
      split_ifs
      · rfl
      · rfl
      · rfl
      all_goals
        simp only [assert, validateIndex]
        split_ifs <;> rfl

theorem free_stores (a : Allocator) (ptr : Option Nat) :
    (a.free ptr).map Prod.snd = (a.freeStores ptr).map a.applyAll := by
  cases ptr with
  | none => rfl
  | some p =>
    simp only [free, freeStores, assert, validateIndex, bind, Except.bind]
    split_ifs with hlo hhi hfree
    · dsimp only
      cases a.suggestIndex a.freeIndex (Bytes.readWord a.heap a.freeIndex) with
      | error e => rfl
      | ok i =>
        dsimp only
        split_ifs <;> rfl
    all_goals rfl

def withHeap (a : Allocator) (m : Bytes.Mem) : Allocator := { a with heap := m }

section WithHeap

variable {a : Allocator} {bs : List Block} {m : Bytes.Mem}

theorem Ring.allocAligned_withHeap (h : a.Ring bs) (h' : (a.withHeap m).Ring bs)
    (bytes alignment : Nat) :
    (a.allocAligned bytes alignment = .ok (none, a) ∧
      (a.withHeap m).allocAligned bytes alignment = .ok (none, a.withHeap m)) ∨
    ∃ b p, a.allocAligned bytes alignment = .ok (some p, a.push b) ∧
      (a.withHeap m).allocAligned bytes alignment = .ok (some p, (a.withHeap m).push b) ∧
      b.header = a.allocIndex ∧ (a.push b).Ring (bs ++ [b]) ∧
      ((a.withHeap m).push b).Ring (bs ++ [b]) := by
  have hwords : (a.withHeap m).payloadWords bytes alignment = a.payloadWords bytes alignment := rfl
  unfold Allocator.allocAligned
  rw [hwords]
  rcases payloadWords_spec h.sized bytes alignment with hnone | ⟨size, hsome, hpos, hle, -⟩
  · rw [hnone]
    exact .inl ⟨rfl, rfl⟩
  · rw [hsome]
    simp only [h.bounded.allocWords_eq alignment hpos hle,
      h'.bounded.allocWords_eq alignment hpos hle]
    by_cases hacc : a.Accepts size
    · have hacc' : (a.withHeap m).Accepts size := hacc
      rw [if_pos hacc, if_pos hacc']
      exact .inr ⟨a.candidate size, _, rfl, rfl, rfl, h.push hacc hpos hle, h'.push hacc' hpos hle⟩
    · have hacc' : ¬ (a.withHeap m).Accepts size := hacc
      rw [if_neg hacc, if_neg hacc']
      exact .inl ⟨rfl, rfl⟩

theorem Ring.free_withHeap {b : Block} (h : a.Ring (b :: bs)) (h' : (a.withHeap m).Ring (b :: bs))
    (p : Nat) : (a.withHeap m).free (some p) =
      (a.free (some p)).map fun r => (r.1, r.2.withHeap m) := by
  by_cases hlo : a.heapBase ≤ p
  · by_cases hhi : p < a.heapBase + a.size
    · rw [h.free_at hlo hhi, h'.free_at (p := p) hlo hhi]
      by_cases heq : p = a.ptr b
      · have heq' : p = (a.withHeap m).ptr b := heq
        rw [if_pos heq, if_pos heq']
        rfl
      · have heq' : ¬ p = (a.withHeap m).ptr b := heq
        rw [if_neg heq, if_neg heq']
        rfl
    · simp [free, assert, withHeap, hlo, hhi, bind, Except.bind, Except.map]
  · simp [free, assert, withHeap, hlo, bind, Except.bind, Except.map]

theorem Ring.writeWord_alloc {b : Block} (h : a.Ring bs) (hb : b ∈ bs) (v : Nat) :
    Bytes.readWord (Bytes.writeWord a.heap a.allocIndex v) b.header =
      Bytes.readWord a.heap b.header ∧
    Bytes.read (Bytes.writeWord a.heap a.allocIndex v) b.handle (4 * b.size) =
      Bytes.read a.heap b.handle (4 * b.size) := by
  have hout := h.not_owns_alloc hb
  simp only [Block.Owns, not_or, not_and_or] at hout
  refine ⟨Bytes.readWord_writeWord_ne (h.header_ne_alloc hb), ?_⟩
  apply Bytes.read_writeWord_disjoint
  rw [Block.handle]
  omega

theorem Ring.writeWord (h : a.Ring bs) (v : Nat) :
    (a.withHeap (Bytes.writeWord a.heap a.allocIndex v)).Ring bs :=
  ⟨⟨h.sized.dvd, h.sized.le_size, h.sized.size_le, h.sized.inSpace⟩, h.free_lt, h.alloc_lt,
    h.chain.congr fun _ hb => (h.writeWord_alloc hb v).1⟩

end WithHeap

theorem allocStores_cases {a : Allocator} {bytes alignment : Nat} {stores : List Store}
    (h : a.allocStores bytes alignment = .ok stores) :
    stores = [] ∨ ∃ size v, stores = [.header a.allocIndex size, .allocIndex v] := by
  unfold allocStores at h
  split at h
  · exact .inl (Except.ok.inj h).symm
  · obtain ⟨i, -, h⟩ := Checked.bind_eq_ok.mp h
    dsimp only at h
    split_ifs at h
    · exact .inl (Except.ok.inj h).symm
    · exact .inl (Except.ok.inj h).symm
    · exact .inl (Except.ok.inj h).symm
    all_goals
      obtain ⟨-, -, h⟩ := Checked.bind_eq_ok.mp h
      obtain ⟨-, -, h⟩ := Checked.bind_eq_ok.mp h
      exact .inr ⟨_, _, (Except.ok.inj h).symm⟩

theorem freeStores_cases {a : Allocator} {ptr : Option Nat} {stores : List Store}
    (h : a.freeStores ptr = .ok stores) : stores = [] ∨ ∃ v, stores = [.freeIndex v] := by
  cases ptr with
  | none => exact .inl (Except.ok.inj h).symm
  | some p =>
    obtain ⟨-, -, h⟩ := Checked.bind_eq_ok.mp h
    obtain ⟨-, -, h⟩ := Checked.bind_eq_ok.mp h
    obtain ⟨-, -, h⟩ := Checked.bind_eq_ok.mp h
    obtain ⟨i, -, h⟩ := Checked.bind_eq_ok.mp h
    split_ifs at h
    · exact .inl (Except.ok.inj h).symm
    all_goals exact .inr ⟨_, (Except.ok.inj h).symm⟩

end Allocator

namespace History

structure Alike (s t : History) : Prop where
  left : s.Sound
  right : t.Sound
  grants : t.grants = s.grants
  allocator : ∃ m, t.allocator = s.allocator.withHeap m

variable {s s' t : History} {c : Call} {r : Result}

theorem Sound.alike (h : s.Sound) : s.Alike s := ⟨h, h, rfl, s.allocator.heap, rfl⟩

theorem Alike.call (h : s.Alike t) (hc : s.call c = some (r, s')) :
    ∃ t', t.call c = some (r, t') ∧ s'.Alike t' := by
  suffices ∃ t', t.call c = some (r, t') ∧ t'.grants = s'.grants ∧
      ∃ m, t'.allocator = s'.allocator.withHeap m by
    obtain ⟨t', ht, hgrants, hheap⟩ := this
    exact ⟨t', ht, h.left.call hc, h.right.call ht, hgrants, hheap⟩
  obtain ⟨hs, ht, hgrants, m, hm⟩ := h
  obtain ⟨a, gs⟩ := s
  obtain ⟨a', gs'⟩ := t
  simp only at hgrants hm
  subst hgrants hm
  have hring : a.Ring (gs'.map Grant.block) := hs.ring
  have hring' : (a.withHeap m).Ring (gs'.map Grant.block) := ht.ring
  cases c with
  | alloc bytes alignment =>
    simp only [History.call] at hc ⊢
    split_ifs at hc ⊢ with hlegal
    rcases hring.allocAligned_withHeap hring' bytes alignment with ⟨hnone, hnone'⟩ |
        ⟨b, p, hsome, hsome', hhead, hpush, hpush'⟩
    · rw [hnone] at hc
      obtain ⟨rfl, rfl⟩ := Prod.mk.inj (Option.some.inj hc)
      rw [hnone']
      exact ⟨_, rfl, rfl, m, rfl⟩
    · rw [hsome] at hc
      obtain ⟨rfl, rfl⟩ := Prod.mk.inj (Option.some.inj hc)
      rw [hsome']
      refine ⟨_, rfl, ?_, _, rfl⟩
      have hblock : (a.push b).blockAt a.allocIndex = b := by
        rw [← hhead, Allocator.blockAt_push hpush]
      have hblock' : ((a.withHeap m).push b).blockAt a.allocIndex = b := by
        rw [← hhead, Allocator.blockAt_push hpush']
      simp only [hblock]
      exact congrArg (fun b => gs' ++ [⟨bytes, alignment, p, b⟩]) hblock'
  | free p =>
    cases p with
    | none =>
      obtain ⟨rfl, rfl⟩ := Prod.mk.inj (Option.some.inj hc)
      exact ⟨_, rfl, rfl, m, rfl⟩
    | some p =>
      simp only [History.call] at hc ⊢
      split_ifs at hc ⊢ with hempty
      obtain ⟨g, gs, rfl⟩ := List.exists_cons_of_ne_nil hempty
      rw [hring.free_withHeap hring' p]
      cases hfree : a.free (some p) with
      | error e => simp [hfree] at hc
      | ok result =>
        obtain ⟨done, a₁⟩ := result
        rw [hfree] at hc
        cases done with
        | true =>
          obtain ⟨rfl, rfl⟩ := Prod.mk.inj (Option.some.inj hc)
          exact ⟨_, rfl, rfl, m, rfl⟩
        | false =>
          obtain ⟨rfl, rfl⟩ := Prod.mk.inj (Option.some.inj hc)
          exact ⟨_, rfl, rfl, m, rfl⟩
  | store b data =>
    simp only [History.call] at hc ⊢
    split_ifs at hc ⊢ with hlegal
    obtain ⟨rfl, rfl⟩ := Prod.mk.inj (Option.some.inj hc)
    exact ⟨_, rfl, rfl, _, rfl⟩
  | reset =>
    obtain ⟨rfl, rfl⟩ := Prod.mk.inj (Option.some.inj hc)
    exact ⟨_, rfl, rfl, m, rfl⟩

theorem Alike.symm (h : s.Alike t) : t.Alike s := by
  obtain ⟨hs, ht, hgrants, m, hm⟩ := h
  refine ⟨ht, hs, hgrants.symm, s.allocator.heap, ?_⟩
  rw [hm]
  rfl

/-- `call` with `free` of any pointer at any time. -/
def callAny (s : History) : Call → Option (Result × History)
  | .free (some p) =>
    match s.allocator.free (some p) with
    | .ok (true, a) => some (.freed true, ⟨a, s.grants.tail⟩)
    | .ok (false, a) => some (.freed false, ⟨a, s.grants⟩)
    | .error _ => none
  | c => s.call c

/-- `free` is given a pointer only while some block is live. -/
def Backed (s : History) (c : Call) : Prop := ∀ p, c = .free (some p) → s.grants ≠ []

theorem callAny_eq (h : s.Backed c) : s.callAny c = s.call c := by
  cases c with
  | free p =>
    cases p with
    | none => rfl
    | some p =>
      rw [History.call, if_neg (h p rfl)]
      rfl
  | alloc | store | reset => rfl

def trace (s : History) : List Call → Option (List Result × History)
  | [] => some ([], s)
  | c :: cs =>
    match s.callAny c with
    | none => none
    | some (r, t) => (t.trace cs).map fun end_ => (r :: end_.1, end_.2)

def Backs (s : History) : List Call → Prop
  | [] => True
  | c :: cs => s.Backed c ∧ ∀ r t, s.callAny c = some (r, t) → t.Backs cs

def BehavesAs (s t : History) : Prop :=
  ∀ calls, t.Backs calls → (s.trace calls).map Prod.fst = (t.trace calls).map Prod.fst ∧
    ∀ rs s', s.trace calls = some (rs, s') → s'.Sound ∧
      ∃ t', t.trace calls = some (rs, t') ∧ s'.allocator.liveBlocks = t'.allocator.liveBlocks

theorem Alike.callAny (h : s.Alike t) (hb : s.Backed c) (hc : s.callAny c = some (r, s')) :
    ∃ t', t.callAny c = some (r, t') ∧ s'.Alike t' := by
  have hb' : t.Backed c := fun p hp => h.grants ▸ hb p hp
  rw [callAny_eq hb] at hc
  rw [callAny_eq hb']
  exact h.call hc

theorem Alike.backs (h : s.Alike t) {calls : List Call} (hb : s.Backs calls) : t.Backs calls := by
  induction calls generalizing s t with
  | nil => trivial
  | cons c cs ih =>
    obtain ⟨hc, hcs⟩ := hb
    refine ⟨fun p hp => h.grants ▸ hc p hp, fun r t₁ ht₁ => ?_⟩
    obtain ⟨s₁, hs₁, h₁⟩ := h.symm.callAny (fun p hp => h.grants ▸ hc p hp) ht₁
    exact ih h₁.symm (hcs r s₁ hs₁)

theorem Alike.trace (h : s.Alike t) {calls : List Call} {rs : List Result} (hb : s.Backs calls)
    (hs : s.trace calls = some (rs, s')) : ∃ t', t.trace calls = some (rs, t') ∧ s'.Alike t' := by
  induction calls generalizing s t rs with
  | nil =>
    obtain ⟨rfl, rfl⟩ := Prod.mk.inj (Option.some.inj hs)
    exact ⟨t, rfl, h⟩
  | cons c cs ih =>
    unfold History.trace at hs ⊢
    cases hc : s.callAny c with
    | none => simp [hc] at hs
    | some result =>
      obtain ⟨r, s₁⟩ := result
      obtain ⟨t₁, ht₁, h₁⟩ := h.callAny hb.1 hc
      rw [hc] at hs
      obtain ⟨⟨rs', s₂⟩, hrest, heq⟩ := Option.map_eq_some_iff.mp hs
      obtain ⟨rfl, rfl⟩ := Prod.mk.inj heq
      obtain ⟨t', ht', halike⟩ := ih h₁ (hb.2 r s₁ hc) hrest
      exact ⟨t', by simp [ht₁, ht'], halike⟩

theorem Alike.behavesAs (h : s.Alike t) : s.BehavesAs t := by
  intro calls hb
  refine ⟨?_, ?_⟩
  · cases hs : s.trace calls with
    | some result =>
      obtain ⟨t', ht', -⟩ := h.trace (h.symm.backs hb) hs
      simp [ht']
    | none =>
      cases ht : t.trace calls with
      | none => rfl
      | some result =>
        obtain ⟨s', hs', -⟩ := h.symm.trace hb ht
        simp [hs] at hs'
  · intro rs s' hs
    obtain ⟨t', ht', halike⟩ := h.trace (h.symm.backs hb) hs
    refine ⟨halike.left, t', ht', ?_⟩
    rw [halike.left.ring.liveBlocks, halike.right.ring.liveBlocks, halike.grants]

/-- The stores of a call; `none` for a call that is neither `alloc` nor `free`, and for one
that aborts. -/
def stores (s : History) : Call → Option (List Store)
  | .alloc bytes alignment => (s.allocator.allocStores bytes alignment).toOption
  | .free ptr => (s.allocator.freeStores ptr).toOption
  | _ => none

structure Recovered (s : History) (a : Allocator) (t : History) : Prop where
  live : a.liveBlocks = t.allocator.liveBlocks
  headers : ∀ b ∈ s.allocator.liveBlocks,
    Bytes.readWord a.heap b.header = Bytes.readWord s.allocator.heap b.header
  payloads : ∀ b ∈ s.allocator.liveBlocks,
    a.load (a.ptr b) (4 * b.size) = s.allocator.load (s.allocator.ptr b) (4 * b.size)
  invariant : Sound ⟨a, t.grants⟩
  behaves : BehavesAs ⟨a, t.grants⟩ t

variable {st : List Store}

theorem call_stores (hc : s.call c = some (r, t)) (hst : s.stores c = some st) :
    s.allocator.applyAll st = t.allocator := by
  cases c with
  | alloc bytes alignment =>
    have hall := s.allocator.allocAligned_stores bytes alignment
    rw [Checked.toOption_eq_some.mp hst] at hall
    simp only [History.call] at hc
    split_ifs at hc
    cases hresult : s.allocator.allocAligned bytes alignment with
    | error e => simp [hresult] at hc
    | ok result =>
      obtain ⟨p, a⟩ := result
      rw [hresult] at hc hall
      have ha : a = s.allocator.applyAll st := Except.ok.inj hall
      cases p <;> obtain ⟨-, rfl⟩ := Prod.mk.inj (Option.some.inj hc) <;> exact ha.symm
  | free p =>
    have hall := s.allocator.free_stores p
    rw [Checked.toOption_eq_some.mp hst] at hall
    cases hresult : s.allocator.free p with
    | error e =>
      rw [hresult] at hall
      cases hall
    | ok result =>
      obtain ⟨done, a⟩ := result
      rw [hresult] at hall
      have ha : a = s.allocator.applyAll st := Except.ok.inj hall
      cases p with
      | none =>
        simp only [History.call, hresult] at hc
        obtain ⟨-, rfl⟩ := Prod.mk.inj (Option.some.inj hc)
        exact ha.symm
      | some p =>
        simp only [History.call, hresult] at hc
        split_ifs at hc
        cases done <;> obtain ⟨-, rfl⟩ := Prod.mk.inj (Option.some.inj hc) <;> exact ha.symm
  | store b data => cases hst
  | reset => cases hst

theorem take_stores (hst : s.stores c = some st) (k : Nat) :
    s.allocator.applyAll (st.take k) = s.allocator ∨
    s.allocator.applyAll (st.take k) = s.allocator.applyAll st ∨
    ∃ v, s.allocator.applyAll (st.take k) =
      s.allocator.withHeap (Bytes.writeWord s.allocator.heap s.allocator.allocIndex v) := by
  cases c with
  | alloc bytes alignment =>
    rcases Allocator.allocStores_cases (Checked.toOption_eq_some.mp hst) with rfl | ⟨size, v, rfl⟩
    · exact .inl (by rw [List.take_nil]; rfl)
    · match k with
      | 0 => exact .inl rfl
      | 1 => exact .inr (.inr ⟨size, rfl⟩)
      | k + 2 => exact .inr (.inl (by rw [List.take_of_length_le (by simp)]))
  | free p =>
    rcases Allocator.freeStores_cases (Checked.toOption_eq_some.mp hst) with rfl | ⟨v, rfl⟩
    · exact .inl (by rw [List.take_nil]; rfl)
    · match k with
      | 0 => exact .inl rfl
      | k + 1 => exact .inr (.inl (by rw [List.take_of_length_le (by simp)]))
  | store b data => cases hst
  | reset => cases hst

theorem Sound.untouched (h : s.Sound) {a : Allocator} (hheap : a.heap = s.allocator.heap ∨
      ∃ v, a.heap = Bytes.writeWord s.allocator.heap s.allocator.allocIndex v)
    {b : Block} (hb : b ∈ s.allocator.liveBlocks) :
    Bytes.readWord a.heap b.header = Bytes.readWord s.allocator.heap b.header ∧
    a.load (a.ptr b) (4 * b.size) = s.allocator.load (s.allocator.ptr b) (4 * b.size) := by
  rw [h.ring.liveBlocks] at hb
  rw [Allocator.load_ptr, Allocator.load_ptr]
  rcases hheap with hsame | ⟨v, hword⟩
  · rw [hsame]
    exact ⟨rfl, rfl⟩
  · rw [hword]
    exact h.ring.writeWord_alloc hb v

theorem Sound.recovered_self (h : s.Sound) : s.Recovered s.allocator s :=
  ⟨rfl, fun _ _ => rfl, fun _ _ => rfl, h, h.alike.behavesAs⟩

theorem Sound.recovered_word (h : s.Sound) (v : Nat) : s.Recovered
    (s.allocator.withHeap (Bytes.writeWord s.allocator.heap s.allocator.allocIndex v)) s := by
  have hring := h.ring.writeWord v
  have hsound : Sound ⟨s.allocator.withHeap
      (Bytes.writeWord s.allocator.heap s.allocator.allocIndex v), s.grants⟩ :=
    ⟨hring, h.address, h.request, h.room⟩
  have halike : s.Alike ⟨s.allocator.withHeap
      (Bytes.writeWord s.allocator.heap s.allocator.allocIndex v), s.grants⟩ :=
    ⟨h, hsound, rfl, _, rfl⟩
  have hkept {b : Block} (hb : b ∈ s.allocator.liveBlocks) := h.untouched (a := s.allocator.withHeap
    (Bytes.writeWord s.allocator.heap s.allocator.allocIndex v)) (.inr ⟨v, rfl⟩) hb
  exact ⟨hring.liveBlocks.trans h.ring.liveBlocks.symm, fun b hb => (hkept hb).1,
    fun b hb => (hkept hb).2, hsound, halike.symm.behavesAs⟩

theorem Sound.recovered_done (h : s.Sound) (hc : s.call c = some (r, t))
    (hst : s.stores c = some st) : s.Recovered t.allocator t := by
  have ht := h.call hc
  have hheap : t.allocator.heap = s.allocator.heap ∨ ∃ v, t.allocator.heap =
      Bytes.writeWord s.allocator.heap s.allocator.allocIndex v := by
    rcases h.call_cases hc with (⟨rfl, -⟩ | ⟨-, rfl⟩) |
        ⟨bytes, alignment, b, -, -, -, -, rfl, -, hhead, -⟩ | ⟨g, gs, -, -, -, rfl⟩ |
        ⟨b, data, rfl, -⟩ | ⟨rfl, -⟩
    · exact .inl rfl
    · exact .inl rfl
    · exact .inr ⟨b.size, by rw [← hhead]; rfl⟩
    · exact .inl rfl
    · cases hst
    · cases hst
  exact ⟨rfl, fun b hb => (h.untouched hheap hb).1, fun b hb => (h.untouched hheap hb).2, ht,
    ht.alike.behavesAs⟩

/-- Wherever in its stores a call of `alloc` or `free` dies, the next process finds the live
blocks from before the call or those from after it, untouched, and every sequence of
further calls goes on as from there, as long as nothing is freed while no block is live. -/
theorem crash_atomic {heapBase size : Nat} (hdvd : 4 ∣ size) (hle : 8 ≤ size)
    (hlim : size ≤ 2 ^ 32) (hspace : heapBase + size ≤ 2 ^ 64) {calls : List Call}
    (hs : Machine.run step (new heapBase size) calls = some s) (hb : s.Backed c)
    (hc : s.callAny c = some (r, t)) (hst : s.stores c = some st) (k : Nat) :
    s.Recovered (s.allocator.applyAll (st.take k)) s ∨
    s.Recovered (s.allocator.applyAll (st.take k)) t := by
  have hsound : s.Sound := sound_of_run ⟨hdvd, hle, hlim, hspace⟩ hs
  rw [callAny_eq hb] at hc
  rcases take_stores hst k with hbefore | hafter | ⟨v, hword⟩
  · rw [hbefore]
    exact .inl hsound.recovered_self
  · rw [hafter, call_stores hc hst]
    exact .inr (hsound.recovered_done hc hst)
  · rw [hword]
    exact .inl (hsound.recovered_word v)

theorem crash_atomic_header : ∃ s r t st,
    Machine.run step (new 4096 100) [.alloc 5 1, .alloc 30 8, .free (some 4100)] = some s ∧
      s.callAny (.alloc 20 4) = some (r, t) ∧ s.stores (.alloc 20 4) = some st ∧ st.length = 2 ∧
      (s.Recovered (s.allocator.applyAll (st.take 1)) s ∨
        s.Recovered (s.allocator.applyAll (st.take 1)) t) := by
  have hrun : (Machine.run step (new 4096 100) [.alloc 5 1, .alloc 30 8, .free (some 4100)]).map
      (fun s => ((s.callAny (.alloc 20 4)).isSome, (s.stores (.alloc 20 4)).map List.length)) =
      some (true, some 2) := by decide +kernel
  obtain ⟨s, hs, hvals⟩ := Option.map_eq_some_iff.mp hrun
  obtain ⟨hcall, hstores⟩ := Prod.mk.inj hvals
  obtain ⟨⟨r, t⟩, hc⟩ := Option.isSome_iff_exists.mp hcall
  obtain ⟨st, hst, hlen⟩ := Option.map_eq_some_iff.mp hstores
  exact ⟨s, r, t, st, hs, hc, hst, hlen,
    crash_atomic (by decide) (by decide) (by decide) (by decide) hs
      (fun _ hp => by cases hp) hc hst 1⟩

/-- The header of the block that was never laid down is taken for one by `free`, and the
calls after it return something else than they would have without the crash. -/
theorem header_outlives_crash : ∃ st, (new 4096 100).stores (.alloc 5 1) = some st ∧
    (((new 4096 100).allocator.applyAll (st.take 1)).liveBlocks = (new 4096 100).allocator.liveBlocks) ∧
    (trace ⟨(new 4096 100).allocator.applyAll (st.take 1), []⟩
      [.free (some 4100), .alloc 0 1]).map Prod.fst = some [.freed true, .address (some 4100)] ∧
    (trace (new 4096 100) [.free (some 4100), .alloc 0 1]).map Prod.fst =
      some [.freed true, .address none] := by
  have hrun : ((new 4096 100).stores (.alloc 5 1)).map (fun st =>
      (((new 4096 100).allocator.applyAll (st.take 1)).liveBlocks,
        (trace ⟨(new 4096 100).allocator.applyAll (st.take 1), []⟩
          [.free (some 4100), .alloc 0 1]).map Prod.fst)) =
      some ([], some [.freed true, .address (some 4100)]) := by decide +kernel
  obtain ⟨st, hst, hvals⟩ := Option.map_eq_some_iff.mp hrun
  obtain ⟨hlive, hcrashed⟩ := Prod.mk.inj hvals
  exact ⟨st, hst, by rw [hlive]; rfl, hcrashed, by decide +kernel⟩

end History

end Shadesmar.Memory
