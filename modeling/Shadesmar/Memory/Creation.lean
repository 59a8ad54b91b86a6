import Shadesmar.Library.Machine
import Shadesmar.Memory.Segment

/-! `create_memory_segment` of `memory/memory.h`, called by any number of processes for one name
while others unlink the name.  Each system call is one step, which the system may let fail; the
segments are numbered in the order in which they come into being. -/

namespace Shadesmar.Memory.Creation

open Library

/-- `MAP_FAILED` -/
def mapFailed : Nat := 2 ^ 64 - 1

/-- What a call has come to, by the system call that comes next; `fd` is `none` for a negative
descriptor.  `newSegment` is the value that the caller finds in `*new_segment`. -/
inductive Call
  | create
  | openExisting
  | chmod (segment : Nat)
  | truncate (segment : Nat)
  | map (fd : Option Nat) (newSegment : Bool)
  | returned (fd : Option Nat) (address : Nat) (newSegment : Bool)
  deriving DecidableEq

/-- `named` is the segment that has the name, `sizes` has the size of each segment, and `mapped`
says where the pages of a call are. -/
structure State (n : Nat) where
  named : Option Nat
  sizes : List Nat
  calls : Fin n → Call
  mapped : Fin n → Option Nat

/-- Call `i` goes on with a system call, which may fail, or is given the pages from `ptr` on; or
somebody unlinks the name. -/
inductive Label (n : Nat)
  | go (i : Fin n) (fails : Bool)
  | mmap (i : Fin n) (ptr : Nat)
  | unlink

namespace Call

def fd : Call → Option Nat
  | chmod segment => some segment
  | truncate segment => some segment
  | map fd _ => fd
  | returned fd _ _ => fd
  | _ => none

def made : Call → Option Nat
  | chmod segment => some segment
  | truncate segment => some segment
  | map fd true => fd
  | returned fd _ true => fd
  | _ => none

def unsized : Call → Option Nat
  | chmod segment => some segment
  | truncate segment => some segment
  | _ => none

def left (named : Option Nat) : Call → Nat
  | create => 4
  | openExisting => if named.isSome then 3 else 5
  | chmod _ => 3
  | truncate _ => 2
  | map _ _ => 1
  | returned _ _ _ => 0

def Placed (mapped : Option Nat) : Call → Prop
  | returned _ address _ => address = mapped.getD 0 ∧ (address = 0 ↔ mapped = none)
  | _ => mapped = none

theorem left_le (named : Option Nat) (c : Call) : c.left named ≤ c.left none := by
  cases c with
  | openExisting => cases named <;> simp [left]
  | _ => exact Nat.le_refl _

theorem left_none_le (named : Option Nat) (c : Call) : c.left none ≤ c.left named + 2 := by
  cases c with
  | openExisting => cases named <;> simp [left]
  | _ => exact Nat.le_add_right _ _

theorem fd_of_made {c : Call} {segment : Nat} (h : c.made = some segment) : c.fd = some segment := by
  cases c with
  | create | openExisting => cases h
  | chmod segment' | truncate segment' => exact h
  | map fd newSegment | returned fd address newSegment =>
    cases newSegment
    · cases h
    · exact h

end Call

namespace Label

def caller {n : Nat} : Label n → Option (Fin n)
  | go i _ => some i
  | mmap i _ => some i
  | unlink => none

end Label

namespace State

variable {n : Nat}

def new : State n := ⟨none, [], fun _ => .create, fun _ => none⟩

def setCall (s : State n) (i : Fin n) (c : Call) : State n :=
  { s with calls := Function.update s.calls i c }

def go (size : Nat) (s : State n) (i : Fin n) (fails : Bool) : Option (State n) :=
  match s.calls i with
  | .create =>
    -- any error but `EEXIST`
    if fails then some (s.setCall i (.returned none 0 true))
    else
      match s.named with
      | some _ => some (s.setCall i .openExisting)
      | none =>
        let segment := s.sizes.length
        some ({ s with named := some segment, sizes := s.sizes ++ [0] }.setCall i
          (.chmod segment))
  | .openExisting =>
    if fails then some (s.setCall i (.map none false))
    else
      match s.named with
      | some segment => some (s.setCall i (.map (some segment) false))
      -- `ENOENT`: the name was unlinked in the mean time
      | none => some (s.setCall i .create)
  -- the result of `fchmod` is ignored
  | .chmod segment => some (s.setCall i (.truncate segment))
  -- the code compares the result with `EINVAL`, which `ftruncate` does not return
  | .truncate segment =>
    some ({ s with sizes := if fails then s.sizes else s.sizes.set segment size }.setCall i
      (.map (some segment) true))
  | .map fd newSegment =>
    if fails ∨ fd = none then
      some (s.setCall i (.returned fd (alignAddress mapFailed 32) newSegment))
    else none
  | .returned _ _ _ => none

def mmap (s : State n) (i : Fin n) (ptr : Nat) : Option (State n) :=
  match s.calls i with
  | .map (some segment) newSegment =>
    if 0 < ptr ∧ ptr < 2 ^ 64 ∧ 4096 ∣ ptr then
      some ({ s with mapped := Function.update s.mapped i (some ptr) }.setCall i
        (.returned (some segment) (alignAddress ptr 32) newSegment))
    else none
  | _ => none

def step (size : Nat) (s : State n) : Label n → Option (State n)
  | .go i fails => s.go size i fails
  | .mmap i ptr => s.mmap i ptr
  | .unlink => some { s with named := none }

inductive Effect (size : Nat) (s : State n) : Label n → State n → Prop
  | move {l : Label n} {i : Fin n} {c : Call} (mapped : Fin n → Option Nat) : l.caller = some i →
      c.made = (s.calls i).made →
      (∀ segment, c.fd = some segment → (s.calls i).fd = some segment ∨ s.named = some segment) →
      c.unsized = (s.calls i).unsized → c.left s.named < (s.calls i).left s.named →
      (∀ j, j ≠ i → mapped j = s.mapped j) →
      ((s.calls i).Placed (s.mapped i) → c.Placed (mapped i)) →
      Effect size s l ({ s with mapped := mapped }.setCall i c)
  | create {i : Fin n} {fails : Bool} : s.calls i = .create → s.named = none →
      Effect size s (.go i fails) ({ s with
        named := some s.sizes.length
        sizes := s.sizes ++ [0] }.setCall i (.chmod s.sizes.length))
  | truncate {i : Fin n} {segment : Nat} (fails : Bool) : s.calls i = .truncate segment →
      Effect size s (.go i fails) ({ s with
        sizes := if fails then s.sizes else s.sizes.set segment size }.setCall i
          (.map (some segment) true))
  | unlink : Effect size s .unlink { s with named := none }

variable {size : Nat} {s s' : State n} {i : Fin n} {c : Call} {l : Label n}

theorem Effect.go_on (hl : l.caller = some i) (hmade : c.made = (s.calls i).made)
    (hfd : ∀ segment, c.fd = some segment → (s.calls i).fd = some segment ∨ s.named = some segment)
    (hunsized : c.unsized = (s.calls i).unsized)
    (hleft : c.left s.named < (s.calls i).left s.named)
    (hplaced : (s.calls i).Placed (s.mapped i) → c.Placed (s.mapped i)) :
    Effect size s l (s.setCall i c) :=
  .move s.mapped hl hmade hfd hunsized hleft (fun _ _ => rfl) hplaced

theorem effect_of_go {fails : Bool} (hs : s.go size i fails = some s') :
    Effect size s (.go i fails) s' := by
  unfold go at hs
  cases hi : s.calls i with
  | create =>
    simp only [hi] at hs
    split_ifs at hs
    · obtain rfl := Option.some.inj hs
      exact .go_on rfl (by rw [hi]; rfl) nofun (by rw [hi]; rfl) (by simp [hi, Call.left])
        fun hplaced => by
          rw [hi] at hplaced
          rw [Call.Placed, show s.mapped i = none from hplaced]
          exact ⟨rfl, iff_of_true rfl rfl⟩
    · cases hnamed : s.named with
      | some segment =>
        rw [hnamed] at hs
        obtain rfl := Option.some.inj hs
        exact .go_on rfl (by rw [hi]; rfl) nofun (by rw [hi]; rfl) (by simp [hi, hnamed, Call.left])
          (by rw [hi]; exact id)
      | none =>
        rw [hnamed] at hs
        obtain rfl := Option.some.inj hs
        exact .create hi hnamed
  | openExisting =>
    simp only [hi] at hs
    split_ifs at hs
    · obtain rfl := Option.some.inj hs
      refine .go_on rfl (by rw [hi]; rfl) nofun (by rw [hi]; rfl) ?_ (by rw [hi]; exact id)
      rw [hi]
      simp only [Call.left]
      split_ifs <;> omega
    · cases hnamed : s.named with
      | some segment =>
        rw [hnamed] at hs
        obtain rfl := Option.some.inj hs
        refine .go_on rfl (by rw [hi]; rfl) ?_ (by rw [hi]; rfl) (by simp [hi, hnamed, Call.left])
          (by rw [hi]; exact id)
        rintro _ ⟨⟩
        exact .inr hnamed
      | none =>
        rw [hnamed] at hs
        obtain rfl := Option.some.inj hs
        exact .go_on rfl (by rw [hi]; rfl) nofun (by rw [hi]; rfl) (by simp [hi, hnamed, Call.left])
          (by rw [hi]; exact id)
  | chmod segment =>
    simp only [hi] at hs
    obtain rfl := Option.some.inj hs
    refine .go_on rfl (by rw [hi]; rfl) ?_ (by rw [hi]; rfl) (by simp [hi, Call.left])
      (by rw [hi]; exact id)
    rw [hi]
    exact fun _ hs => .inl hs
  | truncate segment =>
    simp only [hi] at hs
    obtain rfl := Option.some.inj hs
    exact .truncate fails hi
  | map fd newSegment =>
    simp only [hi] at hs
    split_ifs at hs
    obtain rfl := Option.some.inj hs
    refine .go_on rfl ?_ ?_ (by rw [hi]; rfl) (by simp [hi, Call.left]) ?_
    · rw [hi]
      cases newSegment <;> rfl
    · rw [hi]
      exact fun _ hs => .inl hs
    · intro hplaced
      rw [hi] at hplaced
      have hfailed : alignAddress mapFailed 32 = 0 := by decide +kernel
      rw [Call.Placed, show s.mapped i = none from hplaced, hfailed]
      exact ⟨rfl, iff_of_true rfl rfl⟩
  | returned fd address newSegment => simp [hi] at hs

theorem effect_of_mmap {ptr : Nat} (hs : s.mmap i ptr = some s') : Effect size s (.mmap i ptr) s' := by
  unfold mmap at hs
  split at hs
  case h_2 => cases hs
  case h_1 segment newSegment hi =>
    split_ifs at hs with hptr
    obtain rfl := Option.some.inj hs
    obtain ⟨hpos, hlt, hpage⟩ := hptr
    have haligned : alignAddress ptr 32 = ptr :=
      (IsAlignment.alignAddress_eq_self ⟨5, by decide, rfl⟩ hlt).mpr
        (Nat.dvd_trans (by decide) hpage)
    refine .move _ rfl ?_ ?_ (by rw [hi]; rfl) (by simp [hi, Call.left])
      (fun j hj => Function.update_of_ne hj ..) ?_
    · rw [hi]
      cases newSegment <;> rfl
    · rw [hi]
      exact fun _ hs => .inl hs
    · intro _
      rw [Call.Placed, haligned, Function.update_self]
      exact ⟨rfl, iff_of_false (Nat.ne_of_gt hpos) nofun⟩

theorem effect_of_step (hs : s.step size l = some s') : Effect size s l s' := by
  cases l with
  | go i fails => exact effect_of_go hs
  | mmap i ptr => exact effect_of_mmap hs
  | unlink =>
    obtain rfl := Option.some.inj hs
    exact .unlink

structure Sound (s : State n) : Prop where
  named : ∀ segment, s.named = some segment → segment < s.sizes.length
  fd : ∀ i segment, (s.calls i).fd = some segment → segment < s.sizes.length
  maker : ∀ segment, segment < s.sizes.length → ∃ i, (s.calls i).made = some segment
  unique : ∀ i j segment, (s.calls i).made = some segment → (s.calls j).made = some segment → i = j
  placed : ∀ i, (s.calls i).Placed (s.mapped i)

theorem sound_new : (new : State n).Sound :=
  ⟨nofun, nofun, nofun, nofun, fun _ => rfl⟩

theorem Sound.keep (h : s.Sound) (hcalls : s'.calls = Function.update s.calls i c)
    (hmade : c.made = (s.calls i).made)
    (hfd : ∀ segment, c.fd = some segment → segment < s.sizes.length)
    (hnamed : s'.named = s.named) (hlength : s'.sizes.length = s.sizes.length)
    (hmapped : ∀ j, j ≠ i → s'.mapped j = s.mapped j) (hplaced : c.Placed (s'.mapped i)) :
    s'.Sound := by
  have hi : s'.calls i = c := by rw [hcalls, Function.update_self]
  have hj : ∀ j, j ≠ i → s'.calls j = s.calls j := fun j hj => by
    rw [hcalls, Function.update_of_ne hj]
  have hall : ∀ j, (s'.calls j).made = (s.calls j).made := by
    intro j
    by_cases hji : j = i
    · rw [hji, hi, hmade]
    · rw [hj j hji]
  constructor
  · rw [hnamed, hlength]
    exact h.named
  · intro j segment hs
    rw [hlength]
    by_cases hji : j = i
    · exact hfd segment (by rwa [hji, hi] at hs)
    · exact h.fd j segment (by rwa [hj j hji] at hs)
  · intro segment hs
    obtain ⟨j, hmaker⟩ := h.maker segment (hlength ▸ hs)
    exact ⟨j, (hall j).trans hmaker⟩
  · intro j k segment hjs hks
    exact h.unique j k segment ((hall j).symm.trans hjs) ((hall k).symm.trans hks)
  · intro j
    by_cases hji : j = i
    · rw [hji, hi]
      exact hplaced
    · rw [hj j hji, hmapped j hji]
      exact h.placed j

theorem Sound.create (h : s.Sound) (hi : s.calls i = .create) :
    ({ s with named := some s.sizes.length, sizes := s.sizes ++ [0] }.setCall i
      (.chmod s.sizes.length)).Sound := by
  have hself : Function.update s.calls i (.chmod s.sizes.length) i = .chmod s.sizes.length :=
    Function.update_self ..
  have hold : ∀ j, j ≠ i → Function.update s.calls i (.chmod s.sizes.length) j = s.calls j :=
    fun j hj => Function.update_of_ne hj ..
  have hfresh : ∀ j segment, (s.calls j).made = some segment → segment ≠ s.sizes.length :=
    fun j segment hj => Nat.ne_of_lt (h.fd j segment (Call.fd_of_made hj))
  constructor
  · rintro segment ⟨⟩
    simp [setCall]
  · intro j segment hj
    simp only [setCall, List.length_append, List.length_singleton] at hj ⊢
    by_cases hji : j = i
    · rw [hji, hself] at hj
      obtain rfl := Option.some.inj hj
      exact Nat.lt_succ_self _
    · rw [hold j hji] at hj
      exact Nat.lt_succ_of_lt (h.fd j segment hj)
  · intro segment hs
    simp only [setCall, List.length_append, List.length_singleton] at hs ⊢
    rcases Nat.lt_succ_iff_lt_or_eq.mp hs with hlt | rfl
    · obtain ⟨j, hj⟩ := h.maker segment hlt
      have hji : j ≠ i := by
        rintro rfl
        rw [hi] at hj
        cases hj
      exact ⟨j, by rw [hold j hji, hj]⟩
    · exact ⟨i, by rw [hself]; rfl⟩
  · intro j k segment hj hk
    simp only [setCall] at hj hk
    by_cases hji : j = i <;> by_cases hki : k = i
    · rw [hji, hki]
    · rw [hji, hself] at hj
      rw [hold k hki] at hk
      exact absurd (Option.some.inj hj).symm (hfresh k segment hk)
    · rw [hki, hself] at hk
      rw [hold j hji] at hj
      exact absurd (Option.some.inj hk).symm (hfresh j segment hj)
    · rw [hold j hji] at hj
      rw [hold k hki] at hk
      exact h.unique j k segment hj hk
  · intro j
    have hplaced := h.placed j
    simp only [setCall]
    by_cases hji : j = i
    · subst hji
      rw [hi] at hplaced
      rw [hself]
      exact hplaced
    · rw [hold j hji]
      exact hplaced

theorem Sound.effect (h : s.Sound) (he : Effect size s l s') : s'.Sound := by
  cases he with
  | @move _ i c mapped _ hmade hfd _ _ hmapped hplaced =>
    refine h.keep rfl hmade (fun segment hs => ?_) rfl rfl hmapped (hplaced (h.placed i))
    rcases hfd segment hs with hold | hnamed
    · exact h.fd i segment hold
    · exact h.named segment hnamed
  | create hi _ => exact h.create hi
  | @truncate i segment fails hi =>
    have hplaced := h.placed i
    rw [hi] at hplaced
    refine h.keep rfl (by rw [hi]; rfl) ?_ rfl ?_ (fun _ _ => rfl) hplaced
    · rintro _ ⟨⟩
      exact h.fd i segment (by rw [hi]; rfl)
    · cases fails <;> simp [setCall]
  | unlink => exact ⟨nofun, h.fd, h.maker, h.unique, h.placed⟩

structure Single (s : State n) : Prop where
  length_le : s.sizes.length ≤ 1
  none_named : s.named = none → s.sizes = []

theorem Single.effect (h : s.Single) (hl : l ≠ .unlink) (he : Effect size s l s') : s'.Single := by
  cases he with
  | move => exact ⟨h.length_le, h.none_named⟩
  | create _ hnone =>
    refine ⟨?_, nofun⟩
    simp [setCall, h.none_named hnone]
  | @truncate i segment fails hi =>
    cases fails with
    | true => exact ⟨h.length_le, h.none_named⟩
    | false =>
      refine ⟨?_, fun hnone => ?_⟩
      · simpa [setCall] using h.length_le
      · have hnil := h.none_named hnone
        simp [setCall, hnil]
  | unlink => exact absurd rfl hl

def Full (size : Nat) (s : State n) : Prop := ∀ segment, segment < s.sizes.length →
  s.sizes[segment]? = some size ∨ ∃ i, (s.calls i).unsized = some segment

/-- No `ftruncate` fails. -/
def Backed (s : State n) (l : Label n) : Prop :=
  ∀ i segment, l = .go i true → s.calls i ≠ .truncate segment

theorem Full.effect (h : s.Full size) (hl : s.Backed l) (he : Effect size s l s') :
    s'.Full size := by
  cases he with
  | @move _ i c mapped _ _ _ hunsized =>
    intro segment hs
    refine (h segment hs).imp_right ?_
    rintro ⟨j, hj⟩
    refine ⟨j, ?_⟩
    simp only [setCall]
    by_cases hji : j = i
    · subst hji
      rw [Function.update_self, hunsized, hj]
    · rw [Function.update_of_ne hji, hj]
  | @create i _ hi _ =>
    intro segment hs
    simp only [setCall, List.length_append, List.length_singleton] at hs ⊢
    rcases Nat.lt_succ_iff_lt_or_eq.mp hs with hlt | rfl
    · rcases h segment hlt with hfull | ⟨j, hj⟩
      · exact .inl (by rw [List.getElem?_append_left hlt, hfull])
      · have hji : j ≠ i := by
          rintro rfl
          rw [hi] at hj
          cases hj
        exact .inr ⟨j, by rw [Function.update_of_ne hji, hj]⟩
    · exact .inr ⟨i, by rw [Function.update_self]; rfl⟩
  | @truncate i segment fails hi =>
    have hok : fails = false := by
      by_contra hfails
      obtain rfl : fails = true := by simpa using hfails
      exact hl i segment rfl hi
    subst hok
    intro segment' hs
    simp only [setCall, Bool.false_eq_true, if_false, List.length_set] at hs ⊢
    by_cases hsame : segment' = segment
    · subst hsame
      exact .inl (List.getElem?_set_self hs)
    · rcases h segment' hs with hfull | ⟨j, hj⟩
      · exact .inl (by rw [List.getElem?_set_ne (Ne.symm hsame), hfull])
      · have hji : j ≠ i := by
          rintro rfl
          rw [hi] at hj
          exact hsame (Option.some.inj hj).symm
        exact .inr ⟨j, by rw [Function.update_of_ne hji, hj]⟩
  | unlink => exact h

theorem Effect.left (he : Effect size s l s') (i : Fin n) :
    (s'.calls i).left s'.named + (if l.caller = some i then 1 else 0) ≤
      (s.calls i).left s.named + if l.caller = none then 2 else 0 := by
  have hcall : ∀ (j : Fin n) (c : Call) (named : Option Nat), l.caller = some j →
      c.left named < (s.calls j).left s.named →
      (∀ c : Call, c.left named ≤ c.left s.named) →
      (Function.update s.calls j c i).left named + (if l.caller = some i then 1 else 0) ≤
        (s.calls i).left s.named + if l.caller = none then 2 else 0 := by
    intro j c named hl hlt hle
    rw [hl, if_neg (show some j ≠ none from nofun)]
    by_cases hij : i = j
    · subst hij
      rw [Function.update_self, if_pos rfl]
      exact hlt
    · rw [Function.update_of_ne hij, if_neg fun heq => hij (Option.some.inj heq).symm]
      exact hle _
  cases he with
  | move _ hl _ _ _ hlt => exact hcall _ _ s.named hl hlt fun _ => Nat.le_refl _
  | create hi hnone =>
    refine hcall _ _ _ rfl (by simp [hi, Call.left]) fun c => ?_
    rw [hnone]
    exact c.left_le _
  | truncate fails hi => exact hcall _ _ s.named rfl (by simp [hi, Call.left]) fun _ => Nat.le_refl _
  | unlink =>
    have hnone : (Label.unlink : Label n).caller = none := rfl
    rw [hnone, if_neg (show none ≠ some i from nofun), if_pos rfl]
    exact (s.calls i).left_none_le s.named

section Runs

variable {labels : List (Label n)}

/-- Two processes start at the same time, and the name is unlinked before the second has opened
the segment of the first. -/
def unlinkedLabels (i j : Fin n) : List (Label n) :=
  [.go i false, .go j false, .unlink, .go j false, .go j false, .go i false, .go j false,
    .go i false, .go j false, .mmap i 4096, .mmap j 8192]

/-- A call that has not returned can go on without an error, returns after four system calls and
two more for each time that the name is unlinked, and returns the beginning of its pages:
`nullptr` exactly when it has been given none. -/
theorem create_returns (h : Machine.run (step size) new labels = some s) (i : Fin n) :
    labels.countP (fun l => l.caller = some i) ≤
      4 + 2 * labels.countP (fun l => l.caller = none) ∧
    ((∀ fd address newSegment, s.calls i ≠ .returned fd address newSegment) →
      ∃ l s', l.caller = some i ∧ l ≠ .go i true ∧ s.step size l = some s') ∧
    ∀ fd address newSegment, s.calls i = .returned fd address newSegment →
      address = (s.mapped i).getD 0 ∧ (address = 0 ↔ s.mapped i = none) := by
  have hrun := Machine.Run.of_run h
  have hsound : s.Sound := hrun.invariant Sound sound_new
    fun _ _ _ ht _ hs => ht.effect (effect_of_step hs)
  refine ⟨?_, ?_, ?_⟩
  · have hleft : (s.calls i).left s.named + labels.countP (fun l => l.caller = some i) ≤
        4 + 2 * labels.countP (fun l => l.caller = none) := by
      clear h hsound
      induction hrun with
      | nil => exact Nat.le_refl _
      | @snoc ls t l t' _ _ hs ih =>
        have hstep := (effect_of_step hs).left i
        rw [List.countP_append, List.countP_append, List.countP_singleton, List.countP_singleton]
        simp only [decide_eq_true_eq]
        split_ifs at * <;> omega
    omega
  · intro hreturned
    cases hi : s.calls i with
    | create | openExisting =>
      cases hnamed : s.named <;> exact ⟨.go i false, _, rfl, nofun, by simp [step, go, hi, hnamed]; rfl⟩
    | chmod segment | truncate segment =>
      exact ⟨.go i false, _, rfl, nofun, by simp [step, go, hi]; rfl⟩
    | map fd newSegment =>
      cases fd with
      | none => exact ⟨.go i false, _, rfl, nofun, by simp [step, go, hi]; rfl⟩
      | some segment => exact ⟨.mmap i 4096, _, rfl, nofun, by simp [step, mmap, hi]; rfl⟩
    | returned fd address newSegment => exact absurd hi (hreturned fd address newSegment)
  · intro fd address newSegment hi
    have hplaced := hsound.placed i
    rw [hi] at hplaced
    exact hplaced

theorem create_returns_unlinked : ∃ s : State 2,
    Machine.run (step 64) new (unlinkedLabels 0 1) = some s ∧
    (unlinkedLabels (0 : Fin 2) 1).countP (fun l => l.caller = some 1) ≤
      4 + 2 * (unlinkedLabels (0 : Fin 2) 1).countP (fun l => l.caller = none) ∧
    8192 = (s.mapped 1).getD 0 := by
  have hrun : (Machine.run (step 64) (new : State 2) (unlinkedLabels 0 1)).map (fun s => s.calls 1) =
      some (.returned (some 1) 8192 true) := by decide +kernel
  obtain ⟨s, hs, h1⟩ := Option.map_eq_some_iff.mp hrun
  obtain ⟨hcount, -, hplaced⟩ := create_returns hs 1
  exact ⟨s, hs, hcount, (hplaced _ _ _ h1).1⟩

end Runs

end State

end Shadesmar.Memory.Creation
