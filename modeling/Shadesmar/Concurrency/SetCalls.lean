import Shadesmar.Concurrency.LocklessSet
import Shadesmar.Library.Machine

namespace Shadesmar.Concurrency

open Library

namespace LocklessSet

variable {size : Nat}

/-- `array_[idx].compare_exchange_strong(exp, desired)` -/
def compareExchange (set : LocklessSet size) (idx : Fin size) (exp desired : Nat) :
    Bool × LocklessSet size :=
  if set idx = exp then (true, set.store idx desired) else (false, set)

def insertLoop (elem : Nat) : List (Fin size) → LocklessSet size → Bool × LocklessSet size
  | [], set => (false, set)
  | idx :: cells, set =>
    let probedElem := set idx
    if probedElem ≠ elem then
      if probedElem ≠ 0 then insertLoop elem cells set
      else
        match set.compareExchange idx 0 elem with
        | (true, set) => (true, set)
        | (false, set) => insertLoop elem cells set
    else (false, set)

def insert (set : LocklessSet size) (elem : Nat) : Bool × LocklessSet size :=
  insertLoop elem (List.finRange size) set

def removeLoop (elem : Nat) : List (Fin size) → LocklessSet size → Bool × LocklessSet size
  | [], set => (false, set)
  | idx :: cells, set =>
    let probedElem := set idx
    if probedElem = elem then set.compareExchange idx elem 0
    else removeLoop elem cells set

def remove (set : LocklessSet size) (elem : Nat) : Bool × LocklessSet size :=
  removeLoop elem (List.finRange size) set

variable {set : LocklessSet size} {elem p : Nat}

def Mem (set : LocklessSet size) (elem : Nat) : Prop := ∃ idx, set idx = elem

instance (set : LocklessSet size) (elem : Nat) : Decidable (set.Mem elem) :=
  inferInstanceAs (Decidable (∃ _, _))

theorem insertLoop_eq (elem : Nat) (cells : List (Fin size)) (set : LocklessSet size) :
    insertLoop elem cells set =
      match cells.find? fun idx => set idx = elem ∨ set idx = 0 with
      | none => (false, set)
      | some idx => if set idx = elem then (false, set) else (true, set.store idx elem) := by
  induction cells with
  | nil => rfl
  | cons idx cells ih =>
    rw [insertLoop, List.find?_cons]
    by_cases helem : set idx = elem
    · simp [helem]
    · by_cases hzero : set idx = 0
      · simp [hzero, compareExchange]
      · simp only [helem, hzero, ne_eq, not_false_eq_true, if_true, or_self, decide_false]
        exact ih

theorem removeLoop_eq (elem : Nat) (cells : List (Fin size)) (set : LocklessSet size) :
    removeLoop elem cells set =
      match cells.find? fun idx => set idx = elem with
      | none => (false, set)
      | some idx => (true, set.store idx 0) := by
  induction cells with
  | nil => rfl
  | cons idx cells ih =>
    rw [removeLoop, List.find?_cons]
    by_cases helem : set idx = elem
    · simp [helem, compareExchange]
    · simp only [helem, if_false, decide_false]
      exact ih

theorem insert_cases (set : LocklessSet size) (elem : Nat) :
    (set.insert elem = (false, set) ∧ ∃ idx, set idx = elem ∧ ∀ j < idx, set j ≠ 0) ∨
    (∃ idx, set.insert elem = (true, set.store idx elem) ∧ set idx = 0 ∧ ∀ j < idx, set j ≠ elem) ∨
    (set.insert elem = (false, set) ∧ ∀ idx, set idx ≠ elem ∧ set idx ≠ 0) := by
  have heq := insertLoop_eq elem (List.finRange size) set
  rw [← Fin.find?_eq_find?_finRange] at heq
  change set.insert elem = _ at heq
  cases hfind : Fin.find? fun idx => decide (set idx = elem ∨ set idx = 0) with
  | none =>
    rw [hfind] at heq
    have hall := Fin.find?_eq_none_iff.mp hfind
    exact .inr (.inr ⟨heq, by simpa using hall⟩)
  | some idx =>
    rw [hfind] at heq
    obtain ⟨hstop, hbefore⟩ := Fin.find?_eq_some_iff.mp hfind
    simp only [decide_eq_true_eq, decide_eq_false_iff_not, not_or] at hstop hbefore
    by_cases helem : set idx = elem
    · simp only [helem, if_true] at heq
      exact .inl ⟨heq, idx, helem, fun j hj => (hbefore j hj).2⟩
    · simp only [helem, if_false] at heq
      exact .inr (.inl ⟨idx, heq, hstop.resolve_left helem, fun j hj => (hbefore j hj).1⟩)

theorem remove_cases (set : LocklessSet size) (elem : Nat) :
    (∃ idx, set.remove elem = (true, set.store idx 0) ∧ set idx = elem) ∨
    (set.remove elem = (false, set) ∧ ¬ set.Mem elem) := by
  have heq := removeLoop_eq elem (List.finRange size) set
  rw [← Fin.find?_eq_find?_finRange] at heq
  change set.remove elem = _ at heq
  cases hfind : Fin.find? fun idx => decide (set idx = elem) with
  | none =>
    rw [hfind] at heq
    have hall := Fin.find?_eq_none_iff.mp hfind
    refine .inr ⟨heq, ?_⟩
    rintro ⟨idx, hidx⟩
    simpa [hidx] using hall idx
  | some idx =>
    rw [hfind] at heq
    exact .inl ⟨idx, heq, by simpa using (Fin.find?_eq_some_iff.mp hfind).1⟩

def Distinct (set : LocklessSet size) : Prop := ∀ i j, set i ≠ 0 → set i = set j → i = j

theorem distinct_empty : (empty : LocklessSet size).Distinct := fun _ _ hne => absurd rfl hne

theorem Distinct.store_zero (h : set.Distinct) (idx : Fin size) : (set.store idx 0).Distinct := by
  intro i j hne heq
  have hi := erase_cases set idx i
  have hj := erase_cases set idx j
  exact h i j (by grind) (by grind)

theorem Distinct.store (h : set.Distinct) (hfree : ¬ set.Mem elem) (idx : Fin size) :
    (set.store idx elem).Distinct := by
  have hother : ∀ j, set j ≠ elem := fun j hj => hfree ⟨j, hj⟩
  intro i j hne heq
  by_cases hi : i = idx
  · by_cases hj : j = idx
    · rw [hi, hj]
    · rw [hi, store_self, store_of_ne hj] at heq
      exact absurd heq.symm (hother j)
  · by_cases hj : j = idx
    · rw [hj, store_self, store_of_ne hi] at heq
      exact absurd heq (hother i)
    · rw [store_of_ne hi] at hne heq
      rw [store_of_ne hj] at heq
      exact h i j hne heq

inductive Call
  | insert (elem : Nat)
  | remove (elem : Nat)
  deriving DecidableEq

def step (set : LocklessSet size) : Call → Option (LocklessSet size)
  | .insert elem => if elem ≠ 0 then some (set.insert elem).2 else none
  | .remove elem => if elem ≠ 0 then some (set.remove elem).2 else none

def Lawful (set : LocklessSet size) : Call → Prop
  | .insert elem =>
    ((set.insert elem).1 = true ↔ ¬ set.Mem elem ∧ ∃ idx, set idx = 0) ∧
    (set.insert elem).2.Distinct
  | .remove elem =>
    ((set.remove elem).1 = true ↔ set.Mem elem) ∧ (set.remove elem).2.Distinct ∧
    ¬ (set.remove elem).2.Mem elem ∧ ∀ idx, set idx ≠ elem → (set.remove elem).2 idx = set idx

/-- No free cell lies in front of the element that is to be inserted. -/
def NoHoleBefore (set : LocklessSet size) : Call → Prop
  | .insert elem => ∀ i j, set j = elem → i < j → set i ≠ 0
  | .remove _ => True

theorem Distinct.lawful_insert (h : set.Distinct) (hne : elem ≠ 0) :
    set.Lawful (.insert elem) ↔ set.NoHoleBefore (.insert elem) := by
  simp only [Lawful, NoHoleBefore]
  rcases insert_cases set elem with ⟨heq, idx, hidx, hbefore⟩ | ⟨idx, heq, hzero, hbefore⟩ |
      ⟨heq, hall⟩
  · -- the element is found, and no cell before it is free
    have hmem : set.Mem elem := ⟨idx, hidx⟩
    simp only [heq, h, hmem, not_true_eq_false, false_and, and_true, Bool.false_eq_true, true_iff]
    intro i j hj hlt
    obtain rfl := h j idx (hj.trans_ne hne) (hj.trans hidx.symm)
    exact hbefore i hlt
  · -- a free cell comes first: right if the element is absent
    simp only [heq, true_iff]
    constructor
    · rintro ⟨⟨habsent, -⟩, -⟩ i j hj -
      exact absurd ⟨j, hj⟩ habsent
    · intro hhole
      have habsent : ¬ set.Mem elem := by
        rintro ⟨j, hj⟩
        have hcell : j ≠ idx := fun hji => hne (by rw [← hj, hji, hzero])
        rcases Fin.lt_or_lt_of_ne hcell with hlt | hlt
        · exact hbefore j hlt hj
        · exact hhole idx j hj hlt hzero
      exact ⟨⟨habsent, idx, hzero⟩, h.store habsent idx⟩
  · simp only [heq, h, and_true, Bool.false_eq_true, false_iff]
    constructor
    · intro _ i j hj _
      exact absurd hj (hall j).1
    · rintro - ⟨-, idx, hidx⟩
      exact (hall idx).2 hidx

theorem Distinct.lawful_remove (h : set.Distinct) (hne : elem ≠ 0) :
    set.Lawful (.remove elem) := by
  simp only [Lawful]
  rcases remove_cases set elem with ⟨idx, heq, hidx⟩ | ⟨heq, habsent⟩
  · have hmem : set.Mem elem := ⟨idx, hidx⟩
    rw [heq]
    refine ⟨iff_of_true rfl hmem, h.store_zero idx, ?_, fun j hj => ?_⟩
    · rintro ⟨j, hj⟩
      change set.store idx 0 j = elem at hj
      by_cases hji : j = idx
      · rw [hji, store_self] at hj
        exact hne hj.symm
      · rw [store_of_ne hji] at hj
        exact hji (h j idx (hj.trans_ne hne) (hj.trans hidx.symm))
    · exact store_of_ne fun hji => hj (hji ▸ hidx)
  · rw [heq]
    exact ⟨iff_of_false Bool.false_ne_true habsent, h, habsent, fun _ _ => rfl⟩

theorem Distinct.lawful_iff (h : set.Distinct) {c : Call} {set' : LocklessSet size}
    (hs : set.step c = some set') : set.Lawful c ↔ set.NoHoleBefore c := by
  cases c with
  | insert elem =>
    simp only [step] at hs
    split_ifs at hs with hne
    exact h.lawful_insert hne
  | remove elem =>
    simp only [step] at hs
    split_ifs at hs with hne
    exact iff_of_true (h.lawful_remove hne) trivial

theorem Lawful.distinct {c : Call} {set' : LocklessSet size} (h : set.Lawful c)
    (hs : set.step c = some set') : set'.Distinct := by
  cases c with
  | insert elem =>
    simp only [step] at hs
    split_ifs at hs
    obtain rfl := Option.some.inj hs
    exact h.2
  | remove elem =>
    simp only [step] at hs
    split_ifs at hs
    obtain rfl := Option.some.inj hs
    exact h.2.1

/-- All calls of a run are those of a set in exactly those runs in which no element is inserted
behind a free cell. -/
theorem lawful_run_iff (calls : List Call) (set : LocklessSet size) :
    Machine.Run step Lawful (empty : LocklessSet size) calls set ↔
      Machine.Run step NoHoleBefore (empty : LocklessSet size) calls set := by
  constructor
  · intro hrun
    apply hrun.refine Distinct distinct_empty
    intro c _ t t' ht hc hs
    exact ⟨hc.distinct hs, (ht.lawful_iff hs).mp hc⟩
  · intro hrun
    apply hrun.refine Distinct distinct_empty
    intro c _ t t' ht hc hs
    have hlawful := (ht.lawful_iff hs).mpr hc
    exact ⟨hlawful.distinct hs, hlawful⟩

/-- The element is in the second of two cells when the first one falls free. -/
theorem insert_duplicates : ∃ set : LocklessSet 2,
    Machine.run step (empty : LocklessSet 2) [.insert 1, .insert 2, .remove 1] = some set ∧
      set.Mem 2 ∧ (set.insert 2).1 = true ∧ (∀ idx, (set.insert 2).2 idx = 2) ∧
      ¬ set.Lawful (.insert 2) := by
  have hrun : Machine.run step (empty : LocklessSet 2) [.insert 1, .insert 2, .remove 1] =
      some (((empty.insert 1).2.insert 2).2.remove 1).2 := by simp [Machine.run, step]
  refine ⟨_, hrun, by decide, by decide, by decide, fun h => ?_⟩
  have habsent := (h.1.mp (by decide)).1
  exact habsent (by decide)

end LocklessSet

end Shadesmar.Concurrency
