import Shadesmar.Library.Tally

/-! `concurrency/lockless_set.h`: cells that hold one element each, or 0.  `insert` and `remove`
go through the cells from the front and access one cell at a time, so the models that call
them take these accesses one by one. -/

namespace Shadesmar.Concurrency

open Library Library.Tally

abbrev LocklessSet (size : Nat) := Fin size → Nat

namespace LocklessSet

variable {size : Nat}

def empty : LocklessSet size := fun _ => 0

def store (set : LocklessSet size) (idx : Fin size) (elem : Nat) : LocklessSet size :=
  Function.update set idx elem

def count (set : LocklessSet size) (elem : Nat) : Nat :=
  total (fun cell => if cell = elem then 1 else 0) set

def occupied (set : LocklessSet size) : Nat := total (fun cell => if cell = 0 then 0 else 1) set

def countFrom (set : LocklessSet size) (elem k : Nat) : Nat :=
  total (fun cell : Fin size × Nat => if k ≤ cell.1.val ∧ cell.2 = elem then 1 else 0)
    fun idx => (idx, set idx)

variable {set : LocklessSet size} {idx : Fin size} {elem p k : Nat}

theorem store_self (set : LocklessSet size) (idx : Fin size) (elem : Nat) :
    set.store idx elem idx = elem := Function.update_self ..

theorem store_of_ne {j : Fin size} (h : j ≠ idx) : set.store idx elem j = set j :=
  Function.update_of_ne h _ _

theorem erase_cases (set : LocklessSet size) (idx j : Fin size) :
    set.store idx 0 j = set j ∨ set.store idx 0 j = 0 := by
  by_cases hj : j = idx
  · rw [hj]
    exact .inr (store_self ..)
  · exact .inl (store_of_ne hj)

theorem count_insert (elem : Nat) (h : set idx = 0) (hp : p ≠ 0) :
    (set.store idx elem).count p = set.count p + if elem = p then 1 else 0 := by
  have ht := total_update (fun cell => if cell = p then 1 else 0) set idx elem
  simp only [h, if_neg hp.symm, Nat.add_zero] at ht
  exact ht

theorem count_erase (h : set idx = elem) (hp : p ≠ 0) :
    set.count p = (set.store idx 0).count p + if elem = p then 1 else 0 := by
  have ht := total_update (fun cell => if cell = p then 1 else 0) set idx 0
  simp only [h, if_neg hp.symm, Nat.add_zero] at ht
  exact ht.symm

theorem occupied_insert (h : set idx = 0) (helem : elem ≠ 0) :
    (set.store idx elem).occupied = set.occupied + 1 := by
  have ht := total_update (fun cell => if cell = 0 then 0 else 1) set idx elem
  simp only [h, if_neg helem, if_true, Nat.add_zero] at ht
  exact ht

theorem occupied_erase (h : set idx ≠ 0) : set.occupied = (set.store idx 0).occupied + 1 := by
  have ht := total_update (fun cell => if cell = 0 then 0 else 1) set idx 0
  simp only [if_neg h, if_true, Nat.add_zero] at ht
  exact ht.symm

theorem count_pos (h : set idx = elem) : 0 < set.count elem := by
  have hle := le_total (fun cell => if cell = elem then 1 else 0) set idx
  simp only [h, if_true] at hle
  exact hle

theorem count_le_occupied (helem : elem ≠ 0) : set.count elem ≤ set.occupied := by
  unfold count occupied total
  apply Finset.sum_le_sum
  intro idx _
  dsimp only
  split_ifs <;> omega

theorem occupied_eq_zero : set.occupied = 0 ↔ set = empty := by
  constructor
  · intro h
    funext idx
    have hidx := total_eq_zero.mp h idx
    exact by_contra fun hne => by simp [show set idx ≠ 0 from hne] at hidx
  · rintro rfl
    exact total_const_zero _ rfl

@[simp] theorem occupied_empty : (empty : LocklessSet size).occupied = 0 := occupied_eq_zero.mpr rfl

theorem count_empty (helem : elem ≠ 0) : (empty : LocklessSet size).count elem = 0 :=
  total_const_zero _ (if_neg helem.symm)

theorem countFrom_store (set : LocklessSet size) (idx : Fin size) (elem p k : Nat) :
    (set.store idx elem).countFrom p k + (if k ≤ idx.val ∧ set idx = p then 1 else 0) =
      set.countFrom p k + if k ≤ idx.val ∧ elem = p then 1 else 0 := by
  have hcells : (fun j => (j, set.store idx elem j)) =
      Function.update (fun j => (j, set j)) idx (idx, elem) := by
    funext j
    by_cases hj : j = idx
    · simp [hj, store]
    · simp [hj, store]
  unfold countFrom
  rw [hcells]
  exact total_update _ (fun j => (j, set j)) idx (idx, elem)

theorem countFrom_zero : set.countFrom elem 0 = set.count elem := by
  simp [countFrom, count, total]

theorem countFrom_succ (h : set idx ≠ elem) :
    set.countFrom elem (idx.val + 1) = set.countFrom elem idx.val := by
  unfold countFrom total
  apply Finset.sum_congr rfl
  intro j _
  have hsame : idx.val + 1 ≤ j.val ∧ set j = elem ↔ idx.val ≤ j.val ∧ set j = elem := by
    constructor
    · exact fun ⟨hle, hj⟩ => ⟨by omega, hj⟩
    · rintro ⟨hle, hj⟩
      have hne : idx ≠ j := fun heq => h (heq ▸ hj)
      have hval : idx.val ≠ j.val := fun heq => hne (Fin.ext heq)
      exact ⟨by omega, hj⟩
  simp only [hsame]

theorem countFrom_of_size_le (h : size ≤ k) : set.countFrom elem k = 0 :=
  total_eq_zero.mpr fun idx => if_neg fun hk => by have := idx.isLt; omega

end LocklessSet

end Shadesmar.Concurrency
