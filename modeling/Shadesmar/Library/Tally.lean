import Mathlib.Algebra.BigOperators.Fin
import Mathlib.Algebra.Order.BigOperators.Group.Finset

universe u v

namespace Library.Tally

variable {α : Type u} {n : Nat}

def total (w : α → Nat) (f : Fin n → α) : Nat := ∑ i, w (f i)

theorem total_update (w : α → Nat) (f : Fin n → α) (i : Fin n) (x : α) :
    total w (Function.update f i x) + w (f i) = total w f + w x := by
  have hrest : ∑ j ∈ Finset.univ.erase i, w (Function.update f i x j) =
      ∑ j ∈ Finset.univ.erase i, w (f j) := by
    apply Finset.sum_congr rfl
    intro j hj
    rw [Function.update_of_ne (Finset.ne_of_mem_erase hj)]
  have hnew := Finset.add_sum_erase Finset.univ (fun j => w (Function.update f i x j))
    (Finset.mem_univ i)
  have hold := Finset.add_sum_erase Finset.univ (fun j => w (f j)) (Finset.mem_univ i)
  simp only [Function.update_self] at hnew
  unfold total
  omega

theorem total_update_same {w : α → Nat} {f : Fin n → α} {i : Fin n} {x : α} (h : w x = w (f i)) :
    total w (Function.update f i x) = total w f := by
  have := total_update w f i x
  omega

theorem le_total (w : α → Nat) (f : Fin n → α) (i : Fin n) : w (f i) ≤ total w f :=
  Finset.single_le_sum (f := fun j => w (f j)) (fun _ _ => Nat.zero_le _) (Finset.mem_univ i)

theorem add_le_total (w : α → Nat) (f : Fin n → α) {i j : Fin n} (h : i ≠ j) :
    w (f i) + w (f j) ≤ total w f := by
  have hj : w (f j) ≤ ∑ k ∈ Finset.univ.erase i, w (f k) :=
    Finset.single_le_sum (f := fun k => w (f k)) (fun _ _ => Nat.zero_le _)
      (Finset.mem_erase.mpr ⟨Ne.symm h, Finset.mem_univ j⟩)
  have hsum := Finset.add_sum_erase Finset.univ (fun k => w (f k)) (Finset.mem_univ i)
  unfold total
  omega

theorem total_update_le {w w' : α → Nat} {f : Fin n → α} {i : Fin n} {x : α} (hi : w x ≤ w' (f i))
    (hrest : ∀ j, j ≠ i → w (f j) ≤ w' (f j)) :
    total w (Function.update f i x) ≤ total w' f := by
  apply Finset.sum_le_sum
  intro j _
  by_cases hji : j = i
  · rw [hji, Function.update_self]
    exact hi
  · rw [Function.update_of_ne hji]
    exact hrest j hji

theorem total_eq_zero {w : α → Nat} {f : Fin n → α} : total w f = 0 ↔ ∀ i, w (f i) = 0 := by
  simp [total]

@[simp] theorem total_const_zero (w : α → Nat) {x : α} (h : w x = 0) :
    total w (fun _ : Fin n => x) = 0 := by simp [total, h]

section Holding

variable {κ : Type v} [DecidableEq κ] (slot : α → Option κ) {f : Fin n → α} {i : Fin n} {x : α}
variable {k₀ : κ}

def holding (k : κ) (x : α) : Nat := if slot x = some k then 1 else 0

theorem total_keep (h : slot x = slot (f i)) (k : κ) :
    total (holding slot k) (Function.update f i x) = total (holding slot k) f :=
  total_update_same (by rw [holding, holding, h])

theorem total_take (h : slot (f i) = none) (hx : slot x = some k₀) (k : κ) :
    total (holding slot k) (Function.update f i x) =
      total (holding slot k) f + if k = k₀ then 1 else 0 := by
  have ht := total_update (holding slot k) f i x
  simpa only [holding, h, hx, Option.some.injEq, reduceCtorEq, if_false, Nat.add_zero,
    @eq_comm _ k₀] using ht

theorem total_give (h : slot (f i) = some k₀) (hx : slot x = none) (k : κ) :
    total (holding slot k) f =
      total (holding slot k) (Function.update f i x) + if k = k₀ then 1 else 0 := by
  have ht := total_update (holding slot k) f i x
  simpa only [holding, h, hx, Option.some.injEq, reduceCtorEq, if_false, Nat.add_zero,
    @eq_comm _ k₀] using ht.symm

theorem total_pos {k : κ} (h : slot (f i) = some k) : 0 < total (holding slot k) f := by
  have hle := le_total (holding slot k) f i
  rw [holding, if_pos h] at hle
  exact hle

theorem exists_of_total_pos {k : κ} (h : 0 < total (holding slot k) f) : ∃ i, slot (f i) = some k := by
  by_contra hnone
  have hzero : total (holding slot k) f = 0 :=
    total_eq_zero.mpr fun i => if_neg fun hi => hnone ⟨i, hi⟩
  omega

end Holding

end Library.Tally
