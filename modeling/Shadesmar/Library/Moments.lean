import Mathlib.Algebra.BigOperators.Group.List.Basic
import Mathlib.Algebra.Field.Basic
import Mathlib.Algebra.CharZero.Defs
import Mathlib.Data.List.Induction
import Mathlib.Tactic.FieldSimp
import Mathlib.Tactic.Ring

universe u

namespace Library.Moments

variable {K : Type u} [Field K]

def mean (xs : List K) : K := xs.sum / xs.length

def sumSqDevFrom (c : K) (xs : List K) : K := (xs.map fun x => (x - c) ^ 2).sum

def sumSqDev (xs : List K) : K := sumSqDevFrom (mean xs) xs

@[simp] theorem sumSqDevFrom_nil (c : K) : sumSqDevFrom c [] = 0 := rfl

@[simp] theorem sumSqDevFrom_concat (c x : K) (xs : List K) :
    sumSqDevFrom c (xs ++ [x]) = sumSqDevFrom c xs + (x - c) ^ 2 := by
  simp [sumSqDevFrom]

theorem mean_singleton (x : K) : mean [x] = x := by simp [mean]

theorem sumSqDev_singleton (x : K) : sumSqDev [x] = 0 := by
  simp [sumSqDev, sumSqDevFrom, mean_singleton]

theorem mean_perm {xs ys : List K} (h : xs.Perm ys) : mean xs = mean ys := by
  unfold mean
  rw [h.sum_eq, h.length_eq]

theorem sumSqDev_perm {xs ys : List K} (h : xs.Perm ys) : sumSqDev xs = sumSqDev ys := by
  unfold sumSqDev sumSqDevFrom
  rw [mean_perm h]
  exact (h.map _).sum_eq

theorem sumSqDevFrom_eq (xs : List K) (c d : K) : sumSqDevFrom d xs =
    sumSqDevFrom c xs + 2 * (c - d) * (xs.sum - xs.length * c) + xs.length * (c - d) ^ 2 := by
  induction xs using List.reverseRecOn with
  | nil => simp
  | append_singleton xs x ih =>
    rw [sumSqDevFrom_concat, sumSqDevFrom_concat, ih, List.sum_append, List.sum_singleton]
    simp only [List.length_append, List.length_singleton, Nat.cast_add, Nat.cast_one]
    ring

section CharZero

variable [CharZero K]

theorem length_mul_mean (xs : List K) : xs.length * mean xs = xs.sum := by
  cases xs with
  | nil => simp
  | cons x xs =>
    have hne : ((x :: xs).length : K) ≠ 0 := Nat.cast_ne_zero.mpr (Nat.succ_ne_zero _)
    unfold mean
    rw [mul_div_cancel₀ _ hne]

theorem mean_concat (xs : List K) (x : K) :
    mean (xs ++ [x]) = mean xs + (x - mean xs) / (xs.length + 1) := by
  have hne : (xs.length + 1 : K) ≠ 0 := Nat.cast_add_one_ne_zero _
  have hsum := length_mul_mean xs
  have hlen : ((xs ++ [x]).length : K) = xs.length + 1 := by simp
  rw [mean, hlen, List.sum_append, List.sum_singleton, ← hsum]
  field_simp
  ring

theorem sumSqDevFrom_eq_sumSqDev (xs : List K) (d : K) :
    sumSqDevFrom d xs = sumSqDev xs + xs.length * (mean xs - d) ^ 2 := by
  rw [sumSqDevFrom_eq xs (mean xs) d, length_mul_mean, sub_self, mul_zero, add_zero]
  rfl

theorem sumSqDev_concat (xs : List K) (x : K) :
    sumSqDev (xs ++ [x]) = sumSqDev xs + (x - mean xs) * (x - mean (xs ++ [x])) := by
  have hne : (xs.length + 1 : K) ≠ 0 := Nat.cast_add_one_ne_zero _
  have hmove := sumSqDevFrom_eq_sumSqDev xs (mean (xs ++ [x]))
  have hadd := sumSqDevFrom_concat (mean (xs ++ [x])) x xs
  rw [sumSqDev, hadd, hmove, mean_concat]
  field_simp
  ring

end CharZero

end Library.Moments
