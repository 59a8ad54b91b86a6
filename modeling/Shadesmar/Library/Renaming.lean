import Shadesmar.Library.Tally

namespace Library.Renaming

open Tally

variable {n : Nat}

def reached (k : Nat) : Option Nat → Nat
  | none => 0
  | some p => if k ≤ p then 1 else 0

def Spread (place : Fin n → Option Nat) : Prop :=
  ∀ k, total (reached k) place = 0 ∨ total (reached k) place + k ≤ n

variable {place place' : Fin n → Option Nat} {i j : Fin n} {k : Nat}

theorem reached_some (k p : Nat) : reached k (some p) = if k ≤ p then 1 else 0 := rfl

theorem total_reached_le (k : Nat) (place : Fin n → Option Nat) : total (reached k) place ≤ n := by
  have hle : total (reached k) place ≤ ∑ _i : Fin n, 1 := by
    refine Finset.sum_le_sum fun i _ => ?_
    cases place i with
    | none => exact Nat.zero_le 1
    | some p =>
      rw [reached_some]
      split_ifs <;> omega
  simpa using hle

theorem total_reached (k : Nat) (place : Fin n → Option Nat) :
    total (reached k) place = total (holding id k) place + total (reached (k + 1)) place := by
  unfold total
  rw [← Finset.sum_add_distrib]
  refine Finset.sum_congr rfl fun i _ => ?_
  cases place i with
  | none => rfl
  | some p =>
    simp only [reached_some, holding, id, Option.some.injEq]
    split_ifs <;> omega

theorem spread_none : Spread fun _ : Fin n => none := fun _ => .inl (total_const_zero _ rfl)

theorem Spread.enter (h : Spread place) (i : Fin n) : Spread (Function.update place i (some 0)) := by
  intro k
  rcases Nat.eq_zero_or_pos k with rfl | hk
  · exact .inr (total_reached_le 0 _)
  · have hzero : reached k (some 0) = 0 := if_neg (by omega)
    have hle : total (reached k) (Function.update place i (some 0)) ≤ total (reached k) place :=
      total_update_le (by omega) fun _ _ => Nat.le_refl _
    rcases h k with hzero | hroom <;> omega

theorem Spread.pass (h : Spread place) (hi : place i = some k) (hj : place j = some k)
    (hij : i ≠ j) : Spread (Function.update place i (some (k + 1))) := by
  intro m
  have hupdate := total_update (reached m) place i (some (k + 1))
  rw [hi, reached_some, reached_some] at hupdate
  by_cases hm : m = k + 1
  · subst hm
    rw [if_neg (by omega), if_pos (Nat.le_refl _)] at hupdate
    have htwo := add_le_total (holding id k) place hij
    simp only [holding, id, hi, hj, if_true] at htwo
    have hgap := total_reached k place
    rcases h k with hzero | hroom <;> omega
  · have hsame : total (reached m) (Function.update place i (some (k + 1))) =
        total (reached m) place := by
      split_ifs at hupdate <;> omega
    rw [hsame]
    exact h m

theorem Spread.lt (h : Spread place) (hi : place i = some k) : k < n := by
  have hone := le_total (reached k) place i
  rw [hi, reached_some, if_pos (Nat.le_refl k)] at hone
  rcases h k with hzero | hroom <;> omega

end Library.Renaming
