import Mathlib.Data.Finset.Card
import Mathlib.Data.Finset.Range
import Mathlib.Order.Interval.Finset.Nat

/-! Cyclic order on the positions `0, …, N - 1` of a ring.  `steps N i j` counts
the forward steps from `i` to `j`; arcs and betweenness are stated through it, so
that every law is linear arithmetic over the two ways a walk can wrap. -/

namespace Library.Cyclic

def steps (N i j : Nat) : Nat := if i ≤ j then j - i else N - i + j

def Between (N i j k : Nat) : Prop := steps N i j + steps N j k = steps N i k

def Arc (N i j x : Nat) : Prop := steps N i x < steps N i j

instance : Decidable (Between N i j k) := inferInstanceAs (Decidable (_ = _))
instance : Decidable (Arc N i j x) := inferInstanceAs (Decidable (_ < _))

@[simp] theorem steps_self (N i : Nat) : steps N i i = 0 := by simp [steps]

theorem steps_lt {N i j : Nat} (hi : i < N) (hj : j < N) : steps N i j < N := by
  unfold steps
  split_ifs <;> omega

theorem steps_eq_zero {N i j : Nat} (hi : i < N) : steps N i j = 0 ↔ i = j := by
  unfold steps
  split_ifs <;> omega

theorem steps_pos {N i j : Nat} (hi : i < N) (h : i ≠ j) : 0 < steps N i j :=
  Nat.pos_of_ne_zero fun h0 => h ((steps_eq_zero hi).mp h0)

theorem add_steps_mod {N j : Nat} (hj : j < N) (c : Nat) : (c + steps N (c % N) j) % N = j := by
  have hc := Nat.div_add_mod c N
  have hlt := Nat.mod_lt c (Nat.zero_lt_of_lt hj)
  unfold steps
  split_ifs with hle
  · have hsum : c + (j - c % N) = N * (c / N) + j := by omega
    rw [hsum, Nat.mul_add_mod, Nat.mod_eq_of_lt hj]
  · have hsum : c + (N - c % N + j) = N * (c / N) + (N + j) := by omega
    rw [hsum, Nat.mul_add_mod, Nat.add_mod_left, Nat.mod_eq_of_lt hj]

theorem between_right (N i k : Nat) : Between N i k k := by simp [Between]

theorem Between.trans {N i j k l : Nat} (hi : i < N) (hj : j < N) (hk : k < N)
    (hijk : Between N i j k) (hikl : Between N i k l) :
    Between N i j l ∧ Between N j k l := by
  unfold Between steps at *
  constructor <;> split_ifs at * <;> omega

theorem not_arc_right (N i j : Nat) : ¬ Arc N i j j := by simp [Arc]

theorem Between.arc_left {N i j k x : Nat} (h : Between N i j k) (hx : Arc N i j x) :
    Arc N i k x := by
  unfold Between Arc at *
  omega

theorem Between.arc_right {N i j k x : Nat} (hi : i < N) (hj : j < N) (hk : k < N)
    (h : Between N i j k) (ha : Arc N j k x) : Arc N i k x := by
  unfold Between Arc steps at *
  split_ifs at * <;> omega

theorem Between.arc_disjoint {N i j k x : Nat} (hi : i < N) (hj : j < N) (hk : k < N)
    (h : Between N i j k) (ha : Arc N i j x) : ¬ Arc N j k x := by
  unfold Between Arc steps at *
  split_ifs at * <;> omega

theorem Between.length_add {N i j k : Nat} (h : Between N i j k) :
    steps N i k = steps N i j + steps N j k := h.symm

theorem card_arc {N i j : Nat} (hi : i < N) (hj : j < N) :
    ((Finset.range N).filter (fun x => Arc N i j x)).card = steps N i j := by
  by_cases hij : i ≤ j
  · have hset : (Finset.range N).filter (fun x => Arc N i j x) = Finset.Ico i j := by
      ext x
      rw [Finset.mem_filter, Finset.mem_range, Finset.mem_Ico]
      unfold Arc steps
      split_ifs <;> omega
    rw [hset, Nat.card_Ico, steps, if_pos hij]
  · have hset : (Finset.range N).filter (fun x => Arc N i j x) =
        (Finset.range N) \ Finset.Ico j i := by
      ext x
      rw [Finset.mem_filter, Finset.mem_sdiff, Finset.mem_range, Finset.mem_Ico]
      unfold Arc steps
      split_ifs <;> omega
    have hsub : Finset.Ico j i ⊆ Finset.range N := by
      intro x hx
      simp only [Finset.mem_Ico, Finset.mem_range] at *
      omega
    rw [hset, Finset.card_sdiff_of_subset hsub, Finset.card_range, Nat.card_Ico, steps, if_neg hij]
    omega

theorem card_not_arc {N i j : Nat} (hi : i < N) (hj : j < N) :
    ((Finset.range N).filter (fun x => ¬ Arc N i j x)).card = N - steps N i j := by
  have h := Finset.card_filter_add_card_filter_not (s := Finset.range N) (fun x => Arc N i j x)
  rw [card_arc hi hj, Finset.card_range] at h
  omega

end Library.Cyclic
