import Mathlib.Data.Nat.Bitwise
import Mathlib.Tactic.SplitIfs

namespace Library.Rounding

def roundUp (m n : Nat) : Nat := m * ((n + m - 1) / m)

variable {m n k : Nat}

theorem dvd_roundUp (m n : Nat) : m ∣ roundUp m n := Nat.dvd_mul_right ..

@[simp] theorem roundUp_zero (m : Nat) : roundUp m 0 = 0 := by
  unfold roundUp
  rcases Nat.eq_zero_or_pos m with rfl | hm
  · rfl
  · rw [Nat.div_eq_of_lt (by omega), Nat.mul_zero]

@[simp] theorem roundUp_one (n : Nat) : roundUp 1 n = n := by simp [roundUp]

theorem le_roundUp (hm : 0 < m) : n ≤ roundUp m n := by
  have hdiv := Nat.div_add_mod (n + m - 1) m
  have hmod := Nat.mod_lt (n + m - 1) hm
  unfold roundUp
  omega

theorem roundUp_lt (hm : 0 < m) : roundUp m n < n + m := by
  have hle := Nat.mul_div_le (n + m - 1) m
  unfold roundUp
  omega

theorem roundUp_le (hm : 0 < m) (hk : m ∣ k) (hle : n ≤ k) : roundUp m n ≤ k := by
  obtain ⟨j, rfl⟩ := hk
  have hlt : (n + m - 1) / m < j + 1 := by
    rw [Nat.div_lt_iff_lt_mul hm, Nat.add_mul, Nat.mul_comm j]
    omega
  exact Nat.mul_le_mul_left m (Nat.le_of_lt_succ hlt)

theorem roundUp_eq_iff (hm : 0 < m) : roundUp m n = n ↔ m ∣ n := by
  constructor
  · intro heq
    rw [← heq]
    exact dvd_roundUp m n
  · intro hdvd
    exact Nat.le_antisymm (roundUp_le hm hdvd (Nat.le_refl n)) (le_roundUp hm)

theorem roundUp_add_one (hm : 0 < m) (n : Nat) :
    roundUp m (n + 1) = if m ∣ n then n + m else roundUp m n := by
  have hle := le_roundUp (n := n) hm
  have hlt := roundUp_lt (n := n) hm
  have hle' := le_roundUp (n := n + 1) hm
  have hlt' := roundUp_lt (n := n + 1) hm
  split_ifs with hdvd
  · have hadd : m ∣ n + m := Nat.dvd_add hdvd (Nat.dvd_refl m)
    have hgap : m ∣ n + m - roundUp m (n + 1) := Nat.dvd_sub hadd (dvd_roundUp m _)
    have hzero := Nat.eq_zero_of_dvd_of_lt hgap (by omega)
    have hupper := roundUp_le hm hadd (show n + 1 ≤ n + m by omega)
    omega
  · have hne : roundUp m n ≠ n := mt (roundUp_eq_iff hm).mp hdvd
    apply Nat.le_antisymm
    · exact roundUp_le hm (dvd_roundUp m n) (by omega)
    · exact roundUp_le hm (dvd_roundUp m (n + 1)) (by omega)

theorem roundUp_roundUp (hm : 0 < m) (hk : 0 < k) (hdvd : k ∣ m) :
    roundUp m (roundUp k n) = roundUp m n := by
  apply Nat.le_antisymm
  · have hinner := roundUp_le hk (Nat.dvd_trans hdvd (dvd_roundUp m n)) (le_roundUp hm)
    exact roundUp_le hm (dvd_roundUp m n) hinner
  · exact roundUp_le hm (dvd_roundUp m _) (Nat.le_trans (le_roundUp hk) (le_roundUp hm))

theorem roundUp_mul (hk : 0 < k) (hm : 0 < m) (n : Nat) :
    roundUp (k * m) (k * n) = k * roundUp m n := by
  have hkm : 0 < k * m := Nat.mul_pos hk hm
  apply Nat.le_antisymm
  · exact roundUp_le hkm (Nat.mul_dvd_mul_left k (dvd_roundUp m n))
      (Nat.mul_le_mul_left k (le_roundUp hm))
  · obtain ⟨j, hj⟩ := dvd_roundUp (k * m) (k * n)
    have hle := le_roundUp (n := k * n) hkm
    rw [hj, Nat.mul_assoc] at hle ⊢
    exact Nat.mul_le_mul_left k
      (roundUp_le hm (Nat.dvd_mul_right m j) (Nat.le_of_mul_le_mul_left hle hk))

theorem or_two_pow_sub_one {x : Nat} (h : x < 2 ^ k) : x ||| (2 ^ k - 1) = 2 ^ k - 1 := by
  apply Nat.eq_of_testBit_eq
  intro i
  rw [Nat.testBit_or, Nat.testBit_two_pow_sub_one]
  by_cases hi : i < k
  · simp [hi]
  · have hle : x < 2 ^ i := Nat.lt_of_lt_of_le h (Nat.pow_le_pow_right (by decide) (by omega))
    simp [hi, Nat.testBit_lt_two_pow hle]

theorem or_mask (x k : Nat) : x ||| (2 ^ k - 1) = 2 ^ k * (x / 2 ^ k) + (2 ^ k - 1) := by
  have hpos := Nat.two_pow_pos k
  have hlt : x % 2 ^ k < 2 ^ k := Nat.mod_lt _ hpos
  calc
    x ||| (2 ^ k - 1) = (2 ^ k * (x / 2 ^ k) ||| x % 2 ^ k) ||| (2 ^ k - 1) := by
      rw [← Nat.two_pow_add_eq_or_of_lt hlt, Nat.div_add_mod]
    _ = 2 ^ k * (x / 2 ^ k) ||| (2 ^ k - 1) := by
      rw [Nat.or_assoc, or_two_pow_sub_one hlt]
    _ = 2 ^ k * (x / 2 ^ k) + (2 ^ k - 1) := by
      rw [Nat.two_pow_add_eq_or_of_lt (by omega)]

theorem or_mask_add_one (hn : 0 < n) (k : Nat) :
    ((n - 1) ||| (2 ^ k - 1)) + 1 = roundUp (2 ^ k) n := by
  have hpos := Nat.two_pow_pos k
  have hsum : n + 2 ^ k - 1 = n - 1 + 2 ^ k := by omega
  rw [or_mask, roundUp, hsum, Nat.add_div_right _ hpos, Nat.mul_succ]
  omega

end Library.Rounding
