import Shadesmar.Library.Moments
import Shadesmar.Memory.Allocator
import Mathlib.Algebra.Field.Rat

/-! The running mean and variance of `stats.h`, over exact rational numbers.  The number of
values is a `size_t`. -/

namespace Shadesmar.Stats

open Library Library.Moments Shadesmar.Memory

structure Welford where
  n : Nat
  oldMean : ℚ
  newMean : ℚ
  oldDev : ℚ
  newDev : ℚ
  deriving DecidableEq

namespace Welford

/-- The quotient by the number of values, which is 0 after it has wrapped; `byZero` is
whatever the division yields then. -/
def quotient (byZero : ℚ → ℚ) (x : ℚ) (n : Nat) : ℚ := if n = 0 then byZero x else x / n

def clear (_ : Welford) : Welford where
  n := 0
  oldMean := 0
  newMean := 0
  oldDev := 0
  newDev := 0

def new : Welford := clear ⟨0, 0, 0, 0, 0⟩

def add (byZero : ℚ → ℚ) (w : Welford) (value : ℚ) : Welford :=
  let n := u64 (w.n + 1)
  if n = 1 then
    { w with n := n, newMean := value, oldMean := value, oldDev := 0 }
  else
    let newMean := w.oldMean + quotient byZero (value - w.oldMean) n
    let newDev := w.oldDev + (value - w.oldMean) * (value - newMean)
    ⟨n, newMean, newMean, newDev, newDev⟩

def size (w : Welford) : Nat := w.n

def mean (w : Welford) : ℚ := if w.n > 0 then w.newMean else 0

def variance (w : Welford) : ℚ := if w.n > 1 then w.newDev / ((w.n - 1 : Nat) : ℚ) else 0

end Welford

inductive Call
  | add (value : ℚ)
  | clear
  deriving DecidableEq

def Welford.call (byZero : ℚ → ℚ) (w : Welford) : Call → Welford
  | .add value => w.add byZero value
  | .clear => w.clear

def run (byZero : ℚ → ℚ) (calls : List Call) : Welford := calls.foldl (Welford.call byZero) .new

def Call.extend (xs : List ℚ) : Call → List ℚ
  | .add value => xs ++ [value]
  | .clear => []

def current (calls : List Call) : List ℚ := calls.foldl Call.extend []

/-- What is left of the values when the number of them is taken modulo `2 ^ 64`. -/
def kept (xs : List ℚ) : List ℚ := xs.drop (xs.length / 2 ^ 64 * 2 ^ 64)

structure Exact (w : Welford) (xs : List ℚ) : Prop where
  size_eq : w.size = xs.length
  mean_eq : w.mean = if 0 < xs.length then xs.sum / xs.length else 0
  variance_eq : w.variance = if 1 < xs.length then
    (xs.map fun x => (x - xs.sum / xs.length) ^ 2).sum / ((xs.length - 1 : Nat) : ℚ) else 0

/-- The fields after the values `xs`.  What `new_dev` holds after the first of them, and the
means after none, are never shown. -/
structure Tracks (w : Welford) (xs : List ℚ) : Prop where
  n_eq : w.n = xs.length
  length_lt : xs.length < 2 ^ 64
  means : 0 < xs.length → w.oldMean = Moments.mean xs ∧ w.newMean = Moments.mean xs
  oldDev : 0 < xs.length → w.oldDev = sumSqDev xs
  newDev : 1 < xs.length → w.newDev = sumSqDev xs

section Kept

theorem kept_eq {xs : List ℚ} (h : xs.length < 2 ^ 64) : kept xs = xs := by
  unfold kept
  rw [Nat.div_eq_of_lt h, Nat.zero_mul, List.drop_zero]

theorem length_kept (xs : List ℚ) : (kept xs).length = xs.length % 2 ^ 64 := by
  unfold kept
  rw [List.length_drop, ← Nat.mod_eq_sub_div_mul]

theorem kept_concat (xs : List ℚ) (x : ℚ) : kept (xs ++ [x]) =
    if (kept xs).length + 1 = 2 ^ 64 then [] else kept xs ++ [x] := by
  rw [length_kept]
  unfold kept
  rw [List.length_append, List.length_singleton]
  split_ifs with hfull
  · have hnext : (xs.length + 1) / 2 ^ 64 * 2 ^ 64 = xs.length + 1 := by omega
    rw [hnext, List.drop_eq_nil_iff]
    simp
  · have hsame : (xs.length + 1) / 2 ^ 64 * 2 ^ 64 = xs.length / 2 ^ 64 * 2 ^ 64 := by omega
    rw [hsame, List.drop_append_of_le_length (Nat.div_mul_le_self ..)]

theorem kept_nil : kept [] = [] := kept_eq (show 0 < 2 ^ 64 by decide)

end Kept

variable {byZero : ℚ → ℚ} {w : Welford} {xs : List ℚ}

theorem tracks_nil (h : w.n = 0) : Tracks w [] where
  n_eq := h
  length_lt := by decide
  means := fun hp => absurd hp (Nat.lt_irrefl 0)
  oldDev := fun hp => absurd hp (Nat.lt_irrefl 0)
  newDev := fun hp => absurd hp (Nat.not_lt_zero 1)

theorem tracks_new : Tracks .new [] := tracks_nil rfl

theorem Tracks.add (h : Tracks w xs) (x : ℚ) :
    Tracks (w.add byZero x) (if xs.length + 1 = 2 ^ 64 then [] else xs ++ [x]) := by
  obtain ⟨hn, hlt, hmeans, hold, -⟩ := h
  split_ifs with hfull
  · have hzero : u64 (w.n + 1) = 0 := by
      rw [hn, hfull]
      unfold u64
      exact Nat.mod_self _
    apply tracks_nil
    unfold Welford.add
    rw [hzero]
    rfl
  · have hcount : u64 (w.n + 1) = xs.length + 1 := by
      rw [hn]
      exact u64_eq (by omega)
    have hlen : (xs ++ [x]).length = xs.length + 1 := by simp
    unfold Welford.add
    rw [hcount]
    dsimp only
    split_ifs with hfirst
    · obtain rfl : xs = [] := List.eq_nil_of_length_eq_zero (by omega)
      have hmean : x = Moments.mean [x] := (mean_singleton x).symm
      exact ⟨rfl, show 1 < 2 ^ 64 by decide, fun _ => ⟨hmean, hmean⟩,
        fun _ => (sumSqDev_singleton x).symm, fun hp => absurd hp (Nat.lt_irrefl 1)⟩
    · have hpos : 0 < xs.length := by omega
      obtain ⟨hmean, -⟩ := hmeans hpos
      have hnew : w.oldMean + Welford.quotient byZero (x - w.oldMean) (xs.length + 1) =
          Moments.mean (xs ++ [x]) := by
        rw [hmean, mean_concat, Welford.quotient, if_neg (Nat.succ_ne_zero _), Nat.cast_succ]
      have hdev : w.oldDev + (x - w.oldMean) * (x - Moments.mean (xs ++ [x])) =
          sumSqDev (xs ++ [x]) := by
        rw [hmean, hold hpos, ← sumSqDev_concat]
      rw [hnew, hdev]
      exact ⟨hlen.symm, by omega, fun _ => ⟨rfl, rfl⟩, fun _ => rfl, fun _ => rfl⟩

theorem Tracks.exact (h : Tracks w xs) : Exact w xs := by
  obtain ⟨hn, -, hmeans, -, hdev⟩ := h
  constructor
  · exact hn
  · unfold Welford.mean
    rw [hn]
    split_ifs with hpos
    · exact (hmeans hpos).2
    · rfl
  · unfold Welford.variance
    rw [hn]
    split_ifs with hmany
    · rw [hdev hmany]
      rfl
    · rfl

theorem Tracks.call (h : Tracks w (kept xs)) (c : Call) :
    Tracks (w.call byZero c) (kept (c.extend xs)) := by
  cases c with
  | add value =>
    rw [Call.extend, kept_concat]
    exact h.add value
  | clear =>
    rw [Call.extend, kept_nil]
    exact tracks_new

theorem tracks_run (byZero : ℚ → ℚ) (calls : List Call) :
    Tracks (run byZero calls) (kept (current calls)) := by
  induction calls using List.reverseRecOn with
  | nil =>
    rw [current, List.foldl_nil, kept_nil]
    exact tracks_new
  | append_singleton calls c ih =>
    unfold run current
    rw [List.foldl_append, List.foldl_append]
    exact ih.call c

theorem Exact.mean (h : Exact w xs) : w.mean = if 0 < xs.length then Moments.mean xs else 0 :=
  h.mean_eq

theorem Exact.variance (h : Exact w xs) :
    w.variance = if 1 < xs.length then sumSqDev xs / ((xs.length - 1 : Nat) : ℚ) else 0 :=
  h.variance_eq

theorem Exact.perm {w' : Welford} {ys : List ℚ} (h : Exact w xs) (h' : Exact w' ys)
    (hperm : xs.Perm ys) : w'.size = w.size ∧ w'.mean = w.mean ∧ w'.variance = w.variance := by
  have hlen := hperm.length_eq
  refine ⟨?_, ?_, ?_⟩
  · rw [h.size_eq, h'.size_eq, hlen]
  · rw [h.mean, h'.mean, mean_perm hperm, hlen]
  · rw [h.variance, h'.variance, sumSqDev_perm hperm, hlen]

/-- The accumulator is exact for the values since the last `clear`, all of them when there are
fewer than `2 ^ 64`, and their order does not matter. -/
theorem welford_exact (byZero : ℚ → ℚ) (calls : List Call) :
    Exact (run byZero calls) (kept (current calls)) ∧
    ((current calls).length < 2 ^ 64 → kept (current calls) = current calls) ∧
    ∀ calls', (kept (current calls)).Perm (kept (current calls')) →
      (run byZero calls').size = (run byZero calls).size ∧
      (run byZero calls').mean = (run byZero calls).mean ∧
      (run byZero calls').variance = (run byZero calls).variance := by
  have hexact := (tracks_run byZero calls).exact
  exact ⟨hexact, kept_eq, fun calls' hperm => hexact.perm (tracks_run byZero calls').exact hperm⟩

theorem current_replicate (n : Nat) (x : ℚ) :
    current (List.replicate n (.add x)) = List.replicate n x := by
  induction n with
  | zero => rfl
  | succ n ih =>
    rw [List.replicate_succ', List.replicate_succ', ← ih]
    unfold current
    rw [List.foldl_append]
    rfl

/-- After `2 ^ 64` values the accumulator shows none. -/
theorem count_wraps : ∃ calls : List Call, (current calls).length = 2 ^ 64 ∧
    (run (fun _ => 0) calls).size ≠ (current calls).length ∧
    (run (fun _ => 0) calls).mean ≠ (current calls).sum / (current calls).length := by
  obtain ⟨n, hn⟩ : ∃ n : Nat, n = 2 ^ 64 := ⟨_, rfl⟩
  have hcurrent := current_replicate n 1
  have hlen : (current (List.replicate n (.add 1))).length = n := by
    rw [hcurrent, List.length_replicate]
  have hkept : (kept (current (List.replicate n (.add 1)))).length = 0 := by
    rw [length_kept, hlen, hn, Nat.mod_self]
  have hexact := (tracks_run (fun _ => 0) (List.replicate n (.add 1))).exact
  refine ⟨List.replicate n (.add 1), hlen.trans hn, ?_, ?_⟩
  · rw [hexact.size_eq, hkept, hlen]
    omega
  · have hpos : (n : ℚ) ≠ 0 := Nat.cast_ne_zero.mpr (by omega)
    rw [hexact.mean_eq, hkept, if_neg (Nat.lt_irrefl 0), hlen, hcurrent, List.sum_replicate,
      nsmul_one, div_self hpos]
    exact zero_ne_one

end Shadesmar.Stats
