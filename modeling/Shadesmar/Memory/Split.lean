import Shadesmar.Library.Pieces
import Shadesmar.Memory.Copier

namespace Shadesmar.Memory

open Library Library.Pieces

namespace MTCopier

/-- `(int64_t)n` for a `size_t`. -/
def int64 (n : Nat) : Int := (n : Int).bmod (2 ^ 64)

/-- A `size_t` to which an `int64_t` is added. -/
def addInt64 (n : Nat) (k : Int) : Nat := ((n + k) % 2 ^ 64).toNat

structure PerWorker where
  quot : Int
  rem : Int

/-- `div((int64_t)n, nthreads)`, which rounds towards 0. -/
def perWorker (n nthreads : Nat) : PerWorker where
  quot := (int64 n).tdiv nthreads
  rem := (int64 n).tmod nthreads

/-- The iterations of the loop from thread number `threadIdx` on, with `left` threads to go:
for each the range from `curr_start` to `next_start`. -/
def splitFrom (w : PerWorker) : Nat → Nat → Nat → List (Nat × Nat)
  | 0, _, _ => []
  | left + 1, threadIdx, nextStart =>
    let currStart := nextStart
    let nextStart := addInt64 nextStart w.quot
    let nextStart := if (threadIdx : Int) < w.rem then u64 (nextStart + 1) else nextStart
    (currStart, nextStart) :: splitFrom w left (threadIdx + 1) nextStart

def split (n nthreads : Nat) : List (Nat × Nat) := splitFrom (perWorker n nthreads) nthreads 0 0

def cut (n nthreads t : Nat) : Nat := t * (n / nthreads) + min (n % nthreads) t

section Cut

variable (n nthreads : Nat)

@[simp] theorem cut_zero : cut n nthreads 0 = 0 := by simp [cut]

theorem cut_succ (t : Nat) : cut n nthreads (t + 1) =
    cut n nthreads t + n / nthreads + if t < n % nthreads then 1 else 0 := by
  unfold cut
  rw [Nat.succ_mul]
  split_ifs <;> omega

theorem cut_monotone : Monotone (cut n nthreads) := by
  apply monotone_nat_of_le_succ
  intro t
  rw [cut_succ, Nat.add_assoc]
  exact Nat.le_add_right ..

variable {nthreads}

theorem cut_nthreads (h : 0 < nthreads) : cut n nthreads nthreads = n := by
  have hrem := Nat.mod_lt n h
  unfold cut
  rw [Nat.min_eq_left (Nat.le_of_lt hrem), Nat.div_add_mod]

end Cut

variable {n nthreads : Nat}

theorem perWorker_eq (hn : n < 2 ^ 63) :
    perWorker n nthreads = ⟨(n / nthreads : Nat), (n % nthreads : Nat)⟩ := by
  have hint : int64 n = n := by
    unfold int64
    exact Int.bmod_eq_of_le_mul_two (by omega) (by omega)
  unfold perWorker
  rw [hint]
  rfl

theorem addInt64_cut (hn : n < 2 ^ 63) {t : Nat} (ht : t < nthreads) :
    (if (t : Int) < (n % nthreads : Nat) then
      u64 (addInt64 (cut n nthreads t) (n / nthreads : Nat) + 1)
      else addInt64 (cut n nthreads t) (n / nthreads : Nat)) = cut n nthreads (t + 1) := by
  have hsucc := cut_succ n nthreads t
  have hend := cut_nthreads n (Nat.zero_lt_of_lt ht)
  have hle : cut n nthreads (t + 1) ≤ cut n nthreads nthreads := cut_monotone n nthreads ht
  generalize n / nthreads = quot at *
  have hadd : addInt64 (cut n nthreads t) quot = cut n nthreads t + quot := by
    unfold addInt64
    omega
  rw [hadd, hsucc]
  split_ifs at hsucc ⊢ <;> first | omega | exact u64_eq (by omega)

theorem splitFrom_cut (hn : n < 2 ^ 63) (left t : Nat) (ht : t + left ≤ nthreads) :
    splitFrom (perWorker n nthreads) left t (cut n nthreads t) =
      (List.range' t left).map fun t => (cut n nthreads t, cut n nthreads (t + 1)) := by
  induction left generalizing t with
  | zero => rfl
  | succ left ih =>
    have hstep := addInt64_cut hn (n := n) (show t < nthreads by omega)
    have hrest := ih (t + 1) (by omega)
    rw [perWorker_eq hn] at hrest ⊢
    rw [splitFrom]
    simp only [hstep, hrest]
    rfl

theorem split_eq (hn : n < 2 ^ 63) : split n nthreads = pieces (cut n nthreads) nthreads := by
  have hfrom := splitFrom_cut hn nthreads 0 (Nat.le_of_eq (Nat.zero_add nthreads))
  rw [cut_zero] at hfrom
  rw [split, hfrom, pieces, List.range_eq_range']

theorem threadChunks_cut (n nthreads ptrSize left t : Nat) :
    threadChunks ptrSize (n / nthreads) (n % nthreads) left t (cut n nthreads t) =
      (List.range' t left).map fun t => (ptrSize * cut n nthreads t,
        (cut n nthreads (t + 1) - cut n nthreads t) * ptrSize) := by
  induction left generalizing t with
  | zero => rfl
  | succ left ih =>
    have hnext : (if t < n % nthreads then cut n nthreads t + n / nthreads + 1
        else cut n nthreads t + n / nthreads) = cut n nthreads (t + 1) := by
      rw [cut_succ]
      split_ifs <;> rfl
    rw [threadChunks]
    simp only [hnext, ih]
    rfl

theorem calls_eq_split (b : BaseCopier) (pos : 0 < nthreads)
    (hn : shmalign n b.ptrSize / b.ptrSize < 2 ^ 63) :
    (Copier.multi b nthreads pos).calls n =
      (split (shmalign n b.ptrSize / b.ptrSize) nthreads).map fun r =>
        (b.ptrSize * r.1, (r.2 - r.1) * b.ptrSize) := by
  have hchunks := threadChunks_cut (shmalign n b.ptrSize / b.ptrSize) nthreads b.ptrSize nthreads 0
  rw [cut_zero] at hchunks
  rw [split_eq hn, Copier.calls, hchunks, pieces, List.map_map, List.range_eq_range']
  rfl

/-- The threads get consecutive ranges of the units, whose lengths differ by one at most. -/
theorem split_partition (hn : n < 2 ^ 31) (hpos : 0 < nthreads) :
    (split n nthreads).length = nthreads ∧ Partition (split n nthreads) 0 n ∧
      ∀ r ∈ split n nthreads, ∀ r' ∈ split n nthreads, r.2 - r.1 ≤ r'.2 - r'.1 + 1 := by
  rw [split_eq (Nat.lt_trans hn (by decide))]
  refine ⟨length_pieces .., ?_, ?_⟩
  · have hpart := partition_pieces (cut_monotone n nthreads) nthreads
    rwa [cut_zero, cut_nthreads n hpos] at hpart
  · intro r hr r' hr'
    obtain ⟨t, -, rfl⟩ := mem_pieces.mp hr
    obtain ⟨t', -, rfl⟩ := mem_pieces.mp hr'
    simp only [cut_succ]
    split_ifs <;> omega

theorem split_partition_seven : (split 3 7).length = 7 ∧ Partition (split 3 7) 0 3 ∧
    ∀ r ∈ split 3 7, ∀ r' ∈ split 3 7, r.2 - r.1 ≤ r'.2 - r'.1 + 1 :=
  split_partition (by decide) (by decide)

end MTCopier

end Shadesmar.Memory
