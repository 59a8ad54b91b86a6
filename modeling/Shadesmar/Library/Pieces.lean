import Mathlib.Data.List.Nodup
import Mathlib.Data.List.Range
import Mathlib.Data.Nat.SuccPred
import Mathlib.Data.Set.Lattice
import Mathlib.Order.CompletePartialOrder
import Mathlib.Order.SuccPred.IntervalSucc

universe u

namespace Library.Pieces

structure Partition {α : Type u} [Preorder α] (rs : List (α × α)) (a b : α) : Prop where
  consecutive : rs.IsChain fun r r' => r.2 = r'.1
  ordered : ∀ r ∈ rs, r.1 ≤ r.2
  union : (⋃ r ∈ rs, Set.Ico r.1 r.2) = Set.Ico a b
  disjoint : rs.Pairwise fun r r' => Disjoint (Set.Ico r.1 r.2) (Set.Ico r'.1 r'.2)

variable {α : Type u}

def pieces (cut : Nat → α) (k : Nat) : List (α × α) :=
  (List.range k).map fun t => (cut t, cut (t + 1))

variable {cut : Nat → α} {k : Nat}

@[simp] theorem length_pieces (cut : Nat → α) (k : Nat) : (pieces cut k).length = k := by
  simp [pieces]

theorem mem_pieces {r : α × α} : r ∈ pieces cut k ↔ ∃ t < k, r = (cut t, cut (t + 1)) := by
  simp [pieces, eq_comm]

theorem pieces_succ (cut : Nat → α) (k : Nat) :
    pieces cut (k + 1) = pieces cut k ++ [(cut k, cut (k + 1))] := by
  simp [pieces, List.range_succ]

variable [LinearOrder α]

theorem union_pieces (h : Monotone cut) (k : Nat) :
    (⋃ r ∈ pieces cut k, Set.Ico r.1 r.2) = Set.Ico (cut 0) (cut k) := by
  induction k with
  | zero => simp [pieces]
  | succ k ih =>
    have hlo : cut 0 ≤ cut k := h (Nat.zero_le k)
    have hhi : cut k ≤ cut (k + 1) := h (Nat.le_succ k)
    rw [← Set.Ico_union_Ico_eq_Ico hlo hhi, ← ih, pieces_succ]
    simp only [List.mem_append, List.mem_singleton, Set.iUnion_or, Set.iUnion_union_distrib,
      Set.iUnion_iUnion_eq_left]

theorem pairwise_disjoint_pieces (h : Monotone cut) (k : Nat) :
    (pieces cut k).Pairwise fun r r' => Disjoint (Set.Ico r.1 r.2) (Set.Ico r'.1 r'.2) := by
  rw [pieces, List.pairwise_map]
  exact List.nodup_range.pairwise_of_forall_ne fun _ _ _ _ hne =>
    h.pairwise_disjoint_on_Ico_succ hne

theorem partition_pieces (h : Monotone cut) (k : Nat) :
    Partition (pieces cut k) (cut 0) (cut k) := by
  refine ⟨?_, ?_, union_pieces h k, pairwise_disjoint_pieces h k⟩
  · rw [pieces, List.isChain_map]
    exact (List.isChain_range _ k).mpr fun _ _ => rfl
  · intro r hr
    obtain ⟨t, -, rfl⟩ := mem_pieces.mp hr
    exact h (Nat.le_succ t)

end Library.Pieces
