import Shadesmar.Rpc.Table

namespace Shadesmar.Memory

theorem lt_cost {N i n : Nat} (hi : i < N) : n < cost N i n := by
  unfold cost
  split_ifs <;> omega

theorem occupied_append {N i : Nat} (hi : i < N) (ns : List Nat) (n : Nat) :
    occupied N i (ns ++ [n]) = occupied N i ns + cost N ((i + occupied N i ns) % N) n := by
  induction ns generalizing i with
  | nil => simp [occupied, Nat.mod_eq_of_lt hi]
  | cons k ns ih =>
    have hnext : advance N i k < N := Nat.mod_lt _ (Nat.zero_lt_of_lt hi)
    have hstop : (advance N i k + occupied N (advance N i k) ns) % N =
        (i + (cost N i k + occupied N (advance N i k) ns)) % N := by
      rw [← Nat.add_assoc, advance, Nat.mod_add_mod]
    rw [List.cons_append, occupied, ih hnext, occupied, hstop, Nat.add_assoc]

namespace Arena

variable {a : Arena} {b : Block} {size : Nat}

structure Open (a : Arena) : Prop where
  first_lt : a.first < a.words
  used_lt : a.used < a.words

theorem Open.room (h : a.Open) (hb : a.room size = some b) :
    (a.push b).Open ∧ a.used + (size / 4 + 2) ≤ (a.push b).used := by
  unfold Arena.room at hb
  split_ifs at hb with hlimit
  unfold grant at hb
  split_ifs at hb with hopen
  obtain rfl := Option.some.inj hb
  have hstop : a.stop < a.words := Nat.mod_lt _ (Nat.zero_lt_of_lt h.first_lt)
  have hused : (a.push ⟨a.stop, place a.words a.stop (size / 4 + 1), size / 4 + 1⟩).used =
      a.used + cost a.words a.stop (size / 4 + 1) := occupied_append h.first_lt a.sizes _
  have hcost : size / 4 + 1 < cost a.words a.stop (size / 4 + 1) := lt_cost hstop
  refine ⟨⟨h.first_lt, ?_⟩, ?_⟩
  · rw [hused]
    exact hopen
  · omega

end Arena

end Shadesmar.Memory

namespace Shadesmar.Rpc

open Library Library.Refinement Shadesmar.Memory

namespace Table

variable {cb : Callback} {t t' : Table} {n : Nat}

end Table

end Shadesmar.Rpc
