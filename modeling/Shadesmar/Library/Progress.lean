import Shadesmar.Library.Machine

universe u v w

namespace Library.Progress

open Machine

variable {State : Type u} {Label : Type v} {Who : Type w} [DecidableEq Who]

def turns (who : Label → Who) (i : Who) (ls : List Label) : Nat := ls.countP fun l => who l = i

variable {step : State → Label → Option State} {ok : State → Label → Prop} {s s' : State}
variable {ls : List Label}

theorem rank_add_turns_le (Inv : State → Prop) (who : Label → Who) (rank : State → Who → Nat)
    (hstep : ∀ s l s', Inv s → ok s l → step s l = some s' →
      Inv s' ∧ rank s' (who l) ≤ rank s (who l) - 1 ∧ ∀ i, i ≠ who l → rank s' i ≤ rank s i)
    (hinv : Inv s) (h : Run step ok s ls s') (i : Who) :
    Inv s' ∧ rank s' i ≤ rank s i - turns who i ls := by
  induction h with
  | nil => exact ⟨hinv, Nat.le_refl _⟩
  | @snoc ls t l t' _ hok hs ih =>
    obtain ⟨ht, hle⟩ := ih
    obtain ⟨ht', hown, hothers⟩ := hstep t l t' ht hok hs
    refine ⟨ht', ?_⟩
    unfold turns at hle ⊢
    rw [List.countP_append, List.countP_singleton]
    by_cases hi : who l = i
    · subst hi
      rw [if_pos (by simp)]
      omega
    · have hkept := hothers i (Ne.symm hi)
      rw [if_neg (by simpa using hi)]
      omega

theorem rank_eq_zero (Inv : State → Prop) (who : Label → Who) (rank : State → Who → Nat)
    (hstep : ∀ s l s', Inv s → ok s l → step s l = some s' →
      Inv s' ∧ rank s' (who l) ≤ rank s (who l) - 1 ∧ ∀ i, i ≠ who l → rank s' i ≤ rank s i)
    (hinv : Inv s) (h : Run step ok s ls s') {i : Who} (hturns : rank s i ≤ turns who i ls) :
    rank s' i = 0 := by
  obtain ⟨-, hle⟩ := rank_add_turns_le Inv who rank hstep hinv h i
  omega

theorem until_done (Inv Done : State → Prop) (counted : Label → Bool) (rank : State → Nat)
    (hstep : ∀ s l s', Inv s → ¬ Done s → ok s l → step s l = some s' →
      Done s' ∨ Inv s' ∧ rank s' ≤ rank s - if counted l then 1 else 0)
    (hinv : Inv s) (h : Run step ok s ls s') :
    (∃ ls₁ ls₂ t, ls = ls₁ ++ ls₂ ∧ run step s ls₁ = some t ∧ Done t) ∨
    Inv s' ∧ rank s' ≤ rank s - ls.countP counted := by
  induction h with
  | nil => exact .inr ⟨hinv, Nat.le_refl _⟩
  | @snoc ls t l t' hpre hok hs ih =>
    rcases ih with ⟨ls₁, ls₂, u, rfl, hu, hdone⟩ | ⟨ht, hle⟩
    · exact .inl ⟨ls₁, ls₂ ++ [l], u, List.append_assoc .., hu, hdone⟩
    by_cases hdone : Done t
    · exact .inl ⟨ls, [l], t, rfl, hpre.run_eq, hdone⟩
    rcases hstep t l t' ht hdone hok hs with hnext | ⟨ht', hrank⟩
    · exact .inl ⟨ls ++ [l], [], t', (List.append_nil _).symm, (hpre.snoc hok hs).run_eq, hnext⟩
    · refine .inr ⟨ht', ?_⟩
      rw [List.countP_append, List.countP_singleton]
      omega

theorem exists_run (Inv : State → Prop)
    (hstep : ∀ s l, l ∈ ls → Inv s → ∃ s', step s l = some s' ∧ Inv s') (hinv : Inv s) :
    ∃ s', run step s ls = some s' ∧ Inv s' := by
  induction ls generalizing s with
  | nil => exact ⟨s, rfl, hinv⟩
  | cons l ls ih =>
    obtain ⟨t, ht, hinv'⟩ := hstep s l List.mem_cons_self hinv
    obtain ⟨s', hs', hlast⟩ := ih (fun s l hl => hstep s l (List.mem_cons_of_mem _ hl)) hinv'
    exact ⟨s', (run_cons ls ht).trans hs', hlast⟩

end Library.Progress
