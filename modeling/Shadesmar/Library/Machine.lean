import Mathlib.Algebra.Order.Ring.Nat
import Mathlib.Logic.Relation

/-! Labelled transition systems given by a partial step function.  `run` executes
a list of labels; `Run` is the relation it computes, with a side condition that
every step of the run has to meet in the state in which it is taken. -/

universe u v

namespace Library.Machine

variable {State : Type u} {Label : Type v}

instance two_neZero : NeZero 2 := ⟨by decide⟩

instance three_neZero : NeZero 3 := ⟨by decide⟩

def run (step : State → Label → Option State) : State → List Label → Option State
  | s, [] => some s
  | s, l :: ls => (step s l).bind fun s' => run step s' ls

inductive Run (step : State → Label → Option State) (ok : State → Label → Prop) (s : State) :
    List Label → State → Prop
  | nil : Run step ok s [] s
  | snoc {ls s' l s''} : Run step ok s ls s' → ok s' l → step s' l = some s'' →
      Run step ok s (ls ++ [l]) s''

def Always : State → Label → Prop := fun _ _ => True

variable {step : State → Label → Option State} {ok ok' : State → Label → Prop}

theorem Run.invariant (Inv : State → Prop) {s s' : State} {ls : List Label}
    (h : Run step ok s ls s') (h0 : Inv s)
    (hstep : ∀ t l t', Inv t → ok t l → step t l = some t' → Inv t') : Inv s' := by
  induction h with
  | nil => exact h0
  | snoc _ hok hs ih => exact hstep _ _ _ ih hok hs

theorem Run.weaken {s s' : State} {ls : List Label} (h : Run step ok s ls s')
    (hok : ∀ t l, ok t l → ok' t l) : Run step ok' s ls s' := by
  induction h with
  | nil => exact .nil
  | snoc _ hl hs ih => exact .snoc ih (hok _ _ hl) hs

theorem Run.refine (Inv : State → Prop) {s s' : State} {ls : List Label}
    (h : Run step ok s ls s') (h0 : Inv s)
    (hstep : ∀ l ∈ ls, ∀ t t', Inv t → ok t l → step t l = some t' → Inv t' ∧ ok' t l) :
    Run step ok' s ls s' := by
  have hall : Inv s' ∧ Run step ok' s ls s' := by
    induction h with
    | nil => exact ⟨h0, .nil⟩
    | @snoc ls t l t' _ hl hs ih =>
      obtain ⟨hinv, hrun⟩ := ih fun l' hl' => hstep l' (List.mem_append_left _ hl')
      obtain ⟨hinv', hok⟩ := hstep l (by simp) t t' hinv hl hs
      exact ⟨hinv', hrun.snoc hok hs⟩
  exact hall.2

theorem Run.always {s s' : State} {ls : List Label} (h : Run step ok s ls s') :
    Run step Always s ls s' := h.weaken fun _ _ _ => trivial

theorem Run.trans {s s' s'' : State} {ls ls' : List Label} (h : Run step ok s ls s')
    (h' : Run step ok s' ls' s'') : Run step ok s (ls ++ ls') s'' := by
  induction h' with
  | nil => simpa using h
  | snoc _ hl hs ih => simpa using Run.snoc ih hl hs

theorem run_append (s : State) (ls ls' : List Label) :
    run step s (ls ++ ls') = (run step s ls).bind fun s' => run step s' ls' := by
  induction ls generalizing s with
  | nil => rfl
  | cons l ls ih =>
    simp only [List.cons_append, run]
    cases step s l with
    | none => rfl
    | some s' => exact ih s'

theorem run_cons {s s' : State} {l : Label} (ls : List Label) (h : step s l = some s') :
    run step s (l :: ls) = run step s' ls := by simp [run, h]

theorem run_of_rank {l : Label} (P Done : State → Prop) (rank : State → Nat)
    (hstep : ∀ s, P s → ¬ Done s → ∃ s', step s l = some s' ∧ P s' ∧ (Done s' ∨ rank s' < rank s))
    {s : State} (h : P s) :
    ∃ k s', run step s (List.replicate k l) = some s' ∧ P s' ∧ Done s' := by
  induction hr : rank s using Nat.strongRecOn generalizing s with
  | ind r ih =>
    by_cases hdone : Done s
    · exact ⟨0, s, rfl, h, hdone⟩
    · obtain ⟨s', hs, hp, hnext⟩ := hstep s h hdone
      rcases hnext with hend | hlt
      · exact ⟨1, s', by simp [run, hs], hp, hend⟩
      · obtain ⟨k, t, hrun, ht⟩ := ih (rank s') (hr ▸ hlt) hp rfl
        exact ⟨k + 1, t, (run_cons _ hs).trans hrun, ht⟩

theorem Run.cons {s s' s'' : State} {l : Label} {ls : List Label} (hok : ok s l)
    (hs : step s l = some s') (h : Run step ok s' ls s'') : Run step ok s (l :: ls) s'' :=
  Run.trans (.snoc .nil hok hs) h

theorem Run.of_labels {s s' : State} {ls : List Label} (h : run step s ls = some s')
    (hok : ∀ l ∈ ls, ∀ t, ok t l) : Run step ok s ls s' := by
  induction ls generalizing s with
  | nil =>
    obtain rfl : s = s' := by simpa [run] using h
    exact .nil
  | cons l ls ih =>
    obtain ⟨t, ht, h⟩ := Option.bind_eq_some_iff.mp h
    exact Run.trans (Run.snoc .nil (hok l List.mem_cons_self s) ht)
      (ih h fun l' hl' => hok l' (List.mem_cons_of_mem l hl'))

theorem Run.of_run {s s' : State} {ls : List Label} (h : run step s ls = some s') :
    Run step Always s ls s' := Run.of_labels h fun _ _ _ => trivial

theorem Run.labels {p : Label → Prop} {s s' : State} {ls : List Label}
    (h : Run step (fun _ l => p l) s ls s') : ∀ l ∈ ls, p l := by
  induction h with
  | nil => exact nofun
  | snoc _ hl _ ih =>
    intro l' hl'
    rcases List.mem_append.mp hl' with hold | hlast
    · exact ih l' hold
    · exact List.mem_singleton.mp hlast ▸ hl

def runIf (step : State → Label → Option State) (check : State → Label → Bool) :
    State → List Label → Option State
  | s, [] => some s
  | s, l :: ls => if check s l then (step s l).bind fun s' => runIf step check s' ls else none

theorem Run.of_runIf {check : State → Label → Bool} (hcheck : ∀ s l, check s l = true → ok s l)
    {s s' : State} {ls : List Label} (h : runIf step check s ls = some s') :
    Run step ok s ls s' := by
  induction ls generalizing s with
  | nil =>
    obtain rfl : s = s' := by simpa [runIf] using h
    exact .nil
  | cons l ls ih =>
    by_cases hl : check s l = true
    · rw [runIf, if_pos hl] at h
      obtain ⟨t, ht, h⟩ := Option.bind_eq_some_iff.mp h
      exact Run.trans (Run.snoc .nil (hcheck s l hl) ht) (ih h)
    · rw [runIf, if_neg hl] at h
      cases h

theorem Run.run_eq {s s' : State} {ls : List Label} (h : Run step ok s ls s') :
    run step s ls = some s' := by
  induction h with
  | nil => rfl
  | snoc _ _ hs ih => simp [run_append, ih, run, hs]

theorem Run.cons_inv {s s'' : State} {l : Label} {ls : List Label}
    (h : Run step ok s (l :: ls) s'') :
    ∃ s', ok s l ∧ step s l = some s' ∧ Run step ok s' ls s'' := by
  generalize heq : l :: ls = ks at h
  induction h generalizing ls with
  | nil => cases heq
  | @snoc ks t k t' hpre hok hs ih =>
    cases ks with
    | nil =>
      obtain rfl := Option.some.inj hpre.run_eq
      obtain ⟨rfl, rfl⟩ := List.cons.inj heq
      exact ⟨t', hok, hs, .nil⟩
    | cons l' ks =>
      obtain ⟨rfl, rfl⟩ := List.cons.inj heq
      obtain ⟨r, hfirst, hr, hrest⟩ := ih rfl
      exact ⟨r, hfirst, hr, hrest.snoc hok hs⟩

theorem Run.snoc_iff {s s' s'' : State} {ls : List Label} {l : Label} (h : run step s ls = some s')
    (hs : step s' l = some s'') : Run step ok s (ls ++ [l]) s'' ↔ Run step ok s ls s' ∧ ok s' l := by
  constructor
  · intro hrun
    generalize heq : ls ++ [l] = ls' at hrun
    cases hrun with
    | nil => simp at heq
    | snoc hpre hok _ =>
      obtain ⟨rfl, hl⟩ := List.append_inj' heq rfl
      obtain rfl := List.singleton_inj.mp hl
      obtain rfl := Option.some.inj (h.symm.trans hpre.run_eq)
      exact ⟨hpre, hok⟩
  · rintro ⟨hpre, hok⟩
    exact hpre.snoc hok hs

theorem Run.exact_of (Inv P : State → Prop) {s s' : State} {ls : List Label}
    (h : Run step ok s ls s') (hinv : Inv s) (hp : P s)
    (hstep : ∀ t l t', Inv t → ok t l → step t l = some t' → Inv t' ∧ (P t' ↔ P t ∧ ok' t l)) :
    P s' ↔ Run step ok' s ls s' := by
  have hall : Inv s' ∧ (P s' ↔ Run step ok' s ls s') := by
    induction h with
    | nil => exact ⟨hinv, fun _ => .nil, fun _ => hp⟩
    | snoc hpre hok hs ih =>
      obtain ⟨hinv', hiff⟩ := hstep _ _ _ ih.1 hok hs
      refine ⟨hinv', ?_⟩
      rw [hiff, ih.2, Run.snoc_iff hpre.run_eq hs]
  exact hall.2

theorem Run.exact (Inv P : State → Prop) {s s' : State} {ls : List Label}
    (h : run step s ls = some s') (hinv : Inv s) (hp : P s)
    (hstep : ∀ t l t', Inv t → step t l = some t' → Inv t' ∧ (P t' ↔ P t ∧ ok t l)) :
    P s' ↔ Run step ok s ls s' :=
  Run.exact_of Inv P (Run.of_run h) hinv hp fun t l t' ht _ hs => hstep t l t' ht hs

end Library.Machine
