import Shadesmar.Library.Machine

universe u v w x y

namespace Library.Refinement

open Machine

variable {S : Type u} {T : Type v} {Label : Type x} {Out : Type y}

/-- `none` if one of the calls cannot be made. -/
def exec (call : S → Label → Option (Out × S)) : S → List Label → Option (List Out × S)
  | s, [] => some ([], s)
  | s, l :: ls => (call s l).bind fun r => (exec call r.2 ls).map fun q => (r.1 :: q.1, q.2)

def outputs (call : S → Label → Option (Out × S)) (s : S) (ls : List Label) : Option (List Out) :=
  (exec call s ls).map Prod.fst

def Agree {V : Type y} (R : S → T → Prop) (p : V × S) (q : V × T) : Prop := p.1 = q.1 ∧ R p.2 q.2

def Matches (R : S → T → Prop) (call : S → Label → Option (Out × S))
    (call' : T → Label → Option (Out × T)) : Prop :=
  ∀ s t, R s t → ∀ l, Option.Rel (Agree R) (call s l) (call' t l)

variable {call : S → Label → Option (Out × S)} {call' : T → Label → Option (Out × T)}
variable {R : S → T → Prop} {s s₁ s₂ : S} {t : T}

theorem exec_append (s : S) (ls ls' : List Label) :
    exec call s (ls ++ ls') = (exec call s ls).bind fun r =>
      (exec call r.2 ls').map fun q => (r.1 ++ q.1, q.2) := by
  induction ls generalizing s with
  | nil => simp [exec]
  | cons l ls ih =>
    rw [List.cons_append, exec, exec]
    cases call s l with
    | none => rfl
    | some r =>
      simp only [Option.bind_some, ih]
      cases exec call r.2 ls with
      | none => rfl
      | some q => simp [Option.map_map, Function.comp_def]

theorem outputs_cons {l : Label} {o : Out} {s s' : S} (h : call s l = some (o, s'))
    (ls : List Label) : outputs call s (l :: ls) = (outputs call s' ls).map (o :: ·) := by
  rw [outputs, exec, h, Option.bind_some, outputs, Option.map_map, Option.map_map]
  rfl

theorem run_eq (s : S) (ls : List Label) :
    run (fun s l => (call s l).map Prod.snd) s ls = (exec call s ls).map Prod.snd := by
  induction ls generalizing s with
  | nil => rfl
  | cons l ls ih =>
    rw [run, exec]
    cases call s l with
    | none => rfl
    | some r => simp [ih, Function.comp_def]

theorem exec_invariant (Inv : S → Prop)
    (hcall : ∀ s l r s', Inv s → call s l = some (r, s') → Inv s') {s s' : S} {ls : List Label}
    {os : List Out} (h : exec call s ls = some (os, s')) (h0 : Inv s) : Inv s' := by
  have hrun : run (fun s l => (call s l).map Prod.snd) s ls = _ := run_eq s ls
  rw [h] at hrun
  apply (Run.of_run hrun).invariant Inv h0
  intro t l t' ht _ hs
  obtain ⟨⟨r, u⟩, hc, rfl⟩ := Option.map_eq_some_iff.mp hs
  exact hcall t l r u ht hc

theorem exec_map {f : Label → Label} (hf : ∀ s l, call s (f l) = call s l) (s : S)
    (ls : List Label) : exec call s (ls.map f) = exec call s ls := by
  induction ls generalizing s with
  | nil => rfl
  | cons l ls ih => simp only [List.map_cons, exec, hf, ih]

namespace Matches

theorem exec (h : Matches R call call') (hst : R s t) (ls : List Label) :
    Option.Rel (Agree R) (Refinement.exec call s ls) (Refinement.exec call' t ls) := by
  induction ls generalizing s t with
  | nil => exact .some ⟨rfl, hst⟩
  | cons l ls ih =>
    have hl := h s t hst l
    rw [Refinement.exec, Refinement.exec]
    generalize call s l = p at hl ⊢
    generalize call' t l = q at hl ⊢
    cases hl with
    | none => exact .none
    | @some p q hpq =>
      have hrest := ih hpq.2
      simp only [Option.bind_some]
      generalize Refinement.exec call p.2 ls = p' at hrest ⊢
      generalize Refinement.exec call' q.2 ls = q' at hrest ⊢
      cases hrest with
      | none => exact .none
      | some hpq' => exact .some ⟨congrArg₂ List.cons hpq.1 hpq'.1, hpq'.2⟩

theorem exec_eq_some (h : Matches R call call') (hst : R s t) {ls : List Label} {os : List Out}
    {s' : S} (hs : Refinement.exec call s ls = some (os, s')) :
    ∃ t', Refinement.exec call' t ls = some (os, t') ∧ R s' t' := by
  have hexec := h.exec hst ls
  rw [hs] at hexec
  generalize Refinement.exec call' t ls = q at hexec ⊢
  cases hexec with
  | @some _ q hpq =>
    obtain ⟨rfl, hrel⟩ := hpq
    exact ⟨q.2, rfl, hrel⟩

theorem outputs (h : Matches R call call') (hst : R s t) (ls : List Label) :
    Refinement.outputs call s ls = Refinement.outputs call' t ls := by
  have hexec := h.exec hst ls
  unfold Refinement.outputs
  generalize Refinement.exec call s ls = p at hexec ⊢
  generalize Refinement.exec call' t ls = q at hexec ⊢
  cases hexec with
  | none => rfl
  | some hpq => exact congrArg some hpq.1

theorem outputs_eq (h : Matches R call call') (h₁ : R s₁ t) (h₂ : R s₂ t) (ls : List Label) :
    Refinement.outputs call s₁ ls = Refinement.outputs call s₂ ls :=
  (h.outputs h₁ ls).trans (h.outputs h₂ ls).symm

end Matches

section Placing

variable {Base : Type w} (call) (move : Base → S → S) (place : Label → Base)

def placed (s : S) (l : Label) : Option (Out × S) := call (move (place l) s) l

theorem outputs_placed (Inv : S → Prop) (Ok : Base → Prop)
    (hmove : ∀ b b' s, move b (move b' s) = move b s)
    (hcall : ∀ s l b, Inv s → Ok b → call (move b s) l = (call s l).map fun r => (r.1, move b r.2))
    (hinv : ∀ s l r s', Inv s → call s l = some (r, s') → Inv s') {s : S} (h : Inv s)
    {ls : List Label} (hplace : ∀ l ∈ ls, Ok (place l)) :
    outputs (placed call move place) s ls = outputs call s ls := by
  -- the two states look the same from every place
  suffices ∀ t, (∀ b, move b t = move b s) →
      outputs (placed call move place) t ls = outputs call s ls from this s fun _ => rfl
  induction ls generalizing s with
  | nil => exact fun _ _ => rfl
  | cons l ls ih =>
    intro t hsame
    have hl : placed call move place t l =
        (call s l).map fun r => (r.1, move (place l) r.2) := by
      rw [placed, hsame]
      exact hcall s l _ h (hplace l List.mem_cons_self)
    cases hs : call s l with
    | none =>
      rw [hs] at hl
      simp [outputs, exec, hl, hs]
    | some r =>
      have hright : call s l = some (r.1, r.2) := hs
      rw [hs, Option.map_some] at hl
      rw [outputs_cons hl, outputs_cons hright]
      exact congrArg (Option.map (r.1 :: ·)) (ih (hinv s l r.1 r.2 h hs)
        (fun l' hl' => hplace l' (List.mem_cons_of_mem l hl')) _ fun b => hmove b _ r.2)

end Placing

section Hiding

variable {step : S → Label → Option S} {shown : Label → Bool} {R : S → S → Prop}

theorem run_filter
    (hhidden : ∀ s t l s', R s t → shown l = false → step s l = some s' → R s' t)
    (hshown : ∀ s t l s', R s t → shown l = true → step s l = some s' →
      ∃ t', step t l = some t' ∧ R s' t')
    {s t s' : S} {ls : List Label} (hst : R s t) (hrun : run step s ls = some s') :
    ∃ t', run step t (ls.filter shown) = some t' ∧ R s' t' := by
  induction ls generalizing s t with
  | nil =>
    obtain rfl : s = s' := by simpa [run] using hrun
    exact ⟨t, rfl, hst⟩
  | cons l ls ih =>
    obtain ⟨r, hr, hrun⟩ := Option.bind_eq_some_iff.mp hrun
    cases hl : shown l with
    | false =>
      rw [List.filter_cons_of_neg (by simp [hl])]
      exact ih (hhidden s t l r hst hl hr) hrun
    | true =>
      obtain ⟨r', hr', hrel⟩ := hshown s t l r hst hl hr
      rw [List.filter_cons_of_pos hl, run_cons _ hr']
      exact ih hrel hrun

end Hiding

end Library.Refinement
