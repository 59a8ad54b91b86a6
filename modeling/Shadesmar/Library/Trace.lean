import Shadesmar.Library.Machine

universe u v w

namespace Library.Machine

variable {State : Type u} {Label : Type v} {Out : Type w}

def trace (step : State → Label → Option State) (out : State → Label → Out) :
    State → List Label → List Out
  | _, [] => []
  | s, l :: ls =>
    match step s l with
    | none => []
    | some s' => out s l :: trace step out s' ls

def both (step : State → Label → Option State) (p : State × State) (l : Label) :
    Option (State × State) :=
  (step p.1 l).bind fun s' => (step p.2 l).map fun t' => (s', t')

variable {step : State → Label → Option State} {out : State → Label → Out}
variable {s s' t t' : State} {l : Label} {ls : List Label}

theorem trace_cons (h : step s l = some s') :
    trace step out s (l :: ls) = out s l :: trace step out s' ls := by simp only [trace, h]

theorem trace_snoc (h : run step s ls = some s') (hs : step s' l = some t) :
    trace step out s (ls ++ [l]) = trace step out s ls ++ [out s' l] := by
  induction ls generalizing s with
  | nil =>
    obtain rfl : s = s' := by simpa [run] using h
    exact trace_cons hs
  | cons k ls ih =>
    obtain ⟨r, hr, h⟩ := Option.bind_eq_some_iff.mp h
    rw [List.cons_append, trace_cons hr, trace_cons hr, ih h, List.cons_append]

theorem both_eq_some {p : State × State} :
    both step (s, t) l = some p ↔ step s l = some p.1 ∧ step t l = some p.2 := by
  simp only [both, Option.bind_eq_some_iff, Option.map_eq_some_iff]
  constructor
  · rintro ⟨s', hs, t', ht, rfl⟩
    exact ⟨hs, ht⟩
  · rintro ⟨hs, ht⟩
    exact ⟨p.1, hs, p.2, ht, rfl⟩

theorem trace_eq_of_run (Inv : State × State → Prop) (ok : State × State → Label → Prop)
    (hstep : ∀ s t l s' t', Inv (s, t) → ok (s, t) l → step s l = some s' → step t l = some t' →
      out s l = out t l ∧ Inv (s', t'))
    (hinv : Inv (s, t)) (hrun : Run (both step) ok (s, t) ls (s', t')) :
    trace step out s ls = trace step out t ls := by
  induction ls generalizing s t with
  | nil => rfl
  | cons l ls ih =>
    obtain ⟨⟨r, r'⟩, hok, hboth, hrest⟩ := hrun.cons_inv
    obtain ⟨hr, hr'⟩ := both_eq_some.mp hboth
    obtain ⟨hout, hnext⟩ := hstep s t l r r' hinv hok hr hr'
    rw [trace_cons hr, trace_cons hr', hout, ih hnext hrest]

theorem run_of_trace_eq (Inv : State × State → Prop) (ok : State × State → Label → Prop)
    (hstep : ∀ s t l s' t', Inv (s, t) → out s l = out t l → step s l = some s' →
      step t l = some t' → ok (s, t) l ∧ Inv (s', t'))
    (hinv : Inv (s, t)) (hrun : run step s ls = some s')
    (heq : trace step out s ls = trace step out t ls) :
    ∃ t', Run (both step) ok (s, t) ls (s', t') := by
  induction ls generalizing s t with
  | nil =>
    obtain rfl : s = s' := by simpa [run] using hrun
    exact ⟨t, .nil⟩
  | cons l ls ih =>
    obtain ⟨r, hr, hrun⟩ := Option.bind_eq_some_iff.mp hrun
    cases hr' : step t l with
    | none => simp [trace, hr, hr'] at heq
    | some r' =>
      rw [trace_cons hr, trace_cons hr'] at heq
      obtain ⟨hout, htail⟩ := List.cons.inj heq
      obtain ⟨hok, hnext⟩ := hstep s t l r r' hinv hout hr hr'
      obtain ⟨t', hrest⟩ := ih hnext hrun htail
      exact ⟨t', .cons hok (both_eq_some.mpr ⟨hr, hr'⟩) hrest⟩

end Library.Machine
