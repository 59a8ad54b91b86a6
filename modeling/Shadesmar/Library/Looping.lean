import Shadesmar.Library.Progress

universe u v

namespace Library.Looping

open Machine Progress

inductive Pc
  | returned
  | enter
  | test
  | body
  deriving DecidableEq

/-- The operation is a sequence of steps of a larger system: `mine` are the steps of the thread,
and `idle` says that it is between two calls. -/
structure Body (State : Type u) (L : Type v) where
  step : State → L → Option State
  idle : State → Bool
  mine : L → Bool

structure Loop (State : Type u) where
  inner : State
  running : Bool
  pc : Pc

inductive Label (L : Type v)
  | inner (l : L)
  | call
  | stop
  | go

variable {State : Type u} {L : Type v}

namespace Label

def toInner : Label L → Option L
  | inner l => some l
  | _ => none

def Admitted (ok : L → Prop) : Label L → Prop
  | inner l => ok l
  | _ => True

theorem admitted_toInner {ok : L → Prop} {ls : List (Label L)} (h : ∀ l ∈ ls, l.Admitted ok) :
    ∀ k ∈ ls.filterMap toInner, ok k := by
  intro k hk
  obtain ⟨l, hl, hinner⟩ := List.mem_filterMap.mp hk
  cases l with
  | inner l =>
    obtain rfl := Option.some.inj hinner
    exact h _ hl
  | call | stop | go => cases hinner

end Label

def Body.owns (b : Body State L) : Label L → Bool
  | .inner l => b.mine l
  | .go => true
  | .call | .stop => false

namespace Loop

def step (b : Body State L) (s : Loop State) : Label L → Option (Loop State)
  | .inner l =>
    if b.mine l then
      if s.pc = .body then
        (b.step s.inner l).map fun t => ⟨t, s.running, if b.idle t then .test else .body⟩
      else none
    else (b.step s.inner l).map fun t => { s with inner := t }
  | .call => if s.pc = .returned then some { s with pc := .enter } else none
  | .stop => some { s with running := false }
  | .go =>
    match s.pc with
    | .enter => some { s with running := true, pc := .test }
    | .test => some { s with pc := if s.running then .body else .returned }
    | .returned | .body => none

def Going (s : Loop State) : Prop := s.pc = .enter ∨ s.pc ≠ .returned ∧ s.running = true

def Stopping (s : Loop State) : Prop := s.running = false ∧ (s.pc = .test ∨ s.pc = .body)

variable {b : Body State L} {s s' : Loop State} {l : Label L} {ls : List (Label L)}

theorem step_body {l : L} {t : State} (hpc : s.pc = .body) (hmine : b.mine l = true)
    (hs : b.step s.inner l = some t) :
    s.step b (.inner l) = some ⟨t, s.running, if b.idle t then .test else .body⟩ := by
  simp only [Loop.step, hs]
  rw [if_pos hmine, if_pos hpc]
  rfl

theorem Going.step (h : s.Going) (hstop : l = .stop → s.pc = .enter) (hs : s.step b l = some s') :
    s'.Going := by
  cases l with
  | inner l =>
    simp only [Loop.step] at hs
    split_ifs at hs with hmine hbody
    · obtain ⟨t, -, rfl⟩ := Option.map_eq_some_iff.mp hs
      rcases h with henter | ⟨-, hrunning⟩
      · rw [hbody] at henter
        cases henter
      · refine .inr ⟨?_, hrunning⟩
        dsimp only
        split_ifs <;> nofun
    · obtain ⟨t, -, rfl⟩ := Option.map_eq_some_iff.mp hs
      exact h
  | call =>
    simp only [Loop.step] at hs
    split_ifs at hs
    obtain rfl := Option.some.inj hs
    exact .inl rfl
  | stop =>
    obtain rfl := Option.some.inj hs
    exact .inl (hstop rfl)
  | go =>
    simp only [Loop.step] at hs
    cases hpc : s.pc with
    | returned | body => simp [hpc] at hs
    | enter =>
      simp only [hpc] at hs
      obtain rfl := Option.some.inj hs
      exact .inr ⟨nofun, rfl⟩
    | test =>
      simp only [hpc] at hs
      obtain rfl := Option.some.inj hs
      rcases h with henter | ⟨-, hrunning⟩
      · rw [hpc] at henter
        cases henter
      · refine .inr ⟨?_, hrunning⟩
        simp [hrunning]

theorem Going.pc_ne (h : s.Going) : s.pc ≠ .returned := by
  rcases h with henter | ⟨hpc, -⟩
  · rw [henter]
    nofun
  · exact hpc

/-- The thread does not return unless it is told to, and one that is told so before it has set
the flag is not told so. -/
theorem Going.run (h : s.Going)
    (hrun : Run (Loop.step b) (fun t l => l = .stop → t.pc = .enter) s ls s') : s'.pc ≠ .returned :=
  (hrun.invariant Going h fun _ _ _ ht hstop hs => ht.step hstop hs).pc_ne

theorem run_inner (h : run (step b) s ls = some s') :
    run b.step s.inner (ls.filterMap Label.toInner) = some s'.inner := by
  induction ls generalizing s with
  | nil =>
    obtain rfl := Option.some.inj h
    rfl
  | cons l ls ih =>
    obtain ⟨t, ht, h⟩ := Option.bind_eq_some_iff.mp h
    have hrest := ih h
    cases l with
    | inner l =>
      obtain ⟨u, hu, htu⟩ : ∃ u, b.step s.inner l = some u ∧ t.inner = u := by
        simp only [Loop.step] at ht
        split_ifs at ht <;> obtain ⟨u, hu, rfl⟩ := Option.map_eq_some_iff.mp ht <;>
          exact ⟨u, hu, rfl⟩
      rw [htu] at hrest
      exact (run_cons _ hu).trans hrest
    | call =>
      simp only [Loop.step] at ht
      split_ifs at ht
      obtain rfl := Option.some.inj ht
      exact hrest
    | stop =>
      obtain rfl := Option.some.inj ht
      exact hrest
    | go =>
      have hinner : t.inner = s.inner := by
        simp only [Loop.step] at ht
        split at ht <;> cases ht <;> rfl
      rwa [hinner] at hrest

end Loop

structure Body.Bounded (b : Body State L) (ok : L → Prop) (Inv : State → Prop)
    (rank : State → Nat) (bound : Nat) : Prop where
  kept : ∀ s l s', Inv s → ok l → b.step s l = some s' → Inv s'
  bounded : ∀ s, Inv s → rank s ≤ bound
  goes : ∀ s l s', Inv s → b.mine l = true → b.step s l = some s' → b.idle s = false →
    rank s' < rank s
  others : ∀ s l s', Inv s → b.mine l = false → b.step s l = some s' →
    b.idle s' = b.idle s ∧ rank s' ≤ rank s

namespace Loop

def left (b : Body State L) (rank : State → Nat) (bound : Nat) (s : Loop State) : Nat :=
  match s.pc with
  | .returned | .enter => 0
  | .test => 1
  | .body => if b.idle s.inner then bound + 2 else rank s.inner + 1

variable {b : Body State L} {s s' : Loop State} {l : Label L} {ls : List (Label L)}
variable {ok : L → Prop} {Inv : State → Prop} {rank : State → Nat} {bound : Nat}

theorem Stopping.left_pos (h : s.Stopping) : 0 < s.left b rank bound := by
  obtain ⟨-, hpc | hpc⟩ := h <;> simp only [left, hpc]
  · exact Nat.one_pos
  · split_ifs <;> omega

theorem Stopping.left_le (h : s.Stopping) (hrank : rank s.inner ≤ bound) :
    s.left b rank bound ≤ bound + 2 := by
  obtain ⟨-, hpc | hpc⟩ := h <;> simp only [left, hpc]
  · omega
  · split_ifs <;> omega

theorem Stopping.step (hb : b.Bounded ok Inv rank bound) (hinv : Inv s.inner) (h : s.Stopping)
    (hok : l.Admitted ok) (hs : s.step b l = some s') :
    s'.pc = .returned ∨ (Inv s'.inner ∧ s'.Stopping) ∧
      s'.left b rank bound ≤ s.left b rank bound - if b.owns l then 1 else 0 := by
  obtain ⟨hrunning, hpc⟩ := h
  cases l with
  | inner l =>
    simp only [Loop.step] at hs
    split_ifs at hs with hmine hbody
    · obtain ⟨t, ht, rfl⟩ := Option.map_eq_some_iff.mp hs
      have hinv' := hb.kept _ _ _ hinv hok ht
      refine .inr ⟨⟨hinv', hrunning, ?_⟩, ?_⟩
      · dsimp only
        split_ifs <;> simp
      · have hle := hb.bounded _ hinv'
        simp only [left, hbody, Body.owns, hmine, if_true]
        by_cases hidle : b.idle s.inner = true
        · rw [if_pos hidle]
          split_ifs <;> dsimp only <;> omega
        · have hlt := hb.goes _ _ _ hinv hmine ht (by simpa using hidle)
          rw [if_neg hidle]
          split_ifs <;> dsimp only <;> omega
    · obtain ⟨t, ht, rfl⟩ := Option.map_eq_some_iff.mp hs
      have hother : b.mine l = false := by simpa using hmine
      obtain ⟨hidle, hle⟩ := hb.others _ _ _ hinv hother ht
      refine .inr ⟨⟨hb.kept _ _ _ hinv hok ht, hrunning, hpc⟩, ?_⟩
      simp only [left, Body.owns, hother, hidle, Bool.false_eq_true, if_false, Nat.sub_zero]
      rcases hpc with hpc | hpc <;> simp only [hpc]
      · exact Nat.le_refl _
      · split_ifs <;> omega
  | call =>
    simp only [Loop.step] at hs
    rcases hpc with hpc | hpc <;> simp [hpc] at hs
  | stop =>
    obtain rfl := Option.some.inj hs
    exact .inr ⟨⟨hinv, rfl, hpc⟩, Nat.le_refl _⟩
  | go =>
    rcases hpc with hpc | hpc <;> simp only [Loop.step, hpc] at hs
    · obtain rfl := Option.some.inj hs
      exact .inl (by simp [hrunning])
    · cases hs

theorem Stopping.returns (hb : b.Bounded ok Inv rank bound) (hinv : Inv s.inner) (h : s.Stopping)
    (hrun : run (Loop.step b) s ls = some s') (hls : ∀ l ∈ ls, l.Admitted ok)
    (hturns : bound + 2 ≤ ls.countP b.owns) :
    ∃ ls₁ ls₂ t, ls = ls₁ ++ ls₂ ∧ run (Loop.step b) s ls₁ = some t ∧ t.pc = .returned := by
  have hrun' : Run (Loop.step b) (fun _ l => l.Admitted ok) s ls s' :=
    .of_labels hrun fun l hl _ => hls l hl
  rcases until_done (fun t => Inv t.inner ∧ t.Stopping) (fun t => t.pc = .returned) b.owns
    (left b rank bound) (fun t l t' ht _ hok hs => ht.2.step hb ht.1 hok hs) ⟨hinv, h⟩ hrun'
    with hdone | ⟨⟨-, hstopping⟩, hle⟩
  · exact hdone
  · have hpos : 0 < s'.left b rank bound := hstopping.left_pos
    have hmax : s.left b rank bound ≤ bound + 2 := h.left_le (hb.bounded _ hinv)
    omega

end Loop

end Library.Looping
