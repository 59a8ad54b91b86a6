import Shadesmar.Library.Machine
import Shadesmar.Library.RobustMutex
import Mathlib.Logic.Function.Basic
import Mathlib.Tactic.SplitIfs

/-! `concurrency/lock.h` on Linux, where the mutex is robust: `lock` drops what
`pthread_mutex_lock` returns, and nothing calls `pthread_mutex_consistent`. -/

universe u

namespace Shadesmar.Concurrency

open Library

namespace PthreadWriteLock

variable {P : Type u}

def lock (dead : P → Bool) (mutex : RobustMutex P) (i : P) : Option (RobustMutex P) :=
  (mutex.lock dead i).map Prod.snd

def unlock [DecidableEq P] (mutex : RobustMutex P) (i : P) : RobustMutex P := mutex.unlock i

/-- `inside` are the processes between the return of their `lock()` and their `unlock()`. -/
structure World (P : Type u) where
  mutex : RobustMutex P
  inside : P → Bool
  dead : P → Bool

inductive Label (P : Type u)
  | lock (i : P)
  | unlock (i : P)
  | die (i : P)

namespace World

def new : World P := ⟨.new, fun _ => false, fun _ => false⟩

def step [DecidableEq P] (s : World P) : Label P → Option (World P)
  | .lock i =>
    if s.dead i = false ∧ s.inside i = false then
      (PthreadWriteLock.lock s.dead s.mutex i).map fun mutex =>
        { s with mutex := mutex, inside := Function.update s.inside i true }
    else none
  | .unlock i =>
    if s.dead i = false ∧ s.inside i = true then
      some { s with
        mutex := PthreadWriteLock.unlock s.mutex i
        inside := Function.update s.inside i false }
    else none
  | .die i => some { s with dead := Function.update s.dead i true }

def Exclusive (s : World P) : Prop :=
  ∀ i j, s.dead i = false → s.inside i = true → s.dead j = false → s.inside j = true → i = j

/-- No `lock()` finds the mutex unrecoverable: nobody has unlocked it after having got it from
a dead owner. -/
def Recoverable (s : World P) (l : Label P) : Prop :=
  ∀ i, l = .lock i → s.mutex.status ≠ .notRecoverable

instance (s : World P) (l : Label P) : Decidable (s.Recoverable l) :=
  match l with
  | .lock _ => decidable_of_iff (s.mutex.status ≠ .notRecoverable)
      ⟨fun h _ _ => h, fun h => h _ rfl⟩
  | .unlock _ => .isTrue nofun
  | .die _ => .isTrue nofun

def Owned (s : World P) : Prop :=
  ∀ i, s.dead i = false → s.inside i = true → s.mutex.owner = some i

theorem Owned.exclusive {s : World P} (h : s.Owned) : s.Exclusive := by
  intro i j hi hi' hj hj'
  exact Option.some.inj ((h i hi hi').symm.trans (h j hj hj'))

variable [DecidableEq P]

theorem Owned.step {s s' : World P} {l : Label P} (h : s.Owned) (hok : s.Recoverable l)
    (hs : s.step l = some s') : s'.Owned := by
  cases l with
  | lock i =>
    simp only [World.step] at hs
    split_ifs at hs with hi
    obtain ⟨mutex, hcall, rfl⟩ := Option.map_eq_some_iff.mp hs
    obtain ⟨⟨r, m⟩, hlock, rfl⟩ := Option.map_eq_some_iff.mp hcall
    rcases RobustMutex.lock_cases hlock with ⟨hstatus, -⟩ | ⟨-, -, howner, hdead⟩
    · exact absurd hstatus (hok i rfl)
    · intro j hj hinside
      by_cases hji : j = i
      · rw [hji]
        exact howner
      · -- a live process inside would be the owner that `lock` has found dead
        simp only [Function.update_of_ne hji] at hinside
        have hj : s.dead j = false := hj
        have hgone := hdead j (h j hj hinside)
        rw [hj] at hgone
        cases hgone
  | unlock i =>
    simp only [World.step] at hs
    split_ifs at hs with hi
    obtain rfl := Option.some.inj hs
    intro j hj hinside
    by_cases hji : j = i
    · simp [hji] at hinside
    · simp only [Function.update_of_ne hji] at hinside
      exact RobustMutex.owner_unlock hji (h j hj hinside)
  | die i =>
    obtain rfl := Option.some.inj hs
    intro j hj hinside
    by_cases hji : j = i
    · simp [hji] at hj
    · simp only [Function.update_of_ne hji] at hj
      exact h j hj hinside

/-- As long as no `lock()` finds the mutex unrecoverable, at most one live process is inside. -/
theorem exclusive_of_recoverable {labels : List (Label P)} {s : World P}
    (h : Machine.Run step Recoverable new labels s) : s.Exclusive :=
  (h.invariant Owned (fun _ _ hi => by simp [new] at hi)
    fun _ _ _ ht hok hs => ht.step hok hs).exclusive

theorem exclusive_after_death : ∃ s : World (Fin 3),
    Machine.Run step Recoverable new [.lock 0, .die 0, .lock 1] s ∧ s.Exclusive := by
  obtain ⟨s, hs⟩ := Option.isSome_iff_exists.mp (show (Machine.runIf step
    (fun s l => decide (s.Recoverable l)) (new : World (Fin 3)) [.lock 0, .die 0, .lock 1]).isSome
    by decide)
  have hrun : Machine.Run step Recoverable new [.lock 0, .die 0, .lock 1] s :=
    Machine.Run.of_runIf (fun _ _ => of_decide_eq_true) hs
  exact ⟨s, hrun, exclusive_of_recoverable hrun⟩

/-- The process that takes the mutex from a dead owner unlocks it, and then two get past
`lock()`. -/
theorem two_inside : ∃ (labels : List (Label (Fin 3))) (s : World (Fin 3)),
    Machine.run step new labels = some s ∧ ¬ s.Exclusive := by
  have hrun : (Machine.run step (new : World (Fin 3)) [.lock 0, .die 0, .lock 1, .unlock 1,
      .lock 1, .lock 2]).map (fun s => (s.dead 1, s.inside 1, s.dead 2, s.inside 2)) =
      some (false, true, false, true) := by decide
  obtain ⟨s, hs, hvals⟩ := Option.map_eq_some_iff.mp hrun
  simp only [Prod.mk.injEq] at hvals
  obtain ⟨hdead, hinside, hdead', hinside'⟩ := hvals
  exact ⟨_, s, hs, fun hexclusive => by
    cases hexclusive 1 2 hdead hinside hdead' hinside'⟩

end World

end PthreadWriteLock

end Shadesmar.Concurrency
