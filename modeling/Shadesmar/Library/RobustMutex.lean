import Mathlib.Logic.Basic

universe u

namespace Library

inductive RobustMutex.Status
  | consistent
  | inconsistent
  | notRecoverable
  deriving DecidableEq

structure RobustMutex (P : Type u) where
  owner : Option P
  status : RobustMutex.Status
  deriving DecidableEq

namespace RobustMutex

/-- What `lock` returns: 0, `EOWNERDEAD` or `ENOTRECOVERABLE`. -/
inductive Result
  | acquired
  | ownerDead
  | notRecoverable
  deriving DecidableEq

variable {P : Type u}

def new : RobustMutex P := ⟨none, .consistent⟩

/-- `none` while the caller waits for a live owner. -/
def lock (dead : P → Bool) (m : RobustMutex P) (i : P) : Option (Result × RobustMutex P) :=
  match m.status, m.owner with
  | .notRecoverable, _ => some (.notRecoverable, m)
  | _, none => some (.acquired, { m with owner := some i })
  | _, some j => if dead j then some (.ownerDead, ⟨some i, .inconsistent⟩) else none

def unlock [DecidableEq P] (m : RobustMutex P) (i : P) : RobustMutex P :=
  if m.owner = some i then
    ⟨none, if m.status = .consistent then .consistent else .notRecoverable⟩
  else m

variable {dead : P → Bool} {m m' : RobustMutex P} {i j : P} {r : Result}

theorem lock_cases (h : m.lock dead i = some (r, m')) :
    (m.status = .notRecoverable ∧ r = .notRecoverable ∧ m' = m) ∨
    (m.status ≠ .notRecoverable ∧ r ≠ .notRecoverable ∧ m'.owner = some i ∧
      ∀ j, m.owner = some j → dead j = true) := by
  unfold lock at h
  cases hstatus : m.status <;> cases howner : m.owner <;> grind

theorem unlock_of_ne [DecidableEq P] (h : m.owner ≠ some i) : m.unlock i = m := if_neg h

theorem owner_unlock [DecidableEq P] (h : j ≠ i) (hj : m.owner = some j) :
    (m.unlock i).owner = some j := by
  rw [unlock_of_ne (by rw [hj]; simpa using h), hj]

end RobustMutex

end Library
