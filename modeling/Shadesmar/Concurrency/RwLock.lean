import Mathlib.Tactic.SplitIfs

namespace Shadesmar.Concurrency

@[ext] structure RwLock where
  writer : Bool
  readers : Nat
  deriving DecidableEq

namespace RwLock

def free : RwLock := ⟨false, 0⟩

def tryLock (l : RwLock) : Option RwLock :=
  if l.writer = false ∧ l.readers = 0 then some { l with writer := true } else none

def tryLockSharable (l : RwLock) : Option RwLock :=
  if l.writer = false then some { l with readers := l.readers + 1 } else none

/-- Both `unlock` and `unlock_sharable` are `pthread_rwlock_unlock`, here called by a holder. -/
def unlock (l : RwLock) : RwLock :=
  if l.writer then { l with writer := false } else { l with readers := l.readers - 1 }

/-- `pthread_rwlock_unlock` where it takes every caller but the writer for a reader. -/
def unlockShared (l : RwLock) : RwLock := { l with readers := l.readers - 1 }

/-- `foreign` is what `pthread_rwlock_unlock` does for a caller that has not got the hold itself,
which POSIX leaves open: here it releases one hold, whoever got it. -/
def ReleasesAny (foreign : RwLock → RwLock) : Prop := ∀ l, foreign l = l.unlock

theorem tryLock_some {l l' : RwLock} (h : l.tryLock = some l') : l = free ∧ l' = ⟨true, 0⟩ := by
  unfold tryLock at h
  split_ifs at h with hfree
  obtain ⟨writer, readers⟩ := l
  obtain ⟨rfl, rfl⟩ := hfree
  exact ⟨rfl, (Option.some.inj h).symm⟩

theorem tryLock_none {l : RwLock} (h : l ≠ free) : l.tryLock = none := by
  refine if_neg fun hfree => h ?_
  exact RwLock.ext hfree.1 hfree.2

theorem tryLockSharable_some {l l' : RwLock} (h : l.tryLockSharable = some l') :
    l.writer = false ∧ l' = ⟨false, l.readers + 1⟩ := by
  unfold tryLockSharable at h
  split_ifs at h with hfree
  obtain ⟨writer, readers⟩ := l
  obtain rfl := hfree
  exact ⟨rfl, (Option.some.inj h).symm⟩

theorem unlock_of_writer {l : RwLock} (h : l.writer = true) : l.unlock = ⟨false, l.readers⟩ := by
  rw [unlock, if_pos h]

theorem unlock_of_reader {l : RwLock} (h : l.writer = false) : l.unlock = ⟨false, l.readers - 1⟩ := by
  rw [unlock, if_neg (by simp [h]), ← h]

structure Counts (l : RwLock) (w r : Nat) : Prop where
  readers : l.readers = r
  writer : (if l.writer then 1 else 0) = w
  exclusive : l.writer = true → l.readers = 0

namespace Counts

variable {l l' : RwLock} {w r : Nat}

theorem free : Counts .free 0 0 := ⟨rfl, rfl, fun h => by cases h⟩

theorem tryLock (h : l.Counts w r) (hl : l.tryLock = some l') :
    w = 0 ∧ r = 0 ∧ l'.Counts 1 0 := by
  obtain ⟨hr, hw, -⟩ := h
  unfold RwLock.tryLock at hl
  split_ifs at hl with hfree
  obtain rfl := Option.some.inj hl
  rw [hfree.1] at hw
  exact ⟨hw.symm, hr ▸ hfree.2, hfree.2, rfl, fun _ => hfree.2⟩

theorem tryLockSharable (h : l.Counts w r) (hl : l.tryLockSharable = some l') :
    w = 0 ∧ l'.Counts 0 (r + 1) := by
  obtain ⟨hr, hw, -⟩ := h
  unfold RwLock.tryLockSharable at hl
  split_ifs at hl with hfree
  obtain rfl := Option.some.inj hl
  rw [hfree] at hw
  refine ⟨hw.symm, congrArg (· + 1) hr, ?_, ?_⟩
  · simp only [hfree]
    rfl
  · intro hx
    rw [hfree] at hx
    cases hx

theorem unlock (h : l.Counts (w + 1) r) : l.unlock.Counts w r := by
  obtain ⟨hr, hw, hx⟩ := h
  unfold RwLock.unlock
  split_ifs at hw ⊢ with hwriter
  refine ⟨hr, ?_, fun h => by cases h⟩
  simp only [Bool.false_eq_true, if_false]
  omega

theorem unlock_sharable (h : l.Counts w (r + 1)) : l.unlock.Counts w r := by
  obtain ⟨hr, hw, hx⟩ := h
  unfold RwLock.unlock
  split_ifs at hw ⊢ with hwriter
  · have := hx hwriter
    omega
  · refine ⟨?_, ?_, fun h => absurd h hwriter⟩
    · simp only
      omega
    · simp only [hwriter]
      exact hw

end Counts

end RwLock

end Shadesmar.Concurrency
