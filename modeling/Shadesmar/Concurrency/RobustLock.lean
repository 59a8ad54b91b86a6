import Shadesmar.Concurrency.RwLock
import Shadesmar.Concurrency.LocklessSet
import Shadesmar.Library.Machine

/-! `concurrency/robust_lock.h`, run by any number of threads of any number of processes.  Every
thread stands before its next access to the lock's memory (or its next look at `/proc`), and a
label names the thread that goes on or the process that dies. -/

namespace Shadesmar.Concurrency.RobustLock

open Library Library.Tally

inductive Acquire
  | lock
  | tryLock
  | lockSharable
  | tryLockSharable
  deriving DecidableEq

inductive Call
  | acquire (op : Acquire)
  | unlock
  | unlockSharable
  deriving DecidableEq

/-- The two callers of `shared_owners.remove`. -/
inductive Remover
  | pruning (op : Acquire) (idx : Nat) (sharedOwner : Nat)
  | unlockSharable
  deriving DecidableEq

inductive Pc
  | idle
  | attempt (op : Acquire) (last : Bool)
  | testOwner (op : Acquire)
  | loadOwner (op : Acquire)
  | testDead (op : Acquire) (exProc : Nat)
  | clearOwner (op : Acquire) (exProc : Nat)
  | storeZero (op : Acquire)
  | releaseDead (op : Acquire)
  | prune (op : Acquire) (idx : Nat)
  | testReader (op : Acquire) (idx : Nat) (sharedOwner : Nat)
  | removeLoad (caller : Remover) (idx : Nat)
  | removeCas (caller : Remover) (idx : Fin 8)
  | releaseReader (caller : Remover)
  | record
  | insertLoad (idx : Nat)
  | insertCas (idx : Fin 8)
  | unlockOwner
  | unlockMutex
  deriving DecidableEq

/-- The two calls of `pthread_rwlock_unlock` on behalf of a dead process. -/
def Pc.releasesDead : Pc → Bool
  | releaseDead _ => true
  | releaseReader (.pruning _ _ _) => true
  | _ => false

/-- `excl` and `shared` are the holds that the thread has recorded and not given back;
`acquired` tells whether it has ever got the underlying lock. -/
structure Thread where
  pid : Nat
  pc : Pc
  excl : Bool
  shared : Nat
  acquired : Bool

/-- `holder` and `readersOf` say whose holds of `mutex` there are: a process that takes the
record of a dead one out of `exclusiveOwner` or `sharedOwners` takes over the hold. -/
structure State (n : Nat) where
  mutex : RwLock
  exclusiveOwner : Nat
  sharedOwners : LocklessSet 8
  threads : Fin n → Thread
  dead : Nat → Bool
  holder : Option Nat
  readersOf : Nat → Nat

inductive Label (n : Nat)
  | call (i : Fin n) (c : Call)
  | step (i : Fin n)
  | die (i : Fin n)

namespace Acquire

def sharable : Acquire → Bool
  | lock => false
  | tryLock => false
  | lockSharable => true
  | tryLockSharable => true

def once : Acquire → Bool
  | lock => false
  | tryLock => true
  | lockSharable => false
  | tryLockSharable => true

def retry (op : Acquire) : Pc := .attempt op op.once

end Acquire

namespace Remover

def next : Remover → Pc
  | pruning op idx _ => .prune op (idx + 1)
  | unlockSharable => .idle

end Remover

def Call.start : Call → Pc
  | acquire op => .attempt op false
  | unlock => .unlockOwner
  | unlockSharable => .removeLoad .unlockSharable 0

def Call.Allowed (x : Thread) : Call → Prop
  | acquire _ => True
  | unlock => x.excl = true
  | unlockSharable => 0 < x.shared

instance (x : Thread) (c : Call) : Decidable (c.Allowed x) := by
  cases c <;> unfold Call.Allowed <;> infer_instance

namespace State

variable {n : Nat}

def new (pid : Fin n → Nat) : State n where
  mutex := .free
  exclusiveOwner := 0
  sharedOwners := .empty
  threads := fun i => ⟨pid i, .idle, false, 0, false⟩
  dead := fun _ => false
  holder := none
  readersOf := fun _ => 0

def setThread (s : State n) (i : Fin n) (x : Thread) : State n :=
  { s with threads := Function.update s.threads i x }

def setPc (s : State n) (i : Fin n) (pc : Pc) : State n :=
  s.setThread i { s.threads i with pc := pc }

def Alive (s : State n) (i : Fin n) : Prop := s.dead (s.threads i).pid = false

instance (s : State n) (i : Fin n) : Decidable (s.Alive i) := inferInstanceAs (Decidable (_ = _))

/-- `mutex_.try_lock()` -/
def attemptExclusive (s : State n) (i : Fin n) (op : Acquire) (last : Bool) : State n :=
  match s.mutex.tryLock with
  | some mutex =>
    { s with mutex := mutex, holder := some (s.threads i).pid }.setThread i
      { s.threads i with pc := .record, acquired := true }
  | none => s.setPc i (if last then .idle else .testOwner op)

/-- `mutex_.try_lock_sharable()` -/
def attemptSharable (s : State n) (i : Fin n) (op : Acquire) (last : Bool) : State n :=
  match s.mutex.tryLockSharable with
  | some mutex =>
    let pid := (s.threads i).pid
    { s with
      mutex := mutex
      readersOf := Function.update s.readersOf pid (s.readersOf pid + 1) }.setThread i
        { s.threads i with pc := .insertLoad 0, acquired := true }
  | none => s.setPc i (if last then .idle else .testOwner op)

def clearOwner (s : State n) (i : Fin n) (op : Acquire) (exProc : Nat) : State n :=
  if s.exclusiveOwner = exProc then
    { s with exclusiveOwner := 0, holder := some (s.threads i).pid }.setPc i
      (if op.sharable then .storeZero op else .releaseDead op)
  else s.setPc i op.retry

def notRemoved (s : State n) (i : Fin n) : Remover → State n
  | .pruning op idx _ => s.setPc i (.prune op (idx + 1))
  | .unlockSharable =>
    s.setThread i { s.threads i with pc := .idle, shared := (s.threads i).shared - 1 }

def removeLoad (s : State n) (i : Fin n) (caller : Remover) (idx : Nat) : State n :=
  if h : idx < 8 then
    let elem := match caller with
      | .pruning _ _ sharedOwner => sharedOwner
      | .unlockSharable => (s.threads i).pid
    if s.sharedOwners ⟨idx, h⟩ = elem then s.setPc i (.removeCas caller ⟨idx, h⟩)
    else s.setPc i (.removeLoad caller (idx + 1))
  else s.notRemoved i caller

def removeCas (s : State n) (i : Fin n) (caller : Remover) (idx : Fin 8) : State n :=
  match caller with
  | .pruning _ _ sharedOwner =>
    if s.sharedOwners idx = sharedOwner then
      let readersOf := Function.update s.readersOf sharedOwner (s.readersOf sharedOwner - 1)
      let pid := (s.threads i).pid
      { s with
        sharedOwners := s.sharedOwners.store idx 0
        readersOf := Function.update readersOf pid (readersOf pid + 1) }.setPc i
          (.releaseReader caller)
    else s.notRemoved i caller
  | .unlockSharable =>
    if s.sharedOwners idx = (s.threads i).pid then
      { s with sharedOwners := s.sharedOwners.store idx 0 }.setThread i
        { s.threads i with pc := .releaseReader caller, shared := (s.threads i).shared - 1 }
    else s.notRemoved i caller

/-- `mutex_.unlock_sharable()` -/
def releaseReader (s : State n) (i : Fin n) (caller : Remover) : State n :=
  let pid := (s.threads i).pid
  { s with
    mutex := s.mutex.unlock
    readersOf := Function.update s.readersOf pid (s.readersOf pid - 1) }.setPc i caller.next

/-- `while (!shared_owners.insert(getpid()))`: a failed `insert` starts again at the first cell. -/
def insertLoad (s : State n) (i : Fin n) (idx : Nat) : State n :=
  if h : idx < 8 then
    let probedElem := s.sharedOwners ⟨idx, h⟩
    if probedElem = (s.threads i).pid then s.setPc i (.insertLoad 0)
    else if probedElem ≠ 0 then s.setPc i (.insertLoad (idx + 1))
    else s.setPc i (.insertCas ⟨idx, h⟩)
  else s.setPc i (.insertLoad 0)

def insertCas (s : State n) (i : Fin n) (idx : Fin 8) : State n :=
  if s.sharedOwners idx = 0 then
    { s with sharedOwners := s.sharedOwners.store idx (s.threads i).pid }.setThread i
      { s.threads i with pc := .idle, shared := (s.threads i).shared + 1 }
  else s.setPc i (.insertLoad (idx.val + 1))

def unlockOwner (s : State n) (i : Fin n) : State n :=
  if s.exclusiveOwner = (s.threads i).pid then
    { s with exclusiveOwner := 0 }.setThread i
      { s.threads i with pc := .unlockMutex, excl := false }
  else s.setThread i { s.threads i with pc := .idle, excl := false }

/-- `mutex_.unlock()` -/
def releaseMutex (s : State n) (i : Fin n) (pc : Pc) : State n :=
  { s with mutex := s.mutex.unlock, holder := none }.setPc i pc

def advance (s : State n) (i : Fin n) : Option (State n) :=
  match (s.threads i).pc with
  | .idle => none
  | .attempt op last =>
    some (if op.sharable then s.attemptSharable i op last else s.attemptExclusive i op last)
  | .testOwner op =>
    if s.exclusiveOwner ≠ 0 then some (s.setPc i (.loadOwner op))
    -- only exclusive operations look at the readers
    else if op.sharable then some (s.setPc i op.retry)
    else some (s.setPc i (.prune op 0))
  | .loadOwner op => some (s.setPc i (.testDead op s.exclusiveOwner))
  | .testDead op exProc =>
    if s.dead exProc then some (s.setPc i (.clearOwner op exProc)) else some (s.setPc i op.retry)
  | .clearOwner op exProc => some (s.clearOwner i op exProc)
  | .storeZero op => some ({ s with exclusiveOwner := 0 }.setPc i (.releaseDead op))
  | .releaseDead op => some (s.releaseMutex i op.retry)
  | .prune op idx =>
    if h : idx < 8 then
      let sharedOwner := s.sharedOwners ⟨idx, h⟩
      if sharedOwner = 0 then some (s.setPc i (.prune op (idx + 1)))
      else some (s.setPc i (.testReader op idx sharedOwner))
    else some (s.setPc i op.retry)
  | .testReader op idx sharedOwner =>
    if s.dead sharedOwner then
      some (s.setPc i (.removeLoad (.pruning op idx sharedOwner) 0))
    else some (s.setPc i (.prune op (idx + 1)))
  | .removeLoad caller idx => some (s.removeLoad i caller idx)
  | .removeCas caller idx => some (s.removeCas i caller idx)
  | .releaseReader caller => some (s.releaseReader i caller)
  | .record =>
    some ({ s with exclusiveOwner := (s.threads i).pid }.setThread i
      { s.threads i with pc := .idle, excl := true })
  | .insertLoad idx => some (s.insertLoad i idx)
  | .insertCas idx => some (s.insertCas i idx)
  | .unlockOwner => some (s.unlockOwner i)
  | .unlockMutex => some (s.releaseMutex i .idle)

def step (s : State n) : Label n → Option (State n)
  | .call i c =>
    if s.Alive i ∧ (s.threads i).pc = .idle ∧ c.Allowed (s.threads i) then
      some (s.setPc i c.start)
    else none
  | .step i => if s.Alive i then s.advance i else none
  | .die i => some { s with dead := Function.update s.dead (s.threads i).pid true }

/-- `step` on a lock that `foreign` releases when the caller of `pthread_rwlock_unlock` acts for a
dead process; in `step` this releases one hold like any other call. -/
def stepOn (foreign : RwLock → RwLock) (s : State n) : Label n → Option (State n)
  | .step i => (s.step (.step i)).map fun t =>
    if (s.threads i).pc.releasesDead then { t with mutex := foreign s.mutex } else t
  | l => s.step l

/-- `reset()` resets the underlying lock, and nothing else. -/
def reset (s : State n) : State n :=
  { s with mutex := .free, holder := none, readersOf := fun _ => 0 }

section SetPc

variable (s : State n) (i : Fin n) (pc pc' : Pc)

@[simp] theorem mutex_setPc : (s.setPc i pc).mutex = s.mutex := rfl
@[simp] theorem exclusiveOwner_setPc : (s.setPc i pc).exclusiveOwner = s.exclusiveOwner := rfl
@[simp] theorem sharedOwners_setPc : (s.setPc i pc).sharedOwners = s.sharedOwners := rfl
@[simp] theorem dead_setPc : (s.setPc i pc).dead = s.dead := rfl

@[simp] theorem threads_setPc : (s.setPc i pc).threads i = { s.threads i with pc := pc } :=
  Function.update_self ..

@[simp] theorem setPc_setPc : (s.setPc i pc).setPc i pc' = s.setPc i pc' := by
  simp [setPc, setThread]

theorem pid_setPc (j : Fin n) : ((s.setPc i pc).threads j).pid = (s.threads j).pid := by
  by_cases hji : j = i
  · rw [hji, threads_setPc]
  · simp [setPc, setThread, hji]

end SetPc

theorem stepOn_unlock :
    (stepOn RwLock.unlock : State n → Label n → Option (State n)) = step := by
  funext s l
  cases l with
  | step i =>
    have hrelease : ∀ t, s.step (.step i) = some t →
        (if (s.threads i).pc.releasesDead then { t with mutex := s.mutex.unlock } else t) = t := by
      intro t ht
      obtain ⟨-, ht⟩ := Option.ite_none_right_eq_some.mp ht
      unfold advance at ht
      cases hpc : (s.threads i).pc with
      | releaseDead op =>
        simp only [hpc] at ht
        obtain rfl := Option.some.inj ht
        rfl
      | releaseReader caller =>
        simp only [hpc] at ht
        obtain rfl := Option.some.inj ht
        cases caller <;> rfl
      | _ => rfl
    cases hs : s.step (.step i) with
    | none => simp only [stepOn, hs, Option.map_none]
    | some t => simp only [stepOn, hs, Option.map_some, hrelease t hs]
  | call i c | die i => rfl

theorem step_attempt {s : State n} {i : Fin n} {op : Acquire} {last : Bool} (hi : s.Alive i)
    (hfree : s.mutex = .free) (hop : op.sharable = false) :
    (s.setPc i (.attempt op last)).step (.step i) =
      some ({ s with mutex := ⟨true, 0⟩, holder := some (s.threads i).pid }.setThread i
        { s.threads i with pc := .record, acquired := true }) := by
  have hlock : s.mutex.tryLock = some ⟨true, 0⟩ := by
    rw [hfree]
    rfl
  have halive : (s.setPc i (.attempt op last)).Alive i := by rwa [Alive, pid_setPc]
  refine (if_pos halive).trans ?_
  simp [advance, hop, attemptExclusive, hlock, setPc, setThread]

theorem run_attempt {s : State n} {i : Fin n} {op : Acquire} {last : Bool} (hi : s.Alive i)
    (hfree : s.mutex = .free) (hop : op.sharable = false) :
    ∃ s', Machine.run step (s.setPc i (.attempt op last)) [.step i, .step i] = some s' ∧
      (s'.threads i).excl = true ∧ (s'.threads i).pc = .idle := by
  rw [Machine.run_cons _ (step_attempt hi hfree hop)]
  simp only [Machine.run, step, advance, setThread, Function.update_self]
  rw [if_pos (by simpa [Alive] using hi)]
  exact ⟨_, rfl, by simp, by simp⟩

end State

end Shadesmar.Concurrency.RobustLock
