import Shadesmar.Concurrency.RobustLock

namespace Shadesmar.Concurrency.RobustLock

open Library Library.Tally

namespace Pc

def exclusive : Pc → Bool
  | record => true
  | storeZero _ => true
  | releaseDead _ => true
  | unlockMutex => true
  | _ => false

def sharable : Pc → Bool
  | insertLoad _ => true
  | insertCas _ => true
  | releaseReader _ => true
  | _ => false

def obtained : Pc → Bool
  | record => true
  | insertLoad _ => true
  | insertCas _ => true
  | _ => false

structure Holds (pc : Pc) (excl shr : Bool) : Prop where
  exclusive : pc.exclusive = excl
  sharable : pc.sharable = shr

abbrev Neutral (pc : Pc) : Prop := pc.Holds false false

theorem Neutral.obtained {pc : Pc} (h : pc.Neutral) : pc.obtained = false := by
  obtain ⟨hexcl, hshr⟩ := h
  cases pc with
  | record => cases hexcl
  | insertLoad idx | insertCas idx => cases hshr
  | _ => rfl

end Pc

namespace Thread

def Knows (dead : Nat → Bool) (x : Thread) : Prop :=
  match x.pc with
  | .clearOwner _ exProc => dead exProc = true
  | .removeLoad (.pruning _ _ sharedOwner) _ => dead sharedOwner = true
  | .removeCas (.pruning _ _ sharedOwner) _ => dead sharedOwner = true
  | .removeLoad .unlockSharable _ => 0 < x.shared
  | .removeCas .unlockSharable _ => 0 < x.shared
  | .unlockOwner => x.excl = true
  | _ => True

theorem Knows.mono {dead dead' : Nat → Bool} {x : Thread} (h : x.Knows dead)
    (hmono : ∀ p, dead p = true → dead' p = true) : x.Knows dead' := by
  obtain ⟨pid, pc, excl, shared, acquired⟩ := x
  cases pc with
  | clearOwner op exProc => exact hmono _ h
  | removeLoad caller idx | removeCas caller idx =>
    cases caller with
    | pruning op k sharedOwner => exact hmono _ h
    | unlockSharable => exact h
  | unlockOwner => exact h
  | _ => trivial

def exclusive (x : Thread) : Nat := x.pc.exclusive.toNat

def sharable (x : Thread) : Nat := x.pc.sharable.toNat

def sharedOf (p : Nat) (x : Thread) : Nat := if x.pid = p then x.shared else 0

def HoldsExclusive (x : Thread) : Prop := x.excl = true ∨ x.pc = .record ∨ x.pc = .unlockMutex

def HoldsShared (x : Thread) : Prop :=
  0 < x.shared ∨ (∃ idx, x.pc = .insertLoad idx) ∨ (∃ idx, x.pc = .insertCas idx) ∨
    x.pc = .releaseReader .unlockSharable

end Thread

theorem Acquire.retry_neutral (op : Acquire) : op.retry.Neutral := ⟨rfl, rfl⟩

theorem Remover.next_neutral (caller : Remover) : caller.next.Neutral := by
  cases caller <;> exact ⟨rfl, rfl⟩

theorem Call.start_neutral (c : Call) : c.start.Neutral := by
  cases c <;> exact ⟨rfl, rfl⟩

namespace State

variable {n : Nat}

inductive Effect (s : State n) (i : Fin n) : State n → Prop
  | move {pc : Pc} : pc.exclusive = (s.threads i).pc.exclusive →
      pc.sharable = (s.threads i).pc.sharable →
      (pc.obtained = true → (s.threads i).pc.obtained = true) →
      Thread.Knows s.dead { s.threads i with pc := pc } → Effect s i (s.setPc i pc)
  | acquire {mutex : RwLock} : (s.threads i).pc.Neutral → s.mutex.tryLock = some mutex →
      Effect s i ({ s with mutex := mutex, holder := some (s.threads i).pid }.setThread i
        { s.threads i with pc := .record, acquired := true })
  | acquireSharable {mutex : RwLock} : (s.threads i).pc.Neutral →
      s.mutex.tryLockSharable = some mutex →
      Effect s i ({ s with
        mutex := mutex
        readersOf := Function.update s.readersOf (s.threads i).pid
          (s.readersOf (s.threads i).pid + 1) }.setThread i
        { s.threads i with pc := .insertLoad 0, acquired := true })
  | record : (s.threads i).pc = .record →
      Effect s i ({ s with exclusiveOwner := (s.threads i).pid }.setThread i
        { s.threads i with pc := .idle, excl := true })
  | clearOwner {pc : Pc} : (s.threads i).pc.Neutral → s.dead s.exclusiveOwner = true →
      (∃ op, pc = .storeZero op ∨ pc = .releaseDead op) →
      Effect s i ({ s with exclusiveOwner := 0, holder := some (s.threads i).pid }.setPc i pc)
  | storeZero {op : Acquire} : (s.threads i).pc = .storeZero op →
      Effect s i ({ s with exclusiveOwner := 0 }.setPc i (.releaseDead op))
  | unlockOwner : (s.threads i).pc = .unlockOwner → s.exclusiveOwner = (s.threads i).pid →
      Effect s i ({ s with exclusiveOwner := 0 }.setThread i
        { s.threads i with pc := .unlockMutex, excl := false })
  | keepOwner : (s.threads i).pc = .unlockOwner → s.exclusiveOwner ≠ (s.threads i).pid →
      Effect s i (s.setThread i { s.threads i with pc := .idle, excl := false })
  | releaseMutex {pc : Pc} : (s.threads i).pc.exclusive = true → pc.Neutral →
      Thread.Knows s.dead { s.threads i with pc := pc } → Effect s i (s.releaseMutex i pc)
  | insert {idx : Fin 8} : (s.threads i).pc = .insertCas idx → s.sharedOwners idx = 0 →
      Effect s i ({ s with sharedOwners := s.sharedOwners.store idx (s.threads i).pid }.setThread i
        { s.threads i with pc := .idle, shared := (s.threads i).shared + 1 })
  | erase {idx : Fin 8} : (s.threads i).pc = .removeCas .unlockSharable idx →
      s.sharedOwners idx = (s.threads i).pid →
      Effect s i ({ s with sharedOwners := s.sharedOwners.store idx 0 }.setThread i
        { s.threads i with
          pc := .releaseReader .unlockSharable, shared := (s.threads i).shared - 1 })
  | takeOver {op : Acquire} {k sharedOwner : Nat} {idx : Fin 8} :
      (s.threads i).pc = .removeCas (.pruning op k sharedOwner) idx →
      s.sharedOwners idx = sharedOwner → s.dead sharedOwner = true →
      Effect s i (s.removeCas i (.pruning op k sharedOwner) idx)
  | keepCell : ((∃ idx, (s.threads i).pc = .removeLoad .unlockSharable idx) ∨
        ∃ idx, (s.threads i).pc = .removeCas .unlockSharable idx) →
      Effect s i (s.setThread i
        { s.threads i with pc := .idle, shared := (s.threads i).shared - 1 })
  | releaseReader {caller : Remover} : (s.threads i).pc = .releaseReader caller →
      Effect s i (s.releaseReader i caller)

variable {s s' : State n} {i : Fin n} {pc : Pc}

theorem Effect.neutral (h : (s.threads i).pc.Neutral) (hpc : pc.Neutral)
    (hknows : Thread.Knows s.dead { s.threads i with pc := pc }) : Effect s i (s.setPc i pc) :=
  .move (hpc.exclusive.trans h.exclusive.symm) (hpc.sharable.trans h.sharable.symm)
    (fun hobtained => by rw [hpc.obtained] at hobtained; cases hobtained) hknows

theorem effect_notRemoved {caller : Remover} (h : (s.threads i).pc.Neutral)
    (hcaller : (∃ idx, (s.threads i).pc = .removeLoad caller idx) ∨
      ∃ idx, (s.threads i).pc = .removeCas caller idx) : Effect s i (s.notRemoved i caller) := by
  cases caller with
  | pruning op k sharedOwner => exact .neutral h ⟨rfl, rfl⟩ trivial
  | unlockSharable => exact .keepCell hcaller

theorem effect_of_advance (hknows : (s.threads i).Knows s.dead) (hs : s.advance i = some s') :
    Effect s i s' := by
  unfold advance at hs
  cases hpc : (s.threads i).pc with
  | idle =>
    rw [hpc] at hs
    cases hs
  | attempt op last =>
    have hneutral : (s.threads i).pc.Neutral := by
      rw [hpc]
      exact ⟨rfl, rfl⟩
    have hfailed : Effect s i (s.setPc i (if last then .idle else .testOwner op)) := by
      cases last <;> exact .neutral hneutral ⟨rfl, rfl⟩ trivial
    simp only [hpc] at hs
    split_ifs at hs with hop <;> obtain rfl := Option.some.inj hs
    · unfold attemptSharable
      split
      · exact .acquireSharable hneutral ‹_›
      · exact hfailed
    · unfold attemptExclusive
      split
      · exact .acquire hneutral ‹_›
      · exact hfailed
  | testOwner op =>
    have hneutral : (s.threads i).pc.Neutral := by
      rw [hpc]
      exact ⟨rfl, rfl⟩
    simp only [hpc] at hs
    split_ifs at hs <;> obtain rfl := Option.some.inj hs <;>
      exact .neutral hneutral ⟨rfl, rfl⟩ trivial
  | loadOwner op =>
    simp only [hpc] at hs
    obtain rfl := Option.some.inj hs
    exact .neutral (hpc ▸ ⟨rfl, rfl⟩) ⟨rfl, rfl⟩ trivial
  | testDead op exProc =>
    simp only [hpc] at hs
    split_ifs at hs with hdead <;> obtain rfl := Option.some.inj hs
    · exact .neutral (hpc ▸ ⟨rfl, rfl⟩) ⟨rfl, rfl⟩ hdead
    · exact .neutral (hpc ▸ ⟨rfl, rfl⟩) ⟨rfl, rfl⟩ trivial
  | clearOwner op exProc =>
    have hneutral : (s.threads i).pc.Neutral := by
      rw [hpc]
      exact ⟨rfl, rfl⟩
    have hdead : s.dead exProc = true := by simpa only [Thread.Knows, hpc] using hknows
    simp only [hpc] at hs
    obtain rfl := Option.some.inj hs
    unfold clearOwner
    split_ifs with howner hop
    · exact .clearOwner hneutral (howner ▸ hdead) ⟨op, .inl rfl⟩
    · exact .clearOwner hneutral (howner ▸ hdead) ⟨op, .inr rfl⟩
    · exact .neutral hneutral ⟨rfl, rfl⟩ trivial
  | storeZero op =>
    simp only [hpc] at hs
    obtain rfl := Option.some.inj hs
    exact .storeZero hpc
  | releaseDead op =>
    simp only [hpc] at hs
    obtain rfl := Option.some.inj hs
    exact .releaseMutex (by rw [hpc]; rfl) op.retry_neutral trivial
  | prune op idx =>
    have hneutral : (s.threads i).pc.Neutral := by
      rw [hpc]
      exact ⟨rfl, rfl⟩
    simp only [hpc] at hs
    split_ifs at hs <;> obtain rfl := Option.some.inj hs <;>
      exact .neutral hneutral ⟨rfl, rfl⟩ trivial
  | testReader op idx sharedOwner =>
    simp only [hpc] at hs
    split_ifs at hs with hdead <;> obtain rfl := Option.some.inj hs
    · exact .neutral (hpc ▸ ⟨rfl, rfl⟩) ⟨rfl, rfl⟩ hdead
    · exact .neutral (hpc ▸ ⟨rfl, rfl⟩) ⟨rfl, rfl⟩ trivial
  | removeLoad caller idx =>
    have hneutral : (s.threads i).pc.Neutral := by
      rw [hpc]
      exact ⟨rfl, rfl⟩
    simp only [hpc] at hs
    obtain rfl := Option.some.inj hs
    have hcaller : ∀ pc,
        (∃ idx, pc = .removeLoad caller idx) ∨ (∃ idx, pc = .removeCas caller idx) →
        Thread.Knows s.dead { s.threads i with pc := pc } := by
      rintro pc (⟨idx', rfl⟩ | ⟨idx', rfl⟩) <;> cases caller <;>
        simpa only [Thread.Knows, hpc] using hknows
    unfold removeLoad
    split
    · dsimp only
      split_ifs
      · exact .neutral hneutral ⟨rfl, rfl⟩ (hcaller _ (.inr ⟨_, rfl⟩))
      · exact .neutral hneutral ⟨rfl, rfl⟩ (hcaller _ (.inl ⟨_, rfl⟩))
    · exact effect_notRemoved hneutral (.inl ⟨idx, hpc⟩)
  | removeCas caller idx =>
    have hneutral : (s.threads i).pc.Neutral := by
      rw [hpc]
      exact ⟨rfl, rfl⟩
    have hfailed := effect_notRemoved hneutral (.inr ⟨idx, hpc⟩)
    simp only [hpc] at hs
    obtain rfl := Option.some.inj hs
    cases caller with
    | pruning op k sharedOwner =>
      by_cases hcell : s.sharedOwners idx = sharedOwner
      · exact .takeOver hpc hcell (by simpa only [Thread.Knows, hpc] using hknows)
      · simpa only [removeCas, if_neg hcell] using hfailed
    | unlockSharable =>
      by_cases hcell : s.sharedOwners idx = (s.threads i).pid
      · simpa only [removeCas, if_pos hcell] using Effect.erase hpc hcell
      · simpa only [removeCas, if_neg hcell] using hfailed
  | releaseReader caller =>
    simp only [hpc] at hs
    obtain rfl := Option.some.inj hs
    exact .releaseReader hpc
  | record =>
    simp only [hpc] at hs
    obtain rfl := Option.some.inj hs
    exact .record hpc
  | insertLoad idx =>
    simp only [hpc] at hs
    obtain rfl := Option.some.inj hs
    unfold insertLoad
    split
    · dsimp only
      split_ifs <;>
        exact .move (by rw [hpc]; rfl) (by rw [hpc]; rfl) (fun _ => by rw [hpc]; rfl) trivial
    · exact .move (by rw [hpc]; rfl) (by rw [hpc]; rfl) (fun _ => by rw [hpc]; rfl) trivial
  | insertCas idx =>
    simp only [hpc] at hs
    obtain rfl := Option.some.inj hs
    unfold insertCas
    split_ifs with hcell
    · exact .insert hpc hcell
    · exact .move (by rw [hpc]; rfl) (by rw [hpc]; rfl) (fun _ => by rw [hpc]; rfl) trivial
  | unlockOwner =>
    simp only [hpc] at hs
    obtain rfl := Option.some.inj hs
    unfold unlockOwner
    split_ifs with howner
    · exact .unlockOwner hpc howner
    · exact .keepOwner hpc howner
  | unlockMutex =>
    simp only [hpc] at hs
    obtain rfl := Option.some.inj hs
    exact .releaseMutex (by rw [hpc]; rfl) ⟨rfl, rfl⟩ trivial

theorem effect_of_call {c : Call} (hs : s.step (.call i c) = some s') :
    s.Alive i ∧ Effect s i s' := by
  simp only [step] at hs
  split_ifs at hs with hcall
  obtain rfl := Option.some.inj hs
  obtain ⟨hi, hpc, hallowed⟩ := hcall
  refine ⟨hi, .neutral (hpc ▸ ⟨rfl, rfl⟩) c.start_neutral ?_⟩
  cases c with
  | acquire op => trivial
  | unlock => exact hallowed
  | unlockSharable => exact hallowed

theorem total_setThread (w : Thread → Nat) (s : State n) (i : Fin n) (x : Thread) :
    total w (s.setThread i x).threads + w (s.threads i) = total w s.threads + w x :=
  total_update w s.threads i x

structure Counted (s : State n) : Prop where
  readers_zero : s.mutex.writer = true → s.mutex.readers = 0
  writers : (if s.exclusiveOwner = 0 then 0 else 1) + total Thread.exclusive s.threads =
    s.mutex.writer.toNat
  readers : s.mutex.readers = s.sharedOwners.occupied + total Thread.sharable s.threads

namespace Counted

theorem le_writers (h : s.Counted) (i : Fin n) :
    (if s.exclusiveOwner = 0 then 0 else 1) + (s.threads i).exclusive ≤ s.mutex.writer.toNat := by
  have hle := le_total Thread.exclusive s.threads i
  have := h.writers
  omega

theorem of_exclusive (h : s.Counted) (hi : (s.threads i).pc.exclusive = true) :
    s.mutex.writer = true ∧ s.exclusiveOwner = 0 := by
  have hle := h.le_writers i
  have hone : (s.threads i).exclusive = 1 := by rw [Thread.exclusive, hi]; rfl
  rw [hone] at hle
  cases hw : s.mutex.writer with
  | false => simp [hw] at hle
  | true =>
    refine ⟨rfl, by_contra fun howner => ?_⟩
    simp [hw, howner] at hle

theorem of_owner (h : s.Counted) (howner : s.exclusiveOwner ≠ 0) : s.mutex.writer = true := by
  have hw := h.writers
  rw [if_neg howner] at hw
  cases hwriter : s.mutex.writer with
  | false =>
    rw [hwriter] at hw
    simp at hw
  | true => rfl

theorem of_sharable (h : s.Counted) (hi : (s.threads i).pc.sharable = true) :
    s.mutex.writer = false ∧ 0 < s.mutex.readers := by
  have hle := le_total Thread.sharable s.threads i
  have hone : (s.threads i).sharable = 1 := by rw [Thread.sharable, hi]; rfl
  have hr := h.readers
  have hpos : 0 < s.mutex.readers := by omega
  refine ⟨?_, hpos⟩
  by_contra hw
  have := h.readers_zero (by simpa using hw)
  omega

theorem exclusive_unique (h : s.Counted) {j : Fin n} (hi : (s.threads i).pc.exclusive = true)
    (hj : (s.threads j).pc.exclusive = true) : i = j := by
  by_contra hne
  have hle := add_le_total Thread.exclusive s.threads hne
  have hw := h.writers
  have hbound : s.mutex.writer.toNat ≤ 1 := Bool.toNat_le _
  have hone : (s.threads i).exclusive = 1 := by rw [Thread.exclusive, hi]; rfl
  have hone' : (s.threads j).exclusive = 1 := by rw [Thread.exclusive, hj]; rfl
  omega

theorem setThread (h : s.Counted) {mutex : RwLock} {owner : Nat} {cells : LocklessSet 8}
    {holder : Option Nat} {readersOf : Nat → Nat} {x : Thread} {excl excl' shr shr' : Bool}
    (hold : (s.threads i).pc.Holds excl shr) (hnew : x.pc.Holds excl' shr')
    (hzero : mutex.writer = true → mutex.readers = 0)
    (hwriters : (if owner = 0 then 0 else 1) + s.mutex.writer.toNat + excl'.toNat =
      (if s.exclusiveOwner = 0 then 0 else 1) + mutex.writer.toNat + excl.toNat)
    (hreaders : mutex.readers + s.sharedOwners.occupied + shr.toNat =
      s.mutex.readers + cells.occupied + shr'.toNat) :
    ({ s with
      mutex := mutex, exclusiveOwner := owner, sharedOwners := cells, holder := holder,
      readersOf := readersOf }.setThread i x).Counted := by
  have hexclusive := total_setThread Thread.exclusive s i x
  have hsharable := total_setThread Thread.sharable s i x
  simp only [Thread.exclusive, hold.exclusive, hnew.exclusive] at hexclusive
  simp only [Thread.sharable, hold.sharable, hnew.sharable] at hsharable
  have hw := h.writers
  have hr := h.readers
  refine ⟨hzero, ?_, ?_⟩
  · show (if owner = 0 then 0 else 1) + total Thread.exclusive (s.setThread i x).threads =
      mutex.writer.toNat
    omega
  · show mutex.readers = cells.occupied + total Thread.sharable (s.setThread i x).threads
    omega

theorem effect (h : s.Counted) (hpid : (s.threads i).pid ≠ 0) (hzero : s.dead 0 = false)
    (heff : Effect s i s') : s'.Counted := by
  cases heff with
  | move hexcl hshare _ _ => exact h.setThread ⟨rfl, rfl⟩ ⟨hexcl, hshare⟩ h.readers_zero rfl rfl
  | acquire hpc hlock =>
    obtain ⟨hfree, rfl⟩ := RwLock.tryLock_some hlock
    have hnew : Pc.record.Holds true false := ⟨rfl, rfl⟩
    refine h.setThread hpc hnew (fun _ => rfl) ?_ ?_
    · rw [hfree]
      rfl
    · rw [hfree]
      rfl
  | acquireSharable hpc hlock =>
    obtain ⟨hfree, rfl⟩ := RwLock.tryLockSharable_some hlock
    have hnew : (Pc.insertLoad 0).Holds false true := ⟨rfl, rfl⟩
    refine h.setThread hpc hnew nofun ?_ ?_
    · rw [hfree]
    · simp only [Bool.toNat_true, Bool.toNat_false]
      omega
  | record hpc =>
    have hold : (s.threads i).pc.Holds true false := hpc ▸ ⟨rfl, rfl⟩
    have hnew : Pc.idle.Holds false false := ⟨rfl, rfl⟩
    have howner := (h.of_exclusive hold.exclusive).2
    refine h.setThread hold hnew h.readers_zero ?_ rfl
    rw [if_neg hpid, if_pos howner]
    simp only [Bool.toNat_true, Bool.toNat_false]
    omega
  | clearOwner hpc hdead hplace =>
    have howner : s.exclusiveOwner ≠ 0 := by
      intro heq
      rw [heq, hzero] at hdead
      cases hdead
    have hnew : ∀ pc, (∃ op, pc = Pc.storeZero op ∨ pc = .releaseDead op) →
        pc.Holds true false := by
      rintro pc ⟨op, rfl | rfl⟩ <;> exact ⟨rfl, rfl⟩
    refine h.setThread hpc (hnew _ hplace) h.readers_zero ?_ rfl
    rw [if_pos rfl, if_neg howner]
    simp only [Bool.toNat_true, Bool.toNat_false]
    omega
  | @storeZero op hpc =>
    have hold : (s.threads i).pc.Holds true false := hpc ▸ ⟨rfl, rfl⟩
    have hnew : (Pc.releaseDead op).Holds true false := ⟨rfl, rfl⟩
    have howner := (h.of_exclusive hold.exclusive).2
    refine h.setThread hold hnew h.readers_zero ?_ rfl
    rw [if_pos rfl, if_pos howner]
  | unlockOwner hpc howner =>
    have hold : (s.threads i).pc.Holds false false := hpc ▸ ⟨rfl, rfl⟩
    have hnew : Pc.unlockMutex.Holds true false := ⟨rfl, rfl⟩
    refine h.setThread hold hnew h.readers_zero ?_ rfl
    rw [if_pos rfl, howner, if_neg hpid]
    simp only [Bool.toNat_true, Bool.toNat_false]
    omega
  | keepOwner hpc _ =>
    have hold : (s.threads i).pc.Holds false false := hpc ▸ ⟨rfl, rfl⟩
    exact h.setThread hold ⟨rfl, rfl⟩ h.readers_zero rfl rfl
  | releaseMutex hexcl hplace _ =>
    have hwriter := (h.of_exclusive hexcl).1
    have hshr : (s.threads i).pc.sharable = false := by
      cases hpc : (s.threads i).pc <;> simp [hpc, Pc.exclusive] at hexcl <;> rfl
    unfold releaseMutex
    rw [RwLock.unlock_of_writer hwriter]
    refine h.setThread ⟨hexcl, hshr⟩ hplace nofun ?_ rfl
    rw [hwriter]
    rfl
  | insert hpc hcell =>
    have hold : (s.threads i).pc.Holds false true := hpc ▸ ⟨rfl, rfl⟩
    have hnew : Pc.idle.Holds false false := ⟨rfl, rfl⟩
    refine h.setThread hold hnew h.readers_zero rfl ?_
    rw [LocklessSet.occupied_insert hcell hpid]
    simp only [Bool.toNat_true, Bool.toNat_false]
    omega
  | erase hpc hcell =>
    have hold : (s.threads i).pc.Holds false false := hpc ▸ ⟨rfl, rfl⟩
    have hnew : (Pc.releaseReader .unlockSharable).Holds false true := ⟨rfl, rfl⟩
    refine h.setThread hold hnew h.readers_zero rfl ?_
    have herase := LocklessSet.occupied_erase (hcell.trans_ne hpid)
    simp only [Bool.toNat_true, Bool.toNat_false]
    omega
  | @takeOver op k sharedOwner idx hpc hcell hdead =>
    have howner : s.sharedOwners idx ≠ 0 := by
      intro heq
      rw [← hcell, heq, hzero] at hdead
      cases hdead
    have hold : (s.threads i).pc.Holds false false := hpc ▸ ⟨rfl, rfl⟩
    have hnew : (Pc.releaseReader (.pruning op k sharedOwner)).Holds false true := ⟨rfl, rfl⟩
    simp only [removeCas, if_pos hcell]
    refine h.setThread hold hnew h.readers_zero rfl ?_
    have herase := LocklessSet.occupied_erase howner
    simp only [Bool.toNat_true, Bool.toNat_false]
    omega
  | keepCell hpc =>
    have hold : (s.threads i).pc.Neutral := by
      rcases hpc with ⟨idx, hpc⟩ | ⟨idx, hpc⟩ <;> rw [hpc] <;> exact ⟨rfl, rfl⟩
    exact h.setThread hold ⟨rfl, rfl⟩ h.readers_zero rfl rfl
  | @releaseReader caller hpc =>
    have hold : (s.threads i).pc.Holds false true := hpc ▸ ⟨rfl, rfl⟩
    obtain ⟨hwriter, hpos⟩ := h.of_sharable hold.sharable
    unfold releaseReader
    rw [RwLock.unlock_of_reader hwriter]
    refine h.setThread hold caller.next_neutral nofun ?_ ?_
    · rw [hwriter]
    · simp only [Bool.toNat_true, Bool.toNat_false]
      omega

end Counted

theorem Effect.thread (h : Effect s i s') :
    s'.dead = s.dead ∧ ∃ x, s'.threads = Function.update s.threads i x ∧
      x.pid = (s.threads i).pid ∧ x.Knows s.dead := by
  cases h with
  | move _ _ _ hpc => exact ⟨rfl, _, rfl, rfl, hpc⟩
  | releaseMutex _ _ hpc => exact ⟨rfl, _, rfl, rfl, hpc⟩
  | clearOwner _ _ hplace =>
    obtain ⟨op, rfl | rfl⟩ := hplace <;> exact ⟨rfl, _, rfl, rfl, trivial⟩
  | takeOver hpc hcell hdead =>
    simp only [removeCas, if_pos hcell]
    exact ⟨rfl, _, rfl, rfl, trivial⟩
  | @releaseReader caller hpc =>
    refine ⟨rfl, _, rfl, rfl, ?_⟩
    cases caller <;> trivial
  | acquire _ _ | acquireSharable _ _ | record _ | storeZero _ | unlockOwner _ _ | keepOwner _ _
  | insert _ _ | erase _ _ | keepCell _ => exact ⟨rfl, _, rfl, rfl, trivial⟩

theorem Effect.pid (h : Effect s i s') (j : Fin n) : (s'.threads j).pid = (s.threads j).pid := by
  obtain ⟨-, x, hthreads, hpid, -⟩ := h.thread
  by_cases hji : j = i
  · rw [hji, hthreads, Function.update_self, hpid]
  · rw [hthreads, Function.update_of_ne hji]

structure Recorded (s : State n) : Prop where
  owner : ∀ i, s.Alive i → (s.threads i).excl = true → s.exclusiveOwner = (s.threads i).pid
  unique : ∀ i j, s.Alive i → s.Alive j → (s.threads i).excl = true →
    (s.threads j).excl = true → i = j

namespace Recorded

variable {x : Thread}

theorem alive_of_ne {j : Fin n} (hdead : s'.dead = s.dead)
    (hthreads : s'.threads = Function.update s.threads i x) (hji : j ≠ i) :
    s'.Alive j ↔ s.Alive j := by
  rw [Alive, Alive, hdead, hthreads, Function.update_of_ne hji]

theorem keep (h : s.Recorded) (howner : s'.exclusiveOwner = s.exclusiveOwner)
    (hdead : s'.dead = s.dead) (hthreads : s'.threads = Function.update s.threads i x)
    (hpid : x.pid = (s.threads i).pid) (hexcl : x.excl = true → (s.threads i).excl = true) :
    s'.Recorded := by
  have hold : ∀ j, s'.Alive j → (s'.threads j).excl = true →
      s.Alive j ∧ (s.threads j).excl = true ∧ (s'.threads j).pid = (s.threads j).pid := by
    intro j hj hjx
    by_cases hji : j = i
    · subst hji
      rw [hthreads, Function.update_self] at hjx ⊢
      rw [Alive, hdead, hthreads, Function.update_self, hpid] at hj
      exact ⟨hj, hexcl hjx, hpid⟩
    · rw [hthreads, Function.update_of_ne hji] at hjx ⊢
      exact ⟨(alive_of_ne hdead hthreads hji).mp hj, hjx, rfl⟩
  refine ⟨?_, ?_⟩
  · intro j hj hjx
    obtain ⟨hj, hjx, hsame⟩ := hold j hj hjx
    rw [howner, hsame]
    exact h.owner j hj hjx
  · intro j k hj hk hjx hkx
    obtain ⟨hj, hjx, -⟩ := hold j hj hjx
    obtain ⟨hk, hkx, -⟩ := hold k hk hkx
    exact h.unique j k hj hk hjx hkx

theorem alone (hnone : ∀ j, j ≠ i → s.Alive j → (s.threads j).excl = false)
    (hdead : s'.dead = s.dead) (hthreads : s'.threads = Function.update s.threads i x)
    (hexcl : x.excl = true → s'.exclusiveOwner = x.pid) : s'.Recorded := by
  have honly : ∀ j, s'.Alive j → (s'.threads j).excl = true → j = i := by
    intro j hj hjx
    by_contra hji
    rw [hthreads, Function.update_of_ne hji] at hjx
    rw [hnone j hji ((alive_of_ne hdead hthreads hji).mp hj)] at hjx
    cases hjx
  refine ⟨?_, ?_⟩
  · intro j hj hjx
    obtain rfl := honly j hj hjx
    rw [hthreads, Function.update_self] at hjx ⊢
    exact hexcl hjx
  · intro j k hj hk hjx hkx
    exact (honly j hj hjx).trans (honly k hk hkx).symm

end Recorded

structure Sound (s : State n) : Prop extends Counted s, Recorded s where
  pid_ne : ∀ i, (s.threads i).pid ≠ 0
  dead_zero : s.dead 0 = false
  knows : ∀ i, s.Alive i → (s.threads i).Knows s.dead
  shared : ∀ p, p ≠ 0 → s.dead p = false →
    total (Thread.sharedOf p) s.threads ≤ s.sharedOwners.count p

namespace Sound

theorem excl_of_owner (h : s.Sound) (howner : s.exclusiveOwner = 0 ∨ s.dead s.exclusiveOwner = true)
    (j : Fin n) (hj : s.Alive j) : (s.threads j).excl = false := by
  by_contra hexcl
  have heq := h.owner j hj (by simpa using hexcl)
  rcases howner with hzero | hdead
  · exact h.pid_ne j (heq.symm.trans hzero)
  · rw [heq] at hdead
    rw [Alive, hdead] at hj
    cases hj

theorem recorded (h : s.Sound) (hi : s.Alive i) (heff : Effect s i s') : s'.Recorded := by
  cases heff with
  | record hpc =>
    have howner := (h.of_exclusive (i := i) (by rw [hpc]; rfl)).2
    exact .alone (fun j _ => h.excl_of_owner (.inl howner) j) rfl rfl fun _ => rfl
  | storeZero hpc =>
    have howner := (h.of_exclusive (i := i) (by rw [hpc]; rfl)).2
    refine .alone (fun j _ => h.excl_of_owner (.inl howner) j) rfl rfl fun hexcl => ?_
    rw [h.excl_of_owner (.inl howner) i hi] at hexcl
    cases hexcl
  | clearOwner hpc hdead _ =>
    refine .alone (fun j _ => h.excl_of_owner (.inr hdead) j) rfl rfl fun hexcl => ?_
    rw [h.excl_of_owner (.inr hdead) i hi] at hexcl
    cases hexcl
  | unlockOwner hpc howner =>
    have hexcl : (s.threads i).excl = true := by
      have hknows := h.knows i hi
      rwa [Thread.Knows, hpc] at hknows
    have hnone : ∀ j, j ≠ i → s.Alive j → (s.threads j).excl = false := by
      intro j hji hj
      by_contra hjx
      exact hji (h.unique j i hj hi (by simpa using hjx) hexcl)
    exact .alone hnone rfl rfl nofun
  | keepOwner hpc _ => exact h.toRecorded.keep rfl rfl rfl rfl nofun
  | takeOver hpc hcell _ =>
    simp only [removeCas, if_pos hcell]
    exact h.toRecorded.keep rfl rfl rfl rfl fun hexcl => hexcl
  | move _ _ _ _ | acquire _ _ | acquireSharable _ _ | releaseMutex _ _ _ | insert _ _ | erase _ _
  | keepCell _ | releaseReader _ => exact h.toRecorded.keep rfl rfl rfl rfl fun hexcl => hexcl

theorem shared_effect (h : s.Sound) (hi : s.Alive i) (heff : Effect s i s') {p : Nat} (hp : p ≠ 0)
    (hlive : s.dead p = false) :
    total (Thread.sharedOf p) s'.threads ≤ s'.sharedOwners.count p := by
  have hle := h.shared p hp hlive
  have hkeep : ∀ x : Thread, x.pid = (s.threads i).pid → x.shared = (s.threads i).shared →
      total (Thread.sharedOf p) (Function.update s.threads i x) ≤ s.sharedOwners.count p := by
    intro x hpid hshared
    rwa [total_update_same (by rw [Thread.sharedOf, Thread.sharedOf, hpid, hshared])]
  cases heff with
  | insert hpc hcell =>
    have ht := total_setThread (Thread.sharedOf p) s i
      { s.threads i with pc := .idle, shared := (s.threads i).shared + 1 }
    have hcount := LocklessSet.count_insert (s.threads i).pid hcell hp
    show total (Thread.sharedOf p) (s.setThread i _).threads ≤ (s.sharedOwners.store _ _).count p
    rw [hcount]
    simp only [Thread.sharedOf] at ht ⊢
    split_ifs at ht ⊢ <;> omega
  | erase hpc hcell =>
    have hpos : 0 < (s.threads i).shared := by
      have hknows := h.knows i hi
      rwa [Thread.Knows, hpc] at hknows
    have ht := total_setThread (Thread.sharedOf p) s i { s.threads i with
      pc := .releaseReader .unlockSharable, shared := (s.threads i).shared - 1 }
    have hcount := LocklessSet.count_erase hcell hp
    show total (Thread.sharedOf p) (s.setThread i _).threads ≤ (s.sharedOwners.store _ _).count p
    simp only [Thread.sharedOf] at ht ⊢
    split_ifs at ht hcount <;> omega
  | @takeOver op k sharedOwner idx hpc hcell hdead =>
    have hne : sharedOwner ≠ p := by
      rintro rfl
      rw [hlive] at hdead
      cases hdead
    have hcount := LocklessSet.count_erase hcell hp
    rw [if_neg hne, Nat.add_zero] at hcount
    simp only [removeCas, if_pos hcell]
    have hle := hkeep { s.threads i with pc := .releaseReader (.pruning op k sharedOwner) } rfl rfl
    exact hle.trans_eq hcount
  | keepCell hpc =>
    have ht := total_setThread (Thread.sharedOf p) s i
      { s.threads i with pc := .idle, shared := (s.threads i).shared - 1 }
    show total (Thread.sharedOf p) (s.setThread i _).threads ≤ s.sharedOwners.count p
    simp only [Thread.sharedOf] at ht ⊢
    split_ifs at ht <;> omega
  | move _ _ _ _ | acquire _ _ | acquireSharable _ _ | record _ | clearOwner _ _ _ | storeZero _
  | unlockOwner _ _ | keepOwner _ _ | releaseMutex _ _ _ | releaseReader _ => exact hkeep _ rfl rfl

theorem effect (h : s.Sound) (hi : s.Alive i) (heff : Effect s i s') : s'.Sound := by
  obtain ⟨hdead, x, hthreads, -, hknows⟩ := heff.thread
  have hpids := heff.pid
  refine ⟨h.toCounted.effect (h.pid_ne i) h.dead_zero heff, h.recorded hi heff, ?_, ?_, ?_, ?_⟩
  · intro j
    rw [hpids j]
    exact h.pid_ne j
  · rw [hdead, h.dead_zero]
  · intro j hj
    rw [Alive, hpids j] at hj
    rw [hdead] at hj ⊢
    by_cases hji : j = i
    · rw [hji, hthreads, Function.update_self]
      exact hknows
    · rw [hthreads, Function.update_of_ne hji]
      exact h.knows j hj
  · intro p hp hlive
    rw [hdead] at hlive
    exact h.shared_effect hi heff hp hlive

theorem effect_of_step (h : s.Sound) (hs : s.step (.step i) = some s') :
    s.Alive i ∧ Effect s i s' := by
  simp only [State.step] at hs
  split_ifs at hs with hi
  exact ⟨hi, effect_of_advance (h.knows i hi) hs⟩

theorem die (h : s.Sound) (i : Fin n) :
    Sound { s with dead := Function.update s.dead (s.threads i).pid true } := by
  have hlive : ∀ p, Function.update s.dead (s.threads i).pid true p = false → s.dead p = false := by
    intro p hp
    by_cases hpi : p = (s.threads i).pid
    · simp [hpi] at hp
    · rwa [Function.update_of_ne hpi] at hp
  have hmono : ∀ p, s.dead p = true → Function.update s.dead (s.threads i).pid true p = true := by
    intro p hp
    by_contra hne
    rw [hlive p (by simpa using hne)] at hp
    cases hp
  refine ⟨⟨h.readers_zero, h.writers, h.readers⟩,
    ⟨fun j hj => h.owner j (hlive _ hj), fun j k hj hk => h.unique j k (hlive _ hj) (hlive _ hk)⟩,
    h.pid_ne, ?_, ?_, fun p hp hpl => h.shared p hp (hlive p hpl)⟩
  · exact (Function.update_of_ne (h.pid_ne i).symm _ _).trans h.dead_zero
  · exact fun j hj => (h.knows j (hlive _ hj)).mono hmono

theorem step {l : Label n} (h : s.Sound) (hs : s.step l = some s') : s'.Sound := by
  cases l with
  | call i c =>
    obtain ⟨hi, heff⟩ := effect_of_call hs
    exact h.effect hi heff
  | step i =>
    obtain ⟨hi, heff⟩ := h.effect_of_step hs
    exact h.effect hi heff
  | die i =>
    obtain rfl := Option.some.inj hs
    exact h.die i

theorem new {pid : Fin n → Nat} (hpid : ∀ i, pid i ≠ 0) : (State.new pid).Sound := by
  have hzero : ∀ w : Thread → Nat, (∀ i, w ((State.new pid).threads i) = 0) →
      total w (State.new pid).threads = 0 := fun w hw => total_eq_zero.mpr hw
  refine ⟨⟨nofun, ?_, ?_⟩, ⟨nofun, nofun⟩, hpid, rfl, fun _ _ => trivial, ?_⟩
  · rw [hzero _ fun _ => rfl]
    rfl
  · rw [hzero _ fun _ => rfl]
    exact LocklessSet.occupied_empty.symm
  · intro p _ _
    rw [hzero _ fun _ => ite_self _]
    exact Nat.zero_le _

end Sound

structure Exclusive (s : State n) : Prop where
  exclusive : ∀ i j, s.Alive i → s.Alive j → (s.threads i).HoldsExclusive →
    (s.threads j).HoldsExclusive → i = j
  shared : ∀ i j, s.Alive i → s.Alive j → (s.threads i).HoldsExclusive →
    ¬ (s.threads j).HoldsShared

namespace Sound

theorem holdsExclusive (h : s.Sound) (hi : s.Alive i) (hexcl : (s.threads i).HoldsExclusive) :
    (s.threads i).excl = true ∧ s.exclusiveOwner = (s.threads i).pid ∨
    (s.threads i).pc.exclusive = true ∧ s.exclusiveOwner = 0 := by
  rcases hexcl with hexcl | hpc | hpc
  · exact .inl ⟨hexcl, h.owner i hi hexcl⟩
  · have hexcl : (s.threads i).pc.exclusive = true := by rw [hpc]; rfl
    exact .inr ⟨hexcl, (h.of_exclusive hexcl).2⟩
  · have hexcl : (s.threads i).pc.exclusive = true := by rw [hpc]; rfl
    exact .inr ⟨hexcl, (h.of_exclusive hexcl).2⟩

theorem writer_of_holdsExclusive (h : s.Sound) (hi : s.Alive i)
    (hexcl : (s.threads i).HoldsExclusive) : s.mutex.writer = true := by
  rcases h.holdsExclusive hi hexcl with ⟨-, howner⟩ | ⟨hpc, -⟩
  · exact h.of_owner (howner.trans_ne (h.pid_ne i))
  · exact (h.of_exclusive hpc).1

theorem readers_of_holdsShared (h : s.Sound) (hi : s.Alive i)
    (hshared : (s.threads i).HoldsShared) : 0 < s.mutex.readers := by
  have hunrecorded : (s.threads i).pc.sharable = true → 0 < s.mutex.readers :=
    fun hpc => (h.of_sharable hpc).2
  rcases hshared with hpos | ⟨idx, hpc⟩ | ⟨idx, hpc⟩ | hpc
  · have hle := le_total (Thread.sharedOf (s.threads i).pid) s.threads i
    rw [Thread.sharedOf, if_pos rfl] at hle
    have hcells := h.shared _ (h.pid_ne i) hi
    have hoccupied : s.sharedOwners.count (s.threads i).pid ≤ s.sharedOwners.occupied :=
      LocklessSet.count_le_occupied (h.pid_ne i)
    have hr := h.readers
    omega
  · exact hunrecorded (by rw [hpc]; rfl)
  · exact hunrecorded (by rw [hpc]; rfl)
  · exact hunrecorded (by rw [hpc]; rfl)

theorem exclusive (h : s.Sound) : s.Exclusive := by
  constructor
  · intro i j hi hj hix hjx
    rcases h.holdsExclusive hi hix with ⟨hie, howner⟩ | ⟨hip, hzero⟩ <;>
      rcases h.holdsExclusive hj hjx with ⟨hje, howner'⟩ | ⟨hjp, hzero'⟩
    · exact h.unique i j hi hj hie hje
    · exact absurd (howner.symm.trans hzero') (h.pid_ne i)
    · exact absurd (howner'.symm.trans hzero) (h.pid_ne j)
    · exact h.exclusive_unique hip hjp
  · intro i j hi hj hix hjs
    have hnone := h.readers_zero (h.writer_of_holdsExclusive hi hix)
    have hpos := h.readers_of_holdsShared hj hjs
    omega

end Sound

/-- Whatever the interleaving and whoever dies, live threads exclude each other. -/
theorem exclusive_of_run {pid : Fin n → Nat} (hpid : ∀ i, pid i ≠ 0) {labels : List (Label n)}
    (h : Machine.run step (new pid) labels = some s) : s.Exclusive :=
  ((Machine.Run.of_run h).invariant Sound (.new hpid) fun _ _ _ ht _ hs => ht.step hs).exclusive

theorem exclusive_after_recovery : ∃ s : State 2,
    Machine.run step (new fun i => i.val + 1) ([.call 0 (.acquire .lock), .step 0, .step 0, .die 0,
      .call 1 (.acquire .lock)] ++ List.replicate 8 (.step 1)) = some s ∧
    (s.threads 1).excl = true ∧ s.Exclusive := by
  have hrun : (Machine.run step (new fun i : Fin 2 => i.val + 1) ([.call 0 (.acquire .lock),
      .step 0, .step 0, .die 0, .call 1 (.acquire .lock)] ++ List.replicate 8 (.step 1))).map
      (fun s => (s.threads 1).excl) = some true := by decide +kernel
  obtain ⟨s, hs, hexcl⟩ := Option.map_eq_some_iff.mp hrun
  exact ⟨s, hs, hexcl, exclusive_of_run (fun i => Nat.succ_ne_zero i.val) hs⟩

end State

end Shadesmar.Concurrency.RobustLock
