import Shadesmar.PubSub.Interleaving
import Shadesmar.Concurrency.Exclusion

/-! The constructor of `memory/memory.h`, run by processes that attach to a topic while others
use it.  It resets the memory when `PIDSet::any_alive` has found nobody alive, and registers its
own process after that.  The segment has been initialised by the constructor that created it. -/

namespace Shadesmar.PubSub.Attaching

open Library Shadesmar.Memory Shadesmar.Concurrency Interleaving

/-- The place of a process in the constructor, by the action that comes next.  From `anyAlive`
to `removeCas` it is in `any_alive`, at cell `idx`; `alive` is the local variable. -/
inductive Pc
  | start
  | locking
  | anyAlive (idx : Nat) (alive : Bool)
  | testDead (idx : Nat) (alive : Bool) (pid : Nat)
  | removeLoad (idx : Nat) (alive : Bool) (pid : Nat) (k : Nat)
  | removeCas (idx : Nat) (alive : Bool) (pid : Nat) (k : Fin 32)
  | lockReset
  | resetElem (q : Nat)
  | resetCounter
  | resetAllocator
  | unlock
  | unlocking
  | insertLoad (idx : Nat)
  | insertCas (idx : Fin 32)
  | attached
  deriving DecidableEq

/-- `lck` and `pidSet` are the two parts of `PIDSet`; `lck` also says which process each
participant belongs to and which processes are dead. -/
structure State (n : Nat) where
  lck : RobustLock.State n
  pidSet : LocklessSet 32
  world : World n n
  pcs : Fin n → Pc

inductive Label (n : Nat)
  | attach (i : Fin n)
  | topic (l : Interleaving.Label n n)
  | die (i : Fin n)

namespace State

variable {n : Nat}

def new (pid : Fin (n + 1) → Nat) (heapBase bufferSize : Nat) : State (n + 1) where
  lck := .new pid
  pidSet := LocklessSet.empty.store 0 (pid 0)
  world := .new heapBase bufferSize
  pcs := fun i => if i = 0 then .attached else .start

def pid (s : State n) (i : Fin n) : Nat := (s.lck.threads i).pid

abbrev Alive (s : State n) (i : Fin n) : Prop := s.lck.Alive i

def setPc (s : State n) (i : Fin n) (pc : Pc) : State n :=
  { s with pcs := Function.update s.pcs i pc }

def setTopic (s : State n) (t : Topic) : State n := { s with world := s.world.setTopic t }

/-- `elem.reset()` -/
def resetElem (s : State n) (q : Fin queueSize) : State n :=
  { s with world := (s.world.setTopic (s.world.topic.setElem q .fresh)).setLock q .free }

def resetCounter (s : State n) : State n :=
  let t := s.world.topic
  s.setTopic { t with queue := { t.queue with counter := 0 } }

def resetAllocator (s : State n) : State n :=
  let t := s.world.topic
  s.setTopic { t with allocator := t.allocator.reset }

/-- One step of `RobustLock::lock` or `unlock`; `pc` is the place after the call. -/
def lockStep (s : State n) (i : Fin n) (pc : Pc) : Option (State n) :=
  (s.lck.step (.step i)).map fun lck =>
    { s with lck := lck }.setPc i (if (lck.threads i).pc = RobustLock.Pc.idle then pc else s.pcs i)

def advance (s : State n) (i : Fin n) : Option (State n) :=
  match s.pcs i with
  | .start =>
    (s.lck.step (.call i (.acquire .lock))).map fun lck => { s with lck := lck }.setPc i .locking
  | .locking => s.lockStep i (.anyAlive 0 false)
  | .anyAlive idx alive =>
    if h : idx < 32 then
      let pid := s.pidSet ⟨idx, h⟩
      if pid = 0 then some (s.setPc i (.anyAlive (idx + 1) alive))
      else some (s.setPc i (.testDead idx (alive || pid == s.pid i) pid))
    else some (s.setPc i (if alive then .unlock else .lockReset))
  | .testDead idx alive pid =>
    if s.lck.dead pid then some (s.setPc i (.removeLoad idx alive pid 0))
    else some (s.setPc i (.anyAlive (idx + 1) true))
  | .removeLoad idx alive pid k =>
    if h : k < 32 then
      if s.pidSet ⟨k, h⟩ = pid then some (s.setPc i (.removeCas idx alive pid ⟨k, h⟩))
      else some (s.setPc i (.removeLoad idx alive pid (k + 1)))
    -- `remove` is called again until it returns true
    else some (s.setPc i (.removeLoad idx alive pid 0))
  | .removeCas idx alive pid k =>
    if s.pidSet k = pid then
      some ({ s with pidSet := s.pidSet.store k 0 }.setPc i (.anyAlive (idx + 1) alive))
    else some (s.setPc i (.removeLoad idx alive pid 0))
  -- `World` has no lock of the allocator: nobody holds it between two steps
  | .lockReset => some (s.setPc i (.resetElem 0))
  | .resetElem q =>
    if h : q < queueSize then some ((s.resetElem ⟨q, h⟩).setPc i (.resetElem (q + 1)))
    else some (s.setPc i .resetCounter)
  | .resetCounter => some (s.resetCounter.setPc i .resetAllocator)
  | .resetAllocator => some (s.resetAllocator.setPc i .unlock)
  | .unlock =>
    (s.lck.step (.call i .unlock)).map fun lck => { s with lck := lck }.setPc i .unlocking
  | .unlocking => s.lockStep i (.insertLoad 0)
  -- the constructor returns whatever `insert` does
  | .insertLoad idx =>
    if h : idx < 32 then
      let probedElem := s.pidSet ⟨idx, h⟩
      if probedElem = s.pid i then some (s.setPc i .attached)
      else if probedElem ≠ 0 then some (s.setPc i (.insertLoad (idx + 1)))
      else some (s.setPc i (.insertCas ⟨idx, h⟩))
    else some (s.setPc i .attached)
  | .insertCas idx =>
    if s.pidSet idx = 0 then
      some ({ s with pidSet := s.pidSet.store idx (s.pid i) }.setPc i .attached)
    else some (s.setPc i (.insertLoad (idx.val + 1)))
  | .attached => none

end State

def actor {n : Nat} : Interleaving.Label n n → Fin n
  | .write i _ => i
  | .publisher i => i
  | .subscriber j => j

namespace Pc

def Resets : Pc → Prop
  | lockReset => True
  | resetElem _ => True
  | resetCounter => True
  | resetAllocator => True
  | _ => False

def passed : Pc → Nat
  | anyAlive idx false => idx
  | testDead idx false _ => idx + 1
  | removeLoad idx false _ _ => idx + 1
  | removeCas idx false _ _ => idx + 1
  | lockReset => 32
  | resetElem _ => 32
  | resetCounter => 32
  | resetAllocator => 32
  | _ => 0

def tested : Pc → Option Nat
  | testDead _ _ pid => some pid
  | _ => none

def removing : Pc → Option Nat
  | removeLoad _ _ pid _ => some pid
  | removeCas _ _ pid _ => some pid
  | _ => none

theorem Resets.passed {pc : Pc} (h : pc.Resets) : pc.passed = 32 ∧ pc.tested = none := by
  cases pc with
  | lockReset | resetElem q | resetCounter | resetAllocator => exact ⟨rfl, rfl⟩
  | _ => exact h.elim

end Pc

namespace State

variable {n : Nat}

def step (alloc : Nat → Bool) (s : State n) : Label n → Option (State n)
  | .attach i => if s.Alive i then s.advance i else none
  | .topic l =>
    if s.Alive (actor l) ∧ s.pcs (actor l) = .attached then
      (s.world.step alloc l).map fun world => { s with world := world }
    else none
  | .die i => (s.lck.step (.die i)).map fun lck => { s with lck := lck }

/-- Nobody alive resets the memory while a live process is attached, other than its own. -/
def Spared (s : State n) : Prop := ∀ i j, s.Alive i → (s.pcs i).Resets →
  s.Alive j → s.pcs j = .attached → s.pid j = s.pid i

/-- An `insert` does not find the set full, and it does not take a cell that a participant of
another live process has already gone through without finding anybody alive. -/
def Registers (s : State n) (l : Label n) : Prop := ∀ i, l = .attach i →
  (∀ idx, s.pcs i = .insertLoad idx → idx < 32) ∧
  ∀ idx, s.pcs i = .insertCas idx → s.pidSet idx = 0 →
    ∀ j, s.Alive j → s.pid j ≠ s.pid i → (s.pcs j).passed ≤ idx.val

variable {s s' : State n} {i : Fin n} {pc : Pc}

def Lifeless (s : State n) (i : Fin n) (pc : Pc) (k : Fin 32) : Prop :=
  s.pidSet k = 0 ∨ s.lck.dead (s.pidSet k) = true ∨ s.pidSet k = s.pid i ∨
    pc.tested = some (s.pidSet k)

structure Watched (s : State n) : Prop where
  lck : s.lck.Sound
  removing : ∀ i pid, (s.pcs i).removing = some pid → s.lck.dead pid = true
  registered : ∀ j, s.Alive j → s.pcs j = .attached → ∃ k, s.pidSet k = s.pid j
  passed : ∀ i, s.Alive i → ∀ k : Fin 32, k.val < (s.pcs i).passed → s.Lifeless i (s.pcs i) k

namespace Watched

theorem spared (h : s.Watched) : s.Spared := by
  intro i j hi hreset hj hattached
  obtain ⟨hall, hnone⟩ := hreset.passed
  obtain ⟨k, hk⟩ := h.registered j hj hattached
  rcases h.passed i hi k (by rw [hall]; exact k.isLt) with hzero | hdead | hown | htested
  · exact absurd (hk.symm.trans hzero) (h.lck.pid_ne j)
  · rw [hk] at hdead
    exact absurd (hj.symm.trans hdead) nofun
  · exact hk.symm.trans hown
  · rw [hnone] at htested
    cases htested

theorem update (h : s.Watched) (hlck : s'.lck.Sound) (hdead : s'.lck.dead = s.lck.dead)
    (hpid : ∀ j, s'.pid j = s.pid j) (hpcs : s'.pcs = Function.update s.pcs i pc)
    (hremoving : ∀ pid, pc.removing = some pid → s.lck.dead pid = true)
    (hkept : ∀ j, s.Alive j → ∀ k, s.pidSet k = s.pid j → s'.pidSet k = s.pid j)
    (hregistered : pc = .attached → ∃ k, s'.pidSet k = s.pid i)
    (hpassed : ∀ k : Fin 32, k.val < pc.passed → s'.Lifeless i pc k)
    (hothers : ∀ j, j ≠ i → s.Alive j → ∀ k : Fin 32, k.val < (s.pcs j).passed →
      s'.pidSet k = s.pidSet k ∨ s'.pidSet k = 0 ∨ s'.pidSet k = s.pid j) : s'.Watched := by
  have halive : ∀ j, s'.Alive j → s.Alive j := by
    intro j hj
    rwa [Alive, RobustLock.State.Alive, hdead, ← pid, hpid j] at hj
  refine ⟨hlck, ?_, ?_, ?_⟩
  · intro j p hp
    rw [hpcs] at hp
    rw [hdead]
    by_cases hji : j = i
    · rw [hji, Function.update_self] at hp
      exact hremoving p hp
    · rw [Function.update_of_ne hji] at hp
      exact h.removing j p hp
  · intro j hj hattached
    rw [hpcs] at hattached
    rw [hpid]
    by_cases hji : j = i
    · rw [hji, Function.update_self] at hattached
      exact hji ▸ hregistered hattached
    · rw [Function.update_of_ne hji] at hattached
      obtain ⟨k, hk⟩ := h.registered j (halive j hj) hattached
      exact ⟨k, hkept j (halive j hj) k hk⟩
  · intro j hj k hk
    rw [hpcs] at hk ⊢
    by_cases hji : j = i
    · rw [hji, Function.update_self] at hk ⊢
      exact hpassed k hk
    · rw [Function.update_of_ne hji] at hk ⊢
      rcases hothers j hji (halive j hj) k hk with hsame | hzero | hown
      · have hold := h.passed j (halive j hj) k hk
        rwa [Lifeless, hsame, hdead, hpid]
      · exact .inl hzero
      · exact .inr (.inr (.inl (hown.trans (hpid j).symm)))

theorem keep (h : s.Watched) (hlck : s'.lck.Sound) (hdead : s'.lck.dead = s.lck.dead)
    (hpid : ∀ j, s'.pid j = s.pid j) (hpcs : s'.pcs = Function.update s.pcs i pc)
    (hcells : s'.pidSet = s.pidSet)
    (hremoving : ∀ pid, pc.removing = some pid → s.lck.dead pid = true)
    (hregistered : pc = .attached → ∃ k, s.pidSet k = s.pid i)
    (hpassed : ∀ k : Fin 32, k.val < pc.passed → s.Lifeless i pc k) : s'.Watched := by
  refine h.update hlck hdead hpid hpcs hremoving ?_ ?_ ?_ ?_
  · intro j _ k hk
    rw [hcells, hk]
  · rwa [hcells]
  · intro k hk
    have hold := hpassed k hk
    rwa [Lifeless, hcells, hdead, hpid]
  · intro j _ _ k _
    rw [hcells]
    exact .inl rfl

theorem setPc (h : s.Watched) (hremoving : ∀ pid, pc.removing = some pid → s.lck.dead pid = true)
    (hregistered : pc = .attached → ∃ k, s.pidSet k = s.pid i)
    (hpassed : ∀ k : Fin 32, k.val < pc.passed → s.Lifeless i pc k) : (s.setPc i pc).Watched :=
  h.keep h.lck rfl (fun _ => rfl) rfl rfl hremoving hregistered hpassed

theorem lck_step {lck : RobustLock.State n} {l : RobustLock.Label n} (h : s.Watched)
    (hl : ∀ j, l ≠ .die j) (hs : s.lck.step l = some lck) :
    lck.Sound ∧ lck.dead = s.lck.dead ∧ ∀ j, (lck.threads j).pid = (s.lck.threads j).pid := by
  have hsound := h.lck.step hs
  cases l with
  | call i c =>
    have heff := (RobustLock.State.effect_of_call hs).2
    exact ⟨hsound, heff.thread.1, heff.pid⟩
  | step i =>
    have heff := (h.lck.effect_of_step hs).2
    exact ⟨hsound, heff.thread.1, heff.pid⟩
  | die i => exact absurd rfl (hl i)

theorem erase (h : s.Watched) {k : Fin 32} (hcell : s.lck.dead (s.pidSet k) = true)
    (hremoving : pc.removing = none) (hattached : pc ≠ .attached)
    (hpassed : ∀ k : Fin 32, k.val < pc.passed → s.Lifeless i pc k) :
    ({ s with pidSet := s.pidSet.store k 0 }.setPc i pc).Watched := by
  refine h.update h.lck rfl (fun _ => rfl) rfl ?_ ?_ ?_ ?_ ?_
  · rw [hremoving]
    nofun
  · intro j hj k' hk'
    refine (LocklessSet.store_of_ne ?_).trans hk'
    rintro rfl
    rw [hk'] at hcell
    exact absurd (hj.symm.trans hcell) nofun
  · exact fun heq => absurd heq hattached
  · intro k' hk'
    rcases s.pidSet.erase_cases k k' with hsame | hzero
    · have hold := hpassed k' hk'
      rw [Lifeless, ← hsame] at hold
      exact hold
    · exact .inl hzero
  · intro j _ _ k' _
    rcases s.pidSet.erase_cases k k' with hsame | hzero
    · exact .inl hsame
    · exact .inr (.inl hzero)

theorem insert (h : s.Watched) {idx : Fin 32} (hcell : s.pidSet idx = 0)
    (hfree : ∀ j, s.Alive j → s.pid j ≠ s.pid i → (s.pcs j).passed ≤ idx.val) :
    ({ s with pidSet := s.pidSet.store idx (s.pid i) }.setPc i .attached).Watched := by
  refine h.update h.lck rfl (fun _ => rfl) rfl nofun ?_ ?_ nofun ?_
  · intro j _ k hk
    refine (LocklessSet.store_of_ne ?_).trans hk
    rintro rfl
    exact h.lck.pid_ne j (hk.symm.trans hcell)
  · exact fun _ => ⟨idx, LocklessSet.store_self ..⟩
  · intro j _ hj k hk
    by_cases hidx : k = idx
    · subst hidx
      refine .inr (.inr ((LocklessSet.store_self ..).trans ?_))
      by_contra hne
      have := hfree j hj (Ne.symm hne)
      omega
    · exact .inl (LocklessSet.store_of_ne hidx)

theorem lockStep (h : s.Watched) (hplace : (s.pcs i).passed = 0 ∧ (s.pcs i).removing = none ∧
    s.pcs i ≠ .attached) (hpc : pc.passed = 0 ∧ pc.removing = none ∧ pc ≠ .attached)
    (hs : s.lockStep i pc = some s') : s'.Watched := by
  obtain ⟨lck, hlck, rfl⟩ := Option.map_eq_some_iff.mp hs
  obtain ⟨hsound, hdead, hpid⟩ := h.lck_step (by nofun) hlck
  have hnew : ∀ pc' : Pc, pc'.passed = 0 ∧ pc'.removing = none ∧ pc' ≠ .attached →
      ({ s with lck := lck }.setPc i pc').Watched := by
    rintro pc' ⟨hzero, hnone, hattached⟩
    refine h.keep hsound hdead hpid rfl rfl ?_ (fun heq => absurd heq hattached) ?_
    · rw [hnone]
      nofun
    · rw [hzero]
      exact fun k hk => absurd hk (Nat.not_lt_zero _)
  split_ifs
  · exact hnew pc hpc
  · exact hnew _ hplace

theorem advance (h : s.Watched) (hi : s.Alive i) (hok : s.Registers (.attach i))
    (hs : s.advance i = some s') : s'.Watched := by
  obtain ⟨hroom, hfree⟩ := hok i rfl
  have hall := h.passed i hi
  have hremoving := h.removing i
  unfold State.advance at hs
  cases hpc : s.pcs i with
  | start =>
    simp only [hpc] at hs
    obtain ⟨lck, hlck, rfl⟩ := Option.map_eq_some_iff.mp hs
    obtain ⟨hsound, hdead, hpid⟩ := h.lck_step (by nofun) hlck
    exact h.keep hsound hdead hpid rfl rfl nofun nofun fun k hk => absurd hk (Nat.not_lt_zero _)
  | locking =>
    simp only [hpc] at hs
    refine h.lockStep ?_ ?_ hs
    · rw [hpc]
      exact ⟨rfl, rfl, nofun⟩
    · exact ⟨rfl, rfl, nofun⟩
  | anyAlive idx alive =>
    simp only [hpc] at hs hall
    split_ifs at hs with hidx hzero halive <;> obtain rfl := Option.some.inj hs
    · refine h.setPc nofun nofun fun k hk => ?_
      cases alive with
      | true => exact absurd hk (Nat.not_lt_zero _)
      | false =>
        rcases Nat.lt_succ_iff_lt_or_eq.mp hk with hlt | heq
        · exact hall k hlt
        · obtain rfl : k = ⟨idx, hidx⟩ := Fin.ext heq
          exact .inl hzero
    · refine h.setPc nofun nofun fun k hk => ?_
      cases halive : alive || s.pidSet ⟨idx, hidx⟩ == s.pid i with
      | true =>
        rw [halive] at hk
        exact absurd hk (Nat.not_lt_zero _)
      | false =>
        obtain ⟨rfl, -⟩ := Bool.or_eq_false_iff.mp halive
        rw [halive] at hk
        rcases Nat.lt_succ_iff_lt_or_eq.mp hk with hlt | heq
        · rcases hall k hlt with hzero | hdead | hown | htested
          · exact .inl hzero
          · exact .inr (.inl hdead)
          · exact .inr (.inr (.inl hown))
          · cases htested
        · obtain rfl : k = ⟨idx, hidx⟩ := Fin.ext heq
          exact .inr (.inr (.inr rfl))
    · exact h.setPc nofun nofun nofun
    · refine h.setPc nofun nofun fun k _ => ?_
      obtain rfl : alive = false := by simpa using halive
      exact hall k (Nat.lt_of_lt_of_le k.isLt (Nat.le_of_not_lt hidx))
  | testDead idx alive p =>
    simp only [hpc] at hs hall
    split_ifs at hs with hdead <;> obtain rfl := Option.some.inj hs
    · refine h.setPc (fun p' hp' => ?_) nofun fun k hk => ?_
      · obtain rfl := Option.some.inj hp'
        exact hdead
      · have hk' : k.val < (Pc.testDead idx alive p).passed := by
          cases alive <;> exact hk
        rcases hall k hk' with hzero | hdead' | hown | htested
        · exact .inl hzero
        · exact .inr (.inl hdead')
        · exact .inr (.inr (.inl hown))
        · obtain rfl := Option.some.inj htested
          exact .inr (.inl hdead)
    · exact h.setPc nofun nofun nofun
  | removeLoad idx alive p k =>
    simp only [hpc] at hs hall hremoving
    split_ifs at hs <;> obtain rfl := Option.some.inj hs <;>
      exact h.setPc hremoving nofun fun k' hk' => hall k' (by cases alive <;> exact hk')
  | removeCas idx alive p k =>
    simp only [hpc] at hs hall hremoving
    split_ifs at hs with hcell <;> obtain rfl := Option.some.inj hs
    · refine h.erase (by rw [hcell]; exact hremoving p rfl) rfl nofun fun k' hk' => ?_
      exact hall k' (by cases alive <;> exact hk')
    · exact h.setPc hremoving nofun fun k' hk' => hall k' (by cases alive <;> exact hk')
  | lockReset =>
    simp only [hpc] at hs hall
    obtain rfl := Option.some.inj hs
    exact h.setPc nofun nofun hall
  | resetElem q =>
    simp only [hpc] at hs hall
    split_ifs at hs <;> obtain rfl := Option.some.inj hs
    · exact h.keep h.lck rfl (fun _ => rfl) rfl rfl nofun nofun hall
    · exact h.setPc nofun nofun hall
  | resetCounter =>
    simp only [hpc] at hs hall
    obtain rfl := Option.some.inj hs
    exact h.keep h.lck rfl (fun _ => rfl) rfl rfl nofun nofun hall
  | resetAllocator =>
    simp only [hpc] at hs
    obtain rfl := Option.some.inj hs
    refine h.keep h.lck rfl (fun _ => rfl) rfl rfl nofun nofun fun k hk => ?_
    exact absurd hk (Nat.not_lt_zero _)
  | unlock =>
    simp only [hpc] at hs
    obtain ⟨lck, hlck, rfl⟩ := Option.map_eq_some_iff.mp hs
    obtain ⟨hsound, hdead, hpid⟩ := h.lck_step (by nofun) hlck
    exact h.keep hsound hdead hpid rfl rfl nofun nofun fun k hk => absurd hk (Nat.not_lt_zero _)
  | unlocking =>
    simp only [hpc] at hs
    refine h.lockStep ?_ ?_ hs
    · rw [hpc]
      exact ⟨rfl, rfl, nofun⟩
    · exact ⟨rfl, rfl, nofun⟩
  | insertLoad idx =>
    simp only [hpc] at hs
    rw [dif_pos (hroom idx hpc)] at hs
    split_ifs at hs with hown hzero <;> obtain rfl := Option.some.inj hs
    · exact h.setPc nofun (fun _ => ⟨_, hown⟩) nofun
    · exact h.setPc nofun nofun nofun
    · exact h.setPc nofun nofun nofun
  | insertCas idx =>
    simp only [hpc] at hs
    split_ifs at hs with hzero <;> obtain rfl := Option.some.inj hs
    · exact h.insert hzero (hfree idx hpc hzero)
    · exact h.setPc nofun nofun nofun
  | attached => simp [hpc] at hs

theorem step {alloc : Nat → Bool} {l : Label n} (h : s.Watched) (hok : s.Registers l)
    (hs : s.step alloc l = some s') : s'.Watched := by
  cases l with
  | attach i =>
    simp only [State.step] at hs
    split_ifs at hs with hi
    exact h.advance hi hok hs
  | topic l =>
    simp only [State.step] at hs
    split_ifs at hs
    obtain ⟨world, -, rfl⟩ := Option.map_eq_some_iff.mp hs
    exact ⟨h.lck, h.removing, h.registered, h.passed⟩
  | die i =>
    simp only [State.step] at hs
    obtain ⟨lck, hlck, rfl⟩ := Option.map_eq_some_iff.mp hs
    have hsound := h.lck.step hlck
    obtain rfl := Option.some.inj hlck
    have hmono : ∀ p, s.lck.dead p = true → Function.update s.lck.dead (s.pid i) true p = true := by
      intro p hp
      by_cases hpi : p = s.pid i
      · rw [hpi, Function.update_self]
      · rw [Function.update_of_ne hpi, hp]
    have halive : ∀ j, Function.update s.lck.dead (s.pid i) true (s.pid j) = false → s.Alive j := by
      intro j hj
      by_contra hdead
      rw [hmono (s.pid j) (by simpa [Alive, RobustLock.State.Alive, pid] using hdead)] at hj
      cases hj
    refine ⟨hsound, fun j p hp => hmono p (h.removing j p hp),
      fun j hj => h.registered j (halive j hj), fun j hj k hk => ?_⟩
    exact (h.passed j (halive j hj) k hk).imp_right (.imp_left (hmono _))

theorem new {pid : Fin (n + 1) → Nat} (hpid : ∀ i, pid i ≠ 0) (heapBase bufferSize : Nat) :
    (State.new pid heapBase bufferSize).Watched := by
  have hpc : ∀ i, ((State.new pid heapBase bufferSize).pcs i).removing = none ∧
      ((State.new pid heapBase bufferSize).pcs i).passed = 0 := by
    intro i
    simp only [State.new]
    split_ifs <;> exact ⟨rfl, rfl⟩
  refine ⟨.new hpid, ?_, ?_, ?_⟩
  · intro i p hp
    rw [(hpc i).1] at hp
    cases hp
  · intro j _ hattached
    by_cases hj : j = 0
    · have hcell : LocklessSet.empty.store (0 : Fin 32) (pid 0) 0 = pid 0 :=
        LocklessSet.store_self ..
      rw [hj]
      exact ⟨0, hcell⟩
    · simp only [State.new, if_neg hj] at hattached
      cases hattached
  · intro i _ k hk
    rw [(hpc i).2] at hk
    exact absurd hk (Nat.not_lt_zero _)

end Watched

/-- Nobody's memory is reset while every process registers in time. -/
theorem spared_of_registers {pid : Fin (n + 1) → Nat} (hpid : ∀ i, pid i ≠ 0)
    {heapBase bufferSize : Nat} {alloc : Nat → Bool} {labels : List (Label (n + 1))}
    {s : State (n + 1)}
    (h : Machine.Run (step alloc) Registers (new pid heapBase bufferSize) labels s) : s.Spared :=
  (h.invariant Watched (.new hpid heapBase bufferSize) fun _ _ _ ht hok hs => ht.step hok hs).spared

/-- Participant 2 attaches and registers, the creator dies, and participant 1 goes through
`any_alive`. -/
def timelyLabels : List (Label 3) :=
  List.replicate 43 (.attach 2) ++ [.die 0] ++ List.replicate 40 (.attach 1)

theorem spared_after_registration : ∃ s : State 3,
    Machine.run (step fun _ => true) (new (fun i => i.val + 1) 4096 (2 ^ 28)) timelyLabels =
      some s ∧ s.pcs 2 = .attached ∧ s.pcs 1 = .unlock ∧ s.Spared := by
  let check : State 3 → Label 3 → Bool := fun s l =>
    match l with
    | .attach i =>
      match s.pcs i with
      | .insertLoad idx => decide (idx < 32)
      | .insertCas idx => decide (∀ j, (s.pcs j).passed ≤ idx.val)
      | _ => true
    | _ => true
  have hcheck : ∀ s l, check s l = true → Registers s l := by
    rintro s l hl i rfl
    refine ⟨fun idx hpc => ?_, fun idx hpc _ j _ _ => ?_⟩
    · simpa only [check, hpc, decide_eq_true_eq] using hl
    · have hall : ∀ j, (s.pcs j).passed ≤ idx.val := by
        simpa only [check, hpc, decide_eq_true_eq] using hl
      exact hall j
  have hrun : (Machine.runIf (step fun _ => true) check
      (new (fun i : Fin 3 => i.val + 1) 4096 (2 ^ 28)) timelyLabels).map
      (fun s => (s.pcs 2, s.pcs 1)) = some (.attached, .unlock) := by decide +kernel
  obtain ⟨s, hs, hvals⟩ := Option.map_eq_some_iff.mp hrun
  simp only [Prod.mk.injEq] at hvals
  have hrun := Machine.Run.of_runIf hcheck hs
  exact ⟨s, hrun.run_eq, hvals.1, hvals.2,
    spared_of_registers (fun i => Nat.succ_ne_zero i.val) hrun⟩

/-- Participant 2 has left `any_alive` when the creator dies.  Participant 1 finds nobody alive,
and participant 2 registers in the cell that the creator had. -/
def lateLabels : List (Label 3) :=
  List.replicate 40 (.attach 2) ++ [.die 0] ++ List.replicate 40 (.attach 1) ++
    [.attach 2, .attach 2]

/-- A process resets the queue that another one is attached to. -/
theorem late_registration : ∃ s : State 3,
    Machine.run (step fun _ => true) (new (fun i => i.val + 1) 4096 (2 ^ 28)) lateLabels = some s ∧
    ¬ s.Spared := by
  have hrun : (Machine.run (step fun _ => true) (new (fun i : Fin 3 => i.val + 1) 4096 (2 ^ 28))
      lateLabels).map (fun s => (s.pcs 1, s.pcs 2, decide (s.Alive 1), decide (s.Alive 2),
        s.pid 1, s.pid 2)) = some (.resetElem 0, .attached, true, true, 2, 3) := by decide +kernel
  obtain ⟨s, hs, hvals⟩ := Option.map_eq_some_iff.mp hrun
  simp only [Prod.mk.injEq, decide_eq_true_eq] at hvals
  obtain ⟨hreset, hattached, h1, h2, hpid1, hpid2⟩ := hvals
  refine ⟨s, hs, fun hspared => ?_⟩
  have hsame := hspared 1 2 h1 (by rw [hreset]; trivial) h2 hattached
  rw [hpid1, hpid2] at hsame
  cases hsame

end State

end Shadesmar.PubSub.Attaching
