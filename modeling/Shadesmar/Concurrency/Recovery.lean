import Shadesmar.Concurrency.Exclusion

namespace Shadesmar.Concurrency.RobustLock

open Library Library.Tally

def Thread.sharableOf (p : Nat) (x : Thread) : Nat := if x.pid = p then x.sharable else 0

namespace State

variable {n : Nat} {s s' : State n} {i : Fin n}

structure Attributed (s : State n) : Prop where
  holder : s.holder.isSome = s.mutex.writer
  owner_holder : s.exclusiveOwner ≠ 0 → s.holder = some s.exclusiveOwner
  thread_holder : ∀ i, (s.threads i).pc.exclusive = true → s.holder = some (s.threads i).pid
  readersOf : ∀ p, p ≠ 0 →
    s.readersOf p = s.sharedOwners.count p + total (Thread.sharableOf p) s.threads

namespace Attributed

variable {x : Thread}

theorem thread_keep (h : s.Attributed) (hthreads : s'.threads = Function.update s.threads i x)
    (hholder : s'.holder = s.holder) (hpid : x.pid = (s.threads i).pid)
    (hexcl : x.pc.exclusive = true → (s.threads i).pc.exclusive = true) (j : Fin n)
    (hj : (s'.threads j).pc.exclusive = true) : s'.holder = some (s'.threads j).pid := by
  rw [hholder]
  by_cases hji : j = i
  · subst hji
    rw [hthreads, Function.update_self] at hj ⊢
    rw [hpid]
    exact h.thread_holder j (hexcl hj)
  · rw [hthreads, Function.update_of_ne hji] at hj ⊢
    exact h.thread_holder j hj

theorem thread_alone (hnone : ∀ j, j ≠ i → (s.threads j).pc.exclusive = false)
    (hthreads : s'.threads = Function.update s.threads i x)
    (hholder : x.pc.exclusive = true → s'.holder = some x.pid) (j : Fin n)
    (hj : (s'.threads j).pc.exclusive = true) : s'.holder = some (s'.threads j).pid := by
  by_cases hji : j = i
  · subst hji
    rw [hthreads, Function.update_self] at hj ⊢
    exact hholder hj
  · rw [hthreads, Function.update_of_ne hji, hnone j hji] at hj
    cases hj

theorem holders (h : s.Attributed) (hsound : s.Sound) (heff : Effect s i s') :
    s'.holder.isSome = s'.mutex.writer ∧
    (s'.exclusiveOwner ≠ 0 → s'.holder = some s'.exclusiveOwner) ∧
    ∀ j, (s'.threads j).pc.exclusive = true → s'.holder = some (s'.threads j).pid := by
  have hothers : s.mutex.writer = false ∨ s.exclusiveOwner ≠ 0 →
      ∀ j, (s.threads j).pc.exclusive = false := by
    intro hcase j
    by_contra hj
    obtain ⟨hwriter, howner⟩ := hsound.of_exclusive (i := j) (by simpa using hj)
    rcases hcase with hfalse | hne
    · rw [hfalse] at hwriter
      cases hwriter
    · exact hne howner
  cases heff with
  | move hexcl _ _ _ =>
    exact ⟨h.holder, h.owner_holder, h.thread_keep rfl rfl rfl fun hx => hexcl ▸ hx⟩
  | acquire hpc hlock =>
    obtain ⟨hfree, rfl⟩ := RwLock.tryLock_some hlock
    have hwriter : s.mutex.writer = false := by rw [hfree]; rfl
    have howner : s.exclusiveOwner = 0 := by
      by_contra hne
      rw [hsound.of_owner hne] at hwriter
      cases hwriter
    have hnone := hothers (.inl hwriter)
    exact ⟨rfl, fun hne => absurd howner hne, thread_alone (fun j _ => hnone j) rfl fun _ => rfl⟩
  | acquireSharable hpc hlock =>
    obtain ⟨hfree, rfl⟩ := RwLock.tryLockSharable_some hlock
    exact ⟨h.holder.trans hfree, h.owner_holder, h.thread_keep rfl rfl rfl (by rintro ⟨⟩)⟩
  | record hpc =>
    have hholder := h.thread_holder i (by rw [hpc]; rfl)
    exact ⟨h.holder, fun _ => hholder, h.thread_keep rfl rfl rfl (by rintro ⟨⟩)⟩
  | clearOwner hpc hdead _ =>
    have howner : s.exclusiveOwner ≠ 0 := by
      intro heq
      rw [heq, hsound.dead_zero] at hdead
      cases hdead
    have hnone := hothers (.inr howner)
    exact ⟨(hsound.of_owner howner).symm, fun hne => absurd rfl hne,
      thread_alone (fun j _ => hnone j) rfl fun _ => rfl⟩
  | storeZero hpc =>
    have hexcl : (s.threads i).pc.exclusive = true := by rw [hpc]; rfl
    exact ⟨h.holder, fun hne => absurd rfl hne, h.thread_keep rfl rfl rfl fun _ => hexcl⟩
  | unlockOwner hpc howner =>
    have hne : s.exclusiveOwner ≠ 0 := howner.trans_ne (hsound.pid_ne i)
    have hholder := (h.owner_holder hne).trans (congrArg some howner)
    have hnone := hothers (.inr hne)
    exact ⟨h.holder, fun hzero => absurd rfl hzero,
      thread_alone (fun j _ => hnone j) rfl fun _ => hholder⟩
  | keepOwner hpc _ => exact ⟨h.holder, h.owner_holder, h.thread_keep rfl rfl rfl (by rintro ⟨⟩)⟩
  | releaseMutex hexcl hplace _ =>
    obtain ⟨hwriter, howner⟩ := hsound.of_exclusive hexcl
    refine ⟨?_, fun hne => absurd howner hne, ?_⟩
    · show false = s.mutex.unlock.writer
      rw [RwLock.unlock_of_writer hwriter]
    · refine thread_alone (i := i) ?_ rfl fun hx => ?_
      · intro j hji
        by_contra hj
        exact hji (hsound.exclusive_unique (by simpa using hj) hexcl)
      · rw [hplace.exclusive] at hx
        cases hx
  | insert hpc _ => exact ⟨h.holder, h.owner_holder, h.thread_keep rfl rfl rfl (by rintro ⟨⟩)⟩
  | erase hpc _ => exact ⟨h.holder, h.owner_holder, h.thread_keep rfl rfl rfl (by rintro ⟨⟩)⟩
  | takeOver hpc hcell _ =>
    simp only [removeCas, if_pos hcell]
    exact ⟨h.holder, h.owner_holder, h.thread_keep rfl rfl rfl (by rintro ⟨⟩)⟩
  | keepCell _ => exact ⟨h.holder, h.owner_holder, h.thread_keep rfl rfl rfl (by rintro ⟨⟩)⟩
  | @releaseReader caller hpc =>
    have hwriter := (hsound.of_sharable (i := i) (by rw [hpc]; rfl)).1
    refine ⟨?_, h.owner_holder, h.thread_keep rfl rfl rfl fun hx => ?_⟩
    · show s.holder.isSome = s.mutex.unlock.writer
      rw [RwLock.unlock_of_reader hwriter, h.holder, hwriter]
    · rw [caller.next_neutral.exclusive] at hx
      cases hx

theorem readersOf_setThread (h : s.Attributed) {p k c : Nat} {excl excl' shr shr' : Bool}
    (hp : p ≠ 0) (hold : (s.threads i).pc.Holds excl shr) (hpid : x.pid = (s.threads i).pid)
    (hnew : x.pc.Holds excl' shr')
    (hk : k + s.sharedOwners.count p + (if (s.threads i).pid = p then shr.toNat else 0) =
      s.readersOf p + c + if (s.threads i).pid = p then shr'.toNat else 0) :
    k = c + total (Thread.sharableOf p) (Function.update s.threads i x) := by
  have ht := total_update (Thread.sharableOf p) s.threads i x
  simp only [Thread.sharableOf, Thread.sharable, hold.sharable, hnew.sharable, hpid] at ht
  have hr := h.readersOf p hp
  omega

theorem readersOf_effect (h : s.Attributed) (hi : s.Alive i)
    (heff : Effect s i s') {p : Nat} (hp : p ≠ 0) :
    s'.readersOf p = s'.sharedOwners.count p + total (Thread.sharableOf p) s'.threads := by
  have hr := h.readersOf p hp
  cases heff with
  | move hexcl hshr _ _ => exact h.readersOf_setThread hp ⟨rfl, rfl⟩ rfl ⟨hexcl, hshr⟩ rfl
  | acquire hpc _ =>
    have hnew : Pc.record.Holds true false := ⟨rfl, rfl⟩
    exact h.readersOf_setThread hp hpc rfl hnew rfl
  | acquireSharable hpc _ =>
    have hnew : (Pc.insertLoad 0).Holds false true := ⟨rfl, rfl⟩
    refine h.readersOf_setThread hp hpc rfl hnew ?_
    simp only [setThread, Function.update_apply, Bool.toNat_true, Bool.toNat_false]
    split_ifs <;> grind
  | record hpc =>
    have hold : (s.threads i).pc.Holds true false := hpc ▸ ⟨rfl, rfl⟩
    have hnew : Pc.idle.Holds false false := ⟨rfl, rfl⟩
    exact h.readersOf_setThread hp hold rfl hnew rfl
  | clearOwner hpc _ hplace =>
    have hnew : ∀ pc, (∃ op, pc = Pc.storeZero op ∨ pc = .releaseDead op) →
        pc.Holds true false := by
      rintro pc ⟨op, rfl | rfl⟩ <;> exact ⟨rfl, rfl⟩
    exact h.readersOf_setThread hp hpc rfl (hnew _ hplace) rfl
  | @storeZero op hpc =>
    have hold : (s.threads i).pc.Holds true false := hpc ▸ ⟨rfl, rfl⟩
    have hnew : (Pc.releaseDead op).Holds true false := ⟨rfl, rfl⟩
    exact h.readersOf_setThread hp hold rfl hnew rfl
  | unlockOwner hpc _ =>
    have hold : (s.threads i).pc.Holds false false := hpc ▸ ⟨rfl, rfl⟩
    have hnew : Pc.unlockMutex.Holds true false := ⟨rfl, rfl⟩
    exact h.readersOf_setThread hp hold rfl hnew rfl
  | keepOwner hpc _ =>
    have hold : (s.threads i).pc.Holds false false := hpc ▸ ⟨rfl, rfl⟩
    have hnew : Pc.idle.Holds false false := ⟨rfl, rfl⟩
    exact h.readersOf_setThread hp hold rfl hnew rfl
  | releaseMutex hexcl hplace _ =>
    have hshr : (s.threads i).pc.sharable = false := by
      cases hpc : (s.threads i).pc <;> simp [hpc, Pc.exclusive] at hexcl <;> rfl
    exact h.readersOf_setThread hp ⟨hexcl, hshr⟩ rfl hplace rfl
  | insert hpc hcell =>
    have hold : (s.threads i).pc.Holds false true := hpc ▸ ⟨rfl, rfl⟩
    have hnew : Pc.idle.Holds false false := ⟨rfl, rfl⟩
    refine h.readersOf_setThread hp hold rfl hnew ?_
    have hcount := LocklessSet.count_insert (s.threads i).pid hcell hp
    simp only [setThread, hcount, Bool.toNat_true, Bool.toNat_false]
    split_ifs <;> omega
  | erase hpc hcell =>
    have hold : (s.threads i).pc.Holds false false := hpc ▸ ⟨rfl, rfl⟩
    have hnew : (Pc.releaseReader .unlockSharable).Holds false true := ⟨rfl, rfl⟩
    refine h.readersOf_setThread hp hold rfl hnew ?_
    have hcount := LocklessSet.count_erase hcell hp
    simp only [setThread, hcount, Bool.toNat_true, Bool.toNat_false]
    split_ifs <;> omega
  | @takeOver op k sharedOwner idx hpc hcell hdead =>
    have hne : (s.threads i).pid ≠ sharedOwner := by
      rintro rfl
      rw [Alive, hdead] at hi
      cases hi
    have hold : (s.threads i).pc.Holds false false := hpc ▸ ⟨rfl, rfl⟩
    have hnew : (Pc.releaseReader (.pruning op k sharedOwner)).Holds false true := ⟨rfl, rfl⟩
    have hcount := LocklessSet.count_erase hcell hp
    simp only [removeCas, if_pos hcell]
    refine h.readersOf_setThread hp hold rfl hnew ?_
    simp only [setPc, setThread, hcount, Function.update_apply, if_neg hne, Bool.toNat_true,
      Bool.toNat_false]
    split_ifs <;> grind
  | keepCell hpc =>
    have hold : (s.threads i).pc.Neutral := by
      rcases hpc with ⟨idx, hpc⟩ | ⟨idx, hpc⟩ <;> rw [hpc] <;> exact ⟨rfl, rfl⟩
    have hnew : Pc.idle.Holds false false := ⟨rfl, rfl⟩
    exact h.readersOf_setThread hp hold rfl hnew rfl
  | @releaseReader caller hpc =>
    have hold : (s.threads i).pc.Holds false true := hpc ▸ ⟨rfl, rfl⟩
    refine h.readersOf_setThread hp hold rfl caller.next_neutral ?_
    have hpos := le_total (Thread.sharableOf p) s.threads i
    simp only [Thread.sharableOf, Thread.sharable, hold.sharable, Bool.toNat_true] at hpos
    simp only [releaseReader, setPc, setThread, Function.update_apply, Bool.toNat_true,
      Bool.toNat_false]
    split_ifs at hpos ⊢ <;> grind

theorem effect (h : s.Attributed) (hsound : s.Sound) (hi : s.Alive i) (heff : Effect s i s') :
    s'.Attributed :=
  have ⟨hholder, howner, hthread⟩ := h.holders hsound heff
  ⟨hholder, howner, hthread, fun _ hp => h.readersOf_effect hi heff hp⟩

theorem step {l : Label n} (h : s.Attributed) (hsound : s.Sound) (hs : s.step l = some s') :
    s'.Attributed := by
  cases l with
  | call i c =>
    obtain ⟨hi, heff⟩ := effect_of_call hs
    exact h.effect hsound hi heff
  | step i =>
    obtain ⟨hi, heff⟩ := hsound.effect_of_step hs
    exact h.effect hsound hi heff
  | die i =>
    obtain rfl := Option.some.inj hs
    exact ⟨h.holder, h.owner_holder, h.thread_holder, h.readersOf⟩

theorem new {pid : Fin n → Nat} : (State.new pid).Attributed := by
  refine ⟨rfl, fun hne => absurd rfl hne, nofun, fun p hp => ?_⟩
  have hzero : total (Thread.sharableOf p) (State.new pid).threads = 0 :=
    total_eq_zero.mpr fun _ => ite_self _
  rw [hzero]
  exact (LocklessSet.count_empty hp).symm

end Attributed

/-- The owner word names the dead process that has the lock exclusively, and each dead process
has one cell for each of its shared holds. -/
def Recoverable (s : State n) : Prop := ∀ p, s.dead p = true →
  (s.holder = some p → s.exclusiveOwner = p) ∧ s.readersOf p = s.sharedOwners.count p

/-- No process dies while one of its threads has an unrecorded hold: between getting the
underlying lock and recording that, and between removing a record, its own or that of a dead
process, and releasing the underlying lock. -/
def DiesRecorded (s : State n) (l : Label n) : Prop :=
  ∀ i, l = .die i → ∀ j, (s.threads j).pid = (s.threads i).pid → (s.threads j).pc.Neutral

def DeadNeutral (s : State n) : Prop := ∀ j, ¬ s.Alive j → (s.threads j).pc.Neutral

theorem DeadNeutral.step_iff {l : Label n} (hsound : s.Sound) (hs : s.step l = some s') :
    s'.DeadNeutral ↔ s.DeadNeutral ∧ s.DiesRecorded l := by
  have hmove : ∀ i, s.Alive i → Effect s i s' → (s'.DeadNeutral ↔ s.DeadNeutral) := by
    intro i hi heff
    obtain ⟨hdead, x, hthreads, hpid, -⟩ := heff.thread
    have hsame : ∀ j, ¬ s.Alive j → s'.threads j = s.threads j := by
      intro j hj
      have hji : j ≠ i := fun heq => hj (heq ▸ hi)
      rw [hthreads, Function.update_of_ne hji]
    have halive : ∀ j, s'.Alive j ↔ s.Alive j := by
      intro j
      by_cases hji : j = i
      · rw [Alive, Alive, hdead, hji, hthreads, Function.update_self, hpid]
      · exact Recorded.alive_of_ne hdead hthreads hji
    refine forall_congr' fun j => ?_
    rw [halive j]
    refine forall_congr' fun hj => ?_
    rw [hsame j hj]
  cases l with
  | call i c =>
    obtain ⟨hi, heff⟩ := effect_of_call hs
    exact (hmove i hi heff).trans (and_iff_left (by rintro _ ⟨⟩)).symm
  | step i =>
    obtain ⟨hi, heff⟩ := hsound.effect_of_step hs
    exact (hmove i hi heff).trans (and_iff_left (by rintro _ ⟨⟩)).symm
  | die i =>
    obtain rfl := Option.some.inj hs
    have halive : ∀ j, ¬ Alive { s with dead := Function.update s.dead (s.threads i).pid true } j ↔
        ¬ s.Alive j ∨ (s.threads j).pid = (s.threads i).pid := by
      intro j
      unfold Alive
      by_cases hj : (s.threads j).pid = (s.threads i).pid <;> simp [hj]
    constructor
    · intro h
      refine ⟨fun j hj => h j ((halive j).mpr (.inl hj)), ?_⟩
      rintro i' heq j hj
      obtain rfl := Label.die.inj heq
      exact h j ((halive j).mpr (.inr hj))
    · rintro ⟨hold, hdies⟩ j hj
      rcases (halive j).mp hj with hj | hj
      · exact hold j hj
      · exact hdies i rfl j hj

theorem recoverable_iff (h : s.Attributed) (hsound : s.Sound) : s.Recoverable ↔ s.DeadNeutral := by
  constructor
  · intro hrec j hj
    have hdead : s.dead (s.threads j).pid = true := by simpa [Alive] using hj
    obtain ⟨howner, hcells⟩ := hrec _ hdead
    have hreaders := h.readersOf _ (hsound.pid_ne j)
    have hle := le_total (Thread.sharableOf (s.threads j).pid) s.threads j
    refine ⟨?_, ?_⟩
    · by_contra hexcl
      have hexcl : (s.threads j).pc.exclusive = true := by simpa using hexcl
      have hzero := (hsound.of_exclusive hexcl).2
      exact hsound.pid_ne j ((howner (h.thread_holder j hexcl)).symm.trans hzero)
    · by_contra hshr
      have hshr : (s.threads j).pc.sharable = true := by simpa using hshr
      simp only [Thread.sharableOf, Thread.sharable, hshr, if_true, Bool.toNat_true] at hle
      change 1 ≤ total (Thread.sharableOf (s.threads j).pid) s.threads at hle
      omega
  · intro hneutral p hp
    have hpne : p ≠ 0 := by
      rintro rfl
      rw [hsound.dead_zero] at hp
      cases hp
    constructor
    · intro hholder
      by_cases howner : s.exclusiveOwner = 0
      · -- an unrecorded hold would be that of a thread of `p`
        have hwriter : s.mutex.writer = true := by
          rw [← h.holder, hholder]
          rfl
        have hcount := hsound.writers
        rw [if_pos howner, hwriter] at hcount
        obtain ⟨j, hj⟩ : ∃ j, (s.threads j).pc.exclusive = true := by
          by_contra hnone
          have hzero : total Thread.exclusive s.threads = 0 := by
            refine total_eq_zero.mpr fun j => ?_
            have hj : (s.threads j).pc.exclusive = false := by
              by_contra hj
              exact hnone ⟨j, by simpa using hj⟩
            rw [Thread.exclusive, hj]
            rfl
          rw [hzero] at hcount
          cases hcount
        have hpid := Option.some.inj (hholder.symm.trans (h.thread_holder j hj))
        have hdead : ¬ s.Alive j := by
          rw [Alive, ← hpid, hp]
          rintro ⟨⟩
        rw [(hneutral j hdead).exclusive] at hj
        cases hj
      · exact Option.some.inj ((h.owner_holder howner).symm.trans hholder)
    · rw [h.readersOf p hpne, Nat.add_eq_left]
      refine total_eq_zero.mpr fun j => ?_
      unfold Thread.sharableOf
      split_ifs with hj
      · have hdead : ¬ s.Alive j := by
          rw [Alive, hj, hp]
          rintro ⟨⟩
        rw [Thread.sharable, (hneutral j hdead).sharable]
        rfl
      · rfl

section Alone

def Reaches (i : Fin n) (s s' : State n) : Prop :=
  ∃ k, Machine.run step s (List.replicate k (.step i)) = some s'

variable {t : State n} {pc pc' : Pc} {k : Nat}

theorem Reaches.refl (s : State n) : Reaches i s s := ⟨0, rfl⟩

theorem Reaches.trans (h : Reaches i s t) (h' : Reaches i t s') : Reaches i s s' := by
  obtain ⟨k, hk⟩ := h
  obtain ⟨m, hm⟩ := h'
  refine ⟨k + m, ?_⟩
  rw [List.replicate_add, Machine.run_append, hk]
  exact hm

theorem Reaches.of_advance (hi : s.Alive i) (h : s.advance i = some t) : Reaches i s t := by
  have hs : s.step (.step i) = some t := (if_pos hi).trans h
  exact ⟨1, (Machine.run_cons [] hs).trans rfl⟩

theorem Reaches.step (hi : s.Alive i) (h : (s.setPc i pc).advance i = some t) :
    Reaches i (s.setPc i pc) t := .of_advance (by rwa [Alive, pid_setPc]) h

theorem Reaches.move (hi : s.Alive i)
    (h : (s.setPc i pc).advance i = some ((s.setPc i pc).setPc i pc')) :
    Reaches i (s.setPc i pc) (s.setPc i pc') := by
  rw [setPc_setPc] at h
  exact .step hi h

theorem reaches_lock (hi : s.Alive i) (hfree : s.mutex = .free) :
    ∃ s', Reaches i (s.setPc i (.attempt .lock false)) s' ∧ (s'.threads i).excl = true ∧
      (s'.threads i).pc = .idle := by
  have hop : Acquire.lock.sharable = false := rfl
  obtain ⟨s', hs, hexcl⟩ := run_attempt hi hfree hop
  exact ⟨s', ⟨2, hs⟩, hexcl⟩

theorem reaches_scan {d : Nat} (hi : s.Alive i) (hk : k < 8) (hd : d ≠ 0)
    (hbelow : ∀ idx : Fin 8, idx.val < k → s.sharedOwners idx = 0) :
    Reaches i (s.setPc i (.removeLoad (.pruning .lock k d) 0))
      (s.setPc i (.removeLoad (.pruning .lock k d) k)) := by
  have hall : ∀ j ≤ k, Reaches i (s.setPc i (.removeLoad (.pruning .lock k d) 0))
      (s.setPc i (.removeLoad (.pruning .lock k d) j)) := by
    intro j hj
    induction j with
    | zero => exact .refl _
    | succ j ih =>
      have hlt : j < 8 := by omega
      have hcell : s.sharedOwners ⟨j, hlt⟩ ≠ d := by
        rw [hbelow ⟨j, hlt⟩ hj]
        exact hd.symm
      refine (ih (Nat.le_of_succ_le hj)).trans (.move hi ?_)
      simp [advance, removeLoad, hlt, hcell]
  exact hall k (Nat.le_refl k)

theorem reaches_removed (hi : s.Alive i) (hk : k < 8)
    (hbelow : ∀ idx : Fin 8, idx.val < k → s.sharedOwners idx = 0)
    (hcell : s.sharedOwners ⟨k, hk⟩ ≠ 0) (hdead : s.dead (s.sharedOwners ⟨k, hk⟩) = true) :
    ∃ readersOf, Reaches i (s.setPc i (.prune .lock k)) (State.setPc { s with
      mutex := s.mutex.unlock
      sharedOwners := s.sharedOwners.store ⟨k, hk⟩ 0
      readersOf := readersOf } i (.prune .lock (k + 1))) := by
  generalize hd : s.sharedOwners ⟨k, hk⟩ = d at hcell hdead
  have htest : Reaches i (s.setPc i (.prune .lock k)) (s.setPc i (.testReader .lock k d)) :=
    .move hi (by simp [advance, hk, hd, hcell])
  have hremove : Reaches i (s.setPc i (.testReader .lock k d))
      (s.setPc i (.removeLoad (.pruning .lock k d) 0)) :=
    .move hi (by simp [advance, hdead])
  have hfound : Reaches i (s.setPc i (.removeLoad (.pruning .lock k d) k))
      (s.setPc i (.removeCas (.pruning .lock k d) ⟨k, hk⟩)) :=
    .move hi (by simp [advance, removeLoad, hk, hd])
  -- the cell is erased, and then the reader is released
  obtain ⟨readersOf, herase⟩ : ∃ readersOf : Nat → Nat,
      (s.setPc i (.removeCas (.pruning .lock k d) ⟨k, hk⟩)).advance i =
      some ({ s with
        sharedOwners := s.sharedOwners.store ⟨k, hk⟩ 0
        readersOf := readersOf }.setPc i (.releaseReader (.pruning .lock k d))) := by
    refine ⟨Function.update (Function.update s.readersOf d (s.readersOf d - 1)) (s.threads i).pid
      (Function.update s.readersOf d (s.readersOf d - 1) (s.threads i).pid + 1), ?_⟩
    simp [advance, removeCas, hd, setPc, setThread]
  refine ⟨Function.update readersOf (s.threads i).pid (readersOf (s.threads i).pid - 1), ?_⟩
  refine (((htest.trans hremove).trans (reaches_scan hi hk hcell hbelow)).trans hfound).trans
    ((Reaches.step hi herase).trans (.step hi ?_))
  simp [advance, releaseReader, Remover.next, setPc, setThread]

structure Prunable (s : State n) (i : Fin n) (k : Nat) : Prop where
  alive : s.Alive i
  writer : s.mutex.writer = false
  readers : s.mutex.readers = s.sharedOwners.occupied
  below : ∀ idx : Fin 8, idx.val < k → s.sharedOwners idx = 0
  dead : ∀ idx, s.sharedOwners idx ≠ 0 → s.dead (s.sharedOwners idx) = true

theorem Prunable.round (h : s.Prunable i k) (hk : k < 8) :
    ∃ t : State n, t.Prunable i (k + 1) ∧
      Reaches i (s.setPc i (.prune .lock k)) (t.setPc i (.prune .lock (k + 1))) := by
  by_cases hcell : s.sharedOwners ⟨k, hk⟩ = 0
  · refine ⟨s, ⟨h.alive, h.writer, h.readers, ?_, h.dead⟩, .move h.alive ?_⟩
    · intro idx hidx
      rcases Nat.lt_succ_iff_lt_or_eq.mp hidx with hlt | heq
      · exact h.below idx hlt
      · rwa [show idx = ⟨k, hk⟩ from Fin.ext heq]
    · simp [advance, hk, hcell]
  · obtain ⟨readersOf, hreach⟩ := reaches_removed h.alive hk h.below hcell (h.dead _ hcell)
    have hoccupied := LocklessSet.occupied_erase hcell
    refine ⟨{ s with
      mutex := s.mutex.unlock
      sharedOwners := s.sharedOwners.store ⟨k, hk⟩ 0
      readersOf := readersOf }, ⟨h.alive, ?_, ?_, ?_, ?_⟩, hreach⟩
    · show s.mutex.unlock.writer = false
      rw [RwLock.unlock_of_reader h.writer]
    · show s.mutex.unlock.readers = (s.sharedOwners.store ⟨k, hk⟩ 0).occupied
      rw [RwLock.unlock_of_reader h.writer]
      have hr := h.readers
      show s.mutex.readers - 1 = _
      omega
    · intro idx hidx
      by_cases heq : idx = ⟨k, hk⟩
      · rw [heq]
        exact LocklessSet.store_self ..
      · have hne : idx.val ≠ k := fun hval => heq (Fin.ext hval)
        exact (LocklessSet.store_of_ne heq).trans (h.below idx (by omega))
    · intro idx hidx
      by_cases heq : idx = ⟨k, hk⟩
      · rw [heq] at hidx
        exact absurd (LocklessSet.store_self ..) hidx
      · have hsame : (s.sharedOwners.store ⟨k, hk⟩ 0) idx = s.sharedOwners idx :=
          LocklessSet.store_of_ne heq
        simp only [hsame] at hidx ⊢
        exact h.dead idx hidx

theorem Prunable.prune (h : s.Prunable i 0) :
    ∃ t : State n, t.mutex = .free ∧ t.Alive i ∧
      Reaches i (s.setPc i (.prune .lock 0)) (t.setPc i (.prune .lock 8)) := by
  have hall : ∀ k ≤ 8, ∃ t : State n, t.Prunable i k ∧
      Reaches i (s.setPc i (.prune .lock 0)) (t.setPc i (.prune .lock k)) := by
    intro k hk
    induction k with
    | zero => exact ⟨s, h, .refl _⟩
    | succ k ih =>
      obtain ⟨t, ht, hreach⟩ := ih (Nat.le_of_succ_le hk)
      obtain ⟨t', ht', hreach'⟩ := ht.round hk
      exact ⟨t', ht', hreach.trans hreach'⟩
  obtain ⟨t, ht, hreach⟩ := hall 8 (Nat.le_refl 8)
  have hempty : t.sharedOwners = .empty := funext fun idx => ht.below idx idx.isLt
  have hreaders : t.mutex.readers = 0 := by rw [ht.readers, hempty, LocklessSet.occupied_empty]
  exact ⟨t, RwLock.ext ht.writer hreaders, ht.alive, hreach⟩

structure HoldersDead (s : State n) : Prop where
  holder : ∀ p, s.holder = some p → s.dead p = true
  readers : ∀ p, 0 < s.readersOf p → s.dead p = true

def GetsLock (foreign : RwLock → RwLock) (s : State n) (i : Fin n) : Prop :=
  ∃ k s', Machine.run (stepOn foreign) s
      (.call i (.acquire .lock) :: List.replicate k (.step i)) = some s' ∧
    (s'.threads i).excl = true ∧ (s'.threads i).pc = .idle

theorem Reaches.attempt (hi : s.Alive i) (hheld : s.mutex ≠ .free) :
    Reaches i (s.setPc i (.attempt .lock false)) (s.setPc i (.testOwner .lock)) := by
  refine .move hi ?_
  simp [advance, Acquire.sharable, attemptExclusive, RwLock.tryLock_none hheld]

theorem reaches_of_writer (hi : s.Alive i) (howner : s.exclusiveOwner ≠ 0)
    (hdead : s.dead s.exclusiveOwner = true) (hwriter : s.mutex.writer = true)
    (hzero : s.mutex.readers = 0) : ∃ t : State n, t.mutex = .free ∧ t.Alive i ∧
      Reaches i (s.setPc i (.testOwner .lock)) (t.setPc i (.attempt .lock false)) := by
  have hload : Reaches i (s.setPc i (.testOwner .lock)) (s.setPc i (.loadOwner .lock)) :=
    .move hi (by simp [advance, howner])
  have htest : Reaches i (s.setPc i (.loadOwner .lock))
      (s.setPc i (.testDead .lock s.exclusiveOwner)) := .move hi (by simp [advance])
  have hclear : Reaches i (s.setPc i (.testDead .lock s.exclusiveOwner))
      (s.setPc i (.clearOwner .lock s.exclusiveOwner)) := .move hi (by simp [advance, hdead])
  let t : State n := { s with exclusiveOwner := 0, holder := some (s.threads i).pid }
  have hcas : Reaches i (s.setPc i (.clearOwner .lock s.exclusiveOwner))
      (t.setPc i (.releaseDead .lock)) :=
    .step hi (by simp [advance, clearOwner, Acquire.sharable, t, setPc, setThread])
  have hrelease : Reaches i (t.setPc i (.releaseDead .lock))
      (State.setPc { t with mutex := t.mutex.unlock, holder := none } i (.attempt .lock false)) := by
    refine .step hi ?_
    simp [advance, releaseMutex, Acquire.retry, Acquire.once, setPc, setThread]
  refine ⟨{ t with mutex := t.mutex.unlock, holder := none }, ?_, hi,
    (((hload.trans htest).trans hclear).trans hcas).trans hrelease⟩
  show s.mutex.unlock = .free
  rw [RwLock.unlock_of_writer hwriter, hzero]
  rfl

theorem getsLock (hsound : s.Sound) (h : s.Attributed) (hrec : s.Recoverable)
    (hholders : s.HoldersDead) (hi : s.Alive i) (hidle : (s.threads i).pc = .idle) :
    s.GetsLock .unlock i := by
  have hstart : ∃ t : State n, t.mutex = .free ∧ t.Alive i ∧
      Reaches i (s.setPc i (.attempt .lock false)) (t.setPc i (.attempt .lock false)) := by
    by_cases hfree : s.mutex = .free
    · exact ⟨s, hfree, hi, .refl _⟩
    have hattempt := Reaches.attempt hi hfree
    cases hwriter : s.mutex.writer with
    | true =>
      obtain ⟨p, hp⟩ := Option.isSome_iff_exists.mp (h.holder.trans hwriter)
      have hdead := hholders.holder p hp
      obtain rfl := (hrec p hdead).1 hp
      have howner : s.exclusiveOwner ≠ 0 := by
        intro heq
        rw [heq, hsound.dead_zero] at hdead
        cases hdead
      obtain ⟨t, ht, halive, hreach⟩ :=
        reaches_of_writer hi howner hdead hwriter (hsound.readers_zero hwriter)
      exact ⟨t, ht, halive, hattempt.trans hreach⟩
    | false =>
      have howner : s.exclusiveOwner = 0 := by
        by_contra hne
        rw [hsound.of_owner hne] at hwriter
        cases hwriter
      -- a thread with an unrecorded shared hold would be dead, and so have none
      have hunrecorded : total Thread.sharable s.threads = 0 := by
        refine total_eq_zero.mpr fun j => ?_
        by_contra hj
        have hpos := le_total (Thread.sharableOf (s.threads j).pid) s.threads j
        rw [Thread.sharableOf, if_pos rfl] at hpos
        have hreaders := h.readersOf _ (hsound.pid_ne j)
        have hdead := hholders.readers (s.threads j).pid (by omega)
        have hneutral := (recoverable_iff h hsound).mp hrec j (by rw [Alive, hdead]; rintro ⟨⟩)
        rw [Thread.sharable, hneutral.sharable] at hj
        exact hj rfl
      have hprunable : s.Prunable i 0 := by
        refine ⟨hi, hwriter, ?_, fun _ hidx => absurd hidx (Nat.not_lt_zero _), ?_⟩
        · rw [hsound.readers, hunrecorded]
          rfl
        · intro idx hidx
          have hcount : 0 < s.sharedOwners.count (s.sharedOwners idx) := LocklessSet.count_pos rfl
          have hreaders := h.readersOf _ hidx
          exact hholders.readers _ (by omega)
      have htest : Reaches i (s.setPc i (.testOwner .lock)) (s.setPc i (.prune .lock 0)) :=
        .move hi (by simp [advance, howner, Acquire.sharable])
      obtain ⟨t, ht, halive, hreach⟩ := hprunable.prune
      have hretry : Reaches i (t.setPc i (.prune .lock 8)) (t.setPc i (.attempt .lock false)) :=
        .move halive (by simp [advance, Acquire.retry, Acquire.once])
      exact ⟨t, ht, halive, ((hattempt.trans htest).trans hreach).trans hretry⟩
  obtain ⟨t, ht, halive, hreach⟩ := hstart
  obtain ⟨s', hreach', hexcl, hpc⟩ := reaches_lock halive ht
  obtain ⟨k, hk⟩ := hreach.trans hreach'
  have hcall : s.step (.call i (.acquire .lock)) = some (s.setPc i (.attempt .lock false)) :=
    if_pos ⟨hi, hidle, trivial⟩
  unfold GetsLock
  rw [stepOn_unlock]
  exact ⟨k, s', (Machine.run_cons _ hcall).trans hk, hexcl, hpc⟩

end Alone

/-- Every dead holder can be found again in exactly those runs in which no process dies while
one of its threads has an unrecorded hold, and then nobody waits for the dead. -/
theorem recoverable_iff_diesRecorded {foreign : RwLock → RwLock}
    (hforeign : RwLock.ReleasesAny foreign) {pid : Fin n → Nat} (hpid : ∀ i, pid i ≠ 0)
    {labels : List (Label n)} (h : Machine.run (stepOn foreign) (new pid) labels = some s) :
    (s.Recoverable ∧ (s.HoldersDead →
      ∀ i, s.Alive i → (s.threads i).pc = .idle → s.GetsLock foreign i)) ↔
    Machine.Run (stepOn foreign) DiesRecorded (new pid) labels s := by
  obtain rfl : foreign = RwLock.unlock := funext hforeign
  rw [stepOn_unlock] at h ⊢
  obtain ⟨hsound, hattributed⟩ := (Machine.Run.of_run h).invariant
    (fun s => s.Sound ∧ s.Attributed) ⟨.new hpid, .new⟩
    fun _ _ _ ht _ hs => ⟨ht.1.step hs, ht.2.step ht.1 hs⟩
  have hexact : s.DeadNeutral ↔ Machine.Run step DiesRecorded (new pid) labels s :=
    Machine.Run.exact Sound DeadNeutral h (.new hpid) (fun _ _ => ⟨rfl, rfl⟩)
      fun _ _ _ ht hs => ⟨ht.step hs, DeadNeutral.step_iff ht hs⟩
  rw [← hexact, ← recoverable_iff hattributed hsound]
  refine and_iff_left_of_imp fun hrec hholders i hi hidle => ?_
  exact getsLock hsound hattributed hrec hholders hi hidle

theorem recoverable_after_death : ∃ s : State 2,
    Machine.run (stepOn .unlock) (new fun i => i.val + 1)
      [.call 0 (.acquire .lock), .step 0, .step 0, .die 0] = some s ∧
    s.dead 1 = true ∧ s.holder = some 1 ∧ s.Recoverable ∧ (s.HoldersDead →
      ∀ i, s.Alive i → (s.threads i).pc = .idle → s.GetsLock .unlock i) := by
  let check : State 2 → Label 2 → Bool := fun s l =>
    match l with
    | .die i => decide (∀ j, (s.threads j).pid = (s.threads i).pid →
        (s.threads j).pc.exclusive = false ∧ (s.threads j).pc.sharable = false)
    | _ => true
  have hcheck : ∀ s l, check s l = true → DiesRecorded s l := by
    rintro s l hl i rfl j hj
    obtain ⟨hexcl, hshr⟩ := of_decide_eq_true hl j hj
    exact ⟨hexcl, hshr⟩
  have hrun : (Machine.runIf (stepOn .unlock) check (new fun i : Fin 2 => i.val + 1)
      [.call 0 (.acquire .lock), .step 0, .step 0, .die 0]).map
      (fun s => (s.dead 1, s.holder)) = some (true, some 1) := by decide +kernel
  obtain ⟨s, hs, hvals⟩ := Option.map_eq_some_iff.mp hrun
  simp only [Prod.mk.injEq] at hvals
  have hrun := Machine.Run.of_runIf hcheck hs
  exact ⟨s, hrun.run_eq, hvals.1, hvals.2, (recoverable_iff_diesRecorded (fun _ => rfl)
    (fun i => Nat.succ_ne_zero i.val) hrun.run_eq).mpr hrun⟩

/-- A thread that dies between `try_lock` and the record of the owner takes the lock with it. -/
theorem unrecorded_death : ∃ s : State 2,
    Machine.run (stepOn .unlock) (new fun i => i.val + 1)
      [.call 0 (.acquire .lock), .step 0, .die 0] = some s ∧ ¬ s.Recoverable := by
  have hrun : (Machine.run (stepOn .unlock) (new fun i : Fin 2 => i.val + 1)
      [.call 0 (.acquire .lock), .step 0, .die 0]).map
      (fun s => (s.holder, s.dead 1, s.exclusiveOwner)) = some (some 1, true, 0) := by
    decide +kernel
  obtain ⟨s, hs, hvals⟩ := Option.map_eq_some_iff.mp hrun
  simp only [Prod.mk.injEq] at hvals
  obtain ⟨hholder, hdead, howner⟩ := hvals
  refine ⟨s, hs, fun hrec => ?_⟩
  have hnamed := (hrec 1 hdead).1 hholder
  rw [howner] at hnamed
  cases hnamed

end State

end Shadesmar.Concurrency.RobustLock
