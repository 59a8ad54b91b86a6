import Shadesmar.Concurrency.Exclusion

namespace Shadesmar.Concurrency.RobustLock

open Library Library.Tally

namespace Pc

def Sharing : Pc → Prop
  | idle => True
  | attempt op last => op = .lockSharable ∧ last = false
  | testOwner op => op = .lockSharable
  | insertLoad _ => True
  | insertCas _ => True
  | removeLoad caller _ => caller = .unlockSharable
  | removeCas caller _ => caller = .unlockSharable
  | releaseReader caller => caller = .unlockSharable
  | _ => False

def removing : Pc → Option Nat
  | removeLoad _ idx => some idx
  | removeCas _ idx => some idx.val
  | _ => none

end Pc

def Thread.removerFrom (p k : Nat) (x : Thread) : Nat :=
  match x.pc.removing with
  | some idx => if x.pid = p ∧ k ≤ idx then 1 else 0
  | none => 0

namespace State

inductive SharingLabel (n : Nat)
  | lockSharable (i : Fin n)
  | unlockSharable (i : Fin n)
  | step (i : Fin n)

variable {n : Nat} {s s' : State n} {i : Fin n}

def sharingStep (s : State n) : SharingLabel n → Option (State n)
  | .lockSharable i => s.step (.call i (.acquire .lockSharable))
  | .unlockSharable i => s.step (.call i .unlockSharable)
  | .step i => s.step (.step i)

structure Sharing (s : State n) : Prop where
  owner : s.exclusiveOwner = 0
  dead : ∀ p, s.dead p = false
  pc : ∀ i, (s.threads i).pc.Sharing

inductive Shares (s : State n) (i : Fin n) (s' : State n) : Prop
  | keep {x : Thread} : s'.threads = Function.update s.threads i x → x.pid = (s.threads i).pid →
      x.shared = (s.threads i).shared → x.pc.Sharing →
      x.pc.removing = (s.threads i).pc.removing → s'.sharedOwners = s.sharedOwners →
      s'.exclusiveOwner = s.exclusiveOwner → s'.dead = s.dead →
      (∀ idx, (s.threads i).pc ≠ .removeCas .unlockSharable idx) → Shares s i s'
  | start : (s.threads i).pc = .idle → 0 < (s.threads i).shared →
      s' = s.setPc i (.removeLoad .unlockSharable 0) → Shares s i s'
  | next {idx : Fin 8} : (s.threads i).pc = .removeLoad .unlockSharable idx →
      s.sharedOwners idx ≠ (s.threads i).pid →
      s' = s.setPc i (.removeLoad .unlockSharable (idx.val + 1)) → Shares s i s'
  | insert {idx : Fin 8} : (s.threads i).pc = .insertCas idx → s.sharedOwners idx = 0 →
      s' = { s with sharedOwners := s.sharedOwners.store idx (s.threads i).pid }.setThread i
        { s.threads i with pc := .idle, shared := (s.threads i).shared + 1 } → Shares s i s'
  | erase {idx : Fin 8} : (s.threads i).pc = .removeCas .unlockSharable idx →
      s.sharedOwners idx = (s.threads i).pid →
      s' = { s with sharedOwners := s.sharedOwners.store idx 0 }.setThread i
        { s.threads i with
          pc := .releaseReader .unlockSharable, shared := (s.threads i).shared - 1 } →
      Shares s i s'
  | lose {idx : Fin 8} : (s.threads i).pc = .removeCas .unlockSharable idx →
      s.sharedOwners idx ≠ (s.threads i).pid →
      s' = s.setThread i { s.threads i with pc := .idle, shared := (s.threads i).shared - 1 } →
      Shares s i s'
  | exhausted {idx : Nat} : (s.threads i).pc = .removeLoad .unlockSharable idx → 8 ≤ idx →
      s' = s.setThread i { s.threads i with pc := .idle, shared := (s.threads i).shared - 1 } →
      Shares s i s'

theorem shares_of_advance (h : s.Sharing) (hs : s.advance i = some s') : s.Shares i s' := by
  have hpcs := h.pc i
  unfold advance at hs
  cases hpc : (s.threads i).pc with
  | idle =>
    rw [hpc] at hs
    cases hs
  | attempt op last =>
    rw [hpc] at hpcs
    obtain ⟨rfl, rfl⟩ := hpcs
    simp only [hpc] at hs
    obtain rfl := Option.some.inj hs
    simp only [Acquire.sharable, if_true, attemptSharable]
    split
    · exact .keep rfl rfl rfl trivial (by rw [hpc]; rfl) rfl rfl rfl (by simp [hpc])
    · exact .keep rfl rfl rfl (by rfl) (by rw [hpc]; rfl) rfl rfl rfl (by simp [hpc])
  | testOwner op =>
    rw [hpc] at hpcs
    obtain rfl : op = _ := hpcs
    simp only [hpc, h.owner] at hs
    obtain rfl := Option.some.inj hs
    exact .keep rfl rfl rfl ⟨rfl, rfl⟩ (by rw [hpc]; rfl) rfl rfl rfl (by simp [hpc])
  | insertLoad idx =>
    simp only [hpc] at hs
    obtain rfl := Option.some.inj hs
    unfold insertLoad
    split
    · dsimp only
      split_ifs <;> exact .keep rfl rfl rfl trivial (by rw [hpc]; rfl) rfl rfl rfl (by simp [hpc])
    · exact .keep rfl rfl rfl trivial (by rw [hpc]; rfl) rfl rfl rfl (by simp [hpc])
  | insertCas idx =>
    simp only [hpc] at hs
    obtain rfl := Option.some.inj hs
    by_cases hcell : s.sharedOwners idx = 0
    · exact .insert hpc hcell (if_pos hcell)
    · rw [insertCas, if_neg hcell]
      exact .keep rfl rfl rfl trivial (by rw [hpc]; rfl) rfl rfl rfl (by simp [hpc])
  | removeLoad caller idx =>
    rw [hpc] at hpcs
    obtain rfl : caller = _ := hpcs
    simp only [hpc] at hs
    obtain rfl := Option.some.inj hs
    by_cases hidx : idx < 8
    · by_cases hcell : s.sharedOwners ⟨idx, hidx⟩ = (s.threads i).pid
      · simp only [removeLoad, dif_pos hidx, if_pos hcell]
        exact .keep rfl rfl rfl (by rfl) (by rw [hpc]; rfl) rfl rfl rfl (by simp [hpc])
      · simp only [removeLoad, dif_pos hidx, if_neg hcell]
        exact @Shares.next _ s i _ ⟨idx, hidx⟩ hpc hcell rfl
    · refine .exhausted hpc (Nat.le_of_not_lt hidx) ?_
      simp only [removeLoad, dif_neg hidx, notRemoved]
  | removeCas caller idx =>
    rw [hpc] at hpcs
    obtain rfl : caller = _ := hpcs
    simp only [hpc] at hs
    obtain rfl := Option.some.inj hs
    by_cases hcell : s.sharedOwners idx = (s.threads i).pid
    · exact .erase hpc hcell (by simp only [removeCas, if_pos hcell])
    · exact .lose hpc hcell (by simp only [removeCas, if_neg hcell, notRemoved])
  | releaseReader caller =>
    rw [hpc] at hpcs
    obtain rfl : caller = _ := hpcs
    simp only [hpc] at hs
    obtain rfl := Option.some.inj hs
    exact .keep rfl rfl rfl trivial (by rw [hpc]; rfl) rfl rfl rfl (by simp [hpc])
  | loadOwner | testDead | clearOwner | storeZero | releaseDead | prune | testReader | record
  | unlockOwner | unlockMutex =>
    rw [hpc] at hpcs
    exact hpcs.elim

def KeepsCell (s : State n) (i : Fin n) : Prop := ∀ idx,
  (s.threads i).pc = .removeCas .unlockSharable idx → s.sharedOwners idx = (s.threads i).pid

/-- No compare-exchange of `remove` loses its cell to another thread of the process. -/
def LosesNoCell (s : State n) (l : SharingLabel n) : Prop := ∀ i, l = .step i → s.KeepsCell i

theorem shares_of_step {l : SharingLabel n} (h : s.Sharing) (hs : s.sharingStep l = some s') :
    ∃ i, s.Shares i s' ∧ (s.LosesNoCell l ↔ s.KeepsCell i) := by
  have hidle : ∀ i, (s.threads i).pc = .idle → s.KeepsCell i := by
    intro i hpc idx hidx
    rw [hpc] at hidx
    cases hidx
  cases l with
  | lockSharable i =>
    simp only [sharingStep, step] at hs
    split_ifs at hs with hcall
    obtain rfl := Option.some.inj hs
    obtain ⟨hi, hpc, -⟩ := hcall
    exact ⟨i, .keep rfl rfl rfl ⟨rfl, rfl⟩ (by rw [hpc]; rfl) rfl rfl rfl (by simp [hpc]),
      iff_of_true (by rintro _ ⟨⟩) (hidle i hpc)⟩
  | unlockSharable i =>
    simp only [sharingStep, step] at hs
    split_ifs at hs with hcall
    obtain rfl := Option.some.inj hs
    obtain ⟨hi, hpc, hshared⟩ := hcall
    exact ⟨i, .start hpc hshared rfl, iff_of_true (by rintro _ ⟨⟩) (hidle i hpc)⟩
  | step i =>
    simp only [sharingStep, step] at hs
    split_ifs at hs with hi
    refine ⟨i, shares_of_advance h hs, fun hall => hall i rfl, ?_⟩
    rintro hkeeps j hj
    exact SharingLabel.step.inj hj ▸ hkeeps

theorem Shares.thread (h : s.Shares i s') : s'.exclusiveOwner = s.exclusiveOwner ∧
    s'.dead = s.dead ∧ ∃ x, s'.threads = Function.update s.threads i x ∧ x.pc.Sharing := by
  cases h with
  | keep hthreads _ _ hpc _ _ howner hdead _ => exact ⟨howner, hdead, _, hthreads, hpc⟩
  | start _ _ heq | next _ _ heq | erase _ _ heq =>
    subst heq
    exact ⟨rfl, rfl, _, rfl, rfl⟩
  | insert _ _ heq | lose _ _ heq | exhausted _ _ heq =>
    subst heq
    exact ⟨rfl, rfl, _, rfl, trivial⟩

theorem Sharing.shares (h : s.Sharing) (hs : s.Shares i s') : s'.Sharing := by
  obtain ⟨howner, hdead, x, hthreads, hpc⟩ := hs.thread
  refine ⟨howner.trans h.owner, fun p => hdead ▸ h.dead p, fun j => ?_⟩
  rw [hthreads]
  by_cases hji : j = i
  · rw [hji, Function.update_self]
    exact hpc
  · rw [Function.update_of_ne hji]
    exact h.pc j

def Ahead (s : State n) : Prop := ∀ p, p ≠ 0 → ∀ k,
  total (Thread.removerFrom p k) s.threads ≤ s.sharedOwners.countFrom p k

theorem Sharing.shared_pos (h : s.Sharing) (hsound : s.Sound) (j : Fin n) {idx : Nat}
    (hj : (s.threads j).pc.removing = some idx) : 0 < (s.threads j).shared := by
  have hpc := h.pc j
  have hknows := hsound.knows j (h.dead _)
  unfold Thread.Knows at hknows
  cases hcase : (s.threads j).pc with
  | removeLoad caller idx | removeCas caller idx =>
    rw [hcase] at hpc hknows
    obtain rfl : caller = _ := hpc
    exact hknows
  | _ => simp [hcase, Pc.removing] at hj

theorem Ahead.shares (h : s.Ahead) (hsharing : s.Sharing) (hsound : s.Sound)
    (hs : s.Shares i s') : s'.Ahead := by
  intro p hp k
  have hle := h p hp k
  have hnone : ∀ x : Thread, x.pc.removing = none → Thread.removerFrom p k x = 0 := by
    intro x hx
    rw [Thread.removerFrom, hx]
  cases hs with
  | @keep x hthreads hpid hshared hpc hremoving hcells _ _ _ =>
    have hsame : Thread.removerFrom p k x = Thread.removerFrom p k (s.threads i) := by
      rw [Thread.removerFrom, Thread.removerFrom, hremoving, hpid]
    rwa [hthreads, hcells, total_update_same hsame]
  | start hpc hshared heq =>
    subst heq
    cases k with
    | zero =>
      rw [LocklessSet.countFrom_zero]
      refine Nat.le_trans (total_update_le ?_ ?_) (hsound.shared p hp (hsharing.dead p))
      · simp only [Thread.removerFrom, Thread.sharedOf, Pc.removing]
        split_ifs <;> omega
      · intro j _
        unfold Thread.removerFrom
        split
        case h_1 idx hidx =>
          have hpos := hsharing.shared_pos hsound j hidx
          unfold Thread.sharedOf
          split_ifs <;> omega
        case h_2 => exact Nat.zero_le _
    | succ k =>
      have hsame : Thread.removerFrom p (k + 1)
          { s.threads i with pc := .removeLoad .unlockSharable 0 } =
          Thread.removerFrom p (k + 1) (s.threads i) := by
        rw [hnone (s.threads i) (by rw [hpc]; rfl)]
        simp [Thread.removerFrom, Pc.removing]
      exact (total_update_same hsame).trans_le hle
  | @next idx hpc hcell heq =>
    subst heq
    have hold : ∀ k, Thread.removerFrom p k (s.threads i) =
        if (s.threads i).pid = p ∧ k ≤ idx.val then 1 else 0 := by
      intro k
      simp only [Thread.removerFrom, hpc, Pc.removing]
    by_cases hk : (s.threads i).pid = p ∧ k = idx.val + 1
    · -- the thread was counted at cell `idx`, which is not one of its process
      obtain ⟨rfl, rfl⟩ := hk
      refine Nat.le_trans (total_update_le ?_ ?_)
        ((h _ hp idx.val).trans_eq (LocklessSet.countFrom_succ hcell).symm)
      · rw [hold]
        simp [Thread.removerFrom, Pc.removing]
      · intro j _
        unfold Thread.removerFrom
        split
        · split_ifs <;> omega
        · exact Nat.le_refl _
    · have hsame : Thread.removerFrom p k
          { s.threads i with pc := .removeLoad .unlockSharable (idx.val + 1) } =
          Thread.removerFrom p k (s.threads i) := by
        rw [hold]
        simp only [Thread.removerFrom, Pc.removing]
        split_ifs <;> omega
      exact (total_update_same hsame).trans_le hle
  | @insert idx hpc hcell heq =>
    subst heq
    have ht := total_setThread (Thread.removerFrom p k) s i
      { s.threads i with pc := .idle, shared := (s.threads i).shared + 1 }
    have hstore := LocklessSet.countFrom_store s.sharedOwners idx (s.threads i).pid p k
    rw [hnone _ (by rw [hpc]; rfl), hnone _ rfl] at ht
    rw [if_neg (fun hall => hp (hall.2.symm.trans hcell))] at hstore
    show total (Thread.removerFrom p k) (s.setThread i _).threads ≤
      (s.sharedOwners.store idx _).countFrom p k
    omega
  | @erase idx hpc hcell heq =>
    subst heq
    have ht := total_setThread (Thread.removerFrom p k) s i { s.threads i with
      pc := .releaseReader .unlockSharable, shared := (s.threads i).shared - 1 }
    have hstore := LocklessSet.countFrom_store s.sharedOwners idx 0 p k
    have hold : Thread.removerFrom p k (s.threads i) =
        if k ≤ idx.val ∧ s.sharedOwners idx = p then 1 else 0 := by
      simp only [Thread.removerFrom, hpc, Pc.removing, hcell, and_comm]
    rw [hold, hnone _ rfl] at ht
    rw [if_neg (fun hall : k ≤ idx.val ∧ 0 = p => hp hall.2.symm)] at hstore
    show total (Thread.removerFrom p k) (s.setThread i _).threads ≤
      (s.sharedOwners.store idx _).countFrom p k
    omega
  | lose hpc _ heq | exhausted hpc _ heq =>
    subst heq
    have ht := total_setThread (Thread.removerFrom p k) s i
      { s.threads i with pc := .idle, shared := (s.threads i).shared - 1 }
    rw [hnone { s.threads i with pc := .idle, shared := (s.threads i).shared - 1 } rfl] at ht
    show total (Thread.removerFrom p k) (s.setThread i _).threads ≤ s.sharedOwners.countFrom p k
    omega

theorem Ahead.not_exhausted (h : s.Ahead) (hsound : s.Sound) {idx : Nat}
    (hpc : (s.threads i).pc = .removeLoad .unlockSharable idx) : idx < 8 := by
  by_contra hidx
  have hle := h _ (hsound.pid_ne i) idx
  rw [LocklessSet.countFrom_of_size_le (Nat.le_of_not_lt hidx)] at hle
  have hone := le_total (Thread.removerFrom (s.threads i).pid idx) s.threads i
  have hcount : Thread.removerFrom (s.threads i).pid idx (s.threads i) = 1 := by
    simp [Thread.removerFrom, hpc, Pc.removing]
  omega

def Matched (s : State n) : Prop := ∀ p, p ≠ 0 →
  s.sharedOwners.count p = total (Thread.sharedOf p) s.threads

theorem Matched.shares_iff (hsound : s.Sound) (hsharing : s.Sharing) (hahead : s.Ahead)
    (hs : s.Shares i s') : s'.Matched ↔ s.Matched ∧ s.KeepsCell i := by
  have hother : (∀ idx, (s.threads i).pc ≠ .removeCas .unlockSharable idx) → s.KeepsCell i :=
    fun hpc idx hidx => absurd hidx (hpc idx)
  have hkeep : ∀ (p : Nat) (x : Thread), x.pid = (s.threads i).pid →
      x.shared = (s.threads i).shared →
      total (Thread.sharedOf p) (Function.update s.threads i x) =
        total (Thread.sharedOf p) s.threads := by
    intro p x hpid hshared
    exact total_update_same (by rw [Thread.sharedOf, Thread.sharedOf, hpid, hshared])
  cases hs with
  | keep hthreads hpid hshared _ _ hcells _ _ hpc =>
    rw [and_iff_left (hother hpc), Matched, Matched, hthreads, hcells]
    exact forall₂_congr fun p _ => by rw [hkeep p _ hpid hshared]
  | start hpc _ heq =>
    subst heq
    rw [and_iff_left (hother (by simp [hpc]))]
    exact forall₂_congr fun p _ => (congrArg (s.sharedOwners.count p = ·)
      (hkeep p { s.threads i with pc := .removeLoad .unlockSharable 0 } rfl rfl)).to_iff
  | @next idx hpc _ heq =>
    subst heq
    rw [and_iff_left (hother (by simp [hpc]))]
    exact forall₂_congr fun p _ => (congrArg (s.sharedOwners.count p = ·)
      (hkeep p { s.threads i with pc := .removeLoad .unlockSharable (idx.val + 1) } rfl rfl)).to_iff
  | insert hpc hcell heq =>
    subst heq
    rw [and_iff_left (hother (by simp [hpc]))]
    refine forall₂_congr fun p hp => ?_
    have ht := total_setThread (Thread.sharedOf p) s i
      { s.threads i with pc := .idle, shared := (s.threads i).shared + 1 }
    have hcount := LocklessSet.count_insert (s.threads i).pid hcell hp
    show (s.sharedOwners.store _ _).count p = total (Thread.sharedOf p) (s.setThread i _).threads ↔ _
    rw [hcount]
    simp only [Thread.sharedOf] at ht ⊢
    split_ifs at ht ⊢ <;> omega
  | @erase idx hpc hcell heq =>
    subst heq
    have hpos := hsharing.shared_pos hsound i (by rw [hpc]; rfl)
    have hkeeps : s.KeepsCell i := by
      intro idx' hidx
      rw [hpc] at hidx
      cases hidx
      exact hcell
    rw [and_iff_left hkeeps]
    refine forall₂_congr fun p hp => ?_
    have ht := total_setThread (Thread.sharedOf p) s i { s.threads i with
      pc := .releaseReader .unlockSharable, shared := (s.threads i).shared - 1 }
    have hcount := LocklessSet.count_erase hcell hp
    show (s.sharedOwners.store _ _).count p = total (Thread.sharedOf p) (s.setThread i _).threads ↔ _
    simp only [Thread.sharedOf] at ht ⊢
    split_ifs at ht hcount <;> omega
  | lose hpc hcell heq =>
    subst heq
    have hpos := hsharing.shared_pos hsound i (by rw [hpc]; rfl)
    refine iff_of_false (fun hmatched => ?_) fun hall => hcell (hall.2 _ hpc)
    -- one hold less, and as many cells as before
    have hle := hsound.shared _ (hsound.pid_ne i) (hsharing.dead _)
    have hcount : s.sharedOwners.count (s.threads i).pid =
        total (Thread.sharedOf (s.threads i).pid) (s.setThread i
          { s.threads i with pc := .idle, shared := (s.threads i).shared - 1 }).threads :=
      hmatched _ (hsound.pid_ne i)
    have ht := total_setThread (Thread.sharedOf (s.threads i).pid) s i
      { s.threads i with pc := .idle, shared := (s.threads i).shared - 1 }
    have hold : Thread.sharedOf (s.threads i).pid (s.threads i) = (s.threads i).shared := if_pos rfl
    have hnew : Thread.sharedOf (s.threads i).pid { s.threads i with
      pc := .idle, shared := (s.threads i).shared - 1 } = (s.threads i).shared - 1 := if_pos rfl
    rw [hold, hnew] at ht
    omega
  | exhausted hpc hidx heq => exact absurd (hahead.not_exhausted hsound hpc) (Nat.not_lt.mpr hidx)

/-- Nobody is in a call, and every shared hold has been given back. -/
def Quiescent (s : State n) : Prop := ∀ i, (s.threads i).pc = .idle ∧ (s.threads i).shared = 0

instance (s : State n) : Decidable s.Quiescent := inferInstanceAs (Decidable (∀ _, _))

def TryLockSucceeds (s : State n) (i : Fin n) : Prop :=
  ∃ s', Machine.run step s [.call i (.acquire .tryLock), .step i, .step i] = some s' ∧
    (s'.threads i).excl = true ∧ (s'.threads i).pc = .idle

structure Balanced (s : State n) : Prop where
  readers : s.mutex.readers = 0
  cells : s.sharedOwners = .empty
  tryLock : ∀ i, s.TryLockSucceeds i

theorem tryLockSucceeds (hi : s.Alive i) (hidle : (s.threads i).pc = .idle)
    (hfree : s.mutex = .free) : s.TryLockSucceeds i := by
  have hcall : s.step (.call i (.acquire .tryLock)) = some (s.setPc i (.attempt .tryLock false)) :=
    if_pos ⟨hi, hidle, trivial⟩
  have hop : Acquire.tryLock.sharable = false := rfl
  obtain ⟨s', hs, hexcl⟩ := run_attempt hi hfree hop
  exact ⟨s', (Machine.run_cons _ hcall).trans hs, hexcl⟩

theorem Sound.balanced_iff (h : s.Sound) (hsharing : s.Sharing) (hquiescent : s.Quiescent) :
    s.Balanced ↔ s.Matched := by
  have hshared : ∀ p, total (Thread.sharedOf p) s.threads = 0 := by
    intro p
    refine total_eq_zero.mpr fun i => ?_
    rw [Thread.sharedOf, (hquiescent i).2, ite_self]
  constructor
  · intro hbalanced p hp
    rw [hbalanced.cells, hshared, LocklessSet.count_empty hp]
  · intro hmatched
    have hcells : s.sharedOwners = .empty := by
      funext idx
      by_contra hidx
      have hpos : 0 < s.sharedOwners.count (s.sharedOwners idx) := LocklessSet.count_pos rfl
      rw [hmatched _ hidx, hshared] at hpos
      cases hpos
    have hneutral : ∀ w : Thread → Nat, (∀ i, w (s.threads i) = 0) → total w s.threads = 0 :=
      fun w hw => total_eq_zero.mpr hw
    have hreaders : s.mutex.readers = 0 := by
      rw [h.readers, hcells, LocklessSet.occupied_empty, hneutral]
      intro i
      rw [Thread.sharable, (hquiescent i).1]
      rfl
    have hwriter : s.mutex.writer = false := by
      have hw := h.writers
      rw [if_pos hsharing.owner, hneutral Thread.exclusive] at hw
      · cases hwriter : s.mutex.writer with
        | false => rfl
        | true => simp [hwriter] at hw
      · intro i
        rw [Thread.exclusive, (hquiescent i).1]
        rfl
    refine ⟨hreaders, hcells, fun i => ?_⟩
    exact tryLockSucceeds (hsharing.dead _) (hquiescent i).1 (RwLock.ext hwriter hreaders)

theorem Sound.sharingStep {l : SharingLabel n} (h : s.Sound) (hs : s.sharingStep l = some s') :
    s'.Sound := by
  cases l <;> simp only [State.sharingStep] at hs <;> exact h.step hs

/-- When all have given back their shared holds, the lock is free in exactly those runs in which
no `remove` has lost its cell between its load and its compare-exchange. -/
theorem balanced_iff_losesNoCell {pid : Fin n → Nat} (hpid : ∀ i, pid i ≠ 0)
    {labels : List (SharingLabel n)} (h : Machine.run sharingStep (new pid) labels = some s)
    (hquiescent : s.Quiescent) :
    s.Balanced ↔ Machine.Run sharingStep LosesNoCell (new pid) labels s := by
  have hnew : (new pid).Sound ∧ (new pid).Sharing ∧ (new pid).Ahead := by
    refine ⟨.new hpid, ⟨rfl, fun _ => rfl, fun _ => trivial⟩, fun p _ k => ?_⟩
    have hzero : total (Thread.removerFrom p k) (new pid).threads = 0 :=
      total_eq_zero.mpr fun _ => rfl
    rw [hzero]
    exact Nat.zero_le _
  have hmatched : (new pid).Matched := by
    intro p hp
    have hzero : total (Thread.sharedOf p) (new pid).threads = 0 :=
      total_eq_zero.mpr fun _ => ite_self _
    rw [hzero]
    exact LocklessSet.count_empty hp
  have hstep : ∀ (t : State n) (l : SharingLabel n) (t' : State n),
      t.Sound ∧ t.Sharing ∧ t.Ahead → t.sharingStep l = some t' →
      (t'.Sound ∧ t'.Sharing ∧ t'.Ahead) ∧ (t'.Matched ↔ t.Matched ∧ LosesNoCell t l) := by
    rintro t l t' ⟨hsound, hsharing, hahead⟩ hs
    obtain ⟨i, hshares, hok⟩ := shares_of_step hsharing hs
    rw [hok]
    exact ⟨⟨hsound.sharingStep hs, hsharing.shares hshares, hahead.shares hsharing hsound hshares⟩,
      Matched.shares_iff hsound hsharing hahead hshares⟩
  obtain ⟨hsound, hsharing, -⟩ := (Machine.Run.of_run h).invariant
    (fun t => t.Sound ∧ t.Sharing ∧ t.Ahead) hnew fun t l t' ht _ hs => (hstep t l t' ht hs).1
  rw [hsound.balanced_iff hsharing hquiescent]
  exact Machine.Run.exact (fun t => t.Sound ∧ t.Sharing ∧ t.Ahead) Matched h hnew hmatched hstep

def waitLabels : List (SharingLabel 2) :=
  [.lockSharable 0, .step 0, .step 0, .step 0, .lockSharable 1, .step 1, .step 1,
    .unlockSharable 0, .step 0, .step 0, .step 0, .step 1, .step 1,
    .unlockSharable 1, .step 1, .step 1, .step 1]

theorem balanced_after_wait : ∃ s : State 2,
    Machine.run sharingStep (new fun _ => 1) waitLabels = some s ∧ s.Balanced := by
  let check : State 2 → SharingLabel 2 → Bool := fun s l =>
    match l with
    | .step i =>
      match (s.threads i).pc with
      | .removeCas _ idx => s.sharedOwners idx == (s.threads i).pid
      | _ => true
    | _ => true
  have hcheck : ∀ s l, check s l = true → LosesNoCell s l := by
    rintro s l hl i rfl idx hpc
    simpa only [check, hpc, beq_iff_eq] using hl
  have hrun : (Machine.runIf sharingStep check (new fun _ => 1) waitLabels).map
      (fun s => decide s.Quiescent) = some true := by decide +kernel
  obtain ⟨s, hs, hquiescent⟩ := Option.map_eq_some_iff.mp hrun
  have hrun := Machine.Run.of_runIf hcheck hs
  exact ⟨s, hrun.run_eq, (balanced_iff_losesNoCell (fun _ => Nat.one_ne_zero) hrun.run_eq
    (of_decide_eq_true hquiescent)).mpr hrun⟩

/-- Threads 1 and 2 belong to one process, which has two cells since thread 0 has given back the
first.  Both find that cell, and only one erases it. -/
def lostCellLabels : List (SharingLabel 3) :=
  [.lockSharable 0, .step 0, .step 0, .step 0,
    .lockSharable 1, .step 1, .step 1, .step 1, .step 1,
    .unlockSharable 0, .step 0, .step 0, .step 0,
    .lockSharable 2, .step 2, .step 2, .step 2,
    .unlockSharable 1, .step 1, .unlockSharable 2, .step 2, .step 2, .step 2, .step 1]

/-- All holds have been given back, and the lock still has a reader. -/
theorem lost_cell : ∃ s : State 3,
    Machine.run sharingStep (new fun i => if i = 0 then 1 else 2) lostCellLabels = some s ∧
    s.Quiescent ∧ ¬ s.Balanced := by
  have hrun : (Machine.run sharingStep (new fun i => if i = 0 then 1 else 2) lostCellLabels).map
      (fun s => (decide s.Quiescent, s.mutex.readers)) = some (true, 1) := by decide +kernel
  obtain ⟨s, hs, hvals⟩ := Option.map_eq_some_iff.mp hrun
  simp only [Prod.mk.injEq] at hvals
  obtain ⟨hquiescent, hreaders⟩ := hvals
  refine ⟨s, hs, of_decide_eq_true hquiescent, fun hbalanced => ?_⟩
  rw [hbalanced.readers] at hreaders
  cases hreaders

end State

end Shadesmar.Concurrency.RobustLock
