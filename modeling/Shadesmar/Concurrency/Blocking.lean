import Shadesmar.Concurrency.Recovery
import Shadesmar.Concurrency.SetCalls

namespace Shadesmar.Concurrency

open Library Library.Tally

namespace LocklessSet

variable {size : Nat} {set : LocklessSet size} {elem k : Nat}

def Finds (set : LocklessSet size) (elem k : Nat) : Prop :=
  ∃ idx, k ≤ idx.val ∧ set idx = 0 ∧ ∀ j : Fin size, k ≤ j.val → j < idx → set j ≠ elem

instance (set : LocklessSet size) (elem k : Nat) : Decidable (set.Finds elem k) :=
  inferInstanceAs (Decidable (∃ _, _))

theorem Finds.lt (h : set.Finds elem k) : k < size := by
  obtain ⟨idx, hk, -⟩ := h
  exact Nat.lt_of_le_of_lt hk idx.isLt

theorem finds_iff (hk : k < size) (helem : elem ≠ 0) : set.Finds elem k ↔
    set ⟨k, hk⟩ ≠ elem ∧ (set ⟨k, hk⟩ = 0 ∨ set.Finds elem (k + 1)) := by
  constructor
  · rintro ⟨idx, hle, hzero, hbefore⟩
    rcases Nat.lt_or_eq_of_le hle with hlt | heq
    · exact ⟨hbefore ⟨k, hk⟩ (Nat.le_refl k) hlt, .inr ⟨idx, hlt, hzero, fun j hj =>
        hbefore j (Nat.le_of_succ_le hj)⟩⟩
    · have hcell : set ⟨k, hk⟩ = 0 := by
        rw [← hzero]
        congr 1
        exact Fin.ext heq
      exact ⟨hcell ▸ helem.symm, .inl hcell⟩
  · rintro ⟨hne, hzero | ⟨idx, hle, hzero, hbefore⟩⟩
    · refine ⟨⟨k, hk⟩, Nat.le_refl k, hzero, fun j hj hlt => ?_⟩
      exact absurd hlt (Nat.not_lt.mpr hj)
    · refine ⟨idx, Nat.le_of_succ_le hle, hzero, fun j hj hlt => ?_⟩
      rcases Nat.lt_or_eq_of_le hj with hmore | heq
      · exact hbefore j hmore hlt
      · rwa [show j = ⟨k, hk⟩ from (Fin.ext heq).symm]

end LocklessSet

namespace RobustLock

def Remover.rank : Remover → Nat
  | pruning _ idx _ => 3 + 20 * (7 - idx)
  | unlockSharable => 0

namespace Pc

def InTryLock : Pc → Prop
  | idle | record => True
  | attempt op _ | testOwner op | loadOwner op | testDead op _ | clearOwner op _ | releaseDead op
  | prune op _ | testReader op _ _ => op = .tryLock
  | removeLoad caller _ | removeCas caller _ | releaseReader caller =>
    ∃ idx sharedOwner, caller = .pruning .tryLock idx sharedOwner
  | storeZero _ | insertLoad _ | insertCas _ | unlockOwner | unlockMutex => False

def rank : Pc → Nat
  | attempt _ last => if last then 2 else 201
  | testOwner _ => 200
  | loadOwner _ => 7
  | testDead _ _ => 6
  | clearOwner _ _ => 5
  | releaseDead _ => 4
  | prune _ idx => 3 + 20 * (8 - idx)
  | testReader _ idx _ => 22 + 20 * (7 - idx)
  | removeLoad caller idx => caller.rank + 5 + (8 - idx)
  | removeCas caller _ => caller.rank + 4
  | releaseReader caller => caller.rank + 3
  | record => 1
  | idle | storeZero _ | insertLoad _ | insertCas _ | unlockOwner | unlockMutex => 0

end Pc

theorem rank_retry : Acquire.tryLock.retry.rank = 2 := rfl

namespace State

variable {n : Nat} {s s' t : State n} {i : Fin n} {pc : Pc}

structure Descends (s : State n) (i : Fin n) (s' : State n) : Prop where
  place : (s'.threads i).pc.InTryLock
  rank : (s'.threads i).pc.rank < (s.threads i).pc.rank
  dead : s'.dead = s.dead
  pid : (s'.threads i).pid = (s.threads i).pid

theorem Descends.setPc {t : State n} (hplace : pc.InTryLock) (hrank : pc.rank < (s.threads i).pc.rank)
    (hdead : t.dead = s.dead) (hpid : (t.threads i).pid = (s.threads i).pid) :
    s.Descends i (t.setPc i pc) := by
  refine ⟨?_, ?_, hdead, ?_⟩ <;> simpa

theorem Descends.setThread {t : State n} {x : Thread} (hplace : x.pc.InTryLock)
    (hrank : x.pc.rank < (s.threads i).pc.rank) (hdead : t.dead = s.dead)
    (hpid : x.pid = (s.threads i).pid) : s.Descends i (t.setThread i x) := by
  refine ⟨?_, ?_, hdead, ?_⟩ <;> simpa [State.setThread]

theorem descends_of_advance (hplace : (s.threads i).pc.InTryLock) (hidle : (s.threads i).pc ≠ .idle) :
    ∃ s', s.advance i = some s' ∧ s.Descends i s' := by
  unfold advance
  cases hpc : (s.threads i).pc with
  | idle => exact absurd hpc hidle
  | attempt op last =>
    rw [hpc] at hplace
    obtain rfl : op = .tryLock := hplace
    refine ⟨_, rfl, ?_⟩
    simp only [Acquire.sharable, Bool.false_eq_true, if_false, attemptExclusive]
    cases s.mutex.tryLock with
    | some mutex =>
      refine .setThread trivial ?_ rfl rfl
      cases last <;> simp [hpc, Pc.rank]
    | none =>
      cases last with
      | true => exact .setPc trivial (by simp [hpc, Pc.rank]) rfl rfl
      | false => exact .setPc rfl (by simp [hpc, Pc.rank]) rfl rfl
  | testOwner op =>
    rw [hpc] at hplace
    obtain rfl : op = .tryLock := hplace
    by_cases howner : s.exclusiveOwner ≠ 0
    · exact ⟨_, if_pos howner, .setPc rfl (by simp [hpc, Pc.rank]) rfl rfl⟩
    · exact ⟨_, if_neg howner, .setPc rfl (by simp [hpc, Pc.rank]) rfl rfl⟩
  | loadOwner op =>
    rw [hpc] at hplace
    exact ⟨_, rfl, .setPc hplace (by simp [hpc, Pc.rank]) rfl rfl⟩
  | testDead op exProc =>
    rw [hpc] at hplace
    obtain rfl : op = .tryLock := hplace
    by_cases hdead : s.dead exProc = true
    · exact ⟨_, if_pos hdead, .setPc rfl (by simp [hpc, Pc.rank]) rfl rfl⟩
    · exact ⟨_, if_neg hdead, .setPc rfl (by rw [hpc, rank_retry]; simp [Pc.rank]) rfl rfl⟩
  | clearOwner op exProc =>
    rw [hpc] at hplace
    obtain rfl : op = .tryLock := hplace
    refine ⟨_, rfl, ?_⟩
    unfold clearOwner
    by_cases howner : s.exclusiveOwner = exProc
    · rw [if_pos howner]
      exact .setPc rfl (by simp [hpc, Pc.rank, Acquire.sharable]) rfl rfl
    · rw [if_neg howner]
      exact .setPc rfl (by rw [hpc, rank_retry]; simp [Pc.rank]) rfl rfl
  | storeZero op => rw [hpc] at hplace; exact hplace.elim
  | releaseDead op =>
    rw [hpc] at hplace
    obtain rfl : op = .tryLock := hplace
    exact ⟨_, rfl, .setPc rfl (by rw [hpc, rank_retry]; simp [Pc.rank]) rfl rfl⟩
  | prune op idx =>
    rw [hpc] at hplace
    obtain rfl : op = .tryLock := hplace
    by_cases hlt : idx < 8
    · by_cases hcell : s.sharedOwners ⟨idx, hlt⟩ = 0
      · refine ⟨_, (dif_pos hlt).trans (if_pos hcell), .setPc rfl ?_ rfl rfl⟩
        rw [hpc]
        simp only [Pc.rank]
        omega
      · refine ⟨_, (dif_pos hlt).trans (if_neg hcell), .setPc rfl ?_ rfl rfl⟩
        rw [hpc]
        simp only [Pc.rank]
        omega
    · refine ⟨_, dif_neg hlt, .setPc rfl ?_ rfl rfl⟩
      rw [hpc, rank_retry]
      simp only [Pc.rank]
      omega
  | testReader op idx sharedOwner =>
    rw [hpc] at hplace
    obtain rfl : op = .tryLock := hplace
    by_cases hdead : s.dead sharedOwner = true
    · refine ⟨_, if_pos hdead, .setPc ⟨idx, sharedOwner, rfl⟩ ?_ rfl rfl⟩
      rw [hpc]
      simp only [Pc.rank, Remover.rank]
      omega
    · refine ⟨_, if_neg hdead, .setPc rfl ?_ rfl rfl⟩
      rw [hpc]
      simp only [Pc.rank]
      omega
  | removeLoad caller k =>
    rw [hpc] at hplace
    obtain ⟨idx, sharedOwner, rfl⟩ := hplace
    refine ⟨_, rfl, ?_⟩
    unfold removeLoad
    by_cases hlt : k < 8
    · simp only [dif_pos hlt]
      by_cases hcell : s.sharedOwners ⟨k, hlt⟩ = sharedOwner
      · rw [if_pos hcell]
        refine .setPc ⟨idx, sharedOwner, rfl⟩ ?_ rfl rfl
        rw [hpc]
        simp only [Pc.rank]
        omega
      · rw [if_neg hcell]
        refine .setPc ⟨idx, sharedOwner, rfl⟩ ?_ rfl rfl
        rw [hpc]
        simp only [Pc.rank]
        omega
    · rw [dif_neg hlt]
      refine .setPc rfl ?_ rfl rfl
      rw [hpc]
      simp only [Pc.rank, Remover.rank]
      omega
  | removeCas caller k =>
    rw [hpc] at hplace
    obtain ⟨idx, sharedOwner, rfl⟩ := hplace
    refine ⟨_, rfl, ?_⟩
    unfold removeCas
    by_cases hcell : s.sharedOwners k = sharedOwner
    · simp only [if_pos hcell]
      refine .setPc ⟨idx, sharedOwner, rfl⟩ ?_ rfl rfl
      rw [hpc]
      simp only [Pc.rank]
      omega
    · simp only [if_neg hcell]
      refine .setPc rfl ?_ rfl rfl
      rw [hpc]
      simp only [Pc.rank, Remover.rank]
      omega
  | releaseReader caller =>
    rw [hpc] at hplace
    obtain ⟨idx, sharedOwner, rfl⟩ := hplace
    refine ⟨_, rfl, .setPc rfl ?_ rfl rfl⟩
    rw [hpc]
    simp only [Pc.rank, Remover.rank, Remover.next]
    omega
  | record => exact ⟨_, rfl, .setThread trivial (by simp [hpc, Pc.rank]) rfl rfl⟩
  | insertLoad idx => rw [hpc] at hplace; exact hplace.elim
  | insertCas idx => rw [hpc] at hplace; exact hplace.elim
  | unlockOwner => rw [hpc] at hplace; exact hplace.elim
  | unlockMutex => rw [hpc] at hplace; exact hplace.elim

def Returns (s : State n) (i : Fin n) : Prop := ∃ s', Reaches i s s' ∧ (s'.threads i).pc = .idle

def CallReturns (s : State n) (i : Fin n) (op : Acquire) : Prop :=
  ∃ k s', Machine.run step s (.call i (.acquire op) :: List.replicate k (.step i)) = some s' ∧
    (s'.threads i).pc = .idle

theorem callReturns_iff (hi : s.Alive i) (hidle : (s.threads i).pc = .idle) (op : Acquire) :
    s.CallReturns i op ↔ (s.setPc i (.attempt op false)).Returns i := by
  have hcall : s.step (.call i (.acquire op)) = some (s.setPc i (.attempt op false)) :=
    if_pos ⟨hi, hidle, trivial⟩
  simp only [CallReturns, Returns, Reaches, Machine.run_cons _ hcall]
  constructor
  · exact fun ⟨k, s', hrun, hpc⟩ => ⟨s', ⟨k, hrun⟩, hpc⟩
  · exact fun ⟨s', ⟨k, hrun⟩, hpc⟩ => ⟨k, s', hrun, hpc⟩

theorem returns_of_inTryLock (hi : s.Alive i) (hplace : (s.threads i).pc.InTryLock) :
    s.Returns i := by
  have hend : ∃ k s', Machine.run step s (List.replicate k (.step i)) = some s' ∧
      (s'.Alive i ∧ (s'.threads i).pc.InTryLock) ∧ (s'.threads i).pc = .idle := by
    apply Machine.run_of_rank (fun t : State n => t.Alive i ∧ (t.threads i).pc.InTryLock)
      (fun t => (t.threads i).pc = .idle) (fun t => (t.threads i).pc.rank) _ ⟨hi, hplace⟩
    rintro t ⟨ht, hin⟩ hne
    obtain ⟨t', hs, hdesc⟩ := descends_of_advance hin hne
    refine ⟨t', (if_pos ht).trans hs, ⟨?_, hdesc.place⟩, .inr hdesc.rank⟩
    rw [Alive, hdesc.dead, hdesc.pid]
    exact ht
  obtain ⟨k, s', hrun, -, hidle⟩ := hend
  exact ⟨s', ⟨k, hrun⟩, hidle⟩

theorem step_idle (hidle : (s.threads i).pc = .idle) : s.step (.step i) = none := by
  simp [step, advance, hidle]

theorem returns_iff_of_reaches (h : Reaches i s t) : s.Returns i ↔ t.Returns i := by
  constructor
  · rintro ⟨u, ⟨m, hm⟩, hidle⟩
    obtain ⟨k, hk⟩ := h
    rcases Nat.le_total k m with hle | hle
    · obtain ⟨j, rfl⟩ := Nat.exists_eq_add_of_le hle
      rw [List.replicate_add, Machine.run_append, hk] at hm
      exact ⟨u, ⟨j, hm⟩, hidle⟩
    · obtain ⟨j, rfl⟩ := Nat.exists_eq_add_of_le hle
      rw [List.replicate_add, Machine.run_append, hm] at hk
      cases j with
      | zero =>
        obtain rfl : u = t := by simpa [Machine.run] using hk
        exact ⟨u, .refl u, hidle⟩
      | succ j =>
        rw [List.replicate_succ] at hk
        simp [Machine.run, step_idle hidle] at hk
  · rintro ⟨u, hu, hidle⟩
    exact ⟨u, h.trans hu, hidle⟩

structure Inserts (s : State n) (i : Fin n) (set : LocklessSet 8) (p : Nat) (pc : Pc) : Prop where
  alive : s.Alive i
  place : (s.threads i).pc = pc
  set_eq : s.sharedOwners = set
  pid_eq : (s.threads i).pid = p

namespace Inserts

variable {set : LocklessSet 8} {p k : Nat} {pc : Pc}

theorem setPc (h : s.Inserts i set p pc) (pc' : Pc) : (s.setPc i pc').Inserts i set p pc' := by
  refine ⟨?_, ?_, h.set_eq, ?_⟩
  · rw [Alive, dead_setPc, pid_setPc]
    exact h.alive
  · simp
  · rw [pid_setPc]
    exact h.pid_eq

theorem load (h : s.Inserts i set p (.insertLoad k)) (hk : k < 8) :
    ∃ s', s.step (.step i) = some s' ∧ s'.Inserts i set p
      (if set ⟨k, hk⟩ = p then .insertLoad 0 else if set ⟨k, hk⟩ ≠ 0 then .insertLoad (k + 1)
        else .insertCas ⟨k, hk⟩) := by
  have hstep : s.step (.step i) = some (s.setPc i
      (if set ⟨k, hk⟩ = p then .insertLoad 0 else if set ⟨k, hk⟩ ≠ 0 then .insertLoad (k + 1)
        else .insertCas ⟨k, hk⟩)) := by
    refine (if_pos h.alive).trans ?_
    unfold advance
    rw [h.place]
    simp only [insertLoad, dif_pos hk, h.set_eq, h.pid_eq]
    split_ifs <;> rfl
  exact ⟨_, hstep, h.setPc _⟩

theorem again (h : s.Inserts i set p (.insertLoad k)) (hk : ¬ k < 8) :
    ∃ s', s.step (.step i) = some s' ∧ s'.Inserts i set p (.insertLoad 0) := by
  have hstep : s.step (.step i) = some (s.setPc i (.insertLoad 0)) := by
    refine (if_pos h.alive).trans ?_
    unfold advance
    rw [h.place]
    simp only [insertLoad, dif_neg hk]
  exact ⟨_, hstep, h.setPc _⟩

theorem cas_taken {idx : Fin 8} (h : s.Inserts i set p (.insertCas idx)) (hcell : set idx ≠ 0) :
    ∃ s', s.step (.step i) = some s' ∧ s'.Inserts i set p (.insertLoad (idx.val + 1)) := by
  have hstep : s.step (.step i) = some (s.setPc i (.insertLoad (idx.val + 1))) := by
    refine (if_pos h.alive).trans ?_
    unfold advance
    rw [h.place]
    simp only [insertCas, h.set_eq, if_neg hcell]
  exact ⟨_, hstep, h.setPc _⟩

theorem cas_free {idx : Fin 8} (h : s.Inserts i set p (.insertCas idx)) (hcell : set idx = 0) :
    s.Returns i := by
  have hadvance : s.advance i = some (State.setThread
      { s with sharedOwners := s.sharedOwners.store idx (s.threads i).pid } i
      { s.threads i with pc := .idle, shared := (s.threads i).shared + 1 }) := by
    unfold advance
    rw [h.place]
    simp only [insertCas, h.set_eq, if_pos hcell]
  exact ⟨_, .of_advance h.alive hadvance, by simp [State.setThread]⟩

theorem returns_of_step {pc' : Pc}
    (hnext : ∃ s', s.step (.step i) = some s' ∧ s'.Inserts i set p pc')
    (hreturns : ∀ t : State n, t.Inserts i set p pc' → t.Returns i) : s.Returns i := by
  obtain ⟨s', hs, h'⟩ := hnext
  refine (returns_iff_of_reaches ⟨1, ?_⟩).mpr (hreturns s' h')
  exact (Machine.run_cons [] hs).trans rfl

theorem returns_of_finds (hp : p ≠ 0) (h : s.Inserts i set p (.insertLoad k))
    (hfinds : set.Finds p k) : s.Returns i := by
  obtain ⟨m, hm⟩ := Nat.exists_eq_add_of_le (Nat.le_of_lt hfinds.lt)
  induction m generalizing s k with
  | zero => exact absurd hfinds.lt (by omega)
  | succ m ih =>
    have hk := hfinds.lt
    obtain ⟨hne, hcell⟩ := (LocklessSet.finds_iff hk hp).mp hfinds
    have hnext := h.load hk
    rw [if_neg hne] at hnext
    by_cases hzero : set ⟨k, hk⟩ = 0
    · rw [if_neg (not_not.mpr hzero)] at hnext
      exact returns_of_step hnext fun t ht => ht.cas_free hzero
    · rw [if_pos hzero] at hnext
      exact returns_of_step hnext fun t ht => ih ht (hcell.resolve_left hzero) (by omega)

theorem returns_of_pass (h : s.Inserts i set p (.insertLoad k))
    (hzero : ∀ t : State n, t.Inserts i set p (.insertLoad 0) → t.Returns i) : s.Returns i := by
  by_cases hk : k < 8
  · obtain ⟨m, hm⟩ := Nat.exists_eq_add_of_le (Nat.le_of_lt hk)
    induction m generalizing s k with
    | zero => omega
    | succ m ih =>
      have hrest : ∀ t : State n, t.Inserts i set p (.insertLoad (k + 1)) → t.Returns i := by
        intro t ht
        by_cases hlast : k + 1 < 8
        · exact ih ht hlast (by omega)
        · exact returns_of_step (ht.again hlast) hzero
      have hnext := h.load hk
      split_ifs at hnext with hown hcell
      · exact returns_of_step hnext hzero
      · exact returns_of_step hnext hrest
      · exact returns_of_step hnext fun t ht => ht.cas_free (not_not.mp hcell)
  · exact returns_of_step (h.again hk) hzero

theorem not_returns (hp : p ≠ 0) (h : s.Inserts i set p (.insertLoad k))
    (hfinds : ¬ set.Finds p k) (hzero : ¬ set.Finds p 0) : ¬ s.Returns i := by
  rintro ⟨u, ⟨m, hm⟩, hidle⟩
  have hsteps : Machine.Run step (fun _ l => l = .step i) s (List.replicate m (.step i)) u :=
    .of_labels hm fun l hl _ => List.eq_of_mem_replicate hl
  have hinv := hsteps.invariant (fun t => ∃ k, t.Inserts i set p (.insertLoad k) ∧ ¬ set.Finds p k) ⟨k, h, hfinds⟩ (by
      rintro t l t' ⟨k, ht, hk⟩ rfl hs
      by_cases hlt : k < 8
      · obtain ⟨t'', hs', ht'⟩ := ht.load hlt
        obtain rfl := Option.some.inj (hs.symm.trans hs')
        rw [LocklessSet.finds_iff hlt hp] at hk
        split_ifs at ht' with hown hcell
        · exact ⟨0, ht', hzero⟩
        · exact ⟨k + 1, ht', fun hlater => hk ⟨hown, .inr hlater⟩⟩
        · exact absurd ⟨hown, .inl (not_not.mp hcell)⟩ hk
      · obtain ⟨t'', hs', ht'⟩ := ht.again hlt
        obtain rfl := Option.some.inj (hs.symm.trans hs')
        exact ⟨0, ht', hzero⟩)
  obtain ⟨k', hu, -⟩ := hinv
  rw [hu.place] at hidle
  cases hidle

theorem returns_load_iff (hp : p ≠ 0) (h : s.Inserts i set p (.insertLoad k)) :
    s.Returns i ↔ set.Finds p k ∨ set.Finds p 0 := by
  constructor
  · intro hreturns
    by_contra hnone
    exact h.not_returns hp (fun hk => hnone (.inl hk)) (fun hzero => hnone (.inr hzero)) hreturns
  · rintro (hk | hzero)
    · exact h.returns_of_finds hp hk
    · exact h.returns_of_pass fun t ht => ht.returns_of_finds hp hzero

theorem returns_cas_iff (hp : p ≠ 0) {idx : Fin 8} (h : s.Inserts i set p (.insertCas idx)) :
    s.Returns i ↔ set idx = 0 ∨ set.Finds p (idx.val + 1) ∨ set.Finds p 0 := by
  by_cases hcell : set idx = 0
  · exact iff_of_true (h.cas_free hcell) (.inl hcell)
  · obtain ⟨s', hs, h'⟩ := h.cas_taken hcell
    have hreach : Reaches i s s' := ⟨1, (Machine.run_cons [] hs).trans rfl⟩
    rw [returns_iff_of_reaches hreach, h'.returns_load_iff hp]
    exact (or_iff_right hcell).symm

end Inserts

theorem inserts_of_attempt (hi : s.Alive i) (hwriter : s.mutex.writer = false) (last : Bool) :
    ∃ t, Reaches i (s.setPc i (.attempt .tryLockSharable last)) t ∧
      t.Inserts i s.sharedOwners (s.threads i).pid (.insertLoad 0) := by
  have hlock : s.mutex.tryLockSharable = some { s.mutex with readers := s.mutex.readers + 1 } :=
    if_pos hwriter
  have hadvance : (s.setPc i (.attempt .tryLockSharable last)).advance i = some
      (State.setThread { s with
        mutex := { s.mutex with readers := s.mutex.readers + 1 }
        readersOf := Function.update s.readersOf (s.threads i).pid
          (s.readersOf (s.threads i).pid + 1) } i
        { s.threads i with pc := .insertLoad 0, acquired := true }) := by
    simp [advance, Acquire.sharable, attemptSharable, hlock, State.setPc, State.setThread]
  refine ⟨_, .step hi hadvance, ?_, ?_, rfl, ?_⟩
  · simpa [Alive, State.setThread] using hi
  · simp [State.setThread]
  · simp [State.setThread]

theorem reaches_failed (hi : s.Alive i) (hwriter : s.mutex.writer = true) (last : Bool) :
    Reaches i (s.setPc i (.attempt .tryLockSharable last))
      (s.setPc i (if last then .idle else .testOwner .tryLockSharable)) := by
  have hlock : s.mutex.tryLockSharable = none := if_neg (by simp [hwriter])
  exact .move hi (by simp [advance, Acquire.sharable, attemptSharable, hlock])

theorem returns_of_retry (hi : s.Alive i) (hwriter : s.mutex.writer = true) :
    (s.setPc i (Acquire.retry .tryLockSharable)).Returns i :=
  ⟨_, reaches_failed hi hwriter true, by simp⟩

theorem inserts_of_dead_writer (hi : s.Alive i) (hwriter : s.mutex.writer = true)
    (hne : s.exclusiveOwner ≠ 0) (hdead : s.dead s.exclusiveOwner = true) :
    ∃ t, Reaches i (s.setPc i (.testOwner .tryLockSharable)) t ∧
      t.Inserts i s.sharedOwners (s.threads i).pid (.insertLoad 0) := by
  have hload : Reaches i (s.setPc i (.testOwner .tryLockSharable))
      (s.setPc i (.loadOwner .tryLockSharable)) := .move hi (by simp [advance, hne])
  have htest : Reaches i (s.setPc i (.loadOwner .tryLockSharable))
      (s.setPc i (.testDead .tryLockSharable s.exclusiveOwner)) := .move hi (by simp [advance])
  have hclear : Reaches i (s.setPc i (.testDead .tryLockSharable s.exclusiveOwner))
      (s.setPc i (.clearOwner .tryLockSharable s.exclusiveOwner)) :=
    .move hi (by simp [advance, hdead])
  let t : State n := { s with exclusiveOwner := 0, holder := some (s.threads i).pid }
  have hcas : Reaches i (s.setPc i (.clearOwner .tryLockSharable s.exclusiveOwner))
      (t.setPc i (.storeZero .tryLockSharable)) :=
    .step hi (by simp [advance, clearOwner, Acquire.sharable, t, State.setPc, State.setThread])
  have hstore : Reaches i (t.setPc i (.storeZero .tryLockSharable))
      (t.setPc i (.releaseDead .tryLockSharable)) :=
    .step hi (by simp [advance, t, State.setPc, State.setThread])
  let u : State n := { t with mutex := t.mutex.unlock, holder := none }
  have hrelease : Reaches i (t.setPc i (.releaseDead .tryLockSharable))
      (u.setPc i (.attempt .tryLockSharable true)) := by
    refine .step hi ?_
    simp [advance, releaseMutex, Acquire.retry, Acquire.once, u, State.setPc, State.setThread]
  have hfree : u.mutex.writer = false := by
    change s.mutex.unlock.writer = false
    rw [RwLock.unlock_of_writer hwriter]
  obtain ⟨v, hattempt, hv⟩ := inserts_of_attempt (s := u) hi hfree true
  exact ⟨v, (((((hload.trans htest).trans hclear).trans hcas).trans hstore).trans hrelease).trans
    hattempt, hv⟩

theorem callReturns_sharable_iff (hsound : s.Sound) (hi : s.Alive i)
    (hidle : (s.threads i).pc = .idle) : s.CallReturns i .tryLockSharable ↔
      (s.mutex.writer = true ∧ s.dead s.exclusiveOwner = false) ∨
        s.sharedOwners.Finds (s.threads i).pid 0 := by
  have hp := hsound.pid_ne i
  rw [callReturns_iff hi hidle]
  cases hwriter : s.mutex.writer with
  | false =>
    obtain ⟨t, hreach, ht⟩ := inserts_of_attempt hi hwriter false
    rw [returns_iff_of_reaches hreach, ht.returns_load_iff hp]
    simp
  | true =>
    rw [returns_iff_of_reaches (reaches_failed hi hwriter false)]
    cases hdead : s.dead s.exclusiveOwner with
    | true =>
      have hne : s.exclusiveOwner ≠ 0 := by
        intro heq
        rw [heq, hsound.dead_zero] at hdead
        cases hdead
      obtain ⟨t, hreach, ht⟩ := inserts_of_dead_writer hi hwriter hne hdead
      simp only [Bool.false_eq_true, if_false]
      rw [returns_iff_of_reaches hreach, ht.returns_load_iff hp]
      simp
    | false =>
      refine iff_of_true ?_ (.inl ⟨rfl, rfl⟩)
      have hretry := returns_of_retry hi hwriter
      by_cases howner : s.exclusiveOwner = 0
      · have htest : Reaches i (s.setPc i (.testOwner .tryLockSharable))
            (s.setPc i (Acquire.retry .tryLockSharable)) :=
          .move hi (by simp [advance, howner, Acquire.sharable])
        exact (returns_iff_of_reaches htest).mpr hretry
      · have hload : Reaches i (s.setPc i (.testOwner .tryLockSharable))
            (s.setPc i (.loadOwner .tryLockSharable)) := .move hi (by simp [advance, howner])
        have htest : Reaches i (s.setPc i (.loadOwner .tryLockSharable))
            (s.setPc i (.testDead .tryLockSharable s.exclusiveOwner)) :=
          .move hi (by simp [advance])
        have halive : Reaches i (s.setPc i (.testDead .tryLockSharable s.exclusiveOwner))
            (s.setPc i (Acquire.retry .tryLockSharable)) := .move hi (by simp [advance, hdead])
        exact (returns_iff_of_reaches ((hload.trans htest).trans halive)).mpr hretry

/-- Which calls a thread that runs alone comes back from, in any state that is reached. -/
theorem try_returns {pid : Fin n → Nat} (hpid : ∀ i, pid i ≠ 0) {labels : List (Label n)}
    (h : Machine.run step (new pid) labels = some s) {i : Fin n} (hi : s.Alive i) :
    ((s.threads i).pc = .idle → s.CallReturns i .tryLock) ∧
    ((s.threads i).pc = .idle → (s.CallReturns i .tryLockSharable ↔
      (s.mutex.writer = true ∧ s.dead s.exclusiveOwner = false) ∨
        s.sharedOwners.Finds (s.threads i).pid 0)) ∧
    (∀ k, (s.threads i).pc = .insertLoad k → (s.Returns i ↔
      s.sharedOwners.Finds (s.threads i).pid k ∨ s.sharedOwners.Finds (s.threads i).pid 0)) ∧
    ∀ idx, (s.threads i).pc = .insertCas idx → (s.Returns i ↔ s.sharedOwners idx = 0 ∨
      s.sharedOwners.Finds (s.threads i).pid (idx.val + 1) ∨
        s.sharedOwners.Finds (s.threads i).pid 0) := by
  have hsound : s.Sound := (Machine.Run.of_run h).invariant Sound (.new hpid)
    fun _ _ _ ht _ hs => ht.step hs
  refine ⟨fun hidle => ?_, fun hidle => callReturns_sharable_iff hsound hi hidle, fun k hpc => ?_,
    fun idx hpc => ?_⟩
  · have halive : (s.setPc i (.attempt .tryLock false)).Alive i := by rwa [Alive, pid_setPc]
    exact (callReturns_iff hi hidle _).mpr (returns_of_inTryLock halive (by simp [Pc.InTryLock]))
  · exact Inserts.returns_load_iff (hsound.pid_ne i) ⟨hi, hpc, rfl, rfl⟩
  · exact Inserts.returns_cas_iff (hsound.pid_ne i) ⟨hi, hpc, rfl, rfl⟩

theorem try_returns_beside_reader : ∃ s : State 2,
    Machine.run step (new fun i => i.val + 1)
      [.call 0 (.acquire .lockSharable), .step 0, .step 0, .step 0] = some s ∧
    (s.threads 0).shared = 1 ∧ s.CallReturns 1 .tryLock ∧ s.CallReturns 1 .tryLockSharable := by
  have hrun : (Machine.run step (new fun i : Fin 2 => i.val + 1)
      [.call 0 (.acquire .lockSharable), .step 0, .step 0, .step 0]).map (fun s =>
        ((s.threads 0).shared, s.dead (s.threads 1).pid, (s.threads 1).pc,
          decide (s.sharedOwners.Finds (s.threads 1).pid 0))) = some (1, false, .idle, true) := by
    decide +kernel
  obtain ⟨s, hs, hvals⟩ := Option.map_eq_some_iff.mp hrun
  simp only [Prod.mk.injEq, decide_eq_true_eq] at hvals
  obtain ⟨hshared, halive, hidle, hfinds⟩ := hvals
  obtain ⟨hlock, hsharable, -⟩ := try_returns (fun i => Nat.succ_ne_zero i.val) hs halive
  exact ⟨s, hs, hshared, hlock hidle, (hsharable hidle).mpr (.inr hfinds)⟩

/-- The second reader of a process waits in `try_lock_sharable` for the first one. -/
theorem try_blocks : ∃ s : State 2,
    Machine.run step (new fun _ => 1)
      [.call 0 (.acquire .lockSharable), .step 0, .step 0, .step 0] = some s ∧
    s.Alive 1 ∧ (s.threads 1).pc = .idle ∧ ¬ s.CallReturns 1 .tryLockSharable := by
  have hrun : (Machine.run step (new fun _ : Fin 2 => 1)
      [.call 0 (.acquire .lockSharable), .step 0, .step 0, .step 0]).map (fun s =>
        (s.dead (s.threads 1).pid, (s.threads 1).pc, s.mutex.writer,
          decide (s.sharedOwners.Finds (s.threads 1).pid 0))) = some (false, .idle, false, false) := by
    decide +kernel
  obtain ⟨s, hs, hvals⟩ := Option.map_eq_some_iff.mp hrun
  simp only [Prod.mk.injEq, decide_eq_false_iff_not] at hvals
  obtain ⟨halive, hidle, hwriter, hfinds⟩ := hvals
  have hsound : s.Sound := (Machine.Run.of_run hs).invariant Sound (.new fun _ => Nat.one_ne_zero)
    fun _ _ _ ht _ hs => ht.step hs
  refine ⟨s, hs, halive, hidle, ?_⟩
  rw [callReturns_sharable_iff hsound halive hidle, hwriter]
  simpa using hfinds

end State

end RobustLock

end Shadesmar.Concurrency
