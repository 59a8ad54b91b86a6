import Shadesmar.Concurrency.Recovery

namespace Shadesmar.Concurrency.RobustLock

open Library Library.Tally

namespace State

variable {n : Nat} {s s' : State n} {i : Fin n}

def Pristine (s : State n) : Prop := ∀ i, (s.threads i).acquired = false →
  (s.threads i).excl = false ∧ (s.threads i).shared = 0 ∧ (s.threads i).pc.obtained = false

theorem Pristine.setThread (h : s.Pristine) {x : Thread}
    (hthreads : s'.threads = Function.update s.threads i x)
    (hx : x.acquired = false → x.excl = false ∧ x.shared = 0 ∧ x.pc.obtained = false) :
    s'.Pristine := by
  intro j hj
  rw [hthreads] at hj ⊢
  by_cases hji : j = i
  · rw [hji, Function.update_self] at hj ⊢
    exact hx hj
  · rw [Function.update_of_ne hji] at hj ⊢
    exact h j hj

theorem Pristine.effect (h : s.Pristine) (heff : Effect s i s') : s'.Pristine := by
  have hi := h i
  cases heff with
  | move _ _ hobtained _ =>
    refine h.setThread rfl fun hx => ?_
    obtain ⟨hexcl, hshared, hpc⟩ := hi hx
    refine ⟨hexcl, hshared, ?_⟩
    by_contra hne
    rw [hobtained (by simpa using hne)] at hpc
    cases hpc
  | acquire _ _ => exact h.setThread rfl nofun
  | acquireSharable _ _ => exact h.setThread rfl nofun
  | record hpc =>
    refine h.setThread rfl fun hx => ?_
    have hpristine := (hi hx).2.2
    rw [hpc] at hpristine
    cases hpristine
  | clearOwner _ _ hplace =>
    refine h.setThread rfl fun hx => ⟨(hi hx).1, (hi hx).2.1, ?_⟩
    obtain ⟨op, rfl | rfl⟩ := hplace <;> rfl
  | storeZero _ => exact h.setThread rfl fun hx => ⟨(hi hx).1, (hi hx).2.1, rfl⟩
  | unlockOwner _ _ => exact h.setThread rfl fun hx => ⟨rfl, (hi hx).2.1, rfl⟩
  | keepOwner _ _ => exact h.setThread rfl fun hx => ⟨rfl, (hi hx).2.1, rfl⟩
  | releaseMutex _ hplace _ =>
    exact h.setThread rfl fun hx => ⟨(hi hx).1, (hi hx).2.1, hplace.obtained⟩
  | insert hpc _ =>
    refine h.setThread rfl fun hx => ?_
    have hpristine := (hi hx).2.2
    rw [hpc] at hpristine
    cases hpristine
  | erase _ _ =>
    refine h.setThread rfl fun hx => ⟨(hi hx).1, ?_, rfl⟩
    show (s.threads i).shared - 1 = 0
    rw [(hi hx).2.1]
  | takeOver hpc hcell _ =>
    simp only [removeCas, if_pos hcell]
    exact h.setThread rfl fun hx => ⟨(hi hx).1, (hi hx).2.1, rfl⟩
  | keepCell _ =>
    refine h.setThread rfl fun hx => ⟨(hi hx).1, ?_, rfl⟩
    show (s.threads i).shared - 1 = 0
    rw [(hi hx).2.1]
  | @releaseReader caller _ =>
    exact h.setThread rfl fun hx => ⟨(hi hx).1, (hi hx).2.1, caller.next_neutral.obtained⟩

theorem Pristine.step {l : Label n} (h : s.Pristine) (hsound : s.Sound)
    (hs : s.step l = some s') : s'.Pristine := by
  cases l with
  | call i c => exact h.effect (effect_of_call hs).2
  | step i => exact h.effect (hsound.effect_of_step hs).2
  | die i =>
    obtain rfl := Option.some.inj hs
    exact h

def forget (gone : Fin n → Bool) (s : State n) : State n :=
  { s with threads := fun i =>
      if gone i then ⟨(s.threads i).pid, .idle, false, 0, false⟩ else s.threads i }

section Forget

variable {gone : Fin n → Bool}

theorem forget_threads (hi : gone i = false) : (s.forget gone).threads i = s.threads i :=
  if_neg (by simp [hi])

theorem forget_pid (s : State n) (i : Fin n) :
    ((s.forget gone).threads i).pid = (s.threads i).pid := by
  unfold forget
  dsimp only
  split_ifs <;> rfl

theorem forget_setThread (hi : gone i = false) (x : Thread) :
    (s.setThread i x).forget gone = (s.forget gone).setThread i x := by
  unfold forget setThread
  congr 1
  funext j
  by_cases hji : j = i
  · simp [hji, hi]
  · simp [hji]

theorem Effect.forget (hi : gone i = false) (h : Effect s i s') :
    Effect (s.forget gone) i (s'.forget gone) := by
  have hti : (s.forget gone).threads i = s.threads i := forget_threads hi
  cases h with
  | move hexcl hshr hobtained hknows =>
    rw [setPc, forget_setThread hi, ← hti]
    rw [← hti] at hexcl hshr hobtained hknows
    exact .move hexcl hshr hobtained hknows
  | acquire hpc hlock =>
    rw [forget_setThread hi]
    rw [← hti] at hpc ⊢
    exact .acquire hpc hlock
  | acquireSharable hpc hlock =>
    rw [forget_setThread hi]
    rw [← hti] at hpc ⊢
    exact .acquireSharable hpc hlock
  | record hpc =>
    rw [forget_setThread hi]
    rw [← hti] at hpc ⊢
    exact .record hpc
  | clearOwner hpc hdead hplace =>
    rw [setPc, forget_setThread hi]
    show Effect _ i ({ s.forget gone with
      exclusiveOwner := 0, holder := some (s.threads i).pid }.setThread i _)
    rw [← hti] at hpc ⊢
    exact .clearOwner hpc hdead hplace
  | storeZero hpc =>
    rw [setPc, forget_setThread hi]
    show Effect _ i ({ s.forget gone with exclusiveOwner := 0 }.setThread i _)
    rw [← hti] at hpc ⊢
    exact .storeZero hpc
  | unlockOwner hpc howner =>
    rw [forget_setThread hi]
    rw [← hti] at hpc howner ⊢
    exact .unlockOwner hpc howner
  | keepOwner hpc howner =>
    rw [forget_setThread hi]
    rw [← hti] at hpc howner ⊢
    exact .keepOwner hpc howner
  | releaseMutex hpc hplace hknows =>
    rw [State.releaseMutex, setPc, forget_setThread hi]
    show Effect _ i ({ s.forget gone with mutex := s.mutex.unlock, holder := none }.setThread i _)
    rw [← hti] at hpc hknows ⊢
    exact .releaseMutex hpc hplace hknows
  | insert hpc hcell =>
    rw [forget_setThread hi]
    rw [← hti] at hpc ⊢
    exact .insert hpc hcell
  | erase hpc hcell =>
    rw [forget_setThread hi]
    rw [← hti] at hpc hcell ⊢
    exact .erase hpc hcell
  | @takeOver op k sharedOwner idx hpc hcell hdead =>
    have hforget : (s.removeCas i (.pruning op k sharedOwner) idx).forget gone =
        (s.forget gone).removeCas i (.pruning op k sharedOwner) idx := by
      have hcell' : (s.forget gone).sharedOwners idx = sharedOwner := hcell
      simp only [removeCas, if_pos hcell, if_pos hcell', setPc, forget_setThread hi, ← hti]
      rfl
    rw [hforget]
    rw [← hti] at hpc
    exact .takeOver hpc hcell hdead
  | keepCell hpc =>
    rw [forget_setThread hi]
    rw [← hti] at hpc ⊢
    exact .keepCell hpc
  | @releaseReader caller hpc =>
    have hforget : (s.releaseReader i caller).forget gone =
        (s.forget gone).releaseReader i caller := by
      simp only [State.releaseReader, setPc, forget_setThread hi, ← hti]
      rfl
    rw [hforget]
    rw [← hti] at hpc
    exact .releaseReader hpc

theorem Sound.forget_step {l : Label n} (h : (s.forget gone).Sound)
    (hgone : ∀ i, gone i = true → ¬ s.Alive i) (hs : s.step l = some s') :
    (s'.forget gone).Sound ∧ ∀ i, gone i = true → ¬ s'.Alive i := by
  have hstays : ∀ i, s.Alive i → gone i = false := by
    intro i hi
    by_contra hgi
    exact hgone i (by simpa using hgi) hi
  have heffect : ∀ i, s.Alive i → Effect s i s' →
      (s'.forget gone).Sound ∧ ∀ i, gone i = true → ¬ s'.Alive i := by
    intro i hi heff
    have hgi := hstays i hi
    obtain ⟨hdead, x, hthreads, hpid, -⟩ := heff.thread
    refine ⟨h.effect (by rwa [Alive, forget_pid]) (heff.forget hgi), fun j hgj => ?_⟩
    have hji : j ≠ i := by
      rintro rfl
      rw [hgi] at hgj
      cases hgj
    rw [Alive, hdead, hthreads, Function.update_of_ne hji]
    exact hgone j hgj
  cases l with
  | call i c =>
    obtain ⟨hi, heff⟩ := effect_of_call hs
    exact heffect i hi heff
  | step i =>
    simp only [State.step] at hs
    split_ifs at hs with hi
    have hknows := h.knows i (by rwa [Alive, forget_pid])
    rw [forget_threads (hstays i hi)] at hknows
    exact heffect i hi (effect_of_advance hknows hs)
  | die i =>
    obtain rfl := Option.some.inj hs
    have hdie := h.die i
    rw [forget_pid] at hdie
    refine ⟨hdie, fun j hgj hj => hgone j hgj ?_⟩
    by_contra hdead
    rw [Alive, Bool.not_eq_false] at hdead
    rw [Alive] at hj
    dsimp only at hj
    by_cases hpid : (s.threads j).pid = (s.threads i).pid
    · rw [hpid, Function.update_self] at hj
      cases hj
    · rw [Function.update_of_ne hpid, hdead] at hj
      cases hj

theorem Exclusive.of_forget (h : (s.forget gone).Exclusive)
    (hgone : ∀ i, gone i = true → ¬ s.Alive i) : s.Exclusive := by
  have halive : ∀ i, s.Alive i →
      (s.forget gone).Alive i ∧ (s.forget gone).threads i = s.threads i := by
    intro i hi
    refine ⟨by rwa [Alive, forget_pid], forget_threads ?_⟩
    by_contra hgi
    exact hgone i (by simpa using hgi) hi
  constructor
  · intro i j hi hj hix hjx
    obtain ⟨hi, hti⟩ := halive i hi
    obtain ⟨hj, htj⟩ := halive j hj
    exact h.exclusive i j hi hj (hti ▸ hix) (htj ▸ hjx)
  · intro i j hi hj hix hjs
    obtain ⟨hi, hti⟩ := halive i hi
    obtain ⟨hj, htj⟩ := halive j hj
    exact h.shared i j hi hj (hti ▸ hix) (htj ▸ hjs)

end Forget

def AcquirersDead (s : State n) : Prop := ∀ i, (s.threads i).acquired = true → ¬ s.Alive i

instance (s : State n) : Decidable s.AcquirersDead :=
  inferInstanceAs (Decidable (∀ i, (s.threads i).acquired = true → ¬ s.Alive i))

theorem AcquirersDead.not_acquired (h : s.AcquirersDead) (hi : s.Alive i) :
    (s.threads i).acquired = false := by
  by_contra hacq
  exact h i (by simpa using hacq) hi

/-- Nothing is recorded, and nobody alive is about to release the hold of a dead process. -/
structure Clean (s : State n) : Prop where
  owner : s.exclusiveOwner = 0
  cells : s.sharedOwners = .empty
  neutral : ∀ i, s.Alive i → (s.threads i).pc.Neutral

def ResetExcludes (foreign : RwLock → RwLock) (s : State n) : Prop :=
  ∀ (labels : List (Label n)) (u : State n),
    Machine.run (stepOn foreign) s.reset labels = some u → u.Exclusive

theorem Clean.sound (h : s.Clean) (hsound : s.Sound) (hpristine : s.Pristine)
    (hdead : s.AcquirersDead) :
    ((s.reset).forget fun i => decide (¬ s.Alive i)).Sound := by
  let t := (s.reset).forget fun i => decide (¬ s.Alive i)
  have hgone : ∀ i, ¬ s.Alive i → t.threads i = ⟨(s.threads i).pid, .idle, false, 0, false⟩ :=
    fun i hi => if_pos (by simpa using hi)
  have hlive : ∀ i, s.Alive i → t.threads i = s.threads i :=
    fun i hi => forget_threads (by simpa using hi)
  have hfresh : ∀ i, (t.threads i).pc.Neutral ∧ (t.threads i).excl = false ∧
      (t.threads i).shared = 0 := by
    intro i
    by_cases hi : s.Alive i
    · rw [hlive i hi]
      obtain ⟨hexcl, hshared, -⟩ := hpristine i (hdead.not_acquired hi)
      exact ⟨h.neutral i hi, hexcl, hshared⟩
    · rw [hgone i hi]
      exact ⟨⟨rfl, rfl⟩, rfl, rfl⟩
  have hzero : ∀ w : Thread → Nat, (∀ i, w (t.threads i) = 0) → total w t.threads = 0 :=
    fun w hw => total_eq_zero.mpr hw
  refine ⟨⟨nofun, ?_, ?_⟩, ⟨?_, ?_⟩, ?_, hsound.dead_zero, ?_, ?_⟩
  · show (if s.exclusiveOwner = 0 then 0 else 1) + total Thread.exclusive t.threads = 0
    rw [if_pos h.owner, hzero]
    intro i
    rw [Thread.exclusive, (hfresh i).1.exclusive]
    rfl
  · show 0 = s.sharedOwners.occupied + total Thread.sharable t.threads
    rw [h.cells, LocklessSet.occupied_empty, hzero]
    intro i
    rw [Thread.sharable, (hfresh i).1.sharable]
    rfl
  · intro i _ hexcl
    rw [(hfresh i).2.1] at hexcl
    cases hexcl
  · intro i j _ _ hexcl
    rw [(hfresh i).2.1] at hexcl
    cases hexcl
  · intro i
    rw [forget_pid]
    exact hsound.pid_ne i
  · intro i hi
    rw [Alive, forget_pid] at hi
    rw [hlive i hi]
    exact hsound.knows i hi
  · intro p _ _
    have hnone : total (Thread.sharedOf p) t.threads = 0 := by
      refine hzero _ fun i => ?_
      rw [Thread.sharedOf, (hfresh i).2.2, ite_self]
    exact hnone.trans_le (Nat.zero_le _)

theorem Clean.resetExcludes (h : s.Clean) (hsound : s.Sound) (hpristine : s.Pristine)
    (hdead : s.AcquirersDead) : s.ResetExcludes .unlock := by
  intro labels u hrun
  rw [stepOn_unlock] at hrun
  obtain ⟨hu, hgone⟩ := (Machine.Run.of_run hrun).invariant
    (fun u => (u.forget fun i => decide (¬ s.Alive i)).Sound ∧
      ∀ i, decide (¬ s.Alive i) = true → ¬ u.Alive i)
    ⟨h.sound hsound hpristine hdead, fun i hi => of_decide_eq_true hi⟩
    fun _ _ _ ht _ hs => ht.1.forget_step ht.2 hs
  exact hu.exclusive.of_forget hgone

def Named (s : State n) : Prop := ∀ p, p ≠ 0 →
  (s.exclusiveOwner = p ∨ ∃ idx, s.sharedOwners idx = p) →
  ∃ i, (s.threads i).pid = p ∧ (s.threads i).acquired = true

namespace Named

variable {x : Thread}

theorem setThread (h : s.Named) (hthreads : s'.threads = Function.update s.threads i x)
    (hpid : x.pid = (s.threads i).pid) (hacq : (s.threads i).acquired = true → x.acquired = true)
    (howner : s'.exclusiveOwner = s.exclusiveOwner ∨ s'.exclusiveOwner = 0 ∨
      s'.exclusiveOwner = (s.threads i).pid ∧ x.acquired = true)
    (hcells : ∀ idx, s'.sharedOwners idx = s.sharedOwners idx ∨ s'.sharedOwners idx = 0 ∨
      s'.sharedOwners idx = (s.threads i).pid ∧ x.acquired = true) : s'.Named := by
  have hold : ∀ p, (∃ j, (s.threads j).pid = p ∧ (s.threads j).acquired = true) →
      ∃ j, (s'.threads j).pid = p ∧ (s'.threads j).acquired = true := by
    rintro p ⟨j, hj, hjacq⟩
    refine ⟨j, ?_⟩
    rw [hthreads]
    by_cases hji : j = i
    · subst hji
      rw [Function.update_self]
      exact ⟨hpid.trans hj, hacq hjacq⟩
    · rw [Function.update_of_ne hji]
      exact ⟨hj, hjacq⟩
  have hnew : ∀ p, (s.threads i).pid = p ∧ x.acquired = true →
      ∃ j, (s'.threads j).pid = p ∧ (s'.threads j).acquired = true := by
    rintro p ⟨hp, hx⟩
    refine ⟨i, ?_⟩
    rw [hthreads, Function.update_self]
    exact ⟨hpid.trans hp, hx⟩
  rintro p hp (hrecord | ⟨idx, hrecord⟩)
  · rcases howner with heq | hzero | ⟨heq, hx⟩
    · exact hold p (h p hp (.inl (heq.symm.trans hrecord)))
    · exact absurd (hrecord.symm.trans hzero) hp
    · exact hnew p ⟨heq.symm.trans hrecord, hx⟩
  · rcases hcells idx with heq | hzero | ⟨heq, hx⟩
    · exact hold p (h p hp (.inr ⟨idx, heq.symm.trans hrecord⟩))
    · exact absurd (hrecord.symm.trans hzero) hp
    · exact hnew p ⟨heq.symm.trans hrecord, hx⟩

theorem keep (h : s.Named) (hthreads : s'.threads = Function.update s.threads i x)
    (hpid : x.pid = (s.threads i).pid) (hacq : (s.threads i).acquired = true → x.acquired = true)
    (howner : s'.exclusiveOwner = s.exclusiveOwner ∨ s'.exclusiveOwner = 0)
    (hcells : s'.sharedOwners = s.sharedOwners ∨
      ∃ idx, s'.sharedOwners = s.sharedOwners.store idx 0) : s'.Named := by
  refine h.setThread hthreads hpid hacq (howner.imp_right .inl) fun j => ?_
  rcases hcells with heq | ⟨idx, heq⟩
  · exact .inl (congrFun heq j)
  · rw [heq]
    exact (s.sharedOwners.erase_cases idx j).imp_right .inl

theorem effect (h : s.Named) (hpristine : s.Pristine) (heff : Effect s i s') : s'.Named := by
  have hacquired : (s.threads i).pc.obtained = true → (s.threads i).acquired = true := by
    intro hobtained
    by_contra hacq
    rw [(hpristine i (by simpa using hacq)).2.2] at hobtained
    cases hobtained
  cases heff with
  | record hpc =>
    exact h.setThread rfl rfl (fun hacq => hacq)
      (.inr (.inr ⟨rfl, hacquired (by rw [hpc]; rfl)⟩)) fun _ => .inl rfl
  | @insert idx hpc _ =>
    refine h.setThread rfl rfl (fun hacq => hacq) (.inl rfl) fun j => ?_
    by_cases hj : j = idx
    · rw [hj]
      exact .inr (.inr ⟨LocklessSet.store_self .., hacquired (by rw [hpc]; rfl)⟩)
    · exact .inl (LocklessSet.store_of_ne hj)
  | erase _ _ => exact h.keep rfl rfl (fun hacq => hacq) (.inl rfl) (.inr ⟨_, rfl⟩)
  | takeOver _ hcell _ =>
    simp only [removeCas, if_pos hcell]
    exact h.keep rfl rfl (fun hacq => hacq) (.inl rfl) (.inr ⟨_, rfl⟩)
  | acquire _ _ | acquireSharable _ _ => exact h.keep rfl rfl (fun _ => rfl) (.inl rfl) (.inl rfl)
  | clearOwner _ _ _ | storeZero _ | unlockOwner _ _ =>
    exact h.keep rfl rfl (fun hacq => hacq) (.inr rfl) (.inl rfl)
  | move _ _ _ _ | keepOwner _ _ | releaseMutex _ _ _ | keepCell _ | releaseReader _ =>
    exact h.keep rfl rfl (fun hacq => hacq) (.inl rfl) (.inl rfl)

theorem step {l : Label n} (h : s.Named) (hpristine : s.Pristine) (hsound : s.Sound)
    (hs : s.step l = some s') : s'.Named := by
  cases l with
  | call i c => exact h.effect hpristine (effect_of_call hs).2
  | step i => exact h.effect hpristine (hsound.effect_of_step hs).2
  | die i =>
    obtain rfl := Option.some.inj hs
    exact h

theorem dead (h : s.Named) (hdead : s.AcquirersDead) {p : Nat} (hp : p ≠ 0)
    (hrecord : s.exclusiveOwner = p ∨ ∃ idx, s.sharedOwners idx = p) : s.dead p = true := by
  obtain ⟨i, rfl, hacq⟩ := h p hp hrecord
  simpa [Alive] using hdead i hacq

end Named

theorem Reaches.frame {t : State n} (h : Reaches i s t) (hknows : (s.threads i).Knows s.dead) :
    t.dead = s.dead ∧ ∀ j, j ≠ i → t.threads j = s.threads j := by
  obtain ⟨k, hk⟩ := h
  induction k generalizing s with
  | zero =>
    obtain rfl := Option.some.inj hk
    exact ⟨rfl, fun _ _ => rfl⟩
  | succ k ih =>
    rw [List.replicate_succ] at hk
    obtain ⟨v, hv, hk⟩ := Option.bind_eq_some_iff.mp hk
    simp only [State.step] at hv
    split_ifs at hv with hi
    obtain ⟨hdead, x, hthreads, -, hx⟩ := (effect_of_advance hknows hv).thread
    have hvi : (v.threads i).Knows v.dead := by
      rw [hthreads, Function.update_self, hdead]
      exact hx
    obtain ⟨hdead', hrest⟩ := ih hvi hk
    refine ⟨hdead'.trans hdead, fun j hj => (hrest j hj).trans ?_⟩
    rw [hthreads, Function.update_of_ne hj]

structure Raced (s t : State n) (a c : Fin n) : Prop where
  reached : ∃ labels, Machine.run State.step s.reset labels = some t
  record : t.Alive a ∧ (t.threads a).pc = .record
  idle : t.Alive c ∧ (t.threads c).pc = .idle

namespace Raced

variable {t u : State n} {a c : Fin n}

theorem acquire (ha : s.Alive a) (hidle : (s.threads a).pc = .idle) (hc : s.Alive c)
    (hcidle : (s.threads c).pc = .idle) (hac : a ≠ c) : ∃ t, Raced s t a c ∧ t.mutex = ⟨true, 0⟩ ∧
      t.exclusiveOwner = s.exclusiveOwner ∧ t.sharedOwners = s.sharedOwners ∧ t.dead = s.dead ∧
      ∀ j, j ≠ a → t.threads j = s.threads j := by
  have hcall : s.reset.step (.call a (.acquire .lock)) =
      some (s.reset.setPc a (.attempt .lock false)) := if_pos ⟨ha, hidle, trivial⟩
  have hfree : s.reset.mutex = .free := rfl
  have hlock : Acquire.lock.sharable = false := rfl
  have hattempt : (s.reset.setPc a (.attempt .lock false)).step (.step a) = _ :=
    step_attempt ha hfree hlock
  have hrest : ∀ x : Thread, ∀ j, j ≠ a → Function.update s.threads a x j = s.threads j :=
    fun x j hj => Function.update_of_ne hj _ _
  refine ⟨_, ⟨⟨_, (Machine.run_cons _ hcall).trans (Machine.run_cons [] hattempt)⟩, ?_, ?_⟩,
    rfl, rfl, rfl, rfl, fun j hj => hrest _ j hj⟩
  · simpa [Alive, setThread, reset] using ha
  · simpa [Alive, setThread, reset, hac.symm] using And.intro hc hcidle

theorem call {i : Fin n} (h : Raced s t a c) (hi : t.Alive i) (hidle : (t.threads i).pc = .idle)
    (hia : i ≠ a) (hic : i ≠ c) : Raced s (t.setPc i (.attempt .lock false)) a c := by
  obtain ⟨labels, hrun⟩ := h.reached
  have hcall : t.step (.call i (.acquire .lock)) = some (t.setPc i (.attempt .lock false)) :=
    if_pos ⟨hi, hidle, trivial⟩
  refine ⟨⟨labels ++ [.call i (.acquire .lock)], ?_⟩, ?_, ?_⟩
  · rw [Machine.run_append, hrun]
    exact Machine.run_cons [] hcall
  · simpa [Alive, setPc, setThread, hia.symm] using h.record
  · simpa [Alive, setPc, setThread, hic.symm] using h.idle

theorem reaches {i : Fin n} (h : Raced s t a c) (hreach : Reaches i t u)
    (hknows : (t.threads i).Knows t.dead) (hia : i ≠ a) (hic : i ≠ c) : Raced s u a c := by
  obtain ⟨hdead, hrest⟩ := hreach.frame hknows
  obtain ⟨labels, hrun⟩ := h.reached
  obtain ⟨k, hk⟩ := hreach
  refine ⟨⟨labels ++ List.replicate k (.step i), ?_⟩, ?_, ?_⟩
  · rw [Machine.run_append, hrun]
    exact hk
  · rw [Alive, hdead, hrest a hia.symm]
    exact h.record
  · rw [Alive, hdead, hrest c hic.symm]
    exact h.idle

theorem not_excludes (h : Raced s t a c) (hac : a ≠ c) (hfree : t.mutex = .free) :
    ¬ s.ResetExcludes .unlock := by
  intro hexcludes
  unfold ResetExcludes at hexcludes
  rw [stepOn_unlock] at hexcludes
  obtain ⟨labels, hrun⟩ := h.reached
  obtain ⟨hc, hidle⟩ := h.idle
  have hcall : t.step (.call c (.acquire .lock)) = some (t.setPc c (.attempt .lock false)) :=
    if_pos ⟨hc, hidle, trivial⟩
  have hlock : Acquire.lock.sharable = false := rfl
  have hattempt : (t.setPc c (.attempt .lock false)).step (.step c) = _ :=
    step_attempt hc hfree hlock
  have hexclusive := hexcludes (labels ++ [.call c (.acquire .lock), .step c]) _ (by
    rw [Machine.run_append, hrun]
    exact (Machine.run_cons _ hcall).trans (Machine.run_cons [] hattempt))
  refine hac (hexclusive.exclusive a c ?_ ?_ (.inr (.inl ?_)) (.inr (.inl ?_)))
  · simpa [Alive, setThread, hac] using h.record.1
  · simpa [Alive, setThread] using hc
  · simpa [setThread, hac] using h.record.2
  · simp [setThread]

end Raced

section Unclean

variable {t : State n} {a b c : Fin n}

/-- A thread that has taken over the hold of a dead process releases whatever hold there is. -/
theorem reaches_release (hi : t.Alive i) (hheld : t.mutex = ⟨true, 0⟩)
    (hobtained : (t.threads i).pc.obtained = false) (hpc : ¬ (t.threads i).pc.Neutral) :
    ∃ u, Reaches i t u ∧ u.mutex = .free := by
  have hunlock : t.mutex.unlock = .free := by
    rw [hheld]
    rfl
  cases hplace : (t.threads i).pc with
  | storeZero op =>
    let v : State n := { t with exclusiveOwner := 0 }
    have hstore : Reaches i t (v.setPc i (.releaseDead op)) :=
      .of_advance hi (by simp [advance, hplace, v])
    have hrelease : Reaches i (v.setPc i (.releaseDead op))
        ((v.setPc i (.releaseDead op)).releaseMutex i op.retry) := .step hi (by simp [advance])
    exact ⟨_, hstore.trans hrelease, hunlock⟩
  | releaseDead op =>
    have hrelease : t.advance i = some (t.releaseMutex i op.retry) := by simp only [advance, hplace]
    exact ⟨_, .of_advance hi hrelease, hunlock⟩
  | unlockMutex =>
    have hrelease : t.advance i = some (t.releaseMutex i .idle) := by simp only [advance, hplace]
    exact ⟨_, .of_advance hi hrelease, hunlock⟩
  | releaseReader caller =>
    have hrelease : t.advance i = some (t.releaseReader i caller) := by simp only [advance, hplace]
    exact ⟨_, .of_advance hi hrelease, hunlock⟩
  | record | insertLoad idx | insertCas idx =>
    rw [hplace] at hobtained
    cases hobtained
  | _ =>
    rw [hplace] at hpc
    exact absurd ⟨rfl, rfl⟩ hpc

theorem reaches_prune {k : Nat} (hi : t.Alive i) (hk : k ≤ 8)
    (hbelow : ∀ idx : Fin 8, idx.val < k → t.sharedOwners idx = 0) :
    Reaches i (t.setPc i (.prune .lock 0)) (t.setPc i (.prune .lock k)) := by
  induction k with
  | zero => exact .refl _
  | succ k ih =>
    have hcell := hbelow ⟨k, hk⟩ (Nat.lt_succ_self k)
    refine (ih (Nat.le_of_succ_le hk) fun idx hidx => hbelow idx (by omega)).trans (.move hi ?_)
    simp [advance, show k < 8 from hk, hcell]

theorem reaches_recovered (hi : t.Alive i) (hheld : t.mutex = ⟨true, 0⟩)
    (hdead : ∀ p, p ≠ 0 → (t.exclusiveOwner = p ∨ ∃ idx, t.sharedOwners idx = p) → t.dead p = true)
    (hrecord : t.exclusiveOwner ≠ 0 ∨ t.sharedOwners ≠ .empty) :
    ∃ u, Reaches i (t.setPc i (.attempt .lock false)) u ∧ u.mutex = .free := by
  have hattempt := Reaches.attempt hi (show t.mutex ≠ .free by rw [hheld]; nofun)
  by_cases howner : t.exclusiveOwner = 0
  · have htest : Reaches i (t.setPc i (.testOwner .lock)) (t.setPc i (.prune .lock 0)) :=
      .move hi (by simp [advance, howner, Acquire.sharable])
    -- the first cell that is not 0
    have hsome : ∃ k, ∃ hk : k < 8, t.sharedOwners ⟨k, hk⟩ ≠ 0 := by
      by_contra hnone
      refine hrecord.elim (absurd howner) fun hcells => hcells (funext fun idx => ?_)
      by_contra hidx
      exact hnone ⟨idx.val, idx.isLt, hidx⟩
    obtain ⟨hk, hcell⟩ := Nat.find_spec hsome
    have hbelow : ∀ idx : Fin 8, idx.val < Nat.find hsome → t.sharedOwners idx = 0 := by
      intro idx hidx
      by_contra hne
      exact Nat.find_min hsome hidx ⟨idx.isLt, hne⟩
    obtain ⟨readersOf, hremoved⟩ :=
      reaches_removed hi hk hbelow hcell (hdead _ hcell (.inr ⟨_, rfl⟩))
    refine ⟨_, ((hattempt.trans htest).trans (reaches_prune hi hk.le hbelow)).trans hremoved, ?_⟩
    show t.mutex.unlock = .free
    rw [hheld]
    rfl
  · obtain ⟨u, hfree, -, hreach⟩ := reaches_of_writer hi howner (hdead _ howner (.inl rfl))
      (by rw [hheld]) (by rw [hheld])
    exact ⟨_, hattempt.trans hreach, hfree⟩

def ThreeIdle (s : State n) : Prop := ∃ a b c, a ≠ b ∧ a ≠ c ∧ b ≠ c ∧
  ∀ i ∈ [a, b, c], s.Alive i ∧ (s.threads i).pc = .idle

theorem clean_of_resetExcludes (hsound : s.Sound) (hpristine : s.Pristine) (hnamed : s.Named)
    (hdead : s.AcquirersDead) (hidle : s.ThreeIdle)
    (h : s.ResetExcludes .unlock) : s.Clean := by
  obtain ⟨a, b, c, hab, hac, hbc, hall⟩ := hidle
  obtain ⟨ha, haidle⟩ := hall a (by simp)
  obtain ⟨hb, hbidle⟩ := hall b (by simp)
  obtain ⟨hc, hcidle⟩ := hall c (by simp)
  obtain ⟨t, hraced, hheld, howner, hcells, hdeads, hrest⟩ :=
    Raced.acquire ha haidle hc hcidle hac
  have hbt : t.Alive b ∧ (t.threads b).pc = .idle := by
    rw [Alive, hdeads, hrest b hab.symm]
    exact ⟨hb, hbidle⟩
  have hrecords : s.exclusiveOwner = 0 ∧ s.sharedOwners = .empty := by
    by_contra hrecord
    obtain ⟨u, hreach, hfree⟩ := reaches_recovered hbt.1 hheld
      (by rw [howner, hcells, hdeads]; exact fun p hp => hnamed.dead hdead hp)
      (by rw [howner, hcells]; exact not_and_or.mp hrecord)
    have hcalled := hraced.call hbt.1 hbt.2 hab.symm hbc
    have hknows : ((t.setPc b (.attempt .lock false)).threads b).Knows t.dead := by
      rw [threads_setPc]
      trivial
    exact (hcalled.reaches hreach hknows hab.symm hbc).not_excludes hac hfree h
  refine ⟨hrecords.1, hrecords.2, fun i hi => ?_⟩
  by_contra hneutral
  have hia : i ≠ a := by
    rintro rfl
    exact hneutral (haidle ▸ ⟨rfl, rfl⟩)
  have hic : i ≠ c := by
    rintro rfl
    exact hneutral (hcidle ▸ ⟨rfl, rfl⟩)
  have hobtained := (hpristine i (hdead.not_acquired hi)).2.2
  have hti := hrest i hia
  obtain ⟨u, hreach, hfree⟩ := reaches_release (by rwa [Alive, hdeads, hti]) hheld
    (by rwa [hti]) (by rwa [hti])
  have hknows : (t.threads i).Knows t.dead := by
    rw [hti, hdeads]
    exact hsound.knows i hi
  exact (hraced.reaches hreach hknows hia hic).not_excludes hac hfree h

end Unclean

/-- When everyone who has had the lock is dead, `reset` restores the lock exactly when nothing
is recorded and nobody alive is about to release the hold of a dead process. -/
theorem resetExcludes_iff_clean {foreign : RwLock → RwLock}
    (hforeign : RwLock.ReleasesAny foreign) {pid : Fin n → Nat} (hpid : ∀ i, pid i ≠ 0)
    {labels : List (Label n)} (h : Machine.run (stepOn foreign) (new pid) labels = some s)
    (hdead : s.AcquirersDead) :
    (s.Clean → s.ResetExcludes foreign) ∧ (s.ThreeIdle → s.ResetExcludes foreign → s.Clean) := by
  obtain rfl : foreign = RwLock.unlock := funext hforeign
  rw [stepOn_unlock] at h
  obtain ⟨hsound, hpristine, hnamed⟩ := (Machine.Run.of_run h).invariant
    (fun s => s.Sound ∧ s.Pristine ∧ s.Named)
    ⟨.new hpid, fun _ _ => ⟨rfl, rfl, rfl⟩, fun p hp hrecord => by
      rcases hrecord with hzero | ⟨idx, hzero⟩ <;> exact absurd hzero.symm hp⟩
    fun _ _ _ ht _ hs =>
      ⟨ht.1.step hs, ht.2.1.step ht.1 hs, ht.2.2.step ht.2.1 ht.1 hs⟩
  exact ⟨fun hclean => hclean.resetExcludes hsound hpristine hdead,
    clean_of_resetExcludes hsound hpristine hnamed hdead⟩

theorem resetExcludes_after_unlock : ∃ s : State 3,
    Machine.run (stepOn .unlock) (new fun i => i.val + 1) [.call 0 (.acquire .lock), .step 0,
      .step 0, .call 0 .unlock, .step 0, .step 0, .die 0] = some s ∧ s.AcquirersDead ∧
    (s.Clean → s.ResetExcludes .unlock) ∧ (s.ThreeIdle → s.ResetExcludes .unlock → s.Clean) := by
  have hrun : (Machine.run (stepOn .unlock) (new fun i : Fin 3 => i.val + 1)
      [.call 0 (.acquire .lock), .step 0, .step 0, .call 0 .unlock, .step 0, .step 0, .die 0]).map
      (fun s => decide s.AcquirersDead) = some true := by
    decide +kernel
  obtain ⟨s, hs, hvals⟩ := Option.map_eq_some_iff.mp hrun
  have hdead : s.AcquirersDead := of_decide_eq_true hvals
  exact ⟨s, hs, hdead,
    resetExcludes_iff_clean (fun _ => rfl) (fun i => Nat.succ_ne_zero i.val) hs hdead⟩

/-- Thread 1 gets the lock shared, and thread 2, which finds the cell of the dead reader, gives
that hold back. -/
def staleReaderLabels : List (Label 3) :=
  .call 1 (.acquire .lockSharable) :: List.replicate 4 (.step 1) ++
    .call 2 (.acquire .lock) :: List.replicate 18 (.step 2)

/-- A reader and a writer have the lock after the reset that followed the death of a reader. -/
theorem stale_reader : ∃ s u : State 3,
    Machine.run (stepOn .unlockShared) (new fun i => i.val + 1)
      [.call 0 (.acquire .lockSharable), .step 0, .step 0, .step 0, .die 0] = some s ∧
    s.AcquirersDead ∧
    Machine.run (stepOn .unlockShared) s.reset staleReaderLabels = some u ∧ ¬ u.Exclusive := by
  have hrun : (Machine.run (stepOn .unlockShared) (new fun i : Fin 3 => i.val + 1)
      [.call 0 (.acquire .lockSharable), .step 0, .step 0, .step 0, .die 0]).map
      (fun s => (decide s.AcquirersDead,
        (Machine.run (stepOn .unlockShared) s.reset staleReaderLabels).map fun u =>
          (decide (u.Alive 1 ∧ u.Alive 2), (u.threads 1).shared, (u.threads 2).excl))) =
      some (true, some (true, 1, true)) := by
    decide +kernel
  obtain ⟨s, hs, hvals⟩ := Option.map_eq_some_iff.mp hrun
  obtain ⟨hdead, hafter⟩ := Prod.mk.inj hvals
  obtain ⟨u, hu, hvals⟩ := Option.map_eq_some_iff.mp hafter
  simp only [Prod.mk.injEq, decide_eq_true_eq] at hvals
  obtain ⟨⟨h1, h2⟩, hshared, hexcl⟩ := hvals
  refine ⟨s, u, hs, of_decide_eq_true hdead, hu, fun hexclusive => ?_⟩
  exact hexclusive.shared 2 1 h2 h1 (.inl hexcl) (.inl (by omega))

end State

end Shadesmar.Concurrency.RobustLock
