import Shadesmar.Library.Renaming
import Shadesmar.PubSub.Attaching

namespace Shadesmar.PubSub.Attaching

open Library Library.Renaming Shadesmar.Concurrency

def Pc.inserting : Pc → Option Nat
  | .insertLoad idx => some idx
  | .insertCas idx => some idx.val
  | _ => none

namespace State

variable {n : Nat}

structure Enrolled (s : State n) (place : Fin n → Option Nat) : Prop where
  lck : s.lck.Sound
  removing : ∀ i pid, (s.pcs i).removing = some pid → s.lck.dead pid = true
  spread : Spread place
  places : ∀ i k, (s.pcs i).inserting = some k → place i = some k
  taken : ∀ idx, s.pidSet idx ≠ 0 → ∃ j, s.pcs j = .attached ∧ place j = some idx.val
  registered : ∀ j, s.Alive j → s.pcs j = .attached → ∃ k, s.pidSet k = s.pid j

variable {s s' : State n} {place place' : Fin n → Option Nat} {i : Fin n} {pc : Pc}

theorem lck_kept {lck : RobustLock.State n} {l : RobustLock.Label n} (h : s.lck.Sound)
    (hl : ∀ j, l ≠ .die j) (hs : s.lck.step l = some lck) :
    lck.Sound ∧ lck.dead = s.lck.dead ∧ ∀ j, (lck.threads j).pid = (s.lck.threads j).pid := by
  have hsound := h.step hs
  cases l with
  | call i c =>
    have heff := (RobustLock.State.effect_of_call hs).2
    exact ⟨hsound, heff.thread.1, heff.pid⟩
  | step i =>
    have heff := (h.effect_of_step hs).2
    exact ⟨hsound, heff.thread.1, heff.pid⟩
  | die i => exact absurd rfl (hl i)

namespace Enrolled

theorem update (h : s.Enrolled place) (hbusy : s.pcs i ≠ .attached) (hlck : s'.lck.Sound)
    (hdead : s'.lck.dead = s.lck.dead) (hpid : ∀ j, s'.pid j = s.pid j)
    (hpcs : s'.pcs = Function.update s.pcs i pc)
    (hremoving : ∀ pid, pc.removing = some pid → s.lck.dead pid = true) (hspread : Spread place')
    (hplaces : ∀ k, pc.inserting = some k → place' i = some k)
    (hothers : ∀ j, j ≠ i → place' j = place j)
    (htaken : ∀ idx, s'.pidSet idx ≠ 0 →
      s.pidSet idx ≠ 0 ∨ pc = .attached ∧ place' i = some idx.val)
    (hkept : ∀ j, s.Alive j → ∀ k, s.pidSet k = s.pid j → s'.pidSet k = s.pid j)
    (hregistered : pc = .attached → ∃ k, s'.pidSet k = s.pid i) : s'.Enrolled place' := by
  have hi : s'.pcs i = pc := by rw [hpcs, Function.update_self]
  have hj : ∀ j, j ≠ i → s'.pcs j = s.pcs j := fun j hj => by rw [hpcs, Function.update_of_ne hj]
  constructor
  · exact hlck
  · intro j p hp
    rw [hdead]
    by_cases hji : j = i
    · exact hremoving p (by rwa [hji, hi] at hp)
    · exact h.removing j p (by rwa [hj j hji] at hp)
  · exact hspread
  · intro j k hk
    by_cases hji : j = i
    · subst hji
      exact hplaces k (by rwa [hi] at hk)
    · rw [hothers j hji]
      exact h.places j k (by rwa [hj j hji] at hk)
  · intro idx hidx
    rcases htaken idx hidx with hold | ⟨hattached, hplace⟩
    · obtain ⟨j, hattached, hplace⟩ := h.taken idx hold
      have hji : j ≠ i := by
        rintro rfl
        exact hbusy hattached
      exact ⟨j, by rw [hj j hji, hattached], by rw [hothers j hji, hplace]⟩
    · exact ⟨i, hi.trans hattached, hplace⟩
  · intro j halive hattached
    rw [Alive, RobustLock.State.Alive, hdead, ← pid, hpid] at halive
    rw [hpid]
    by_cases hji : j = i
    · rw [hji]
      exact hregistered (by rwa [hji, hi] at hattached)
    · obtain ⟨k, hk⟩ := h.registered j halive (by rwa [hj j hji] at hattached)
      exact ⟨k, hkept j halive k hk⟩

theorem keep (h : s.Enrolled place) (hbusy : s.pcs i ≠ .attached) (hlck : s'.lck.Sound)
    (hdead : s'.lck.dead = s.lck.dead) (hpid : ∀ j, s'.pid j = s.pid j)
    (hpcs : s'.pcs = Function.update s.pcs i pc) (hcells : s'.pidSet = s.pidSet)
    (hremoving : ∀ pid, pc.removing = some pid → s.lck.dead pid = true)
    (hins : pc.inserting = none) (hpc : pc ≠ .attached) : s'.Enrolled place := by
  refine h.update hbusy hlck hdead hpid hpcs hremoving h.spread ?_ (fun _ _ => rfl) ?_ ?_
    (fun hattached => absurd hattached hpc)
  · intro k hk
    rw [hins] at hk
    cases hk
  · intro idx hidx
    rw [hcells] at hidx
    exact .inl hidx
  · intro j _ k hk
    rw [hcells, hk]

theorem setPc (h : s.Enrolled place) (hbusy : s.pcs i ≠ .attached)
    (hremoving : ∀ pid, pc.removing = some pid → s.lck.dead pid = true)
    (hins : pc.inserting = none) (hpc : pc ≠ .attached) : (s.setPc i pc).Enrolled place :=
  h.keep hbusy h.lck rfl (fun _ => rfl) rfl rfl hremoving hins hpc

theorem enter (h : s.Enrolled place) (hbusy : s.pcs i ≠ .attached) (hlck : s'.lck.Sound)
    (hdead : s'.lck.dead = s.lck.dead) (hpid : ∀ j, s'.pid j = s.pid j)
    (hpcs : s'.pcs = Function.update s.pcs i (.insertLoad 0)) (hcells : s'.pidSet = s.pidSet) :
    s'.Enrolled (Function.update place i (some 0)) := by
  refine h.update hbusy hlck hdead hpid hpcs nofun (h.spread.enter i) ?_
    (fun j hj => Function.update_of_ne hj ..) ?_ ?_ nofun
  · rintro k ⟨⟩
    exact Function.update_self ..
  · intro idx hidx
    rw [hcells] at hidx
    exact .inl hidx
  · intro j _ k hk
    rw [hcells, hk]

theorem pass (h : s.Enrolled place) (idx : Fin 32) (hins : (s.pcs i).inserting = some idx.val)
    (htaken : s.pidSet idx ≠ 0) : (s.setPc i (.insertLoad (idx.val + 1))).Enrolled
      (Function.update place i (some (idx.val + 1))) := by
  have hbusy : s.pcs i ≠ .attached := fun hpc => by
    rw [hpc] at hins
    cases hins
  obtain ⟨j, hattached, hplace⟩ := h.taken idx htaken
  have hij : i ≠ j := by
    rintro rfl
    exact hbusy hattached
  refine h.update hbusy h.lck rfl (fun _ => rfl) rfl nofun
    (h.spread.pass (h.places i _ hins) hplace hij) ?_ (fun j hj => Function.update_of_ne hj ..)
    (fun _ hidx => .inl hidx) (fun _ _ _ hk => hk) nofun
  rintro k ⟨⟩
  exact Function.update_self ..

theorem attach (h : s.Enrolled place) (idx : Fin 32) (hins : (s.pcs i).inserting = some idx.val)
    (hcell : s.pidSet idx = 0 ∨ s.pidSet idx = s.pid i) :
    ({ s with pidSet := s.pidSet.store idx (s.pid i) }.setPc i .attached).Enrolled place := by
  have hbusy : s.pcs i ≠ .attached := fun hpc => by
    rw [hpc] at hins
    cases hins
  refine h.update hbusy h.lck rfl (fun _ => rfl) rfl nofun h.spread nofun (fun _ _ => rfl) ?_ ?_
    (fun _ => ⟨idx, LocklessSet.store_self ..⟩)
  · intro k hk
    by_cases hki : k = idx
    · exact .inr ⟨rfl, hki ▸ h.places i _ hins⟩
    · exact .inl fun hzero => hk ((LocklessSet.store_of_ne hki).trans hzero)
  · intro j _ k hk
    by_cases hki : k = idx
    · subst hki
      rcases hcell with hzero | hown
      · exact absurd (hk.symm.trans hzero) (h.lck.pid_ne j)
      · exact (LocklessSet.store_self ..).trans (hown.symm.trans hk)
    · exact (LocklessSet.store_of_ne hki).trans hk

theorem erase (h : s.Enrolled place) (hbusy : s.pcs i ≠ .attached) {idx : Fin 32}
    (hcell : s.lck.dead (s.pidSet idx) = true) (hremoving : pc.removing = none)
    (hins : pc.inserting = none) (hpc : pc ≠ .attached) :
    ({ s with pidSet := s.pidSet.store idx 0 }.setPc i pc).Enrolled place := by
  refine h.update hbusy h.lck rfl (fun _ => rfl) rfl ?_ h.spread ?_ (fun _ _ => rfl) ?_ ?_
    (fun hattached => absurd hattached hpc)
  · rw [hremoving]
    nofun
  · rw [hins]
    nofun
  · intro k hk
    rcases s.pidSet.erase_cases idx k with hsame | hzero
    · exact .inl (hsame ▸ hk)
    · exact absurd hzero hk
  · intro j hj k hk
    refine (LocklessSet.store_of_ne ?_).trans hk
    rintro rfl
    rw [hk] at hcell
    exact absurd (hj.symm.trans hcell) nofun

theorem lockStep (h : s.Enrolled place) (hplace : s.pcs i = .locking)
    (hs : s.lockStep i (.anyAlive 0 false) = some s') : s'.Enrolled place := by
  obtain ⟨lck, hlck, rfl⟩ := Option.map_eq_some_iff.mp hs
  obtain ⟨hsound, hdead, hpid⟩ := lck_kept h.lck (by nofun) hlck
  have hbusy : s.pcs i ≠ .attached := by
    rw [hplace]
    nofun
  rw [hplace]
  split_ifs <;> exact h.keep hbusy hsound hdead hpid rfl rfl nofun rfl nofun

theorem unlockStep (h : s.Enrolled place) (hplace : s.pcs i = .unlocking)
    (hs : s.lockStep i (.insertLoad 0) = some s') : ∃ place', s'.Enrolled place' := by
  obtain ⟨lck, hlck, rfl⟩ := Option.map_eq_some_iff.mp hs
  obtain ⟨hsound, hdead, hpid⟩ := lck_kept h.lck (by nofun) hlck
  have hbusy : s.pcs i ≠ .attached := by
    rw [hplace]
    nofun
  rw [hplace]
  split_ifs
  · exact ⟨_, h.enter hbusy hsound hdead hpid rfl rfl⟩
  · exact ⟨place, h.keep hbusy hsound hdead hpid rfl rfl nofun rfl nofun⟩

theorem advance (h : s.Enrolled place) (hn : n ≤ 32) (hs : s.advance i = some s') :
    ∃ place', s'.Enrolled place' := by
  have hremoving := h.removing i
  have hplaces := h.places i
  unfold State.advance at hs
  cases hpc : s.pcs i with
  | start | unlock =>
    simp only [hpc] at hs
    obtain ⟨lck, hlck, rfl⟩ := Option.map_eq_some_iff.mp hs
    obtain ⟨hsound, hdead, hpid⟩ := lck_kept h.lck (by nofun) hlck
    exact ⟨place, h.keep (by rw [hpc]; nofun) hsound hdead hpid rfl rfl nofun rfl nofun⟩
  | locking =>
    simp only [hpc] at hs
    exact ⟨place, h.lockStep hpc hs⟩
  | unlocking =>
    simp only [hpc] at hs
    exact h.unlockStep hpc hs
  | anyAlive idx alive =>
    simp only [hpc] at hs
    split_ifs at hs <;> obtain rfl := Option.some.inj hs <;>
      exact ⟨place, h.setPc (by rw [hpc]; nofun) nofun rfl nofun⟩
  | testDead idx alive p =>
    simp only [hpc] at hs
    split_ifs at hs with hdead <;> obtain rfl := Option.some.inj hs
    · refine ⟨place, h.setPc (by rw [hpc]; nofun) ?_ rfl nofun⟩
      rintro _ ⟨⟩
      exact hdead
    · exact ⟨place, h.setPc (by rw [hpc]; nofun) nofun rfl nofun⟩
  | removeLoad idx alive p k =>
    simp only [hpc] at hs hremoving
    split_ifs at hs <;> obtain rfl := Option.some.inj hs <;>
      exact ⟨place, h.setPc (by rw [hpc]; nofun) hremoving rfl nofun⟩
  | removeCas idx alive p k =>
    simp only [hpc] at hs hremoving
    split_ifs at hs with hcell <;> obtain rfl := Option.some.inj hs
    · exact ⟨place, h.erase (by rw [hpc]; nofun) (by rw [hcell]; exact hremoving p rfl) rfl rfl nofun⟩
    · exact ⟨place, h.setPc (by rw [hpc]; nofun) hremoving rfl nofun⟩
  | lockReset =>
    simp only [hpc] at hs
    obtain rfl := Option.some.inj hs
    exact ⟨place, h.setPc (by rw [hpc]; nofun) nofun rfl nofun⟩
  | resetElem q =>
    simp only [hpc] at hs
    split_ifs at hs <;> obtain rfl := Option.some.inj hs <;>
      exact ⟨place, h.keep (by rw [hpc]; nofun) h.lck rfl (fun _ => rfl) rfl rfl nofun rfl nofun⟩
  | resetCounter | resetAllocator =>
    simp only [hpc] at hs
    obtain rfl := Option.some.inj hs
    exact ⟨place, h.keep (by rw [hpc]; nofun) h.lck rfl (fun _ => rfl) rfl rfl nofun rfl nofun⟩
  | insertLoad idx =>
    have hins : (s.pcs i).inserting = some idx := by
      rw [hpc]
      rfl
    have hlt : idx < 32 := Nat.lt_of_lt_of_le (h.spread.lt (hplaces idx hins)) hn
    simp only [hpc] at hs
    rw [dif_pos hlt] at hs
    split_ifs at hs with hown htaken <;> obtain rfl := Option.some.inj hs
    · have hsame : s.pidSet.store ⟨idx, hlt⟩ (s.pid i) = s.pidSet := by
        rw [← hown]
        exact Function.update_eq_self ..
      have hattach := h.attach ⟨idx, hlt⟩ hins (.inr hown)
      rw [hsame] at hattach
      exact ⟨place, hattach⟩
    · exact ⟨_, h.pass ⟨idx, hlt⟩ hins htaken⟩
    · refine ⟨place, h.update (by rw [hpc]; nofun) h.lck rfl (fun _ => rfl) rfl nofun h.spread ?_
        (fun _ _ => rfl) (fun _ hidx => .inl hidx) (fun _ _ _ hk => hk) nofun⟩
      rintro k ⟨⟩
      exact hplaces idx hins
  | insertCas idx =>
    have hins : (s.pcs i).inserting = some idx.val := by
      rw [hpc]
      rfl
    simp only [hpc] at hs
    split_ifs at hs with hfree <;> obtain rfl := Option.some.inj hs
    · exact ⟨place, h.attach _ hins (.inl hfree)⟩
    · exact ⟨_, h.pass _ hins hfree⟩
  | attached => simp [hpc] at hs

theorem step {alloc : Nat → Bool} {l : Label n} (h : s.Enrolled place) (hn : n ≤ 32)
    (hs : s.step alloc l = some s') : ∃ place', s'.Enrolled place' := by
  cases l with
  | attach i =>
    simp only [State.step] at hs
    split_ifs at hs
    exact h.advance hn hs
  | topic l =>
    simp only [State.step] at hs
    split_ifs at hs
    obtain ⟨world, -, rfl⟩ := Option.map_eq_some_iff.mp hs
    exact ⟨place, h.lck, h.removing, h.spread, h.places, h.taken, h.registered⟩
  | die i =>
    simp only [State.step] at hs
    obtain ⟨lck, hlck, rfl⟩ := Option.map_eq_some_iff.mp hs
    have hsound := h.lck.step hlck
    obtain rfl := Option.some.inj hlck
    have hmono : ∀ p, s.lck.dead p = true → Function.update s.lck.dead (s.pid i) true p = true := by
      intro p hp
      rw [Function.update_apply]
      split_ifs
      · rfl
      · exact hp
    have halive : ∀ j, Function.update s.lck.dead (s.pid i) true (s.pid j) = false → s.Alive j := by
      intro j hj
      by_contra hdead
      rw [hmono (s.pid j) (by simpa [Alive, RobustLock.State.Alive, pid] using hdead)] at hj
      cases hj
    exact ⟨place, hsound, fun j p hp => hmono p (h.removing j p hp), h.spread, h.places, h.taken,
      fun j hj => h.registered j (halive j hj)⟩

theorem new {pid : Fin (n + 1) → Nat} (hpid : ∀ i, pid i ≠ 0) (heapBase bufferSize : Nat) :
    (State.new pid heapBase bufferSize).Enrolled (Function.update (fun _ => none) 0 (some 0)) := by
  have hpc : ∀ i, ((State.new pid heapBase bufferSize).pcs i).removing = none ∧
      ((State.new pid heapBase bufferSize).pcs i).inserting = none := by
    intro i
    simp only [State.new]
    split_ifs <;> exact ⟨rfl, rfl⟩
  have hcell : LocklessSet.empty.store (0 : Fin 32) (pid 0) 0 = pid 0 := LocklessSet.store_self ..
  refine ⟨.new hpid, ?_, spread_none.enter 0, ?_, ?_, ?_⟩
  · intro i p hp
    rw [(hpc i).1] at hp
    cases hp
  · intro i k hk
    rw [(hpc i).2] at hk
    cases hk
  · intro idx hidx
    refine ⟨0, rfl, ?_⟩
    obtain rfl : idx = 0 := by
      by_contra hne
      exact hidx (LocklessSet.store_of_ne hne)
    exact Function.update_self ..
  · intro j _ hattached
    by_cases hj : j = 0
    · rw [hj]
      exact ⟨0, hcell⟩
    · simp only [State.new, if_neg hj] at hattached
      cases hattached

end Enrolled

/-- With at most 32 participants, whichever of them share a process, no `insert` finds the set
full, and the process of everyone who is attached and alive is in the set, so that `any_alive` can
find it: however the constructors are interleaved with each other and with the topic, and whoever
dies at any step. -/
theorem everyone_registers {pid : Fin (n + 1) → Nat} (hpid : ∀ i, pid i ≠ 0) (hn : n + 1 ≤ 32)
    {heapBase bufferSize : Nat} {alloc : Nat → Bool} {labels : List (Label (n + 1))}
    {s : State (n + 1)}
    (h : Machine.run (step alloc) (new pid heapBase bufferSize) labels = some s) :
    (∀ i idx, s.pcs i = .insertLoad idx → idx < n + 1) ∧
    ∀ j, s.Alive j → s.pcs j = .attached → ∃ k, s.pidSet k = s.pid j := by
  obtain ⟨place, henrolled⟩ : ∃ place, s.Enrolled place :=
    (Machine.Run.of_run h).invariant (fun t => ∃ place, t.Enrolled place)
      ⟨_, .new hpid heapBase bufferSize⟩ fun _ _ _ ⟨_, ht⟩ _ hs => ht.step hn hs
  refine ⟨fun i idx hpc => henrolled.spread.lt (henrolled.places i idx ?_), henrolled.registered⟩
  rw [hpc]
  rfl

def contendedLabels : List (Label 3) :=
  List.replicate 40 (.attach 1) ++ List.replicate 40 (.attach 2) ++
    [.attach 1, .attach 1, .attach 2, .attach 2, .die 0, .attach 1, .attach 2, .attach 2, .attach 2]

theorem everyone_registers_contended : ∃ s : State 3,
    Machine.run (step fun _ => true) (new (fun i => i.val + 1) 4096 (2 ^ 28)) contendedLabels =
      some s ∧ ∃ k, s.pidSet k = s.pid 2 := by
  have hrun : (Machine.run (step fun _ => true) (new (fun i : Fin 3 => i.val + 1) 4096 (2 ^ 28))
      contendedLabels).map (fun s => (s.pcs 2, decide (s.Alive 2))) = some (.attached, true) := by
    decide +kernel
  obtain ⟨s, hs, hvals⟩ := Option.map_eq_some_iff.mp hrun
  simp only [Prod.mk.injEq, decide_eq_true_eq] at hvals
  exact ⟨s, hs, (everyone_registers (fun i => Nat.succ_ne_zero i.val) (by decide) hs).2 2 hvals.2
    hvals.1⟩

end State

end Shadesmar.PubSub.Attaching
