import Shadesmar.Library.Progress
import Shadesmar.Library.Renaming
import Shadesmar.Concurrency.Exclusion

namespace Shadesmar.Concurrency.RobustLock

open Library Library.Progress Library.Renaming

namespace Pc

def inserting : Pc → Option Nat
  | insertLoad idx => some idx
  | insertCas idx => some idx.val
  | _ => none

def acquiring : Pc → Option Acquire
  | attempt op _ => some op
  | testOwner op => some op
  | loadOwner op => some op
  | testDead op _ => some op
  | clearOwner op _ => some op
  | storeZero op => some op
  | releaseDead op => some op
  | prune op _ => some op
  | testReader op _ _ => some op
  | removeLoad (.pruning op _ _) _ => some op
  | removeCas (.pruning op _ _) _ => some op
  | releaseReader (.pruning op _ _) => some op
  | _ => none

def left (n : Nat) : Pc → Nat
  | insertLoad idx => 2 * (n - idx)
  | insertCas idx => 2 * (n - idx) - 1
  | _ => 0

theorem left_pos {n k : Nat} {pc : Pc} (h : pc.inserting = some k) (hk : k < n) : 0 < pc.left n := by
  cases pc with
  | insertLoad idx | insertCas idx =>
    obtain rfl := Option.some.inj h
    simp only [left]
    omega
  | _ => cases h

theorem left_le (n : Nat) (pc : Pc) : pc.left n ≤ 2 * n := by
  cases pc <;> simp only [left] <;> omega

end Pc

/-- A thread whose process is in a cell has a shared hold, does not ask for another one, and
comes to its cell when it removes it. -/
structure Thread.Orderly (cells : LocklessSet 8) (x : Thread) : Prop where
  recorded : ∀ idx, cells idx = x.pid → x.pc.inserting = none ∧ 0 < x.shared
  ahead : ∀ idx k, cells idx = x.pid → x.pc = .removeLoad .unlockSharable k → k ≤ idx.val
  found : ∀ idx k, cells idx = x.pid → x.pc = .removeCas .unlockSharable k → idx = k
  bare : ∀ op, x.pc.acquiring = some op → op.sharable = true → x.shared = 0

def Label.goes {n : Nat} (i : Fin n) : Label n → Bool
  | .step j => j = i
  | _ => false

theorem Thread.Orderly.mono {cells cells' : LocklessSet 8} {x : Thread} (h : x.Orderly cells)
    (hcells : ∀ idx, cells' idx = x.pid → cells idx = x.pid) : x.Orderly cells' :=
  ⟨fun idx hidx => h.recorded idx (hcells idx hidx),
    fun idx k hidx => h.ahead idx k (hcells idx hidx),
    fun idx k hidx => h.found idx k (hcells idx hidx), h.bare⟩

namespace State

variable {n : Nat}

def Disciplined (s : State n) : Label n → Prop
  | .call i (.acquire op) => op.sharable = true → (s.threads i).shared = 0
  | _ => True

instance (s : State n) : (l : Label n) → Decidable (s.Disciplined l)
  | .call _ (.acquire _) => inferInstanceAs (Decidable (_ → _))
  | .call _ .unlock => inferInstanceAs (Decidable True)
  | .call _ .unlockSharable => inferInstanceAs (Decidable True)
  | .step _ => inferInstanceAs (Decidable True)
  | .die _ => inferInstanceAs (Decidable True)

structure Climbing (s : State n) (place : Fin n → Option Nat) : Prop where
  pos : ∀ i, (s.threads i).pid ≠ 0
  distinct : ∀ i j, (s.threads i).pid = (s.threads j).pid → i = j
  spread : Spread place
  places : ∀ i k, (s.threads i).pc.inserting = some k → place i = some k
  owned : ∀ idx, s.sharedOwners idx ≠ 0 →
    ∃ i, s.sharedOwners idx = (s.threads i).pid ∧ place i = some idx.val
  orderly : ∀ i, (s.threads i).Orderly s.sharedOwners

variable {s s' : State n} {place : Fin n → Option Nat} {i j : Fin n} {x : Thread}

theorem Climbing.at_cell (h : s.Climbing place) {idx : Fin 8}
    (hidx : s.sharedOwners idx = (s.threads i).pid) : place i = some idx.val := by
  obtain ⟨j, hj, hplace⟩ := h.owned idx (hidx ▸ h.pos i)
  obtain rfl := h.distinct i j (hidx.symm.trans hj)
  exact hplace

theorem Climbing.cell_inj (h : s.Climbing place) {idx idx' : Fin 8}
    (hidx : s.sharedOwners idx = (s.threads i).pid)
    (hidx' : s.sharedOwners idx' = (s.threads i).pid) : idx = idx' :=
  Fin.ext (Option.some.inj ((h.at_cell hidx).symm.trans (h.at_cell hidx')))

theorem Climbing.update (h : s.Climbing place) {place' : Fin n → Option Nat}
    (hthreads : s'.threads = Function.update s.threads i x) (hpid : x.pid = (s.threads i).pid)
    (hspread : Spread place') (hplaces : ∀ k, x.pc.inserting = some k → place' i = some k)
    (hothers : ∀ j, j ≠ i → place' j = place j)
    (howned : ∀ idx, s'.sharedOwners idx ≠ 0 → s'.sharedOwners idx ≠ x.pid →
      s.sharedOwners idx = s'.sharedOwners idx)
    (hself : ∀ idx, s'.sharedOwners idx = x.pid → place' i = some idx.val)
    (horderly : x.Orderly s'.sharedOwners) : s'.Climbing place' := by
  have hi : s'.threads i = x := by rw [hthreads, Function.update_self]
  have hj : ∀ j, j ≠ i → s'.threads j = s.threads j := fun j hj => by
    rw [hthreads, Function.update_of_ne hj]
  have hpids : ∀ j, (s'.threads j).pid = (s.threads j).pid := by
    intro j
    by_cases hji : j = i
    · rw [hji, hi, hpid]
    · rw [hj j hji]
  constructor
  · exact fun j => (hpids j).symm ▸ h.pos j
  · exact fun j k heq => h.distinct j k (by rwa [hpids, hpids] at heq)
  · exact hspread
  · intro j k hk
    by_cases hji : j = i
    · subst hji
      exact hplaces k (hi ▸ hk)
    · rw [hothers j hji]
      exact h.places j k (hj j hji ▸ hk)
  · intro idx hidx
    by_cases hx : s'.sharedOwners idx = x.pid
    · exact ⟨i, by rw [hi, hx], hself idx hx⟩
    · have hsame := howned idx hidx hx
      obtain ⟨j, hcell, hplace⟩ := h.owned idx (hsame ▸ hidx)
      have hji : j ≠ i := by
        rintro rfl
        exact hx (by rw [← hsame, hcell, hpid])
      exact ⟨j, by rw [hpids, ← hcell, hsame], by rw [hothers j hji, hplace]⟩
  · intro j
    by_cases hji : j = i
    · rw [hji, hi]
      exact horderly
    · rw [hj j hji]
      refine (h.orderly j).mono fun idx hidx => ?_
      have hne : s'.sharedOwners idx ≠ x.pid := by
        rw [hidx, hpid]
        exact fun heq => hji (h.distinct j i heq)
      exact (howned idx (hidx ▸ h.pos j) hne).trans hidx

theorem Climbing.plain (h : s.Climbing place) (hcells : s'.sharedOwners = s.sharedOwners)
    (hthreads : s'.threads = Function.update s.threads i x) (hpid : x.pid = (s.threads i).pid)
    (hshared : x.shared = (s.threads i).shared) (hins : x.pc.inserting = none)
    (hgives : ∀ idx, s.sharedOwners idx = (s.threads i).pid →
      (∀ k, x.pc = .removeLoad .unlockSharable k → k ≤ idx.val) ∧
      ∀ k, x.pc = .removeCas .unlockSharable k → idx = k)
    (hop : ∀ op, x.pc.acquiring = some op → (s.threads i).pc.acquiring = some op) :
    s'.Climbing place := by
  refine h.update hthreads hpid h.spread ?_ (fun _ _ => rfl) ?_ ?_ ?_
  · intro k hk
    rw [hins] at hk
    cases hk
  · exact fun idx _ _ => by rw [hcells]
  · intro idx hidx
    rw [hcells, hpid] at hidx
    exact h.at_cell hidx
  · rw [hcells]
    constructor
    · intro idx hidx
      rw [hshared]
      exact ⟨hins, ((h.orderly i).recorded idx (hidx.trans hpid)).2⟩
    · exact fun idx k hidx => (hgives idx (hidx.trans hpid)).1 k
    · exact fun idx k hidx => (hgives idx (hidx.trans hpid)).2 k
    · intro op hacquiring hsharable
      rw [hshared]
      exact (h.orderly i).bare op (hop op hacquiring) hsharable

theorem Climbing.without (h : s.Climbing place) {place' : Fin n → Option Nat}
    (hcells : s'.sharedOwners = s.sharedOwners)
    (hthreads : s'.threads = Function.update s.threads i x) (hpid : x.pid = (s.threads i).pid)
    (hnone : ∀ idx, s.sharedOwners idx ≠ (s.threads i).pid) (hspread : Spread place')
    (hplaces : ∀ k, x.pc.inserting = some k → place' i = some k)
    (hothers : ∀ j, j ≠ i → place' j = place j) (hop : x.pc.acquiring = none) :
    s'.Climbing place' := by
  have hnone' : ∀ idx, s'.sharedOwners idx ≠ x.pid := by
    rwa [hcells, hpid]
  refine h.update hthreads hpid hspread hplaces hothers (fun idx _ _ => by rw [hcells])
    (fun idx hidx => absurd hidx (hnone' idx)) ⟨?_, ?_, ?_, ?_⟩
  · exact fun idx hidx => absurd hidx (hnone' idx)
  · exact fun idx _ hidx => absurd hidx (hnone' idx)
  · exact fun idx _ hidx => absurd hidx (hnone' idx)
  · intro op hacquiring
    rw [hop] at hacquiring
    cases hacquiring

theorem Climbing.enter (h : s.Climbing place) {op : Acquire}
    (hop : (s.threads i).pc.acquiring = some op) (hsharable : op.sharable = true)
    (hcells : s'.sharedOwners = s.sharedOwners)
    (hthreads : s'.threads = Function.update s.threads i
      { s.threads i with pc := .insertLoad 0, acquired := true }) :
    s'.Climbing (Function.update place i (some 0)) := by
  refine h.without hcells hthreads rfl ?_ (h.spread.enter i) ?_ ?_ rfl
  · intro idx hidx
    have hpos := ((h.orderly i).recorded idx hidx).2
    have hzero := (h.orderly i).bare op hop hsharable
    omega
  · rintro k ⟨⟩
    exact Function.update_self ..
  · exact fun j hj => Function.update_of_ne hj ..

theorem Climbing.not_recorded (h : s.Climbing place) {k : Nat}
    (hins : (s.threads i).pc.inserting = some k) (idx : Fin 8) :
    s.sharedOwners idx ≠ (s.threads i).pid := by
  intro hidx
  rw [((h.orderly i).recorded idx hidx).1] at hins
  cases hins

theorem Climbing.pass (h : s.Climbing place) (idx : Fin 8)
    (hins : (s.threads i).pc.inserting = some idx.val) (htaken : s.sharedOwners idx ≠ 0) :
    (s.setPc i (.insertLoad (idx.val + 1))).Climbing
      (Function.update place i (some (idx.val + 1))) := by
  have hnone := h.not_recorded hins
  obtain ⟨j, hj, hplace⟩ := h.owned idx htaken
  have hij : i ≠ j := by
    rintro rfl
    exact hnone idx hj
  refine h.without (x := { s.threads i with pc := .insertLoad (idx.val + 1) }) rfl rfl rfl hnone
    (h.spread.pass (h.places i _ hins) hplace hij) ?_ ?_ rfl
  · rintro k ⟨⟩
    exact Function.update_self ..
  · exact fun j hj => Function.update_of_ne hj ..

theorem Climbing.insert (h : s.Climbing place) {idx : Fin 8}
    (hins : (s.threads i).pc.inserting = some idx.val) :
    ({ s with sharedOwners := s.sharedOwners.store idx (s.threads i).pid }.setThread i
      { s.threads i with pc := .idle, shared := (s.threads i).shared + 1 }).Climbing place := by
  have hcell : ∀ k, k ≠ idx → s.sharedOwners.store idx (s.threads i).pid k = s.sharedOwners k :=
    fun k hk => LocklessSet.store_of_ne hk
  have hself : ∀ k, s.sharedOwners.store idx (s.threads i).pid k = (s.threads i).pid → k = idx := by
    intro k hk
    by_contra hne
    rw [hcell k hne] at hk
    exact h.not_recorded hins k hk
  refine h.update (x := { s.threads i with pc := .idle, shared := (s.threads i).shared + 1 })
    rfl rfl h.spread nofun (fun _ _ => rfl) ?_ ?_ ⟨?_, nofun, nofun, nofun⟩
  · intro k _ hk
    refine (hcell k ?_).symm
    rintro rfl
    exact hk (LocklessSet.store_self ..)
  · intro k hk
    rw [hself k hk]
    exact h.places i _ hins
  · exact fun k _ => ⟨rfl, Nat.succ_pos _⟩

theorem Climbing.erase (h : s.Climbing place) {idx : Fin 8} {caller : Remover}
    (hcells : s'.sharedOwners = s.sharedOwners.store idx 0)
    (hthreads : s'.threads = Function.update s.threads i x) (hpid : x.pid = (s.threads i).pid)
    (hpc : x.pc = .releaseReader caller)
    (hshared : s.sharedOwners idx = (s.threads i).pid ∨ x.shared = (s.threads i).shared)
    (hop : ∀ op, x.pc.acquiring = some op →
      (s.threads i).pc.acquiring = some op ∧ x.shared = (s.threads i).shared) :
    s'.Climbing place := by
  have hcell : ∀ k, s'.sharedOwners k ≠ 0 → k ≠ idx ∧ s'.sharedOwners k = s.sharedOwners k := by
    intro k hk
    rw [hcells] at hk ⊢
    have hne : k ≠ idx := by
      rintro rfl
      exact hk (LocklessSet.store_self ..)
    exact ⟨hne, LocklessSet.store_of_ne hne⟩
  have hxpos : x.pid ≠ 0 := hpid ▸ h.pos i
  have hown : ∀ k, s'.sharedOwners k = x.pid → k ≠ idx ∧ s.sharedOwners k = (s.threads i).pid := by
    intro k hk
    obtain ⟨hne, hsame⟩ := hcell k (hk ▸ hxpos)
    exact ⟨hne, by rw [← hsame, hk, hpid]⟩
  have hins : x.pc.inserting = none := by
    rw [hpc]
    rfl
  refine h.update hthreads hpid h.spread ?_ (fun _ _ => rfl) ?_ ?_ ⟨?_, ?_, ?_, ?_⟩
  · intro k hk
    rw [hins] at hk
    cases hk
  · exact fun k hk _ => (hcell k hk).2.symm
  · exact fun k hk => h.at_cell (hown k hk).2
  · intro k hk
    obtain ⟨hne, hwas⟩ := hown k hk
    rcases hshared with hself | hsame
    · exact absurd (h.cell_inj hwas hself) hne
    · rw [hsame]
      exact ⟨hins, ((h.orderly i).recorded k hwas).2⟩
  · intro k m _ hpc'
    rw [hpc] at hpc'
    cases hpc'
  · intro k m _ hpc'
    rw [hpc] at hpc'
    cases hpc'
  · intro op hacquiring hsharable
    obtain ⟨hacq, hsame⟩ := hop op hacquiring
    rw [hsame]
    exact (h.orderly i).bare op hacq hsharable

theorem Climbing.move (h : s.Climbing place) {pc : Pc} (hins : pc.inserting = none)
    (hgives : ∀ k, pc ≠ .removeLoad .unlockSharable k ∧ ∀ idx, pc ≠ .removeCas .unlockSharable idx)
    (hop : ∀ op, pc.acquiring = some op → (s.threads i).pc.acquiring = some op) :
    (s.setPc i pc).Climbing place :=
  h.plain rfl rfl rfl rfl hins
    (fun _ _ => ⟨fun k hk => absurd hk (hgives k).1, fun k hk => absurd hk ((hgives 0).2 k)⟩) hop

theorem Climbing.lost (h : s.Climbing place) (hnone : ∀ idx, s.sharedOwners idx ≠ (s.threads i).pid) :
    (s.notRemoved i .unlockSharable).Climbing place :=
  h.without rfl rfl rfl hnone h.spread nofun (fun _ _ => rfl) rfl

theorem Climbing.removeLoad (h : s.Climbing place) {caller : Remover} {idx : Nat}
    (hpc : (s.threads i).pc = .removeLoad caller idx) : (s.removeLoad i caller idx).Climbing place := by
  unfold State.removeLoad
  cases caller with
  | pruning op k sharedOwner =>
    dsimp only
    split_ifs <;> exact h.move rfl (fun _ => ⟨nofun, nofun⟩) (by rw [hpc]; exact fun _ hop => hop)
  | unlockSharable =>
    have hahead : ∀ k : Fin 8, s.sharedOwners k = (s.threads i).pid → idx ≤ k.val :=
      fun k hk => (h.orderly i).ahead k idx hk hpc
    dsimp only
    split_ifs with hlt hcell
    · refine h.plain rfl rfl rfl rfl rfl (fun k hk => ⟨nofun, ?_⟩) nofun
      rintro m ⟨⟩
      exact h.cell_inj hk hcell
    · refine h.plain rfl rfl rfl rfl rfl (fun k hk => ⟨?_, nofun⟩) nofun
      rintro m ⟨⟩
      have hle := hahead k hk
      have hne : idx ≠ k.val := by
        rintro rfl
        exact hcell hk
      omega
    · refine h.lost fun k hk => ?_
      have hle := hahead k hk
      omega

theorem Climbing.removeCas (h : s.Climbing place) {caller : Remover} {idx : Fin 8}
    (hpc : (s.threads i).pc = .removeCas caller idx) : (s.removeCas i caller idx).Climbing place := by
  unfold State.removeCas
  cases caller with
  | pruning op k sharedOwner =>
    dsimp only
    split_ifs with hcell
    · exact h.erase rfl rfl rfl rfl (.inr rfl) (by rw [hpc]; exact fun _ hop => ⟨hop, rfl⟩)
    · exact h.move rfl (fun _ => ⟨nofun, nofun⟩) (by rw [hpc]; exact fun _ hop => hop)
  | unlockSharable =>
    dsimp only
    split_ifs with hcell
    · exact h.erase rfl rfl rfl rfl (.inl hcell) nofun
    · refine h.lost fun k hk => hcell ?_
      rwa [← (h.orderly i).found k idx hk hpc]

theorem Climbing.insertLoad (h : s.Climbing place) (hn : n ≤ 8) {idx : Nat}
    (hpc : (s.threads i).pc = .insertLoad idx) :
    ∃ place', (s.insertLoad i idx).Climbing place' := by
  have hins : (s.threads i).pc.inserting = some idx := by
    rw [hpc]
    rfl
  have hplace := h.places i idx hins
  have hlt : idx < 8 := Nat.lt_of_lt_of_le (h.spread.lt hplace) hn
  unfold State.insertLoad
  rw [dif_pos hlt]
  dsimp only
  split_ifs with hown htaken
  · exact absurd hown (h.not_recorded hins _)
  · exact ⟨_, h.pass ⟨idx, hlt⟩ hins htaken⟩
  · refine ⟨place, h.without (x := { s.threads i with pc := .insertCas ⟨idx, hlt⟩ }) rfl rfl rfl
      (h.not_recorded hins) h.spread ?_ (fun _ _ => rfl) rfl⟩
    rintro k ⟨⟩
    exact hplace

theorem Climbing.insertCas (h : s.Climbing place) {idx : Fin 8}
    (hpc : (s.threads i).pc = .insertCas idx) : ∃ place', (s.insertCas i idx).Climbing place' := by
  have hins : (s.threads i).pc.inserting = some idx.val := by
    rw [hpc]
    rfl
  unfold State.insertCas
  split_ifs with hfree
  · exact ⟨place, h.insert hins⟩
  · exact ⟨_, h.pass _ hins hfree⟩

theorem Climbing.advance (h : s.Climbing place) (hn : n ≤ 8) (hs : s.advance i = some s') :
    ∃ place', s'.Climbing place' := by
  unfold State.advance at hs
  cases hpc : (s.threads i).pc with
  | idle => simp [hpc] at hs
  | attempt op last =>
    have hfail : (s.setPc i (if last then .idle else .testOwner op)).Climbing place := by
      cases last
      · exact h.move rfl (fun _ => ⟨nofun, nofun⟩) (by rw [hpc]; exact fun _ hop => hop)
      · exact h.move rfl (fun _ => ⟨nofun, nofun⟩) nofun
    simp only [hpc] at hs
    split_ifs at hs with hop <;> obtain rfl := Option.some.inj hs
    · unfold attemptSharable
      split
      · exact ⟨_, h.enter (by rw [hpc]; rfl) hop rfl rfl⟩
      · exact ⟨place, hfail⟩
    · unfold attemptExclusive
      split
      · exact ⟨place, h.plain rfl rfl rfl rfl rfl (fun _ _ => ⟨nofun, nofun⟩) nofun⟩
      · exact ⟨place, hfail⟩
  | testOwner op =>
    simp only [hpc] at hs
    split_ifs at hs <;> obtain rfl := Option.some.inj hs <;>
      exact ⟨place, h.move rfl (fun _ => ⟨nofun, nofun⟩) (by rw [hpc]; exact fun _ hop => hop)⟩
  | loadOwner op | storeZero op | releaseDead op =>
    simp only [hpc] at hs
    obtain rfl := Option.some.inj hs
    exact ⟨place, h.plain rfl rfl rfl rfl rfl (fun _ _ => ⟨nofun, nofun⟩)
      (by rw [hpc]; exact fun _ hop => hop)⟩
  | testDead op exProc =>
    simp only [hpc] at hs
    split_ifs at hs <;> obtain rfl := Option.some.inj hs <;>
      exact ⟨place, h.move rfl (fun _ => ⟨nofun, nofun⟩) (by rw [hpc]; exact fun _ hop => hop)⟩
  | clearOwner op exProc =>
    simp only [hpc] at hs
    obtain rfl := Option.some.inj hs
    unfold State.clearOwner
    split_ifs <;> exact ⟨place, h.plain rfl rfl rfl rfl rfl (fun _ _ => ⟨nofun, nofun⟩)
      (by rw [hpc]; exact fun _ hop => hop)⟩
  | prune op idx =>
    simp only [hpc] at hs
    split_ifs at hs <;> obtain rfl := Option.some.inj hs <;>
      exact ⟨place, h.move rfl (fun _ => ⟨nofun, nofun⟩) (by rw [hpc]; exact fun _ hop => hop)⟩
  | testReader op idx sharedOwner =>
    simp only [hpc] at hs
    split_ifs at hs <;> obtain rfl := Option.some.inj hs <;>
      exact ⟨place, h.move rfl (fun _ => ⟨nofun, nofun⟩) (by rw [hpc]; exact fun _ hop => hop)⟩
  | removeLoad caller idx =>
    simp only [hpc] at hs
    obtain rfl := Option.some.inj hs
    exact ⟨place, h.removeLoad hpc⟩
  | removeCas caller idx =>
    simp only [hpc] at hs
    obtain rfl := Option.some.inj hs
    exact ⟨place, h.removeCas hpc⟩
  | releaseReader caller =>
    simp only [hpc] at hs
    obtain rfl := Option.some.inj hs
    refine ⟨place, ?_⟩
    cases caller with
    | pruning op idx sharedOwner =>
      exact h.plain rfl rfl rfl rfl rfl (fun _ _ => ⟨nofun, nofun⟩)
        (by rw [hpc]; exact fun _ hop => hop)
    | unlockSharable => exact h.plain rfl rfl rfl rfl rfl (fun _ _ => ⟨nofun, nofun⟩) nofun
  | record | unlockMutex =>
    simp only [hpc] at hs
    obtain rfl := Option.some.inj hs
    exact ⟨place, h.plain rfl rfl rfl rfl rfl (fun _ _ => ⟨nofun, nofun⟩) nofun⟩
  | insertLoad idx =>
    simp only [hpc] at hs
    obtain rfl := Option.some.inj hs
    exact h.insertLoad hn hpc
  | insertCas idx =>
    simp only [hpc] at hs
    obtain rfl := Option.some.inj hs
    exact h.insertCas hpc
  | unlockOwner =>
    simp only [hpc] at hs
    obtain rfl := Option.some.inj hs
    unfold State.unlockOwner
    split_ifs <;>
      exact ⟨place, h.plain rfl rfl rfl rfl rfl (fun _ _ => ⟨nofun, nofun⟩) nofun⟩

theorem climbing_new {pid : Fin n → Nat} (hpid : ∀ i, pid i ≠ 0) (hinj : Function.Injective pid) :
    (new pid).Climbing fun _ => none := by
  refine ⟨hpid, fun i j h => hinj h, spread_none, nofun, fun idx hidx => absurd rfl hidx, fun i => ?_⟩
  have hnone : ∀ idx, (new pid).sharedOwners idx ≠ pid i := fun _ => (hpid i).symm
  exact ⟨fun idx h => absurd h (hnone idx), fun idx _ h => absurd h (hnone idx),
    fun idx _ h => absurd h (hnone idx), nofun⟩

theorem Climbing.step {l : Label n} (h : s.Climbing place) (hn : n ≤ 8) (hok : s.Disciplined l)
    (hs : s.step l = some s') : ∃ place', s'.Climbing place' := by
  cases l with
  | call i c =>
    simp only [State.step] at hs
    split_ifs at hs
    obtain rfl := Option.some.inj hs
    refine ⟨place, ?_⟩
    cases c with
    | acquire op =>
      refine h.update (x := { s.threads i with pc := .attempt op false }) rfl rfl h.spread ?_
        (fun _ _ => rfl) (fun _ _ _ => rfl) (fun idx hidx => h.at_cell hidx)
        ⟨fun idx hidx => ⟨rfl, ((h.orderly i).recorded idx hidx).2⟩, ?_, ?_, ?_⟩
      · rintro _ ⟨⟩
      · rintro _ _ - ⟨⟩
      · rintro _ _ - ⟨⟩
      · rintro _ ⟨⟩ hsharable
        exact hok hsharable
    | unlock =>
      refine h.move rfl (fun _ => ⟨?_, ?_⟩) ?_
      · rintro ⟨⟩
      · rintro _ ⟨⟩
      · rintro _ ⟨⟩
    | unlockSharable =>
      refine h.plain rfl rfl rfl rfl rfl (fun idx _ => ⟨?_, ?_⟩) ?_
      · rintro _ ⟨⟩
        exact Nat.zero_le _
      · rintro _ ⟨⟩
      · rintro _ ⟨⟩
  | step i =>
    simp only [State.step] at hs
    split_ifs at hs
    exact h.advance hn hs
  | die i =>
    obtain rfl := Option.some.inj hs
    exact ⟨place, h.pos, h.distinct, h.spread, h.places, h.owned, h.orderly⟩

theorem Sound.thread_eq {l : Label n} (h : s.Sound) (hs : s.step l = some s')
    (hbusy : (s.threads i).pc ≠ .idle) (hl : l ≠ .step i) : s'.threads i = s.threads i := by
  cases l with
  | call j c =>
    simp only [State.step] at hs
    split_ifs at hs with hcall
    obtain rfl := Option.some.inj hs
    refine Function.update_of_ne ?_ _ _
    rintro rfl
    exact hbusy hcall.2.1
  | step j =>
    obtain ⟨-, x, hthreads, -⟩ := (h.effect_of_step hs).2.thread
    rw [hthreads]
    refine Function.update_of_ne ?_ _ _
    rintro rfl
    exact hl rfl
  | die j =>
    obtain rfl := Option.some.inj hs
    rfl

def InCell (s : State n) (i : Fin n) : Prop :=
  (s.threads i).pc = .idle ∧ ∃ idx, s.sharedOwners idx = (s.threads i).pid

theorem Climbing.insert_step (h : s.Climbing place) (hn : n ≤ 8)
    (hins : (s.threads i).pc.inserting ≠ none) (hs : s.advance i = some s') :
    s'.InCell i ∨
      (s'.threads i).pc.inserting ≠ none ∧ (s'.threads i).pc.left n < (s.threads i).pc.left n := by
  obtain ⟨k, hk⟩ := Option.ne_none_iff_exists'.mp hins
  have hlt := h.spread.lt (h.places i k hk)
  have hnone := h.not_recorded hk
  unfold State.advance at hs
  cases hpc : (s.threads i).pc with
  | insertLoad idx =>
    rw [hpc] at hk
    obtain rfl := Option.some.inj hk
    simp only [hpc] at hs
    obtain rfl := Option.some.inj hs
    unfold State.insertLoad
    rw [dif_pos (Nat.lt_of_lt_of_le hlt hn)]
    dsimp only
    refine .inr ?_
    split_ifs with hown htaken
    · exact absurd hown (hnone _)
    · rw [threads_setPc]
      refine ⟨Option.some_ne_none _, ?_⟩
      simp only [Pc.left]
      omega
    · rw [threads_setPc]
      refine ⟨Option.some_ne_none _, ?_⟩
      simp only [Pc.left]
      omega
  | insertCas idx =>
    rw [hpc] at hk
    obtain rfl := Option.some.inj hk
    simp only [hpc] at hs
    obtain rfl := Option.some.inj hs
    unfold State.insertCas
    split_ifs with hfree
    · refine .inl ⟨?_, idx, ?_⟩
      · simp [setThread]
      · simp [setThread, LocklessSet.store_self]
    · refine .inr ?_
      rw [threads_setPc]
      refine ⟨Option.some_ne_none _, ?_⟩
      simp only [Pc.left]
      omega
  | _ =>
    rw [hpc] at hk
    cases hk

/-- With at most eight processes of one thread each, none of which asks for the shared lock while
it has it: no process is in two cells, only as many cells are used as there are processes, and a
thread that has got the lock shared is back with its process recorded after two steps for each of
them, whatever the others do and whoever dies. -/
theorem readers_get_cells {pid : Fin n → Nat} (hpid : ∀ i, pid i ≠ 0)
    (hinj : Function.Injective pid) (hn : n ≤ 8) {labels : List (Label n)}
    (h : Machine.Run step Disciplined (new pid) labels s) :
    (∀ idx idx', s.sharedOwners idx ≠ 0 → s.sharedOwners idx = s.sharedOwners idx' → idx = idx') ∧
    (∀ idx, s.sharedOwners idx ≠ 0 → idx.val < n) ∧
    ∀ i, (s.threads i).pc.inserting ≠ none → ∀ ls s', Machine.Run step Disciplined s ls s' →
      2 * n ≤ ls.countP (Label.goes i) →
      ∃ ls₁ ls₂ t, ls = ls₁ ++ ls₂ ∧ Machine.run step s ls₁ = some t ∧ t.InCell i := by
  have hkept : ∀ (t : State n) l t', t.Sound ∧ (∃ place, t.Climbing place) → t.Disciplined l →
      t.step l = some t' → t'.Sound ∧ ∃ place, t'.Climbing place := by
    rintro t l t' ⟨hsound, place, ht⟩ hl hs
    exact ⟨hsound.step hs, ht.step hn hl hs⟩
  obtain ⟨hsound, place, hclimbing⟩ := h.invariant (fun t => t.Sound ∧ ∃ place, t.Climbing place)
    ⟨Sound.new hpid, _, climbing_new hpid hinj⟩ hkept
  refine ⟨?_, ?_, ?_⟩
  · intro idx idx' hidx heq
    obtain ⟨i, hi, -⟩ := hclimbing.owned idx hidx
    exact hclimbing.cell_inj hi (heq ▸ hi)
  · intro idx hidx
    obtain ⟨i, -, hplace⟩ := hclimbing.owned idx hidx
    exact hclimbing.spread.lt hplace
  · intro i hins ls s' hmore hturns
    have hstep : ∀ (t : State n) l t', ((t.Sound ∧ ∃ place, t.Climbing place) ∧
        (t.threads i).pc.inserting ≠ none) → ¬ t.InCell i → t.Disciplined l → t.step l = some t' →
        t'.InCell i ∨ ((t'.Sound ∧ ∃ place, t'.Climbing place) ∧
          (t'.threads i).pc.inserting ≠ none) ∧
          (t'.threads i).pc.left n ≤ (t.threads i).pc.left n - if l.goes i then 1 else 0 := by
      rintro t l t' ⟨hinv, hbusy⟩ - hl hs
      have hinv' := hkept t l t' hinv hl hs
      obtain ⟨hsound, place, ht⟩ := hinv
      by_cases hgo : l.goes i = true
      · obtain rfl : l = .step i := by
          cases l <;> simp_all [Label.goes]
        simp only [step] at hs
        split_ifs at hs
        rcases ht.insert_step hn hbusy hs with hdone | ⟨hnext, hlt⟩
        · exact .inl hdone
        · exact .inr ⟨⟨hinv', hnext⟩, by rw [if_pos hgo]; omega⟩
      · have hsame : t'.threads i = t.threads i := by
          refine hsound.thread_eq hs (fun hidle => hbusy (by rw [hidle]; rfl)) ?_
          rintro rfl
          simp [Label.goes] at hgo
        rw [if_neg hgo, hsame]
        exact .inr ⟨⟨hinv', hbusy⟩, Nat.le_refl _⟩
    rcases until_done _ (fun t => t.InCell i) (Label.goes i) (fun t => (t.threads i).pc.left n)
      hstep ⟨⟨hsound, place, hclimbing⟩, hins⟩ hmore with hdone | ⟨⟨⟨-, place', hlast⟩, hins'⟩, hle⟩
    · exact hdone
    · obtain ⟨k, hk⟩ := Option.ne_none_iff_exists'.mp hins'
      have hpos := Pc.left_pos hk (hlast.spread.lt (hlast.places i k hk))
      have hmax := (s.threads i).pc.left_le n
      omega

def raceLabels : List (Label 2) :=
  [.call 0 (.acquire .lockSharable), .step 0, .call 1 (.acquire .lockSharable), .step 1]

theorem readers_get_cells_race : ∃ s s' : State 2,
    Machine.Run step Disciplined (new fun i => i.val + 1) raceLabels s ∧
    Machine.Run step Disciplined s [.step 1, .step 0, .step 0, .step 1, .step 1, .step 1] s' ∧
    ∃ ls₁ ls₂ t, [.step 1, .step 0, .step 0, .step 1, .step 1, .step 1] = ls₁ ++ ls₂ ∧
      Machine.run step s ls₁ = some t ∧ t.InCell 1 := by
  have hcheck : ∀ (s : State 2) l, decide (s.Disciplined l) = true → s.Disciplined l :=
    fun _ _ => of_decide_eq_true
  obtain ⟨s, hs, hpc, s', hs'⟩ : ∃ s : State 2,
      Machine.runIf step (fun s l => decide (s.Disciplined l)) (new fun i => i.val + 1) raceLabels =
        some s ∧ (s.threads 1).pc = .insertLoad 0 ∧
      ∃ s', Machine.runIf step (fun s l => decide (s.Disciplined l)) s
        [.step 1, .step 0, .step 0, .step 1, .step 1, .step 1] = some s' := by
    have hrun : ((Machine.runIf step (fun s l => decide (s.Disciplined l))
        (new fun i : Fin 2 => i.val + 1) raceLabels).map fun s => ((s.threads 1).pc,
          (Machine.runIf step (fun s l => decide (s.Disciplined l)) s
            [.step 1, .step 0, .step 0, .step 1, .step 1, .step 1]).isSome)) =
        some (.insertLoad 0, true) := by decide +kernel
    obtain ⟨s, hs, heq⟩ := Option.map_eq_some_iff.mp hrun
    obtain ⟨hpc, hsome⟩ := Prod.mk.inj heq
    exact ⟨s, hs, hpc, Option.isSome_iff_exists.mp hsome⟩
  have hrun := Machine.Run.of_runIf hcheck hs
  have hmore := Machine.Run.of_runIf hcheck hs'
  have hinj : Function.Injective fun i : Fin 2 => i.val + 1 :=
    fun i j hij => Fin.ext (Nat.succ.inj hij)
  obtain ⟨-, -, hreturns⟩ := readers_get_cells (fun i => Nat.succ_ne_zero i.val) hinj (by decide) hrun
  exact ⟨s, s', hrun, hmore, hreturns 1 (by rw [hpc]; nofun) _ s' hmore (by decide)⟩

end State

end Shadesmar.Concurrency.RobustLock
