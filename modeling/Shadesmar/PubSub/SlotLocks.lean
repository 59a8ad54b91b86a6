import Shadesmar.PubSub.Interleaving

namespace Shadesmar.PubSub.Interleaving

open Library Library.Tally Shadesmar.Memory Shadesmar.Concurrency

def WritePc.slot : WritePc → Option (Fin queueSize)
  | .readOld _ q _ => some q
  | .setHandle _ q _ _ => some q
  | .setSize _ q _ => some q
  | .setEmpty _ q _ => some q
  | .unlock _ q _ => some q
  | _ => none

def ReadPc.slot : ReadPc → Option (Fin queueSize)
  | .readCounter held => some held
  | .jumpahead held => some held
  | .readEmpty held _ => some held
  | .readHandle held _ => some held
  | .readSize held _ _ => some held
  | .copy held _ _ _ _ => some held
  | .unlock held _ _ => some held
  | _ => none

def Reader.slot (r : Reader) : Option (Fin queueSize) := r.pc.slot

namespace World

variable {n m : Nat} {s s' : World n m}

theorem stepPub_locks {i : Fin n} (hs : s.stepPub i = some s') :
    s'.subs = s.subs ∧ ∃ pc, s'.pubs = Function.update s.pubs i pc ∧
      ((s'.locks = s.locks ∧ pc.slot = (s.pubs i).slot) ∨
      (∃ q l, (s.pubs i).slot = none ∧ pc.slot = some q ∧ (s.locks q).tryLock = some l ∧
        s'.locks = Function.update s.locks q l) ∨
      (∃ q, (s.pubs i).slot = some q ∧ pc.slot = none ∧
        s'.locks = Function.update s.locks q (s.locks q).unlock)) := by
  unfold stepPub at hs
  cases hpc : s.pubs i with
  | idle =>
    rw [hpc] at hs
    cases hs
  | aborted =>
    rw [hpc] at hs
    cases hs
  | checkMemory w =>
    simp only [hpc] at hs
    split_ifs at hs <;> obtain rfl := Option.some.inj hs <;> exact ⟨rfl, _, rfl, .inl ⟨rfl, rfl⟩⟩
  | alloc w q =>
    simp only [hpc] at hs
    split at hs <;> obtain rfl := Option.some.inj hs <;> exact ⟨rfl, _, rfl, .inl ⟨rfl, rfl⟩⟩
  | lock w q p =>
    simp only [hpc, Option.map_eq_some_iff] at hs
    obtain ⟨l, hl, rfl⟩ := hs
    exact ⟨rfl, _, rfl, .inr (.inl ⟨q, l, rfl, rfl, hl, rfl⟩)⟩
  | unlock w q old =>
    simp only [hpc] at hs
    obtain rfl := Option.some.inj hs
    exact ⟨rfl, _, rfl, .inr (.inr ⟨q, rfl, rfl, rfl⟩)⟩
  | free w old =>
    simp only [hpc] at hs
    split at hs
    · obtain rfl := Option.some.inj hs
      exact ⟨rfl, _, rfl, .inl ⟨rfl, rfl⟩⟩
    · obtain rfl := Option.some.inj hs
      exact ⟨rfl, s.pubs i, (Function.update_eq_self i s.pubs).symm, .inl ⟨rfl, by rw [hpc]⟩⟩
    · obtain rfl := Option.some.inj hs
      exact ⟨rfl, _, rfl, .inl ⟨rfl, rfl⟩⟩
  | readCounter w | copy w q p | readOld w q p | setHandle w q p old | setSize w q old
  | setEmpty w q old | incCounter w =>
    simp only [hpc] at hs
    obtain rfl := Option.some.inj hs
    exact ⟨rfl, _, rfl, .inl ⟨rfl, rfl⟩⟩

theorem stepSub_locks {alloc : Nat → Bool} {j : Fin m} (hs : s.stepSub alloc j = some s') :
    s'.topic = s.topic ∧ s'.calls = s.calls ∧ s'.accepted = s.accepted ∧ s'.pubs = s.pubs ∧
    ∃ r, s'.subs = Function.update s.subs j r ∧
      ((s'.locks = s.locks ∧ r.pc.slot = (s.subs j).pc.slot) ∨
      (∃ q l, (s.subs j).pc.slot = none ∧ r.pc.slot = some q ∧
        (s.locks q).tryLockSharable = some l ∧ s'.locks = Function.update s.locks q l) ∨
      (∃ q, (s.subs j).pc.slot = some q ∧ r.pc.slot = none ∧
        s'.locks = Function.update s.locks q (s.locks q).unlock)) := by
  unfold stepSub at hs
  cases hpc : (s.subs j).pc with
  | check | checkLag | readCounter held | readEmpty held fast =>
    simp only [hpc] at hs
    split_ifs at hs <;> obtain rfl := Option.some.inj hs <;>
      exact ⟨rfl, rfl, rfl, rfl, _, rfl, .inl ⟨rfl, rfl⟩⟩
  | returned fast memblock =>
    simp only [hpc] at hs
    split_ifs at hs <;> obtain rfl := Option.some.inj hs <;>
      exact ⟨rfl, rfl, rfl, rfl, _, rfl, .inl ⟨rfl, rfl⟩⟩
  | lockSharable =>
    simp only [hpc, Option.map_eq_some_iff] at hs
    obtain ⟨l, hl, rfl⟩ := hs
    exact ⟨rfl, rfl, rfl, rfl, _, rfl, .inr (.inl ⟨_, l, rfl, rfl, hl, rfl⟩)⟩
  | copy held fast handle size got =>
    simp only [hpc] at hs
    split_ifs at hs <;> obtain rfl := Option.some.inj hs <;>
      exact ⟨rfl, rfl, rfl, rfl, _, rfl, .inl ⟨rfl, rfl⟩⟩
  | unlock held fast result =>
    simp only [hpc] at hs
    cases result <;> obtain rfl := Option.some.inj hs <;>
      exact ⟨rfl, rfl, rfl, rfl, _, rfl, .inr (.inr ⟨held, rfl, rfl, rfl⟩)⟩
  | idle | jump | jumpahead held | readHandle held fast | readSize held fast handle =>
    simp only [hpc] at hs
    obtain rfl := Option.some.inj hs
    exact ⟨rfl, rfl, rfl, rfl, _, rfl, .inl ⟨rfl, rfl⟩⟩

def LocksSound (s : World n m) : Prop :=
  ∀ q, (s.locks q).Counts (total (holding WritePc.slot q) s.pubs)
    (total (holding Reader.slot q) s.subs)

theorem locksSound_new (heapBase bufferSize : Nat) :
    (new heapBase bufferSize : World n m).LocksSound := by
  intro q
  have hp : total (holding WritePc.slot q) (new heapBase bufferSize : World n m).pubs = 0 :=
    total_const_zero _ rfl
  have hr : total (holding Reader.slot q) (new heapBase bufferSize : World n m).subs = 0 :=
    total_const_zero _ rfl
  rw [hp, hr]
  exact .free

theorem LocksSound.stepPub {i : Fin n} (h : s.LocksSound) (hs : s.stepPub i = some s') :
    s'.LocksSound := by
  obtain ⟨hsubs, pc, hpubs, hlocks⟩ := stepPub_locks hs
  intro q
  have hq := h q
  rw [hsubs, hpubs]
  rcases hlocks with ⟨hlocks, hslot⟩ | ⟨q₀, l, hnone, hsome, hlock, hlocks⟩ | ⟨q₀, hsome, hnone, hlocks⟩
  · rw [hlocks, total_keep _ hslot]
    exact hq
  · rw [hlocks, total_take _ hnone hsome]
    by_cases hqq : q = q₀
    · subst hqq
      obtain ⟨hw, hr, hl⟩ := hq.tryLock hlock
      rw [Function.update_self, if_pos rfl, hw, hr]
      exact hl
    · rw [Function.update_of_ne hqq, if_neg hqq]
      exact hq
  · rw [total_give _ hsome hnone] at hq
    rw [hlocks]
    by_cases hqq : q = q₀
    · subst hqq
      rw [if_pos rfl] at hq
      rw [Function.update_self]
      exact hq.unlock
    · rw [if_neg hqq] at hq
      rw [Function.update_of_ne hqq]
      exact hq

theorem LocksSound.stepSub {alloc : Nat → Bool} {j : Fin m} (h : s.LocksSound)
    (hs : s.stepSub alloc j = some s') : s'.LocksSound := by
  obtain ⟨-, -, -, hpubs, r, hsubs, hlocks⟩ := stepSub_locks hs
  intro q
  have hq := h q
  rw [hsubs, hpubs]
  rcases hlocks with ⟨hlocks, hslot⟩ | ⟨q₀, l, hnone, hsome, hlock, hlocks⟩ | ⟨q₀, hsome, hnone, hlocks⟩
  · rw [hlocks, total_keep Reader.slot hslot]
    exact hq
  · rw [hlocks, total_take Reader.slot hnone hsome]
    by_cases hqq : q = q₀
    · subst hqq
      obtain ⟨hw, hl⟩ := hq.tryLockSharable hlock
      rw [Function.update_self, if_pos rfl, hw]
      exact hl
    · rw [Function.update_of_ne hqq, if_neg hqq]
      exact hq
  · rw [total_give Reader.slot hsome hnone] at hq
    rw [hlocks]
    by_cases hqq : q = q₀
    · subst hqq
      rw [if_pos rfl] at hq
      rw [Function.update_self]
      exact hq.unlock_sharable
    · rw [if_neg hqq] at hq
      rw [Function.update_of_ne hqq]
      exact hq

theorem LocksSound.start {i : Fin n} {memblock : Memblock} (h : s.LocksSound)
    (hs : s.start i memblock = some s') : s'.LocksSound := by
  obtain ⟨hidle, -, rfl⟩ := start_some hs
  intro q
  have hslot : WritePc.slot (.checkMemory ⟨s.calls.length, memblock⟩) = (s.pubs i).slot := by
    rw [hidle]
    rfl
  have hkeep := total_keep _ hslot q
  have hq := h q
  rw [← hkeep] at hq
  exact hq

theorem LocksSound.step {alloc : Nat → Bool} {l : Label n m} (h : s.LocksSound)
    (hs : s.step alloc l = some s') : s'.LocksSound := by
  cases l with
  | write i memblock => exact h.start hs
  | publisher i => exact h.stepPub hs
  | subscriber j => exact h.stepSub hs

theorem LocksSound.not_held (h : s.LocksSound) {q : Fin queueSize} {l : RwLock}
    (hl : (s.locks q).tryLock = some l) (j : Fin m) : (s.subs j).slot ≠ some q := by
  intro hj
  have hpos := total_pos Reader.slot hj
  have hzero := ((h q).tryLock hl).2.1
  omega

end World

end Shadesmar.PubSub.Interleaving
