import Shadesmar.PubSub.Overtaking

namespace Shadesmar.PubSub.Interleaving

open Library Library.Progress Shadesmar.Memory Shadesmar.Concurrency

def Reader.left (bound : Nat) (r : Reader) : Nat :=
  match r.pc with
  | .idle => 0
  | .check => bound + 12
  | .checkLag => bound + 11
  | .jump => bound + 10
  | .lockSharable => bound + 9
  | .readCounter _ => bound + 8
  | .jumpahead _ => bound + 7
  | .readEmpty _ _ => bound + 6
  | .readHandle _ _ => bound + 5
  | .readSize _ _ _ => bound + 4
  | .copy _ _ _ size got => size - got.length + 3
  | .unlock _ _ _ => 2
  | .returned _ _ => 1

theorem Reader.idle_of_left {bound : Nat} {r : Reader} (h : r.left bound = 0) : r.pc = .idle := by
  unfold Reader.left at h
  cases hpc : r.pc with
  | idle => rfl
  | _ =>
    rw [hpc] at h
    simp at h

def Label.isSubscriber {n m : Nat} (j : Fin m) : Label n m → Bool
  | .subscriber k => k = j
  | _ => false

namespace World

variable {n m : Nat} {alloc : Nat → Bool} {s s' : World n m}

def HeldByRunner (alloc : Nat → Bool) (s : World n m) (q : Fin queueSize) : Prop :=
  (∃ i, (s.pubs i).slot = some q ∧ (s.stepPub i).isSome = true) ∨
  ∃ j, (s.subs j).slot = some q ∧ (s.stepSub alloc j).isSome = true

theorem stepPub_of_slot {i : Fin n} {q : Fin queueSize} (h : (s.pubs i).slot = some q) :
    (s.stepPub i).isSome = true := by
  unfold stepPub
  cases hpc : s.pubs i with
  | readOld w q' p | setHandle w q' p old | setSize w q' old | setEmpty w q' old
  | unlock w q' old => rfl
  | _ =>
    rw [hpc] at h
    cases h

theorem stepSub_of_ne (halloc : ∀ n, alloc n = true) {j : Fin m}
    (h : (s.subs j).pc ≠ .lockSharable) : (s.stepSub alloc j).isSome = true := by
  unfold stepSub
  cases hpc : (s.subs j).pc with
  | lockSharable => exact absurd hpc h
  | unlock held fast result => cases result <;> rfl
  | check | checkLag | readCounter held | readEmpty held fast | returned fast memblock =>
    simp only
    split_ifs <;> rfl
  | copy held fast handle size got =>
    simp only [halloc, if_true]
    split_ifs <;> rfl
  | idle | jump | jumpahead held | readHandle held fast | readSize held fast handle => rfl

theorem heldByRunner_of_pub {i : Fin n} {q : Fin queueSize} (h : (s.pubs i).slot = some q) :
    s.HeldByRunner alloc q := .inl ⟨i, h, stepPub_of_slot h⟩

theorem heldByRunner_of_sub (halloc : ∀ n, alloc n = true) {j : Fin m} {q : Fin queueSize}
    (h : (s.subs j).slot = some q) : s.HeldByRunner alloc q := by
  refine .inr ⟨j, h, stepSub_of_ne halloc fun hpc => ?_⟩
  unfold Reader.slot at h
  rw [hpc] at h
  cases h

theorem LocksSound.heldByRunner (h : s.LocksSound) (halloc : ∀ n, alloc n = true)
    {q : Fin queueSize} (htaken : s.locks q ≠ .free) : s.HeldByRunner alloc q := by
  obtain ⟨hreaders, hwriter, -⟩ := h q
  cases hw : (s.locks q).writer with
  | true =>
    rw [hw, if_pos rfl] at hwriter
    obtain ⟨i, hi⟩ := Tally.exists_of_total_pos WritePc.slot (hwriter ▸ Nat.one_pos)
    exact heldByRunner_of_pub hi
  | false =>
    have hpos : (s.locks q).readers ≠ 0 := fun hzero => htaken (RwLock.ext hw hzero)
    rw [hreaders] at hpos
    obtain ⟨j, hj⟩ := Tally.exists_of_total_pos Reader.slot (Nat.pos_of_ne_zero hpos)
    exact heldByRunner_of_sub halloc hj

theorem locksSound_of_run {heapBase bufferSize : Nat} {labels : List (Label n m)}
    (h : Machine.run (step alloc) (new heapBase bufferSize) labels = some s) : s.LocksSound :=
  (Machine.Run.of_run h).invariant LocksSound (locksSound_new heapBase bufferSize)
    fun _ _ _ ht _ hs => ht.step hs

/-- Any numbers of publishers and subscribers, in any interleaving, never wait for each other in
a ring: a thread that cannot take its next step waits for the lock of a slot, and a thread that
holds this lock can take its own. -/
theorem lock_holders_go_on (halloc : ∀ n, alloc n = true) {heapBase bufferSize : Nat}
    {labels : List (Label n m)}
    (h : Machine.run (step alloc) (new heapBase bufferSize) labels = some s) :
    (∀ i, s.stepPub i = none → s.pubs i ≠ .idle → s.pubs i ≠ .aborted →
      ∃ w q p, s.pubs i = .lock w q p ∧ s.HeldByRunner alloc q) ∧
    ∀ j, s.stepSub alloc j = none →
      (s.subs j).pc = .lockSharable ∧ s.HeldByRunner alloc (qPos (s.subs j).counter) := by
  have hlocks := locksSound_of_run h
  constructor
  · intro i hs hidle habort
    unfold stepPub at hs
    cases hpc : s.pubs i with
    | idle => exact absurd hpc hidle
    | aborted => exact absurd hpc habort
    | lock w q p =>
      simp only [hpc, Option.map_eq_none_iff] at hs
      refine ⟨w, q, p, rfl, hlocks.heldByRunner halloc fun hfree => ?_⟩
      rw [hfree] at hs
      cases hs
    | checkMemory w =>
      simp only [hpc] at hs
      split_ifs at hs
    | alloc w q | free w old =>
      simp only [hpc] at hs
      split at hs <;> cases hs
    | _ =>
      simp only [hpc] at hs
      cases hs
  · intro j hs
    have hpc : (s.subs j).pc = .lockSharable := by
      by_contra hne
      have hsome := stepSub_of_ne halloc hne
      rw [hs] at hsome
      cases hsome
    refine ⟨hpc, hlocks.heldByRunner halloc fun hfree => ?_⟩
    unfold stepSub at hs
    simp only [hpc, hfree] at hs
    cases hs

theorem lock_holders_go_on_two : ∃ s : World 2 0,
    Machine.run (step fun _ => true) (new 4096 64) (.write 0 (.ofData [1]) ::
      List.replicate 5 (.publisher 0) ++ .write 1 (.ofData [2]) ::
      List.replicate 4 (.publisher 1)) = some s ∧ s.stepPub 1 = none ∧
    s.HeldByRunner (fun _ => true) (qPos 0) := by
  obtain ⟨s, hs, hpc, hwaits⟩ : ∃ s : World 2 0,
      Machine.run (step fun _ => true) (new 4096 64) (.write 0 (.ofData [1]) ::
        List.replicate 5 (.publisher 0) ++ .write 1 (.ofData [2]) ::
        List.replicate 4 (.publisher 1)) = some s ∧
      s.pubs 1 = .lock ⟨1, .ofData [2]⟩ (qPos 0) 4108 ∧ (s.stepPub 1).isSome = false := by
    have hrun : (Machine.run (step fun _ => true) (new 4096 64 : World 2 0)
        (.write 0 (.ofData [1]) :: List.replicate 5 (.publisher 0) ++
          .write 1 (.ofData [2]) :: List.replicate 4 (.publisher 1))).map
            (fun s => (s.pubs 1, (s.stepPub 1).isSome)) =
        some (.lock ⟨1, .ofData [2]⟩ (qPos 0) 4108, false) := by decide +kernel
    simpa [Option.map_eq_some_iff] using hrun
  have hnone : s.stepPub 1 = none := Option.not_isSome_iff_eq_none.mp (by simp [hwaits])
  obtain ⟨w, q, p, hlock, hheld⟩ := (lock_holders_go_on (fun _ => rfl) hs).1 1 hnone
    (by rw [hpc]; nofun) (by rw [hpc]; nofun)
  obtain ⟨-, rfl, -⟩ : _ ∧ qPos 0 = q ∧ _ := by simpa [hpc] using hlock
  exact ⟨s, hs, hnone, hheld⟩

section Calls

variable {bound : Nat} {j : Fin m}

theorem Fitting.stepSub_left (h : s.Fitting bound) (hs : s.stepSub alloc j = some s')
    (hcall : (s.subs j).pc ≠ .idle) :
    ∃ r, s'.subs = Function.update s.subs j r ∧ r.left bound < (s.subs j).left bound := by
  unfold stepSub at hs
  cases hpc : (s.subs j).pc with
  | idle => exact absurd hpc hcall
  | check | checkLag | readCounter held | readEmpty held fast | returned fast memblock =>
    simp only [hpc] at hs
    split_ifs at hs <;> obtain rfl := Option.some.inj hs <;>
      exact ⟨_, rfl, by simp [Reader.left, hpc]⟩
  | lockSharable =>
    simp only [hpc, Option.map_eq_some_iff] at hs
    obtain ⟨l, -, rfl⟩ := hs
    exact ⟨_, rfl, by simp [Reader.left, hpc]⟩
  | readSize held fast handle =>
    have hsize := h.elems (qPos (s.subs j).counter)
    simp only [hpc] at hs
    obtain rfl := Option.some.inj hs
    refine ⟨_, rfl, ?_⟩
    simp only [Reader.left, hpc, List.length_nil]
    omega
  | copy held fast handle size got =>
    simp only [hpc] at hs
    by_cases hmore : got.length < size
    · rw [if_pos hmore] at hs
      split_ifs at hs with halloc
      obtain rfl := Option.some.inj hs
      have hone : (s.topic.allocator.load (s.topic.allocator.handleToPtr handle + got.length) 1
          ).length = 1 := Bytes.length_read ..
      refine ⟨_, rfl, ?_⟩
      simp only [Reader.left, hpc, List.length_append, hone]
      omega
    · rw [if_neg hmore] at hs
      obtain rfl := Option.some.inj hs
      refine ⟨_, rfl, ?_⟩
      simp only [Reader.left, hpc]
      omega
  | unlock held fast result =>
    simp only [hpc] at hs
    cases result <;> obtain rfl := Option.some.inj hs <;>
      exact ⟨_, rfl, by simp [Reader.left, hpc]⟩
  | jump | jumpahead held | readHandle held fast =>
    simp only [hpc] at hs
    obtain rfl := Option.some.inj hs
    exact ⟨_, rfl, by simp [Reader.left, hpc]⟩

theorem Fitting.left_le (h : s.Fitting bound) (j : Fin m) : (s.subs j).left bound ≤ bound + 12 := by
  unfold Reader.left
  cases hpc : (s.subs j).pc with
  | copy held fast handle size got =>
    have hsize := h.copies j held fast handle size got hpc
    simp only
    omega
  | _ => simp

theorem step_subs {l : Label n m} (hs : s.step alloc l = some s')
    (hgo : l.isSubscriber j = false) : s'.subs j = s.subs j := by
  cases l with
  | write i msg =>
    obtain ⟨-, -, rfl⟩ := start_some hs
    rfl
  | publisher i =>
    obtain ⟨hsubs, -⟩ := stepPub_locks hs
    rw [hsubs]
  | subscriber k =>
    obtain ⟨-, -, -, -, r, hsubs, -⟩ := stepSub_locks hs
    have hne : j ≠ k := by
      rintro rfl
      simp [Label.isSubscriber] at hgo
    rw [hsubs, Function.update_of_ne hne]

theorem Fitting.step_left {l : Label n m} (h : s.Fitting bound) (hs : s.step alloc l = some s')
    (hcall : (s.subs j).pc ≠ .idle) :
    (s'.subs j).left bound ≤ (s.subs j).left bound - if l.isSubscriber j then 1 else 0 := by
  by_cases hgo : l.isSubscriber j = true
  · obtain ⟨k, rfl, rfl⟩ : ∃ k, l = .subscriber k ∧ k = j := by
      cases l <;> simp_all [Label.isSubscriber]
    obtain ⟨r, hsubs, hlt⟩ := h.stepSub_left hs hcall
    rw [if_pos hgo, hsubs, Function.update_self]
    exact Nat.le_sub_one_of_lt hlt
  · rw [if_neg hgo, step_subs hs (by simpa using hgo)]
    exact Nat.le_refl _

/-- `spin_once` returns: in any interleaving of any numbers of publishers and subscribers, one
that has had as many turns as the longest message has bytes, and twelve more, has returned in
between, whatever the others do meanwhile. -/
theorem spin_once_returns {heapBase bufferSize : Nat} {labels ls : List (Label n m)}
    (h : Machine.run (step alloc) (new heapBase bufferSize) labels = some s)
    (hmore : Machine.run (step alloc) s ls = some s')
    (hbound : ∀ i msg, .write i msg ∈ labels ++ ls → msg.size ≤ bound)
    (hturns : bound + 12 ≤ ls.countP (Label.isSubscriber j)) :
    ∃ ls₁ ls₂ t, ls = ls₁ ++ ls₂ ∧ Machine.run (step alloc) s ls₁ = some t ∧
      (t.subs j).pc = .idle := by
  have hfitting : s.Fitting bound := fitting_of_run (Machine.Run.of_run h) fun i msg hmem =>
    hbound i msg (List.mem_append_left ls hmem)
  have hrun : Machine.Run (step alloc) (fun _ l => ∀ i msg, l = .write i msg → msg.size ≤ bound)
      s ls s' := .of_labels hmore fun l hl _ i msg hwrite =>
    hbound i msg (List.mem_append_right labels (hwrite ▸ hl))
  rcases until_done (fun t => t.Fitting bound) (fun t => (t.subs j).pc = .idle)
    (Label.isSubscriber j) (fun t => (t.subs j).left bound)
    (fun t l t' ht hcall hok hs => .inr ⟨ht.step hok hs, ht.step_left hs hcall⟩) hfitting hrun
    with hdone | ⟨-, hle⟩
  · exact hdone
  · have hleft := hfitting.left_le j
    exact ⟨ls, [], s', (List.append_nil ls).symm, hmore,
      Reader.idle_of_left (show (s'.subs j).left bound = 0 by omega)⟩

theorem spin_once_returns_alone : ∃ s s' : World 1 1,
    Machine.run (step fun _ => true) (new 4096 64)
      (.write 0 (.ofData [1]) :: List.replicate 12 (.publisher 0) ++ [.subscriber 0]) = some s ∧
    Machine.run (step fun _ => true) s (List.replicate 13 (.subscriber 0)) = some s' ∧
    ∃ ls₁ ls₂ t, List.replicate 13 (.subscriber 0) = ls₁ ++ ls₂ ∧
      Machine.run (step fun _ => true) s ls₁ = some t ∧ (t.subs 0).pc = .idle := by
  obtain ⟨s, hs, s', hs'⟩ : ∃ s : World 1 1, Machine.run (step fun _ => true) (new 4096 64)
      (.write 0 (.ofData [1]) :: List.replicate 12 (.publisher 0) ++ [.subscriber 0]) = some s ∧
      ∃ s', Machine.run (step fun _ => true) s (List.replicate 13 (.subscriber 0)) = some s' := by
    have hrun : ((Machine.run (step fun _ => true) (new 4096 64 : World 1 1)
        (.write 0 (.ofData [1]) :: List.replicate 12 (.publisher 0) ++ [.subscriber 0])).bind
          fun s => Machine.run (step fun _ => true) s
            (List.replicate 13 (.subscriber 0))).isSome = true := by decide +kernel
    obtain ⟨s', hs'⟩ := Option.isSome_iff_exists.mp hrun
    obtain ⟨s, hs, hmore⟩ := Option.bind_eq_some_iff.mp hs'
    exact ⟨s, hs, s', hmore⟩
  have hbound : ∀ (i : Fin 1) msg, .write i msg ∈ (.write 0 (.ofData [1]) ::
      List.replicate 12 (.publisher 0) ++ [.subscriber 0] : List (Label 1 1)) ++
        List.replicate 13 (.subscriber 0) → msg.size ≤ 1 := by
    intro i msg hmem
    obtain ⟨-, rfl⟩ : i = 0 ∧ msg = .ofData [1] := by simpa using hmem
    decide
  exact ⟨s, s', hs, hs', spin_once_returns hs hs' hbound (by decide)⟩

end Calls

end World

end Shadesmar.PubSub.Interleaving
