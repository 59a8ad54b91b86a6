import Shadesmar.PubSub.Publishing

namespace Shadesmar.PubSub.Interleaving

open Library Shadesmar.Memory Shadesmar.Concurrency

def WritePc.rank : WritePc → Nat
  | .idle => 0
  | .checkMemory _ => 12
  | .readCounter _ => 11
  | .alloc .. => 10
  | .copy .. => 9
  | .lock .. => 8
  | .readOld .. => 7
  | .setHandle .. => 6
  | .setSize .. => 5
  | .setEmpty .. => 4
  | .unlock .. => 3
  | .free .. => 2
  | .incCounter _ => 1
  | .aborted => 0

theorem WritePc.rank_le (pc : WritePc) : pc.rank ≤ 12 := by
  cases pc <;> simp [rank]

def Label.isPublisher {n m : Nat} (i : Fin n) : Label n m → Bool
  | .publisher k => k = i
  | _ => false

namespace World

variable {n m : Nat} {s s' : World n m} {hist : List Entry} {v : Stages} {i : Fin n}
variable {bufferSize : Nat} {alloc : Nat → Bool}

theorem Sound.busy_of_active (h : s.Sound bufferSize hist v) (hi : (s.pubs i).active = true) :
    ∃ w r, s.Busy hist v i w r := by
  rcases h.stage with hq | ⟨k, w, r, hb⟩
  · rw [hq.idle i] at hi
    cases hi
  · obtain rfl : i = k := by
      by_contra hne
      rw [hb.others i hne] at hi
      cases hi
    exact ⟨w, r, hb⟩

theorem Sound.stepPub_rank (h : s.Sound bufferSize hist v) (hs : s.stepPub i = some s') :
    ∃ pc, s'.pubs = Function.update s.pubs i pc ∧ pc ≠ .aborted ∧ pc.rank < (s.pubs i).rank := by
  unfold stepPub at hs
  cases hpc : s.pubs i with
  | idle | aborted =>
    rw [hpc] at hs
    cases hs
  | checkMemory w =>
    simp only [hpc] at hs
    split_ifs at hs <;> obtain rfl := Option.some.inj hs
    · exact ⟨_, rfl, nofun, by simp [WritePc.rank]⟩
    · exact ⟨_, rfl, nofun, by simp [WritePc.rank]⟩
  | alloc w q =>
    obtain ⟨-, hfilled, -⟩ := h.books.jobs i w (by rw [hpc]; rfl)
    have hlen : w.memblock.bytes.length = w.memblock.size := hfilled
    have hchecked := h.checked i
    rw [hpc] at hchecked
    have halloc := Window.alloc h.window w.memblock.bytes (by rw [hlen, h.size]; exact hchecked)
    rw [hlen] at halloc
    simp only [hpc] at hs
    rcases halloc with hnone | ⟨b, t, hsome, -⟩
    · simp only [hnone] at hs
      obtain rfl := Option.some.inj hs
      exact ⟨_, rfl, nofun, by simp [WritePc.rank]⟩
    · simp only [hsome] at hs
      obtain rfl := Option.some.inj hs
      exact ⟨_, rfl, nofun, by simp [WritePc.rank]⟩
  | lock w q p =>
    simp only [hpc, Option.map_eq_some_iff] at hs
    obtain ⟨l, -, rfl⟩ := hs
    exact ⟨_, rfl, nofun, by simp [WritePc.rank]⟩
  | free w old =>
    obtain ⟨w', r, hb⟩ := h.busy_of_active (i := i) (by rw [hpc]; rfl)
    have hv := hb.stages
    have hknows := hb.knows
    have hw := h.window
    rw [hpc] at hv hknows
    subst hv
    obtain rfl : old = _ := hknows
    -- the block that the slot named before is the oldest one
    obtain ⟨t, hfree, -⟩ := Window.free hw
    simp only [hpc, hfree] at hs
    obtain rfl := Option.some.inj hs
    exact ⟨_, rfl, nofun, by simp [WritePc.rank]⟩
  | readCounter w | copy w q p | readOld w q p | setHandle w q p old | setSize w q old
  | setEmpty w q old | unlock w q old | incCounter w =>
    simp only [hpc] at hs
    obtain rfl := Option.some.inj hs
    exact ⟨_, rfl, nofun, by simp [WritePc.rank]⟩

theorem Sound.waits_for_reader (h : s.Sound bufferSize hist v) (hl : s.LocksSound)
    (hs : s.stepPub i = none) (hactive : s.pubs i ≠ .idle) (habort : s.pubs i ≠ .aborted) :
    ∃ w q p j, s.pubs i = .lock w q p ∧ (s.subs j).slot = some q := by
  unfold stepPub at hs
  cases hpc : s.pubs i with
  | idle => exact absurd hpc hactive
  | aborted => exact absurd hpc habort
  | lock w q p =>
    simp only [hpc, Option.map_eq_none_iff] at hs
    obtain ⟨w', r, hb⟩ := h.busy_of_active (i := i) (by rw [hpc]; rfl)
    have hwriter : Tally.total (Tally.holding WritePc.slot q) s.pubs = 0 := by
      rw [Tally.total_eq_zero]
      intro k
      refine if_neg fun hk => ?_
      by_cases hki : k = i
      · rw [hki, hpc] at hk
        cases hk
      · have hidle := hb.others k hki
        cases hkpc : s.pubs k <;> rw [hkpc] at hk hidle <;> first | cases hk; done | cases hidle
    have hfree : (s.locks q).writer = false := by
      have hcount := (hl q).writer
      rw [hwriter] at hcount
      cases hw : (s.locks q).writer with
      | false => rfl
      | true => simp [hw] at hcount
    have hreaders : 0 < Tally.total (Tally.holding Reader.slot q) s.subs := by
      rw [← (hl q).readers, Nat.pos_iff_ne_zero]
      intro hzero
      simp [RwLock.tryLock, hfree, hzero] at hs
    obtain ⟨j, hj⟩ := Tally.exists_of_total_pos _ hreaders
    exact ⟨w, q, p, j, rfl, hj⟩
  | checkMemory w =>
    simp only [hpc] at hs
    split_ifs at hs
  | alloc w q | free w old =>
    simp only [hpc] at hs
    split at hs <;> cases hs
  | readCounter w | copy w q p | readOld w q p | setHandle w q p old | setSize w q old
  | setEmpty w q old | unlock w q old | incCounter w =>
    simp only [hpc] at hs
    cases hs

theorem step_pubs {l : Label n m} (hs : s.step alloc l = some s')
    (hwrite : ∀ msg, l ≠ .write i msg) (hgo : l.isPublisher i = false) :
    s'.pubs i = s.pubs i := by
  cases l with
  | write k msg =>
    obtain ⟨-, -, rfl⟩ := start_some hs
    refine Function.update_of_ne ?_ _ _
    rintro rfl
    exact hwrite msg rfl
  | publisher k =>
    obtain ⟨-, pc, hpubs, -⟩ := stepPub_locks hs
    have hki : i ≠ k := by
      rintro rfl
      simp [Label.isPublisher] at hgo
    rw [hpubs, Function.update_of_ne hki]
  | subscriber j =>
    obtain ⟨-, -, -, hpubs, -⟩ := stepSub_locks hs
    rw [hpubs]

theorem Sound.step_rank {l : Label n m} (h : s.Sound bufferSize hist v)
    (hs : s.step alloc l = some s') (hwrite : ∀ msg, l ≠ .write i msg) :
    (s'.pubs i).rank + (if l.isPublisher i then 1 else 0) ≤ (s.pubs i).rank := by
  by_cases hgo : l.isPublisher i = true
  · obtain ⟨k, rfl, rfl⟩ : ∃ k, l = .publisher k ∧ k = i := by
      cases l <;> simp_all [Label.isPublisher]
    obtain ⟨pc, hpubs, -, hlt⟩ := h.stepPub_rank hs
    rw [if_pos hgo, hpubs, Function.update_self]
    exact hlt
  · rw [if_neg hgo, step_pubs hs hwrite (by simpa using hgo)]
    exact Nat.le_refl _

theorem Sound.step_aborted {l : Label n m} (h : s.Sound bufferSize hist v)
    (hs : s.step alloc l = some s') (hold : ∀ i, s.pubs i ≠ .aborted) (i : Fin n) :
    s'.pubs i ≠ .aborted := by
  cases l with
  | write k msg =>
    obtain ⟨-, -, rfl⟩ := start_some hs
    by_cases hk : i = k
    · subst hk
      simp [setPub]
    · simpa only [setPub, Function.update_of_ne hk] using hold i
  | publisher k =>
    obtain ⟨pc, hpubs, hpc, -⟩ := h.stepPub_rank hs
    rw [hpubs]
    by_cases hk : i = k
    · subst hk
      simpa only [Function.update_self] using hpc
    · simpa only [Function.update_of_ne hk] using hold i
  | subscriber j =>
    obtain ⟨-, -, -, hpubs, -⟩ := stepSub_locks hs
    rw [hpubs]
    exact hold i

section Runs

variable {heapBase : Nat} {labels ls : List (Label n m)}

theorem not_aborted (hdvd : 4 ∣ bufferSize) (hle : 8 ≤ bufferSize) (hlim : bufferSize + 1 < 2 ^ 32)
    (hspace : heapBase + bufferSize ≤ 2 ^ 64)
    (h : Machine.Run (step alloc) Exclusive (new heapBase bufferSize) labels s)
    (hlt : s.accepted.length < 2 ^ 32) : ∀ i, s.pubs i ≠ .aborted := by
  induction h with
  | nil => exact fun i => nofun
  | snoc hpre _ hs ih =>
    have hlt' := Nat.lt_of_le_of_lt (accepted_le hs) hlt
    obtain ⟨-, hist, v, hsound⟩ := sound_of_run hdvd hle hlim hspace hpre hlt'
    exact hsound.step_aborted hs (ih hlt')

theorem publisher_steps_le (hdvd : 4 ∣ bufferSize) (hle : 8 ≤ bufferSize)
    (hlim : bufferSize + 1 < 2 ^ 32) (hspace : heapBase + bufferSize ≤ 2 ^ 64)
    (h : Machine.Run (step alloc) Exclusive (new heapBase bufferSize) labels s)
    (hmore : Machine.Run (step alloc) Exclusive s ls s') (hlt : s'.accepted.length < 2 ^ 32)
    (hwrite : ∀ msg, .write i msg ∉ ls) :
    (s'.pubs i).rank + ls.countP (Label.isPublisher i) ≤ (s.pubs i).rank := by
  induction hmore with
  | nil => exact Nat.le_refl _
  | @snoc ls t l t' hpre hok hs ih =>
    have hlt' := Nat.lt_of_le_of_lt (accepted_le hs) hlt
    obtain ⟨-, hist, v, hsound⟩ := sound_of_run hdvd hle hlim hspace (h.trans hpre) hlt'
    have hprev := ih hlt' fun msg hmem => hwrite msg (List.mem_append_left _ hmem)
    have hnext := hsound.step_rank (i := i) hs fun msg hl =>
      hwrite msg (hl ▸ List.mem_append_right _ List.mem_cons_self)
    rw [List.countP_append, List.countP_singleton]
    omega

/-- `write` returns: as long as publishers respect the exclusion, no call of it aborts, each
takes at most twelve steps, whatever the other threads do meanwhile, and where it cannot take
the next one a subscriber holds the lock of its slot. -/
theorem write_returns (hdvd : 4 ∣ bufferSize) (hle : 8 ≤ bufferSize)
    (hlim : bufferSize + 1 < 2 ^ 32) (hspace : heapBase + bufferSize ≤ 2 ^ 64)
    (h : Machine.Run (step alloc) Exclusive (new heapBase bufferSize) labels s)
    (hlt : s.accepted.length < 2 ^ 32) (i : Fin n) :
    s.pubs i ≠ .aborted ∧
    (s.stepPub i = none → s.pubs i ≠ .idle →
      ∃ w q p j, s.pubs i = .lock w q p ∧ (s.subs j).slot = some q) ∧
    ∀ ls s', Machine.Run (step alloc) Exclusive s ls s' → s'.accepted.length < 2 ^ 32 →
      (∀ msg, .write i msg ∉ ls) → ls.countP (Label.isPublisher i) ≤ 12 := by
  have habort := not_aborted hdvd hle hlim hspace h hlt i
  obtain ⟨hlocks, hist, v, hsound⟩ := sound_of_run hdvd hle hlim hspace h hlt
  refine ⟨habort, fun hs hidle => hsound.waits_for_reader hlocks hs hidle habort, ?_⟩
  intro ls s' hmore hlt' hwrite
  have hsteps := publisher_steps_le hdvd hle hlim hspace h hmore hlt' hwrite
  have hrank := (s.pubs i).rank_le
  omega

theorem write_returns_second : ∃ s : World 2 0,
    Machine.runIf (step fun _ => true) alone (new 4096 64) (.write 0 (.ofData [1]) ::
      List.replicate 12 (.publisher 0) ++ .write 1 (.ofData [2]) ::
      List.replicate 5 (.publisher 1)) = some s ∧ s.pubs 1 ≠ .aborted ∧ (s.stepPub 1).isSome := by
  obtain ⟨s, hs, haccepted, hpc⟩ : ∃ s : World 2 0,
      Machine.runIf (step fun _ => true) alone (new 4096 64) (.write 0 (.ofData [1]) ::
        List.replicate 12 (.publisher 0) ++ .write 1 (.ofData [2]) ::
        List.replicate 5 (.publisher 1)) = some s ∧ s.accepted = [0] ∧
      s.pubs 1 = .readOld ⟨1, .ofData [2]⟩ (qPos 1) 4108 := by
    have hrun : (Machine.runIf (step fun _ => true) alone (new 4096 64 : World 2 0)
        (.write 0 (.ofData [1]) :: List.replicate 12 (.publisher 0) ++
          .write 1 (.ofData [2]) :: List.replicate 5 (.publisher 1))).map
            (fun s => (s.accepted, s.pubs 1)) =
        some ([0], .readOld ⟨1, .ofData [2]⟩ (qPos 1) 4108) := by decide +kernel
    simpa [Option.map_eq_some_iff] using hrun
  have hrun := Machine.Run.of_runIf exclusive_of_alone hs
  obtain ⟨habort, hwait, -⟩ := write_returns (by decide) (by decide) (by decide) (by decide) hrun
    (by rw [haccepted]; decide) 1
  refine ⟨s, hs, habort, Option.isSome_iff_ne_none.mpr fun hnone => ?_⟩
  obtain ⟨w, q, p, j, -⟩ := hwait hnone (by rw [hpc]; nofun)
  exact j.elim0

end Runs

end World

end Shadesmar.PubSub.Interleaving
