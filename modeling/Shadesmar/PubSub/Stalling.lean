import Shadesmar.Library.Cyclic
import Shadesmar.PubSub.Liveness

namespace Shadesmar.PubSub.Interleaving

open Library Shadesmar.Memory

namespace World

variable {n m : Nat} {alloc : Nat → Bool} {s s' : World n m} {hist : List Entry} {v : Stages}
variable {bufferSize : Nat} {j : Fin m} {q : Fin queueSize}

theorem Sound.locked (h : s.Sound bufferSize hist v) :
    s.accepted.length ≤ v.locked ∧ v.locked ≤ s.accepted.length + 1 := by
  have hstages : ∀ (c : Nat) (pc : WritePc),
      c ≤ (pc.stages c).locked ∧ (pc.stages c).locked ≤ c + 1 := by
    intro c pc
    cases pc with
    | readOld | setHandle | setSize | setEmpty | unlock | free | incCounter =>
      exact ⟨Nat.le_succ c, Nat.le_refl (c + 1)⟩
    | _ => exact ⟨Nat.le_refl c, Nat.le_succ c⟩
  rcases h.stage with hquiet | ⟨i, w, r, hbusy⟩
  · rw [hquiet.stages]
    exact hstages _ _
  · rw [hbusy.stages]
    exact hstages _ _

structure Stalled (bufferSize : Nat) (s : World n m) (j : Fin m) (q : Fin queueSize) (k : Nat) :
    Prop where
  locks : s.LocksSound
  slot : (s.subs j).slot = some q
  sound : ∃ hist v, s.Sound bufferSize hist v ∧ v.locked ≤ k

theorem Stalled.step {k : Nat} {l : Label n m} (h : s.Stalled bufferSize j q k) (hk : qPos k = q)
    (hok : s.Exclusive l) (hlt : s'.accepted.length < 2 ^ 32) (hs : s.step alloc l = some s')
    (hdead : l ≠ .subscriber j) : s'.Stalled bufferSize j q k := by
  obtain ⟨hist, v, hsound, hle⟩ := h.sound
  obtain ⟨hist', v', hsound', hmoves⟩ := hsound.step h.locks hok hlt hs
  have hgo : l.isSubscriber j = false := by
    cases l with
    | subscriber i =>
      have hij : i ≠ j := fun heq => hdead (congrArg _ heq)
      simp [Label.isSubscriber, hij]
    | _ => rfl
  refine ⟨h.locks.step hs, by rw [step_subs hs hgo]; exact h.slot, hist', v', hsound', ?_⟩
  rcases hmoves.locked with hsame | ⟨hnext, hfree⟩
  · rw [hsame]
    exact hle
  · have hne : v.locked ≠ k := by
      rintro rfl
      exact hfree j (hk ▸ h.slot)
    omega

section Runs

variable {heapBase : Nat} {labels ls : List (Label n m)}

theorem stalled_of_run (hdvd : 4 ∣ bufferSize) (hle : 8 ≤ bufferSize)
    (hlim : bufferSize + 1 < 2 ^ 32) (hspace : heapBase + bufferSize ≤ 2 ^ 64)
    (h : Machine.Run (step alloc) Exclusive (new heapBase bufferSize) labels s)
    (hslot : (s.subs j).slot = some q) (hmore : Machine.Run (step alloc) Exclusive s ls s')
    (hlt : s'.accepted.length < 2 ^ 32) (hdead : .subscriber j ∉ ls) {k : Nat}
    (hk : s.accepted.length < k) (hq : qPos k = q) : s'.Stalled bufferSize j q k := by
  induction hmore with
  | nil =>
    obtain ⟨hlocks, hist, v, hsound⟩ := sound_of_run hdvd hle hlim hspace h hlt
    have hlocked := hsound.locked.2
    exact ⟨hlocks, hslot, hist, v, hsound, by omega⟩
  | snoc _ hok hs ih =>
    have hprev := ih (Nat.lt_of_le_of_lt (accepted_le hs) hlt)
      fun hmem => hdead (List.mem_append_left _ hmem)
    exact hprev.step hq hok hlt hs fun hl => hdead (hl ▸ List.mem_append_right _ List.mem_cons_self)

/-- A subscriber that dies inside `read` stops the topic: whatever the others do, the next message
for its slot, counted after the one in progress, is never accepted, nor is any after it, which
makes at most 1024 more, and a publisher that comes to the slot waits for ever. -/
theorem dead_reader_stops_topic (hdvd : 4 ∣ bufferSize) (hle : 8 ≤ bufferSize)
    (hlim : bufferSize + 1 < 2 ^ 32) (hspace : heapBase + bufferSize ≤ 2 ^ 64)
    (h : Machine.Run (step alloc) Exclusive (new heapBase bufferSize) labels s)
    (hslot : (s.subs j).slot = some q) (hmore : Machine.Run (step alloc) Exclusive s ls s')
    (hlt : s'.accepted.length < 2 ^ 32) (hdead : .subscriber j ∉ ls) :
    (∀ k, s.accepted.length < k → qPos k = q → s'.accepted.length ≤ k) ∧
    s'.accepted.length ≤ s.accepted.length + queueSize ∧
    ∀ i w p, s'.pubs i = .lock w q p → s'.stepPub i = none := by
  have hstalled : ∀ k, s.accepted.length < k → qPos k = q → s'.Stalled bufferSize j q k :=
    fun k hk hq => stalled_of_run hdvd hle hlim hspace h hslot hmore hlt hdead hk hq
  have hbound : ∀ k, s.accepted.length < k → qPos k = q → s'.accepted.length ≤ k := by
    intro k hk hq
    obtain ⟨hist, v, hsound, hlocked⟩ := (hstalled k hk hq).sound
    exact Nat.le_trans hsound.locked.1 hlocked
  -- the next message for the slot, counted from the one after the message in progress
  obtain ⟨k, hk, hfar, hq⟩ : ∃ k, s.accepted.length < k ∧ k ≤ s.accepted.length + queueSize ∧
      qPos k = q := by
    have hslots := Cyclic.steps_lt (qPos (s.accepted.length + 1)).isLt q.isLt
    refine ⟨s.accepted.length + 1 +
      Cyclic.steps queueSize (qPos (s.accepted.length + 1)).val q.val, by omega, by omega, ?_⟩
    rw [Fin.ext_iff, qPos_val, qPos_val]
    exact Cyclic.add_steps_mod q.isLt _
  refine ⟨hbound, Nat.le_trans (hbound k hk hq) hfar, ?_⟩
  intro i w p hpc
  have hst := hstalled k hk hq
  have hnone : (s'.locks q).tryLock = none := by
    refine Option.eq_none_iff_forall_ne_some.mpr fun l hl => ?_
    exact hst.locks.not_held hl j hst.slot
  simp only [stepPub, hpc, hnone]
  rfl

def deathLabels (i : Fin n) (j : Fin m) : List (Label n m) :=
  .write i (.ofData [1]) :: List.replicate 12 (.publisher i) ++ List.replicate 4 (.subscriber j)

def nextLabels (i : Fin n) : List (Label n m) :=
  .write i (.ofData [2]) :: List.replicate 12 (.publisher i)

theorem dead_reader_stops_topic_next : ∃ s s' : World 1 1,
    Machine.Run (step fun _ => true) Exclusive (new 4096 64) (deathLabels 0 0) s ∧
    Machine.Run (step fun _ => true) Exclusive s (nextLabels 0) s' ∧
    (s.subs 0).slot = some (qPos 0) ∧ s'.accepted.length = 2 ∧ s'.accepted.length ≤ 1024 := by
  obtain ⟨s, hs, hslot, hone, s', hs', hlen⟩ : ∃ s : World 1 1,
      Machine.runIf (step fun _ => true) alone (new 4096 64) (deathLabels 0 0) = some s ∧
      (s.subs 0).slot = some (qPos 0) ∧ s.accepted.length = 1 ∧
      ∃ s', Machine.runIf (step fun _ => true) alone s (nextLabels 0) = some s' ∧
        s'.accepted.length = 2 := by
    have hrun : (Machine.runIf (step fun _ => true) alone (new 4096 64 : World 1 1)
        (deathLabels 0 0)).map (fun s => ((s.subs 0).slot, s.accepted.length,
          (Machine.runIf (step fun _ => true) alone s (nextLabels 0)).map (·.accepted.length))) =
        some (some (qPos 0), 1, some 2) := by decide +kernel
    obtain ⟨s, hs, hvals⟩ := Option.map_eq_some_iff.mp hrun
    simp only [Prod.mk.injEq] at hvals
    exact ⟨s, hs, hvals.1, hvals.2.1, Option.map_eq_some_iff.mp hvals.2.2⟩
  have hrun := Machine.Run.of_runIf exclusive_of_alone hs
  have hmore := Machine.Run.of_runIf exclusive_of_alone hs'
  have hstops := (dead_reader_stops_topic (by decide) (by decide) (by decide) (by decide) hrun hslot
    hmore (by rw [hlen]; decide) (by simp [nextLabels])).1
  exact ⟨s, s', hrun, hmore, hslot, hlen, hstops 1024 (by rw [hone]; decide) (qPos_add 0)⟩

end Runs

end World

end Shadesmar.PubSub.Interleaving
