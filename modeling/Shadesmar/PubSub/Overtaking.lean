import Shadesmar.Library.Progress
import Shadesmar.PubSub.Lapping

namespace Shadesmar.PubSub.Interleaving

open Library Library.Progress Shadesmar.Memory Shadesmar.Concurrency

def Reader.rank (bound : Nat) (q : Fin queueSize) (r : Reader) : Nat :=
  match r.pc with
  | .lockSharable => if qPos r.counter = q then bound + 8 else 0
  | .readCounter held => if held = q then bound + 7 else 0
  | .jumpahead held => if held = q then bound + 6 else 0
  | .readEmpty held _ => if held = q then bound + 5 else 0
  | .readHandle held _ => if held = q then bound + 4 else 0
  | .readSize held _ _ => if held = q then bound + 3 else 0
  | .copy held _ _ size got => if held = q then size - got.length + 2 else 0
  | .unlock held _ _ => if held = q then 1 else 0
  | _ => 0

theorem Reader.rank_pos (bound : Nat) {q : Fin queueSize} {r : Reader} (h : r.slot = some q) :
    0 < r.rank bound q := by
  unfold Reader.slot ReadPc.slot at h
  unfold Reader.rank
  cases hpc : r.pc <;> rw [hpc] at h <;> first | cases h; done | skip
  all_goals
    obtain rfl := Option.some.inj h
    simp

def Reader.Follows (c : Nat) (r : Reader) : Prop :=
  match r.pc with
  | .checkLag => r.counter < c
  | .jump => queueSize ≤ c
  | _ => True

namespace World

variable {n m : Nat} {alloc : Nat → Bool} {bound : Nat}

section Awaits

variable {s s' : World 1 m} {j : Fin m} {q : Fin queueSize}

structure Awaits (bound : Nat) (q : Fin queueSize) (s : World 1 m) : Prop where
  waiting : ∃ w p, s.pubs 0 = .lock w q p
  slot : q = qPos s.accepted.length
  counter : s.topic.counter = s.accepted.length
  sizes : ∀ i, (s.topic.elem i).size ≤ bound
  locks : s.LocksSound
  subs : ∀ j, (s.subs j).Follows s.accepted.length

theorem Awaits.stepSub_rank (h : s.Awaits bound q) (hs : s.stepSub alloc j = some s') :
    ∃ r, s'.subs = Function.update s.subs j r ∧ r.Follows s.accepted.length ∧
      r.rank bound q ≤ (s.subs j).rank bound q - 1 := by
  have hcounter := h.counter
  have hfollows := h.subs j
  have hslot := h.slot
  unfold World.stepSub at hs
  cases hpc : (s.subs j).pc with
  | idle =>
    simp only [hpc] at hs
    obtain rfl := Option.some.inj hs
    exact ⟨_, rfl, trivial, by simp [Reader.rank]⟩
  | check =>
    simp only [hpc] at hs
    split_ifs at hs with hold <;> obtain rfl := Option.some.inj hs
    · exact ⟨_, rfl, trivial, by simp [Reader.rank]⟩
    · exact ⟨_, rfl, hcounter ▸ Nat.lt_of_not_le hold, by simp [Reader.rank]⟩
  | checkLag =>
    simp only [Reader.Follows, hpc] at hfollows
    simp only [hpc] at hs
    rw [hcounter, sub32_eq (Nat.le_of_lt hfollows)] at hs
    split_ifs at hs with hlag <;> obtain rfl := Option.some.inj hs
    · exact ⟨_, rfl, Nat.le_trans hlag (Nat.sub_le _ _), by simp [Reader.rank]⟩
    · -- less than a lap behind: the position does not share the slot with the head
      have hne : qPos (s.subs j).counter ≠ q := by
        rw [hslot]
        exact qPos_ne hfollows (by omega)
      exact ⟨_, rfl, trivial, by simp [Reader.rank, hne]⟩
  | jump =>
    simp only [Reader.Follows, hpc] at hfollows
    simp only [hpc] at hs
    obtain rfl := Option.some.inj hs
    have hne : qPos (PubSub.jumpahead s.topic.counter queueSize) ≠ q := by
      rw [hslot, hcounter, jumpahead_eq hfollows]
      unfold queueSize at hfollows
      exact qPos_ne (by omega) (by unfold queueSize; omega)
    exact ⟨_, rfl, trivial, by simp [Reader.rank, hne]⟩
  | lockSharable =>
    simp only [hpc, Option.map_eq_some_iff] at hs
    obtain ⟨l, -, rfl⟩ := hs
    refine ⟨_, rfl, trivial, ?_⟩
    simp only [Reader.rank, hpc]
    split_ifs <;> omega
  | readCounter held =>
    simp only [hpc] at hs
    split_ifs at hs <;> obtain rfl := Option.some.inj hs
    all_goals
      refine ⟨_, rfl, trivial, ?_⟩
      simp only [Reader.rank, hpc]
      split_ifs <;> omega
  | readEmpty held fast =>
    simp only [hpc] at hs
    split_ifs at hs <;> obtain rfl := Option.some.inj hs
    all_goals
      refine ⟨_, rfl, trivial, ?_⟩
      simp only [Reader.rank, hpc]
      split_ifs <;> omega
  | jumpahead held | readHandle held fast =>
    simp only [hpc] at hs
    obtain rfl := Option.some.inj hs
    refine ⟨_, rfl, trivial, ?_⟩
    simp only [Reader.rank, hpc]
    split_ifs <;> omega
  | readSize held fast handle =>
    have hsize := h.sizes (qPos (s.subs j).counter)
    simp only [hpc] at hs
    obtain rfl := Option.some.inj hs
    refine ⟨_, rfl, trivial, ?_⟩
    simp only [Reader.rank, hpc, List.length_nil]
    split_ifs <;> omega
  | copy held fast handle size got =>
    simp only [hpc] at hs
    by_cases hmore : got.length < size
    · rw [if_pos hmore] at hs
      split_ifs at hs with halloc
      obtain rfl := Option.some.inj hs
      refine ⟨_, rfl, trivial, ?_⟩
      have hone : (s.topic.allocator.load (s.topic.allocator.handleToPtr handle + got.length) 1
          ).length = 1 := Bytes.length_read ..
      simp only [Reader.rank, hpc, List.length_append, hone]
      split_ifs <;> omega
    · rw [if_neg hmore] at hs
      obtain rfl := Option.some.inj hs
      refine ⟨_, rfl, trivial, ?_⟩
      simp only [Reader.rank, hpc]
      split_ifs <;> omega
  | unlock held fast result =>
    simp only [hpc] at hs
    cases result <;> obtain rfl := Option.some.inj hs <;>
      exact ⟨_, rfl, trivial, by simp [Reader.rank]⟩
  | returned fast memblock =>
    simp only [hpc] at hs
    split_ifs at hs <;> obtain rfl := Option.some.inj hs <;>
      exact ⟨_, rfl, trivial, by simp [Reader.rank]⟩

theorem Awaits.stepSub (h : s.Awaits bound q) (hs : s.stepSub alloc j = some s') :
    s'.Awaits bound q := by
  have hlocks := h.locks.stepSub hs
  obtain ⟨htopic, -, haccepted, hpubs, -⟩ := stepSub_locks hs
  obtain ⟨r, hsubs, hr, -⟩ := h.stepSub_rank hs
  refine ⟨hpubs ▸ h.waiting, haccepted ▸ h.slot, ?_, htopic ▸ h.sizes, hlocks, fun k => ?_⟩
  · rw [htopic, haccepted, h.counter]
  · rw [hsubs, haccepted]
    by_cases hk : k = j
    · subst hk
      simpa only [Function.update_self] using hr
    · simpa only [Function.update_of_ne hk] using h.subs k

theorem Awaits.rank_stepSub (h : s.Awaits bound q) (hs : s.stepSub alloc j = some s') :
    (s'.subs j).rank bound q ≤ (s.subs j).rank bound q - 1 ∧
    ∀ i, i ≠ j → (s'.subs i).rank bound q ≤ (s.subs i).rank bound q := by
  obtain ⟨r, hsubs, -, hr⟩ := h.stepSub_rank hs
  refine ⟨?_, fun i hi => ?_⟩
  · rw [hsubs, Function.update_self]
    exact hr
  · rw [hsubs, Function.update_of_ne hi]

theorem Awaits.not_writer (h : s.Awaits bound q) (q' : Fin queueSize) :
    (s.locks q').writer = false := by
  obtain ⟨w, p, hpc⟩ := h.waiting
  have hzero : Tally.total (Tally.holding WritePc.slot q') s.pubs = 0 := by
    rw [Tally.total_eq_zero]
    intro i
    obtain rfl := Subsingleton.elim 0 i
    rw [hpc]
    rfl
  have hwriter := (h.locks q').writer
  rw [hzero] at hwriter
  cases hw : (s.locks q').writer with
  | false => rfl
  | true => simp [hw] at hwriter

theorem Awaits.writer_enters (h : s.Awaits bound q) (hdone : ∀ j, (s.subs j).rank bound q = 0) :
    (s.stepPub 0).isSome = true := by
  obtain ⟨w, p, hpc⟩ := h.waiting
  have hreaders : (s.locks q).readers = 0 := by
    rw [(h.locks q).readers, Tally.total_eq_zero]
    intro j
    refine if_neg fun hslot => ?_
    have hpos := Reader.rank_pos bound hslot
    rw [hdone j] at hpos
    exact Nat.lt_irrefl 0 hpos
  unfold World.stepPub
  simp [hpc, RwLock.tryLock, h.not_writer, hreaders]

theorem Awaits.exists_stepSub (h : s.Awaits bound q) (halloc : ∀ n, alloc n = true)
    (j : Fin m) : ∃ s', s.stepSub alloc j = some s' ∧ s'.Awaits bound q := by
  have hsome : (s.stepSub alloc j).isSome = true := by
    unfold World.stepSub
    cases hpc : (s.subs j).pc with
    | lockSharable =>
      simp [RwLock.tryLockSharable, h.not_writer]
    | unlock held fast result =>
      cases result <;> rfl
    | check | checkLag | readCounter held | readEmpty held fast | returned fast memblock =>
      simp only
      split_ifs <;> rfl
    | copy held fast handle size got =>
      simp only [halloc, if_true]
      split_ifs <;> rfl
    | idle | jump | jumpahead held | readHandle held fast | readSize held fast handle => rfl
  obtain ⟨s', hs⟩ := Option.isSome_iff_exists.mp hsome
  exact ⟨s', hs, h.stepSub hs⟩

end Awaits

structure Fitting (bound : Nat) (s : World n m) : Prop where
  elems : ∀ q, (s.topic.elem q).size ≤ bound
  jobs : ∀ i w, (s.pubs i).job = some w → w.memblock.size ≤ bound
  copies : ∀ j held fast handle size got, (s.subs j).pc = .copy held fast handle size got →
    size ≤ bound

theorem fitting_new (heapBase bufferSize : Nat) :
    (new heapBase bufferSize : World n m).Fitting bound := by
  refine ⟨fun q => Nat.zero_le _, ?_, ?_⟩
  · intro i w hjob
    cases hjob
  · intro j held fast handle size got hpc
    cases hpc

theorem stepPub_sizes {s s' : World n m} {i : Fin n} (hs : s.stepPub i = some s') :
    s'.subs = s.subs ∧
    (∃ pc, s'.pubs = Function.update s.pubs i pc ∧ (pc.job = none ∨ pc.job = (s.pubs i).job)) ∧
    ∀ q, (s'.topic.elem q).size = (s.topic.elem q).size ∨
      ∃ w, (s.pubs i).job = some w ∧ (s'.topic.elem q).size = w.memblock.size := by
  have hset : ∀ (q q' : Fin queueSize) (e : Element), e.size = (s.topic.elem q').size →
      ((s.topic.setElem q' e).elem q).size = (s.topic.elem q).size := by
    intro q q' e he
    by_cases hq : q = q'
    · rw [hq, Topic.elem_setElem_self, he]
    · rw [Topic.elem_setElem_ne _ _ _ hq]
  unfold stepPub at hs
  cases hpc : s.pubs i with
  | idle | aborted =>
    rw [hpc] at hs
    cases hs
  | checkMemory w =>
    simp only [hpc] at hs
    split_ifs at hs <;> obtain rfl := Option.some.inj hs
    · exact ⟨rfl, ⟨_, rfl, .inl rfl⟩, fun q => .inl rfl⟩
    · exact ⟨rfl, ⟨_, rfl, .inr rfl⟩, fun q => .inl rfl⟩
  | lock w q p =>
    simp only [hpc, Option.map_eq_some_iff] at hs
    obtain ⟨l, -, rfl⟩ := hs
    exact ⟨rfl, ⟨_, rfl, .inr rfl⟩, fun q => .inl rfl⟩
  | alloc w q =>
    simp only [hpc] at hs
    cases halloc : s.topic.alloc w.memblock.size with
    | error e =>
      simp only [halloc] at hs
      obtain rfl := Option.some.inj hs
      exact ⟨rfl, ⟨_, rfl, .inl rfl⟩, fun q => .inl rfl⟩
    | ok r =>
      obtain ⟨p, t⟩ := r
      obtain ⟨a, -, rfl⟩ := Topic.alloc_ok _ halloc
      cases p <;> simp only [halloc] at hs <;> obtain rfl := Option.some.inj hs
      · exact ⟨rfl, ⟨_, rfl, .inl rfl⟩, fun q => .inl rfl⟩
      · exact ⟨rfl, ⟨_, rfl, .inr rfl⟩, fun q => .inl rfl⟩
  | free w old =>
    simp only [hpc] at hs
    cases hfree : s.topic.free old with
    | error e =>
      simp only [hfree] at hs
      obtain rfl := Option.some.inj hs
      exact ⟨rfl, ⟨_, rfl, .inl rfl⟩, fun q => .inl rfl⟩
    | ok r =>
      obtain ⟨done, t⟩ := r
      obtain ⟨a, -, rfl⟩ := Topic.free_ok hfree
      cases done <;> simp only [hfree] at hs <;> obtain rfl := Option.some.inj hs
      · refine ⟨rfl, ⟨.free w old, ?_, .inr rfl⟩, fun q => .inl rfl⟩
        rw [← hpc, Function.update_eq_self]
        rfl
      · exact ⟨rfl, ⟨_, rfl, .inr rfl⟩, fun q => .inl rfl⟩
  | setHandle w q p old | setEmpty w q old =>
    simp only [hpc] at hs
    obtain rfl := Option.some.inj hs
    exact ⟨rfl, ⟨_, rfl, .inr rfl⟩, fun q' => .inl (hset q' q _ rfl)⟩
  | setSize w q old =>
    simp only [hpc] at hs
    obtain rfl := Option.some.inj hs
    refine ⟨rfl, ⟨_, rfl, .inr rfl⟩, fun q' => ?_⟩
    by_cases hq : q' = q
    · subst hq
      exact .inr ⟨w, rfl, congrArg Element.size (Topic.elem_setElem_self ..)⟩
    · exact .inl (congrArg Element.size (Topic.elem_setElem_ne _ _ _ hq))
  | readCounter w | copy w q p | readOld w q p | unlock w q old =>
    simp only [hpc] at hs
    obtain rfl := Option.some.inj hs
    exact ⟨rfl, ⟨_, rfl, .inr rfl⟩, fun q => .inl rfl⟩
  | incCounter w =>
    simp only [hpc] at hs
    obtain rfl := Option.some.inj hs
    exact ⟨rfl, ⟨_, rfl, .inl rfl⟩, fun q => .inl rfl⟩

theorem stepSub_copies {s s' : World n m} {j : Fin m} (h : s.Fitting bound)
    (hs : s.stepSub alloc j = some s') : ∃ r, s'.subs = Function.update s.subs j r ∧
      ∀ held fast handle size got, r.pc = .copy held fast handle size got → size ≤ bound := by
  unfold stepSub at hs
  cases hpc : (s.subs j).pc with
  | check | checkLag | readCounter held | readEmpty held fast | returned fast memblock =>
    simp only [hpc] at hs
    split_ifs at hs <;> obtain rfl := Option.some.inj hs <;> exact ⟨_, rfl, by simp⟩
  | lockSharable =>
    simp only [hpc, Option.map_eq_some_iff] at hs
    obtain ⟨l, -, rfl⟩ := hs
    exact ⟨_, rfl, by simp⟩
  | readSize held fast handle =>
    simp only [hpc] at hs
    obtain rfl := Option.some.inj hs
    refine ⟨_, rfl, fun held' fast' handle' size got hcopy => ?_⟩
    simp only [ReadPc.copy.injEq] at hcopy
    obtain ⟨-, -, -, rfl, -⟩ := hcopy
    exact h.elems _
  | copy held fast handle size got =>
    have hsize := h.copies j held fast handle size got hpc
    simp only [hpc] at hs
    by_cases hmore : got.length < size
    · rw [if_pos hmore] at hs
      split_ifs at hs with halloc
      obtain rfl := Option.some.inj hs
      refine ⟨_, rfl, fun held' fast' handle' size' got' hcopy => ?_⟩
      simp only [ReadPc.copy.injEq] at hcopy
      obtain ⟨-, -, -, rfl, -⟩ := hcopy
      exact hsize
    · rw [if_neg hmore] at hs
      obtain rfl := Option.some.inj hs
      exact ⟨_, rfl, by simp⟩
  | unlock held fast result =>
    simp only [hpc] at hs
    cases result <;> obtain rfl := Option.some.inj hs <;> exact ⟨_, rfl, by simp⟩
  | idle | jump | jumpahead held | readHandle held fast =>
    simp only [hpc] at hs
    obtain rfl := Option.some.inj hs
    exact ⟨_, rfl, by simp⟩

theorem Fitting.step {s s' : World n m} {l : Label n m} (h : s.Fitting bound)
    (hl : ∀ i msg, l = .write i msg → msg.size ≤ bound) (hs : s.step alloc l = some s') :
    s'.Fitting bound := by
  cases l with
  | write i msg =>
    obtain ⟨-, -, rfl⟩ := start_some hs
    refine ⟨h.elems, fun k w hjob => ?_, h.copies⟩
    by_cases hk : k = i
    · subst hk
      simp only [setPub, Function.update_self, WritePc.job, Option.some.injEq] at hjob
      obtain rfl := hjob
      exact hl k msg rfl
    · simp only [setPub, Function.update_of_ne hk] at hjob
      exact h.jobs k w hjob
  | publisher i =>
    obtain ⟨hsubs, ⟨pc, hpubs, hpc⟩, hsizes⟩ := stepPub_sizes hs
    refine ⟨fun q => ?_, fun k w hjob => ?_, hsubs ▸ h.copies⟩
    · rcases hsizes q with hsame | ⟨w, hjob, hsize⟩
      · exact hsame ▸ h.elems q
      · exact hsize ▸ h.jobs i w hjob
    · rw [hpubs] at hjob
      by_cases hk : k = i
      · subst hk
        rw [Function.update_self] at hjob
        rcases hpc with hnone | hsame
        · rw [hnone] at hjob
          cases hjob
        · exact h.jobs k w (hsame ▸ hjob)
      · rw [Function.update_of_ne hk] at hjob
        exact h.jobs k w hjob
  | subscriber j =>
    obtain ⟨htopic, -, -, hpubs, -⟩ := stepSub_locks hs
    obtain ⟨r, hsubs, hcopy⟩ := stepSub_copies h hs
    refine ⟨htopic ▸ h.elems, hpubs ▸ h.jobs, fun k held fast handle size got hpc => ?_⟩
    rw [hsubs] at hpc
    by_cases hk : k = j
    · subst hk
      rw [Function.update_self] at hpc
      exact hcopy held fast handle size got hpc
    · rw [Function.update_of_ne hk] at hpc
      exact h.copies k held fast handle size got hpc

theorem fitting_of_run {heapBase bufferSize : Nat} {ok : World n m → Label n m → Prop}
    {labels : List (Label n m)} {s : World n m}
    (h : Machine.Run (step alloc) ok (new heapBase bufferSize) labels s)
    (hbound : ∀ i msg, .write i msg ∈ labels → msg.size ≤ bound) : s.Fitting bound := by
  induction h with
  | nil => exact fitting_new heapBase bufferSize
  | snoc _ _ hs ih =>
    have hprev := ih fun i msg hmem => hbound i msg (List.mem_append_left _ hmem)
    exact hprev.step (fun i msg hl => hbound i msg (hl ▸ List.mem_append_right _ (by simp))) hs

section Single

variable {s s' : World 1 m} {heapBase bufferSize : Nat} {labels : List (Label 1 m)}
variable {w : Job} {q : Fin queueSize} {p : Nat} {js : List (Fin m)}

theorem awaits_of_run (hdvd : 4 ∣ bufferSize) (hle : 8 ≤ bufferSize)
    (hlim : bufferSize + 1 < 2 ^ 32) (hspace : heapBase + bufferSize ≤ 2 ^ 64)
    (h : Machine.run (step alloc) (new heapBase bufferSize) labels = some s)
    (hlt : s.accepted.length < 2 ^ 32) (hpc : s.pubs 0 = .lock w q p)
    (hbound : ∀ i msg, .write i msg ∈ labels → msg.size ≤ bound) : s.Awaits bound q := by
  have hexclusive := (exclusive_of_single (Machine.Run.of_run h)).2
  have hrun : Machine.Run (step alloc)
      (fun t l => t.Exclusive l ∧ (false = true → t.JumpSafe l)) (new heapBase bufferSize) labels s :=
    hexclusive.weaken fun _ _ hok => ⟨hok.1, nofun⟩
  obtain ⟨hlocks, hist, v, hsound, hinformed⟩ :=
    informed_of_run (P := fun fast => fast = true) hdvd hle hlim hspace hrun hlt
  have hactive : (s.pubs 0).active = true := by
    rw [hpc]
    rfl
  have hslot : q = qPos s.accepted.length := by
    rcases hsound.stage with hq | ⟨i, w', r, hb⟩
    · rw [hq.idle 0] at hactive
      cases hactive
    · obtain rfl := Subsingleton.elim 0 i
      have hknows := hb.knows
      rw [hpc] at hknows
      exact hknows.1
  refine ⟨⟨w, p, hpc⟩, hslot, hsound.counter, (fitting_of_run hrun hbound).elems, hlocks, ?_⟩
  intro j
  have hk := hinformed j
  unfold Reader.Follows
  cases hpc : (s.subs j).pc with
  | checkLag | jump =>
    rw [hpc] at hk
    exact hk
  | _ => trivial

theorem Fitting.rank_le (h : s.Fitting bound) (j : Fin m) : (s.subs j).rank bound q ≤ bound + 8 := by
  unfold Reader.rank
  cases hpc : (s.subs j).pc with
  | copy held fast handle size got =>
    have hsize := h.copies j held fast handle size got hpc
    simp only
    split_ifs <;> omega
  | _ =>
    simp only
    first | omega | (split_ifs <;> omega)

/-- With one publisher, a `write` that waits for the lock of its slot gets it, although the lock
prefers readers: the subscribers can go on as they like, and as soon as each of them has had
as many turns as the longest message has bytes, and eight more, none is in the slot. -/
theorem writer_gets_slot (hdvd : 4 ∣ bufferSize) (hle : 8 ≤ bufferSize)
    (hlim : bufferSize + 1 < 2 ^ 32) (hspace : heapBase + bufferSize ≤ 2 ^ 64)
    (h : Machine.run (step alloc) (new heapBase bufferSize) labels = some s)
    (hlt : s.accepted.length < 2 ^ 32) (hpc : s.pubs 0 = .lock w q p)
    (hbound : ∀ i msg, .write i msg ∈ labels → msg.size ≤ bound) :
    ((∀ size, alloc size = true) → ∀ js, ∃ s', Machine.run (stepSub alloc) s js = some s') ∧
    ∀ js s', Machine.run (stepSub alloc) s js = some s' → (∀ j, bound + 8 ≤ js.count j) →
      (s'.stepPub 0).isSome = true := by
  have hawaits := awaits_of_run hdvd hle hlim hspace h hlt hpc hbound
  have hfitting := fitting_of_run (Machine.Run.of_run h) hbound
  constructor
  · intro halloc js
    have hstep : ∀ (t : World 1 m) j, j ∈ js → t.Awaits bound q →
        ∃ t', t.stepSub alloc j = some t' ∧ t'.Awaits bound q :=
      fun t j _ ht => ht.exists_stepSub halloc j
    obtain ⟨s', hs', -⟩ := exists_run _ hstep hawaits
    exact ⟨s', hs'⟩
  · intro js s' hrun hturns
    have hend : s'.Awaits bound q := (Machine.Run.of_run hrun).invariant
      (fun t : World 1 m => t.Awaits bound q) hawaits fun t k t' ht _ hs => ht.stepSub hs
    refine hend.writer_enters fun j => ?_
    refine rank_eq_zero (fun t : World 1 m => t.Awaits bound q) id
      (fun t i => (t.subs i).rank bound q) ?_ hawaits (Machine.Run.of_run hrun) ?_
    · intro t k t' ht _ hs
      exact ⟨ht.stepSub hs, ht.rank_stepSub hs⟩
    · have hj := hturns j
      rw [List.count_eq_countP] at hj
      exact Nat.le_trans (hfitting.rank_le j) (by simpa [turns, beq_eq_decide] using hj)

def lapBehind (i j : Fin 1) : List (Label 1 1) :=
  publishing (List.replicate 1023 0) ++ List.replicate 3 (.subscriber j) ++ publishing [0] ++
    List.replicate 2 (.subscriber j) ++ .write i (.ofData [1]) :: List.replicate 4 (.publisher i)

theorem size_of_mem_publishing {xs : List UInt8} {i : Fin 1} {msg : Memblock}
    (h : .write i msg ∈ publishing xs) : msg.size ≤ 1 := by
  obtain ⟨x, -, hx⟩ := List.mem_flatMap.mp h
  simp only [List.mem_cons, Label.write.injEq, List.mem_replicate, reduceCtorEq, and_false,
    or_false] at hx
  obtain ⟨-, rfl⟩ := hx
  exact Nat.le_refl 1

theorem writer_gets_slot_lap : ∃ s s' : World 1 1,
    Machine.run (step fun _ => true) (new 4096 (2 ^ 20)) (lapBehind 0 0) = some s ∧
    (s.subs 0).slot = some (qPos 0) ∧ s.stepPub 0 = none ∧
    Machine.run (stepSub fun _ => true) s (List.replicate 9 0) = some s' ∧
    (s'.stepPub 0).isSome = true := by
  obtain ⟨s₁, hrun₁, h₁, hsub₁, -, hlock₁⟩ := run_to_jump [0] (by decide) (by decide)
  have hlen₁ : (List.replicate 1023 (0 : UInt8) ++ [0]).length = 1024 := length_zeros ..
  have hhist : (pacedHist (List.replicate 1023 0 ++ [0])).length = 1024 :=
    List.length_mapIdx.trans hlen₁
  obtain ⟨t, hwrite, -⟩ := h₁.paced.write 1 (by rw [hhist]; decide)
  obtain ⟨s, p, hrun₂, hpc, hsubs, hlocks, haccepted⟩ :=
    run_to_lock (fun _ => true) h₁.idle (Memblock.filled_ofData [1]) hwrite
  have hslot : qPos s₁.topic.counter = qPos 0 := by
    rw [h₁.counter, hlen₁]
    exact qPos_add 0
  rw [hslot] at hpc
  have hrun : Machine.run (step fun _ => true) (new 4096 (2 ^ 20)) (lapBehind 0 0) = some s := by
    rw [lapBehind, Machine.run_append, hrun₁.run_eq, Option.bind_some]
    exact hrun₂
  have hlt : s.accepted.length < 2 ^ 32 := by
    rw [haccepted, h₁.accepted, List.length_range, hlen₁]
    decide
  have hbound : ∀ (i : Fin 1) (msg : Memblock), Label.write i msg ∈ lapBehind 0 0 → msg.size ≤ 1 := by
    intro i msg hmem
    simp only [lapBehind, List.mem_append, List.mem_cons, List.mem_replicate, Label.write.injEq,
      reduceCtorEq, and_false, or_false] at hmem
    rcases hmem with (hmem | hmem) | ⟨-, rfl⟩
    · exact size_of_mem_publishing hmem
    · exact size_of_mem_publishing hmem
    · exact Nat.le_refl 1
  have hwaits : s.stepPub 0 = none := by
    simp only [stepPub, hpc, hlocks, hlock₁]
    rfl
  obtain ⟨hgo, henter⟩ := writer_gets_slot (by decide) (by decide) (by decide) (by decide) hrun hlt
    hpc hbound
  obtain ⟨s', hs'⟩ := hgo (fun _ => rfl) (List.replicate 9 0)
  refine ⟨s, s', hrun, ?_, hwaits, hs', henter _ _ hs' fun j => ?_⟩
  · rw [hsubs, hsub₁]
    rfl
  · rw [Subsingleton.elim j 0, List.count_replicate_self]

end Single

end World

end Shadesmar.PubSub.Interleaving
