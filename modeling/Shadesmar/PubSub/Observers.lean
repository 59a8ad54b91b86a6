import Shadesmar.Library.Refinement
import Shadesmar.PubSub.Publishing

namespace Shadesmar.PubSub.Interleaving

open Library Shadesmar.Memory Shadesmar.Concurrency

variable {n m : Nat}

def Label.publishes : Label n m → Bool
  | .write .. => true
  | .publisher _ => true
  | .subscriber _ => false

namespace World

/-- `t` is `s` with the subscribers taken away: no lock has a reader, and each is held by a
publisher if it was. -/
structure Shadow (s t : World n m) : Prop where
  topic : t.topic = s.topic
  calls : t.calls = s.calls
  accepted : t.accepted = s.accepted
  pubs : t.pubs = s.pubs
  readers : ∀ q, (t.locks q).readers = 0
  writer : ∀ q, (t.locks q).writer = (s.locks q).writer
  locks : s.LocksSound

variable {s s' t : World n m} {i : Fin n} {j : Fin m} {alloc : Nat → Bool}

theorem shadow_new (heapBase bufferSize : Nat) :
    Shadow (new heapBase bufferSize : World n m) (new heapBase bufferSize) :=
  ⟨rfl, rfl, rfl, rfl, fun _ => rfl, fun _ => rfl, locksSound_new heapBase bufferSize⟩

theorem LocksSound.writer_of_slot (h : s.LocksSound) {q : Fin queueSize}
    (hslot : (s.pubs i).slot = some q) : (s.locks q).writer = true := by
  have hpos := Tally.total_pos WritePc.slot hslot
  have hwriter := (h q).writer
  cases hw : (s.locks q).writer with
  | true => rfl
  | false =>
    rw [hw] at hwriter
    simp only [Bool.false_eq_true, if_false] at hwriter
    omega

theorem LocksSound.not_writer_of_slot (h : s.LocksSound) {q : Fin queueSize}
    (hslot : (s.subs j).slot = some q) : (s.locks q).writer = false := by
  have hpos := Tally.total_pos Reader.slot hslot
  have hreaders := (h q).readers
  cases hw : (s.locks q).writer with
  | false => rfl
  | true =>
    have hzero := (h q).exclusive hw
    omega

theorem Shadow.stepSub (h : s.Shadow t) (hs : s.stepSub alloc j = some s') : s'.Shadow t := by
  have hlocks' := h.locks.stepSub hs
  obtain ⟨htopic, hcalls, haccepted, hpubs, r, -, hlocks⟩ := stepSub_locks hs
  refine ⟨h.topic.trans htopic.symm, h.calls.trans hcalls.symm, h.accepted.trans haccepted.symm,
    h.pubs.trans hpubs.symm, h.readers, fun q => ?_, hlocks'⟩
  rw [h.writer q]
  rcases hlocks with ⟨hsame, -⟩ | ⟨q₀, l, -, -, hlock, htaken⟩ | ⟨q₀, hslot, -, hgiven⟩
  · rw [hsame]
  · rw [htaken]
    by_cases hq : q = q₀
    · subst hq
      obtain ⟨hfree, rfl⟩ := RwLock.tryLockSharable_some hlock
      rw [Function.update_self, hfree]
    · rw [Function.update_of_ne hq]
  · rw [hgiven]
    by_cases hq : q = q₀
    · subst hq
      have hw := h.locks.not_writer_of_slot hslot
      rw [Function.update_self, RwLock.unlock_of_reader hw, hw]
    · rw [Function.update_of_ne hq]

theorem Shadow.start {memblock : Memblock} (h : s.Shadow t) (hs : s.start i memblock = some s') :
    ∃ t', t.start i memblock = some t' ∧ s'.Shadow t' := by
  have hlocks := h.locks.start hs
  obtain ⟨hidle, hfilled, rfl⟩ := start_some hs
  refine ⟨{ t with calls := t.calls ++ [memblock] }.setPub i
    (.checkMemory ⟨t.calls.length, memblock⟩), ?_, h.topic, ?_, h.accepted, ?_, h.readers,
    h.writer, hlocks⟩
  · unfold World.start
    rw [h.pubs, hidle]
    exact if_pos hfilled
  · exact congrArg (· ++ [memblock]) h.calls
  · simp only [setPub, h.pubs, h.calls]

theorem Shadow.keep (h : s.Shadow t) (hlocks : s'.LocksSound) (hsame : s'.locks = s.locks)
    {t' : World n m} (htopic : t'.topic = s'.topic) (hcalls : t'.calls = s'.calls)
    (haccepted : t'.accepted = s'.accepted) (hpubs : t'.pubs = s'.pubs)
    (hsame' : t'.locks = t.locks) : s'.Shadow t' :=
  ⟨htopic, hcalls, haccepted, hpubs, fun q => hsame' ▸ h.readers q,
    fun q => by rw [hsame', hsame, h.writer q], hlocks⟩

theorem Shadow.setLock (h : s.Shadow t) {q : Fin queueSize} {l l' : RwLock} {pc : WritePc}
    (hlocks : ((s.setLock q l).setPub i pc).LocksSound) (hreaders : l'.readers = 0)
    (hwriter : l'.writer = l.writer) :
    ((s.setLock q l).setPub i pc).Shadow ((t.setLock q l').setPub i pc) := by
  refine ⟨h.topic, h.calls, h.accepted, ?_, fun q' => ?_, fun q' => ?_, hlocks⟩
  · simp only [World.setPub, World.setLock, h.pubs]
  · by_cases hq : q' = q
    · subst hq
      simpa [World.setPub, World.setLock] using hreaders
    · simpa [World.setPub, World.setLock, hq] using h.readers q'
  · by_cases hq : q' = q
    · subst hq
      simpa [World.setPub, World.setLock] using hwriter
    · simpa [World.setPub, World.setLock, hq] using h.writer q'

theorem Shadow.stepPub (h : s.Shadow t) (hs : s.stepPub i = some s') :
    ∃ t', t.stepPub i = some t' ∧ s'.Shadow t' := by
  have hlocks := h.locks.stepPub hs
  unfold World.stepPub at hs ⊢
  rw [h.pubs, h.topic]
  cases hpc : s.pubs i with
  | idle | aborted =>
    rw [hpc] at hs
    cases hs
  | lock w q p =>
    simp only [hpc, Option.map_eq_some_iff] at hs ⊢
    obtain ⟨l, hlock, rfl⟩ := hs
    obtain ⟨hfree, rfl⟩ := RwLock.tryLock_some hlock
    have hfree' : t.locks q = .free := by
      refine RwLock.ext ?_ (h.readers q)
      rw [h.writer q, hfree]
    exact ⟨_, ⟨_, by rw [hfree']; rfl, rfl⟩, h.setLock hlocks rfl rfl⟩
  | unlock w q old =>
    simp only [hpc] at hs ⊢
    obtain rfl := Option.some.inj hs
    have hwriter : (s.locks q).writer = true := h.locks.writer_of_slot (i := i) (by rw [hpc]; rfl)
    refine ⟨_, rfl, h.setLock hlocks ?_ ?_⟩
    · rw [RwLock.unlock_of_writer ((h.writer q).trans hwriter), h.readers q]
    · rw [RwLock.unlock_of_writer hwriter, RwLock.unlock_of_writer ((h.writer q).trans hwriter)]
  | checkMemory w =>
    simp only [hpc] at hs ⊢
    split_ifs at hs ⊢ <;> obtain rfl := Option.some.inj hs <;>
      exact ⟨_, rfl, h.keep hlocks rfl h.topic h.calls h.accepted (by simp [setPub, h.pubs]) rfl⟩
  | alloc w q =>
    simp only [hpc] at hs ⊢
    split at hs <;> obtain rfl := Option.some.inj hs <;>
      exact ⟨_, rfl, h.keep hlocks rfl (by first | rfl | exact h.topic) h.calls h.accepted
        (by simp [setPub, setTopic, h.pubs]) rfl⟩
  | free w old =>
    simp only [hpc] at hs ⊢
    split at hs <;> obtain rfl := Option.some.inj hs <;>
      exact ⟨_, rfl, h.keep hlocks rfl (by first | rfl | exact h.topic) h.calls h.accepted
        (by simp [setPub, setTopic, h.pubs]) rfl⟩
  | incCounter w =>
    simp only [hpc] at hs ⊢
    obtain rfl := Option.some.inj hs
    exact ⟨_, rfl, h.keep hlocks rfl rfl h.calls (congrArg (· ++ [w.id]) h.accepted)
      (by simp [setPub]) rfl⟩
  | readCounter w | copy w q p | readOld w q p | setHandle w q p old | setSize w q old
  | setEmpty w q old =>
    simp only [hpc] at hs ⊢
    obtain rfl := Option.some.inj hs
    exact ⟨_, rfl, h.keep hlocks rfl (by first | rfl | exact h.topic) h.calls h.accepted
      (by simp [setPub, setTopic, h.pubs]) rfl⟩

/-- Subscribers only look on: whatever publishers have done beside them, they can do without
them, and to the same topic. -/
theorem subscribers_look_on {heapBase bufferSize : Nat} {labels : List (Label n m)}
    (h : Machine.run (step alloc) (new heapBase bufferSize) labels = some s) :
    ∃ t, Machine.run (step alloc) (new heapBase bufferSize) (labels.filter Label.publishes) =
      some t ∧ t.topic = s.topic ∧ t.calls = s.calls ∧ t.accepted = s.accepted ∧
      t.pubs = s.pubs := by
  have hfilter : ∃ t, Machine.run (step alloc) (new heapBase bufferSize)
      (labels.filter Label.publishes) = some t ∧ s.Shadow t := by
    refine Refinement.run_filter ?_ ?_ (shadow_new heapBase bufferSize) h
    · intro s t l s' hst hl hs
      cases l with
      | subscriber j => exact hst.stepSub hs
      | write i memblock => cases hl
      | publisher i => cases hl
    · intro s t l s' hst hl hs
      cases l with
      | subscriber j => cases hl
      | write i memblock => exact hst.start hs
      | publisher i => exact hst.stepPub hs
  obtain ⟨t, ht, hshadow⟩ := hfilter
  exact ⟨t, ht, hshadow.topic, hshadow.calls, hshadow.accepted, hshadow.pubs⟩

theorem subscribers_look_on_copy : ∃ s t : World 1 1,
    Machine.run (step fun _ => true) (new 4096 64) ([.write 0 (.ofData [1, 2])] ++
      List.replicate 12 (.publisher 0) ++ List.replicate 7 (.subscriber 0) ++
      [.write 0 (.ofData [3])] ++ List.replicate 6 (.publisher 0)) = some s ∧
    Machine.run (step fun _ => true) (new 4096 64) ([.write 0 (.ofData [1, 2])] ++
      List.replicate 12 (.publisher 0) ++ [.write 0 (.ofData [3])] ++
      List.replicate 6 (.publisher 0)) = some t ∧ t.topic = s.topic ∧ t.pubs = s.pubs := by
  have hrun : (Machine.run (step fun _ => true) (new 4096 64 : World 1 1)
      ([.write 0 (.ofData [1, 2])] ++ List.replicate 12 (.publisher 0) ++
        List.replicate 7 (.subscriber 0) ++ [.write 0 (.ofData [3])] ++
        List.replicate 6 (.publisher 0))).isSome = true := by decide +kernel
  obtain ⟨s, hs⟩ := Option.isSome_iff_exists.mp hrun
  obtain ⟨t, ht, htopic, -, -, hpubs⟩ := subscribers_look_on hs
  exact ⟨s, t, hs, ht, htopic, hpubs⟩

end World

theorem free_false {a a' : Allocator} {ptr : Option Nat} (h : a.free ptr = .ok (false, a')) :
    a' = a := by
  cases ptr with
  | none => cases h
  | some p =>
    obtain ⟨⟨⟩, -, h⟩ := Checked.bind_eq_ok.mp h
    obtain ⟨⟨⟩, -, h⟩ := Checked.bind_eq_ok.mp h
    obtain ⟨⟨⟩, -, h⟩ := Checked.bind_eq_ok.mp h
    obtain ⟨index, -, h⟩ := Checked.bind_eq_ok.mp h
    split_ifs at h
    · exact (Prod.mk.inj (Except.ok.inj h)).2.symm
    · cases h

def WritePc.Midway (t₀ t : Topic) : WritePc → Prop
  | .idle => t = t₀
  | .checkMemory _ => t = t₀
  | .readCounter w => t = t₀ ∧ ¬ w.memblock.size > t₀.allocator.getFreeMemory
  | .alloc w q => t = t₀ ∧ ¬ w.memblock.size > t₀.allocator.getFreeMemory ∧ q = qPos t₀.counter
  | .copy w q p => ¬ w.memblock.size > t₀.allocator.getFreeMemory ∧ q = qPos t₀.counter ∧
      t₀.alloc w.memblock.size = .ok (some p, t)
  | .lock w q p => Reserved w q p t
  | .readOld w q p => Reserved w q p t
  | .setHandle w q p old => Reserved w q p t ∧ old = t.oldAddress q
  | .setSize w q old => ∃ p t₁, Reserved w q p t₁ ∧ old = t₁.oldAddress q ∧ t = t₁.setHandle q p
  | .setEmpty w q old => ∃ p t₁, Reserved w q p t₁ ∧ old = t₁.oldAddress q ∧
      t = (t₁.setHandle q p).setSize q w.memblock.size
  | .unlock w _ old => t₀.exchange w.memblock = .ok (some old, t)
  | .free w old => t₀.exchange w.memblock = .ok (some old, t)
  | .incCounter w => ∃ old t₁, t₀.exchange w.memblock = .ok (some old, t₁) ∧
      t₁.free old = .ok (true, t)
  | .aborted => True
where
  /-- The message lies in its block, and the slot is as it was. -/
  Reserved (w : Job) (q : Fin queueSize) (p : Nat) (t : Topic) : Prop :=
    ¬ w.memblock.size > t₀.allocator.getFreeMemory ∧ q = qPos t₀.counter ∧
      ∃ t₁, t₀.alloc w.memblock.size = .ok (some p, t₁) ∧ t = t₁.userToShm p w.memblock.bytes

namespace World

section Single

variable {s s' : World 1 m} {alloc : Nat → Bool} {heapBase bufferSize : Nat} {f : Feed}
variable {done : List Memblock} {w : Job} {pc : WritePc}

structure Serial (heapBase bufferSize : Nat) (s : World 1 m) (f : Feed) (done : List Memblock) :
    Prop where
  run : Machine.run (Feed.step 1) (Feed.new heapBase bufferSize) done = some f
  calls : s.calls = done ++ ((s.pubs 0).job.map Job.memblock).toList
  job : ∀ w, (s.pubs 0).job = some w → w.id = done.length ∧ w.memblock.Filled
  accepted : f.accepted = s.accepted.filterMap (done[·]?)
  returned : ∀ id ∈ s.accepted, id < done.length
  midway : (s.pubs 0).Midway f.topic s.topic

theorem serial_new (heapBase bufferSize : Nat) :
    Serial heapBase bufferSize (new heapBase bufferSize : World 1 m) (.new heapBase bufferSize) [] :=
  ⟨rfl, rfl, nofun, rfl, nofun, rfl⟩

theorem Serial.go (h : s.Serial heapBase bufferSize f done) (hjob : (s.pubs 0).job = some w)
    {t : Topic} {locks : Fin queueSize → RwLock} (hjob' : pc.job = some w)
    (hmidway : pc.Midway f.topic t) :
    ({ s with topic := t, locks := locks }.setPub 0 pc).Serial heapBase bufferSize f done := by
  have hcalls := h.calls
  have hnow := h.job w hjob
  have hpc : ({ s with topic := t, locks := locks }.setPub 0 pc).pubs 0 = pc := pubs_setPub ..
  rw [hjob] at hcalls
  refine ⟨h.run, ?_, ?_, h.accepted, h.returned, ?_⟩
  · rw [hpc, hjob']
    exact hcalls
  · intro w' hw'
    rw [hpc, hjob'] at hw'
    obtain rfl := Option.some.inj hw'
    exact hnow
  · rw [hpc]
    exact hmidway

theorem Serial.finish (h : s.Serial heapBase bufferSize f done) (hjob : (s.pubs 0).job = some w)
    {t : Topic} {accepted : List Nat} {ms : List Memblock}
    (hcall : f.step 1 w.memblock = some ⟨t, f.accepted ++ ms⟩)
    (haccepted : accepted = s.accepted ∧ ms = [] ∨
      accepted = s.accepted ++ [w.id] ∧ ms = [w.memblock]) :
    ({ s with topic := t, accepted := accepted }.setPub 0 .idle).Serial heapBase bufferSize
      ⟨t, f.accepted ++ ms⟩ (done ++ [w.memblock]) := by
  have hcalls := h.calls
  obtain ⟨hid, -⟩ := h.job w hjob
  have hpc : ({ s with topic := t, accepted := accepted }.setPub 0 .idle).pubs 0 = .idle :=
    pubs_setPub ..
  have hold : s.accepted.filterMap ((done ++ [w.memblock])[·]?) = f.accepted := by
    rw [h.accepted]
    refine List.filterMap_congr fun id hid => ?_
    exact List.getElem?_append_left (h.returned id hid)
  rw [hjob] at hcalls
  refine ⟨?_, ?_, ?_, ?_, ?_, ?_⟩
  · rw [Machine.run_append, h.run, Option.bind_some, Machine.run_cons _ hcall]
    rfl
  · rw [hpc]
    change s.calls = _
    simpa [WritePc.job] using hcalls
  · intro w' hw'
    rw [hpc] at hw'
    cases hw'
  · rcases haccepted with ⟨rfl, rfl⟩ | ⟨rfl, rfl⟩
    · change f.accepted ++ [] = s.accepted.filterMap _
      rw [List.append_nil, hold]
    · change f.accepted ++ [w.memblock] = (s.accepted ++ [w.id]).filterMap _
      rw [List.filterMap_append, hold]
      simp [hid]
  · intro id hmem
    rw [List.length_append]
    rcases haccepted with ⟨rfl, -⟩ | ⟨rfl, -⟩
    · exact Nat.lt_succ_of_lt (h.returned id hmem)
    · rcases List.mem_append.mp hmem with hmem | hlast
      · exact Nat.lt_succ_of_lt (h.returned id hmem)
      · obtain rfl := List.mem_singleton.mp hlast
        exact hid ▸ Nat.lt_succ_self _
  · rw [hpc]
    rfl

theorem Serial.refuse (h : s.Serial heapBase bufferSize f done) (hjob : (s.pubs 0).job = some w)
    {t : Topic} (hexchange : f.topic.exchange w.memblock = .ok (none, t)) :
    ∃ f done, ((s.setTopic t).setPub 0 .idle).Serial heapBase bufferSize f done := by
  obtain ⟨-, hfilled⟩ := h.job w hjob
  have hcall : f.step 1 w.memblock = some ⟨t, f.accepted ++ []⟩ := by
    rw [Feed.step, if_pos hfilled, Topic.write_eq, hexchange, List.append_nil]
    rfl
  exact ⟨_, _, h.finish hjob hcall (.inl ⟨rfl, rfl⟩)⟩

theorem Serial.stepPub (h : s.Serial heapBase bufferSize f done) (hs : s.stepPub 0 = some s') :
    s'.pubs 0 = .aborted ∨ ∃ f done, s'.Serial heapBase bufferSize f done := by
  have hmid := h.midway
  unfold World.stepPub at hs
  cases hpc : s.pubs 0 with
  | idle | aborted =>
    rw [hpc] at hs
    cases hs
  | checkMemory w =>
    have hjob : (s.pubs 0).job = some w := by rw [hpc]; rfl
    simp only [hpc] at hs hmid
    have heq : s.topic = f.topic := hmid
    split_ifs at hs with hroom <;> obtain rfl := Option.some.inj hs
    · refine .inr (h.refuse (t := s.topic) hjob ?_)
      rw [Topic.exchange, if_pos (heq ▸ hroom), heq]
    · exact .inr ⟨f, done, h.go (w := w) hjob rfl ⟨heq, heq ▸ hroom⟩⟩
  | readCounter w =>
    have hjob : (s.pubs 0).job = some w := by rw [hpc]; rfl
    simp only [hpc] at hs hmid
    obtain ⟨heq, hroom⟩ := hmid
    obtain rfl := Option.some.inj hs
    exact .inr ⟨f, done, h.go (w := w) hjob rfl ⟨heq, hroom, by rw [heq]⟩⟩
  | alloc w q =>
    have hjob : (s.pubs 0).job = some w := by rw [hpc]; rfl
    simp only [hpc] at hs hmid
    obtain ⟨heq, hroom, hq⟩ := hmid
    rw [heq] at hs
    split at hs
    case h_1 t halloc =>
      obtain rfl := Option.some.inj hs
      refine .inr (h.refuse hjob ?_)
      rw [Topic.exchange, if_neg hroom, halloc]
      rfl
    case h_2 p t halloc =>
      obtain rfl := Option.some.inj hs
      exact .inr ⟨f, done, h.go (w := w) hjob rfl ⟨hroom, hq, halloc⟩⟩
    case h_3 =>
      obtain rfl := Option.some.inj hs
      exact .inl (pubs_setPub ..)
  | copy w q p =>
    have hjob : (s.pubs 0).job = some w := by rw [hpc]; rfl
    simp only [hpc] at hs hmid
    obtain ⟨hroom, hq, halloc⟩ := hmid
    obtain rfl := Option.some.inj hs
    exact .inr ⟨f, done, h.go (w := w) hjob rfl ⟨hroom, hq, _, halloc, rfl⟩⟩
  | lock w q p =>
    have hjob : (s.pubs 0).job = some w := by rw [hpc]; rfl
    simp only [hpc, Option.map_eq_some_iff] at hs hmid
    obtain ⟨l, -, rfl⟩ := hs
    exact .inr ⟨f, done, h.go (w := w) hjob rfl hmid⟩
  | readOld w q p =>
    have hjob : (s.pubs 0).job = some w := by rw [hpc]; rfl
    simp only [hpc] at hs hmid
    obtain rfl := Option.some.inj hs
    exact .inr ⟨f, done, h.go (w := w) hjob rfl ⟨hmid, rfl⟩⟩
  | setHandle w q p old =>
    have hjob : (s.pubs 0).job = some w := by rw [hpc]; rfl
    simp only [hpc] at hs hmid
    obtain ⟨hreserved, hold⟩ := hmid
    obtain rfl := Option.some.inj hs
    exact .inr ⟨f, done, h.go (w := w) hjob rfl ⟨p, s.topic, hreserved, hold, rfl⟩⟩
  | setSize w q old =>
    have hjob : (s.pubs 0).job = some w := by rw [hpc]; rfl
    simp only [hpc] at hs hmid
    obtain ⟨p, t₁, hreserved, hold, heq⟩ := hmid
    obtain rfl := Option.some.inj hs
    exact .inr ⟨f, done, h.go (w := w) hjob rfl ⟨p, t₁, hreserved, hold, by rw [heq]⟩⟩
  | setEmpty w q old =>
    have hjob : (s.pubs 0).job = some w := by rw [hpc]; rfl
    simp only [hpc] at hs hmid
    obtain ⟨p, t₁, ⟨hroom, rfl, t₂, halloc, rfl⟩, rfl, heq⟩ := hmid
    obtain rfl := Option.some.inj hs
    refine .inr ⟨f, done, h.go (w := w) hjob rfl ?_⟩
    change f.topic.exchange w.memblock = _
    rw [Topic.exchange, if_neg hroom, halloc, heq]
    rfl
  | unlock w q old =>
    have hjob : (s.pubs 0).job = some w := by rw [hpc]; rfl
    simp only [hpc] at hs hmid
    obtain rfl := Option.some.inj hs
    exact .inr ⟨f, done, h.go (w := w) hjob rfl hmid⟩
  | free w old =>
    have hjob : (s.pubs 0).job = some w := by rw [hpc]; rfl
    simp only [hpc] at hs hmid
    split at hs
    case h_1 t hfree =>
      obtain rfl := Option.some.inj hs
      exact .inr ⟨f, done, h.go (w := w) hjob rfl ⟨old, s.topic, hmid, hfree⟩⟩
    case h_2 t hfree =>
      -- the publisher tries again, and the topic is as it was
      obtain rfl := Option.some.inj hs
      obtain ⟨a, ha, rfl⟩ := Topic.free_ok hfree
      obtain rfl := free_false ha
      exact .inr ⟨f, done, h⟩
    case h_3 =>
      obtain rfl := Option.some.inj hs
      exact .inl (pubs_setPub ..)
  | incCounter w =>
    have hjob : (s.pubs 0).job = some w := by rw [hpc]; rfl
    obtain ⟨-, hfilled⟩ := h.job w hjob
    simp only [hpc] at hs hmid
    obtain ⟨old, t₁, hexchange, hfree⟩ := hmid
    obtain rfl := Option.some.inj hs
    have hcall : f.step 1 w.memblock =
        some ⟨s.topic.incCounter, f.accepted ++ [w.memblock]⟩ := by
      rw [Feed.step, if_pos hfilled, Topic.write_eq, hexchange]
      simp only [bind, Except.bind, Topic.freeLoop_first hfree]
      rfl
    exact .inr ⟨_, _, h.finish hjob hcall (.inr ⟨rfl, rfl⟩)⟩

theorem Serial.step {l : Label 1 m} (h : s.Serial heapBase bufferSize f done)
    (hs : s.step alloc l = some s') :
    s'.pubs 0 = .aborted ∨ ∃ f done, s'.Serial heapBase bufferSize f done := by
  cases l with
  | publisher i =>
    obtain rfl := Subsingleton.elim 0 i
    exact h.stepPub hs
  | write i memblock =>
    obtain rfl := Subsingleton.elim 0 i
    obtain ⟨hidle, hfilled, rfl⟩ := start_some hs
    have hcalls := h.calls
    have hmid := h.midway
    rw [hidle] at hcalls hmid
    have hdone : s.calls = done := by simpa [WritePc.job] using hcalls
    have hpc := pubs_setPub { s with calls := s.calls ++ [memblock] } (0 : Fin 1)
      (.checkMemory ⟨s.calls.length, memblock⟩)
    refine .inr ⟨f, done, h.run, ?_, ?_, h.accepted, h.returned, ?_⟩
    · rw [hpc, ← hdone]
      rfl
    · intro w hw
      rw [hpc] at hw
      obtain rfl := Option.some.inj hw
      exact ⟨congrArg List.length hdone, hfilled⟩
    · rw [hpc]
      exact hmid
  | subscriber j =>
    obtain ⟨htopic, hcalls, haccepted, hpubs, -⟩ := stepSub_locks hs
    refine .inr ⟨f, done, h.run, ?_, ?_, ?_, ?_, ?_⟩
    · rw [hcalls, hpubs]
      exact h.calls
    · rw [hpubs]
      exact h.job
    · rw [haccepted]
      exact h.accepted
    · rw [haccepted]
      exact h.returned
    · rw [hpubs, htopic]
      exact h.midway

theorem aborted_step {l : Label 1 m} (h : s.pubs 0 = .aborted) (hs : s.step alloc l = some s') :
    s'.pubs 0 = .aborted := by
  cases l with
  | publisher i =>
    obtain rfl := Subsingleton.elim 0 i
    simp [World.step, World.stepPub, h] at hs
  | write i memblock =>
    obtain rfl := Subsingleton.elim 0 i
    obtain ⟨hidle, -, -⟩ := start_some hs
    rw [h] at hidle
    cases hidle
  | subscriber j =>
    obtain ⟨-, -, -, hpubs, -⟩ := stepSub_locks hs
    rw [hpubs, h]

/-- Calls of `write` by a single publisher are not affected by what runs between their steps:
when they have returned, the topic is the one that the same calls leave without interruption,
and the same calls have been accepted. -/
theorem writes_are_serial {labels : List (Label 1 m)}
    (h : Machine.run (step alloc) (new heapBase bufferSize) labels = some s)
    (hfinished : s.Finished) :
    Machine.run (Feed.step 1) (Feed.new heapBase bufferSize) s.calls =
      some ⟨s.topic, s.accepted.filterMap (s.calls[·]?)⟩ := by
  have hinv := (Machine.Run.of_run h).invariant
    (fun s : World 1 m => s.pubs 0 = .aborted ∨ ∃ f done, s.Serial heapBase bufferSize f done)
    (.inr ⟨_, _, serial_new heapBase bufferSize⟩) ?_
  · obtain haborted | ⟨f, done, hserial⟩ := hinv
    · rw [hfinished 0] at haborted
      cases haborted
    · have hcalls := hserial.calls
      have hmid := hserial.midway
      rw [hfinished 0] at hcalls hmid
      have hdone : s.calls = done := by simpa [WritePc.job] using hcalls
      have htopic : s.topic = f.topic := hmid
      rw [hdone, ← hserial.accepted, htopic]
      exact hserial.run
  · rintro s l s' (haborted | ⟨f, done, hserial⟩) - hs
    · exact .inl (aborted_step haborted hs)
    · exact hserial.step hs

theorem writes_are_serial_between : ∃ s : World 1 1,
    Machine.run (step fun _ => true) (new 4096 64) ([.write 0 (.ofData [1, 2]), .subscriber 0] ++
      List.replicate 12 (.publisher 0) ++ List.replicate 7 (.subscriber 0) ++
      [.write 0 (.ofData (List.replicate 60 0)), .publisher 0, .subscriber 0]) = some s ∧
    Machine.run (Feed.step 1) (Feed.new 4096 64)
      [.ofData [1, 2], .ofData (List.replicate 60 0)] = some ⟨s.topic, [.ofData [1, 2]]⟩ := by
  obtain ⟨s, hs, hfinished, hcalls, haccepted⟩ : ∃ s : World 1 1,
      Machine.run (step fun _ => true) (new 4096 64) ([.write 0 (.ofData [1, 2]), .subscriber 0] ++
        List.replicate 12 (.publisher 0) ++ List.replicate 7 (.subscriber 0) ++
        [.write 0 (.ofData (List.replicate 60 0)), .publisher 0, .subscriber 0]) = some s ∧
      s.Finished ∧ s.calls = [.ofData [1, 2], .ofData (List.replicate 60 0)] ∧
      s.accepted = [0] := by
    have hrun : (Machine.run (step fun _ => true) (new 4096 64 : World 1 1)
        ([.write 0 (.ofData [1, 2]), .subscriber 0] ++ List.replicate 12 (.publisher 0) ++
          List.replicate 7 (.subscriber 0) ++
          [.write 0 (.ofData (List.replicate 60 0)), .publisher 0, .subscriber 0])).map
        (fun s => (decide s.Finished, s.calls, s.accepted)) =
        some (true, [.ofData [1, 2], .ofData (List.replicate 60 0)], [0]) := by decide +kernel
    simpa [Option.map_eq_some_iff] using hrun
  have hserial := writes_are_serial hs hfinished
  rw [hcalls, haccepted] at hserial
  exact ⟨s, hs, hserial⟩

end Single

end World

end Shadesmar.PubSub.Interleaving
