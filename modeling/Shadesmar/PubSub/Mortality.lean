import Shadesmar.PubSub.SlotLocks

namespace Shadesmar.PubSub

open Library Shadesmar.Memory Shadesmar.Concurrency

namespace Topic

def behind (t : Topic) (c : Nat) : List Nat :=
  (List.range (queueSize - 1)).filterMap fun k => t.oldAddress (qPos (c + 1 + k))

def named (t : Topic) (c : Nat) : List Nat := (t.oldAddress (qPos c)).toList ++ t.behind c

theorem filterMap_range_succ {A : Type} (f : Nat → Option A) (n : Nat) :
    (f 0).toList ++ (List.range n).filterMap (fun k => f (k + 1)) =
      (List.range n).filterMap f ++ (f n).toList := by
  have hfront : (List.range (n + 1)).filterMap f =
      (f 0).toList ++ (List.range n).filterMap fun k => f (k + 1) := by
    rw [List.range_succ_eq_map, List.filterMap_cons, List.filterMap_map]
    cases f 0 <;> rfl
  have hback : (List.range (n + 1)).filterMap f = (List.range n).filterMap f ++ (f n).toList := by
    rw [List.range_succ, List.filterMap_append]
    cases hf : f n <;> simp [hf]
  exact hfront.symm.trans hback

variable {t t' : Topic} {c p : Nat} {q : Fin queueSize}

theorem named_succ (t : Topic) (c : Nat) :
    t.named (c + 1) = t.behind c ++ (t.oldAddress (qPos c)).toList := by
  have hlap : c + 1 + (queueSize - 1) = c + queueSize := by
    unfold queueSize
    omega
  have hturn := filterMap_range_succ (fun k => t.oldAddress (qPos (c + 1 + k))) (queueSize - 1)
  simp only [hlap, qPos_add, Nat.add_zero] at hturn
  have hnext : ∀ k, c + 1 + 1 + k = c + 1 + (k + 1) := fun k => by omega
  unfold named behind
  simp only [hnext]
  exact hturn

theorem named_u32 (t : Topic) (c : Nat) : t.named (u32 c) = t.named c := by
  have hslot : ∀ k, qPos (u32 c + k) = qPos (c + k) := by
    intro k
    rw [qPos_eq_iff]
    unfold u32 queueSize
    omega
  have hfirst := hslot 0
  simp only [Nat.add_zero] at hfirst
  simp only [named, behind, hfirst, Nat.add_assoc, hslot]

theorem behind_setElem (t : Topic) (c : Nat) (e : Element) :
    (t.setElem (qPos c) e).behind c = t.behind c := by
  unfold behind
  apply List.filterMap_congr
  intro k hk
  have hlt := List.mem_range.mp hk
  have hne : qPos (c + 1 + k) ≠ qPos c := (qPos_ne (by omega) (by omega)).symm
  simp only [oldAddress, elem_setElem_ne _ _ _ hne, allocator_setElem]

def Names (t : Topic) (p : Nat) : Prop := ∃ q, t.oldAddress q = some p

theorem names_of_mem_named (h : p ∈ t.named c) : t.Names p := by
  rcases List.mem_append.mp h with hfirst | hbehind
  · exact ⟨_, Option.mem_toList.mp hfirst⟩
  · obtain ⟨k, -, hk⟩ := List.mem_filterMap.mp hbehind
    exact ⟨_, hk⟩

theorem names_of_mem_behind (h : p ∈ t.behind c) : t.Names p :=
  names_of_mem_named (List.mem_append_right _ h)

end Topic

namespace Interleaving

namespace WritePc

/-- The block at `p` is one that the call has allocated and not yet put into its slot, or has
taken out of its slot and not yet freed. -/
def Owns (t : Topic) (p : Nat) : WritePc → Prop
  | .copy _ _ newAddress => newAddress = p
  | .lock _ _ newAddress => newAddress = p
  | .readOld _ _ newAddress => newAddress = p
  | .setHandle _ _ newAddress old => newAddress = p ∨ old = some p
  | .setSize _ q old => t.allocator.handleToPtr (t.elem q).addressHandle = p ∨ old = some p
  | .setEmpty _ q old => t.allocator.handleToPtr (t.elem q).addressHandle = p ∨ old = some p
  | .unlock _ _ old => old = some p
  | .free _ old => old = some p
  | _ => False

/-- A death at this place harms nobody: the call has no block, or it has filled a slot that
was empty and still holds its lock, or its block, already in the slot, is the only one. -/
def MayDie (t : Topic) : WritePc → Prop
  | .idle => True
  | .checkMemory _ => True
  | .readCounter _ => True
  | .alloc _ _ => True
  | .unlock _ _ old => old = none
  | .free _ _ => t.allocator.liveBlocks.length = 1
  | .incCounter _ => t.allocator.liveBlocks.length = 1
  | _ => False

instance (t : Topic) (pc : WritePc) : Decidable (pc.MayDie t) := by
  cases pc <;> unfold MayDie <;> infer_instance

/-- The slots name all the blocks in their order.  While the slot of the counter is locked, the
order may start behind it. -/
def Ordered (t : Topic) (locks : Fin queueSize → RwLock) (ps : List Nat) : Prop :=
  ps = t.named t.counter ∨ (locks (qPos t.counter)).writer = true ∧ ps = t.named (t.counter + 1)

def Stage (t : Topic) (locks : Fin queueSize → RwLock) (ps : List Nat) : WritePc → Prop
  | .idle => Ordered t locks ps
  | .checkMemory w => Ordered t locks ps ∧ w.memblock.Filled
  | .readCounter w =>
    Ordered t locks ps ∧ w.memblock.Filled ∧ w.memblock.size ≤ t.allocator.size
  | .alloc w q =>
    Ordered t locks ps ∧ w.memblock.Filled ∧ w.memblock.size ≤ t.allocator.size ∧
      q = qPos t.counter
  | .copy w q p => q = qPos t.counter ∧ ∃ ps₀ b, ps = ps₀ ++ [p] ∧ Ordered t locks ps₀ ∧
      p = t.allocator.ptr b ∧ b ∈ t.allocator.liveBlocks ∧ w.memblock.bytes.length ≤ 4 * b.size
  | .lock _ q p => q = qPos t.counter ∧ ∃ ps₀, ps = ps₀ ++ [p] ∧ Ordered t locks ps₀
  | .readOld _ q p =>
    q = qPos t.counter ∧ (locks q).writer = true ∧ ps = t.named t.counter ++ [p]
  | .setHandle _ q p old =>
    q = qPos t.counter ∧ (locks q).writer = true ∧ ps = old.toList ++ t.behind t.counter ++ [p]
  | .setSize _ q old =>
    q = qPos t.counter ∧ (locks q).writer = true ∧ ps = old.toList ++ t.behind t.counter ++
      [t.allocator.handleToPtr (t.elem q).addressHandle]
  | .setEmpty _ q old =>
    q = qPos t.counter ∧ (locks q).writer = true ∧ ps = old.toList ++ t.behind t.counter ++
      [t.allocator.handleToPtr (t.elem q).addressHandle]
  | .unlock _ q old =>
    q = qPos t.counter ∧ (locks q).writer = true ∧ (t.oldAddress q).isSome ∧
      ps = old.toList ++ t.named (t.counter + 1)
  | .free _ old =>
    (t.oldAddress (qPos t.counter)).isSome ∧ ps = old.toList ++ t.named (t.counter + 1)
  | .incCounter _ => ps = t.named (t.counter + 1)
  | .aborted => False

end WritePc

namespace WritePc

variable {t : Topic} {locks locks' : Fin queueSize → RwLock} {ps : List Nat} {pc : WritePc} {p : Nat}

theorem Ordered.names (h : Ordered t locks ps) (hp : p ∈ ps) : t.Names p := by
  rcases h with rfl | ⟨-, rfl⟩ <;> exact Topic.names_of_mem_named hp

theorem Ordered.mono (h : Ordered t locks ps)
    (hlocks : ∀ q, (locks q).writer = true → (locks' q).writer = true) : Ordered t locks' ps :=
  h.imp_right fun ⟨hwriter, hps⟩ => ⟨hlocks _ hwriter, hps⟩

theorem Stage.mono (h : pc.Stage t locks ps)
    (hlocks : ∀ q, (locks q).writer = true → (locks' q).writer = true) :
    pc.Stage t locks' ps := by
  cases pc with
  | idle => exact Ordered.mono h hlocks
  | checkMemory w | readCounter w | alloc w q => exact h.imp_left fun hps => hps.mono hlocks
  | copy w q p =>
    obtain ⟨hq, ps₀, b, hps, hold, hrest⟩ := h
    exact ⟨hq, ps₀, b, hps, hold.mono hlocks, hrest⟩
  | lock w q p =>
    obtain ⟨hq, ps₀, hps, hold⟩ := h
    exact ⟨hq, ps₀, hps, hold.mono hlocks⟩
  | readOld w q p | setHandle w q p old | setSize w q old | setEmpty w q old | unlock w q old =>
    exact ⟨h.1, hlocks _ h.2.1, h.2.2⟩
  | free w old | incCounter w => exact h
  | aborted => exact h.elim

theorem Stage.accounted (h : pc.Stage t locks ps) (hp : p ∈ ps) : t.Names p ∨ pc.Owns t p := by
  cases pc with
  | idle => exact .inl (Ordered.names h hp)
  | checkMemory w | readCounter w | alloc w q => exact .inl (h.1.names hp)
  | copy w q p' =>
    obtain ⟨-, ps₀, b, rfl, hold, -⟩ := h
    rcases List.mem_append.mp hp with hmem | hnew
    · exact .inl (hold.names hmem)
    · exact .inr (List.mem_singleton.mp hnew).symm
  | lock w q p' =>
    obtain ⟨-, ps₀, rfl, hold⟩ := h
    rcases List.mem_append.mp hp with hmem | hnew
    · exact .inl (hold.names hmem)
    · exact .inr (List.mem_singleton.mp hnew).symm
  | readOld w q p' =>
    obtain ⟨-, -, rfl⟩ := h
    rcases List.mem_append.mp hp with hmem | hnew
    · exact .inl (Topic.names_of_mem_named hmem)
    · exact .inr (List.mem_singleton.mp hnew).symm
  | setHandle w q p' old | setSize w q old | setEmpty w q old =>
    obtain ⟨-, -, rfl⟩ := h
    simp only [List.mem_append, Option.mem_toList, List.mem_singleton] at hp
    rcases hp with (hold | hmem) | hnew
    · exact .inr (.inr hold)
    · exact .inl (Topic.names_of_mem_behind hmem)
    · exact .inr (.inl hnew.symm)
  | unlock w q old =>
    obtain ⟨-, -, -, rfl⟩ := h
    rcases List.mem_append.mp hp with hold | hmem
    · exact .inr (Option.mem_toList.mp hold)
    · exact .inl (Topic.names_of_mem_named hmem)
  | free w old =>
    obtain ⟨-, rfl⟩ := h
    rcases List.mem_append.mp hp with hold | hmem
    · exact .inr (Option.mem_toList.mp hold)
    · exact .inl (Topic.names_of_mem_named hmem)
  | incCounter w =>
    obtain rfl : ps = _ := h
    exact .inl (Topic.names_of_mem_named hp)
  | aborted => exact h.elim

theorem named_one (h : (t.named (t.counter + 1)).length = 1) :
    t.named (t.counter + 1) = t.named t.counter := by
  rw [Topic.named_succ] at h ⊢
  unfold Topic.named
  cases hold : t.oldAddress (qPos t.counter) with
  | none => simp
  | some p =>
    rw [hold, List.length_append] at h
    have hnil : t.behind t.counter = [] := List.length_eq_zero_iff.mp (by simpa using h)
    rw [hnil]
    rfl

theorem Stage.die (h : pc.Stage t locks ps) (hlive : t.allocator.liveBlocks.length = ps.length)
    (hdie : pc.MayDie t) : Ordered t locks ps := by
  cases pc with
  | idle => exact h
  | checkMemory w | readCounter w | alloc w q => exact h.1
  | unlock w q old =>
    obtain ⟨rfl, hwriter, -, rfl⟩ := h
    obtain rfl : old = none := hdie
    exact .inr ⟨hwriter, rfl⟩
  | free w old =>
    obtain ⟨hsome, rfl⟩ := h
    have hone : t.allocator.liveBlocks.length = 1 := hdie
    rw [hone, List.length_append] at hlive
    cases old with
    | none => exact .inl (named_one (by simpa using hlive.symm))
    | some p =>
      -- the slot names a second block
      have hlength : (t.named (t.counter + 1)).length = 0 := by simpa using hlive.symm
      rw [Topic.named_succ, List.length_append] at hlength
      obtain ⟨p', hp'⟩ := Option.isSome_iff_exists.mp hsome
      simp [hp'] at hlength
  | incCounter w =>
    obtain rfl : ps = _ := h
    exact .inl (named_one (hlive.symm.trans hdie))
  | copy w q p | lock w q p | readOld w q p | setHandle w q p old | setSize w q old
  | setEmpty w q old | aborted => exact hdie.elim

end WritePc

namespace World

variable {n m : Nat} {s s' : World n m} {i : Fin n} {bs : List Block}

theorem stage_stepPub (hring : s.topic.allocator.Ring bs) (hsmall : s.topic.allocator.size + 1 < 2 ^ 32)
    (h : (s.pubs i).Stage s.topic s.locks (bs.map s.topic.allocator.ptr))
    (hs : s.stepPub i = some s') :
    ∃ bs', s'.topic.allocator.Ring bs' ∧ s'.topic.allocator.size = s.topic.allocator.size ∧
      (s'.pubs i).Stage s'.topic s'.locks (bs'.map s'.topic.allocator.ptr) := by
  unfold stepPub at hs
  cases hpc : s.pubs i with
  | idle | aborted => simp [hpc] at hs
  | checkMemory w =>
    rw [hpc] at h
    obtain ⟨hordered, hfilled⟩ := h
    simp only [hpc] at hs
    split_ifs at hs with hroom <;> obtain rfl := Option.some.inj hs <;> rw [pubs_setPub]
    · exact ⟨bs, hring, rfl, hordered⟩
    · have hle := hring.getFreeMemory_le
      have hsize : w.memblock.size ≤ s.topic.allocator.size := by omega
      exact ⟨bs, hring, rfl, hordered, hfilled, hsize⟩
  | readCounter w =>
    rw [hpc] at h
    obtain ⟨hordered, hfilled, hsize⟩ := h
    simp only [hpc] at hs
    obtain rfl := Option.some.inj hs
    rw [pubs_setPub]
    exact ⟨bs, hring, rfl, hordered, hfilled, hsize, rfl⟩
  | alloc w q =>
    rw [hpc] at h
    obtain ⟨hordered, hfilled, hsize, hq⟩ := h
    have hnarrow : u32 w.memblock.size = w.memblock.size := u32_eq (by omega)
    simp only [hpc, Topic.alloc, hnarrow] at hs
    rcases hring.alloc w.memblock.size with hnone | ⟨b, hsome, hpush, -, hlays⟩
    · rw [hnone] at hs
      obtain rfl := Option.some.inj hs
      rw [pubs_setPub]
      exact ⟨bs, hring, rfl, hordered⟩
    · rw [hsome] at hs
      obtain rfl := Option.some.inj hs
      rw [pubs_setPub]
      refine ⟨bs ++ [b], hpush, rfl, hq, bs.map s.topic.allocator.ptr, b, ?_, hordered, rfl, ?_, ?_⟩
      · rw [List.map_append]
        rfl
      · show b ∈ (s.topic.allocator.push b).liveBlocks
        rw [hpush.liveBlocks]
        exact List.mem_append_right _ List.mem_cons_self
      · have hlen : w.memblock.bytes.length = w.memblock.size := hfilled
        have hroom := (hlays (by omega)).room
        omega
  | copy w q p =>
    rw [hpc] at h
    obtain ⟨hq, ps₀, b, hps, hordered, rfl, hmem, hroom⟩ := h
    simp only [hpc] at hs
    obtain rfl := Option.some.inj hs
    rw [hring.liveBlocks] at hmem
    rw [pubs_setPub]
    exact ⟨bs, hring.store hmem hroom, rfl, hq, ps₀, hps, hordered⟩
  | lock w q p =>
    rw [hpc] at h
    obtain ⟨rfl, ps₀, hps, hordered⟩ := h
    simp only [hpc, Option.map_eq_some_iff] at hs
    obtain ⟨l, hl, rfl⟩ := hs
    obtain ⟨hfree, rfl⟩ := RwLock.tryLock_some hl
    rw [pubs_setPub]
    refine ⟨bs, hring, rfl, rfl, ?_, ?_⟩
    · simp [World.setPub, World.setLock]
    · rcases hordered with rfl | ⟨hwriter, -⟩
      · exact hps
      · rw [hfree] at hwriter
        cases hwriter
  | readOld w q p =>
    rw [hpc] at h
    obtain ⟨rfl, hwriter, hps⟩ := h
    simp only [hpc] at hs
    obtain rfl := Option.some.inj hs
    rw [pubs_setPub]
    exact ⟨bs, hring, rfl, rfl, hwriter, hps⟩
  | setHandle w q p old =>
    rw [hpc] at h
    obtain ⟨rfl, hwriter, hps⟩ := h
    simp only [hpc] at hs
    obtain rfl := Option.some.inj hs
    have hmem : p ∈ bs.map s.topic.allocator.ptr := by
      rw [hps]
      exact List.mem_append_right _ List.mem_cons_self
    obtain ⟨b, -, rfl⟩ := List.mem_map.mp hmem
    rw [pubs_setPub]
    refine ⟨bs, hring, rfl, rfl, hwriter, ?_⟩
    simpa [World.setPub, World.setTopic, Topic.setHandle, Topic.behind_setElem] using hps
  | setSize w q old =>
    rw [hpc] at h
    obtain ⟨rfl, hwriter, hps⟩ := h
    simp only [hpc] at hs
    obtain rfl := Option.some.inj hs
    rw [pubs_setPub]
    refine ⟨bs, hring, rfl, rfl, hwriter, ?_⟩
    simpa [World.setPub, World.setTopic, Topic.setSize, Topic.behind_setElem] using hps
  | setEmpty w q old =>
    rw [hpc] at h
    obtain ⟨rfl, hwriter, hps⟩ := h
    simp only [hpc] at hs
    obtain rfl := Option.some.inj hs
    rw [pubs_setPub]
    have hnew : (s.topic.setEmpty (qPos s.topic.counter)).oldAddress (qPos s.topic.counter) =
        some (s.topic.allocator.handleToPtr (s.topic.elem (qPos s.topic.counter)).addressHandle) := by
      simp [Topic.oldAddress, Topic.setEmpty]
    refine ⟨bs, hring, rfl, rfl, hwriter, ?_, ?_⟩
    · exact hnew ▸ rfl
    · show bs.map s.topic.allocator.ptr =
        old.toList ++ (s.topic.setEmpty (qPos s.topic.counter)).named (s.topic.counter + 1)
      rw [Topic.named_succ, hnew, Topic.setEmpty, Topic.behind_setElem, hps, List.append_assoc]
      rfl
  | unlock w q old =>
    rw [hpc] at h
    obtain ⟨rfl, -, hsome, hps⟩ := h
    simp only [hpc] at hs
    obtain rfl := Option.some.inj hs
    rw [pubs_setPub]
    exact ⟨bs, hring, rfl, hsome, hps⟩
  | free w old =>
    rw [hpc] at h
    obtain ⟨-, hps⟩ := h
    cases old with
    | none =>
      simp only [hpc] at hs
      obtain rfl := Option.some.inj hs
      rw [pubs_setPub]
      exact ⟨bs, hring, rfl, hps⟩
    | some p =>
      cases bs with
      | nil => cases hps
      | cons b bs =>
        obtain ⟨hhead, htail⟩ := List.cons.inj hps
        obtain rfl : s.topic.allocator.ptr b = p := hhead
        simp only [hpc, Topic.free, hring.free_head] at hs
        obtain rfl := Option.some.inj hs
        rw [pubs_setPub]
        exact ⟨bs, hring.pop, rfl, htail⟩
  | incCounter w =>
    rw [hpc] at h
    simp only [hpc] at hs
    obtain rfl := Option.some.inj hs
    rw [pubs_setPub]
    refine ⟨bs, hring, rfl, .inl ?_⟩
    have hnext : s.topic.named (u32 (s.topic.counter + 1)) = s.topic.named (s.topic.counter + 1) :=
      Topic.named_u32 _ _
    exact Eq.trans h hnext.symm

theorem writer_stepSub {alloc : Nat → Bool} {j : Fin m} (h : s.LocksSound)
    (hs : s.stepSub alloc j = some s') (q : Fin queueSize) (hq : (s.locks q).writer = true) :
    (s'.locks q).writer = true := by
  obtain ⟨-, -, -, -, r, -, hlocks⟩ := stepSub_locks hs
  rcases hlocks with ⟨hlocks, -⟩ | ⟨q₀, l, -, -, hlock, hlocks⟩ | ⟨q₀, hsome, -, hlocks⟩
  · rw [hlocks]
    exact hq
  · rw [hlocks]
    by_cases hqq : q = q₀
    · subst hqq
      rw [(RwLock.tryLockSharable_some hlock).1] at hq
      cases hq
    · rwa [Function.update_of_ne hqq]
  · rw [hlocks]
    by_cases hqq : q = q₀
    · subst hqq
      have hreader : 0 < Tally.total (Tally.holding Reader.slot q) s.subs :=
        Tally.total_pos Reader.slot hsome
      have hnone := (h q).readers.symm.trans ((h q).exclusive hq)
      omega
    · rwa [Function.update_of_ne hqq]

end World

end Interleaving

open Interleaving

structure Mortal (n m : Nat) where
  world : World n m
  dead : Fin n → Bool

namespace Mortal

variable {n m : Nat}

inductive Label (n m : Nat)
  | write (i : Fin n) (memblock : Memblock)
  | publisher (i : Fin n)
  | subscriber (j : Fin m)
  | die (i : Fin n)

def new (heapBase bufferSize : Nat) : Mortal n m := ⟨.new heapBase bufferSize, fun _ => false⟩

def Idle (s : Mortal n m) : Prop := ∀ i, s.dead i = false → s.world.pubs i = .idle

instance (s : Mortal n m) : Decidable s.Idle := inferInstanceAs (Decidable (∀ _, _))

/-- A call of `write` starts only when no other is in progress. -/
def step (alloc : Nat → Bool) (s : Mortal n m) : Label n m → Option (Mortal n m)
  | .write i memblock =>
    if s.dead i = false ∧ s.Idle then
      (s.world.start i memblock).map fun world => { s with world := world }
    else none
  | .publisher i =>
    if s.dead i = false then (s.world.stepPub i).map fun world => { s with world := world }
    else none
  | .subscriber j => (s.world.stepSub alloc j).map fun world => { s with world := world }
  | .die i => some { s with dead := Function.update s.dead i true }

/-- Every live block is named by a slot that is not empty or belongs to the call of a live
publisher. -/
def NoOrphans (s : Mortal n m) : Prop :=
  ∀ b ∈ s.world.topic.allocator.liveBlocks, s.world.topic.Names (s.world.topic.allocator.ptr b) ∨
    ∃ i, s.dead i = false ∧
      (s.world.pubs i).Owns s.world.topic (s.world.topic.allocator.ptr b)

def FreesEnd (s : Mortal n m) : Prop :=
  ∀ i w old, s.dead i = false → s.world.pubs i = .free w old →
    ∃ t, s.world.topic.free old = .ok (true, t)

/-- Publishers die only where it harms nobody. -/
def Spares (s : Mortal n m) (l : Label n m) : Prop :=
  ∀ i, l = .die i → s.dead i = false → (s.world.pubs i).MayDie s.world.topic

instance (s : Mortal n m) (l : Label n m) : Decidable (s.Spares l) :=
  match l with
  | .die i => decidable_of_iff (s.dead i = false → (s.world.pubs i).MayDie s.world.topic)
      ⟨fun h _ hi => Label.die.inj hi ▸ h, fun h => h i rfl⟩
  | .write _ _ => .isTrue nofun
  | .publisher _ => .isTrue nofun
  | .subscriber _ => .isTrue nofun

structure Sound (s : Mortal n m) (bs : List Block) : Prop where
  ring : s.world.topic.allocator.Ring bs
  small : s.world.topic.allocator.size + 1 < 2 ^ 32
  locks : s.world.LocksSound
  stage : s.Idle ∧ WritePc.Ordered s.world.topic s.world.locks
      (bs.map s.world.topic.allocator.ptr) ∨
    ∃ i, s.dead i = false ∧ (∀ j, j ≠ i → s.dead j = false → s.world.pubs j = .idle) ∧
      (s.world.pubs i).Stage s.world.topic s.world.locks (bs.map s.world.topic.allocator.ptr)

section Steps

variable {s s' : Mortal n m} {bs : List Block} {alloc : Nat → Bool} {i : Fin n} {j : Fin m}
variable {w : World n m}

theorem Sound.ordered (h : s.Sound bs) (hidle : s.Idle) :
    WritePc.Ordered s.world.topic s.world.locks (bs.map s.world.topic.allocator.ptr) := by
  rcases h.stage with ⟨-, hordered⟩ | ⟨i, hi, -, hstage⟩
  · exact hordered
  · rwa [hidle i hi] at hstage

theorem Sound.stage_of_busy (h : s.Sound bs) (hi : s.dead i = false) (hbusy : s.world.pubs i ≠ .idle) :
    (∀ j, j ≠ i → s.dead j = false → s.world.pubs j = .idle) ∧
    (s.world.pubs i).Stage s.world.topic s.world.locks (bs.map s.world.topic.allocator.ptr) := by
  rcases h.stage with ⟨hidle, -⟩ | ⟨k, hk, hothers, hstage⟩
  · exact absurd (hidle i hi) hbusy
  · by_cases hik : i = k
    · subst hik
      exact ⟨hothers, hstage⟩
    · exact absurd (hothers i hik hi) hbusy

theorem Sound.write {memblock : Memblock} (h : s.Sound bs) (hi : s.dead i = false) (hidle : s.Idle)
    (hs : s.world.start i memblock = some w) : Sound { s with world := w } bs := by
  have hordered := h.ordered hidle
  obtain ⟨-, hfilled, rfl⟩ := World.start_some hs
  refine ⟨h.ring, h.small, h.locks.start hs, .inr ⟨i, hi, ?_, ?_⟩⟩
  · intro j hj hlive
    simpa only [World.setPub, Function.update_of_ne hj] using hidle j hlive
  · rw [World.pubs_setPub]
    exact ⟨hordered, hfilled⟩

theorem Sound.publisher (h : s.Sound bs) (hi : s.dead i = false)
    (hs : s.world.stepPub i = some w) : ∃ bs', Sound { s with world := w } bs' := by
  have hbusy : s.world.pubs i ≠ .idle := by
    intro hidle
    simp [World.stepPub, hidle] at hs
  obtain ⟨hothers, hstage⟩ := h.stage_of_busy hi hbusy
  obtain ⟨bs', hring, hsize, hstage'⟩ := World.stage_stepPub h.ring h.small hstage hs
  obtain ⟨-, pc, hpubs, -⟩ := World.stepPub_locks hs
  refine ⟨bs', hring, hsize ▸ h.small, h.locks.stepPub hs, .inr ⟨i, hi, ?_, hstage'⟩⟩
  intro j hj hlive
  simpa only [hpubs, Function.update_of_ne hj] using hothers j hj hlive

theorem Sound.subscriber (h : s.Sound bs) (hs : s.world.stepSub alloc j = some w) :
    Sound { s with world := w } bs := by
  have hlocks := World.writer_stepSub h.locks hs
  obtain ⟨htopic, -, -, hpubs, -⟩ := World.stepSub_locks hs
  have hstage := h.stage
  refine ⟨htopic ▸ h.ring, htopic ▸ h.small, h.locks.stepSub hs, ?_⟩
  simp only [Idle, htopic, hpubs]
  rcases h.stage with ⟨hidle, hordered⟩ | ⟨i, hi, hothers, hstage⟩
  · exact .inl ⟨hidle, hordered.mono hlocks⟩
  · exact .inr ⟨i, hi, hothers, hstage.mono hlocks⟩

theorem Sound.die (h : s.Sound bs) (hdie : s.dead i = false → (s.world.pubs i).MayDie s.world.topic) :
    Sound { s with dead := Function.update s.dead i true } bs := by
  have hlive : ∀ j, Function.update s.dead i true j = false → j ≠ i ∧ s.dead j = false := by
    intro j hj
    by_cases hji : j = i
    · simp [hji] at hj
    · exact ⟨hji, by simpa only [Function.update_of_ne hji] using hj⟩
  refine ⟨h.ring, h.small, h.locks, ?_⟩
  rcases h.stage with ⟨hidle, hordered⟩ | ⟨k, hk, hothers, hstage⟩
  · exact .inl ⟨fun j hj => hidle j (hlive j hj).2, hordered⟩
  · by_cases hki : k = i
    · subst hki
      have hcount : s.world.topic.allocator.liveBlocks.length =
          (bs.map s.world.topic.allocator.ptr).length := by
        rw [h.ring.liveBlocks, List.length_map]
      refine .inl ⟨fun j hj => ?_, hstage.die hcount (hdie hk)⟩
      obtain ⟨hji, hj⟩ := hlive j hj
      exact hothers j hji hj
    · refine .inr ⟨k, ?_, fun j hjk hj => hothers j hjk (hlive j hj).2, hstage⟩
      simpa only [Function.update_of_ne hki] using hk

theorem Sound.step {l : Label n m} (h : s.Sound bs) (hok : s.Spares l)
    (hs : s.step alloc l = some s') : ∃ bs', s'.Sound bs' := by
  cases l with
  | write i memblock =>
    simp only [Mortal.step] at hs
    split_ifs at hs with hi
    obtain ⟨w, hw, rfl⟩ := Option.map_eq_some_iff.mp hs
    exact ⟨bs, h.write hi.1 hi.2 hw⟩
  | publisher i =>
    simp only [Mortal.step] at hs
    split_ifs at hs with hi
    obtain ⟨w, hw, rfl⟩ := Option.map_eq_some_iff.mp hs
    exact h.publisher hi hw
  | subscriber j =>
    obtain ⟨w, hw, rfl⟩ := Option.map_eq_some_iff.mp hs
    exact ⟨bs, h.subscriber hw⟩
  | die i =>
    obtain rfl := Option.some.inj hs
    exact ⟨bs, h.die (hok i rfl)⟩

theorem Sound.noOrphans (h : s.Sound bs) : s.NoOrphans := by
  intro b hb
  rw [h.ring.liveBlocks] at hb
  have hmem := List.mem_map_of_mem (f := s.world.topic.allocator.ptr) hb
  rcases h.stage with ⟨-, hordered⟩ | ⟨i, hi, -, hstage⟩
  · exact .inl (hordered.names hmem)
  · exact (hstage.accounted hmem).imp_right fun howns => ⟨i, hi, howns⟩

theorem Sound.freesEnd (h : s.Sound bs) : s.FreesEnd := by
  intro i w old hi hpc
  obtain ⟨-, hstage⟩ := h.stage_of_busy hi (by rw [hpc]; nofun)
  rw [hpc] at hstage
  obtain ⟨-, hps⟩ := hstage
  have hring := h.ring
  unfold Topic.free
  cases old with
  | none => exact ⟨_, rfl⟩
  | some p =>
    cases bs with
    | nil => cases hps
    | cons b bs =>
      obtain rfl : s.world.topic.allocator.ptr b = p := (List.cons.inj hps).1
      rw [hring.free_head]
      exact ⟨_, rfl⟩

end Steps

section Runs

variable {s : Mortal n m} {alloc : Nat → Bool} {heapBase bufferSize : Nat} {labels : List (Label n m)}

/-- As long as publishers die only where it harms nobody, no block is orphaned and every free
loop ends. -/
theorem no_orphans_of_spares (hdvd : 4 ∣ bufferSize) (hle : 8 ≤ bufferSize)
    (hlim : bufferSize + 1 < 2 ^ 32) (hspace : heapBase + bufferSize ≤ 2 ^ 64)
    (h : Machine.Run (step alloc) Spares (new heapBase bufferSize) labels s) :
    s.NoOrphans ∧ s.FreesEnd := by
  have hring := Allocator.ring_new
    (show (Allocator.new heapBase bufferSize).Sized from
      ⟨hdvd, hle, Nat.le_of_lt (Nat.lt_of_succ_lt hlim), hspace⟩)
  have hnew : Sound (new heapBase bufferSize : Mortal n m) [] := by
    refine ⟨hring, hlim, World.locksSound_new heapBase bufferSize, .inl ⟨fun _ _ => rfl, .inl ?_⟩⟩
    simp [Topic.named, Topic.behind, Topic.oldAddress, new, World.new, Topic.new, Topic.elem,
      Element.fresh]
  obtain ⟨bs, hsound⟩ := h.invariant (fun s => ∃ bs, s.Sound bs) ⟨[], hnew⟩
    fun _ _ _ ⟨_, ht⟩ hok hs => ht.step hok hs
  exact ⟨hsound.noOrphans, hsound.freesEnd⟩

end Runs

theorem no_orphans_after_death : ∃ s : Mortal 2 0,
    Machine.run (step fun _ => true) (new 4096 64) ([.write 0 (.ofData [1])] ++
      List.replicate 10 (.publisher 0) ++ [.die 0, .write 1 (.ofData [2])] ++
      List.replicate 12 (.publisher 1)) = some s ∧
    s.world.topic.counter = 1 ∧ s.NoOrphans ∧ s.FreesEnd := by
  have hrun : (Machine.runIf (step fun _ => true) (fun s l => decide (s.Spares l))
      (new 4096 64 : Mortal 2 0) ([.write 0 (.ofData [1])] ++ List.replicate 10 (.publisher 0) ++
        [.die 0, .write 1 (.ofData [2])] ++ List.replicate 12 (.publisher 1))).map
      (fun s => s.world.topic.counter) = some 1 := by decide +kernel
  obtain ⟨s, hs, hcounter⟩ := Option.map_eq_some_iff.mp hrun
  have hrun := Machine.Run.of_runIf (fun _ _ => of_decide_eq_true) hs
  exact ⟨s, hrun.run_eq, hcounter,
    no_orphans_of_spares (by decide) (by decide) (by decide) (by decide) hrun⟩

/-- A publisher that dies after its allocation leaves an orphan.  One that dies before it has
counted its second message makes the next publisher try for ever to free its block. -/
theorem death_orphans :
    (∃ s : Mortal 2 0, Machine.run (step fun _ => true) (new 4096 64)
      ([.write 0 (.ofData [1])] ++ List.replicate 3 (.publisher 0) ++ [.die 0]) = some s ∧
      ¬ s.NoOrphans) ∧
    ∃ s : Mortal 2 0, Machine.run (step fun _ => true) (new 4096 64)
      ([.write 0 (.ofData [1])] ++ List.replicate 12 (.publisher 0) ++ [.write 0 (.ofData [2])] ++
        List.replicate 10 (.publisher 0) ++ [.die 0, .write 1 (.ofData [3])] ++
        List.replicate 10 (.publisher 1)) = some s ∧ ¬ s.FreesEnd := by
  constructor
  · have hrun : (Machine.run (step fun _ => true) (new 4096 64 : Mortal 2 0)
        ([.write 0 (.ofData [1])] ++ List.replicate 3 (.publisher 0) ++ [.die 0])).map
        (fun s => (s.world.topic.allocator.liveBlocks.length, s.dead 0, s.world.pubs 1,
          decide (∀ q, (s.world.topic.elem q).empty = true))) = some (1, true, .idle, true) := by
      decide +kernel
    obtain ⟨s, hs, hvals⟩ := Option.map_eq_some_iff.mp hrun
    simp only [Prod.mk.injEq, decide_eq_true_eq] at hvals
    obtain ⟨hlength, hdead, hidle, hempty⟩ := hvals
    refine ⟨s, hs, ?_⟩
    intro hnone
    obtain ⟨b, hb⟩ := List.length_eq_one_iff.mp hlength
    rcases hnone b (by simp [hb]) with ⟨q, hq⟩ | ⟨i, hi, howns⟩
    · rw [Topic.oldAddress, if_pos (hempty q)] at hq
      cases hq
    · match i with
      | 0 =>
        rw [hdead] at hi
        cases hi
      | 1 =>
        rw [hidle] at howns
        exact howns
  · have hrun : (Machine.run (step fun _ => true) (new 4096 64 : Mortal 2 0)
        ([.write 0 (.ofData [1])] ++ List.replicate 12 (.publisher 0) ++
        [.write 0 (.ofData [2])] ++ List.replicate 10 (.publisher 0) ++
        [.die 0, .write 1 (.ofData [3])] ++ List.replicate 10 (.publisher 1))).map
        (fun s => (s.dead 1, s.world.pubs 1, (s.world.topic.free (some 4108)).map Prod.fst)) =
        some (false, .free ⟨2, .ofData [3]⟩ (some 4108), .ok false) := by decide +kernel
    obtain ⟨s, hs, hvals⟩ := Option.map_eq_some_iff.mp hrun
    simp only [Prod.mk.injEq] at hvals
    obtain ⟨hlive, hpc, hfree⟩ := hvals
    refine ⟨s, hs, ?_⟩
    intro hends
    obtain ⟨t, ht⟩ := hends 1 _ _ hlive hpc
    rw [ht] at hfree
    cases hfree

end Mortal

end Shadesmar.PubSub
