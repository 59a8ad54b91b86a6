import Shadesmar.PubSub.Publishing

namespace Shadesmar.PubSub.Interleaving

open Library Shadesmar.Memory Shadesmar.Concurrency

structure Secured (counted : Nat) (v : Stages) (held : Fin queueSize) (c : Nat) : Prop where
  counted : c < counted
  barrier : ∃ b, v.locked ≤ b ∧ b ≤ c + queueSize ∧ qPos b = held

def ReadPc.Knows (P : Bool → Prop) (alloc : Nat → Bool) (counted : Nat) (hist : List Entry)
    (v : Stages) (c : Nat) : ReadPc → Prop
  | .idle => True
  | .check => True
  | .checkLag => c < counted
  | .jump => queueSize ≤ counted
  | .lockSharable => c < counted
  | .readCounter held => c < counted ∧ held = qPos c
  | .jumpahead _ => queueSize ≤ counted
  | .readEmpty held fast => P fast → Secured counted v held c
  | .readHandle held fast => P fast → Secured counted v held c
  | .readSize held fast handle => P fast → Secured counted v held c ∧
      ∃ r, hist[c]? = some r ∧ handle = r.block.handle
  | .copy held fast handle size got => P fast → Secured counted v held c ∧
      (got = [] ∨ alloc size = true) ∧ ∃ r, hist[c]? = some r ∧ handle = r.block.handle ∧
      size = r.msg.length ∧ got.length ≤ size ∧ got = r.msg.take got.length
  | .unlock held fast result => P fast → Secured counted v held c ∧
      ∃ r memblock, hist[c]? = some r ∧ result = some memblock ∧ memblock.size = r.msg.length ∧
        memblock.bytes = r.msg
  | .returned fast memblock => P fast → c < counted ∧
      ∃ r, hist[c]? = some r ∧ memblock.size = r.msg.length ∧ memblock.bytes = r.msg

theorem Secured.mono {counted counted' : Nat} {v v' : Stages} {held : Fin queueSize} {c : Nat}
    (h : Secured counted v held c) (hcounted : counted ≤ counted')
    (hlocked : v'.locked = v.locked ∨ v'.locked = v.locked + 1 ∧ held ≠ qPos v.locked) :
    Secured counted' v' held c := by
  obtain ⟨hc, b, hle, hlap, hb⟩ := h
  refine ⟨Nat.lt_of_lt_of_le hc hcounted, b, ?_, hlap, hb⟩
  rcases hlocked with hsame | ⟨hsucc, hne⟩
  · rw [hsame]
    exact hle
  · have hb' : b ≠ v.locked := by
      rintro rfl
      exact hne hb.symm
    omega

theorem ReadPc.Knows.mono {P : Bool → Prop} {alloc : Nat → Bool} {counted counted' : Nat}
    {hist hist' : List Entry} {v v' : Stages} {c : Nat} {pc : ReadPc}
    (h : pc.Knows P alloc counted hist v c) (hcounted : counted ≤ counted')
    (hhist : hist <+: hist')
    (hlocked : v'.locked = v.locked ∨ v'.locked = v.locked + 1 ∧ pc.slot ≠ some (qPos v.locked)) :
    pc.Knows P alloc counted' hist' v' c := by
  have hget : ∀ {r : Entry}, hist[c]? = some r → hist'[c]? = some r := by
    obtain ⟨rest, rfl⟩ := hhist
    intro r hr
    rw [List.getElem?_append_left (List.getElem?_eq_some_iff.mp hr).1, hr]
  have hsecured : ∀ {held : Fin queueSize}, pc.slot = some held → Secured counted v held c →
      Secured counted' v' held c := by
    intro held hslot hsec
    refine hsec.mono hcounted (hlocked.imp_right fun ⟨hsucc, hne⟩ => ⟨hsucc, ?_⟩)
    rintro rfl
    exact hne hslot
  cases pc with
  | idle => trivial
  | check => trivial
  | checkLag => exact Nat.lt_of_lt_of_le h hcounted
  | jump => exact Nat.le_trans h hcounted
  | lockSharable => exact Nat.lt_of_lt_of_le h hcounted
  | readCounter held => exact ⟨Nat.lt_of_lt_of_le h.1 hcounted, h.2⟩
  | jumpahead held => exact Nat.le_trans h hcounted
  | readEmpty held fast => exact fun hp => hsecured rfl (h hp)
  | readHandle held fast => exact fun hp => hsecured rfl (h hp)
  | readSize held fast handle =>
    intro hp
    obtain ⟨hsec, r, hr, hhandle⟩ := h hp
    exact ⟨hsecured rfl hsec, r, hget hr, hhandle⟩
  | copy held fast handle size got =>
    intro hp
    obtain ⟨hsec, halloc, r, hr, hrest⟩ := h hp
    exact ⟨hsecured rfl hsec, halloc, r, hget hr, hrest⟩
  | unlock held fast result =>
    intro hp
    obtain ⟨hsec, r, memblock, hr, hrest⟩ := h hp
    exact ⟨hsecured rfl hsec, r, memblock, hget hr, hrest⟩
  | returned fast memblock =>
    intro hp
    obtain ⟨hc, r, hr, hrest⟩ := h hp
    exact ⟨Nat.lt_of_lt_of_le hc hcounted, r, hget hr, hrest⟩

namespace World

variable {n m : Nat}

/-- The condition under which the jump inside `read` finds a message that the lock it
holds protects: from the counter on, the next position that belongs to the locked slot is
at most half a lap ahead, and if it is the counter itself no publisher has entered its
slot section. -/
def JumpSafe (s : World n m) (l : Label n m) : Prop :=
  ∀ j held, l = .subscriber j → (s.subs j).pc = .jumpahead held →
    (held.val + queueSize - s.topic.counter % queueSize) % queueSize ≤ queueSize / 2 ∧
    ((held.val + queueSize - s.topic.counter % queueSize) % queueSize = 0 →
      ∀ i, (s.pubs i).entered = false)

variable {s s' : World n m} {hist : List Entry} {v : Stages} {bufferSize : Nat}

theorem stages_near (c : Nat) (pc : WritePc) : c ≤ (pc.stages c).swapped ∧
    (pc.stages c).locked ≤ c + 1 ∧ (pc.entered = false → (pc.stages c).locked = c) := by
  cases pc with
  | idle | checkMemory | readCounter | alloc | copy | lock | aborted =>
    exact ⟨Nat.le_refl c, Nat.le_add_right c 1, fun _ => rfl⟩
  | readOld | setHandle | setSize | setEmpty =>
    exact ⟨Nat.le_refl c, Nat.le_refl (c + 1), nofun⟩
  | unlock | free | incCounter => exact ⟨Nat.le_succ c, Nat.le_refl (c + 1), nofun⟩

theorem Sound.stages_near (h : s.Sound bufferSize hist v) :
    s.accepted.length ≤ v.swapped ∧ v.locked ≤ s.accepted.length + 1 ∧
      ((∀ i, (s.pubs i).entered = false) → v.locked = s.accepted.length) := by
  rcases h.stage with hq | ⟨i, w, r, hb⟩
  · obtain ⟨hswapped, hlocked, hfree⟩ := World.stages_near s.accepted.length .idle
    rw [hq.stages]
    exact ⟨hswapped, hlocked, fun _ => hfree rfl⟩
  · obtain ⟨hswapped, hlocked, hfree⟩ := World.stages_near s.accepted.length (s.pubs i)
    rw [hb.stages]
    exact ⟨hswapped, hlocked, fun hno => hfree (hno i)⟩

theorem Sound.secured (h : s.Sound bufferSize hist v) {held : Fin queueSize} {c : Nat}
    (hsec : Secured s.accepted.length v held c) :
    ∃ r, hist[c]? = some r ∧ s.topic.elem (qPos c) = r.element ∧
      s.topic.allocator.Holds r.block r.msg := by
  obtain ⟨hc, b, hle, hlap, -⟩ := hsec
  have hw : PubSub.Window s.topic hist v.freed v.locked v.swapped v.filled := h.window
  have hfreed := hw.freed_le
  have hfilled := hw.swapped_le_filled
  have hlen := hw.filled_le
  have hswapped := h.stages_near.1
  have hr : hist[c]? = some hist[c] := List.getElem?_eq_getElem (by omega)
  exact ⟨hist[c], hr, hw.slots c _ hr (by omega) (by omega), hw.holds c _ hr (by omega) (by omega)⟩

theorem Sound.secured_fast (h : s.Sound bufferSize hist v) {c : Nat} (hc : c < s.accepted.length)
    (hlag : queueSize > sub32 s.topic.counter c) : Secured s.accepted.length v (qPos c) c := by
  rw [h.counter, sub32_eq (Nat.le_of_lt hc)] at hlag
  have hlocked := h.stages_near.2.1
  exact ⟨hc, c + queueSize, by omega, Nat.le_refl _, qPos_add c⟩

theorem Sound.secured_slow (h : s.Sound bufferSize hist v) {held : Fin queueSize}
    (hlap : queueSize ≤ s.accepted.length)
    (hnear : (held.val + queueSize - s.topic.counter % queueSize) % queueSize ≤ queueSize / 2)
    (hfree : (held.val + queueSize - s.topic.counter % queueSize) % queueSize = 0 →
      ∀ i, (s.pubs i).entered = false) :
    Secured s.accepted.length v held (PubSub.jumpahead s.topic.counter queueSize) := by
  obtain ⟨-, hlocked, hrest⟩ := h.stages_near
  rw [h.counter] at hnear hfree ⊢
  rw [jumpahead_eq hlap]
  have hheld := held.isLt
  -- the next position that belongs to the locked slot
  refine ⟨?_, s.accepted.length +
    (held.val + queueSize - s.accepted.length % queueSize) % queueSize, ?_, ?_, ?_⟩
  · unfold queueSize at hlap
    omega
  · by_cases hzero : (held.val + queueSize - s.accepted.length % queueSize) % queueSize = 0
    · rw [hrest (hfree hzero)]
      exact Nat.le_add_right _ _
    · omega
  · unfold queueSize at *
    omega
  · apply Fin.ext
    rw [qPos_val]
    unfold queueSize at *
    omega

theorem Sound.stepSub_knows (h : s.Sound bufferSize hist v) {P : Bool → Prop}
    {alloc : Nat → Bool} {j : Fin m} (hjump : P false → s.JumpSafe (.subscriber j))
    (hk : (s.subs j).pc.Knows P alloc s.accepted.length hist v (s.subs j).counter)
    (hs : s.stepSub alloc j = some s') :
    ∃ r, s'.subs = Function.update s.subs j r ∧
      r.pc.Knows P alloc s.accepted.length hist v r.counter := by
  have hcounter := h.counter
  unfold World.stepSub at hs
  cases hpc : (s.subs j).pc with
  | idle =>
    simp only [hpc] at hs
    obtain rfl := Option.some.inj hs
    exact ⟨_, rfl, trivial⟩
  | check =>
    simp only [hpc] at hs
    split_ifs at hs with hold <;> obtain rfl := Option.some.inj hs
    · exact ⟨_, rfl, trivial⟩
    · exact ⟨_, rfl, hcounter ▸ Nat.lt_of_not_le hold⟩
  | checkLag =>
    rw [hpc] at hk
    have hc : (s.subs j).counter < s.accepted.length := hk
    simp only [hpc] at hs
    split_ifs at hs with hlag <;> obtain rfl := Option.some.inj hs
    · rw [hcounter, sub32_eq (Nat.le_of_lt hc)] at hlag
      exact ⟨_, rfl, Nat.le_trans hlag (Nat.sub_le _ _)⟩
    · exact ⟨_, rfl, hc⟩
  | jump =>
    rw [hpc] at hk
    have hlap : queueSize ≤ s.accepted.length := hk
    simp only [hpc] at hs
    obtain rfl := Option.some.inj hs
    refine ⟨_, rfl, ?_⟩
    show PubSub.jumpahead s.topic.counter queueSize < s.accepted.length
    rw [hcounter, jumpahead_eq hlap]
    unfold queueSize at hlap
    omega
  | lockSharable =>
    rw [hpc] at hk
    simp only [hpc, Option.map_eq_some_iff] at hs
    obtain ⟨l, -, rfl⟩ := hs
    exact ⟨_, rfl, hk, rfl⟩
  | readCounter held =>
    rw [hpc] at hk
    obtain ⟨hc, rfl⟩ := hk
    simp only [hpc] at hs
    split_ifs at hs with hlag <;> obtain rfl := Option.some.inj hs
    · exact ⟨_, rfl, fun _ => h.secured_fast hc hlag⟩
    · refine ⟨_, rfl, ?_⟩
      rw [hcounter, sub32_eq (Nat.le_of_lt hc)] at hlag
      show queueSize ≤ s.accepted.length
      omega
  | jumpahead held =>
    rw [hpc] at hk
    simp only [hpc] at hs
    obtain rfl := Option.some.inj hs
    refine ⟨_, rfl, fun hp => ?_⟩
    obtain ⟨hnear, hfree⟩ := hjump hp j held rfl hpc
    exact h.secured_slow hk hnear hfree
  | readEmpty held fast =>
    rw [hpc] at hk
    simp only [hpc] at hs
    split_ifs at hs with hempty <;> obtain rfl := Option.some.inj hs
    · refine ⟨_, rfl, fun hp => ?_⟩
      obtain ⟨r, -, helem, -⟩ := h.secured (hk hp)
      rw [helem] at hempty
      cases hempty
    · exact ⟨_, rfl, hk⟩
  | readHandle held fast =>
    rw [hpc] at hk
    simp only [hpc] at hs
    obtain rfl := Option.some.inj hs
    refine ⟨_, rfl, fun hp => ⟨hk hp, ?_⟩⟩
    obtain ⟨r, hr, helem, -⟩ := h.secured (hk hp)
    exact ⟨r, hr, congrArg Element.addressHandle helem⟩
  | readSize held fast handle =>
    rw [hpc] at hk
    simp only [hpc] at hs
    obtain rfl := Option.some.inj hs
    refine ⟨_, rfl, fun hp => ?_⟩
    obtain ⟨hsec, r, hr, hhandle⟩ := hk hp
    obtain ⟨r', hr', helem, -⟩ := h.secured hsec
    obtain rfl : r = r' := Option.some.inj (hr.symm.trans hr')
    exact ⟨hsec, .inl rfl, r, hr, hhandle, congrArg Element.size helem, Nat.zero_le _, rfl⟩
  | copy held fast handle size got =>
    rw [hpc] at hk
    simp only [hpc] at hs
    by_cases hmore : got.length < size
    · rw [if_pos hmore] at hs
      split_ifs at hs with halloc
      obtain rfl := Option.some.inj hs
      refine ⟨_, rfl, fun hp => ?_⟩
      obtain ⟨hsec, -, r, hr, rfl, rfl, hle, hgot⟩ := hk hp
      obtain ⟨r', hr', -, hholds⟩ := h.secured hsec
      obtain rfl : r = r' := Option.some.inj (hr.symm.trans hr')
      have hbyte := hholds.load_byte hmore
      refine ⟨hsec, .inr halloc, r, hr, rfl, rfl, ?_, ?_⟩
      · rw [List.length_append, Allocator.handleToPtr_handle, hbyte]
        exact hmore
      · rw [Allocator.handleToPtr_handle, hbyte, List.length_append, List.length_singleton,
          List.take_succ_eq_append_getElem hmore, ← hgot]
    · rw [if_neg hmore] at hs
      obtain rfl := Option.some.inj hs
      refine ⟨_, rfl, fun hp => ?_⟩
      obtain ⟨hsec, halloc, r, hr, rfl, rfl, hle, hgot⟩ := hk hp
      have hfull : got = r.msg := by
        rw [hgot]
        exact List.take_of_length_le (Nat.le_of_not_lt hmore)
      refine ⟨hsec, r, _, hr, rfl, rfl, ?_⟩
      rcases halloc with hnil | halloc
      · rw [← hfull, hnil]
        simp [Memblock.bytes]
      · simp [Memblock.bytes, halloc, hfull]
  | unlock held fast result =>
    rw [hpc] at hk
    simp only [hpc] at hs
    cases result with
    | none =>
      obtain rfl := Option.some.inj hs
      exact ⟨_, rfl, trivial⟩
    | some memblock =>
      obtain rfl := Option.some.inj hs
      refine ⟨_, rfl, fun hp => ?_⟩
      obtain ⟨hsec, r, memblock', hr, heq, hrest⟩ := hk hp
      obtain rfl := Option.some.inj heq
      exact ⟨hsec.counted, r, hr, hrest⟩
  | returned fast memblock =>
    simp only [hpc] at hs
    split_ifs at hs <;> obtain rfl := Option.some.inj hs <;> exact ⟨_, rfl, trivial⟩

def Informed (P : Bool → Prop) (alloc : Nat → Bool) (s : World n m) (hist : List Entry)
    (v : Stages) : Prop :=
  ∀ j, (s.subs j).pc.Knows P alloc s.accepted.length hist v (s.subs j).counter

variable {P : Bool → Prop} {alloc : Nat → Bool}

theorem Informed.publishers {l : Label n m} {hist' : List Entry} {v' : Stages}
    (h : s.Informed P alloc hist v) (hs : s.step alloc l = some s')
    (hmoves : s.Moves hist v hist' v') (hsubs : s'.subs = s.subs) :
    s'.Informed P alloc hist' v' := by
  intro j
  rw [hsubs]
  refine (h j).mono (accepted_le hs) hmoves.hist (hmoves.locked.imp_right ?_)
  exact fun ⟨hsucc, hfree⟩ => ⟨hsucc, hfree j⟩

theorem Informed.subscriber {j : Fin m} (h : s.Informed P alloc hist v)
    (hsound : s.Sound bufferSize hist v) (hjump : P false → s.JumpSafe (.subscriber j))
    (hs : s.stepSub alloc j = some s') : s'.Informed P alloc hist v := by
  obtain ⟨-, -, haccepted, -⟩ := stepSub_locks hs
  obtain ⟨r, hsubs, hr⟩ := hsound.stepSub_knows hjump (h j) hs
  intro k
  rw [haccepted, hsubs]
  by_cases hkj : k = j
  · subst hkj
    simpa only [Function.update_self] using hr
  · simpa only [Function.update_of_ne hkj] using h k

theorem Informed.step {l : Label n m} (h : s.Informed P alloc hist v)
    (hsound : s.Sound bufferSize hist v) (hlocks : s.LocksSound) (hok : s.Exclusive l)
    (hjump : P false → s.JumpSafe l) (hlt : s'.accepted.length < 2 ^ 32)
    (hs : s.step alloc l = some s') :
    ∃ hist' v', s'.Sound bufferSize hist' v' ∧ s'.Informed P alloc hist' v' := by
  cases l with
  | subscriber j => exact ⟨hist, v, hsound.stepSub hs, h.subscriber hsound hjump hs⟩
  | write i memblock =>
    obtain ⟨hist', v', hsound', hmoves⟩ := hsound.step hlocks hok hlt hs
    have hsubs : s'.subs = s.subs := by
      obtain ⟨-, -, rfl⟩ := start_some hs
      rfl
    exact ⟨hist', v', hsound', h.publishers hs hmoves hsubs⟩
  | publisher i =>
    obtain ⟨hist', v', hsound', hmoves⟩ := hsound.step hlocks hok hlt hs
    exact ⟨hist', v', hsound', h.publishers hs hmoves (stepPub_locks hs).1⟩

theorem informed_of_run {heapBase : Nat} {labels : List (Label n m)} (hdvd : 4 ∣ bufferSize)
    (hle : 8 ≤ bufferSize) (hlim : bufferSize + 1 < 2 ^ 32) (hspace : heapBase + bufferSize ≤ 2 ^ 64)
    (h : Machine.Run (step alloc) (fun t l => t.Exclusive l ∧ (P false → t.JumpSafe l))
      (new heapBase bufferSize) labels s) (hlt : s.accepted.length < 2 ^ 32) :
    s.LocksSound ∧ ∃ hist v, s.Sound bufferSize hist v ∧ s.Informed P alloc hist v := by
  have hsized : (Allocator.new heapBase bufferSize).Sized :=
    ⟨hdvd, hle, Nat.le_of_lt (Nat.lt_of_succ_lt hlim), hspace⟩
  induction h with
  | nil =>
    exact ⟨locksSound_new heapBase bufferSize, _, _, sound_new hsized hlim, fun _ => trivial⟩
  | snoc _ hok hs ih =>
    obtain ⟨hlocks, hist, v, hsound, hinformed⟩ := ih (Nat.lt_of_le_of_lt (accepted_le hs) hlt)
    exact ⟨hlocks.step hs, hinformed.step hsound hlocks hok.1 hok.2 hlt hs⟩

end World

def ReadPc.copying : ReadPc → Option Bool
  | .readEmpty _ fast => some fast
  | .readHandle _ fast => some fast
  | .readSize _ fast _ => some fast
  | .copy _ fast _ _ _ => some fast
  | .unlock _ fast _ => some fast
  | _ => none

def ReadPc.source : ReadPc → Option Nat
  | .readSize _ _ handle => some handle
  | .copy _ _ handle _ _ => some handle
  | _ => none

namespace World

variable {n m : Nat} {s : World n m}

def Published (s : World n m) (k : Nat) (msg : Memblock) : Prop :=
  ∃ id : Nat, s.accepted[k]? = some id ∧ s.calls[id]? = some msg

/-- Subscriber `j` reads consistently on path `fast`: as long as it copies, the message
published at its position is in its slot and in the live block the slot names, and what
`read` has returned is that message. -/
structure Consistent (s : World n m) (fast : Bool) (j : Fin m) : Prop where
  copying : (s.subs j).pc.copying = some fast → ∃ msg,
    s.Published (s.subs j).counter msg ∧ s.Stores (s.subs j).counter msg ∧
    ∀ handle, (s.subs j).pc.source = some handle →
      handle = (s.topic.elem (qPos (s.subs j).counter)).addressHandle
  returned : ∀ memblock, (s.subs j).pc = .returned fast memblock → ∃ msg,
    s.Published (s.subs j).counter msg ∧ memblock.size = msg.size ∧ memblock.bytes = msg.bytes

variable {s' : World n m} {hist : List Entry} {v : Stages} {bufferSize : Nat}
variable {P : Bool → Prop} {alloc : Nat → Bool}

theorem Sound.published (h : s.Sound bufferSize hist v) {k : Nat} {r : Entry}
    (hk : k < s.accepted.length) (hr : hist[k]? = some r) :
    ∃ msg, s.Published k msg ∧ r.msg = msg.bytes ∧ r.msg.length = msg.size := by
  obtain ⟨msg, r', hmsg, hr', hbytes, hsize⟩ := h.books.entries k _ (List.getElem?_eq_getElem hk)
  obtain rfl : r = r' := Option.some.inj (hr.symm.trans hr')
  exact ⟨msg, ⟨_, List.getElem?_eq_getElem hk, hmsg⟩, hbytes, hbytes ▸ hsize⟩

theorem Sound.secured_stores (h : s.Sound bufferSize hist v) {held : Fin queueSize} {c : Nat}
    (hsec : Secured s.accepted.length v held c) : ∃ msg, s.Published c msg ∧ s.Stores c msg := by
  obtain ⟨hc, b, hle, hlap, -⟩ := hsec
  have hid := List.getElem?_eq_getElem hc
  have hswapped := h.stages_near.1
  obtain ⟨msg, hmsg, hstores⟩ := h.stores hid (Nat.le_trans hle hlap) (by omega)
  exact ⟨msg, ⟨_, hid, hmsg⟩, hstores⟩

theorem Informed.consistent (h : s.Informed P alloc hist v) (hs : s.Sound bufferSize hist v)
    {fast : Bool} (hp : P fast) (j : Fin m) : s.Consistent fast j := by
  have hk := h j
  constructor
  · intro hcopy
    have hsource : ∀ {held : Fin queueSize} {r : Entry} {handle : Nat},
        Secured s.accepted.length v held (s.subs j).counter →
        hist[(s.subs j).counter]? = some r → handle = r.block.handle →
        handle = (s.topic.elem (qPos (s.subs j).counter)).addressHandle := by
      intro held r handle hsec hr hhandle
      obtain ⟨r', hr', helem, -⟩ := hs.secured hsec
      obtain rfl : r = r' := Option.some.inj (hr.symm.trans hr')
      rw [helem, hhandle, Entry.element]
    cases hpc : (s.subs j).pc with
    | readEmpty held fast' | readHandle held fast' =>
      rw [hpc] at hk hcopy
      obtain rfl : fast' = fast := Option.some.inj hcopy
      obtain ⟨msg, hmsg, hstores⟩ := hs.secured_stores (hk hp)
      exact ⟨msg, hmsg, hstores, fun handle hh => by cases hh⟩
    | readSize held fast' handle =>
      rw [hpc] at hk hcopy
      obtain rfl : fast' = fast := Option.some.inj hcopy
      obtain ⟨hsec, r, hr, hhandle⟩ := hk hp
      obtain ⟨msg, hmsg, hstores⟩ := hs.secured_stores hsec
      refine ⟨msg, hmsg, hstores, fun handle' hh => ?_⟩
      obtain rfl := Option.some.inj hh
      exact hsource hsec hr hhandle
    | copy held fast' handle size got =>
      rw [hpc] at hk hcopy
      obtain rfl : fast' = fast := Option.some.inj hcopy
      obtain ⟨hsec, -, r, hr, hhandle, -⟩ := hk hp
      obtain ⟨msg, hmsg, hstores⟩ := hs.secured_stores hsec
      refine ⟨msg, hmsg, hstores, fun handle' hh => ?_⟩
      obtain rfl := Option.some.inj hh
      exact hsource hsec hr hhandle
    | unlock held fast' result =>
      rw [hpc] at hk hcopy
      obtain rfl : fast' = fast := Option.some.inj hcopy
      obtain ⟨msg, hmsg, hstores⟩ := hs.secured_stores (hk hp).1
      exact ⟨msg, hmsg, hstores, fun handle hh => by cases hh⟩
    | _ =>
      rw [hpc] at hcopy
      cases hcopy
  · intro memblock hpc
    rw [hpc] at hk
    obtain ⟨hc, r, hr, hsize, hbytes⟩ := hk hp
    obtain ⟨msg, hmsg, heq, hlen⟩ := hs.published hc hr
    exact ⟨msg, hmsg, hsize.trans hlen, hbytes.trans heq⟩

theorem stepPub_alloc {i : Fin n} {w : Job} {q : Fin queueSize} (hs : s.stepPub i = some s')
    (hpc : s'.pubs i = .alloc w q) : q = qPos s'.topic.counter := by
  unfold stepPub at hs
  cases hold : s.pubs i with
  | readCounter w' =>
    simp only [hold] at hs
    obtain rfl := Option.some.inj hs
    simp only [setPub, Function.update_self, WritePc.alloc.injEq] at hpc
    exact hpc.2.symm
  | idle | aborted =>
    rw [hold] at hs
    cases hs
  | lock w' q' p =>
    simp only [hold, Option.map_eq_some_iff] at hs
    obtain ⟨l, -, rfl⟩ := hs
    simp [setPub] at hpc
  | checkMemory w' =>
    simp only [hold] at hs
    split_ifs at hs <;> obtain rfl := Option.some.inj hs <;> simp [setPub] at hpc
  | alloc w' q' =>
    simp only [hold] at hs
    split at hs <;> obtain rfl := Option.some.inj hs <;> simp [setPub] at hpc
  | free w' old =>
    simp only [hold] at hs
    split at hs <;> obtain rfl := Option.some.inj hs
    · simp [setPub] at hpc
    · exact absurd (hpc.symm.trans hold) (by rintro ⟨⟩)
    · simp [setPub] at hpc
  | copy w' q' p | readOld w' q' p | setHandle w' q' p old | setSize w' q' old | setEmpty w' q' old
  | unlock w' q' old | incCounter w' =>
    simp only [hold] at hs
    obtain rfl := Option.some.inj hs
    simp [setPub] at hpc

section Single

variable {s s' : World 1 m}

def Fresh (s : World 1 m) : Prop := ∀ i w q, s.pubs i = .alloc w q → q = qPos s.topic.counter

theorem Fresh.exclusive (h : s.Fresh) (l : Label 1 m) : s.Exclusive l := by
  intro i w q _ hpc
  exact .inr ⟨h i w q hpc, fun j hj => absurd (Subsingleton.elim j i) hj⟩

theorem Fresh.step {l : Label 1 m} (h : s.Fresh) (hs : s.step alloc l = some s') : s'.Fresh := by
  intro i w q hpc
  cases l with
  | write k memblock =>
    obtain ⟨-, -, rfl⟩ := start_some hs
    obtain rfl := Subsingleton.elim i k
    simp [setPub] at hpc
  | publisher k =>
    obtain rfl := Subsingleton.elim i k
    exact stepPub_alloc hs hpc
  | subscriber j =>
    obtain ⟨htopic, -, -, hpubs, -⟩ := stepSub_locks hs
    rw [hpubs] at hpc
    rw [htopic]
    exact h i w q hpc

theorem exclusive_of_single {heapBase : Nat} {ok : World 1 m → Label 1 m → Prop}
    {labels : List (Label 1 m)}
    (h : Machine.Run (step alloc) ok (new heapBase bufferSize) labels s) :
    s.Fresh ∧ Machine.Run (step alloc) (fun t l => t.Exclusive l ∧ ok t l)
      (new heapBase bufferSize) labels s := by
  induction h with
  | nil =>
    refine ⟨?_, .nil⟩
    intro i w q hpc
    cases hpc
  | snoc _ hok hs ih => exact ⟨ih.1.step hs, .snoc ih.2 ⟨ih.1.exclusive _, hok⟩ hs⟩

/-- With one publisher every fast-path read is consistent. -/
theorem fast_read_consistent {heapBase : Nat} {labels : List (Label 1 m)} (hdvd : 4 ∣ bufferSize)
    (hle : 8 ≤ bufferSize) (hlim : bufferSize + 1 < 2 ^ 32) (hspace : heapBase + bufferSize ≤ 2 ^ 64)
    (h : Machine.run (step alloc) (new heapBase bufferSize) labels = some s)
    (hlt : s.accepted.length < 2 ^ 32) : ∀ j, s.Consistent true j := by
  have hexclusive := (exclusive_of_single (Machine.Run.of_run h)).2
  have hrun : Machine.Run (step alloc)
      (fun t l => t.Exclusive l ∧ (false = true → t.JumpSafe l)) (new heapBase bufferSize) labels s :=
    hexclusive.weaken fun _ _ hok => ⟨hok.1, nofun⟩
  obtain ⟨-, hist, v, hsound, hinformed⟩ :=
    informed_of_run (P := fun fast => fast = true) hdvd hle hlim hspace hrun hlt
  exact hinformed.consistent hsound rfl

theorem fast_read_consistent_copy : ∃ s : World 1 1,
    Machine.run (step fun _ => true) (new 4096 64) ([.subscriber 0, .write 0 (.ofData [1, 2])] ++
      List.replicate 12 (.publisher 0) ++ List.replicate 11 (.subscriber 0)) = some s ∧
    (s.subs 0).pc = .returned true ⟨some [1, 2], 2, true⟩ ∧ s.Consistent true 0 := by
  obtain ⟨s, hs, haccepted, hpc⟩ : ∃ s : World 1 1,
      Machine.run (step fun _ => true) (new 4096 64) ([.subscriber 0, .write 0 (.ofData [1, 2])] ++
        List.replicate 12 (.publisher 0) ++ List.replicate 11 (.subscriber 0)) = some s ∧
      s.accepted = [0] ∧ (s.subs 0).pc = .returned true ⟨some [1, 2], 2, true⟩ := by
    have hrun : (Machine.run (step fun _ => true) (new 4096 64 : World 1 1)
        ([.subscriber 0, .write 0 (.ofData [1, 2])] ++ List.replicate 12 (.publisher 0) ++
          List.replicate 11 (.subscriber 0))).map (fun s => (s.accepted, (s.subs 0).pc)) =
        some ([0], .returned true ⟨some [1, 2], 2, true⟩) := by decide +kernel
    simpa [Option.map_eq_some_iff] using hrun
  exact ⟨s, hs, hpc, fast_read_consistent (by decide) (by decide) (by decide) (by decide) hs
    (by rw [haccepted]; decide) 0⟩

/-- With one publisher a slow-path read is consistent when its jump was safe. -/
theorem slow_read_consistent {heapBase : Nat} {labels : List (Label 1 m)} (hdvd : 4 ∣ bufferSize)
    (hle : 8 ≤ bufferSize) (hlim : bufferSize + 1 < 2 ^ 32) (hspace : heapBase + bufferSize ≤ 2 ^ 64)
    (h : Machine.Run (step alloc) JumpSafe (new heapBase bufferSize) labels s)
    (hlt : s.accepted.length < 2 ^ 32) : ∀ j, s.Consistent false j := by
  have hexclusive := (exclusive_of_single h).2
  have hrun : Machine.Run (step alloc)
      (fun t l => t.Exclusive l ∧ (True → t.JumpSafe l)) (new heapBase bufferSize) labels s :=
    hexclusive.weaken fun _ _ hok => ⟨hok.1, fun _ => hok.2⟩
  obtain ⟨-, hist, v, hsound, hinformed⟩ :=
    informed_of_run (P := fun _ => True) hdvd hle hlim hspace hrun hlt
  exact hinformed.consistent hsound trivial

end Single

end World

end Shadesmar.PubSub.Interleaving
