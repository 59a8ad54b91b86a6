import Shadesmar.PubSub.SlotLocks

namespace Shadesmar.PubSub.Interleaving

open Library Shadesmar.Memory Shadesmar.Concurrency

structure Stages where
  freed : Nat
  locked : Nat
  swapped : Nat
  filled : Nat

def Stages.Window (v : Stages) (t : Topic) (hist : List Entry) : Prop :=
  PubSub.Window t hist v.freed v.locked v.swapped v.filled

namespace WritePc

def job : WritePc → Option Job
  | .idle => none
  | .checkMemory w => some w
  | .readCounter w => some w
  | .alloc w _ => some w
  | .copy w _ _ => some w
  | .lock w _ _ => some w
  | .readOld w _ _ => some w
  | .setHandle w _ _ _ => some w
  | .setSize w _ _ => some w
  | .setEmpty w _ _ => some w
  | .unlock w _ _ => some w
  | .free w _ => some w
  | .incCounter w => some w
  | .aborted => none

def entered : WritePc → Bool
  | .readOld .. => true
  | .setHandle .. => true
  | .setSize .. => true
  | .setEmpty .. => true
  | .unlock .. => true
  | .free .. => true
  | .incCounter .. => true
  | _ => false

def active : WritePc → Bool
  | .copy .. => true
  | .lock .. => true
  | pc => pc.entered

def Checked (bufferSize : Nat) : WritePc → Prop
  | .readCounter w => w.memblock.size ≤ bufferSize
  | .alloc w _ => w.memblock.size ≤ bufferSize
  | _ => True

def stages (c : Nat) : WritePc → Stages
  | .lock .. => ⟨c - queueSize, c, c, c + 1⟩
  | .readOld .. => ⟨c - queueSize, c + 1, c, c + 1⟩
  | .setHandle .. => ⟨c - queueSize, c + 1, c, c + 1⟩
  | .setSize .. => ⟨c - queueSize, c + 1, c, c + 1⟩
  | .setEmpty .. => ⟨c - queueSize, c + 1, c, c + 1⟩
  | .unlock .. => ⟨c - queueSize, c + 1, c + 1, c + 1⟩
  | .free .. => ⟨c - queueSize, c + 1, c + 1, c + 1⟩
  | .incCounter .. => ⟨c + 1 - queueSize, c + 1, c + 1, c + 1⟩
  | _ => ⟨c - queueSize, c, c, c⟩

def Knows (t : Topic) (hist : List Entry) (c : Nat) (r : Entry) : WritePc → Prop
  | .copy _ q p => q = qPos c ∧ p = t.allocator.ptr r.block ∧ r.msg.length ≤ 4 * r.block.size
  | .lock _ q p => q = qPos c ∧ p = t.allocator.ptr r.block
  | .readOld _ q p => q = qPos c ∧ p = t.allocator.ptr r.block ∧
      t.oldAddress q = Window.oldest t hist c
  | .setHandle _ q p old => q = qPos c ∧ p = t.allocator.ptr r.block ∧ old = Window.oldest t hist c
  | .setSize _ q old => q = qPos c ∧ old = Window.oldest t hist c ∧
      (t.elem q).addressHandle = r.block.handle
  | .setEmpty _ q old => q = qPos c ∧ old = Window.oldest t hist c ∧
      (t.elem q).addressHandle = r.block.handle ∧ (t.elem q).size = r.msg.length
  | .unlock _ _ old => old = Window.oldest t hist c
  | .free _ old => old = Window.oldest t hist c
  | .incCounter _ => True
  | _ => False

end WritePc

namespace World

variable {n m : Nat}

/-- No publisher has a block that is not yet counted. -/
structure Quiet (s : World n m) (hist : List Entry) (v : Stages) : Prop where
  idle : ∀ i, (s.pubs i).active = false
  length : hist.length = s.accepted.length
  stages : v = WritePc.idle.stages s.accepted.length

structure Busy (s : World n m) (hist : List Entry) (v : Stages) (i : Fin n) (w : Job)
    (r : Entry) : Prop where
  active : (s.pubs i).active = true
  others : ∀ j, j ≠ i → (s.pubs j).active = false
  length : hist.length = s.accepted.length + 1
  stages : v = (s.pubs i).stages s.accepted.length
  job : (s.pubs i).job = some w
  entry : hist[s.accepted.length]? = some r
  msg : r.msg = w.memblock.bytes
  knows : (s.pubs i).Knows s.topic hist s.accepted.length r

structure Books (s : World n m) (hist : List Entry) : Prop where
  entries : ∀ (k id : Nat), s.accepted[k]? = some id → ∃ (msg : Memblock) (r : Entry),
    s.calls[id]? = some msg ∧ hist[k]? = some r ∧ r.msg = msg.bytes ∧ msg.Filled
  jobs : ∀ i w, (s.pubs i).job = some w →
    s.calls[w.id]? = some w.memblock ∧ w.memblock.Filled ∧ w.id ∉ s.accepted
  distinct : ∀ i j w w', (s.pubs i).job = some w → (s.pubs j).job = some w' → i ≠ j →
    w.id ≠ w'.id
  nodup : s.accepted.Nodup

structure Sound (bufferSize : Nat) (s : World n m) (hist : List Entry) (v : Stages) : Prop where
  window : v.Window s.topic hist
  counter : s.topic.counter = s.accepted.length
  size : s.topic.allocator.size = bufferSize
  checked : ∀ i, (s.pubs i).Checked bufferSize
  stage : s.Quiet hist v ∨ ∃ i w r, s.Busy hist v i w r
  books : s.Books hist

structure Core (bufferSize : Nat) (s : World n m) (hist : List Entry) (v : Stages) : Prop where
  window : v.Window s.topic hist
  size : s.topic.allocator.size = bufferSize
  checked : ∀ i, (s.pubs i).Checked bufferSize
  stage : s.Quiet hist v ∨ ∃ i w r, s.Busy hist v i w r
  books : s.Books hist

theorem Sound.core {bufferSize : Nat} {s : World n m} {hist : List Entry} {v : Stages}
    (h : s.Sound bufferSize hist v) : s.Core bufferSize hist v :=
  ⟨h.window, h.size, h.checked, h.stage, h.books⟩

theorem Core.sound {bufferSize : Nat} {s : World n m} {hist : List Entry} {v : Stages}
    (h : s.Core bufferSize hist v) (hcounter : s.topic.counter = s.accepted.length) :
    s.Sound bufferSize hist v := ⟨h.window, hcounter, h.size, h.checked, h.stage, h.books⟩

/-- The two things that must not happen at a successful allocation: that the counter has
moved to another slot since it was read, or that another publisher is active. -/
def Exclusive (s : World n m) (l : Label n m) : Prop :=
  ∀ i w q, l = .publisher i → s.pubs i = .alloc w q →
    (∃ t, s.topic.alloc w.memblock.size = .ok (none, t)) ∨
    (q = qPos s.topic.counter ∧ ∀ j, j ≠ i → (s.pubs j).active = false)

structure Moves (s : World n m) (hist : List Entry) (v : Stages) (hist' : List Entry)
    (v' : Stages) : Prop where
  hist : hist <+: hist'
  swapped : v.swapped ≤ v'.swapped
  locked : v'.locked = v.locked ∨
    v'.locked = v.locked + 1 ∧ ∀ j, (s.subs j).slot ≠ some (qPos v.locked)

theorem Moves.refl (s : World n m) (hist : List Entry) (v : Stages) : s.Moves hist v hist v :=
  ⟨List.prefix_refl _, Nat.le_refl _, .inl rfl⟩

section Books

variable {s : World n m} {hist : List Entry} {i : Fin n} {pc : WritePc}

theorem Books.setPub (h : s.Books hist) (hjob : pc.job = none ∨ pc.job = (s.pubs i).job) :
    (s.setPub i pc).Books hist := by
  have hold : ∀ k w, ((s.setPub i pc).pubs k).job = some w → (s.pubs k).job = some w := by
    intro k w hk
    by_cases hki : k = i
    · subst hki
      simp only [World.setPub, Function.update_self] at hk
      rcases hjob with hnone | hsame
      · rw [hnone] at hk
        cases hk
      · rw [← hsame, hk]
    · simpa only [World.setPub, Function.update_of_ne hki] using hk
  refine ⟨h.entries, fun k w hk => h.jobs k w (hold k w hk), ?_, h.nodup⟩
  intro k k' w w' hk hk' hne
  exact h.distinct k k' w w' (hold k w hk) (hold k' w' hk') hne

theorem Books.append (h : s.Books hist) (r : Entry) : s.Books (hist ++ [r]) := by
  refine ⟨?_, h.jobs, h.distinct, h.nodup⟩
  intro k id hk
  obtain ⟨msg, r', hmsg, hr, heq, hfilled⟩ := h.entries k id hk
  refine ⟨msg, r', hmsg, ?_, heq, hfilled⟩
  rw [List.getElem?_append_left (List.getElem?_eq_some_iff.mp hr).1, hr]

theorem Books.start (h : s.Books hist) {memblock : Memblock} (hfilled : memblock.Filled) :
    ({ s with calls := s.calls ++ [memblock] }.setPub i
      (.checkMemory ⟨s.calls.length, memblock⟩)).Books hist := by
  have hcalls : ∀ {id : Nat} {msg : Memblock}, s.calls[id]? = some msg →
      (s.calls ++ [memblock])[id]? = some msg := by
    intro id msg hid
    rw [List.getElem?_append_left (List.getElem?_eq_some_iff.mp hid).1, hid]
  have hfresh : ∀ k w, (s.pubs k).job = some w → w.id < s.calls.length := by
    intro k w hk
    exact (List.getElem?_eq_some_iff.mp (h.jobs k w hk).1).1
  have hcases : ∀ k w, ((s.setPub i (.checkMemory ⟨s.calls.length, memblock⟩)).pubs k).job = some w →
      k = i ∧ w = ⟨s.calls.length, memblock⟩ ∨ k ≠ i ∧ (s.pubs k).job = some w := by
    intro k w hk
    by_cases hki : k = i
    · subst hki
      simp only [World.setPub, Function.update_self, WritePc.job, Option.some.injEq] at hk
      exact .inl ⟨rfl, hk.symm⟩
    · simp only [World.setPub, Function.update_of_ne hki] at hk
      exact .inr ⟨hki, hk⟩
  refine ⟨?_, ?_, ?_, h.nodup⟩
  · intro k id hk
    obtain ⟨msg, r, hmsg, hr, heq, hf⟩ := h.entries k id hk
    exact ⟨msg, r, hcalls hmsg, hr, heq, hf⟩
  · intro k w hk
    rcases hcases k w hk with ⟨-, rfl⟩ | ⟨-, hold⟩
    · refine ⟨List.getElem?_concat_length, hfilled, ?_⟩
      intro hmem
      obtain ⟨k', hk'⟩ := List.getElem?_of_mem hmem
      obtain ⟨msg, r, hmsg, -⟩ := h.entries k' _ hk'
      exact Nat.lt_irrefl _ (List.getElem?_eq_some_iff.mp hmsg).1
    · obtain ⟨hmsg, hf, hnew⟩ := h.jobs k w hold
      exact ⟨hcalls hmsg, hf, hnew⟩
  · intro k k' w w' hk hk' hne
    rcases hcases k w hk with ⟨rfl, rfl⟩ | ⟨hki, hold⟩ <;>
      rcases hcases k' w' hk' with ⟨rfl, rfl⟩ | ⟨hki', hold'⟩
    · exact absurd rfl hne
    · exact Nat.ne_of_gt (hfresh k' w' hold')
    · exact Nat.ne_of_lt (hfresh k w hold)
    · exact h.distinct k k' w w' hold hold' hne

theorem Books.count (h : s.Books hist) {w : Job} {r : Entry} (hjob : (s.pubs i).job = some w)
    (hr : hist[s.accepted.length]? = some r) (hmsg : r.msg = w.memblock.bytes) {t : Topic} :
    ({ s with topic := t, accepted := s.accepted ++ [w.id] }.setPub i .idle).Books hist := by
  obtain ⟨hcall, hfilled, hnew⟩ := h.jobs i w hjob
  have hidle : (s.setPub i .idle).Books hist := h.setPub (.inl rfl)
  refine ⟨?_, ?_, hidle.distinct, ?_⟩
  · intro k id hk
    rcases Nat.lt_or_ge k s.accepted.length with hlt | hge
    · exact h.entries k id ((List.getElem?_append_left hlt).symm.trans hk)
    · have hlast := (List.getElem?_eq_some_iff.mp hk).1
      simp only [World.setPub, List.length_append, List.length_singleton] at hlast
      obtain rfl : k = s.accepted.length := by omega
      obtain rfl : w.id = id := by simpa [World.setPub] using hk
      exact ⟨w.memblock, r, hcall, hr, hmsg, hfilled⟩
  · intro k w' hk
    obtain ⟨hcall', hfilled', hnew'⟩ := hidle.jobs k w' hk
    refine ⟨hcall', hfilled', ?_⟩
    have hki : k ≠ i := by
      rintro rfl
      simp [World.setPub, WritePc.job] at hk
    have hold : (s.pubs k).job = some w' := by
      simpa only [World.setPub, Function.update_of_ne hki] using hk
    have hne := h.distinct k i w' w hold hjob hki
    simpa [World.setPub, hne] using hnew'
  · exact List.nodup_append.mpr ⟨h.nodup, List.nodup_singleton _, by
      intro id hid id' hid' heq
      obtain rfl := List.mem_singleton.mp hid'
      exact hnew (heq ▸ hid)⟩

end Books

section Steps

variable {s s' : World n m} {hist : List Entry} {v : Stages} {i : Fin n} {pc : WritePc}
variable {bufferSize : Nat} {w : Job} {r : Entry}

theorem active_setPub {k : Fin n} (hi : (s.pubs i).active = false) (hpc : pc.active = false) :
    ((s.setPub i pc).pubs k).active = (s.pubs k).active := by
  by_cases hki : k = i
  · subst hki
    simp only [World.setPub, Function.update_self, hpc, hi]
  · simp only [World.setPub, Function.update_of_ne hki]

theorem ne_of_active {k : Fin n} (hi : (s.pubs i).active = false) (hk : (s.pubs k).active = true) :
    k ≠ i := by
  rintro rfl
  rw [hi] at hk
  cases hk

theorem Busy.setPub {k : Fin n} (h : s.Busy hist v k w r) (hi : (s.pubs i).active = false)
    (hpc : pc.active = false) (calls : List Memblock) :
    ({ s with calls := calls }.setPub i pc).Busy hist v k w r := by
  have hk : Function.update s.pubs i pc k = s.pubs k :=
    Function.update_of_ne (ne_of_active hi h.active) _ _
  refine ⟨?_, ?_, h.length, ?_, ?_, h.entry, h.msg, ?_⟩
  · simpa only [World.setPub, hk] using h.active
  · intro j hj
    exact (active_setPub hi hpc).trans (h.others j hj)
  · simpa only [World.setPub, hk] using h.stages
  · simpa only [World.setPub, hk] using h.job
  · simpa only [World.setPub, hk] using h.knows

theorem Core.inactive (h : s.Core bufferSize hist v) (hi : (s.pubs i).active = false)
    (hpc : pc.active = false) (hchecked : pc.Checked bufferSize) {calls : List Memblock}
    (hbooks : ({ s with calls := calls }.setPub i pc).Books hist) :
    ({ s with calls := calls }.setPub i pc).Core bufferSize hist v := by
  refine ⟨h.window, h.size, ?_, ?_, hbooks⟩
  · intro k
    by_cases hki : k = i
    · subst hki
      simpa only [World.setPub, Function.update_self] using hchecked
    · simpa only [World.setPub, Function.update_of_ne hki] using h.checked k
  · rcases h.stage with hq | ⟨k, w, r, hb⟩
    · refine .inl ⟨?_, hq.length, hq.stages⟩
      intro k
      exact (active_setPub hi hpc).trans (hq.idle k)
    · exact .inr ⟨k, w, r, hb.setPub hi hpc calls⟩

theorem Core.setPub (h : s.Core bufferSize hist v) (hi : (s.pubs i).active = false)
    (hpc : pc.active = false) (hjob : pc.job = none ∨ pc.job = (s.pubs i).job)
    (hchecked : pc.Checked bufferSize) : (s.setPub i pc).Core bufferSize hist v :=
  h.inactive hi hpc hchecked (h.books.setPub hjob)

theorem Core.start {memblock : Memblock} (h : s.Core bufferSize hist v)
    (hs : s.start i memblock = some s') : s'.Core bufferSize hist v := by
  obtain ⟨hidle, hfilled, rfl⟩ := start_some hs
  have hi : (s.pubs i).active = false := by
    rw [hidle]
    rfl
  have hbooks := h.books.start (i := i) hfilled
  refine h.inactive hi rfl ?_ hbooks
  trivial

theorem checked_of_active (hpc : pc.active = true) : pc.Checked bufferSize := by
  cases pc <;> trivial

theorem Core.busy (h : s.Core bufferSize hist v) {t : Topic} {hist' : List Entry}
    {locks : Fin queueSize → RwLock} (hothers : ∀ j, j ≠ i → (s.pubs j).active = false)
    (hpc : pc.active = true) (hjob : (s.pubs i).job = some w) (hjob' : pc.job = some w)
    (hbooks : s.Books hist') (hlength : hist'.length = s.accepted.length + 1)
    (hentry : hist'[s.accepted.length]? = some r) (hmsg : r.msg = w.memblock.bytes)
    (hsize : t.allocator.size = s.topic.allocator.size)
    (hwindow : (pc.stages s.accepted.length).Window t hist')
    (hknows : pc.Knows t hist' s.accepted.length r) :
    ({ s with topic := t, locks := locks }.setPub i pc).Core bufferSize hist'
      (pc.stages s.accepted.length) := by
  have hi : (Function.update s.pubs i pc) i = pc := Function.update_self ..
  have hbooks' : (s.setPub i pc).Books hist' := hbooks.setPub (.inr (hjob'.trans hjob.symm))
  refine ⟨hwindow, hsize.trans h.size, ?_, .inr ⟨i, w, r, ?_⟩,
    ⟨hbooks'.entries, hbooks'.jobs, hbooks'.distinct, hbooks'.nodup⟩⟩
  · intro k
    by_cases hki : k = i
    · subst hki
      simpa only [World.setPub, Function.update_self] using checked_of_active hpc
    · simpa only [World.setPub, Function.update_of_ne hki] using h.checked k
  · refine ⟨?_, ?_, hlength, ?_, ?_, hentry, hmsg, ?_⟩
    · simpa only [World.setPub, hi] using hpc
    · intro j hj
      simpa only [World.setPub, Function.update_of_ne hj] using hothers j hj
    · simp only [World.setPub, hi]
    · simpa only [World.setPub, hi] using hjob'
    · simpa only [World.setPub, hi] using hknows

theorem Core.advance (h : s.Core bufferSize hist v) (hb : s.Busy hist v i w r) {t : Topic}
    {locks : Fin queueSize → RwLock} (hpc : pc.active = true) (hjob : pc.job = some w)
    (hsize : t.allocator.size = s.topic.allocator.size)
    (hwindow : (pc.stages s.accepted.length).Window t hist)
    (hknows : pc.Knows t hist s.accepted.length r) :
    ({ s with topic := t, locks := locks }.setPub i pc).Core bufferSize hist
      (pc.stages s.accepted.length) :=
  h.busy hb.others hpc hb.job hjob h.books hb.length hb.entry hb.msg hsize hwindow hknows

theorem Core.stepPub_inactive (h : s.Core bufferSize hist v)
    (hok : ∀ w q, s.pubs i = .alloc w q →
      (∃ t, s.topic.alloc w.memblock.size = .ok (none, t)) ∨
      (q = qPos s.accepted.length ∧ ∀ j, j ≠ i → (s.pubs j).active = false))
    (hi : (s.pubs i).active = false) (hs : s.stepPub i = some s') :
    ∃ hist' v', s'.Core bufferSize hist' v' ∧ s.Moves hist v hist' v' := by
  unfold stepPub at hs
  cases hpc : s.pubs i with
  | idle =>
    rw [hpc] at hs
    cases hs
  | aborted =>
    rw [hpc] at hs
    cases hs
  | checkMemory w =>
    simp only [hpc] at hs
    refine ⟨hist, v, ?_, .refl ..⟩
    split_ifs at hs with hroom <;> obtain rfl := Option.some.inj hs
    · exact h.setPub hi rfl (.inl rfl) trivial
    · refine h.setPub hi rfl (.inr (by rw [hpc]; rfl)) ?_
      have hle := h.window.ring.getFreeMemory_le
      have hsize := h.size
      show w.memblock.size ≤ bufferSize
      omega
  | readCounter w =>
    simp only [hpc] at hs
    obtain rfl := Option.some.inj hs
    have hchecked := h.checked i
    rw [hpc] at hchecked
    exact ⟨hist, v, h.setPub hi rfl (.inr (by rw [hpc]; rfl)) hchecked, .refl ..⟩
  | alloc w q =>
    simp only [hpc] at hs
    have hchecked := h.checked i
    rw [hpc] at hchecked
    obtain ⟨-, hfilled, -⟩ := h.books.jobs i w (by rw [hpc]; rfl)
    have hlen : w.memblock.bytes.length = w.memblock.size := hfilled
    have hfits : w.memblock.bytes.length ≤ s.topic.allocator.size := by
      rw [hlen, h.size]
      exact hchecked
    have halloc := Window.alloc h.window w.memblock.bytes hfits
    rw [hlen] at halloc
    rcases halloc with hnone | ⟨b, t, hsome, hqueue, hsize, hlays, hw⟩
    · rw [hnone] at hs
      obtain rfl := Option.some.inj hs
      exact ⟨hist, v, h.setPub hi rfl (.inl rfl) trivial, .refl ..⟩
    · rw [hsome] at hs
      obtain rfl := Option.some.inj hs
      rcases hok w q hpc with ⟨t', hnone⟩ | ⟨hq, hothers⟩
      · rw [hsome] at hnone
        cases hnone
      · have hquiet : s.Quiet hist v := by
          refine h.stage.resolve_right ?_
          rintro ⟨k, w', r, hb⟩
          have hk := hb.active
          rw [hothers k (ne_of_active hi hk)] at hk
          cases hk
        have hv := hquiet.stages
        refine ⟨_, _, h.busy (r := ⟨b, w.memblock.bytes⟩) hothers rfl (by rw [hpc]; rfl) rfl
          (h.books.append _) ?_ ?_ rfl hsize (hv ▸ hw)
          ⟨hq, rfl, hlen ▸ Nat.le_of_lt hlays.room⟩,
          List.prefix_append _ _, ?_, .inl ?_⟩
        · rw [List.length_append, hquiet.length]
          rfl
        · rw [← hquiet.length]
          exact List.getElem?_concat_length
        · rw [hv]
          exact Nat.le_refl _
        · rw [hv]
          rfl
  | _ => simp [hpc, WritePc.active, WritePc.entered] at hi

theorem Busy.size_eq (hb : s.Busy hist v i w r) (h : s.Core bufferSize hist v) :
    r.msg.length = w.memblock.size := by
  rw [hb.msg]
  exact (h.books.jobs i w hb.job).2.1

theorem Core.stepPub_active (h : s.Core bufferSize hist v) (hl : s.LocksSound)
    (hb : s.Busy hist v i w r) (hs : s.stepPub i = some s') :
    ∃ v', s'.Core bufferSize hist v' ∧ s.Moves hist v hist v' := by
  have hactive := hb.active
  have hv := hb.stages
  have hjob := hb.job
  have hknows := hb.knows
  have hw := h.window
  unfold stepPub at hs
  cases hpc : s.pubs i with
  | copy w' q p =>
    rw [hpc] at hs hv hjob hknows
    obtain rfl : w' = w := Option.some.inj hjob
    obtain ⟨rfl, rfl, hroom⟩ := hknows
    subst hv
    obtain rfl := Option.some.inj hs
    have hfill := Window.fill hw hb.entry hroom
    rw [hb.msg] at hfill
    exact ⟨_, h.advance hb rfl rfl rfl hfill ⟨rfl, rfl⟩, List.prefix_refl _, Nat.le_refl _,
      .inl rfl⟩
  | lock w' q p =>
    rw [hpc] at hv hjob hknows
    simp only [hpc, Option.map_eq_some_iff] at hs
    obtain rfl : w' = w := Option.some.inj hjob
    obtain ⟨rfl, rfl⟩ := hknows
    subst hv
    obtain ⟨l, hlock, rfl⟩ := hs
    exact ⟨_, h.advance hb rfl rfl rfl (Window.lock hw) ⟨rfl, rfl, Window.oldAddress_eq hw⟩,
      List.prefix_refl _, Nat.le_refl _, .inr ⟨rfl, hl.not_held hlock⟩⟩
  | readOld w' q p =>
    rw [hpc] at hs hv hjob hknows
    obtain rfl : w' = w := Option.some.inj hjob
    obtain ⟨rfl, rfl, hold⟩ := hknows
    subst hv
    obtain rfl := Option.some.inj hs
    exact ⟨_, h.advance hb rfl rfl rfl hw ⟨rfl, rfl, hold⟩, .refl ..⟩
  | setHandle w' q p old =>
    rw [hpc] at hs hv hjob hknows
    obtain rfl : w' = w := Option.some.inj hjob
    obtain ⟨rfl, rfl, rfl⟩ := hknows
    subst hv
    obtain rfl := Option.some.inj hs
    refine ⟨_, h.advance hb rfl rfl rfl (Window.setHandle hw _) ⟨rfl, rfl, ?_⟩, .refl ..⟩
    rw [Topic.setHandle, Topic.elem_setElem_self, Allocator.ptrToHandle_ptr]
  | setSize w' q old =>
    rw [hpc] at hs hv hjob hknows
    obtain rfl : w' = w := Option.some.inj hjob
    obtain ⟨rfl, rfl, hhandle⟩ := hknows
    subst hv
    obtain rfl := Option.some.inj hs
    refine ⟨_, h.advance hb rfl rfl rfl (Window.setSize hw _) ⟨rfl, rfl, ?_, ?_⟩, .refl ..⟩
    · rw [Topic.setSize, Topic.elem_setElem_self, hhandle]
    · rw [Topic.setSize, Topic.elem_setElem_self, hb.size_eq h]
  | setEmpty w' q old =>
    rw [hpc] at hs hv hjob hknows
    obtain rfl : w' = w := Option.some.inj hjob
    obtain ⟨rfl, rfl, hhandle, hsize⟩ := hknows
    subst hv
    obtain rfl := Option.some.inj hs
    have helem : (s.topic.setEmpty (qPos s.accepted.length)).elem (qPos s.accepted.length) =
        r.element := by
      simp only [Topic.setEmpty, Topic.elem_setElem_self, hhandle, hsize, Entry.element]
    exact ⟨_, h.advance hb rfl rfl rfl
      ((Window.setEmpty hw).swap hb.entry (Nat.lt_succ_self _) helem) rfl, List.prefix_refl _,
      Nat.le_succ _, .inl rfl⟩
  | unlock w' q old =>
    rw [hpc] at hs hv hjob hknows
    obtain rfl : w' = w := Option.some.inj hjob
    obtain rfl : old = _ := hknows
    subst hv
    obtain rfl := Option.some.inj hs
    exact ⟨_, h.advance hb rfl rfl rfl hw rfl, .refl ..⟩
  | free w' old =>
    rw [hpc] at hs hv hjob hknows
    obtain rfl : w' = w := Option.some.inj hjob
    obtain rfl : old = _ := hknows
    subst hv
    obtain ⟨t, hfree, hqueue, hsize, hw'⟩ := Window.free hw
    simp only [hfree] at hs
    obtain rfl := Option.some.inj hs
    exact ⟨_, h.advance hb rfl rfl hsize hw' trivial,
      List.prefix_refl _, Nat.le_refl _, .inl rfl⟩
  | incCounter w' =>
    rw [hpc] at hs hv hjob
    obtain rfl : w' = w := Option.some.inj hjob
    subst hv
    obtain rfl := Option.some.inj hs
    have hcount : (s.accepted ++ [w'.id]).length = s.accepted.length + 1 := List.length_append
    refine ⟨WritePc.idle.stages (s.accepted.length + 1), ⟨Window.incCounter hw, h.size, ?_,
      .inl ⟨?_, ?_, ?_⟩, h.books.count (hpc ▸ rfl) hb.entry hb.msg⟩, List.prefix_refl _,
      Nat.le_refl _, .inl rfl⟩
    · intro k
      by_cases hki : k = i
      · subst hki
        simp only [World.setPub, Function.update_self]
        trivial
      · simpa only [World.setPub, Function.update_of_ne hki] using h.checked k
    · intro k
      by_cases hki : k = i
      · subst hki
        simp only [World.setPub, Function.update_self]
        rfl
      · simpa only [World.setPub, Function.update_of_ne hki] using hb.others k hki
    · exact hb.length.trans hcount.symm
    · exact congrArg (WritePc.stages · .idle) hcount.symm
  | _ => simp [hpc, WritePc.active, WritePc.entered] at hactive

theorem Sound.stepSub {alloc : Nat → Bool} {j : Fin m} (h : s.Sound bufferSize hist v)
    (hs : s.stepSub alloc j = some s') : s'.Sound bufferSize hist v := by
  obtain ⟨htopic, hcalls, haccepted, hpubs, -⟩ := stepSub_locks hs
  obtain ⟨t, locks, calls, accepted, pubs, subs⟩ := s'
  obtain rfl : t = s.topic := htopic
  obtain rfl : calls = s.calls := hcalls
  obtain rfl : accepted = s.accepted := haccepted
  obtain rfl : pubs = s.pubs := hpubs
  refine ⟨h.window, h.counter, h.size, h.checked, ?_, h.books.entries, h.books.jobs,
    h.books.distinct, h.books.nodup⟩
  rcases h.stage with hq | ⟨i, w, r, hb⟩
  · exact .inl ⟨hq.idle, hq.length, hq.stages⟩
  · exact .inr ⟨i, w, r, hb.active, hb.others, hb.length, hb.stages, hb.job, hb.entry, hb.msg,
      hb.knows⟩

theorem Core.stepPub (h : s.Core bufferSize hist v) (hl : s.LocksSound)
    (hok : ∀ w q, s.pubs i = .alloc w q →
      (∃ t, s.topic.alloc w.memblock.size = .ok (none, t)) ∨
      (q = qPos s.accepted.length ∧ ∀ j, j ≠ i → (s.pubs j).active = false))
    (hs : s.stepPub i = some s') :
    ∃ hist' v', s'.Core bufferSize hist' v' ∧ s.Moves hist v hist' v' := by
  cases hi : (s.pubs i).active with
  | false => exact h.stepPub_inactive hok hi hs
  | true =>
    obtain ⟨k, w, r, hb⟩ : ∃ k w r, s.Busy hist v k w r := by
      refine h.stage.resolve_left ?_
      intro hq
      rw [hq.idle i] at hi
      cases hi
    obtain rfl : i = k := by
      by_contra hne
      rw [hb.others i hne] at hi
      cases hi
    obtain ⟨v', hcore, hmoves⟩ := h.stepPub_active hl hb hs
    exact ⟨hist, v', hcore, hmoves⟩

theorem stepPub_counter (hs : s.stepPub i = some s') :
    (s'.topic.counter = s.topic.counter ∧ s'.accepted = s.accepted) ∨
    (s'.topic.counter = u32 (s.topic.counter + 1) ∧
      s'.accepted.length = s.accepted.length + 1) := by
  unfold stepPub at hs
  cases hpc : s.pubs i with
  | idle | aborted => simp [hpc] at hs
  | checkMemory w =>
    simp only [hpc] at hs
    split_ifs at hs <;> obtain rfl := Option.some.inj hs <;> exact .inl ⟨rfl, rfl⟩
  | alloc w q =>
    simp only [hpc] at hs
    split at hs <;> obtain rfl := Option.some.inj hs
    case h_1 halloc => exact .inl ⟨Topic.counter_alloc _ halloc, rfl⟩
    case h_2 halloc => exact .inl ⟨Topic.counter_alloc _ halloc, rfl⟩
    case h_3 => exact .inl ⟨rfl, rfl⟩
  | lock w q p =>
    simp only [hpc, Option.map_eq_some_iff] at hs
    obtain ⟨l, -, rfl⟩ := hs
    exact .inl ⟨rfl, rfl⟩
  | free w old =>
    simp only [hpc] at hs
    split at hs <;> obtain rfl := Option.some.inj hs
    case h_1 hfree => exact .inl ⟨Topic.counter_free hfree, rfl⟩
    case h_2 hfree => exact .inl ⟨Topic.counter_free hfree, rfl⟩
    case h_3 => exact .inl ⟨rfl, rfl⟩
  | incCounter w =>
    simp only [hpc] at hs
    obtain rfl := Option.some.inj hs
    exact .inr ⟨rfl, List.length_append⟩
  | readCounter w | copy w q p | readOld w q p | setHandle w q p old | setSize w q old
  | setEmpty w q old | unlock w q old =>
    simp only [hpc] at hs
    obtain rfl := Option.some.inj hs
    exact .inl ⟨rfl, rfl⟩

theorem Sound.step {alloc : Nat → Bool} {l : Label n m} (h : s.Sound bufferSize hist v)
    (hl : s.LocksSound) (hok : s.Exclusive l) (hlt : s'.accepted.length < 2 ^ 32)
    (hs : s.step alloc l = some s') :
    ∃ hist' v', s'.Sound bufferSize hist' v' ∧ s.Moves hist v hist' v' := by
  cases l with
  | write i memblock =>
    obtain ⟨-, -, heq⟩ := start_some hs
    have hcore := h.core.start hs
    subst heq
    exact ⟨hist, v, hcore.sound h.counter, .refl ..⟩
  | subscriber j => exact ⟨hist, v, h.stepSub hs, .refl ..⟩
  | publisher i =>
    have hfresh : ∀ w q, s.pubs i = .alloc w q →
        (∃ t, s.topic.alloc w.memblock.size = .ok (none, t)) ∨
        (q = qPos s.accepted.length ∧ ∀ j, j ≠ i → (s.pubs j).active = false) :=
      fun w q hpc => h.counter ▸ hok i w q rfl hpc
    obtain ⟨hist', v', hcore, hmoves⟩ := h.core.stepPub hl hfresh hs
    refine ⟨hist', v', hcore.sound ?_, hmoves⟩
    rcases stepPub_counter hs with ⟨hcounter, haccepted⟩ | ⟨hcounter, haccepted⟩
    · rw [hcounter, haccepted, h.counter]
    · rw [hcounter, haccepted, h.counter, u32_eq (by omega)]

theorem accepted_le {alloc : Nat → Bool} {l : Label n m} (hs : s.step alloc l = some s') :
    s.accepted.length ≤ s'.accepted.length := by
  cases l with
  | write i memblock =>
    obtain ⟨-, -, rfl⟩ := start_some hs
    exact Nat.le_refl _
  | subscriber j =>
    obtain ⟨-, -, haccepted, -⟩ := stepSub_locks hs
    exact Nat.le_of_eq (congrArg List.length haccepted.symm)
  | publisher i =>
    rcases stepPub_counter hs with ⟨-, haccepted⟩ | ⟨-, haccepted⟩
    · rw [haccepted]
    · omega

end Steps

variable {s : World n m} {hist : List Entry} {v : Stages} {heapBase bufferSize : Nat}

theorem sound_new (hsized : (Allocator.new heapBase bufferSize).Sized)
    (hlim : bufferSize + 1 < 2 ^ 32) :
    (new heapBase bufferSize : World n m).Sound bufferSize [] (WritePc.idle.stages 0) := by
  have hsettled := Settled.new hsized hlim
  refine ⟨hsettled.window, rfl, rfl, fun _ => trivial, .inl ⟨fun _ => rfl, rfl, rfl⟩, ?_⟩
  refine ⟨?_, ?_, ?_, List.nodup_nil⟩
  · intro k id hk
    cases hk
  · intro i w hi
    cases hi
  · intro i j w w' hi
    cases hi

theorem sound_of_run {alloc : Nat → Bool} {labels : List (Label n m)} (hdvd : 4 ∣ bufferSize)
    (hle : 8 ≤ bufferSize) (hlim : bufferSize + 1 < 2 ^ 32) (hspace : heapBase + bufferSize ≤ 2 ^ 64)
    (h : Machine.Run (step alloc) Exclusive (new heapBase bufferSize) labels s)
    (hlt : s.accepted.length < 2 ^ 32) : s.LocksSound ∧ ∃ hist v, s.Sound bufferSize hist v := by
  have hsized : (Allocator.new heapBase bufferSize).Sized :=
    ⟨hdvd, hle, Nat.le_of_lt (Nat.lt_of_succ_lt hlim), hspace⟩
  induction h with
  | nil => exact ⟨locksSound_new heapBase bufferSize, _, _, sound_new hsized hlim⟩
  | snoc _ hok hs ih =>
    obtain ⟨hlocks, hist, v, hsound⟩ := ih (Nat.lt_of_le_of_lt (accepted_le hs) hlt)
    obtain ⟨hist', v', hsound', -⟩ := hsound.step hlocks hok hlt hs
    exact ⟨hlocks.step hs, hist', v', hsound'⟩

def Stores (s : World n m) (k : Nat) (msg : Memblock) : Prop :=
  ∃ b ∈ s.topic.allocator.liveBlocks,
    s.topic.elem (qPos k) = ⟨msg.size, false, b.handle⟩ ∧ s.topic.allocator.Holds b msg.bytes

theorem Sound.stores (h : s.Sound bufferSize hist v) {k id : Nat} (hk : s.accepted[k]? = some id)
    (hlocked : v.locked ≤ k + queueSize) (hswapped : k < v.swapped) :
    ∃ msg, s.calls[id]? = some msg ∧ s.Stores k msg := by
  have hw : PubSub.Window s.topic hist v.freed v.locked v.swapped v.filled := h.window
  have hfreed := hw.freed_le
  have hfilled := hw.swapped_le_filled
  obtain ⟨msg, r, hmsg, hr, hbytes, hsize⟩ := h.books.entries k id hk
  refine ⟨msg, hmsg, r.block, ?_, ?_, ?_⟩
  · rw [hw.ring.liveBlocks]
    exact Window.mem_blocks hr (by omega)
  · rw [hw.slots k r hr hlocked hswapped, Entry.element, hbytes]
    exact congrArg (Element.mk · false r.block.handle) hsize
  · rw [← hbytes]
    exact hw.holds k r hr (by omega) (by omega)

def Finished (s : World n m) : Prop := ∀ i, s.pubs i = .idle

instance (s : World n m) : Decidable s.Finished := inferInstanceAs (Decidable (∀ _, _))

/-- The calls that returned true own the positions before the counter, one each, and the
last of these positions hold their messages. -/
def NoneLost (s : World n m) : Prop :=
  ∃ owner : List Nat, owner.Nodup ∧ (∀ id, id ∈ owner ↔ id ∈ s.accepted) ∧
    owner.length = s.topic.counter ∧
    ∀ (k id : Nat), owner[k]? = some id → s.topic.counter ≤ k + queueSize →
      ∃ msg, s.calls[id]? = some msg ∧ s.Stores k msg

theorem Sound.noneLost (h : s.Sound bufferSize hist v) (hfinished : s.Finished) : s.NoneLost := by
  have hquiet : s.Quiet hist v := by
    refine h.stage.resolve_right ?_
    rintro ⟨i, w, r, hb⟩
    have hactive := hb.active
    rw [hfinished i] at hactive
    cases hactive
  refine ⟨s.accepted, h.books.nodup, fun _ => Iff.rfl, h.counter.symm, ?_⟩
  intro k id hk hlap
  rw [h.counter] at hlap
  have hlt := (List.getElem?_eq_some_iff.mp hk).1
  apply h.stores hk
  · rw [hquiet.stages]
    exact hlap
  · rw [hquiet.stages]
    exact hlt

/-- Publishers lose no message as long as each allocates a block only while no other is
between its allocation and its increment, and with a counter value that is still the
counter. -/
theorem none_lost {alloc : Nat → Bool} {labels : List (Label n m)} (hdvd : 4 ∣ bufferSize)
    (hle : 8 ≤ bufferSize) (hlim : bufferSize + 1 < 2 ^ 32) (hspace : heapBase + bufferSize ≤ 2 ^ 64)
    (h : Machine.Run (step alloc) Exclusive (new heapBase bufferSize) labels s)
    (hlt : s.accepted.length < 2 ^ 32) (hfinished : s.Finished) : s.NoneLost := by
  obtain ⟨-, hist, v, hsound⟩ := sound_of_run hdvd hle hlim hspace h hlt
  exact hsound.noneLost hfinished

def alone (s : World n m) : Label n m → Bool
  | .publisher i =>
    match s.pubs i with
    | .alloc _ q => decide (q = qPos s.topic.counter ∧ ∀ j, j ≠ i → (s.pubs j).active = false)
    | _ => true
  | _ => true

theorem exclusive_of_alone (s : World n m) (l : Label n m) (h : s.alone l = true) :
    s.Exclusive l := by
  rintro i w q rfl hpc
  simp only [alone, hpc] at h
  exact .inr (of_decide_eq_true h)

theorem none_lost_overlap : ∃ s : World 2 0, Machine.run (step fun _ => true) (new 4096 64)
    ([.write 0 (.ofData [1]), .write 1 (.ofData [2]), .publisher 0, .publisher 1] ++
      List.replicate 11 (.publisher 0) ++ List.replicate 11 (.publisher 1)) = some s ∧
    s.accepted = [0, 1] ∧ s.NoneLost := by
  obtain ⟨s, hs, hfinished, haccepted⟩ : ∃ s : World 2 0,
      Machine.runIf (step fun _ => true) alone (new 4096 64)
        ([.write 0 (.ofData [1]), .write 1 (.ofData [2]), .publisher 0, .publisher 1] ++
          List.replicate 11 (.publisher 0) ++ List.replicate 11 (.publisher 1)) = some s ∧
      s.Finished ∧ s.accepted = [0, 1] := by
    have hrun : (Machine.runIf (step fun _ => true) alone (new 4096 64 : World 2 0)
        ([.write 0 (.ofData [1]), .write 1 (.ofData [2]), .publisher 0, .publisher 1] ++
          List.replicate 11 (.publisher 0) ++ List.replicate 11 (.publisher 1))).map
        (fun s => (decide s.Finished, s.accepted)) = some (true, [0, 1]) := by decide +kernel
    simpa [Option.map_eq_some_iff] using hrun
  have hrun := Machine.Run.of_runIf exclusive_of_alone hs
  exact ⟨s, hrun.run_eq, haccepted, none_lost (by decide) (by decide) (by decide) (by decide) hrun
    (by rw [haccepted]; decide) hfinished⟩

end World

def raceLabels : List (Label 2 0) :=
  [.write 0 (.ofData [1]), .write 1 (.ofData [2]), .publisher 0, .publisher 0, .publisher 1,
    .publisher 1] ++ List.replicate 10 (.publisher 0) ++ List.replicate 10 (.publisher 1)

/-- Both calls return true, the second replaces the message of the first, and position 1
is left empty. -/
theorem race_loses_message : ∃ s : World 2 0,
    Machine.run (World.step fun _ => true) (World.new 4096 64) raceLabels = some s ∧
    s.accepted = [0, 1] ∧ s.Finished ∧ ¬ s.NoneLost := by
  obtain ⟨s, hs, hfinished, haccepted, hcounter, hempty⟩ : ∃ s : World 2 0,
      Machine.run (World.step fun _ => true) (World.new 4096 64) raceLabels = some s ∧
      s.Finished ∧ s.accepted = [0, 1] ∧ s.topic.counter = 2 ∧
      (s.topic.elem (qPos 1)).empty = true := by
    have hrun : (Machine.run (World.step fun _ => true) (World.new 4096 64) raceLabels).map
        (fun s => (decide s.Finished, s.accepted, s.topic.counter, (s.topic.elem (qPos 1)).empty)) =
        some (true, [0, 1], 2, true) := by decide +kernel
    simpa [Option.map_eq_some_iff] using hrun
  refine ⟨s, hs, haccepted, hfinished, ?_⟩
  rintro ⟨owner, -, -, hlength, hslots⟩
  rw [hcounter] at hlength hslots
  obtain ⟨msg, -, b, -, helem, -⟩ := hslots 1 owner[1] (List.getElem?_eq_getElem _)
    (by decide)
  rw [helem] at hempty
  cases hempty

end Shadesmar.PubSub.Interleaving
