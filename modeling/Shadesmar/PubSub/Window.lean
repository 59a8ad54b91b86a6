import Shadesmar.Memory.Live
import Shadesmar.PubSub.Topic

/-! The topic as a sliding window over the messages ever accepted.  `hist` lists a
block for every message, in the order of allocation; four positions in that list say
how far the stages of `write` have come.  Each operation of a writer moves one of
them, and the sequential and the interleaved models share these steps. -/

namespace Shadesmar.PubSub

open Library Shadesmar.Memory

structure Entry where
  block : Block
  msg : List UInt8

def Entry.element (r : Entry) : Element := ⟨r.msg.length, false, r.block.handle⟩

theorem Entry.elem_swap (t : Topic) (q : Fin queueSize) (r : Entry) :
    (((t.setHandle q (t.allocator.ptr r.block)).setSize q r.msg.length).setEmpty q).elem q =
      r.element := by
  rw [Topic.elem_swap, Allocator.ptrToHandle_ptr, Entry.element]

theorem Entry.blocks_snoc {hist : List Entry} {k : Nat} (hk : k ≤ hist.length) (r : Entry) :
    ((hist ++ [r]).drop k).map Entry.block = (hist.drop k).map Entry.block ++ [r.block] := by
  rw [List.drop_append_of_le_length hk, List.map_append]
  rfl

theorem Entry.blocks_oldest {hist : List Entry} {c : Nat} {r : Entry} (hc : queueSize ≤ c)
    (hr : hist[c - queueSize]? = some r) : (hist.drop (c - queueSize)).map Entry.block =
      r.block :: (hist.drop (c + 1 - queueSize)).map Entry.block := by
  obtain ⟨hlt, rfl⟩ := List.getElem?_eq_some_iff.mp hr
  have hsucc : c + 1 - queueSize = c - queueSize + 1 := by omega
  rw [hsucc, List.drop_eq_getElem_cons hlt, List.map_cons]

/-- Blocks before `freed` have been released.  Slot sections have been entered for the
positions before `locked` and completed for those before `swapped`; the blocks before
`filled` contain their messages. -/
structure Window (t : Topic) (hist : List Entry) (freed locked swapped filled : Nat) : Prop where
  ring : t.allocator.Ring ((hist.drop freed).map Entry.block)
  small : t.allocator.size + 1 < 2 ^ 32
  holds : ∀ k r, hist[k]? = some r → freed ≤ k → k < filled → t.allocator.Holds r.block r.msg
  slots : ∀ k r, hist[k]? = some r → locked ≤ k + queueSize → k < swapped →
    t.elem (qPos k) = r.element
  unused : ∀ i : Fin queueSize, locked ≤ i.val → t.elem i = .fresh
  freed_le : freed ≤ locked - queueSize
  swapped_le : swapped ≤ locked
  locked_le : locked ≤ swapped + 1
  swapped_le_filled : swapped ≤ filled
  filled_le : filled ≤ hist.length

namespace Window

variable {t : Topic} {hist : List Entry} {freed locked swapped filled c k : Nat} {r : Entry}
variable {msg : List UInt8}

theorem freed_le_length (h : Window t hist freed locked swapped filled) : freed ≤ hist.length := by
  have h1 := h.freed_le
  have h2 := h.locked_le
  have h3 := h.swapped_le_filled
  have h4 := h.filled_le
  unfold queueSize at h1
  omega

theorem mem_blocks (hk : hist[k]? = some r) (hf : freed ≤ k) :
    r.block ∈ (hist.drop freed).map Entry.block := by
  apply List.mem_map_of_mem
  apply List.mem_of_getElem? (i := k - freed)
  rw [List.getElem?_drop, Nat.add_sub_cancel' hf, hk]

theorem ne_blocks (h : Window t hist freed locked swapped filled) {j : Nat} {r' : Entry}
    (hk : hist[k]? = some r) (hj : hist[j]? = some r') (hfk : freed ≤ k) (hfj : freed ≤ j)
    (hne : k ≠ j) : r.block ≠ r'.block := by
  intro heq
  have hk' : ((hist.drop freed).map Entry.block)[k - freed]? = some r.block := by
    rw [List.getElem?_map, List.getElem?_drop, Nat.add_sub_cancel' hfk, hk]
    rfl
  have hj' : ((hist.drop freed).map Entry.block)[j - freed]? = some r.block := by
    rw [List.getElem?_map, List.getElem?_drop, Nat.add_sub_cancel' hfj, hj, heq]
    rfl
  have hlt : k - freed < ((hist.drop freed).map Entry.block).length :=
    (List.getElem?_eq_some_iff.mp hk').1
  have hinj := (List.getElem?_inj hlt h.ring.nodup).mp (hk'.trans hj'.symm)
  omega

theorem drop_snoc (h : Window t hist freed locked swapped filled) :
    ((hist ++ [r]).drop freed).map Entry.block =
      (hist.drop freed).map Entry.block ++ [r.block] := Entry.blocks_snoc h.freed_le_length r

theorem getElem?_old {x : Entry} (hk : (hist ++ [x])[k]? = some r) (hlt : k < hist.length) :
    hist[k]? = some r := by
  rwa [List.getElem?_append_left hlt] at hk

theorem alloc (h : Window t hist freed locked swapped filled) (msg : List UInt8)
    (hmsg : msg.length ≤ t.allocator.size) :
    t.alloc msg.length = .ok (none, t) ∨
    ∃ b t', t.alloc msg.length = .ok (some (t'.allocator.ptr b), t') ∧
      t'.queue = t.queue ∧ t'.allocator.size = t.allocator.size ∧
      t.allocator.Lays msg.length b ∧
      Window t' (hist ++ [⟨b, msg⟩]) freed locked swapped filled := by
  have hsmall := h.small
  have hnarrow : u32 msg.length = msg.length := u32_eq (by omega)
  unfold Topic.alloc
  rw [hnarrow]
  rcases h.ring.alloc msg.length with hnone | ⟨b, hsome, hring, hhead, hroom⟩
  · rw [hnone]
    exact .inl rfl
  · rw [hsome]
    refine .inr ⟨b, { t with allocator := t.allocator.push b }, rfl, rfl, rfl, ?_, ?_⟩
    · exact hroom (by omega)
    · refine ⟨?_, h.small, ?_, ?_, h.unused, h.freed_le, h.swapped_le, h.locked_le,
        h.swapped_le_filled, ?_⟩
      · rw [h.drop_snoc]
        exact hring
      · intro k r hk hf hlt
        have hold := getElem?_old hk (Nat.lt_of_lt_of_le hlt h.filled_le)
        exact (h.holds k r hold hf hlt).push h.ring (mem_blocks hold hf) hhead
      · intro k r hk hl hs
        have hold := getElem?_old hk
          (Nat.lt_of_lt_of_le hs (Nat.le_trans h.swapped_le_filled h.filled_le))
        exact h.slots k r hold hl hs
      · have := h.filled_le
        rw [List.length_append]
        omega

theorem fill (h : Window t hist freed locked swapped filled) (hk : hist[filled]? = some r)
    (hroom : r.msg.length ≤ 4 * r.block.size) :
    Window (t.userToShm (t.allocator.ptr r.block) r.msg) hist freed locked swapped
      (filled + 1) := by
  have hf : freed ≤ filled := by
    have h1 := h.freed_le
    have h2 := h.locked_le
    have h3 := h.swapped_le_filled
    unfold queueSize at h1
    omega
  have hmem := mem_blocks hk hf
  refine ⟨h.ring.store hmem hroom, h.small, ?_, h.slots, h.unused, h.freed_le, h.swapped_le,
    h.locked_le, Nat.le_succ_of_le h.swapped_le_filled, (List.getElem?_eq_some_iff.mp hk).1⟩
  intro j r' hj hfj hlt
  by_cases hjk : j = filled
  · subst hjk
    obtain rfl : r = r' := Option.some.inj (hk.symm.trans hj)
    exact Allocator.Holds.store_self _ hroom
  · exact (h.holds j r' hj hfj (by omega)).store_other h.ring (mem_blocks hj hfj) hmem
      (h.ne_blocks hj hk hfj hf hjk) hroom

theorem lock (h : Window t hist freed c c filled) :
    Window t hist freed (c + 1) c filled where
  ring := h.ring
  small := h.small
  holds := h.holds
  slots := fun k r hk hl hs => h.slots k r hk (by omega) hs
  unused := fun i hi => h.unused i (by omega)
  freed_le := by have := h.freed_le; omega
  swapped_le := Nat.le_succ c
  locked_le := Nat.le_refl _
  swapped_le_filled := h.swapped_le_filled
  filled_le := h.filled_le

theorem setElem (h : Window t hist freed (c + 1) c filled) (e : Element) :
    Window (t.setElem (qPos c) e) hist freed (c + 1) c filled := by
  refine ⟨h.ring, h.small, h.holds, ?_, ?_, h.freed_le, h.swapped_le, h.locked_le,
    h.swapped_le_filled, h.filled_le⟩
  · intro k r hk hl hs
    rw [Topic.elem_setElem_ne _ _ _ (qPos_ne hs (by omega))]
    exact h.slots k r hk hl hs
  · intro i hi
    have hne : i ≠ qPos c := by
      intro heq
      have hlt := i.isLt
      rw [heq, qPos_val] at hi hlt
      have := Nat.mod_le c queueSize
      have := i.isLt
      rw [heq, qPos_val] at this
      omega
    rw [Topic.elem_setElem_ne _ _ _ hne]
    exact h.unused i hi

theorem setHandle (h : Window t hist freed (c + 1) c filled) (p : Nat) :
    Window (t.setHandle (qPos c) p) hist freed (c + 1) c filled := h.setElem _

theorem setSize (h : Window t hist freed (c + 1) c filled) (n : Nat) :
    Window (t.setSize (qPos c) n) hist freed (c + 1) c filled := h.setElem _

theorem setEmpty (h : Window t hist freed (c + 1) c filled) :
    Window (t.setEmpty (qPos c)) hist freed (c + 1) c filled := h.setElem _

theorem swap (h : Window t hist freed (c + 1) c filled) (hk : hist[c]? = some r)
    (hc : c < filled) (helem : t.elem (qPos c) = r.element) :
    Window t hist freed (c + 1) (c + 1) filled := by
  refine ⟨h.ring, h.small, h.holds, ?_, h.unused, h.freed_le, Nat.le_refl _, Nat.le_succ _, hc,
    h.filled_le⟩
  intro j r' hj hl hs
  by_cases hjc : j = c
  · subst hjc
    obtain rfl : r = r' := Option.some.inj (hk.symm.trans hj)
    exact helem
  · exact h.slots j r' hj hl (by omega)

theorem head_slot (h : Window t hist freed c c filled) :
    c < queueSize ∧ t.elem (qPos c) = .fresh ∨
    ∃ r, queueSize ≤ c ∧ hist[c - queueSize]? = some r ∧ t.elem (qPos c) = r.element := by
  by_cases hc : c < queueSize
  · refine .inl ⟨hc, h.unused _ ?_⟩
    rw [qPos_val, Nat.mod_eq_of_lt hc]
  · have hlen : c - queueSize < hist.length := by
      have h1 := h.swapped_le_filled
      have h2 := h.filled_le
      unfold queueSize at *
      omega
    refine .inr ⟨hist[c - queueSize], by omega, List.getElem?_eq_getElem hlen, ?_⟩
    have hback : c - queueSize + queueSize = c := by omega
    have hslot := h.slots (c - queueSize) _ (List.getElem?_eq_getElem hlen) (by omega)
      (by unfold queueSize at *; omega)
    rwa [← qPos_add, hback] at hslot

def oldest (t : Topic) (hist : List Entry) (c : Nat) : Option Nat :=
  if c < queueSize then none
  else hist[c - queueSize]?.map fun r => t.allocator.ptr r.block

theorem oldAddress_eq (h : Window t hist freed c c filled) :
    t.oldAddress (qPos c) = oldest t hist c := by
  unfold Topic.oldAddress oldest
  rcases h.head_slot with ⟨hc, helem⟩ | ⟨r, hc, hr, helem⟩
  · rw [helem, if_pos hc]
    rfl
  · have hlap : ¬ c < queueSize := by omega
    simp [helem, hlap, hr, Entry.element]

/-- The block taken out of the slot is the oldest live one, so it is freed at once. -/
theorem free (h : Window t hist (c - queueSize) (c + 1) (c + 1) filled) :
    ∃ t', t.free (oldest t hist c) = .ok (true, t') ∧ t'.queue = t.queue ∧
      t'.allocator.size = t.allocator.size ∧
      Window t' hist (c + 1 - queueSize) (c + 1) (c + 1) filled := by
  unfold Topic.free oldest
  by_cases hc : c < queueSize
  · rw [if_pos hc]
    refine ⟨t, rfl, rfl, rfl, ?_⟩
    have hzero : c + 1 - queueSize = c - queueSize := by omega
    rw [hzero]
    exact h
  · have hlen : c - queueSize < hist.length := by
      have h1 := h.swapped_le_filled
      have h2 := h.filled_le
      omega
    have hring := h.ring
    rw [Entry.blocks_oldest (Nat.le_of_not_lt hc) (List.getElem?_eq_getElem hlen)] at hring
    rw [if_neg hc, List.getElem?_eq_getElem hlen, Option.map_some, hring.free_head]
    refine ⟨{ t with allocator := t.allocator.pop _ }, rfl, rfl, rfl, hring.pop, h.small,
      ?_, h.slots, h.unused, by omega, h.swapped_le, h.locked_le, h.swapped_le_filled,
      h.filled_le⟩
    intro k r hk hf hlt
    exact (h.holds k r hk (by omega) hlt).pop _

theorem incCounter (h : Window t hist freed locked swapped filled) :
    Window t.incCounter hist freed locked swapped filled :=
  ⟨h.ring, h.small, h.holds, h.slots, h.unused, h.freed_le, h.swapped_le, h.locked_le,
    h.swapped_le_filled, h.filled_le⟩

end Window

end Shadesmar.PubSub
