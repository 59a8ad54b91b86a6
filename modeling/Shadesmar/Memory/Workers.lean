import Shadesmar.Memory.Agreement

namespace Shadesmar.Memory

open Library Library.Rounding

theorem threadChunks_mem_iff {ptrSize quot rem : Nat} {call : Nat × Nat} (left thread currStart : Nat) :
    call ∈ threadChunks ptrSize quot rem left thread currStart ↔ ∃ t < left,
      call = (ptrSize * (currStart + t * quot + (min rem (thread + t) - min rem thread)),
        ptrSize * (quot + if thread + t < rem then 1 else 0)) := by
  induction left generalizing thread currStart with
  | zero => simp [threadChunks]
  | succ left ih =>
    rw [threadChunks_succ, List.mem_cons, ih]
    constructor
    · rintro (rfl | ⟨t, ht, rfl⟩)
      · exact ⟨0, Nat.succ_pos left, by simp⟩
      · refine ⟨t + 1, by omega, ?_⟩
        have hquot : (t + 1) * quot = t * quot + quot := Nat.succ_mul t quot
        have hthread : thread + 1 + t = thread + (t + 1) := by omega
        rw [hquot, hthread]
        congr 2
        split_ifs <;> omega
    · rintro ⟨t, ht, rfl⟩
      cases t with
      | zero => exact .inl (by simp)
      | succ t =>
        refine .inr ⟨t, by omega, ?_⟩
        have hquot : (t + 1) * quot = t * quot + quot := Nat.succ_mul t quot
        have hthread : thread + 1 + t = thread + (t + 1) := by omega
        rw [hquot, hthread]
        congr 2
        split_ifs <;> omega

def shortfall (k items : Nat) : Nat := roundUp k items - items

section Shortfall

variable {k : Nat} (hk : 0 < k) (items : Nat)
include hk

theorem add_shortfall : items + shortfall k items = roundUp k items :=
  Nat.add_sub_cancel' (le_roundUp hk)

theorem shortfall_lt : shortfall k items < k := by
  have hlt := roundUp_lt (n := items) hk
  have hsum := add_shortfall hk items
  omega

theorem shortfall_eq_zero : shortfall k items = 0 ↔ k ∣ items := by
  rw [← roundUp_eq_iff hk, ← add_shortfall hk items]
  omega

theorem shortfall_add_one : shortfall k (items + 1) =
    if shortfall k items = 0 then k - 1 else shortfall k items - 1 := by
  have hnext := add_shortfall hk (items + 1)
  have hsum := add_shortfall hk items
  rw [roundUp_add_one hk] at hnext
  simp only [shortfall_eq_zero hk]
  split_ifs at hnext ⊢ <;> omega

theorem shortfall_zero : shortfall k 0 = 0 := (shortfall_eq_zero hk 0).mpr (Nat.dvd_zero k)

theorem shortfall_one : shortfall k 1 = k - 1 := by
  rw [← Nat.zero_add 1, shortfall_add_one hk, if_pos (shortfall_zero hk)]

end Shortfall

def lastPart (items nthreads : Nat) : Nat :=
  if items < nthreads then min 1 items else items / nthreads

def storedItems (k : Nat) (prefetches : Bool) (len : Nat) : Nat :=
  if prefetches then max k (roundUp k len) else roundUp k len

def PartInside (k : Nat) (prefetches : Bool) (items nthreads t : Nat) : Prop :=
  let start := t * (items / nthreads) + min (items % nthreads) t
  let len := items / nthreads + if t < items % nthreads then 1 else 0
  storedItems k prefetches len = 0 ∨ start + storedItems k prefetches len ≤ roundUp k items

section Parts

variable {k items nthreads : Nat} {prefetches : Bool}

theorem storedItems_pos (hk : 0 < k) {len : Nat} (hlen : 0 < len) :
    storedItems k prefetches len = len + shortfall k len := by
  have hle := le_roundUp (n := len) hk
  have hfull := Nat.le_of_dvd (by omega) (dvd_roundUp k len)
  rw [add_shortfall hk]
  unfold storedItems
  split_ifs
  · exact Nat.max_eq_right hfull
  · rfl

theorem partsInside_iff_of_le (hk : 0 < k) (hpos : 0 < nthreads) (hle : nthreads ≤ items) :
    (∀ t < nthreads, PartInside k prefetches items nthreads t) ↔
      shortfall k (items / nthreads) ≤ shortfall k items := by
  have hquot : 0 < items / nthreads := Nat.div_pos hle hpos
  have hrem := Nat.mod_lt items hpos
  have hdiv := Nat.div_add_mod items nthreads
  have hround := add_shortfall hk items
  simp only [PartInside]
  generalize items / nthreads = quot at *
  generalize items % nthreads = rem at *
  constructor
  · intro h
    have hlast := h (nthreads - 1) (by omega)
    have hstart : nthreads * quot = (nthreads - 1) * quot + quot := by
      rw [← Nat.succ_mul]
      congr 1
      omega
    rw [if_neg (by omega), Nat.add_zero, storedItems_pos hk hquot] at hlast
    omega
  · intro h t ht
    rw [storedItems_pos hk (by omega)]
    have hnext := shortfall_add_one hk quot
    split_ifs with hlonger
    · -- a longer part ends a whole part before the last items
      have hends : (t + 1) * (quot + 1) ≤ rem * (quot + 1) := Nat.mul_le_mul_right _ (by omega)
      have hrest : (rem + 1) * quot ≤ nthreads * quot := Nat.mul_le_mul_right _ (by omega)
      have hexp : (t + 1) * (quot + 1) = t * quot + t + quot + 1 := by ring
      have hexp' : rem * (quot + 1) = rem * quot + rem := by ring
      have hexp'' : (rem + 1) * quot = rem * quot + quot := by ring
      by_cases hzero : shortfall k quot = 0
      · have hmul := Nat.le_of_dvd hquot ((shortfall_eq_zero hk quot).mp hzero)
        rw [if_pos hzero] at hnext
        omega
      · rw [if_neg hzero] at hnext
        omega
    · have hends : (t + 1) * quot ≤ nthreads * quot := Nat.mul_le_mul_right _ (by omega)
      have hexp : (t + 1) * quot = t * quot + quot := by ring
      rw [Nat.add_zero]
      omega

theorem partsInside_iff_of_lt (hk : 0 < k) (hlt : items < nthreads) :
    (∀ t < nthreads, PartInside k prefetches items nthreads t) ↔
      prefetches = false ∧ shortfall k (min 1 items) ≤ shortfall k items := by
  have hround := add_shortfall hk items
  have hshort := shortfall_lt hk items
  have hone := shortfall_one hk
  simp only [PartInside, Nat.div_eq_of_lt hlt, Nat.mod_eq_of_lt hlt, Nat.mul_zero, Nat.zero_add]
  constructor
  · intro h
    cases prefetches with
    | true =>
      have hidle := h items hlt
      simp only [storedItems, if_true, Nat.lt_irrefl, if_false, roundUp_zero, Nat.max_zero] at hidle
      omega
    | false =>
      refine ⟨rfl, ?_⟩
      rcases Nat.eq_zero_or_pos items with rfl | hitems
      · exact Nat.le_refl _
      · have hlast := h (items - 1) (by omega)
        rw [if_pos (by omega), storedItems_pos hk (show 0 < 1 by decide)] at hlast
        rw [Nat.min_eq_left (show 1 ≤ items from hitems)]
        omega
  · rintro ⟨rfl, h⟩ t ht
    split_ifs with hbusy
    · rw [Nat.min_eq_left (by omega)] at h
      rw [storedItems_pos hk (show 0 < 1 by decide)]
      omega
    · exact .inl (by simp [storedItems])

theorem partsInside_iff (hk : 0 < k) (hpos : 0 < nthreads) :
    (∀ t < nthreads, PartInside k prefetches items nthreads t) ↔
      (prefetches = true → nthreads ≤ items) ∧
      shortfall k (lastPart items nthreads) ≤ shortfall k items := by
  unfold lastPart
  by_cases hlt : items < nthreads
  · have hmore : (prefetches = true → nthreads ≤ items) ↔ prefetches = false := by
      cases prefetches
      · simp
      · simpa using hlt
    rw [if_pos hlt, partsInside_iff_of_lt hk hlt, hmore]
  · have hle := Nat.le_of_not_lt hlt
    rw [if_neg hlt, partsInside_iff_of_le hk hpos hle]
    exact (and_iff_right fun _ => hle).symm

end Parts

namespace Copier

variable {b : BaseCopier} {n : Nat}

structure Agrees (b : BaseCopier) (nthreads : Nat) (pos : 0 < nthreads) (n : Nat) : Prop where
  copied : ∀ order, order.Perm ((multi b nthreads pos).calls n) → ∀ m d s i, i < n →
    (multi b nthreads pos).userToShm order m d s n (d + i) = s i ∧
    (multi b nthreads pos).shmToUser order m d s n (d + i) = s i
  inside : ∀ call ∈ (multi b nthreads pos).calls n,
    Within (shmalign n b.alignment)
      (fun m d s => b.userToShm m (d + call.1) (fun x => s (call.1 + x)) call.2) ∧
    Within (shmalign n b.alignment)
      (fun m d s => b.shmToUser m (d + call.1) (fun x => s (call.1 + x)) call.2)

theorem shmToUser_eq (c : Copier) : c.shmToUser = c.userToShm := by
  funext order m d s n
  cases c with
  | single b => exact congrFun (congrFun (congrFun (congrFun b.shmToUser_eq m) d) s) n
  | multi b nthreads pos =>
    simp only [shmToUser, userToShm, b.shmToUser_eq]

theorem copyAt_shift (m s : Bytes.Mem) (d o len : Nat) :
    copyAt m (d + o) (fun x => s (o + x)) 0 len = copyAt m d s o len := by
  funext x
  rw [copyAt_apply, copyAt_apply, Nat.add_zero]
  split_ifs with hx
  · congr 1
    omega
  · rfl

def itemsPerUnit (b : BaseCopier) : Nat := b.alignment / b.ptrSize

theorem alignment_eq (b : BaseCopier) : b.alignment = b.ptrSize * itemsPerUnit b := by
  cases b <;> rfl

theorem ptrSize_pos (b : BaseCopier) : 0 < b.ptrSize := by cases b <;> decide

theorem itemsPerUnit_pos (b : BaseCopier) : 0 < itemsPerUnit b := by cases b <;> decide

theorem span_items (b : BaseCopier) (len : Nat) :
    b.span (b.ptrSize * len) = b.ptrSize * storedItems (itemsPerUnit b) b.prefetches len := by
  have hround := roundUp_mul (ptrSize_pos b) (itemsPerUnit_pos b) len
  unfold BaseCopier.span storedItems
  rw [alignment_eq b, hround]
  split_ifs
  · exact Nat.mul_max_mul_left ..
  · rfl

def itemCount (b : BaseCopier) (n : Nat) : Nat := roundUp b.ptrSize n / b.ptrSize

theorem mul_itemCount (b : BaseCopier) (n : Nat) : b.ptrSize * itemCount b n = roundUp b.ptrSize n :=
  Nat.mul_div_cancel' (dvd_roundUp _ _)

theorem roundUp_items (b : BaseCopier) (n : Nat) :
    roundUp b.alignment n = b.ptrSize * roundUp (itemsPerUnit b) (itemCount b n) := by
  have hdvd : b.ptrSize ∣ b.alignment := ⟨_, alignment_eq b⟩
  rw [← roundUp_roundUp b.alignment_pos (ptrSize_pos b) hdvd, ← mul_itemCount, alignment_eq b,
    roundUp_mul (ptrSize_pos b) (itemsPerUnit_pos b)]

theorem calls_eq (b : BaseCopier) {nthreads : Nat} (pos : 0 < nthreads) (hn : n ≤ 2 ^ 63) :
    (multi b nthreads pos).calls n = threadChunks b.ptrSize (itemCount b n / nthreads)
      (itemCount b n % nthreads) nthreads 0 0 := by
  obtain ⟨items, hitems, hcalls⟩ := calls_multi b pos hn
  rw [hcalls, itemCount, hitems, Nat.mul_div_cancel_left _ (ptrSize_pos b)]

theorem within_call_iff (b : BaseCopier) (hn : n + b.alignment ≤ 2 ^ 64) (start len : Nat)
    (hlen : b.ptrSize * len + b.alignment ≤ 2 ^ 64) :
    Within (shmalign n b.alignment) (fun m d s => b.userToShm m (d + b.ptrSize * start)
        (fun x => s (b.ptrSize * start + x)) (b.ptrSize * len)) ↔
      storedItems (itemsPerUnit b) b.prefetches len = 0 ∨
        start + storedItems (itemsPerUnit b) b.prefetches len ≤
          roundUp (itemsPerUnit b) (itemCount b n) := by
  have hpos := ptrSize_pos b
  have hcopy : (fun m d s => b.userToShm m (d + b.ptrSize * start)
      (fun x => s (b.ptrSize * start + x)) (b.ptrSize * len)) = fun m d s =>
        copyAt m d s (b.ptrSize * start) (b.span (b.ptrSize * len)) := by
    funext m d s
    rw [b.userToShm_span _ _ _ hlen, copyAt_shift]
  rw [hcopy, within_copyAt, b.shmalign_alignment hn, span_items, roundUp_items, ← Nat.mul_add]
  constructor
  · rintro (hzero | hle)
    · exact .inl ((Nat.mul_eq_zero.mp hzero).resolve_left (Nat.ne_of_gt hpos))
    · exact .inr (Nat.le_of_mul_le_mul_left hle hpos)
  · rintro (hzero | hle)
    · exact .inl (by rw [hzero, Nat.mul_zero])
    · exact .inr (Nat.mul_le_mul_left _ hle)

theorem copied_by_some (b : BaseCopier) {nthreads : Nat} (pos : 0 < nthreads) (hn : n ≤ 2 ^ 63)
    (d : Nat) {i : Nat} (hi : i < n) :
    ∃ call ∈ (multi b nthreads pos).calls n, Stores b d (d + i) call := by
  have hptr := ptrSize_pos b
  have hround := le_roundUp (n := n) hptr
  have hitem : i / b.ptrSize < itemCount b n := by
    rw [Nat.div_lt_iff_lt_mul hptr, Nat.mul_comm, mul_itemCount]
    omega
  rw [← chunkEnd_div_mod (itemCount b n) pos] at hitem
  obtain ⟨start, len, hmem, hlo, hhi⟩ : ∃ start len, (b.ptrSize * start, b.ptrSize * len) ∈
      threadChunks b.ptrSize (itemCount b n / nthreads) (itemCount b n % nthreads) nthreads 0 0 ∧
      start ≤ i / b.ptrSize ∧ i / b.ptrSize < start + len := threadChunks_covers (Nat.zero_le _) hitem
  refine ⟨_, by rw [calls_eq b pos hn]; exact hmem, ?_⟩
  have hspan := b.le_span (b.ptrSize * len)
  have hlow := Nat.mul_le_mul_left b.ptrSize hlo
  have hback := Nat.mul_div_le i b.ptrSize
  have hhigh : i < b.ptrSize * (start + len) := by
    rw [Nat.mul_comm, ← Nat.div_lt_iff_lt_mul hptr]
    exact hhi
  rw [Nat.mul_add] at hhigh
  unfold Stores
  dsimp only
  omega

/-- The threads stay inside what was reserved exactly when the part of the last of them,
rounded up, does. -/
theorem multi_agrees_iff (b : BaseCopier) {nthreads : Nat} (pos : 0 < nthreads) (hn : n < 2 ^ 31) :
    Agrees b nthreads pos n ↔ (b.prefetches = true → nthreads ≤ itemCount b n) ∧
      shortfall (itemsPerUnit b) (lastPart (itemCount b n) nthreads) ≤
        shortfall (itemsPerUnit b) (itemCount b n) := by
  have hal := b.alignment_le
  have hptr := ptrSize_pos b
  have hcalls := calls_eq b (n := n) pos (by omega)
  have hinside : (∀ call ∈ (multi b nthreads pos).calls n, Within (shmalign n b.alignment)
      (fun m d s => b.userToShm m (d + call.1) (fun x => s (call.1 + x)) call.2)) ↔
      ∀ t < nthreads, PartInside (itemsPerUnit b) b.prefetches (itemCount b n) nthreads t := by
    have hmem (t : Nat) (ht : t < nthreads) :
        (b.ptrSize * (t * (itemCount b n / nthreads) + min (itemCount b n % nthreads) t),
          b.ptrSize * (itemCount b n / nthreads + if t < itemCount b n % nthreads then 1 else 0)) ∈
          (multi b nthreads pos).calls n := by
      rw [hcalls, threadChunks_mem_iff]
      exact ⟨t, ht, by simp⟩
    have hpart (t : Nat) (ht : t < nthreads) := by
      have hlen := calls_le (by omega) (hmem t ht)
      dsimp only at hlen
      exact within_call_iff b (n := n) (by omega)
        (t * (itemCount b n / nthreads) + min (itemCount b n % nthreads) t)
        (itemCount b n / nthreads + if t < itemCount b n % nthreads then 1 else 0) (by omega)
    constructor
    · exact fun h t ht => (hpart t ht).mp (h _ (hmem t ht))
    · intro h call hcall
      rw [hcalls, threadChunks_mem_iff] at hcall
      obtain ⟨t, ht, rfl⟩ := hcall
      have hthis := (hpart t ht).mpr (h t ht)
      simpa using hthis
  rw [← partsInside_iff (itemsPerUnit_pos b) pos, ← hinside]
  constructor
  · exact fun h call hcall => (h.inside call hcall).1
  · intro h
    refine ⟨fun order horder m d s i hi => ?_, fun call hcall => ?_⟩
    · have hsome := copied_by_some b pos (by omega) d hi
      rw [shmToUser_eq, and_self, userToShm_apply (by omega) horder, base, if_pos hsome,
        Nat.add_sub_cancel_left]
    · rw [b.shmToUser_eq, and_self]
      exact h call hcall

theorem agrees_three_vectors : Agrees .avxAsyncPF 2 (by decide) 96 :=
  (multi_agrees_iff .avxAsyncPF (by decide) (by decide)).mpr (by decide)

/-- Four vectors for two threads: each rounds its two up to four. -/
theorem worker_overshoots : shmalign 128 BaseCopier.avxUnroll.alignment = 128 ∧
    (64, 64) ∈ (multi .avxUnroll 2 (by decide)).calls 128 ∧
    BaseCopier.avxUnroll.userToShm (fun _ => 0) (4096 + 64) (fun _ => 1) 64 (4096 + 128) = 1 ∧
    ¬ Agrees .avxUnroll 2 (by decide) 128 := by
  have hround : shmalign 128 BaseCopier.avxUnroll.alignment = 128 := by decide +kernel
  have hcall : (64, 64) ∈ (multi .avxUnroll 2 (by decide)).calls 128 := by decide +kernel
  have hstored :
      BaseCopier.avxUnroll.userToShm (fun _ => 0) (4096 + 64) (fun _ => 1) 64 (4096 + 128) = 1 := by
    rw [BaseCopier.avxUnroll.userToShm_span _ _ _ (by decide), copyAt_apply]
    decide
  refine ⟨hround, hcall, hstored, fun h => ?_⟩
  have hout : BaseCopier.avxUnroll.userToShm (fun _ => 0) (4096 + 64) (fun _ => 1) 64 (4096 + 128) =
      0 := ((h.inside _ hcall).1 (fun _ => 0) 4096 (fun _ => 1)).1 (4096 + 128)
        (.inr (by rw [hround]))
  rw [hstored] at hout
  exact absurd hout (by decide)

end Copier

end Shadesmar.Memory
