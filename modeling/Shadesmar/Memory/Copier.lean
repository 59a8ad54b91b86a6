import Shadesmar.Memory.Aligned
import Mathlib.Tactic.Ring

/-! `memory/copier.h` and `memory/dragons.h`: how `user_to_shm` stores a message, and
`shm_to_user` takes it out.  A vector load and the store of what was loaded are a copy of 32
bytes.  `m` is the memory of the destination and `d` an address there; `s` are the bytes found
from the source address on. -/

namespace Shadesmar.Memory

open Library Library.Rounding

def copyAt (m : Bytes.Mem) (d : Nat) (s : Bytes.Mem) (o len : Nat) : Bytes.Mem :=
  Bytes.write m (d + o) (Bytes.read s o len)

section CopyAt

variable (m s : Bytes.Mem) (d o : Nat)

theorem copyAt_apply (len x : Nat) : copyAt m d s o len x =
    if d + o ≤ x ∧ x < d + o + len then s (x - d) else m x := by
  by_cases hin : d + o ≤ x ∧ x < d + o + len
  · obtain ⟨i, rfl⟩ := Nat.exists_eq_add_of_le hin.1
    have hi : i < (Bytes.read s o len).length := by
      rw [Bytes.length_read]
      omega
    have hbyte : copyAt m d s o len (d + o + i) = (Bytes.read s o len)[i] := Bytes.write_inside hi
    have hoffset : d + o + i - d = o + i := by omega
    rw [if_pos hin, hbyte, hoffset]
    simp [Bytes.read]
  · rw [if_neg hin]
    apply Bytes.write_outside
    rw [Bytes.length_read]
    omega

@[simp] theorem copyAt_zero : copyAt m d s o 0 = m := by
  funext x
  rw [copyAt_apply, if_neg (by omega)]

theorem copyAt_copyAt (k len : Nat) :
    copyAt (copyAt m d s o k) d s (o + k) len = copyAt m d s o (k + len) := by
  funext x
  simp only [copyAt_apply]
  split_ifs <;> first | rfl | omega

end CopyAt

def vectors (m : Bytes.Mem) (d : Nat) (s : Bytes.Mem) (o : Nat) : Nat → Bytes.Mem
  | 0 => m
  | k + 1 => vectors (copyAt m d s o 32) d s (o + 32) k

theorem vectors_eq (m s : Bytes.Mem) (d o k : Nat) : vectors m d s o k = copyAt m d s o (32 * k) := by
  induction k generalizing m o with
  | zero => simp [vectors]
  | succ k ih =>
    rw [vectors, ih, copyAt_copyAt]
    congr 1
    omega

/-- The loop of the vector routines: while more than `keep` vectors are left, `width` of them
are copied.  The offset reached is returned with the memory. -/
def loop (width keep : Nat) (d : Nat) (s : Bytes.Mem) :
    Nat → Bytes.Mem → Nat → Nat → Bytes.Mem × Nat
  | 0, m, o, _ => (m, o)
  | fuel + 1, m, o, nVec =>
    if nVec > keep then
      loop width keep d s fuel (vectors m d s o width) (o + 32 * width) (sub64 nVec width)
    else (m, o)

theorem loop_stop (width keep d : Nat) (s m : Bytes.Mem) (fuel o : Nat) {nVec : Nat}
    (h : nVec ≤ keep) : loop width keep d s fuel m o nVec = (m, o) := by
  cases fuel with
  | zero => rfl
  | succ fuel => rw [loop, if_neg (by omega)]

theorem loop_eq {width : Nat} (hwidth : 0 < width) (e d : Nat) (s m : Bytes.Mem) {fuel j : Nat}
    (hfuel : j ≤ fuel) (o : Nat) : loop width (width * e) d s fuel m o (width * (j + e)) =
      (copyAt m d s o (32 * (width * j)), o + 32 * (width * j)) := by
  induction j generalizing fuel m o with
  | zero =>
    rw [loop_stop _ _ _ _ _ _ _ (by rw [Nat.zero_add])]
    simp
  | succ j ih =>
    obtain ⟨fuel, rfl⟩ := Nat.exists_eq_add_one_of_ne_zero (Nat.ne_zero_of_lt hfuel)
    have hsum : width * (j + 1 + e) = width + width * (j + e) := by ring
    have hmore : width * (j + 1 + e) > width * e := by
      have hle : width * e ≤ width * (j + e) := Nat.mul_le_mul_left _ (by omega)
      omega
    have hrest : sub64 (width * (j + 1 + e)) width = width * (j + e) := by
      rw [sub64_eq (by omega)]
      omega
    have hround : 32 * width + 32 * (width * j) = 32 * (width * (j + 1)) := by ring
    rw [loop, if_pos hmore, hrest, ih _ (by omega), vectors_eq, copyAt_copyAt, hround,
      Nat.add_assoc, hround]

def vecCpy (width keep last : Nat) (m : Bytes.Mem) (d : Nat) (s : Bytes.Mem) (n : Nat) : Bytes.Mem :=
  let nVec := n / 32
  let (m, o) := loop width keep d s nVec m 0 nVec
  vectors m d s o last

def avxCpy := vecCpy 1 0 0
def avxAsyncCpy := vecCpy 1 0 0
def avxAsyncPfCpy := vecCpy 2 2 2
def avxCpyUnroll := vecCpy 4 0 0
def avxAsyncCpyUnroll := vecCpy 4 0 0
def avxAsyncPfCpyUnroll := vecCpy 4 4 4

section VecCpy

variable {width n : Nat} (m s : Bytes.Mem) (d : Nat)

theorem vecCpy_plain (hwidth : 0 < width) (hn : 32 * width ∣ n) :
    vecCpy width 0 0 m d s n = copyAt m d s 0 n := by
  obtain ⟨j, rfl⟩ := hn
  have hdiv : 32 * width * j / 32 = width * (j + 0) := by
    rw [Nat.mul_assoc, Nat.mul_div_cancel_left _ (by decide), Nat.add_zero]
  have hfuel : j ≤ width * (j + 0) := Nat.le_mul_of_pos_left j hwidth
  have hloop := loop_eq hwidth 0 d s m hfuel 0
  rw [Nat.mul_zero] at hloop
  simp only [vecCpy, hdiv, hloop, vectors]
  rw [Nat.mul_assoc]

/-- The routines that prefetch leave one round for after the loop, and make it even when
there is nothing to copy. -/
theorem vecCpy_tail (hwidth : 0 < width) (hn : 32 * width ∣ n) :
    vecCpy width width width m d s n = copyAt m d s 0 (max (32 * width) n) := by
  obtain ⟨j, rfl⟩ := hn
  have hdiv : 32 * width * j / 32 = width * j := by
    rw [Nat.mul_assoc, Nat.mul_div_cancel_left _ (by decide)]
  cases j with
  | zero =>
    simp only [vecCpy, Nat.mul_zero, loop_stop _ _ _ _ _ _ _ (Nat.zero_le width), vectors_eq]
    rw [Nat.max_eq_left (Nat.zero_le _)]
  | succ j =>
    have hfuel : j ≤ width * (j + 1) := by
      have := Nat.le_mul_of_pos_left (j + 1) hwidth
      omega
    have hloop := loop_eq hwidth 1 d s m hfuel 0
    rw [Nat.mul_one] at hloop
    have hlen : 32 * (width * j) + 32 * width = 32 * width * (j + 1) := by ring
    have hmax : max (32 * width) (32 * width * (j + 1)) = 32 * width * (j + 1) :=
      Nat.max_eq_right (by omega)
    simp only [vecCpy, hdiv, hloop, vectors_eq, copyAt_copyAt, hlen, hmax]

end VecCpy

inductive BaseCopier
  | default
  | repMovsb
  | avx
  | avxAsync
  | avxAsyncPF
  | avxUnroll
  | avxAsyncUnroll
  | avxAsyncPFUnroll
  deriving DecidableEq

namespace BaseCopier

/-- The alignment that the routine asks of its addresses; it is also what the length is
rounded up to. -/
def alignment : BaseCopier → Nat
  | default | repMovsb => 1
  | avx | avxAsync => 32
  | avxAsyncPF => 64
  | avxUnroll | avxAsyncUnroll | avxAsyncPFUnroll => 128

/-- `sizeof(PtrT)` -/
def ptrSize : BaseCopier → Nat
  | default | repMovsb => 1
  | avx | avxAsync | avxAsyncPF | avxUnroll | avxAsyncUnroll | avxAsyncPFUnroll => 32

def prefetches : BaseCopier → Bool
  | avxAsyncPF | avxAsyncPFUnroll => true
  | default | repMovsb | avx | avxAsync | avxUnroll | avxAsyncUnroll => false

def userToShm (b : BaseCopier) (m : Bytes.Mem) (d : Nat) (s : Bytes.Mem) (n : Nat) : Bytes.Mem :=
  match b with
  | default | repMovsb => copyAt m d s 0 n
  | avx => avxCpy m d s (shmalign n 32)
  | avxAsync => avxAsyncCpy m d s (shmalign n 32)
  | avxAsyncPF => avxAsyncPfCpy m d s (shmalign n 64)
  | avxUnroll => avxCpyUnroll m d s (shmalign n 128)
  | avxAsyncUnroll => avxAsyncCpyUnroll m d s (shmalign n 128)
  | avxAsyncPFUnroll => avxAsyncPfCpyUnroll m d s (shmalign n 128)

def shmToUser (b : BaseCopier) (m : Bytes.Mem) (d : Nat) (s : Bytes.Mem) (n : Nat) : Bytes.Mem :=
  match b with
  | default | repMovsb => copyAt m d s 0 n
  | avx => avxCpy m d s (shmalign n 32)
  | avxAsync => avxAsyncCpy m d s (shmalign n 32)
  | avxAsyncPF => avxAsyncPfCpy m d s (shmalign n 64)
  | avxUnroll => avxCpyUnroll m d s (shmalign n 128)
  | avxAsyncUnroll => avxAsyncCpyUnroll m d s (shmalign n 128)
  | avxAsyncPFUnroll => avxAsyncPfCpyUnroll m d s (shmalign n 128)

def span (b : BaseCopier) (n : Nat) : Nat :=
  if b.prefetches then max b.alignment (roundUp b.alignment n) else roundUp b.alignment n

theorem shmalign_roundUp {n k : Nat} (hk : k < 64) (hn : n + 2 ^ k ≤ 2 ^ 64) :
    shmalign n (2 ^ k) = roundUp (2 ^ k) n := IsAlignment.alignAddress_eq ⟨k, hk, rfl⟩ hn

theorem alignment_le (b : BaseCopier) : b.alignment ≤ 128 := by cases b <;> decide

theorem shmalign_alignment (b : BaseCopier) {n : Nat} (hn : n + b.alignment ≤ 2 ^ 64) :
    shmalign n b.alignment = roundUp b.alignment n := by
  cases b with
  | default | repMovsb => exact shmalign_roundUp (k := 0) (by decide) hn
  | avx | avxAsync => exact shmalign_roundUp (k := 5) (by decide) hn
  | avxAsyncPF => exact shmalign_roundUp (k := 6) (by decide) hn
  | avxUnroll | avxAsyncUnroll | avxAsyncPFUnroll =>
    exact shmalign_roundUp (k := 7) (by decide) hn

theorem userToShm_span (b : BaseCopier) (m s : Bytes.Mem) (d : Nat) {n : Nat}
    (hn : n + b.alignment ≤ 2 ^ 64) : b.userToShm m d s n = copyAt m d s 0 (b.span n) := by
  have hround := b.shmalign_alignment hn
  cases b with
  | default | repMovsb => simp [userToShm, span, prefetches, alignment]
  | avx | avxAsync =>
    change vecCpy 1 0 0 m d s (shmalign n 32) = _
    rw [show shmalign n 32 = roundUp 32 n from hround]
    exact vecCpy_plain m s d (by decide) (dvd_roundUp 32 n)
  | avxAsyncPF =>
    change vecCpy 2 2 2 m d s (shmalign n 64) = _
    rw [show shmalign n 64 = roundUp 64 n from hround]
    exact vecCpy_tail m s d (by decide) (dvd_roundUp 64 n)
  | avxUnroll | avxAsyncUnroll =>
    change vecCpy 4 0 0 m d s (shmalign n 128) = _
    rw [show shmalign n 128 = roundUp 128 n from hround]
    exact vecCpy_plain m s d (by decide) (dvd_roundUp 128 n)
  | avxAsyncPFUnroll =>
    change vecCpy 4 4 4 m d s (shmalign n 128) = _
    rw [show shmalign n 128 = roundUp 128 n from hround]
    exact vecCpy_tail m s d (by decide) (dvd_roundUp 128 n)

theorem userToShm_eq (b : BaseCopier) (m s : Bytes.Mem) (d : Nat) {n : Nat} (hn : n ≤ 2 ^ 63) :
    b.userToShm m d s n = copyAt m d s 0 (b.span n) := by
  have hle := b.alignment_le
  exact b.userToShm_span m s d (by omega)

end BaseCopier

/-- The loop of `MTCopier::_copy` from thread number `thread` on, with `left` threads to go:
for each thread the offset and the length, in bytes, of what it copies. -/
def threadChunks (ptrSize quot rem : Nat) : Nat → Nat → Nat → List (Nat × Nat)
  | 0, _, _ => []
  | left + 1, thread, currStart =>
    let nextStart := currStart + quot
    let nextStart := if thread < rem then nextStart + 1 else nextStart
    (ptrSize * currStart, (nextStart - currStart) * ptrSize) ::
      threadChunks ptrSize quot rem left (thread + 1) nextStart

section ThreadChunks

variable (ptrSize quot rem : Nat)

def chunkEnd : Nat → Nat → Nat → Nat
  | 0, _, currStart => currStart
  | left + 1, thread, currStart =>
    chunkEnd left (thread + 1) (currStart + quot + if thread < rem then 1 else 0)

theorem chunkEnd_eq (left thread currStart : Nat) : chunkEnd quot rem left thread currStart =
    currStart + left * quot + (min rem (thread + left) - min rem thread) := by
  induction left generalizing thread currStart with
  | zero => simp [chunkEnd]
  | succ left ih =>
    have hquot : (left + 1) * quot = left * quot + quot := Nat.succ_mul left quot
    rw [chunkEnd, ih, hquot]
    split_ifs <;> omega

theorem chunkEnd_div_mod (items : Nat) {nthreads : Nat} (h : 0 < nthreads) :
    chunkEnd (items / nthreads) (items % nthreads) nthreads 0 0 = items := by
  have hmod := Nat.mod_lt items h
  have hdiv := Nat.div_add_mod items nthreads
  rw [chunkEnd_eq]
  omega

theorem threadChunks_succ (left thread currStart : Nat) :
    threadChunks ptrSize quot rem (left + 1) thread currStart =
      (ptrSize * currStart, ptrSize * (quot + if thread < rem then 1 else 0)) ::
        threadChunks ptrSize quot rem left (thread + 1)
          (currStart + quot + if thread < rem then 1 else 0) := by
  rw [threadChunks]
  split_ifs with h
  · have hlen : currStart + quot + 1 - currStart = quot + 1 := by omega
    simp only [hlen, Nat.mul_comm ptrSize]
  · have hlen : currStart + quot - currStart = quot := by omega
    simp only [hlen, Nat.mul_comm ptrSize, Nat.add_zero]

variable {ptrSize quot rem} {left thread currStart : Nat}

theorem threadChunks_mem {call : Nat × Nat}
    (h : call ∈ threadChunks ptrSize quot rem left thread currStart) :
    ∃ start len, call = (ptrSize * start, ptrSize * len) ∧
      start + len ≤ chunkEnd quot rem left thread currStart := by
  induction left generalizing thread currStart with
  | zero => simp [threadChunks] at h
  | succ left ih =>
    rw [threadChunks_succ] at h
    rcases List.mem_cons.mp h with rfl | h
    · refine ⟨currStart, _, rfl, ?_⟩
      rw [chunkEnd, chunkEnd_eq]
      omega
    · exact ih h

theorem threadChunks_covers {i : Nat} (hlo : currStart ≤ i)
    (hhi : i < chunkEnd quot rem left thread currStart) :
    ∃ start len, (ptrSize * start, ptrSize * len) ∈
      threadChunks ptrSize quot rem left thread currStart ∧ start ≤ i ∧ i < start + len := by
  induction left generalizing thread currStart with
  | zero =>
    rw [chunkEnd] at hhi
    omega
  | succ left ih =>
    rw [threadChunks_succ]
    rw [chunkEnd] at hhi
    by_cases hin : i < currStart + quot + if thread < rem then 1 else 0
    · exact ⟨currStart, _, List.mem_cons_self, hlo, by omega⟩
    · obtain ⟨start, len, hmem, hpos⟩ := ih (by omega) hhi
      exact ⟨start, len, List.mem_cons_of_mem _ hmem, hpos⟩

end ThreadChunks

/-- The copiers of the library; `nthreads` is a template argument of `MTCopier`, and `_copy`
divides by it. -/
inductive Copier
  | single (base : BaseCopier)
  | multi (base : BaseCopier) (nthreads : Nat) (pos : 0 < nthreads)

namespace Copier

def base : Copier → BaseCopier
  | single b => b
  | multi b _ _ => b

def calls (c : Copier) (n : Nat) : List (Nat × Nat) :=
  match c with
  | single _ => [(0, n)]
  | multi b nthreads _ =>
    let items := shmalign n b.ptrSize / b.ptrSize
    threadChunks b.ptrSize (items / nthreads) (items % nthreads) nthreads 0 0

def userToShm (c : Copier) (order : List (Nat × Nat)) (m : Bytes.Mem) (d : Nat) (s : Bytes.Mem)
    (n : Nat) : Bytes.Mem :=
  match c with
  | single b => b.userToShm m d s n
  | multi b _ _ => order.foldl (fun m call =>
      b.userToShm m (d + call.1) (fun x => s (call.1 + x)) call.2) m

def shmToUser (c : Copier) (order : List (Nat × Nat)) (m : Bytes.Mem) (d : Nat) (s : Bytes.Mem)
    (n : Nat) : Bytes.Mem :=
  match c with
  | single b => b.shmToUser m d s n
  | multi b _ _ => order.foldl (fun m call =>
      b.shmToUser m (d + call.1) (fun x => s (call.1 + x)) call.2) m

def Fits (c : Copier) (p w n : Nat) : Prop :=
  ∀ call ∈ c.calls n, c.base.alignment ∣ p + call.1 ∧
    (c.base.span call.2 = 0 ∨ call.1 + c.base.span call.2 ≤ 4 * w)

instance (c : Copier) (p w n : Nat) : Decidable (c.Fits p w n) :=
  inferInstanceAs (Decidable (∀ call ∈ c.calls n, _))

theorem fits_single {b : BaseCopier} {p w n : Nat} : (single b).Fits p w n ↔
    b.alignment ∣ p ∧ (b.span n = 0 ∨ b.span n ≤ 4 * w) := by
  simp [Fits, calls, base]

variable {c : Copier} {n : Nat}

theorem calls_multi (b : BaseCopier) {nthreads : Nat} (pos : 0 < nthreads) (hn : n ≤ 2 ^ 63) :
    ∃ items, roundUp b.ptrSize n = b.ptrSize * items ∧ (multi b nthreads pos).calls n =
      threadChunks b.ptrSize (items / nthreads) (items % nthreads) nthreads 0 0 := by
  have hsize : shmalign n b.ptrSize = roundUp b.ptrSize n := by
    cases b with
    | default | repMovsb => exact BaseCopier.shmalign_roundUp (k := 0) (by decide) (by omega)
    | _ => exact BaseCopier.shmalign_roundUp (k := 5) (by decide) (by omega)
  have hpos : 0 < b.ptrSize := by cases b <;> decide
  obtain ⟨items, hitems⟩ := dvd_roundUp b.ptrSize n
  refine ⟨items, hitems, ?_⟩
  simp only [calls, hsize, hitems, Nat.mul_div_cancel_left _ hpos]

theorem calls_le (hn : n ≤ 2 ^ 62) {call : Nat × Nat} (h : call ∈ c.calls n) :
    call.2 ≤ 2 ^ 63 := by
  cases c with
  | single b =>
    obtain rfl := List.mem_singleton.mp h
    simp only
    omega
  | multi b nthreads pos =>
    obtain ⟨items, hitems, hcalls⟩ := calls_multi b (n := n) pos (by omega)
    rw [hcalls] at h
    obtain ⟨start, len, rfl, hend⟩ := threadChunks_mem h
    rw [chunkEnd_div_mod _ pos] at hend
    have hpos : 0 < b.ptrSize := by cases b <;> decide
    have hsmall : b.ptrSize ≤ 32 := by cases b <;> decide
    have hlt := roundUp_lt (n := n) hpos
    have hlen : b.ptrSize * len ≤ b.ptrSize * items := Nat.mul_le_mul_left _ (by omega)
    simp only
    omega

def Stores (b : BaseCopier) (d x : Nat) (call : Nat × Nat) : Prop :=
  d + call.1 ≤ x ∧ x < d + call.1 + b.span call.2

instance (b : BaseCopier) (d x : Nat) : DecidablePred (Stores b d x) := fun _ =>
  inferInstanceAs (Decidable (_ ∧ _))

theorem foldl_apply (b : BaseCopier) (m s : Bytes.Mem) (d : Nat) {order : List (Nat × Nat)}
    (hlen : ∀ call ∈ order, call.2 ≤ 2 ^ 63) (x : Nat) :
    order.foldl (fun m call => b.userToShm m (d + call.1) (fun y => s (call.1 + y)) call.2) m x =
      if ∃ call ∈ order, Stores b d x call then s (x - d) else m x := by
  induction order generalizing m with
  | nil => simp
  | cons call order ih =>
    have hcall : b.userToShm m (d + call.1) (fun y => s (call.1 + y)) call.2 x =
        if Stores b d x call then s (x - d) else m x := by
      rw [b.userToShm_eq _ _ _ (hlen call List.mem_cons_self), copyAt_apply, Nat.add_zero]
      refine if_ctx_congr Iff.rfl (fun hhere => ?_) fun _ => rfl
      have hoffset : call.1 + (x - (d + call.1)) = x - d := by
        have := hhere.1
        omega
      rw [hoffset]
    rw [List.foldl_cons, ih _ fun c hc => hlen c (List.mem_cons_of_mem _ hc), hcall]
    simp only [List.exists_mem_cons_iff]
    by_cases hlater : ∃ call ∈ order, Stores b d x call
    · rw [if_pos hlater, if_pos (.inr hlater)]
    · by_cases hhere : Stores b d x call
      · rw [if_neg hlater, if_pos hhere, if_pos (.inl hhere)]
      · rw [if_neg hlater, if_neg hhere, if_neg (not_or_intro hhere hlater)]

theorem userToShm_apply (hn : n ≤ 2 ^ 62) {order : List (Nat × Nat)}
    (horder : order.Perm (c.calls n)) (m s : Bytes.Mem) (d x : Nat) :
    c.userToShm order m d s n x =
      if ∃ call ∈ c.calls n, Stores c.base d x call then s (x - d) else m x := by
  cases c with
  | single b =>
    have hlen : ∀ call ∈ [(0, n)], call.2 ≤ 2 ^ 63 := by
      simp only [List.mem_singleton, forall_eq]
      omega
    have hcall := foldl_apply b m s d hlen x
    simpa [userToShm, calls, base] using hcall
  | multi b nthreads pos =>
    have hlen : ∀ call ∈ order, call.2 ≤ 2 ^ 63 := fun call hcall =>
      calls_le hn (horder.mem_iff.mp hcall)
    rw [userToShm, foldl_apply b m s d hlen]
    exact if_congr (by simp only [horder.mem_iff, base]) rfl rfl

theorem fits_multi {b : BaseCopier} {nthreads : Nat} (pos : 0 < nthreads) {p w : Nat}
    (hptr : b.alignment = b.ptrSize) (hn : n ≤ 2 ^ 63) :
    (multi b nthreads pos).Fits p w n ↔ (single b).Fits p w n := by
  have hspan (k : Nat) : b.span k = roundUp b.ptrSize k := by
    cases b with
    | default | repMovsb | avx | avxAsync => rfl
    | _ => cases hptr
  have hpos : 0 < b.ptrSize := by cases b <;> decide
  obtain ⟨items, hitems, hcalls⟩ := calls_multi b (n := n) pos hn
  have hround (len : Nat) : roundUp b.ptrSize (b.ptrSize * len) = b.ptrSize * len :=
    (roundUp_eq_iff hpos).mpr (Nat.dvd_mul_right ..)
  have hend := chunkEnd_div_mod items pos
  rw [fits_single, hspan, hitems, hptr]
  unfold Fits
  rw [hcalls]
  simp only [base, hptr, hspan]
  constructor
  · intro hall
    obtain ⟨left, rfl⟩ := Nat.exists_eq_add_one_of_ne_zero (Nat.ne_of_gt pos)
    refine ⟨?_, ?_⟩
    · have hfirst := hall _ (by rw [threadChunks_succ]; exact List.mem_cons_self)
      simpa using hfirst.1
    · by_cases hnone : items = 0
      · exact .inl (by rw [hnone, Nat.mul_zero])
      · have hlast : items - 1 < chunkEnd (items / (left + 1)) (items % (left + 1)) (left + 1) 0 0 := by
          omega
        obtain ⟨start, len, hmem, hlo, hhi⟩ := threadChunks_covers (Nat.zero_le _) hlast
        have hroom := (hall _ hmem).2
        have hle : b.ptrSize * items ≤ b.ptrSize * (start + len) := Nat.mul_le_mul_left _ (by omega)
        have hlen : 0 < b.ptrSize * len := Nat.mul_pos hpos (by omega)
        simp only [hround] at hroom
        rw [Nat.mul_add] at hle
        omega
  · rintro ⟨hdvd, hroom⟩ call hmem
    obtain ⟨start, len, rfl, hle⟩ := threadChunks_mem hmem
    rw [hend] at hle
    have hmul : b.ptrSize * (start + len) ≤ b.ptrSize * items := Nat.mul_le_mul_left _ hle
    rw [Nat.mul_add] at hmul
    refine ⟨Nat.dvd_add hdvd (Nat.dvd_mul_right ..), ?_⟩
    simp only [hround]
    omega

end Copier

end Shadesmar.Memory
