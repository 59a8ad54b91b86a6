import Shadesmar.Memory.Copier

namespace Shadesmar.Memory

open Library Library.Rounding

def Within (len : Nat) (copy : Bytes.Mem → Nat → Bytes.Mem → Bytes.Mem) : Prop :=
  ∀ m d s, (∀ x, x < d ∨ d + len ≤ x → copy m d s x = m x) ∧
    ∀ s', (∀ i < len, s' i = s i) → copy m d s' = copy m d s

theorem within_copyAt (len o k : Nat) :
    Within len (fun m d s => copyAt m d s o k) ↔ k = 0 ∨ o + k ≤ len := by
  constructor
  · intro h
    by_contra hlong
    -- the last byte copied lies outside of the run
    have hout : copyAt (fun _ => 0) 0 (fun _ => 1) o k (o + k - 1) = 0 :=
      (h (fun _ => 0) 0 (fun _ => 1)).1 (o + k - 1) (.inr (by omega))
    rw [copyAt_apply, if_pos (by omega)] at hout
    exact absurd hout (by decide)
  · rintro (rfl | hle) m d s
    · simp
    · refine ⟨fun x hx => ?_, fun s' hs => ?_⟩
      · change copyAt m d s o k x = m x
        rw [copyAt_apply, if_neg (by omega)]
      · funext x
        simp only [copyAt_apply]
        split_ifs with hx
        · exact hs _ (by omega)
        · rfl

def loopLeft (width keep : Nat) : Nat → Nat → Nat
  | 0, nVec => nVec
  | fuel + 1, nVec => if nVec > keep then loopLeft width keep fuel (sub64 nVec width) else nVec

theorem loopLeft_stop (width keep fuel : Nat) {nVec : Nat} (h : nVec ≤ keep) :
    loopLeft width keep fuel nVec = nVec := by
  cases fuel with
  | zero => rfl
  | succ fuel => rw [loopLeft, if_neg (by omega)]

theorem loopLeft_eq {width : Nat} (hwidth : 0 < width) (e : Nat) {fuel j : Nat} (hfuel : j ≤ fuel) :
    loopLeft width (width * e) fuel (width * (j + e)) = width * e := by
  induction j generalizing fuel with
  | zero =>
    rw [Nat.zero_add]
    exact loopLeft_stop _ _ _ (Nat.le_refl _)
  | succ j ih =>
    obtain ⟨fuel, rfl⟩ := Nat.exists_eq_add_one_of_ne_zero (Nat.ne_zero_of_lt hfuel)
    have hsum : width * (j + 1 + e) = width + width * (j + e) := by ring
    have hle : width * e ≤ width * (j + e) := Nat.mul_le_mul_left _ (by omega)
    rw [loopLeft, if_pos (by omega), sub64_eq (by omega), hsum, Nat.add_sub_cancel_left,
      ih (by omega)]

theorem loopLeft_le {width e nVec : Nat} (hwidth : 0 < width) (hdvd : width ∣ nVec) :
    loopLeft width (width * e) nVec nVec ≤ width * e := by
  obtain ⟨j, rfl⟩ := hdvd
  by_cases hj : j ≤ e
  · have hle := Nat.mul_le_mul_left width hj
    rwa [loopLeft_stop _ _ _ hle]
  · obtain ⟨i, rfl⟩ := Nat.exists_eq_add_of_le (Nat.le_of_not_le hj)
    have hfuel : i ≤ width * (e + i) := by
      have := Nat.le_mul_of_pos_left (e + i) hwidth
      omega
    rw [Nat.add_comm e i] at *
    rw [loopLeft_eq hwidth e hfuel]

theorem loop_fuel {width keep fuel nVec : Nat} (more d : Nat) (s m : Bytes.Mem) (o : Nat)
    (hend : loopLeft width keep fuel nVec ≤ keep) :
    loop width keep d s (fuel + more) m o nVec = loop width keep d s fuel m o nVec := by
  induction fuel generalizing m o nVec with
  | zero => exact loop_stop _ _ _ _ _ _ _ hend
  | succ fuel ih =>
    rw [loopLeft] at hend
    rw [Nat.add_right_comm, loop, loop]
    split_ifs at hend ⊢
    · exact ih _ _ hend
    · rfl

namespace BaseCopier

def loopShape : BaseCopier → Option (Nat × Nat)
  | default | repMovsb => none
  | avx | avxAsync => some (1, 0)
  | avxAsyncPF => some (2, 2)
  | avxUnroll | avxAsyncUnroll => some (4, 0)
  | avxAsyncPFUnroll => some (4, 4)

structure Agrees (b : BaseCopier) (n : Nat) : Prop where
  ends : ∀ width keep, b.loopShape = some (width, keep) →
    loopLeft width keep (shmalign n b.alignment / 32) (shmalign n b.alignment / 32) ≤ keep
  copied : ∀ m d s i, i < n →
    b.userToShm m d s n (d + i) = s i ∧ b.shmToUser m d s n (d + i) = s i
  inside : Within (shmalign n b.alignment) (fun m d s => b.userToShm m d s n) ∧
    Within (shmalign n b.alignment) (fun m d s => b.shmToUser m d s n)

theorem shmToUser_eq (b : BaseCopier) : b.shmToUser = b.userToShm := by
  funext m d s n
  cases b <;> rfl

theorem alignment_pos (b : BaseCopier) : 0 < b.alignment := by cases b <;> decide

theorem loop_ends (b : BaseCopier) {n : Nat} (hn : n + b.alignment ≤ 2 ^ 64) {width keep : Nat}
    (hshape : b.loopShape = some (width, keep)) :
    loopLeft width keep (shmalign n b.alignment / 32) (shmalign n b.alignment / 32) ≤ keep := by
  obtain ⟨j, hj⟩ := dvd_roundUp b.alignment n
  rw [b.shmalign_alignment hn, hj]
  have hvec : ∀ k, 0 < k → k ∣ 32 * k * j / 32 := by
    intro k _
    rw [Nat.mul_assoc, Nat.mul_div_cancel_left _ (by decide)]
    exact Nat.dvd_mul_right k j
  cases b with
  | default | repMovsb => cases hshape
  | avx | avxAsync =>
    cases hshape
    exact loopLeft_le (e := 0) (by decide) (hvec 1 (by decide))
  | avxAsyncPF =>
    cases hshape
    exact loopLeft_le (e := 1) (by decide) (hvec 2 (by decide))
  | avxUnroll | avxAsyncUnroll =>
    cases hshape
    exact loopLeft_le (e := 0) (by decide) (hvec 4 (by decide))
  | avxAsyncPFUnroll =>
    cases hshape
    exact loopLeft_le (e := 1) (by decide) (hvec 4 (by decide))

theorem userToShm_loopShape (b : BaseCopier) {n : Nat} (hn : n + b.alignment ≤ 2 ^ 64)
    {width keep : Nat} (hshape : b.loopShape = some (width, keep)) (m s : Bytes.Mem) (d more : Nat) :
    b.userToShm m d s n =
      (let nVec := shmalign n b.alignment / 32
      let (m, o) := loop width keep d s (nVec + more) m 0 nVec
      vectors m d s o keep) := by
  have hroutine : b.userToShm m d s n = vecCpy width keep keep m d s (shmalign n b.alignment) := by
    cases b <;> cases hshape <;> rfl
  rw [hroutine, vecCpy]
  dsimp only
  rw [loop_fuel more d s m 0 (b.loop_ends hn hshape)]

theorem le_span (b : BaseCopier) (n : Nat) : n ≤ b.span n := by
  have hle := le_roundUp (n := n) b.alignment_pos
  unfold span
  split_ifs <;> omega

/-- The prefetching routines alone touch more than was reserved, and for no bytes only. -/
theorem span_le_iff (b : BaseCopier) (n : Nat) :
    (b.span n = 0 ∨ b.span n ≤ roundUp b.alignment n) ↔ (b.prefetches = true → 0 < n) := by
  have hpos := b.alignment_pos
  unfold span
  by_cases hprefetch : b.prefetches = true
  · rw [if_pos hprefetch]
    rcases Nat.eq_zero_or_pos n with rfl | hn
    · simp only [roundUp_zero, Nat.max_zero]
      constructor
      · intro hspan
        omega
      · exact fun hn => absurd (hn hprefetch) (Nat.lt_irrefl 0)
    · have hle := le_roundUp (n := n) hpos
      have hfull := Nat.le_of_dvd (by omega) (dvd_roundUp b.alignment n)
      simp only [hn, implies_true, iff_true]
      omega
  · rw [if_neg hprefetch]
    simp [hprefetch]

/-- Every size, 0 included, up to those whose rounding up overflows. -/
theorem agrees_iff (b : BaseCopier) {n : Nat} (hn : n + b.alignment ≤ 2 ^ 64) :
    b.Agrees n ↔ (b.prefetches = true → 0 < n) := by
  have hspan : (fun m d s => b.userToShm m d s n) = fun m d s => copyAt m d s 0 (b.span n) := by
    funext m d s
    exact b.userToShm_span m s d hn
  have hwithin : Within (shmalign n b.alignment) (fun m d s => b.userToShm m d s n) ↔
      (b.prefetches = true → 0 < n) := by
    rw [hspan, within_copyAt, b.shmalign_alignment hn, Nat.zero_add, span_le_iff]
  constructor
  · intro h
    exact hwithin.mp h.inside.1
  · intro h
    refine ⟨fun _ _ => b.loop_ends hn, fun m d s i hi => ?_, ?_⟩
    · have hlt := Nat.lt_of_lt_of_le hi (b.le_span n)
      rw [shmToUser_eq, and_self, b.userToShm_span m s d hn, copyAt_apply, if_pos (by omega),
        Nat.add_sub_cancel_left]
    · rw [shmToUser_eq, and_self]
      exact hwithin.mpr h

theorem agrees_prefetched : avxAsyncPF.Agrees 5 :=
  (agrees_iff avxAsyncPF (by decide)).mpr (by decide)

/-- Nothing is reserved for a message without bytes, and 64 bytes are stored. -/
theorem empty_copy_stores : shmalign 0 avxAsyncPF.alignment = 0 ∧
    avxAsyncPF.userToShm (fun _ => 0) 4096 (fun _ => 1) 0 4159 = 1 ∧ ¬ avxAsyncPF.Agrees 0 := by
  have hstored : avxAsyncPF.userToShm (fun _ => 0) 4096 (fun _ => 1) 0 4159 = 1 := by
    rw [avxAsyncPF.userToShm_span _ _ _ (by decide), copyAt_apply]
    decide
  have hzero : shmalign 0 avxAsyncPF.alignment = 0 := by
    rw [avxAsyncPF.shmalign_alignment (by decide)]
    decide
  refine ⟨hzero, hstored, fun h => ?_⟩
  have hout : avxAsyncPF.userToShm (fun _ => 0) 4096 (fun _ => 1) 0 4159 = 0 :=
    (h.inside.1 (fun _ => 0) 4096 (fun _ => 1)).1 4159 (.inr (by rw [hzero]; decide))
  rw [hstored] at hout
  exact absurd hout (by decide)

end BaseCopier

end Shadesmar.Memory
