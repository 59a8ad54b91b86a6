import Shadesmar.Library.Rounding
import Shadesmar.Memory.History

namespace Shadesmar.Memory

open Library Library.Rounding

namespace IsAlignment

variable {al p : Nat}

theorem pos (h : IsAlignment al) : 0 < al := by
  obtain ⟨k, -, rfl⟩ := h
  exact Nat.two_pow_pos k

theorem dvd_two_pow (h : IsAlignment al) : al ∣ 2 ^ 64 := by
  obtain ⟨k, hk, rfl⟩ := h
  exact Nat.pow_dvd_pow 2 (by omega)

theorem shmalign_eq (h : IsAlignment al) (hp : 0 < p) : shmalign p al = u64 (roundUp al p) := by
  have hsub : sub64 p 1 = p - 1 := sub64_eq hp
  have hmask : sub64 al 1 = al - 1 := sub64_eq h.pos
  obtain ⟨k, -, rfl⟩ := h
  rw [shmalign, hsub, hmask, or_mask_add_one hp]

theorem shmalign_zero (h : IsAlignment al) : shmalign 0 al = 0 := by
  have hmask : sub64 al 1 = al - 1 := sub64_eq h.pos
  have hsub : sub64 0 1 = 2 ^ 64 - 1 := by decide +kernel
  have hor : (2 ^ 64 - 1) ||| (al - 1) = 2 ^ 64 - 1 := by
    obtain ⟨k, hk, rfl⟩ := h
    have hle : 2 ^ k ≤ 2 ^ 64 := Nat.pow_le_pow_right (by decide) (by omega)
    rw [Nat.or_comm, or_two_pow_sub_one (by omega)]
  rw [shmalign, hsub, hmask, hor]
  decide +kernel

theorem alignAddress_cases (h : IsAlignment al) (hp : p < 2 ^ 64) :
    alignAddress p al = roundUp al p ∨ alignAddress p al = 0 ∧ roundUp al p = 2 ^ 64 := by
  rcases Nat.eq_zero_or_pos p with rfl | hpos
  · exact .inl (by rw [alignAddress, h.shmalign_zero, roundUp_zero])
  · rw [alignAddress, h.shmalign_eq hpos]
    rcases Nat.lt_or_eq_of_le (roundUp_le h.pos h.dvd_two_pow (Nat.le_of_lt hp)) with hlt | heq
    · exact .inl (u64_eq hlt)
    · have hwrap : u64 (2 ^ 64) = 0 := by decide +kernel
      exact .inr ⟨by rw [heq, hwrap], heq⟩

theorem alignAddress_eq (h : IsAlignment al) (hp : p + al ≤ 2 ^ 64) :
    alignAddress p al = roundUp al p := by
  have hpos := h.pos
  have hlt := roundUp_lt (n := p) hpos
  rcases h.alignAddress_cases (p := p) (by omega) with heq | ⟨-, heq⟩
  · exact heq
  · omega

theorem alignAddress_eq_self (h : IsAlignment al) (hp : p < 2 ^ 64) :
    alignAddress p al = p ↔ al ∣ p := by
  rw [← roundUp_eq_iff h.pos]
  rcases h.alignAddress_cases hp with heq | ⟨hzero, heq⟩
  · rw [heq]
  · have hne : roundUp al 0 ≠ roundUp al p := by
      rw [heq, roundUp_zero]
      decide
    have hp0 : p ≠ 0 := fun hp0 => hne (by rw [hp0])
    omega

end IsAlignment

section Macro

/-- `SHMALIGN(s, a)` on two values of the type `uint64_t`. -/
def shmalign64 (s a : UInt64) : UInt64 := ((s - 1) ||| (a - 1)) + 1

theorem toNat_sub_one (n : UInt64) : (n - 1).toNat = sub64 n.toNat 1 := by
  have hlt := n.toNat_lt
  rw [UInt64.toNat_sub, UInt64.toNat_one]
  unfold sub64
  split_ifs <;> omega

theorem toNat_shmalign64 (s a : UInt64) : (shmalign64 s a).toNat = shmalign s.toNat a.toNat := by
  unfold shmalign64 shmalign u64
  rw [UInt64.toNat_add, UInt64.toNat_or, toNat_sub_one, toNat_sub_one, UInt64.toNat_one]

/-- The macro finds the least multiple of `a` that is not below `s`. -/
theorem shmalign64_least (s a : UInt64) (ha : IsAlignment a.toNat)
    (hs : s.toNat + a.toNat ≤ 2 ^ 64) :
    a.toNat ∣ (shmalign64 s a).toNat ∧ s.toNat ≤ (shmalign64 s a).toNat ∧
      (shmalign64 s a).toNat < s.toNat + a.toNat ∧
      ∀ m, a.toNat ∣ m → s.toNat ≤ m → (shmalign64 s a).toNat ≤ m := by
  have hround : shmalign s.toNat a.toNat = roundUp a.toNat s.toNat := ha.alignAddress_eq hs
  rw [toNat_shmalign64, hround]
  exact ⟨dvd_roundUp _ _, le_roundUp ha.pos, roundUp_lt ha.pos, fun m => roundUp_le ha.pos⟩

theorem shmalign64_least_zero : 32 ∣ (shmalign64 0 32).toNat ∧ 0 ≤ (shmalign64 0 32).toNat ∧
    (shmalign64 0 32).toNat < 0 + 32 ∧ ∀ m, 32 ∣ m → 0 ≤ m → (shmalign64 0 32).toNat ≤ m :=
  shmalign64_least 0 32 ⟨5, by decide, rfl⟩ (by decide)

end Macro

namespace Allocator

variable {a a' : Allocator} {bs : List Block} {bytes al p : Nat}

/-- The interval that a caller takes to be its own lies in the payload of `b`, at an aligned
address. -/
def Covers (a : Allocator) (b : Block) (bytes al p : Nat) : Prop :=
  al ∣ p ∧ a.ptr b ≤ p ∧ p + bytes ≤ a.ptr b + 4 * b.size

/-- The sum of the request and the alignment wraps in `uint32_t`, and what is left of it is
not more than the alignment. -/
theorem requestBytes_le (hbytes : bytes < 2 ^ 32) (hal : al ≤ 4096)
    (hwrap : 2 ^ 32 ≤ bytes + al) : requestBytes bytes al ≤ 4096 := by
  unfold requestBytes
  split_ifs <;> omega

theorem le_requestBytes (hsum : bytes + al < 2 ^ 32) : bytes + al ≤ requestBytes bytes al := by
  unfold requestBytes
  rw [Nat.mod_eq_of_lt hsum]
  split_ifs <;> omega

theorem Ring.candidate_end (h : a.Ring bs) {size : Nat} (hacc : a.Accepts size) (hpos : 0 < size)
    (hle : size + 2 ≤ a.words) : a.ptr (a.candidate size) + 4 * size ≤ 2 ^ 64 := by
  have hstop := (hacc.fits h.free_lt h.alloc_lt hpos hle).1.stop_le
  have hspace := h.sized.inSpace
  have hwords := h.sized.words_mul
  simp only [candidate] at hstop
  simp only [ptr, candidate]
  omega

theorem Ring.covers_iff (h : a.Ring bs) (hbytes : bytes < 2 ^ 32) (hal : IsAlignment al)
    (hle : al ≤ 4096) (hok : a.allocAligned bytes al = .ok (some p, a')) :
    a'.Covers (a'.blockAt a.allocIndex) bytes al p ↔ bytes + al < 2 ^ 32 := by
  rcases h.bounded.allocAligned_eq bytes al with hnone | ⟨size, hsize, hacc, hpos, htwo, hsome⟩
  · rw [hnone] at hok
    cases hok
  · have hend := h.candidate_end hacc hpos htwo
    have hneed : a.payloadWords bytes al = _ := payloadWords_eq h.sized (by omega)
    rw [hsome] at hok
    obtain ⟨hp, rfl⟩ := Prod.mk.inj (Except.ok.inj hok)
    obtain rfl := Option.some.inj hp
    have hblock : (a.push (a.candidate size)).blockAt a.allocIndex = a.candidate size :=
      blockAt_push (h.push hacc hpos htwo)
    rw [hblock]
    change al ∣ _ ∧ a.ptr (a.candidate size) ≤ _ ∧ _ ≤ a.ptr (a.candidate size) + 4 * size ↔ _
    rw [hsize] at hneed
    split_ifs at hneed with hlimit
    have hwords := Option.some.inj hneed
    constructor
    · rintro ⟨-, hlo, hhi⟩
      by_contra hwrap
      have hsmall := requestBytes_le hbytes hle (by omega)
      omega
    · intro hsum
      have hrequest := le_requestBytes hsum
      have hlt := roundUp_lt (n := a.ptr (a.candidate size)) hal.pos
      have hge := le_roundUp (n := a.ptr (a.candidate size)) hal.pos
      rw [hal.alignAddress_eq (by omega)]
      exact ⟨dvd_roundUp _ _, hge, by omega⟩

end Allocator

namespace History

variable {s : History} {heapBase size : Nat} {calls : List Call}

/-- The block that `alloc` returns covers the request, wherever it lies in the ring, exactly
when request and alignment do not add up to 2^32. -/
theorem block_covers_request (hdvd : 4 ∣ size) (hle : 8 ≤ size) (hlim : size ≤ 2 ^ 32)
    (hspace : heapBase + size ≤ 2 ^ 64)
    (hs : Machine.run step (new heapBase size) calls = some s) {bytes al p : Nat} {a : Allocator}
    (hbytes : bytes < 2 ^ 32) (hal : ∃ k, k ≤ 12 ∧ al = 2 ^ k)
    (h : s.allocator.allocAligned bytes al = .ok (some p, a)) :
    a.Covers (a.blockAt s.allocator.allocIndex) bytes al p ↔ bytes + al < 2 ^ 32 := by
  have hsound : s.Sound := sound_of_run ⟨hdvd, hle, hlim, hspace⟩ hs
  obtain ⟨k, hk, rfl⟩ := hal
  have hsmall : 2 ^ k ≤ 4096 := Nat.pow_le_pow_right (by decide) hk
  exact hsound.ring.covers_iff hbytes ⟨k, by omega, rfl⟩ hsmall h

theorem block_covers_request_aligned : ∃ s p a,
    Machine.run step (new 4096 100) [.alloc 50 1] = some s ∧
      s.allocator.allocAligned 5 16 = .ok (some p, a) ∧
      (a.Covers (a.blockAt s.allocator.allocIndex) 5 16 p ↔ 5 + 16 < 2 ^ 32) := by
  have hrun : (Machine.run step (new 4096 100) [.alloc 50 1]).bind (fun s =>
      (s.allocator.allocAligned 5 16).toOption.map Prod.fst) = some (some 4160) := by
    decide +kernel
  obtain ⟨s, hs, halloc⟩ := Option.bind_eq_some_iff.mp hrun
  obtain ⟨⟨p, a⟩, hresult, rfl⟩ := Option.map_eq_some_iff.mp halloc
  have hresult := Checked.toOption_eq_some.mp hresult
  exact ⟨s, 4160, a, hs, hresult, block_covers_request (by decide) (by decide) (by decide)
    (by decide) hs (by decide) ⟨4, by decide, rfl⟩ hresult⟩

/-- A request of 2^32 - 1 bytes gets a block of one word. -/
theorem request_wraps : ∃ p a, (Allocator.new 4096 100).allocAligned (2 ^ 32 - 1) 1 =
    .ok (some p, a) ∧ ¬ a.Covers (a.blockAt 0) (2 ^ 32 - 1) 1 p := by
  have hrun : ((Allocator.new 4096 100).allocAligned (2 ^ 32 - 1) 1).toOption.map (fun r =>
      (r.1, r.2.heapBase, r.2.blockAt 0)) = some (some 4100, 4096, ⟨0, 1, 1⟩) := by
    decide +kernel
  obtain ⟨⟨p, a⟩, hresult, hvals⟩ := Option.map_eq_some_iff.mp hrun
  simp only [Prod.mk.injEq] at hvals
  obtain ⟨rfl, hbase, hblock⟩ := hvals
  refine ⟨4100, a, Checked.toOption_eq_some.mp hresult, ?_⟩
  rintro ⟨-, -, hend⟩
  rw [hblock] at hend
  simp only [Allocator.ptr, hbase] at hend
  omega

def FreesOldest (s : History) (g : Grant) (gs : List Grant) : Prop :=
  ∃ a, s.allocator.free (some g.address) = .ok (true, a) ∧ a.liveBlocks = gs.map Grant.block ∧
    a.freeIndex = g.block.next s.allocator.words

theorem Sound.freesOldest_iff (h : s.Sound) {g : Grant} {gs : List Grant}
    (hg : s.grants = g :: gs) :
    s.FreesOldest g gs ↔ g.alignment ∣ s.allocator.ptr g.block := by
  have hmem : g ∈ s.grants := by
    rw [hg]
    exact List.mem_cons_self
  have hring := h.ring
  rw [hg, List.map_cons] at hring
  have hptr := hring.ptr_lt (List.mem_cons_self (a := g.block))
  have hspace := hring.sized.inSpace
  have hself := (h.request g hmem).2.alignAddress_eq_self (p := s.allocator.ptr g.block) (by omega)
  rw [← hself, ← h.address g hmem]
  constructor
  · rintro ⟨a, hfree, -⟩
    rcases hring.free_ok hfree with ⟨heq, -⟩ | ⟨-, hdone, -⟩
    · exact heq
    · cases hdone
  · intro heq
    exact ⟨_, heq ▸ hring.free_head, hring.pop.liveBlocks, rfl⟩

/-- The oldest block can be released with the address returned for it exactly when its
payload starts at a multiple of the alignment it was asked for. -/
theorem aligned_block_freed (hdvd : 4 ∣ size) (hle : 8 ≤ size) (hlim : size ≤ 2 ^ 32)
    (hspace : heapBase + size ≤ 2 ^ 64)
    (hs : Machine.run step (new heapBase size) calls = some s) {g : Grant} {gs : List Grant}
    (hg : s.grants = g :: gs) :
    s.FreesOldest g gs ↔ g.alignment ∣ s.allocator.ptr g.block :=
  (sound_of_run ⟨hdvd, hle, hlim, hspace⟩ hs).freesOldest_iff hg

theorem aligned_block_freed_next : ∃ s g gs,
    Machine.run step (new 4092 100) [.alloc 5 16, .alloc 7 8] = some s ∧ s.grants = g :: gs ∧
      (s.FreesOldest g gs ↔ g.alignment ∣ s.allocator.ptr g.block) := by
  have hrun : (Machine.run step (new 4092 100) [.alloc 5 16, .alloc 7 8]).map
      (·.grants.isEmpty) = some false := by decide +kernel
  obtain ⟨s, hs, hgrants⟩ := Option.map_eq_some_iff.mp hrun
  obtain ⟨g, gs, hg⟩ := List.exists_cons_of_ne_nil (l := s.grants) (by simpa using hgrants)
  exact ⟨s, g, gs, hs, hg, aligned_block_freed (by decide) (by decide) (by decide) (by decide) hs hg⟩

/-- The payload starts at 4100, and the address returned is 4112. -/
theorem aligned_block_stuck : ∃ s g,
    Machine.run step (new 4096 100) [.alloc 5 16] = some s ∧ s.grants = [g] ∧
      s.allocator.free (some g.address) = .ok (false, s.allocator) ∧ ¬ s.FreesOldest g [] := by
  have hrun : (Machine.run step (new 4096 100) [.alloc 5 16]).map (fun s =>
      s.grants.map fun g => (g.address, s.allocator.ptr g.block, s.allocator.heapBase,
        s.allocator.size)) = some [(4112, 4100, 4096, 100)] := by decide +kernel
  obtain ⟨s, hs, hvals⟩ := Option.map_eq_some_iff.mp hrun
  obtain ⟨g, gs, hg, hvals, hnil⟩ := List.map_eq_cons_iff.mp hvals
  rw [List.map_eq_nil_iff] at hnil
  subst hnil
  simp only [Prod.mk.injEq] at hvals
  obtain ⟨haddress, hptr, hbase, hsize⟩ := hvals
  have hring := (sound_of_run ⟨by decide, by decide, by decide, by decide⟩ hs).ring
  rw [hg, List.map_cons] at hring
  have hfree : s.allocator.free (some g.address) = .ok (false, s.allocator) := by
    rw [hring.free_at (by omega) (by omega), if_neg (by omega)]
  refine ⟨s, g, hs, hg, hfree, ?_⟩
  rintro ⟨a, hdone, -⟩
  rw [hfree] at hdone
  cases hdone

end History

end Shadesmar.Memory
