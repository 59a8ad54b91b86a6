import Shadesmar.Memory.Copier
import Shadesmar.PubSub.Topic
import Shadesmar.Rpc.Channel

namespace Shadesmar.Memory

open Library Library.Rounding

namespace Allocator

/-- The check against the free memory, and `alloc`, which narrows the size to `uint32_t`. -/
def reserve (a : Allocator) (size : Nat) : Checked (Option Nat × Allocator) :=
  if size > a.getFreeMemory then .ok (none, a) else a.alloc (u32 size)

/-- `copier_->user_to_shm(ptr, source, size)` -/
def copyIn (a : Allocator) (c : Copier) (order : List (Nat × Nat)) (ptr : Nat) (source : Bytes.Mem)
    (size : Nat) : Allocator :=
  { a with heap := c.userToShm order a.heap (ptr - a.heapBase) source size }

theorem copyIn_default (a : Allocator) (order : List (Nat × Nat)) (ptr : Nat) (source : Bytes.Mem)
    (size : Nat) : a.copyIn (.single .default) order ptr source size =
      a.store ptr (Bytes.read source 0 size) := rfl

def messageWords (size : Nat) : Nat := (requestBytes (u32 size) 1 + 3) / 4

theorem messageWords_eq {size : Nat} (h : size + 1 < 2 ^ 32) : messageWords size = size / 4 + 1 := by
  unfold messageWords requestBytes
  rw [u32_eq (by omega), Nat.mod_eq_of_lt h, if_neg (by omega)]
  omega

variable {a : Allocator} {bs : List Block}

theorem Ring.reserve_cases (h : a.Ring bs) (size : Nat) :
    a.reserve size = .ok (none, a) ∨
    size ≤ 2 ^ 32 ∧
      a.reserve size = .ok (some (a.ptr (a.candidate (messageWords size))),
        a.push (a.candidate (messageWords size))) ∧
      (a.push (a.candidate (messageWords size))).Ring (bs ++ [a.candidate (messageWords size)]) := by
  unfold reserve
  split_ifs with hfree
  · exact .inl rfl
  · have hle := h.getFreeMemory_le
    have hsize := h.sized.size_le
    have hnarrow : u32 size < 2 ^ 32 := by
      unfold u32
      omega
    unfold Allocator.alloc
    rcases h.bounded.allocAligned_eq (u32 size) 1 with hnone | ⟨w, hw, hacc, hpos, htwo, hok⟩
    · exact .inl hnone
    · have hwords : messageWords size = w := by
        rw [payloadWords_eq h.sized (by omega)] at hw
        split_ifs at hw
        exact Option.some.inj hw
      have hring := h.push hacc hpos htwo
      have hlt : a.ptr (a.candidate w) < a.heapBase + a.size :=
        hring.ptr_lt (b := a.candidate w) (by simp)
      have hspace := h.sized.inSpace
      rw [alignAddress_one (Nat.lt_of_lt_of_le hlt hspace)] at hok
      rw [hwords]
      exact .inr ⟨by omega, hok, hring⟩

def InPayload (b : Block) (x : Nat) : Prop := b.handle ≤ x ∧ x < b.handle + 4 * b.size

/-- What the copier does with the block just reserved: each call of the copy routine gets an
address with the alignment it asks for, and no byte outside of the payload changes. -/
structure StaysInside (a : Allocator) (header : Nat) (c : Copier) (p size : Nat) : Prop where
  aligned : ∀ call ∈ c.calls size, c.base.alignment ∣ p + call.1
  inside : ∀ order source, order.Perm (c.calls size) → ∀ x, ¬ InPayload (a.blockAt header) x →
    (a.copyIn c order p source size).heap x = a.heap x

theorem staysInside_iff {c : Copier} {header size p : Nat} (hsize : size ≤ 2 ^ 32)
    (hp : p = a.ptr (a.blockAt header)) :
    a.StaysInside header c p size ↔ c.Fits p (a.blockAt header).size size := by
  generalize hb : a.blockAt header = b at *
  have hoffset : p - a.heapBase = b.handle := by
    rw [hp, ptr, Block.handle, Nat.add_sub_cancel_left]
  have hheap (order : List (Nat × Nat)) (source : Bytes.Mem) (horder : order.Perm (c.calls size))
      (x : Nat) : (a.copyIn c order p source size).heap x =
        if ∃ call ∈ c.calls size, Copier.Stores c.base b.handle x call then source (x - b.handle)
        else a.heap x := by
    rw [← hoffset]
    exact Copier.userToShm_apply (by omega) horder a.heap source (p - a.heapBase) x
  constructor
  · intro h call hcall
    refine ⟨h.aligned call hcall, ?_⟩
    by_contra hout
    -- a source that differs from the memory at every byte
    let source : Bytes.Mem := fun y => if a.heap (b.handle + y) = 0 then 1 else 0
    generalize hx : b.handle + call.1 + (c.base.span call.2 - 1) = x
    have hstores : Copier.Stores c.base b.handle x call := by
      unfold Copier.Stores
      omega
    have houtside : ¬ InPayload (a.blockAt header) x := by
      rw [hb]
      unfold InPayload
      omega
    have hsame := h.inside (c.calls size) source (List.Perm.refl _) x houtside
    rw [hheap _ _ (List.Perm.refl _), if_pos ⟨call, hcall, hstores⟩] at hsame
    have hback : b.handle + (x - b.handle) = x := by omega
    simp only [source, hback] at hsame
    split_ifs at hsame with hzero
    · rw [hzero] at hsame
      cases hsame
    · exact hzero hsame.symm
  · intro h
    refine ⟨fun call hcall => (h call hcall).1, ?_⟩
    intro order source horder x hx
    rw [hheap order source horder, if_neg]
    rintro ⟨call, hcall, hlo, hhi⟩
    have hroom := (h call hcall).2
    rw [hb] at hx
    apply hx
    unfold InPayload
    omega

theorem store_of_inside {b : Block} {m : Bytes.Mem} (h : ∀ x, ¬ InPayload b x → m x = a.heap x) :
    { a with heap := m } = a.store (a.ptr b) (Bytes.read m b.handle (4 * b.size)) := by
  have hoffset : a.ptr b - a.heapBase = b.handle := by
    rw [ptr, Block.handle, Nat.add_sub_cancel_left]
  have hheap : m = Bytes.write a.heap b.handle (Bytes.read m b.handle (4 * b.size)) := by
    funext x
    by_cases hx : InPayload b x
    · obtain ⟨i, rfl⟩ := Nat.exists_eq_add_of_le hx.1
      have hi : i < 4 * b.size := by
        have := hx.2
        omega
      rw [Bytes.write_inside (by simpa using hi)]
      simp [Bytes.read]
    · rw [h x hx, Bytes.write_outside]
      unfold InPayload at hx
      rw [Bytes.length_read]
      omega
  rw [store, hoffset, ← hheap]

end Allocator

inductive Copying.Label
  | message (c : Copier) (order : List (Nat × Nat)) (source : Bytes.Mem) (size : Nat)
  | call (c : History.Call)

namespace Copying

open Allocator

def step (s : History) : Label → Option History
  | .message c order source size =>
    if order.Perm (c.calls size) then
      match s.allocator.reserve size with
      | .ok (none, a) => some ⟨a, s.grants⟩
      | .ok (some p, a) =>
        let grant := ⟨u32 size, 1, p, a.blockAt s.allocator.allocIndex⟩
        some ⟨a.copyIn c order p source size, s.grants ++ [grant]⟩
      | .error _ => none
    else none
  | .call c => s.step c

def Fits (s : History) : Label → Prop
  | .message c _ _ size => s.allocator.reserve size = .ok (none, s.allocator) ∨
      c.Fits (s.allocator.ptr (s.allocator.candidate (messageWords size))) (messageWords size) size
  | .call _ => True

variable {s s' : History} {l : Label} {size : Nat}

theorem staysInside_reserve (h : s.Sound) {p : Nat} {a : Allocator} (c : Copier)
    (hok : s.allocator.reserve size = .ok (some p, a)) :
    a.StaysInside s.allocator.allocIndex c p size ↔
      c.Fits (s.allocator.ptr (s.allocator.candidate (messageWords size))) (messageWords size)
        size := by
  rcases h.ring.reserve_cases size with hnone | ⟨hle, hsome, hring⟩
  · rw [hnone] at hok
    cases hok
  · rw [hsome] at hok
    obtain ⟨hp, rfl⟩ := Prod.mk.inj (Except.ok.inj hok)
    obtain rfl := Option.some.inj hp
    have hblock : (s.allocator.push (s.allocator.candidate (messageWords size))).blockAt
        s.allocator.allocIndex = s.allocator.candidate (messageWords size) := blockAt_push hring
    rw [staysInside_iff hle (by rw [hblock, ptr_push]), hblock]
    rfl

theorem sound_message (h : s.Sound) {c : Copier} {order : List (Nat × Nat)} {source : Bytes.Mem}
    (hfits : Fits s (.message c order source size))
    (hs : step s (.message c order source size) = some s') : s'.Sound := by
  simp only [step] at hs
  split_ifs at hs with horder
  rcases h.ring.reserve_cases size with hnone | ⟨-, hsome, hring⟩
  · rw [hnone] at hs
    obtain rfl := Option.some.inj hs
    exact h
  · rw [hsome] at hs
    obtain rfl := Option.some.inj hs
    have hinside := (staysInside_reserve h c hsome).mpr (hfits.resolve_left (by rw [hsome]; nofun))
    generalize hb : s.allocator.candidate (messageWords size) = b at *
    have hblock : (s.allocator.push b).blockAt s.allocator.allocIndex = b := by
      rw [← hb] at hring ⊢
      exact blockAt_push hring
    have hframe := hinside.inside order source horder
    rw [hblock] at hframe
    have hcopy : (s.allocator.push b).copyIn c order (s.allocator.ptr b) source size =
        (s.allocator.push b).store ((s.allocator.push b).ptr b) (Bytes.read _ b.handle (4 * b.size)) :=
      store_of_inside hframe
    have halloc : s.allocator.alloc (u32 size) = .ok (some (s.allocator.ptr b), s.allocator.push b) := by
      unfold reserve at hsome
      split_ifs at hsome
      · cases hsome
      · exact hsome
    have hnarrow : u32 size < 2 ^ 32 := by
      unfold u32
      omega
    have hgranted : History.Sound ⟨s.allocator.push b, s.grants ++ [⟨u32 size, 1, s.allocator.ptr b, b⟩]⟩ := by
      apply h.call (c := .alloc (u32 size) 1) (r := .address (some (s.allocator.ptr b)))
      have hal : IsAlignment 1 := ⟨0, by decide, rfl⟩
      unfold Allocator.alloc at halloc
      simp only [History.call, halloc, hnarrow, hal, and_self, if_true, hblock]
    rw [hblock, hcopy]
    exact ⟨hgranted.ring.store (by simp) (by simp), hgranted.address, hgranted.request, hgranted.room⟩

theorem sound_step (h : s.Sound) (hfits : Fits s l) (hs : step s l = some s') : s'.Sound := by
  cases l with
  | message c order source size => exact sound_message h hfits hs
  | call c => exact h.step hs

theorem fits_single_iff {b : BaseCopier} {p : Nat} (h : size + 1 < 2 ^ 32) :
    (Copier.single b).Fits p (messageWords size) size ↔
      b.alignment ∣ p ∧ (size % b.alignment = 0 ∨ b.alignment ≤ size % b.alignment + 4) ∧
        (b.prefetches = true → 0 < size) := by
  rw [Copier.fits_single, messageWords_eq h]
  apply and_congr_right
  intro _
  cases b with
  | default | repMovsb =>
    simp only [BaseCopier.span, BaseCopier.prefetches, BaseCopier.alignment, roundUp_one,
      Bool.false_eq_true, if_false, false_imp_iff, and_true]
    omega
  | avx | avxAsync | avxUnroll | avxAsyncUnroll =>
    simp only [BaseCopier.span, BaseCopier.prefetches, BaseCopier.alignment, roundUp,
      Bool.false_eq_true, if_false, false_imp_iff, and_true]
    omega
  | avxAsyncPF | avxAsyncPFUnroll =>
    simp only [BaseCopier.span, BaseCopier.prefetches, BaseCopier.alignment, roundUp, if_true,
      true_imp_iff]
    omega

theorem fits_bytewise {b : BaseCopier} {p : Nat} (hb : b = .default ∨ b = .repMovsb)
    (h : size + 1 < 2 ^ 32) : (Copier.single b).Fits p (messageWords size) size := by
  rw [fits_single_iff h]
  rcases hb with rfl | rfl
  · exact ⟨Nat.one_dvd p, .inl (Nat.mod_one size), nofun⟩
  · exact ⟨Nat.one_dvd p, .inl (Nat.mod_one size), nofun⟩

/-- In every run whose messages all fit, the next message stays inside the block reserved for
it exactly when it fits as well. -/
theorem copies_stay_inside {heapBase size : Nat} (hdvd : 4 ∣ size) (hle : 8 ≤ size)
    (hlim : size ≤ 2 ^ 32) (hspace : heapBase + size ≤ 2 ^ 64) {ls : List Label}
    (hs : Machine.Run step Fits (.new heapBase size) ls s) {n p : Nat} {a : Allocator} (c : Copier)
    (h : s.allocator.reserve n = .ok (some p, a)) :
    a.StaysInside s.allocator.allocIndex c p n ↔
      c.Fits (s.allocator.ptr (s.allocator.candidate (messageWords n))) (messageWords n) n := by
  have hnew : (Allocator.new heapBase size).Sized := ⟨hdvd, hle, hlim, hspace⟩
  have hsound : s.Sound := hs.invariant History.Sound (History.sound_new hnew)
    fun _ _ _ ht hfits hstep => sound_step ht hfits hstep
  exact staysInside_reserve hsound c h

theorem copies_stay_inside_avx : ∃ s p a,
    Machine.Run step Fits (.new 4092 256)
        [.message (.single .avx) [(0, 30)] (fun _ => 7) 30, .call (.free (some 4096))] s ∧
      s.allocator.reserve 60 = .ok (some p, a) ∧
      (a.StaysInside s.allocator.allocIndex (.multi .avx 2 (by decide)) p 60 ↔
        (Copier.multi .avx 2 (by decide)).Fits (s.allocator.ptr (s.allocator.candidate
          (messageWords 60))) (messageWords 60) 60) := by
  let check (s : History) (l : Label) : Bool :=
    match l with
    | .message c _ _ size => decide (c.Fits (s.allocator.ptr (s.allocator.candidate
        (messageWords size))) (messageWords size) size)
    | .call _ => true
  have hcheck : ∀ s l, check s l = true → Fits s l := by
    intro s l hl
    cases l with
    | message c order source size => exact .inr (of_decide_eq_true hl)
    | call c => trivial
  have hrun : (Machine.runIf step check (.new 4092 256)
      [.message (.single .avx) [(0, 30)] (fun _ => 7) 30, .call (.free (some 4096))]).bind (fun s =>
        (s.allocator.reserve 60).toOption.map Prod.fst) = some (some 4132) := by
    decide +kernel
  obtain ⟨s, hs, hreserve⟩ := Option.bind_eq_some_iff.mp hrun
  obtain ⟨⟨p, a⟩, hresult, rfl⟩ := Option.map_eq_some_iff.mp hreserve
  have hresult := Checked.toOption_eq_some.mp hresult
  have hall := Machine.Run.of_runIf hcheck hs
  exact ⟨s, 4132, a, hall, hresult, copies_stay_inside (by decide) (by decide) (by decide)
    (by decide) hall _ hresult⟩

/-- The block of a message of 5 bytes is at an aligned address before a live block.  The copy
of 32 bytes runs over the header of that block. -/
theorem copy_overruns : ∃ s p a,
    Machine.Run step Fits (.new 4096 100)
        [.message (.single .default) [(0, 5)] (fun _ => 1) 5,
          .message (.single .default) [(0, 72)] (fun _ => 2) 72, .call (.free (some 4100))] s ∧
      s.grants.map Grant.block = [⟨3, 4, 19⟩] ∧ s.allocator.reserve 5 = .ok (some p, a) ∧ 32 ∣ p ∧
      Bytes.readWord (a.copyIn (.single .avx) [(0, 5)] p (fun _ => 255) 5).heap 3 ≠ 19 ∧
      ¬ a.StaysInside s.allocator.allocIndex (.single .avx) p 5 := by
  have hrun : (Machine.run step (.new 4096 100)
      [.message (.single .default) [(0, 5)] (fun _ => 1) 5,
        .message (.single .default) [(0, 72)] (fun _ => 2) 72, .call (.free (some 4100))]).map (fun s =>
        (s.grants.map Grant.block, (s.allocator.reserve 5).toOption.map fun r =>
          (r.1, r.2.blockAt s.allocator.allocIndex, Bytes.readWord r.2.heap 3,
            Bytes.readWord (r.2.copyIn (.single .avx) [(0, 5)] 4096 (fun _ => 255) 5).heap 3))) =
      some ([⟨3, 4, 19⟩], some (some 4096, ⟨23, 0, 2⟩, 19, 4294967295)) := by decide +kernel
  obtain ⟨s, hs, hvals⟩ := Option.map_eq_some_iff.mp hrun
  have hall := Machine.Run.of_labels hs fun l hl t => show Fits t l by
    simp only [List.mem_cons, List.not_mem_nil, or_false] at hl
    rcases hl with rfl | rfl | rfl
    · exact .inr (fits_bytewise (.inl rfl) (by decide))
    · exact .inr (fits_bytewise (.inl rfl) (by decide))
    · trivial
  obtain ⟨hgrants, hreserve⟩ := Prod.mk.inj hvals
  obtain ⟨⟨p, a⟩, hresult, hstate⟩ := Option.map_eq_some_iff.mp hreserve
  have hresult := Checked.toOption_eq_some.mp hresult
  simp only [Prod.mk.injEq] at hstate
  obtain ⟨rfl, hblock, hold, hnew⟩ := hstate
  refine ⟨s, 4096, a, hall, hgrants, hresult, by decide, ?_, ?_⟩
  · rw [hnew]
    decide
  · intro hstays
    have hsame : Bytes.readWord (a.copyIn (.single .avx) [(0, 5)] 4096 (fun _ => 255) 5).heap 3 =
        Bytes.readWord a.heap 3 := by
      apply Bytes.readWord_congr
      intro x hlo hhi
      apply hstays.inside _ _ (List.Perm.refl _)
      rw [hblock]
      simp only [InPayload, Block.handle]
      omega
    rw [hold, hnew] at hsame
    cases hsame

end Copying

end Shadesmar.Memory

namespace Shadesmar

open Library Shadesmar.Memory

variable {memblock : Memblock} {source : Bytes.Mem} {order : List (Nat × Nat)} {p : Nat} {a : Allocator}

theorem PubSub.Topic.write_reserved {t : PubSub.Topic} {fuel : Nat}
    (h : t.allocator.reserve memblock.size = .ok (some p, a))
    (hsource : memblock.bytes = Bytes.read source 0 memblock.size) :
    t.write fuel memblock =
      (let t' : PubSub.Topic := { t with
        allocator := a.copyIn (.single .default) order p source memblock.size }
      let q := qPos t.counter
      do
        match ← (((t'.setHandle q p).setSize q memblock.size).setEmpty q).freeLoop fuel
          (t'.oldAddress q) with
        | none => return none
        | some t => return some (true, t.incCounter)) := by
  unfold Allocator.reserve at h
  unfold write
  split_ifs at h ⊢
  · cases h
  · simp only [alloc, h, Allocator.copyIn_default, ← hsource]
    rfl

theorem Rpc.Channel.writeClient_reserved {c c' : Rpc.Channel}
    (h : c.allocator.req.reserve memblock.size = .ok (some p, a))
    (haccept : c.accept (qPos c.counter) = some c')
    (hsource : memblock.bytes = Bytes.read source 0 memblock.size) :
    c.writeClient memblock = .ok (some c.counter,
      ((c'.setReqAllocator (a.copyIn (.single .default) order p source memblock.size)).setReqHandle
        (qPos c.counter) (a.ptrToHandle p)).setReqSize (qPos c.counter) memblock.size) := by
  unfold Allocator.reserve at h
  unfold writeClient
  have hsame : c'.allocator = c.allocator := by
    unfold accept at haccept
    split_ifs at haccept
    obtain rfl := Option.some.inj haccept
    rfl
  split_ifs at h ⊢
  · cases h
  · simp only [haccept, allocReq, hsame, h, Allocator.copyIn_default, ← hsource]
    rfl

theorem Rpc.Channel.writeServer_reserved {c : Rpc.Channel} {pos : Nat}
    (h : c.allocator.resp.reserve memblock.size = .ok (some p, a))
    (hsource : memblock.bytes = Bytes.read source 0 memblock.size) :
    c.writeServer memblock pos = .ok (true,
      (c.setRespAllocator (a.copyIn (.single .default) order p source memblock.size)).respond
        (qPos pos) p memblock.size) := by
  unfold Allocator.reserve at h
  unfold writeServer
  split_ifs at h ⊢
  · cases h
  · simp only [allocResp, h, Allocator.copyIn_default, ← hsource]
    rfl

end Shadesmar
