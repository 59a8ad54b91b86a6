import Shadesmar.PubSub.Reading

namespace Shadesmar.PubSub

open Library Shadesmar.Memory Shadesmar.Concurrency

theorem Topic.write_true {t t' : Topic} {m : Memblock} (h : t.write 1 m = .ok (some (true, t'))) :
    ¬ m.size > t.allocator.getFreeMemory ∧ ∃ p t₁ t₂, t.alloc m.size = .ok (some p, t₁) ∧
      ((((t₁.userToShm p m.bytes).setHandle (qPos t.counter) p).setSize (qPos t.counter)
        m.size).setEmpty (qPos t.counter)).free ((t₁.userToShm p m.bytes).oldAddress
          (qPos t.counter)) = .ok (true, t₂) ∧ t' = t₂.incCounter := by
  unfold Topic.write at h
  by_cases hroom : m.size > t.allocator.getFreeMemory
  · rw [if_pos hroom] at h
    cases h
  · rw [if_neg hroom] at h
    refine ⟨hroom, ?_⟩
    cases halloc : t.alloc m.size with
    | error e =>
      rw [halloc] at h
      cases h
    | ok r =>
      obtain ⟨p, t₁⟩ := r
      rw [halloc] at h
      cases p with
      | none => cases h
      | some p =>
        simp only [bind, Except.bind, Topic.freeLoop] at h
        generalize hfree : Topic.free _ _ = freed at h
        cases freed with
        | error e => cases h
        | ok r =>
          obtain ⟨done, t₂⟩ := r
          cases done with
          | false => cases h
          | true =>
            simp only [if_true, pure, Except.pure, Except.ok.injEq, Option.some.injEq,
              Prod.mk.injEq, true_and] at h
            exact ⟨p, t₁, t₂, rfl, hfree, h.symm⟩

namespace Interleaving.World

variable {n m : Nat}

theorem run_write (alloc : Nat → Bool) {s : World n m} {i : Fin n} {memblock : Memblock} {t : Topic}
    (hidle : s.pubs i = .idle) (hfilled : memblock.Filled)
    (hlock : s.locks (qPos s.topic.counter) = .free)
    (hwrite : s.topic.write 1 memblock = .ok (some (true, t))) :
    Machine.run (step alloc) s (.write i memblock :: List.replicate 12 (.publisher i)) =
      some { s with topic := t, calls := s.calls ++ [memblock]
                    accepted := s.accepted ++ [s.calls.length] } := by
  obtain ⟨hroom, p, t₁, t₂, halloc, hfree, rfl⟩ := Topic.write_true hwrite
  have htry : (s.locks (qPos s.topic.counter)).tryLock = some ⟨true, 0⟩ := by
    rw [hlock]
    rfl
  have hback : Function.update s.locks (qPos s.topic.counter) (RwLock.unlock ⟨true, 0⟩) = s.locks := by
    rw [show RwLock.unlock ⟨true, 0⟩ = s.locks (qPos s.topic.counter) from hlock ▸ rfl,
      Function.update_eq_self]
  have hpubs : Function.update s.pubs i .idle = s.pubs := by rw [← hidle, Function.update_eq_self]
  simp only [List.replicate, Machine.run, step, start, stepPub, setPub, setTopic, setLock, hidle,
    if_pos hfilled, if_neg hroom, halloc, Function.update_self, Function.update_idem,
    Option.bind_some, Option.map_some, htry, hfree, hback, hpubs]

theorem run_to_lock (alloc : Nat → Bool) {s : World n m} {i : Fin n} {memblock : Memblock}
    {t : Topic} (hidle : s.pubs i = .idle) (hfilled : memblock.Filled)
    (hwrite : s.topic.write 1 memblock = .ok (some (true, t))) : ∃ (s' : World n m) (p : Nat),
      Machine.run (step alloc) s (.write i memblock :: List.replicate 4 (.publisher i)) = some s' ∧
      s'.pubs i = .lock ⟨s.calls.length, memblock⟩ (qPos s.topic.counter) p ∧ s'.subs = s.subs ∧
      s'.locks = s.locks ∧ s'.accepted = s.accepted := by
  obtain ⟨hroom, p, t₁, -, halloc, -, -⟩ := Topic.write_true hwrite
  let s' : World n m :=
    { s.setTopic (t₁.userToShm p memblock.bytes) with calls := s.calls ++ [memblock] }
  have hrun : Machine.run (step alloc) s (.write i memblock :: List.replicate 4 (.publisher i)) =
      some (s'.setPub i (.lock ⟨s.calls.length, memblock⟩ (qPos s.topic.counter) p)) := by
    simp only [List.replicate, Machine.run, step, start, stepPub, setPub, setTopic, s', hidle,
      if_pos hfilled, if_neg hroom, halloc, Function.update_self, Function.update_idem,
      Option.bind_some]
  exact ⟨_, p, hrun, Function.update_self .., rfl, rfl, rfl⟩

end Interleaving.World

structure Paced (t : Topic) (hist : List Entry) : Prop where
  settled : Settled t hist
  size : t.allocator.size = 2 ^ 20
  allocIndex : t.allocator.allocIndex = 2 * hist.length
  blocks : ∀ (k : Nat) (r : Entry), hist[k]? = some r → r.block = ⟨2 * k, 2 * k + 1, 1⟩

namespace Paced

variable {t : Topic} {hist : List Entry}

theorem words (h : Paced t hist) : t.allocator.words = 2 ^ 18 := by
  unfold Allocator.words
  rw [h.size]
  decide

theorem freeIndex_le (h : Paced t hist) : t.allocator.freeIndex ≤ t.allocator.allocIndex := by
  have hchain := h.settled.window.ring.chain
  cases hdrop : hist.drop (hist.length - queueSize) with
  | nil =>
    rw [hdrop] at hchain
    exact Nat.le_of_eq (hchain.eq_nil_iff.mpr rfl)
  | cons r rest =>
    rw [hdrop] at hchain
    have hr : hist[hist.length - queueSize]? = some r := by
      rw [← List.head?_drop, hdrop]
      rfl
    rw [← hchain.head.1, h.blocks _ r hr, h.allocIndex]
    exact Nat.mul_le_mul_left 2 (Nat.sub_le _ _)

theorem write (h : Paced t hist) (x : UInt8) (hroom : 2 * hist.length + 2 < 2 ^ 18) :
    ∃ t', t.write 1 (.ofData [x]) = .ok (some (true, t')) ∧
      Paced t' (hist ++ [⟨⟨2 * hist.length, 2 * hist.length + 1, 1⟩, [x]⟩]) := by
  have hring := h.settled.window.ring
  have hfree := h.freeIndex_le
  have hwords := h.words
  have halloc := h.allocIndex
  rcases h.settled.write (Memblock.filled_ofData [x]) 0 with
    ⟨-, hfull | hnone⟩ | ⟨b, t', hlays, hwrite, hcount, hsize, hw⟩
  · exfalso
    unfold Allocator.getFreeMemory at hfull
    dsimp only at hfull
    rw [if_pos hfree, hwords, Memblock.size_ofData, List.length_singleton] at hfull
    omega
  · exfalso
    have hpayload : t.allocator.payloadWords 1 1 = some 1 := by
      unfold Allocator.payloadWords
      rw [h.size]
      decide +kernel
    have hsame : t.allocator.alloc 1 = .ok (none, t.allocator) := by
      have hone : u32 1 = 1 := u32_eq (by decide)
      unfold Topic.alloc at hnone
      rw [Memblock.size_ofData, List.length_singleton, hone] at hnone
      cases hcall : t.allocator.alloc 1 with
      | error e =>
        rw [hcall] at hnone
        cases hnone
      | ok r =>
        rw [hcall] at hnone
        simp only [bind, Except.bind, pure, Except.pure, Except.ok.injEq, Prod.mk.injEq] at hnone
        obtain ⟨hp, ha⟩ := hnone
        rw [← congrArg Topic.allocator ha, ← hp]
    exact hring.alloc_accepts hpayload Nat.one_pos hfree (by omega) hsame
  · have hheader := hlays.header
    have hbsize : b.size = 1 := by
      have hlow := hlays.room
      have htight := hlays.tight
      simp only [Memblock.size_ofData, List.length_singleton] at hlow htight
      omega
    have hwords' : t'.allocator.words = 2 ^ 18 := by
      unfold Allocator.words
      rw [hsize, h.size]
      decide
    have hblocks : ((hist ++ [(⟨b, [x]⟩ : Entry)]).drop (hist.length + 1 - queueSize)).map Entry.block =
        (hist.drop (hist.length + 1 - queueSize)).map Entry.block ++ [b] := by
      rw [List.drop_append_of_le_length (by unfold queueSize; omega), List.map_append]
      rfl
    rw [Memblock.bytes_ofData] at hw
    have hchain := hw.ring.chain
    rw [hblocks] at hchain
    have hfits := hchain.fits (List.mem_append_right _ (List.mem_singleton.mpr rfl))
    have hpayload : b.payload = 2 * hist.length + 1 := by
      rw [hfits.placed, hwords', hheader, halloc, hbsize, place, if_neg (by omega)]
    obtain rfl : b = ⟨2 * hist.length, 2 * hist.length + 1, 1⟩ := by
      rw [← hpayload, ← hbsize, ← hheader.trans halloc]
    have hlt : hist.length + 1 < 2 ^ 32 := by omega
    refine ⟨t'.incCounter, hwrite, ⟨Settled.incCounter hcount hlt hw, hsize.trans h.size, ?_, ?_⟩⟩
    · have hlast := hchain.last
      unfold Block.next at hlast
      rw [if_neg (by simp only; omega)] at hlast
      simp only [List.length_append, List.length_singleton, Topic.allocator_incCounter, hlast]
      omega
    · intro k r hk
      rcases Nat.lt_or_ge k hist.length with hold | hnew
      · exact h.blocks k r ((List.getElem?_append_left hold).symm.trans hk)
      · have hlast := (List.getElem?_eq_some_iff.mp hk).1
        rw [List.length_append, List.length_singleton] at hlast
        obtain rfl : k = hist.length := by omega
        obtain rfl : _ = r := by simpa using hk
        rfl

end Paced

def pacedHist (xs : List UInt8) : List Entry :=
  xs.mapIdx fun k x => ⟨⟨2 * k, 2 * k + 1, 1⟩, [x]⟩

theorem paced_new : Paced (Topic.new 4096 (2 ^ 20)) (pacedHist []) where
  settled := .new ⟨by decide, by decide, by decide, by decide⟩ (by decide)
  size := rfl
  allocIndex := rfl
  blocks := fun _ _ hk => by cases hk

namespace Interleaving

def publishing (xs : List UInt8) : List (Label 1 1) :=
  xs.flatMap fun x => .write 0 (.ofData [x]) :: List.replicate 12 (.publisher 0)

structure Lapped (s : World 1 1) (xs : List UInt8) : Prop where
  paced : Paced s.topic (pacedHist xs)
  calls : s.calls = xs.map fun x => .ofData [x]
  accepted : s.accepted = List.range xs.length
  idle : s.pubs 0 = .idle

namespace Lapped

variable {s : World 1 1} {xs : List UInt8}

theorem counter (h : Lapped s xs) : s.topic.counter = xs.length := by
  rw [h.paced.settled.counter, pacedHist, List.length_mapIdx]

theorem write (alloc : Nat → Bool) (h : Lapped s xs) (x : UInt8) (hroom : 2 * xs.length + 2 < 2 ^ 18)
    (hlock : s.locks (qPos xs.length) = .free) :
    ∃ s', Machine.run (World.step alloc) s (.write 0 (.ofData [x]) ::
        List.replicate 12 (.publisher 0)) = some s' ∧
      Lapped s' (xs ++ [x]) ∧ s'.locks = s.locks ∧ s'.subs = s.subs := by
  have hlen : (pacedHist xs).length = xs.length := List.length_mapIdx
  obtain ⟨t, hwrite, hpaced⟩ := h.paced.write x (by rw [hlen]; exact hroom)
  have hrun := World.run_write alloc h.idle (Memblock.filled_ofData [x])
    (h.counter.symm ▸ hlock) hwrite
  refine ⟨_, hrun, ⟨?_, ?_, ?_, h.idle⟩, rfl, rfl⟩
  · rw [hlen] at hpaced
    rw [pacedHist, List.mapIdx_concat]
    exact hpaced
  · rw [List.map_append, ← h.calls]
    rfl
  · have hcalls : s.calls.length = xs.length := by rw [h.calls, List.length_map]
    rw [h.accepted, hcalls, List.length_append, List.length_singleton, List.range_succ]

theorem publishing (alloc : Nat → Bool) (ys : List UInt8) (h : Lapped s xs)
    (hroom : 2 * (xs.length + ys.length) < 2 ^ 18)
    (hlocks : ∀ k, xs.length ≤ k → k < xs.length + ys.length → s.locks (qPos k) = .free) :
    ∃ s', Machine.run (World.step alloc) s (Interleaving.publishing ys) = some s' ∧
      Lapped s' (xs ++ ys) ∧ s'.locks = s.locks ∧ s'.subs = s.subs := by
  induction ys generalizing s xs with
  | nil =>
    refine ⟨s, rfl, ?_, rfl, rfl⟩
    rw [List.append_nil]
    exact h
  | cons y ys ih =>
    rw [List.length_cons] at hroom hlocks
    obtain ⟨s₁, hrun₁, h₁, hlocks₁, hsubs₁⟩ := h.write alloc y (by omega)
      (hlocks _ (Nat.le_refl _) (by omega))
    have hlen : (xs ++ [y]).length = xs.length + 1 := List.length_append
    obtain ⟨s₂, hrun₂, h₂, hlocks₂, hsubs₂⟩ := ih h₁ (by omega) (by
      intro k hk hk'
      rw [hlocks₁]
      exact hlocks k (by omega) (by omega))
    refine ⟨s₂, ?_, ?_, hlocks₂.trans hlocks₁, hsubs₂.trans hsubs₁⟩
    · rw [Interleaving.publishing, List.flatMap_cons, Machine.run_append, hrun₁, Option.bind_some]
      exact hrun₂
    · rw [List.append_cons]
      exact h₂

theorem publishing_run (alloc : Nat → Bool) (ys : List UInt8) (h : Lapped s xs)
    (hroom : 2 * (xs.length + ys.length) < 2 ^ 18)
    (hlocks : ∀ k, xs.length ≤ k → k < xs.length + ys.length → s.locks (qPos k) = .free) :
    ∃ s', Machine.Run (World.step alloc) World.JumpSafe s (Interleaving.publishing ys) s' ∧
      Lapped s' (xs ++ ys) ∧ s'.locks = s.locks ∧ s'.subs = s.subs := by
  obtain ⟨s', hrun, hrest⟩ := h.publishing alloc ys hroom hlocks
  refine ⟨s', Machine.Run.of_labels hrun ?_, hrest⟩
  intro l hl t j held hlabel
  obtain ⟨y, -, hy⟩ := List.mem_flatMap.mp hl
  subst hlabel
  simp at hy

end Lapped

theorem length_zeros (n : Nat) (ys : List UInt8) :
    (List.replicate n 0 ++ ys).length = n + ys.length := by
  rw [List.length_append, List.length_replicate]

section Subscriber

variable {s : World 1 1} {p : Nat} {x : UInt8}

def noJump (s : World 1 1) : Label 1 1 → Bool
  | .subscriber j =>
    match (s.subs j).pc with
    | .jumpahead _ => false
    | _ => true
  | _ => true

theorem jumpSafe_of_noJump (s : World 1 1) (l : Label 1 1) (h : noJump s l = true) :
    s.JumpSafe l := by
  rintro j held rfl hpc
  simp [noJump, hpc] at h

theorem run_look (hsub : s.subs 0 = ⟨p, .idle⟩) (hnew : p < s.topic.counter)
    (hlag : s.topic.counter - p < queueSize) :
    Machine.Run (World.step fun _ => true) World.JumpSafe s (List.replicate 3 (.subscriber 0))
      (s.setSub 0 ⟨p, .lockSharable⟩) := by
  apply Machine.Run.of_runIf jumpSafe_of_noJump
  have hfast : ¬ sub32 s.topic.counter p ≥ queueSize := by
    rw [sub32_eq (Nat.le_of_lt hnew)]
    omega
  simp only [List.replicate, Machine.runIf, noJump, World.step, World.stepSub, World.setSub, hsub,
    if_neg (Nat.not_le_of_lt hnew), if_neg hfast, Function.update_self, Function.update_idem,
    Option.bind_some, if_true]

theorem run_lag (hsub : s.subs 0 = ⟨p, .lockSharable⟩) (hlock : s.locks (qPos p) = .free)
    (hle : p ≤ s.topic.counter) (hlag : queueSize ≤ s.topic.counter - p) :
    Machine.Run (World.step fun _ => true) World.JumpSafe s (List.replicate 2 (.subscriber 0))
      ((s.setLock (qPos p) ⟨false, 1⟩).setSub 0 ⟨p, .jumpahead (qPos p)⟩) := by
  apply Machine.Run.of_runIf jumpSafe_of_noJump
  have hslow : ¬ queueSize > sub32 s.topic.counter p := by
    rw [sub32_eq hle]
    omega
  have htry : (s.locks (qPos p)).tryLockSharable = some ⟨false, 1⟩ := by
    rw [hlock]
    rfl
  simp only [List.replicate, Machine.runIf, noJump, World.step, World.stepSub, World.setSub,
    World.setLock, hsub, htry, if_neg hslow, Function.update_self, Function.update_idem,
    Option.bind_some, Option.map_some, if_true]

theorem run_move {held : Fin queueSize} {r : Entry} (hsub : s.subs 0 = ⟨p, .readEmpty held false⟩)
    (helem : s.topic.elem (qPos p) = r.element) (hholds : s.topic.allocator.Holds r.block r.msg)
    (hmsg : r.msg = [x]) :
    Machine.Run (World.step fun _ => true) World.JumpSafe s (List.replicate 6 (.subscriber 0))
      ((s.setLock held (s.locks held).unlock).setSub 0 ⟨p, .returned false ⟨some [x], 1, true⟩⟩) := by
  apply Machine.Run.of_runIf jumpSafe_of_noJump
  rw [hmsg] at hholds
  have hbyte : s.topic.allocator.load (s.topic.allocator.ptr r.block) 1 = [x] :=
    hholds.load_byte Nat.one_pos
  simp only [List.replicate, Machine.runIf, noJump, World.step, World.stepSub, World.setSub,
    World.setLock, hsub, helem, Entry.element, hmsg, List.length_nil, List.length_singleton,
    Nat.add_zero, Nat.lt_irrefl, Nat.one_pos, Allocator.handleToPtr_handle, hbyte,
    List.nil_append, Function.update_self,
    Function.update_idem, Option.bind_some, if_true, if_false, Bool.false_eq_true]

theorem run_to_jump (ys : List UInt8) (hpos : 0 < ys.length) (hle : ys.length < 2 ^ 10) :
    ∃ s : World 1 1, Machine.Run (World.step fun _ => true) World.JumpSafe (World.new 4096 (2 ^ 20))
        (publishing (List.replicate 1023 0) ++ List.replicate 3 (.subscriber 0) ++ publishing ys ++
          List.replicate 2 (.subscriber 0)) s ∧
      Lapped s (List.replicate 1023 0 ++ ys) ∧ s.subs 0 = ⟨0, .jumpahead (qPos 0)⟩ ∧
      (∀ k, qPos k ≠ qPos 0 → s.locks (qPos k) = .free) ∧ s.locks (qPos 0) = ⟨false, 1⟩ := by
  have hnew : Lapped (World.new 4096 (2 ^ 20) : World 1 1) [] := ⟨paced_new, rfl, rfl, rfl⟩
  have hlen : (List.replicate 1023 (0 : UInt8)).length = 1023 := List.length_replicate
  have hroom : 2 * (([] : List UInt8).length + (List.replicate 1023 (0 : UInt8)).length) < 2 ^ 18 := by
    rw [hlen]
    decide
  obtain ⟨s₁, hrun₁, h₁, hlocks₁, hsubs₁⟩ := hnew.publishing_run (fun _ => true) _ hroom fun _ _ _ => rfl
  rw [List.nil_append] at h₁
  have hcounter₁ := h₁.counter
  rw [hlen] at hcounter₁
  have hsub₁ : s₁.subs 0 = ⟨0, .idle⟩ := by rw [hsubs₁]; rfl
  have hlook := run_look hsub₁ (by omega) (by rw [hcounter₁]; decide)
  have h₂ : Lapped (s₁.setSub 0 ⟨0, .lockSharable⟩) (List.replicate 1023 0) :=
    ⟨h₁.paced, h₁.calls, h₁.accepted, h₁.idle⟩
  have hfree : ∀ k, s₁.locks (qPos k) = .free := fun k => by rw [hlocks₁]; rfl
  obtain ⟨s₃, hrun₃, h₃, hlocks₃, hsubs₃⟩ := h₂.publishing_run (fun _ => true) ys
    (by rw [hlen]; omega) fun k _ _ => hfree k
  have hcounter₃ := h₃.counter
  rw [List.length_append, hlen] at hcounter₃
  have hsub₃ : s₃.subs 0 = ⟨0, .lockSharable⟩ := by
    rw [hsubs₃, World.subs_setSub]
  have hlocks : ∀ k, s₃.locks (qPos k) = .free := fun k => by
    rw [hlocks₃]
    exact hfree k
  have hlag := run_lag hsub₃ (hlocks 0) (Nat.zero_le _) (by rw [hcounter₃]; unfold queueSize; omega)
  refine ⟨_, ((hrun₁.trans hlook).trans hrun₃).trans hlag, ⟨h₃.paced, h₃.calls, h₃.accepted, h₃.idle⟩,
    World.subs_setSub .., ?_, by simp only [World.setSub, World.setLock, Function.update_self]⟩
  intro k hk
  exact (Function.update_of_ne hk _ _).trans (hlocks k)

theorem step_jump {s : World 1 1} {c : Nat} {held : Fin queueSize}
    (hsub : s.subs 0 = ⟨p, .jumpahead held⟩) (hcounter : s.topic.counter = c)
    (hle : queueSize ≤ c) :
    World.step (fun _ => true) s (.subscriber 0) =
      some (s.setSub 0 ⟨c - 512, .readEmpty held false⟩) := by
  simp only [World.step, World.stepSub, hsub, hcounter, jumpahead_eq hle]

theorem Lapped.slot {s : World 1 1} {xs : List UInt8} (h : Lapped s xs) {k : Nat} {x : UInt8}
    (hk : xs[k]? = some x) (hlap : xs.length ≤ k + queueSize) :
    ∃ r : Entry, r.msg = [x] ∧ s.topic.elem (qPos k) = r.element ∧
      s.topic.allocator.Holds r.block r.msg := by
  have hlen : (pacedHist xs).length = xs.length := List.length_mapIdx
  have hr : (pacedHist xs)[k]? = some ⟨⟨2 * k, 2 * k + 1, 1⟩, [x]⟩ := by
    simp [pacedHist, List.getElem?_mapIdx, hk]
  have hlt := (List.getElem?_eq_some_iff.mp hr).1
  have hw := h.paced.settled.window
  exact ⟨_, rfl, hw.slots k _ hr (by omega) hlt, hw.holds k _ hr (by omega) hlt⟩

end Subscriber

theorem Lapped.published {s : World 1 1} {xs : List UInt8} (h : Lapped s xs) {k : Nat} {x : UInt8}
    (hk : xs[k]? = some x) {msg : Memblock} (hmsg : s.Published k msg) : msg = .ofData [x] := by
  obtain ⟨id, hid, hcall⟩ := hmsg
  have hlt := (List.getElem?_eq_some_iff.mp hk).1
  rw [h.accepted, List.getElem?_range hlt] at hid
  obtain rfl := Option.some.inj hid
  rw [h.calls, List.getElem?_map, hk] at hcall
  exact (Option.some.inj hcall).symm

theorem getElem?_zeros {n k : Nat} (h : k < n) (ys : List UInt8) :
    (List.replicate n 0 ++ ys)[k]? = some 0 := by
  rw [List.getElem?_append_left (by rw [List.length_replicate]; exact h), List.getElem?_replicate,
    if_pos h]

/-- The schedule of an unsafe jump: at counter 1025 the subscriber holds slot 0 and jumps
to position 513, whose slot the publisher reaches again without passing slot 0. -/
def lapLabels : List (Label 1 1) :=
  publishing (List.replicate 1023 0) ++ List.replicate 3 (.subscriber 0) ++ publishing [0, 0] ++
    List.replicate 2 (.subscriber 0) ++ [.subscriber 0] ++
    publishing (List.replicate 512 0 ++ [1]) ++ List.replicate 6 (.subscriber 0)

/-- The slow path returns message 1537 for position 513. -/
theorem slow_read_overwritten : ∃ s : World 1 1,
    Machine.run (World.step fun _ => true) (World.new 4096 (2 ^ 20)) lapLabels = some s ∧
    s.accepted.length = 1538 ∧ s.subs 0 = ⟨513, .returned false ⟨some [1], 1, true⟩⟩ ∧
    ¬ s.Consistent false 0 := by
  obtain ⟨s₁, hrun₁, h₁, hsub₁, hlocks₁, -⟩ := run_to_jump [0, 0] (by decide) (by decide)
  have hlen₁ : (List.replicate 1023 (0 : UInt8) ++ [0, 0]).length = 1025 := length_zeros ..
  have hjump := step_jump hsub₁ (h₁.counter.trans hlen₁) (by decide)
  have h₂ : Lapped (s₁.setSub 0 ⟨1025 - 512, .readEmpty (qPos 0) false⟩)
      (List.replicate 1023 0 ++ [0, 0]) := ⟨h₁.paced, h₁.calls, h₁.accepted, h₁.idle⟩
  have hlen₂ : (List.replicate 512 (0 : UInt8) ++ [1]).length = 513 := length_zeros ..
  obtain ⟨s₃, hrun₃, h₃, -, hsubs₃⟩ := h₂.publishing_run (fun _ => true)
    (List.replicate 512 0 ++ [1]) (by rw [hlen₁, hlen₂]; decide) (by
      intro k hk hk'
      rw [hlen₁] at hk hk'
      rw [hlen₂] at hk'
      apply hlocks₁
      rw [Ne, qPos_eq_iff]
      unfold queueSize
      omega)
  have hsub₃ : s₃.subs 0 = ⟨513, .readEmpty (qPos 0) false⟩ := by
    rw [hsubs₃, World.subs_setSub]
  have hlast : (List.replicate 1023 (0 : UInt8) ++ [0, 0] ++ (List.replicate 512 0 ++ [1]))[1537]? =
      some 1 := by
    rw [List.getElem?_append_right (by rw [hlen₁]; decide), hlen₁,
      List.getElem?_append_right (by rw [List.length_replicate]), List.length_replicate]
    rfl
  obtain ⟨r, hmsg, helem, hholds⟩ := h₃.slot hlast
    (by rw [List.length_append, hlen₁, hlen₂]; decide)
  have hsame : qPos 1537 = qPos 513 := qPos_add 513
  rw [hsame] at helem
  have hmove := run_move hsub₃ helem hholds hmsg
  have hrun := ((hrun₁.always.trans (.snoc .nil trivial hjump)).trans hrun₃.always).trans hmove.always
  have hcalls : (List.replicate 1023 (0 : UInt8) ++ [0, 0] ++ (List.replicate 512 0 ++ [1]))[513]? =
      some 0 := by
    rw [List.append_assoc]
    exact getElem?_zeros (by decide) _
  refine ⟨_, hrun.run_eq, ?_, World.subs_setSub .., fun hbad => ?_⟩
  · show s₃.accepted.length = 1538
    rw [h₃.accepted, List.length_range, List.length_append, hlen₁, hlen₂]
  · obtain ⟨msg, hpublished, -, hbytes⟩ := hbad.returned ⟨some [1], 1, true⟩
      (congrArg Reader.pc (World.subs_setSub ..))
    rw [World.subs_setSub] at hpublished
    have h₄ : Lapped ((s₃.setLock (qPos 0) (s₃.locks (qPos 0)).unlock).setSub 0
        ⟨513, .returned false ⟨some [1], 1, true⟩⟩) _ := ⟨h₃.paced, h₃.calls, h₃.accepted, h₃.idle⟩
    rw [h₄.published hcalls hpublished] at hbytes
    simp [Memblock.bytes, Memblock.ofData] at hbytes

theorem slow_read_consistent_lap : ∃ s : World 1 1,
    s.subs 0 = ⟨512, .returned false ⟨some [0], 1, true⟩⟩ ∧ s.Consistent false 0 := by
  obtain ⟨s₁, hrun₁, h₁, hsub₁, hlocks₁, -⟩ := run_to_jump [0] (by decide) (by decide)
  have hlen₁ : (List.replicate 1023 (0 : UInt8) ++ [0]).length = 1024 := length_zeros ..
  have hcounter := h₁.counter.trans hlen₁
  have hjump := step_jump hsub₁ hcounter (by decide)
  have hsafe : s₁.JumpSafe (.subscriber 0) := by
    intro j held hj hpc
    obtain rfl : 0 = j := Label.subscriber.inj hj
    rw [hsub₁] at hpc
    obtain rfl := ReadPc.jumpahead.inj hpc
    rw [hcounter]
    refine ⟨by decide, fun _ i => ?_⟩
    rw [Subsingleton.elim i 0, h₁.idle]
    rfl
  have hsub₂ : (s₁.setSub 0 ⟨1024 - 512, .readEmpty (qPos 0) false⟩).subs 0 =
      ⟨512, .readEmpty (qPos 0) false⟩ := World.subs_setSub ..
  have h₂ : Lapped (s₁.setSub 0 ⟨1024 - 512, .readEmpty (qPos 0) false⟩)
      (List.replicate 1023 0 ++ [0]) := ⟨h₁.paced, h₁.calls, h₁.accepted, h₁.idle⟩
  obtain ⟨r, hmsg, helem, hholds⟩ := h₂.slot (k := 512) (getElem?_zeros (by decide) [0])
    (by rw [hlen₁]; decide)
  have hmove := run_move hsub₂ helem hholds hmsg
  have hrun := (hrun₁.trans (.snoc .nil hsafe hjump)).trans hmove
  have haccepted : s₁.accepted.length < 2 ^ 32 := by
    rw [h₁.accepted, List.length_range, hlen₁]
    decide
  exact ⟨_, World.subs_setSub .., World.slow_read_consistent (by decide) (by decide) (by decide)
    (by decide) hrun haccepted 0⟩

end Interleaving

end Shadesmar.PubSub
