import Shadesmar.Memory.DoubleAllocator
import Shadesmar.Memory.Operations

namespace Shadesmar.Memory

open Library

def Block.stop (b : Block) : Nat := max (b.header + 1) (b.payload + b.size)

theorem Block.Owns.lt_stop {b : Block} {i : Nat} (h : b.Owns i) : i < b.stop := by
  unfold Block.Owns at h
  unfold Block.stop
  omega

theorem Block.owns_last {b : Block} (h : b.payload ≤ b.header + 1) : b.Owns (b.stop - 1) := by
  unfold Block.Owns Block.stop
  omega

namespace Allocator

variable {a a' : Allocator} {bytes alignment size : Nat} {op : Operation}

/-- `candidate` with the sums of `uint32_t`, which wrap in a heap of more than 12 GiB. -/
def attempt (a : Allocator) (size : Nat) : Block where
  header := a.allocIndex
  payload := if a.words ≤ (a.allocIndex + size) % 2 ^ 32 then 0 else (a.allocIndex + 1) % 2 ^ 32
  size := size

/-- `Accepts` with the sums of `uint32_t`. -/
def Grants (a : Allocator) (size : Nat) : Prop :=
  let b := a.attempt size
  ¬ (a.allocIndex < a.freeIndex ∧ b.payload = 0) ∧
  ¬ (b.payload ≤ a.freeIndex ∧ a.freeIndex ≤ (b.payload + b.size) % 2 ^ 32) ∧
  ¬ ((b.payload + b.size) % 2 ^ 32 = a.words ∧ 0 = a.freeIndex)

instance (a : Allocator) (size : Nat) : Decidable (a.Grants size) :=
  inferInstanceAs (Decidable (_ ∧ _ ∧ _))

def laid (a : Allocator) : Operation → Option Block
  | .alloc bytes alignment =>
    (a.payloadWords bytes alignment).bind fun size =>
      match a.suggestIndex a.allocIndex size, a.allocWords size alignment with
      | .ok payload, .ok (some _, _) => some ⟨a.allocIndex, payload, size⟩
      | _, _ => none
  | _ => none

theorem payloadWords_lt (h : a.payloadWords bytes alignment = some size) : size < 2 ^ 30 := by
  unfold payloadWords u32 at h
  dsimp only at h
  split_ifs at h
  all_goals
    obtain rfl := Option.some.inj h
    omega

theorem allocWords_grants {r : Option Nat} (h : a.allocWords size alignment = .ok (r, a')) :
    a.suggestIndex a.allocIndex size = .ok (a.attempt size).payload ∧
      (r.isSome = true ↔ a.Grants size) := by
  obtain ⟨index, hindex, h⟩ := Checked.bind_eq_ok.mp h
  obtain ⟨-, -, -, hplace⟩ := suggestIndex_ok hindex
  obtain rfl : index = (a.attempt size).payload := hplace
  refine ⟨hindex, ?_⟩
  have hsum : u32 ((a.attempt size).payload + size) =
      ((a.attempt size).payload + (a.attempt size).size) % 2 ^ 32 := by
    unfold u32
    rfl
  dsimp only at h
  rw [hsum] at h
  unfold Grants
  dsimp only
  split_ifs at h with hwrap hover hfull
  · obtain ⟨rfl, -⟩ := Prod.mk.inj (Except.ok.inj h)
    exact iff_of_false Bool.false_ne_true fun hg => hg.1 hwrap
  · obtain ⟨rfl, -⟩ := Prod.mk.inj (Except.ok.inj h)
    exact iff_of_false Bool.false_ne_true fun hg => hg.2.1 hover
  · obtain ⟨rfl, -⟩ := Prod.mk.inj (Except.ok.inj h)
    exact iff_of_false Bool.false_ne_true fun hg => hg.2.2 hfull
  all_goals
    obtain ⟨⟨⟩, -, h⟩ := Checked.bind_eq_ok.mp h
    obtain ⟨⟨⟩, -, h⟩ := Checked.bind_eq_ok.mp h
    obtain ⟨rfl, -⟩ := Prod.mk.inj (Except.ok.inj h)
    exact iff_of_true rfl ⟨hwrap, hover, hfull⟩

theorem laid_alloc_iff (h : a.perform (.alloc bytes alignment) = some a') {b : Block} :
    a.laid (.alloc bytes alignment) = some b ↔
      ∃ size, a.payloadWords bytes alignment = some size ∧ a.Grants size ∧ a.attempt size = b := by
  obtain ⟨r, hcall⟩ := perform_alloc h
  unfold allocAligned at hcall
  change (a.payloadWords bytes alignment).bind _ = _ ↔ _
  rw [Option.bind_eq_some_iff]
  apply exists_congr
  intro size
  apply and_congr_right
  intro hwords
  rw [hwords] at hcall
  obtain ⟨hindex, hgrants⟩ := allocWords_grants hcall
  rw [hindex, show a.allocWords size alignment = .ok (r, a') from hcall, ← hgrants]
  cases r with
  | none => simp
  | some p => simp [attempt]

theorem perform_fields (h : a.perform op = some a') :
    a'.heapBase = a.heapBase ∧ a'.size = a.size := by
  cases op with
  | alloc bytes alignment =>
    obtain ⟨r, hcall⟩ := perform_alloc h
    unfold allocAligned at hcall
    split at hcall
    · obtain ⟨-, rfl⟩ := Prod.mk.inj (Except.ok.inj hcall)
      exact ⟨rfl, rfl⟩
    · rcases allocWords_ok hcall with ⟨-, rfl⟩ | ⟨_, _, -, -, -, rfl⟩ <;> exact ⟨rfl, rfl⟩
  | free ptr =>
    obtain ⟨done, hcall⟩ := perform_free h
    rcases free_cases hcall with rfl | ⟨_, -, rfl⟩ <;> exact ⟨rfl, rfl⟩
  | store q data =>
    obtain rfl := Option.some.inj h
    exact ⟨rfl, rfl⟩
  | reset =>
    obtain rfl := Option.some.inj h
    exact ⟨rfl, rfl⟩

theorem attempt_payload_le (a : Allocator) (size : Nat) :
    (a.attempt size).payload ≤ (a.attempt size).header + 1 := by
  have hmod := Nat.mod_le (a.allocIndex + 1) (2 ^ 32)
  unfold attempt
  dsimp only
  split_ifs <;> omega

theorem attempt_eq (h : a.allocIndex + size + 1 < 2 ^ 32) : a.attempt size = a.candidate size := by
  unfold attempt candidate place
  rw [Nat.mod_eq_of_lt (show a.allocIndex + size < 2 ^ 32 by omega),
    Nat.mod_eq_of_lt (show a.allocIndex + 1 < 2 ^ 32 by omega)]

theorem attempt_stop_le (hwords : a.words ≤ 2 ^ 32 - 2 ^ 30) (hsize : size < 2 ^ 30)
    (h : a.suggestIndex a.allocIndex size = .ok (a.attempt size).payload) :
    (a.attempt size).stop ≤ a.words := by
  obtain ⟨hheader, -, hlast, -⟩ := suggestIndex_ok h
  have hplace := place_cases a.words a.allocIndex size
  rw [attempt_eq (by omega)] at *
  unfold candidate at *
  unfold Block.stop
  unfold sub32 u32 at hlast
  dsimp only at *
  split_ifs at hlast <;> omega

theorem laid_stop_le (hwords : a.words ≤ 2 ^ 32 - 2 ^ 30) (h : a.perform op = some a') {b : Block}
    (hb : a.laid op = some b) : b.payload ≤ b.header + 1 ∧ b.stop ≤ a.words := by
  cases op with
  | alloc bytes alignment =>
    obtain ⟨size, hsize, -, rfl⟩ := (laid_alloc_iff h).mp hb
    obtain ⟨r, hcall⟩ := perform_alloc h
    unfold allocAligned at hcall
    rw [hsize] at hcall
    obtain ⟨hindex, -⟩ := allocWords_grants hcall
    exact ⟨attempt_payload_le a size, attempt_stop_le hwords (payloadWords_lt hsize) hindex⟩
  | _ => cases hb

end Allocator

inductive Member
  | req | resp
  deriving DecidableEq

def DoubleAllocator.get (d : DoubleAllocator) : Member → Allocator
  | .req => d.req
  | .resp => d.resp

def DoubleAllocator.set (d : DoubleAllocator) : Member → Allocator → DoubleAllocator
  | .req, a => { d with req := a }
  | .resp, a => { d with resp := a }

structure Usage where
  members : DoubleAllocator
  used : Member → List Block

namespace Usage

def new (heapBase stride size : Nat) : Usage := ⟨.new heapBase stride size, fun _ => []⟩

def step (u : Usage) (call : Member × Allocator.Operation) : Option Usage :=
  ((u.members.get call.1).perform call.2).map fun a =>
    { members := u.members.set call.1 a
      used := Function.update u.used call.1
        (u.used call.1 ++ ((u.members.get call.1).laid call.2).toList) }

def Uses (u : Usage) (m : Member) (x : Nat) : Prop :=
  ∃ b ∈ u.used m, ∃ i, b.Owns i ∧ (u.members.get m).heapBase + 4 * i ≤ x ∧
    x < (u.members.get m).heapBase + 4 * i + 4

/-- The blocks of both members lie in the buffer at `base`, and share nothing. -/
structure InBuffer (base size : Nat) (u : Usage) : Prop where
  inside : ∀ m x, u.Uses m x → base ≤ x ∧ x < base + size
  apart : ∀ x, u.Uses .req x → ¬ u.Uses .resp x

def excess (stride : Nat) : Member → Nat
  | .req => 0
  | .resp => stride

def StaysClear (stride : Nat) (u : Usage) : Member × Allocator.Operation → Prop
  | (m, .alloc bytes alignment) =>
    ∀ size ∈ (u.members.get m).payloadWords bytes alignment, (u.members.get m).Grants size →
      4 * ((u.members.get m).attempt size).stop + excess stride m ≤ (u.members.get m).size
  | _ => True

instance (stride : Nat) (u : Usage) :
    (call : Member × Allocator.Operation) → Decidable (u.StaysClear stride call)
  | (_, .alloc _ _) => inferInstanceAs (Decidable (∀ size ∈ _, _ → _))
  | (_, .free _) | (_, .store _ _) | (_, .reset) => .isTrue trivial

section Layout

variable {u u' : Usage} {m : Member} {op : Allocator.Operation} {b : Block}
  {base stride total : Nat}

structure Placed (base stride total : Nat) (u : Usage) : Prop where
  req : u.members.req.heapBase = base
  resp : u.members.resp.heapBase = base + stride + total / 2
  size : ∀ m, (u.members.get m).size = total / 2

def Shares (stride total : Nat) (u : Usage) : Prop :=
  ∀ m, ∀ b ∈ u.used m, 4 * b.stop + excess stride m ≤ total / 2

theorem placed_new : (new base stride total).Placed base stride total :=
  ⟨rfl, rfl, fun m => by cases m <;> rfl⟩

theorem step_cases (h : u.step (m, op) = some u') :
    ∃ a, (u.members.get m).perform op = some a ∧ u'.members = u.members.set m a ∧
      u'.used = Function.update u.used m (u.used m ++ ((u.members.get m).laid op).toList) := by
  obtain ⟨a, ha, rfl⟩ := Option.map_eq_some_iff.mp h
  exact ⟨a, ha, rfl, rfl⟩

theorem Placed.step (h : u.Placed base stride total) (hs : u.step (m, op) = some u') :
    u'.Placed base stride total := by
  obtain ⟨a, ha, hmembers, -⟩ := step_cases hs
  obtain ⟨hbase, hsize⟩ := Allocator.perform_fields ha
  obtain ⟨hreq, hresp, hall⟩ := h
  have hm := hall m
  constructor
  · cases m <;> rw [hmembers]
    · exact hbase.trans hreq
    · exact hreq
  · cases m <;> rw [hmembers]
    · exact hresp
    · exact hbase.trans hresp
  · intro m'
    have hm' := hall m'
    cases m <;> cases m' <;> rw [hmembers]
    · exact hsize.trans hm
    · exact hm'
    · exact hm'
    · exact hsize.trans hm

theorem mem_used_step (hs : u.step (m, op) = some u') {m' : Member} :
    b ∈ u'.used m' ↔ b ∈ u.used m' ∨ m' = m ∧ (u.members.get m).laid op = some b := by
  obtain ⟨a, -, -, hused⟩ := step_cases hs
  rw [hused]
  by_cases hmm : m' = m
  · subst hmm
    simp
  · rw [Function.update_of_ne hmm]
    simp [hmm]

theorem staysClear_iff (h : u.Placed base stride total) (hs : u.step (m, op) = some u') :
    u.StaysClear stride (m, op) ↔ ∀ b, (u.members.get m).laid op = some b →
      4 * b.stop + excess stride m ≤ total / 2 := by
  cases op with
  | alloc bytes alignment =>
    obtain ⟨a, ha, -⟩ := step_cases hs
    rw [← h.size m]
    constructor
    · intro hclear b hb
      obtain ⟨size, hwords, hgrants, rfl⟩ := (Allocator.laid_alloc_iff ha).mp hb
      exact hclear size hwords hgrants
    · intro hall size hwords hgrants
      exact hall _ ((Allocator.laid_alloc_iff ha).mpr ⟨size, hwords, hgrants, rfl⟩)
  | _ => exact iff_of_true trivial fun b hb => by cases hb

theorem Shares.step_iff (h : u.Placed base stride total) (hs : u.step (m, op) = some u') :
    Shares stride total u' ↔ Shares stride total u ∧ u.StaysClear stride (m, op) := by
  rw [staysClear_iff h hs]
  unfold Shares
  constructor
  · intro hall
    refine ⟨fun m' b hb => hall m' b ((mem_used_step hs).mpr (.inl hb)), fun b hb => ?_⟩
    exact hall m b ((mem_used_step hs).mpr (.inr ⟨rfl, hb⟩))
  · rintro ⟨hall, hnew⟩ m' b hb
    rcases (mem_used_step hs).mp hb with hold | ⟨rfl, hb⟩
    · exact hall m' b hold
    · exact hnew b hb

theorem Shares.inBuffer (h : u.Shares stride total) (hu : u.Placed base stride total) :
    u.InBuffer base total := by
  obtain ⟨hreq, hresp, -⟩ := hu
  have hbytes : ∀ m x, u.Uses m x → ∃ i, 4 * (i + 1) + excess stride m ≤ total / 2 ∧
      (u.members.get m).heapBase + 4 * i ≤ x ∧ x < (u.members.get m).heapBase + 4 * i + 4 := by
    rintro m x ⟨b, hb, i, hi, hlow, hhigh⟩
    have hshare := h m b hb
    have hstop := hi.lt_stop
    exact ⟨i, by omega, hlow, hhigh⟩
  constructor
  · intro m x hx
    obtain ⟨i, hi, hlow, hhigh⟩ := hbytes m x hx
    cases m <;> simp only [DoubleAllocator.get, excess] at hi hlow hhigh <;> omega
  · intro x hx hx'
    obtain ⟨i, hi, hlow, hhigh⟩ := hbytes .req x hx
    obtain ⟨j, -, hlow', -⟩ := hbytes .resp x hx'
    simp only [DoubleAllocator.get, excess] at hi hlow hhigh hlow'
    omega

def InHalves (total : Nat) (u : Usage) : Prop :=
  ∀ m, ∀ b ∈ u.used m, b.payload ≤ b.header + 1 ∧ 4 * b.stop ≤ total / 2

theorem InHalves.step (h : u.InHalves total) (hu : u.Placed base stride total)
    (hlim : total ≤ 3 * 2 ^ 33) (hs : u.step (m, op) = some u') : u'.InHalves total := by
  intro m' b hb
  rcases (mem_used_step hs).mp hb with hold | ⟨rfl, hlaid⟩
  · exact h m' b hold
  · obtain ⟨a, ha, -⟩ := step_cases hs
    have hsize := hu.size m'
    have hwords : (u.members.get m').words = total / 2 / 4 := congrArg (· / 4) hsize
    obtain ⟨hpayload, hstop⟩ := Allocator.laid_stop_le (by omega) ha hlaid
    exact ⟨hpayload, by omega⟩

theorem InBuffer.shares (h : u.InBuffer base total) (hu : u.Placed base stride total)
    (hhalves : u.InHalves total) (hdvd : 8 ∣ total) : u.Shares stride total := by
  intro m b hb
  obtain ⟨hpayload, hstop⟩ := hhalves m b hb
  cases m with
  | req => exact hstop
  | resp =>
    have hpos : 0 < b.stop := Nat.lt_of_lt_of_le (Nat.succ_pos _) (Nat.le_max_left ..)
    have hlast : u.Uses .resp (u.members.resp.heapBase + 4 * (b.stop - 1) + 3) :=
      ⟨b, hb, b.stop - 1, Block.owns_last hpayload, Nat.le_add_right .., Nat.lt_succ_self _⟩
    have hend := (h.inside _ _ hlast).2
    rw [hu.resp] at hend
    unfold excess
    dsimp only
    omega

end Layout

variable {u : Usage} {calls : List (Member × Allocator.Operation)}
  {address offset stride size : Nat}

theorem placed_of_run (h : Machine.run step (new address stride size) calls = some u) :
    u.Placed address stride size :=
  (Machine.Run.of_run h).invariant _ placed_new fun _ _ _ ht _ hs => ht.step hs

theorem inHalves_of_run (hlim : size ≤ 3 * 2 ^ 33)
    (h : Machine.run step (new address stride size) calls = some u) : u.InHalves size := by
  have hall : u.Placed address stride size ∧ u.InHalves size := by
    apply (Machine.Run.of_run h).invariant fun t => t.Placed address stride size ∧ t.InHalves size
    · exact ⟨placed_new, fun m b hb => absurd hb List.not_mem_nil⟩
    · rintro t ⟨m, op⟩ t' ⟨ht, hin⟩ - hs
      exact ⟨ht.step hs, hin.step ht hlim hs⟩
  exact hall.2

theorem shares_iff (h : Machine.run step (new address stride size) calls = some u) :
    u.Shares stride size ↔
      Machine.Run step (StaysClear stride) (new address stride size) calls u := by
  apply Machine.Run.exact (fun t => t.Placed address stride size) _ h placed_new
  · exact fun m b hb => absurd hb List.not_mem_nil
  · rintro t ⟨m, op⟩ t' ht hs
    exact ⟨ht.step hs, Shares.step_iff ht hs⟩

/-- The two members stay inside their buffer and apart in every run in which no block reaches
the excess of its half.  Up to a buffer of 24 GiB, where the indices do not wrap, in no other. -/
theorem stays_in_buffer (hdvd : 8 ∣ size)
    (h : Machine.run step (new (address + offset) stride size) calls = some u) :
    (Machine.Run step (StaysClear stride) (new (address + offset) stride size) calls u →
      u.InBuffer (address + offset) size) ∧
    (size ≤ 3 * 2 ^ 33 → u.InBuffer (address + offset) size →
      Machine.Run step (StaysClear stride) (new (address + offset) stride size) calls u) := by
  have hplaced := placed_of_run h
  constructor
  · intro hrun
    have hshares := (shares_iff h).mpr hrun
    exact hshares.inBuffer hplaced
  · intro hlim hin
    exact (shares_iff h).mp (hin.shares hplaced (inHalves_of_run hlim h) hdvd)

theorem stays_in_buffer_both : ∃ u,
    Machine.run step (new (4096 + 256) 128 1024) [(.req, .alloc 490 1), (.resp, .alloc 240 1)] =
      some u ∧ u.InBuffer (4096 + 256) 1024 := by
  have hrun : (Machine.runIf step (fun u l => decide (u.StaysClear 128 l))
      (new (4096 + 256) 128 1024) [(.req, .alloc 490 1), (.resp, .alloc 240 1)]).isSome = true := by decide +kernel
  obtain ⟨u, hu⟩ := Option.isSome_iff_exists.mp hrun
  have hclear := Machine.Run.of_runIf (fun _ _ h => of_decide_eq_true h) hu
  exact ⟨u, hclear.run_eq, (stays_in_buffer (by decide) hclear.run_eq).1 hclear⟩

/-- A block of 123 words in the half of `resp` ends 112 bytes after the buffer. -/
theorem resp_leaves_buffer : ∃ u,
    Machine.run step (new (4096 + 256) 128 1024) [(.resp, .alloc 490 1)] = some u ∧
      ¬ u.InBuffer (4096 + 256) 1024 := by
  have hrun : (Machine.run step (new (4096 + 256) 128 1024) [(.resp, .alloc 490 1)]).map
      (fun u => (u.members.resp.heapBase, u.used .resp)) = some (4992, [⟨0, 1, 123⟩]) := by
    decide +kernel
  obtain ⟨u, hu, hvals⟩ := Option.map_eq_some_iff.mp hrun
  obtain ⟨hbase, hused⟩ := Prod.mk.inj hvals
  refine ⟨u, hu, fun hin => ?_⟩
  have huses : u.Uses .resp 5487 := by
    refine ⟨⟨0, 1, 123⟩, by rw [hused]; exact List.mem_singleton_self _, 123, .inr (by decide), ?_⟩
    rw [show (u.members.get .resp).heapBase = 4992 from hbase]
    decide
  have hend := (hin.inside _ _ huses).2
  omega

end Usage

end Shadesmar.Memory
