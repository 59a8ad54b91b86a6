import Shadesmar.Library.Trace
import Shadesmar.PubSub.Reading

namespace Shadesmar.PubSub.Interleaving

open Library Shadesmar.Memory Shadesmar.Concurrency

structure Delivery where
  position : Nat
  fast : Bool
  memblock : Memblock
  deriving DecidableEq

def Succession : Nat → List Nat → Prop
  | _, [] => True
  | next, p :: ps => (p = next ∨ next + queueSize / 2 ≤ p) ∧ Succession (p + 1) ps

def following (next : Nat) (ps : List Nat) : Nat := ps.foldl (fun _ p => p + 1) next

@[simp] theorem following_snoc (next : Nat) (ps : List Nat) (p : Nat) :
    following next (ps ++ [p]) = p + 1 := by
  simp [following]

theorem Succession.snoc {next p : Nat} {ps : List Nat} (h : Succession next ps)
    (hp : p = following next ps ∨ following next ps + queueSize / 2 ≤ p) :
    Succession next (ps ++ [p]) := by
  induction ps generalizing next with
  | nil => exact ⟨hp, trivial⟩
  | cons q ps ih => exact ⟨h.1, ih h.2 hp⟩

theorem Succession.lt_of_mem {next p : Nat} {ps : List Nat} (h : Succession next ps) (hp : p ∈ ps) :
    next ≤ p := by
  induction ps generalizing next with
  | nil => cases hp
  | cons q ps ih =>
    obtain ⟨hq, hrest⟩ := h
    rcases List.mem_cons.mp hp with rfl | hmem
    · omega
    · have hle := ih hrest hmem
      omega

theorem Succession.sorted {next : Nat} {ps : List Nat} (h : Succession next ps) :
    ps.Pairwise (· < ·) := by
  induction ps generalizing next with
  | nil => exact .nil
  | cons q ps ih => exact .cons (fun p hp => h.2.lt_of_mem hp) (ih h.2)

def Reader.Placed (c : Nat) (r : Reader) : Prop :=
  match r.pc with
  | .idle => r.counter ≤ c
  | .check => r.counter ≤ c
  | .jump => r.counter + queueSize ≤ c
  | .jumpahead _ => r.counter + queueSize ≤ c
  | _ => r.counter < c

theorem Reader.Placed.mono {c c' : Nat} {r : Reader} (h : r.Placed c) (hle : c ≤ c') :
    r.Placed c' := by
  unfold Reader.Placed at h ⊢
  cases hpc : r.pc <;> simp only [hpc] at h ⊢ <;> omega

def Reader.handed (r : Reader) : Option Delivery :=
  match r.pc with
  | .returned fast memblock => if memblock.isEmpty then none else some ⟨r.counter, fast, memblock⟩
  | _ => none

namespace World

variable {n m : Nat}

def handed (j : Fin m) (s : World n m) : Label n m → Option Delivery
  | .subscriber k => if k = j then (s.subs j).handed else none
  | _ => none

def deliveries (alloc : Nat → Bool) (j : Fin m) (s : World n m) (labels : List (Label n m)) :
    List Delivery := (Machine.trace (step alloc) (handed j) s labels).filterMap id

variable {s s' t : World n m} {alloc : Nat → Bool} {hist : List Entry} {v : Stages} {j : Fin m}
variable {bufferSize : Nat} {labels : List (Label n m)} {l : Label n m}

theorem deliveries_snoc (h : Machine.run (step alloc) s labels = some s')
    (hs : s'.step alloc l = some t) :
    deliveries alloc j s (labels ++ [l]) =
      deliveries alloc j s labels ++ (s'.handed j l).toList := by
  unfold deliveries
  rw [Machine.trace_snoc h hs, List.filterMap_append]
  cases handed j s' l <;> simp

theorem stepSub_placed (hcounter : s.topic.counter = s.accepted.length)
    (hlt : s.accepted.length < 2 ^ 32) (h : (s.subs j).Placed s.accepted.length)
    (hs : s.stepSub alloc j = some s') :
    ∃ r, s'.subs = Function.update s.subs j r ∧ r.Placed s.accepted.length ∧
      match (s.subs j).handed with
      | some d => d.position = (s.subs j).counter ∧ r.counter = d.position + 1
      | none => r.counter = (s.subs j).counter ∨
          (s.subs j).counter + queueSize / 2 ≤ r.counter := by
  have hhalf : queueSize / 2 = 512 := rfl
  have hqueue : queueSize = 1024 := rfl
  unfold stepSub at hs
  unfold Reader.Placed at h
  unfold Reader.handed
  cases hpc : (s.subs j).pc with
  | idle =>
    simp only [hpc] at hs h ⊢
    obtain rfl := Option.some.inj hs
    exact ⟨_, rfl, h, .inl rfl⟩
  | check =>
    simp only [hpc] at hs h ⊢
    split_ifs at hs with hold <;> obtain rfl := Option.some.inj hs
    · exact ⟨_, rfl, h, .inl rfl⟩
    · refine ⟨_, rfl, ?_, .inl rfl⟩
      show (s.subs j).counter < s.accepted.length
      omega
  | checkLag =>
    simp only [hpc] at hs h ⊢
    rw [hcounter, sub32_eq (Nat.le_of_lt h)] at hs
    split_ifs at hs with hlag <;> obtain rfl := Option.some.inj hs
    · refine ⟨_, rfl, ?_, .inl rfl⟩
      show (s.subs j).counter + queueSize ≤ s.accepted.length
      omega
    · exact ⟨_, rfl, h, .inl rfl⟩
  | jump =>
    simp only [hpc] at hs h ⊢
    rw [hcounter, jumpahead_eq (Nat.le_trans (Nat.le_add_left _ _) h)] at hs
    obtain rfl := Option.some.inj hs
    refine ⟨_, rfl, ?_, .inr ?_⟩
    · show s.accepted.length - 512 < s.accepted.length
      omega
    · simp only
      omega
  | lockSharable =>
    simp only [hpc, Option.map_eq_some_iff] at hs h ⊢
    obtain ⟨lk, -, rfl⟩ := hs
    exact ⟨_, rfl, h, .inl rfl⟩
  | readCounter held =>
    simp only [hpc] at hs h ⊢
    rw [hcounter, sub32_eq (Nat.le_of_lt h)] at hs
    split_ifs at hs with hlag <;> obtain rfl := Option.some.inj hs
    · exact ⟨_, rfl, h, .inl rfl⟩
    · refine ⟨_, rfl, ?_, .inl rfl⟩
      show (s.subs j).counter + queueSize ≤ s.accepted.length
      omega
  | jumpahead held =>
    simp only [hpc] at hs h ⊢
    rw [hcounter, jumpahead_eq (Nat.le_trans (Nat.le_add_left _ _) h)] at hs
    obtain rfl := Option.some.inj hs
    refine ⟨_, rfl, ?_, .inr ?_⟩
    · show s.accepted.length - 512 < s.accepted.length
      omega
    · simp only
      omega
  | readEmpty held fast =>
    simp only [hpc] at hs h ⊢
    split_ifs at hs <;> obtain rfl := Option.some.inj hs <;> exact ⟨_, rfl, h, .inl rfl⟩
  | readHandle held fast | readSize held fast handle =>
    simp only [hpc] at hs h ⊢
    obtain rfl := Option.some.inj hs
    exact ⟨_, rfl, h, .inl rfl⟩
  | copy held fast handle size got =>
    simp only [hpc] at hs h ⊢
    by_cases hmore : got.length < size
    · rw [if_pos hmore] at hs
      split_ifs at hs with halloc
      obtain rfl := Option.some.inj hs
      exact ⟨_, rfl, h, .inl rfl⟩
    · rw [if_neg hmore] at hs
      obtain rfl := Option.some.inj hs
      exact ⟨_, rfl, h, .inl rfl⟩
  | unlock held fast result =>
    simp only [hpc] at hs h ⊢
    cases result <;> obtain rfl := Option.some.inj hs
    · exact ⟨_, rfl, Nat.le_of_lt h, .inl rfl⟩
    · exact ⟨_, rfl, h, .inl rfl⟩
  | returned fast memblock =>
    simp only [hpc] at hs h ⊢
    by_cases hempty : memblock.isEmpty
    · simp only [hempty, if_true] at hs ⊢
      obtain rfl := Option.some.inj hs
      exact ⟨_, rfl, Nat.le_of_lt h, .inl rfl⟩
    · simp only [hempty] at hs ⊢
      obtain rfl := Option.some.inj hs
      refine ⟨_, rfl, ?_, rfl, u32_eq (by omega)⟩
      show u32 ((s.subs j).counter + 1) ≤ s.accepted.length
      rw [u32_eq (by omega)]
      exact h

def Keeps (s : World n m) (j : Fin m) (ps : List Nat) : Prop :=
  (s.subs j).counter = following 0 ps ∨ following 0 ps + queueSize / 2 ≤ (s.subs j).counter

theorem Keeps.subs {ps : List Nat} (h : s.Keeps j ps) (hsubs : s'.subs j = s.subs j) :
    s'.Keeps j ps := by
  unfold Keeps at h ⊢
  rw [hsubs]
  exact h

structure Delivered (s : World n m) (j : Fin m) (ds : List Delivery) : Prop where
  order : Succession 0 (ds.map Delivery.position)
  bound : ∀ d ∈ ds, d.position < s.accepted.length
  fast : ∀ d ∈ ds, d.fast = true → ∃ msg, s.Published d.position msg ∧
    d.memblock.size = msg.size ∧ d.memblock.bytes = msg.bytes

theorem stepPub_accepted {i : Fin n} (hs : s.stepPub i = some s') :
    s'.calls = s.calls ∧ s.accepted <+: s'.accepted := by
  unfold stepPub at hs
  cases hpc : s.pubs i with
  | idle | aborted =>
    rw [hpc] at hs
    cases hs
  | checkMemory w =>
    simp only [hpc] at hs
    split_ifs at hs <;> obtain rfl := Option.some.inj hs <;> exact ⟨rfl, List.prefix_refl _⟩
  | lock w q p =>
    simp only [hpc, Option.map_eq_some_iff] at hs
    obtain ⟨lk, -, rfl⟩ := hs
    exact ⟨rfl, List.prefix_refl _⟩
  | alloc w q | free w old =>
    simp only [hpc] at hs
    split at hs <;> obtain rfl := Option.some.inj hs <;> exact ⟨rfl, List.prefix_refl _⟩
  | readCounter w | copy w q p | readOld w q p | setHandle w q p old | setSize w q old
  | setEmpty w q old | unlock w q old =>
    simp only [hpc] at hs
    obtain rfl := Option.some.inj hs
    exact ⟨rfl, List.prefix_refl _⟩
  | incCounter w =>
    simp only [hpc] at hs
    obtain rfl := Option.some.inj hs
    exact ⟨rfl, List.prefix_append _ _⟩

theorem Published.step {k : Nat} {msg : Memblock} (h : s.Published k msg)
    (hs : s.step alloc l = some s') : s'.Published k msg := by
  obtain ⟨id, hid, hmsg⟩ := h
  have hget : ∀ {A : Type} {xs ys : List A} {i : Nat} {x : A}, xs <+: ys → xs[i]? = some x →
      ys[i]? = some x := by
    rintro A xs - i x ⟨rest, rfl⟩ hx
    rw [List.getElem?_append_left (List.getElem?_eq_some_iff.mp hx).1, hx]
  cases l with
  | write i memblock =>
    obtain ⟨-, -, rfl⟩ := start_some hs
    exact ⟨id, hid, hget (List.prefix_append _ _) hmsg⟩
  | publisher i =>
    obtain ⟨hcalls, haccepted⟩ := stepPub_accepted hs
    exact ⟨id, hget haccepted hid, hcalls ▸ hmsg⟩
  | subscriber j =>
    obtain ⟨-, hcalls, haccepted, -⟩ := stepSub_locks hs
    exact ⟨id, haccepted ▸ hid, hcalls ▸ hmsg⟩

theorem Delivered.step {ds : List Delivery} (h : s.Delivered j ds)
    (hs : s.step alloc l = some s') : s'.Delivered j ds := by
  refine ⟨h.order, fun d hd => Nat.lt_of_lt_of_le (h.bound d hd) (accepted_le hs), ?_⟩
  intro d hd hfast
  obtain ⟨msg, hmsg, hsame⟩ := h.fast d hd hfast
  exact ⟨msg, hmsg.step hs, hsame⟩

theorem Delivered.snoc {ds : List Delivery} {d : Delivery} (h : s.Delivered j ds)
    (hkeeps : s.Keeps j (ds.map Delivery.position)) (hread : s.Consistent true j)
    (hplaced : (s.subs j).Placed s.accepted.length) (hd : (s.subs j).handed = some d) :
    s.Delivered j (ds ++ [d]) := by
  unfold Reader.handed at hd
  cases hpc : (s.subs j).pc with
  | returned fast memblock =>
    simp only [hpc] at hd
    split_ifs at hd
    obtain rfl := Option.some.inj hd
    have hlt : (s.subs j).counter < s.accepted.length := by
      simpa only [Reader.Placed, hpc] using hplaced
    refine ⟨?_, ?_, ?_⟩
    · rw [List.map_append]
      exact h.order.snoc hkeeps
    · simpa only [List.forall_mem_append, List.forall_mem_singleton] using ⟨h.bound, hlt⟩
    · simp only [List.forall_mem_append, List.forall_mem_singleton]
      refine ⟨h.fast, ?_⟩
      rintro rfl
      exact hread.returned memblock hpc
  | _ => simp [hpc] at hd

theorem deliveries_step {ds : List Delivery} (hcounter : s.topic.counter = s.accepted.length)
    (hlt : s'.accepted.length < 2 ^ 32) (hplaced : (s.subs j).Placed s.accepted.length)
    (hkeeps : s.Keeps j (ds.map Delivery.position)) (hdelivered : s.Delivered j ds)
    (hread : s.Consistent true j) (hs : s.step alloc l = some s') :
    (s'.subs j).Placed s'.accepted.length ∧
    s'.Keeps j ((ds ++ (s.handed j l).toList).map Delivery.position) ∧
    s'.Delivered j (ds ++ (s.handed j l).toList) := by
  have hle := accepted_le hs
  have hmoved : (s'.subs j = s.subs j ∧ s.handed j l = none) ∨ l = .subscriber j := by
    cases l with
    | write i memblock =>
      obtain ⟨-, -, rfl⟩ := start_some hs
      exact .inl ⟨rfl, rfl⟩
    | publisher i =>
      obtain ⟨hsubs, -⟩ := stepPub_locks hs
      exact .inl ⟨by rw [hsubs], rfl⟩
    | subscriber k =>
      by_cases hkj : k = j
      · exact .inr (hkj ▸ rfl)
      · obtain ⟨-, -, -, -, r, hsubs, -⟩ := stepSub_locks hs
        exact .inl ⟨by rw [hsubs, Function.update_of_ne (Ne.symm hkj)], if_neg hkj⟩
  rcases hmoved with ⟨hsubs, hnone⟩ | rfl
  · rw [hnone, Option.toList_none, List.append_nil, hsubs]
    exact ⟨hplaced.mono hle, hkeeps.subs hsubs, hdelivered.step hs⟩
  · obtain ⟨-, -, haccepted, -⟩ := stepSub_locks hs
    obtain ⟨r, hsubs, hr, hmove⟩ := stepSub_placed hcounter (by omega) hplaced hs
    have hself : s'.subs j = r := by rw [hsubs, Function.update_self]
    have hhanded : s.handed j (.subscriber j) = (s.subs j).handed := if_pos rfl
    rw [hself, haccepted, hhanded]
    refine ⟨hr, ?_⟩
    cases hd : (s.subs j).handed with
    | none =>
      rw [hd] at hmove
      rw [Option.toList_none, List.append_nil]
      refine ⟨?_, hdelivered.step hs⟩
      have hhalf : queueSize / 2 = 512 := rfl
      unfold Keeps at hkeeps ⊢
      rw [hself]
      simp only at hmove
      omega
    | some d =>
      rw [hd] at hmove
      obtain ⟨-, hnext⟩ := hmove
      refine ⟨.inl ?_, (hdelivered.snoc hkeeps hread hplaced hd).step hs⟩
      rw [Option.toList_some, List.map_append, List.map_singleton, following_snoc, hself, hnext]

/-- Subscribers beside publishers that respect the exclusion: the positions a subscriber
delivers increase, one by one or by half a queue and more at a time, and are all published; and
on the fast path it delivers the very message published there. -/
theorem deliveries_in_order {heapBase : Nat} (hdvd : 4 ∣ bufferSize) (hle : 8 ≤ bufferSize)
    (hlim : bufferSize + 1 < 2 ^ 32) (hspace : heapBase + bufferSize ≤ 2 ^ 64)
    (h : Machine.Run (step alloc) Exclusive (new heapBase bufferSize) labels s)
    (hlt : s.accepted.length < 2 ^ 32) (j : Fin m) :
    s.Delivered j (deliveries alloc j (new heapBase bufferSize) labels) ∧
    ((deliveries alloc j (new heapBase bufferSize) labels).map Delivery.position).Pairwise
      (· < ·) := by
  have hall : (s.subs j).Placed s.accepted.length ∧
      s.Keeps j ((deliveries alloc j (new heapBase bufferSize) labels).map Delivery.position) ∧
      s.Delivered j (deliveries alloc j (new heapBase bufferSize) labels) := by
    induction h with
    | nil => exact ⟨Nat.le_refl 0, .inl rfl, trivial, nofun, nofun⟩
    | @snoc labels t l t' hpre hok hs ih =>
      have hlt' := Nat.lt_of_le_of_lt (accepted_le hs) hlt
      obtain ⟨hplaced, hkeeps, hdelivered⟩ := ih hlt'
      have hrun : Machine.Run (step alloc)
          (fun t l => t.Exclusive l ∧ (false = true → t.JumpSafe l)) (new heapBase bufferSize)
          labels t := hpre.weaken fun _ _ hok => ⟨hok, nofun⟩
      obtain ⟨-, hist, v, hsound, hinformed⟩ :=
        informed_of_run (P := fun fast => fast = true) hdvd hle hlim hspace hrun hlt'
      rw [deliveries_snoc hpre.run_eq hs]
      exact deliveries_step hsound.counter hlt hplaced hkeeps hdelivered
        (hinformed.consistent hsound rfl j) hs
  exact ⟨hall.2.2, hall.2.2.order.sorted⟩

def deliveryLabels (i : Fin n) (j : Fin m) : List (Label n m) :=
  .write i (.ofData [1, 2]) :: List.replicate 12 (.publisher i) ++ List.replicate 8 (.subscriber j) ++
    .write i (.ofData [3]) :: List.replicate 12 (.publisher i) ++ List.replicate 17 (.subscriber j)

theorem deliveries_in_order_two : ∃ s : World 1 1,
    Machine.runIf (step fun _ => true) alone (new 4096 64) (deliveryLabels 0 0) = some s ∧
    deliveries (fun _ => true) (0 : Fin 1) (new 4096 64) (deliveryLabels (0 : Fin 1) 0) =
      [⟨0, true, ⟨some [1, 2], 2, true⟩⟩, ⟨1, true, ⟨some [3], 1, true⟩⟩] ∧
    s.Delivered 0
      (deliveries (fun _ => true) (0 : Fin 1) (new 4096 64) (deliveryLabels (0 : Fin 1) 0)) := by
  obtain ⟨s, hs, haccepted⟩ : ∃ s : World 1 1,
      Machine.runIf (step fun _ => true) alone (new 4096 64) (deliveryLabels 0 0) = some s ∧
      s.accepted = [0, 1] := by
    have hrun : (Machine.runIf (step fun _ => true) alone (new 4096 64 : World 1 1)
        (deliveryLabels 0 0)).map World.accepted = some [0, 1] := by decide +kernel
    simpa [Option.map_eq_some_iff] using hrun
  have horder := deliveries_in_order (by decide) (by decide) (by decide) (by decide)
    (Machine.Run.of_runIf exclusive_of_alone hs) (by rw [haccepted]; decide) 0
  exact ⟨s, hs, by decide +kernel, horder.1⟩

end World

end Shadesmar.PubSub.Interleaving
