import Shadesmar.PubSub.Publisher

/-! `pubsub/subscriber.h`, with publishers and subscribers taking turns.  The copier is
represented by the sizes for which its `alloc` returns a buffer. -/

namespace Shadesmar.PubSub

open Library Shadesmar.Memory

namespace Topic

/-- The macro `MOVE_ELEM`; `none` is its early `return false`. -/
def moveElem (alloc : Nat → Bool) (t : Topic) (q : Fin queueSize) (memblock : Memblock) :
    Option Memblock :=
  let e := t.elem q
  if e.empty then none
  else
    let dst := t.allocator.handleToPtr e.addressHandle
    some { memblock with
      size := e.size
      ptr := if alloc e.size then some (t.allocator.load dst e.size) else none }

def read (alloc : Nat → Bool) (t : Topic) (memblock : Memblock) (pos : Nat) :
    Bool × Memblock × Nat :=
  if queueSize > sub32 t.counter pos then
    match t.moveElem alloc (qPos pos) memblock with
    | none => (false, memblock, pos)
    | some memblock => (true, memblock, pos)
  else
    let pos := jumpahead t.counter queueSize
    match t.moveElem alloc (qPos pos) memblock with
    | none => (false, memblock, pos)
    | some memblock => (true, memblock, pos)

end Topic

/-- `delivered` lists the calls of the callback with the value `counter_` had at each. -/
structure Subscriber where
  counter : Nat
  delivered : List (Nat × Memblock)

namespace Subscriber

def new : Subscriber := ⟨0, []⟩

def getMessage (alloc : Nat → Bool) (t : Topic) (s : Subscriber) : Memblock × Subscriber :=
  if t.counter ≤ s.counter then (.null, s)
  else
    let counter :=
      if sub32 t.counter s.counter ≥ queueSize then jumpahead t.counter queueSize else s.counter
    match t.read alloc { Memblock.null with free := true } counter with
    | (false, _, counter) => (.null, { s with counter := counter })
    | (true, memblock, counter) => (memblock, { s with counter := counter })

/-- `spin_once` with a callback that leaves the message alone. -/
def spinOnce (alloc : Nat → Bool) (t : Topic) (s : Subscriber) : Subscriber :=
  match s.getMessage alloc t with
  | (memblock, s) =>
    if memblock.isEmpty then s
    else ⟨u32 (s.counter + 1), s.delivered ++ [(s.counter, memblock)]⟩

end Subscriber

section Wrap

theorem sub32_u32 {c k : Nat} (hle : k ≤ c) (hlag : c - k < 2 ^ 32) :
    sub32 (u32 c) (u32 k) = c - k := by
  unfold sub32 u32
  split_ifs <;> omega

theorem jumpahead_eq {c : Nat} (h : queueSize ≤ c) : jumpahead c queueSize = c - 512 := by
  unfold jumpahead
  rw [u32_eq (show queueSize / 2 < 2 ^ 32 by decide), sub32_eq]
  · rfl
  · unfold queueSize at *
    omega

theorem jumpahead_u32 {c : Nat} (h : queueSize ≤ c) :
    jumpahead (u32 c) queueSize = u32 (c - 512) := by
  unfold jumpahead
  rw [u32_eq (show queueSize / 2 < 2 ^ 32 by decide)]
  unfold sub32 u32 queueSize at *
  split_ifs <;> omega

end Wrap

section Read

variable {t : Topic} {hist : List Entry} {alloc : Nat → Bool} {r : Entry}

def copied (alloc : Nat → Bool) (data : List UInt8) : Memblock :=
  ⟨if alloc data.length then some data else none, data.length, true⟩

theorem copied_eq (halloc : ∀ n, alloc n = true) (data : List UInt8) :
    copied alloc data = ⟨some data, data.length, true⟩ := by
  simp only [copied, halloc, if_true]

theorem Window.moveElem
    (h : Window t hist (hist.length - queueSize) hist.length hist.length hist.length) {k : Nat}
    (hk : hist[k]? = some r) (hlap : hist.length ≤ k + queueSize) :
    t.moveElem alloc (qPos k) ⟨none, 0, true⟩ = some (copied alloc r.msg) := by
  have hlt := (List.getElem?_eq_some_iff.mp hk).1
  have hslot := h.slots k r hk hlap hlt
  have hload := (h.holds k r hk (by omega) hlt).load
  unfold Topic.moveElem
  rw [hslot]
  simp only [Entry.element, Allocator.handleToPtr_handle, hload]
  rfl

def target (c pos : Nat) : Nat := if c - pos < queueSize then pos else c - 512

theorem target_spec {c pos : Nat} (h : pos < c) :
    pos ≤ target c pos ∧ target c pos < c ∧ c < target c pos + queueSize := by
  unfold target queueSize
  split_ifs <;> omega

theorem Window.getMessage (alloc : Nat → Bool)
    (h : Window t hist (hist.length - queueSize) hist.length hist.length hist.length)
    (hcounter : t.counter = u32 hist.length) {k : Nat} (hk : k < hist.length)
    (hlag : hist.length - k < 2 ^ 32) (s : Subscriber) (hs : s.counter = u32 k)
    (hnew : s.counter < t.counter) (hr : hist[target hist.length k]? = some r) :
    s.getMessage alloc t = (copied alloc r.msg, { s with counter := u32 (target hist.length k) }) := by
  obtain ⟨-, hbelow, hlap⟩ := target_spec hk
  have hjump : (if sub32 t.counter s.counter ≥ queueSize then jumpahead t.counter queueSize
      else s.counter) = u32 (target hist.length k) := by
    rw [hcounter, hs, sub32_u32 (Nat.le_of_lt hk) hlag]
    unfold target
    by_cases hnear : hist.length - k < queueSize
    · rw [if_pos hnear, if_neg (Nat.not_le_of_lt hnear)]
    · rw [if_neg hnear, if_pos (Nat.le_of_not_lt hnear), jumpahead_u32 (by omega)]
  have hfast : queueSize > sub32 t.counter (u32 (target hist.length k)) := by
    rw [hcounter, sub32_u32 (Nat.le_of_lt hbelow) (by unfold queueSize at hlap; omega)]
    omega
  simp only [Subscriber.getMessage, if_neg (Nat.not_le_of_lt hnew), hjump, Topic.read,
    if_pos hfast, qPos_u32, h.moveElem hr (Nat.le_of_lt hlap), Memblock.null]

theorem Window.spinOnce
    (h : Window t hist (hist.length - queueSize) hist.length hist.length hist.length)
    (hcounter : t.counter = u32 hist.length) (halloc : ∀ n, alloc n = true) {k : Nat}
    (hk : k < hist.length) (hlag : hist.length - k < 2 ^ 32) (s : Subscriber)
    (hs : s.counter = u32 k) (hnew : s.counter < t.counter)
    (hr : hist[target hist.length k]? = some r) :
    s.spinOnce alloc t = ⟨u32 (target hist.length k + 1), s.delivered ++
      [(u32 (target hist.length k), ⟨some r.msg, r.msg.length, true⟩)]⟩ := by
  have hget := h.getMessage alloc hcounter hk hlag s hs hnew hr
  simp only [Subscriber.spinOnce, hget, copied_eq halloc, Memblock.isEmpty, Option.isNone_some, Bool.false_and,
    Bool.false_eq_true, if_false, u32_succ]

theorem spinOnce_of_le (alloc : Nat → Bool) {t : Topic} {s : Subscriber}
    (h : t.counter ≤ s.counter) : s.spinOnce alloc t = s := by
  simp [Subscriber.spinOnce, Subscriber.getMessage, h, Memblock.isEmpty, Memblock.null]

theorem Settled.spinOnce (h : Settled t hist) (halloc : ∀ n, alloc n = true)
    (hlt : hist.length < 2 ^ 32) (s : Subscriber) (hs : s.counter < hist.length)
    (hr : hist[target hist.length s.counter]? = some r) :
    s.spinOnce alloc t = ⟨target hist.length s.counter + 1,
      s.delivered ++ [(target hist.length s.counter, ⟨some r.msg, r.msg.length, true⟩)]⟩ := by
  obtain ⟨-, hbelow, -⟩ := target_spec hs
  have hspin := h.window.spinOnce (h.counter.trans (u32_eq hlt).symm) halloc hs (by omega) s
    (u32_eq (by omega)).symm (h.counter ▸ hs) hr
  rwa [u32_eq (by omega), u32_eq (by omega)] at hspin

theorem Settled.spinOnce_idle (h : Settled t hist) (s : Subscriber) (hs : s.counter = hist.length) :
    s.spinOnce alloc t = s := spinOnce_of_le alloc (by rw [h.counter, hs])

end Read

/-- `Publisher::publish`, with the free loop cut off after `fuel` tries. -/
def publish (fuel : Nat) (t : Topic) (data : List UInt8) : Checked (Option (Bool × Topic)) :=
  t.write fuel (.ofData data)

/-- A topic with its subscribers; `accepted` are the messages for which `publish` has
returned true. -/
structure Bus (m : Nat) where
  topic : Topic
  accepted : List (List UInt8)
  subs : Fin m → Subscriber

inductive Turn (n m : Nat)
  | publish (i : Fin n) (data : List UInt8)
  | spinOnce (j : Fin m)

namespace Bus

variable {n m : Nat}

def new (heapBase bufferSize : Nat) : Bus m := ⟨.new heapBase bufferSize, [], fun _ => .new⟩

def step (alloc : Nat → Bool) (fuel : Nat) (s : Bus m) : Turn n m → Option (Bus m)
  | .publish _ data =>
    match publish fuel s.topic data with
    | .ok (some (true, t)) => some { s with topic := t, accepted := s.accepted ++ [data] }
    | .ok (some (false, t)) => some { s with topic := t }
    | .ok none => none
    | .error _ => none
  | .spinOnce j =>
    some { s with subs := Function.update s.subs j ((s.subs j).spinOnce alloc s.topic) }

structure InOrder (accepted : List (List UInt8)) (sub : Subscriber) : Prop where
  counter_le : sub.counter ≤ accepted.length
  delivered_lt : ∀ d ∈ sub.delivered, d.1 < sub.counter
  increasing : sub.delivered.Pairwise fun d d' => d.1 < d'.1
  exact : ∀ d ∈ sub.delivered, ∃ data, accepted[d.1]? = some data ∧
    d.2 = ⟨some data, data.length, true⟩

namespace InOrder

variable {accepted : List (List UInt8)} {sub : Subscriber} {data : List UInt8} {k : Nat}

theorem publish (h : InOrder accepted sub) (data : List UInt8) : InOrder (accepted ++ [data]) sub := by
  refine ⟨?_, h.delivered_lt, h.increasing, ?_⟩
  · rw [List.length_append]
    exact Nat.le_add_right_of_le h.counter_le
  · intro d hd
    obtain ⟨msg, hmsg, heq⟩ := h.exact d hd
    refine ⟨msg, ?_, heq⟩
    rw [List.getElem?_append_left (List.getElem?_eq_some_iff.mp hmsg).1, hmsg]

theorem deliver (h : InOrder accepted sub) (hk : accepted[k]? = some data) (hle : sub.counter ≤ k) :
    InOrder accepted ⟨k + 1, sub.delivered ++ [(k, ⟨some data, data.length, true⟩)]⟩ := by
  refine ⟨(List.getElem?_eq_some_iff.mp hk).1, ?_, ?_, ?_⟩
  · intro d hd
    rcases List.mem_append.mp hd with hold | hnew
    · exact Nat.lt_succ_of_lt (Nat.lt_of_lt_of_le (h.delivered_lt d hold) hle)
    · obtain rfl := List.mem_singleton.mp hnew
      exact Nat.lt_succ_self k
  · rw [List.pairwise_append]
    refine ⟨h.increasing, List.pairwise_singleton _ _, ?_⟩
    intro d hd d' hd'
    obtain rfl := List.mem_singleton.mp hd'
    exact Nat.lt_of_lt_of_le (h.delivered_lt d hd) hle
  · intro d hd
    rcases List.mem_append.mp hd with hold | hnew
    · exact h.exact d hold
    · obtain rfl := List.mem_singleton.mp hnew
      exact ⟨data, hk, rfl⟩

end InOrder

structure Sound (s : Bus m) (hist : List Entry) : Prop where
  settled : Settled s.topic hist
  msgs : hist.map Entry.msg = s.accepted
  subs : ∀ j, InOrder s.accepted (s.subs j)

theorem Sound.length {s : Bus m} {hist : List Entry} (h : s.Sound hist) :
    hist.length = s.accepted.length := by
  simpa using congrArg List.length h.msgs

variable {s s' : Bus m} {hist : List Entry} {alloc : Nat → Bool} {fuel : Nat} {j : Fin m}

theorem sound_new {heapBase bufferSize : Nat} (h : (Allocator.new heapBase bufferSize).Sized)
    (hsmall : bufferSize + 1 < 2 ^ 32) : (new heapBase bufferSize : Bus m).Sound [] where
  settled := .new h hsmall
  msgs := rfl
  subs := fun _ =>
    ⟨Nat.le_refl _, fun _ hd => absurd hd List.not_mem_nil, .nil,
      fun _ hd => absurd hd List.not_mem_nil⟩

theorem Sound.spinOnce_cases (h : s.Sound hist) (halloc : ∀ n, alloc n = true)
    (hlt : s.accepted.length < 2 ^ 32) (j : Fin m) :
    ((s.subs j).counter = s.accepted.length ∧ (s.subs j).spinOnce alloc s.topic = s.subs j) ∨
    (s.subs j).counter < s.accepted.length ∧
      ∃ data, s.accepted[target s.accepted.length (s.subs j).counter]? = some data ∧
        (s.subs j).spinOnce alloc s.topic = ⟨target s.accepted.length (s.subs j).counter + 1,
          (s.subs j).delivered ++ [(target s.accepted.length (s.subs j).counter,
            ⟨some data, data.length, true⟩)]⟩ := by
  rw [← h.length] at hlt ⊢
  rcases Nat.lt_or_ge (s.subs j).counter hist.length with hnew | hold
  · obtain ⟨-, hbelow, -⟩ := target_spec hnew
    have hr := List.getElem?_eq_getElem hbelow
    refine .inr ⟨hnew, hist[target hist.length (s.subs j).counter].msg, ?_, ?_⟩
    · rw [← h.msgs, List.getElem?_map, hr]
      rfl
    · exact h.settled.spinOnce halloc hlt _ hnew hr
  · have heq : (s.subs j).counter = hist.length :=
      Nat.le_antisymm (h.length ▸ (h.subs j).counter_le) hold
    exact .inl ⟨heq, h.settled.spinOnce_idle _ heq⟩

theorem Sound.spinOnce (h : s.Sound hist) (halloc : ∀ n, alloc n = true)
    (hlt : s.accepted.length < 2 ^ 32) (j : Fin m) :
    Sound { s with subs := Function.update s.subs j ((s.subs j).spinOnce alloc s.topic) } hist := by
  refine ⟨h.settled, h.msgs, ?_⟩
  intro i
  by_cases hij : i = j
  · subst hij
    simp only [Function.update_self]
    rcases h.spinOnce_cases halloc hlt i with ⟨-, heq⟩ | ⟨hnew, data, hdata, heq⟩
    · rw [heq]
      exact h.subs i
    · rw [heq]
      exact (h.subs i).deliver hdata (target_spec hnew).1
  · simp only [Function.update_of_ne hij]
    exact h.subs i

theorem Sound.publish (h : s.Sound hist) {i : Fin n} {data : List UInt8}
    (hs : step alloc (fuel + 1) s (.publish i data) = some s')
    (hlt : s'.accepted.length < 2 ^ 32) : ∃ hist', s'.Sound hist' := by
  rw [step, PubSub.publish] at hs
  rcases h.settled.write (Memblock.filled_ofData data) fuel with
    ⟨hnone, -⟩ | ⟨b, t', -, hsome, hcount, -, hw⟩
  · rw [hnone] at hs
    obtain rfl := Option.some.inj hs
    exact ⟨hist, h⟩
  · rw [hsome] at hs
    obtain rfl := Option.some.inj hs
    rw [List.length_append, ← h.length] at hlt
    rw [Memblock.bytes_ofData] at hw
    refine ⟨hist ++ [⟨b, data⟩], Settled.incCounter hcount hlt hw, ?_, fun j => (h.subs j).publish data⟩
    rw [List.map_append, h.msgs]
    rfl

theorem accepted_le {l : Turn n m} (hs : step alloc fuel s l = some s') :
    s.accepted.length ≤ s'.accepted.length := by
  cases l with
  | publish i data =>
    rw [step] at hs
    split at hs
    · obtain rfl := Option.some.inj hs
      simp
    · obtain rfl := Option.some.inj hs
      exact Nat.le_refl _
    · cases hs
    · cases hs
  | spinOnce j =>
    obtain rfl := Option.some.inj hs
    exact Nat.le_refl _

structure Delivery (alloc : Nat → Bool) (s : Bus m) (j : Fin m) : Prop where
  counter : s.topic.counter = s.accepted.length
  inOrder : InOrder s.accepted (s.subs j)
  idle : (s.subs j).counter = s.topic.counter → ∀ n fuel,
    step (n := n) alloc fuel s (.spinOnce j) = some s
  next : (s.subs j).counter < s.topic.counter →
    s.topic.counter - (s.subs j).counter < queueSize →
    ∃ data, s.accepted[(s.subs j).counter]? = some data ∧
      (s.subs j).spinOnce alloc s.topic = ⟨(s.subs j).counter + 1,
        (s.subs j).delivered ++ [((s.subs j).counter, ⟨some data, data.length, true⟩)]⟩
  jump : queueSize ≤ s.topic.counter - (s.subs j).counter →
    ∃ data, s.accepted[s.topic.counter - 512]? = some data ∧
      (s.subs j).spinOnce alloc s.topic = ⟨s.topic.counter - 512 + 1,
        (s.subs j).delivered ++ [(s.topic.counter - 512, ⟨some data, data.length, true⟩)]⟩

theorem Sound.delivery (h : s.Sound hist) (halloc : ∀ n, alloc n = true)
    (hlt : s.accepted.length < 2 ^ 32) (j : Fin m) : s.Delivery alloc j := by
  have hcounter : s.topic.counter = s.accepted.length := h.settled.counter.trans h.length
  rcases h.spinOnce_cases halloc hlt j with ⟨hsame, heq⟩ | ⟨hnew, data, hdata, heq⟩
  · refine ⟨hcounter, h.subs j, ?_, ?_, ?_⟩
    · intro _ n fuel
      rw [step, heq, Function.update_eq_self]
    · intro hnew
      omega
    · intro hlag
      unfold queueSize at hlag
      omega
  · refine ⟨hcounter, h.subs j, ?_, ?_, ?_⟩
    · intro hsame
      omega
    · intro _ hlag
      rw [hcounter] at hlag
      rw [target, if_pos hlag] at hdata heq
      exact ⟨data, hdata, heq⟩
    · intro hlag
      rw [hcounter] at hlag ⊢
      rw [target, if_neg (Nat.not_lt_of_le hlag)] at hdata heq
      exact ⟨data, hdata, heq⟩

/-- Subscriber `j` is less than a lap behind when it looks for a message. -/
def KeepsUp (j : Fin m) (s : Bus m) (l : Turn n m) : Prop :=
  l = .spinOnce j → s.topic.counter - (s.subs j).counter < queueSize

def Gapless (s : Bus m) (j : Fin m) : Prop :=
  (s.subs j).delivered.map Prod.fst = List.range (s.subs j).counter

theorem Sound.gapless_spinOnce (h : s.Sound hist) (halloc : ∀ n, alloc n = true)
    (hlt : s.accepted.length < 2 ^ 32) (hlag : s.topic.counter - (s.subs j).counter < queueSize)
    (hj : s.Gapless j) :
    (((s.subs j).spinOnce alloc s.topic).delivered).map Prod.fst =
      List.range ((s.subs j).spinOnce alloc s.topic).counter := by
  have hcounter : s.topic.counter = s.accepted.length := h.settled.counter.trans h.length
  rcases h.spinOnce_cases halloc hlt j with ⟨-, heq⟩ | ⟨-, data, -, heq⟩
  · rw [heq]
    exact hj
  · rw [heq, target, ← hcounter, if_pos hlag]
    simp only [List.map_append, List.range_succ]
    rw [hj]
    rfl

variable {heapBase bufferSize : Nat} {turns : List (Turn n m)}

theorem sound_of_run (hdvd : 4 ∣ bufferSize) (hle : 8 ≤ bufferSize)
    (hlim : bufferSize + 1 < 2 ^ 32) (hspace : heapBase + bufferSize ≤ 2 ^ 64)
    (halloc : ∀ n, alloc n = true) {ok : Bus m → Turn n m → Prop}
    (h : Machine.Run (step alloc (fuel + 1)) ok (new heapBase bufferSize) turns s)
    (hlt : s.accepted.length < 2 ^ 32) : ∃ hist, s.Sound hist := by
  have hsized : (Allocator.new heapBase bufferSize).Sized :=
    ⟨hdvd, hle, Nat.le_of_lt (Nat.lt_of_succ_lt hlim), hspace⟩
  have hinv : s.accepted.length < 2 ^ 32 → ∃ hist, s.Sound hist := by
    apply h.invariant fun t => t.accepted.length < 2 ^ 32 → ∃ hist, t.Sound hist
    · exact fun _ => ⟨[], sound_new hsized hlim⟩
    · intro t l t' ih _ hs hlt'
      obtain ⟨hist, ht⟩ := ih (Nat.lt_of_le_of_lt (accepted_le hs) hlt')
      cases l with
      | publish i data => exact ht.publish hs hlt'
      | spinOnce j =>
        obtain rfl := Option.some.inj hs
        exact ⟨hist, ht.spinOnce halloc hlt' j⟩
  exact hinv hlt

theorem gapless_of_run (hdvd : 4 ∣ bufferSize) (hle : 8 ≤ bufferSize)
    (hlim : bufferSize + 1 < 2 ^ 32) (hspace : heapBase + bufferSize ≤ 2 ^ 64)
    (halloc : ∀ n, alloc n = true)
    (h : Machine.Run (step alloc (fuel + 1)) (KeepsUp j) (new heapBase bufferSize) turns s)
    (hlt : s.accepted.length < 2 ^ 32) : s.Gapless j := by
  induction h with
  | nil => rfl
  | @snoc _ t l t' hrun hok hs ih =>
    have hlt' := Nat.lt_of_le_of_lt (accepted_le hs) hlt
    obtain ⟨hist, ht⟩ := sound_of_run hdvd hle hlim hspace halloc hrun hlt'
    have hj := ih hlt'
    cases l with
    | publish i data =>
      have hsubs : t'.subs = t.subs := by
        rw [step] at hs
        split at hs <;> cases hs <;> rfl
      unfold Gapless
      rw [hsubs]
      exact hj
    | spinOnce i =>
      obtain rfl := Option.some.inj hs
      unfold Gapless
      by_cases hij : j = i
      · subst hij
        simp only [Function.update_self]
        exact ht.gapless_spinOnce halloc hlt' (hok rfl) hj
      · simp only [Function.update_of_ne hij]
        exact hj

/-- Subscribers are given messages in the order of acceptance, without gaps while they are
less than a lap behind, and from the middle of the window otherwise. -/
theorem delivered_in_order (hdvd : 4 ∣ bufferSize) (hle : 8 ≤ bufferSize)
    (hlim : bufferSize + 1 < 2 ^ 32) (hspace : heapBase + bufferSize ≤ 2 ^ 64)
    (halloc : ∀ n, alloc n = true)
    (h : Machine.run (step alloc (fuel + 1)) (new heapBase bufferSize) turns = some s)
    (hlt : s.accepted.length < 2 ^ 32) :
    ∀ j, s.Delivery alloc j ∧
      (Machine.Run (step alloc (fuel + 1)) (KeepsUp j) (new heapBase bufferSize) turns s →
        s.Gapless j) := by
  intro j
  obtain ⟨hist, hsound⟩ := sound_of_run hdvd hle hlim hspace halloc (Machine.Run.of_run h) hlt
  exact ⟨hsound.delivery halloc hlt j,
    fun hrun => gapless_of_run hdvd hle hlim hspace halloc hrun hlt⟩

theorem delivered_in_order_two_publishers : ∃ s : Bus 1, Machine.run (step (n := 2) (fun _ => true) 1)
    (new 4096 64) [.publish 0 [1, 2, 3], .spinOnce 0, .publish 1 [4], .spinOnce 0] = some s ∧
    (s.subs 0).delivered = [(0, ⟨some [1, 2, 3], 3, true⟩), (1, ⟨some [4], 1, true⟩)] ∧
    s.Delivery (fun _ => true) 0 := by
  obtain ⟨s, hs, hacc, hdel⟩ : ∃ s : Bus 1, Machine.run (step (n := 2) (fun _ => true) 1)
      (new 4096 64) [.publish 0 [1, 2, 3], .spinOnce 0, .publish 1 [4], .spinOnce 0] = some s ∧
      s.accepted.length = 2 ∧
      (s.subs 0).delivered = [(0, ⟨some [1, 2, 3], 3, true⟩), (1, ⟨some [4], 1, true⟩)] := by
    have hrun : (Machine.run (step (n := 2) (m := 1) (fun _ => true) 1) (new 4096 64)
        [.publish 0 [1, 2, 3], .spinOnce 0, .publish 1 [4], .spinOnce 0]).map
        (fun s => (s.accepted.length, (s.subs 0).delivered)) =
        some (2, [(0, ⟨some [1, 2, 3], 3, true⟩), (1, ⟨some [4], 1, true⟩)]) := by
      decide +kernel
    simpa [Option.map_eq_some_iff] using hrun
  exact ⟨s, hs, hdel, (delivered_in_order (by decide) (by decide) (by decide) (by decide)
    (fun _ => rfl) hs (by rw [hacc]; decide) 0).1⟩

end Bus

end Shadesmar.PubSub
