import Shadesmar.Library.Trace
import Shadesmar.PubSub.Wrap

namespace Shadesmar.PubSub

open Library Shadesmar.Memory

namespace Subscriber

/-- `Subscriber(Subscriber &&other)`: the callback, whose calls are `delivered`, and the topic
are taken over; `counter_` has the value of its initialiser. -/
def move (other : Subscriber) : Subscriber := { new with delivered := other.delivered }

def invocation (alloc : Nat → Bool) (t : Topic) (s : Subscriber) : Option Memblock :=
  match s.getMessage alloc t with
  | (memblock, _) => if memblock.isEmpty then none else some memblock

end Subscriber

/-- The position in the sequence of messages, and with it the message, that the next call of
`get_message` chooses for a subscriber whose `counter_` is `pos`. -/
def selected (accepted : List (List UInt8)) (pos : Nat) : Option (List UInt8) :=
  let c := u32 accepted.length
  if c ≤ pos then none else accepted[accepted.length - (c - target c pos)]?

section Select

variable {t : Topic} {accepted : List (List UInt8)} {hist : List Entry} {alloc : Nat → Bool}

theorem recent_spec {n pos : Nat} (h : pos < u32 n) :
    n - (u32 n - pos) < n ∧ n - (n - (u32 n - pos)) < 2 ^ 32 ∧ pos = u32 (n - (u32 n - pos)) ∧
      target n (n - (u32 n - pos)) = n - (u32 n - target (u32 n) pos) := by
  unfold target queueSize
  unfold u32 at *
  refine ⟨by omega, by omega, by omega, ?_⟩
  split_ifs <;> omega

theorem Carries.getMessage (h : Carries t accepted hist) (s : Subscriber) :
    (s.getMessage alloc t).1 = ((selected accepted s.counter).map (copied alloc)).getD .null := by
  unfold selected
  rw [← h.length, ← h.counter]
  dsimp only
  by_cases hold : t.counter ≤ s.counter
  · rw [if_pos hold]
    simp [Subscriber.getMessage, hold]
  · have hnew := Nat.lt_of_not_le hold
    obtain ⟨hk, hlag, hpos, htarget⟩ := recent_spec (h.counter ▸ hnew)
    obtain ⟨-, hbelow, -⟩ := target_spec hk
    have hr := List.getElem?_eq_getElem hbelow
    rw [if_neg hold, h.window.getMessage alloc h.counter hk hlag s hpos hnew hr, h.counter, ← htarget,
      ← h.msgs, List.getElem?_map, hr]
    rfl

theorem copied_injective (halloc : ∀ n, alloc n = true) : Function.Injective (copied alloc) := by
  intro data data' heq
  rw [copied_eq halloc, copied_eq halloc] at heq
  exact Option.some.inj (congrArg Memblock.ptr heq)

theorem getD_copied_injective (halloc : ∀ n, alloc n = true) {o o' : Option (List UInt8)}
    (h : (o.map (copied alloc)).getD .null = (o'.map (copied alloc)).getD .null) : o = o' := by
  have hnull : ∀ data, copied alloc data ≠ .null := by
    intro data heq
    rw [copied_eq halloc] at heq
    cases congrArg Memblock.ptr heq
  cases o with
  | none =>
    cases o' with
    | none => rfl
    | some data => exact absurd h.symm (hnull data)
  | some data =>
    cases o' with
    | none => exact absurd h (hnull data)
    | some data' => exact congrArg some (copied_injective halloc h)

theorem Carries.invocation (h : Carries t accepted hist) (halloc : ∀ n, alloc n = true)
    (s : Subscriber) :
    s.invocation alloc t = (selected accepted s.counter).map (copied alloc) := by
  unfold Subscriber.invocation
  dsimp only
  rw [h.getMessage]
  cases selected accepted s.counter with
  | none => rfl
  | some data => simp [copied_eq halloc, Memblock.isEmpty]

end Select

namespace Bus

variable {n m : Nat}

/-- The turns of the bus, and calls of `get_message` by the user of a subscriber. -/
inductive Call (n m : Nat)
  | turn (turn : Turn n m)
  | getMessage (j : Fin m)

/-- What a call shows: the result of `publish`, what `spin_once` gives to the callback, or the
result of `get_message`. -/
inductive Outcome
  | published (accepted : Bool)
  | spun (invocation : Option Memblock)
  | got (memblock : Memblock)
  deriving DecidableEq

def call (alloc : Nat → Bool) (fuel : Nat) (s : Bus m) : Call n m → Option (Bus m)
  | .turn turn => s.step alloc fuel turn
  | .getMessage j =>
    some { s with subs := Function.update s.subs j ((s.subs j).getMessage alloc s.topic).2 }

/-- `none` for a call that does not return. -/
def outcome (alloc : Nat → Bool) (fuel : Nat) (s : Bus m) : Call n m → Option Outcome
  | .turn (.publish _ data) =>
    match publish fuel s.topic data with
    | .ok (some (accepted, _)) => some (.published accepted)
    | _ => none
  | .turn (.spinOnce j) => some (.spun ((s.subs j).invocation alloc s.topic))
  | .getMessage j => some (.got ((s.subs j).getMessage alloc s.topic).1)

def move (s : Bus m) (j : Fin m) : Bus m :=
  { s with subs := Function.update s.subs j (s.subs j).move }

def Call.reads (j : Fin m) (l : Call n m) : Prop := l = .turn (.spinOnce j) ∨ l = .getMessage j

def SameNext (j : Fin m) (p : Bus m × Bus m) (l : Call n m) : Prop :=
  l.reads j → selected p.1.accepted (p.1.subs j).counter =
    selected p.2.accepted (p.2.subs j).counter

structure Alike (j : Fin m) (s t : Bus m) : Prop where
  topic : t.topic = s.topic
  accepted : t.accepted = s.accepted
  subs : ∀ i, i ≠ j → t.subs i = s.subs i
  carries : ∃ hist, Carries s.topic s.accepted hist

variable {alloc : Nat → Bool} {fuel : Nat} {s s' t t' : Bus m} {l : Call n m} {j : Fin m}

theorem Alike.setSub (h : s.Alike j t) (i : Fin m) {a b : Subscriber} (hab : i ≠ j → b = a) :
    Alike j { s with subs := Function.update s.subs i a }
      { t with subs := Function.update t.subs i b } := by
  refine ⟨h.topic, h.accepted, fun i' hi' => ?_, h.carries⟩
  by_cases hself : i' = i
  · subst hself
    simp [hab hi']
  · simpa [hself] using h.subs i' hi'

theorem Alike.call (h : s.Alike j t) (hs : s.call alloc (fuel + 1) l = some s')
    (ht : t.call alloc (fuel + 1) l = some t') : s'.Alike j t' := by
  cases l with
  | getMessage i =>
    obtain rfl := Option.some.inj hs
    obtain rfl := Option.some.inj ht
    exact h.setSub i fun hi => by rw [h.topic, h.subs i hi]
  | turn turn =>
    cases turn with
    | spinOnce i =>
      obtain rfl := Option.some.inj hs
      obtain rfl := Option.some.inj ht
      exact h.setSub i fun hi => by rw [h.topic, h.subs i hi]
    | publish i data =>
      obtain ⟨htopic, haccepted, hsubs, hist, hc⟩ := h
      rw [Bus.call, step] at hs ht
      rw [htopic] at ht
      rcases hc.publish data fuel with hrefused | ⟨t₁, r, rfl, hsome, hc'⟩
      · rw [hrefused] at hs ht
        obtain rfl := Option.some.inj hs
        obtain rfl := Option.some.inj ht
        exact ⟨rfl, haccepted, hsubs, hist, hc⟩
      · rw [hsome] at hs ht
        obtain rfl := Option.some.inj hs
        obtain rfl := Option.some.inj ht
        exact ⟨rfl, congrArg (· ++ [r.msg]) haccepted, hsubs, _, hc'⟩

theorem Alike.outcome_eq (h : s.Alike j t) (hsame : SameNext j (s, t) l) :
    s.outcome alloc fuel l = t.outcome alloc fuel l := by
  obtain ⟨htopic, haccepted, hsubs, hist, hc⟩ := h
  have hget : ∀ i, l.reads i → ((s.subs i).getMessage alloc s.topic).1 =
      ((t.subs i).getMessage alloc t.topic).1 := by
    intro i hreads
    by_cases hi : i = j
    · subst hi
      have hselected := hsame hreads
      rw [htopic, hc.getMessage, hc.getMessage, hselected, haccepted]
    · rw [htopic, hsubs i hi]
  cases l with
  | getMessage i => simp only [outcome, hget i (.inr rfl)]
  | turn turn =>
    cases turn with
    | publish i data => simp only [outcome, htopic]
    | spinOnce i => simp only [outcome, Subscriber.invocation, hget i (.inl rfl)]

theorem Alike.sameNext (h : s.Alike j t) (halloc : ∀ n, alloc n = true)
    (heq : s.outcome alloc fuel l = t.outcome alloc fuel l) : SameNext j (s, t) l := by
  obtain ⟨htopic, haccepted, hsubs, hist, hc⟩ := h
  have hinj := Option.map_injective (copied_injective halloc)
  dsimp only [SameNext]
  rw [haccepted]
  rintro (rfl | rfl)
  · simp only [outcome, htopic, hc.invocation halloc, Option.some.injEq, Outcome.spun.injEq] at heq
    exact hinj heq
  · simp only [outcome, htopic, hc.getMessage, Option.some.injEq, Outcome.got.injEq] at heq
    exact getD_copied_injective halloc heq

theorem Alike.refl {hist : List Entry} (h : Carries s.topic s.accepted hist) (j : Fin m) :
    s.Alike j s := ⟨rfl, rfl, fun _ _ => rfl, hist, h⟩

theorem alike_move {hist : List Entry} (h : Carries s.topic s.accepted hist) (j : Fin m) :
    s.Alike j (s.move j) :=
  ⟨rfl, rfl, fun _ hi => Function.update_of_ne hi .., hist, h⟩

theorem carries_of_run {heapBase bufferSize : Nat} (hdvd : 4 ∣ bufferSize) (hle : 8 ≤ bufferSize)
    (hlim : bufferSize + 1 < 2 ^ 32) (hspace : heapBase + bufferSize ≤ 2 ^ 64)
    {calls : List (Call n m)}
    (h : Machine.run (call alloc (fuel + 1)) (new heapBase bufferSize) calls = some s) (j : Fin m) :
    ∃ hist, Carries s.topic s.accepted hist := by
  apply (Machine.Run.of_run h).invariant (fun t : Bus m => ∃ hist, Carries t.topic t.accepted hist)
    ⟨[], .new ⟨hdvd, hle, Nat.le_of_lt (Nat.lt_of_succ_lt hlim), hspace⟩ hlim⟩
  rintro t l t' ⟨hist, hc⟩ - hs
  exact ((Alike.refl hc j).call hs hs).carries

def ShowsSame (alloc : Nat → Bool) (fuel : Nat) (s : Bus m) (j : Fin m) (calls : List (Call n m)) :
    Prop :=
  Machine.trace (call alloc fuel) (outcome alloc fuel) s calls =
    Machine.trace (call alloc fuel) (outcome alloc fuel) (s.move j) calls

def SelectsSame (alloc : Nat → Bool) (fuel : Nat) (s : Bus m) (j : Fin m) (calls : List (Call n m)) :
    Prop :=
  ∃ p, Machine.Run (Machine.both (call alloc fuel)) (SameNext j) (s, s.move j) calls p

theorem shows_same {heapBase bufferSize : Nat} (hdvd : 4 ∣ bufferSize) (hle : 8 ≤ bufferSize)
    (hlim : bufferSize + 1 < 2 ^ 32) (hspace : heapBase + bufferSize ≤ 2 ^ 64)
    {before after : List (Call n m)}
    (h : Machine.run (call alloc (fuel + 1)) (new heapBase bufferSize) before = some s)
    (hafter : Machine.run (call alloc (fuel + 1)) s after = some s') (j : Fin m) :
    (s.SelectsSame alloc (fuel + 1) j after → s.ShowsSame alloc (fuel + 1) j after) ∧
    ((∀ n, alloc n = true) → s.ShowsSame alloc (fuel + 1) j after →
      s.SelectsSame alloc (fuel + 1) j after) := by
  obtain ⟨hist, hc⟩ := carries_of_run hdvd hle hlim hspace h j
  have halike := alike_move hc j
  constructor
  · rintro ⟨p, hboth⟩
    apply Machine.trace_eq_of_run (fun p => p.1.Alike j p.2) (SameNext j) _ halike hboth
    intro s t l s' t' hst hsame hs ht
    exact ⟨hst.outcome_eq hsame, hst.call hs ht⟩
  · intro halloc heq
    obtain ⟨t', hboth⟩ := Machine.run_of_trace_eq (fun p => p.1.Alike j p.2) (SameNext j)
      (fun s t l s' t' hst hout hs ht => ⟨hst.sameNext halloc hout, hst.call hs ht⟩)
      halike hafter heq
    exact ⟨_, hboth⟩

end Bus

end Shadesmar.PubSub
