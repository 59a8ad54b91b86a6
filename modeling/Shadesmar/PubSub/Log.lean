import Shadesmar.Memory.Arena
import Shadesmar.Narrowing
import Shadesmar.PubSub.Capacity
import Shadesmar.PubSub.Moving
import Shadesmar.PubSub.Precheck

namespace Shadesmar.PubSub

open Library Library.Refinement Shadesmar.Memory

variable {n m : Nat}

def Bus.reply (alloc : Nat → Bool) (fuel : Nat) (s : Bus m) (l : Bus.Call n m) :
    Option (Bus.Outcome × Bus m) :=
  (s.outcome alloc fuel l).bind fun o => (s.call alloc fuel l).map (Prod.mk o)

structure Log (m : Nat) where
  arena : Arena
  accepted : List (List UInt8)
  counters : Fin m → Nat

namespace Log

def new (base words : Nat) : Log m := ⟨.new base words, [], fun _ => 0⟩

def shift (s : Log m) (b : Block) : Arena :=
  if s.accepted.length < queueSize then s.arena.push b else (s.arena.push b).popFirst

def setCounter (s : Log m) (j : Fin m) (c : Nat) : Log m :=
  { s with counters := Function.update s.counters j c }

/-- The counters of the code wrap, and are kept as they are. -/
def reply (alloc : Nat → Bool) (s : Log m) : Bus.Call n m → Option (Bus.Outcome × Log m)
  | .turn (.publish _ data) =>
    match s.arena.room data.length with
    | none => some (.published false, s)
    | some b =>
      some (.published true, { s with arena := s.shift b, accepted := s.accepted ++ [data] })
  | .turn (.spinOnce j) =>
    match selected s.accepted (s.counters j) with
    | none => some (.spun none, s)
    | some data =>
      let c := target (u32 s.accepted.length) (s.counters j)
      if (copied alloc data).isEmpty then some (.spun none, s.setCounter j c)
      else some (.spun (some (copied alloc data)), s.setCounter j (u32 (c + 1)))
  | .getMessage j =>
    match selected s.accepted (s.counters j) with
    | none => some (.got .null, s)
    | some data =>
      some (.got (copied alloc data),
        s.setCounter j (target (u32 s.accepted.length) (s.counters j)))

end Log

theorem Carries.getMessage_eq {t : Topic} {accepted : List (List UInt8)} {hist : List Entry}
    {alloc : Nat → Bool} (h : Carries t accepted hist) (s : Subscriber) :
    s.getMessage alloc t =
      match selected accepted s.counter with
      | none => (.null, s)
      | some data =>
        (copied alloc data, { s with counter := target (u32 accepted.length) s.counter }) := by
  unfold selected
  rw [← h.length]
  dsimp only
  by_cases hold : u32 hist.length ≤ s.counter
  · rw [if_pos hold]
    simp [Subscriber.getMessage, h.counter, hold]
  · have hnew := Nat.lt_of_not_le hold
    obtain ⟨hk, hlag, hpos, htarget⟩ := recent_spec hnew
    obtain ⟨-, hbelow, -⟩ := target_spec hk
    obtain ⟨-, hlow, -⟩ := target_spec hnew
    obtain ⟨r, hr⟩ : ∃ r, hist[target hist.length (hist.length - (u32 hist.length - s.counter))]? =
        some r := ⟨_, List.getElem?_eq_getElem hbelow⟩
    have hcounter : u32 (target hist.length (hist.length - (u32 hist.length - s.counter))) =
        target (u32 hist.length) s.counter := by
      rw [htarget]
      unfold u32 at *
      omega
    rw [if_neg hold, h.window.getMessage alloc h.counter hk hlag s hpos (h.counter ▸ hnew) hr,
      hcounter, ← h.msgs, List.getElem?_map, ← htarget, hr]
    rfl

structure Log.Reflects (l : Log m) (s : Bus m) : Prop where
  carried : ∃ hist, Carries s.topic s.accepted hist ∧
    l.arena.Outlines s.topic.allocator ((hist.drop (hist.length - queueSize)).map Entry.block)
  accepted : l.accepted = s.accepted
  counters : ∀ j, l.counters j = (s.subs j).counter

namespace Log.Reflects

variable {l : Log m} {s : Bus m} {j : Fin m} {alloc : Nat → Bool} {fuel : Nat}

theorem shift {hist : List Entry} {t t' : Topic} {r : Entry}
    (h : l.arena.Outlines t.allocator ((hist.drop (hist.length - queueSize)).map Entry.block))
    (hlen : l.accepted.length = hist.length)
    (hring : (t.allocator.push r.block).Ring
      ((hist.drop (hist.length - queueSize)).map Entry.block ++ [r.block]))
    (hring' : t'.allocator.Ring
      (((hist ++ [r]).drop ((hist ++ [r]).length - queueSize)).map Entry.block))
    (hbase : t'.allocator.heapBase = t.allocator.heapBase)
    (hsize : t'.allocator.size = t.allocator.size) :
    (l.shift r.block).Outlines t'.allocator
      (((hist ++ [r]).drop ((hist ++ [r]).length - queueSize)).map Entry.block) := by
  have hpush := h.push hring
  have hsnoc := Entry.blocks_snoc (Nat.sub_le hist.length queueSize) r
  have hlength : (hist ++ [r]).length = hist.length + 1 := List.length_append
  rw [← hsnoc] at hpush
  rw [hlength] at hring' ⊢
  have hne : ((hist ++ [r]).drop (hist.length + 1 - queueSize)).map Entry.block ≠ [] := by
    rw [Entry.blocks_snoc (by unfold queueSize; omega)]
    simp
  unfold Log.shift
  rw [hlen]
  by_cases hlap : hist.length < queueSize
  · have hsame : hist.length + 1 - queueSize = hist.length - queueSize := by omega
    rw [if_pos hlap]
    rw [hsame] at hring' hne ⊢
    exact hpush.of_ring hring' hne hbase hsize
  · have hold : hist.length - queueSize < (hist ++ [r]).length := by omega
    have holdest := Entry.blocks_oldest (Nat.le_of_not_lt hlap) (List.getElem?_eq_getElem hold)
    rw [holdest] at hpush
    rw [if_neg hlap]
    exact hpush.popFirst.of_ring hring' hne hbase hsize

theorem publish (h : l.Reflects s) (i : Fin n) (data : List UInt8) :
    Option.Rel (Agree fun s l => l.Reflects s) (s.reply alloc (fuel + 1) (.turn (.publish i data)))
      (l.reply alloc (.turn (.publish i data))) := by
  obtain ⟨⟨hist, hc, hout⟩, hacc, hcounters⟩ := h
  have hrest : Resting s.topic hist := ⟨hc.window, hc.counter⟩
  have hsized := hout.ring.sized
  have hindexed : s.topic.allocator.Indexed s.topic.allocator.heapBase s.topic.allocator.size :=
    ⟨rfl, rfl, Nat.le_of_lt hout.ring.alloc_lt, Nat.le_of_lt hout.ring.free_lt⟩
  have hroom := hout.room_eq data.length
  rcases hrest.write (Memblock.filled_ofData data) fuel with
    ⟨hrefused, hwrite⟩ | ⟨htakes, t', hwrite, hsize, hrest'⟩
  · have hnone : l.arena.room data.length = none := by
      rw [hroom]
      exact if_neg hrefused
    simp only [Bus.reply, Bus.outcome, Bus.call, Bus.step, PubSub.publish, hwrite, Log.reply, hnone]
    exact .some ⟨rfl, ⟨hist, hc, hout⟩, hacc, hcounters⟩
  · have hsome : l.arena.room data.length = some (s.topic.allocator.candidate (data.length / 4 + 1)) := by
      rw [hroom]
      exact if_pos htakes
    simp only [Bus.reply, Bus.outcome, Bus.call, Bus.step, PubSub.publish, hwrite, Log.reply, hsome]
    have hidx := (Topic.write_records hsized.inSpace hindexed hwrite).1
    refine .some ⟨rfl, ⟨_, ⟨hrest'.window, hrest'.counter, ?_⟩, ?_⟩, ?_, hcounters⟩
    · simp [hc.msgs]
    · have hring := hout.ring.push htakes.2.2 (Nat.succ_pos _) (by
        have hw := hsized.words_mul
        have hlimit := htakes.2.1
        simp only [Memblock.size_ofData] at hlimit ⊢
        omega)
      refine shift hout ?_ hring hrest'.window.ring hidx.heapBase_eq hidx.size_eq
      rw [hacc, hc.length]
    · exact congrArg (· ++ [data]) hacc

theorem setSub (h : l.Reflects s) (j : Fin m) (sub : Subscriber) :
    (l.setCounter j sub.counter).Reflects { s with subs := Function.update s.subs j sub } := by
  refine ⟨h.carried, h.accepted, fun i => ?_⟩
  by_cases hi : i = j
  · subst hi
    simp [setCounter]
  · simpa [setCounter, hi] using h.counters i

theorem getMessage (h : l.Reflects s) (j : Fin m) :
    Option.Rel (Agree fun s l => l.Reflects s)
      (s.reply (n := n) alloc (fuel + 1) (.getMessage j)) (l.reply (n := n) alloc (.getMessage j)) := by
  obtain ⟨hist, hc, hout⟩ := h.carried
  have hget : (s.subs j).getMessage alloc s.topic = _ := hc.getMessage_eq (s.subs j)
  simp only [Bus.reply, Bus.outcome, Bus.call, Log.reply, Option.bind_some, Option.map_some, hget,
    h.accepted, h.counters j]
  cases selected s.accepted (s.subs j).counter with
  | none =>
    refine .some ⟨rfl, ?_⟩
    simp only [Function.update_eq_self]
    exact h
  | some data => exact .some ⟨rfl, h.setSub j ⟨_, (s.subs j).delivered⟩⟩

theorem spinOnce (h : l.Reflects s) (j : Fin m) :
    Option.Rel (Agree fun s l => l.Reflects s)
      (s.reply (n := n) alloc (fuel + 1) (.turn (.spinOnce j)))
      (l.reply (n := n) alloc (.turn (.spinOnce j))) := by
  obtain ⟨hist, hc, hout⟩ := h.carried
  have hget : (s.subs j).getMessage alloc s.topic = _ := hc.getMessage_eq (s.subs j)
  simp only [Bus.reply, Bus.outcome, Bus.call, Bus.step, Log.reply, Option.bind_some,
    Option.map_some, Subscriber.invocation, Subscriber.spinOnce, hget, h.accepted, h.counters j]
  cases selected s.accepted (s.subs j).counter with
  | none =>
    refine .some ⟨rfl, ?_⟩
    dsimp only
    rw [if_pos (show Memblock.null.isEmpty = true from rfl), Function.update_eq_self]
    exact h
  | some data =>
    dsimp only
    by_cases hempty : (copied alloc data).isEmpty = true
    · rw [if_pos hempty, if_pos hempty, if_pos hempty]
      exact .some ⟨rfl, h.setSub j ⟨_, (s.subs j).delivered⟩⟩
    · rw [if_neg hempty, if_neg hempty, if_neg hempty]
      exact .some ⟨rfl, h.setSub j ⟨_, _⟩⟩

end Log.Reflects

theorem matches_log (alloc : Nat → Bool) (fuel : Nat) :
    Matches (fun s l => l.Reflects s) (Bus.reply (n := n) (m := m) alloc (fuel + 1))
      (Log.reply alloc) := by
  intro s l h c
  cases c with
  | turn turn =>
    cases turn with
    | publish i data => exact h.publish i data
    | spinOnce j => exact h.spinOnce j
  | getMessage j => exact h.getMessage j

section Runs

variable {heapBase bufferSize : Nat} {alloc : Nat → Bool} {fuel : Nat}

theorem reflects_new (hsized : (Allocator.new heapBase bufferSize).Sized)
    (hlim : bufferSize + 1 < 2 ^ 32) :
    (Log.new heapBase (bufferSize / 4) : Log m).Reflects (Bus.new heapBase bufferSize) :=
  ⟨⟨[], .new hsized hlim, .new hsized⟩, rfl, fun _ => rfl⟩

end Runs

section CatchUp

variable {accepted : List (List UInt8)} {alloc : Nat → Bool} {c : Nat}

def backlog (accepted : List (List UInt8)) (c : Nat) : Nat :=
  let c' := u32 accepted.length
  if c' ≤ c then 0 else if c' - c < queueSize then c' - c else queueSize / 2

def pending (accepted : List (List UInt8)) (c : Nat) : List (List UInt8) :=
  accepted.drop (accepted.length - backlog accepted c)

theorem pending_eq_nil (h : u32 accepted.length ≤ c) :
    selected accepted c = none ∧ pending accepted c = [] := by
  unfold selected pending backlog
  dsimp only
  rw [if_pos h, if_pos h, Nat.sub_zero, List.drop_length]
  exact ⟨rfl, rfl⟩

theorem pending_eq_cons (h : c < u32 accepted.length) : ∃ data,
    selected accepted c = some data ∧ pending accepted c =
      data :: pending accepted (u32 (target (u32 accepted.length) c + 1)) := by
  have hnew : ¬ u32 accepted.length ≤ c := Nat.not_le_of_lt h
  have hle : u32 accepted.length ≤ accepted.length := by
    unfold u32
    exact Nat.mod_le ..
  have hlt : u32 accepted.length < 2 ^ 32 := by
    unfold u32
    exact Nat.mod_lt _ (by decide)
  obtain ⟨-, hbelow, -⟩ := target_spec h
  have hback : backlog accepted c = u32 accepted.length - target (u32 accepted.length) c := by
    unfold backlog target queueSize
    dsimp only
    split_ifs <;> omega
  have hnext : backlog accepted (u32 (target (u32 accepted.length) c + 1)) =
      backlog accepted c - 1 := by
    rw [u32_eq (Nat.lt_of_le_of_lt hbelow hlt), hback]
    unfold backlog target queueSize
    dsimp only
    split_ifs <;> omega
  have hindex : accepted.length - backlog accepted c < accepted.length := by omega
  refine ⟨accepted[accepted.length - backlog accepted c], ?_, ?_⟩
  · unfold selected
    dsimp only
    rw [if_neg hnew, ← hback, List.getElem?_eq_getElem hindex]
  · unfold pending
    rw [List.drop_eq_getElem_cons hindex, hnext]
    congr 2
    omega

theorem Log.exec_spinOnce (halloc : ∀ n, alloc n = true) (l : Log m) (j : Fin m) (k : Nat) :
    outputs (Log.reply (n := n) alloc) l (List.replicate k (.turn (.spinOnce j))) =
      some (((pending l.accepted (l.counters j)).take k).map
          (fun data => .spun (some (.ofData data))) ++
        List.replicate (k - (pending l.accepted (l.counters j)).length) (.spun none)) := by
  induction k generalizing l with
  | zero => simp [outputs, exec]
  | succ k ih =>
    rw [List.replicate_succ]
    rcases Nat.lt_or_ge (l.counters j) (u32 l.accepted.length) with hnew | hold
    · obtain ⟨data, hselected, hpending⟩ := pending_eq_cons hnew
      have hcall : l.reply (n := n) alloc (.turn (.spinOnce j)) = some (.spun (some (.ofData data)),
          l.setCounter j (u32 (target (u32 l.accepted.length) (l.counters j) + 1))) := by
        simp [Log.reply, hselected, copied_eq halloc, Memblock.isEmpty, Memblock.ofData]
      have hcounter : (l.setCounter j (u32 (target (u32 l.accepted.length) (l.counters j) + 1))
          ).counters j = u32 (target (u32 l.accepted.length) (l.counters j) + 1) :=
        Function.update_self ..
      rw [outputs_cons hcall, ih, hcounter, hpending]
      simp [Log.setCounter]
    · obtain ⟨hselected, hpending⟩ := pending_eq_nil hold
      have hcall : l.reply (n := n) alloc (.turn (.spinOnce j)) = some (.spun none, l) := by
        simp only [Log.reply, hselected]
      rw [outputs_cons hcall, ih, hpending]
      simp [List.replicate_succ]

/-- A subscriber that is called without a message being published in between is handed the
messages that it lacks, or half a lap of them when it lacks a lap, each once and in their order,
and then nothing. -/
theorem catch_up {heapBase bufferSize fuel : Nat} (hdvd : 4 ∣ bufferSize) (hle : 8 ≤ bufferSize)
    (hlim : bufferSize + 1 < 2 ^ 32) (hspace : heapBase + bufferSize ≤ 2 ^ 64)
    (halloc : ∀ n, alloc n = true) {calls : List (Bus.Call n m)} {shown : List Bus.Outcome}
    {s : Bus m} (hrun : exec (Bus.reply alloc (fuel + 1)) (Bus.new heapBase bufferSize) calls =
      some (shown, s)) (j : Fin m) (k : Nat) :
    outputs (Bus.reply (n := n) alloc (fuel + 1)) s (List.replicate k (.turn (.spinOnce j))) =
      some (((pending s.accepted (s.subs j).counter).take k).map
          (fun data => .spun (some (.ofData data))) ++
        List.replicate (k - (pending s.accepted (s.subs j).counter).length) (.spun none)) := by
  have hsized : (Allocator.new heapBase bufferSize).Sized :=
    ⟨hdvd, hle, Nat.le_of_lt (Nat.lt_of_succ_lt hlim), hspace⟩
  obtain ⟨l, -, hl⟩ := (matches_log alloc fuel).exec_eq_some (reflects_new hsized hlim) hrun
  rw [(matches_log alloc fuel).outputs hl, Log.exec_spinOnce halloc, hl.accepted, hl.counters j]

theorem catch_up_two : ∃ shown, ∃ s : Bus 1,
    exec (Bus.reply (n := 1) (fun _ => true) 1) (Bus.new 4096 64)
      [.turn (.publish 0 [1, 2, 3]), .turn (.publish 0 [4])] = some (shown, s) ∧
    outputs (Bus.reply (n := 1) (fun _ => true) 1) s (List.replicate 3 (.turn (.spinOnce 0))) =
      some [.spun (some (.ofData [1, 2, 3])), .spun (some (.ofData [4])), .spun none] := by
  have hrun : (exec (Bus.reply (n := 1) (m := 1) (fun _ => true) 1) (Bus.new 4096 64)
      [.turn (.publish 0 [1, 2, 3]), .turn (.publish 0 [4])]).map
      (fun r => pending r.2.accepted (r.2.subs 0).counter) = some [[1, 2, 3], [4]] := by
    decide +kernel
  obtain ⟨⟨shown, s⟩, hs, hpending⟩ := Option.map_eq_some_iff.mp hrun
  refine ⟨shown, s, hs, ?_⟩
  rw [catch_up (by decide) (by decide) (by decide) (by decide) (fun _ => rfl) hs 0 3, hpending]
  rfl

end CatchUp

end Shadesmar.PubSub
