import Shadesmar.Memory.Mapping
import Shadesmar.PubSub.Log

namespace Shadesmar.PubSub

open Library Library.Refinement Shadesmar.Memory

namespace Topic

def mapped (t : Topic) (base : Nat) : Topic := { t with allocator := t.allocator.mapped base }

variable {t : Topic} {base heapBase total : Nat}

theorem alloc_mapped (h : t.allocator.Indexed heapBase total) (hspace : heapBase + total ≤ 2 ^ 64)
    (hbase : base + total ≤ 2 ^ 64) (n : Nat) : (t.mapped base).alloc n =
      (t.alloc n).map fun r => (r.1.map (t.allocator.translate base), r.2.mapped base) := by
  exact Checked.map_bind_map (h.alloc_mapped hspace hbase (u32 n)) fun _ _ => rfl

def oldHandle (t : Topic) (q : Fin queueSize) : Option Nat :=
  if (t.elem q).empty then none else some (t.elem q).addressHandle

theorem oldAddress_eq (t : Topic) (q : Fin queueSize) :
    t.oldAddress q = (t.oldHandle q).map t.allocator.handleToPtr := by
  unfold oldAddress oldHandle
  split_ifs <;> rfl

theorem free_mapped (t : Topic) (base : Nat) (h : Option Nat) :
    (t.mapped base).free (h.map (t.mapped base).allocator.handleToPtr) =
      (t.free (h.map t.allocator.handleToPtr)).map fun r => (r.1, r.2.mapped base) := by
  refine Checked.map_bind_map (k := fun r => (r.1, r.2.mapped base)) ?_ fun _ _ => rfl
  cases h with
  | none => rfl
  | some h => exact Allocator.free_mapped t.allocator base h

theorem freeLoop_mapped (fuel : Nat) (t : Topic) (base : Nat) (h : Option Nat) :
    (t.mapped base).freeLoop fuel (h.map (t.mapped base).allocator.handleToPtr) =
      (t.freeLoop fuel (h.map t.allocator.handleToPtr)).map fun r => r.map (mapped · base) := by
  induction fuel generalizing t with
  | zero => rfl
  | succ fuel ih =>
    refine Checked.map_bind_map (free_mapped t base h) ?_
    rintro ⟨done, t'⟩ hfree
    obtain ⟨a, ha, rfl⟩ := free_ok hfree
    cases done with
    | true => rfl
    | false =>
      have hbase : a.heapBase = t.allocator.heapBase := by
        rcases Allocator.free_cases ha with rfl | ⟨next, -, rfl⟩ <;> rfl
      have hptr : a.handleToPtr = t.allocator.handleToPtr := by
        funext p
        rw [Allocator.handleToPtr, hbase, Allocator.handleToPtr]
      have hrest := ih { t with allocator := a }
      simp only [hptr] at hrest
      exact hrest

theorem swap_mapped (t : Topic) (base p size : Nat) (q : Fin queueSize) :
    (((t.mapped base).setHandle q (t.allocator.translate base p)).setSize q size).setEmpty q =
      (((t.setHandle q p).setSize q size).setEmpty q).mapped base := by
  have hhandle : (t.mapped base).setHandle q (t.allocator.translate base p) =
      (t.setHandle q p).mapped base := by
    unfold setHandle
    rw [show (t.mapped base).allocator.ptrToHandle (t.allocator.translate base p) = _ from
      Allocator.ptrToHandle_translate ..]
    rfl
  rw [hhandle]
  rfl

theorem write_mapped (h : t.allocator.Indexed heapBase total) (hspace : heapBase + total ≤ 2 ^ 64)
    (hbase : base + total ≤ 2 ^ 64) (fuel : Nat) (m : Memblock) :
    (t.mapped base).write fuel m =
      (t.write fuel m).map fun r => r.map fun r => (r.1, r.2.mapped base) := by
  refine Checked.ite_map rfl ?_
  refine Checked.map_bind_map (alloc_mapped h hspace hbase m.size) ?_
  rintro ⟨p, t'⟩ halloc
  obtain ⟨a, ha, rfl⟩ := alloc_ok _ halloc
  cases p with
  | none => rfl
  | some p =>
    have htranslate : t.allocator.translate base = a.translate base := h.translate_alloc hspace ha
    have hstore : ((({ t with allocator := a } : Topic).mapped base).userToShm
        (a.translate base p) m.bytes) =
          ((({ t with allocator := a } : Topic).userToShm p m.bytes).mapped base) :=
      congrArg (Topic.mk t.queue) (Allocator.store_translate a base p m.bytes)
    generalize hq : qPos t.counter = q
    have hq' : qPos (t.mapped base).counter = q := hq
    simp only [Option.map_some, hq', htranslate, hstore]
    generalize ht : ({ t with allocator := a } : Topic).userToShm p m.bytes = t₁
    have hptr : a.translate base p = t₁.allocator.translate base p := by
      rw [← ht]
      rfl
    rw [hptr, swap_mapped, oldAddress_eq, oldAddress_eq]
    refine Checked.map_bind_map (freeLoop_mapped fuel _ base (t₁.oldHandle q)) ?_
    rintro (- | t₂) - <;> rfl

theorem read_mapped (alloc : Nat → Bool) (t : Topic) (base : Nat) (m : Memblock) (pos : Nat) :
    (t.mapped base).read alloc m pos = t.read alloc m pos := by
  have hmove : ∀ q, (t.mapped base).moveElem alloc q m = t.moveElem alloc q m := by
    intro q
    have helem : (t.mapped base).elem q = t.elem q := rfl
    unfold moveElem
    rw [helem]
    simp only [mapped, Allocator.load_mapped]
  unfold read
  simp only [hmove]
  rfl

end Topic

theorem Subscriber.getMessage_mapped (alloc : Nat → Bool) (t : Topic) (base : Nat)
    (s : Subscriber) : s.getMessage alloc (t.mapped base) = s.getMessage alloc t := by
  unfold getMessage
  simp only [Topic.read_mapped]
  rfl

namespace Bus

variable {n m : Nat}

inductive Caller (n m : Nat)
  | publisher (i : Fin n)
  | subscriber (j : Fin m)

def Call.caller : Call n m → Caller n m
  | .turn (.publish i _) => .publisher i
  | .turn (.spinOnce j) => .subscriber j
  | .getMessage j => .subscriber j

def mapped (base : Nat) (s : Bus m) : Bus m := { s with topic := s.topic.mapped base }

variable {alloc : Nat → Bool} {fuel heapBase total : Nat} {s s' : Bus m} {o : Outcome}

theorem indexed_reply {l : Call n m} (h : s.topic.allocator.Indexed heapBase total)
    (hspace : heapBase + total ≤ 2 ^ 64) (hs : s.reply alloc fuel l = some (o, s')) :
    s'.topic.allocator.Indexed heapBase total := by
  obtain ⟨o', ho, hs⟩ := Option.bind_eq_some_iff.mp hs
  obtain ⟨t, ht, heq⟩ := Option.map_eq_some_iff.mp hs
  obtain ⟨-, rfl⟩ := Prod.mk.inj heq
  cases l with
  | getMessage j =>
    obtain rfl := Option.some.inj ht
    exact h
  | turn turn =>
    cases turn with
    | spinOnce j =>
      obtain rfl := Option.some.inj ht
      exact h
    | publish i data =>
      simp only [call, step, publish] at ht
      cases hwrite : s.topic.write fuel (.ofData data) with
      | error e => simp [hwrite] at ht
      | ok r =>
        rcases r with - | ⟨done, t'⟩
        · simp [hwrite] at ht
        · have hindexed := (Topic.write_records hspace h hwrite).1
          cases done <;> simp only [hwrite] at ht <;> obtain rfl := Option.some.inj ht <;>
            exact hindexed

theorem reply_mapped (h : s.topic.allocator.Indexed heapBase total)
    (hspace : heapBase + total ≤ 2 ^ 64) {base : Nat} (hbase : base + total ≤ 2 ^ 64)
    (l : Call n m) : (s.mapped base).reply alloc fuel l =
      (s.reply alloc fuel l).map fun r => (r.1, r.2.mapped base) := by
  have hget : ∀ j, (s.subs j).getMessage alloc (s.topic.mapped base) =
      (s.subs j).getMessage alloc s.topic :=
    fun j => Subscriber.getMessage_mapped alloc s.topic base (s.subs j)
  cases l with
  | getMessage j =>
    simp only [reply, outcome, call, mapped, hget]
    rfl
  | turn turn =>
    cases turn with
    | spinOnce j =>
      simp only [reply, outcome, call, step, mapped, Subscriber.invocation, Subscriber.spinOnce, hget]
      rfl
    | publish i data =>
      have hwrite := Topic.write_mapped h hspace hbase fuel (.ofData data)
      simp only [reply, outcome, call, step, mapped, publish, hwrite]
      cases s.topic.write fuel (.ofData data) with
      | error e => rfl
      | ok r =>
        rcases r with - | ⟨done, t⟩
        · rfl
        · cases done <;> rfl

/-- Participants of different processes, each with its own address for the segment, get the results
that they would get in one process. -/
theorem outputs_mapped (hspace : heapBase + total ≤ 2 ^ 64) (bases : Caller n m → Nat)
    (hbases : ∀ c, bases c + total ≤ 2 ^ 64) (calls : List (Call n m)) :
    outputs (fun s l => (mapped (bases l.caller) s).reply alloc fuel l) (new heapBase total) calls =
      outputs (reply alloc fuel) (new heapBase total) calls :=
  outputs_placed (reply alloc fuel) mapped (fun l => bases l.caller) (fun s : Bus m => s.topic.allocator.Indexed heapBase total)
    (fun base => base + total ≤ 2 ^ 64) (fun _ _ _ => rfl)
    (fun _ l _ hs hbase => reply_mapped hs hspace hbase l)
    (fun _ _ _ _ hs hl => indexed_reply hs hspace hl) (Allocator.Indexed.new heapBase total)
    fun l _ => hbases l.caller

def twoBases : Caller 1 1 → Nat
  | .publisher _ => 4096
  | .subscriber _ => 65536

theorem outputs_mapped_two :
    outputs (fun s l => (mapped (twoBases l.caller) s).reply (fun _ => true) 1 l) (new 4096 64)
      [.turn (.publish 0 [1, 2, 3]), .turn (.spinOnce 0)] =
    some [.published true, .spun (some ⟨some [1, 2, 3], 3, true⟩)] := by
  have hbases : ∀ c, twoBases c + 64 ≤ 2 ^ 64 := by
    intro c
    cases c <;> simp [twoBases]
  rw [outputs_mapped (by decide) twoBases hbases]
  decide +kernel

end Bus

end Shadesmar.PubSub
