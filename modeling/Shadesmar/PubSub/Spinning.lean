import Shadesmar.Library.Looping
import Shadesmar.PubSub.Liveness

namespace Shadesmar.PubSub.Interleaving

open Library Library.Looping

namespace World

variable {n m : Nat} {alloc : Nat → Bool} {bound : Nat} {j : Fin m}

/-- `spin_once` of subscriber `j`. -/
def spinBody (alloc : Nat → Bool) (j : Fin m) : Body (World n m) (Interleaving.Label n m) where
  step := World.step alloc
  idle s := (s.subs j).pc = .idle
  mine := Interleaving.Label.isSubscriber j

def spinNew (heapBase bufferSize : Nat) : Loop (World n m) :=
  ⟨new heapBase bufferSize, false, .returned⟩

theorem bounded_spinBody : (spinBody (n := n) alloc j).Bounded
    (fun l => ∀ i msg, l = .write i msg → msg.size ≤ bound) (fun s => s.Fitting bound)
    (fun s => (s.subs j).left bound) (bound + 12) := by
  constructor
  · exact fun s l s' h hok hs => h.step hok hs
  · exact fun s h => h.left_le j
  · intro s l s' h hmine hs hidle
    have hcall : (s.subs j).pc ≠ .idle := of_decide_eq_false hidle
    have hlt := h.step_left hs hcall
    have hpos : 0 < (s.subs j).left bound := Nat.pos_of_ne_zero (mt Reader.idle_of_left hcall)
    rw [show l.isSubscriber j = true from hmine, if_pos rfl] at hlt
    omega
  · intro s l s' h hmine hs
    have hsame := step_subs hs hmine
    simp [spinBody, hsame]

/-- `spin` returns when it is told to, and only then.  A `stop` that comes before `spin` has set
`running_` is lost; from any other on, `spin` has returned as soon as its thread has taken as many
steps as the longest message has bytes, and fourteen more. -/
theorem spin_returns {heapBase bufferSize : Nat}
    {labels : List (Looping.Label (Interleaving.Label n m))} {s : Loop (World n m)}
    (h : Machine.run (Loop.step (spinBody alloc j)) (spinNew heapBase bufferSize) labels = some s) :
    (s.Going → ∀ ls s', Machine.Run (Loop.step (spinBody alloc j))
      (fun t l => l = .stop → t.pc = .enter) s ls s' → s'.pc ≠ .returned) ∧
    (s.Stopping → ∀ ls s', Machine.run (Loop.step (spinBody alloc j)) s ls = some s' →
      (∀ i msg, .inner (.write i msg) ∈ labels ++ ls → msg.size ≤ bound) →
      bound + 14 ≤ ls.countP (spinBody (n := n) alloc j).owns →
      ∃ ls₁ ls₂ t, ls = ls₁ ++ ls₂ ∧
        Machine.run (Loop.step (spinBody alloc j)) s ls₁ = some t ∧ t.pc = .returned) := by
  refine ⟨fun hgoing ls s' hrun => hgoing.run hrun, ?_⟩
  intro hstopping ls s' hrun hbound hturns
  have hadmitted : ∀ l ∈ labels ++ ls,
      l.Admitted fun k => ∀ i msg, k = .write i msg → msg.size ≤ bound := by
    intro l hl
    cases l with
    | inner k => exact fun i msg hwrite => hbound i msg (hwrite ▸ hl)
    | call | stop | go => trivial
  have hfitting : s.inner.Fitting bound := by
    have hinner := Looping.Label.admitted_toInner fun l hl =>
      hadmitted l (List.mem_append_left ls hl)
    exact fitting_of_run (Machine.Run.of_run (Loop.run_inner h)) fun i msg hmem =>
      hinner _ hmem i msg rfl
  exact hstopping.returns bounded_spinBody hfitting hrun
    (fun l hl => hadmitted l (List.mem_append_right labels hl)) hturns

def toldLabels (i : Fin n) (j : Fin m) : List (Looping.Label (Interleaving.Label n m)) :=
  .inner (.write i (.ofData [1])) :: List.replicate 12 (.inner (.publisher i)) ++
    [.call, .go, .go] ++ List.replicate 5 (.inner (.subscriber j)) ++ [.stop]

def againLabels (j : Fin m) : List (Looping.Label (Interleaving.Label n m)) :=
  List.replicate 7 (.inner (.subscriber j)) ++ [.go, .call, .go, .go, .inner (.subscriber j),
    .inner (.subscriber j), .go, .inner (.subscriber j), .inner (.subscriber j)]

theorem spin_returns_told : ∃ s s' : Loop (World 1 1),
    Machine.run (Loop.step (spinBody (fun _ => true) 0)) (spinNew 4096 64) (toldLabels 0 0) =
      some s ∧
    Machine.run (Loop.step (spinBody (fun _ => true) 0)) s (againLabels 0) = some s' ∧
    ∃ ls₁ ls₂ t, againLabels 0 = ls₁ ++ ls₂ ∧
      Machine.run (Loop.step (spinBody (fun _ => true) 0)) s ls₁ = some t ∧ t.pc = .returned := by
  obtain ⟨s, hs, hrunning, hpc, s', hs'⟩ : ∃ s : Loop (World 1 1),
      Machine.run (Loop.step (spinBody (fun _ => true) 0)) (spinNew 4096 64) (toldLabels 0 0) =
        some s ∧ s.running = false ∧ s.pc = .body ∧
      ∃ s', Machine.run (Loop.step (spinBody (fun _ => true) 0)) s (againLabels 0) = some s' := by
    have hrun : (Machine.run (Loop.step (spinBody (fun _ => true) 0))
        (spinNew 4096 64 : Loop (World 1 1)) (toldLabels 0 0)).map (fun s => (s.running, s.pc,
          (Machine.run (Loop.step (spinBody (fun _ => true) 0)) s (againLabels 0)).isSome)) =
        some (false, .body, true) := by decide +kernel
    obtain ⟨s, hs, hvals⟩ := Option.map_eq_some_iff.mp hrun
    simp only [Prod.mk.injEq] at hvals
    exact ⟨s, hs, hvals.1, hvals.2.1, Option.isSome_iff_exists.mp hvals.2.2⟩
  have hbound : ∀ (i : Fin 1) msg, .inner (.write i msg) ∈ toldLabels 0 0 ++ againLabels (0 : Fin 1) →
      msg.size ≤ 1 := by
    intro i msg hmem
    obtain ⟨-, rfl⟩ : i = 0 ∧ msg = .ofData [1] := by simpa [toldLabels, againLabels] using hmem
    decide
  exact ⟨s, s', hs, hs', (spin_returns hs).2 ⟨hrunning, .inr hpc⟩ _ s' hs' hbound (by decide)⟩

end World

end Shadesmar.PubSub.Interleaving
