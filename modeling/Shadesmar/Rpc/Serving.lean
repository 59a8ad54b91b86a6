import Shadesmar.Library.Looping
import Shadesmar.Rpc.Answering

namespace Shadesmar.Rpc.Interleaving

open Library Library.Looping Shadesmar.Memory

variable {n : Nat} {cb : Callback}

namespace World

variable {s s' : World n}

theorem stepServer_left (hs : s.stepServer cb = some s') (hbusy : s.server ≠ .fetchAdd) :
    s'.server.left < s.server.left := by
  unfold World.stepServer at hs
  cases hpc : s.server with
  | aborted => simp [hpc] at hs
  | fetchAdd => exact absurd hpc hbusy
  | readServer pos =>
    rw [hpc] at hs
    dsimp only at hs
    split at hs <;> obtain rfl := Option.some.inj hs <;> simp [ServerPc.left, setServer]
  | checkMemory pos resp =>
    rw [hpc] at hs
    dsimp only at hs
    split_ifs at hs <;> obtain rfl := Option.some.inj hs <;> simp [ServerPc.left, setServer]
  | alloc pos resp =>
    rw [hpc] at hs
    dsimp only at hs
    split at hs <;> obtain rfl := Option.some.inj hs <;> simp [ServerPc.left, setServer]
  | callback pos req | copy pos resp respAddress | publish pos resp respAddress
  | signalError pos =>
    rw [hpc] at hs
    obtain rfl := Option.some.inj hs
    simp [ServerPc.left, setServer]

end World

namespace Parking

variable {half : Nat} {s s' : Parking n} {l : Label n}

def serveBody (cb : Callback) : Body (Parking n) (Label n) where
  step := Parking.step cb
  idle s := s.world.server = .fetchAdd
  mine := Label.isServer

def serveNew (heapBase stride bufferSize : Nat) : Loop (Parking n) :=
  ⟨new heapBase stride bufferSize, false, .returned⟩

theorem step_server (hhalf : half + 1 < 2 ^ 32) (hlive : s.world.Live half)
    (hs : s.step cb l = some s') (hother : l.isServer = false) :
    s'.world.server = s.world.server := by
  have heffect : ∀ {i w}, s.world.Effect i w → w.server = s.world.server := by
    intro i w he
    cases he <;> rfl
  obtain ⟨⟨occ, bs, use, hreq⟩, -⟩ := hlive
  cases l with
  | send i m =>
    obtain ⟨w, hw, rfl⟩ := Option.map_eq_some_iff.mp hs
    exact heffect (hreq.startSend hw).2
  | recv i r =>
    simp only [step, startRecv] at hs
    split_ifs at hs
    obtain rfl := Option.some.inj hs
    rfl
  | client i =>
    simp only [step, stepClient] at hs
    split at hs
    case h_1 => cases hs
    case h_2 =>
      obtain ⟨w, hw, rfl⟩ := Option.map_eq_some_iff.mp hs
      exact heffect (hreq.stepClient hhalf hw).2
    case h_3 =>
      split_ifs at hs
      · obtain rfl := Option.some.inj hs
        rfl
      · obtain ⟨w, hw, rfl⟩ := Option.map_eq_some_iff.mp hs
        exact heffect (hreq.stepClient hhalf hw).2
  | server woken => cases hother
  | spurious i =>
    simp only [step] at hs
    split_ifs at hs
    obtain rfl := Option.some.inj hs
    rfl

theorem bounded_serveBody (hhalf : half + 1 < 2 ^ 32) : (serveBody (n := n) cb).Bounded Own
    (Served half) (fun s => s.world.server.left) 6 := by
  constructor
  · exact fun s l s' h hown hs => h.step hhalf hown hs
  · intro s _
    cases s.world.server <;> simp [ServerPc.left]
  · intro s l s' _ hmine hs hidle
    obtain ⟨woken, rfl⟩ : ∃ woken, l = .server woken := by
      cases l <;> simp_all [serveBody, Label.isServer]
    simp only [serveBody, step, stepServer] at hs
    split_ifs at hs
    obtain ⟨w, hw, rfl⟩ := Option.map_eq_some_iff.mp hs
    exact World.stepServer_left hw (of_decide_eq_false hidle)
  · intro s l s' h hmine hs
    have hsame : s'.world.server = s.world.server := step_server hhalf h.live hs hmine
    simp [serveBody, hsame]

/-- `serve` never waits for anybody; and it returns when it is told to, and only then.  A `stop`
that comes before `serve` has set `running_` is lost; from any other on, `serve` has returned as
soon as its thread has taken eight steps. -/
theorem serve_returns (cb : Callback) {heapBase stride bufferSize : Nat}
    (hb : DoubleAllocator.Admits heapBase stride bufferSize)
    {labels : List (Looping.Label (Label n))} {s : Loop (Parking n)}
    (h : Machine.run (Loop.step (serveBody cb)) (serveNew heapBase stride bufferSize) labels =
      some s) (hown : ∀ l ∈ labels, l.Admitted Own) :
    (s.pc ≠ .returned →
      ∃ l s', (serveBody cb).owns l = true ∧ s.step (serveBody cb) l = some s') ∧
    (s.Going → ∀ ls s', Machine.Run (Loop.step (serveBody cb))
      (fun t l => l = .stop → t.pc = .enter) s ls s' → s'.pc ≠ .returned) ∧
    (s.Stopping → ∀ ls s', Machine.run (Loop.step (serveBody cb)) s ls = some s' →
      (∀ l ∈ ls, l.Admitted Own) → 8 ≤ ls.countP (serveBody (n := n) cb).owns →
      ∃ ls₁ ls₂ t, ls = ls₁ ++ ls₂ ∧
        Machine.run (Loop.step (serveBody cb)) s ls₁ = some t ∧ t.pc = .returned) := by
  have hserved : s.inner.Served (bufferSize / 2) :=
    served_of_run hb (Loop.run_inner h) (Looping.Label.admitted_toInner hown)
  refine ⟨?_, fun hgoing ls s' hrun => hgoing.run hrun, ?_⟩
  · intro hpc
    cases hcase : s.pc with
    | returned => exact absurd hcase hpc
    | enter | test => exact ⟨.go, _, rfl, by simp only [Loop.step, hcase]; rfl⟩
    | body =>
      obtain ⟨-, bs, hready⟩ := hserved.live
      obtain ⟨woken, hwakes⟩ := s.inner.exists_wakes
      obtain ⟨w, hw, -⟩ := hready.stepServer hb.half_lt cb
      have hs : s.inner.step cb (.server woken) = some _ := (if_pos hwakes).trans (by rw [hw]; rfl)
      exact ⟨.inner (.server woken), _, rfl, Loop.step_body hcase rfl hs⟩
  · intro hstopping ls s' hrun hls hturns
    exact hstopping.returns (bounded_serveBody hb.half_lt) hserved hrun hls hturns

def toldLabels : List (Looping.Label (Label n)) :=
  [.call, .go, .go, .inner (.server fun _ => false), .stop]

def againLabels : List (Looping.Label (Label n)) :=
  [.inner (.server fun _ => false), .go, .call, .go, .go, .inner (.server fun _ => false),
    .inner (.server fun _ => false), .go, .inner (.server fun _ => false)]

theorem serve_returns_told : ∃ s s' : Loop (Parking 1),
    Machine.run (Loop.step (serveBody .echo)) (serveNew 4096 128 (2 ^ 28)) toldLabels = some s ∧
    Machine.run (Loop.step (serveBody .echo)) s againLabels = some s' ∧
    ∃ ls₁ ls₂ t, againLabels = ls₁ ++ ls₂ ∧
      Machine.run (Loop.step (serveBody .echo)) s ls₁ = some t ∧ t.pc = .returned := by
  obtain ⟨s, hs, hrunning, hpc, s', hs'⟩ : ∃ s : Loop (Parking 1),
      Machine.run (Loop.step (serveBody .echo)) (serveNew 4096 128 (2 ^ 28)) toldLabels = some s ∧
      s.running = false ∧ s.pc = .body ∧
      ∃ s', Machine.run (Loop.step (serveBody .echo)) s againLabels = some s' := by
    have hrun : (Machine.run (Loop.step (serveBody .echo))
        (serveNew 4096 128 (2 ^ 28) : Loop (Parking 1)) toldLabels).map (fun s => (s.running, s.pc,
          (Machine.run (Loop.step (serveBody .echo)) s againLabels).isSome)) =
        some (false, .body, true) := by decide +kernel
    obtain ⟨s, hs, hvals⟩ := Option.map_eq_some_iff.mp hrun
    simp only [Prod.mk.injEq] at hvals
    exact ⟨s, hs, hvals.1, hvals.2.1, Option.isSome_iff_exists.mp hvals.2.2⟩
  have hb : DoubleAllocator.Admits 4096 128 (2 ^ 28) := by constructor <;> decide
  have htold : ∀ l ∈ (toldLabels : List (Looping.Label (Label 1))), l.Admitted Own := by
    simp [toldLabels, Looping.Label.Admitted, Own]
  have hagain : ∀ l ∈ (againLabels : List (Looping.Label (Label 1))), l.Admitted Own := by
    simp [againLabels, Looping.Label.Admitted, Own]
  obtain ⟨-, -, hreturns⟩ := serve_returns .echo hb hs htold
  exact ⟨s, s', hs, hs', hreturns ⟨hrunning, .inr hpc⟩ _ s' hs' hagain (by decide)⟩

end Parking

end Shadesmar.Rpc.Interleaving
