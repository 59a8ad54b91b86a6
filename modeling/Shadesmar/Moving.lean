import Shadesmar.PubSub.Moving
import Shadesmar.Rpc.Moving

namespace Shadesmar

open Library Shadesmar.Memory Shadesmar.PubSub Shadesmar.Rpc

/-- What the calls after a move show is what they would have shown without it, if the old
position of the endpoint and the position counted from 0 lead to the same message, or to the
same slot, whenever the endpoint looks; and in no other run, when the copier finds room. -/
theorem moved_endpoints_show_same {n m : Nat} {alloc : Nat → Bool} {fuel heapBase bufferSize : Nat}
    (hdvd : 4 ∣ bufferSize) (hle : 8 ≤ bufferSize) (hlim : bufferSize + 1 < 2 ^ 32)
    (hspace : heapBase + bufferSize ≤ 2 ^ 64) {before after : List (Bus.Call n m)} {s s' : Bus m}
    (h : Machine.run (Bus.call alloc (fuel + 1)) (Bus.new heapBase bufferSize) before = some s)
    (hafter : Machine.run (Bus.call alloc (fuel + 1)) s after = some s') (j : Fin m)
    (cb : Callback) {base stride size : Nat} {sent later : List Service.Label} {r r' : Service}
    (hsent : Machine.run (Service.step cb) (.new base stride size) sent = some r)
    (hlater : Machine.run (Service.step cb) r later = some r') :
    (s.SelectsSame alloc (fuel + 1) j after → s.ShowsSame alloc (fuel + 1) j after) ∧
    ((∀ n, alloc n = true) → s.ShowsSame alloc (fuel + 1) j after →
      s.SelectsSame alloc (fuel + 1) j after) ∧
    (r.ShowsSame cb later ↔ r.MeetsSame cb later) := by
  obtain ⟨hsame, honly⟩ := Bus.shows_same hdvd hle hlim hspace h hafter j
  exact ⟨hsame, honly, Service.shows_same_iff cb hsent hlater⟩

theorem moved_endpoints_show_same_used : ∃ (s s' : Bus 1) (r r' : Service),
    Machine.run (Bus.call (n := 1) (fun _ => true) 1) (Bus.new 4096 64)
      [.turn (.publish 0 [7]), .turn (.spinOnce 0), .turn (.publish 0 [7])] = some s ∧
    (s.subs 0).counter = 1 ∧
    Machine.run (Bus.call (n := 1) (fun _ => true) 1) s [.turn (.spinOnce 0)] = some s' ∧
    Machine.run (Service.step .echo) (.new 4096 128 (2 ^ 28))
      [.send (.ofData [1]), .serveOnce, .recv 0] = some r ∧ r.pos = 1 ∧
    Machine.run (Service.step .echo) r [.serveOnce] = some r' ∧
    s.ShowsSame (n := 1) (fun _ => true) 1 0 [.turn (.spinOnce 0)] ∧
    r.ShowsSame .echo [.serveOnce] := by
  have hbus : ((Machine.run (Bus.call (n := 1) (m := 1) (fun _ => true) 1) (Bus.new 4096 64)
      [.turn (.publish 0 [7]), .turn (.spinOnce 0), .turn (.publish 0 [7])]).map fun s =>
        (s.accepted, (s.subs 0).counter)) = some ([[7], [7]], 1) := by decide +kernel
  have hservice : ((Machine.run (Service.step .echo) (.new 4096 128 (2 ^ 28))
      [.send (.ofData [1]), .serveOnce, .recv 0]).map fun r =>
        (r.pos, r.channel.vacant (qPos 0), r.channel.vacant (qPos 1))) = some (1, true, true) := by
    decide +kernel
  obtain ⟨s, hs, hvals⟩ := Option.map_eq_some_iff.mp hbus
  obtain ⟨haccepted, hcounter⟩ := Prod.mk.inj hvals
  obtain ⟨r, hr, hvals⟩ := Option.map_eq_some_iff.mp hservice
  simp only [Prod.mk.injEq] at hvals
  obtain ⟨hpos, hzero, hone⟩ := hvals
  have hselects : s.SelectsSame (n := 1) (fun _ => true) 1 0 [.turn (.spinOnce 0)] := by
    refine ⟨_, .cons ?_ rfl .nil⟩
    intro _
    have hmoved : ((s.move 0).subs 0).counter = 0 := by simp [Bus.move, Subscriber.move, Subscriber.new]
    show selected s.accepted (s.subs 0).counter = selected s.accepted ((s.move 0).subs 0).counter
    rw [hmoved, haccepted, hcounter]
    decide +kernel
  have hr' := (Service.serveOnce_vacant .echo (s := r) (by rw [hpos]; exact hone)).1
  have hmeets : r.MeetsSame .echo [.serveOnce] := by
    have hmoved := (Service.serveOnce_vacant .echo (s := r.move) hzero).1
    refine ⟨_, .cons ?_ (by simp only [Machine.both, hr', hmoved]; rfl) .nil⟩
    exact fun _ => .inr ⟨by rw [hpos]; exact hone, hzero⟩
  let sub := Subscriber.spinOnce (fun _ => true) s.topic (s.subs 0)
  have hs' : Machine.run (Bus.call (n := 1) (fun _ => true) 1) s [.turn (.spinOnce 0)] =
      some { s with subs := Function.update s.subs 0 sub } := rfl
  obtain ⟨hsame, -, hiff⟩ := moved_endpoints_show_same (by decide) (by decide) (by decide)
    (by decide) hs hs' 0 .echo hr (Machine.run_cons [] hr')
  exact ⟨s, _, r, _, hs, hcounter, hs', hr, hpos, Machine.run_cons [] hr', hsame hselects,
    hiff.mpr hmeets⟩

/-- A subscriber that is moved after it has been given a message is given it again, and a
server that is moved after it has answered a request answers it again. -/
theorem moved_endpoints_repeat :
    (∃ s s' : Bus 1,
      Machine.run (Bus.call (n := 1) (fun _ => true) 1) (Bus.new 4096 64)
        [.turn (.publish 0 [7]), .turn (.spinOnce 0)] = some s ∧
      Machine.run (Bus.call (n := 1) (fun _ => true) 1) s [.turn (.spinOnce 0)] = some s' ∧
      ¬ s.ShowsSame (n := 1) (fun _ => true) 1 0 [.turn (.spinOnce 0)]) ∧
    ∃ r r' : Service,
      Machine.run (Service.step .echo) (.new 4096 128 (2 ^ 28))
        [.send (.ofData [1]), .serveOnce] = some r ∧
      Machine.run (Service.step .echo) r [.serveOnce] = some r' ∧
      ¬ r.ShowsSame .echo [.serveOnce] := by
  constructor
  · have hrun : ((Machine.run (Bus.call (n := 1) (m := 1) (fun _ => true) 1) (Bus.new 4096 64)
        [.turn (.publish 0 [7]), .turn (.spinOnce 0)]).bind fun s =>
        (Machine.run (Bus.call (n := 1) (fun _ => true) 1) s [.turn (.spinOnce 0)]).map fun _ =>
          (Machine.trace (Bus.call (n := 1) (fun _ => true) 1) (Bus.outcome (fun _ => true) 1) s
            [.turn (.spinOnce 0)],
          Machine.trace (Bus.call (n := 1) (fun _ => true) 1) (Bus.outcome (fun _ => true) 1)
            (s.move 0) [.turn (.spinOnce 0)])) =
        some ([some (.spun none)], [some (.spun (some (.ofData [7])))]) := by decide +kernel
    obtain ⟨s, hs, hrun⟩ := Option.bind_eq_some_iff.mp hrun
    obtain ⟨s', hs', hshown⟩ := Option.map_eq_some_iff.mp hrun
    obtain ⟨hold, hnew⟩ := Prod.mk.inj hshown
    refine ⟨s, s', hs, hs', fun hsame => ?_⟩
    rw [Bus.ShowsSame, hold, hnew] at hsame
    cases hsame
  · have hrun : ((Machine.run (Service.step .echo) (.new 4096 128 (2 ^ 28))
        [.send (.ofData [1]), .serveOnce]).bind fun r =>
        (Machine.run (Service.step .echo) r [.serveOnce]).map fun _ =>
          (Machine.trace (Service.step .echo) (Service.outcome .echo) r [.serveOnce],
          Machine.trace (Service.step .echo) (Service.outcome .echo) r.move [.serveOnce])) =
        some ([some (.served none false)], [some (.served (some (0, .ofData [1])) true)]) := by
      decide +kernel
    obtain ⟨r, hr, hrun⟩ := Option.bind_eq_some_iff.mp hrun
    obtain ⟨r', hr', hshown⟩ := Option.map_eq_some_iff.mp hrun
    obtain ⟨hold, hnew⟩ := Prod.mk.inj hshown
    refine ⟨r, r', hr, hr', fun hsame => ?_⟩
    rw [Service.ShowsSame, hold, hnew] at hsame
    cases hsame

end Shadesmar
