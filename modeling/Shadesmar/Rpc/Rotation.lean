import Shadesmar.Library.Cyclic
import Shadesmar.Library.Progress
import Shadesmar.Rpc.Order

namespace Shadesmar.Rpc.Service

open Library Library.Progress Shadesmar.Memory

def turn (s : Service) (q : Fin queueSize) : Nat := Cyclic.steps queueSize (qPos s.pos).val q.val

structure Serves (s : Service) (q : Fin queueSize) (k : Nat) (t : Service) : Prop where
  pos : qPos t.pos = qPos (s.pos + k)
  seated : s.owner q < t.accepted
  alone : ∀ q', t.channel.vacant q' = false → t.owner q' = s.owner q → q' = q
  waits : k ≤ s.turn q →
    t.channel.vacant q = false ∧ t.owner q = s.owner q ∧ t.channel.unanswered q = true
  served : t.invoked.count (s.owner q) = if k ≤ s.turn q then 0 else 1

variable {cb : Callback} {s s' t t' : Service} {l : Label} {q : Fin queueSize} {k : Nat}

theorem qPos_eq_iff_turn (hk : k < queueSize) : qPos (s.pos + k) = q ↔ k = s.turn q := by
  have hq := q.isLt
  rw [Fin.ext_iff, qPos_val]
  unfold turn Cyclic.steps
  rw [qPos_val]
  unfold queueSize at *
  split_ifs <;> omega

theorem Sound.serves (h : s.Sound) (hbusy : s.channel.vacant q = false)
    (hnew : s.channel.unanswered q = true) : s.Serves q 0 s := by
  have hunseen : s.owner q ∉ s.invoked := fun hmem => by
    simp [(h.answered q hbusy).mpr hmem] at hnew
  refine ⟨rfl, h.owner_lt q hbusy, fun q' hq' => h.distinct q' q hq' hbusy, ?_, ?_⟩
  · exact fun _ => ⟨hbusy, rfl, hnew⟩
  · rw [if_pos (Nat.zero_le _), List.count_eq_zero]
    exact hunseen

theorem Serves.step_other (h : s.Serves q k t) (hl : l ≠ .serveOnce) (hs : t.step cb l = some t') :
    s.Serves q k t' := by
  obtain ⟨hpos, hlt, halone, hwaits, hserved⟩ := h
  have hpos' : t'.pos = t.pos := by rw [step_pos hs, if_neg hl]
  rcases step_cases hs with ⟨hv, hu, ho, ha, hi, -⟩ | ⟨m, r, -, hr, hv, hu, ho, ha, hi, -⟩ |
      ⟨r, rfl, -⟩ | ⟨pos, r, -, -, hr, hv, hu, ho, ha, hi, -⟩
  · constructor <;> simp only [hpos', hv, hu, ho, ha, hi] <;> assumption
  · -- the new request goes to a vacant slot, under a number of its own
    have hne : s.owner q ≠ t.accepted := Nat.ne_of_lt hlt
    constructor <;> simp only [hpos', hv, hu, ho, ha, hi]
    · exact hpos
    · exact Nat.lt_succ_of_lt hlt
    · grind [Function.update_apply]
    · grind [Function.update_apply]
    · exact hserved
  · exact absurd rfl hl
  · constructor <;> simp only [hpos', hv, hu, ho, ha, hi]
    · exact hpos
    · exact hlt
    · grind [Function.update_apply]
    · grind [Function.update_apply]
    · exact hserved

theorem Serves.step_serveOnce (h : s.Serves q k t) (hk : k < queueSize)
    (hs : t.step cb .serveOnce = some t') : s.Serves q (k + 1) t' := by
  obtain ⟨hpos, hlt, halone, hwaits, hserved⟩ := h
  have hpos' : qPos t'.pos = qPos (s.pos + (k + 1)) := by
    rw [step_pos hs, if_pos rfl, qPos_u32, ← Nat.add_assoc]
    rw [qPos_eq_iff] at hpos ⊢
    rw [Nat.add_mod, hpos, ← Nat.add_mod]
  have hturn := qPos_eq_iff_turn (s := s) (q := q) hk
  rw [← hpos] at hturn
  rcases step_cases hs with ⟨hv, hu, ho, ha, hi, -, hvacant, -⟩ | ⟨_, _, hl, -⟩ |
      ⟨r, -, rfl, hr, hv, hu, ho, ha, hi, -⟩ | ⟨_, _, hl, -⟩
  · -- a slot that holds no request is not the one in which ours waits
    have hne : k ≠ s.turn q := by
      intro heq
      have hbusy := (hwaits (Nat.le_of_eq heq)).1
      rw [← hturn.mpr heq, hvacant rfl] at hbusy
      cases hbusy
    have hiff : k + 1 ≤ s.turn q ↔ k ≤ s.turn q := by omega
    constructor <;> simp only [hpos', hv, hu, ho, ha, hi, hiff] <;> assumption
  · cases hl
  · by_cases heq : k = s.turn q
    · obtain rfl := hturn.mpr heq
      have howner := (hwaits (Nat.le_of_eq heq)).2.1
      have hdone : ¬ k + 1 ≤ s.turn (qPos t.pos) := by omega
      refine ⟨hpos', ha ▸ hlt, by simpa only [hv, ho] using halone, fun hle => absurd hle hdone, ?_⟩
      rw [hi, howner, List.count_append, hserved, if_pos (Nat.le_of_eq heq), if_neg hdone]
      simp
    · have hne : qPos t.pos ≠ q := fun hslot => heq (hturn.mp hslot)
      have hother : t.owner (qPos t.pos) ≠ s.owner q := fun howner => hne (halone _ hr howner)
      have hiff : k + 1 ≤ s.turn q ↔ k ≤ s.turn q := by omega
      refine ⟨hpos', ha ▸ hlt, ?_, ?_, ?_⟩ <;> simp only [hv, hu, ho, hi, hiff]
      · exact halone
      · simpa only [Function.update_of_ne (Ne.symm hne)] using hwaits
      · rw [List.count_append, hserved, List.count_singleton]
        simp [hother]
  · cases hl

theorem Serves.run (h : s.Serves q 0 s) {labels : List Label}
    (hrun : Machine.run (step cb) s labels = some s') :
    labels.count .serveOnce ≤ queueSize → s.Serves q (labels.count .serveOnce) s' := by
  have hall := Machine.Run.of_run hrun
  clear hrun
  induction hall with
  | nil => exact fun _ => h
  | @snoc labels t l t' hpre _ hs ih =>
    rw [List.count_append, List.count_singleton]
    intro hle
    by_cases hl : l = .serveOnce
    · subst hl
      rw [beq_self_eq_true, if_pos rfl] at hle ⊢
      exact (ih (by omega)).step_serveOnce (by omega) hs
    · rw [if_neg (by simpa using hl)] at hle ⊢
      exact (ih hle).step_other hl hs

theorem Kept.exists_serveOnce {size : Nat} {bs : List Block} (h : s.Kept size bs)
    (hlim : size + 1 < 2 ^ 32) : ∃ s', s.step cb .serveOnce = some s' := by
  have hprocess : ∃ done c, process cb s.channel s.pos = .ok (done, c) := by
    unfold process
    cases s.channel.readServer s.pos with
    | none => exact ⟨false, _, rfl⟩
    | some req =>
      rcases Channel.writeServer_eq h.ring (h.size ▸ hlim) (cb.answer req) s.pos with
        ⟨herror, -⟩ | ⟨b, a, hok, -⟩
      · exact ⟨false, _, herror⟩
      · exact ⟨true, _, hok⟩
  obtain ⟨done, c, hok⟩ := hprocess
  cases hs : s.step cb .serveOnce with
  | none => simp [Service.step, hok] at hs
  | some s' => exact ⟨s', rfl⟩

/-- From every reachable state the server can go on for ever, and during the next 1024 of its
calls, whatever `send` and `recv` do in between, it runs the callback exactly once on every
request that waits now: at the call that comes to its slot. -/
theorem served_in_turn (cb : Callback) {heapBase stride bufferSize : Nat}
    (hb : DoubleAllocator.Admits heapBase stride bufferSize) {before : List Label}
    (h : Machine.run (step cb) (new heapBase stride bufferSize) before = some s) :
    (∀ k, ∃ s', Machine.run (step cb) s (List.replicate k .serveOnce) = some s') ∧
    ∀ q, s.channel.vacant q = false → s.channel.unanswered q = true → s.turn q < queueSize ∧
      ∀ after s', Machine.run (step cb) s after = some s' → after.count .serveOnce ≤ queueSize →
        s'.invoked.count (s.owner q) = if after.count .serveOnce ≤ s.turn q then 0 else 1 := by
  obtain ⟨hsound, bs, hkept⟩ : s.Sound ∧ ∃ bs, s.Kept (bufferSize / 2) bs := by
    refine (Machine.Run.of_run h).invariant (fun s => s.Sound ∧ ∃ bs, s.Kept (bufferSize / 2) bs)
      ⟨sound_new _ _ _, [], kept_new hb⟩ ?_
    rintro t l t' ⟨hsound, bs, hkept⟩ - hs
    obtain ⟨bs', hkept', -⟩ := hkept.step hb.half_lt hs
    exact ⟨hsound.step hs, bs', hkept'⟩
  constructor
  · intro k
    have hstep : ∀ (t : Service) l, l ∈ List.replicate k Label.serveOnce →
        (∃ bs, t.Kept (bufferSize / 2) bs) →
        ∃ t', t.step cb l = some t' ∧ ∃ bs, t'.Kept (bufferSize / 2) bs := by
      rintro t l hl ⟨bs, ht⟩
      obtain rfl := List.eq_of_mem_replicate hl
      obtain ⟨t', hs⟩ : ∃ t', t.step cb .serveOnce = some t' := ht.exists_serveOnce hb.half_lt
      obtain ⟨bs', ht', -⟩ := ht.step hb.half_lt hs
      exact ⟨t', hs, bs', ht'⟩
    obtain ⟨s', hs', -⟩ := exists_run _ hstep ⟨bs, hkept⟩
    exact ⟨s', hs'⟩
  · intro q hbusy hnew
    refine ⟨Cyclic.steps_lt (qPos s.pos).isLt q.isLt, fun after s' hrun hle => ?_⟩
    exact ((hsound.serves hbusy hnew).run hrun hle).served

theorem served_in_turn_second : ∃ s s',
    Machine.run (step .echo) (new 4096 128 (2 ^ 28)) [.send (.ofData [1, 2]), .send (.ofData [3])] =
      some s ∧
    Machine.run (step .echo) s [.serveOnce, .recv 0, .serveOnce] = some s' ∧
    s'.invoked.count 1 = 1 := by
  obtain ⟨s, hs, hbusy, hnew, howner, hturn⟩ : ∃ s : Service,
      Machine.run (step .echo) (new 4096 128 (2 ^ 28))
        [.send (.ofData [1, 2]), .send (.ofData [3])] = some s ∧
      s.channel.vacant (qPos 1) = false ∧ s.channel.unanswered (qPos 1) = true ∧
      s.owner (qPos 1) = 1 ∧ s.turn (qPos 1) = 1 := by
    have hrun : (Machine.run (step .echo) (new 4096 128 (2 ^ 28))
        [.send (.ofData [1, 2]), .send (.ofData [3])]).map (fun s => (s.channel.vacant (qPos 1),
          s.channel.unanswered (qPos 1), s.owner (qPos 1), s.turn (qPos 1))) =
        some (false, true, 1, 1) := by decide +kernel
    simpa [Option.map_eq_some_iff] using hrun
  have hserved := ((served_in_turn .echo ⟨by decide, by decide, by decide, by decide⟩ hs).2
    _ hbusy hnew).2 [.serveOnce, .recv 0, .serveOnce]
  obtain ⟨s', hs'⟩ : ∃ s', Machine.run (step .echo) s [.serveOnce, .recv 0, .serveOnce] = some s' := by
    have hrun : ((Machine.run (step .echo) (new 4096 128 (2 ^ 28))
        [.send (.ofData [1, 2]), .send (.ofData [3])]).bind fun s =>
          Machine.run (step .echo) s [.serveOnce, .recv 0, .serveOnce]).isSome = true := by
      decide +kernel
    rw [hs, Option.bind_some] at hrun
    exact Option.isSome_iff_exists.mp hrun
  have hcount := hserved s' hs' (by decide)
  rw [howner, hturn] at hcount
  exact ⟨s, s', hs, hs', hcount⟩

end Shadesmar.Rpc.Service
