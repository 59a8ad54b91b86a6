import Shadesmar.Rpc.Answering
import Shadesmar.Rpc.Positions

namespace Shadesmar.Rpc.Interleaving

open Library Shadesmar.Memory

variable {n : Nat}

def Label.caller : Label n → Option (Fin n)
  | .send i _ => some i
  | .recv i _ => some i
  | .client i => some i
  | .server => none

namespace World

/-- Client `i` has taken slot `q` and not given it back: it has to write its request there, or to
take the response. -/
def Claims (s : World n) (i : Fin n) (q : Fin queueSize) : Prop :=
  (s.clients i).window = some q ∨ ∃ r ∈ s.pending, r.client = i ∧ r.slot = q

variable {cb : Callback} {half : Nat} {s s' : World n} {i j : Fin n} {q : Fin queueSize}
variable {occ : Fin queueSize → Occupant n} {bs : List Block} {use : Fin queueSize → Option Block}

theorem Requests.not_vacant (h : s.Requests half occ bs use) (hi : s.Claims i q) :
    (s.channel.elem q).req.empty = false := by
  refine Bool.eq_false_iff.mpr fun hvacant => ?_
  have hocc := (h.occupies.flags q).mp hvacant
  rcases hi with hwindow | ⟨r, hr, -, rfl⟩
  · rw [(h.occupies.windows i q).mp hwindow] at hocc
    cases hocc
  · rw [(h.occupies.pending r).mp hr] at hocc
    cases hocc

theorem Requests.claims (h : s.Requests half occ bs use) (hi : s.Claims i q) (he : s.Effect j s')
    (hj : j ≠ i) : s'.Claims i q := by
  cases he with
  | quiet | publish =>
    rcases hi with hwindow | ⟨r, hr, hown⟩
    · exact .inl (by simpa [hj.symm] using hwindow)
    · exact .inr ⟨r, by simp [hr], hown⟩
  | @receive c r' got hpc =>
    rcases hi with hwindow | ⟨r, hr, hown, hslot⟩
    · exact .inl (by simpa [hj.symm] using hwindow)
    · have hne : r ≠ r' := by
        rintro rfl
        exact hj ((h.occupies.receives j r hpc).2.symm.trans hown)
      exact .inr ⟨r, (List.mem_erase_of_ne hne).mpr hr, hown, hslot⟩

theorem Live.claims {l : Label n} (hhalf : half + 1 < 2 ^ 32) (h : s.Live half)
    (hi : s.Claims i q) (hs : s.step cb l = some s') (hl : l.caller ≠ some i) :
    s'.Claims i q := by
  obtain ⟨⟨occ, bs, use, hreq⟩, -⟩ := h
  have hne : ∀ {k}, l.caller = some k → k ≠ i := by
    rintro k hk rfl
    exact hl hk
  cases l with
  | send k m => exact hreq.claims hi (hreq.startSend hs).2 (hne rfl)
  | recv k r => exact hreq.claims hi (hreq.startRecv hs).2 (hne rfl)
  | client k => exact hreq.claims hi (hreq.stepClient hhalf hs).2 (hne rfl)
  | server =>
    obtain ⟨hclients, hpending, -⟩ := stepServer_flags hs
    unfold Claims
    rw [hclients, hpending]
    exact hi

theorem stepClient_counter (hs : s.stepClient j = some s') :
    s'.channel.counter = s.channel.counter ∨ ∃ m pos, s.clients j = .accept m pos ∧
      (s.channel.elem (qPos pos)).req.empty = true ∧
      s'.channel.counter = u32 (s.channel.counter + 1) := by
  unfold stepClient at hs
  cases hpc : s.clients j with
  | idle | aborted => simp [hpc] at hs
  | checkMemory m =>
    rw [hpc] at hs
    dsimp only at hs
    split_ifs at hs <;> obtain rfl := Option.some.inj hs <;> exact .inl rfl
  | accept m pos =>
    rw [hpc] at hs
    dsimp only at hs
    unfold Channel.accept at hs
    by_cases hempty : (s.channel.elem (qPos pos)).req.empty = true
    · rw [if_pos hempty] at hs
      obtain rfl := Option.some.inj hs
      exact .inr ⟨m, pos, rfl, hempty, rfl⟩
    · rw [if_neg hempty] at hs
      obtain rfl := Option.some.inj hs
      exact .inl rfl
  | alloc m pos =>
    rw [hpc] at hs
    cases halloc : s.channel.allocReq m.size with
    | error e =>
      simp only [halloc] at hs
      obtain rfl := Option.some.inj hs
      exact .inl rfl
    | ok pc =>
      obtain ⟨p, c⟩ := pc
      obtain ⟨a, -, rfl⟩ := Channel.allocReq_ok halloc
      simp only [halloc] at hs
      cases p <;> obtain rfl := Option.some.inj hs <;> exact .inl rfl
  | receive r =>
    rw [hpc] at hs
    dsimp only at hs
    split_ifs at hs
    cases hreceive : s.channel.receive r.slot with
    | error e =>
      rw [hreceive] at hs
      obtain rfl := Option.some.inj hs
      exact .inl rfl
    | ok rc =>
      obtain ⟨got, c⟩ := rc
      have hcounter := Channel.counter_receive hreceive
      rw [hreceive] at hs
      cases got <;> obtain rfl := Option.some.inj hs <;> exact .inl hcounter
  | readCounter m | resetSize pos | resetHandle pos | resetEmpty pos | copy m pos p
  | setHandle m pos p | setSize m pos =>
    rw [hpc] at hs
    obtain rfl := Option.some.inj hs
    exact .inl rfl

theorem step_counter {l : Label n} (hs : s.step cb l = some s') :
    s'.channel.counter = s.channel.counter ∨ ∃ k m pos, l = .client k ∧
      s.clients k = .accept m pos ∧ (s.channel.elem (qPos pos)).req.empty = true ∧
      s'.channel.counter = u32 (s.channel.counter + 1) := by
  cases l with
  | send k m =>
    obtain ⟨-, heq⟩ := Option.ite_none_right_eq_some.mp hs
    obtain rfl := Option.some.inj heq
    exact .inl rfl
  | recv k r =>
    obtain ⟨-, heq⟩ := Option.ite_none_right_eq_some.mp hs
    obtain rfl := Option.some.inj heq
    exact .inl rfl
  | server =>
    cases Claim.server hs with
    | keep hcounter => exact .inl hcounter
    | add hl => cases hl
  | client k =>
    rcases stepClient_counter hs with hsame | ⟨m, pos, hpc, hvacant, hnext⟩
    · exact .inl hsame
    · exact .inr ⟨k, m, pos, rfl, hpc, hvacant, hnext⟩

theorem counter_lt {heapBase stride bufferSize : Nat} {labels : List (Label n)}
    (h : Machine.run (step cb) (new heapBase stride bufferSize) labels = some s) :
    s.channel.counter < 2 ^ 32 := by
  refine (Machine.Run.of_run h).invariant (fun t => t.channel.counter < 2 ^ 32)
    (show 0 < 2 ^ 32 by decide) ?_
  intro t l t' ht _ hs
  rcases step_counter hs with hsame | ⟨-, -, -, -, -, -, hnext⟩
  · rw [hsame]
    exact ht
  · rw [hnext]
    unfold u32
    exact Nat.mod_lt _ (Nat.two_pow_pos 32)

theorem counter_of_claims {l : Label n} (h : s.Requests half occ bs use) (hi : s.Claims i q)
    (hok : s.Fresh l) (hs : s.step cb l = some s') :
    s'.channel.counter = s.channel.counter ∨
      qPos s.channel.counter ≠ q ∧ s'.channel.counter = u32 (s.channel.counter + 1) := by
  rcases step_counter hs with hsame | ⟨k, m, pos, rfl, hpc, hvacant, hnext⟩
  · exact .inl hsame
  · refine .inr ⟨?_, hnext⟩
    simp only [Fresh, hpc] at hok
    rw [← hok hvacant]
    rintro rfl
    rw [h.not_vacant hi] at hvacant
    cases hvacant

structure Abandoned (half : Nat) (s : World n) (i : Fin n) (q : Fin queueSize) (c : Nat) : Prop where
  live : s.Live half
  claims : s.Claims i q
  counter : ∃ k, k ≤ Cyclic.steps queueSize (qPos c).val q.val ∧ s.channel.counter = u32 (c + k)

theorem Abandoned.step {l : Label n} {c : Nat} (hhalf : half + 1 < 2 ^ 32)
    (h : s.Abandoned half i q c) (hok : s.Fresh l) (hl : l.caller ≠ some i)
    (hs : s.step cb l = some s') : s'.Abandoned half i q c := by
  obtain ⟨k, hk, hcounter⟩ := h.counter
  refine ⟨h.live.step hhalf hs, h.live.claims hhalf h.claims hs hl, ?_⟩
  obtain ⟨⟨occ, bs, use, hreq⟩, -⟩ := h.live
  rcases counter_of_claims hreq h.claims hok hs with hsame | ⟨hne, hnext⟩
  · exact ⟨k, hk, hsame.trans hcounter⟩
  · refine ⟨k + 1, Nat.lt_of_le_of_ne hk ?_, by rw [hnext, hcounter, u32_succ, Nat.add_assoc]⟩
    rintro rfl
    refine hne ?_
    rw [hcounter, qPos_u32, Fin.ext_iff, qPos_val, qPos_val]
    exact Cyclic.add_steps_mod q.isLt c

/-- A client that dies with a slot closes the channel: whatever the other clients and the server
do, the counter moves on to the next position of this slot and stays there, which makes at most
1023 more requests, and every `send` that finds it there returns false. -/
theorem abandoned_slot_closes_channel (cb : Callback) {heapBase stride bufferSize : Nat}
    (hb : DoubleAllocator.Admits heapBase stride bufferSize) {labels ls : List (Label n)}
    (h : Machine.run (step cb) (new heapBase stride bufferSize) labels = some s)
    (hi : s.Claims i q) (hmore : Machine.Run (step cb) Fresh s ls s')
    (hdead : ∀ l ∈ ls, l.caller ≠ some i) :
    (∃ k, k ≤ Cyclic.steps queueSize (qPos s.channel.counter).val q.val ∧
      s'.channel.counter = u32 (s.channel.counter + k)) ∧
    ∀ j m, qPos s'.channel.counter = q → s'.clients j = .accept m s'.channel.counter →
      s'.stepClient j = some (s'.setClient j .idle) := by
  have hlive : s.Live (bufferSize / 2) := (Machine.Run.of_run h).invariant (Live (bufferSize / 2))
    (live_new hb) fun _ _ _ ht _ hs => ht.step hb.half_lt hs
  have habandoned : s'.Abandoned (bufferSize / 2) i q s.channel.counter := by
    induction hmore with
    | nil => exact ⟨hlive, hi, 0, Nat.zero_le _, (u32_eq (counter_lt h)).symm⟩
    | snoc _ hok hs ih =>
      exact (ih fun l hl => hdead l (List.mem_append_left _ hl)).step hb.half_lt hok
        (hdead _ (List.mem_append_right _ List.mem_cons_self)) hs
  refine ⟨habandoned.counter, ?_⟩
  intro j m hslot hpc
  obtain ⟨⟨occ, bs, use, hreq⟩, -⟩ := habandoned.live
  have hfull := hreq.not_vacant habandoned.claims
  unfold stepClient
  simp only [hpc, Channel.accept, hslot, hfull]
  rfl

def fresh (s : World n) : Label n → Bool
  | .client i =>
    match s.clients i with
    | .accept _ pos => !(s.channel.elem (qPos pos)).req.empty || pos == s.channel.counter
    | _ => true
  | _ => true

theorem fresh_of_test (s : World n) (l : Label n) (h : s.fresh l = true) : s.Fresh l := by
  cases l with
  | client i =>
    simp only [fresh, Fresh] at h ⊢
    cases hpc : s.clients i with
    | accept m pos =>
      simp only [hpc] at h ⊢
      intro hempty
      simpa [hempty] using h
    | _ => trivial
  | _ => trivial

def deathLabels (i : Fin n) : List (Label n) :=
  .send i (.ofData [1]) :: List.replicate 7 (.client i)

def nextLabels (j : Fin n) : List (Label n) :=
  .send j (.ofData [2]) :: List.replicate 7 (.client j)

theorem abandoned_slot_closes_channel_next : ∃ s s' : World 2,
    Machine.run (step .echo) (new 4096 128 (2 ^ 28)) (deathLabels 0) = some s ∧
    Machine.Run (step .echo) Fresh s (nextLabels 1) s' ∧ s'.channel.counter = 2 ∧
    ∃ k, k ≤ 1023 ∧ s'.channel.counter = u32 (1 + k) := by
  obtain ⟨s, hs, hpending, hone, s', hs', htwo⟩ : ∃ s : World 2,
      Machine.run (step .echo) (new 4096 128 (2 ^ 28)) (deathLabels 0) = some s ∧
      s.pending = [⟨0, 0, [1]⟩] ∧ s.channel.counter = 1 ∧
      ∃ s', Machine.runIf (step .echo) fresh s (nextLabels 1) = some s' ∧
        s'.channel.counter = 2 := by
    have hrun : (Machine.run (step .echo) (new 4096 128 (2 ^ 28) : World 2) (deathLabels 0)).map
        (fun s => (s.pending, s.channel.counter,
          (Machine.runIf (step .echo) fresh s (nextLabels 1)).map (·.channel.counter))) =
        some ([⟨0, 0, [1]⟩], 1, some 2) := by decide +kernel
    obtain ⟨s, hs, hvals⟩ := Option.map_eq_some_iff.mp hrun
    simp only [Prod.mk.injEq] at hvals
    exact ⟨s, hs, hvals.1, hvals.2.1, Option.map_eq_some_iff.mp hvals.2.2⟩
  have hb : DoubleAllocator.Admits 4096 128 (2 ^ 28) := by constructor <;> decide
  have hmore : Machine.Run (step .echo) Fresh s (nextLabels 1) s' := .of_runIf fresh_of_test hs'
  have hclaims : s.Claims 0 (qPos 0) := .inr ⟨⟨0, 0, [1]⟩, by rw [hpending]; simp, rfl, rfl⟩
  obtain ⟨⟨k, hk, hcounter⟩, -⟩ := abandoned_slot_closes_channel .echo hb hs hclaims hmore
    (by simp [nextLabels, Label.caller])
  refine ⟨s, s', hs, hmore, htwo, k, Nat.le_trans hk ?_, hone ▸ hcounter⟩
  rw [hone]
  decide

end World

end Shadesmar.Rpc.Interleaving
