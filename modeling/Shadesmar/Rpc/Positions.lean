import Shadesmar.Library.Tally
import Shadesmar.Rpc.Interleaving
import Shadesmar.Rpc.Service

namespace Shadesmar.Rpc

open Library Shadesmar.Memory

namespace Channel

variable {c c' : Channel} {q : Fin queueSize}

theorem counter_cleanUp (h : c.cleanUp q = .ok c') : c'.counter = c.counter := by
  obtain ⟨a, rfl⟩ := cleanUp_ok h
  rfl

theorem counter_receive {r : Option Memblock} (h : c.receive q = .ok (r, c')) :
    c'.counter = c.counter := by
  simp only [receive] at h
  split_ifs at h
  · obtain ⟨c₁, hclean, h⟩ := Checked.bind_eq_ok.mp h
    obtain ⟨-, rfl⟩ := Prod.mk.inj (Except.ok.inj h)
    exact counter_cleanUp hclean
  · obtain ⟨c₁, hclean, h⟩ := Checked.bind_eq_ok.mp h
    obtain ⟨-, rfl⟩ := Prod.mk.inj (Except.ok.inj h)
    exact counter_cleanUp hclean

end Channel

namespace Interleaving

variable {n : Nat}

def ClientPc.claimed : ClientPc n → Option Nat
  | .alloc _ pos => some pos
  | .copy _ pos _ => some pos
  | .setHandle _ pos _ => some pos
  | .setSize _ pos => some pos
  | _ => none

def ClientPc.sending : ClientPc n → Bool
  | .idle => false
  | .receive _ => false
  | .aborted => false
  | _ => true

namespace World

/-- `recv` may be called with any position. -/
def stepAny (cb : Callback) (s : World n) : Label n → Option (World n)
  | .recv i r => if s.clients i = .idle then some (s.setClient i (.receive r)) else none
  | l => s.step cb l

def positions (s : World n) : List Nat := s.accepted.map Sent.pos

def Quiet (s : World n) : Prop := ∀ i, (s.clients i).sending = false

/-- No position has been handed out twice, and, when no `send` is in progress, none below
the counter is missing. -/
def HandedOnce (s : World n) : Prop :=
  s.positions.Nodup ∧ (s.Quiet → ∀ p, p ∈ s.positions ↔ p < s.channel.counter)

/-- The counter does not wrap, and the allocator refuses no request. -/
def Unfailing (s : World n) : Label n → Prop
  | .client i =>
    match s.clients i with
    | .accept _ _ => s.channel.counter + 1 < 2 ^ 32
    | .alloc m _ => ∃ p c, s.channel.allocReq m.size = .ok (some p, c)
    | _ => True
  | _ => True

def unfails (s : World n) : Label n → Bool
  | .client i =>
    match s.clients i with
    | .accept _ _ => decide (s.channel.counter + 1 < 2 ^ 32)
    | .alloc m _ =>
      match s.channel.allocReq m.size with
      | .ok (some _, _) => true
      | _ => false
    | _ => true
  | _ => true

theorem unfailing_of_unfails {s : World n} {l : Label n} (h : s.unfails l = true) :
    s.Unfailing l := by
  cases l with
  | client i =>
    simp only [unfails, Unfailing] at h ⊢
    cases hpc : s.clients i with
    | accept m pos => simpa [hpc] using h
    | alloc m pos =>
      simp only [hpc] at h ⊢
      split at h
      case h_1 p c halloc => exact ⟨p, c, halloc⟩
      case h_2 => cases h
    | _ => trivial
  | _ => trivial

/-- A client that finds its slot vacant finds the counter as it has read it. -/
def Fresh (s : World n) : Label n → Prop
  | .client i =>
    match s.clients i with
    | .accept _ pos => (s.channel.elem (qPos pos)).req.empty = true → pos = s.channel.counter
    | _ => True
  | _ => True

def held (s : World n) (p : Nat) : Nat :=
  s.positions.count p + Tally.total (Tally.holding ClientPc.claimed p) s.clients

def ClaimedOnce (s : World n) : Prop := ∀ p, s.held p = if p < s.channel.counter then 1 else 0

structure Counted (s : World n) : Prop where
  read : ∀ i m pos, s.clients i = .accept m pos → pos ≤ s.channel.counter
  held : ∀ p, 0 < s.held p → p < s.channel.counter

section Steps

variable {cb : Callback} {s s' : World n} {i : Fin n} {l : Label n} {pc : ClientPc n} {c : Channel}

theorem held_congr (hclients : s'.clients = Function.update s.clients i pc)
    (haccepted : s'.accepted = s.accepted) (hpc : pc.claimed = (s.clients i).claimed) (p : Nat) :
    s'.held p = s.held p := by
  unfold held positions
  rw [hclients, haccepted, Tally.total_keep ClientPc.claimed hpc]

inductive Claim (s : World n) (l : Label n) (s' : World n) : Prop
  | keep : s'.channel.counter = s.channel.counter → (∀ p, s'.held p = s.held p) →
      (∀ j m pos, s'.clients j = .accept m pos →
        s.clients j = .accept m pos ∨ pos = s.channel.counter) →
      s.Fresh l → Claim s l s'
  | add {i : Fin n} {m : Memblock} {pos : Nat} : l = .client i → s.clients i = .accept m pos →
      (s.channel.elem (qPos pos)).req.empty = true →
      s'.channel.counter = s.channel.counter + 1 →
      (∀ p, s'.held p = s.held p + if p = pos then 1 else 0) →
      (∀ j m' pos', s'.clients j = .accept m' pos' → s.clients j = .accept m' pos') →
      Claim s l s'

theorem Claim.quiet (hclients : s'.clients = Function.update s.clients i pc)
    (haccepted : s'.accepted = s.accepted) (hcounter : s'.channel.counter = s.channel.counter)
    (hpc : pc.claimed = (s.clients i).claimed)
    (haccept : ∀ m pos, pc = .accept m pos → pos = s.channel.counter) (hfresh : s.Fresh l) :
    s.Claim l s' := by
  refine .keep hcounter (held_congr hclients haccepted hpc) ?_ hfresh
  intro j m pos hj
  rw [hclients, Function.update_apply] at hj
  split_ifs at hj with hji
  · exact .inr (haccept m pos hj)
  · exact .inl hj

theorem Claim.server (hs : s.stepServer cb = some s') : s.Claim .server s' := by
  have hquiet : ∀ {t : World n}, t.clients = s.clients → t.accepted = s.accepted →
      t.channel.counter = s.channel.counter → s.Claim .server t := by
    intro t hclients haccepted hcounter
    refine .keep hcounter ?_ ?_ trivial
    · intro p
      simp only [held, positions, hclients, haccepted]
    · intro j m pos hj
      exact .inl (hclients ▸ hj)
  unfold stepServer at hs
  cases hpc : s.server with
  | aborted => simp [hpc] at hs
  | readServer pos =>
    rw [hpc] at hs
    dsimp only at hs
    split at hs <;> obtain rfl := Option.some.inj hs <;> exact hquiet rfl rfl rfl
  | checkMemory pos resp =>
    rw [hpc] at hs
    dsimp only at hs
    split_ifs at hs <;> obtain rfl := Option.some.inj hs <;> exact hquiet rfl rfl rfl
  | alloc pos resp =>
    rw [hpc] at hs
    cases halloc : s.channel.allocResp resp.size with
    | error e =>
      simp only [halloc] at hs
      obtain rfl := Option.some.inj hs
      exact hquiet rfl rfl rfl
    | ok pc =>
      obtain ⟨p, c⟩ := pc
      obtain ⟨a, -, rfl⟩ := Channel.allocResp_ok halloc
      simp only [halloc] at hs
      cases p <;> obtain rfl := Option.some.inj hs <;> exact hquiet rfl rfl rfl
  | fetchAdd | callback pos req | copy pos resp p | publish pos resp p | signalError pos =>
    rw [hpc] at hs
    obtain rfl := Option.some.inj hs
    exact hquiet rfl rfl rfl

theorem Claim.client (hs : s.stepClient i = some s') (hok : s.Unfailing (.client i)) :
    s.Claim (.client i) s' := by
  unfold stepClient at hs
  cases hpc : s.clients i with
  | idle => simp [hpc] at hs
  | aborted => simp [hpc] at hs
  | checkMemory m =>
    rw [hpc] at hs
    dsimp only at hs
    split_ifs at hs <;> obtain rfl := Option.some.inj hs <;>
      exact .quiet rfl rfl rfl (by rw [hpc]; rfl) (by rintro _ _ ⟨⟩) (by simp [Fresh, hpc])
  | readCounter m =>
    rw [hpc] at hs
    obtain rfl := Option.some.inj hs
    refine .quiet rfl rfl rfl (by rw [hpc]; rfl) ?_ (by simp [Fresh, hpc])
    intro m' pos heq
    exact (ClientPc.accept.inj heq).2.symm
  | accept m pos =>
    rw [hpc] at hs
    dsimp only at hs
    unfold Channel.accept at hs
    by_cases hempty : (s.channel.elem (qPos pos)).req.empty = true
    · rw [if_pos hempty] at hs
      obtain rfl := Option.some.inj hs
      have hroom : s.channel.counter + 1 < 2 ^ 32 := by simpa only [Unfailing, hpc] using hok
      refine .add rfl hpc hempty (u32_eq hroom) ?_ ?_
      · intro p
        have hnone : (s.clients i).claimed = none := by rw [hpc]; rfl
        have htake := Tally.total_take ClientPc.claimed hnone
          (show (ClientPc.alloc m pos).claimed = some pos from rfl) p
        exact (congrArg (s.positions.count p + ·) htake).trans (Nat.add_assoc ..).symm
      · intro j m' pos' hj
        rw [clients_setClient] at hj
        split_ifs at hj
        exact hj
    · rw [if_neg hempty] at hs
      obtain rfl := Option.some.inj hs
      exact .quiet rfl rfl rfl (by rw [hpc]; rfl) (by rintro _ _ ⟨⟩) (by simp [Fresh, hpc, hempty])
  | alloc m pos =>
    obtain ⟨p, c, halloc⟩ : ∃ p c, s.channel.allocReq m.size = .ok (some p, c) := by
      simpa only [Unfailing, hpc] using hok
    obtain ⟨a, -, rfl⟩ := Channel.allocReq_ok halloc
    rw [hpc] at hs
    simp only [halloc] at hs
    obtain rfl := Option.some.inj hs
    exact .quiet rfl rfl rfl (by rw [hpc]; rfl) (by rintro _ _ ⟨⟩) (by simp [Fresh, hpc])
  | resetSize pos | resetHandle pos | resetEmpty pos | copy m pos p | setHandle m pos p =>
    rw [hpc] at hs
    obtain rfl := Option.some.inj hs
    exact .quiet rfl rfl rfl (by rw [hpc]; rfl) (by rintro _ _ ⟨⟩) (by simp [Fresh, hpc])
  | setSize m pos =>
    rw [hpc] at hs
    obtain rfl := Option.some.inj hs
    refine .keep rfl ?_ ?_ (by simp [Fresh, hpc])
    · intro p
      have hsome : (s.clients i).claimed = some pos := by rw [hpc]; rfl
      have hgive := Tally.total_give ClientPc.claimed hsome
        (show (ClientPc.idle : ClientPc n).claimed = none from rfl) p
      simp only [held, positions, setClient, List.map_append, List.map_cons, List.map_nil,
        List.count_append, List.count_singleton, beq_iff_eq, hgive, @eq_comm _ pos p]
      omega
    · intro j m' pos' hj
      rw [clients_setClient] at hj
      split_ifs at hj
      exact .inl hj
  | receive r =>
    rw [hpc] at hs
    dsimp only at hs
    split_ifs at hs
    cases hreceive : s.channel.receive r.slot with
    | error e =>
      rw [hreceive] at hs
      obtain rfl := Option.some.inj hs
      exact .quiet rfl rfl rfl (by rw [hpc]; rfl) (by rintro _ _ ⟨⟩) (by simp [Fresh, hpc])
    | ok rc =>
      obtain ⟨got, c⟩ := rc
      have hcounter := Channel.counter_receive hreceive
      rw [hreceive] at hs
      cases got <;> obtain rfl := Option.some.inj hs <;>
        exact .quiet rfl rfl hcounter (by rw [hpc]; rfl) (by rintro _ _ ⟨⟩) (by simp [Fresh, hpc])

theorem Claim.of_step (hs : s.stepAny cb l = some s') (hok : s.Unfailing l) : s.Claim l s' := by
  cases l with
  | send i m =>
    simp only [stepAny, step, startSend] at hs
    split_ifs at hs with hidle
    obtain rfl := Option.some.inj hs
    exact .quiet rfl rfl rfl (by rw [hidle.1]; rfl) nofun trivial
  | recv i r =>
    simp only [stepAny] at hs
    split_ifs at hs with hidle
    obtain rfl := Option.some.inj hs
    exact .quiet rfl rfl rfl (by rw [hidle]; rfl) nofun trivial
  | client i => exact .client hs hok
  | server => exact .server hs

theorem Counted.step (h : s.Counted) (hs : s.stepAny cb l = some s') (hok : s.Unfailing l) :
    s'.Counted := by
  obtain ⟨hread, hheld⟩ := h
  cases Claim.of_step hs hok with
  | keep hcounter hkept haccept _ =>
    constructor
    · intro j m pos hj
      rw [hcounter]
      rcases haccept j m pos hj with hold | rfl
      · exact hread j m pos hold
      · exact Nat.le_refl _
    · intro p hp
      rw [hcounter]
      exact hheld p (hkept p ▸ hp)
  | @add i m pos _ hpc _ hcounter hadded haccept =>
    constructor
    · intro j m' pos' hj
      have := hread j m' pos' (haccept j m' pos' hj)
      omega
    · intro p hp
      rw [hadded] at hp
      rw [hcounter]
      have hpos := hread i m pos hpc
      split_ifs at hp with heq
      · omega
      · have := hheld p (by omega)
        omega

theorem Counted.claimedOnce_step (h : s.Counted) (hs : s.stepAny cb l = some s')
    (hok : s.Unfailing l) : s'.ClaimedOnce ↔ s.ClaimedOnce ∧ s.Fresh l := by
  unfold ClaimedOnce
  cases Claim.of_step hs hok with
  | keep hcounter hkept _ hfresh => simp [hcounter, hkept, hfresh]
  | @add i m pos hl hpc hempty hcounter hadded _ =>
    subst hl
    have hfresh : s.Fresh (.client i) ↔ pos = s.channel.counter := by simp [Fresh, hpc, hempty]
    have hread := h.read i m pos hpc
    rw [hfresh]
    simp only [hadded, hcounter]
    constructor
    · intro hall
      have hpos : pos = s.channel.counter := by
        by_contra hne
        have hlast := hall s.channel.counter
        rw [if_neg (by omega), if_pos (by omega)] at hlast
        have hlt := h.held s.channel.counter (by omega)
        omega
      refine ⟨fun p => ?_, hpos⟩
      have hp := hall p
      split_ifs at hp ⊢ <;> omega
    · rintro ⟨hall, rfl⟩ p
      rw [hall p]
      split_ifs <;> omega

theorem Quiet.held_eq (h : s.Quiet) (p : Nat) : s.held p = s.positions.count p := by
  have hnone : Tally.total (Tally.holding ClientPc.claimed p) s.clients = 0 := by
    rw [Tally.total_eq_zero]
    intro i
    have hi := h i
    cases hpc : s.clients i with
    | idle => rfl
    | receive r => rfl
    | aborted => rfl
    | _ =>
      rw [hpc] at hi
      cases hi
  rw [held, hnone, Nat.add_zero]

theorem ClaimedOnce.handedOnce (h : s.ClaimedOnce) : s.HandedOnce := by
  constructor
  · rw [List.nodup_iff_count_le_one]
    intro p
    have hp := h p
    unfold held at hp
    split_ifs at hp <;> omega
  · intro hquiet p
    have hp := h p
    rw [hquiet.held_eq] at hp
    rw [← List.count_pos_iff, hp]
    split_ifs with hlt <;> simp [hlt]

theorem Quiet.claimedOnce (h : s.Quiet) (honce : s.HandedOnce) : s.ClaimedOnce := by
  obtain ⟨hnodup, hall⟩ := honce
  intro p
  have hle := List.nodup_iff_count_le_one.mp hnodup p
  have hmem := (List.count_pos_iff (a := p)).trans (hall h p)
  rw [h.held_eq]
  split_ifs with hlt
  · have := hmem.mpr hlt
    omega
  · have := mt hmem.mp hlt
    omega

end Steps

section Runs

variable {heapBase stride bufferSize : Nat}

theorem counted_new : (new heapBase stride bufferSize : World n).Counted := by
  constructor
  · exact fun _ _ _ => nofun
  · intro p hp
    simp [held, positions, new, Tally.total, Tally.holding, ClientPc.claimed] at hp

theorem claimedOnce_new : (new heapBase stride bufferSize : World n).ClaimedOnce := by
  intro p
  simp [held, positions, new, Tally.total, Tally.holding, ClientPc.claimed, Channel.counter,
    Channel.new]

/-- Positions are handed out once in every state of a run in which no client comes to the
lock of a vacant slot with an old counter; and of the runs that end with no `send` in
progress, those are the only ones that do so. -/
theorem positions_handed_out_once (cb : Callback) {labels : List (Label n)} {s : World n}
    (h : Machine.Run (stepAny cb) Unfailing (new heapBase stride bufferSize) labels s) :
    (Machine.Run (stepAny cb) Fresh (new heapBase stride bufferSize) labels s → s.HandedOnce) ∧
    (s.Quiet → (s.HandedOnce ↔
      Machine.Run (stepAny cb) Fresh (new heapBase stride bufferSize) labels s)) := by
  have hexact : s.ClaimedOnce ↔
      Machine.Run (stepAny cb) Fresh (new heapBase stride bufferSize) labels s := by
    apply h.exact_of Counted ClaimedOnce counted_new claimedOnce_new
    intro t l t' ht hok hs
    exact ⟨ht.step hs hok, ht.claimedOnce_step hs hok⟩
  refine ⟨fun hrun => (hexact.mpr hrun).handedOnce, fun hquiet => ?_⟩
  rw [← hexact]
  exact ⟨hquiet.claimedOnce, ClaimedOnce.handedOnce⟩

end Runs

theorem positions_handed_out_once_two : ∃ (labels : List (Label 2)) (s : World 2),
    Machine.Run (stepAny .echo) Unfailing (new 4096 128 (2 ^ 28)) labels s ∧
    s.positions = [1, 0] ∧
    (Machine.Run (stepAny .echo) Fresh (new 4096 128 (2 ^ 28)) labels s → s.HandedOnce) ∧
    (s.Quiet → (s.HandedOnce ↔
      Machine.Run (stepAny .echo) Fresh (new 4096 128 (2 ^ 28)) labels s)) := by
  have hrun : (Machine.runIf (stepAny .echo) unfails (new 4096 128 (2 ^ 28) : World 2)
      ([.send 0 (.ofData [1]), .client 0, .client 0, .client 0, .send 1 (.ofData [2])] ++
        List.replicate 7 (.client 1) ++ List.replicate 4 (.client 0))).map (·.positions) =
      some [1, 0] := by decide +kernel
  obtain ⟨s, hs, hpositions⟩ := Option.map_eq_some_iff.mp hrun
  have hok : Machine.Run (stepAny .echo) Unfailing (new 4096 128 (2 ^ 28)) _ s :=
    Machine.Run.of_runIf (fun _ _ h => unfailing_of_unfails h) hs
  exact ⟨_, s, hok, hpositions, positions_handed_out_once .echo hok⟩

/-- Client 0 reads the counter and waits; client 1 sends, is answered and receives; client
0 finds slot 0 vacant. -/
theorem position_handed_out_twice : ∃ (labels : List (Label 2)) (s : World 2),
    Machine.Run (stepAny .echo) Unfailing (new 4096 128 (2 ^ 28)) labels s ∧ s.Quiet ∧
      s.positions = [0, 0] ∧ s.channel.counter = 2 ∧ ¬ s.HandedOnce := by
  have hrun : (Machine.runIf (stepAny .echo) unfails (new 4096 128 (2 ^ 28) : World 2)
      ([.send 0 (.ofData [1]), .client 0, .client 0, .send 1 (.ofData [2])] ++
        List.replicate 7 (.client 1) ++ List.replicate 7 .server ++
        [.recv 1 ⟨1, 0, [2]⟩, .client 1] ++ List.replicate 5 (.client 0))).map (fun s =>
          (s.positions, s.channel.counter, (s.clients 0).sending, (s.clients 1).sending)) =
      some ([0, 0], 2, false, false) := by decide +kernel
  obtain ⟨s, hs, hvals⟩ := Option.map_eq_some_iff.mp hrun
  simp only [Prod.mk.injEq] at hvals
  obtain ⟨hpositions, hcounter, hidle₀, hidle₁⟩ := hvals
  refine ⟨_, s, .of_runIf (fun _ _ h => unfailing_of_unfails h) hs, ?_, hpositions, hcounter, ?_⟩
  · intro i
    match i with
    | 0 => exact hidle₀
    | 1 => exact hidle₁
  · rintro ⟨hnodup, -⟩
    rw [hpositions] at hnodup
    revert hnodup
    decide

end World

end Interleaving

end Shadesmar.Rpc
