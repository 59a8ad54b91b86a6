import Shadesmar.Rpc.Reclaim

namespace Shadesmar.Rpc

open Library Shadesmar.Memory

namespace Channel

def freshAt (c : Channel) : Channel where
  queue := ⟨c.counter, fun _ => .fresh⟩
  allocator := { c.allocator with
    req := { c.allocator.req with freeIndex := c.allocator.req.allocIndex } }

theorem freshAt_req {c : Channel} (h : c.allocator.req.freeIndex = c.allocator.req.allocIndex) :
    c.freshAt.allocator.req = c.allocator.req := by
  change { c.allocator.req with freeIndex := c.allocator.req.allocIndex } = c.allocator.req
  rw [← h]

def Accepts (c : Channel) (m : Memblock) : Prop :=
  ∃ c', c.writeClient m = .ok (some c.counter, c')

theorem accepts_iff {c : Channel} {m : Memblock} : c.Accepts m ↔
    m.size ≤ c.allocator.req.getFreeMemory ∧ (c.elem (qPos c.counter)).req.empty = true ∧
      ∃ p a, c.allocator.req.alloc (u32 m.size) = .ok (some p, a) := by
  unfold Accepts writeClient
  by_cases hroom : m.size > c.allocator.req.getFreeMemory
  · have hle : ¬ m.size ≤ c.allocator.req.getFreeMemory := Nat.not_le_of_lt hroom
    simp [hroom, hle]
  · have hle : m.size ≤ c.allocator.req.getFreeMemory := Nat.le_of_not_lt hroom
    rcases accept_cases c (qPos c.counter) with ⟨hbusy, hnone⟩ | ⟨hvacant, hsome⟩
    · have hbusy : (c.elem (qPos c.counter)).req.empty = false := hbusy
      simp [hroom, hnone, hbusy]
    · have hvacant : (c.elem (qPos c.counter)).req.empty = true := hvacant
      simp only [if_neg hroom, hsome, hle, hvacant, true_and, allocReq, allocator_setReq,
        allocator_incCounter]
      cases c.allocator.req.alloc (u32 m.size) with
      | error e => simp [bind, Except.bind]
      | ok r =>
        obtain ⟨p, a⟩ := r
        cases p with
        | none => simp [bind, Except.bind, pure, Except.pure]
        | some p => simp [bind, Except.bind, pure, Except.pure]

end Channel

/-- `refused` is a `send` that returns false.  In `round` the server calls `serve_once` some
times before it comes to the request. -/
inductive Round
  | refused (memblock : Memblock)
  | round (memblock : Memblock) (idle : Nat)

namespace Service

def roundStep (cb : Callback) (s : Service) : Round → Option Service
  | .refused memblock =>
    (s.step cb (.send memblock)).bind fun s' =>
      if s'.accepted = s.accepted then some s' else none
  | .round memblock idle =>
    (s.step cb (.send memblock)).bind fun s' =>
      if s'.accepted = s.accepted then none
      else (Machine.run (step cb) s' (List.replicate (idle + 1) .serveOnce)).bind fun s' =>
        s'.step cb (.recv s.channel.counter)

def Conserves (cb : Callback) (s : Service) (r : Round) : Prop :=
  ∀ s', s.roundStep cb r = some s' →
    s'.channel.allocator.req.liveBlocks = s.channel.allocator.req.liveBlocks

def NonEmpty : Round → Prop
  | .refused _ => True
  | .round memblock _ => memblock.size ≠ 0

variable {cb : Callback} {half : Nat} {s s' : Service} {r : Round}

theorem Lent.serves {p : List UInt8 → Prop} {ls : List (Nat × Block)}
    {use : Fin queueSize → Option Block} (h : s.Lent p half ls use) (hsound : s.Sound) {k : Nat}
    (hs : Machine.run (Service.step cb) s (List.replicate k .serveOnce) = some s') :
    s'.Sound ∧ s'.Lent p half ls use ∧ s'.channel.vacant = s.channel.vacant ∧
      (s'.Tight ↔ s.Tight) := by
  have hrun : Machine.Run (Service.step cb) (fun _ l => l = .serveOnce) s
      (List.replicate k .serveOnce) s' :=
    Machine.Run.of_labels hs fun l hl _ => List.eq_of_mem_replicate hl
  apply hrun.invariant (fun t => t.Sound ∧ t.Lent p half ls use ∧
    t.channel.vacant = s.channel.vacant ∧ (t.Tight ↔ s.Tight)) ⟨hsound, h, rfl, .rfl⟩
  rintro t l t' ⟨ht, hlent, hvacant, htight⟩ rfl hstep
  obtain ⟨hlent', htight'⟩ := hlent.serveOnce hstep
  refine ⟨ht.step hstep, hlent', ?_, htight'.trans htight⟩
  rcases step_cases hstep with ⟨hv, -⟩ | ⟨m, q, hl, -⟩ | ⟨q, -, -, -, hv, -⟩ | ⟨pos, q, hl, -⟩
  · exact hv.trans hvacant
  · cases hl
  · exact hv.trans hvacant
  · cases hl

structure AtRest (half : Nat) (s : Service) : Prop where
  sound : s.Sound
  vacant : ∀ q, s.channel.vacant q = true
  lent : ∃ ls use, s.Lent (fun _ => True) half ls use

theorem AtRest.tight_iff (h : s.AtRest half) :
    s.Tight ↔ s.channel.allocator.req.liveBlocks = [] := by
  simp [Tight, h.vacant, List.eq_nil_iff_forall_not_mem]

theorem AtRest.round (hhalf : half + 1 < 2 ^ 32) (h : s.AtRest half)
    (hs : s.roundStep cb r = some s') : s'.AtRest half ∧ (s'.Tight ↔ s.Tight ∧ NonEmpty r) := by
  obtain ⟨hsound, hvacant, ls, use, hlent⟩ := h
  cases r with
  | refused m =>
    obtain ⟨s₁, hsend, hs⟩ := Option.bind_eq_some_iff.mp hs
    split_ifs at hs with haccepted
    obtain rfl := Option.some.inj hs
    obtain ⟨ls', use', hlent', htight⟩ := hlent.send hhalf hsend trivial
    refine ⟨⟨hsound.step hsend, ?_, ls', use', hlent'⟩, by simp [htight, NonEmpty]⟩
    rcases step_cases hsend with ⟨hv, -⟩ | ⟨m, q, -, -, -, -, -, ha, -⟩ | ⟨q, hl, -⟩ | ⟨pos, q, hl, -⟩
    · rw [hv]
      exact hvacant
    · omega
    · cases hl
    · cases hl
  | round m idle =>
    obtain ⟨s₁, hsend, hs⟩ := Option.bind_eq_some_iff.mp hs
    split_ifs at hs with haccepted
    obtain ⟨s₂, hserve, hrecv⟩ := Option.bind_eq_some_iff.mp hs
    -- all slots are vacant, so that every request in a slot is the one of this round
    have hround : s.Lent (fun data => data = m.bytes) half ls use :=
      ⟨hlent.stores, hlent.increasing, hlent.lt, fun q hq => by simp [hvacant q] at hq, hlent.fresh⟩
    obtain ⟨ls₁, use₁, hlent₁, htight₁⟩ := hround.send hhalf hsend rfl
    obtain ⟨hsound₂, hlent₂, hvacant₂, htight₂⟩ := hlent₁.serves (hsound.step hsend) hserve
    obtain ⟨ls₃, use₃, hlent₃, htight₃⟩ := hlent₂.recv hsound₂ hrecv
    obtain ⟨-, hbusy⟩ := hsound₂.recv_busy hrecv
    obtain ⟨q, hq⟩ : ∃ q, ∀ q', s₂.channel.vacant q' = false ↔ q' = q := by
      rw [hvacant₂]
      rcases step_cases hsend with ⟨-, -, -, ha, -⟩ | ⟨m, q, -, -, hv, -⟩ | ⟨q, hl, -⟩ | ⟨pos, q, hl, -⟩
      · exact absurd ha haccepted
      · exact ⟨q, fun q' => by simp [hv, Function.update_apply, hvacant]⟩
      · cases hl
      · cases hl
    have honly : ∀ q', s₂.channel.vacant q' = false → q' = qPos s.channel.counter :=
      fun q' hq' => ((hq q').mp hq').trans ((hq _).mp hbusy).symm
    have hdone : ∀ q', s'.channel.vacant q' = true := by
      rcases step_cases hrecv with ⟨-, -, -, -, -, -, -, hl⟩ | ⟨m, q, hl, -⟩ | ⟨q, hl, -⟩ |
          ⟨pos, q, hl, rfl, -, hv, -⟩
      · exact absurd rfl (hl _)
      · cases hl
      · cases hl
      · obtain rfl := Label.recv.inj hl
        intro q'
        by_cases hself : q' = qPos s.channel.counter
        · rw [hv, hself, Function.update_self]
        · rw [hv, Function.update_of_ne hself]
          by_contra hlive
          exact hself (honly q' (by simpa using hlive))
    have hreleases : s₂.Releases (.recv s.channel.counter) ↔ m.size ≠ 0 := by
      obtain ⟨b, data, -, -, ⟨b', -, helem, -⟩, rfl⟩ := hlent₂.stored _ hbusy
      have hfilled : m.bytes.length = m.size := (send_ok hsend).1
      constructor
      · intro hall
        have hsize := (hall _ rfl).1
        rw [helem] at hsize
        exact hfilled ▸ hsize
      · rintro hsize pos hpos
        obtain rfl := Label.recv.inj hpos
        refine ⟨by rw [helem]; exact hfilled ▸ hsize, fun q' hq' => ?_⟩
        rw [honly q' hq']
    refine ⟨⟨hsound₂.step hrecv, hdone, ls₃, use₃, ⟨hlent₃.stores, hlent₃.increasing, hlent₃.lt,
      fun q hq => by simp [hdone q] at hq, hlent₃.fresh⟩⟩, ?_⟩
    rw [htight₃, htight₂, htight₁, hreleases]
    rfl

section Runs

variable {heapBase stride bufferSize : Nat} {rounds : List Round}

theorem atRest_new (hb : DoubleAllocator.Admits heapBase stride bufferSize) :
    (new heapBase stride bufferSize).AtRest (bufferSize / 2) :=
  ⟨sound_new _ _ _, fun _ => rfl, _, _, lent_new _ hb⟩

theorem tight_iff_nonEmpty (hb : DoubleAllocator.Admits heapBase stride bufferSize)
    (h : Machine.run (roundStep cb) (new heapBase stride bufferSize) rounds = some s) :
    s.AtRest (bufferSize / 2) ∧ (s.Tight ↔ ∀ r ∈ rounds, NonEmpty r) := by
  have hhalf := hb.half_lt
  have hrest : s.AtRest (bufferSize / 2) := (Machine.Run.of_run h).invariant
    (AtRest (bufferSize / 2)) (atRest_new hb) fun _ _ _ ht _ hs => (ht.round hhalf hs).1
  have hiff : s.Tight ↔ Machine.Run (roundStep cb) (fun _ r => NonEmpty r)
      (new heapBase stride bufferSize) rounds s :=
    Machine.Run.exact (AtRest (bufferSize / 2)) Tight h (atRest_new hb)
      ((lent_new (fun _ => True) hb).tight_iff.mpr nofun) fun _ _ _ ht hs => ht.round hhalf hs
  exact ⟨hrest, hiff.trans ⟨fun hrun => hrun.labels, fun hall =>
    Machine.Run.of_labels h fun r hr _ => hall r hr⟩⟩

/-- Every round conserves the live blocks in exactly those sequences of rounds in which no
request is empty, and after these every `send` succeeds that succeeds on a fresh channel. -/
theorem rounds_conserve (cb : Callback) (hb : DoubleAllocator.Admits heapBase stride bufferSize)
    (h : Machine.run (roundStep cb) (new heapBase stride bufferSize) rounds = some s) :
    (Machine.Run (roundStep cb) (Conserves cb) (new heapBase stride bufferSize) rounds s ↔
      ∀ memblock idle, .round memblock idle ∈ rounds → memblock.size ≠ 0) ∧
    ((∀ memblock idle, .round memblock idle ∈ rounds → memblock.size ≠ 0) →
      ∀ memblock, s.channel.freshAt.Accepts memblock → s.channel.Accepts memblock) := by
  have hhalf := hb.half_lt
  obtain ⟨hrest, htight⟩ := tight_iff_nonEmpty hb h
  have hsizes : (∀ r ∈ rounds, NonEmpty r) ↔
      ∀ memblock idle, .round memblock idle ∈ rounds → memblock.size ≠ 0 := by
    constructor
    · exact fun hall memblock idle hmem => hall _ hmem
    · intro hall r hr
      cases r with
      | refused memblock => trivial
      | round memblock idle => exact hall memblock idle hr
  have hempty := hrest.tight_iff
  rw [← hsizes]
  refine ⟨⟨fun hrun => ?_, fun hall => ?_⟩, fun hall memblock hfresh => ?_⟩
  · rw [← htight, hempty]
    apply hrun.invariant (fun t => t.channel.allocator.req.liveBlocks = [])
      (Allocator.ring_new hb.req).liveBlocks
    intro t r t' ht hconserves hs
    exact (hconserves t' hs).trans ht
  · have hrun : Machine.Run (roundStep cb) (fun _ r => NonEmpty r)
        (new heapBase stride bufferSize) rounds s := Machine.Run.of_labels h fun r hr _ => hall r hr
    apply hrun.refine (fun t => t.AtRest (bufferSize / 2) ∧ t.Tight)
      ⟨atRest_new hb, (lent_new (fun _ => True) hb).tight_iff.mpr nofun⟩
    intro r _ t t' ⟨ht, htight⟩ hr hs
    obtain ⟨ht', hiff⟩ := ht.round hhalf hs
    have htight' : t'.Tight := hiff.mpr ⟨htight, hr⟩
    refine ⟨⟨ht', htight'⟩, fun t'' hs' => ?_⟩
    obtain rfl := Option.some.inj (hs.symm.trans hs')
    rw [ht.tight_iff.mp htight, ht'.tight_iff.mp htight']
  · obtain ⟨ls, use, hlent⟩ := hrest.lent
    have hring := hlent.stores.ring
    rw [← hring.liveBlocks, hempty.mp (htight.mpr hall)] at hring
    have hsame : s.channel.allocator.req.freeIndex = s.channel.allocator.req.allocIndex :=
      hring.chain.eq_nil_iff.mpr rfl
    have halloc := Channel.freshAt_req hsame
    obtain ⟨hroom, -, hsome⟩ := Channel.accepts_iff.mp hfresh
    rw [halloc] at hroom hsome
    exact Channel.accepts_iff.mpr ⟨hroom, hrest.vacant _, hsome⟩

theorem rounds_conserve_two : ∃ s,
    Machine.run (roundStep .echo) (new 4096 128 (2 ^ 28))
      [.round (.ofData [1]) 0, .round (.ofData [2, 3]) 0] = some s ∧
    (Machine.Run (roundStep .echo) (Conserves .echo) (new 4096 128 (2 ^ 28))
      [.round (.ofData [1]) 0, .round (.ofData [2, 3]) 0] s ↔ ∀ memblock idle,
        .round memblock idle ∈ [Round.round (.ofData [1]) 0, .round (.ofData [2, 3]) 0] →
          memblock.size ≠ 0) := by
  obtain ⟨s, hs⟩ := Option.isSome_iff_exists.mp (show (Machine.run (roundStep .echo)
    (new 4096 128 (2 ^ 28)) [.round (.ofData [1]) 0, .round (.ofData [2, 3]) 0]).isSome by
      decide +kernel)
  exact ⟨s, hs,
    (rounds_conserve .echo ⟨by decide, by decide, by decide, by decide⟩ hs).1⟩

/-- The block of an empty request stays live after its round. -/
theorem empty_round_leaks : ∃ rounds s,
    Machine.run (roundStep .echo) (new 4096 128 (2 ^ 28)) rounds = some s ∧
    ¬ Machine.Run (roundStep .echo) (Conserves .echo) (new 4096 128 (2 ^ 28)) rounds s := by
  have hrun : (Machine.run (roundStep .echo) (new 4096 128 (2 ^ 28)) [.round (.ofData []) 0]).map
      (·.channel.allocator.req.liveBlocks) = some [⟨0, 1, 1⟩] := by decide +kernel
  obtain ⟨s, hs, hlive⟩ := Option.map_eq_some_iff.mp hrun
  refine ⟨_, s, hs, fun hconserves => ?_⟩
  have hempty : s.channel.allocator.req.liveBlocks = [] := by
    apply hconserves.invariant (fun t => t.channel.allocator.req.liveBlocks = []) (by decide +kernel)
    intro t r t' ht hkept hstep
    exact (hkept t' hstep).trans ht
  rw [hlive] at hempty
  cases hempty

end Runs

end Service

end Shadesmar.Rpc
