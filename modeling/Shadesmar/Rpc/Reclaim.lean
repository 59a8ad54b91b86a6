import Shadesmar.Memory.Live
import Shadesmar.Rpc.RequestMemory
import Shadesmar.Rpc.Service

namespace Shadesmar.Rpc.Service

open Library Shadesmar.Memory

def Tight (s : Service) : Prop :=
  ∀ b ∈ s.channel.allocator.req.liveBlocks, ∃ q, s.channel.vacant q = false ∧
    (s.channel.elem q).req.addressHandle = b.handle

def Releases (s : Service) (l : Label) : Prop :=
  ∀ pos, l = .recv pos → (s.channel.elem (qPos pos)).req.size ≠ 0 ∧
    ∀ q, s.channel.vacant q = false → s.owner (qPos pos) ≤ s.owner q

structure Lent (p : List UInt8 → Prop) (half : Nat) (s : Service) (ls : List (Nat × Block))
    (use : Fin queueSize → Option Block) : Prop where
  stores : Stores half s.channel (ls.map Prod.snd) use
  increasing : ls.Pairwise fun x y => x.1 < y.1
  lt : ∀ x ∈ ls, x.1 < s.accepted
  stored : ∀ q, s.channel.vacant q = false → ∃ b data, use q = some b ∧ (s.owner q, b) ∈ ls ∧
    Stored s.channel use q data ∧ p data
  fresh : ∀ q, s.channel.vacant q = true → (s.channel.elem q).req = .fresh

section Lent

variable {p : List UInt8 → Prop} {half : Nat} {s s' : Service} {ls : List (Nat × Block)}
variable {use : Fin queueSize → Option Block} {cb : Callback} {l : Label}

theorem Lent.block_inj (h : s.Lent p half ls use) {k k' : Nat} {b : Block} (hk : (k, b) ∈ ls)
    (hk' : (k', b) ∈ ls) : k = k' :=
  congrArg Prod.fst (List.inj_on_of_nodup_map h.stores.ring.nodup hk hk' rfl)

theorem Lent.number_inj (h : s.Lent p half ls use) {k : Nat} {b b' : Block} (hb : (k, b) ∈ ls)
    (hb' : (k, b') ∈ ls) : b = b' := by
  by_contra hne
  have hsymm : Std.Symm fun x y : Nat × Block => x.1 ≠ y.1 := ⟨fun _ _ => Ne.symm⟩
  have hpair : ls.Pairwise fun x y => x.1 ≠ y.1 := h.increasing.imp Nat.ne_of_lt
  exact hpair.forall hb hb' (fun heq => hne (congrArg Prod.snd heq)) rfl

theorem Lent.tight_iff (h : s.Lent p half ls use) :
    s.Tight ↔ ∀ x ∈ ls, ∃ q, s.channel.vacant q = false ∧ s.owner q = x.1 := by
  unfold Tight
  rw [h.stores.ring.liveBlocks]
  constructor
  · rintro htight ⟨k, b⟩ hx
    obtain ⟨q, hq, hhandle⟩ := htight b (List.mem_map_of_mem (f := Prod.snd) hx)
    obtain ⟨b', data, hb', hmem, ⟨b'', hb'', helem, -⟩, -⟩ := h.stored q hq
    obtain rfl := Option.some.inj (hb'.symm.trans hb'')
    have hpayload : b'.payload = b.payload := by
      rw [helem] at hhandle
      simp only [Block.handle] at hhandle
      omega
    obtain rfl := h.stores.ring.payload_inj (List.mem_map_of_mem (f := Prod.snd) hmem)
      (List.mem_map_of_mem (f := Prod.snd) hx) hpayload
    exact ⟨q, hq, h.block_inj hmem hx⟩
  · intro howner b hb
    obtain ⟨⟨k, b⟩, hx, rfl⟩ := List.mem_map.mp hb
    obtain ⟨q, hq, hk⟩ := howner _ hx
    obtain ⟨b', data, hb', hmem, ⟨b'', hb'', helem, -⟩, -⟩ := h.stored q hq
    obtain rfl := Option.some.inj (hb'.symm.trans hb'')
    rw [hk] at hmem
    obtain rfl := h.number_inj hmem hx
    exact ⟨q, hq, by rw [helem]⟩

theorem Lent.same (h : s.Lent p half ls use)
    (hreq : ∀ q, (s'.channel.elem q).req = (s.channel.elem q).req)
    (halloc : s'.channel.allocator.req = s.channel.allocator.req) (howner : s'.owner = s.owner)
    (haccepted : s'.accepted = s.accepted) :
    s'.Lent p half ls use ∧ (s'.Tight ↔ s.Tight) := by
  have hvacant : s'.channel.vacant = s.channel.vacant := funext fun q => congrArg _ (hreq q)
  have hlent : s'.Lent p half ls use := by
    refine ⟨⟨halloc ▸ h.stores.ring, halloc ▸ h.stores.size, h.stores.used, h.stores.inj⟩,
      h.increasing, haccepted ▸ h.lt, ?_, ?_⟩
    · intro q hq
      rw [hvacant] at hq
      obtain ⟨b, data, hb, hmem, hstored, hdata⟩ := h.stored q hq
      refine ⟨b, data, hb, howner ▸ hmem, hstored.keeps ⟨hreq q, rfl, by rw [halloc], ?_⟩, hdata⟩
      intro b _ data hdata
      exact halloc ▸ hdata
    · intro q hq
      rw [hvacant] at hq
      exact (hreq q).trans (h.fresh q hq)
  refine ⟨hlent, ?_⟩
  rw [hlent.tight_iff, h.tight_iff, hvacant, howner]

theorem Lent.send (hhalf : half + 1 < 2 ^ 32) (h : s.Lent p half ls use) {m : Memblock}
    (hs : s.step cb (.send m) = some s') (hp : p m.bytes) :
    ∃ ls' use', s'.Lent p half ls' use' ∧ (s'.Tight ↔ s.Tight) := by
  simp only [step] at hs
  split_ifs at hs with hm
  rcases h.stores.writeClient hhalf hm (h.fresh _) with
    ⟨c', hwrite, helem, halloc⟩ | ⟨b, c', hwrite, hvacant, -, -, hstores, hstored, hkeeps⟩
  · rw [hwrite] at hs
    obtain rfl := Option.some.inj hs
    refine ⟨ls, use, h.same (fun q => ?_) ?_ rfl rfl⟩
    · exact congrArg _ (congrFun helem q)
    · exact congrArg _ halloc
  · rw [hwrite] at hs
    obtain rfl := Option.some.inj hs
    have hlent : Lent p half { s with
        channel := c'
        owner := Function.update s.owner (qPos s.channel.counter) s.accepted
        accepted := s.accepted + 1 } (ls ++ [(s.accepted, b)])
        (Function.update use (qPos s.channel.counter) (some b)) := by
      refine ⟨by simpa using hstores, ?_, ?_, ?_, ?_⟩
      · refine List.pairwise_append.mpr ⟨h.increasing, List.pairwise_singleton _ _, ?_⟩
        intro x hx y hy
        rw [List.mem_singleton.mp hy]
        exact h.lt x hx
      · intro x hx
        rcases List.mem_append.mp hx with hold | hnew
        · exact Nat.lt_succ_of_lt (h.lt x hold)
        · rw [List.mem_singleton.mp hnew]
          exact Nat.lt_succ_self _
      · intro q hq
        by_cases hself : q = qPos s.channel.counter
        · subst hself
          exact ⟨b, m.bytes, by simp, by simp, hstored, hp⟩
        · have hold : s.channel.vacant q = false := by
            rw [← hq]
            exact congrArg _ (hkeeps q hself).req.symm
          obtain ⟨b', data, hb', hmem, hstored', hdata⟩ := h.stored q hold
          refine ⟨b', data, ?_, ?_, hstored'.keeps (hkeeps q hself), hdata⟩
          · rw [Function.update_of_ne hself, hb']
          · simp only [Function.update_of_ne hself]
            exact List.mem_append_left _ hmem
      · intro q hq
        by_cases hself : q = qPos s.channel.counter
        · subst hself
          obtain ⟨b', -, helem, -⟩ := hstored
          have hq : (c'.elem (qPos s.channel.counter)).req.empty = true := hq
          rw [helem] at hq
          cases hq
        · have hreq := (hkeeps q hself).req
          have hold : s.channel.vacant q = true := by
            rw [← hq]
            exact congrArg _ hreq.symm
          exact hreq.trans (h.fresh q hold)
    refine ⟨_, _, hlent, ?_⟩
    have hlive : ∀ q, q ≠ qPos s.channel.counter → c'.vacant q = s.channel.vacant q :=
      fun q hq => congrArg _ (hkeeps q hq).req
    have htaken : c'.vacant (qPos s.channel.counter) = false := by
      obtain ⟨b', -, helem, -⟩ := hstored
      simp [Channel.vacant, helem]
    have hwas : s.channel.vacant (qPos s.channel.counter) = true := hvacant
    have hlt := h.lt
    rw [hlent.tight_iff, h.tight_iff]
    simp only [List.mem_append, List.mem_singleton]
    grind [Function.update_apply]

theorem Lent.serveOnce (h : s.Lent p half ls use) (hs : s.step cb .serveOnce = some s') :
    s'.Lent p half ls use ∧ (s'.Tight ↔ s.Tight) := by
  obtain ⟨done, c, hprocess, rfl⟩ := serveOnce_ok hs
  rcases Channel.process_cases hprocess with ⟨-, -, rfl⟩ | ⟨-, req, -, hwrite⟩
  · exact h.same (fun q => rfl) rfl rfl rfl
  · obtain ⟨halloc, hreq⟩ := Channel.writeServer_req hwrite
    exact h.same hreq halloc rfl rfl

theorem Sound.recv_busy (h : s.Sound) {pos : Nat} (hs : s.step cb (.recv pos) = some s') :
    s.channel.unanswered (qPos pos) = false ∧ s.channel.vacant (qPos pos) = false := by
  obtain ⟨r, c, hread, -⟩ := recv_ok hs
  have hwaits := (Channel.readClient_cases hread).1
  refine ⟨hwaits, ?_⟩
  by_contra hvacant
  rw [h.unused _ (by simpa using hvacant)] at hwaits
  cases hwaits

theorem Lent.drop (h : s.Lent p half ls use) {q : Fin queueSize} {b : Block} (hb : use q = some b)
    {a : Allocator} {ls' : List (Nat × Block)} (hsub : ls'.Sublist ls)
    (hring : a.Ring (ls'.map Prod.snd)) (hsize : a.size = s.channel.allocator.req.size)
    (hbase : a.heapBase = s.channel.allocator.req.heapBase)
    (hholds : ∀ b data, s.channel.allocator.req.Holds b data → a.Holds b data)
    (hkept : ∀ x ∈ ls, x.2 ≠ b → x ∈ ls') (received : List Nat) :
    Lent p half { s with
      channel := (s.channel.setReqAllocator a).resetElem q, received := received } ls'
      (Function.update use q none) := by
  have hother : ∀ q' b', Function.update use q none q' = some b' → q' ≠ q ∧ use q' = some b' := by
    intro q' b' hb'
    grind [Function.update_apply]
  have hreq : ∀ q', q' ≠ q → (((s.channel.setReqAllocator a).resetElem q).elem q').req =
      (s.channel.elem q').req := by
    intro q' hq
    simp [Channel.resetElem, Channel.elem_setReq_ne, hq]
  have hfresh : (((s.channel.setReqAllocator a).resetElem q).elem q).req = .fresh := by
    simp [Channel.resetElem]
  refine ⟨⟨hring, hsize.trans h.stores.size, ?_, ?_⟩, h.increasing.sublist hsub,
    fun x hx => h.lt x (hsub.subset hx), ?_, ?_⟩
  · intro q' b' hb'
    obtain ⟨hq, hold⟩ := hother q' b' hb'
    obtain ⟨x, hx, rfl⟩ := List.mem_map.mp (h.stores.used q' b' hold)
    exact List.mem_map_of_mem (hkept x hx (h.stores.ne_of_use hb hold hq))
  · intro q₁ q₂ b' h₁ h₂
    exact h.stores.inj q₁ q₂ b' (hother q₁ b' h₁).2 (hother q₂ b' h₂).2
  · intro q' hlive
    by_cases hq : q' = q
    · subst hq
      simp [Channel.vacant, hfresh, Element.fresh] at hlive
    · have hold : s.channel.vacant q' = false := by
        rw [← hlive]
        exact congrArg _ (hreq q' hq).symm
      obtain ⟨b', data, hb', hmem, hstored, hdata⟩ := h.stored q' hold
      have hsame : Function.update use q none q' = use q' := Function.update_of_ne hq ..
      refine ⟨b', data, hsame.trans hb', hkept _ hmem (h.stores.ne_of_use hb hb' hq),
        hstored.keeps ⟨hreq q' hq, hsame, hbase, ?_⟩, hdata⟩
      exact fun b _ data hdata => hholds b data hdata
  · intro q' hvacant
    by_cases hq : q' = q
    · exact hq ▸ hfresh
    · refine (hreq q' hq).trans (h.fresh q' ?_)
      rw [← hvacant]
      exact congrArg _ (hreq q' hq).symm

theorem Lent.recv (h : s.Lent p half ls use) (hsound : s.Sound) {pos : Nat}
    (hs : s.step cb (.recv pos) = some s') :
    ∃ ls' use', s'.Lent p half ls' use' ∧ (s'.Tight ↔ s.Tight ∧ s.Releases (.recv pos)) := by
  obtain ⟨hwaits, hbusy⟩ := hsound.recv_busy hs
  generalize hq : qPos pos = q at *
  obtain ⟨b, data, hb, hmem, hstored, -⟩ := h.stored q hbusy
  have hsize : (s.channel.elem q).req.size = data.length := by
    obtain ⟨b', -, helem, -⟩ := hstored
    rw [helem]
  cases ls with
  | nil => simp at hmem
  | cons x rest =>
    obtain ⟨k, b₀⟩ := x
    have hstores : Stores half s.channel (b₀ :: rest.map Prod.snd) use := h.stores
    have hclean := hstores.cleanUp_eq hstored hb
    have hread : s.channel.readClient pos = some (s.channel.receive q) := by
      simp only [Channel.readClient, hq]
      exact if_neg (by simpa [Channel.unanswered] using hwaits)
    rw [Channel.receive_eq hclean] at hread
    simp only [step, hread] at hs
    obtain rfl := Option.some.inj hs
    have hvacant : ∀ a, ((s.channel.setReqAllocator a).resetElem q).vacant =
        Function.update s.channel.vacant q true := fun a => by
      simp [Channel.resetElem, Element.fresh]
    have hfirst : ∀ x ∈ rest, k < x.1 := (List.pairwise_cons.mp h.increasing).1
    have hnumbers : ∀ q', s.channel.vacant q' = false → k ≤ s.owner q' := by
      intro q' hq'
      obtain ⟨b', -, -, hmem', -⟩ := h.stored q' hq'
      rcases List.mem_cons.mp hmem' with heq | hlater
      · exact Nat.le_of_eq (congrArg Prod.fst heq).symm
      · exact Nat.le_of_lt (hfirst _ hlater)
    have hreleases : s.Releases (.recv pos) ↔ data ≠ [] ∧
        ∀ q', s.channel.vacant q' = false → s.owner q ≤ s.owner q' := by
      simp [Releases, hq, hsize]
    have hdistinct := fun q' hq' => hsound.distinct q' q hq' hbusy
    rw [h.tight_iff, hreleases]
    by_cases hpop : data ≠ [] ∧ b = b₀
    · obtain ⟨hfull, rfl⟩ := hpop
      have hk : s.owner q = k := h.block_inj hmem List.mem_cons_self
      rw [if_pos ⟨hfull, rfl⟩]
      have hlent := h.drop hb (List.sublist_cons_self _ rest) h.stores.ring.pop rfl rfl
        (fun b' data hb' => hb'.pop b) (by
          intro x hx hne
          rcases List.mem_cons.mp hx with rfl | hlater
          · exact absurd rfl hne
          · exact hlater) (s.received ++ [s.owner (qPos pos)])
      refine ⟨rest, _, hlent, ?_⟩
      rw [hlent.tight_iff, hvacant]
      grind [Function.update_apply]
    · rw [if_neg hpop]
      have hlent := h.drop hb (List.Sublist.refl _) h.stores.ring rfl rfl (fun _ _ hb' => hb')
        (fun x hx _ => hx) (s.received ++ [s.owner (qPos pos)])
      refine ⟨(k, b₀) :: rest, _, hlent, ?_⟩
      rw [hlent.tight_iff, hvacant]
      -- the block of the request that is received stays, and its slot is vacant now
      have hlost : ¬ ∀ x ∈ (k, b₀) :: rest, ∃ q',
          Function.update s.channel.vacant q true q' = false ∧ s.owner q' = x.1 := by
        intro hall
        obtain ⟨q', hq', howner⟩ := hall _ hmem
        grind [Function.update_apply]
      refine ⟨fun hall => absurd hall hlost, ?_⟩
      rintro ⟨htight, hfull, hearliest⟩
      obtain ⟨q₀, hq₀, hk₀⟩ := htight (k, b₀) List.mem_cons_self
      have hle : s.owner q ≤ k := Nat.le_trans (hearliest q₀ hq₀) (Nat.le_of_eq hk₀)
      rcases List.mem_cons.mp hmem with heq | hlater
      · exact absurd ⟨hfull, congrArg Prod.snd heq⟩ hpop
      · exact absurd hle (Nat.not_le_of_lt (hfirst _ hlater))

theorem Lent.step (hhalf : half + 1 < 2 ^ 32) (h : s.Lent p half ls use) (hsound : s.Sound)
    (hs : s.step cb l = some s') (hp : ∀ m, l = .send m → p m.bytes) :
    ∃ ls' use', s'.Lent p half ls' use' ∧ (s'.Tight ↔ s.Tight ∧ s.Releases l) := by
  cases l with
  | send m =>
    obtain ⟨ls', use', hlent, htight⟩ := h.send hhalf hs (hp m rfl)
    exact ⟨ls', use', hlent, by simp [htight, Releases]⟩
  | serveOnce =>
    obtain ⟨hlent, htight⟩ := h.serveOnce hs
    exact ⟨ls, use, hlent, by simp [htight, Releases]⟩
  | recv pos => exact h.recv hsound hs

end Lent

structure Received (s : Service) : Prop where
  gone : ∀ q, s.channel.vacant q = false → s.owner q ∉ s.received
  lt : ∀ id ∈ s.received, id < s.accepted

theorem Received.step {cb : Callback} {s s' : Service} {l : Label} (h : s.Received)
    (hsound : s.Sound) (hs : s.step cb l = some s') : s'.Received := by
  have hlt := hsound.owner_lt
  have hdistinct := hsound.distinct
  obtain ⟨hgone, hreceived⟩ := h
  rcases step_cases hs with ⟨hv, hu, ho, ha, -, hr, -⟩ | ⟨m, q, -, hq, hv, hu, ho, ha, -, hr⟩ |
      ⟨q, -, -, hq, hv, hu, ho, ha, -, hr⟩ | ⟨pos, q, -, -, hq, hv, hu, ho, ha, -, hr⟩
  · exact ⟨by simpa only [hv, ho, hr] using hgone, by simpa only [ha, hr] using hreceived⟩
  · constructor <;> simp only [hv, ho, ha, hr] <;> grind [Function.update_apply]
  · exact ⟨by simpa only [hv, ho, hr] using hgone, by simpa only [ha, hr] using hreceived⟩
  · have hbusy : s.channel.vacant q = false := by
      by_contra hvacant
      simp [hsound.unused q (by simpa using hvacant)] at hq
    constructor <;> simp only [hv, ho, ha, hr] <;> grind [Function.update_apply]

theorem lent_new {heapBase stride bufferSize : Nat} (p : List UInt8 → Prop)
    (hb : DoubleAllocator.Admits heapBase stride bufferSize) :
    (new heapBase stride bufferSize).Lent p (bufferSize / 2) [] (fun _ => none) :=
  ⟨⟨Allocator.ring_new hb.req, rfl, nofun, nofun⟩, .nil, nofun, nofun, fun _ _ => rfl⟩

def InOrder (s : Service) (l : Label) : Prop :=
  ∀ pos, l = .recv pos → ∀ q, s.channel.vacant q = false → s.owner (qPos pos) ≤ s.owner q

section Runs

variable {cb : Callback} {heapBase stride bufferSize : Nat} {labels : List Label} {s : Service}

theorem received_of_run
    (h : Machine.run (step cb) (new heapBase stride bufferSize) labels = some s) :
    s.Sound ∧ s.Received := by
  apply (Machine.Run.of_run h).invariant (fun s => s.Sound ∧ s.Received)
    ⟨sound_new _ _ _, by simp [new, Channel.new, Channel.vacant, Channel.elem,
      ChannelElem.fresh, Element.fresh], nofun⟩
  exact fun _ _ _ ht _ hs => ⟨ht.1.step hs, ht.2.step ht.1 hs⟩

theorem vacant_of_received
    (h : Machine.run (step cb) (new heapBase stride bufferSize) labels = some s)
    (hall : ∀ id < s.accepted, id ∈ s.received) (q : Fin queueSize) :
    s.channel.vacant q = true := by
  obtain ⟨hsound, hreceived⟩ := received_of_run h
  by_contra hbusy
  have hbusy : s.channel.vacant q = false := by simpa using hbusy
  exact hreceived.gone q hbusy (hall _ (hsound.owner_lt q hbusy))

theorem lent_of_run (hb : DoubleAllocator.Admits heapBase stride bufferSize)
    (h : Machine.run (step cb) (new heapBase stride bufferSize) labels = some s) :
    s.Sound ∧ ∃ ls use, s.Lent (fun _ => True) (bufferSize / 2) ls use := by
  have hhalf := hb.half_lt
  apply (Machine.Run.of_run h).invariant
    (fun s => s.Sound ∧ ∃ ls use, s.Lent (fun _ => True) (bufferSize / 2) ls use)
    ⟨sound_new _ _ _, _, _, lent_new _ hb⟩
  rintro t l t' ⟨hsound, ls, use, ht⟩ - hs
  obtain ⟨ls', use', ht', -⟩ := ht.step hhalf hsound hs fun _ _ => trivial
  exact ⟨hsound.step hs, ls', use', ht'⟩

theorem tight_iff_releases (hb : DoubleAllocator.Admits heapBase stride bufferSize)
    (h : Machine.run (step cb) (new heapBase stride bufferSize) labels = some s) :
    s.Tight ↔ Machine.Run (step cb) Releases (new heapBase stride bufferSize) labels s := by
  have hhalf := hb.half_lt
  apply Machine.Run.exact
    (fun s => s.Sound ∧ ∃ ls use, s.Lent (fun _ => True) (bufferSize / 2) ls use) Tight h
    ⟨sound_new _ _ _, _, _, lent_new _ hb⟩ ((lent_new (fun _ => True) hb).tight_iff.mpr nofun)
  rintro t l t' ⟨hsound, ls, use, ht⟩ hs
  obtain ⟨ls', use', ht', htight⟩ := ht.step hhalf hsound hs fun _ _ => trivial
  exact ⟨⟨hsound.step hs, ls', use', ht'⟩, htight⟩

theorem alloc_eq_free_iff (hb : DoubleAllocator.Admits heapBase stride bufferSize)
    (h : Machine.run (step cb) (new heapBase stride bufferSize) labels = some s)
    (hvacant : ∀ q, s.channel.vacant q = true) :
    s.channel.allocator.req.allocIndex = s.channel.allocator.req.freeIndex ↔ s.Tight := by
  obtain ⟨-, ls, use, hlent⟩ := lent_of_run hb h
  rw [eq_comm, hlent.stores.ring.chain.eq_nil_iff, hlent.tight_iff, List.map_eq_nil_iff]
  constructor
  · rintro rfl
    exact nofun
  · intro hlive
    apply List.eq_nil_iff_forall_not_mem.mpr
    intro x hx
    obtain ⟨q, hq, -⟩ := hlive x hx
    rw [hvacant q] at hq
    cases hq

/-- When all requests, none of them empty, have been received, the request allocator has no
live block in exactly those runs in which they were received in the order of acceptance. -/
theorem request_memory_returned (cb : Callback)
    (hb : DoubleAllocator.Admits heapBase stride bufferSize)
    (hsizes : ∀ m, .send m ∈ labels → m.size ≠ 0)
    (h : Machine.run (step cb) (new heapBase stride bufferSize) labels = some s)
    (hall : ∀ id < s.accepted, id ∈ s.received) :
    s.channel.allocator.req.allocIndex = s.channel.allocator.req.freeIndex ↔
      Machine.Run (step cb) InOrder (new heapBase stride bufferSize) labels s := by
  have hhalf := hb.half_lt
  rw [alloc_eq_free_iff hb h (vacant_of_received h hall), tight_iff_releases hb h]
  refine ⟨fun hrun => hrun.weaken fun t l ht pos hl => (ht pos hl).2, fun hrun => ?_⟩
  apply hrun.refine
    (fun s => s.Sound ∧ ∃ ls use, s.Lent (fun data => data ≠ []) (bufferSize / 2) ls use)
    ⟨sound_new _ _ _, _, _, lent_new _ hb⟩
  rintro l hl t t' ⟨hsound, ls, use, ht⟩ horder hs
  have hdata : ∀ m, l = .send m → m.bytes ≠ [] := by
    rintro m rfl hnil
    have hlen : m.bytes.length = m.size := (send_ok hs).1
    rw [hnil] at hlen
    exact hsizes m hl hlen.symm
  obtain ⟨ls', use', ht', -⟩ := ht.step hhalf hsound hs hdata
  refine ⟨⟨hsound.step hs, ls', use', ht'⟩, ?_⟩
  rintro pos rfl
  refine ⟨?_, horder pos rfl⟩
  obtain ⟨-, hbusy⟩ := hsound.recv_busy hs
  obtain ⟨b, data, -, -, ⟨b', -, helem, -⟩, hfull⟩ := ht.stored _ hbusy
  rw [helem]
  simpa using hfull

end Runs

theorem request_memory_returned_in_order : ∃ s,
    Machine.run (step .echo) (new 4096 128 (2 ^ 28)) [.send (.ofData [1]), .send (.ofData [2]),
      .serveOnce, .serveOnce, .recv 0, .recv 1] = some s ∧
    (s.channel.allocator.req.allocIndex = s.channel.allocator.req.freeIndex ↔
      Machine.Run (step .echo) InOrder (new 4096 128 (2 ^ 28)) [.send (.ofData [1]),
        .send (.ofData [2]), .serveOnce, .serveOnce, .recv 0, .recv 1] s) := by
  have hrun : (Machine.run (step .echo) (new 4096 128 (2 ^ 28)) [.send (.ofData [1]),
      .send (.ofData [2]), .serveOnce, .serveOnce, .recv 0, .recv 1]).map
      (fun s => (s.accepted, s.received)) = some (2, [0, 1]) := by decide +kernel
  obtain ⟨s, hs, hvals⟩ := Option.map_eq_some_iff.mp hrun
  obtain ⟨haccepted, hreceived⟩ := Prod.mk.inj hvals
  refine ⟨s, hs, request_memory_returned .echo ⟨by decide, by decide, by decide, by decide⟩
    (by simp) hs ?_⟩
  rw [haccepted, hreceived]
  decide

/-- Two requests received in the other order leave the block of the second one behind. -/
theorem request_leaks : ∃ labels s,
    Machine.run (step .echo) (new 4096 128 (2 ^ 28)) labels = some s ∧
    (∀ m, .send m ∈ labels → m.size ≠ 0) ∧ (∀ id < s.accepted, id ∈ s.received) ∧
    s.channel.allocator.req.allocIndex ≠ s.channel.allocator.req.freeIndex := by
  have hrun : (Machine.run (step .echo) (new 4096 128 (2 ^ 28)) [.send (.ofData [1]),
      .send (.ofData [2]), .serveOnce, .serveOnce, .recv 1, .recv 0]).map
      (fun s => (s.accepted, s.received, s.channel.allocator.req.allocIndex,
        s.channel.allocator.req.freeIndex)) = some (2, [1, 0], 4, 2) := by decide +kernel
  obtain ⟨s, hs, hvals⟩ := Option.map_eq_some_iff.mp hrun
  simp only [Prod.mk.injEq] at hvals
  obtain ⟨haccepted, hreceived, halloc, hfree⟩ := hvals
  refine ⟨_, s, hs, by simp, ?_, by rw [halloc, hfree]; decide⟩
  rw [haccepted, hreceived]
  decide

end Shadesmar.Rpc.Service
