import Shadesmar.Rpc.Requests

namespace Shadesmar.Rpc.Interleaving

open Library Shadesmar.Memory

variable {n : Nat}

def Sent.answer (cb : Callback) (r : Sent n) : Memblock := cb.answer (.ofData r.bytes)

def Answered (cb : Callback) (c : Channel) (done : List Block) (r : Sent n) : Prop :=
  (c.elem r.slot).resp.addressHandle ≠ 0 → ∃ b ∈ done,
    (c.elem r.slot).resp.addressHandle = b.handle ∧
    (c.elem r.slot).resp.size = (r.answer cb).size ∧
    c.allocator.resp.Holds b (r.answer cb).bytes

theorem Answered.congr {cb : Callback} {c c' : Channel} {done : List Block} {r : Sent n}
    (h : Answered cb c done r) (hresp : (c'.elem r.slot).resp = (c.elem r.slot).resp)
    (halloc : c'.allocator.resp = c.allocator.resp) : Answered cb c' done r := by
  unfold Answered
  rw [hresp, halloc]
  exact h

theorem Answered.load {cb : Callback} {c : Channel} {done : List Block} {r : Sent n}
    (h : Answered cb c done r) (hhandle : (c.elem r.slot).resp.addressHandle ≠ 0) :
    c.allocator.resp.load (c.allocator.resp.handleToPtr (c.elem r.slot).resp.addressHandle)
      (c.elem r.slot).resp.size = (r.answer cb).bytes ∧
    (c.elem r.slot).resp.size = (r.answer cb).size := by
  obtain ⟨b, -, hb, hsize, hholds⟩ := h hhandle
  have hfilled : (r.answer cb).bytes.length = (r.answer cb).size := cb.filled_answer _
  refine ⟨?_, hsize⟩
  rw [hb, hsize, ← hfilled, Allocator.handleToPtr_handle]
  exact hholds.load

def Serves (cb : Callback) (pending : List (Sent n)) (pos : Nat) (resp : Memblock) : Prop :=
  ∃ r ∈ pending, r.slot = qPos pos ∧ resp = r.answer cb

def ServerPc.Knows (cb : Callback) (half : Nat) (a : Allocator) (pending : List (Sent n))
    (bs done : List Block) : ServerPc → Prop
  | .callback pos req => ∃ r ∈ pending, r.slot = qPos pos ∧ req = .ofData r.bytes
  | .checkMemory pos resp => Serves cb pending pos resp
  | .alloc pos resp => Serves cb pending pos resp ∧ resp.size ≤ half
  | .copy pos resp p => Serves cb pending pos resp ∧
      ∃ b ∈ bs, b ∉ done ∧ p = a.ptr b ∧ resp.size ≤ 4 * b.size
  | .publish pos resp p => Serves cb pending pos resp ∧
      ∃ b ∈ bs, b ∉ done ∧ p = a.ptr b ∧ a.Holds b resp.bytes
  | .signalError pos => ∃ r ∈ pending, r.slot = qPos pos
  | _ => True

theorem ServerPc.Knows.mono {cb : Callback} {half : Nat} {a : Allocator}
    {pending pending' : List (Sent n)} {bs done : List Block} {pc : ServerPc}
    (h : pc.Knows cb half a pending bs done)
    (hkept : ∀ r ∈ pending, pc.serving = some r.slot → r ∈ pending') :
    pc.Knows cb half a pending' bs done := by
  have hserves : ∀ {pos resp}, pc.serving = some (qPos pos) → Serves cb pending pos resp →
      Serves cb pending' pos resp := by
    rintro pos resp hpc ⟨r, hr, hslot, hresp⟩
    exact ⟨r, hkept r hr (hpc.trans (by rw [hslot])), hslot, hresp⟩
  cases pc with
  | callback pos req =>
    obtain ⟨r, hr, hslot, hreq⟩ := h
    exact ⟨r, hkept r hr (by rw [hslot]; rfl), hslot, hreq⟩
  | checkMemory pos resp => exact hserves rfl h
  | alloc pos resp => exact ⟨hserves rfl h.1, h.2⟩
  | copy pos resp p => exact ⟨hserves rfl h.1, h.2⟩
  | publish pos resp p => exact ⟨hserves rfl h.1, h.2⟩
  | signalError pos =>
    obtain ⟨r, hr, hslot⟩ := h
    exact ⟨r, hkept r hr (by rw [hslot]; rfl), hslot⟩
  | _ => trivial

namespace World

theorem Occupies.unique {s : World n} {occ : Fin queueSize → Occupant n} (h : s.Occupies occ)
    {r r' : Sent n} (hr : r ∈ s.pending) (hr' : r' ∈ s.pending) (hslot : r.slot = r'.slot) :
    r = r' := by
  have hsent := (h.pending r).mp hr
  rw [hslot, (h.pending r').mp hr'] at hsent
  exact (Occupant.sent.inj hsent).symm

structure Responses (cb : Callback) (half : Nat) (s : World n) (bs done : List Block) : Prop where
  ring : s.channel.allocator.resp.Ring bs
  size : s.channel.allocator.resp.size = half
  live : ∀ b ∈ done, b ∈ bs
  answered : ∀ r ∈ s.pending, (s.channel.elem r.slot).resp.empty = false →
    Answered cb s.channel done r
  clean : ∀ q, (∀ r ∈ s.pending, r.slot ≠ q) → (s.channel.elem q).resp.empty = true
  knows : s.server.Knows cb half s.channel.allocator.resp s.pending bs done
  accepted : ∀ r ∈ s.pending, r ∈ s.accepted
  matched : s.Matched cb

section Responses

variable {cb : Callback} {half : Nat} {s s' : World n} {occ : Fin queueSize → Occupant n}
variable {bs bs' done : List Block} {use : Fin queueSize → Option Block} {i : Fin n}

theorem Responses.client (h : s.Responses cb half bs done) (hreq : s.Requests half occ bs' use)
    (hok : s.Apart (.client i)) (he : s.Effect i s') : s'.Responses cb half bs done := by
  cases he with
  | @quiet c pc halloc hresp =>
    refine ⟨?_, ?_, h.live, ?_, ?_, ?_, h.accepted, ⟨h.matched.ran, h.matched.received⟩⟩
    · simpa [halloc] using h.ring
    · simpa [halloc] using h.size
    · intro r hr hempty
      have hempty : (c.elem r.slot).resp.empty = false := hempty
      rw [hresp] at hempty
      exact (h.answered r hr hempty).congr (hresp _) halloc
    · intro q hq
      have hclean := h.clean q hq
      rw [← hresp q] at hclean
      exact hclean
    · simpa [halloc] using h.knows
  | @publish c r hnew halloc hresp =>
    refine ⟨?_, ?_, h.live, ?_, ?_, ?_, ?_, ?_, ?_⟩
    · simpa [halloc] using h.ring
    · simpa [halloc] using h.size
    · intro r' hr' hempty
      have hwas : (s.channel.elem r'.slot).resp.empty = false := by
        rw [← hresp]
        exact hempty
      rcases List.mem_append.mp hr' with hold | hlast
      · exact (h.answered r' hold hwas).congr (hresp _) halloc
      · obtain rfl := List.mem_singleton.mp hlast
        rw [h.clean _ hnew] at hwas
        cases hwas
    · intro q hq
      have hclean := h.clean q fun r' hr' => hq r' (List.mem_append_left _ hr')
      rw [← hresp q] at hclean
      exact hclean
    · have hknows := h.knows.mono fun r' hr' _ => List.mem_append_left [r] hr'
      simpa [halloc] using hknows
    · intro r' hr'
      rcases List.mem_append.mp hr' with hold | hlast
      · exact List.mem_append_left _ (h.accepted r' hold)
      · exact List.mem_append_right _ hlast
    · intro req hrun
      obtain ⟨r', hr', hbytes⟩ := h.matched.ran req hrun
      exact ⟨r', List.mem_append_left _ hr', hbytes⟩
    · intro r' m hgot
      obtain ⟨hr', hanswer⟩ := h.matched.received r' m hgot
      exact ⟨List.mem_append_left _ hr', hanswer⟩
  | @receive c r got hpc hr hempty halloc hself hresp hgot =>
    -- the other pending requests have other slots, and the server is not at this one
    have hmem : ∀ r' ∈ s.pending.erase r, r' ∈ s.pending ∧ r'.slot ≠ r.slot := by
      intro r' hr'
      obtain ⟨hne, hr'⟩ := hreq.occupies.nodup.mem_erase_iff.mp hr'
      exact ⟨hr', fun hslot => hne (hreq.occupies.unique hr' hr hslot)⟩
    have hserving : s.server.serving ≠ some r.slot := by
      simpa [Apart, hpc, ClientPc.receiving] using hok
    refine ⟨?_, ?_, h.live, ?_, ?_, ?_, ?_, h.matched.ran, ?_⟩
    · simpa [halloc] using h.ring
    · simpa [halloc] using h.size
    · intro r' hr' hempty'
      have hempty' : (c.elem r'.slot).resp.empty = false := hempty'
      obtain ⟨hr', hslot⟩ := hmem r' hr'
      rw [hresp _ hslot] at hempty'
      exact (h.answered r' hr' hempty').congr (hresp _ hslot) halloc
    · intro q hq
      by_cases hslot : q = r.slot
      · rw [hslot]
        exact hself
      · have hclean := h.clean q fun r' hr' hr'q => by
          refine hq r' ?_ hr'q
          refine (List.mem_erase_of_ne ?_).mpr hr'
          rintro rfl
          exact hslot hr'q.symm
        rw [← hresp q hslot] at hclean
        exact hclean
    · have hknows : s.server.Knows cb half s.channel.allocator.resp (s.pending.erase r) bs done :=
        h.knows.mono fun r' hr' hpc' => by
          refine (List.mem_erase_of_ne ?_).mpr hr'
          rintro rfl
          exact hserving hpc'
      simpa [halloc] using hknows
    · intro r' hr'
      exact h.accepted r' (hmem r' hr').1
    · intro r' m hrecv
      rcases List.mem_append.mp hrecv with hold | hlast
      · exact h.matched.received r' m hold
      · obtain ⟨rfl, hhandle, hbytes, hsize⟩ := hgot r' m hlast
        obtain ⟨hload, hlen⟩ := (h.answered r' hr hempty).load hhandle
        exact ⟨h.accepted r' hr, hbytes.trans hload, hsize.trans hlen⟩

theorem Responses.setServer (h : s.Responses cb half bs done) {pc : ServerPc}
    (hknows : pc.Knows cb half s.channel.allocator.resp s.pending bs done) :
    (s.setServer pc).Responses cb half bs done :=
  ⟨h.ring, h.size, h.live, h.answered, h.clean, hknows, h.accepted,
    ⟨h.matched.ran, h.matched.received⟩⟩

theorem Responses.setResp (h : s.Responses cb half bs done) (hocc : s.Occupies occ)
    {done' : List Block} {e : Element} {r : Sent n} (hr : r ∈ s.pending)
    (hlive : ∀ b ∈ done', b ∈ bs) (hdone : ∀ b ∈ done, b ∈ done')
    (hanswer : Answered cb (s.channel.setResp r.slot e) done' r) :
    ((s.setChannel (s.channel.setResp r.slot e)).setServer .fetchAdd).Responses cb half bs done' := by
  refine ⟨h.ring, h.size, hlive, ?_, ?_, trivial, h.accepted, ⟨h.matched.ran, h.matched.received⟩⟩
  · intro r' hr' hempty
    by_cases hslot : r'.slot = r.slot
    · rw [hocc.unique hr' hr hslot]
      exact hanswer
    · have hsame : ((s.channel.setResp r.slot e).elem r'.slot).resp =
          (s.channel.elem r'.slot).resp := by rw [Channel.elem_setResp_ne _ _ _ hslot]
      have hwas : (s.channel.elem r'.slot).resp.empty = false := by
        rw [← hsame]
        exact hempty
      intro hhandle
      rw [channel_setServer, channel_setChannel, hsame] at hhandle
      obtain ⟨b, hb, hrest⟩ := h.answered r' hr' hwas hhandle
      refine ⟨b, hdone b hb, ?_⟩
      rw [channel_setServer, channel_setChannel, hsame]
      exact hrest
  · intro q hq
    have hslot : q ≠ r.slot := fun hslot => hq r hr hslot.symm
    have hclean := h.clean q hq
    rw [channel_setServer, channel_setChannel, Channel.elem_setResp_ne _ _ _ hslot]
    exact hclean

theorem Responses.setRespAllocator (h : s.Responses cb half bs done) {a : Allocator}
    {bs'' : List Block} {pc : ServerPc} (hring : a.Ring bs'')
    (hsize : a.size = s.channel.allocator.resp.size) (hlive : ∀ b ∈ done, b ∈ bs'')
    (hholds : ∀ b ∈ done, ∀ data, s.channel.allocator.resp.Holds b data → a.Holds b data)
    (hknows : pc.Knows cb half a s.pending bs'' done) :
    ((s.setChannel (s.channel.setRespAllocator a)).setServer pc).Responses cb half bs'' done := by
  refine ⟨hring, hsize.trans h.size, hlive, ?_, h.clean, hknows, h.accepted,
    ⟨h.matched.ran, h.matched.received⟩⟩
  intro r hr hempty hhandle
  obtain ⟨b, hb, hbh, hlen, hdata⟩ := h.answered r hr hempty hhandle
  exact ⟨b, hb, hbh, hlen, hholds b hb _ hdata⟩

theorem Requests.fetch (h : s.Requests half occ bs use) {pos : Nat} {req : Memblock}
    (hwindow : ∀ i, (s.clients i).window ≠ some (qPos pos))
    (hread : s.channel.readServer pos = some req) :
    ∃ r ∈ s.pending, r.slot = qPos pos ∧ req = .ofData r.bytes := by
  simp only [Channel.readServer] at hread
  split_ifs at hread with hempty
  obtain rfl := Option.some.inj hread
  cases hocc : occ (qPos pos) with
  | vacant => exact absurd ((h.occupies.flags _).mpr hocc) hempty
  | writing i => exact absurd ((h.occupies.windows _ _).mpr hocc) (hwindow i)
  | sent r =>
    have hslot := h.occupies.slots _ _ hocc
    rw [← hslot] at hocc ⊢
    have hr := (h.occupies.pending r).mpr hocc
    obtain ⟨b, -, helem, hholds⟩ := h.stored r hr
    refine ⟨r, hr, rfl, ?_⟩
    rw [helem]
    simp only [Allocator.handleToPtr_handle, hholds.load]
    rfl

theorem Responses.stepServer (hhalf : half + 1 < 2 ^ 32) (h : s.Responses cb half bs done)
    (hreq : s.Requests half occ bs' use) (hok : s.Apart .server)
    (hs : s.stepServer cb = some s') :
    s'.Requests half occ bs' use ∧ ∃ bs'' done', s'.Responses cb half bs'' done' := by
  have hknows := h.knows
  unfold World.stepServer at hs
  cases hpc : s.server with
  | aborted => simp [hpc] at hs
  | fetchAdd =>
    rw [hpc] at hs
    obtain rfl := Option.some.inj hs
    exact ⟨hreq.server rfl rfl (fun _ => rfl) rfl, bs, done, h.ring, h.size, h.live, h.answered,
      h.clean, trivial, h.accepted, ⟨h.matched.ran, h.matched.received⟩⟩
  | readServer pos =>
    rw [hpc] at hs
    dsimp only at hs
    cases hread : s.channel.readServer pos with
    | none =>
      rw [hread] at hs
      obtain rfl := Option.some.inj hs
      exact ⟨hreq.server rfl rfl (fun _ => rfl) rfl, bs, done, h.setServer trivial⟩
    | some req =>
      rw [hread] at hs
      obtain rfl := Option.some.inj hs
      exact ⟨hreq.server rfl rfl (fun _ => rfl) rfl, bs, done,
        h.setServer (hreq.fetch (fun i => by simpa [hpc, ServerPc.reading] using hok i) hread)⟩
  | callback pos req =>
    rw [hpc] at hs hknows
    obtain rfl := Option.some.inj hs
    obtain ⟨r, hr, hslot, rfl⟩ := hknows
    refine ⟨hreq.server rfl rfl (fun _ => rfl) rfl, bs, done, h.ring, h.size, h.live, h.answered,
      h.clean, ⟨r, hr, hslot, rfl⟩, h.accepted, ⟨?_, h.matched.received⟩⟩
    intro req hrun
    rcases List.mem_append.mp hrun with hold | hlast
    · exact h.matched.ran req hold
    · exact ⟨r, h.accepted r hr, List.mem_singleton.mp hlast⟩
  | checkMemory pos resp =>
    rw [hpc] at hs hknows
    dsimp only at hs
    have hle := h.ring.getFreeMemory_le
    have hsize := h.size
    split_ifs at hs with hroom <;> obtain rfl := Option.some.inj hs
    · obtain ⟨r, hr, hslot, -⟩ := hknows
      exact ⟨hreq.server rfl rfl (fun _ => rfl) rfl, bs, done, h.setServer ⟨r, hr, hslot⟩⟩
    · exact ⟨hreq.server rfl rfl (fun _ => rfl) rfl, bs, done, h.setServer ⟨hknows, by omega⟩⟩
  | alloc pos resp =>
    rw [hpc] at hs hknows
    obtain ⟨hserves, hlen⟩ := hknows
    dsimp only at hs
    unfold Channel.allocResp at hs
    rw [u32_eq (by omega)] at hs
    rcases h.ring.alloc resp.size with hnone | ⟨b, hsome, hring, hhead, hlays⟩
    · rw [hnone] at hs
      obtain rfl := Option.some.inj hs
      obtain ⟨r, hr, hslot, -⟩ := hserves
      exact ⟨hreq.server rfl rfl (fun _ => rfl) rfl, bs, done, h.setServer ⟨r, hr, hslot⟩⟩
    · rw [hsome] at hs
      obtain rfl := Option.some.inj hs
      have hnew : b ∉ done := fun hmem => h.ring.header_ne_alloc (h.live b hmem) hhead
      refine ⟨hreq.server rfl rfl (fun _ => rfl) rfl, bs ++ [b], done, h.setRespAllocator hring rfl
        (fun b' hb' => List.mem_append_left _ (h.live b' hb')) ?_ ?_⟩
      · intro b' hb' data hdata
        exact hdata.push h.ring (h.live b' hb') hhead
      · exact ⟨hserves, b, List.mem_append_right _ (List.mem_singleton_self b), hnew, rfl,
          Nat.le_of_lt (hlays (by omega)).room⟩
  | copy pos resp p =>
    rw [hpc] at hs hknows
    obtain rfl := Option.some.inj hs
    obtain ⟨hserves, b, hb, hnew, rfl, hlen⟩ := hknows
    have hfilled : resp.bytes.length ≤ 4 * b.size := by
      obtain ⟨r, -, -, rfl⟩ := hserves
      have hanswer : (r.answer cb).bytes.length = (r.answer cb).size := cb.filled_answer _
      omega
    refine ⟨hreq.server rfl rfl (fun _ => rfl) rfl, bs, done, h.setRespAllocator
      (h.ring.store hb hfilled) rfl h.live ?_
      ⟨hserves, b, hb, hnew, rfl, Allocator.Holds.store_self _ hfilled⟩⟩
    intro b' hb' data hdata
    refine hdata.store_other h.ring (h.live b' hb') hb ?_ hfilled
    rintro rfl
    exact hnew hb'
  | publish pos resp p =>
    rw [hpc] at hs hknows
    obtain rfl := Option.some.inj hs
    obtain ⟨⟨r, hr, hslot, rfl⟩, b, hb, hnew, rfl, hholds⟩ := hknows
    refine ⟨hreq.server rfl rfl (fun q => ?_) rfl, bs, b :: done, ?_⟩
    · simp [Channel.respond]
    · rw [← hslot]
      refine h.setResp hreq.occupies hr ?_ (fun b' hb' => List.mem_cons_of_mem b hb') ?_
      · intro b' hb'
        rcases List.mem_cons.mp hb' with rfl | hold
        · exact hb
        · exact h.live b' hold
      · intro _
        refine ⟨b, List.mem_cons_self, ?_, ?_, hholds⟩
        · simp
        · simp
  | signalError pos =>
    rw [hpc] at hs hknows
    obtain rfl := Option.some.inj hs
    obtain ⟨r, hr, hslot⟩ := hknows
    refine ⟨hreq.server rfl rfl (fun q => ?_) rfl, bs, done, ?_⟩
    · simp [Channel.signalError]
    · rw [← hslot]
      refine h.setResp hreq.occupies hr h.live (fun b' hb' => hb') ?_
      intro hhandle
      simp [Element.fresh] at hhandle

end Responses

section Runs

variable {cb : Callback} {half : Nat} {s s' : World n} {l : Label n}

def Sound (cb : Callback) (half : Nat) (s : World n) : Prop :=
  ∃ occ bs use, s.Requests half occ bs use ∧ ∃ bs' done, s.Responses cb half bs' done

theorem Sound.step (hhalf : half + 1 < 2 ^ 32) (h : s.Sound cb half) (hok : s.Apart l)
    (hs : s.step cb l = some s') : s'.Sound cb half := by
  obtain ⟨occ, bs, use, hreq, bs', done, hresp⟩ := h
  have hidle : ∀ {i}, s.clients i = .idle → s.Apart (.client i) := by
    intro i hi
    exact .inl (by rw [hi]; rfl)
  cases l with
  | send i m =>
    obtain ⟨hreq', heffect⟩ := hreq.startSend hs
    have hi : s.clients i = .idle := by
      simp only [World.step, startSend, Option.ite_none_right_eq_some] at hs
      exact hs.1.1
    exact ⟨occ, bs, use, hreq', bs', done, hresp.client hreq (hidle hi) heffect⟩
  | recv i r =>
    obtain ⟨hreq', heffect⟩ := hreq.startRecv hs
    have hi : s.clients i = .idle := by
      simp only [World.step, startRecv, Option.ite_none_right_eq_some] at hs
      exact hs.1.1
    exact ⟨occ, bs, use, hreq', bs', done, hresp.client hreq (hidle hi) heffect⟩
  | client i =>
    obtain ⟨⟨occ', bs'', use', hreq'⟩, heffect⟩ := hreq.stepClient hhalf hs
    exact ⟨occ', bs'', use', hreq', bs', done, hresp.client hreq hok heffect⟩
  | server =>
    obtain ⟨hreq', hresp'⟩ := hresp.stepServer hhalf hreq hok hs
    exact ⟨occ, bs, use, hreq', hresp'⟩

theorem sound_new (cb : Callback) {heapBase stride bufferSize : Nat}
    (hb : DoubleAllocator.Admits heapBase stride bufferSize) :
    (new heapBase stride bufferSize : World n).Sound cb (bufferSize / 2) :=
  ⟨_, _, _, requests_new hb, [], [], Allocator.ring_new hb.resp, rfl, nofun, nofun,
    fun _ _ => rfl, trivial, nofun, nofun, nofun⟩

/-- Every response that a client receives is the answer to what that client has sent, and
the callback runs on published requests only, as long as the windows are kept apart. -/
theorem responses_match (cb : Callback) {heapBase stride bufferSize : Nat}
    (hb : DoubleAllocator.Admits heapBase stride bufferSize) {labels : List (Label n)}
    {s : World n} (h : Machine.Run (step cb) Apart (new heapBase stride bufferSize) labels s) :
    s.Matched cb := by
  have hhalf := hb.half_lt
  obtain ⟨occ, bs, use, hreq, bs', done, hresp⟩ :=
    h.invariant (Sound cb (bufferSize / 2)) (sound_new cb hb)
      fun _ _ _ ht hok hs => ht.step hhalf hok hs
  exact hresp.matched

theorem responses_match_round : ∃ s : World 1,
    Machine.Run (step .echo) Apart (new 4096 128 (2 ^ 28))
      ([.send 0 (.ofData [1, 2])] ++ List.replicate 7 (.client 0) ++ List.replicate 7 .server ++
        [.recv 0 ⟨0, 0, [1, 2]⟩, .client 0]) s ∧
    s.received.length = 1 ∧ s.Matched .echo := by
  have hrun : (Machine.runIf (step .echo) (fun s l => decide (s.Apart l))
      (new 4096 128 (2 ^ 28) : World 1)
      ([.send 0 (.ofData [1, 2])] ++ List.replicate 7 (.client 0) ++ List.replicate 7 .server ++
        [.recv 0 ⟨0, 0, [1, 2]⟩, .client 0])).map (·.received.length) = some 1 := by
    decide +kernel
  obtain ⟨s, hs, hlen⟩ := Option.map_eq_some_iff.mp hrun
  have hapart : Machine.Run (step .echo) Apart (new 4096 128 (2 ^ 28)) _ s :=
    Machine.Run.of_runIf (fun _ _ h => of_decide_eq_true h) hs
  exact ⟨s, hapart, hlen,
    responses_match .echo ⟨by decide, by decide, by decide, by decide⟩ hapart⟩

/-- The server looks at a slot that is taken and not yet published, and answers a request
of no bytes; the client receives that answer. -/
theorem answers_unpublished : ∃ (labels : List (Label 1)) (s : World 1),
    Machine.Run (step .echo) Machine.Always (new 4096 128 (2 ^ 28)) labels s ∧
      ¬ s.Matched .echo := by
  have hrun : (Machine.run (step .echo) (new 4096 128 (2 ^ 28) : World 1)
      ([.send 0 (.ofData [1, 2])] ++ List.replicate 3 (.client 0) ++ List.replicate 2 .server ++
        List.replicate 4 (.client 0) ++ List.replicate 5 .server ++
        [.recv 0 ⟨0, 0, [1, 2]⟩, .client 0])).map (fun s => (s.ran, s.received)) =
      some ([.ofData []], [(⟨0, 0, [1, 2]⟩, .ofData [])]) := by decide +kernel
  obtain ⟨s, hs, hvals⟩ := Option.map_eq_some_iff.mp hrun
  obtain ⟨-, hreceived⟩ := Prod.mk.inj hvals
  refine ⟨_, s, .of_run hs, fun hmatched => ?_⟩
  obtain ⟨-, hbytes, -⟩ := hmatched.received ⟨0, 0, [1, 2]⟩ (.ofData []) (by simp [hreceived])
  revert hbytes
  decide

end Runs

end World

end Shadesmar.Rpc.Interleaving
