import Shadesmar.Library.Refinement
import Shadesmar.Memory.Mapping
import Shadesmar.Narrowing
import Shadesmar.Rpc.Moving

namespace Shadesmar.Rpc

open Library Library.Refinement Shadesmar.Memory

structure Bases where
  req : Nat
  resp : Nat

def Bases.Fit (half : Nat) (b : Bases) : Prop :=
  b.req + half ≤ 2 ^ 64 ∧ b.resp + half ≤ 2 ^ 64

namespace Channel

def mapped (b : Bases) (c : Channel) : Channel :=
  { c with allocator := ⟨c.allocator.req.mapped b.req, c.allocator.resp.mapped b.resp⟩ }

variable {c c' : Channel} {heapBase stride bufferSize : Nat} {b : Bases} {m : Memblock}

theorem allocReq_mapped (h : c.Indexed heapBase stride bufferSize)
    (hspace : heapBase + stride + bufferSize ≤ 2 ^ 64) (hb : b.Fit (bufferSize / 2))
    (n : Nat) : (c.mapped b).allocReq n =
      (c.allocReq n).map fun r => (r.1.map (c.allocator.req.translate b.req), r.2.mapped b) :=
  Checked.map_bind_map (h.req.alloc_mapped (by omega) hb.1 (u32 n)) fun _ _ => rfl

theorem allocResp_mapped (h : c.Indexed heapBase stride bufferSize)
    (hspace : heapBase + stride + bufferSize ≤ 2 ^ 64) (hb : b.Fit (bufferSize / 2))
    (n : Nat) : (c.mapped b).allocResp n =
      (c.allocResp n).map fun r => (r.1.map (c.allocator.resp.translate b.resp), r.2.mapped b) :=
  Checked.map_bind_map (h.resp.alloc_mapped (by omega) hb.2 (u32 n)) fun _ _ => rfl

theorem accept_mapped (c : Channel) (b : Bases) (q : Fin queueSize) :
    (c.mapped b).accept q = (c.accept q).map (mapped b) := by
  have helem : (c.mapped b).elem q = c.elem q := rfl
  unfold accept
  rw [helem]
  split_ifs <;> rfl

theorem Indexed.accept {q : Fin queueSize} (h : c.Indexed heapBase stride bufferSize)
    (hc : c.accept q = some c') : c'.Indexed heapBase stride bufferSize := by
  unfold Channel.accept at hc
  split_ifs at hc
  obtain rfl := Option.some.inj hc
  exact ⟨h.req, h.resp⟩

theorem storeReq_mapped (c : Channel) (b : Bases) (p : Nat) (bs : List UInt8) :
    (c.mapped b).storeReq (c.allocator.req.translate b.req p) bs = (c.storeReq p bs).mapped b := by
  have hstore := Allocator.store_translate c.allocator.req b.req p bs
  exact congrArg (fun a => (c.setReqAllocator a).mapped b) hstore

theorem storeResp_mapped (c : Channel) (b : Bases) (p : Nat) (bs : List UInt8) :
    (c.mapped b).storeResp (c.allocator.resp.translate b.resp p) bs =
      (c.storeResp p bs).mapped b := by
  have hstore := Allocator.store_translate c.allocator.resp b.resp p bs
  exact congrArg (fun a => (c.setRespAllocator a).mapped b) hstore

theorem setReqHandle_mapped (c : Channel) (b : Bases) (q : Fin queueSize) (p : Nat) :
    (c.mapped b).setReqHandle q
        ((c.mapped b).allocator.req.ptrToHandle (c.allocator.req.translate b.req p)) =
      (c.setReqHandle q (c.allocator.req.ptrToHandle p)).mapped b := by
  have hhandle := Allocator.ptrToHandle_translate c.allocator.req b.req p
  exact congrArg (fun h => (c.setReqHandle q h).mapped b) hhandle

theorem respond_mapped (c : Channel) (b : Bases) (q : Fin queueSize) (p size : Nat) :
    (c.mapped b).respond q (c.allocator.resp.translate b.resp p) size =
      (c.respond q p size).mapped b := by
  have hhandle := Allocator.ptrToHandle_translate c.allocator.resp b.resp p
  exact congrArg (fun h => (c.setResp q ⟨size, false, h⟩).mapped b) hhandle

theorem writeClient_mapped (h : c.Indexed heapBase stride bufferSize)
    (hspace : heapBase + stride + bufferSize ≤ 2 ^ 64) (hb : b.Fit (bufferSize / 2))
    (m : Memblock) : (c.mapped b).writeClient m =
      (c.writeClient m).map fun r => (r.1, r.2.mapped b) := by
  refine Checked.ite_map rfl ?_
  have haccept := accept_mapped c b (qPos c.counter)
  have hcounter : (c.mapped b).counter = c.counter := rfl
  simp only [hcounter, haccept]
  cases hc : c.accept (qPos c.counter) with
  | none => rfl
  | some c₁ =>
    have h₁ := h.accept hc
    refine Checked.map_bind_map (allocReq_mapped h₁ hspace hb m.size) ?_
    rintro ⟨p, c₂⟩ halloc
    obtain ⟨a, ha, rfl⟩ := allocReq_ok halloc
    cases p with
    | none => rfl
    | some p =>
      have htranslate : c₁.allocator.req.translate b.req = a.translate b.req :=
        h₁.req.translate_alloc (by omega) ha
      have hstore := storeReq_mapped (c₁.setReqAllocator a) b p m.bytes
      simp only [Option.map_some, htranslate]
      rw [show ((c₁.setReqAllocator a).mapped b).storeReq (a.translate b.req p) m.bytes = _ from
        hstore]
      generalize hc₃ : (c₁.setReqAllocator a).storeReq p m.bytes = c₃
      have hsame : a.translate b.req = c₃.allocator.req.translate b.req := by
        rw [← hc₃]
        rfl
      rw [hsame, setReqHandle_mapped]
      rfl

theorem writeServer_mapped (h : c.Indexed heapBase stride bufferSize)
    (hspace : heapBase + stride + bufferSize ≤ 2 ^ 64) (hb : b.Fit (bufferSize / 2))
    (m : Memblock) (pos : Nat) : (c.mapped b).writeServer m pos =
      (c.writeServer m pos).map fun r => (r.1, r.2.mapped b) := by
  refine Checked.ite_map rfl ?_
  refine Checked.map_bind_map (allocResp_mapped h hspace hb m.size) ?_
  rintro ⟨p, c₂⟩ halloc
  obtain ⟨a, ha, rfl⟩ := allocResp_ok halloc
  cases p with
  | none => rfl
  | some p =>
    have htranslate : c.allocator.resp.translate b.resp = a.translate b.resp :=
      h.resp.translate_alloc (by omega) ha
    have hstore := storeResp_mapped (c.setRespAllocator a) b p m.bytes
    simp only [Option.map_some, htranslate]
    rw [show ((c.setRespAllocator a).mapped b).storeResp (a.translate b.resp p) m.bytes = _ from
      hstore]
    generalize hc₃ : (c.setRespAllocator a).storeResp p m.bytes = c₃
    have hsame : a.translate b.resp = c₃.allocator.resp.translate b.resp := by
      rw [← hc₃]
      rfl
    rw [hsame, respond_mapped]
    rfl

theorem readServer_mapped (c : Channel) (b : Bases) (pos : Nat) :
    (c.mapped b).readServer pos = c.readServer pos := by
  have hload := Allocator.load_mapped c.allocator.req b.req (c.elem (qPos pos)).req.addressHandle
    (c.elem (qPos pos)).req.size
  have hsome := congrArg (fun bs => if (c.elem (qPos pos)).req.empty then none
    else some (Memblock.mk (some bs) (c.elem (qPos pos)).req.size true)) hload
  exact hsome

theorem process_mapped (cb : Callback) (h : c.Indexed heapBase stride bufferSize)
    (hspace : heapBase + stride + bufferSize ≤ 2 ^ 64) (hb : b.Fit (bufferSize / 2)) (pos : Nat) : process cb (c.mapped b) pos =
      (process cb c pos).map fun r => (r.1, r.2.mapped b) := by
  unfold process
  rw [readServer_mapped]
  cases c.readServer pos with
  | none => rfl
  | some req => exact writeServer_mapped h hspace hb (cb.answer req) pos

theorem cleanUp_mapped (c : Channel) (b : Bases) (q : Fin queueSize) :
    (c.mapped b).cleanUp q = (c.cleanUp q).map (mapped b) := by
  refine Checked.ite_map ?_ rfl
  refine Checked.map_bind_map (k := mapped b) ?_ fun _ _ => rfl
  exact Checked.map_bind_map (Allocator.free_mapped c.allocator.req b.req _) fun _ _ => rfl

theorem receive_mapped (c : Channel) (b : Bases) (q : Fin queueSize) :
    (c.mapped b).receive q = (c.receive q).map fun r => (r.1, r.2.mapped b) := by
  refine Checked.ite_map ?_ ?_
  · exact Checked.map_bind_map (cleanUp_mapped c b q) fun _ _ => rfl
  · refine Checked.map_bind_map (cleanUp_mapped c b q) fun _ _ => ?_
    have hload := Allocator.load_mapped c.allocator.resp b.resp (c.elem q).resp.addressHandle
      (c.elem q).resp.size
    have hok := congrArg (fun bs => (Except.ok (some (Memblock.mk (some bs) (c.elem q).resp.size true),
      (‹Channel›).mapped b) : Checked (Option Memblock × Channel))) hload
    exact hok

theorem readClient_mapped (c : Channel) (b : Bases) (pos : Nat) :
    (c.mapped b).readClient pos =
      (c.readClient pos).map (Except.map fun r => (r.1, r.2.mapped b)) := by
  have helem : (c.mapped b).elem (qPos pos) = c.elem (qPos pos) := rfl
  unfold readClient
  simp only [helem, receive_mapped]
  split_ifs <;> rfl

end Channel

namespace Service

def mapped (b : Bases) (s : Service) : Service := { s with channel := s.channel.mapped b }

def reply (cb : Callback) (s : Service) (l : Label) : Option (Outcome × Service) :=
  (s.outcome cb l).bind fun o => (s.step cb l).map (Prod.mk o)

variable {cb : Callback} {s s' : Service} {heapBase stride bufferSize : Nat} {b : Bases}
variable {o : Outcome} {l : Label}

theorem indexed_reply (h : s.channel.Indexed heapBase stride bufferSize)
    (hspace : heapBase + stride + bufferSize ≤ 2 ^ 64) (hs : s.reply cb l = some (o, s')) :
    s'.channel.Indexed heapBase stride bufferSize := by
  obtain ⟨o', -, hs⟩ := Option.bind_eq_some_iff.mp hs
  obtain ⟨t, ht, heq⟩ := Option.map_eq_some_iff.mp hs
  obtain ⟨-, rfl⟩ := Prod.mk.inj heq
  cases l with
  | send m =>
    obtain ⟨-, ⟨c, hc, rfl⟩ | ⟨pos, c, hc, rfl⟩⟩ := send_ok ht
    · exact (Channel.writeClient_records hspace h hc).1
    · exact (Channel.writeClient_records hspace h hc).1
  | serveOnce =>
    obtain ⟨done, c, hc, rfl⟩ := serveOnce_ok ht
    rcases Channel.process_cases hc with ⟨-, -, rfl⟩ | ⟨-, req, -, hwrite⟩
    · exact h
    · exact (Channel.writeServer_records hspace h hwrite).1
  | recv pos =>
    obtain ⟨r, c, hc, rfl⟩ := recv_ok ht
    exact Channel.readClient_indexed h hc

theorem reply_mapped (h : s.channel.Indexed heapBase stride bufferSize)
    (hspace : heapBase + stride + bufferSize ≤ 2 ^ 64) (hb : b.Fit (bufferSize / 2))
    (l : Label) : (s.mapped b).reply cb l = (s.reply cb l).map fun r => (r.1, r.2.mapped b) := by
  cases l with
  | send m =>
    have hwrite := Channel.writeClient_mapped h hspace hb m
    simp only [reply, outcome, step, mapped, hwrite]
    cases s.channel.writeClient m with
    | error e => simp [Except.map]
    | ok r =>
      obtain ⟨pos, c⟩ := r
      by_cases hfilled : m.Filled
      · cases pos <;> simp [Except.map, hfilled]
      · simp [Except.map, hfilled]
  | serveOnce =>
    have hprocess := Channel.process_mapped cb h hspace hb s.pos
    have hread := Channel.readServer_mapped s.channel b s.pos
    simp only [reply, outcome, step, mapped, hprocess, hread]
    cases process cb s.channel s.pos <;> rfl
  | recv pos =>
    have hread := Channel.readClient_mapped s.channel b pos
    simp only [reply, outcome, step, mapped, hread]
    cases s.channel.readClient pos with
    | none => rfl
    | some r => cases r <;> rfl

/-- Calls of processes each of which finds the two heaps at its own addresses get the results
that they would get in one process. -/
theorem replies_mapped (hspace : heapBase + stride + bufferSize ≤ 2 ^ 64) {calls : List (Bases × Label)}
    (hcalls : ∀ l ∈ calls, l.1.Fit (bufferSize / 2)) :
    outputs (fun s l => (mapped l.1 s).reply cb l.2) (new heapBase stride bufferSize) calls =
      outputs (fun s l => s.reply cb l.2) (new heapBase stride bufferSize) calls := by
  exact outputs_placed (fun s l => s.reply cb l.2) mapped Prod.fst
    (fun s : Service => s.channel.Indexed heapBase stride bufferSize) (Bases.Fit (bufferSize / 2))
    (fun _ _ _ => rfl) (fun _ l _ hs hb => reply_mapped hs hspace hb l.2)
    (fun _ _ _ _ hs hl => indexed_reply hs hspace hl) ⟨.new _ _, .new _ _⟩ hcalls

theorem replies_mapped_echo :
    outputs (fun s l => (mapped l.1 s).reply .echo l.2) (new 4096 64 128)
      [(⟨4096, 4224⟩, .send (.ofData [1, 2])), (⟨65536, 65664⟩, .serveOnce),
        (⟨4096, 4224⟩, .recv 0)] =
    some [.sent (some 0), .served (some (0, ⟨some [1, 2], 2, true⟩)) true,
      .received (some ⟨some [1, 2], 2, true⟩)] := by
  have hcalls : ∀ l ∈ [((⟨4096, 4224⟩ : Bases), Label.send (.ofData [1, 2])),
      (⟨65536, 65664⟩, .serveOnce), (⟨4096, 4224⟩, .recv 0)], l.1.Fit (128 / 2) := by
    simp [Bases.Fit]
  rw [replies_mapped (by decide) hcalls]
  decide +kernel

end Service

end Shadesmar.Rpc
