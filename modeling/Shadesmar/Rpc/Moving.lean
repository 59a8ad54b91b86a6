import Shadesmar.Library.Trace
import Shadesmar.Rpc.Service

namespace Shadesmar.Rpc

open Library Shadesmar.Memory

theorem process_congr (cb : Callback) (c : Channel) {pos pos' : Nat} (h : qPos pos = qPos pos') :
    process cb c pos = process cb c pos' := by
  simp only [process, Channel.readServer, Channel.writeServer, h]

theorem Channel.readServer_eq_none {c : Channel} {pos : Nat} :
    c.readServer pos = none ↔ c.vacant (qPos pos) = true := by
  simp [Channel.readServer, Channel.vacant]

namespace Service

/-- What a call gives back to its caller: the position that `send` hands out, if it returns
true; the result of `serve_once` and the request on which it has run the callback, with its
number; the response that `recv` finds, if it returns true. -/
inductive Outcome
  | sent (pos : Option Nat)
  | served (invoked : Option (Nat × Memblock)) (done : Bool)
  | received (memblock : Option Memblock)
  deriving DecidableEq

/-- `none` for a call that does not return. -/
def outcome (cb : Callback) (s : Service) : Label → Option Outcome
  | .send memblock =>
    match s.channel.writeClient memblock with
    | .ok (pos, _) => some (.sent pos)
    | .error _ => none
  | .serveOnce =>
    match process cb s.channel s.pos with
    | .ok (done, _) =>
      some (.served ((s.channel.readServer s.pos).map fun req => (s.owner (qPos s.pos), req)) done)
    | .error _ => none
  | .recv pos =>
    match s.channel.readClient pos with
    | some (.ok (memblock, _)) => some (.received memblock)
    | _ => none

/-- `Server(Server&& other)`: the callbacks and the channel are taken over; `pos_` has the
value of its initialiser. -/
def move (s : Service) : Service := { s with pos := 0 }

/-- If the call is one of `serve_once`, the old position and the new one lead to the same slot,
or both to a slot without a request. -/
def SameSlot (p : Service × Service) (l : Label) : Prop :=
  l = .serveOnce → qPos p.1.pos = qPos p.2.pos ∨
    p.1.channel.vacant (qPos p.1.pos) = true ∧ p.2.channel.vacant (qPos p.2.pos) = true

def Alike (s t : Service) : Prop := t = { s with pos := t.pos } ∧ s.Sound

variable {cb : Callback} {s s' t t' : Service} {l : Label}

theorem step_setPos (hl : l ≠ .serveOnce) (pos : Nat) :
    step cb { s with pos := pos } l = (s.step cb l).map fun t => { t with pos := pos } := by
  cases l with
  | serveOnce => exact absurd rfl hl
  | send m =>
    simp only [step]
    split_ifs
    · cases s.channel.writeClient m with
      | error e => rfl
      | ok rc =>
        obtain ⟨r, c⟩ := rc
        cases r <;> rfl
    · rfl
  | recv pos' =>
    simp only [step]
    cases s.channel.readClient pos' with
    | none => rfl
    | some result => cases result <;> rfl

theorem outcome_setPos (hl : l ≠ .serveOnce) (pos : Nat) :
    outcome cb { s with pos := pos } l = s.outcome cb l := by
  cases l with
  | serveOnce => exact absurd rfl hl
  | send m => rfl
  | recv pos' => rfl

theorem serveOnce_vacant (cb : Callback) (h : s.channel.vacant (qPos s.pos) = true) :
    s.step cb .serveOnce = some { s with pos := u32 (s.pos + 1) } ∧
      s.outcome cb .serveOnce = some (.served none false) := by
  have hread := Channel.readServer_eq_none.mpr h
  have hprocess : process cb s.channel s.pos = .ok (false, s.channel) := by
    simp only [process, hread]
  simp [step, outcome, hprocess, hread]

theorem Alike.step (h : s.Alike t) (hsame : SameSlot (s, t) l) (hs : s.step cb l = some s')
    (ht : t.step cb l = some t') : s.outcome cb l = t.outcome cb l ∧ s'.Alike t' := by
  obtain ⟨heq, hsound⟩ := h
  have hsound' := hsound.step hs
  generalize t.pos = pos at heq
  subst heq
  by_cases hl : l = .serveOnce
  · subst hl
    rcases hsame rfl with hslot | ⟨hold, hnew⟩
    · dsimp only at hslot
      have hread : s.channel.readServer s.pos = s.channel.readServer pos := by
        simp only [Channel.readServer, hslot]
      have hprocess := process_congr cb s.channel hslot
      obtain ⟨done, c, hc, rfl⟩ := serveOnce_ok hs
      obtain ⟨done', c', hc', rfl⟩ := serveOnce_ok ht
      obtain ⟨rfl, rfl⟩ := Prod.mk.inj (Except.ok.inj ((hprocess.symm.trans hc).symm.trans hc'))
      exact ⟨by simp only [outcome, hprocess, hread, hslot], by simp [hread, hslot], hsound'⟩
    · obtain ⟨hstep, hout⟩ := serveOnce_vacant cb hold
      obtain ⟨hstep', hout'⟩ := serveOnce_vacant cb hnew
      obtain rfl := Option.some.inj (hstep.symm.trans hs)
      obtain rfl := Option.some.inj (hstep'.symm.trans ht)
      exact ⟨hout.trans hout'.symm, rfl, hsound'⟩
  · rw [step_setPos hl, hs] at ht
    obtain rfl := Option.some.inj ht
    exact ⟨(outcome_setPos hl pos).symm, rfl, hsound'⟩

theorem Alike.sameSlot (h : s.Alike t) (hs : s.step cb l = some s') (ht : t.step cb l = some t')
    (hout : s.outcome cb l = t.outcome cb l) : SameSlot (s, t) l := by
  obtain ⟨heq, hsound⟩ := h
  generalize t.pos = pos at heq
  subst heq
  rintro rfl
  obtain ⟨done, c, hc, -⟩ := serveOnce_ok hs
  obtain ⟨done', c', hc', -⟩ := serveOnce_ok ht
  simp only [outcome, hc, hc', Option.some.injEq, Outcome.served.injEq] at hout
  have hinvoked := hout.1
  cases hread : s.channel.readServer s.pos with
  | none =>
    rw [hread, Option.map_none, eq_comm, Option.map_eq_none_iff] at hinvoked
    exact .inr ⟨Channel.readServer_eq_none.mp hread, Channel.readServer_eq_none.mp hinvoked⟩
  | some req =>
    rw [hread, Option.map_some, eq_comm, Option.map_eq_some_iff] at hinvoked
    obtain ⟨req', hread', hsame⟩ := hinvoked
    refine .inl (hsound.distinct _ _ ?_ ?_ (Prod.mk.inj hsame).1.symm)
    · by_contra hvacant
      rw [Channel.readServer_eq_none.mpr (by simpa using hvacant)] at hread
      cases hread
    · by_contra hvacant
      rw [Channel.readServer_eq_none.mpr (by simpa using hvacant)] at hread'
      cases hread'

theorem alike_move (h : s.Sound) : s.Alike s.move := ⟨rfl, h⟩

theorem sound_of_run {heapBase stride bufferSize : Nat} {labels : List Label}
    (h : Machine.run (step cb) (new heapBase stride bufferSize) labels = some s) : s.Sound :=
  (Machine.Run.of_run h).invariant Sound (sound_new _ _ _) fun _ _ _ ht _ hs => ht.step hs

def ShowsSame (cb : Callback) (s : Service) (labels : List Label) : Prop :=
  Machine.trace (step cb) (outcome cb) s labels =
    Machine.trace (step cb) (outcome cb) s.move labels

/-- At each call of `serve_once` the old position of the server and the new one lead to the
same slot, or both to a vacant one. -/
def MeetsSame (cb : Callback) (s : Service) (labels : List Label) : Prop :=
  ∃ p, Machine.Run (Machine.both (step cb)) SameSlot (s, s.move) labels p

theorem shows_same_iff (cb : Callback) {heapBase stride bufferSize : Nat} {before after : List Label}
    (h : Machine.run (step cb) (new heapBase stride bufferSize) before = some s)
    (hafter : Machine.run (step cb) s after = some s') :
    s.ShowsSame cb after ↔ s.MeetsSame cb after := by
  have halike := alike_move (sound_of_run h)
  constructor
  · intro heq
    obtain ⟨t', hboth⟩ := Machine.run_of_trace_eq (fun p => p.1.Alike p.2) SameSlot
      (fun s t l s' t' hst hout hs ht =>
        have hsame := hst.sameSlot hs ht hout
        ⟨hsame, (hst.step hsame hs ht).2⟩)
      halike hafter heq
    exact ⟨_, hboth⟩
  · rintro ⟨p, hboth⟩
    apply Machine.trace_eq_of_run (fun p => p.1.Alike p.2) SameSlot _ halike hboth
    exact fun s t l s' t' hst hsame hs ht => hst.step hsame hs ht

end Service

end Shadesmar.Rpc
