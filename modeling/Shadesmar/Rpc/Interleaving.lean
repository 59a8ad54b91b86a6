import Shadesmar.Library.Machine
import Shadesmar.Rpc.Server

/-! Clients and a server that use one channel at the same time.  Every thread stands
before its next action, and a label names the thread that goes on.  A section under the
mutex of a slot, a call of an allocator, the copy of a payload, the callback and each store
that `write_client` makes without the mutex are one step each. -/

namespace Shadesmar.Rpc.Interleaving

open Library Shadesmar.Memory

structure Sent (n : Nat) where
  client : Fin n
  pos : Nat
  bytes : List UInt8
  deriving DecidableEq

instance {n : Nat} : LawfulBEq (Sent n) := inferInstance

def Sent.slot {n : Nat} (r : Sent n) : Fin queueSize := qPos r.pos

/-- The place of a client in `send` or `recv`, by the action that comes next.  The three
`reset` places are the stores of `elem->req.reset()`. -/
inductive ClientPc (n : Nat)
  | idle
  | checkMemory (memblock : Memblock)
  | readCounter (memblock : Memblock)
  | accept (memblock : Memblock) (pos : Nat)
  | alloc (memblock : Memblock) (pos : Nat)
  | resetSize (pos : Nat)
  | resetHandle (pos : Nat)
  | resetEmpty (pos : Nat)
  | copy (memblock : Memblock) (pos newAddress : Nat)
  | setHandle (memblock : Memblock) (pos newAddress : Nat)
  | setSize (memblock : Memblock) (pos : Nat)
  | receive (r : Sent n)
  | aborted
  deriving DecidableEq

/-- The place of the server in `serve_once`. -/
inductive ServerPc
  | fetchAdd
  | readServer (pos : Nat)
  | callback (pos : Nat) (req : Memblock)
  | checkMemory (pos : Nat) (resp : Memblock)
  | alloc (pos : Nat) (resp : Memblock)
  | copy (pos : Nat) (resp : Memblock) (respAddress : Nat)
  | publish (pos : Nat) (resp : Memblock) (respAddress : Nat)
  | signalError (pos : Nat)
  | aborted
  deriving DecidableEq

/-- `accepted` are the calls of `send` that have returned true, and `pending` those whose
response has not been received; `ran` are the requests on which the callback has run, and
`received` the memory blocks with which `recv` has returned true. -/
structure World (n : Nat) where
  channel : Channel
  clients : Fin n → ClientPc n
  server : ServerPc
  pos : Nat
  accepted : List (Sent n)
  pending : List (Sent n)
  ran : List Memblock
  received : List (Sent n × Memblock)

inductive Label (n : Nat)
  | send (i : Fin n) (memblock : Memblock)
  | recv (i : Fin n) (r : Sent n)
  | client (i : Fin n)
  | server

def ClientPc.window {n : Nat} : ClientPc n → Option (Fin queueSize)
  | .alloc _ pos => some (qPos pos)
  | .resetSize pos => some (qPos pos)
  | .resetHandle pos => some (qPos pos)
  | .resetEmpty pos => some (qPos pos)
  | .copy _ pos _ => some (qPos pos)
  | .setHandle _ pos _ => some (qPos pos)
  | .setSize _ pos => some (qPos pos)
  | _ => none

def ClientPc.receiving {n : Nat} : ClientPc n → Option (Fin queueSize)
  | .receive r => some r.slot
  | _ => none

def ServerPc.reading : ServerPc → Option (Fin queueSize)
  | .readServer pos => some (qPos pos)
  | _ => none

def ServerPc.serving : ServerPc → Option (Fin queueSize)
  | .callback pos _ => some (qPos pos)
  | .checkMemory pos _ => some (qPos pos)
  | .alloc pos _ => some (qPos pos)
  | .copy pos _ _ => some (qPos pos)
  | .publish pos _ _ => some (qPos pos)
  | .signalError pos => some (qPos pos)
  | _ => none

namespace World

variable {n : Nat}

def new (heapBase stride bufferSize : Nat) : World n where
  channel := .new heapBase stride bufferSize
  clients := fun _ => .idle
  server := .fetchAdd
  pos := 0
  accepted := []
  pending := []
  ran := []
  received := []

def setClient (s : World n) (i : Fin n) (pc : ClientPc n) : World n :=
  { s with clients := Function.update s.clients i pc }

def setChannel (s : World n) (c : Channel) : World n := { s with channel := c }

def setServer (s : World n) (pc : ServerPc) : World n := { s with server := pc }

section Fields

variable (s : World n) (i j : Fin n) (pc : ClientPc n) (c : Channel) (spc : ServerPc)

@[simp, grind =] theorem clients_setClient :
    (s.setClient i pc).clients j = if j = i then pc else s.clients j := Function.update_apply ..

@[simp, grind =] theorem channel_setClient : (s.setClient i pc).channel = s.channel := rfl
@[simp, grind =] theorem pending_setClient : (s.setClient i pc).pending = s.pending := rfl
@[simp, grind =] theorem server_setClient : (s.setClient i pc).server = s.server := rfl
@[simp, grind =] theorem clients_setChannel : (s.setChannel c).clients j = s.clients j := rfl
@[simp, grind =] theorem channel_setChannel : (s.setChannel c).channel = c := rfl
@[simp, grind =] theorem pending_setChannel : (s.setChannel c).pending = s.pending := rfl
@[simp, grind =] theorem server_setChannel : (s.setChannel c).server = s.server := rfl
@[simp, grind =] theorem clients_setServer : (s.setServer spc).clients j = s.clients j := rfl
@[simp, grind =] theorem channel_setServer : (s.setServer spc).channel = s.channel := rfl
@[simp, grind =] theorem pending_setServer : (s.setServer spc).pending = s.pending := rfl

end Fields

def startSend (s : World n) (i : Fin n) (memblock : Memblock) : Option (World n) :=
  if s.clients i = .idle ∧ memblock.Filled then some (s.setClient i (.checkMemory memblock))
  else none

def startRecv (s : World n) (i : Fin n) (r : Sent n) : Option (World n) :=
  if s.clients i = .idle ∧ r ∈ s.pending ∧ r.client = i then some (s.setClient i (.receive r))
  else none

def stepClient (s : World n) (i : Fin n) : Option (World n) :=
  match s.clients i with
  | .idle => none
  | .checkMemory m =>
    if m.size > s.channel.allocator.req.getFreeMemory then some (s.setClient i .idle)
    else some (s.setClient i (.readCounter m))
  | .readCounter m => some (s.setClient i (.accept m s.channel.counter))
  | .accept m pos =>
    match s.channel.accept (qPos pos) with
    | none => some (s.setClient i .idle)
    | some c => some ((s.setChannel c).setClient i (.alloc m pos))
  | .alloc m pos =>
    match s.channel.allocReq m.size with
    | .ok (none, c) => some ((s.setChannel c).setClient i (.resetSize pos))
    | .ok (some newAddress, c) => some ((s.setChannel c).setClient i (.copy m pos newAddress))
    | .error _ => some (s.setClient i .aborted)
  | .resetSize pos =>
    some ((s.setChannel (s.channel.setReqSize (qPos pos) 0)).setClient i (.resetHandle pos))
  | .resetHandle pos =>
    some ((s.setChannel (s.channel.setReqHandle (qPos pos) 0)).setClient i (.resetEmpty pos))
  | .resetEmpty pos => some ((s.setChannel (s.channel.setReqEmpty (qPos pos))).setClient i .idle)
  | .copy m pos newAddress =>
    some ((s.setChannel (s.channel.storeReq newAddress m.bytes)).setClient i
      (.setHandle m pos newAddress))
  | .setHandle m pos newAddress =>
    let handle := s.channel.allocator.req.ptrToHandle newAddress
    some ((s.setChannel (s.channel.setReqHandle (qPos pos) handle)).setClient i (.setSize m pos))
  | .setSize m pos =>
    let r := ⟨i, pos, m.bytes⟩
    some ({ s with
      channel := s.channel.setReqSize (qPos pos) m.size
      accepted := s.accepted ++ [r]
      pending := s.pending ++ [r] }.setClient i .idle)
  | .receive r =>
    -- a client whose response is not there waits
    if (s.channel.elem r.slot).resp.empty then none
    else
      match s.channel.receive r.slot with
      | .ok (none, c) =>
        some ({ s with channel := c, pending := s.pending.erase r }.setClient i .idle)
      | .ok (some memblock, c) =>
        some ({ s with
          channel := c
          pending := s.pending.erase r
          received := s.received ++ [(r, memblock)] }.setClient i .idle)
      | .error _ => some (s.setClient i .aborted)
  | .aborted => none

def stepServer (cb : Callback) (s : World n) : Option (World n) :=
  match s.server with
  | .fetchAdd => some ({ s with pos := u32 (s.pos + 1) }.setServer (.readServer s.pos))
  | .readServer pos =>
    match s.channel.readServer pos with
    | none => some (s.setServer .fetchAdd)
    | some req => some (s.setServer (.callback pos req))
  | .callback pos req =>
    some ({ s with ran := s.ran ++ [req] }.setServer (.checkMemory pos (cb.answer req)))
  | .checkMemory pos resp =>
    if resp.size > s.channel.allocator.resp.getFreeMemory then
      some (s.setServer (.signalError pos))
    else some (s.setServer (.alloc pos resp))
  | .alloc pos resp =>
    match s.channel.allocResp resp.size with
    | .ok (none, c) => some ((s.setChannel c).setServer (.signalError pos))
    | .ok (some respAddress, c) => some ((s.setChannel c).setServer (.copy pos resp respAddress))
    | .error _ => some (s.setServer .aborted)
  | .copy pos resp respAddress =>
    some ((s.setChannel (s.channel.storeResp respAddress resp.bytes)).setServer
      (.publish pos resp respAddress))
  | .publish pos resp respAddress =>
    some ((s.setChannel (s.channel.respond (qPos pos) respAddress resp.size)).setServer .fetchAdd)
  | .signalError pos =>
    some ((s.setChannel (s.channel.signalError (qPos pos))).setServer .fetchAdd)
  | .aborted => none

def step (cb : Callback) (s : World n) : Label n → Option (World n)
  | .send i memblock => s.startSend i memblock
  | .recv i r => s.startRecv i r
  | .client i => s.stepClient i
  | .server => s.stepServer cb

/-- The callback has run on requests that clients have sent, byte for byte, and what `recv`
has returned for a request is the answer to it. -/
structure Matched (cb : Callback) (s : World n) : Prop where
  ran : ∀ req ∈ s.ran, ∃ r ∈ s.accepted, req = .ofData r.bytes
  received : ∀ r memblock, (r, memblock) ∈ s.received → r ∈ s.accepted ∧
    memblock.bytes = (cb.answer (.ofData r.bytes)).bytes ∧
    memblock.size = (cb.answer (.ofData r.bytes)).size

/-- The two overlaps that must not happen: `read_server` looks at a slot between the moment
a client takes it and the moment it is published or given back, and `read_client` takes a
response while the server is about to answer the request of that slot once more. -/
def Apart (s : World n) : Label n → Prop
  | .server => ∀ i, s.server.reading = none ∨ (s.clients i).window ≠ s.server.reading
  | .client i => (s.clients i).receiving = none ∨ s.server.serving ≠ (s.clients i).receiving
  | .send _ _ => True
  | .recv _ _ => True

instance (s : World n) : (l : Label n) → Decidable (s.Apart l)
  | .server => inferInstanceAs (Decidable (∀ _, _ ∨ _))
  | .client _ => inferInstanceAs (Decidable (_ ∨ _))
  | .send _ _ => inferInstanceAs (Decidable True)
  | .recv _ _ => inferInstanceAs (Decidable True)

end World

end Shadesmar.Rpc.Interleaving
