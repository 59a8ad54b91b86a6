import Shadesmar.Memory.DoubleAllocator
import Shadesmar.Memory.Element

/-! `rpc/channel.h`: the sections that run under the mutex of a slot, the accesses that
run outside of them, and the four operations as their composition.  The models of
concurrent clients and servers take the same pieces one at a time.  The copies that
`copier_->alloc` makes room for in the memory of the caller are taken to succeed. -/

namespace Shadesmar.Rpc

open Library Shadesmar.Memory

structure ChannelElem where
  req : Element
  resp : Element
  deriving DecidableEq

def ChannelElem.fresh : ChannelElem := ⟨.fresh, .fresh⟩

structure Channel where
  queue : SharedQueue ChannelElem
  allocator : DoubleAllocator

namespace Channel

def new (heapBase stride bufferSize : Nat) : Channel where
  queue := ⟨0, fun _ => .fresh⟩
  allocator := .new heapBase stride bufferSize

def counter (c : Channel) : Nat := c.queue.counter

def elem (c : Channel) (q : Fin queueSize) : ChannelElem := c.queue.elements q

def incCounter (c : Channel) : Channel :=
  { c with queue := { c.queue with counter := u32 (c.counter + 1) } }

def setElem (c : Channel) (q : Fin queueSize) (e : ChannelElem) : Channel :=
  { c with queue := c.queue.set q e }

def setReq (c : Channel) (q : Fin queueSize) (e : Element) : Channel :=
  c.setElem q { c.elem q with req := e }

def setResp (c : Channel) (q : Fin queueSize) (e : Element) : Channel :=
  c.setElem q { c.elem q with resp := e }

def setReqAllocator (c : Channel) (a : Allocator) : Channel :=
  { c with allocator := { c.allocator with req := a } }

def setRespAllocator (c : Channel) (a : Allocator) : Channel :=
  { c with allocator := { c.allocator with resp := a } }

/-- The locked section of `write_client`; `none` when the queue is full. -/
def accept (c : Channel) (q : Fin queueSize) : Option Channel :=
  if (c.elem q).req.empty then some (c.incCounter.setReq q { (c.elem q).req with empty := false })
  else none

/-- `memory_.allocator_->req.alloc(size)`, which narrows the size to `uint32_t`. -/
def allocReq (c : Channel) (size : Nat) : Checked (Option Nat × Channel) := do
  let (p, a) ← c.allocator.req.alloc (u32 size)
  return (p, c.setReqAllocator a)

/-- `copier_->user_to_shm` into a block of the request allocator. -/
def storeReq (c : Channel) (ptr : Nat) (bs : List UInt8) : Channel :=
  c.setReqAllocator (c.allocator.req.store ptr bs)

def setReqHandle (c : Channel) (q : Fin queueSize) (handle : Nat) : Channel :=
  c.setReq q { (c.elem q).req with addressHandle := handle }

def setReqSize (c : Channel) (q : Fin queueSize) (size : Nat) : Channel :=
  c.setReq q { (c.elem q).req with size := size }

def setReqEmpty (c : Channel) (q : Fin queueSize) : Channel :=
  c.setReq q { (c.elem q).req with empty := true }

/-- `elem->req.reset()`, store by store. -/
def resetReq (c : Channel) (q : Fin queueSize) : Channel :=
  ((c.setReqSize q 0).setReqHandle q 0).setReqEmpty q

def writeClient (c : Channel) (memblock : Memblock) : Checked (Option Nat × Channel) :=
  if memblock.size > c.allocator.req.getFreeMemory then .ok (none, c)
  else
    let pos := c.counter
    let q := qPos pos
    match c.accept q with
    | none => .ok (none, c)
    | some c => do
      match ← c.allocReq memblock.size with
      | (none, c) => return (none, c.resetReq q)
      | (some newAddress, c) =>
        let c := c.storeReq newAddress memblock.bytes
        let c := c.setReqHandle q (c.allocator.req.ptrToHandle newAddress)
        return (some pos, c.setReqSize q memblock.size)

/-- `memory_.allocator_->req.free(address)`, whose result the callers drop. -/
def freeReq (c : Channel) (address : Nat) : Checked Channel := do
  let (_, a) ← c.allocator.req.free (some address)
  return c.setReqAllocator a

/-- `elem->resp.reset(); elem->req.reset();` -/
def resetElem (c : Channel) (q : Fin queueSize) : Channel := (c.setResp q .fresh).setReq q .fresh

/-- The lambda `clean_up` of `read_client`. -/
def cleanUp (c : Channel) (q : Fin queueSize) : Checked Channel := do
  let req := (c.elem q).req
  if req.size ≠ 0 then
    let c ← c.freeReq (c.allocator.req.handleToPtr req.addressHandle)
    return c.resetElem q
  else
    return c.resetElem q

/-- The locked section of `read_client` once the response is there; the memory block is
`none` when the function returns false. -/
def receive (c : Channel) (q : Fin queueSize) : Checked (Option Memblock × Channel) := do
  let resp := (c.elem q).resp
  if resp.addressHandle = 0 then
    let c ← c.cleanUp q
    return (none, c)
  else
    let address := c.allocator.resp.handleToPtr resp.addressHandle
    let memblock := ⟨some (c.allocator.resp.load address resp.size), resp.size, true⟩
    let c ← c.cleanUp q
    return (some memblock, c)

/-- `none` while the caller waits for the response. -/
def readClient (c : Channel) (pos : Nat) : Option (Checked (Option Memblock × Channel)) :=
  let q := qPos pos
  if (c.elem q).resp.empty then none else some (c.receive q)

/-- The lambda `signal_error` of `write_server`. -/
def signalError (c : Channel) (q : Fin queueSize) : Channel :=
  c.setResp q { Element.fresh with empty := false }

/-- `memory_.allocator_->resp.alloc(size)`, which narrows the size to `uint32_t`. -/
def allocResp (c : Channel) (size : Nat) : Checked (Option Nat × Channel) := do
  let (p, a) ← c.allocator.resp.alloc (u32 size)
  return (p, c.setRespAllocator a)

/-- `copier_->user_to_shm` into a block of the response allocator. -/
def storeResp (c : Channel) (ptr : Nat) (bs : List UInt8) : Channel :=
  c.setRespAllocator (c.allocator.resp.store ptr bs)

def respond (c : Channel) (q : Fin queueSize) (respAddress size : Nat) : Channel :=
  c.setResp q ⟨size, false, c.allocator.resp.ptrToHandle respAddress⟩

def writeServer (c : Channel) (memblock : Memblock) (pos : Nat) : Checked (Bool × Channel) :=
  let q := qPos pos
  if memblock.size > c.allocator.resp.getFreeMemory then .ok (false, c.signalError q)
  else do
    match ← c.allocResp memblock.size with
    | (none, c) => return (false, c.signalError q)
    | (some respAddress, c) =>
      let c := c.storeResp respAddress memblock.bytes
      return (true, c.respond q respAddress memblock.size)

/-- The request; `none` when the function returns false. -/
def readServer (c : Channel) (pos : Nat) : Option Memblock :=
  let req := (c.elem (qPos pos)).req
  if req.empty then none
  else
    let address := c.allocator.req.handleToPtr req.addressHandle
    some ⟨some (c.allocator.req.load address req.size), req.size, true⟩

section Fields

variable (c : Channel) (q : Fin queueSize) (e : Element) (a : Allocator)

@[simp] theorem allocator_setReq : (c.setReq q e).allocator = c.allocator := rfl
@[simp] theorem allocator_incCounter : c.incCounter.allocator = c.allocator := rfl
@[simp] theorem elem_incCounter : c.incCounter.elem q = c.elem q := rfl
@[simp] theorem elem_setReqAllocator : (c.setReqAllocator a).elem q = c.elem q := rfl
@[simp] theorem elem_setRespAllocator : (c.setRespAllocator a).elem q = c.elem q := rfl

@[simp] theorem elem_setReq_self : (c.setReq q e).elem q = { c.elem q with req := e } :=
  SharedQueue.set_self ..

@[simp] theorem elem_setResp_self : (c.setResp q e).elem q = { c.elem q with resp := e } :=
  SharedQueue.set_self ..

theorem elem_setReq_ne {q' : Fin queueSize} (h : q' ≠ q) :
    (c.setReq q e).elem q' = c.elem q' := SharedQueue.set_ne _ h _

theorem elem_setResp_ne {q' : Fin queueSize} (h : q' ≠ q) :
    (c.setResp q e).elem q' = c.elem q' := SharedQueue.set_ne _ h _

@[simp] theorem resp_setReq (q' : Fin queueSize) :
    ((c.setReq q e).elem q').resp = (c.elem q').resp := by
  by_cases h : q' = q
  · subst h
    rw [elem_setReq_self]
  · rw [elem_setReq_ne _ _ _ h]

@[simp] theorem req_setResp (q' : Fin queueSize) :
    ((c.setResp q e).elem q').req = (c.elem q').req := by
  by_cases h : q' = q
  · subst h
    rw [elem_setResp_self]
  · rw [elem_setResp_ne _ _ _ h]

@[simp] theorem resp_setReqHandle (q' : Fin queueSize) (handle : Nat) :
    ((c.setReqHandle q handle).elem q').resp = (c.elem q').resp := resp_setReq ..

@[simp] theorem resp_setReqSize (q' : Fin queueSize) (size : Nat) :
    ((c.setReqSize q size).elem q').resp = (c.elem q').resp := resp_setReq ..

@[simp] theorem resp_setReqEmpty (q' : Fin queueSize) :
    ((c.setReqEmpty q).elem q').resp = (c.elem q').resp := resp_setReq ..

end Fields

theorem receive_eq {c c' : Channel} {q : Fin queueSize} (h : c.cleanUp q = .ok c') :
    c.receive q = .ok (if (c.elem q).resp.addressHandle = 0 then none else
      some ⟨some (c.allocator.resp.load (c.allocator.resp.handleToPtr
        (c.elem q).resp.addressHandle) (c.elem q).resp.size), (c.elem q).resp.size, true⟩, c') := by
  simp only [receive, h]
  split_ifs <;> rfl

end Channel

end Shadesmar.Rpc
