import Shadesmar.Concurrency.RwLock
import Shadesmar.PubSub.Subscriber
import Shadesmar.Library.Tally

/-! Publishers and subscribers that run at the same time.  Every thread stands before
its next access to shared memory; a label names the thread that goes on.  A call of the
allocator, which runs under the allocator's own lock, and the copy of a payload into its
new block are one step each; a subscriber copies a message byte by byte. -/

namespace Shadesmar.PubSub.Interleaving

open Library Shadesmar.Memory Shadesmar.Concurrency

structure Job where
  id : Nat
  memblock : Memblock
  deriving DecidableEq

inductive WritePc
  | idle
  | checkMemory (w : Job)
  | readCounter (w : Job)
  | alloc (w : Job) (q : Fin queueSize)
  | copy (w : Job) (q : Fin queueSize) (newAddress : Nat)
  | lock (w : Job) (q : Fin queueSize) (newAddress : Nat)
  | readOld (w : Job) (q : Fin queueSize) (newAddress : Nat)
  | setHandle (w : Job) (q : Fin queueSize) (newAddress : Nat) (oldAddress : Option Nat)
  | setSize (w : Job) (q : Fin queueSize) (oldAddress : Option Nat)
  | setEmpty (w : Job) (q : Fin queueSize) (oldAddress : Option Nat)
  | unlock (w : Job) (q : Fin queueSize) (oldAddress : Option Nat)
  | free (w : Job) (oldAddress : Option Nat)
  | incCounter (w : Job)
  | aborted
  deriving DecidableEq

/-- The place of a subscriber in `spin_once`.  From `readCounter` to `unlock` it is inside
`read` and holds the lock of slot `held`; `fast` tells which path it has taken. -/
inductive ReadPc
  | idle
  | check
  | checkLag
  | jump
  | lockSharable
  | readCounter (held : Fin queueSize)
  | jumpahead (held : Fin queueSize)
  | readEmpty (held : Fin queueSize) (fast : Bool)
  | readHandle (held : Fin queueSize) (fast : Bool)
  | readSize (held : Fin queueSize) (fast : Bool) (handle : Nat)
  | copy (held : Fin queueSize) (fast : Bool) (handle size : Nat) (got : List UInt8)
  | unlock (held : Fin queueSize) (fast : Bool) (result : Option Memblock)
  | returned (fast : Bool) (memblock : Memblock)
  deriving DecidableEq

structure Reader where
  counter : Nat
  pc : ReadPc

/-- `calls` are the messages of all calls of `write` in the order in which they started,
and `accepted` the numbers of those that have returned true, in the order of return. -/
structure World (n m : Nat) where
  topic : Topic
  locks : Fin queueSize → RwLock
  calls : List Memblock
  accepted : List Nat
  pubs : Fin n → WritePc
  subs : Fin m → Reader

inductive Label (n m : Nat)
  | write (i : Fin n) (memblock : Memblock)
  | publisher (i : Fin n)
  | subscriber (j : Fin m)

namespace World

variable {n m : Nat}

def new (heapBase bufferSize : Nat) : World n m where
  topic := .new heapBase bufferSize
  locks := fun _ => .free
  calls := []
  accepted := []
  pubs := fun _ => .idle
  subs := fun _ => ⟨0, .idle⟩

def setPub (s : World n m) (i : Fin n) (pc : WritePc) : World n m :=
  { s with pubs := Function.update s.pubs i pc }

def setSub (s : World n m) (j : Fin m) (r : Reader) : World n m :=
  { s with subs := Function.update s.subs j r }

def setTopic (s : World n m) (t : Topic) : World n m := { s with topic := t }

def setLock (s : World n m) (q : Fin queueSize) (l : RwLock) : World n m :=
  { s with locks := Function.update s.locks q l }

@[simp] theorem pubs_setPub (s : World n m) (i : Fin n) (pc : WritePc) :
    (s.setPub i pc).pubs i = pc := Function.update_self ..

@[simp] theorem subs_setSub (s : World n m) (j : Fin m) (r : Reader) :
    (s.setSub j r).subs j = r := Function.update_self ..

def start (s : World n m) (i : Fin n) (memblock : Memblock) : Option (World n m) :=
  match s.pubs i with
  | .idle =>
    if memblock.Filled then
      some ({ s with calls := s.calls ++ [memblock] }.setPub i
        (.checkMemory ⟨s.calls.length, memblock⟩))
    else none
  | _ => none

theorem start_some {s s' : World n m} {i : Fin n} {memblock : Memblock}
    (h : s.start i memblock = some s') : s.pubs i = .idle ∧ memblock.Filled ∧
      s' = { s with calls := s.calls ++ [memblock] }.setPub i
        (.checkMemory ⟨s.calls.length, memblock⟩) := by
  unfold start at h
  cases hpc : s.pubs i with
  | idle =>
    simp only [hpc] at h
    split_ifs at h with hfilled
    exact ⟨rfl, hfilled, (Option.some.inj h).symm⟩
  | _ => simp [hpc] at h

def stepPub (s : World n m) (i : Fin n) : Option (World n m) :=
  match s.pubs i with
  | .idle => none
  | .checkMemory w =>
    if w.memblock.size > s.topic.allocator.getFreeMemory then some (s.setPub i .idle)
    else some (s.setPub i (.readCounter w))
  | .readCounter w => some (s.setPub i (.alloc w (qPos s.topic.counter)))
  | .alloc w q =>
    match s.topic.alloc w.memblock.size with
    | .ok (none, t) => some ((s.setTopic t).setPub i .idle)
    | .ok (some newAddress, t) => some ((s.setTopic t).setPub i (.copy w q newAddress))
    | .error _ => some (s.setPub i .aborted)
  | .copy w q newAddress =>
    some ((s.setTopic (s.topic.userToShm newAddress w.memblock.bytes)).setPub i
      (.lock w q newAddress))
  | .lock w q newAddress =>
    -- a publisher that does not get the lock waits
    (s.locks q).tryLock.map fun l => (s.setLock q l).setPub i (.readOld w q newAddress)
  | .readOld w q newAddress =>
    some (s.setPub i (.setHandle w q newAddress (s.topic.oldAddress q)))
  | .setHandle w q newAddress old =>
    some ((s.setTopic (s.topic.setHandle q newAddress)).setPub i (.setSize w q old))
  | .setSize w q old =>
    some ((s.setTopic (s.topic.setSize q w.memblock.size)).setPub i (.setEmpty w q old))
  | .setEmpty w q old => some ((s.setTopic (s.topic.setEmpty q)).setPub i (.unlock w q old))
  | .unlock w q old => some ((s.setLock q (s.locks q).unlock).setPub i (.free w old))
  | .free w old =>
    match s.topic.free old with
    | .ok (true, t) => some ((s.setTopic t).setPub i (.incCounter w))
    | .ok (false, t) => some (s.setTopic t)
    | .error _ => some (s.setPub i .aborted)
  | .incCounter w =>
    some ({ s with topic := s.topic.incCounter, accepted := s.accepted ++ [w.id] }.setPub i .idle)
  | .aborted => none

def stepSub (alloc : Nat → Bool) (s : World n m) (j : Fin m) : Option (World n m) :=
  let c := (s.subs j).counter
  match (s.subs j).pc with
  | .idle => some (s.setSub j ⟨c, .check⟩)
  | .check =>
    if s.topic.counter ≤ c then some (s.setSub j ⟨c, .idle⟩) else some (s.setSub j ⟨c, .checkLag⟩)
  | .checkLag =>
    if sub32 s.topic.counter c ≥ queueSize then some (s.setSub j ⟨c, .jump⟩)
    else some (s.setSub j ⟨c, .lockSharable⟩)
  | .jump => some (s.setSub j ⟨PubSub.jumpahead s.topic.counter queueSize, .lockSharable⟩)
  | .lockSharable =>
    (s.locks (qPos c)).tryLockSharable.map fun l =>
      (s.setLock (qPos c) l).setSub j ⟨c, .readCounter (qPos c)⟩
  | .readCounter held =>
    if queueSize > sub32 s.topic.counter c then some (s.setSub j ⟨c, .readEmpty held true⟩)
    else some (s.setSub j ⟨c, .jumpahead held⟩)
  | .jumpahead held =>
    some (s.setSub j ⟨PubSub.jumpahead s.topic.counter queueSize, .readEmpty held false⟩)
  | .readEmpty held fast =>
    if (s.topic.elem (qPos c)).empty then some (s.setSub j ⟨c, .unlock held fast none⟩)
    else some (s.setSub j ⟨c, .readHandle held fast⟩)
  | .readHandle held fast =>
    some (s.setSub j ⟨c, .readSize held fast (s.topic.elem (qPos c)).addressHandle⟩)
  | .readSize held fast handle =>
    some (s.setSub j ⟨c, .copy held fast handle (s.topic.elem (qPos c)).size []⟩)
  | .copy held fast handle size got =>
    if got.length < size then
      -- a copy to a null pointer crashes the subscriber
      if alloc size then
        let src := s.topic.allocator.handleToPtr handle + got.length
        some (s.setSub j ⟨c, .copy held fast handle size (got ++ s.topic.allocator.load src 1)⟩)
      else none
    else
      let memblock := ⟨if alloc size then some got else none, size, true⟩
      some (s.setSub j ⟨c, .unlock held fast (some memblock)⟩)
  | .unlock held fast result =>
    let s := s.setLock held (s.locks held).unlock
    match result with
    | none => some (s.setSub j ⟨c, .idle⟩)
    | some memblock => some (s.setSub j ⟨c, .returned fast memblock⟩)
  | .returned _ memblock =>
    if memblock.isEmpty then some (s.setSub j ⟨c, .idle⟩)
    else some (s.setSub j ⟨u32 (c + 1), .idle⟩)

def step (alloc : Nat → Bool) (s : World n m) : Label n m → Option (World n m)
  | .write i memblock => s.start i memblock
  | .publisher i => s.stepPub i
  | .subscriber j => s.stepSub alloc j

end World

end Shadesmar.PubSub.Interleaving
