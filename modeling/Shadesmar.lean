import Shadesmar.Library.Cyclic
import Shadesmar.Library.Bytes
import Shadesmar.Library.Machine
import Shadesmar.Library.Tally
import Shadesmar.Library.Trace
import Shadesmar.Library.RobustMutex
import Shadesmar.Library.Rounding
import Shadesmar.Library.Pieces
import Shadesmar.Library.Moments
import Shadesmar.Library.Refinement
import Shadesmar.Library.Progress
import Shadesmar.Library.Looping
import Shadesmar.Memory.Allocator
import Shadesmar.Memory.Ring
import Shadesmar.Memory.Live
import Shadesmar.Memory.History
import Shadesmar.Memory.Aligned
import Shadesmar.Memory.Refusal
import Shadesmar.Memory.Crash
import Shadesmar.Memory.Room
import Shadesmar.Memory.Placement
import Shadesmar.Memory.Operations
import Shadesmar.Memory.Copier
import Shadesmar.Memory.Agreement
import Shadesmar.Memory.Workers
import Shadesmar.Memory.Split
import Shadesmar.Memory.Element
import Shadesmar.Memory.Arena
import Shadesmar.Memory.Mapping
import Shadesmar.PubSub.Topic
import Shadesmar.PubSub.Window
import Shadesmar.PubSub.Publisher
import Shadesmar.PubSub.Subscriber
import Shadesmar.PubSub.Wrap
import Shadesmar.PubSub.Moving
import Shadesmar.PubSub.Capacity
import Shadesmar.PubSub.Precheck
import Shadesmar.PubSub.Wedge
import Shadesmar.PubSub.Log
import Shadesmar.PubSub.Mapping
import Shadesmar.Concurrency.RwLock
import Shadesmar.Concurrency.PthreadWriteLock
import Shadesmar.PubSub.Interleaving
import Shadesmar.PubSub.SlotLocks
import Shadesmar.PubSub.Observers
import Shadesmar.PubSub.Publishing
import Shadesmar.PubSub.Returning
import Shadesmar.PubSub.Reading
import Shadesmar.PubSub.Overtaking
import Shadesmar.PubSub.Liveness
import Shadesmar.PubSub.Spinning
import Shadesmar.PubSub.Stalling
import Shadesmar.PubSub.Deliveries
import Shadesmar.PubSub.Lapping
import Shadesmar.PubSub.Oversized
import Shadesmar.Memory.DoubleAllocator
import Shadesmar.Memory.Halves
import Shadesmar.Memory.Segment
import Shadesmar.Memory.Creation
import Shadesmar.Rpc.Channel
import Shadesmar.Rpc.Server
import Shadesmar.Rpc.Service
import Shadesmar.Rpc.ResponseMemory
import Shadesmar.Rpc.RequestMemory
import Shadesmar.Rpc.Interleaving
import Shadesmar.Rpc.Requests
import Shadesmar.Rpc.Responses
import Shadesmar.Rpc.Exchange
import Shadesmar.Rpc.Reclaim
import Shadesmar.Rpc.Rounds
import Shadesmar.Rpc.Sending
import Shadesmar.Rpc.Moving
import Shadesmar.Rpc.Mapping
import Shadesmar.Rpc.Table
import Shadesmar.Rpc.Lifetime
import Shadesmar.Rpc.Order
import Shadesmar.Rpc.Rotation
import Shadesmar.Rpc.Answering
import Shadesmar.Rpc.Serving
import Shadesmar.Concurrency.Insertion
import Shadesmar.Rpc.Positions
import Shadesmar.Rpc.Abandoning
import Shadesmar.Rpc.Waiting
import Shadesmar.PubSub.Mortality
import Shadesmar.Concurrency.RobustLock
import Shadesmar.Concurrency.Exclusion
import Shadesmar.Concurrency.SetCalls
import Shadesmar.Concurrency.Recovery
import Shadesmar.Concurrency.Blocking
import Shadesmar.Concurrency.Sharing
import Shadesmar.Concurrency.Reset
import Shadesmar.PubSub.Attaching
import Shadesmar.PubSub.Registering
import Shadesmar.Stats
import Shadesmar.Copying
import Shadesmar.Narrowing
import Shadesmar.Moving
