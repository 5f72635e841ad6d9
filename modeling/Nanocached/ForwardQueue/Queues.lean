import Nanocached.ForwardQueue.Basic

namespace Nanocached

def maxForwardQueueBytes : Nat :=
  64 * 1024 * 1024

def forwardChannelCapacity : Nat :=
  256

def maxPendingForwardWaiters : Nat :=
  4096

namespace OwnedForwardedWrite

def intoHandoffFrame : OwnedForwardedWrite → OwnedForwardedWrite
  | set key value ttl => handoffSet key value ttl false
  | delete key        => handoffDelete key
  | other             => other

def batchBytesFrom (namespaces : List (Nat × Nat)) : List OwnedForwardedWrite → UInt64
  | []              => 0
  | write :: writes =>
    match write.namespaceAllocation with
    | none            => write.entryBytes + batchBytesFrom namespaces writes
    | some allocation =>
      if allocation ∈ namespaces then
        write.entryBytes + batchBytesFrom namespaces writes
      else
        write.entryBytes + .ofNat allocation.2 + batchBytesFrom (allocation :: namespaces) writes

def batchBytes (writes : List OwnedForwardedWrite) : UInt64 :=
  batchBytesFrom [] writes

end OwnedForwardedWrite

namespace ForwardQueues

structure Entry where
  queue    : TargetQueue
  draining : Bool
  -- How many queues were created before. The source does not keep this.
  epoch    : Nat

-- A call of `push` that has found no room. Every release of bytes wakes it up to look again.
structure Pushing where
  id     : Nat
  writes : List OwnedForwardedWrite
  woken  : Bool
deriving DecidableEq, Repr

-- A task that runs `drain_forward_queue`. It sends nothing before it is polled for the first time.
structure Drainer where
  id      : Nat
  sending : Option OwnedForwardedWrite
deriving DecidableEq, Repr

-- A write that a drainer has taken from a queue, and its place in the queue.
structure Sent where
  id    : Nat
  epoch : Nat
  seq   : Nat
  write : OwnedForwardedWrite

-- How a new drainer gets from a connection to the runner.
inductive Handover where
  | delivered
  | waiter
  | refused
deriving DecidableEq, Repr

end ForwardQueues

open ForwardQueues in
-- The queues of a node, with the tasks that push to and drain them.
structure ForwardQueues where
  targets  : Map Nat ForwardQueues.Entry
  waiting  : List Pushing
  channel  : List Nat
  waiters  : List Nat
  drainers : List Drainer
  -- Not kept by the source.
  created  : Nat
  sent     : List Sent

namespace ForwardQueues

def new : ForwardQueues where
  targets  := ∅
  waiting  := []
  channel  := []
  waiters  := []
  drainers := []
  created  := 0
  sent     := []

def notifyWaiters (s : ForwardQueues) : ForwardQueues :=
  { s with waiting := s.waiting.map fun p => { p with woken := true } }

-- Queues the writes if there is room. The result is the identifier of the queue if it needs a
-- drainer.
def tryPush (s : ForwardQueues) (id : Nat) (writes : List OwnedForwardedWrite) :
    Option (Option Nat × ForwardQueues) :=
  let wanted   := OwnedForwardedWrite.batchBytes writes
  let used     := (s.targets.lookup id).elim 0 (·.queue.bytes)
  let draining := (s.targets.lookup id).elim false (·.draining)
  if used = 0 ∨ draining = false ∨ used + wanted ≤ .ofNat maxForwardQueueBytes then
    let entry   := (s.targets.lookup id).getD ⟨.new, false, s.created⟩
    let created := if (s.targets.lookup id).isSome then s.created else s.created + 1
    let queue   := writes.foldl TargetQueue.push entry.queue
    some (if entry.draining then none else some id, { s with
      targets := s.targets.insert id { entry with queue := queue, draining := true }
      created := created })
  else
    none

def next (s : ForwardQueues) (id : Nat) : Option OwnedForwardedWrite × ForwardQueues :=
  match s.targets.lookup id with
  | none       => (none, s)
  | some entry =>
    match entry.queue.ops.popFirst, entry.queue.pop with
    | some ((seq, _), _), some (write, queue) =>
      (some write, { s with
        targets := s.targets.insert id { entry with queue := queue }
        sent    := s.sent ++ [Sent.mk id entry.epoch seq write] }.notifyWaiters)
    | _, _ => (none, { s with targets := s.targets.erase id }.notifyWaiters)

def deactivate (s : ForwardQueues) (id : Nat) : ForwardQueues :=
  match s.targets.lookup id with
  | none       => s.notifyWaiters
  | some entry =>
    if entry.queue.ops.entries.isEmpty then
      { s with targets := s.targets.erase id }.notifyWaiters
    else
      { s with targets := s.targets.insert id { entry with draining := false } }.notifyWaiters

-- The rest of `enqueue_forwards`. Whether the channel has a free slot also depends on the waiters
-- that were promised one, which is left open.
def handOver (s : ForwardQueues) (id : Nat) : Handover → Option ForwardQueues
  | .delivered =>
    if s.channel.length < forwardChannelCapacity then
      some { s with channel := s.channel ++ [id] }
    else
      none
  | .waiter =>
    if s.waiters.length < maxPendingForwardWaiters then
      some { s with waiters := s.waiters ++ [id] }
    else
      none
  | .refused =>
    if s.waiters.length < maxPendingForwardWaiters then
      none
    else
      some (s.deactivate id)

-- One iteration of the loop of `push`, and what its caller does next.
def enqueueForwards (s : ForwardQueues) (id : Nat) (writes : List OwnedForwardedWrite)
    (handover : Handover) : Option ForwardQueues :=
  match s.tryPush id writes with
  | none              => some { s with waiting := s.waiting ++ [⟨id, writes, false⟩] }
  | some (none, s)    => some s
  | some (some id, s) => s.handOver id handover

-- A drainer takes its next write, or ends and drops its guard.
def advance (s : ForwardQueues) (drainer : Drainer) : ForwardQueues :=
  match s.next drainer.id with
  | (some write, s) =>
    { s with drainers := ⟨drainer.id, some write⟩ :: s.drainers.erase drainer }
  | (none, s) => { s with drainers := s.drainers.erase drainer }.deactivate drainer.id

inductive Op where
  -- A connection pushes writes, looks again after it was woken up, or is closed while it waits.
  | push (id : Nat) (asHandoff : Bool) (writes : List OwnedForwardedWrite) (handover : Handover)
  | retry (pushing : Pushing) (handover : Handover)
  | cancel (pushing : Pushing)
  -- A waiter gets a slot in the channel, or finds it closed.
  | send (id : Nat)
  | sendFails (id : Nat)
  -- The runner spawns the next drainer.
  | recv
  -- A drainer is polled for the first time, or its send is over.
  | advance (drainer : Drainer)
  -- A drainer is dropped while it sends.
  | drop (drainer : Drainer)

def exec (s : ForwardQueues) : Op → Option ForwardQueues
  | .push id asHandoff writes handover =>
    let writes := if asHandoff then writes.map (·.intoHandoffFrame) else writes
    s.enqueueForwards id writes handover
  | .retry pushing handover =>
    if pushing ∈ s.waiting ∧ pushing.woken then
      { s with waiting := s.waiting.erase pushing }.enqueueForwards pushing.id pushing.writes handover
    else
      none
  | .cancel pushing =>
    if pushing ∈ s.waiting then
      some { s with waiting := s.waiting.erase pushing }
    else
      none
  | .send id =>
    if id ∈ s.waiters ∧ s.channel.length < forwardChannelCapacity then
      some { s with waiters := s.waiters.erase id, channel := s.channel ++ [id] }
    else
      none
  | .sendFails id =>
    if id ∈ s.waiters then
      some ({ s with waiters := s.waiters.erase id }.deactivate id)
    else
      none
  | .recv =>
    match s.channel with
    | []            => none
    | id :: channel =>
      some { s with channel := channel, drainers := ⟨id, none⟩ :: s.drainers }
  | .advance drainer =>
    if drainer ∈ s.drainers then some (s.advance drainer) else none
  | .drop drainer =>
    if drainer ∈ s.drainers ∧ drainer.sending.isSome then
      some ({ s with drainers := s.drainers.erase drainer }.deactivate drainer.id)
    else
      none

inductive Reachable : ForwardQueues → Prop
  | new : Reachable .new
  | step {s s' : ForwardQueues} {op : Op} : Reachable s → s.exec op = some s' → Reachable s'

end ForwardQueues
end Nanocached
