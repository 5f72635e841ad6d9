import Nanocached.Basic
import Nanocached.Lib.SortedMap

namespace Nanocached

inductive ClearScope where
  | «namespace» (ns : Bytes)
  | all
deriving DecidableEq, Repr

-- A key whose namespace is a slice of a shared allocation. The address of the slice matters only
-- for what a queue is charged: two slices that are alive and have the same address and length hold
-- the same bytes.
structure SharedKey extends Key where
  nsPtr : Nat
deriving DecidableEq, Repr

inductive OwnedForwardedWrite where
  | set (key : SharedKey) (value : Bytes) (ttl : Option Duration)
  | delete (key : SharedKey)
  | handoffSet (key : SharedKey) (value : Bytes) (ttl : Option Duration) (ifAbsent : Bool)
  | handoffDelete (key : SharedKey)
  | clear (scope : ClearScope)
deriving DecidableEq, Repr

def forwardEntryOverheadBytes : Nat :=
  320

namespace OwnedForwardedWrite

-- The key of an unconditional write, which overwrites whatever the target holds for it.
def coalescingKey : OwnedForwardedWrite → Option Key
  | set key _ _              => some key.toKey
  | delete key               => some key.toKey
  | handoffSet key _ _ false => some key.toKey
  | handoffDelete key        => some key.toKey
  | handoffSet _ _ _ true    => none
  | clear _                  => none

def entryBytes (write : OwnedForwardedWrite) : UInt64 :=
  let own := match write with
    | set key value _          => key.name.length + value.length
    | handoffSet key value _ _ => key.name.length + value.length
    | delete key               => key.name.length
    | handoffDelete key        => key.name.length
    | clear (.namespace ns)    => ns.length
    | clear .all               => 0
  .ofNat (own + forwardEntryOverheadBytes)

-- The address and the length of the namespace.
def namespaceAllocation (write : OwnedForwardedWrite) : Option (Nat × Nat) :=
  let allocation (key : SharedKey) := if key.ns.isEmpty then none else some (key.nsPtr, key.ns.length)
  match write with
  | set key _ _          => allocation key
  | handoffSet key _ _ _ => allocation key
  | delete key           => allocation key
  | handoffDelete key    => allocation key
  | clear _              => none

end OwnedForwardedWrite

structure Queued where
  write : OwnedForwardedWrite
  bytes : UInt64
deriving DecidableEq, Repr

-- The writes waiting to be forwarded to one target.
structure TargetQueue where
  ops        : SortedMap Nat Queued
  nextSeq    : Nat
  bytes      : UInt64
  namespaces : Map (Nat × Nat) Nat
  slots      : Map Key Nat

namespace TargetQueue

def new : TargetQueue where
  ops        := .empty
  nextSeq    := 0
  bytes      := 0
  namespaces := ∅
  slots      := ∅

def charge (queue : TargetQueue) (write : OwnedForwardedWrite) : UInt64 × TargetQueue :=
  let bytes := write.entryBytes
  let queue := { queue with bytes := queue.bytes + bytes }
  match write.namespaceAllocation with
  | none            => (bytes, queue)
  | some allocation =>
    let sharers := (queue.namespaces.lookup allocation).getD 0
    let len     := if sharers = 0 then .ofNat allocation.2 else 0
    (bytes, { queue with
      bytes      := queue.bytes + len
      namespaces := queue.namespaces.insert allocation (sharers + 1) })

def release (queue : TargetQueue) (write : OwnedForwardedWrite) (bytes : UInt64) : TargetQueue :=
  let queue := { queue with bytes := queue.bytes - bytes }
  match write.namespaceAllocation with
  | none            => queue
  | some allocation =>
    match queue.namespaces.lookup allocation with
    | none         => queue
    | some sharers =>
      if sharers - 1 = 0 then
        { queue with
          bytes      := queue.bytes - .ofNat allocation.2
          namespaces := queue.namespaces.erase allocation }
      else
        { queue with namespaces := queue.namespaces.insert allocation (sharers - 1) }

def append (queue : TargetQueue) (queued : Queued) : Nat × TargetQueue :=
  let seq := queue.nextSeq
  (seq, { queue with nextSeq := seq + 1, ops := queue.ops.insert seq queued })

-- The write which a new one to the key replaces.
def waiting (queue : TargetQueue) (key : Key) : Option (Nat × Queued) := do
  let seq ← queue.slots.lookup key
  let queued ← queue.ops.get? seq
  return (seq, queued)

def push (queue : TargetQueue) (write : OwnedForwardedWrite) : TargetQueue :=
  let (bytes, queue) := queue.charge write
  match write.coalescingKey with
  | some key =>
    match queue.waiting key with
    | some (seq, replaced) =>
      let queue := { queue with ops := queue.ops.replace seq ⟨write, bytes⟩ }
      queue.release replaced.write replaced.bytes
    | none =>
      let (seq, queue) := queue.append ⟨write, bytes⟩
      { queue with slots := queue.slots.insert key seq }
  | none =>
    let slots := match write with
      | .clear _            => ∅
      | .handoffSet key _ _ _ => queue.slots.erase key.toKey
      | _                   => queue.slots
    ({ queue with slots := slots }.append ⟨write, bytes⟩).2

def pop (queue : TargetQueue) : Option (OwnedForwardedWrite × TargetQueue) :=
  match queue.ops.popFirst with
  | none => none
  | some ((seq, queued), ops) =>
    let queue := { queue with ops := ops }.release queued.write queued.bytes
    match queued.write.coalescingKey with
    | none     => some (queued.write, queue)
    | some key =>
      if queue.slots.lookup key = some seq then
        some (queued.write, { queue with slots := queue.slots.erase key })
      else
        some (queued.write, queue)

inductive Op where
  | push (write : OwnedForwardedWrite)
  | pop

-- The queue after an operation, and what the operation returns.
def exec (queue : TargetQueue) : Op → Option OwnedForwardedWrite × TargetQueue
  | .push write => (none, queue.push write)
  | .pop        =>
    match queue.pop with
    | none                => (none, queue)
    | some (write, queue) => (some write, queue)

def execAll (queue : TargetQueue) : List Op → List OwnedForwardedWrite × TargetQueue
  | []        => ([], queue)
  | op :: ops =>
    let (popped, queue)  := queue.exec op
    let (popped', queue) := queue.execAll ops
    (popped.toList ++ popped', queue)

end TargetQueue

-- What the target of a queue holds.
abbrev Target := Key → Option (Bytes × Option Duration)

namespace OwnedForwardedWrite

-- What becomes of what the target holds for a key when it receives a write. Tombstones and memory
-- limits of the target are not considered.
def effect (write : OwnedForwardedWrite) (key : Key) (held : Option (Bytes × Option Duration)) :
    Option (Bytes × Option Duration) :=
  match write with
  | set key' value ttl              => if key'.toKey = key then some (value, ttl) else held
  | delete key'                     => if key'.toKey = key then none else held
  | handoffSet key' value ttl true  => if key'.toKey = key then held.or (some (value, ttl)) else held
  | handoffSet key' value ttl false =>
    if key'.toKey = key then
      if ttl = some 0 then none else some (value, ttl)
    else
      held
  | handoffDelete key'              => if key'.toKey = key then none else held
  | clear (.namespace ns)           => if key.ns = ns then none else held
  | clear .all                      => none

end OwnedForwardedWrite
end Nanocached
