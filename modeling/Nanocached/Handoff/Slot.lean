import Nanocached.ForwardQueue.Basic
import Nanocached.HashRing.Basic

namespace Nanocached

-- `sort_unstable` and `dedup`. Duplicates are side by side once the names are sorted.
def sortDedup (names : List Bytes) : List Bytes :=
  (names.insertionSort (· ≤ ·)).dedup

-- An `Arc<HashRing>`. Two of them are pointer-equal if they come from the same allocation.
structure SharedRing where
  ptr  : Nat
  ring : HashRing

structure Membership where
  ring        : SharedRing
  replication : Nat

namespace Membership

def owns (membership : Membership) (keyHash : UInt64) (name : Bytes) : Bool :=
  membership.ring.ring.owns keyHash name membership.replication

def sameMembers (membership : Membership) (members : List Bytes) (replication : Nat) : Bool :=
  if membership.replication ≠ replication then
    false
  else
    membership.ring.ring.nodes.insertionSort (· ≤ ·) == sortDedup members

end Membership

-- The memberships that discovery has published, oldest first.
structure RingHistory where
  epochs     : List (Instant × Membership)
  generation : Nat

def RingHistory.touch (history : RingHistory) : RingHistory :=
  { history with generation := history.generation + 1 }

def forwardingGraceBase : Duration := fromSecs 60

def forwardingGracePerEntry : Duration := 5 * 1000000

def forwardingGrace (entriesSent : Nat) : Duration :=
  forwardingGraceBase + forwardingGracePerEntry * min entriesSent (2 ^ 32 - 1)

section PendingClears

def maxPendingClearNamespaces : Nat := 1024

def maxPendingClearBytes : Nat := 16 * (1024 * 1024)

-- The clears that wait to be replayed on the joining node.
structure PendingClears where
  all        : Bool
  namespaces : List Bytes
  bytes      : Nat
deriving DecidableEq, Repr

namespace PendingClears

def empty : PendingClears where
  all        := false
  namespaces := []
  bytes      := 0

def collapseToAll : PendingClears :=
  { empty with all := true }

def push (clears : PendingClears) (scope : ClearScope) : PendingClears :=
  if clears.all then
    clears
  else
    match scope with
    | .all          => collapseToAll
    | .namespace ns =>
      let clears :=
        if ns ∈ clears.namespaces then
          clears
        else
          { clears with namespaces := ns :: clears.namespaces, bytes := clears.bytes + ns.length }
      if clears.namespaces.length > maxPendingClearNamespaces ∨
          clears.bytes > maxPendingClearBytes then
        collapseToAll
      else
        clears

def take (clears : PendingClears) : List ClearScope :=
  if clears.all then [.all] else clears.namespaces.map .namespace

end PendingClears
end PendingClears

-- What remains of the handoff to a joiner that was confirmed before the next handoff began.
structure LingeringForward where
  joiningName       : Bytes
  joiningAddr       : Bytes
  joiningToken      : Bytes
  completedAt       : Instant
  forwardingGrace   : Duration
  forwardConnection : Nat
  forwardRevoked    : Nat

def LingeringForward.forwardingOpen (lingering : LingeringForward) (now : Instant) : Bool :=
  durationSince now lingering.completedAt < lingering.forwardingGrace

-- The handoff of keys to a joining node. The flags `abort_requested` and `forward_revoked` are
-- shared with others, and given by their position among the flags of the node.
structure ActiveMigration where
  joiningName       : Bytes
  joiningAddr       : Bytes
  joiningToken      : Bytes
  afterRing         : SharedRing
  replication       : Nat
  generation        : Option Nat
  completedAt       : Option Instant
  forwardingGrace   : Duration
  ackedEntries      : Option Nat
  abortRequested    : Nat
  markedKeys        : List Key
  confirmed         : Bool
  preCompletionRing : Option Membership
  pendingClears     : PendingClears
  forwardConnection : Nat
  forwardRevoked    : Nat
  lingering         : List LingeringForward
  remnant           : Bool

namespace ActiveMigration

def forwardingOpen (active : ActiveMigration) (now : Instant) : Bool :=
  active.completedAt.all fun completedAt => durationSince now completedAt < active.forwardingGrace

def expired (active : ActiveMigration) (now : Instant) : Bool :=
  active.confirmed && !active.forwardingOpen now &&
    active.lingering.all fun lingering => !lingering.forwardingOpen now

-- What is left of a handoff that was taken out: the forwarding windows of earlier joiners.
def asRemnant (taken : ActiveMigration) (now : Instant) (afterRing : SharedRing)
    (lingering : List LingeringForward) : ActiveMigration :=
  { taken with
    afterRing         := afterRing
    completedAt       := some now
    forwardingGrace   := 0
    markedKeys        := []
    confirmed         := true
    preCompletionRing := none
    pendingClears     := .empty
    lingering         := lingering
    remnant           := true }

end ActiveMigration

-- The part of a node's state that is about who owns which key.
structure NodeContext where
  name            : Bytes
  promoted        : Bool
  leaving         : Bool
  activeMigration : Option ActiveMigration
  knownRing       : Option Membership
  latestPublished : Option Membership
  ringHistory     : RingHistory
  -- The `Arc<AtomicBool>`s in the order of their allocation, and how much else was allocated.
  flags           : List Bool
  allocated       : Nat

namespace NodeContext

variable (node : NodeContext)

def flag (ptr : Nat) : Bool :=
  node.flags.getD ptr false

def raise (ptr : Nat) : NodeContext :=
  { node with flags := node.flags.set ptr true }

def raiseAll (ptrs : List Nat) : NodeContext :=
  ptrs.foldl raise node

def allocRing (ring : HashRing) : SharedRing × NodeContext :=
  (⟨node.allocated, ring⟩, { node with allocated := node.allocated + 1 })

-- What everyone does who looks at the slot.
def clearExpired (now : Instant) : NodeContext :=
  if node.activeMigration.any (·.expired now) then { node with activeMigration := none } else node

-- Keeps those which are still owed their forwarding window, and revokes the others.
def keepLingering (now : Instant) (lingering : List LingeringForward) :
    List LingeringForward × NodeContext :=
  (lingering.filter (·.forwardingOpen now),
    node.raiseAll ((lingering.filter fun l => !l.forwardingOpen now).map (·.forwardRevoked)))

def takeSlotKeepingLingering (now : Instant) : Option ActiveMigration × NodeContext :=
  match node.activeMigration with
  | none       => (none, node)
  | some taken =>
    let node := { node with activeMigration := none }
    let (lingering, node) := node.keepLingering now taken.lingering
    let taken := { taken with lingering := [] }
    if lingering.isEmpty then
      (some taken, node)
    else
      let nodes := taken.afterRing.ring.nodes.filter (· ≠ taken.joiningName)
      let (afterRing, node) := node.allocRing (.new nodes)
      (some taken, { node with
        activeMigration := some (taken.asRemnant now afterRing lingering) })

-- A handoff ends before its forwarding window does, so what is queued for its joiner is dropped.
def endHandoff (now : Instant) : NodeContext :=
  match node.takeSlotKeepingLingering now with
  | (none, node)       => node
  | (some taken, node) => node.raise taken.forwardRevoked

-- The ring of a handoff is only taken back if no later membership has replaced it.
def revertKnownRing (afterRing : SharedRing) (preCompletionRing : Option Membership) : NodeContext :=
  if node.knownRing.any fun current => current.ring.ptr = afterRing.ptr then
    { node with knownRing := preCompletionRing, ringHistory := node.ringHistory.touch }
  else
    node

def revertKnownRingAfterAbandon (taken : ActiveMigration) : NodeContext :=
  node.revertKnownRing taken.afterRing taken.preCompletionRing

end NodeContext

inductive TakenSlot where
  | noMatch
  | aborting
  | completed (taken : ActiveMigration)

inductive AbandonOutcome where
  | noMatch
  | completed (restore : List Key)
  | aborting
deriving DecidableEq, Repr

namespace NodeContext

variable (node : NodeContext)

def takeAbandonedSlot (now : Instant) (isMatch : ActiveMigration → Bool) : TakenSlot × NodeContext :=
  match node.activeMigration with
  | none        => (.noMatch, node)
  | some active =>
    if isMatch active then
      let node := (node.raise active.abortRequested).raise active.forwardRevoked
      if active.completedAt.isNone then
        (.aborting, node)
      else
        let (taken, node) := node.takeSlotKeepingLingering now
        (.completed (taken.getD active), node)
    else
      (.noMatch, node)

-- What an `X` does.
def abandonMigration (now : Instant) (joiningName : Bytes) : AbandonOutcome × NodeContext :=
  match node.takeAbandonedSlot now fun active => active.joiningName = joiningName with
  | (.noMatch, node)         => (.noMatch, node)
  | (.aborting, node)        => (.aborting, node)
  | (.completed taken, node) =>
    (.completed taken.markedKeys, node.revertKnownRingAfterAbandon taken)

-- What a verdict `G` does about the slot which the heartbeat had asked for.
def abandonDepartedSlot (now : Instant) (identity : Nat) :
    Option (List Key × SharedRing) × NodeContext :=
  let isMatch (active : ActiveMigration) :=
    active.forwardRevoked = identity && active.completedAt.isSome && !active.remnant
  match node.takeAbandonedSlot now isMatch with
  | (.completed taken, node) =>
    (some (taken.markedKeys, taken.afterRing), node.revertKnownRingAfterAbandon taken)
  | (_, node) => (none, node)

end NodeContext
end Nanocached
