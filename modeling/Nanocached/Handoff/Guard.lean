import Nanocached.Handoff.Slot

namespace Nanocached

-- A frame `M`: the node is to hand off its share of the keys to a joining node.
structure Migrate where
  joiningName  : Bytes
  joiningAddr  : Bytes
  joiningToken : Bytes
  joined       : List (Bytes × Bytes)
  replication  : Nat
  generation   : Option Nat
deriving DecidableEq, Repr

-- The rings before and after a join.
def migrationRings (self : Bytes) (joiningName : Bytes) (joined : List (Bytes × Bytes)) :
    HashRing × HashRing :=
  let members := joined.map (·.1)
  let members := if self ∈ members then members else members ++ [self]
  let beforeMembers := sortDedup members
  let afterMembers := sortDedup (beforeMembers ++ [joiningName])
  (.new beforeMembers, .new afterMembers)

-- Whoever holds a guard runs the handoff that occupies the slot.
structure MigrationGuard where
  abortRequested : Nat
deriving DecidableEq, Repr

inductive MigrationOutcome where
  | new (guard : MigrationGuard) (restore : List Key)
  | duplicateAcked (entries : Nat)
  | conflict
deriving DecidableEq, Repr

namespace MigrationGuard

variable (guard : MigrationGuard) (node : NodeContext)

-- The new handoff takes the slot. Whether there still is an old one does not matter any more.
def occupy (migrate : Migrate) (afterRing : SharedRing) (lingering : List LingeringForward) :
    MigrationGuard × NodeContext :=
  let abortRequested := node.flags.length
  let forwardRevoked := node.flags.length + 1
  (⟨abortRequested⟩, { node with
    flags           := node.flags ++ [false, false]
    allocated       := node.allocated + 1
    activeMigration := some {
      joiningName       := migrate.joiningName
      joiningAddr       := migrate.joiningAddr
      joiningToken      := migrate.joiningToken
      afterRing         := afterRing
      replication       := migrate.replication
      generation        := migrate.generation
      completedAt       := none
      forwardingGrace   := 0
      ackedEntries      := none
      abortRequested    := abortRequested
      markedKeys        := []
      confirmed         := false
      preCompletionRing := none
      pendingClears     := .empty
      forwardConnection := node.allocated
      forwardRevoked    := forwardRevoked
      lingering         := lingering
      remnant           := false } })

-- A generation that is not known is taken to be the same.
def sameGeneration : Option Nat → Option Nat → Bool
  | some a, some b => a == b
  | _, _           => true

-- The forwarding windows the new handoff takes over, which include that of the previous joiner if
-- its join is confirmed. All others are revoked.
def takeOverLingering (now : Instant) (migrate : Migrate) (existing : ActiveMigration)
    (previousConfirmed : Bool) : List LingeringForward × NodeContext :=
  let (lingering, node) := node.keepLingering now existing.lingering
  match existing.completedAt with
  | some completedAt =>
    if previousConfirmed && existing.joiningName ≠ migrate.joiningName &&
        existing.forwardingOpen now then
      (lingering ++ [{
        joiningName       := existing.joiningName
        joiningAddr       := existing.joiningAddr
        joiningToken      := existing.joiningToken
        completedAt       := completedAt
        forwardingGrace   := existing.forwardingGrace
        forwardConnection := existing.forwardConnection
        forwardRevoked    := existing.forwardRevoked }], node)
    else
      (lingering, node.raise existing.forwardRevoked)
  | none => (lingering, node.raise existing.forwardRevoked)

def new (now : Instant) (migrate : Migrate) (afterRing : SharedRing) :
    MigrationOutcome × NodeContext :=
  let node := node.clearExpired now
  match node.activeMigration with
  | none =>
    let (guard, node) := occupy node migrate afterRing []
    (.new guard [], node)
  | some existing =>
    let sameName := existing.joiningName = migrate.joiningName
    if sameName ∧ sameGeneration existing.generation migrate.generation ∧ !existing.remnant then
      -- A retry.
      match existing.ackedEntries with
      | some entries => (.duplicateAcked entries, node)
      | none         => (.conflict, node)
    else if existing.completedAt.isNone then
      if sameName then
        (.conflict, (node.raise existing.abortRequested).raise existing.forwardRevoked)
      else
        (.conflict, node)
    else
      let previousConfirmed :=
        existing.confirmed || migrate.joined.any (·.1 = existing.joiningName)
      let restore := if previousConfirmed then [] else existing.markedKeys
      let (lingering, node) := takeOverLingering node now migrate existing previousConfirmed
      let (guard, node) := occupy node migrate afterRing lingering
      if previousConfirmed then
        (.new guard restore, node)
      else
        (.new guard restore, node.revertKnownRingAfterAbandon existing)

-- Note that neither this nor `completed` looks at whose slot it is.
def ack (entries : Nat) : NodeContext :=
  { node with activeMigration := node.activeMigration.map fun active =>
      { active with ackedEntries := some entries } }

def takeJoinMarks : List Key × NodeContext :=
  match node.activeMigration with
  | none        => ([], node)
  | some active =>
    if active.abortRequested = guard.abortRequested then
      (active.markedKeys, { node with activeMigration := some { active with markedKeys := [] } })
    else
      ([], node)

def completed (now : Instant) (entriesSent : Nat) (markedKeys : List Key)
    (preCompletionRing : Option Membership) : NodeContext :=
  { node with activeMigration := node.activeMigration.map fun active =>
      { active with
        completedAt       := some now
        forwardingGrace   := forwardingGrace entriesSent
        markedKeys        := active.markedKeys ++ markedKeys
        preCompletionRing := preCompletionRing } }

-- The drop of a guard that is not completed.
def drop (now : Instant) : NodeContext :=
  node.endHandoff now

end MigrationGuard

structure RingChange where
  before : Option Membership
  after  : Membership

-- A join whose joiner is listed in a roster is complete.
def ActiveMigration.confirm (active : ActiveMigration) (joinerListed : Bool) : ActiveMigration :=
  { active with confirmed := active.confirmed || (joinerListed && active.completedAt.isSome) }

namespace NodeContext

variable (node : NodeContext)

-- What a roster says about the slot: whether its join is still pending, and whether its joiner was
-- evicted while it was still owed a forwarding window.
def judgeSlot (now : Instant) (members : List Bytes) : (Bool × Bool) × NodeContext :=
  match node.activeMigration with
  | none        => ((false, false), node)
  | some active =>
    let joinerListed := decide (active.joiningName ∈ members)
    let active := active.confirm joinerListed
    let joinerGone := active.confirmed && !joinerListed
    let node := { node with activeMigration := some active }
    ((active.forwardingOpen now && !joinerListed && !active.confirmed,
        joinerGone && active.forwardingOpen now),
      if joinerGone then node.raise active.forwardRevoked else node)

-- The forwarding windows of joiners that are not members any more are closed.
def evictLingering (members : List Bytes) : NodeContext :=
  match node.activeMigration with
  | none        => node
  | some active =>
    let kept := active.lingering.filter fun lingering => lingering.joiningName ∈ members
    let gone := active.lingering.filter fun lingering => lingering.joiningName ∉ members
    let node := { node with activeMigration := some { active with lingering := kept } }
    node.raiseAll (gone.map LingeringForward.forwardRevoked)

def adoptMembership (now : Instant) (members : List Bytes) (replication : Nat) :
    Option RingChange × NodeContext :=
  let ((joinStillPending, joinerEvicted), node) := node.judgeSlot now members
  let node := node.evictLingering members
  let node := if joinerEvicted then node.endHandoff now else node
  if joinStillPending then
    (none, node)
  else if node.knownRing.any (·.sameMembers members replication) then
    (none, node)
  else
    let before := node.knownRing
    let (ring, node) := node.allocRing (.new (sortDedup members))
    let after : Membership := ⟨ring, replication⟩
    (some ⟨before, after⟩, { node with knownRing := some after })

-- Whether the join that occupies the slot has taken the key away from this node. A key it has taken
-- is recorded with those which the handoff has marked.
def joinTook (now : Instant) (key : Key) (keyHash : UInt64) : Bool × NodeContext :=
  let node := node.clearExpired now
  match node.activeMigration with
  | none        => (false, node)
  | some active =>
    if active.remnant || active.confirmed then
      (false, node)
    else
      let ring := active.afterRing.ring
      if ring.owns keyHash node.name active.replication then
        (false, node)
      else if ring.owns keyHash active.joiningName active.replication ||
          active.lingering.any fun l => ring.owns keyHash l.joiningName active.replication then
        (true, { node with activeMigration := some { active with
          markedKeys := active.markedKeys ++ [key] } })
      else
        (false, node)

-- What `migration_targets_for_hashed` and `lingering_clear_targets` do to the slot.
def retainLingering (now : Instant) : NodeContext :=
  { node with activeMigration := node.activeMigration.map fun active =>
      { active with lingering := active.lingering.filter (·.forwardingOpen now) } }

-- A clear waits for its replay while the transfer is running. What becomes of it otherwise is not
-- a matter of the slot.
def routeClear (now : Instant) (scope : ClearScope) : NodeContext :=
  let node := node.clearExpired now
  { node with activeMigration := node.activeMigration.map fun active =>
      if active.completedAt.isNone then
        { active with pendingClears := active.pendingClears.push scope }
      else
        active }

-- How `drain_pending_clears` begins.
def takePendingClears : List ClearScope × NodeContext :=
  match node.activeMigration with
  | none        => ([], node)
  | some active =>
    (active.pendingClears.take,
      { node with activeMigration := some { active with pendingClears := .empty } })

-- A decommission, or a shutdown, asks the handoff to stop.
def requestAbort : NodeContext :=
  match node.activeMigration with
  | none        => node
  | some active => node.raise active.abortRequested

end NodeContext

-- The slot of a node, and the guards that are neither completed nor dropped.
structure HandoffSlot where
  node   : NodeContext
  guards : List MigrationGuard

namespace HandoffSlot

inductive Op where
  | migrate (migrate : Migrate)
  | ack (guard : MigrationGuard) (entries : Nat)
  | takeJoinMarks (guard : MigrationGuard)
  | completed (guard : MigrationGuard) (entriesSent : Nat) (markedKeys : List Key)
      (preCompletionRing : Option Membership)
  | drop (guard : MigrationGuard)
  -- An `X`, and a verdict `G` on the handoff which a heartbeat has asked for.
  | cancel (joiningName : Bytes)
  | gone (identity : Nat)
  | adopt (members : List Bytes) (replication : Nat)
  | joinTook (key : Key) (keyHash : UInt64)
  | clearExpired
  | retainLingering
  | routeClear (scope : ClearScope)
  | takePendingClears
  | requestAbort

def exec (s : HandoffSlot) (now : Instant) : Op → Option HandoffSlot
  | .migrate migrate =>
    let (_, ring) := migrationRings s.node.name migrate.joiningName migrate.joined
    let (afterRing, node) := s.node.allocRing ring
    match MigrationGuard.new node now migrate afterRing with
    | (.new guard _, node) => some ⟨node, guard :: s.guards⟩
    | (_, node)            => some { s with node }
  | .ack guard entries =>
    if guard ∈ s.guards then some { s with node := MigrationGuard.ack s.node entries } else none
  | .takeJoinMarks guard =>
    if guard ∈ s.guards then some { s with node := (guard.takeJoinMarks s.node).2 } else none
  | .completed guard entriesSent markedKeys preCompletionRing =>
    if guard ∈ s.guards then
      let node := MigrationGuard.completed s.node now entriesSent markedKeys preCompletionRing
      some ⟨node, s.guards.erase guard⟩
    else
      none
  | .drop guard =>
    if guard ∈ s.guards then
      some ⟨MigrationGuard.drop s.node now, s.guards.erase guard⟩
    else
      none
  | .cancel joiningName         => some { s with node := (s.node.abandonMigration now joiningName).2 }
  | .gone identity              => some { s with node := (s.node.abandonDepartedSlot now identity).2 }
  | .adopt members replication  =>
    some { s with node := (s.node.adoptMembership now members replication).2 }
  | .joinTook key keyHash       => some { s with node := (s.node.joinTook now key keyHash).2 }
  | .clearExpired               => some { s with node := s.node.clearExpired now }
  | .retainLingering            => some { s with node := s.node.retainLingering now }
  | .routeClear scope           => some { s with node := s.node.routeClear now scope }
  | .takePendingClears          => some { s with node := s.node.takePendingClears.2 }
  | .requestAbort               => some { s with node := s.node.requestAbort }

-- Any clock readings, which do not even have to be in order.
inductive Reachable : HandoffSlot → Prop
  | init {node : NodeContext} : node.activeMigration = none → Reachable ⟨node, []⟩
  | step {s s' : HandoffSlot} {now : Instant} {op : Op} :
    Reachable s → s.exec now op = some s' → Reachable s'

end HandoffSlot
end Nanocached
