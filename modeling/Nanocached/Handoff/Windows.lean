import Nanocached.Handoff.GuardTheorems

namespace Nanocached

-- Where a write is forwarded to. The connection and the flag are shared with the handoff.
structure ForwardTarget where
  addr       : Bytes
  connection : Nat
  token      : Bytes
  revoked    : Nat
  asHandoff  : Bool
deriving DecidableEq, Repr

def LingeringForward.target (lingering : LingeringForward) : ForwardTarget where
  addr       := lingering.joiningAddr
  connection := lingering.forwardConnection
  token      := lingering.joiningToken
  revoked    := lingering.forwardRevoked
  asHandoff  := true

namespace ActiveMigration

variable (active : ActiveMigration)

def target : ForwardTarget where
  addr       := active.joiningAddr
  connection := active.forwardConnection
  token      := active.joiningToken
  revoked    := active.forwardRevoked
  asHandoff  := true

-- The forwarding window of the handoff itself, as it lingers once the next handoff has begun.
def window : Option LingeringForward :=
  active.completedAt.map fun completedAt => {
    joiningName       := active.joiningName
    joiningAddr       := active.joiningAddr
    joiningToken      := active.joiningToken
    completedAt       := completedAt
    forwardingGrace   := active.forwardingGrace
    forwardConnection := active.forwardConnection
    forwardRevoked    := active.forwardRevoked }

def names : List Bytes :=
  active.joiningName :: active.lingering.map (·.joiningName)

end ActiveMigration

def NodeContext.migrationTargetsForHashed (node : NodeContext) (now : Instant) (keyHash : UInt64) :
    List ForwardTarget × NodeContext :=
  let node := (node.clearExpired now).retainLingering now
  match node.activeMigration with
  | none        => ([], node)
  | some active =>
    let isOwner (name : Bytes) := active.afterRing.ring.owns keyHash name active.replication
    let own :=
      if active.forwardingOpen now && isOwner active.joiningName then [active.target] else []
    let lingering := active.lingering.filter fun lingering => isOwner lingering.joiningName
    (own ++ lingering.map (·.target), node)

-- A node which remembers the forwarding windows of all joins that were confirmed. The source does
-- not keep them, nor when the latest event was.
structure Forwarder where
  slot : HandoffSlot
  owed : List LingeringForward
  last : Instant

namespace HandoffSlot

variable (s : HandoffSlot)

-- The window of a join that is yet to be decided.
def undecided : Option LingeringForward :=
  (s.node.activeMigration.filter fun active => !active.confirmed).bind (·.window)

-- The window of the join which an event confirms.
def confirms : Op → Option LingeringForward
  | .migrate migrate => s.undecided.filter fun window =>
      migrate.joined.any (·.1 = window.joiningName) && window.joiningName ≠ migrate.joiningName
  | .adopt members _ => s.undecided.filter fun window => window.joiningName ∈ members
  | _                => none

-- A joiner is owed its window until a roster does not list it, or an `M` for it arrives that is
-- not a retry.
def ends : Op → LingeringForward → Bool
  | .migrate migrate, window =>
    migrate.joiningName = window.joiningName && !s.node.activeMigration.any migrate.retries
  | .adopt members _, window => window.joiningName ∉ members
  | _,                _      => false

end HandoffSlot

-- The slot itself holds the open window of a confirmed join.
def ActiveMigration.Honours (active : ActiveMigration) (now : Instant) : Prop :=
  active.confirmed = true ∧ active.remnant = false ∧ active.forwardingOpen now = true

-- No new handoff is to a joiner whose earlier window still lingers. A join that is confirmed is not
-- given up, and a handoff whose forwards were revoked does not complete.
def HandoffSlot.Orderly (s : HandoffSlot) (now : Instant) : Op → Prop
  | .migrate migrate =>
    ∀ active, s.node.activeMigration = some active → ∀ window ∈ active.lingering,
      window.forwardingOpen now = true → window.joiningName ≠ migrate.joiningName
  | .cancel joiningName =>
    ∀ active, s.node.activeMigration = some active → active.joiningName = joiningName →
      ¬active.Honours now
  | .gone identity =>
    ∀ active, s.node.activeMigration = some active → active.forwardRevoked = identity →
      ¬active.Honours now
  | .completed .. =>
    ∀ active, s.node.activeMigration = some active → s.node.flag active.forwardRevoked = false
  | _ => True

namespace Forwarder

inductive Event where
  | slot (op : HandoffSlot.Op)
  | migrationTargetsForHashed (keyHash : UInt64)

def exec (s : Forwarder) (now : Instant) : Event → Option Forwarder
  | .slot op => do
    let slot ← s.slot.exec now op
    let owed := s.owed.filter fun window => !s.slot.ends op window
    return ⟨slot, owed ++ (s.slot.confirms op).toList, now⟩
  | .migrationTargetsForHashed keyHash =>
    let (_, node) := s.slot.node.migrationTargetsForHashed now keyHash
    some { s with slot := { s.slot with node }, last := now }

def Orderly (s : Forwarder) (now : Instant) : Event → Prop
  | .slot op                     => s.slot.Orderly now op
  | .migrationTargetsForHashed _ => True

-- The runs of which every step is allowed. The clock does not go back.
inductive Reachable (allowed : Forwarder → Instant → Event → Prop) : Forwarder → Prop
  | init {node : NodeContext} {now : Instant} :
    node.activeMigration = none → Reachable allowed ⟨⟨node, []⟩, [], now⟩
  | step {s s' : Forwarder} {now : Instant} {event : Event} :
    Reachable allowed s → s.last ≤ now → allowed s now event → s.exec now event = some s' →
    Reachable allowed s'

end Forwarder
end Nanocached
