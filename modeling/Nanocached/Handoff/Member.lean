import Nanocached.Handoff.Node
import Nanocached.Handoff.Primary
import Nanocached.Handoff.RingHistory

-- A node as discovery sees it: it is promoted, learns the rosters, and may have to join again.

namespace Nanocached
namespace NodeContext

variable (node : NodeContext)

-- The newest roster is kept whether or not it is adopted.
def notePublishedRoster (roster : List Bytes) (replication : Nat) : NodeContext :=
  if node.latestPublished.any (·.sameMembers roster replication) then
    node
  else
    let (ring, node) := node.allocRing (.new roster)
    { node with latestPublished := some ⟨ring, replication⟩ }

-- What the history is to know about a roster. Nothing, if the roster was withheld.
def publishedMembership (change : Option RingChange) (roster : List Bytes) (replication : Nat) :
    Option Membership :=
  match change with
  | some change => some change.after
  | none        => node.knownRing.filter (·.sameMembers roster replication)

-- What becomes of the roster in the answer to a heartbeat.
def heartbeat (now : Instant) (roster : List Bytes) (replication : Nat) : NodeContext :=
  if node.leaving then
    node
  else
    let node := node.notePublishedRoster roster replication
    let (change, node) := node.adoptMembership now roster replication
    match node.publishedMembership change roster replication with
    | none            => node
    | some membership =>
      { node with ringHistory := node.ringHistory.recordIfNewAt membership now }

end NodeContext

-- Discovery has evicted the node. A draining node keeps what it has.
def Node.discardStateToRejoin (s : Node) : Node :=
  if s.context.leaving then
    s
  else
    { s with context := { s.context with
        promoted        := false
        knownRing       := none
        latestPublished := none } }.push (.call .clearAll) none

-- The `M` that an event starts a handoff for.
def Node.accepted (s : Node) (now : Instant) : Node.Event → Option Migrate
  | .migrate migrate =>
    if s.context.leaving then
      none
    else
      let (_, ring) := migrationRings s.context.name migrate.joiningName migrate.joined
      let (afterRing, context) := s.context.allocRing ring
      match (MigrationGuard.new context now migrate afterRing).1 with
      | .new _ _ => some migrate
      | _        => none
  | _ => none

structure Member where
  node  : Node
  -- The `M` that the latest handoff was started for. Not kept by the source.
  offer : Option Migrate

namespace Member

inductive Event
  | node (event : Node.Event)
  -- Discovery answers the `J`, or refuses the `P` of a node it has evicted.
  | promote
  | discardStateToRejoin
  | heartbeat (roster : List Bytes) (replication : Nat)
  -- A request for a key of others makes the node ask for the roster.
  | refreshPublishedRoster (roster : List Bytes) (replication : Nat)

def exec (sha256 : Bytes → Vector UInt8 32) (s : Member) (now : Instant) : Event → Option Member
  | .node event => do
    let node ← s.node.exec now sha256 event
    return ⟨node, (s.node.accepted now event).or s.offer⟩
  | .promote =>
    some { s with node := { s.node with context := { s.node.context with promoted := true } } }
  | .discardStateToRejoin => some { s with node := s.node.discardStateToRejoin }
  | .heartbeat roster replication =>
    let context := s.node.context.heartbeat now roster replication
    some { s with node := { s.node with context } }
  | .refreshPublishedRoster roster replication =>
    let context := s.node.context.notePublishedRoster roster replication
    some { s with node := { s.node with context } }

inductive Reachable (sha256 : Bytes → Vector UInt8 32) : Member → Prop
  | init {node : Node} : node.context.activeMigration = none → Reachable sha256 ⟨node, none⟩
  | step {s s' : Member} {now : Instant} {event : Event} :
    Reachable sha256 s → s.exec sha256 now event = some s' → Reachable sha256 s'

end Member
end Nanocached
