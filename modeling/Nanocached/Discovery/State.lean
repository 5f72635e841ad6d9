import Nanocached.Discovery.Departed
import Nanocached.Discovery.Limiter
import Nanocached.Discovery.Wire

-- Discovery runs on a single thread: what a task does between two awaits cannot be interrupted.
-- Counters of events are not taken to wrap around.

namespace Nanocached
namespace Discovery

inductive NodeState
  | waiting
  | joining
  | joined
deriving DecidableEq, Repr

structure NodeInfo where
  address             : Bytes
  state               : NodeState
  lastHeartbeat       : Instant
  reportedReplication : Option Nat
  token               : Bytes
  waitingSince        : Instant
  queuePosition       : Nat
  ownerConnectionId   : Nat
  joinedAt            : Instant
deriving DecidableEq, Repr

def NodeInfo.withQueuePosition (address : Bytes) (state : NodeState) (token : Bytes)
    (queuePosition : Nat) (now : Instant) : NodeInfo where
  address             := address
  state               := state
  lastHeartbeat       := now
  reportedReplication := none
  token               := token
  waitingSince        := now
  queuePosition       := queuePosition
  ownerConnectionId   := 0
  joinedAt            := now

def NodeInfo.new (address : Bytes) (state : NodeState) (token : Bytes) (now : Instant) : NodeInfo :=
  .withQueuePosition address state token 1 now

structure ProxyInfo where
  address  : Bytes
  token    : Bytes
  lastSeen : Instant
deriving DecidableEq, Repr

-- A `C`.
structure Report where
  name       : Bytes
  joining    : Bytes
  token      : Bytes
  generation : Option Nat
deriving DecidableEq, Repr

structure JoinIdentity where
  joiningName : Bytes
  generation  : Nat
deriving DecidableEq, Repr

structure PendingJoin where
  joiningName : Bytes
  -- The nodes that have to report, and the tokens they have to do it with.
  expected    : Map Bytes Bytes
  completed   : Finset Bytes
  startedAt   : Instant
  maxEntries  : Nat
  generation  : Nat
  roster      : List (Bytes × Bytes)
  -- The nodes that were admitted later on. Each of them is sent the `M` by a task of its own.
  late        : List (Bytes × Bytes)
  -- What has happened: the registry when the join was started, and the reports that were credited
  -- while it was pending.
  registry    : Map Bytes NodeInfo
  reports     : List Report

def PendingJoin.identity (join : PendingJoin) : JoinIdentity where
  joiningName := join.joiningName
  generation  := join.generation

structure CachedResponse where
  generation  : Nat
  replication : Nat
  response    : Bytes

structure ProxyListCache where
  generation : Nat
  response   : Bytes

-- Where the task of a connection is.
inductive Phase
  | reading
  -- The heartbeat was acknowledged, the question about a joiner is still to be answered.
  | verdict (joiner : Bytes)
  -- The `M`s of a join are being sent on behalf of a `J`.
  | staging (name : Bytes)
  | parked (name : Bytes)
  -- A join was completed, and the next one is begun once the report is acknowledged.
  | acking
  -- The `X`s of an abandoned join are being sent, for a `V` or because the connection has ended.
  | cancelling (leaving : Bool)
  | ending
deriving DecidableEq, Repr

structure Connection where
  -- The text of its source address.
  peerIp        : Bytes
  authenticated : Bool
  -- `connection_name`.
  identity      : Option Bytes
  phase         : Phase
deriving DecidableEq, Repr

-- What the sweep has spawned.
inductive Fanout
  | abandon (join : JoinIdentity)
  | cancelling
  | beginNext
  | sending
deriving DecidableEq, Repr

structure Config where
  replication      : Nat
  -- The end of the startup grace.
  listReadyAt      : Instant
  livenessTimeout  : Duration
  authSecret       : Option Bytes
  -- The source that an address counts under, and the one of the address of a node.
  perIpKey         : Bytes → Bytes
  waitingSourceKey : Bytes → Bytes

structure Orders where
  nodes   : IterOrder (Sigma fun _ : Bytes => NodeInfo)
  proxies : IterOrder (Sigma fun _ : Bytes => ProxyInfo)
  buckets : IterOrder (Sigma fun _ : Bytes => AnnounceBucket)

def Orders.asListed : Orders where
  nodes   := .asListed
  proxies := .asListed
  buckets := .asListed

-- The part of the state that joins are about.
structure Core where
  nodes              : Map Bytes NodeInfo
  generation         : Nat
  currentJoin        : Option PendingJoin
  nextJoinGeneration : Nat
  -- The joins that have ended so far, one way or the other.
  promoted           : List PendingJoin
  abandoned          : List PendingJoin

end Discovery

open Discovery in
structure Discovery extends Core where
  proxies            : Map Bytes ProxyInfo
  proxyGeneration    : Nat
  heartbeatAck       : Option CachedResponse
  listCache          : Option CachedResponse
  rosterCache        : Option CachedResponse
  proxyListCache     : Option ProxyListCache
  departed           : Departed
  limiter            : AnnounceLimiter
  connections        : Map Nat Connection
  nextConnectionId   : Nat
  -- What `sweep_expired` keeps.
  lastTick           : Instant
  graceJoinsKicked   : Bool
  evictedMembers     : Finset Bytes
  fanout             : Option Fanout

namespace Discovery

-- The generations of joins are seeded from the wall clock.
def initial (now : Instant) (seed : Nat) : Discovery where
  nodes              := ∅
  proxies            := ∅
  generation         := 0
  proxyGeneration    := 0
  heartbeatAck       := none
  listCache          := none
  rosterCache        := none
  proxyListCache     := none
  departed           := .empty
  limiter            := ∅
  currentJoin        := none
  nextJoinGeneration := seed
  connections        := ∅
  nextConnectionId   := 1
  lastTick           := now
  graceJoinsKicked   := false
  evictedMembers     := ∅
  fanout             := none
  promoted           := []
  abandoned          := []

section Rosters

-- The nodes in the order in which the map is iterated over.
def listed (nodes : Map Bytes NodeInfo) (o : Orders) : List (Bytes × NodeInfo) :=
  (o.nodes.apply nodes.entries).map fun entry => (entry.1, entry.2)

def joinedOf (nodes : Map Bytes NodeInfo) (o : Orders) : List (Bytes × NodeInfo) :=
  (listed nodes o).filter (·.2.state = .joined)

structure RosterSnapshot where
  agreeing   : Nat
  dissenting : List Bytes
  nodes      : List (Bytes × Bytes)

-- A strict majority of those who have a vote is against.
def RosterSnapshot.refuse (snapshot : RosterSnapshot) : Bool :=
  snapshot.agreeing < snapshot.dissenting.length

-- The nodes that report another replication factor.
def dissents (replication : Nat) (info : NodeInfo) : Bool :=
  info.reportedReplication.any (· ≠ replication)

def rosterSnapshotLocked (nodes : Map Bytes NodeInfo) (replication : Nat) (o : Orders) :
    RosterSnapshot where
  agreeing   := (joinedOf nodes o).countP (·.2.reportedReplication = some replication)
  dissenting := ((joinedOf nodes o).filter (dissents replication ·.2)).map (·.1)
  nodes      := (joinedOf nodes o).map fun (name, info) => (name, info.address)

-- What the four responses are when they are rendered now.
def renderHeartbeatAck (nodes : Map Bytes NodeInfo) (replication : Nat) (o : Orders) : Bytes :=
  let snapshot := rosterSnapshotLocked nodes replication o
  if snapshot.refuse then [65, 10] else buildRosterResponse 65 /- A -/ snapshot.nodes replication

def renderListResponse (nodes : Map Bytes NodeInfo) (replication : Nat) (o : Orders) : Bytes :=
  let snapshot := rosterSnapshotLocked nodes replication o
  if snapshot.refuse then [66, 10] else buildRosterResponse 78 /- N -/ snapshot.nodes replication

def renderNodeRoster (nodes : Map Bytes NodeInfo) (replication : Nat) (o : Orders) : Bytes :=
  buildNodeRosterResponse
    ((listed nodes o).map fun (name, info) => (name, info.address, info.token)) replication

def renderProxies (proxies : Map Bytes ProxyInfo) (o : Orders) : Bytes :=
  renderProxyList ((o.proxies.apply proxies.entries).map fun entry => (entry.1, entry.2.address))

end Rosters

section Caches

-- The response, and the cache afterwards.
def cachedByGeneration (cache : Option CachedResponse) (generation replication : Nat)
    (rendered : Bytes) : Bytes × Option CachedResponse :=
  match cache with
  | some current =>
    if current.generation = generation ∧ current.replication = replication then
      (current.response, cache)
    else if current.replication ≠ replication ∨ current.generation ≤ generation then
      (rendered, some ⟨generation, replication, rendered⟩)
    else
      (rendered, cache)
  | none => (rendered, some ⟨generation, replication, rendered⟩)

variable (s : Discovery) (replication : Nat) (o : Orders)

def cachedHeartbeatAck : Bytes × Discovery :=
  let (response, cache) := cachedByGeneration s.heartbeatAck s.generation replication
    (renderHeartbeatAck s.nodes replication o)
  (response, { s with heartbeatAck := cache })

def cachedListResponse : Bytes × Discovery :=
  let (response, cache) := cachedByGeneration s.listCache s.generation replication
    (renderListResponse s.nodes replication o)
  (response, { s with listCache := cache })

def cachedNodeRoster : Bytes × Discovery :=
  let (response, cache) := cachedByGeneration s.rosterCache s.generation replication
    (renderNodeRoster s.nodes replication o)
  (response, { s with rosterCache := cache })

def cachedProxyList : Bytes × Discovery :=
  let rendered := renderProxies s.proxies o
  let rebuilt  := some { generation := s.proxyGeneration, response := rendered }
  match s.proxyListCache with
  | some current =>
    if current.generation = s.proxyGeneration then
      (current.response, s)
    else if current.generation ≤ s.proxyGeneration then
      (rendered, { s with proxyListCache := rebuilt })
    else
      (rendered, s)
  | none => (rendered, { s with proxyListCache := rebuilt })

end Caches

end Discovery
end Nanocached
