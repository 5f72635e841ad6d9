import Nanocached.Discovery.State

namespace Nanocached.Discovery

def nodeMaxRequestSize : Nat := 1024 * 1024

def maxRegistrySize : Nat := 2 ^ 16

def maxLateMembersPerJoin : Nat := 64

def maxWaitingPerSourceIp : Nat := 4

def maxWaitingTotal : Nat := 32

def migrationTimeoutMax : Duration := fromSecs (2 * 60 * 60)

def migrationTimeoutFor (maxEntries : Nat) : Duration :=
  min (fromSecs 60 + 5000000 * min maxEntries (2 ^ 32 - 1)) migrationTimeoutMax

def waitingTimeoutFor (queuePosition : Nat) : Duration :=
  migrationTimeoutMax * min queuePosition 8 + fromSecs 60

section Begin

-- In the order in which the nodes have come.
def before (a b : Bytes × NodeInfo) : Bool :=
  (compare a.2.waitingSince b.2.waitingSince).then (compare a.1 b.1) == .lt

def nextWaiting (nodes : Map Bytes NodeInfo) : Option (Bytes × NodeInfo) :=
  nodes.entries.foldl (fun next entry =>
    if entry.2.state ≠ .waiting then next
    else match next with
      | none      => some (entry.1, entry.2)
      | some next => if before (entry.1, entry.2) next then some (entry.1, entry.2) else some next)
    none

variable (s : Discovery)

def promoteToJoined (name : Bytes) (now : Instant) : Discovery :=
  match s.nodes.lookup name with
  | some info => { s with
      nodes      := s.nodes.insert name
        { info with state := .joined, lastHeartbeat := now, joinedAt := now }
      generation := s.generation + 1 }
  | none => s

def startJoining (name : Bytes) (info : NodeInfo) : Discovery :=
  { s with nodes := s.nodes.insert name { info with state := .joining } }

-- The members as they are now have to report.
def pend (name : Bytes) (joined : List (Bytes × NodeInfo)) (now : Instant) : Discovery :=
  { s with
    nextJoinGeneration := s.nextJoinGeneration + 1
    currentJoin        := some {
      joiningName := name
      expected    := (joined.map fun (name, info) => ⟨name, info.token⟩).toAList
      completed   := ∅
      startedAt   := now
      maxEntries  := 0
      generation  := s.nextJoinGeneration
      roster      := joined.map fun (name, info) => (name, info.address)
      late        := []
      registry    := s.nodes
      reports     := [] } }

-- A node is promoted at once when there is nobody to hand anything off to it, and then it is the
-- turn of the next one.
def beginNextJoin (o : Orders) (now : Instant) : (rounds : Nat) → Discovery → Discovery
  | 0, s          => s
  | rounds + 1, s =>
    if s.currentJoin.isSome then
      s
    else match nextWaiting s.nodes with
    | none              => s
    | some (name, info) =>
      let joined := joinedOf s.nodes o
      let s      := s.startJoining name info
      if joined.isEmpty then
        beginNextJoin o now rounds (s.promoteToJoined name now)
      else
        s.pend name joined now

-- Not during the startup grace.
def tryBeginNextJoin (config : Config) (o : Orders) (now : Instant) : Discovery :=
  if now < config.listReadyAt then s else beginNextJoin o now (s.nodes.size + 1) s

end Begin

section Register

inductive JoinRejection
  | alreadyJoined
  | migrateMessageTooLarge
  | tokenMismatch
  | tooManyWaitingFromSource
  | tooManyWaitingTotal
deriving DecidableEq, Repr

variable (s : Discovery) (config : Config) (o : Orders) (now : Instant)

def unjoined : List (Bytes × NodeInfo) :=
  (listed s.nodes o).filter (·.2.state ≠ .joined)

-- Why a name that is not registered yet is turned away.
def refusesNew (name address token : Bytes) : Option JoinRejection :=
  let source  := config.waitingSourceKey address
  let joined  := (joinedOf s.nodes o).map fun (name, info) => (name, info.address)
  let message := buildMigrateMessage token name address token joined config.replication (2 ^ 64 - 1)
  if maxWaitingTotal ≤ (s.unjoined o).length then
    some .tooManyWaitingTotal
  else if maxWaitingPerSourceIp ≤
      ((s.unjoined o).filter (config.waitingSourceKey ·.2.address = source)).length then
    some .tooManyWaitingFromSource
  else if nodeMaxRequestSize < message.length then
    some .migrateMessageTooLarge
  else
    none

def startJoin (name address token : Bytes) (connectionId : Nat) : Except JoinRejection Discovery :=
  match s.nodes.lookup name with
  | some info =>
    if info.state = .joined then
      .error .alreadyJoined
    else if info.token ≠ token then
      .error .tokenMismatch
    else
      -- The same node once more. Once its join has started its address is left alone.
      let moved : Bool := info.state = .waiting ∧ info.address ≠ address
      let s := { s with
        departed   := s.departed.forget name
        nodes      := s.nodes.insert name { info with
          address           := if info.state = NodeState.waiting then address else info.address
          ownerConnectionId := connectionId }
        generation := if moved then s.generation + 1 else s.generation }
      .ok (s.tryBeginNextJoin config o now)
  | none =>
    match s.refusesNew config o name address token with
    | some rejection => .error rejection
    | none =>
      let info := NodeInfo.withQueuePosition address .waiting token ((s.unjoined o).length + 1) now
      let s := { s with
        departed   := s.departed.forget name
        nodes      := s.nodes.insert name { info with ownerConnectionId := connectionId }
        generation := s.generation + 1 }
      .ok (s.tryBeginNextJoin config o now)

-- It has to report as well.
def handOffFromLateMember (name token : Bytes) : Discovery :=
  match s.currentJoin with
  | some pending =>
    if pending.joiningName = name ∨ name ∈ pending.expected ∨
        maxLateMembersPerJoin ≤ pending.late.length ∨ pending.joiningName ∉ s.nodes then
      s
    else
      { s with currentJoin := some { pending with
          expected := pending.expected.insert name token
          late     := pending.late ++ [(name, token)] } }
  | none => s

def lateHandoffsExhausted : Bool :=
  s.currentJoin.any (maxLateMembersPerJoin ≤ ·.late.length)

inductive AnnounceOutcome
  | refreshed (s : Discovery)
  | rejected
  | unknown

def applyAnnounceToExisting (name addr token : Bytes) : AnnounceOutcome :=
  match s.nodes.lookup name with
  | some info =>
    if info.token ≠ token then
      .rejected
    else if info.state ≠ .joined then
      .rejected
    else
      .refreshed { s with
        nodes      := s.nodes.insert name { info with address := addr, lastHeartbeat := now }
        generation := if info.address ≠ addr then s.generation + 1 else s.generation }
  | none => .unknown

def announceNeedsRejoin (name : Bytes) : Bool :=
  name ∉ s.nodes ∧ s.departed.earnsRejoin name now ∧
    (s.departed.departedAt name).any fun departedAt =>
      s.nodes.entries.any fun entry => entry.2.state = .joined ∧ entry.2.joinedAt < departedAt

-- Nothing is awaited between the first look at the registry and the insertion, so the name is still
-- unknown after the limiter was asked. The limiter is asked last.
def announce (peerIp name addr token : Bytes) : Discovery × Bool :=
  match s.applyAnnounceToExisting now name addr token with
  | .refreshed s => (s, true)
  | .rejected    => (s, false)
  | .unknown     =>
    if maxRegistrySize ≤ s.nodes.size ∨ s.lateHandoffsExhausted then
      (s, false)
    else
      let (allowed, limiter) :=
        announceInsertAllowed s.limiter (config.perIpKey peerIp) now o.buckets
      let s := { s with limiter }
      if allowed then
        let s := { s with
          departed   := s.departed.forget name
          nodes      := s.nodes.insert name (.new addr .joined token now)
          generation := s.generation + 1 }
        (s.handOffFromLateMember name token, true)
      else
        (s, false)

end Register

section Complete

variable (s : Discovery) (now : Instant)

-- Whether the report counts.
def PendingJoin.credits (pending : PendingJoin) (report : Report) : Bool :=
  pending.joiningName = report.joining ∧ report.generation.all (· = pending.generation) ∧
    pending.expected.lookup report.name = some report.token

def handleComplete (report : Report) : Discovery × Bool :=
  match s.currentJoin with
  | some pending =>
    if pending.credits report then
      let pending := { pending with
        completed := insert report.name pending.completed
        reports   := pending.reports ++ [report] }
      if pending.completed.card < pending.expected.size then
        ({ s with currentJoin := some pending }, false)
      else
        let s := { s with currentJoin := none, promoted := s.promoted ++ [pending] }
        (s.promoteToJoined pending.joiningName now, true)
    else
      (s, false)
  | none => (s, false)

end Complete

section Abandon

variable (s : Discovery) (now : Instant)

def removeNode (name : Bytes) : Discovery :=
  if name ∈ s.nodes then
    { s with nodes := s.nodes.erase name, generation := s.generation + 1 }
  else
    s

-- Up to the first `X`. Whether the join was still the one to be abandoned.
def abandonCurrentJoin (join : JoinIdentity) : Discovery × Bool :=
  match s.currentJoin with
  | some pending =>
    if pending.identity = join then
      let s := { s with currentJoin := none, abandoned := s.abandoned ++ [pending] }
      let s := s.removeNode pending.joiningName
      ({ s with departed := s.departed.record pending.joiningName now }, true)
    else
      (s, false)
  | none => (s, false)

def abandonIf (concerns : PendingJoin → Bool) : Discovery × Bool :=
  match s.currentJoin with
  | some pending =>
    if concerns pending then s.abandonCurrentJoin now pending.identity else (s, false)
  | none => (s, false)

def onNodeConnectionEnded (name : Bytes) (connectionId : Nat) : Discovery × Bool :=
  match s.nodes.lookup name with
  | some info =>
    if info.state ≠ .joined ∧ info.ownerConnectionId = connectionId then
      (s.removeNode name).abandonIf now (·.joiningName = name)
    else
      (s, false)
  | none => (s, false)

-- A member that has to report and did not yet.
def PendingJoin.awaits (pending : PendingJoin) (name : Bytes) : Bool :=
  name ∈ pending.expected ∧ name ∉ pending.completed

-- `V`. Nothing if the token is not the one of the node.
def nodeLeave (name token : Bytes) : Option (Discovery × Bool) :=
  match s.nodes.lookup name with
  | some info =>
    if info.token = token then
      let s := s.removeNode name
      let s := { s with departed := s.departed.record name now }
      match info.state with
      | .joined            => some (s.abandonIf now (·.awaits name))
      | .joining | .waiting => some (s.abandonIf now (·.joiningName = name))
    else
      none
  | none => some (s, false)

end Abandon

section Sweep

variable (s : Discovery) (config : Config) (o : Orders) (now : Instant)

def expires (info : NodeInfo) : Bool :=
  match info.state with
  | .joined  => config.livenessTimeout ≤ durationSince now info.lastHeartbeat
  | .waiting => waitingTimeoutFor info.queuePosition ≤ durationSince now info.waitingSince
  | .joining => false

-- A sweep that comes late gives everyone a new window.
def refreshStalled (stalled : Bool) : Discovery :=
  if stalled then
    { s with
      nodes   := ⟨s.nodes.entries.map fun entry =>
          ⟨entry.1, if entry.2.state = .joined then { entry.2 with lastHeartbeat := now } else entry.2⟩,
        by simpa [List.NodupKeys, List.keys, Function.comp_def] using s.nodes.nodupKeys⟩
      proxies := ⟨s.proxies.entries.map fun entry => ⟨entry.1, { entry.2 with lastSeen := now }⟩,
        by simpa [List.NodupKeys, List.keys, Function.comp_def] using s.proxies.nodupKeys⟩ }
  else
    s

def dropProxies : Discovery :=
  let dropped := s.proxies.entries.filter fun entry =>
    config.livenessTimeout ≤ durationSince now entry.2.lastSeen
  { s with
    proxies         := dropped.foldl (fun proxies entry => proxies.erase entry.1) s.proxies
    proxyGeneration := if dropped.isEmpty then s.proxyGeneration else s.proxyGeneration + 1 }

-- The nodes that go, and what is left.
def evict : List (Bytes × NodeInfo) × Discovery :=
  let evicted := (listed s.nodes o).filter (expires config now ·.2)
  (evicted, { s with
    nodes      := evicted.foldl (fun nodes (name, _) => nodes.erase name) s.nodes
    generation := if evicted.isEmpty then s.generation else s.generation + 1 })

def recordAll (stalled : Bool) (names : List Bytes) : Discovery :=
  { s with departed := names.foldl (fun departed name =>
      if stalled then departed.recordUnreliable name now else departed.record name now) s.departed }

-- At most one fan-out of the sweep runs at a time.
def spawn (fanout : Fanout) : Discovery :=
  if s.fanout.isNone then { s with fanout := some fanout } else s

def abandonEvicted (names : List Bytes) : Discovery :=
  let members := s.evictedMembers ∪ names.toFinset
  match s.currentJoin.filter fun pending => pending.expected.keys.any fun name =>
      name ∈ members ∧ pending.awaits name with
  | none      => { s with evictedMembers := ∅ }
  | some join =>
    if s.fanout.isNone then
      { s.spawn (.abandon join.identity) with evictedMembers := ∅ }
    else
      { s with evictedMembers := members }

def abandonTimedOut : Discovery :=
  match s.currentJoin.filter fun pending =>
      migrationTimeoutFor pending.maxEntries ≤ durationSince now pending.startedAt with
  | some join => s.spawn (.abandon join.identity)
  | none      => s

def kickGraceJoins : Discovery :=
  if s.graceJoinsKicked = false ∧ s.fanout.isNone ∧ config.listReadyAt ≤ now then
    { s.spawn .beginNext with graceJoinsKicked := true }
  else
    s

-- Nodes and proxies that were not heard of are dropped, and a join that cannot complete is abandoned.
def sweepNodes : Discovery :=
  let stalled := config.livenessTimeout / 2 < durationSince now s.lastTick
  let s       := ({ s with lastTick := now }.refreshStalled now stalled).dropProxies config now
  let (evicted, s) := s.evict config o now
  let members := (evicted.filter (·.2.state = .joined)).map (·.1)
  let waiting := (evicted.filter (·.2.state = .waiting)).map (·.1)
  let s       := (s.recordAll now stalled members).abandonEvicted members
  (s.recordAll now false waiting).abandonTimedOut now

def sweepTick : Discovery :=
  (s.sweepNodes config o now).kickGraceJoins config now

-- What the sweep has spawned goes on, up to its next await.
def work : Option Discovery :=
  match s.fanout with
  | some (.abandon join) =>
    let (s, taken) := s.abandonCurrentJoin now join
    some { s with fanout := if taken then some .cancelling else none }
  | some .cancelling | some .beginNext =>
    some { s.tryBeginNextJoin config o now with fanout := some .sending }
  | some .sending => some { s with fanout := none }
  | none          => none

-- The answer to an `M`.
def creditMigrateSendResult (join : JoinIdentity) (entries : Nat) : Discovery :=
  match s.currentJoin with
  | some pending =>
    if pending.identity = join then
      { s with currentJoin := some { pending with maxEntries := max pending.maxEntries entries } }
    else
      s
  | none => s

end Sweep

end Nanocached.Discovery
