import Nanocached.Discovery.Join

namespace Nanocached.Discovery

def maxProxyEntries : Nat := 1024

inductive DiscoveryCommand
  | auth (secret : Bytes) (tagging : Bool)
  | heartbeat (name : Bytes) (replication : Option Nat) (token : Bytes) (pendingJoiner : Option Bytes)
  | list
  | listProxies
  | nodeLeave (name token : Bytes)
  | proxyDeregister (name token : Bytes)
  | proxyAnnounce (name : Bytes) (port : Nat) (token : Bytes)
  | join (name : Bytes) (port : Nat) (token : Bytes)
  | complete (report : Report)
  | announce (name : Bytes) (port : Nat) (token : Bytes) (rejoinCapable : Bool)
  | nodeRoster (name token : Bytes)

inductive Event
  | accept (peerIp : Bytes)
  | frame (id : Nat) (command : DiscoveryCommand)
  -- The handler of a frame, or the end of a connection, goes on after an await.
  | proceed (id : Nat)
  -- A connection that waits for its promotion looks at the registry.
  | wake (id : Nat)
  | hangup (id : Nat)
  | tick
  | work
  | credit (join : JoinIdentity) (entries : Nat)

-- What a handler comes to: the phase of the connection afterwards, and its answer.
structure Handled where
  state  : Discovery
  conn   : Connection
  answer : Option Bytes

-- The address of a node is where it registers from.
def composeAddress (peerIp : Bytes) (port : Nat) : Bytes :=
  peerIp ++ [58] ++ Decimal.ofNat port

section Handlers

variable (config : Config) (o : Orders) (now : Instant) (s : Discovery) (conn : Connection) (id : Nat)

def close (answer : Option Bytes) : Handled :=
  ⟨s, { conn with phase := .ending }, answer⟩

def auth (secret : Bytes) (tagging : Bool) : Handled :=
  if config.authSecret.all (· = secret) then
    ⟨s, { conn with authenticated := true }, some (if tagging then [79, 100, 84, 10] else [79, 100, 10])⟩
  else
    close s conn (some (if tagging then [69, 100, 84, 10] else [69, 100, 10]))

-- Whether the name is the one of a member, and the token is its.
def proves (name token : Bytes) : Bool :=
  (s.nodes.lookup name).any fun info => info.state = .joined ∧ info.token = token

def pendingJoinerVerdict (joiner : Bytes) : Bytes :=
  let departed := (s.departed.departedAt joiner).any (durationSince now · < departedRetention)
  if departed ∧ joiner ∉ s.nodes then [71, 10] else [75, 10]

def heartbeat (name : Bytes) (replication : Option Nat) (token : Bytes)
    (pendingJoiner : Option Bytes) : Handled :=
  match s.nodes.lookup name with
  | some info =>
    if info.state = .joined ∧ info.token = token then
      let s := { s with
        nodes      := s.nodes.insert name
          { info with lastHeartbeat := now, reportedReplication := replication }
        generation :=
          if info.reportedReplication ≠ replication then s.generation + 1 else s.generation }
      let conn := { conn with phase := pendingJoiner.elim .reading .verdict }
      if now < config.listReadyAt then
        ⟨s, conn, some [65, 10]⟩
      else
        let (ack, s) := s.cachedHeartbeatAck config.replication o
        ⟨s, conn, some ack⟩
    else
      close s conn none
  | none => close s conn none

def list : Handled :=
  if now < config.listReadyAt then
    close s conn (some [66, 10])
  else
    let (response, s) := s.cachedListResponse config.replication o
    if response.head? = some 66 then close s conn (some response) else ⟨s, conn, some response⟩

def nodeRoster (name token : Bytes) : Handled :=
  if ¬proves s name token then
    close s conn none
  else if now < config.listReadyAt then
    close s conn (some [66, 10])
  else
    let (response, s) := s.cachedNodeRoster config.replication o
    ⟨s, conn, some response⟩

-- The answer to a `V` that abandons a join waits for the `X`s.
def leave (name token : Bytes) : Handled :=
  match s.nodeLeave now name token with
  | some (s, true)  => ⟨s, { conn with phase := .cancelling true }, none⟩
  | some (s, false) => ⟨s, conn, some [82, 10]⟩
  | none            => close s conn none

def proxyDeregister (name token : Bytes) : Handled :=
  match s.proxies.lookup name with
  | some existing =>
    if existing.token = token then
      let s := { s with
        proxies         := s.proxies.erase name
        proxyGeneration := s.proxyGeneration + 1 }
      ⟨s, conn, some [82, 10]⟩
    else
      close s conn none
  | none => ⟨s, conn, some [82, 10]⟩

def proxyAnnounce (name : Bytes) (port : Nat) (token : Bytes) : Handled :=
  let addr := composeAddress conn.peerIp port
  match s.proxies.lookup name with
  | some existing =>
    if existing.token = token then
      let s := { s with
        proxies         := s.proxies.insert name { existing with address := addr, lastSeen := now }
        proxyGeneration :=
          if existing.address ≠ addr then s.proxyGeneration + 1 else s.proxyGeneration }
      ⟨s, conn, some [82, 10]⟩
    else
      close s conn none
  | none =>
    if maxProxyEntries ≤ s.proxies.size then
      close s conn none
    else
      let s := { s with
        proxies         := s.proxies.insert name ⟨addr, token, now⟩
        proxyGeneration := s.proxyGeneration + 1 }
      ⟨s, conn, some [82, 10]⟩

def listProxies : Handled :=
  if now < config.listReadyAt then
    close s conn (some [66, 10])
  else
    let (response, s) := s.cachedProxyList o
    ⟨s, conn, some response⟩

def join (name : Bytes) (port : Nat) (token : Bytes) : Handled :=
  match s.startJoin config o now name (composeAddress conn.peerIp port) token id with
  | .ok s    => ⟨s, { conn with phase := .staging name }, none⟩
  | .error _ => close s conn none

def announceNode (name : Bytes) (port : Nat) (token : Bytes) (rejoinCapable : Bool) : Handled :=
  if rejoinCapable ∧ s.announceNeedsRejoin now name then
    close s conn (some [71, 10])
  else
    match s.announce config o now conn.peerIp name (composeAddress conn.peerIp port) token with
    | (s, true)  => ⟨s, { conn with identity := some name }, some [82, 10]⟩
    | (s, false) => close s conn none

def complete (report : Report) : Handled :=
  match s.handleComplete now report with
  | (s, true)  => ⟨s, { conn with phase := .acking }, some [65, 10]⟩
  | (s, false) => ⟨s, conn, some [65, 10]⟩

def DiscoveryCommand.isAuth : DiscoveryCommand → Bool
  | .auth .. => true
  | _        => false

def handle (command : DiscoveryCommand) : Handled :=
  if ¬conn.authenticated ∧ ¬command.isAuth then
    close s conn (some [69, 100, 10])
  else match command with
  | .auth secret tagging           => auth config s conn secret tagging
  | .heartbeat name replication token pendingJoiner =>
    heartbeat config o now s conn name replication token pendingJoiner
  | .list                          => list config o now s conn
  | .listProxies                   => listProxies config o now s conn
  | .nodeLeave name token          => leave now s conn name token
  | .proxyDeregister name token    => proxyDeregister s conn name token
  | .proxyAnnounce name port token => proxyAnnounce now s conn name port token
  | .join name port token          => join config o now s conn id name port token
  | .complete report               => complete now s conn report
  | .announce name port token rejoinCapable =>
    announceNode config o now s conn name port token rejoinCapable
  | .nodeRoster name token         => nodeRoster config o now s conn name token

-- After an await. A connection that has ended is gone.
def goOn : Option (Discovery × Option Connection × Option Bytes) :=
  match conn.phase with
  | .verdict joiner =>
    some (s, some { conn with phase := .reading }, some (pendingJoinerVerdict now s joiner))
  | .staging name =>
    some (s, some { conn with phase := .parked name, identity := some name }, none)
  | .acking => some (s.tryBeginNextJoin config o now, some { conn with phase := .reading }, none)
  | .cancelling true =>
    some (s.tryBeginNextJoin config o now, some { conn with phase := .reading }, some [82, 10])
  | .cancelling false => some (s.tryBeginNextJoin config o now, none, none)
  | .reading | .parked _ | .ending => none

-- `wait_for_promotion`, whenever it is notified.
def lookAgain : Option (Connection × Option Bytes) :=
  match conn.phase with
  | .parked name =>
    match s.nodes.lookup name with
    | some info =>
      if info.state = .joined then some ({ conn with phase := .reading }, some [82, 10])
      else some (conn, none)
    | none => some ({ conn with phase := .ending }, none)
  | _ => none

-- A connection may also end while it is read from, or waits for its promotion.
def hangUp : Option (Discovery × Option Connection) :=
  match conn.phase with
  | .reading | .parked _ | .ending =>
    match conn.identity with
    | some name =>
      match s.onNodeConnectionEnded now name id with
      | (s, true)  => some (s, some { conn with phase := .cancelling false })
      | (s, false) => some (s, none)
    | none => some (s, none)
  | _ => none

end Handlers

def setConnection (s : Discovery) (id : Nat) (conn : Option Connection) : Discovery :=
  { s with connections := conn.elim (s.connections.erase id) (s.connections.insert id) }

def exec (config : Config) (o : Orders) (now : Instant) (s : Discovery) :
    Event → Option (Discovery × Option Bytes)
  | .accept peerIp =>
    let conn := {
      peerIp        := peerIp
      authenticated := config.authSecret.isNone
      identity      := none
      phase         := .reading }
    some ({ s.setConnection s.nextConnectionId (some conn) with
      nextConnectionId := s.nextConnectionId + 1 }, none)
  | .frame id command => do
    let conn ← s.connections.lookup id
    if conn.phase = .reading then
      let handled := handle config o now s conn id command
      return (handled.state.setConnection id handled.conn, handled.answer)
    else
      none
  | .proceed id => do
    let conn ← s.connections.lookup id
    let (s, conn, answer) ← goOn config o now s conn
    return (s.setConnection id conn, answer)
  | .wake id => do
    let conn ← s.connections.lookup id
    let (conn, answer) ← lookAgain s conn
    return (s.setConnection id conn, answer)
  | .hangup id => do
    let conn ← s.connections.lookup id
    let (s, conn) ← hangUp now s conn id
    return (s.setConnection id conn, none)
  | .tick                => some (s.sweepTick config o now, none)
  | .work                => do return (← s.work config o now, none)
  | .credit join entries => some (s.creditMigrateSendResult join entries, none)

inductive Reaches (config : Config) (start : Instant) (seed : Nat) : Instant → Discovery → Prop
  | initial : Reaches config start seed start (initial start seed)
  | exec {o : Orders} {now now' : Instant} {e : Event} {answer : Option Bytes} {s s' : Discovery} :
    (Reaches config start seed now s) → (now ≤ now') → (s.exec config o now' e = some (s', answer)) →
    Reaches config start seed now' s'

-- Events at the given instants.
def run (config : Config) (o : Orders) (s : Discovery) : List (Instant × Event) → Option Discovery
  | []               => some s
  | (now, e) :: events => do run config o (← s.exec config o now e).1 events

theorem Reaches.run {config : Config} {o : Orders} {start now : Instant} {seed : Nat}
    {s s' : Discovery} {events : List (Instant × Event)} (h : Reaches config start seed now s)
    (ht : (now :: events.map Prod.fst).IsChain (· ≤ ·)) (hr : s.run config o events = some s') :
    ∃ now', Reaches config start seed now' s' := by
  induction events generalizing s now
  case nil =>
    cases hr
    exact ⟨now, h⟩
  case cons event events hi =>
    obtain ⟨⟨s₁, answer⟩, he, hr⟩ := Option.bind_eq_some_iff.mp hr
    obtain ⟨hn, ht⟩ := List.isChain_cons_cons.mp ht
    exact hi (.exec h hn he) ht hr

end Nanocached.Discovery
