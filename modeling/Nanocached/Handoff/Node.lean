import Nanocached.Cache.Run
import Nanocached.Handoff.Guard

-- A node that hands off its share of the keys to joining nodes. Its tasks share the slot and a cache
-- actor, which takes the requests in the order they are sent. What a task does between two awaits
-- cannot be interrupted.

namespace Nanocached

inductive Command
  -- A call which neither marks keys nor sweeps marked ones.
  | call (op : Cache.Op)
  | peekLiveEntry (key : Key)
  -- A handoff is given by its abort flag. The one a key is marked for is not part of the command.
  | markMigrated (key : Key) (handoff : Nat)
  | unmarkMigratedMany (keys : List Key)
  | sweep (marked : Bool) (owned : Option (Key → Bool)) (order : IterOrder Key)

inductive Reply
  | done
  | entry (found : Option (Bytes × Option Duration))
deriving DecidableEq, Repr

-- The task of a handoff may await the answer to a request.
structure CacheRequest where
  command : Command
  task    : Option Nat

namespace Command

variable (sha256 : Bytes → Vector UInt8 32)

def exec (cache : Cache) (now : Instant) : Command → Option (Reply × Cache)
  | .call op                  => do return (.done, (← cache.exec sha256 now op).2)
  | .peekLiveEntry key        => some (.entry (cache.peekLiveEntryAt key now), cache)
  | .markMigrated key _       => do return (.done, (← cache.exec sha256 now (.markMigrated key)).2)
  | .unmarkMigratedMany keys  => do
    return (.done, (← cache.exec sha256 now (.unmarkMigratedMany keys)).2)
  | .sweep true (some owned) order => do
    return (.done, (← cache.exec sha256 now (.sweepKeeping order owned)).2)
  | .sweep true none order    => do return (.done, (← cache.exec sha256 now (.sweep order)).2)
  | .sweep false _ order      => do return (.done, (← cache.exec sha256 now (.sweepExpired order)).2)

end Command

-- The calls that are not made by clients.
def Cache.Op.isInternal : Cache.Op → Bool
  | .markMigrated _ | .unmarkMigratedMany _ | .sweep _ | .sweepKeeping .. | .sweepExpired _ => true
  | _                                                                                      => false

section Migration

-- Where `run_migration` replays the clears that have come in the meantime: before a key is sent,
-- before the handoff is stamped as completed and before that is reported.
inductive Site
  | key (key : Key)
  | stamp (preCompletionRing : Option Membership)
  | report

inductive Await
  -- The task is not started yet: the connection that received the `M` holds its guard.
  | accepted
  | rereplication
  | clears (scopes : List ClearScope) (site : Site)
  | peek (key : Key)
  | transfer (key : Key) (value : Bytes) (ttl : Option Duration)
  | mark (key : Key)
  | unmark
  | report

-- A call of `run_migration`: what it was called with, its local variables, what it awaits, and the
-- answer of the cache actor if there is one.
structure Task where
  joiningName   : Bytes
  joiningAddr   : Bytes
  joiningToken  : Bytes
  generation    : Option Nat
  replication   : Nat
  beforeRing    : HashRing
  afterRing     : SharedRing
  keys          : List Key
  markedThisRun : List Key
  sentCount     : Nat
  await         : Await
  reply         : Option Reply

namespace Task

variable (task : Task) (name : Bytes) (key : Key)

-- The joiner is to own a key which this node has owned until now.
def concerns : Bool :=
  (keyHash key).any fun hash =>
    task.afterRing.ring.owns hash task.joiningName task.replication &&
      task.beforeRing.owns hash name task.replication

def displaced : Bool :=
  (keyHash key).any fun hash => !task.afterRing.ring.owns hash name task.replication

end Task
end Migration

structure Node where
  context  : NodeContext
  cache    : Cache
  queue    : List CacheRequest
  tasks    : Map Nat Task
  -- The handoffs whose completion was reported to discovery.
  reported : List Nat

namespace Node

variable (s : Node) (now : Instant) (id : Nat) (task : Task)

section Tasks

def push (command : Command) (task : Option Nat) : Node :=
  { s with queue := s.queue ++ [⟨command, task⟩] }

def suspend (await : Await) : Node :=
  { s with tasks := s.tasks.insert id { task with await, reply := none } }

-- The guard is dropped with the task.
def drop : Node :=
  { s with context := MigrationGuard.drop s.context now, tasks := s.tasks.erase id }

-- What the task does on every path that gives up.
def rollBack : Node :=
  let (joinMarks, context) := MigrationGuard.takeJoinMarks ⟨id⟩ s.context
  let s := { s with context }
  let restore := task.markedThisRun ++ joinMarks
  if restore.isEmpty then
    s.drop now id
  else
    (s.push (.unmarkMigratedMany restore) id).suspend id { task with markedThisRun := [] } .unmark

def drainPendingClears (site : Site) (next : Node → Node) : Node :=
  let (scopes, context) := s.context.takePendingClears
  let s := { s with context }
  if scopes.isEmpty then next s else s.suspend id task (.clears scopes site)

def reportComplete : Node :=
  { s with reported := id :: s.reported }.suspend id task .report

def complete (preCompletionRing : Option Membership) : Node :=
  let context :=
    MigrationGuard.completed s.context now task.sentCount task.markedThisRun preCompletionRing
  let task := { task with markedThisRun := [] }
  { s with context }.drainPendingClears id task .report (·.reportComplete id task)

def peek (key : Key) : Node :=
  (s.push (.peekLiveEntry key) id).suspend id task (.peek key)

-- How it goes on once the clears are replayed.
def proceed : Site → Node
  | .key key                 => s.peek id task key
  | .stamp preCompletionRing => s.complete now id task preCompletionRing
  | .report                  => s.reportComplete id task

-- From here on the node goes by the ring of the handoff.
def flip : Node :=
  let preCompletionRing := s.context.knownRing
  let context := { s.context with knownRing := some ⟨task.afterRing, task.replication⟩ }
  { s with context }.drainPendingClears id task (.stamp preCompletionRing)
    (·.proceed now id task (.stamp preCompletionRing))

def leaveLoop : Node :=
  if s.context.flag id then s.rollBack now id task else s.flip now id task

def nextKey : List Key → Node
  | []          => s.leaveLoop now id { task with keys := [] }
  | key :: keys =>
    let task := { task with keys }
    if s.context.flag id then
      s.leaveLoop now id task
    else if task.concerns s.context.name key then
      s.drainPendingClears id task (.key key) (·.proceed now id task (.key key))
    else
      nextKey keys

end Tasks

inductive Outcome
  | ready
  | sent (acknowledged : Bool)
deriving DecidableEq, Repr

-- The task goes on to its next await.
def resume (outcome : Outcome) : Option Node :=
  match task.await, outcome with
  | .rereplication, .ready => some (s.nextKey now id task task.keys)
  | .clears (_ :: scopes) site, .sent true =>
    if scopes.isEmpty then
      some (s.proceed now id task site)
    else
      some (s.suspend id task (.clears scopes site))
  | .clears _ .report, .sent false => some (s.reportComplete id task)
  | .clears _ _, .sent false => some (s.rollBack now id task)
  | .peek key, .ready =>
    match task.reply with
    | some (.entry none)               => some (s.nextKey now id task task.keys)
    | some (.entry (some (value, ttl))) => some (s.suspend id task (.transfer key value ttl))
    | _                                => none
  | .transfer .., .sent false => some (s.rollBack now id task)
  | .transfer key _ _, .sent true =>
    let task := { task with sentCount := task.sentCount + 1 }
    if task.displaced s.context.name key then
      some ((s.push (.markMigrated key id) id).suspend id task (.mark key))
    else
      some (s.nextKey now id task task.keys)
  | .mark key, .ready =>
    if task.reply.isSome then
      let task := { task with markedThisRun := task.markedThisRun ++ [key] }
      some (s.nextKey now id task task.keys)
    else
      none
  | .unmark, .ready => if task.reply.isSome then some (s.drop now id) else none
  | .report, .sent _ => some { s with tasks := s.tasks.erase id }
  | _, _ => none

-- The keys of a handoff that is taken back are restored.
def restore (keys : List Key) : Node :=
  if keys.isEmpty then s else s.push (.unmarkMigratedMany keys) none

-- What the arm for `M` does up to its first await.
def migrate (migrate : Migrate) : Node :=
  if s.context.leaving then
    s
  else
    let (beforeRing, ring) :=
      migrationRings s.context.name migrate.joiningName migrate.joined
    let (afterRing, context) := s.context.allocRing ring
    match MigrationGuard.new context now migrate afterRing with
    | (.new guard keys, context) =>
      let s := { s with context }.restore keys
      { s with tasks := s.tasks.insert guard.abortRequested {
          joiningName   := migrate.joiningName
          joiningAddr   := migrate.joiningAddr
          joiningToken  := migrate.joiningToken
          generation    := migrate.generation
          replication   := migrate.replication
          beforeRing    := beforeRing
          afterRing     := afterRing
          keys          := []
          markedThisRun := []
          sentCount     := 0
          await         := .accepted
          reply         := none } }
    | (_, context) => { s with context }

def answer (task : Option Nat) (reply : Reply) : Node :=
  match task with
  | none    => s
  | some id =>
    match s.tasks.lookup id with
    | none      => s
    | some task => { s with tasks := s.tasks.insert id { task with reply := some reply } }

inductive Event
  | migrate (migrate : Migrate)
  | ack (id : Nat) (entries : Nat)
  -- The `M` cannot be answered, or the node shuts down.
  | lost (id : Nat)
  | start (id : Nat) (keys : List Key)
  | resume (id : Nat) (outcome : Outcome)
  -- The cache actor takes the next request.
  | actor
  | request (op : Cache.Op)
  -- A put-if-absent `U` was stored.
  | joinTook (key : Key) (keyHash : UInt64)
  | sweep (owned : Option (Key → Bool)) (order : IterOrder Key)
  | cancel (joiningName : Bytes)
  | gone (identity : Nat)
  | adopt (members : List Bytes) (replication : Nat)
  | clearExpired
  | retainLingering
  | routeClear (scope : ClearScope)
  | requestAbort

def exec (sha256 : Bytes → Vector UInt8 32) : Event → Option Node
  | .migrate migrate => some (s.migrate now migrate)
  | .ack id entries => do
    let task ← s.tasks.lookup id
    match task.await with
    | .accepted => some { s with context := MigrationGuard.ack s.context entries }
    | _         => none
  | .lost id => do
    let task ← s.tasks.lookup id
    match task.await with
    | .accepted => some (s.drop now id)
    | _         => none
  | .start id keys => do
    let task ← s.tasks.lookup id
    match task.await with
    | .accepted => some (s.suspend id { task with keys } .rereplication)
    | _         => none
  | .resume id outcome => do s.resume now id (← s.tasks.lookup id) outcome
  | .actor =>
    match s.queue with
    | []                => none
    | request :: queue => do
      let (reply, cache) ← request.command.exec sha256 s.cache now
      return { s with queue, cache }.answer request.task reply
  | .request op => if op.isInternal then none else some (s.push (.call op) none)
  | .joinTook key keyHash =>
    match s.context.joinTook now key keyHash with
    | (false, context) => some { s with context }
    | (true, context)  =>
      let handoff := context.activeMigration.elim 0 (·.abortRequested)
      some ({ s with context }.push (.markMigrated key handoff) none)
  | .sweep owned order =>
    let (migrationActive, marksHeld) :=
      match s.context.activeMigration with
      | some active => (active.completedAt.isNone, !active.confirmed)
      | none        => (false, false)
    if migrationActive then some s else some (s.push (.sweep (!marksHeld) owned order) none)
  | .cancel joiningName =>
    match s.context.abandonMigration now joiningName with
    | (.completed keys, context) => some ({ s with context }.restore keys)
    | (_, context)               => some { s with context }
  | .gone identity =>
    match s.context.abandonDepartedSlot now identity with
    | (some (keys, _), context) => some ({ s with context }.restore keys)
    | (none, context)           => some { s with context }
  | .adopt members replication =>
    some { s with context := (s.context.adoptMembership now members replication).2 }
  | .clearExpired => some { s with context := s.context.clearExpired now }
  | .retainLingering => some { s with context := s.context.retainLingering now }
  | .routeClear scope => some { s with context := s.context.routeClear now scope }
  | .requestAbort => some { s with context := s.context.requestAbort }

end Node
end Nanocached
