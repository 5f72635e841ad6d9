import Nanocached.Handoff.Member

-- The task that removes, from time to time, the keys which the node has owned under none of the
-- recent memberships.

namespace Nanocached

def reclaimGrace : Duration := fromSecs 120

def OwnerCheck.owns (check : OwnerCheck) (key : Key) : Bool :=
  (keyHash key).any fun hash => check.ring.ring.owns hash check.name check.replication

-- How many handoffs were ahead of the ring is counted without regard to overflow.
structure ReclaimMark where
  generation    : Nat
  epochs        : Nat
  handoffWrites : Nat
deriving DecidableEq, Repr

def ReclaimMark.same (mark mark' : ReclaimMark) : Bool :=
  mark.generation = mark'.generation && mark.epochs = mark'.epochs &&
    mark.handoffWrites % 2 ^ 64 = mark'.handoffWrites % 2 ^ 64

namespace NodeContext

variable (node : NodeContext) (now : Instant)

def ownsUnderKnownRing (key : Key) : Bool :=
  node.knownRing.any fun membership => (keyHash key).any (membership.owns · node.name)

def serves (key : Key) : Bool :=
  (keyHash key).any fun hash => !node.wrongNodeHashed now hash

-- The requests that get to the cache. Of a request for many keys only those are part which this
-- node serves.
def admits : Cache.Op → Bool
  | .set key _ | .setWithTtl key .. | .get key | .touch key .. | .delete key => node.serves now key
  | .incr key _ | .casSet key .. | .casDelete key _ => node.notThePrimary now now key = some false
  | .setMany ns items _ => items.all fun item => node.serves now ⟨ns, item.1⟩
  | .getMany ns names _ | .touchMany ns names .. => names.all fun name => node.serves now ⟨ns, name⟩
  | .handoffSet key _ _ aheadOfRing | .handoffSetIfAbsent key _ _ aheadOfRing =>
    aheadOfRing = !node.ownsUnderKnownRing key
  | .handoffDelete _ | .clear _ | .clearAll | .keys _ => true
  | _ => false

def reclaimChecks : Option (List OwnerCheck × Nat) × NodeContext :=
  let settling := node.activeMigration.any fun active =>
    active.completedAt.isNone || !active.confirmed || active.forwardingOpen now ||
      active.lingering.any (·.forwardingOpen now)
  if !node.promoted || node.leaving || settling then
    (none, node)
  else
    let (answer, ringHistory) := node.ringHistory.checksWithinAt reclaimGrace node.name now
    (answer, { node with ringHistory })

end NodeContext

-- How far a call of `reclaim_pass` has come.
inductive ReclaimPass
  | probing (checks : List OwnerCheck) (generation : Nat)
  -- The cache has answered at the given time.
  | probed (checks : List OwnerCheck) (mark : ReclaimMark) (answered : Instant)
  | listing (checks : List OwnerCheck) (mark : ReclaimMark)
  | next (checks : List OwnerCheck) (mark : ReclaimMark) (chunks : List (List Key))
  | reclaiming (checks : List OwnerCheck) (mark : ReclaimMark) (chunk : List Key)
      (chunks : List (List Key))

structure Reclaimer where
  member  : Member
  settled : Option ReclaimMark
  pass    : Option ReclaimPass
  -- Not kept by the source: what the settled pass has judged by, and when the latest event was.
  judged  : List OwnerCheck
  last    : Instant

namespace Reclaimer

variable (s : Reclaimer) (now : Instant)

def context : NodeContext :=
  s.member.node.context

def cache : Cache :=
  s.member.node.cache

def withContext (context : NodeContext) : Reclaimer :=
  { s with member := { s.member with node := { s.member.node with context } } }

def withCache (cache : Cache) : Reclaimer :=
  { s with member := { s.member with node := { s.member.node with cache } } }

inductive Event
  | member (event : Member.Event)
  | setLeaving (leaving : Bool)
  -- The pass begins. It awaits the answers to its requests, which the cache may take at any time.
  | begin
  | probe
  | compare
  | list (order : IterOrder Key)
  | next
  | reclaim
  -- The node shuts down.
  | stop

-- A roster is only adopted with a heartbeat.
def admits : Member.Event → Bool
  | .node (.request op) => s.context.admits now op
  | .node (.adopt ..)   => false
  | _                   => true

def chunksOf (order : IterOrder Key) : List (List Key) :=
  (s.cache.keysAt order now).toChunks sweepBudget

def step (sha256 : Bytes → Vector UInt8 32) : Event → Option Reclaimer
  | .member event =>
    if s.admits now event then do
      return { s with member := ← s.member.exec sha256 now event }
    else
      none
  | .setLeaving leaving => some (s.withContext { s.context with leaving })
  | .begin =>
    match s.pass with
    | some _ => none
    | none   =>
      let (answer, context) := s.context.reclaimChecks now
      some { s.withContext context with
        pass := answer.map fun (checks, generation) => .probing checks generation }
  | .probe =>
    match s.pass with
    | some (.probing checks generation) => do
      let (report, cache) ← s.cache.reclaimUnownedAt [] (fun _ => false) reclaimGrace now
      let mark := ⟨generation, checks.length, report.handoffWrites⟩
      return { s.withCache cache with
        pass := if report.paused then none else some (.probed checks mark now) }
    | _ => none
  | .compare =>
    match s.pass with
    | some (.probed checks mark _) =>
      if s.settled.any (·.same mark) then
        some { s with pass := none }
      else
        some { s with pass := some (.listing checks mark) }
    | _ => none
  | .list order =>
    match s.pass with
    | some (.listing checks mark) =>
      some { s with pass := some (.next checks mark (s.chunksOf now order)) }
    | _ => none
  | .next =>
    match s.pass with
    | some (.next checks mark []) =>
      some { s with settled := some mark, pass := none, judged := checks }
    | some (.next checks mark (chunk :: chunks)) =>
      let (answer, context) := s.context.reclaimChecks now
      let pass :=
        if answer.map (·.2) = some mark.generation then
          some (.reclaiming checks mark chunk chunks)
        else
          none
      some { s.withContext context with pass }
    | _ => none
  | .reclaim =>
    match s.pass with
    | some (.reclaiming checks mark chunk chunks) => do
      let owned key := checks.any (·.owns key)
      let (report, cache) ← s.cache.reclaimUnownedAt chunk owned reclaimGrace now
      return { s.withCache cache with
        pass := if report.paused then none else some (.next checks mark chunks) }
    | _ => none
  | .stop => some { s with pass := none }

def exec (sha256 : Bytes → Vector UInt8 32) (event : Event) : Option Reclaimer := do
  return { ← s.step now sha256 event with last := now }

-- The rest of a pass, if nothing else happens in the meantime: how many entries it removes.
def reclaimAll (checks : List OwnerCheck) (generation : Nat) :
    List (List Key) → NodeContext → Cache → Option Nat
  | [],              _,       _     => some 0
  | chunk :: chunks, context, cache =>
    let (answer, context) := context.reclaimChecks now
    if answer.map (·.2) = some generation then do
      let owned key := checks.any (·.owns key)
      let (report, cache) ← cache.reclaimUnownedAt chunk owned reclaimGrace now
      if report.paused then
        return 0
      else
        return report.removed + (← reclaimAll checks generation chunks context cache)
    else
      some 0

def fullPass (order : IterOrder Key) (checks : List OwnerCheck) (mark : ReclaimMark) : Option Nat :=
  reclaimAll now checks mark.generation (s.chunksOf now order) s.context s.cache

-- The runs of a node with an empty cache of which every step is allowed.
inductive Reachable (sha256 : Bytes → Vector UInt8 32)
    (allowed : Reclaimer → Instant → Event → Prop) : Reclaimer → Prop
  | init {member : Member} {maxMemoryBytes : UInt64} {budgets : List (Bytes × UInt64)}
    {now : Instant} :
    member.node.cache = .withBudgets maxMemoryBytes budgets →
    member.node.context.activeMigration = none →
    Reachable sha256 allowed ⟨member, none, none, [], now⟩
  | step {s s' : Reclaimer} {now : Instant} {event : Event} :
    Reachable sha256 allowed s → s.last ≤ now → allowed s now event →
    s.exec now sha256 event = some s' → Reachable sha256 allowed s'

end Reclaimer
end Nanocached
