import Nanocached.Cache.Operations

namespace Nanocached.Cache

-- The calls of the cache actor.
inductive Op
  | set (key : Key) (value : Bytes)
  | setWithTtl (key : Key) (value : Bytes) (ttl : Duration)
  | setMany (ns : Bytes) (items : List (Bytes × Bytes)) (ttl : Option Duration)
  | get (key : Key)
  | getMany (ns : Bytes) (names : List Bytes) (maxValueBytes : Nat)
  | incr (key : Key) (delta : Int)
  | touch (key : Key) (ttl : Option Duration) (promote : Bool)
  | touchMany (ns : Bytes) (names : List Bytes) (ttl : Option Duration) (promote : Bool)
      (maxValueBytes : Nat)
  | casSet (key : Key) (condition : CasCondition) (value : Bytes) (ttl : Option Duration)
  | casDelete (key : Key) (expected : Digest)
  | delete (key : Key)
  | handoffSet (key : Key) (value : Bytes) (ttl : Option Duration) (aheadOfRing : Bool)
  | handoffSetIfAbsent (key : Key) (value : Bytes) (ttl : Option Duration) (aheadOfRing : Bool)
  | handoffDelete (key : Key)
  | markMigrated (key : Key)
  | unmarkMigratedMany (keys : List Key)
  | clear (ns : Bytes)
  | clearAll
  | sweep (order : IterOrder Key)
  | sweepKeeping (order : IterOrder Key) (owned : Key → Bool)
  | sweepExpired (order : IterOrder Key)
  | reclaimUnowned (keys : List Key) (owned : Key → Bool) (handoffQuietFor : Duration)
  | keys (order : IterOrder Key)

inductive Response
  | done
  | value (value : Option Bytes)
  | values (values : List (Option Bytes))
  | incr (result : IncrResult)
  | touched (result : Option (Bytes × Option Duration))
  | cas (result : CasResult)
  | flag (result : Bool)
  | count (n : Nat)
  | reclaimed (report : ReclaimReport)
  | keys (keys : List Key)
deriving DecidableEq

variable (sha256 : Bytes → Vector UInt8 32)

-- The answer to a call at the clock reading `now`, and the state it leaves.
def exec (s : Cache) (now : Instant) : Op → Option (Response × Cache)
  | .set key value => do return (.done, ← s.set key value)
  | .setWithTtl key value ttl => do return (.done, ← s.setWithTtl key value ttl now)
  | .setMany ns items ttl => do return (.done, ← s.setMany ns items ttl now)
  | .get key => do
    let (value, s) ← s.getAt key now
    return (.value value, s)
  | .getMany ns names maxValueBytes => do
    let (values, s) ← s.getMany ns names maxValueBytes now
    return (.values values, s)
  | .incr key delta => do
    let (result, s) ← s.incrAt key delta now
    return (.incr result, s)
  | .touch key ttl promote => do
    let (result, s) ← s.touchAt key ttl promote now
    return (.touched result, s)
  | .touchMany ns names ttl promote maxValueBytes => do
    let (values, s) ← s.touchMany ns names ttl promote maxValueBytes now
    return (.values values, s)
  | .casSet key condition value ttl => do
    let (result, s) ← s.casSetAt sha256 key condition value ttl now
    return (.cas result, s)
  | .casDelete key expected => do
    let (result, s) ← s.casDeleteAt sha256 key expected now
    return (.flag result, s)
  | .delete key => do
    let (result, s) ← s.delete key now
    return (.flag result, s)
  | .handoffSet key value ttl aheadOfRing => do
    let (changed, s) ← s.handoffSet key value ttl aheadOfRing now
    return (.flag changed, s)
  | .handoffSetIfAbsent key value ttl aheadOfRing => do
    let (result, s) ← s.handoffSetIfAbsentAt sha256 key value ttl aheadOfRing now
    return (.cas result, s)
  | .handoffDelete key => do
    let (removed, s) ← s.handoffDeleteAt key now
    return (.flag removed, s)
  | .markMigrated key => some (.done, { s with toStore := s.markMigrated key })
  | .unmarkMigratedMany keys =>
    let (n, t) := s.unmarkMigratedMany keys
    some (.count n, { s with toStore := t })
  | .clear ns => do
    let (n, t) ← s.clear ns
    return (.count n, { s with toStore := t })
  | .clearAll =>
    let (n, s) := s.clearAll
    some (.count n, s)
  | .sweep order => do
    let (n, s) ← s.sweepAt order now true none
    return (.count n, s)
  | .sweepKeeping order owned => do
    let (n, s) ← s.sweepAt order now true (some owned)
    return (.count n, s)
  | .sweepExpired order => do
    let (n, s) ← s.sweepAt order now false none
    return (.count n, s)
  | .reclaimUnowned keys owned handoffQuietFor => do
    let (report, s) ← s.reclaimUnownedAt keys owned handoffQuietFor now
    return (.reclaimed report, s)
  | .keys order => some (.keys (s.keysAt order now), s)

-- One call of a run, with the clock reading it took and its answer.
structure Event where
  now      : Instant
  op       : Op
  response : Response

-- The call inserted a value for the key.
def Event.Writes (e : Event) (key : Key) : Prop :=
  match e.op, e.response with
  | .set k _, _                             => k = key
  | .setWithTtl k _ _, _                    => k = key
  | .setMany ns items _, _                  => ns = key.ns ∧ key.name ∈ items.map (·.1)
  | .incr k _, .incr (.value ..)            => k = key
  | .casSet k .., .cas .stored              => k = key
  | .handoffSet k _ ttl _, _                => k = key ∧ ttl ≠ some 0
  | .handoffSetIfAbsent k .., .cas .stored  => k = key
  | _, _                                    => False

inductive Run : Cache → List Event → Cache → Prop
  | refl : Run s [] s
  | tail : Run s₁ es s₂ → exec sha256 s₂ now op = some (r, s₃) → Run s₁ (es ++ [⟨now, op, r⟩]) s₃

-- The run of the given calls, each at the given clock reading.
def execAll (s : Cache) : List (Instant × Op) → Option (List Event × Cache)
  | [] => some ([], s)
  | (now, op) :: calls => do
    let (r, s) ← exec sha256 s now op
    let (es, s) ← execAll s calls
    return (⟨now, op, r⟩ :: es, s)

-- The clock readings of a run never go back.
def Timely (es : List Event) : Prop :=
  es.Pairwise fun e₁ e₂ => e₁.now ≤ e₂.now

-- The states of a cache with the given limits.
inductive Reachable (maxMemoryBytes : UInt64) (budgets : List (Bytes × UInt64)) (s : Cache) : Prop
  | intro (timely : Timely es) (run : Run sha256 (withBudgets maxMemoryBytes budgets) es s)

end Nanocached.Cache
