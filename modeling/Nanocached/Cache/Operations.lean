import Nanocached.Cache.Store
import Nanocached.Lib.Decimal

namespace Nanocached

inductive IncrResult
  | value (n : Int) (remainingTtl : Option Duration)
  | notFound
  | notNumeric
deriving DecidableEq, Repr

inductive CasCondition
  | absent
  | present
  | digest (expected : Digest)
deriving DecidableEq, Repr

inductive CasResult
  | stored
  | mismatch
deriving DecidableEq, Repr

structure ReclaimReport where
  removed       : Nat
  paused        : Bool
  handoffWrites : Nat
deriving DecidableEq, Repr

-- What `parse_decimal_i64` does once it has stripped the sign.
def parseMagnitude (negative : Bool) (digits : Bytes) : Option Int :=
  if digits.isEmpty || !digits.all Decimal.isDigit then none
  else if digits.length > 1 && digits.head? = some 48 then none
  else
    let magnitude := Decimal.value digits
    if magnitude ≥ 2 ^ 64 then none
    else if negative then
      if magnitude = 2 ^ 63 then some (-2 ^ 63)
      else if magnitude < 2 ^ 63 then some (-magnitude)
      else none
    else if magnitude < 2 ^ 63 then some magnitude
    else none

-- The canonical decimal form of a signed 64-bit integer: an optional `-` (45), then digits without
-- a leading zero (48). Bytes which are not UTF-8 fail the check of the digits as well.
def parseDecimalI64 (bytes : Bytes) : Option Int :=
  match bytes with
  | 45 :: digits => parseMagnitude true digits
  | _            => parseMagnitude false bytes

-- `i64::checked_add`.
def checkedAddI64 (a b : Int) : Option Int :=
  if -2 ^ 63 ≤ a + b ∧ a + b < 2 ^ 63 then some (a + b) else none

-- The sum of two `usize`, which wraps around in a release build.
def wrappingAdd (a b : Nat) : Nat :=
  (a + b) % 2 ^ 64

-- `i64::to_string`.
def toDecimal (n : Int) : Bytes :=
  if n < 0 then 45 :: Decimal.ofNat n.natAbs else Decimal.ofNat n.natAbs

namespace Cache

section Eviction

def evictOneFrom (s : Cache) (id : Nat) : Option Cache := do
  let s := { s with evictions := s.evictions + 1 }
  let ns ← s.slots.lookup id
  let (name, entry) ← ns.peekLru
  return { s with toStore := ← s.unlink id ns name entry }

-- No item of the heap is popped more than twice, as an item pushed in place of another is current.
def evictOne (s : Cache) : Option Cache := do
  let (item, tails, emptyNamespaces) ←
    Store.popVictim s.slots (2 * s.tails.length + 1) s.tails []
  let tails := emptyNamespaces.foldl (fun tails id => tails.push (toLex (0, id))) tails
  let s ← { s with tails }.evictOneFrom (ofLex item).2
  if (ofLex item).2 ∈ s.slots then
    return { s with tails := s.tails.push item }
  else
    return s

-- The namespace holds `fuel` entries, and every round evicts one of them.
def enforceNamespaceBudgetGo (id : Nat) : (fuel : Nat) → Cache → Option Cache
  | 0, s => some s
  | fuel + 1, s =>
    match s.slots.lookup id with
    | none => some s
    | some ns =>
      match ns.budget with
      | none => some s
      | some budget =>
        if ns.usedBytes ≤ budget ∨ ns.entries.size ≤ 1 then some s
        else do enforceNamespaceBudgetGo id fuel (← s.evictOneFrom id)

def enforceNamespaceBudget (s : Cache) (id : Nat) : Option Cache :=
  enforceNamespaceBudgetGo id ((s.slots.lookup id).elim 0 (·.entries.size)) s

-- The loop at the end of `insert_into`. The entry count is `fuel`, and every round lowers it by one.
def evictWhileOver : (fuel : Nat) → Cache → Option Cache
  | 0, s => some s
  | fuel + 1, s =>
    if s.usedBytes > s.maxMemoryBytes ∧ s.entryCount > 1 then do
      evictWhileOver fuel (← s.evictOne)
    else some s

end Eviction

section Writes

def insertInto (s : Cache) (id : Nat) (name value : Bytes) (expiresAt : Option Instant) :
    Option Cache := do
  let s := { s with toStore := ← s.put id name value expiresAt }
  let s ← s.enforceNamespaceBudget id
  evictWhileOver s.entryCount s

def insert (s : Cache) (key : Key) (value : Bytes) (expiresAt : Option Instant) : Option Cache :=
  let (id, t) := s.ensureNamespace key.ns
  { s with toStore := t }.insertInto id key.name value expiresAt

def set (s : Cache) (key : Key) (value : Bytes) : Option Cache :=
  { s with sets := s.sets + 1 }.insert key value none

def setWithTtl (s : Cache) (key : Key) (value : Bytes) (ttl : Duration) (now : Instant) :
    Option Cache :=
  let expiresAt := checkedAdd now ttl
  { s with sets := s.sets + 1 }.insert key value expiresAt

-- The identifier of the previous round is used again only while its namespace is live.
def liveNamespace (s : Cache) (id : Option Nat) (ns : Bytes) : Nat × Store :=
  match id.filter (· ∈ s.slots) with
  | some id => (id, s.toStore)
  | none    => s.ensureNamespace ns

def setManyGo (ns : Bytes) (expiresAt : Option Instant) :
    List (Bytes × Bytes) → Option Nat → Cache → Option Cache
  | [], _, s => some s
  | (name, value) :: items, id, s => do
    let s := { s with sets := s.sets + 1 }
    let (live, t) := s.liveNamespace id ns
    let s ← { s with toStore := t }.insertInto live name value expiresAt
    setManyGo ns expiresAt items (some live) s

def setMany (s : Cache) (ns : Bytes) (items : List (Bytes × Bytes)) (ttl : Option Duration)
    (now : Instant) : Option Cache :=
  let expiresAt := ttl.bind (checkedAdd now)
  setManyGo ns expiresAt items none s

end Writes

section Reads

-- An entry found in an already resolved namespace.
def entryIn (s : Cache) (id : Option Nat) (name : Bytes) : Option (Nat × Namespace × Entry) := do
  let id ← id
  let ns ← s.slots.lookup id
  let entry ← ns.entries.lookup name
  return (id, ns, entry)

-- `LruCache::get_mut`: makes the entry the most recently used one of its namespace.
def promote (s : Cache) (id : Nat) (ns : Namespace) (name : Bytes) (entry : Entry) : Cache :=
  { s with slots := s.slots.insert id { ns with entries := ns.entries.insert name entry } }

-- `LruCache::peek_mut`: leaves the entry where it is.
def amend (s : Cache) (id : Nat) (ns : Namespace) (name : Bytes) (entry : Entry) : Cache :=
  { s with slots := s.slots.insert id { ns with entries := ns.entries.replace name entry } }

def getIn (s : Cache) (id : Option Nat) (name : Bytes) (now : Instant) (lastUsed : Nat) :
    Option (Option Bytes × Cache) :=
  match s.entryIn id name with
  | none => some (none, { s with misses := s.misses + 1 })
  | some (id, ns, entry) =>
    if entry.isExpiredAt now then do
      let s := s.promote id ns name entry
      let (_, t) ← s.removeEntryIn id name
      return (none, { s with
        toStore     := t
        expirations := s.expirations + 1
        misses      := s.misses + 1 })
    else
      let s := s.promote id ns name { entry with lastUsed }
      some (some entry.value, { s with hits := s.hits + 1 })

def getAt (s : Cache) (key : Key) (now : Instant) : Option (Option Bytes × Cache) :=
  let (lastUsed, t) := s.tick
  let s := { s with toStore := t }
  s.getIn (s.findNamespace key.ns) key.name now lastUsed

def getManyGo (id : Option Nat) (maxValueBytes : Nat) (now : Instant) :
    List Bytes → Nat → Cache → Option (List (Option Bytes) × Cache)
  | [], _, s => some ([], s)
  | name :: names, valueBytes, s =>
    if valueBytes ≥ maxValueBytes then do
      let (results, s) ← getManyGo id maxValueBytes now names valueBytes s
      return (none :: results, s)
    else do
      let (lastUsed, t) := s.tick
      let (value, s) ← { s with toStore := t }.getIn id name now lastUsed
      match value with
      | some value =>
        if wrappingAdd valueBytes value.length ≤ maxValueBytes then
          let (results, s) ←
            getManyGo id maxValueBytes now names (wrappingAdd valueBytes value.length) s
          return (some value :: results, s)
        else
          let (results, s) ← getManyGo id maxValueBytes now names valueBytes s
          return (none :: results, s)
      | none =>
        let (results, s) ← getManyGo id maxValueBytes now names valueBytes s
        return (none :: results, s)

def getMany (s : Cache) (ns : Bytes) (names : List Bytes) (maxValueBytes : Nat) (now : Instant) :
    Option (List (Option Bytes) × Cache) :=
  getManyGo (s.findNamespace ns) maxValueBytes now names 0 s

def touchIn (s : Cache) (id : Option Nat) (name : Bytes) (ttl : Option Duration) (promote : Bool)
    (now : Instant) : Option (Option (Bytes × Option Duration) × Cache) :=
  let s := { s with touches := s.touches + 1 }
  let (lastUsed, t) := if promote then s.tick else (s.clock, s.toStore)
  let s := { s with toStore := t }
  let missed := fun s : Cache =>
    { s with
      touchMisses := s.touchMisses + 1
      misses      := if promote then s.misses + 1 else s.misses }
  match s.entryIn id name with
  | none => some (none, missed s)
  | some (id, ns, entry) =>
    if entry.isExpiredAt now then do
      let s := if promote then s.promote id ns name entry else s
      let (_, t) ← s.removeEntryIn id name
      return (none, missed { s with toStore := t, expirations := s.expirations + 1 })
    else
      let expiresAt := ttl.bind (checkedAdd now)
      let remaining := expiresAt.map (durationSince · now)
      let s :=
        if promote then
          { s.promote id ns name { entry with expiresAt, lastUsed } with hits := s.hits + 1 }
        else
          s.amend id ns name { entry with expiresAt }
      some (some (entry.value, remaining), s)

def touchAt (s : Cache) (key : Key) (ttl : Option Duration) (promote : Bool) (now : Instant) :
    Option (Option (Bytes × Option Duration) × Cache) :=
  s.touchIn (s.findNamespace key.ns) key.name ttl promote now

def liveValueLen (s : Cache) (id : Option Nat) (name : Bytes) (now : Instant) : Option Nat := do
  let (_, _, entry) ← s.entryIn id name
  if entry.isExpiredAt now then none else some entry.value.length

def touchManyGo (id : Option Nat) (ttl : Option Duration) (promote : Bool) (maxValueBytes : Nat)
    (now : Instant) :
    List Bytes → Nat → Map Bytes Bytes → Cache → Option (List (Option Bytes) × Cache)
  | [], _, _, s => some ([], s)
  | name :: names, valueBytes, touchedAtOnce, s =>
    let bounded := maxValueBytes ≠ usizeMax
    match touchedAtOnce.lookup name with
    | some value =>
      if bounded ∧ (valueBytes ≥ maxValueBytes ∨
          saturatingAdd valueBytes value.length > maxValueBytes) then do
        let (results, s) ←
          touchManyGo id ttl promote maxValueBytes now names valueBytes touchedAtOnce s
        return (none :: results, s)
      else do
        let s := { s with
          touches := s.touches + 1
          hits    := if promote then s.hits + 1 else s.hits }
        let (results, s) ← touchManyGo id ttl promote maxValueBytes now names
          (saturatingAdd valueBytes value.length) touchedAtOnce s
        return (some value :: results, s)
    | none =>
      if bounded ∧ (valueBytes ≥ maxValueBytes ∨
          (s.liveValueLen id name now).any
            fun len => decide (saturatingAdd valueBytes len > maxValueBytes)) then do
        let (results, s) ←
          touchManyGo id ttl promote maxValueBytes now names valueBytes touchedAtOnce s
        return (none :: results, s)
      else do
        let (touched, s) ← s.touchIn id name ttl promote now
        match touched with
        | some (value, _) =>
          let touchedAtOnce :=
            if ttl = some 0 then touchedAtOnce.insert name value else touchedAtOnce
          let (results, s) ← touchManyGo id ttl promote maxValueBytes now names
            (saturatingAdd valueBytes value.length) touchedAtOnce s
          return (some value :: results, s)
        | none =>
          let (results, s) ←
            touchManyGo id ttl promote maxValueBytes now names valueBytes touchedAtOnce s
          return (none :: results, s)

def touchMany (s : Cache) (ns : Bytes) (names : List Bytes) (ttl : Option Duration)
    (promote : Bool) (maxValueBytes : Nat) (now : Instant) :
    Option (List (Option Bytes) × Cache) :=
  touchManyGo (s.findNamespace ns) ttl promote maxValueBytes now names 0 ∅ s

end Reads

section Conditional

def incrAt (s : Cache) (key : Key) (delta : Int) (now : Instant) : Option (IncrResult × Cache) :=
  match s.peek key with
  | none => some (.notFound, s)
  | some entry =>
    if entry.isExpiredAt now then do
      let (_, t) ← s.removeEntry key
      return (.notFound, { s with toStore := t, expirations := s.expirations + 1 })
    else
      match parseDecimalI64 entry.value with
      | none => some (.notNumeric, s)
      | some current =>
        match checkedAddI64 current delta with
        | none => some (.notNumeric, s)
        | some newValue => do
          let s ← { s with incrs := s.incrs + 1 }.insert key (toDecimal newValue) entry.expiresAt
          return (.value newValue (Store.remainingTtl entry now), s)

-- How `condition_holds_at` starts.
def removeExpired (s : Cache) (key : Key) (now : Instant) : Option Cache :=
  if (s.peek key).any (·.isExpiredAt now) then do
    let (_, t) ← s.removeEntry key
    return { s with toStore := t, expirations := s.expirations + 1 }
  else some s

def conditionHoldsAt (sha256 : Bytes → Vector UInt8 32) (s : Cache) (key : Key)
    (condition : CasCondition) (now : Instant) : Option (Bool × Cache) := do
  let s ← s.removeExpired key now
  match condition with
  | .digest expected =>
    let (digest, t) := s.digestOf sha256 key
    return (digest.any fun digest => constantTimeEq digest.toList expected.toList,
      { s with toStore := t })
  | .absent  => return ((s.peek key).isNone, s)
  | .present => return ((s.peek key).isSome, s)

def casSetAt (sha256 : Bytes → Vector UInt8 32) (s : Cache) (key : Key) (condition : CasCondition)
    (value : Bytes) (ttl : Option Duration) (now : Instant) : Option (CasResult × Cache) := do
  let (holds, s) ← s.conditionHoldsAt sha256 key condition now
  if !holds then
    return (.mismatch, s)
  else
    let expiresAt := ttl.bind (checkedAdd now)
    return (.stored, ← { s with casSets := s.casSets + 1 }.insert key value expiresAt)

def casDeleteAt (sha256 : Bytes → Vector UInt8 32) (s : Cache) (key : Key) (expected : Digest)
    (now : Instant) : Option (Bool × Cache) := do
  let (holds, s) ← s.conditionHoldsAt sha256 key (.digest expected) now
  if !holds then
    return (false, s)
  else
    let s := { s with casDeletes := s.casDeletes + 1 }
    let (_, t) ← s.removeEntry key
    return (true, { s with toStore := t })

def deleteAt (s : Cache) (key : Key) (now : Instant) : Option (Bool × Cache) := do
  let expired := (s.peek key).any (·.isExpiredAt now)
  let (removed, t) ← s.removeEntry key
  return (!expired && removed.isSome, { s with toStore := t })

def delete (s : Cache) (key : Key) (now : Instant) : Option (Bool × Cache) := do
  let (removed, s) ← s.deleteAt key now
  return (removed, { s with deletes := if removed then s.deletes + 1 else s.deletes })

end Conditional

section Tombstones

def tombstonedAt (s : Cache) (key : Key) (now : Instant) : Bool :=
  !s.handoffTombstones.entries.isEmpty &&
    (s.handoffTombstones.lookup key).any fun stamped =>
      durationSince now stamped < handoffTombstoneTtl

def forgetTombstoneIfStamped (s : Cache) (key : Key) (stamped : Instant) : Bool × Cache :=
  if s.handoffTombstones.lookup key ≠ some stamped then (false, s)
  else
    (true, { s with
      handoffTombstones := s.handoffTombstones.erase key
      usedBytes         := s.usedBytes - UInt64.ofNat (tombstoneBytes key) })

def forgetTombstone (s : Cache) (key : Key) : Cache :=
  if s.handoffTombstones.entries.isEmpty then s
  else if key ∈ s.handoffTombstones then
    { s with
      handoffTombstones := s.handoffTombstones.erase key
      usedBytes         := s.usedBytes - UInt64.ofNat (tombstoneBytes key) }
  else s

-- The loops over `tombstone_order` are recursions on the queue, of which each round takes the front.
def pruneTombstonesGo (now : Instant) : List (Instant × Key) → Cache → Cache
  | [], s => { s with tombstoneOrder := [] }
  | (stamped, key) :: order, s =>
    if durationSince now stamped < handoffTombstoneTtl then
      { s with tombstoneOrder := (stamped, key) :: order }
    else
      pruneTombstonesGo now order (s.forgetTombstoneIfStamped key stamped).2

def pruneTombstones (s : Cache) (now : Instant) : Cache :=
  pruneTombstonesGo now s.tombstoneOrder s

def forgetOldestTombstoneGo : List (Instant × Key) → Cache → Cache
  | [], s => { s with tombstoneOrder := [] }
  | (stamped, key) :: order, s =>
    match s.forgetTombstoneIfStamped key stamped with
    | (true, s)  => { s with tombstoneOrder := order }
    | (false, s) => forgetOldestTombstoneGo order s

def forgetOldestTombstone (s : Cache) : Cache :=
  forgetOldestTombstoneGo s.tombstoneOrder s

def tombstone (s : Cache) (key : Key) (now : Instant) : Cache :=
  let s := s.pruneTombstones now
  let s :=
    if s.handoffTombstones.size ≥ maxHandoffTombstones then s.forgetOldestTombstone else s
  let s := { s with
    handoffTombstones := s.handoffTombstones.insert key now
    usedBytes :=
      if key ∈ s.handoffTombstones then s.usedBytes
      else s.usedBytes + UInt64.ofNat (tombstoneBytes key)
    tombstoneOrder := s.tombstoneOrder ++ [(now, key)] }
  if s.tombstoneOrder.length > 2 * maxHandoffTombstones then
    { s with
      tombstoneOrder :=
        s.tombstoneOrder.filter fun item => s.handoffTombstones.lookup item.2 = some item.1 }
  else s

def handoffDeleteAt (s : Cache) (key : Key) (now : Instant) : Option (Bool × Cache) := do
  let (removed, s) ← s.deleteAt key now
  return (removed, s.tombstone key now)

end Tombstones

section Handoff

def noteHandoff (s : Cache) (now : Instant) (aheadOfRing : Bool) : Cache :=
  if !aheadOfRing then s
  else { s with lastHandoffAt := some now, handoffWrites := s.handoffWrites + 1 }

def handoffSet (s : Cache) (key : Key) (value : Bytes) (ttl : Option Duration)
    (aheadOfRing : Bool) (now : Instant) : Option (Bool × Cache) :=
  let s := s.noteHandoff now aheadOfRing
  if ttl = some 0 then do
    let (_, s) ← s.handoffDeleteAt key now
    return (true, s)
  else do
    let expiresAt := ttl.bind (checkedAdd now)
    let unchanged := (s.peek key).any fun entry =>
      !entry.isExpiredAt now && entry.value == value &&
        entry.expiresAt.isSome == expiresAt.isSome
    return (!unchanged, ← s.insert key value expiresAt)

def handoffSetIfAbsentAt (sha256 : Bytes → Vector UInt8 32) (s : Cache) (key : Key)
    (value : Bytes) (ttl : Option Duration) (aheadOfRing : Bool) (now : Instant) :
    Option (CasResult × Cache) := do
  let s := s.noteHandoff now aheadOfRing
  -- `condition_holds_at` runs only when no tombstone covers the key: it drops an expired entry.
  let (refused, s) ←
    if s.tombstonedAt key now then
      pure (true, s)
    else do
      let (holds, s) ← s.conditionHoldsAt sha256 key .absent now
      pure (!holds && !s.isMarked key, s)
  if refused then
    return (.mismatch, s)
  else
    let expiresAt := ttl.bind (checkedAdd now)
    return (.stored, ← s.insert key value expiresAt)

def reclaimGo (owned : Key → Bool) : List Key → Nat → Cache → Option (Nat × Cache)
  | [], removed, s => some (removed, s)
  | key :: keys, removed, s =>
    if (s.peek key).isSome && !owned key then do
      match ← s.removeEntry key with
      | (some _, t) => reclaimGo owned keys (removed + 1) ({ s with toStore := t }.forgetTombstone key)
      | (none, t)   => reclaimGo owned keys removed { s with toStore := t }
    else reclaimGo owned keys removed s

def reclaimUnownedAt (s : Cache) (keys : List Key) (owned : Key → Bool)
    (handoffQuietFor : Duration) (now : Instant) : Option (ReclaimReport × Cache) :=
  let handoffWrites := s.handoffWrites
  if s.lastHandoffAt.any fun at_ => durationSince now at_ < handoffQuietFor then
    some (⟨0, true, handoffWrites⟩, s)
  else do
    let (removed, s) ← reclaimGo owned keys 0 s
    return (⟨removed, false, handoffWrites⟩, s)

end Handoff

section Peek

-- The value of a live entry and how much longer it lives. Neither counts as a use of the entry.
def peekEntryAt (s : Cache) (key : Key) (now : Instant) : Option (Bytes × Option Duration) := do
  let entry ← s.peek key
  if entry.isExpiredAt now then
    none
  else
    return (entry.value, entry.expiresAt.map (durationSince · now))

def peekLiveEntryAt (s : Cache) (key : Key) (now : Instant) : Option (Bytes × Option Duration) :=
  if s.isMarked key then none else s.peekEntryAt key now

end Peek

section Sweep

def clearAll (s : Cache) : Nat × Cache :=
  (s.entryCount, { s with
    namespaces        := ∅
    slots             := ∅
    tails             := []
    entryCount        := 0
    usedBytes         := 0
    marked            := 0
    handoffTombstones := ∅
    tombstoneOrder    := [] })

def refill (s : Cache) (order : IterOrder Key) (now : Instant) (includeMarked : Bool) : Cache :=
  if s.pendingRemoval.isEmpty then
    { s with
      pendingRemoval :=
        order.apply (s.keysWhere fun e => e.isExpiredAt now) ++
        (if includeMarked then order.apply s.markedKeys else []) }
  else s

-- The removal of one candidate: the number of entries removed and the new state.
def sweepKey (s : Cache) (key : Key) (now : Instant) (includeMarked : Bool)
    (owned : Option (Key → Bool)) : Option (Nat × Cache) :=
  let marked := includeMarked && s.isMarked key
  let expired := (s.peek key).any (·.isExpiredAt now)
  if marked && !expired && owned.any (· key) then
    some (0, { s with toStore := s.clearMigratedMark key })
  else if marked || expired then do
    match ← s.removeEntry key with
    | (some _, t) =>
      let s := { s with toStore := t }
      let s := if marked then s.forgetTombstone key else s
      return (1, { s with expirations := if expired then s.expirations + 1 else s.expirations })
    | (none, t) => return (0, { s with toStore := t })
  else some (0, s)

def sweepGo (now : Instant) (includeMarked : Bool) (owned : Option (Key → Bool)) :
    (budget : Nat) → (removed : Nat) → Cache → Option (Nat × Cache)
  | 0, removed, s => some (removed, s)
  | budget + 1, removed, s =>
    match s.pendingRemoval with
    | [] => some (removed, s)
    | key :: rest => do
      let (n, s) ← { s with pendingRemoval := rest }.sweepKey key now includeMarked owned
      sweepGo now includeMarked owned budget (removed + n) s

def sweepAt (s : Cache) (order : IterOrder Key) (now : Instant) (includeMarked : Bool)
    (owned : Option (Key → Bool)) : Option (Nat × Cache) :=
  let s := s.pruneTombstones now
  let s := s.refill order now includeMarked
  sweepGo now includeMarked owned sweepBudget 0 s

end Sweep
end Cache
end Nanocached
