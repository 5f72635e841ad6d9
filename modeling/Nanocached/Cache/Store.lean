import Nanocached.Cache.State

-- Throughout, a result of `none` in place of a state stands for a panic of the cache actor, i.e. an
-- `expect` which does not hold.

namespace Nanocached

-- `usize::wrapping_add_signed`.
def wrappingAddSigned (n : UInt64) (delta : Int64) : UInt64 :=
  n + delta.toUInt64

def constantTimeEq (a b : Bytes) : Bool :=
  if a.length ≠ b.length then false
  else (a.zip b).foldl (fun diff p => diff ||| (p.1 ^^^ p.2)) 0 == 0

-- The digest conditions compare against, given the `Sha256::digest` of the `sha2` crate.
def contentDigest (sha256 : Bytes → Vector UInt8 32) (value : Bytes) : Digest :=
  Vector.ofFn fun i => (sha256 value).get (i.castLE (by decide))

namespace Namespace

def releaseMark (ns : Namespace) (name : Bytes) (usedBytes : UInt64) (marked : Nat) :
    Namespace × UInt64 × Nat :=
  if ns.migrated.entries.isEmpty then (ns, usedBytes, marked)
  else if name ∈ ns.migrated then
    let markBytes := UInt64.ofNat (markCharge name)
    ({ ns with migrated := ns.migrated.erase name, usedBytes := ns.usedBytes - markBytes },
      usedBytes - markBytes, marked - 1)
  else (ns, usedBytes, marked)

def releaseDigest (ns : Namespace) (name : Bytes) (usedBytes : UInt64) : Namespace × UInt64 :=
  if ns.digests.entries.isEmpty then (ns, usedBytes)
  else if name ∈ ns.digests then
    let digestBytes := UInt64.ofNat (digestCharge name)
    ({ ns with digests := ns.digests.erase name, usedBytes := ns.usedBytes - digestBytes },
      usedBytes - digestBytes)
  else (ns, usedBytes)

end Namespace

namespace Store

def tick (s : Store) : Nat × Store :=
  (s.clock + 1, { s with clock := s.clock + 1 })

-- The hint by which the source skips the lookup of a name that is a slot's own allocation is left
-- out: it answers what the index answers, cf. `WF.index`.
def findNamespace (s : Store) (name : Bytes) : Option Nat :=
  s.namespaces.lookup name

-- The item a rebuilt heap holds for a namespace.
def tailItem (id : Nat) (ns : Namespace) : Nat ×ₗ Nat :=
  toLex (ns.peekLru.elim 0 (·.2.lastUsed), id)

def rebuildTails (s : Store) : Store :=
  { s with tails := s.slots.entries.map fun p => tailItem p.1 p.2 }

def ensureNamespace (s : Store) (name : Bytes) : Nat × Store :=
  match s.findNamespace name with
  | some id => (id, s)
  | none =>
    let id := s.nextSlotId
    let s := { s with
      nextSlotId := id + 1
      usedBytes  := s.usedBytes + UInt64.ofNat (nameCharge name)
      namespaces := s.namespaces.insert name id
      slots      := s.slots.insert id (.new name (s.budgets.lookup name)) }
    if s.tails.length > 2 * s.slots.size + tailsSlack then
      (id, s.rebuildTails)
    else
      (id, { s with tails := s.tails.push (toLex (0, id)) })

def dropNamespace (s : Store) (id : Nat) : Option Store := do
  let ns ← s.slots.lookup id
  return { s with
    slots      := s.slots.erase id
    namespaces := s.namespaces.erase ns.name
    usedBytes  := s.usedBytes - UInt64.ofNat (nameCharge ns.name) }

-- The namespace that holds the names of `ns`, if there is one.
def find (s : Store) (ns : Bytes) : Option Namespace := do
  let id ← s.findNamespace ns
  s.slots.lookup id

def peek (s : Store) (key : Key) : Option Entry := do
  let ns ← s.find key.ns
  ns.entries.lookup key.name

def isMarked (s : Store) (key : Key) : Bool :=
  (s.find key.ns).any fun ns => key.name ∈ ns.migrated

-- What `insert_into` does before it evicts.
def put (s : Store) (id : Nat) (name value : Bytes) (expiresAt : Option Instant) : Option Store := do
  let (lastUsed, s) := s.tick
  let entry := { value, expiresAt, lastUsed : Entry }
  let ns ← s.slots.lookup id
  let (ns, usedBytes, marked) := ns.releaseMark name s.usedBytes s.marked
  let (ns, usedBytes) := ns.releaseDigest name usedBytes
  match ns.entries.lookup name with
  | some replaced =>
    let delta := Int64.ofNat value.length - Int64.ofNat replaced.value.length
    let ns := { ns with
      entries   := ns.entries.insert name entry
      usedBytes := wrappingAddSigned ns.usedBytes delta }
    return { s with
      slots     := s.slots.insert id ns
      usedBytes := wrappingAddSigned usedBytes delta
      marked }
  | none =>
    let entryBytes := UInt64.ofNat (entryCharge name value)
    let ns := { ns with
      entries   := ns.entries.insert name entry
      usedBytes := ns.usedBytes + entryBytes }
    return { s with
      slots      := s.slots.insert id ns
      entryCount := s.entryCount + 1
      usedBytes  := usedBytes + entryBytes
      marked }

-- What `remove_entry_in` and `evict_one_from` both do with the entry they popped.
def unlink (s : Store) (id : Nat) (ns : Namespace) (name : Bytes) (entry : Entry) : Option Store :=
  let entryBytes := UInt64.ofNat (entryCharge name entry.value)
  let ns := { ns with
    entries   := ns.entries.erase name
    usedBytes := ns.usedBytes - entryBytes }
  let (ns, usedBytes, marked) := ns.releaseMark name (s.usedBytes - entryBytes) s.marked
  let (ns, usedBytes) := ns.releaseDigest name usedBytes
  let s := { s with
    slots      := s.slots.insert id ns
    entryCount := s.entryCount - 1
    usedBytes
    marked }
  if ns.entries.entries.isEmpty then s.dropNamespace id else some s

def removeEntryIn (s : Store) (id : Nat) (name : Bytes) : Option (Option Entry × Store) :=
  match s.slots.lookup id with
  | none => some (none, s)
  | some ns =>
    match ns.entries.lookup name with
    | none => some (none, s)
    | some entry => do return (some entry, ← s.unlink id ns name entry)

def removeEntry (s : Store) (key : Key) : Option (Option Entry × Store) :=
  match s.findNamespace key.ns with
  | none => some (none, s)
  | some id => s.removeEntryIn id key.name

def digestOf (sha256 : Bytes → Vector UInt8 32) (s : Store) (key : Key) : Option Digest × Store :=
  match s.findNamespace key.ns with
  | none => (none, s)
  | some id =>
    match s.slots.lookup id with
    | none => (none, s)
    | some ns =>
      match ns.entries.lookup key.name with
      | none => (none, s)
      | some entry =>
        if entry.value.length < digestCacheMinValueBytes then
          (some (contentDigest sha256 entry.value), s)
        else
          match ns.digests.lookup key.name with
          | some digest => (some digest, s)
          | none =>
            let digest := contentDigest sha256 entry.value
            let charge := UInt64.ofNat (digestCharge key.name)
            let ns := { ns with
              digests   := ns.digests.insert key.name digest
              usedBytes := ns.usedBytes + charge }
            (some digest, { s with
              slots     := s.slots.insert id ns
              usedBytes := s.usedBytes + charge })

def clearMigratedMark (s : Store) (key : Key) : Store :=
  match s.findNamespace key.ns with
  | none => s
  | some id =>
    match s.slots.lookup id with
    | none => s
    | some ns =>
      let (ns, usedBytes, marked) := ns.releaseMark key.name s.usedBytes s.marked
      { s with slots := s.slots.insert id ns, usedBytes, marked }

def markMigrated (s : Store) (key : Key) : Store :=
  match s.findNamespace key.ns with
  | none => s
  | some id =>
    match s.slots.lookup id with
    | none => s
    | some ns =>
      if key.name ∈ ns.entries ∧ key.name ∉ ns.migrated then
        let markBytes := UInt64.ofNat (markCharge key.name)
        let ns := { ns with
          migrated  := ns.migrated.insert key.name ()
          usedBytes := ns.usedBytes + markBytes }
        { s with
          slots     := s.slots.insert id ns
          usedBytes := s.usedBytes + markBytes
          marked    := s.marked + 1 }
      else s

def unmarkMigratedMany (s : Store) (keys : List Key) : Nat × Store :=
  let t := keys.foldl clearMigratedMark s
  (s.marked - t.marked, t)

def clear (s : Store) (name : Bytes) : Option (Nat × Store) :=
  match s.namespaces.lookup name with
  | none => some (0, s)
  | some id => do
    let dropped ← s.slots.lookup id
    let removed := dropped.entries.size
    return (removed, { s with
      namespaces := s.namespaces.erase name
      slots      := s.slots.erase id
      entryCount := s.entryCount - removed
      usedBytes  := s.usedBytes - (dropped.usedBytes + UInt64.ofNat (nameCharge dropped.name))
      marked     := s.marked - dropped.migrated.size })

-- The keys of all entries that satisfy `p`, one namespace after the other.
def keysWhere (s : Store) (p : Entry → Bool) : List Key :=
  s.slots.entries.flatMap fun slot =>
    slot.2.entries.entries.filter (fun e => p e.2) |>.map fun e => ⟨slot.2.name, e.1⟩

def markedKeys (s : Store) : List Key :=
  s.slots.entries.flatMap fun slot =>
    slot.2.migrated.entries.map fun m => ⟨slot.2.name, m.1⟩

def keysAt (s : Store) (order : IterOrder Key) (now : Instant) : List Key :=
  order.apply <| s.keysWhere fun e => !e.isExpiredAt now

def remainingTtl (e : Entry) (now : Instant) : Option Duration :=
  e.expiresAt.map (durationSince · now)

-- Pops items off the heap until one is current, which `fuel` bounds.
def popVictim (slots : Map Nat Namespace) :
    (fuel : Nat) → MinHeap (Nat ×ₗ Nat) → List Nat →
    Option ((Nat ×ₗ Nat) × MinHeap (Nat ×ₗ Nat) × List Nat)
  | 0, _, _ => none
  | fuel + 1, tails, emptyNamespaces => do
    let (item, tails) ← tails.pop
    match slots.lookup (ofLex item).2 with
    | none => popVictim slots fuel tails emptyNamespaces
    | some ns =>
      match ns.peekLru with
      | some (_, entry) =>
        if entry.lastUsed = (ofLex item).1 then
          return (item, tails, emptyNamespaces)
        else
          let tails := tails.push (toLex (entry.lastUsed, (ofLex item).2))
          popVictim slots fuel tails emptyNamespaces
      | none => popVictim slots fuel tails (emptyNamespaces ++ [(ofLex item).2])

-- The test-only oracle for `popVictim`.
def scanVictim (s : Store) : Option Nat :=
  s.slots.entries.filterMap (fun p => p.2.peekLru.map fun e => toLex (e.2.lastUsed, p.1))
    |>.min? |>.map fun item => (ofLex item).2

end Store
end Nanocached
