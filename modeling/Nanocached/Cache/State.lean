import Nanocached.Basic
import Nanocached.Lib.MinHeap

namespace Nanocached

abbrev Digest := Vector UInt8 16

-- Entries a single sweep removes at most.
def sweepBudget : Nat := 2000

def entryOverheadBytes : Nat := 180

def markOverheadBytes : Nat := 80

def digestCacheMinValueBytes : Nat := 4096

def digestOverheadBytes : Nat := 128

def tailsSlack : Nat := 64

def namespaceOverheadBytes : Nat := 750

def handoffTombstoneTtl : Duration := fromSecs 120

def maxHandoffTombstones : Nat := 65536

def tombstoneOverheadBytes : Nat := 250

def entryCharge (name value : Bytes) : Nat :=
  name.length + value.length + entryOverheadBytes

def nameCharge (name : Bytes) : Nat :=
  if name.isEmpty then 0 else name.length + namespaceOverheadBytes

def markCharge (name : Bytes) : Nat :=
  name.length + markOverheadBytes

def digestCharge (name : Bytes) : Nat :=
  name.length + digestOverheadBytes

def tombstoneBytes (key : Key) : Nat :=
  key.ns.length + key.name.length + tombstoneOverheadBytes

structure Entry where
  value     : Bytes
  expiresAt : Option Instant
  lastUsed  : Nat
deriving DecidableEq, Repr

def Entry.isExpiredAt (e : Entry) (now : Instant) : Bool :=
  e.expiresAt.any (· ≤ now)

-- The sub-map of one namespace. `entries` is the `LruCache`, most recently used entry first: an
-- `insert` promotes, a `replace` does not, and the last entry is the least recently used one.
structure Namespace where
  name      : Bytes
  entries   : Map Bytes Entry
  usedBytes : UInt64
  budget    : Option UInt64
  migrated  : Map Bytes Unit
  digests   : Map Bytes Digest

namespace Namespace

def new (name : Bytes) (budget : Option UInt64) : Namespace where
  name      := name
  entries   := ∅
  usedBytes := 0
  budget    := budget
  migrated  := ∅
  digests   := ∅

def peekLru (ns : Namespace) : Option (Bytes × Entry) :=
  ns.entries.entries.getLast?.map fun p => (p.1, p.2)

end Namespace

-- The containers of the cache together with their accounting. The byte counts wrap around at 2⁶⁴
-- as they do in a release build.
structure Store where
  namespaces        : Map Bytes Nat
  slots             : Map Nat Namespace
  tails             : MinHeap (Nat ×ₗ Nat)
  nextSlotId        : Nat
  marked            : Nat
  entryCount        : Nat
  usedBytes         : UInt64
  maxMemoryBytes    : UInt64
  clock             : Nat
  budgets           : Map Bytes UInt64
  handoffTombstones : Map Key Instant

structure Counters where
  hits        : Nat := 0
  misses      : Nat := 0
  sets        : Nat := 0
  deletes     : Nat := 0
  evictions   : Nat := 0
  expirations : Nat := 0
  incrs       : Nat := 0
  casSets     : Nat := 0
  casDeletes  : Nat := 0
  touches     : Nat := 0
  touchMisses : Nat := 0
deriving DecidableEq, Repr

structure Cache extends Store, Counters where
  pendingRemoval : List Key
  lastHandoffAt  : Option Instant
  tombstoneOrder : List (Instant × Key)
  handoffWrites  : Nat

namespace Store

def withBudgets (maxMemoryBytes : UInt64) (budgets : List (Bytes × UInt64)) : Store where
  namespaces        := ∅
  slots             := ∅
  tails             := []
  nextSlotId        := 0
  marked            := 0
  entryCount        := 0
  usedBytes         := 0
  maxMemoryBytes    := maxMemoryBytes
  clock             := 0
  budgets           := budgets.foldl (fun m b => m.insert b.1 b.2) ∅
  handoffTombstones := ∅

end Store

def Cache.withBudgets (maxMemoryBytes : UInt64) (budgets : List (Bytes × UInt64)) : Cache where
  toStore        := Store.withBudgets maxMemoryBytes budgets
  pendingRemoval := []
  lastHandoffAt  := none
  tombstoneOrder := []
  handoffWrites  := 0

end Nanocached
