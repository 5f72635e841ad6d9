import Nanocached.Basic
import Nanocached.Lib.Ranking

namespace Nanocached

section Hashing

def fnvOffsetBasis : UInt64 := 0xcbf29ce484222325

def fnvPrime : UInt64 := 0x100000001b3

def fnv1aContinue (hash : UInt64) (bytes : Bytes) : UInt64 :=
  bytes.foldl (fun hash byte => (hash ^^^ byte.toUInt64) * fnvPrime) hash

def fnv1a (bytes : Bytes) : UInt64 :=
  fnv1aContinue fnvOffsetBasis bytes

-- `u32::to_be_bytes`.
def be32 (n : UInt32) : Bytes :=
  [(n >>> 24).toUInt8, (n >>> 16).toUInt8, (n >>> 8).toUInt8, n.toUInt8]

-- The length of a namespace is expected to fit into 32 bits.
def namespaceState (ns : Bytes) : Option UInt64 :=
  if ns.isEmpty then some fnvOffsetBasis
  else if ns.length < 2 ^ 32 then
    some (fnv1aContinue (fnv1a (be32 (.ofNat ns.length))) ns)
  else none

-- `KeyHash::of`.
def keyHash (key : Key) : Option UInt64 :=
  (namespaceState key.ns).map (fnv1aContinue · key.name)

def fmix64 (hash : UInt64) : UInt64 :=
  let hash := hash ^^^ hash >>> 33
  let hash := hash * 0xff51afd7ed558ccd
  let hash := hash ^^^ hash >>> 33
  let hash := hash * 0xc4ceb9fe1a85ec53
  hash ^^^ hash >>> 33

end Hashing

-- A ring is only ever made by `HashRing.new`.
structure HashRing where
  nodes      : List Bytes
  nodeHashes : List UInt64
  nodup      : nodes.Nodup
  hashed     : nodeHashes = nodes.map fnv1a

-- Descending by score, and ties toward the lexicographically smaller name.
def byScore (a b : UInt64 × Bytes) : Ordering :=
  (compare b.1 a.1).then (compare a.2 b.2)

namespace HashRing

-- The names which `seen` does not hold yet, each at its first occurrence.
def firstOccurrences : List Bytes → (seen : List Bytes) → List Bytes
  | [], _ => []
  | node :: nodes, seen =>
    if node ∈ seen then firstOccurrences nodes seen
    else node :: firstOccurrences nodes (node :: seen)

theorem mem_firstOccurrences {node : Bytes} {nodes seen : List Bytes} :
    node ∈ firstOccurrences nodes seen ↔ node ∈ nodes ∧ node ∉ seen := by
  induction nodes generalizing seen
  case nil => simp [firstOccurrences]
  case cons n nodes hi =>
    rw [firstOccurrences]
    split
    case isTrue hn  => grind
    case isFalse hn => grind

theorem nodup_firstOccurrences (nodes seen : List Bytes) : (firstOccurrences nodes seen).Nodup := by
  induction nodes generalizing seen
  case nil => exact .nil
  case cons n nodes hi =>
    rw [firstOccurrences]
    split
    case isTrue  => exact hi seen
    case isFalse =>
      refine List.nodup_cons.mpr ⟨fun hm => ?_, hi _⟩
      exact (mem_firstOccurrences.mp hm).right (.head _)

def new (nodes : List Bytes) : HashRing where
  nodes      := firstOccurrences nodes []
  nodeHashes := (firstOccurrences nodes []).map fnv1a
  nodup      := nodup_firstOccurrences nodes []
  hashed     := rfl

variable (ring : HashRing)

-- The nodes with their scores for a key.
def scored (keyHash : UInt64) : List (UInt64 × Bytes) :=
  (ring.nodeHashes.zip ring.nodes).map fun (nodeHash, node) => (fmix64 (nodeHash ^^^ keyHash), node)

-- The `n` highest-ranked nodes are selected first, so that only those have to be sorted.
def ownersHashed (std : UnstableSort byScore) (keyHash : UInt64) (replicas : Nat) : List Bytes :=
  let scored := ring.scored keyHash
  let top := min replicas scored.length
  let scored :=
    if top > 0 ∧ top < scored.length then std.selectNth (top - 1) scored else scored
  (std.sort (scored.take top)).map (·.2)

-- Counts the nodes that rank better than `name` until there are `replicas` of them.
def isOwnerGo (keyHash : UInt64) (name : Bytes) (nameScore : UInt64) (replicas : Nat) :
    List (UInt64 × Bytes) → (betterRanked : Nat) → Bool
  | [], _ => true
  | (nodeHash, node) :: nodes, betterRanked =>
    if node = name then isOwnerGo keyHash name nameScore replicas nodes betterRanked
    else
      let score := fmix64 (nodeHash ^^^ keyHash)
      if score > nameScore ∨ (score = nameScore ∧ node < name) then
        if betterRanked + 1 ≥ replicas then false
        else isOwnerGo keyHash name nameScore replicas nodes (betterRanked + 1)
      else isOwnerGo keyHash name nameScore replicas nodes betterRanked

def isOwnerHashed (keyHash : UInt64) (name : Bytes) (replicas : Nat) : Option Bool :=
  if replicas = 0 then some false
  else
    match ring.nodes.findIdx? (· == name) with
    | none => some false
    | some nameIndex => do
      let nameHash ← ring.nodeHashes[nameIndex]?
      return isOwnerGo keyHash name (fmix64 (nameHash ^^^ keyHash)) replicas
        (ring.nodeHashes.zip ring.nodes) 0

-- The answer of `is_owner_hashed`, which always has one: it indexes the hashes by the position of a
-- node.
def owns (keyHash : UInt64) (name : Bytes) (replicas : Nat) : Bool :=
  ring.isOwnerHashed keyHash name replicas == some true

def owners (std : UnstableSort byScore) (key : Key) (replicas : Nat) : Option (List Bytes) :=
  (keyHash key).map fun hash => ring.ownersHashed std hash replicas

end HashRing
end Nanocached
