import Nanocached.HashRing.Theorems
import Nanocached.Lib.Selection
import Nanocached.Sdk.Parts

open Std

namespace Nanocached

namespace RustSdk

def fnv1aContinue (hash : UInt64) (bytes : Bytes) : UInt64 :=
  bytes.foldl (fun hash byte => (hash ^^^ byte.toUInt64) * 0x100000001b3) hash

def fnv1a (bytes : Bytes) : UInt64 :=
  fnv1aContinue 0xcbf29ce484222325 bytes

def keyHash (ns key : Bytes) : Option UInt64 :=
  if ns.isEmpty then some (fnv1a key)
  else if ns.length < 2 ^ 32 then
    let hash := fnv1a (be32 (.ofNat ns.length))
    let hash := fnv1aContinue hash ns
    some (fnv1aContinue hash key)
  else none

def fmix64 (hash : UInt64) : UInt64 :=
  let hash := hash ^^^ hash >>> 33
  let hash := hash * 0xff51afd7ed558ccd
  let hash := hash ^^^ hash >>> 33
  let hash := hash * 0xc4ceb9fe1a85ec53
  hash ^^^ hash >>> 33

structure HashRing where
  nodes      : List Bytes
  nodeHashes : List UInt64

def HashRing.new (nodes : List Bytes) : HashRing :=
  let nodes := Nanocached.HashRing.firstOccurrences nodes []
  ⟨nodes, nodes.map fnv1a⟩

def owners (std : UnstableSort byScore) (ring : HashRing) (ns key : Bytes) (replicas : Nat) :
    Option (List Bytes) :=
  (keyHash ns key).map fun keyHash =>
    let scored := (ring.nodeHashes.zip ring.nodes).map fun (nodeHash, node) =>
      (fmix64 (nodeHash ^^^ keyHash), node)
    let r := min replicas scored.length
    let scored := if r < scored.length then (std.selectNth r scored).take r else scored
    (std.sort scored).map (·.2)

end RustSdk

namespace TypeScript

-- A string is a list of UTF-16 code units.
abbrev Str := List UInt16

structure Entry where
  hi   : Int
  lo   : Int
  node : Str
  deriving DecidableEq

def outranks (a b : Entry) : Bool :=
  if a.hi ≠ b.hi then a.hi > b.hi
  else if a.lo ≠ b.lo then a.lo > b.lo
  else a.node < b.node

-- What is taken from the engine. A sort only has to put the elements in order if no two of them are
-- equal: the comparison of the ring never says that of two.
structure Engine extends Double where
  utf8        : Str → Bytes
  sort        : (Entry → Entry → Bool) → List Entry → List Entry
  utf8_ascii  : ∀ bytes : Bytes, (∀ byte ∈ bytes, byte < 128) →
                  utf8 (bytes.map (·.toUInt16)) = bytes
  sort_perm   : ∀ before l, (sort before l).Perm l
  sort_sorted : ∀ {before l} (cmp : Entry → Entry → Ordering) [TransCmp cmp],
                  (∀ a b, before a b ↔ cmp a b = .lt) → l.Pairwise (cmp · · ≠ .eq) →
                  (sort before l).Pairwise (before · ·)

def insertionSort (before : Entry → Entry → Bool) (l : List Entry) : List Entry :=
  l.reverse.insertionSort fun a b => !before b a

theorem insertionSort_eq {before : Entry → Entry → Bool} {cmp : Entry → Entry → Ordering}
    [TransCmp cmp] (h : ∀ a b, before a b ↔ cmp a b = .lt) (l : List Entry) :
    insertionSort before l = l.foldl (Selection.insert cmp) [] := by
  have hr : (fun a b => !before b a) = fun a b => (cmp a b).isLE := by
    funext a b
    rw [Bool.eq_iff_iff, Bool.not_eq_true', ← Bool.not_eq_true, h,
      (OrientedCmp.eq_swap : cmp b a = _)]
    cases cmp a b <;> decide
  have hs : insertionSort before l =
      l.foldl (fun top a => top.orderedInsert (fun a b => !before b a) a) [] := List.foldr_reverse
  exact hs.trans (congrArg (fun f : Entry → Entry → Bool =>
    l.foldl (fun top a => top.orderedInsert (fun a b => f a b) a) []) hr)

-- An engine for which strings only have characters of one byte.
def Engine.reference : Engine where
  toDouble    := .integers
  utf8        := List.map (·.toUInt8)
  sort        := insertionSort
  utf8_ascii bytes _ := by simp [Function.comp_def]
  sort_perm _ l := (List.perm_insertionSort _ _).trans l.reverse_perm
  sort_sorted cmp _ h hd := by
    rw [insertionSort_eq h]
    exact (Selection.isRanking_foldl_insert hd).sorted.imp (h _ _).mpr

structure Ring where
  nodes          : List Str
  nodeHashHi     : List Int
  nodeHashLo     : List Int
  namespaceState : Option (Bytes × Parts)

variable (engine : Engine)

open Js

-- The `seen` nodes are left out.
def dedupe : List Str → (seen : List Str) → List Str
  | [], _ => []
  | node :: nodes, seen =>
    if node ∈ seen then dedupe nodes seen
    else node :: dedupe nodes (node :: seen)

-- A typed array takes its elements modulo a word.
def uint32 (x : Int) : Int := ushr x 0

def Ring.new (nodes : List Str) : Ring :=
  let deduped := dedupe nodes []
  { nodes          := deduped
    nodeHashHi     := deduped.map fun node =>
      uint32 (engine.round (fnv1aBig (engine.utf8 node) >>> 32 : Nat))
    nodeHashLo     := deduped.map fun node =>
      uint32 (engine.round (fnv1aBig (engine.utf8 node) &&& 0xffffffff : Nat))
    namespaceState := none }

namespace Ring

variable (ring : Ring)

def scored (key : Parts) : List Entry :=
  ((ring.nodeHashHi.zip ring.nodeHashLo).zip ring.nodes).map fun ((hi, lo), node) =>
    let parts := scoreParts engine.toDouble (lxor hi key.hi) (lxor lo key.lo)
    ⟨parts.hi, parts.lo, node⟩

def fullSort (key : Parts) (replicas : Nat) : List Str :=
  ((engine.sort outranks (ring.scored engine key)).take replicas).map (·.node)

-- The arrays of the best candidates, of which the first `kept` are filled.
structure Top where
  entries : List Entry
  kept    : Nat

-- The place of a candidate, looked for from the end.
def position (entry : Entry) (entries : List Entry) : Nat → Nat
  | 0 => 0
  | pos + 1 =>
    if outranks entry (entries.getD pos ⟨0, 0, []⟩) then position entry entries pos else pos + 1

-- Moves the entries from `pos` on up by one, the last of them to `j`.
def shift (pos : Nat) : (j : Nat) → List Entry → List Entry
  | 0, entries => entries
  | j + 1, entries =>
    if j + 1 > pos then shift pos j (entries.set (j + 1) (entries.getD j ⟨0, 0, []⟩)) else entries

def Top.insert (replicas : Nat) (top : Top) (entry : Entry) : Top :=
  if top.kept = replicas ∧ ¬outranks entry (top.entries.getD (top.kept - 1) ⟨0, 0, []⟩) then top
  else
    let pos := position entry top.entries top.kept
    let kept := if top.kept < replicas then top.kept + 1 else top.kept
    { entries := (shift pos (kept - 1) top.entries).set pos
        ⟨uint32 entry.hi, uint32 entry.lo, entry.node⟩
      kept    := kept }

def boundedInsertion (key : Parts) (replicas : Nat) : List Str :=
  let top := (ring.scored engine key).foldl (Top.insert replicas)
    ⟨List.replicate replicas ⟨0, 0, []⟩, 0⟩
  (top.entries.take top.kept).map (·.node)

def maxBoundedSelection : Nat := 32

-- The namespace's share of the hash, from the cache if it is of the last namespace.
def hashNamespace (ns : Bytes) : Parts × Ring :=
  let fresh := namespaceParts engine.toDouble ns
  match ring.namespaceState with
  | some (cached, parts) =>
    if cached.length = ns.length ∧ cached = ns then (parts, ring)
    else (fresh, { ring with namespaceState := some (ns, fresh) })
  | none => (fresh, { ring with namespaceState := some (ns, fresh) })

def owners (key : Bytes) (replicas : Nat) (ns : Bytes) : List Str × Ring :=
  if ring.nodes.length = 0 ∨ replicas = 0 then ([], ring)
  else
    let (parts, ring) := ring.hashNamespace engine ns
    let key := feedParts engine.toDouble parts key
    if replicas > maxBoundedSelection then (ring.fullSort engine key replicas, ring)
    else (ring.boundedInsertion engine key replicas, ring)

-- The rings which calls make of a new one.
inductive Reachable (nodes : List Str) : Ring → Prop
  | new : Reachable nodes (Ring.new engine nodes)
  | call {ring' : Ring} (key : Bytes) (replicas : Nat) (ns : Bytes) :
    Reachable nodes ring' → Reachable nodes (ring'.owners engine key replicas ns).2

end Ring
end TypeScript
end Nanocached
