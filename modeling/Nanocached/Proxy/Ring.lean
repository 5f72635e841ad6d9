import Nanocached.HashRing.Theorems
import Nanocached.Lib.Selection

open Std

namespace Nanocached.Proxy

def fnv1aContinue (hash : UInt64) (bytes : Bytes) : UInt64 :=
  bytes.foldl (fun hash byte => (hash ^^^ byte.toUInt64) * 0x100000001b3) hash

def fnv1a (bytes : Bytes) : UInt64 :=
  fnv1aContinue 0xcbf29ce484222325 bytes

def fmix64 (hash : UInt64) : UInt64 :=
  let hash := hash ^^^ hash >>> 33
  let hash := hash * 0xff51afd7ed558ccd
  let hash := hash ^^^ hash >>> 33
  let hash := hash * 0xc4ceb9fe1a85ec53
  hash ^^^ hash >>> 33

def NamespaceHash.of (ns : Bytes) : Option UInt64 :=
  if ns.isEmpty then some 0xcbf29ce484222325
  else if ns.length < 2 ^ 32 then
    some (fnv1aContinue (fnv1a (be32 (.ofNat ns.length))) ns)
  else none

def NamespaceHash.key (nsHash : UInt64) (key : Bytes) : UInt64 :=
  fnv1aContinue nsHash key

theorem NamespaceHash.of_eq (ns : Bytes) : NamespaceHash.of ns = namespaceState ns :=
  rfl

-- The members of a roster with their addresses. A view is only ever made by `RingView.new`.
structure RingView where
  nodes       : List (Bytes × Bytes)
  nodeHashes  : List UInt64
  addrSlot    : List Nat
  replication : Nat
  hashed      : nodeHashes = nodes.map fun node => fnv1a node.1
  slotted     : addrSlot = nodes.map fun node => nodes.findIdx (·.2 == node.2)

namespace RingView

def new (nodes : List (Bytes × Bytes)) (replication : Nat) : RingView where
  nodes       := nodes
  nodeHashes  := nodes.map fun node => fnv1a node.1
  addrSlot    := nodes.map fun node => nodes.findIdx (·.2 == node.2)
  replication := replication
  hashed      := rfl
  slotted     := rfl

variable (view : RingView)

-- Indexes always are those of nodes.
def nodeAt (index : Nat) : Bytes × Bytes :=
  view.nodes.getD index ([], [])

def outranks (a b : UInt64 × Nat) : Bool :=
  a.1 > b.1 || (a.1 == b.1 && (view.nodeAt a.2).1 < (view.nodeAt b.2).1)

def byOutranks (a b : UInt64 × Nat) : Ordering :=
  if view.outranks a b then .lt
  else if view.outranks b a then .gt
  else .eq

def scores (keyHash : UInt64) : List (UInt64 × Nat) :=
  view.nodeHashes.zipIdx.map fun (nodeHash, index) => (fmix64 (nodeHash ^^^ keyHash), index)

-- The elements before the first one that does not satisfy the predicate.
def partitionPoint {α} (p : α → Bool) (l : List α) : Nat :=
  (l.takeWhile p).length

-- Inserts a candidate into the best ones so far, of which at most `limit` are kept.
def insertOwner (limit : Nat) (top : List (UInt64 × Nat)) (candidate : UInt64 × Nat) :
    List (UInt64 × Nat) :=
  if top.length == limit && !(top[limit - 1]?.any (view.outranks candidate)) then top
  else
    let position := partitionPoint (view.outranks · candidate) top
    let top := if top.length == limit then top.dropLast else top
    top.insertIdx position candidate

def rankOwners (std : UnstableSort view.byOutranks) (nsHash : UInt64) (key : Bytes) (limit : Nat) :
    List (UInt64 × Nat) :=
  let limit := min (min limit view.replication) view.nodes.length
  if limit = 0 then []
  else
    let keyHash := NamespaceHash.key nsHash key
    if limit > 8 then (std.sort (view.scores keyHash)).take limit
    else (view.scores keyHash).foldl (view.insertOwner limit) []

def owners (std : UnstableSort view.byOutranks) (key : Key) : Option (List Bytes) :=
  (NamespaceHash.of key.ns).map fun nsHash =>
    (view.rankOwners std nsHash key.name view.replication).map fun (_, index) =>
      (view.nodeAt index).2

section Ranking

variable {view} {a b candidate : UInt64 × Nat} {before after ranked : List (UInt64 × Nat)}
variable {keyHash : UInt64} {limit : Nat}

-- The order is that of the scores and names.
def named (view : RingView) (entry : UInt64 × Nat) : UInt64 × Bytes :=
  (entry.1, (view.nodeAt entry.2).1)

theorem outranks_iff : view.outranks a b ↔ byScore (view.named a) (view.named b) = .lt := by
  simp [outranks, byScore, named, Ordering.then_eq_lt, compare_eq_lt, List.compare_eq_lt_iff,
    eq_comm (a := b.1)]

theorem byOutranks_eq : view.byOutranks a b = byScore (view.named a) (view.named b) := by
  rw [byOutranks]
  cases hc : byScore (view.named a) (view.named b)
  case lt => rw [if_pos (outranks_iff.mpr hc)]
  case eq =>
    have hc' : byScore (view.named b) (view.named a) = .eq := OrientedCmp.eq_symm hc
    rw [if_neg (by simp [outranks_iff, hc]), if_neg (by simp [outranks_iff, hc'])]
  case gt =>
    rw [if_neg (by simp [outranks_iff, hc]), if_pos (outranks_iff.mpr (OrientedCmp.lt_of_gt hc))]

theorem outranks_eq_true : view.outranks a b = true ↔ view.byOutranks a b = .lt := by
  rw [outranks_iff, byOutranks_eq]

instance : TransCmp view.byOutranks where
  eq_swap {a b}    := by
    rw [byOutranks_eq, byOutranks_eq, (OrientedCmp.eq_swap : byScore (view.named a) _ = _)]
  isLE_trans h₁ h₂ := by
    rw [byOutranks_eq] at h₁ h₂ ⊢
    exact TransCmp.isLE_trans h₁ h₂

theorem not_outranks (h : view.byOutranks a b = .lt) : view.outranks b a = false := by
  rw [← Bool.not_eq_true, outranks_eq_true]
  exact IsRanking.asymm h

theorem insertOwner_append (hl : (before ++ after).length ≤ limit) (hp : 0 < limit)
    (hb : ∀ b ∈ before, view.byOutranks b candidate = .lt)
    (ha : ∀ b ∈ after, view.byOutranks candidate b = .lt) :
    view.insertOwner limit (before ++ after) candidate =
      (before ++ candidate :: after).take limit := by
  have hpos : partitionPoint (view.outranks · candidate) (before ++ after) = before.length := by
    rw [partitionPoint, List.takeWhile_append_of_pos fun b hm => outranks_eq_true.mpr (hb b hm)]
    cases after
    case nil => rw [List.takeWhile_nil, List.append_nil]
    case cons b after =>
      rw [List.takeWhile_cons_of_neg (by simp [not_outranks (ha b (.head _))]), List.append_nil]
  rw [insertOwner, hpos]
  rcases Nat.lt_or_ge (before ++ after).length limit with hlt | hge
  case inl =>
    have hn : ((before ++ after).length == limit) = false := by simpa using hlt.ne
    rw [hn, Bool.false_and, if_neg (by decide), if_neg (by decide), List.insertIdx_append,
      List.take_of_length_le (by simp at hlt ⊢; omega)]
  case inr =>
    have he : (before ++ after).length = limit := Nat.le_antisymm hl hge
    rcases List.eq_nil_or_concat after with rfl | ⟨after, last, rfl⟩
    case inl =>
      -- All the kept ones outrank the candidate.
      rw [List.append_nil] at he ⊢
      obtain ⟨before, last, rfl⟩ := (List.eq_nil_or_concat before).resolve_left fun hn => by
        rw [hn] at he
        exact absurd he hp.ne
      have hlast : (before.concat last)[limit - 1]? = some last := by
        rw [← he]
        simp
      have hno : view.outranks candidate last = false := not_outranks (hb last (by simp))
      rw [hlast, if_pos (by simpa [hno] using he), List.take_left' he]
    case inr =>
      -- The worst of the kept ones makes room.
      have hlast : (before ++ after.concat last)[limit - 1]? = some last := by
        rw [← he]
        simp
      have hout := outranks_eq_true.mpr (ha last (by simp))
      have hl' : (before ++ candidate :: after).length = limit := by
        rw [← he]
        simp
      rw [hlast, if_neg (by simp [hout]), if_pos (by simpa using he), List.concat_eq_append,
        ← List.append_assoc, List.dropLast_concat, List.insertIdx_append, ← List.cons_append,
        ← List.append_assoc, List.take_left' hl']

theorem scores_eq : view.scores keyHash =
    view.nodes.zipIdx.map fun node => (HashRing.score keyHash node.1.1, node.2) := by
  rw [scores, view.hashed, List.zipIdx_map, List.map_map]
  rfl

theorem nodeAt_of_mem {node : (Bytes × Bytes) × Nat} (hm : node ∈ view.nodes.zipIdx) :
    view.nodeAt node.2 = node.1 := by
  rw [nodeAt, List.getD_eq_getElem?_getD, List.mem_zipIdx_iff_getElem?.mp hm]
  rfl

theorem map_scores (view : RingView) (keyHash : UInt64) :
    (view.scores keyHash).map (fun entry => view.nodeAt entry.2) = view.nodes := by
  rw [scores_eq, List.map_map]
  exact (List.map_congr_left fun node hm => nodeAt_of_mem hm).trans (List.zipIdx_map_fst 0 _)

theorem score_of_mem (hm : a ∈ view.scores keyHash) :
    a.1 = HashRing.score keyHash (view.nodeAt a.2).1 := by
  rw [scores_eq] at hm
  obtain ⟨node, hz, rfl⟩ := List.mem_map.mp hm
  rw [nodeAt_of_mem hz]

theorem named_of_mem (hm : a ∈ view.scores keyHash) :
    view.named a = (HashRing.score keyHash (view.nodeAt a.2).1, (view.nodeAt a.2).1) := by
  rw [named, score_of_mem hm]

-- No two members rank equal.
theorem distinct_scores (hn : (view.nodes.map Prod.fst).Nodup) :
    (view.scores keyHash).Pairwise (view.byOutranks · · ≠ .eq) := by
  rw [← map_scores view keyHash, List.map_map, List.Nodup, List.pairwise_map] at hn
  refine hn.imp fun hne he => hne ?_
  rw [byOutranks_eq] at he
  exact congrArg Prod.snd (LawfulEqCmp.eq_of_compare he)

theorem exists_ranking (view : RingView) (hn : (view.nodes.map Prod.fst).Nodup)
    (keyHash : UInt64) : ∃ ranked, IsRanking view.byOutranks (view.scores keyHash) ranked :=
  ⟨_, Selection.isRanking_foldl_insert (distinct_scores hn)⟩

-- The ranking of the members is that of their names.
theorem isRanking_names (h : IsRanking view.byOutranks (view.scores keyHash) ranked) :
    IsRanking (HashRing.byRank keyHash) (view.nodes.map Prod.fst)
      (ranked.map fun entry => (view.nodeAt entry.2).1) where
  mem    := by
    intro name
    rw [← map_scores view keyHash, List.map_map]
    simp only [List.mem_map, h.mem]
    rfl
  sorted := by
    refine List.pairwise_map.mpr (h.sorted.imp_of_mem fun ha hb hlt => ?_)
    rw [byOutranks_eq, named_of_mem (h.mem.mp ha), named_of_mem (h.mem.mp hb)] at hlt
    exact hlt

theorem length_ranked (hn : (view.nodes.map Prod.fst).Nodup)
    (h : IsRanking view.byOutranks (view.scores keyHash) ranked) :
    ranked.length = view.nodes.length := by
  simpa using (isRanking_names h).length_eq hn

theorem isRanking_sort (std : UnstableSort view.byOutranks)
    (hn : (view.nodes.map Prod.fst).Nodup) :
    IsRanking view.byOutranks (view.scores keyHash) (std.sort (view.scores keyHash)) where
  mem    := (std.sort_perm _).mem_iff
  sorted := by
    have hd : (view.scores keyHash).Pairwise (view.byOutranks · · ≠ .eq) := distinct_scores hn
    have hd := (std.sort_perm _).symm.pairwise hd fun h he => h (OrientedCmp.eq_symm he)
    refine (std.sort_sorted _).imp₂ (fun _ _ hle hne => ?_) hd
    exact (Ordering.isLE_iff_eq_lt_or_eq_eq.mp hle).resolve_right hne

-- Both ways to select the owners start the ranking.
theorem rankOwners_eq_take (std : UnstableSort view.byOutranks)
    (hn : (view.nodes.map Prod.fst).Nodup) {nsHash : UInt64} {key : Bytes}
    (h : IsRanking view.byOutranks (view.scores (NamespaceHash.key nsHash key)) ranked) :
    view.rankOwners std nsHash key limit = ranked.take (min limit view.replication) := by
  have hl := length_ranked hn h
  have ht : ranked.take (min limit view.replication) =
      ranked.take (min (min limit view.replication) view.nodes.length) := by
    rw [List.take_eq_take_iff, hl]
    omega
  rw [ht, rankOwners]
  generalize min (min limit view.replication) view.nodes.length = limit
  dsimp only
  split
  case isTrue h₀ => rw [h₀, List.take_zero]
  case isFalse h₀ =>
    split
    case isTrue => rw [h.unique (isRanking_sort std hn) fun _ => Iff.rfl]
    case isFalse =>
      refine Selection.foldl_eq_take id (fun _ => True) (distinct_scores hn) h ?_ trivial rfl
      rintro _ before after candidate - - rfl hl hb ha
      exact ⟨trivial, insertOwner_append hl (Nat.pos_of_ne_zero h₀) hb ha⟩

end Ranking

end RingView
end Nanocached.Proxy
