import Nanocached.HashRing.Basic

open Std

namespace Nanocached

instance : TransCmp fun a b : UInt64 × Bytes => compare b.1 a.1 :=
  (TransCmp.opposite : TransCmp fun a b : UInt64 × Bytes => compareOn Prod.fst b a)

instance : TransCmp byScore :=
  inferInstanceAs <| TransCmp <|
    compareLex (fun a b : UInt64 × Bytes => compare b.1 a.1) (compareOn Prod.snd)

instance : LawfulEqCmp byScore where
  eq_of_compare h :=
    have ⟨h₁, h₂⟩ := Ordering.then_eq_eq.mp h
    Prod.ext (LawfulEqOrd.compare_eq_iff_eq.mp h₁).symm (LawfulEqOrd.compare_eq_iff_eq.mp h₂)

namespace HashRing

def score (keyHash : UInt64) (node : Bytes) : UInt64 :=
  fmix64 (fnv1a node ^^^ keyHash)

-- The node comes before the other one in the ranking of a key.
def Outranks (keyHash : UInt64) (a b : Bytes) : Prop :=
  score keyHash a > score keyHash b ∨ (score keyHash a = score keyHash b ∧ a < b)

instance {keyHash : UInt64} {a b : Bytes} : Decidable (Outranks keyHash a b) :=
  inferInstanceAs (Decidable (_ ∨ _))

def byRank (keyHash : UInt64) (a b : Bytes) : Ordering :=
  byScore (score keyHash a, a) (score keyHash b, b)

variable {keyHash : UInt64} {a b name : Bytes} {ring ring' : HashRing} {ranked : List Bytes}
variable {std std' : UnstableSort byScore} {replicas : Nat}

instance : TransCmp (byRank keyHash) where
  eq_swap {_ _}    := (OrientedCmp.eq_swap : byScore _ _ = _)
  isLE_trans h₁ h₂ := (TransCmp.isLE_trans h₁ h₂ : (byScore _ _).isLE)

instance : LawfulEqCmp (byRank keyHash) where
  eq_of_compare h := (Prod.mk.inj (LawfulEqCmp.eq_of_compare h)).right

theorem byRank_eq_lt_iff : byRank keyHash a b = .lt ↔ Outranks keyHash a b := by
  rw [byRank, byScore, Ordering.then_eq_lt, compare_eq_lt, LawfulEqOrd.compare_eq_iff_eq,
    List.compare_eq_lt_iff, Outranks, eq_comm (a := score keyHash b)]

theorem zip_eq : ring.nodeHashes.zip ring.nodes = ring.nodes.map fun node => (fnv1a node, node) := by
  rw [ring.hashed]
  have hz : (ring.nodes.map fnv1a).zip (ring.nodes.map id) = _ := List.zip_map'
  simpa using hz

theorem scored_eq : ring.scored keyHash = ring.nodes.map fun node => (score keyHash node, node) := by
  rw [scored, zip_eq, List.map_map]
  rfl

theorem exists_ranking (ring : HashRing) (keyHash : UInt64) :
    ∃ ranked, IsRanking (byRank keyHash) ring.nodes ranked :=
  ⟨_, .sort (.mergeSort _) ring.nodup⟩

theorem isRanking_scored (h : IsRanking (byRank keyHash) ring.nodes ranked) :
    IsRanking byScore (ring.scored keyHash) (ranked.map fun node => (score keyHash node, node)) where
  mem    := by simp [scored_eq, h.mem]
  sorted := List.pairwise_map.mpr h.sorted

theorem nodup_scored (ring : HashRing) (keyHash : UInt64) : (ring.scored keyHash).Nodup := by
  rw [scored_eq]
  exact ring.nodup.map fun _ _ he => (Prod.mk.inj he).right

-- The owners are the highest-ranked nodes.
theorem ownersHashed_eq_take (std : UnstableSort byScore)
    (h : IsRanking (byRank keyHash) ring.nodes ranked) (replicas : Nat) :
    ring.ownersHashed std keyHash replicas = ranked.take replicas := by
  have hr := isRanking_scored h
  have hn := nodup_scored ring keyHash
  have hl := hr.length_eq hn
  have ht : ranked.take replicas =
      ((ranked.map fun node => (score keyHash node, node)).take replicas).map (·.2) := by
    simp [List.map_take, Function.comp_def]
  rw [ownersHashed, ht]
  refine congrArg _ ?_
  generalize (ranked.map fun node => (score keyHash node, node)) = rankedScores at hr hl ⊢
  generalize ring.scored keyHash = scores at hr hn hl ⊢
  split
  case isTrue hc =>
    obtain ⟨k, rfl⟩ : ∃ k, replicas = k + 1 := ⟨replicas - 1, by omega⟩
    rw [show min (k + 1) scores.length = k + 1 by omega, Nat.add_sub_cancel,
      hr.sort_take_select std hn (by omega)]
  case isFalse hc =>
    rcases Nat.lt_or_ge replicas scores.length with hlt | hge
    case inl =>
      obtain rfl : replicas = 0 := by omega
      exact List.Perm.eq_nil (std.sort_perm _)
    case inr =>
      rw [Nat.min_eq_right hge, List.take_length, List.take_of_length_le (by omega)]
      exact (IsRanking.sort std hn).unique hr fun _ => Iff.rfl

theorem isOwnerGo_eq (nodes : List Bytes) {betterRanked : Nat} (hb : betterRanked < replicas) :
    isOwnerGo keyHash name (score keyHash name) replicas (nodes.map fun n => (fnv1a n, n))
      betterRanked =
    decide (betterRanked + nodes.countP (fun n => byRank keyHash n name = .lt) < replicas) := by
  induction nodes generalizing betterRanked
  case nil => simpa [isOwnerGo] using hb
  case cons node nodes hi =>
    rw [List.map_cons, isOwnerGo]
    split
    case isTrue hn =>
      subst hn
      have hs : byRank keyHash node node ≠ .lt := fun he => (IsRanking.ne_of_lt he : node ≠ node) rfl
      rw [hi hb, List.countP_cons_of_neg (by simpa using hs)]
    case isFalse =>
      change (if Outranks keyHash node name then _ else _) = _
      by_cases ho : Outranks keyHash node name
      case pos =>
        rw [if_pos ho]
        have ho := byRank_eq_lt_iff.mpr ho
        rw [List.countP_cons_of_pos (by simpa using ho)]
        split
        case isTrue hc  => exact (decide_eq_false (by omega)).symm
        case isFalse hc => rw [hi (by omega), Nat.add_right_comm, Nat.add_assoc]
      case neg =>
        rw [if_neg ho]
        have ho := mt byRank_eq_lt_iff.mp ho
        rw [hi hb, List.countP_cons_of_neg (by simpa using ho)]

-- Counting the better-ranked nodes finds out the owners as well.
theorem isOwnerHashed_eq (h : IsRanking (byRank keyHash) ring.nodes ranked) (name : Bytes)
    (replicas : Nat) : ring.isOwnerHashed keyHash name replicas =
      some (decide (name ∈ ranked.take replicas)) := by
  rw [isOwnerHashed, zip_eq]
  split
  case isTrue hr =>
    subst hr
    rfl
  case isFalse hr =>
    have hm := h.mem_take_iff ring.nodup replicas (a := name)
    cases hi : ring.nodes.findIdx? (· == name)
    case none =>
      have hn : name ∉ ring.nodes := fun hm => by simpa using List.findIdx?_eq_none_iff.mp hi name hm
      simp [hm, hn]
    case some i =>
      have ⟨hlt, he, _⟩ := List.findIdx?_eq_some_iff_getElem.mp hi
      have he : ring.nodes[i] = name := by simpa using he
      have hname : ring.nodeHashes[i]? = some (fnv1a name) := by
        rw [ring.hashed, List.getElem?_map, List.getElem?_eq_getElem hlt, he]
        rfl
      have hmem : name ∈ ring.nodes := he ▸ List.getElem_mem hlt
      simp only [hname, Option.bind_eq_bind, Option.bind_some]
      change some (isOwnerGo keyHash name (score keyHash name) replicas _ 0) = _
      rw [isOwnerGo_eq ring.nodes (Nat.pos_of_ne_zero hr), Nat.zero_add]
      simp [hm, hmem]

theorem mem_nodes_new {nodes : List Bytes} : name ∈ (new nodes).nodes ↔ name ∈ nodes := by
  simp [new, mem_firstOccurrences]

theorem exists_ranking_new (nodes : List Bytes) (keyHash : UInt64) :
    ∃ ranked, IsRanking (byRank keyHash) (new nodes).nodes ranked ∧ ranked.Perm nodes.dedup := by
  have ⟨ranked, h⟩ := exists_ranking (new nodes) keyHash
  refine ⟨ranked, h, (List.perm_ext_iff_of_nodup h.nodup nodes.nodup_dedup).mpr fun node => ?_⟩
  rw [h.mem, mem_nodes_new, List.mem_dedup]

theorem ownersHashed_iff_isOwnerHashed (std : UnstableSort byScore) (nodes : List Bytes)
    (keyHash : UInt64) (replicas : Nat) :
    let owners := (new nodes).ownersHashed std keyHash replicas
    (∃ ranked : List Bytes, ranked.Perm nodes.dedup ∧ ranked.Pairwise (Outranks keyHash) ∧
      owners = ranked.take replicas) ∧
    owners.length = min replicas nodes.dedup.length ∧
    owners.Nodup ∧
    (∀ (std' : UnstableSort byScore) (nodes' : List Bytes), (∀ node, node ∈ nodes' ↔ node ∈ nodes) →
      (new nodes').ownersHashed std' keyHash replicas = owners) ∧
    ∀ name, (new nodes).isOwnerHashed keyHash name replicas = some (decide (name ∈ owners)) := by
  intro owners
  have ⟨ranked, h, hp⟩ := exists_ranking_new nodes keyHash
  have ho : owners = ranked.take replicas := ownersHashed_eq_take std h replicas
  refine ⟨⟨ranked, hp, h.sorted.imp byRank_eq_lt_iff.mp, ho⟩, ?_, ?_, fun std' nodes' hn => ?_, ?_⟩
  · rw [ho, List.length_take, hp.length_eq]
  · rw [ho]
    exact h.nodup.sublist (List.take_sublist ..)
  · have ⟨ranked', h', _⟩ := exists_ranking_new nodes' keyHash
    rw [ho, ownersHashed_eq_take std' h',
      h'.unique h fun node => by rw [mem_nodes_new, mem_nodes_new, hn]]
  · rw [ho]
    exact fun name => isOwnerHashed_eq h name replicas

-- The order of two owners is that of their scores, whatever other nodes there are.
theorem pair_sublist_ownersHashed (std : UnstableSort byScore) {nodes : List Bytes} :
    [a, b].Sublist ((new nodes).ownersHashed std keyHash replicas) ↔
      a ∈ (new nodes).ownersHashed std keyHash replicas ∧
      b ∈ (new nodes).ownersHashed std keyHash replicas ∧ Outranks keyHash a b := by
  have ⟨ranked, h, _⟩ := exists_ranking_new nodes keyHash
  have hs := h.sorted.sublist (List.take_sublist replicas ranked)
  rw [ownersHashed_eq_take std h, ← byRank_eq_lt_iff]
  constructor
  case mp =>
    intro hp
    exact ⟨hp.subset (by simp), hp.subset (by simp), by simpa using hs.sublist hp⟩
  case mpr => exact fun ⟨ha, hb, hlt⟩ => IsRanking.pair_sublist hs ha hb hlt

theorem exists_ranking_of_join {nodes nodes' : List Bytes} (hd : d ∉ nodes)
    (hn : ∀ node, node ∈ nodes' ↔ node = d ∨ node ∈ nodes) (keyHash : UInt64) :
    ∃ ranked, IsRanking (byRank keyHash) (new nodes').nodes ranked ∧
      IsRanking (byRank keyHash) (new nodes).nodes (ranked.erase d) := by
  have ⟨ranked, h, _⟩ := exists_ranking_new nodes' keyHash
  refine ⟨ranked, h, h.erase h.nodup fun node => ?_⟩
  simp only [mem_nodes_new, hn]
  exact ⟨fun hm => ⟨fun he => hd (he ▸ hm), .inr hm⟩, fun hm => hm.right.resolve_left hm.left⟩

-- How the owners change when a node joins or, the other way around, leaves. The ranking of the
-- smaller ring is that of the larger one without the node.
theorem ownersHashed_of_join (std : UnstableSort byScore) {nodes nodes' : List Bytes} {d : Bytes}
    (hd : d ∉ nodes) (hn : ∀ node, node ∈ nodes' ↔ node = d ∨ node ∈ nodes) (keyHash : UInt64)
    (replicas : Nat) :
    let owners := fun nodes replicas => (new nodes).ownersHashed std keyHash replicas
    let smaller := owners nodes replicas
    let larger := owners nodes' replicas
    larger.erase d <+: smaller ∧
    (∀ node ∈ smaller, node ∉ larger → d ∈ larger ∧ smaller[replicas - 1]? = some node) ∧
    smaller = larger.erase d ++
      (if d ∈ larger then (owners nodes' (replicas + 1))[replicas]?.toList else []) ∧
    ∀ {nodes₁ nodes₂ r₁ r₂ a b}, [a, b].Sublist (owners nodes₁ r₁) →
      a ∈ owners nodes₂ r₂ → b ∈ owners nodes₂ r₂ → [a, b].Sublist (owners nodes₂ r₂) := by
  intro owners smaller larger
  have ⟨ranked, h, he⟩ := exists_ranking_of_join hd hn keyHash
  have hs : smaller = (ranked.erase d).take replicas := ownersHashed_eq_take std he replicas
  have hl : larger = ranked.take replicas := ownersHashed_eq_take std h replicas
  have hp : (owners nodes' (replicas + 1))[replicas]? = ranked[replicas]? := by
    rw [show owners nodes' (replicas + 1) = _ from ownersHashed_eq_take std h _,
      List.getElem?_take_of_lt (Nat.lt_succ_self _)]
  have order : ∀ {nodes₁ nodes₂ r₁ r₂ a b}, [a, b].Sublist (owners nodes₁ r₁) →
      a ∈ owners nodes₂ r₂ → b ∈ owners nodes₂ r₂ → [a, b].Sublist (owners nodes₂ r₂) := by
    intro _ _ _ _ _ _ hs ha hb
    have ⟨_, _, ho⟩ := (pair_sublist_ownersHashed std).mp hs
    exact (pair_sublist_ownersHashed std).mpr ⟨ha, hb, ho⟩
  rw [hp]
  by_cases hm : d ∈ larger
  case neg =>
    have he : smaller = larger := by rw [hs, hl, List.take_erase_of_not_mem (hl ▸ hm)]
    rw [List.erase_of_not_mem hm, if_neg hm, List.append_nil]
    exact ⟨he ▸ List.prefix_refl _, fun node hmem hnot => absurd (he ▸ hmem) hnot, he, order⟩
  case pos =>
    have ⟨ht, happ⟩ := List.take_erase_of_mem h.nodup (hl ▸ hm)
    rw [← hl] at ht happ
    rw [← hs] at happ
    rw [if_pos hm]
    refine ⟨⟨_, happ.symm⟩, fun node hmem hnot => ⟨hm, ?_⟩, happ, order⟩
    rw [hs] at hmem ⊢
    refine List.getElem?_of_mem_take hmem fun hpre => ?_
    rw [← ht] at hpre
    exact hnot (List.mem_of_mem_erase hpre)

theorem ownersHashed_of_third_node :
    let owners := fun nodes => (new nodes).ownersHashed (UnstableSort.mergeSort byScore) 7 2
    (owners [[1], [2], [3]]).erase [3] <+: owners [[1], [2]] :=
  ownersHashed_of_join (.mergeSort byScore) (d := [3]) (by decide)
    (fun node => by simp only [List.mem_cons, List.not_mem_nil]; tauto) 7 2 |>.left

end HashRing
end Nanocached
