import Nanocached.HashRing.Theorems

namespace Nanocached.HashRing

variable {ring ring' : HashRing} {ranked : List Bytes} {keyHash : UInt64} {a b d : Bytes}
         {replicas : Nat}

theorem owns_iff (h : IsRanking (byRank keyHash) ring.nodes ranked) :
    ring.owns keyHash a replicas ↔ a ∈ ranked.take replicas := by
  simp [owns, isOwnerHashed_eq h]

-- Ownership depends on the set of the nodes only.
theorem owns_congr (h : ∀ node, node ∈ ring.nodes ↔ node ∈ ring'.nodes) :
    ring.owns keyHash a replicas = ring'.owns keyHash a replicas := by
  have ⟨ranked, hr⟩ := ring.exists_ranking keyHash
  have ⟨ranked', hr'⟩ := ring'.exists_ranking keyHash
  rw [Bool.eq_iff_iff, owns_iff hr, owns_iff hr', hr.unique hr' h]

theorem mem_nodes_of_owns (h : ring.owns keyHash a replicas) : a ∈ ring.nodes := by
  have ⟨ranked, hr⟩ := ring.exists_ranking keyHash
  exact hr.mem.mp (List.mem_of_mem_take ((owns_iff hr).mp h))

theorem owns_zero : ring.owns keyHash a 0 = false :=
  rfl

theorem owns_mono {n : Nat} (h : ring.owns keyHash a n) (hn : n ≤ replicas) :
    ring.owns keyHash a replicas := by
  have ⟨ranked, hr⟩ := ring.exists_ranking keyHash
  exact (owns_iff hr).mpr ((List.take_sublist_take_left hn).subset ((owns_iff hr).mp h))

-- There is one primary.
theorem owns_one_unique (ha : ring.owns keyHash a 1) (hb : ring.owns keyHash b 1) : a = b := by
  have ⟨ranked, hr⟩ := ring.exists_ranking keyHash
  rw [owns_iff hr] at ha hb
  cases ranked
  case nil => contradiction
  case cons => rw [List.mem_singleton.mp ha, List.mem_singleton.mp hb]

-- A node joins, or leaves the other way around.
structure Joins (d : Bytes) (ring ring' : HashRing) : Prop where
  new : d ∉ ring.nodes
  mem : ∀ node, node ∈ ring'.nodes ↔ node = d ∨ node ∈ ring.nodes

namespace Joins

theorem exists_ranking (h : Joins d ring ring') (keyHash : UInt64) :
    ∃ ranked, IsRanking (byRank keyHash) ring'.nodes ranked ∧
      IsRanking (byRank keyHash) ring.nodes (ranked.erase d) := by
  have ⟨ranked, hr⟩ := ring'.exists_ranking keyHash
  refine ⟨ranked, hr, hr.erase hr.nodup fun node => ?_⟩
  rw [h.mem]
  exact ⟨fun hm => ⟨fun he => h.new (he ▸ hm), .inr hm⟩, fun hm => hm.right.resolve_left hm.left⟩

-- A node that does not own the key does not change who does.
theorem owns_eq (h : Joins d ring ring') (hd : ring'.owns keyHash d replicas = false) :
    ring'.owns keyHash a replicas = ring.owns keyHash a replicas := by
  have ⟨ranked, hr', hr⟩ := h.exists_ranking keyHash
  have hd : d ∉ ranked.take replicas := fun hm => by simp [(owns_iff hr').mpr hm] at hd
  rw [Bool.eq_iff_iff, owns_iff hr, owns_iff hr', List.take_erase_of_not_mem hd]

-- An owner from before is pushed back by at most one place.
theorem owns_eq_succ (h : Joins d ring ring') (hd : ring'.owns keyHash d replicas) (hn : a ≠ d) :
    ring.owns keyHash a replicas = ring'.owns keyHash a (replicas + 1) := by
  obtain ⟨ranked, hr', hr⟩ := h.exists_ranking keyHash
  rw [owns_iff hr'] at hd
  rw [Bool.eq_iff_iff, owns_iff hr, owns_iff hr', List.take_add_one, List.mem_append,
    (List.take_erase_of_mem hr'.nodup hd).right, List.mem_append, List.mem_erase_of_ne hn]

end Joins
end Nanocached.HashRing
