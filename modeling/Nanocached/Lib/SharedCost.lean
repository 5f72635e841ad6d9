import Mathlib

-- The cost of a bag of items. Every item has a cost of its own, and may refer to something that is
-- paid for once no matter how many items refer to it.

namespace SharedCost

variable {α κ : Type*} [DecidableEq κ] {own : α → ℕ} {shared : α → Option κ} {size : κ → ℕ}
variable {m n : Multiset α} {a : α} {k : κ}

def cost (own : α → ℕ) (shared : α → Option κ) (size : κ → ℕ) (m : Multiset α) : ℕ :=
  (m.map own).sum + ∑ k ∈ (m.filterMap shared).toFinset, size k

@[simp]
theorem cost_zero : cost own shared size 0 = 0 := by
  simp [cost]

theorem cost_cons_of_none (h : shared a = none) :
    cost own shared size (a ::ₘ m) = own a + cost own shared size m := by
  simp [cost, Multiset.filterMap_cons_none _ _ h, Nat.add_assoc]

theorem cost_cons_of_mem (h : shared a = some k) (hm : k ∈ m.filterMap shared) :
    cost own shared size (a ::ₘ m) = own a + cost own shared size m := by
  simp only [cost, Multiset.map_cons, Multiset.sum_cons, Multiset.filterMap_cons_some _ _ _ h,
    Multiset.toFinset_cons, Finset.insert_eq_of_mem (Multiset.mem_toFinset.mpr hm), Nat.add_assoc]

theorem cost_cons_of_notMem (h : shared a = some k) (hm : k ∉ m.filterMap shared) :
    cost own shared size (a ::ₘ m) = own a + size k + cost own shared size m := by
  simp only [cost, Multiset.map_cons, Multiset.sum_cons, Multiset.filterMap_cons_some _ _ _ h,
    Multiset.toFinset_cons, Finset.sum_insert (mt Multiset.mem_toFinset.mp hm)]
  omega

theorem cost_add_le :
    cost own shared size (m + n) ≤ cost own shared size m + cost own shared size n := by
  have hu : ∑ k ∈ ((m + n).filterMap shared).toFinset, size k ≤
      ∑ k ∈ (m.filterMap shared).toFinset, size k + ∑ k ∈ (n.filterMap shared).toFinset, size k := by
    rw [Multiset.filterMap_add, Multiset.toFinset_add]
    exact (Nat.le_add_right _ _).trans Finset.sum_union_inter.le
  simp only [cost, Multiset.map_add, Multiset.sum_add]
  omega

theorem cost_mono (h : m ≤ n) : cost own shared size m ≤ cost own shared size n := by
  obtain ⟨l, rfl⟩ := Multiset.le_iff_exists_add.mp h
  have hs : (m.filterMap shared).toFinset ⊆ ((m + l).filterMap shared).toFinset := by
    rw [Multiset.filterMap_add, Multiset.toFinset_add]
    exact Finset.subset_union_left
  have := Finset.sum_le_sum_of_subset (f := size) hs
  simp only [cost, Multiset.map_add, Multiset.sum_add]
  omega

theorem own_le_cost (h : a ∈ m) : own a ≤ cost own shared size m :=
  (Multiset.single_le_sum (fun _ _ => Nat.zero_le _) _ (Multiset.mem_map_of_mem own h)).trans
    (Nat.le_add_right ..)

-- What is left to pay when some things are paid for already.
def costFrom (own : α → ℕ) (shared : α → Option κ) (size : κ → ℕ) (paid : Finset κ)
    (m : Multiset α) : ℕ :=
  (m.map own).sum + ∑ k ∈ (m.filterMap shared).toFinset \ paid, size k

variable {paid : Finset κ}

theorem costFrom_empty : costFrom own shared size ∅ m = cost own shared size m := by
  simp [costFrom, cost]

theorem costFrom_cons_of_none (h : shared a = none) :
    costFrom own shared size paid (a ::ₘ m) = own a + costFrom own shared size paid m := by
  simp [costFrom, Multiset.filterMap_cons_none _ _ h, Nat.add_assoc]

theorem costFrom_cons_of_mem (h : shared a = some k) (hp : k ∈ paid) :
    costFrom own shared size paid (a ::ₘ m) = own a + costFrom own shared size paid m := by
  simp only [costFrom, Multiset.map_cons, Multiset.sum_cons, Multiset.filterMap_cons_some _ _ _ h,
    Multiset.toFinset_cons, Finset.insert_sdiff_of_mem _ hp, Nat.add_assoc]

theorem costFrom_cons_of_notMem (h : shared a = some k) (hp : k ∉ paid) :
    costFrom own shared size paid (a ::ₘ m) =
      own a + size k + costFrom own shared size (insert k paid) m := by
  have hs : insert k (m.filterMap shared).toFinset \ paid =
      insert k ((m.filterMap shared).toFinset \ insert k paid) := by
    ext k'
    by_cases he : k' = k
    case pos => simp [he, hp]
    case neg => simp [he]
  have hk : k ∉ (m.filterMap shared).toFinset \ insert k paid := by simp
  simp only [costFrom, Multiset.map_cons, Multiset.sum_cons, Multiset.filterMap_cons_some _ _ _ h,
    Multiset.toFinset_cons, hs, Finset.sum_insert hk]
  omega

end SharedCost
