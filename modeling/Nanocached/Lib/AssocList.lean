import Mathlib

-- Facts about association lists with unique keys which Mathlib's `AList` does not have: sums over
-- the entries, membership of entries, replacing a value in place, and the entry at the back.
namespace AList

variable {κ : Type*} {ν : Type*} {M : Type*} [AddCommMonoid M]

-- The sum of `f` over all entries.
def sumBy (f : κ → ν → M) (s : AList fun _ : κ => ν) : M :=
  (s.entries.map fun p => f p.1 p.2).sum

def size (s : AList fun _ : κ => ν) : Nat :=
  s.entries.length

theorem sumBy_empty (f : κ → ν → M) : sumBy f (∅ : AList fun _ : κ => ν) = 0 :=
  rfl

theorem size_empty : size (∅ : AList fun _ : κ => ν) = 0 :=
  rfl

theorem size_eq_sumBy (s : AList fun _ : κ => ν) : s.size = sumBy (fun _ _ => 1) s := by
  simp [size, sumBy]

theorem sumBy_perm {f : κ → ν → M} {s₁ s₂ : AList fun _ : κ => ν}
    (h : s₁.entries.Perm s₂.entries) : sumBy f s₁ = sumBy f s₂ :=
  h.map _ |>.sum_eq

theorem sumBy_congr {f g : κ → ν → M} {s : AList fun _ : κ => ν}
    (h : ∀ p ∈ s.entries, f p.1 p.2 = g p.1 p.2) : sumBy f s = sumBy g s :=
  congrArg List.sum (List.map_congr_left h)

variable [DecidableEq κ] {s : AList fun _ : κ => ν} {k k' : κ} {v v' : ν}

theorem mem_entries : ⟨k, v⟩ ∈ s.entries ↔ s.lookup k = some v :=
  mem_lookup_iff.symm

theorem lookup_of_mem {p : Sigma fun _ : κ => ν} (h : p ∈ s.entries) : s.lookup p.1 = some p.2 :=
  mem_entries.mp h

theorem mem_of_lookup (h : s.lookup k = some v) : k ∈ s :=
  lookup_isSome.mp (by simp [h])

theorem exists_lookup_of_mem (h : k ∈ s) : ∃ v, s.lookup k = some v :=
  Option.isSome_iff_exists.mp (lookup_isSome.mpr h)

theorem lookup_insert_eq_ite : (s.insert k v).lookup k' = if k' = k then some v else s.lookup k' := by
  by_cases h : k' = k
  case pos => subst h; simp
  case neg => simp [h, lookup_insert_ne h]

theorem lookup_insert_eq_some : (s.insert k v).lookup k' = some v' ↔
    k' = k ∧ v = v' ∨ k' ≠ k ∧ s.lookup k' = some v' := by
  rw [lookup_insert_eq_ite]
  split <;> simp_all

-- What is true of the old entries and of the new one.
@[elab_as_elim]
theorem of_lookup_insert {p : κ → ν → Prop} (h : (s.insert k v).lookup k' = some v') (hv : p k v)
    (hs : s.lookup k' = some v' → p k' v') : p k' v' := by
  rcases lookup_insert_eq_some.mp h with ⟨rfl, rfl⟩ | ⟨-, h⟩
  · exact hv
  · exact hs h

theorem lookup_erase_eq_ite : (s.erase k).lookup k' = if k' = k then none else s.lookup k' := by
  by_cases h : k' = k
  case pos => subst h; simp
  case neg => simp [h, lookup_erase_ne h]

theorem lookup_erase_eq_some : (s.erase k).lookup k' = some v ↔ k' ≠ k ∧ s.lookup k' = some v := by
  rw [lookup_erase_eq_ite]
  split <;> simp_all

theorem erase_of_notMem (h : k ∉ s) : s.erase k = s :=
  ext <| List.kerase_of_notMem_keys h

theorem erase_insert_self : (s.insert k v).erase k = s.erase k := by
  apply ext
  show List.kerase k (⟨k, v⟩ :: List.kerase k s.entries) = List.kerase k s.entries
  exact List.kerase_cons_eq rfl

theorem insert_eq_insert_erase : s.insert k v = (s.erase k).insert k v := by
  apply ext
  simp only [entries_insert]
  congr 1
  show _ = List.kerase k (List.kerase k s.entries)
  exact (List.kerase_of_notMem_keys (List.notMem_keys_kerase k s.nodupKeys)).symm

theorem mem_entries_erase {p : Sigma fun _ : κ => ν} :
    p ∈ (s.erase k).entries ↔ p.1 ≠ k ∧ p ∈ s.entries := by
  have ⟨a, b⟩ := p
  simp only [mem_entries, lookup_erase_eq_ite]
  split <;> simp_all

theorem erase_entries_sublist : (s.erase k).entries.Sublist s.entries :=
  List.kerase_sublist k s.entries

theorem entries_perm_cons_erase (h : s.lookup k = some v) :
    s.entries.Perm (⟨k, v⟩ :: (s.erase k).entries) := by
  refine (List.perm_ext_iff_of_nodup s.nodupKeys.nodup ?_).mpr fun p => ?_
  · refine List.nodup_cons.mpr ⟨fun hm => ?_, (s.erase k).nodupKeys.nodup⟩
    exact (mem_entries_erase.mp hm).left rfl
  · rw [List.mem_cons, mem_entries_erase]
    have ⟨a, b⟩ := p
    by_cases he : a = k
    case pos => subst he; simp [mem_entries, h, eq_comm]
    case neg => simp [he]

theorem sumBy_insert (f : κ → ν → M) : sumBy f (s.insert k v) = f k v + sumBy f (s.erase k) := by
  simp [sumBy, entries_insert]; rfl

theorem sumBy_insert_of_notMem (f : κ → ν → M) (h : k ∉ s) :
    sumBy f (s.insert k v) = f k v + sumBy f s := by
  rw [sumBy_insert, erase_of_notMem h]

theorem sumBy_eq_add_erase (f : κ → ν → M) (h : s.lookup k = some v) :
    sumBy f s = f k v + sumBy f (s.erase k) := by
  have hp := (entries_perm_cons_erase h).map (fun p => f p.1 p.2) |>.sum_eq
  simpa [sumBy] using hp

-- For a sum which does not depend on the values, erasing needs no case distinction.
theorem sumBy_keys_erase (f : κ → M) :
    sumBy (fun k _ => f k) s = (if k ∈ s then f k else 0) + sumBy (fun k _ => f k) (s.erase k) := by
  split
  case isTrue h =>
    have ⟨_, hl⟩ := exists_lookup_of_mem h
    exact sumBy_eq_add_erase (fun k _ => f k) hl
  case isFalse h => simp [erase_of_notMem h]

theorem size_eq_add_erase : s.size = (if k ∈ s then 1 else 0) + (s.erase k).size := by
  simp only [size_eq_sumBy]
  exact sumBy_keys_erase (fun _ => 1)

theorem sumBy_insert_of_lookup (f : κ → ν → M) (v' : ν) (h : s.lookup k = some v) :
    f k v + sumBy f (s.insert k v') = f k v' + sumBy f s := by
  rw [sumBy_insert, sumBy_eq_add_erase f h]
  abel

theorem size_erase_of_lookup (h : s.lookup k = some v) : s.size = (s.erase k).size + 1 := by
  simpa [size] using (entries_perm_cons_erase h).length_eq

theorem size_insert_of_notMem (h : k ∉ s) : (s.insert k v).size = s.size + 1 := by
  rw [size, entries_insert_of_notMem h, List.length_cons, size]

theorem size_insert_of_lookup (h : s.lookup k = some v) : (s.insert k v').size = s.size := by
  rw [size_erase_of_lookup h]
  simp [size, entries_insert]; rfl

theorem size_le_of_lookup {s t : AList fun _ : κ => ν}
    (h : ∀ {k v}, s.lookup k = some v → t.lookup k = some v) : s.size ≤ t.size := by
  have hs : s.entries ⊆ t.entries := fun p hp => mem_entries.mpr (h (lookup_of_mem hp))
  exact (s.nodupKeys.nodup.subperm hs).length_le

theorem entries_eq_nil_iff : s.entries = [] ↔ ∀ k, s.lookup k = none := by
  constructor
  case mp =>
    intro h k
    rw [lookup_eq_none, mem_keys, keys, h]
    simp
  case mpr =>
    intro h
    refine List.eq_nil_iff_forall_not_mem.mpr fun p hp => ?_
    simpa [h p.1] using lookup_of_mem hp

theorem eq_of_mem_of_erase_eq_nil (h : (s.erase k).entries = []) (hm : k' ∈ s) : k' = k := by
  by_contra hn
  have hm : k' ∈ s.erase k := mem_erase.mpr ⟨hn, hm⟩
  exact lookup_eq_none.mp (entries_eq_nil_iff.mp h k') hm

theorem exists_lookup_of_size_pos (h : 0 < s.size) : ∃ k v, s.lookup k = some v := by
  have ⟨p, hp⟩ := List.exists_mem_of_length_pos h
  exact ⟨p.1, p.2, lookup_of_mem hp⟩

-- Replacing a value keeps the entry in its position.
theorem entries_replace (v' : ν) (h : s.lookup k = some v) : ∃ l₁ l₂,
    s.entries = l₁ ++ ⟨k, v⟩ :: l₂ ∧ (s.replace k v').entries = l₁ ++ ⟨k, v'⟩ :: l₂ := by
  have ⟨l, _⟩ := s
  simp only [lookup, replace] at *
  induction l
  case nil => simp at h
  case cons hd tl hi hn =>
    have ⟨a, b⟩ := hd
    by_cases he : k = a
    case pos =>
      subst he
      obtain rfl : b = v := by simpa using h
      exact ⟨[], tl, rfl, List.lookmap_cons_some _ _ (by simp)⟩
    case neg =>
      rw [List.dlookup_cons_ne _ _ he] at h
      have ⟨l₁, l₂, h₁, h₂⟩ := hi (List.nodupKeys_cons.mp hn |>.right) h
      refine ⟨⟨a, b⟩ :: l₁, l₂, by simp [h₁], ?_⟩
      rw [List.kreplace, List.lookmap_cons_none _ _ (by simp [he])]
      simpa [List.kreplace] using h₂

theorem entries_replace_ne_nil (h : s.lookup k = some v) : (s.replace k v').entries ≠ [] := by
  have ⟨l₁, l₂, _, h₂⟩ := entries_replace v' h
  simp [h₂]

theorem entries_replace_perm (v' : ν) (h : s.lookup k = some v) :
    (s.replace k v').entries.Perm (s.insert k v').entries := by
  have ⟨l₁, l₂, h₁, h₂⟩ := entries_replace v' h
  have hp := entries_perm_cons_erase h
  rw [h₁] at hp
  rw [h₂, entries_insert]
  refine List.perm_middle.trans (List.Perm.cons _ ?_)
  exact List.perm_cons _ |>.mp (List.perm_middle.symm.trans hp)

theorem lookup_replace_eq_ite (h : s.lookup k = some v) :
    (s.replace k v').lookup k' = if k' = k then some v' else s.lookup k' := by
  rw [perm_lookup (entries_replace_perm _ h), lookup_insert_eq_ite]

theorem sumBy_replace (f : κ → ν → M) (v' : ν) (h : s.lookup k = some v) :
    f k v + sumBy f (s.replace k v') = f k v' + sumBy f s := by
  rw [sumBy_perm (entries_replace_perm _ h), sumBy_insert_of_lookup f v' h]

theorem size_replace : (s.replace k v).size = s.size := by
  have h := congrArg List.length (keys_replace k v s)
  simpa [keys, List.keys, size] using h

end AList
