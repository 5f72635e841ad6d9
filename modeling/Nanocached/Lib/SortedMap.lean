import Mathlib

-- A map which is iterated over in the order of its keys.
@[ext]
structure SortedMap (κ ν : Type*) [LinearOrder κ] where
  entries : List (κ × ν)
  sorted  : entries.Pairwise (·.1 < ·.1)

namespace SortedMap

variable {κ ν : Type*} [LinearOrder κ] {m : SortedMap κ ν} {l l₁ l₂ : List (κ × ν)} {k : κ} {v v' : ν}

def empty : SortedMap κ ν where
  entries := []
  sorted  := .nil

def get? (m : SortedMap κ ν) (k : κ) : Option ν :=
  m.entries.lookup k

def insertEntry (k : κ) (v : ν) : List (κ × ν) → List (κ × ν)
  | []     => [(k, v)]
  | e :: l =>
    if k < e.1 then
      (k, v) :: e :: l
    else if k = e.1 then
      (k, v) :: l
    else
      e :: insertEntry k v l

theorem mem_insertEntry {e : κ × ν} (h : e ∈ insertEntry k v l) : e = (k, v) ∨ e ∈ l := by
  induction l
  case nil => exact .inl (List.mem_singleton.mp h)
  case cons e' l hi =>
    rw [insertEntry] at h
    split_ifs at h
    · exact List.mem_cons.mp h
    · exact (List.mem_cons.mp h).imp_right (List.mem_cons_of_mem _)
    · rcases List.mem_cons.mp h with rfl | h
      · exact .inr (.head _)
      · exact (hi h).imp_right (List.mem_cons_of_mem _)

theorem sorted_insertEntry (h : l.Pairwise (·.1 < ·.1)) :
    (insertEntry k v l).Pairwise (·.1 < ·.1) := by
  induction l
  case nil => exact List.pairwise_singleton ..
  case cons e l hi =>
    have ⟨hlt, hl⟩ := List.pairwise_cons.mp h
    rw [insertEntry]
    split_ifs with h₁ h₂
    · refine List.pairwise_cons.mpr ⟨fun e' he' => ?_, h⟩
      rcases List.mem_cons.mp he' with rfl | he'
      · exact h₁
      · exact h₁.trans (hlt e' he')
    · exact List.pairwise_cons.mpr ⟨h₂ ▸ hlt, hl⟩
    · refine List.pairwise_cons.mpr ⟨fun e' he' => ?_, hi hl⟩
      rcases mem_insertEntry he' with rfl | he'
      · exact lt_of_le_of_ne (not_lt.mp h₁) (Ne.symm h₂)
      · exact hlt e' he'

def insert (m : SortedMap κ ν) (k : κ) (v : ν) : SortedMap κ ν where
  entries := insertEntry k v m.entries
  sorted  := sorted_insertEntry m.sorted

-- Assigns to the value at a key, if there is one.
def replace (m : SortedMap κ ν) (k : κ) (v : ν) : SortedMap κ ν where
  entries := m.entries.map fun e => if e.1 = k then (k, v) else e
  sorted  := by
    refine m.sorted.map _ fun e₁ e₂ h => ?_
    split_ifs with h₁ h₂ h₂ <;> simp_all

def popFirst (m : SortedMap κ ν) : Option ((κ × ν) × SortedMap κ ν) :=
  match m with
  | ⟨[], _⟩     => none
  | ⟨e :: l, h⟩ => some (e, ⟨l, h.tail⟩)

theorem popFirst_eq_none_iff : m.popFirst = none ↔ m.entries = [] := by
  rcases m with ⟨_ | _, _⟩ <;> simp [popFirst]

theorem popFirst_eq_some_iff {e : κ × ν} {m' : SortedMap κ ν} :
    m.popFirst = some (e, m') ↔ m.entries = e :: m'.entries := by
  rcases m with ⟨_ | _, _⟩
  · simp [popFirst]
  · simp [popFirst, SortedMap.ext_iff]

-- A key greater than all others goes to the end.
theorem entries_insert_of_lt (h : ∀ e ∈ m.entries, e.1 < k) :
    (m.insert k v).entries = m.entries ++ [(k, v)] := by
  change insertEntry k v m.entries = _
  generalize m.entries = l at h
  induction l
  case nil => rfl
  case cons e l hi =>
    have he := h e (.head _)
    rw [insertEntry, if_neg he.not_gt, if_neg he.ne', hi fun e' he' => h e' (.tail _ he')]
    rfl

theorem lt_of_append_cons (h : m.entries = l₁ ++ (k, v) :: l₂) :
    (∀ e ∈ l₁, e.1 < k) ∧ ∀ e ∈ l₂, k < e.1 := by
  have ⟨_, h₂, hlt⟩ := List.pairwise_append.mp (h ▸ m.sorted)
  exact ⟨fun e he => hlt e he _ (.head _), (List.pairwise_cons.mp h₂).left⟩

theorem entries_replace (h : m.entries = l₁ ++ (k, v) :: l₂) :
    (m.replace k v').entries = l₁ ++ (k, v') :: l₂ := by
  have ⟨hl, hr⟩ := lt_of_append_cons h
  have h₁ : l₁.map (fun e => if e.1 = k then (k, v') else e) = l₁ :=
    (List.map_congr_left fun e he => if_neg (hl e he).ne).trans (List.map_id' l₁)
  have h₂ : l₂.map (fun e => if e.1 = k then (k, v') else e) = l₂ :=
    (List.map_congr_left fun e he => if_neg (hr e he).ne').trans (List.map_id' l₂)
  simp [replace, h, h₁, h₂]

theorem get?_eq_some_iff : m.get? k = some v ↔ ∃ l₁ l₂, m.entries = l₁ ++ (k, v) :: l₂ := by
  constructor
  case mp =>
    intro h
    have ⟨l₁, l₂, he, _⟩ := List.lookup_eq_some_iff.mp h
    exact ⟨l₁, l₂, he⟩
  case mpr =>
    intro ⟨l₁, l₂, he⟩
    refine List.lookup_eq_some_iff.mpr ⟨l₁, l₂, he, fun e hm => ?_⟩
    simpa using ((lt_of_append_cons he).left e hm).ne'

end SortedMap
