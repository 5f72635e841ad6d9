import Mathlib

-- A priority queue, given by its items in no particular order. Popping removes a least item.
abbrev MinHeap (α : Type*) := List α

namespace MinHeap

variable {α : Type*} [LinearOrder α] {h h' : MinHeap α} {a b : α}

def push (h : MinHeap α) (a : α) : MinHeap α :=
  a :: h

def pop (h : MinHeap α) : Option (α × MinHeap α) :=
  h.min?.map fun a => (a, h.erase a)

theorem pop_eq_none_iff : pop h = none ↔ h = [] := by
  simp [pop]

theorem pop_mem (hp : pop h = some (a, h')) : a ∈ h := by
  simp only [pop, Option.map_eq_some_iff, Prod.mk.injEq] at hp
  obtain ⟨_, hm, rfl, -⟩ := hp
  exact List.min?_mem hm

theorem pop_le (hp : pop h = some (a, h')) (hb : b ∈ h) : a ≤ b := by
  simp only [pop, Option.map_eq_some_iff, Prod.mk.injEq] at hp
  obtain ⟨_, hm, rfl, -⟩ := hp
  exact (List.min?_eq_some_iff.mp hm).right b hb

theorem pop_eq_erase (hp : pop h = some (a, h')) : h' = h.erase a := by
  simp only [pop, Option.map_eq_some_iff, Prod.mk.injEq] at hp
  obtain ⟨_, -, rfl, rfl⟩ := hp
  rfl

theorem pop_perm (hp : pop h = some (a, h')) : h.Perm (a :: h') := by
  rw [pop_eq_erase hp]
  exact List.perm_cons_erase (pop_mem hp)

end MinHeap
