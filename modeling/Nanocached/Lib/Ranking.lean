import Mathlib

-- Rankings by a comparison, and the best few elements of a list.

open Std

variable {α : Type*}

theorem List.compare_eq_lt_iff [Ord α] [LT α] [LE α] [LawfulOrderOrd α] [LawfulOrderLT α]
    [LawfulEqOrd α] {l₁ l₂ : List α} : compare l₁ l₂ = .lt ↔ l₁ < l₂ := by
  rw [List.compare_eq_compareLex]
  induction l₁ generalizing l₂
  case nil => cases l₂ <;> simp [List.compareLex_nil_nil, List.compareLex_nil_cons]
  case cons a l₁ hi =>
    cases l₂
    case nil => simp [List.compareLex_cons_nil]
    case cons b l₂ =>
      rw [List.compareLex_cons_cons, Ordering.then_eq_lt, hi, List.cons_lt_cons_iff, compare_eq_lt,
        LawfulEqOrd.compare_eq_iff_eq]

theorem List.mem_take_append_cons {a : α} {l₁ l₂ : List α} {n : Nat}
    (h : (l₁ ++ a :: l₂).Nodup) : a ∈ (l₁ ++ a :: l₂).take n ↔ l₁.length < n := by
  have ha : a ∉ l₁ := fun hm => (nodup_append.mp h).right.right a hm a (.head _) rfl
  rw [take_append, mem_append]
  constructor
  case mp =>
    rintro (hm | hm)
    · exact absurd (mem_of_mem_take hm) ha
    · by_contra hn
      rw [Nat.sub_eq_zero_of_le (Nat.le_of_not_lt hn)] at hm
      contradiction
  case mpr =>
    intro hn
    have ⟨k, hk⟩ : ∃ k, n - l₁.length = k + 1 := ⟨n - l₁.length - 1, by omega⟩
    rw [hk]
    exact .inr (.head _)

theorem List.getElem?_of_mem_take {l : List α} {n : Nat} {a : α} (ha : a ∈ l.take n)
    (hn : a ∉ l.take (n - 1)) :
    (l.take n)[n - 1]? = some a := by
  cases n
  case zero => contradiction
  case succ n =>
    rw [take_add_one, mem_append, Option.mem_toList] at ha
    rw [Nat.add_sub_cancel] at hn ⊢
    rw [getElem?_take_of_lt (Nat.lt_succ_self n)]
    exact ha.resolve_left hn

section Erase

variable [BEq α] [LawfulBEq α] {l : List α} {d : α}

theorem List.take_erase_of_not_mem {n : Nat} (hd : d ∉ l.take n) :
    (l.erase d).take n = l.take n := by
  rcases Nat.le_total l.length n with hn | hn
  case inl =>
    rw [take_of_length_le hn] at hd
    rw [erase_of_not_mem hd]
  case inr =>
    have he := erase_append_right (l.drop n) hd
    rw [take_append_drop] at he
    rw [he, take_left' (length_take_of_le hn)]

-- When one of the first elements is removed from a list, the next one takes the last place.
theorem List.take_erase_of_mem {n : Nat} (h : l.Nodup) (hd : d ∈ l.take n) :
    (l.take n).erase d = (l.erase d).take (n - 1) ∧
    (l.erase d).take n = (l.take n).erase d ++ l[n]?.toList := by
  have ⟨l₁, l₂, he⟩ := append_of_mem hd
  have hl : l = l₁ ++ d :: (l₂ ++ l.drop n) := by
    rw [← cons_append, ← append_assoc, ← he, take_append_drop]
  have hd₁ : d ∉ l₁ := fun hm => (nodup_append.mp (hl ▸ h)).right.right d hm d (.head _) rfl
  have hlen := congrArg length he
  rw [length_take, length_append, length_cons] at hlen
  have ht : (l.take n).erase d = l₁ ++ l₂ := by
    rw [he, erase_append_right _ hd₁, erase_cons_head]
  have hr : l.erase d = l₁ ++ l₂ ++ l.drop n := by
    nth_rewrite 1 [hl]
    rw [erase_append_right _ hd₁, erase_cons_head, append_assoc]
  rw [ht, hr]
  rcases Nat.le_total l.length n with hn | hn
  case inl =>
    rw [drop_eq_nil_of_le hn, getElem?_eq_none hn, append_nil]
    constructor
    · exact (take_of_length_le (by simp; omega)).symm
    · simpa using (by omega : l₁.length + l₂.length ≤ n)
  case inr =>
    constructor
    · exact (take_left' (by simp; omega)).symm
    · rw [take_append, take_of_length_le (by simp; omega), length_append,
        show n - (l₁.length + l₂.length) = 1 by omega, take_one, head?_drop]

end Erase

section Filter

variable {l : List α} {p : α → Bool}

-- What is left of the best few stays in front of what moves up.
theorem List.take_filter_of_nodup [BEq α] [LawfulBEq α] (h : l.Nodup) (p : α → Bool) (n : Nat) :
    (l.filter p).take n =
      (l.take n).filter p ++ ((l.filter p).take n).filter (!(l.take n).contains ·) := by
  have ht : (l.filter p).take n = (l.take n).filter p ++
      ((l.drop n).filter p).take (n - ((l.take n).filter p).length) := by
    nth_rewrite 1 [← take_append_drop n l]
    rw [filter_append, take_append,
      take_of_length_le ((length_filter_le _ _).trans (length_take_le n l))]
  have hkept : ((l.take n).filter p).filter (!(l.take n).contains ·) = [] :=
    filter_eq_nil_iff.mpr fun a ha => by simp [(mem_filter.mp ha).left]
  rw [ht, filter_append, hkept, nil_append]
  refine congrArg _ (filter_eq_self.mpr fun a ha => ?_).symm
  have hd := disjoint_of_nodup_append ((take_append_drop n l).symm ▸ h)
  simpa using fun hm => hd hm (mem_of_mem_filter (mem_of_mem_take ha))

theorem List.filter_eq_find?_of_last {o : Option α} (h : ∀ a ∈ l, p a = false) :
    (l ++ o.toList).filter p = ((l ++ o.toList).find? p).toList := by
  rw [filter_append, filter_eq_nil_iff.mpr (by simpa using h), find?_append,
    find?_eq_none.mpr (by simpa using h), nil_append, Option.none_or]
  cases o
  case none   => rfl
  case some a => cases hp : p a <;> simp [hp]

end Filter

-- What is guaranteed of an unstable sort, and of a selection of the element at an index: it is put
-- in its place, with no greater element before it and no lesser one after it.
structure UnstableSort (cmp : α → α → Ordering) where
  sort        : List α → List α
  selectNth   : Nat → List α → List α
  sort_perm   : ∀ l, (sort l).Perm l
  sort_sorted : ∀ l, (sort l).Pairwise fun a b => (cmp a b).isLE
  select_perm : ∀ i l, (selectNth i l).Perm l
  select_le   : ∀ {i l}, i < l.length → ∃ l₁ x l₂,
                  selectNth i l = l₁ ++ x :: l₂ ∧ l₁.length = i ∧
                  (∀ a ∈ l₁, (cmp a x).isLE) ∧ ∀ b ∈ l₂, (cmp x b).isLE

-- The elements in ascending order, without duplicates.
structure IsRanking (cmp : α → α → Ordering) (l ranked : List α) : Prop where
  mem    : ∀ {a}, a ∈ ranked ↔ a ∈ l
  sorted : ranked.Pairwise fun a b => cmp a b = .lt

variable {cmp : α → α → Ordering} {l l' ranked ranked' : List α} {a b : α} {n : Nat}

theorem UnstableSort.mergeSort_sorted [TransCmp cmp] (l : List α) :
    (l.mergeSort fun a b => (cmp a b).isLE).Pairwise fun a b => (cmp a b).isLE := by
  refine List.pairwise_mergeSort (fun a b c => TransCmp.isLE_trans) (fun a b => ?_) l
  rw [(OrientedCmp.eq_swap : cmp b a = _)]
  cases cmp a b <;> rfl

-- Sorting all of the list puts the element in its place, too.
def UnstableSort.mergeSort (cmp : α → α → Ordering) [TransCmp cmp] : UnstableSort cmp where
  sort l          := l.mergeSort fun a b => (cmp a b).isLE
  selectNth _ l   := l.mergeSort fun a b => (cmp a b).isLE
  sort_perm l     := l.mergeSort_perm _
  sort_sorted l   := mergeSort_sorted l
  select_perm _ l := l.mergeSort_perm _
  select_le {i l} hi := by
    have hs : (l.mergeSort fun a b => (cmp a b).isLE).Pairwise _ := mergeSort_sorted l
    rw [← (l.mergeSort_perm fun a b => (cmp a b).isLE).length_eq] at hi
    generalize (l.mergeSort fun a b => (cmp a b).isLE) = l at hs hi
    have he : l = l.take i ++ l[i] :: l.drop (i + 1) := by simp
    rw [he, List.pairwise_append, List.pairwise_cons] at hs
    exact ⟨_, _, _, he, by simp; omega, fun a ha => hs.right.right a ha _ (.head _),
      hs.right.left.left⟩

namespace IsRanking

theorem erase [BEq α] [LawfulBEq α] {d : α} (h : IsRanking cmp l ranked) (hn : ranked.Nodup)
    (hl : ∀ a, a ∈ l' ↔ a ≠ d ∧ a ∈ l) : IsRanking cmp l' (ranked.erase d) where
  mem    := by intro a; rw [hn.mem_erase_iff, hl, h.mem]
  sorted := h.sorted.sublist List.erase_sublist

theorem lt_of_isLE [LawfulEqCmp cmp] (h : (cmp a b).isLE) (hn : a ≠ b) : cmp a b = .lt :=
  (Ordering.isLE_iff_eq_lt_or_eq_eq.mp h).resolve_right (hn ∘ LawfulEqCmp.eq_of_compare)

theorem sorted_of_isLE [LawfulEqCmp cmp] (h : l.Pairwise fun a b => (cmp a b).isLE)
    (hn : l.Nodup) : l.Pairwise fun a b => cmp a b = .lt :=
  h.imp₂ (fun _ _ => lt_of_isLE) hn

theorem sort [LawfulEqCmp cmp] (std : UnstableSort cmp) (hn : l.Nodup) :
    IsRanking cmp l (std.sort l) where
  mem    := (std.sort_perm l).mem_iff
  sorted := sorted_of_isLE (std.sort_sorted l) ((std.sort_perm l).nodup_iff.mpr hn)

variable [TransCmp cmp]

theorem ne_of_lt (h : cmp a b = .lt) : a ≠ b := by
  rintro rfl
  rw [(ReflCmp.compare_self : cmp a a = .eq)] at h
  contradiction

theorem asymm (h : cmp a b = .lt) : cmp b a ≠ .lt :=
  fun h' => ne_of_lt (TransCmp.lt_trans h h') rfl

theorem nodup (h : IsRanking cmp l ranked) : ranked.Nodup :=
  h.sorted.imp ne_of_lt

theorem length_eq (h : IsRanking cmp l ranked) (hn : l.Nodup) : ranked.length = l.length :=
  ((List.perm_ext_iff_of_nodup h.nodup hn).mpr fun _ => h.mem).length_eq

-- There is only one ranking, and it depends on the set of the elements only.
theorem unique (h : IsRanking cmp l ranked) (h' : IsRanking cmp l' ranked')
    (hl : ∀ a, a ∈ l ↔ a ∈ l') : ranked = ranked' := by
  refine List.Perm.eq_of_pairwise ?_ h.sorted h'.sorted ?_
  · exact fun _ _ _ _ h₁ h₂ => absurd h₂ (asymm h₁)
  · exact (List.perm_ext_iff_of_nodup h.nodup h'.nodup).mpr fun a => by rw [h.mem, h'.mem, hl]

-- Elements of which none is after one of the others are the best, so sorting them starts a sort of
-- all.
theorem sort_of_append [LawfulEqCmp cmp] (std : UnstableSort cmp) (h : IsRanking cmp l ranked)
    {l₁ l₂ : List α} (hn : l.Nodup) (hp : (l₁ ++ l₂).Perm l)
    (hle : ∀ a ∈ l₁, ∀ b ∈ l₂, (cmp a b).isLE) : std.sort l₁ = ranked.take l₁.length := by
  obtain ⟨hn₁, hn₂, hd⟩ := List.nodup_append.mp (hp.nodup_iff.mpr hn)
  have hr : IsRanking cmp l (std.sort l₁ ++ std.sort l₂) := by
    constructor
    case mem =>
      intro a
      rw [List.mem_append, (std.sort_perm _).mem_iff, (std.sort_perm _).mem_iff, ← List.mem_append,
        hp.mem_iff]
    case sorted =>
      refine List.pairwise_append.mpr ⟨(sort std hn₁).sorted, (sort std hn₂).sorted, ?_⟩
      intro a ha b hb
      have ha := (std.sort_perm _).mem_iff.mp ha
      have hb := (std.sort_perm _).mem_iff.mp hb
      exact lt_of_isLE (hle a ha b hb) (hd a ha b hb)
  rw [h.unique hr fun _ => Iff.rfl, List.take_left' (std.sort_perm _).length_eq]

-- The elements up to a selected one.
theorem sort_take_select [LawfulEqCmp cmp] (std : UnstableSort cmp) (h : IsRanking cmp l ranked)
    (hn : l.Nodup) (hl : n < l.length) :
    std.sort ((std.selectNth n l).take (n + 1)) = ranked.take (n + 1) := by
  obtain ⟨l₁, x, l₂, he, hlen, hle, hge⟩ := std.select_le hl
  have hp := std.select_perm n l
  have ht : (l₁ ++ [x]).length = n + 1 := by simp [hlen]
  rw [he, List.append_cons] at hp ⊢
  rw [List.take_left' ht, ← ht]
  refine h.sort_of_append std hn hp fun a ha b hb => TransCmp.isLE_trans (b := x) ?_ (hge b hb)
  rcases List.mem_append.mp ha with ha | ha
  · exact hle a ha
  · cases List.mem_singleton.mp ha
    rw [(ReflCmp.compare_self : cmp x x = .eq)]
    rfl

-- The elements before a selected one.
theorem sort_take_select_before [LawfulEqCmp cmp] (std : UnstableSort cmp)
    (h : IsRanking cmp l ranked) (hn : l.Nodup) (hl : n < l.length) :
    std.sort ((std.selectNth n l).take n) = ranked.take n := by
  obtain ⟨l₁, x, l₂, he, hlen, hle, hge⟩ := std.select_le hl
  have hp := std.select_perm n l
  rw [he] at hp ⊢
  rw [List.take_left' hlen, ← hlen]
  refine h.sort_of_append std hn hp fun a ha b hb => ?_
  rcases List.mem_cons.mp hb with rfl | hb
  · exact hle a ha
  · exact TransCmp.isLE_trans (hle a ha) (hge b hb)

theorem pair_sublist (h : l.Pairwise fun a b => cmp a b = .lt) (ha : a ∈ l) (hb : b ∈ l)
    (hlt : cmp a b = .lt) : [a, b].Sublist l := by
  have ⟨l₁, l₂, he⟩ := List.append_of_mem ha
  subst he
  have ⟨_, _, hc⟩ := List.pairwise_append.mp h
  rcases List.mem_append.mp hb with hb | hb
  · exact absurd (hc b hb a (.head _)) (asymm hlt)
  · have hb := (List.mem_cons.mp hb).resolve_left (ne_of_lt hlt).symm
    exact .trans (.cons_cons a (List.singleton_sublist.mpr hb)) (List.sublist_append_right ..)

theorem countP_eq_length {l₁ l₂ : List α}
    (h : (l₁ ++ a :: l₂).Pairwise fun a b => cmp a b = .lt) :
    (l₁ ++ a :: l₂).countP (fun b => cmp b a = .lt) = l₁.length := by
  have ⟨_, h₂, hlt⟩ := List.pairwise_append.mp h
  have hb : l₁.countP (fun b => cmp b a = .lt) = l₁.length :=
    List.countP_eq_length.mpr fun b hb => by simpa using hlt b hb a (.head _)
  have hw : (a :: l₂).countP (fun b => cmp b a = .lt) = 0 := by
    refine List.countP_eq_zero.mpr fun b hb => ?_
    rcases List.mem_cons.mp hb with rfl | hb
    · simpa using fun he => (ne_of_lt he : b ≠ b) rfl
    · simpa using asymm ((List.pairwise_cons.mp h₂).left b hb)
  rw [List.countP_append, hb, hw, Nat.add_zero]

-- The best elements are those which only few others are better than.
theorem mem_take_iff (h : IsRanking cmp l ranked) (hn : l.Nodup) (n : Nat) :
    a ∈ ranked.take n ↔ a ∈ l ∧ l.countP (fun b => cmp b a = .lt) < n := by
  have hp := (List.perm_ext_iff_of_nodup h.nodup hn).mpr fun _ => h.mem
  rw [← h.mem, ← hp.countP_eq]
  by_cases ha : a ∈ ranked
  case neg => exact iff_of_false (fun hm => ha (List.mem_of_mem_take hm)) fun hm => ha hm.left
  case pos =>
    have ⟨l₁, l₂, he⟩ := List.append_of_mem ha
    subst he
    rw [countP_eq_length h.sorted, and_iff_right ha, ← List.mem_take_append_cons h.nodup]

end IsRanking
