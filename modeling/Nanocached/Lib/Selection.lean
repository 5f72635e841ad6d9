import Nanocached.Lib.Ranking

-- The best few elements of a list, kept in order by inserting one candidate after the other.

open Std

variable {α : Type*} {cmp : α → α → Ordering} {l top before after ranked : List α} {a : α}
variable {limit : Nat}

theorem List.insertIdx_append (l₁ l₂ : List α) (a : α) :
    (l₁ ++ l₂).insertIdx l₁.length a = l₁ ++ a :: l₂ := by
  induction l₁
  case nil => rfl
  case cons b l₁ hi => rw [cons_append, length_cons, insertIdx_succ_cons, hi, cons_append]

namespace Selection

def insert (cmp : α → α → Ordering) (top : List α) (a : α) : List α :=
  top.orderedInsert (fun a b => (cmp a b).isLE) a

theorem perm_insert : (insert cmp top a).Perm (a :: top) :=
  List.perm_orderedInsert ..

theorem perm_insert_append : (insert cmp top a ++ l).Perm (top ++ a :: l) :=
  (perm_insert.append_right l).trans List.perm_middle.symm

theorem take_insert_take (limit : Nat) (top : List α) :
    (insert cmp (top.take limit) a).take limit = (insert cmp top a).take limit := by
  induction top generalizing limit
  case nil => rw [List.take_nil]
  case cons b top hi =>
    cases limit
    case zero => rfl
    case succ limit =>
      simp only [insert, List.take_succ_cons, List.orderedInsert_cons]
      split
      case isTrue  =>
        cases limit
        case zero => rfl
        case succ limit => simp [List.take_take]
      case isFalse => exact congrArg (b :: ·) (hi limit)

theorem foldl_take_insert (l top : List α) :
    l.foldl (fun top a => (insert cmp top a).take limit) (top.take limit) =
      (l.foldl (insert cmp) top).take limit := by
  induction l generalizing top
  case nil => rfl
  case cons a l hi =>
    rw [List.foldl_cons, List.foldl_cons, take_insert_take]
    exact hi _

section Order

variable [TransCmp cmp]

theorem insert_append (hb : ∀ b ∈ before, cmp b a = .lt) (ha : ∀ b ∈ after, cmp a b = .lt) :
    insert cmp (before ++ after) a = before ++ a :: after := by
  induction before
  case nil =>
    cases after
    case nil => rfl
    case cons b after =>
      rw [insert, List.nil_append, List.orderedInsert_cons, if_pos (by rw [ha b (.head _)]; rfl)]
      rfl
  case cons b before hi =>
    have hgt : cmp a b = .gt := OrientedCmp.gt_of_lt (hb b (.head _))
    rw [insert, List.cons_append, List.orderedInsert_cons, if_neg (by rw [hgt]; decide)]
    exact congrArg _ (hi fun b hm => hb b (.tail _ hm))

-- A candidate has a place among sorted elements which are not equal to it.
theorem exists_append (hs : top.Pairwise (cmp · · = .lt)) (hd : ∀ b ∈ top, cmp b a ≠ .eq) :
    ∃ before after, top = before ++ after ∧ (∀ b ∈ before, cmp b a = .lt) ∧
      ∀ b ∈ after, cmp a b = .lt := by
  induction top
  case nil => exact ⟨[], [], rfl, by simp, by simp⟩
  case cons b top hi =>
    obtain ⟨hb, hs⟩ := List.pairwise_cons.mp hs
    cases hc : cmp b a
    case eq => exact absurd hc (hd b (.head _))
    case lt =>
      obtain ⟨before, after, rfl, hbefore, hafter⟩ := hi hs fun b hm => hd b (.tail _ hm)
      exact ⟨b :: before, after, rfl, List.forall_mem_cons.mpr ⟨hc, hbefore⟩, hafter⟩
    case gt =>
      have hc : cmp a b = .lt := OrientedCmp.lt_of_gt hc
      refine ⟨[], b :: top, rfl, by simp, List.forall_mem_cons.mpr ⟨hc, fun b' hm => ?_⟩⟩
      exact TransCmp.lt_trans hc (hb b' hm)

theorem insert_sorted (hs : top.Pairwise (cmp · · = .lt)) (hd : ∀ b ∈ top, cmp b a ≠ .eq) :
    (insert cmp top a).Pairwise (cmp · · = .lt) := by
  obtain ⟨before, after, rfl, hb, ha⟩ := exists_append hs hd
  obtain ⟨hs₁, hs₂, hs₃⟩ := List.pairwise_append.mp hs
  rw [insert_append hb ha]
  refine List.pairwise_append.mpr ⟨hs₁, List.pairwise_cons.mpr ⟨ha, hs₂⟩, fun b hm => ?_⟩
  exact List.forall_mem_cons.mpr ⟨hb b hm, hs₃ b hm⟩

theorem distinct_insert (hd : (top ++ a :: l).Pairwise (cmp · · ≠ .eq)) :
    (insert cmp top a ++ l).Pairwise (cmp · · ≠ .eq) :=
  perm_insert_append.symm.pairwise hd fun h he => h (OrientedCmp.eq_symm he)

theorem isRanking_foldl_insert (hd : l.Pairwise (cmp · · ≠ .eq)) :
    IsRanking cmp l (l.foldl (insert cmp) []) := by
  suffices h : ∀ {l top : List α}, top.Pairwise (cmp · · = .lt) →
      (top ++ l).Pairwise (cmp · · ≠ .eq) → (l.foldl (insert cmp) top).Perm (top ++ l) ∧
        (l.foldl (insert cmp) top).Pairwise (cmp · · = .lt) from
    have h := h .nil hd
    ⟨h.left.mem_iff, h.right⟩
  intro l
  induction l
  case nil => exact fun hs _ => ⟨by simp, hs⟩
  case cons a l hi =>
    intro top hs hd
    have hc := (List.pairwise_append.mp hd).right.right
    have hi := hi (insert_sorted hs fun b hm => hc b hm a (.head _)) (distinct_insert hd)
    exact ⟨hi.left.trans perm_insert_append, hi.right⟩

-- Any way to insert a candidate into the few kept elements selects the best of all, if it finds the
-- candidate's place among those.
theorem foldl_eq_take {σ : Type*} {step : σ → α → σ} {s : σ} (kept : σ → List α)
    (Inv : σ → Prop) (hd : l.Pairwise (cmp · · ≠ .eq)) (h : IsRanking cmp l ranked)
    (hstep : ∀ {s before after a}, a ∈ l → Inv s → kept s = before ++ after →
      (before ++ after).length ≤ limit → (∀ b ∈ before, cmp b a = .lt) →
      (∀ b ∈ after, cmp a b = .lt) →
        Inv (step s a) ∧ kept (step s a) = (before ++ a :: after).take limit)
    (hi : Inv s) (hs : kept s = []) : kept (l.foldl step s) = ranked.take limit := by
  have hfold : ∀ {l' : List α} {s : σ}, l' ⊆ l → Inv s → (kept s).Pairwise (cmp · · = .lt) →
      (kept s).length ≤ limit → (kept s ++ l').Pairwise (cmp · · ≠ .eq) →
        kept (l'.foldl step s) =
          l'.foldl (fun top a => (insert cmp top a).take limit) (kept s) := by
    intro l'
    induction l'
    case nil => exact fun _ _ _ _ _ => rfl
    case cons a l' hfold =>
      intro s hm hi hs hl hd
      have hc := (List.pairwise_append.mp hd).right.right
      have hsi := insert_sorted hs fun b hm => hc b hm a (.head _)
      obtain ⟨before, after, he, hb, ha⟩ := exists_append hs fun b hm => hc b hm a (.head _)
      obtain ⟨hi, hk⟩ := hstep (hm (.head _)) hi he (he ▸ hl) hb ha
      rw [← insert_append hb ha, ← he] at hk
      rw [List.foldl_cons, List.foldl_cons, ← hk]
      refine hfold (List.subset_of_cons_subset hm) hi (hk ▸ hsi.sublist (List.take_sublist ..))
        (by rw [hk]; simp) ?_
      rw [hk]
      exact (distinct_insert hd).sublist ((List.take_sublist ..).append_right l')
  rw [hfold (List.Subset.refl l) hi (hs ▸ .nil) (by simp [hs]) (by simpa [hs] using hd), hs,
    h.unique (isRanking_foldl_insert hd) fun _ => Iff.rfl, ← foldl_take_insert, List.take_nil]

end Order
end Selection
