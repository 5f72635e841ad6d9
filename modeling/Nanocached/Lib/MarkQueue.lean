import Mathlib.Data.Set.Insert

-- Commands which mark keys on behalf of someone and take their marks away again wait in a queue, and
-- so do the sweeps that remove what is marked. Other commands may take marks away as well, which is
-- why the marks computed here are the ones there can be at most.

variable {κ ι : Type}

inductive MarkCommand (κ ι : Type)
  | mark (key : κ) (owner : ι)
  | unmark (keys : List κ)
  | sweep
  | other

namespace MarkCommand

variable {c : MarkCommand κ ι} {q q₁ q₂ : List (MarkCommand κ ι)} {marks marks' : Set (κ × ι)}
         {decided decided' : Set ι}

def apply (marks : Set (κ × ι)) : MarkCommand κ ι → Set (κ × ι)
  | .mark key owner => insert (key, owner) marks
  | .unmark keys    => { p ∈ marks | p.1 ∉ keys }
  | .sweep          => marks
  | .other          => marks

-- The marks that are left when the queue is processed.
def after (marks : Set (κ × ι)) (q : List (MarkCommand κ ι)) : Set (κ × ι) :=
  q.foldl apply marks

-- The sweeps of the queue only find marks of owners which are decided.
def Orderly (decided : Set ι) (marks : Set (κ × ι)) (q : List (MarkCommand κ ι)) : Prop :=
  ∀ q₁ q₂, q = q₁ ++ .sweep :: q₂ → ∀ p ∈ after marks q₁, p.2 ∈ decided

@[simp]
theorem after_nil : after marks ([] : List (MarkCommand κ ι)) = marks :=
  rfl

@[simp]
theorem after_cons : after marks (c :: q) = after (c.apply marks) q :=
  rfl

@[simp]
theorem after_append : after marks (q₁ ++ q₂) = after (after marks q₁) q₂ :=
  List.foldl_append

theorem apply_mono (h : marks ⊆ marks') : c.apply marks ⊆ c.apply marks' := by
  cases c with
  | mark key owner => exact Set.insert_subset_insert h
  | unmark keys    => exact fun p hp => ⟨h hp.left, hp.right⟩
  | sweep          => exact h
  | other          => exact h

theorem after_mono (h : marks ⊆ marks') : after marks q ⊆ after marks' q := by
  induction q generalizing marks marks'
  case nil       => exact h
  case cons c hi => exact hi (apply_mono h)

-- Only an `unmark` takes marks away.
theorem subset_apply (h : ∀ keys, c ≠ .unmark keys) : marks ⊆ c.apply marks := by
  cases c with
  | mark key owner => exact Set.subset_insert _ _
  | unmark keys    => exact absurd rfl (h keys)
  | sweep          => exact subset_rfl
  | other          => exact subset_rfl

theorem not_mem_after {key : κ} {owner : ι} (hm : (key, owner) ∉ marks)
    (hq : ∀ key, .mark key owner ∉ q) : (key, owner) ∉ after marks q := by
  induction q generalizing marks
  case nil => exact hm
  case cons c q hi =>
    refine hi (fun hm' => ?_) fun key hk => hq key (.tail _ hk)
    cases c with
    | mark key' owner' =>
      rcases hm' with he | hm'
      · cases he
        exact hq key (.head _)
      · exact hm hm'
    | unmark keys => exact hm hm'.left
    | sweep       => exact hm hm'
    | other       => exact hm hm'

-- Where a command stands in a queue that has one more at its end.
theorem append_singleton_eq {c' : MarkCommand κ ι} (h : q ++ [c] = q₁ ++ c' :: q₂) :
    q₁ = q ∧ c' = c ∨ ∃ q₃, q = q₁ ++ c' :: q₃ := by
  rcases List.eq_nil_or_concat q₂ with rfl | ⟨q₂, c'', rfl⟩
  · obtain ⟨rfl, hc⟩ := List.append_inj' h rfl
    exact .inl ⟨rfl, (List.singleton_inj.mp hc).symm⟩
  · have h : q ++ [c] = (q₁ ++ c' :: q₂) ++ [c''] := by simpa using h
    exact .inr ⟨q₂, (List.append_inj' h rfl).left⟩

namespace Orderly

theorem mono (h : Orderly decided marks q) (hm : marks' ⊆ marks) (hd : decided ⊆ decided') :
    Orderly decided' marks' q :=
  fun q₁ q₂ hq p hp => hd (h q₁ q₂ hq p (after_mono hm hp))

theorem nil : Orderly decided marks [] :=
  fun _ _ hq => by simp at hq

-- A sweep is only sent when everything is decided that can be marked by then.
theorem push (h : Orderly decided marks q) (hc : c = .sweep → ∀ p ∈ after marks q, p.2 ∈ decided) :
    Orderly decided marks (q ++ [c]) := by
  intro q₁ q₂ hq
  rcases append_singleton_eq hq with ⟨rfl, hs⟩ | ⟨q₃, hq⟩
  · exact hc hs.symm
  · exact h q₁ q₃ hq

theorem pop (h : Orderly decided marks (c :: q)) : Orderly decided (c.apply marks) q :=
  fun q₁ q₂ hq => h (c :: q₁) q₂ (by rw [hq]; rfl)

theorem head (h : Orderly decided marks (.sweep :: q)) : ∀ p ∈ marks, p.2 ∈ decided :=
  h [] q rfl

end Orderly

-- The queue takes no marks away from an owner.
def Spares (owner : ι) (marks : Set (κ × ι)) (q : List (MarkCommand κ ι)) : Prop :=
  ∀ q₁ keys q₂, q = q₁ ++ .unmark keys :: q₂ → ∀ key, (key, owner) ∉ after marks q₁

namespace Spares

variable {owner : ι}

theorem mono (h : Spares owner marks q) (hm : marks' ⊆ marks) : Spares owner marks' q :=
  fun q₁ keys q₂ hq key hp => h q₁ keys q₂ hq key (after_mono hm hp)

theorem of_not_mem (hm : ∀ key, (key, owner) ∉ marks) (hq : ∀ key, .mark key owner ∉ q) :
    Spares owner marks q := by
  rintro q₁ keys q₂ rfl key
  exact not_mem_after (hm key) fun key' hk => hq key' (List.mem_append_left _ hk)

theorem of_no_unmark (h : ∀ keys, .unmark keys ∉ q) : Spares owner marks q := by
  rintro q₁ keys q₂ rfl
  exact absurd (by simp) (h keys)

theorem push (h : Spares owner marks q) (hc : ∀ keys, c ≠ .unmark keys) :
    Spares owner marks (q ++ [c]) := by
  intro q₁ keys q₂ hq
  rcases append_singleton_eq hq with ⟨_, hu⟩ | ⟨q₃, hq⟩
  · exact absurd hu.symm (hc keys)
  · exact h q₁ keys q₃ hq

theorem pop (h : Spares owner marks (c :: q)) : Spares owner (c.apply marks) q :=
  fun q₁ keys q₂ hq => h (c :: q₁) keys q₂ (by rw [hq]; rfl)

theorem of_append (h : Spares owner marks (q₁ ++ q₂)) : Spares owner (after marks q₁) q₂ := by
  induction q₁ generalizing marks
  case nil       => exact h
  case cons c hi => exact hi h.pop

-- So what is not marked in the end is not marked now.
theorem not_mem {key : κ} (h : Spares owner marks q) (hn : (key, owner) ∉ after marks q) :
    (key, owner) ∉ marks := by
  induction q generalizing marks
  case nil => exact hn
  case cons c q hi =>
    intro hm
    by_cases hc : ∃ keys, c = .unmark keys
    case pos =>
      obtain ⟨keys, rfl⟩ := hc
      exact h [] keys q rfl key hm
    case neg => exact hi h.pop hn (subset_apply (fun keys he => hc ⟨keys, he⟩) hm)

theorem mark_not_mem {key : κ} (h : Spares owner marks q) (hn : (key, owner) ∉ after marks q) :
    .mark key owner ∉ q := by
  intro hm
  obtain ⟨q₁, q₂, rfl⟩ := List.append_of_mem hm
  rw [after_append, after_cons] at hn
  exact h.of_append.pop.not_mem hn (Set.mem_insert _ _)

end Spares
end MarkCommand
