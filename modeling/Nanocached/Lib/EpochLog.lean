import Mathlib

-- Values that replace each other over time, each of them with the time since when it is in force.
-- The oldest one is the first.
namespace EpochLog

section Rposition

variable {α : Type*} {p : α → Bool} {l l' : List α} {i : Nat}

-- The position of the last element that satisfies `p`, as found by `Iterator::rposition`.
def rposition (p : α → Bool) : List α → Option Nat
  | []     => none
  | a :: l =>
    match rposition p l with
    | some i => some (i + 1)
    | none   => if p a then some 0 else none

theorem rposition_eq_none : rposition p l = none ↔ ∀ a ∈ l, p a = false := by
  induction l
  case nil => simp [rposition]
  case cons a l hi =>
    rw [rposition, List.forall_mem_cons]
    cases hr : rposition p l
    case none   => simpa using fun _ => hi.mp hr
    case some i =>
      simp only [reduceCtorEq, false_iff, not_and]
      intro _ hall
      simp [hi.mpr hall] at hr

theorem rposition_eq_some : rposition p l = some i ↔
    (∃ a, l[i]? = some a ∧ p a = true) ∧ ∀ j a, i < j → l[j]? = some a → p a = false := by
  induction l generalizing i
  case nil => simp [rposition]
  case cons a l hi =>
    rw [rposition]
    cases hr : rposition p l
    case some k =>
      obtain ⟨⟨b, hb, hp⟩, hlast⟩ := hi.mp hr
      dsimp only
      constructor
      case mp =>
        rintro ⟨⟩
        refine ⟨⟨b, hb, hp⟩, fun j c hj hc => ?_⟩
        obtain ⟨j, rfl⟩ := Nat.exists_eq_add_one_of_ne_zero (show j ≠ 0 by omega)
        exact hlast j c (by omega) hc
      case mpr =>
        rintro ⟨⟨c, hc, hpc⟩, hlast'⟩
        -- Neither of the two positions can be before the other one.
        rcases Nat.lt_trichotomy i (k + 1) with hlt | rfl | hgt
        · exact absurd hp (by simp [hlast' (k + 1) b hlt hb])
        · rfl
        · obtain ⟨i, rfl⟩ := Nat.exists_eq_add_one_of_ne_zero (show i ≠ 0 by omega)
          exact absurd hpc (by simp [hlast i c (by omega) hc])
    case none =>
      have hn := rposition_eq_none.mp hr
      dsimp only
      constructor
      case mp =>
        intro h
        split at h
        case isFalse => contradiction
        case isTrue ha =>
          cases h
          refine ⟨⟨a, rfl, ha⟩, fun j c hj hc => ?_⟩
          obtain ⟨j, rfl⟩ := Nat.exists_eq_add_one_of_ne_zero (show j ≠ 0 by omega)
          exact hn c (List.mem_of_getElem? hc)
      case mpr =>
        rintro ⟨⟨c, hc, hpc⟩, -⟩
        cases i
        case zero =>
          cases hc
          rw [if_pos hpc]
        case succ i =>
          exact absurd hpc (by simp [hn c (List.mem_of_getElem? hc)])

theorem rposition_append_of_some {k : Nat} (h : rposition p l' = some k) :
    rposition p (l ++ l') = some (k + l.length) := by
  induction l
  case nil         => simpa using h
  case cons a l hi => rw [List.cons_append, rposition, hi, List.length_cons, ← Nat.add_assoc]

theorem rposition_append_of_none (h : rposition p l' = none) :
    rposition p (l ++ l') = rposition p l := by
  induction l
  case nil         => simpa [rposition] using h
  case cons a l hi => rw [List.cons_append, rposition, hi, rposition]

end Rposition

variable {τ α : Type*} [LinearOrder τ] {log dropped kept : List (τ × α)} {t cutoff now : τ}
variable {i start : Nat}

-- The one at that position is the newest of those since before or at the time.
def InForce (log : List (τ × α)) (i : Nat) (t : τ) : Prop :=
  rposition (fun e => e.1 ≤ t) log = some i

theorem inForce_iff : InForce log i t ↔
    (∃ e, log[i]? = some e ∧ e.1 ≤ t) ∧ ∀ j e, i < j → log[j]? = some e → t < e.1 := by
  simp only [InForce, rposition_eq_some, decide_eq_true_eq, decide_eq_false_iff_not, not_le]

def Sorted (log : List (τ × α)) : Prop :=
  log.Pairwise fun e e' => e.1 ≤ e'.1

theorem Sorted.le (h : Sorted log) {j : Nat} {e e' : τ × α} (hij : i ≤ j) (hi : log[i]? = some e)
    (hj : log[j]? = some e') : e.1 ≤ e'.1 := by
  rcases hij.eq_or_lt with rfl | hlt
  · rw [hi] at hj
    cases hj
    exact le_rfl
  · obtain ⟨hi', rfl⟩ := List.getElem?_eq_some_iff.mp hi
    obtain ⟨hj', rfl⟩ := List.getElem?_eq_some_iff.mp hj
    exact List.pairwise_iff_getElem.mp h _ _ hi' hj' hlt

theorem Sorted.concat (h : Sorted log) {a : α} (hl : ∀ e ∈ log, e.1 ≤ t) :
    Sorted (log ++ [(t, a)]) := by
  refine List.pairwise_append.mpr ⟨h, List.pairwise_singleton _ _, fun e he e' he' => ?_⟩
  cases List.mem_singleton.mp he'
  exact hl e he

-- From the one in force at the start of a window on there are those which are in force at some time
-- of the window, and those which another one has replaced at the very time they are in force since.
theorem start_le_iff (hs : Sorted log) (hl : ∀ e ∈ log, e.1 ≤ now) (hc : cutoff ≤ now)
    (hstart : InForce log start cutoff) {e : τ × α} (hi : log[i]? = some e) :
    start ≤ i ↔ (∃ t, cutoff ≤ t ∧ t ≤ now ∧ InForce log i t) ∨
      (cutoff < e.1 ∧ ∃ j e', i < j ∧ log[j]? = some e' ∧ e'.1 = e.1) := by
  obtain ⟨⟨e₀, he₀, hle₀⟩, hafter⟩ := inForce_iff.mp hstart
  constructor
  case mp =>
    intro hle
    rcases hle.eq_or_lt with rfl | hlt
    · exact .inl ⟨cutoff, le_rfl, hc, hstart⟩
    · have hcut := hafter i e hlt hi
      by_cases hj : ∃ j e', i < j ∧ log[j]? = some e' ∧ e'.1 = e.1
      case pos => exact .inr ⟨hcut, hj⟩
      case neg =>
        refine .inl ⟨e.1, hcut.le, hl e (List.mem_of_getElem? hi), ?_⟩
        refine inForce_iff.mpr ⟨⟨e, hi, le_rfl⟩, fun j e' hij hj' => ?_⟩
        refine lt_of_le_of_ne (hs.le hij.le hi hj') fun he => ?_
        exact hj ⟨j, e', hij, hj', he.symm⟩
  case mpr =>
    rintro (⟨t, hct, -, hf⟩ | ⟨hcut, -⟩)
    · by_contra hlt
      have ht := (inForce_iff.mp hf).right start e₀ (not_le.mp hlt) he₀
      exact absurd (lt_of_lt_of_le ht hle₀) (not_lt.mpr hct)
    · by_contra hlt
      have he := hs.le (not_le.mp hlt).le hi he₀
      exact absurd (lt_of_lt_of_le hcut (he.trans hle₀)) (lt_irrefl _)

-- What was in force before the start of a window can be dropped, as later windows start later.
theorem rposition_of_dropped (h : dropped ≠ [] → ∃ e, kept.head? = some e ∧ e.1 ≤ cutoff) :
    rposition (fun e => e.1 ≤ cutoff) (dropped ++ kept) =
      (rposition (fun e => e.1 ≤ cutoff) kept).map (· + dropped.length) := by
  cases hr : rposition (fun e => decide (e.1 ≤ cutoff)) kept
  case some k => exact rposition_append_of_some hr
  case none   =>
    rw [rposition_append_of_none hr, Option.map_none]
    by_cases hd : dropped = []
    case pos => rw [hd, rposition]
    case neg =>
      obtain ⟨e, he, hle⟩ := h hd
      have hf := rposition_eq_none.mp hr e (List.mem_of_mem_head? he)
      exact absurd hle (by simpa using hf)

end EpochLog
