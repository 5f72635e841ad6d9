import Nanocached.Cache.Theorems.Handoff
import Nanocached.Cache.Theorems.Keys

namespace Nanocached

namespace Contents

-- What a sweep may do to the contents it starts with.
def Sweeps (c : Contents) (now : Instant) (includeMarked : Bool) (owned : Option (Key → Bool)) :
    Change → Prop
  | .remove key  => (c.entry key).any (·.isExpiredAt now)
  | .discard key =>
    includeMarked ∧ key ∈ c.marked ∧
      ((c.entry key).any (·.isExpiredAt now) ∨ ¬owned.any (· key))
  | .unmark key  => includeMarked ∧ key ∈ c.marked ∧ owned.any (· key)
  | _            => False

-- Nothing was added to the contents and no entry was changed.
structure Shrinks (c c' : Contents) : Prop where
  entry  : ∀ {key e}, c'.entry key = some e → c.entry key = some e
  marked : c'.marked ⊆ c.marked

variable {c c' c'' : Contents} {now : Instant} {includeMarked : Bool} {owned : Option (Key → Bool)}
variable {change : Change}

theorem Shrinks.refl : Shrinks c c :=
  ⟨id, subset_rfl⟩

theorem Shrinks.trans (h₁ : Shrinks c c') (h₂ : Shrinks c' c'') : Shrinks c c'' :=
  ⟨fun he => h₁.entry (h₂.entry he), h₂.marked.trans h₁.marked⟩

theorem Sweeps.mono (hs : Shrinks c c') (h : c'.Sweeps now includeMarked owned change) :
    c.Sweeps now includeMarked owned change := by
  have hx {key} (h : (c'.entry key).any (·.isExpiredAt now)) :
      (c.entry key).any (·.isExpiredAt now) := by
    have ⟨e, he, hx⟩ := (Option.any_eq_true _ _).mp h
    exact (Option.any_eq_true _ _).mpr ⟨e, hs.entry he, hx⟩
  cases change with
  | remove  => exact hx h
  | discard => exact ⟨h.left, hs.marked h.right.left, h.right.right.imp_left hx⟩
  | unmark  => exact ⟨h.left, hs.marked h.right.left, h.right.right⟩
  | _       => exact h

theorem Sweeps.shrinks (h : c'.Sweeps now includeMarked owned change) :
    Shrinks c (c.apply change) := by
  have he {key key' : Key} {e : Content} (he : Function.update c.entry key none key' = some e) :
      c.entry key' = some e := by
    rw [Function.update_apply] at he
    split at he
    case isTrue  => contradiction
    case isFalse => exact he
  cases change with
  | remove | discard => exact ⟨he, Set.sdiff_subset⟩
  | unmark           => exact ⟨id, Set.sdiff_subset⟩
  | _                => contradiction

theorem shrinks_of_sweeps {cs : List Change} (ha : c.Allows cs)
    (hs : ∀ change ∈ cs, c'.Sweeps now includeMarked owned change) : Shrinks c (c.applyAll cs) :=
  applyAll_induction ha .refl fun hm _ hk => hk.trans (hs _ hm).shrinks

theorem Shrinks.entry_none {key : Key} (hs : Shrinks c c') (h : c.entry key = none) :
    c'.entry key = none :=
  Option.eq_none_iff_forall_ne_some.mpr fun _ he => nomatch h.symm.trans (hs.entry he)

end Contents

namespace Store

variable {sha256 : Bytes → Vector UInt8 32} {s : Store} {key : Key} {name : Bytes}

theorem markMigrated_steps (h : s.WF sha256) (key : Key) :
    ∃ cs ⊆ [.mark key], Steps sha256 cs s (s.markMigrated key) := by
  rw [markMigrated, findNamespace]
  cases hf : s.namespaces.lookup key.ns
  case none    => exact ⟨[], by simp, .refl⟩
  case some id =>
    obtain ⟨ns, hl, hn⟩ := h.index.mp hf
    simp only [hl]
    split
    case isFalse   => exact ⟨[], by simp, .refl⟩
    case isTrue hm =>
      obtain ⟨_, name⟩ := key
      cases hn
      exact ⟨_, List.Subset.refl _, .single (.mark hl hm.left hm.right)⟩

theorem clearMigratedMark_steps (h : s.WF sha256) (key : Key) :
    ∃ cs ⊆ [.unmark key], Steps sha256 cs s (s.clearMigratedMark key) := by
  rw [clearMigratedMark, findNamespace]
  cases hf : s.namespaces.lookup key.ns
  case none    => exact ⟨[], by simp, .refl⟩
  case some id =>
    obtain ⟨ns, hl, hn⟩ := h.index.mp hf
    simp only [hl, Namespace.releaseMark_eq]
    obtain ⟨_, name⟩ := key
    cases hn
    exact ⟨_, List.Subset.refl _, .single (.unmark hl)⟩

theorem clearMigratedMark_entryCount : (s.clearMigratedMark key).entryCount = s.entryCount := by
  rw [clearMigratedMark]
  split
  case h_1 => rfl
  case h_2 => split <;> rfl

theorem unmarkMigratedMany_steps (h : s.WF sha256) (keys : List Key) :
    ∃ cs, Steps sha256 cs s (s.unmarkMigratedMany keys).2 ∧
      ∀ change ∈ cs, ∃ key ∈ keys, change = .unmark key := by
  rw [unmarkMigratedMany]
  induction keys generalizing s
  case nil => exact ⟨[], .refl, by simp⟩
  case cons key keys hi =>
    have ⟨cs₁, hc₁, hs₁⟩ := clearMigratedMark_steps h key
    have ⟨cs₂, hs₂, hc₂⟩ := hi (hs₁.wf h)
    refine ⟨cs₁ ++ cs₂, hs₁.trans hs₂, fun change hm => ?_⟩
    rcases List.mem_append.mp hm with hm | hm
    · exact ⟨key, by simp, List.mem_singleton.mp (hc₁ hm)⟩
    · have ⟨key', hk, he⟩ := hc₂ change hm
      exact ⟨key', .tail _ hk, he⟩

theorem contents_apply_clear (hf : s.find name = none) :
    s.contents.apply (.clear name) = s.contents := by
  refine Contents.ext (funext fun key => ?_) (Set.ext fun key => ?_) rfl
  case refine_1 =>
    by_cases hn : key.ns = name <;> simp [Contents.apply, contents_entry, hn, hf]
  case refine_2 =>
    by_cases hn : key.ns = name <;> simp [Contents.apply, mem_contents_marked, hn, hf]

theorem clear_steps (h : s.WF sha256) (name : Bytes) : ∃ cs s',
    s.clear name = some ((s.find name).elim 0 (·.entries.size), s') ∧
    Steps sha256 cs s s' ∧ cs ⊆ [.clear name] ∧
    s'.contents = s.contents.apply (.clear name) := by
  rw [clear]
  cases hf : s.namespaces.lookup name
  case none    =>
    have hn : s.find name = none := by simp [find, findNamespace, hf]
    exact ⟨[], s, by simp [hn], .refl, by simp, (contents_apply_clear hn).symm⟩
  case some id =>
    obtain ⟨ns, hl, hn⟩ := h.index.mp hf
    cases hn
    simp only [hl, Option.bind_eq_bind, Option.bind_some, h.find_of_lookup hl]
    have hs : Steps sha256 _ s _ := .single (.clear hl)
    exact ⟨_, _, rfl, hs, List.Subset.refl _, (hs.contents h).right⟩

-- A mark is on an existing entry.
theorem isSome_of_marked (h : s.WF sha256) (hm : key ∈ s.contents.marked) :
    (s.contents.entry key).isSome := by
  have ⟨ns, hf, hm⟩ := mem_contents_marked.mp hm
  have ⟨id, hl, hn⟩ := h.find_eq_some_iff.mp hf
  obtain ⟨_, name⟩ := key
  cases hn
  exact isSome_contents_entry hf ((h.slot hl).marks hm)

end Store

namespace Cache

variable {sha256 : Bytes → Vector UInt8 32} {s : Cache} {key : Key}

theorem sweepKey_steps (h : s.WF sha256) (key : Key) (now : Instant) (includeMarked : Bool)
    (owned : Option (Key → Bool)) : ∃ n s' cs,
      s.sweepKey key now includeMarked owned = some (n, s') ∧
      Steps sha256 cs s s' ∧
      (∀ change ∈ cs, s.contents.Sweeps now includeMarked owned change) ∧
      n + s'.entryCount = s.entryCount := by
  have hm : s.isMarked key ↔ key ∈ s.contents.marked := Iff.rfl
  rw [sweepKey, Store.any_isExpiredAt]
  generalize hx : (s.contents.entry key).any (·.isExpiredAt now) = expired
  generalize hi : (includeMarked && s.isMarked key) = marked
  have him (h : marked = true) : includeMarked ∧ key ∈ s.contents.marked := by
    rw [← hm, ← Bool.and_eq_true, hi, h]
  dsimp only
  split
  case isTrue hc =>
    simp only [Bool.and_eq_true] at hc
    obtain ⟨cs, hcs, hs⟩ := Store.clearMigratedMark_steps h key
    refine ⟨_, _, cs, rfl, ⟨hs, rfl, rfl⟩, fun change hm => ?_, ?_⟩
    · cases List.mem_singleton.mp (hcs hm)
      obtain ⟨hi, hm⟩ := him hc.left.left
      exact ⟨hi, hm, hc.right⟩
    · rw [Store.clearMigratedMark_entryCount, Nat.zero_add]
  case isFalse hk =>
    split
    case isFalse => exact ⟨_, s, [], rfl, .refl, by simp, Nat.zero_add _⟩
    case isTrue hc =>
      have he : (s.contents.entry key).isSome := by
        rcases Bool.or_eq_true _ _ |>.mp hc with hc | hc
        · exact Store.isSome_of_marked h (him hc).right
        · obtain ⟨e, he, _⟩ := (Option.any_eq_true _ _).mp (hx.trans hc)
          simp [he]
      obtain ⟨entry, hp⟩ : ∃ entry, s.peek key = some entry := by
        simpa [Store.contents, Option.isSome_iff_exists] using he
      obtain ⟨i, ns, hl, hn, hm, hr⟩ := Store.removeEntry_of_some h hp
      simp only [hr, Option.bind_eq_bind, Option.bind_some, Option.pure_def]
      have hcount : 1 + (s.removed i ns key.name).entryCount = s.entryCount := by
        have := h.entryCount_pos hl
        rw [Store.removed_entryCount]
        omega
      obtain ⟨_, name⟩ := key
      cases hn
      cases marked
      case true =>
        refine ⟨_, _, [.discard ⟨ns.name, name⟩], rfl, ?_, ?_, ?_⟩
        · simp only [if_true, forgetTombstone_eq]
          exact ⟨.single (.discard hl (AList.mem_of_lookup hm)), rfl, rfl⟩
        · simp only [List.mem_singleton, forall_eq]
          obtain ⟨hi, hm⟩ := him rfl
          refine ⟨hi, hm, ?_⟩
          rw [hx]
          cases expired <;> simp_all
        · simp only [if_true, forgetTombstone_eq]
          exact (congrArg _ forgotten_entryCount).trans hcount
      case false =>
        refine ⟨_, _, [.remove ⟨ns.name, name⟩], rfl,
          ⟨.single (.remove hl (AList.mem_of_lookup hm)), rfl, rfl⟩, ?_, hcount⟩
        simp only [List.mem_singleton, forall_eq]
        exact hx.trans (by simpa using hc)

theorem sweepGo_steps (h : s.WF sha256) (now : Instant) (includeMarked : Bool)
    (owned : Option (Key → Bool)) (budget removed : Nat) : ∃ n s' cs,
      sweepGo now includeMarked owned budget removed s = some (n, s') ∧
      Steps sha256 cs s s' ∧
      (∀ change ∈ cs, s.contents.Sweeps now includeMarked owned change) ∧
      n + s'.entryCount = removed + s.entryCount := by
  induction budget generalizing s removed
  case zero => exact ⟨removed, s, [], rfl, .refl, by simp, rfl⟩
  case succ budget hi =>
    rw [sweepGo]
    cases hp : s.pendingRemoval
    case nil => exact ⟨removed, s, [], rfl, .refl, by simp, rfl⟩
    case cons key rest =>
      have ⟨n, s₁, cs₁, he₁, hs₁, hc₁, hn₁⟩ :=
        sweepKey_steps (s := { s with pendingRemoval := rest }) h key now includeMarked owned
      have ⟨m, s₂, cs₂, he₂, hs₂, hc₂, hn₂⟩ := hi (hs₁.wf h) (removed + n)
      have hk : Contents.Shrinks s.contents s₁.contents := by
        rw [(hs₁.contents h).right]
        exact Contents.shrinks_of_sweeps (hs₁.contents h).left hc₁
      refine ⟨m, s₂, cs₁ ++ cs₂, by simp [he₁, he₂], hs₁.trans hs₂, fun change hm => ?_, ?_⟩
      · rcases List.mem_append.mp hm with hm | hm
        · exact hc₁ change hm
        · exact (hc₂ change hm).mono hk
      · change n + s₁.entryCount = s.entryCount at hn₁
        omega

theorem toStore_refill (order : IterOrder Key) (now : Instant) (includeMarked : Bool) :
    (s.refill order now includeMarked).toStore = s.toStore := by
  rw [refill]
  split <;> rfl

theorem refill_steps (order : IterOrder Key) (now : Instant) (includeMarked : Bool) :
    Steps sha256 [] s (s.refill order now includeMarked) := by
  rw [refill]
  split
  case isTrue  => exact ⟨.refl, rfl, rfl⟩
  case isFalse => exact .refl

-- A sweep forgets old tombstones first, which does not matter to the entries.
theorem refill_spec (h : s.WF sha256) (order : IterOrder Key) (now : Instant)
    (includeMarked : Bool) :
    let queued := (s.pruneTombstones now).refill order now includeMarked
    queued.WF sha256 ∧ Contents.Shrinks s.contents queued.contents ∧
      queued.contents.entry = s.contents.entry := by
  have ⟨he, hm⟩ := s.contents_pruneTombstones h now
  have ⟨_, hs, _⟩ := pruneTombstones_steps sha256 s now
  simp only [toStore_refill]
  exact ⟨hs.wf h, ⟨fun {key e} h => he ▸ h, hm.subset⟩, he⟩

theorem sweepAt_steps (h : s.WF sha256) (order : IterOrder Key) (now : Instant)
    (includeMarked : Bool) (owned : Option (Key → Bool)) :
    ∃ (n : Nat) (s' : Cache) (old : List Key) (cs : List Change),
      s.sweepAt order now includeMarked owned = some (n, s') ∧
      Store.Steps sha256 (old.map (.expire · now) ++ cs) s.toStore s'.toStore ∧
      (∀ change ∈ cs, s.contents.Sweeps now includeMarked owned change) ∧
      n + s'.entryCount = s.entryCount ∧
      Steps sha256 cs (s.pruneTombstones now) s' := by
  have ⟨old, hs₁, _⟩ := pruneTombstones_steps sha256 s now
  have hr : Steps sha256 [] (s.pruneTombstones now) _ := refill_steps order now includeMarked
  have ⟨hw, hk, hq⟩ := refill_spec h order now includeMarked
  have hcount := h.entryCount_eq hw hq
  rw [sweepAt]
  generalize (s.pruneTombstones now).refill order now includeMarked = s₂ at hr hw hk hcount ⊢
  have ⟨n, s', cs, he, hs₂, hc, hn⟩ := sweepGo_steps hw now includeMarked owned sweepBudget 0
  have hs₂ := hr.trans hs₂
  refine ⟨n, s', old, cs, he, hs₁.trans hs₂.1, fun change hm => (hc change hm).mono hk, ?_, hs₂⟩
  omega

end Cache
end Nanocached
