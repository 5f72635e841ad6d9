import Nanocached.Cache.TimedMap
import Nanocached.Cache.Theorems.Reads
import Nanocached.Cache.Theorems.Writes

namespace Nanocached

variable {sha256 : Bytes → Vector UInt8 32} {key : Key} {now : Instant} {entry : Entry}

namespace Store

variable {s : Store}

theorem any_isExpiredAt :
    (s.peek key).any (·.isExpiredAt now) = (s.contents.entry key).any (·.isExpiredAt now) := by
  rw [contents, Option.any_map]
  rfl

-- A digest is computed at most once per value, which makes no difference to the answer.
theorem digestOf_steps (h : s.WF sha256) (key : Key) : ∃ s',
    s.digestOf sha256 key = ((s.contents.entry key).map fun e => contentDigest sha256 e.1, s') ∧
    Steps sha256 [] s s' := by
  rw [digestOf, findNamespace]
  cases hf : s.namespaces.lookup key.ns
  case none =>
    have hp : s.contents.entry key = none := by simp [contents, peek, find, findNamespace, hf]
    exact ⟨s, by simp [hp], .refl⟩
  case some id =>
    obtain ⟨ns, hl, hn⟩ := h.index.mp hf
    have hc : s.contents.entry key =
        (ns.entries.lookup key.name).map fun e => (e.value, e.expiresAt) :=
      entry_of_find (h.find_eq_some_iff.mpr ⟨id, hl, hn⟩)
    simp only [hl, hc]
    cases he : ns.entries.lookup key.name
    case none => exact ⟨s, rfl, .refl⟩
    case some entry =>
      dsimp only
      split
      case isTrue => exact ⟨s, rfl, .refl⟩
      case isFalse hv =>
        cases hd : ns.digests.lookup key.name
        case none =>
          refine ⟨_, rfl, .silent (.hash hl he (Nat.le_of_not_lt hv) ?_)⟩
          exact AList.lookup_eq_none.mp hd
        case some digest =>
          obtain ⟨entry', he', _, hd'⟩ := (h.slot hl).digests hd
          cases he.symm.trans he'
          exact ⟨s, by simp [hd'], .refl⟩

end Store

namespace Cache

variable {s : Cache}

theorem removeExpired_steps (h : s.WF sha256) (key : Key) (now : Instant) : ∃ s',
    s.removeExpired key now = some s' ∧
    Steps sha256 (s.contents.purge now key) s s' := by
  rw [removeExpired, Contents.purge, Store.any_isExpiredAt]
  split
  case isFalse    => exact ⟨s, rfl, .refl⟩
  case isTrue hx  =>
    obtain ⟨t, he, hs⟩ := Store.removeEntry_steps h key
    refine ⟨_, by rw [he]; rfl, ?_⟩
    obtain ⟨e, he, _⟩ := (Option.any_eq_true _ _).mp hx
    refine ⟨?_, rfl, rfl⟩
    simpa [Contents.removal, he] using hs

theorem conditionHoldsAt_steps (h : s.WF sha256) (key : Key) (condition : CasCondition)
    (now : Instant) : ∃ s',
      s.conditionHoldsAt sha256 key condition now =
        some (condition.holds sha256 ((s.contents.live now key).map (·.1)), s') ∧
      Steps sha256 (s.contents.purge now key) s s' := by
  have ⟨s₁, he, hs⟩ := s.removeExpired_steps h key now
  have hl : s₁.contents.entry key = s.contents.live now key := by
    rw [(hs.contents h).right, Contents.applyAll_purge]
  have hp : s₁.contents.entry key = (s₁.peek key).map fun e => (e.value, e.expiresAt) := rfl
  simp only [conditionHoldsAt, he, Option.bind_eq_bind, Option.bind_some, ← hl]
  cases condition
  case absent  => exact ⟨s₁, by simp [CasCondition.holds, hp], hs⟩
  case present => exact ⟨s₁, by simp [CasCondition.holds, hp], hs⟩
  case digest expected =>
    have ⟨t, hd, ht⟩ := Store.digestOf_steps (hs.wf h) key
    have ht : Steps sha256 [] s₁ { s₁ with toStore := t } := ⟨ht, rfl, rfl⟩
    refine ⟨{ s₁ with toStore := t }, ?_, by simpa using hs.trans ht⟩
    have hc (a b : Digest) : constantTimeEq a.toList b.toList = decide (a = b) := by
      rw [Bool.eq_iff_iff, constantTimeEq_iff, decide_eq_true_iff, Vector.toList_inj]
    simp [hd, hc, CasCondition.holds, Option.any_map]

theorem casSetAt_of_holds (h : s.WF sha256) {condition : CasCondition} (value : Bytes)
    (ttl : Option Duration)
    (hc : condition.holds sha256 ((s.contents.live now key).map (·.1))) :
    ∃ (keys : List Key) (s' : Cache),
      s.casSetAt sha256 key condition value ttl now = some (.stored, s') ∧
      Steps sha256 (s.contents.purge now key ++
        .write key value (ttl.bind (checkedAdd now)) :: keys.map .remove) s s' ∧
      (s.Unlimited → keys = []) := by
  have ⟨s₁, he, hs⟩ := s.conditionHoldsAt_steps h key condition now
  have ⟨keys, s₂, hi, hs', hu⟩ := insert_steps (s := { s₁ with casSets := s₁.casSets + 1 })
    (hs.wf h) key value (ttl.bind (checkedAdd now))
  refine ⟨keys, s₂, ?_, hs.trans hs', fun hn => hu ((hs.frame h).unlimited hn)⟩
  simp [casSetAt, he, hc, hi]

theorem casSetAt_of_not_holds (h : s.WF sha256) {condition : CasCondition} (value : Bytes)
    (ttl : Option Duration)
    (hc : ¬condition.holds sha256 ((s.contents.live now key).map (·.1))) : ∃ s',
      s.casSetAt sha256 key condition value ttl now = some (.mismatch, s') ∧
      Steps sha256 (s.contents.purge now key) s s' := by
  have ⟨s₁, he, hs⟩ := s.conditionHoldsAt_steps h key condition now
  exact ⟨s₁, by simp [casSetAt, he, hc], hs⟩

theorem casDeleteAt_steps (h : s.WF sha256) (key : Key) (expected : Digest) (now : Instant) :
    ∃ s',
      s.casDeleteAt sha256 key expected now =
        some ((CasCondition.digest expected).holds sha256 ((s.contents.live now key).map (·.1)),
          s') ∧
      Steps sha256
        (s.contents.purge now key ++
          if (CasCondition.digest expected).holds sha256 ((s.contents.live now key).map (·.1))
          then [.remove key] else []) s s' := by
  have ⟨s₁, he, hs⟩ := s.conditionHoldsAt_steps h key (.digest expected) now
  have hl : s₁.contents.entry key = s.contents.live now key := by
    rw [(hs.contents h).right, Contents.applyAll_purge]
  have ⟨t, hr, ht⟩ := Store.removeEntry_steps (hs.wf h) key
  simp only [casDeleteAt, he, Option.bind_eq_bind, Option.bind_some]
  cases hc : (CasCondition.digest expected).holds sha256 ((s.contents.live now key).map (·.1))
  case false => exact ⟨s₁, rfl, by simpa using hs⟩
  case true  =>
    have hi : (s.contents.live now key).isSome := by
      cases hn : s.contents.live now key <;> simp [CasCondition.holds, hn] at hc ⊢
    refine ⟨_, by simp [hr]; rfl, hs.trans ?_⟩
    refine ⟨?_, rfl, rfl⟩
    simpa [Contents.removal, hl, hi] using ht

theorem deleteAt_steps (h : s.WF sha256) (key : Key) (now : Instant) : ∃ s',
    s.deleteAt key now = some ((s.contents.live now key).isSome, s') ∧
    Steps sha256 (s.contents.removal key) s s' := by
  have ⟨t, hr, ht⟩ := Store.removeEntry_steps h key
  refine ⟨{ s with toStore := t }, ?_, ht, rfl, rfl⟩
  have hi : (s.peek key).isSome = (s.contents.entry key).isSome := by simp [Store.contents]
  simp only [deleteAt, hr, Store.any_isExpiredAt, hi, Option.bind_eq_bind, Option.bind_some,
    Option.pure_def, Contents.live]
  cases s.contents.entry key
  case none   => rfl
  case some e => cases hx : e.isExpiredAt now <;> simp [hx, Option.filter]

theorem delete_steps (h : s.WF sha256) (key : Key) (now : Instant) : ∃ s',
    s.delete key now = some ((s.contents.live now key).isSome, s') ∧
    Steps sha256 (s.contents.removal key) s s' := by
  have ⟨s', he, hs⟩ := s.deleteAt_steps h key now
  simp only [delete, he, Option.bind_eq_bind, Option.bind_some]
  exact ⟨_, rfl, hs⟩

-- The sum, if there is one that can be stored.
def incremented (value : Bytes) (delta : Int) : Option Int :=
  (parseDecimalI64 value).bind (checkedAddI64 · delta)

theorem peek_of_live {e : Content} (hl : s.contents.live now key = some e) : ∃ entry,
    s.peek key = some entry ∧ ¬entry.isExpiredAt now ∧ e = (entry.value, entry.expiresAt) := by
  have ⟨he, hx⟩ := Option.filter_eq_some_iff.mp hl
  have ⟨entry, hp, he⟩ := Option.map_eq_some_iff.mp he
  subst he
  exact ⟨entry, hp, by simpa using hx, rfl⟩

theorem incrAt_of_not_live (h : s.WF sha256) (delta : Int) (hl : s.contents.live now key = none) :
    ∃ s',
      s.incrAt key delta now = some (.notFound, s') ∧
      Steps sha256 (s.contents.purge now key) s s' := by
  have ⟨t, hr, ht⟩ := Store.removeEntry_steps h key
  rw [incrAt]
  cases hp : s.peek key
  case none =>
    refine ⟨s, rfl, ?_⟩
    simpa [Contents.purge, Store.entry_of_peek_none hp] using .refl
  case some entry =>
    have hc := Store.entry_of_peek hp
    have hx : entry.isExpiredAt now := by
      simpa [Contents.live, hc, Option.filter] using hl
    simp only [hx, if_true, hr, Option.bind_eq_bind, Option.bind_some]
    refine ⟨_, rfl, ?_, rfl, rfl⟩
    simpa [Contents.purge, Contents.removal, hc, hx] using ht

theorem incrAt_of_none {e : Content} {delta : Int} (hl : s.contents.live now key = some e)
    (hn : incremented e.1 delta = none) : s.incrAt key delta now = some (.notNumeric, s) := by
  have ⟨entry, hp, hx, he⟩ := peek_of_live hl
  subst he
  simp only [incrAt, hp, hx]
  cases hd : parseDecimalI64 entry.value
  case none   => rfl
  case some n =>
    rw [incremented, hd, Option.bind_some] at hn
    simp [hn]

theorem incrAt_of_some (h : s.WF sha256) {e : Content} {delta n : Int}
    (hl : s.contents.live now key = some e) (hn : incremented e.1 delta = some n) :
    ∃ (keys : List Key) (s' : Cache),
      s.incrAt key delta now = some (.value n (e.2.map (durationSince · now)), s') ∧
      Steps sha256 (.write key (toDecimal n) e.2 :: keys.map .remove) s s' ∧
      (s.Unlimited → keys = []) := by
  have ⟨entry, hp, hx, he⟩ := peek_of_live hl
  subst he
  have ⟨n₀, hd, ha⟩ := Option.bind_eq_some_iff.mp hn
  have ⟨keys, s₁, hi, hs, hu⟩ := insert_steps (s := { s with incrs := s.incrs + 1 }) h key
    (toDecimal n) entry.expiresAt
  refine ⟨keys, s₁, ?_, hs, hu⟩
  simp [incrAt, hp, hx, hd, ha, hi, Store.remainingTtl]

end Cache
end Nanocached
