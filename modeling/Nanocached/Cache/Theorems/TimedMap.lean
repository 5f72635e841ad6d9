import Nanocached.Cache.Theorems.Decimal
import Nanocached.Cache.Theorems.FreshMarks

namespace Nanocached

variable {sha256 : Bytes → Vector UInt8 32} {key : Key} {now now' : Instant} {e : Content}

namespace TimedMap

variable {m : TimedMap} {c c' : Contents}

theorem live_eq_some_iff : m.live now key = some e ↔ m key = some e ∧ ¬e.isExpiredAt now := by
  simp [live, Option.filter_eq_some_iff]

-- The contents are those of the map, except that entries which have expired may be missing.
structure Represents (now : Instant) (m : TimedMap) (c : Contents) : Prop where
  stored : ∀ {key e}, c.entry key = some e → m key = some e
  live   : ∀ {key e}, m.live now key = some e → c.entry key = some e

namespace Represents

theorem of_empty (h : ∀ key, c.entry key = none) : Represents now .empty c where
  stored he := by simp [h] at he
  live hl   := by simp [TimedMap.live, TimedMap.empty] at hl

theorem mono (h : Represents now m c) (hn : now ≤ now') : Represents now' m c where
  stored  := h.stored
  live hl :=
    have ⟨he, hx⟩ := live_eq_some_iff.mp hl
    h.live <| live_eq_some_iff.mpr ⟨he, fun hx' => hx (Content.isExpiredAt_mono hx' hn)⟩

theorem live_eq (h : Represents now m c) : c.live now key = m.live now key := by
  ext e
  constructor
  case mp =>
    intro hl
    have ⟨he, hx⟩ := Option.filter_eq_some_iff.mp hl
    exact live_eq_some_iff.mpr ⟨h.stored he, by simpa using hx⟩
  case mpr =>
    intro hl
    have ⟨_, hx⟩ := live_eq_some_iff.mp hl
    exact Option.filter_eq_some_iff.mpr ⟨h.live hl, by simpa using hx⟩

theorem of_entry_eq (h : Represents now m c) (he : c'.entry = c.entry) : Represents now m c' :=
  ⟨he ▸ h.stored, he ▸ h.live⟩

theorem update (h : Represents now m c) {e : Option Content}
    (he : c'.entry = Function.update c.entry key e) :
    Represents now (Function.update m key e) c' := by
  constructor
  case stored =>
    intro k x hk
    rw [he, Function.update_apply] at hk
    rw [Function.update_apply]
    split at hk
    case isTrue hn  => rwa [if_pos hn]
    case isFalse hn => rw [if_neg hn, h.stored hk]
  case live =>
    intro k x hl
    rw [he, Function.update_apply]
    rw [TimedMap.live, Function.update_apply] at hl
    split at hl
    case isTrue hn  => rw [if_pos hn, (Option.filter_eq_some_iff.mp hl).left]
    case isFalse hn => rw [if_neg hn, h.live hl]

theorem removeExpired (h : Represents now m c) (hx : (m key).any (·.isExpiredAt now)) :
    Represents now m (c.apply (.remove key)) := by
  constructor
  case stored =>
    intro k e he
    simp only [Contents.apply, Function.update_apply] at he
    split at he
    case isTrue  => contradiction
    case isFalse => exact h.stored he
  case live =>
    intro k e hl
    obtain ⟨he, hn⟩ := live_eq_some_iff.mp hl
    have hk : k ≠ key := by
      rintro rfl
      simp [he, hn] at hx
    exact (Function.update_of_ne hk ..).trans (h.live hl)

theorem any_isExpiredAt (h : Represents now m c) (hx : (c.entry key).any (·.isExpiredAt now)) :
    (m key).any (·.isExpiredAt now) := by
  have ⟨e, he, hx⟩ := (Option.any_eq_true _ _).mp hx
  exact (Option.any_eq_true _ _).mpr ⟨e, h.stored he, hx⟩

theorem purge (h : Represents now m c) (key : Key) :
    Represents now m (c.applyAll (c.purge now key)) := by
  rw [Contents.purge]
  split
  case isTrue hx => exact h.removeExpired (h.any_isExpiredAt hx)
  case isFalse   => exact h

theorem clear (h : Represents now m c) (ns : Bytes) :
    Represents now (fun key => if key.ns = ns then none else m key) (c.apply (.clear ns)) := by
  constructor
  case stored =>
    intro k e he
    simp only [Contents.apply] at he
    split at he
    case isTrue        => contradiction
    case isFalse hn    => rw [if_neg hn, h.stored he]
  case live =>
    intro k e hl
    simp only [TimedMap.live] at hl
    simp only [Contents.apply]
    split at hl
    case isTrue        => contradiction
    case isFalse hn    => rw [if_neg hn, h.live hl]

theorem counts {s : Store} (h : Represents now m s.contents) (hw : s.WF sha256) (p : Key → Prop)
    [DecidablePred p] : m.Counts now p (s.storedKeys.filter p).card := by
  refine ⟨_, rfl, fun key hm => ?_, fun key hp hl => ?_⟩
  case refine_1 =>
    have ⟨hm, hp⟩ := Finset.mem_filter.mp hm
    have ⟨e, he⟩ := Option.isSome_iff_exists.mp (hw.mem_storedKeys.mp hm)
    exact ⟨hp, by simp [h.stored he]⟩
  case refine_2 =>
    have ⟨e, he⟩ := Option.isSome_iff_exists.mp hl
    exact Finset.mem_filter.mpr ⟨hw.mem_storedKeys.mpr (by simp [h.live he]), hp⟩

end Represents
end TimedMap

namespace Contents

variable {c : Contents} {expiresAt : Option Instant → Option Instant}

theorem access_of_not_live (h : c.live now key = none) :
    c.access now key expiresAt = c.purge now key := by
  rw [access, purge]
  cases he : c.entry key
  case none   => rfl
  case some e =>
    have hx : e.isExpiredAt now := by simpa [live, he, Option.filter] using h
    simp [hx]

theorem entry_access_of_live (h : c.live now key = some e) :
    (c.applyAll (c.access now key expiresAt)).entry =
      Function.update c.entry key (some (e.1, expiresAt e.2)) := by
  have ⟨he, hx⟩ := Option.filter_eq_some_iff.mp h
  simp only [Bool.not_eq_true', ← Bool.not_eq_true] at hx
  simp [access, he, hx, apply]

end Contents

namespace Cache

open TimedMap (Represents)

variable {s s' : Cache} {m : TimedMap} {op : Op}

theorem incremented_eq_some_iff {value : Bytes} {delta k : Int} : incremented value delta = some k ↔
    ∃ n, IsDecimalI64 value n ∧ InRangeI64 (n + delta) ∧ n + delta = k := by
  simp only [incremented, Option.bind_eq_some_iff, parseDecimalI64_eq_some_iff, checkedAddI64,
    InRangeI64, Option.ite_none_right_eq_some, Option.some.injEq]

theorem incremented_eq_none_iff {value : Bytes} {delta : Int} : incremented value delta = none ↔
    ∀ n, IsDecimalI64 value n → ¬InRangeI64 (n + delta) := by
  simp only [Option.eq_none_iff_forall_ne_some, ne_eq, incremented_eq_some_iff]
  exact ⟨fun h n hd hi => h _ ⟨n, hd, hi, rfl⟩, fun h k ⟨n, hd, hi, _⟩ => h n hd hi⟩

section SweepExpired

variable {c : Contents} {cs : List Change} (hr : Represents now m s.contents)
variable (he : c.entry = s.contents.entry) (ha : c.Allows cs)
variable (hc : ∀ change ∈ cs, s.contents.Sweeps now false none change)

include hr he ha hc

-- What a sweep of the expired entries removes was absent from the map anyway.
theorem represents_of_sweepExpired : Represents now m (c.applyAll cs) := by
  refine Contents.applyAll_induction (P := Represents now m) ha (hr.of_entry_eq he) ?_
  intro c change hm _ hr'
  have hs := hc _ hm
  cases change with
  | remove key  => exact hr'.removeExpired (hr.any_isExpiredAt hs)
  | discard key => exact absurd hs.left Bool.false_ne_true
  | unmark key  => exact absurd hs.left Bool.false_ne_true
  | _           => contradiction

theorem count_of_sweepExpired (h : s.WF sha256) (h' : s'.WF sha256) {n : Nat}
    (hn : n + s'.entryCount = s.entryCount) (he' : s'.contents = c.applyAll cs) :
    ∃ keys : Finset Key, keys.card = n ∧ ∀ key ∈ keys, (m key).any (·.isExpiredAt now) := by
  refine ⟨s.storedKeys \ s'.storedKeys, ?_, fun key hk => ?_⟩
  case refine_1 =>
    have hk := Contents.shrinks_of_sweeps ha hc
    have hs : s'.storedKeys ⊆ s.storedKeys := fun key hm => by
      have ⟨e, hm⟩ := Option.isSome_iff_exists.mp (h'.mem_storedKeys.mp hm)
      rw [h.mem_storedKeys, ← he, hk.entry (he' ▸ hm)]
      rfl
    rw [Finset.card_sdiff_of_subset hs, h.card_storedKeys, h'.card_storedKeys]
    omega
  case refine_2 =>
    have ⟨hm, hn⟩ := Finset.mem_sdiff.mp hk
    rw [h'.mem_storedKeys, he'] at hn
    have ⟨e, hm⟩ := Option.isSome_iff_exists.mp (h.mem_storedKeys.mp hm)
    rcases Contents.entry_of_sweeps ha (he ▸ hm) hc with hs | ⟨_, hx | hx⟩
    · simp [hs] at hn
    · exact hr.any_isExpiredAt hx
    · exact absurd hx.left Bool.false_ne_true

end SweepExpired

theorem exec_represents (h : s.WF sha256) (hu : s.Unlimited) (hr : Represents now m s.contents)
    (ho : op.IsTimed) : ∃ r s' m', exec sha256 s now op = some (r, s') ∧
      TimedMap.Step sha256 now m op r m' ∧ Represents now m' s'.contents := by
  cases op with
  | set key value =>
    obtain ⟨keys, s', he, hs, hk⟩ := s.set_steps h key value
    cases hk hu
    refine ⟨.done, s', _, by simp [exec, he], .set, ?_⟩
    rw [(hs.contents h).right]
    exact hr.update rfl
  | setWithTtl key value ttl =>
    obtain ⟨keys, s', he, hs, hk⟩ := s.setWithTtl_steps h key value ttl now
    cases hk hu
    refine ⟨.done, s', _, by simp [exec, he], .setWithTtl, ?_⟩
    rw [(hs.contents h).right]
    exact hr.update rfl
  | get key =>
    obtain ⟨s', he, hs⟩ := s.getAt_steps h key now
    rw [hr.live_eq] at he
    refine ⟨_, s', m, by simp [exec, he], .get, ?_⟩
    rw [(hs.contents h).right]
    cases hl : s.contents.live now key
    case none => exact Contents.access_of_not_live hl ▸ hr.purge key
    case some e =>
      refine hr.of_entry_eq ((Contents.entry_access_of_live hl).trans ?_)
      rw [← (Option.filter_eq_some_iff.mp hl).left, Function.update_eq_self]
  | incr key delta =>
    cases hl : s.contents.live now key
    case none =>
      obtain ⟨s', he, hs⟩ := incrAt_of_not_live h delta hl
      refine ⟨_, s', m, by simp [exec, he], .incrNotFound (hr.live_eq ▸ hl), ?_⟩
      exact (hs.contents h).right ▸ hr.purge key
    case some e =>
      have hl' := hr.live_eq ▸ hl
      cases hn : incremented e.1 delta
      case none =>
        have he := incrAt_of_none hl hn
        refine ⟨_, s, m, by simp [exec, he], .incrNotNumeric hl' ?_, hr⟩
        exact incremented_eq_none_iff.mp hn
      case some k =>
        obtain ⟨keys, s', he, hs, hk⟩ := incrAt_of_some h hl hn
        cases hk hu
        obtain ⟨n, hd, hi, rfl⟩ := incremented_eq_some_iff.mp hn
        refine ⟨_, s', _, by simp [exec, he], .incr hl' hd hi, ?_⟩
        rw [(hs.contents h).right]
        exact hr.update rfl
  | touch key ttl promote =>
    obtain ⟨s', he, hs⟩ := s.touchAt_steps h key ttl promote now
    cases hl : s.contents.live now key
    case none =>
      refine ⟨.touched none, s', m, by simp [exec, he, hl], .touchNotFound (hr.live_eq ▸ hl), ?_⟩
      rw [(hs.contents h).right, Contents.access_of_not_live hl]
      exact hr.purge key
    case some e =>
      refine ⟨.touched _, s', _, by simp [exec, he, hl], .touch (hr.live_eq ▸ hl), ?_⟩
      rw [(hs.contents h).right]
      exact hr.update (Contents.entry_access_of_live hl)
  | casSet key condition value ttl =>
    by_cases hc : condition.holds sha256 ((s.contents.live now key).map (·.1))
    case pos =>
      obtain ⟨keys, s', he, hs, hk⟩ := casSetAt_of_holds h value ttl hc
      cases hk hu
      refine ⟨_, s', _, by simp [exec, he], .casSet (hr.live_eq ▸ hc), ?_⟩
      rw [(hs.contents h).right, Contents.applyAll_append]
      exact (hr.purge key).update rfl
    case neg =>
      obtain ⟨s', he, hs⟩ := casSetAt_of_not_holds h value ttl hc
      refine ⟨_, s', m, by simp [exec, he], .casSetMismatch (hr.live_eq ▸ hc), ?_⟩
      exact (hs.contents h).right ▸ hr.purge key
  | casDelete key expected =>
    obtain ⟨s', he, hs⟩ := s.casDeleteAt_steps h key expected now
    have hc := (hs.contents h).right
    rw [Contents.applyAll_append] at hc
    rw [hr.live_eq] at he hc
    by_cases hd : (CasCondition.digest expected).holds sha256 ((m.live now key).map (·.1))
    case pos =>
      refine ⟨.flag true, s', _, by simp [exec, he, hd], .casDelete hd, ?_⟩
      rw [hc, if_pos hd]
      exact (hr.purge key).update rfl
    case neg =>
      refine ⟨.flag false, s', m, by simp [exec, he, hd], .casDeleteMismatch hd, ?_⟩
      rw [hc, if_neg hd]
      exact hr.purge key
  | delete key =>
    obtain ⟨s', he, hs⟩ := s.delete_steps h key now
    rw [hr.live_eq] at he
    refine ⟨_, s', _, by simp [exec, he], .delete, ?_⟩
    refine hr.update ?_
    rw [(hs.contents h).right, Contents.removal]
    cases hk : s.contents.entry key
    case none   => exact (Function.update_eq_iff.mpr ⟨hk.symm, fun _ _ => rfl⟩).symm
    case some e => rfl
  | clear ns =>
    obtain ⟨cs, t, he, hs, _, hc⟩ := Store.clear_steps h ns
    rw [← h.card_storedKeys_filter] at he
    refine ⟨_, { s with toStore := t }, _, by simp [exec, he]; rfl, .clear ?_, hc ▸ hr.clear ns⟩
    exact hr.counts h (·.ns = ns)
  | clearAll =>
    refine ⟨_, _, _, rfl, .clearAll ?_, .of_empty fun _ => rfl⟩
    have hn := hr.counts h fun _ => True
    rwa [Finset.filter_true, h.card_storedKeys] at hn
  | sweepExpired order =>
    obtain ⟨n, s', old, cs, he, hs, hc, hn, _⟩ := s.sweepAt_steps h order now false none
    obtain ⟨ha, happ⟩ := hs.contents h
    have ha := (Contents.allows_append.mp ha).right
    rw [Contents.applyAll_append] at happ
    have hold := Contents.entry_applyAll_map (f := (.expire · now)) (fun _ _ => rfl) s.contents old
    obtain ⟨keys, rfl, hk⟩ := count_of_sweepExpired hr hold ha hc h (hs.wf h) hn happ
    refine ⟨_, s', m, by simp [exec, he], .sweepExpired hk, ?_⟩
    exact happ ▸ represents_of_sweepExpired hr hold ha hc
  | keys order =>
    refine ⟨_, s, m, rfl, .keys ?_ fun key => ?_, hr⟩
    · exact (order.perm _).nodup_iff.mpr (h.nodup_keysWhere _)
    · rw [h.mem_keysAt, hr.live_eq]
  | _ => contradiction

theorem execAll_represents {calls : List (Instant × Op)} (h : s.WF sha256) (hu : s.Unlimited)
    (hr : Represents now m s.contents) (ht : ((now :: calls.map (·.1)).Pairwise (· ≤ ·)))
    (ho : ∀ call ∈ calls, call.2.IsTimed) : ∃ es s' m',
      execAll sha256 s calls = some (es, s') ∧ TimedMap.Run sha256 m es m' := by
  induction calls generalizing s now m
  case nil => exact ⟨[], s, m, rfl, .refl⟩
  case cons call calls hi =>
    have ⟨hn, ht⟩ := List.pairwise_cons.mp ht
    have hr := hr.mono (hn call.1 (by simp))
    have ⟨r, s₁, m₁, he, hs, hr₁⟩ := exec_represents h hu hr (ho call (by simp))
    have ⟨es, s', m', ha, hm⟩ := hi (wf_of_exec h he) ((frame_of_exec h he).unlimited hu) hr₁ ht
      fun c hc => ho c (.tail _ hc)
    refine ⟨⟨call.1, call.2, r⟩ :: es, s', m', ?_, .head hs hm⟩
    simp [execAll, he, ha]

-- The answers of a cache without limits are those of the map.
theorem execAll_timedMap (sha256 : Bytes → Vector UInt8 32) (calls : List (Instant × Op))
    (ht : (calls.map (·.1)).Pairwise (· ≤ ·)) (ho : ∀ call ∈ calls, call.2.IsTimed) :
    ∃ es s m, execAll sha256 (withBudgets (.ofNat usizeMax) []) calls = some (es, s) ∧
      TimedMap.Run sha256 .empty es m := by
  have hr : Represents 0 .empty (withBudgets (.ofNat usizeMax) []).contents :=
    .of_empty fun _ => rfl
  exact execAll_represents (.withBudgets ..) ⟨rfl, rfl⟩ hr
    (List.pairwise_cons.mpr ⟨fun _ _ => Nat.zero_le _, ht⟩) ho

theorem execAll_timedMap_of_expiry :
    let sha256 := fun _ => .replicate 32 0
    ∃ es s m, execAll sha256 (withBudgets (.ofNat usizeMax) [])
      [(0, .setWithTtl ⟨[], [1]⟩ [50] 5), (1, .incr ⟨[], [1]⟩ 7), (5, .get ⟨[], [1]⟩)] =
        some (es, s) ∧
      TimedMap.Run sha256 .empty es m ∧
      es.map (·.response) = [.done, .incr (.value 9 (some 4)), .value none] := by
  intro sha256
  have ⟨es, s, m, he, hm⟩ := execAll_timedMap sha256
    [(0, .setWithTtl ⟨[], [1]⟩ [50] 5), (1, .incr ⟨[], [1]⟩ 7), (5, .get ⟨[], [1]⟩)]
    (by decide) (by simp [Op.IsTimed])
  exact ⟨es, s, m, he, hm, by cases he; decide⟩

-- An expired entry is absent from the map, but it counts until the cache comes across it.
theorem clear_counts_expired :
    let sha256 := fun _ => .replicate 32 0
    ∃ es s m, execAll sha256 (withBudgets (.ofNat usizeMax) [])
      [(0, .setWithTtl ⟨[], [1]⟩ [50] 5), (5, .clear [])] = some (es, s) ∧
      es.map (·.response) = [.done, .count 1] ∧
      TimedMap.Step sha256 0 .empty (.setWithTtl ⟨[], [1]⟩ [50] 5) .done m ∧
      ∀ key, m.live 5 key = none := by
  refine ⟨_, _, _, rfl, by decide, .setWithTtl, fun key => ?_⟩
  rw [TimedMap.live, Function.update_apply]
  split <;> rfl

end Cache
end Nanocached
