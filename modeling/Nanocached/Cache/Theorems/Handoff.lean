import Nanocached.Cache.Theorems.Conditional

namespace Nanocached.Cache

variable {sha256 : Bytes → Vector UInt8 32} {s : Cache} {key : Key} {now stamped : Instant}

section Tombstones

theorem tombstonedAt_eq : s.tombstonedAt key now = s.contents.buriedAt now key := by
  rw [tombstonedAt, Contents.buriedAt, show s.contents.buried = s.handoffTombstones from rfl]
  cases he : s.handoffTombstones.entries.isEmpty
  case false => rfl
  case true  =>
    rw [AList.entries_eq_nil_iff.mp (List.isEmpty_iff.mp he) key]
    rfl

theorem forgetTombstoneIfStamped_of_ne (h : s.handoffTombstones.lookup key ≠ some stamped) :
    s.forgetTombstoneIfStamped key stamped = (false, s) := by
  rw [forgetTombstoneIfStamped, if_pos h]

theorem forgetTombstoneIfStamped_of_eq (h : s.handoffTombstones.lookup key = some stamped) :
    s.forgetTombstoneIfStamped key stamped =
      (true, { s with toStore := s.toStore.forgotten key }) := by
  rw [forgetTombstoneIfStamped, if_neg (not_not.mpr h), Store.forgotten,
    if_pos (AList.mem_of_lookup h)]

theorem forgetTombstone_eq : s.forgetTombstone key = { s with toStore := s.forgotten key } := by
  rw [forgetTombstone, Store.forgotten]
  split
  case isTrue he =>
    rw [if_neg]
    exact AList.lookup_eq_none.mp (AList.entries_eq_nil_iff.mp (List.isEmpty_iff.mp he) key)
  case isFalse => split <;> rfl

theorem size_forgotten_le {s : Store} :
    (s.forgotten key).handoffTombstones.size ≤ s.handoffTombstones.size := by
  rw [Store.forgotten]
  split
  case isTrue  => exact AList.erase_entries_sublist.length_le
  case isFalse => exact le_rfl

theorem forgotten_entryCount {s : Store} : (s.forgotten key).entryCount = s.entryCount := by
  rw [Store.forgotten]
  split <;> rfl

theorem pruneTombstonesGo_steps (sha256 : Bytes → Vector UInt8 32) (now : Instant)
    (order : List (Instant × Key)) (s : Cache) : ∃ keys : List Key,
      Store.Steps sha256 (keys.map (.expire · now)) s.toStore
        (pruneTombstonesGo now order s).toStore ∧
      (pruneTombstonesGo now order s).handoffTombstones.size ≤ s.handoffTombstones.size := by
  induction order generalizing s
  case nil => exact ⟨[], .refl, le_rfl⟩
  case cons item order hi =>
    have ⟨stamped, key⟩ := item
    rw [pruneTombstonesGo]
    split
    case isTrue    => exact ⟨[], .refl, le_rfl⟩
    case isFalse ho =>
      by_cases hl : s.handoffTombstones.lookup key = some stamped
      case neg =>
        rw [forgetTombstoneIfStamped_of_ne hl]
        exact hi s
      case pos =>
        rw [forgetTombstoneIfStamped_of_eq hl]
        have ⟨keys, hs, hn⟩ := hi { s with toStore := s.toStore.forgotten key }
        refine ⟨key :: keys, ?_, hn.trans size_forgotten_le⟩
        have hs₁ : Store.Steps sha256 [.expire key now] s.toStore (s.forgotten key) :=
          .single (.expire hl (Nat.le_of_not_lt ho))
        exact hs₁.trans hs

theorem pruneTombstones_steps (sha256 : Bytes → Vector UInt8 32) (s : Cache) (now : Instant) :
    ∃ keys : List Key,
      Store.Steps sha256 (keys.map (.expire · now)) s.toStore (s.pruneTombstones now).toStore ∧
      (s.pruneTombstones now).handoffTombstones.size ≤ s.handoffTombstones.size :=
  pruneTombstonesGo_steps sha256 now s.tombstoneOrder s

theorem contents_pruneTombstones (h : s.WF sha256) (now : Instant) :
    (s.pruneTombstones now).contents.entry = s.contents.entry ∧
    (s.pruneTombstones now).contents.marked = s.contents.marked := by
  have ⟨keys, hs, _⟩ := pruneTombstones_steps sha256 s now
  rw [(hs.contents h).right]
  exact ⟨Contents.entry_applyAll_map (fun _ _ => rfl) .., Contents.marked_applyAll_map (fun _ _ => rfl) ..⟩

theorem forgetOldestTombstoneGo_steps (sha256 : Bytes → Vector UInt8 32)
    (order : List (Instant × Key)) (s : Cache)
    (hn : maxHandoffTombstones ≤ s.handoffTombstones.size) : ∃ keys : List Key,
      Store.Steps sha256 (keys.map .displace) s.toStore
        (forgetOldestTombstoneGo order s).toStore := by
  induction order
  case nil => exact ⟨[], .refl⟩
  case cons item order hi =>
    have ⟨stamped, key⟩ := item
    rw [forgetOldestTombstoneGo]
    by_cases hl : s.handoffTombstones.lookup key = some stamped
    case neg =>
      rw [forgetTombstoneIfStamped_of_ne hl]
      exact hi
    case pos =>
      rw [forgetTombstoneIfStamped_of_eq hl]
      exact ⟨[key], .single (.displace hn)⟩

theorem tombstone_steps (sha256 : Bytes → Vector UInt8 32) (s : Cache) (key : Key) (now : Instant) :
    ∃ old excess : List Key,
      Store.Steps sha256 (Contents.burial key now old excess) s.toStore
        (s.tombstone key now).toStore ∧
      (s.handoffTombstones.size < maxHandoffTombstones → excess = []) := by
  have ⟨old, hs₁, hn⟩ := pruneTombstones_steps sha256 s now
  rw [tombstone]
  generalize s.pruneTombstones now = s₁ at hs₁ hn ⊢
  have ⟨excess, hs₂, he⟩ : ∃ excess : List Key,
      Store.Steps sha256 (excess.map .displace) s₁.toStore
        (if s₁.handoffTombstones.size ≥ maxHandoffTombstones then s₁.forgetOldestTombstone
          else s₁).toStore ∧
      (s.handoffTombstones.size < maxHandoffTombstones → excess = []) := by
    split
    case isFalse    => exact ⟨[], .refl, fun _ => rfl⟩
    case isTrue hc  =>
      have ⟨excess, hs⟩ := forgetOldestTombstoneGo_steps sha256 s₁.tombstoneOrder s₁ hc
      exact ⟨excess, hs, fun _ => by omega⟩
  generalize (if s₁.handoffTombstones.size ≥ maxHandoffTombstones then s₁.forgetOldestTombstone
    else s₁) = s₂ at hs₂ ⊢
  refine ⟨old, excess, (hs₁.trans hs₂).trans (.single ?_), he⟩
  dsimp only
  split <;> exact .bury

theorem handoffTombstones_of_removal {s' : Cache} (h : s.WF sha256)
    (hs : Steps sha256 (s.contents.removal key) s s') :
    s'.handoffTombstones = s.handoffTombstones := by
  have hc := (hs.contents h).right
  rw [Contents.removal] at hc
  split at hc <;> exact congrArg Contents.buried hc

theorem handoffDeleteAt_steps (h : s.WF sha256) (key : Key) (now : Instant) :
    ∃ (old excess : List Key) (s' : Cache),
      s.handoffDeleteAt key now =
        some ((s.contents.live now key).isSome, s'.tombstone key now) ∧
      Store.Steps sha256 (s.contents.removal key ++ Contents.burial key now old excess)
        s.toStore (s'.tombstone key now).toStore ∧
      (s.handoffTombstones.size < maxHandoffTombstones → excess = []) ∧
      Steps sha256 (s.contents.removal key) s s' := by
  have ⟨s₁, he, hs₁⟩ := s.deleteAt_steps h key now
  have ⟨old, excess, hs₂, hn⟩ := tombstone_steps sha256 s₁ key now
  refine ⟨old, excess, s₁, by simp [handoffDeleteAt, he], hs₁.1.trans hs₂, ?_, hs₁⟩
  rwa [handoffTombstones_of_removal h hs₁] at hn

end Tombstones

theorem toStore_noteHandoff (s : Cache) (now : Instant) (aheadOfRing : Bool) :
    (s.noteHandoff now aheadOfRing).toStore = s.toStore := by
  rw [noteHandoff]
  split <;> rfl

-- A copy which has expired already is a delete.
theorem handoffSet_of_zero (h : s.WF sha256) (key : Key) (value : Bytes) (aheadOfRing : Bool)
    (now : Instant) : ∃ (old excess : List Key) (s' : Cache),
      s.handoffSet key value (some 0) aheadOfRing now = some (true, s'.tombstone key now) ∧
      Store.Steps sha256 (s.contents.removal key ++ Contents.burial key now old excess)
        s.toStore (s'.tombstone key now).toStore ∧
      (s.handoffTombstones.size < maxHandoffTombstones → excess = []) ∧
      Steps sha256 (s.contents.removal key) (s.noteHandoff now aheadOfRing) s' := by
  have hn := s.toStore_noteHandoff now aheadOfRing
  rw [handoffSet]
  generalize s.noteHandoff now aheadOfRing = s₀ at hn ⊢
  rw [← hn] at h ⊢
  have ⟨old, excess, s', he, hs, hx⟩ := handoffDeleteAt_steps h key now
  exact ⟨old, excess, s', by simp [he], hs, hx⟩

theorem handoffSet_of_ne_zero (h : s.WF sha256) (key : Key) (value : Bytes)
    {ttl : Option Duration} (ht : ttl ≠ some 0) (aheadOfRing : Bool) (now : Instant) :
    ∃ (changed : Bool) (keys : List Key) (s' : Cache),
      s.handoffSet key value ttl aheadOfRing now = some (changed, s') ∧
      Steps sha256 (.write key value (ttl.bind (checkedAdd now)) :: keys.map .remove)
        (s.noteHandoff now aheadOfRing) s' := by
  have hn := s.toStore_noteHandoff now aheadOfRing
  rw [handoffSet]
  generalize s.noteHandoff now aheadOfRing = s₀ at hn ⊢
  rw [← hn] at h
  have ⟨keys, s', he, hs, _⟩ := insert_steps h key value (ttl.bind (checkedAdd now))
  simp only [if_neg ht, he, Option.bind_eq_bind, Option.bind_some]
  exact ⟨_, keys, s', rfl, hs⟩

-- A put-if-absent is refused while a tombstone or an unmarked entry is there.
def Refuses (s : Cache) (key : Key) (now : Instant) : Prop :=
  s.contents.buriedAt now key ∨
  ((s.contents.live now key).isSome ∧ key ∉ s.contents.marked)

-- Whether the key is marked once an expired entry is gone.
theorem isMarked_of_purge {s' : Cache} (h : s.WF sha256)
    (hs : Steps sha256 (s.contents.purge now key) s s')
    (hl : (s.contents.live now key).isSome) : s'.isMarked key ↔ key ∈ s.contents.marked := by
  have ⟨e, he⟩ := Option.isSome_iff_exists.mp hl
  have hc := (hs.contents h).right
  rw [(Contents.purge_of_live _ _ _ he).right] at hc
  rw [show s'.isMarked key ↔ key ∈ s'.contents.marked from Iff.rfl, hc, Contents.applyAll_nil]

theorem handoffSetIfAbsentAt_of_refuses (h : s.WF sha256) (value : Bytes) (ttl : Option Duration)
    (aheadOfRing : Bool) (hr : s.Refuses key now) : ∃ s',
      s.handoffSetIfAbsentAt sha256 key value ttl aheadOfRing now = some (.mismatch, s') ∧
      ∃ cs ⊆ s.contents.purge now key,
        Steps sha256 cs (s.noteHandoff now aheadOfRing) s' := by
  have hn := s.toStore_noteHandoff now aheadOfRing
  rw [handoffSetIfAbsentAt]
  rw [Refuses] at hr
  generalize s.noteHandoff now aheadOfRing = s₀ at hn ⊢
  rw [← hn] at h hr ⊢
  cases ht : s₀.tombstonedAt key now
  case true => exact ⟨s₀, by simp, [], by simp, .refl⟩
  case false =>
    rw [← tombstonedAt_eq, ht] at hr
    have ⟨hl, hm⟩ := hr.resolve_left (by simp)
    have ⟨s₁, he, hs⟩ := s₀.conditionHoldsAt_steps h key .absent now
    have hm := (isMarked_of_purge h hs hl).not.mpr hm
    refine ⟨s₁, ?_, _, List.Subset.refl _, hs⟩
    have hc : CasCondition.absent.holds sha256 ((s₀.contents.live now key).map (·.1)) = false := by
      simpa [CasCondition.holds] using hl
    simp [he, hc, hm]

theorem handoffSetIfAbsentAt_of_not_refuses (h : s.WF sha256) (value : Bytes)
    (ttl : Option Duration) (aheadOfRing : Bool) (hr : ¬s.Refuses key now) :
    ∃ (keys : List Key) (s' : Cache),
      s.handoffSetIfAbsentAt sha256 key value ttl aheadOfRing now = some (.stored, s') ∧
      Steps sha256 (s.contents.purge now key ++
        .write key value (ttl.bind (checkedAdd now)) :: keys.map .remove)
        (s.noteHandoff now aheadOfRing) s' := by
  have hn := s.toStore_noteHandoff now aheadOfRing
  rw [handoffSetIfAbsentAt]
  rw [Refuses] at hr
  generalize s.noteHandoff now aheadOfRing = s₀ at hn ⊢
  rw [← hn] at h hr ⊢
  have ⟨hb, hm⟩ := not_or.mp hr
  have ht : s₀.tombstonedAt key now = false := by rw [tombstonedAt_eq]; simpa using hb
  have ⟨s₁, he, hs⟩ := s₀.conditionHoldsAt_steps h key .absent now
  have ⟨keys, s₂, hi, hs', _⟩ := insert_steps (hs.wf h) key value (ttl.bind (checkedAdd now))
  refine ⟨keys, s₂, ?_, hs.trans hs'⟩
  have hc (hc : CasCondition.absent.holds sha256 ((s₀.contents.live now key).map (·.1)) = false) :
      s₁.isMarked key := by
    have hl : (s₀.contents.live now key).isSome := by simpa [CasCondition.holds] using hc
    exact (isMarked_of_purge h hs hl).mpr (not_not.mp fun hm' => hm ⟨hl, hm'⟩)
  simpa [ht, he, hi] using hc

theorem discard_steps {i : Nat} {ns : Namespace} {entry : Entry}
    (hl : s.slots.lookup i = some ns) (hn : ns.name = key.ns)
    (hm : ns.entries.lookup key.name = some entry) : Steps sha256 [.discard key] s
      ({ s with toStore := s.removed i ns key.name }.forgetTombstone key) := by
  rw [forgetTombstone_eq]
  obtain ⟨_, name⟩ := key
  cases hn
  exact ⟨.single (.discard hl (AList.mem_of_lookup hm)), rfl, rfl⟩

theorem reclaimGo_steps (h : s.WF sha256) (owned : Key → Bool) (keys : List Key) (removed : Nat) :
    ∃ (unowned : List Key) (n : Nat) (s' : Cache),
      reclaimGo owned keys removed s = some (n, s') ∧
      Steps sha256 (unowned.map .discard) s s' ∧
      ∀ key ∈ unowned, owned key = false := by
  induction keys generalizing s removed
  case nil => exact ⟨[], removed, s, rfl, .refl, by simp⟩
  case cons key keys hi =>
    rw [reclaimGo]
    cases hp : s.peek key
    case none =>
      have ⟨unowned, n, s', he, hs, ho⟩ := hi h removed
      exact ⟨unowned, n, s', by simp [he], hs, ho⟩
    case some entry =>
      cases hw : owned key
      case true =>
        have ⟨unowned, n, s', he, hs, ho⟩ := hi h removed
        exact ⟨unowned, n, s', by simp [he], hs, ho⟩
      case false =>
        have ⟨i, ns, hl, hn, hm, hr⟩ := Store.removeEntry_of_some h hp
        have hs₁ : Steps sha256 [.discard key] s _ := discard_steps hl hn hm
        have ⟨unowned, n, s', he, hs, ho⟩ := hi (hs₁.wf h) (removed + 1)
        refine ⟨key :: unowned, n, s', by simp [hr, he], hs₁.trans hs, ?_⟩
        simpa [hw] using ho

theorem reclaimUnownedAt_steps (h : s.WF sha256) (keys : List Key) (owned : Key → Bool)
    (handoffQuietFor : Duration) (now : Instant) :
    ∃ (unowned : List Key) (report : ReclaimReport) (s' : Cache),
      s.reclaimUnownedAt keys owned handoffQuietFor now = some (report, s') ∧
      Steps sha256 (unowned.map .discard) s s' := by
  rw [reclaimUnownedAt]
  dsimp only
  split
  case isTrue => exact ⟨[], _, s, rfl, .refl⟩
  case isFalse =>
    have ⟨unowned, n, s', he, hs, _⟩ := reclaimGo_steps h owned keys 0
    simp only [he, Option.bind_eq_bind, Option.bind_some]
    exact ⟨unowned, _, s', rfl, hs⟩

end Nanocached.Cache
