import Nanocached.Cache.Theorems.Run

namespace Nanocached

variable {sha256 : Bytes → Vector UInt8 32} {key : Key} {since now : Instant}

theorem durationSince_lt_iff {later earlier ttl : Nat} (h : 0 < ttl) :
    durationSince later earlier < ttl ↔ later < earlier + ttl := by
  change later - earlier < ttl ↔ _
  omega

theorem handoffTombstoneTtl_pos : 0 < handoffTombstoneTtl := by
  decide

namespace Contents

variable {c : Contents}

-- The key has no entry, and a tombstone which is not older than `since`.
structure Gone (c : Contents) (key : Key) (since : Instant) : Prop where
  entry  : c.entry key = none
  buried : ∃ stamped, c.buried.lookup key = some stamped ∧ since ≤ stamped

theorem gone_of_burial (c : Contents) (old excess : List Key) :
    (c.applyAll (c.removal key ++ burial key now old excess)).Gone key now := by
  have hr : (c.applyAll (c.removal key)).entry key = none := by
    rw [removal]
    cases he : c.entry key <;> simp [apply, he]
  simp only [burial, applyAll_append, applyAll_cons, applyAll_nil]
  constructor
  case entry =>
    rwa [apply, entry_applyAll_map (fun _ _ => rfl), entry_applyAll_map fun _ _ => rfl]
  case buried => exact ⟨now, AList.lookup_insert _, le_rfl⟩

namespace Gone

variable {change : Change}

-- A change that takes the tombstone away either finds it too old or finds too many.
theorem apply (h : c.Gone key since) (he : change.Enabled c)
    (hw : ∀ value expiresAt, change ≠ .write key value expiresAt) (hc : change ≠ .clearAll)
    (ht : ∀ k t, change = .bury k t ∨ change = .expire k t →
      since ≤ t ∧ t < since + handoffTombstoneTtl)
    (hd : ∀ k, change ≠ .displace k) : (c.apply change).Gone key since := by
  obtain ⟨stamped, hl, hs⟩ := h.buried
  have ne {k : Key} (he : (c.entry k).isSome) : key ≠ k := by
    rintro rfl
    simp [h.entry] at he
  cases change with
  | write k value expiresAt =>
    have hn : key ≠ k := by
      rintro rfl
      exact hw _ _ rfl
    exact ⟨(Function.update_of_ne hn ..).trans h.entry, h.buried⟩
  | retime k expiresAt | remove k =>
    exact ⟨(Function.update_of_ne (ne he) ..).trans h.entry, h.buried⟩
  | discard k =>
    refine ⟨(Function.update_of_ne (ne he) ..).trans h.entry, stamped, ?_, hs⟩
    exact (AList.lookup_erase_ne (ne he)).trans hl
  | mark k | unmark k => exact ⟨h.entry, h.buried⟩
  | clear ns => exact ⟨by simp [Contents.apply, h.entry], h.buried⟩
  | clearAll => contradiction
  | bury k t =>
    refine ⟨h.entry, ?_⟩
    by_cases hk : key = k
    case pos => exact ⟨t, hk ▸ AList.lookup_insert _, (ht k t (.inl rfl)).left⟩
    case neg => exact ⟨stamped, (AList.lookup_insert_ne hk).trans hl, hs⟩
  | expire k t =>
    obtain ⟨stamped', hl', ho⟩ := he
    have hk : key ≠ k := by
      rintro rfl
      cases hl.symm.trans hl'
      have hy := (ht key t (.inr rfl)).right.trans_le (Nat.add_le_add_right hs _)
      exact ho.not_gt <| (durationSince_lt_iff handoffTombstoneTtl_pos).mpr hy
    exact ⟨h.entry, stamped, (AList.lookup_erase_ne hk).trans hl, hs⟩
  | displace k => exact absurd rfl (hd k)

theorem buriedAt (h : c.Gone key since) (ht : now < since + handoffTombstoneTtl) :
    c.buriedAt now key := by
  have ⟨stamped, hl, hs⟩ := h.buried
  have hd := (durationSince_lt_iff handoffTombstoneTtl_pos).mpr <|
    ht.trans_le (Nat.add_le_add_right hs _)
  simp [Contents.buriedAt, hl, hd]

theorem live (h : c.Gone key since) (now : Instant) : c.live now key = none := by
  rw [Contents.live, h.entry]
  rfl

end Gone
end Contents

namespace Cache

variable {s s' s₁ s₂ : Cache} {op : Op} {r : Response} {e : Event} {es : List Event}

-- The call stores a value for the key whatever the cache holds: a write of a client, of which a
-- conditional one may also fail, or a handoff which is no delete.
def Op.Stores (key : Key) : Op → Prop
  | .set k _ | .setWithTtl k _ _ | .casSet k _ _ _ => k = key
  | .setMany ns items _                            => ns = key.ns ∧ key.name ∈ items.map (·.1)
  | .handoffSet k _ ttl _                          => k = key ∧ ttl ≠ some 0
  | _                                              => False

-- The call is a relayed delete of the key.
def Op.Buries (key : Key) : Op → Prop
  | .handoffDelete k      => k = key
  | .handoffSet k _ ttl _ => k = key ∧ ttl = some 0
  | _                     => False

theorem gone_of_buries (h : s.WF sha256) (hb : op.Buries key)
    (he : exec sha256 s now op = some (r, s')) : s'.contents.Gone key now := by
  cases op with
  | handoffDelete k =>
    obtain rfl := hb
    obtain ⟨old, excess, s₁, hd, hs, _⟩ := s.handoffDeleteAt_steps h k now
    simp only [exec, hd, Option.bind_eq_bind, Option.bind_some] at he
    cases he
    exact (hs.contents h).right ▸ Contents.gone_of_burial _ old excess
  | handoffSet k value ttl aheadOfRing =>
    obtain ⟨rfl, rfl⟩ := hb
    obtain ⟨old, excess, s₁, hd, hs, _⟩ := s.handoffSet_of_zero h k value aheadOfRing now
    simp only [exec, hd, Option.bind_eq_bind, Option.bind_some] at he
    cases he
    exact (hs.contents h).right ▸ Contents.gone_of_burial _ old excess
  | _ => contradiction

-- The calls which write a key, of which the last two depend on what the cache holds.
theorem Event.writes_cases (hw : (Event.mk now op r).Writes key) :
    op.Stores key ∨
    (∃ delta n ttl, op = .incr key delta ∧ r = .incr (.value n ttl)) ∨
    ∃ value ttl aheadOfRing,
      op = .handoffSetIfAbsent key value ttl aheadOfRing ∧ r = .cas .stored := by
  rw [Event.Writes] at hw
  split at hw
  case h_4 ho hr =>
    subst hw ho hr
    exact .inr (.inl ⟨_, _, _, rfl, rfl⟩)
  case h_7 ho hr =>
    subst hw ho hr
    exact .inr (.inr ⟨_, _, _, rfl, rfl⟩)
  case h_8 => contradiction
  all_goals
    subst ‹op = _›
    exact .inl hw

section Step

variable (h : s.WF sha256) (hg : s.contents.Gone key since) (ht : now < since + handoffTombstoneTtl)

include h hg ht

-- The tombstone refuses the copies of the key which a node hands off only if there is none.
theorem exec_handoffSetIfAbsent_of_gone (value : Bytes) (ttl : Option Duration)
    (aheadOfRing : Bool) :
    ∃ s', exec sha256 s now (.handoffSetIfAbsent key value ttl aheadOfRing) =
      some (.cas .mismatch, s') := by
  have hr : s.Refuses key now := .inl (hg.buriedAt ht)
  have ⟨s', he, _⟩ := handoffSetIfAbsentAt_of_refuses h value ttl aheadOfRing hr
  exact ⟨s', by simp [exec, he]⟩

theorem not_writes_of_gone (hn : ¬op.Stores key) (he : exec sha256 s now op = some (r, s')) :
    ¬(Event.mk now op r).Writes key := by
  intro hw
  rcases Event.writes_cases hw with hw | ⟨delta, _, _, rfl, rfl⟩ | ⟨value, ttl, aheadOfRing, rfl, rfl⟩
  · exact hn hw
  · obtain ⟨s₁, hi, _⟩ := incrAt_of_not_live h delta (hg.live now)
    simp [exec, hi] at he
  · obtain ⟨s₁, hm⟩ := exec_handoffSetIfAbsent_of_gone h hg ht value ttl aheadOfRing
    cases he.symm.trans hm

theorem gone_of_exec (hs : since ≤ now) (hc : op ≠ .clearAll) (hn : ¬op.Stores key)
    (hb : s.handoffTombstones.size < maxHandoffTombstones)
    (he : exec sha256 s now op = some (r, s')) : s'.contents.Gone key since := by
  have ⟨cs, steps, hm, _⟩ := (outcome_of_exec h he).changes
  have ⟨ha, hcs⟩ := steps.contents h
  rw [hcs]
  refine Contents.applyAll_induction (P := (·.Gone key since)) ha hg ?_
  intro c change hmem hen hg'
  have hm := hm change hmem
  refine hg'.apply hen ?_ ?_ ?_ ?_
  · rintro value expiresAt rfl
    exact not_writes_of_gone h hg ht hn he hm
  · rintro rfl
    exact hc hm
  · rintro k t (rfl | rfl) <;> exact (show t = now from hm) ▸ ⟨hs, ht⟩
  · rintro k rfl
    exact absurd hm (Nat.not_le_of_lt hb)

end Step

-- What the calls after a relayed delete of `key` at `since` have to avoid for it to last.
structure Event.Spares (key : Key) (since : Instant) (e : Event) : Prop where
  young     : e.now < since + handoffTombstoneTtl
  keeps     : e.op ≠ .clearAll
  notStores : ¬e.op.Stores key

theorem Run.gone (h : s.WF sha256) (hg : s.contents.Gone key since) (run : Run sha256 s es s')
    (hs : ∀ e ∈ es, since ≤ e.now ∧ e.Spares key since)
    (hb : ∀ es' s', es' <+: es → Run sha256 s es' s' →
      s'.handoffTombstones.size < maxHandoffTombstones) :
    s'.contents.Gone key since ∧
    ∀ e ∈ es, ∀ value ttl aheadOfRing, e.op = .handoffSetIfAbsent key value ttl aheadOfRing →
      e.response = .cas .mismatch := by
  induction run
  case refl => exact ⟨hg, by simp⟩
  case tail es s₂ now op r s₃ run he hi =>
    have ⟨hg, hr⟩ := hi (fun e hm => hs e (by simp [hm])) fun es' s' hp =>
      hb es' s' (hp.trans (List.prefix_append ..))
    have ⟨hge, hsp⟩ := hs ⟨now, op, r⟩ (by simp)
    have hw := run.wf h
    refine ⟨gone_of_exec hw hg hsp.young hge hsp.keeps hsp.notStores
      (hb es s₂ (List.prefix_append ..) run) he, fun e hm value ttl aheadOfRing ho => ?_⟩
    rcases List.mem_append.mp hm with hm | hm
    · exact hr e hm value ttl aheadOfRing ho
    · cases List.mem_singleton.mp hm
      cases ho
      have ⟨_, hm⟩ := exec_handoffSetIfAbsent_of_gone hw hg hsp.young value ttl aheadOfRing
      cases he.symm.trans hm
      rfl

variable {maxMemoryBytes : UInt64} {budgets : List (Bytes × UInt64)}

theorem Reachable.no_resurrection (h : Reachable sha256 maxMemoryBytes budgets s)
    (hb : op.Buries key) (he : exec sha256 s now op = some (r, s₁)) (run : Run sha256 s₁ es s₂)
    (timely : Timely (⟨now, op, r⟩ :: es)) (hs : ∀ e ∈ es, e.Spares key now)
    (hn : ∀ es' s', es' <+: es → Run sha256 s₁ es' s' →
      s'.handoffTombstones.size < maxHandoffTombstones) :
    (∀ es' s', es' <+: es → Run sha256 s₁ es' s' → s'.peek key = none) ∧
    ∀ e ∈ es, ∀ value ttl aheadOfRing, e.op = .handoffSetIfAbsent key value ttl aheadOfRing →
      e.response = .cas .mismatch := by
  have hw := wf_of_exec h.wf he
  have hg := gone_of_buries h.wf hb he
  have hs : ∀ e ∈ es, now ≤ e.now ∧ e.Spares key now :=
    fun e hm => ⟨List.rel_of_pairwise_cons timely hm, hs e hm⟩
  refine ⟨fun es' s' hp run => ?_, (run.gone hw hg hs hn).right⟩
  have hg := (run.gone hw hg (fun e hm => hs e (hp.subset hm)) fun _ s' hp' =>
    hn _ s' (hp'.trans hp)).left.entry
  simpa [Store.contents_entry, Store.peek_eq] using hg

theorem no_resurrection_of_late_copy :
    let sha256 := fun _ => .replicate 32 0
    let deleted := (exec sha256 (withBudgets 10000 []) 0 (.handoffDelete ⟨[], [1]⟩)).get (by decide)
    let late := (exec sha256 deleted.2 1 (.handoffSetIfAbsent ⟨[], [1]⟩ [2] none false)).get
      (by decide)
    late.2.peek ⟨[], [1]⟩ = none ∧ late.1 = .cas .mismatch := by
  intro sha256 deleted late
  let e : Event := ⟨1, .handoffSetIfAbsent ⟨[], [1]⟩ [2] none false, late.1⟩
  have hd : exec sha256 (withBudgets 10000 []) 0 (.handoffDelete ⟨[], [1]⟩) =
    some (deleted.1, deleted.2) := rfl
  have hl : exec sha256 deleted.2 e.now e.op = some (late.1, late.2) := rfl
  have h : Reachable sha256 10000 [] (withBudgets 10000 []) := ⟨.nil, .refl⟩
  have hb : Op.Buries ⟨[], [1]⟩ (.handoffDelete ⟨[], [1]⟩) := rfl
  have few : ∀ es' s', es' <+: [e] → Run sha256 deleted.2 es' s' →
      s'.handoffTombstones.size < maxHandoffTombstones := by
    intro es' s' hp run
    have he := run.execAll_eq
    rcases List.prefix_cons_iff.mp hp with rfl | ⟨es', rfl, hn⟩
    · cases he
      decide
    · cases List.prefix_nil.mp hn
      rw [List.map_singleton, execAll, hl] at he
      cases he
      decide
  obtain ⟨hp, hr⟩ := h.no_resurrection hb hd (.tail .refl hl) (by simp [Timely])
    (by simpa [e] using ⟨by decide, by simp, by simp [Op.Stores]⟩) few
  exact ⟨hp _ _ List.prefix_rfl (.tail .refl hl), hr e (by simp [e]) _ _ _ rfl⟩

end Cache
end Nanocached
