import Nanocached.Handoff.GuardTheorems

namespace Nanocached
namespace NodeContext

variable {node node' node'' : NodeContext} {now : Instant} {active : ActiveMigration} {id : Nat}
         {keys : List Key} {decided : Set Nat}

-- A handoff whose join is undecided holds the keys it has marked.
def held (node : NodeContext) : Option (Nat × List Key) :=
  (node.activeMigration.filter fun active => !active.confirmed).map fun active =>
    (active.abortRequested, active.markedKeys)

-- The rings the node may return to, and the flags, are allocated.
structure Bounded (node : NodeContext) : Prop where
  known : ∀ membership, node.knownRing = some membership → membership.ring.ptr < node.allocated
  slot  : ∀ active, node.activeMigration = some active →
            active.abortRequested < node.flags.length ∧
            ∀ membership, active.preCompletionRing = some membership →
              membership.ring.ptr < node.allocated

-- The known ring is not replaced, except by one that is just made.
structure Frame (node node' : NodeContext) : Prop where
  length    : node'.flags.length = node.flags.length
  allocated : node.allocated ≤ node'.allocated
  name      : node'.name = node.name
  known     : node'.knownRing = node.knownRing ∨ ∃ membership, node'.knownRing = some membership ∧
                node.allocated ≤ membership.ring.ptr ∧ membership.ring.ptr < node'.allocated
  slot      : ∀ active', node'.activeMigration = some active' → ∃ active,
                node.activeMigration = some active ∧
                active'.abortRequested = active.abortRequested ∧
                ∀ membership, active'.preCompletionRing = some membership →
                  active.preCompletionRing = some membership

-- No marked keys are given up, except those of a handoff that is decided.
structure Calm (decided : Set Nat) (node node' : NodeContext) : Prop extends Frame node node' where
  held : node'.held = node.held ∨
           node'.held = none ∧ ∀ id keys, node.held = some (id, keys) → id ∈ decided

theorem raiseAll_knownRing (ptrs : List Nat) : (node.raiseAll ptrs).knownRing = node.knownRing := by
  induction ptrs generalizing node
  case nil              => rfl
  case cons ptr ptrs hi => exact hi

theorem held_eq (h : node'.activeMigration = node.activeMigration) : node'.held = node.held := by
  rw [NodeContext.held, h, NodeContext.held]

theorem held_of_none (h : node.activeMigration = none) : node.held = none := by
  simp [NodeContext.held, h]

theorem held_of_confirmed (h : ∀ active, node.activeMigration = some active → active.confirmed) :
    node.held = none := by
  unfold NodeContext.held
  cases ha : node.activeMigration
  case none        => rfl
  case some active => simp [h active ha]

theorem held_eq_some :
    node.held = some (id, keys) ↔
      ∃ active, node.activeMigration = some active ∧ active.confirmed = false ∧
        active.abortRequested = id ∧ active.markedKeys = keys := by
  unfold NodeContext.held
  cases node.activeMigration
  case none        => simp
  case some active => cases hc : active.confirmed <;> simp [hc, Option.filter]

theorem held_of_runs (h : node.Runs id) : ∃ keys, node.held = some (id, keys) := by
  have ⟨active, ha, hf, hr⟩ := h
  exact ⟨_, held_eq_some.mpr ⟨active, ha, hr.unconfirmed, hf, rfl⟩⟩

theorem id_of_runs (h : node.Runs id) {id' : Nat} (hh : node.held = some (id', keys)) :
    id' = id := by
  have ⟨_, hh'⟩ := held_of_runs h
  cases hh.symm.trans hh'
  rfl

namespace Frame

theorem refl : node.Frame node :=
  ⟨rfl, le_rfl, rfl, .inl rfl, fun active ha => ⟨active, ha, rfl, fun _ => id⟩⟩

theorem bounded (h : node.Frame node') (hb : node.Bounded) : node'.Bounded where
  known membership hm := by
    rcases h.known with hk | ⟨membership', hm', _, hlt⟩
    · exact (hb.known membership (hk ▸ hm)).trans_le h.allocated
    · cases hm.symm.trans hm'
      exact hlt
  slot active' ha' := by
    have ⟨active, ha, hf, hp⟩ := h.slot active' ha'
    have ⟨hlt, hm⟩ := hb.slot active ha
    refine ⟨by rwa [hf, h.length], fun membership hm' => ?_⟩
    exact (hm membership (hp membership hm')).trans_le h.allocated

theorem trans (h : node.Frame node') (h' : node'.Frame node'') : node.Frame node'' where
  length    := h'.length.trans h.length
  allocated := h.allocated.trans h'.allocated
  name      := h'.name.trans h.name
  known     := by
    rcases h'.known with hk' | ⟨membership, hm, hge, hlt⟩
    · rcases h.known with hk | ⟨membership, hm, hge, hlt⟩
      · exact .inl (hk'.trans hk)
      · exact .inr ⟨membership, hk'.trans hm, hge, hlt.trans_le h'.allocated⟩
    · exact .inr ⟨membership, hm, h.allocated.trans hge, hlt⟩
  slot active'' ha'' := by
    have ⟨active', ha', hf', hp'⟩ := h'.slot active'' ha''
    have ⟨active, ha, hf, hp⟩ := h.slot active' ha'
    exact ⟨active, ha, hf'.trans hf, fun membership hm => hp membership (hp' membership hm)⟩

theorem of_map {f : ActiveMigration → ActiveMigration}
    (hn : node' = { node with activeMigration := node.activeMigration.map f })
    (hf : ∀ active, (f active).abortRequested = active.abortRequested)
    (hp : ∀ active, (f active).preCompletionRing = active.preCompletionRing) :
    node.Frame node' := by
  subst hn
  refine ⟨rfl, le_rfl, rfl, .inl rfl, fun active' ha' => ?_⟩
  have ⟨active, ha, he⟩ := Option.map_eq_some_iff.mp ha'
  subst he
  exact ⟨active, ha, hf active, fun membership hm => hp active ▸ hm⟩

end Frame

namespace Calm

theorem of_slot (hl : node'.flags.length = node.flags.length) (ha : node.allocated ≤ node'.allocated)
    (hk : node'.knownRing = node.knownRing) (hn : node'.name = node.name)
    (hs : node'.activeMigration = node.activeMigration) : node.Calm decided node' where
  length      := hl
  allocated   := ha
  name        := hn
  known       := .inl hk
  held        := .inl (held_eq hs)
  slot active := fun h => ⟨active, hs ▸ h, rfl, fun _ => id⟩

theorem refl : node.Calm decided node :=
  .of_slot rfl le_rfl rfl rfl rfl

theorem trans (h : node.Calm decided node') (h' : node'.Calm decided node'') :
    node.Calm decided node'' where
  toFrame := h.toFrame.trans h'.toFrame
  held    := by
    rcases h.held with hh | ⟨hh, hd⟩
    · rcases h'.held with hh' | ⟨hh', hd'⟩
      · exact .inl (hh'.trans hh)
      · exact .inr ⟨hh', hh ▸ hd'⟩
    · rcases h'.held with hh' | ⟨hh', _⟩
      · exact .inr ⟨hh'.trans hh, hd⟩
      · exact .inr ⟨hh', hd⟩

-- Without a decision nothing is given up.
theorem held_eq (h : node.Calm ∅ node') : node'.held = node.held := by
  rcases h.held with hh | ⟨hh, hd⟩
  · exact hh
  · rw [hh]
    cases hh' : node.held
    case none   => rfl
    case some p => exact absurd (hd p.1 p.2 hh') (Set.notMem_empty _)

theorem weaken (h : node.Calm ∅ node') : node.Calm decided node' :=
  ⟨h.toFrame, .inl h.held_eq⟩

theorem raise (ptr : Nat) : node.Calm decided (node.raise ptr) :=
  .of_slot (List.length_set ..) le_rfl rfl rfl rfl

end Calm

section Calm

theorem calm_clearExpired : node.Calm decided (node.clearExpired now) := by
  unfold clearExpired
  split
  case isFalse => exact .refl
  case isTrue he =>
    refine ⟨⟨rfl, le_rfl, rfl, .inl rfl, fun _ ha => nomatch ha⟩, .inl (Eq.symm ?_)⟩
    refine held_of_confirmed fun active ha => ?_
    simp only [ha, Option.any_some, ActiveMigration.expired, Bool.and_eq_true] at he
    exact he.left.left

theorem calm : Edited (Calm decided) where
  refl         := .refl
  trans        := .trans
  raise        := .raise
  slot         := by
    rintro node active _ ha ⟨_, _, _, rfl⟩
    refine ⟨⟨rfl, le_rfl, rfl, .inl rfl, ?_⟩, .inl ?_⟩
    · rintro _ ⟨⟩
      exact ⟨active, ha, rfl, fun _ => id⟩
    · simp [NodeContext.held, ha, Option.filter, apply_ite]
  clearExpired := calm_clearExpired

-- A slot may be taken if there is nothing in it that is undecided.
theorem calm_takeSlot (hd : ∀ id keys, node.held = some (id, keys) → id ∈ decided) :
    node.Calm decided (node.takeSlotKeepingLingering now).2 := by
  unfold takeSlotKeepingLingering keepLingering
  split
  case h_1 => exact .refl
  case h_2 taken ha =>
    dsimp only
    have he : node.Calm decided { node with activeMigration := none } :=
      ⟨⟨rfl, le_rfl, rfl, .inl rfl, fun _ ha => nomatch ha⟩, .inr ⟨rfl, hd⟩⟩
    have hl := he.trans (calm.raiseAll ((taken.lingering.filter fun l =>
      !l.forwardingOpen now).map (·.forwardRevoked)))
    split
    · exact hl
    · refine ⟨⟨hl.length, hl.allocated.trans (Nat.le_succ _), hl.name, ?_, ?_⟩, .inr ⟨rfl, hd⟩⟩
      · exact hl.known.imp_right fun ⟨membership, hm, hge, hlt⟩ =>
          ⟨membership, hm, hge, hlt.trans (Nat.lt_succ_self _)⟩
      · rintro _ ⟨⟩
        exact ⟨taken, ha, rfl, nofun⟩

theorem held_takeSlot : (node.takeSlotKeepingLingering now).2.held = none := by
  unfold takeSlotKeepingLingering keepLingering
  split
  case h_1 ha => exact held_of_none ha
  case h_2 =>
    dsimp only
    split
    · exact (held_eq (raiseAll_activeMigration _)).trans rfl
    · rfl

theorem calm_endHandoff (hd : ∀ id keys, node.held = some (id, keys) → id ∈ decided) :
    node.Calm decided (node.endHandoff now) :=
  calm.endHandoff (calm_takeSlot hd)

theorem held_endHandoff : (node.endHandoff now).held = none := by
  have hh : (node.takeSlotKeepingLingering now).2.held = none := held_takeSlot
  unfold endHandoff
  split
  case h_1 he => rw [he] at hh; exact hh
  case h_2 he => rw [he] at hh; exact hh

-- The handoff whose join is complete, as the members tell.
def confirmedBy (node : NodeContext) (members : List Bytes) : Option Nat :=
  (node.activeMigration.filter fun active =>
    !active.confirmed && active.completedAt.isSome && decide (active.joiningName ∈ members)).map
      (·.abortRequested)

theorem confirmedBy_eq_some {members : List Bytes} :
    node.confirmedBy members = some id ↔
      ∃ active, node.activeMigration = some active ∧ active.confirmed = false ∧
        active.completedAt.isSome ∧ active.joiningName ∈ members ∧ active.abortRequested = id := by
  unfold confirmedBy
  cases node.activeMigration
  case none        => simp
  case some active => simp [Option.filter_eq_some_iff, and_assoc]

theorem calm_judgeSlot {members : List Bytes}
    (hd : ∀ id, node.confirmedBy members = some id → id ∈ decided) :
    node.Calm decided (node.judgeSlot now members).2 := by
  unfold judgeSlot
  split
  case h_1 => exact .refl
  case h_2 active ha =>
    dsimp only
    have hc : node.Calm decided { node with
        activeMigration := some (active.confirm (decide (active.joiningName ∈ members))) } := by
      refine ⟨⟨rfl, le_rfl, rfl, .inl rfl, ?_⟩, ?_⟩
      · rintro _ ⟨⟩
        exact ⟨active, ha, rfl, fun _ => id⟩
      · by_cases hl : active.joiningName ∈ members ∧ active.completedAt.isSome
        case pos =>
          refine .inr ⟨held_of_confirmed ?_, fun id keys hh => hd id ?_⟩
          · rintro _ ⟨⟩
            simp [ActiveMigration.confirm, hl]
          · obtain ⟨active', ha', hn, hf, _⟩ := held_eq_some.mp hh
            cases ha.symm.trans ha'
            exact confirmedBy_eq_some.mpr ⟨active, ha, hn, hl.right, hl.left, hf⟩
        case neg =>
          have hf : (decide (active.joiningName ∈ members) && active.completedAt.isSome) = false := by
            simpa using hl
          exact .inl (held_eq (by simp [ActiveMigration.confirm, hf, ha]))
    split
    · exact hc.trans (.raise _)
    · exact hc

theorem calm_adoptMembership {members : List Bytes} {replication : Nat}
    (hd : ∀ id, node.confirmedBy members = some id → id ∈ decided) :
    node.Calm decided (node.adoptMembership now members replication).2 := by
  refine calm.adoptMembership (calm_judgeSlot hd) (fun node hc => calm_takeSlot fun id keys hh => ?_)
    fun node ring => ⟨⟨rfl, Nat.le_succ _, rfl, ?_, ?_⟩, .inl (held_eq rfl)⟩
  · rw [held_of_confirmed hc] at hh
    contradiction
  · exact .inr ⟨_, rfl, le_rfl, Nat.lt_succ_self _⟩
  · exact fun active ha => ⟨active, ha, rfl, fun _ => id⟩

theorem calm_joinTook {key : Key} {keyHash : UInt64} (h : (node.joinTook now key keyHash).1 = false) :
    node.Calm decided (node.joinTook now key keyHash).2 := by
  have hc : node.Calm decided (node.clearExpired now) := calm_clearExpired
  unfold joinTook at h ⊢
  dsimp only at h ⊢
  generalize node.clearExpired now = node at h hc ⊢
  refine hc.trans ?_
  split
  case h_1 => exact .refl
  case h_2 active ha =>
    rw [ha] at h
    split
    · exact .refl
    case isFalse hr =>
      split
      · exact .refl
      case isFalse ho =>
        split
        case isFalse   => exact .refl
        case isTrue ht => simp [hr, ho, ht] at h

end Calm

-- The handoff holds one more key.
theorem held_of_joinTook {key : Key} {keyHash : UInt64} (h : (node.joinTook now key keyHash).1 = true) :
    node.Frame (node.joinTook now key keyHash).2 ∧
    ∃ id keys, node.held = some (id, keys) ∧
      (node.joinTook now key keyHash).2.held = some (id, keys ++ [key]) ∧
      (node.joinTook now key keyHash).2.activeMigration.elim 0 (·.abortRequested) = id := by
  have hc : node.Calm ∅ (node.clearExpired now) := calm_clearExpired
  unfold joinTook at h ⊢
  dsimp only at h ⊢
  generalize node.clearExpired now = node₁ at h hc ⊢
  cases ha : node₁.activeMigration
  case none => simp [ha] at h
  case some active =>
    simp only [ha] at h ⊢
    split at h
    · contradiction
    case isFalse hr =>
      split at h
      · contradiction
      case isFalse ho =>
        split at h
        case isFalse => contradiction
        case isTrue ht =>
          have hn : active.confirmed = false := by
            simpa using (not_or.mp (mt Bool.or_eq_true_iff.mpr hr)).right
          have hh₁ : node₁.held = some (active.abortRequested, active.markedKeys) :=
            held_eq_some.mpr ⟨active, ha, hn, rfl, rfl⟩
          rw [if_neg hr, if_neg ho, if_pos ht]
          refine ⟨hc.toFrame.trans (.of_map (f := fun active => { active with
            markedKeys := active.markedKeys ++ [key] }) (by rw [ha]; rfl) (fun _ => rfl)
            fun _ => rfl), active.abortRequested, active.markedKeys, ?_, ?_, rfl⟩
          · exact (hc.held.resolve_right fun ⟨hh, _⟩ => by simp [hh₁] at hh) ▸ hh₁
          · exact held_eq_some.mpr ⟨_, rfl, hn, rfl, rfl⟩

-- A handoff that is completed is taken out of the slot, so that its keys are to be restored.
structure Abandons (node : NodeContext) (restore : List Key) (node' : NodeContext) : Prop where
  vacant    : ∀ flag, ¬node.Runs flag
  keys      : ∀ id keys, node.held = some (id, keys) → keys = restore
  held      : node'.held = none
  length    : node'.flags.length = node.flags.length
  allocated : node.allocated ≤ node'.allocated
  name      : node'.name = node.name
  bounded   : node.Bounded → node'.Bounded

theorem frame_takeSlot : node.Frame (node.takeSlotKeepingLingering now).2 :=
  (calm_takeSlot fun id _ _ => Set.mem_univ id).toFrame

-- The node may return to the ring from before the handoff.
theorem bounded_revertKnownRing {afterRing : SharedRing} {preCompletionRing : Option Membership}
    (h : node.Bounded) (hp : ∀ membership, preCompletionRing = some membership →
      membership.ring.ptr < node.allocated) :
    (node.revertKnownRing afterRing preCompletionRing).Bounded := by
  unfold revertKnownRing
  split
  · exact ⟨hp, h.slot⟩
  · exact h

theorem revertKnownRing_frame (node : NodeContext) (afterRing : SharedRing)
    (preCompletionRing : Option Membership) :
    (node.revertKnownRing afterRing preCompletionRing).activeMigration = node.activeMigration ∧
    (node.revertKnownRing afterRing preCompletionRing).flags = node.flags ∧
    (node.revertKnownRing afterRing preCompletionRing).allocated = node.allocated ∧
    (node.revertKnownRing afterRing preCompletionRing).name = node.name := by
  unfold revertKnownRing
  split <;> exact ⟨rfl, rfl, rfl, rfl⟩

theorem abandons_takeSlot (now : Instant) (ha : node.activeMigration = some active)
    (hn : active.completedAt.isNone = false) :
    node.Abandons active.markedKeys
      ((node.takeSlotKeepingLingering now).2.revertKnownRingAfterAbandon
        { active with lingering := [] }) := by
  have hf : node.Frame (node.takeSlotKeepingLingering now).2 := frame_takeSlot
  have ⟨hs, hl, hal, hna⟩ := revertKnownRing_frame (node.takeSlotKeepingLingering now).2
    active.afterRing active.preCompletionRing
  exact {
    vacant    := not_runs_of_completed ha hn
    keys      := fun id keys hh => by
      have ⟨active', ha', _, _, hk⟩ := held_eq_some.mp hh
      cases ha.symm.trans ha'
      exact hk.symm
    held      := (held_eq hs).trans held_takeSlot
    length    := (congrArg _ hl).trans hf.length
    allocated := hf.allocated.trans hal.ge
    name      := hna.trans hf.name
    bounded   := fun hb => bounded_revertKnownRing (hf.bounded hb) fun membership hm =>
      ((hb.slot active ha).right membership hm).trans_le hf.allocated
  }

theorem Abandons.of_calm {keys : List Key} (h : node.Calm ∅ node') (h' : node'.Abandons keys node'')
    (hr : ∀ {flag}, node.Runs flag → node'.Runs flag) : node.Abandons keys node'' where
  vacant flag hf := h'.vacant flag (hr hf)
  keys id keys hh := h'.keys id keys (h.held_eq ▸ hh)
  held      := h'.held
  length    := h'.length.trans h.length
  allocated := h.allocated.trans h'.allocated
  name      := h'.name.trans h.name
  bounded   := fun hb => h'.bounded (h.bounded hb)

theorem takeAbandonedSlot_cases (node : NodeContext) (now : Instant)
    (isMatch : ActiveMigration → Bool) :
    (∃ taken node', node.takeAbandonedSlot now isMatch = (.completed taken, node') ∧
      node.Abandons taken.markedKeys (node'.revertKnownRingAfterAbandon taken)) ∨
    (∃ outcome node', node.takeAbandonedSlot now isMatch = (outcome, node') ∧
      (∀ taken, outcome ≠ .completed taken) ∧ node.Calm ∅ node') := by
  unfold takeAbandonedSlot
  cases ha : node.activeMigration
  case none => exact .inr ⟨_, _, rfl, nofun, .refl⟩
  case some active =>
    dsimp only
    split
    case isFalse => exact .inr ⟨_, _, rfl, nofun, .refl⟩
    case isTrue  =>
      split
      case isTrue => exact .inr ⟨_, _, rfl, nofun, (Calm.raise _).trans (.raise _)⟩
      case isFalse hn =>
        refine .inl ⟨_, _, rfl, ?_⟩
        have hr : ((node.raise active.abortRequested).raise active.forwardRevoked).activeMigration =
            some active := ha
        have h := abandons_takeSlot now hr (Bool.not_eq_true _ ▸ hn)
        rw [takeSlot_of_some hr]
        exact .of_calm ((Calm.raise _).trans (.raise _)) h id

theorem abandonMigration_cases (node : NodeContext) (now : Instant)
    (joiningName : Bytes) :
    (∃ keys node', node.abandonMigration now joiningName = (.completed keys, node') ∧
      node.Abandons keys node') ∨
    (∃ outcome node', node.abandonMigration now joiningName = (outcome, node') ∧
      (∀ keys, outcome ≠ .completed keys) ∧ node.Calm ∅ node') := by
  unfold abandonMigration
  rcases node.takeAbandonedSlot_cases now
    fun active => active.joiningName = joiningName with
    ⟨taken, node', he, h⟩ | ⟨outcome, node', he, hn, h⟩
  · rw [he]
    exact .inl ⟨_, _, rfl, h⟩
  · rw [he]
    cases outcome with
    | completed taken => exact absurd rfl (hn taken)
    | noMatch         => exact .inr ⟨_, _, rfl, nofun, h⟩
    | aborting        => exact .inr ⟨_, _, rfl, nofun, h⟩

theorem abandonDepartedSlot_cases (node : NodeContext) (now : Instant)
    (identity : Nat) :
    (∃ keys ring node', node.abandonDepartedSlot now identity = (some (keys, ring), node') ∧
      node.Abandons keys node') ∨
    (∃ node', node.abandonDepartedSlot now identity = (none, node') ∧
      node.Calm ∅ node') := by
  unfold abandonDepartedSlot
  dsimp only
  rcases node.takeAbandonedSlot_cases now fun active =>
    active.forwardRevoked = identity && active.completedAt.isSome && !active.remnant with
    ⟨taken, node', he, h⟩ | ⟨outcome, node', he, hn, h⟩
  · rw [he]
    exact .inl ⟨_, _, _, rfl, h⟩
  · rw [he]
    cases outcome with
    | completed taken => exact absurd rfl (hn taken)
    | noMatch         => exact .inr ⟨_, rfl, h⟩
    | aborting        => exact .inr ⟨_, rfl, h⟩

end NodeContext

namespace MigrationGuard

open NodeContext

variable {node node' : NodeContext} {now : Instant} {id : Nat} {keys : List Key}

theorem takeJoinMarks_of_held (hh : node.held = some (id, keys)) :
    ∃ node', takeJoinMarks ⟨id⟩ node = (keys, node') ∧ node.Frame node' ∧
      node'.held = some (id, []) := by
  obtain ⟨active, ha, hn, rfl, rfl⟩ := held_eq_some.mp hh
  unfold takeJoinMarks
  rw [ha]
  simp only [if_true]
  refine ⟨_, rfl, ?_, held_eq_some.mpr ⟨_, rfl, hn, rfl, rfl⟩⟩
  exact .of_map (f := fun active => { active with markedKeys := [] }) (by rw [ha]; rfl)
    (fun _ => rfl) fun _ => rfl

-- The handoff now also holds the keys which its task has marked.
theorem held_completed {entriesSent : Nat} {markedKeys : List Key}
    {preCompletionRing : Option Membership} (hh : node.held = some (id, keys)) :
    (completed node now entriesSent markedKeys preCompletionRing).held =
      some (id, keys ++ markedKeys) := by
  obtain ⟨active, ha, hn, rfl, rfl⟩ := held_eq_some.mp hh
  unfold completed
  rw [ha]
  exact held_eq_some.mpr ⟨_, rfl, hn, rfl, rfl⟩

theorem bounded_completed {entriesSent : Nat} {markedKeys : List Key}
    {preCompletionRing : Option Membership} (h : node.Bounded)
    (hp : ∀ membership, preCompletionRing = some membership →
      membership.ring.ptr < node.allocated) :
    (completed node now entriesSent markedKeys preCompletionRing).Bounded where
  known := h.known
  slot active' ha' := by
    have ⟨active, ha, he⟩ := Option.map_eq_some_iff.mp ha'
    subst he
    exact ⟨(h.slot active ha).left, hp⟩

-- The slot is taken for a new handoff, and the keys of the previous one are to be restored unless
-- its join is confirmed. The node may return to the ring from before it.
structure Reserves (node : NodeContext) (migrate : Migrate) (restore : List Key)
    (guard : MigrationGuard) (node' : NodeContext) : Prop where
  keys    : ∀ id keys, node.held = some (id, keys) →
              keys = restore ∨ node.confirmedBy (migrate.joined.map (·.1)) = some id
  held    : node'.held = some (guard.abortRequested, [])
  length  : node'.flags.length = node.flags.length + 2
  guard   : guard.abortRequested = node.flags.length
  name    : node'.name = node.name
  alloc   : node.allocated ≤ node'.allocated
  known   : ∀ membership, node'.knownRing = some membership → node.knownRing = some membership ∨
              ∃ active, node.activeMigration = some active ∧
                active.preCompletionRing = some membership
  bounded : node.Bounded → node'.Bounded

theorem knownRing_takeOverLingering {migrate : Migrate} {existing : ActiveMigration}
    {previousConfirmed : Bool} :
    (takeOverLingering node now migrate existing previousConfirmed).2.knownRing =
      node.knownRing := by
  unfold takeOverLingering keepLingering
  dsimp only
  cases existing.completedAt
  case none => exact raiseAll_knownRing _
  case some =>
    dsimp only
    split <;> exact raiseAll_knownRing _

theorem bounded_occupy {migrate : Migrate} {afterRing : SharedRing}
    {lingering : List LingeringForward} (h : node.Bounded) :
    (occupy node migrate afterRing lingering).2.Bounded where
  known membership hm := (h.known membership hm).trans (Nat.lt_succ_self _)
  slot := by
    rintro _ ⟨⟩
    exact ⟨by simp [occupy], nofun⟩

theorem reserves_occupy (migrate : Migrate) (afterRing : SharedRing) (restore : List Key)
    (lingering : List LingeringForward) (hc : node.Calm ∅ node')
    (hk : ∀ membership, node'.knownRing = some membership → node.knownRing = some membership)
    (hr : ∀ id keys, node.held = some (id, keys) →
      keys = restore ∨ node.confirmedBy (migrate.joined.map (·.1)) = some id) :
    Reserves node migrate restore (occupy node' migrate afterRing lingering).1
      (occupy node' migrate afterRing lingering).2 where
  keys    := hr
  held    := held_eq_some.mpr ⟨_, rfl, rfl, rfl, rfl⟩
  length  := by simp [occupy, hc.length]
  guard   := hc.length
  name    := hc.name
  alloc   := hc.allocated.trans (Nat.le_succ _)
  known   := fun membership hm => .inl (hk membership hm)
  bounded := fun hb => bounded_occupy (hc.bounded hb)

theorem Reserves.revert {migrate : Migrate} {restore : List Key} {guard : MigrationGuard}
    {existing : ActiveMigration} (h : Reserves node migrate restore guard node')
    (ha : node.activeMigration = some existing) :
    Reserves node migrate restore guard (node'.revertKnownRingAfterAbandon existing) := by
  have ⟨hs, hl, hal, hna⟩ := revertKnownRing_frame node' existing.afterRing
    existing.preCompletionRing
  refine ⟨h.keys, (held_eq hs).trans h.held, (congrArg _ hl).trans h.length, h.guard,
    hna.trans h.name, h.alloc.trans hal.ge, fun membership hm => ?_, fun hb => ?_⟩
  · unfold revertKnownRingAfterAbandon revertKnownRing at hm
    split at hm
    · exact .inr ⟨existing, ha, hm⟩
    · exact h.known membership hm
  · refine bounded_revertKnownRing (h.bounded hb) fun membership hm => ?_
    exact ((hb.slot existing ha).right membership hm).trans_le h.alloc

theorem new_reserves (node : NodeContext) (now : Instant) (migrate : Migrate)
    (afterRing : SharedRing) :
    (∃ guard restore node', MigrationGuard.new node now migrate afterRing =
      (.new guard restore, node') ∧ Reserves node migrate restore guard node') ∨
    (∃ outcome node', MigrationGuard.new node now migrate afterRing = (outcome, node') ∧
      (∀ guard restore, outcome ≠ .new guard restore) ∧ node.Calm ∅ node') := by
  have hc : node.Calm ∅ (node.clearExpired now) := calm_clearExpired
  have hk : (node.clearExpired now).knownRing = node.knownRing := by
    unfold clearExpired
    split <;> rfl
  have hs : (node.clearExpired now).activeMigration = node.activeMigration ∨
      (node.clearExpired now).activeMigration = none := by
    unfold clearExpired
    split
    · exact .inr rfl
    · exact .inl rfl
  have hn := @arrives_new node now migrate afterRing
  generalize node.clearExpired now = node₁ at hc hk hs hn
  generalize MigrationGuard.new node now migrate afterRing = result at hn ⊢
  cases hn with
  | vacant ha =>
    refine .inl ⟨_, _, _, rfl, reserves_occupy _ _ _ _ hc (fun _ hm => hk ▸ hm) fun id keys hh => ?_⟩
    have hh' : node₁.held = none := held_of_none ha
    rw [hc.held_eq, hh] at hh'
    contradiction
  | refused _ _ ho => exact .inr ⟨_, _, rfl, ho, hc⟩
  | aborts         => exact .inr ⟨_, _, rfl, by simp, hc.trans (.trans (.raise _) (.raise _))⟩
  | @supersedes existing previousConfirmed taken ha _ hn hp ht =>
    have ha₀ : node.activeMigration = some existing := by
      rcases hs with hs | hs
      · exact hs ▸ ha
      · simp [hs] at ha
    have ht' : node.Calm ∅ taken.2 := hc.trans (ht ▸ calm.takeOverLingering)
    have hk' : ∀ membership, taken.2.knownRing = some membership →
        node.knownRing = some membership :=
      fun _ hm => hk ▸ knownRing_takeOverLingering ▸ ht ▸ hm
    refine .inl ⟨_, _, _, rfl, ?_⟩
    cases previousConfirmed
    case false =>
      refine .revert (reserves_occupy _ _ _ _ ht' hk' fun id keys hh => .inl ?_) ha₀
      have ⟨active, ha', _, _, hm⟩ := held_eq_some.mp hh
      cases ha₀.symm.trans ha'
      exact hm.symm
    case true =>
      refine reserves_occupy _ _ _ _ ht' hk' fun id keys hh => .inr ?_
      have ⟨active, ha', hf, hid, _⟩ := held_eq_some.mp hh
      cases ha₀.symm.trans ha'
      rw [hf, Bool.false_or, List.any_eq_true] at hp
      have ⟨x, hx, he⟩ := hp
      exact confirmedBy_eq_some.mpr ⟨existing, ha₀, hf, hn,
        List.mem_map.mpr ⟨x, hx, of_decide_eq_true he⟩, hid⟩

theorem new_spec (node : NodeContext) (now : Instant) (migrate : Migrate)
    (afterRing : SharedRing) :
    (∃ guard restore node', MigrationGuard.new node now migrate afterRing =
      (.new guard restore, node') ∧ Reserves node migrate restore guard node' ∧
      guard.Reserved node node') ∨
    (∃ outcome node', MigrationGuard.new node now migrate afterRing = (outcome, node') ∧
      (∀ guard restore, outcome ≠ .new guard restore) ∧ node.Calm ∅ node' ∧
      node.Leaves node') := by
  rcases new_reserves node now migrate afterRing with
    ⟨guard, restore, node', he, h⟩ | ⟨outcome, node', he, hn, h⟩
  · rcases new_cases node now migrate afterRing with ⟨_, _, _, he', h'⟩ | ⟨_, _, he', hn', _⟩
    · cases he.symm.trans he'
      exact .inl ⟨_, _, _, he, h, h'⟩
    · cases he.symm.trans he'
      exact absurd rfl (hn' guard restore)
  · rcases new_cases node now migrate afterRing with ⟨guard, restore, _, he', _⟩ | ⟨_, _, he', _, h'⟩
    · cases he.symm.trans he'
      exact absurd rfl (hn guard restore)
    · cases he.symm.trans he'
      exact .inr ⟨_, _, he, hn, h, h'⟩

-- The ring of the handoff is allocated first.
theorem Reserves.of_allocRing {migrate : Migrate} {restore : List Key} {guard : MigrationGuard}
    {ring : HashRing} (h : Reserves (node.allocRing ring).2 migrate restore guard node') :
    Reserves node migrate restore guard node' where
  keys    := h.keys
  held    := h.held
  length  := h.length
  guard   := h.guard
  name    := h.name
  alloc   := (Nat.le_succ _).trans h.alloc
  known   := h.known
  bounded := fun hb => h.bounded ⟨fun membership hm => (hb.known membership hm).trans (Nat.lt_succ_self _),
    fun active ha => ⟨(hb.slot active ha).left, fun membership hm =>
      ((hb.slot active ha).right membership hm).trans (Nat.lt_succ_self _)⟩⟩

end MigrationGuard
end Nanocached
