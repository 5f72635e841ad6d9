import Nanocached.Handoff.Guard

-- The changes which the calls that concern the slot are made of. What holds for each of the changes
-- holds for the calls.

namespace Nanocached

namespace ActiveMigration

-- The transfer of a handoff is running.
structure Running (active : ActiveMigration) : Prop where
  transferring : active.completedAt = none
  unconfirmed  : active.confirmed = false
  handoff      : active.remnant = false

-- It is the same handoff, with the same marks, and it has come as far.
def Resembles (active active' : ActiveMigration) : Prop :=
  ∃ ackedEntries pendingClears lingering,
    active' = { active with ackedEntries, pendingClears, lingering }

end ActiveMigration

namespace NodeContext

-- The slot holds the handoff with the given abort flag, and its transfer is running.
def Runs (node : NodeContext) (flag : Nat) : Prop :=
  ∃ active, node.activeMigration = some active ∧ active.abortRequested = flag ∧ active.Running

-- A relation between the contexts before and after that holds for the changes by which no handoff
-- begins or ends.
structure Edited (R : NodeContext → NodeContext → Prop) : Prop where
  refl {node} : R node node
  trans {node node' node''} : R node node' → R node' node'' → R node node''
  raise {node} (ptr : Nat) : R node (node.raise ptr)
  slot {node active active'} : node.activeMigration = some active → active.Resembles active' →
    R node { node with activeMigration := some active' }
  clearExpired {node now} : R node (node.clearExpired now)

-- The same for all changes but those by which a handoff begins or completes. The transfer of a
-- handoff that is taken out of the slot is not running.
structure Changed (R : NodeContext → NodeContext → Prop) : Prop extends Edited R where
  mark {node active keys} : node.activeMigration = some active →
    R node { node with activeMigration := some { active with markedKeys := keys } }
  confirm {node active} (joinerListed : Bool) : node.activeMigration = some active →
    R node { node with activeMigration := some (active.confirm joinerListed) }
  take {node now} : (∀ flag, ¬node.Runs flag) → R node (node.takeSlotKeepingLingering now).2
  revert {node afterRing preCompletionRing} :
    R node (node.revertKnownRing afterRing preCompletionRing)
  know {node ring replication} : R node { (allocRing node ring).2 with
    knownRing := some ⟨(allocRing node ring).1, replication⟩ }

variable {R : NodeContext → NodeContext → Prop} {node node' : NodeContext} {now : Instant}
         {active : ActiveMigration} {members : List Bytes}

theorem not_runs_of_completed (ha : node.activeMigration = some active)
    (hc : active.completedAt.isNone = false) : ∀ flag, ¬node.Runs flag := by
  intro flag ⟨active', ha', _, hr⟩
  cases ha.symm.trans ha'
  simp [hr.transferring] at hc

theorem not_runs_of_confirmed
    (h : ∀ active, node.activeMigration = some active → active.confirmed = true) :
    ∀ flag, ¬node.Runs flag := by
  intro flag ⟨active, ha, _, hr⟩
  simpa [h active ha] using hr.unconfirmed

@[simp]
theorem raiseAll_activeMigration (ptrs : List Nat) :
    (node.raiseAll ptrs).activeMigration = node.activeMigration := by
  induction ptrs generalizing node
  case nil              => rfl
  case cons ptr ptrs hi => exact hi

theorem takeSlot_of_some (h : node.activeMigration = some active) :
    (node.takeSlotKeepingLingering now).1 = some { active with lingering := [] } := by
  unfold takeSlotKeepingLingering
  rw [h]
  dsimp only
  split <;> rfl

-- Only the joiner of a join that is confirmed can have been evicted.
theorem confirmed_of_judgeSlot (h : (node.judgeSlot now members).1.2 = true)
    (ha : (node.judgeSlot now members).2.activeMigration = some active) :
    active.confirmed = true := by
  unfold judgeSlot at h ha
  cases hn : node.activeMigration
  case none => simp [hn] at h
  case some active' =>
    rw [hn] at h ha
    have hc := (Bool.and_eq_true_iff.mp (Bool.and_eq_true_iff.mp h).left).left
    dsimp only at ha
    split at ha <;> (cases ha; exact hc)

theorem confirmed_evictLingering
    (h : ∀ active, node.activeMigration = some active → active.confirmed = true) :
    ∀ active, (node.evictLingering members).activeMigration = some active →
      active.confirmed = true := by
  intro active ha
  unfold evictLingering at ha
  split at ha
  case h_1 => exact h active ha
  case h_2 active' ha' =>
    rw [raiseAll_activeMigration] at ha
    cases ha
    exact h active' ha'

namespace Edited

variable (h : Edited R)

include h

theorem raiseAll (ptrs : List Nat) : R node (node.raiseAll ptrs) := by
  induction ptrs generalizing node
  case nil              => exact h.refl
  case cons ptr ptrs hi => exact h.trans (h.raise ptr) hi

theorem map {f : ActiveMigration → ActiveMigration}
    (hf : ∀ active : ActiveMigration, active.Resembles (f active)) :
    R node { node with activeMigration := node.activeMigration.map f } := by
  cases ha : node.activeMigration
  case none =>
    rw [Option.map_none, ← ha]
    exact h.refl
  case some active => exact h.slot ha (hf active)

theorem evictLingering : R node (node.evictLingering members) := by
  unfold NodeContext.evictLingering
  split
  case h_1           => exact h.refl
  case h_2 active ha => exact h.trans (h.slot ha ⟨_, _, _, rfl⟩) (h.raiseAll _)

theorem retainLingering : R node (node.retainLingering now) :=
  h.map fun _ => ⟨_, _, _, rfl⟩

theorem routeClear {scope : ClearScope} : R node (node.routeClear now scope) := by
  refine h.trans h.clearExpired (h.map fun active => ?_)
  split <;> exact ⟨_, _, _, rfl⟩

theorem takePendingClears : R node node.takePendingClears.2 := by
  unfold NodeContext.takePendingClears
  split
  case h_1           => exact h.refl
  case h_2 active ha => exact h.slot ha ⟨_, _, _, rfl⟩

theorem requestAbort : R node node.requestAbort := by
  unfold NodeContext.requestAbort
  split
  · exact h.refl
  · exact h.raise _

theorem ack {entries : Nat} : R node (MigrationGuard.ack node entries) :=
  h.map fun _ => ⟨_, _, _, rfl⟩

theorem endHandoff (ht : R node (node.takeSlotKeepingLingering now).2) :
    R node (node.endHandoff now) := by
  unfold NodeContext.endHandoff
  split
  case h_1 he => rw [he] at ht; exact ht
  case h_2 he => rw [he] at ht; exact h.trans ht (h.raise _)

theorem takeOverLingering {migrate : Migrate} {existing : ActiveMigration}
    {previousConfirmed : Bool} :
    R node (MigrationGuard.takeOverLingering node now migrate existing previousConfirmed).2 := by
  unfold MigrationGuard.takeOverLingering keepLingering
  dsimp only
  cases existing.completedAt
  case none => exact h.trans (h.raiseAll _) (h.raise _)
  case some =>
    dsimp only
    split
    · exact h.raiseAll _
    · exact h.trans (h.raiseAll _) (h.raise _)

-- A roster can end a handoff only if its join is confirmed.
theorem adoptMembership {replication : Nat} (hj : R node (node.judgeSlot now members).2)
    (ht : ∀ node, (∀ active, node.activeMigration = some active → active.confirmed = true) →
      R node (node.takeSlotKeepingLingering now).2)
    (hk : ∀ node ring, R node { (allocRing node ring).2 with
      knownRing := some ⟨(allocRing node ring).1, replication⟩ }) :
    R node (node.adoptMembership now members replication).2 := by
  unfold NodeContext.adoptMembership
  dsimp only
  have hl : R node ((node.judgeSlot now members).2.evictLingering members) :=
    h.trans hj h.evictLingering
  have he : R node (if (node.judgeSlot now members).1.2 = true then
      ((node.judgeSlot now members).2.evictLingering members).endHandoff now else
      (node.judgeSlot now members).2.evictLingering members) := by
    split
    case isFalse   => exact hl
    case isTrue hc =>
      refine h.trans hl (h.endHandoff (ht _ (confirmed_evictLingering ?_)))
      exact fun _ => confirmed_of_judgeSlot hc
  generalize (if (node.judgeSlot now members).1.2 = true then _ else _) = node' at he ⊢
  split
  · exact he
  · split
    · exact he
    · exact h.trans he (hk node' _)

end Edited

namespace Changed

variable (h : Changed R)

include h

theorem takeAbandonedSlot {isMatch : ActiveMigration → Bool} :
    R node (node.takeAbandonedSlot now isMatch).2 := by
  unfold NodeContext.takeAbandonedSlot
  split
  case h_1 => exact h.refl
  case h_2 active ha =>
    split
    case isFalse => exact h.refl
    case isTrue =>
      have hr : R node ((node.raise active.abortRequested).raise active.forwardRevoked) :=
        h.trans (h.raise _) (h.raise _)
      dsimp only
      split
      case isTrue     => exact hr
      case isFalse hc =>
        refine h.trans hr (h.take (not_runs_of_completed ?_ (Bool.not_eq_true _ ▸ hc)))
        exact ha

theorem abandonMigration {joiningName : Bytes} :
    R node (node.abandonMigration now joiningName).2 := by
  have ht := @h.takeAbandonedSlot _ node now fun active => active.joiningName = joiningName
  unfold NodeContext.abandonMigration
  split
  case h_1 he => rw [he] at ht; exact ht
  case h_2 he => rw [he] at ht; exact ht
  case h_3 he => rw [he] at ht; exact h.trans ht h.revert

theorem abandonDepartedSlot {identity : Nat} :
    R node (node.abandonDepartedSlot now identity).2 := by
  have ht := @h.takeAbandonedSlot _ node now fun active =>
    active.forwardRevoked = identity && active.completedAt.isSome && !active.remnant
  unfold NodeContext.abandonDepartedSlot
  dsimp only
  split
  case h_1 he => rw [he] at ht; exact h.trans ht h.revert
  case h_2 he => rw [he] at ht; exact ht

theorem judgeSlot : R node (node.judgeSlot now members).2 := by
  unfold NodeContext.judgeSlot
  split
  case h_1           => exact h.refl
  case h_2 active ha =>
    dsimp only
    split
    · exact h.trans (h.confirm _ ha) (h.raise _)
    · exact h.confirm _ ha

theorem adoptMembership {replication : Nat} :
    R node (node.adoptMembership now members replication).2 :=
  h.toEdited.adoptMembership h.judgeSlot (fun _ hc => h.take (not_runs_of_confirmed hc))
    fun _ _ => h.know

theorem joinTook {key : Key} {keyHash : UInt64} : R node (node.joinTook now key keyHash).2 := by
  have hc : R node (node.clearExpired now) := h.clearExpired
  unfold NodeContext.joinTook
  dsimp only
  generalize node.clearExpired now = node' at hc ⊢
  split
  case h_1           => exact hc
  case h_2 active ha =>
    split
    · exact hc
    · split
      · exact hc
      · split
        · exact h.trans hc (h.mark ha)
        · exact hc

theorem takeJoinMarks {guard : MigrationGuard} : R node (guard.takeJoinMarks node).2 := by
  unfold MigrationGuard.takeJoinMarks
  split
  case h_1           => exact h.refl
  case h_2 active ha =>
    split
    · exact h.mark ha
    · exact h.refl

end Changed
end NodeContext

-- A retry of the `M` that the handoff was started for.
def Migrate.retries (migrate : Migrate) (active : ActiveMigration) : Bool :=
  active.joiningName = migrate.joiningName &&
    MigrationGuard.sameGeneration active.generation migrate.generation && !active.remnant

namespace MigrationGuard

variable {node : NodeContext} {now : Instant} {migrate : Migrate} {afterRing : SharedRing}

-- What an `M` comes to, once a handoff that is expired is cleared.
inductive Arrives (node : NodeContext) (now : Instant) (migrate : Migrate)
    (afterRing : SharedRing) : MigrationOutcome × NodeContext → Prop
  | vacant : node.activeMigration = none → Arrives node now migrate afterRing
      (.new (occupy node migrate afterRing []).1 [], (occupy node migrate afterRing []).2)
  | refused {existing : ActiveMigration} {outcome : MigrationOutcome} :
      node.activeMigration = some existing →
      migrate.retries existing = true ∨ existing.completedAt = none →
      (∀ guard restore, outcome ≠ .new guard restore) →
      Arrives node now migrate afterRing (outcome, node)
  | aborts {existing : ActiveMigration} :
      node.activeMigration = some existing → existing.completedAt = none →
      Arrives node now migrate afterRing
        (.conflict, (node.raise existing.abortRequested).raise existing.forwardRevoked)
  | supersedes {existing : ActiveMigration} {previousConfirmed : Bool}
      {taken : List LingeringForward × NodeContext} :
      node.activeMigration = some existing → migrate.retries existing = false →
      existing.completedAt.isSome →
      (existing.confirmed || migrate.joined.any (·.1 = existing.joiningName)) = previousConfirmed →
      takeOverLingering node now migrate existing previousConfirmed = taken →
      Arrives node now migrate afterRing
        (.new (occupy taken.2 migrate afterRing taken.1).1
            (if previousConfirmed then [] else existing.markedKeys),
          if previousConfirmed then (occupy taken.2 migrate afterRing taken.1).2 else
            (occupy taken.2 migrate afterRing taken.1).2.revertKnownRingAfterAbandon existing)

theorem arrives_new : Arrives (node.clearExpired now) now migrate afterRing
    (MigrationGuard.new node now migrate afterRing) := by
  unfold MigrationGuard.new
  dsimp only
  generalize node.clearExpired now = node
  cases ha : node.activeMigration
  case none => exact .vacant ha
  case some existing =>
    have hb : migrate.retries existing = true ↔ existing.joiningName = migrate.joiningName ∧
        sameGeneration existing.generation migrate.generation ∧ !existing.remnant := by
      simp [Migrate.retries, and_assoc]
    dsimp only
    split
    case isTrue hr =>
      split
      · exact .refused ha (.inl (hb.mpr hr)) (by simp)
      · exact .refused ha (.inl (hb.mpr hr)) (by simp)
    case isFalse hr =>
      split
      case isTrue hc =>
        have hc := Option.isNone_iff_eq_none.mp hc
        split
        · exact .aborts ha hc
        · exact .refused ha (.inr hc) (by simp)
      case isFalse hc =>
        have hs : Arrives node now migrate afterRing _ := .supersedes ha
          (Bool.eq_false_iff.mpr (mt hb.mp hr))
          (Option.isSome_iff_ne_none.mpr (mt Option.isNone_iff_eq_none.mpr hc)) rfl rfl
        split
        case isTrue hp =>
          simp only [if_pos hp] at hs ⊢
          exact hs
        case isFalse hp =>
          simp only [if_neg hp] at hs ⊢
          exact hs

end MigrationGuard
end Nanocached
