import Nanocached.Handoff.Edits

namespace Nanocached

namespace NodeContext

variable {node node' node'' : NodeContext} {now : Instant} {active : ActiveMigration} {flag : Nat}

def Idle (node : NodeContext) : Prop :=
  ∀ active, node.activeMigration = some active → active.completedAt.isSome

-- No flag is ever lowered.
def Raises (node node' : NodeContext) : Prop :=
  ∀ ptr, node.flag ptr = true → node'.flag ptr = true

-- What all those do who do not hold the guard.
structure Leaves (node node' : NodeContext) : Prop where
  flags : node.Raises node'
  runs  : ∀ {flag}, node.Runs flag → node'.Runs flag
  idle  : node.Idle → node'.Idle

section Raises

theorem Raises.refl : node.Raises node :=
  fun _ h => h

theorem Raises.trans (h : node.Raises node') (h' : node'.Raises node'') : node.Raises node'' :=
  fun ptr hp => h' ptr (h ptr hp)

theorem Raises.of_eq (h : node'.flags = node.flags) : node.Raises node' := by
  intro ptr hp
  rwa [NodeContext.flag, h]

theorem raises_raise (ptr : Nat) : node.Raises (node.raise ptr) := by
  intro ptr' h
  have hlt : ptr' < node.flags.length := by
    by_contra hge
    rw [NodeContext.flag, List.getD_eq_default _ _ (Nat.le_of_not_lt hge)] at h
    contradiction
  by_cases he : ptr = ptr'
  · subst he
    simp [NodeContext.flag, raise, hlt]
  · simpa [NodeContext.flag, raise, List.getElem?_set_ne he] using h

theorem raises_raiseAll (ptrs : List Nat) : node.Raises (node.raiseAll ptrs) := by
  induction ptrs generalizing node
  case nil              => exact .refl
  case cons ptr ptrs hi => exact (raises_raise ptr).trans hi

end Raises

namespace Leaves

theorem of_slot (hf : node.Raises node') (hs : node'.activeMigration = node.activeMigration) :
    node.Leaves node' where
  flags := hf
  runs  := fun ⟨active, ha, hr⟩ => ⟨active, hs.trans ha, hr⟩
  idle  := fun hi active ha => hi active (hs ▸ ha)

theorem refl : node.Leaves node :=
  .of_slot .refl rfl

theorem trans (h : node.Leaves node') (h' : node'.Leaves node'') : node.Leaves node'' where
  flags := h.flags.trans h'.flags
  runs  := fun hr => h'.runs (h.runs hr)
  idle  := fun hi => h'.idle (h.idle hi)

theorem raise (ptr : Nat) : node.Leaves (node.raise ptr) :=
  .of_slot (raises_raise ptr) rfl

-- The slot keeps what tells its handoff from another one, and how far it has come.
theorem of_some {active' : ActiveMigration} (ha : node.activeMigration = some active)
    (hf : active'.abortRequested = active.abortRequested)
    (hc : active'.completedAt = active.completedAt) (hr : active.Running → active'.Running) :
    node.Leaves { node with activeMigration := some active' } where
  flags := .refl
  runs  := by
    rintro flag ⟨_, ha', rfl, hrun⟩
    cases ha.symm.trans ha'
    exact ⟨active', rfl, hf, hr hrun⟩
  idle  := by
    rintro hi _ ⟨⟩
    exact hc ▸ hi active ha

end Leaves

theorem Running.not_expired (h : active.Running) : active.expired now = false := by
  simp [ActiveMigration.expired, h.unconfirmed]

theorem leaves_clearExpired : node.Leaves (node.clearExpired now) := by
  unfold clearExpired
  split
  case isFalse => exact .refl
  case isTrue he =>
    refine ⟨.of_eq rfl, fun ⟨active, ha, _, hr⟩ => ?_, fun _ active ha => nomatch ha⟩
    simp [ha, Running.not_expired hr] at he

theorem raises_takeSlot : node.Raises (node.takeSlotKeepingLingering now).2 := by
  unfold takeSlotKeepingLingering keepLingering
  split
  case h_1 => exact .refl
  case h_2 taken _ =>
    have he : node.Raises { node with activeMigration := none } := .of_eq rfl
    dsimp only
    split <;> exact he.trans (raises_raiseAll _)

-- What remains of a slot after its handoff was taken out is no handoff.
theorem idle_takeSlot : (node.takeSlotKeepingLingering now).2.Idle := by
  unfold takeSlotKeepingLingering keepLingering
  intro active ha
  split at ha
  case h_1 hn => simp [hn] at ha
  case h_2 =>
    dsimp only at ha
    split at ha
    · simp at ha
    · cases ha
      rfl

-- A slot whose transfer is not running may be taken.
theorem leaves_takeSlot (h : ∀ flag, ¬node.Runs flag) :
    node.Leaves (node.takeSlotKeepingLingering now).2 where
  flags := raises_takeSlot
  runs  := fun hr => absurd hr (h _)
  idle  := fun _ => idle_takeSlot

theorem raises_endHandoff : node.Raises (node.endHandoff now) := by
  have hr : node.Raises (node.takeSlotKeepingLingering now).2 := raises_takeSlot
  unfold endHandoff
  split
  case h_1 he => rw [he] at hr; exact hr
  case h_2 he => rw [he] at hr; exact hr.trans (raises_raise _)

theorem idle_endHandoff : (node.endHandoff now).Idle := by
  have hi : (node.takeSlotKeepingLingering now).2.Idle := idle_takeSlot
  unfold endHandoff
  split
  case h_1 he => rw [he] at hi; exact hi
  case h_2 he => rw [he] at hi; exact hi

theorem leaves_revertKnownRing {afterRing : SharedRing} {preCompletionRing : Option Membership} :
    node.Leaves (node.revertKnownRing afterRing preCompletionRing) := by
  unfold revertKnownRing
  split
  · exact .of_slot .refl rfl
  · exact .refl

theorem running_confirm (h : active.Running) (joinerListed : Bool) :
    (active.confirm joinerListed).Running where
  transferring := h.transferring
  unconfirmed  := by simp [ActiveMigration.confirm, h.unconfirmed, h.transferring]
  handoff      := h.handoff

theorem leaves : Changed Leaves where
  refl         := .refl
  trans        := .trans
  raise        := .raise
  slot         := by
    rintro node active _ ha ⟨_, _, _, rfl⟩
    exact .of_some ha rfl rfl fun hr => ⟨hr.1, hr.2, hr.3⟩
  clearExpired := leaves_clearExpired
  mark ha      := .of_some ha rfl rfl fun hr => ⟨hr.1, hr.2, hr.3⟩
  confirm l ha := .of_some ha rfl rfl fun hr => running_confirm hr l
  take         := leaves_takeSlot
  revert       := leaves_revertKnownRing
  know         := .of_slot .refl rfl

@[simp]
theorem length_raiseAll_flags (ptrs : List Nat) :
    (node.raiseAll ptrs).flags.length = node.flags.length := by
  induction ptrs generalizing node
  case nil              => rfl
  case cons ptr ptrs hi => exact hi.trans (List.length_set ..)

@[simp]
theorem clearExpired_flags : (node.clearExpired now).flags = node.flags := by
  unfold clearExpired
  split <;> rfl

end NodeContext

namespace MigrationGuard

open NodeContext

variable {node node' : NodeContext} {now : Instant} {migrate : Migrate} {afterRing : SharedRing}
         {guard : MigrationGuard} {existing : ActiveMigration}

-- The slot was not held by a running transfer, and now it is held by that of the guard.
structure Reserved (node : NodeContext) (guard : MigrationGuard) (node' : NodeContext) : Prop where
  vacant : ∀ flag, ¬node.Runs flag
  fresh  : node.flags.length ≤ guard.abortRequested
  runs   : node'.Runs guard.abortRequested
  flags  : node.Raises node'

theorem runs_occupy (lingering : List LingeringForward) :
    (occupy node migrate afterRing lingering).2.Runs
      (occupy node migrate afterRing lingering).1.abortRequested :=
  ⟨_, rfl, rfl, rfl, rfl, rfl⟩

theorem raises_occupy (lingering : List LingeringForward) :
    node.Raises (occupy node migrate afterRing lingering).2 := by
  intro ptr h
  have hlt : ptr < node.flags.length := by
    by_contra hge
    rw [NodeContext.flag, List.getD_eq_default _ _ (Nat.le_of_not_lt hge)] at h
    contradiction
  simpa [NodeContext.flag, occupy, List.getElem?_append_left hlt] using h

theorem length_takeOverLingering (previousConfirmed : Bool) :
    (takeOverLingering node now migrate existing previousConfirmed).2.flags.length =
      node.flags.length := by
  unfold takeOverLingering keepLingering
  dsimp only
  cases existing.completedAt
  case none => simp [raise]
  case some =>
    dsimp only
    split <;> simp [raise]

-- A handoff of which the transfer is not running any more can be superseded.
theorem reserved_of_vacant (migrate : Migrate) (afterRing : SharedRing)
    (lingering : List LingeringForward) (hv : ∀ flag, ¬node.Runs flag) (hl : node'.flags.length = node.flags.length)
    (hr : node.Raises node') : Reserved node (occupy node' migrate afterRing lingering).1
      (occupy node' migrate afterRing lingering).2 where
  vacant := hv
  fresh  := hl.ge
  runs   := runs_occupy lingering
  flags  := hr.trans (raises_occupy lingering)

theorem Reserved.leaves {node'' : NodeContext} (h : Reserved node guard node')
    (hl : node'.Leaves node'') : Reserved node guard node'' where
  vacant := h.vacant
  fresh  := h.fresh
  runs   := hl.runs h.runs
  flags  := h.flags.trans hl.flags

-- Who does not get the guard leaves the slot alone.
theorem new_cases (node : NodeContext) (now : Instant) (migrate : Migrate) (afterRing : SharedRing) :
    (∃ guard restore node', MigrationGuard.new node now migrate afterRing =
      (.new guard restore, node') ∧ Reserved node guard node') ∨
    (∃ outcome node', MigrationGuard.new node now migrate afterRing = (outcome, node') ∧
      (∀ guard restore, outcome ≠ .new guard restore) ∧ node.Leaves node') := by
  have hl : node.Leaves (node.clearExpired now) := leaves_clearExpired
  have hf : (node.clearExpired now).flags = node.flags := clearExpired_flags
  have hn := @arrives_new node now migrate afterRing
  generalize node.clearExpired now = node₁ at hl hf hn
  generalize MigrationGuard.new node now migrate afterRing = result at hn ⊢
  cases hn with
  | vacant ha =>
    refine .inl ⟨_, _, _, rfl, reserved_of_vacant _ _ [] (fun flag hr => ?_) (by rw [hf]) hl.flags⟩
    have ⟨active, ha', _⟩ := hl.runs hr
    simp [ha] at ha'
  | refused _ _ ho => exact .inr ⟨_, _, rfl, ho, hl⟩
  | aborts         => exact .inr ⟨_, _, rfl, by simp, hl.trans (.trans (.raise _) (.raise _))⟩
  | @supersedes existing previousConfirmed taken ha _ hc _ ht =>
    have hv : ∀ flag, ¬node.Runs flag := fun flag hr =>
      not_runs_of_completed ha (Option.isNone_eq_false_iff.mpr hc) flag (hl.runs hr)
    have hlen : taken.2.flags.length = node.flags.length := by
      rw [← ht, length_takeOverLingering, hf]
    have hl' : node.Leaves taken.2 := hl.trans (ht ▸ leaves.takeOverLingering)
    have hr := reserved_of_vacant migrate afterRing taken.1 hv hlen hl'.flags
    refine .inl ⟨_, _, _, rfl, ?_⟩
    split
    · exact hr
    · exact hr.leaves leaves_revertKnownRing

theorem idle_completed {entriesSent : Nat} {markedKeys : List Key}
    {preCompletionRing : Option Membership} :
    (completed node now entriesSent markedKeys preCompletionRing).Idle := by
  intro active ha
  have ⟨_, _, he⟩ := Option.map_eq_some_iff.mp ha
  subst he
  rfl

end MigrationGuard

namespace HandoffSlot

open NodeContext

variable {s s' : HandoffSlot} {now : Instant} {op : Op}

-- The holder of a guard completes or drops it.
def Op.Releases (guard : MigrationGuard) : Op → Prop
  | .completed guard' .. => guard' = guard
  | .drop guard'         => guard' = guard
  | _                    => False

-- What a step does to the slot.
inductive Effect (s : HandoffSlot) (op : Op) (s' : HandoffSlot) : Prop
  | leave : s'.guards = s.guards → s.node.Leaves s'.node → Effect s op s'
  | reserve {guard : MigrationGuard} :
    s'.guards = guard :: s.guards → guard.Reserved s.node s'.node → Effect s op s'
  | release {guard : MigrationGuard} :
    guard ∈ s.guards → op.Releases guard → s'.guards = s.guards.erase guard →
    s'.node.Idle → s.node.Raises s'.node → Effect s op s'

theorem effect_of_exec (h : s.exec now op = some s') : Effect s op s' := by
  cases op
  case migrate migrate =>
    simp only [exec] at h
    have hl (ring) : s.node.Leaves (s.node.allocRing ring).2 := .of_slot .refl rfl
    rcases MigrationGuard.new_cases (s.node.allocRing
        (migrationRings s.node.name migrate.joiningName migrate.joined).2).2 now migrate
        (s.node.allocRing (migrationRings s.node.name migrate.joiningName migrate.joined).2).1 with
      ⟨guard, restore, node, hn, hr⟩ | ⟨outcome, node, hn, ho, hl'⟩
    · rw [hn] at h
      cases h
      exact .reserve rfl ⟨fun flag hr' => hr.vacant flag ((hl _).runs hr'), hr.fresh, hr.runs,
        (hl _).flags.trans hr.flags⟩
    · rw [hn] at h
      cases outcome with
      | new guard restore => exact absurd rfl (ho guard restore)
      | duplicateAcked    => cases h; exact .leave rfl ((hl _).trans hl')
      | conflict          => cases h; exact .leave rfl ((hl _).trans hl')
  case ack guard entries =>
    have ⟨_, h⟩ := Option.ite_none_right_eq_some.mp h
    cases h
    exact .leave rfl leaves.ack
  case takeJoinMarks guard =>
    have ⟨_, h⟩ := Option.ite_none_right_eq_some.mp h
    cases h
    exact .leave rfl leaves.takeJoinMarks
  case completed guard _ _ _ =>
    have ⟨hm, h⟩ := Option.ite_none_right_eq_some.mp h
    cases h
    exact .release hm rfl rfl MigrationGuard.idle_completed .refl
  case drop guard =>
    have ⟨hm, h⟩ := Option.ite_none_right_eq_some.mp h
    cases h
    exact .release hm rfl rfl idle_endHandoff raises_endHandoff
  case cancel            => cases h; exact .leave rfl leaves.abandonMigration
  case gone              => cases h; exact .leave rfl leaves.abandonDepartedSlot
  case adopt             => cases h; exact .leave rfl leaves.adoptMembership
  case joinTook          => cases h; exact .leave rfl leaves.joinTook
  case clearExpired      => cases h; exact .leave rfl leaves.clearExpired
  case retainLingering   => cases h; exact .leave rfl leaves.retainLingering
  case routeClear        => cases h; exact .leave rfl leaves.routeClear
  case takePendingClears => cases h; exact .leave rfl leaves.takePendingClears
  case requestAbort      => cases h; exact .leave rfl leaves.requestAbort

-- The slot is held by the one guard there is, if there is one.
inductive WF (s : HandoffSlot) : Prop
  | free : s.guards = [] → s.node.Idle → WF s
  | held {guard : MigrationGuard} : s.guards = [guard] → s.node.Runs guard.abortRequested → WF s

theorem WF.exec (h : s.WF) (he : s.exec now op = some s') : s'.WF := by
  cases effect_of_exec he with
  | leave hg hl =>
    cases h with
    | free hg' hi => exact .free (hg.trans hg') (hl.idle hi)
    | held hg' hr => exact .held (hg.trans hg') (hl.runs hr)
  | reserve hg hr =>
    cases h with
    | free hg' _  => exact .held (hg' ▸ hg) hr.runs
    | held _ hr'  => exact absurd hr' (hr.vacant _)
  | release hm _ hg hi _ =>
    cases h with
    | free hg' _ => simp [hg'] at hm
    | held hg' _ =>
      rw [hg'] at hm hg
      cases List.mem_singleton.mp hm
      exact .free (hg.trans (by simp)) hi

theorem Reachable.wf (h : Reachable s) : s.WF := by
  induction h
  case init hn        => exact .free rfl (by simp [NodeContext.Idle, hn])
  case step _ _ he hi => exact hi.exec he

theorem Reachable.guarded (h : Reachable s) :
    s.guards.length ≤ 1 ∧
    (∀ guard ∈ s.guards, ∃ active, s.node.activeMigration = some active ∧
      active.abortRequested = guard.abortRequested ∧ active.completedAt = none ∧
      active.confirmed = false ∧ active.remnant = false) ∧
    ∀ now op s', s.exec now op = some s' →
      (∀ active, s.node.activeMigration = some active → active.completedAt = none →
        (∃ active', s'.node.activeMigration = some active' ∧
          active'.abortRequested = active.abortRequested ∧ active'.completedAt = none) ∨
        op.Releases ⟨active.abortRequested⟩) ∧
      (∀ ptr, s.node.flag ptr = true → s'.node.flag ptr = true) ∧
      (∀ guard ∈ s'.guards, guard ∈ s.guards ∨ s.node.flags.length ≤ guard.abortRequested) := by
  have hw := h.wf
  refine ⟨?_, fun guard hm => ?_, fun now op s' he => ⟨fun active ha hc => ?_, ?_, ?_⟩⟩
  · cases hw with
    | free hg _ => simp [hg]
    | held hg _ => simp [hg]
  · cases hw with
    | free hg _  => simp [hg] at hm
    | held hg hr =>
      rw [hg] at hm
      cases List.mem_singleton.mp hm
      have ⟨active, ha, hf, hr⟩ := hr
      exact ⟨active, ha, hf, hr.transferring, hr.unconfirmed, hr.handoff⟩
  · cases hw with
    | free _ hi =>
      have hs := hi active ha
      simp [hc] at hs
    | held hg hr =>
      have ⟨active', ha', hf, _⟩ := hr
      cases ha.symm.trans ha'
      cases effect_of_exec he with
      | leave _ hl =>
        have ⟨active', ha', hf', hr'⟩ := hl.runs hr
        exact .inl ⟨active', ha', hf'.trans hf.symm, hr'.transferring⟩
      | reserve _ hv => exact absurd hr (hv.vacant _)
      | release hm ho _ _ _ =>
        rw [hg] at hm
        cases List.mem_singleton.mp hm
        exact .inr (hf ▸ ho)
  · cases effect_of_exec he with
    | leave _ hl          => exact hl.flags
    | reserve _ hr        => exact hr.flags
    | release _ _ _ _ hr  => exact hr
  · intro guard hm
    cases effect_of_exec he with
    | leave hg _         => exact .inl (hg ▸ hm)
    | release _ _ hg _ _ => exact .inl (List.mem_of_mem_erase (hg ▸ hm))
    | reserve hg hr      =>
      rw [hg] at hm
      rcases List.mem_cons.mp hm with rfl | hm
      · exact .inr hr.fresh
      · exact .inl hm

theorem guarded_of_migrate : ∃ s guard, Reachable s ∧ s.guards = [guard] ∧
    ∃ active, s.node.activeMigration = some active ∧
      active.abortRequested = guard.abortRequested ∧ active.completedAt = none := by
  let node : NodeContext := ⟨[97], true, false, none, none, none, ⟨[], 0⟩, [], 0⟩
  let migrate : Migrate := ⟨[98], [], [], [([97], [])], 1, none⟩
  have ⟨s, he, hg⟩ : ∃ s, exec ⟨node, []⟩ 0 (.migrate migrate) = some s ∧ s.guards = [⟨0⟩] :=
    ⟨_, rfl, rfl⟩
  have hr : Reachable s := .step (.init rfl) he
  have ⟨_, hs, _⟩ := Reachable.guarded hr
  have ⟨active, ha, hf, hc, _⟩ := hs ⟨0⟩ (by simp [hg])
  exact ⟨s, ⟨0⟩, hr, hg, active, ha, hf, hc⟩

end HandoffSlot
end Nanocached
