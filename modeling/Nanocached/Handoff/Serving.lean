import Nanocached.Handoff.Member
import Nanocached.Handoff.Respects

namespace Nanocached
namespace NodeContext

variable {node node' node'' : NodeContext} {now : Instant}

-- If the slot holds a handoff whose join is not confirmed, it has held that handoff before.
structure KeepsJoin (node node' : NodeContext) : Prop where
  name : node'.name = node.name
  slot : ∀ active', node'.activeMigration = some active' → active'.confirmed = false →
           ∃ active, node.activeMigration = some active ∧ active.confirmed = false ∧
             active'.joiningName = active.joiningName ∧ active'.afterRing = active.afterRing ∧
             active'.replication = active.replication

namespace KeepsJoin

theorem of_slot (hn : node'.name = node.name)
    (hs : node'.activeMigration = node.activeMigration) : node.KeepsJoin node' where
  name := hn
  slot active ha hc := ⟨active, hs ▸ ha, hc, rfl, rfl, rfl⟩

theorem refl : node.KeepsJoin node :=
  .of_slot rfl rfl

theorem trans (h : node.KeepsJoin node') (h' : node'.KeepsJoin node'') : node.KeepsJoin node'' where
  name := h'.name.trans h.name
  slot active'' ha'' hc'' := by
    obtain ⟨active', ha', hc', hn', hr', hrep'⟩ := h'.slot active'' ha'' hc''
    obtain ⟨active, ha, hc, hn, hr, hrep⟩ := h.slot active' ha' hc'
    exact ⟨active, ha, hc, hn'.trans hn, hr'.trans hr, hrep'.trans hrep⟩

-- The slot is empty, or the join is confirmed.
theorem of_held (hn : node'.name = node.name) (hh : node'.held = none) : node.KeepsJoin node' where
  name := hn
  slot active ha hc := by
    have := held_eq_some.mpr ⟨active, ha, hc, rfl, rfl⟩
    cases hh.symm.trans this

theorem of_some {active active' : ActiveMigration} (hn : node'.name = node.name)
    (ha : node.activeMigration = some active) (ha' : node'.activeMigration = some active')
    (hc : active'.confirmed = false → active.confirmed = false)
    (hj : active'.joiningName = active.joiningName) (hr : active'.afterRing = active.afterRing)
    (hrep : active'.replication = active.replication) : node.KeepsJoin node' where
  name := hn
  slot active'' ha'' hc'' := by
    cases ha'.symm.trans ha''
    exact ⟨active, ha, hc hc'', hj, hr, hrep⟩

theorem takeSlot : node.KeepsJoin (node.takeSlotKeepingLingering now).2 :=
  .of_held frame_takeSlot.name held_takeSlot

theorem revertKnownRing {afterRing : SharedRing} {preCompletionRing : Option Membership} :
    node.KeepsJoin (node.revertKnownRing afterRing preCompletionRing) := by
  obtain ⟨hs, _, _, hn⟩ := revertKnownRing_frame node afterRing preCompletionRing
  exact .of_slot hn hs

theorem changed : Changed KeepsJoin where
  refl         := .refl
  trans        := .trans
  raise _      := .of_slot rfl rfl
  slot         := by
    rintro node active _ ha ⟨_, _, _, rfl⟩
    exact .of_some rfl ha rfl (fun hc => hc) rfl rfl rfl
  clearExpired := by
    intro node now
    unfold NodeContext.clearExpired
    split
    case isTrue  => exact .of_held rfl (held_of_none rfl)
    case isFalse => exact .refl
  mark ha      := .of_some rfl ha rfl (fun hc => hc) rfl rfl rfl
  confirm _ ha := .of_some rfl ha rfl (fun hc => (Bool.or_eq_false_iff.mp hc).left) rfl rfl rfl
  take _       := takeSlot
  revert       := revertKnownRing
  know         := .of_slot rfl rfl

theorem notePublishedRoster {roster : List Bytes} {replication : Nat} :
    node.KeepsJoin (node.notePublishedRoster roster replication) := by
  unfold NodeContext.notePublishedRoster
  split
  · exact .refl
  · exact .of_slot rfl rfl

theorem completed {entriesSent : Nat} {markedKeys : List Key}
    {preCompletionRing : Option Membership} :
    node.KeepsJoin (MigrationGuard.completed node now entriesSent markedKeys preCompletionRing) where
  name := rfl
  slot active' ha' hc' := by
    obtain ⟨active, ha, rfl⟩ := Option.map_eq_some_iff.mp ha'
    exact ⟨active, ha, hc', rfl, rfl, rfl⟩

theorem heartbeat {roster : List Bytes} {replication : Nat} :
    node.KeepsJoin (node.heartbeat now roster replication) := by
  have hn : node.KeepsJoin (node.notePublishedRoster roster replication) := notePublishedRoster
  unfold NodeContext.heartbeat
  split
  case isTrue  => exact .refl
  case isFalse =>
    dsimp only
    have ha : node.KeepsJoin ((node.notePublishedRoster roster replication).adoptMembership now
        roster replication).2 := hn.trans changed.adoptMembership
    split
    · exact ha
    · exact ha.trans (.of_slot rfl rfl)

end KeepsJoin

theorem respected_keepsJoin : Respected KeepsJoin :=
  KeepsJoin.changed.respected .completed .takeSlot (.of_slot rfl rfl)

end NodeContext

open NodeContext

-- The handoff of the `M` is in the slot.
structure Migrate.Occupies (migrate : Migrate) (afterRing : SharedRing) (node : NodeContext)
    (node' : NodeContext) : Prop where
  name : node'.name = node.name
  slot : ∃ active, node'.activeMigration = some active ∧
           active.joiningName = migrate.joiningName ∧ active.afterRing = afterRing ∧
           active.replication = migrate.replication

-- Either the handoff of the `M` takes the slot, or there is still the one from before.
theorem MigrationGuard.new_join (node : NodeContext) (now : Instant) (migrate : Migrate)
    (afterRing : SharedRing) :
    (∃ guard keys node', new node now migrate afterRing = (.new guard keys, node') ∧
      migrate.Occupies afterRing node node') ∨
    (∃ outcome node', new node now migrate afterRing = (outcome, node') ∧
      (∀ guard keys, outcome ≠ .new guard keys) ∧ node.KeepsJoin node') := by
  have hc : node.KeepsJoin (node.clearExpired now) := KeepsJoin.changed.clearExpired
  have hn := @arrives_new node now migrate afterRing
  generalize node.clearExpired now = node₁ at hc hn
  generalize MigrationGuard.new node now migrate afterRing = result at hn ⊢
  cases hn with
  | vacant         => exact .inl ⟨_, _, _, rfl, hc.name, _, rfl, rfl, rfl, rfl⟩
  | refused _ _ ho => exact .inr ⟨_, _, rfl, ho, hc⟩
  | aborts         => exact .inr ⟨_, _, rfl, by simp, hc.trans (.of_slot rfl rfl)⟩
  | @supersedes existing previousConfirmed taken _ _ _ _ ht =>
    have hn : taken.2.name = node.name :=
      (hc.trans (ht ▸ KeepsJoin.changed.takeOverLingering)).name
    refine .inl ⟨_, _, _, rfl, ?_⟩
    cases previousConfirmed
    case true  => exact ⟨hn, _, rfl, rfl, rfl, rfl⟩
    case false =>
      obtain ⟨hs, _, _, hna⟩ := revertKnownRing_frame (occupy taken.2 migrate afterRing taken.1).2
        existing.afterRing existing.preCompletionRing
      exact ⟨hna.trans hn, _, hs, rfl, rfl, rfl⟩

namespace Node

variable {s s' : Node} {now : Instant} {id : Nat} {task : Task} {event : Event}

-- What a task does to the slot between two awaits.
def KeepsJoin (s s' : Node) : Prop :=
  s.context.KeepsJoin s'.context

theorem keepsJoin_of_context (h : s'.context = s.context) : s.KeepsJoin s' := by
  unfold KeepsJoin
  rw [h]
  exact .refl

theorem join_of_migrate (s : Node) (now : Instant) (migrate : Migrate) :
    (s.accepted now (.migrate migrate) = none ∧ s.KeepsJoin (s.migrate now migrate)) ∨
    (s.accepted now (.migrate migrate) = some migrate ∧ ∃ afterRing,
      afterRing.ring = (migrationRings s.context.name migrate.joiningName migrate.joined).2 ∧
        migrate.Occupies afterRing s.context (s.migrate now migrate).context) := by
  unfold Node.migrate accepted
  dsimp only
  split
  case isTrue  => exact .inl ⟨rfl, keepsJoin_of_context rfl⟩
  case isFalse =>
    generalize hr : (migrationRings s.context.name migrate.joiningName migrate.joined).2 = ring
    rcases MigrationGuard.new_join (s.context.allocRing ring).2 now migrate
      (s.context.allocRing ring).1 with ⟨guard, keys, context, he, h⟩ | ⟨outcome, context, he, hn, h⟩
    · rw [he]
      refine .inr ⟨rfl, (s.context.allocRing ring).1, rfl, ?_⟩
      have hc : ({ s with context }.restore keys).context = context := restore_context keys
      obtain ⟨active, ha, hrest⟩ := h.slot
      exact ⟨(congrArg (·.name) hc).trans h.name, active,
        (congrArg (·.activeMigration) hc).trans ha, hrest⟩
    · have ha : s.context.KeepsJoin (s.context.allocRing ring).2 := .of_slot rfl rfl
      rw [he]
      cases outcome with
      | new guard keys => exact absurd rfl (hn guard keys)
      | duplicateAcked => exact .inl ⟨rfl, ha.trans h⟩
      | conflict       => exact .inl ⟨rfl, ha.trans h⟩

-- What an event does about the join in the slot.
theorem join_of_exec {sha256 : Bytes → Vector UInt8 32} (h : s.exec now sha256 event = some s') :
    (s.accepted now event = none ∧ s.KeepsJoin s') ∨
    ∃ migrate, s.accepted now event = some migrate ∧ ∃ afterRing,
      afterRing.ring = (migrationRings s.context.name migrate.joiningName migrate.joined).2 ∧
        migrate.Occupies afterRing s.context s'.context := by
  cases event with
  | migrate migrate =>
    cases h
    rcases s.join_of_migrate now migrate with h | h
    · exact .inl h
    · exact .inr ⟨migrate, h⟩
  | actor => exact .inl ⟨rfl, keepsJoin_of_context (actor_of_exec h).1⟩
  | _ =>
    have hm := moves_of_exec respected_keepsJoin (fun migrate he => by cases he) (by simp) h
    exact .inl ⟨rfl, hm.context⟩

end Node

section Rings

variable {self joiningName : Bytes} {joined : List (Bytes × Bytes)} {keyHash : UInt64}
         {replication : Nat}

theorem mem_migrationRings_before {name : Bytes} :
    name ∈ (migrationRings self joiningName joined).1.nodes ↔
      name = self ∨ name ∈ joined.map (·.1) := by
  simp only [migrationRings, HashRing.mem_nodes_new, mem_sortDedup]
  split <;> grind

-- The joiner comes between the owners from before, so that each of them is an owner still or the
-- next one after them.
theorem owns_before (h : (migrationRings self joiningName joined).2.owns keyHash joiningName replication) :
    (migrationRings self joiningName joined).1.owns keyHash self replication =
      ((migrationRings self joiningName joined).2.owns keyHash self replication ||
        (decide (joiningName ∉ (migrationRings self joiningName joined).1.nodes) &&
          (migrationRings self joiningName joined).2.owns keyHash self (replication + 1))) := by
  by_cases hj : joiningName ∈ (migrationRings self joiningName joined).1.nodes
  case pos =>
    have hc : (migrationRings self joiningName joined).1.owns keyHash self replication =
        (migrationRings self joiningName joined).2.owns keyHash self replication := by
      refine HashRing.owns_congr fun name => ?_
      rw [mem_migrationRings_before] at hj ⊢
      rw [mem_migrationRings]
      grind
    simp [hc, hj]
  case neg =>
    have hjoins : HashRing.Joins joiningName (migrationRings self joiningName joined).1
        (migrationRings self joiningName joined).2 := by
      refine ⟨hj, fun name => ?_⟩
      rw [mem_migrationRings, mem_migrationRings_before]
    have hn : self ≠ joiningName := by
      rintro rfl
      exact hj (mem_migrationRings_before.mpr (.inl rfl))
    rw [hjoins.owns_eq_succ h hn, decide_eq_true hj, Bool.true_and, Bool.eq_iff_iff, Bool.or_eq_true]
    exact ⟨.inr, fun ho => ho.elim (fun ho => HashRing.owns_mono ho (Nat.le_succ _)) id⟩

end Rings

namespace Member

variable {sha256 : Bytes → Vector UInt8 32} {s s' : Member} {now : Instant} {event : Event}
         {keyHash : UInt64}

-- As long as a join is not confirmed, the handoff in the slot is that of the `M`.
def Offers (s : Member) : Prop :=
  ∀ active, s.node.context.activeMigration = some active → active.confirmed = false →
    ∃ migrate, s.offer = some migrate ∧ active.joiningName = migrate.joiningName ∧
      active.replication = migrate.replication ∧ active.afterRing.ring =
        (migrationRings s.node.context.name migrate.joiningName migrate.joined).2

theorem Offers.of_keepsJoin {node : Node} (h : s.Offers) (hk : s.node.KeepsJoin node) :
    Offers ⟨node, s.offer⟩ := by
  intro active' ha' hc'
  obtain ⟨active, ha, hc, hn, hr, hrep⟩ := hk.slot active' ha' hc'
  obtain ⟨migrate, ho, hn', hrep', hr'⟩ := h active ha hc
  refine ⟨migrate, ho, hn.trans hn', hrep.trans hrep', ?_⟩
  rw [hr, hr']
  exact congrArg (fun name => (migrationRings name migrate.joiningName migrate.joined).2) hk.name.symm

theorem Offers.exec (h : s.Offers) (he : s.exec sha256 now event = some s') : s'.Offers := by
  cases event with
  | node event =>
    obtain ⟨node, hx, ⟨⟩⟩ := Option.bind_eq_some_iff.mp he
    rcases Node.join_of_exec hx with ⟨ha, hk⟩ | ⟨migrate, ha, afterRing, hr, ho⟩
    · rw [ha]
      exact h.of_keepsJoin hk
    · intro active hs _
      obtain ⟨active', hs', hn, hring, hrep⟩ := ho.slot
      cases hs.symm.trans hs'
      refine ⟨migrate, by rw [ha]; rfl, hn, hrep, ?_⟩
      rw [hring, hr]
      exact congrArg (fun name => (migrationRings name migrate.joiningName migrate.joined).2)
        ho.name.symm
  | promote =>
    cases he
    exact h.of_keepsJoin (.of_slot rfl rfl)
  | discardStateToRejoin =>
    cases he
    refine h.of_keepsJoin ?_
    unfold Node.discardStateToRejoin
    split
    · exact .refl
    · exact .of_slot rfl rfl
  | heartbeat roster replication =>
    cases he
    exact h.of_keepsJoin NodeContext.KeepsJoin.heartbeat
  | refreshPublishedRoster roster replication =>
    cases he
    exact h.of_keepsJoin NodeContext.KeepsJoin.notePublishedRoster

theorem Reachable.offers (h : Reachable sha256 s) : s.Offers := by
  induction h
  case init hs =>
    intro active ha
    cases hs.symm.trans ha
  case step _ he ho => exact ho.exec he

-- The node owns the key on the ring from before the unconfirmed handoff it still forwards for.
def OwnsBefore (s : Member) (now : Instant) (keyHash : UInt64) : Prop :=
  ∃ active migrate, s.node.context.activeMigration = some active ∧ active.confirmed = false ∧
    active.forwardingOpen now ∧ s.offer = some migrate ∧
    (migrationRings s.node.context.name migrate.joiningName migrate.joined).1.owns keyHash
      s.node.context.name migrate.replication

-- If the joiner of such a handoff is to own the key, then this node owns it still, or it is the one
-- in whose place the joiner owns it.
def Yields (s : Member) (now : Instant) (keyHash : UInt64) : Prop :=
  ∀ active migrate, s.node.context.activeMigration = some active → active.confirmed = false →
    active.forwardingOpen now → s.offer = some migrate →
    active.afterRing.ring.owns keyHash active.joiningName active.replication →
      active.afterRing.ring.owns keyHash s.node.context.name active.replication ∨
      active.joiningName ∉
          (migrationRings s.node.context.name migrate.joiningName migrate.joined).1.nodes ∧
        active.afterRing.ring.owns keyHash s.node.context.name (active.replication + 1)

theorem exists_of_serving {node : NodeContext}
    (h : node.servingLocallyForUnconfirmedJoin now keyHash = true) :
    ∃ active, node.activeMigration = some active ∧ active.confirmed = false ∧
      active.forwardingOpen now ∧
      active.afterRing.ring.owns keyHash active.joiningName active.replication := by
  obtain ⟨active, ha, h⟩ := (Option.any_eq_true ..).mp h
  simp only [Bool.and_eq_true, Bool.not_eq_true'] at h
  obtain ⟨⟨hc, ho⟩, hj⟩ := h
  refine ⟨active, ?_, hc, ho, hj⟩
  unfold NodeContext.clearExpired at ha
  split at ha
  case isTrue  => contradiction
  case isFalse => exact ha

theorem Offers.yields_iff {active : ActiveMigration} (h : s.Offers)
    (ha : s.node.context.activeMigration = some active) (hc : active.confirmed = false)
    (ho : active.forwardingOpen now)
    (hj : active.afterRing.ring.owns keyHash active.joiningName active.replication) :
    s.Yields now keyHash ↔ s.OwnsBefore now keyHash := by
  obtain ⟨migrate, hm, hn, hrep, hr⟩ := h active ha hc
  have hb := owns_before (hr ▸ hn ▸ hrep ▸ hj)
  rw [← hr, ← hn, ← hrep, Bool.eq_iff_iff, Bool.or_eq_true, Bool.and_eq_true,
    decide_eq_true_iff] at hb
  constructor
  case mp =>
    intro hy
    refine ⟨active, migrate, ha, hc, ho, hm, ?_⟩
    rw [← hn, ← hrep]
    exact hb.mpr (hn ▸ hy active migrate ha hc ho hm hj)
  case mpr =>
    rintro ⟨_, _, -, -, -, hm', hown⟩ _ _ ha' - - hm'' -
    cases hm.symm.trans hm'
    cases hm.symm.trans hm''
    cases ha.symm.trans ha'
    rw [← hn, ← hrep] at hown
    exact hn ▸ hb.mp hown

theorem Reachable.serves_owned {adopted : Membership} (h : Reachable sha256 s)
    (hp : s.node.context.promoted) (hk : s.node.context.knownRing = some adopted) :
    (s.node.context.wrongNodeHashed now keyHash = false →
      adopted.owns keyHash s.node.context.name ∨
      s.node.context.ownsUnderLatestPublished keyHash ∨ s.OwnsBefore now keyHash) ↔
    adopted.owns keyHash s.node.context.name ∨
      s.node.context.ownsUnderLatestPublished keyHash ∨ s.Yields now keyHash := by
  have hw : s.node.context.wrongNodeHashed now keyHash = false ↔
      adopted.owns keyHash s.node.context.name ∨
      s.node.context.servingLocallyForUnconfirmedJoin now keyHash ∨
      s.node.context.ownsUnderLatestPublished keyHash := by
    simp only [NodeContext.wrongNodeHashed, hp, hk, Option.any_some, Bool.not_true,
      Bool.false_eq_true, if_false, Bool.and_eq_false_iff, Bool.not_eq_false', or_assoc]
  cases hs : s.node.context.servingLocallyForUnconfirmedJoin now keyHash
  case true =>
    obtain ⟨active, ha, hc, ho, hj⟩ := exists_of_serving hs
    rw [h.offers.yields_iff ha hc ho hj]
    exact ⟨fun h => h (hw.mpr (.inr (.inl hs))), fun h _ => h⟩
  case false =>
    -- The node serves the key as an owner only, and the condition is about nothing.
    have hy : s.Yields now keyHash := fun active _ ha hc ho _ hj => by
      rw [serving_of_some ha hc ho, hj] at hs
      contradiction
    rw [hs] at hw
    refine iff_of_true (fun h => ?_) (.inr (.inr hy))
    rcases hw.mp h with ho | ho | ho
    · exact .inl ho
    · contradiction
    · exact .inr (.inl ho)

-- A cluster of two nodes that keeps one copy of every key. A third node joins.
def joinedPair : List Event :=
  [.promote, .heartbeat [[97], [98]] 1, .node (.migrate joining)]

def fresh (name : Bytes) : Member where
  offer := none
  node  := {
    context  := {
      name            := name
      promoted        := false
      leaving         := false
      activeMigration := none
      knownRing       := none
      latestPublished := none
      ringHistory     := ⟨[], 0⟩
      flags           := []
      allocated       := 0 }
    cache    := .withBudgets 10000 []
    queue    := []
    tasks    := ∅
    reported := [] }

def execAll (sha256 : Bytes → Vector UInt8 32) (s : Member) : List Event → Option Member
  | []              => some s
  | event :: events => do execAll sha256 (← s.exec sha256 0 event) events

theorem Reachable.execAll {events : List Event} (h : Reachable sha256 s)
    (he : s.execAll sha256 events = some s') : Reachable sha256 s' := by
  induction events generalizing s
  case nil =>
    cases he
    exact h
  case cons event events hi =>
    obtain ⟨s₁, hs, he⟩ := Option.bind_eq_some_iff.mp he
    exact hi (h.step hs) he

-- The node `a` serves the key `a`, which it has never owned, because the joiner is to own it.
theorem serves_unowned :
    let sha256 := fun _ => .replicate 32 0
    let keyHash := (Nanocached.keyHash ⟨[], [97]⟩).getD 0
    ∃ s adopted, Reachable sha256 s ∧ s.node.context.promoted ∧
      s.node.context.knownRing = some adopted ∧
      s.node.context.wrongNodeHashed 0 keyHash = false ∧
      adopted.owns keyHash s.node.context.name = false ∧
      s.node.context.ownsUnderLatestPublished keyHash = false ∧
      ∀ migrate, s.offer = some migrate →
        (migrationRings s.node.context.name migrate.joiningName migrate.joined).1.owns keyHash
          s.node.context.name migrate.replication = false := by
  intro sha256 keyHash
  let s := ((fresh [97]).execAll sha256 joinedPair).get (by decide)
  have hs : (fresh [97]).execAll sha256 joinedPair = some s := rfl
  refine ⟨s, _, (Reachable.init rfl).execAll hs, rfl, rfl, by decide, by decide, by decide, ?_⟩
  intro migrate hm
  cases hm
  decide

-- The node `b`, which has owned the key.
theorem serves_owned_of_yields :
    let sha256 := fun _ => .replicate 32 0
    let keyHash := (Nanocached.keyHash ⟨[], [97]⟩).getD 0
    ∃ s adopted, Reachable sha256 s ∧ s.node.context.promoted ∧
      s.node.context.knownRing = some adopted ∧
      s.node.context.wrongNodeHashed 0 keyHash = false ∧ s.Yields 0 keyHash ∧
      (adopted.owns keyHash s.node.context.name ∨
        s.node.context.ownsUnderLatestPublished keyHash ∨ s.OwnsBefore 0 keyHash) := by
  intro sha256 keyHash
  let s := ((fresh [98]).execAll sha256 joinedPair).get (by decide)
  have hs : (fresh [98]).execAll sha256 joinedPair = some s := rfl
  have h := (Reachable.init rfl).execAll hs
  have hy : s.Yields 0 keyHash := by
    intro active migrate ha _ _ hm _
    cases ha
    cases hm
    exact .inr (by decide)
  have hw : s.node.context.wrongNodeHashed 0 keyHash = false := by decide
  exact ⟨s, _, h, rfl, rfl, hw, hy, (h.serves_owned rfl rfl).mpr (.inr (.inr hy)) hw⟩

end Member
end Nanocached
