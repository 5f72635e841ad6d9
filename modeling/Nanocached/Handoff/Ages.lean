import Nanocached.Handoff.Member
import Nanocached.Handoff.Respects

-- Whatever happens to a node, its history of memberships only loses old ones, or moves on to a new
-- generation.

namespace Nanocached

namespace RingHistory

variable {history history' history'' : RingHistory} {now : Instant}

def Follows (history history' : RingHistory) : Prop :=
  history'.generation = history.generation ∧ history'.epochs <:+ history.epochs ∧
      (history.epochs ≠ [] → history'.epochs ≠ []) ∨
    history.generation < history'.generation

theorem Follows.refl : history.Follows history :=
  .inl ⟨rfl, List.suffix_rfl, id⟩

theorem Follows.trans (h : history.Follows history') (h' : history'.Follows history'') :
    history.Follows history'' := by
  rcases h with ⟨hg, he, hn⟩ | hlt
  · rcases h' with ⟨hg', he', hn'⟩ | hlt'
    · exact .inl ⟨hg'.trans hg, he'.trans he, hn' ∘ hn⟩
    · exact .inr (hg ▸ hlt')
  · rcases h' with ⟨hg', _⟩ | hlt'
    · exact .inr (hg' ▸ hlt)
    · exact .inr (hlt.trans hlt')

theorem Follows.generation_le (h : history.Follows history') :
    history.generation ≤ history'.generation := by
  rcases h with ⟨he, _⟩ | hlt
  · exact he.ge
  · exact hlt.le

theorem follows_touch : history.Follows history.touch :=
  .inr (Nat.lt_succ_self _)

theorem follows_recordIfNewAt {membership : Membership} :
    history.Follows (history.recordIfNewAt membership now) := by
  unfold recordIfNewAt
  split
  · exact .refl
  · exact .inr (Nat.lt_succ_self _)

theorem follows_checksWithinAt {grace : Duration} {name : Bytes} :
    history.Follows (history.checksWithinAt grace name now).2 := by
  unfold checksWithinAt
  split
  case h_1 => exact .refl
  case h_2 =>
    split
    case h_1 => exact .refl
    case h_2 hr =>
      obtain ⟨⟨epoch, he, _⟩, _⟩ := EpochLog.rposition_eq_some.mp hr
      obtain ⟨hlt, _⟩ := List.getElem?_eq_some_iff.mp he
      exact .inl ⟨rfl, List.drop_suffix _ _, fun _ => List.drop_eq_nil_iff.not.mpr hlt.not_ge⟩

end RingHistory

namespace NodeContext

variable {node node' node'' : NodeContext} {now : Instant}

structure Ages (node node' : NodeContext) : Prop where
  name    : node'.name = node.name
  history : node.ringHistory.Follows node'.ringHistory

namespace Ages

theorem of_eq (hn : node'.name = node.name) (hh : node'.ringHistory = node.ringHistory) :
    node.Ages node' :=
  ⟨hn, hh ▸ .refl⟩

theorem refl : node.Ages node :=
  .of_eq rfl rfl

theorem trans (h : node.Ages node') (h' : node'.Ages node'') : node.Ages node'' :=
  ⟨h'.name.trans h.name, h.history.trans h'.history⟩

theorem revertKnownRing {afterRing : SharedRing} {preCompletionRing : Option Membership} :
    node.Ages (node.revertKnownRing afterRing preCompletionRing) := by
  unfold NodeContext.revertKnownRing
  split
  · exact ⟨rfl, RingHistory.follows_touch⟩
  · exact .refl

theorem edited : Edited Ages where
  refl         := .refl
  trans        := .trans
  raise _      := .of_eq rfl rfl
  slot _ _     := .of_eq rfl rfl
  clearExpired := by
    intro node now
    unfold NodeContext.clearExpired
    split
    · exact .of_eq rfl rfl
    · exact .refl

theorem takeSlot : node.Ages (node.takeSlotKeepingLingering now).2 := by
  unfold takeSlotKeepingLingering keepLingering
  split
  case h_1       => exact .refl
  case h_2 taken =>
    have hn : node.Ages { node with activeMigration := none } := .of_eq rfl rfl
    dsimp only
    split
    · exact hn.trans (edited.raiseAll _)
    · exact (hn.trans (edited.raiseAll _)).trans (.of_eq rfl rfl)

theorem changed : Changed Ages where
  toEdited    := edited
  mark _      := .of_eq rfl rfl
  confirm _ _ := .of_eq rfl rfl
  take _      := takeSlot
  revert      := revertKnownRing
  know        := .of_eq rfl rfl

theorem new {migrate : Migrate} {afterRing : SharedRing} :
    node.Ages (MigrationGuard.new node now migrate afterRing).2 := by
  have hc : node.Ages (node.clearExpired now) := edited.clearExpired
  have hn := @MigrationGuard.arrives_new node now migrate afterRing
  generalize node.clearExpired now = node₁ at hc hn
  generalize MigrationGuard.new node now migrate afterRing = result at hn ⊢
  cases hn with
  | vacant  => exact hc.trans (.of_eq rfl rfl)
  | refused => exact hc
  | aborts  => exact hc.trans (.of_eq rfl rfl)
  | @supersedes existing previousConfirmed taken _ _ _ _ ht =>
    have ht : node.Ages taken.2 := hc.trans (ht ▸ edited.takeOverLingering)
    have ho : node.Ages (MigrationGuard.occupy taken.2 migrate afterRing taken.1).2 :=
      ht.trans (.of_eq rfl rfl)
    dsimp only
    split
    · exact ho
    · exact ho.trans revertKnownRing

theorem notePublishedRoster {roster : List Bytes} {replication : Nat} :
    node.Ages (node.notePublishedRoster roster replication) := by
  unfold NodeContext.notePublishedRoster
  split
  · exact .refl
  · exact .of_eq rfl rfl

theorem heartbeat {roster : List Bytes} {replication : Nat} :
    node.Ages (node.heartbeat now roster replication) := by
  have hn : node.Ages (node.notePublishedRoster roster replication) := notePublishedRoster
  unfold NodeContext.heartbeat
  split
  case isTrue  => exact .refl
  case isFalse =>
    dsimp only
    have ha : node.Ages ((node.notePublishedRoster roster replication).adoptMembership now
        roster replication).2 := hn.trans changed.adoptMembership
    split
    · exact ha
    · exact ha.trans ⟨rfl, RingHistory.follows_recordIfNewAt⟩

end Ages

theorem respected_ages : Respected Ages :=
  Ages.changed.respected (.of_eq rfl rfl) .takeSlot (.of_eq rfl rfl)

end NodeContext

theorem Node.ages_migrate {s : Node} {now : Instant} {migrate : Migrate} :
    s.context.Ages (s.migrate now migrate).context := by
  unfold Node.migrate
  split
  case isTrue  => exact .refl
  case isFalse =>
    generalize hr : (migrationRings s.context.name migrate.joiningName migrate.joined).2 = ring
    have ha : s.context.Ages (s.context.allocRing ring).2 := .of_eq rfl rfl
    have hn : s.context.Ages (MigrationGuard.new (s.context.allocRing ring).2 now migrate
        (s.context.allocRing ring).1).2 := ha.trans .new
    dsimp only
    rw [hr]
    split
    case h_1 he =>
      rw [he] at hn
      simpa using hn
    case h_2 he =>
      rw [he] at hn
      exact hn

namespace Member

variable {sha256 : Bytes → Vector UInt8 32} {s s' : Member} {now : Instant} {event : Event}

theorem ages_of_exec (he : s.exec sha256 now event = some s') :
    s.node.context.Ages s'.node.context := by
  cases event with
  | node event =>
    obtain ⟨node, hx, ⟨⟩⟩ := Option.bind_eq_some_iff.mp he
    by_cases ha : event = .actor
    case pos =>
      subst ha
      rw [(Node.actor_of_exec hx).1]
      exact .refl
    case neg =>
      exact (Node.moves_of_exec NodeContext.respected_ages (fun _ _ => Node.ages_migrate) ha
        hx).context
  | promote =>
    cases he
    exact .of_eq rfl rfl
  | discardStateToRejoin =>
    cases he
    unfold Node.discardStateToRejoin
    split
    · exact .refl
    · exact .of_eq rfl rfl
  | heartbeat roster replication =>
    cases he
    exact .heartbeat
  | refreshPublishedRoster roster replication =>
    cases he
    exact .notePublishedRoster

-- Only the cache actor changes the cache.
theorem cache_of_exec (hn : event ≠ .node .actor) (he : s.exec sha256 now event = some s') :
    s'.node.cache = s.node.cache := by
  cases event with
  | node event =>
    obtain ⟨node, hx, ⟨⟩⟩ := Option.bind_eq_some_iff.mp he
    have ha : event ≠ .actor := fun ha => hn (ha ▸ rfl)
    exact (Node.moves_of_exec NodeContext.respected_ages (fun _ _ => Node.ages_migrate) ha hx).cache
  | promote =>
    cases he
    rfl
  | discardStateToRejoin =>
    cases he
    unfold Node.discardStateToRejoin
    split <;> rfl
  | heartbeat roster replication =>
    cases he
    rfl
  | refreshPublishedRoster roster replication =>
    cases he
    rfl

end Member
end Nanocached
