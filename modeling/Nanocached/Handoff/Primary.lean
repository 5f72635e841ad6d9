import Nanocached.Handoff.Guard
import Nanocached.HashRing.Owners

namespace Nanocached
namespace NodeContext

variable (node : NodeContext)

def ownsUnderLatestPublished (keyHash : UInt64) : Bool :=
  node.latestPublished.any (·.owns keyHash node.name)

-- Clears the slot if it is expired, which does not matter to the answer of this or another call.
def servingLocallyForUnconfirmedJoin (now : Instant) (keyHash : UInt64) : Bool :=
  (node.clearExpired now).activeMigration.any fun active =>
    !active.confirmed && active.forwardingOpen now &&
      active.afterRing.ring.owns keyHash active.joiningName active.replication

def wrongNodeHashed (now : Instant) (keyHash : UInt64) : Bool :=
  if !node.promoted then
    true
  else
    let displaced := node.knownRing.any fun membership => !membership.owns keyHash node.name
    displaced && !node.servingLocallyForUnconfirmedJoin now keyHash &&
      !node.ownsUnderLatestPublished keyHash

-- The clock is read twice.
def notThePrimaryHashed (now later : Instant) (keyHash : UInt64) : Bool :=
  if node.wrongNodeHashed now keyHash then
    true
  else if node.servingLocallyForUnconfirmedJoin later keyHash then
    false
  else
    let primaryUnder (membership : Membership) := membership.ring.ring.owns keyHash node.name 1
    match node.knownRing with
    | none         => false
    | some adopted =>
      if adopted.owns keyHash node.name then
        !primaryUnder adopted
      else
        !node.latestPublished.any primaryUnder

def notThePrimary (now later : Instant) (key : Key) : Option Bool :=
  (keyHash key).map (node.notThePrimaryHashed now later)

end NodeContext

theorem mem_sortDedup {name : Bytes} {names : List Bytes} : name ∈ sortDedup names ↔ name ∈ names := by
  simp [sortDedup]

theorem mem_migrationRings {self joiningName name : Bytes} {joined : List (Bytes × Bytes)} :
    name ∈ (migrationRings self joiningName joined).2.nodes ↔
      name = joiningName ∨ name = self ∨ name ∈ joined.map (·.1) := by
  simp only [migrationRings, HashRing.mem_nodes_new, mem_sortDedup, List.mem_append,
    List.mem_singleton]
  split <;> grind

-- The membership consists of the given nodes.
structure Membership.Has (membership : Membership) (members : List Bytes) (replication : Nat) :
    Prop where
  nodes       : ∀ node, node ∈ membership.ring.ring.nodes ↔ node ∈ members
  replication : membership.replication = replication

-- How far a node has come with the join of `joiner` to the members it was told of.
inductive Stage (joined : List (Bytes × Bytes)) (replication : Nat) (joiner : Bytes)
    (now later : Instant) (node : NodeContext) : Prop
  | noSlot {known : Membership} :
    node.activeMigration = none → node.knownRing = some known →
    known.Has (joined.map (·.1)) replication → Stage joined replication joiner now later node
  | transferring {known : Membership} {active : ActiveMigration} :
    node.activeMigration = some active → active.joiningName = joiner →
    active.replication = replication → active.completedAt = none → active.confirmed = false →
    active.afterRing.ring = (migrationRings node.name joiner joined).2 →
    node.knownRing = some known → known.Has (joined.map (·.1)) replication →
    Stage joined replication joiner now later node
  | completed {known : Membership} {active : ActiveMigration} :
    node.activeMigration = some active → active.joiningName = joiner →
    active.replication = replication → active.completedAt.isSome → active.confirmed = false →
    active.forwardingOpen now → active.forwardingOpen later →
    active.afterRing.ring = (migrationRings node.name joiner joined).2 →
    node.knownRing = some known → known.Has (joiner :: joined.map (·.1)) replication →
    Stage joined replication joiner now later node

-- All that the nodes of the cluster have in common while `joiner` joins it.
structure View (joined : List (Bytes × Bytes)) (replication : Nat) (joiner : Bytes)
    (now later : Instant) (node : NodeContext) : Prop where
  promoted  : node.promoted = true
  published : ∃ membership, node.latestPublished = some membership ∧
                membership.Has (joined.map (·.1)) replication
  stage     : Stage joined replication joiner now later node

-- The node has a slot by which it serves the key until the join is confirmed.
def NodeContext.handsOver (node : NodeContext) (replication : Nat) (joiner : Bytes)
    (keyHash : UInt64) : Bool :=
  node.activeMigration.any (·.afterRing.ring.owns keyHash joiner replication)

-- The primary of a key before the join.
def IsPrimary (joined : List (Bytes × Bytes)) (keyHash : UInt64) (name : Bytes) : Prop :=
  (HashRing.new (joined.map (·.1))).owns keyHash name 1

section Primary

open NodeContext

variable {joined : List (Bytes × Bytes)} {replication : Nat} {joiner : Bytes} {now later : Instant}
         {node : NodeContext} {membership : Membership} {active : ActiveMigration} {keyHash : UInt64}

theorem Membership.Has.owns_eq {members : List Bytes} (h : membership.Has members replication)
    (name : Bytes) (n : Nat) :
    membership.ring.ring.owns keyHash name n = (HashRing.new members).owns keyHash name n :=
  HashRing.owns_congr fun node => by rw [h.nodes, HashRing.mem_nodes_new]

theorem serving_of_some (ha : node.activeMigration = some active) (hc : active.confirmed = false)
    (ho : active.forwardingOpen now) :
    node.servingLocallyForUnconfirmedJoin now keyHash =
      active.afterRing.ring.owns keyHash active.joiningName active.replication := by
  have he : node.clearExpired now = node := by
    simp [clearExpired, ha, ActiveMigration.expired, hc]
  simp [servingLocallyForUnconfirmedJoin, he, ha, hc, ho]

theorem View.serving (h : View joined replication joiner now later node) (keyHash : UInt64) :
    node.servingLocallyForUnconfirmedJoin now keyHash = node.handsOver replication joiner keyHash ∧
    node.servingLocallyForUnconfirmedJoin later keyHash =
      node.handsOver replication joiner keyHash := by
  cases h.stage with
  | noSlot ha =>
    simp [servingLocallyForUnconfirmedJoin, clearExpired,
      handsOver, ha]
  | @transferring _ active ha hname hrep hc hf =>
    have ho (t) : active.forwardingOpen t = true := by simp [ActiveMigration.forwardingOpen, hc]
    simp [serving_of_some ha hf (ho _), handsOver, ha, hname, hrep]
  | completed ha hname hrep _ hf ho ho' =>
    simp [serving_of_some ha hf ho, serving_of_some ha hf ho', handsOver, ha, hname, hrep]

-- Unless the joiner is to own the key, it does not matter whether the node has flipped its ring.
theorem View.primary_iff (h : View joined replication joiner now later node)
    (hj : joiner ∉ joined.map (·.1)) (hs : node.handsOver replication joiner keyHash = false) :
    ∃ known, node.knownRing = some known ∧ known.replication = replication ∧ (0 < replication →
      (known.ring.ring.owns keyHash node.name 1 ↔ IsPrimary joined keyHash node.name)) := by
  cases h.stage with
  | noSlot _ hk hm => exact ⟨_, hk, hm.replication, fun _ => by rw [hm.owns_eq, IsPrimary]⟩
  | transferring _ _ _ _ _ _ hk hm =>
    exact ⟨_, hk, hm.replication, fun _ => by rw [hm.owns_eq, IsPrimary]⟩
  | @completed known active ha hname hrep hc hf ho ho' hring hk hm =>
    refine ⟨known, hk, hm.replication, fun hr => ?_⟩
    by_cases hmem : node.name ∈ joiner :: joined.map (·.1)
    case neg =>
      refine iff_of_false (fun ho => hmem (hm.nodes _ |>.mp (HashRing.mem_nodes_of_owns ho))) ?_
      exact fun ho => hmem (.tail _ (HashRing.mem_nodes_new.mp (HashRing.mem_nodes_of_owns ho)))
    case pos =>
      -- The node is listed, so that the ring of its slot has the same nodes as the flipped one.
      have hring : ∀ name, name ∈ known.ring.ring.nodes ↔ name ∈ active.afterRing.ring.nodes := by
        intro name
        rw [hm.nodes, hring, mem_migrationRings]
        grind
      have hown : known.ring.ring.owns keyHash joiner 1 = false := by
        rw [HashRing.owns_congr hring]
        refine Bool.eq_false_iff.mpr fun h => ?_
        simp [handsOver, ha, HashRing.owns_mono h hr] at hs
      have hjoins : HashRing.Joins joiner (.new (joined.map (·.1))) known.ring.ring := {
        new := by rwa [HashRing.mem_nodes_new]
        mem := fun name => by rw [hm.nodes, HashRing.mem_nodes_new, List.mem_cons]
      }
      rw [hjoins.owns_eq hown, IsPrimary]

-- A node that does not hand the key over executes it as the primary of the ring it goes by.
theorem View.executes_iff (h : View joined replication joiner now later node)
    (hj : joiner ∉ joined.map (·.1)) :
    node.notThePrimaryHashed now later keyHash = false ↔
      node.handsOver replication joiner keyHash ∨
      0 < replication ∧ IsPrimary joined keyHash node.name := by
  have ⟨hnow, hlater⟩ := h.serving keyHash
  cases hs : node.handsOver replication joiner keyHash
  case true =>
    simp [notThePrimaryHashed, wrongNodeHashed, h.promoted, hnow, hlater, hs]
  case false =>
    obtain ⟨known, hk, hrep, hi⟩ := h.primary_iff hj hs
    obtain ⟨published, hp, hm⟩ := h.published
    simp only [notThePrimaryHashed, wrongNodeHashed, h.promoted, hnow, hlater,
      hs, hk, hp, ownsUnderLatestPublished, Membership.owns, hrep, hm.replication,
      hm.owns_eq, Option.any_some]
    rcases Nat.eq_zero_or_pos replication with rfl | hr
    case inl => simp [HashRing.owns_zero]
    case inr =>
      have hmono {ring : HashRing} (h₁ : ring.owns keyHash node.name 1) :
          ring.owns keyHash node.name replication := HashRing.owns_mono h₁ hr
      have hi := hi hr
      unfold IsPrimary at hi ⊢
      grind

-- The node is to execute the key as its primary, or by its slot.
def PrimaryOf (joined : List (Bytes × Bytes)) (key : Key) (node : NodeContext) : Prop :=
  ∃ keyHash, Nanocached.keyHash key = some keyHash ∧ IsPrimary joined keyHash node.name

def HandsOver (replication : Nat) (joiner : Bytes) (key : Key) (node : NodeContext) : Prop :=
  ∃ keyHash, Nanocached.keyHash key = some keyHash ∧ node.handsOver replication joiner keyHash

-- Only the primary has a slot by which it serves the key.
def ServesAsPrimary (joined : List (Bytes × Bytes)) (replication : Nat) (joiner : Bytes) (key : Key)
    (node : NodeContext) : Prop :=
  HandsOver replication joiner key node → PrimaryOf joined key node

theorem View.executes_key_iff {key : Key} (h : View joined replication joiner now later node)
    (hj : joiner ∉ joined.map (·.1)) :
    node.notThePrimary now later key = some false ↔
      HandsOver replication joiner key node ∨ 0 < replication ∧ PrimaryOf joined key node := by
  simp only [notThePrimary, Option.map_eq_some_iff, h.executes_iff hj, HandsOver,
    PrimaryOf, and_or_left, exists_or, and_left_comm, exists_and_left]

theorem HandsOver.pos {key : Key} (h : HandsOver replication joiner key node) :
    0 < replication := by
  obtain ⟨keyHash, -, h⟩ := h
  refine Nat.pos_of_ne_zero fun hr => ?_
  simp [handsOver, hr, HashRing.owns_zero] at h

theorem PrimaryOf.unique {a b : NodeContext} {key : Key} (ha : PrimaryOf joined key a)
    (hb : PrimaryOf joined key b) : a.name = b.name := by
  obtain ⟨keyHash, hk, ha⟩ := ha
  obtain ⟨keyHash', hk', hb⟩ := hb
  cases hk.symm.trans hk'
  exact HashRing.owns_one_unique ha hb

-- Of any nodes of the cluster at most one executes the key iff one that hands it over does so
-- alone, and is the primary if that is one of them.
theorem one_executor {ι : Type} {nodes : ι → NodeContext} {now later : ι → Instant} {key : Key}
    (hj : joiner ∉ joined.map (·.1)) (hn : Function.Injective fun i => (nodes i).name)
    (hv : ∀ i, View joined replication joiner (now i) (later i) (nodes i)) :
    ((∀ i j, (nodes i).notThePrimary (now i) (later i) key = some false →
        (nodes j).notThePrimary (now j) (later j) key = some false → i = j) ↔
      ∀ i j, HandsOver replication joiner key (nodes i) →
        HandsOver replication joiner key (nodes j) ∨ PrimaryOf joined key (nodes j) → i = j) ∧
    ((∃ i, PrimaryOf joined key (nodes i)) →
      ((∀ i j, (nodes i).notThePrimary (now i) (later i) key = some false →
          (nodes j).notThePrimary (now j) (later j) key = some false → i = j) ↔
        ∀ i, ServesAsPrimary joined replication joiner key (nodes i))) := by
  have hu {i j} (hi : PrimaryOf joined key (nodes i)) (hj : PrimaryOf joined key (nodes j)) :
      i = j := hn (hi.unique hj)
  have hx : (∀ i j, (nodes i).notThePrimary (now i) (later i) key = some false →
        (nodes j).notThePrimary (now j) (later j) key = some false → i = j) ↔
      ∀ i j, HandsOver replication joiner key (nodes i) →
        HandsOver replication joiner key (nodes j) ∨ PrimaryOf joined key (nodes j) → i = j := by
    simp only [(hv _).executes_key_iff hj]
    constructor
    case mp  => exact fun h i j hi hj => h i j (.inl hi) (hj.imp id (⟨hi.pos, ·⟩))
    case mpr =>
      rintro h i j (hi | hi) (hj | hj)
      · exact h i j hi (.inl hj)
      · exact h i j hi (.inr hj.2)
      · exact (h j i hj (.inr hi.2)).symm
      · exact hu hi.2 hj.2
  refine ⟨hx, fun ⟨p, hp⟩ => hx.trans ⟨fun h i hi => ?_, fun h i j hi hj => ?_⟩⟩
  · rwa [h i p hi (.inr hp)]
  · exact hu (h i hi) (hj.elim (h j) id)

end Primary

section Joining

-- A cluster of two nodes that keeps one copy of every key.
def pair : List (Bytes × Bytes) :=
  [([97], []), ([98], [])]

def joining : Migrate where
  joiningName  := [106]
  joiningAddr  := []
  joiningToken := []
  joined       := pair
  replication  := 1
  generation   := none

def member (name : Bytes) : NodeContext where
  name            := name
  promoted        := true
  leaving         := false
  activeMigration := none
  knownRing       := some ⟨⟨0, .new [[97], [98]]⟩, 1⟩
  latestPublished := some ⟨⟨0, .new [[97], [98]]⟩, 1⟩
  ringHistory     := ⟨[], 0⟩
  flags           := []
  allocated       := 1

def handingOff (name : Bytes) : NodeContext :=
  (MigrationGuard.new (member name) 0 joining ⟨1, (migrationRings name [106] pair).2⟩).2

theorem view_handingOff (name : Bytes) : View pair 1 [106] 0 0 (handingOff name) where
  promoted  := rfl
  published := ⟨_, rfl, fun _ => HashRing.mem_nodes_new, rfl⟩
  stage     := .transferring rfl rfl rfl rfl rfl rfl rfl ⟨fun _ => HashRing.mem_nodes_new, rfl⟩

-- The joiner is to own the key, and as long as the join is not confirmed both nodes serve it.
theorem two_executors :
    [106] ∉ pair.map (·.1) ∧ (handingOff [97]).name ≠ (handingOff [98]).name ∧
      View pair 1 [106] 0 0 (handingOff [97]) ∧ View pair 1 [106] 0 0 (handingOff [98]) ∧
      (handingOff [97]).notThePrimary 0 0 ⟨[], [97]⟩ = some false ∧
      (handingOff [98]).notThePrimary 0 0 ⟨[], [97]⟩ = some false :=
  ⟨by decide, by decide, view_handingOff _, view_handingOff _, by decide, by decide⟩

-- Both nodes are told of the joiner, but only the primary has taken up the handoff so far.
theorem one_executor_of_handingOff :
    HandsOver 1 [106] ⟨[], [97]⟩ (handingOff [98]) ∧
      (handingOff [98]).notThePrimary 0 0 ⟨[], [97]⟩ = some false ∧
      ∀ i j, (cond i (member [97]) (handingOff [98])).notThePrimary 0 0 ⟨[], [97]⟩ = some false →
        (cond j (member [97]) (handingOff [98])).notThePrimary 0 0 ⟨[], [97]⟩ = some false →
        i = j := by
  have hp : PrimaryOf pair ⟨[], [97]⟩ (handingOff [98]) := ⟨_, rfl, by unfold IsPrimary; decide⟩
  have hv (i) : View pair 1 [106] 0 0 (cond i (member [97]) (handingOff [98])) := by
    cases i
    case false => exact view_handingOff _
    case true  =>
      have hm := (view_handingOff [97]).published
      exact ⟨rfl, hm, .noSlot rfl rfl ⟨fun _ => HashRing.mem_nodes_new, rfl⟩⟩
  refine ⟨⟨_, rfl, by decide⟩, by decide, ((one_executor (by decide) ?_ hv).2 ⟨false, hp⟩).mpr ?_⟩
  · rintro (_ | _) (_ | _) h
    all_goals first | rfl | cases h
  · rintro (_ | _)
    · exact fun _ => hp
    · exact fun ⟨_, _, h⟩ => nomatch h

end Joining
end Nanocached
