import Mathlib.Logic.Relation
import Nanocached.Discovery.Exec

namespace Nanocached.Discovery

-- They look the same from outside.
structure SameView (info info' : NodeInfo) : Prop where
  address             : info'.address = info.address
  state               : info'.state = info.state
  reportedReplication : info'.reportedReplication = info.reportedReplication
  token               : info'.token = info.token
  waitingSince        : info'.waitingSince = info.waitingSince
  ownerConnectionId   : info'.ownerConnectionId = info.ownerConnectionId

-- What a step is about: a node registers over a connection, everyone is kept (and one node may be
-- admitted), nodes are dropped, or joins are started.
inductive Kind
  | registers (name : Bytes) (id : Nat)
  | keeps (admitted : Option Bytes)
  | drops
  | starts

-- A node whose turn it is.
structure IsNext (nodes : Map Bytes NodeInfo) (name : Bytes) (info : NodeInfo) : Prop where
  lookup  : nodes.lookup name = some info
  waiting : info.state = .waiting
  first   : ∀ {name' info'}, nodes.lookup name' = some info' → info'.state = .waiting →
              name' ≠ name → before (name, info) (name', info')

-- The join of a node is started.
structure Starts (c : Core) (name : Bytes) (pending : PendingJoin) : Prop where
  joiningName : pending.joiningName = name
  generation  : pending.generation = c.nextJoinGeneration
  expected    : ∀ {m t}, pending.expected.lookup m = some t ↔
                  ∃ info, c.nodes.lookup m = some info ∧ info.state = .joined ∧ info.token = t
  completed   : pending.completed = ∅
  late        : pending.late = []
  registry    : ∀ {m info}, pending.registry.lookup m = some info → info.state = .joined →
                  c.nodes.lookup m = some info
  reports     : pending.reports = []

inductive Change (c : Core) : Kind → Core → Prop
  | refresh {kind : Kind} {nodes : Map Bytes NodeInfo} :
    (∀ name, Option.Rel SameView (c.nodes.lookup name) (nodes.lookup name)) →
    Change c kind { c with nodes }
  | update {admitted : Option Bytes} {name : Bytes} {info info' : NodeInfo} :
    (c.nodes.lookup name = some info) → (info.state = .joined) → (info'.state = .joined) →
    (info'.waitingSince = info.waitingSince) →
    Change c (.keeps admitted) { c with
      nodes      := c.nodes.insert name info'
      generation := c.generation + 1 }
  | register {name : Bytes} {id : Nat} {info : NodeInfo} :
    (name ∉ c.nodes) → (info.state = .waiting) → (info.ownerConnectionId = id) →
    Change c (.registers name id) { c with
      nodes      := c.nodes.insert name info
      generation := c.generation + 1 }
  | rejoin {name : Bytes} {id generation : Nat} {info info' : NodeInfo} :
    (c.nodes.lookup name = some info) → (info.state ≠ .joined) →
    (SameView { info with address := info'.address, ownerConnectionId := id } info') →
    (c.generation < generation ∨ generation = c.generation ∧ info'.address = info.address) →
    Change c (.registers name id) { c with
      nodes      := c.nodes.insert name info'
      generation := generation }
  | bootstrap {name : Bytes} {info info' : NodeInfo} :
    (c.currentJoin = none) → (IsNext c.nodes name info) →
    (info'.state = .joined) → (info'.waitingSince = info.waitingSince) →
    Change c .starts { c with
      nodes      := c.nodes.insert name info'
      generation := c.generation + 1 }
  | start {name : Bytes} {info : NodeInfo} {pending : PendingJoin} :
    (c.currentJoin = none) → (IsNext c.nodes name info) → (Starts c name pending) →
    Change c .starts { c with
      nodes              := c.nodes.insert name { info with state := .joining }
      currentJoin        := some pending
      nextJoinGeneration := c.nextJoinGeneration + 1 }
  | enlist {name : Bytes} {info : NodeInfo} :
    (name ∉ c.nodes) → (info.state = .joined) →
    Change c (.keeps (some name)) { c with
      nodes      := c.nodes.insert name info
      generation := c.generation + 1 }
  | late {admitted : Option Bytes} {pending : PendingJoin} {name token : Bytes} :
    (c.currentJoin = some pending) → (name ∉ pending.expected) →
    Change c (.keeps admitted) { c with currentJoin := some { pending with
      expected := pending.expected.insert name token
      late     := pending.late ++ [(name, token)] } }
  | credit {admitted : Option Bytes} {pending : PendingJoin} {report : Report} :
    (c.currentJoin = some pending) → (pending.credits report) →
    Change c (.keeps admitted) { c with currentJoin := some { pending with
      completed := insert report.name pending.completed
      reports   := pending.reports ++ [report] } }
  | measure {admitted : Option Bytes} {pending : PendingJoin} {maxEntries : Nat} :
    (c.currentJoin = some pending) →
    Change c (.keeps admitted) { c with currentJoin := some { pending with maxEntries } }
  | promote {admitted : Option Bytes} {pending : PendingJoin} {info info' : NodeInfo} :
    (c.currentJoin = some pending) → (pending.expected.size ≤ pending.completed.card) →
    (c.nodes.lookup pending.joiningName = some info) → (info.state = .joining) →
    (info'.state = .joined) →
    Change c (.keeps admitted) { c with
      nodes       := c.nodes.insert pending.joiningName info'
      generation  := c.generation + 1
      currentJoin := none
      promoted    := c.promoted ++ [pending] }
  | remove {nodes : Map Bytes NodeInfo} :
    (∀ name, nodes.lookup name = none ∨ nodes.lookup name = c.nodes.lookup name) →
    (∀ {name info}, c.nodes.lookup name = some info → info.state = .joining →
      nodes.lookup name = some info) →
    Change c .drops { c with nodes, generation := c.generation + 1 }
  | abandon {pending : PendingJoin} :
    (c.currentJoin = some pending) →
    Change c .drops { c with
      nodes       := c.nodes.erase pending.joiningName
      generation  := c.generation + 1
      currentJoin := none
      abandoned   := c.abandoned ++ [pending] }

-- The registry and the slot of the pending join agree.
structure Agrees (c : Core) : Prop where
  pending : ∀ {name info}, c.nodes.lookup name = some info → info.state = .joining →
              ∃ pending, c.currentJoin = some pending ∧ pending.joiningName = name
  joining : ∀ {pending}, c.currentJoin = some pending →
              ∃ info, c.nodes.lookup pending.joiningName = some info ∧ info.state = .joining

variable {c c' : Core} {kind : Kind} {nodes : Map Bytes NodeInfo} {name : Bytes}
variable {info info' : NodeInfo} {pending : PendingJoin}

section Agrees

theorem exists_of_refreshed (h : ∀ name, Option.Rel SameView (c.nodes.lookup name) (nodes.lookup name))
    (hl : nodes.lookup name = some info') :
    ∃ info, c.nodes.lookup name = some info ∧ SameView info info' := by
  have h := hl ▸ h name
  cases h' : c.nodes.lookup name <;> rw [h'] at h <;> cases h
  case some hs => exact ⟨_, rfl, hs⟩

theorem exists_refreshed (h : ∀ name, Option.Rel SameView (c.nodes.lookup name) (nodes.lookup name))
    (hl : c.nodes.lookup name = some info) :
    ∃ info', nodes.lookup name = some info' ∧ SameView info info' := by
  have h := hl ▸ h name
  cases h' : nodes.lookup name <;> rw [h'] at h <;> cases h
  case some hs => exact ⟨_, rfl, hs⟩

theorem agrees_of_change (h : Agrees c) (change : Change c kind c') : Agrees c' := by
  obtain ⟨hp, hj⟩ := h
  cases change
  case refresh nodes hs =>
    constructor
    · intro name info hl hi
      obtain ⟨info, hl, hv⟩ := exists_of_refreshed hs hl
      exact hp hl (hv.state ▸ hi)
    · intro pending hc
      obtain ⟨info, hl, hi⟩ := hj hc
      obtain ⟨info', hl, hv⟩ := exists_refreshed hs hl
      exact ⟨info', hl, hv.state.trans hi⟩
  case abandon pending hc =>
    constructor
    · intro name info hl hi
      obtain ⟨hn, hl⟩ := AList.lookup_erase_eq_some.mp hl
      obtain ⟨pending', hc', hn'⟩ := hp hl hi
      cases hc.symm.trans hc'
      exact absurd hn'.symm hn
    · intro pending hc
      contradiction
  case remove nodes hs hk =>
    constructor
    · intro name info hl hi
      rcases hs name with hn | hn
      · simp [hn] at hl
      · exact hp (hn ▸ hl) hi
    · intro pending hc
      obtain ⟨info, hl, hi⟩ := hj hc
      exact ⟨info, hk hl hi, hi⟩
  all_goals
    constructor
    all_goals grind [AList.lookup_insert_eq_ite, AList.mem_of_lookup, Starts, IsNext, SameView]

end Agrees

end Nanocached.Discovery
