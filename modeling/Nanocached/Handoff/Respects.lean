import Nanocached.Handoff.Traced

namespace Nanocached

-- A relation between the contexts before and after that holds for each of the calls a node makes,
-- but for the one that starts a handoff.
structure NodeContext.Respected (R : NodeContext → NodeContext → Prop) : Prop where
  refl {node} : R node node
  trans {node node' node''} : R node node' → R node' node'' → R node node''
  ack {node entries} : R node (MigrationGuard.ack node entries)
  takeJoinMarks {node} {guard : MigrationGuard} : R node (guard.takeJoinMarks node).2
  completed {node now entriesSent markedKeys preCompletionRing} :
    R node (MigrationGuard.completed node now entriesSent markedKeys preCompletionRing)
  endHandoff {node now} : R node (node.endHandoff now)
  know {node membership} : R node { node with knownRing := some membership }
  abandonMigration {node now joiningName} : R node (node.abandonMigration now joiningName).2
  abandonDepartedSlot {node now identity} : R node (node.abandonDepartedSlot now identity).2
  adoptMembership {node now members replication} :
    R node (node.adoptMembership now members replication).2
  joinTook {node now key keyHash} : R node (node.joinTook now key keyHash).2
  clearExpired {node now} : R node (node.clearExpired now)
  retainLingering {node now} : R node (node.retainLingering now)
  routeClear {node now scope} : R node (node.routeClear now scope)
  takePendingClears {node} : R node node.takePendingClears.2
  requestAbort {node} : R node node.requestAbort

theorem NodeContext.Changed.respected {R : NodeContext → NodeContext → Prop} (h : Changed R)
    (hc : ∀ {node now entriesSent markedKeys preCompletionRing},
      R node (MigrationGuard.completed node now entriesSent markedKeys preCompletionRing))
    (ht : ∀ {node now}, R node (takeSlotKeepingLingering node now).2)
    (hk : ∀ {node : NodeContext} {membership}, R node { node with knownRing := some membership }) :
    Respected R where
  refl                := h.refl
  trans               := h.trans
  ack                 := h.ack
  takeJoinMarks       := h.takeJoinMarks
  completed           := hc
  endHandoff          := h.endHandoff ht
  know                := hk
  abandonMigration    := h.abandonMigration
  abandonDepartedSlot := h.abandonDepartedSlot
  adoptMembership     := h.adoptMembership
  joinTook            := h.joinTook
  clearExpired        := h.clearExpired
  retainLingering     := h.retainLingering
  routeClear          := h.routeClear
  takePendingClears   := h.takePendingClears
  requestAbort        := h.requestAbort

namespace Node

variable {R : NodeContext → NodeContext → Prop} {s s' : Node} {now : Instant} {id : Nat}
         {task : Task} {event : Event}

-- What the tasks of a node do: the cache is only changed by the cache actor.
structure Moves (R : NodeContext → NodeContext → Prop) (s s' : Node) : Prop where
  context : R s.context s'.context
  cache   : s'.cache = s.cache

theorem Moves.with_context (h : NodeContext.Respected R) {context : NodeContext}
    (hr : R s.context context) (hm : Moves R { s with context } s') : Moves R s s' :=
  ⟨h.trans hr hm.context, hm.cache⟩

theorem Moves.of_eq (h : NodeContext.Respected R) (hn : s'.context = s.context)
    (hc : s'.cache = s.cache) : Moves R s s' :=
  ⟨hn ▸ h.refl, hc⟩

section Tasks

variable (h : NodeContext.Respected R)

include h

theorem moves_drop : Moves R s (s.drop now id) :=
  ⟨h.endHandoff, rfl⟩

theorem moves_rollBack : Moves R s (s.rollBack now id task) := by
  refine .with_context h (@h.takeJoinMarks s.context ⟨id⟩) ?_
  unfold rollBack
  dsimp only
  split
  · exact moves_drop h
  · exact .of_eq h rfl rfl

theorem moves_drainPendingClears {site : Site} {next : Node → Node}
    (hn : ∀ s : Node, Moves R s (next s)) : Moves R s (s.drainPendingClears id task site next) := by
  refine .with_context h h.takePendingClears ?_
  unfold drainPendingClears
  dsimp only
  split
  · exact hn _
  · exact .of_eq h rfl rfl

theorem moves_complete {preCompletionRing : Option Membership} :
    Moves R s (s.complete now id task preCompletionRing) := by
  unfold complete
  dsimp only
  exact .with_context h h.completed (moves_drainPendingClears h fun _ => .of_eq h rfl rfl)

theorem moves_proceed (site : Site) : Moves R s (s.proceed now id task site) := by
  cases site
  case key    => exact .of_eq h rfl rfl
  case stamp  => exact moves_complete h
  case report => exact .of_eq h rfl rfl

theorem moves_leaveLoop : Moves R s (s.leaveLoop now id task) := by
  unfold leaveLoop
  split
  · exact moves_rollBack h
  · unfold flip
    dsimp only
    exact .with_context h h.know (moves_drainPendingClears h fun _ => moves_proceed h _)

theorem moves_nextKey (keys : List Key) : Moves R s (s.nextKey now id task keys) := by
  induction keys generalizing task
  case nil => exact moves_leaveLoop h
  case cons key keys hi =>
    rw [nextKey]
    split
    · exact moves_leaveLoop h
    · split
      · exact moves_drainPendingClears h fun _ => moves_proceed h _
      · exact hi

theorem moves_resume {outcome : Outcome} (hr : s.resume now id task outcome = some s') :
    Moves R s s' := by
  unfold resume at hr
  split at hr
  case h_1 =>
    cases hr
    exact moves_nextKey h _
  case h_2 =>
    split at hr
    · cases hr
      exact moves_proceed h _
    · cases hr
      exact .of_eq h rfl rfl
  case h_3 =>
    cases hr
    exact .of_eq h rfl rfl
  case h_4 =>
    cases hr
    exact moves_rollBack h
  case h_5 =>
    split at hr
    · cases hr
      exact moves_nextKey h _
    · cases hr
      exact .of_eq h rfl rfl
    · contradiction
  case h_6 =>
    cases hr
    exact moves_rollBack h
  case h_7 =>
    dsimp only at hr
    split at hr
    · cases hr
      exact .of_eq h rfl rfl
    · cases hr
      exact moves_nextKey h _
  case h_8 =>
    split at hr
    · cases hr
      exact moves_nextKey h _
    · contradiction
  case h_9 =>
    split at hr
    · cases hr
      exact moves_drop h
    · contradiction
  case h_10 =>
    cases hr
    exact .of_eq h rfl rfl
  case h_11 => contradiction

end Tasks

theorem migrate_cache {migrate : Migrate} : (s.migrate now migrate).cache = s.cache := by
  unfold Node.migrate
  split
  · rfl
  · dsimp only
    split
    · exact restore_cache _
    · rfl

-- What the cache actor does.
theorem actor_of_exec {sha256 : Bytes → Vector UInt8 32}
    (he : s.exec now sha256 .actor = some s') :
    s'.context = s.context ∧ ∃ request queue reply, s.queue = request :: queue ∧
      request.command.exec sha256 s.cache now = some (reply, s'.cache) := by
  simp only [exec] at he
  split at he
  case h_1 => contradiction
  case h_2 request queue hq =>
    obtain ⟨⟨reply, cache⟩, hc, ⟨⟩⟩ := Option.bind_eq_some_iff.mp he
    exact ⟨answer_context, request, queue, reply, hq, by rw [answer_cache]; exact hc⟩

-- What all others do.
theorem moves_of_exec {sha256 : Bytes → Vector UInt8 32} (h : NodeContext.Respected R)
    (hm : ∀ migrate, event = .migrate migrate → R s.context (s.migrate now migrate).context)
    (hn : event ≠ .actor) (he : s.exec now sha256 event = some s') : Moves R s s' := by
  cases event with
  | migrate migrate =>
    cases he
    exact ⟨hm migrate rfl, migrate_cache⟩
  | ack id entries =>
    obtain ⟨task, _, _, rfl⟩ := exists_of_accepted he
    exact ⟨h.ack, rfl⟩
  | lost id =>
    obtain ⟨task, _, _, rfl⟩ := exists_of_accepted he
    exact moves_drop h
  | start id keys =>
    obtain ⟨task, _, _, rfl⟩ := exists_of_accepted he
    exact .of_eq h rfl rfl
  | resume id outcome =>
    obtain ⟨task, _, hr⟩ := Option.bind_eq_some_iff.mp he
    exact moves_resume h hr
  | actor => contradiction
  | request op =>
    obtain ⟨_, ⟨⟩⟩ := Option.ite_none_left_eq_some.mp he
    exact .of_eq h rfl rfl
  | joinTook key keyHash =>
    have hj := @h.joinTook s.context now key keyHash
    simp only [exec] at he
    split at he
    all_goals
      case _ heq =>
        cases he
        rw [heq] at hj
        exact ⟨hj, rfl⟩
  | sweep owned order =>
    simp only [exec] at he
    cases hs : s.context.activeMigration
    case none =>
      rw [hs] at he
      cases he
      exact .of_eq h rfl rfl
    case some active =>
      rw [hs] at he
      dsimp only at he
      split at he <;> (cases he; exact .of_eq h rfl rfl)
  | cancel joiningName =>
    have ha := @h.abandonMigration s.context now joiningName
    simp only [exec] at he
    split at he
    case h_1 heq =>
      cases he
      rw [heq] at ha
      exact .with_context h ha (.of_eq h (restore_context _) (restore_cache _))
    case h_2 heq =>
      cases he
      rw [heq] at ha
      exact ⟨ha, rfl⟩
  | gone identity =>
    have ha := @h.abandonDepartedSlot s.context now identity
    simp only [exec] at he
    split at he
    case h_1 heq =>
      cases he
      rw [heq] at ha
      exact .with_context h ha (.of_eq h (restore_context _) (restore_cache _))
    case h_2 heq =>
      cases he
      rw [heq] at ha
      exact ⟨ha, rfl⟩
  | adopt members replication =>
    cases he
    exact ⟨h.adoptMembership, rfl⟩
  | clearExpired =>
    cases he
    exact ⟨h.clearExpired, rfl⟩
  | retainLingering =>
    cases he
    exact ⟨h.retainLingering, rfl⟩
  | routeClear scope =>
    cases he
    exact ⟨h.routeClear, rfl⟩
  | requestAbort =>
    cases he
    exact ⟨h.requestAbort, rfl⟩

end Node
end Nanocached
