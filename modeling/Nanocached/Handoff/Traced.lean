import Nanocached.Cache.Theorems.FreshMarks
import Nanocached.Handoff.Segment
import Nanocached.Lib.MarkQueue

namespace Nanocached

-- What a command does to the marks.
def Command.effect : Command → MarkCommand Key Nat
  | .markMigrated key handoff => .mark key handoff
  | .unmarkMigratedMany keys  => .unmark keys
  | .sweep true _ _           => .sweep
  | _                         => .other

def Command.marks : Command → List (Key × Nat)
  | .markMigrated key handoff => [(key, handoff)]
  | _                         => []

-- A command is a call of the cache, or it only reads.
-- Only a call writes values.
theorem Command.exec_cases {sha256 : Bytes → Vector UInt8 32} {cache cache' : Cache} {now : Instant}
    {command : Command} {reply : Reply}
    (h : command.exec sha256 cache now = some (reply, cache')) :
    cache' = cache ∨ ∃ op r, cache.exec sha256 now op = some (r, cache') ∧
      (command = .call op ∨ ∀ key, ¬(Cache.Event.mk now op r).Writes key) := by
  have of_call (op) (h : ((cache.exec sha256 now op).bind fun r => some (Reply.done, r.2)) =
      some (reply, cache')) : ∃ r, cache.exec sha256 now op = some (r, cache') := by
    obtain ⟨r, hr, h⟩ := Option.bind_eq_some_iff.mp h
    cases h
    exact ⟨r.1, hr⟩
  cases command with
  | call op =>
    obtain ⟨r, hr⟩ := of_call op h
    exact .inr ⟨op, r, hr, .inl rfl⟩
  | peekLiveEntry key =>
    cases h
    exact .inl rfl
  | markMigrated key =>
    obtain ⟨r, hr⟩ := of_call (.markMigrated key) h
    exact .inr ⟨_, r, hr, .inr fun _ => id⟩
  | unmarkMigratedMany keys =>
    obtain ⟨r, hr⟩ := of_call (.unmarkMigratedMany keys) h
    exact .inr ⟨_, r, hr, .inr fun _ => id⟩
  | sweep marked owned order =>
    cases marked
    case false =>
      obtain ⟨r, hr⟩ := of_call (.sweepExpired order) h
      exact .inr ⟨_, r, hr, .inr fun _ => id⟩
    case true =>
      cases owned
      case none =>
        obtain ⟨r, hr⟩ := of_call (.sweep order) h
        exact .inr ⟨_, r, hr, .inr fun _ => id⟩
      case some owned =>
        obtain ⟨r, hr⟩ := of_call (.sweepKeeping order owned) h
        exact .inr ⟨_, r, hr, .inr fun _ => id⟩

theorem Command.wf_of_exec {sha256 : Bytes → Vector UInt8 32} {cache cache' : Cache} {now : Instant}
    {command : Command} {reply : Reply} (h : cache.WF sha256)
    (he : command.exec sha256 cache now = some (reply, cache')) : cache'.WF sha256 := by
  rcases Command.exec_cases he with rfl | ⟨op, r, hr, _⟩
  · exact h
  · exact Cache.wf_of_exec h hr

-- The keys which a task has marked, or is about to mark.
def Task.inflight (task : Task) : List Key :=
  match task.await with
  | .mark key => task.markedThisRun ++ [key]
  | _         => task.markedThisRun

theorem Await.ne_mark {await : Await} (h : !await.asks) (key : Key) : await ≠ .mark key := by
  rintro rfl
  contradiction

theorem Task.inflight_of_not_mark {task : Task} (h : ∀ key, task.await ≠ .mark key) :
    task.inflight = task.markedThisRun := by
  unfold Task.inflight
  split
  case h_1 key he => exact absurd he (h key)
  case h_2        => rfl

theorem Task.inflight_of_not_hasMarks {task : Task} (h : task.await.hasMarks = false) :
    task.inflight = task.markedThisRun :=
  task.inflight_of_not_mark fun key he => by simp [he, Await.hasMarks] at h

theorem Task.Answered.markedThisRun {task task' : Task} (h : task.Answered task') :
    task'.markedThisRun = task.inflight := by
  cases h with
  | other hn  => exact (Task.inflight_of_not_mark hn).symm
  | marked ha => simp [Task.inflight, ha]

theorem Await.not_hasMarks {await : Await} (h : await.isLive = false) : await.hasMarks = false := by
  revert h
  fun_cases Await.isLive await <;> simp [Await.hasMarks]

namespace Node

variable (s : Node)

def effects : List (MarkCommand Key Nat) :=
  s.queue.map (·.command.effect)

def inflight (id : Nat) : List Key :=
  (s.tasks.lookup id).elim [] (·.inflight)

def asksToStop (active : ActiveMigration) : Event → Bool
  | .cancel joiningName => active.joiningName = joiningName
  | .migrate migrate    => !s.context.leaving && active.joiningName = migrate.joiningName &&
      !MigrationGuard.sameGeneration active.generation migrate.generation
  | .requestAbort       => true
  | _                   => false

-- The handoff which is asked to stop while its transfer is running.
def aborts (event : Event) : Option Nat :=
  (s.context.activeMigration.filter fun active =>
    active.completedAt.isNone && s.asksToStop active event).map (·.abortRequested)

-- The handoff that has completed its share and whose join is undecided.
def undecided : Option Nat :=
  (s.context.activeMigration.filter fun active =>
    active.completedAt.isSome && !active.confirmed).map (·.abortRequested)

end Node

-- A node along with what has happened to it.
structure Traced where
  node      : Node
  -- The entries that carry a mark which was made for a handoff.
  marks     : List (Key × Nat)
  -- The handoffs whose joins the node has seen confirmed.
  confirmed : List Nat
  -- The handoffs that were given up when they had completed their share.
  abandoned : List Nat
  -- The handoffs that were asked to stop.
  aborted   : List Nat

namespace Traced

-- A mark lasts until the entry is rewritten, removed or unmarked.
def marksAfter (s : Traced) (event : Node.Event) (cache : Cache) : List (Key × Nat) :=
  match event, s.node.queue with
  | .actor, request :: _ => (request.command.marks ++ s.marks).filter fun p => cache.isMarked p.1
  | _, _                 => s.marks

def exec (sha256 : Bytes → Vector UInt8 32) (s : Traced) (now : Instant) (event : Node.Event) :
    Option Traced := do
  let node ← s.node.exec now sha256 event
  let confirmed := (s.node.confirms event).toList ++ s.confirmed
  return {
    node      := node
    marks     := s.marksAfter event node.cache
    confirmed := confirmed
    abandoned := (s.node.undecided.filter fun id =>
      node.context.held.map (·.1) ≠ some id ∧ id ∉ confirmed).toList ++ s.abandoned
    aborted   := (s.node.aborts event).toList ++ s.aborted }

-- The states of a node that starts with any cache, if each step meets a condition.
inductive Reachable (sha256 : Bytes → Vector UInt8 32) (meets : Node → Node.Event → Bool) :
    Traced → Prop
  | init {node : Node} :
    node.context.activeMigration = none → node.context.Bounded → node.cache.WF sha256 →
    node.queue = [] → node.tasks = ∅ → node.reported = [] →
    Reachable sha256 meets ⟨node, [], [], [], []⟩
  | step {s s' : Traced} {now : Instant} {event : Node.Event} :
    Reachable sha256 meets s → meets s.node event → s.exec sha256 now event = some s' →
    Reachable sha256 meets s'

end Traced

namespace Node

-- A guard is dropped only when no marked keys are recorded in the slot.
def dropsNoMarks (s : Node) : Event → Bool
  | .lost _      => s.context.activeMigration.all (·.markedKeys.isEmpty)
  | .resume id _ => (s.tasks.lookup id).all fun task =>
    match task.await with
    | .unmark => s.context.activeMigration.all (·.markedKeys.isEmpty)
    | _       => true
  | _            => true

open MarkCommand NodeContext

-- What holds of the marks. Those which are left when the actor has processed its queue are of joins
-- that are confirmed, or they are held by the handoff in the slot and its task.
structure Marks (sha256 : Bytes → Vector UInt8 32) (s : Node) (marks : List (Key × Nat))
    (confirmed : List Nat) : Prop where
  cache   : s.cache.WF sha256
  live    : ∀ {id task}, s.tasks.lookup id = some task → task.await.isLive → s.context.Runs id
  settled : ∀ {id task}, s.tasks.lookup id = some task → task.await.hasMarks = false →
              task.markedThisRun = []
  held    : ∀ {key id}, (key, id) ∈ after { p | p ∈ marks } s.effects →
              id ∈ confirmed ∨ ∃ keys, s.context.held = some (id, keys) ∧
                key ∈ keys ++ s.inflight id
  orderly : Orderly { id | id ∈ confirmed } { p | p ∈ marks } s.effects

variable {sha256 : Bytes → Vector UInt8 32} {s s' : Node} {marks : List (Key × Nat)}
         {confirmed confirmed' : List Nat} {now : Instant} {id : Nat} {task task' : Task}
         {context : NodeContext} {command : Command} {outcome : Outcome}
         {sender : Option Nat} {reply : Reply} {keys : List Key}

@[simp]
theorem effects_push : (s.push command sender).effects = s.effects ++ [command.effect] := by
  simp [effects, push]

theorem after_push {m : Set (Key × Nat)} :
    after m (s.push command sender).effects = command.effect.apply (after m s.effects) := by
  simp

theorem inflight_of_lookup (h : s.tasks.lookup id = some task) : s.inflight id = task.inflight := by
  simp [inflight, h]

theorem Marks.init (hc : s.cache.WF sha256) (hq : s.queue = []) (ht : s.tasks = ∅) :
    Marks sha256 s [] [] where
  cache   := hc
  live    := by simp [ht]
  settled := by simp [ht]
  held    := by simp [effects, hq]
  orderly := by simpa [effects, hq] using .nil

theorem Marks.confirm (h : Marks sha256 s marks confirmed) (hc : confirmed ⊆ confirmed') :
    Marks sha256 s marks confirmed' where
  cache   := h.cache
  live    := h.live
  settled := h.settled
  held    := fun hm => (h.held hm).imp_left (hc ·)
  orderly := h.orderly.mono subset_rfl hc

-- The slot is left alone, apart from a join that is confirmed.
theorem Marks.calm (h : Marks sha256 s marks confirmed)
    (hc : s.context.Calm { id | id ∈ confirmed } context) (hl : s.context.Leaves context) :
    Marks sha256 { s with context } marks confirmed where
  cache   := h.cache
  live    := fun ht ha => hl.runs (h.live ht ha)
  settled := h.settled
  held    := by
    intro key id hm
    rcases h.held hm with hd | ⟨keys, hh, hk⟩
    · exact .inl hd
    · rcases hc.held with he | ⟨_, hd⟩
      · exact .inr ⟨keys, he.trans hh, hk⟩
      · exact .inl (hd id keys hh)
  orderly := h.orderly

theorem Marks.push (h : Marks sha256 s marks confirmed)
    (he : command.effect = .other ∨ command.effect = .sweep ∧ s.context.held = none) :
    Marks sha256 (s.push command sender) marks confirmed where
  cache   := h.cache
  live    := h.live
  settled := h.settled
  held    := by
    intro key id hm
    refine h.held (?_ : (key, id) ∈ after _ s.effects)
    rw [after_push] at hm
    rcases he with he | ⟨he, _⟩ <;> (rw [he] at hm; exact hm)
  orderly := by
    rw [effects_push]
    refine h.orderly.push fun hs p hp => ?_
    rcases he with he | ⟨_, hn⟩
    · rw [he] at hs
      contradiction
    · exact (h.held hp).resolve_right fun ⟨_, hh, _⟩ => by simp [hn] at hh

-- A put-if-absent copy is marked for the handoff.
theorem Marks.join (h : Marks sha256 s marks confirmed) {key : Key}
    (hl : s.context.Leaves context) (hh : s.context.held = some (id, keys))
    (hh' : context.held = some (id, keys ++ [key])) :
    Marks sha256 ({ s with context }.push (.markMigrated key id) sender) marks confirmed where
  cache   := h.cache
  live    := fun ht ha => hl.runs (h.live ht ha)
  settled := h.settled
  held    := by
    intro key' id' hm
    rw [after_push] at hm
    rcases hm with he | hm
    · cases he
      exact .inr ⟨_, hh', by simp⟩
    · refine (h.held hm).imp_right fun ⟨keys', hh'', hk⟩ => ?_
      cases hh.symm.trans hh''
      refine ⟨_, hh', ?_⟩
      rcases List.mem_append.mp hk with hk | hk
      · simp [hk]
      · exact List.mem_append_right _ hk
  orderly := by
    rw [effects_push]
    exact h.orderly.push nofun

theorem Marks.inflight_eq_nil (h : Marks sha256 s marks confirmed) (hn : ¬s.context.Runs id) :
    s.inflight id = [] := by
  unfold Node.inflight
  cases ht : s.tasks.lookup id
  case none => rfl
  case some task =>
    have ha : task.await.hasMarks = false :=
      Await.not_hasMarks (Bool.eq_false_iff.mpr fun ha => hn (h.live ht ha))
    exact (Task.inflight_of_not_hasMarks ha).trans (h.settled ht ha)

-- The keys of a handoff that is taken out are unmarked behind all that was marked for it.
theorem Marks.restore (h : Marks sha256 s marks confirmed) (ha : s.context.Abandons keys context) :
    Marks sha256 ({ s with context }.restore keys) marks confirmed := by
  have hk {key id} (hm : (key, id) ∈ after { p | p ∈ marks } s.effects) :
      id ∈ confirmed ∨ key ∈ keys := by
    refine (h.held hm).imp_right fun ⟨keys', hh, hk⟩ => ?_
    rw [h.inflight_eq_nil (ha.vacant id), List.append_nil] at hk
    exact ha.keys id keys' hh ▸ hk
  unfold Node.restore
  split
  case isTrue hn =>
    rw [List.isEmpty_iff] at hn
    subst hn
    exact {
      cache   := h.cache
      live    := fun ht hl => absurd (h.live ht hl) (ha.vacant _)
      settled := h.settled
      held    := fun hm => .inl ((hk hm).resolve_right List.not_mem_nil)
      orderly := h.orderly
    }
  case isFalse =>
    exact {
      cache   := h.cache
      live    := fun ht hl => absurd (h.live ht hl) (ha.vacant _)
      settled := h.settled
      held    := fun hm => by
        rw [after_push] at hm
        exact .inl ((hk hm.left).resolve_right hm.right)
      orderly := by
        rw [effects_push]
        exact h.orderly.push nofun
    }

-- While a transfer is running, all the marks that are undecided are held by its handoff.
theorem Marks.of_runs (h : Marks sha256 s marks confirmed) (hr : s.context.Runs id)
    (hh : s.context.held = some (id, keys)) {key : Key} {id' : Nat}
    (hm : (key, id') ∈ after { p | p ∈ marks } s.effects) :
    id' ∈ confirmed ∨ id' = id ∧ key ∈ keys ++ s.inflight id := by
  refine (h.held hm).imp_right fun ⟨keys', hh', hk⟩ => ?_
  cases id_of_runs hr hh'
  cases hh.symm.trans hh'
  exact ⟨rfl, hk⟩

theorem Marks.eq_of_live (h : Marks sha256 s marks confirmed) (hr : s.context.Runs id) {id' : Nat}
    (ht : s.tasks.lookup id' = some task) (hl : task.await.isLive) : id' = id :=
  have ⟨_, hh⟩ := held_of_runs (h.live ht hl)
  id_of_runs hr hh

-- The task of a running transfer goes on, and sends a command or none.
theorem Marks.advance (h : Marks sha256 s marks confirmed) (hr : s.context.Runs id)
    {queue : List CacheRequest} {reported : List Nat}
    (hq : queue = s.queue ∨ ∃ request, queue = s.queue ++ [request] ∧
      request.command.effect ≠ .sweep)
    (hh : context.held = some (id, keys)) (hl : task.await.isLive → context.Runs id)
    (hs : task.await.hasMarks = false → task.markedThisRun = [])
    (hm : ∀ {key id'}, (key, id') ∈ after { p | p ∈ marks } (queue.map (·.command.effect)) →
      id' ∈ confirmed ∨ id' = id ∧ key ∈ keys ++ task.inflight) :
    Marks sha256 { s with context, queue, reported, tasks := s.tasks.insert id task } marks
      confirmed where
  cache   := h.cache
  live {id' task'} ht ha := by
    rcases AList.lookup_insert_eq_some.mp ht with ⟨rfl, rfl⟩ | ⟨hi, ht⟩
    · exact hl ha
    · exact absurd (h.eq_of_live hr ht ha) hi
  settled {id' task'} ht ha := by
    rcases AList.lookup_insert_eq_some.mp ht with ⟨rfl, rfl⟩ | ⟨hi, ht⟩
    · exact hs ha
    · exact h.settled ht ha
  held {key id'} hm' := by
    refine (hm hm').imp_right fun ⟨he, hk⟩ => ?_
    subst he
    exact ⟨keys, hh, by rwa [inflight_of_lookup (AList.lookup_insert _)]⟩
  orderly := by
    rcases hq with rfl | ⟨request, rfl, he⟩
    · exact h.orderly
    · change Orderly _ _ (List.map _ _)
      rw [List.map_append]
      exact h.orderly.push fun he' => absurd he' he

-- A task that has nothing marked may drop its guard.
theorem Marks.release (h : Marks sha256 s marks confirmed) (hr : s.context.Runs id)
    (hh : s.context.held = some (id, keys)) (hk : keys ++ s.inflight id = []) :
    Marks sha256 { s with context, tasks := s.tasks.erase id } marks confirmed where
  cache   := h.cache
  live {id' task'} ht ha := by
    rw [AList.lookup_erase_eq_ite] at ht
    have ⟨hn, ht⟩ := Option.ite_none_left_eq_some.mp ht
    exact absurd (h.eq_of_live hr ht ha) hn
  settled {id' task'} ht ha := by
    exact h.settled (AList.lookup_erase_eq_some.mp ht).right ha
  held    := fun hm => .inl ((h.of_runs hr hh hm).resolve_right fun ⟨_, hk'⟩ => by simp [hk] at hk')
  orderly := h.orderly

-- A task goes on without a change of what it has marked.
theorem Marks.insert (h : Marks sha256 s marks confirmed) (ht : s.tasks.lookup id = some task)
    {reported : List Nat} (hl : task'.await.isLive → task.await.isLive)
    (hs : task'.await.hasMarks = false → task.await.hasMarks = false)
    (hm : task'.markedThisRun = task.markedThisRun) (hi : task'.inflight = task.inflight) :
    Marks sha256 { s with reported, tasks := s.tasks.insert id task' } marks confirmed where
  cache   := h.cache
  live {id' task''} ht' ha' := by
    by_cases he : id' = id
    · subst he
      rw [AList.lookup_insert] at ht'
      cases ht'
      exact h.live ht (hl ha')
    · exact h.live (AList.lookup_insert_ne he ▸ ht') ha'
  settled {id' task''} ht' ha' := by
    by_cases he : id' = id
    · subst he
      rw [AList.lookup_insert] at ht'
      cases ht'
      exact hm.trans (h.settled ht (hs ha'))
    · exact h.settled (AList.lookup_insert_ne he ▸ ht') ha'
  held {key id'} hm' := by
    refine (h.held hm').imp_right fun ⟨keys, hh, hk⟩ => ⟨keys, hh, ?_⟩
    by_cases he : id' = id
    · subst he
      rwa [inflight_of_lookup (AList.lookup_insert _), hi, ← inflight_of_lookup ht]
    · rwa [Node.inflight, AList.lookup_insert_ne he]
  orderly := h.orderly

-- A task that has stamped its handoff has no part in the marks any more.
theorem Marks.finish (h : Marks sha256 s marks confirmed) (ht : s.tasks.lookup id = some task)
    (ha : task.await.hasMarks = false) :
    Marks sha256 { s with tasks := s.tasks.erase id } marks confirmed where
  cache   := h.cache
  live {id' task'} ht' ha' := by
    exact h.live (AList.lookup_erase_eq_some.mp ht').right ha'
  settled {id' task'} ht' ha' := by
    exact h.settled (AList.lookup_erase_eq_some.mp ht').right ha'
  held {key id'} hm := by
    refine (h.held hm).imp_right fun ⟨keys, hh, hk⟩ => ⟨keys, hh, ?_⟩
    by_cases he : id' = id
    · subst he
      have hn : s.inflight id' = [] := by
        rw [inflight_of_lookup ht, Task.inflight_of_not_hasMarks ha, h.settled ht ha]
      rw [hn, List.append_nil] at hk
      exact List.mem_append_left _ hk
    · rwa [Node.inflight, AList.lookup_erase_ne he]
  orderly := h.orderly

theorem Marks.rollBack (h : Marks sha256 s marks confirmed) (hr : s.context.Runs id)
    (hi : s.inflight id = task.markedThisRun) : Marks sha256 (s.rollBack now id task) marks confirmed := by
  have ⟨keys, hh⟩ := held_of_runs hr
  have ⟨context, he, hf, hh'⟩ := MigrationGuard.takeJoinMarks_of_held hh
  have hl : s.context.Leaves context := by
    have hl : s.context.Leaves (MigrationGuard.takeJoinMarks ⟨id⟩ s.context).2 :=
      leaves.takeJoinMarks
    rwa [he] at hl
  unfold Node.rollBack
  rw [he]
  dsimp only
  split
  case isTrue hn =>
    rw [List.isEmpty_iff, List.append_eq_nil_iff] at hn
    exact h.release hr hh (by simp [hi, hn])
  case isFalse =>
    refine h.advance hr (.inr ⟨_, rfl, nofun⟩) hh' (fun _ => hl.runs hr) (fun _ => rfl) fun hm => ?_
    simp only [Node.push, List.map_append, after_append] at hm
    refine (h.of_runs hr hh hm.left).imp_right fun ⟨_, hk⟩ => absurd ?_ hm.right
    rw [hi, List.mem_append] at hk
    exact List.mem_append.mpr hk.symm

theorem Marks.segment (h : Marks sha256 s marks confirmed) (hr : s.context.Runs id)
    (hi : s.inflight id = task.markedThisRun) (hs : Segment s now id task outcome s') :
    Marks sha256 s' marks confirmed := by
  have ⟨keys, hh⟩ := held_of_runs hr
  cases hs with
  | @wait task' context await hc _ hcalm hl ha hn hf =>
    refine h.advance hr (.inl rfl) (hcalm.held_eq.trans hh) (fun _ => hl.runs hr)
      (fun hs => absurd ha (by simp [hs])) fun hm => ?_
    rw [Task.inflight_of_not_mark (Await.ne_mark hn)]
    exact hc.markedThisRun ▸ hi ▸ h.of_runs hr hh hm
  | @ask task' context key hc _ hcalm hl =>
    refine h.advance hr (.inr ⟨_, rfl, nofun⟩) (hcalm.held_eq.trans hh) (fun _ => hl.runs hr)
      nofun fun hm => ?_
    simp only [Node.push, List.map_append, after_append] at hm
    exact hc.markedThisRun ▸ hi ▸ h.of_runs hr hh hm
  | @rollBack task' hc _ => exact h.rollBack hr (hc.markedThisRun ▸ hi)
  | @flip task' scopes hc _ hflag =>
    have hf : s.context.Leaves (s.flipped task) := .of_slot .refl rfl
    have hl := hf.trans leaves.takePendingClears
    have hh' : (s.flipped task).takePendingClears.2.held = some (id, keys) :=
      NodeContext.calm.takePendingClears.held_eq.trans hh
    refine h.advance hr (.inl rfl) hh' (fun _ => hl.runs hr) nofun fun hm => ?_
    exact hc.markedThisRun ▸ hi ▸ h.of_runs hr hh hm
  | @replay scopes scopes' pre ha =>
    refine h.advance hr (.inl rfl) hh (fun _ => hr) nofun fun hm => ?_
    exact hi ▸ h.of_runs hr hh hm
  | @stamp task' context await n pre reported hc hcon ha hrep =>
    have hh₀ : context.held = some (id, keys) := by
      rcases hcon with ⟨rfl, _⟩ | ⟨rfl, _⟩
      · exact hh
      · exact NodeContext.calm.takePendingClears.held_eq.trans hh
    have hh' : (MigrationGuard.completed context now n task.markedThisRun
        pre).takePendingClears.2.held = some (id, keys ++ task.markedThisRun) :=
      NodeContext.calm.takePendingClears.held_eq.trans (MigrationGuard.held_completed hh₀)
    refine h.advance hr (.inl rfl) hh' (fun ha' => absurd ha' (by simp [ha])) (fun _ => rfl)
      fun hm => ?_
    refine (h.of_runs hr hh hm).imp_right fun ⟨he, hk⟩ => ⟨he, ?_⟩
    rw [hi] at hk
    exact List.mem_append_left _ hk

theorem Marks.resume (h : Marks sha256 s marks confirmed) (ht : s.tasks.lookup id = some task)
    (hd : task.await = .unmark → ∀ active, s.context.activeMigration = some active →
      active.markedKeys = [])
    (hr : Resumes s now id task outcome s') : Marks sha256 s' marks confirmed := by
  cases hr with
  | @segment task' s' hl _ _ ha hs =>
    exact h.segment (h.live ht hl) ((inflight_of_lookup ht).trans ha.markedThisRun.symm) hs
  | @mark task' key hl hn hf hc =>
    have hr := h.live ht hl
    have ⟨keys, hh⟩ := held_of_runs hr
    refine h.advance hr (.inr ⟨_, rfl, nofun⟩) hh (fun _ => hr) nofun fun hm => ?_
    simp only [Node.push, List.map_append, after_append] at hm
    rcases hm with he | hm
    · cases he
      exact .inr ⟨rfl, by simp [Task.inflight]⟩
    · refine (h.of_runs hr hh hm).imp_right fun ⟨he, hk⟩ => ⟨he, ?_⟩
      rw [inflight_of_lookup ht, Task.inflight_of_not_mark (Await.ne_mark hn)] at hk
      change _ ∈ keys ++ (task'.markedThisRun ++ [key])
      rw [hc.markedThisRun, ← List.append_assoc]
      exact List.mem_append_left _ hk
  | drop ha hq =>
    have hr := h.live ht (ha ▸ rfl)
    have ⟨keys, hh⟩ := held_of_runs hr
    have ⟨active, hs, _, _, hk⟩ := held_eq_some.mp hh
    have hn : task.await.hasMarks = false := ha ▸ rfl
    refine h.release hr hh ?_
    rw [← hk, hd ha active hs, inflight_of_lookup ht, Task.inflight_of_not_hasMarks hn,
      h.settled ht hn]
    rfl
  | @report await reported ha ha' hrep =>
    have hn := Await.not_hasMarks ha
    refine h.insert ht (fun hl => absurd hl (by simp [ha'])) (fun _ => hn) rfl ?_
    rw [Task.inflight_of_not_hasMarks (Await.not_hasMarks ha'), Task.inflight_of_not_hasMarks hn]
  | finish ha => exact h.finish ht (Await.not_hasMarks ha)

@[simp]
theorem answer_context : (s.answer sender reply).context = s.context := by
  unfold answer
  split
  · rfl
  · split <;> rfl

@[simp]
theorem answer_cache : (s.answer sender reply).cache = s.cache := by
  unfold answer
  split
  · rfl
  · split <;> rfl

theorem Marks.answer (h : Marks sha256 s marks confirmed) :
    Marks sha256 (s.answer sender reply) marks confirmed := by
  unfold Node.answer
  split
  case h_1 => exact h
  case h_2 id =>
    split
    case h_1         => exact h
    case h_2 task ht => exact h.insert ht (fun hl => hl) (fun hs => hs) rfl rfl

-- The marks that are left when a command is executed.
theorem subset_apply_of_exec (marks : List (Key × Nat)) {cache cache' : Cache} (h : cache.WF sha256)
    (he : command.exec sha256 cache now = some (reply, cache')) :
    { p | p ∈ (command.marks ++ marks).filter fun p => cache'.isMarked p.1 } ⊆
      command.effect.apply { p | p ∈ marks } := by
  rintro ⟨key, id⟩ hm
  have ⟨hm, hk⟩ := List.mem_filter.mp hm
  cases command with
  | call op                   => exact hm
  | peekLiveEntry key'        => exact hm
  | markMigrated key' handoff => exact List.mem_cons.mp hm
  | unmarkMigratedMany keys   =>
    refine ⟨hm, fun hk' => ?_⟩
    cases he
    exact Store.not_mem_marked_of_unmarkMigratedMany h hk' hk
  | sweep marked owned order =>
    cases marked <;> exact hm

-- The actor processes the first request of the queue.
theorem Marks.pop (h : Marks sha256 s marks confirmed) {request : CacheRequest}
    {queue : List CacheRequest} {cache : Cache}
    (hq : s.queue = request :: queue)
    (he : request.command.exec sha256 s.cache now = some (reply, cache)) :
    Marks sha256 { s with queue, cache }
      ((request.command.marks ++ marks).filter fun p => cache.isMarked p.1) confirmed := by
  have hsub := subset_apply_of_exec marks h.cache he
  have hq : s.effects = request.command.effect :: queue.map (·.command.effect) := by
    simp [effects, hq]
  exact {
    cache   := Command.wf_of_exec h.cache he
    live    := h.live
    settled := h.settled
    held    := fun hm => h.held (by
      rw [hq, after_cons]
      exact after_mono hsub hm)
    orderly := by
      have ho := h.orderly
      rw [hq] at ho
      exact ho.pop.mono hsub subset_rfl
  }

-- Only the queue grows.
theorem restore_eq (s : Node) (keys : List Key) :
    s.restore keys = { s with queue := (s.restore keys).queue } := by
  unfold restore
  split <;> rfl

@[simp]
theorem restore_context (keys : List Key) : (s.restore keys).context = s.context := by
  unfold restore
  split <;> rfl

@[simp]
theorem restore_cache (keys : List Key) : (s.restore keys).cache = s.cache := by
  unfold restore
  split <;> rfl

@[simp]
theorem restore_tasks (keys : List Key) : (s.restore keys).tasks = s.tasks := by
  unfold restore
  split <;> rfl

-- The slot is taken for a new handoff. All the marks from before it are decided, or taken back.
theorem Marks.reserve (h : Marks sha256 s marks confirmed)
    (hv : ∀ flag, ¬s.context.Runs flag) (hr : context.Runs id)
    (hk : ∀ id' keys', s.context.held = some (id', keys') → keys' = keys ∨ id' ∈ confirmed)
    (hm : task.markedThisRun = []) :
    Marks sha256 { { s with context }.restore keys with
      tasks := ({ s with context }.restore keys).tasks.insert id task } marks confirmed := by
  have hd {key id'} (hm : (key, id') ∈ after { p | p ∈ marks }
      ({ s with context }.restore keys).effects) : id' ∈ confirmed := by
    unfold Node.restore at hm
    split at hm
    case isTrue hn =>
      refine (h.held hm).elim (fun hd => hd) fun ⟨keys', hh, hk'⟩ => ?_
      rw [h.inflight_eq_nil (hv id'), List.append_nil] at hk'
      refine (hk id' keys' hh).resolve_left fun he => ?_
      rw [he, List.isEmpty_iff.mp hn] at hk'
      contradiction
    case isFalse =>
      rw [after_push] at hm
      refine (h.held hm.left).elim (fun hd => hd) fun ⟨keys', hh, hk'⟩ => ?_
      rw [h.inflight_eq_nil (hv id'), List.append_nil] at hk'
      exact (hk id' keys' hh).resolve_left fun he => hm.right (he ▸ hk')
  have ho : Orderly { id | id ∈ confirmed } { p | p ∈ marks }
      ({ s with context }.restore keys).effects := by
    unfold Node.restore
    split
    · exact h.orderly
    · rw [effects_push]
      exact h.orderly.push nofun
  rw [restore_tasks]
  exact {
    cache   := by rw [restore_cache]; exact h.cache
    live    := fun {id' task'} ht ha => by
      rw [restore_context]
      by_cases hi : id' = id
      · exact hi ▸ hr
      · rw [AList.lookup_insert_ne hi] at ht
        exact absurd (h.live ht ha) (hv id')
    settled := fun {id' task'} ht ha => by
      rcases AList.lookup_insert_eq_some.mp ht with ⟨rfl, rfl⟩ | ⟨hi, ht⟩
      · exact hm
      · exact h.settled ht ha
    held    := fun hm => .inl (hd hm)
    orderly := ho
  }

end Node

namespace Traced

open Node

variable {sha256 : Bytes → Vector UInt8 32} {s s' : Traced} {now : Instant} {event : Node.Event}

theorem marksAfter_of_ne {cache : Cache} (h : event ≠ .actor) :
    s.marksAfter event cache = s.marks := by
  unfold marksAfter
  split
  · contradiction
  · rfl

theorem marks_of_exec (h : Marks sha256 s.node s.marks s.confirmed) (hd : s.node.dropsNoMarks event)
    (he : s.exec sha256 now event = some s') : Marks sha256 s'.node s'.marks s'.confirmed := by
  obtain ⟨node, hn, ⟨⟩⟩ := Option.bind_eq_some_iff.mp he
  clear he
  have hc {id} (he : s.node.confirms event = some id) :
      id ∈ (s.node.confirms event).toList ++ s.confirmed := by simp [he]
  replace h := h.confirm (List.subset_append_right (s.node.confirms event).toList _)
  cases effect_of_exec hn with
  | calm hne hcalm hl =>
    rw [marksAfter_of_ne hne]
    exact h.calm (hcalm fun id => hc) hl
  | reserve hr hv hm _ _ _ _ =>
    exact h.reserve hv.vacant hv.runs (fun id' keys' hh => (hr.keys id' keys' hh).imp_right hc) hm
  | @lost id task ht ha =>
    have hr := h.live ht (ha ▸ rfl)
    have ⟨keys, hh⟩ := NodeContext.held_of_runs hr
    have ⟨active, hs, _, _, hk⟩ := NodeContext.held_eq_some.mp hh
    have hm : task.await.hasMarks = false := ha ▸ rfl
    simp only [dropsNoMarks, hs, Option.all_some, List.isEmpty_iff] at hd
    refine h.release hr hh ?_
    rw [← hk, hd, inflight_of_lookup ht, Task.inflight_of_not_hasMarks hm, h.settled ht hm]
    rfl
  | @start id task keys ht ha =>
    refine h.insert ht (fun _ => ha ▸ rfl) (fun _ => ha ▸ rfl) rfl ?_
    simp [Task.inflight, ha]
  | @resume id task outcome _ ht hr =>
    refine h.resume ht (fun ha active hs => ?_) hr
    simpa [dropsNoMarks, ht, ha, hs] using hd
  | @actor request queue reply cache hq hx =>
    simp only [marksAfter, hq, answer_cache]
    exact (h.pop hq hx).answer
  | request => exact h.push (.inl rfl)
  | @sweep owned order marked hm =>
    cases marked
    case false => exact h.push (.inl rfl)
    case true  => exact h.push (.inr ⟨rfl, hm rfl⟩)
  | join hf hl hh hh' => exact h.join hl hh hh'
  | abandon hne ha _ =>
    rw [marksAfter_of_ne hne]
    exact h.restore ha

end Traced
end Nanocached
