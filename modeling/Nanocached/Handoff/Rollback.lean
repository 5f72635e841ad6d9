import Nanocached.Handoff.Flip

namespace Nanocached

-- The task still awaits an answer of the cache actor.
def Task.owed (task : Task) : Nat :=
  if task.await.asks && task.reply.isNone then 1 else 0

theorem Await.not_asks {await : Await} (h : await.isLive = false) : await.asks = false := by
  revert h
  fun_cases Await.isLive await <;> simp [Await.asks]

namespace Node

open NodeContext MarkCommand

variable {sha256 : Bytes → Vector UInt8 32} {s s' : Node} {marks marks' : List (Key × Nat)}
         {confirmed : List Nat} {now : Instant} {id : Nat} {task task' : Task} {event : Event}
         {outcome : Outcome} {context : NodeContext} {queue : List CacheRequest}
         {request : CacheRequest} {reported : List Nat}

def pending (s : Node) (id : Nat) : Nat :=
  s.queue.countP fun request => request.task = some id

def owed (s : Node) (id : Nat) : Nat :=
  (s.tasks.lookup id).elim 0 (·.owed)

-- The first request of the task in the queue is the one to unmark its keys, and no keys are
-- unmarked behind it.
def Unmarks (s : Node) (id : Nat) : Prop :=
  ∃ q₁ request q₂, s.queue = q₁ ++ request :: q₂ ∧ request.task = some id ∧
    (∀ r ∈ q₁, r.task ≠ some id) ∧ ∀ keys, .unmark keys ∉ q₂.map (·.command.effect)

-- What holds of the queue. While a handoff is not stamped, only its own task unmarks what was
-- marked for it.
structure Requests (s : Node) (marks : List (Key × Nat)) : Prop where
  marked : ∀ {key id}, (key, id) ∈ marks → id < s.context.flags.length
  queued : ∀ {key id}, .mark key id ∈ s.effects → id < s.context.flags.length
  asked  : ∀ id, s.pending id ≤ s.owed id
  spared : ∀ {id task}, s.tasks.lookup id = some task → task.await.isLive →
             (task.await = .unmark → task.reply.isSome) → Spares id { p | p ∈ marks } s.effects
  unmark : ∀ {id task}, s.tasks.lookup id = some task → task.await = .unmark → task.reply = none →
             s.Unmarks id

theorem owed_of_lookup (h : s.tasks.lookup id = some task) : s.owed id = task.owed := by
  simp [owed, h]

theorem Unmarks.push (h : s.Unmarks id) {command : Command} {sender : Option Nat}
    (hc : ∀ keys, command.effect ≠ .unmark keys) : (s.push command sender).Unmarks id := by
  have ⟨q₁, request, q₂, hq, ht, hn, hu⟩ := h
  refine ⟨q₁, request, q₂ ++ [⟨command, sender⟩], ?_, ht, hn, fun keys hm => ?_⟩
  · simp [Node.push, hq]
  · simp only [List.map_append, List.mem_append, List.map_cons, List.map_nil,
      List.mem_singleton] at hm
    exact hm.elim (hu keys) fun he => hc keys he.symm

@[simp]
theorem answer_queue {sender : Option Nat} {reply : Reply} :
    (s.answer sender reply).queue = s.queue := by
  unfold answer
  split
  · rfl
  · split <;> rfl

theorem lookup_answer_ne {sender : Option Nat} {reply : Reply} (h : sender ≠ some id) :
    (s.answer sender reply).tasks.lookup id = s.tasks.lookup id := by
  unfold answer
  split
  case h_1 => rfl
  case h_2 id' =>
    split
    case h_1 => rfl
    case h_2 => exact AList.lookup_insert_ne fun he => h (he ▸ rfl)

theorem owed_le_one (s : Node) (id : Nat) : s.owed id ≤ 1 := by
  unfold owed
  cases s.tasks.lookup id
  case none => exact Nat.zero_le _
  case some task =>
    rw [Option.elim_some, Task.owed]
    split <;> omega

theorem effect_of_mem_marks {command : Command} {key : Key} (h : (key, id) ∈ command.marks) :
    command.effect = .mark key id := by
  cases command with
  | markMigrated key' handoff =>
    cases List.mem_singleton.mp h
    rfl
  | _ => contradiction

theorem mark_mem_of_restore {keys : List Key} {key : Key}
    (h : .mark key id ∈ ({ s with context }.restore keys).effects) : .mark key id ∈ s.effects := by
  unfold restore at h
  split at h
  · exact h
  · rw [effects_push] at h
    exact (List.mem_append.mp h).resolve_right (by simp [Command.effect])

theorem pending_restore {keys : List Key} :
    ({ s with context }.restore keys).pending id = s.pending id := by
  unfold restore
  split
  · rfl
  · simp [pending, push]

namespace Requests

theorem frame (h : s.Requests marks) (hn : s.context.flags.length ≤ context.flags.length)
    {cache : Cache} : Requests { s with context, cache, reported } marks where
  marked hm := (h.marked hm).trans_le hn
  queued hm := (h.queued hm).trans_le hn
  asked     := h.asked
  spared    := h.spared
  unmark    := h.unmark

-- Someone else sends a command that takes no marks away.
theorem push (h : s.Requests marks) {command : Command}
    (hc : ∀ keys, command.effect ≠ .unmark keys)
    (hm : ∀ key id, command.effect = .mark key id → id < s.context.flags.length) :
    (s.push command none).Requests marks where
  marked     := h.marked
  queued hm' := by
    rw [effects_push] at hm'
    rcases List.mem_append.mp hm' with hm' | hm'
    · exact h.queued hm'
    · exact hm _ _ (List.mem_singleton.mp hm').symm
  asked id         := by simpa [pending, owed, Node.push] using h.asked id
  spared ht hl hr  := by
    rw [effects_push]
    exact (h.spared ht hl hr).push hc
  unmark ht ha hr  := (h.unmark ht ha hr).push hc

theorem pending_eq_zero (h : s.Requests marks) (ht : s.tasks.lookup id = some task)
    (ha : task.await.asks → task.reply.isSome) : s.pending id = 0 := by
  have hp := h.asked id
  rw [owed_of_lookup ht] at hp
  have ho : task.owed = 0 := by
    unfold Task.owed
    split
    case isTrue hc =>
      rw [Bool.and_eq_true] at hc
      simpa [Option.isNone_iff_eq_none.mp hc.right] using ha hc.left
    case isFalse => rfl
  omega

-- A task goes on and asks the actor for nothing.
theorem wait (h : s.Requests marks) (ht : s.tasks.lookup id = some task)
    (ha : task.await.asks → task.reply.isSome)
    (hn : s.context.flags.length ≤ context.flags.length)
    (hl : task'.await.isLive → task.await.isLive) (ha' : task'.await.asks = false) :
    Requests { s with context, reported, tasks := s.tasks.insert id task' } marks where
  marked hm := (h.marked hm).trans_le hn
  queued hm := (h.queued hm).trans_le hn
  asked id' := by
    by_cases hi : id' = id
    · subst hi
      exact (h.pending_eq_zero ht ha).le.trans (Nat.zero_le _)
    · rw [owed, AList.lookup_insert_ne hi]
      exact h.asked id'
  spared {id' _} ht' hl' hr := by
    rcases AList.lookup_insert_eq_some.mp ht' with ⟨rfl, rfl⟩ | ⟨hi, ht'⟩
    · exact h.spared ht (hl hl') fun hu => ha (hu ▸ rfl)
    · exact h.spared ht' hl' hr
  unmark {id' _} ht' hu hr := by
    rcases AList.lookup_insert_eq_some.mp ht' with ⟨rfl, rfl⟩ | ⟨hi, ht'⟩
    · simp [hu, Await.asks] at ha'
    · exact h.unmark ht' hu hr

-- The task of a running transfer sends a request and awaits the answer.
theorem ask (h : s.Requests marks) (hm : Marks sha256 s marks confirmed)
    (ht : s.tasks.lookup id = some task) (hl : task.await.isLive)
    (ha : task.await.asks → task.reply.isSome)
    (hn : context.flags.length = s.context.flags.length) {command : Command}
    (hc : ∀ key id, command.effect = .mark key id → id < context.flags.length)
    (ha' : task'.owed = 1)
    (hu : task'.await ≠ .unmark → ∀ keys, command.effect ≠ .unmark keys) :
    Requests { s with context, queue := s.queue ++ [⟨command, some id⟩]
                      tasks := s.tasks.insert id task' } marks := by
  have hz := h.pending_eq_zero ht ha
  have hq {c} (hm : c ∈ effects { s with context, queue := s.queue ++ [⟨command, some id⟩] }) :
      c ∈ s.effects ∨ c = command.effect := by
    simpa [effects] using hm
  have hother {id' task''} (hi : id' ≠ id) (ht' : s.tasks.lookup id' = some task'') :
      task''.await.isLive = false :=
    Bool.eq_false_iff.mpr fun hl' => hi (hm.eq_of_live (hm.live ht hl) ht' hl')
  exact {
    marked := fun hm => hn ▸ h.marked hm
    queued := fun hm => by
      rcases hq hm with hm | he
      · exact hn ▸ h.queued hm
      · exact hc _ _ he.symm
    asked  := fun id' => by
      by_cases hi : id' = id
      · subst hi
        rw [owed, AList.lookup_insert]
        simp only [Option.elim_some, ha', pending, List.countP_append]
        rw [show s.queue.countP _ = 0 from hz, Nat.zero_add]
        exact List.countP_le_length
      · have hne : some id ≠ some id' := fun he => hi (Option.some.inj he).symm
        rw [owed, AList.lookup_insert_ne hi]
        simpa [pending, hne, owed] using h.asked id'
    spared := fun {id' _} ht' hl' hr => by
      rcases AList.lookup_insert_eq_some.mp ht' with ⟨rfl, rfl⟩ | ⟨hi, ht'⟩
      · have hu' : task'.await ≠ .unmark := fun hu' => by
          have hr := hr hu'
          simp [Task.owed, hu', Await.asks, Option.isSome_iff_ne_none.mp hr] at ha'
        rw [effects, List.map_append]
        exact (h.spared ht hl fun hu => ha (hu ▸ rfl)).push (hu hu')
      · simp [hother hi ht'] at hl'
    unmark := fun {id' _} ht' ha' hr => by
      by_cases hi : id' = id
      · subst hi
        refine ⟨s.queue, _, [], rfl, rfl, ?_, by simp⟩
        simpa [pending, List.countP_eq_zero] using hz
      · rw [AList.lookup_insert_ne hi] at ht'
        simpa [ha', Await.isLive] using hother hi ht'
  }

theorem erase (h : s.Requests marks) (hz : s.pending id = 0)
    (hn : s.context.flags.length ≤ context.flags.length) :
    Requests { s with context, tasks := s.tasks.erase id } marks where
  marked hm := (h.marked hm).trans_le hn
  queued hm := (h.queued hm).trans_le hn
  asked id' := by
    by_cases hi : id' = id
    · subst hi
      exact hz.le.trans (Nat.zero_le _)
    · rw [owed, AList.lookup_erase_ne hi]
      exact h.asked id'
  spared ht' hl hr := by
    exact h.spared (AList.lookup_erase_eq_some.mp ht').right hl hr
  unmark ht' ha hr := by
    exact h.unmark (AList.lookup_erase_eq_some.mp ht').right ha hr

theorem pop (h : s.Requests marks) (hc : s.cache.WF sha256) {reply : Reply} {cache : Cache}
    (hq : s.queue = request :: queue)
    (he : request.command.exec sha256 s.cache now = some (reply, cache)) :
    ({ s with queue, cache }.answer request.task reply).Requests
      ((request.command.marks ++ marks).filter fun p => cache.isMarked p.1) := by
  have hsub := subset_apply_of_exec marks hc he
  have hs : s.effects = request.command.effect :: queue.map (·.command.effect) := by
    simp [effects, hq]
  have hpop {id} (h : Spares id { p | p ∈ marks } s.effects) :
      Spares id { p | p ∈ (request.command.marks ++ marks).filter fun p => cache.isMarked p.1 }
        (queue.map (·.command.effect)) :=
    (hs ▸ h).pop.mono hsub
  exact {
    marked := fun {key id} hm => by
      rw [answer_context]
      rcases List.mem_append.mp (List.mem_filter.mp hm).left with hm | hm
      · have hk : .mark key id ∈ s.effects := by
          rw [hs, effect_of_mem_marks hm]
          exact .head _
        exact h.queued hk
      · exact h.marked hm
    queued := fun {key id} hm => by
      rw [effects, answer_queue] at hm
      rw [answer_context]
      have hk : .mark key id ∈ s.effects := by
        rw [hs]
        exact .tail _ hm
      exact h.queued hk
    asked  := fun id => by
      have ha := h.asked id
      simp only [pending, hq, List.countP_cons] at ha
      rw [pending, answer_queue]
      by_cases hi : request.task = some id
      · have := s.owed_le_one id
        simp only [hi, decide_true, if_true] at ha
        change List.countP _ queue ≤ _
        omega
      · rw [owed, lookup_answer_ne hi]
        simpa [hi, owed] using ha
    spared := fun {id task'} ht' hl hr => by
      rw [effects, answer_queue]
      obtain ⟨task, ht, ho⟩ := lookup_answer ht'
      rcases ho with ⟨rfl, _⟩ | ⟨rfl, hi⟩
      · exact hpop (h.spared ht hl hr)
      · by_cases hu : task.await = .unmark → task.reply.isSome
        case pos => exact hpop (h.spared ht hl hu)
        case neg =>
          simp only [Classical.not_imp, Option.isSome_iff_ne_none, ne_eq, not_not] at hu
          obtain ⟨q₁, r, q₂, hq', _, hn, hu⟩ := h.unmark ht hu.left hu.right
          cases q₁ with
          | nil =>
            cases hq.symm.trans hq'
            exact .of_no_unmark hu
          | cons =>
            cases hq.symm.trans hq'
            exact absurd hi (hn _ (.head _))
    unmark := fun {id task'} ht' ha hr => by
      obtain ⟨task, ht, ho⟩ := lookup_answer ht'
      rcases ho with ⟨rfl, hi⟩ | ⟨rfl, _⟩
      · obtain ⟨q₁, r, q₂, hq', hr, hn, hu⟩ := h.unmark ht ha hr
        cases q₁ with
        | nil =>
          cases hq.symm.trans hq'
          exact absurd hr hi
        | cons =>
          cases hq.symm.trans hq'
          exact ⟨_, r, q₂, by simp, hr, fun r hm => hn r (.tail _ hm), hu⟩
      · contradiction
  }

-- Nothing is transferred when the keys of another handoff are restored.
theorem restore (h : s.Requests marks) (hm : Marks sha256 s marks confirmed)
    (hv : ∀ flag, ¬s.context.Runs flag) (hn : s.context.flags.length ≤ context.flags.length)
    (keys : List Key) : ({ s with context }.restore keys).Requests marks where
  marked hk := by
    rw [restore_context]
    exact (h.marked hk).trans_le hn
  queued hk := by
    rw [restore_context]
    exact (h.queued (mark_mem_of_restore hk)).trans_le hn
  asked id := by
    rw [pending_restore, owed, restore_tasks]
    exact h.asked id
  spared ht hl := by
    rw [restore_tasks] at ht
    exact absurd (hm.live ht hl) (hv _)
  unmark ht ha := by
    rw [restore_tasks] at ht
    exact absurd (hm.live ht (ha ▸ rfl)) (hv _)

theorem reserve (h : s.Requests marks) (hm : Marks sha256 s marks confirmed) {migrate : Migrate}
    (hs : s.tasks.lookup s.context.flags.length = none)
    {guard : MigrationGuard} {keys : List Key} (hr : guard.Reserves s.context migrate keys context)
    (hv : guard.Reserved s.context context) (ha : task.await = .accepted) :
    Requests { { s with context }.restore keys with
      tasks := ({ s with context }.restore keys).tasks.insert guard.abortRequested task } marks := by
  have hn : s.context.flags.length ≤ context.flags.length := by simp [hr.length]
  have h' := h.restore hm hv.vacant hn keys
  have hother {id' task'} (ht : s.tasks.lookup id' = some task') : task'.await.isLive = false :=
    Bool.eq_false_iff.mpr fun hl => hv.vacant _ (hm.live ht hl)
  exact {
    marked := h'.marked
    queued := h'.queued
    asked  := fun id => by
      by_cases hi : id = guard.abortRequested
      · have hz := h.asked id
        rw [hi, hr.guard, owed, hs] at hz
        rw [hi, hr.guard]
        exact (pending_restore.le.trans hz).trans (Nat.zero_le _)
      · rw [owed, AList.lookup_insert_ne hi]
        exact h'.asked id
    spared := fun {id _} ht hl _ => by
      by_cases hi : id = guard.abortRequested
      · refine .of_not_mem (fun key hm => ?_) fun key hm => ?_
        · exact absurd (h.marked hm) (by simp [hi, hr.guard])
        · exact absurd (h.queued (mark_mem_of_restore hm)) (by simp [hi, hr.guard])
      · rw [AList.lookup_insert_ne hi, restore_tasks] at ht
        simp [hother ht] at hl
    unmark := fun {id _} ht hu _ => by
      by_cases hi : id = guard.abortRequested
      · rw [hi, AList.lookup_insert] at ht
        cases ht
        simp [ha] at hu
      · rw [AList.lookup_insert_ne hi, restore_tasks] at ht
        simpa [hu, Await.isLive] using hother ht
  }

theorem rollBack (h : s.Requests marks) (hm : Marks sha256 s marks confirmed)
    (ht : s.tasks.lookup id = some task) (hl : task.await.isLive)
    (ha : task.await.asks → task.reply.isSome) : (s.rollBack now id task').Requests marks := by
  have ⟨context, hf, _, he⟩ := rollBack_cases (hm.live ht hl) now task'
  rcases he with he | ⟨keys, he⟩
  · rw [he]
    exact h.erase (h.pending_eq_zero ht ha) (hf.trans frame_drop).length.ge
  · rw [he]
    exact h.ask hm ht hl ha hf.length nofun rfl (fun hn => absurd rfl hn)

theorem segment (h : s.Requests marks) (hm : Marks sha256 s marks confirmed)
    (ht : s.tasks.lookup id = some task) (hl : task.await.isLive)
    (ha : task.await.asks → task.reply.isSome) (hs : Segment s now id task' outcome s') :
    s'.Requests marks := by
  have hf : (s.flipped task').Calm ∅ (s.flipped task').takePendingClears.2 := calm.takePendingClears
  cases hs with
  | wait _ _ hc _ _ hn => exact h.wait ht ha hc.length.ge (fun _ => hl) (by simpa using hn)
  | ask _ _ hc _       => exact h.ask hm ht hl ha hc.length nofun rfl nofun
  | rollBack           => exact h.rollBack hm ht hl ha
  | flip               => exact h.wait ht ha hf.length.ge (fun _ => hl) rfl
  | replay             => exact h.wait ht ha le_rfl (fun _ => hl) rfl
  | @stamp _ context await n pre reported _ hcon hl' =>
    have hc : (MigrationGuard.completed context now n task'.markedThisRun pre).Calm ∅ _ :=
      calm.takePendingClears
    have hn : context.flags.length = s.context.flags.length := by
      rcases hcon with ⟨rfl, _⟩ | ⟨rfl, _⟩
      · rfl
      · exact hf.length
    exact h.wait ht ha (hc.length.trans hn).ge (fun _ => hl) (Await.not_asks hl')

theorem resume (h : s.Requests marks) (hm : Marks sha256 s marks confirmed) (hr : s.Rings)
    (ht : s.tasks.lookup id = some task) (hs : Resumes s now id task outcome s') :
    s'.Requests marks := by
  cases hs with
  | segment hl _ ha _ hs => exact h.segment hm ht hl ha hs
  | mark hl hn _ _ =>
    refine h.ask hm ht hl (fun ha => by simp [ha] at hn) rfl ?_ rfl nofun
    rintro _ _ ⟨⟩
    exact hr.fresh ht
  | drop ha hq => exact h.erase (h.pending_eq_zero ht fun _ => hq) frame_drop.length.ge
  | report hl hl' _ =>
    refine h.wait ht (fun ha => ?_) le_rfl (fun hl'' => ?_) (Await.not_asks hl')
    · simp [Await.not_asks hl] at ha
    · simp [hl'] at hl''
  | finish hl =>
    refine h.erase (h.pending_eq_zero ht fun ha => ?_) le_rfl
    simp [Await.not_asks hl] at ha

end Requests

theorem remnant_takeSlot {active : ActiveMigration}
    (h : (context.takeSlotKeepingLingering now).2.activeMigration = some active) :
    active.remnant := by
  unfold takeSlotKeepingLingering keepLingering at h
  split at h
  case h_1 hn => simp [hn] at h
  case h_2 =>
    dsimp only at h
    split at h
    · simp at h
    · cases h
      rfl

theorem remnant_drop {active : ActiveMigration}
    (h : (MigrationGuard.drop context now).activeMigration = some active) : active.remnant := by
  unfold MigrationGuard.drop endHandoff at h
  split at h
  case h_1 he =>
    refine remnant_takeSlot (?_ : (context.takeSlotKeepingLingering now).2.activeMigration = _)
    rwa [he]
  case h_2 he =>
    refine remnant_takeSlot (?_ : (context.takeSlotKeepingLingering now).2.activeMigration = _)
    rwa [he]

-- The guard of a running transfer is dropped.
structure Drops (s : Node) (now : Instant) (id : Nat) (task : Task) (event : Event) (s' : Node) :
    Prop where
  dropped  : ∃ context, s.context.Frame context ∧ s' = { s with context }.drop now id
  silent   : s.confirms event = none ∧ event ≠ .actor
  unmarked : task.await = .unmark → task.reply.isSome
  flipped  : task.await.flipped → event = .resume id (.sent false)

theorem Effect.drops (h : Effect sha256 s now event s') (hr : s.context.Runs id)
    (ht : s.tasks.lookup id = some task) (hl : task.await.isLive)
    (hn : s'.tasks.lookup id = none) : Drops s now id task event s' := by
  have hkept {tasks : Map Nat Task} (he : tasks.lookup id = s.tasks.lookup id) :
      tasks.lookup id ≠ none := by simp [he, ht]
  have hinsert {id' task'} : (s.tasks.insert id' task').lookup id ≠ none := by
    by_cases hi : id = id'
    · simp [hi]
    · exact hkept (AList.lookup_insert_ne hi)
  cases h with
  | calm => exact absurd hn (hkept rfl)
  | reserve =>
    rw [restore_tasks] at hn
    exact absurd hn hinsert
  | @lost id' task' ht' ha =>
    by_cases hi : id = id'
    · subst hi
      cases ht.symm.trans ht'
      exact ⟨⟨s.context, .refl, rfl⟩, ⟨rfl, by simp⟩, by simp [ha], by simp [ha, Await.flipped]⟩
    · exact absurd hn (hkept (AList.lookup_erase_ne hi))
  | start => exact absurd hn hinsert
  | @resume id' task' outcome _ ht' hs =>
    by_cases hi : id = id'
    · subst hi
      cases ht.symm.trans ht'
      cases hs with
      | segment _ hu _ ha hseg =>
        cases hseg with
        | @rollBack task'' _ hf =>
          obtain ⟨context, hframe, _, he⟩ := rollBack_cases hr now task''
          rcases he with he | ⟨keys, he⟩
          · refine ⟨⟨context, hframe, he⟩, ⟨rfl, by simp⟩, fun hu' => absurd hu' hu, fun hf' => ?_⟩
            rw [hf (ha.await ▸ hf')]
          · rw [he] at hn
            exact absurd hn hinsert
        | _ => exact absurd hn hinsert
      | mark       => exact absurd hn hinsert
      | drop ha hq =>
        exact ⟨⟨s.context, .refl, rfl⟩, ⟨rfl, by simp⟩, fun _ => hq, by simp [ha, Await.flipped]⟩
      | report     => exact absurd hn hinsert
      | finish hl' => simp [hl'] at hl
    · exact absurd hn (hkept (hs.lookup_ne hi))
  | actor =>
    unfold answer at hn
    split at hn
    case h_1 => exact absurd hn (hkept rfl)
    case h_2 =>
      split at hn
      case h_1 => exact absurd hn (hkept rfl)
      case h_2 => exact absurd hn hinsert
  | request => exact absurd hn (hkept rfl)
  | sweep   => exact absurd hn (hkept rfl)
  | join    => exact absurd hn (hkept rfl)
  | abandon =>
    rw [restore_tasks] at hn
    exact absurd hn (hkept rfl)

theorem rollBack_of_not_sent (h : s.resume now id task (.sent false) = some s')
    (hl : task.await.isLive) : s' = s.rollBack now id task := by
  unfold resume at h
  split at h
  case h_4 | h_6 =>
    cases h
    rfl
  case h_3 ha _ | h_10 ha _ =>
    simp [ha, Await.isLive] at hl
  all_goals contradiction

theorem await_of_rollBack (hr : s.context.Runs id)
    (ht : (s.rollBack now id task).tasks.lookup id = some task') : task'.await = .unmark := by
  have ⟨context, _, _, he⟩ := rollBack_cases hr now task
  rcases he with he | ⟨keys, he⟩
  · rw [he] at ht
    simp [Node.drop] at ht
  · rw [he] at ht
    cases (AList.lookup_insert _).symm.trans ht
    rfl

-- A task which gives up does nothing else until it returns.
theorem unmark_of_exec (h : s.exec now sha256 event = some s') (hr : s.Rings)
    (hruns : s.context.Runs id) (ht : s.tasks.lookup id = some task) (hl : task.await.isLive)
    (hs : event = .resume id (.sent false) ∨ task.await = .unmark)
    (ht' : s'.tasks.lookup id = some task') : task'.await = .unmark := by
  rcases hs with rfl | ha
  · simp only [exec, ht, Option.bind_eq_bind, Option.bind_some] at h
    exact await_of_rollBack hruns (rollBack_of_not_sent h hl ▸ ht')
  · cases (effect_of_exec h).origin ht' with
    | kept ht₀ ha' =>
      cases ht.symm.trans ht₀
      exact ha'.trans ha
    | accepted hi      => exact absurd (hr.fresh ht) (by simp [hi])
    | started ht₀ ha' =>
      cases ht.symm.trans ht₀
      simp [ha] at ha'
    | resumed _ ht₀ hres =>
      cases ht.symm.trans ht₀
      cases hres with
      | segment _ hu   => exact absurd ha hu
      | mark _ hn      => simp [ha, Await.asks] at hn
      | drop           => simp [Node.drop] at ht'
      | report hl'     => simp [hl'] at hl
      | finish hl'     => simp [hl'] at hl

-- What is marked for a handoff is known when its guard is dropped, and from the flip of the ring on
-- it can only complete.
def rollsBack (s : Node) (event : Event) : Bool :=
  s.dropsNoMarks event && s.flipsThrough event

-- A task is live only if it was live before or is new.
theorem Effect.isLive (h : Effect sha256 s now event s') (ht' : s'.tasks.lookup id = some task')
    (hl' : task'.await.isLive) :
    id = s.context.flags.length ∨ ∃ task, s.tasks.lookup id = some task ∧ task.await.isLive := by
  cases h.origin ht' with
  | kept ht ha        => exact .inr ⟨_, ht, ha ▸ hl'⟩
  | accepted hi       => exact .inl hi
  | started ht ha     => exact .inr ⟨_, ht, ha ▸ rfl⟩
  | resumed _ ht hres => exact .inr ⟨_, ht, hres.isLive ht' hl'⟩

theorem not_runs_of_confirms (h : s.confirms event = some id) : ¬s.context.Runs id := by
  have of_members {members} (h : s.context.confirmedBy members = some id) :
      ¬s.context.Runs id := by
    intro ⟨active', ha', _, hr⟩
    have ⟨active, ha, _, hc, _⟩ := confirmedBy_eq_some.mp h
    cases ha.symm.trans ha'
    simp [hr.transferring] at hc
  cases event with
  | adopt members _ => exact of_members h
  | migrate migrate => exact of_members h
  | _               => contradiction

end Node

namespace Traced

open Node

variable {sha256 : Bytes → Vector UInt8 32} {s s' : Traced} {now : Instant} {event : Node.Event}
         {id : Nat} {task : Task}

theorem requests_of_exec (h : s.node.Requests s.marks)
    (hm : Marks sha256 s.node s.marks s.confirmed) (hr : s.node.Rings)
    (he : s.exec sha256 now event = some s') : s'.node.Requests s'.marks := by
  obtain ⟨node, hn, ⟨⟩⟩ := Option.bind_eq_some_iff.mp he
  clear he
  cases effect_of_exec hn with
  | calm hne hc _ =>
    have hc : s.node.context.Calm Set.univ _ := hc fun id _ => Set.mem_univ id
    rw [marksAfter_of_ne hne]
    exact h.frame hc.length.ge
  | reserve hres hv _ ha _ _ _ =>
    refine h.reserve hm ?_ hres hv ha
    cases ht : s.node.tasks.lookup s.node.context.flags.length
    case none      => rfl
    case some task => exact absurd (hr.fresh ht) (Nat.lt_irrefl _)
  | lost ht ha =>
    refine h.erase (h.pending_eq_zero ht fun hq => ?_) frame_drop.length.ge
    simp [ha, Await.asks] at hq
  | start ht ha =>
    refine h.wait ht (fun hq => ?_) le_rfl (fun _ => ha ▸ rfl) rfl
    simp [ha, Await.asks] at hq
  | resume ht hs => exact h.resume hm hr ht hs
  | actor hq hx =>
    simp only [marksAfter, hq, answer_cache]
    exact h.pop hm.cache hq hx
  | request => exact h.push (by simp [Command.effect]) (by simp [Command.effect])
  | @sweep owned order marked _ =>
    cases marked
    case false => exact h.push (by simp [Command.effect]) (by simp [Command.effect])
    case true  => exact h.push (by simp [Command.effect]) (by simp [Command.effect])
  | join hf _ hh _ =>
    obtain ⟨active, ha, _, hi, _⟩ := NodeContext.held_eq_some.mp hh
    have hlt := (hr.bounded.slot active ha).left
    refine (h.frame hf.length.ge).push (by simp [Command.effect]) ?_
    rintro _ _ ⟨⟩
    rw [← hi]
    exact hf.length ▸ hlt
  | abandon hne ha _ =>
    rw [marksAfter_of_ne hne]
    exact h.restore hm ha.vacant ha.length.ge _

structure Handoffs (sha256 : Bytes → Vector UInt8 32) (s : Traced) : Prop where
  marks     : Marks sha256 s.node s.marks s.confirmed
  rings     : s.node.Rings
  heeds     : s.Heeds
  requests  : s.node.Requests s.marks
  confirmed : ∀ {id}, id ∈ s.confirmed → id < s.node.context.flags.length ∧
                ∀ {task}, s.node.tasks.lookup id = some task → task.await.isLive = false

theorem confirmed_of_exec (h : Handoffs sha256 s) (he : s.exec sha256 now event = some s')
    (hm : id ∈ s'.confirmed) : id < s'.node.context.flags.length ∧
      ∀ {task}, s'.node.tasks.lookup id = some task → task.await.isLive = false := by
  obtain ⟨node, hn, ⟨⟩⟩ := Option.bind_eq_some_iff.mp he
  clear he
  have heffect := effect_of_exec hn
  have ⟨hlt, hold⟩ : id < s.node.context.flags.length ∧
      ∀ {task}, s.node.tasks.lookup id = some task → task.await.isLive = false := by
    rcases List.mem_append.mp hm with hm | hm
    · have hc := Option.mem_toList.mp hm
      have ⟨keys, hh⟩ := held_of_confirms hc
      have ⟨active, ha, _, hi, _⟩ := NodeContext.held_eq_some.mp hh
      refine ⟨hi ▸ (h.rings.bounded.slot active ha).left, fun ht => ?_⟩
      exact Bool.eq_false_iff.mpr fun hl => not_runs_of_confirms hc (h.marks.live ht hl)
    · exact h.confirmed hm
  refine ⟨hlt.trans_le heffect.follows.length, fun ht' => Bool.eq_false_iff.mpr fun hl' => ?_⟩
  rcases heffect.isLive ht' hl' with hi | ⟨task, ht, hl⟩
  · omega
  · simp [hold ht] at hl

theorem Handoffs.exec (h : Handoffs sha256 s) (hc : s.node.rollsBack event)
    (he : s.exec sha256 now event = some s') : Handoffs sha256 s' := by
  have ⟨hd, hf⟩ := Bool.and_eq_true _ _ |>.mp hc
  have ⟨node, hn, hs⟩ := Option.bind_eq_some_iff.mp he
  have hrings : node.Rings := h.rings.effect h.marks hf (effect_of_exec hn)
  exact {
    marks     := marks_of_exec h.marks hd he
    rings     := by cases hs; exact hrings
    heeds     := heeds_of_exec h.heeds h.rings.bounded hf he
    requests  := requests_of_exec h.requests h.marks h.rings he
    confirmed := confirmed_of_exec h he
  }

theorem Reachable.handoffs (h : Reachable sha256 rollsBack s) : Handoffs sha256 s := by
  induction h
  case init node hn hb hc hq ht hr =>
    exact {
      marks     := .init hc hq ht
      rings     := ⟨hb, by simp [ht], by simp [ht], by simp [hr]⟩
      heeds     := ⟨nofun, by simp [flipping, ht]⟩
      requests  := ⟨nofun, by simp [effects, hq], by simp [pending, hq], by simp [ht], by simp [ht]⟩
      confirmed := nofun
    }
  case step _ hc he hi => exact hi.exec hc he

-- What is left of a handoff whose task has returned without completing it.
structure RolledBack (s : Traced) (id : Nat) (task : Task) : Prop where
  known    : ∀ membership, s.node.context.knownRing = some membership →
               membership.ring.ptr ≠ task.afterRing.ptr
  marks    : ∀ key, (key, id) ∉ s.marks
  queue    : ∀ key, .mark key id ∉ s.node.effects
  reported : id ∉ s.node.reported
  slot     : ∀ active, s.node.context.activeMigration = some active → active.remnant

theorem rolledBack_of_exec (h : Handoffs sha256 s) (hc : s.node.rollsBack event)
    (he : s.exec sha256 now event = some s') (ht : s.node.tasks.lookup id = some task)
    (hl : task.await.isLive) (hn : s'.node.tasks.lookup id = none) : s'.RolledBack id task := by
  have h' := h.exec hc he
  have ⟨_, hf⟩ := Bool.and_eq_true _ _ |>.mp hc
  obtain ⟨node, hx, ⟨⟩⟩ := Option.bind_eq_some_iff.mp he
  clear he
  have hd := (effect_of_exec hx).drops (h.marks.live ht hl) ht hl hn
  have ⟨context, hframe, hs⟩ := hd.dropped
  subst hs
  have hnf : task.await.flipped = false := by
    refine Bool.eq_false_iff.mpr fun hflip => ?_
    rw [hd.flipped hflip] at hf
    simp [flipsThrough, flipping, ht, hflip] at hf
  have hspares := h.requests.spared ht hl hd.unmarked
  have hafter (key : Key) : (key, id) ∉ MarkCommand.after { p | p ∈ s.marks } s.node.effects := by
    intro hm
    rw [← marksAfter_of_ne hd.silent.right] at hm
    rcases h'.marks.held hm with hc | ⟨keys, hh, _⟩
    · simp only [hd.silent.left, Option.toList_none, List.nil_append] at hc
      simp [(h.confirmed hc).right ht] at hl
    · simp [Node.drop, MigrationGuard.drop, NodeContext.held_endHandoff] at hh
  exact {
    known    := fun membership => ((h.rings.task ht hl).frame (hframe.trans frame_drop)).known hnf
    marks    := fun key => by
      rw [marksAfter_of_ne hd.silent.right]
      exact hspares.not_mem (hafter key)
    queue    := fun key => hspares.mark_not_mem (hafter key)
    reported := fun hm => by simp [(h.rings.reported hm).right ht] at hl
    slot     := fun active => remnant_drop
  }

theorem Reachable.rolls_back (h : Reachable sha256 rollsBack s) (hc : s.node.rollsBack event)
    (he : s.exec sha256 now event = some s') (ht : s.node.tasks.lookup id = some task)
    (hl : task.await.isLive) :
    (s'.node.tasks.lookup id = none → s'.RolledBack id task) ∧
    (∀ task', s'.node.tasks.lookup id = some task' →
      (event = .resume id (.sent false) ∨ task.await = .unmark → task'.await = .unmark) ∧
      (task'.await.isLive = false → id ∉ s.aborted)) := by
  have hh := h.handoffs
  refine ⟨rolledBack_of_exec hh hc he ht hl, fun task' ht' => ?_⟩
  obtain ⟨node, hx, ⟨⟩⟩ := Option.bind_eq_some_iff.mp he
  clear he
  refine ⟨fun hs => unmark_of_exec hx hh.rings (hh.marks.live ht hl) ht hl hs ht', fun hl' => ?_⟩
  -- Only the task itself stamps its handoff.
  cases (effect_of_exec hx).origin ht' with
  | kept ht₀ ha =>
    cases ht.symm.trans ht₀
    simp [← ha, hl'] at hl
  | accepted _ ha  => simp [ha, Await.isLive] at hl'
  | started _ _ ha => simp [ha, Await.isLive] at hl'
  | resumed _ ht₀ hres =>
    cases ht.symm.trans ht₀
    exact hh.heeds.not_mem_aborted ht (hres.passed hl ht' (.inr hl'))

section Joining

-- A clear that comes in during the transfer cannot be replayed after the ring was flipped.
def failedReplay : List Node.Event :=
  [.request (.set ⟨[], [97]⟩ [1]), .actor, .migrate joining, .start 0 [⟨[], [97]⟩],
   .resume 0 .ready, .actor, .resume 0 .ready, .routeClear .all, .resume 0 (.sent true), .actor,
   .resume 0 .ready, .resume 0 (.sent false), .actor]

theorem keeps_ring_of_failed_join :
    let sha256 := fun _ => .replicate 32 0
    ∃ s s' task membership, Reachable sha256 (fun _ _ => true) s ∧
      s.exec sha256 0 (.resume 0 .ready) = some s' ∧
      s.node.tasks.lookup 0 = some task ∧ task.await.isLive ∧ s'.node.tasks.lookup 0 = none ∧
      s'.node.context.knownRing = some membership ∧
      membership.ring.ptr = task.afterRing.ptr := by
  intro sha256
  let s := (idle.execAll sha256 (fun _ _ => true) failedReplay).get (by decide)
  have hs : idle.execAll sha256 (fun _ _ => true) failedReplay = some s := rfl
  let s' := (s.exec sha256 0 (.resume 0 .ready)).get (by decide)
  have hs' : s.exec sha256 0 (.resume 0 .ready) = some s' := rfl
  exact ⟨s, s', _, _, Reachable.idle.execAll hs, hs', rfl, rfl, rfl, rfl, rfl⟩

-- The transfer is cancelled after it has marked a key.
def cancelledHandoff : List Node.Event :=
  [.request (.set ⟨[], [97]⟩ [1]), .actor, .migrate joining, .start 0 [⟨[], [97]⟩],
   .resume 0 .ready, .actor, .resume 0 .ready, .resume 0 (.sent true), .actor, .cancel [106],
   .resume 0 .ready, .actor]

theorem rolls_back_of_cancel :
    let sha256 := fun _ => .replicate 32 0
    ∃ s s' task, Reachable sha256 rollsBack s ∧ s.aborted = [0] ∧
      s.exec sha256 0 (.resume 0 .ready) = some s' ∧ s.node.tasks.lookup 0 = some task ∧
      s'.RolledBack 0 task := by
  intro sha256
  let s := (idle.execAll sha256 rollsBack cancelledHandoff).get (by decide)
  have hs : idle.execAll sha256 rollsBack cancelledHandoff = some s := rfl
  have h := Reachable.idle.execAll hs
  let s' := (s.exec sha256 0 (.resume 0 .ready)).get (by decide)
  have hs' : s.exec sha256 0 (.resume 0 .ready) = some s' := rfl
  refine ⟨s, s', _, h, by decide, hs', rfl, ?_⟩
  exact (h.rolls_back (by decide) hs' rfl rfl).left rfl

end Joining
end Traced
end Nanocached
