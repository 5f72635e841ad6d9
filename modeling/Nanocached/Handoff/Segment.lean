import Nanocached.Handoff.Held
import Nanocached.Handoff.Node

namespace Nanocached

-- The handoff is not stamped as completed yet.
def Await.isLive : Await → Bool
  | .clears _ .report | .report => false
  | _                           => true

-- The task may have marked keys which it has not handed over to the slot or rolled back.
def Await.hasMarks : Await → Bool
  | .accepted | .rereplication | .unmark | .clears _ .report | .report => false
  | _                                                                  => true

-- The cache actor is asked for something.
def Await.asks : Await → Bool
  | .peek _ | .mark _ | .unmark => true
  | _                           => false

def Await.flipped : Await → Bool
  | .clears _ (.stamp _) => true
  | _                    => false

-- Another step of the same call of `run_migration`.
structure Task.Continues (task task' : Task) : Prop where
  afterRing     : task'.afterRing = task.afterRing
  replication   : task'.replication = task.replication
  markedThisRun : task'.markedThisRun = task.markedThisRun

theorem Task.Continues.refl {task : Task} : task.Continues task :=
  ⟨rfl, rfl, rfl⟩

-- The task when the answer it awaited is there: a key that was marked is known to be.
inductive Task.Answered (task : Task) : Task → Prop
  | other : (∀ key, task.await ≠ .mark key) → Answered task task
  | marked {key : Key} :
    task.await = .mark key →
    Answered task { task with markedThisRun := task.markedThisRun ++ [key] }

namespace Node

open NodeContext

variable {s s' : Node} {now : Instant} {id : Nat} {task task' : Task} {outcome : Outcome}

-- The ring of the handoff becomes the known one.
def flipped (s : Node) (task : Task) : NodeContext :=
  { s.context with knownRing := some ⟨task.afterRing, task.replication⟩ }

-- What a task does between two awaits, until its handoff is stamped. When it has flipped the ring, it
-- gives up only if a clear could not be replayed.
inductive Segment (s : Node) (now : Instant) (id : Nat) (task : Task) (outcome : Outcome) :
    Node → Prop
  | wait {task' : Task} {context : NodeContext} {await : Await} :
    task.Continues task' → task.await.flipped = false → s.context.Calm ∅ context →
    s.context.Leaves context → await.hasMarks → !await.asks → !await.flipped →
    Segment s now id task outcome ({ s with context }.suspend id task' await)
  | ask {task' : Task} {context : NodeContext} {key : Key} :
    task.Continues task' → task.await.flipped = false → s.context.Calm ∅ context →
    s.context.Leaves context →
    Segment s now id task outcome ({ s with context }.peek id task' key)
  | rollBack {task' : Task} :
    task.Continues task' → (task.await.flipped → outcome = .sent false) →
    Segment s now id task outcome (s.rollBack now id task')
  | flip {task' : Task} {scopes : List ClearScope} :
    task.Continues task' → task.await.flipped = false → s.context.flag id = false →
    Segment s now id task outcome
      ({ s with context := (s.flipped task).takePendingClears.2 }.suspend id task'
        (.clears scopes (.stamp s.context.knownRing)))
  | replay {scopes scopes' : List ClearScope} {preCompletionRing : Option Membership} :
    task.await = .clears scopes (.stamp preCompletionRing) →
    Segment s now id task outcome (s.suspend id task (.clears scopes' (.stamp preCompletionRing)))
  | stamp {task' : Task} {context : NodeContext} {await : Await} {entriesSent : Nat}
      {preCompletionRing : Option Membership} {reported : List Nat} :
    task.Continues task' →
    context = s.context ∧ (∃ scopes, task.await = .clears scopes (.stamp preCompletionRing)) ∨
      context = (s.flipped task).takePendingClears.2 ∧ preCompletionRing = s.context.knownRing ∧
        s.context.flag id = false →
    await.isLive = false → reported = s.reported ∨ reported = id :: s.reported →
    Segment s now id task outcome ({ s with
      context  := (MigrationGuard.completed context now entriesSent task.markedThisRun
        preCompletionRing).takePendingClears.2
      reported := reported }.suspend id { task' with markedThisRun := [] } await)

theorem segment_complete {context : NodeContext} {preCompletionRing : Option Membership}
    (hc : task.Continues task')
    (h : context = s.context ∧ (∃ scopes, task.await = .clears scopes (.stamp preCompletionRing)) ∨
      context = (s.flipped task).takePendingClears.2 ∧ preCompletionRing = s.context.knownRing ∧
        s.context.flag id = false) :
    Segment s now id task outcome ({ s with context }.complete now id task' preCompletionRing) := by
  unfold complete drainPendingClears
  dsimp only
  rw [hc.markedThisRun]
  split
  · exact .stamp hc h rfl (.inr rfl)
  · exact .stamp hc h rfl (.inl rfl)

theorem segment_flip (hc : task.Continues task') (hn : task.await.flipped = false)
    (hf : s.context.flag id = false) :
    Segment s now id task outcome (s.flip now id task') := by
  unfold flip drainPendingClears
  dsimp only
  rw [hc.afterRing, hc.replication]
  split
  · exact segment_complete hc (.inr ⟨rfl, rfl, hf⟩)
  · exact .flip hc hn hf

theorem segment_leaveLoop (hc : task.Continues task') (hn : task.await.flipped = false) :
    Segment s now id task outcome (s.leaveLoop now id task') := by
  unfold leaveLoop
  split
  case isTrue     => exact .rollBack hc fun hf => by simp [hn] at hf
  case isFalse hf => exact segment_flip hc hn (Bool.not_eq_true _ ▸ hf)

theorem segment_nextKey (hc : task.Continues task') (hn : task.await.flipped = false)
    (keys : List Key) :
    Segment s now id task outcome (s.nextKey now id task' keys) := by
  induction keys
  case nil => exact segment_leaveLoop ⟨hc.afterRing, hc.replication, hc.markedThisRun⟩ hn
  case cons key keys hi =>
    have hk : task.Continues { task' with keys } := ⟨hc.afterRing, hc.replication, hc.markedThisRun⟩
    rw [nextKey]
    split
    · exact segment_leaveLoop hk hn
    · split
      case isFalse => exact hi
      case isTrue  =>
        unfold drainPendingClears
        dsimp only
        split
        · exact .ask hk hn calm.takePendingClears leaves.takePendingClears
        · exact .wait hk hn calm.takePendingClears leaves.takePendingClears
            rfl rfl rfl

-- What a task does when it is resumed.
inductive Resumes (s : Node) (now : Instant) (id : Nat) (task : Task) (outcome : Outcome) :
    Node → Prop
  | segment {task' : Task} {s' : Node} :
    task.await.isLive → task.await ≠ .unmark → (task.await.asks → task.reply.isSome) →
    task.Answered task' → Segment s now id task' outcome s' → Resumes s now id task outcome s'
  | mark {task' : Task} {key : Key} :
    task.await.isLive → !task.await.asks → !task.await.flipped → task.Continues task' →
    Resumes s now id task outcome ((s.push (.markMigrated key id) id).suspend id task' (.mark key))
  | drop : task.await = .unmark → task.reply.isSome → Resumes s now id task outcome (s.drop now id)
  | report {await : Await} {reported : List Nat} :
    task.await.isLive = false → await.isLive = false →
    reported = s.reported ∨ reported = id :: s.reported →
    Resumes s now id task outcome ({ s with reported }.suspend id task await)
  | finish :
    task.await.isLive = false → Resumes s now id task outcome { s with tasks := s.tasks.erase id }

theorem Resumes.of_await {await : Await} (ha : task.await = await) (hl : await.isLive)
    (hn : !await.asks) (h : Segment s now id task outcome s') :
    Resumes s now id task outcome s' :=
  .segment (ha ▸ hl) (fun hu => by simp [← ha, hu, Await.asks] at hn) (fun hq => by simp [← ha, hq] at hn)
    (.other fun _ hm => by simp [← ha, hm, Await.asks] at hn) h

theorem resumes_of_resume (h : s.resume now id task outcome = some s') :
    Resumes s now id task outcome s' := by
  unfold resume at h
  split at h
  case h_1 ha =>
    cases h
    exact .of_await ha rfl rfl (segment_nextKey .refl (ha ▸ rfl) _)
  case h_2 scopes site ha => -- A clear was replayed.
    split at h
    case isTrue =>
      cases h
      cases site with
      | key key => exact .of_await ha rfl rfl (.ask .refl (ha ▸ rfl) .refl .refl)
      | stamp   => exact .of_await ha rfl rfl (segment_complete .refl (.inl ⟨rfl, _, ha⟩))
      | report  => exact .report (ha ▸ rfl) rfl (.inr rfl)
    case isFalse =>
      cases h
      cases site with
      | key key => exact .of_await ha rfl rfl (.wait .refl (ha ▸ rfl) .refl .refl rfl rfl rfl)
      | stamp   => exact .of_await ha rfl rfl (.replay ha)
      | report  => exact .report (ha ▸ rfl) rfl (.inl rfl)
  case h_3 ha =>
    cases h
    exact .report (ha ▸ rfl) rfl (.inr rfl)
  case h_4 scopes site hs ha => -- A clear could not be replayed.
    cases h
    cases site with
    | key key => exact .of_await ha rfl rfl (.rollBack .refl fun _ => rfl)
    | stamp   => exact .of_await ha rfl rfl (.rollBack .refl fun _ => rfl)
    | report  => exact absurd rfl hs
  case h_5 key ha =>
    have hl : task.await.isLive := ha ▸ rfl
    split at h
    case h_1 hr =>
      cases h
      exact .segment hl (by simp [ha]) (fun _ => by simp [hr]) (.other (by simp [ha]))
        (segment_nextKey .refl (ha ▸ rfl) _)
    case h_2 hr =>
      cases h
      exact .segment hl (by simp [ha]) (fun _ => by simp [hr]) (.other (by simp [ha]))
        (.wait .refl (ha ▸ rfl) .refl .refl rfl rfl rfl)
    case h_3 => contradiction
  case h_6 ha =>
    cases h
    exact .of_await ha rfl rfl (.rollBack .refl fun _ => rfl)
  case h_7 key value ttl ha =>
    have hc : task.Continues { task with sentCount := task.sentCount + 1 } := ⟨rfl, rfl, rfl⟩
    dsimp only at h
    split at h
    case isTrue =>
      cases h
      exact .mark (ha ▸ rfl) (ha ▸ rfl) (ha ▸ rfl) hc
    case isFalse =>
      cases h
      exact .of_await ha rfl rfl (segment_nextKey hc (ha ▸ rfl) _)
  case h_8 key ha =>
    have ⟨hr, h⟩ := Option.ite_none_right_eq_some.mp h
    cases h
    exact .segment (ha ▸ rfl) (by simp [ha]) (fun _ => hr) (.marked ha)
      (segment_nextKey .refl (ha ▸ rfl) _)
  case h_9 ha =>
    have ⟨hr, h⟩ := Option.ite_none_right_eq_some.mp h
    cases h
    exact .drop ha hr
  case h_10 ha =>
    cases h
    exact .finish (ha ▸ rfl)
  case h_11 => contradiction

-- The handoff whose join the node sees confirmed.
def confirms (s : Node) : Event → Option Nat
  | .adopt members _ => s.context.confirmedBy members
  | .migrate migrate => s.context.confirmedBy (migrate.joined.map (·.1))
  | _                => none

-- What an event does.
inductive Effect (sha256 : Bytes → Vector UInt8 32) (s : Node) (now : Instant) : Event → Node → Prop
  | calm {event : Event} {context : NodeContext} :
    event ≠ .actor →
    (∀ {decided : Set Nat}, (∀ id, s.confirms event = some id → id ∈ decided) →
      s.context.Calm decided context) →
    s.context.Leaves context → Effect sha256 s now event { s with context }
  | reserve {migrate : Migrate} {guard : MigrationGuard} {keys : List Key} {context : NodeContext}
      {task : Task} :
    guard.Reserves s.context migrate keys context → guard.Reserved s.context context →
    task.markedThisRun = [] → task.await = .accepted → task.reply = none →
    task.afterRing.ptr = s.context.allocated → s.context.allocated < context.allocated →
    Effect sha256 s now (.migrate migrate) { { s with context }.restore keys with
      tasks := ({ s with context }.restore keys).tasks.insert guard.abortRequested task }
  | lost {id : Nat} {task : Task} :
    s.tasks.lookup id = some task → task.await = .accepted →
    Effect sha256 s now (.lost id) (s.drop now id)
  | start {id : Nat} {task : Task} {keys : List Key} :
    s.tasks.lookup id = some task → task.await = .accepted →
    Effect sha256 s now (.start id keys) (s.suspend id { task with keys } .rereplication)
  | resume {id : Nat} {task : Task} {outcome : Outcome} {s' : Node} :
    s.tasks.lookup id = some task → Resumes s now id task outcome s' →
    Effect sha256 s now (.resume id outcome) s'
  | actor {request : CacheRequest} {queue : List CacheRequest} {reply : Reply} {cache : Cache} :
    s.queue = request :: queue → request.command.exec sha256 s.cache now = some (reply, cache) →
    Effect sha256 s now .actor ({ s with queue, cache }.answer request.task reply)
  | request {op : Cache.Op} : Effect sha256 s now (.request op) (s.push (.call op) none)
  | sweep {owned : Option (Key → Bool)} {order : IterOrder Key} {marked : Bool} :
    (marked → s.context.held = none) →
    Effect sha256 s now (.sweep owned order) (s.push (.sweep marked owned order) none)
  | join {key : Key} {keyHash : UInt64} {id : Nat} {keys : List Key} {context : NodeContext} :
    s.context.Frame context → s.context.Leaves context → s.context.held = some (id, keys) →
    context.held = some (id, keys ++ [key]) →
    Effect sha256 s now (.joinTook key keyHash) ({ s with context }.push (.markMigrated key id) none)
  | abandon {event : Event} {keys : List Key} {context : NodeContext} :
    event ≠ .actor →
    s.context.Abandons keys context → s.context.Leaves context →
    Effect sha256 s now event ({ s with context }.restore keys)

-- The task of an `M` that is not answered yet.
theorem exists_of_accepted {s' : Node} {f : Task → Node}
    (h : (do let task ← s.tasks.lookup id
             match task.await with
             | .accepted => some (f task)
             | _         => none) = some s') :
    ∃ task, s.tasks.lookup id = some task ∧ task.await = .accepted ∧ s' = f task := by
  have ⟨task, ht, h⟩ := Option.bind_eq_some_iff.mp h
  split at h
  case h_1 ha => cases h; exact ⟨task, ht, ha, rfl⟩
  case h_2    => contradiction

theorem effect_of_migrate (sha256 : Bytes → Vector UInt8 32) (s : Node) (now : Instant)
    (migrate : Migrate) : Effect sha256 s now (.migrate migrate) (s.migrate now migrate) := by
  unfold Node.migrate
  split
  case isTrue  => exact .calm nofun (fun _ => .refl) .refl
  case isFalse =>
    dsimp only
    generalize (migrationRings s.context.name migrate.joiningName migrate.joined).2 = ring
    have hc : s.context.Calm ∅ (s.context.allocRing ring).2 :=
      .of_slot rfl (Nat.le_succ _) rfl rfl rfl
    have hl : s.context.Leaves (s.context.allocRing ring).2 := .of_slot .refl rfl
    rcases MigrationGuard.new_spec (s.context.allocRing ring).2 now migrate
        (s.context.allocRing ring).1 with
      ⟨guard, keys, context, he, hr, hv⟩ | ⟨outcome, context, he, hn, hc', hl'⟩
    · rw [he]
      have hv' : guard.Reserved s.context context :=
        ⟨fun flag hf => hv.vacant flag (hl.runs hf), hv.fresh, hv.runs, hl.flags.trans hv.flags⟩
      exact .reserve hr.of_allocRing hv' rfl rfl rfl rfl (Nat.lt_of_succ_le hr.alloc)
    · rw [he]
      cases outcome with
      | new guard keys => exact absurd rfl (hn guard keys)
      | duplicateAcked => exact .calm nofun (fun _ => (hc.trans hc').weaken) (hl.trans hl')
      | conflict       => exact .calm nofun (fun _ => (hc.trans hc').weaken) (hl.trans hl')

theorem effect_of_exec {sha256 : Bytes → Vector UInt8 32} {event : Event}
    (h : s.exec now sha256 event = some s') : Effect sha256 s now event s' := by
  cases event with
  | migrate migrate => cases h; exact effect_of_migrate ..
  | ack id entries =>
    obtain ⟨task, _, _, rfl⟩ := exists_of_accepted h
    exact .calm nofun (fun _ => calm.ack) leaves.ack
  | lost id =>
    obtain ⟨task, ht, ha, rfl⟩ := exists_of_accepted h
    exact .lost ht ha
  | start id keys =>
    obtain ⟨task, ht, ha, rfl⟩ := exists_of_accepted h
    exact .start ht ha
  | resume id outcome =>
    have ⟨task, ht, hr⟩ := Option.bind_eq_some_iff.mp h
    exact .resume ht (resumes_of_resume hr)
  | actor =>
    simp only [exec] at h
    split at h
    case h_1 => contradiction
    case h_2 request queue hq =>
      obtain ⟨⟨reply, cache⟩, hx, ⟨⟩⟩ := Option.bind_eq_some_iff.mp h
      exact .actor hq hx
  | request op =>
    obtain ⟨_, ⟨⟩⟩ := Option.ite_none_left_eq_some.mp h
    exact .request
  | joinTook key keyHash =>
    have hl : s.context.Leaves (s.context.joinTook now key keyHash).2 := leaves.joinTook
    simp only [exec] at h
    split at h
    case h_1 context he =>
      cases h
      have hc {decided} : s.context.Calm decided _ := calm_joinTook (congrArg (·.1) he)
      rw [he] at hc hl
      exact .calm nofun (fun _ => hc) hl
    case h_2 context he =>
      cases h
      have ⟨hf, id, keys, hh, hh', hid⟩ := held_of_joinTook (congrArg (·.1) he)
      rw [he] at hf hh' hid hl
      rw [hid]
      exact .join hf hl hh hh'
  | sweep owned order =>
    simp only [exec] at h
    cases hs : s.context.activeMigration
    case none =>
      rw [hs] at h
      cases h
      exact .sweep fun _ => held_of_none hs
    case some active =>
      rw [hs] at h
      dsimp only at h
      split at h
      case isTrue  => cases h; exact .calm nofun (fun _ => .refl) .refl
      case isFalse =>
        cases h
        refine .sweep fun hm => held_of_confirmed fun active' hs' => ?_
        cases hs.symm.trans hs'
        simpa using hm
  | cancel joiningName =>
    have hl : s.context.Leaves (s.context.abandonMigration now joiningName).2 :=
      leaves.abandonMigration
    simp only [exec] at h
    rcases s.context.abandonMigration_cases now joiningName with
      ⟨keys, context, he, ha⟩ | ⟨outcome, context, he, hn, hc⟩
    · rw [he] at h hl
      cases h
      exact .abandon nofun ha hl
    · rw [he] at h hl
      cases outcome with
      | completed keys => exact absurd rfl (hn keys)
      | noMatch        => cases h; exact .calm nofun (fun _ => hc.weaken) hl
      | aborting       => cases h; exact .calm nofun (fun _ => hc.weaken) hl
  | gone identity =>
    have hl : s.context.Leaves (s.context.abandonDepartedSlot now identity).2 :=
      leaves.abandonDepartedSlot
    simp only [exec] at h
    rcases s.context.abandonDepartedSlot_cases now identity with
      ⟨keys, ring, context, he, ha⟩ | ⟨context, he, hc⟩
    · rw [he] at h hl
      cases h
      exact .abandon nofun ha hl
    · rw [he] at h hl
      cases h
      exact .calm nofun (fun _ => hc.weaken) hl
  | adopt members replication =>
    cases h
    exact .calm nofun (fun hd => calm_adoptMembership hd) leaves.adoptMembership
  | clearExpired =>
    cases h
    exact .calm nofun (fun _ => calm_clearExpired) leaves.clearExpired
  | retainLingering =>
    cases h
    exact .calm nofun (fun _ => calm.retainLingering) leaves.retainLingering
  | routeClear scope =>
    cases h
    exact .calm nofun (fun _ => calm.routeClear) leaves.routeClear
  | requestAbort =>
    cases h
    exact .calm nofun (fun _ => calm.requestAbort) leaves.requestAbort

end Node
end Nanocached
