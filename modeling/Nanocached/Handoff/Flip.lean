import Nanocached.Handoff.SweepTheorems

namespace Nanocached

-- The rings of a handoff which is not stamped. They tell the ring it installs from all others.
structure Task.Rings (task : Task) (context : NodeContext) : Prop where
  after  : task.afterRing.ptr < context.allocated
  before : ∀ {scopes membership}, task.await = .clears scopes (.stamp (some membership)) →
             membership.ring.ptr < context.allocated
  known  : task.await.flipped = false → ∀ {membership}, context.knownRing = some membership →
             membership.ring.ptr ≠ task.afterRing.ptr

theorem Task.Rings.frame {task : Task} {context context' : NodeContext} (h : task.Rings context)
    (hf : context.Frame context') : task.Rings context' where
  after            := h.after.trans_le hf.allocated
  before hm        := (h.before hm).trans_le hf.allocated
  known hn {_} hm' := by
    rcases hf.known with hk | ⟨membership', hm, hge, _⟩
    · exact h.known hn (hk ▸ hm')
    · cases hm'.symm.trans hm
      exact ne_of_gt (h.after.trans_le hge)

-- The task waits for something else, and it has not flipped the ring.
theorem Task.Rings.continues {task task' : Task} {context : NodeContext} (h : task.Rings context)
    (hn : task.await.flipped = false) (hr : task'.afterRing = task.afterRing)
    (hn' : task'.await.flipped = false) : task'.Rings context where
  after     := hr ▸ h.after
  before hm := by simp [hm, Await.flipped] at hn'
  known _   := hr ▸ h.known hn

theorem Task.Answered.await {task task' : Task} (h : task.Answered task') :
    task'.await = task.await := by
  cases h <;> rfl

theorem Task.Answered.afterRing {task task' : Task} (h : task.Answered task') :
    task'.afterRing = task.afterRing := by
  cases h <;> rfl

namespace Node

open NodeContext

variable {sha256 : Bytes → Vector UInt8 32} {s s' : Node} {marks : List (Key × Nat)}
         {confirmed : List Nat} {now : Instant} {id : Nat} {task task' : Task} {event : Event}
         {outcome : Outcome} {context : NodeContext} {queue : List CacheRequest}
         {reported : List Nat}

-- The node goes by the ring of the handoff, which is not stamped yet.
def flipping (s : Node) (id : Nat) : Bool :=
  (s.tasks.lookup id).any (·.await.flipped)

-- Until the handoff is stamped it is not asked to stop any more, and all clears are replayed.
def flipsThrough (s : Node) (event : Event) : Bool :=
  !(s.aborts event).any s.flipping &&
    match event with
    | .resume id (.sent false) => !s.flipping id
    | _                        => true

section Rings

structure Rings (s : Node) : Prop where
  bounded  : s.context.Bounded
  fresh    : ∀ {id task}, s.tasks.lookup id = some task → id < s.context.flags.length
  task     : ∀ {id task}, s.tasks.lookup id = some task → task.await.isLive → task.Rings s.context
  reported : ∀ {id}, id ∈ s.reported → id < s.context.flags.length ∧
               ∀ {task}, s.tasks.lookup id = some task → task.await.isLive = false

namespace Rings

theorem frame (h : s.Rings) (hf : s.context.Frame context) {cache : Cache} :
    Rings { s with context, queue, cache } where
  bounded     := hf.bounded h.bounded
  fresh ht    := hf.length ▸ h.fresh ht
  task ht hl  := (h.task ht hl).frame hf
  reported hm := hf.length ▸ h.reported hm

theorem insert (h : s.Rings) (hb : context.Bounded)
    (hn : s.context.flags.length ≤ context.flags.length) (hid : id < context.flags.length)
    (ho : ∀ {id' task'}, id' ≠ id → s.tasks.lookup id' = some task' → task'.await.isLive →
      task'.Rings context)
    (ht : task.await.isLive → task.Rings context ∧ id ∉ reported)
    (hr : ∀ id' ∈ reported, id' = id ∨ id' ∈ s.reported) :
    Rings { s with context, queue, reported, tasks := s.tasks.insert id task } where
  bounded := hb
  fresh {id' _} ht' := by
    by_cases hi : id' = id
    · exact hi ▸ hid
    · rw [AList.lookup_insert_ne hi] at ht'
      exact (h.fresh ht').trans_le hn
  task {id' _} ht' hl := by
    rcases AList.lookup_insert_eq_some.mp ht' with ⟨rfl, rfl⟩ | ⟨hi, ht'⟩
    · exact (ht hl).left
    · exact ho hi ht' hl
  reported {id'} hm := by
    by_cases hi : id' = id
    · subst hi
      refine ⟨hid, fun ht' => ?_⟩
      rw [AList.lookup_insert] at ht'
      cases ht'
      exact Bool.eq_false_iff.mpr fun hl => (ht hl).right hm
    · have ⟨hlt, hl⟩ := h.reported ((hr id' hm).resolve_left hi)
      refine ⟨hlt.trans_le hn, fun ht' => ?_⟩
      rw [AList.lookup_insert_ne hi] at ht'
      exact hl ht'

theorem erase (h : s.Rings) (hf : s.context.Frame context) :
    Rings { s with context, tasks := s.tasks.erase id } where
  bounded   := hf.bounded h.bounded
  fresh ht' := by
    exact hf.length ▸ h.fresh (AList.lookup_erase_eq_some.mp ht').right
  task ht' hl := by
    exact (h.task (AList.lookup_erase_eq_some.mp ht').right hl).frame hf
  reported hm := by
    have ⟨hlt, hl⟩ := h.reported hm
    refine ⟨hf.length ▸ hlt, fun ht' => ?_⟩
    exact hl (AList.lookup_erase_eq_some.mp ht').right

-- A live task goes on to another await.
theorem advance (h : s.Rings) (hm : Marks sha256 s marks confirmed)
    (ht : s.tasks.lookup id = some task) (hl : task.await.isLive) (hb : context.Bounded)
    (hn : context.flags.length = s.context.flags.length)
    (hr : reported = s.reported ∨ reported = id :: s.reported ∧ task'.await.isLive = false)
    (ht' : task'.await.isLive → task'.Rings context) :
    Rings { s with context, queue, reported, tasks := s.tasks.insert id task' } := by
  refine h.insert hb hn.ge (hn ▸ h.fresh ht) (fun hi ht'' hl' => ?_) (fun hl' => ⟨ht' hl', ?_⟩) ?_
  · exact absurd (hm.eq_of_live (hm.live ht hl) ht'' hl') hi
  · intro hm
    rcases hr with rfl | ⟨_, hl''⟩
    · simp [(h.reported hm).right ht] at hl
    · simp [hl''] at hl'
  · rcases hr with rfl | ⟨rfl, _⟩ <;> simp +contextual

end Rings

-- The guard is dropped at once if there is nothing to restore.
theorem rollBack_cases (hr : s.context.Runs id) (now : Instant) (task : Task) :
    ∃ context, s.context.Frame context ∧ s.context.Leaves context ∧
      (s.rollBack now id task = { s with context }.drop now id ∨
        ∃ keys, s.rollBack now id task = ({ s with context }.push (.unmarkMigratedMany keys) id).suspend
          id { task with markedThisRun := [] } .unmark) := by
  have ⟨keys, hh⟩ := held_of_runs hr
  have ⟨context, he, hf, _⟩ := MigrationGuard.takeJoinMarks_of_held hh
  have hl : s.context.Leaves (MigrationGuard.takeJoinMarks ⟨id⟩ s.context).2 :=
    leaves.takeJoinMarks
  rw [he] at hl
  refine ⟨context, hf, hl, ?_⟩
  unfold rollBack
  rw [he]
  dsimp only
  split
  · exact .inl rfl
  · exact .inr ⟨_, rfl⟩

theorem frame_drop : context.Frame (MigrationGuard.drop context now) :=
  (calm_endHandoff fun id _ _ => Set.mem_univ id).toFrame

namespace Rings

theorem flipped (h : s.Rings) (hr : task.afterRing.ptr < s.context.allocated) :
    (s.flipped task).takePendingClears.2.Bounded := by
  have hc : (s.flipped task).Calm ∅ (s.flipped task).takePendingClears.2 := calm.takePendingClears
  refine hc.bounded ⟨?_, h.bounded.slot⟩
  rintro _ ⟨⟩
  exact hr

theorem segment (h : s.Rings) (hm : Marks sha256 s marks confirmed)
    (ht : s.tasks.lookup id = some task) (hl : task.await.isLive) (ha : task'.await = task.await)
    (hr : task'.afterRing = task.afterRing) (ho : task.await.flipped → outcome ≠ .sent false)
    (hs : Segment s now id task' outcome s') : s'.Rings := by
  have hrings := h.task ht hl
  cases hs with
  | wait hc hn hcalm _ _ _ hn' =>
    refine h.advance hm ht hl (hcalm.bounded h.bounded) hcalm.length (.inl rfl) fun _ => ?_
    refine (hrings.frame hcalm.toFrame).continues (ha ▸ hn) (hc.afterRing.trans hr) ?_
    simpa using hn'
  | ask hc hn hcalm _ =>
    refine h.advance hm ht hl (hcalm.bounded h.bounded) hcalm.length (.inl rfl) fun _ => ?_
    exact (hrings.frame hcalm.toFrame).continues (ha ▸ hn) (hc.afterRing.trans hr) rfl
  | @rollBack task'' hc hf =>
    have hn : task.await.flipped = false :=
      Bool.eq_false_iff.mpr fun hf' => ho hf' (hf (ha ▸ hf'))
    have ⟨context, hframe, _, he⟩ := rollBack_cases (hm.live ht hl) now task''
    rcases he with he | ⟨keys, he⟩
    · rw [he]
      exact h.erase (hframe.trans frame_drop)
    · rw [he]
      refine h.advance hm ht hl (hframe.bounded h.bounded) hframe.length (.inl rfl) fun _ => ?_
      exact (hrings.frame hframe).continues hn (hc.afterRing.trans hr) rfl
  | flip hc hn _ =>
    have hcalm : (s.flipped task').Calm ∅ (s.flipped task').takePendingClears.2 :=
      calm.takePendingClears
    have hafter : task'.afterRing.ptr < s.context.allocated := hr ▸ hrings.after
    refine h.advance hm ht hl (h.flipped hafter) hcalm.length (.inl rfl) fun _ => ?_
    refine ⟨hc.afterRing ▸ hafter.trans_le hcalm.allocated, fun {scopes membership} hm => ?_, nofun⟩
    injection hm with _ hs
    injection hs with hk
    exact (h.bounded.known membership hk).trans_le hcalm.allocated
  | replay ha' =>
    refine h.advance hm ht hl h.bounded rfl (.inl rfl) fun _ => ?_
    refine ⟨hr ▸ hrings.after, fun hm => ?_, nofun⟩
    injection hm with _ hs
    exact hrings.before (ha ▸ hs ▸ ha')
  | @stamp _ context _ n pre _ _ hcon hl' hrep =>
    have ⟨hb, hn, hp⟩ : context.Bounded ∧ context.flags.length = s.context.flags.length ∧
        ∀ membership, pre = some membership → membership.ring.ptr < context.allocated := by
      rcases hcon with ⟨rfl, scopes, ha'⟩ | ⟨rfl, rfl, _⟩
      · exact ⟨h.bounded, rfl, fun membership hm => hrings.before (ha ▸ hm ▸ ha')⟩
      · have hcalm : (s.flipped task').Calm ∅ (s.flipped task').takePendingClears.2 :=
          calm.takePendingClears
        exact ⟨h.flipped (hr ▸ hrings.after), hcalm.length,
          fun membership hm => (h.bounded.known membership hm).trans_le hcalm.allocated⟩
    have hcalm : (MigrationGuard.completed context now n task'.markedThisRun pre).Calm ∅ _ :=
      calm.takePendingClears
    refine h.advance hm ht hl (hcalm.bounded (MigrationGuard.bounded_completed hb hp))
      (hcalm.length.trans hn) (hrep.imp_right fun he => ⟨he, hl'⟩) fun hl => ?_
    simp [hl'] at hl

theorem resume (h : s.Rings) (hm : Marks sha256 s marks confirmed)
    (ht : s.tasks.lookup id = some task) (ho : task.await.flipped → outcome ≠ .sent false)
    (hr : Resumes s now id task outcome s') : s'.Rings := by
  cases hr with
  | segment hl _ _ ha hs => exact h.segment hm ht hl ha.await ha.afterRing ho hs
  | mark hl _ hn hc =>
    refine h.advance hm ht hl h.bounded rfl (.inl rfl) fun _ => ?_
    exact (h.task ht hl).continues (by simpa using hn) hc.afterRing rfl
  | drop => exact h.erase frame_drop
  | report _ hl' hrep =>
    refine h.insert h.bounded le_rfl (h.fresh ht) (fun _ => h.task) (fun hl => ?_) ?_
    · simp [hl'] at hl
    · rcases hrep with rfl | rfl
      · exact fun _ => .inr
      · exact fun _ => List.mem_cons.mp
  | finish => exact h.erase .refl

theorem answer (h : s.Rings) {sender : Option Nat} {reply : Reply} :
    (s.answer sender reply).Rings := by
  unfold Node.answer
  split
  case h_1 => exact h
  case h_2 id =>
    split
    case h_1 => exact h
    case h_2 task ht =>
      refine h.insert h.bounded le_rfl (h.fresh ht) (fun _ => h.task) (fun hl => ⟨?_, ?_⟩)
        fun _ => .inr
      · have hr := h.task ht hl
        exact ⟨hr.after, hr.before, hr.known⟩
      · exact fun hm => by simp [(h.reported hm).right ht] at hl

-- Nothing is transferred.
theorem vacate (h : s.Rings) (hm : Marks sha256 s marks confirmed)
    (hv : ∀ flag, ¬s.context.Runs flag) (hb : context.Bounded)
    (hn : context.flags.length = s.context.flags.length) : Rings { s with context, queue } where
  bounded     := hb
  fresh ht    := hn ▸ h.fresh ht
  task ht hl  := absurd (hm.live ht hl) (hv _)
  reported hm := hn ▸ h.reported hm

theorem reserve (h : s.Rings) (hm : Marks sha256 s marks confirmed) {migrate : Migrate}
    {guard : MigrationGuard} {keys : List Key} (hr : guard.Reserves s.context migrate keys context)
    (hv : guard.Reserved s.context context) (ha : task.await = .accepted)
    (hp : task.afterRing.ptr = s.context.allocated) (hlt : s.context.allocated < context.allocated) :
    Rings { { s with context }.restore keys with
      tasks := ({ s with context }.restore keys).tasks.insert guard.abortRequested task } := by
  rw [restore_eq]
  refine h.insert (hr.bounded h.bounded) ?_ ?_ (fun _ ht hl => ?_) (fun _ => ⟨?_, ?_⟩) fun _ => .inr
  · simp [hr.length]
  · simp [hr.length, hr.guard]
  · exact absurd (hm.live ht hl) (hv.vacant _)
  · refine ⟨hp ▸ hlt, fun hm => ?_, fun _ {membership} hk => ?_⟩
    · simp [ha] at hm
    · refine ne_of_lt (hp ▸ ?_)
      rcases hr.known membership hk with hk | ⟨active, hs, hpre⟩
      · exact h.bounded.known membership hk
      · exact (h.bounded.slot active hs).right membership hpre
  · exact fun hm => absurd (h.reported hm).left (by simp [hr.guard])

theorem effect (h : s.Rings) (hm : Marks sha256 s marks confirmed) (hf : s.flipsThrough event)
    (he : Effect sha256 s now event s') : s'.Rings := by
  cases he with
  | calm _ hcalm _ =>
    have hcalm : s.context.Calm Set.univ _ := hcalm fun id _ => Set.mem_univ id
    exact h.frame hcalm.toFrame
  | reserve hr hv _ ha _ hp hlt => exact h.reserve hm hr hv ha hp hlt
  | lost ht ha                  => exact h.erase frame_drop
  | @start id task keys ht ha =>
    have hl : task.await.isLive := ha ▸ rfl
    refine h.advance hm ht hl h.bounded rfl (.inl rfl) fun _ => ?_
    exact (h.task ht hl).continues (ha ▸ rfl) rfl rfl
  | @resume id task outcome _ ht hr =>
    refine h.resume hm ht (fun hf' ho => ?_) hr
    subst ho
    simp [flipsThrough, flipping, ht, hf'] at hf
  | actor        => exact (h.frame .refl).answer
  | request      => exact h.frame .refl
  | sweep        => exact h.frame .refl
  | join hframe  => exact h.frame hframe
  | abandon _ ha =>
    rw [restore_eq]
    exact h.vacate hm ha.vacant (ha.bounded h.bounded) ha.length

end Rings
end Rings

section Flags

theorem flag_raise {ptr : Nat} (h : ptr < context.flags.length) : (context.raise ptr).flag ptr := by
  simp [NodeContext.flag, NodeContext.raise, h]

theorem new_of_generation {migrate : Migrate} {afterRing : SharedRing} {active : ActiveMigration}
    (ha : context.activeMigration = some active) (hc : active.completedAt = none)
    (hn : active.joiningName = migrate.joiningName)
    (hg : MigrationGuard.sameGeneration active.generation migrate.generation = false) :
    MigrationGuard.new context now migrate afterRing =
      (.conflict, (context.raise active.abortRequested).raise active.forwardRevoked) := by
  have he : context.clearExpired now = context := by
    unfold clearExpired
    simp [ha, ActiveMigration.expired, ActiveMigration.forwardingOpen, hc]
  simp [MigrationGuard.new, he, ha, hn, hg, hc]

-- The flag of a handoff that is asked to stop is raised.
theorem flag_of_aborts (hb : s.context.Bounded) (ha : s.aborts event = some id)
    (he : s.exec now sha256 event = some s') : s'.context.flag id := by
  obtain ⟨active, hf, hi⟩ := Option.map_eq_some_iff.mp ha
  obtain ⟨hs, hstop⟩ := Option.filter_eq_some_iff.mp hf
  subst hi
  simp only [Bool.and_eq_true, Option.isNone_iff_eq_none] at hstop
  have hraise := flag_raise (hb.slot active hs).left
  have hraise' : ((s.context.raise active.abortRequested).raise active.forwardRevoked).flag
      active.abortRequested := raises_raise _ _ hraise
  cases event with
  | cancel joiningName =>
    have hn : active.joiningName = joiningName := by simpa [asksToStop] using hstop.right
    have hx : s.context.abandonMigration now joiningName =
        (.aborting, (s.context.raise active.abortRequested).raise active.forwardRevoked) := by
      simp [abandonMigration, takeAbandonedSlot, hs, hn, hstop.left]
    simp only [exec, hx] at he
    cases he
    exact hraise'
  | migrate migrate =>
    simp only [asksToStop, Bool.and_eq_true, Bool.not_eq_true', decide_eq_true_eq] at hstop
    obtain ⟨hc, ⟨hl, hn⟩, hg⟩ := hstop
    cases he
    have hs' {ring} : (s.context.allocRing ring).2.activeMigration = some active := hs
    simp only [Node.migrate, hl, Bool.false_eq_true, if_false, new_of_generation hs' hc hn hg]
    exact hraise'
  | requestAbort =>
    cases he
    simpa [NodeContext.requestAbort, hs] using hraise
  | _ => simp [asksToStop] at hstop

theorem Segment.raises (h : Segment s now id task outcome s') : s.context.Raises s'.context := by
  have hf : (s.flipped task).Raises (s.flipped task).takePendingClears.2 :=
    leaves.takePendingClears.flags
  cases h with
  | wait _ _ _ hl => exact hl.flags
  | ask _ _ _ hl  => exact hl.flags
  | rollBack =>
    have ht : s.context.Raises (MigrationGuard.takeJoinMarks ⟨id⟩ s.context).2 :=
      leaves.takeJoinMarks.flags
    unfold Node.rollBack
    dsimp only
    split
    · exact ht.trans raises_endHandoff
    · exact ht
  | flip   => exact hf
  | replay => exact .refl
  | stamp _ hcon =>
    refine Raises.trans ?_ leaves.takePendingClears.flags
    rcases hcon with ⟨rfl, _⟩ | ⟨rfl, _⟩
    · exact .of_eq rfl
    · exact hf.trans (.of_eq rfl)

theorem Effect.raises (h : Effect sha256 s now event s') : s.context.Raises s'.context := by
  cases h with
  | calm _ _ hl    => exact hl.flags
  | reserve _ hv   => simpa using hv.flags
  | lost           => exact raises_endHandoff
  | start          => exact .refl
  | resume _ hr =>
    cases hr with
    | segment _ _ _ _ hs => exact hs.raises
    | mark               => exact .refl
    | drop               => exact raises_endHandoff
    | report             => exact .refl
    | finish             => exact .refl
  | actor          => simpa using .refl
  | request        => exact .refl
  | sweep          => exact .refl
  | join _ hl      => exact hl.flags
  | abandon _ _ hl => simpa using hl.flags

-- Where a task comes from.
inductive Origin (s : Node) (now : Instant) (event : Event) (s' : Node) (id : Nat) (task' : Task) :
    Prop
  | kept {task : Task} :
    s.tasks.lookup id = some task → task'.await = task.await → Origin s now event s' id task'
  | accepted :
    id = s.context.flags.length → task'.await = .accepted → Origin s now event s' id task'
  | started {task : Task} :
    s.tasks.lookup id = some task → task.await = .accepted → task'.await = .rereplication →
    Origin s now event s' id task'
  | resumed {task : Task} {outcome : Outcome} :
    event = .resume id outcome → s.tasks.lookup id = some task →
    Resumes s now id task outcome s' → Origin s now event s' id task'

theorem lookup_answer {sender : Option Nat} {reply : Reply}
    (ht : (s.answer sender reply).tasks.lookup id = some task') :
    ∃ task, s.tasks.lookup id = some task ∧
      (task' = task ∧ sender ≠ some id ∨ task' = { task with reply := some reply } ∧ sender = some id) := by
  unfold answer at ht
  split at ht
  case h_1 => exact ⟨task', ht, .inl ⟨rfl, nofun⟩⟩
  case h_2 id' =>
    split at ht
    case h_1 hn =>
      refine ⟨task', ht, .inl ⟨rfl, ?_⟩⟩
      rintro ⟨⟩
      simp [hn] at ht
    case h_2 task hs =>
      rcases AList.lookup_insert_eq_some.mp ht with ⟨rfl, rfl⟩ | ⟨hi, ht⟩
      · exact ⟨task, hs, .inr ⟨rfl, rfl⟩⟩
      · exact ⟨task', ht, .inl ⟨rfl, fun he => hi (Option.some.inj he).symm⟩⟩

theorem Resumes.lookup_ne (h : Resumes s now id task outcome s') {id' : Nat} (hn : id' ≠ id) :
    s'.tasks.lookup id' = s.tasks.lookup id' := by
  cases h with
  | segment _ _ _ _ hs =>
    cases hs with
    | rollBack =>
      unfold Node.rollBack
      dsimp only
      split
      · exact AList.lookup_erase_ne hn
      · exact AList.lookup_insert_ne hn
    | _ => exact AList.lookup_insert_ne hn
  | mark   => exact AList.lookup_insert_ne hn
  | drop   => exact AList.lookup_erase_ne hn
  | report => exact AList.lookup_insert_ne hn
  | finish => exact AList.lookup_erase_ne hn

theorem Effect.origin (h : Effect sha256 s now event s') (ht : s'.tasks.lookup id = some task') :
    Origin s now event s' id task' := by
  cases h with
  | calm      => exact .kept ht rfl
  | @reserve _ guard _ _ task hr _ _ ha _ _ _ =>
    rw [restore_tasks] at ht
    rcases AList.lookup_insert_eq_some.mp ht with ⟨rfl, rfl⟩ | ⟨hi, ht⟩
    · exact .accepted hr.guard ha
    · exact .kept ht rfl
  | @lost id' task ht' ha =>
    have ht := (AList.lookup_erase_eq_ite ..).symm.trans ht
    exact .kept (Option.ite_none_left_eq_some.mp ht).right rfl
  | @start id' task keys ht' ha =>
    by_cases hi : id = id'
    · subst hi
      cases (AList.lookup_insert _).symm.trans ht
      exact .started ht' ha rfl
    · exact .kept ((AList.lookup_insert_ne hi).symm.trans ht) rfl
  | @resume id' task outcome _ ht' hr =>
    by_cases hi : id = id'
    · subst hi
      exact .resumed rfl ht' hr
    · exact .kept ((hr.lookup_ne hi).symm.trans ht) rfl
  | actor =>
    have ⟨task, hs, he⟩ := lookup_answer ht
    refine .kept hs ?_
    rcases he with ⟨rfl, _⟩ | ⟨rfl, _⟩ <;> rfl
  | request => exact .kept ht rfl
  | sweep   => exact .kept ht rfl
  | join    => exact .kept ht rfl
  | abandon =>
    rw [restore_tasks] at ht
    exact .kept ht rfl

theorem Await.isLive_of_flipped {await : Await} (h : await.flipped) : await.isLive := by
  unfold Await.flipped at h
  split at h
  · rfl
  · contradiction

-- A task looks at its flag just before it flips the ring.
theorem Segment.passed (h : Segment s now id task outcome s')
    (ht : s'.tasks.lookup id = some task') (hp : task'.await.flipped ∨ task'.await.isLive = false) :
    task.await.flipped ∨ s.context.flag id = false := by
  cases h with
  | wait _ _ _ _ ha _ hn =>
    cases (AList.lookup_insert _).symm.trans ht
    rcases hp with hp | hp
    · simp [hp] at hn
    · simp [Await.not_hasMarks hp] at ha
  | ask =>
    cases (AList.lookup_insert _).symm.trans ht
    simp [Await.flipped, Await.isLive] at hp
  | rollBack =>
    unfold Node.rollBack at ht
    dsimp only at ht
    split at ht
    · simp [drop] at ht
    · cases (AList.lookup_insert _).symm.trans ht
      simp [Await.flipped, Await.isLive] at hp
  | flip _ _ hf => exact .inr hf
  | replay ha   => exact .inl (ha ▸ rfl)
  | stamp _ hcon =>
    rcases hcon with ⟨_, _, ha⟩ | ⟨_, _, hf⟩
    · exact .inl (ha ▸ rfl)
    · exact .inr hf

theorem Resumes.passed (h : Resumes s now id task outcome s') (hl : task.await.isLive)
    (ht : s'.tasks.lookup id = some task') (hp : task'.await.flipped ∨ task'.await.isLive = false) :
    task.await.flipped ∨ s.context.flag id = false := by
  cases h with
  | segment _ _ _ ha hs => exact ha.await ▸ hs.passed ht hp
  | mark =>
    cases (AList.lookup_insert _).symm.trans ht
    simp [Await.flipped, Await.isLive] at hp
  | drop         => simp [Node.drop] at ht
  | report hl' _ => simp [hl'] at hl
  | finish hl'   => simp [hl'] at hl

theorem Resumes.isLive (h : Resumes s now id task outcome s')
    (ht : s'.tasks.lookup id = some task') (hl : task'.await.isLive) : task.await.isLive := by
  cases h with
  | segment hl    => exact hl
  | mark hl       => exact hl
  | drop ha       => exact ha ▸ rfl
  | report _ hl'  =>
    cases (AList.lookup_insert _).symm.trans ht
    simp [hl'] at hl
  | finish        => simp at ht

end Flags

end Node

namespace Traced

open Node

variable {sha256 : Bytes → Vector UInt8 32} {s s' : Traced} {now : Instant} {event : Node.Event}
         {id : Nat} {task : Task}

-- A handoff that is asked to stop does not get any further.
structure Heeds (s : Traced) : Prop where
  raised   : ∀ {id}, id ∈ s.aborted → s.node.context.flag id
  flipping : ∀ {id}, s.node.flipping id → id ∉ s.aborted

theorem Heeds.not_mem_aborted (h : s.Heeds) (ht : s.node.tasks.lookup id = some task)
    (hp : task.await.flipped ∨ s.node.context.flag id = false) : id ∉ s.aborted := by
  intro hm
  rcases hp with hf | hf
  · exact h.flipping (by simpa [Node.flipping, ht] using hf) hm
  · simp [h.raised hm] at hf

theorem heeds_of_exec (h : s.Heeds) (hb : s.node.context.Bounded) (hf : s.node.flipsThrough event)
    (he : s.exec sha256 now event = some s') : s'.Heeds := by
  obtain ⟨node, hn, ⟨⟩⟩ := Option.bind_eq_some_iff.mp he
  clear he
  have heffect := effect_of_exec hn
  have hnew {id} (ha : s.node.aborts event = some id) : s.node.flipping id = false := by
    simp only [flipsThrough, ha, Bool.and_eq_true, Option.any_some] at hf
    simpa using hf.left
  refine ⟨fun {id} hm => ?_, fun {id} hs hm => ?_⟩
  case refine_1 =>
    rcases List.mem_append.mp hm with hm | hm
    · exact flag_of_aborts hb (Option.mem_toList.mp hm) hn
    · exact heffect.raises id (h.raised hm)
  case refine_2 =>
    have ⟨task', ht', hflip⟩ := Option.any_eq_true _ _ |>.mp hs
    cases heffect.origin ht' with
    | kept ht ha =>
      have hflip : s.node.flipping id := by simpa [Node.flipping, ht, ← ha] using hflip
      rcases List.mem_append.mp hm with hm | hm
      · simp [hnew (Option.mem_toList.mp hm)] at hflip
      · exact h.flipping hflip hm
    | accepted _ ha  => simp [ha, Await.flipped] at hflip
    | started _ _ ha => simp [ha, Await.flipped] at hflip
    | resumed hr ht hres =>
      subst hr
      have hl := hres.isLive ht' (Await.isLive_of_flipped hflip)
      refine h.not_mem_aborted ht (hres.passed hl ht' (.inl hflip)) ?_
      simpa [aborts, asksToStop] using hm

end Traced
end Nanocached
