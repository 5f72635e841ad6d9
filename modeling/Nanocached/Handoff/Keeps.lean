import Nanocached.Handoff.Windows

namespace Nanocached

theorem LingeringForward.forwardingOpen_of_le {window : LingeringForward} {now now' : Instant}
    (h : now ≤ now') (ho : window.forwardingOpen now' = true) : window.forwardingOpen now = true := by
  exact decide_eq_true ((Nat.sub_le_sub_right h _).trans_lt (of_decide_eq_true ho))

namespace ActiveMigration

variable {active active' : ActiveMigration} {now : Instant} {window : LingeringForward}
         {allocated : Nat}

def flags (active : ActiveMigration) : List Nat :=
  active.abortRequested :: active.forwardRevoked :: active.lingering.map (·.forwardRevoked)

-- Neither the joiners nor the flags of a slot are the same.
structure Distinct (active : ActiveMigration) (allocated : Nat) : Prop where
  names : active.names.Nodup
  flags : active.flags.Nodup
  bound : ∀ ptr ∈ active.flags, ptr < allocated

-- The slot still has the window of a confirmed join, which is its own or a lingering one.
def Owes (active : ActiveMigration) (window : LingeringForward) : Prop :=
  active.window = some window ∧ active.confirmed = true ∧ active.remnant = false ∨
    window ∈ active.lingering

-- The slot has nothing new, but may have lost some windows.
structure Reduces (active active' : ActiveMigration) : Prop where
  name      : active'.joiningName = active.joiningName
  abort     : active'.abortRequested = active.abortRequested
  revoked   : active'.forwardRevoked = active.forwardRevoked
  lingering : active'.lingering.Sublist active.lingering

theorem Distinct.reduces (h : active.Distinct allocated) (hr : active.Reduces active') :
    active'.Distinct allocated := by
  have hf : active'.flags.Sublist active.flags := by
    simp only [ActiveMigration.flags, hr.abort, hr.revoked]
    exact ((hr.lingering.map _).cons_cons _).cons_cons _
  refine ⟨h.names.sublist ?_, h.flags.sublist hf, fun ptr hp => h.bound ptr (hf.subset hp)⟩
  simp only [ActiveMigration.names, hr.name]
  exact (hr.lingering.map _).cons_cons _

theorem window_eq_some (h : active.window = some window) :
    active.joiningName = window.joiningName ∧ active.completedAt = some window.completedAt ∧
      active.forwardRevoked = window.forwardRevoked ∧ active.target = window.target ∧
      ∀ now, active.forwardingOpen now = window.forwardingOpen now := by
  obtain ⟨completedAt, hc, rfl⟩ := Option.map_eq_some_iff.mp h
  exact ⟨rfl, hc, rfl, rfl, fun now => by rw [forwardingOpen, hc]; rfl⟩

-- The flag by which a window is revoked is that of the handoff, or of one that lingers.
theorem Owes.mem_flags (h : active.Owes window) :
    window.forwardRevoked ∈ active.forwardRevoked :: active.lingering.map (·.forwardRevoked) := by
  rcases h with ⟨hw, _⟩ | hm
  · rw [(window_eq_some hw).2.2.1]
    exact List.mem_cons_self
  · exact List.mem_cons_of_mem _ (List.mem_map_of_mem hm)

end ActiveMigration

namespace NodeContext

variable {node node' node'' : NodeContext} {now : Instant} {active active' : ActiveMigration}
         {window : LingeringForward} {ended : LingeringForward → Prop} {ptr : Nat} {ptrs : List Nat}

theorem flag_raise_of_ne {ptr' : Nat} (h : ptr' ≠ ptr) : (node.raise ptr).flag ptr' = node.flag ptr' := by
  simp [NodeContext.flag, raise, List.getElem?_set_ne h.symm]

theorem flag_raiseAll_of_notMem (h : ptr ∉ ptrs) : (node.raiseAll ptrs).flag ptr = node.flag ptr := by
  induction ptrs generalizing node
  case nil => rfl
  case cons ptr' ptrs hi =>
    obtain ⟨hn, hm⟩ := not_or.mp (mt List.mem_cons.mpr h)
    exact (hi hm).trans (flag_raise_of_ne hn)

theorem flag_congr (h : node'.flags = node.flags) : node'.flag ptr = node.flag ptr := by
  rw [NodeContext.flag, h, NodeContext.flag]

structure Sound (node : NodeContext) : Prop where
  distinct  : ∀ active, node.activeMigration = some active → active.Distinct node.flags.length
  unrevoked : ∀ active, node.activeMigration = some active → active.completedAt.isSome →
                active.confirmed = false → node.flag active.forwardRevoked = false
  handoff   : ∀ active, node.activeMigration = some active → active.confirmed = false →
                active.remnant = false

def Forwards (node : NodeContext) (window : LingeringForward) : Prop :=
  ∃ active, node.activeMigration = some active ∧ active.Owes window ∧
    node.flag window.forwardRevoked = false

-- Nothing is lost but the windows that have ended, and those which are closed.
structure Keeps (now : Instant) (ended : LingeringForward → Prop) (node node' : NodeContext) :
    Prop where
  sound    : node'.Sound
  forwards : ∀ window, ¬ended window → window.forwardingOpen now = true → node.Forwards window →
               node'.Forwards window

namespace Keeps

theorem refl (h : node.Sound) : Keeps now ended node node :=
  ⟨h, fun _ _ _ => id⟩

theorem trans (h : Keeps now ended node node') (h' : Keeps now ended node' node'') :
    Keeps now ended node node'' :=
  ⟨h'.sound, fun window he ho hf => h'.forwards window he ho (h.forwards window he ho hf)⟩

theorem congr (h : Keeps now ended node node') (hs : node''.activeMigration = node'.activeMigration)
    (hf : node''.flags = node'.flags) : Keeps now ended node node'' where
  sound := by
    refine ⟨fun active ha => ?_, fun active ha hc hu => ?_, fun active ha => ?_⟩
    · rw [hf]
      exact h.sound.distinct active (hs ▸ ha)
    · rw [flag_congr hf]
      exact h.sound.unrevoked active (hs ▸ ha) hc hu
    · exact h.sound.handoff active (hs ▸ ha)
  forwards window he ho hw := by
    obtain ⟨active, ha, hw, hr⟩ := h.forwards window he ho hw
    exact ⟨active, hs.trans ha, hw, (flag_congr hf).trans hr⟩

theorem of_none (hs : node'.activeMigration = none)
    (hw : ∀ window, ¬ended window → window.forwardingOpen now = true → ¬node.Forwards window) :
    Keeps now ended node node' where
  sound := by
    refine ⟨fun active ha => ?_, fun active ha => ?_, fun active ha => ?_⟩
    · cases hs.symm.trans ha
    · cases hs.symm.trans ha
    · cases hs.symm.trans ha
  forwards window he ho hf := absurd hf (hw window he ho)

theorem of_reduces (h : node.Sound) (ha : node.activeMigration = some active)
    (hs : node'.activeMigration = some active') (hf : node'.flags = node.flags)
    (hr : active.Reduces active')
    (hu : active'.completedAt.isSome → active'.confirmed = false →
      node.flag active.forwardRevoked = false)
    (hh : active'.confirmed = false → active'.remnant = false)
    (hw : ∀ window, ¬ended window → window.forwardingOpen now = true → active.Owes window →
      active'.Owes window) : Keeps now ended node node' where
  sound := by
    refine ⟨fun active₁ ha₁ => ?_, fun active₁ ha₁ hc₁ hu₁ => ?_, fun active₁ ha₁ => ?_⟩
    · cases hs.symm.trans ha₁
      rw [hf]
      exact (h.distinct active ha).reduces hr
    · cases hs.symm.trans ha₁
      rw [flag_congr hf, hr.revoked]
      exact hu hc₁ hu₁
    · cases hs.symm.trans ha₁
      exact hh
  forwards window he ho := by
    rintro ⟨active₁, ha₁, ho₁, hf₁⟩
    cases ha.symm.trans ha₁
    exact ⟨active', hs, hw window he ho ho₁, (flag_congr hf).trans hf₁⟩

end Keeps

-- No window that is left depends on the flag.
def Unused (now : Instant) (ended : LingeringForward → Prop) (node : NodeContext) (ptr : Nat) :
    Prop :=
  ∀ active, node.activeMigration = some active →
    (active.completedAt.isSome → active.confirmed = false → active.forwardRevoked ≠ ptr) ∧
    ∀ window, ¬ended window → window.forwardingOpen now = true → active.Owes window →
      window.forwardRevoked ≠ ptr

theorem Keeps.raise (h : node.Sound) (hp : node.Unused now ended ptr) :
    Keeps now ended node (node.raise ptr) where
  sound := by
    refine ⟨fun active ha => ?_, fun active ha hc hf => ?_, h.handoff⟩
    · have hl : (node.raise ptr).flags.length = node.flags.length := List.length_set ..
      rw [hl]
      exact h.distinct active ha
    · rw [flag_raise_of_ne ((hp active ha).1 hc hf)]
      exact h.unrevoked active ha hc hf
  forwards window he ho := by
    rintro ⟨active, ha, hm, hr⟩
    exact ⟨active, ha, hm, (flag_raise_of_ne ((hp active ha).2 window he ho hm)).trans hr⟩

theorem Keeps.raiseAll (h : node.Sound) (hp : ∀ ptr ∈ ptrs, node.Unused now ended ptr) :
    Keeps now ended node (node.raiseAll ptrs) := by
  induction ptrs generalizing node
  case nil => exact .refl h
  case cons ptr ptrs hi =>
    have hk : Keeps now ended node (node.raise ptr) := .raise h (hp ptr List.mem_cons_self)
    exact hk.trans (hi hk.sound fun ptr' hm => hp ptr' (List.mem_cons_of_mem _ hm))

theorem raiseAll_flags :
    (node.raiseAll ptrs).flags = ptrs.foldl (fun flags ptr => flags.set ptr true) node.flags := by
  induction ptrs generalizing node
  case nil              => rfl
  case cons ptr ptrs hi => exact hi

section Take

-- What remains of a slot that was taken: nothing, or the lingering windows that are open.
def Remains (now : Instant) (active : ActiveMigration) (node : NodeContext) : Prop :=
  node.activeMigration = none ∧ active.lingering.filter (·.forwardingOpen now) = [] ∨
  ∃ afterRing, node.activeMigration =
    some (active.asRemnant now afterRing (active.lingering.filter (·.forwardingOpen now)))

-- The flags that are raised when a slot is taken.
def Expendable (now : Instant) (active : ActiveMigration) (ptr : Nat) : Prop :=
  ptr = active.abortRequested ∨ ptr = active.forwardRevoked ∨
  ∃ lingering ∈ active.lingering, lingering.forwardingOpen now = false ∧
    lingering.forwardRevoked = ptr

theorem Expendable.ne_revoked {allocated : Nat} (h : Expendable now active ptr)
    (hd : active.Distinct allocated) (hm : window ∈ active.lingering)
    (ho : window.forwardingOpen now = true) : window.forwardRevoked ≠ ptr := by
  have hd := hd.flags
  simp only [ActiveMigration.flags, List.nodup_cons, List.mem_cons, not_or] at hd
  obtain ⟨⟨_, ha⟩, hr, hd⟩ := hd
  have hm' := List.mem_map_of_mem (f := LingeringForward.forwardRevoked) hm
  rintro rfl
  rcases h with he | he | ⟨lingering, hl, hc, he⟩
  · exact ha (he ▸ hm')
  · exact hr (he ▸ hm')
  · rw [List.inj_on_of_nodup_map hd hl hm he, ho] at hc
    contradiction

-- The slot's own window is not owed.
def Unowed (now : Instant) (ended : LingeringForward → Prop) (active : ActiveMigration) : Prop :=
  ∀ window, ¬ended window → window.forwardingOpen now = true → active.window = some window →
    active.confirmed = true → active.remnant = true

theorem Keeps.take (h : node.Sound) (ha : node.activeMigration = some active)
    (hw : Unowed now ended active)
    (hs : Remains now active node') (hf : node'.flags = (node.raiseAll ptrs).flags)
    (hp : ∀ ptr ∈ ptrs, Expendable now active ptr) : Keeps now ended node node' := by
  have hl {window : LingeringForward} (he : ¬ended window)
      (ho : window.forwardingOpen now = true) (hm : active.Owes window) :
      window ∈ active.lingering.filter (·.forwardingOpen now) := by
    rcases hm with ⟨hw', hc, hr⟩ | hm
    · rw [hw window he ho hw' hc] at hr
      contradiction
    · exact List.mem_filter.mpr ⟨hm, ho⟩
  rcases hs with ⟨hs, hn⟩ | ⟨afterRing, hs⟩
  · refine .of_none hs fun window he ho => ?_
    rintro ⟨active', ha', hm, _⟩
    cases ha.symm.trans ha'
    have := hl he ho hm
    rw [hn] at this
    contradiction
  · let remnant := active.asRemnant now afterRing (active.lingering.filter (·.forwardingOpen now))
    have hk : Keeps now ended node { node with activeMigration := some remnant } :=
      .of_reduces h ha rfl rfl ⟨rfl, rfl, rfl, List.filter_sublist⟩ (fun _ hc => by cases hc)
        (fun hc => by cases hc) fun window he ho hm => .inr (hl he ho hm)
    have hk' : Keeps now ended { node with activeMigration := some remnant }
        ({ node with activeMigration := some remnant }.raiseAll ptrs) := by
      refine .raiseAll hk.sound fun ptr hm active' ha' => ?_
      cases ha'
      refine ⟨fun _ hc => ?_, fun window he ho hw => ?_⟩
      · cases hc
      · rcases hw with ⟨_, _, hr⟩ | hw
        · cases hr
        · exact (hp ptr hm).ne_revoked (h.distinct active ha) (List.mem_of_mem_filter hw) ho
    refine (hk.trans hk').congr ?_ ?_
    · rw [hs, raiseAll_activeMigration]
    · rw [hf, raiseAll_flags, raiseAll_flags]

theorem remains_takeSlot (ha : node.activeMigration = some active) :
    Remains now active (node.takeSlotKeepingLingering now).2 := by
  unfold takeSlotKeepingLingering keepLingering
  rw [ha]
  dsimp only
  split
  case isTrue hn  => exact .inl ⟨raiseAll_activeMigration _, List.isEmpty_iff.mp hn⟩
  case isFalse    => exact .inr ⟨_, rfl⟩

theorem takeSlot_flags (ha : node.activeMigration = some active) :
    (node.takeSlotKeepingLingering now).2.flags = (node.raiseAll
      ((active.lingering.filter fun l => !l.forwardingOpen now).map (·.forwardRevoked))).flags := by
  unfold takeSlotKeepingLingering keepLingering
  rw [ha]
  dsimp only
  split
  case isTrue  => rw [raiseAll_flags, raiseAll_flags]
  case isFalse =>
    dsimp only [allocRing]
    rw [raiseAll_flags, raiseAll_flags]

theorem expendable_closed
    (h : ptr ∈ (active.lingering.filter fun l => !l.forwardingOpen now).map (·.forwardRevoked)) :
    Expendable now active ptr := by
  obtain ⟨lingering, hm, he⟩ := List.mem_map.mp h
  obtain ⟨hm, ho⟩ := List.mem_filter.mp hm
  exact .inr (.inr ⟨lingering, hm, (Bool.not_eq_true' _).mp ho, he⟩)

theorem unused_abort (h : node.Sound) (ha : node.activeMigration = some active) :
    node.Unused now ended active.abortRequested := by
  intro active' ha'
  cases ha.symm.trans ha'
  have hn := (List.nodup_cons.mp (h.distinct active ha).flags).1
  refine ⟨fun _ _ he => hn (he ▸ List.mem_cons_self), fun window _ _ hw he => ?_⟩
  exact hn (he ▸ hw.mem_flags)

theorem unused_revoked (h : node.Sound) (ha : node.activeMigration = some active)
    (hc : active.completedAt.isSome → active.confirmed = true) (hw : Unowed now ended active) :
    node.Unused now ended active.forwardRevoked := by
  intro active' ha'
  cases ha.symm.trans ha'
  refine ⟨fun hs hu => ?_, fun window he ho hm => ?_⟩
  · rw [hc hs] at hu
    contradiction
  · rcases hm with ⟨hw', hc', hr⟩ | hm
    · rw [hw window he ho hw' hc'] at hr
      contradiction
    · exact Expendable.ne_revoked (.inr (.inl rfl)) (h.distinct active ha) hm ho

theorem endHandoff_of_some (ha : node.activeMigration = some active) :
    node.endHandoff now = (node.takeSlotKeepingLingering now).2.raise active.forwardRevoked := by
  have ht := @takeSlot_of_some node now active ha
  unfold endHandoff
  split
  case h_1 he =>
    rw [he] at ht
    contradiction
  case h_2 he =>
    rw [he] at ht ⊢
    cases ht
    rfl

theorem Keeps.endHandoff (h : node.Sound)
    (hw : ∀ active, node.activeMigration = some active → Unowed now ended active) :
    Keeps now ended node (node.endHandoff now) := by
  cases ha : node.activeMigration
  case none =>
    refine (refl h).congr ?_ ?_
    · simp [NodeContext.endHandoff, takeSlotKeepingLingering, ha]
    · simp [NodeContext.endHandoff, takeSlotKeepingLingering, ha]
  case some active =>
    let closed := (active.lingering.filter fun l => !l.forwardingOpen now).map (·.forwardRevoked)
    rw [endHandoff_of_some ha]
    refine @Keeps.take _ _ _ _ _ (closed ++ [active.forwardRevoked]) h ha
      (hw active ha) (remains_takeSlot ha) ?_ fun ptr hm => ?_
    · rw [raiseAll_flags, List.foldl_append, ← raiseAll_flags, ← takeSlot_flags ha]
      rfl
    · rcases List.mem_append.mp hm with hm | hm
      · exact expendable_closed hm
      · exact .inr (.inl (List.mem_singleton.mp hm))

theorem Keeps.takeAbandonedSlot {isMatch : ActiveMigration → Bool} (h : node.Sound)
    (hw : ∀ active, node.activeMigration = some active → isMatch active = true →
      Unowed now ended active) :
    Keeps now ended node (node.takeAbandonedSlot now isMatch).2 := by
  unfold NodeContext.takeAbandonedSlot
  split
  case h_1 => exact .refl h
  case h_2 active ha =>
    split
    case isFalse   => exact .refl h
    case isTrue hm =>
      dsimp only
      split
      case isTrue hc =>
        have hc := Option.isNone_iff_eq_none.mp hc
        have hk : Keeps now ended node (node.raise active.abortRequested) :=
          .raise h (unused_abort h ha)
        refine hk.trans (.raise hk.sound
          (unused_revoked hk.sound ha (fun hs => ?_) (hw active ha hm)))
        rw [hc] at hs
        contradiction
      case isFalse =>
        let closed := (active.lingering.filter fun l => !l.forwardingOpen now).map (·.forwardRevoked)
        refine @Keeps.take _ _ _ _ _ (active.abortRequested :: active.forwardRevoked :: closed) h ha
          (hw active ha hm) (remains_takeSlot ha) (takeSlot_flags ha) ?_
        intro ptr hp
        rcases List.mem_cons.mp hp with rfl | hp
        · exact .inl rfl
        · rcases List.mem_cons.mp hp with rfl | hp
          · exact .inr (.inl rfl)
          · exact expendable_closed hp

@[simp]
theorem revertKnownRing_activeMigration {afterRing : SharedRing}
    {preCompletionRing : Option Membership} :
    (node.revertKnownRing afterRing preCompletionRing).activeMigration = node.activeMigration := by
  unfold revertKnownRing
  split <;> rfl

@[simp]
theorem revertKnownRing_flags {afterRing : SharedRing} {preCompletionRing : Option Membership} :
    (node.revertKnownRing afterRing preCompletionRing).flags = node.flags := by
  unfold revertKnownRing
  split <;> rfl

theorem Keeps.abandonMigration {joiningName : Bytes} (h : node.Sound)
    (hw : ∀ active, node.activeMigration = some active → active.joiningName = joiningName →
      Unowed now ended active) :
    Keeps now ended node (node.abandonMigration now joiningName).2 := by
  have hk : Keeps now ended node
      (node.takeAbandonedSlot now fun active => active.joiningName = joiningName).2 :=
    .takeAbandonedSlot h fun active ha hm => hw active ha (of_decide_eq_true hm)
  unfold NodeContext.abandonMigration
  split
  case h_1 he => rw [he] at hk; exact hk
  case h_2 he => rw [he] at hk; exact hk
  case h_3 he =>
    rw [he] at hk
    exact hk.congr revertKnownRing_activeMigration revertKnownRing_flags

theorem Keeps.abandonDepartedSlot {identity : Nat} (h : node.Sound)
    (hw : ∀ active, node.activeMigration = some active → active.forwardRevoked = identity →
      Unowed now ended active) :
    Keeps now ended node (node.abandonDepartedSlot now identity).2 := by
  unfold NodeContext.abandonDepartedSlot
  dsimp only
  have hk : Keeps now ended node (node.takeAbandonedSlot now fun active =>
      active.forwardRevoked = identity && active.completedAt.isSome && !active.remnant).2 := by
    refine .takeAbandonedSlot h fun active ha hm => hw active ha ?_
    simp only [Bool.and_eq_true, decide_eq_true_eq] at hm
    exact hm.1.1
  split
  case h_1 he =>
    rw [he] at hk
    exact hk.congr revertKnownRing_activeMigration revertKnownRing_flags
  case h_2 he => rw [he] at hk; exact hk

end Take

section Slot

theorem Keeps.of_map {f : ActiveMigration → ActiveMigration} (h : node.Sound)
    (hs : node'.activeMigration = node.activeMigration.map f) (hf : node'.flags = node.flags)
    (hr : ∀ active : ActiveMigration, active.Reduces (f active))
    (hw : ∀ active, (f active).window = active.window)
    (hc : ∀ active, (f active).confirmed = active.confirmed)
    (hm : ∀ active, (f active).remnant = active.remnant)
    (hl : ∀ active window, window.forwardingOpen now = true → window ∈ active.lingering →
      window ∈ (f active).lingering) : Keeps now ended node node' := by
  cases ha : node.activeMigration
  case none =>
    rw [ha] at hs
    exact (refl h).congr (hs.trans ha.symm) hf
  case some active =>
    rw [ha] at hs
    refine .of_reduces h ha hs hf (hr active) (fun hs hu => ?_) (fun hu => ?_)
      fun window _ ho hw' => ?_
    · refine h.unrevoked active ha ?_ ((hc active).symm.trans hu)
      have hw := congrArg Option.isSome (hw active)
      simp only [ActiveMigration.window, Option.isSome_map] at hw
      rwa [← hw]
    · exact (hm active).trans (h.handoff active ha ((hc active).symm.trans hu))
    · rcases hw' with ⟨hw', hc', hr'⟩ | hm'
      · exact .inl ⟨(hw active).trans hw', (hc active).trans hc', (hm active).trans hr'⟩
      · exact .inr (hl active window ho hm')

theorem not_expired_of_owes (hw : active.Owes window) (ho : window.forwardingOpen now = true) :
    active.expired now = false := by
  rcases hw with ⟨hw, _, _⟩ | hm
  · simp [ActiveMigration.expired, (ActiveMigration.window_eq_some hw).2.2.2.2 now, ho]
  · have : (active.lingering.all fun l => !l.forwardingOpen now) = false := by
      rw [List.all_eq_false]
      exact ⟨window, hm, by simp [ho]⟩
    simp [ActiveMigration.expired, this]

theorem Keeps.clearExpired (h : node.Sound) : Keeps now ended node (node.clearExpired now) := by
  unfold NodeContext.clearExpired
  split
  case isFalse   => exact .refl h
  case isTrue he =>
    refine .of_none rfl fun window _ ho => ?_
    rintro ⟨active, ha, hw, _⟩
    rw [ha, Option.any_some, not_expired_of_owes hw ho] at he
    contradiction

theorem Keeps.retainLingering (h : node.Sound) :
    Keeps now ended node (node.retainLingering now) :=
  .of_map h rfl rfl (fun _ => ⟨rfl, rfl, rfl, List.filter_sublist⟩) (fun _ => rfl) (fun _ => rfl)
    (fun _ => rfl) fun _ _ ho hm => List.mem_filter.mpr ⟨hm, ho⟩

theorem Keeps.joinTook {key : Key} {keyHash : UInt64} (h : node.Sound) :
    Keeps now ended node (node.joinTook now key keyHash).2 := by
  have hk : Keeps now ended node (node.clearExpired now) := .clearExpired h
  unfold NodeContext.joinTook
  dsimp only
  generalize node.clearExpired now = node at hk ⊢
  refine hk.trans ?_
  have h := hk.sound
  split
  case h_1 => exact .refl h
  case h_2 active ha =>
    split
    · exact .refl h
    · split
      · exact .refl h
      · split
        · exact .of_map (f := fun active => { active with markedKeys := active.markedKeys ++ [key] })
            h (by rw [ha]; rfl) rfl (fun _ => ⟨rfl, rfl, rfl, .refl _⟩) (fun _ => rfl)
            (fun _ => rfl) (fun _ => rfl) fun _ _ _ => id
        · exact .refl h

theorem Keeps.routeClear {scope : ClearScope} (h : node.Sound) :
    Keeps now ended node (node.routeClear now scope) := by
  have hk : Keeps now ended node (node.clearExpired now) := .clearExpired h
  refine hk.trans (.of_map hk.sound rfl rfl ?_ ?_ ?_ ?_ ?_)
  · intro active
    split <;> exact ⟨rfl, rfl, rfl, .refl _⟩
  · intro active
    split <;> rfl
  · intro active
    split <;> rfl
  · intro active
    split <;> rfl
  · intro active window _ hm
    split <;> exact hm

theorem Keeps.takePendingClears (h : node.Sound) : Keeps now ended node node.takePendingClears.2 := by
  unfold NodeContext.takePendingClears
  split
  case h_1 => exact .refl h
  case h_2 active ha =>
    exact .of_map (f := fun active => { active with pendingClears := .empty }) h (by rw [ha]; rfl) rfl
      (fun _ => ⟨rfl, rfl, rfl, .refl _⟩) (fun _ => rfl) (fun _ => rfl) (fun _ => rfl)
      fun _ _ _ => id

theorem Keeps.requestAbort (h : node.Sound) : Keeps now ended node node.requestAbort := by
  unfold NodeContext.requestAbort
  split
  case h_1           => exact .refl h
  case h_2 active ha => exact .raise h (unused_abort h ha)

theorem Keeps.migrationTargetsForHashed {keyHash : UInt64} (h : node.Sound) :
    Keeps now ended node (node.migrationTargetsForHashed now keyHash).2 := by
  have hk : Keeps now ended node (node.clearExpired now) := .clearExpired h
  have hk : Keeps now ended node ((node.clearExpired now).retainLingering now) :=
    hk.trans (.retainLingering hk.sound)
  unfold NodeContext.migrationTargetsForHashed
  dsimp only
  split <;> exact hk

end Slot

section Adopt

variable {members : List Bytes} {replication : Nat}

-- A roster ends the windows of all joiners that are not listed.
def Unlisted (members : List Bytes) (window : LingeringForward) : Prop :=
  window.joiningName ∉ members

theorem Keeps.confirm {joinerListed : Bool} (h : node.Sound)
    (ha : node.activeMigration = some active) :
    Keeps now ended node { node with activeMigration := some (active.confirm joinerListed) } := by
  refine .of_reduces h ha rfl rfl ⟨rfl, rfl, rfl, .refl _⟩ (fun hc hu => ?_) (fun hu => ?_)
    fun window _ _ hw => ?_
  · exact h.unrevoked active ha hc (Bool.or_eq_false_iff.mp hu).1
  · exact h.handoff active ha (Bool.or_eq_false_iff.mp hu).1
  · rcases hw with ⟨hw, hc, hr⟩ | hm
    · exact .inl ⟨hw, Bool.or_eq_true_iff.mpr (.inl hc), hr⟩
    · exact .inr hm

theorem Keeps.judgeSlot (h : node.Sound) :
    Keeps now (Unlisted members) node (node.judgeSlot now members).2 := by
  unfold NodeContext.judgeSlot
  split
  case h_1           => exact .refl h
  case h_2 active ha =>
    dsimp only
    have hk : Keeps now (Unlisted members) node { node with
        activeMigration := some (active.confirm (decide (active.joiningName ∈ members))) } :=
      .confirm h ha
    split
    case isFalse    => exact hk
    case isTrue hg =>
      obtain ⟨hc, hl⟩ := Bool.and_eq_true_iff.mp hg
      refine hk.trans (.raise hk.sound (unused_revoked hk.sound rfl (fun _ => hc) ?_))
      intro window he _ hw _
      have hn : active.joiningName = window.joiningName := (ActiveMigration.window_eq_some hw).1
      rw [hn, Bool.not_eq_true', decide_eq_false_iff_not] at hl
      exact absurd hl he

-- The joiner of the slot is listed, so that its window begins to count.
theorem forwards_judgeSlot (h : node.Sound) (ha : node.activeMigration = some active)
    (hc : active.confirmed = false) (hw : active.window = some window) (hm : window.joiningName ∈ members) :
    (node.judgeSlot now members).2.Forwards window := by
  obtain ⟨hn, hs, hf, _⟩ := ActiveMigration.window_eq_some hw
  have hl : decide (active.joiningName ∈ members) = true := by rwa [hn, decide_eq_true_iff]
  have hj : (node.judgeSlot now members).2 =
      { node with activeMigration := some (active.confirm true) } := by
    unfold NodeContext.judgeSlot
    rw [ha]
    simp [hl]
  rw [hj]
  refine ⟨_, rfl, .inl ⟨hw, ?_, h.handoff active ha hc⟩,
    hf ▸ h.unrevoked active ha (by rw [hs]; rfl) hc⟩
  simp [ActiveMigration.confirm, hs]

theorem Keeps.evictLingering (h : node.Sound) :
    Keeps now (Unlisted members) node (node.evictLingering members) := by
  unfold NodeContext.evictLingering
  split
  case h_1           => exact .refl h
  case h_2 active ha =>
    dsimp only
    let kept := active.lingering.filter fun lingering => lingering.joiningName ∈ members
    have hk : Keeps now (Unlisted members) node
        { node with activeMigration := some { active with lingering := kept } } := by
      refine .of_reduces h ha rfl rfl ⟨rfl, rfl, rfl, List.filter_sublist⟩
        (h.unrevoked active ha) (h.handoff active ha) fun window he _ hw => ?_
      rcases hw with hw | hm
      · exact .inl hw
      · exact .inr (List.mem_filter.mpr ⟨hm, decide_eq_true (not_not.mp he)⟩)
    have hd := (h.distinct active ha).flags
    simp only [ActiveMigration.flags, List.nodup_cons, List.mem_cons, not_or] at hd
    obtain ⟨_, hr, hd⟩ := hd
    refine hk.trans (.raiseAll hk.sound fun ptr hp active' ha' => ?_)
    cases ha'
    obtain ⟨gone, hg, rfl⟩ := List.mem_map.mp hp
    obtain ⟨hg, hn⟩ := List.mem_filter.mp hg
    have hrg : active.forwardRevoked ≠ gone.forwardRevoked := by
      intro he
      exact hr (he ▸ List.mem_map_of_mem hg)
    refine ⟨fun _ _ => hrg, fun window he _ hw => ?_⟩
    rcases hw with ⟨hw, _⟩ | hm
    · have hf : active.forwardRevoked = window.forwardRevoked :=
        (ActiveMigration.window_eq_some hw).2.2.1
      exact hf ▸ hrg
    · intro hf
      rw [← List.inj_on_of_nodup_map hd (List.mem_of_mem_filter hm) hg hf] at hn
      exact absurd (of_decide_eq_true hn) he

theorem unlisted_of_judgeSlot (h : (node.judgeSlot now members).1.2 = true)
    (ha : (node.judgeSlot now members).2.activeMigration = some active) :
    active.joiningName ∉ members := by
  unfold NodeContext.judgeSlot at h ha
  cases hn : node.activeMigration
  case none => simp [hn] at h
  case some active' =>
    rw [hn] at h ha
    have hl := (Bool.and_eq_true_iff.mp (Bool.and_eq_true_iff.mp h).left).right
    have hl := of_decide_eq_false ((Bool.not_eq_true' _).mp hl)
    dsimp only at ha
    split at ha <;> (cases ha; exact hl)

theorem joiningName_evictLingering (ha : (node.evictLingering members).activeMigration = some active) :
    ∃ active', node.activeMigration = some active' ∧ active.joiningName = active'.joiningName := by
  unfold NodeContext.evictLingering at ha
  split at ha
  case h_1 hn => cases hn.symm.trans ha
  case h_2 active' ha' =>
    rw [raiseAll_activeMigration] at ha
    cases ha
    exact ⟨active', ha', rfl⟩

-- What a roster does after it has decided the join in the slot.
theorem keeps_adoptMembership (h : node.Sound) :
    Keeps now (Unlisted members) (node.judgeSlot now members).2
      (node.adoptMembership now members replication).2 := by
  have hj : Keeps now (Unlisted members) node (node.judgeSlot now members).2 := .judgeSlot h
  have hk : Keeps now (Unlisted members) (node.judgeSlot now members).2
      ((node.judgeSlot now members).2.evictLingering members) := .evictLingering hj.sound
  unfold NodeContext.adoptMembership
  dsimp only
  have hk' : Keeps now (Unlisted members) (node.judgeSlot now members).2
      (if (node.judgeSlot now members).1.2 = true then
        ((node.judgeSlot now members).2.evictLingering members).endHandoff now else
        (node.judgeSlot now members).2.evictLingering members) := by
    split
    case isFalse   => exact hk
    case isTrue he =>
      refine hk.trans (.endHandoff hk.sound fun active ha window hu _ hw _ => ?_)
      obtain ⟨active', ha', hn⟩ := joiningName_evictLingering ha
      have hl := unlisted_of_judgeSlot he ha'
      rw [← hn, (ActiveMigration.window_eq_some hw).1] at hl
      exact absurd hl hu
  generalize (if (node.judgeSlot now members).1.2 = true then _ else _) = node' at hk' ⊢
  split
  · exact hk'
  · split
    · exact hk'
    · exact hk'.congr rfl rfl

end Adopt

theorem clearExpired_eq_some (h : (node.clearExpired now).activeMigration = some active) :
    node.activeMigration = some active := by
  unfold clearExpired at h
  split at h
  case isTrue  => contradiction
  case isFalse => exact h

theorem clearExpired_of_unconfirmed (ha : node.activeMigration = some active)
    (hc : active.confirmed = false) : node.clearExpired now = node := by
  simp [clearExpired, ha, ActiveMigration.expired, hc]

end NodeContext

end Nanocached
