import Nanocached.Handoff.Keeps

namespace Nanocached

namespace MigrationGuard

open NodeContext

variable {node : NodeContext} {now : Instant} {migrate : Migrate} {afterRing : SharedRing}
         {existing : ActiveMigration} {lingering : List LingeringForward}
         {ended : LingeringForward → Prop}
         {window : LingeringForward} {previousConfirmed : Bool}

theorem flag_occupy {ptr : Nat} (h : ptr < node.flags.length) :
    (occupy node migrate afterRing lingering).2.flag ptr = node.flag ptr := by
  simp [NodeContext.flag, occupy, List.getElem?_append_left h]

theorem sound_occupy (hn : (migrate.joiningName :: lingering.map (·.joiningName)).Nodup)
    (hf : (lingering.map (·.forwardRevoked)).Nodup)
    (hb : ∀ window ∈ lingering, window.forwardRevoked < node.flags.length) :
    (occupy node migrate afterRing lingering).2.Sound := by
  have hb : ∀ ptr ∈ lingering.map (·.forwardRevoked), ptr < node.flags.length := by
    intro ptr hp
    obtain ⟨window, hm, rfl⟩ := List.mem_map.mp hp
    exact hb window hm
  have hl : (occupy node migrate afterRing lingering).2.flags.length = node.flags.length + 2 :=
    List.length_append
  refine ⟨fun active ha => ⟨?_, ?_, fun ptr hp => ?_⟩, fun active ha hc => ?_, fun active ha _ => ?_⟩
  · cases ha
    exact hn
  · cases ha
    refine List.nodup_cons.mpr ⟨fun hm => ?_, List.nodup_cons.mpr ⟨fun hm => ?_, hf⟩⟩
    · rcases List.mem_cons.mp hm with he | hm
      · exact Nat.ne_of_lt (Nat.lt_succ_self _) he
      · exact Nat.lt_irrefl _ (hb _ hm)
    · exact Nat.not_succ_le_self _ (Nat.lt_of_succ_lt (hb _ hm))
  · cases ha
    rw [hl]
    rcases List.mem_cons.mp hp with rfl | hp
    · exact Nat.lt_add_of_pos_right (by decide)
    · rcases List.mem_cons.mp hp with rfl | hp
      · exact Nat.lt_succ_self _
      · exact (hb ptr hp).trans (Nat.lt_add_of_pos_right (by decide))
  · cases ha
    contradiction
  · cases ha
    rfl

-- Whether the window of the handoff in the slot begins to linger.
def lingers (now : Instant) (migrate : Migrate) (existing : ActiveMigration)
    (previousConfirmed : Bool) : Bool :=
  previousConfirmed && existing.joiningName ≠ migrate.joiningName && existing.forwardingOpen now

theorem takeOverLingering_eq (hw : existing.window = some window) :
    takeOverLingering node now migrate existing previousConfirmed =
      if lingers now migrate existing previousConfirmed then
        (existing.lingering.filter (·.forwardingOpen now) ++ [window],
          (node.keepLingering now existing.lingering).2)
      else
        (existing.lingering.filter (·.forwardingOpen now),
          (node.keepLingering now existing.lingering).2.raise existing.forwardRevoked) := by
  obtain ⟨completedAt, hc, rfl⟩ := Option.map_eq_some_iff.mp hw
  unfold takeOverLingering
  rw [hc]
  rfl

theorem mem_takeOverLingering (hw : existing.window = some window) {window' : LingeringForward} :
    window' ∈ (takeOverLingering node now migrate existing previousConfirmed).1 ↔
      window' ∈ existing.lingering ∧ window'.forwardingOpen now = true ∨
      window' = window ∧ lingers now migrate existing previousConfirmed = true := by
  rw [takeOverLingering_eq hw]
  split
  case isTrue hl => simp [hl]
  case isFalse hl => simp [hl]

theorem nodup_takeOverLingering {β : Type} {f : LingeringForward → β}
    (hw : existing.window = some window) (hn : (f window :: existing.lingering.map f).Nodup) :
    ((takeOverLingering node now migrate existing previousConfirmed).1.map f).Nodup := by
  have hs : (existing.lingering.filter (·.forwardingOpen now)).map f |>.Sublist
      (existing.lingering.map f) := List.filter_sublist.map f
  rw [takeOverLingering_eq hw]
  split
  case isFalse => exact (List.nodup_cons.mp hn).2.sublist hs
  case isTrue  =>
    rw [List.map_append, List.nodup_append_comm]
    exact hn.sublist (hs.cons_cons _)

theorem flag_takeOverLingering {allocated : Nat} (hw : existing.window = some window)
    (hd : existing.Distinct allocated) {window' : LingeringForward}
    (hm : window' ∈ (takeOverLingering node now migrate existing previousConfirmed).1) :
    (takeOverLingering node now migrate existing previousConfirmed).2.flag window'.forwardRevoked =
      node.flag window'.forwardRevoked := by
  have hr : existing.forwardRevoked = window.forwardRevoked :=
    (ActiveMigration.window_eq_some hw).2.2.1
  have hne (hm : window' ∈ existing.lingering) (ho : window'.forwardingOpen now = true) :
      window'.forwardRevoked ≠ existing.forwardRevoked :=
    Expendable.ne_revoked (.inr (.inl rfl)) hd hm ho
  have hnm : window'.forwardRevoked ∉ (existing.lingering.filter fun l =>
      !l.forwardingOpen now).map (·.forwardRevoked) := by
    intro hc
    rcases (mem_takeOverLingering hw).mp hm with ⟨hm, ho⟩ | ⟨rfl, _⟩
    · exact (expendable_closed hc).ne_revoked hd hm ho rfl
    · have hf := (List.nodup_cons.mp (List.nodup_cons.mp hd.flags).2).1
      exact hf (hr ▸ (List.filter_sublist.map _).subset hc)
  have hk : (node.keepLingering now existing.lingering).2.flag window'.forwardRevoked =
      node.flag window'.forwardRevoked := flag_raiseAll_of_notMem hnm
  have hm := (mem_takeOverLingering hw).mp hm
  rw [takeOverLingering_eq hw]
  split
  case isTrue     => exact hk
  case isFalse hl =>
    rcases hm with ⟨hm, ho⟩ | ⟨_, hl'⟩
    · exact (flag_raise_of_ne (hne hm ho)).trans hk
    · exact absurd hl' hl

-- A handoff that is completed makes room for the next one, which takes over all windows that are
-- still owed.
theorem supersede (afterRing : SharedRing) (h : node.Sound) (ha : node.activeMigration = some existing)
    (hw : existing.window = some window)
    (ho : ∀ window ∈ existing.lingering, window.forwardingOpen now = true →
      window.joiningName ≠ migrate.joiningName)
    {taken : List LingeringForward × NodeContext}
    (ht : takeOverLingering node now migrate existing previousConfirmed = taken) :
    (occupy taken.2 migrate afterRing taken.1).2.Sound ∧
    ∀ window' ∈ taken.1, node.flag window'.forwardRevoked = false →
      (occupy taken.2 migrate afterRing taken.1).2.Forwards window' := by
  subst ht
  obtain ⟨hn, _, hr, _⟩ := ActiveMigration.window_eq_some hw
  have hd := h.distinct existing ha
  have hb : ∀ window' ∈ (takeOverLingering node now migrate existing previousConfirmed).1,
      window'.forwardRevoked <
        (takeOverLingering node now migrate existing previousConfirmed).2.flags.length := by
    intro window' hm
    rw [length_takeOverLingering]
    rcases (mem_takeOverLingering hw).mp hm with ⟨hm, _⟩ | ⟨rfl, _⟩
    · exact hd.bound _ (List.mem_cons_of_mem _ (List.mem_cons_of_mem _ (List.mem_map_of_mem hm)))
    · exact hd.bound _ (hr ▸ List.mem_cons_of_mem _ List.mem_cons_self)
  refine ⟨sound_occupy (List.nodup_cons.mpr ⟨fun hm => ?_, ?_⟩) ?_ hb, fun window' hm hf => ?_⟩
  · obtain ⟨window', hm, he⟩ := List.mem_map.mp hm
    rcases (mem_takeOverLingering hw).mp hm with ⟨hm, hl⟩ | ⟨rfl, hl⟩
    · exact ho window' hm hl he
    · simp only [lingers, Bool.and_eq_true, decide_eq_true_eq] at hl
      exact hl.1.2 (hn.trans he)
  · exact nodup_takeOverLingering hw (hn ▸ hd.names)
  · exact nodup_takeOverLingering hw (hr ▸ (List.nodup_cons.mp hd.flags).2)
  · refine ⟨_, rfl, .inr hm, ?_⟩
    rw [flag_occupy (hb window' hm), flag_takeOverLingering hw hd hm]
    exact hf

-- An `M` ends the window of the joiner it is for, unless it is a retry.
def Renews (node : NodeContext) (migrate : Migrate) (window : LingeringForward) : Prop :=
  migrate.joiningName = window.joiningName ∧ node.activeMigration.any migrate.retries = false

-- Whether the ring is reverted does not matter for the windows.
theorem superseded_congr {node' : NodeContext}
    (h : Keeps now ended node node') : Keeps now ended node
      (if previousConfirmed then node' else node'.revertKnownRingAfterAbandon existing) := by
  split
  · exact h
  · exact h.congr revertKnownRing_activeMigration revertKnownRing_flags

theorem keeps_new (h : node.Sound)
    (ho : ∀ active, node.activeMigration = some active → ∀ window ∈ active.lingering,
      window.forwardingOpen now = true → window.joiningName ≠ migrate.joiningName) :
    Keeps now (Renews node migrate) node (MigrationGuard.new node now migrate afterRing).2 := by
  have hk : Keeps now (Renews node migrate) node (node.clearExpired now) := .clearExpired h
  have hn := @arrives_new node now migrate afterRing
  have ha' {existing} := @clearExpired_eq_some node now existing
  generalize node.clearExpired now = node₁ at hk hn ha'
  generalize MigrationGuard.new node now migrate afterRing = result at hn ⊢
  cases hn with
  | vacant ha =>
    refine ⟨sound_occupy (by simp) (by simp) (by simp), fun window hr hw hf => ?_⟩
    obtain ⟨active, ha', _⟩ := hk.forwards window hr hw hf
    cases ha.symm.trans ha'
  | refused      => exact hk
  | aborts ha hc =>
    have hk' := hk.trans (.raise hk.sound (unused_abort hk.sound ha))
    refine hk'.trans (.raise hk'.sound (unused_revoked hk'.sound ha (fun hs => ?_)
      fun window _ _ hw _ => ?_))
    · rw [hc] at hs
      contradiction
    · cases hc.symm.trans (ActiveMigration.window_eq_some hw).2.1
  | @supersedes existing previousConfirmed taken ha hr hc hp ht =>
    have ha' := ha' ha
    obtain ⟨own, hw⟩ := Option.isSome_iff_exists.mp (show existing.window.isSome by
      rwa [ActiveMigration.window, Option.isSome_map])
    obtain ⟨hs', hl⟩ := supersede afterRing hk.sound ha hw (ho existing ha') ht
    refine hk.trans (superseded_congr ⟨hs', ?_⟩)
    rintro window he hw' ⟨active, ha₁, hm, hf⟩
    cases ha.symm.trans ha₁
    refine hl window ?_ hf
    rw [← ht, mem_takeOverLingering hw]
    rcases hm with ⟨hw₁, hc, _⟩ | hm
    · cases hw.symm.trans hw₁
      obtain ⟨hn, _, _, _, hopen⟩ := ActiveMigration.window_eq_some hw
      refine .inr ⟨rfl, ?_⟩
      simp only [lingers, ← hp, hc, Bool.true_or, Bool.true_and, hopen, hw', Bool.and_true,
        decide_eq_true_eq]
      intro hname
      refine he ⟨hname.symm.trans hn, ?_⟩
      rwa [ha', Option.any_some]
    · exact .inl ⟨hm, hw'⟩

-- The roster in an `M` lists the joiner of the slot, so that its window begins to count.
theorem forwards_new {active : ActiveMigration} (h : node.Sound)
    (ho : ∀ active, node.activeMigration = some active → ∀ window ∈ active.lingering,
      window.forwardingOpen now = true → window.joiningName ≠ migrate.joiningName)
    (ha : node.activeMigration = some active) (hc : active.confirmed = false)
    (hw : active.window = some window) (hj : migrate.joined.any (·.1 = window.joiningName))
    (hn : window.joiningName ≠ migrate.joiningName) (hw' : window.forwardingOpen now = true) :
    (MigrationGuard.new node now migrate afterRing).2.Forwards window := by
  obtain ⟨hname, hs, hf, _, hopen⟩ := ActiveMigration.window_eq_some hw
  have hx := @arrives_new node now migrate afterRing
  rw [clearExpired_of_unconfirmed ha hc] at hx
  generalize MigrationGuard.new node now migrate afterRing = result at hx ⊢
  cases hx with
  | vacant hn => cases hn.symm.trans ha
  | refused ha' hr =>
    cases ha.symm.trans ha'
    rcases hr with hr | hc
    · simp only [Migrate.retries, Bool.and_eq_true, decide_eq_true_eq] at hr
      exact absurd (hname.symm.trans hr.1.1) hn
    · cases hc.symm.trans hs
  | aborts ha' hc =>
    cases ha.symm.trans ha'
    cases hc.symm.trans hs
  | @supersedes _ previousConfirmed taken ha' _ _ hp ht =>
    cases ha.symm.trans ha'
    obtain ⟨_, hl⟩ := supersede afterRing h ha hw (ho active ha) ht
    have hf := hl window (by
      rw [← ht, mem_takeOverLingering hw]
      refine .inr ⟨rfl, ?_⟩
      simp only [lingers, ← hp, hname, hj, Bool.or_true, Bool.true_and, hopen, hw', Bool.and_true,
        decide_eq_true_eq]
      exact hn) (hf ▸ h.unrevoked active ha (by rw [hs]; rfl) hc)
    dsimp only
    split
    · exact hf
    · obtain ⟨active', ha', hm, hr⟩ := hf
      exact ⟨active', revertKnownRing_activeMigration.trans ha', hm,
        (flag_congr revertKnownRing_flags).trans hr⟩

theorem keeps_ack {entries : Nat} (h : node.Sound) : Keeps now ended node (ack node entries) :=
  .of_map h rfl rfl (fun _ => ⟨rfl, rfl, rfl, .refl _⟩) (fun _ => rfl) (fun _ => rfl) (fun _ => rfl)
    fun _ _ _ => id

theorem keeps_takeJoinMarks {guard : MigrationGuard}
    (h : node.Sound) : Keeps now ended node (guard.takeJoinMarks node).2 := by
  unfold takeJoinMarks
  split
  case h_1 => exact .refl h
  case h_2 active ha =>
    split
    case isFalse => exact .refl h
    case isTrue =>
      exact .of_map (f := fun active => { active with markedKeys := [] }) h (by rw [ha]; rfl) rfl
        (fun _ => ⟨rfl, rfl, rfl, .refl _⟩) (fun _ => rfl) (fun _ => rfl) (fun _ => rfl)
        fun _ _ _ => id

-- A handoff begins to owe a window when it completes, but not before its join is confirmed.
theorem keeps_completed {flag entriesSent : Nat}
    {markedKeys : List Key} {preCompletionRing : Option Membership} (h : node.Sound)
    (hr : node.Runs flag)
    (ho : ∀ active, node.activeMigration = some active → node.flag active.forwardRevoked = false) :
    Keeps now ended node (completed node now entriesSent markedKeys preCompletionRing) := by
  obtain ⟨active, ha, _, hr⟩ := hr
  have hs : (completed node now entriesSent markedKeys preCompletionRing).activeMigration =
      (some active).map _ := congrArg (Option.map _) ha
  refine .of_reduces h ha hs rfl ⟨rfl, rfl, rfl, .refl _⟩ (fun _ _ => ho active ha)
    (fun _ => hr.handoff) fun window _ _ hw => ?_
  rcases hw with ⟨_, hc, _⟩ | hm
  · rw [hr.unconfirmed] at hc
    contradiction
  · exact .inr hm

end MigrationGuard

namespace HandoffSlot

open NodeContext

variable {s s' : HandoffSlot} {now : Instant} {op : Op} {window : LingeringForward}

theorem undecided_eq_some (h : s.undecided = some window) :
    ∃ active, s.node.activeMigration = some active ∧ active.confirmed = false ∧
      active.window = some window := by
  obtain ⟨active, ha, hw⟩ := Option.bind_eq_some_iff.mp h
  obtain ⟨ha, hc⟩ := Option.filter_eq_some_iff.mp ha
  exact ⟨active, ha, (Bool.not_eq_true' _).mp hc, hw⟩

theorem not_honours {active : ActiveMigration} (h : ¬active.Honours now)
    (ho : window.forwardingOpen now = true) (hw : active.window = some window)
    (hc : active.confirmed = true) : active.remnant = true := by
  by_contra hr
  refine h ⟨hc, Bool.not_eq_true _ ▸ hr, ?_⟩
  rw [(ActiveMigration.window_eq_some hw).2.2.2.2, ho]

theorem node_of_migrate {migrate : Migrate} (h : s.exec now (.migrate migrate) = some s') :
    ∃ ring, s'.node = (MigrationGuard.new (s.node.allocRing ring).2 now migrate
      (s.node.allocRing ring).1).2 := by
  refine ⟨(migrationRings s.node.name migrate.joiningName migrate.joined).2, ?_⟩
  simp only [exec] at h
  split at h
  case h_1 he => cases h; rw [he]
  case h_2 he => cases h; rw [he]

-- Whoever completes or drops a guard runs the handoff in the slot.
theorem WF.runs {guard : MigrationGuard} (h : s.WF) (hg : guard ∈ s.guards) :
    s.node.Runs guard.abortRequested := by
  cases h with
  | free hg' _ =>
    rw [hg'] at hg
    contradiction
  | held hg' hr =>
    rw [hg'] at hg
    cases List.mem_singleton.mp hg
    exact hr

theorem keeps_exec (hwf : s.WF) (h : s.node.Sound) (ho : s.Orderly now op)
    (he : s.exec now op = some s') :
    Keeps now (fun window => s.ends op window = true) s.node s'.node := by
  cases op
  case migrate migrate =>
    obtain ⟨ring, hn⟩ := node_of_migrate he
    have hs := (@Keeps.refl s.node now (fun _ => False) h).congr
      (show (s.node.allocRing ring).2.activeMigration = _ from rfl) rfl
    have hk := @MigrationGuard.keeps_new (s.node.allocRing ring).2 now migrate
      (s.node.allocRing ring).1 hs.sound ho
    rw [hn]
    refine ⟨hk.sound, fun window hw hopen hf => hk.forwards window (fun hr => hw ?_) hopen hf⟩
    simp only [ends, Bool.and_eq_true, decide_eq_true_eq, Bool.not_eq_true']
    exact hr
  case ack =>
    obtain ⟨_, ⟨⟩⟩ := Option.ite_none_right_eq_some.mp he
    exact MigrationGuard.keeps_ack h
  case takeJoinMarks =>
    obtain ⟨_, ⟨⟩⟩ := Option.ite_none_right_eq_some.mp he
    exact MigrationGuard.keeps_takeJoinMarks h
  case completed =>
    obtain ⟨hg, ⟨⟩⟩ := Option.ite_none_right_eq_some.mp he
    exact MigrationGuard.keeps_completed h (hwf.runs hg) ho
  case drop =>
    obtain ⟨hg, ⟨⟩⟩ := Option.ite_none_right_eq_some.mp he
    refine Keeps.endHandoff h fun active ha window _ _ hw hc => ?_
    obtain ⟨active', ha', _, hr⟩ := hwf.runs hg
    cases ha.symm.trans ha'
    rw [hr.unconfirmed] at hc
    contradiction
  case cancel joiningName =>
    cases he
    exact .abandonMigration h fun active ha hn window _ hopen hw hc =>
      not_honours (ho active ha hn) hopen hw hc
  case gone identity =>
    cases he
    exact .abandonDepartedSlot h fun active ha hi window _ hopen hw hc =>
      not_honours (ho active ha hi) hopen hw hc
  case adopt members replication =>
    cases he
    have hj : Keeps now (Unlisted members) s.node (s.node.judgeSlot now members).2 := .judgeSlot h
    have hk := hj.trans (@keeps_adoptMembership s.node now members replication h)
    refine ⟨hk.sound, fun window hw => hk.forwards window fun hu => hw (decide_eq_true hu)⟩
  case joinTook          => cases he; exact .joinTook h
  case clearExpired      => cases he; exact .clearExpired h
  case retainLingering   => cases he; exact .retainLingering h
  case routeClear        => cases he; exact .routeClear h
  case takePendingClears => cases he; exact .takePendingClears h
  case requestAbort      => cases he; exact .requestAbort h

theorem forwards_of_confirms (h : s.node.Sound) (ho : s.Orderly now op)
    (he : s.exec now op = some s') (hc : s.confirms op = some window)
    (hopen : window.forwardingOpen now = true) : s'.node.Forwards window := by
  cases op
  case migrate migrate =>
    obtain ⟨hu, hj⟩ := Option.filter_eq_some_iff.mp hc
    obtain ⟨active, ha, hc, hw⟩ := undecided_eq_some hu
    simp only [Bool.and_eq_true, decide_eq_true_eq] at hj
    obtain ⟨ring, hn⟩ := node_of_migrate he
    have hs := (@Keeps.refl s.node now (fun _ => False) h).congr
      (show (s.node.allocRing ring).2.activeMigration = _ from rfl) rfl
    rw [hn]
    exact MigrationGuard.forwards_new hs.sound ho ha hc hw hj.1 hj.2 hopen
  case adopt members replication =>
    cases he
    obtain ⟨hu, hm⟩ := Option.filter_eq_some_iff.mp hc
    obtain ⟨active, ha, hc, hw⟩ := undecided_eq_some hu
    have hm := of_decide_eq_true hm
    exact (keeps_adoptMembership h).forwards window (fun hu => hu hm) hopen
      (forwards_judgeSlot h ha hc hw hm)
  all_goals contradiction

end HandoffSlot

namespace NodeContext

variable {node : NodeContext} {now : Instant} {active : ActiveMigration} {window : LingeringForward}
         {keyHash : UInt64}

theorem migrationTargetsForHashed_node :
    (node.migrationTargetsForHashed now keyHash).2 = (node.clearExpired now).retainLingering now := by
  unfold migrationTargetsForHashed
  dsimp only
  split <;> rfl

theorem Forwards.target_mem (h : node.Forwards window) (ho : window.forwardingOpen now = true)
    (ha : node.activeMigration = some active)
    (hk : active.afterRing.ring.owns keyHash window.joiningName active.replication = true) :
    window.target ∈ (node.migrationTargetsForHashed now keyHash).1 := by
  obtain ⟨active', ha', hw, _⟩ := h
  cases ha.symm.trans ha'
  have hc : node.clearExpired now = node := by
    simp [clearExpired, ha, not_expired_of_owes hw ho]
  unfold migrationTargetsForHashed retainLingering
  rw [hc, ha]
  rcases hw with ⟨hw, _, _⟩ | hm
  · obtain ⟨hn, _, _, ht, hopen⟩ := ActiveMigration.window_eq_some hw
    refine List.mem_append.mpr (.inl ?_)
    have hopen' := (hopen now).trans ho
    unfold ActiveMigration.forwardingOpen at hopen'
    simp only [ActiveMigration.forwardingOpen, hopen', hn, hk, Bool.and_self, if_true]
    exact List.mem_singleton.mpr ht.symm
  · refine List.mem_append.mpr (.inr (List.mem_map_of_mem (List.mem_filter.mpr ⟨?_, hk⟩)))
    exact List.mem_filter.mpr ⟨hm, ho⟩

end NodeContext

namespace Forwarder

open NodeContext

variable {s s' : Forwarder} {now : Instant} {event : Event}

structure Inv (s : Forwarder) : Prop where
  wf    : s.slot.WF
  sound : s.slot.node.Sound
  owed  : ∀ window ∈ s.owed, window.forwardingOpen s.last = true → s.slot.node.Forwards window

theorem Inv.exec (h : s.Inv) (hl : s.last ≤ now) (ho : s.Orderly now event)
    (he : s.exec now event = some s') : s'.Inv := by
  cases event with
  | slot op =>
    obtain ⟨slot, hs, ⟨⟩⟩ := Option.bind_eq_some_iff.mp he
    have hk := HandoffSlot.keeps_exec h.wf h.sound ho hs
    refine ⟨h.wf.exec hs, hk.sound, fun window hm hopen => ?_⟩
    rcases List.mem_append.mp hm with hm | hm
    · obtain ⟨hm, hn⟩ := List.mem_filter.mp hm
      have hf := h.owed window hm (window.forwardingOpen_of_le hl hopen)
      exact hk.forwards window (by simpa using hn) hopen hf
    · exact HandoffSlot.forwards_of_confirms h.sound ho hs (Option.mem_toList.mp hm) hopen
  | migrationTargetsForHashed keyHash =>
    cases he
    have hk : Keeps now (fun _ => False) s.slot.node
        (s.slot.node.migrationTargetsForHashed now keyHash).2 := .migrationTargetsForHashed h.sound
    refine ⟨?_, hk.sound, fun window hm hopen => ?_⟩
    · have hc : s.slot.exec now .clearExpired =
          some { s.slot with node := s.slot.node.clearExpired now } := rfl
      have hw : HandoffSlot.WF ⟨(s.slot.node.clearExpired now).retainLingering now, s.slot.guards⟩ :=
        @HandoffSlot.WF.exec _ _ now .retainLingering (h.wf.exec hc) rfl
      rw [← @migrationTargetsForHashed_node s.slot.node now keyHash] at hw
      exact hw
    · have hf := h.owed window hm (window.forwardingOpen_of_le hl hopen)
      exact hk.forwards window id hopen hf

theorem Reachable.inv (h : Reachable Orderly s) : s.Inv := by
  induction h
  case init node now hn =>
    refine ⟨.free rfl (by simp [NodeContext.Idle, hn]), ?_, by simp⟩
    exact ⟨by simp [hn], by simp [hn], by simp [hn]⟩
  case step _ hl ho he hi => exact hi.exec hl ho he

theorem Reachable.forwards_owed (h : Reachable Orderly s) :
    (∀ active, s.slot.node.activeMigration = some active → active.names.Nodup) ∧
    ∀ window ∈ s.owed, ∀ now, s.last ≤ now → window.forwardingOpen now = true →
      s.slot.node.flag window.forwardRevoked = false ∧
      ∃ active, s.slot.node.activeMigration = some active ∧ ∀ keyHash,
        active.afterRing.ring.owns keyHash window.joiningName active.replication →
          window.target ∈ (s.slot.node.migrationTargetsForHashed now keyHash).1 := by
  have hi := h.inv
  refine ⟨fun active ha => (hi.sound.distinct active ha).names, fun window hm now hl ho => ?_⟩
  have hf := hi.owed window hm (window.forwardingOpen_of_le hl ho)
  obtain ⟨active, ha, _, hr⟩ := id hf
  exact ⟨hr, active, ha, fun keyHash hk => hf.target_mem ho ha hk⟩

-- The nodes `b` and `c` join a cluster that consists of the node `a`.
def lone : Forwarder where
  slot := ⟨⟨[97], true, false, none, none, none, ⟨[], 0⟩, [], 0⟩, []⟩
  owed := []
  last := 0

def joins (joiningName : Bytes) (joined : List Bytes) (generation : Nat) : Event :=
  .slot (.migrate ⟨joiningName, [], [], joined.map fun name => (name, []), 1, some generation⟩)

def completes (abortRequested : Nat) : Event :=
  .slot (.completed ⟨abortRequested⟩ 0 [] none)

def execAll (s : Forwarder) : List Event → Option Forwarder
  | []              => some s
  | event :: events => do execAll (← s.exec 0 event) events

theorem Reachable.execAll {events : List Event} (h : Reachable (fun _ _ _ => True) s)
    (hl : s.last = 0) (he : s.execAll events = some s') : Reachable (fun _ _ _ => True) s' := by
  induction events generalizing s
  case nil =>
    cases he
    exact h
  case cons event events hi =>
    obtain ⟨s₁, hs, he⟩ := Option.bind_eq_some_iff.mp he
    refine hi (h.step hl.le trivial hs) ?_ he
    cases event with
    | slot op =>
      obtain ⟨slot, _, ⟨⟩⟩ := Option.bind_eq_some_iff.mp hs
      rfl
    | migrationTargetsForHashed keyHash =>
      cases hs
      rfl

-- The node `b` joins, and then `c`. When `b` has to join again it is there twice. If the join of
-- `b` is given up after it was confirmed then `b` is no target any more.
theorem joins_twice :
    (∃ s active, Reachable (fun _ _ _ => True) s ∧ s.slot.node.activeMigration = some active ∧
      ¬active.names.Nodup) ∧
    ∃ s, Reachable (fun _ _ _ => True) s ∧ ∃ window ∈ s.owed, s.last ≤ 0 ∧
      window.forwardingOpen 0 = true ∧ s.slot.node.activeMigration = none ∧
      s.slot.node.flag window.forwardRevoked = true := by
  constructor
  · let events := [joins [98] [[97]] 1, completes 0, .slot (.adopt [[97], [98]] 1),
      joins [99] [[97], [98]] 2, completes 2, joins [98] [[97], [98], [99]] 3]
    let s := (lone.execAll events).get (by decide)
    have hs : lone.execAll events = some s := rfl
    exact ⟨s, _, Reachable.execAll (.init rfl) rfl hs, rfl, by decide⟩
  · let events := [joins [98] [[97]] 1, completes 0, .slot (.adopt [[97], [98]] 1),
      .slot (.cancel [98])]
    let s := (lone.execAll events).get (by decide)
    have hs : lone.execAll events = some s := rfl
    refine ⟨s, Reachable.execAll (.init rfl) rfl hs, _, List.mem_cons_self, ?_⟩
    exact ⟨by decide, by decide, rfl, by decide⟩

-- The window of `b` outlives the join of `c`.
theorem forwards_of_joins :
    ∃ s, Reachable Orderly s ∧ ∃ window ∈ s.owed, window.joiningName = [98] ∧
      s.slot.node.activeMigration.any (·.joiningName = [99]) ∧
      s.slot.node.flag window.forwardRevoked = false ∧
      ∃ active, s.slot.node.activeMigration = some active ∧ ∀ keyHash,
        active.afterRing.ring.owns keyHash window.joiningName active.replication →
          window.target ∈ (s.slot.node.migrationTargetsForHashed 0 keyHash).1 := by
  let s₁ := (lone.exec 0 (joins [98] [[97]] 1)).get (by decide)
  let s₂ := (s₁.exec 0 (completes 0)).get (by decide)
  let s₃ := (s₂.exec 0 (.slot (.adopt [[97], [98]] 1))).get (by decide)
  let s₄ := (s₃.exec 0 (joins [99] [[97], [98]] 2)).get (by decide)
  have e₁ : lone.exec 0 (joins [98] [[97]] 1) = some s₁ := rfl
  have e₂ : s₁.exec 0 (completes 0) = some s₂ := rfl
  have e₃ : s₂.exec 0 (.slot (.adopt [[97], [98]] 1)) = some s₃ := rfl
  have e₄ : s₃.exec 0 (joins [99] [[97], [98]] 2) = some s₄ := rfl
  have h₁ : Reachable Orderly s₁ := by
    refine .step (.init rfl) le_rfl ?_ e₁
    intro active ha
    cases ha
  have h₂ : Reachable Orderly s₂ := by
    refine .step h₁ (by decide) ?_ e₂
    intro active ha
    cases ha
    decide
  have h₃ : Reachable Orderly s₃ := by
    refine .step h₂ (by decide) ?_ e₃
    trivial
  have h₄ : Reachable Orderly s₄ := by
    refine .step h₃ (by decide) ?_ e₄
    intro active ha
    cases ha
    exact List.forall_mem_nil _
  obtain ⟨hf, active, ha, ht⟩ := h₄.forwards_owed.2 _ List.mem_cons_self 0 (by decide) (by decide)
  exact ⟨s₄, h₄, _, List.mem_cons_self, rfl, by decide, hf, active, ha, ht⟩

end Forwarder
end Nanocached
