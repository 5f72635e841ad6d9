import Nanocached.Discovery.Promotion
import Nanocached.Discovery.Slot

namespace Nanocached.Discovery

variable {s s' : Discovery} {c c' : Core} {config : Config} {o : Orders} {start now now' : Instant}
variable {seed : Nat} {name : Bytes} {kind : Kind}

section Idle

-- Someone waits, and no join is pending.
def Core.Idle (c : Core) : Prop :=
  c.currentJoin = none ∧ ∃ name, c.Has .waiting name

theorem idle_of_changes (hk : ∀ name id, kind ≠ .registers name id) (changes : Changes kind c c')
    (hc : c'.currentJoin = none → c.currentJoin = none) (h : c'.Idle) : c.Idle := by
  obtain ⟨hn, name, hw⟩ := h
  refine ⟨hc hn, name, ?_⟩
  by_contra hw'
  exact not_has_waiting_of_changes (hk name) changes hw' hw

theorem not_idle_of_pending (h : c.currentJoin.isSome) : ¬c.Idle := by
  intro hi
  simp [hi.left] at h

theorem not_idle_of_nextWaiting (h : nextWaiting c.nodes = none) : ¬c.Idle := by
  rintro ⟨-, name, info, hl, hw⟩
  exact not_waiting_of_nextWaiting h hl hw

-- There are members.
theorem not_idle_beginNextJoin {rounds : Nat} (hj : (joinedOf s.nodes o).isEmpty = false) :
    ¬(beginNextJoin o now (rounds + 1) s).toCore.Idle := by
  rw [beginNextJoin]
  split
  case isTrue hc => exact not_idle_of_pending hc
  case isFalse =>
    split
    case h_1 hn => exact not_idle_of_nextWaiting hn
    case h_2 =>
      simp only [hj]
      exact not_idle_of_pending rfl

-- At most one node is promoted at once: after that there are members.
theorem not_idle_tryBeginNextJoin (hr : config.listReadyAt ≤ now) :
    ¬(s.tryBeginNextJoin config o now).toCore.Idle := by
  rw [tryBeginNextJoin, if_neg (not_lt.mpr hr), beginNextJoin]
  split
  case isTrue hc => exact not_idle_of_pending hc
  case isFalse =>
    split
    case h_1 hn => exact not_idle_of_nextWaiting hn
    case h_2 name info hn =>
      dsimp only
      split
      case isFalse => exact not_idle_of_pending rfl
      case isTrue =>
        obtain ⟨rounds, hs⟩ : ∃ rounds, s.nodes.size = rounds + 1 :=
          ⟨_, AList.size_erase_of_lookup (isNext_of_nextWaiting hn).lookup⟩
        rw [hs]
        apply not_idle_beginNextJoin
        rw [List.isEmpty_eq_false_iff_exists_mem, promoteToJoined, startJoining]
        simp only [AList.lookup_insert]
        exact ⟨(name, _), mem_joinedOf.mpr ⟨AList.lookup_insert _, rfl⟩⟩

end Idle

section Handlers

variable {conn : Connection} {id : Nat} {token addr : Bytes}

def Phase.restarts : Phase → Bool
  | .acking | .cancelling _ => true
  | .reading | .verdict _ | .staging _ | .parked _ | .ending => false

theorem pending_of_handleComplete {report : Report}
    (h : s.handleComplete now report = (s', false)) (hc : s'.currentJoin = none) :
    s.currentJoin = none := by
  rw [handleComplete] at h
  split at h
  case h_2 =>
    cases h
    exact hc
  case h_1 =>
    split at h
    case isFalse =>
      cases h
      exact hc
    case isTrue =>
      dsimp only at h
      split at h
      case isTrue =>
        cases h
        contradiction
      case isFalse => simp at h

theorem eq_of_abandonCurrentJoin {join : JoinIdentity}
    (h : s.abandonCurrentJoin now join = (s', false)) : s' = s := by
  rw [abandonCurrentJoin] at h
  split at h
  · split at h
    · simp at h
    · cases h
      rfl
  · cases h
    rfl

theorem eq_of_abandonIf {concerns : PendingJoin → Bool}
    (h : s.abandonIf now concerns = (s', false)) : s' = s := by
  rw [abandonIf] at h
  split at h
  · split at h
    · exact eq_of_abandonCurrentJoin h
    · cases h
      rfl
  · cases h
    rfl

theorem pending_of_credit {join : JoinIdentity} {entries : Nat}
    (hc : (s.creditMigrateSendResult join entries).currentJoin = none) : s.currentJoin = none := by
  rw [creditMigrateSendResult] at hc
  split at hc
  · split at hc
    · contradiction
    · exact hc
  · exact hc

theorem currentJoin_removeNode : (s.removeNode name).currentJoin = s.currentJoin := by
  rw [removeNode]
  split <;> rfl

theorem currentJoin_nodeLeave (h : s.nodeLeave now name token = some (s', false)) :
    s'.currentJoin = s.currentJoin := by
  rw [nodeLeave] at h
  split at h
  case h_2 =>
    cases h
    rfl
  case h_1 =>
    split at h
    case isFalse => contradiction
    case isTrue =>
      dsimp only at h
      split at h <;> rw [eq_of_abandonIf (Option.some.inj h)] <;> exact currentJoin_removeNode

theorem currentJoin_onNodeConnectionEnded (h : s.onNodeConnectionEnded now name id = (s', false)) :
    s'.currentJoin = s.currentJoin := by
  rw [onNodeConnectionEnded] at h
  split at h
  case h_2 =>
    cases h
    rfl
  case h_1 =>
    split at h
    case isFalse =>
      cases h
      rfl
    case isTrue =>
      rw [eq_of_abandonIf h]
      exact currentJoin_removeNode

theorem pending_of_announce {peerIp : Bytes} {taken : Bool}
    (h : s.announce config o now peerIp name addr token = (s', taken))
    (hc : s'.currentJoin = none) : s.currentJoin = none := by
  obtain rfl : (s.announce config o now peerIp name addr token).1 = s' := congrArg Prod.fst h
  rw [announce] at hc
  split at hc
  case h_1 ha =>
    rw [applyAnnounceToExisting] at ha
    split at ha
    · split at ha
      · contradiction
      split at ha
      · contradiction
      cases ha
      exact hc
    · contradiction
  case h_2 => exact hc
  case h_3 =>
    split at hc
    · exact hc
    · dsimp only at hc
      split at hc
      · rw [handOffFromLateMember] at hc
        split at hc
        · split at hc
          · exact hc
          · contradiction
        · assumption
      · exact hc

theorem currentJoin_heartbeat {replication : Option Nat} {pendingJoiner : Option Bytes} :
    (heartbeat config o now s conn name replication token pendingJoiner).state.currentJoin =
      s.currentJoin := by
  rw [heartbeat]
  split
  · split
    · dsimp only
      split <;> rfl
    · rfl
  · rfl

theorem not_idle_of_startJoin (hr : config.listReadyAt ≤ now)
    (h : s.startJoin config o now name addr token id = .ok s') : ¬s'.toCore.Idle := by
  rw [startJoin] at h
  split at h
  · split at h
    · contradiction
    split at h
    · contradiction
    cases h
    exact not_idle_tryBeginNextJoin hr
  · split at h
    · contradiction
    · cases h
      exact not_idle_tryBeginNextJoin hr

theorem pending_of_announceNode {port : Nat} {rejoinCapable : Bool}
    (hc : (announceNode config o now s conn name port token rejoinCapable).state.currentJoin = none) :
    s.currentJoin = none := by
  rw [announceNode] at hc
  split at hc
  case isTrue => exact hc
  case isFalse =>
    split at hc
    case h_1 hs | h_2 hs => exact pending_of_announce hs hc

-- A join that is taken leaves its task busy.
theorem idle_of_handle {command : DiscoveryCommand} (hr : config.listReadyAt ≤ now)
    (h : Agrees s.toCore) (hi : (handle config o now s conn id command).state.toCore.Idle) :
    s.toCore.Idle ∨ (handle config o now s conn id command).conn.phase.restarts := by
  unfold handle at hi ⊢
  split at hi
  case isTrue hn => exact .inl hi
  case isFalse hn =>
    rw [if_neg hn]
    cases command <;> dsimp only at hi ⊢
    case auth =>
      rw [auth] at hi
      split at hi <;> exact .inl hi
    case heartbeat =>
      refine .inl (idle_of_changes (by simp) changes_heartbeat ?_ hi)
      rw [currentJoin_heartbeat]
      exact fun hc => hc
    case list            => exact .inl (toCore_list ▸ hi)
    case listProxies     => exact .inl (toCore_listProxies ▸ hi)
    case proxyDeregister => exact .inl (toCore_proxyDeregister ▸ hi)
    case proxyAnnounce   => exact .inl (toCore_proxyAnnounce ▸ hi)
    case nodeRoster      => exact .inl (toCore_nodeRoster ▸ hi)
    case nodeLeave       =>
      rw [leave] at hi ⊢
      split at hi
      case h_1 => exact .inr rfl
      case h_2 hs =>
        refine .inl (idle_of_changes (by simp) (changes_nodeLeave h hs) ?_ hi)
        rw [currentJoin_nodeLeave hs]
        exact fun hc => hc
      case h_3 => exact .inl hi
    case join =>
      rw [join] at hi
      split at hi
      case h_1 hs => exact absurd hi (not_idle_of_startJoin hr hs)
      case h_2    => exact .inl hi
    case complete report =>
      have hc := @changes_handleComplete s now report h
      rw [complete] at hi ⊢
      split at hi
      case h_1 => exact .inr rfl
      case h_2 hs =>
        rw [hs] at hc
        exact .inl (idle_of_changes (by simp) hc (pending_of_handleComplete hs) hi)
    case announce =>
      exact .inl (idle_of_changes (by simp) changes_announceNode pending_of_announceNode hi)

end Handlers

section Attended

variable {conn : Connection} {conn' : Option Connection} {id : Nat}

-- A task has taken the pending join, and will begin the next one.
def Restarting (s : Discovery) : Prop :=
  s.fanout = some .cancelling ∨
    ∃ id conn, s.connections.lookup id = some conn ∧ conn.phase.restarts

structure Attended (config : Config) (now : Instant) (s : Discovery) : Prop where
  ready    : s.graceJoinsKicked → config.listReadyAt ≤ now
  known    : ∀ {id conn}, s.connections.lookup id = some conn → id < s.nextConnectionId
  attended : s.graceJoinsKicked → s.toCore.Idle → s.fanout = some .beginNext ∨ s.Restarting

theorem restarting_setConnection (hs : SameTasks s s') (hl : s.connections.lookup id = some conn)
    (hp : conn.phase.restarts = false) (h : s.Restarting) : (s'.setConnection id conn').Restarting := by
  rcases h with hf | ⟨id', other, hl', hp'⟩
  · exact .inl (hs.fanout.trans hf)
  · refine .inr ⟨id', other, ?_, hp'⟩
    have hn : id' ≠ id := by
      rintro rfl
      cases hl.symm.trans hl'
      simp [hp] at hp'
    rw [setConnection, hs.connections]
    cases conn'
    case none => exact (AList.lookup_erase_ne hn).trans hl'
    case some => exact (AList.lookup_insert_ne hn).trans hl'

-- A step of the task of a connection.
theorem attended_of_connection (h : Attended config now s) (ht : now ≤ now') (hs : SameTasks s s')
    (hl : s.connections.lookup id = some conn)
    (hi : config.listReadyAt ≤ now' → s'.toCore.Idle →
      s.toCore.Idle ∧ conn.phase.restarts = false ∨ conn'.any (·.phase.restarts)) :
    Attended config now' (s'.setConnection id conn') := by
  constructor
  case ready => exact fun hk => (h.ready (hs.graceJoinsKicked ▸ hk)).trans ht
  case known =>
    intro id' other hl'
    change id' < s'.nextConnectionId
    rw [hs.nextConnectionId]
    cases conn'
    case none =>
      obtain ⟨-, hl'⟩ := AList.lookup_erase_eq_some.mp hl'
      exact h.known (hs.connections ▸ hl')
    case some =>
      change (s'.connections.insert id _).lookup id' = _ at hl'
      rw [AList.lookup_insert_eq_ite, hs.connections] at hl'
      split at hl'
      case isTrue hn => exact hn ▸ h.known hl
      case isFalse   => exact h.known hl'
  case attended =>
    intro hk hidle
    have hk : s.graceJoinsKicked := hs.graceJoinsKicked ▸ hk
    rcases hi ((h.ready hk).trans ht) hidle with ⟨hidle, hp⟩ | hp
    · rcases h.attended hk hidle with hf | hr
      · exact .inl (hs.fanout.trans hf)
      · exact .inr (restarting_setConnection hs hl hp hr)
    · cases conn'
      case none       => simp at hp
      case some other => exact .inr (.inr ⟨id, other, AList.lookup_insert _, hp⟩)

theorem idle_of_goOn {answer : Option Bytes} (hr : config.listReadyAt ≤ now)
    (h : goOn config o now s conn = some (s', conn', answer)) (hi : s'.toCore.Idle) :
    s.toCore.Idle ∧ conn.phase.restarts = false := by
  rw [goOn] at h
  split at h <;> cases h
  case h_1 hp => exact ⟨hi, by rw [hp]; rfl⟩
  case h_2 hp => exact ⟨hi, by rw [hp]; rfl⟩
  all_goals exact absurd hi (not_idle_tryBeginNextJoin hr)

theorem idle_of_hangUp (h : Agrees s.toCore) (hs : hangUp now s conn id = some (s', conn'))
    (hi : s'.toCore.Idle) :
    s.toCore.Idle ∧ conn.phase.restarts = false ∨ conn'.any (·.phase.restarts) := by
  have hc := changes_of_hangUp h hs
  obtain ⟨hp, hs⟩ := hangUp_cases hs
  have hp : conn.phase.restarts = false := by
    rcases hp with hp | ⟨name, hp⟩ | hp <;> simp [hp, Phase.restarts]
  rcases hs with ⟨-, rfl, -⟩ | ⟨name, taken, -, he, rfl⟩
  · exact .inl ⟨hi, hp⟩
  · cases taken
    case true  => exact .inr rfl
    case false =>
      refine .inl ⟨idle_of_changes (by simp) hc ?_ hi, hp⟩
      rw [currentJoin_onNodeConnectionEnded he]
      exact fun hc => hc

theorem attended_accept (h : Attended config now s) (ht : now ≤ now') :
    Attended config now' { s.setConnection s.nextConnectionId (some conn) with
      nextConnectionId := s.nextConnectionId + 1 } := by
  constructor
  case ready => exact fun hk => (h.ready hk).trans ht
  case known =>
    intro id' other hl
    change (s.connections.insert _ _).lookup id' = _ at hl
    rw [AList.lookup_insert_eq_ite] at hl
    split at hl
    case isTrue hn => exact hn ▸ Nat.lt_succ_self _
    case isFalse   => exact Nat.lt_succ_of_lt (h.known hl)
  case attended =>
    intro hk hidle
    rcases h.attended hk hidle with hf | hf | ⟨id', other, hl, hp⟩
    · exact .inl hf
    · exact .inr (.inl hf)
    · refine .inr (.inr ⟨id', other, ?_, hp⟩)
      have hn : id' ≠ s.nextConnectionId := (h.known hl).ne
      exact (AList.lookup_insert_ne hn).trans hl

-- A step that is not of a connection. A fan-out that will begin the next join goes on.
theorem attended_of_fanout (h : Attended config now s) (ht : now ≤ now')
    (hc : s'.connections = s.connections) (hn : s'.nextConnectionId = s.nextConnectionId)
    (hk : s'.graceJoinsKicked → s.graceJoinsKicked ∨
      config.listReadyAt ≤ now' ∧ s'.fanout = some .beginNext)
    (hf : s.fanout = some .beginNext ∨ s.fanout = some .cancelling → s'.fanout = s.fanout ∨
      (config.listReadyAt ≤ now' → ¬s'.toCore.Idle))
    (hi : config.listReadyAt ≤ now' → s'.toCore.Idle →
      s.toCore.Idle ∨ s'.fanout = some .cancelling) :
    Attended config now' s' := by
  constructor
  case ready =>
    intro hk'
    rcases hk hk' with hk | ⟨hr, -⟩
    · exact (h.ready hk).trans ht
    · exact hr
  case known =>
    rw [hc, hn]
    exact h.known
  case attended =>
    intro hk' hidle
    rcases hk hk' with hk | ⟨-, hf⟩
    case inr => exact .inl hf
    case inl =>
      have hready := (h.ready hk).trans ht
      rcases hi hready hidle with hi | hf'
      case inr => exact .inr (.inl hf')
      case inl =>
        rcases h.attended hk hi with hb | hb | hb
        · rcases hf (.inl hb) with he | hni
          · exact .inl (he.trans hb)
          · exact absurd hidle (hni hready)
        · rcases hf (.inr hb) with he | hni
          · exact .inr (.inl (he.trans hb))
          · exact absurd hidle (hni hready)
        · exact .inr (.inr (hc ▸ hb))

-- What is running is left alone.
structure Spawns (s s' : Discovery) : Prop where
  connections      : s'.connections = s.connections
  nextConnectionId : s'.nextConnectionId = s.nextConnectionId
  graceJoinsKicked : s'.graceJoinsKicked = s.graceJoinsKicked
  currentJoin      : s'.currentJoin = s.currentJoin
  fanout           : s.fanout.isSome → s'.fanout = s.fanout

theorem Spawns.trans {s'' : Discovery} (h₁ : Spawns s s') (h₂ : Spawns s' s'') : Spawns s s'' where
  connections      := h₂.connections.trans h₁.connections
  nextConnectionId := h₂.nextConnectionId.trans h₁.nextConnectionId
  graceJoinsKicked := h₂.graceJoinsKicked.trans h₁.graceJoinsKicked
  currentJoin      := h₂.currentJoin.trans h₁.currentJoin
  fanout hs        := (h₂.fanout (h₁.fanout hs ▸ hs)).trans (h₁.fanout hs)

theorem Sweeps.spawns (h : Sweeps s s') : Spawns s s' := by
  obtain ⟨hr, hf⟩ := h
  exact ⟨by rw [hr], by rw [hr], by rw [hr], by rw [hr], hf⟩

theorem spawns_refreshStalled {stalled : Bool} : Spawns s (s.refreshStalled now stalled) := by
  rw [refreshStalled]
  split <;> exact ⟨rfl, rfl, rfl, rfl, fun _ => rfl⟩

theorem spawns_dropProxies : Spawns s (s.dropProxies config now) :=
  ⟨rfl, rfl, rfl, rfl, fun _ => rfl⟩

theorem spawns_evict : Spawns s (s.evict config o now).2 :=
  ⟨rfl, rfl, rfl, rfl, fun _ => rfl⟩

theorem spawns_recordAll {stalled : Bool} {names : List Bytes} :
    Spawns s (s.recordAll now stalled names) :=
  ⟨rfl, rfl, rfl, rfl, fun _ => rfl⟩

theorem spawns_sweepNodes : Spawns s (s.sweepNodes config o now) := by
  rw [sweepNodes]
  refine .trans (.trans ?_ spawns_recordAll) sweeps_abandonTimedOut.spawns
  refine .trans ?_ sweeps_abandonEvicted.spawns
  refine .trans (.trans (.trans ?_ spawns_dropProxies) spawns_evict) spawns_recordAll
  refine .trans ?_ spawns_refreshStalled
  exact ⟨rfl, rfl, rfl, rfl, fun _ => rfl⟩

theorem attended_tick (h : Attended config now s) (ht : now ≤ now') :
    Attended config now' (s.sweepTick config o now') := by
  have hs := @spawns_sweepNodes s config o now'
  have hidle : (s.sweepNodes config o now').toCore.Idle → s.toCore.Idle :=
    idle_of_changes (by simp) changes_sweepNodes fun hc => hs.currentJoin ▸ hc
  have hfanout : s.fanout = some .beginNext ∨ s.fanout = some .cancelling →
      (s.sweepNodes config o now').fanout = s.fanout := by
    rintro (hf | hf) <;> exact hs.fanout (by simp [hf])
  rw [sweepTick, kickGraceJoins]
  split
  case isFalse =>
    exact attended_of_fanout h ht hs.connections hs.nextConnectionId
      (fun hk => .inl (hs.graceJoinsKicked ▸ hk)) (fun hf => .inl (hfanout hf))
      (fun _ hi => .inl (hidle hi))
  case isTrue hk =>
    obtain ⟨hk, hn, hr⟩ := hk
    have hn := Option.isNone_iff_eq_none.mp hn
    rw [spawn, hn]
    refine attended_of_fanout h ht hs.connections hs.nextConnectionId
      (fun _ => .inr ⟨hr, rfl⟩) (fun hf => ?_) (fun _ hi => .inl (hidle hi))
    rcases hf with hf | hf <;> simp [hfanout, hf] at hn

theorem attended_work (h : Attended config now s) (ht : now ≤ now')
    (hw : s.work config o now' = some s') : Attended config now' s' := by
  rw [work] at hw
  split at hw
  case h_1 join hf =>
    have hw₁ := (@within_abandonCurrentJoin s now' join).sameTasks
    generalize ha : s.abandonCurrentJoin now' join = abandoned at hw hw₁
    obtain ⟨s₁, taken⟩ := abandoned
    cases hw
    refine attended_of_fanout h ht hw₁.connections hw₁.nextConnectionId
      (fun hk => .inl (hw₁.graceJoinsKicked ▸ hk)) (by simp [hf]) (fun _ hi => ?_)
    cases taken
    case true  => exact .inr rfl
    case false =>
      cases eq_of_abandonCurrentJoin ha
      exact .inl hi
  case h_2 | h_3 =>
    cases hw
    have hw₁ := (@within_tryBeginNextJoin s config o now').sameTasks
    exact attended_of_fanout h ht hw₁.connections hw₁.nextConnectionId
      (fun hk => .inl (hw₁.graceJoinsKicked ▸ hk)) (fun _ => .inr not_idle_tryBeginNextJoin)
      (fun hr hi => absurd hi (not_idle_tryBeginNextJoin hr))
  case h_4 hf =>
    cases hw
    exact attended_of_fanout h ht rfl rfl .inl (by simp [hf]) (fun _ hi => .inl hi)
  case h_5 => contradiction

theorem attended_of_exec {e : Event} {answer : Option Bytes} (ha : Agrees s.toCore)
    (h : Attended config now s) (ht : now ≤ now')
    (he : s.exec config o now' e = some (s', answer)) : Attended config now' s' := by
  cases step_of_exec he
  case accept => exact attended_accept h ht
  case frame hl hp =>
    refine attended_of_connection h ht sameTasks_handle hl fun hr hi => ?_
    rcases idle_of_handle hr ha hi with hi | hp'
    · exact .inl ⟨hi, by rw [hp]; rfl⟩
    · exact .inr hp'
  case proceed hl hg =>
    refine attended_of_connection h ht (within_of_goOn hg).sameTasks hl fun hr hi => .inl ?_
    exact idle_of_goOn hr hg hi
  case wake hl hg =>
    refine attended_of_connection h ht .refl hl fun hr hi => .inl ⟨hi, ?_⟩
    rw [lookAgain] at hg
    split at hg
    case h_1 hp => rw [hp]; rfl
    case h_2    => contradiction
  case hangup hl hg =>
    refine attended_of_connection h ht (within_of_hangUp hg).sameTasks hl fun hr hi => ?_
    exact idle_of_hangUp ha hg hi
  case tick    => exact attended_tick h ht
  case work hw => exact attended_work h ht hw
  case credit join entries =>
    have hw := (@within_credit s join entries).sameTasks
    refine attended_of_fanout h ht hw.connections hw.nextConnectionId
      (fun hk => .inl (hw.graceJoinsKicked ▸ hk)) (fun _ => .inl hw.fanout) (fun _ hi => .inl ?_)
    exact idle_of_changes (by simp) changes_credit pending_of_credit hi

end Attended

theorem Reaches.attended (h : Reaches config start seed now s) : Attended config now s := by
  induction h
  case initial => exact ⟨by simp [Discovery.initial], by simp [Discovery.initial], by simp [Discovery.initial]⟩
  case exec hr ht he hi => exact attended_of_exec hr.agrees hi ht he

-- The node that is joining is the one of the pending join. A member stays one until it is gone, and
-- nodes are started in the order in which they have come. Once the startup grace is over a node
-- waits only while a join is pending, or is about to be begun.
theorem Reaches.join_slot (h : Reaches config start seed now s) :
    (∀ name, s.Has .joining name ↔ s.currentJoin.map (·.joiningName) = some name) ∧
    (∀ {o now' e s' answer}, now ≤ now' → s.exec config o now' e = some (s', answer) →
      (∀ name, s.Has .joined name → name ∈ s'.nodes → s'.Has .joined name) ∧
      ∀ {name name' a b}, s.Only .waiting name → s.Only .waiting name' → e.admits ≠ some name →
        s'.nodes.lookup name = some a → s'.nodes.lookup name' = some b →
        b.state.rank < a.state.rank → before (name, a) (name', b)) ∧
    (s.graceJoinsKicked → s.fanout ≠ some .beginNext → ¬s.Restarting →
      ∀ name, s.Has .waiting name → s.currentJoin.isSome) := by
  refine ⟨fun name => ⟨?_, ?_⟩, fun _ he => ⟨?_, ?_⟩, ?_⟩
  · rintro ⟨info, hl, hi⟩
    obtain ⟨pending, hc, hn⟩ := h.agrees.pending hl hi
    rw [hc, Option.map_some, hn]
  · intro hn
    obtain ⟨pending, hc, rfl⟩ := Option.map_eq_some_iff.mp hn
    exact h.agrees.joining hc
  · intro name
    exact joined_of_moves (moves_of_exec h.agrees he)
  · exact before_of_moves (moves_of_exec h.agrees he)
  · intro hk hf hr name hw
    by_contra hc
    have hidle : s.toCore.Idle := ⟨Option.not_isSome_iff_eq_none.mp hc, name, hw⟩
    exact (h.attended.attended hk hidle).elim hf hr

section Witness

-- The grace is over, a node waits behind the one that is joining.
def queued : List (Instant × Event) :=
  joining ++ [(6, .tick), (7, .work), (8, .work), (9, .frame 3 (.join [99] 3 [122]))]

theorem join_slot_queued : ∃ s : Discovery, s.graceJoinsKicked ∧ s.fanout ≠ some .beginNext ∧
    ¬s.Restarting ∧ s.Has .waiting [99] ∧ s.currentJoin.isSome ∧
    ∀ name, s.Has .joining name ↔ s.currentJoin.map (·.joiningName) = some name := by
  have hq : ((initial 0 7).run plain .asListed queued).map (fun s => (s.graceJoinsKicked, s.fanout,
      s.connections.entries.all (!·.2.phase.restarts), (s.nodes.lookup [99]).map (·.state))) =
      some (true, none, true, some .waiting) := by
    decide +kernel
  obtain ⟨s, hr, hq⟩ := Option.map_eq_some_iff.mp hq
  obtain ⟨now, h⟩ := Reaches.initial.run (by decide) hr
  obtain ⟨hk, hf, hp, hw⟩ : s.graceJoinsKicked = true ∧ s.fanout = none ∧
      (s.connections.entries.all (!·.2.phase.restarts)) = true ∧
      (s.nodes.lookup [99]).map (·.state) = some .waiting := by
    simpa using hq
  have hn : ¬s.Restarting := by
    rintro (hc | ⟨id, conn, hl, hp'⟩)
    · simp [hf] at hc
    · have := List.all_eq_true.mp hp ⟨id, conn⟩ (AList.mem_entries.mpr hl)
      simp [hp'] at this
  have hw : s.Has .waiting [99] := Option.map_eq_some_iff.mp hw
  have hb : s.fanout ≠ some .beginNext := by simp [hf]
  exact ⟨s, hk, hb, hn, hw, h.join_slot.2.2 hk hb hn _ hw, h.join_slot.1⟩

end Witness

end Nanocached.Discovery
