import Nanocached.Discovery.Exec

namespace Nanocached.Discovery

-- The registry, the pending join and the records of departures and sources, in place of those of
-- another state. What is done to them does not look at the rest.
def within (s r : Discovery) : Discovery :=
  { r with toCore := s.toCore, departed := s.departed, limiter := s.limiter }

-- Nothing else is touched.
def Within (s s' : Discovery) : Prop :=
  s' = { s with toCore := s'.toCore, departed := s'.departed, limiter := s'.limiter }

variable {s s' : Discovery} {config : Config} {o : Orders} {now : Instant}
variable {name token addr : Bytes} {info : NodeInfo} (r : Discovery)

theorem Within.refl : Within s s :=
  rfl

section Join

theorem promoteToJoined_within :
    (s.within r).promoteToJoined name now = (s.promoteToJoined name now).within r := by
  simp only [promoteToJoined, within]
  split <;> rfl

theorem beginNextJoin_within {rounds : Nat} :
    beginNextJoin o now rounds (s.within r) = (beginNextJoin o now rounds s).within r := by
  induction rounds generalizing s
  case zero => rfl
  case succ rounds hi =>
    have hn : (s.within r).nodes = s.nodes := rfl
    have hc : (s.within r).currentJoin = s.currentJoin := rfl
    simp only [beginNextJoin, hn, hc]
    split
    · rfl
    · split
      · rfl
      · split
        case isTrue =>
          rw [← hi, ← promoteToJoined_within]
          rfl
        case isFalse => rfl

theorem tryBeginNextJoin_within :
    (s.within r).tryBeginNextJoin config o now = (s.tryBeginNextJoin config o now).within r := by
  rw [tryBeginNextJoin, tryBeginNextJoin]
  split
  · rfl
  · exact beginNextJoin_within r

theorem startJoin_within {id : Nat} : (s.within r).startJoin config o now name addr token id =
    (s.startJoin config o now name addr token id).map (·.within r) := by
  have hn : (s.within r).nodes = s.nodes := rfl
  have hr : (s.within r).refusesNew config o name addr token =
    s.refusesNew config o name addr token := rfl
  simp only [startJoin, hn, hr]
  split
  · split
    · rfl
    · split
      · rfl
      · simp only [Except.map, ← tryBeginNextJoin_within]
        rfl
  · split
    · rfl
    · simp only [Except.map, ← tryBeginNextJoin_within]
      rfl

theorem handOffFromLateMember_within : (s.within r).handOffFromLateMember name token =
    (s.handOffFromLateMember name token).within r := by
  have hn : (s.within r).nodes = s.nodes := rfl
  have hc : (s.within r).currentJoin = s.currentJoin := rfl
  simp only [handOffFromLateMember, hn, hc]
  split
  · split <;> rfl
  · rfl

theorem announce_within {peerIp : Bytes} :
    (s.within r).announce config o now peerIp name addr token =
      ((s.announce config o now peerIp name addr token).1.within r,
        (s.announce config o now peerIp name addr token).2) := by
  have hn : (s.within r).nodes = s.nodes := rfl
  have hl : (s.within r).limiter = s.limiter := rfl
  have he : (s.within r).lateHandoffsExhausted = s.lateHandoffsExhausted := rfl
  simp only [announce, applyAnnounceToExisting, hn, hl, he]
  cases s.nodes.lookup name
  case some info =>
    dsimp only
    by_cases ht : info.token = token
    · by_cases hj : info.state = .joined
      · simp only [ht, hj, ne_eq, not_true, if_false]
        rfl
      · simp only [ht, hj, ne_eq, not_true, not_false_iff, if_false, if_true]
    · simp only [ht, ne_eq, not_false_iff, if_true]
  case none =>
    dsimp only
    split
    · rfl
    · split
      · rw [← handOffFromLateMember_within]
        rfl
      · rfl

theorem handleComplete_within {report : Report} : (s.within r).handleComplete now report =
    ((s.handleComplete now report).1.within r, (s.handleComplete now report).2) := by
  have hc : (s.within r).currentJoin = s.currentJoin := rfl
  simp only [handleComplete, hc]
  split
  · split
    · split
      · rfl
      · rw [← promoteToJoined_within]
        rfl
    · rfl
  · rfl

theorem removeNode_within : (s.within r).removeNode name = (s.removeNode name).within r := by
  have hn : (s.within r).nodes = s.nodes := rfl
  simp only [removeNode, hn]
  split <;> rfl

theorem abandonCurrentJoin_within {join : JoinIdentity} : (s.within r).abandonCurrentJoin now join =
    ((s.abandonCurrentJoin now join).1.within r, (s.abandonCurrentJoin now join).2) := by
  have hc : (s.within r).currentJoin = s.currentJoin := rfl
  simp only [abandonCurrentJoin, hc]
  split
  case h_2 => rfl
  case h_1 pending _ =>
    split
    case isFalse => rfl
    case isTrue =>
      have hr := @removeNode_within
        { s with currentJoin := none, abandoned := s.abandoned ++ [pending] } pending.joiningName r
      simp only [within] at hr ⊢
      rw [hr]

theorem abandonIf_within {concerns : PendingJoin → Bool} : (s.within r).abandonIf now concerns =
    ((s.abandonIf now concerns).1.within r, (s.abandonIf now concerns).2) := by
  have hc : (s.within r).currentJoin = s.currentJoin := rfl
  simp only [abandonIf, hc]
  split
  · split
    · exact abandonCurrentJoin_within r
    · rfl
  · rfl

theorem onNodeConnectionEnded_within {id : Nat} :
    (s.within r).onNodeConnectionEnded now name id =
      ((s.onNodeConnectionEnded now name id).1.within r,
        (s.onNodeConnectionEnded now name id).2) := by
  have hn : (s.within r).nodes = s.nodes := rfl
  simp only [onNodeConnectionEnded, hn]
  split
  · split
    · rw [removeNode_within]
      exact abandonIf_within r
    · rfl
  · rfl

theorem nodeLeave_within : (s.within r).nodeLeave now name token =
    (s.nodeLeave now name token).map fun left => (left.1.within r, left.2) := by
  have hn : (s.within r).nodes = s.nodes := rfl
  simp only [nodeLeave, hn]
  split
  case h_2 => rfl
  case h_1 info _ =>
    split
    case isFalse => rfl
    case isTrue =>
      have hr := @removeNode_within s name r
      have ha := fun concerns => @abandonIf_within
        { s.removeNode name with departed := (s.removeNode name).departed.record name now } now r
        concerns
      simp only [within] at hr ha ⊢
      simp only [hr]
      split <;> exact congrArg some (ha _)

theorem creditMigrateSendResult_within {join : JoinIdentity} {entries : Nat} :
    (s.within r).creditMigrateSendResult join entries =
      (s.creditMigrateSendResult join entries).within r := by
  have hc : (s.within r).currentJoin = s.currentJoin := rfl
  simp only [creditMigrateSendResult, hc]
  split
  · split <;> rfl
  · rfl

-- A state is its own surroundings.
theorem within_tryBeginNextJoin : Within s (s.tryBeginNextJoin config o now) :=
  tryBeginNextJoin_within s

theorem within_abandonCurrentJoin {join : JoinIdentity} :
    Within s (s.abandonCurrentJoin now join).1 :=
  congrArg Prod.fst (abandonCurrentJoin_within s)

theorem within_credit {join : JoinIdentity} {entries : Nat} :
    Within s (s.creditMigrateSendResult join entries) :=
  creditMigrateSendResult_within s

end Join

section Sweep

-- Only what the sweep has going is touched. A fan-out that is running is left alone.
structure Sweeps (s s' : Discovery) : Prop where
  rest   : s' = { s with evictedMembers := s'.evictedMembers, fanout := s'.fanout }
  fanout : s.fanout.isSome → s'.fanout = s.fanout

theorem sweeps_spawn {fanout : Fanout} : Sweeps s (s.spawn fanout) := by
  rw [spawn]
  split
  case isTrue hn  => exact ⟨rfl, fun hs => by simp [Option.isNone_iff_eq_none.mp hn] at hs⟩
  case isFalse hn => exact ⟨rfl, fun _ => rfl⟩

theorem sweeps_abandonEvicted {names : List Bytes} : Sweeps s (s.abandonEvicted names) := by
  rw [abandonEvicted]
  dsimp only
  split
  case h_1 => exact ⟨rfl, fun _ => rfl⟩
  case h_2 join _ =>
    split
    case isFalse => exact ⟨rfl, fun _ => rfl⟩
    case isTrue =>
      obtain ⟨hr, hf⟩ := @sweeps_spawn s (.abandon join.identity)
      exact ⟨by rw [hr], hf⟩

theorem sweeps_abandonTimedOut : Sweeps s (s.abandonTimedOut now) := by
  rw [abandonTimedOut]
  split
  · exact sweeps_spawn
  · exact ⟨rfl, fun _ => rfl⟩

theorem Sweeps.toCore (h : Sweeps s s') : s'.toCore = s.toCore := by
  rw [h.rest]

end Sweep

section Handlers

variable {conn : Connection} {id : Nat}

def Handled.within (handled : Handled) (r : Discovery) : Handled :=
  { handled with state := handled.state.within r }

theorem leave_within :
    leave now (s.within r) conn name token = (leave now s conn name token).within r := by
  simp only [leave, nodeLeave_within]
  cases s.nodeLeave now name token
  case none => rfl
  case some left =>
    obtain ⟨s', taken⟩ := left
    cases taken <;> rfl

theorem join_within {port : Nat} : join config o now (s.within r) conn id name port token =
    (join config o now s conn id name port token).within r := by
  simp only [join, startJoin_within]
  cases s.startJoin config o now name (composeAddress conn.peerIp port) token id <;> rfl

theorem announceNode_within {port : Nat} {rejoinCapable : Bool} :
    announceNode config o now (s.within r) conn name port token rejoinCapable =
      (announceNode config o now s conn name port token rejoinCapable).within r := by
  have hr : (s.within r).announceNeedsRejoin now name = s.announceNeedsRejoin now name := rfl
  simp only [announceNode, hr, announce_within]
  split
  · rfl
  · rcases s.announce config o now conn.peerIp name (composeAddress conn.peerIp port) token with
      ⟨s', taken⟩
    cases taken <;> rfl

theorem complete_within {report : Report} :
    complete now (s.within r) conn report = (complete now s conn report).within r := by
  simp only [complete, handleComplete_within]
  rcases s.handleComplete now report with ⟨s', taken⟩
  cases taken <;> rfl

theorem goOn_within : goOn config o now (s.within r) conn =
    (goOn config o now s conn).map fun gone => (gone.1.within r, gone.2) := by
  simp only [goOn, tryBeginNextJoin_within]
  split <;> rfl

theorem hangUp_within : hangUp now (s.within r) conn id =
    (hangUp now s conn id).map fun gone => (gone.1.within r, gone.2) := by
  simp only [hangUp, onNodeConnectionEnded_within]
  split
  case h_4 => rfl
  all_goals
    split
    case h_2 => rfl
    case h_1 name _ =>
      rcases s.onNodeConnectionEnded now name id with ⟨s', taken⟩
      cases taken <;> rfl

-- What does not look at the rest leaves it alone.
theorem within_of_some {α : Type} {f : Discovery → Option (Discovery × α)} {a : α}
    (hf : ∀ r, f (s.within r) = (f s).map fun x => (x.1.within r, x.2)) (h : f s = some (s', a)) :
    Within s s' := by
  have hw : f s = _ := hf s
  rw [h] at hw
  exact congrArg Prod.fst (Option.some.inj hw)

theorem within_of_goOn {conn' : Option Connection} {answer : Option Bytes}
    (h : goOn config o now s conn = some (s', conn', answer)) : Within s s' :=
  within_of_some (f := fun s => goOn config o now s conn) (fun r => goOn_within r) h

theorem within_of_hangUp {conn' : Option Connection} (h : hangUp now s conn id = some (s', conn')) :
    Within s s' :=
  within_of_some (f := fun s => hangUp now s conn id) (fun r => hangUp_within r) h

-- A connection that has a name of its own takes leave under it.
theorem hangUp_cases {conn' : Option Connection} (h : hangUp now s conn id = some (s', conn')) :
    (conn.phase = .reading ∨ (∃ name, conn.phase = .parked name) ∨ conn.phase = .ending) ∧
    ((conn.identity = none ∧ s' = s ∧ conn' = none) ∨
      ∃ name taken, conn.identity = some name ∧
        s.onNodeConnectionEnded now name id = (s', taken) ∧
        conn' = if taken then some { conn with phase := .cancelling false } else none) := by
  rw [hangUp] at h
  split at h
  case h_4 => contradiction
  all_goals
    rename_i hp
    refine ⟨by simp [hp], ?_⟩
    split at h
    case h_2 hn =>
      cases h
      exact .inl ⟨hn, rfl, rfl⟩
    case h_1 name hn =>
      split at h
      all_goals
        rename_i he
        cases h
        exact .inr ⟨name, _, hn, he, rfl⟩

end Handlers

-- The same, with the tasks of another state.
def beside (s r : Discovery) : Discovery :=
  { s with
    connections      := r.connections
    nextConnectionId := r.nextConnectionId
    graceJoinsKicked := r.graceJoinsKicked
    fanout           := r.fanout }

-- The tasks are where they were.
structure SameTasks (s s' : Discovery) : Prop where
  connections      : s'.connections = s.connections
  nextConnectionId : s'.nextConnectionId = s.nextConnectionId
  graceJoinsKicked : s'.graceJoinsKicked = s.graceJoinsKicked
  fanout           : s'.fanout = s.fanout

section Tasks

variable {conn : Connection} {id : Nat}

theorem Within.sameTasks (h : Within s s') : SameTasks s s' := by
  rw [h]
  exact ⟨rfl, rfl, rfl, rfl⟩

theorem SameTasks.refl : SameTasks s s :=
  Within.refl.sameTasks

def Handled.beside (handled : Handled) (r : Discovery) : Handled :=
  { handled with state := handled.state.beside r }

theorem beside_of_within {f : Discovery → Handled} (h : ∀ r, f (s.within r) = (f s).within r) :
    f (s.beside r) = (f s).beside r := by
  have hs : f s = (f s).within s := h s
  rw [hs]
  exact h (s.beside r)

theorem heartbeat_beside {replication : Option Nat} {joiner : Option Bytes} :
    heartbeat config o now (s.beside r) conn name replication token joiner =
      (heartbeat config o now s conn name replication token joiner).beside r := by
  have hn : (s.beside r).nodes = s.nodes := rfl
  simp only [heartbeat, hn]
  split
  · split
    · split <;> rfl
    · rfl
  · rfl

theorem list_beside : list config o now (s.beside r) conn = (list config o now s conn).beside r := by
  have hc : (s.beside r).cachedListResponse config.replication o =
      ((s.cachedListResponse config.replication o).1,
        (s.cachedListResponse config.replication o).2.beside r) := rfl
  simp only [list, hc]
  split
  · rfl
  · split <;> rfl

theorem listProxies_beside :
    listProxies config o now (s.beside r) conn = (listProxies config o now s conn).beside r := by
  have hc : (s.beside r).cachedProxyList o =
      ((s.cachedProxyList o).1, (s.cachedProxyList o).2.beside r) := by
    have hp : (s.beside r).proxyListCache = s.proxyListCache := rfl
    have hg : (s.beside r).proxyGeneration = s.proxyGeneration := rfl
    simp only [cachedProxyList, hp, hg]
    split
    · split
      · rfl
      · split <;> rfl
    · rfl
  simp only [listProxies, hc]
  split <;> rfl

theorem nodeRoster_beside : nodeRoster config o now (s.beside r) conn name token =
    (nodeRoster config o now s conn name token).beside r := by
  have hp : proves (s.beside r) name token = proves s name token := rfl
  simp only [nodeRoster, hp]
  split
  · rfl
  · split <;> rfl

theorem proxyDeregister_beside :
    proxyDeregister (s.beside r) conn name token = (proxyDeregister s conn name token).beside r := by
  have hp : (s.beside r).proxies = s.proxies := rfl
  simp only [proxyDeregister, hp]
  split
  · split <;> rfl
  · rfl

theorem proxyAnnounce_beside {port : Nat} : proxyAnnounce now (s.beside r) conn name port token =
    (proxyAnnounce now s conn name port token).beside r := by
  have hp : (s.beside r).proxies = s.proxies := rfl
  simp only [proxyAnnounce, hp]
  split
  · split <;> rfl
  · split <;> rfl

theorem handle_beside {command : DiscoveryCommand} : handle config o now (s.beside r) conn id command =
    (handle config o now s conn id command).beside r := by
  unfold handle
  split
  case isTrue => rfl
  case isFalse =>
    cases command <;> dsimp only
    case auth =>
      simp only [auth]
      split <;> rfl
    case heartbeat       => exact heartbeat_beside r
    case list            => exact list_beside r
    case listProxies     => exact listProxies_beside r
    case nodeRoster      => exact nodeRoster_beside r
    case proxyDeregister => exact proxyDeregister_beside r
    case proxyAnnounce   => exact proxyAnnounce_beside r
    case nodeLeave name token _ =>
      exact beside_of_within r (f := fun s => leave now s conn name token) fun r => leave_within r
    case join name port token _ =>
      exact beside_of_within r (f := fun s => join config o now s conn id name port token)
        fun r => join_within r
    case complete report _ =>
      exact beside_of_within r (f := fun s => complete now s conn report) fun r => complete_within r
    case announce name port token rejoinCapable _ =>
      exact beside_of_within r
        (f := fun s => announceNode config o now s conn name port token rejoinCapable)
        fun r => announceNode_within r

theorem sameTasks_handle {command : DiscoveryCommand} :
    SameTasks s (handle config o now s conn id command).state := by
  have h := congrArg Handled.state (@handle_beside s config o now s conn id command)
  change (handle config o now s conn id command).state = _ at h
  rw [h]
  exact ⟨rfl, rfl, rfl, rfl⟩

end Tasks

section Exec

-- What an event comes to.
inductive Step (config : Config) (o : Orders) (now : Instant) (s : Discovery) :
    Event → Discovery → Option Bytes → Prop
  | accept {peerIp : Bytes} :
    Step config o now s (.accept peerIp) { s.setConnection s.nextConnectionId (some {
        peerIp        := peerIp
        authenticated := config.authSecret.isNone
        identity      := none
        phase         := .reading }) with
      nextConnectionId := s.nextConnectionId + 1 } none
  | frame {id : Nat} {command : DiscoveryCommand} {conn : Connection} :
    (s.connections.lookup id = some conn) → (conn.phase = .reading) →
    Step config o now s (.frame id command)
      ((handle config o now s conn id command).state.setConnection id
        (handle config o now s conn id command).conn)
      (handle config o now s conn id command).answer
  | proceed {id : Nat} {conn : Connection} {s' : Discovery} {conn' : Option Connection}
      {answer : Option Bytes} :
    (s.connections.lookup id = some conn) → (goOn config o now s conn = some (s', conn', answer)) →
    Step config o now s (.proceed id) (s'.setConnection id conn') answer
  | wake {id : Nat} {conn conn' : Connection} {answer : Option Bytes} :
    (s.connections.lookup id = some conn) → (lookAgain s conn = some (conn', answer)) →
    Step config o now s (.wake id) (s.setConnection id conn') answer
  | hangup {id : Nat} {conn : Connection} {s' : Discovery} {conn' : Option Connection} :
    (s.connections.lookup id = some conn) → (hangUp now s conn id = some (s', conn')) →
    Step config o now s (.hangup id) (s'.setConnection id conn') none
  | tick : Step config o now s .tick (s.sweepTick config o now) none
  | work {s' : Discovery} : (s.work config o now = some s') → Step config o now s .work s' none
  | credit {join : JoinIdentity} {entries : Nat} :
    Step config o now s (.credit join entries) (s.creditMigrateSendResult join entries) none

theorem step_of_exec {e : Event} {answer : Option Bytes}
    (h : s.exec config o now e = some (s', answer)) : Step config o now s e s' answer := by
  cases e <;> rw [exec] at h
  case accept | tick | credit =>
    cases h
    constructor
  case frame id command =>
    obtain ⟨conn, hl, h⟩ := Option.bind_eq_some_iff.mp h
    obtain ⟨hp, h⟩ := Option.ite_none_right_eq_some.mp h
    cases h
    exact .frame hl hp
  case proceed id =>
    obtain ⟨conn, hl, h⟩ := Option.bind_eq_some_iff.mp h
    obtain ⟨⟨s₁, conn', answer'⟩, hg, h⟩ := Option.bind_eq_some_iff.mp h
    cases h
    exact .proceed hl hg
  case wake id =>
    obtain ⟨conn, hl, h⟩ := Option.bind_eq_some_iff.mp h
    obtain ⟨⟨conn', answer'⟩, hg, h⟩ := Option.bind_eq_some_iff.mp h
    cases h
    exact .wake hl hg
  case hangup id =>
    obtain ⟨conn, hl, h⟩ := Option.bind_eq_some_iff.mp h
    obtain ⟨⟨s₁, conn'⟩, hg, h⟩ := Option.bind_eq_some_iff.mp h
    cases h
    exact .hangup hl hg
  case work =>
    obtain ⟨s₁, hw, h⟩ := Option.bind_eq_some_iff.mp h
    cases h
    exact .work hw

end Exec

end Nanocached.Discovery
