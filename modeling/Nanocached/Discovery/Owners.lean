import Nanocached.Discovery.Attended
import Nanocached.Discovery.Oblivious

namespace Nanocached.Discovery

variable {s s' : Discovery} {c c' : Core} {config : Config} {o : Orders} {start now now' : Instant}
variable {seed id : Nat} {name token : Bytes} {info info' : NodeInfo} {conn : Connection}
variable {conn' : Option Connection} {scope : Scope}

def Phase.about : Phase → Option Bytes
  | .staging name | .parked name => some name
  | .reading | .verdict _ | .acking | .cancelling _ | .ending => none

-- A node that has not joined yet belongs to the connection that waits for it.
structure Owned (s : Discovery) : Prop where
  owner    : ∀ {name info}, s.nodes.lookup name = some info → info.state ≠ .joined →
               ∃ conn, s.connections.lookup info.ownerConnectionId = some conn ∧
                 conn.phase.about = some name
  identity : ∀ {id conn name}, s.connections.lookup id = some conn → conn.phase = .parked name →
               conn.identity = some name

-- The entries of nodes that have not joined are still those they were.
def Inherits (c c' : Core) : Prop :=
  ∀ {name info'}, c'.nodes.lookup name = some info' → info'.state ≠ .joined →
    ∃ info, c.nodes.lookup name = some info ∧ info.state ≠ .joined ∧
      info'.ownerConnectionId = info.ownerConnectionId

theorem inherits_of_changes {kind : Kind} (hk : ∀ name id, kind ≠ .registers name id)
    (changes : Changes kind c c') : Inherits c c' :=
  fun hl hj => (owner_of_changes changes hl hj).resolve_right (hk _ _)

theorem inherits_of_moves (hs : scope.registers = none) (moves : Moves scope c c') :
    Inherits c c' := by
  obtain ⟨kind, mid, hk, changes, starts⟩ := moves
  have hk : ∀ name id, kind ≠ .registers name id := by
    rintro name id rfl
    simp [Kind.Fits, hs] at hk
  intro name info' hl hj
  obtain ⟨info₁, hl₁, hj₁, ho₁⟩ := inherits_of_changes (by simp) starts hl hj
  obtain ⟨info, hl, hj, ho⟩ := inherits_of_changes hk changes hl₁ hj₁
  exact ⟨info, hl, hj, ho₁.trans ho⟩

theorem owned_of_inherits (h : Owned s) (hc : s'.connections = s.connections)
    (hi : Inherits s.toCore s'.toCore) : Owned s' := by
  constructor
  case owner =>
    intro name info' hl hj
    obtain ⟨info, hl, hj, ho⟩ := hi hl hj
    rw [hc, ho]
    exact h.owner hl hj
  case identity =>
    rw [hc]
    exact h.identity

-- A step of the task of a connection. Whatever it owns is still what it is about.
theorem owned_of_connection (h : Owned s) (hs : s'.connections = s.connections)
    (hl : s.connections.lookup id = some conn)
    (hi : ∀ {name info'}, s'.nodes.lookup name = some info' → info'.state ≠ .joined →
      (∃ info, s.nodes.lookup name = some info ∧ info.state ≠ .joined ∧
        info'.ownerConnectionId = info.ownerConnectionId ∧ info.ownerConnectionId ≠ id) ∨
      info'.ownerConnectionId = id ∧ conn'.bind (·.phase.about) = some name)
    (hid : ∀ {name}, (∃ c, conn' = some c ∧ c.phase = .parked name) →
      conn'.bind (·.identity) = some name) :
    Owned (s'.setConnection id conn') := by
  have hlookup : ∀ {id'}, id' ≠ id →
      (s'.setConnection id conn').connections.lookup id' = s.connections.lookup id' := by
    intro id' hn
    rw [setConnection, hs]
    cases conn'
    case none => exact AList.lookup_erase_ne hn
    case some => exact AList.lookup_insert_ne hn
  have hself : (s'.setConnection id conn').connections.lookup id = conn' := by
    rw [setConnection]
    cases conn'
    case none => exact AList.lookup_erase _ _
    case some => exact AList.lookup_insert _
  constructor
  case owner =>
    intro name info' hl' hj
    rcases hi hl' hj with ⟨info, hl', hj, ho, hn⟩ | ⟨ho, hp⟩
    · rw [ho, hlookup hn]
      exact h.owner hl' hj
    · rw [ho, hself]
      obtain ⟨c, hc, hp⟩ := Option.bind_eq_some_iff.mp hp
      exact ⟨c, hc, hp⟩
  case identity =>
    intro id' c name hc hp
    by_cases hn : id' = id
    case neg => exact h.identity (hlookup hn ▸ hc) hp
    case pos =>
      subst hn
      rw [hself] at hc
      have := hid ⟨c, hc, hp⟩
      simpa [hc] using this

-- A connection that is not about a node owns none.
theorem not_owner (h : Owned s) (hl : s.connections.lookup id = some conn)
    (hp : conn.phase.about ≠ some name) (hn : s.nodes.lookup name = some info)
    (hj : info.state ≠ .joined) : info.ownerConnectionId ≠ id := by
  rintro rfl
  obtain ⟨c, hc, ha⟩ := h.owner hn hj
  cases hl.symm.trans hc
  exact hp ha

section Steps

theorem not_parked_handle {command : DiscoveryCommand} (hp : conn.phase = .reading) :
    (handle config o now s conn id command).conn.phase ≠ .parked name := by
  unfold handle
  split
  case isTrue => simp [close]
  case isFalse =>
    cases command <;> dsimp only
    case auth =>
      rw [auth]
      split <;> simp [close, hp]
    case heartbeat name replication token pendingJoiner _ =>
      rw [heartbeat]
      split
      · split
        · dsimp only
          split <;> cases pendingJoiner <;> simp
        · simp [close]
      · simp [close]
    case list =>
      rw [list]
      split
      · simp [close]
      · dsimp only
        split <;> simp [close, hp]
    case listProxies =>
      rw [listProxies]
      split <;> simp [close, hp]
    case nodeLeave =>
      rw [leave]
      split <;> simp [close, hp]
    case proxyDeregister =>
      rw [proxyDeregister]
      split
      · split <;> simp [close, hp]
      · simp [hp]
    case proxyAnnounce =>
      rw [proxyAnnounce]
      split <;> split <;> simp [close, hp]
    case join =>
      rw [join]
      split <;> simp [close]
    case complete =>
      rw [complete]
      split <;> simp [hp]
    case announce =>
      rw [announceNode]
      split
      · simp [close]
      · split <;> simp [close, hp]
    case nodeRoster =>
      rw [nodeRoster]
      split
      · simp [close]
      · split <;> simp [close, hp]

theorem owner_of_join {joiner : Bytes} {port : Nat}
    (hl : (join config o now s conn id joiner port token).state.nodes.lookup name = some info')
    (hj : info'.state ≠ .joined) :
    (∃ info, s.nodes.lookup name = some info ∧ info.state ≠ .joined ∧
      info'.ownerConnectionId = info.ownerConnectionId) ∨
    info'.ownerConnectionId = id ∧
      (join config o now s conn id joiner port token).conn.phase = .staging name := by
  rw [join] at hl ⊢
  split at hl
  case h_2 => exact .inl ⟨info', hl, hj, rfl⟩
  case h_1 hs =>
    obtain ⟨mid, changes, starts⟩ := changes_startJoin hs
    obtain ⟨info₁, hl₁, hj₁, ho₁⟩ := inherits_of_changes (by simp) starts hl hj
    rcases owner_of_changes changes hl₁ hj₁ with ⟨info, hl, hj, ho⟩ | hk
    · exact .inl ⟨info, hl, hj, ho₁.trans ho⟩
    · obtain ⟨rfl, hid⟩ := Kind.registers.inj hk
      exact .inr ⟨ho₁.trans hid.symm, rfl⟩

theorem owned_of_frame {command : DiscoveryCommand} (ha : Agrees s.toCore) (h : Owned s)
    (hl : s.connections.lookup id = some conn) (hp : conn.phase = .reading) :
    Owned ((handle config o now s conn id command).state.setConnection id
      (handle config o now s conn id command).conn) := by
  refine owned_of_connection h sameTasks_handle.connections hl ?_ ?_
  case refine_2 =>
    rintro name ⟨c, hc, hp'⟩
    cases hc
    exact absurd hp' (not_parked_handle hp)
  case refine_1 =>
    have hne : ∀ {name info}, s.nodes.lookup name = some info → info.state ≠ .joined →
        info.ownerConnectionId ≠ id := fun hn hj => not_owner h hl (by simp [hp, Phase.about]) hn hj
    have hm := @moves_handle s config o now conn id command ha
    intro name info' hl' hj
    cases hr : command.registers
    case none =>
      obtain ⟨info, hn, hj, ho⟩ := inherits_of_moves (by simp [hr]) hm hl' hj
      exact .inl ⟨info, hn, hj, ho, hne hn hj⟩
    case some =>
      cases command <;> simp [DiscoveryCommand.registers] at hr
      unfold handle at hl' ⊢
      split at hl'
      case isTrue => exact .inl ⟨info', hl', hj, rfl, hne hl' hj⟩
      case isFalse hn =>
        rw [if_neg hn]
        rcases owner_of_join hl' hj with ⟨info, hn, hj, ho⟩ | ⟨ho, hp'⟩
        · exact .inl ⟨info, hn, hj, ho, hne hn hj⟩
        · exact .inr ⟨ho, by simp [hp', Phase.about]⟩

theorem owned_of_proceed {answer : Option Bytes} (h : Owned s)
    (hl : s.connections.lookup id = some conn)
    (hg : goOn config o now s conn = some (s', conn', answer)) : Owned (s'.setConnection id conn') := by
  have hc := (within_of_goOn hg).sameTasks.connections
  have hne : conn.phase.about = none → ∀ {name info}, s.nodes.lookup name = some info →
      info.state ≠ .joined → info.ownerConnectionId ≠ id :=
    fun hp _ _ hn hj => not_owner h hl (by simp [hp]) hn hj
  have hm : Inherits s.toCore s'.toCore :=
    inherits_of_moves rfl (moves_of_goOn hg : Moves ⟨none, none⟩ s.toCore s'.toCore)
  rw [goOn] at hg
  split at hg <;> cases hg
  case h_2 name hp =>
    refine owned_of_connection h hc hl ?_ ?_
    · intro name' info' hl' hj
      by_cases hn : info'.ownerConnectionId = id
      case neg => exact .inl ⟨info', hl', hj, rfl, hn⟩
      case pos =>
        obtain ⟨c, hc, ha⟩ := h.owner hl' hj
        cases (hn ▸ hc).symm.trans hl
        refine .inr ⟨hn, ?_⟩
        simpa [hp, Phase.about] using ha
    · rintro name' ⟨c, hc, hp'⟩
      cases hc
      cases hp'
      rfl
  all_goals
    rename_i hp
    refine owned_of_connection h hc hl ?_ (by simp)
    intro name info' hl' hj
    obtain ⟨info, hn, hj, ho⟩ := hm hl' hj
    exact .inl ⟨info, hn, hj, ho, hne (by simp [hp, Phase.about]) hn hj⟩

theorem owned_of_wake {c : Connection} {answer : Option Bytes} (h : Owned s)
    (hl : s.connections.lookup id = some conn) (hg : lookAgain s conn = some (c, answer)) :
    Owned (s.setConnection id (some c)) := by
  rw [lookAgain] at hg
  split at hg
  case h_2 => contradiction
  case h_1 name hp =>
    -- What the connection owns is what it is parked on.
    have hown : ∀ {name' info}, s.nodes.lookup name' = some info → info.state ≠ .joined →
        info.ownerConnectionId = id → name' = name := by
      rintro name' info hn hj rfl
      obtain ⟨c, hc, ha⟩ := h.owner hn hj
      cases hl.symm.trans hc
      simpa [hp, Phase.about, eq_comm] using ha
    split at hg
    case h_2 hnone =>
      cases hg
      refine owned_of_connection h rfl hl ?_ (by simp)
      intro name' info' hl' hj
      refine .inl ⟨info', hl', hj, rfl, fun ho => ?_⟩
      simp [hown hl' hj ho ▸ hl'] at hnone
    case h_1 info hn =>
      split at hg <;> cases hg
      case isTrue hj =>
        refine owned_of_connection h rfl hl ?_ (by simp)
        intro name' info' hl' hj'
        refine .inl ⟨info', hl', hj', rfl, fun ho => ?_⟩
        cases hn.symm.trans (hown hl' hj' ho ▸ hl')
        exact hj' hj
      case isFalse =>
        refine owned_of_connection h rfl hl ?_ ?_
        · intro name' info' hl' hj'
          by_cases ho : info'.ownerConnectionId = id
          case neg => exact .inl ⟨info', hl', hj', rfl, ho⟩
          case pos => exact .inr ⟨ho, by simp [hp, Phase.about, hown hl' hj' ho]⟩
        · rintro name' ⟨c, hc, hp'⟩
          cases hc
          exact h.identity hl hp'

theorem lookup_abandonIf {concerns : PendingJoin → Bool} (hl : s.nodes.lookup name = none) :
    (s.abandonIf now concerns).1.nodes.lookup name = none := by
  rw [abandonIf]
  split
  case h_2 => exact hl
  case h_1 =>
    split
    case isFalse => exact hl
    case isTrue =>
      rw [abandonCurrentJoin]
      split
      case h_2 => exact hl
      case h_1 pending _ =>
        split
        case isFalse => exact hl
        case isTrue =>
          dsimp only
          rw [removeNode]
          split
          · dsimp only
            rw [AList.lookup_erase_eq_ite]
            split
            · rfl
            · exact hl
          · exact hl

-- The entry that the connection owns is gone with it.
theorem lookup_onNodeConnectionEnded (hl : s.nodes.lookup name = some info)
    (hj : info.state ≠ .joined) (ho : info.ownerConnectionId = id) :
    (s.onNodeConnectionEnded now name id).1.nodes.lookup name = none := by
  simp only [onNodeConnectionEnded, hl, if_pos (And.intro hj ho)]
  apply lookup_abandonIf
  rw [removeNode, if_pos (AList.mem_of_lookup hl)]
  exact AList.lookup_erase _ _

theorem owned_of_hangup (ha : Agrees s.toCore) (h : Owned s)
    (hl : s.connections.lookup id = some conn) (hg : hangUp now s conn id = some (s', conn')) :
    Owned (s'.setConnection id conn') := by
  have hc := (within_of_hangUp hg).sameTasks.connections
  have hi : Inherits s.toCore s'.toCore := inherits_of_changes (by simp) (changes_of_hangUp ha hg)
  obtain ⟨hp, hs⟩ := hangUp_cases hg
  refine owned_of_connection h hc hl ?_ ?_
  case refine_2 =>
    rintro name ⟨c, rfl, hp⟩
    rcases hs with ⟨-, -, hn⟩ | ⟨_, taken, -, -, hn⟩
    · contradiction
    · split at hn <;> cases hn
      contradiction
  case refine_1 =>
    intro name info' hl' hj'
    obtain ⟨info, hn, hj, ho⟩ := hi hl' hj'
    refine .inl ⟨info, hn, hj, ho, ?_⟩
    intro hid
    obtain ⟨c, hc, hab⟩ := h.owner hn hj
    cases (hid ▸ hc).symm.trans hl
    rcases hp with hp | ⟨name', hp⟩ | hp <;> simp [hp, Phase.about] at hab
    subst hab
    rcases hs with ⟨hn', -⟩ | ⟨_, taken, hn', he, -⟩
    · simp [h.identity hl hp] at hn'
    · cases (h.identity hl hp).symm.trans hn'
      have hgone := @lookup_onNodeConnectionEnded s now id name' info hn hj hid
      rw [he] at hgone
      simp [hgone] at hl'

theorem owned_accept (hk : ∀ {id conn}, s.connections.lookup id = some conn → id < s.nextConnectionId)
    (h : Owned s) (hp : conn.phase = .reading) : Owned { s.setConnection s.nextConnectionId (some conn) with
      nextConnectionId := s.nextConnectionId + 1 } := by
  constructor
  case owner =>
    intro name info hl hj
    obtain ⟨c, hc, ha⟩ := h.owner hl hj
    exact ⟨c, (AList.lookup_insert_ne (hk hc).ne).trans hc, ha⟩
  case identity =>
    intro id' c name hc hp'
    change (s.connections.insert _ _).lookup id' = _ at hc
    rw [AList.lookup_insert_eq_ite] at hc
    split at hc
    case isTrue =>
      cases hc
      simp [hp] at hp'
    case isFalse => exact h.identity hc hp'

theorem owned_of_exec {e : Event} {answer : Option Bytes} (ha : Agrees s.toCore)
    (hk : ∀ {id conn}, s.connections.lookup id = some conn → id < s.nextConnectionId) (h : Owned s)
    (he : s.exec config o now e = some (s', answer)) : Owned s' := by
  have hm := moves_of_exec ha he
  cases step_of_exec he
  case accept        => exact owned_accept hk h rfl
  case frame hl hp   => exact owned_of_frame ha h hl hp
  case proceed hl hg => exact owned_of_proceed h hl hg
  case wake hl hg    => exact owned_of_wake h hl hg
  case hangup hl hg  => exact owned_of_hangup ha h hl hg
  case tick          => exact owned_of_inherits h connections_sweepTick (inherits_of_moves rfl hm)
  case work hw       => exact owned_of_inherits h (connections_of_work hw) (inherits_of_moves rfl hm)
  case credit =>
    exact owned_of_inherits h within_credit.sameTasks.connections (inherits_of_moves rfl hm)

end Steps

theorem Reaches.owned (h : Reaches config start seed now s) : Owned s := by
  induction h
  case initial => exact ⟨by simp [Discovery.initial], by simp [Discovery.initial]⟩
  case exec hr _ he hi => exact owned_of_exec hr.agrees hr.attended.known hi he

end Nanocached.Discovery
