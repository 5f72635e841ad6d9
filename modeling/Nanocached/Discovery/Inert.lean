import Nanocached.Discovery.Owners
import Nanocached.Lib.Erasure

namespace Nanocached.Discovery

-- The name is registered, and with another token.
def forged (s : Discovery) (name token : Bytes) : Bool :=
  (s.nodes.lookup name).any (·.token ≠ token)

def wrongToken (s : Discovery) : DiscoveryCommand → Bool
  | .join name _ token          => s.forged name token
  | .announce name _ token _    => s.forged name token
  | .heartbeat name _ token _   => s.forged name token
  | .nodeLeave name token       => s.forged name token
  | .nodeRoster name token      => s.forged name token
  -- The token is the one that was recorded for the pending join.
  | .complete report            =>
    s.currentJoin.all fun pending => pending.expected.lookup report.name ≠ some report.token
  | .auth .. | .list | .listProxies | .proxyDeregister .. | .proxyAnnounce .. => false

def Phase.idle : Phase → Bool
  | .reading | .ending => true
  | .verdict _ | .staging _ | .parked _ | .acking | .cancelling _ => false

-- A frame with a wrong token, or the end of a connection that nobody waits on.
def inert (s : Discovery) : Event → Bool
  | .frame _ command => s.wrongToken command
  | .hangup id       => (s.connections.lookup id).any (·.phase.idle)
  | .accept _ | .proceed _ | .wake _ | .tick | .work | .credit .. => false

variable {s s' t t' : Discovery} {config : Config} {o : Orders} {start now now' : Instant}
variable {seed id : Nat} {name token : Bytes} {conn : Connection} {conn' : Option Connection}
variable {answer : Option Bytes}

section Handle

-- Nothing has come of the frame, except that the connection may be closed.
structure Ignored (s : Discovery) (conn : Connection) (handled : Handled) : Prop where
  state  : handled.state = s
  conn   : handled.conn = conn ∨ handled.conn = { conn with phase := .ending }
  answer : handled.answer = none ∨ handled.answer = some [65, 10] ∨
             handled.answer = some [69, 100, 10]

theorem ignored_close (h : answer = none ∨ answer = some [65, 10] ∨ answer = some [69, 100, 10]) :
    Ignored s conn (close s conn answer) :=
  ⟨rfl, .inr rfl, h⟩

theorem exists_of_forged (h : s.forged name token) :
    ∃ info, s.nodes.lookup name = some info ∧ info.token ≠ token := by
  rw [forged] at h
  cases hl : s.nodes.lookup name
  case none      => simp [hl] at h
  case some info => exact ⟨info, rfl, by simpa [hl] using h⟩

theorem ignored_join {port : Nat} (h : s.forged name token) :
    Ignored s conn (join config o now s conn id name port token) := by
  obtain ⟨info, hl, ht⟩ := exists_of_forged h
  simp only [join, startJoin, hl]
  by_cases hj : info.state = .joined
  · simp only [if_pos hj]
    exact ignored_close (by simp)
  · simp only [if_neg hj, if_pos ht]
    exact ignored_close (by simp)

theorem ignored_announceNode {port : Nat} {rejoinCapable : Bool} (h : s.forged name token) :
    Ignored s conn (announceNode config o now s conn name port token rejoinCapable) := by
  obtain ⟨info, hl, ht⟩ := exists_of_forged h
  have hr : s.announceNeedsRejoin now name = false := by
    simp [announceNeedsRejoin, AList.mem_of_lookup hl]
  simp only [announceNode, hr, Bool.false_eq_true, and_false, if_false, announce,
    applyAnnounceToExisting, hl, if_pos ht]
  exact ignored_close (by simp)

theorem ignored_heartbeat {replication : Option Nat} {joiner : Option Bytes}
    (h : s.forged name token) :
    Ignored s conn (heartbeat config o now s conn name replication token joiner) := by
  obtain ⟨info, hl, ht⟩ := exists_of_forged h
  simp only [heartbeat, hl, ht, and_false, if_false]
  exact ignored_close (by simp)

theorem ignored_leave (h : s.forged name token) :
    Ignored s conn (leave now s conn name token) := by
  obtain ⟨info, hl, ht⟩ := exists_of_forged h
  simp only [leave, nodeLeave, hl, if_neg ht]
  exact ignored_close (by simp)

theorem ignored_nodeRoster (h : s.forged name token) :
    Ignored s conn (nodeRoster config o now s conn name token) := by
  obtain ⟨info, hl, ht⟩ := exists_of_forged h
  have hp : proves s name token = false := by simp [proves, hl, ht]
  simp only [nodeRoster, hp]
  exact ignored_close (by simp)

theorem ignored_complete {report : Report} (h : s.currentJoin.all fun pending =>
    pending.expected.lookup report.name ≠ some report.token) :
    Ignored s conn (complete now s conn report) := by
  have hc : s.handleComplete now report = (s, false) := by
    rw [handleComplete]
    split
    case h_2 => rfl
    case h_1 pending hp =>
      have hn : pending.credits report = false := by
        simp only [hp, Option.all_some, decide_eq_true_eq] at h
        simp [PendingJoin.credits, h]
      rw [hn]
      rfl
  rw [complete, hc]
  exact ⟨rfl, .inl rfl, by simp⟩

theorem ignored_handle {command : DiscoveryCommand} (h : s.wrongToken command) :
    Ignored s conn (handle config o now s conn id command) := by
  unfold handle
  split
  case isTrue => exact ignored_close (by simp)
  case isFalse =>
    cases command <;> dsimp only [wrongToken] at h ⊢
    case join       => exact ignored_join h
    case announce   => exact ignored_announceNode h
    case heartbeat  => exact ignored_heartbeat h
    case nodeLeave  => exact ignored_leave h
    case nodeRoster => exact ignored_nodeRoster h
    case complete   => exact ignored_complete h
    all_goals contradiction

end Handle

section Idle

-- The end of a connection that owns no node changes nothing else.
theorem eq_of_hangUp_idle (h : Owned s) (hl : s.connections.lookup id = some conn)
    (hp : conn.phase.idle) : hangUp now s conn id = some (s, none) := by
  have hended : ∀ name, s.onNodeConnectionEnded now name id = (s, false) := by
    intro name
    rw [onNodeConnectionEnded]
    split
    case h_2 => rfl
    case h_1 info hn =>
      split
      case isFalse => rfl
      case isTrue hi =>
        refine absurd hi.2 (not_owner h hl ?_ hn hi.1)
        cases hc : conn.phase <;> simp [hc, Phase.idle, Phase.about] at hp ⊢
  rw [hangUp]
  cases hc : conn.phase <;> simp [hc, Phase.idle] at hp
  all_goals
    dsimp only
    split
    · rw [hended]
    · rfl

-- A connection that has gone nowhere, or may be closed.
structure Rests (conn : Connection) (conn' : Option Connection) : Prop where
  idle : conn.phase.idle
  rest : ∀ {c}, conn' = some c → c.phase.idle ∧ c = { conn with phase := c.phase }

theorem exists_rests_of_inert {e : Event} (h : Owned s) (hi : s.inert e)
    (he : s.exec config o now e = some (s', answer)) :
    ∃ id conn conn', s.connections.lookup id = some conn ∧ Rests conn conn' ∧
      s' = s.setConnection id conn' := by
  cases step_of_exec he <;> dsimp only [inert] at hi
  case frame id command conn hl hp =>
    have hh := @ignored_handle s config o now id conn command hi
    refine ⟨id, conn, _, hl, ⟨by rw [hp]; rfl, ?_⟩, by rw [hh.state]⟩
    rintro c ⟨⟩
    rcases hh.conn with hc | hc <;> rw [hc]
    · exact ⟨by rw [hp]; rfl, rfl⟩
    · exact ⟨rfl, rfl⟩
  case hangup id conn s' conn' hl hg =>
    have hp : conn.phase.idle := by simpa [hl] using hi
    cases (eq_of_hangUp_idle h hl hp).symm.trans hg
    exact ⟨id, conn, none, hl, ⟨hp, by simp⟩, rfl⟩
  all_goals contradiction

end Idle

section Indistinct

-- Of a connection that is idle it does not matter whether it is there.
inductive Alike : Option Connection → Option Connection → Prop
  | same {c : Option Connection} : Alike c c
  | idle {c c' : Option Connection} :
    (∀ {x}, c = some x → x.phase.idle) → (∀ {x}, c' = some x → x.phase.idle) →
    (∀ {x x'}, c = some x → c' = some x' → x' = { x with phase := x'.phase }) → Alike c c'

theorem Alike.symm {c c' : Option Connection} (h : Alike c c') : Alike c' c := by
  cases h
  case same => exact .same
  case idle h₁ h₂ h₃ =>
    refine .idle h₂ h₁ fun hx hx' => ?_
    rw [h₃ hx' hx]

theorem alike_of_rests {other : Option Connection} (h : Alike (some conn) other)
    (hr : Rests conn conn') : Alike conn' other := by
  obtain ⟨hi, hrest⟩ := hr
  cases h
  case same =>
    refine .idle (fun hx => (hrest hx).1) ?_ fun hx hx' => ?_
    · rintro x ⟨⟩
      exact hi
    · cases hx'
      rw [(hrest hx).2]
  case idle h₁ h₂ h₃ =>
    refine .idle (fun hx => (hrest hx).1) h₂ fun hx hx' => ?_
    rw [h₃ rfl hx', (hrest hx).2]

-- The rest of the state is the same.
structure Indistinct (s t : Discovery) : Prop where
  rest        : t = s.on t.connections
  connections : ∀ id, Alike (s.connections.lookup id) (t.connections.lookup id)

theorem Indistinct.refl : Indistinct s s :=
  ⟨rfl, fun _ => .same⟩

theorem Indistinct.symm (h : Indistinct s t) : Indistinct t s := by
  refine ⟨?_, fun id => (h.connections id).symm⟩
  rw [h.rest]
  rfl

theorem lookup_setConnection {id' : Nat} : (s.setConnection id conn').connections.lookup id' =
    if id' = id then conn' else s.connections.lookup id' := by
  rw [setConnection]
  cases conn'
  case none => exact AList.lookup_erase_eq_ite
  case some => exact AList.lookup_insert_eq_ite

theorem indistinct_of_rests (h : Indistinct s t) (hl : s.connections.lookup id = some conn)
    (hr : Rests conn conn') : Indistinct (s.setConnection id conn') t := by
  constructor
  case rest => exact h.rest
  case connections =>
    intro id'
    have hc := h.connections id'
    rw [lookup_setConnection]
    split
    case isTrue hn =>
      rw [hn, hl] at hc
      exact hn ▸ alike_of_rests hc hr
    case isFalse => exact hc

theorem indistinct_of_inert {e : Event} (ho : Owned s) (h : Indistinct s t)
    (hi : s.inert e) (he : s.exec config o now e = some (s', answer)) : Indistinct s' t := by
  obtain ⟨id, conn, conn', hl, hr, rfl⟩ := exists_rests_of_inert ho hi he
  exact indistinct_of_rests h hl hr

-- The same happens to both.
theorem indistinct_setConnection (h : Indistinct s t) (hs : s'.connections = s.connections) :
    Indistinct (s'.setConnection id conn') ((s'.on t.connections).setConnection id conn') := by
  constructor
  case rest => rfl
  case connections =>
    intro id'
    rw [lookup_setConnection, lookup_setConnection]
    split
    case isTrue  => exact .same
    case isFalse => exact hs ▸ h.connections id'

theorem indistinct_on (h : Indistinct s t) (hs : s'.connections = s.connections) :
    Indistinct s' (s'.on t.connections) :=
  ⟨rfl, fun id => hs ▸ h.connections id⟩

theorem Alike.eq_of_reading {c c' : Connection} (h : Alike (some c) (some c'))
    (hp : c.phase = .reading) (hp' : c'.phase = .reading) : c' = c := by
  cases h
  case same => rfl
  case idle _ _ h =>
    have := h rfl rfl
    rw [this, hp', ← hp]

theorem Alike.eq_of_busy {c : Connection} {c' : Option Connection} (h : Alike (some c) c')
    (hp : c.phase.idle = false) : c' = some c := by
  cases h
  case same => rfl
  case idle hi _ _ => simp [hi rfl] at hp

theorem indistinct_accept (h : Indistinct s t) :
    Indistinct
      { s.setConnection s.nextConnectionId (some conn) with
        nextConnectionId := s.nextConnectionId + 1 }
      { t.setConnection t.nextConnectionId (some conn) with
        nextConnectionId := t.nextConnectionId + 1 } := by
  have hn : t.nextConnectionId = s.nextConnectionId := by
    rw [h.rest]
    rfl
  have hs := @indistinct_setConnection s s t s.nextConnectionId (some conn) h rfl
  rw [← h.rest] at hs
  rw [hn]
  refine ⟨?_, hs.connections⟩
  have hr := hs.rest
  rw [on] at hr ⊢
  rw [hr]

theorem busy_of_goOn
    (h : goOn config o now s conn = some (s', conn', answer)) : conn.phase.idle = false := by
  rw [goOn] at h
  split at h
  all_goals
    rename_i hp
    first
    | contradiction
    | (rw [hp]; rfl)

theorem busy_of_lookAgain {c : Connection}
    (h : lookAgain s conn = some (c, answer)) : conn.phase.idle = false := by
  rw [lookAgain] at h
  split at h
  case h_1 hp =>
    rw [hp]
    rfl
  case h_2 => contradiction

theorem indistinct_of_exec {e : Event} {a b : Option Bytes} (h : Indistinct s t)
    (hi : s.inert e = false) (he : s.exec config o now e = some (s', a))
    (he' : t.exec config o now e = some (t', b)) : a = b ∧ Indistinct s' t' := by
  -- Whatever is done to the one is done to the other, up to its connections.
  have ht : t = s.on t.connections := h.rest
  cases step_of_exec he
  case accept =>
    cases step_of_exec he'
    exact ⟨rfl, indistinct_accept h⟩
  case frame id command conn hl hp =>
    cases step_of_exec he'
    case frame conn₂ hp₂ hl₂ =>
      have hc := h.connections id
      rw [hl, hl₂] at hc
      cases hc.eq_of_reading hp hp₂
      have hh := handle_on s t.connections config o now conn id command
      rw [← ht] at hh
      rw [hh]
      exact ⟨rfl, indistinct_setConnection h sameTasks_handle.connections⟩
  case proceed id conn s₁ conn' hl hg =>
    cases step_of_exec he'
    case proceed hl₂ hg₂ =>
      cases hl₂.symm.trans ((hl ▸ h.connections id).eq_of_busy (busy_of_goOn hg))
      rw [ht, goOn_on, hg] at hg₂
      cases hg₂
      exact ⟨rfl, indistinct_setConnection h (within_of_goOn hg).sameTasks.connections⟩
  case wake id conn conn' hl hg =>
    cases step_of_exec he'
    case wake hl₂ hg₂ =>
      cases hl₂.symm.trans ((hl ▸ h.connections id).eq_of_busy (busy_of_lookAgain hg))
      have hg₁ : lookAgain t conn = some (conn', a) := by
        rw [ht]
        exact hg
      cases hg₁.symm.trans hg₂
      have hs := @indistinct_setConnection s s t id (some conn') h rfl
      rw [← ht] at hs
      exact ⟨rfl, hs⟩
  case hangup id conn s₁ conn' hl hg =>
    cases step_of_exec he'
    case hangup hl₂ hg₂ =>
      cases hl₂.symm.trans ((hl ▸ h.connections id).eq_of_busy (by simpa [inert, hl] using hi))
      rw [ht, hangUp_on, hg] at hg₂
      cases hg₂
      exact ⟨rfl, indistinct_setConnection h (within_of_hangUp hg).sameTasks.connections⟩
  case tick =>
    cases step_of_exec he'
    rw [ht, sweepTick_on]
    exact ⟨rfl, indistinct_on h connections_sweepTick⟩
  case work hw =>
    cases step_of_exec he'
    case work hw₂ =>
      rw [ht, work_on, hw] at hw₂
      cases hw₂
      exact ⟨rfl, indistinct_on h (connections_of_work hw)⟩
  case credit join entries =>
    cases step_of_exec he'
    rw [ht, creditMigrateSendResult_on]
    exact ⟨rfl, indistinct_on h within_credit.sameTasks.connections⟩

end Indistinct

section Runs

open Erasure

-- The clock does not go back.
def timedExec (config : Config) (state : Instant × Discovery) (label : Instant × Orders × Event) :
    Option ((Instant × Discovery) × Option Bytes) :=
  if state.1 ≤ label.1 then
    (state.2.exec config label.2.1 label.1 label.2.2).map fun (s, answer) => ((label.1, s), answer)
  else
    none

def timedInert (state : Instant × Discovery) (label : Instant × Orders × Event) : Bool :=
  state.2.inert label.2.2

theorem exec_of_timedExec {at₁ at₂ : Instant × Discovery} {label : Instant × Orders × Event}
    (h : timedExec config at₁ label = some (at₂, answer)) :
    at₁.1 ≤ at₂.1 ∧ at₁.2.exec config label.2.1 label.1 label.2.2 = some (at₂.2, answer) ∧
      at₂.1 = label.1 := by
  obtain ⟨ht, h⟩ := Option.ite_none_right_eq_some.mp h
  obtain ⟨⟨s, a⟩, he, h⟩ := Option.map_eq_some_iff.mp h
  cases h
  exact ⟨ht, he, rfl⟩

theorem reaches_of_timedExec {at₁ at₂ : Instant × Discovery} {label : Instant × Orders × Event}
    (hr : Reaches config start seed at₁.1 at₁.2)
    (h : timedExec config at₁ label = some (at₂, answer)) :
    Reaches config start seed at₂.1 at₂.2 := by
  obtain ⟨ht, he, hn⟩ := exec_of_timedExec h
  rw [← hn] at he
  exact .exec hr ht he

theorem unwinding : Unwinding (timedExec config) timedInert fun x y =>
    Reaches config start seed x.1 x.2 ∧ Reaches config start seed y.1 y.2 ∧ Indistinct x.2 y.2 where
  left := by
    rintro x y x' e a ⟨hx, hy, hi⟩ hin he
    refine ⟨reaches_of_timedExec hx he, hy, ?_⟩
    exact indistinct_of_inert hx.owned hi hin (exec_of_timedExec he).2.1
  right := by
    rintro x y y' e a ⟨hx, hy, hi⟩ hin he
    refine ⟨hx, reaches_of_timedExec hy he, ?_⟩
    exact (indistinct_of_inert hy.owned hi.symm hin (exec_of_timedExec he).2.1).symm
  both := by
    rintro x y x' y' e a b ⟨hx, hy, hi⟩ hin - he he'
    obtain ⟨rfl, hi⟩ :=
      indistinct_of_exec hi hin (exec_of_timedExec he).2.1 (exec_of_timedExec he').2.1
    exact ⟨rfl, reaches_of_timedExec hx he, reaches_of_timedExec hy he', hi⟩

theorem setConnection_setConnection {c : Connection} :
    (s.setConnection id (some c)).setConnection id none = s.setConnection id none := by
  simp only [setConnection, Option.elim, AList.erase_insert_self]

-- A frame with a wrong token, and the end of its connection, leave everything but the connection as
-- it was. Two runs that differ in such frames, and in the ends of connections that nobody waits on,
-- answer everything else alike.
theorem wrong_token_inert (config : Config) (start : Instant) (seed : Nat) :
    (∀ {now s}, Reaches config start seed now s →
      ∀ {o now' id command s' answer}, s.wrongToken command →
      s.exec config o now' (.frame id command) = some (s', answer) →
      (∃ conn, s' = s.setConnection id (some conn)) ∧
      (answer = none ∨ answer = some [65, 10] ∨ answer = some [69, 100, 10]) ∧
      ∀ {o now''}, s'.exec config o now'' (.hangup id) = some (s.setConnection id none, none)) ∧
    ∀ {events₁ events₂ end₁ end₂ kept₁ kept₂},
      keptRun (timedExec config) timedInert (start, initial start seed) events₁ = some (end₁, kept₁) →
      keptRun (timedExec config) timedInert (start, initial start seed) events₂ = some (end₂, kept₂) →
      kept₁.map Prod.fst = kept₂.map Prod.fst → kept₁ = kept₂ ∧ Indistinct end₁.2 end₂.2 := by
  constructor
  · intro now s hr o now' id command s' answer hw he
    have ho := owned_of_exec hr.agrees hr.attended.known hr.owned he
    cases step_of_exec he
    rename_i conn hp hl
    have hh := @ignored_handle s config o now' id conn command hw
    rw [hh.state] at ho ⊢
    refine ⟨⟨_, rfl⟩, hh.answer, fun {_ _} => ?_⟩
    have hi : (handle config o now' s conn id command).conn.phase.idle := by
      obtain h | h := hh.conn <;> simp [h, hp, Phase.idle]
    have hl' := AList.lookup_insert (a := id) (b := (handle config o now' s conn id command).conn)
      s.connections
    rw [exec]
    refine Option.bind_eq_some_iff.mpr ⟨_, hl', ?_⟩
    rw [eq_of_hangUp_idle ho hl' hi, ← setConnection_setConnection]
    rfl
  · intro events₁ events₂ end₁ end₂ kept₁ kept₂ h₁ h₂ hk
    have hr : Reaches config start seed start (initial start seed) := .initial
    obtain ⟨he, -, -, hi⟩ := unwinding.kept_eq ⟨hr, hr, .refl⟩ h₁ h₂ hk
    exact ⟨he, hi⟩

def inOrder (events : List (Instant × Event)) : List (Instant × Orders × Event) :=
  events.map fun event => (event.1, .asListed, event.2)

-- Another connection asks for the roster.
def asked : List (Instant × Event) :=
  [(8, .accept [51]), (9, .frame 4 .list)]

-- The third connection wants a registered node to leave, but does not have its token.
def forging : List (Instant × Event) :=
  joining ++ [(6, .frame 3 (.nodeLeave [97] [121])), (7, .hangup 3)]

theorem wrong_token_inert_joining :
    (∃ (s s' : Discovery) (answer : Option Bytes), s.wrongToken (.nodeLeave [97] [121]) ∧
      s.exec plain .asListed 6 (.frame 3 (.nodeLeave [97] [121])) = some (s', answer) ∧
      s'.exec plain .asListed 7 (.hangup 3) = some (s.setConnection 3 none, none)) ∧
    ∃ end₁ end₂ kept₁ kept₂,
      keptRun (timedExec plain) timedInert (0, initial 0 7) (inOrder (forging ++ asked)) =
        some (end₁, kept₁) ∧
      keptRun (timedExec plain) timedInert (0, initial 0 7) (inOrder (joining ++ asked)) =
        some (end₂, kept₂) ∧
      kept₁ = kept₂ ∧ Indistinct end₁.2 end₂.2 := by
  constructor
  · have hc : ((initial 0 7).run plain .asListed joining).map
        (fun s => (s.wrongToken (.nodeLeave [97] [121]),
          (s.exec plain .asListed 6 (.frame 3 (.nodeLeave [97] [121]))).isSome)) =
          some (true, true) := by
      decide +kernel
    obtain ⟨s, hr, hc⟩ := Option.map_eq_some_iff.mp hc
    obtain ⟨now, h⟩ := Reaches.initial.run (by decide) hr
    obtain ⟨hw, he⟩ := Prod.mk.inj hc
    obtain ⟨⟨s', answer⟩, he⟩ := Option.isSome_iff_exists.mp he
    exact ⟨s, s', answer, hw, he, ((wrong_token_inert plain 0 7).1 h hw he).2.2⟩
  · have hk {events : List (Instant × Event)} (he : events = forging ∨ events = joining) :
        ∃ e kept, keptRun (timedExec plain) timedInert (0, initial 0 7)
          (inOrder (events ++ asked)) = some (e, kept) ∧
          kept.map Prod.fst = inOrder (joining ++ asked) := by
      rcases he with rfl | rfl
      all_goals exact ⟨_, _, rfl, rfl⟩
    obtain ⟨end₁, kept₁, h₁, hk₁⟩ := hk (.inl rfl)
    obtain ⟨end₂, kept₂, h₂, hk₂⟩ := hk (.inr rfl)
    exact ⟨end₁, end₂, kept₁, kept₂, h₁, h₂,
      (wrong_token_inert plain 0 7).2 h₁ h₂ (hk₁.trans hk₂.symm)⟩

end Runs

end Nanocached.Discovery
