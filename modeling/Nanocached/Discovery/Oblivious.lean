import Nanocached.Discovery.Frame

namespace Nanocached.Discovery

-- The same, with other connections. What is done to the registry does not look at them.
def on (s : Discovery) (connections : Map Nat Connection) : Discovery :=
  { s with connections }

variable (s : Discovery) (C : Map Nat Connection) (config : Config) (o : Orders) (now : Instant)

theorem on_of_within {s s' : Discovery} (h : Within s s') : s'.within (s.on C) = s'.on C := by
  rw [h]
  rfl

theorem tryBeginNextJoin_on :
    (s.on C).tryBeginNextJoin config o now = (s.tryBeginNextJoin config o now).on C :=
  (tryBeginNextJoin_within (s.on C)).trans (on_of_within C within_tryBeginNextJoin)

theorem abandonCurrentJoin_on (join : JoinIdentity) : (s.on C).abandonCurrentJoin now join =
    ((s.abandonCurrentJoin now join).1.on C, (s.abandonCurrentJoin now join).2) := by
  rw [← on_of_within C within_abandonCurrentJoin]
  exact abandonCurrentJoin_within (s.on C)

theorem creditMigrateSendResult_on (join : JoinIdentity) (entries : Nat) :
    (s.on C).creditMigrateSendResult join entries = (s.creditMigrateSendResult join entries).on C :=
  (creditMigrateSendResult_within (s.on C)).trans (on_of_within C within_credit)

section Sweep

theorem refreshStalled_on (stalled : Bool) :
    (s.on C).refreshStalled now stalled = (s.refreshStalled now stalled).on C := by
  simp only [refreshStalled, on]
  split <;> rfl

theorem spawn_on (fanout : Fanout) : (s.on C).spawn fanout = (s.spawn fanout).on C := by
  have hf : (s.on C).fanout = s.fanout := rfl
  simp only [spawn, hf]
  split <;> rfl

theorem abandonEvicted_on (names : List Bytes) :
    (s.on C).abandonEvicted names = (s.abandonEvicted names).on C := by
  have hc : (s.on C).currentJoin = s.currentJoin := rfl
  have hf : (s.on C).fanout = s.fanout := rfl
  have he : (s.on C).evictedMembers = s.evictedMembers := rfl
  simp only [abandonEvicted, hc, hf, he, spawn_on]
  split
  · rfl
  · split <;> rfl

theorem abandonTimedOut_on : (s.on C).abandonTimedOut now = (s.abandonTimedOut now).on C := by
  have hc : (s.on C).currentJoin = s.currentJoin := rfl
  simp only [abandonTimedOut, hc, spawn_on]
  split <;> rfl

theorem kickGraceJoins_on :
    (s.on C).kickGraceJoins config now = (s.kickGraceJoins config now).on C := by
  have hk : (s.on C).graceJoinsKicked = s.graceJoinsKicked := rfl
  have hf : (s.on C).fanout = s.fanout := rfl
  simp only [kickGraceJoins, hk, hf, spawn_on]
  split <;> rfl

theorem sweepTick_on : (s.on C).sweepTick config o now = (s.sweepTick config o now).on C := by
  have hr := refreshStalled_on { s with lastTick := now } C now
  have hd : ∀ s : Discovery, (s.on C).dropProxies config now = (s.dropProxies config now).on C :=
    fun _ => rfl
  have he : ∀ s : Discovery, (s.on C).evict config o now =
      ((s.evict config o now).1, (s.evict config o now).2.on C) := fun _ => rfl
  have ha : ∀ (s : Discovery) stalled names, (s.on C).recordAll now stalled names =
      (s.recordAll now stalled names).on C := fun _ _ _ => rfl
  have ht : (s.on C).lastTick = s.lastTick := rfl
  have hs : { s.on C with lastTick := now } = { s with lastTick := now }.on C := rfl
  simp only [sweepTick, sweepNodes, ht, hs, hr, hd, he, ha, abandonEvicted_on, abandonTimedOut_on,
    kickGraceJoins_on]

theorem work_on : (s.on C).work config o now = (s.work config o now).map (·.on C) := by
  have hf : (s.on C).fanout = s.fanout := rfl
  simp only [work, hf, abandonCurrentJoin_on, tryBeginNextJoin_on]
  split <;> rfl

theorem connections_sweepTick {s : Discovery} {config : Config} {o : Orders} {now : Instant} :
    (s.sweepTick config o now).connections = s.connections := by
  have hs : s.sweepTick config o now = _ := sweepTick_on s s.connections config o now
  rw [hs]
  rfl

theorem connections_of_work {s s' : Discovery} {config : Config} {o : Orders} {now : Instant}
    (hw : s.work config o now = some s') : s'.connections = s.connections := by
  have hs : s.work config o now = _ := work_on s s.connections config o now
  rw [hw] at hs
  rw [Option.some.inj hs]
  rfl

end Sweep

section Handlers

variable (conn : Connection) (id : Nat)

-- What a handler comes to, with other connections.
def Handled.on (handled : Handled) (C : Map Nat Connection) : Handled :=
  { handled with state := handled.state.on C }

theorem handle_on (command : DiscoveryCommand) : handle config o now (s.on C) conn id command =
    (handle config o now s conn id command).on C := by
  have hs : handle config o now s conn id command =
    (handle config o now s conn id command).beside s := handle_beside s
  rw [hs]
  exact handle_beside (s.on C)

theorem on_of_some {α : Type} {f : Discovery → Option (Discovery × α)}
    (hf : ∀ r, f (s.within r) = (f s).map fun x => (x.1.within r, x.2)) :
    f (s.on C) = (f s).map fun x => (x.1.on C, x.2) := by
  have hc : f (s.on C) = _ := hf (s.on C)
  rw [hc]
  cases h : f s
  case none   => rfl
  case some x => rw [Option.map_some, on_of_within C (within_of_some hf h), Option.map_some]

theorem goOn_on : goOn config o now (s.on C) conn =
    (goOn config o now s conn).map fun gone => (gone.1.on C, gone.2) :=
  on_of_some s C (f := fun s => goOn config o now s conn) fun r => goOn_within r

theorem hangUp_on : hangUp now (s.on C) conn id =
    (hangUp now s conn id).map fun gone => (gone.1.on C, gone.2) :=
  on_of_some s C (f := fun s => hangUp now s conn id) fun r => hangUp_within r

end Handlers

end Nanocached.Discovery
