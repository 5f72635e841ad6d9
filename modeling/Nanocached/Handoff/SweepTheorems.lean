import Nanocached.Handoff.Primary
import Nanocached.Handoff.Traced

namespace Nanocached
namespace NodeContext

variable {node node' node'' : NodeContext} {now : Instant} {keys : List Key}

-- The handoff that is held stays the same, or it is a new one with a new flag.
structure Follows (node node' : NodeContext) : Prop where
  length : node.flags.length ≤ node'.flags.length
  held   : ∀ {id keys'}, node'.held = some (id, keys') → (∃ keys, node.held = some (id, keys)) ∨
             node.flags.length ≤ id ∧ id < node'.flags.length

theorem Calm.follows {decided : Set Nat} (h : node.Calm decided node') : node.Follows node' where
  length := h.length.ge
  held hh := by
    rcases h.held with he | ⟨he, _⟩
    · exact .inl ⟨_, he ▸ hh⟩
    · rw [he] at hh
      contradiction

theorem Abandons.follows (h : node.Abandons keys node') : node.Follows node' where
  length  := h.length.ge
  held hh := by
    rw [h.held] at hh
    contradiction

namespace Follows

theorem refl : node.Follows node where
  length  := le_rfl
  held hh := .inl ⟨_, hh⟩

theorem trans (h : node.Follows node') (h' : node'.Follows node'') : node.Follows node'' where
  length := h.length.trans h'.length
  held hh := by
    rcases h'.held hh with ⟨_, hh'⟩ | ⟨hge, hlt⟩
    · exact (h.held hh').imp_right fun ⟨hge, hlt⟩ => ⟨hge, hlt.trans_le h'.length⟩
    · exact .inr ⟨h.length.trans hge, hlt⟩

theorem of_map {f : ActiveMigration → ActiveMigration} (hl : node'.flags = node.flags)
    (hs : node'.activeMigration = node.activeMigration.map f)
    (hf : ∀ active, (f active).abortRequested = active.abortRequested)
    (hc : ∀ active, (f active).confirmed = active.confirmed) : node.Follows node' where
  length := by rw [hl]
  held hh := by
    have ⟨active', ha', hn, hi, _⟩ := held_eq_some.mp hh
    rw [hs] at ha'
    have ⟨active, ha, he⟩ := Option.map_eq_some_iff.mp ha'
    subst he
    exact .inl ⟨_, held_eq_some.mpr ⟨active, ha, hc active ▸ hn, hf active ▸ hi, rfl⟩⟩

theorem of_slot (hl : node'.flags = node.flags)
    (hs : node'.activeMigration = node.activeMigration) : node.Follows node' :=
  .of_map (f := id) hl (by simpa using hs) (fun _ => rfl) fun _ => rfl

end Follows

theorem follows_endHandoff : node.Follows (node.endHandoff now) :=
  have hc : node.Calm Set.univ (node.endHandoff now) := calm_endHandoff fun _ _ _ => trivial
  hc.follows

theorem follows_takePendingClears : node.Follows node.takePendingClears.2 :=
  have hc : node.Calm ∅ node.takePendingClears.2 := calm.takePendingClears
  hc.follows

end NodeContext

namespace MigrationGuard

open NodeContext

variable {node node' : NodeContext} {now : Instant}

theorem Reserves.follows {migrate : Migrate} {keys : List Key} {guard : MigrationGuard}
    (h : Reserves node migrate keys guard node') : node.Follows node' where
  length := by simp [h.length]
  held hh := by
    rw [h.held] at hh
    cases hh
    exact .inr ⟨h.guard.ge, by simp [h.length, h.guard]⟩

theorem follows_takeJoinMarks {guard : MigrationGuard} :
    node.Follows (guard.takeJoinMarks node).2 := by
  unfold takeJoinMarks
  split
  case h_1 => exact .refl
  case h_2 active ha =>
    split
    case isFalse => exact .refl
    case isTrue =>
      exact .of_map (f := fun active => { active with markedKeys := [] }) rfl (by rw [ha]; rfl)
        (fun _ => rfl) fun _ => rfl

theorem follows_completed {entriesSent : Nat} {markedKeys : List Key}
    {preCompletionRing : Option Membership} :
    node.Follows (completed node now entriesSent markedKeys preCompletionRing) :=
  .of_map rfl rfl (fun _ => rfl) fun _ => rfl

end MigrationGuard

namespace Node

open NodeContext MigrationGuard

variable {sha256 : Bytes → Vector UInt8 32} {s s' : Node} {now : Instant} {id : Nat} {task : Task}
         {event : Event} {outcome : Outcome}

theorem follows_rollBack : s.context.Follows (s.rollBack now id task).context := by
  have ht : s.context.Follows (takeJoinMarks ⟨id⟩ s.context).2 := follows_takeJoinMarks
  unfold rollBack
  dsimp only
  split
  · exact ht.trans follows_endHandoff
  · exact ht

theorem Segment.follows (h : Segment s now id task outcome s') :
    s.context.Follows s'.context := by
  have hf : s.context.Follows (s.flipped task) := .of_slot rfl rfl
  replace hf := hf.trans follows_takePendingClears
  cases h with
  | wait _ _ hc   => exact hc.follows
  | ask _ _ hc    => exact hc.follows
  | rollBack      => exact follows_rollBack
  | flip          => exact hf
  | replay _      => exact .refl
  | stamp _ h _ _ =>
    refine Follows.trans ?_ (follows_completed.trans follows_takePendingClears)
    rcases h with ⟨rfl, _⟩ | ⟨rfl, _⟩
    · exact .refl
    · exact hf

theorem Resumes.follows (h : Resumes s now id task outcome s') :
    s.context.Follows s'.context := by
  cases h with
  | segment _ _ _ _ h => exact h.follows
  | mark              => exact .refl
  | drop              => exact follows_endHandoff
  | report            => exact .refl
  | finish            => exact .refl

theorem Effect.follows (h : Effect sha256 s now event s') : s.context.Follows s'.context := by
  cases h with
  | calm _ hc _ =>
    have hc : s.context.Calm Set.univ _ := hc fun _ _ => trivial
    exact hc.follows
  | reserve hr  => simpa using hr.follows
  | lost        => exact follows_endHandoff
  | start       => exact .refl
  | resume _ hr => exact hr.follows
  | actor       => simpa using .refl
  | request     => exact .refl
  | sweep       => exact .refl
  | join hf _ hh hh' =>
    refine ⟨hf.length.ge, fun hh'' => .inl ?_⟩
    cases hh'.symm.trans hh''
    exact ⟨_, hh⟩
  | abandon _ ha => simpa using ha.follows

theorem held_of_confirms (h : s.confirms event = some id) :
    ∃ keys, s.context.held = some (id, keys) := by
  have of_members {members} (h : s.context.confirmedBy members = some id) :
      ∃ keys, s.context.held = some (id, keys) := by
    have ⟨active, ha, hn, _, _, hi⟩ := confirmedBy_eq_some.mp h
    exact ⟨_, held_eq_some.mpr ⟨active, ha, hn, hi, rfl⟩⟩
  cases event with
  | adopt members _ => exact of_members h
  | migrate migrate => exact of_members h
  | _               => contradiction

theorem held_of_undecided (h : s.undecided = some id) : ∃ keys, s.context.held = some (id, keys) := by
  have ⟨active, hf, hi⟩ := Option.map_eq_some_iff.mp h
  have ⟨ha, hn⟩ := Option.filter_eq_some_iff.mp hf
  simp only [Bool.and_eq_true, Bool.not_eq_true'] at hn
  exact ⟨_, held_eq_some.mpr ⟨active, ha, hn.right, hi, rfl⟩⟩

end Node

namespace Traced

open Node MarkCommand

variable {sha256 : Bytes → Vector UInt8 32} {meets : Node → Node.Event → Bool} {s s' : Traced}
         {now : Instant} {event : Node.Event}

-- A handoff that was given up is neither confirmed nor does it come back.
structure Apart (s : Traced) : Prop where
  fresh     : ∀ {id keys}, s.node.context.held = some (id, keys) →
                id < s.node.context.flags.length
  abandoned : ∀ {id}, id ∈ s.abandoned → id ∉ s.confirmed ∧ id < s.node.context.flags.length ∧
                ∀ keys, s.node.context.held ≠ some (id, keys)

theorem apart_of_exec (h : s.Apart) (he : s.exec sha256 now event = some s') : s'.Apart := by
  obtain ⟨node, hn, ⟨⟩⟩ := Option.bind_eq_some_iff.mp he
  have hf := (effect_of_exec hn).follows
  refine ⟨fun {id keys} hh => ?_, fun {id} hm => ?_⟩
  case refine_1 =>
    rcases hf.held hh with ⟨_, hh'⟩ | ⟨_, hlt⟩
    · exact (h.fresh hh').trans_le hf.length
    · exact hlt
  case refine_2 =>
    rcases List.mem_append.mp hm with hm | hm
    · have ⟨hu, hc⟩ := Option.filter_eq_some_iff.mp (Option.mem_toList.mp hm)
      have ⟨hne, hc⟩ := of_decide_eq_true hc
      have ⟨_, hh⟩ := held_of_undecided hu
      exact ⟨hc, (h.fresh hh).trans_le hf.length, fun keys hh => hne (by simp [hh])⟩
    · have ⟨hc, hlt, hne⟩ := h.abandoned hm
      refine ⟨fun hm => ?_, hlt.trans_le hf.length, fun keys hh => ?_⟩
      · rcases List.mem_append.mp hm with hm | hm
        · have ⟨keys, hh⟩ := held_of_confirms (Option.mem_toList.mp hm)
          exact hne keys hh
        · exact hc hm
      · rcases hf.held hh with ⟨keys, hh'⟩ | ⟨hge, _⟩
        · exact hne keys hh'
        · omega

theorem Reachable.apart (h : Reachable sha256 meets s) : s.Apart := by
  induction h
  case init node hn _ _ _ _ _ =>
    refine ⟨fun hh => ?_, fun hm => absurd hm List.not_mem_nil⟩
    rw [NodeContext.held_of_none hn] at hh
    contradiction
  case step _ _ he hi => exact apart_of_exec hi he

theorem Reachable.marks (h : Reachable sha256 dropsNoMarks s) :
    Marks sha256 s.node s.marks s.confirmed := by
  induction h
  case init node hn hb hc hq ht hr => exact .init hc hq ht
  case step _ hd he hi => exact marks_of_exec hi hd he

-- What a sweep of marked entries finds when the actor comes to it.
theorem Reachable.sweeps_confirmed (h : Reachable sha256 dropsNoMarks s)
    {owned : Option (Key → Bool)} {order : IterOrder Key} {sender : Option Nat}
    {queue : List CacheRequest} (hq : s.node.queue = ⟨.sweep true owned order, sender⟩ :: queue) :
    (∀ key id, (key, id) ∈ s.marks → id ∈ s.confirmed) ∧
    ∀ id ∈ s.abandoned, ∀ key, (key, id) ∉ s.marks := by
  have hm {key id} (hm : (key, id) ∈ s.marks) : id ∈ s.confirmed := by
    have ho := h.marks.orderly
    rw [effects, hq] at ho
    exact ho.head (key, id) hm
  refine ⟨fun key id => hm, fun id ha key hk => ?_⟩
  exact (h.apart.abandoned ha).left (hm hk)

def execAll (sha256 : Bytes → Vector UInt8 32) (meets : Node → Node.Event → Bool) (s : Traced) :
    List Node.Event → Option Traced
  | []              => some s
  | event :: events =>
    if meets s.node event then do execAll sha256 meets (← s.exec sha256 0 event) events else none

theorem Reachable.execAll {events : List Node.Event} (h : Reachable sha256 meets s)
    (he : s.execAll sha256 meets events = some s') : Reachable sha256 meets s' := by
  induction events generalizing s
  case nil => cases he; exact h
  case cons event events hi =>
    have ⟨hm, he⟩ := Option.ite_none_right_eq_some.mp he
    have ⟨s₁, hs, he⟩ := Option.bind_eq_some_iff.mp he
    exact hi (h.step hm hs) he

section Joining

-- The node owns the key `a` until the joining node does.
def idle : Traced where
  node      := ⟨member [98], .withBudgets 10000 [], [], ∅, []⟩
  marks     := []
  confirmed := []
  abandoned := []
  aborted   := []

theorem Reachable.idle : Reachable sha256 meets idle := by
  refine .init rfl ⟨fun membership hm => ?_, fun _ ha => nomatch ha⟩ (.withBudgets ..) rfl rfl rfl
  cases hm
  exact Nat.zero_lt_one

-- The connection is lost which the `M` came from, after a copy of the key was marked for the join.
def lostHandoff : List Node.Event :=
  [.request (.handoffSetIfAbsent ⟨[], [97]⟩ [1] none true), .actor, .migrate joining,
   .joinTook ⟨[], [97]⟩ ((keyHash ⟨[], [97]⟩).getD 0), .actor, .lost 0, .sweep none .asListed]

theorem sweeps_unconfirmed :
    let sha256 := fun _ => .replicate 32 0
    ∃ s s', Reachable sha256 (fun _ _ => true) s ∧
      s.node.queue = [⟨.sweep true none .asListed, none⟩] ∧ s.exec sha256 0 .actor = some s' ∧
      (⟨[], [97]⟩, 0) ∈ s.marks ∧ 0 ∉ s.confirmed ∧
      (s.node.cache.peek ⟨[], [97]⟩).isSome ∧ s'.node.cache.peek ⟨[], [97]⟩ = none := by
  intro sha256
  let s := (idle.execAll sha256 (fun _ _ => true) lostHandoff).get (by decide)
  have hs : idle.execAll sha256 (fun _ _ => true) lostHandoff = some s := rfl
  let s' := (s.exec sha256 0 .actor).get (by decide)
  have hs' : s.exec sha256 0 .actor = some s' := rfl
  exact ⟨s, s', Reachable.idle.execAll hs, rfl, hs', by decide, by decide, by decide, by decide⟩

def completedHandoff : List Node.Event :=
  [.request (.set ⟨[], [97]⟩ [1]), .actor, .migrate joining, .start 0 [⟨[], [97]⟩],
   .resume 0 .ready, .actor, .resume 0 .ready, .resume 0 (.sent true), .actor, .resume 0 .ready,
   .adopt [[97], [98], [106]] 1, .sweep none .asListed]

theorem sweeps_confirmed_of_adopt :
    let sha256 := fun _ => .replicate 32 0
    ∃ s, Reachable sha256 dropsNoMarks s ∧ s.marks = [(⟨[], [97]⟩, 0)] ∧ s.confirmed = [0] ∧
      ∀ key id, (key, id) ∈ s.marks → id ∈ s.confirmed := by
  intro sha256
  let s := (idle.execAll sha256 dropsNoMarks completedHandoff).get (by decide)
  have hs : idle.execAll sha256 dropsNoMarks completedHandoff = some s := rfl
  have h := Reachable.idle.execAll hs
  exact ⟨s, h, by decide, by decide, (h.sweeps_confirmed rfl).left⟩

end Joining
end Traced
end Nanocached
