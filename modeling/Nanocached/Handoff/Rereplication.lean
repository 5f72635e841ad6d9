import Nanocached.HashRing.Owners

-- Who is to hold the copies of a key once nodes are gone, and the calls that send them.

namespace Nanocached

open HashRing

-- This node is about to leave.
structure LeaveState where
  beforeRing  : HashRing
  afterRing   : HashRing
  replication : Nat

def LeaveState.entrantFor (leave : LeaveState) (std : UnstableSort byScore) (keyHash : UInt64)
    (selfName : Bytes) : Option Bytes :=
  if !leave.beforeRing.owns keyHash selfName leave.replication then none
  else
    (leave.afterRing.ownersHashed std keyHash leave.replication).find? fun owner =>
      !leave.beforeRing.owns keyHash owner leave.replication

def rereplicationTargets (std : UnstableSort byScore) (before after : HashRing) (keyHash : UInt64)
    (replication : Nat) (selfName : Bytes) : List Bytes :=
  if !before.owns keyHash selfName replication then []
  else if !after.nodes.any (· == selfName) then []
  else
    let oldOwners := before.ownersHashed std keyHash replication
    (after.ownersHashed std keyHash replication).filter (!oldOwners.contains ·)

section Rings

variable {std : UnstableSort byScore} {before after : HashRing} {keyHash : UInt64}
         {replication : Nat} {leave : LeaveState} {selfName leaver : Bytes}

-- Any number of nodes may be gone. The owners that are left keep their order and stay in front of
-- those the copies are sent to.
theorem ownersHashed_after_drop (h : after.nodes ⊆ before.nodes)
    (ho : before.owns keyHash selfName replication) (hs : selfName ∈ after.nodes) :
    after.ownersHashed std keyHash replication =
      (before.ownersHashed std keyHash replication).filter (after.nodes.contains ·) ++
        rereplicationTargets std before after keyHash replication selfName := by
  obtain ⟨ranked, hr⟩ := before.exists_ranking keyHash
  have hr' : IsRanking (byRank keyHash) after.nodes (ranked.filter (after.nodes.contains ·)) := by
    refine ⟨fun {node} => ?_, hr.sorted.filter _⟩
    rw [List.mem_filter, hr.mem, List.contains_iff_mem, and_iff_right_of_imp (@h node)]
  rw [rereplicationTargets, if_neg (by simp [ho]), if_neg (by simpa using hs)]
  rw [ownersHashed_eq_take std hr, ownersHashed_eq_take std hr']
  exact List.take_filter_of_nodup hr.nodup _ _

theorem ownersHashed_after_drop_of_two :
    let before := new [[1], [2], [3], [4]]
    let after := new [[1], [2]]
    after.ownersHashed (.mergeSort byScore) 7 2 =
      (before.ownersHashed (.mergeSort byScore) 7 2).filter (after.nodes.contains ·) ++
        rereplicationTargets (.mergeSort byScore) before after 7 2 [1] :=
  ownersHashed_after_drop (by decide) (by decide) (by decide)

-- A node that leaves chooses the same node as the other owners do once it is gone.
theorem rereplicationTargets_eq_entrantFor (h : Joins leaver leave.afterRing leave.beforeRing)
    (ho : leave.beforeRing.owns keyHash selfName leave.replication) (hs : selfName ≠ leaver) :
    rereplicationTargets std leave.beforeRing leave.afterRing keyHash leave.replication selfName =
      (leave.entrantFor std keyHash leaver).toList := by
  obtain ⟨ranked, hr, hr'⟩ := h.exists_ranking keyHash
  have hmem := ((h.mem selfName).mp (mem_nodes_of_owns ho)).resolve_left hs
  have howns : ∀ node, leave.beforeRing.owns keyHash node leave.replication =
      (ranked.take leave.replication).contains node := fun node => by
    rw [Bool.eq_iff_iff, owns_iff hr, List.contains_iff_mem]
  rw [rereplicationTargets, if_neg (by simp [ho]), if_neg (by simpa using hmem),
    LeaveState.entrantFor, ownersHashed_eq_take std hr, ownersHashed_eq_take std hr']
  simp only [howns]
  by_cases hl : leaver ∈ ranked.take leave.replication
  case neg => rw [List.take_erase_of_not_mem hl, if_pos (by simpa using hl)]; simp
  case pos =>
    rw [if_neg (by simpa using hl), (List.take_erase_of_mem hr.nodup hl).right]
    refine List.filter_eq_find?_of_last fun node hm => ?_
    simpa using List.mem_of_mem_erase hm

theorem rereplicationTargets_of_third_node :
    let leave : LeaveState := ⟨.new [[1], [2], [4]], .new [[1], [2]], 2⟩
    rereplicationTargets (.mergeSort byScore) leave.1 leave.2 7 2 [1] =
      (leave.entrantFor (.mergeSort byScore) 7 [4]).toList :=
  rereplicationTargets_eq_entrantFor
    ⟨by decide, fun node => by simp only [mem_nodes_new, List.mem_cons, List.not_mem_nil]; tauto⟩
    (by decide) (by decide)

end Rings

inductive Phase
  | claimed | waiting | running | done | over
deriving DecidableEq

-- A call of `run_superseding_rereplication`. The last field is not in the source: it says that the
-- call did not wait for the previous one.
structure ActiveRereplication where
  abortRequested : Bool := false
  done           : Bool := false
  previous       : Option Nat := none
  phase          : Phase := .claimed
  gaveUp         : Bool := false

-- The calls are numbered in the order in which they take over the slot.
structure Rereplications where
  slot : Option Nat := none
  next : Nat := 0
  runs : Nat → ActiveRereplication := fun _ => {}

namespace Rereplications

-- The flags are atomic, and the slot is locked. The deadline may pass, or the node shut down.
inductive Event
  | takeOver
  | requestAbort (id : Nat)
  | start (id : Nat) (late : Bool)
  | finish (id : Nat)
  | leave (id : Nat)

def modify (s : Rereplications) (id : Nat) (f : ActiveRereplication → ActiveRereplication) :
    Rereplications :=
  { s with runs := fun i => if i = id then f (s.runs i) else s.runs i }

def step (s : Rereplications) : Event → Option Rereplications
  | .takeOver =>
    some { s.modify s.next fun _ => { previous := s.slot } with
      slot := some s.next
      next := s.next + 1 }
  | .requestAbort id =>
    if id < s.next ∧ (s.runs id).phase = .claimed then
      let s' := s.modify id ({ · with phase := .waiting })
      match (s.runs id).previous with
      | none          => some s'
      | some previous => some (s'.modify previous ({ · with abortRequested := true }))
    else none
  | .start id late =>
    let done := (s.runs id).previous.all fun previous => (s.runs previous).done
    if id < s.next ∧ (s.runs id).phase = .waiting ∧ (done ∨ late) then
      some (s.modify id ({ · with phase := .running, gaveUp := !done }))
    else none
  | .finish id =>
    if id < s.next ∧ (s.runs id).phase = .running then
      some (s.modify id ({ · with phase := .done, done := true }))
    else none
  | .leave id =>
    if id < s.next ∧ (s.runs id).phase = .done then
      some { s.modify id ({ · with phase := .over }) with
        slot := if s.slot = some id then none else s.slot }
    else none

inductive Reachable : Rereplications → Prop
  | new : Reachable {}
  | step {s s' e} : Reachable s → s.step e = some s' → Reachable s'

-- What holds of a call and of the one that takes over the slot from it.
structure Holds (s : Rereplications) (id : Nat) : Prop where
  slot  : s.slot = some id → id + 1 = s.next
  free  : s.slot = none → id + 1 = s.next → (s.runs id).phase = .over
  done  : id < s.next →
            ((s.runs id).done ↔ (s.runs id).phase = .done ∨ (s.runs id).phase = .over)
  asked : id + 1 < s.next → (s.runs id).phase = .over ∨ (s.runs (id + 1)).previous = some id ∧
            ((s.runs (id + 1)).phase = .claimed ∨ (s.runs id).abortRequested)
  order : id + 1 < s.next → (s.runs (id + 1)).phase = .running ∨ (s.runs (id + 1)).done →
            (s.runs (id + 1)).gaveUp ∨ (s.runs id).done

variable {s s' : Rereplications} {e : Event}

theorem holds_of_step (h : ∀ id, s.Holds id) (he : s.step e = some s') (i : Nat) : s'.Holds i := by
  obtain ⟨-, hf, hd, ha, ho⟩ := h i
  have hs := fun id => (h id).slot
  have hd' := (h (i + 1)).done
  clear h
  cases e
  case takeOver =>
    cases he
    cases hl : s.slot <;> constructor <;> grind -ring -linarith [modify]
  case requestAbort id =>
    dsimp only [step] at he
    split at he
    case isFalse => contradiction
    case isTrue =>
      split at he <;> cases he <;> constructor <;> dsimp only [modify] <;> grind -ring -linarith
  all_goals
    dsimp only [step] at he
    split at he <;> cases he
    constructor <;> grind -ring -linarith [modify]

theorem Reachable.holds (h : Reachable s) : ∀ id, s.Holds id := by
  induction h
  case new => exact fun _ => by constructor <;> grind
  case step he hi => exact holds_of_step hi he

theorem gaveUp_or_done (h : ∀ id, s.Holds id) {i j : Nat} (hij : i < j) (hj : j < s.next)
    (hr : (s.runs j).phase = .running ∨ (s.runs j).done) :
    (∃ k, i < k ∧ k ≤ j ∧ (s.runs k).gaveUp) ∨ (s.runs i).done := by
  induction hij
  case refl => exact ((h i).order hj hr).imp_left fun hg => ⟨_, Nat.lt_succ_self i, le_rfl, hg⟩
  case step j hle hi =>
    rcases (h j).order hj hr with hg | hd
    case inl => exact .inl ⟨j + 1, Nat.lt_succ_of_lt hle, le_rfl, hg⟩
    case inr =>
      refine (hi (by omega) (.inr hd)).imp_left ?_
      exact fun hk => hk.imp fun k hk => ⟨hk.left, hk.right.left.trans j.le_succ, hk.right.right⟩

-- A call that is not done is known to the next one and asked to stop, and no later one sends
-- anything unless some call did not wait for the one before it.
theorem superseded_of_unfinished (h : Reachable s) (id : Nat) (hid : id < s.next)
    (hd : (s.runs id).done = false) :
    (s.slot = some id ∨ (s.runs id).abortRequested ∨
      (s.runs (id + 1)).previous = some id ∧ (s.runs (id + 1)).phase = .claimed) ∧
    ∀ j, id < j → j < s.next → (s.runs j).phase = .running →
      ∃ k, id < k ∧ k ≤ j ∧ (s.runs k).gaveUp := by
  constructor
  case left =>
    obtain ⟨-, hf, hdone, ha, -⟩ := h.holds id
    have hs := fun i => (h.holds i).slot
    cases hl : s.slot <;> grind
  case right =>
    intro j hj hn hr
    exact (gaveUp_or_done h.holds hj hn (.inl hr)).resolve_right (by simp [hd])

theorem superseded_of_late_start : ∃ s : Rereplications, (s.runs 0).phase = .running ∧
    ∃ k, 0 < k ∧ k ≤ 1 ∧ (s.runs k).gaveUp := by
  have h := Reachable.new.step (e := .takeOver) rfl |>.step (e := .requestAbort 0) rfl
    |>.step (e := .start 0 false) rfl |>.step (e := .takeOver) rfl
    |>.step (e := .requestAbort 1) rfl |>.step (e := .start 1 true) rfl
  exact ⟨_, rfl, (superseded_of_unfinished h 0 (by decide) rfl).right 1 (by decide) (by decide) rfl⟩

end Rereplications
end Nanocached
