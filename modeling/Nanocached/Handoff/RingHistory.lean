import Nanocached.Handoff.Slot
import Nanocached.Lib.EpochLog

-- The memberships that were in force during the last while, for which a node keeps its copies.

namespace Nanocached

open EpochLog

-- `Instant::checked_sub`.
def checkedSub (now : Instant) (duration : Duration) : Option Instant :=
  if duration ≤ now then some (now - duration) else none

structure OwnerCheck where
  ring        : SharedRing
  name        : Bytes
  replication : Nat

def OwnerCheck.of (name : Bytes) (membership : Membership) : OwnerCheck :=
  ⟨membership.ring, name, membership.replication⟩

namespace Membership

-- The source first compares pointers, which are equal only if the members are.
def same (membership other : Membership) : Bool :=
  membership.sameMembers other.ring.ring.nodes other.replication

end Membership

namespace RingHistory

def recordIfNewAt (history : RingHistory) (membership : Membership) (now : Instant) : RingHistory :=
  if history.epochs.getLast?.any fun newest => newest.2.same membership then
    history
  else
    { epochs     := history.epochs ++ [(now, membership)]
      generation := history.generation + 1 }

def ringsBefore (history : RingHistory) (current : Membership) : List Membership :=
  (history.epochs.reverse.map (·.2)).filter fun membership => !membership.same current

def checksWithinAt (history : RingHistory) (grace : Duration) (name : Bytes) (now : Instant) :
    Option (List OwnerCheck × Nat) × RingHistory :=
  match checkedSub now grace with
  | none        => (none, history)
  | some cutoff =>
    match rposition (fun epoch => epoch.1 ≤ cutoff) history.epochs with
    | none       => (none, history)
    | some start =>
      let history := { history with epochs := history.epochs.drop start }
      (some (history.epochs.map fun epoch => .of name epoch.2, history.generation), history)

inductive Call
  | record (membership : Membership)
  | touch
  | checks

variable (grace : Duration) (name : Bytes)

def exec (history : RingHistory) (now : Instant) : Call → RingHistory
  | .record membership => history.recordIfNewAt membership now
  | .touch             => history.touch
  | .checks            => (history.checksWithinAt grace name now).2

def new : RingHistory :=
  ⟨[], 0⟩

def run (calls : List (Instant × Call)) : RingHistory :=
  calls.foldl (fun history call => history.exec grace name call.1 call.2) new

-- A history that never forgets.
def execKeeping (history : RingHistory) (now : Instant) : Call → RingHistory
  | .record membership => history.recordIfNewAt membership now
  | .touch             => history.touch
  | .checks            => history

def runKeeping (calls : List (Instant × Call)) : RingHistory :=
  calls.foldl (fun history call => history.execKeeping call.1 call.2) new

-- The memberships that were recorded, each since when. To repeat the newest one records nothing.
def recorded (calls : List (Instant × Call)) : List (Instant × Membership) :=
  (runKeeping calls).epochs

def Timely (calls : List (Instant × Call)) : Prop :=
  calls.Pairwise fun call call' => call.1 ≤ call'.1

-- What a history of the calls remembers is the end of what was recorded. It begins with what was in
-- force when the window of some call began.
structure Remembers (calls : List (Instant × Call)) (kept : RingHistory) (history : RingHistory) :
    Prop where
  generation : history.generation = kept.generation
  epochs     : ∃ k, history.epochs = kept.epochs.drop k ∧
                 (k = 0 ∨ ∃ q e, (q, .checks) ∈ calls ∧ kept.epochs[k]? = some e ∧ e.1 + grace ≤ q)
  sorted     : Sorted kept.epochs
  past       : ∀ e ∈ kept.epochs, ∃ call ∈ calls, e.1 = call.1
  changes    : kept.epochs.IsChain fun e e' => e.2.same e'.2 = false

variable {grace name} {calls : List (Instant × Call)} {kept history : RingHistory} {now : Instant}

theorem checksWithinAt_eq_none : (history.checksWithinAt grace name now).1 = none ↔
    ∀ e ∈ history.epochs, now < e.1 + grace := by
  simp only [checksWithinAt, checkedSub]
  by_cases hg : grace ≤ now
  case neg =>
    rw [if_neg hg]
    exact ⟨fun _ e _ => Nat.lt_of_lt_of_le (Nat.lt_of_not_le hg) (Nat.le_add_left _ _), fun _ => rfl⟩
  case pos =>
    rw [if_pos hg]
    dsimp only
    cases hr : rposition (fun epoch => decide (epoch.1 ≤ now - grace)) history.epochs
    case none =>
      refine ⟨fun _ e he => ?_, fun _ => rfl⟩
      have hlt := of_decide_eq_false (rposition_eq_none.mp hr e he)
      exact Nat.lt_of_not_le (mt (Nat.le_sub_iff_add_le hg).mpr hlt)
    case some start =>
      obtain ⟨⟨e, he, hle⟩, -⟩ := inForce_iff.mp hr
      refine ⟨fun h => by contradiction, fun h => ?_⟩
      have hlt := h e (List.mem_of_getElem? he)
      exact absurd ((Nat.le_sub_iff_add_le hg).mp hle) (Nat.not_le_of_lt hlt)

theorem checksWithinAt_of_inForce {start : Nat} (hg : grace ≤ now)
    (hs : InForce history.epochs start (now - grace)) :
    history.checksWithinAt grace name now =
      (some ((history.epochs.drop start).map fun epoch => .of name epoch.2, history.generation),
        { history with epochs := history.epochs.drop start }) := by
  have hr : rposition (fun epoch => decide (epoch.1 ≤ now - grace)) history.epochs = some start := hs
  simp only [checksWithinAt, checkedSub, if_pos hg, hr]

theorem inForce_of_checksWithinAt {answer : List OwnerCheck × Nat}
    (h : (history.checksWithinAt grace name now).1 = some answer) :
    grace ≤ now ∧ ∃ start, InForce history.epochs start (now - grace) := by
  simp only [checksWithinAt, checkedSub] at h
  by_cases hg : grace ≤ now
  case neg =>
    rw [if_neg hg] at h
    contradiction
  case pos =>
    rw [if_pos hg] at h
    dsimp only at h
    cases hr : rposition (fun epoch => decide (epoch.1 ≤ now - grace)) history.epochs
    case none =>
      rw [hr] at h
      contradiction
    case some start => exact ⟨hg, start, hr⟩

section Remembers

variable {call : Instant × Call}

theorem run_concat : run grace name (calls ++ [call]) =
    (run grace name calls).exec grace name call.1 call.2 := by
  simp [run]

theorem runKeeping_concat :
    runKeeping (calls ++ [call]) = (runKeeping calls).execKeeping call.1 call.2 := by
  simp [runKeeping]

-- What is the newest of a suffix is the newest of it all.
theorem getLast?_drop {α : Type} {l : List α} {k : Nat} (h : k < l.length) :
    (l.drop k).getLast? = l.getLast? := by
  rw [List.getLast?_drop, if_neg (by omega)]

theorem Remembers.getLast? (h : Remembers grace calls kept history) :
    history.epochs.getLast? = kept.epochs.getLast? := by
  obtain ⟨k, he, hk⟩ := h.epochs
  rw [he]
  rcases hk with rfl | ⟨q, e, -, hk, -⟩
  · rfl
  · exact getLast?_drop (List.getElem?_eq_some_iff.mp hk).choose

theorem Remembers.mono {calls' : List (Instant × Call)} (h : Remembers grace calls kept history)
    (hc : calls ⊆ calls') : Remembers grace calls' kept history where
  generation := h.generation
  epochs := by
    obtain ⟨k, he, hk⟩ := h.epochs
    refine ⟨k, he, hk.imp id ?_⟩
    rintro ⟨q, e, hq, hk, hle⟩
    exact ⟨q, e, hc hq, hk, hle⟩
  sorted  := h.sorted
  past    := fun e he =>
    have hp := h.past e he
    ⟨hp.choose, hc hp.choose_spec.left, hp.choose_spec.right⟩
  changes := h.changes

theorem Remembers.record {membership : Membership} (h : Remembers grace calls kept history)
    (ht : ∀ c ∈ calls, c.1 ≤ now) :
    Remembers grace (calls ++ [(now, .record membership)]) (kept.recordIfNewAt membership now)
      (history.recordIfNewAt membership now) := by
  rw [recordIfNewAt, recordIfNewAt, h.getLast?]
  split
  case isTrue => exact h.mono (List.subset_append_left _ _)
  case isFalse hn =>
    obtain ⟨k, he, hk⟩ := h.epochs
    have hle : k ≤ kept.epochs.length := by
      rcases hk with rfl | ⟨q, e, -, hk, -⟩
      · exact Nat.zero_le _
      · exact (List.getElem?_eq_some_iff.mp hk).choose.le
    constructor
    case generation => exact congrArg (· + 1) h.generation
    case epochs =>
      refine ⟨k, ?_, hk.imp id ?_⟩
      · dsimp only
        rw [he, List.drop_append_of_le_length hle]
      · rintro ⟨q, e, hq, hk, hle⟩
        exact ⟨q, e, List.mem_append_left _ hq, List.getElem?_append_left
          (List.getElem?_eq_some_iff.mp hk).choose ▸ hk, hle⟩
    case sorted =>
      refine h.sorted.concat fun e he => ?_
      obtain ⟨c, hc, hec⟩ := h.past e he
      exact hec ▸ ht c hc
    case past =>
      intro e he
      rcases List.mem_append.mp he with he | he
      · obtain ⟨c, hc, hec⟩ := h.past e he
        exact ⟨c, List.mem_append_left _ hc, hec⟩
      · cases List.mem_singleton.mp he
        exact ⟨_, List.mem_append_right _ (List.mem_singleton_self _), rfl⟩
    case changes =>
      refine List.isChain_append.mpr ⟨h.changes, List.isChain_singleton _, ?_⟩
      intro e he e' he'
      cases Option.mem_some_iff.mp he'
      have hs : ¬(e.2.same membership = true) := fun hs =>
        hn (by rw [Option.mem_def.mp he]; exact hs)
      exact Bool.eq_false_iff.mpr hs

theorem Remembers.checks (h : Remembers grace calls kept history) :
    Remembers grace (calls ++ [(now, .checks)]) kept
      (history.checksWithinAt grace name now).2 := by
  cases ha : (history.checksWithinAt grace name now).1
  case none =>
    have hs : (history.checksWithinAt grace name now).2 = history := by
      unfold checksWithinAt at ha ⊢
      split
      case h_1 => rfl
      case h_2 hc =>
        rw [hc] at ha
        dsimp only at ha
        split
        case h_1 => rfl
        case h_2 hr =>
          rw [hr] at ha
          contradiction
    rw [hs]
    exact h.mono (List.subset_append_left _ _)
  case some answer =>
    obtain ⟨hg, start, hs⟩ := inForce_of_checksWithinAt ha
    rw [checksWithinAt_of_inForce hg hs]
    have hm := h.mono (List.subset_append_left calls [(now, .checks)])
    refine ⟨h.generation, ?_, h.sorted, hm.past, h.changes⟩
    obtain ⟨k, he, -⟩ := h.epochs
    obtain ⟨⟨e, hei, hle⟩, -⟩ := inForce_iff.mp hs
    refine ⟨k + start, ?_, .inr ⟨now, e, ?_, ?_, (Nat.le_sub_iff_add_le hg).mp hle⟩⟩
    · dsimp only
      rw [he, List.drop_drop]
    · exact List.mem_append_right _ (List.mem_singleton_self _)
    · rw [← List.getElem?_drop, ← he, hei]

theorem Remembers.step (h : Remembers grace calls kept history)
    (ht : ∀ c ∈ calls, c.1 ≤ call.1) :
    Remembers grace (calls ++ [call]) (kept.execKeeping call.1 call.2)
      (history.exec grace name call.1 call.2) := by
  obtain ⟨now, call⟩ := call
  cases call
  case record membership => exact h.record ht
  case checks            => exact h.checks
  case touch             =>
    have hm := h.mono (List.subset_append_left calls [(now, .touch)])
    exact ⟨congrArg (· + 1) h.generation, hm.epochs, hm.sorted, hm.past, hm.changes⟩

theorem remembers_run (ht : Timely calls) :
    Remembers grace calls (runKeeping calls) (run grace name calls) := by
  induction calls using List.reverseRecOn
  case nil => exact ⟨rfl, ⟨0, rfl, .inl rfl⟩, .nil, by simp [runKeeping, new], .nil⟩
  case append_singleton calls call hi =>
    obtain ⟨ht, -, hlast⟩ := List.pairwise_append.mp ht
    rw [run_concat, runKeeping_concat]
    exact (hi ht).step fun c hc => hlast c hc call (List.mem_singleton_self _)

-- What is forgotten makes no difference to any later call.
theorem Remembers.answer (h : Remembers grace calls kept history) (hn : ∀ c ∈ calls, c.1 ≤ now) :
    (history.checksWithinAt grace name now).1 = (kept.checksWithinAt grace name now).1 := by
  obtain ⟨k, he, hk⟩ := h.epochs
  by_cases hg : grace ≤ now
  case neg => simp only [checksWithinAt, checkedSub, if_neg hg]
  case pos =>
    have hle : k ≤ kept.epochs.length := by
      rcases hk with rfl | ⟨q, e, -, hk, -⟩
      · exact Nat.zero_le _
      · exact (List.getElem?_eq_some_iff.mp hk).choose.le
    have hstart : kept.epochs.take k ≠ [] →
        ∃ e, (kept.epochs.drop k).head? = some e ∧ e.1 ≤ now - grace := by
      intro hd
      rcases hk with rfl | ⟨q, e, hq, hk, hle⟩
      · exact absurd (List.take_zero ..) hd
      · refine ⟨e, by rw [List.head?_drop, hk], ?_⟩
        exact (Nat.le_sub_iff_add_le hg).mpr (Nat.le_trans hle (hn _ hq))
    have hr := rposition_of_dropped hstart
    rw [List.take_append_drop, List.length_take_of_le hle, ← he] at hr
    simp only [checksWithinAt, checkedSub, if_pos hg, hr]
    cases rposition (fun epoch => decide (epoch.1 ≤ now - grace)) history.epochs
    case none       => rfl
    case some start =>
      simp only [Option.map_some]
      rw [he, List.drop_drop, Nat.add_comm k start, h.generation]

end Remembers

-- A call is told nothing as long as the history does not reach back far enough. Otherwise it is told
-- of the membership that was in force when its window began and of each one recorded since, which are
-- those that were in force at some moment of the window, and those that were replaced at the very
-- clock reading they were recorded at. What the calls forget makes no difference to later ones, but
-- `ringsBefore` does not return it any more.
theorem checks_answer_window (ht : Timely calls) (hn : ∀ call ∈ calls, call.1 ≤ now) :
    (((run grace name calls).checksWithinAt grace name now).1 = none ↔
      ∀ e ∈ recorded calls, now < e.1 + grace) ∧
    (∀ checks generation,
      ((run grace name calls).checksWithinAt grace name now).1 = some (checks, generation) →
        ∃ start, grace ≤ now ∧ InForce (recorded calls) start (now - grace) ∧
          checks = ((recorded calls).drop start).map (fun e => .of name e.2) ∧
          ∀ i e, (recorded calls)[i]? = some e → (start ≤ i ↔
            (∃ t, now - grace ≤ t ∧ t ≤ now ∧ InForce (recorded calls) i t) ∨
            (now - grace < e.1 ∧ ∃ j e', i < j ∧ (recorded calls)[j]? = some e' ∧ e'.1 = e.1))) ∧
    ((run grace name calls).checksWithinAt grace name now).1 =
      ((runKeeping calls).checksWithinAt grace name now).1 ∧
    (run grace name calls).epochs.IsChain (fun e e' => e.2.same e'.2 = false) ∧
    ∃ k, (k = 0 ∨ ∃ q e, (q, .checks) ∈ calls ∧ (recorded calls)[k]? = some e ∧ e.1 + grace ≤ q) ∧
      ∀ current, (run grace name calls).ringsBefore current =
        (((recorded calls).drop k).reverse.map (·.2)).filter fun membership =>
          !membership.same current := by
  have h : Remembers grace calls (runKeeping calls) (run grace name calls) := remembers_run ht
  have ha : ((run grace name calls).checksWithinAt grace name now).1 =
      ((runKeeping calls).checksWithinAt grace name now).1 := h.answer hn
  have hp : ∀ e ∈ recorded calls, e.1 ≤ now := by
    intro e he
    obtain ⟨c, hc, hec⟩ := h.past e he
    exact hec ▸ hn c hc
  obtain ⟨k, he, hk⟩ := h.epochs
  refine ⟨?_, ?_, ha, ?_, k, hk, ?_⟩
  case refine_1 => rw [ha, checksWithinAt_eq_none, recorded]
  case refine_2 =>
    intro checks generation hc
    rw [ha] at hc
    obtain ⟨hg, start, hs⟩ := inForce_of_checksWithinAt hc
    rw [checksWithinAt_of_inForce hg hs] at hc
    cases hc
    exact ⟨start, hg, hs, rfl, fun i e hi => start_le_iff h.sorted hp (Nat.sub_le _ _) hs hi⟩
  case refine_3 =>
    rw [he]
    exact h.changes.drop k
  case refine_4 =>
    intro current
    rw [ringsBefore, he, recorded]

def alone (name : UInt8) : Membership :=
  ⟨⟨0, .new [[name]]⟩, 1⟩

-- The second membership is replaced at the clock reading it is recorded at.
def twoAtOnce : List (Instant × Call) :=
  [(0, .record (alone 1)), (5, .record (alone 2)), (5, .record (alone 3))]

theorem checks_answer_window_twoAtOnce :
    ∃ start, 3 ≤ 7 ∧ InForce (recorded twoAtOnce) start 4 ∧
      (recorded twoAtOnce).map (fun e => OwnerCheck.of [] e.2) =
        ((recorded twoAtOnce).drop start).map fun e => .of [] e.2 := by
  have h := (@checks_answer_window 3 [] twoAtOnce 7 (by simp [Timely, twoAtOnce])
    (by simp [twoAtOnce])).right.left _ _ rfl
  obtain ⟨start, hg, hs, hc, -⟩ := h
  exact ⟨start, hg, hs, hc⟩

-- It is returned although it was in force at no moment, and what was forgotten is not returned.
theorem replaced_at_once_is_checked :
    (recorded twoAtOnce)[1]? = some (5, alone 2) ∧
    (∀ t, ¬InForce (recorded twoAtOnce) 1 t) ∧
    (∃ checks generation, ((run 3 [] twoAtOnce).checksWithinAt 3 [] 7).1 =
      some (checks, generation) ∧ OwnerCheck.of [] (alone 2) ∈ checks) ∧
    (0, alone 1) ∈ recorded (twoAtOnce ++ [(20, .checks)]) ∧
    (alone 1).same (alone 3) = false ∧
    (run 3 [] (twoAtOnce ++ [(20, .checks)])).ringsBefore (alone 3) = [] := by
  have hlog : recorded twoAtOnce = [(0, alone 1), (5, alone 2), (5, alone 3)] := rfl
  refine ⟨rfl, fun t h => ?_, ⟨_, _, rfl, ?_⟩, ?_, rfl, rfl⟩
  · obtain ⟨⟨e, he, hle⟩, hlast⟩ := inForce_iff.mp h
    rw [hlog] at he hlast
    cases he
    exact absurd (hlast 2 _ (by decide) rfl) (Nat.not_lt.mpr hle)
  · exact .tail _ (.head _)
  · exact .head _

end RingHistory
end Nanocached
