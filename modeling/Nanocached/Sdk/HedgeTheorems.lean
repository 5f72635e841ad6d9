import Nanocached.Sdk.Hedge

namespace Nanocached.Sdk

-- Neither a hit nor `W`.
structure LegEnd.Passes (ending : LegEnd) : Prop where
  hit       : ∀ value, ending ≠ .returned (.ok (some value))
  wrongNode : ending ≠ .returned (.error .wrongNode)

-- What a leg that panicked or was cancelled sends is neither an answer nor `W`.
theorem LegEnd.eq_returned {ending : LegEnd} {index : Nat} {result : Except Error (Option Bytes)}
    (h : (ending.outcome index).result = result)
    (hp : ∀ message, result ≠ .error (.protocol message))
    (hc : ∀ message, result ≠ .error (.connectionLost message)) : ending = .returned result := by
  cases ending
  case returned          => exact congrArg _ h
  case panicked          => exact absurd h.symm (hp _)
  case cancelled         => exact absurd h.symm (hc _)

namespace HedgedRead

inductive Run (Allowed : HedgedRead → HedgeEvent → Prop) (first : List String) : HedgedRead → Prop
  | start {delays cap shut} : readHedged delays cap shut first = some s → Run Allowed first s
  | step : Run Allowed first s → Allowed s e → s.exec e = some s' → Run Allowed first s'

-- No leg's task is dropped before it was polled.
def Polled (_ : HedgedRead) : HedgeEvent → Prop
  | .drop _ => False
  | _       => True

-- Every owner was asked, and none of them has settled the read.
structure Exhausted (primary : String) (owners : List String) (legs : List Leg) : Prop where
  asked  : legs.map Leg.node = owners
  passed : ∀ leg ∈ legs, ∃ ending, leg.phase = .ended ending ∧ ending.Passes
  missed : ∃ leg ∈ legs, leg.node ≠ primary ∧ leg.phase = .ended (.returned (.ok none))

-- What the legs must have answered for the read to return a result.
inductive Justified (primary : String) (owners : List String) (legs : List Leg) :
    Except Error (Option Bytes) → Prop
  | hit : leg ∈ legs → leg.phase = .ended (.returned (.ok (some value))) →
      Justified primary owners legs (.ok (some value))
  | miss : leg ∈ legs → leg.node = primary → leg.phase = .ended (.returned (.ok none)) →
      Justified primary owners legs (.ok none)
  | exhausted : Exhausted primary owners legs → Justified primary owners legs (.ok none)
  | wrongNode : leg ∈ legs → leg.phase = .ended (.returned (.error .wrongNode)) →
      Justified primary owners legs (.error .wrongNode)
  | error : error ≠ .wrongNode → Justified primary owners legs (.error error)

-- The number of outcomes that the read is still going to wait for.
def awaited (s : HedgedRead) : Option Nat :=
  match s.phase with
  | .waiting         => some s.inFlight
  | .draining left _ => some left
  | .returned _      => none

-- Whether tasks may be dropped before they are polled is a parameter.
structure Base (lossy : Prop) (first : List String) (s : HedgedRead) : Prop where
  perm    : s.owners.Perm first
  primary : first[0]? = some s.primary
  next    : s.nextIndex = s.legs.length
  asked   : s.legs.map Leg.node = s.owners.take s.nextIndex
  sent    : ∀ outcome ∈ s.channel, ∃ leg ending, s.legs[outcome.index]? = some leg ∧
              leg.phase = .ended ending ∧ outcome = ending.outcome outcome.index
  counted : ∀ {n}, s.awaited = some n → n = s.channel.length + s.legs.countP Leg.unended
  missed  : s.replicaMissed = true →
              ∃ leg ∈ s.legs, leg.node ≠ s.primary ∧ leg.phase = .ended (.returned (.ok none))
  failed  : s.lastError ≠ some .wrongNode
  kept    : ∀ leg ∈ s.legs, leg.phase = .dropped → lossy
  settled : ∀ {result}, s.phase.result? = some result →
              Justified s.primary s.owners s.legs result

structure WF (lossy : Prop) (first : List String) (s : HedgedRead) : Prop extends
    Base lossy first s where
  passed : s.phase = .waiting → ∀ {index : Nat} {leg : Leg} {ending}, s.legs[index]? = some leg →
             leg.phase = .ended ending → ending.outcome index ∈ s.channel ∨ ending.Passes

variable {s s' : HedgedRead} {lossy : Prop} {first : List String} {e : HedgeEvent} {index : Nat}
variable {leg other : Leg} {name : String} {result : Except Error (Option Bytes)}
variable {outcome : HedgeOutcome} {phase : LegPhase} {ending : LegEnd}
variable {Allowed : HedgedRead → HedgeEvent → Prop}

section Legs

-- A leg that has ended stays as it is when another one is changed.
theorem mem_set_leg (hl : s.legs[index]? = some leg) (hu : leg.unended = true)
    (hm : other ∈ s.legs) (he : other.phase = .ended ending) :
    other ∈ s.legs.set index ⟨name, phase⟩ := by
  obtain ⟨i, hi⟩ := List.mem_iff_getElem?.mp hm
  refine List.mem_iff_getElem?.mpr ⟨i, ?_⟩
  rw [List.getElem?_set_ne, hi]
  rintro rfl
  obtain rfl := Option.some.inj (hl.symm.trans hi)
  simp [Leg.unended, he] at hu

theorem map_node_set (hl : s.legs[index]? = some leg) :
    (s.legs.set index ⟨leg.node, phase⟩).map Leg.node = s.legs.map Leg.node := by
  obtain ⟨hlt, rfl⟩ := List.getElem?_eq_some_iff.mp hl
  refine List.ext_getElem (by simp) fun i _ _ => ?_
  simp only [List.getElem_map, List.getElem_set]
  split
  case isTrue hi => subst hi; rfl
  case isFalse   => rfl

theorem Justified.set_leg (hl : s.legs[index]? = some leg) (hu : leg.unended = true)
    (h : Justified s.primary s.owners s.legs result) :
    Justified s.primary s.owners (s.legs.set index ⟨name, phase⟩) result := by
  cases h
  case hit hm he       => exact .hit (mem_set_leg hl hu hm he) he
  case miss hm hn he   => exact .miss (mem_set_leg hl hu hm he) hn he
  case wrongNode hm he => exact .wrongNode (mem_set_leg hl hu hm he) he
  case error hne       => exact .error hne
  case exhausted h =>
    obtain ⟨ending, he, _⟩ := h.passed leg (List.mem_of_getElem? hl)
    simp [Leg.unended, he] at hu

theorem Base.node_eq (h : s.Base lossy first) (hl : s.legs[index]? = some leg) :
    s.owners[index]? = some leg.node := by
  have hn := congrArg (·[index]?) h.asked
  have hlt := (List.getElem?_eq_some_iff.mp hl).1
  simp only [List.getElem?_map, hl, List.getElem?_take, h.next, if_pos hlt] at hn
  exact hn.symm

end Legs

namespace WF

-- The read decides on a result.
theorem decide (h : s.Base lossy first) {phase : ReadPhase} (hp : phase.result? = some result)
    (hj : Justified s.primary s.owners s.legs result)
    (hc : ∀ {n}, awaited { s with phase } = some n →
      n = s.channel.length + s.legs.countP Leg.unended) : WF lossy first { s with phase } where
  __ := h
  counted    := hc
  passed hw  := by
    cases hw
    contradiction
  settled hr := by rwa [Option.some.inj (hr.symm.trans hp)]

theorem spawnHedgeLeg (h : s.WF lossy first) (hp : s.phase = .waiting)
    (hn : s.owners[s.nextIndex]? = some name) : (s.spawnHedgeLeg name).WF lossy first := by
  unfold HedgedRead.spawnHedgeLeg
  split
  case isTrue => exact decide h.toBase rfl (.error (by simp)) (by simp [awaited])
  case isFalse =>
    refine { h with
      next    := by simp [h.next]
      asked   := by simp [List.take_add_one, hn, h.asked]
      settled := by simp [hp, ReadPhase.result?]
      kept    := by simpa [or_imp, forall_and] using h.kept
      sent    := ?sent, counted := ?counted, passed := ?passed, missed := ?missed }
    case sent =>
      intro outcome hm
      obtain ⟨leg, ending, hl, he⟩ := h.sent outcome hm
      refine ⟨leg, ending, ?_, he⟩
      rwa [List.getElem?_append_left (List.getElem?_eq_some_iff.mp hl).1]
    case counted =>
      have hc := h.counted (n := s.inFlight) (by simp [awaited, hp])
      simp [awaited, hp, Leg.unended]
      omega
    case passed =>
      intro _ i leg ending hl he
      rw [List.getElem?_append] at hl
      split at hl
      case isTrue  => exact h.passed hp hl he
      case isFalse =>
        obtain rfl := List.mem_singleton.mp (List.mem_of_getElem? hl)
        contradiction
    case missed =>
      intro hr
      obtain ⟨leg, hm, hl⟩ := h.missed hr
      exact ⟨leg, List.mem_append_left _ hm, hl⟩

theorem resolveHedgeLosers (h : s.Base lossy first) (hp : s.phase = .waiting)
    (hj : Justified s.primary s.owners s.legs result) (hedgedReads : Nat) :
    (s.resolveHedgeLosers result hedgedReads).WF lossy first := by
  unfold HedgedRead.resolveHedgeLosers
  split
  case isTrue  => exact decide h rfl hj (by simp [awaited])
  case isFalse =>
    refine decide h rfl hj fun hn => ?_
    exact h.counted (by simpa [awaited, hp] using hn)

-- When everything that was sent is received, all of the legs have ended.
theorem exhausted (h : s.WF lossy first) (hp : s.phase = .waiting) (hi : s.inFlight = 0)
    (hn : s.owners[s.nextIndex]? = none) :
    Justified s.primary s.owners s.legs s.exhausted := by
  have hc := h.counted (n := s.inFlight) (by simp [awaited, hp])
  unfold HedgedRead.exhausted
  split
  case isTrue hr =>
    refine .exhausted ⟨?asked, ?passed, h.missed hr⟩
    case asked => rw [h.asked, List.take_of_length_le (by simpa using hn)]
    case passed =>
      intro leg hm
      have hu : leg.unended = false := by
        simpa using List.countP_eq_zero.mp (by omega : s.legs.countP Leg.unended = 0) leg hm
      have hch : s.channel = [] := List.eq_nil_of_length_eq_zero (by omega)
      obtain ⟨i, hl⟩ := List.mem_iff_getElem?.mp hm
      unfold Leg.unended at hu
      split at hu
      case h_1 ending he =>
        refine ⟨ending, he, (h.passed hp hl he).resolve_left ?_⟩
        simp [hch]
      case h_2 | h_3 | h_4 => contradiction
  case isFalse =>
    refine .error ?_
    cases hl : s.lastError
    case none       => simp
    case some error => exact fun he => h.failed (hl.trans (congrArg some he))

theorem hedgeOnward (h : s.WF lossy first) (hp : s.phase = .waiting) :
    s.hedgeOnward.WF lossy first := by
  unfold HedgedRead.hedgeOnward
  split
  case isFalse => exact h
  case isTrue hi =>
    split
    case h_1 hn => exact h.spawnHedgeLeg hp hn
    case h_2 hn => exact decide h.toBase rfl (h.exhausted hp hi hn) (by simp [awaited])

section Take

variable {channel : List HedgeOutcome}

theorem take (h : s.WF lossy first) (hp : s.phase = .waiting)
    (hc : s.channel = outcome :: channel) :
    Base lossy first { s with channel, inFlight := s.inFlight - 1 } where
  __ := h
  sent o hm  := h.sent o (hc ▸ .tail _ hm)
  counted hn := by
    have hi := h.counted (n := s.inFlight) (by simp [awaited, hp])
    simp only [awaited, hp, Option.some.injEq] at hn
    simp only [hc, List.length_cons] at hi ⊢
    omega

-- An outcome that does not settle the read.
theorem taken (h : s.WF lossy first) (hp : s.phase = .waiting) (hc : s.channel = outcome :: channel)
    (hr : outcome.result = .ok none ∨
      ∃ error, outcome.result = .error error ∧ error ≠ .wrongNode) :
    WF lossy first { s with channel, inFlight := s.inFlight - 1 } where
  toBase := h.take hp hc
  passed _ i leg ending hl he := by
    rcases h.passed hp hl he with hm | hpass
    case inr => exact .inr hpass
    case inl =>
      rcases List.mem_cons.mp (hc ▸ hm) with ho | hm
      case inr => exact .inl hm
      case inl =>
        refine .inr ⟨?hit, ?wrongNode⟩
        case hit       => rintro value rfl; simp [← ho, LegEnd.outcome] at hr
        case wrongNode => rintro rfl; simp [← ho, LegEnd.outcome] at hr

theorem settle (h : s.WF lossy first) (hp : s.phase = .waiting)
    (hc : s.channel = outcome :: channel) (hedgedReads : Nat) :
    WF lossy first (settle { s with channel, inFlight := s.inFlight - 1 } outcome hedgedReads) := by
  obtain ⟨leg, ending, hl, he, ho⟩ := h.sent outcome (hc ▸ .head _)
  have hm := List.mem_of_getElem? hl
  have hb := h.take hp hc
  unfold HedgedRead.settle
  split
  case h_1 value hr =>
    obtain rfl := LegEnd.eq_returned (ho ▸ hr) (by simp) (by simp)
    exact resolveHedgeLosers hb hp (.hit hm he) _
  case h_2 hr =>
    obtain rfl := LegEnd.eq_returned (ho ▸ hr) (by simp) (by simp)
    rw [h.node_eq hl]
    split
    case isTrue hn => exact resolveHedgeLosers hb hp (.miss hm (Option.some.inj hn) he) _
    case isFalse hn =>
      refine hedgeOnward { h.taken hp hc (.inl hr) with missed := fun _ => ?_ } hp
      exact ⟨leg, hm, fun h => hn (congrArg some h), he⟩
  case h_3 error hr =>
    split
    case isTrue =>
      refine resolveHedgeLosers hb hp ?_ _
      by_cases hw : error = .wrongNode
      case neg => exact .error hw
      case pos =>
        subst hw
        exact .wrongNode hm (LegEnd.eq_returned (ho ▸ hr) (by simp) (by simp) ▸ he)
    case isFalse hw =>
      have hne : error ≠ .wrongNode := fun h => hw (.inr h)
      refine hedgeOnward { h.taken hp hc (.inr ⟨error, hr, hne⟩) with failed := ?_ } hp
      simpa using hne

end Take

theorem drain (h : s.WF lossy first) {left : Nat} {channel : List HedgeOutcome}
    (hp : s.phase = .draining left result) (hc : s.channel = outcome :: channel) :
    (drain { s with channel } left result).WF lossy first := by
  have hj : Justified s.primary s.owners s.legs result :=
    h.settled (by simp [hp, ReadPhase.result?])
  have hn := h.counted (n := left) (by simp [awaited, hp])
  rw [hc, List.length_cons] at hn
  unfold HedgedRead.drain
  refine { h with sent := ?sent, counted := ?counted, passed := ?passed, settled := ?settled }
  case sent    => exact fun o hm => h.sent o (hc ▸ .tail _ hm)
  case passed  => split <;> simp
  case settled => split <;> simpa [ReadPhase.result?] using hj
  case counted =>
    intro n
    split
    case isTrue  => simp [awaited]
    case isFalse =>
      rintro ⟨⟩
      show left - 1 = channel.length + s.legs.countP Leg.unended
      omega

-- A leg goes on without ending, or it ends and reports how.
theorem set_leg (h : s.WF lossy first) {late : LateHedgeLegs} {reports : List HedgeOutcome}
    (hl : s.legs[index]? = some leg) (hu : leg.unended = true) (hd : phase = .dropped → lossy)
    (hr : (Leg.mk leg.node phase).unended = true ∧ reports = [] ∨
      ∃ ending, phase = .ended ending ∧ reports = [ending.outcome index]) :
    WF lossy first { s with
      legs := s.legs.set index ⟨leg.node, phase⟩, channel := s.channel ++ reports, late } := by
  obtain ⟨hlt, hleg⟩ := List.getElem?_eq_some_iff.mp hl
  refine { h with
    next    := by simp [h.next]
    asked   := by rw [map_node_set hl, h.asked]
    settled := fun hs => (h.settled hs).set_leg hl hu
    kept    := ?kept, sent := ?sent, counted := ?counted, passed := ?passed, missed := ?missed }
  case kept =>
    intro other hm hp
    rcases List.mem_or_eq_of_mem_set hm with hm | rfl
    · exact h.kept other hm hp
    · exact hd hp
  case sent =>
    intro outcome hm
    rcases List.mem_append.mp hm with hm | hm'
    case inl =>
      obtain ⟨other, ending, ho, he, heq⟩ := h.sent outcome hm
      refine ⟨other, ending, ?_, he, heq⟩
      rw [List.getElem?_set_ne, ho]
      rintro rfl
      obtain rfl := Option.some.inj (hl.symm.trans ho)
      simp [Leg.unended, he] at hu
    case inr =>
      rcases hr with ⟨_, rfl⟩ | ⟨ending, rfl, rfl⟩
      · contradiction
      · obtain rfl := List.mem_singleton.mp hm'
        have hi : (ending.outcome index).index = index := by cases ending <;> rfl
        refine ⟨⟨leg.node, .ended ending⟩, ending, ?_, rfl, by rw [hi]⟩
        rw [hi, List.getElem?_set_self hlt]
  case counted =>
    intro n hn
    have hc := h.counted hn
    have hpos := List.countP_pos_iff.mpr ⟨leg, List.mem_of_getElem? hl, hu⟩
    rw [List.countP_set hlt, hleg, hu, List.length_append]
    rcases hr with ⟨hu', rfl⟩ | ⟨ending, rfl, rfl⟩
    · simp [hu']
      omega
    · simp [Leg.unended]
      omega
  case passed =>
    intro hp i other ending ho he
    rw [List.getElem?_set] at ho
    split at ho
    case isFalse => exact (h.passed hp ho he).imp_left (List.mem_append_left _)
    case isTrue hi =>
      subst hi
      obtain rfl : Leg.mk leg.node phase = other := by simpa [hlt] using ho
      rcases hr with ⟨hu', rfl⟩ | ⟨ending', hp', rfl⟩
      · cases he
        contradiction
      · obtain rfl : ending' = ending := by simpa [hp'] using he
        exact .inl (List.mem_append_right _ (.head _))
  case missed =>
    intro hr
    obtain ⟨other, hm, hn, he⟩ := h.missed hr
    exact ⟨other, mem_set_leg hl hu hm he, hn, he⟩

theorem move_leg (h : s.WF lossy first) (hl : s.legs[index]? = some leg) (hu : leg.unended = true)
    (hu' : (Leg.mk leg.node phase).unended = true) (hd : phase = .dropped → lossy) :
    WF lossy first { s with legs := s.legs.set index ⟨leg.node, phase⟩ } := by
  have hs : WF lossy first { s with
      legs := s.legs.set index ⟨leg.node, phase⟩, channel := s.channel ++ [] } :=
    h.set_leg hl hu hd (.inl ⟨hu', rfl⟩)
  rwa [List.append_nil] at hs

-- What is shared with other reads plays no role.
theorem frame (h : s.WF lossy first) {late : LateHedgeLegs} {lateLegs : List Nat} {closed : Bool} :
    WF lossy first { s with late, lateLegs, closed } :=
  { h with }

theorem exec (h : s.WF lossy first) (hd : ∀ index, e = .drop index → lossy)
    (he : s.exec e = some s') : s'.WF lossy first := by
  cases e <;> simp only [HedgedRead.exec] at he
  case elapse =>
    split at he
    case h_1 hp hn =>
      cases he
      exact spawnHedgeLeg h.frame hp hn
    case h_2 => contradiction
  case receive =>
    split at he
    case h_1 hp hc =>
      cases he
      exact h.settle hp hc _
    case h_2 hp hc =>
      cases he
      exact h.drain hp hc
    case h_3 => contradiction
  case poll =>
    split at he
    case h_1 hl =>
      cases he
      exact h.move_leg hl rfl rfl (by simp)
    case h_2 => contradiction
  case finish index ending =>
    split at he
    case h_1 hl =>
      cases he
      exact h.set_leg hl rfl (by simp) (.inr ⟨ending, rfl, rfl⟩)
    case h_2 => contradiction
  case drop index =>
    split at he
    case h_1 hl =>
      cases he
      exact h.move_leg hl rfl rfl fun _ => hd index rfl
    case h_2 => contradiction
  case recount | close =>
    cases he
    exact h.frame

end WF

-- The read never waits for nothing.
def Busy (s : HedgedRead) : Prop :=
  s.awaited ≠ some 0

theorem spawnHedgeLeg_busy (hp : s.phase = .waiting) : (s.spawnHedgeLeg name).Busy := by
  unfold spawnHedgeLeg
  split <;> simp [Busy, awaited, hp]

theorem hedgeOnward_busy (hp : s.phase = .waiting) : s.hedgeOnward.Busy := by
  unfold hedgeOnward
  split
  case isTrue =>
    split
    case h_1 => exact spawnHedgeLeg_busy hp
    case h_2 => simp [Busy, awaited]
  case isFalse hi => simpa [Busy, awaited, hp] using hi

theorem resolveHedgeLosers_busy {hedgedReads : Nat} :
    (s.resolveHedgeLosers result hedgedReads).Busy := by
  unfold resolveHedgeLosers
  split
  case isTrue    => simp [Busy, awaited]
  case isFalse h => simp_all [Busy, awaited]

theorem settle_busy {hedgedReads : Nat} (hp : s.phase = .waiting) :
    (s.settle outcome hedgedReads).Busy := by
  unfold settle
  split
  case h_1 => exact resolveHedgeLosers_busy
  case h_2 | h_3 =>
    split
    · exact resolveHedgeLosers_busy
    · exact hedgeOnward_busy hp

theorem exec_busy (h : s.Busy) (he : s.exec e = some s') : s'.Busy := by
  cases e <;> simp only [exec] at he
  case elapse =>
    split at he
    case h_1 hp _ =>
      cases he
      exact spawnHedgeLeg_busy hp
    case h_2 => contradiction
  case receive =>
    split at he
    case h_1 hp _ =>
      cases he
      exact settle_busy hp
    case h_2 =>
      cases he
      unfold drain
      split
      case isTrue      => simp [Busy, awaited]
      case isFalse hne => simpa [Busy, awaited] using hne
    case h_3 => contradiction
  case poll | finish | drop =>
    split at he
    case h_1 => cases he; exact h
    case h_2 => contradiction
  case recount | close => cases he; exact h

theorem readHedged_eq_some (lossy : Prop) {late : LateHedgeLegs} {hedgeLoserCap : Nat}
    {closed : Bool} (h : readHedged late hedgeLoserCap closed first = some s) :
    ∃ (s₀ : HedgedRead) (name : String), s₀.WF lossy first ∧ s₀.phase = .waiting ∧
      s₀.owners[s₀.nextIndex]? = some name ∧ s = s₀.spawnHedgeLeg name := by
  obtain ⟨primary, hp, h⟩ := Option.bind_eq_some_iff.mp h
  obtain ⟨name, hn, h⟩ := Option.bind_eq_some_iff.mp h
  refine ⟨_, name, ?_, rfl, hn, (Option.some.inj h).symm⟩
  constructor
  case passed => simp
  case toBase =>
    constructor
    case perm    => exact late.demote_perm first
    case primary => exact hp
    all_goals simp [awaited, ReadPhase.result?]

namespace Run

theorem wf (h : Run Allowed first s) : s.WF (∃ s index, Allowed s (.drop index)) first := by
  induction h
  case start hs =>
    obtain ⟨s₀, name, hw, hp, hn, rfl⟩ := readHedged_eq_some _ hs
    exact hw.spawnHedgeLeg hp hn
  case step ha he hi => exact hi.exec (fun index hd => ⟨_, index, hd ▸ ha⟩) he

theorem busy (h : Run Allowed first s) : s.Busy := by
  induction h
  case start hs =>
    obtain ⟨_, _, _, hp, _, rfl⟩ := readHedged_eq_some True hs
    exact spawnHedgeLeg_busy hp
  case step he hi => exact exec_busy hi he

theorem read_settles (hn : first.Nodup) (h : Run Polled first s) :
    (∀ value, s.phase = .returned (.ok (some value)) →
      ∃ leg ∈ s.legs, leg.phase = .ended (.returned (.ok (some value)))) ∧
    (s.phase = .returned (.ok none) →
      (∃ leg ∈ s.legs, first[0]? = some leg.node ∧ leg.phase = .ended (.returned (.ok none))) ∨
      (s.legs.map Leg.node).Perm first ∧
      (∀ leg ∈ s.legs, ∃ ending, leg.phase = .ended ending ∧ ending.Passes) ∧
      ∃ leg ∈ s.legs, first[0]? ≠ some leg.node ∧ leg.phase = .ended (.returned (.ok none))) ∧
    (s.phase = .returned (.error .wrongNode) →
      ∃ leg ∈ s.legs, leg.phase = .ended (.returned (.error .wrongNode))) ∧
    (s.legs.map Leg.node).Nodup ∧ s.legs.map Leg.node ⊆ first ∧
    (s.awaited ≠ none →
      s.channel ≠ [] ∨ ∃ leg ∈ s.legs, leg.phase = .spawned ∨ leg.phase = .running) := by
  have hw := h.wf
  have hsub : (s.legs.map Leg.node).Sublist s.owners := hw.asked ▸ List.take_sublist _ _
  have hres : ∀ result, s.phase = .returned result → Justified s.primary s.owners s.legs result :=
    fun result hp => hw.settled (hp ▸ rfl)
  refine ⟨fun value hp => ?hit, fun hp => ?miss, fun hp => ?wrongNode,
    hsub.nodup (hw.perm.nodup_iff.mpr hn), fun _ hm => hw.perm.subset (hsub.subset hm),
    fun ha => ?waits⟩
  case hit =>
    cases hres _ hp
    case hit leg hm he => exact ⟨leg, hm, he⟩
  case miss =>
    rw [hw.primary]
    cases hres _ hp
    case miss leg hm hn he => exact .inl ⟨leg, hm, congrArg some hn.symm, he⟩
    case exhausted hx =>
      obtain ⟨leg, hm, hn, he⟩ := hx.missed
      refine .inr ⟨hx.asked ▸ hw.perm, hx.passed, leg, hm, ?_, he⟩
      exact fun h => hn (Option.some.inj h).symm
  case wrongNode =>
    cases hres _ hp
    case wrongNode leg hm he => exact ⟨leg, hm, he⟩
    case error hne           => exact absurd rfl hne
  case waits =>
    obtain ⟨n, ha⟩ := Option.ne_none_iff_exists'.mp ha
    have hc := hw.counted ha
    have hb : n ≠ 0 := fun h0 => h.busy (h0 ▸ ha)
    by_cases hch : s.channel = []
    case neg => exact .inl hch
    case pos =>
      have hpos : 0 < s.legs.countP Leg.unended := by
        simp only [hch, List.length_nil] at hc
        omega
      obtain ⟨leg, hm, hu⟩ := List.countP_pos_iff.mp hpos
      refine .inr ⟨leg, hm, ?_⟩
      cases hl : leg.phase
      case spawned => exact .inl rfl
      case running => exact .inr rfl
      case ended   => simp [Leg.unended, hl] at hu
      case dropped => obtain ⟨_, _, hd⟩ := hw.kept leg hm hl; contradiction

-- The first one is tried last, because it is silent, and its value is what counts after all.
theorem read_settles_of_demoted :
    ∃ s, Run Polled ["a", "b"] s ∧ s.owners = ["b", "a"] ∧
      ∃ leg ∈ s.legs, leg.phase = .ended (.returned (.ok (some [7]))) := by
  have h : Run Polled ["a", "b"] _ := .step (e := .receive 0) (.step (e := .finish 1
    (.returned (.ok (some [7])))) (.step (e := .poll 1) (.step (e := .receive 0) (.step
      (e := .finish 0 (.returned (.ok none))) (.step (e := .poll 0) (.start (s := ((readHedged
        ⟨AList.singleton "a" 1, 1, 1⟩ 8 false ["a", "b"]).get rfl)) (Option.some_get _).symm)
          trivial rfl) trivial rfl) trivial rfl) trivial rfl) trivial rfl) trivial rfl
  exact ⟨_, h, rfl, (h.read_settles (by decide)).left _ rfl⟩

-- Both tasks are dropped before they are polled, so that nobody is left to report.
theorem waits_for_nobody :
    ∃ s, Run (fun _ _ => True) ["a", "b"] s ∧ s.closed = false ∧ s.phase = .waiting ∧
      s.channel = [] ∧ s.legs = [⟨"a", .dropped⟩, ⟨"b", .dropped⟩] := by
  have h : Run (fun _ _ => True) ["a", "b"] _ := .step (e := .drop 1) (.step (e := .drop 0) (.step
    (e := .elapse) (.start (s := ((readHedged ⟨∅, 0, 1⟩ 8 false ["a", "b"]).get rfl))
      (Option.some_get _).symm) trivial rfl) trivial rfl) trivial rfl
  exact ⟨_, h, rfl, rfl, rfl, rfl⟩

end Run

end HedgedRead
end Nanocached.Sdk
