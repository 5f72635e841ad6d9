import Nanocached.Discovery.Changes

namespace Nanocached.Discovery

-- A report of the member came while the join was pending, with the token that is asked for.
def PendingJoin.Reported (join : PendingJoin) (name token : Bytes) : Prop :=
  ∃ report ∈ join.reports, report.name = name ∧ report.joining = join.joiningName ∧
    report.token = token ∧ (report.generation = none ∨ report.generation = some join.generation)

-- Everyone who was a member at the start has reported, and everyone who was admitted later on.
structure PendingJoin.HandedOff (join : PendingJoin) : Prop where
  members : ∀ {name info}, join.registry.lookup name = some info → info.state = .joined →
              join.Reported name info.token
  late    : ∀ {name token}, (name, token) ∈ join.late → join.Reported name token

structure PendingJoin.Valid (join : PendingJoin) : Prop where
  completed : ∀ {name}, name ∈ join.completed →
                ∃ token, join.expected.lookup name = some token ∧ join.Reported name token
  members   : ∀ {name info}, join.registry.lookup name = some info → info.state = .joined →
                join.expected.lookup name = some info.token
  late      : ∀ {name token}, (name, token) ∈ join.late → join.expected.lookup name = some token

-- The generation of a join tells it from those that were abandoned.
structure Core.Valid (c : Core) : Prop where
  pending   : ∀ {join}, c.currentJoin = some join → join.Valid
  issued    : ∀ {join}, c.currentJoin = some join → join.generation < c.nextJoinGeneration
  abandoned : ∀ {join}, join ∈ c.abandoned → join.generation < c.nextJoinGeneration
  fresh     : ∀ {join other}, c.currentJoin = some join → other ∈ c.abandoned →
                other.generation ≠ join.generation

variable {s s' : Discovery} {c c' : Core} {config : Config} {start now : Instant} {seed : Nat}
variable {name token : Bytes} {join pending : PendingJoin} {report : Report} {kind : Kind}

namespace PendingJoin

theorem Reported.append (h : join.Reported name token) :
    { join with reports := join.reports ++ [report] }.Reported name token := by
  obtain ⟨r, hm, hr⟩ := h
  exact ⟨r, List.mem_append_left _ hm, hr⟩

theorem Valid.starts (h : Starts c name join) : join.Valid where
  completed hm       := by simp [h.completed] at hm
  members hl hj      := h.expected.mpr ⟨_, h.registry hl hj, hj, rfl⟩
  late hm            := by simp [h.late] at hm

theorem Valid.credit (h : join.Valid) (hc : join.credits report) :
    { join with
      completed := insert report.name join.completed
      reports   := join.reports ++ [report] }.Valid where
  completed {name} hn := by
    rcases Finset.mem_insert.mp hn with rfl | hn
    · simp only [credits, Bool.decide_and, Bool.and_eq_true, decide_eq_true_eq] at hc
      refine ⟨report.token, hc.2.2, report, by simp, rfl, hc.1.symm, rfl, ?_⟩
      cases hg : report.generation
      case none => exact .inl rfl
      case some => exact .inr (by simpa [hg] using hc.2.1)
    · obtain ⟨token, hl, hr⟩ := h.completed hn
      exact ⟨token, hl, hr.append⟩
  members hl hj := h.members hl hj
  late hm       := h.late hm

-- The tokens of those who have to report stay what they are.
theorem Valid.expect (h : join.Valid) (hn : name ∉ join.expected) :
    { join with
      expected := join.expected.insert name token
      late     := join.late ++ [(name, token)] }.Valid := by
  have hk : ∀ {m t}, join.expected.lookup m = some t →
      (join.expected.insert name token).lookup m = some t := by
    intro m t hl
    rw [AList.lookup_insert_ne]
    · exact hl
    · rintro rfl
      exact hn (AList.mem_of_lookup hl)
  constructor
  case completed =>
    intro m hm
    obtain ⟨t, hl, hr⟩ := h.completed hm
    exact ⟨t, hk hl, hr⟩
  case members => exact fun hl hj => hk (h.members hl hj)
  case late =>
    intro m t hm
    rcases List.mem_append.mp hm with hm | hm
    · exact hk (h.late hm)
    · cases List.mem_singleton.mp hm
      exact AList.lookup_insert _

-- The sizes of the two sets are all that is compared.
theorem Valid.handedOff (h : join.Valid) (hs : join.expected.size ≤ join.completed.card) :
    join.HandedOff := by
  have hsub : join.completed ⊆ join.expected.keys.toFinset := by
    intro name hm
    obtain ⟨token, hl, -⟩ := h.completed hm
    exact List.mem_toFinset.mpr (AList.mem_of_lookup hl)
  have hcard : join.expected.keys.toFinset.card ≤ join.completed.card := by
    rw [List.toFinset_card_of_nodup join.expected.keys_nodup]
    simpa [AList.keys, List.keys, AList.size] using hs
  have heq := Finset.eq_of_subset_of_card_le hsub hcard
  have hr : ∀ {name token}, join.expected.lookup name = some token → join.Reported name token := by
    intro name token hl
    have hm : name ∈ join.completed := heq ▸ List.mem_toFinset.mpr (AList.mem_of_lookup hl)
    obtain ⟨token', hl', hr⟩ := h.completed hm
    cases hl.symm.trans hl'
    exact hr
  exact ⟨fun hl hj => hr (h.members hl hj), fun hm => hr (h.late hm)⟩

end PendingJoin

theorem valid_of_pending (h : c.Valid) (hc : c.currentJoin = some pending) (hj : join.Valid)
    (hg : join.generation = pending.generation) : { c with currentJoin := some join }.Valid := by
  obtain ⟨-, hi, ha, hf⟩ := h
  refine ⟨?_, ?_, ha, ?_⟩
  · rintro _ ⟨⟩
    exact hj
  · rintro _ ⟨⟩
    exact hg ▸ hi hc
  · rintro _ other ⟨⟩ hm
    exact hg ▸ hf hc hm

theorem valid_of_change (h : c.Valid) (change : Change c kind c') : c'.Valid := by
  have hv := h
  obtain ⟨hp, hi, ha, hf⟩ := hv
  cases change
  case refresh | update | register | rejoin | bootstrap | enlist | remove => exact ⟨hp, hi, ha, hf⟩
  case start hn hs =>
    refine ⟨?_, ?_, ?_, ?_⟩
    · rintro join ⟨⟩
      exact .starts hs
    · rintro join ⟨⟩
      simp [hs.generation]
    · intro join hm
      exact Nat.lt_succ_of_lt (ha hm)
    · rintro join other ⟨⟩ hm
      exact hs.generation ▸ (ha hm).ne
  case late hc hn      => exact valid_of_pending h hc ((hp hc).expect hn) rfl
  case credit hc hr    => exact valid_of_pending h hc ((hp hc).credit hr) rfl
  case measure hc      =>
    obtain ⟨hr, hm, hl⟩ := hp hc
    exact valid_of_pending h hc ⟨hr, hm, hl⟩ rfl
  case promote => exact ⟨by simp, by simp, ha, by simp⟩
  case abandon hc =>
    refine ⟨by simp, by simp, ?_, by simp⟩
    intro join hm
    rcases List.mem_append.mp hm with hm | hm
    · exact ha hm
    · cases List.mem_singleton.mp hm
      exact hi hc

theorem valid_of_changes (h : c.Valid) (changes : Changes kind c c') : c'.Valid := by
  induction changes
  case refl       => exact h
  case tail hc hi => exact valid_of_change hi hc

theorem Reaches.agrees (h : Reaches config start seed now s) : Agrees s.toCore := by
  induction h
  case initial => exact ⟨by simp [Discovery.initial], by simp [Discovery.initial]⟩
  case exec he hi =>
    obtain ⟨kind, mid, -, hm, hs⟩ := moves_of_exec hi he
    exact agrees_of_changes (agrees_of_changes hi hm) hs

theorem Reaches.valid (h : Reaches config start seed now s) : s.toCore.Valid := by
  induction h
  case initial =>
    exact ⟨by simp [Discovery.initial], by simp [Discovery.initial], by simp [Discovery.initial],
      by simp [Discovery.initial]⟩
  case exec hr _ he hi =>
    obtain ⟨kind, mid, -, hm, hs⟩ := moves_of_exec hr.agrees he
    exact valid_of_changes (valid_of_changes hi hm) hs

theorem promoted_of_handleComplete (hc : s.handleComplete now report = (s', true)) :
    ∃ pending, s.currentJoin = some pending ∧
      let completed := { pending with
        completed := insert report.name pending.completed
        reports   := pending.reports ++ [report] }
      pending.credits report ∧ completed.expected.size ≤ completed.completed.card ∧
        s' = { s with currentJoin := none, promoted := s.promoted ++ [completed] }.promoteToJoined
          pending.joiningName now := by
  rw [handleComplete] at hc
  split at hc
  case h_2 => simp at hc
  case h_1 pending hp =>
    split at hc
    case isFalse => simp at hc
    case isTrue credits =>
      dsimp only at hc
      split at hc
      case isTrue => simp at hc
      case isFalse hs => exact ⟨pending, hp, credits, not_lt.mp hs, (congrArg Prod.fst hc).symm⟩

-- A node is promoted only after every member has handed off to it, in the join that is pending. One
-- that was abandoned is not among the joins that promote.
theorem Reaches.promoted_after_handoff (h : Reaches config start seed now s) {now' : Instant}
    (hc : s.handleComplete now' report = (s', true)) :
    ∃ join, s.currentJoin.map (·.identity) = some join.identity ∧
      s'.promoted = s.promoted ++ [join] ∧
      (∃ info, s'.nodes.lookup join.joiningName = some info ∧ info.state = .joined) ∧
      join.HandedOff ∧ ∀ other ∈ s.abandoned, other.generation ≠ join.generation := by
  obtain ⟨pending, hp, credits, hs, rfl⟩ := promoted_of_handleComplete hc
  obtain ⟨info, hl, -⟩ := h.agrees.joining hp
  have hv := (h.valid.pending hp).credit credits
  have hf : ∀ other ∈ s.abandoned, other.generation ≠ pending.generation :=
    fun other hm => h.valid.fresh hp hm
  refine ⟨_, by rw [hp]; rfl, ?_, ?_, hv.handedOff hs, hf⟩
  · rw [promoteToJoined]
    simp only [hl]
  · rw [promoteToJoined]
    simp only [hl, AList.lookup_insert]
    exact ⟨_, rfl, rfl⟩

section Witness

-- A small cluster: one member, and a node that joins.
def plain : Config where
  replication      := 1
  listReadyAt      := 0
  livenessTimeout  := fromSecs 60
  authSecret       := none
  perIpKey         := id
  waitingSourceKey := id

def joining : List (Instant × Event) :=
  [(1, .accept [49]), (2, .frame 1 (.join [97] 1 [120])), (3, .accept [50]),
    (4, .frame 2 (.join [98] 2 [121])), (5, .accept [49])]

theorem promoted_joining : ∃ s s' : Discovery,
    s.handleComplete 6 ⟨[97], [98], [120], some 7⟩ = (s', true) ∧
      ∃ join, s.currentJoin.map (·.identity) = some join.identity ∧
        s'.promoted = s.promoted ++ [join] ∧
        (∃ info, s'.nodes.lookup join.joiningName = some info ∧ info.state = .joined) ∧
        join.HandedOff ∧ ∀ other ∈ s.abandoned, other.generation ≠ join.generation := by
  have hc : ((initial 0 7).run plain .asListed joining).map
      (·.handleComplete 6 ⟨[97], [98], [120], some 7⟩ |>.2) = some true := by
    decide +kernel
  obtain ⟨s, hr, hc⟩ := Option.map_eq_some_iff.mp hc
  obtain ⟨now, h⟩ := Reaches.initial.run (by decide) hr
  generalize hs : s.handleComplete 6 ⟨[97], [98], [120], some 7⟩ = handled at hc
  obtain ⟨s', promoted⟩ := handled
  cases hc
  exact ⟨s, s', hs, h.promoted_after_handoff hs⟩

end Witness

end Nanocached.Discovery
