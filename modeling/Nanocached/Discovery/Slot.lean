import Nanocached.Discovery.Changes

namespace Nanocached.Discovery

variable {s s' : Discovery} {c c' : Core} {config : Config} {o : Orders} {start now now' : Instant}
variable {seed : Nat} {name name' : Bytes} {info info' : NodeInfo} {kind : Kind}

section Fate

-- What a change means for a single name.
inductive Fate (name : Bytes) : Kind → Option NodeInfo → Option NodeInfo → Prop
  | absent {kind : Kind} : Fate name kind none none
  | stays {kind : Kind} {info info' : NodeInfo} :
    (info'.state = info.state) → (info'.waitingSince = info.waitingSince) →
    (info'.ownerConnectionId = info.ownerConnectionId ∨ info.state = .joined ∨
      kind = .registers name info'.ownerConnectionId) →
    Fate name kind (some info) (some info')
  | registers {info : NodeInfo} :
    (info.state = .waiting) → Fate name (.registers name info.ownerConnectionId) none (some info)
  | admitted {info : NodeInfo} :
    (info.state = .joined) → Fate name (.keeps (some name)) none (some info)
  | promoted {admitted : Option Bytes} {info info' : NodeInfo} :
    (info.state = .joining) → (info'.state = .joined) →
    Fate name (.keeps admitted) (some info) (some info')
  | begins {info info' : NodeInfo} :
    (info.state = .waiting) → (info'.waitingSince = info.waitingSince) →
    (info'.ownerConnectionId = info.ownerConnectionId ∨ info'.state = .joined) →
    Fate name .starts (some info) (some info')
  | dropped {info : NodeInfo} : Fate name .drops (some info) none

theorem Fate.refl {found : Option NodeInfo} : Fate name kind found found := by
  cases found
  case none => exact .absent
  case some => exact .stays rfl rfl (.inl rfl)

theorem fate_of_change (change : Change c kind c') :
    Fate name kind (c.nodes.lookup name) (c'.nodes.lookup name) := by
  cases change
  case refresh nodes hs =>
    have hs := hs name
    generalize c.nodes.lookup name = found at hs
    dsimp only
    generalize nodes.lookup name = found' at hs
    cases hs
    case none    => exact .absent
    case some hv => exact .stays hv.state hv.waitingSince (.inl hv.ownerConnectionId)
  case remove nodes hs hk =>
    rcases hs name with hn | hn
    · dsimp only
      rw [hn]
      cases c.nodes.lookup name
      case none => exact .absent
      case some => exact .dropped
    · exact hn ▸ .refl
  case abandon =>
    dsimp only
    rw [AList.lookup_erase_eq_ite]
    split
    case isFalse => exact .refl
    case isTrue =>
      cases c.nodes.lookup name
      case none => exact .absent
      case some => exact .dropped
  case late | credit | measure => exact .refl
  all_goals
    dsimp only
    rw [AList.lookup_insert_eq_ite]
    split
    case isFalse => exact .refl
  case update.isTrue hl hj hj' hw hn =>
    exact hn ▸ hl ▸ .stays (hj'.trans hj.symm) hw (.inr (.inl hj))
  case register.isTrue hl hw ho hn =>
    subst hn ho
    exact AList.lookup_eq_none.mpr hl ▸ .registers hw
  case rejoin.isTrue hl _ hv _ hn =>
    subst hn
    have ho := hv.ownerConnectionId
    dsimp only at ho
    rw [hl, ← ho]
    exact .stays hv.state hv.waitingSince (.inr (.inr rfl))
  case bootstrap.isTrue hc hn hj hw he => exact he ▸ hn.lookup ▸ .begins hn.waiting hw (.inr hj)
  case start.isTrue hc hn hs he        => exact he ▸ hn.lookup ▸ .begins hn.waiting rfl (.inl rfl)
  case enlist.isTrue hl hj hn =>
    subst hn
    exact AList.lookup_eq_none.mpr hl ▸ .admitted hj
  case promote.isTrue hc hs hl hi hj hn => exact hn ▸ hl ▸ .promoted hi hj

theorem of_changes {P : Option NodeInfo → Prop} (hP : ∀ {a b}, Fate name kind a b → P a → P b)
    (changes : Changes kind c c') (h : P (c.nodes.lookup name)) : P (c'.nodes.lookup name) := by
  induction changes
  case refl       => exact h
  case tail hc hi => exact hP (fate_of_change hc) hi

end Fate

section States

-- The name is registered, and in the state.
def Core.Has (c : Core) (state : NodeState) (name : Bytes) : Prop :=
  ∃ info, c.nodes.lookup name = some info ∧ info.state = state

-- In the state if it is registered at all.
def Core.Only (c : Core) (state : NodeState) (name : Bytes) : Prop :=
  ∀ info, c.nodes.lookup name = some info → info.state = state

theorem has_joined_of_changes (hk : kind ≠ .drops) (changes : Changes kind c c')
    (h : c.Has .joined name) : c'.Has .joined name := by
  refine of_changes (P := fun found => ∃ info, found = some info ∧ info.state = .joined) ?_ changes h
  rintro a b fate ⟨info, rfl, hj⟩
  cases fate
  case stays hs _ _    => exact ⟨_, rfl, hs.trans hj⟩
  case promoted hj' _  => exact ⟨_, rfl, hj'⟩
  case begins hw _ _   => simp [hw] at hj
  case dropped         => contradiction

-- Neither does a node that is gone come back.
theorem only_joined_of_changes (hk : kind = .drops ∨ kind = .starts) (changes : Changes kind c c')
    (h : c.Only .joined name) : c'.Only .joined name := by
  refine of_changes (P := fun found => ∀ info, found = some info → info.state = .joined) ?_ changes h
  rintro a b fate ha info' rfl
  cases fate
  case stays hs _ _  => exact hs.trans (ha _ rfl)
  case begins hw _ _ => simp [hw] at ha
  all_goals simp at hk

theorem only_waiting_of_changes (hk : kind ≠ .starts) (hn : kind ≠ .keeps (some name))
    (changes : Changes kind c c') (h : c.Only .waiting name) : c'.Only .waiting name := by
  refine of_changes (P := fun found => ∀ info, found = some info → info.state = .waiting) ?_ changes h
  rintro a b fate ha info' rfl
  cases fate
  case stays hs _ _    => exact hs.trans (ha _ rfl)
  case registers hw    => exact hw
  case promoted hi _   => simp [hi] at ha
  all_goals contradiction

theorem not_has_waiting_of_changes (hk : ∀ id, kind ≠ .registers name id) (changes : Changes kind c c')
    (h : ¬c.Has .waiting name) : ¬c'.Has .waiting name := by
  refine of_changes (P := fun found => ¬∃ info, found = some info ∧ info.state = .waiting) ?_ changes h
  rintro a b fate ha ⟨info', rfl, hw⟩
  cases fate
  case stays hs _ _  => exact ha ⟨_, rfl, hs ▸ hw⟩
  case admitted hj   => simp [hj] at hw
  case promoted _ hj => simp [hj] at hw
  case begins hw' _ _ => exact ha ⟨_, rfl, hw'⟩
  case registers     => exact hk _ rfl

end States

section Order

def NodeState.rank : NodeState → Nat
  | .waiting => 0
  | .joining => 1
  | .joined  => 2

theorem before_congr {a a' b b' : NodeInfo} (ha : a'.waitingSince = a.waitingSince)
    (hb : b'.waitingSince = b.waitingSince) (h : before (name, a) (name', b)) :
    before (name, a') (name', b') := by
  simpa only [before, ha, hb] using h

theorem waitingSince_of_starts (changes : Changes .starts c c')
    (hl : c'.nodes.lookup name = some info') :
    ∃ info, c.nodes.lookup name = some info ∧ info'.waitingSince = info.waitingSince := by
  refine of_changes (P := fun found => ∀ info', found = some info' →
    ∃ info, c.nodes.lookup name = some info ∧ info'.waitingSince = info.waitingSince)
    ?_ changes (fun info hl => ⟨info, hl, rfl⟩) info' hl
  rintro a b fate ha info' rfl
  cases fate
  case stays hs _ =>
    obtain ⟨info, hl, hi⟩ := ha _ rfl
    exact ⟨info, hl, hs.trans hi⟩
  case begins hs _ =>
    obtain ⟨info, hl, hi⟩ := ha _ rfl
    exact ⟨info, hl, hs.trans hi⟩

-- While a join is pending nothing is started.
theorem stays_of_pending (hc : c.currentJoin.isSome) (change : Change c .starts c') :
    c'.currentJoin = c.currentJoin ∧ ∀ {name info'}, c'.nodes.lookup name = some info' →
      ∃ info, c.nodes.lookup name = some info ∧ info'.state = info.state := by
  cases change
  case refresh hs =>
    refine ⟨rfl, fun hl => ?_⟩
    obtain ⟨info, hl, hv⟩ := exists_of_refreshed hs hl
    exact ⟨info, hl, hv.state⟩
  case bootstrap hn _ _ _ => simp [hn] at hc
  case start hn _ _       => simp [hn] at hc

theorem only_waiting_of_pending (hc : c.currentJoin.isSome) (changes : Changes .starts c c')
    (h : c.Only .waiting name) : c'.Only .waiting name := by
  have hs : c'.currentJoin.isSome ∧ c'.Only .waiting name := by
    induction changes
    case refl => exact ⟨hc, h⟩
    case tail change hi =>
      obtain ⟨he, hk⟩ := stays_of_pending hi.left change
      refine ⟨he ▸ hi.left, fun info' hl => ?_⟩
      obtain ⟨info, hl, hs⟩ := hk hl
      exact hs.trans (hi.right info hl)
  exact hs.right

-- Whose turn it is is started: it is a member at once, or its join is the one that is pending.
theorem isNext_of_begun (change : Change c .starts c') (hw : c.Only .waiting name)
    (hn : ¬c'.Only .waiting name) :
    ∃ info, IsNext c.nodes name info ∧ (c'.Has .joined name ∨ c'.currentJoin.isSome) := by
  simp only [Core.Only, not_forall] at hn
  obtain ⟨info', hl, hs⟩ := hn
  cases change
  case refresh hv =>
    obtain ⟨info, hl, hv⟩ := exists_of_refreshed hv hl
    exact absurd (hv.state.trans (hw info hl)) hs
  all_goals
    dsimp only at hl
    rw [AList.lookup_insert_eq_ite] at hl
    split at hl
  case bootstrap.isTrue hc hn hj _ he =>
    cases hl
    subst he
    exact ⟨_, hn, .inl ⟨_, AList.lookup_insert _, hj⟩⟩
  case start.isTrue hc hn _ he =>
    subst he
    exact ⟨_, hn, .inr rfl⟩
  all_goals exact absurd (hw _ hl) hs

-- Of two nodes in the queue, the one that has got further has come first.
theorem before_of_starts {a b : NodeInfo} (changes : Changes .starts c c')
    (hn : c.Only .waiting name) (hm : c.Only .waiting name')
    (ha : c'.nodes.lookup name = some a) (hb : c'.nodes.lookup name' = some b)
    (hr : b.state.rank < a.state.rank) : before (name, a) (name', b) := by
  have hne : name' ≠ name := by
    rintro rfl
    cases ha.symm.trans hb
    exact absurd hr (lt_irrefl _)
  induction changes using Relation.ReflTransGen.head_induction_on
  case refl => simp [hn a ha, NodeState.rank] at hr
  case head c c₁ change changes hi =>
    by_cases hn₁ : c₁.Only .waiting name
    case neg =>
      obtain ⟨info, hnext, -⟩ := isNext_of_begun change hn hn₁
      obtain ⟨a₁, ha₁, hwa⟩ := waitingSince_of_starts (.head change changes) ha
      obtain ⟨b₁, hb₁, hwb⟩ := waitingSince_of_starts (.head change changes) hb
      cases hnext.lookup.symm.trans ha₁
      exact before_congr hwa hwb (hnext.first hb₁ (hm _ hb₁) hne)
    case pos =>
      by_cases hm₁ : c₁.Only .waiting name'
      case pos => exact hi hn₁ hm₁
      case neg =>
        -- The other one was started, and is ahead.
        obtain ⟨-, -, hj | hc⟩ := isNext_of_begun change hm hm₁
        · obtain ⟨b', hb', hj⟩ := has_joined_of_changes (by simp) changes hj
          cases hb.symm.trans hb'
          cases hs : a.state <;> simp [hj, hs, NodeState.rank] at hr
        · have ha₁ := only_waiting_of_pending hc changes hn₁ a ha
          simp [ha₁, NodeState.rank] at hr

theorem waiting_or_joined_of_changes {admitted : Option Bytes}
    (changes : Changes (.keeps admitted) c c') (h : c.Only .waiting name)
    (hl : c'.nodes.lookup name = some info) : info.state = .waiting ∨ info.state = .joined := by
  refine of_changes (P := fun found => ∀ info, found = some info →
    info.state = .waiting ∨ info.state = .joined) ?_ changes (fun info hl => .inl (h info hl)) info hl
  rintro a b fate ha info' rfl
  cases fate
  case stays hs _ _  => exact hs ▸ ha _ rfl
  case admitted hj   => exact .inr hj
  case promoted _ hj => exact .inr hj

theorem before_of_moves {scope : Scope} {a b : NodeInfo} (moves : Moves scope c c')
    (hn : c.Only .waiting name) (hm : c.Only .waiting name') (hadm : scope.admits ≠ some name)
    (ha : c'.nodes.lookup name = some a) (hb : c'.nodes.lookup name' = some b)
    (hr : b.state.rank < a.state.rank) : before (name, a) (name', b) := by
  obtain ⟨kind, mid, hk, changes, starts⟩ := moves
  by_cases hs : kind = .starts
  case pos =>
    subst hs
    exact before_of_starts (changes.trans starts) hn hm ha hb hr
  case neg =>
    have hk : kind ≠ .keeps (some name) := by
      rintro rfl
      exact hadm (hk name rfl)
    have hn := only_waiting_of_changes hs hk changes hn
    by_cases hm' : mid.Only .waiting name'
    case pos => exact before_of_starts starts hn hm' ha hb hr
    case neg =>
      -- It was admitted, and is a member.
      have he : kind = .keeps (some name') := by
        by_contra he
        exact hm' (only_waiting_of_changes hs he changes hm)
      subst he
      simp only [Core.Only, not_forall] at hm'
      obtain ⟨info, hl, hw⟩ := hm'
      have hj := (waiting_or_joined_of_changes changes hm hl).resolve_left hw
      obtain ⟨b', hb', hj⟩ := has_joined_of_changes (by simp) starts ⟨info, hl, hj⟩
      cases hb.symm.trans hb'
      cases hs : a.state <;> simp [hj, hs, NodeState.rank] at hr

theorem joined_of_moves {scope : Scope} (moves : Moves scope c c')
    (h : c.Has .joined name) (hm : name ∈ c'.nodes) : c'.Has .joined name := by
  obtain ⟨kind, mid, -, changes, starts⟩ := moves
  by_cases hk : kind = .drops
  case neg => exact has_joined_of_changes (by simp) starts (has_joined_of_changes hk changes h)
  case pos =>
    have ho : c.Only .joined name := by
      intro info hl
      obtain ⟨info', hl', hj⟩ := h
      cases hl.symm.trans hl'
      exact hj
    have ho := only_joined_of_changes (.inr rfl) starts (only_joined_of_changes (.inl hk) changes ho)
    obtain ⟨info, hl⟩ := AList.exists_lookup_of_mem hm
    exact ⟨info, hl, ho info hl⟩

end Order

section Owners

-- The connection that owns a node that has not joined yet is the one it was, unless the node is
-- registered over another one.
theorem owner_of_changes (changes : Changes kind c c') (hl : c'.nodes.lookup name = some info')
    (hj : info'.state ≠ .joined) :
    (∃ info, c.nodes.lookup name = some info ∧ info.state ≠ .joined ∧
      info'.ownerConnectionId = info.ownerConnectionId) ∨
    kind = .registers name info'.ownerConnectionId := by
  refine of_changes (P := fun found => ∀ info', found = some info' → info'.state ≠ .joined →
    (∃ info, c.nodes.lookup name = some info ∧ info.state ≠ .joined ∧
      info'.ownerConnectionId = info.ownerConnectionId) ∨
    kind = .registers name info'.ownerConnectionId)
    ?_ changes (fun info hl hj => .inl ⟨info, hl, hj, rfl⟩) info' hl hj
  rintro a b fate ha info' rfl hj
  cases fate
  case stays hs _ ho =>
    rcases ho with ho | hj' | hk
    · rw [ho]
      exact ha _ rfl (hs ▸ hj)
    · exact absurd (hs.trans hj') hj
    · exact .inr hk
  case registers => exact .inr rfl
  case admitted hj'   => exact absurd hj' hj
  case promoted _ hj' => exact absurd hj' hj
  case begins hw _ ho =>
    rcases ho with ho | hj'
    · rw [ho]
      exact ha _ rfl (by simp [hw])
    · exact absurd hj' hj

end Owners

end Nanocached.Discovery
