import Nanocached.Discovery.Change
import Nanocached.Discovery.Frame

namespace Nanocached.Discovery

-- What happens to the core between two awaits.
def Changes (kind : Kind) : Core → Core → Prop :=
  Relation.ReflTransGen fun c c' => Change c kind c'

variable {s s' : Discovery} {c c' : Core} {config : Config} {o : Orders} {now : Instant}
variable {name token addr : Bytes} {info info' : NodeInfo} {nodes : Map Bytes NodeInfo}
variable {pending : PendingJoin} {kind : Kind}

theorem agrees_of_changes (h : Agrees c) (changes : Changes kind c c') : Agrees c' := by
  induction changes
  case refl         => exact h
  case tail hc hi => exact agrees_of_change hi hc

section Lookups

theorem SameView.refl (info : NodeInfo) : SameView info info :=
  ⟨rfl, rfl, rfl, rfl, rfl, rfl⟩

theorem refreshed_insert (hl : nodes.lookup name = some info) (hv : SameView info info') (n : Bytes) :
    Option.Rel SameView (nodes.lookup n) ((nodes.insert name info').lookup n) := by
  rw [AList.lookup_insert_eq_ite]
  split
  case isTrue hn =>
    subst hn
    rw [hl]
    exact .some hv
  case isFalse =>
    cases nodes.lookup n
    case none => exact .none
    case some => exact .some (.refl _)

theorem insert_insert : (nodes.insert name info).insert name info' = nodes.insert name info' := by
  rw [AList.insert_eq_insert_erase, AList.erase_insert_self, ← AList.insert_eq_insert_erase]

theorem mem_listed {entry : Bytes × NodeInfo} :
    entry ∈ listed nodes o ↔ nodes.lookup entry.1 = some entry.2 := by
  simp only [listed, List.mem_map, (o.nodes.perm _).mem_iff]
  constructor
  · rintro ⟨p, hp, rfl⟩
    exact AList.lookup_of_mem hp
  · intro hl
    exact ⟨⟨entry.1, entry.2⟩, AList.mem_entries.mpr hl, rfl⟩

theorem mem_joinedOf {entry : Bytes × NodeInfo} :
    entry ∈ joinedOf nodes o ↔ nodes.lookup entry.1 = some entry.2 ∧ entry.2.state = .joined := by
  rw [joinedOf, List.mem_filter, mem_listed, decide_eq_true_eq]

theorem lookup_foldl_erase {ν : Type} (names : List Bytes) (m : Map Bytes ν) (n : Bytes) :
    (names.foldl (fun m name => m.erase name) m).lookup n =
      if n ∈ names then none else m.lookup n := by
  induction names generalizing m
  case nil             => simp
  case cons name names hi =>
    rw [List.foldl_cons, hi, AList.lookup_erase_eq_ite]
    grind

end Lookups

section Begin

def arrival : Bytes × NodeInfo → Bytes × NodeInfo → Ordering :=
  compareLex (compareOn (·.2.waitingSince)) (compareOn (·.1))

instance : Std.TransCmp arrival :=
  inferInstanceAs (Std.TransCmp (compareLex _ _))

theorem before_iff {a b : Bytes × NodeInfo} : before a b ↔ arrival a b = .lt :=
  beq_iff_eq

theorem not_before_iff {a b : Bytes × NodeInfo} : ¬before b a ↔ (arrival a b).isLE := by
  rw [before_iff, @Std.OrientedCmp.eq_swap _ arrival _ b a]
  cases arrival a b <;> simp

theorem before_of_not_before {a b : Bytes × NodeInfo} (hn : b.1 ≠ a.1) (h : ¬before b a) :
    before a b := by
  rw [not_before_iff, Ordering.isLE_iff_eq_lt_or_eq_eq] at h
  refine before_iff.mpr (h.resolve_right fun he => hn ?_)
  exact (Std.LawfulEqOrd.eq_of_compare (Ordering.then_eq_eq.mp he).right).symm

theorem not_before_trans {a b c : Bytes × NodeInfo} (h₁ : ¬before b a) (h₂ : ¬before c b) :
    ¬before c a := by
  rw [not_before_iff] at *
  exact Std.TransCmp.isLE_trans h₁ h₂

theorem not_before_self {a : Bytes × NodeInfo} : ¬before a a := by
  rw [not_before_iff, @Std.ReflCmp.compare_self _ arrival _ a]
  rfl

theorem not_before_of_before {a b : Bytes × NodeInfo} (h : before a b) : ¬before b a := by
  rw [not_before_iff, before_iff.mp h]
  rfl

-- Among the entries that were looked at.
def Earliest (entries : List (Sigma fun _ : Bytes => NodeInfo)) :
    Option (Bytes × NodeInfo) → Prop
  | none      => ∀ entry ∈ entries, entry.2.state ≠ .waiting
  | some next =>
    ⟨next.1, next.2⟩ ∈ entries ∧ next.2.state = .waiting ∧
      ∀ entry ∈ entries, entry.2.state = .waiting → ¬before (entry.1, entry.2) next

theorem earliest_nextWaiting : Earliest nodes.entries (nextWaiting nodes) := by
  rw [nextWaiting]
  induction nodes.entries using List.reverseRecOn
  case nil => simp [Earliest]
  case append_singleton entries entry hi =>
    rw [List.foldl_append, List.foldl_cons, List.foldl_nil]
    generalize List.foldl _ none entries = next at hi
    split
    case isTrue hw =>
      cases next <;> simp only [Earliest, List.mem_append, List.mem_singleton] at hi ⊢ <;> grind
    case isFalse hw =>
      cases next
      case none =>
        simp only [Earliest, List.mem_append, List.mem_singleton] at hi ⊢
        grind [not_before_self]
      case some next =>
        obtain ⟨hm, hw', hb⟩ := hi
        dsimp only
        split
        case isTrue hlt =>
          refine ⟨by simp, by simpa using hw, fun e he hew => ?_⟩
          rcases List.mem_append.mp he with he | he
          · exact not_before_trans (not_before_of_before hlt) (hb e he hew)
          · rw [List.mem_singleton.mp he]
            exact not_before_self
        case isFalse hlt =>
          refine ⟨List.mem_append_left _ hm, hw', fun e he hew => ?_⟩
          rcases List.mem_append.mp he with he | he
          · exact hb e he hew
          · rw [List.mem_singleton.mp he]
            exact hlt

theorem isNext_of_nextWaiting (h : nextWaiting nodes = some (name, info)) :
    IsNext nodes name info := by
  obtain ⟨hm, hw, hb⟩ : Earliest nodes.entries (some (name, info)) := h ▸ earliest_nextWaiting
  refine ⟨AList.lookup_of_mem hm, hw, fun {name' info'} hl hw' hn => ?_⟩
  exact before_of_not_before hn (hb ⟨name', info'⟩ (AList.mem_entries.mpr hl) hw')

theorem not_waiting_of_nextWaiting (h : nextWaiting nodes = none) (hl : nodes.lookup name = some info) :
    info.state ≠ .waiting := by
  have he : Earliest nodes.entries none := h ▸ earliest_nextWaiting
  exact he ⟨name, info⟩ (AList.mem_entries.mpr hl)

theorem nodupKeys_listed : ((listed nodes o).map Prod.fst).Nodup := by
  have hp := (o.nodes.perm nodes.entries).map Sigma.fst
  have hd : (nodes.entries.map Sigma.fst).Nodup := nodes.nodupKeys
  rw [listed, List.map_map]
  exact hp.nodup_iff.mpr hd

theorem nodupKeys_joined :
    ((joinedOf nodes o).map fun e => (⟨e.1, e.2.token⟩ : Sigma fun _ : Bytes => Bytes)).NodupKeys := by
  have hs : ((joinedOf nodes o).map Prod.fst).Sublist ((listed nodes o).map Prod.fst) :=
    List.filter_sublist.map Prod.fst
  have hd := hs.nodup nodupKeys_listed
  simpa [List.NodupKeys, List.keys, Function.comp_def] using hd

theorem lookup_expected {m t : Bytes} :
    ((joinedOf nodes o).map fun e => (⟨e.1, e.2.token⟩ : Sigma fun _ : Bytes => Bytes)
      ).toAList.lookup m = some t ↔
      ∃ info, nodes.lookup m = some info ∧ info.state = .joined ∧ info.token = t := by
  rw [AList.lookup_to_alist, ← Option.mem_def, List.mem_dlookup_iff nodupKeys_joined, List.mem_map]
  constructor
  · rintro ⟨⟨n, info⟩, hm, he⟩
    obtain ⟨hl, hj⟩ := mem_joinedOf.mp hm
    cases he
    exact ⟨info, hl, hj, rfl⟩
  · rintro ⟨info, hl, hj, rfl⟩
    exact ⟨(m, info), mem_joinedOf.mpr ⟨hl, hj⟩, rfl⟩

theorem starts_pend :
    ∃ pending, ((s.startJoining name info).pend name (joinedOf s.nodes o) now).currentJoin =
      some pending ∧ Starts s.toCore name pending := by
  refine ⟨_, rfl, rfl, rfl, fun {m t} => lookup_expected, rfl, rfl, ?_, rfl⟩
  intro m info hl hj
  rw [startJoining, AList.lookup_insert_eq_ite] at hl
  split at hl
  · cases hl
    contradiction
  · exact hl

theorem changes_beginNextJoin {rounds : Nat} :
    Changes .starts s.toCore (beginNextJoin o now rounds s).toCore := by
  induction rounds generalizing s
  case zero => exact .refl
  case succ rounds hi =>
    rw [beginNextJoin]
    split
    · exact .refl
    case isFalse hc =>
      have hc := Option.not_isSome_iff_eq_none.mp hc
      split
      · exact .refl
      case h_2 name info hn =>
        have hn := isNext_of_nextWaiting hn
        dsimp only
        split
        case isTrue =>
          refine .head ?_ hi
          rw [promoteToJoined, startJoining]
          simp only [AList.lookup_insert, insert_insert]
          exact .bootstrap hc hn rfl rfl
        case isFalse =>
          obtain ⟨pending, hp, hs⟩ := @starts_pend s o now name info
          cases hp
          exact .single (.start hc hn hs)

theorem changes_tryBeginNextJoin :
    Changes .starts s.toCore (s.tryBeginNextJoin config o now).toCore := by
  rw [tryBeginNextJoin]
  split
  · exact .refl
  · exact changes_beginNextJoin

end Begin

section Register

theorem changes_startJoin {id : Nat} (h : s.startJoin config o now name addr token id = .ok s') :
    ∃ mid, Changes (.registers name id) s.toCore mid ∧ Changes .starts mid s'.toCore := by
  rw [startJoin] at h
  split at h
  case h_1 info hl =>
    split at h
    case isTrue => contradiction
    split at h
    case isTrue => contradiction
    case isFalse hj _ =>
      cases h
      refine ⟨_, .single ?_, changes_tryBeginNextJoin⟩
      refine .rejoin hl hj (by exact ⟨rfl, rfl, rfl, rfl, rfl, rfl⟩) ?_
      by_cases hm : info.state = .waiting ∧ info.address ≠ addr
      · exact .inl (by simp [hm])
      · refine .inr ⟨by simp [hm], ?_⟩
        dsimp only
        grind
  case h_2 hl =>
    split at h
    · contradiction
    · cases h
      refine ⟨_, .single ?_, changes_tryBeginNextJoin⟩
      exact .register (AList.lookup_eq_none.mp hl) rfl rfl

theorem changes_handOff {admitted : Option Bytes} :
    Changes (.keeps admitted) s.toCore (s.handOffFromLateMember name token).toCore := by
  rw [handOffFromLateMember]
  split
  case h_1 pending hc =>
    split
    · exact .refl
    case isFalse hn =>
      push Not at hn
      exact .single (.late hc hn.2.1)
  case h_2 => exact .refl

theorem changes_applyAnnounce {admitted : Option Bytes}
    (h : s.applyAnnounceToExisting now name addr token = .refreshed s') :
    Changes (.keeps admitted) s.toCore s'.toCore := by
  rw [applyAnnounceToExisting] at h
  split at h
  case h_2 => contradiction
  case h_1 info hl =>
    split at h
    case isTrue => contradiction
    split at h
    case isTrue => contradiction
    case isFalse hj =>
      cases h
      refine .single ?_
      split
      case isTrue => exact .update hl (not_not.mp hj) (not_not.mp hj) rfl
      case isFalse ha =>
        exact .refresh (refreshed_insert hl ⟨(not_not.mp ha).symm, rfl, rfl, rfl, rfl, rfl⟩)

theorem not_mem_of_unknown (h : s.applyAnnounceToExisting now name addr token = .unknown) :
    name ∉ s.nodes := by
  rw [applyAnnounceToExisting] at h
  split at h
  case h_1 => split_ifs at h
  case h_2 hl => exact AList.lookup_eq_none.mp hl

theorem changes_announce {peerIp : Bytes} :
    Changes (.keeps (some name)) s.toCore
      (s.announce config o now peerIp name addr token).1.toCore := by
  rw [announce]
  split
  case h_1 ha => exact changes_applyAnnounce ha
  case h_2    => exact .refl
  case h_3 ha =>
    split
    case isTrue  => exact .refl
    case isFalse =>
      dsimp only
      split
      case isTrue =>
        refine .head ?_ changes_handOff
        exact .enlist (not_mem_of_unknown ha) rfl
      case isFalse => exact .refl

theorem changes_handleComplete {report : Report} (h : Agrees s.toCore) :
    Changes (.keeps none) s.toCore (s.handleComplete now report).1.toCore := by
  rw [handleComplete]
  split
  case h_2 => exact .refl
  case h_1 pending hc =>
    obtain ⟨info, hl, hi⟩ := h.joining hc
    split
    case isFalse        => exact .refl
    case isTrue credits =>
      refine .head (@Change.credit _ none _ report hc credits) ?_
      dsimp only
      split
      case isTrue     => exact .refl
      case isFalse hs =>
        rw [promoteToJoined]
        simp only [hl]
        let credited := { pending with
          completed := insert report.name pending.completed
          reports   := pending.reports ++ [report] }
        exact .single (@Change.promote _ _ credited _ _ rfl (not_lt.mp hs) hl hi rfl)

theorem changes_credit {join : JoinIdentity} {entries : Nat} :
    Changes (.keeps none) s.toCore (s.creditMigrateSendResult join entries).toCore := by
  rw [creditMigrateSendResult]
  split
  case h_2 => exact .refl
  case h_1 hc =>
    split
    case isTrue  => exact .single (.measure hc)
    case isFalse => exact .refl

end Register

section Abandon

theorem changes_removeNode (hl : s.nodes.lookup name = some info) (hi : info.state ≠ .joining) :
    Changes .drops s.toCore (s.removeNode name).toCore := by
  rw [removeNode, if_pos (AList.mem_of_lookup hl)]
  refine .single (.remove ?_ ?_)
  · intro n
    rw [AList.lookup_erase_eq_ite]
    split <;> simp
  · intro n info' hl' hi'
    refine AList.lookup_erase_eq_some.mpr ⟨?_, hl'⟩
    rintro rfl
    cases hl.symm.trans hl'
    contradiction

theorem changes_abandonCurrentJoin {join : JoinIdentity} (h : Agrees s.toCore) :
    Changes .drops s.toCore (s.abandonCurrentJoin now join).1.toCore := by
  rw [abandonCurrentJoin]
  split
  case h_2 => exact .refl
  case h_1 pending hc =>
    split
    case isFalse => exact .refl
    case isTrue =>
      obtain ⟨info, hl, -⟩ := h.joining hc
      dsimp only
      rw [removeNode, if_pos]
      · exact .single (.abandon hc)
      · exact AList.mem_of_lookup hl

theorem changes_abandonIf {concerns : PendingJoin → Bool} (h : Agrees s.toCore) :
    Changes .drops s.toCore (s.abandonIf now concerns).1.toCore := by
  rw [abandonIf]
  split
  case h_2 => exact .refl
  case h_1 =>
    split
    case isTrue  => exact changes_abandonCurrentJoin h
    case isFalse => exact .refl

-- The node of the pending join is gone first, and the join afterwards.
theorem changes_dropped (h : Agrees s.toCore) (hl : s.nodes.lookup name = some info)
    (hs : s'.toCore = (s.removeNode name).toCore) :
    Changes .drops s.toCore (s'.abandonIf now (·.joiningName = name)).1.toCore := by
  by_cases hi : info.state = .joining
  case neg =>
    have hr := hs ▸ changes_removeNode hl hi
    exact hr.trans (changes_abandonIf (agrees_of_changes h hr))
  case pos =>
    obtain ⟨pending, hc, rfl⟩ := h.pending hl hi
    rw [removeNode, if_pos (AList.mem_of_lookup hl)] at hs
    have hc' : s'.currentJoin = some pending := hs ▸ hc
    have hn : pending.joiningName ∉ s'.nodes := by
      rw [hs]
      exact fun hm => (AList.mem_erase.mp hm).left rfl
    simp only [abandonIf, hc', decide_true, if_true, abandonCurrentJoin, removeNode, hn, if_false]
    rw [hs]
    exact .single (.abandon hc)

theorem changes_onNodeConnectionEnded {id : Nat} (h : Agrees s.toCore) :
    Changes .drops s.toCore (s.onNodeConnectionEnded now name id).1.toCore := by
  rw [onNodeConnectionEnded]
  split
  case h_2 => exact .refl
  case h_1 info hl =>
    split
    case isFalse => exact .refl
    case isTrue  => exact changes_dropped h hl rfl

theorem changes_nodeLeave {taken : Bool} (h : Agrees s.toCore)
    (hs : s.nodeLeave now name token = some (s', taken)) : Changes .drops s.toCore s'.toCore := by
  rw [nodeLeave] at hs
  split at hs
  case h_2 =>
    cases hs
    exact .refl
  case h_1 info hl =>
    split at hs
    case isFalse => contradiction
    case isTrue =>
      dsimp only at hs
      split at hs <;> have hs := congrArg Prod.fst (Option.some.inj hs) <;> subst hs
      case h_1 hi =>
        have hr := changes_removeNode hl (hi ▸ NodeState.noConfusion)
        refine .trans ?_ (changes_abandonIf ?_)
        · exact hr
        · exact agrees_of_changes h hr
      case h_2 => exact changes_dropped h hl rfl
      case h_3 => exact changes_dropped h hl rfl

end Abandon

section Sweep

theorem changes_refreshStalled {stalled : Bool} :
    Changes .drops s.toCore (s.refreshStalled now stalled).toCore := by
  rw [refreshStalled]
  split
  case isFalse => exact .refl
  case isTrue =>
    refine .single (.refresh fun n => ?_)
    have hm := @List.dlookup_map₂ _ _ _ _ s.nodes.entries (fun _ info =>
      if info.state = .joined then { info with lastHeartbeat := now } else info) n
    refine Eq.mpr (congrArg (Option.Rel SameView (s.nodes.lookup n)) hm) ?_
    rw [AList.lookup]
    cases s.nodes.entries.dlookup n
    case none => exact .none
    case some info =>
      refine .some ?_
      dsimp only
      split <;> exact ⟨rfl, rfl, rfl, rfl, rfl, rfl⟩

theorem toCore_dropProxies : (s.dropProxies config now).toCore = s.toCore :=
  rfl

theorem changes_evict : Changes .drops s.toCore (s.evict config o now).2.toCore := by
  rw [evict]
  dsimp only
  split
  case isTrue he =>
    rw [List.isEmpty_iff.mp he]
    exact .refl
  case isFalse =>
    have hl := lookup_foldl_erase (((listed s.nodes o).filter (expires config now ·.2)).map Prod.fst)
      s.nodes
    rw [List.foldl_map] at hl
    refine .single (.remove (fun n => ?_) (fun {n info} hn hi => ?_))
    · rw [hl]
      split <;> simp
    · -- A node that is joining does not expire.
      rw [hl, if_neg, hn]
      intro hm
      obtain ⟨e, he, rfl⟩ := List.mem_map.mp hm
      obtain ⟨hm, he⟩ := List.mem_filter.mp he
      cases hn.symm.trans (mem_listed.mp hm)
      simp [expires, hi] at he

theorem toCore_recordAll {stalled : Bool} {names : List Bytes} :
    (s.recordAll now stalled names).toCore = s.toCore :=
  rfl

theorem toCore_kickGraceJoins : (s.kickGraceJoins config now).toCore = s.toCore := by
  rw [kickGraceJoins]
  split
  · exact sweeps_spawn.toCore
  · rfl

theorem changes_sweepNodes : Changes .drops s.toCore (s.sweepNodes config o now).toCore := by
  rw [sweepNodes]
  dsimp only
  rw [sweeps_abandonTimedOut.toCore, toCore_recordAll, sweeps_abandonEvicted.toCore, toCore_recordAll]
  refine .trans ?_ changes_evict
  rw [toCore_dropProxies]
  exact @changes_refreshStalled { s with lastTick := now } now _

theorem changes_sweepTick : Changes .drops s.toCore (s.sweepTick config o now).toCore := by
  rw [sweepTick, toCore_kickGraceJoins]
  exact changes_sweepNodes

end Sweep

section Exec

-- Only a `P` admits a node, and only a `J` registers one.
structure Scope where
  admits    : Option Bytes
  registers : Option (Bytes × Nat)

def Kind.Fits (scope : Scope) : Kind → Prop
  | .registers name id => scope.registers = some (name, id)
  | .keeps admitted    => ∀ name, admitted = some name → scope.admits = some name
  | .drops | .starts   => True

-- Something happens, and then joins may be started.
def Moves (scope : Scope) (c c' : Core) : Prop :=
  ∃ kind mid, kind.Fits scope ∧ Changes kind c mid ∧ Changes .starts mid c'

variable {scope : Scope} {conn : Connection} {id : Nat}

theorem Moves.refl : Moves scope c c :=
  ⟨.drops, c, trivial, .refl, .refl⟩

theorem moves_of_changes (hk : kind.Fits scope) (changes : Changes kind c c') : Moves scope c c' :=
  ⟨kind, c', hk, changes, .refl⟩

theorem moves_of_starts (changes : Changes .starts c c') : Moves scope c c' :=
  ⟨.drops, c, trivial, .refl, changes⟩

theorem fits_drops : Kind.drops.Fits scope :=
  trivial

theorem fits_keeps : (Kind.keeps none).Fits scope := by
  simp [Kind.Fits]

theorem moves_of_work (h : Agrees s.toCore) (hs : s.work config o now = some s') :
    Moves scope s.toCore s'.toCore := by
  rw [work] at hs
  split at hs
  case h_1 =>
    cases hs
    exact moves_of_changes fits_drops (changes_abandonCurrentJoin h)
  case h_2 | h_3 =>
    cases hs
    exact moves_of_starts changes_tryBeginNextJoin
  case h_4 =>
    cases hs
    exact .refl
  case h_5 => contradiction

theorem changes_heartbeat {replication : Option Nat} {pendingJoiner : Option Bytes} :
    Changes (.keeps none) s.toCore
      (heartbeat config o now s conn name replication token pendingJoiner).state.toCore := by
  rw [heartbeat]
  split
  case h_2 => exact .refl
  case h_1 info hl =>
    split
    case isFalse => exact .refl
    case isTrue hj =>
      have hc : Change s.toCore (.keeps none) { s.toCore with
          nodes      := s.nodes.insert name
            { info with lastHeartbeat := now, reportedReplication := replication }
          generation :=
            if info.reportedReplication ≠ replication then s.generation + 1 else s.generation } := by
        split
        case isTrue => exact .update hl hj.1 hj.1 rfl
        case isFalse hr =>
          exact .refresh (refreshed_insert hl ⟨rfl, rfl, (not_not.mp hr).symm, rfl, rfl, rfl⟩)
      dsimp only
      split <;> exact .single hc

theorem toCore_list : (list config o now s conn).state.toCore = s.toCore := by
  rw [list]
  split
  · rfl
  · dsimp only
    split <;> rfl

theorem toCore_cachedProxyList : (s.cachedProxyList o).2.toCore = s.toCore := by
  rw [cachedProxyList]
  split
  · split_ifs <;> rfl
  · rfl

theorem toCore_listProxies : (listProxies config o now s conn).state.toCore = s.toCore := by
  rw [listProxies]
  split
  · rfl
  · exact toCore_cachedProxyList

theorem toCore_nodeRoster : (nodeRoster config o now s conn name token).state.toCore = s.toCore := by
  rw [nodeRoster]
  split_ifs <;> rfl

theorem toCore_proxyDeregister : (proxyDeregister s conn name token).state.toCore = s.toCore := by
  rw [proxyDeregister]
  split
  · split <;> rfl
  · rfl

theorem toCore_proxyAnnounce {port : Nat} :
    (proxyAnnounce now s conn name port token).state.toCore = s.toCore := by
  rw [proxyAnnounce]
  split
  · split <;> rfl
  · split <;> rfl

theorem changes_leave (h : Agrees s.toCore) :
    Changes .drops s.toCore (leave now s conn name token).state.toCore := by
  rw [leave]
  split
  case h_1 hs => exact changes_nodeLeave h hs
  case h_2 hs => exact changes_nodeLeave h hs
  case h_3    => exact .refl

theorem moves_join {port : Nat} (hs : scope.registers = some (name, id)) :
    Moves scope s.toCore (join config o now s conn id name port token).state.toCore := by
  rw [join]
  split
  case h_1 hj =>
    obtain ⟨mid, hm, hj⟩ := changes_startJoin hj
    exact ⟨.registers name id, mid, hs, hm, hj⟩
  case h_2 => exact .refl

theorem changes_announceNode {port : Nat} {rejoinCapable : Bool} :
    Changes (.keeps (some name)) s.toCore
      (announceNode config o now s conn name port token rejoinCapable).state.toCore := by
  rw [announceNode]
  split
  case isTrue => exact .refl
  case isFalse =>
    have ha := @changes_announce s config o now name token (composeAddress conn.peerIp port) conn.peerIp
    split
    case h_1 hs => simpa only [hs] using ha
    case h_2 hs => simpa only [hs, close] using ha

theorem changes_complete {report : Report} (h : Agrees s.toCore) :
    Changes (.keeps none) s.toCore (complete now s conn report).state.toCore := by
  have hr := @changes_handleComplete s now report h
  rw [complete]
  split
  case h_1 hs => simpa only [hs] using hr
  case h_2 hs => simpa only [hs] using hr

def DiscoveryCommand.admits : DiscoveryCommand → Option Bytes
  | .announce name .. => some name
  | _                 => none

def DiscoveryCommand.registers : DiscoveryCommand → Option Bytes
  | .join name .. => some name
  | _             => none

def Event.admits : Event → Option Bytes
  | .frame _ command => command.admits
  | _                => none

def Event.registers : Event → Option (Bytes × Nat)
  | .frame id command => command.registers.map fun name => (name, id)
  | _                 => none

theorem moves_handle {command : DiscoveryCommand} (h : Agrees s.toCore) :
    Moves ⟨command.admits, command.registers.map fun name => (name, id)⟩ s.toCore
      (handle config o now s conn id command).state.toCore := by
  unfold handle
  split
  case isTrue => exact .refl
  case isFalse =>
    cases command
    case auth =>
      dsimp only
      rw [auth]
      split <;> exact .refl
    case heartbeat       => exact moves_of_changes fits_keeps changes_heartbeat
    case list            => exact toCore_list ▸ .refl
    case listProxies     => exact toCore_listProxies ▸ .refl
    case nodeLeave       => exact moves_of_changes fits_drops (changes_leave h)
    case proxyDeregister => exact toCore_proxyDeregister ▸ .refl
    case proxyAnnounce   => exact toCore_proxyAnnounce ▸ .refl
    case join            => exact moves_join rfl
    case complete        => exact moves_of_changes fits_keeps (changes_complete h)
    case nodeRoster      => exact toCore_nodeRoster ▸ .refl
    case announce =>
      refine moves_of_changes ?_ changes_announceNode
      simp [Kind.Fits, DiscoveryCommand.admits]

theorem moves_of_goOn {conn' : Option Connection} {answer : Option Bytes}
    (h : goOn config o now s conn = some (s', conn', answer)) : Moves scope s.toCore s'.toCore := by
  rw [goOn] at h
  split at h <;> cases h
  case h_1 | h_2 => exact .refl
  all_goals exact moves_of_starts changes_tryBeginNextJoin

theorem changes_of_hangUp {conn' : Option Connection} (h : Agrees s.toCore)
    (hs : hangUp now s conn id = some (s', conn')) : Changes .drops s.toCore s'.toCore := by
  obtain ⟨-, ⟨-, rfl, -⟩ | ⟨name, taken, -, he, -⟩⟩ := hangUp_cases hs
  · exact .refl
  · have hc := @changes_onNodeConnectionEnded s now name id h
    rw [he] at hc
    exact hc

theorem moves_of_exec {e : Event} {answer : Option Bytes} (h : Agrees s.toCore)
    (he : s.exec config o now e = some (s', answer)) :
    Moves ⟨e.admits, e.registers⟩ s.toCore s'.toCore := by
  cases step_of_exec he
  case accept | wake => exact .refl
  case frame         => exact moves_handle h
  case proceed hg    => exact (moves_of_goOn hg :)
  case hangup hg     => exact (moves_of_changes fits_drops (changes_of_hangUp h hg) :)
  case tick          => exact moves_of_changes fits_drops changes_sweepTick
  case work hw       => exact moves_of_work h hw
  case credit        => exact moves_of_changes fits_keeps changes_credit

end Exec

end Nanocached.Discovery
