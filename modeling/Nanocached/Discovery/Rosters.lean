import Nanocached.Discovery.Promotion

namespace Nanocached.Discovery

variable {s s' : Discovery} {c c' : Core} {config : Config} {o o' : Orders} {start now : Instant}
variable {seed : Nat} {kind : Kind} {nodes nodes' : Map Bytes NodeInfo}
variable {proxies proxies' : Map Bytes ProxyInfo}

section Views

-- What the members look like in `A` and in a list of nodes, along with their votes.
def ballot (info : NodeInfo) : Option (Bytes × Option Nat) :=
  if info.state = .joined then some (info.address, info.reportedReplication) else none

def ballots (nodes : Map Bytes NodeInfo) (o : Orders) : List (Bytes × Bytes × Option Nat) :=
  (joinedOf nodes o).map fun (name, info) => (name, info.address, info.reportedReplication)

-- What every node looks like in the roster for nodes.
def rosterEntries (nodes : Map Bytes NodeInfo) (o : Orders) : List (Bytes × Bytes × Bytes) :=
  (listed nodes o).map fun (name, info) => (name, info.address, info.token)

def proxyEntries (proxies : Map Bytes ProxyInfo) (o : Orders) : List (Bytes × Bytes) :=
  (o.proxies.apply proxies.entries).map fun entry => (entry.1, entry.2.address)

structure SameViews (nodes nodes' : Map Bytes NodeInfo) : Prop where
  ballots : ∀ name, (nodes'.lookup name).bind ballot = (nodes.lookup name).bind ballot
  entries : ∀ name, (nodes'.lookup name).map (fun info => (info.address, info.token)) =
              (nodes.lookup name).map fun info => (info.address, info.token)

theorem SameViews.refl : SameViews nodes nodes :=
  ⟨fun _ => rfl, fun _ => rfl⟩

theorem SameViews.trans {nodes'' : Map Bytes NodeInfo} (h₁ : SameViews nodes nodes')
    (h₂ : SameViews nodes' nodes'') : SameViews nodes nodes'' :=
  ⟨fun n => (h₂.ballots n).trans (h₁.ballots n), fun n => (h₂.entries n).trans (h₁.entries n)⟩

theorem mem_ballots {x : Bytes × Bytes × Option Nat} :
    x ∈ ballots nodes o ↔ (nodes.lookup x.1).bind ballot = some x.2 := by
  rw [ballots, List.mem_map, Option.bind_eq_some_iff]
  constructor
  · rintro ⟨e, he, rfl⟩
    obtain ⟨hl, hj⟩ := mem_joinedOf.mp he
    exact ⟨e.2, hl, by simp [ballot, hj]⟩
  · rintro ⟨info, hl, hb⟩
    obtain ⟨hj, hb⟩ := Option.ite_none_right_eq_some.mp hb
    refine ⟨(x.1, info), mem_joinedOf.mpr ⟨hl, hj⟩, ?_⟩
    exact Prod.ext rfl (Option.some.inj hb)

theorem mem_rosterEntries {x : Bytes × Bytes × Bytes} :
    x ∈ rosterEntries nodes o ↔
      (nodes.lookup x.1).map (fun info => (info.address, info.token)) = some x.2 := by
  rw [rosterEntries, List.mem_map, Option.map_eq_some_iff]
  constructor
  · rintro ⟨e, he, rfl⟩
    exact ⟨e.2, mem_listed.mp he, rfl⟩
  · rintro ⟨info, hl, hx⟩
    exact ⟨(x.1, info), mem_listed.mpr hl, Prod.ext rfl hx⟩

theorem nodup_ballots : (ballots nodes o).Nodup := by
  refine .of_map Prod.fst ?_
  rw [ballots, List.map_map]
  exact (List.filter_sublist.map Prod.fst).nodup nodupKeys_listed

theorem nodup_rosterEntries : (rosterEntries nodes o).Nodup := by
  refine .of_map Prod.fst ?_
  rw [rosterEntries, List.map_map]
  exact nodupKeys_listed

theorem ballots_perm (h : SameViews nodes nodes') : (ballots nodes o).Perm (ballots nodes' o') := by
  refine (List.perm_ext_iff_of_nodup nodup_ballots nodup_ballots).mpr fun x => ?_
  rw [mem_ballots, mem_ballots, h.ballots]

theorem rosterEntries_perm (h : SameViews nodes nodes') :
    (rosterEntries nodes o).Perm (rosterEntries nodes' o') := by
  refine (List.perm_ext_iff_of_nodup nodup_rosterEntries nodup_rosterEntries).mpr fun x => ?_
  rw [mem_rosterEntries, mem_rosterEntries, h.entries]

end Views

section Change

-- A view does not change without the generation.
def Tracks (c c' : Core) : Prop :=
  c.generation < c'.generation ∨ c'.generation = c.generation ∧ SameViews c.nodes c'.nodes

theorem Tracks.refl : Tracks c c :=
  .inr ⟨rfl, .refl⟩

theorem Tracks.trans {c'' : Core} (h₁ : Tracks c c') (h₂ : Tracks c' c'') : Tracks c c'' := by
  rcases h₁ with h₁ | ⟨h₁, v₁⟩ <;> rcases h₂ with h₂ | ⟨h₂, v₂⟩
  · exact .inl (h₁.trans h₂)
  · exact .inl (h₂ ▸ h₁)
  · exact .inl (h₁ ▸ h₂)
  · exact .inr ⟨h₂.trans h₁, v₁.trans v₂⟩

theorem tracks_of_change (change : Change c kind c') : Tracks c c' := by
  cases change
  case late | credit | measure => exact .refl
  case refresh nodes hs =>
    refine .inr ⟨rfl, fun n => ?_, fun n => ?_⟩ <;>
    · have hs := hs n
      dsimp only
      generalize c.nodes.lookup n = found at hs
      generalize nodes.lookup n = found' at hs
      cases hs
      case none    => rfl
      case some hv =>
        simp [ballot, hv.address, hv.state, hv.token, hv.reportedReplication]
  case start name info pending hc hn hs =>
    -- The node is not a member yet, and its address and its token are what they were.
    refine .inr ⟨rfl, fun n => ?_, fun n => ?_⟩ <;>
    · dsimp only
      rw [AList.lookup_insert_eq_ite]
      split
      case isTrue he =>
        rw [he, hn.lookup]
        simp [ballot, hn.waiting]
      case isFalse => rfl
  case rejoin name id generation info info' hl hi hv hg =>
    rcases hg with hg | ⟨hg, ha⟩
    case inl => exact .inl hg
    case inr =>
      refine .inr ⟨hg, fun n => ?_, fun n => ?_⟩ <;>
      · dsimp only
        rw [AList.lookup_insert_eq_ite]
        split
        case isTrue he =>
          rw [he, hl]
          simp [ballot, ha, hv.state, hv.reportedReplication, hv.token]
        case isFalse => rfl
  all_goals exact .inl (Nat.lt_succ_self _)

theorem tracks_of_changes (changes : Changes kind c c') : Tracks c c' := by
  induction changes
  case refl       => exact .refl
  case tail hc hi => exact hi.trans (tracks_of_change hc)

theorem tracks_of_moves {scope : Scope} (moves : Moves scope c c') : Tracks c c' := by
  obtain ⟨kind, mid, -, hm, hs⟩ := moves
  exact (tracks_of_changes hm).trans (tracks_of_changes hs)

end Change

section Render

variable {replication : Nat} {tag : UInt8} {withheld response : Bytes}

-- What the members vote for. A node that has not reported a replication factor has no vote.
def votes (nodes : Map Bytes NodeInfo) (o : Orders) : List Nat :=
  (joinedOf nodes o).filterMap (·.2.reportedReplication)

-- More than half of the votes are for another replication factor.
def disputed (nodes : Map Bytes NodeInfo) (replication : Nat) (o : Orders) : Bool :=
  (votes nodes o).length < 2 * (votes nodes o).countP (· ≠ replication)

-- What a rendering of the members gives, up to the order of the entries.
def IsRoster (tag : UInt8) (withheld : Bytes) (nodes : Map Bytes NodeInfo) (replication : Nat)
    (response : Bytes) : Prop :=
  ∀ o, if disputed nodes replication o then response = withheld
    else ∃ entries, entries.Perm ((joinedOf nodes o).map fun (name, info) => (name, info.address)) ∧
      response = buildRosterResponse tag entries replication

def IsNodeRoster (nodes : Map Bytes NodeInfo) (replication : Nat) (response : Bytes) : Prop :=
  ∀ o, ∃ entries, entries.Perm (rosterEntries nodes o) ∧
    response = buildNodeRosterResponse entries replication

def IsProxyList (proxies : Map Bytes ProxyInfo) (response : Bytes) : Prop :=
  ∀ o, ∃ entries, entries.Perm (proxyEntries proxies o) ∧ response = renderProxyList entries

theorem refuse_eq : (rosterSnapshotLocked nodes replication o).refuse =
    disputed nodes replication o := by
  have hl := (votes nodes o).length_eq_countP_add_countP (· = replication)
  have ha : (rosterSnapshotLocked nodes replication o).agreeing =
      (votes nodes o).countP (· = replication) := by
    rw [rosterSnapshotLocked, votes, List.countP_filterMap]
    exact List.countP_congr fun entry _ => by cases entry.2.reportedReplication <;> simp
  have hd : (rosterSnapshotLocked nodes replication o).dissenting.length =
      (votes nodes o).countP (· ≠ replication) := by
    rw [rosterSnapshotLocked, votes, List.countP_filterMap, List.length_map,
      ← List.countP_eq_length_filter]
    exact List.countP_congr fun entry _ => by
      cases h : entry.2.reportedReplication <;> simp [dissents, h]
  simp only [decide_eq_true_eq] at hl
  simp only [RosterSnapshot.refuse, disputed, ha, hd, ne_eq, decide_eq_decide]
  omega

theorem disputed_congr (h : SameViews nodes nodes') :
    disputed nodes' replication o' = disputed nodes replication o := by
  have hv {nodes o} : votes nodes o = (ballots nodes o).filterMap (·.2.2) := by
    simp [votes, ballots, List.filterMap_map]
  have hp : (votes nodes o).Perm (votes nodes' o') := by
    rw [hv, hv]
    exact (ballots_perm h).filterMap _
  simp only [disputed, hp.length_eq, hp.countP_eq]

theorem members_perm (h : SameViews nodes nodes') :
    ((joinedOf nodes o).map fun (name, info) => (name, info.address)).Perm
      ((joinedOf nodes' o').map fun (name, info) => (name, info.address)) := by
  have hp : (ballots nodes o).Perm (ballots nodes' o') := ballots_perm h
  simpa [ballots, Function.comp_def] using hp.map fun x => (x.1, x.2.1)

theorem isRoster_render (h : SameViews nodes nodes')
    (hr : response = if (rosterSnapshotLocked nodes replication o).refuse then withheld
      else buildRosterResponse tag (rosterSnapshotLocked nodes replication o).nodes replication) :
    IsRoster tag withheld nodes' replication response := by
  intro o'
  rw [disputed_congr (o := o) h]
  rw [refuse_eq] at hr
  split
  case isTrue hn  => rw [hr, if_pos hn]
  case isFalse hn => exact ⟨_, members_perm h, by rw [hr, if_neg hn]; rfl⟩

theorem isRoster_of_views (h : SameViews nodes nodes')
    (hr : IsRoster tag withheld nodes replication response) :
    IsRoster tag withheld nodes' replication response := by
  intro o
  have hr := hr o
  rw [disputed_congr (o := o) h]
  split at hr
  case isTrue hn =>
    rw [if_pos hn]
    exact hr
  case isFalse hn =>
    rw [if_neg hn]
    obtain ⟨entries, hp, he⟩ := hr
    exact ⟨entries, hp.trans (members_perm h), he⟩

theorem isNodeRoster_of_views (h : SameViews nodes nodes')
    (hr : IsNodeRoster nodes replication response) : IsNodeRoster nodes' replication response := by
  intro o
  obtain ⟨entries, hp, he⟩ := hr o
  exact ⟨entries, hp.trans (rosterEntries_perm h), he⟩

theorem isNodeRoster_render : IsNodeRoster nodes replication (renderNodeRoster nodes replication o) :=
  fun _ => ⟨_, rosterEntries_perm .refl, rfl⟩

end Render

section Caches

-- A cached response of the current generation is one of the registry as it is.
def Caches (cache : Option CachedResponse) (generation : Nat) (renders : Nat → Bytes → Prop) : Prop :=
  ∀ {entry}, cache = some entry → entry.generation ≤ generation ∧
    (entry.generation = generation → renders entry.replication entry.response)

theorem caches_cachedByGeneration {cache : Option CachedResponse} {generation replication : Nat}
    {rendered : Bytes} {renders : Nat → Bytes → Prop} (h : Caches cache generation renders)
    (hr : renders replication rendered) :
    renders replication (cachedByGeneration cache generation replication rendered).1 ∧
      Caches (cachedByGeneration cache generation replication rendered).2 generation renders := by
  have hstored : Caches (some ⟨generation, replication, rendered⟩) generation renders := by
    rintro entry ⟨⟩
    exact ⟨le_rfl, fun _ => hr⟩
  cases cache
  case none => exact ⟨hr, hstored⟩
  case some current =>
    rw [cachedByGeneration]
    split
    case isTrue hc => exact ⟨hc.2 ▸ (h rfl).2 hc.1, h⟩
    case isFalse =>
      split
      · exact ⟨hr, hstored⟩
      · exact ⟨hr, h⟩

theorem caches_of_tracks {cache : Option CachedResponse}
    {renders : Map Bytes NodeInfo → Nat → Bytes → Prop} (ht : Tracks c c')
    (hr : ∀ {replication response}, SameViews c.nodes c'.nodes →
      renders c.nodes replication response → renders c'.nodes replication response)
    (h : Caches cache c.generation (renders c.nodes)) :
    Caches cache c'.generation (renders c'.nodes) := by
  intro entry he
  obtain ⟨hg, hf⟩ := h he
  rcases ht with ht | ⟨ht, hv⟩
  · exact ⟨hg.trans ht.le, fun hc => absurd hc (hg.trans_lt ht).ne⟩
  · rw [ht]
    exact ⟨hg, fun hc => hr hv (hf hc)⟩

-- The same for the list of proxies.
structure Fresh (s : Discovery) : Prop where
  heartbeatAck   : Caches s.heartbeatAck s.generation (IsRoster 65 [65, 10] s.nodes)
  listCache      : Caches s.listCache s.generation (IsRoster 78 [66, 10] s.nodes)
  rosterCache    : Caches s.rosterCache s.generation (IsNodeRoster s.nodes)
  proxyListCache : ∀ {entry}, s.proxyListCache = some entry →
                     entry.generation ≤ s.proxyGeneration ∧
                     (entry.generation = s.proxyGeneration → IsProxyList s.proxies entry.response)

theorem fresh_cachedHeartbeatAck {replication : Nat} (h : Fresh s) :
    IsRoster 65 [65, 10] s.nodes replication (s.cachedHeartbeatAck replication o).1 ∧
      Fresh (s.cachedHeartbeatAck replication o).2 := by
  have hr : IsRoster 65 [65, 10] s.nodes replication (renderHeartbeatAck s.nodes replication o) :=
    isRoster_render .refl rfl
  obtain ⟨hr, hc⟩ := caches_cachedByGeneration h.heartbeatAck hr
  exact ⟨hr, hc, h.listCache, h.rosterCache, h.proxyListCache⟩

theorem fresh_cachedListResponse {replication : Nat} (h : Fresh s) :
    IsRoster 78 [66, 10] s.nodes replication (s.cachedListResponse replication o).1 ∧
      Fresh (s.cachedListResponse replication o).2 := by
  have hr : IsRoster 78 [66, 10] s.nodes replication (renderListResponse s.nodes replication o) :=
    isRoster_render .refl rfl
  obtain ⟨hr, hc⟩ := caches_cachedByGeneration h.listCache hr
  exact ⟨hr, h.heartbeatAck, hc, h.rosterCache, h.proxyListCache⟩

theorem fresh_cachedNodeRoster {replication : Nat} (h : Fresh s) :
    IsNodeRoster s.nodes replication (s.cachedNodeRoster replication o).1 ∧
      Fresh (s.cachedNodeRoster replication o).2 := by
  obtain ⟨hr, hc⟩ := caches_cachedByGeneration h.rosterCache (isNodeRoster_render (o := o))
  exact ⟨hr, h.heartbeatAck, h.listCache, hc, h.proxyListCache⟩

theorem proxyEntries_perm :
    (proxyEntries proxies o).Perm (proxies.entries.map fun e => (e.1, e.2.address)) :=
  (o.proxies.perm _).map _

theorem isProxyList_of_perm {response : Bytes}
    (hp : (proxies.entries.map fun e => (e.1, e.2.address)).Perm
      (proxies'.entries.map fun e => (e.1, e.2.address)))
    (h : IsProxyList proxies response) : IsProxyList proxies' response := by
  intro o
  obtain ⟨entries, he, hr⟩ := h o
  exact ⟨entries, he.trans (proxyEntries_perm.trans (hp.trans proxyEntries_perm.symm)), hr⟩

theorem fresh_cachedProxyList (h : Fresh s) :
    IsProxyList s.proxies (s.cachedProxyList o).1 ∧ Fresh (s.cachedProxyList o).2 := by
  have hr : IsProxyList s.proxies (renderProxies s.proxies o) :=
    fun _ => ⟨_, proxyEntries_perm.trans proxyEntries_perm.symm, rfl⟩
  have hstored : Fresh { s with
      proxyListCache := some ⟨s.proxyGeneration, renderProxies s.proxies o⟩ } := by
    refine ⟨h.heartbeatAck, h.listCache, h.rosterCache, ?_⟩
    rintro entry ⟨⟩
    exact ⟨le_rfl, fun _ => hr⟩
  rw [cachedProxyList]
  split
  case h_2 => exact ⟨hr, hstored⟩
  case h_1 current hc =>
    split
    case isTrue hg => exact ⟨(h.proxyListCache hc).2 hg, h⟩
    case isFalse =>
      split
      · exact ⟨hr, hstored⟩
      · exact ⟨hr, h⟩

structure SameCaches (s s' : Discovery) : Prop where
  heartbeatAck    : s'.heartbeatAck = s.heartbeatAck
  listCache       : s'.listCache = s.listCache
  rosterCache     : s'.rosterCache = s.rosterCache
  proxyListCache  : s'.proxyListCache = s.proxyListCache

theorem Within.sameCaches (h : Within s s') : SameCaches s s' := by
  rw [h]
  exact ⟨rfl, rfl, rfl, rfl⟩

-- The list of proxies does not change without its generation either.
def TracksProxies (s s' : Discovery) : Prop :=
  s.proxyGeneration < s'.proxyGeneration ∨ s'.proxyGeneration = s.proxyGeneration ∧
    ∀ response, IsProxyList s.proxies response → IsProxyList s'.proxies response

theorem TracksProxies.of_eq (hp : s'.proxies = s.proxies)
    (hg : s'.proxyGeneration = s.proxyGeneration) : TracksProxies s s' :=
  .inr ⟨hg, fun _ h => hp ▸ h⟩

theorem Within.tracksProxies (h : Within s s') : TracksProxies s s' := by
  rw [h]
  exact .of_eq rfl rfl

theorem fresh_of_tracks (h : Fresh s) (ht : Tracks s.toCore s'.toCore) (hc : SameCaches s s')
    (hp : TracksProxies s s') : Fresh s' := by
  constructor
  case heartbeatAck => exact hc.heartbeatAck ▸ caches_of_tracks ht isRoster_of_views h.heartbeatAck
  case listCache    => exact hc.listCache ▸ caches_of_tracks ht isRoster_of_views h.listCache
  case rosterCache  => exact hc.rosterCache ▸ caches_of_tracks ht isNodeRoster_of_views h.rosterCache
  case proxyListCache =>
    intro entry he
    obtain ⟨hg, hf⟩ := h.proxyListCache (hc.proxyListCache ▸ he)
    rcases hp with hp | ⟨hp, hr⟩
    · exact ⟨hg.trans hp.le, fun hc => absurd hc (hg.trans_lt hp).ne⟩
    · rw [hp]
      exact ⟨hg, fun hc => hr _ (hf hc)⟩

theorem fresh_of_within (h : Fresh s) (ht : Tracks s.toCore s'.toCore) (hw : Within s s') : Fresh s' :=
  fresh_of_tracks h ht hw.sameCaches hw.tracksProxies

end Caches

section Exec

variable {conn : Connection} {id : Nat} {name token : Bytes}

-- The answer is rendered after the heartbeat has been taken note of.
theorem fresh_heartbeat {replication : Option Nat} {pendingJoiner : Option Bytes} (h : Fresh s) :
    let handled := heartbeat config o now s conn name replication token pendingJoiner
    Fresh handled.state ∧ ∀ ack, config.listReadyAt ≤ now → handled.answer = some ack →
      IsRoster 65 [65, 10] handled.state.nodes config.replication ack := by
  have ht := tracks_of_changes
    (@changes_heartbeat s config o now name token conn replication pendingJoiner)
  dsimp only
  rw [heartbeat] at ht ⊢
  split at ht
  case h_2 => exact ⟨h, by simp [close]⟩
  case h_1 info hl =>
    split at ht
    case isFalse hn =>
      rw [if_neg hn]
      exact ⟨h, by simp [close]⟩
    case isTrue hn =>
      simp only [if_pos hn] at ht ⊢
      split at ht
      case isTrue hr =>
        rw [if_pos hr]
        refine ⟨fresh_of_tracks h ht ⟨rfl, rfl, rfl, rfl⟩ (.of_eq rfl rfl), ?_⟩
        exact fun ack hr' => absurd hr (not_lt.mpr hr')
      case isFalse hr =>
        rw [if_neg hr]
        have h₁ : Fresh { s with
            nodes      := s.nodes.insert name
              { info with lastHeartbeat := now, reportedReplication := replication }
            generation :=
              if info.reportedReplication ≠ replication then s.generation + 1 else s.generation } :=
          fresh_of_tracks h ht ⟨rfl, rfl, rfl, rfl⟩ (.of_eq rfl rfl)
        refine ⟨(fresh_cachedHeartbeatAck h₁).2, ?_⟩
        rintro ack - ⟨⟩
        exact (fresh_cachedHeartbeatAck h₁).1

theorem fresh_list (h : Fresh s) : Fresh (list config o now s conn).state := by
  rw [list]
  split
  · exact h
  · dsimp only
    split <;> exact (fresh_cachedListResponse h).2

theorem fresh_listProxies (h : Fresh s) : Fresh (listProxies config o now s conn).state := by
  rw [listProxies]
  split
  · exact h
  · exact (fresh_cachedProxyList h).2

theorem fresh_nodeRoster (h : Fresh s) : Fresh (nodeRoster config o now s conn name token).state := by
  rw [nodeRoster]
  split
  · exact h
  · split
    · exact h
    · exact (fresh_cachedNodeRoster h).2

theorem fresh_proxyDeregister (h : Fresh s) : Fresh (proxyDeregister s conn name token).state := by
  rw [proxyDeregister]
  split
  · split
    · exact fresh_of_tracks h .refl ⟨rfl, rfl, rfl, rfl⟩ (.inl (Nat.lt_succ_self _))
    · exact h
  · exact h

theorem isProxyList_insert {existing info : ProxyInfo} (hl : proxies.lookup name = some existing)
    (ha : info.address = existing.address) {response : Bytes} (h : IsProxyList proxies response) :
    IsProxyList (proxies.insert name info) response := by
  refine isProxyList_of_perm ?_ h
  have hp := (AList.entries_perm_cons_erase hl).map fun e => (e.1, e.2.address)
  rw [List.map_cons, ← ha] at hp
  exact hp

theorem fresh_proxyAnnounce {port : Nat} (h : Fresh s) :
    Fresh (proxyAnnounce now s conn name port token).state := by
  rw [proxyAnnounce]
  split
  case h_1 existing hl =>
    split
    case isFalse => exact h
    case isTrue =>
      refine fresh_of_tracks h .refl ⟨rfl, rfl, rfl, rfl⟩ ?_
      by_cases ha : existing.address = composeAddress conn.peerIp port
      · exact .inr ⟨by simp [ha], fun _ => isProxyList_insert hl ha.symm⟩
      · exact .inl (by simp [ha])
  case h_2 =>
    split
    · exact h
    · exact fresh_of_tracks h .refl ⟨rfl, rfl, rfl, rfl⟩ (.inl (Nat.lt_succ_self _))

theorem fresh_handle {command : DiscoveryCommand} (ha : Agrees s.toCore) (h : Fresh s) :
    Fresh (handle config o now s conn id command).state := by
  have ht := tracks_of_moves (@moves_handle s config o now conn id command ha)
  unfold handle at ht ⊢
  split
  case isTrue => exact h
  case isFalse hn =>
    rw [if_neg hn] at ht
    cases command <;> dsimp only at ht ⊢
    case auth =>
      rw [auth]
      split <;> exact h
    case heartbeat       => exact (fresh_heartbeat h).1
    case list            => exact fresh_list h
    case listProxies     => exact fresh_listProxies h
    case proxyDeregister => exact fresh_proxyDeregister h
    case proxyAnnounce   => exact fresh_proxyAnnounce h
    case nodeRoster      => exact fresh_nodeRoster h
    case nodeLeave       => exact fresh_of_within h ht (congrArg Handled.state (leave_within s))
    case join            => exact fresh_of_within h ht (congrArg Handled.state (join_within s))
    case complete        => exact fresh_of_within h ht (congrArg Handled.state (complete_within s))
    case announce        => exact fresh_of_within h ht (congrArg Handled.state (announceNode_within s))

theorem fresh_setConnection {conn' : Option Connection} (h : Fresh s) :
    Fresh (s.setConnection id conn') :=
  ⟨h.heartbeatAck, h.listCache, h.rosterCache, h.proxyListCache⟩

theorem tracksProxies_refreshStalled {stalled : Bool} :
    TracksProxies s (s.refreshStalled now stalled) := by
  rw [refreshStalled]
  split
  case isFalse => exact .of_eq rfl rfl
  case isTrue  => exact .inr ⟨rfl, fun _ => isProxyList_of_perm (by simp [Function.comp_def])⟩

theorem tracksProxies_dropProxies : TracksProxies s (s.dropProxies config now) := by
  rw [dropProxies]
  split
  case isTrue hd =>
    rw [List.isEmpty_iff.mp hd]
    exact .of_eq rfl rfl
  case isFalse => exact .inl (Nat.lt_succ_self _)

theorem Sweeps.fresh (hs : Sweeps s s') (h : Fresh s) : Fresh s' := by
  rw [hs.rest]
  exact ⟨h.heartbeatAck, h.listCache, h.rosterCache, h.proxyListCache⟩

theorem fresh_kickGraceJoins (h : Fresh s) : Fresh (s.kickGraceJoins config now) := by
  rw [kickGraceJoins]
  split
  case isFalse => exact h
  case isTrue =>
    obtain ⟨h₁, h₂, h₃, h₄⟩ := (@sweeps_spawn s .beginNext).fresh h
    exact ⟨h₁, h₂, h₃, h₄⟩

theorem fresh_recordAll {stalled : Bool} {names : List Bytes} (h : Fresh s) :
    Fresh (s.recordAll now stalled names) :=
  ⟨h.heartbeatAck, h.listCache, h.rosterCache, h.proxyListCache⟩

theorem fresh_refreshStalled {stalled : Bool} (h : Fresh s) :
    Fresh (s.refreshStalled now stalled) := by
  refine fresh_of_tracks h (tracks_of_changes changes_refreshStalled) ?_ tracksProxies_refreshStalled
  rw [refreshStalled]
  split <;> exact ⟨rfl, rfl, rfl, rfl⟩

theorem fresh_dropProxies (h : Fresh s) : Fresh (s.dropProxies config now) :=
  fresh_of_tracks h .refl ⟨rfl, rfl, rfl, rfl⟩ tracksProxies_dropProxies

theorem fresh_evict (h : Fresh s) : Fresh (s.evict config o now).2 :=
  fresh_of_tracks h (tracks_of_changes changes_evict) ⟨rfl, rfl, rfl, rfl⟩ (.of_eq rfl rfl)

theorem fresh_sweepTick (h : Fresh s) : Fresh (s.sweepTick config o now) := by
  rw [sweepTick, sweepNodes]
  dsimp only
  refine fresh_kickGraceJoins (sweeps_abandonTimedOut.fresh (fresh_recordAll ?_))
  refine sweeps_abandonEvicted.fresh (fresh_recordAll ?_)
  refine fresh_evict (fresh_dropProxies (fresh_refreshStalled ?_))
  exact ⟨h.heartbeatAck, h.listCache, h.rosterCache, h.proxyListCache⟩

theorem fresh_abandonCurrentJoin {join : JoinIdentity} (ha : Agrees s.toCore) (h : Fresh s) :
    Fresh (s.abandonCurrentJoin now join).1 :=
  fresh_of_within h (tracks_of_changes (changes_abandonCurrentJoin ha)) within_abandonCurrentJoin

theorem fresh_tryBeginNextJoin (h : Fresh s) : Fresh (s.tryBeginNextJoin config o now) :=
  fresh_of_within h (tracks_of_changes changes_tryBeginNextJoin) within_tryBeginNextJoin

theorem fresh_of_work (ha : Agrees s.toCore) (h : Fresh s) (hw : s.work config o now = some s') :
    Fresh s' := by
  rw [work] at hw
  split at hw <;> cases hw
  case h_1 join _ =>
    obtain ⟨h₁, h₂, h₃, h₄⟩ := @fresh_abandonCurrentJoin s now join ha h
    exact ⟨h₁, h₂, h₃, h₄⟩
  case h_2 | h_3 =>
    obtain ⟨h₁, h₂, h₃, h₄⟩ := @fresh_tryBeginNextJoin s config o now h
    exact ⟨h₁, h₂, h₃, h₄⟩
  case h_4 => exact ⟨h.heartbeatAck, h.listCache, h.rosterCache, h.proxyListCache⟩

theorem fresh_of_exec {e : Event} {answer : Option Bytes} (ha : Agrees s.toCore) (h : Fresh s)
    (he : s.exec config o now e = some (s', answer)) : Fresh s' := by
  have ht := tracks_of_moves (moves_of_exec ha he)
  cases step_of_exec he
  case accept     => exact ⟨h.heartbeatAck, h.listCache, h.rosterCache, h.proxyListCache⟩
  case frame      => exact fresh_setConnection (fresh_handle ha h)
  case proceed hg => exact fresh_setConnection (fresh_of_within h ht (within_of_goOn hg))
  case wake       => exact fresh_setConnection h
  case hangup hg  => exact fresh_setConnection (fresh_of_within h ht (within_of_hangUp hg))
  case tick       => exact fresh_sweepTick h
  case work hw    => exact fresh_of_work ha h hw
  case credit     => exact fresh_of_within h ht within_credit

end Exec

theorem Reaches.fresh (h : Reaches config start seed now s) : Fresh s := by
  induction h
  case initial => constructor <;> simp [Discovery.initial, Caches]
  case exec hr _ he hi => exact fresh_of_exec hr.agrees hi he

-- What is served is what a rendering of the registry gives at that moment.
theorem Reaches.served_fresh (h : Reaches config start seed now s) (o : Orders) (replication : Nat) :
    IsRoster 65 [65, 10] s.nodes replication (s.cachedHeartbeatAck replication o).1 ∧
    IsRoster 78 [66, 10] s.nodes replication (s.cachedListResponse replication o).1 ∧
    IsNodeRoster s.nodes replication (s.cachedNodeRoster replication o).1 ∧
    IsProxyList s.proxies (s.cachedProxyList o).1 ∧
    ∀ {now' conn name vote token joiner ack},
      let handled := heartbeat config o now' s conn name vote token joiner
      config.listReadyAt ≤ now' → handled.answer = some ack →
      IsRoster 65 [65, 10] handled.state.nodes config.replication ack := by
  refine ⟨?_, ?_, ?_, ?_, ?_⟩
  · exact (fresh_cachedHeartbeatAck h.fresh).1
  · exact (fresh_cachedListResponse h.fresh).1
  · exact (fresh_cachedNodeRoster h.fresh).1
  · exact (fresh_cachedProxyList h.fresh).1
  · exact (fresh_heartbeat h.fresh).2 _

section Witness

def listing : List (Instant × Event) :=
  joining ++ [(6, .frame 3 .list)]

theorem served_fresh_listing : ∃ s : Discovery, s.listCache.isSome ∧
    IsRoster 78 [66, 10] s.nodes 1 (s.cachedListResponse 1 .asListed).1 ∧
    IsNodeRoster s.nodes 1 (s.cachedNodeRoster 1 .asListed).1 := by
  have hc : ((initial 0 7).run plain .asListed listing).map (·.listCache.isSome) = some true := by
    decide +kernel
  obtain ⟨s, hr, hc⟩ := Option.map_eq_some_iff.mp hc
  obtain ⟨now, h⟩ := Reaches.initial.run (by decide) hr
  exact ⟨s, hc, (h.served_fresh .asListed 1).2.1, (h.served_fresh .asListed 1).2.2.1⟩

end Witness

end Nanocached.Discovery
