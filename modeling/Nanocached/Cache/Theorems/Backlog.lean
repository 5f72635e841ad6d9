import Nanocached.Cache.Theorems.FreshMarks
import Nanocached.Cache.Theorems.Tombstones

namespace Nanocached

variable {sha256 : Bytes → Vector UInt8 32} {key key' : Key} {now : Instant} {includeMarked : Bool}
variable {owned : Option (Key → Bool)}

namespace Store

-- A sweep that comes to the key removes it.
def removable (s : Store) (now : Instant) (includeMarked : Bool) (owned : Option (Key → Bool))
    (key : Key) : Bool :=
  (s.peek key).any (·.isExpiredAt now) ||
    includeMarked && s.isMarked key && !owned.any (· key)

variable {s t : Store}

theorem removable_congr (he : t.contents.entry key = s.contents.entry key)
    (hm : t.isMarked key = s.isMarked key) :
    t.removable now includeMarked owned key = s.removable now includeMarked owned key := by
  rw [removable, removable, any_isExpiredAt, any_isExpiredAt, he, hm]

theorem isMarked_eq_of_iff (h : key ∈ t.contents.marked ↔ key ∈ s.contents.marked) :
    t.isMarked key = s.isMarked key :=
  Bool.eq_iff_iff.mpr h

-- The key itself is none to remove any more, whether it is gone or its mark is.
theorem removable_of_remove {c : Contents} (hc : t.contents = c)
    (he : c.entry = Function.update s.contents.entry key none)
    (hm : c.marked = s.contents.marked \ {key}) :
    t.removable now includeMarked owned key' =
      (s.removable now includeMarked owned key' && key' ≠ key) := by
  subst hc
  by_cases hk : key' = key
  case pos =>
    subst hk
    have hn : t.isMarked key' = false := Bool.eq_false_iff.mpr fun h => by
      have h : key' ∈ t.contents.marked := h
      simp [hm] at h
    simp [removable, any_isExpiredAt, he, hn]
  case neg =>
    have he' : t.contents.entry key' = s.contents.entry key' := by
      rw [he, Function.update_of_ne hk]
    have hm' : key' ∈ t.contents.marked ↔ key' ∈ s.contents.marked := by simp [hm, hk]
    simp [removable_congr he' (isMarked_eq_of_iff hm'), hk]

theorem removable_of_unmark (h : s.WF sha256) :
    (s.clearMigratedMark key).removable now includeMarked owned key' =
      if key' = key then (s.peek key).any (·.isExpiredAt now)
      else s.removable now includeMarked owned key' := by
  obtain ⟨cs, hcs, hs⟩ := clearMigratedMark_steps h key
  obtain ⟨ha, hc⟩ := hs.contents h
  have hk : (s.clearMigratedMark key).contents.entry = s.contents.entry ∧
      ∀ key' ≠ key, key' ∈ (s.clearMigratedMark key).contents.marked ↔ key' ∈ s.contents.marked := by
    rw [hc]
    refine Contents.applyAll_induction
      (P := fun c => c.entry = s.contents.entry ∧
        ∀ key' ≠ key, key' ∈ c.marked ↔ key' ∈ s.contents.marked)
      ha ⟨rfl, fun _ _ => Iff.rfl⟩ fun hm _ hi => ?_
    cases List.mem_singleton.mp (hcs hm)
    refine ⟨hi.left, fun key' hn => ?_⟩
    simp [Contents.apply, hn, hi.right key' hn]
  split
  case isFalse hn => exact removable_congr (congrFun hk.left _) (isMarked_eq_of_iff (hk.right _ hn))
  case isTrue he =>
    subst he
    have hn : (s.clearMigratedMark key').isMarked key' = false :=
      Bool.eq_false_iff.mpr (not_mem_marked_of_clearMigratedMark h key')
    simp [removable, any_isExpiredAt, hk.left, hn]

end Store

-- How many of the elements satisfy `p`, the first one being left out of the others.
theorem card_filter_toFinset_cons {α : Type} [DecidableEq α] (p : α → Bool) (a : α) (l : List α) :
    ((a :: l).toFinset.filter (p ·)).card =
      (if p a then 1 else 0) + (l.toFinset.filter fun b => p b && b ≠ a).card := by
  have he : l.toFinset.filter (fun b => p b && b ≠ a) = (l.toFinset.filter (p ·)).erase a := by
    ext b
    simp only [Finset.mem_filter, Finset.mem_erase, Bool.and_eq_true, decide_eq_true_eq]
    tauto
  rw [he, List.toFinset_cons, Finset.filter_insert]
  split
  case isTrue ha  =>
    rw [← Finset.card_erase_add_one (Finset.mem_insert_self a _), Finset.erase_insert_eq_erase,
      Nat.add_comm]
  case isFalse ha => rw [Finset.erase_eq_of_notMem (by simp [ha]), Nat.zero_add]

namespace Cache

variable {s s' : Cache} {n budget removed : Nat} {order : IterOrder Key}

theorem pendingRemoval_forgetTombstone : (s.forgetTombstone key).pendingRemoval = s.pendingRemoval := by
  rw [forgetTombstone]
  split
  case isTrue  => rfl
  case isFalse => split <;> rfl

theorem sweepKey_spec (h : s.WF sha256) (key : Key) (now : Instant) (includeMarked : Bool)
    (owned : Option (Key → Bool)) : ∃ s',
      s.sweepKey key now includeMarked owned =
        some (if s.removable now includeMarked owned key then 1 else 0, s') ∧
      s'.WF sha256 ∧ s'.pendingRemoval = s.pendingRemoval ∧
      ∀ key', s'.removable now includeMarked owned key' =
        (s.removable now includeMarked owned key' && key' ≠ key) := by
  have hm : s.isMarked key ↔ key ∈ s.contents.marked := Iff.rfl
  rw [sweepKey, Store.removable]
  generalize hx : (s.peek key).any (·.isExpiredAt now) = expired
  generalize hi : (includeMarked && s.isMarked key) = marked
  dsimp only
  split
  case isTrue hc =>
    -- The key is kept, and its mark is taken back.
    simp only [Bool.and_eq_true, Bool.not_eq_true'] at hc
    obtain ⟨⟨rfl, rfl⟩, ho⟩ := hc
    obtain ⟨cs, hcs, hs⟩ := Store.clearMigratedMark_steps h key
    refine ⟨_, congrArg some (Prod.ext (by simp [ho]) rfl), hs.wf h, rfl, fun key' => ?_⟩
    rw [Store.removable_of_unmark h, hx]
    split
    case isTrue he  => simp [he]
    case isFalse he => simp [he]
  case isFalse hk =>
    split
    case isFalse hc =>
      simp only [Bool.or_eq_true, not_or, Bool.not_eq_true] at hc
      obtain ⟨rfl, rfl⟩ := hc
      refine ⟨s, by simp, h, rfl, fun key' => ?_⟩
      by_cases hk : key' = key
      case neg => simp [hk]
      case pos =>
        subst hk
        simp [Store.removable, hx, hi]
    case isTrue hc =>
      have he : (s.contents.entry key).isSome := by
        rcases Bool.or_eq_true _ _ |>.mp hc with rfl | rfl
        · exact Store.isSome_of_marked h (hm.mp (Bool.and_eq_true _ _ ▸ hi).right)
        · obtain ⟨e, he, _⟩ := (Option.any_eq_true _ _).mp hx
          simp [Store.contents, he]
      obtain ⟨entry, hp⟩ : ∃ entry, s.peek key = some entry := by
        simpa [Store.contents, Option.isSome_iff_exists] using he
      obtain ⟨i, ns, hl, hn, hm, hr⟩ := Store.removeEntry_of_some h hp
      simp only [hr, Option.bind_eq_bind, Option.bind_some, Option.pure_def]
      have hone : (expired || marked && !owned.any (· key)) = true := by
        cases expired <;> cases marked <;> simp_all
      obtain ⟨_, name⟩ := key
      cases hn
      cases marked
      case true =>
        have hs : Steps sha256 [.discard ⟨ns.name, name⟩] s _ := discard_steps hl rfl hm
        refine ⟨_, congrArg some (Prod.ext (by rw [hone]; rfl) rfl), hs.wf h, ?_, fun key' => ?_⟩
        · simp only [if_true, pendingRemoval_forgetTombstone]
        · exact Store.removable_of_remove (hs.contents h).right rfl rfl
      case false =>
        have hs : Store.Steps sha256 [.remove ⟨ns.name, name⟩] s.toStore (s.removed i ns name) :=
          .single (.remove hl (AList.mem_of_lookup hm))
        refine ⟨_, congrArg some (Prod.ext (by rw [hone]; rfl) rfl), hs.wf h, rfl, fun key' => ?_⟩
        exact Store.removable_of_remove (hs.contents h).right rfl rfl

theorem sweepGo_spec (h : s.WF sha256) :
    ∃ s', sweepGo now includeMarked owned budget removed s =
        some (removed + ((s.pendingRemoval.take budget).toFinset.filter
          fun key => s.removable now includeMarked owned key).card, s') ∧
      s'.pendingRemoval = s.pendingRemoval.drop budget := by
  induction budget generalizing s removed
  case zero => exact ⟨s, by simp [sweepGo], by simp⟩
  case succ budget hi =>
    rw [sweepGo]
    cases hp : s.pendingRemoval
    case nil => exact ⟨s, by simp, by simp [hp]⟩
    case cons key rest =>
      obtain ⟨s₁, he, hw, hr, hd⟩ :=
        sweepKey_spec (s := { s with pendingRemoval := rest }) h key now includeMarked owned
      obtain ⟨s₂, he', hp'⟩ := @hi s₁ (removed + if s.removable now includeMarked owned key then 1 else 0) hw
      refine ⟨s₂, ?_, by rw [hp', hr, List.drop_succ_cons]⟩
      simp only [he, Option.bind_eq_bind, Option.bind_some, he', hr, hd]
      rw [List.take_succ_cons, card_filter_toFinset_cons, Nat.add_assoc]

-- The queue a sweep starts with.
def candidates (s : Cache) (order : IterOrder Key) (now : Instant) (includeMarked : Bool) :
    List Key :=
  (s.refill order now includeMarked).pendingRemoval

theorem pruneTombstonesGo_queue (now : Instant) (queue : List (Instant × Key)) (s : Cache) :
    (pruneTombstonesGo now queue s).slots = s.slots ∧
      (pruneTombstonesGo now queue s).pendingRemoval = s.pendingRemoval := by
  induction queue generalizing s
  case nil => exact ⟨rfl, rfl⟩
  case cons item queue hi =>
    obtain ⟨stamped, key⟩ := item
    rw [pruneTombstonesGo]
    split
    case isTrue  => exact ⟨rfl, rfl⟩
    case isFalse =>
      have hf : (s.forgetTombstoneIfStamped key stamped).2.slots = s.slots ∧
          (s.forgetTombstoneIfStamped key stamped).2.pendingRemoval = s.pendingRemoval := by
        rw [forgetTombstoneIfStamped]
        split <;> exact ⟨rfl, rfl⟩
      exact ⟨(hi _).left.trans hf.left, (hi _).right.trans hf.right⟩

theorem candidates_pruneTombstones (s : Cache) (order : IterOrder Key) (now : Instant)
    (includeMarked : Bool) :
    (s.pruneTombstones now).candidates order now includeMarked =
      s.candidates order now includeMarked := by
  obtain ⟨hs, hp⟩ := pruneTombstonesGo_queue now s.tombstoneOrder s
  rw [← pruneTombstones] at hs hp
  simp only [candidates, refill, Store.keysWhere, Store.markedKeys, hs, hp]
  split
  case isTrue  => rfl
  case isFalse => exact hp

-- A sweep takes its budget off the queue, and removes what is to be removed among it.
theorem sweepAt_spec (h : s.WF sha256) : ∃ s',
    s.sweepAt order now includeMarked owned =
      some ((((s.candidates order now includeMarked).take sweepBudget).toFinset.filter
        fun key => s.removable now includeMarked owned key).card, s') ∧
    s'.pendingRemoval = (s.candidates order now includeMarked).drop sweepBudget := by
  obtain ⟨hw, -, -⟩ := refill_spec h order now includeMarked
  obtain ⟨he, hm⟩ := s.contents_pruneTombstones h now
  obtain ⟨s', hs, hp⟩ := @sweepGo_spec _ now includeMarked owned _ sweepBudget 0 hw
  have hr (key) : ((s.pruneTombstones now).refill order now includeMarked).removable
      now includeMarked owned key = s.removable now includeMarked owned key := by
    rw [toStore_refill]
    exact Store.removable_congr (congrFun he key) (Store.isMarked_eq_of_iff (by rw [hm]))
  have hc := s.candidates_pruneTombstones order now includeMarked
  rw [candidates] at hc
  refine ⟨s', ?_, by rw [hp, hc]⟩
  simp only [sweepAt, hs, hc, hr, Nat.zero_add]

theorem sweepAt_le_length (h : s.WF sha256)
    (he : s.sweepAt order now includeMarked owned = some (n, s')) :
    n ≤ (s.candidates order now includeMarked).length := by
  obtain ⟨_, he', -⟩ := @sweepAt_spec _ now includeMarked owned s order h
  cases he.symm.trans he'
  calc _ ≤ _ := Finset.card_filter_le _ _
       _ ≤ _ := List.toFinset_card_le _
       _ ≤ _ := List.length_take_le' ..

-- The queue fits into the budget, or the sweep removes an entry for every candidate it takes.
def Drains (s : Cache) (order : IterOrder Key) (now : Instant) (includeMarked : Bool)
    (owned : Option (Key → Bool)) : Prop :=
  (s.candidates order now includeMarked).length ≤ sweepBudget ∨
    ((s.candidates order now includeMarked).take sweepBudget).Nodup ∧
      ∀ key ∈ (s.candidates order now includeMarked).take sweepBudget,
        s.removable now includeMarked owned key

theorem drains_iff (h : s.WF sha256)
    (he : s.sweepAt order now includeMarked owned = some (n, s')) :
    s.Drains order now includeMarked owned ↔ (n < sweepBudget → s'.pendingRemoval = []) := by
  obtain ⟨_, he', hp⟩ := @sweepAt_spec _ now includeMarked owned s order h
  cases he.symm.trans he'
  rw [Drains, hp, List.drop_eq_nil_iff]
  generalize s.candidates order now includeMarked = queue
  by_cases hl : queue.length ≤ sweepBudget
  case pos => simp [hl]
  case neg =>
    have ht : (queue.take sweepBudget).length = sweepBudget :=
      List.length_take_of_le (Nat.le_of_not_le hl)
    simp only [hl, false_or, imp_false, Nat.not_lt]
    constructor
    case mp =>
      rintro ⟨hn, hr⟩
      rw [Finset.filter_true_of_mem fun key hm => hr key (List.mem_toFinset.mp hm),
        List.toFinset_card_of_nodup hn, ht]
    case mpr =>
      intro hc
      -- Both the distinct candidates and the removable ones among them use up the budget.
      have hd : (queue.take sweepBudget).toFinset.card = (queue.take sweepBudget).length :=
        (List.toFinset_card_le _).antisymm (ht.le.trans (hc.trans (Finset.card_filter_le _ _)))
      have hf := (Finset.card_filter_le _ _).antisymm ((hd.trans ht).le.trans hc)
      refine ⟨Multiset.toFinset_card_eq_card_iff_nodup.mp hd, fun key hm => ?_⟩
      exact Finset.card_filter_eq_iff.mp hf key (List.mem_toFinset.mpr hm)

theorem Reachable.sweep_drained {maxMemoryBytes : UInt64} {budgets : List (Bytes × UInt64)}
    (h : Reachable sha256 maxMemoryBytes budgets s)
    (hd : s.Drains order now includeMarked owned)
    (he : s.sweepAt order now includeMarked owned = some (n, s')) (hn : n < sweepBudget) :
    s'.pendingRemoval = [] :=
  (drains_iff h.wf he).mp hd hn

theorem sweep_drained_of_expired : ∃ es s n s',
    Run (fun _ => Vector.replicate 32 0) (withBudgets 0 []) es s ∧
      s.candidates .asListed 1 true = [⟨[], [107]⟩] ∧
      s.sweepAt .asListed 1 true none = some (n, s') ∧ n < sweepBudget ∧
      s'.pendingRemoval = [] := by
  obtain ⟨es, s, run, ht, hc⟩ : ∃ es s,
      Run (fun _ => Vector.replicate 32 0) (withBudgets 0 []) es s ∧ Timely es ∧
        s.candidates .asListed 1 true = [⟨[], [107]⟩] :=
    ⟨[] ++ [⟨0, .setWithTtl ⟨[], [107]⟩ [] 1, .done⟩], _, .tail .refl rfl, by simp [Timely], rfl⟩
  have h : Reachable (fun _ => Vector.replicate 32 0) 0 [] s := .intro ht run
  obtain ⟨s', he, -⟩ := @sweepAt_spec _ 1 true none s .asListed h.wf
  have hl : (s.candidates .asListed 1 true).length < sweepBudget := by
    rw [hc]
    decide
  have hn := (sweepAt_le_length h.wf he).trans_lt hl
  exact ⟨es, s, _, s', run, hc, he, hn, h.sweep_drained (.inl hl.le) he hn⟩

section Counterexample

theorem insert_of_unlimited {value : Bytes} {expiresAt : Option Instant} (h : s.WF sha256)
    (hu : s.Unlimited) : ∃ t, s.insert key value expiresAt = some { s with toStore := t } := by
  obtain ⟨id, t, s₁, he, hp, hw⟩ := h.put_ensureNamespace key value expiresAt
  have hu := hw.frame.unlimited hu
  have hb : { s with toStore := s₁ }.enforceNamespaceBudget id =
      some { s with toStore := s₁ } := by
    rw [enforceNamespaceBudget]
    generalize (s₁.slots.lookup id).elim 0 (·.entries.size) = fuel
    cases fuel
    case zero => rfl
    case succ fuel =>
      rw [enforceNamespaceBudgetGo]
      cases hl : s₁.slots.lookup id
      case none    => rfl
      case some ns =>
        have hn : ns.budget = none := by
          rw [hw.wf.budget hl, hu.right]
          rfl
        simp only [hn]
  have ho (fuel : Nat) : evictWhileOver fuel { s with toStore := s₁ } =
      some { s with toStore := s₁ } := by
    cases fuel
    case zero => rfl
    case succ fuel =>
      rw [evictWhileOver, if_neg]
      exact fun hc => UInt64.not_lt.mpr (hu.le _) hc.left
  exact ⟨s₁, by simp [insert, he, insertInto, hp, hb, ho]⟩

-- As many keys are written, and all of them expire at once.
def crowd (n : Nat) : List (Instant × Op) :=
  (List.range n).map fun i => (0, .setWithTtl (numbered i) [] 1)

structure Crowded (n : Nat) (s : Cache) : Prop where
  unlimited : s.Unlimited
  idle      : s.pendingRemoval = []
  entry     : ∀ {key c}, s.contents.entry key = some c ↔
                c = ([], some 1) ∧ ∃ i < n, key = numbered i

theorem exists_crowded (sha256 : Bytes → Vector UInt8 32) (n : Nat) : ∃ es s,
    execAll sha256 (withBudgets (.ofNat usizeMax) []) (crowd n) = some (es, s) ∧ Crowded n s := by
  induction n
  case zero =>
    refine ⟨[], withBudgets (.ofNat usizeMax) [], rfl, ⟨rfl, rfl⟩, rfl, fun {key c} => ?_⟩
    have hn : (withBudgets (.ofNat usizeMax) []).contents.entry key = none := rfl
    simp [hn]
  case succ n hi =>
    obtain ⟨es, s, ha, hc⟩ := hi
    have hw : s.WF sha256 := (Run.of_execAll ha).wf (.withBudgets _ [])
    obtain ⟨keys, s', he, hs, hk⟩ := setWithTtl_steps hw (numbered n) [] 1 0
    have hp : s'.pendingRemoval = s.pendingRemoval := by
      obtain ⟨t, hi⟩ := @insert_of_unlimited sha256 (numbered n) { s with sets := s.sets + 1 } []
        (checkedAdd 0 1) hw hc.unlimited
      cases hi.symm.trans he
      rfl
    refine ⟨es ++ [⟨0, .setWithTtl (numbered n) [] 1, .done⟩], s', ?_, ?_⟩
    · rw [crowd, List.range_succ, List.map_append]
      exact execAll_snoc ha (by simp [exec, he])
    · refine ⟨(hs.frame hw).unlimited hc.unlimited, hp.trans hc.idle, fun {key c} => ?_⟩
      rw [hk hc.unlimited] at hs
      rw [(hs.contents hw).right]
      have hx : checkedAdd 0 1 = some 1 := by decide
      simp only [List.map_nil, Contents.applyAll_cons, Contents.applyAll_nil, Contents.apply, hx,
        Function.update_apply, Nat.lt_succ_iff_lt_or_eq]
      split
      case isTrue hn =>
        exact ⟨fun h => ⟨(Option.some.inj h).symm, n, .inr rfl, hn⟩, fun h => h.left ▸ rfl⟩
      case isFalse hn =>
        rw [hc.entry]
        refine and_congr_right fun _ => exists_congr fun i => and_congr_left fun hi => ?_
        exact ⟨.inl, fun h => h.resolve_right fun he => hn (he ▸ hi)⟩

theorem Crowded.length_candidates (hc : Crowded n s) (h : s.WF sha256) (order : IterOrder Key) :
    (s.candidates order 1 false).length = n := by
  have hk : (s.keysWhere fun e => e.isExpiredAt 1).toFinset = (Finset.range n).image numbered := by
    ext key
    rw [List.mem_toFinset, h.mem_keysWhere, Finset.mem_image]
    constructor
    case mp =>
      rintro ⟨entry, hp, -⟩
      obtain ⟨-, i, hi, rfl⟩ := hc.entry.mp (congrArg (Option.map _) hp)
      exact ⟨i, Finset.mem_range.mpr hi, rfl⟩
    case mpr =>
      rintro ⟨i, hi, rfl⟩
      have he := hc.entry.mpr ⟨rfl, i, Finset.mem_range.mp hi, rfl⟩
      obtain ⟨entry, hp, he⟩ := Option.map_eq_some_iff.mp he
      refine ⟨entry, hp, ?_⟩
      simp [Entry.isExpiredAt, (Prod.mk.inj he).right]
  have hn := congrArg Finset.card hk
  rw [List.toFinset_card_of_nodup (h.nodup_keysWhere _),
    Finset.card_image_of_injective _ numbered_injective, Finset.card_range] at hn
  simp [candidates, refill, hc.idle, (order.perm _).length_eq, hn]

theorem timely_of_crowd {es : List Event} (ha : execAll sha256 s (crowd n) = some (es, s')) :
    ∀ e ∈ es, e.now = 0 := by
  intro e he
  have hm : e.now ∈ es.map (·.now) := List.mem_map_of_mem he
  rw [now_of_execAll ha, crowd, List.map_map, List.mem_map] at hm
  obtain ⟨_, -, hm⟩ := hm
  exact hm.symm

-- All candidates that are left of the last sweep are gone by the time of the next one. It removes
-- nothing, and does not get to the end of the queue either.
theorem sweep_stops_early : ∃ es s,
    Run (fun _ => .replicate 32 0) (withBudgets (.ofNat usizeMax) []) es s ∧ Timely es ∧
      ∀ order includeMarked owned, ∃ s',
        s.sweepAt order 1 includeMarked owned = some (0, s') ∧ s'.pendingRemoval ≠ [] := by
  obtain ⟨es, s, ha, hc⟩ := exists_crowded (fun _ => .replicate 32 0) (2 * sweepBudget + 1)
  have run := Run.of_execAll ha
  have hw : s.WF _ := run.wf (.withBudgets _ [])
  obtain ⟨s₁, he, hp⟩ := @sweepAt_spec _ 1 false none s .asListed hw
  have hl : s₁.pendingRemoval.length = sweepBudget + 1 := by
    rw [hp, List.length_drop, hc.length_candidates hw]
    decide
  have run₁ : Run _ _ (es ++ [⟨1, .sweepExpired .asListed, .count _⟩]) s₁ :=
    run.tail (by simp only [exec, he, Option.bind_eq_bind, Option.bind_some]; rfl)
  have run₂ : Run _ _ (_ ++ [⟨1, .clearAll, .count _⟩]) s₁.clearAll.2 := run₁.tail rfl
  refine ⟨_, _, run₂, ?_, fun order includeMarked owned => ?_⟩
  case refine_1 =>
    have hz := timely_of_crowd ha
    rw [Timely, List.append_assoc, List.pairwise_append]
    refine ⟨?_, by simp, fun e he e' _ => (hz e he).le.trans (Nat.zero_le _)⟩
    exact List.pairwise_of_forall_mem_list fun e he e' _ => (hz e he).le.trans (Nat.zero_le _)
  case refine_2 =>
    have hw₂ := run₂.wf (.withBudgets _ [])
    obtain ⟨s', he, hp⟩ := @sweepAt_spec _ 1 includeMarked owned s₁.clearAll.2 order hw₂
    have hq : s₁.clearAll.2.candidates order 1 includeMarked = s₁.pendingRemoval := by
      have hn : s₁.pendingRemoval ≠ [] := List.ne_nil_of_length_eq_add_one hl
      simp [candidates, refill, clearAll, hn]
    have hr (key) : s₁.clearAll.2.removable 1 includeMarked owned key = false := by
      have hp : s₁.clearAll.2.peek key = none := rfl
      have hm : s₁.clearAll.2.isMarked key = false := rfl
      simp [Store.removable, hp, hm]
    refine ⟨s', by simp [he, hr], fun hn => ?_⟩
    have := congrArg List.length hn
    simp [hp, hq, hl] at this

end Counterexample
end Cache
end Nanocached
