import Nanocached.Cache.Theorems.Tombstones

namespace Nanocached.Cache

variable {sha256 : Bytes → Vector UInt8 32} {s s' : Cache} {key : Key} {now : Instant}
variable {order : List (Instant × Key)} {op : Op} {r : Response} {es : List Event}

-- No two deletes are handed off at the same clock reading.
def StrictDeletes (es : List Event) : Prop :=
  es.Pairwise fun e e' => e.op.isHandoffDelete → e'.op.isHandoffDelete → e.now < e'.now

-- The items of the order queue stem from the handed-off deletes, each of them from another one.
structure Queued (es : List Event) (order : List (Instant × Key)) : Prop where
  strict : order.Pairwise fun item item' => item.1 < item'.1
  source : ∀ item ∈ order, ∃ e ∈ es, e.op.isHandoffDelete ∧ e.now = item.1
  short  : order.length ≤ 2 * maxHandoffTombstones

theorem Queued.sublist {order' : List (Instant × Key)} (h : Queued es order)
    (hs : order'.Sublist order) : Queued es order' where
  strict := h.strict.sublist hs
  source := fun item hi => h.source item (hs.subset hi)
  short  := hs.length_le.trans h.short

theorem Queued.mono {es' : List Event} (h : Queued es order) (hs : es ⊆ es') : Queued es' order where
  strict := h.strict
  source := fun item hi =>
    have hsource := h.source item hi
    ⟨hsource.choose, hs hsource.choose_spec.left, hsource.choose_spec.right⟩
  short  := h.short

-- An item of a compacted queue is given by its key, as all others of the key are stale.
theorem length_compact (hs : order.Pairwise fun item item' => item.1 < item'.1) :
    (order.filter fun item => s.handoffTombstones.lookup item.2 = some item.1).length ≤
      s.handoffTombstones.size := by
  generalize hl : (order.filter fun item => s.handoffTombstones.lookup item.2 = some item.1) = live
  have hstamp : ∀ item ∈ live, s.handoffTombstones.lookup item.2 = some item.1 := by
    intro item hi
    rw [← hl] at hi
    exact of_decide_eq_true (List.mem_filter.mp hi).right
  have hnodup : (live.map (·.2)).Nodup := by
    refine List.pairwise_map.mpr ?_
    refine ((hs.sublist (hl ▸ List.filter_sublist)).imp_of_mem ?_)
    intro item item' hi hi' hlt he
    have h := hstamp item hi
    rw [he, hstamp item' hi'] at h
    exact absurd (Option.some.inj h) hlt.ne'
  have hsub : live.map (·.2) ⊆ s.handoffTombstones.keys := by
    intro k hk
    obtain ⟨item, hi, rfl⟩ := List.mem_map.mp hk
    exact AList.mem_of_lookup (hstamp item hi)
  have hle := (hnodup.subperm hsub).length_le
  rw [List.length_map] at hle
  exact hle.trans_eq (List.length_map _)

theorem order_pruneTombstones {last : Instant} (h : Ordered last s) :
    (s.pruneTombstones now).tombstoneOrder <:+ s.tombstoneOrder :=
  (pruneTombstonesGo_spec h.sorted h.listed).1.rest

theorem order_room {last : Instant} (h : Ordered last s) :
    (if s.handoffTombstones.size ≥ maxHandoffTombstones then s.forgetOldestTombstone
      else s).tombstoneOrder <:+ s.tombstoneOrder := by
  split
  case isFalse   => exact List.suffix_rfl
  case isTrue hc =>
    have hp : 0 < s.handoffTombstones.size := lt_of_lt_of_le (by decide) hc
    exact (forgetOldestTombstoneGo_spec h.listed hp).1.rest

theorem Queued.concat (h : Queued es order) (hop : op.isHandoffDelete = true)
    (hn : ∀ e ∈ es, e.op.isHandoffDelete → e.now < now) (key : Key) :
    (order ++ [(now, key)]).Pairwise (fun item item' => item.1 < item'.1) ∧
    ∀ item ∈ order ++ [(now, key)],
      ∃ e ∈ es ++ [⟨now, op, r⟩], e.op.isHandoffDelete ∧ e.now = item.1 := by
  constructor
  · refine List.pairwise_append.mpr ⟨h.strict, List.pairwise_singleton .., fun item hi item' hi' => ?_⟩
    cases List.mem_singleton.mp hi'
    obtain ⟨e, he, hd, hi⟩ := h.source item hi
    exact hi ▸ hn e he hd
  · intro item hi
    obtain hi | hi := List.mem_append.mp hi
    · obtain ⟨e, he, hi⟩ := h.source item hi
      exact ⟨e, List.mem_append_left _ he, hi⟩
    · cases List.mem_singleton.mp hi
      exact ⟨⟨now, op, r⟩, List.mem_append_right _ (List.mem_singleton_self _), hop, rfl⟩

theorem Queued.tombstone {last : Instant} (h : Queued es s.tombstoneOrder) (ho : Ordered last s)
    (hl : last ≤ now) (hop : op.isHandoffDelete = true)
    (hn : ∀ e ∈ es, e.op.isHandoffDelete → e.now < now) (key : Key) :
    Queued (es ++ [⟨now, op, r⟩]) (s.tombstone key now).tombstoneOrder := by
  have ho' := (tombstone_spec ho hl key).1
  rw [Cache.tombstone] at ho' ⊢
  dsimp only at ho' ⊢
  have hr := (order_room (ho.pruneTombstones now)).trans (order_pruneTombstones ho)
  generalize (if (s.pruneTombstones now).handoffTombstones.size ≥ maxHandoffTombstones then
    (s.pruneTombstones now).forgetOldestTombstone else s.pruneTombstones now) = s₁ at hr ho' ⊢
  generalize (if key ∈ s₁.handoffTombstones then s₁.usedBytes
    else s₁.usedBytes + UInt64.ofNat (tombstoneBytes key)) = usedBytes at ho' ⊢
  obtain ⟨hstrict, hsource⟩ := (h.sublist hr.sublist).concat hop hn key
  split
  case isFalse hs => exact ⟨hstrict, hsource, Nat.le_of_not_lt hs⟩
  case isTrue hs  =>
    rw [if_pos hs] at ho'
    refine ⟨hstrict.sublist List.filter_sublist, fun item hi => hsource item ?_, ?_⟩
    · exact (List.mem_filter.mp hi).left
    · have hc := (length_compact hstrict).trans ho'.few
      exact hc.trans (Nat.le_mul_of_pos_left _ (by decide))

theorem Queued.step {last : Instant} (h : Queued es s.tombstoneOrder) (ho : Ordered last s)
    (hl : last ≤ now) (step : TombstoneStep s now op s')
    (hn : op.isHandoffDelete → ∀ e ∈ es, e.op.isHandoffDelete → e.now < now) :
    Queued (es ++ [⟨now, op, r⟩]) s'.tombstoneOrder := by
  have hm : es ⊆ es ++ [⟨now, op, r⟩] := List.subset_append_left _ _
  have hnote : (s.noteHandoff now op.isCounted).tombstoneOrder = s.tombstoneOrder := by
    unfold noteHandoff
    split <;> rfl
  cases step
  case keeps hk    => exact (hk.order.trans hnote) ▸ h.mono hm
  case sweeps _ hk => exact hk.order ▸ (h.sublist (order_pruneTombstones ho).sublist).mono hm
  case buries s₁ key hop hk hs =>
    subst hs
    exact Queued.tombstone ((hk.order.trans hnote) ▸ h) (ho.noteHandoff.keeps hk le_rfl) hl hop
      (hn hop) key
  case clears _ hc _ _ => exact hc ▸ ⟨.nil, by simp, Nat.zero_le _⟩

theorem Run.queued {maxMemoryBytes : UInt64} {budgets : List (Bytes × UInt64)}
    (run : Run sha256 (Cache.withBudgets maxMemoryBytes budgets) es s) (ht : Timely es)
    (hd : StrictDeletes es) : Queued es s.tombstoneOrder := by
  induction run
  case refl => exact ⟨.nil, by simp [Cache.withBudgets], Nat.zero_le _⟩
  case tail es s₂ now op r s₃ run he hi =>
    obtain ⟨ht, -, hn⟩ := List.pairwise_append.mp ht
    obtain ⟨hd, -, hlt⟩ := List.pairwise_append.mp hd
    have hw := run.wf (.withBudgets maxMemoryBytes budgets)
    have ho := run.ordered ht fun e hm => hn e hm _ List.mem_cons_self
    refine (hi ht hd).step ho le_rfl (tombstoneStep_exec hw he) fun hop e hm hdel => ?_
    exact hlt e hm _ List.mem_cons_self hdel hop

-- A prune leaves only what has not expired.
theorem Ordered.unexpired_of_prune {last stamped : Instant} (h : Ordered last s)
    (hl : (s.pruneTombstones now).handoffTombstones.lookup key = some stamped) :
    durationSince now stamped < handoffTombstoneTtl := by
  rw [lookup_pruneTombstones h] at hl
  exact of_decide_eq_true (Option.filter_eq_some_iff.mp hl).right

-- The tombstones and the queue of their order fit together and are bounded, and neither a prune nor
-- a sweep leaves any that has expired.
theorem Run.tombstones_bounded {maxMemoryBytes : UInt64} {budgets : List (Bytes × UInt64)}
    (run : Run sha256 (Cache.withBudgets maxMemoryBytes budgets) es s) (ht : Timely es)
    (hd : StrictDeletes es) :
    (∀ key stamped, s.handoffTombstones.lookup key = some stamped →
      (stamped, key) ∈ s.tombstoneOrder) ∧
    (s.tombstoneOrder.Pairwise fun item item' => item.1 ≤ item'.1) ∧
    s.handoffTombstones.size ≤ maxHandoffTombstones ∧
    s.tombstoneOrder.length ≤ 2 * maxHandoffTombstones ∧
    (∀ now key stamped,
      (s.pruneTombstones now).handoffTombstones.lookup key = some stamped →
        durationSince now stamped < handoffTombstoneTtl) ∧
    ∀ order now includeMarked owned n s',
      s.sweepAt order now includeMarked owned = some (n, s') →
        ∀ key stamped, s'.handoffTombstones.lookup key = some stamped →
          durationSince now stamped < handoffTombstoneTtl := by
  obtain ⟨last, hlast⟩ : ∃ last : Instant, ∀ e ∈ es, e.now ≤ last :=
    ⟨(es.map (·.now)).sum, fun e he => List.single_le_sum (fun _ _ => Nat.zero_le _) _
      (List.mem_map_of_mem he)⟩
  have ho := run.ordered ht hlast
  refine ⟨fun key stamped hl => ho.listed hl, ho.sorted, ho.few, (run.queued ht hd).short,
    fun now key stamped hl => ho.unexpired_of_prune hl, ?_⟩
  intro order now includeMarked owned n s' he key stamped hl
  have hw := run.wf (.withBudgets maxMemoryBytes budgets)
  obtain ⟨_, _, _, _, he', _, hc, _, hk⟩ := s.sweepAt_steps hw order now includeMarked owned
  cases he.symm.trans he'
  exact ho.unexpired_of_prune ((keeps_of_sweeps hw hk hc).buried hl)

theorem tombstones_bounded_of_redelete : ∃ es s,
    Run (fun _ => Vector.replicate 32 0) (Cache.withBudgets 0 []) es s ∧ es.length = 2 ∧
      s.tombstoneOrder = [(1, ⟨[], [107]⟩), (2, ⟨[], [107]⟩)] ∧
      s.tombstoneOrder.length ≤ 2 * maxHandoffTombstones := by
  have first : Run (fun _ => Vector.replicate 32 0) (Cache.withBudgets 0 [])
      ([] ++ [⟨1, .handoffDelete ⟨[], [107]⟩, .flag false⟩]) _ := .tail .refl rfl
  have run : Run (fun _ => Vector.replicate 32 0) (Cache.withBudgets 0 [])
      ([⟨1, .handoffDelete ⟨[], [107]⟩, .flag false⟩] ++
        [⟨2, .handoffDelete ⟨[], [107]⟩, .flag false⟩]) _ := first.tail rfl
  refine ⟨_, _, run, rfl, rfl, ?_⟩
  exact (run.tombstones_bounded (by simp [Timely]) (by simp [StrictDeletes])).right.right.right.left

end Nanocached.Cache
