import Nanocached.Cache.Theorems.Run

namespace Nanocached.Cache

variable {sha256 : Bytes → Vector UInt8 32} {s s' : Cache} {key : Key} {last last' now : Instant}
variable {order : List (Instant × Key)} {op : Op} {r : Response}

-- The keys of the tombstones that have not expired.
def unexpired (s : Cache) (now : Instant) : Finset Key :=
  (s.handoffTombstones.keys.filter (s.tombstonedAt · now)).toFinset

theorem mem_unexpired : key ∈ s.unexpired now ↔ ∃ stamped,
    s.handoffTombstones.lookup key = some stamped ∧
      durationSince now stamped < handoffTombstoneTtl := by
  have hb : s.tombstonedAt key now = true ↔ ∃ stamped,
      s.handoffTombstones.lookup key = some stamped ∧
        durationSince now stamped < handoffTombstoneTtl := by
    rw [tombstonedAt_eq, Contents.buriedAt, Option.any_eq_true]
    simp only [decide_eq_true_eq]
    rfl
  rw [unexpired, List.mem_toFinset, List.mem_filter, hb, and_iff_right_iff_imp]
  rintro ⟨stamped, hl, -⟩
  exact AList.mem_of_lookup hl

-- The order queue lists every tombstone, the oldest one first.
structure Ordered (last : Instant) (s : Cache) : Prop where
  sorted : s.tombstoneOrder.Pairwise fun item item' => item.1 ≤ item'.1
  past   : ∀ item ∈ s.tombstoneOrder, item.1 ≤ last
  listed : ∀ {key stamped}, s.handoffTombstones.lookup key = some stamped →
             (stamped, key) ∈ s.tombstoneOrder
  few    : s.handoffTombstones.size ≤ maxHandoffTombstones

theorem Ordered.keeps (h : Ordered last s) (hk : Keeps s s') (hl : last ≤ last') :
    Ordered last' s' where
  sorted := hk.order ▸ h.sorted
  past   := fun item hi => (h.past item (hk.order ▸ hi)).trans hl
  listed := fun hs => hk.order ▸ h.listed (hk.buried hs)
  few    := (AList.size_le_of_lookup hk.buried).trans h.few

theorem Ordered.noteHandoff {aheadOfRing : Bool} (h : Ordered last s) :
    Ordered last (s.noteHandoff now aheadOfRing) := by
  unfold Cache.noteHandoff
  split
  · exact h
  · exact ⟨h.sorted, h.past, h.listed, h.few⟩

section Prune

-- Whatever is behind an item in the queue is no older.
theorem durationSince_anti {stamped stamped' : Instant} (h : stamped ≤ stamped') :
    durationSince now stamped' ≤ durationSince now stamped :=
  Nat.sub_le_sub_left h now

-- What is left of the tombstones and of their queue once the front of it has been taken off.
structure Trimmed (order : List (Instant × Key)) (s : Cache) : Prop where
  rest   : s.tombstoneOrder <:+ order
  listed : ∀ {key stamped}, s.handoffTombstones.lookup key = some stamped →
             (stamped, key) ∈ s.tombstoneOrder

theorem Trimmed.cons {item : Instant × Key} (h : Trimmed order s) : Trimmed (item :: order) s :=
  ⟨h.rest.trans (List.suffix_cons _ _), h.listed⟩

theorem listed_of_stale {stamped : Instant} (hk : s.handoffTombstones.lookup key ≠ some stamped)
    (hl : ∀ {k t}, s.handoffTombstones.lookup k = some t → (t, k) ∈ (stamped, key) :: order)
    {k : Key} {t : Instant} (h : s.handoffTombstones.lookup k = some t) : (t, k) ∈ order :=
  (List.mem_cons.mp (hl h)).resolve_left fun he => by cases he; exact hk h

theorem listed_of_erase {stamped : Instant}
    (hl : ∀ {k t}, s.handoffTombstones.lookup k = some t → (t, k) ∈ (stamped, key) :: order)
    {k : Key} {t : Instant} (h : (s.handoffTombstones.erase key).lookup k = some t) :
    (t, k) ∈ order := by
  obtain ⟨hn, h⟩ := AList.lookup_erase_eq_some.mp h
  exact (List.mem_cons.mp (hl h)).resolve_left fun he => hn (congrArg Prod.snd he)

theorem pruneTombstonesGo_spec (hs : order.Pairwise fun item item' => item.1 ≤ item'.1)
    (hl : ∀ {key stamped}, s.handoffTombstones.lookup key = some stamped → (stamped, key) ∈ order) :
    Trimmed order (pruneTombstonesGo now order s) ∧
    ∀ key, (pruneTombstonesGo now order s).handoffTombstones.lookup key =
      (s.handoffTombstones.lookup key).filter
        fun stamped => durationSince now stamped < handoffTombstoneTtl := by
  induction order generalizing s
  case nil =>
    have hn key : s.handoffTombstones.lookup key = none :=
      Option.eq_none_iff_forall_ne_some.mpr fun _ h => List.not_mem_nil (hl h)
    exact ⟨⟨List.suffix_rfl, fun h => hl h⟩, fun key => by simp [pruneTombstonesGo, hn]⟩
  case cons item order hi =>
    obtain ⟨stamped, key⟩ := item
    obtain ⟨hle, hs⟩ := List.pairwise_cons.mp hs
    rw [pruneTombstonesGo]
    split
    case isTrue hu =>
      -- Nothing behind the front has expired either.
      refine ⟨⟨List.suffix_rfl, hl⟩, fun k => ?_⟩
      cases hk : s.handoffTombstones.lookup k
      case none   => rfl
      case some t =>
        have ht : stamped ≤ t := by
          obtain he | hm := List.mem_cons.mp (hl hk)
          · exact (Prod.mk.inj he).1.ge
          · exact hle _ hm
        have := (durationSince_anti ht).trans_lt hu
        simp [Option.filter, this]
    case isFalse ho =>
      by_cases hk : s.handoffTombstones.lookup key = some stamped
      case neg =>
        rw [forgetTombstoneIfStamped_of_ne hk]
        obtain ⟨ht, hp⟩ := hi hs (listed_of_stale hk hl)
        exact ⟨ht.cons, hp⟩
      case pos =>
        rw [forgetTombstoneIfStamped, if_neg (not_not.mpr hk)]
        generalize hf : { s with
          handoffTombstones := s.handoffTombstones.erase key
          usedBytes         := s.usedBytes - UInt64.ofNat (tombstoneBytes key) } = s₁
        have hf : s₁.handoffTombstones = s.handoffTombstones.erase key := hf ▸ rfl
        obtain ⟨ht, hp⟩ := hi hs fun h => listed_of_erase hl (hf ▸ h)
        refine ⟨ht.cons, fun k => (hp k).trans ?_⟩
        rw [hf, AList.lookup_erase_eq_ite]
        split
        case isFalse => rfl
        case isTrue he =>
          subst he
          simp [hk, Option.filter, ho]

end Prune

section Oldest

-- The first item of the queue that is not stale goes with its tombstone.
theorem forgetOldestTombstoneGo_spec
    (hl : ∀ {key stamped}, s.handoffTombstones.lookup key = some stamped → (stamped, key) ∈ order)
    (hn : 0 < s.handoffTombstones.size) :
    Trimmed order (forgetOldestTombstoneGo order s) ∧
    ∃ key stamped,
      order.find? (fun item => s.handoffTombstones.lookup item.2 = some item.1) =
        some (stamped, key) ∧
      (forgetOldestTombstoneGo order s).handoffTombstones = s.handoffTombstones.erase key := by
  induction order
  case nil =>
    obtain ⟨k, t, h⟩ := AList.exists_lookup_of_size_pos hn
    exact absurd (hl h) List.not_mem_nil
  case cons item order hi =>
    obtain ⟨stamped, key⟩ := item
    rw [forgetOldestTombstoneGo]
    by_cases hk : s.handoffTombstones.lookup key = some stamped
    case neg =>
      rw [forgetTombstoneIfStamped_of_ne hk, List.find?_cons_of_neg (by simpa using hk)]
      obtain ⟨ht, hp⟩ := hi (listed_of_stale hk hl)
      exact ⟨ht.cons, hp⟩
    case pos =>
      rw [forgetTombstoneIfStamped, if_neg (not_not.mpr hk),
        List.find?_cons_of_pos (by simpa using hk)]
      exact ⟨⟨List.suffix_cons _ _, listed_of_erase hl⟩, key, stamped, rfl, rfl⟩

-- The first item of the queue that is neither stale nor expired.
def oldestTombstone (s : Cache) (now : Instant) : Option (Instant × Key) :=
  s.tombstoneOrder.find? fun item => s.handoffTombstones.lookup item.2 = some item.1 ∧
    durationSince now item.1 < handoffTombstoneTtl

theorem Ordered.oldest {stamped : Instant} (h : Ordered last s)
    (hf : s.oldestTombstone now = some (stamped, key)) :
    s.handoffTombstones.lookup key = some stamped ∧ key ∈ s.unexpired now ∧
    ∀ {k t}, k ∈ s.unexpired now → s.handoffTombstones.lookup k = some t → stamped ≤ t := by
  obtain ⟨hp, before, after, he, hb⟩ := List.find?_eq_some_iff_append.mp hf
  obtain ⟨hl, hu⟩ := of_decide_eq_true hp
  refine ⟨hl, mem_unexpired.mpr ⟨stamped, hl, hu⟩, fun {k t} hk ht => ?_⟩
  obtain ⟨t', ht', hu'⟩ := mem_unexpired.mp hk
  cases ht.symm.trans ht'
  have hm := h.listed ht
  have hs := h.sorted
  rw [he] at hm hs
  rcases List.mem_append.mp hm with hm | hm
  · have hn := hb _ hm
    simp [ht, hu'] at hn
  · rcases List.mem_cons.mp hm with hm | hm
    · exact (Prod.mk.inj hm).1.ge
    · exact (List.pairwise_cons.mp (List.pairwise_append.mp hs).2.1).1 _ hm

end Oldest

section Tombstone

theorem Ordered.trimmed (h : Ordered last s) (ht : Trimmed s.tombstoneOrder s')
    (hb : ∀ {key stamped}, s'.handoffTombstones.lookup key = some stamped →
      s.handoffTombstones.lookup key = some stamped) : Ordered last s' where
  sorted := h.sorted.sublist ht.rest.sublist
  past   := fun item hi => h.past item (ht.rest.subset hi)
  listed := ht.listed
  few    := (AList.size_le_of_lookup hb).trans h.few

theorem lookup_pruneTombstones (h : Ordered last s) (now : Instant) (key : Key) :
    (s.pruneTombstones now).handoffTombstones.lookup key =
      (s.handoffTombstones.lookup key).filter
        fun stamped => durationSince now stamped < handoffTombstoneTtl :=
  (pruneTombstonesGo_spec h.sorted h.listed).2 key

theorem Ordered.pruneTombstones (h : Ordered last s) (now : Instant) :
    Ordered last (s.pruneTombstones now) := by
  refine h.trimmed (pruneTombstonesGo_spec h.sorted h.listed).1 fun hl => ?_
  exact (Option.filter_eq_some_iff.mp ((lookup_pruneTombstones h now _).symm.trans hl)).1

theorem tombstoneOrder_pruneTombstonesGo :
    (pruneTombstonesGo now order s).tombstoneOrder =
      order.dropWhile fun item => handoffTombstoneTtl ≤ durationSince now item.1 := by
  induction order generalizing s
  case nil => rfl
  case cons item order hi =>
    rw [pruneTombstonesGo, List.dropWhile_cons]
    split
    case isTrue hu  => rw [if_neg (by simpa using hu)]
    case isFalse hu => rw [if_pos (by simpa using hu), hi]

-- What is pruned is not what is looked for.
theorem find?_pruneTombstones (h : Ordered last s) (now : Instant) :
    ((s.pruneTombstones now).tombstoneOrder.find? fun item =>
        (s.pruneTombstones now).handoffTombstones.lookup item.2 = some item.1) =
      s.oldestTombstone now := by
  simp only [lookup_pruneTombstones h, Option.filter_eq_some_iff, decide_eq_true_eq]
  rw [pruneTombstones, tombstoneOrder_pruneTombstonesGo, oldestTombstone]
  conv_rhs => rw [← List.takeWhile_append_dropWhile
    (l := s.tombstoneOrder) (p := fun item => handoffTombstoneTtl ≤ durationSince now item.1)]
  rw [List.find?_append, (List.find?_eq_none (l := s.tombstoneOrder.takeWhile _)).mpr,
    Option.none_or]
  intro item hm
  have hx := List.mem_takeWhile_imp hm
  simp only [decide_eq_true_eq] at hx ⊢
  exact fun hc => hc.2.not_ge hx

theorem size_pruneTombstones (h : Ordered last s) (now : Instant) :
    (s.pruneTombstones now).handoffTombstones.size = (s.unexpired now).card := by
  have hk : (s.pruneTombstones now).handoffTombstones.keys.toFinset = s.unexpired now := by
    ext key
    rw [List.mem_toFinset, mem_unexpired]
    change key ∈ (s.pruneTombstones now).handoffTombstones ↔ _
    rw [← AList.lookup_isSome, lookup_pruneTombstones h, Option.isSome_iff_exists]
    simp only [Option.filter_eq_some_iff, decide_eq_true_eq]
  rw [← hk, List.toFinset_card_of_nodup (AList.keys_nodup _)]
  exact (List.length_map _).symm

-- What becomes of the other tombstones when the key gets one: the expired ones are dropped and,
-- if there are too many, the oldest one is.
structure Buries (s : Cache) (key : Key) (now : Instant) (forgotten : Option Key) (s' : Cache) :
    Prop where
  lookup : ∀ k, s'.handoffTombstones.lookup k =
             if k = key then some now
             else if forgotten = some k then none
             else (s.handoffTombstones.lookup k).filter
               fun stamped => durationSince now stamped < handoffTombstoneTtl
  full   : forgotten.isSome ↔ maxHandoffTombstones ≤ (s.unexpired now).card
  oldest : ∀ {k}, forgotten = some k → ∃ stamped, s.oldestTombstone now = some (stamped, k)

-- The stale items of the queue may be dropped.
theorem Ordered.compact (h : Ordered last s) : Ordered last { s with
    tombstoneOrder :=
      s.tombstoneOrder.filter fun item => s.handoffTombstones.lookup item.2 = some item.1 } where
  sorted := h.sorted.sublist List.filter_sublist
  past   := fun item hi => h.past item (List.mem_filter.mp hi).1
  listed := fun hs => List.mem_filter.mpr ⟨h.listed hs, decide_eq_true hs⟩
  few    := h.few

theorem Ordered.bury (h : Ordered last s) (hn : last ≤ now)
    (hc : s.handoffTombstones.size < maxHandoffTombstones) (key : Key) (usedBytes : UInt64) :
    Ordered now { s with
      handoffTombstones := s.handoffTombstones.insert key now
      usedBytes
      tombstoneOrder    := s.tombstoneOrder ++ [(now, key)] } where
  sorted := by
    refine List.pairwise_append.mpr ⟨h.sorted, List.pairwise_singleton .., fun item hi item' hi' => ?_⟩
    cases List.mem_singleton.mp hi'
    exact (h.past item hi).trans hn
  past   := by
    intro item hi
    obtain hi | hi := List.mem_append.mp hi
    · exact (h.past item hi).trans hn
    · cases List.mem_singleton.mp hi
      exact le_rfl
  listed hl := AList.of_lookup_insert hl (List.mem_append_right _ List.mem_cons_self) fun hl =>
    List.mem_append_left _ (h.listed hl)
  few    := by
    change (s.handoffTombstones.insert key now).size ≤ _
    by_cases hm : key ∈ s.handoffTombstones
    case neg => rw [AList.size_insert_of_notMem hm]; exact hc
    case pos =>
      obtain ⟨stamped, hl⟩ := AList.exists_lookup_of_mem hm
      rw [AList.size_insert_of_lookup hl]
      exact hc.le

-- The oldest tombstone is forgotten only if there would be too many.
theorem room_spec (h : Ordered last s) :
    let s' :=
      if s.handoffTombstones.size ≥ maxHandoffTombstones then s.forgetOldestTombstone else s
    Ordered last s' ∧ s'.handoffTombstones.size < maxHandoffTombstones ∧
    ∃ forgotten : Option Key,
      (∀ k, s'.handoffTombstones.lookup k =
        if forgotten = some k then none else s.handoffTombstones.lookup k) ∧
      (forgotten.isSome ↔ maxHandoffTombstones ≤ s.handoffTombstones.size) ∧
      ∀ {k}, forgotten = some k → ∃ stamped, s.tombstoneOrder.find?
        (fun item => s.handoffTombstones.lookup item.2 = some item.1) = some (stamped, k) := by
  intro s'
  by_cases hc : s.handoffTombstones.size ≥ maxHandoffTombstones
  case neg =>
    rw [show s' = s from if_neg hc]
    exact ⟨h, Nat.lt_of_not_le hc, none, by simp, by simpa using hc, by simp⟩
  case pos =>
    rw [show s' = s.forgetOldestTombstone from if_pos hc]
    have hp : 0 < s.handoffTombstones.size := lt_of_lt_of_le (by decide) hc
    obtain ⟨ht, key, stamped, hf, he⟩ := forgetOldestTombstoneGo_spec h.listed hp
    have hk : s.handoffTombstones.lookup key = some stamped := by
      simpa using List.find?_some hf
    rw [← forgetOldestTombstone] at ht he
    refine ⟨h.trimmed ht fun hl => ?_, ?_, some key, fun k => ?_, by simpa using hc, ?_⟩
    case refine_1 =>
      rw [he] at hl
      exact (AList.lookup_erase_eq_some.mp hl).2
    case refine_2 =>
      rw [he]
      exact Nat.lt_of_lt_of_le (by rw [AList.size_erase_of_lookup hk]; exact Nat.lt_succ_self _) h.few
    case refine_3 =>
      rw [he, AList.lookup_erase_eq_ite]
      simp only [Option.some.injEq, eq_comm]
    case refine_4 =>
      rintro k ⟨⟩
      exact ⟨stamped, hf⟩

theorem tombstone_spec (h : Ordered last s) (hn : last ≤ now) (key : Key) :
    Ordered now (s.tombstone key now) ∧
    ∃ forgotten, Buries s key now forgotten (s.tombstone key now) := by
  obtain ⟨hr, hc, forgotten, hl, hf, ho⟩ := room_spec (h.pruneTombstones now)
  rw [tombstone]
  dsimp only
  generalize (if (s.pruneTombstones now).handoffTombstones.size ≥ maxHandoffTombstones then
    (s.pruneTombstones now).forgetOldestTombstone else s.pruneTombstones now) = s₁ at hr hc hl ⊢
  generalize (if key ∈ s₁.handoffTombstones then s₁.usedBytes
    else s₁.usedBytes + UInt64.ofNat (tombstoneBytes key)) = usedBytes
  have hb := hr.bury hn hc key usedBytes
  constructor
  · split
    case isTrue  => exact hb.compact
    case isFalse => exact hb
  · refine ⟨forgotten, fun k => ?_, by rw [hf, size_pruneTombstones h], fun {k} hk => ?_⟩
    · rw [← lookup_pruneTombstones h, ← hl, ← AList.lookup_insert_eq_ite]
      split <;> rfl
    · rw [← find?_pruneTombstones h]
      exact ho hk

end Tombstone

section Runs

theorem Ordered.withBudgets (maxMemoryBytes : UInt64) (budgets : List (Bytes × UInt64)) :
    Ordered last (withBudgets maxMemoryBytes budgets) where
  sorted := .nil
  past   := by simp [Cache.withBudgets]
  listed := by simp [Cache.withBudgets, Store.withBudgets]
  few    := Nat.zero_le _

theorem handoffDeleteAt_spec {removed : Bool} (hw : s.WF sha256) (h : Ordered last s)
    (hn : last ≤ now) (he : s.handoffDeleteAt key now = some (removed, s')) :
    Ordered now s' ∧ ∃ forgotten, Buries s key now forgotten s' := by
  obtain ⟨_, _, s₁, hd, -, -, hr⟩ := s.handoffDeleteAt_steps hw key now
  cases he.symm.trans hd
  have hb := handoffTombstones_of_removal hw hr
  have hk : Keeps s s₁ :=
    hr.keeps hw fun _ hm => Contents.eq_of_mem_removal _ _ hm ▸ rfl
  have hu : s₁.unexpired now = s.unexpired now := by
    ext k
    rw [mem_unexpired, mem_unexpired, hb]
  obtain ⟨ho, forgotten, hs⟩ := tombstone_spec (h.keeps hk le_rfl) hn key
  have hf : s₁.oldestTombstone now = s.oldestTombstone now := by
    simp only [oldestTombstone, hb, hk.order]
  exact ⟨ho, forgotten, hb ▸ hs.lookup, hu ▸ hs.full, hf ▸ hs.oldest⟩

theorem tombstoneStep_exec (h : s.WF sha256) (he : exec sha256 s now op = some (r, s')) :
    TombstoneStep s now op s' :=
  (outcome_of_exec h he).tombstones

theorem Ordered.step (h : Ordered last s) (hn : last ≤ now) (step : TombstoneStep s now op s') :
    Ordered now s' := by
  cases step
  case keeps hk    => exact h.noteHandoff.keeps hk hn
  case sweeps _ hk => exact (h.pruneTombstones now).keeps hk hn
  case buries s₁ key hop hk hs =>
    subst hs
    exact (tombstone_spec (h.noteHandoff.keeps hk le_rfl) hn key).1
  case clears _ ho hb _ =>
    exact ⟨by simp [ho], by simp [ho], by simp [hb], by simp [hb, AList.size_empty]⟩

theorem Run.ordered {es : List Event} {maxMemoryBytes : UInt64} {budgets : List (Bytes × UInt64)}
    (run : Run sha256 (Cache.withBudgets maxMemoryBytes budgets) es s) (ht : Timely es)
    (hl : ∀ e ∈ es, e.now ≤ last) : Ordered last s := by
  induction run generalizing last
  case refl => exact .withBudgets maxMemoryBytes budgets
  case tail es s₂ now op r s₃ run he hi =>
    obtain ⟨ht, -, hn⟩ := List.pairwise_append.mp ht
    have hi := hi ht fun e hm => hn e hm _ List.mem_cons_self
    have hw := run.wf (.withBudgets maxMemoryBytes budgets)
    exact (hi.step le_rfl (tombstoneStep_exec hw he)).keeps .refl (hl _ (by simp))

end Runs

section Capacity

-- The keys which have a tombstone after a delete of `key` is handed off, if none is given up.
def held (s : Cache) (key : Key) (now : Instant) : Finset Key :=
  Insert.insert key (s.unexpired now)

-- A tombstone is given up only if there would be too many, and then it is the oldest one.
structure Capped (s : Cache) (key : Key) (now : Instant) (s' : Cache) : Prop where
  room : (s.held key now).card ≤ maxHandoffTombstones → s'.unexpired now = s.held key now
  full : maxHandoffTombstones < (s.held key now).card → ∃ k stamped,
           k ∈ s.unexpired now ∧ k ≠ key ∧ s.handoffTombstones.lookup k = some stamped ∧
           s'.unexpired now = (s.held key now).erase k ∧
           ∀ {k' stamped'}, k' ∈ s.unexpired now →
             s.handoffTombstones.lookup k' = some stamped' → stamped ≤ stamped'

-- The key has no tombstone yet, there is room for one more, or its own is the first in the queue.
def Refreshes (s : Cache) (key : Key) (now : Instant) : Prop :=
  key ∈ s.unexpired now → maxHandoffTombstones ≤ (s.unexpired now).card →
    (s.oldestTombstone now).map (·.2) = some key

theorem Buries.unexpired {forgotten : Option Key} (h : Buries s key now forgotten s') :
    s'.unexpired now =
      Insert.insert key ((s.unexpired now).filter fun k => forgotten ≠ some k) := by
  ext k
  rw [mem_unexpired, h.lookup, Finset.mem_insert, Finset.mem_filter, mem_unexpired]
  by_cases hk : k = key
  case pos =>
    have ht : durationSince now now < handoffTombstoneTtl := by
      simp [durationSince, handoffTombstoneTtl, fromSecs]
    simp [hk, ht]
  case neg =>
    by_cases hf : forgotten = some k
    case pos => simp [hk, hf]
    case neg => simp [hk, hf, Option.filter_eq_some_iff]

theorem Ordered.card_unexpired (h : Ordered last s) (now : Instant) :
    (s.unexpired now).card ≤ maxHandoffTombstones := by
  rw [← size_pruneTombstones h now]
  exact (h.pruneTombstones now).few

theorem capped_of_buries {forgotten : Option Key} (ho : Ordered last s)
    (h : Buries s key now forgotten s') (hc : s.Refreshes key now) : Capped s key now s' := by
  have hle := ho.card_unexpired now
  have hu := h.unexpired
  cases forgotten
  case none =>
    have hn : (s.unexpired now).card < maxHandoffTombstones := by
      simpa using h.full
    have he : s'.unexpired now = s.held key now := by simpa [held] using hu
    refine ⟨fun _ => he, fun hf => absurd hf ?_⟩
    exact ((Finset.card_insert_le _ _).trans hn).not_gt
  case some k =>
    obtain ⟨stamped, hf⟩ := h.oldest rfl
    obtain ⟨hl, hk, hm⟩ := ho.oldest hf
    have hn : maxHandoffTombstones ≤ (s.unexpired now).card := by
      simpa using h.full
    by_cases hb : key ∈ s.unexpired now
    case pos =>
      -- The tombstone of the key itself is the one that goes, and it is renewed.
      have he : s.held key now = s.unexpired now := Finset.insert_eq_of_mem hb
      have hkk := hc hb hn
      rw [hf, Option.map_some, Option.some.injEq] at hkk
      subst hkk
      refine ⟨fun _ => ?_, fun hf => absurd hf (he ▸ hle.not_gt)⟩
      ext k'
      rw [hu, held]
      by_cases hkk : k' = k
      case pos => simp [hkk]
      case neg => simp [hkk, Ne.symm hkk]
    case neg =>
      have hne : k ≠ key := fun he => hb (he ▸ hk)
      have hcard : (s.held key now).card = (s.unexpired now).card + 1 :=
        Finset.card_insert_of_notMem hb
      refine ⟨fun hr => absurd (hcard ▸ hr) (by omega), fun _ => ?_⟩
      refine ⟨k, stamped, hk, hne, hl, ?_, hm⟩
      ext k'
      rw [hu, held]
      by_cases hkk : k' = key
      case pos => simp [hkk, hne.symm]
      case neg => simp [hkk, eq_comm, and_comm]

-- The one that goes would be missing.
theorem refreshes_of_capped {forgotten : Option Key} (ho : Ordered last s)
    (h : Buries s key now forgotten s') (hc : Capped s key now s') : s.Refreshes key now := by
  intro hb hn
  obtain ⟨k, rfl⟩ := Option.isSome_iff_exists.mp (h.full.mpr hn)
  obtain ⟨stamped, hf⟩ := h.oldest rfl
  have he : s.held key now = s.unexpired now := Finset.insert_eq_of_mem hb
  have hk : k ∈ s'.unexpired now := by
    rw [hc.room (he ▸ ho.card_unexpired now), he]
    exact (ho.oldest hf).2.1
  rw [h.unexpired, Finset.mem_insert] at hk
  rw [hf, Option.map_some, hk.resolve_right (by simp)]

theorem Run.handoffDelete_capped {es : List Event} {maxMemoryBytes : UInt64}
    {budgets : List (Bytes × UInt64)}
    (run : Run sha256 (withBudgets maxMemoryBytes budgets) es s)
    (ht : Timely (es ++ [⟨now, .handoffDelete key, r⟩]))
    (he : exec sha256 s now (.handoffDelete key) = some (r, s')) :
    Capped s key now s' ↔ s.Refreshes key now := by
  obtain ⟨ht, -, hn⟩ := List.pairwise_append.mp ht
  have ho : Ordered now s := run.ordered ht fun e hm => hn e hm _ List.mem_cons_self
  have hw := run.wf (.withBudgets maxMemoryBytes budgets)
  obtain ⟨⟨removed, s₁⟩, hs, he⟩ := Option.bind_eq_some_iff.mp he
  cases he
  obtain ⟨-, forgotten, hb⟩ := handoffDeleteAt_spec hw ho le_rfl hs
  exact ⟨refreshes_of_capped ho hb, capped_of_buries ho hb⟩

end Capacity

section Counterexample

def numbered (i : Nat) : Key :=
  ⟨[], List.replicate (i + 1) 0⟩

-- As many deletes are handed off, the first one before the others.
def handedOff (n : Nat) : List (Instant × Op) :=
  (List.range n).map fun i => (min i 1, .handoffDelete (numbered i))

theorem numbered_injective : Function.Injective numbered := by
  intro i j h
  simpa [numbered] using congrArg (·.name.length) h

-- Exactly the first `n` keys have a tombstone.
structure Filled (n : Nat) (s : Cache) : Prop where
  lookup : ∀ {k stamped}, s.handoffTombstones.lookup k = some stamped ↔
             ∃ i < n, k = numbered i ∧ stamped = min i 1

theorem Filled.unexpired {n : Nat} (h : Filled n s) (hn : now ≤ 2) :
    s.unexpired now = (Finset.range n).image numbered := by
  ext k
  simp only [mem_unexpired, h.lookup, Finset.mem_image, Finset.mem_range]
  constructor
  · rintro ⟨stamped, ⟨i, hi, rfl, -⟩, -⟩
    exact ⟨i, hi, rfl⟩
  · rintro ⟨i, hi, rfl⟩
    refine ⟨min i 1, ⟨i, hi, rfl, rfl⟩, lt_of_le_of_lt (Nat.sub_le _ _) (hn.trans_lt ?_)⟩
    simp [handoffTombstoneTtl, fromSecs]

theorem Filled.card {n : Nat} (h : Filled n s) (hn : now ≤ 2) : (s.unexpired now).card = n := by
  rw [h.unexpired hn, Finset.card_image_of_injective _ numbered_injective, Finset.card_range]

theorem Filled.succ {n : Nat} {removed : Bool} (h : Filled n s) (hw : s.WF sha256) (ho : Ordered (min n 1) s)
    (hn : n < maxHandoffTombstones)
    (he : s.handoffDeleteAt (numbered n) (min n 1) = some (removed, s')) : Filled (n + 1) s' where
  lookup := by
    intro k stamped
    have ht : min n 1 ≤ 2 := by omega
    obtain ⟨-, forgotten, hb⟩ := handoffDeleteAt_spec hw ho le_rfl he
    have hf : forgotten = none := by
      by_contra hf
      have := hb.full.mp (Option.isSome_iff_ne_none.mpr hf)
      rw [h.card ht] at this
      omega
    subst hf
    rw [hb.lookup]
    by_cases hk : k = numbered n
    case pos =>
      subst hk
      simp only [if_true, Option.some.injEq]
      constructor
      · rintro rfl
        exact ⟨n, Nat.lt_succ_self n, rfl, rfl⟩
      · rintro ⟨i, -, hi, rfl⟩
        rw [numbered_injective hi]
    case neg =>
      simp only [hk, if_false, reduceCtorEq, Option.filter_eq_some_iff, h.lookup, decide_eq_true_eq]
      constructor
      · rintro ⟨⟨i, hi, he⟩, -⟩
        exact ⟨i, hi.trans (Nat.lt_succ_self n), he⟩
      · rintro ⟨i, hi, rfl, rfl⟩
        have hi : i < n := Nat.lt_of_le_of_ne (Nat.le_of_lt_succ hi) fun he => hk (he ▸ rfl)
        refine ⟨⟨i, hi, rfl, rfl⟩, lt_of_le_of_lt (Nat.sub_le _ _) (ht.trans_lt ?_)⟩
        simp [handoffTombstoneTtl, fromSecs]

theorem timely_handedOff {n : Nat} {es : List Event}
    (h : execAll sha256 s (handedOff n) = some (es, s')) :
    Timely es ∧ ∀ e ∈ es, e.now ≤ min n 1 := by
  have hn : es.map (·.now) = (List.range n).map fun i => min i 1 := by
    rw [now_of_execAll h, handedOff, List.map_map]
    rfl
  constructor
  · rw [Timely, ← List.pairwise_map, hn, List.pairwise_map]
    exact List.pairwise_lt_range.imp fun h => min_le_min_right 1 h.le
  · intro e he
    have hm : e.now ∈ es.map (·.now) := List.mem_map_of_mem he
    rw [hn, List.mem_map] at hm
    obtain ⟨i, hi, he⟩ := hm
    exact he ▸ min_le_min_right 1 (List.mem_range.mp hi).le

theorem exists_filled (sha256 : Bytes → Vector UInt8 32) (n : Nat)
    (hn : n ≤ maxHandoffTombstones) : ∃ es s,
      execAll sha256 (withBudgets 0 []) (handedOff n) = some (es, s) ∧ Filled n s := by
  induction n
  case zero => exact ⟨[], withBudgets 0 [], rfl, ⟨by simp [Cache.withBudgets, Store.withBudgets]⟩⟩
  case succ n hi =>
    obtain ⟨es, s, ha, hf⟩ := hi (Nat.le_of_succ_le hn)
    have run := Run.of_execAll ha
    have hw : s.WF sha256 := run.wf (.withBudgets 0 [])
    have ht := timely_handedOff ha
    obtain ⟨⟨r, s'⟩, he⟩ :=
      Option.isSome_iff_exists.mp (exec_isSome hw (min n 1) (.handoffDelete (numbered n)))
    refine ⟨es ++ [⟨min n 1, .handoffDelete (numbered n), r⟩], s', ?_, ?_⟩
    · rw [handedOff, List.range_succ, List.map_append]
      exact execAll_snoc ha he
    · obtain ⟨⟨removed, s₁⟩, hs, he⟩ := Option.bind_eq_some_iff.mp he
      cases he
      exact hf.succ hw (run.ordered ht.1 ht.2) (Nat.lt_of_succ_le hn) hs

-- Nothing else is as old as the tombstone of the first key.
theorem Filled.oldest {n : Nat} (h : Filled n s) (ho : Ordered last s) (hn : 0 < n) :
    (s.oldestTombstone 2).map (·.2) = some (numbered 0) := by
  have hl : s.handoffTombstones.lookup (numbered 0) = some 0 := h.lookup.mpr ⟨0, hn, rfl, rfl⟩
  have hu : numbered 0 ∈ s.unexpired 2 := by
    rw [h.unexpired le_rfl]
    exact Finset.mem_image_of_mem _ (Finset.mem_range.mpr hn)
  cases hf : s.oldestTombstone 2
  case none =>
    obtain ⟨t, ht, hx⟩ := mem_unexpired.mp hu
    have := List.find?_eq_none.mp hf _ (ho.listed ht)
    simp [ht, hx] at this
  case some item =>
    obtain ⟨hk, -, hm⟩ := ho.oldest hf
    obtain ⟨i, -, hi, ht⟩ := h.lookup.mp hk
    have hle : min i 1 ≤ 0 := ht ▸ hm hu hl
    rw [Option.map_some, hi, show i = 0 by omega]

theorem timely_redelete {n : Nat} {es : List Event} (h : ∀ e ∈ es, e.now ≤ min n 1)
    (ht : Timely es) : Timely (es ++ [⟨2, op, r⟩]) := by
  refine List.pairwise_append.mpr ⟨ht, List.pairwise_singleton .., fun e hm e' hm' => ?_⟩
  cases List.mem_singleton.mp hm'
  exact (h e hm).trans ((min_le_right _ _).trans one_le_two)

-- The second key is deleted once more while the tombstones are at their limit. It has one already,
-- but the first key loses its own.
theorem redelete_displaces : ∃ es s s' r,
    execAll (fun _ => .replicate 32 0) (withBudgets 0 []) (handedOff maxHandoffTombstones) =
      some (es, s) ∧
    Timely (es ++ [⟨2, .handoffDelete (numbered 1), r⟩]) ∧
    exec (fun _ => .replicate 32 0) s 2 (.handoffDelete (numbered 1)) = some (r, s') ∧
    numbered 1 ∈ s.unexpired 2 ∧ (s.held (numbered 1) 2).card = maxHandoffTombstones ∧
    numbered 0 ∈ s.unexpired 2 ∧ numbered 0 ∉ s'.unexpired 2 ∧ ¬Capped s (numbered 1) 2 s' := by
  obtain ⟨es, s, ha, hf⟩ := exists_filled (fun _ => .replicate 32 0) maxHandoffTombstones le_rfl
  have run := Run.of_execAll ha
  have ht := timely_handedOff ha
  have hp : 2 ≤ maxHandoffTombstones := by decide
  have hmem {i} (hi : i < 2) : numbered i ∈ s.unexpired 2 := by
    rw [hf.unexpired le_rfl]
    exact Finset.mem_image_of_mem _ (Finset.mem_range.mpr (hi.trans_le hp))
  have hcard : (s.held (numbered 1) 2).card = maxHandoffTombstones := by
    rw [held, Finset.insert_eq_of_mem (hmem (by decide)), hf.card le_rfl]
  have hw := run.wf (.withBudgets 0 [])
  obtain ⟨⟨r, s'⟩, he⟩ := Option.isSome_iff_exists.mp
    (exec_isSome hw 2 (.handoffDelete (numbered 1)))
  have hlost : numbered 0 ∉ s'.unexpired 2 := by
    obtain ⟨⟨removed, s₁⟩, hs, he⟩ := Option.bind_eq_some_iff.mp he
    cases he
    have ho : Ordered 1 s := run.ordered ht.1 fun e hm => (ht.2 e hm).trans (min_le_right _ _)
    obtain ⟨-, forgotten, hb⟩ := handoffDeleteAt_spec hw ho (by decide) hs
    obtain ⟨k, rfl⟩ := Option.isSome_iff_exists.mp (hb.full.mpr (hf.card le_rfl).ge)
    obtain ⟨stamped, hk⟩ := hb.oldest rfl
    have h₀ := hf.oldest ho (by decide)
    rw [hk] at h₀
    cases h₀
    rw [hb.unexpired]
    simp [numbered]
  refine ⟨es, s, s', r, ha, timely_redelete ht.2 ht.1, he, hmem (by decide), hcard,
    hmem (by decide), hlost, fun hc => ?_⟩
  rw [hc.room hcard.le] at hlost
  exact hlost (Finset.mem_insert_of_mem (hmem (by decide)))

-- At the limit, the first key is deleted again instead, and no tombstone is lost.
theorem handoffDelete_capped_of_first : ∃ es s s' r,
    execAll (fun _ => .replicate 32 0) (withBudgets 0 []) (handedOff maxHandoffTombstones) =
      some (es, s) ∧
    exec (fun _ => .replicate 32 0) s 2 (.handoffDelete (numbered 0)) = some (r, s') ∧
    (s.unexpired 2).card = maxHandoffTombstones ∧ Capped s (numbered 0) 2 s' := by
  obtain ⟨es, s, ha, hf⟩ := exists_filled (fun _ => .replicate 32 0) maxHandoffTombstones le_rfl
  have run := Run.of_execAll ha
  have ht := timely_handedOff ha
  have ho : Ordered 1 s := run.ordered ht.1 fun e hm => (ht.2 e hm).trans (min_le_right _ _)
  obtain ⟨⟨r, s'⟩, he⟩ := Option.isSome_iff_exists.mp
    (exec_isSome (run.wf (.withBudgets 0 [])) 2 (.handoffDelete (numbered 0)))
  refine ⟨es, s, s', r, ha, he, hf.card le_rfl, ?_⟩
  exact (run.handoffDelete_capped (timely_redelete ht.2 ht.1) he).mpr fun _ _ =>
    hf.oldest ho (by decide)

end Counterexample
end Nanocached.Cache
