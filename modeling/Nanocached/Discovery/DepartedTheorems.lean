import Nanocached.Discovery.Departed

-- The records of departures are bounded, and none is lost without a reason.

namespace Nanocached.Discovery.Departed

inductive Op
  | record (name : Bytes) (now : Instant)
  | recordUnreliable (name : Bytes) (now : Instant)
  | forget (name : Bytes)

def Op.recorded : Op → Option (Bytes × Instant)
  | .record name now           => some (name, now)
  | .recordUnreliable name now => some (name, now)
  | .forget _                  => none

def exec (d : Departed) : Op → Departed
  | .record name now           => d.record name now
  | .recordUnreliable name now => d.recordUnreliable name now
  | .forget name               => d.forget name

def run (ops : List Op) : Departed :=
  ops.foldl exec empty

def Timely (ops : List Op) : Prop :=
  (ops.filterMap Op.recorded).Pairwise (·.2 < ·.2)

def Expired (now since : Instant) : Prop :=
  departedRetention ≤ durationSince now since

variable {d : Departed} {times : Map Bytes Instant} {unreliable : Finset Bytes}
         {order : List (Instant × Bytes)} {name other : Bytes} {now now' since : Instant}

-- What does not depend on how many records there are.
structure Sound (d : Departed) : Prop where
  sorted     : d.order.Pairwise (·.1 < ·.1)
  current    : ∀ {name since}, d.times.lookup name = some since → (since, name) ∈ d.order
  unreliable : ∀ name ∈ d.unreliable, name ∈ d.times

namespace Sound

theorem tail (h : Sound ⟨times, (since, name) :: order, unreliable⟩)
    (hn : times.lookup name ≠ some since) : Sound ⟨times, order, unreliable⟩ where
  sorted     := (List.pairwise_cons.mp h.sorted).2
  unreliable := h.unreliable
  current hl := by
    rcases List.mem_cons.mp (h.current hl) with he | hm
    · cases he
      exact absurd hl hn
    · exact hm

theorem erase (h : Sound ⟨times, (since, name) :: order, unreliable⟩) :
    Sound ⟨times.erase name, order, unreliable.erase name⟩ where
  sorted     := (List.pairwise_cons.mp h.sorted).2
  current hl := by
    obtain ⟨hn, hl⟩ := AList.lookup_erase_eq_some.mp hl
    rcases List.mem_cons.mp (h.current hl) with he | hm
    · cases he
      contradiction
    · exact hm
  unreliable other hm := by
    obtain ⟨hn, hm⟩ := Finset.mem_erase.mp hm
    exact AList.mem_erase.mpr ⟨hn, h.unreliable other hm⟩

-- The first of the records is the oldest one.
theorem le_of_lookup (h : Sound ⟨times, (since, name) :: order, unreliable⟩) {since' : Instant}
    (hl : times.lookup other = some since') : since ≤ since' := by
  rcases List.mem_cons.mp (h.current hl) with he | hm
  · cases he
    exact le_rfl
  · exact ((List.pairwise_cons.mp h.sorted).1 _ hm).le

end Sound

theorem prune_spec (h : Sound ⟨times, order, unreliable⟩) :
    Sound (prune now times unreliable order) ∧
      (prune now times unreliable order).order <:+ order ∧
      ∀ name since, (prune now times unreliable order).times.lookup name = some since ↔
        times.lookup name = some since ∧ ¬Expired now since := by
  induction order generalizing times unreliable
  case nil =>
    refine ⟨h, List.suffix_rfl, fun name since => ⟨fun hl => ?_, And.left⟩⟩
    exact absurd (h.current hl) List.not_mem_nil
  case cons item order hi =>
    obtain ⟨oldest, front⟩ := item
    rw [prune]
    split
    case isTrue hlt =>
      refine ⟨h, List.suffix_rfl, fun name since => ⟨fun hl => ⟨hl, fun hx => ?_⟩, And.left⟩⟩
      have hle := h.le_of_lookup hl
      exact absurd (hx.trans (Nat.sub_le_sub_left hle now)) (not_le.mpr hlt)
    case isFalse hge =>
      have hx : Expired now oldest := not_lt.mp hge
      split
      case isTrue hc =>
        obtain ⟨hs, ho, hl⟩ := hi h.erase
        refine ⟨hs, ho.trans (List.suffix_cons _ _), fun name since => ?_⟩
        rw [hl, AList.lookup_erase_eq_some]
        refine ⟨fun hk => ⟨hk.1.2, hk.2⟩, fun hk => ⟨⟨?_, hk.1⟩, hk.2⟩⟩
        rintro rfl
        cases hc.symm.trans hk.1
        exact hk.2 hx
      case isFalse hc =>
        obtain ⟨hs, ho, hl⟩ := hi (h.tail hc)
        exact ⟨hs, ho.trans (List.suffix_cons _ _), hl⟩

theorem evictOldest_spec (h : Sound ⟨times, order, unreliable⟩) (hp : 0 < times.size) :
    Sound (evictOldest times unreliable order) ∧
      (evictOldest times unreliable order).order <:+ order ∧
      ∃ name since, times.lookup name = some since ∧
        (evictOldest times unreliable order).times = times.erase name ∧
        ∀ name' since', times.lookup name' = some since' → since ≤ since' := by
  induction order
  case nil =>
    obtain ⟨name, since, hl⟩ := AList.exists_lookup_of_size_pos hp
    exact absurd (h.current hl) List.not_mem_nil
  case cons item order hi =>
    obtain ⟨oldest, front⟩ := item
    rw [evictOldest]
    split
    case isTrue hc =>
      exact ⟨h.erase, List.suffix_cons _ _, front, oldest, hc, rfl,
        fun name' since' hl => h.le_of_lookup hl⟩
    case isFalse hc =>
      obtain ⟨hs, ho, he⟩ := hi (h.tail hc)
      exact ⟨hs, ho.trans (List.suffix_cons _ _), he⟩

-- The cap is reached, and the oldest record goes.
structure Evicts (d d' : Departed) (name oldest : Bytes) (since : Instant) : Prop where
  fresh  : name ∉ d.times
  full   : d.times.size = maxDeparted
  held   : d.times.lookup oldest = some since
  times  : d'.times = d.times.erase oldest
  le     : ∀ name' since', d.times.lookup name' = some since' → since ≤ since'

def withRoom (d : Departed) (name : Bytes) : Departed :=
  if maxDeparted ≤ d.times.size ∧ name ∉ d.times then
    evictOldest d.times d.unreliable d.order
  else
    d

theorem withRoom_spec (h : Sound d) (hs : d.times.size ≤ maxDeparted) :
    Sound (d.withRoom name) ∧ (d.withRoom name).order <:+ d.order ∧
      (d.withRoom name = d ∧ (name ∉ d.times → d.times.size < maxDeparted) ∨
        ∃ oldest since, Evicts d (d.withRoom name) name oldest since) := by
  unfold withRoom
  split
  case isTrue hf =>
    obtain ⟨hs', ho, oldest, since, hl, ht, hle⟩ :=
      evictOldest_spec h (hf.1.trans_lt' (by decide))
    exact ⟨hs', ho, .inr ⟨oldest, since, hf.2, hs.antisymm hf.1, hl, ht, hle⟩⟩
  case isFalse hf =>
    refine ⟨h, List.suffix_rfl, .inl ⟨rfl, fun hn => ?_⟩⟩
    exact not_le.mp fun hle => hf ⟨hle, hn⟩

theorem size_withRoom (h : Sound d) (hs : d.times.size ≤ maxDeparted) :
    ((d.withRoom name).times.insert name now).size ≤ maxDeparted := by
  obtain ⟨_, _, ⟨he, hlt⟩ | ⟨oldest, since, hev⟩⟩ := @withRoom_spec d name h hs
  case inl =>
    rw [he]
    by_cases hm : name ∈ d.times
    case pos =>
      obtain ⟨since, hl⟩ := AList.exists_lookup_of_mem hm
      rw [AList.size_insert_of_lookup hl]
      exact hs
    case neg =>
      rw [AList.size_insert_of_notMem hm]
      exact hlt hm
  case inr =>
    have hsize := AList.size_erase_of_lookup hev.held
    have hn : name ∉ d.times.erase oldest := fun hm => hev.fresh (AList.mem_erase.mp hm).2
    rw [hev.times, AList.size_insert_of_notMem hn, ← hsize]
    exact hs

-- Once there are too many, only the current ones are kept.
def compacted (times : Map Bytes Instant) (order : List (Instant × Bytes)) :
    List (Instant × Bytes) :=
  if 2 * maxDeparted < order.length then
    order.filter fun item => times.lookup item.2 = some item.1
  else
    order

theorem length_current (h : order.Pairwise (·.1 < ·.1)) :
    (order.filter fun item => times.lookup item.2 = some item.1).length ≤ times.size := by
  let swap (item : Instant × Bytes) : Sigma fun _ : Bytes => Instant := ⟨item.2, item.1⟩
  have hi : Function.Injective swap := by
    rintro ⟨since, name⟩ ⟨since', name'⟩ he
    cases he
    rfl
  have hn : (order.filter fun item => times.lookup item.2 = some item.1).Nodup :=
    (h.imp fun hlt he => (he ▸ hlt).false).filter _
  have hs : (order.filter fun item => times.lookup item.2 = some item.1).map swap ⊆
      times.entries := by
    intro p hp
    obtain ⟨item, hm, rfl⟩ := List.mem_map.mp hp
    exact AList.mem_entries.mpr (of_decide_eq_true (List.mem_filter.mp hm).2)
  have hle := ((hn.map hi).subperm hs).length_le
  rwa [List.length_map] at hle

theorem record_eq : d.record name now =
    let e := (prune now d.times d.unreliable d.order).withRoom name
    { times      := e.times.insert name now
      order      := compacted (e.times.insert name now) (e.order ++ [(now, name)])
      unreliable := e.unreliable.erase name } :=
  rfl

structure Bounded (d : Departed) (now : Instant) : Prop extends Sound d where
  size   : d.times.size ≤ maxDeparted
  length : d.order.length ≤ 2 * maxDeparted
  past   : ∀ item ∈ d.order, item.1 < now

theorem Bounded.empty : Bounded empty now where
  sorted     := .nil
  current hl := by contradiction
  unreliable := fun _ hm => by contradiction
  size       := Nat.zero_le _
  length     := Nat.zero_le _
  past       := fun _ hm => by contradiction

theorem Bounded.mono (h : Bounded d now) (hn : now ≤ now') : Bounded d now' :=
  { h with past := fun item hm => (h.past item hm).trans_le hn }

-- What a call drops besides the record which it replaces.
def Drops (d : Departed) (name : Bytes) (now : Instant) (other : Bytes) (since : Instant) : Prop :=
  other ≠ name ∧ d.times.lookup other = some since ∧ other ∉ (d.record name now).times

theorem size_prune (h : Sound d) :
    (prune now d.times d.unreliable d.order).times.size ≤ d.times.size :=
  AList.size_le_of_lookup fun hl => ((prune_spec h).2.2 _ _ |>.mp hl).1

theorem Sound.insert (h : Sound d) (hp : ∀ item ∈ d.order, item.1 < now) (name : Bytes) :
    Sound ⟨d.times.insert name now, d.order ++ [(now, name)], d.unreliable.erase name⟩ where
  sorted := List.pairwise_append.mpr ⟨h.sorted, List.pairwise_singleton _ _,
    fun item hm item' hm' => by
      cases List.mem_singleton.mp hm'
      exact hp item hm⟩
  current hl := AList.of_lookup_insert hl (List.mem_append_right _ List.mem_cons_self) fun hl =>
    List.mem_append_left _ (h.current hl)
  unreliable other hm := by
    obtain ⟨_, hm⟩ := Finset.mem_erase.mp hm
    exact (AList.mem_insert _).mpr (.inr (h.unreliable other hm))

theorem Sound.compacted (h : Sound ⟨times, order, unreliable⟩) :
    Sound ⟨times, compacted times order, unreliable⟩ := by
  unfold Departed.compacted
  split
  case isTrue =>
    exact ⟨h.sorted.filter _, fun hl => List.mem_filter.mpr ⟨h.current hl, decide_eq_true hl⟩,
      h.unreliable⟩
  case isFalse => exact h

theorem compacted_subset : compacted times order ⊆ order := by
  unfold compacted
  split
  · exact List.filter_subset_self _
  · exact List.Subset.refl _

theorem length_compacted (h : order.Pairwise (·.1 < ·.1)) (hs : times.size ≤ maxDeparted) :
    (compacted times order).length ≤ 2 * maxDeparted := by
  unfold compacted
  split
  case isTrue     => exact (length_current h).trans (hs.trans (by decide))
  case isFalse hl => exact not_lt.mp hl

theorem Bounded.record (h : Bounded d now) (name : Bytes) :
    Bounded (d.record name now) (now + 1) := by
  obtain ⟨hs₁, ho₁, _⟩ := @prune_spec d.times d.unreliable d.order now h.toSound
  have hsize := (@size_prune d now h.toSound).trans h.size
  obtain ⟨hs₂, ho₂, _⟩ := @withRoom_spec _ name hs₁ hsize
  have hsize₂ := @size_withRoom _ name now hs₁ hsize
  rw [record_eq]
  dsimp only
  generalize (prune now d.times d.unreliable d.order).withRoom name = e at hs₂ ho₂ hsize₂ ⊢
  have hpast (item) (hm : item ∈ e.order) : item.1 < now := h.past item ((ho₂.trans ho₁).mem hm)
  have hs₃ := hs₂.insert hpast name
  refine ⟨hs₃.compacted, hsize₂, length_compacted hs₃.sorted hsize₂, fun item hm => ?_⟩
  rcases List.mem_append.mp (compacted_subset hm) with hm | hm
  · exact (hpast item hm).trans (Nat.lt_succ_self _)
  · cases List.mem_singleton.mp hm
    exact Nat.lt_succ_self _

theorem Bounded.recordUnreliable (h : Bounded d now) :
    Bounded (d.recordUnreliable name now) (now + 1) :=
  { h.record name with
    unreliable := fun other hm => by
      rcases Finset.mem_insert.mp hm with rfl | hm
      · exact (AList.mem_insert _).mpr (.inl rfl)
      · exact (h.record name).unreliable other hm }

theorem Bounded.forget (h : Bounded d now) : Bounded (d.forget name) now where
  sorted     := h.sorted
  current hl := h.current (AList.lookup_erase_eq_some.mp hl).2
  length     := h.length
  past       := h.past
  size       := (AList.size_le_of_lookup fun hl => (AList.lookup_erase_eq_some.mp hl).2).trans h.size
  unreliable other hm := by
    obtain ⟨hn, hm⟩ := Finset.mem_erase.mp hm
    exact AList.mem_erase.mpr ⟨hn, h.unreliable other hm⟩

theorem bounded_run {ops : List Op} (ht : Timely ops)
    (hn : ∀ recorded ∈ ops.filterMap Op.recorded, recorded.2 < now) : Bounded (run ops) now := by
  induction ops using List.reverseRecOn generalizing now
  case nil => exact .empty
  case append_singleton ops op hi =>
    rw [run, List.foldl_append]
    rw [List.filterMap_append] at hn
    rw [Timely, List.filterMap_append] at ht
    have ht' : Timely ops := (List.pairwise_append.mp ht).1
    have hop {name at_} (hr : op.recorded = some (name, at_)) :
        Bounded (run ops) at_ ∧ at_ < now := by
      simp only [List.filterMap_cons, hr, List.filterMap_nil] at ht hn
      refine ⟨hi ht' fun recorded hm => ?_, hn (name, at_) (by simp)⟩
      exact (List.pairwise_append.mp ht).2.2 recorded hm (name, at_) (by simp)
    cases op with
    | record name at_ =>
      obtain ⟨hb, hlt⟩ := hop rfl
      exact (hb.record name).mono hlt
    | recordUnreliable name at_ =>
      obtain ⟨hb, hlt⟩ := hop rfl
      exact hb.recordUnreliable.mono hlt
    | forget name =>
      exact (hi ht' fun recorded hm => hn recorded (List.mem_append_left _ hm)).forget

section Drops

theorem notMem_record (hn : other ≠ name) : other ∉ (d.record name now).times ↔
    other ∉ ((prune now d.times d.unreliable d.order).withRoom name).times := by
  rw [record_eq, AList.mem_insert]
  simp [hn]

theorem size_prune_lt (h : Sound d) (hl : d.times.lookup name = some since)
    (hx : Expired now since) :
    (prune now d.times d.unreliable d.order).times.size < d.times.size := by
  have hspec := (@prune_spec d.times d.unreliable d.order now h).2.2
  have hle : (prune now d.times d.unreliable d.order).times.size ≤ (d.times.erase name).size := by
    refine AList.size_le_of_lookup fun {other since'} hk => ?_
    obtain ⟨hk, hx'⟩ := (hspec _ _).mp hk
    refine AList.lookup_erase_eq_some.mpr ⟨?_, hk⟩
    rintro rfl
    cases hl.symm.trans hk
    exact hx' hx
  rw [AList.size_erase_of_lookup hl]
  exact Nat.lt_succ_of_le hle

-- A record that is not too old is only dropped when the cap is reached, which takes that none is.
theorem evicts_of_drops (h : Bounded d now) (hd : d.Drops name now other since)
    (hx : ¬Expired now since) :
    Evicts d ⟨d.times.erase other, d.order, d.unreliable⟩ name other since := by
  obtain ⟨hs, _, hspec⟩ := @prune_spec d.times d.unreliable d.order now h.toSound
  have hsize := @size_prune d now h.toSound
  obtain ⟨hn, hl, hm⟩ := hd
  have hl' := (hspec other since).mpr ⟨hl, hx⟩
  rw [notMem_record hn] at hm
  obtain ⟨_, _, ⟨he, _⟩ | ⟨oldest, since', hev⟩⟩ := @withRoom_spec _ name hs (hsize.trans h.size)
  case inl =>
    rw [he] at hm
    exact absurd (AList.mem_of_lookup hl') hm
  case inr =>
    have hfull : d.times.size = maxDeparted := h.size.antisymm (hev.full.ge.trans hsize)
    have hyoung {name' since'} (hk : d.times.lookup name' = some since') : ¬Expired now since' :=
      fun hx' => (size_prune_lt h.toSound hk hx').ne (hev.full.trans hfull.symm)
    have ho : other = oldest := by
      by_contra ho
      rw [hev.times] at hm
      exact hm (AList.mem_erase.mpr ⟨ho, AList.mem_of_lookup hl'⟩)
    subst ho
    cases hl'.symm.trans hev.held
    refine ⟨fun hm' => ?_, hfull, hl, rfl, fun name' since' hk => ?_⟩
    · obtain ⟨since', hk⟩ := AList.exists_lookup_of_mem hm'
      exact hev.fresh (AList.mem_of_lookup ((hspec _ _).mpr ⟨hk, hyoung hk⟩))
    · exact hev.le name' since' ((hspec _ _).mpr ⟨hk, hyoung hk⟩)

theorem eq_of_drops {since' : Instant} {other' : Bytes} (h : Bounded d now)
    (hd : d.Drops name now other since) (hx : ¬Expired now since)
    (hd' : d.Drops name now other' since') (hx' : ¬Expired now since') : other' = other := by
  have hev := evicts_of_drops h hd hx
  have hev' := evicts_of_drops h hd' hx'
  have he : since = since' := (hev.le _ _ hev'.held).antisymm (hev'.le _ _ hev.held)
  -- No two records have the same instant.
  have hne : (d.order.map Prod.fst).Nodup :=
    List.pairwise_map.mpr (h.sorted.imp fun hlt => hlt.ne)
  have heq := List.inj_on_of_nodup_map hne (h.current hev'.held) (h.current hev.held) he.symm
  exact (Prod.mk.inj heq).2

theorem drops_of_full (h : Bounded d now) (hn : name ∉ d.times) (hs : d.times.size = maxDeparted)
    (hx : ∀ name' since', d.times.lookup name' = some since' → ¬Expired now since') :
    ∃ other since, d.Drops name now other since := by
  obtain ⟨hsound, _, hspec⟩ := @prune_spec d.times d.unreliable d.order now h.toSound
  have hsize := @size_prune d now h.toSound
  have hsize' : d.times.size ≤ (prune now d.times d.unreliable d.order).times.size :=
    AList.size_le_of_lookup fun hl => (hspec _ _).mpr ⟨hl, hx _ _ hl⟩
  have hn' : name ∉ (prune now d.times d.unreliable d.order).times := by
    intro hm
    obtain ⟨since, hl⟩ := AList.exists_lookup_of_mem hm
    exact hn (AList.mem_of_lookup ((hspec _ _).mp hl).1)
  obtain ⟨_, _, ⟨_, hlt⟩ | ⟨oldest, since, hev⟩⟩ := @withRoom_spec _ name hsound (hsize.trans h.size)
  case inl => exact absurd (hs.ge.trans hsize') (hlt hn').not_ge
  case inr =>
    have hne : oldest ≠ name := by
      rintro rfl
      exact hn' (AList.mem_of_lookup hev.held)
    refine ⟨oldest, since, hne, ((hspec _ _).mp hev.held).1, ?_⟩
    rw [notMem_record hne, hev.times]
    exact fun hm => (AList.mem_erase.mp hm).1 rfl

end Drops

theorem records_exact {ops : List Op} (h : Timely ops) :
    (run ops).times.size ≤ maxDeparted ∧
    (run ops).order.length ≤ 2 * maxDeparted ∧
    (run ops).order.Pairwise (·.1 < ·.1) ∧
    (∀ name since, (run ops).times.lookup name = some since → (since, name) ∈ (run ops).order) ∧
    (∀ name ∈ (run ops).unreliable, name ∈ (run ops).times) ∧
    ∀ op name now, op.recorded = some (name, now) → Timely (ops ++ [op]) →
      (run (ops ++ [op])).times.lookup name = some now ∧
      (run (ops ++ [op])).times = ((run ops).record name now).times ∧
      (∀ other since, (run ops).Drops name now other since → Expired now since ∨
        name ∉ (run ops).times ∧ (run ops).times.size = maxDeparted ∧
        (∀ name' since', (run ops).times.lookup name' = some since' → since ≤ since') ∧
        ∀ other' since', (run ops).Drops name now other' since' → ¬Expired now since' →
          other' = other) ∧
      (name ∉ (run ops).times → (run ops).times.size = maxDeparted →
        (∀ name' since', (run ops).times.lookup name' = some since' → ¬Expired now since') →
          ∃ other since, (run ops).Drops name now other since) := by
  have hnow (recorded) (hm : recorded ∈ ops.filterMap Op.recorded) :
      recorded.2 < ((ops.filterMap Op.recorded).map (·.2)).sum + 1 :=
    Nat.lt_succ_of_le (List.le_sum_of_mem (List.mem_map_of_mem hm))
  have hb := bounded_run h hnow
  refine ⟨hb.size, hb.length, hb.sorted, fun _ _ hl => hb.current hl, hb.unreliable, ?_⟩
  intro op name now hr ht
  have hb : Bounded (run ops) now := by
    refine bounded_run h fun recorded hm => ?_
    rw [Timely, List.filterMap_append] at ht
    exact (List.pairwise_append.mp ht).2.2 recorded hm (name, now) (by simp [hr])
  have he : (run (ops ++ [op])).times = ((run ops).record name now).times := by
    rw [run, List.foldl_append]
    cases op with
    | record name now =>
      cases hr
      rfl
    | recordUnreliable name now =>
      cases hr
      rfl
    | forget name => contradiction
  refine ⟨?_, he, fun other since hd => ?_, drops_of_full hb⟩
  · rw [he, record_eq]
    exact AList.lookup_insert _
  · refine or_iff_not_imp_left.mpr fun hx => ?_
    have hev := evicts_of_drops hb hd hx
    exact ⟨hev.fresh, hev.full, hev.le, fun other' since' => eq_of_drops hb hd hx⟩

section Departures

-- The names depart one after the other, and none is expired while they do.
def departures (n : Nat) : List Op :=
  (List.range n).map fun i => .record (.replicate i 0) (i + 1)

theorem departures_succ (n : Nat) :
    departures (n + 1) = departures n ++ [.record (.replicate n 0) (n + 1)] := by
  simp [departures, List.range_succ]

theorem timely_departures (n : Nat) : Timely (departures n) := by
  simp only [Timely, departures, List.pairwise_filterMap, List.pairwise_map, Op.recorded]
  refine List.pairwise_lt_range.imp fun hlt _ h _ h' => ?_
  cases h
  cases h'
  exact Nat.succ_lt_succ hlt

theorem not_expired_of_lt (h : now < departedRetention) : ¬Expired now since :=
  ((Nat.sub_le now since).trans_lt h).not_ge

theorem run_departures {n : Nat} (hn : n ≤ maxDeparted) :
    (run (departures n)).times.size = n ∧ ∀ name ∈ (run (departures n)).times, name.length < n := by
  induction n
  case zero => exact ⟨rfl, nofun⟩
  case succ n hi =>
    obtain ⟨hs, hl⟩ := hi (Nat.le_of_succ_le hn)
    have ht : (run (departures (n + 1))).times =
        (run (departures n)).times.insert (.replicate n 0) (n + 1) := by
      rw [departures_succ, run, List.foldl_append, ← run]
      have hp : prune (n + 1) (run (departures n)).times (run (departures n)).unreliable
          (run (departures n)).order = run (departures n) := by
        rcases ho : (run (departures n)).order with _ | ⟨⟨since, name⟩, order⟩
        · rw [prune, ← ho]
        · rw [prune, if_pos, ← ho]
          exact Nat.lt_of_not_ge (not_expired_of_lt (hn.trans_lt (by decide)))
      simp only [List.foldl_cons, List.foldl_nil, exec, record, hp]
      rw [if_neg fun h => h.1.not_gt (hs.trans_lt hn)]
    rw [ht]
    constructor
    · rw [AList.size_insert_of_notMem fun hm => ?_, hs]
      simpa using hl _ hm
    · intro name hm
      rcases (AList.mem_insert _).mp hm with rfl | hm
      · simp
      · exact (hl name hm).trans (Nat.lt_succ_self n)

-- At the limit, a further departure drops one of the records, and it is the oldest.
theorem records_exact_of_full :
    ∃ other since, (run (departures maxDeparted)).Drops (.replicate maxDeparted 0)
        (maxDeparted + 1) other since ∧
      ∀ name' since', (run (departures maxDeparted)).times.lookup name' = some since' →
        since ≤ since' := by
  have hx {since} : ¬Expired (maxDeparted + 1) since := not_expired_of_lt (by decide)
  obtain ⟨hs, hl⟩ := run_departures le_rfl
  obtain ⟨-, -, hd, hf⟩ := (records_exact (timely_departures maxDeparted)).2.2.2.2.2 _ _ _ rfl
    (departures_succ maxDeparted ▸ timely_departures (maxDeparted + 1))
  obtain ⟨other, since, ho⟩ := hf (fun hm => by simpa using hl _ hm) hs fun _ _ _ => hx
  exact ⟨other, since, ho, ((hd other since ho).resolve_left hx).2.2.1⟩

end Departures

end Nanocached.Discovery.Departed
