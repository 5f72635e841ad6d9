import Nanocached.ForwardQueue.QueuesTheorems
import Nanocached.Lib.SharedCost

namespace Nanocached

open SharedCost

namespace OwnedForwardedWrite

variable {write : OwnedForwardedWrite} {writes : List OwnedForwardedWrite}

-- What a write is charged for on its own, without a limit to the count.
def size : OwnedForwardedWrite → Nat
  | set key value _          => key.name.length + value.length + forwardEntryOverheadBytes
  | handoffSet key value _ _ => key.name.length + value.length + forwardEntryOverheadBytes
  | delete key               => key.name.length + forwardEntryOverheadBytes
  | handoffDelete key        => key.name.length + forwardEntryOverheadBytes
  | clear (.namespace ns)    => ns.length + forwardEntryOverheadBytes
  | clear .all               => forwardEntryOverheadBytes

theorem size_pos : 0 < write.size := by
  have : 0 < forwardEntryOverheadBytes := by decide
  cases write with
  | clear scope => cases scope <;> simp only [size] <;> omega
  | _           => simp only [size]; omega

theorem entryBytes_eq : write.entryBytes = .ofNat write.size := by
  cases write with
  | clear scope => cases scope <;> simp [entryBytes, size]
  | _           => rfl

-- The sizes of the writes, and the lengths of the different namespaces they refer to.
def total (writes : Multiset OwnedForwardedWrite) : Nat :=
  cost size namespaceAllocation (·.2) writes

theorem batchBytesFrom_eq (writes : List OwnedForwardedWrite) (namespaces : List (Nat × Nat)) :
    batchBytesFrom namespaces writes =
      .ofNat (costFrom size namespaceAllocation (·.2) namespaces.toFinset writes) := by
  induction writes generalizing namespaces
  case nil => simp [batchBytesFrom, costFrom]
  case cons write writes hi =>
    rw [← Multiset.cons_coe, batchBytesFrom]
    cases ha : write.namespaceAllocation
    case none =>
      dsimp only
      rw [hi, costFrom_cons_of_none ha, UInt64.ofNat_add, entryBytes_eq]
    case some allocation =>
      dsimp only
      by_cases hm : allocation ∈ namespaces
      case pos =>
        rw [if_pos hm, hi, costFrom_cons_of_mem ha (List.mem_toFinset.mpr hm), UInt64.ofNat_add,
          entryBytes_eq]
      case neg =>
        rw [if_neg hm, hi, costFrom_cons_of_notMem ha (mt List.mem_toFinset.mp hm),
          UInt64.ofNat_add, UInt64.ofNat_add, entryBytes_eq, List.toFinset_cons]

theorem batchBytes_eq (writes : List OwnedForwardedWrite) :
    batchBytes writes = .ofNat (total writes) := by
  rw [batchBytes, batchBytesFrom_eq, List.toFinset_nil, costFrom_empty, total]

theorem batchBytes_toNat (h : total writes < 2 ^ 64) : (batchBytes writes).toNat = total writes := by
  rw [batchBytes_eq, UInt64.toNat_ofNat_of_lt' h]

theorem total_eq_zero (h : total writes = 0) : writes = [] := by
  by_contra hn
  obtain ⟨write, hm⟩ := List.exists_mem_of_ne_nil _ hn
  have hle : write.size ≤ total writes := own_le_cost hm
  have hpos : 0 < write.size := size_pos
  omega

-- Nothing wraps around as long as the total does not.
theorem total_eq_sum (h : total writes < 2 ^ 64) :
    total writes = (writes.map (·.entryBytes.toNat)).sum +
      ∑ allocation ∈ (writes.filterMap namespaceAllocation).toFinset, allocation.2 := by
  have hs : writes.map (·.entryBytes.toNat) = writes.map size := by
    refine List.map_congr_left fun write hm => ?_
    have hle : write.size ≤ total writes := own_le_cost hm
    rw [entryBytes_eq, UInt64.toNat_ofNat_of_lt' (hle.trans_lt h)]
  rw [hs]
  rfl

end OwnedForwardedWrite

open OwnedForwardedWrite

namespace TargetQueue

variable {queue queue' : TargetQueue} {write : OwnedForwardedWrite}
variable {writes : Multiset OwnedForwardedWrite}

-- The queue is charged for the given writes.
structure Charged (queue : TargetQueue) (writes : Multiset OwnedForwardedWrite) : Prop where
  bytes      : queue.bytes = .ofNat (total writes)
  namespaces : ∀ allocation, queue.namespaces.lookup allocation =
                 if allocation ∈ writes.filterMap namespaceAllocation then
                   some ((writes.filterMap namespaceAllocation).count allocation)
                 else none

theorem Charged.sharers (h : queue.Charged writes) (allocation : Nat × Nat) :
    (queue.namespaces.lookup allocation).getD 0 =
      (writes.filterMap namespaceAllocation).count allocation := by
  rw [h.namespaces]
  split
  case isTrue     => rfl
  case isFalse hm => exact (Multiset.count_eq_zero_of_notMem hm).symm

theorem Charged.charge (h : queue.Charged writes) (write : OwnedForwardedWrite) :
    (queue.charge write).1 = write.entryBytes ∧
      (queue.charge write).2.Charged (write ::ₘ writes) := by
  have hb := h.bytes
  cases ha : write.namespaceAllocation
  case none =>
    simp only [TargetQueue.charge, ha]
    refine ⟨trivial, ?_, ?_⟩
    · rw [total, cost_cons_of_none ha, UInt64.ofNat_add, ← entryBytes_eq, ← total]
      grind
    · rw [Multiset.filterMap_cons_none _ _ ha]
      exact h.namespaces
  case some allocation =>
    simp only [TargetQueue.charge, ha, h.sharers]
    refine ⟨trivial, ?_, fun allocation' => ?_⟩
    · by_cases hm : allocation ∈ writes.filterMap namespaceAllocation
      case pos =>
        rw [if_neg (Multiset.count_ne_zero.mpr hm), total, cost_cons_of_mem ha hm, UInt64.ofNat_add,
          ← entryBytes_eq, ← total]
        grind
      case neg =>
        rw [if_pos (Multiset.count_eq_zero.mpr hm), total, cost_cons_of_notMem ha hm,
          UInt64.ofNat_add, UInt64.ofNat_add, ← entryBytes_eq, ← total]
        grind
    · dsimp only
      rw [AList.lookup_insert_eq_ite, Multiset.filterMap_cons_some _ _ _ ha]
      split
      case isTrue he =>
        subst he
        rw [if_pos (Multiset.mem_cons_self ..), Multiset.count_cons_self]
      case isFalse he =>
        simp only [h.namespaces, Multiset.mem_cons, he, false_or, Multiset.count_cons_of_ne he]

theorem Charged.release (h : queue.Charged (write ::ₘ writes)) :
    (queue.release write write.entryBytes).Charged writes := by
  have hb := h.bytes
  cases ha : write.namespaceAllocation
  case none =>
    simp only [TargetQueue.release, ha]
    rw [total, cost_cons_of_none ha, UInt64.ofNat_add, ← entryBytes_eq, ← total] at hb
    refine ⟨by grind, ?_⟩
    have hn := h.namespaces
    rwa [Multiset.filterMap_cons_none _ _ ha] at hn
  case some allocation =>
    have hl := h.namespaces allocation
    rw [Multiset.filterMap_cons_some _ _ _ ha, if_pos (Multiset.mem_cons_self ..),
      Multiset.count_cons_self] at hl
    have hn {allocation'} (hne : allocation' ≠ allocation) :
        queue.namespaces.lookup allocation' =
          if allocation' ∈ writes.filterMap namespaceAllocation then
            some ((writes.filterMap namespaceAllocation).count allocation')
          else none := by
      have hm : allocation' ∈ allocation ::ₘ writes.filterMap namespaceAllocation ↔
          allocation' ∈ writes.filterMap namespaceAllocation := by simp [hne]
      rw [h.namespaces, Multiset.filterMap_cons_some _ _ _ ha, Multiset.count_cons_of_ne hne]
      exact if_congr hm rfl rfl
    simp only [TargetQueue.release, ha, hl, Nat.add_sub_cancel]
    by_cases hm : allocation ∈ writes.filterMap namespaceAllocation
    case neg =>
      -- The last one to refer to the namespace.
      rw [if_pos (Multiset.count_eq_zero.mpr hm)]
      rw [total, cost_cons_of_notMem ha hm, UInt64.ofNat_add, UInt64.ofNat_add, ← entryBytes_eq,
        ← total] at hb
      refine ⟨by grind, fun allocation' => ?_⟩
      dsimp only
      rw [AList.lookup_erase_eq_ite]
      split
      case isTrue he  => rw [he, if_neg hm]
      case isFalse he => exact hn he
    case pos =>
      rw [if_neg (Multiset.count_ne_zero.mpr hm)]
      rw [total, cost_cons_of_mem ha hm, UInt64.ofNat_add, ← entryBytes_eq, ← total] at hb
      refine ⟨by grind, fun allocation' => ?_⟩
      dsimp only
      rw [AList.lookup_insert_eq_ite]
      split
      case isTrue he  => rw [he, if_pos hm]
      case isFalse he => exact hn he

-- The call of `release` that an operation makes, if it makes one.
def releases (queue : TargetQueue) : Op → Option (TargetQueue × OwnedForwardedWrite × UInt64)
  | .push write =>
    let (bytes, queue) := queue.charge write
    match write.coalescingKey.bind queue.waiting with
    | some (seq, replaced) =>
      some ({ queue with ops := queue.ops.replace seq ⟨write, bytes⟩ }, replaced.write, replaced.bytes)
    | none => none
  | .pop =>
    match queue.ops.popFirst with
    | some ((_, queued), ops) => some ({ queue with ops := ops }, queued.write, queued.bytes)
    | none                    => none

-- One of the subtractions of `release` goes below zero.
def Underflows (queue : TargetQueue) (write : OwnedForwardedWrite) (bytes : UInt64) : Prop :=
  queue.bytes < bytes ∨
    ∃ allocation sharers, write.namespaceAllocation = some allocation ∧
      queue.namespaces.lookup allocation = some sharers ∧
      (sharers < 1 ∨ sharers = 1 ∧ queue.bytes - bytes < .ofNat allocation.2)

theorem Charged.not_underflows (h : queue.Charged (write ::ₘ writes))
    (hlt : total (write ::ₘ writes) < 2 ^ 64) : ¬queue.Underflows write write.entryBytes := by
  have hb : queue.bytes.toNat = total (write ::ₘ writes) := by
    rw [h.bytes, UInt64.toNat_ofNat_of_lt' hlt]
  have hown : write.size ≤ total (write ::ₘ writes) := own_le_cost (Multiset.mem_cons_self ..)
  have he : write.entryBytes.toNat = write.size := by
    rw [entryBytes_eq, UInt64.toNat_ofNat_of_lt' (hown.trans_lt hlt)]
  have hle : write.entryBytes ≤ queue.bytes := by
    rw [UInt64.le_iff_toNat_le, hb, he]
    exact hown
  rintro (hu | ⟨allocation, sharers, ha, hl, hu⟩)
  case inl => exact absurd hu (UInt64.not_lt.mpr hle)
  case inr =>
    rw [h.namespaces, Multiset.filterMap_cons_some _ _ _ ha, if_pos (Multiset.mem_cons_self ..),
      Multiset.count_cons_self] at hl
    cases hl
    rcases hu with hu | ⟨hone, hu⟩
    case inl => omega
    case inr =>
      -- The last one to refer to the namespace is charged for it.
      have hm : allocation ∉ writes.filterMap namespaceAllocation :=
        Multiset.count_eq_zero.mp (Nat.succ.inj hone)
      have ht : total (write ::ₘ writes) = write.size + allocation.2 + total writes :=
        cost_cons_of_notMem ha hm
      rw [UInt64.lt_iff_toNat_lt, UInt64.toNat_sub_of_le _ _ hle, hb, he,
        UInt64.toNat_ofNat_of_lt' (show allocation.2 < 2 ^ 64 by omega)] at hu
      omega

structure Accounted (queue : TargetQueue) : Prop where
  wf      : queue.WF
  charged : queue.Charged queue.writes
  entries : ∀ e ∈ queue.ops.entries, e.2.bytes = e.2.write.entryBytes

theorem accounted_new : new.Accounted where
  wf      := wf_new
  charged := ⟨rfl, fun _ => rfl⟩
  entries := by simp [new, SortedMap.empty]

theorem charge_ops (queue : TargetQueue) (write : OwnedForwardedWrite) :
    (queue.charge write).2.ops = queue.ops ∧ (queue.charge write).2.nextSeq = queue.nextSeq ∧
      (queue.charge write).2.waiting = queue.waiting := by
  obtain ⟨_, _, _, he⟩ := queue.charge_eq write
  rw [he]
  exact ⟨rfl, rfl, rfl⟩

theorem release_ops (queue : TargetQueue) (write : OwnedForwardedWrite) (bytes : UInt64) :
    (queue.release write bytes).ops = queue.ops := by
  obtain ⟨_, _, he⟩ := queue.release_eq write bytes
  rw [he]

theorem waiting_eq_some {key : Key} {seq : Nat} {queued : Queued}
    (h : queue.waiting key = some (seq, queued)) :
    ∃ l₁ l₂, queue.ops.entries = l₁ ++ (seq, queued) :: l₂ := by
  obtain ⟨_, _, hg⟩ := Option.bind_eq_some_iff.mp h
  obtain ⟨_, hg, he⟩ := Option.bind_eq_some_iff.mp hg
  cases he
  exact SortedMap.get?_eq_some_iff.mp hg

theorem push_of_releases {released : OwnedForwardedWrite} {bytes : UInt64}
    (h : queue.releases (.push write) = some (queue', released, bytes)) :
    queue.push write = queue'.release released bytes ∧
      ∃ seq replaced l₁ l₂, queue.ops.entries = l₁ ++ (seq, replaced) :: l₂ ∧
        released = replaced.write ∧ bytes = replaced.bytes ∧
        queue' = { (queue.charge write).2 with
          ops := queue.ops.replace seq ⟨write, (queue.charge write).1⟩ } := by
  obtain ⟨ho, _, hwait⟩ := queue.charge_ops write
  simp only [releases, hwait, ho] at h
  split at h
  case h_2 => contradiction
  case h_1 seq replaced hw =>
    obtain ⟨key, hk, hw⟩ := Option.bind_eq_some_iff.mp hw
    cases h
    obtain ⟨l₁, l₂, he⟩ := waiting_eq_some hw
    refine ⟨?_, seq, replaced, l₁, l₂, he, rfl, rfl, rfl⟩
    simp only [push, hk, hwait, hw, ho]

theorem push_of_not_releases (h : queue.releases (.push write) = none) :
    ∃ slots, queue.push write = { (queue.charge write).2 with
      ops     := queue.ops.insert queue.nextSeq ⟨write, (queue.charge write).1⟩
      nextSeq := queue.nextSeq + 1
      slots   := slots } := by
  obtain ⟨ho, hn, hwait⟩ := queue.charge_ops write
  simp only [releases, hwait] at h
  split at h
  case h_1 => contradiction
  case h_2 hw =>
    cases hk : write.coalescingKey
    case none =>
      simp only [push, hk, append, ho, hn]
      exact ⟨_, rfl⟩
    case some key =>
      rw [hk] at hw
      have hw : queue.waiting key = none := hw
      simp only [push, hk, append, hwait, hw, ho, hn]
      exact ⟨_, rfl⟩

theorem pop_of_releases {released : OwnedForwardedWrite} {bytes : UInt64}
    (h : queue.releases .pop = some (queue', released, bytes)) :
    ∃ seq slots, queue.ops.entries = (seq, ⟨released, bytes⟩) :: queue'.ops.entries ∧
      queue'.bytes = queue.bytes ∧ queue'.namespaces = queue.namespaces ∧
      queue.pop = some (released, { queue'.release released bytes with slots := slots }) := by
  simp only [releases] at h
  split at h
  case h_2 => contradiction
  case h_1 seq queued ops hpop =>
    cases h
    have he := SortedMap.popFirst_eq_some_iff.mp hpop
    simp only [pop, hpop]
    split
    case h_1 => exact ⟨seq, _, he, trivial, trivial, rfl⟩
    case h_2 =>
      split
      case isTrue  => exact ⟨seq, _, he, trivial, trivial, rfl⟩
      case isFalse => exact ⟨seq, _, he, trivial, trivial, rfl⟩

-- The writes that an operation adds to those in the queue.
def Op.added : Op → Multiset OwnedForwardedWrite
  | .push write => {write}
  | .pop        => 0

-- A replaced write is charged for together with the one that replaces it.
theorem Accounted.releases {op : Op} {released : OwnedForwardedWrite} {bytes : UInt64}
    (h : queue.Accounted) (hr : queue.releases op = some (queue', released, bytes)) :
    bytes = released.entryBytes ∧ (queue.exec op).2.Accounted ∧
      op.added + queue.writes = released ::ₘ (queue.exec op).2.writes ∧
      queue'.Charged (released ::ₘ (queue.exec op).2.writes) := by
  cases op
  case push write =>
    obtain ⟨hp, seq, replaced, l₁, l₂, he, rfl, rfl, hq⟩ := push_of_releases hr
    obtain ⟨hc, hcharged⟩ := h.charged.charge write
    have hb : replaced.bytes = replaced.write.entryBytes := h.entries (seq, replaced) (by simp [he])
    have he' : (queue.push write).ops.entries =
        l₁ ++ (seq, ⟨write, (queue.charge write).1⟩) :: l₂ := by
      rw [hp, release_ops, hq]
      exact SortedMap.entries_replace he
    have hw : write ::ₘ queue.writes = replaced.write ::ₘ (queue.push write).writes := by
      simp only [writes, he, he', List.map_append, List.map_cons, ← Multiset.coe_add,
        ← Multiset.cons_coe, Multiset.add_cons]
      exact Multiset.cons_swap ..
    have hcharged' : queue'.Charged (replaced.write ::ₘ (queue.push write).writes) := by
      rw [← hw, hq]
      exact ⟨hcharged.bytes, hcharged.namespaces⟩
    have hrel := hcharged'.release
    rw [← hb, ← hp] at hrel
    refine ⟨hb, ⟨h.wf.pushed (h.wf.push write), hrel, fun e hm => ?_⟩, hw, hcharged'⟩
    have hentries := h.entries
    simp only [he, List.mem_append, List.mem_cons] at hentries
    rcases List.mem_append.mp (he' ▸ hm) with hm | hm
    · exact hentries e (.inl hm)
    · rcases List.mem_cons.mp hm with rfl | hm
      · exact hc
      · exact hentries e (.inr (.inr hm))
  case pop =>
    obtain ⟨seq, slots, he, hbytes, hns, hp⟩ := pop_of_releases hr
    obtain ⟨_, _, hpopped⟩ := h.wf.pop hp
    have hb : bytes = released.entryBytes := h.entries (seq, ⟨released, bytes⟩) (he ▸ .head _)
    have hw : queue.writes = released :: (queue'.release released bytes).writes := by
      simp only [writes, release_ops, he, List.map_cons]
    have hcharged : queue'.Charged (released ::ₘ (queue'.release released bytes).writes) := by
      rw [Multiset.cons_coe, ← hw]
      exact ⟨hbytes ▸ h.charged.bytes, hns ▸ h.charged.namespaces⟩
    have hrel := hcharged.release
    simp only [exec, hp]
    refine ⟨hb, ⟨h.wf.popped hpopped, ?_, fun e hm => ?_⟩, ?_, hcharged⟩
    · rw [← hb] at hrel
      exact ⟨hrel.bytes, hrel.namespaces⟩
    · refine h.entries e (he ▸ .tail _ ?_)
      rwa [release_ops] at hm
    · rw [hw]
      exact Multiset.zero_add _

theorem Accounted.append (h : queue.Accounted) (hr : queue.releases (.push write) = none) :
    (queue.push write).Accounted ∧ write ::ₘ queue.writes = (queue.push write).writes := by
  obtain ⟨slots, hp⟩ := push_of_not_releases hr
  obtain ⟨hc, hcharged⟩ := h.charged.charge write
  have he : (queue.push write).ops.entries =
      queue.ops.entries ++ [(queue.nextSeq, ⟨write, (queue.charge write).1⟩)] := by
    rw [hp]
    exact SortedMap.entries_insert_of_lt h.wf.fresh
  have hw : write ::ₘ queue.writes = ((queue.push write).writes : Multiset _) := by
    simp only [writes, he, List.map_append, List.map_cons, List.map_nil, ← Multiset.coe_add,
      Multiset.coe_singleton, ← Multiset.singleton_add, Multiset.add_comm]
  refine ⟨⟨h.wf.pushed (h.wf.push write), ?_, fun e hm => ?_⟩, hw⟩
  · rw [← hw, hp]
    exact ⟨hcharged.bytes, hcharged.namespaces⟩
  · rcases List.mem_append.mp (he ▸ hm) with hm | hm
    · exact h.entries e hm
    · cases List.mem_singleton.mp hm
      exact hc

theorem Accounted.exec (h : queue.Accounted) (op : Op) :
    (queue.exec op).2.Accounted ∧ ↑(queue.exec op).2.writes ≤ op.added + ↑queue.writes := by
  cases hr : queue.releases op
  case some released =>
    obtain ⟨_, ha, hw, _⟩ := h.releases hr
    exact ⟨ha, (Multiset.le_cons_self ..).trans hw.ge⟩
  case none =>
    cases op
    case push write =>
      obtain ⟨ha, hw⟩ := h.append hr
      exact ⟨ha, hw.ge⟩
    case pop =>
      have hp : queue.ops.popFirst = none := by
        by_contra hne
        obtain ⟨⟨⟨seq, queued⟩, ops⟩, hp⟩ := Option.ne_none_iff_exists'.mp hne
        simp [TargetQueue.releases, hp] at hr
      simp only [TargetQueue.exec, pop, hp]
      exact ⟨h, (Multiset.zero_add _).ge⟩

theorem Accounted.pushAll (h : queue.Accounted) (writes : List OwnedForwardedWrite) :
    (writes.foldl push queue).Accounted ∧
      (writes.foldl push queue).writes ≤ (queue.writes + ↑writes : Multiset OwnedForwardedWrite) := by
  induction writes generalizing queue
  case nil => exact ⟨h, (Multiset.add_zero _).ge⟩
  case cons write writes hi =>
    obtain ⟨hp, hle⟩ := h.exec (.push write)
    obtain ⟨ha, hle'⟩ := hi hp
    refine ⟨ha, hle'.trans ?_⟩
    calc (queue.push write).writes + (writes : Multiset OwnedForwardedWrite)
        ≤ {write} + queue.writes + writes := add_le_add_left hle _
      _ = queue.writes + ↑(write :: writes) := by
        rw [← Multiset.cons_coe, ← Multiset.singleton_add, add_right_comm, add_comm, ← add_assoc]

theorem Accounted.total_pushAll (h : queue.Accounted) (writes : List OwnedForwardedWrite) :
    total (writes.foldl push queue).writes ≤ total queue.writes + total writes :=
  (cost_mono (h.pushAll writes).2).trans cost_add_le

theorem Accounted.execAll (h : queue.Accounted) (ops : List Op) :
    (queue.execAll ops).2.Accounted := by
  induction ops generalizing queue
  case nil            => exact h
  case cons op ops hi => exact hi (h.exec op).1

theorem Accounted.bytes_le (h : queue.Accounted) : queue.bytes.toNat ≤ total queue.writes := by
  rw [h.charged.bytes, UInt64.toNat_ofNat']
  exact Nat.mod_le ..

theorem Accounted.bytes_eq (h : queue.Accounted) (hlt : total queue.writes < 2 ^ 64) :
    queue.bytes.toNat = total queue.writes := by
  rw [h.charged.bytes, UInt64.toNat_ofNat_of_lt' hlt]

theorem Accounted.bytes_eq_zero (h : queue.Accounted) (hlt : total queue.writes < 2 ^ 64) :
    queue.bytes = 0 ↔ queue.writes = [] := by
  constructor
  case mp =>
    intro hb
    refine total_eq_zero ?_
    rw [← h.bytes_eq hlt, hb]
    rfl
  case mpr =>
    intro hw
    rw [h.charged.bytes, hw]
    rfl

end TargetQueue
end Nanocached
