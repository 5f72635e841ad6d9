import Nanocached.ForwardQueue.Queues
import Nanocached.ForwardQueue.Theorems

namespace Nanocached

namespace TargetQueue

variable {queue queue' : TargetQueue} {write : OwnedForwardedWrite} {n seq : Nat}

-- All writes that are or will be queued come after this place in the queue.
structure After (queue : TargetQueue) (n : Nat) : Prop where
  nextSeq : n < queue.nextSeq
  entries : ∀ e ∈ queue.ops.entries, n < e.1

theorem WF.after_push (h : queue.WF) (ha : queue.After n) (write : OwnedForwardedWrite) :
    (queue.push write).After n := by
  cases h.push write with
  | @replace _ seq _ replaced _ _ _ _ he he' hn _ =>
    refine ⟨hn ▸ ha.nextSeq, fun e hm => ?_⟩
    have ha := ha.entries
    simp only [he, he', List.mem_append, List.mem_cons] at ha hm
    rcases hm with hm | rfl | hm
    · exact ha e (.inl hm)
    · exact ha (seq, replaced) (.inr (.inl rfl))
    · exact ha e (.inr (.inr hm))
  | append he' hn _ =>
    refine ⟨hn ▸ Nat.lt_succ_of_lt ha.nextSeq, fun e hm => ?_⟩
    rcases List.mem_append.mp (he' ▸ hm) with hm | hm
    · exact ha.entries e hm
    · cases List.mem_singleton.mp hm
      exact ha.nextSeq

theorem WF.pushAll (h : queue.WF) (writes : List OwnedForwardedWrite) :
    (writes.foldl TargetQueue.push queue).WF ∧
    ∀ n, queue.After n → (writes.foldl TargetQueue.push queue).After n := by
  induction writes generalizing queue
  case nil => exact ⟨h, fun _ ha => ha⟩
  case cons write writes hi =>
    have ⟨hw, ha⟩ := hi (h.pushed (h.push write))
    exact ⟨hw, fun n hn => ha n (h.after_push hn write)⟩

-- A write may be replaced by a newer one, but its place in the queue is kept.
theorem WF.mem_pushAll {queued : Queued} (h : queue.WF) (writes : List OwnedForwardedWrite)
    (hm : (seq, queued) ∈ queue.ops.entries) :
    ∃ queued', (seq, queued') ∈ (writes.foldl TargetQueue.push queue).ops.entries := by
  induction writes generalizing queue queued
  case nil => exact ⟨queued, hm⟩
  case cons write writes hi =>
    have hp := h.push write
    suffices ∃ queued', (seq, queued') ∈ (queue.push write).ops.entries from
      this.elim fun _ hm => hi (h.pushed hp) hm
    cases hp with
    | replace _ _ he he' =>
      simp only [he, he', List.mem_append, List.mem_cons, Prod.mk.injEq] at hm ⊢
      rcases hm with hm | ⟨rfl, rfl⟩ | hm
      · exact ⟨queued, .inl hm⟩
      · exact ⟨_, .inr (.inl ⟨rfl, rfl⟩)⟩
      · exact ⟨queued, .inr (.inr hm)⟩
    | append he' => exact ⟨queued, he' ▸ List.mem_append_left _ hm⟩

theorem Popped.after {charged : UInt64} (h : queue.WF)
    (hp : Popped queue write queue' seq charged) : queue'.After seq where
  nextSeq := hp.nextSeq ▸ h.fresh (seq, ⟨write, charged⟩) (hp.entries ▸ .head _)
  entries := by
    have he : queue.ops.entries = [] ++ (seq, ⟨write, charged⟩) :: queue'.ops.entries := hp.entries
    exact (SortedMap.lt_of_append_cons he).right

theorem Popped.after_of_after {charged : UInt64} (hp : Popped queue write queue' seq charged)
    (ha : queue.After n) : queue'.After n ∧ n < seq where
  left  := ⟨hp.nextSeq ▸ ha.nextSeq, fun e hm => ha.entries e (hp.entries ▸ .tail _ hm)⟩
  right := ha.entries (seq, ⟨write, charged⟩) (hp.entries ▸ .head _)

end TargetQueue

namespace ForwardQueues

-- The drainers of a queue, be it that they run or that they are being handed over.
def holders (s : ForwardQueues) (id : Nat) : Nat :=
  s.channel.count id + s.waiters.count id + (s.drainers.map Drainer.id).count id

def draining (s : ForwardQueues) (id : Nat) : Bool :=
  (s.targets.lookup id).any (·.draining)

-- The first write left its queue earlier, and was queued before the second one.
def Sent.Before (a b : Sent) : Prop :=
  a.id = b.id → a.epoch < b.epoch ∨ (a.epoch = b.epoch ∧ a.seq < b.seq)

-- A queue has a drainer exactly if it is flagged. There may be one drainer that is in between: it
-- has been or will be handed over in the same step.
structure WF (s : ForwardQueues) (inBetween : Option Nat) : Prop where
  holders : ∀ id, s.holders id + (if inBetween = some id then 1 else 0) =
              if s.draining id then 1 else 0
  queues  : ∀ {id entry}, s.targets.lookup id = some entry → entry.queue.WF
  waiting : ∀ p ∈ s.waiting, p.woken = false → s.draining p.id = true
  epochs  : ∀ {id entry}, s.targets.lookup id = some entry → entry.epoch < s.created
  created : ∀ x ∈ s.sent, x.epoch < s.created
  after   : ∀ x ∈ s.sent, ∀ {entry}, s.targets.lookup x.id = some entry →
              x.epoch < entry.epoch ∨ (x.epoch = entry.epoch ∧ entry.queue.After x.seq)
  sorted  : s.sent.Pairwise Sent.Before

variable {s s' : ForwardQueues} {id id' : Nat} {inBetween : Option Nat} {entry : Entry}
variable {result : Option OwnedForwardedWrite} {writes : List OwnedForwardedWrite}

theorem WF.notifyWaiters (h : s.WF inBetween) : s.notifyWaiters.WF inBetween where
  holders := h.holders
  queues  := h.queues
  waiting := by
    intro p hm hw
    have ⟨_, _, he⟩ := List.mem_map.mp hm
    subst he
    contradiction
  epochs  := h.epochs
  created := h.created
  after   := h.after
  sorted  := h.sorted

theorem wf_new : new.WF none where
  holders := by simp [new, ForwardQueues.holders, draining]
  queues  := by simp [new]
  waiting := by simp [new]
  epochs  := by simp [new]
  created := by simp [new]
  after   := by simp [new]
  sorted  := .nil

@[simp]
theorem draining_insert : { s with targets := s.targets.insert id entry : ForwardQueues }.draining id' =
    if id' = id then entry.draining else s.draining id' := by
  simp only [draining, AList.lookup_insert_eq_ite]
  split <;> rfl

@[simp]
theorem draining_erase : { s with targets := s.targets.erase id : ForwardQueues }.draining id' =
    if id' = id then false else s.draining id' := by
  simp only [draining, AList.lookup_erase_eq_ite]
  split <;> rfl

-- The entry of the one queue changes, in a way that keeps the order of the writes.
theorem WF.insert {inBetween' : Option Nat} {created : Nat} (h : s.WF inBetween)
    (hh : ∀ id', s.holders id' + (if inBetween' = some id' then 1 else 0) =
      if (if id' = id then entry.draining else s.draining id') then 1 else 0)
    (hq : entry.queue.WF)
    (hw : ∀ p ∈ s.waiting, p.woken = false → p.id = id → entry.draining = true)
    (hc : s.created ≤ created) (he : entry.epoch < created)
    (ha : ∀ x ∈ s.sent, x.id = id →
      x.epoch < entry.epoch ∨ (x.epoch = entry.epoch ∧ entry.queue.After x.seq)) :
    { s with targets := s.targets.insert id entry, created := created : ForwardQueues }.WF
      inBetween' := by
  have hdr : ∀ id', { s with targets := s.targets.insert id entry, created := created :
      ForwardQueues }.draining id' = if id' = id then entry.draining else s.draining id' :=
    fun id' => draining_insert
  constructor
  case holders =>
    intro id'
    rw [hdr]
    exact hh id'
  case queues => exact fun hl => AList.of_lookup_insert hl hq h.queues
  case waiting =>
    intro p hm hwoken
    rw [hdr]
    split
    case isTrue hid => exact hw p hm hwoken hid
    case isFalse    => exact h.waiting p hm hwoken
  case epochs =>
    exact fun hl => AList.of_lookup_insert hl he fun hl => Nat.lt_of_lt_of_le (h.epochs hl) hc
  case created => exact fun x hx => Nat.lt_of_lt_of_le (h.created x hx) hc
  case after =>
    intro x hx entry' hl
    rw [AList.lookup_insert_eq_ite] at hl
    split at hl
    case isTrue hid =>
      cases hl
      exact ha x hx hid
    case isFalse => exact h.after x hx hl
  case sorted => exact h.sorted

theorem WF.tryPush {result : Option Nat} (h : s.WF none)
    (he : s.tryPush id writes = some (result, s')) : s'.WF result := by
  unfold ForwardQueues.tryPush at he
  dsimp only at he
  split at he
  case isFalse => contradiction
  case isTrue =>
    have hh := h.holders
    cases hl : s.targets.lookup id
    case none =>
      have hdr : s.draining id = false := by simp [draining, hl]
      rw [hl] at he
      cases he
      have hw := (TargetQueue.wf_new.pushAll writes).left
      refine h.insert (fun id' => ?_) hw (fun _ _ _ _ => rfl) (Nat.le_succ _) (Nat.lt_succ_self _) ?_
      · have hh := hh id'
        by_cases hid : id' = id
        · subst hid
          simpa [hdr] using hh
        · simpa [hid, Ne.symm hid] using hh
      · exact fun x hx _ => .inl (h.created x hx)
    case some entry =>
      have hdr : s.draining id = entry.draining := by simp [draining, hl]
      rw [hl] at he
      cases he
      have ⟨hw, ha⟩ := (h.queues hl).pushAll writes
      have hepoch : entry.epoch < s.created := h.epochs hl
      refine h.insert (fun id' => ?_) hw (fun _ _ _ _ => rfl) (Nat.le_refl _) hepoch ?_
      · have hh := hh id'
        by_cases hid : id' = id
        · subst hid
          cases hd : entry.draining <;> simpa [hdr, hd] using hh
        · cases hd : entry.draining <;> simpa [hid, Ne.symm hid, hd] using hh
      · intro x hx hid
        have hl : s.targets.lookup x.id = some entry := hid ▸ hl
        exact (h.after x hx hl).imp_right fun ⟨he, hx⟩ => ⟨he, ha _ hx⟩

theorem WF.holders_of_gone (h : s.WF inBetween) (hi : ∀ id', inBetween = some id' → id' = id)
    (hd : s.draining id = true → inBetween = some id) (id' : Nat) :
    s.holders id' = if (if id' = id then false else s.draining id') then 1 else 0 := by
  have hh := h.holders id'
  by_cases hid : id' = id
  case pos =>
    subst hid
    cases hdr : s.draining id'
    case false =>
      simp only [hdr] at hh
      simp_all
    case true =>
      simp only [hdr, hd hdr] at hh
      simp_all
  case neg =>
    have hne : inBetween ≠ some id' := fun he => hid (hi id' he)
    simpa [hid, hne] using hh

-- A queue is taken out of the table, and its drainer is gone.
theorem WF.erase (h : s.WF inBetween) (hi : ∀ id', inBetween = some id' → id' = id)
    (hd : s.draining id = true → inBetween = some id) :
    { s with targets := s.targets.erase id : ForwardQueues }.notifyWaiters.WF none where
  holders := by
    intro id'
    have hdr : { s with targets := s.targets.erase id : ForwardQueues }.notifyWaiters.draining id' =
        if id' = id then false else s.draining id' := draining_erase
    rw [hdr]
    exact h.holders_of_gone hi hd id'
  queues hl := h.queues (AList.lookup_erase_eq_some.mp hl).2
  waiting := by
    intro p hm hw
    have ⟨_, _, he⟩ := List.mem_map.mp hm
    subst he
    contradiction
  epochs hl := h.epochs (AList.lookup_erase_eq_some.mp hl).2
  created := h.created
  after x hx _ hl := h.after x hx (AList.lookup_erase_eq_some.mp hl).2
  sorted := h.sorted

theorem WF.deactivate (h : s.WF inBetween) (hi : ∀ id', inBetween = some id' → id' = id)
    (hd : s.draining id = true → inBetween = some id) : (s.deactivate id).WF none := by
  unfold ForwardQueues.deactivate
  split
  case _ hl =>
    have hdr : s.draining id = false := by simp [draining, hl]
    have hn : inBetween = none := by
      by_contra hn
      have ⟨id', hid⟩ := Option.ne_none_iff_exists'.mp hn
      cases hi id' hid
      have hh := h.holders id
      simp [hid, hdr] at hh
    exact hn ▸ h.notifyWaiters
  case _ entry hl =>
    split
    case isTrue  => exact h.erase hi hd
    case isFalse =>
      have hwoken : ∀ p ∈ s.notifyWaiters.waiting, ¬p.woken = false := by
        simp [ForwardQueues.notifyWaiters]
      have hq : entry.queue.WF := h.queues hl
      have hepoch : entry.epoch < s.created := h.epochs hl
      have hafter : ∀ x ∈ s.sent, x.id = id →
          x.epoch < entry.epoch ∨ (x.epoch = entry.epoch ∧ entry.queue.After x.seq) :=
        fun x hx hid => h.after x hx (hid ▸ hl)
      exact h.notifyWaiters.insert (h.holders_of_gone hi hd) hq
        (fun p hm hf _ => absurd hf (hwoken p hm)) (Nat.le_refl _) hepoch hafter

theorem WF.deactivate_drainer (h : s.WF (some id)) : (s.deactivate id).WF none :=
  h.deactivate (fun _ he => (Option.some.inj he).symm) fun _ => rfl

-- A drainer changes hands, or a push gives up.
theorem WF.of_holders {inBetween' : Option Nat} (h : s.WF inBetween)
    (ht : s'.targets = s.targets) (hw : s'.waiting ⊆ s.waiting) (hc : s'.created = s.created)
    (hs : s'.sent = s.sent)
    (hh : ∀ id, s'.holders id + (if inBetween' = some id then 1 else 0) =
      s.holders id + (if inBetween = some id then 1 else 0)) : s'.WF inBetween' := by
  have hd : ∀ id, s'.draining id = s.draining id := fun id => by rw [draining, draining, ht]
  constructor
  case holders => exact fun id => by rw [hh, h.holders, hd]
  case queues  => rw [ht]; exact h.queues
  case waiting => exact fun p hm hf => hd p.id ▸ h.waiting p (hw hm) hf
  case epochs  => rw [ht, hc]; exact h.epochs
  case created => rw [hs, hc]; exact h.created
  case after   => rw [hs, ht]; exact h.after
  case sorted  => rw [hs]; exact h.sorted

theorem WF.add_channel (h : s.WF (some id)) :
    { s with channel := s.channel ++ [id] : ForwardQueues }.WF none := by
  refine h.of_holders rfl (List.Subset.refl _) rfl rfl fun id' => ?_
  simp only [ForwardQueues.holders, List.count_append, List.count_singleton, beq_iff_eq,
    Option.some.injEq, reduceCtorEq, if_false]
  omega

theorem WF.handOver {handover : Handover} (h : s.WF (some id))
    (he : s.handOver id handover = some s') : s'.WF none := by
  cases handover
  case delivered =>
    simp only [ForwardQueues.handOver] at he
    split at he
    case isFalse => contradiction
    case isTrue =>
      cases he
      exact h.add_channel
  case waiter =>
    simp only [ForwardQueues.handOver] at he
    split at he
    case isFalse => contradiction
    case isTrue =>
      cases he
      refine h.of_holders rfl (List.Subset.refl _) rfl rfl fun id' => ?_
      by_cases hid : id = id'
      · subst hid
        simp [ForwardQueues.holders]
        omega
      · simp [ForwardQueues.holders, hid]
  case refused =>
    simp only [ForwardQueues.handOver] at he
    split at he
    case isTrue  => contradiction
    case isFalse =>
      cases he
      exact h.deactivate_drainer

-- A push only waits for the drainer of the queue.
theorem draining_of_tryPush_none (h : s.tryPush id writes = none) : s.draining id = true := by
  unfold tryPush at h
  dsimp only at h
  split at h
  case isTrue  => contradiction
  case isFalse hn =>
    unfold draining
    cases hl : s.targets.lookup id <;> simp_all

theorem WF.enqueueForwards {handover : Handover}
    (h : s.WF none) (he : s.enqueueForwards id writes handover = some s') : s'.WF none := by
  unfold ForwardQueues.enqueueForwards at he
  split at he
  case _ hp =>
    cases he
    refine ⟨h.holders, h.queues, ?_, h.epochs, h.created, h.after, h.sorted⟩
    intro p hm hf
    rcases List.mem_append.mp hm with hm | hm
    · exact h.waiting p hm hf
    · cases List.mem_singleton.mp hm
      exact (draining_of_tryPush_none hp :)
  case _ hp =>
    cases he
    exact h.tryPush hp
  case _ hp => exact (h.tryPush hp).handOver he

theorem WF.sent_append {x : Sent} (h : s.WF inBetween) (hc : x.epoch < s.created)
    (ha : ∀ {entry}, s.targets.lookup x.id = some entry →
      x.epoch < entry.epoch ∨ (x.epoch = entry.epoch ∧ entry.queue.After x.seq))
    (hb : ∀ y ∈ s.sent, y.Before x) :
    { s with sent := s.sent ++ [x] : ForwardQueues }.WF inBetween where
  holders := h.holders
  queues  := h.queues
  waiting := h.waiting
  epochs  := h.epochs
  created := by
    intro y hy
    rcases List.mem_append.mp hy with hy | hy
    · exact h.created y hy
    · exact List.mem_singleton.mp hy ▸ hc
  after := by
    intro y hy entry hl
    rcases List.mem_append.mp hy with hy | hy
    · exact h.after y hy hl
    · cases List.mem_singleton.mp hy
      exact ha hl
  sorted := by
    refine List.pairwise_append.mpr ⟨h.sorted, List.pairwise_singleton .., fun y hy z hz => ?_⟩
    exact List.mem_singleton.mp hz ▸ hb y hy

-- The drainer of a queue finds it in the table.
theorem WF.lookup_of_inBetween (h : s.WF (some id)) :
    ∃ entry, s.targets.lookup id = some entry ∧ entry.draining = true := by
  have hh := h.holders id
  have hd : s.draining id = true := by
    by_contra hn
    simp [hn] at hh
  exact (Option.any_eq_true ..).mp hd

theorem WF.next_none (h : s.WF (some id)) (he : s.next id = (none, s')) :
    s'.WF none ∧ s'.draining id = false := by
  have ⟨entry, hl, _⟩ := h.lookup_of_inBetween
  unfold ForwardQueues.next at he
  rw [hl] at he
  dsimp only at he
  split at he
  · cases he
  · cases he
    refine ⟨h.erase (fun id' he => (Option.some.inj he).symm) fun _ => rfl, ?_⟩
    exact draining_erase.trans (if_pos rfl)

theorem next_eq_some {write : OwnedForwardedWrite} (he : s.next id = (some write, s')) :
    ∃ entry seq queued ops queue, s.targets.lookup id = some entry ∧
      entry.queue.ops.popFirst = some ((seq, queued), ops) ∧
      entry.queue.pop = some (write, queue) ∧
      s' = { s with
        targets := s.targets.insert id { entry with queue := queue }
        sent    := s.sent ++ [⟨id, entry.epoch, seq, write⟩] : ForwardQueues }.notifyWaiters := by
  unfold next at he
  split at he
  case _ => cases he
  case _ entry hl =>
    split at he
    case h_2 => cases he
    case h_1 hfirst hpop =>
      cases he
      exact ⟨entry, _, _, _, _, hl, hfirst, hpop, rfl⟩

theorem WF.next_eq_some {write : OwnedForwardedWrite} (h : s.WF inBetween)
    (he : s.next id = (some write, s')) :
    ∃ entry seq charged queue, s.targets.lookup id = some entry ∧
      TargetQueue.Popped entry.queue write queue seq charged ∧
      s' = { s with
        targets := s.targets.insert id { entry with queue := queue }
        sent    := s.sent ++ [⟨id, entry.epoch, seq, write⟩] : ForwardQueues }.notifyWaiters := by
  have ⟨entry, seq, _, _, queue, hl, hfirst, hpop, he⟩ := ForwardQueues.next_eq_some he
  have ⟨seq', charged, hp⟩ := (h.queues hl).pop hpop
  have hseq : seq' = seq := by
    have he := SortedMap.popFirst_eq_some_iff.mp hfirst
    rw [hp.entries] at he
    simp_all
  exact ⟨entry, seq', charged, queue, hl, hp, hseq ▸ he⟩

theorem WF.next_some {write : OwnedForwardedWrite} (h : s.WF (some id))
    (he : s.next id = (some write, s')) : s'.WF (some id) := by
  have ⟨entry, seq, _, queue, hl, hp, he⟩ := h.next_eq_some he
  have ⟨entry', hl', hd⟩ := h.lookup_of_inBetween
  cases hl.symm.trans hl'
  subst he
  have hepoch : entry.epoch < s.created := h.epochs hl
  have hold : ∀ x ∈ s.sent, x.id = id →
      x.epoch < entry.epoch ∨ (x.epoch = entry.epoch ∧ entry.queue.After x.seq) :=
    fun x hx hid => h.after x hx (hid ▸ hl)
  refine WF.notifyWaiters (WF.sent_append (s := { s with
    targets := s.targets.insert id { entry with queue := queue } }) ?_ hepoch ?_ ?_)
  · refine h.insert (fun id' => ?_) ((h.queues hl).popped hp) (fun _ _ _ _ => hd) (Nat.le_refl _)
      hepoch ?_
    · have hdr : s.draining id = true := by simp [draining, hl, hd]
      rw [h.holders id']
      by_cases hid : id' = id
      · rw [if_pos hid, hid, hdr, hd]
      · rw [if_neg hid]
    · exact fun x hx hid =>
        (hold x hx hid).imp_right fun ⟨he, ha⟩ => ⟨he, (hp.after_of_after ha).left⟩
  · intro entry' hl'
    rw [AList.lookup_insert] at hl'
    cases hl'
    exact .inr ⟨rfl, hp.after (h.queues hl)⟩
  · intro y hy hid
    exact (hold y hy hid).imp_right fun ⟨he, ha⟩ => ⟨he, (hp.after_of_after ha).right⟩

theorem count_erase {drainers : List Drainer} {drainer : Drainer} (h : drainer ∈ drainers)
    (id : Nat) : ((drainers.erase drainer).map Drainer.id).count id +
      (if drainer.id = id then 1 else 0) = (drainers.map Drainer.id).count id := by
  have hp := ((List.perm_cons_erase h).map Drainer.id).count_eq id
  rw [hp, List.map_cons, List.count_cons]
  simp

theorem WF.erase_drainer {drainer : Drainer} (h : s.WF none) (hm : drainer ∈ s.drainers) :
    { s with drainers := s.drainers.erase drainer : ForwardQueues }.WF (some drainer.id) := by
  refine h.of_holders rfl (List.Subset.refl _) rfl rfl fun id => ?_
  have hc := count_erase hm id
  simp only [ForwardQueues.holders, Option.some.injEq, reduceCtorEq, if_false] at hc ⊢
  omega

-- `next` neither reads nor changes the drainers.
theorem next_with_drainers (drainers : List Drainer) (h : s.next id = (result, s')) :
    { s with drainers := drainers : ForwardQueues }.next id =
      (result, { s' with drainers := drainers }) ∧ s'.drainers = s.drainers := by
  unfold next at h ⊢
  dsimp only
  split at h
  · cases h
    exact ⟨rfl, rfl⟩
  · split at h <;> (cases h; exact ⟨rfl, rfl⟩)

theorem WF.add_drainer (h : s.WF (some id)) (sending : Option OwnedForwardedWrite) :
    { s with drainers := ⟨id, sending⟩ :: s.drainers : ForwardQueues }.WF none := by
  refine h.of_holders rfl (List.Subset.refl _) rfl rfl fun id' => ?_
  simp only [ForwardQueues.holders, List.map_cons, List.count_cons, Option.some.injEq, beq_iff_eq,
    reduceCtorEq, if_false]
  omega

theorem WF.advance {drainer : Drainer} (h : s.WF none) (hm : drainer ∈ s.drainers) :
    (s.advance drainer).WF none := by
  have he := h.erase_drainer hm
  unfold ForwardQueues.advance
  split
  case _ write s' hn =>
    have ⟨hnext, hd⟩ := next_with_drainers (s.drainers.erase drainer) hn
    rw [hd]
    exact (he.next_some hnext).add_drainer (some write)
  case _ s' hn =>
    have ⟨hnext, hd⟩ := next_with_drainers (s.drainers.erase drainer) hn
    rw [hd]
    have ⟨hw, hd⟩ := he.next_none hnext
    exact hw.deactivate (fun _ hn => nomatch hn) fun ht => absurd ht (by simp [hd])

theorem WF.erase_waiter (h : s.WF none) (hm : id ∈ s.waiters) :
    { s with waiters := s.waiters.erase id : ForwardQueues }.WF (some id) := by
  refine h.of_holders rfl (List.Subset.refl _) rfl rfl fun id' => ?_
  have hc := (List.perm_cons_erase hm).count_eq id'
  simp only [List.count_cons, beq_iff_eq] at hc
  simp only [ForwardQueues.holders, Option.some.injEq, reduceCtorEq, if_false]
  omega

theorem WF.exec {op : Op} (h : s.WF none) (he : s.exec op = some s') : s'.WF none := by
  cases op
  case push id asHandoff writes handover => exact h.enqueueForwards he
  case retry pushing handover =>
    have ⟨_, he⟩ := Option.ite_none_right_eq_some.mp he
    refine WF.enqueueForwards ?_ he
    exact h.of_holders rfl (List.erase_subset ..) rfl rfl fun _ => rfl
  case cancel pushing =>
    have ⟨_, he⟩ := Option.ite_none_right_eq_some.mp he
    cases he
    exact h.of_holders rfl (List.erase_subset ..) rfl rfl fun _ => rfl
  case send id =>
    have ⟨⟨hm, _⟩, he⟩ := Option.ite_none_right_eq_some.mp he
    cases he
    exact (h.erase_waiter hm).add_channel
  case sendFails id =>
    have ⟨hm, he⟩ := Option.ite_none_right_eq_some.mp he
    cases he
    exact (h.erase_waiter hm).deactivate_drainer
  case recv =>
    simp only [ForwardQueues.exec] at he
    split at he
    case _ => contradiction
    case _ id channel hc =>
      cases he
      refine h.of_holders rfl (List.Subset.refl _) rfl rfl fun id' => ?_
      simp only [ForwardQueues.holders, hc, List.map_cons, List.count_cons]
      omega
  case advance drainer =>
    have ⟨hm, he⟩ := Option.ite_none_right_eq_some.mp he
    cases he
    exact h.advance hm
  case drop drainer =>
    have ⟨⟨hm, _⟩, he⟩ := Option.ite_none_right_eq_some.mp he
    cases he
    exact (h.erase_drainer hm).deactivate_drainer

theorem Reachable.wf (h : Reachable s) : s.WF none := by
  induction h
  case new            => exact wf_new
  case step _ _ he hw => exact hw.exec he

-- A write waits in a queue.
def Holds (s : ForwardQueues) (id epoch seq : Nat) (queued : Queued) : Prop :=
  ∃ entry, s.targets.lookup id = some entry ∧ entry.epoch = epoch ∧
    (seq, queued) ∈ entry.queue.ops.entries

-- No write leaves its queue. A newer write may take the place of one.
structure Keeps (s s' : ForwardQueues) : Prop where
  sent  : s'.sent = s.sent
  holds : ∀ {id epoch seq queued}, s.Holds id epoch seq queued →
            ∃ queued', s'.Holds id epoch seq queued'

-- Exactly the first write of a queue leaves it.
structure Sends (s : ForwardQueues) (x : Sent) (s' : ForwardQueues) : Prop where
  sent  : s'.sent = s.sent ++ [x]
  first : ∃ entry bytes, s.targets.lookup x.id = some entry ∧ entry.epoch = x.epoch ∧
            entry.queue.ops.entries.head? = some (x.seq, ⟨x.write, bytes⟩)
  holds : ∀ {id epoch seq queued}, s'.Holds id epoch seq queued ↔
            s.Holds id epoch seq queued ∧ ¬(id = x.id ∧ epoch = x.epoch ∧ seq = x.seq)

theorem Keeps.trans {s'' : ForwardQueues} (h : s.Keeps s') (h' : s'.Keeps s'') : s.Keeps s'' where
  sent  := h'.sent.trans h.sent
  holds := fun hh => (h.holds hh).elim fun _ hh => h'.holds hh

-- No write goes into a queue or leaves it. Its drainer may, and an empty queue is forgotten.
structure Rests (s s' : ForwardQueues) : Prop where
  sent  : s'.sent = s.sent
  kept  : ∀ {id entry}, s.targets.lookup id = some entry → entry.queue.ops.entries ≠ [] →
            ∃ draining, s'.targets.lookup id = some { entry with draining := draining }
  queue : ∀ {id entry'}, s'.targets.lookup id = some entry' →
            ∃ entry, s.targets.lookup id = some entry ∧ entry.queue = entry'.queue

theorem Rests.of_targets (ht : s'.targets = s.targets) (hs : s'.sent = s.sent) : s.Rests s' where
  sent          := hs
  kept {_ e} hl := fun _ => ⟨e.draining, ht ▸ hl⟩
  queue hl      := ⟨_, ht ▸ hl, rfl⟩

theorem Rests.trans {s'' : ForwardQueues} (h : s.Rests s') (h' : s'.Rests s'') : s.Rests s'' where
  sent        := h'.sent.trans h.sent
  kept hl hne :=
    have ⟨_, hl⟩ := h.kept hl hne
    have ⟨draining, hl⟩ := h'.kept hl hne
    ⟨draining, hl⟩
  queue hl    :=
    have ⟨_, hl, hq'⟩ := h'.queue hl
    have ⟨entry, hl, hq⟩ := h.queue hl
    ⟨entry, hl, hq.trans hq'⟩

theorem Rests.keeps (h : s.Rests s') : s.Keeps s' where
  sent  := h.sent
  holds := fun ⟨_, hl, hepoch, hm⟩ =>
    have ⟨_, hl⟩ := h.kept hl (List.ne_nil_of_mem hm)
    ⟨_, _, hl, hepoch, hm⟩

theorem rests_erase
    (hn : ∀ entry, s.targets.lookup id = some entry → entry.queue.ops.entries = []) :
    s.Rests { s with targets := s.targets.erase id : ForwardQueues }.notifyWaiters where
  sent                    := rfl
  kept {id' entry} hl hne := by
    have hid : id' ≠ id := by
      rintro rfl
      exact hne (hn entry hl)
    exact ⟨entry.draining, (AList.lookup_erase_ne hid).trans hl⟩
  queue hl                := ⟨_, (AList.lookup_erase_eq_some.mp hl).2, rfl⟩

theorem rests_deactivate : s.Rests (s.deactivate id) := by
  unfold deactivate
  split
  case _ => exact .of_targets rfl rfl
  case _ entry hl =>
    split
    case isTrue he =>
      refine rests_erase fun entry' hl' => ?_
      cases hl.symm.trans hl'
      exact List.isEmpty_iff.mp he
    case isFalse =>
      refine ⟨rfl, fun {id' entry'} hl' _ => ?_, fun {id' entry'} hl' => ?_⟩
      · by_cases hid : id' = id
        · cases (hid ▸ hl).symm.trans hl'
          exact ⟨false, hid ▸ AList.lookup_insert ..⟩
        · exact ⟨entry'.draining, (AList.lookup_insert_ne hid).trans hl'⟩
      · exact AList.of_lookup_insert hl' ⟨entry, hl, rfl⟩ fun hl' => ⟨_, hl', rfl⟩

theorem Rests.deactivate (h : s.Rests s') : s.Rests (s'.deactivate id) :=
  h.trans rests_deactivate

theorem rests_handOver {handover : Handover} (he : s.handOver id handover = some s') :
    s.Rests s' := by
  cases handover
  case delivered =>
    have ⟨_, he⟩ := Option.ite_none_right_eq_some.mp he
    cases he
    exact .of_targets rfl rfl
  case waiter =>
    have ⟨_, he⟩ := Option.ite_none_right_eq_some.mp he
    cases he
    exact .of_targets rfl rfl
  case refused =>
    have ⟨_, he⟩ := Option.ite_none_left_eq_some.mp he
    cases he
    exact rests_deactivate

theorem rests_next (he : s.next id = (none, s')) : s.Rests s' := by
  unfold next at he
  split at he
  case _ =>
    cases he
    exact .of_targets rfl rfl
  case _ entry hl =>
    split at he
    case h_1 => cases he
    case h_2 hn =>
      cases he
      refine rests_erase fun entry' hl' => ?_
      cases hl.symm.trans hl'
      cases hp : entry.queue.ops.popFirst
      case none => exact SortedMap.popFirst_eq_none_iff.mp hp
      case some first =>
        have ⟨⟨seq, queued⟩, ops⟩ := first
        have ⟨popped, hp'⟩ : ∃ popped, entry.queue.pop = some popped := by
          unfold TargetQueue.pop
          rw [hp]
          dsimp only
          split
          · exact ⟨_, rfl⟩
          · split <;> exact ⟨_, rfl⟩
        exact (hn seq queued ops popped.1 popped.2 hp hp').elim

theorem keeps_tryPush {needed : Option Nat}
    (hq : ∀ {entry}, s.targets.lookup id = some entry → entry.queue.WF)
    (he : s.tryPush id writes = some (needed, s')) : s.Keeps s' := by
  unfold tryPush at he
  dsimp only at he
  split at he
  case isFalse => contradiction
  case isTrue =>
    cases he
    refine ⟨rfl, ?_⟩
    intro id' epoch seq queued ⟨entry, hl, hepoch, hm⟩
    by_cases hid : id' = id
    case pos =>
      subst hid
      have ⟨queued', hm'⟩ := (hq hl).mem_pushAll writes hm
      exact ⟨queued', _, AList.lookup_insert .., by rwa [hl], by rwa [hl]⟩
    case neg => exact ⟨queued, entry, (AList.lookup_insert_ne hid).trans hl, hepoch, hm⟩

theorem WF.sends_next {write : OwnedForwardedWrite} (h : s.WF inBetween)
    (he : s.next id = (some write, s')) : ∃ x, s.Sends x s' := by
  have ⟨entry, seq, charged, queue, hl, hp, he⟩ := h.next_eq_some he
  subst he
  refine ⟨⟨id, entry.epoch, seq, write⟩, rfl, ⟨entry, charged, hl, rfl, ?_⟩, ?_⟩
  · rw [hp.entries]
    rfl
  · intro id' epoch seq' queued
    by_cases hid : id' = id
    case pos =>
      subst hid
      have hlt : ∀ e ∈ queue.ops.entries, seq < e.1 := (hp.after (h.queues hl)).entries
      constructor
      · intro ⟨entry', hl', hepoch, hm⟩
        cases (AList.lookup_insert ..).symm.trans hl'
        have hne : seq' ≠ seq := Nat.ne_of_gt (hlt _ hm)
        exact ⟨⟨entry, hl, hepoch, hp.entries ▸ .tail _ hm⟩, fun hx => hne hx.2.2⟩
      · intro ⟨⟨entry', hl', hepoch, hm⟩, hne⟩
        cases hl.symm.trans hl'
        rw [hp.entries] at hm
        rcases List.mem_cons.mp hm with hm | hm
        · cases hm
          exact (hne ⟨rfl, hepoch.symm, rfl⟩).elim
        · exact ⟨{ entry with queue := queue }, AList.lookup_insert .., hepoch, hm⟩
    case neg =>
      have hl' : (s.targets.insert id { entry with queue := queue }).lookup id' =
          s.targets.lookup id' := AList.lookup_insert_ne hid
      have hx : ¬(id' = id ∧ epoch = entry.epoch ∧ seq' = seq) := fun hx => hid hx.1
      constructor
      · exact fun ⟨entry', hl'', hm⟩ => ⟨⟨entry', hl'.symm.trans hl'', hm⟩, hx⟩
      · exact fun ⟨⟨entry', hl'', hm⟩, _⟩ => ⟨entry', hl'.trans hl'', hm⟩

-- The batch that goes into a queue at once, if it does.
def admission (s : ForwardQueues) (id : Nat) (writes : List OwnedForwardedWrite) :
    Option (Nat × List OwnedForwardedWrite) :=
  (s.tryPush id writes).map fun _ => (id, writes)

-- The batch that goes into a queue in a step.
def admitted (s : ForwardQueues) : Op → Option (Nat × List OwnedForwardedWrite)
  | .push id asHandoff writes _ =>
    s.admission id (if asHandoff then writes.map (·.intoHandoffFrame) else writes)
  | .retry pushing _ =>
    { s with waiting := s.waiting.erase pushing }.admission pushing.id pushing.writes
  | _ => none

-- All that a step can do to the queues.
inductive Turn (s : ForwardQueues) (op : Op) (s' : ForwardQueues) : Prop
  | rests (ha : s.admitted op = none) (h : s.Rests s')
  | pushes {waiting : List Pushing} {id : Nat} {writes : List OwnedForwardedWrite}
      {needed : Option Nat} {s₁ : ForwardQueues} (ha : s.admitted op = some (id, writes))
      (hp : { s with waiting := waiting : ForwardQueues }.tryPush id writes = some (needed, s₁))
      (h : s₁.Rests s')
  | sends {id : Nat} {write : OwnedForwardedWrite} {s₁ : ForwardQueues}
      (ha : s.admitted op = none) (hn : s.next id = (some write, s₁))
      (ht : s'.targets = s₁.targets) (hs : s'.sent = s₁.sent)

theorem turn_of_enqueueForwards {op : Op} {handover : Handover} (waiting : List Pushing)
    (ha : s.admitted op = { s with waiting := waiting : ForwardQueues }.admission id writes)
    (he : { s with waiting := waiting : ForwardQueues }.enqueueForwards id writes handover =
      some s') : s.Turn op s' := by
  unfold enqueueForwards at he
  unfold admission at ha
  split at he
  case _ hp =>
    cases he
    exact .rests (ha.trans (by rw [hp]; rfl)) (.of_targets rfl rfl)
  case _ hp =>
    cases he
    exact .pushes (ha.trans (by rw [hp]; rfl)) hp (.of_targets rfl rfl)
  case _ hp => exact .pushes (ha.trans (by rw [hp]; rfl)) hp (rests_handOver he)

theorem exec_turn {op : Op} (he : s.exec op = some s') : s.Turn op s' := by
  cases op
  case push id asHandoff writes handover => exact turn_of_enqueueForwards s.waiting rfl he
  case retry pushing handover =>
    have ⟨_, he⟩ := Option.ite_none_right_eq_some.mp he
    exact turn_of_enqueueForwards (s.waiting.erase pushing) rfl he
  case cancel pushing =>
    have ⟨_, he⟩ := Option.ite_none_right_eq_some.mp he
    cases he
    exact .rests rfl (.of_targets rfl rfl)
  case send id =>
    have ⟨_, he⟩ := Option.ite_none_right_eq_some.mp he
    cases he
    exact .rests rfl (.of_targets rfl rfl)
  case sendFails id =>
    have ⟨_, he⟩ := Option.ite_none_right_eq_some.mp he
    cases he
    exact .rests rfl (.deactivate (.of_targets rfl rfl))
  case recv =>
    simp only [ForwardQueues.exec] at he
    split at he
    case _ => contradiction
    case _ =>
      cases he
      exact .rests rfl (.of_targets rfl rfl)
  case advance drainer =>
    have ⟨_, he⟩ := Option.ite_none_right_eq_some.mp he
    cases he
    unfold ForwardQueues.advance
    split
    case _ hn => exact .sends rfl hn rfl rfl
    case _ hn => exact .rests rfl (.deactivate ((rests_next hn).trans (.of_targets rfl rfl)))
  case drop drainer =>
    have ⟨_, he⟩ := Option.ite_none_right_eq_some.mp he
    cases he
    exact .rests rfl (.deactivate (.of_targets rfl rfl))

theorem WF.keeps_or_sends {op : Op} (h : s.WF none) (he : s.exec op = some s') :
    s.Keeps s' ∨ ∃ x, s.Sends x s' := by
  cases exec_turn he with
  | rests _ hr => exact .inl hr.keeps
  | @pushes waiting _ _ _ _ _ hp hr =>
    have hk := (@keeps_tryPush { s with waiting := waiting } _ _ _ _ h.queues hp).trans hr.keeps
    exact .inl ⟨hk.sent, hk.holds⟩
  | sends _ hn ht hs =>
    have ⟨x, hx, hf, hh⟩ := h.sends_next hn
    refine .inr ⟨x, hs.trans hx, hf, ?_⟩
    unfold Holds at hh ⊢
    rw [ht]
    exact hh

theorem WF.holders_of_draining (h : s.WF none) (hd : s.draining id = true) : s.holders id = 1 := by
  simpa [hd] using h.holders id

theorem tryPush_of_not_draining (h : s.draining id = false) (writes : List OwnedForwardedWrite) :
    ∃ s', s.tryPush id writes = some (some id, s') := by
  unfold tryPush
  cases hl : s.targets.lookup id
  case none       => exact ⟨_, rfl⟩
  case some entry =>
    have hd : entry.draining = false := by simpa [draining, hl] using h
    simp [hd]

theorem Reachable.forwarding (h : Reachable s) :
    (∀ id, s.holders id ≤ 1) ∧
    (∀ id epoch seq queued, s.Holds id epoch seq queued →
      s.holders id = 1 ∨
      s.draining id = false ∧ ∀ writes, ∃ s', s.tryPush id writes = some (some id, s')) ∧
    (s.sent.Pairwise Sent.Before ∧
      (∀ x ∈ s.sent, ∀ seq queued, s.Holds x.id x.epoch seq queued → x.seq < seq) ∧
      ∀ op s', s.exec op = some s' → s.Keeps s' ∨ ∃ x, s.Sends x s') ∧
    (∀ p ∈ s.waiting, p.woken = false → s.holders p.id = 1) := by
  have hw := h.wf
  refine ⟨fun id => ?_, fun id epoch seq queued hq => ?_, ⟨hw.sorted, ?_, ?_⟩, fun p hm hf => ?_⟩
  · have hh : s.holders id = if s.draining id then 1 else 0 := hw.holders id
    rw [hh]
    split <;> decide
  · cases hd : s.draining id
    · exact .inr ⟨rfl, tryPush_of_not_draining hd⟩
    · exact .inl (hw.holders_of_draining hd)
  · intro x hx seq queued ⟨entry, hl, hepoch, hm⟩
    rcases hw.after x hx hl with hlt | ⟨_, ha⟩
    · exact absurd hepoch (Nat.ne_of_gt hlt)
    · exact ha.entries _ hm
  · exact fun op s' he => hw.keeps_or_sends he
  · exact hw.holders_of_draining (hw.waiting p hm hf)

-- A clear of the namespace is pushed, and then as many more. The drainer is still in the channel.
def filled (ns : Bytes) (n : Nat) : ForwardQueues :=
  let queue := (List.replicate (n + 1) (.clear (.namespace ns))).foldl TargetQueue.push .new
  { new with
    targets := AList.insert 0 ⟨queue, true, 0⟩ ∅
    channel := [0]
    created := 1 }

theorem bytes_clears (ns : Bytes) (n : Nat) :
    ((List.replicate n (.clear (.namespace ns))).foldl TargetQueue.push .new).bytes =
      .ofNat (n * (ns.length + forwardEntryOverheadBytes)) := by
  induction n
  case zero => rw [Nat.zero_mul]; rfl
  case succ n hi =>
    rw [List.replicate_succ', List.foldl_append, Nat.succ_mul, UInt64.ofNat_add, ← hi]
    rfl

theorem tryPush_filled {ns : Bytes} {n : Nat}
    (h : (n + 2) * (ns.length + forwardEntryOverheadBytes) < 2 ^ 64) :
    (filled ns n).tryPush 0 [.clear (.namespace ns)] =
      if (n + 2) * (ns.length + forwardEntryOverheadBytes) ≤ maxForwardQueueBytes then
        some (none, filled ns (n + 1))
      else none := by
  have hl : (filled ns n).targets.lookup 0 = some _ := AList.lookup_insert ..
  have hw : OwnedForwardedWrite.batchBytes [.clear (.namespace ns)] =
      .ofNat (ns.length + forwardEntryOverheadBytes) := UInt64.add_zero _
  have hpos : (UInt64.ofNat ((n + 1) * (ns.length + forwardEntryOverheadBytes)) = 0) = False := by
    rw [← UInt64.toNat_inj, UInt64.toNat_ofNat_of_lt' (lt_of_le_of_lt (by grind) h)]
    simp [forwardEntryOverheadBytes]
  have hsum : UInt64.ofNat ((n + 1) * (ns.length + forwardEntryOverheadBytes)) +
      .ofNat (ns.length + forwardEntryOverheadBytes) ≤ .ofNat maxForwardQueueBytes ↔
        (n + 2) * (ns.length + forwardEntryOverheadBytes) ≤ maxForwardQueueBytes := by
    rw [← UInt64.ofNat_add, ← Nat.succ_mul, UInt64.le_iff_toNat_le, UInt64.toNat_ofNat_of_lt' h]
    rfl
  unfold tryPush
  simp only [hl, Option.elim_some, hw, bytes_clears, hpos, hsum, Bool.true_eq_false, false_or]
  refine if_congr Iff.rfl ?_ rfl
  simp only [filled, AList.insert_insert, Option.getD_some, Option.isSome_some, if_true,
    List.replicate_succ' (n := n + 1), List.foldl_append]

theorem reachable_filled {ns : Bytes} {n : Nat}
    (h : n = 0 ∨ (n + 1) * (ns.length + forwardEntryOverheadBytes) ≤ maxForwardQueueBytes) :
    Reachable (filled ns n) := by
  induction n
  case zero =>
    have he : new.exec (.push 0 false [.clear (.namespace ns)] .delivered) =
      some (filled ns 0) := rfl
    exact .step .new he
  case succ n hi =>
    have h := h.resolve_left (Nat.succ_ne_zero n)
    have he : (filled ns n).exec (.push 0 false [.clear (.namespace ns)] .delivered) =
        some (filled ns (n + 1)) := by
      simp only [exec, enqueueForwards, Bool.false_eq_true, if_false]
      rw [tryPush_filled (h.trans_lt (by decide)), if_pos h]
    exact .step (hi (.inr (le_trans (by grind) h))) he

-- The push waits although no drainer runs: the one it waits for is being handed over. There are 67
-- clears of a namespace of a million bytes in the queue.
theorem waits_for_handover :
    ∃ s, Reachable s ∧
      ∃ p ∈ s.waiting, p.woken = false ∧ ∀ drainer ∈ s.drainers, drainer.id ≠ p.id := by
  have ⟨ns, hn⟩ : ∃ ns : Bytes, ns.length = 1000000 :=
    ⟨List.replicate 1000000 0, List.length_replicate⟩
  have he : (filled ns 66).exec (.push 0 false [.clear (.namespace ns)] .delivered) =
      some { filled ns 66 with waiting := [⟨0, [.clear (.namespace ns)], false⟩] } := by
    simp only [exec, enqueueForwards, Bool.false_eq_true, if_false]
    rw [tryPush_filled (by rw [hn]; decide), hn, if_neg (by decide)]
    rfl
  have hr : Reachable (filled ns 66) := reachable_filled (.inr (by rw [hn]; decide))
  exact ⟨_, .step hr he, _, .head _, rfl, fun _ hm => nomatch hm⟩

theorem forwarding_of_filled :
    Reachable (filled [97] 0) ∧
    (filled [97] 0).Holds 0 0 0 ⟨.clear (.namespace [97]), 321⟩ ∧
    (filled [97] 0).draining 0 = true ∧
    (filled [97] 0).holders 0 ≤ 1 := by
  have hr := @reachable_filled [97] 0 (.inl rfl)
  exact ⟨hr, ⟨_, rfl, rfl, .head _⟩, rfl, (Reachable.forwarding hr).1 0⟩

end ForwardQueues
end Nanocached
