import Nanocached.ForwardQueue.Accounting

namespace Nanocached

open OwnedForwardedWrite

namespace TargetQueue

variable {queue queue' : TargetQueue}

theorem Accounted.pop {write : OwnedForwardedWrite} (h : queue.Accounted)
    (hp : queue.pop = some (write, queue')) :
    queue'.Accounted ∧ total queue'.writes ≤ total queue.writes := by
  have hpop := h.exec .pop
  simp only [TargetQueue.exec, hp] at hpop
  exact ⟨hpop.1, SharedCost.cost_mono (hpop.2.trans (Multiset.zero_add _).le)⟩

end TargetQueue

namespace ForwardQueues

variable {s s' s'' : ForwardQueues} {id : Nat} {entry : Entry}
variable {writes : List OwnedForwardedWrite} {batches : Nat → List OwnedForwardedWrite}

def used (s : ForwardQueues) (id : Nat) : UInt64 :=
  (s.targets.lookup id).elim 0 (·.queue.bytes)

-- For each queue, the last batch that was pushed when the queue was empty.
def opened (s : ForwardQueues) (batches : Nat → List OwnedForwardedWrite) :
    Option (Nat × List OwnedForwardedWrite) → Nat → List OwnedForwardedWrite
  | none              => batches
  | some (id, writes) => if s.used id = 0 then Function.update batches id writes else batches

-- What a `usize` counts up to, on which all that is said about counts of bytes depends.
abbrev FitsWord (bytes : Nat) : Prop :=
  bytes < 2 ^ 64

-- A run that pushes only to queues that are empty or have a drainer, and where no count of bytes
-- wraps around.
inductive Drained : ForwardQueues → (Nat → List OwnedForwardedWrite) → Prop
  | new {batches : Nat → List OwnedForwardedWrite} : Drained .new batches
  | step {s s' : ForwardQueues} {batches : Nat → List OwnedForwardedWrite} {op : Op} :
    (Drained s batches) →
    (∀ id writes, s.admitted op = some (id, writes) → s.used id = 0 ∨ s.draining id = true) →
    (∀ id writes, s.admitted op = some (id, writes) → FitsWord ((s.used id).toNat + total writes)) →
    (s.exec op = some s') →
    Drained s' (s.opened batches (s.admitted op))

structure Bounded (s : ForwardQueues) (batches : Nat → List OwnedForwardedWrite) : Prop where
  accounted : ∀ {id entry}, s.targets.lookup id = some entry → entry.queue.Accounted
  bounded   : ∀ {id entry}, s.targets.lookup id = some entry →
                total entry.queue.writes ≤ max maxForwardQueueBytes (batchBytes (batches id)).toNat

theorem Bounded.rests (h : s.Bounded batches) (hr : s.Rests s') : s'.Bounded batches where
  accounted := fun hl =>
    have ⟨_, hl, hq⟩ := hr.queue hl
    hq ▸ h.accounted hl
  bounded   := fun hl =>
    have ⟨_, hl, hq⟩ := hr.queue hl
    hq ▸ h.bounded hl

theorem Bounded.insert {batches' : Nat → List OwnedForwardedWrite} (h : s.Bounded batches)
    (ht : s'.targets = s.targets.insert id entry) (ha : entry.queue.Accounted)
    (hb : total entry.queue.writes ≤ max maxForwardQueueBytes (batchBytes (batches' id)).toNat)
    (hne : ∀ id', id' ≠ id → batches' id' = batches id') : s'.Bounded batches' := by
  constructor
  case accounted =>
    intro id' entry' hl
    rw [ht] at hl
    exact AList.of_lookup_insert hl ha h.accounted
  case bounded =>
    intro id' entry' hl
    rw [ht, AList.lookup_insert_eq_ite] at hl
    split at hl
    case isTrue hid =>
      cases hl
      exact hid ▸ hb
    case isFalse hid => exact hne id' hid ▸ h.bounded hl

-- The queue to which the next writes are pushed, and what is in it.
theorem Bounded.used (h : s.Bounded batches) (id : Nat) :
    let queue := ((s.targets.lookup id).getD ⟨.new, false, s.created⟩).queue
    queue.Accounted ∧ (s.used id).toNat = total queue.writes := by
  cases hl : s.targets.lookup id
  case none =>
    simp only [ForwardQueues.used, hl]
    exact ⟨TargetQueue.accounted_new, rfl⟩
  case some entry =>
    simp only [ForwardQueues.used, hl, Option.elim_some, Option.getD_some]
    have ha := h.accounted hl
    refine ⟨ha, ha.bytes_eq (lt_of_le_of_lt (h.bounded hl) (max_lt ?_ (UInt64.toNat_lt _)))⟩
    decide

theorem Bounded.tryPush {result : Option Nat} (h : s.Bounded batches)
    (he : s.tryPush id writes = some (result, s')) (hd : s.used id = 0 ∨ s.draining id = true)
    (hlt : (s.used id).toNat + total writes < 2 ^ 64) :
    s'.Bounded (if s.used id = 0 then Function.update batches id writes else batches) := by
  obtain ⟨ha, hused⟩ := h.used id
  have hadded := ha.total_pushAll writes
  rw [← hused] at hadded
  have hbatch : (batchBytes writes).toNat = total writes := batchBytes_toNat (by omega)
  unfold ForwardQueues.tryPush at he
  dsimp only at he
  split at he
  case isFalse => contradiction
  case isTrue hc =>
    cases he
    refine h.insert rfl (ha.pushAll writes).1 ?_ fun id' hid => ?_
    case refine_1 =>
      by_cases hz : s.used id = 0
      case pos =>
        rw [if_pos hz, Function.update_self, hbatch]
        rw [hz] at hadded
        exact (hadded.trans (Nat.zero_add _).le).trans (le_max_right ..)
      case neg =>
        -- There is a drainer, so the writes were found to fit below the limit.
        have hdr := hd.resolve_left hz
        have hfit : s.used id + batchBytes writes ≤ .ofNat maxForwardQueueBytes := by
          rcases hc with hc | hc | hc
          · exact absurd hc hz
          · cases hl : s.targets.lookup id <;> simp_all [draining]
          · exact hc
        rw [UInt64.le_iff_toNat_le, UInt64.toNat_add, hbatch, Nat.mod_eq_of_lt hlt] at hfit
        exact (hadded.trans hfit).trans (le_max_left ..)
    case refine_2 =>
      split
      case isTrue  => exact Function.update_of_ne hid ..
      case isFalse => rfl

theorem Bounded.next {write : OwnedForwardedWrite} (h : s.Bounded batches)
    (hn : s.next id = (some write, s')) : s'.Bounded batches := by
  have ⟨entry, _, _, _, queue, hl, _, hp, hs⟩ := next_eq_some hn
  have ⟨ha, hle⟩ := (h.accounted hl).pop hp
  exact h.insert (congrArg targets hs) ha (hle.trans (h.bounded hl)) fun _ _ => rfl

theorem Bounded.exec {op : Op} (h : s.Bounded batches) (he : s.exec op = some s')
    (hd : ∀ id writes, s.admitted op = some (id, writes) → s.used id = 0 ∨ s.draining id = true)
    (hlt : ∀ id writes, s.admitted op = some (id, writes) →
      (s.used id).toNat + total writes < 2 ^ 64) :
    s'.Bounded (s.opened batches (s.admitted op)) := by
  cases exec_turn he with
  | rests ha hr => exact ha ▸ h.rests hr
  | @pushes waiting id writes _ _ ha hp hr =>
    have hb : { s with waiting := waiting }.Bounded batches := ⟨h.accounted, h.bounded⟩
    exact ha ▸ (hb.tryPush hp (hd id writes ha) (hlt id writes ha)).rests hr
  | sends ha hn ht =>
    have hb := h.next hn
    exact ha ▸ ⟨ht ▸ hb.accounted, ht ▸ hb.bounded⟩

theorem Drained.bounded (h : Drained s batches) : s.Bounded batches := by
  induction h
  case new                   => exact ⟨by simp [ForwardQueues.new], by simp [ForwardQueues.new]⟩
  case step _ hd hlt he hb => exact hb.exec he hd hlt

theorem bytes_accounted :
    (∀ ops, let queue := (TargetQueue.new.execAll ops).2
      FitsWord (total queue.writes) →
      queue.bytes.toNat = (queue.writes.map (·.entryBytes.toNat)).sum +
          ∑ allocation ∈ (queue.writes.filterMap namespaceAllocation).toFinset, allocation.2 ∧
        (queue.writes = [] ↔ queue.bytes = 0) ∧
        (∀ op queue' released bytes, FitsWord (total (op.added + queue.writes)) →
          queue.releases op = some (queue', released, bytes) → ¬queue'.Underflows released bytes) ∧
        ∀ writes : List OwnedForwardedWrite, FitsWord (total writes) →
          (writes.foldl TargetQueue.push queue).bytes.toNat ≤
            queue.bytes.toNat + (batchBytes writes).toNat) ∧
    ∀ s batches, Drained s batches → ∀ id entry, s.targets.lookup id = some entry →
      entry.queue.bytes.toNat ≤ max maxForwardQueueBytes (batchBytes (batches id)).toNat := by
  constructor
  case left =>
    intro ops queue hlt
    have ha : queue.Accounted := TargetQueue.accounted_new.execAll ops
    refine ⟨(ha.bytes_eq hlt).trans (total_eq_sum hlt), (ha.bytes_eq_zero hlt).symm, ?_, ?_⟩
    · intro op queue' released bytes hlt hr
      obtain ⟨rfl, _, hw, hc⟩ := ha.releases hr
      exact hc.not_underflows (hw ▸ hlt)
    · intro writes hlt'
      rw [ha.bytes_eq hlt, batchBytes_toNat hlt']
      exact (ha.pushAll writes).1.bytes_le.trans (ha.total_pushAll writes)
  case right =>
    intro s batches h id entry hl
    exact (h.bounded.accounted hl).bytes_le.trans (h.bounded.bounded hl)

-- Two writes that share a namespace, and a queue that one batch went into.
theorem bytes_accounted_of_shared :
    let ops : List TargetQueue.Op :=
      [.push (.set ⟨⟨[110], [97]⟩, 7⟩ [1] none), .push (.delete ⟨⟨[110], [98]⟩, 7⟩)]
    let queue := (TargetQueue.new.execAll ops).2
    (total queue.writes = 644 ∧ queue.bytes.toNat = 322 + 321 + 1) ∧
      ∃ batches, Drained (filled [97] 0) batches ∧ ∀ id entry,
        (filled [97] 0).targets.lookup id = some entry →
          entry.queue.bytes.toNat ≤ max maxForwardQueueBytes (batchBytes (batches id)).toNat := by
  intro ops queue
  have ht : total queue.writes = 644 := by decide
  have hb := (bytes_accounted.1 ops (ht ▸ by decide)).1
  refine ⟨⟨ht, hb.trans (by decide)⟩, ?_⟩
  have hnew : Drained new fun _ => [] := .new
  have he : new.exec (.push 0 false [.clear (.namespace [97])] .delivered) =
    some (filled [97] 0) := rfl
  have hd := hnew.step (fun _ _ _ => .inl rfl) (fun id writes ha => ?_) he
  · exact ⟨_, hd, bytes_accounted.2 _ _ hd⟩
  · cases ha
    decide

end ForwardQueues
end Nanocached
