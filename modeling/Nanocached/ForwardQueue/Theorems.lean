import Nanocached.ForwardQueue.Basic
import Nanocached.Lib.KeyedWrites

namespace Nanocached

open KeyedWrites

namespace OwnedForwardedWrite

-- The writes across which no write to the key may be moved.
def Cuts (key : Key) : OwnedForwardedWrite → Prop
  | clear _                 => True
  | handoffSet key' _ _ true => key'.toKey = key
  | _                       => False

variable {write : OwnedForwardedWrite} {key key' : Key}

theorem not_cuts_of_coalescingKey (h : write.coalescingKey = some key) : ¬write.Cuts key' := by
  cases write
  case handoffSet _ _ _ ifAbsent => cases ifAbsent <;> simp_all [coalescingKey, Cuts]
  all_goals simp_all [coalescingKey, Cuts]

theorem overwrites_of_coalescingKey (h : write.coalescingKey = some key) :
    Overwrites effect write key := by
  cases write
  case handoffSet _ _ _ ifAbsent =>
    cases ifAbsent <;> simp_all [coalescingKey]
    exact ⟨by simp [effect, h], fun _ hn _ => by simp [effect, h, hn.symm]⟩
  case clear => simp [coalescingKey] at h
  all_goals
    cases h
    exact ⟨by simp [effect], fun _ hn _ => by simp [effect, hn.symm]⟩

theorem spares_of_not_cuts (hc : ¬write.Cuts key) (hk : write.coalescingKey ≠ some key) :
    Spares effect write key := by
  intro held
  cases write
  case handoffSet _ _ _ ifAbsent => cases ifAbsent <;> simp_all [coalescingKey, Cuts, effect]
  all_goals simp_all [coalescingKey, Cuts, effect]

end OwnedForwardedWrite

namespace TargetQueue

open OwnedForwardedWrite

variable {queue queue' : TargetQueue} {write : OwnedForwardedWrite} {queued : Queued}
         {key : Key} {seq : Nat}

-- Charging for a write, or releasing what it was charged, leaves the queued writes alone.
theorem charge_eq (queue : TargetQueue) (write : OwnedForwardedWrite) :
    ∃ charged bytes namespaces, queue.charge write =
      (charged, { queue with bytes := bytes, namespaces := namespaces }) := by
  unfold charge
  dsimp only
  split <;> exact ⟨_, _, _, rfl⟩

theorem release_eq (queue : TargetQueue) (write : OwnedForwardedWrite) (charged : UInt64) :
    ∃ bytes namespaces, queue.release write charged =
      { queue with bytes := bytes, namespaces := namespaces } := by
  unfold release
  dsimp only
  split
  · exact ⟨_, _, rfl⟩
  · split
    · exact ⟨_, _, rfl⟩
    · split <;> exact ⟨_, _, rfl⟩

def writes (queue : TargetQueue) : List OwnedForwardedWrite :=
  queue.ops.entries.map (·.2.write)

-- A later write to the key may take the place of the one at the sequence number.
def Replaceable (entries : List (Nat × Queued)) (key : Key) (seq : Nat) : Prop :=
  ∃ queued, (seq, queued) ∈ entries ∧ queued.write.coalescingKey = some key ∧
    ∀ e ∈ entries, seq < e.1 → ¬e.2.write.Cuts key

structure WF (queue : TargetQueue) : Prop where
  fresh : ∀ e ∈ queue.ops.entries, e.1 < queue.nextSeq
  slots : ∀ {key seq}, queue.slots.lookup key = some seq ↔ Replaceable queue.ops.entries key seq

-- What becomes of the queue when a write is pushed.
inductive Pushed (queue : TargetQueue) (write : OwnedForwardedWrite) (queue' : TargetQueue) : Prop
  | replace {key seq l₁ replaced bytes l₂} :
    (write.coalescingKey = some key) →
    (queue.slots.lookup key = some seq) →
    (queue.ops.entries = l₁ ++ (seq, replaced) :: l₂) →
    (queue'.ops.entries = l₁ ++ (seq, ⟨write, bytes⟩) :: l₂) →
    (queue'.nextSeq = queue.nextSeq) →
    (queue'.slots = queue.slots) →
    Pushed queue write queue'
  | append {bytes} :
    (queue'.ops.entries = queue.ops.entries ++ [(queue.nextSeq, ⟨write, bytes⟩)]) →
    (queue'.nextSeq = queue.nextSeq + 1) →
    (∀ key seq, queue'.slots.lookup key = some seq ↔
      (queue.slots.lookup key = some seq ∧ ¬write.Cuts key) ∨
      (write.coalescingKey = some key ∧ seq = queue.nextSeq)) →
    Pushed queue write queue'

theorem WF.waiting_none (h : queue.WF) (hw : queue.waiting key = none) :
    queue.slots.lookup key = none := by
  by_contra hs
  have ⟨seq, hs⟩ := Option.ne_none_iff_exists'.mp hs
  have ⟨queued, hm, _⟩ := h.slots.mp hs
  have hg : queue.ops.get? seq = some queued :=
    SortedMap.get?_eq_some_iff.mpr (List.append_of_mem hm)
  simp [waiting, hs, hg] at hw

theorem WF.push (h : queue.WF) (write : OwnedForwardedWrite) :
    Pushed queue write (queue.push write) := by
  have ⟨charged, bytes, namespaces, hc⟩ := queue.charge_eq write
  have happ : (queue.ops.insert queue.nextSeq ⟨write, charged⟩).entries =
      queue.ops.entries ++ [(queue.nextSeq, ⟨write, charged⟩)] :=
    SortedMap.entries_insert_of_lt h.fresh
  unfold TargetQueue.push
  rw [hc]
  cases hk : write.coalescingKey
  case none =>
    refine .append happ rfl fun key seq => ?_
    cases write
    case clear => simp [append, hk, Cuts]
    case handoffSet key' _ _ ifAbsent =>
      cases ifAbsent
      case false => contradiction
      case true  =>
        simp [append, hk, Cuts, AList.lookup_erase_eq_ite, and_comm, eq_comm]
    all_goals contradiction
  case some key =>
    dsimp only
    split
    case _ seq replaced hw =>
      have ⟨seq', hs, hg⟩ := Option.bind_eq_some_iff.mp hw
      have ⟨_, hg, he⟩ := Option.bind_eq_some_iff.mp hg
      cases he
      have ⟨l₁, l₂, he⟩ := SortedMap.get?_eq_some_iff.mp hg
      have ⟨_, _, hr⟩ := release_eq { queue with
        ops := queue.ops.replace seq ⟨write, charged⟩, bytes := bytes, namespaces := namespaces }
        replaced.write replaced.bytes
      rw [hr]
      exact .replace hk hs he (SortedMap.entries_replace he) rfl rfl
    case _ hw =>
      have hs := h.waiting_none hw
      refine .append happ rfl fun key' seq => ?_
      have hn : ¬write.Cuts key' := not_cuts_of_coalescingKey hk
      by_cases hkey : key' = key
      case pos =>
        subst hkey
        simp [append, hk, hs, eq_comm]
      case neg => simp [append, hk, hn, AList.lookup_insert_ne hkey, Ne.symm hkey]

theorem replaceable_append {entries : List (Nat × Queued)} {next : Nat}
    (h : ∀ e ∈ entries, e.1 < next) :
    Replaceable (entries ++ [(next, queued)]) key seq ↔
      (Replaceable entries key seq ∧ ¬queued.write.Cuts key) ∨
      (queued.write.coalescingKey = some key ∧ seq = next) := by
  constructor
  case mp =>
    intro ⟨queued', hm, hk, hc⟩
    rcases List.mem_append.mp hm with hm | hm
    · have hnext := hc (next, queued) (by simp) (h _ hm)
      exact .inl ⟨⟨queued', hm, hk, fun e he => hc e (List.mem_append_left _ he)⟩, hnext⟩
    · cases List.mem_singleton.mp hm
      exact .inr ⟨hk, rfl⟩
  case mpr =>
    rintro (⟨⟨queued', hm, hk, hc⟩, hn⟩ | ⟨hk, rfl⟩)
    · refine ⟨queued', List.mem_append_left _ hm, hk, fun e he => ?_⟩
      rcases List.mem_append.mp he with he | he
      · exact hc e he
      · cases List.mem_singleton.mp he
        exact fun _ => hn
    · refine ⟨queued, by simp, hk, fun e he hlt => ?_⟩
      rcases List.mem_append.mp he with he | he
      · exact absurd (h e he) hlt.asymm
      · cases List.mem_singleton.mp he
        exact absurd hlt (lt_irrefl _)

-- A write of the same key does not change which writes may be replaced.
theorem replaceable_replace {l₁ l₂ : List (Nat × Queued)} {replaced : Queued} {key' : Key}
    {seq' : Nat} (hk : replaced.write.coalescingKey = some key)
    (hk' : queued.write.coalescingKey = some key)
    (h : Replaceable (l₁ ++ (seq, replaced) :: l₂) key' seq') :
    Replaceable (l₁ ++ (seq, queued) :: l₂) key' seq' := by
  have ⟨queued', hm, hq, hc⟩ := h
  have hc : ∀ e ∈ l₁ ++ (seq, queued) :: l₂, seq' < e.1 → ¬e.2.write.Cuts key' := by
    intro e he hlt
    rcases List.mem_append.mp he with he | he
    · exact hc e (List.mem_append_left _ he) hlt
    · rcases List.mem_cons.mp he with rfl | he
      · exact not_cuts_of_coalescingKey hk'
      · exact hc e (List.mem_append_right _ (.tail _ he)) hlt
  rcases List.mem_append.mp hm with hm | hm
  · exact ⟨queued', List.mem_append_left _ hm, hq, hc⟩
  · rcases List.mem_cons.mp hm with he | hm
    · cases he
      exact ⟨queued, by simp, hk'.trans (hk.symm.trans hq), hc⟩
    · exact ⟨queued', List.mem_append_right _ (.tail _ hm), hq, hc⟩

theorem wf_new : new.WF where
  fresh := by simp [new, SortedMap.empty]
  slots := by simp [new, SortedMap.empty, Replaceable]

-- The sequence number is that of one write only.
theorem WF.coalescingKey_of_slot (h : queue.WF) (hs : queue.slots.lookup key = some seq)
    (hm : (seq, queued) ∈ queue.ops.entries) : queued.write.coalescingKey = some key := by
  have ⟨queued', hm', hk, _⟩ := h.slots.mp hs
  have ⟨l₁, l₂, he⟩ := List.append_of_mem hm
  have ⟨hl, hr⟩ := SortedMap.lt_of_append_cons he
  rw [he] at hm'
  rcases List.mem_append.mp hm' with hm' | hm'
  · exact absurd (hl _ hm') (lt_irrefl _)
  · rcases List.mem_cons.mp hm' with he | hm'
    · cases he
      exact hk
    · exact absurd (hr _ hm') (lt_irrefl _)

theorem WF.pushed (h : queue.WF) (hp : Pushed queue write queue') : queue'.WF := by
  cases hp with
  | @replace key seq l₁ replaced bytes l₂ hk hs he he' hn hsl =>
    have hk' : replaced.write.coalescingKey = some key :=
      h.coalescingKey_of_slot hs (by simp [he])
    constructor
    case fresh =>
      intro e hm
      have hf := h.fresh
      simp only [he, he', hn, List.mem_append, List.mem_cons] at hm hf ⊢
      rcases hm with hm | rfl | hm
      · exact hf e (.inl hm)
      · exact hf (seq, replaced) (.inr (.inl rfl))
      · exact hf e (.inr (.inr hm))
    case slots =>
      intro key' seq'
      rw [hsl, he', h.slots, he]
      exact ⟨replaceable_replace hk' hk, replaceable_replace hk hk'⟩
  | append he' hn hsl =>
    constructor
    case fresh =>
      intro e hm
      rw [hn]
      rcases List.mem_append.mp (he' ▸ hm) with hm | hm
      · exact (h.fresh e hm).trans (Nat.lt_succ_self _)
      · cases List.mem_singleton.mp hm
        exact Nat.lt_succ_self _
    case slots =>
      intro key seq
      rw [hsl, he', replaceable_append h.fresh, h.slots]

-- What becomes of the queue when a write is popped.
structure Popped (queue : TargetQueue) (write : OwnedForwardedWrite) (queue' : TargetQueue)
    (seq : Nat) (charged : UInt64) : Prop where
  entries : queue.ops.entries = (seq, ⟨write, charged⟩) :: queue'.ops.entries
  nextSeq : queue'.nextSeq = queue.nextSeq
  slots   : ∀ key seq', queue'.slots.lookup key = some seq' ↔
              queue.slots.lookup key = some seq' ∧ seq' ≠ seq

-- The slot of the key is given up exactly if it is that of the write.
theorem pop_eq_some (hp : queue.pop = some (write, queue')) :
    ∃ seq charged, queue.ops.entries = (seq, ⟨write, charged⟩) :: queue'.ops.entries ∧
      queue'.nextSeq = queue.nextSeq ∧
      ((queue'.slots = queue.slots ∧
          ∀ key, write.coalescingKey = some key → queue.slots.lookup key ≠ some seq) ∨
        ∃ key, write.coalescingKey = some key ∧ queue.slots.lookup key = some seq ∧
          queue'.slots = queue.slots.erase key) := by
  unfold TargetQueue.pop at hp
  split at hp
  · contradiction
  case _ seq queued ops he =>
    replace he := SortedMap.popFirst_eq_some_iff.mp he
    have ⟨_, _, hr⟩ := release_eq { queue with ops := ops } queued.write queued.bytes
    rw [hr] at hp
    dsimp only at hp
    split at hp
    case _ hk =>
      cases hp
      exact ⟨seq, _, he, rfl, .inl ⟨rfl, fun key hk' => absurd (hk.symm.trans hk') nofun⟩⟩
    case _ key hk =>
      split at hp
      case isTrue hs =>
        cases hp
        exact ⟨seq, _, he, rfl, .inr ⟨key, hk, hs, rfl⟩⟩
      case isFalse hs =>
        cases hp
        refine ⟨seq, _, he, rfl, .inl ⟨rfl, fun key' hk' => ?_⟩⟩
        cases hk.symm.trans hk'
        exact hs

theorem WF.pop (h : queue.WF) (hp : queue.pop = some (write, queue')) :
    ∃ seq charged, Popped queue write queue' seq charged := by
  have ⟨seq, charged, he, hn, hs⟩ := pop_eq_some hp
  have hkey : ∀ key, queue.slots.lookup key = some seq → write.coalescingKey = some key :=
    fun key hs => h.coalescingKey_of_slot hs (by rw [he]; exact .head _)
  refine ⟨seq, charged, he, hn, fun key seq' => ?_⟩
  rcases hs with ⟨hs, hno⟩ | ⟨key', hk, hs', hs⟩
  case inl =>
    rw [hs]
    refine ⟨fun hs => ⟨hs, ?_⟩, fun hs => hs.left⟩
    rintro rfl
    exact hno key (hkey key hs) hs
  case inr =>
    rw [hs, AList.lookup_erase_eq_ite]
    by_cases hn : key = key'
    case pos =>
      subst hn
      rw [if_pos rfl]
      exact iff_of_false nofun fun ⟨hs, hne⟩ => hne (Option.some.inj (hs.symm.trans hs'))
    case neg =>
      rw [if_neg hn]
      refine ⟨fun hs => ⟨hs, ?_⟩, fun hs => hs.left⟩
      rintro rfl
      exact hn (Option.some.inj ((hkey key hs).symm.trans hk))

theorem replaceable_cons {entries : List (Nat × Queued)} {seq' : Nat}
    (h : ∀ e ∈ entries, seq < e.1) :
    Replaceable entries key seq' ↔
      Replaceable ((seq, queued) :: entries) key seq' ∧ seq' ≠ seq := by
  constructor
  case mp =>
    intro ⟨queued', hm, hk, hc⟩
    have hlt := h _ hm
    refine ⟨⟨queued', .tail _ hm, hk, fun e he => ?_⟩, hlt.ne'⟩
    rcases List.mem_cons.mp he with rfl | he
    · exact fun hgt => absurd hgt hlt.asymm
    · exact hc e he
  case mpr =>
    intro ⟨⟨queued', hm, hk, hc⟩, hn⟩
    rcases List.mem_cons.mp hm with he | hm
    · cases he
      contradiction
    · exact ⟨queued', hm, hk, fun e he => hc e (.tail _ he)⟩

theorem WF.popped {charged : UInt64} (h : queue.WF) (hp : Popped queue write queue' seq charged) :
    queue'.WF where
  fresh e he := by
    rw [hp.nextSeq]
    exact h.fresh e (hp.entries ▸ .tail _ he)
  slots := by
    intro key seq'
    have he : queue.ops.entries = [] ++ (seq, ⟨write, charged⟩) :: queue'.ops.entries := hp.entries
    have hlt := (SortedMap.lt_of_append_cons he).right
    rw [hp.slots, h.slots, hp.entries, ← replaceable_cons hlt]

-- Nothing between a write that is replaced and the end of the queue has to do with its key.
theorem WF.spares_after_slot (h : queue.WF) (hs : queue.slots.lookup key = some seq)
    {l₁ l₂ : List (Nat × Queued)} (he : queue.ops.entries = l₁ ++ (seq, queued) :: l₂) :
    ∀ e ∈ l₂, Spares effect e.2.write key := by
  intro e hm
  have ⟨_, _, _, hc⟩ := h.slots.mp hs
  have hlt := (SortedMap.lt_of_append_cons he).right e hm
  have hme : e ∈ queue.ops.entries := he ▸ List.mem_append_right _ (.tail _ hm)
  refine spares_of_not_cuts (hc e hme hlt) fun hk => ?_
  have hs' := h.slots.mpr ⟨e.2, hme, hk, fun e' he' hlt' => hc e' he' (hlt.trans hlt')⟩
  exact hlt.ne (Option.some.inj (hs.symm.trans hs'))

theorem WF.applyAll_pushed (h : queue.WF) (hp : Pushed queue write queue') (target : Target) :
    applyAll effect target queue'.writes =
      applyAll effect target (queue.writes ++ [write]) := by
  cases hp with
  | @replace key seq l₁ replaced bytes l₂ hk hs he he' =>
    have hk' : replaced.write.coalescingKey = some key :=
      h.coalescingKey_of_slot hs (by simp [he])
    have hspared : ∀ write ∈ l₂.map (·.2.write), Spares effect write key :=
      List.forall_mem_map.mpr (h.spares_after_slot hs he)
    simp only [writes, he, he', List.map_append, List.map_cons]
    exact applyAll_replace (overwrites_of_coalescingKey hk')
      (overwrites_of_coalescingKey hk) hspared
  | append he' => simp [writes, he']

theorem Popped.writes_eq {charged : UInt64} (hp : Popped queue write queue' seq charged) :
    queue.writes = write :: queue'.writes := by
  simp [writes, hp.entries]

def pushedWrites (ops : List Op) : List OwnedForwardedWrite :=
  ops.filterMap fun
    | .push write => some write
    | .pop        => none

-- Whatever was popped so far and is still queued amounts to what was pushed.
theorem WF.execAll (h : queue.WF) (ops : List Op) :
    (queue.execAll ops).2.WF ∧ ∀ target : Target,
      applyAll effect target
        ((queue.execAll ops).1 ++ (queue.execAll ops).2.writes) =
      applyAll effect target (queue.writes ++ pushedWrites ops) := by
  induction ops generalizing queue
  case nil => exact ⟨h, fun target => by simp [TargetQueue.execAll, pushedWrites]⟩
  case cons op ops hi =>
    cases op
    case push write =>
      have hp := h.push write
      obtain ⟨hw, ha⟩ := hi (h.pushed hp)
      refine ⟨hw, fun target => (ha target).trans ?_⟩
      rw [applyAll_append, h.applyAll_pushed hp, ← applyAll_append, List.append_assoc]
      rfl
    case pop =>
      cases hp : queue.pop
      case none =>
        obtain ⟨hw, ha⟩ := hi h
        simp only [TargetQueue.execAll, exec, hp]
        exact ⟨hw, ha⟩
      case some popped =>
        obtain ⟨_, _, hpop⟩ := h.pop hp
        obtain ⟨hw, ha⟩ := hi (h.popped hpop)
        simp only [TargetQueue.execAll, exec, hp, hpop.writes_eq]
        exact ⟨hw, fun target => ha _⟩

-- Pops until there is nothing left.
def drain (queue : TargetQueue) : List OwnedForwardedWrite :=
  match _h : queue.pop with
  | none                 => []
  | some (write, queue') => write :: queue'.drain
termination_by queue.ops.entries.length
decreasing_by
  have ⟨_, _, he, _⟩ := pop_eq_some _h
  simp [he]

theorem pop_eq_none (h : queue.pop = none) : queue.writes = [] := by
  unfold TargetQueue.pop at h
  split at h
  case _ he => simp [writes, SortedMap.popFirst_eq_none_iff.mp he]
  case _ =>
    dsimp only at h
    split at h
    · contradiction
    · split at h <;> contradiction

theorem WF.drain_eq_writes (h : queue.WF) : queue.drain = queue.writes := by
  fun_induction drain queue
  case case1 hp => exact (pop_eq_none hp).symm
  case case2 hp hi =>
    have ⟨_, _, hpop⟩ := h.pop hp
    rw [hi (h.popped hpop), hpop.writes_eq]

-- At most one write to the key is queued since the last one that cuts it off.
theorem WF.countP_coalescingKey (h : queue.WF) {l₁ l₂ : List OwnedForwardedWrite}
    (he : queue.writes = l₁ ++ l₂) (hc : ∀ write ∈ l₂, ¬write.Cuts key) :
    l₂.countP (·.coalescingKey = some key) ≤ 1 := by
  have ⟨e₁, e₂, hes, _, h₂⟩ := List.map_eq_append_iff.mp he
  subst h₂
  have ⟨_, hsorted, hlt⟩ := List.pairwise_append.mp (hes ▸ queue.ops.sorted)
  have hslot : ∀ e ∈ e₂, e.2.write.coalescingKey = some key →
      queue.slots.lookup key = some e.1 := by
    intro e hm hk
    refine h.slots.mpr ⟨e.2, hes ▸ List.mem_append_right _ hm, hk, fun e' hm' hgt => ?_⟩
    rcases List.mem_append.mp (hes ▸ hm') with hm' | hm'
    · exact absurd (hlt e' hm' e hm) hgt.asymm
    · exact hc _ (List.mem_map_of_mem hm')
  rw [List.countP_map, List.countP_eq_length_filter]
  rcases hf : e₂.filter _ with _ | ⟨a, _ | ⟨b, l⟩⟩
  · simp
  · simp
  · -- Two of them would have the same slot.
    have hab : a.1 < b.1 := by
      have hs := hsorted.sublist (hf ▸ List.filter_sublist)
      exact (List.pairwise_cons.mp hs).left b (.head _)
    have hfilter : ∀ e ∈ a :: b :: l, queue.slots.lookup key = some e.1 := by
      intro e hm
      have ⟨hm, hk⟩ := List.mem_filter.mp (hf ▸ hm)
      exact hslot e hm (by simpa using hk)
    have heq := (hfilter a (.head _)).symm.trans (hfilter b (.tail _ (.head _)))
    exact absurd (Option.some.inj heq) hab.ne

theorem execAll_coalesced (ops : List Op) (target : Target) :
    let (popped, queue) := new.execAll ops
    applyAll effect target (popped ++ queue.drain) =
      applyAll effect target (pushedWrites ops) ∧
    ∀ key l₁ l₂, queue.writes = l₁ ++ l₂ → (∀ write ∈ l₂, ¬write.Cuts key) →
      l₂.countP (·.coalescingKey = some key) ≤ 1 := by
  have ⟨hw, ha⟩ := wf_new.execAll ops
  refine ⟨?_, fun key l₁ l₂ he hc => hw.countP_coalescingKey he hc⟩
  rw [hw.drain_eq_writes, ha]
  rfl

end TargetQueue
end Nanocached
