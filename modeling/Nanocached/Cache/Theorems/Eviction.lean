import Nanocached.Cache.Theorems.Keeps

namespace Nanocached

variable {sha256 : Bytes → Vector UInt8 32} {id : Nat} {ns : Namespace} {name : Bytes}
variable {entry : Entry}

namespace Store

variable {s : Store} {slots : Map Nat Namespace} {clock nextSlotId : Nat}
variable {tails tails' : MinHeap (Nat ×ₗ Nat)} {item : Nat ×ₗ Nat} {key key' : Nat}

namespace Tails

theorem perm (h : Tails slots clock nextSlotId tails) (hp : tails.Perm tails') :
    Tails slots clock nextSlotId tails' where
  fresh := fun hi => h.fresh (hp.mem_iff.mpr hi)
  tail  := fun hl =>
    have ⟨key, hk, hn, hle⟩ := h.tail hl
    ⟨key, hk, fun k => hp.count_eq _ ▸ hn k, hle⟩

-- The item at hand is the only one of its namespace.
theorem count_eq_zero (h : Tails slots clock nextSlotId (toLex (key, id) :: tails))
    (hl : slots.lookup id = some ns) (k : Nat) : tails.count (toLex (k, id)) = 0 := by
  have ⟨key', _, hn, _⟩ := h.tail hl
  have hk := hn key
  have hk' := hn k
  simp only [List.count_cons, beq_iff_eq, toLex_inj, Prod.mk.injEq, and_true, if_true] at hk hk'
  split_ifs at hk hk' <;> omega

-- The item of a dropped namespace is not needed.
theorem tail_of_none (h : Tails slots clock nextSlotId (toLex (key, id) :: tails))
    (hl : slots.lookup id = none) : Tails slots clock nextSlotId tails where
  fresh := fun hi => h.fresh (.tail _ hi)
  tail  := by
    intro id' ns hl'
    have ⟨key', hk, hn, hle⟩ := h.tail hl'
    refine ⟨key', hk, fun k => ?_, hle⟩
    have hd : id ≠ id' := by rintro rfl; simp [hl'] at hl
    simpa [List.count_cons, hd] using hn k

-- The item of a namespace can be replaced by any other one with a key that is low enough.
theorem replace (h : Tails slots clock nextSlotId (toLex (key, id) :: tails))
    (hl : slots.lookup id = some ns) (hc : key' ≤ clock)
    (hle : ∀ {name entry}, ns.entries.lookup name = some entry → key' ≤ entry.lastUsed) :
    Tails slots clock nextSlotId (toLex (key', id) :: tails) where
  fresh := by
    intro item hi
    rcases List.mem_cons.mp hi with rfl | hi
    · have hf : id < nextSlotId := h.fresh (.head _)
      exact hf
    · exact h.fresh (.tail _ hi)
  tail := by
    intro id' ns' hl'
    by_cases hi : id = id'
    case pos =>
      subst hi
      cases hl.symm.trans hl'
      refine ⟨key', hc, fun k => ?_, hle⟩
      rw [List.count_cons, h.count_eq_zero hl]
      simp only [beq_iff_eq, toLex_inj, Prod.mk.injEq, and_true]
      split_ifs <;> omega
    case neg =>
      have ⟨key', hk, hn, hle⟩ := h.tail hl'
      refine ⟨key', hk, fun k => ?_, hle⟩
      simpa [List.count_cons, hi] using hn k

theorem mem (h : Tails slots clock nextSlotId tails) (hl : slots.lookup id = some ns) :
    ∃ key, toLex (key, id) ∈ tails ∧
      ∀ {name entry}, ns.entries.lookup name = some entry → key ≤ entry.lastUsed := by
  have ⟨key, _, hn, hle⟩ := h.tail hl
  refine ⟨key, List.count_pos_iff.mp ?_, hle⟩
  simp [hn]

end Tails
-- Whether the item has the stamp of the least recently used entry of its namespace.
def isCurrent (slots : Map Nat Namespace) (item : Nat ×ₗ Nat) : Bool :=
  ((slots.lookup (ofLex item).2).bind (·.peekLru)).any (·.2.lastUsed = (ofLex item).1)

-- Every round of the loop leaves one item less which is not current.
theorem WF.popVictim (h : s.WF sha256) (hs : s.slots.lookup id = some ns) {fuel : Nat}
    {tails : MinHeap (Nat ×ₗ Nat)} (ht : Tails s.slots s.clock s.nextSlotId tails)
    (hf : tails.countP (!isCurrent s.slots ·) < fuel) (emptyNamespaces : List Nat) :
    ∃ item tails',
      Store.popVictim s.slots fuel tails emptyNamespaces = some (item, tails', emptyNamespaces) ∧
      Tails s.slots s.clock s.nextSlotId (item :: tails') ∧
      isCurrent s.slots item ∧
      ∀ i ∈ tails', item ≤ i := by
  induction fuel generalizing tails
  case zero => omega
  case succ fuel hi =>
    have ⟨_, hm, _⟩ := ht.mem hs
    cases hp : tails.pop
    case none =>
      rw [MinHeap.pop_eq_none_iff.mp hp] at hm
      contradiction
    case some p =>
      have ⟨item, rest⟩ := p
      obtain ⟨key, id, rfl⟩ : ∃ key id, item = toLex (key, id) := ⟨_, _, rfl⟩
      have hr := MinHeap.pop_perm hp
      have ht' := ht.perm hr
      rw [hr.countP_eq, List.countP_cons] at hf
      simp only [Store.popVictim, hp, Option.bind_eq_bind, Option.bind_some, ofLex_toLex]
      cases hl : s.slots.lookup id
      case none =>
        have hc : isCurrent s.slots (toLex (key, id)) = false := by simp [isCurrent, hl]
        simp only [hc, Bool.not_false, if_true] at hf
        exact hi (ht'.tail_of_none hl) (by omega)
      case some ns =>
        have hw := h.slot hl
        cases hu : ns.peekLru
        case none => exact absurd (Namespace.peekLru_eq_none_iff.mp hu) (h.inhabited hl)
        case some p =>
          have ⟨name, entry⟩ := p
          have hc k : isCurrent s.slots (toLex (k, id)) ↔ entry.lastUsed = k := by
            simp only [isCurrent, ofLex_toLex, hl, Option.bind_some, hu, Option.any_some]
            exact decide_eq_true_iff
          simp only [hu]
          by_cases he : entry.lastUsed = key
          case pos =>
            simp only [he, if_true, Option.pure_def]
            refine ⟨_, _, rfl, ht', (hc _).mpr he, fun i hi => ?_⟩
            exact MinHeap.pop_le hp (hr.mem_iff.mpr (.tail _ hi))
          case neg =>
            simp only [he, if_false]
            have hn := ht'.replace hl (hw.recent (Namespace.lookup_of_peekLru hu))
              (Namespace.peekLru_le hw.ordered hu)
            have hc₁ : isCurrent s.slots (toLex (entry.lastUsed, id)) = true := (hc _).mpr rfl
            have hc₂ : isCurrent s.slots (toLex (key, id)) = false := by
              simpa using mt (hc key).mp he
            refine hi hn ?_
            simp [MinHeap.push, hc₁]
            simp [hc₂] at hf
            exact hf

-- The least recently used entry of the whole cache.
structure Victim (s : Store) (id : Nat) (ns : Namespace) (name : Bytes) (entry : Entry) : Prop where
  slot  : s.slots.lookup id = some ns
  lru   : ns.peekLru = some (name, entry)
  least : ∀ {id' ns' name' entry'}, s.slots.lookup id' = some ns' →
            ns'.entries.lookup name' = some entry' → entry.lastUsed ≤ entry'.lastUsed

theorem WF.entryCount_pos (h : s.WF sha256) (hl : s.slots.lookup id = some ns) :
    0 < s.entryCount :=
  (List.length_pos_iff.mpr (h.inhabited hl)).trans_le (h.size_le_entryCount hl)

theorem WF.exists_slot (h : s.WF sha256) (hn : 0 < s.entryCount) :
    ∃ id ns, s.slots.lookup id = some ns := by
  refine AList.exists_lookup_of_size_pos (Nat.pos_of_ne_zero fun hs => ?_)
  rw [h.entryCount, AList.sumBy, List.length_eq_zero_iff.mp hs] at hn
  simp at hn

-- A current item that is below all others is the one of the victim.
theorem WF.victim_of_isCurrent (h : s.WF sha256)
    (ht : Tails s.slots s.clock s.nextSlotId (toLex (key, id) :: tails))
    (hc : isCurrent s.slots (toLex (key, id))) (hm : ∀ i ∈ tails, toLex (key, id) ≤ i) :
    ∃ ns name entry, s.Victim id ns name entry ∧ entry.lastUsed = key := by
  simp only [isCurrent, ofLex_toLex, Option.any_eq_true, Option.bind_eq_some_iff] at hc
  obtain ⟨⟨name, entry⟩, ⟨ns, hl, hp⟩, hk⟩ := hc
  obtain rfl : entry.lastUsed = key := of_decide_eq_true hk
  refine ⟨ns, name, entry, ⟨hl, hp, fun {id' ns' name' entry'} hl' he' => ?_⟩, rfl⟩
  by_cases hi : id' = id
  case pos =>
    subst hi
    cases hl.symm.trans hl'
    exact Namespace.peekLru_le (h.slot hl).ordered hp he'
  case neg =>
    have ⟨key', hk, hle⟩ := ht.mem hl'
    rcases List.mem_cons.mp hk with he | hk
    · exact absurd (congrArg (fun i => (ofLex i).2) he) hi
    · exact (Prod.Lex.monotone_fst _ _ (hm _ hk)).trans (hle he')

theorem removed_slots_eq : (s.removed id ns name).slots =
    if (ns.entries.erase name).entries = [] then s.slots.erase id
    else s.slots.insert id (ns.without name) := by
  rw [removed]; split <;> rfl

theorem removed_with_tails :
    { s with tails }.removed id ns name = { s.removed id ns name with tails } := by
  simp only [removed]; split <;> rfl

theorem removed_clock : (s.removed id ns name).clock = s.clock := by
  rw [removed]; split <;> rfl

theorem removed_entryCount : (s.removed id ns name).entryCount = s.entryCount - 1 := by
  rw [removed]; split <;> rfl

theorem removed_nextSlotId : (s.removed id ns name).nextSlotId = s.nextSlotId := by
  rw [removed]; split <;> rfl

-- The item of the victim goes back to the heap unless its namespace is gone.
theorem Tails.removed (h : Tails s.slots clock nextSlotId (toLex (key, id) :: tails))
    (hl : s.slots.lookup id = some ns) :
    Tails (s.removed id ns name).slots clock nextSlotId
      (if id ∈ (s.removed id ns name).slots then tails.push (toLex (key, id)) else tails) := by
  rw [removed_slots_eq]
  split
  case isTrue =>
    rw [if_neg (by simp)]
    exact h.erase.tail_of_none (AList.lookup_erase _ _)
  case isFalse =>
    rw [if_pos (by simp)]
    exact h.update hl (.of_erase rfl)

end Store

namespace Cache

variable {s s' : Cache}

theorem evictOneFrom_eq (hl : s.slots.lookup id = some ns) (hp : ns.peekLru = some (name, entry)) :
    s.evictOneFrom id = some { s with
      toStore   := s.removed id ns name
      evictions := s.evictions + 1 } := by
  simp [evictOneFrom, hl, hp, Store.unlink_eq (Namespace.lookup_of_peekLru hp)]

theorem evictOne_eq (h : s.WF sha256) (hn : 0 < s.entryCount) : ∃ id ns name entry tails,
    s.Victim id ns name entry ∧
    Store.Tails (s.removed id ns name).slots s.clock s.nextSlotId tails ∧
    s.evictOne = some { s with
      toStore   := { s.removed id ns name with tails }
      evictions := s.evictions + 1 } := by
  have ⟨_, _, hs⟩ := h.exists_slot hn
  have hf : s.tails.countP (!Store.isCurrent s.slots ·) < 2 * s.tails.length + 1 := by
    have := List.countP_le_length (p := (!Store.isCurrent s.slots ·)) (l := s.tails)
    omega
  have ⟨item, tails, hv, ht, hc, hm⟩ := h.popVictim hs h.tails hf []
  obtain ⟨key, id, rfl⟩ : ∃ key id, item = toLex (key, id) := ⟨_, _, rfl⟩
  have ⟨ns, name, entry, victim, _⟩ := h.victim_of_isCurrent ht hc hm
  refine ⟨id, ns, name, entry, _, victim, ht.removed victim.slot, ?_⟩
  have he := evictOneFrom_eq (s := { s with tails }) victim.slot victim.lru
  simp only [evictOne, hv, Option.bind_eq_bind, Option.bind_some, List.foldl_nil, ofLex_toLex, he,
    Store.removed_with_tails]
  by_cases hi : id ∈ (s.removed id ns name).slots <;> simp [hi]

theorem removed_steps (hl : s.slots.lookup id = some ns) (hn : name ∈ ns.entries) :
    Steps sha256 [.remove ⟨ns.name, name⟩] s { s with
      toStore   := s.removed id ns name
      evictions := s.evictions + 1 } :=
  ⟨.single (.remove hl hn), rfl, rfl⟩

theorem evictOne_steps (h : s.WF sha256) (hn : 0 < s.entryCount) : ∃ key s',
    s.evictOne = some s' ∧
    Steps sha256 [.remove key] s s' ∧
    s'.entryCount + 1 = s.entryCount := by
  have ⟨id, ns, name, entry, tails, victim, ht, he⟩ := s.evictOne_eq h hn
  have hm := AList.mem_of_lookup (Namespace.lookup_of_peekLru victim.lru)
  refine ⟨⟨ns.name, name⟩, _, he, ?_, ?_⟩
  case refine_1 =>
    have ht : Store.Tails (s.removed id ns name).slots (s.removed id ns name).clock
        (s.removed id ns name).nextSlotId tails := by
      rwa [Store.removed_clock, Store.removed_nextSlotId]
    exact (removed_steps victim.slot hm).trans ⟨.silent (.heap ht), rfl, rfl⟩
  case refine_2 =>
    simp only [Store.removed_entryCount]
    omega

theorem evictWhileOver_steps (h : s.WF sha256) : ∃ (keys : List Key) (s' : Cache),
    evictWhileOver s.entryCount s = some s' ∧
    Steps sha256 (keys.map .remove) s s' ∧
    ¬(s'.usedBytes > s'.maxMemoryBytes ∧ s'.entryCount > 1) ∧
    (s.usedBytes ≤ s.maxMemoryBytes → keys = []) := by
  generalize hf : s.entryCount = fuel
  induction fuel generalizing s
  case zero => exact ⟨[], s, rfl, .refl, by omega, fun _ => rfl⟩
  case succ fuel hi =>
    rw [evictWhileOver]
    split
    case isFalse hc => exact ⟨[], s, rfl, .refl, hc, fun _ => rfl⟩
    case isTrue hc =>
      have ⟨key, s₁, he, hs, hn⟩ := s.evictOne_steps h (by omega)
      have ⟨keys, s₂, hw, hs', hc', _⟩ := hi (hs.wf h) (by omega)
      refine ⟨key :: keys, s₂, ?_, hs.trans hs', hc', fun hl => ?_⟩
      · simp [he, hw]
      · exact absurd hc.left (UInt64.not_lt.mpr hl)

-- The namespace is kept within its budget: it may be over with its last entry only.
def WithinBudget (s : Cache) (id : Nat) : Prop :=
  ∀ ns budget, s.slots.lookup id = some ns → ns.budget = some budget →
    ns.usedBytes ≤ budget ∨ ns.entries.size ≤ 1

theorem enforceNamespaceBudget_steps (h : s.WF sha256) (id : Nat) :
    ∃ (keys : List Key) (s' : Cache),
    s.enforceNamespaceBudget id = some s' ∧
    Steps sha256 (keys.map .remove) s s' ∧
    s'.WithinBudget id ∧
    (s.budgets = ∅ → keys = []) := by
  rw [enforceNamespaceBudget]
  generalize hf : (s.slots.lookup id).elim 0 (·.entries.size) = fuel
  induction fuel generalizing s
  case zero =>
    refine ⟨[], s, rfl, .refl, fun ns _ hl _ => .inr ?_, fun _ => rfl⟩
    simp only [hl, Option.elim_some] at hf
    omega
  case succ fuel hi =>
    cases hl : s.slots.lookup id
    case none => simp [hl] at hf
    case some ns =>
      simp only [hl, Option.elim_some] at hf
      cases hb : ns.budget
      case none =>
        refine ⟨[], s, by simp [enforceNamespaceBudgetGo, hl, hb], .refl, fun _ _ hl' hb' => ?_,
          fun _ => rfl⟩
        cases hl.symm.trans hl'
        simp [hb] at hb'
      case some budget =>
        by_cases hc : ns.usedBytes ≤ budget ∨ ns.entries.size ≤ 1
        case pos =>
          refine ⟨[], s, by simp [enforceNamespaceBudgetGo, hl, hb, hc], .refl,
            fun _ _ hl' hb' => ?_, fun _ => rfl⟩
          cases hl.symm.trans hl'
          cases hb.symm.trans hb'
          exact hc
        case neg =>
          have hc₂ : 1 < ns.entries.size := Nat.lt_of_not_le (not_or.mp hc).right
          cases hp : ns.peekLru
          case none => exact absurd (Namespace.peekLru_eq_none_iff.mp hp) (h.inhabited hl)
          case some p =>
            have ⟨name, entry⟩ := p
            have he := Namespace.lookup_of_peekLru hp
            have hs : Steps sha256 _ s _ := removed_steps hl (AList.mem_of_lookup he)
            have hn := AList.size_erase_of_lookup he
            have hd : (ns.entries.erase name).entries ≠ [] := fun hd => by
              have : (ns.entries.erase name).size = 0 := congrArg List.length hd
              omega
            have ⟨keys, s₂, hw, hs', hc', _⟩ := hi (s := { s with
              toStore   := s.removed id ns name
              evictions := s.evictions + 1 }) (hs.wf h) (by
                simp only [Store.removed_slots_eq, if_neg hd, AList.lookup_insert, Option.elim_some,
                  Namespace.without]
                omega)
            refine ⟨⟨ns.name, name⟩ :: keys, s₂, ?_, hs.trans hs', hc', fun hn => ?_⟩
            · simp [enforceNamespaceBudgetGo, hl, hb, hc, evictOneFrom_eq hl hp, hw]
            · simp [h.budget hl, hn] at hb

end Cache
end Nanocached
