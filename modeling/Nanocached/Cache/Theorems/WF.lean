import Nanocached.Cache.Theorems.Store

namespace Nanocached

variable {sha256 : Bytes → Vector UInt8 32} {name : Bytes} {id : Nat}

namespace Namespace

-- Whatever is stamped in `ns'` was so in `ns` already, or is stamped after `clock`.
def Restamps (clock : Nat) (ns ns' : Namespace) : Prop :=
  ∀ ⦃name entry'⦄, ns'.entries.lookup name = some entry' →
    clock < entry'.lastUsed ∨
    ∃ entry, ns.entries.lookup name = some entry ∧ entry.lastUsed = entry'.lastUsed

namespace Restamps

variable {clock : Nat} {ns ns' : Namespace} {entry entry' : Entry}

theorem of_entries_eq (h : ns'.entries = ns.entries) : Restamps clock ns ns' := by
  intro name entry he
  exact .inr ⟨entry, h ▸ he, rfl⟩

theorem of_insert (h : ns'.entries = ns.entries.insert name entry) (hs : clock < entry.lastUsed) :
    Restamps clock ns ns' := by
  intro name' entry' he
  rw [h] at he
  exact AList.of_lookup_insert he (.inl hs) fun he => .inr ⟨entry', he, rfl⟩

theorem written (name : Bytes) (entry : Entry) (hs : clock < entry.lastUsed) :
    Restamps clock ns (ns.written name entry) :=
  of_insert rfl hs

theorem of_replace (h : ns'.entries = ns.entries.replace name entry')
    (hl : ns.entries.lookup name = some entry) (hs : entry'.lastUsed = entry.lastUsed) :
    Restamps clock ns ns' := by
  intro name' e he
  rw [h, AList.lookup_replace_eq_ite hl] at he
  split at he
  case isTrue hn => subst hn; cases he; exact .inr ⟨entry, hl, hs.symm⟩
  case isFalse   => exact .inr ⟨e, he, rfl⟩

theorem of_erase (h : ns'.entries = ns.entries.erase name) : Restamps clock ns ns' := by
  intro name' e he
  rw [h, AList.lookup_erase_eq_ite] at he
  split at he
  case isTrue  => contradiction
  case isFalse => exact .inr ⟨e, he, rfl⟩

end Restamps
end Namespace

namespace Store

-- The heap holds exactly one item for every namespace, with a key below the stamps of all of its
-- entries. Items of dropped namespaces are allowed to remain.
structure Tails (slots : Map Nat Namespace) (clock nextSlotId : Nat)
    (tails : MinHeap (Nat ×ₗ Nat)) : Prop where
  fresh : ∀ {item}, item ∈ tails → (ofLex item).2 < nextSlotId
  tail  : ∀ {id ns}, slots.lookup id = some ns →
            ∃ key ≤ clock, (∀ k, tails.count (toLex (k, id)) = if k = key then 1 else 0) ∧
              ∀ {name entry}, ns.entries.lookup name = some entry → key ≤ entry.lastUsed

-- Everything the cache is charged for.
def charges (s : Store) : Nat :=
  s.slots.sumBy (fun _ ns => ns.charges + nameCharge ns.name) +
  s.handoffTombstones.sumBy fun key _ => tombstoneBytes key

-- The invariant of the cache between two of its steps.
structure WF (sha256 : Bytes → Vector UInt8 32) (s : Store) : Prop where
  slot       : ∀ {id ns}, s.slots.lookup id = some ns → ns.WF sha256 s.clock
  inhabited  : ∀ {id ns}, s.slots.lookup id = some ns → ns.entries.entries ≠ []
  index      : ∀ {name id}, s.namespaces.lookup name = some id ↔
                 ∃ ns, s.slots.lookup id = some ns ∧ ns.name = name
  fresh      : ∀ {id ns}, s.slots.lookup id = some ns → id < s.nextSlotId
  budget     : ∀ {id ns}, s.slots.lookup id = some ns → ns.budget = s.budgets.lookup ns.name
  stamps     : ∀ {id₁ id₂ ns₁ ns₂ name₁ name₂ entry₁ entry₂},
                 s.slots.lookup id₁ = some ns₁ → s.slots.lookup id₂ = some ns₂ →
                 ns₁.entries.lookup name₁ = some entry₁ → ns₂.entries.lookup name₂ = some entry₂ →
                 entry₁.lastUsed = entry₂.lastUsed → id₁ = id₂
  tails      : Tails s.slots s.clock s.nextSlotId s.tails
  used       : s.usedBytes = .ofNat s.charges
  entryCount : s.entryCount = s.slots.sumBy fun _ ns => ns.entries.size
  marked     : s.marked = s.slots.sumBy fun _ ns => ns.migrated.size

variable {s t : Store} {slots : Map Nat Namespace} {ns ns' : Namespace}
variable {clock clock' nextSlotId entryCount marked : Nat} {usedBytes : UInt64}

namespace Tails

variable {tails : MinHeap (Nat ×ₗ Nat)} {key : Nat}

theorem mono (h : Tails slots clock nextSlotId tails) (hc : clock ≤ clock') :
    Tails slots clock' nextSlotId tails where
  fresh := h.fresh
  tail  := fun hl =>
    have ⟨key, hk, hn, hle⟩ := h.tail hl
    ⟨key, hk.trans hc, hn, hle⟩

theorem erase (h : Tails slots clock nextSlotId tails) :
    Tails (slots.erase id) clock nextSlotId tails where
  fresh := h.fresh
  tail  := by
    intro id' ns hl
    rw [AList.lookup_erase_eq_ite] at hl
    split at hl
    case isTrue  => contradiction
    case isFalse => exact h.tail hl

theorem update (h : Tails slots clock nextSlotId tails) (hl : slots.lookup id = some ns)
    (hr : ns.Restamps clock ns') : Tails (slots.insert id ns') clock nextSlotId tails where
  fresh := h.fresh
  tail  := by
    intro id' ns'' hl'
    rw [AList.lookup_insert_eq_ite] at hl'
    split at hl'
    case isFalse   => exact h.tail hl'
    case isTrue he =>
      subst he; cases hl'
      have ⟨key, hk, hn, hle⟩ := h.tail hl
      refine ⟨key, hk, hn, fun he => ?_⟩
      rcases hr he with hs | ⟨entry, he, hs⟩
      · exact hk.trans hs.le
      · exact hs ▸ hle he

-- The namespace of a fresh identifier gets an item of its own, with the least possible key.
theorem create (h : Tails slots clock nextSlotId tails) :
    Tails (slots.insert nextSlotId ns) clock (nextSlotId + 1)
      (tails.push (toLex (0, nextSlotId))) where
  fresh := by
    intro item hi
    rcases List.mem_cons.mp hi with rfl | hi
    · exact nextSlotId.lt_succ_self
    · exact (h.fresh hi).trans nextSlotId.lt_succ_self
  tail := by
    intro id ns' hl
    rw [AList.lookup_insert_eq_ite] at hl
    simp only [MinHeap.push, List.count_cons]
    split at hl
    case isTrue he =>
      subst he
      refine ⟨0, clock.zero_le, fun k => ?_, fun _ => Nat.zero_le _⟩
      have hc : tails.count (toLex (k, id)) = 0 :=
        List.count_eq_zero.mpr fun hm => (h.fresh hm).ne rfl
      simp only [hc, beq_iff_eq, toLex_inj, Prod.mk.injEq, and_true]
      split_ifs <;> omega
    case isFalse he =>
      have ⟨key, hk, hn, hle⟩ := h.tail hl
      refine ⟨key, hk, fun k => ?_, hle⟩
      simp [hn, Ne.symm he]

-- The item of a namespace in a rebuilt heap is current.
theorem tailItem_le (hw : (ns.entries.entries.Pairwise fun p q => q.2.lastUsed < p.2.lastUsed))
    {entry : Entry} (hl : ns.entries.lookup name = some entry) :
    ns.peekLru.elim 0 (·.2.lastUsed) ≤ entry.lastUsed := by
  cases hp : ns.peekLru
  case none   => exact Nat.zero_le _
  case some p => exact Namespace.peekLru_le hw hp hl

theorem rebuilt (hf : ∀ {id ns}, slots.lookup id = some ns → id < nextSlotId)
    (ho : ∀ {id ns}, slots.lookup id = some ns →
      ns.entries.entries.Pairwise fun p q => q.2.lastUsed < p.2.lastUsed)
    (hr : ∀ {id ns name entry}, slots.lookup id = some ns →
      ns.entries.lookup name = some entry → entry.lastUsed ≤ clock) :
    Tails slots clock nextSlotId (slots.entries.map fun p => tailItem p.1 p.2) where
  fresh := by
    intro item hi
    have ⟨p, hp, he⟩ := List.mem_map.mp hi
    exact he ▸ hf (AList.lookup_of_mem hp)
  tail := by
    intro id ns hl
    refine ⟨ns.peekLru.elim 0 (·.2.lastUsed), ?_, fun k => ?_, tailItem_le (ho hl)⟩
    case refine_1 =>
      cases hp : ns.peekLru
      case none   => exact Nat.zero_le _
      case some p => exact hr hl (Namespace.lookup_of_peekLru hp)
    case refine_2 =>
      have hz : ((slots.erase id).entries.map fun p => tailItem p.1 p.2).count (toLex (k, id)) = 0 := by
        refine List.count_eq_zero.mpr fun hm => ?_
        have ⟨p, hp, he⟩ := List.mem_map.mp hm
        exact (AList.mem_entries_erase.mp hp).left (congrArg (fun i => (ofLex i).2) he)
      have hp := AList.entries_perm_cons_erase hl |>.map fun p => tailItem p.1 p.2
      rw [hp.count_eq, List.map_cons, List.count_cons, hz]
      simp only [tailItem, beq_iff_eq, toLex_inj, Prod.mk.injEq, and_true]
      split_ifs <;> omega

end Tails
namespace WF

theorem id_unique (h : s.WF sha256) {id₁ id₂ : Nat} {ns₁ ns₂ : Namespace}
    (h₁ : s.slots.lookup id₁ = some ns₁) (h₂ : s.slots.lookup id₂ = some ns₂)
    (hn : ns₁.name = ns₂.name) : id₁ = id₂ :=
  Option.some.inj <| (h.index.mpr ⟨ns₁, h₁, hn⟩).symm.trans (h.index.mpr ⟨ns₂, h₂, rfl⟩)

theorem size_le_entryCount (h : s.WF sha256) (hl : s.slots.lookup id = some ns) :
    ns.entries.size ≤ s.entryCount := by
  rw [h.entryCount, AList.sumBy_eq_add_erase (fun _ ns => ns.entries.size) hl]
  exact Nat.le_add_right ..

theorem size_le_marked (h : s.WF sha256) (hl : s.slots.lookup id = some ns) :
    ns.migrated.size ≤ s.marked := by
  rw [h.marked, AList.sumBy_eq_add_erase (fun _ ns => ns.migrated.size) hl]
  exact Nat.le_add_right ..

theorem mono (h : s.WF sha256) (hc : s.clock ≤ clock) : { s with clock }.WF sha256 where
  slot       := fun hl => h.slot hl |>.mono hc
  inhabited  := h.inhabited
  index      := h.index
  fresh      := h.fresh
  budget     := h.budget
  stamps     := h.stamps
  tails      := h.tails.mono hc
  used       := h.used
  entryCount := h.entryCount
  marked     := h.marked

theorem retail {tails : MinHeap (Nat ×ₗ Nat)} (h : s.WF sha256)
    (ht : Tails s.slots s.clock s.nextSlotId tails) : { s with tails }.WF sha256 where
  slot       := h.slot
  inhabited  := h.inhabited
  index      := h.index
  fresh      := h.fresh
  budget     := h.budget
  stamps     := h.stamps
  tails      := ht
  used       := h.used
  entryCount := h.entryCount
  marked     := h.marked

theorem rebury {handoffTombstones : Map Key Instant} (h : s.WF sha256)
    (hu : usedBytes + .ofNat (s.handoffTombstones.sumBy fun key _ => tombstoneBytes key) =
      s.usedBytes + .ofNat (handoffTombstones.sumBy fun key _ => tombstoneBytes key)) :
    { s with handoffTombstones, usedBytes }.WF sha256 where
  slot       := h.slot
  inhabited  := h.inhabited
  index      := h.index
  fresh      := h.fresh
  budget     := h.budget
  stamps     := h.stamps
  tails      := h.tails
  used       := by
    simp only [h.used, charges, UInt64.ofNat_add] at hu ⊢
    grind
  entryCount := h.entryCount
  marked     := h.marked

theorem index_update (h : s.WF sha256) (hl : s.slots.lookup id = some ns) (hn : ns'.name = ns.name)
    {id' : Nat} : s.namespaces.lookup name = some id' ↔
      ∃ ns, (s.slots.insert id ns').lookup id' = some ns ∧ ns.name = name := by
  rw [h.index, AList.lookup_insert_eq_ite]
  by_cases he : id' = id
  case pos => subst he; simp [hl, hn]
  case neg => simp [he]

-- The namespace of a slot changes, and with it the clock and the totals.
theorem update (h : s.WF sha256) (hl : s.slots.lookup id = some ns) (hn : ns'.name = ns.name)
    (hb : ns'.budget = ns.budget) (hw : ns'.WF sha256 clock) (hi : ns'.entries.entries ≠ []) (hr : ns.Restamps s.clock ns') (hc : s.clock ≤ clock)
    (hu : usedBytes + ns.usedBytes = s.usedBytes + ns'.usedBytes)
    (he : entryCount + ns.entries.size = s.entryCount + ns'.entries.size)
    (hm : marked + ns.migrated.size = s.marked + ns'.migrated.size) :
    { s with slots := s.slots.insert id ns', clock, usedBytes, entryCount, marked }.WF sha256 where
  slot hl'      := AList.of_lookup_insert hl' hw fun hl' => h.slot hl' |>.mono hc
  inhabited hl' := AList.of_lookup_insert hl' hi h.inhabited
  index         := h.index_update hl hn
  fresh hl'     := AList.of_lookup_insert hl' (h.fresh hl) h.fresh
  budget hl'    := AList.of_lookup_insert hl' (by rw [hb, h.budget hl, hn]) h.budget
  stamps := by
    -- A stamp of the new namespace which it shares with another one is an old stamp.
    have old {id' ns'' name name' entry entry'} (hl' : s.slots.lookup id' = some ns'')
        (he : ns'.entries.lookup name = some entry) (he' : ns''.entries.lookup name' = some entry')
        (hs : entry.lastUsed = entry'.lastUsed) : id = id' := by
      have hc := (h.slot hl').recent he'
      rcases hr he with hn | ⟨e, he, ho⟩
      · omega
      · exact h.stamps hl hl' he he' (ho.trans hs)
    intro id₁ id₂ ns₁ ns₂ name₁ name₂ e₁ e₂ hl₁ hl₂ he₁ he₂ hs
    simp only [AList.lookup_insert_eq_ite] at hl₁ hl₂
    split at hl₁ <;> split at hl₂
    case isTrue.isTrue h₁ h₂   => exact h₁.trans h₂.symm
    case isTrue.isFalse h₁ _   => cases hl₁; exact h₁.trans (old hl₂ he₁ he₂ hs)
    case isFalse.isTrue _ h₂   => cases hl₂; exact (h₂.trans (old hl₁ he₂ he₁ hs.symm)).symm
    case isFalse.isFalse       => exact h.stamps hl₁ hl₂ he₁ he₂ hs
  tails := h.tails.update hl hr |>.mono hc
  used := by
    have hs := AList.sumBy_insert_of_lookup
      (fun _ (ns : Namespace) => ns.charges + nameCharge ns.name) ns' hl
    have hs := congrArg UInt64.ofNat hs
    simp only [h.used, (h.slot hl).used, hw.used, charges, UInt64.ofNat_add, hn] at hu hs ⊢
    grind
  entryCount := by
    have hs := AList.sumBy_insert_of_lookup (fun _ (ns : Namespace) => ns.entries.size) ns' hl
    have := h.entryCount
    dsimp only at hs ⊢
    omega
  marked := by
    have hs := AList.sumBy_insert_of_lookup (fun _ (ns : Namespace) => ns.migrated.size) ns' hl
    have := h.marked
    dsimp only at hs ⊢
    omega

-- A namespace is dropped with everything in it.
theorem erase (h : s.WF sha256) (hl : s.slots.lookup id = some ns)
    (hu : usedBytes + (ns.usedBytes + .ofNat (nameCharge ns.name)) = s.usedBytes)
    (he : entryCount + ns.entries.size = s.entryCount)
    (hm : marked + ns.migrated.size = s.marked) :
    { s with
      slots      := s.slots.erase id
      namespaces := s.namespaces.erase ns.name
      usedBytes
      entryCount
      marked }.WF sha256 where
  slot := by
    intro id' ns' hl'
    exact h.slot (AList.lookup_erase_eq_some.mp hl').right
  inhabited := fun hl' => h.inhabited (AList.lookup_erase_eq_some.mp hl').right
  index := by
    intro name id'
    simp only [AList.lookup_erase_eq_some, h.index]
    constructor
    case mp =>
      rintro ⟨hn, ns', hl', rfl⟩
      refine ⟨ns', ⟨fun he => hn ?_, hl'⟩, rfl⟩
      subst he
      exact congrArg Namespace.name (Option.some.inj (hl'.symm.trans hl))
    case mpr =>
      rintro ⟨ns', ⟨hi, hl'⟩, rfl⟩
      exact ⟨fun hn => hi (h.id_unique hl' hl hn), ns', hl', rfl⟩
  fresh  := fun hl' => h.fresh (AList.lookup_erase_eq_some.mp hl').right
  budget := fun hl' => h.budget (AList.lookup_erase_eq_some.mp hl').right
  stamps := fun h₁ h₂ =>
    h.stamps (AList.lookup_erase_eq_some.mp h₁).right (AList.lookup_erase_eq_some.mp h₂).right
  tails := h.tails.erase
  used := by
    have hs := AList.sumBy_eq_add_erase
      (fun _ (ns : Namespace) => ns.charges + nameCharge ns.name) hl
    have hs := congrArg UInt64.ofNat hs
    simp only [h.used, (h.slot hl).used, charges, UInt64.ofNat_add] at hu hs ⊢
    grind
  entryCount := by
    have hs := AList.sumBy_eq_add_erase (fun _ (ns : Namespace) => ns.entries.size) hl
    have := h.entryCount
    dsimp only at hs ⊢
    omega
  marked := by
    have hs := AList.sumBy_eq_add_erase (fun _ (ns : Namespace) => ns.migrated.size) hl
    have := h.marked
    dsimp only at hs ⊢
    omega

-- A namespace of a new name gets the next identifier.
theorem create (h : s.WF sha256) (hn : s.namespaces.lookup ns.name = none)
    (hb : ns.budget = s.budgets.lookup ns.name) (hw : ns.WF sha256 clock)
    (hi : ns.entries.entries ≠ []) (hc : s.clock ≤ clock)
    (hr : ∀ {name entry}, ns.entries.lookup name = some entry → s.clock < entry.lastUsed)
    (hu : usedBytes = s.usedBytes + (ns.usedBytes + .ofNat (nameCharge ns.name)))
    (he : entryCount = s.entryCount + ns.entries.size)
    (hm : marked = s.marked + ns.migrated.size) :
    { s with
      nextSlotId := s.nextSlotId + 1
      slots      := s.slots.insert s.nextSlotId ns
      namespaces := s.namespaces.insert ns.name s.nextSlotId
      tails      := s.tails.push (toLex (0, s.nextSlotId))
      clock
      usedBytes
      entryCount
      marked }.WF sha256 := by
  have hf {id ns'} (hl : s.slots.lookup id = some ns') : id ≠ s.nextSlotId := (h.fresh hl).ne
  have hs : s.nextSlotId ∉ s.slots := fun hm =>
    have ⟨_, hl⟩ := AList.exists_lookup_of_mem hm
    hf hl rfl
  constructor
  case slot =>
    exact fun hl => AList.of_lookup_insert hl hw fun hl => h.slot hl |>.mono hc
  case inhabited => exact fun hl => AList.of_lookup_insert hl hi h.inhabited
  case index =>
    intro name id
    simp only [AList.lookup_insert_eq_ite]
    by_cases hd : id = s.nextSlotId
    case pos =>
      subst hd
      have ho : s.namespaces.lookup name ≠ some s.nextSlotId := fun hl =>
        have ⟨_, hl, _⟩ := h.index.mp hl
        hf hl rfl
      by_cases he : name = ns.name
      case pos => simp [he]
      case neg => simp [he, ho, Ne.symm he]
    case neg =>
      simp only [hd, if_false, ← h.index]
      by_cases he : name = ns.name
      case pos => subst he; simp [hn, Ne.symm hd]
      case neg => simp [he]
  case fresh =>
    exact fun hl => AList.of_lookup_insert hl (Nat.lt_succ_self _) fun hl =>
      (h.fresh hl).trans (Nat.lt_succ_self _)
  case budget => exact fun hl => AList.of_lookup_insert hl hb h.budget
  case stamps =>
    have new {id ns' name name' entry entry'} (hl : s.slots.lookup id = some ns')
        (he : ns.entries.lookup name = some entry) (he' : ns'.entries.lookup name' = some entry')
        (hs : entry.lastUsed = entry'.lastUsed) : False := by
      have := (h.slot hl).recent he'
      have := hr he
      omega
    intro id₁ id₂ ns₁ ns₂ name₁ name₂ e₁ e₂ hl₁ hl₂ he₁ he₂ hs
    simp only [AList.lookup_insert_eq_ite] at hl₁ hl₂
    split at hl₁ <;> split at hl₂
    case isTrue.isTrue h₁ h₂ => exact h₁.trans h₂.symm
    case isTrue.isFalse      => cases hl₁; exact (new hl₂ he₁ he₂ hs).elim
    case isFalse.isTrue      => cases hl₂; exact (new hl₁ he₂ he₁ hs.symm).elim
    case isFalse.isFalse     => exact h.stamps hl₁ hl₂ he₁ he₂ hs
  case tails => exact h.tails.create.mono hc
  case used =>
    simp only [charges, AList.sumBy_insert_of_notMem _ hs, hu, h.used, hw.used, UInt64.ofNat_add]
    grind
  case entryCount =>
    simp only [he, h.entryCount, AList.sumBy_insert_of_notMem _ hs, Nat.add_comm]
  case marked =>
    simp only [hm, h.marked, AList.sumBy_insert_of_notMem _ hs, Nat.add_comm]

theorem find_update (h : s.WF sha256) (hl : s.slots.lookup id = some ns)
    (hi : t.namespaces = s.namespaces) (ht : t.slots = s.slots.insert id ns') :
    t.find name = if name = ns.name then some ns' else s.find name := by
  simp only [find, findNamespace, hi, ht]
  by_cases he : name = ns.name
  case pos =>
    subst he
    simp [h.index.mpr ⟨ns, hl, rfl⟩]
  case neg =>
    cases hf : s.namespaces.lookup name
    case none => simp [he]
    case some id' =>
      have ⟨ns'', hl', hn'⟩ := h.index.mp hf
      have hd : id' ≠ id := by
        rintro rfl
        exact he (hn'.symm.trans (congrArg Namespace.name (Option.some.inj (hl'.symm.trans hl))))
      simp [he, AList.lookup_insert_ne hd]

theorem find_erase (h : s.WF sha256) (hl : s.slots.lookup id = some ns)
    (hi : t.namespaces = s.namespaces.erase ns.name) (ht : t.slots = s.slots.erase id) :
    t.find name = if name = ns.name then none else s.find name := by
  simp only [find, findNamespace, hi, ht, AList.lookup_erase_eq_ite]
  by_cases he : name = ns.name
  case pos => simp [he]
  case neg =>
    cases hf : s.namespaces.lookup name
    case none => simp [he]
    case some id' =>
      have ⟨ns'', hl', hn'⟩ := h.index.mp hf
      have hd : id' ≠ id := by
        rintro rfl
        exact he (hn'.symm.trans (congrArg Namespace.name (Option.some.inj (hl'.symm.trans hl))))
      simp [he, hd]

theorem find_create (h : s.WF sha256)
    (hi : t.namespaces = s.namespaces.insert ns.name s.nextSlotId)
    (ht : t.slots = s.slots.insert s.nextSlotId ns) :
    t.find name = if name = ns.name then some ns else s.find name := by
  simp only [find, findNamespace, hi, ht, AList.lookup_insert_eq_ite]
  by_cases he : name = ns.name
  case pos => simp [he]
  case neg =>
    cases hf : s.namespaces.lookup name
    case none => simp [he]
    case some id' =>
      have ⟨ns'', hl', _⟩ := h.index.mp hf
      simp [he, (h.fresh hl').ne]

theorem find_eq_some_iff (h : s.WF sha256) :
    s.find name = some ns ↔ ∃ id, s.slots.lookup id = some ns ∧ ns.name = name := by
  simp only [find, findNamespace, Option.bind_eq_bind, Option.bind_eq_some_iff, h.index]
  constructor
  case mp =>
    rintro ⟨id, ⟨ns', hl', hn⟩, hl⟩
    obtain rfl := Option.some.inj (hl'.symm.trans hl)
    exact ⟨id, hl, hn⟩
  case mpr =>
    rintro ⟨id, hl, hn⟩
    exact ⟨id, ⟨ns, hl, hn⟩, hl⟩

end WF
end Store
end Nanocached
