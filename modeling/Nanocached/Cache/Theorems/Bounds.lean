import Nanocached.Cache.Theorems.GlobalLru
import Nanocached.Cache.Theorems.Accounting

-- What a write leaves behind: the entry it wrote, a cache within its bounds, and of the other
-- entries those that were used last.

namespace Nanocached

variable {sha256 : Bytes → Vector UInt8 32} {id : Nat} {ns ns' ns'' : Namespace} {name w : Bytes}
variable {entry entry' : Entry} {key key' : Key} {value : Bytes} {expiresAt : Option Instant}

-- Whatever `ns'` has, `ns` has as well.
structure Namespace.Sheds (ns ns' : Namespace) : Prop where
  name    : ns'.name = ns.name
  budget  : ns'.budget = ns.budget
  size    : ns'.entries.size ≤ ns.entries.size
  charges : ns'.charges ≤ ns.charges
  marks   : ∀ {name}, name ∈ ns'.migrated → name ∈ ns.migrated
  digests : ∀ {name}, name ∈ ns'.digests → name ∈ ns.digests

namespace Namespace.Sheds

theorem refl : Sheds ns ns :=
  ⟨rfl, rfl, le_rfl, le_rfl, id, id⟩

theorem trans (h : Sheds ns ns') (h' : Sheds ns' ns'') : Sheds ns ns'' where
  name    := h'.name.trans h.name
  budget  := h'.budget.trans h.budget
  size    := h'.size.trans h.size
  charges := h'.charges.trans h.charges
  marks   := h.marks ∘ h'.marks
  digests := h.digests ∘ h'.digests

theorem without : Sheds ns (ns.without name) where
  name    := rfl
  budget  := rfl
  size    := AList.erase_entries_sublist.length_le
  charges := by
    rw [charges_without ns name]
    exact Nat.le_add_left _ _
  marks   := fun hm => (AList.mem_erase.mp hm).2
  digests := fun hm => (AList.mem_erase.mp hm).2

end Namespace.Sheds

namespace Store

variable {s s' s'' : Store}

-- The key was used last.
def Newest (s : Store) (key : Key) : Prop :=
  ∃ entry, s.peek key = some entry ∧
    ∀ {key' entry'}, s.peek key' = some entry' → entry'.lastUsed ≤ entry.lastUsed

theorem WF.peek_of_lookup (h : s.WF sha256) (hl : s.slots.lookup id = some ns)
    (he : ns.entries.lookup name = some entry) : s.peek ⟨ns.name, name⟩ = some entry :=
  (peek_eq_some_iff h).mpr ⟨id, ns, hl, rfl, he⟩

theorem WF.exists_peek (h : s.WF sha256) (hl : s.slots.lookup id = some ns) :
    ∃ key entry, s.peek key = some entry ∧ key.ns = ns.name := by
  obtain ⟨name, entry, he⟩ := AList.exists_lookup_of_size_pos
    (List.length_pos_iff.mpr (h.inhabited hl))
  exact ⟨_, entry, h.peek_of_lookup hl he, rfl⟩

theorem WF.eq_of_stamp (h : s.WF sha256) (hp : s.peek key = some entry)
    (hp' : s.peek key' = some entry') (hs : entry.lastUsed = entry'.lastUsed) : key = key' := by
  obtain ⟨_, _, hl, hn, he⟩ := (peek_eq_some_iff h).mp hp
  obtain ⟨_, _, hl', hn', he'⟩ := (peek_eq_some_iff h).mp hp'
  obtain ⟨hi, hm⟩ := h.stamp_unique hl hl' he he' hs
  subst hi
  cases hl.symm.trans hl'
  exact Key.ext (hn.symm.trans hn') hm

-- Entries were removed from `s`: from the namespace `w` its oldest ones, from the others the oldest
-- ones of all.
structure Evicts (w : Bytes) (s s' : Store) : Prop where
  kept   : ∀ {key entry}, s'.peek key = some entry → s.peek key = some entry
  older  : ∀ {key entry key' entry'}, s.peek key = some entry → s'.peek key = none →
             s'.peek key' = some entry' → key'.ns = key.ns ∨ key.ns ≠ w →
             entry.lastUsed < entry'.lastUsed
  slots  : ∀ {id ns'}, s'.slots.lookup id = some ns' →
             ∃ ns, s.slots.lookup id = some ns ∧ ns.Sheds ns'

namespace Evicts

theorem refl : Evicts w s s where
  kept   := id
  older  := by
    intro key entry key' entry' h hn
    simp [h] at hn
  slots  := fun h => ⟨_, h, .refl⟩

theorem trans (h : Evicts w s s') (h' : Evicts w s' s'') : Evicts w s s'' where
  kept   := h.kept ∘ h'.kept
  older  := by
    intro key entry key' entry' hp hn hp' hw
    cases hk : s'.peek key
    case none => exact h.older hp hk (h'.kept hp') hw
    case some e =>
      cases hp.symm.trans (h.kept hk)
      exact h'.older hk hn hp' hw
  slots  := by
    intro id ns'' hl
    obtain ⟨ns', hl, hs'⟩ := h'.slots hl
    obtain ⟨ns, hl, hs⟩ := h.slots hl
    exact ⟨ns, hl, hs.trans hs'⟩

theorem removed (h : s.WF sha256) (hl : s.slots.lookup id = some ns)
    (he : ns.entries.lookup name = some entry)
    (hle : ∀ {key' entry'}, s.peek key' = some entry' → key'.ns = ns.name ∨ ns.name ≠ w →
      entry.lastUsed ≤ entry'.lastUsed) : Evicts w s (s.removed id ns name) where
  kept   := by
    intro key e hp
    rw [h.peek_removed hl] at hp
    exact (Option.ite_none_left_eq_some.mp hp).2
  older  := by
    intro key e key' e' hp hn hp' hw
    rw [h.peek_removed hl] at hn hp'
    obtain ⟨hne, hp'⟩ := Option.ite_none_left_eq_some.mp hp'
    have hk : key = ⟨ns.name, name⟩ := by
      by_contra hk
      rw [if_neg hk, hp] at hn
      contradiction
    subst hk
    have hp₀ := h.peek_of_lookup hl he
    cases hp.symm.trans hp₀
    exact lt_of_le_of_ne (hle hp' hw) fun hs => hne (h.eq_of_stamp hp' hp₀ hs.symm)
  slots  := by
    intro id' ns' hl'
    rw [removed_slots_eq] at hl'
    split at hl'
    case isTrue => exact ⟨ns', (AList.lookup_erase_eq_some.mp hl').2, .refl⟩
    case isFalse =>
      rw [AList.lookup_insert_eq_ite] at hl'
      split at hl'
      case isFalse => exact ⟨ns', hl', .refl⟩
      case isTrue hi =>
        cases hl'
        exact ⟨ns, hi ▸ hl, .without⟩

-- The key that was used last is not evicted before the others are.
theorem newest (h : Evicts w s s') (hk : s.Newest key) (hp : s'.peek key' = some entry)
    (hw : key'.ns = key.ns ∨ key.ns ≠ w) : s'.Newest key := by
  obtain ⟨last, hl, hm⟩ := hk
  cases hn : s'.peek key
  case none => exact absurd (h.older hl hn hp hw) (not_lt.mpr (hm (h.kept hp)))
  case some =>
    cases hl.symm.trans (h.kept hn)
    exact ⟨last, hn, fun hp' => hm (h.kept hp')⟩

end Evicts
end Store

namespace Cache

variable {s s' : Cache}

theorem evicts_evictOne (h : s.WF sha256) (hn : 0 < s.entryCount) (he : s.evictOne = some s') :
    Store.Evicts w s.toStore s'.toStore := by
  obtain ⟨id, ns, name, entry, tails, victim, -, he'⟩ := s.evictOne_eq h hn
  cases he.symm.trans he'
  have hr := Store.Evicts.removed (w := w) h victim.slot (Namespace.lookup_of_peekLru victim.lru)
    fun {key' entry'} hp _ => by
      obtain ⟨_, _, hl, _, hp⟩ := (Store.peek_eq_some_iff h).mp hp
      exact victim.least hl hp
  exact ⟨hr.kept, hr.older, hr.slots⟩

theorem evicts_evictWhileOver {fuel : Nat} (h : s.WF sha256) (hn : 0 < s.entryCount)
    (he : evictWhileOver fuel s = some s') :
    (∀ w, Store.Evicts w s.toStore s'.toStore) ∧ 0 < s'.entryCount := by
  induction fuel generalizing s
  case zero =>
    cases he
    exact ⟨fun _ => .refl, hn⟩
  case succ fuel hi =>
    rw [evictWhileOver] at he
    split at he
    case isFalse =>
      cases he
      exact ⟨fun _ => .refl, hn⟩
    case isTrue hc =>
      obtain ⟨s₁, he₁, he⟩ := Option.bind_eq_some_iff.mp he
      obtain ⟨_, _, he', hs, hn'⟩ := s.evictOne_steps h hn
      cases he₁.symm.trans he'
      obtain ⟨hev, hn'⟩ := hi (hs.wf h) (by omega) he
      exact ⟨fun w => (evicts_evictOne h hn he₁).trans (hev w), hn'⟩

-- The namespace keeps an entry.
theorem evicts_enforceNamespaceBudgetGo {fuel : Nat} (h : s.WF sha256)
    (hw : ∃ ns, s.slots.lookup id = some ns ∧ ns.name = w)
    (he : enforceNamespaceBudgetGo id fuel s = some s') :
    Store.Evicts w s.toStore s'.toStore ∧ ∃ ns, s'.slots.lookup id = some ns ∧ ns.name = w := by
  induction fuel generalizing s
  case zero =>
    cases he
    exact ⟨.refl, hw⟩
  case succ fuel hi =>
    rw [enforceNamespaceBudgetGo] at he
    obtain ⟨ns, hl, hn⟩ := hw
    rw [hl] at he
    dsimp only at he
    split at he
    case h_1 =>
      cases he
      exact ⟨.refl, ns, hl, hn⟩
    case h_2 budget hb =>
      split at he
      case isTrue =>
        cases he
        exact ⟨.refl, ns, hl, hn⟩
      case isFalse hc =>
        obtain ⟨s₁, he₁, he⟩ := Option.bind_eq_some_iff.mp he
        cases hp : ns.peekLru
        case none => exact absurd (Namespace.peekLru_eq_none_iff.mp hp) (h.inhabited hl)
        case some p =>
          obtain ⟨name, entry⟩ := p
          cases he₁.symm.trans (evictOneFrom_eq hl hp)
          have hm := Namespace.lookup_of_peekLru hp
          have hr := Store.Evicts.removed (w := w) h hl hm fun {key' entry'} hp' hk => by
            obtain ⟨_, ns', hl', hn', hp'⟩ := (Store.peek_eq_some_iff h).mp hp'
            have hk : ns'.name = ns.name := hn'.trans (hk.resolve_right (not_not.mpr hn))
            cases h.id_unique hl' hl hk
            cases hl.symm.trans hl'
            exact Namespace.peekLru_le (h.slot hl).ordered hp hp'
          have hd : (ns.entries.erase name).entries ≠ [] := fun hd => by
            have : (ns.entries.erase name).size = 0 := congrArg List.length hd
            have := AList.size_erase_of_lookup hm
            omega
          obtain ⟨hev, hw'⟩ := hi (h.removed hl (AList.mem_of_lookup hm))
            ⟨ns.without name, by simp [Store.removed_slots_eq, hd], hn⟩ he
          exact ⟨hr.trans hev, hw'⟩

end Cache

namespace Store

variable {s s₁ s' : Store}

-- The state `s'` that a write leaves, given the state it finds.
structure Stored (s : Store) (key : Key) (value : Bytes) (expiresAt : Option Instant) (s' : Store) :
    Prop where
  entry    : s'.peek key = some ⟨value, expiresAt, s.clock + 1⟩
  newest   : ∀ {key' entry'}, key' ≠ key → s'.peek key' = some entry' → entry'.lastUsed ≤ s.clock
  unmarked : s'.isMarked key = false
  undigest : ∀ {ns}, s'.find key.ns = some ns → key.name ∉ ns.digests
  memory   : s'.usedBytes ≤ s.maxMemoryBytes ∨ s'.entryCount = 1
  -- The bytes the namespace is charged for are counted right while they fit into 64 bits.
  budget   : s.charges + entryCharge key.name value < 2 ^ 64 →
               ∀ {ns budget}, s'.find key.ns = some ns → s.budgets.lookup key.ns = some budget →
               ns.usedBytes ≤ budget ∨ ns.entries.size = 1
  kept     : ∀ {key' entry'}, key' ≠ key → s'.peek key' = some entry' → s.peek key' = some entry'
  older    : ∀ {key' entry' other entry''}, s.peek key' = some entry' → s'.peek key' = none →
               s'.peek other = some entry'' → other.ns = key'.ns ∨ key'.ns ≠ key.ns →
               entry'.lastUsed < entry''.lastUsed

theorem Written.peek (hw : Written sha256 s key value expiresAt id s') (hn : key' ≠ key) :
    s'.peek key' = s.peek key' := by
  rw [peek_eq, peek_eq, hw.find]
  split
  case isFalse   => rfl
  case isTrue he =>
    have hm : key'.name ≠ key.name := fun hm => hn (Key.ext he hm)
    rw [Option.bind_some, Namespace.written, AList.lookup_insert_ne hm, he, ensured]
    cases s.find key.ns
    case none   => rfl
    case some n => rfl

theorem Written.peek_self (hw : Written sha256 s key value expiresAt id s₁) :
    s₁.peek key = some ⟨value, expiresAt, s.clock + 1⟩ := by
  simp [peek_eq, hw.find, Namespace.written]

theorem Written.newest (hw : Written sha256 s key value expiresAt id s') (h : s.WF sha256) :
    s'.Newest key := by
  refine ⟨_, hw.peek_self, fun {key' entry'} hp' => ?_⟩
  by_cases hn : key' = key
  case pos =>
    subst hn
    cases hw.peek_self.symm.trans hp'
    exact le_rfl
  case neg =>
    rw [hw.peek hn] at hp'
    obtain ⟨_, _, hl, _, he⟩ := (peek_eq_some_iff h).mp hp'
    exact ((h.slot hl).recent he).trans (Nat.le_succ _)

-- The namespace that was written to, after entries were evicted.
theorem Written.sheds (hw : Written sha256 s key value expiresAt id s₁) (he : Evicts w s₁ s')
    (hl : s'.slots.lookup id = some ns) :
    ((s.ensured key.ns).written key.name ⟨value, expiresAt, s.clock + 1⟩).Sheds ns := by
  obtain ⟨ns₁, hl₁, hs⟩ := he.slots hl
  obtain ⟨ns₂, hl₂, hn⟩ := hw.wf.index.mp hw.index
  cases hl₁.symm.trans hl₂
  have hf := hw.find key.ns
  rw [if_pos rfl, hw.wf.find_eq_some_iff.mpr ⟨id, hl₁, hn⟩] at hf
  cases hf
  exact hs

theorem Written.lookup_of_find (hw : Written sha256 s key value expiresAt id s₁)
    (he : Evicts w s₁ s') (h' : s'.WF sha256) (hf : s'.find key.ns = some ns) :
    s'.slots.lookup id = some ns := by
  obtain ⟨id', hl, hn⟩ := h'.find_eq_some_iff.mp hf
  obtain ⟨ns₁, hl₁, hs⟩ := he.slots hl
  obtain ⟨ns₂, hl₂, hn₂⟩ := hw.wf.index.mp hw.index
  cases hw.wf.id_unique hl₁ hl₂ (hs.name.symm.trans (hn.trans hn₂.symm))
  exact hl

theorem charges_ensured_le (h : s.WF sha256) : (s.ensured name).charges ≤ s.charges := by
  rw [ensured]
  cases hf : s.find name
  case none    => exact (Namespace.charges_new _).le.trans (Nat.zero_le _)
  case some ns =>
    obtain ⟨id, hl, -⟩ := h.find_eq_some_iff.mp hf
    exact charges_le hl

theorem Written.charges_lt (h : s.WF sha256) (hw : Written sha256 s key value expiresAt id s₁)
    (he : Evicts w s₁ s') (hl : s'.slots.lookup id = some ns)
    (hc : s.charges + entryCharge key.name value < 2 ^ 64) : ns.charges < 2 ^ 64 := by
  have hs := (hw.sheds he hl).charges
  have hn := (s.ensured key.ns).charges_without key.name
  have : (s.ensured key.ns).charges ≤ s.charges := charges_ensured_le h
  rw [Namespace.charges_written] at hs
  dsimp only at hs
  omega

end Store

namespace Cache

variable {s s' : Cache}

theorem stored_insert (h : s.WF sha256) (hi : s.insert key value expiresAt = some s') :
    Store.Stored s.toStore key value expiresAt s'.toStore := by
  obtain ⟨id, t, s₁, he, hp, hw⟩ := h.put_ensureNamespace key value expiresAt
  simp only [insert, he, insertInto, hp, Option.bind_eq_bind, Option.bind_some] at hi
  obtain ⟨s₂, hb, ho⟩ := Option.bind_eq_some_iff.mp hi
  obtain ⟨_, _, hb', hs₁, hin, -⟩ :=
    enforceNamespaceBudget_steps (s := { s with toStore := s₁ }) hw.wf id
  cases hb.symm.trans hb'
  have hw₂ := hs₁.wf hw.wf
  obtain ⟨_, _, ho', hs₂, hover, -⟩ := evictWhileOver_steps hw₂
  cases ho.symm.trans ho'
  obtain ⟨he₁, ns₁, hl₁, hn₁⟩ :=
    evicts_enforceNamespaceBudgetGo hw.wf (hw.wf.index.mp hw.index) hb
  obtain ⟨he₂, hc⟩ := evicts_evictWhileOver hw₂ (hw₂.entryCount_pos hl₁) ho
  have hev := he₁.trans (he₂ key.ns)
  have hw' := hs₂.wf hw₂
  -- The key is not evicted, neither from among those of its namespace nor from among all.
  obtain ⟨entry, hnew, -⟩ : s'.Newest key := by
    obtain ⟨_, _, hp, hn⟩ := hw₂.exists_peek hl₁
    obtain ⟨_, _, hl⟩ := hw'.exists_slot hc
    obtain ⟨_, _, hp', _⟩ := hw'.exists_peek hl
    have hk : s₂.Newest key := he₁.newest (hw.newest h) hp (.inl (hn.trans hn₁))
    exact (he₂ (0 :: key.ns)).newest hk hp' (.inr (by simp))
  have hframe := hw.frame.trans ((hs₁.trans hs₂).frame hw.wf)
  constructor
  case entry => rw [hnew, ← hev.kept hnew, hw.peek_self]
  case newest =>
    intro key' entry' hn hp
    have hp := hev.kept hp
    rw [hw.peek hn] at hp
    obtain ⟨_, _, hl, _, hp⟩ := (Store.peek_eq_some_iff h).mp hp
    exact (h.slot hl).recent hp
  case unmarked =>
    rw [Store.isMarked, Bool.eq_false_iff]
    intro hm
    obtain ⟨ns, hf, hm⟩ := Option.any_eq_true _ _ |>.mp hm
    have hm := (hw.sheds hev (hw.lookup_of_find hev hw' hf)).marks (of_decide_eq_true hm)
    simp [Namespace.written] at hm
  case undigest =>
    intro ns hf hm
    have hm := (hw.sheds hev (hw.lookup_of_find hev hw' hf)).digests hm
    simp [Namespace.written] at hm
  case memory =>
    rw [← hframe.maxMemoryBytes]
    by_cases hu : s'.usedBytes ≤ s'.maxMemoryBytes
    case pos => exact .inl hu
    case neg =>
      have := mt (And.intro (UInt64.not_le.mp hu)) hover
      exact .inr (by omega)
  case budget =>
    intro hc ns budget hf hbud
    have hl := hw.lookup_of_find hev hw' hf
    obtain ⟨ns₂, hl₂, hs⟩ := (he₂ key.ns).slots hl
    have hb₂ : ns₂.budget = some budget := by
      obtain ⟨_, _, hn⟩ := hw'.find_eq_some_iff.mp hf
      rw [hw₂.budget hl₂, (hw.frame.trans (hs₁.frame hw.wf)).budgets, ← hs.name, hn]
      exact hbud
    -- What was within the budget still is: nothing but evictions came after it.
    obtain hu | hn := hin ns₂ budget hl₂ hb₂
    · refine .inl ?_
      have hlt := hw.charges_lt h he₁ hl₂ hc
      rw [UInt64.le_iff_toNat_le, (hw₂.slot hl₂).used, UInt64.toNat_ofNat_of_lt' hlt] at hu
      rw [UInt64.le_iff_toNat_le, (hw'.slot hl).used,
        UInt64.toNat_ofNat_of_lt' (hs.charges.trans_lt hlt)]
      exact hs.charges.trans hu
    · have hp : 0 < ns.entries.size := List.length_pos_iff.mpr (hw'.inhabited hl)
      have := hs.size
      exact .inr (by omega)
  case kept =>
    intro key' entry' hn hp
    exact hw.peek hn ▸ hev.kept hp
  case older =>
    intro key' entry' other entry'' hp hn hp' hk
    have hne : key' ≠ key := by
      rintro rfl
      simp [hnew] at hn
    exact hev.older ((hw.peek hne).trans hp) hn hp' hk

-- The writes a call makes: the state one finds, what it writes, and the state it leaves.
inductive Inserts (sha256 : Bytes → Vector UInt8 32) (s : Cache) (now : Instant) :
    Op → Cache → Key → Bytes → Option Instant → Cache → Prop
  | set {key : Key} {value : Bytes} {s' : Cache} :
    s.set key value = some s' → Inserts sha256 s now (.set key value) s key value none s'
  | setWithTtl {key : Key} {value : Bytes} {ttl : Duration} {s' : Cache} :
    s.setWithTtl key value ttl now = some s' →
    Inserts sha256 s now (.setWithTtl key value ttl) s key value (checkedAdd now ttl) s'
  | setMany {ns name value : Bytes} {done rest : List (Bytes × Bytes)} {ttl : Option Duration}
      {t t' : Cache} :
    s.setMany ns done ttl now = some t → s.setMany ns (done ++ [(name, value)]) ttl now = some t' →
    Inserts sha256 s now (.setMany ns (done ++ (name, value) :: rest) ttl)
      t ⟨ns, name⟩ value (ttl.bind (checkedAdd now)) t'
  | incr {key : Key} {delta n : Int} {entry : Entry} {s' : Cache} :
    s.peek key = some entry →
    { s with incrs := s.incrs + 1 }.insert key (toDecimal n) entry.expiresAt = some s' →
    s.incrAt key delta now = some (.value n (Store.remainingTtl entry now), s') →
    Inserts sha256 s now (.incr key delta) s key (toDecimal n) entry.expiresAt s'
  | casSet {key : Key} {condition : CasCondition} {value : Bytes} {ttl : Option Duration}
      {t s' : Cache} :
    s.conditionHoldsAt sha256 key condition now = some (true, t) →
    s.casSetAt sha256 key condition value ttl now = some (.stored, s') →
    Inserts sha256 s now (.casSet key condition value ttl)
      t key value (ttl.bind (checkedAdd now)) s'
  | handoffSet {key : Key} {value : Bytes} {ttl : Option Duration} {aheadOfRing changed : Bool}
      {s' : Cache} :
    ttl ≠ some 0 → s.handoffSet key value ttl aheadOfRing now = some (changed, s') →
    Inserts sha256 s now (.handoffSet key value ttl aheadOfRing)
      s key value (ttl.bind (checkedAdd now)) s'
  | handoffSetIfAbsent {key : Key} {value : Bytes} {ttl : Option Duration} {aheadOfRing holds : Bool}
      {t s' : Cache} :
    (s.noteHandoff now aheadOfRing).conditionHoldsAt sha256 key .absent now = some (holds, t) →
    s.handoffSetIfAbsentAt sha256 key value ttl aheadOfRing now = some (.stored, s') →
    Inserts sha256 s now (.handoffSetIfAbsent key value ttl aheadOfRing)
      t key value (ttl.bind (checkedAdd now)) s'

section Inserts

variable {op : Op} {now : Instant} {t t' : Cache}

-- The last write of a batch is a write to the state the others leave.
theorem insert_of_setManyGo {ns : Bytes} {done : List (Bytes × Bytes)} {live : Option Nat}
    (h : s.WF sha256) (hi : ∀ i ∈ live, i ∈ s.slots → s.findNamespace ns = some i)
    (hd : setManyGo ns expiresAt done live s = some t)
    (ha : setManyGo ns expiresAt (done ++ [(name, value)]) live s = some t') :
    { t with sets := t.sets + 1 }.insert ⟨ns, name⟩ value expiresAt = some t' := by
  induction done generalizing s live
  case nil =>
    cases hd
    rcases he : t.ensureNamespace ns with ⟨id, u⟩
    have hl := (liveNamespace_eq (s := { t with sets := t.sets + 1 }) hi).trans he
    rw [List.nil_append, setManyGo] at ha
    simp only [hl, setManyGo, Option.bind_eq_bind] at ha
    obtain ⟨s₁, hs, ha⟩ := Option.bind_eq_some_iff.mp ha
    cases ha
    simp only [insert, he, hs]
  case cons item done hr =>
    obtain ⟨name', value'⟩ := item
    rcases he : s.ensureNamespace ns with ⟨id, u⟩
    have hl := (liveNamespace_eq (s := { s with sets := s.sets + 1 }) hi).trans he
    obtain ⟨keys, s₁, hi₁, hs₁, -, hm⟩ := insertInto_steps
      (s := { s with sets := s.sets + 1 }) h ⟨ns, name'⟩ value' expiresAt he
    rw [List.cons_append, setManyGo] at ha
    rw [setManyGo] at hd
    simp only [hl, hi₁, Option.bind_eq_bind, Option.bind_some] at ha hd
    refine hr (hs₁.wf h) (fun i hi => ?_) hd ha
    cases hi
    exact hm

theorem wf_of_conditionHoldsAt {condition : CasCondition} {holds : Bool} (h : s.WF sha256)
    (hc : s.conditionHoldsAt sha256 key condition now = some (holds, t)) : t.WF sha256 := by
  obtain ⟨s', he, hs⟩ := conditionHoldsAt_steps h key condition now
  cases hc.symm.trans he
  exact hs.wf h

theorem stored_of_inserts (h : s.WF sha256)
    (hi : Inserts sha256 s now op t key value expiresAt t') :
    Store.Stored t.toStore key value expiresAt t'.toStore := by
  cases hi
  case set hs        => exact stored_insert (s := { s with sets := s.sets + 1 }) h hs
  case setWithTtl hs => exact stored_insert (s := { s with sets := s.sets + 1 }) h hs
  case setMany ns name done rest ttl hd ha =>
    obtain ⟨cs, u, hd', hs, -⟩ := s.setMany_steps h ns done ttl now
    cases hd.symm.trans hd'
    exact stored_insert (s := { t with sets := t.sets + 1 }) (hs.wf h)
      (insert_of_setManyGo h (by simp) hd ha)
  case incr hp hs _ => exact stored_insert (s := { s with incrs := s.incrs + 1 }) h hs
  case casSet condition ttl hc hs =>
    simp only [casSetAt, hc, Option.bind_eq_bind, Option.bind_some] at hs
    obtain ⟨u, hi, hs⟩ := Option.bind_eq_some_iff.mp hs
    cases hs
    have hw := wf_of_conditionHoldsAt h hc
    exact stored_insert (s := { t with casSets := t.casSets + 1 }) hw hi
  case handoffSet ttl aheadOfRing changed hz hs =>
    have hn := s.toStore_noteHandoff now aheadOfRing
    simp only [handoffSet, if_neg hz] at hs
    obtain ⟨u, hi, hs⟩ := Option.bind_eq_some_iff.mp hs
    cases hs
    rw [← hn] at h ⊢
    exact stored_insert h hi
  case handoffSetIfAbsent ttl aheadOfRing holds hc hs =>
    have hn := s.toStore_noteHandoff now aheadOfRing
    rw [← hn] at h
    rw [handoffSetIfAbsentAt] at hs
    split at hs
    case isTrue => cases hs
    case isFalse =>
      simp only [hc, Option.bind_eq_bind, Option.bind_some, Option.pure_def] at hs
      split at hs
      case isTrue => cases hs
      case isFalse =>
        obtain ⟨u, hi, hs⟩ := Option.bind_eq_some_iff.mp hs
        cases hs
        exact stored_insert (wf_of_conditionHoldsAt h hc) hi

-- Whatever a call writes is written by one of these.
theorem exists_inserts {r : Response} (h : s.WF sha256) (he : exec sha256 s now op = some (r, s'))
    (hw : (Event.mk now op r).Writes key) :
    ∃ t value expiresAt t', Inserts sha256 s now op t key value expiresAt t' := by
  cases op
  case set =>
    cases hw
    obtain ⟨s₁, hs, -⟩ := Option.bind_eq_some_iff.mp he
    exact ⟨_, _, _, _, .set hs⟩
  case setWithTtl =>
    cases hw
    obtain ⟨s₁, hs, -⟩ := Option.bind_eq_some_iff.mp he
    exact ⟨_, _, _, _, .setWithTtl hs⟩
  case setMany ns items ttl =>
    obtain ⟨_, name⟩ := key
    obtain ⟨rfl, hw⟩ := hw
    obtain ⟨⟨name, value⟩, hm, rfl⟩ := List.mem_map.mp hw
    obtain ⟨done, rest, rfl⟩ := List.append_of_mem hm
    obtain ⟨_, t, hd, -⟩ := s.setMany_steps h ns done ttl now
    obtain ⟨_, t', ha, -⟩ := s.setMany_steps h ns (done ++ [(name, value)]) ttl now
    exact ⟨_, _, _, _, .setMany hd ha⟩
  case incr k delta =>
    obtain ⟨⟨result, s₁⟩, hs, he⟩ := Option.bind_eq_some_iff.mp he
    cases he
    cases result
    case notFound | notNumeric => exact False.elim hw
    case value n ttl =>
      obtain rfl : k = key := hw
      have hs' := hs
      rw [incrAt] at hs
      split at hs
      case h_1 => cases hs
      case h_2 entry hp =>
        split at hs
        case isTrue =>
          obtain ⟨_, -, hs⟩ := Option.bind_eq_some_iff.mp hs
          cases hs
        case isFalse =>
          split at hs
          case h_1 => cases hs
          case h_2 =>
            split at hs
            case h_1 => cases hs
            case h_2 =>
              obtain ⟨s₂, hi, hs⟩ := Option.bind_eq_some_iff.mp hs
              cases hs
              exact ⟨_, _, _, _, .incr hp hi hs'⟩
  case casSet k condition value ttl =>
    obtain ⟨⟨result, s₁⟩, hs, he⟩ := Option.bind_eq_some_iff.mp he
    cases he
    cases result
    case mismatch => exact False.elim hw
    case stored =>
      obtain rfl : k = key := hw
      have hs' := hs
      obtain ⟨⟨holds, t⟩, hc, hs⟩ := Option.bind_eq_some_iff.mp hs
      cases holds
      case false => cases hs
      case true  => exact ⟨_, _, _, _, .casSet hc hs'⟩
  case handoffSet k value ttl aheadOfRing =>
    obtain ⟨rfl, hz⟩ := hw
    obtain ⟨⟨changed, s₁⟩, hs, -⟩ := Option.bind_eq_some_iff.mp he
    exact ⟨_, _, _, _, .handoffSet hz hs⟩
  case handoffSetIfAbsent k value ttl aheadOfRing =>
    obtain ⟨⟨result, s₁⟩, hs, he⟩ := Option.bind_eq_some_iff.mp he
    cases he
    cases result
    case mismatch => exact False.elim hw
    case stored =>
      obtain rfl : k = key := hw
      have hs' := hs
      rw [handoffSetIfAbsentAt] at hs
      split at hs
      case isTrue => cases hs
      case isFalse =>
        obtain ⟨⟨holds, t⟩, hc, -⟩ := Option.bind_eq_some_iff.mp hs
        exact ⟨_, _, _, _, .handoffSetIfAbsent hc hs'⟩
  all_goals exact False.elim hw

variable {maxMemoryBytes : UInt64} {budgets : List (Bytes × UInt64)}

theorem Reachable.inserts_stored (h : Reachable sha256 maxMemoryBytes budgets s) :
    (∀ {t t' key value expiresAt}, Inserts sha256 s now op t key value expiresAt t' →
      Store.Stored t.toStore key value expiresAt t'.toStore) ∧
    ∀ {r s' key}, exec sha256 s now op = some (r, s') → (Event.mk now op r).Writes key →
      ∃ t value expiresAt t', Inserts sha256 s now op t key value expiresAt t' :=
  ⟨stored_of_inserts h.wf, exists_inserts h.wf⟩

-- Two entries of 182 bytes do not fit into 200.
theorem inserts_stored_of_eviction : ∃ s s' : Cache,
    Inserts (fun _ => .replicate 32 0) s 1 (.set ⟨[], [2]⟩ [3]) s ⟨[], [2]⟩ [3] none s' ∧
    s.peek ⟨[], [1]⟩ = some ⟨[1], none, 1⟩ ∧ s'.peek ⟨[], [1]⟩ = none ∧
    s'.peek ⟨[], [2]⟩ = some ⟨[3], none, 2⟩ ∧ s'.entryCount = 1 := by
  have hc : (execAll (fun _ => .replicate 32 0) (withBudgets 200 [])
      [(0, .set ⟨[], [1]⟩ [1])]).map (fun p => (p.2.peek ⟨[], [1]⟩, p.2.clock,
        (p.2.set ⟨[], [2]⟩ [3]).map fun s' => (s'.peek ⟨[], [1]⟩, s'.entryCount))) =
      some (some ⟨[1], none, 1⟩, 1, some (none, 1)) := by
    decide
  obtain ⟨⟨es, s⟩, hs, hc⟩ := Option.map_eq_some_iff.mp hc
  obtain ⟨hp, hc⟩ := Prod.mk.inj hc
  obtain ⟨hn, hc⟩ := Prod.mk.inj hc
  obtain ⟨s', hi, hc⟩ := Option.map_eq_some_iff.mp hc
  obtain ⟨hp', hc⟩ := Prod.mk.inj hc
  have ht : Timely es := by
    rw [Timely, ← List.pairwise_map, now_of_execAll hs]
    simp
  have hi : Inserts (fun _ => .replicate 32 0) s 1 _ s ⟨[], [2]⟩ [3] none s' := .set hi
  have h : Reachable _ 200 [] s := ⟨ht, .of_execAll hs⟩
  have he := (h.inserts_stored.1 hi).entry
  rw [show s.clock = 1 from hn] at he
  exact ⟨s, s', hi, hp, hp', he, hc⟩

end Inserts

end Cache
end Nanocached
