import Nanocached.Cache.Step

namespace Nanocached.Store

variable {sha256 : Bytes → Vector UInt8 32} {s s' t : Store} {id : Nat} {ns ns' : Namespace}
variable {name name' value : Bytes} {entry : Entry} {expiresAt : Option Instant} {key : Key}

namespace WF

theorem hash (h : s.WF sha256) (hl : s.slots.lookup id = some ns)
    (he : ns.entries.lookup name = some entry)
    (hc : digestCacheMinValueBytes ≤ entry.value.length) (hd : name ∉ ns.digests) :
    { s with
      slots := s.slots.insert id { ns with
        digests   := ns.digests.insert name (contentDigest sha256 entry.value)
        usedBytes := ns.usedBytes + UInt64.ofNat (digestCharge name) }
      usedBytes := s.usedBytes + UInt64.ofNat (digestCharge name) }.WF sha256 :=
  h.update hl rfl rfl (h.slot hl |>.hashed he hd hc) (h.inhabited hl :) (.of_entries_eq rfl) le_rfl
    (by dsimp only; grind) rfl rfl

theorem use (h : s.WF sha256) (hl : s.slots.lookup id = some ns)
    (he : ns.entries.lookup name = some entry) :
    { s with
      clock := s.clock + 1
      slots := s.slots.insert id { ns with
        entries := ns.entries.insert name ⟨entry.value, expiresAt, s.clock + 1⟩ } }.WF sha256 :=
  h.update hl rfl rfl (h.slot hl |>.promoted he rfl rfl) (by simp) (.of_insert rfl (Nat.lt_succ_self _))
    (Nat.le_succ _) rfl (by simp only [AList.size_insert_of_lookup he]) rfl

theorem amend (h : s.WF sha256) (hl : s.slots.lookup id = some ns)
    (he : ns.entries.lookup name = some entry) :
    { s with
      slots := s.slots.insert id { ns with
        entries := ns.entries.replace name { entry with expiresAt } } }.WF sha256 :=
  h.update hl rfl rfl (h.slot hl |>.amended he rfl rfl) (AList.entries_replace_ne_nil he) (.of_replace rfl he rfl) le_rfl
    rfl (by simp only [AList.size_replace]) rfl

theorem mark (h : s.WF sha256) (hl : s.slots.lookup id = some ns) (he : name ∈ ns.entries)
    (hm : name ∉ ns.migrated) :
    { s with
      slots := s.slots.insert id { ns with
        migrated  := ns.migrated.insert name ()
        usedBytes := ns.usedBytes + UInt64.ofNat (markCharge name) }
      usedBytes := s.usedBytes + UInt64.ofNat (markCharge name)
      marked    := s.marked + 1 }.WF sha256 :=
  h.update hl rfl rfl (h.slot hl |>.marked he hm) (h.inhabited hl :) (.of_entries_eq rfl) le_rfl
    (by dsimp only; grind) rfl (by simp only [AList.size_insert_of_notMem hm]; omega)

theorem unmark (h : s.WF sha256) (hl : s.slots.lookup id = some ns) :
    { s with
      slots := s.slots.insert id { ns with
        migrated  := ns.migrated.erase name
        usedBytes := ns.usedBytes - UInt64.ofNat (ns.markShare name) }
      usedBytes := s.usedBytes - UInt64.ofNat (ns.markShare name)
      marked    := s.marked - ns.markCount name }.WF sha256 := by
  have hm := h.size_le_marked hl
  have hs := AList.size_eq_add_erase (s := ns.migrated) (k := name)
  refine h.update hl rfl rfl (h.slot hl |>.unmarked) (h.inhabited hl :) (.of_entries_eq rfl) le_rfl ?_ rfl ?_
  · dsimp only; grind
  · simp only [Namespace.markCount] at *; omega

theorem written (h : s.WF sha256) (hl : s.slots.lookup id = some ns) :
    { s with
      clock      := s.clock + 1
      slots      := s.slots.insert id (ns.written name ⟨value, expiresAt, s.clock + 1⟩)
      entryCount := s.entryCount + 1 - ns.entryNum name
      usedBytes  := s.usedBytes - UInt64.ofNat (ns.share name) + UInt64.ofNat (entryCharge name value)
      marked     := s.marked - ns.markCount name }.WF sha256 := by
  have hm := h.size_le_marked hl
  have hs := AList.size_eq_add_erase (s := ns.migrated) (k := name)
  have hs' := AList.size_eq_add_erase (s := ns.entries) (k := name)
  refine h.update hl rfl rfl (h.slot hl |>.written rfl) (by simp [Namespace.written]) (.of_insert rfl (Nat.lt_succ_self _))
    (Nat.le_succ _) ?_ ?_ ?_
  · simp only [Namespace.written]; grind
  · simp only [Namespace.written, Namespace.size_insert_entries, Namespace.entryNum]
    split at hs' <;> simp_all <;> omega
  · simp only [Namespace.written, Namespace.markCount] at *; omega

theorem removed (h : s.WF sha256) (hl : s.slots.lookup id = some ns) (hn : name ∈ ns.entries) :
    (s.removed id ns name).WF sha256 := by
  have hm  := h.size_le_marked hl
  have he  := h.size_le_entryCount hl
  have hs  := AList.size_eq_add_erase (s := ns.migrated) (k := name)
  have hs' := AList.size_eq_add_erase (s := ns.entries) (k := name)
  rw [if_pos hn] at hs'
  rw [Store.removed]
  split
  case isTrue hd =>
    obtain ⟨hc, hz⟩ := (h.slot hl).charges_without_last hd
    refine h.erase hl ?_ ?_ ?_
    · rw [(h.slot hl).used, Namespace.charges_without ns name, hc]; grind
    · have hd := congrArg List.length hd
      simp only [AList.size, List.length_nil] at *; omega
    · simp only [Namespace.markCount] at *; omega
  case isFalse hd =>
    refine h.update hl rfl rfl (h.slot hl |>.without) hd (.of_erase rfl) le_rfl ?_ ?_ ?_
    · simp only [Namespace.without]; grind
    · simp only [Namespace.without]; omega
    · simp only [Namespace.without, Namespace.markCount] at *; omega

theorem clear (h : s.WF sha256) (hl : s.slots.lookup id = some ns) :
    { s with
      namespaces := s.namespaces.erase ns.name
      slots      := s.slots.erase id
      entryCount := s.entryCount - ns.entries.size
      usedBytes  := s.usedBytes - (ns.usedBytes + UInt64.ofNat (nameCharge ns.name))
      marked     := s.marked - ns.migrated.size }.WF sha256 := by
  have hm := h.size_le_marked hl
  have he := h.size_le_entryCount hl
  exact h.erase hl (by grind) (by omega) (by omega)

theorem of_empty (hs : s.slots = ∅) (hn : s.namespaces = ∅) (ht : s.tails = [])
    (hb : s.handoffTombstones = ∅) (hu : s.usedBytes = 0) (he : s.entryCount = 0)
    (hm : s.marked = 0) : s.WF sha256 where
  slot       := by simp [hs]
  inhabited  := by simp [hs]
  index      := by simp [hs, hn]
  fresh      := by simp [hs]
  budget     := by simp [hs]
  stamps     := by simp [hs]
  tails      := ⟨by simp [ht], by simp [hs]⟩
  used       := by simp [hu, charges, hs, hb, AList.sumBy_empty]
  entryCount := by simp [he, hs, AList.sumBy_empty]
  marked     := by simp [hm, hs, AList.sumBy_empty]

theorem withBudgets (maxMemoryBytes : UInt64) (budgets : List (Bytes × UInt64)) :
    (Store.withBudgets maxMemoryBytes budgets).WF sha256 :=
  of_empty rfl rfl rfl rfl rfl rfl rfl

theorem bury {now : Instant} (h : s.WF sha256) :
    { s with
      handoffTombstones := s.handoffTombstones.insert key now
      usedBytes :=
        if key ∈ s.handoffTombstones then s.usedBytes
        else s.usedBytes + UInt64.ofNat (tombstoneBytes key) }.WF sha256 := by
  refine h.rebury ?_
  rw [AList.sumBy_insert, AList.sumBy_keys_erase (s := s.handoffTombstones) (k := key) tombstoneBytes]
  simp only [UInt64.ofNat_add]
  split
  case isTrue  => rfl
  case isFalse => grind

theorem forgotten (h : s.WF sha256) : (s.forgotten key).WF sha256 := by
  rw [Store.forgotten]
  split
  case isFalse   => exact h
  case isTrue hm =>
    refine h.rebury ?_
    rw [AList.sumBy_keys_erase (s := s.handoffTombstones) (k := key) tombstoneBytes, if_pos hm]
    simp only [UInt64.ofNat_add]
    grind

end WF

-- The namespace of `name`, as it is before its first entry is written if need be.
def ensured (s : Store) (name : Bytes) : Namespace :=
  (s.find name).getD (.new name (s.budgets.lookup name))

theorem ensureNamespace_of_some (hf : s.namespaces.lookup name = some id) :
    s.ensureNamespace name = (id, s) := by
  rw [ensureNamespace, findNamespace, hf]

-- A namespace which is not there yet is created with no entries, with an item in whichever heap.
theorem WF.ensureNamespace_of_none (h : s.WF sha256) (hn : s.namespaces.lookup name = none) :
    ∃ tails,
      Tails (s.slots.insert s.nextSlotId (.new name (s.budgets.lookup name))) s.clock
        (s.nextSlotId + 1) tails ∧
      s.ensureNamespace name = (s.nextSlotId, { s with
        nextSlotId := s.nextSlotId + 1
        usedBytes  := s.usedBytes + UInt64.ofNat (nameCharge name)
        namespaces := s.namespaces.insert name s.nextSlotId
        slots      := s.slots.insert s.nextSlotId (.new name (s.budgets.lookup name))
        tails }) := by
  simp only [ensureNamespace, findNamespace, hn]
  split
  case isFalse => exact ⟨_, h.tails.create, rfl⟩
  case isTrue  =>
    refine ⟨_, Tails.rebuilt ?_ ?_ ?_, rfl⟩
    case refine_1 =>
      exact fun hl => AList.of_lookup_insert hl (Nat.lt_succ_self _) fun hl =>
        (h.fresh hl).trans (Nat.lt_succ_self _)
    case refine_2 =>
      exact fun hl => AList.of_lookup_insert hl List.Pairwise.nil fun hl => (h.slot hl).ordered
    case refine_3 =>
      intro id ns name entry hl he
      rw [AList.lookup_insert_eq_ite] at hl
      split at hl
      case isTrue  => cases hl; simp [Namespace.new] at he
      case isFalse => exact (h.slot hl).recent he

-- The first entry of a namespace.
theorem WF.written_new {tails : MinHeap (Nat ×ₗ Nat)} (value : Bytes) (expiresAt : Option Instant)
    (h : s.WF sha256)
    (hn : s.namespaces.lookup key.ns = none)
    (ht : Tails (s.slots.insert s.nextSlotId (.new key.ns (s.budgets.lookup key.ns))) s.clock
      (s.nextSlotId + 1) tails) :
    { s with
      nextSlotId := s.nextSlotId + 1
      namespaces := s.namespaces.insert key.ns s.nextSlotId
      slots      := s.slots.insert s.nextSlotId
        ((Namespace.new key.ns (s.budgets.lookup key.ns)).written key.name
          ⟨value, expiresAt, s.clock + 1⟩)
      tails
      clock      := s.clock + 1
      entryCount := s.entryCount + 1
      usedBytes  := s.usedBytes + UInt64.ofNat (nameCharge key.ns) +
        UInt64.ofNat (entryCharge key.name value) }.WF sha256 := by
  have ht := ht.update (AList.lookup_insert _)
    (.written key.name ⟨value, expiresAt, s.clock + 1⟩ (Nat.lt_succ_self _))
  rw [AList.insert_insert] at ht
  refine WF.retail (h.create hn rfl (Namespace.WF.new _ |>.written rfl) ?_ (Nat.le_succ _) ?_ ?_
    rfl rfl) (ht.mono (Nat.le_succ _))
  case refine_1 => simp [Namespace.written]
  case refine_2 =>
    intro name entry he
    simp only [Namespace.written, Namespace.new, AList.lookup_insert_eq_ite, AList.lookup_empty] at he
    split at he
    case isTrue  => cases he; exact Nat.lt_succ_self _
    case isFalse => contradiction
  case refine_3 =>
    simp [Namespace.written, Namespace.share, Namespace.entryShare, Namespace.markShare,
      Namespace.digestShare, Namespace.new]
    grind

-- What no step changes: the limits, and which namespace an identifier stands for while in use.
structure Frame (s t : Store) : Prop where
  maxMemoryBytes : t.maxMemoryBytes = s.maxMemoryBytes
  budgets        : t.budgets = s.budgets
  nextSlotId     : s.nextSlotId ≤ t.nextSlotId
  slot           : ∀ {id ns'}, t.slots.lookup id = some ns' → id < s.nextSlotId →
                     ∃ ns, s.slots.lookup id = some ns ∧ ns.name = ns'.name

namespace Frame

theorem of_slots_eq (hb : t.maxMemoryBytes = s.maxMemoryBytes) (hm : t.budgets = s.budgets)
    (hi : t.nextSlotId = s.nextSlotId) (hs : t.slots = s.slots) : Frame s t :=
  ⟨hb, hm, hi.ge, fun hl _ => ⟨_, hs ▸ hl, rfl⟩⟩

theorem refl : Frame s s :=
  of_slots_eq rfl rfl rfl rfl

theorem trans (h₁ : Frame s t) (h₂ : Frame t s') : Frame s s' where
  maxMemoryBytes := h₂.maxMemoryBytes.trans h₁.maxMemoryBytes
  budgets        := h₂.budgets.trans h₁.budgets
  nextSlotId     := h₁.nextSlotId.trans h₂.nextSlotId
  slot           := fun hl hi =>
    have ⟨_, hl, hn⟩ := h₂.slot hl (hi.trans_le h₁.nextSlotId)
    have ⟨ns, hl, hn'⟩ := h₁.slot hl hi
    ⟨ns, hl, hn'.trans hn⟩

theorem of_insert (hl : s.slots.lookup id = some ns) (hs : t.slots = s.slots.insert id ns')
    (hn : ns'.name = ns.name) (hb : t.maxMemoryBytes = s.maxMemoryBytes)
    (hm : t.budgets = s.budgets) (hi : t.nextSlotId = s.nextSlotId) : Frame s t := by
  refine ⟨hb, hm, hi.ge, fun {id' _} hl' _ => ?_⟩
  rw [hs, AList.lookup_insert_eq_ite] at hl'
  split at hl'
  case isTrue he => subst he; cases hl'; exact ⟨ns, hl, hn.symm⟩
  case isFalse   => exact ⟨_, hl', rfl⟩

theorem of_erase (hb : t.maxMemoryBytes = s.maxMemoryBytes) (hm : t.budgets = s.budgets)
    (hi : t.nextSlotId = s.nextSlotId) (hs : t.slots = s.slots.erase id) : Frame s t :=
  ⟨hb, hm, hi.ge, fun hl _ => ⟨_, (AList.lookup_erase_eq_some.mp (hs ▸ hl)).right, rfl⟩⟩

theorem removed (hl : s.slots.lookup id = some ns) : Frame s (s.removed id ns name) := by
  rw [Store.removed]
  split
  case isTrue  => exact of_erase rfl rfl rfl rfl
  case isFalse => exact of_insert hl rfl rfl rfl rfl rfl

theorem forgotten : Frame s (s.forgotten key) := by
  rw [Store.forgotten]
  split <;> exact of_slots_eq rfl rfl rfl rfl

end Frame

-- The state `s'` is `s` after the write of an entry, which is in the namespace with identifier `id`.
structure Written (sha256 : Bytes → Vector UInt8 32) (s : Store) (key : Key) (value : Bytes)
    (expiresAt : Option Instant) (id : Nat) (s' : Store) : Prop where
  wf     : s'.WF sha256
  frame  : Frame s s'
  index  : s'.namespaces.lookup key.ns = some id
  buried : s'.handoffTombstones = s.handoffTombstones
  find   : ∀ name, s'.find name =
             if name = key.ns then
               some ((s.ensured key.ns).written key.name ⟨value, expiresAt, s.clock + 1⟩)
             else s.find name

theorem WF.put_of_some (h : s.WF sha256) (value : Bytes) (expiresAt : Option Instant)
    (hf : s.namespaces.lookup key.ns = some id) :
    ∃ s', s.put id key.name value expiresAt = some s' ∧
      Written sha256 s key value expiresAt id s' := by
  have ⟨ns, hl, hn⟩ := h.index.mp hf
  refine ⟨_, put_eq hl, h.written hl, .of_insert hl rfl rfl rfl rfl rfl, hf, rfl, fun name => ?_⟩
  have he : s.ensured key.ns = ns := by
    rw [ensured, h.find_eq_some_iff.mpr ⟨id, hl, hn⟩, Option.getD_some]
  rw [he, ← hn]
  exact h.find_update hl rfl rfl

theorem WF.put_of_none (h : s.WF sha256) (value : Bytes) (expiresAt : Option Instant)
    (hf : s.namespaces.lookup key.ns = none) :
    ∃ t s', s.ensureNamespace key.ns = (s.nextSlotId, t) ∧
      t.put s.nextSlotId key.name value expiresAt = some s' ∧
      Written sha256 s key value expiresAt s.nextSlotId s' := by
  have ⟨tails, ht, he⟩ := h.ensureNamespace_of_none hf
  refine ⟨_, _, he, put_eq (AList.lookup_insert _), ?_⟩
  constructor
  case wf =>
    have hw := h.written_new value expiresAt hf ht
    simpa [AList.insert_insert, Namespace.share, Namespace.entryShare, Namespace.markShare,
      Namespace.digestShare, Namespace.markCount, Namespace.entryNum, Namespace.new] using hw
  case frame =>
    refine ⟨rfl, rfl, Nat.le_succ _, fun hl hi => ?_⟩
    simp only [AList.insert_insert, AList.lookup_insert_ne hi.ne] at hl
    exact ⟨_, hl, rfl⟩
  case index  => exact AList.lookup_insert _
  case buried => rfl
  case find   =>
    intro name
    have hn : s.find key.ns = none := by simp [find, findNamespace, hf]
    rw [h.find_create rfl (AList.insert_insert ..), ensured, hn]
    rfl

theorem WF.put_ensureNamespace (h : s.WF sha256) (key : Key) (value : Bytes)
    (expiresAt : Option Instant) :
    ∃ id t s', s.ensureNamespace key.ns = (id, t) ∧ t.put id key.name value expiresAt = some s' ∧
      Written sha256 s key value expiresAt id s' := by
  cases hf : s.namespaces.lookup key.ns
  case some id =>
    have ⟨s', hp, hw⟩ := h.put_of_some value expiresAt hf
    exact ⟨id, s, s', ensureNamespace_of_some hf, hp, hw⟩
  case none =>
    have ⟨t, s', he, hp, hw⟩ := h.put_of_none value expiresAt hf
    exact ⟨_, t, s', he, hp, hw⟩

theorem WF.write (h : s.WF sha256) (he : s.ensureNamespace key.ns = (id, t))
    (hp : t.put id key.name value expiresAt = some s') :
    Written sha256 s key value expiresAt id s' := by
  have ⟨_, _, _, he', hp', h⟩ := h.put_ensureNamespace key value expiresAt
  cases he.symm.trans he'
  cases hp.symm.trans hp'
  exact h

theorem Step.wf {c : Option Change} (h : s.WF sha256) (step : Step sha256 c s s') :
    s'.WF sha256 := by
  cases step with
  | tick              => exact h.mono (Nat.le_succ _)
  | heap ht           => exact h.retail ht
  | hash hl he hc hd  => exact h.hash hl he hc hd
  | use hl he         => exact h.use hl he
  | amend hl he       => exact h.amend hl he
  | remove hl he      => exact h.removed hl he
  | discard hl he     => exact h.removed hl he |>.forgotten
  | mark hl he hm     => exact h.mark hl he hm
  | unmark hl         => exact h.unmark hl
  | clear hl          => exact h.clear hl
  | clearAll          => exact .of_empty rfl rfl rfl rfl rfl rfl rfl
  | bury              => exact h.bury
  | expire            => exact h.forgotten
  | displace          => exact h.forgotten
  | write he hp       => exact h.write he hp |>.wf

theorem Step.frame {c : Option Change} (h : s.WF sha256) (step : Step sha256 c s s') :
    Frame s s' := by
  cases step with
  | tick | heap | bury => exact .of_slots_eq rfl rfl rfl rfl
  | hash hl | use hl | amend hl | mark hl | unmark hl => exact .of_insert hl rfl rfl rfl rfl rfl
  | remove hl          => exact .removed hl
  | discard hl         => exact Frame.removed hl |>.trans .forgotten
  | clear              => exact .of_erase rfl rfl rfl rfl
  | clearAll           => exact ⟨rfl, rfl, le_rfl, fun hl => by simp at hl⟩
  | expire | displace  => exact .forgotten
  | write he hp        => exact h.write he hp |>.frame

section Contents

theorem peek_eq : s.peek key = (s.find key.ns).bind (·.entries.lookup key.name) :=
  rfl

theorem contents_entry : s.contents.entry key =
    (s.find key.ns).bind fun ns => (ns.entries.lookup key.name).map fun e => (e.value, e.expiresAt) := by
  simp only [contents, peek_eq, Option.map_bind]
  rfl

theorem mem_contents_marked :
    key ∈ s.contents.marked ↔ ∃ ns, s.find key.ns = some ns ∧ key.name ∈ ns.migrated := by
  simp [contents, isMarked, Option.any_eq_true]

theorem isSome_contents_entry (hf : s.find ns.name = some ns) (hn : name ∈ ns.entries) :
    (s.contents.entry ⟨ns.name, name⟩).isSome := by
  simp [contents_entry, hf, AList.lookup_isSome.mpr hn]

theorem WF.find_of_lookup (h : s.WF sha256) (hl : s.slots.lookup id = some ns) :
    s.find ns.name = some ns :=
  h.find_eq_some_iff.mpr ⟨id, hl, rfl⟩

theorem entry_of_find {n : Bytes} (hf : s.find n = some ns) : s.contents.entry ⟨n, name⟩ =
    (ns.entries.lookup name).map fun e => (e.value, e.expiresAt) := by
  rw [contents_entry, hf, Option.bind_some]

theorem mem_marked_of_find {n : Bytes} (hf : s.find n = some ns) :
    ⟨n, name⟩ ∈ s.contents.marked ↔ name ∈ ns.migrated := by
  simp [mem_contents_marked, hf]

-- When one namespace changes, the contents have to be compared for its names only.
theorem contents_eq_of_find {c : Contents} {n : Bytes} {o : Option Namespace}
    (hf : ∀ name, t.find name = if name = n then o else s.find name)
    (hb : t.handoffTombstones = c.buried)
    (he : ∀ name, c.entry ⟨n, name⟩ =
      o.bind fun ns => (ns.entries.lookup name).map fun e => (e.value, e.expiresAt))
    (hm : ∀ name, ⟨n, name⟩ ∈ c.marked ↔ ∃ ns, o = some ns ∧ name ∈ ns.migrated)
    (he' : ∀ key, key.ns ≠ n → c.entry key = s.contents.entry key)
    (hm' : ∀ key, key.ns ≠ n → (key ∈ c.marked ↔ key ∈ s.contents.marked)) : t.contents = c := by
  refine Contents.ext ?_ ?_ hb
  case refine_1 =>
    funext key
    obtain ⟨ns, name⟩ := key
    rw [contents_entry, hf]
    split
    case isTrue hn  => cases hn; exact (he name).symm
    case isFalse hn => rw [he' _ hn, contents_entry]
  case refine_2 =>
    ext ⟨ns, name⟩
    rw [mem_contents_marked, hf]
    split
    case isTrue hn  => cases hn; exact (hm name).symm
    case isFalse hn => rw [hm' _ hn, mem_contents_marked]

theorem contents_eq_apply {c : Change} {n : Bytes} {o : Option Namespace}
    (hf : ∀ name, t.find name = if name = n then o else s.find name)
    (hc : c.Within n)
    (hb : t.handoffTombstones = (s.contents.apply c).buried)
    (he : ∀ name, (s.contents.apply c).entry ⟨n, name⟩ =
      o.bind fun ns => (ns.entries.lookup name).map fun e => (e.value, e.expiresAt))
    (hm : ∀ name, ⟨n, name⟩ ∈ (s.contents.apply c).marked ↔
      ∃ ns, o = some ns ∧ name ∈ ns.migrated) : t.contents = s.contents.apply c :=
  contents_eq_of_find hf hb he hm (fun _ => Contents.apply_entry_of_ne hc)
    (fun _ => Contents.mem_apply_marked_of_ne hc)

theorem Step.contents_silent (h : s.WF sha256) (step : Step sha256 none s s') :
    s'.contents = s.contents := by
  cases step with
  | tick | heap => rfl
  | hash hl he  =>
    have hf := h.find_of_lookup hl
    refine contents_eq_of_find (fun _ => h.find_update hl rfl rfl) rfl ?_ ?_ ?_ ?_
    · simp [contents_entry, hf]
    · simp [mem_contents_marked, hf]
    · simp
    · simp

theorem contents_forgotten :
    (s.forgotten key).contents = { s.contents with buried := s.contents.buried.erase key } := by
  rw [forgotten]
  split
  case isTrue     => rfl
  case isFalse hn => rw [show s.contents.buried.erase key = s.contents.buried from
    AList.erase_of_notMem hn]

theorem lookup_ensured {n : Bytes} :
    (s.ensured n).entries.lookup name = (s.find n).bind (·.entries.lookup name) := by
  cases hf : s.find n <;> simp [ensured, hf, Namespace.new]

theorem mem_ensured {n : Bytes} :
    name ∈ (s.ensured n).migrated ↔ ∃ ns, s.find n = some ns ∧ name ∈ ns.migrated := by
  cases hf : s.find n <;> simp [ensured, hf, Namespace.new]

theorem WF.find_removed (h : s.WF sha256) (hl : s.slots.lookup id = some ns) :
    (s.removed id ns name).find name' =
      if name' = ns.name then
        if (ns.entries.erase name).entries = [] then none else some (ns.without name)
      else s.find name' := by
  rw [Store.removed]
  split
  case isTrue  => exact h.find_erase hl rfl rfl
  case isFalse => exact h.find_update hl rfl rfl

theorem WF.contents_removed (h : s.WF sha256) (hl : s.slots.lookup id = some ns) :
    (s.removed id ns name).contents = s.contents.apply (.remove ⟨ns.name, name⟩) := by
  have hf := h.find_of_lookup hl
  have hb : (s.removed id ns name).handoffTombstones = s.handoffTombstones := by
    rw [Store.removed]; split <;> rfl
  refine contents_eq_apply (fun _ => h.find_removed hl) rfl hb (fun name' => ?_) fun name' => ?_
  case refine_1 =>
    simp only [Contents.apply, Function.update_apply, Key.mk.injEq, true_and, entry_of_find hf]
    split
    case isTrue hn =>
      subst hn
      split <;> simp [Namespace.without]
    case isFalse hn =>
      split
      case isTrue hd  =>
        have hz := AList.entries_eq_nil_iff.mp hd name'
        simp [AList.lookup_erase_ne hn] at hz
        simp [hz]
      case isFalse hd => simp [Namespace.without, AList.lookup_erase_ne hn]
  case refine_2 =>
    simp only [Contents.apply, Set.mem_sdiff, mem_marked_of_find hf, Set.mem_singleton_iff,
      Key.mk.injEq, true_and]
    split
    case isTrue hd  =>
      have hn (hm : name' ∈ ns.migrated) : name' = name :=
        AList.eq_of_mem_of_erase_eq_nil hd ((h.slot hl).marks hm)
      simp only [reduceCtorEq, false_and, exists_false, iff_false, not_and, not_not]
      exact hn
    case isFalse hd => simp [Namespace.without, and_comm]

theorem Step.contents {c : Change} (h : s.WF sha256) (step : Step sha256 (some c) s s') :
    c.Enabled s.contents ∧ s'.contents = s.contents.apply c := by
  cases step with
  | write he hp =>
    have hw := h.write he hp
    refine ⟨trivial, contents_eq_apply hw.find rfl hw.buried (fun name' => ?_) fun name' => ?_⟩
    · simp only [Contents.apply, Function.update_apply, Key.ext_iff, true_and, contents_entry,
        Option.bind_some, Namespace.written, AList.lookup_insert_eq_ite, lookup_ensured]
      split
      case isTrue  => rfl
      case isFalse => rw [Option.map_bind]; rfl
    · simp [mem_contents_marked, Contents.apply, Namespace.written, Key.ext_iff, mem_ensured, and_comm]
  | use hl he         =>
    have hf := h.find_of_lookup hl
    refine ⟨isSome_contents_entry hf (AList.mem_of_lookup he),
      contents_eq_apply (fun _ => h.find_update hl rfl rfl) rfl rfl (fun name' => ?_) fun name' => ?_⟩
    · simp only [Contents.apply, Function.update_apply, Key.mk.injEq, true_and, entry_of_find hf,
        Option.bind_some, AList.lookup_insert_eq_ite]
      split <;> simp [he]
    · simp [mem_marked_of_find hf, Contents.apply]
  | amend hl he       =>
    have hf := h.find_of_lookup hl
    refine ⟨isSome_contents_entry hf (AList.mem_of_lookup he),
      contents_eq_apply (fun _ => h.find_update hl rfl rfl) rfl rfl (fun name' => ?_) fun name' => ?_⟩
    · simp only [Contents.apply, Function.update_apply, Key.mk.injEq, true_and, entry_of_find hf,
        Option.bind_some, AList.lookup_replace_eq_ite he]
      split <;> simp [he]
    · simp [mem_marked_of_find hf, Contents.apply]
  | remove hl he      =>
    exact ⟨isSome_contents_entry (h.find_of_lookup hl) he, h.contents_removed hl⟩
  | discard hl he     =>
    refine ⟨isSome_contents_entry (h.find_of_lookup hl) he, ?_⟩
    rw [contents_forgotten, h.contents_removed hl]
    rfl
  | mark hl he hm     =>
    have hf := h.find_of_lookup hl
    refine ⟨isSome_contents_entry hf he,
      contents_eq_apply (fun _ => h.find_update hl rfl rfl) rfl rfl (fun name' => ?_) fun name' => ?_⟩
    · simp [Contents.apply, entry_of_find hf]
    · simp [mem_marked_of_find hf, Contents.apply]
  | unmark hl         =>
    have hf := h.find_of_lookup hl
    refine ⟨trivial,
      contents_eq_apply (fun _ => h.find_update hl rfl rfl) rfl rfl (fun name' => ?_) fun name' => ?_⟩
    · simp [Contents.apply, entry_of_find hf]
    · simp [mem_marked_of_find hf, Contents.apply, and_comm]
  | clear hl          =>
    refine ⟨trivial,
      contents_eq_apply (fun _ => h.find_erase hl rfl rfl) rfl rfl (fun name' => ?_) fun name' => ?_⟩
    · simp [Contents.apply]
    · simp [Contents.apply]
  | clearAll          =>
    refine ⟨trivial, Contents.ext ?_ ?_ rfl⟩
    · funext key
      rfl
    · ext key
      simp [mem_contents_marked, Contents.apply, Contents.empty, find, findNamespace]
  | bury              => exact ⟨trivial, rfl⟩
  | expire hl ho      => exact ⟨⟨_, hl, ho⟩, contents_forgotten⟩
  | displace hs       => exact ⟨hs, contents_forgotten⟩

end Contents

namespace Steps

variable {cs : List Change}

theorem wf (h : s.WF sha256) (steps : Steps sha256 cs s s') : s'.WF sha256 := by
  induction steps
  case refl           => exact h
  case head step _ hi => exact hi (step.wf h)

theorem frame (h : s.WF sha256) (steps : Steps sha256 cs s s') : Frame s s' := by
  induction steps
  case refl           => exact .refl
  case head step _ hi => exact step.frame h |>.trans (hi (step.wf h))

-- The cache refines the map from keys to values.
theorem contents (h : s.WF sha256) (steps : Steps sha256 cs s s') :
    s.contents.Allows cs ∧ s'.contents = s.contents.applyAll cs := by
  induction steps
  case refl => exact ⟨trivial, rfl⟩
  case head change _ _ _ _ step _ hi =>
    have ⟨ha, he⟩ := hi (step.wf h)
    cases change
    case none =>
      rw [step.contents_silent h] at ha he
      exact ⟨ha, he⟩
    case some change =>
      have ⟨ha', he'⟩ := step.contents h
      rw [he'] at ha he
      exact ⟨⟨ha', ha⟩, he⟩

end Steps
end Nanocached.Store
