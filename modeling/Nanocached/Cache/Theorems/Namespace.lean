import Nanocached.Cache.Operations

namespace Nanocached.Namespace

variable {ns : Namespace} {name : Bytes} {entry : Entry}

-- Everything the namespace is charged for, without its name.
def charges (ns : Namespace) : Nat :=
  ns.entries.sumBy (fun name e => entryCharge name e.value) +
  ns.migrated.sumBy (fun name _ => markCharge name) +
  ns.digests.sumBy (fun name _ => digestCharge name)

def markShare (ns : Namespace) (name : Bytes) : Nat :=
  if name ∈ ns.migrated then markCharge name else 0

def markCount (ns : Namespace) (name : Bytes) : Nat :=
  if name ∈ ns.migrated then 1 else 0

def digestShare (ns : Namespace) (name : Bytes) : Nat :=
  if name ∈ ns.digests then digestCharge name else 0

def entryShare (ns : Namespace) (name : Bytes) : Nat :=
  (ns.entries.lookup name).elim 0 fun e => entryCharge name e.value

def entryNum (ns : Namespace) (name : Bytes) : Nat :=
  if name ∈ ns.entries then 1 else 0

-- The part of the charges which goes with `name`.
def share (ns : Namespace) (name : Bytes) : Nat :=
  ns.entryShare name + ns.markShare name + ns.digestShare name

-- The namespace after `name` was removed along with its mark and digest.
def without (ns : Namespace) (name : Bytes) : Namespace where
  name      := ns.name
  entries   := ns.entries.erase name
  usedBytes := ns.usedBytes - .ofNat (ns.share name)
  budget    := ns.budget
  migrated  := ns.migrated.erase name
  digests := ns.digests.erase name

-- The namespace after `entry` was written to `name`.
def written (ns : Namespace) (name : Bytes) (entry : Entry) : Namespace where
  name      := ns.name
  entries   := ns.entries.insert name entry
  usedBytes := ns.usedBytes - .ofNat (ns.share name) + .ofNat (entryCharge name entry.value)
  budget    := ns.budget
  migrated  := ns.migrated.erase name
  digests := ns.digests.erase name

section Release

theorem releaseMark_eq (usedBytes : UInt64) (marked : Nat) :
    ns.releaseMark name usedBytes marked =
      ({ ns with
          migrated  := ns.migrated.erase name
          usedBytes := ns.usedBytes - .ofNat (ns.markShare name) },
        usedBytes - .ofNat (ns.markShare name), marked - ns.markCount name) := by
  have hn (h : name ∉ ns.migrated) : ns.migrated.erase name = ns.migrated :=
    AList.erase_of_notMem h
  simp only [releaseMark, markShare, markCount, List.isEmpty_iff]
  split
  case isTrue h =>
    have hm : name ∉ ns.migrated := by simp [AList.mem_keys, AList.keys, h]
    simp [hm, hn hm]
  case isFalse =>
    split
    case isTrue     => rfl
    case isFalse hm => simp [hn hm]

theorem releaseDigest_eq (usedBytes : UInt64) :
    ns.releaseDigest name usedBytes =
      ({ ns with
          digests   := ns.digests.erase name
          usedBytes := ns.usedBytes - .ofNat (ns.digestShare name) },
        usedBytes - .ofNat (ns.digestShare name)) := by
  have hn (h : name ∉ ns.digests) : ns.digests.erase name = ns.digests := AList.erase_of_notMem h
  simp only [releaseDigest, digestShare, List.isEmpty_iff]
  split
  case isTrue h =>
    have hm : name ∉ ns.digests := by simp [AList.mem_keys, AList.keys, h]
    simp [hm, hn hm]
  case isFalse =>
    split
    case isTrue     => rfl
    case isFalse hm => simp [hn hm]

end Release

section Charges

theorem charges_new (budget : Option UInt64) : (new name budget).charges = 0 :=
  rfl

theorem sumBy_erase_entries (ns : Namespace) (name : Bytes) :
    ns.entries.sumBy (fun name e => entryCharge name e.value) =
      ns.entryShare name +
        (ns.entries.erase name).sumBy (fun name e => entryCharge name e.value) := by
  rw [entryShare]
  cases hl : ns.entries.lookup name
  case none   => simp [AList.erase_of_notMem (AList.lookup_eq_none.mp hl)]
  case some e => exact AList.sumBy_eq_add_erase (fun name (e : Entry) => entryCharge name e.value) hl

theorem charges_without (ns : Namespace) (name : Bytes) :
    ns.charges = ns.share name + (ns.without name).charges := by
  simp only [charges, share, without]
  rw [sumBy_erase_entries ns name, AList.sumBy_keys_erase (k := name) markCharge,
    AList.sumBy_keys_erase (k := name) digestCharge]
  simp only [markShare, digestShare]
  omega

theorem charges_written (ns : Namespace) (name : Bytes) (entry : Entry) : (ns.written name entry).charges =
    entryCharge name entry.value + (ns.without name).charges := by
  simp only [charges, written, without, AList.sumBy_insert]
  omega

theorem size_insert_entries (ns : Namespace) (name : Bytes) (entry : Entry) :
    (ns.entries.insert name entry).size = (ns.entries.erase name).size + 1 := by
  rw [AList.insert_eq_insert_erase, AList.size_insert_of_notMem (by simp)]

end Charges

section PeekLru

theorem peekLru_eq_some_iff : ns.peekLru = some (name, entry) ↔
    ∃ front, ns.entries.entries = front ++ [⟨name, entry⟩] := by
  simp only [peekLru, Option.map_eq_some_iff, Prod.mk.injEq, List.getLast?_eq_some_iff]
  constructor
  case mp  => rintro ⟨_, ⟨front, h⟩, rfl, rfl⟩; exact ⟨front, h⟩
  case mpr => rintro ⟨front, h⟩; exact ⟨_, ⟨front, h⟩, rfl, rfl⟩

theorem peekLru_eq_none_iff : ns.peekLru = none ↔ ns.entries.entries = [] := by
  simp [peekLru]

theorem lookup_of_peekLru (h : ns.peekLru = some (name, entry)) :
    ns.entries.lookup name = some entry := by
  have ⟨front, h⟩ := peekLru_eq_some_iff.mp h
  exact AList.mem_entries.mp (by simp [h])

theorem peekLru_le {name' : Bytes} {entry' : Entry}
    (ho : ns.entries.entries.Pairwise fun p q => q.2.lastUsed < p.2.lastUsed)
    (h : ns.peekLru = some (name, entry)) (hl : ns.entries.lookup name' = some entry') :
    entry.lastUsed ≤ entry'.lastUsed := by
  have ⟨front, h⟩ := peekLru_eq_some_iff.mp h
  have hm := AList.mem_entries.mpr hl
  rw [h, List.mem_append, List.mem_singleton] at hm
  rw [h, List.pairwise_append] at ho
  rcases hm with hm | hm
  · exact (ho.right.right _ hm _ (List.mem_singleton.mpr rfl)).le
  · cases hm; exact le_rfl

end PeekLru

-- The invariant of a namespace at a reading of the logical clock.
structure WF (sha256 : Bytes → Vector UInt8 32) (clock : Nat) (ns : Namespace) : Prop where
  used    : ns.usedBytes = .ofNat ns.charges
  marks   : ∀ {name}, name ∈ ns.migrated → name ∈ ns.entries
  digests : ∀ {name digest}, ns.digests.lookup name = some digest →
              ∃ entry, ns.entries.lookup name = some entry ∧
                digestCacheMinValueBytes ≤ entry.value.length ∧
                digest = contentDigest sha256 entry.value
  ordered : ns.entries.entries.Pairwise fun p q => q.2.lastUsed < p.2.lastUsed
  recent  : ∀ {name entry}, ns.entries.lookup name = some entry → entry.lastUsed ≤ clock

namespace WF

variable {sha256 : Bytes → Vector UInt8 32} {clock clock' : Nat} {name' : Bytes} {entry' : Entry}

theorem mono (h : ns.WF sha256 clock) (hc : clock ≤ clock') : ns.WF sha256 clock' where
  used    := h.used
  marks   := h.marks
  digests := h.digests
  ordered := h.ordered
  recent  := fun he => (h.recent he).trans hc

-- A freshly stamped entry at the front keeps the entries in the order of their stamps.
theorem ordered_insert
    (ho : ns.entries.entries.Pairwise fun p q => q.2.lastUsed < p.2.lastUsed)
    (hr : ∀ {name entry}, ns.entries.lookup name = some entry → entry.lastUsed ≤ clock)
    (he : clock < entry.lastUsed) :
    (ns.entries.insert name entry).entries.Pairwise fun p q => q.2.lastUsed < p.2.lastUsed := by
  rw [AList.entries_insert, List.pairwise_cons]
  refine ⟨fun p hp => ?_, ho.sublist AList.erase_entries_sublist⟩
  have hp := AList.lookup_of_mem (AList.mem_entries_erase.mp hp).right
  exact (hr hp).trans_lt he

theorem recent_insert (h : ns.WF sha256 clock) (he : entry.lastUsed = clock + 1)
    (hl : (ns.entries.insert name entry).lookup name' = some entry') :
    entry'.lastUsed ≤ clock + 1 :=
  AList.of_lookup_insert hl he.le fun hl => (h.recent hl).trans clock.le_succ

theorem new (budget : Option UInt64) : (Namespace.new name budget).WF sha256 clock where
  used    := rfl
  marks   := fun h => absurd h (AList.notMem_empty _)
  digests := fun h => by simp [Namespace.new] at h
  ordered := List.Pairwise.nil
  recent  := fun h => by simp [Namespace.new] at h

theorem written (h : ns.WF sha256 clock) (he : entry.lastUsed = clock + 1) :
    (ns.written name entry).WF sha256 (clock + 1) where
  used := by
    have hc := charges_without ns name
    rw [charges_written, Namespace.written, h.used, hc, UInt64.ofNat_add, UInt64.ofNat_add]
    grind
  marks := by
    intro name' hm
    simp only [Namespace.written, AList.mem_erase, AList.mem_insert] at hm ⊢
    exact .inr (h.marks hm.right)
  digests := by
    intro name' digest hd
    simp only [Namespace.written, AList.lookup_erase_eq_ite, AList.lookup_insert_eq_ite] at hd ⊢
    split at hd
    case isTrue     => contradiction
    case isFalse hn => simpa [hn] using h.digests hd
  ordered := ordered_insert h.ordered h.recent (by omega)
  recent  := h.recent_insert he

theorem without (h : ns.WF sha256 clock) : (ns.without name).WF sha256 clock where
  used := by
    show ns.usedBytes - .ofNat (ns.share name) = .ofNat (ns.without name).charges
    rw [h.used, charges_without ns name, UInt64.ofNat_add]
    grind
  marks := by
    intro name' hm
    simp only [Namespace.without, AList.mem_erase] at hm ⊢
    exact ⟨hm.left, h.marks hm.right⟩
  digests := by
    intro name' digest hd
    simp only [Namespace.without, AList.lookup_erase_eq_ite] at hd ⊢
    split at hd
    case isTrue     => contradiction
    case isFalse hn => simpa [hn] using h.digests hd
  ordered := h.ordered.sublist AList.erase_entries_sublist
  recent := by
    intro name' entry hl
    simp only [Namespace.without, AList.lookup_erase_eq_ite] at hl
    split at hl
    case isTrue  => contradiction
    case isFalse => exact h.recent hl

-- Along with the last entry, the last mark and the last digest are gone.
theorem charges_without_last (h : ns.WF sha256 clock) (hn : (ns.entries.erase name).entries = []) :
    (ns.without name).charges = 0 ∧ (ns.migrated.erase name).size = 0 := by
  have hm : (ns.migrated.erase name).entries = [] := by
    refine AList.entries_eq_nil_iff.mpr fun name' => AList.lookup_eq_none.mpr fun hm => ?_
    have ⟨hc, hm⟩ := AList.mem_erase.mp hm
    exact hc (AList.eq_of_mem_of_erase_eq_nil hn (h.marks hm))
  have hd : (ns.digests.erase name).entries = [] := by
    refine AList.entries_eq_nil_iff.mpr fun name' => AList.lookup_eq_none.mpr fun hm => ?_
    have ⟨hc, hm⟩ := AList.mem_erase.mp hm
    have ⟨_, hl⟩ := AList.exists_lookup_of_mem hm
    have ⟨_, hl, _⟩ := h.digests hl
    exact hc (AList.eq_of_mem_of_erase_eq_nil hn (AList.mem_of_lookup hl))
  simp [Namespace.without, charges, AList.sumBy, AList.size, hn, hm, hd]

-- The entry was used: it moves to the front and gets a new stamp, and maybe a new expiry.
theorem promoted (h : ns.WF sha256 clock) (hl : ns.entries.lookup name = some entry)
    (hv : entry'.value = entry.value) (hu : entry'.lastUsed = clock + 1) :
    { ns with entries := ns.entries.insert name entry' }.WF sha256 (clock + 1) where
  used := by
    have hc := AList.sumBy_insert_of_lookup
      (fun name (e : Entry) => entryCharge name e.value) entry' hl
    rw [hv] at hc
    simp only [h.used, charges, Nat.add_left_cancel hc]
  marks   := fun hm => (AList.mem_insert _).mpr (.inr (h.marks hm))
  digests := by
    intro name' digest hd
    have ⟨e, he, hc, hd⟩ := h.digests hd
    by_cases hn : name' = name
    case pos =>
      subst hn
      obtain rfl : entry = e := Option.some.inj (hl.symm.trans he)
      exact ⟨entry', AList.lookup_insert _, hv ▸ hc, hv ▸ hd⟩
    case neg => exact ⟨e, by simpa [AList.lookup_insert_ne hn] using he, hc, hd⟩
  ordered := ordered_insert h.ordered h.recent (by omega)
  recent  := h.recent_insert hu

-- The entry got a new expiry in place.
theorem amended (h : ns.WF sha256 clock) (hl : ns.entries.lookup name = some entry)
    (hv : entry'.value = entry.value) (hu : entry'.lastUsed = entry.lastUsed) :
    { ns with entries := ns.entries.replace name entry' }.WF sha256 clock where
  used := by
    have hc := AList.sumBy_replace
      (fun name (e : Entry) => entryCharge name e.value) entry' hl
    rw [hv] at hc
    simp only [h.used, charges, Nat.add_left_cancel hc]
  marks   := fun hm => AList.mem_replace.mpr (h.marks hm)
  digests := by
    intro name' digest hd
    have ⟨e, he, hc, hd⟩ := h.digests hd
    simp only [AList.lookup_replace_eq_ite hl]
    by_cases hn : name' = name
    case pos =>
      subst hn
      obtain rfl : entry = e := Option.some.inj (hl.symm.trans he)
      exact ⟨entry', if_pos rfl, hv ▸ hc, hv ▸ hd⟩
    case neg => exact ⟨e, by simpa [hn] using he, hc, hd⟩
  ordered := by
    have ⟨l₁, l₂, h₁, h₂⟩ := AList.entries_replace entry' hl
    have ho := h.ordered
    simp only [h₁, h₂, List.pairwise_append, List.pairwise_cons, List.mem_cons,
      forall_eq_or_imp, hu] at ho ⊢
    exact ho
  recent := by
    intro name' e he
    rw [AList.lookup_replace_eq_ite hl] at he
    split at he
    case isTrue  => cases he; exact hu ▸ h.recent hl
    case isFalse => exact h.recent he

theorem hashed (h : ns.WF sha256 clock) (hl : ns.entries.lookup name = some entry)
    (hd : name ∉ ns.digests) (hc : digestCacheMinValueBytes ≤ entry.value.length) :
    { ns with
      digests   := ns.digests.insert name (contentDigest sha256 entry.value)
      usedBytes := ns.usedBytes + UInt64.ofNat (digestCharge name) }.WF sha256 clock where
  used := by
    simp only [charges, AList.sumBy_insert_of_notMem _ hd, h.used, UInt64.ofNat_add]
    grind
  marks   := h.marks
  digests := fun hi => AList.of_lookup_insert hi ⟨entry, hl, hc, rfl⟩ h.digests
  ordered := h.ordered
  recent  := h.recent

theorem marked (h : ns.WF sha256 clock) (he : name ∈ ns.entries) (hm : name ∉ ns.migrated) :
    { ns with
      migrated  := ns.migrated.insert name ()
      usedBytes := ns.usedBytes + UInt64.ofNat (markCharge name) }.WF sha256 clock where
  used := by
    simp only [charges, AList.sumBy_insert_of_notMem _ hm, h.used, UInt64.ofNat_add]
    grind
  marks := by
    intro name' hm
    rcases (AList.mem_insert _).mp hm with rfl | hm
    · exact he
    · exact h.marks hm
  digests := h.digests
  ordered := h.ordered
  recent  := h.recent

theorem unmarked (h : ns.WF sha256 clock) :
    { ns with
      migrated  := ns.migrated.erase name
      usedBytes := ns.usedBytes - UInt64.ofNat (ns.markShare name) }.WF sha256 clock where
  used := by
    simp only [h.used, charges, markShare]
    rw [AList.sumBy_keys_erase (k := name) (s := ns.migrated) markCharge]
    simp only [UInt64.ofNat_add]
    grind
  marks   := fun hm => h.marks (AList.mem_erase.mp hm).right
  digests := h.digests
  ordered := h.ordered
  recent  := h.recent

end WF
end Nanocached.Namespace
