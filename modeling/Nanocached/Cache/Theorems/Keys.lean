import Nanocached.Cache.Theorems.Step

namespace Nanocached.Store

variable {sha256 : Bytes → Vector UInt8 32} {s t : Store} {key : Key} {p : Entry → Bool}
variable {ns : Namespace}

theorem Namespace.nodup_names (ns : Namespace) (p : Entry → Bool) :
    ((ns.entries.entries.filter fun e => p e.2).map fun e => (⟨ns.name, e.1⟩ : Key)).Nodup := by
  have hk : ((ns.entries.entries.filter fun e => p e.2).map Sigma.fst).Nodup :=
    ns.entries.nodupKeys.sublist List.filter_sublist
  have hm := hk.map (f := fun name => (⟨ns.name, name⟩ : Key)) fun _ _ he => (Key.mk.inj he).right
  rwa [List.map_map] at hm

theorem WF.mem_keysWhere (h : s.WF sha256) :
    key ∈ s.keysWhere p ↔ ∃ entry, s.peek key = some entry ∧ p entry := by
  simp only [keysWhere, List.mem_flatMap, List.mem_map, List.mem_filter]
  constructor
  case mp =>
    rintro ⟨⟨id, ns⟩, hs, ⟨name, entry⟩, ⟨hm, hp⟩, rfl⟩
    refine ⟨entry, ?_, hp⟩
    rw [peek_eq, h.find_of_lookup (AList.lookup_of_mem hs)]
    exact AList.lookup_of_mem hm
  case mpr =>
    rintro ⟨entry, he, hp⟩
    have ⟨ns, hf, hl⟩ := Option.bind_eq_some_iff.mp (peek_eq ▸ he)
    have ⟨id, hs, hn⟩ := h.find_eq_some_iff.mp hf
    exact ⟨⟨id, ns⟩, AList.mem_entries.mpr hs, ⟨key.name, entry⟩,
      ⟨AList.mem_entries.mpr hl, hp⟩, Key.ext hn rfl⟩

theorem WF.mem_keysAt {order : IterOrder Key} {now : Instant} (h : s.WF sha256) :
    key ∈ s.keysAt order now ↔ (s.contents.live now key).isSome := by
  rw [keysAt, (order.perm _).mem_iff, h.mem_keysWhere, Contents.live, contents]
  cases hp : s.peek key
  case none       => simp [hp]
  case some entry => simp [hp, Entry.isExpiredAt, Content.isExpiredAt]

theorem WF.nodup_keysWhere (h : s.WF sha256) (p : Entry → Bool) : (s.keysWhere p).Nodup := by
  refine List.nodup_flatMap.mpr ⟨fun slot _ => Namespace.nodup_names slot.2 p, ?_⟩
  refine s.slots.nodupKeys.pairwise_ne.imp_of_mem fun {a b} ha hb hne => ?_
  intro key ha' hb'
  have ⟨_, _, hka⟩ := List.mem_map.mp ha'
  have ⟨_, _, hkb⟩ := List.mem_map.mp hb'
  refine hne <| h.id_unique (AList.lookup_of_mem ha) (AList.lookup_of_mem hb) ?_
  exact (Key.mk.inj (hka.trans hkb.symm)).left

theorem WF.length_keysWhere (h : s.WF sha256) :
    (s.keysWhere fun _ => true).length = s.entryCount := by
  rw [h.entryCount, keysWhere, List.length_flatMap]
  simp [AList.sumBy, AList.size]

-- The keys of all entries.
def storedKeys (s : Store) : Finset Key :=
  (s.keysWhere fun _ => true).toFinset

theorem WF.card_storedKeys (h : s.WF sha256) : s.storedKeys.card = s.entryCount := by
  rw [storedKeys, List.toFinset_card_of_nodup (h.nodup_keysWhere _), h.length_keysWhere]

theorem WF.mem_storedKeys (h : s.WF sha256) :
    key ∈ s.storedKeys ↔ (s.contents.entry key).isSome := by
  rw [storedKeys, List.mem_toFinset, h.mem_keysWhere]
  simp [contents, Option.isSome_iff_exists]

theorem WF.card_storedKeys_filter (h : s.WF sha256) (name : Bytes) :
    (s.storedKeys.filter (·.ns = name)).card = (s.find name).elim 0 (·.entries.size) := by
  cases hf : s.find name
  case none =>
    refine Finset.card_eq_zero.mpr (Finset.filter_eq_empty_iff.mpr fun key hm hn => ?_)
    simp [h.mem_storedKeys, contents_entry, hn, hf] at hm
  case some ns =>
    have ⟨_, _, hn⟩ := h.find_eq_some_iff.mp hf
    subst hn
    have hk := Namespace.nodup_names ns fun _ => true
    rw [List.filter_true] at hk
    have he : s.storedKeys.filter (·.ns = ns.name) =
        (ns.entries.entries.map fun e => (⟨ns.name, e.1⟩ : Key)).toFinset := by
      ext ⟨n, name⟩
      simp only [Finset.mem_filter, h.mem_storedKeys, List.mem_toFinset, List.mem_map]
      constructor
      case mp =>
        rintro ⟨hm, rfl⟩
        rw [entry_of_find hf, Option.isSome_map, Option.isSome_iff_exists] at hm
        have ⟨e, hm⟩ := hm
        exact ⟨⟨name, e⟩, AList.mem_entries.mpr hm, rfl⟩
      case mpr =>
        rintro ⟨⟨_, e⟩, hm, he⟩
        cases he
        refine ⟨?_, rfl⟩
        rw [entry_of_find hf, AList.lookup_of_mem hm]
        rfl
    rw [he, List.toFinset_card_of_nodup hk, List.length_map]
    rfl

theorem WF.entryCount_eq (h : s.WF sha256) (h' : t.WF sha256)
    (he : t.contents.entry = s.contents.entry) : t.entryCount = s.entryCount := by
  rw [← h.card_storedKeys, ← h'.card_storedKeys]
  refine congrArg _ (Finset.ext fun key => ?_)
  rw [h.mem_storedKeys, h'.mem_storedKeys, he]

end Nanocached.Store
