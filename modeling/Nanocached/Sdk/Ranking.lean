import Nanocached.Sdk.HashRing

open Std

namespace Nanocached

namespace RustSdk

theorem keyHash_eq (key : Key) : keyHash key.ns key.name = Nanocached.keyHash key := by
  rw [keyHash, Nanocached.keyHash, namespaceState]
  split
  case isTrue => rfl
  case isFalse =>
    split
    case isTrue => rfl
    case isFalse => rfl

-- The ring is made and scored like that of a node.
theorem scored_eq (names : List Bytes) (hash : UInt64) :
    ((HashRing.new names).nodeHashes.zip (HashRing.new names).nodes).map
      (fun (nodeHash, node) => (fmix64 (nodeHash ^^^ hash), node)) =
        (Nanocached.HashRing.new names).scored hash :=
  rfl

open Nanocached.HashRing in
theorem owners_eq_take (std : UnstableSort byScore) {names ranked : List Bytes}
    {key : Key} {hash : UInt64} (hk : Nanocached.keyHash key = some hash)
    (h : IsRanking (byRank hash) (Nanocached.HashRing.new names).nodes ranked) (replicas : Nat) :
    owners std (.new names) key.ns key.name replicas = some (ranked.take replicas) := by
  have hr := isRanking_scored h
  have hn := nodup_scored (.new names) hash
  have hl := hr.length_eq hn
  have ht : ranked.take replicas =
      ((ranked.map fun node => (score hash node, node)).take replicas).map (·.2) := by
    simp [List.map_take, Function.comp_def]
  rw [owners, keyHash_eq, hk, Option.map_some, ht]
  refine congrArg (fun scored : List (UInt64 × Bytes) => some (scored.map (·.2))) ?_
  rw [scored_eq]
  generalize (ranked.map fun node => (score hash node, node)) = rankedScores at hr hl ⊢
  generalize (Nanocached.HashRing.new names).scored hash = scores at hr hn hl ⊢
  split
  case isTrue hlt =>
    rw [hr.sort_take_select_before std hn hlt, List.take_eq_take_iff]
    omega
  case isFalse hge =>
    rw [List.take_of_length_le (by omega)]
    exact (IsRanking.sort std hn).unique hr fun _ => Iff.rfl

end RustSdk

namespace TypeScript

open Js

def byParts (a b : Entry) : Ordering :=
  (compare b.hi a.hi).then ((compare b.lo a.lo).then (compare a.node b.node))

variable {a b entry : Entry} {entries before after ranked : List Entry} {pos j replicas : Nat}

theorem outranks_iff : outranks a b ↔ byParts a b = .lt := by
  simp only [outranks, byParts, Ordering.then_eq_lt, compare_eq_lt, List.compare_eq_lt_iff,
    LawfulEqOrd.compare_eq_iff_eq]
  grind

instance : TransCmp byParts :=
  inferInstanceAs <| TransCmp <| compareLex (fun a b => compareOn Entry.hi b a) <|
    compareLex (fun a b => compareOn Entry.lo b a) (compareOn Entry.node)

namespace Ring

theorem not_outranks (h : byParts a b = .lt) : ¬outranks b a := by
  rw [outranks_iff]
  exact IsRanking.asymm h

theorem length_shift : (shift pos j entries).length = entries.length := by
  induction j generalizing entries
  case zero => rfl
  case succ j hi =>
    rw [shift]
    split
    case isTrue  => rw [hi, List.length_set]
    case isFalse => rfl

theorem getElem?_shift (hj : j < entries.length) (i : Nat) :
    (shift pos j entries)[i]? = if pos < i ∧ i ≤ j then entries[i - 1]? else entries[i]? := by
  induction j generalizing entries
  case zero =>
    rw [shift, if_neg (by omega)]
  case succ j hi =>
    rw [shift]
    split
    case isTrue hp =>
      rw [hi (by rw [List.length_set]; omega), List.getElem?_set, List.getElem?_set]
      grind
    case isFalse hp =>
      rw [if_neg (by omega)]

theorem getD_of_take {n : Nat} (hn : n + 1 ≤ entries.length)
    (he : entries.take (n + 1) = before ++ [entry]) :
    entries.take n = before ∧ entries.getD n ⟨0, 0, []⟩ = entry := by
  rw [List.take_add_one, List.getElem?_eq_getElem hn] at he
  obtain ⟨he, hlast⟩ := List.append_inj' he rfl
  exact ⟨he, (List.getD_eq_getElem _ _ hn).trans (List.singleton_inj.mp hlast)⟩

theorem position_append {n : Nat} (he : entries.take n = before ++ after) (hn : n ≤ entries.length)
    (hb : ∀ b ∈ before, byParts b entry = .lt) (ha : ∀ b ∈ after, byParts entry b = .lt) :
    position entry entries n = before.length := by
  have hlen := congrArg List.length he
  rw [List.length_take, Nat.min_eq_left hn, List.length_append] at hlen
  induction n generalizing after
  case zero =>
    rw [position]
    omega
  case succ n hi =>
    rcases List.eq_nil_or_concat after with rfl | ⟨after, last, rfl⟩
    case inl =>
      obtain ⟨before, last, rfl⟩ := (List.eq_nil_or_concat before).resolve_left fun h => by
        simp [h] at hlen
      rw [List.append_nil, List.concat_eq_append] at he
      rw [position, (getD_of_take hn he).right, if_neg (not_outranks (hb last (by simp)))]
      exact hlen
    case inr =>
      rw [List.concat_eq_append, ← List.append_assoc] at he
      obtain ⟨he, hlast⟩ := getD_of_take hn he
      rw [position, hlast, if_pos (outranks_iff.mpr (ha last (by simp)))]
      refine hi he (Nat.le_of_succ_le hn) (fun b hm => ha b (by simp [hm])) ?_
      rw [List.length_concat] at hlen
      omega

def IsWord (entry : Entry) : Prop :=
  uint32 entry.hi = entry.hi ∧ uint32 entry.lo = entry.lo

theorem insert_append {top : Top} (hw : IsWord entry) (hl : top.entries.length = replicas)
    (hk : top.kept ≤ replicas) (hp : 0 < replicas)
    (he : top.entries.take top.kept = before ++ after)
    (hb : ∀ b ∈ before, byParts b entry = .lt) (ha : ∀ b ∈ after, byParts entry b = .lt) :
    let top' := top.insert replicas entry
    (top'.entries.length = replicas ∧ top'.kept ≤ replicas) ∧
      top'.entries.take top'.kept = (before ++ entry :: after).take replicas := by
  have hpos := position_append he (hk.trans hl.ge) hb ha
  have hlen := congrArg List.length he
  rw [List.length_take, hl, Nat.min_eq_left hk, List.length_append] at hlen
  rw [Top.insert]
  split
  case isTrue hfull =>
    obtain ⟨hkept, hno⟩ := hfull
    rcases List.eq_nil_or_concat after with rfl | ⟨after, last, rfl⟩
    case inl =>
      rw [List.append_nil] at he
      refine ⟨⟨hl, hk⟩, ?_⟩
      rw [he, List.take_left']
      simpa [hkept] using hlen.symm
    case inr =>
      rw [List.concat_eq_append, ← List.append_assoc, hkept, ← Nat.sub_add_cancel hp] at he
      rw [hkept, (getD_of_take (by omega) he).right] at hno
      exact absurd (outranks_iff.mpr (ha last (by simp))) hno
  case isFalse hroom =>
    -- If all are kept, the candidate is before the last one.
    have hroom : top.kept = replicas → after ≠ [] := by
      rintro hkept rfl
      obtain ⟨before, last, rfl⟩ := (List.eq_nil_or_concat before).resolve_left fun h => by
        simp [h] at hlen
        omega
      rw [List.append_nil, List.concat_eq_append, hkept, ← Nat.sub_add_cancel hp] at he
      rw [hkept, (getD_of_take (by omega) he).right] at hroom
      exact hroom ⟨rfl, not_outranks (hb last (by simp))⟩
    have hafter : top.kept = replicas → 0 < after.length := fun h =>
      List.length_pos_iff.mpr (hroom h)
    have hkept : (if top.kept < replicas then top.kept + 1 else top.kept) =
        min (top.kept + 1) replicas := by
      split <;> omega
    simp only [hpos, hw.left, hw.right, hkept]
    refine ⟨⟨by rw [List.length_set, length_shift, hl], by omega⟩, List.ext_getElem? fun i => ?_⟩
    have hget (i : Nat) (hi : i < top.kept) :
        top.entries[i]? = if i < before.length then before[i]? else after[i - before.length]? := by
      rw [← List.getElem?_append, ← he, List.getElem?_take_of_lt hi]
    rw [List.getElem?_take, List.getElem?_take, List.getElem?_set, getElem?_shift (by omega),
      length_shift, List.getElem?_append, List.getElem?_cons]
    rcases Nat.lt_trichotomy i before.length with hi | rfl | hi
    · rw [if_pos (by omega), if_neg (by omega), if_neg (by omega), hget i (by omega), if_pos hi,
        if_pos (by omega), if_pos hi]
    · rw [if_pos (by omega), if_pos rfl, if_pos (by omega), if_pos (by omega),
        if_neg (Nat.lt_irrefl _), if_pos (Nat.sub_self _)]
    · rw [if_neg (by omega : ¬before.length = i), if_neg (by omega : ¬i < before.length),
        if_neg (by omega : ¬i - before.length = 0), Nat.sub_right_comm]
      rcases Nat.lt_or_ge i (min (top.kept + 1) replicas) with hlt | hge
      · rw [if_pos hlt, if_pos (by omega), hget _ (by omega), if_neg (by omega), if_pos (by omega)]
      · rw [if_neg (by omega)]
        split
        case isTrue  => exact (List.getElem?_eq_none_iff.mpr (by omega)).symm
        case isFalse => rfl

section Owners

variable {engine : Engine} {ring : Ring} {names : List Bytes} {hash : UInt64}

-- The string of an ASCII name.
def ofAscii (name : Bytes) : Str := name.map (·.toUInt16)

def entryOf (hash : UInt64) (name : Bytes) : Entry :=
  let parts := halves (HashRing.score hash name)
  ⟨parts.hi, parts.lo, ofAscii name⟩

theorem compare_halves (x y : UInt64) :
    (compare (halves x).hi (halves y).hi).then (compare (halves x).lo (halves y).lo) =
      compare x y := by
  simp only [halves]
  rcases Nat.lt_trichotomy x.toNat y.toNat with h | h | h
  case inl =>
    rw [compare_eq_lt.mpr (UInt64.lt_iff_toNat_lt.mpr h), Ordering.then_eq_lt, compare_eq_lt,
      compare_eq_lt, LawfulEqOrd.compare_eq_iff_eq]
    omega
  case inr.inl =>
    rw [h, UInt64.toNat_inj.mp h]
    simp
  case inr.inr =>
    rw [compare_eq_gt.mpr (UInt64.lt_iff_toNat_lt.mpr h), Ordering.then_eq_gt, compare_eq_gt,
      compare_eq_gt, LawfulEqOrd.compare_eq_iff_eq]
    omega

theorem compare_ofAscii (a b : Bytes) : compare (ofAscii a) (ofAscii b) = compare a b := by
  have hc (x y : UInt8) : compare x.toUInt16 y.toUInt16 = compare x y := by
    rcases Nat.lt_trichotomy x.toNat y.toNat with h | h | h
    case inl =>
      rw [compare_eq_lt.mpr (UInt8.lt_iff_toNat_lt.mpr h), compare_eq_lt]
      exact UInt16.lt_iff_toNat_lt.mpr (by simpa using h)
    case inr.inl => rw [UInt8.toNat_inj.mp h, compare_self, compare_self]
    case inr.inr =>
      rw [compare_eq_gt.mpr (UInt8.lt_iff_toNat_lt.mpr h), compare_eq_gt]
      exact UInt16.lt_iff_toNat_lt.mpr (by simpa using h)
  rw [List.compare_eq_compareLex, List.compare_eq_compareLex]
  induction a generalizing b
  case nil => cases b <;> rfl
  case cons x a hi =>
    cases b
    case nil => rfl
    case cons y b =>
      rw [ofAscii, ofAscii, List.map_cons, List.map_cons, List.compareLex_cons_cons,
        List.compareLex_cons_cons, hc]
      exact congrArg _ (hi b)

theorem byParts_entryOf (hash : UInt64) (a b : Bytes) :
    byParts (entryOf hash a) (entryOf hash b) = HashRing.byRank hash a b := by
  rw [byParts, ← Ordering.then_assoc, HashRing.byRank, byScore]
  simp only [entryOf, compare_halves, compare_ofAscii]

-- Between the calls the ring only ever changes its cache, which is right about its namespace.
structure WF (engine : Engine) (names : List Bytes) (ring : Ring) : Prop where
  nodes  : ring.nodes = names.map ofAscii
  hashHi : ring.nodeHashHi = names.map fun name => (halves (fnv1a name)).hi
  hashLo : ring.nodeHashLo = names.map fun name => (halves (fnv1a name)).lo
  cached : ∀ {ns parts}, ring.namespaceState = some (ns, parts) →
    parts = namespaceParts engine.toDouble ns

theorem ofParts_lxor (x y : UInt64) :
    ofParts (lxor (halves x).hi (halves y).hi) (lxor (halves x).lo (halves y).lo) = x ^^^ y := by
  have hx := x.toNat_lt
  have hy := y.toNat_lt
  have hn : (x ^^^ y).toNat = (x.toNat / 2 ^ 32 ^^^ y.toNat / 2 ^ 32) * 2 ^ 32 +
      (x.toNat % 2 ^ 32 ^^^ y.toNat % 2 ^ 32) := by
    rw [UInt64.toNat_xor, ← Nat.div_add_mod' (x.toNat ^^^ y.toNat) (2 ^ 32), Nat.xor_div_two_pow,
      Nat.xor_mod_two_pow]
  rw [ofParts]
  simp only [halves]
  rw [lxor_emod (by omega) (by omega), lxor_emod (by omega) (by omega), Int.toNat_natCast,
    Int.toNat_natCast, ← hn, UInt64.ofNat_toNat]

theorem scored_eq (h : WF engine names ring) :
    ring.scored engine (halves hash) = names.map (entryOf hash) := by
  rw [scored, h.hashHi, h.hashLo, h.nodes, List.zip_map', List.zip_map', List.map_map]
  refine List.map_congr_left fun name _ => ?_
  simp only [Function.comp_apply, scoreParts_eq, ofParts_lxor]
  rfl

theorem isWord_entryOf (hash : UInt64) (name : Bytes) : IsWord (entryOf hash name) := by
  have h := (HashRing.score hash name).toNat_lt
  simp only [IsWord, uint32, entryOf, halves, ushr_eq]
  omega

theorem isRanking_scored {ranked : List Bytes} (h : IsRanking (HashRing.byRank hash) names ranked) :
    IsRanking byParts (names.map (entryOf hash)) (ranked.map (entryOf hash)) where
  mem    := by simp [h.mem]
  sorted := List.pairwise_map.mpr (h.sorted.imp fun hlt => (byParts_entryOf hash _ _).trans hlt)

theorem distinct_scored (hn : names.Nodup) :
    (names.map (entryOf hash)).Pairwise (byParts · · ≠ .eq) := by
  refine List.pairwise_map.mpr (hn.imp fun hne he => hne ?_)
  rw [byParts_entryOf] at he
  exact LawfulEqCmp.eq_of_compare he

theorem map_node_take {ranked : List Bytes} :
    ((ranked.map (entryOf hash)).take replicas).map (·.node) =
      (ranked.take replicas).map ofAscii := by
  rw [← List.map_take, List.map_map]
  rfl

theorem fullSort_eq {ranked : List Bytes} (hw : WF engine names ring) (hn : names.Nodup)
    (h : IsRanking (HashRing.byRank hash) names ranked) :
    ring.fullSort engine (halves hash) replicas = (ranked.take replicas).map ofAscii := by
  have hs : IsRanking byParts (names.map (entryOf hash))
      (engine.sort outranks (names.map (entryOf hash))) :=
    { mem    := (engine.sort_perm _ _).mem_iff
      sorted := (engine.sort_sorted byParts (fun _ _ => outranks_iff) (distinct_scored hn)).imp
        outranks_iff.mp }
  rw [fullSort, scored_eq hw, hs.unique (isRanking_scored h) fun _ => Iff.rfl, map_node_take]

theorem boundedInsertion_eq {ranked : List Bytes} (hw : WF engine names ring) (hn : names.Nodup)
    (h : IsRanking (HashRing.byRank hash) names ranked) (hp : 0 < replicas) :
    ring.boundedInsertion engine (halves hash) replicas = (ranked.take replicas).map ofAscii := by
  rw [boundedInsertion, scored_eq hw, ← map_node_take]
  refine congrArg _ (Selection.foldl_eq_take (fun top : Top => top.entries.take top.kept)
    (fun top => top.entries.length = replicas ∧ top.kept ≤ replicas) (distinct_scored hn)
    (isRanking_scored h) ?_ ⟨List.length_replicate, Nat.zero_le _⟩ (List.take_zero ..))
  intro top before after entry hm hi he _ hb ha
  obtain ⟨name, _, rfl⟩ := List.mem_map.mp hm
  exact insert_append (isWord_entryOf hash name) hi.left hi.right hp he hb ha

theorem dedupe_eq {nodes seen : List Str} (hn : nodes.Nodup) (hs : ∀ node ∈ nodes, node ∉ seen) :
    dedupe nodes seen = nodes := by
  induction nodes generalizing seen
  case nil => rfl
  case cons node nodes hi =>
    obtain ⟨hnot, hn⟩ := List.nodup_cons.mp hn
    rw [dedupe, if_neg (hs node (.head _)), hi hn]
    intro node' hm hs'
    rcases List.mem_cons.mp hs' with rfl | hs'
    · exact hnot hm
    · exact hs node' (.tail _ hm) hs'

theorem ofAscii_injective : Function.Injective ofAscii :=
  List.map_injective_iff.mpr fun x y h => by simpa using congrArg UInt16.toUInt8 h

theorem uint32_round {n : Nat} (hn : n < 2 ^ 32) : uint32 (engine.round n) = n := by
  rw [uint32, engine.exact (exact_of_lt (by omega)), ushr_eq]
  omega

theorem wf_new (hn : names.Nodup) (ha : ∀ name ∈ names, ∀ byte ∈ name, byte < 128) :
    WF engine names (.new engine (names.map ofAscii)) := by
  have hd : dedupe (names.map ofAscii) [] = names.map ofAscii :=
    dedupe_eq (hn.map ofAscii_injective) (by simp)
  have hash {name} (hm : name ∈ names) :
      fnv1aBig (engine.utf8 (ofAscii name)) = (fnv1a name).toNat := by
    rw [ofAscii, engine.utf8_ascii name (ha name hm), fnv1aBig_eq]
  constructor
  case nodes  => exact hd
  case cached =>
    intro _ _ h
    contradiction
  case hashHi =>
    simp only [new, hd, List.map_map]
    refine List.map_congr_left fun name hm => ?_
    have hl := (fnv1a name).toNat_lt
    rw [Function.comp_apply, hash hm, Nat.shiftRight_eq_div_pow, uint32_round (by omega), halves]
  case hashLo =>
    simp only [new, hd, List.map_map]
    refine List.map_congr_left fun name hm => ?_
    have he : (fnv1a name).toNat &&& 0xffffffff = (fnv1a name).toNat % 2 ^ 32 :=
      Nat.and_two_pow_sub_one_eq_mod _ 32
    rw [Function.comp_apply, hash hm, he, uint32_round (by omega), halves]

-- The cache does not change what a namespace is hashed to.
theorem hashNamespace_eq (hw : WF engine names ring) (ns : Bytes) :
    (ring.hashNamespace engine ns).1 = namespaceParts engine.toDouble ns ∧
      WF engine names (ring.hashNamespace engine ns).2 := by
  have hf : WF engine names
      { ring with namespaceState := some (ns, namespaceParts engine.toDouble ns) } :=
    ⟨hw.nodes, hw.hashHi, hw.hashLo, fun h => by cases h; rfl⟩
  rw [hashNamespace]
  split
  case h_1 cached parts hc =>
    split
    case isTrue he =>
      rw [hw.cached hc, he.right]
      exact ⟨rfl, hw⟩
    case isFalse => exact ⟨rfl, hf⟩
  case h_2 => exact ⟨rfl, hf⟩

theorem wf_owners (hw : WF engine names ring) (key : Bytes) (replicas : Nat) (ns : Bytes) :
    WF engine names (ring.owners engine key replicas ns).2 := by
  have hns := (hashNamespace_eq hw ns).right
  rw [owners]
  split
  case isTrue => exact hw
  case isFalse =>
    dsimp only
    split
    case isTrue  => exact hns
    case isFalse => exact hns

theorem wf_of_reachable (hn : names.Nodup) (ha : ∀ name ∈ names, ∀ byte ∈ name, byte < 128)
    (h : Reachable engine (names.map ofAscii) ring) : WF engine names ring := by
  induction h
  case new => exact wf_new hn ha
  case call key replicas ns _ hw => exact wf_owners hw key replicas ns

theorem owners_eq {ranked : List Bytes} (hw : WF engine names ring) (hn : names.Nodup) {key : Key}
    (hk : keyHash key = some hash) (h : IsRanking (HashRing.byRank hash) names ranked) :
    (ring.owners engine key.name replicas key.ns).1 = (ranked.take replicas).map ofAscii := by
  obtain ⟨nsHash, hs, rfl⟩ := Option.map_eq_some_iff.mp hk
  obtain ⟨hp, hw'⟩ := hashNamespace_eq hw key.ns
  rw [namespaceParts_eq _ hs] at hp
  rw [owners]
  split
  case isTrue he =>
    rcases he with he | rfl
    · rw [hw.nodes, List.length_map, List.length_eq_zero_iff] at he
      have hr : ranked = [] := List.eq_nil_iff_forall_not_mem.mpr fun name hm => by
        simpa [he] using h.mem.mp hm
      rw [hr, List.take_nil]
      rfl
    · rfl
  case isFalse he =>
    simp only [hp, feedParts_halves]
    split
    case isTrue  => exact fullSort_eq hw' hn h
    case isFalse => exact boundedInsertion_eq hw' hn h (by omega)

end Owners

end Ring
end TypeScript
end Nanocached
