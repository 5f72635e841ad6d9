import Nanocached.Proxy.Ring
import Nanocached.Sdk.Ranking

-- The node, the proxy and the SDKs rank the members of a cluster alike.

open Std

namespace Nanocached

open TypeScript Proxy

-- The members in the order in which they own a key.
theorem exists_members {members : List (Bytes × Bytes)} (hn : (members.map Prod.fst).Nodup)
    (replicas : Nat) (nsHash : UInt64) (key : Bytes) :
    ∃ ranked : List (Bytes × Bytes), ranked ⊆ members ∧
      IsRanking (HashRing.byRank (fnv1aContinue nsHash key)) (members.map Prod.fst)
        (ranked.map Prod.fst) ∧
      ∀ std : UnstableSort (RingView.new members replicas).byOutranks,
        ((RingView.new members replicas).rankOwners std nsHash key replicas).map
          (fun entry => (RingView.new members replicas).nodeAt entry.2) = ranked.take replicas := by
  obtain ⟨ranked, h⟩ := RingView.exists_ranking (.new members replicas) hn (fnv1aContinue nsHash key)
  refine ⟨ranked.map fun entry => (RingView.new members replicas).nodeAt entry.2,
    fun member hm => ?_, ?_, fun std => ?_⟩
  case refine_1 =>
    obtain ⟨entry, he, rfl⟩ := List.mem_map.mp hm
    change _ ∈ (RingView.new members replicas).nodes
    rw [← RingView.map_scores _ (fnv1aContinue nsHash key)]
    exact List.mem_map_of_mem (h.mem.mp he)
  case refine_2 =>
    rw [List.map_map]
    exact RingView.isRanking_names h
  case refine_3 =>
    rw [RingView.rankOwners_eq_take std hn h, List.map_take]
    exact congrArg (List.take · _) (Nat.min_self replicas)

theorem implementations_agree (std stdSdk : UnstableSort byScore) (engine : Engine)
    (members : List (Bytes × Bytes)) (hn : (members.map Prod.fst).Nodup)
    (ha : ∀ name ∈ members.map Prod.fst, ∀ byte ∈ name, byte < 128) (replicas : Nat)
    (stdProxy : UnstableSort (RingView.new members replicas).byOutranks) (key : Key) :
    let names := members.map Prod.fst
    (∃ owners : Option (List (Bytes × Bytes)), (∀ list ∈ owners, list ⊆ members) ∧
      (HashRing.new names).owners std key replicas = owners.map (·.map Prod.fst) ∧
      (RingView.new members replicas).owners stdProxy key = owners.map (·.map Prod.snd) ∧
      RustSdk.owners stdSdk (.new names) key.ns key.name replicas =
        owners.map (·.map Prod.fst) ∧
      ∀ ring, Ring.Reachable engine (names.map Ring.ofAscii) ring → ∀ list ∈ owners,
        (ring.owners engine key.name replicas key.ns).1 =
          list.map fun member => Ring.ofAscii member.1) ∧
    (∀ ring, Ring.Reachable engine (names.map Ring.ofAscii) ring →
      (ring.hashNamespace engine key.ns).1 = namespaceParts engine.toDouble key.ns ∧
      ∀ hash, 0 < replicas → ring.boundedInsertion engine (halves hash) replicas =
        ring.fullSort engine (halves hash) replicas) ∧
    (∀ hash byte, feedPart engine.toDouble (halves hash) (UInt8.toNat byte) =
      halves ((hash ^^^ byte.toUInt64) * fnvPrime)) ∧
    (∀ a b, 0 ≤ a ∧ a < 2 ^ 32 → 0 ≤ b ∧ b < 2 ^ 32 →
      mulHi32 engine.toDouble a b = a * b / 2 ^ 32) ∧
    ∀ hi lo, scoreParts engine.toDouble hi lo = halves (fmix64 (ofParts hi lo)) := by
  intro names
  refine ⟨?_, ?_, feedPart_halves _, fun a b => mulHi32_eq _, scoreParts_eq _⟩
  case refine_1 =>
    rcases hk : keyHash key with _ | hash
    case none =>
      have hs : namespaceState key.ns = none := Option.map_eq_none_iff.mp hk
      refine ⟨none, by simp, ?_, ?_, ?_, by simp⟩
      · rw [HashRing.owners, hk]
        rfl
      · rw [RingView.owners, NamespaceHash.of_eq, hs]
        rfl
      · rw [RustSdk.owners, RustSdk.keyHash_eq, hk]
        rfl
    case some =>
      obtain ⟨nsHash, hs, rfl⟩ := Option.map_eq_some_iff.mp hk
      obtain ⟨ranked, hm, hr, hv⟩ := exists_members hn replicas nsHash key.name
      have hr' : IsRanking _ (HashRing.new names).nodes _ :=
        ⟨fun {_} => hr.mem.trans HashRing.mem_nodes_new.symm, hr.sorted⟩
      refine ⟨some (ranked.take replicas), ?_, ?_, ?_, ?_, ?_⟩
      · intro list hl member hmem
        cases hl
        exact hm (List.mem_of_mem_take hmem)
      · rw [HashRing.owners, hk, Option.map_some, HashRing.ownersHashed_eq_take std hr',
          Option.map_some, List.map_take]
      · rw [RingView.owners, NamespaceHash.of_eq, hs, Option.map_some, Option.map_some,
          ← hv stdProxy, List.map_map]
        rfl
      · rw [RustSdk.owners_eq_take stdSdk hk hr', Option.map_some, List.map_take]
      · intro ring hring list hl
        cases hl
        rw [Ring.owners_eq (Ring.wf_of_reachable hn ha hring) hn hk hr, ← List.map_take,
          List.map_map]
        rfl
  case refine_2 =>
    intro ring hr
    have hw := Ring.wf_of_reachable hn ha hr
    refine ⟨(Ring.hashNamespace_eq hw key.ns).left, fun hash hp => ?_⟩
    have hr := IsRanking.sort (.mergeSort (HashRing.byRank hash)) hn
    rw [Ring.boundedInsertion_eq hw hn hr hp, Ring.fullSort_eq hw hn hr]

theorem implementations_agree_of_two :
    let members : List (Bytes × Bytes) := [([97], [1]), ([98], [2])]
    let view := RingView.new members 1
    ∃ owners : Option (List (Bytes × Bytes)), (∀ list ∈ owners, list ⊆ members) ∧
      (HashRing.new [[97], [98]]).owners (.mergeSort byScore) ⟨[7], [107]⟩ 1 =
        owners.map (·.map Prod.fst) ∧
      view.owners (.mergeSort view.byOutranks) ⟨[7], [107]⟩ = owners.map (·.map Prod.snd) := by
  intro members view
  obtain ⟨owners, hm, hn, hp, _⟩ := (implementations_agree (.mergeSort byScore)
    (.mergeSort byScore) .reference members (by decide) (by simp [members]) 1
    (.mergeSort view.byOutranks) ⟨[7], [107]⟩).left
  exact ⟨owners, hm, hn, hp⟩

end Nanocached
