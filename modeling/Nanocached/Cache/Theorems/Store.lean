import Nanocached.Cache.Theorems.Namespace

namespace Nanocached

theorem wrappingAddSigned_sub (n : UInt64) (a b : Nat) :
    wrappingAddSigned n (Int64.ofNat a - Int64.ofNat b) = n + (UInt64.ofNat a - UInt64.ofNat b) := by
  simp [wrappingAddSigned]

theorem foldl_or_xor_eq_zero_iff (l : List (UInt8 × UInt8)) (d : UInt8) :
    l.foldl (fun diff p => diff ||| (p.1 ^^^ p.2)) d = 0 ↔ d = 0 ∧ ∀ p ∈ l, p.1 = p.2 := by
  induction l generalizing d
  case nil => simp
  case cons hd tl hi =>
    simp only [List.foldl_cons, hi, UInt8.or_eq_zero_iff, UInt8.xor_eq_zero_iff, List.mem_cons,
      forall_eq_or_imp]
    tauto

theorem constantTimeEq_iff {a b : Bytes} : constantTimeEq a b ↔ a = b := by
  rw [constantTimeEq]
  split
  case isTrue h  => simpa using mt (congrArg List.length) h
  case isFalse h =>
    push Not at h
    simp only [beq_iff_eq, foldl_or_xor_eq_zero_iff, true_and]
    constructor
    case mp =>
      intro he
      refine List.ext_getElem h fun i h₁ h₂ => ?_
      exact he (a[i], b[i]) <| List.mem_iff_getElem.mpr ⟨i, by simp [h₁, h₂], by simp⟩
    case mpr =>
      rintro rfl p hp
      have ⟨i, _, hi⟩ := List.mem_iff_getElem.mp hp
      simp [← hi]

namespace Store

variable {s : Store} {id : Nat} {ns : Namespace} {name value : Bytes} {entry : Entry}
  {expiresAt : Option Instant}

theorem put_eq (hl : s.slots.lookup id = some ns) :
    s.put id name value expiresAt = some { s with
      clock      := s.clock + 1
      slots      := s.slots.insert id (ns.written name ⟨value, expiresAt, s.clock + 1⟩)
      entryCount := s.entryCount + 1 - ns.entryNum name
      usedBytes  := s.usedBytes - .ofNat (ns.share name) + .ofNat (entryCharge name value)
      marked     := s.marked - ns.markCount name } := by
  simp only [put, tick, hl, Namespace.releaseMark_eq, Namespace.releaseDigest_eq,
    Option.bind_eq_bind, Option.bind_some, Option.pure_def]
  cases he : ns.entries.lookup name
  case none =>
    have hu (u : UInt64) : u - .ofNat (ns.markShare name) - .ofNat (ns.digestShare name) =
        u - .ofNat (ns.share name) := by
      simp only [Namespace.share, Namespace.entryShare, he, Option.elim_none, UInt64.ofNat_add]
      grind
    simp only [Namespace.digestShare] at hu ⊢
    simp [hu, Namespace.written, Namespace.entryNum, AList.lookup_eq_none.mp he]
  case some replaced =>
    have hu (u : UInt64) : u - .ofNat (ns.markShare name) - .ofNat (ns.digestShare name) +
        (.ofNat value.length - .ofNat replaced.value.length) =
        u - .ofNat (ns.share name) + .ofNat (entryCharge name value) := by
      simp only [Namespace.share, Namespace.entryShare, entryCharge, he, Option.elim_some,
        UInt64.ofNat_add]
      grind
    simp only [Namespace.digestShare] at hu ⊢
    simp [hu, Namespace.written, Namespace.entryNum, AList.mem_of_lookup he, wrappingAddSigned_sub]

-- The state without `name` in the namespace `ns` of the slot `id`, which is dropped once empty.
def removed (s : Store) (id : Nat) (ns : Namespace) (name : Bytes) : Store :=
  if (ns.entries.erase name).entries = [] then
    { s with
      slots      := s.slots.erase id
      namespaces := s.namespaces.erase ns.name
      entryCount := s.entryCount - 1
      usedBytes  := s.usedBytes - .ofNat (ns.share name) - .ofNat (nameCharge ns.name)
      marked     := s.marked - ns.markCount name }
  else
    { s with
      slots      := s.slots.insert id (ns.without name)
      entryCount := s.entryCount - 1
      usedBytes  := s.usedBytes - .ofNat (ns.share name)
      marked     := s.marked - ns.markCount name }

theorem unlink_eq (he : ns.entries.lookup name = some entry) :
    s.unlink id ns name entry = some (s.removed id ns name) := by
  have hu (u : UInt64) : u - .ofNat (entryCharge name entry.value) - .ofNat (ns.markShare name) -
      .ofNat (ns.digestShare name) = u - .ofNat (ns.share name) := by
    simp only [Namespace.share, Namespace.entryShare, he, Option.elim_some, UInt64.ofNat_add]
    grind
  simp only [unlink, Namespace.releaseMark_eq, Namespace.releaseDigest_eq, List.isEmpty_iff,
    removed, dropNamespace, Namespace.without]
  simp only [Namespace.markShare, Namespace.digestShare] at hu ⊢
  simp only [hu]
  split
  case isTrue  => simp [AList.erase_insert_self, Namespace.markCount]
  case isFalse => rfl

theorem removeEntryIn_eq (hl : s.slots.lookup id = some ns)
    (he : ns.entries.lookup name = some entry) :
    s.removeEntryIn id name = some (some entry, s.removed id ns name) := by
  simp [removeEntryIn, hl, he, unlink_eq he]

theorem removeEntryIn_none (h : ∀ ns, s.slots.lookup id = some ns → name ∉ ns.entries) :
    s.removeEntryIn id name = some (none, s) := by
  rw [removeEntryIn]
  cases hl : s.slots.lookup id
  case none    => rfl
  case some ns => simp [AList.lookup_eq_none.mpr (h ns hl)]

end Store
end Nanocached
