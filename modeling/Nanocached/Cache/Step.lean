import Nanocached.Cache.Contents
import Nanocached.Cache.Theorems.WF

namespace Nanocached

@[simp]
theorem Content.isExpiredAt_mk {e : Entry} {now : Instant} :
    Content.isExpiredAt (e.value, e.expiresAt) now = e.isExpiredAt now :=
  rfl

namespace Store

-- The contents of the cache: what remains of the state when the bookkeeping is left out.
def contents (s : Store) : Contents where
  entry key := (s.peek key).map fun e => (e.value, e.expiresAt)
  marked    := { key | s.isMarked key }
  buried    := s.handoffTombstones

def forgotten (s : Store) (key : Key) : Store :=
  if key ∈ s.handoffTombstones then
    { s with
      handoffTombstones := s.handoffTombstones.erase key
      usedBytes         := s.usedBytes - .ofNat (tombstoneBytes key) }
  else s

-- The calls of the cache are made of these steps. Each of them is one change of the contents, or
-- none if it only concerns the bookkeeping.
inductive Step (sha256 : Bytes → Vector UInt8 32) : Option Change → Store → Store → Prop
  | tick {s : Store} : Step sha256 none s { s with clock := s.clock + 1 }
  | heap {s : Store} {tails : MinHeap (Nat ×ₗ Nat)} :
    Tails s.slots s.clock s.nextSlotId tails → Step sha256 none s { s with tails }
  | hash {s : Store} {id : Nat} {ns : Namespace} {name : Bytes} {entry : Entry} :
    s.slots.lookup id = some ns → ns.entries.lookup name = some entry →
    digestCacheMinValueBytes ≤ entry.value.length → name ∉ ns.digests →
    Step sha256 none s { s with
      slots := s.slots.insert id { ns with
        digests   := ns.digests.insert name (contentDigest sha256 entry.value)
        usedBytes := ns.usedBytes + UInt64.ofNat (digestCharge name) }
      usedBytes := s.usedBytes + UInt64.ofNat (digestCharge name) }
  | write {s t s' : Store} {id : Nat} {key : Key} :
    s.ensureNamespace key.ns = (id, t) → t.put id key.name value expiresAt = some s' →
    Step sha256 (some (.write key value expiresAt)) s s'
  | use {s : Store} {id : Nat} {ns : Namespace} {name : Bytes} {entry : Entry} :
    s.slots.lookup id = some ns → ns.entries.lookup name = some entry →
    Step sha256 (some (.retime ⟨ns.name, name⟩ expiresAt)) s { s with
      clock := s.clock + 1
      slots := s.slots.insert id { ns with
        entries := ns.entries.insert name ⟨entry.value, expiresAt, s.clock + 1⟩ } }
  | amend {s : Store} {id : Nat} {ns : Namespace} {name : Bytes} {entry : Entry} :
    s.slots.lookup id = some ns → ns.entries.lookup name = some entry →
    Step sha256 (some (.retime ⟨ns.name, name⟩ expiresAt)) s { s with
      slots := s.slots.insert id { ns with
        entries := ns.entries.replace name { entry with expiresAt } } }
  | remove {s : Store} {id : Nat} {ns : Namespace} {name : Bytes} :
    s.slots.lookup id = some ns → name ∈ ns.entries →
    Step sha256 (some (.remove ⟨ns.name, name⟩)) s (s.removed id ns name)
  | discard {s : Store} {id : Nat} {ns : Namespace} {name : Bytes} :
    s.slots.lookup id = some ns → name ∈ ns.entries →
    Step sha256 (some (.discard ⟨ns.name, name⟩)) s
      ((s.removed id ns name).forgotten ⟨ns.name, name⟩)
  | mark {s : Store} {id : Nat} {ns : Namespace} {name : Bytes} :
    s.slots.lookup id = some ns → name ∈ ns.entries → name ∉ ns.migrated →
    Step sha256 (some (.mark ⟨ns.name, name⟩)) s { s with
      slots := s.slots.insert id { ns with
        migrated  := ns.migrated.insert name ()
        usedBytes := ns.usedBytes + UInt64.ofNat (markCharge name) }
      usedBytes := s.usedBytes + UInt64.ofNat (markCharge name)
      marked    := s.marked + 1 }
  | unmark {s : Store} {id : Nat} {ns : Namespace} {name : Bytes} :
    s.slots.lookup id = some ns →
    Step sha256 (some (.unmark ⟨ns.name, name⟩)) s { s with
      slots := s.slots.insert id { ns with
        migrated  := ns.migrated.erase name
        usedBytes := ns.usedBytes - UInt64.ofNat (ns.markShare name) }
      usedBytes := s.usedBytes - UInt64.ofNat (ns.markShare name)
      marked    := s.marked - ns.markCount name }
  | clear {s : Store} {id : Nat} {ns : Namespace} :
    s.slots.lookup id = some ns →
    Step sha256 (some (.clear ns.name)) s { s with
      namespaces := s.namespaces.erase ns.name
      slots      := s.slots.erase id
      entryCount := s.entryCount - ns.entries.size
      usedBytes  := s.usedBytes - (ns.usedBytes + UInt64.ofNat (nameCharge ns.name))
      marked     := s.marked - ns.migrated.size }
  | clearAll {s : Store} :
    Step sha256 (some .clearAll) s { s with
      namespaces        := ∅
      slots             := ∅
      tails             := []
      entryCount        := 0
      usedBytes         := 0
      marked            := 0
      handoffTombstones := ∅ }
  | bury {s : Store} {key : Key} :
    Step sha256 (some (.bury key now)) s { s with
      handoffTombstones := s.handoffTombstones.insert key now
      usedBytes :=
        if key ∈ s.handoffTombstones then s.usedBytes
        else s.usedBytes + UInt64.ofNat (tombstoneBytes key) }
  | expire {s : Store} {key : Key} :
    s.handoffTombstones.lookup key = some stamped →
    handoffTombstoneTtl ≤ durationSince now stamped →
    Step sha256 (some (.expire key now)) s (s.forgotten key)
  | displace {s : Store} {key : Key} :
    maxHandoffTombstones ≤ s.handoffTombstones.size →
    Step sha256 (some (.displace key)) s (s.forgotten key)

inductive Steps (sha256 : Bytes → Vector UInt8 32) : List Change → Store → Store → Prop
  | refl : Steps sha256 [] s s
  | head : Step sha256 change s₁ s₂ → Steps sha256 changes s₂ s₃ →
      Steps sha256 (change.toList ++ changes) s₁ s₃

namespace Steps

variable {sha256 : Bytes → Vector UInt8 32} {s₁ s₂ s₃ : Store} {cs ds : List Change} {c : Change}

theorem single (h : Step sha256 (some c) s₁ s₂) : Steps sha256 [c] s₁ s₂ :=
  .head h .refl

theorem silent (h : Step sha256 none s₁ s₂) : Steps sha256 [] s₁ s₂ :=
  .head h .refl

theorem trans (h₁ : Steps sha256 cs s₁ s₂) (h₂ : Steps sha256 ds s₂ s₃) :
    Steps sha256 (cs ++ ds) s₁ s₃ := by
  induction h₁
  case refl           => exact h₂
  case head step _ hi => simpa using .head step (hi h₂)

end Steps
end Store
end Nanocached
