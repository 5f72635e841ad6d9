import Nanocached.Cache.Theorems.Step

namespace Nanocached

-- The change gives a key a tombstone.
def Change.buries : Change → Bool
  | .bury .. => true
  | _        => false

namespace Contents

variable {c : Contents} {cs : List Change} {change : Change} {key : Key} {now stamped : Instant}

theorem Finds.not_buries (h : c.Finds now change) : change.buries = false := by
  cases change with
  | bury => contradiction
  | _    => rfl

theorem buried_of_applyAll (ha : c.Allows cs) (hc : ∀ change ∈ cs, change.buries = false)
    (h : (c.applyAll cs).buried.lookup key = some stamped) :
    c.buried.lookup key = some stamped := by
  refine applyAll_induction
    (P := fun c' => c'.buried.lookup key = some stamped → c.buried.lookup key = some stamped)
    ha id ?_ h
  intro c' change hm _ hi hl
  refine hi ?_
  cases change with
  | discard | expire | displace => exact (AList.lookup_erase_eq_some.mp hl).2
  | clearAll => simp [apply, empty] at hl
  | bury     => exact absurd (hc _ hm) (by simp [Change.buries])
  | _        => exact hl

end Contents

namespace Cache

variable {sha256 : Bytes → Vector UInt8 32} {s s' s'' : Cache} {cs ds : List Change}

-- When the latest handoff that was ahead of the ring came, and how many there were.
def handoffs (s : Cache) : Option Instant × Nat :=
  (s.lastHandoffAt, s.handoffWrites)

-- No tombstone is added, and the queue of their order is left as it is, as are the handoffs.
structure Keeps (s s' : Cache) : Prop where
  order    : s'.tombstoneOrder = s.tombstoneOrder
  buried   : ∀ {key stamped}, s'.handoffTombstones.lookup key = some stamped →
               s.handoffTombstones.lookup key = some stamped
  handoffs : s'.handoffs = s.handoffs

theorem Keeps.refl : Keeps s s :=
  ⟨rfl, id, rfl⟩

-- The steps of a call, which leaves the queue of the tombstones and the handoffs as they are.
def Steps (sha256 : Bytes → Vector UInt8 32) (cs : List Change) (s s' : Cache) : Prop :=
  Store.Steps sha256 cs s.toStore s'.toStore ∧
  s'.tombstoneOrder = s.tombstoneOrder ∧ s'.handoffs = s.handoffs

namespace Steps

theorem refl : Steps sha256 [] s s :=
  ⟨.refl, rfl, rfl⟩

theorem trans (h : Steps sha256 cs s s') (h' : Steps sha256 ds s' s'') :
    Steps sha256 (cs ++ ds) s s'' :=
  ⟨h.1.trans h'.1, h'.2.1.trans h.2.1, h'.2.2.trans h.2.2⟩

theorem wf (h : s.WF sha256) (hs : Steps sha256 cs s s') : s'.WF sha256 :=
  hs.1.wf h

theorem frame (h : s.WF sha256) (hs : Steps sha256 cs s s') :
    Store.Frame s.toStore s'.toStore :=
  hs.1.frame h

theorem contents (h : s.WF sha256) (hs : Steps sha256 cs s s') :
    s.contents.Allows cs ∧ s'.contents = s.contents.applyAll cs :=
  hs.1.contents h

theorem keeps (h : s.WF sha256) (hs : Steps sha256 cs s s')
    (hc : ∀ change ∈ cs, change.buries = false) : Keeps s s' where
  order    := hs.2.1
  buried   := fun hl => by
    obtain ⟨ha, he⟩ := hs.contents h
    refine Contents.buried_of_applyAll ha hc ?_
    rw [← he]
    exact hl
  handoffs := hs.2.2

end Steps
end Cache
end Nanocached
