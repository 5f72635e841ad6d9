import Nanocached.Cache.State

-- What the cache is for: a map from keys to values which may expire, along with the keys marked as
-- migrated and the tombstones of handed off deletes. How the entries are grouped into namespaces,
-- what they are charged and when they were used is not part of it.

namespace Nanocached

-- A value with the instant it expires at.
abbrev Content := Bytes × Option Instant

def Content.isExpiredAt (c : Content) (now : Instant) : Bool :=
  c.2.any (· ≤ now)

theorem Content.isExpiredAt_mono {c : Content} {now now' : Instant} (h : c.isExpiredAt now)
    (hn : now ≤ now') : c.isExpiredAt now' := by
  obtain ⟨t, he, ht⟩ := (Option.any_eq_true _ _).mp h
  exact (Option.any_eq_true _ _).mpr ⟨t, he, by simpa using (of_decide_eq_true ht).trans hn⟩

@[ext]
structure Contents where
  entry  : Key → Option Content
  marked : Set Key
  buried : Map Key Instant

inductive Change
  | write (key : Key) (value : Bytes) (expiresAt : Option Instant)
  | retime (key : Key) (expiresAt : Option Instant)
  | remove (key : Key)
  -- A removal which takes the tombstone of the key along.
  | discard (key : Key)
  | mark (key : Key)
  | unmark (key : Key)
  | clear (ns : Bytes)
  | clearAll
  | bury (key : Key) (now : Instant)
  -- The tombstone of the key is forgotten, because of its age or because there are too many.
  | expire (key : Key) (now : Instant)
  | displace (key : Key)

namespace Contents

def empty : Contents where
  entry  := fun _ => none
  marked := ∅
  buried := ∅

-- The entry of a key that a read at `now` finds.
def live (c : Contents) (now : Instant) (key : Key) : Option Content :=
  (c.entry key).filter fun e => !e.isExpiredAt now

def apply (c : Contents) : Change → Contents
  | .write key value expiresAt =>
    { c with
      entry  := Function.update c.entry key (some (value, expiresAt))
      marked := c.marked \ {key} }
  | .retime key expiresAt =>
    { c with entry := Function.update c.entry key ((c.entry key).map fun e => (e.1, expiresAt)) }
  | .remove key =>
    { c with
      entry  := Function.update c.entry key none
      marked := c.marked \ {key} }
  | .discard key =>
    { c with
      entry  := Function.update c.entry key none
      marked := c.marked \ {key}
      buried := c.buried.erase key }
  | .mark key => { c with marked := insert key c.marked }
  | .unmark key => { c with marked := c.marked \ {key} }
  | .clear ns =>
    { c with
      entry  := fun key => if key.ns = ns then none else c.entry key
      marked := { key ∈ c.marked | key.ns ≠ ns } }
  | .clearAll => empty
  | .bury key now => { c with buried := c.buried.insert key now }
  | .expire key _ => { c with buried := c.buried.erase key }
  | .displace key => { c with buried := c.buried.erase key }

end Contents

-- When a change can happen.
def Change.Enabled (c : Contents) : Change → Prop
  | .retime key _ | .remove key | .discard key | .mark key => (c.entry key).isSome
  | .expire key now =>
    ∃ stamped, c.buried.lookup key = some stamped ∧
      handoffTombstoneTtl ≤ durationSince now stamped
  | .displace _ => maxHandoffTombstones ≤ c.buried.size
  | _ => True

-- The change concerns no other namespace than `n`.
def Change.Within (n : Bytes) : Change → Prop
  | .write key _ _ | .retime key _ | .remove key | .discard key | .mark key | .unmark key =>
    key.ns = n
  | .clear ns => ns = n
  | .clearAll => False
  | .bury .. | .expire .. | .displace _ => True

-- The change comes with a use of an entry, which keeps its value or finds it expired.
def Change.IsUse : Change → Prop
  | .retime .. | .remove _ => True
  | _                      => False

namespace Contents

def applyAll (c : Contents) (changes : List Change) : Contents :=
  changes.foldl apply c

def Allows (c : Contents) : List Change → Prop
  | []                => True
  | change :: changes => change.Enabled c ∧ (c.apply change).Allows changes

variable {c : Contents} {cs ds : List Change} {change : Change}

theorem apply_entry_of_ne {n : Bytes} {key : Key} (hc : change.Within n) (hn : key.ns ≠ n) :
    (c.apply change).entry key = c.entry key := by
  have hk {key'} (h : key'.ns = n) : key ≠ key' := fun he => hn (he ▸ h)
  cases change <;> simp only [Change.Within] at hc <;>
    first
      | rfl
      | exact Function.update_of_ne (hk hc) ..
      | exact if_neg (hc ▸ hn)

theorem mem_apply_marked_of_ne {n : Bytes} {key : Key} (hc : change.Within n) (hn : key.ns ≠ n) :
    key ∈ (c.apply change).marked ↔ key ∈ c.marked := by
  have hk {key'} (h : key'.ns = n) : key ≠ key' := fun he => hn (he ▸ h)
  cases change <;> simp only [Change.Within] at hc <;> simp_all [apply]

@[simp]
theorem applyAll_nil : c.applyAll [] = c :=
  rfl

@[simp]
theorem applyAll_cons : c.applyAll (change :: cs) = (c.apply change).applyAll cs :=
  rfl

@[simp]
theorem applyAll_append : c.applyAll (cs ++ ds) = (c.applyAll cs).applyAll ds :=
  List.foldl_append

theorem allows_append : c.Allows (cs ++ ds) ↔ c.Allows cs ∧ (c.applyAll cs).Allows ds := by
  induction cs generalizing c
  case nil          => simp [Allows]
  case cons _ _ hi  => simp [Allows, hi, and_assoc]

-- An invariant of every change that happens in between holds in the end.
theorem applyAll_induction {P : Contents → Prop} (ha : c.Allows cs) (hc : P c)
    (step : ∀ {c change}, change ∈ cs → change.Enabled c → P c → P (c.apply change)) :
    P (c.applyAll cs) := by
  induction cs generalizing c
  case nil => exact hc
  case cons change cs hi =>
    refine hi ha.right (step (.head _) ha.left hc) fun hm => step (.tail _ hm)

theorem entry_applyAll_map {f : Key → Change} (hf : ∀ c key, (apply c (f key)).entry = c.entry)
    (c : Contents) (keys : List Key) : (c.applyAll (keys.map f)).entry = c.entry := by
  induction keys generalizing c
  case nil           => rfl
  case cons key _ hi => exact (hi _).trans (hf c key)

theorem marked_applyAll_map {f : Key → Change} (hf : ∀ c key, (apply c (f key)).marked = c.marked)
    (c : Contents) (keys : List Key) : (c.applyAll (keys.map f)).marked = c.marked := by
  induction keys generalizing c
  case nil           => rfl
  case cons key _ hi => exact (hi _).trans (hf c key)

-- Whether a tombstone of the key holds off copies of it at `now`.
def buriedAt (c : Contents) (now : Instant) (key : Key) : Bool :=
  (c.buried.lookup key).any fun stamped => durationSince now stamped < handoffTombstoneTtl

-- The key is buried after the old tombstones were forgotten, and one more if there are too many.
def burial (key : Key) (now : Instant) (old excess : List Key) : List Change :=
  old.map (fun key => .expire key now) ++ excess.map .displace ++ [.bury key now]

-- A use at `now` finds its entry alive, or else removes it.
def Finds (c : Contents) (now : Instant) : Change → Prop
  | .retime key _ => (c.live now key).isSome
  | .remove _     => True
  | _             => False

theorem entry_of_apply {key : Key} {e : Content}
    (hw : ∀ value expiresAt, change ≠ .write key value expiresAt)
    (hr : ∀ expiresAt, change ≠ .retime key expiresAt) (h : (c.apply change).entry key = some e) :
    c.entry key = some e := by
  cases change with
  | write k value expiresAt =>
    by_cases hk : key = k
    · exact absurd (hk ▸ rfl) (hw value expiresAt)
    · exact (Function.update_of_ne hk ..).symm.trans h
  | retime k expiresAt =>
    by_cases hk : key = k
    · exact absurd (hk ▸ rfl) (hr expiresAt)
    · exact (Function.update_of_ne hk ..).symm.trans h
  | remove k | discard k =>
    by_cases hk : key = k
    · simp [apply, hk] at h
    · exact (Function.update_of_ne hk ..).symm.trans h
  | clear ns =>
    simp only [apply] at h
    split at h
    · contradiction
    · exact h
  | clearAll => contradiction
  | mark k | unmark k | bury k now | expire k now | displace k => exact h

-- An entry that is not written is alive only if it was before, unless it is brought back by a use.
theorem live_of_applyAll {now : Instant} {key : Key} (ha : c.Allows cs)
    (hw : ∀ value expiresAt, .write key value expiresAt ∉ cs)
    (hr : ∀ expiresAt, .retime key expiresAt ∈ cs → (c.live now key).isSome)
    (hl : ((c.applyAll cs).live now key).isSome) : (c.live now key).isSome := by
  refine applyAll_induction (P := fun c' => (c'.live now key).isSome → (c.live now key).isSome)
    ha id ?_ hl
  intro c' change hm _ hi hl
  by_cases hc : ∃ expiresAt, change = .retime key expiresAt
  · obtain ⟨expiresAt, rfl⟩ := hc
    exact hr expiresAt hm
  · obtain ⟨e, he⟩ := Option.isSome_iff_exists.mp hl
    obtain ⟨he, hx⟩ := Option.filter_eq_some_iff.mp he
    have he := entry_of_apply (fun value expiresAt heq => hw value expiresAt (heq ▸ hm))
      (fun expiresAt heq => hc ⟨expiresAt, heq⟩) he
    exact hi (Option.isSome_iff_exists.mpr ⟨e, Option.filter_eq_some_iff.mpr ⟨he, hx⟩⟩)

theorem live_of_finds {now : Instant} {key : Key} (ha : c.Allows cs)
    (hc : ∀ change ∈ cs, c.Finds now change) (hl : ((c.applyAll cs).live now key).isSome) :
    (c.live now key).isSome :=
  live_of_applyAll ha (fun _ _ hm => hc _ hm) (fun _ hm => hc _ hm) hl

theorem Finds.isUse {now : Instant} (h : c.Finds now change) : change.IsUse := by
  cases change <;> trivial

-- The changes the calls below make, depending on the contents they find.
section Calls

variable (c : Contents) (now : Instant) (key : Key)

def removal : List Change :=
  if (c.entry key).isSome then [.remove key] else []

-- An expired entry is removed as soon as a call comes across it.
def purge : List Change :=
  if (c.entry key).any (·.isExpiredAt now) then [.remove key] else []

-- A use of the entry, which may change when it expires.
def access (expiresAt : Option Instant → Option Instant) : List Change :=
  match c.entry key with
  | none   => []
  | some e => if e.isExpiredAt now then [.remove key] else [.retime key (expiresAt e.2)]

theorem finds_of_mem_access {expiresAt : Option Instant → Option Instant}
    (h : change ∈ c.access now key expiresAt) : c.Finds now change := by
  rw [access] at h
  split at h
  case h_1 => contradiction
  case h_2 e he =>
    split at h
    case isTrue => cases List.mem_singleton.mp h; trivial
    case isFalse hx =>
      cases List.mem_singleton.mp h
      simp [Finds, live, he, hx]

theorem eq_of_mem_purge (h : change ∈ c.purge now key) : change = .remove key := by
  rw [purge] at h
  split at h
  case isTrue  => exact List.mem_singleton.mp h
  case isFalse => contradiction

theorem eq_of_mem_removal (h : change ∈ c.removal key) : change = .remove key := by
  rw [removal] at h
  split at h
  case isTrue  => exact List.mem_singleton.mp h
  case isFalse => contradiction

theorem applyAll_purge : (c.applyAll (c.purge now key)).entry key = c.live now key := by
  rw [purge, live]
  cases he : c.entry key
  case none   => simp [he]
  case some e => by_cases hx : e.isExpiredAt now <;> simp [hx, he, apply, Option.filter]

theorem purge_of_live {e : Content} (h : c.live now key = some e) :
    c.entry key = some e ∧ c.purge now key = [] := by
  have ⟨he, hx⟩ := Option.filter_eq_some_iff.mp h
  simpa [purge, he] using hx

end Calls
end Contents
end Nanocached
