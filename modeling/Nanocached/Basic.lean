import Nanocached.Lib.AssocList

namespace Nanocached

abbrev Bytes := List UInt8

instance : LawfulBEq Bytes :=
  inferInstance

-- A hash map. Its iteration order is not modelled by the order of the list, cf. `IterOrder`.
abbrev Map (κ ν : Type) := AList fun _ : κ => ν

-- Addresses a value: a flat namespace (empty for the default one) and the name within it.
@[ext]
structure Key where
  ns   : Bytes
  name : Bytes
deriving DecidableEq, Repr

-- Instants and durations are counted in nanoseconds.
abbrev Instant := Nat

abbrev Duration := Nat

def fromSecs (secs : Nat) : Duration :=
  secs * 1000000000

-- The clock holds its seconds in a signed 64-bit integer.
def maxInstant : Instant :=
  fromSecs (2 ^ 63) - 1

def checkedAdd (now : Instant) (ttl : Duration) : Option Instant :=
  if now + ttl ≤ maxInstant then some (now + ttl) else none

-- Saturates at zero, like `Instant::duration_since` and `Instant::saturating_duration_since`.
def durationSince (later earlier : Instant) : Duration :=
  later - earlier

def usizeMax : Nat :=
  2 ^ 64 - 1

def saturatingAdd (a b : Nat) : Nat :=
  min (a + b) usizeMax

-- The order in which a call happens to iterate over hash maps. It may be different for every call,
-- so everything that depends on it is stated for an arbitrary one.
structure IterOrder (α : Type) where
  apply : List α → List α
  perm  : ∀ l, (apply l).Perm l

def IterOrder.asListed {α : Type} : IterOrder α where
  apply := id
  perm  := .refl

end Nanocached
