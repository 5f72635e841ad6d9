import Mathlib.Data.Finset.Basic
import Nanocached.Basic

namespace Nanocached.Discovery

def departedRetention : Duration := fromSecs 3600

def maxDeparted : Nat := 4096

-- The names that are gone, and since when. The records are also kept in the order of their instants,
-- along with ones that are not current any more.
structure Departed where
  times      : Map Bytes Instant
  order      : List (Instant × Bytes)
  -- Those whose eviction was decided by a sweep that had not run for a long while.
  unreliable : Finset Bytes

namespace Departed

def empty : Departed where
  times      := ∅
  order      := []
  unreliable := ∅

-- Only the front can be expired.
def prune (now : Instant) (times : Map Bytes Instant) (unreliable : Finset Bytes) :
    List (Instant × Bytes) → Departed
  | [] => ⟨times, [], unreliable⟩
  | (since, front) :: order =>
    if durationSince now since < departedRetention then
      ⟨times, (since, front) :: order, unreliable⟩
    else if times.lookup front = some since then
      prune now (times.erase front) (unreliable.erase front) order
    else
      prune now times unreliable order

-- The oldest current record goes.
def evictOldest (times : Map Bytes Instant) (unreliable : Finset Bytes) :
    List (Instant × Bytes) → Departed
  | [] => ⟨times, [], unreliable⟩
  | (since, front) :: order =>
    if times.lookup front = some since then
      ⟨times.erase front, order, unreliable.erase front⟩
    else
      evictOldest times unreliable order

variable (d : Departed) (name : Bytes) (now : Instant)

def record : Departed :=
  let d := prune now d.times d.unreliable d.order
  let d :=
    if maxDeparted ≤ d.times.size ∧ name ∉ d.times then
      evictOldest d.times d.unreliable d.order
    else
      d
  let times := d.times.insert name now
  let order := d.order ++ [(now, name)]
  { times      := times
    order      :=
      if 2 * maxDeparted < order.length then
        order.filter fun (since, name) => times.lookup name = some since
      else
        order
    unreliable := d.unreliable.erase name }

def recordUnreliable : Departed :=
  let d := d.record name now
  { d with unreliable := insert name d.unreliable }

def forget : Departed :=
  { d with times := d.times.erase name, unreliable := d.unreliable.erase name }

def earnsRejoin : Bool :=
  name ∉ d.unreliable ∧ (d.times.lookup name).any (durationSince now · < departedRetention)

def departedAt : Option Instant :=
  d.times.lookup name

end Departed
end Nanocached.Discovery
