import Mathlib.Data.List.MinMax
import Nanocached.Basic

namespace Nanocached.Discovery

def announceInsertCooldown : Duration := fromSecs 2

def announceInsertBurst : Nat := 64

def maxAnnounceLimiterEntries : Nat := 4096

structure AnnounceBucket where
  tokens     : Nat
  refilledAt : Instant
  lastSeen   : Instant

-- Whole refills only, the remainder counts towards the next one.
def AnnounceBucket.refilled (bucket : AnnounceBucket) (now : Instant) : AnnounceBucket :=
  let refills := min (durationSince now bucket.refilledAt / announceInsertCooldown) (2 ^ 32 - 1)
  if 0 < refills then
    let tokens := min (min (bucket.tokens + refills) (2 ^ 32 - 1)) announceInsertBurst
    { bucket with
      tokens     := tokens
      refilledAt :=
        if tokens = announceInsertBurst then now
        else bucket.refilledAt + announceInsertCooldown * refills }
  else
    bucket

-- A bucket for each source. The source of an IPv6 address is its /64, cf. `Config.perIpKey`.
abbrev AnnounceLimiter := Map Bytes AnnounceBucket

-- Whether a new registration may be inserted now, and if so it spends a token of its source.
def announceInsertAllowed (limiter : AnnounceLimiter) (source : Bytes) (now : Instant)
    (order : IterOrder (Sigma fun _ : Bytes => AnnounceBucket)) : Bool × AnnounceLimiter :=
  match limiter.lookup source with
  | some bucket =>
    let bucket := { bucket.refilled now with lastSeen := now }
    if bucket.tokens = 0 then
      (false, limiter.insert source bucket)
    else
      (true, limiter.insert source { bucket with tokens := bucket.tokens - 1 })
  | none =>
    let limiter :=
      if maxAnnounceLimiterEntries ≤ limiter.size then
        -- The one seen least recently makes room.
        match (order.apply limiter.entries).argmin (·.2.lastSeen) with
        | some oldest => limiter.erase oldest.1
        | none        => limiter
      else
        limiter
    (true, limiter.insert source ⟨announceInsertBurst - 1, now, now⟩)

end Nanocached.Discovery
