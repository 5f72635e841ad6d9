import Nanocached.Cache.Contents
import Nanocached.Cache.Run

-- What a cache is that never has to evict: a map from keys to values of which some expire.

namespace Nanocached

-- Whether the condition holds of the value that a key has, if any.
def CasCondition.holds (sha256 : Bytes → Vector UInt8 32) (value : Option Bytes) :
    CasCondition → Bool
  | .absent          => value.isNone
  | .present         => value.isSome
  | .digest expected => value.any (contentDigest sha256 · = expected)

def InRangeI64 (n : Int) : Prop :=
  -2 ^ 63 ≤ n ∧ n < 2 ^ 63

-- What counts as a number: the decimal form of a signed 64-bit integer, or `-0`.
def IsDecimalI64 (bytes : Bytes) (n : Int) : Prop :=
  InRangeI64 n ∧ (bytes = toDecimal n ∨ bytes = [45, 48] ∧ n = 0)

abbrev TimedMap := Key → Option Content

namespace TimedMap

open Cache (Op Response Event)
open Function (update)

def empty : TimedMap :=
  fun _ => none

-- An entry is absent as soon as it has expired.
def live (m : TimedMap) (now : Instant) (key : Key) : Option Content :=
  (m key).filter fun e => !e.isExpiredAt now

-- The number of the entries whose keys satisfy `p`. Those which have expired may be left out.
def Counts (m : TimedMap) (now : Instant) (p : Key → Prop) (n : Nat) : Prop :=
  ∃ keys : Finset Key, keys.card = n ∧ (∀ key ∈ keys, p key ∧ (m key).isSome) ∧
    ∀ key, p key → (m.live now key).isSome → key ∈ keys

-- The calls which the map gives a meaning to, with their answers.
inductive Step (sha256 : Bytes → Vector UInt8 32) (now : Instant) :
    TimedMap → Op → Response → TimedMap → Prop
  | set :
    Step sha256 now m (.set key value) .done (update m key (some (value, none)))
  | setWithTtl :
    Step sha256 now m (.setWithTtl key value ttl) .done
      (update m key (some (value, checkedAdd now ttl)))
  | get :
    Step sha256 now m (.get key) (.value ((m.live now key).map (·.1))) m
  | incr :
    m.live now key = some (value, expiresAt) → IsDecimalI64 value n → InRangeI64 (n + delta) →
    Step sha256 now m (.incr key delta)
      (.incr (.value (n + delta) (expiresAt.map (durationSince · now))))
      (update m key (some (toDecimal (n + delta), expiresAt)))
  | incrNotNumeric :
    m.live now key = some (value, expiresAt) →
    (∀ n, IsDecimalI64 value n → ¬InRangeI64 (n + delta)) →
    Step sha256 now m (.incr key delta) (.incr .notNumeric) m
  | incrNotFound :
    m.live now key = none → Step sha256 now m (.incr key delta) (.incr .notFound) m
  | touch :
    m.live now key = some (value, expiresAt) →
    Step sha256 now m (.touch key ttl promote)
      (.touched (some (value, (ttl.bind (checkedAdd now)).map (durationSince · now))))
      (update m key (some (value, ttl.bind (checkedAdd now))))
  | touchNotFound :
    m.live now key = none → Step sha256 now m (.touch key ttl promote) (.touched none) m
  | casSet :
    condition.holds sha256 ((m.live now key).map (·.1)) →
    Step sha256 now m (.casSet key condition value ttl) (.cas .stored)
      (update m key (some (value, ttl.bind (checkedAdd now))))
  | casSetMismatch :
    ¬condition.holds sha256 ((m.live now key).map (·.1)) →
    Step sha256 now m (.casSet key condition value ttl) (.cas .mismatch) m
  | casDelete :
    (CasCondition.digest expected).holds sha256 ((m.live now key).map (·.1)) →
    Step sha256 now m (.casDelete key expected) (.flag true) (update m key none)
  | casDeleteMismatch :
    ¬(CasCondition.digest expected).holds sha256 ((m.live now key).map (·.1)) →
    Step sha256 now m (.casDelete key expected) (.flag false) m
  | delete :
    Step sha256 now m (.delete key) (.flag (m.live now key).isSome) (update m key none)
  | clear :
    m.Counts now (·.ns = ns) n →
    Step sha256 now m (.clear ns) (.count n) (fun key => if key.ns = ns then none else m key)
  | clearAll :
    m.Counts now (fun _ => True) n → Step sha256 now m .clearAll (.count n) empty
  -- How many expired entries are still there to be swept is up to the cache.
  | sweepExpired {keys : Finset Key} :
    (∀ key ∈ keys, (m key).any (·.isExpiredAt now)) →
    Step sha256 now m (.sweepExpired order) (.count keys.card) m
  | keys {keys : List Key} :
    keys.Nodup → (∀ key, key ∈ keys ↔ (m.live now key).isSome) →
    Step sha256 now m (.keys order) (.keys keys) m

inductive Run (sha256 : Bytes → Vector UInt8 32) : TimedMap → List Event → TimedMap → Prop
  | refl : Run sha256 m [] m
  | head : Step sha256 e.now m₁ e.op e.response m₂ → Run sha256 m₂ es m₃ →
           Run sha256 m₁ (e :: es) m₃

end TimedMap

-- The calls of a timed map.
def Cache.Op.IsTimed : Op → Prop
  | .set .. | .setWithTtl .. | .get _ | .incr .. | .touch .. | .casSet .. | .casDelete ..
  | .delete _ | .clear _ | .clearAll | .sweepExpired _ | .keys _ => True
  | _ => False

end Nanocached
