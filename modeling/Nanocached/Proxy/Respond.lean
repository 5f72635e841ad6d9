import Nanocached.Command.Basic
import Nanocached.Proxy.Reply
import Nanocached.Response

-- What the proxy answers to its clients once a node has replied.

namespace Nanocached.Proxy

open HeaderLine (spaced)

variable (tag : Option UInt32)

def respond (marker : Bytes) : Bytes :=
  match tag with
  | some tag => marker ++ spaced [tagField tag] ++ [10]
  | none     => marker ++ [10]

def respondValue (value : Bytes) : Bytes :=
  let header := match tag with
    | some tag => [86] ++ spaced [Decimal.ofNat value.length, tagField tag] ++ [10]
    | none     => [86] ++ spaced [Decimal.ofNat value.length] ++ [10]
  header ++ value

-- `-` is 45, `W` is 87, `S` is 83 and `N` is 78.
def MultiEntry.token : MultiEntry → Bytes
  | .value v   => Decimal.ofNat v.length
  | .miss      => [45]
  | .wrongNode => [87]

def MultiEntry.bytes : MultiEntry → Bytes
  | .value v => v
  | _        => []

def MultiEntry.touchToken : MultiEntry → Bytes
  | .value _   => [83]
  | .miss      => [78]
  | .wrongNode => [87]

def AckEntry.token : AckEntry → Bytes
  | .stored    => [83]
  | .wrongNode => [87]

def respondMulti (entries : List MultiEntry) : Bytes :=
  [77] ++ spaced [Decimal.ofNat entries.length] ++ spaced (entries.map (·.token)) ++ tagSuffix tag ++
    10 :: entries.flatMap (·.bytes)

def respondMultiAck (entries : List AckEntry) : Bytes :=
  [79] ++ spaced [Decimal.ofNat entries.length] ++ spaced (entries.map (·.token)) ++ tagSuffix tag ++
    [10]

-- A hit is `S`, whatever its bytes.
def respondMultiTouch (entries : List MultiEntry) : Bytes :=
  [89] ++ spaced [Decimal.ofNat entries.length] ++ spaced (entries.map (·.touchToken)) ++
    tagSuffix tag ++ [10]

def respondWithTtl (marker : UInt8) (value : Bytes) (ttl : Option Nat) : Bytes :=
  let ttlField := (ttl.map fun ttl => 32 :: Decimal.ofNat ttl).getD []
  let header := match tag with
    | some tag =>
      [marker] ++ spaced [Decimal.ofNat value.length] ++ ttlField ++ spaced [tagField tag] ++ [10]
    | none     => [marker] ++ spaced [Decimal.ofNat value.length] ++ ttlField ++ [10]
  header ++ value

def respondTouched (value : Bytes) (ttl : Option Nat) : Bytes :=
  respondWithTtl tag 86 value ttl

def respondIncremented (value : Bytes) (ttl : Option Nat) : Bytes :=
  respondWithTtl tag 73 value ttl

-- What is expected in reply to a command. The other commands are not forwarded.
def expectOf : Wire.Command → Option Expect
  | .get _                => some .value
  | .set ..               => some .stored
  | .delete _             => some .deleted
  | .incr ..              => some .incremented
  | .casSet ..            => some .casSet
  | .casDelete ..         => some .deleted
  | .touch _ _ get        => some (if get then .touched else .touch)
  | .multiGet ..          => some .multi
  | .multiSet ..          => some .multiAck
  | .multiTouch _ _ _ get => some (if get then .multi else .multiTouch)
  | .clear _ | .clearAll  => some .cleared
  | _                     => none

-- The answer to a client whose request a node has replied to. None is made of `W`: the proxy looks
-- for the right node.
def respondWith : Expect → NodeReply → Option Bytes
  | .touched, .value value                => some (respondTouched tag value none)
  | .touched, .touched value ttl          => some (respondTouched tag value (some ttl))
  | .value, .value value                  => some (respondValue tag value)
  | .incremented, .incremented value ttl  => some (respondIncremented tag value ttl)
  | .multi, .multi entries                => some (respondMulti tag entries)
  | .multiAck, .multiAck entries          => some (respondMultiAck tag entries)
  | .multiTouch, .multiTouch entries      => some (respondMultiTouch tag entries)
  | .incremented, .notNumeric             => some (respond tag [84])
  | _, .notFound                          => some (respond tag [78])
  | _, .stored                            => some (respond tag [83])
  | _, .deleted                           => some (respond tag [68])
  | _, .cleared                           => some (respond tag [67])
  | _, _                                  => none

end Nanocached.Proxy
