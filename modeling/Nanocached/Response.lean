import Nanocached.Basic
import Nanocached.Lib.HeaderLine

-- What a node answers, and how it is written.

namespace Nanocached

open HeaderLine (spaced)

inductive MultiEntry
  | value (value : Bytes)
  | miss
  | wrongNode
deriving DecidableEq, Repr

inductive MultiAckEntry
  | stored
  | wrongNode
deriving DecidableEq, Repr

inductive MultiTouchEntry
  | touched
  | miss
  | wrongNode
deriving DecidableEq, Repr

-- The answers to peers. Those that only tasks of the node itself get are never written.
inductive Response
  | value (value : Bytes)
  | multi (entries : List MultiEntry)
  | multiAck (entries : List MultiAckEntry)
  | multiTouch (entries : List MultiTouchEntry)
  | stored
  | storedUnchanged
  | deleted
  | notFound
  | busy
  | authOk
  | unauthorized
  | malformed
  | migrationAccepted (entries : Nat)
  | migrationRejected
  | migrationCancelled
  | wrongNode
  | cleared (removed : Nat)
  | incremented (value : Bytes) (ttl : Option Duration)
  | touched (value : Bytes) (ttl : Option Duration)
  | notNumeric
deriving DecidableEq, Repr

-- A time to live as whole seconds, rounded up.
def ttlWireSeconds (ttl : Duration) : Nat :=
  ttl / fromSecs 1 + if ttl % fromSecs 1 > 0 then 1 else 0

def ttlField (ttl : Option Duration) : Bytes :=
  (ttl.map fun ttl => 32 :: Decimal.ofNat (ttlWireSeconds ttl)).getD []

-- `-` is 45, `W` is 87, `S` is 83 and `N` is 78.
def MultiEntry.token : MultiEntry → Bytes
  | .value v   => Decimal.ofNat v.length
  | .miss      => [45]
  | .wrongNode => [87]

def MultiEntry.bytes : MultiEntry → Bytes
  | .value v => v
  | _        => []

def MultiAckEntry.token : MultiAckEntry → Bytes
  | .stored    => [83]
  | .wrongNode => [87]

def MultiTouchEntry.token : MultiTouchEntry → Bytes
  | .touched   => [83]
  | .miss      => [78]
  | .wrongNode => [87]

-- ` {tag}`, if there is one.
def tagSuffix (tag : Option UInt32) : Bytes :=
  (tag.map fun tag => 32 :: Decimal.ofNat tag.toNat).getD []

def encodeMulti (entries : List MultiEntry) (tag : Option UInt32) : Bytes :=
  [77] ++ spaced [Decimal.ofNat entries.length] ++ spaced (entries.map (·.token)) ++ tagSuffix tag ++
    10 :: entries.flatMap (·.bytes)

def encodeMultiAck (entries : List MultiAckEntry) (tag : Option UInt32) : Bytes :=
  [79] ++ spaced [Decimal.ofNat entries.length] ++ spaced (entries.map (·.token)) ++ tagSuffix tag ++
    [10]

def encodeMultiTouch (entries : List MultiTouchEntry) (tag : Option UInt32) : Bytes :=
  [89] ++ spaced [Decimal.ofNat entries.length] ++ spaced (entries.map (·.token)) ++ tagSuffix tag ++
    [10]

namespace Response

def encode : Response → Bytes
  | .stored | .storedUnchanged  => [83, 10]
  | .deleted                    => [68, 10]
  | .notFound                   => [78, 10]
  | .busy                       => [66, 10]
  | .authOk                     => [79, 110, 10]
  | .unauthorized               => [69, 110, 10]
  | .malformed                  => [69, 110, 10]
  | .migrationAccepted entries  => [65] ++ spaced [Decimal.ofNat entries] ++ [10]
  | .migrationRejected          => [82, 10]
  | .migrationCancelled         => [65, 10]
  | .wrongNode                  => [87, 10]
  | .cleared _                  => [67, 10]
  | .notNumeric                 => [84, 10]
  | .value v                    => [86] ++ spaced [Decimal.ofNat v.length] ++ 10 :: v
  | .incremented v ttl          =>
    [73] ++ spaced [Decimal.ofNat v.length] ++ ttlField ttl ++ 10 :: v
  | .touched v ttl              =>
    [86] ++ spaced [Decimal.ofNat v.length] ++ ttlField ttl ++ 10 :: v
  | .multi entries              => encodeMulti entries none
  | .multiAck entries           => encodeMultiAck entries none
  | .multiTouch entries         => encodeMultiTouch entries none

-- The other answers have no form with a tag: it is unreachable that one of them is asked for.
def encodeWithTag (tag : UInt32) : Response → Option Bytes
  | .stored | .storedUnchanged => some ([83] ++ spaced [Decimal.ofNat tag.toNat] ++ [10])
  | .deleted                   => some ([68] ++ spaced [Decimal.ofNat tag.toNat] ++ [10])
  | .notFound                  => some ([78] ++ spaced [Decimal.ofNat tag.toNat] ++ [10])
  | .wrongNode                 => some ([87] ++ spaced [Decimal.ofNat tag.toNat] ++ [10])
  | .cleared _                 => some ([67] ++ spaced [Decimal.ofNat tag.toNat] ++ [10])
  | .notNumeric                => some ([84] ++ spaced [Decimal.ofNat tag.toNat] ++ [10])
  | .value v                   =>
    some ([86] ++ spaced [Decimal.ofNat v.length, Decimal.ofNat tag.toNat] ++ 10 :: v)
  | .incremented v ttl         =>
    some ([73] ++ spaced [Decimal.ofNat v.length] ++ ttlField ttl ++
      spaced [Decimal.ofNat tag.toNat] ++ 10 :: v)
  | .touched v ttl             =>
    some ([86] ++ spaced [Decimal.ofNat v.length] ++ ttlField ttl ++
      spaced [Decimal.ofNat tag.toNat] ++ 10 :: v)
  | .multi entries             => some (encodeMulti entries (some tag))
  | .multiAck entries          => some (encodeMultiAck entries (some tag))
  | .multiTouch entries        => some (encodeMultiTouch entries (some tag))
  | .migrationRejected         => some ([82] ++ spaced [Decimal.ofNat tag.toNat] ++ [10])
  | _                          => none

end Response

def encodeResponse (response : Response) : Option UInt32 → Option Bytes
  | some tag => response.encodeWithTag tag
  | none     => some response.encode

-- The answers which can be given on a connection with tags: a letter, fields and a body.
structure ReplyFrame where
  marker : UInt8
  fields : List Bytes
  body   : Bytes

namespace ReplyFrame

def render (reply : ReplyFrame) (tag : Option UInt32) : Bytes :=
  [reply.marker] ++ spaced reply.fields ++ tagSuffix tag ++ 10 :: reply.body

end ReplyFrame

namespace Response

def ttlFields (ttl : Option Duration) : List Bytes :=
  (ttl.map fun ttl => Decimal.ofNat (ttlWireSeconds ttl)).toList

def reply : Response → Option ReplyFrame
  | .stored | .storedUnchanged => some ⟨83, [], []⟩
  | .deleted                   => some ⟨68, [], []⟩
  | .notFound                  => some ⟨78, [], []⟩
  | .wrongNode                 => some ⟨87, [], []⟩
  | .cleared _                 => some ⟨67, [], []⟩
  | .notNumeric                => some ⟨84, [], []⟩
  | .migrationRejected         => some ⟨82, [], []⟩
  | .value v                   => some ⟨86, [Decimal.ofNat v.length], v⟩
  | .incremented v ttl         =>
    some ⟨73, Decimal.ofNat v.length :: ttlFields ttl, v⟩
  | .touched v ttl             =>
    some ⟨86, Decimal.ofNat v.length :: ttlFields ttl, v⟩
  | .multi entries             =>
    some ⟨77, Decimal.ofNat entries.length :: entries.map (·.token), entries.flatMap (·.bytes)⟩
  | .multiAck entries          =>
    some ⟨79, Decimal.ofNat entries.length :: entries.map (·.token), []⟩
  | .multiTouch entries        =>
    some ⟨89, Decimal.ofNat entries.length :: entries.map (·.token), []⟩
  | _                          => none

theorem ttlField_eq (ttl : Option Duration) : ttlField ttl = spaced (ttlFields ttl) := by
  cases ttl <;> simp [ttlField, ttlFields, spaced]

-- Both encodings write the same letter, fields and body.
theorem encodeResponse_eq {response : Response} {reply : ReplyFrame} (h : response.reply = some reply)
    (tag : Option UInt32) : encodeResponse response tag = some (reply.render tag) := by
  cases tag <;> cases response <;> cases h <;>
    simp [encodeResponse, encode, encodeWithTag, ReplyFrame.render, tagSuffix, encodeMulti,
      encodeMultiAck, encodeMultiTouch, ttlField_eq, spaced]

end Response
end Nanocached
