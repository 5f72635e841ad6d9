import Nanocached.Cache.Operations

namespace Nanocached.Wire

-- What a connection asks a node to do. Commands of the node to itself are never parsed.
inductive Command
  | auth (secret : Bytes) (tagging retryCapable : Bool)
  | get (key : Key)
  | set (key : Key) (value : Bytes) (ttl : Option Duration)
  | delete (key : Key)
  | handoffSet (key : Key) (value : Bytes) (ttl : Option Duration) (ifAbsent : Bool) (token : Bytes)
      (aheadOfRing : Bool)
  | handoffDelete (key : Key) (token : Bytes)
  | handoffClear (all : Bool) (ns token : Bytes)
  | multiGet (ns : Bytes) (keys : List Bytes)
  | multiSet (ns : Bytes) (keys values : List Bytes) (ttl : Option Duration)
  | multiTouch (ns : Bytes) (keys : List Bytes) (ttl : Option Duration) (get : Bool)
  | incr (key : Key) (delta : Int)
  | casSet (key : Key) (condition : CasCondition) (value : Bytes) (ttl : Option Duration)
  | casDelete (key : Key) (expectedDigest : Digest)
  | touch (key : Key) (ttl : Option Duration) (get : Bool)
  | clear (ns : Bytes)
  | clearAll
  | cancelMigration (token joiningName : Bytes)
  | migrate (token joiningName joiningAddr joiningToken : Bytes) (joined : List (Bytes × Bytes))
      (replication : Nat) (generation : Option Nat)
deriving DecidableEq, Repr

inductive ParseError
  | incomplete
  | invalidCommand
  | invalidLength
  | emptyKey
  | emptySecret
  | emptyField
  | invalidUtf8
  | chargeRequired (keys : Nat) (values : Bool) (frameLen : Nat)
deriving DecidableEq, Repr

-- The frame may still turn out to be right.
def ParseError.isPending : ParseError → Bool
  | .incomplete         => true
  | .chargeRequired ..  => true
  | _                   => false

section Fields

def checkedAddUsize (a b : Nat) : Except ParseError Nat :=
  if a + b < 2 ^ 64 then .ok (a + b) else .error .invalidLength

-- Appends a digit to a length.
def pushDigit (length : Nat) (byte : UInt8) : Except ParseError Nat :=
  if !Decimal.isDigit byte then .error .invalidLength
  else
    let length := 10 * length
    if length < 2 ^ 64 then checkedAddUsize length (byte.toNat - 48) else .error .invalidLength

def parseLength (input : Bytes) : Except ParseError Nat :=
  if input.isEmpty then .error .invalidLength else input.foldlM pushDigit 0

def parseTtl (field : Bytes) : Except ParseError Duration := do
  return fromSecs (← parseLength field)

def parseOptionalTtl : Option Bytes → Except ParseError (Option Duration)
  | none       => .ok none
  | some field => some <$> parseTtl field

def parseTag (input : Bytes) : Except ParseError UInt32 := do
  let tag ← parseLength input
  if tag < 2 ^ 32 then return .ofNat tag else throw .invalidLength

def hexNibble (byte : UInt8) : Except ParseError UInt8 :=
  if 48 ≤ byte ∧ byte ≤ 57 then .ok (byte - 48)
  else if 97 ≤ byte ∧ byte ≤ 102 then .ok (byte - 97 + 10)
  else .error .invalidCommand

-- Two digits a byte.
def parseHex : Bytes → Except ParseError Bytes
  | high :: low :: field => do
    return ((← hexNibble high) <<< 4 ||| (← hexNibble low)) :: (← parseHex field)
  | _ => .ok []

def parseDigest (field : Bytes) : Except ParseError Digest := do
  let digest ← parseHex field
  if h : digest.toArray.size = 16 then return ⟨digest.toArray, h⟩ else throw .invalidCommand

-- `A` (65) and `P` (80), or a digest.
def parseCasCondition (field : Bytes) (allowAbsentPresent : Bool) :
    Except ParseError CasCondition :=
  if allowAbsentPresent && field = [65] then .ok .absent
  else if allowAbsentPresent && field = [80] then .ok .present
  else if field.length = 32 then .digest <$> parseDigest field
  else .error .invalidCommand

def isUtf8 (bytes : Bytes) : Bool :=
  ByteArray.validateUTF8 ⟨bytes.toArray⟩

def decodeField (field : Bytes) : Except ParseError Bytes :=
  if isUtf8 field then .ok field else .error .invalidUtf8

end Fields

-- Reads the fields of a header from the front.
abbrev Parts := StateT (List Bytes) (Except ParseError)

namespace Parts

def next : Parts Bytes := do
  match ← get with
  | []            => throw .invalidLength
  | part :: parts =>
    set parts
    return part

def nextLength : Parts Nat := do
  parseLength (← next)

-- There are no further fields.
def finish : Parts Unit := do
  if !(← get).isEmpty then throw .invalidLength

-- The fields that are left, of which there may only be so many.
def trailing (max : Nat) : Parts (List Bytes) := do
  let parts ← get
  if parts.length > max then throw .invalidLength
  set ([] : List Bytes)
  return parts

def parseTrailingTag (tagged : Bool) : Parts (Option UInt32) := do
  if tagged then return some (← parseTag (← next)) else return none

-- `[ttl] [tag]`, of which only the tag is parsed yet.
def parseTtlAndTag (tagged : Bool) : Parts (Option Bytes × Option UInt32) := do
  let tail ← get
  match tagged, tail with
  | true, []               => throw .invalidLength
  | true, [tag]            => return (none, some (← parseTag tag))
  | true, ttl :: tag :: tail =>
    let tag ← parseTag tag
    if !tail.isEmpty then throw .invalidLength
    return (some ttl, some tag)
  | false, []              => return (none, none)
  | false, ttl :: tail     =>
    if !tail.isEmpty then throw .invalidLength
    return (some ttl, none)

-- The last field, if the connection is tagged.
def popTag (tagged : Bool) (tail : List Bytes) :
    Except ParseError (Option UInt32 × List Bytes) :=
  if tagged then
    match tail.getLast? with
    | none     => .error .invalidLength
    | some tag => do return (some (← parseTag tag), tail.dropLast)
  else .ok (none, tail)

-- Whether the last field is the given flag, which is then taken off.
def popFlag (flag : UInt8) (tail : List Bytes) : Bool × List Bytes :=
  if tail.getLast? = some [flag] then (true, tail.dropLast) else (false, tail)

def touchTtl : List Bytes → Except ParseError (Option Duration)
  | []    => .ok none
  | [ttl] => some <$> parseTtl ttl
  | _     => .error .invalidLength

-- `[ttl] [G] [tag]`. One field more than there can be is enough to tell that there are too many.
def parseTouchTail (tagged : Bool) : Parts (Option Duration × Bool × Option UInt32) := do
  let tail := (← get).take 4
  let (tag, tail) ← popTag tagged tail
  let (get, tail) := popFlag 71 tail
  return (← touchTtl tail, get, tag)

-- As many lengths of keys as the header claims.
def keyLengths : Nat → Parts (List Nat)
  | 0     => return []
  | n + 1 => do
    let length ← nextLength
    if length = 0 then throw .emptyKey
    return length :: (← keyLengths n)

def pairLengths : Nat → Parts (List (Nat × Nat))
  | 0     => return []
  | n + 1 => do
    let keyLength ← nextLength
    let valueLength ← nextLength
    if keyLength = 0 then throw .emptyKey
    return (keyLength, valueLength) :: (← pairLengths n)

end Parts
end Nanocached.Wire
