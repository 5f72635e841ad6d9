import Nanocached.Command.Parse
import Nanocached.Proxy.Reply

-- How the proxy reads what its clients ask for.

namespace Nanocached.Proxy

def backendTagMaxBytes : Nat := 1 + 10

def maxClientFrameSize : Nat := maxRequestSize - backendTagMaxBytes

-- What a client asks for. A time to live is in seconds.
inductive Request
  | get (key : Key)
  | set (key : Key) (value : Bytes) (ttl : Option Nat)
  | delete (key : Key)
  | incr (key : Key) (delta : Int)
  | casSet (key : Key) (condition : CasCondition) (value : Bytes) (ttl : Option Nat)
  | casDelete (key : Key) (expectedDigest : Digest)
  | touch (key : Key) (ttl : Option Nat) (get : Bool)
  | clear (ns : Bytes)
  | clearAll
  | multiGet (ns : Bytes) (keys : List Bytes)
  | multiSet (ns : Bytes) (keys values : List Bytes) (ttl : Option Nat)
  | multiTouch (ns : Bytes) (keys : List Bytes) (ttl : Option Nat) (get : Bool)
deriving DecidableEq, Repr

inductive MultiKind
  | get
  | set
  | touch (get : Bool)
deriving DecidableEq, Repr

structure MultiFrame where
  kind     : MultiKind
  keys     : Nat
  frameLen : Nat
deriving DecidableEq, Repr

inductive ParseOutcome
  | ready (request : Request) (tag : Option UInt32)
  | chargeRequired (frame : MultiFrame) (tag : Option UInt32)
  | incomplete
  | auth (secret : Bytes) (tagging retryCapable : Bool)
deriving DecidableEq, Repr

-- The buffer is left as it is.
def ParseOutcome.isPending : ParseOutcome → Bool
  | .incomplete        => true
  | .chargeRequired .. => true
  | _                  => false

-- Every error of the parser is one of invalid data, with a text.
abbrev Parsed := Except String

namespace Client

section Fields

def lengthField (field : Bytes) : Parsed Nat :=
  if field.isEmpty || !field.all Decimal.isDigit then .error "bad length field"
  else if Decimal.value field < 2 ^ 64 then .ok (Decimal.value field)
  else .error "length field out of range"

-- What `parse_delta_field` does once it has stripped the sign.
def deltaMagnitude (negative : Bool) (digits : Bytes) : Parsed Int :=
  if digits.isEmpty || !digits.all Decimal.isDigit then .error "bad delta field"
  else if digits.length > 1 && digits.head? = some 48 then .error "bad delta field"
  else
    let magnitude := Decimal.value digits
    if magnitude ≥ 2 ^ 64 then .error "delta field out of range"
    else if negative then
      if magnitude = 2 ^ 63 then .ok (-2 ^ 63)
      else if magnitude < 2 ^ 63 then .ok (-magnitude)
      else .error "delta field out of range"
    else if magnitude < 2 ^ 63 then .ok magnitude
    else .error "delta field out of range"

def parseDeltaField (field : Bytes) : Parsed Int :=
  match field with
  | 45 :: digits => deltaMagnitude true digits
  | _            => deltaMagnitude false field

def hexNibbleField (byte : UInt8) : Parsed UInt8 :=
  if 48 ≤ byte ∧ byte ≤ 57 then .ok (byte - 48)
  else if 97 ≤ byte ∧ byte ≤ 102 then .ok (byte - 97 + 10)
  else .error "bad cas condition field"

-- Two digits a byte.
def digestField : Bytes → Parsed Bytes
  | high :: low :: field => do
    return ((← hexNibbleField high) <<< 4 ||| (← hexNibbleField low)) :: (← digestField field)
  | _ => .ok []

-- `A` (65) and `P` (80), or a digest.
def parseCasConditionField (field : Bytes) (allowAbsentPresent : Bool) : Parsed CasCondition :=
  if allowAbsentPresent && field = [65] then .ok .absent
  else if allowAbsentPresent && field = [80] then .ok .present
  else if field.length = 32 then do
    let digest ← digestField field
    if h : digest.toArray.size = 16 then return .digest ⟨digest.toArray, h⟩
    else throw "bad cas condition field"
  else .error "bad cas condition field"

end Fields

-- What the header of a frame says about its body.
structure Shape where
  lengths : List Nat
  multi   : Option (MultiKind × Nat) := none
  tag     : Option UInt32 := none
  finish  : List Bytes → ParseOutcome
  settled : ∀ fields, (finish fields).isPending = false

section Headers

variable (tagged : Bool) (fields : List Bytes)

-- The tag is the last field.
def peelTag : Parsed (List Bytes × Option UInt32) :=
  if tagged then
    match fields.getLast? with
    | none     => .error "missing tag"
    | some tag => do
      let tag ← lengthField tag
      if tag < 2 ^ 32 then return (fields.dropLast, some (.ofNat tag)) else throw "tag out of range"
  else .ok (fields, none)

def splitTag : Parsed (List Nat × Option UInt32) := do
  let (rest, tag) ← peelTag tagged fields
  return (← rest.mapM lengthField, tag)

-- A frame which is parsed to a request.
def ready (lengths : List Nat) (tag : Option UInt32) (request : List Bytes → Request) : Shape where
  lengths
  tag
  finish fields := .ready (request fields) tag
  settled _     := rfl

-- A frame which is charged before it is parsed.
def charged (kind : MultiKind) (keys : Nat) (shape : Shape) : Shape :=
  { shape with multi := some (kind, keys) }

def auth : Parsed Shape := do
  let (length, tagging, retryCapable) ←
    match fields with
    | [length]             => pure (length, false, false)
    | [length, [84]]       => pure (length, true, false)
    | [length, [82]]       => pure (length, false, true)
    | [length, [84], [82]] => pure (length, true, true)
    | _                    => throw "bad A header"
  let secretLength ← lengthField length
  if secretLength = 0 then throw "empty secret"
  return { lengths := [secretLength]
           finish  := fun fields => .auth fields.headI tagging retryCapable
           settled := fun _ => rfl }

def keyed (namespaced : Bool) (request : Key → Request) : Parsed Shape := do
  let (lengths, tag) ← splitTag tagged fields
  let (namespaceLength, keyLength) ←
    match namespaced, lengths with
    | false, [keyLength]                  => pure (0, keyLength)
    | true, [namespaceLength, keyLength]  => pure (namespaceLength, keyLength)
    | _, _                                => throw "bad get/delete header"
  if keyLength = 0 then throw "empty key"
  return ready [namespaceLength, keyLength] tag fun fields => request (Wire.keyOf fields)

def multiGetHeader : Parsed Shape := do
  let (lengths, tag) ← splitTag tagged fields
  let namespaceLength :: count :: keyLengths := lengths | throw "bad multi-get header"
  if count = 0 ∨ keyLengths.length ≠ count then throw "bad multi-get header"
  if 0 ∈ keyLengths then throw "empty key in multi-get"
  return charged .get keyLengths.length <| ready (namespaceLength :: keyLengths) tag fun fields =>
    .multiGet fields.headI fields.tail

-- The lengths of a key and of its value, in turn.
def chunks2 : List Nat → List (Nat × Nat)
  | key :: value :: rest => (key, value) :: chunks2 rest
  | _                    => []

-- What is left of a header after the number of pairs.
def pairsAndTtl (count : Nat) (rest : List Nat) : Parsed (List Nat × Option Nat) :=
  if rest.length = 2 * count then .ok (rest, none)
  else if rest.length = 2 * count + 1 then .ok (rest.take (2 * count), rest[2 * count]?)
  else .error "bad multi-set header"

def multiSetHeader : Parsed Shape := do
  let (lengths, tag) ← splitTag tagged fields
  let namespaceLength :: count :: rest := lengths | throw "bad multi-set header"
  if count = 0 then throw "bad multi-set header"
  if 2 * count ≥ 2 ^ 64 then throw "bad multi-set header"
  let (pairs, ttl) ← pairsAndTtl count rest
  let lengths := chunks2 pairs
  if lengths.any (·.1 = 0) then throw "empty key in multi-set"
  return charged .set count <|
    ready (namespaceLength :: lengths.flatMap fun length => [length.1, length.2]) tag fun fields =>
      .multiSet fields.headI (Wire.unzipFields fields.tail).1 (Wire.unzipFields fields.tail).2 ttl

def setHeader (namespaced : Bool) : Parsed Shape := do
  let (lengths, tag) ← splitTag tagged fields
  let (namespaceLength, keyLength, valueLength, ttl) ←
    match namespaced, lengths with
    | false, [key, value]         => pure (0, key, value, none)
    | false, [key, value, ttl]    => pure (0, key, value, some ttl)
    | true, [ns, key, value]      => pure (ns, key, value, none)
    | true, [ns, key, value, ttl] => pure (ns, key, value, some ttl)
    | _, _                        => throw "bad set header"
  if keyLength = 0 then throw "empty key"
  return ready [namespaceLength, keyLength, valueLength] tag fun fields =>
    .set (Wire.keyOf fields) (Wire.valueOf fields) ttl

def incrHeader : Parsed Shape := do
  let (rest, tag) ← peelTag tagged fields
  let [namespaceLength, keyLength, delta] := rest | throw "bad incr header"
  let namespaceLength ← lengthField namespaceLength
  let keyLength ← lengthField keyLength
  if keyLength = 0 then throw "empty key"
  let delta ← parseDeltaField delta
  return ready [namespaceLength, keyLength] tag fun fields => .incr (Wire.keyOf fields) delta

def casSetHeader : Parsed Shape := do
  let (rest, tag) ← peelTag tagged fields
  let (namespaceLength, keyLength, valueLength, cond, ttl) ←
    match rest with
    | [ns, key, value, cond]      => pure (ns, key, value, cond, none)
    | [ns, key, value, cond, ttl] => pure (ns, key, value, cond, some ttl)
    | _                           => throw "bad cas-set header"
  let namespaceLength ← lengthField namespaceLength
  let keyLength ← lengthField keyLength
  let valueLength ← lengthField valueLength
  if keyLength = 0 then throw "empty key"
  let condition ← parseCasConditionField cond true
  let ttl ← ttl.elim (pure none) fun ttl => some <$> lengthField ttl
  return ready [namespaceLength, keyLength, valueLength] tag fun fields =>
    .casSet (Wire.keyOf fields) condition (Wire.valueOf fields) ttl

-- A condition other than a digest is not parsed here.
def casDeleteHeader : Parsed Shape := do
  let (rest, tag) ← peelTag tagged fields
  let [namespaceLength, keyLength, cond] := rest | throw "bad cas-delete header"
  let namespaceLength ← lengthField namespaceLength
  let keyLength ← lengthField keyLength
  if keyLength = 0 then throw "empty key"
  let .digest expectedDigest ← parseCasConditionField cond false | throw "unreachable"
  return ready [namespaceLength, keyLength] tag fun fields =>
    .casDelete (Wire.keyOf fields) expectedDigest

def touchTtl : List Bytes → (header : String) → Parsed (Option Nat)
  | [], _    => .ok none
  | [ttl], _ => some <$> lengthField ttl
  | _, header => .error header

def touchHeader : Parsed Shape := do
  let (rest, tag) ← peelTag tagged fields
  let namespaceLength :: keyLength :: tail := rest | throw "bad touch header"
  let (get, tail) := Wire.Parts.popFlag 71 tail
  let ttl ← touchTtl tail "bad touch header"
  let namespaceLength ← lengthField namespaceLength
  let keyLength ← lengthField keyLength
  if keyLength = 0 then throw "empty key"
  return ready [namespaceLength, keyLength] tag fun fields => .touch (Wire.keyOf fields) ttl get

def multiTouchHeader : Parsed Shape := do
  let (rest, tag) ← peelTag tagged fields
  let namespaceLength :: count :: tail := rest | throw "bad multi-touch header"
  let namespaceLength ← lengthField namespaceLength
  let count ← lengthField count
  if count = 0 ∨ tail.length < count then throw "bad multi-touch header"
  let keyLengthFields := tail.take count
  let (get, tail) := Wire.Parts.popFlag 71 (tail.drop count)
  let ttl ← touchTtl tail "bad multi-touch header"
  let keyLengths ← keyLengthFields.mapM lengthField
  if 0 ∈ keyLengths then throw "empty key in multi-touch"
  return charged (.touch get) keyLengths.length <|
    ready (namespaceLength :: keyLengths) tag fun fields =>
      .multiTouch fields.headI fields.tail ttl get

def clearHeader : Parsed Shape := do
  let (lengths, tag) ← splitTag tagged fields
  let [namespaceLength] := lengths | throw "bad clear header"
  return ready [namespaceLength] tag fun fields => .clear fields.headI

def clearAllHeader : Parsed Shape := do
  let (lengths, tag) ← splitTag tagged fields
  if !lengths.isEmpty then throw "bad flush header"
  return ready [] tag fun _ => .clearAll

def parseHeader (command : Bytes) : Parsed Shape :=
  match command with
  | [65] /- A -/  => auth fields
  | [71] /- G -/  => keyed tagged fields false .get
  | [68] /- D -/  => keyed tagged fields false .delete
  | [103] /- g -/ => keyed tagged fields true .get
  | [100] /- d -/ => keyed tagged fields true .delete
  | [109] /- m -/ => multiGetHeader tagged fields
  | [111] /- o -/ => multiSetHeader tagged fields
  | [83] /- S -/  => setHeader tagged fields false
  | [115] /- s -/ => setHeader tagged fields true
  | [105] /- i -/ => incrHeader tagged fields
  | [107] /- k -/ => casSetHeader tagged fields
  | [120] /- x -/ => casDeleteHeader tagged fields
  | [116] /- t -/ => touchHeader tagged fields
  | [121] /- y -/ => multiTouchHeader tagged fields
  | [99] /- c -/  => clearHeader tagged fields
  | [70] /- F -/  => clearAllHeader tagged fields
  | _             => throw "unknown or cluster-internal command"

end Headers
end Client

structure RequestScanState where
  headerEnd       : Option Nat := none
  headerScannedTo : Nat := 0
  frameEnd        : Option Nat := none
  frameCharged    : Bool := false
deriving DecidableEq, Repr

section Parse

variable (input : Bytes) (tagged : Bool) (scan : RequestScanState) (maxFrame : Nat)

def findHeaderEnd : Option Nat × RequestScanState :=
  match scan.headerEnd.filter (input.length > ·) with
  | some headerEnd => (some headerEnd, scan)
  | none           =>
    let start := min scan.headerScannedTo input.length
    match Wire.findLf (input.drop start) with
    | some relative => (some (start + relative), { scan with headerEnd := some (start + relative) })
    | none          => (none, { scan with headerScannedTo := input.length })

-- `usize::checked_add`.
def checkedAdd (a b : Nat) : Parsed Nat :=
  if a + b < 2 ^ 64 then .ok (a + b) else .error "frame length overflow"

-- Where a frame ends, the body of which has fields of the given lengths.
def frameEndOf (headerEnd : Nat) (lengths : List Nat) : Parsed Nat := do
  let bodyLength ← lengths.foldlM checkedAdd 0
  checkedAdd (← checkedAdd headerEnd 1) bodyLength

def takeBody (headerEnd : Nat) (shape : Client.Shape) :
    Parsed ParseOutcome × RequestScanState × Nat :=
  match frameEndOf headerEnd shape.lengths with
  | .error message => (.error message, scan, 0)
  | .ok frameEnd   =>
    if frameEnd > maxFrame then (.error "request exceeds the request-size limit", scan, 0)
    else if input.length < frameEnd then
      (.ok .incomplete, { scan with frameEnd := some frameEnd }, 0)
    else
      match shape.multi.filter fun _ => !scan.frameCharged with
      | some (kind, keys) => (.ok (.chargeRequired ⟨kind, keys, frameEnd⟩ shape.tag), scan, 0)
      | none              =>
        let body := (input.take frameEnd).drop (headerEnd + 1)
        (.ok (shape.finish (Wire.cut shape.lengths body)), scan, frameEnd)

def parseHeaderLine (header : Bytes) : Parsed Client.Shape :=
  if !Wire.isUtf8 header then .error "non-UTF-8 header"
  else
    match header.splitOn 32 with
    | []                => .error "empty header"
    | command :: fields => Client.parseHeader tagged fields command

-- The outcome, the state of the scan and how many bytes are taken off the buffer.
def parseRequestBody : Parsed ParseOutcome × RequestScanState × Nat :=
  let (headerEnd, scan) := findHeaderEnd input scan
  match headerEnd with
  | none           =>
    if input.length > maxFrame then (.error "header exceeds the request-size limit", scan, 0)
    else (.ok .incomplete, scan, 0)
  | some headerEnd =>
    if scan.frameEnd.any (input.length < ·) then (.ok .incomplete, scan, 0)
    else
      match parseHeaderLine tagged (input.take headerEnd) with
      | .error message => (.error message, scan, 0)
      | .ok shape      => takeBody input scan maxFrame headerEnd shape

def parseRequestLimited : Parsed ParseOutcome × RequestScanState × Nat :=
  let (result, scan, consumed) := parseRequestBody input tagged scan maxFrame
  match result with
  | .ok outcome => (result, if outcome.isPending then scan else {}, consumed)
  | .error _    => (result, {}, consumed)

end Parse
end Nanocached.Proxy
