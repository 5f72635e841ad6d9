import Nanocached.Basic
import Nanocached.Lib.Decimal

-- How the proxy reads what a node answers on a shared connection.

namespace Nanocached.Proxy

def maxRequestSize : Nat := 1048576

def maxMultiReplyValueBytes : Nat := 16 * 1024 * 1024

def maxMultiReplyHeaderBytes : Nat := 4 * 1024 * 1024

inductive Expect
  | value
  | stored
  | deleted
  | cleared
  | incremented
  | casSet
  | touch
  | touched
  | multi
  | multiAck
  | multiTouch
deriving DecidableEq, Repr

inductive MultiEntry
  | value (value : Bytes)
  | miss
  | wrongNode
deriving DecidableEq, Repr

inductive AckEntry
  | stored
  | wrongNode
deriving DecidableEq, Repr

inductive NodeReply
  | value (value : Bytes)
  | incremented (value : Bytes) (ttl : Option Nat)
  | touched (value : Bytes) (ttl : Nat)
  | notNumeric
  | notFound
  | stored
  | deleted
  | cleared
  | wrongNode
  | multi (entries : List MultiEntry)
  | multiAck (entries : List AckEntry)
  | multiTouch (entries : List MultiEntry)
  | error
deriving DecidableEq, Repr

-- What a read makes of the bytes that have arrived: there are too few of them, they cannot be right,
-- or they start with what is read.
inductive Read (α : Type)
  | more
  | failed
  | done (result : α) (rest : Bytes)
deriving DecidableEq, Repr

section Fields

-- A line without its newline (10). It is cut off as soon as it exceeds the limit.
def readLineUpTo (limit : Nat) (buf : Bytes) : Read Bytes :=
  match buf.findIdx? (· == 10) with
  | none          => if buf.length > limit then .failed else .more
  | some position =>
    if position + 1 > limit then
      .failed
    else
      .done (buf.take position) (buf.drop (position + 1))

-- `str::split(' ')`.
def fields (line : Bytes) : List Bytes :=
  line.splitOn 32

def parseLengthField (field : Bytes) : Option Nat :=
  if field.isEmpty || !field.all Decimal.isDigit then
    none
  else
    let length := Decimal.value field
    if length < 2 ^ 64 then some length else none

-- A tag as it is echoed.
def tagField (tag : UInt32) : Bytes :=
  Decimal.ofNat tag.toNat

end Fields

section Rosters

-- The fields of a reply that lists its keys: their number, one token for each of them and the tag.
def rosterTokens (tag : UInt32) (fields : List Bytes) : Option (List Bytes) := do
  let echoed ← fields.getLast?
  if echoed ≠ tagField tag then none
  let count :: roster := fields.dropLast | none
  if roster.length ≠ (← parseLengthField count) then none
  return roster

-- A token of an `M`: `-` (45), `W` (87), or the length of a value.
inductive RosterToken
  | value (length : Nat)
  | miss
  | wrongNode

def RosterToken.parse (token : Bytes) : Option RosterToken :=
  if token = [45] then some .miss
  else if token = [87] then some .wrongNode
  else (parseLengthField token).map .value

def RosterToken.length : RosterToken → Nat
  | .value length => length
  | _             => 0

-- The values are taken off the body one after the other.
def multiEntries : List RosterToken → (body : Bytes) → List MultiEntry
  | [], _                     => []
  | .value length :: ts, body => .value (body.take length) :: multiEntries ts (body.drop length)
  | .miss :: ts, body         => .miss :: multiEntries ts body
  | .wrongNode :: ts, body    => .wrongNode :: multiEntries ts body

-- A token of an `O`: `S` (83) or `W` (87).
def AckEntry.parse (token : Bytes) : Option AckEntry :=
  if token = [83] then some .stored else if token = [87] then some .wrongNode else none

-- A token of a `Y`: `S` (83), `N` (78) or `W` (87).
def MultiEntry.parse (token : Bytes) : Option MultiEntry :=
  if token = [83] then some (.value [])
  else if token = [78] then some .miss
  else if token = [87] then some .wrongNode
  else none

end Rosters

-- Whether a reply that lists no keys is one the request can have.
def Expect.fits : Expect → NodeReply → Bool
  | .value, .value _ | .value, .notFound | .value, .wrongNode | .value, .error => true
  | .touched, .value _ | .touched, .touched .. | .touched, .notFound | .touched, .wrongNode
  | .touched, .error => true
  | .touch, .stored | .touch, .notFound | .touch, .wrongNode | .touch, .error => true
  | .stored, .stored | .stored, .wrongNode | .stored, .error => true
  | .deleted, .deleted | .deleted, .notFound | .deleted, .wrongNode | .deleted, .error => true
  | .cleared, .cleared | .cleared, .error => true
  | .incremented, .incremented .. | .incremented, .notFound | .incremented, .notNumeric
  | .incremented, .wrongNode | .incremented, .error => true
  | .casSet, .stored | .casSet, .notFound | .casSet, .wrongNode | .casSet, .error => true
  | .multi, .error | .multiAck, .error | .multiTouch, .error => true
  | _, _ => false

section ReadReply

variable (tag : UInt32) (expect : Expect) (rest : Bytes)

-- `read_exact_into`, and then a check of the reply.
def readBody (length : Nat) (reply : Bytes → NodeReply) (fits : NodeReply → Bool) :
    Read NodeReply :=
  if rest.length < length then
    .more
  else
    let reply := reply (rest.take length)
    if fits reply then .done reply (rest.drop length) else .failed

def readMulti (fields : List Bytes) : Read NodeReply :=
  match (rosterTokens tag fields).bind (·.mapM RosterToken.parse) with
  | none        => .failed
  | some tokens =>
    let totalValueBytes := (tokens.map (·.length)).sum
    if totalValueBytes > maxMultiReplyValueBytes then
      .failed
    else
      readBody rest totalValueBytes (fun body => .multi (multiEntries tokens body))
        fun _ => expect = .multi

def readMultiAck (fields : List Bytes) : Read NodeReply :=
  match (rosterTokens tag fields).bind (·.mapM AckEntry.parse) with
  | none         => .failed
  | some entries => readBody rest 0 (fun _ => .multiAck entries) fun _ => expect = .multiAck

def readMultiTouch (fields : List Bytes) : Read NodeReply :=
  match (rosterTokens tag fields).bind (·.mapM MultiEntry.parse) with
  | none         => .failed
  | some entries => readBody rest 0 (fun _ => .multiTouch entries) fun _ => expect = .multiTouch

-- A reply with a value: its length, how long it lives if that is known, and the tag.
def readValue (fields : List Bytes) (reply : Bytes → Option Nat → NodeReply) : Read NodeReply :=
  let read (length echoed : Bytes) (ttl : Option Nat) : Read NodeReply :=
    match parseLengthField length with
    | none        => .failed
    | some length =>
      if echoed ≠ tagField tag ∨ length > maxRequestSize then
        .failed
      else
        readBody rest length (reply · ttl) expect.fits
  match fields with
  | [length, echoed]      => read length echoed none
  | [length, ttl, echoed] =>
    match parseLengthField ttl with
    | none     => .failed
    | some ttl => read length echoed (some ttl)
  | _                     => .failed

-- A reply which is just a letter and the tag.
def readStatus (fields : List Bytes) (reply : NodeReply) : Read NodeReply :=
  match fields with
  | [echoed] =>
    if echoed ≠ tagField tag then .failed else readBody rest 0 (fun _ => reply) expect.fits
  | _        => .failed

def readFields (marker : Bytes) (fields : List Bytes) : Read NodeReply :=
  match marker with
  | [66] /- B -/ => .failed
  | [77] /- M -/ => readMulti tag expect rest fields
  | [79] /- O -/ => readMultiAck tag expect rest fields
  | [89] /- Y -/ => readMultiTouch tag expect rest fields
  | [86] /- V -/ =>
    readValue tag expect rest fields fun value ttl => ttl.elim (.value value) (.touched value)
  | [73] /- I -/ => readValue tag expect rest fields .incremented
  | [78] /- N -/ => readStatus tag expect rest fields .notFound
  | [84] /- T -/ => readStatus tag expect rest fields .notNumeric
  | [83] /- S -/ => readStatus tag expect rest fields .stored
  | [68] /- D -/ => readStatus tag expect rest fields .deleted
  | [67] /- C -/ => readStatus tag expect rest fields .cleared
  | [87] /- W -/ => readStatus tag expect rest fields .wrongNode
  | [69] /- E -/ => readStatus tag expect rest fields .error
  | _            => .failed

-- A line which is not UTF-8 fails the checks of its fields as well, as each of them is ASCII.
def readReply (buf : Bytes) : Read NodeReply :=
  let headerLimit := if expect = .multi then maxMultiReplyHeaderBytes else maxRequestSize
  match readLineUpTo headerLimit buf with
  | .more           => .more
  | .failed         => .failed
  | .done line rest =>
    match fields line with
    | []               => .failed
    | marker :: fields => readFields tag expect rest marker fields

end ReadReply
end Nanocached.Proxy
