import Nanocached.Command.Basic

-- The parser of a node's connections.

namespace Nanocached.Wire

-- What the header of a frame says about its body: the lengths of the fields in it, whether they are
-- many keys (and how many, and with values), the tag, and what the frame is once it is complete.
structure Plan where
  lengths : List Nat
  multi   : Option (Nat × Bool) := none
  tag     : Option UInt32 := none
  finish  : List Bytes → Except ParseError Command

open Parts

section Headers

variable (tagged : Bool)

-- The secret, and then `[T] [R]`.
def parseAuth : Parts Plan := do
  let secretLength ← next
  let (tagging, retryCapable) ←
    match ← get with
    | []                   => pure (false, false)
    | [84] :: []           => set ([] : List Bytes); pure (true, false)
    | [84] :: [82] :: tail => set tail; pure (true, true)
    | [84] :: _ :: _       => throw .invalidCommand
    | [82] :: tail         => set tail; pure (false, true)
    | _                    => throw .invalidCommand
  finish
  let secretLength ← parseLength secretLength
  if secretLength = 0 then throw .emptySecret
  return { lengths := [secretLength]
           finish  := fun fields => .ok (.auth fields.headI tagging retryCapable) }

-- The key is made of the first two fields.
def keyOf : List Bytes → Key
  | ns :: name :: _ => ⟨ns, name⟩
  | _               => ⟨[], []⟩

def nextNamespace (namespaced : Bool) : Parts Nat := do
  if namespaced then nextLength else return 0

-- `G`, `D`, `g` and `d`.
def parseKeyed (namespaced : Bool) (command : Key → Command) : Parts Plan := do
  let namespaceLength ← nextNamespace namespaced
  let keyLength ← next
  let tag ← parseTrailingTag tagged
  finish
  let keyLength ← parseLength keyLength
  if keyLength = 0 then throw .emptyKey
  return { lengths := [namespaceLength, keyLength], tag
           finish  := fun fields => .ok (command (keyOf fields)) }

-- The token leads the body of a frame between nodes.
def withToken (command : Bytes → List Bytes → Command) :
    List Bytes → Except ParseError Command
  | token :: fields => do return command (← decodeField token) fields
  | []              => .error .invalidLength

def parseHandoffDelete : Parts Plan := do
  let namespaceLength ← next
  let keyLength ← next
  let tokenLength ← next
  let tag ← parseTrailingTag tagged
  finish
  let namespaceLength ← parseLength namespaceLength
  let keyLength ← parseLength keyLength
  let tokenLength ← parseLength tokenLength
  if keyLength = 0 then throw .emptyKey
  if tokenLength = 0 then throw .emptyField
  return { lengths := [tokenLength, namespaceLength, keyLength], tag
           finish  := withToken fun token fields => .handoffDelete (keyOf fields) token }

-- How many keys there are, of which there has to be one.
def nextCount : Parts Nat := do
  let count ← nextLength
  if count = 0 then throw .invalidLength
  return count

def parseMultiGet : Parts Plan := do
  let namespaceLength ← nextLength
  let count ← nextCount
  let keyLengths ← keyLengths count
  let tag ← parseTrailingTag tagged
  finish
  return { lengths := namespaceLength :: keyLengths, multi := some (count, false), tag
           finish  := fun fields => .ok (.multiGet fields.headI fields.tail) }

def parseMultiTouch : Parts Plan := do
  let namespaceLength ← nextLength
  let count ← nextCount
  let keyLengths ← keyLengths count
  let (ttl, get, tag) ← parseTouchTail tagged
  return { lengths := namespaceLength :: keyLengths, multi := some (count, false), tag
           finish  := fun fields => .ok (.multiTouch fields.headI fields.tail ttl get) }

-- The keys and the values, which alternate.
def unzipFields : List Bytes → List Bytes × List Bytes
  | key :: value :: fields =>
    let (keys, values) := unzipFields fields
    (key :: keys, value :: values)
  | _ => ([], [])

def parseMultiSet : Parts Plan := do
  let namespaceLength ← nextLength
  let count ← nextCount
  let lengths ← pairLengths count
  let (ttl, tag) ← parseTtlAndTag tagged
  let ttl ← parseOptionalTtl ttl
  return { lengths := namespaceLength :: lengths.flatMap fun (key, value) => [key, value]
           multi   := some (count, true), tag
           finish  := fun fields =>
             let (keys, values) := unzipFields fields.tail
             .ok (.multiSet fields.headI keys values ttl) }

def parseIncr : Parts Plan := do
  let namespaceLength ← nextLength
  let keyLength ← next
  let delta ← next
  let tag ← parseTrailingTag tagged
  finish
  let keyLength ← parseLength keyLength
  if keyLength = 0 then throw .emptyKey
  let some delta := parseDecimalI64 delta | throw .invalidLength
  return { lengths := [namespaceLength, keyLength], tag
           finish  := fun fields => .ok (.incr (keyOf fields) delta) }

def valueOf (fields : List Bytes) : Bytes :=
  (fields.drop 2).headI

def parseCasSet : Parts Plan := do
  let namespaceLength ← nextLength
  let keyLength ← next
  let valueLength ← next
  let condition ← parseCasCondition (← next) true
  let (ttl, tag) ← parseTtlAndTag tagged
  let keyLength ← parseLength keyLength
  let valueLength ← parseLength valueLength
  if keyLength = 0 then throw .emptyKey
  let ttl ← parseOptionalTtl ttl
  return { lengths := [namespaceLength, keyLength, valueLength], tag
           finish  := fun fields =>
             .ok (.casSet (keyOf fields) condition (valueOf fields) ttl) }

def parseCasDelete : Parts Plan := do
  let namespaceLength ← nextLength
  let keyLength ← next
  let .digest expectedDigest ← parseCasCondition (← next) false | throw .invalidCommand
  let tag ← parseTrailingTag tagged
  finish
  let keyLength ← parseLength keyLength
  if keyLength = 0 then throw .emptyKey
  return { lengths := [namespaceLength, keyLength], tag
           finish  := fun fields => .ok (.casDelete (keyOf fields) expectedDigest) }

def parseTouch : Parts Plan := do
  let namespaceLength ← nextLength
  let keyLength ← next
  let (ttl, get, tag) ← parseTouchTail tagged
  let keyLength ← parseLength keyLength
  if keyLength = 0 then throw .emptyKey
  return { lengths := [namespaceLength, keyLength], tag
           finish  := fun fields => .ok (.touch (keyOf fields) ttl get) }

def parseClear : Parts Plan := do
  let namespaceLength ← next
  let tag ← parseTrailingTag tagged
  finish
  let namespaceLength ← parseLength namespaceLength
  return { lengths := [namespaceLength], tag, finish := fun fields => .ok (.clear fields.headI) }

def parseClearAll : Parts Plan := do
  let tag ← parseTrailingTag tagged
  finish
  return { lengths := [], tag, finish := fun _ => .ok .clearAll }

def parseHandoffClear : Parts Plan := do
  let namespaceLength ← next
  let tokenLength ← next
  let (tag, tail) ← popTag tagged (← trailing 2)
  let (all, tail) := popFlag 65 tail
  if !tail.isEmpty then throw .invalidLength
  let namespaceLength ← parseLength namespaceLength
  let tokenLength ← parseLength tokenLength
  if tokenLength = 0 then throw .emptyField
  if all && namespaceLength ≠ 0 then throw .invalidLength
  return { lengths := [tokenLength, namespaceLength], tag
           finish  := withToken fun token fields => .handoffClear all fields.headI token }

-- `S` and `s`.
def parseSet (namespaced : Bool) : Parts Plan := do
  let namespaceLength ← nextNamespace namespaced
  let keyLength ← next
  let valueLength ← next
  let (ttl, tag) ← parseTtlAndTag tagged
  let keyLength ← parseLength keyLength
  let valueLength ← parseLength valueLength
  if keyLength = 0 then throw .emptyKey
  let ttl ← parseOptionalTtl ttl
  return { lengths := [namespaceLength, keyLength, valueLength], tag
           finish  := fun fields => .ok (.set (keyOf fields) (valueOf fields) ttl) }

def parseHandoffSet : Parts Plan := do
  let namespaceLength ← next
  let keyLength ← next
  let valueLength ← next
  let tokenLength ← next
  let (tag, tail) ← popTag tagged (← trailing 3)
  let (ifAbsent, tail) := popFlag 65 tail
  if tail.length > 1 then throw .invalidLength
  let namespaceLength ← parseLength namespaceLength
  let keyLength ← parseLength keyLength
  let valueLength ← parseLength valueLength
  let tokenLength ← parseLength tokenLength
  if keyLength = 0 then throw .emptyKey
  if tokenLength = 0 then throw .emptyField
  let ttl ← parseOptionalTtl tail.head?
  return { lengths := [tokenLength, namespaceLength, keyLength, valueLength], tag
           finish  := withToken fun token fields =>
             .handoffSet (keyOf fields) (valueOf fields) ttl ifAbsent token false }

def parseCancelMigration : Parts Plan := do
  let joiningNameLength ← next
  let tokenLength ← next
  finish
  let joiningNameLength ← parseLength joiningNameLength
  let tokenLength ← parseLength tokenLength
  if joiningNameLength = 0 ∨ tokenLength = 0 then throw .emptyField
  return { lengths := [tokenLength, joiningNameLength]
           finish  := fun fields => do
             let token ← decodeField fields.headI
             let joiningName ← decodeField (fields.drop 1).headI
             return .cancelMigration token joiningName }

-- All commands but `M`, the length of which its header does not say.
def parseHeader (command : Bytes) : Parts Plan :=
  match command with
  | [65] /- A -/  => parseAuth
  | [71] /- G -/  => parseKeyed tagged false .get
  | [68] /- D -/  => parseKeyed tagged false .delete
  | [103] /- g -/ => parseKeyed tagged true .get
  | [100] /- d -/ => parseKeyed tagged true .delete
  | [117] /- u -/ => parseHandoffDelete tagged
  | [109] /- m -/ => parseMultiGet tagged
  | [121] /- y -/ => parseMultiTouch tagged
  | [111] /- o -/ => parseMultiSet tagged
  | [105] /- i -/ => parseIncr tagged
  | [107] /- k -/ => parseCasSet tagged
  | [120] /- x -/ => parseCasDelete tagged
  | [116] /- t -/ => parseTouch tagged
  | [99] /- c -/  => parseClear tagged
  | [70] /- F -/  => parseClearAll tagged
  | [102] /- f -/ => parseHandoffClear tagged
  | [83] /- S -/  => parseSet tagged false
  | [115] /- s -/ => parseSet tagged true
  | [85] /- U -/  => parseHandoffSet tagged
  | [88] /- X -/  => parseCancelMigration
  | _             => throw .invalidCommand

end Headers

-- What is remembered of a frame that has not arrived as a whole.
structure MigrateProgress where
  headerEnd     : Nat := 0
  joinedCount   : Nat := 0
  cursor        : Nat := 0
  entriesDone   : Nat := 0
  lineEnd       : Option Nat := none
  lineScannedTo : Nat := 0
  frameEnd      : Option Nat := none
  frameKeys     : Nat := 0
deriving DecidableEq, Repr

section Frames

-- `\n` is 10.
def findLf (input : Bytes) : Option Nat :=
  input.findIdx? (· == 10)

def findHeaderLineEnd (input : Bytes) (progress : MigrateProgress) : Option Nat × MigrateProgress :=
  match progress.lineEnd.filter (input.length > ·) with
  | some lineEnd => (some lineEnd, progress)
  | none         =>
    let start := min progress.lineScannedTo input.length
    match findLf (input.drop start) with
    | some relative => (some (start + relative), { progress with lineEnd := some (start + relative) })
    | none          => (none, { progress with lineScannedTo := input.length })

-- The end of the last of consecutive fields.
def fieldEnds (start : Nat) (lengths : List Nat) : Except ParseError Nat :=
  lengths.foldlM checkedAddUsize start

-- The bytes of consecutive fields.
def cut : List Nat → Bytes → List Bytes
  | [], _                   => []
  | length :: lengths, body => body.take length :: cut lengths (body.drop length)

def multiFrameGate (buffered : Nat) (progress : MigrateProgress) (frameCharged values : Bool) :
    Except ParseError Unit :=
  match progress.frameEnd with
  | none          => .ok ()
  | some frameLen =>
    if buffered < frameLen then .error .incomplete
    else if frameCharged then .ok ()
    else .error (.chargeRequired progress.frameKeys values frameLen)

end Frames

section Migrate

def maxRosterEntries : Nat := 65536

def maxRosterLineLen : Nat := 64

structure MigrateHeader where
  tokenLength        : Nat
  joiningNameLength  : Nat
  joiningAddrLength  : Nat
  joiningTokenLength : Nat
  joinedCount        : Nat
  replication        : Nat
  generation         : Option Nat

def parseMigrateHeader : Parts MigrateHeader := do
  let joiningNameLength ← next
  let joiningAddrLength ← next
  let joiningTokenLength ← next
  let joinedCount ← next
  let replication ← next
  let tokenLength ← next
  let generationField := (← get).head?
  set (← get).tail
  finish
  let joiningNameLength ← parseLength joiningNameLength
  let joiningAddrLength ← parseLength joiningAddrLength
  let joiningTokenLength ← parseLength joiningTokenLength
  let joinedCount ← parseLength joinedCount
  let replication ← parseLength replication
  let tokenLength ← parseLength tokenLength
  let generation ← generationField.elim (pure none) fun field => some <$> parseLength field
  if joinedCount > maxRosterEntries then throw .invalidLength
  if replication = 0 then throw .invalidLength
  return { tokenLength, joiningNameLength, joiningAddrLength, joiningTokenLength, joinedCount,
           replication, generation }

-- The fields of a roster entry, and where the next one starts.
structure JoinedEntry where
  name : Bytes
  addr : Bytes
  next : Nat

def entryLengths (line : Bytes) : Except ParseError (Nat × Nat) :=
  match line.splitOn 32 with
  | [nameLength, addrLength] => do
    let nameLength ← parseLength nameLength
    let addrLength ← parseLength addrLength
    if nameLength = 0 ∨ addrLength = 0 then throw .emptyField
    return (nameLength, addrLength)
  | _ => .error .invalidLength

def joinedEntry (input : Bytes) (nameStart : Nat) (line : Bytes) : Except ParseError JoinedEntry := do
  let (nameLength, addrLength) ← entryLengths line
  let next ← fieldEnds nameStart [nameLength, addrLength]
  if input.length < next then throw .incomplete
  let body := input.drop nameStart
  return { name := body.take nameLength, addr := (body.drop nameLength).take addrLength, next }

-- The line is only looked for as far as it may reach.
def nextJoinedEntry (input : Bytes) (cursor : Nat) : Except ParseError JoinedEntry :=
  let window := (input.drop cursor).take (maxRosterLineLen + 1)
  match findLf window with
  | some offset => joinedEntry input (cursor + offset + 1) (window.take offset)
  | none        =>
    if input.length - cursor > maxRosterLineLen then .error .invalidLength else .error .incomplete

-- Goes over as many entries, as far as they have arrived.
def scanJoined (input : Bytes) : Nat → MigrateProgress → Except ParseError Unit × MigrateProgress
  | 0, progress     => (.ok (), progress)
  | n + 1, progress =>
    match nextJoinedEntry input progress.cursor with
    | .error error => (.error error, progress)
    | .ok entry    =>
      scanJoined input n
        { progress with cursor := entry.next, entriesDone := progress.entriesDone + 1 }

def decodeJoined (frame : Bytes) : Nat → Nat → Except ParseError (List (Bytes × Bytes))
  | 0, _          => .ok []
  | n + 1, cursor => do
    let entry ← nextJoinedEntry frame cursor
    let name ← decodeField entry.name
    let addr ← decodeField entry.addr
    return (name, addr) :: (← decodeJoined frame n entry.next)

-- The lengths of the fields before the entries.
def MigrateHeader.lengths (header : MigrateHeader) : List Nat :=
  [header.tokenLength, header.joiningNameLength, header.joiningAddrLength,
    header.joiningTokenLength]

def decodeMigrate (frame : Bytes) (headerEnd entriesStart : Nat) (header : MigrateHeader) :
    Except ParseError Command := do
  let fields ← (cut header.lengths (frame.drop (headerEnd + 1))).mapM decodeField
  let joined ← decodeJoined frame header.joinedCount entriesStart
  match fields with
  | [token, joiningName, joiningAddr, joiningToken] =>
    return .migrate token joiningName joiningAddr joiningToken joined header.replication
      header.generation
  | _ => throw .invalidLength

-- Whether the progress is about this very frame.
def resumable (input : Bytes) (headerEnd entriesStart : Nat) (header : MigrateHeader)
    (progress : MigrateProgress) : Bool :=
  progress.headerEnd == headerEnd && progress.joinedCount == header.joinedCount &&
    progress.cursor ≥ entriesStart && progress.entriesDone ≤ header.joinedCount &&
    input.length ≥ progress.cursor

-- Where the entries of the frame start.
def entriesStart (input : Bytes) (headerEnd : Nat) (header : MigrateHeader) :
    Except ParseError Nat := do
  if 0 ∈ header.lengths then throw .emptyField
  let entriesStart ← fieldEnds (headerEnd + 1) header.lengths
  if input.length < entriesStart then throw .incomplete
  return entriesStart

def parseMigrate (input : Bytes) (headerEnd : Nat) (header : MigrateHeader)
    (progress : MigrateProgress) : Except ParseError Command × MigrateProgress × Nat :=
  match entriesStart input headerEnd header with
  | .error error     => (.error error, progress, 0)
  | .ok entriesStart =>
    let resumed := resumable input headerEnd entriesStart header progress
    let progress : MigrateProgress :=
      { headerEnd
        joinedCount   := header.joinedCount
        cursor        := if resumed then progress.cursor else entriesStart
        entriesDone   := if resumed then progress.entriesDone else 0
        lineEnd       := some headerEnd
        lineScannedTo := progress.lineScannedTo }
    match scanJoined input (header.joinedCount - progress.entriesDone) progress with
    | (.error error, progress) => (.error error, progress, 0)
    | (.ok (), progress)       =>
      (decodeMigrate (input.take progress.cursor) headerEnd entriesStart header, progress,
        progress.cursor)

end Migrate

section Parse

variable (input : Bytes) (tagged : Bool) (progress : MigrateProgress) (frameCharged : Bool)

-- A frame of which the header has been parsed. The bytes of a complete one are taken off the buffer.
def takeFrame (headerEnd : Nat) (plan : Plan) :
    Except ParseError (Command × Option UInt32) × MigrateProgress × Nat :=
  match fieldEnds (headerEnd + 1) plan.lengths with
  | .error error => (.error error, progress, 0)
  | .ok frameEnd =>
    let progress := plan.multi.elim progress fun (keys, _) =>
      { progress with frameEnd := some frameEnd, frameKeys := keys }
    match plan.multi.elim (.ok ()) fun (_, values) =>
      multiFrameGate input.length progress frameCharged values with
    | .error error => (.error error, progress, 0)
    | .ok ()       =>
      if input.length < frameEnd then (.error .incomplete, progress, 0)
      else
        let body := (input.take frameEnd).drop (headerEnd + 1)
        ((plan.finish (cut plan.lengths body)).map (·, plan.tag), progress, frameEnd)

-- Whether a command has many keys, and whether it has values.
def multiCommand (command : Bytes) : Option Bool :=
  if command = [109] ∨ command = [121] then some false
  else if command = [111] then some true
  else none

-- The result, the progress and how many bytes are taken off the buffer.
def parseWithMode : Except ParseError (Command × Option UInt32) × MigrateProgress × Nat :=
  let (headerEnd, progress) := findHeaderLineEnd input progress
  match headerEnd with
  | none           => (.error .incomplete, progress, 0)
  | some headerEnd =>
    match (input.take headerEnd).splitOn 32 with
    | []               => (.error .invalidCommand, progress, 0)
    | [77] :: parts    =>
      match parseMigrateHeader parts with
      | .error error     => (.error error, progress, 0)
      | .ok (header, _)  =>
        let (command, progress, consumed) := parseMigrate input headerEnd header progress
        (command.map (·, none), progress, consumed)
    | command :: parts =>
      -- The header of a frame with many keys is not parsed again until the frame is complete.
      match (multiCommand command).elim (.ok ())
        (multiFrameGate input.length progress frameCharged) with
      | .error error => (.error error, progress, 0)
      | .ok ()       =>
        match parseHeader tagged command parts with
        | .error error    => (.error error, progress, 0)
        | .ok (plan, _)   => takeFrame input progress frameCharged headerEnd plan

def parseResumable : Except ParseError (Command × Option UInt32) × MigrateProgress × Nat :=
  let (parsed, progress, consumed) := parseWithMode input tagged progress frameCharged
  match parsed with
  | .error error => (parsed, if error.isPending then progress else {}, consumed)
  | .ok _        => (parsed, {}, consumed)

end Parse
end Nanocached.Wire
