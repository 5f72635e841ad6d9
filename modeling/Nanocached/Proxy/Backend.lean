import Nanocached.Proxy.Reply

-- A connection to a node that all clients of the proxy share: the writer and the reader of
-- `run_backend`, the queues between them and whoever enqueues requests. The tasks run on several
-- threads, so any two of their steps can be interleaved.

namespace Nanocached.Proxy

def maxBackendInFlight : Nat := 256

def backendQueueDepth : Nat := 256

section SubstituteTag

-- `{tag}`.
def tagPlaceholder : Bytes := [123, 116, 97, 103, 125]

-- What remains to be replaced after the next `skip` bytes, which belong to a match.
def replaceGo (pattern replacement : Bytes) : (skip : Nat) → Bytes → Bytes
  | _, []                    => []
  | skip + 1, _ :: bytes     => replaceGo pattern replacement skip bytes
  | 0, byte :: bytes         =>
    if pattern.isPrefixOf (byte :: bytes) then
      replacement ++ replaceGo pattern replacement (pattern.length - 1) bytes
    else
      byte :: replaceGo pattern replacement 0 bytes

-- `str::replace`.
def replace (bytes pattern replacement : Bytes) : Bytes :=
  replaceGo pattern replacement 0 bytes

-- The header with the tag, and the body. The framers always emit a header, and it is ASCII.
def substituteTag (frame : Bytes) (tag : UInt32) : Option (Bytes × Bytes) := do
  let headerEnd ← frame.findIdx? (· == 10)
  let header := replace (frame.take headerEnd) tagPlaceholder (tagField tag)
  return (header ++ [10], frame.drop (headerEnd + 1))

end SubstituteTag

-- The request is given by its reply channel.
structure BackendRequest where
  reply  : Nat
  frame  : Bytes
  expect : Expect
  framed : 10 ∈ frame

-- The place of a reply among the pending ones. A probe has nobody waiting for it.
structure Slot where
  tag    : UInt32
  expect : Expect
  reply  : Option Nat
deriving DecidableEq, Repr

-- What a request comes to. A channel that is dropped is told apart from an error: it stands for
-- `RequestNotSent`. The bytes are those the reply was read from.
inductive Resolution
  | reply (reply : NodeReply) (bytes : Bytes)
  | failed
  | notSent
deriving DecidableEq, Repr

inductive Writer
  -- Waits for a request, for the poison or for the time to probe.
  | waiting
  | reserving (slot : Slot) (frame : Bytes)
  | writing (slot : Slot) (left : Bytes)
  -- The loop is left, for whatever reason.
  | leaving
  | discarding
  -- It has dropped its end of the pending queue.
  | joining
  | done
deriving DecidableEq, Repr

inductive Reader
  -- The two polls of its `select`.
  | polling
  | idling
  | reading (slot : Slot)
  -- The pending queue is closed.
  | draining
  | done
deriving DecidableEq, Repr

structure Backend where
  -- Those who have a permit of the request queue but have not put their request in yet.
  entering      : List BackendRequest
  queue         : List BackendRequest
  closed        : Bool
  -- There is no sender any more.
  abandoned     : Bool
  writer        : Writer
  nextTag       : UInt32
  pending       : List Slot
  pendingClosed : Bool
  reader        : Reader
  poisoned      : Bool
  -- What the node has sent and was not read yet, and whether that is all it will ever send.
  inbox         : Bytes
  ended         : Bool
  buf           : Bytes
  -- What has happened so far: the requests that were enqueued, the slots that were reserved, the
  -- bytes that were written for each of them, whether the idle watch has completed, and what became
  -- of requests and probes.
  enqueued      : List Nat
  reserved      : List Slot
  wire          : List (Slot × UInt8)
  watched       : Bool
  resolved      : List (Option Nat × Resolution)

namespace Backend

-- A connection that was just dialed.
def connected : Backend where
  entering      := []
  queue         := []
  closed        := false
  abandoned     := false
  writer        := .waiting
  nextTag       := 0
  pending       := []
  pendingClosed := false
  reader        := .polling
  poisoned      := false
  inbox         := []
  ended         := false
  buf           := []
  enqueued      := []
  reserved      := []
  wire          := []
  watched       := false
  resolved      := []

inductive Event
  -- `Sender::send` obtains a permit and then puts the request in, which cannot fail any more.
  | enqueue (request : BackendRequest)
  | push (reply : Nat)
  | abandon
  -- The writer.
  | take
  | probe
  | notified
  | reserve
  | write
  | flush
  | writeFailed
  | leave
  | discard
  | detach
  | join
  -- The reader.
  | pollPending
  | pollSocket (count : Nat)
  | read (count : Nat)
  | readReply
  | timeout
  | drain
  | drained
  -- The node.
  | send (bytes : Bytes)
  | close

-- `\x00nanocached-keepalive`.
def keepaliveKey : Bytes :=
  [0, 110, 97, 110, 111, 99, 97, 99, 104, 101, 100, 45, 107, 101, 101, 112, 97, 108, 105, 118, 101]

def frameGet (ns key : Bytes) : Bytes :=
  let header :=
    if ns.isEmpty then
      [71, 32] ++ Decimal.ofNat key.length
    else
      [103, 32] ++ Decimal.ofNat ns.length ++ [32] ++ Decimal.ofNat key.length
  header ++ [32] ++ tagPlaceholder ++ [10] ++ ns ++ key

theorem framed_frameGet {ns key : Bytes} : 10 ∈ frameGet ns key := by
  simp [frameGet]

variable (s : Backend)

-- The next tag goes to the frame. Tags wrap around.
def tagged (queue : List BackendRequest) (frame : Bytes) (expect : Expect) (reply : Option Nat) :
    Option Backend := do
  let (header, body) ← substituteTag frame s.nextTag
  return { s with
    queue   := queue
    nextTag := s.nextTag + 1
    writer  := .reserving ⟨s.nextTag, expect, reply⟩ (header ++ body) }

def resolve (reply : Option Nat) (resolution : Resolution) : Backend :=
  { s with resolved := s.resolved ++ [(reply, resolution)] }

-- The writer's next reservation fails, and what was reserved is drained.
def poison : Backend :=
  { s with pendingClosed := true, reader := .draining }

-- The writer holds the only sender of the pending queue.
def detached : Bool :=
  s.writer = .joining || s.writer = .done

def exec : Event → Option Backend
  | .enqueue request =>
    if s.closed || s.abandoned || request.reply ∈ s.enqueued ||
        s.entering.length + s.queue.length ≥ backendQueueDepth then
      none
    else
      some { s with
        entering := s.entering ++ [request]
        enqueued := s.enqueued ++ [request.reply] }
  | .push reply => do
    let request ← s.entering.find? (·.reply = reply)
    return { s with
      entering := s.entering.filter (·.reply ≠ reply)
      queue    := s.queue ++ [request] }
  | .abandon => if s.entering.isEmpty then some { s with abandoned := true } else none
  | .take =>
    match s.writer, s.queue with
    | .waiting, request :: queue =>
      s.tagged queue request.frame request.expect (some request.reply)
    | .waiting, [] => if s.abandoned then some { s with writer := .leaving } else none
    | _, _ => none
  | .probe =>
    match s.writer with
    | .waiting => s.tagged s.queue (frameGet [] keepaliveKey) .value none
    | _        => none
  | .notified =>
    if s.writer = .waiting ∧ s.poisoned then
      some { s with poisoned := false, writer := .leaving }
    else
      none
  | .reserve =>
    match s.writer with
    | .reserving slot frame =>
      if s.pendingClosed then
        some { s.resolve slot.reply .notSent with writer := .leaving }
      else if s.pending.length < maxBackendInFlight then
        some { s with
          pending  := s.pending ++ [slot]
          reserved := s.reserved ++ [slot]
          writer   := .writing slot frame }
      else
        none
    | _ => none
  | .write =>
    match s.writer with
    | .writing slot (byte :: left) =>
      some { s with wire := s.wire ++ [(slot, byte)], writer := .writing slot left }
    | _ => none
  | .flush =>
    match s.writer with
    | .writing _ [] => some { s with writer := .waiting }
    | _             => none
  | .writeFailed =>
    match s.writer with
    | .writing _ _ => some { s with writer := .leaving }
    | _            => none
  | .leave => if s.writer = .leaving then some { s with closed := true, writer := .discarding } else none
  | .discard =>
    -- What a late sender has put in is dropped with the queue.
    match s.queue with
    | request :: queue =>
      if s.writer = .discarding ∨ s.writer = .done then
        some { s.resolve (some request.reply) .notSent with queue := queue }
      else
        none
    | [] => none
  | .detach =>
    if s.writer = .discarding ∧ s.queue.isEmpty then some { s with writer := .joining } else none
  | .join =>
    if s.writer = .joining ∧ s.reader = .done then some { s with writer := .done } else none
  | .pollPending =>
    if s.reader = .polling then
      match s.pending with
      | slot :: pending => some { s with pending := pending, reader := .reading slot }
      | []              => some { s with reader := if s.detached then .done else .idling }
    else
      none
  | .pollSocket count =>
    if s.reader = .idling then
      if s.inbox.isEmpty then
        some (if s.ended then { s.poison with watched := true } else { s with reader := .polling })
      else if 0 < count ∧ count ≤ min 64 s.inbox.length then
        some { s.poison with
          buf     := s.buf ++ s.inbox.take count
          inbox   := s.inbox.drop count
          watched := true }
      else
        none
    else
      none
  | .read count =>
    match s.reader with
    | .reading slot =>
      if Proxy.readReply slot.tag slot.expect s.buf = .more ∧
          0 < count ∧ count ≤ min 4096 s.inbox.length then
        some { s with buf := s.buf ++ s.inbox.take count, inbox := s.inbox.drop count }
      else
        none
    | _ => none
  | .readReply =>
    match s.reader with
    | .reading slot =>
      match Proxy.readReply slot.tag slot.expect s.buf with
      | .done reply rest =>
        let bytes := s.buf.take (s.buf.length - rest.length)
        some { s.resolve slot.reply (.reply reply bytes) with buf := rest, reader := .polling }
      | .failed => some (s.resolve slot.reply .failed).poison
      | .more =>
        if s.inbox.isEmpty ∧ s.ended then some (s.resolve slot.reply .failed).poison else none
    | _ => none
  | .timeout =>
    match s.reader with
    | .reading slot =>
      if Proxy.readReply slot.tag slot.expect s.buf = .more then
        some (s.resolve slot.reply .failed).poison
      else
        none
    | _ => none
  | .drain =>
    if s.reader = .draining then
      match s.pending with
      | slot :: pending => some { s.resolve slot.reply .failed with pending := pending }
      | []              => none
    else
      none
  | .drained =>
    if s.reader = .draining ∧ s.pending.isEmpty then
      some { s with reader := .done, poisoned := true }
    else
      none
  | .send bytes => if s.ended then none else some { s with inbox := s.inbox ++ bytes }
  | .close => some { s with ended := true }

end Backend
end Nanocached.Proxy
