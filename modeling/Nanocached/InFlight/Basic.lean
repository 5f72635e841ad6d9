import Nanocached.Basic
import Nanocached.Lib.Semaphore

namespace Nanocached

def minMaxInFlightBytes : Nat :=
  1024 * 1024

def multiKeyFrameBytesPerKey : Nat :=
  256

def multiSetValueBytesPerKey : Nat :=
  32

def multiKeyReplyBytesPerKey : Nat :=
  64

def multiKeyForwardBytesPerKey : Nat :=
  96

def multiAckBytesPerKey : Nat :=
  8

def u32Max : Nat :=
  2 ^ 32 - 1

-- `u32::try_from(n).unwrap_or(u32::MAX)`
def toU32 (n : Nat) : Nat :=
  min n u32Max

def saturatingMul (a b : Nat) : Nat :=
  min (a * b) usizeMax

namespace InFlight

-- What `charge_within_room` hands back.
inductive Charge where
  | budget (permits : Nat)
  | overdraft
deriving DecidableEq, Repr

def Charge.permits : Option Charge → Nat
  | some (.budget permits) => permits
  | _                      => 0

def Charge.tokens : Option Charge → Nat
  | some .overdraft => 1
  | _               => 0

-- The number of keys and the cost are not kept by the source. The cost is that of the memory which
-- the frame still holds, so it goes down whenever the charge is narrowed.
structure FrameCharge where
  keys       : Nat
  cost       : Nat
  held       : Nat
  pinnedHeld : Nat
  overdraft  : Bool
deriving DecidableEq, Repr

namespace FrameCharge

def shrinkTo (charge : FrameCharge) (keep : Nat) : FrameCharge :=
  let kept := min (toU32 keep) charge.held
  { charge with
    cost       := min charge.cost keep
    held       := kept
    pinnedHeld := min charge.pinnedHeld kept }

def pin (charge : FrameCharge) : FrameCharge :=
  { charge with pinnedHeld := max charge.pinnedHeld charge.held }

end FrameCharge

-- What `charge_within_room` is called for.
inductive Request where
  | frame (keys : Nat) (values : Bool)
  | reply (cost : Nat)
deriving DecidableEq, Repr

def Request.cost : Request → Nat
  | frame keys values =>
    saturatingMul keys (multiKeyFrameBytesPerKey + if values then multiSetValueBytesPerKey else 0)
  | reply cost => cost

-- What the reply phase will keep of the charge is pinned from the start.
def FrameCharge.new (keys : Nat) (values : Bool) (charge : Option Charge) : FrameCharge :=
  let held       := toU32 (Charge.permits charge)
  let replyKeeps := if values then 0 else saturatingMul keys multiKeyReplyBytesPerKey
  { keys       := keys
    cost       := (Request.frame keys values).cost
    held       := held
    pinnedHeld := min (toU32 replyKeeps) held
    overdraft  := charge = some .overdraft }

-- What `charge_within_room` waits for.
inductive Wait where
  | bytes (permits : Nat)
  | byte
  | byteOrToken
deriving DecidableEq, Repr

inductive Phase where
  | idle
  | growing (want : Nat)
  | charging (request : Request) (own : Nat) (wait : Wait)
  | serving
  | replying (cost : Nat) (charge : Option Charge)
deriving DecidableEq, Repr

structure Conn where
  -- The permits of the receive buffer, and what the connection's `ReceiveTally` has recorded.
  receiveCharge  : Nat
  receiveCharged : Nat
  frameCharge    : Option FrameCharge
  phase          : Phase
deriving DecidableEq, Repr

def Conn.new : Conn where
  receiveCharge  := 0
  receiveCharged := 0
  frameCharge    := none
  phase          := .idle

end InFlight

open InFlight in
-- The budget with the connections that share it. There is a single thread, so what a connection
-- does from one await to the next is one step.
structure InFlight (ι : Type) where
  bytes     : Nat
  permits   : Semaphore ι
  pinned    : Nat
  overdraft : Semaphore ι
  conns     : ι → Conn

namespace InFlight

variable {ι : Type} [DecidableEq ι]

def new (bytes : Nat) : InFlight ι where
  bytes     := bytes
  permits   := .new bytes
  pinned    := 0
  overdraft := .new 1
  conns _   := .new

def setConn (s : InFlight ι) (i : ι) (conn : Conn) : InFlight ι :=
  { s with conns := Function.update s.conns i conn }

def setPhase (s : InFlight ι) (i : ι) (phase : Phase) : InFlight ι :=
  s.setConn i { s.conns i with phase := phase }

def room (s : InFlight ι) (own : Nat) : Nat :=
  s.bytes - max s.pinned own

def chargeExact (s : InFlight ι) (i : ι) (cost : Nat) : InFlight ι :=
  { s with permits := s.permits.acquire i (toU32 cost) }

-- One iteration of the loop of `charge_within_room`, up to where it waits.
def chargeLoop (s : InFlight ι) (i : ι) (request : Request) (own : Nat) : InFlight ι :=
  let room := s.room own
  if 0 < room then
    let cost := min request.cost room
    s.chargeExact i cost |>.setPhase i (.charging request own (.bytes (toU32 cost)))
  else if own = 0 then
    s.chargeExact i 1 |>.setPhase i (.charging request own .byte)
  else
    { s.chargeExact i 1 with overdraft := s.overdraft.acquire i 1 }
      |>.setPhase i (.charging request own .byteOrToken)

-- What the callers of `charge_within_room` do with the charge.
def enter (s : InFlight ι) (i : ι) (request : Request) (charge : Option Charge) : InFlight ι :=
  match request with
  | .frame keys values =>
    let frameCharge := FrameCharge.new keys values charge
    { s with pinned := s.pinned + frameCharge.pinnedHeld }
      |>.setConn i { s.conns i with frameCharge := some frameCharge, phase := .serving }
  | .reply cost => s.setPhase i (.replying cost charge)

def chargeWithinRoom (s : InFlight ι) (i : ι) (request : Request) (own : Nat)
    (overdraftHeld : Bool) : InFlight ι :=
  if request.cost = 0 ∨ own ≥ s.bytes ∨ overdraftHeld then
    s.enter i request none
  else
    s.chargeLoop i request own

-- Replaces the frame charge by what is left of it.
def narrow (s : InFlight ι) (i : ι) (charge charge' : FrameCharge) : InFlight ι :=
  { s with
    pinned  := s.pinned - (charge.pinnedHeld - charge'.pinnedHeld)
                        + (charge'.pinnedHeld - charge.pinnedHeld)
    permits := s.permits.release (charge.held - charge'.held) }
    |>.setConn i { s.conns i with frameCharge := some charge' }

def dropFrameCharge (s : InFlight ι) (i : ι) : InFlight ι :=
  match (s.conns i).frameCharge with
  | none        => s
  | some charge =>
    { s with
      pinned    := s.pinned - charge.pinnedHeld
      permits   := s.permits.release charge.held
      overdraft := s.overdraft.release (if charge.overdraft then 1 else 0) }
      |>.setConn i { s.conns i with frameCharge := none }

def dropReply (s : InFlight ι) (i : ι) : InFlight ι :=
  match (s.conns i).phase with
  | .replying _ charge =>
    { s with
      permits   := s.permits.release (Charge.permits charge)
      overdraft := s.overdraft.release (Charge.tokens charge) }
      |>.setPhase i .idle
  | _ => s.setPhase i .idle

def dropReceive (s : InFlight ι) (i : ι) : InFlight ι :=
  let conn := s.conns i
  { s with
    pinned  := s.pinned - conn.receiveCharged
    permits := s.permits.release conn.receiveCharge }
    |>.setConn i { conn with receiveCharge := 0, receiveCharged := 0 }

-- Drops the future a connection is waiting for.
def cancelWait (s : InFlight ι) (i : ι) : InFlight ι :=
  match (s.conns i).phase with
  | .growing want                      =>
    { s with permits := s.permits.cancel i (toU32 (want - (s.conns i).receiveCharged)) }
  | .charging _ _ (.bytes permits)     => { s with permits := s.permits.cancel i permits }
  | .charging _ _ .byte                => { s with permits := s.permits.cancel i 1 }
  | .charging _ _ .byteOrToken         =>
    { s with permits := s.permits.cancel i 1, overdraft := s.overdraft.cancel i 1 }
  | _                                  => s

inductive Event (ι : Type) where
  -- The receive buffer grows to this charge, or is shrunk.
  | grow (i : ι) (want : Nat)
  | shrink (i : ι)
  -- A request arrives: a multi-key frame, or one with a single value to reply with.
  | frame (i : ι) (keys : Nat) (values : Bool)
  | get (i : ι) (cost : Nat)
  -- The charge of a frame is narrowed to what it holds while it is forwarded or acknowledged.
  | keepForwardPhase (i : ι) (batches : Nat)
  | keepAckPhase (i : ι)
  -- The reply to a multi-key frame.
  | reply (i : ι) (cost : Nat)
  -- The request has been answered.
  | finish (i : ι)
  -- A connection takes up the bytes or the token it has been granted.
  | resume (i : ι)
  | resumeToken (i : ι)
  -- A connection ends, whatever it is doing.
  | close (i : ι)

def resume (s : InFlight ι) (i : ι) : Option (InFlight ι) :=
  let conn := s.conns i
  match conn.phase with
  | .growing want => do
    let more := toU32 (want - conn.receiveCharged)
    let permits ← s.permits.take i more
    return { s with permits := permits, pinned := s.pinned + (want - conn.receiveCharged) }
      |>.setConn i { conn with
        receiveCharge  := conn.receiveCharge + more
        receiveCharged := want
        phase          := .idle }
  | .charging request _ (.bytes n) => do
    let permits ← s.permits.take i n
    return { s with permits := permits }.enter i request (some (.budget n))
  | .charging request own .byte => do
    let permits ← s.permits.take i 1
    return { s with permits := permits.release 1 }.chargeLoop i request own
  | .charging request own .byteOrToken => do
    let permits ← s.permits.take i 1
    return { s with permits := permits.release 1, overdraft := s.overdraft.cancel i 1 }
      |>.chargeLoop i request own
  | _ => none

def resumeToken (s : InFlight ι) (i : ι) : Option (InFlight ι) :=
  match (s.conns i).phase with
  | .charging request own .byteOrToken => do
    let overdraft ← s.overdraft.take i 1
    let s := { s with permits := s.permits.cancel i 1, overdraft := overdraft }
    if s.room own = 0 then
      return s.enter i request (some .overdraft)
    else
      return { s with overdraft := s.overdraft.release 1 }.chargeLoop i request own
  | _ => none

def exec (s : InFlight ι) : Event ι → Option (InFlight ι)
  | .grow i want =>
    let conn := s.conns i
    if conn.phase = .idle ∧ want ≤ s.bytes ∧ conn.receiveCharged < want then
      some (s.chargeExact i (want - conn.receiveCharged) |>.setPhase i (.growing want))
    else
      none
  | .shrink i =>
    if (s.conns i).phase = .idle then some (s.dropReceive i) else none
  | .frame i keys values =>
    if (s.conns i).phase = .idle then
      some (s.chargeWithinRoom i (.frame keys values) (s.conns i).receiveCharged false)
    else
      none
  | .get i cost =>
    if (s.conns i).phase = .idle then
      some (s.chargeWithinRoom i (.reply cost) (s.conns i).receiveCharged false)
    else
      none
  | .keepForwardPhase i batches =>
    match (s.conns i).phase, (s.conns i).frameCharge with
    | .serving, some charge =>
      let keep := saturatingAdd (saturatingMul charge.keys multiKeyForwardBytesPerKey) batches
      some (s.narrow i charge (charge.shrinkTo keep))
    | _, _ => none
  | .keepAckPhase i =>
    match (s.conns i).phase, (s.conns i).frameCharge with
    | .serving, some charge =>
      some (s.narrow i charge (charge.shrinkTo (saturatingMul charge.keys multiAckBytesPerKey)))
    | _, _ => none
  | .reply i cost =>
    match (s.conns i).phase, (s.conns i).frameCharge with
    | .serving, some charge =>
      -- `keep_reply_phase`
      let kept := (charge.shrinkTo (saturatingMul charge.keys multiKeyReplyBytesPerKey)).pin
      some (s.narrow i charge kept
        |>.chargeWithinRoom i (.reply cost) ((s.conns i).receiveCharged + kept.held) kept.overdraft)
    | _, _ => none
  | .finish i =>
    match (s.conns i).phase with
    | .serving | .replying _ _ => some ((s.dropReply i).dropFrameCharge i)
    | _                        => none
  | .resume i      => s.resume i
  | .resumeToken i => s.resumeToken i
  | .close i       =>
    some ((s.cancelWait i).dropReply i |>.dropFrameCharge i |>.dropReceive i)

def execAll (s : InFlight ι) : List (Event ι) → Option (InFlight ι)
  | []      => some s
  | e :: es => s.exec e >>= (·.execAll es)

-- Whether a request of the connection was admitted and runs with fewer permits than its cost.
def Conn.undercharged (conn : Conn) : Bool :=
  conn.frameCharge.any (fun charge => charge.held < charge.cost) ||
  match conn.phase with
  | .replying cost charge => Charge.permits charge < cost
  | _                     => false

end InFlight
end Nanocached
