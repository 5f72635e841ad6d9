import Nanocached.Basic

-- The hedged reads of the Rust SDK. A read starts one leg after the other, each of them asking one
-- owner of the key, until the outcome of one settles the read.

namespace Nanocached.Sdk

-- The errors that reads do not tell apart are one case here.
inductive Error where
  | alreadyClosed
  | wrongNode
  | connectionLost (message : String)
  | protocol (message : String)
  | other (message : String)
deriving DecidableEq, Repr

structure LateHedgeLegs where
  legs      : Map String Nat
  total     : Nat
  threshold : Nat

namespace LateHedgeLegs

def silent (late : LateHedgeLegs) (name : String) : Bool :=
  late.threshold ≤ (late.legs.lookup name).getD 0

def demote (late : LateHedgeLegs) (owners : List String) : List String :=
  if late.total = 0 then
    owners
  else if owners.countP late.silent = 0 ∨ owners.countP late.silent = owners.length then
    owners
  else
    owners.filter (fun name => !late.silent name) ++ owners.filter late.silent

def add (late : LateHedgeLegs) (node : String) : LateHedgeLegs :=
  { late with
    legs  := late.legs.insert node ((late.legs.lookup node).getD 0 + 1)
    total := late.total + 1 }

def release (late : LateHedgeLegs) (node : String) : LateHedgeLegs :=
  match late.legs.lookup node with
  | none       => late
  | some count =>
    { late with
      legs  := if count - 1 = 0 then late.legs.erase node else late.legs.insert node (count - 1)
      total := late.total - 1 }

theorem demote_perm (late : LateHedgeLegs) (owners : List String) :
    (late.demote owners).Perm owners := by
  rw [demote]
  split
  case isTrue => rfl
  case isFalse =>
    split
    case isTrue  => rfl
    case isFalse => exact List.perm_append_comm.trans (List.filter_append_perm _ _)

end LateHedgeLegs

structure HedgeOutcome where
  index    : Nat
  result   : Except Error (Option Bytes)
  panicked : Bool
deriving DecidableEq, Repr

-- How the task of a leg ends, once it has run at all.
inductive LegEnd where
  | returned (result : Except Error (Option Bytes))
  | panicked (message : String)
  | cancelled
deriving DecidableEq, Repr

-- What the guard of the leg sends.
def LegEnd.outcome (index : Nat) : LegEnd → HedgeOutcome
  | returned result  => ⟨index, result, false⟩
  | panicked message =>
    ⟨index, .error (.protocol ("nanocached: hedged read leg panicked: " ++ message)), true⟩
  | cancelled        =>
    ⟨index, .error (.connectionLost "nanocached: hedged read leg was cancelled before it answered"),
      false⟩

-- The guard is made by the task itself. So a task that is dropped before it was polled for the
-- first time sends nothing.
inductive LegPhase where
  | spawned
  | running
  | ended (ending : LegEnd)
  | dropped
deriving DecidableEq, Repr

structure Leg where
  node  : String
  phase : LegPhase
deriving DecidableEq, Repr

def Leg.unended (leg : Leg) : Bool :=
  match leg.phase with
  | .ended _                       => false
  | .spawned | .running | .dropped => true

inductive ReadPhase where
  | waiting
  | draining (left : Nat) (result : Except Error (Option Bytes))
  | returned (result : Except Error (Option Bytes))
deriving DecidableEq, Repr

-- The result that the read has decided on.
def ReadPhase.result? : ReadPhase → Option (Except Error (Option Bytes))
  | waiting                             => none
  | draining _ result | returned result => some result

-- The legs that were counted as late are given by their indices. The read has a sender of its own,
-- so that the channel is never closed.
structure HedgedRead where
  primary       : String
  owners        : List String
  legs          : List Leg
  nextIndex     : Nat
  inFlight      : Nat
  lastError     : Option Error
  replicaMissed : Bool
  channel       : List HedgeOutcome
  phase         : ReadPhase
  late          : LateHedgeLegs
  lateLegs      : List Nat
  hedgeLoserCap : Nat
  closed        : Bool

-- The number of legs that are tracked for all reads is that of when this read looks at it.
inductive HedgeEvent where
  | elapse
  | receive (hedgedReads : Nat)
  | poll (index : Nat)
  | finish (index : Nat) (ending : LegEnd)
  | drop (index : Nat)
  -- What other calls do.
  | recount (late : LateHedgeLegs)
  | close

namespace HedgedRead

def spawnHedgeLeg (s : HedgedRead) (name : String) : HedgedRead :=
  if s.closed then
    { s with phase := .returned (.error .alreadyClosed) }
  else
    { s with
      legs      := s.legs ++ [⟨name, .spawned⟩]
      nextIndex := s.nextIndex + 1
      inFlight  := s.inFlight + 1 }

-- An owner is there to be ranked first unless the source panics.
def readHedged (late : LateHedgeLegs) (hedgeLoserCap : Nat) (closed : Bool) (owners : List String) :
    Option HedgedRead := do
  let primary ← owners[0]?
  let first ← (late.demote owners)[0]?
  let read : HedgedRead :=
    { primary, owners := late.demote owners, legs := [], nextIndex := 0, inFlight := 0,
      lastError := none, replicaMissed := false, channel := [], phase := .waiting, late,
      lateLegs := [], hedgeLoserCap, closed }
  return read.spawnHedgeLeg first

def countLate (s : HedgedRead) : HedgedRead :=
  let running := s.legs.zipIdx.filter fun leg => leg.1.unended && !s.lateLegs.contains leg.2
  { s with
    late     := running.foldl (fun late leg => late.add leg.1.node) s.late
    lateLegs := s.lateLegs ++ running.map Prod.snd }

def resolveHedgeLosers (s : HedgedRead) (result : Except Error (Option Bytes))
    (hedgedReads : Nat) : HedgedRead :=
  if s.inFlight = 0 ∨ hedgedReads < s.hedgeLoserCap then
    { s with phase := .returned result }
  else
    { s with phase := .draining s.inFlight result }

-- What the read returns after its loop.
def exhausted (s : HedgedRead) : Except Error (Option Bytes) :=
  if s.replicaMissed then
    .ok none
  else
    .error (s.lastError.getD (.connectionLost "nanocached: no owner is reachable for this key"))

-- The end of the loop's body.
def hedgeOnward (s : HedgedRead) : HedgedRead :=
  if s.inFlight = 0 then
    match s.owners[s.nextIndex]? with
    | some name => s.spawnHedgeLeg name
    | none      => { s with phase := .returned s.exhausted }
  else
    s

def settle (s : HedgedRead) (outcome : HedgeOutcome) (hedgedReads : Nat) : HedgedRead :=
  match outcome.result with
  | .ok (some value) => s.resolveHedgeLosers (.ok (some value)) hedgedReads
  | .ok none         =>
    if s.owners[outcome.index]? = some s.primary then
      s.resolveHedgeLosers (.ok none) hedgedReads
    else
      hedgeOnward { s with replicaMissed := true }
  | .error error     =>
    if outcome.panicked ∨ error = .wrongNode then
      s.resolveHedgeLosers (.error error) hedgedReads
    else
      hedgeOnward { s with lastError := some error }

def drain (s : HedgedRead) (left : Nat) (result : Except Error (Option Bytes)) : HedgedRead :=
  { s with phase := if left - 1 = 0 then .returned result else .draining (left - 1) result }

-- The guard is dropped, which uncounts a late leg.
def report (s : HedgedRead) (index : Nat) (node : String) (ending : LegEnd) : HedgedRead :=
  { s with
    legs    := s.legs.set index ⟨node, .ended ending⟩
    channel := s.channel ++ [ending.outcome index]
    late    := if s.lateLegs.contains index then s.late.release node else s.late }

def exec (s : HedgedRead) : HedgeEvent → Option HedgedRead
  | .elapse              =>
    match s.phase, s.owners[s.nextIndex]? with
    | .waiting, some name => some (s.countLate.spawnHedgeLeg name)
    | _, _                => none
  | .receive hedgedReads =>
    match s.phase, s.channel with
    | .waiting, outcome :: channel            =>
      some (settle { s with channel, inFlight := s.inFlight - 1 } outcome hedgedReads)
    | .draining left result, _outcome :: channel => some (drain { s with channel } left result)
    | _, _                                    => none
  | .poll index          =>
    match s.legs[index]? with
    | some ⟨node, .spawned⟩ => some { s with legs := s.legs.set index ⟨node, .running⟩ }
    | _                     => none
  | .finish index ending =>
    match s.legs[index]? with
    | some ⟨node, .running⟩ => some (s.report index node ending)
    | _                     => none
  | .drop index          =>
    match s.legs[index]? with
    | some ⟨node, .spawned⟩ => some { s with legs := s.legs.set index ⟨node, .dropped⟩ }
    | _                     => none
  | .recount late        => some { s with late }
  | .close               => some { s with closed := true }

end HedgedRead
end Nanocached.Sdk
