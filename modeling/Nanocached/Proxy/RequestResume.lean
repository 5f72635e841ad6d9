import Nanocached.Command.Frame
import Nanocached.Lib.Resumable
import Nanocached.Proxy.Request

-- The proxy does not depend on the chunks in which it receives the input of a client.

namespace Nanocached.Proxy

open Wire (findLf findLf_append findLf_lt findLf_drop take_append_of_findLf)

variable {input chunk : Bytes} {tagged charged : Bool} {scan : RequestScanState}
variable {maxFrame headerEnd frameEnd : Nat} {shape : Client.Shape}

section Pure

-- A frame of which the header has been parsed, at once.
def bodyOf (input : Bytes) (charged : Bool) (maxFrame headerEnd : Nat) (shape : Client.Shape) :
    Parsed ParseOutcome × Nat :=
  match frameEndOf headerEnd shape.lengths with
  | .error message => (.error message, 0)
  | .ok frameEnd   =>
    if frameEnd > maxFrame then (.error "request exceeds the request-size limit", 0)
    else if input.length < frameEnd then (.ok .incomplete, 0)
    else
      match shape.multi.filter fun _ => !charged with
      | some (kind, keys) => (.ok (.chargeRequired ⟨kind, keys, frameEnd⟩ shape.tag), 0)
      | none              =>
        let body := (input.take frameEnd).drop (headerEnd + 1)
        (.ok (shape.finish (Wire.cut shape.lengths body)), frameEnd)

-- What the front of a buffer is, regardless of how it has arrived.
def requestOf (input : Bytes) (tagged charged : Bool) (maxFrame : Nat) :
    Parsed ParseOutcome × Nat :=
  match findLf input with
  | none           =>
    if input.length > maxFrame then (.error "header exceeds the request-size limit", 0)
    else (.ok .incomplete, 0)
  | some headerEnd =>
    match parseHeaderLine tagged (input.take headerEnd) with
    | .error message => (.error message, 0)
    | .ok shape      => bodyOf input charged maxFrame headerEnd shape

theorem checkedAdd_eq_ok {a b c : Nat} : checkedAdd a b = .ok c ↔ a + b = c ∧ c < 2 ^ 64 := by
  unfold checkedAdd
  split <;> simp <;> omega

theorem foldlM_checkedAdd {lengths : List Nat} {a n : Nat} (h : lengths.foldlM checkedAdd a = .ok n) :
    n = a + lengths.sum := by
  induction lengths generalizing a
  case nil => cases h; rfl
  case cons length lengths hi =>
    rw [List.foldlM_cons] at h
    cases hc : checkedAdd a length
    case error =>
      rw [hc] at h
      contradiction
    case ok m =>
      rw [hc] at h
      rw [hi h, ← (checkedAdd_eq_ok.mp hc).left, List.sum_cons, Nat.add_assoc]

theorem frameEndOf_eq_ok {lengths : List Nat} (h : frameEndOf headerEnd lengths = .ok frameEnd) :
    frameEnd = headerEnd + 1 + lengths.sum := by
  unfold frameEndOf at h
  cases hb : lengths.foldlM checkedAdd 0
  case error =>
    rw [hb] at h
    contradiction
  case ok bodyLength =>
    cases hs : checkedAdd headerEnd 1
    case error =>
      rw [hb, hs] at h
      contradiction
    case ok start =>
      rw [hb, hs] at h
      have h : checkedAdd start bodyLength = .ok frameEnd := h
      rw [← (checkedAdd_eq_ok.mp h).left, ← (checkedAdd_eq_ok.mp hs).left, foldlM_checkedAdd hb,
        Nat.zero_add]

-- A frame which is none, or is too long, is so whether or not its body has arrived.
theorem bodyOf_cases (maxFrame headerEnd : Nat) (shape : Client.Shape) :
    (∃ message, ∀ input charged,
      bodyOf input charged maxFrame headerEnd shape = (.error message, 0)) ∨
    ∃ frameEnd, headerEnd < frameEnd ∧ frameEnd ≤ maxFrame ∧ ∀ input charged,
      bodyOf input charged maxFrame headerEnd shape =
        if input.length < frameEnd then (.ok .incomplete, 0)
        else
          match shape.multi.filter fun _ => !charged with
          | some (kind, keys) => (.ok (.chargeRequired ⟨kind, keys, frameEnd⟩ shape.tag), 0)
          | none              =>
            let body := (input.take frameEnd).drop (headerEnd + 1)
            (.ok (shape.finish (Wire.cut shape.lengths body)), frameEnd) := by
  unfold bodyOf
  cases hf : frameEndOf headerEnd shape.lengths
  case error message => exact .inl ⟨message, fun _ _ => rfl⟩
  case ok frameEnd =>
    by_cases hm : frameEnd > maxFrame
    case pos => exact .inl ⟨_, fun _ _ => if_pos hm⟩
    case neg =>
      have hend := frameEndOf_eq_ok hf
      exact .inr ⟨frameEnd, by omega, by omega, fun _ _ => if_neg hm⟩

end Pure

section Append

theorem bodyOf_append {outcome : ParseOutcome}
    (h : (bodyOf input charged maxFrame headerEnd shape).1 = .ok outcome) (ho : outcome ≠ .incomplete)
    (chunk : Bytes) :
    bodyOf (input ++ chunk) charged maxFrame headerEnd shape =
      bodyOf input charged maxFrame headerEnd shape := by
  rcases bodyOf_cases maxFrame headerEnd shape with ⟨_, he⟩ | ⟨frameEnd, -, -, he⟩
  case inl => rw [he, he]
  case inr =>
    have hl : ¬input.length < frameEnd := by
      intro hl
      rw [he, if_pos hl] at h
      cases h
      exact ho rfl
    rw [he, he, if_neg hl, if_neg (by rw [List.length_append]; omega),
      List.take_append_of_le_length (Nat.le_of_not_lt hl)]

-- A frame that is too long, or no frame, remains so.
theorem bodyOf_append_error {message : String}
    (h : (bodyOf input charged maxFrame headerEnd shape).1 = .error message) (chunk : Bytes) :
    bodyOf (input ++ chunk) charged maxFrame headerEnd shape = (.error message, 0) := by
  rcases bodyOf_cases maxFrame headerEnd shape with ⟨_, he⟩ | ⟨frameEnd, -, -, he⟩
  case inl =>
    rw [he] at h ⊢
    cases h
    rfl
  case inr =>
    rw [he] at h
    split at h
    case isTrue  => contradiction
    case isFalse => split at h <;> contradiction

theorem requestOf_append {outcome : ParseOutcome}
    (h : (requestOf input tagged charged maxFrame).1 = .ok outcome) (ho : outcome ≠ .incomplete)
    (chunk : Bytes) :
    requestOf (input ++ chunk) tagged charged maxFrame =
      requestOf input tagged charged maxFrame := by
  unfold requestOf at h ⊢
  cases hf : findLf input
  case none =>
    rw [hf] at h
    dsimp only at h
    split at h
    case isTrue  => contradiction
    case isFalse =>
      cases h
      exact absurd rfl ho
  case some headerEnd =>
    rw [findLf_append hf]
    rw [hf] at h
    dsimp only at h ⊢
    rw [take_append_of_findLf hf]
    cases hp : parseHeaderLine tagged (input.take headerEnd)
    case error => rfl
    case ok shape =>
      rw [hp] at h
      exact bodyOf_append h ho chunk

-- A header which does not end within the limit is not the header of a frame within it.
theorem bodyOf_exceeds (h : maxFrame ≤ headerEnd) :
    ∃ message, bodyOf input charged maxFrame headerEnd shape = (.error message, 0) := by
  rcases bodyOf_cases maxFrame headerEnd shape with ⟨message, he⟩ | ⟨frameEnd, hlt, hle, -⟩
  case inl => exact ⟨message, he input charged⟩
  case inr => omega

theorem length_le_of_findLf_append (h : findLf input = none)
    (h' : findLf (input ++ chunk) = some headerEnd) : input.length ≤ headerEnd := by
  rw [findLf] at h h'
  rw [List.findIdx?_append, h, Option.none_or] at h'
  obtain ⟨n, -, rfl⟩ := Option.map_eq_some_iff.mp h'
  omega

-- What the error says may depend on whether the header has arrived.
theorem requestOf_append_error {message : String}
    (h : (requestOf input tagged charged maxFrame).1 = .error message) (chunk : Bytes) :
    ∃ message, requestOf (input ++ chunk) tagged charged maxFrame = (.error message, 0) := by
  unfold requestOf at h ⊢
  cases hf : findLf input
  case none =>
    rw [hf] at h
    dsimp only at h
    have hl : input.length > maxFrame := by
      by_contra hl
      rw [if_neg hl] at h
      contradiction
    cases hf' : findLf (input ++ chunk)
    case none => exact ⟨_, if_pos (by rw [List.length_append]; omega)⟩
    case some headerEnd =>
      have hle := length_le_of_findLf_append hf hf'
      dsimp only
      cases parseHeaderLine tagged ((input ++ chunk).take headerEnd)
      case error message => exact ⟨message, rfl⟩
      case ok shape      => exact bodyOf_exceeds (by omega)
  case some headerEnd =>
    rw [findLf_append hf]
    rw [hf] at h
    dsimp only at h ⊢
    rw [take_append_of_findLf hf]
    cases hp : parseHeaderLine tagged (input.take headerEnd)
    case error message => exact ⟨message, rfl⟩
    case ok shape =>
      rw [hp] at h
      exact ⟨message, bodyOf_append_error h chunk⟩

end Append

section Consumed

-- Nothing is taken off the buffer but whole frames.
def Takes (input : Bytes) (parsed : Parsed ParseOutcome) (consumed : Nat) : Prop :=
  ∀ {outcome}, parsed = .ok outcome →
    if outcome.isPending then consumed = 0 else 0 < consumed ∧ consumed ≤ input.length

theorem takes_error {message : String} : Takes input (.error message) 0 := by
  rintro _ ⟨⟩

theorem takes_incomplete : Takes input (.ok .incomplete) 0 := by
  rintro _ ⟨⟩
  rfl

theorem takes_bodyOf : Takes input (bodyOf input charged maxFrame headerEnd shape).1
    (bodyOf input charged maxFrame headerEnd shape).2 := by
  rcases bodyOf_cases maxFrame headerEnd shape with ⟨_, he⟩ | ⟨frameEnd, hlt, -, he⟩
  case inl => exact he input charged ▸ takes_error
  case inr =>
    rw [he]
    split
    case isTrue => exact takes_incomplete
    case isFalse hl =>
      split
      case h_1 =>
        rintro _ ⟨⟩
        rfl
      case h_2 =>
        rintro _ ⟨⟩
        rw [if_neg (by rw [shape.settled]; decide)]
        dsimp only
        omega

theorem takeBody_eq (input : Bytes) (scan : RequestScanState) (maxFrame headerEnd : Nat)
    (shape : Client.Shape) :
    let body := bodyOf input scan.frameCharged maxFrame headerEnd shape
    ∃ scan', takeBody input scan maxFrame headerEnd shape = (body.1, scan', body.2) ∧
      (scan' = scan ∨
        ∃ frameEnd, frameEndOf headerEnd shape.lengths = .ok frameEnd ∧ frameEnd ≤ maxFrame ∧
          scan' = { scan with frameEnd := some frameEnd }) := by
  unfold takeBody bodyOf
  cases he : frameEndOf headerEnd shape.lengths
  case error => exact ⟨scan, rfl, .inl rfl⟩
  case ok frameEnd =>
    dsimp only
    by_cases hm : frameEnd > maxFrame
    case pos =>
      simp only [if_pos hm]
      exact ⟨scan, rfl, .inl rfl⟩
    case neg =>
      simp only [if_neg hm]
      by_cases hlen : input.length < frameEnd
      case pos =>
        simp only [if_pos hlen]
        exact ⟨_, rfl, .inr ⟨frameEnd, rfl, Nat.le_of_not_lt hm, rfl⟩⟩
      case neg =>
        simp only [if_neg hlen]
        rcases shape.multi.filter fun _ => !scan.frameCharged with _ | ⟨kind, keys⟩
        case none => exact ⟨scan, rfl, .inl rfl⟩
        case some => exact ⟨scan, rfl, .inl rfl⟩

theorem takes_parseRequestBody : Takes input (parseRequestBody input tagged scan maxFrame).1
    (parseRequestBody input tagged scan maxFrame).2.2 := by
  unfold parseRequestBody
  rcases findHeaderEnd input scan with ⟨_ | headerEnd, scan⟩
  case none =>
    dsimp only
    split
    case isTrue  => exact takes_error
    case isFalse => exact takes_incomplete
  case some =>
    dsimp only
    split
    case isTrue => exact takes_incomplete
    case isFalse =>
      cases parseHeaderLine tagged (input.take headerEnd)
      case error => exact takes_error
      case ok shape =>
        obtain ⟨scan', he, -⟩ := takeBody_eq input scan maxFrame headerEnd shape
        simp only [he]
        exact takes_bodyOf

end Consumed

section Valid

-- The header of a frame which has been parsed before.
inductive ParsedHeader (tagged : Bool) (maxFrame : Nat) (input : Bytes) (frameEnd : Nat) : Prop
  | mk {headerEnd : Nat} {shape : Client.Shape}
      (line : findLf input = some headerEnd)
      (parsed : parseHeaderLine tagged (input.take headerEnd) = .ok shape)
      (ends : frameEndOf headerEnd shape.lengths = .ok frameEnd)
      (limit : frameEnd ≤ maxFrame)

-- What is remembered is true of the buffer.
structure RequestScanState.Valid (tagged : Bool) (maxFrame : Nat) (input : Bytes)
    (scan : RequestScanState) : Prop where
  line    : ∀ {headerEnd}, scan.headerEnd = some headerEnd → findLf input = some headerEnd
  reaches : scan.headerScannedTo ≤ input.length
  scanned : 10 ∉ input.take scan.headerScannedTo
  frame   : ∀ {frameEnd}, scan.frameEnd = some frameEnd →
              ParsedHeader tagged maxFrame input frameEnd

namespace RequestScanState.Valid

theorem fresh : Valid tagged maxFrame input { frameCharged := charged } where
  line h    := by contradiction
  reaches   := Nat.zero_le _
  scanned   := List.not_mem_nil
  frame h   := by contradiction

theorem append (h : scan.Valid tagged maxFrame input) (chunk : Bytes) :
    scan.Valid tagged maxFrame (input ++ chunk) where
  line hl   := findLf_append (h.line hl) chunk
  reaches   := h.reaches.trans (by rw [List.length_append]; omega)
  scanned   := by
    rw [List.take_append_of_le_length h.reaches]
    exact h.scanned
  frame hf  := by
    obtain ⟨hl, hp, he, hm⟩ := h.frame hf
    exact ⟨findLf_append hl chunk, by rwa [take_append_of_findLf hl], he, hm⟩

theorem findHeaderEnd_eq (h : scan.Valid tagged maxFrame input) :
    (findHeaderEnd input scan).1 = findLf input ∧
      (findHeaderEnd input scan).2.Valid tagged maxFrame input ∧
      (findHeaderEnd input scan).2.frameCharged = scan.frameCharged := by
  unfold findHeaderEnd
  split
  case h_1 lineEnd hl =>
    exact ⟨(h.line (Option.filter_eq_some_iff.mp hl).left).symm, h, rfl⟩
  case h_2 =>
    have hf := findLf_drop h.scanned h.reaches
    rw [Nat.min_eq_left h.reaches]
    dsimp only
    split
    case h_1 relative hr =>
      rw [hr] at hf
      exact ⟨hf.symm, { h with line := fun he => by cases he; exact hf }, rfl⟩
    case h_2 hr =>
      rw [hr] at hf
      refine ⟨hf.symm, { h with reaches := le_rfl, scanned := ?_ }, rfl⟩
      rw [List.take_length]
      exact fun hm => by simpa using List.findIdx?_eq_none_iff.mp hf _ hm

theorem takeBody_eq (h : scan.Valid tagged maxFrame input) (hl : findLf input = some headerEnd)
    (hp : parseHeaderLine tagged (input.take headerEnd) = .ok shape) :
    let body := bodyOf input scan.frameCharged maxFrame headerEnd shape
    ∃ scan', takeBody input scan maxFrame headerEnd shape = (body.1, scan', body.2) ∧
      scan'.Valid tagged maxFrame input ∧ scan'.frameCharged = scan.frameCharged := by
  obtain ⟨scan', he, hs⟩ := Proxy.takeBody_eq input scan maxFrame headerEnd shape
  refine ⟨scan', he, ?_⟩
  obtain rfl | ⟨frameEnd, hend, hm, rfl⟩ := hs
  case inl => exact ⟨h, rfl⟩
  case inr =>
    refine ⟨{ h with frame := ?_ }, rfl⟩
    rintro _ ⟨⟩
    exact ⟨hl, hp, hend, hm⟩

-- A frame which is known not to be complete is not.
theorem requestOf_of_frameEnd (h : scan.Valid tagged maxFrame input)
    (hf : scan.frameEnd.any (input.length < ·) = true) :
    requestOf input tagged charged maxFrame = (.ok .incomplete, 0) := by
  obtain ⟨frameEnd, hf, hlen⟩ := (Option.any_eq_true _ _).mp hf
  obtain ⟨hl, hp, he, hm⟩ := h.frame hf
  have hlen := of_decide_eq_true hlen
  simp only [requestOf, hl, hp, bodyOf, he, if_neg (Nat.not_lt.mpr hm), if_pos hlen]

theorem parseRequestBody_eq (h : scan.Valid tagged maxFrame input) :
    let request := requestOf input tagged scan.frameCharged maxFrame
    ∃ scan', parseRequestBody input tagged scan maxFrame = (request.1, scan', request.2) ∧
      scan'.Valid tagged maxFrame input ∧ scan'.frameCharged = scan.frameCharged := by
  obtain ⟨hl, h, hc⟩ := h.findHeaderEnd_eq
  unfold parseRequestBody
  rw [← hc]
  generalize findHeaderEnd input scan = found at hl h ⊢
  rcases found with ⟨line, scan⟩
  dsimp only at hl h ⊢
  subst hl
  by_cases hf : scan.frameEnd.any (input.length < ·) = true
  case pos =>
    obtain ⟨frameEnd, hs, -⟩ := (Option.any_eq_true _ _).mp hf
    obtain ⟨hl, -⟩ := h.frame hs
    rw [h.requestOf_of_frameEnd hf]
    simp only [hl, if_pos hf]
    exact ⟨scan, rfl, h, rfl⟩
  case neg =>
    simp only [if_neg hf]
    unfold requestOf
    cases hl : findLf input
    case none =>
      dsimp only
      split
      case isTrue  => exact ⟨scan, rfl, h, rfl⟩
      case isFalse => exact ⟨scan, rfl, h, rfl⟩
    case some headerEnd =>
      dsimp only
      cases hp : parseHeaderLine tagged (input.take headerEnd)
      case error    => exact ⟨scan, rfl, h, rfl⟩
      case ok shape => exact h.takeBody_eq hl hp

end RequestScanState.Valid

-- Nothing is remembered of a frame that is not asked for again.
theorem parseRequestLimited_eq (h : scan.Valid tagged maxFrame input) :
    let request := requestOf input tagged scan.frameCharged maxFrame
    ∃ scan', parseRequestLimited input tagged scan maxFrame = (request.1, scan', request.2) ∧
      scan'.Valid tagged maxFrame input ∧
      (scan.frameCharged = false → scan'.frameCharged = false) ∧
      ((∀ outcome, request.1 = .ok outcome → outcome.isPending = false) → scan' = {}) := by
  obtain ⟨scan', he, hv, hc⟩ := h.parseRequestBody_eq
  unfold parseRequestLimited
  rw [he]
  rcases requestOf input tagged scan.frameCharged maxFrame with ⟨message | outcome, consumed⟩
  case error => exact ⟨{}, rfl, .fresh, fun _ => rfl, fun _ => rfl⟩
  case ok =>
    dsimp only
    cases hp : outcome.isPending
    case false => exact ⟨{}, rfl, .fresh, fun _ => rfl, fun _ => rfl⟩
    case true  =>
      refine ⟨scan', rfl, hv, hc.trans, fun hs => ?_⟩
      cases hp.symm.trans (hs outcome rfl)

theorem takes_parseRequestLimited : Takes input (parseRequestLimited input tagged scan maxFrame).1
    (parseRequestLimited input tagged scan maxFrame).2.2 := by
  have ht : Takes input (parseRequestBody input tagged scan maxFrame).1 _ := takes_parseRequestBody
  unfold parseRequestLimited
  generalize parseRequestBody input tagged scan maxFrame = parsed at ht ⊢
  rcases parsed with ⟨message | outcome, scan', consumed⟩
  case error => rintro _ ⟨⟩
  case ok    => exact fun {_} h => ht h

end Valid

section Connection

-- All errors of the parser are of one kind. What one of them says depends on whether the end of a
-- header that is too long has arrived, so the text is left out of what connections are compared by.
inductive ErrorKind
  | invalidData
deriving DecidableEq, Repr

-- What becomes of a frame: what it was charged for, and what it is.
abbrev Handled := Option (MultiFrame × Option UInt32) × ParseOutcome

-- Outcomes are compared up to the text of an error.
def stepOf (charge : Option (MultiFrame × Option UInt32)) (parsed : Parsed ParseOutcome)
    (consumed : Nat) : Resumable.Step Handled ErrorKind :=
  match parsed with
  | .error _    => .stop .invalidData consumed
  | .ok outcome => if outcome.isPending then .more else .emit (charge, outcome) consumed

-- A client's connection charges a frame with many keys as soon as the parser asks for it.
def handle (input : Bytes) (tagged : Bool) (maxFrame : Nat) (scan : RequestScanState) :
    Resumable.Step Handled ErrorKind × RequestScanState :=
  match parseRequestLimited input tagged scan maxFrame with
  | (.ok (.chargeRequired frame tag), scan, _) =>
    let (parsed, scan, consumed) :=
      parseRequestLimited input tagged { scan with frameCharged := true } maxFrame
    (stepOf (some (frame, tag)) parsed consumed, scan)
  | (parsed, scan, consumed) => (stepOf none parsed consumed, scan)

-- A frame that has to be charged is parsed once it is.
theorem requestOf_charged {frame : MultiFrame} {tag : Option UInt32}
    (h : (requestOf input tagged false maxFrame).1 = .ok (.chargeRequired frame tag)) :
    ∃ outcome, (requestOf input tagged true maxFrame).1 = .ok outcome ∧
      outcome.isPending = false := by
  unfold requestOf at h ⊢
  cases hl : findLf input
  case none =>
    rw [hl] at h
    dsimp only at h
    split at h <;> cases h
  case some headerEnd =>
    rw [hl] at h
    dsimp only at h ⊢
    cases hp : parseHeaderLine tagged (input.take headerEnd)
    case error =>
      rw [hp] at h
      contradiction
    case ok shape =>
      rw [hp] at h
      dsimp only at h ⊢
      rcases bodyOf_cases maxFrame headerEnd shape with ⟨_, he⟩ | ⟨frameEnd, -, -, he⟩
      case inl =>
        rw [he] at h
        contradiction
      case inr =>
        rw [he] at h ⊢
        by_cases hlen : input.length < frameEnd
        case pos =>
          rw [if_pos hlen] at h
          cases h
        case neg =>
          have hnone : (shape.multi.filter fun _ => !true) = none := by
            cases shape.multi <;> rfl
          rw [if_neg hlen, hnone]
          exact ⟨_, rfl, shape.settled _⟩

-- Any other frame does not depend on it.
theorem requestOf_uncharged
    (h : ∀ frame tag, (requestOf input tagged false maxFrame).1 ≠ .ok (.chargeRequired frame tag)) :
    requestOf input tagged true maxFrame = requestOf input tagged false maxFrame := by
  unfold requestOf at h ⊢
  cases hl : findLf input
  case none => rfl
  case some headerEnd =>
    rw [hl] at h
    dsimp only at h ⊢
    cases hp : parseHeaderLine tagged (input.take headerEnd)
    case error => rfl
    case ok shape =>
      rw [hp] at h
      dsimp only at h ⊢
      rcases bodyOf_cases maxFrame headerEnd shape with ⟨_, he⟩ | ⟨frameEnd, -, -, he⟩
      case inl => rw [he, he]
      case inr =>
        rw [he] at h ⊢
        rw [he]
        split
        case isTrue => rfl
        case isFalse hlen =>
          rcases hmulti : shape.multi with _ | ⟨kind, keys⟩
          case none => rfl
          case some =>
            rw [if_neg hlen, hmulti] at h
            exact absurd rfl (h _ _)

def view (tagged : Bool) (maxFrame : Nat) (input : Bytes) : Resumable.Step Handled ErrorKind :=
  match (requestOf input tagged false maxFrame).1 with
  | .ok (.chargeRequired frame tag) =>
    stepOf (some (frame, tag)) (requestOf input tagged true maxFrame).1
      (requestOf input tagged true maxFrame).2
  | parsed => stepOf none parsed (requestOf input tagged false maxFrame).2

-- What is remembered between two calls.
structure RequestScanState.Carried (tagged : Bool) (maxFrame : Nat) (input : Bytes)
    (scan : RequestScanState) : Prop where
  valid     : scan.Valid tagged maxFrame input
  uncharged : scan.frameCharged = false

theorem view_uncharged
    (h : ∀ frame tag, (requestOf input tagged false maxFrame).1 ≠ .ok (.chargeRequired frame tag)) :
    view tagged maxFrame input = stepOf none (requestOf input tagged false maxFrame).1
      (requestOf input tagged false maxFrame).2 := by
  unfold view
  split
  case h_1 he => exact absurd he (h _ _)
  case h_2    => rfl

-- A buffer is handled as what it is, and what is remembered is true of it again. If there is a frame
-- at the front of the buffer, nothing is.
theorem handle_eq (h : scan.Carried tagged maxFrame input) :
    (handle input tagged maxFrame scan).1 = view tagged maxFrame input ∧
      (handle input tagged maxFrame scan).2.Carried tagged maxFrame input ∧
      (view tagged maxFrame input ≠ .more → (handle input tagged maxFrame scan).2 = {}) := by
  obtain ⟨scan', hf, hv, hc, hs⟩ := parseRequestLimited_eq h.valid
  rw [h.uncharged] at hf hs
  have hc := hc h.uncharged
  by_cases hr : ∃ frame tag,
    (requestOf input tagged false maxFrame).1 = .ok (.chargeRequired frame tag)
  case pos =>
    obtain ⟨frame, tag, hr⟩ := hr
    have hv' : RequestScanState.Valid tagged maxFrame input { scan' with frameCharged := true } :=
      ⟨hv.line, hv.reaches, hv.scanned, hv.frame⟩
    obtain ⟨scan'', hf', -, -, hs'⟩ := parseRequestLimited_eq hv'
    obtain ⟨outcome, ho, hp⟩ := requestOf_charged hr
    have hs' := hs' fun o h => by cases ho.symm.trans h; exact hp
    simp only [handle, view, hf, hf', hr, hs']
    exact ⟨trivial, ⟨.fresh, rfl⟩, fun _ => trivial⟩
  case neg =>
    have hne := fun frame tag he => hr ⟨frame, tag, he⟩
    have hh : handle input tagged maxFrame scan =
        (stepOf none (requestOf input tagged false maxFrame).1
          (requestOf input tagged false maxFrame).2, scan') := by
      unfold handle
      rw [hf]
      split
      case h_1 heq => exact absurd (congrArg Prod.fst heq) (hne _ _)
      case h_2 heq => cases heq; rfl
    rw [hh, view_uncharged hne]
    refine ⟨rfl, ⟨hv, hc⟩, fun hm => hs fun outcome ho => ?_⟩
    rw [ho] at hm
    exact Bool.eq_false_of_not_eq_true fun hp => hm (if_pos hp)

theorem stepOf_eq_emit {charge : Option (MultiFrame × Option UInt32)} {parsed : Parsed ParseOutcome}
    {handled : Handled} {consumed n : Nat} :
    stepOf charge parsed consumed = .emit handled n ↔
      charge = handled.1 ∧ parsed = .ok handled.2 ∧ handled.2.isPending = false ∧ consumed = n := by
  unfold stepOf
  rcases handled with ⟨charge', outcome'⟩
  rcases parsed with message | outcome
  case error => simp
  case ok =>
    dsimp only
    cases hp : outcome.isPending
    case true =>
      simp
      rintro - rfl h
      rw [hp] at h
      contradiction
    case false =>
      simp
      constructor
      case mp =>
        rintro ⟨⟨rfl, rfl⟩, rfl⟩
        exact ⟨rfl, rfl, hp, rfl⟩
      case mpr =>
        rintro ⟨rfl, rfl, -, rfl⟩
        exact ⟨⟨rfl, rfl⟩, rfl⟩

theorem stepOf_eq_stop {charge : Option (MultiFrame × Option UInt32)} {parsed : Parsed ParseOutcome}
    {error : ErrorKind} {consumed n : Nat} (h : stepOf charge parsed consumed = .stop error n) :
    (∃ message, parsed = .error message) ∧ consumed = n := by
  unfold stepOf at h
  rcases parsed with message | outcome
  case error =>
    cases h
    exact ⟨⟨message, rfl⟩, rfl⟩
  case ok =>
    dsimp only at h
    split at h <;> contradiction

theorem consumed_handle {handled : Handled} {n : Nat}
    (h : (handle input tagged maxFrame scan).1 = .emit handled n) : 0 < n ∧ n ≤ input.length := by
  unfold handle at h
  split at h
  case h_1 =>
    obtain ⟨-, ho, hp, rfl⟩ := stepOf_eq_emit.mp h
    have hc := takes_parseRequestLimited ho
    rwa [if_neg (ne_true_of_eq_false hp)] at hc
  case h_2 heq =>
    obtain ⟨-, ho, hp, rfl⟩ := stepOf_eq_emit.mp h
    have hc := takes_parseRequestLimited ((congrArg Prod.fst heq).trans ho)
    rwa [if_neg (ne_true_of_eq_false hp), heq] at hc

def requests (tagged : Bool) (maxFrame : Nat) :
    Resumable.Parser UInt8 RequestScanState Handled ErrorKind where
  init             := {}
  parse scan input := handle input tagged maxFrame scan
  consumes h       := consumed_handle h

theorem requestOf_error {message : String}
    (h : (requestOf input tagged charged maxFrame).1 = .error message) :
    (requestOf input tagged charged maxFrame).2 = 0 := by
  obtain ⟨_, he⟩ := requestOf_append_error h []
  rw [List.append_nil] at he
  rw [he]

theorem view_append (h : view tagged maxFrame input ≠ .more) (chunk : Bytes) :
    view tagged maxFrame (input ++ chunk) = view tagged maxFrame input := by
  rcases hr : (requestOf input tagged false maxFrame).1 with message | outcome
  case error =>
    obtain ⟨_, he⟩ := requestOf_append_error hr chunk
    simp only [view, hr, he, requestOf_error hr]
    rfl
  case ok =>
    have hne : outcome ≠ .incomplete := by
      rintro rfl
      rw [view, hr] at h
      exact h rfl
    have ha := requestOf_append hr hne chunk
    by_cases hc : ∃ frame tag, outcome = .chargeRequired frame tag
    case pos =>
      obtain ⟨frame, tag, rfl⟩ := hc
      obtain ⟨outcome, ho, hp⟩ := requestOf_charged hr
      have hne' : outcome ≠ .incomplete := by
        rintro rfl
        contradiction
      rw [view, view, ha, requestOf_append ho hne']
    case neg =>
      have hne' : ∀ frame tag,
          (requestOf input tagged false maxFrame).1 ≠ .ok (.chargeRequired frame tag) := by
        intro frame tag he
        cases hr.symm.trans he
        exact hc ⟨frame, tag, rfl⟩
      rw [view_uncharged hne', view_uncharged (ha ▸ hne'), ha]

theorem view_stop {n : Nat} {error : ErrorKind} (h : view tagged maxFrame input = .stop error n) :
    n = 0 := by
  by_cases hc : ∃ frame tag, (requestOf input tagged false maxFrame).1 = .ok (.chargeRequired frame tag)
  case pos =>
    obtain ⟨frame, tag, hr⟩ := hc
    obtain ⟨outcome, ho, -⟩ := requestOf_charged hr
    rw [view, hr] at h
    obtain ⟨⟨_, he⟩, -⟩ := stepOf_eq_stop h
    cases ho.symm.trans he
  case neg =>
    rw [view_uncharged fun frame tag he => hc ⟨frame, tag, he⟩] at h
    obtain ⟨⟨_, he⟩, rfl⟩ := stepOf_eq_stop h
    exact requestOf_error he

theorem represents_requests (tagged : Bool) (maxFrame : Nat) :
    Resumable.Represents (requests tagged maxFrame) (view tagged maxFrame)
      (fun input scan => scan.Carried tagged maxFrame input) where
  nil             := rfl
  init _          := ⟨.fresh, rfl⟩
  parse h         := (handle_eq h).left
  more h _ chunk  := ⟨(handle_eq h).right.left.valid.append chunk, (handle_eq h).right.left.uncharged⟩
  emit h he       := ⟨(handle_eq h).right.right (by rw [he]; rintro ⟨⟩),
                      fun chunk => by rw [view_append (by rw [he]; rintro ⟨⟩), he]⟩
  stop he         := ⟨by rw [view_stop he]; exact Nat.zero_le _,
                      fun chunk => by rw [view_append (by rw [he]; rintro ⟨⟩), he]⟩

end Connection
end Nanocached.Proxy
