import Nanocached.Command.Frame
import Nanocached.Lib.Resumable

-- The parser does not depend on the chunks in which a connection receives its input.

namespace Nanocached.Wire

variable {input chunk : Bytes} {tagged charged : Bool} {progress : MigrateProgress}
variable {headerEnd : Nat} {command : Bytes} {parts : List Bytes}

-- The header of a frame with many keys, which has been parsed before.
inductive MultiHeader (tagged : Bool) (input : Bytes) (frameEnd frameKeys : Nat) : Prop
  | mk {headerEnd command parts plan rest values}
      (heads : Heads input headerEnd command parts)
      (parsed : parseHeader tagged command parts = .ok (plan, rest))
      (ends : fieldEnds (headerEnd + 1) plan.lengths = .ok frameEnd)
      (multi : plan.multi = some (frameKeys, values))

-- The entries of a roster, some of which have been gone over before.
inductive JoinedEntries (input : Bytes) (cursor entriesDone : Nat) : Prop
  | mk {headerEnd parts header rest start}
      (heads : Heads input headerEnd [77] parts)
      (parsed : parseMigrateHeader parts = .ok (header, rest))
      (starts : entriesStart input headerEnd header = .ok start)
      (done : entriesDone ≤ header.joinedCount)
      (skipped : skipJoined input entriesDone start = .ok cursor)

-- What is remembered is true of the buffer.
structure MigrateProgress.Valid (tagged : Bool) (input : Bytes) (progress : MigrateProgress) : Prop where
  line    : ∀ {headerEnd}, progress.lineEnd = some headerEnd → findLf input = some headerEnd
  reaches : progress.lineScannedTo ≤ input.length
  scanned : 10 ∉ input.take progress.lineScannedTo
  multi   : ∀ {frameEnd}, progress.frameEnd = some frameEnd →
              MultiHeader tagged input frameEnd progress.frameKeys
  joined  : progress.cursor ≠ 0 → JoinedEntries input progress.cursor progress.entriesDone

namespace MigrateProgress.Valid

theorem init : Valid tagged input {} where
  line h    := by contradiction
  reaches   := Nat.zero_le _
  scanned   := List.not_mem_nil
  multi h   := by contradiction
  joined h  := absurd rfl h

theorem append (h : progress.Valid tagged input) (chunk : Bytes) :
    progress.Valid tagged (input ++ chunk) where
  line hl   := findLf_append (h.line hl) chunk
  reaches   := h.reaches.trans (by rw [List.length_append]; omega)
  scanned   := by
    rw [List.take_append_of_le_length h.reaches]
    exact h.scanned
  multi hf  := by
    obtain ⟨hh, hp, he, hm⟩ := h.multi hf
    exact ⟨hh.append chunk, hp, he, hm⟩
  joined hc := by
    obtain ⟨hh, hp, hs, hd, hj⟩ := h.joined hc
    refine ⟨hh.append chunk, hp, entriesStart_append hs chunk, hd, ?_⟩
    rw [skipJoined_append (entriesStart_le hs).right (by rw [hj]; rintro ⟨⟩), hj]

-- The end of the line is found wherever the search goes on.
theorem findHeaderLineEnd_eq (h : progress.Valid tagged input) :
    (findHeaderLineEnd input progress).1 = findLf input ∧
      (findHeaderLineEnd input progress).2.Valid tagged input := by
  unfold findHeaderLineEnd
  split
  case h_1 lineEnd hl =>
    exact ⟨(h.line (Option.filter_eq_some_iff.mp hl).left).symm, h⟩
  case h_2 =>
    have hf := findLf_drop h.scanned h.reaches
    rw [Nat.min_eq_left h.reaches]
    dsimp only
    split
    case h_1 relative hr =>
      rw [hr] at hf
      exact ⟨hf.symm, { h with line := fun he => by cases he; exact hf }⟩
    case h_2 hr =>
      rw [hr] at hf
      refine ⟨hf.symm, { h with reaches := le_rfl, scanned := ?_ }⟩
      rw [List.take_length]
      exact fun hm => by simpa using List.findIdx?_eq_none_iff.mp hf _ hm

theorem heads_unique {headerEnd' : Nat} {command' : Bytes} {parts' : List Bytes}
    (h : Heads input headerEnd command parts) (h' : Heads input headerEnd' command' parts') :
    headerEnd = headerEnd' ∧ command = command' ∧ parts = parts' := by
  have hl := h.lf.symm.trans h'.lf
  cases hl
  have hf := h.fields.symm.trans h'.fields
  cases hf
  exact ⟨rfl, rfl, rfl⟩

-- The scan of the entries goes on where it has been left, or else starts with the first of them.
theorem resumed {header : MigrateHeader} {rest : List Bytes} {start : Nat}
    (h : progress.Valid tagged input) (hh : Heads input headerEnd [77] parts)
    (hp : parseMigrateHeader parts = .ok (header, rest))
    (hs : entriesStart input headerEnd header = .ok start)
    (hr : resumable input headerEnd start header progress = true) :
    progress.entriesDone ≤ header.joinedCount ∧
      skipJoined input progress.entriesDone start = .ok progress.cursor := by
  simp only [resumable, Bool.and_eq_true, decide_eq_true_eq] at hr
  have hc : progress.cursor ≠ 0 := by
    have hle := entriesStart_le hs
    omega
  obtain ⟨hh', hp', hs', hd, hj⟩ := h.joined hc
  obtain ⟨rfl, -, rfl⟩ := heads_unique hh hh'
  cases hp.symm.trans hp'
  cases hs.symm.trans hs'
  exact ⟨hd, hj⟩

-- A frame is the same whether or not some of its entries have been gone over before.
theorem parseMigrate_eq {header : MigrateHeader} {rest : List Bytes}
    (h : progress.Valid tagged input) (hh : Heads input headerEnd [77] parts)
    (hp : parseMigrateHeader parts = .ok (header, rest)) :
    ((parseMigrate input headerEnd header progress).1,
        (parseMigrate input headerEnd header progress).2.2) =
      migrateFrame input headerEnd header ∧
    (parseMigrate input headerEnd header progress).2.1.Valid tagged input := by
  unfold parseMigrate migrateFrame
  cases hs : entriesStart input headerEnd header
  case error => exact ⟨rfl, h⟩
  case ok start =>
    dsimp only
    generalize hcur : (if resumable input headerEnd start header progress then progress.cursor
      else start) = cursor
    generalize hdone : (if resumable input headerEnd start header progress then progress.entriesDone
      else 0) = done
    have hsk : done ≤ header.joinedCount ∧ skipJoined input done start = .ok cursor := by
      by_cases hr : resumable input headerEnd start header progress = true
      case pos =>
        rw [if_pos hr] at hcur hdone
        subst hcur hdone
        exact h.resumed hh hp hs hr
      case neg =>
        rw [if_neg hr] at hcur hdone
        subst hcur hdone
        exact ⟨Nat.zero_le _, rfl⟩
    have hall : skipJoined input header.joinedCount start =
        skipJoined input (header.joinedCount - done) cursor := by
      rw [← Nat.add_sub_cancel' hsk.left, skipJoined_add, hsk.right, Nat.add_sub_cancel_left]
      rfl
    generalize hprog : (MigrateProgress.mk headerEnd header.joinedCount cursor done (some headerEnd)
      progress.lineScannedTo none 0) = progress'
    have hcur' : progress'.cursor = cursor := by rw [← hprog]
    have hres := scanJoined_eq input (header.joinedCount - done) progress'
    obtain ⟨m, cursor', hm, hskip, hok, hsc⟩ :=
      scanJoined_progress input (header.joinedCount - done) progress'
    have hv : (scanJoined input (header.joinedCount - done) progress').2.Valid tagged input := by
      rw [hsc]
      subst hprog
      refine { h with line := ?_, multi := ?_, joined := fun _ => ⟨hh, hp, hs, ?_, ?_⟩ }
      case refine_1 =>
        rintro _ ⟨⟩
        exact hh.lf
      case refine_2 => rintro _ ⟨⟩
      case refine_3 => dsimp only; omega
      case refine_4 =>
        rw [skipJoined_add, hsk.right]
        exact hskip
    rw [hall]
    rcases hscan : scanJoined input (header.joinedCount - done) progress' with ⟨error | _, progress''⟩
    case error =>
      rw [hscan] at hres hv
      rw [hcur'] at hres
      cases hc : skipJoined input (header.joinedCount - done) cursor
      case error =>
        rw [hc] at hres
        cases hres
        exact ⟨rfl, hv⟩
      case ok =>
        rw [hc] at hres
        contradiction
    case ok =>
      rw [hscan] at hv hsc hok
      rw [← hcur', ← hok rfl, hskip]
      cases hsc
      exact ⟨rfl, hv⟩

theorem takeFrame_eq {plan : Plan} {rest : List Bytes} (h : progress.Valid tagged input)
    (hh : Heads input headerEnd command parts)
    (hp : parseHeader tagged command parts = .ok (plan, rest)) :
    ((takeFrame input progress charged headerEnd plan).1,
        (takeFrame input progress charged headerEnd plan).2.2) =
      planFrame input charged headerEnd plan ∧
    (takeFrame input progress charged headerEnd plan).2.1.Valid tagged input := by
  unfold takeFrame planFrame
  cases he : fieldEnds (headerEnd + 1) plan.lengths
  case error => exact ⟨rfl, h⟩
  case ok frameEnd =>
    rcases hm : plan.multi with _ | ⟨keys, values⟩
    case none =>
      dsimp only [Option.elim, Option.filter]
      split
      case isTrue  => exact ⟨rfl, h⟩
      case isFalse => exact ⟨rfl, h⟩
    case some =>
      have hv : MigrateProgress.Valid tagged input
          { progress with frameEnd := some frameEnd, frameKeys := keys } :=
        { h with multi := fun hf => by cases hf; exact ⟨hh, hp, he, hm⟩ }
      dsimp only [Option.elim, multiFrameGate]
      by_cases hl : input.length < frameEnd
      case pos =>
        simp only [if_pos hl]
        exact ⟨trivial, hv⟩
      case neg =>
        simp only [if_neg hl]
        cases charged
        case false => exact ⟨rfl, hv⟩
        case true  => exact ⟨rfl, hv⟩

-- The header is not parsed again while the frame is not complete.
theorem multiFrameGate_eq (h : progress.Valid tagged input)
    (hh : Heads input headerEnd command parts) :
    (multiCommand command).elim (.ok ()) (multiFrameGate input.length progress charged) = .ok () ∨
    ∃ error plan rest, (multiCommand command).elim (.ok ())
        (multiFrameGate input.length progress charged) = .error error ∧
      parseHeader tagged command parts = .ok (plan, rest) ∧
      planFrame input charged headerEnd plan = (.error error, 0) := by
  cases hv : multiCommand command
  case none => exact .inl rfl
  case some values =>
    dsimp only [Option.elim]
    cases hf : progress.frameEnd
    case none =>
      rw [multiFrameGate, hf]
      exact .inl rfl
    case some frameEnd =>
      obtain ⟨hh', hp, he, hm⟩ := h.multi hf
      obtain ⟨rfl, rfl, rfl⟩ := heads_unique hh hh'
      cases hv.symm.trans (((gives_parseHeader _ _).ok hp).multi hm)
      rw [multiFrameGate, hf]
      dsimp only
      by_cases hl : input.length < frameEnd
      case pos =>
        refine .inr ⟨.incomplete, _, _, if_pos hl, hp, ?_⟩
        simp only [planFrame, he, if_pos hl]
      case neg =>
        rw [if_neg hl]
        cases charged
        case false =>
          refine .inr ⟨.chargeRequired progress.frameKeys values frameEnd, _, _, rfl, hp, ?_⟩
          simp only [planFrame, he, if_neg hl, hm]
          rfl
        case true => exact .inl rfl

-- What is parsed is what there is in the buffer, and what is remembered is true of it again.
theorem parseWithMode_eq (h : progress.Valid tagged input) (charged : Bool) :
    ((parseWithMode input tagged progress charged).1,
        (parseWithMode input tagged progress charged).2.2) = frameOf input tagged charged ∧
    (parseWithMode input tagged progress charged).2.1.Valid tagged input := by
  obtain ⟨hl, h⟩ := h.findHeaderLineEnd_eq
  unfold parseWithMode
  generalize findHeaderLineEnd input progress = found at hl h ⊢
  rcases found with ⟨line, progress⟩
  dsimp only at hl h ⊢
  subst hl
  rcases heads_cases input with hf | ⟨headerEnd, command, parts, hh⟩
  case inl =>
    simp only [frameOf, hf]
    exact ⟨trivial, h⟩
  case inr =>
    by_cases hc : command = [77]
    case pos =>
      subst hc
      rw [hh.frameOf_migrate]
      simp only [hh.lf, hh.fields]
      rcases hp : parseMigrateHeader parts with error | ⟨header, rest⟩
      case error => exact ⟨rfl, h⟩
      case ok =>
        obtain ⟨he, hv⟩ := h.parseMigrate_eq hh hp
        rw [framed, ← he]
        exact ⟨rfl, hv⟩
    case neg =>
      rw [hh.frameOf_plan hc]
      simp only [hh.lf, hh.fields]
      rcases h.multiFrameGate_eq hh with hg | ⟨error, plan, rest, hg, hp, he⟩
      case inl =>
        rw [hg]
        rcases hp : parseHeader tagged command parts with error | ⟨plan, rest⟩
        case error => exact ⟨rfl, h⟩
        case ok    => exact h.takeFrame_eq hh hp
      case inr =>
        rw [hg, hp]
        exact ⟨he.symm, h⟩

end MigrateProgress.Valid

section Consumed

variable {α : Type} {a : α} {error : ParseError} {header : MigrateHeader} {plan : Plan}

-- A frame that is taken off the buffer is not empty and in the buffer.
def Takes (input : Bytes) (parsed : Except ParseError α × MigrateProgress × Nat) : Prop :=
  ∀ {a}, parsed.1 = .ok a → 0 < parsed.2.2 ∧ parsed.2.2 ≤ input.length

theorem takes_parseMigrate : Takes input (parseMigrate input headerEnd header progress) := by
  intro parsed h
  unfold parseMigrate at h ⊢
  cases hs : entriesStart input headerEnd header
  case error =>
    rw [hs] at h
    contradiction
  case ok start =>
    rw [hs] at h
    dsimp only at h ⊢
    generalize hprog : (MigrateProgress.mk headerEnd header.joinedCount
      (if resumable input headerEnd start header progress then progress.cursor else start)
      (if resumable input headerEnd start header progress then progress.entriesDone else 0)
      (some headerEnd) progress.lineScannedTo none 0) = progress' at h ⊢
    generalize (header.joinedCount - if resumable input headerEnd start header progress then
      progress.entriesDone else 0) = entries at h ⊢
    have hc : start ≤ progress'.cursor ∧ progress'.cursor ≤ input.length := by
      have hle := entriesStart_le hs
      rw [← hprog]
      dsimp only
      split
      case isTrue hr =>
        simp only [resumable, Bool.and_eq_true, decide_eq_true_eq] at hr
        omega
      case isFalse => exact ⟨le_rfl, hle.right⟩
    have hlt := (entriesStart_le hs).left
    obtain ⟨m, cursor, -, hskip, -, hsc⟩ :=
      scanJoined_progress input entries progress'
    have hle := skipJoined_le hc.right hskip
    rcases hscan : scanJoined input entries progress' with ⟨error | _, progress''⟩
    case error =>
      rw [hscan] at h
      contradiction
    case ok =>
      rw [hscan] at hsc
      cases hsc
      dsimp only
      omega

theorem takes_takeFrame : Takes input (takeFrame input progress charged headerEnd plan) := by
  intro parsed h
  unfold takeFrame at h ⊢
  cases he : fieldEnds (headerEnd + 1) plan.lengths
  case error =>
    rw [he] at h
    contradiction
  case ok frameEnd =>
    have hend := fieldEnds_eq_ok he
    rw [he] at h
    dsimp only at h ⊢
    split at h
    case h_1 => contradiction
    case h_2 =>
      split at h
      case isTrue  => contradiction
      case isFalse hl =>
        rw [if_neg hl]
        dsimp only
        omega

theorem takes_parseWithMode : Takes input (parseWithMode input tagged progress charged) := by
  intro parsed
  unfold parseWithMode
  rcases findHeaderLineEnd input progress with ⟨_ | headerEnd, progress⟩
  case none => rintro ⟨⟩
  case some =>
    dsimp only
    split
    case h_1 => rintro ⟨⟩
    case h_2 parts _ =>
      rcases parseMigrateHeader parts with error | ⟨header, rest⟩
      case error => rintro ⟨⟩
      case ok =>
        intro h
        dsimp only at h ⊢
        cases hp : (parseMigrate input headerEnd header progress).1
        case error =>
          rw [hp] at h
          contradiction
        case ok => exact takes_parseMigrate hp
    case h_3 =>
      split
      case h_1 => rintro ⟨⟩
      case h_2 =>
        split
        case h_1 => rintro ⟨⟩
        case h_2 => exact takes_takeFrame

end Consumed

theorem frameOf_uncharged (input : Bytes) (tagged : Bool) :
    (∃ keys values frameLen,
      (frameOf input tagged false).1 = .error (.chargeRequired keys values frameLen)) ∨
    frameOf input tagged false = frameOf input tagged true := by
  rcases heads_cases input with hf | ⟨headerEnd, command, parts, hh⟩
  case inl => exact .inr (by rw [frameOf, frameOf, hf])
  case inr =>
    by_cases hc : command = [77]
    case pos =>
      subst hc
      exact .inr (by rw [hh.frameOf_migrate, hh.frameOf_migrate])
    case neg =>
      rw [hh.frameOf_plan hc, hh.frameOf_plan hc]
      rcases parseHeader tagged command parts with error | ⟨plan, rest⟩
      case error => exact .inr rfl
      case ok =>
        dsimp only [framed, planFrame]
        cases fieldEnds (headerEnd + 1) plan.lengths
        case error => exact .inr rfl
        case ok frameEnd =>
          dsimp only
          split
          case isTrue => exact .inr rfl
          case isFalse =>
            rcases plan.multi with _ | ⟨keys, values⟩
            case none => exact .inr rfl
            case some => exact .inl ⟨keys, values, frameEnd, rfl⟩

theorem parseResumable_eq (h : progress.Valid tagged input) (charged : Bool) :
    ((parseResumable input tagged progress charged).1,
        (parseResumable input tagged progress charged).2.2) = frameOf input tagged charged ∧
    (parseResumable input tagged progress charged).2.1.Valid tagged input := by
  obtain ⟨he, hv⟩ := h.parseWithMode_eq charged
  unfold parseResumable
  generalize parseWithMode input tagged progress charged = parsed at he hv ⊢
  rcases parsed with ⟨error | parsed, progress', consumed⟩
  case error =>
    refine ⟨he, ?_⟩
    dsimp only
    split
    case isTrue  => exact hv
    case isFalse => exact .init
  case ok => exact ⟨he, .init⟩

-- What is remembered is forgotten with the frame.
theorem parseResumable_settled (h : Settled (parseResumable input tagged progress charged).1) :
    (parseResumable input tagged progress charged).2.1 = {} := by
  unfold parseResumable at h ⊢
  generalize parseWithMode input tagged progress charged = parsed at h ⊢
  rcases parsed with ⟨error | parsed, progress', consumed⟩
  case error => exact if_neg (ne_true_of_eq_false (h _ rfl))
  case ok    => rfl

theorem takes_parseResumable : Takes input (parseResumable input tagged progress charged) := by
  have ht : Takes input (parseWithMode input tagged progress charged) := takes_parseWithMode
  unfold parseResumable
  generalize parseWithMode input tagged progress charged = parsed at ht ⊢
  rcases parsed with ⟨error | parsed, progress', consumed⟩
  case error => rintro _ ⟨⟩
  case ok    => exact fun {_} h => ht h

-- The buffer and the progress with which the parser is called again.
inductive Carried (tagged : Bool) : Bytes → MigrateProgress → Prop
  | fresh (input : Bytes) : Carried tagged input {}
  | pending {input progress charged error} (chunk : Bytes) :
      Carried tagged input progress →
      (parseResumable input tagged progress charged).1 = .error error →
      error.isPending = true →
      Carried tagged
        (input.drop (parseResumable input tagged progress charged).2.2 ++ chunk)
        (parseResumable input tagged progress charged).2.1

theorem consumed_of_pending {error : ParseError} (h : progress.Valid tagged input)
    (he : (parseResumable input tagged progress charged).1 = .error error)
    (hp : error.isPending = true) : (parseResumable input tagged progress charged).2.2 = 0 := by
  obtain ⟨hf, -⟩ := parseResumable_eq h charged
  have hc : Consumes (frameOf input tagged charged) input.length := consumes_frameOf
  rw [← hf] at hc
  exact hc.pending he hp

theorem Carried.valid (h : Carried tagged input progress) : progress.Valid tagged input := by
  induction h
  case fresh => exact .init
  case pending charged error chunk _ he hp hv =>
    rw [consumed_of_pending hv he hp]
    exact (parseResumable_eq hv charged).right.append chunk

section Connection

-- A connection charges a frame with many keys as soon as the parser asks for it.
def parseCharging (input : Bytes) (tagged : Bool) (progress : MigrateProgress) :
    Except ParseError (Command × Option UInt32) × MigrateProgress × Nat :=
  match parseResumable input tagged progress false with
  | (.error (.chargeRequired ..), progress, _) => parseResumable input tagged progress true
  | parsed                                     => parsed

theorem parseCharging_cases (input : Bytes) (tagged : Bool) (progress : MigrateProgress) :
    (∃ keys values frameLen, (parseResumable input tagged progress false).1 =
        .error (.chargeRequired keys values frameLen) ∧
      parseCharging input tagged progress =
        parseResumable input tagged (parseResumable input tagged progress false).2.1 true) ∨
    ((∀ keys values frameLen, (parseResumable input tagged progress false).1 ≠
        .error (.chargeRequired keys values frameLen)) ∧
      parseCharging input tagged progress = parseResumable input tagged progress false) := by
  unfold parseCharging
  split
  case h_1 keys values frameLen progress' _ he =>
    rw [he]
    exact .inl ⟨keys, values, frameLen, rfl, rfl⟩
  case h_2 hne =>
    refine .inr ⟨fun keys values frameLen he => ?_, rfl⟩
    exact hne keys values frameLen _ _ (Prod.ext he rfl)

theorem parseCharging_eq (h : progress.Valid tagged input) :
    ((parseCharging input tagged progress).1, (parseCharging input tagged progress).2.2) =
      frameOf input tagged true ∧
    (parseCharging input tagged progress).2.1.Valid tagged input ∧
    (Settled (parseCharging input tagged progress).1 →
      (parseCharging input tagged progress).2.1 = {}) := by
  obtain ⟨hf, hv⟩ := parseResumable_eq h false
  rcases parseCharging_cases input tagged progress with ⟨_, _, _, -, he⟩ | ⟨hne, he⟩
  case inl =>
    obtain ⟨hf', hv'⟩ := parseResumable_eq hv true
    rw [he]
    exact ⟨hf', hv', parseResumable_settled⟩
  case inr =>
    rw [he]
    refine ⟨?_, hv, parseResumable_settled⟩
    rcases frameOf_uncharged input tagged with ⟨keys, values, frameLen, hc⟩ | hc
    case inl =>
      rw [← hf] at hc
      exact absurd hc (hne _ _ _)
    case inr => rw [hf, hc]

theorem takes_parseCharging : Takes input (parseCharging input tagged progress) := by
  rcases parseCharging_cases input tagged progress with ⟨_, _, _, -, he⟩ | ⟨-, he⟩
  all_goals
    rw [he]
    exact takes_parseResumable

def stepOf (parsed : Except ParseError (Command × Option UInt32)) (consumed : Nat) :
    Resumable.Step (Command × Option UInt32) ParseError :=
  match parsed with
  | .ok command  => .emit command consumed
  | .error error => if error.isPending then .more else .stop error consumed

theorem stepOf_eq_emit {parsed : Except ParseError (Command × Option UInt32)}
    {result : Command × Option UInt32} {consumed n : Nat} :
    stepOf parsed consumed = .emit result n ↔ parsed = .ok result ∧ consumed = n := by
  unfold stepOf
  cases parsed
  case error =>
    dsimp only
    split <;> simp
  case ok => simp

theorem stepOf_eq_stop {parsed : Except ParseError (Command × Option UInt32)}
    {error : ParseError} {consumed n : Nat} :
    stepOf parsed consumed = .stop error n ↔
      parsed = .error error ∧ error.isPending = false ∧ consumed = n := by
  unfold stepOf
  cases parsed
  case error e =>
    dsimp only
    cases hp : e.isPending
    case true =>
      simp
      rintro rfl h
      rw [hp] at h
      contradiction
    case false =>
      simp
      rintro rfl
      simp [hp]
  case ok => simp

def requests (tagged : Bool) :
    Resumable.Parser UInt8 MigrateProgress (Command × Option UInt32) ParseError where
  init                 := {}
  parse progress input :=
    let (parsed, progress, consumed) := parseCharging input tagged progress
    (stepOf parsed consumed, progress)
  consumes h           := by
    obtain ⟨hp, rfl⟩ := stepOf_eq_emit.mp h
    exact takes_parseCharging hp

-- What the front of a buffer is once it has been charged.
def view (tagged : Bool) (input : Bytes) : Resumable.Step (Command × Option UInt32) ParseError :=
  stepOf (frameOf input tagged true).1 (frameOf input tagged true).2

theorem view_append (h : view tagged input ≠ .more) (chunk : Bytes) :
    view tagged (input ++ chunk) = view tagged input := by
  have hne : (frameOf input tagged true).1 ≠ .error .incomplete := by
    intro he
    rw [view, he] at h
    exact h rfl
  rw [view, frameOf_append hne, view]

theorem requests_parse (h : progress.Valid tagged input) :
    ((requests tagged).parse progress input).1 = view tagged input := by
  have he := (parseCharging_eq h).left
  rw [view, ← he]
  rfl

theorem represents_requests (tagged : Bool) :
    Resumable.Represents (requests tagged) (view tagged)
      (fun input progress => progress.Valid tagged input) where
  nil             := rfl
  init _          := .init
  parse h         := requests_parse h
  more h _ chunk  := (parseCharging_eq h).right.left.append chunk
  emit h he       := by
    obtain ⟨hp, rfl⟩ := stepOf_eq_emit.mp he
    refine ⟨?_, fun chunk => ?_⟩
    case refine_1 =>
      obtain ⟨hf, -, hs⟩ := parseCharging_eq h
      rw [← hf] at hp
      exact hs (by rw [hp]; exact settled_ok)
    case refine_2 => rw [view_append (by rw [he]; rintro ⟨⟩), he]
  stop he         := by
    refine ⟨?_, fun chunk => ?_⟩
    case refine_1 =>
      obtain ⟨-, -, rfl⟩ := stepOf_eq_stop.mp he
      exact consumes_frameOf.le
    case refine_2 => rw [view_append (by rw [he]; rintro ⟨⟩), he]

-- The chunks in which the input arrives make no difference to the requests that are parsed, to the
-- error the parser stops at and to what is left in the buffer, from which nothing is taken as long as
-- a frame is not complete or not charged.
theorem parse_of_chunks (tagged : Bool) :
    (∀ chunks : List Bytes, (requests tagged).feed {} [] chunks =
      ((requests tagged).drain {} chunks.flatten).1) ∧
    ∀ input progress charged error, Carried tagged input progress →
      (parseResumable input tagged progress charged).1 = .error error → error.isPending = true →
        (parseResumable input tagged progress charged).2.2 = 0 :=
  ⟨(represents_requests tagged).feed_eq,
    fun _ _ _ _ hc he hp => consumed_of_pending hc.valid he hp⟩

-- The first bytes of `m 0 1 1\nk`, which arrive in three chunks.
theorem parse_of_chunks_multiGet :
    (requests false).feed {} [] [[109, 32, 48], [32, 49, 32, 49, 10], [107]] =
      ((requests false).drain {} [109, 32, 48, 32, 49, 32, 49, 10, 107]).1 ∧
    (parseResumable [109, 32, 48, 32, 49, 32, 49, 10, 107] false {} false).1 =
      .error (.chargeRequired 1 false 9) ∧
    (parseResumable [109, 32, 48, 32, 49, 32, 49, 10, 107] false {} false).2.2 = 0 :=
  ⟨(parse_of_chunks false).left _, rfl,
    (parse_of_chunks false).right _ _ _ _ (.fresh _) rfl rfl⟩

end Connection
end Nanocached.Wire
