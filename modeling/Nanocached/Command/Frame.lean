import Nanocached.Command.Settled

-- What the bytes at the front of a buffer are, regardless of how they have arrived.

namespace Nanocached.Wire

variable {input chunk : Bytes} {tagged charged : Bool} {progress : MigrateProgress}
variable {headerEnd cursor cursor' start n : Nat} {header : MigrateHeader} {plan : Plan}

section Lines

theorem findLf_append (h : findLf input = some n) (chunk : Bytes) :
    findLf (input ++ chunk) = some n := by
  rw [findLf] at h ⊢
  rw [List.findIdx?_append, h]
  rfl

theorem findLf_lt (h : findLf input = some n) : n < input.length :=
  (List.findIdx?_eq_some_iff_getElem.mp h).choose

theorem take_append_of_findLf (h : findLf input = some n) (chunk : Bytes) :
    (input ++ chunk).take n = input.take n :=
  List.take_append_of_le_length (findLf_lt h).le

-- Bytes which have been searched before do not have to be searched again.
theorem findLf_drop (h : 10 ∉ input.take n) (hn : n ≤ input.length) :
    findLf input = (findLf (input.drop n)).map (n + ·) := by
  rw [findLf, findLf]
  nth_rewrite 1 [← List.take_append_drop n input]
  have hnone : (input.take n).findIdx? (· == 10) = none :=
    List.findIdx?_eq_none_iff.mpr fun b hb => beq_eq_false_iff_ne.mpr fun he => h (he ▸ hb)
  rw [List.findIdx?_append, hnone, List.length_take, Nat.min_eq_left hn, Option.none_or]
  simp [Nat.add_comm]

end Lines

section Pure

-- Where the given number of entries from a place on ends.
def skipJoined (input : Bytes) : Nat → Nat → Except ParseError Nat
  | 0, cursor     => .ok cursor
  | n + 1, cursor => do skipJoined input n (← nextJoinedEntry input cursor).next

-- A frame with the entries of a roster, parsed at once.
def migrateFrame (input : Bytes) (headerEnd : Nat) (header : MigrateHeader) :
    Except ParseError Command × Nat :=
  match entriesStart input headerEnd header with
  | .error error => (.error error, 0)
  | .ok start    =>
    match skipJoined input header.joinedCount start with
    | .error error => (.error error, 0)
    | .ok cursor   => (decodeMigrate (input.take cursor) headerEnd start header, cursor)

-- Any other frame, parsed at once.
def planFrame (input : Bytes) (charged : Bool) (headerEnd : Nat) (plan : Plan) :
    Except ParseError (Command × Option UInt32) × Nat :=
  match fieldEnds (headerEnd + 1) plan.lengths with
  | .error error => (.error error, 0)
  | .ok frameEnd =>
    if input.length < frameEnd then (.error .incomplete, 0)
    else
      match plan.multi.filter fun _ => !charged with
      | some (keys, values) => (.error (.chargeRequired keys values frameEnd), 0)
      | none =>
        let body := (input.take frameEnd).drop (headerEnd + 1)
        ((plan.finish (cut plan.lengths body)).map (·, plan.tag), frameEnd)

-- A header that is no header ends the frame.
def framed {α β : Type} (header : Except ParseError (α × List Bytes))
    (frame : α → Except ParseError β × Nat) : Except ParseError β × Nat :=
  match header with
  | .error error => (.error error, 0)
  | .ok (a, _)   => frame a

def frameOf (input : Bytes) (tagged charged : Bool) :
    Except ParseError (Command × Option UInt32) × Nat :=
  match findLf input with
  | none           => (.error .incomplete, 0)
  | some headerEnd =>
    match (input.take headerEnd).splitOn 32 with
    | []               => (.error .invalidCommand, 0)
    | [77] :: parts    =>
      framed (parseMigrateHeader parts) fun header =>
        let (command, consumed) := migrateFrame input headerEnd header
        (command.map (·, none), consumed)
    | command :: parts => framed (parseHeader tagged command parts) (planFrame input charged headerEnd)

end Pure

section Entries

theorem le_of_checkedAddUsize {a b c : Nat} (h : checkedAddUsize a b = .ok c) : c = a + b := by
  rw [checkedAddUsize] at h
  split at h
  case isTrue  => cases h; rfl
  case isFalse => contradiction

theorem fieldEnds_eq_ok {lengths : List Nat} {frameEnd : Nat}
    (h : fieldEnds start lengths = .ok frameEnd) : frameEnd = start + lengths.sum := by
  induction lengths generalizing start
  case nil => cases h; rfl
  case cons length lengths hi =>
    rw [fieldEnds, List.foldlM_cons] at h
    cases hc : checkedAddUsize start length
    case error => rw [hc] at h; contradiction
    case ok cursor =>
      rw [hc] at h
      rw [hi h, le_of_checkedAddUsize hc, List.sum_cons, Nat.add_assoc]

theorem settled_entryLengths {line : Bytes} : Settled (entryLengths line) := by
  unfold entryLengths
  split
  case h_1 =>
    refine settled_bind settled_parseLength fun _ => settled_bind settled_parseLength fun _ => ?_
    split
    case isTrue  => exact settled_error rfl
    case isFalse => exact settled_ok
  case h_2 => exact settled_error rfl

-- What a roster entry is made of only depends on its line.
theorem joinedEntry_cases (nameStart : Nat) (line : Bytes) :
    (∃ error, ParseError.isPending error = false ∧
      ∀ input, joinedEntry input nameStart line = .error error) ∨
    ∃ nameLength addrLength, ∀ input, joinedEntry input nameStart line =
      if input.length < nameStart + (nameLength + addrLength) then .error .incomplete
      else .ok ⟨(input.drop nameStart).take nameLength,
        ((input.drop nameStart).drop nameLength).take addrLength,
        nameStart + (nameLength + addrLength)⟩ := by
  unfold joinedEntry
  rcases hl : entryLengths line with error | ⟨nameLength, addrLength⟩
  case error => exact .inl ⟨error, settled_entryLengths _ hl, fun _ => rfl⟩
  case ok =>
    cases hn : fieldEnds nameStart [nameLength, addrLength]
    case error error =>
      refine .inl ⟨error, settled_fieldEnds _ hn, fun _ => ?_⟩
      simp only [bind, Except.bind, hn]
    case ok next =>
      refine .inr ⟨nameLength, addrLength, fun input => ?_⟩
      have hs : next = nameStart + (nameLength + addrLength) := by simpa using fieldEnds_eq_ok hn
      simp only [bind, Except.bind, hn, hs]
      split <;> rfl

-- Where the line of an entry is looked for.
theorem window_append (hc : cursor ≤ input.length) :
    ((input ++ chunk).drop cursor).take (maxRosterLineLen + 1) =
      (input.drop cursor).take (maxRosterLineLen + 1) ++
        chunk.take (maxRosterLineLen + 1 - (input.drop cursor).length) := by
  rw [List.drop_append_of_le_length hc, List.take_append]

-- Only the last part of a roster may still have to arrive.
theorem nextJoinedEntry_append (hc : cursor ≤ input.length)
    (h : nextJoinedEntry input cursor ≠ .error .incomplete) (chunk : Bytes) :
    nextJoinedEntry (input ++ chunk) cursor = nextJoinedEntry input cursor := by
  unfold nextJoinedEntry at h ⊢
  rw [window_append hc]
  cases hf : findLf ((input.drop cursor).take (maxRosterLineLen + 1))
  case none =>
    simp only [hf] at h
    have hl : input.length - cursor > maxRosterLineLen := by
      by_contra hl
      exact h (if_neg hl)
    have hz : maxRosterLineLen + 1 - (input.drop cursor).length = 0 := by
      rw [List.length_drop]
      omega
    rw [hz, List.take_zero, List.append_nil]
    simp only [hf]
    rw [if_pos hl, if_pos (by rw [List.length_append]; omega)]
  case some offset =>
    simp only [hf, findLf_append hf, take_append_of_findLf hf] at h ⊢
    rcases joinedEntry_cases (cursor + offset + 1)
      (((input.drop cursor).take (maxRosterLineLen + 1)).take offset) with
      ⟨e, -, he⟩ | ⟨nameLength, addrLength, he⟩
    case inl => rw [he, he]
    case inr =>
      have hl : ¬input.length < cursor + offset + 1 + (nameLength + addrLength) := by
        intro hl
        rw [he, if_pos hl] at h
        exact h rfl
      rw [he, he, if_neg hl, if_neg (by rw [List.length_append]; omega),
        List.drop_append_of_le_length (by omega),
        List.take_append_of_le_length (by rw [List.length_drop]; omega),
        List.drop_append_of_le_length (by rw [List.length_drop]; omega),
        List.take_append_of_le_length (by rw [List.length_drop, List.length_drop]; omega)]

theorem joinedEntry_next {entry : JoinedEntry} {line : Bytes}
    (h : joinedEntry input start line = .ok entry) :
    start ≤ entry.next ∧ entry.next ≤ input.length := by
  rcases joinedEntry_cases start line with ⟨e, -, he⟩ | ⟨nameLength, addrLength, he⟩
  case inl =>
    rw [he] at h
    contradiction
  case inr =>
    rw [he] at h
    split at h
    case isTrue => contradiction
    case isFalse hl =>
      cases h
      exact ⟨Nat.le_add_right _ _, Nat.le_of_not_lt hl⟩

theorem nextJoinedEntry_next {entry : JoinedEntry} (h : nextJoinedEntry input cursor = .ok entry) :
    cursor < entry.next ∧ entry.next ≤ input.length := by
  unfold nextJoinedEntry at h
  dsimp only at h
  split at h
  case h_1 offset _ =>
    have hn := joinedEntry_next h
    omega
  case h_2 => split at h <;> contradiction

theorem skipJoined_add (m n : Nat) :
    skipJoined input (m + n) cursor = skipJoined input m cursor >>= skipJoined input n := by
  induction m generalizing cursor
  case zero => rw [Nat.zero_add]; rfl
  case succ m hi =>
    rw [Nat.add_right_comm, skipJoined, skipJoined]
    cases nextJoinedEntry input cursor
    case error => rfl
    case ok    => exact hi

theorem skipJoined_le (hc : cursor ≤ input.length)
    (h : skipJoined input n cursor = .ok cursor') : cursor ≤ cursor' ∧ cursor' ≤ input.length := by
  induction n generalizing cursor
  case zero =>
    cases h
    exact ⟨le_rfl, hc⟩
  case succ n hi =>
    rw [skipJoined] at h
    cases he : nextJoinedEntry input cursor
    case error =>
      rw [he] at h
      contradiction
    case ok entry =>
      rw [he] at h
      have hn := nextJoinedEntry_next he
      have hi := hi hn.right h
      omega

theorem skipJoined_append (hc : cursor ≤ input.length)
    (h : skipJoined input n cursor ≠ .error .incomplete) (chunk : Bytes) :
    skipJoined (input ++ chunk) n cursor = skipJoined input n cursor := by
  induction n generalizing cursor
  case zero => rfl
  case succ n hi =>
    have hne : nextJoinedEntry input cursor ≠ .error .incomplete := by
      intro he
      rw [skipJoined, he] at h
      exact h rfl
    rw [skipJoined] at h ⊢
    rw [skipJoined, nextJoinedEntry_append hc hne]
    cases he : nextJoinedEntry input cursor
    case error => rfl
    case ok entry =>
      rw [he] at h
      exact hi (nextJoinedEntry_next he).right h

-- An entry does not depend on what follows it.
theorem nextJoinedEntry_of_append {entry : JoinedEntry}
    (h : nextJoinedEntry (input ++ chunk) cursor = .ok entry) (hn : entry.next ≤ input.length) :
    nextJoinedEntry input cursor = .ok entry := by
  have hc : cursor ≤ input.length := (nextJoinedEntry_next h).left.le.trans hn
  rw [← h]
  refine (nextJoinedEntry_append hc (fun hi => ?_) chunk).symm
  unfold nextJoinedEntry at h hi
  rw [window_append hc] at h
  cases hf : findLf ((input.drop cursor).take (maxRosterLineLen + 1))
  case none =>
    dsimp only at h
    split at h
    case h_1 offset ho =>
      -- The line would end beyond what there is of the input.
      rw [findLf] at hf ho
      rw [List.findIdx?_append, hf, Option.none_or] at ho
      obtain ⟨k, hk, rfl⟩ := Option.map_eq_some_iff.mp ho
      have hk := findLf_lt hk
      have hn' := joinedEntry_next h
      simp only [List.length_take, List.length_drop] at hk hn'
      omega
    case h_2 => split at h <;> contradiction
  case some offset =>
    simp only [hf, findLf_append hf, take_append_of_findLf hf] at h hi
    rcases joinedEntry_cases (cursor + offset + 1)
      (((input.drop cursor).take (maxRosterLineLen + 1)).take offset) with
      ⟨e, -, he⟩ | ⟨nameLength, addrLength, he⟩
    case inl =>
      rw [he] at h
      contradiction
    case inr =>
      rw [he] at h hi
      split at h
      case isTrue => contradiction
      case isFalse =>
        cases h
        rw [if_neg (Nat.not_lt.mpr hn)] at hi
        contradiction

theorem nextJoinedEntry_take {entry : JoinedEntry} {frameEnd : Nat} (hf : frameEnd ≤ input.length)
    (h : nextJoinedEntry input cursor = .ok entry) (hn : entry.next ≤ frameEnd) :
    nextJoinedEntry (input.take frameEnd) cursor = .ok entry := by
  rw [← List.take_append_drop frameEnd input] at h
  exact nextJoinedEntry_of_append h (by rwa [List.length_take, Nat.min_eq_left hf])

theorem settled_decodeJoined {frameEnd : Nat} (hf : frameEnd ≤ input.length)
    (h : skipJoined input n cursor = .ok cursor') (hn : cursor' ≤ frameEnd) :
    Settled (decodeJoined (input.take frameEnd) n cursor) := by
  induction n generalizing cursor
  case zero => exact settled_ok
  case succ n hi =>
    rw [skipJoined] at h
    cases he : nextJoinedEntry input cursor
    case error =>
      rw [he] at h
      contradiction
    case ok entry =>
      rw [he] at h
      have hle := skipJoined_le (nextJoinedEntry_next he).right h
      rw [decodeJoined, nextJoinedEntry_take hf he (hle.left.trans hn)]
      have hi : Settled (decodeJoined (input.take frameEnd) n entry.next) := hi h
      exact settled_bind (x := decodeField entry.name) settled_decodeField fun _ =>
        settled_bind settled_decodeField fun _ => settled_bind hi fun _ => settled_ok

-- The entries that are gone over are those from the cursor on, and the cursor is moved past them.
theorem scanJoined_eq (input : Bytes) (n : Nat) (progress : MigrateProgress) :
    (scanJoined input n progress).1 = (skipJoined input n progress.cursor).map fun _ => () := by
  induction n generalizing progress
  case zero => rfl
  case succ n hi =>
    rw [scanJoined, skipJoined]
    cases nextJoinedEntry input progress.cursor
    case error => rfl
    case ok    => exact hi _

theorem scanJoined_progress (input : Bytes) (n : Nat) (progress : MigrateProgress) :
    ∃ m cursor, m ≤ n ∧ skipJoined input m progress.cursor = .ok cursor ∧
      ((scanJoined input n progress).1 = .ok () → m = n) ∧
      (scanJoined input n progress).2 =
        { progress with cursor, entriesDone := progress.entriesDone + m } := by
  induction n generalizing progress
  case zero => exact ⟨0, progress.cursor, le_rfl, rfl, fun _ => rfl, rfl⟩
  case succ n hi =>
    rw [scanJoined]
    cases he : nextJoinedEntry input progress.cursor
    case error =>
      refine ⟨0, progress.cursor, Nat.zero_le _, rfl, fun h => ?_, rfl⟩
      contradiction
    case ok entry =>
      obtain ⟨m, cursor, hm, hs, hok, hp⟩ := hi
        { progress with cursor := entry.next, entriesDone := progress.entriesDone + 1 }
      refine ⟨m + 1, cursor, Nat.succ_le_succ hm, ?_, fun h => congrArg _ (hok h), ?_⟩
      case refine_1 =>
        rw [skipJoined, he]
        exact hs
      case refine_2 =>
        refine hp.trans ?_
        rw [Nat.add_comm m, ← Nat.add_assoc]

end Entries

section Append

theorem entriesStart_cases (headerEnd : Nat) (header : MigrateHeader) :
    (∃ error, ParseError.isPending error = false ∧
      ∀ input, entriesStart input headerEnd header = .error error) ∨
    ∃ start, headerEnd < start ∧ ∀ input, entriesStart input headerEnd header =
      if input.length < start then .error .incomplete else .ok start := by
  unfold entriesStart
  by_cases hz : 0 ∈ header.lengths
  case pos => exact .inl ⟨.emptyField, rfl, fun _ => by rw [if_pos hz]; rfl⟩
  case neg =>
    simp only [if_neg hz]
    cases hs : fieldEnds (headerEnd + 1) header.lengths
    case error error => exact .inl ⟨error, settled_fieldEnds _ hs, fun _ => rfl⟩
    case ok start =>
      refine .inr ⟨start, ?_, fun input => ?_⟩
      case refine_1 =>
        rw [fieldEnds_eq_ok hs]
        omega
      case refine_2 =>
        by_cases hl : input.length < start
        case pos =>
          rw [if_pos hl]
          simp only [bind, Except.bind, pure, Except.pure, if_pos hl]
          rfl
        case neg =>
          rw [if_neg hl]
          simp only [bind, Except.bind, pure, Except.pure, if_neg hl]

theorem entriesStart_le (h : entriesStart input headerEnd header = .ok start) :
    headerEnd < start ∧ start ≤ input.length := by
  rcases entriesStart_cases headerEnd header with ⟨error, -, he⟩ | ⟨start', hs, he⟩
  case inl =>
    rw [he] at h
    contradiction
  case inr =>
    rw [he] at h
    split at h
    case isTrue => contradiction
    case isFalse hl =>
      cases h
      exact ⟨hs, Nat.le_of_not_lt hl⟩

theorem entriesStart_append (h : entriesStart input headerEnd header = .ok start) (chunk : Bytes) :
    entriesStart (input ++ chunk) headerEnd header = .ok start := by
  have hl := (entriesStart_le h).right
  rcases entriesStart_cases headerEnd header with ⟨error, -, he⟩ | ⟨start', hs, he⟩
  case inl =>
    rw [he] at h
    contradiction
  case inr =>
    rw [he] at h ⊢
    split at h
    case isTrue => contradiction
    case isFalse =>
      cases h
      exact if_neg (by rw [List.length_append]; omega)

theorem migrateFrame_append (h : (migrateFrame input headerEnd header).1 ≠ .error .incomplete)
    (chunk : Bytes) :
    migrateFrame (input ++ chunk) headerEnd header = migrateFrame input headerEnd header := by
  unfold migrateFrame at h ⊢
  rcases entriesStart_cases headerEnd header with ⟨error, -, he⟩ | ⟨start, -, hs⟩
  case inl => rw [he, he]
  case inr =>
    have hl : ¬input.length < start := by
      intro hl
      rw [hs, if_pos hl] at h
      exact h rfl
    rw [hs, if_neg hl] at h
    rw [hs, hs, if_neg hl, if_neg (by rw [List.length_append]; omega)]
    dsimp only at h ⊢
    have hne : skipJoined input header.joinedCount start ≠ .error .incomplete := by
      intro he
      rw [he] at h
      exact h rfl
    rw [skipJoined_append (Nat.le_of_not_lt hl) hne]
    cases hc : skipJoined input header.joinedCount start
    case error => rfl
    case ok cursor =>
      have hle := skipJoined_le (Nat.le_of_not_lt hl) hc
      dsimp only
      rw [List.take_append_of_le_length hle.right]

theorem planFrame_append (h : (planFrame input charged headerEnd plan).1 ≠ .error .incomplete)
    (chunk : Bytes) :
    planFrame (input ++ chunk) charged headerEnd plan = planFrame input charged headerEnd plan := by
  unfold planFrame at h ⊢
  cases hf : fieldEnds (headerEnd + 1) plan.lengths
  case error => rfl
  case ok frameEnd =>
    rw [hf] at h
    dsimp only at h ⊢
    have hl : ¬input.length < frameEnd := by
      intro hl
      rw [if_pos hl] at h
      exact h rfl
    rw [if_neg hl, if_neg (by rw [List.length_append]; omega),
      List.take_append_of_le_length (Nat.le_of_not_lt hl)]

-- The first line of the input, and the fields of it.
structure Heads (input : Bytes) (headerEnd : Nat) (command : Bytes) (parts : List Bytes) : Prop where
  lf     : findLf input = some headerEnd
  fields : (input.take headerEnd).splitOn 32 = command :: parts

theorem heads_cases (input : Bytes) :
    findLf input = none ∨ ∃ headerEnd command parts, Heads input headerEnd command parts := by
  cases hf : findLf input
  case none => exact .inl rfl
  case some headerEnd =>
    obtain ⟨command, parts, hs⟩ := List.exists_cons_of_ne_nil
      (List.splitOn_ne_nil 32 (input.take headerEnd))
    exact .inr ⟨headerEnd, command, parts, hf, hs⟩

namespace Heads

variable {command : Bytes} {parts : List Bytes}

theorem append (h : Heads input headerEnd command parts) (chunk : Bytes) :
    Heads (input ++ chunk) headerEnd command parts where
  lf     := findLf_append h.lf chunk
  fields := by rw [take_append_of_findLf h.lf, h.fields]

theorem frameOf_migrate (h : Heads input headerEnd [77] parts) :
    frameOf input tagged charged = framed (parseMigrateHeader parts) fun header =>
      ((migrateFrame input headerEnd header).1.map (·, none),
        (migrateFrame input headerEnd header).2) := by
  simp only [frameOf, h.lf, h.fields]

theorem frameOf_plan (h : Heads input headerEnd command parts) (hc : command ≠ [77]) :
    frameOf input tagged charged =
      framed (parseHeader tagged command parts) (planFrame input charged headerEnd) := by
  simp only [frameOf, h.lf, h.fields]

end Heads

-- More input does not change a frame once there is one.
theorem frameOf_append (h : (frameOf input tagged charged).1 ≠ .error .incomplete)
    (chunk : Bytes) : frameOf (input ++ chunk) tagged charged = frameOf input tagged charged := by
  rcases heads_cases input with hf | ⟨headerEnd, command, parts, hh⟩
  case inl =>
    rw [frameOf, hf] at h
    exact absurd rfl h
  case inr =>
    by_cases hc : command = [77]
    case pos =>
      subst hc
      rw [hh.frameOf_migrate] at h
      rw [hh.frameOf_migrate, (hh.append chunk).frameOf_migrate]
      rcases hm : parseMigrateHeader parts with error | ⟨header, rest⟩
      case error => rfl
      case ok =>
        rw [hm] at h
        dsimp only [framed]
        rw [migrateFrame_append]
        intro he
        dsimp only [framed] at h
        rw [he] at h
        exact h rfl
    case neg =>
      rw [hh.frameOf_plan hc] at h
      rw [hh.frameOf_plan hc, (hh.append chunk).frameOf_plan hc]
      rcases hm : parseHeader tagged command parts with error | ⟨plan, rest⟩
      case error => rfl
      case ok =>
        rw [hm] at h
        exact planFrame_append h chunk

end Append

section Consumed

-- What is taken off a buffer of the given length.
structure Consumes {α : Type} (parsed : Except ParseError α × Nat) (length : Nat) : Prop where
  pending : ∀ {error}, parsed.1 = .error error → error.isPending = true → parsed.2 = 0
  ok      : ∀ {a}, parsed.1 = .ok a → 0 < parsed.2
  le      : parsed.2 ≤ length

theorem consumes_error {α : Type} {error : ParseError} {length : Nat} :
    Consumes ((.error error, 0) : Except ParseError α × Nat) length where
  pending _ _ := rfl
  ok h        := by contradiction
  le          := Nat.zero_le _

theorem consumes_settled {α : Type} {x : Except ParseError α} {length : Nat} (h : Settled x)
    (h₁ : 0 < n) (h₂ : n ≤ length) : Consumes (x, n) length where
  pending he hp := by
    rw [h _ he] at hp
    contradiction
  ok _          := h₁
  le            := h₂

theorem Consumes.map {α β : Type} {parsed : Except ParseError α × Nat} {length : Nat}
    (h : Consumes parsed length) (f : α → β) : Consumes (parsed.1.map f, parsed.2) length := by
  rcases parsed with ⟨error | a, n⟩
  case error =>
    refine ⟨fun he => ?_, fun he => ?_, h.le⟩
    case refine_1 =>
      cases he
      exact h.pending rfl
    case refine_2 => contradiction
  case ok =>
    refine ⟨fun he => ?_, fun _ => h.ok rfl, h.le⟩
    contradiction

theorem settled_decodeMigrate (hs : start ≤ input.length)
    (h : skipJoined input header.joinedCount start = .ok cursor) :
    Settled (decodeMigrate (input.take cursor) headerEnd start header) := by
  have hle := skipJoined_le hs h
  unfold decodeMigrate
  refine settled_bind (settled_mapM fun _ => settled_decodeField) fun fields =>
    settled_bind (settled_decodeJoined hle.right h le_rfl) fun joined => ?_
  split
  case h_1 => exact settled_ok
  case h_2 => exact settled_error rfl

theorem consumes_migrateFrame : Consumes (migrateFrame input headerEnd header) input.length := by
  unfold migrateFrame
  rcases entriesStart_cases headerEnd header with ⟨error, -, he⟩ | ⟨start, hs, he⟩
  case inl =>
    rw [he]
    exact consumes_error
  case inr =>
    rw [he]
    by_cases hl : input.length < start
    case pos =>
      rw [if_pos hl]
      exact consumes_error
    case neg =>
      rw [if_neg hl]
      dsimp only
      cases hc : skipJoined input header.joinedCount start
      case error => exact consumes_error
      case ok cursor =>
        have hle := skipJoined_le (Nat.le_of_not_lt hl) hc
        exact consumes_settled (settled_decodeMigrate (Nat.le_of_not_lt hl) hc)
          (by omega) hle.right

theorem consumes_planFrame (h : ∀ fields, Settled (plan.finish fields)) :
    Consumes (planFrame input charged headerEnd plan) input.length := by
  unfold planFrame
  cases hf : fieldEnds (headerEnd + 1) plan.lengths
  case error => exact consumes_error
  case ok frameEnd =>
    have hend := fieldEnds_eq_ok hf
    dsimp only
    by_cases hl : input.length < frameEnd
    case pos =>
      rw [if_pos hl]
      exact consumes_error
    case neg =>
      rw [if_neg hl]
      cases plan.multi.filter fun _ => !charged
      case some => exact consumes_error
      case none => exact consumes_settled (settled_map (h _)) (by omega) (Nat.le_of_not_lt hl)

theorem consumes_frameOf : Consumes (frameOf input tagged charged) input.length := by
  rcases heads_cases input with hf | ⟨headerEnd, command, parts, hh⟩
  case inl =>
    rw [frameOf, hf]
    exact consumes_error
  case inr =>
    by_cases hc : command = [77]
    case pos =>
      subst hc
      rw [hh.frameOf_migrate]
      rcases parseMigrateHeader parts with error | ⟨header, rest⟩
      case error => exact consumes_error
      case ok    => exact consumes_migrateFrame.map _
    case neg =>
      rw [hh.frameOf_plan hc]
      rcases hm : parseHeader tagged command parts with error | ⟨plan, rest⟩
      case error => exact consumes_error
      case ok    => exact consumes_planFrame ((gives_parseHeader tagged command).ok hm).finish

end Consumed
end Nanocached.Wire
