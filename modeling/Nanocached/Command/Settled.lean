import Nanocached.Command.Parse

-- Which errors of the parser are final.

namespace Nanocached.Wire

variable {start : Nat} {field : Bytes}

section Settled

variable {α β : Type} {P : α → Prop} {Q : β → Prop} {error : ParseError}

-- More input would not help against an error.
def Settled (x : Except ParseError α) : Prop :=
  ∀ error, x = .error error → error.isPending = false

theorem settled_ok {a : α} : Settled (.ok a : Except ParseError α) := by
  rintro _ ⟨⟩

theorem settled_error (h : error.isPending = false) : Settled (.error error : Except ParseError α) := by
  rintro _ ⟨⟩
  exact h

theorem settled_bind {x : Except ParseError α} {f : α → Except ParseError β} (hx : Settled x)
    (hf : ∀ a, Settled (f a)) : Settled (x >>= f) := by
  cases x
  case error error => exact settled_error (hx error rfl)
  case ok a        => exact hf a

theorem settled_map {x : Except ParseError α} {f : α → β} (hx : Settled x) : Settled (f <$> x) := by
  cases x
  case error error => exact settled_error (hx error rfl)
  case ok a        => exact settled_ok

theorem settled_checkedAddUsize {a b : Nat} : Settled (checkedAddUsize a b) := by
  unfold checkedAddUsize
  split
  case isTrue  => exact settled_ok
  case isFalse => exact settled_error rfl

theorem settled_foldlM {step : β → α → Except ParseError β} (h : ∀ b a, Settled (step b a))
    (l : List α) (b : β) : Settled (l.foldlM step b) := by
  induction l generalizing b
  case nil => exact settled_ok
  case cons a l hi =>
    rw [List.foldlM_cons]
    exact settled_bind (h b a) hi

theorem settled_mapM {f : α → Except ParseError β} (h : ∀ a, Settled (f a)) {l : List α} :
    Settled (l.mapM f) := by
  induction l
  case nil => exact settled_ok
  case cons a l hi =>
    rw [List.mapM_cons]
    exact settled_bind (h a) fun _ => settled_bind hi fun _ => settled_ok

theorem settled_fieldEnds {lengths : List Nat} : Settled (fieldEnds start lengths) :=
  settled_foldlM (fun _ _ => settled_checkedAddUsize) _ _

theorem settled_parseLength : Settled (parseLength field) := by
  unfold parseLength
  split
  case isTrue => exact settled_error rfl
  case isFalse =>
    refine settled_foldlM (fun length byte => ?_) _ _
    unfold pushDigit
    split
    case isTrue => exact settled_error rfl
    case isFalse =>
      dsimp only
      split
      case isTrue  => exact settled_checkedAddUsize
      case isFalse => exact settled_error rfl

theorem settled_parseTtl : Settled (parseTtl field) :=
  settled_bind settled_parseLength fun _ => settled_ok

theorem settled_parseOptionalTtl {field : Option Bytes} : Settled (parseOptionalTtl field) := by
  cases field
  case none => exact settled_ok
  case some => exact settled_map settled_parseTtl

theorem settled_parseTag : Settled (parseTag field) := by
  refine settled_bind settled_parseLength fun tag => ?_
  split
  case isTrue  => exact settled_ok
  case isFalse => exact settled_error rfl

theorem settled_hexNibble {byte : UInt8} : Settled (hexNibble byte) := by
  unfold hexNibble
  split
  case isTrue => exact settled_ok
  case isFalse =>
    split
    case isTrue  => exact settled_ok
    case isFalse => exact settled_error rfl

theorem settled_parseHex : Settled (parseHex field) := by
  fun_induction parseHex field
  case case1 high low field hi =>
    exact settled_bind settled_hexNibble fun _ => settled_bind settled_hexNibble fun _ =>
      settled_bind hi fun _ => settled_ok
  case case2 => exact settled_ok

theorem settled_parseCasCondition {allowed : Bool} : Settled (parseCasCondition field allowed) := by
  unfold parseCasCondition parseDigest
  repeat' split
  · exact settled_ok
  · exact settled_ok
  · refine settled_map (settled_bind settled_parseHex fun digest => ?_)
    split
    case isTrue  => exact settled_ok
    case isFalse => exact settled_error rfl
  · exact settled_error rfl

theorem settled_decodeField : Settled (decodeField field) := by
  unfold decodeField
  split
  case isTrue  => exact settled_ok
  case isFalse => exact settled_error rfl

end Settled

section Headers

variable {α β : Type} {P : α → Prop} {Q : β → Prop} {error : ParseError}

-- Whatever is parsed has the property, and more input would not help against an error.
structure Parts.Gives {α : Type} (P : α → Prop) (m : Parts α) : Prop where
  settled : ∀ parts, Settled (m parts)
  ok      : ∀ {parts a parts'}, m parts = .ok (a, parts') → P a

namespace Parts

theorem gives_pure {a : α} (h : P a) : Gives P (pure a) := by
  refine ⟨fun _ => settled_ok, fun he => ?_⟩
  cases he
  exact h

theorem gives_throw (h : error.isPending = false) : Gives P (throw error) := by
  refine ⟨fun _ => settled_error h, fun he => ?_⟩
  cases he

theorem gives_lift {x : Except ParseError α} (h : Settled x) :
    Gives (fun _ => True) (liftM x : Parts α) :=
  ⟨fun _ => settled_bind h fun _ => settled_ok, fun _ => trivial⟩

theorem gives_bind {m : Parts α} {f : α → Parts β} (hm : Gives (fun _ => True) m)
    (h : ∀ a, Gives Q (f a)) : Gives Q (m >>= f) := by
  refine ⟨fun parts => settled_bind (hm.settled parts) fun p => (h p.1).settled p.2, ?_⟩
  intro parts b parts' he
  change (m parts >>= fun p => f p.1 p.2) = _ at he
  cases hp : m parts
  case error => rw [hp] at he; cases he
  case ok p =>
    rw [hp] at he
    exact (h p.1).ok he

-- A check which fails with an error.
theorem gives_check {c : Prop} [Decidable c] {m : Parts β} (he : error.isPending = false)
    (h : Gives Q m) : Gives Q (if c then throw error >>= fun _ : PUnit => m else m) := by
  split
  case isTrue  => exact gives_bind (gives_throw he) fun _ => h
  case isFalse => exact h

theorem gives_get : Gives (fun _ => True) (get : Parts (List Bytes)) :=
  ⟨fun _ => settled_ok, fun _ => trivial⟩

theorem gives_set {parts : List Bytes} : Gives (fun _ => True) (set parts : Parts PUnit) :=
  ⟨fun _ => settled_ok, fun _ => trivial⟩

theorem gives_next : Gives (fun _ => True) next := by
  refine gives_bind gives_get fun parts => ?_
  split
  case h_1 => exact gives_throw rfl
  case h_2 => exact gives_bind gives_set fun _ => gives_pure trivial

theorem gives_nextLength : Gives (fun _ => True) nextLength :=
  gives_bind gives_next fun _ => gives_lift settled_parseLength

theorem gives_parseLength {f : Nat → Parts β} (h : ∀ length, Gives Q (f length)) :
    Gives Q ((liftM (parseLength field) : Parts Nat) >>= f) :=
  gives_bind (gives_lift settled_parseLength) h

theorem gives_finish : Gives (fun _ => True) finish := by
  refine gives_bind gives_get fun parts => ?_
  split
  case isTrue  => exact gives_throw rfl
  case isFalse => exact gives_pure trivial

theorem gives_trailing (max : Nat) : Gives (fun _ => True) (trailing max) := by
  refine gives_bind gives_get fun parts => ?_
  split
  case isTrue  => exact gives_throw rfl
  case isFalse => exact gives_bind gives_set fun _ => gives_pure trivial

theorem gives_parseTrailingTag (tagged : Bool) : Gives (fun _ => True) (parseTrailingTag tagged) := by
  unfold parseTrailingTag
  split
  case isTrue =>
    exact gives_bind gives_next fun _ => gives_bind (gives_lift settled_parseTag) fun _ =>
      gives_pure trivial
  case isFalse => exact gives_pure trivial

theorem gives_parseTtlAndTag (tagged : Bool) : Gives (fun _ => True) (parseTtlAndTag tagged) := by
  refine gives_bind gives_get fun tail => ?_
  split
  case h_1 => exact gives_throw rfl
  case h_2 => exact gives_bind (gives_lift settled_parseTag) fun _ => gives_pure trivial
  case h_3 =>
    exact gives_bind (gives_lift settled_parseTag) fun _ => gives_check rfl (gives_pure trivial)
  case h_4 => exact gives_pure trivial
  case h_5 => exact gives_check rfl (gives_pure trivial)

theorem settled_popTag {tagged : Bool} {tail : List Bytes} : Settled (popTag tagged tail) := by
  unfold popTag
  split
  case isTrue =>
    split
    case h_1 => exact settled_error rfl
    case h_2 => exact settled_bind settled_parseTag fun _ => settled_ok
  case isFalse => exact settled_ok

theorem settled_touchTtl {tail : List Bytes} : Settled (touchTtl tail) := by
  unfold touchTtl
  split
  case h_1 => exact settled_ok
  case h_2 => exact settled_map settled_parseTtl
  case h_3 => exact settled_error rfl

theorem gives_parseTouchTail (tagged : Bool) : Gives (fun _ => True) (parseTouchTail tagged) :=
  gives_bind gives_get fun _ => gives_bind (gives_lift settled_popTag) fun _ =>
    gives_bind (gives_lift settled_touchTtl) fun _ => gives_pure trivial

theorem gives_keyLengths (n : Nat) : Gives (fun _ => True) (keyLengths n) := by
  induction n
  case zero => exact gives_pure trivial
  case succ n hi =>
    exact gives_bind gives_nextLength fun _ =>
      gives_check rfl (gives_bind hi fun _ => gives_pure trivial)

theorem gives_pairLengths (n : Nat) : Gives (fun _ => True) (pairLengths n) := by
  induction n
  case zero => exact gives_pure trivial
  case succ n hi =>
    exact gives_bind gives_nextLength fun _ => gives_bind gives_nextLength fun _ =>
      gives_check rfl (gives_bind hi fun _ => gives_pure trivial)

theorem gives_nextNamespace (namespaced : Bool) : Gives (fun _ => True) (nextNamespace namespaced) := by
  unfold nextNamespace
  split
  case isTrue  => exact gives_nextLength
  case isFalse => exact gives_pure trivial

theorem gives_nextCount : Gives (fun _ => True) nextCount :=
  gives_bind gives_nextLength fun _ => gives_check rfl (gives_pure trivial)

theorem settled_withToken {command : Bytes → List Bytes → Command} {fields : List Bytes} :
    Settled (withToken command fields) := by
  cases fields
  case nil  => exact settled_error rfl
  case cons => exact settled_bind settled_decodeField fun _ => settled_ok

-- The frames of many keys are those of the commands for them, and a complete frame is what it is.
structure Fits (command : Bytes) (plan : Plan) : Prop where
  multi  : ∀ {keys values}, plan.multi = some (keys, values) → multiCommand command = some values
  finish : ∀ fields, Settled (plan.finish fields)

theorem gives_single {command : Bytes} {plan : Plan} (h : plan.multi = none)
    (hf : ∀ fields, Settled (plan.finish fields)) : Gives (Fits command) (pure plan) :=
  gives_pure ⟨fun he => by rw [h] at he; contradiction, hf⟩

theorem gives_multi {command : Bytes} {plan : Plan} {keys : Nat} {values : Bool}
    (h : plan.multi = some (keys, values)) (hc : multiCommand command = some values)
    (hf : ∀ fields, Settled (plan.finish fields)) : Gives (Fits command) (pure plan) :=
  gives_pure ⟨fun he => by cases h.symm.trans he; exact hc, hf⟩

end Parts

open Parts

theorem gives_parseKeyed (tagged namespaced : Bool) (command : Key → Command) (letter : Bytes) :
    (parseKeyed tagged namespaced command).Gives (Fits letter) :=
  gives_bind (gives_nextNamespace _) fun _ => gives_bind gives_next fun _ =>
    gives_bind (gives_parseTrailingTag _) fun _ => gives_bind gives_finish fun _ =>
    gives_parseLength fun _ => gives_check rfl <| gives_single rfl fun _ => settled_ok

theorem gives_parseSet (tagged namespaced : Bool) (letter : Bytes) :
    (parseSet tagged namespaced).Gives (Fits letter) :=
  gives_bind (gives_nextNamespace _) fun _ => gives_bind gives_next fun _ =>
    gives_bind gives_next fun _ => gives_bind (gives_parseTtlAndTag _) fun _ =>
    gives_parseLength fun _ => gives_parseLength fun _ => gives_check rfl <|
    gives_bind (gives_lift settled_parseOptionalTtl) fun _ => gives_single rfl fun _ => settled_ok

theorem gives_parseHandoffDelete (tagged : Bool) (letter : Bytes) :
    (parseHandoffDelete tagged).Gives (Fits letter) :=
  gives_bind gives_next fun _ => gives_bind gives_next fun _ => gives_bind gives_next fun _ =>
    gives_bind (gives_parseTrailingTag _) fun _ => gives_bind gives_finish fun _ =>
    gives_parseLength fun _ => gives_parseLength fun _ =>
    gives_parseLength fun _ => gives_check rfl <| gives_check rfl <|
    gives_single rfl fun _ => settled_withToken

theorem gives_parseAuth (letter : Bytes) : parseAuth.Gives (Fits letter) := by
  refine gives_bind gives_next fun _ => gives_bind gives_get fun tail => ?_
  have hrest (flags : Bool × Bool) (secretLength : Bytes) :
      Gives (Fits letter) (do
        finish
        let secretLength ← parseLength secretLength
        if secretLength = 0 then throw .emptySecret
        return { lengths := [secretLength]
                 finish  := fun fields => .ok (.auth fields.headI flags.1 flags.2) }) :=
    gives_bind gives_finish fun _ => gives_parseLength fun _ =>
      gives_check rfl (gives_single rfl fun _ => settled_ok)
  dsimp only
  split
  case h_1 => exact gives_bind (gives_pure trivial) fun flags => hrest flags _
  case h_2 => exact gives_bind gives_set fun _ => gives_bind (gives_pure trivial) fun flags => hrest flags _
  case h_3 => exact gives_bind gives_set fun _ => gives_bind (gives_pure trivial) fun flags => hrest flags _
  case h_4 => exact gives_bind (gives_throw rfl) fun flags => hrest flags _
  case h_5 => exact gives_bind gives_set fun _ => gives_bind (gives_pure trivial) fun flags => hrest flags _
  case h_6 => exact gives_bind (gives_throw rfl) fun flags => hrest flags _

theorem gives_parseMultiGet (tagged : Bool) : (parseMultiGet tagged).Gives (Fits [109]) :=
  gives_bind gives_nextLength fun _ => gives_bind gives_nextCount fun _ =>
    gives_bind (gives_keyLengths _) fun _ => gives_bind (gives_parseTrailingTag _) fun _ =>
    gives_bind gives_finish fun _ => gives_multi rfl rfl fun _ => settled_ok

theorem gives_parseMultiTouch (tagged : Bool) : (parseMultiTouch tagged).Gives (Fits [121]) :=
  gives_bind gives_nextLength fun _ => gives_bind gives_nextCount fun _ =>
    gives_bind (gives_keyLengths _) fun _ => gives_bind (gives_parseTouchTail _) fun _ =>
    gives_multi rfl rfl fun _ => settled_ok

theorem gives_parseMultiSet (tagged : Bool) : (parseMultiSet tagged).Gives (Fits [111]) :=
  gives_bind gives_nextLength fun _ => gives_bind gives_nextCount fun _ =>
    gives_bind (gives_pairLengths _) fun _ => gives_bind (gives_parseTtlAndTag _) fun _ =>
    gives_bind (gives_lift settled_parseOptionalTtl) fun _ =>
    gives_multi rfl rfl fun _ => settled_ok

theorem gives_parseIncr (tagged : Bool) (letter : Bytes) : (parseIncr tagged).Gives (Fits letter) := by
  refine gives_bind gives_nextLength fun _ => gives_bind gives_next fun _ =>
    gives_bind gives_next fun delta => gives_bind (gives_parseTrailingTag _) fun _ =>
    gives_bind gives_finish fun _ => gives_parseLength fun _ => gives_check rfl ?_
  split
  case h_1 => exact gives_single rfl fun _ => settled_ok
  case h_2 => exact gives_throw rfl

theorem gives_parseCasSet (tagged : Bool) (letter : Bytes) :
    (parseCasSet tagged).Gives (Fits letter) :=
  gives_bind gives_nextLength fun _ => gives_bind gives_next fun _ => gives_bind gives_next fun _ =>
    gives_bind gives_next fun _ => gives_bind (gives_lift settled_parseCasCondition) fun _ =>
    gives_bind (gives_parseTtlAndTag _) fun _ => gives_parseLength fun _ =>
    gives_parseLength fun _ => gives_check rfl <|
    gives_bind (gives_lift settled_parseOptionalTtl) fun _ => gives_single rfl fun _ => settled_ok

theorem gives_parseCasDelete (tagged : Bool) (letter : Bytes) :
    (parseCasDelete tagged).Gives (Fits letter) := by
  refine gives_bind gives_nextLength fun _ => gives_bind gives_next fun _ =>
    gives_bind gives_next fun _ => gives_bind (gives_lift settled_parseCasCondition) fun cond => ?_
  split
  case h_1 =>
    exact gives_bind (gives_parseTrailingTag _) fun _ => gives_bind gives_finish fun _ =>
      gives_parseLength fun _ => gives_check rfl <| gives_single rfl fun _ => settled_ok
  case h_2 => exact gives_throw rfl

theorem gives_parseTouch (tagged : Bool) (letter : Bytes) : (parseTouch tagged).Gives (Fits letter) :=
  gives_bind gives_nextLength fun _ => gives_bind gives_next fun _ =>
    gives_bind (gives_parseTouchTail _) fun _ => gives_parseLength fun _ => gives_check rfl <|
    gives_single rfl fun _ => settled_ok

theorem gives_parseClear (tagged : Bool) (letter : Bytes) : (parseClear tagged).Gives (Fits letter) :=
  gives_bind gives_next fun _ => gives_bind (gives_parseTrailingTag _) fun _ =>
    gives_bind gives_finish fun _ => gives_parseLength fun _ => gives_single rfl fun _ => settled_ok

theorem gives_parseClearAll (tagged : Bool) (letter : Bytes) :
    (parseClearAll tagged).Gives (Fits letter) :=
  gives_bind (gives_parseTrailingTag _) fun _ => gives_bind gives_finish fun _ =>
    gives_single rfl fun _ => settled_ok

theorem gives_parseHandoffClear (tagged : Bool) (letter : Bytes) :
    (parseHandoffClear tagged).Gives (Fits letter) :=
  gives_bind gives_next fun _ => gives_bind gives_next fun _ =>
    gives_bind (gives_trailing _) fun _ => gives_bind (gives_lift settled_popTag) fun _ =>
    gives_check rfl <| gives_parseLength fun _ =>
    gives_parseLength fun _ => gives_check rfl <| gives_check rfl <|
    gives_single rfl fun _ => settled_withToken

theorem gives_parseHandoffSet (tagged : Bool) (letter : Bytes) :
    (parseHandoffSet tagged).Gives (Fits letter) :=
  gives_bind gives_next fun _ => gives_bind gives_next fun _ => gives_bind gives_next fun _ =>
    gives_bind gives_next fun _ => gives_bind (gives_trailing _) fun _ =>
    gives_bind (gives_lift settled_popTag) fun _ => gives_check rfl <| gives_parseLength fun _ =>
    gives_parseLength fun _ => gives_parseLength fun _ =>
    gives_parseLength fun _ => gives_check rfl <| gives_check rfl <|
    gives_bind (gives_lift settled_parseOptionalTtl) fun _ =>
    gives_single rfl fun _ => settled_withToken

theorem gives_parseCancelMigration (letter : Bytes) : parseCancelMigration.Gives (Fits letter) :=
  gives_bind gives_next fun _ => gives_bind gives_next fun _ => gives_bind gives_finish fun _ =>
    gives_parseLength fun _ => gives_parseLength fun _ => gives_check rfl <|
    gives_single rfl fun _ => settled_bind settled_decodeField fun _ =>
      settled_bind settled_decodeField fun _ => settled_ok

theorem gives_parseHeader (tagged : Bool) (command : Bytes) :
    (parseHeader tagged command).Gives (Fits command) := by
  unfold parseHeader
  split
  · exact gives_parseAuth _
  · exact gives_parseKeyed ..
  · exact gives_parseKeyed ..
  · exact gives_parseKeyed ..
  · exact gives_parseKeyed ..
  · exact gives_parseHandoffDelete ..
  · exact gives_parseMultiGet _
  · exact gives_parseMultiTouch _
  · exact gives_parseMultiSet _
  · exact gives_parseIncr ..
  · exact gives_parseCasSet ..
  · exact gives_parseCasDelete ..
  · exact gives_parseTouch ..
  · exact gives_parseClear ..
  · exact gives_parseClearAll ..
  · exact gives_parseHandoffClear ..
  · exact gives_parseSet ..
  · exact gives_parseSet ..
  · exact gives_parseHandoffSet ..
  · exact gives_parseCancelMigration _
  · exact gives_throw rfl

end Headers

end Nanocached.Wire
