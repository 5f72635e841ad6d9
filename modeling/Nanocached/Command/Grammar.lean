import Nanocached.Command.Frame

-- The headers of the frames of clients.

namespace Nanocached.Wire

variable {field : Bytes} {fields : List Bytes} {n : Nat} {tagged : Bool}

section Fields

-- A number in decimal.
structure IsLength (field : Bytes) (n : Nat) : Prop where
  ne_nil : field ≠ []
  digits : ∀ byte ∈ field, Decimal.isDigit byte
  value  : Decimal.value field = n
  lt     : n < 2 ^ 64

theorem IsLength.unique {m : Nat} (h : IsLength field n) (h' : IsLength field m) : n = m :=
  h.value.symm.trans h'.value

theorem checkedAddUsize_eq_ok {a b c : Nat} :
    checkedAddUsize a b = .ok c ↔ a + b = c ∧ c < 2 ^ 64 := by
  unfold checkedAddUsize
  split <;> simp <;> omega

theorem pushDigit_eq_ok {length : Nat} {byte : UInt8} :
    pushDigit length byte = .ok n ↔
      Decimal.isDigit byte ∧ 10 * length + (byte.toNat - 48) = n ∧ n < 2 ^ 64 := by
  unfold pushDigit
  by_cases hd : Decimal.isDigit byte = true
  case neg => simp [hd]
  case pos =>
    simp only [hd, Bool.not_true, Bool.false_eq_true, if_false, true_and]
    split
    case isTrue  => rw [checkedAddUsize_eq_ok]
    case isFalse => simp; omega

-- Overflow on the way to a number is overflow of the number.
theorem foldlM_pushDigit_eq_ok {length : Nat} (hl : length < 2 ^ 64) :
    field.foldlM pushDigit length = .ok n ↔
      (∀ byte ∈ field, Decimal.isDigit byte) ∧
      field.foldl (fun n digit => 10 * n + (digit.toNat - 48)) length = n ∧ n < 2 ^ 64 := by
  induction field generalizing length
  case nil => simp [pure, Except.pure]; omega
  case cons byte field hi =>
    rw [List.foldlM_cons, List.foldl_cons, List.forall_mem_cons]
    constructor
    case mp =>
      intro h
      cases hp : pushDigit length byte
      case error =>
        rw [hp] at h
        contradiction
      case ok length' =>
        rw [hp] at h
        obtain ⟨hd, rfl, hlt⟩ := pushDigit_eq_ok.mp hp
        obtain ⟨hds, hv⟩ := (hi hlt).mp h
        exact ⟨⟨hd, hds⟩, hv⟩
    case mpr =>
      rintro ⟨⟨hd, hds⟩, hv, hlt⟩
      have hle : 10 * length + (byte.toNat - 48) ≤ n := hv ▸ Decimal.le_foldl field _
      have hp : pushDigit length byte = .ok (10 * length + (byte.toNat - 48)) :=
        pushDigit_eq_ok.mpr ⟨hd, rfl, by omega⟩
      rw [hp]
      exact (hi (by omega)).mpr ⟨hds, hv, hlt⟩

theorem parseLength_eq_ok : parseLength field = .ok n ↔ IsLength field n := by
  unfold parseLength
  by_cases hn : field = []
  case pos =>
    subst hn
    simp only [List.isEmpty_nil, if_true]
    exact ⟨fun h => by contradiction, fun h => absurd rfl h.ne_nil⟩
  case neg =>
    rw [if_neg (by simpa using hn), foldlM_pushDigit_eq_ok (by decide)]
    refine ⟨?_, fun h => ⟨h.digits, h.value, h.lt⟩⟩
    rintro ⟨hd, hv, hl⟩
    exact ⟨hn, hd, hv, hl⟩

theorem parseTag_eq_ok {tag : UInt32} : parseTag field = .ok tag ↔ IsLength field tag.toNat := by
  unfold parseTag
  constructor
  case mp =>
    intro h
    cases hl : parseLength field
    case error =>
      rw [hl] at h
      contradiction
    case ok n =>
      rw [hl] at h
      have hl := parseLength_eq_ok.mp hl
      simp only [bind, Except.bind] at h
      split at h
      case isTrue hn =>
        cases h
        rwa [UInt32.toNat_ofNat_of_lt' hn]
      case isFalse => contradiction
  case mpr =>
    intro h
    rw [parseLength_eq_ok.mpr h]
    simp only [bind, Except.bind]
    rw [if_pos tag.toNat_lt, UInt32.ofNat_toNat]
    rfl

-- The seconds of a time to live.
inductive IsTtl : List Bytes → Option Nat → Prop
  | none : IsTtl [] none
  | some {field secs} : IsLength field secs → IsTtl [field] (some secs)

-- The last field of a frame on a tagged connection.
inductive IsTag : Bool → List Bytes → Option UInt32 → Prop
  | untagged : IsTag false [] none
  | tagged {field tag} : IsLength field tag.toNat → IsTag true [field] (some tag)

-- `G` (71).
def getFlag (get : Bool) : List Bytes :=
  if get then [[71]] else []

-- The namespace of a frame which has one.
inductive IsNamespace : Bool → List Bytes → Nat → Prop
  | unnamed : IsNamespace false [] 0
  | named {field length} : IsLength field length → IsNamespace true [field] length

-- The lengths of the keys and the values, which alternate.
inductive ArePairs : List Bytes → List (Nat × Nat) → Prop
  | nil : ArePairs [] []
  | cons {key value k v fields lengths} :
      IsLength key k → k ≠ 0 → IsLength value v → ArePairs fields lengths →
      ArePairs (key :: value :: fields) ((k, v) :: lengths)

end Fields

namespace Parts

variable {α β : Type} {a : α} {error : ParseError} {r : α × List Bytes} {parts rest : List Bytes}
variable {tag : Option UInt32}

theorem bind_eq_ok {m : Parts α} {f : α → Parts β} {r : β × List Bytes} :
    (m >>= f) parts = .ok r ↔ ∃ a rest, m parts = .ok (a, rest) ∧ f a rest = .ok r := by
  show (m parts >>= fun p => f p.1 p.2) = .ok r ↔ _
  rcases m parts with error | ⟨a, rest⟩
  case error => simp [bind, Except.bind]
  case ok    => simp [bind, Except.bind]

theorem pure_eq_ok : (pure a : Parts α) parts = .ok r ↔ (a, parts) = r :=
  ⟨Except.ok.inj, congrArg Except.ok⟩

theorem throw_eq_ok : (throw error : Parts α) parts = .ok r ↔ False := by
  simp [throw, throwThe, MonadExceptOf.throw, StateT.lift, bind, Except.bind]

theorem lift_eq_ok {x : Except ParseError α} :
    (liftM x : Parts α) parts = .ok r ↔ x = .ok r.1 ∧ r.2 = parts := by
  show (x >>= fun a => pure (a, parts)) = .ok r ↔ _
  rcases r with ⟨b, rest⟩
  cases x
  case error => simp [bind, Except.bind]
  case ok    => simp [bind, Except.bind, pure, Except.pure, eq_comm]

theorem check_eq_ok {c : Prop} [Decidable c] {m : Parts α} :
    (if c then throw error >>= fun _ : PUnit => m else m) parts = .ok r ↔
      ¬c ∧ m parts = .ok r := by
  split <;> simp [bind_eq_ok, throw_eq_ok, *]

theorem get_eq_ok {r : List Bytes × List Bytes} :
    (MonadState.get : Parts (List Bytes)) parts = .ok r ↔ (parts, parts) = r :=
  ⟨Except.ok.inj, congrArg Except.ok⟩

theorem next_eq_ok {field : Bytes} : next parts = .ok (field, rest) ↔ parts = field :: rest := by
  cases parts
  case nil  => exact ⟨fun h => by contradiction, fun h => by contradiction⟩
  case cons =>
    show Except.ok _ = Except.ok _ ↔ _
    simp

theorem nextLength_eq_ok :
    nextLength parts = .ok (n, rest) ↔ ∃ field, parts = field :: rest ∧ IsLength field n := by
  simp only [nextLength, bind_eq_ok, next_eq_ok, lift_eq_ok, parseLength_eq_ok]
  constructor
  case mp =>
    rintro ⟨field, _, hp, hl, rfl⟩
    exact ⟨field, hp, hl⟩
  case mpr =>
    rintro ⟨field, hp, hl⟩
    exact ⟨field, rest, hp, hl, rfl⟩

theorem finish_eq_ok {u : Unit} : finish parts = .ok (u, rest) ↔ parts = [] ∧ rest = [] := by
  cases parts
  case nil =>
    show Except.ok _ = Except.ok _ ↔ _
    simp [eq_comm]
  case cons => exact ⟨fun h => by contradiction, fun h => by simp at h⟩

theorem parseTrailingTag_eq_ok :
    parseTrailingTag tagged parts = .ok (tag, []) ↔ IsTag tagged parts tag := by
  unfold parseTrailingTag
  cases tagged
  case false =>
    rw [if_neg (by decide), pure_eq_ok]
    constructor
    case mp =>
      rintro ⟨⟩
      exact .untagged
    case mpr =>
      rintro ⟨⟩
      rfl
  case true =>
    simp only [if_true, bind_eq_ok, next_eq_ok, lift_eq_ok, parseTag_eq_ok, pure_eq_ok]
    constructor
    case mp =>
      rintro ⟨field, _, rfl, tag, _, ⟨hl, rfl⟩, ⟨⟩⟩
      exact .tagged hl
    case mpr =>
      rintro ⟨⟩
      rename_i field tag hl
      exact ⟨field, [], rfl, tag, [], ⟨hl, rfl⟩, rfl⟩

theorem parseTtlAndTag_eq_ok {ttl : Option Bytes} :
    parseTtlAndTag tagged parts = .ok ((ttl, tag), rest) ↔
      (∃ tags, parts = ttl.toList ++ tags ∧ IsTag tagged tags tag) ∧ parts = rest := by
  constructor
  case mp =>
    intro h
    unfold parseTtlAndTag at h
    obtain ⟨tail, _, hg, h⟩ := bind_eq_ok.mp h
    cases hg
    dsimp only at h
    split at h
    case h_1 => contradiction
    case h_2 field =>
      simp only [bind_eq_ok, lift_eq_ok, parseTag_eq_ok, pure_eq_ok] at h
      obtain ⟨tag, _, ⟨hl, rfl⟩, ⟨⟩⟩ := h
      exact ⟨⟨_, rfl, .tagged hl⟩, rfl⟩
    case h_3 _ field tail _ =>
      simp only [bind_eq_ok, lift_eq_ok, parseTag_eq_ok, check_eq_ok, pure_eq_ok] at h
      obtain ⟨tag, _, ⟨hl, rfl⟩, ht, ⟨⟩⟩ := h
      cases tail
      case nil  => exact ⟨⟨_, rfl, .tagged hl⟩, rfl⟩
      case cons => exact absurd rfl ht
    case h_4 =>
      cases pure_eq_ok.mp h
      exact ⟨⟨_, rfl, .untagged⟩, rfl⟩
    case h_5 field tail _ =>
      simp only [check_eq_ok, pure_eq_ok] at h
      obtain ⟨ht, ⟨⟩⟩ := h
      cases tail
      case nil  => exact ⟨⟨_, rfl, .untagged⟩, rfl⟩
      case cons => exact absurd rfl ht
  case mpr =>
    rintro ⟨⟨tags, rfl, ht⟩, rfl⟩
    unfold parseTtlAndTag
    refine bind_eq_ok.mpr ⟨_, _, rfl, ?_⟩
    cases ht
    case untagged => cases ttl <;> rfl
    case tagged field tag hl =>
      have hl := parseTag_eq_ok.mpr hl
      cases ttl
      case none =>
        exact bind_eq_ok.mpr ⟨tag, _, lift_eq_ok.mpr ⟨hl, rfl⟩, rfl⟩
      case some =>
        exact bind_eq_ok.mpr ⟨tag, _, lift_eq_ok.mpr ⟨hl, rfl⟩, rfl⟩

theorem parseTtl_eq_ok {ttl : Duration} :
    parseTtl field = .ok ttl ↔ ∃ secs, IsLength field secs ∧ fromSecs secs = ttl := by
  unfold parseTtl
  cases hl : parseLength field
  case error =>
    refine ⟨fun h => by contradiction, ?_⟩
    rintro ⟨secs, hs, -⟩
    rw [parseLength_eq_ok.mpr hs] at hl
    contradiction
  case ok secs =>
    have hl := parseLength_eq_ok.mp hl
    constructor
    case mp =>
      rintro ⟨⟩
      exact ⟨secs, hl, rfl⟩
    case mpr =>
      rintro ⟨secs', hs, rfl⟩
      rw [hs.unique hl]
      rfl

theorem touchTtl_eq_ok {ttl : Option Duration} :
    touchTtl parts = .ok ttl ↔ ∃ secs, IsTtl parts secs ∧ secs.map fromSecs = ttl := by
  constructor
  case mp =>
    intro h
    unfold touchTtl at h
    split at h
    case h_1 =>
      cases h
      exact ⟨none, .none, rfl⟩
    case h_2 field =>
      cases hp : parseTtl field
      case error =>
        rw [hp] at h
        contradiction
      case ok =>
        rw [hp] at h
        cases h
        obtain ⟨secs, hl, rfl⟩ := parseTtl_eq_ok.mp hp
        exact ⟨some secs, .some hl, rfl⟩
    case h_3 => contradiction
  case mpr =>
    rintro ⟨secs, ⟨⟩ | hl, rfl⟩
    case none => rfl
    case some =>
      rw [touchTtl, parseTtl_eq_ok.mpr ⟨_, hl, rfl⟩]
      rfl

theorem parseOptionalTtl_eq_ok {field : Option Bytes} {ttl : Option Duration} :
    parseOptionalTtl field = .ok ttl ↔ ∃ secs, IsTtl field.toList secs ∧ secs.map fromSecs = ttl := by
  rw [← touchTtl_eq_ok]
  cases field <;> rfl

theorem popTag_eq_ok : popTag tagged parts = .ok (tag, rest) ↔
      ∃ tags, parts = rest ++ tags ∧ IsTag tagged tags tag := by
  unfold popTag
  cases tagged
  case false =>
    rw [if_neg (by decide)]
    constructor
    case mp =>
      rintro ⟨⟩
      exact ⟨[], by rw [List.append_nil], .untagged⟩
    case mpr =>
      rintro ⟨_, rfl, ⟨⟩⟩
      rw [List.append_nil]
  case true =>
    rw [if_pos rfl]
    constructor
    case mp =>
      intro h
      split at h
      case h_1 => contradiction
      case h_2 field hf =>
        cases hp : parseTag field
        case error =>
          rw [hp] at h
          contradiction
        case ok tag =>
          rw [hp] at h
          cases h
          refine ⟨[field], ?_, .tagged (parseTag_eq_ok.mp hp)⟩
          exact (List.dropLast_append_getLast? field hf).symm
    case mpr =>
      rintro ⟨_, rfl, ⟨⟩⟩
      rename_i field tag hl
      rw [List.getLast?_concat, List.dropLast_concat]
      dsimp only
      rw [parseTag_eq_ok.mpr hl]
      rfl

-- Fields which are numbers are not the flag.
theorem popFlag_eq {get : Bool} :
    popFlag 71 parts = (get, rest) ↔
      parts = rest ++ getFlag get ∧ (get = false → parts.getLast? ≠ some [71]) := by
  unfold popFlag
  cases get
  case false =>
    split <;> simp [getFlag, *, eq_comm]
  case true =>
    split
    case isTrue h =>
      have hp := List.dropLast_append_getLast? _ h
      simp only [getFlag, if_true, Prod.mk.injEq, true_and]
      constructor
      case mp =>
        rintro rfl
        exact ⟨hp.symm, by rintro ⟨⟩⟩
      case mpr =>
        rintro ⟨rfl, -⟩
        exact List.dropLast_concat
    case isFalse h =>
      refine ⟨?_, ?_⟩
      case refine_1 => rintro ⟨⟩
      case refine_2 =>
        rintro ⟨rfl, -⟩
        exact absurd (by simp [getFlag]) h

theorem getLast?_ne_of_isTtl {secs : Option Nat} (h : IsTtl parts secs) :
    parts.getLast? ≠ some [71] := by
  cases h
  case none => rintro ⟨⟩
  case some hl =>
    rintro ⟨⟩
    exact absurd (hl.digits 71 (by simp)) (by decide)

theorem length_touchTail {secs : Option Nat} {ttls tags : List Bytes}
    (hl : IsTtl ttls secs) (ht : IsTag tagged tags tag) (get : Bool) :
    (ttls ++ getFlag get ++ tags).length ≤ 3 := by
  cases hl <;> cases ht <;> cases get <;> simp [getFlag]

theorem parseTouchTail_eq_ok {ttl : Option Duration} {get : Bool} :
    parseTouchTail tagged parts = .ok ((ttl, get, tag), rest) ↔
      (∃ ttls secs tags, parts = ttls ++ getFlag get ++ tags ∧ IsTtl ttls secs ∧
        IsTag tagged tags tag ∧ secs.map fromSecs = ttl) ∧ parts = rest := by
  simp only [parseTouchTail, bind_eq_ok, get_eq_ok, lift_eq_ok, pure_eq_ok, Prod.mk.injEq]
  constructor
  case mp =>
    rintro ⟨_, _, ⟨rfl, rfl⟩, ⟨tag, tail⟩, _, ⟨hp, rfl⟩, _, _, ⟨hl, rfl⟩, ⟨rfl, rfl, rfl⟩, rfl⟩
    obtain ⟨tags, hp, ht⟩ := popTag_eq_ok.mp hp
    obtain ⟨hf, -⟩ := popFlag_eq.mp (Prod.mk.eta (p := popFlag 71 tail)).symm
    obtain ⟨secs, hl, hs⟩ := touchTtl_eq_ok.mp hl
    dsimp only at hl
    rw [hf] at hp
    have hlen := congrArg List.length hp
    have hle := length_touchTail hl ht (popFlag 71 tail).1
    rw [List.take_of_length_le (by rw [List.length_take] at hlen; omega)] at hp
    exact ⟨⟨_, secs, tags, hp, hl, ht, hs⟩, rfl⟩
  case mpr =>
    rintro ⟨⟨ttls, secs, tags, rfl, hl, ht, rfl⟩, rfl⟩
    have hle := length_touchTail hl ht get
    have hf : popFlag 71 (ttls ++ getFlag get) = (get, ttls) := by
      refine popFlag_eq.mpr ⟨rfl, ?_⟩
      rintro rfl
      rw [getFlag, if_neg (by decide), List.append_nil]
      exact getLast?_ne_of_isTtl hl
    refine ⟨_, _, ⟨rfl, rfl⟩, (tag, ttls ++ getFlag get), _, ⟨?_, rfl⟩, _, _, ⟨?_, rfl⟩,
      ⟨rfl, ?_, rfl⟩, rfl⟩
    case refine_1 =>
      rw [List.take_of_length_le (by omega)]
      exact popTag_eq_ok.mpr ⟨tags, rfl, ht⟩
    case refine_2 =>
      rw [hf]
      exact touchTtl_eq_ok.mpr ⟨secs, hl, rfl⟩
    case refine_3 => rw [hf]

theorem keyLengths_eq_ok {lengths : List Nat} :
    keyLengths n parts = .ok (lengths, rest) ↔
      ∃ fields, parts = fields ++ rest ∧ lengths.length = n ∧
        List.Forall₂ IsLength fields lengths ∧ 0 ∉ lengths := by
  induction n generalizing parts lengths rest
  case zero =>
    rw [keyLengths, pure_eq_ok]
    constructor
    case mp =>
      rintro ⟨⟩
      exact ⟨[], rfl, rfl, .nil, List.not_mem_nil⟩
    case mpr =>
      rintro ⟨fields, rfl, hl, hf, -⟩
      cases List.length_eq_zero_iff.mp hl
      cases hf
      rfl
  case succ n hi =>
    simp only [keyLengths, bind_eq_ok, nextLength_eq_ok, check_eq_ok, hi, pure_eq_ok]
    constructor
    case mp =>
      rintro ⟨length, _, ⟨field, rfl, hl⟩, hz, lengths, _, ⟨fields, rfl, rfl, hf, hz'⟩, ⟨⟩⟩
      refine ⟨field :: fields, rfl, rfl, .cons hl hf, ?_⟩
      rw [List.mem_cons, not_or]
      exact ⟨Ne.symm hz, hz'⟩
    case mpr =>
      rintro ⟨fields, rfl, hn, hf, hz⟩
      cases hf
      case nil => contradiction
      case cons field length fields lengths hl hf =>
        rw [List.mem_cons, not_or] at hz
        exact ⟨length, _, ⟨field, rfl, hl⟩, Ne.symm hz.left, lengths, rest,
          ⟨fields, rfl, Nat.succ.inj hn, hf, hz.right⟩, rfl⟩

theorem pairLengths_eq_ok {lengths : List (Nat × Nat)} :
    pairLengths n parts = .ok (lengths, rest) ↔
      ∃ fields, parts = fields ++ rest ∧ lengths.length = n ∧ ArePairs fields lengths := by
  induction n generalizing parts lengths rest
  case zero =>
    rw [pairLengths, pure_eq_ok]
    constructor
    case mp =>
      rintro ⟨⟩
      exact ⟨[], rfl, rfl, .nil⟩
    case mpr =>
      rintro ⟨fields, rfl, hl, hf⟩
      cases List.length_eq_zero_iff.mp hl
      cases hf
      rfl
  case succ n hi =>
    simp only [pairLengths, bind_eq_ok, nextLength_eq_ok, check_eq_ok, hi, pure_eq_ok]
    constructor
    case mp =>
      rintro ⟨k, _, ⟨key, rfl, hk⟩, v, _, ⟨value, rfl, hv⟩, hz, lengths, _,
        ⟨fields, rfl, rfl, hf⟩, ⟨⟩⟩
      exact ⟨key :: value :: fields, rfl, rfl, .cons hk hz hv hf⟩
    case mpr =>
      rintro ⟨fields, rfl, hn, hf⟩
      cases hf
      case nil => contradiction
      case cons key value k v fields lengths hk hz hv hf =>
        exact ⟨k, _, ⟨key, rfl, hk⟩, v, _, ⟨value, rfl, hv⟩, hz, lengths, rest,
          ⟨fields, rfl, Nat.succ.inj hn, hf⟩, rfl⟩

end Parts

open Parts

section Headers

-- What a header says about its frame.
structure Shape where
  lengths : List Nat
  tag     : Option UInt32
  command : List Bytes → Command

-- Whether the key of a command is in a namespace.
inductive KeyedLetter : Bytes → Bool → (Key → Command) → Prop
  | get       : KeyedLetter [71] false .get
  | delete    : KeyedLetter [68] false .delete
  | getIn     : KeyedLetter [103] true .get
  | deleteIn  : KeyedLetter [100] true .delete

inductive SetLetter : Bytes → Bool → Prop
  | set   : SetLetter [83] false
  | setIn : SetLetter [115] true

inductive Header (tagged : Bool) : Bytes → List Bytes → Shape → Prop
  | keyed {letter namespaced command nss ns key k tags tag} :
      KeyedLetter letter namespaced command → IsNamespace namespaced nss ns →
      IsLength key k → k ≠ 0 → IsTag tagged tags tag →
      Header tagged letter (nss ++ key :: tags)
        ⟨[ns, k], tag, fun fields => command (keyOf fields)⟩
  | set {letter namespaced nss ns key k value v ttls secs tags tag} :
      SetLetter letter namespaced → IsNamespace namespaced nss ns →
      IsLength key k → k ≠ 0 → IsLength value v → IsTtl ttls secs → IsTag tagged tags tag →
      Header tagged letter (nss ++ key :: value :: (ttls ++ tags))
        ⟨[ns, k, v], tag, fun fields =>
          .set (keyOf fields) (valueOf fields) (secs.map fromSecs)⟩
  | incr {nsf ns key k deltaf delta tags tag} :
      IsLength nsf ns → IsLength key k → k ≠ 0 → parseDecimalI64 deltaf = some delta →
      IsTag tagged tags tag →
      Header tagged [105] (nsf :: key :: deltaf :: tags)
        ⟨[ns, k], tag, fun fields => .incr (keyOf fields) delta⟩
  | casSet {nsf ns key k value v cond condition ttls secs tags tag} :
      IsLength nsf ns → IsLength key k → k ≠ 0 → IsLength value v →
      parseCasCondition cond true = .ok condition → IsTtl ttls secs → IsTag tagged tags tag →
      Header tagged [107] (nsf :: key :: value :: cond :: (ttls ++ tags))
        ⟨[ns, k, v], tag, fun fields =>
          .casSet (keyOf fields) condition (valueOf fields) (secs.map fromSecs)⟩
  | casDelete {nsf ns key k cond digest tags tag} :
      IsLength nsf ns → IsLength key k → k ≠ 0 →
      parseCasCondition cond false = .ok (.digest digest) → IsTag tagged tags tag →
      Header tagged [120] (nsf :: key :: cond :: tags)
        ⟨[ns, k], tag, fun fields => .casDelete (keyOf fields) digest⟩
  | touch {nsf ns key k ttls secs get tags tag} :
      IsLength nsf ns → IsLength key k → k ≠ 0 → IsTtl ttls secs → IsTag tagged tags tag →
      Header tagged [116] (nsf :: key :: (ttls ++ getFlag get ++ tags))
        ⟨[ns, k], tag, fun fields => .touch (keyOf fields) (secs.map fromSecs) get⟩
  | multiGet {nsf ns count keys lengths tags tag} :
      IsLength nsf ns → IsLength count lengths.length → lengths ≠ [] →
      List.Forall₂ IsLength keys lengths → 0 ∉ lengths → IsTag tagged tags tag →
      Header tagged [109] (nsf :: count :: (keys ++ tags))
        ⟨ns :: lengths, tag, fun fields => .multiGet fields.headI fields.tail⟩
  | multiTouch {nsf ns count keys lengths ttls secs get tags tag} :
      IsLength nsf ns → IsLength count lengths.length → lengths ≠ [] →
      List.Forall₂ IsLength keys lengths → 0 ∉ lengths → IsTtl ttls secs →
      IsTag tagged tags tag →
      Header tagged [121] (nsf :: count :: (keys ++ (ttls ++ getFlag get ++ tags)))
        ⟨ns :: lengths, tag, fun fields =>
          .multiTouch fields.headI fields.tail (secs.map fromSecs) get⟩
  | multiSet {nsf ns count pairs lengths ttls secs tags tag} :
      IsLength nsf ns → IsLength count lengths.length → lengths ≠ [] →
      ArePairs pairs lengths → IsTtl ttls secs → IsTag tagged tags tag →
      Header tagged [111] (nsf :: count :: (pairs ++ (ttls ++ tags)))
        ⟨ns :: lengths.flatMap fun length => [length.1, length.2], tag, fun fields =>
          .multiSet fields.headI (unzipFields fields.tail).1 (unzipFields fields.tail).2
            (secs.map fromSecs)⟩
  | clear {nsf ns tags tag} :
      IsLength nsf ns → IsTag tagged tags tag →
      Header tagged [99] (nsf :: tags) ⟨[ns], tag, fun fields => .clear fields.headI⟩
  | clearAll {tags tag} :
      IsTag tagged tags tag → Header tagged [70] tags ⟨[], tag, fun _ => .clearAll⟩

structure Plan.Is (plan : Plan) (shape : Shape) : Prop where
  lengths : plan.lengths = shape.lengths
  tag     : plan.tag = shape.tag
  finish  : ∀ fields, plan.finish fields = .ok (shape.command fields)

end Headers
end Nanocached.Wire
