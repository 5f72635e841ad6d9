import Nanocached.Command.Grammar
import Nanocached.Lib.Ascii
import Nanocached.Lib.Fallible

-- The parser accepts the frames of the grammar, and no others.

namespace Nanocached.Wire

open Parts

variable {tagged namespaced : Bool} {letter : Bytes} {parts rest : List Bytes} {plan : Plan} {n : Nat}

theorem nextNamespace_eq_ok :
    nextNamespace namespaced parts = .ok (n, rest) ↔
      ∃ nss, parts = nss ++ rest ∧ IsNamespace namespaced nss n := by
  unfold nextNamespace
  cases namespaced
  case false =>
    rw [if_neg (by decide), pure_eq_ok]
    constructor
    case mp =>
      rintro ⟨⟩
      exact ⟨[], rfl, .unnamed⟩
    case mpr =>
      rintro ⟨_, rfl, ⟨⟩⟩
      rfl
  case true =>
    rw [if_pos rfl, nextLength_eq_ok]
    constructor
    case mp =>
      rintro ⟨field, rfl, hl⟩
      exact ⟨[field], rfl, .named hl⟩
    case mpr =>
      rintro ⟨_, rfl, ⟨⟩⟩
      rename_i field hl
      exact ⟨field, rfl, hl⟩

theorem nextCount_eq_ok :
    nextCount parts = .ok (n, rest) ↔ ∃ field, parts = field :: rest ∧ IsLength field n ∧ n ≠ 0 := by
  simp only [nextCount, bind_eq_ok, nextLength_eq_ok, check_eq_ok, pure_eq_ok]
  constructor
  case mp =>
    rintro ⟨_, _, ⟨field, rfl, hl⟩, hz, ⟨⟩⟩
    exact ⟨field, rfl, hl, hz⟩
  case mpr =>
    rintro ⟨field, rfl, hl, hz⟩
    exact ⟨n, rest, ⟨field, rfl, hl⟩, hz, rfl⟩

section Sound

theorem header_of_parseKeyed {command : Key → Command} (hl : KeyedLetter letter namespaced command)
    (h : parseKeyed tagged namespaced command parts = .ok (plan, rest)) :
    ∃ shape, Header tagged letter parts shape ∧ plan.Is shape := by
  simp only [parseKeyed, bind_eq_ok, nextNamespace_eq_ok, next_eq_ok, lift_eq_ok, finish_eq_ok,
    check_eq_ok, pure_eq_ok, parseLength_eq_ok] at h
  obtain ⟨_, _, ⟨nss, rfl, hn⟩, _, _, rfl, _, _, ht, _, _, ⟨rfl, rfl⟩, _, _, ⟨hk, rfl⟩, hz, ⟨⟩⟩ := h
  exact ⟨_, .keyed hl hn hk hz (parseTrailingTag_eq_ok.mp ht), rfl, rfl, fun _ => rfl⟩

theorem header_of_parseSet (hl : SetLetter letter namespaced)
    (h : parseSet tagged namespaced parts = .ok (plan, rest)) :
    ∃ shape, Header tagged letter parts shape ∧ plan.Is shape := by
  simp only [parseSet, bind_eq_ok, nextNamespace_eq_ok, next_eq_ok, lift_eq_ok,
    check_eq_ok, pure_eq_ok, parseLength_eq_ok, parseOptionalTtl_eq_ok] at h
  obtain ⟨_, _, ⟨nss, rfl, hn⟩, _, _, rfl, _, _, rfl, ⟨ttl, tag⟩, _, ht, _, _, ⟨hk, rfl⟩, _, _,
    ⟨hv, rfl⟩, hz, _, _, ⟨⟨secs, hs, rfl⟩, rfl⟩, ⟨⟩⟩ := h
  obtain ⟨⟨tags, rfl, hg⟩, rfl⟩ := parseTtlAndTag_eq_ok.mp ht
  exact ⟨_, .set hl hn hk hz hv hs hg, rfl, rfl, fun _ => rfl⟩

theorem header_of_parseIncr (h : parseIncr tagged parts = .ok (plan, rest)) :
    ∃ shape, Header tagged [105] parts shape ∧ plan.Is shape := by
  simp only [parseIncr, bind_eq_ok, nextLength_eq_ok, next_eq_ok, lift_eq_ok, finish_eq_ok,
    check_eq_ok, parseLength_eq_ok] at h
  obtain ⟨_, _, ⟨nsf, rfl, hn⟩, _, _, rfl, deltaf, _, rfl, _, _, ht, _, _, ⟨rfl, rfl⟩, _, _,
    ⟨hk, rfl⟩, hz, h⟩ := h
  cases hd : parseDecimalI64 deltaf
  case none =>
    rw [hd] at h
    contradiction
  case some delta =>
    rw [hd] at h
    cases pure_eq_ok.mp h
    exact ⟨_, .incr hn hk hz hd (parseTrailingTag_eq_ok.mp ht), rfl, rfl, fun _ => rfl⟩

theorem header_of_parseCasSet (h : parseCasSet tagged parts = .ok (plan, rest)) :
    ∃ shape, Header tagged [107] parts shape ∧ plan.Is shape := by
  simp only [parseCasSet, bind_eq_ok, nextLength_eq_ok, next_eq_ok, lift_eq_ok,
    check_eq_ok, pure_eq_ok, parseLength_eq_ok, parseOptionalTtl_eq_ok] at h
  obtain ⟨_, _, ⟨nsf, rfl, hn⟩, _, _, rfl, _, _, rfl, _, _, rfl, _, _, ⟨hc, rfl⟩, ⟨ttl, tag⟩, _, ht,
    _, _, ⟨hk, rfl⟩, _, _, ⟨hv, rfl⟩, hz, _, _, ⟨⟨secs, hs, rfl⟩, rfl⟩, ⟨⟩⟩ := h
  obtain ⟨⟨tags, rfl, hg⟩, rfl⟩ := parseTtlAndTag_eq_ok.mp ht
  exact ⟨_, .casSet hn hk hz hv hc hs hg, rfl, rfl, fun _ => rfl⟩

theorem header_of_parseCasDelete (h : parseCasDelete tagged parts = .ok (plan, rest)) :
    ∃ shape, Header tagged [120] parts shape ∧ plan.Is shape := by
  simp only [parseCasDelete, bind_eq_ok, nextLength_eq_ok, next_eq_ok, lift_eq_ok] at h
  obtain ⟨_, _, ⟨nsf, rfl, hn⟩, _, _, rfl, _, _, rfl, condition, _, ⟨hc, rfl⟩, h⟩ := h
  split at h
  case h_1 digest =>
    simp only [bind_eq_ok, lift_eq_ok, finish_eq_ok, check_eq_ok, pure_eq_ok,
      parseLength_eq_ok] at h
    obtain ⟨_, _, ht, _, _, ⟨rfl, rfl⟩, _, _, ⟨hk, rfl⟩, hz, ⟨⟩⟩ := h
    exact ⟨_, .casDelete hn hk hz hc (parseTrailingTag_eq_ok.mp ht), rfl, rfl, fun _ => rfl⟩
  case h_2 => contradiction

theorem header_of_parseTouch (h : parseTouch tagged parts = .ok (plan, rest)) :
    ∃ shape, Header tagged [116] parts shape ∧ plan.Is shape := by
  simp only [parseTouch, bind_eq_ok, nextLength_eq_ok, next_eq_ok, lift_eq_ok, check_eq_ok,
    pure_eq_ok, parseLength_eq_ok] at h
  obtain ⟨_, _, ⟨nsf, rfl, hn⟩, _, _, rfl, ⟨ttl, get, tag⟩, _, ht, _, _, ⟨hk, rfl⟩, hz, ⟨⟩⟩ := h
  obtain ⟨⟨ttls, secs, tags, rfl, hs, hg, rfl⟩, rfl⟩ := parseTouchTail_eq_ok.mp ht
  exact ⟨_, .touch hn hk hz hs hg, rfl, rfl, fun _ => rfl⟩

theorem header_of_parseMultiGet (h : parseMultiGet tagged parts = .ok (plan, rest)) :
    ∃ shape, Header tagged [109] parts shape ∧ plan.Is shape := by
  simp only [parseMultiGet, bind_eq_ok, nextLength_eq_ok, nextCount_eq_ok, keyLengths_eq_ok,
    finish_eq_ok, pure_eq_ok] at h
  obtain ⟨_, _, ⟨nsf, rfl, hn⟩, _, _, ⟨count, rfl, hc, hz⟩, lengths, _,
    ⟨keys, rfl, rfl, hk, hk'⟩, _, _, ht, _, _, ⟨rfl, rfl⟩, ⟨⟩⟩ := h
  exact ⟨_, .multiGet hn hc (List.ne_nil_of_length_pos (Nat.pos_of_ne_zero hz)) hk hk'
    (parseTrailingTag_eq_ok.mp ht), rfl, rfl, fun _ => rfl⟩

theorem header_of_parseMultiTouch (h : parseMultiTouch tagged parts = .ok (plan, rest)) :
    ∃ shape, Header tagged [121] parts shape ∧ plan.Is shape := by
  simp only [parseMultiTouch, bind_eq_ok, nextLength_eq_ok, nextCount_eq_ok, keyLengths_eq_ok,
    pure_eq_ok] at h
  obtain ⟨_, _, ⟨nsf, rfl, hn⟩, _, _, ⟨count, rfl, hc, hz⟩, lengths, _,
    ⟨keys, rfl, rfl, hk, hk'⟩, ⟨ttl, get, tag⟩, _, ht, ⟨⟩⟩ := h
  obtain ⟨⟨ttls, secs, tags, rfl, hs, hg, rfl⟩, rfl⟩ := parseTouchTail_eq_ok.mp ht
  exact ⟨_, .multiTouch hn hc (List.ne_nil_of_length_pos (Nat.pos_of_ne_zero hz)) hk hk' hs hg,
    rfl, rfl, fun _ => rfl⟩

theorem header_of_parseMultiSet (h : parseMultiSet tagged parts = .ok (plan, rest)) :
    ∃ shape, Header tagged [111] parts shape ∧ plan.Is shape := by
  simp only [parseMultiSet, bind_eq_ok, nextLength_eq_ok, nextCount_eq_ok, pairLengths_eq_ok,
    lift_eq_ok, parseOptionalTtl_eq_ok, pure_eq_ok] at h
  obtain ⟨_, _, ⟨nsf, rfl, hn⟩, _, _, ⟨count, rfl, hc, hz⟩, lengths, _,
    ⟨pairs, rfl, rfl, hp⟩, ⟨ttl, tag⟩, _, ht, _, _, ⟨⟨secs, hs, rfl⟩, rfl⟩, ⟨⟩⟩ := h
  obtain ⟨⟨tags, rfl, hg⟩, rfl⟩ := parseTtlAndTag_eq_ok.mp ht
  exact ⟨_, .multiSet hn hc (List.ne_nil_of_length_pos (Nat.pos_of_ne_zero hz)) hp hs hg,
    rfl, rfl, fun _ => rfl⟩

theorem header_of_parseClear (h : parseClear tagged parts = .ok (plan, rest)) :
    ∃ shape, Header tagged [99] parts shape ∧ plan.Is shape := by
  simp only [parseClear, bind_eq_ok, next_eq_ok, lift_eq_ok, finish_eq_ok, pure_eq_ok,
    parseLength_eq_ok] at h
  obtain ⟨_, _, rfl, _, _, ht, _, _, ⟨rfl, rfl⟩, _, _, ⟨hn, rfl⟩, ⟨⟩⟩ := h
  exact ⟨_, .clear hn (parseTrailingTag_eq_ok.mp ht), rfl, rfl, fun _ => rfl⟩

theorem header_of_parseClearAll (h : parseClearAll tagged parts = .ok (plan, rest)) :
    ∃ shape, Header tagged [70] parts shape ∧ plan.Is shape := by
  simp only [parseClearAll, bind_eq_ok, finish_eq_ok, pure_eq_ok] at h
  obtain ⟨_, _, ht, _, _, ⟨rfl, rfl⟩, ⟨⟩⟩ := h
  exact ⟨_, .clearAll (parseTrailingTag_eq_ok.mp ht), rfl, rfl, fun _ => rfl⟩

-- The commands of clients.
def clientLetters : List Bytes :=
  [[71], [68], [103], [100], [83], [115], [105], [107], [120], [116], [109], [121], [111], [99], [70]]

theorem header_of_parseHeader (hl : letter ∈ clientLetters)
    (h : parseHeader tagged letter parts = .ok (plan, rest)) :
    ∃ shape, Header tagged letter parts shape ∧ plan.Is shape := by
  simp only [clientLetters, List.mem_cons, List.not_mem_nil, or_false] at hl
  rcases hl with rfl | rfl | rfl | rfl | rfl | rfl | rfl | rfl | rfl | rfl | rfl | rfl | rfl | rfl |
    rfl
  · exact header_of_parseKeyed .get h
  · exact header_of_parseKeyed .delete h
  · exact header_of_parseKeyed .getIn h
  · exact header_of_parseKeyed .deleteIn h
  · exact header_of_parseSet .set h
  · exact header_of_parseSet .setIn h
  · exact header_of_parseIncr h
  · exact header_of_parseCasSet h
  · exact header_of_parseCasDelete h
  · exact header_of_parseTouch h
  · exact header_of_parseMultiGet h
  · exact header_of_parseMultiTouch h
  · exact header_of_parseMultiSet h
  · exact header_of_parseClear h
  · exact header_of_parseClearAll h

end Sound

section Complete

variable {key value : Bytes} {nss ttls tags : List Bytes} {ns k v : Nat}
variable {secs : Option Nat} {tag : Option UInt32}

theorem parseKeyed_eq {command : Key → Command} (hn : IsNamespace namespaced nss ns)
    (hk : IsLength key k) (hz : k ≠ 0) (ht : IsTag tagged tags tag) :
    parseKeyed tagged namespaced command (nss ++ key :: tags) =
      .ok (⟨[ns, k], none, tag, fun fields => .ok (command (keyOf fields))⟩, []) := by
  simp only [parseKeyed, bind_eq_ok, nextNamespace_eq_ok, next_eq_ok, lift_eq_ok, finish_eq_ok,
    check_eq_ok, pure_eq_ok, parseLength_eq_ok]
  exact ⟨_, _, ⟨nss, rfl, hn⟩, _, _, rfl, _, _, parseTrailingTag_eq_ok.mpr ht, (), [],
    ⟨rfl, rfl⟩, _, _, ⟨hk, rfl⟩, hz, rfl⟩

theorem IsTtl.head? (h : IsTtl ttls secs) : IsTtl ttls.head?.toList secs := by
  cases h
  case none    => exact .none
  case some hl => exact .some hl

theorem parseTtlAndTag_of_isTtl (hs : IsTtl ttls secs) (ht : IsTag tagged tags tag) :
    parseTtlAndTag tagged (ttls ++ tags) = .ok ((ttls.head?, tag), ttls ++ tags) := by
  refine parseTtlAndTag_eq_ok.mpr ⟨⟨tags, ?_, ht⟩, rfl⟩
  cases hs <;> rfl

theorem parseSet_eq (hn : IsNamespace namespaced nss ns) (hk : IsLength key k) (hz : k ≠ 0)
    (hv : IsLength value v) (hs : IsTtl ttls secs) (ht : IsTag tagged tags tag) :
    parseSet tagged namespaced (nss ++ key :: value :: (ttls ++ tags)) =
      .ok (⟨[ns, k, v], none, tag, fun fields =>
        .ok (.set (keyOf fields) (valueOf fields) (secs.map fromSecs))⟩, ttls ++ tags) := by
  simp only [parseSet, bind_eq_ok, nextNamespace_eq_ok, next_eq_ok, lift_eq_ok,
    check_eq_ok, pure_eq_ok, parseLength_eq_ok, parseOptionalTtl_eq_ok]
  exact ⟨_, _, ⟨nss, rfl, hn⟩, _, _, rfl, _, _, rfl, _, _, parseTtlAndTag_of_isTtl hs ht, _, _,
    ⟨hk, rfl⟩, _, _, ⟨hv, rfl⟩, hz, _, _, ⟨⟨secs, hs.head?, rfl⟩, rfl⟩, rfl⟩

theorem parseHeader_of_header {shape : Shape} (h : Header tagged letter parts shape) :
    ∃ plan rest, parseHeader tagged letter parts = .ok (plan, rest) ∧ plan.Is shape := by
  cases h
  case keyed hn hk hz ht hl =>
    cases hl <;> exact ⟨_, _, parseKeyed_eq hn hk hz ht, rfl, rfl, fun _ => rfl⟩
  case set hn hk hz hv hs ht hl =>
    cases hl <;> exact ⟨_, _, parseSet_eq hn hk hz hv hs ht, rfl, rfl, fun _ => rfl⟩
  case incr hn hk hz hd ht =>
    show ∃ plan rest, parseIncr tagged _ = .ok (plan, rest) ∧ _
    simp only [parseIncr, bind_eq_ok, nextLength_eq_ok, next_eq_ok, lift_eq_ok, finish_eq_ok,
      check_eq_ok, parseLength_eq_ok]
    exact ⟨_, _, ⟨_, _, ⟨_, rfl, hn⟩, _, _, rfl, _, _, rfl, _, _, parseTrailingTag_eq_ok.mpr ht,
      (), [], ⟨rfl, rfl⟩, _, _, ⟨hk, rfl⟩, hz, by rw [hd]; rfl⟩, rfl, rfl, fun _ => rfl⟩
  case casSet hn hk hz hv hc hs ht =>
    show ∃ plan rest, parseCasSet tagged _ = .ok (plan, rest) ∧ _
    simp only [parseCasSet, bind_eq_ok, nextLength_eq_ok, next_eq_ok, lift_eq_ok,
      check_eq_ok, pure_eq_ok, parseLength_eq_ok, parseOptionalTtl_eq_ok]
    exact ⟨_, _, ⟨_, _, ⟨_, rfl, hn⟩, _, _, rfl, _, _, rfl, _, _, rfl, _, _, ⟨hc, rfl⟩, _, _,
      parseTtlAndTag_of_isTtl hs ht, _, _, ⟨hk, rfl⟩, _, _, ⟨hv, rfl⟩, hz, _, _,
      ⟨⟨_, hs.head?, rfl⟩, rfl⟩, rfl⟩, rfl, rfl, fun _ => rfl⟩
  case casDelete hn hk hz hc ht =>
    show ∃ plan rest, parseCasDelete tagged _ = .ok (plan, rest) ∧ _
    simp only [parseCasDelete, bind_eq_ok, nextLength_eq_ok, next_eq_ok, lift_eq_ok]
    have hk := parseLength_eq_ok.mpr hk
    exact ⟨_, _, ⟨_, _, ⟨_, rfl, hn⟩, _, _, rfl, _, _, rfl, _, _, ⟨hc, rfl⟩,
      bind_eq_ok.mpr ⟨_, _, parseTrailingTag_eq_ok.mpr ht, bind_eq_ok.mpr ⟨(), [], rfl,
        bind_eq_ok.mpr ⟨_, _, lift_eq_ok.mpr ⟨hk, rfl⟩, check_eq_ok.mpr ⟨hz, rfl⟩⟩⟩⟩⟩,
      rfl, rfl, fun _ => rfl⟩
  case touch hn hk hz hs ht =>
    show ∃ plan rest, parseTouch tagged _ = .ok (plan, rest) ∧ _
    simp only [parseTouch, bind_eq_ok, nextLength_eq_ok, next_eq_ok, lift_eq_ok, check_eq_ok,
      pure_eq_ok, parseLength_eq_ok]
    exact ⟨_, _, ⟨_, _, ⟨_, rfl, hn⟩, _, _, rfl, (_, _, _), _,
      parseTouchTail_eq_ok.mpr ⟨⟨_, _, _, rfl, hs, ht, rfl⟩, rfl⟩, _, _, ⟨hk, rfl⟩, hz, rfl⟩,
      rfl, rfl, fun _ => rfl⟩
  case multiGet hn hc hne hk hz ht =>
    show ∃ plan rest, parseMultiGet tagged _ = .ok (plan, rest) ∧ _
    simp only [parseMultiGet, bind_eq_ok, nextLength_eq_ok, nextCount_eq_ok, keyLengths_eq_ok,
      finish_eq_ok, pure_eq_ok]
    exact ⟨_, _, ⟨_, _, ⟨_, rfl, hn⟩, _, _, ⟨_, rfl, hc, by simpa using hne⟩, _, _,
      ⟨_, rfl, rfl, hk, hz⟩, _, _, parseTrailingTag_eq_ok.mpr ht, (), [], ⟨rfl, rfl⟩, rfl⟩,
      rfl, rfl, fun _ => rfl⟩
  case multiTouch hn hc hne hk hz hs ht =>
    show ∃ plan rest, parseMultiTouch tagged _ = .ok (plan, rest) ∧ _
    simp only [parseMultiTouch, bind_eq_ok, nextLength_eq_ok, nextCount_eq_ok, keyLengths_eq_ok,
      pure_eq_ok]
    exact ⟨_, _, ⟨_, _, ⟨_, rfl, hn⟩, _, _, ⟨_, rfl, hc, by simpa using hne⟩, _, _,
      ⟨_, rfl, rfl, hk, hz⟩, (_, _, _), _,
      parseTouchTail_eq_ok.mpr ⟨⟨_, _, _, rfl, hs, ht, rfl⟩, rfl⟩, rfl⟩, rfl, rfl, fun _ => rfl⟩
  case multiSet hn hc hne hp hs ht =>
    show ∃ plan rest, parseMultiSet tagged _ = .ok (plan, rest) ∧ _
    simp only [parseMultiSet, bind_eq_ok, nextLength_eq_ok, nextCount_eq_ok, pairLengths_eq_ok,
      lift_eq_ok, parseOptionalTtl_eq_ok, pure_eq_ok]
    exact ⟨_, _, ⟨_, _, ⟨_, rfl, hn⟩, _, _, ⟨_, rfl, hc, by simpa using hne⟩, _, _,
      ⟨_, rfl, rfl, hp⟩, _, _, parseTtlAndTag_of_isTtl hs ht, _, _, ⟨⟨_, hs.head?, rfl⟩, rfl⟩, rfl⟩,
      rfl, rfl, fun _ => rfl⟩
  case clear hn ht =>
    show ∃ plan rest, parseClear tagged _ = .ok (plan, rest) ∧ _
    simp only [parseClear, bind_eq_ok, next_eq_ok, lift_eq_ok, finish_eq_ok, pure_eq_ok,
      parseLength_eq_ok]
    exact ⟨_, _, ⟨_, _, rfl, _, _, parseTrailingTag_eq_ok.mpr ht, (), [], ⟨rfl, rfl⟩, _, _,
      ⟨hn, rfl⟩, rfl⟩, rfl, rfl, fun _ => rfl⟩
  case clearAll ht =>
    show ∃ plan rest, parseClearAll tagged _ = .ok (plan, rest) ∧ _
    simp only [parseClearAll, bind_eq_ok, finish_eq_ok, pure_eq_ok]
    exact ⟨_, _, ⟨_, _, parseTrailingTag_eq_ok.mpr ht, (), [], ⟨rfl, rfl⟩, rfl⟩, rfl, rfl, fun _ => rfl⟩

end Complete

section Ascii

def IsAscii (field : Bytes) : Prop :=
  ∀ byte ∈ field, byte < 128

variable {field : Bytes} {fields : List Bytes}

theorem lt_of_isDigit {byte : UInt8} (h : Decimal.isDigit byte) : byte < 128 := by
  have hd := (Decimal.isDigit_iff.mp h).right
  exact UInt8.lt_iff_toNat_lt.mpr (by rw [show (128 : UInt8).toNat = 128 from rfl]; omega)

theorem IsLength.isAscii (h : IsLength field n) : IsAscii field :=
  fun byte hm => lt_of_isDigit (h.digits byte hm)

theorem IsTag.isAscii {tag : Option UInt32} (h : IsTag tagged fields tag) :
    ∀ field ∈ fields, IsAscii field := by
  cases h
  case untagged  => simp
  case tagged hl => simpa using hl.isAscii

theorem IsTtl.isAscii {secs : Option Nat} (h : IsTtl fields secs) :
    ∀ field ∈ fields, IsAscii field := by
  cases h
  case none    => simp
  case some hl => simpa using hl.isAscii

theorem IsNamespace.isAscii (h : IsNamespace namespaced fields n) :
    ∀ field ∈ fields, IsAscii field := by
  cases h
  case unnamed  => simp
  case named hl => simpa using hl.isAscii

theorem isAscii_getFlag {get : Bool} : ∀ field ∈ getFlag get, IsAscii field := by
  cases get
  case false => simp [getFlag]
  case true  => simp [getFlag, IsAscii]

theorem isAscii_of_forall₂ {lengths : List Nat} (h : List.Forall₂ IsLength fields lengths) :
    ∀ field ∈ fields, IsAscii field := by
  induction h
  case nil => simp
  case cons hl _ hi =>
    rw [List.forall_mem_cons]
    exact ⟨hl.isAscii, hi⟩

theorem ArePairs.isAscii {lengths : List (Nat × Nat)} (h : ArePairs fields lengths) :
    ∀ field ∈ fields, IsAscii field := by
  induction h
  case nil => simp
  case cons hk _ hv _ hi =>
    rw [List.forall_mem_cons, List.forall_mem_cons]
    exact ⟨hk.isAscii, hv.isAscii, hi⟩

theorem isAscii_of_parseMagnitude {negative : Bool} {delta : Int}
    (h : parseMagnitude negative field = some delta) : IsAscii field := by
  unfold parseMagnitude at h
  split at h
  case isTrue => contradiction
  case isFalse hd =>
    simp only [Bool.or_eq_true, Bool.not_eq_true', not_or, Bool.not_eq_false,
      List.all_eq_true] at hd
    exact fun byte hm => lt_of_isDigit (hd.right byte hm)

theorem isAscii_of_parseDecimalI64 {delta : Int} (h : parseDecimalI64 field = some delta) :
    IsAscii field := by
  unfold parseDecimalI64 at h
  split at h
  case h_1 digits =>
    rw [IsAscii, List.forall_mem_cons]
    exact ⟨by decide, isAscii_of_parseMagnitude h⟩
  case h_2 => exact isAscii_of_parseMagnitude h

theorem lt_of_hexNibble {byte nibble : UInt8} (h : hexNibble byte = .ok nibble) : byte < 128 := by
  unfold hexNibble at h
  split at h
  case isTrue hb => exact UInt8.lt_of_le_of_lt hb.right (by decide)
  case isFalse =>
    split at h
    case isTrue hb => exact UInt8.lt_of_le_of_lt hb.right (by decide)
    case isFalse   => contradiction

theorem isAscii_of_parseHex {digest : Bytes} (h : parseHex field = .ok digest)
    (he : Even field.length) : IsAscii field := by
  induction field using parseHex.induct generalizing digest
  case case1 high low field hi =>
    simp only [parseHex, Fallible.bind_eq_ok] at h
    obtain ⟨_, hh, _, hl, _, hf, -⟩ := h
    rw [IsAscii, List.forall_mem_cons, List.forall_mem_cons]
    refine ⟨lt_of_hexNibble hh, lt_of_hexNibble hl, hi hf ?_⟩
    simpa [Nat.even_add_one] using he
  case case2 field hne =>
    rcases field with _ | ⟨byte, _ | ⟨low, field⟩⟩
    case nil       => simp [IsAscii]
    case cons.nil  => exact absurd he (by simp)
    case cons.cons => exact absurd rfl (hne _ _ _)

theorem isAscii_of_parseCasCondition {condition : CasCondition} {allow : Bool}
    (h : parseCasCondition field allow = .ok condition) : IsAscii field := by
  unfold parseCasCondition parseDigest at h
  split_ifs at h with ha hp hl
  case pos =>
    simp only [Bool.and_eq_true, decide_eq_true_eq] at ha
    simp [ha.right, IsAscii]
  case pos =>
    simp only [Bool.and_eq_true, decide_eq_true_eq] at hp
    simp [hp.right, IsAscii]
  case pos =>
    simp only [Fallible.map_eq_ok, Fallible.bind_eq_ok] at h
    obtain ⟨_, ⟨digest, hd, -⟩, -⟩ := h
    exact isAscii_of_parseHex hd (hl ▸ by decide)

theorem Header.isAscii {shape : Shape} (h : Header tagged letter parts shape) :
    ∀ field ∈ letter :: parts, IsAscii field := by
  have hl : ∀ {byte : UInt8}, byte < 128 → IsAscii [byte] := by simp [IsAscii]
  cases h <;> simp only [List.forall_mem_cons, List.forall_mem_append]
  case keyed hn hk hz ht hl' =>
    refine ⟨?_, hn.isAscii, hk.isAscii, ht.isAscii⟩
    cases hl' <;> exact hl (by decide)
  case set hn hk hz hv hs ht hl' =>
    refine ⟨?_, hn.isAscii, hk.isAscii, hv.isAscii, hs.isAscii, ht.isAscii⟩
    cases hl' <;> exact hl (by decide)
  case incr hn hk hz hd ht =>
    exact ⟨hl (by decide), hn.isAscii, hk.isAscii, isAscii_of_parseDecimalI64 hd, ht.isAscii⟩
  case casSet hn hk hz hv hc hs ht =>
    exact ⟨hl (by decide), hn.isAscii, hk.isAscii, hv.isAscii, isAscii_of_parseCasCondition hc,
      hs.isAscii, ht.isAscii⟩
  case casDelete hn hk hz hc ht =>
    exact ⟨hl (by decide), hn.isAscii, hk.isAscii, isAscii_of_parseCasCondition hc, ht.isAscii⟩
  case touch hn hk hz hs ht =>
    exact ⟨hl (by decide), hn.isAscii, hk.isAscii, ⟨hs.isAscii, isAscii_getFlag⟩, ht.isAscii⟩
  case multiGet hn hc hne hk hz ht =>
    exact ⟨hl (by decide), hn.isAscii, hc.isAscii, isAscii_of_forall₂ hk, ht.isAscii⟩
  case multiTouch hn hc hne hk hz hs ht =>
    exact ⟨hl (by decide), hn.isAscii, hc.isAscii, isAscii_of_forall₂ hk,
      ⟨hs.isAscii, isAscii_getFlag⟩, ht.isAscii⟩
  case multiSet hn hc hne hp hs ht =>
    exact ⟨hl (by decide), hn.isAscii, hc.isAscii, hp.isAscii, hs.isAscii, ht.isAscii⟩
  case clear hn ht => exact ⟨hl (by decide), hn.isAscii, ht.isAscii⟩
  case clearAll ht => exact ⟨hl (by decide), ht.isAscii⟩

end Ascii
end Nanocached.Wire
