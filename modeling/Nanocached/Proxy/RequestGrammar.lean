import Nanocached.Command.Accepts
import Nanocached.Lib.Fallible
import Nanocached.Proxy.Request

-- The proxy accepts the headers of the grammar, and no others.

namespace Nanocached.Proxy.Client

open Fallible Wire

variable {tagged namespaced allow : Bool} {letter field : Bytes} {fields rest : List Bytes} {n : Nat}
variable {tag : Option UInt32} {shape : Client.Shape}

section Fields

theorem lengthField_eq_ok : lengthField field = .ok n ↔ IsLength field n := by
  unfold lengthField
  split
  case isTrue h =>
    refine ⟨fun he => by contradiction, fun hl => ?_⟩
    simp only [Bool.or_eq_true, List.isEmpty_iff, Bool.not_eq_true', List.all_eq_false] at h
    rcases h with h | ⟨byte, hm, hd⟩
    case inl => exact absurd h hl.ne_nil
    case inr => exact absurd (hl.digits byte hm) hd
  case isFalse h =>
    simp only [Bool.or_eq_true, List.isEmpty_iff, Bool.not_eq_true', not_or,
      Bool.not_eq_false, List.all_eq_true] at h
    split
    case isTrue hn =>
      refine ⟨fun he => ?_, fun hl => congrArg _ hl.value⟩
      cases he
      exact ⟨h.left, h.right, rfl, hn⟩
    case isFalse hn =>
      refine ⟨fun he => by contradiction, fun hl => ?_⟩
      exact absurd (hl.value ▸ hl.lt) hn

theorem peelTag_eq_ok :
    peelTag tagged fields = .ok (rest, tag) ↔ ∃ tags, fields = rest ++ tags ∧ IsTag tagged tags tag := by
  unfold peelTag
  cases tagged
  case false =>
    rw [if_neg (by decide)]
    constructor
    case mp =>
      rintro ⟨⟩
      exact ⟨[], by rw [List.append_nil], .untagged⟩
    case mpr =>
      rintro ⟨_, rfl, ⟨⟩⟩
      rw [List.append_nil]
  case true =>
    rw [if_pos rfl]
    constructor
    case mp =>
      intro h
      split at h
      case h_1 => contradiction
      case h_2 field hf =>
        simp only [bind_eq_ok, lengthField_eq_ok] at h
        obtain ⟨n, hl, h⟩ := h
        split at h
        case isTrue hn =>
          cases h
          refine ⟨[field], (List.dropLast_append_getLast? field hf).symm, .tagged ?_⟩
          rwa [UInt32.toNat_ofNat_of_lt' hn]
        case isFalse => contradiction
    case mpr =>
      rintro ⟨_, rfl, ⟨⟩⟩
      rename_i field tag hl
      rw [List.getLast?_concat, List.dropLast_concat]
      simp only [bind_eq_ok, lengthField_eq_ok]
      refine ⟨tag.toNat, hl, ?_⟩
      rw [if_pos tag.toNat_lt, UInt32.ofNat_toNat]
      rfl

theorem bind_peelTag_eq_ok {α : Type} {f : List Bytes × Option UInt32 → Parsed α} {a : α} :
    peelTag tagged fields >>= f = .ok a ↔
      ∃ rest tags tag, fields = rest ++ tags ∧ IsTag tagged tags tag ∧ f (rest, tag) = .ok a := by
  simp only [bind_eq_ok, Prod.exists, peelTag_eq_ok]
  constructor
  case mp  => exact fun ⟨rest, tag, ⟨tags, he, ht⟩, h⟩ => ⟨rest, tags, tag, he, ht, h⟩
  case mpr => exact fun ⟨rest, tags, tag, he, ht, h⟩ => ⟨rest, tag, ⟨tags, he, ht⟩, h⟩

theorem bind_splitTag_eq_ok {α : Type} {f : List Nat × Option UInt32 → Parsed α} {a : α} :
    splitTag tagged fields >>= f = .ok a ↔
      ∃ rest tags lengths tag, fields = rest ++ tags ∧ List.Forall₂ IsLength rest lengths ∧
        IsTag tagged tags tag ∧ f (lengths, tag) = .ok a := by
  rw [splitTag, bind_assoc, bind_peelTag_eq_ok]
  simp only [bind_assoc, pure_bind, bind_eq_ok, mapM_eq_ok lengthField_eq_ok]
  constructor
  case mp =>
    exact fun ⟨rest, tags, tag, he, ht, lengths, hl, h⟩ => ⟨rest, tags, lengths, tag, he, hl, ht, h⟩
  case mpr =>
    exact fun ⟨rest, tags, lengths, tag, he, hl, ht, h⟩ => ⟨rest, tags, tag, he, ht, lengths, hl, h⟩

theorem deltaMagnitude_eq_ok {negative : Bool} {digits : Bytes} {delta : Int} :
    deltaMagnitude negative digits = .ok delta ↔ parseMagnitude negative digits = some delta := by
  unfold deltaMagnitude parseMagnitude
  dsimp only
  split_ifs <;> simp

theorem parseDeltaField_eq_ok {delta : Int} :
    parseDeltaField field = .ok delta ↔ parseDecimalI64 field = some delta := by
  by_cases hf : ∃ digits, field = 45 :: digits
  case pos =>
    obtain ⟨digits, rfl⟩ := hf
    exact deltaMagnitude_eq_ok
  case neg =>
    have hd : parseDeltaField field = deltaMagnitude false field := by
      unfold parseDeltaField
      split
      case h_1 digits => exact absurd ⟨digits, rfl⟩ hf
      case h_2        => rfl
    have hi : parseDecimalI64 field = parseMagnitude false field := by
      unfold parseDecimalI64
      split
      case h_1 digits => exact absurd ⟨digits, rfl⟩ hf
      case h_2        => rfl
    rw [hd, hi]
    exact deltaMagnitude_eq_ok

theorem hexNibbleField_eq_ok {byte nibble : UInt8} :
    hexNibbleField byte = .ok nibble ↔ hexNibble byte = .ok nibble := by
  unfold hexNibbleField hexNibble
  split_ifs <;> simp

theorem digestField_eq_ok {digest : Bytes} :
    digestField field = .ok digest ↔ parseHex field = .ok digest := by
  induction field using parseHex.induct generalizing digest
  case case1 high low field hi =>
    simp only [digestField, parseHex, bind_eq_ok, pure_eq_ok, hexNibbleField_eq_ok, hi]
  case case2 field hne =>
    unfold digestField parseHex
    split
    case h_1 => exact absurd rfl (hne _ _ _)
    case h_2 => simp

theorem parseCasConditionField_eq_ok {condition : CasCondition} :
    parseCasConditionField field allow = .ok condition ↔
      parseCasCondition field allow = .ok condition := by
  unfold parseCasConditionField parseCasCondition parseDigest
  split_ifs
  case pos => simp
  case pos => simp
  case pos =>
    simp only [bind_eq_ok, map_eq_ok, digestField_eq_ok]
    constructor
    case mp =>
      rintro ⟨digest, hd, h⟩
      split at h
      case isTrue hs =>
        cases h
        exact ⟨_, ⟨digest, hd, dif_pos hs⟩, rfl⟩
      case isFalse => contradiction
    case mpr =>
      rintro ⟨_, ⟨digest, hd, h⟩, rfl⟩
      split at h
      case isTrue hs =>
        cases h
        exact ⟨digest, hd, dif_pos hs⟩
      case isFalse => contradiction
  case neg => simp

theorem touchTtl_eq_ok {ttl : Option Nat} {header : String} :
    touchTtl fields header = .ok ttl ↔ IsTtl fields ttl := by
  unfold touchTtl
  split
  case h_1 =>
    constructor
    case mp =>
      rintro ⟨⟩
      exact .none
    case mpr =>
      rintro ⟨⟩
      rfl
  case h_2 field =>
    rw [map_eq_ok]
    constructor
    case mp =>
      rintro ⟨secs, hl, rfl⟩
      exact .some (lengthField_eq_ok.mp hl)
    case mpr =>
      rintro ⟨⟩
      rename_i secs hl
      exact ⟨secs, lengthField_eq_ok.mpr hl, rfl⟩
  case h_3 h₁ h₂ =>
    refine ⟨fun h => by contradiction, ?_⟩
    rintro ⟨⟩
    case none => exact absurd rfl h₁
    case some => exact absurd rfl (h₂ _)

end Fields

section Shapes

-- The command a node is asked for by a request.
def command : Request → Wire.Command
  | .get key                        => .get key
  | .set key value ttl              => .set key value (ttl.map fromSecs)
  | .delete key                     => .delete key
  | .incr key delta                 => .incr key delta
  | .casSet key condition value ttl => .casSet key condition value (ttl.map fromSecs)
  | .casDelete key expectedDigest   => .casDelete key expectedDigest
  | .touch key ttl get              => .touch key (ttl.map fromSecs) get
  | .clear ns                       => .clear ns
  | .clearAll                       => .clearAll
  | .multiGet ns keys               => .multiGet ns keys
  | .multiSet ns keys values ttl    => .multiSet ns keys values (ttl.map fromSecs)
  | .multiTouch ns keys ttl get     => .multiTouch ns keys (ttl.map fromSecs) get

structure Shape.Is (shape : Client.Shape) (shape' : Wire.Shape) : Prop where
  lengths : shape.lengths = shape'.lengths
  tag     : shape.tag = shape'.tag
  finish  : ∀ fields, ∃ request,
              shape.finish fields = .ready request shape'.tag ∧ command request = shape'.command fields

-- The header has a shape of the grammar.
def Shape.Reads (shape : Client.Shape) (tagged : Bool) (letter : Bytes) (fields : List Bytes) :
    Prop :=
  ∃ shape', Header tagged letter fields shape' ∧ shape.Is shape'

theorem is_ready {lengths : List Nat} {request : List Bytes → Request} :
    (ready lengths tag request).Is ⟨lengths, tag, fun fields => command (request fields)⟩ where
  lengths       := rfl
  tag           := rfl
  finish fields := ⟨request fields, rfl, rfl⟩

theorem is_charged {kind : MultiKind} {keys : Nat} {shape' : Wire.Shape} (h : shape.Is shape') :
    (charged kind keys shape).Is shape' :=
  ⟨h.lengths, h.tag, h.finish⟩

end Shapes

section Sound

theorem header_of_keyed {request : Key → Request}
    (hl : KeyedLetter letter namespaced fun key => command (request key))
    (h : keyed tagged fields namespaced request = .ok shape) :
    shape.Reads tagged letter fields := by
  obtain ⟨rest, tags, lengths, tag, rfl, hr, ht, h⟩ := bind_splitTag_eq_ok.mp h
  dsimp only at h
  split at h
  case h_1 =>
    simp only [bind_eq_ok, pure_eq_ok, check_eq_ok] at h
    obtain ⟨_, rfl, hz, rfl⟩ := h
    obtain _ | ⟨hk, ⟨⟩⟩ := hr
    exact ⟨_, .keyed hl .unnamed hk hz ht, is_ready⟩
  case h_2 =>
    simp only [bind_eq_ok, pure_eq_ok, check_eq_ok] at h
    obtain ⟨_, rfl, hz, rfl⟩ := h
    obtain _ | ⟨hn, _ | ⟨hk, ⟨⟩⟩⟩ := hr
    exact ⟨_, .keyed hl (.named hn) hk hz ht, is_ready⟩
  case h_3 => contradiction

theorem header_of_setHeader (hl : SetLetter letter namespaced)
    (h : setHeader tagged fields namespaced = .ok shape) :
    shape.Reads tagged letter fields := by
  obtain ⟨rest, tags, lengths, tag, rfl, hr, ht, h⟩ := bind_splitTag_eq_ok.mp h
  dsimp only at h
  split at h
  case h_5 => contradiction
  all_goals
    simp only [bind_eq_ok, pure_eq_ok, check_eq_ok] at h
    obtain ⟨_, rfl, hz, rfl⟩ := h
  case h_1 =>
    obtain _ | ⟨hk, _ | ⟨hv, ⟨⟩⟩⟩ := hr
    exact ⟨_, .set hl .unnamed hk hz hv .none ht, is_ready⟩
  case h_2 =>
    obtain _ | ⟨hk, _ | ⟨hv, _ | ⟨ht', ⟨⟩⟩⟩⟩ := hr
    exact ⟨_, .set hl .unnamed hk hz hv (.some ht') ht, is_ready⟩
  case h_3 =>
    obtain _ | ⟨hn, _ | ⟨hk, _ | ⟨hv, ⟨⟩⟩⟩⟩ := hr
    exact ⟨_, .set hl (.named hn) hk hz hv .none ht, is_ready⟩
  case h_4 =>
    obtain _ | ⟨hn, _ | ⟨hk, _ | ⟨hv, _ | ⟨ht', ⟨⟩⟩⟩⟩⟩ := hr
    exact ⟨_, .set hl (.named hn) hk hz hv (.some ht') ht, is_ready⟩

theorem header_of_incrHeader (h : incrHeader tagged fields = .ok shape) :
    shape.Reads tagged [105] fields := by
  obtain ⟨rest, tags, tag, rfl, ht, h⟩ := bind_peelTag_eq_ok.mp h
  dsimp only at h
  split at h
  case h_1 nsf key delta =>
    simp only [bind_eq_ok, pure_eq_ok, check_eq_ok, lengthField_eq_ok, parseDeltaField_eq_ok] at h
    obtain ⟨ns, hn, k, hk, hz, delta, hd, rfl⟩ := h
    exact ⟨_, .incr hn hk hz hd ht, is_ready⟩
  case h_2 => contradiction

theorem optionalTtl_eq_ok {ttl : Option Bytes} {secs : Option Nat} :
    ttl.elim (pure none) (fun ttl => some <$> lengthField ttl) = .ok secs ↔
      IsTtl ttl.toList secs := by
  have ht : touchTtl ttl.toList "" = .ok secs ↔ IsTtl ttl.toList secs := touchTtl_eq_ok
  rw [← ht]
  cases ttl <;> rfl

theorem header_of_casSetHeader (h : casSetHeader tagged fields = .ok shape) :
    shape.Reads tagged [107] fields := by
  obtain ⟨rest, tags, tag, rfl, ht, h⟩ := bind_peelTag_eq_ok.mp h
  dsimp only at h
  split at h
  case h_3 => contradiction
  all_goals
    simp only [bind_eq_ok, pure_eq_ok, check_eq_ok, lengthField_eq_ok, optionalTtl_eq_ok,
      parseCasConditionField_eq_ok] at h
    obtain ⟨_, rfl, ns, hn, k, hk, v, hv, hz, condition, hc, secs, hs, rfl⟩ := h
    exact ⟨_, .casSet hn hk hz hv hc hs ht, is_ready⟩

theorem header_of_casDeleteHeader (h : casDeleteHeader tagged fields = .ok shape) :
    shape.Reads tagged [120] fields := by
  obtain ⟨rest, tags, tag, rfl, ht, h⟩ := bind_peelTag_eq_ok.mp h
  dsimp only at h
  split at h
  case h_2 => contradiction
  case h_1 =>
    simp only [bind_eq_ok, check_eq_ok, lengthField_eq_ok, parseCasConditionField_eq_ok] at h
    obtain ⟨ns, hn, k, hk, hz, condition, hc, h⟩ := h
    split at h
    case h_1 =>
      cases h
      exact ⟨_, .casDelete hn hk hz hc ht, is_ready⟩
    case h_2 => contradiction

theorem header_of_touchHeader (h : touchHeader tagged fields = .ok shape) :
    shape.Reads tagged [116] fields := by
  rw [touchHeader, bind_peelTag_eq_ok] at h
  obtain ⟨rest, tags, tag, rfl, ht, h⟩ := h
  dsimp only at h
  split at h
  case h_2 => contradiction
  case h_1 nsf key tail =>
    simp only [bind_eq_ok, pure_eq_ok, check_eq_ok, lengthField_eq_ok, touchTtl_eq_ok] at h
    rcases hf : Parts.popFlag 71 tail with ⟨get, ttls⟩
    rw [hf] at h
    obtain ⟨rfl, -⟩ := Parts.popFlag_eq.mp hf
    obtain ⟨secs, hs, ns, hn, k, hk, hz, rfl⟩ := h
    exact ⟨_, .touch hn hk hz hs ht, is_ready⟩

theorem header_of_multiGetHeader (h : multiGetHeader tagged fields = .ok shape) :
    shape.Reads tagged [109] fields := by
  obtain ⟨rest, tags, lengths, tag, rfl, hr, ht, h⟩ := bind_splitTag_eq_ok.mp h
  dsimp only at h
  split at h
  case h_2 => contradiction
  case h_1 ns count lengths =>
    simp only [pure_eq_ok, check_eq_ok, not_or, not_not] at h
    obtain ⟨⟨hne, rfl⟩, hz, rfl⟩ := h
    obtain _ | ⟨hn, _ | ⟨hc, hk⟩⟩ := hr
    exact ⟨_, .multiGet hn hc (List.ne_nil_of_length_pos (Nat.pos_of_ne_zero hne)) hk hz ht,
      is_charged is_ready⟩

theorem header_of_multiTouchHeader (h : multiTouchHeader tagged fields = .ok shape) :
    shape.Reads tagged [121] fields := by
  rw [multiTouchHeader, bind_peelTag_eq_ok] at h
  obtain ⟨rest, tags, tag, rfl, ht, h⟩ := h
  dsimp only at h
  split at h
  case h_2 => contradiction
  case h_1 nsf countf tail =>
    simp only [bind_eq_ok, pure_eq_ok, check_eq_ok, lengthField_eq_ok, touchTtl_eq_ok,
      mapM_eq_ok lengthField_eq_ok, not_or, not_lt] at h
    obtain ⟨ns, hn, count, hc, ⟨hne, hle⟩, h⟩ := h
    rcases hf : Parts.popFlag 71 (tail.drop count) with ⟨get, ttls⟩
    rw [hf] at h
    obtain ⟨secs, hs, lengths, hk, hz, rfl⟩ := h
    have hlen : lengths.length = count := by
      rw [← hk.length_eq, List.length_take, Nat.min_eq_left hle]
    subst hlen
    have htail : tail = tail.take lengths.length ++ (ttls ++ getFlag get) := by
      rw [← (Parts.popFlag_eq.mp hf).left, List.take_append_drop]
    rw [htail, List.cons_append, List.cons_append, List.append_assoc]
    exact ⟨_, .multiTouch hn hc (List.ne_nil_of_length_pos (Nat.pos_of_ne_zero hne)) hk hz hs ht,
      is_charged is_ready⟩

-- Lengths which are taken two at a time.
theorem arePairs_of_chunks2 {lengths : List Nat} (hl : List.Forall₂ IsLength fields lengths)
    (hn : lengths.length = 2 * n) (hz : ∀ length ∈ chunks2 lengths, length.1 ≠ 0) :
    ArePairs fields (chunks2 lengths) ∧ (chunks2 lengths).length = n := by
  induction n generalizing fields lengths
  case zero =>
    cases List.length_eq_zero_iff.mp hn
    cases hl
    exact ⟨.nil, rfl⟩
  case succ n hi =>
    obtain _ | ⟨hk, _ | ⟨hv, hl⟩⟩ := hl
    case nil        => contradiction
    case cons.nil   => simp at hn; omega
    case cons.cons =>
      obtain ⟨hp, hlen⟩ := hi hl (by simp at hn; omega) fun length hm =>
        hz length (List.mem_cons_of_mem _ hm)
      exact ⟨.cons hk (hz _ List.mem_cons_self) hv hp, congrArg Nat.succ hlen⟩

theorem pairsAndTtl_eq_ok {count : Nat} {lengths pairs : List Nat} {ttl : Option Nat}
    (hl : List.Forall₂ IsLength fields lengths) (h : pairsAndTtl count lengths = .ok (pairs, ttl)) :
    ∃ rest ttls, fields = rest ++ ttls ∧ List.Forall₂ IsLength rest pairs ∧
      pairs.length = 2 * count ∧ IsTtl ttls ttl := by
  unfold pairsAndTtl at h
  split at h
  case isTrue hn =>
    cases h
    exact ⟨fields, [], by rw [List.append_nil], hl, hn, .none⟩
  case isFalse =>
    split at h
    case isTrue hn =>
      cases h
      refine ⟨fields.take (2 * count), fields.drop (2 * count),
        (List.take_append_drop _ _).symm, List.forall₂_take _ hl, ?_, ?_⟩
      case refine_1 => rw [List.length_take]; omega
      case refine_2 =>
        have hd := List.forall₂_drop (2 * count) hl
        obtain ⟨secs, hs⟩ := List.length_eq_one_iff.mp
          (show (lengths.drop (2 * count)).length = 1 by rw [List.length_drop]; omega)
        have hget : lengths[2 * count]? = some secs := by
          rw [← Nat.add_zero (2 * count), ← List.getElem?_drop, hs]
          rfl
        rw [hs] at hd
        rw [hget]
        generalize fields.drop (2 * count) = ttls at hd
        obtain _ | ⟨ht, ⟨⟩⟩ := hd
        exact .some ht
    case isFalse => contradiction

theorem header_of_multiSetHeader (h : multiSetHeader tagged fields = .ok shape) :
    shape.Reads tagged [111] fields := by
  rw [multiSetHeader, bind_splitTag_eq_ok] at h
  obtain ⟨rest, tags, lengths, tag, rfl, hr, ht, h⟩ := h
  dsimp only at h
  split at h
  case h_2 => contradiction
  case h_1 ns count lengths =>
    obtain _ | ⟨hn, _ | ⟨hc, hk⟩⟩ := hr
    simp only [check_eq_ok, bind_eq_ok, pure_eq_ok] at h
    obtain ⟨hne, -, ⟨pairs, ttl⟩, hp, hz, rfl⟩ := h
    obtain ⟨rest, ttls, rfl, hr, hlen, ht'⟩ := pairsAndTtl_eq_ok hk hp
    simp only [List.any_eq_true, decide_eq_true_eq, not_exists, not_and] at hz
    obtain ⟨hpairs, rfl⟩ := arePairs_of_chunks2 hr hlen hz
    rw [List.cons_append, List.cons_append, List.append_assoc]
    exact ⟨_, .multiSet hn hc (List.ne_nil_of_length_pos (Nat.pos_of_ne_zero hne)) hpairs ht' ht,
      is_charged is_ready⟩

theorem header_of_clearHeader (h : clearHeader tagged fields = .ok shape) :
    shape.Reads tagged [99] fields := by
  obtain ⟨rest, tags, lengths, tag, rfl, hr, ht, h⟩ := bind_splitTag_eq_ok.mp h
  dsimp only at h
  split at h
  case h_2 => contradiction
  case h_1 =>
    cases h
    obtain _ | ⟨hn, ⟨⟩⟩ := hr
    exact ⟨_, .clear hn ht, is_ready⟩

theorem header_of_clearAllHeader (h : clearAllHeader tagged fields = .ok shape) :
    shape.Reads tagged [70] fields := by
  simp only [clearAllHeader, bind_splitTag_eq_ok, check_eq_ok, pure_eq_ok] at h
  obtain ⟨rest, tags, lengths, tag, rfl, hr, ht, hne, rfl⟩ := h
  cases lengths
  case nil =>
    cases hr
    exact ⟨_, .clearAll ht, is_ready⟩
  case cons => exact absurd rfl hne

theorem header_of_parseHeader (hl : letter ∈ clientLetters)
    (h : Client.parseHeader tagged fields letter = .ok shape) :
    shape.Reads tagged letter fields := by
  simp only [clientLetters, List.mem_cons, List.not_mem_nil, or_false] at hl
  rcases hl with rfl | rfl | rfl | rfl | rfl | rfl | rfl | rfl | rfl | rfl | rfl | rfl | rfl | rfl |
    rfl
  · exact header_of_keyed .get h
  · exact header_of_keyed .delete h
  · exact header_of_keyed .getIn h
  · exact header_of_keyed .deleteIn h
  · exact header_of_setHeader .set h
  · exact header_of_setHeader .setIn h
  · exact header_of_incrHeader h
  · exact header_of_casSetHeader h
  · exact header_of_casDeleteHeader h
  · exact header_of_touchHeader h
  · exact header_of_multiGetHeader h
  · exact header_of_multiTouchHeader h
  · exact header_of_multiSetHeader h
  · exact header_of_clearHeader h
  · exact header_of_clearAllHeader h

end Sound

section Complete

variable {nsf key value count : Bytes} {nss keys ttls tags : List Bytes} {ns k v : Nat}
variable {secs : Option Nat}

theorem keyed_eq {request : Key → Request} (hn : IsNamespace namespaced nss ns)
    (hk : IsLength key k) (hz : k ≠ 0) (ht : IsTag tagged tags tag) :
    keyed tagged (nss ++ key :: tags) namespaced request =
      .ok (ready [ns, k] tag fun fields => request (keyOf fields)) := by
  rw [keyed, bind_splitTag_eq_ok]
  cases hn
  case unnamed => exact ⟨[key], tags, [k], tag, rfl, .cons hk .nil, ht, if_neg hz⟩
  case named nsf hn =>
    exact ⟨[nsf, key], tags, [ns, k], tag, rfl, .cons hn (.cons hk .nil), ht, if_neg hz⟩

theorem forall₂_of_isTtl (hs : IsTtl ttls secs) : List.Forall₂ IsLength ttls secs.toList := by
  cases hs
  case none    => exact .nil
  case some hl => exact .cons hl .nil

theorem setHeader_eq (hn : IsNamespace namespaced nss ns) (hk : IsLength key k) (hz : k ≠ 0)
    (hv : IsLength value v) (hs : IsTtl ttls secs) (ht : IsTag tagged tags tag) :
    setHeader tagged (nss ++ key :: value :: (ttls ++ tags)) namespaced =
      .ok (ready [ns, k, v] tag fun fields => .set (keyOf fields) (valueOf fields) secs) := by
  rw [setHeader, bind_splitTag_eq_ok]
  have hl := List.Forall₂.cons hk (.cons hv (forall₂_of_isTtl hs))
  cases hn
  case unnamed =>
    refine ⟨key :: value :: ttls, tags, k :: v :: secs.toList, tag, rfl, hl, ht, ?_⟩
    cases secs <;> exact if_neg hz
  case named nsf hn =>
    refine ⟨nsf :: key :: value :: ttls, tags, ns :: k :: v :: secs.toList, tag, rfl,
      .cons hn hl, ht, ?_⟩
    cases secs <;> exact if_neg hz

theorem popFlag_append {get : Bool} (hs : IsTtl ttls secs) :
    Parts.popFlag 71 (ttls ++ getFlag get) = (get, ttls) := by
  refine Parts.popFlag_eq.mpr ⟨rfl, ?_⟩
  rintro rfl
  rw [getFlag, if_neg (by decide), List.append_nil]
  exact Parts.getLast?_ne_of_isTtl hs

theorem multiTouchHeader_eq {lengths : List Nat} {get : Bool} (hn : IsLength nsf ns)
    (hc : IsLength count lengths.length) (hne : lengths ≠ [])
    (hk : List.Forall₂ IsLength keys lengths) (hz : 0 ∉ lengths) (hs : IsTtl ttls secs)
    (ht : IsTag tagged tags tag) :
    multiTouchHeader tagged (nsf :: count :: (keys ++ (ttls ++ getFlag get ++ tags))) =
      .ok (charged (.touch get) lengths.length <| ready (ns :: lengths) tag fun fields =>
        .multiTouch fields.headI fields.tail secs get) := by
  rw [multiTouchHeader, bind_peelTag_eq_ok]
  refine ⟨nsf :: count :: (keys ++ (ttls ++ getFlag get)), tags, tag, by simp, ht, ?_⟩
  have hlen := hk.length_eq
  simp only [bind_eq_ok, pure_eq_ok, check_eq_ok, lengthField_eq_ok, touchTtl_eq_ok,
    mapM_eq_ok lengthField_eq_ok, not_or, not_lt]
  refine ⟨ns, hn, lengths.length, hc, ⟨?_, ?_⟩, ?_⟩
  case refine_1 => simpa using hne
  case refine_2 => simp [hlen]
  case refine_3 =>
    rw [List.take_left' hlen, List.drop_left' hlen, popFlag_append hs]
    exact ⟨secs, hs, lengths, hk, hz, rfl⟩

theorem chunks2_flatMap (lengths : List (Nat × Nat)) :
    chunks2 (lengths.flatMap fun length => [length.1, length.2]) = lengths := by
  induction lengths
  case nil               => rfl
  case cons length lengths hi =>
    rw [List.flatMap_cons, List.cons_append, List.cons_append, chunks2, List.nil_append, hi]

theorem forall₂_of_arePairs {lengths : List (Nat × Nat)} (h : ArePairs fields lengths) :
    List.Forall₂ IsLength fields (lengths.flatMap fun length => [length.1, length.2]) ∧
      ∀ length ∈ lengths, length.1 ≠ 0 := by
  induction h
  case nil => exact ⟨.nil, by simp⟩
  case cons hk hz hv _ hi =>
    refine ⟨.cons hk (.cons hv hi.left), ?_⟩
    rw [List.forall_mem_cons]
    exact ⟨hz, hi.right⟩

theorem length_flatMap_pairs (lengths : List (Nat × Nat)) :
    (lengths.flatMap fun length => [length.1, length.2]).length = 2 * lengths.length := by
  simp [List.length_flatMap, Nat.mul_comm]

theorem pairsAndTtl_append {pairs : List Nat} (h : pairs.length = 2 * n) :
    pairsAndTtl n (pairs ++ secs.toList) = .ok (pairs, secs) := by
  unfold pairsAndTtl
  cases secs
  case none => rw [Option.toList_none, List.append_nil, if_pos h]
  case some secs =>
    rw [if_neg (by simp; omega), if_pos (by simp; omega), List.take_left' h, Option.toList_some,
      List.getElem?_append_right h.le, ← h, Nat.sub_self]
    rfl

theorem multiSetHeader_eq {lengths : List (Nat × Nat)} (hn : IsLength nsf ns)
    (hc : IsLength count lengths.length) (hne : lengths ≠ []) (hp : ArePairs keys lengths)
    (hs : IsTtl ttls secs) (ht : IsTag tagged tags tag) (hmax : 2 * lengths.length < 2 ^ 64) :
    multiSetHeader tagged (nsf :: count :: (keys ++ (ttls ++ tags))) =
      .ok (charged .set lengths.length <|
        ready (ns :: lengths.flatMap fun length => [length.1, length.2]) tag fun fields =>
          .multiSet fields.headI (unzipFields fields.tail).1 (unzipFields fields.tail).2 secs) := by
  obtain ⟨hf, hz⟩ := forall₂_of_arePairs hp
  rw [multiSetHeader, bind_splitTag_eq_ok]
  refine ⟨nsf :: count :: (keys ++ ttls), tags, _, tag, by simp,
    .cons hn (.cons hc (List.rel_append hf (forall₂_of_isTtl hs))), ht, ?_⟩
  simp only [check_eq_ok, bind_eq_ok, pure_eq_ok]
  refine ⟨by simpa using hne, by omega, _, pairsAndTtl_append (length_flatMap_pairs lengths), ?_, ?_⟩
  case refine_1 =>
    rw [chunks2_flatMap, List.any_eq_true]
    rintro ⟨length, hm, hl⟩
    exact hz length hm (of_decide_eq_true hl)
  case refine_2 => rw [chunks2_flatMap]

-- The number of pairs a header claims does not overflow, as there is a field for each of them.
theorem parseHeader_of_header {shape' : Wire.Shape} (h : Header tagged letter fields shape')
    (hmax : fields.length < 2 ^ 64) :
    ∃ shape, Client.parseHeader tagged fields letter = .ok shape ∧ shape.Is shape' := by
  cases h
  case keyed hn hk hz ht hl =>
    cases hl
    case get      => exact ⟨_, keyed_eq hn hk hz ht, is_ready⟩
    case delete   => exact ⟨_, keyed_eq hn hk hz ht, is_ready⟩
    case getIn    => exact ⟨_, keyed_eq hn hk hz ht, is_ready⟩
    case deleteIn => exact ⟨_, keyed_eq hn hk hz ht, is_ready⟩
  case set hn hk hz hv hs ht hl =>
    cases hl <;> exact ⟨_, setHeader_eq hn hk hz hv hs ht, is_ready⟩
  case incr nsf _ key _ deltaf _ tags _ hn hk hz hd ht =>
    refine ⟨ready [_, _] _ fun fields => .incr (keyOf fields) _, bind_peelTag_eq_ok.mpr
      ⟨[nsf, key, deltaf], tags, _, rfl, ht, ?_⟩, is_ready⟩
    simp only [bind_eq_ok, pure_eq_ok, check_eq_ok, lengthField_eq_ok, parseDeltaField_eq_ok]
    exact ⟨_, hn, _, hk, hz, _, hd, rfl⟩
  case casSet nsf _ key _ value _ cond _ ttls secs tags _ hn hk hz hv hc hs ht =>
    refine ⟨ready [_, _, _] _ fun fields => .casSet (keyOf fields) _ (valueOf fields) secs,
      bind_peelTag_eq_ok.mpr ⟨nsf :: key :: value :: cond :: ttls, tags, _, rfl, ht, ?_⟩, is_ready⟩
    have hs' := hs
    cases hs
    all_goals
      simp only [bind_eq_ok, pure_eq_ok, check_eq_ok, lengthField_eq_ok, optionalTtl_eq_ok,
        parseCasConditionField_eq_ok]
      exact ⟨_, rfl, _, hn, _, hk, _, hv, hz, _, hc, _, hs', rfl⟩
  case casDelete nsf _ key _ cond _ tags _ hn hk hz hc ht =>
    refine ⟨ready [_, _] _ fun fields => .casDelete (keyOf fields) _, bind_peelTag_eq_ok.mpr
      ⟨[nsf, key, cond], tags, _, rfl, ht, ?_⟩, is_ready⟩
    simp only [bind_eq_ok, check_eq_ok, lengthField_eq_ok, parseCasConditionField_eq_ok]
    exact ⟨_, hn, _, hk, hz, _, hc, rfl⟩
  case touch nsf _ key _ ttls secs get tags _ hn hk hz hs ht =>
    refine ⟨ready [_, _] _ fun fields => .touch (keyOf fields) secs get, bind_peelTag_eq_ok.mpr
      ⟨nsf :: key :: (ttls ++ getFlag get), tags, _, rfl, ht, ?_⟩, is_ready⟩
    simp only [bind_eq_ok, pure_eq_ok, check_eq_ok, lengthField_eq_ok, touchTtl_eq_ok,
      popFlag_append hs]
    exact ⟨_, hs, _, hn, _, hk, hz, rfl⟩
  case multiGet nsf _ count keys lengths tags _ hn hc hne hk hz ht =>
    refine ⟨charged .get lengths.length <| ready (_ :: lengths) _ fun fields =>
      .multiGet fields.headI fields.tail, bind_splitTag_eq_ok.mpr
        ⟨nsf :: count :: keys, tags, _, _, rfl, .cons hn (.cons hc hk), ht, ?_⟩,
      is_charged is_ready⟩
    simp only [check_eq_ok, pure_eq_ok, not_or, not_not, List.length_eq_zero_iff]
    exact ⟨⟨hne, trivial⟩, hz, trivial⟩
  case multiTouch hn hc hne hk hz hs ht =>
    exact ⟨_, multiTouchHeader_eq hn hc hne hk hz hs ht, is_charged is_ready⟩
  case multiSet hn hc hne hp hs ht =>
    have hlen := (forall₂_of_arePairs hp).left.length_eq
    rw [length_flatMap_pairs] at hlen
    refine ⟨_, multiSetHeader_eq hn hc hne hp hs ht ?_, is_charged is_ready⟩
    simp only [List.length_cons, List.length_append] at hmax
    omega
  case clear nsf _ tags _ hn ht =>
    exact ⟨ready [_] _ fun fields => .clear fields.headI, bind_splitTag_eq_ok.mpr
      ⟨[nsf], tags, _, _, rfl, .cons hn .nil, ht, rfl⟩, is_ready⟩
  case clearAll ht =>
    exact ⟨ready [] _ fun _ => .clearAll, bind_splitTag_eq_ok.mpr
      ⟨[], fields, _, _, rfl, .nil, ht, rfl⟩, is_ready⟩

end Complete
end Nanocached.Proxy.Client
