import Nanocached.Proxy.Reply

namespace Nanocached.Proxy

variable {α : Type} {tag : UInt32} {expect : Expect} {buf rest line : Bytes} {reply : NodeReply}
variable {marker : Bytes} {fields : List Bytes}

-- The bytes that come after those which were read are left alone.
def Read.append (bytes : Bytes) : Read α → Read α
  | .more             => .more
  | .failed           => .failed
  | .done result rest => .done result (rest ++ bytes)

-- Once a read is decided, further bytes do not change it.
def Stable (read : Bytes → Read α) : Prop :=
  ∀ buf bytes, read buf ≠ .more → read (buf ++ bytes) = (read buf).append bytes

section Stable

theorem stable_readLineUpTo (limit : Nat) : Stable (readLineUpTo limit) := by
  intro buf bytes hm
  rw [readLineUpTo] at hm ⊢
  rw [readLineUpTo, List.findIdx?_append]
  cases hp : buf.findIdx? (· == 10)
  case some position =>
    have hlt : position < buf.length := (List.findIdx?_eq_some_iff_getElem.mp hp).choose
    simp only [Option.some_or]
    by_cases hl : position + 1 > limit
    case pos => simp only [if_pos hl, Read.append]
    case neg =>
      simp only [if_neg hl, Read.append]
      rw [List.take_append_of_le_length hlt.le, List.drop_append_of_le_length hlt]
  case none =>
    simp only [hp] at hm
    have hl : limit < buf.length := by
      by_contra hl
      exact hm (if_neg hl)
    simp only [Option.none_or, if_pos hl, Read.append]
    cases bytes.findIdx? (· == 10)
    case none          => simp only [Option.map_none, List.length_append]; rw [if_pos (by omega)]
    case some position => simp only [Option.map_some]; rw [if_pos (by omega)]

theorem stable_readBody (length : Nat) (reply : Bytes → NodeReply) (fits : NodeReply → Bool) :
    Stable fun rest => readBody rest length reply fits := by
  intro rest bytes hm
  dsimp only at hm ⊢
  have hl : ¬rest.length < length := fun hl => hm (if_pos hl)
  rw [readBody, readBody, if_neg hl, if_neg (by simp; omega)]
  rw [List.take_append_of_le_length (by omega), List.drop_append_of_le_length (by omega)]
  dsimp only
  split <;> rfl

-- A reader of fields rejects them, or the last one of them is the tag and a body follows.
inductive ReadsBody (tag : UInt32) (fields : List Bytes) (read : Bytes → Read NodeReply) : Prop
  | failed (h : ∀ rest, read rest = .failed)
  | body {length reply fits} (echoed : fields.getLast? = some (tagField tag))
      (h : ∀ rest, read rest = readBody rest length reply fits)

theorem getLast_of_rosterTokens {β : Type} {parse : List Bytes → Option β} {entries : β}
    (h : (rosterTokens tag fields).bind parse = some entries) :
    fields.getLast? = some (tagField tag) := by
  have ⟨_, h, _⟩ := Option.bind_eq_some_iff.mp h
  have ⟨echoed, he, h⟩ := Option.bind_eq_some_iff.mp h
  by_cases ht : echoed = tagField tag
  case pos => rw [he, ht]
  case neg => simp [ht] at h

theorem readsBody_readValue {reply : Bytes → Option Nat → NodeReply} :
    ReadsBody tag fields fun rest => readValue tag expect rest fields reply := by
  have read (length : Nat) (echoed : Bytes) (ttl : Option Nat) (hl : fields.getLast? = some echoed) :
      ReadsBody tag fields fun rest =>
        if echoed ≠ tagField tag ∨ length > maxRequestSize then
          .failed
        else
          readBody rest length (reply · ttl) expect.fits := by
    by_cases he : echoed ≠ tagField tag ∨ length > maxRequestSize
    case pos => exact .failed fun _ => if_pos he
    case neg =>
      rw [not_or, not_not] at he
      exact .body (he.left ▸ hl) fun _ => if_neg (by simpa [he.left] using he.right)
  unfold readValue
  split
  case h_1 length echoed =>
    dsimp only
    cases parseLengthField length
    case none        => exact .failed fun _ => rfl
    case some length => exact read length echoed none rfl
  case h_2 length ttl echoed =>
    cases parseLengthField ttl
    case none     => exact .failed fun _ => rfl
    case some ttl =>
      dsimp only
      cases parseLengthField length
      case none        => exact .failed fun _ => rfl
      case some length => exact read length echoed (some ttl) rfl
  case h_3 => exact .failed fun _ => rfl

theorem readsBody_readStatus :
    ReadsBody tag fields fun rest => readStatus tag expect rest fields reply := by
  unfold readStatus
  split
  case h_1 echoed =>
    by_cases he : echoed = tagField tag
    case pos => exact .body (by simp [he]) fun _ => if_neg (not_not.mpr he)
    case neg => exact .failed fun _ => if_pos he
  case h_2 => exact .failed fun _ => rfl

theorem readsBody_readFields (tag : UInt32) (expect : Expect) (marker : Bytes)
    (fields : List Bytes) :
    ReadsBody tag fields fun rest => readFields tag expect rest marker fields := by
  unfold readFields
  split
  case h_1 => exact .failed fun _ => rfl
  case h_2 =>
    unfold readMulti
    split
    case h_1 => exact .failed fun _ => rfl
    case h_2 tokens hr =>
      by_cases ht : (tokens.map (·.length)).sum > maxMultiReplyValueBytes
      case pos => exact .failed fun _ => if_pos ht
      case neg => exact .body (getLast_of_rosterTokens hr) fun _ => if_neg ht
  case h_3 =>
    unfold readMultiAck
    split
    case h_1    => exact .failed fun _ => rfl
    case h_2 hr => exact .body (getLast_of_rosterTokens hr) fun _ => rfl
  case h_4 =>
    unfold readMultiTouch
    split
    case h_1    => exact .failed fun _ => rfl
    case h_2 hr => exact .body (getLast_of_rosterTokens hr) fun _ => rfl
  case h_5 | h_6 => exact readsBody_readValue
  all_goals first | exact readsBody_readStatus | exact .failed fun _ => rfl

theorem stable_readFields (tag : UInt32) (expect : Expect) (marker : Bytes) (fields : List Bytes) :
    Stable fun rest => readFields tag expect rest marker fields := by
  cases readsBody_readFields tag expect marker fields
  case failed h => intro _ _ _; simp only [h]; rfl
  case body h   => simp only [h]; exact stable_readBody _ _ _

theorem stable_readReply (tag : UInt32) (expect : Expect) : Stable (readReply tag expect) := by
  intro buf bytes hm
  have hl := stable_readLineUpTo (if expect = .multi then maxMultiReplyHeaderBytes
    else maxRequestSize) buf bytes
  rw [readReply] at hm ⊢
  rw [readReply]
  cases hr : readLineUpTo (if expect = .multi then maxMultiReplyHeaderBytes else maxRequestSize) buf
  case more   => simp [hr] at hm
  case failed => simp [hl (by simp [hr]), hr, Read.append]
  case done line rest =>
    simp only [hr] at hm
    simp only [hl (by simp [hr]), hr, Read.append]
    cases hf : Proxy.fields line
    case nil => rfl
    case cons marker fields =>
      rw [hf] at hm
      exact stable_readFields tag expect marker fields rest bytes hm

end Stable

theorem readLineUpTo_done {limit : Nat} (h : readLineUpTo limit buf = .done line rest) :
    line.length < limit ∧ buf = line ++ 10 :: rest := by
  rw [readLineUpTo] at h
  split at h
  case h_1 => split at h <;> contradiction
  case h_2 position hp =>
    split at h
    case isTrue => contradiction
    case isFalse hl =>
      cases h
      have ⟨hlt, hb, _⟩ := List.findIdx?_eq_some_iff_getElem.mp hp
      have hb : buf[position] = 10 := by simpa using hb
      refine ⟨by simp; omega, ?_⟩
      rw [← hb, List.getElem_cons_drop, List.take_append_drop]

-- A reply starts with a line whose last field is the tag.
theorem echoed_of_readReply (h : readReply tag expect buf = .done reply rest) : ∃ line body,
    buf = line ++ 10 :: body ++ rest ∧ (Proxy.fields line).getLast? = some (tagField tag) := by
  rw [readReply] at h
  split at h
  case h_1 => contradiction
  case h_2 => contradiction
  case h_3 line rest' hl =>
    have ⟨hb, hn⟩ := readLineUpTo_done hl
    split at h
    case h_1 => contradiction
    case h_2 marker fields hf =>
      cases readsBody_readFields tag expect marker fields
      case failed hb => simp [hb] at h
      case body length reply fits echoed hb =>
        rw [hb, readBody] at h
        split at h
        case isTrue => contradiction
        case isFalse =>
          dsimp only at h
          split at h
          case isFalse => contradiction
          case isTrue  =>
            cases h
            refine ⟨line, rest'.take length, ?_, ?_⟩
            · simp [hn]
            · rw [hf, List.getLast?_cons, echoed]
              rfl

end Nanocached.Proxy
