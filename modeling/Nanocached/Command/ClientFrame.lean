import Nanocached.Command.Accepts
import Nanocached.Command.Resume
import Nanocached.Lib.HeaderLine

-- The frames of clients.

namespace Nanocached.Wire

-- The keys of a batch.
def Command.batch : Command → List Bytes
  | .multiGet _ keys      => keys
  | .multiSet _ keys ..   => keys
  | .multiTouch _ keys .. => keys
  | _                     => []

variable {input : Bytes} {tagged : Bool} {tag : Option UInt32} {command : Command}
variable {letter : Bytes} {parts : List Bytes} {headerEnd n : Nat}

-- A frame at the front of the input.
inductive ClientFrame (tagged : Bool) (input : Bytes) : Command → Option UInt32 → Nat → Prop
  | mk {headerEnd : Nat} {letter : Bytes} {parts : List Bytes} {shape : Shape} {frameEnd : Nat}
      (heads : Heads input headerEnd letter parts)
      (header : Header tagged letter parts shape)
      (ends : headerEnd + 1 + shape.lengths.sum = frameEnd)
      (complete : frameEnd ≤ input.length) :
      ClientFrame tagged input
        (shape.command (cut shape.lengths ((input.take frameEnd).drop (headerEnd + 1))))
        shape.tag frameEnd

theorem forall_mem_intercalate {P : UInt8 → Prop} {fields : List Bytes} (h₁ : P 32)
    (h₂ : ∀ field ∈ fields, ∀ byte ∈ field, P byte) : ∀ byte ∈ [32].intercalate fields, P byte := by
  induction fields
  case nil => simp [List.intercalate]
  case cons field fields hi =>
    rw [List.forall_mem_cons] at h₂
    rcases fields with _ | ⟨field', fields⟩
    case nil  => simpa using h₂.left
    case cons =>
      rw [List.intercalate_cons_cons, List.forall_mem_append, List.forall_mem_append]
      exact ⟨⟨h₂.left, by simpa using h₁⟩, hi h₂.right⟩

theorem length_le_intercalate (field : Bytes) (fields : List Bytes) :
    fields.length ≤ ([32].intercalate (field :: fields)).length := by
  induction fields generalizing field
  case nil => exact Nat.zero_le _
  case cons field' fields hi =>
    have hi := hi field'
    rw [List.intercalate_cons_cons, List.length_append, List.length_append, List.length_cons]
    simp only [List.length_singleton]
    omega

theorem Heads.line_eq (h : Heads input headerEnd letter parts) :
    input.take headerEnd = [32].intercalate (letter :: parts) := by
  rw [← h.fields, List.intercalate_splitOn]

theorem Heads.length_parts (h : Heads input headerEnd letter parts) : parts.length ≤ headerEnd := by
  have hl := congrArg List.length h.line_eq
  rw [List.length_take] at hl
  have hle := length_le_intercalate letter parts
  omega

theorem fieldEnds_of_lt {lengths : List Nat} {start : Nat} (h : start + lengths.sum < 2 ^ 64) :
    fieldEnds start lengths = .ok (start + lengths.sum) := by
  induction lengths generalizing start
  case nil => rfl
  case cons length lengths hi =>
    rw [List.sum_cons] at h ⊢
    have hc : checkedAddUsize start length = .ok (start + length) :=
      checkedAddUsize_eq_ok.mpr ⟨rfl, by omega⟩
    rw [fieldEnds, List.foldlM_cons, hc, ← Nat.add_assoc]
    exact hi (by omega)

theorem Header.letter_mem {shape : Shape} (h : Header tagged letter parts shape) :
    letter ∈ clientLetters := by
  cases h
  case keyed hl => cases hl <;> decide
  case set hl   => cases hl <;> decide
  all_goals decide

theorem ne_of_mem_clientLetters (h : letter ∈ clientLetters) : letter ≠ [77] := by
  rintro rfl
  exact absurd h (by decide)

-- The parser reads the frames of clients as such.
theorem frameOf_of_clientFrame (h : ClientFrame tagged input command tag n) (hn : n < 2 ^ 64) :
    frameOf input tagged true = (.ok (command, tag), n) := by
  rcases h with @⟨headerEnd, letter, parts, shape, _, hh, hs, he, hc⟩
  obtain ⟨plan, rest, hp, hl, ht, hf⟩ := parseHeader_of_header hs
  rw [hh.frameOf_plan (ne_of_mem_clientLetters hs.letter_mem), hp]
  have hend : fieldEnds (headerEnd + 1) shape.lengths = .ok n := by
    rw [← he]
    exact fieldEnds_of_lt (by omega)
  have hnone : (plan.multi.filter fun _ => !true) = none := by cases plan.multi <;> rfl
  simp only [framed, planFrame, hl, hend, if_neg (Nat.not_lt.mpr hc), hnone, hf, ht]
  rfl

theorem clientFrame_of_frameOf (hh : Heads input headerEnd letter parts)
    (hl : letter ∈ clientLetters) (h : frameOf input tagged true = (.ok (command, tag), n)) :
    ClientFrame tagged input command tag n := by
  rw [hh.frameOf_plan (ne_of_mem_clientLetters hl)] at h
  rcases hp : parseHeader tagged letter parts with error | ⟨plan, rest⟩
  case error =>
    rw [hp] at h
    cases h
  case ok =>
    obtain ⟨shape, hs, hlen, ht, hf⟩ := header_of_parseHeader hl hp
    rw [hp] at h
    dsimp only [framed, planFrame] at h
    cases he : fieldEnds (headerEnd + 1) plan.lengths
    case error =>
      rw [he] at h
      cases h
    case ok frameEnd =>
      have hnone : (plan.multi.filter fun _ => !true) = none := by cases plan.multi <;> rfl
      rw [he] at h
      by_cases hc : input.length < frameEnd
      case pos =>
        simp only [if_pos hc] at h
        cases h
      case neg =>
        simp only [if_neg hc, hnone, hf, hlen, ht] at h
        cases h
        rw [hlen] at he
        exact .mk hh hs (fieldEnds_eq_ok he).symm (Nat.le_of_not_lt hc)

-- The parser accepts the frames of clients only, whatever it has kept of earlier calls.
theorem parseResumable_iff_clientFrame {progress : MigrateProgress}
    (hv : progress.Valid tagged input) (hh : Heads input headerEnd letter parts)
    (hl : letter ∈ clientLetters) (hi : input.length < 2 ^ 64) :
    (∃ next, parseResumable input tagged progress true = (.ok (command, tag), next, n)) ↔
      ClientFrame tagged input command tag n := by
  have he := (parseResumable_eq hv true).left
  constructor
  case mp =>
    rintro ⟨next, hp⟩
    rw [hp] at he
    exact clientFrame_of_frameOf hh hl he.symm
  case mpr =>
    intro hf
    have hn : n ≤ input.length := by cases hf; assumption
    rw [frameOf_of_clientFrame hf (hn.trans_lt hi)] at he
    exact ⟨_, Prod.ext (Prod.mk.inj he).left (Prod.ext rfl (Prod.mk.inj he).right)⟩

-- Only a part of the line was there when the parser was first called.
theorem clientFrame_get :
    let (_, progress, _) := parseResumable [71, 32, 49] false {} true
    progress.lineScannedTo = 3 ∧
      (∃ next, parseResumable [71, 32, 49, 10, 97] false progress true =
        (.ok (.get ⟨[], [97]⟩, none), next, 5)) ∧
      ClientFrame false [71, 32, 49, 10, 97] (.get ⟨[], [97]⟩) none 5 := by
  have hv := (parseResumable_eq (.init : MigrateProgress.Valid false [71, 32, 49] {}) true).right
  have hp : ∃ next, parseResumable [71, 32, 49, 10, 97] false
      (parseResumable [71, 32, 49] false {} true).2.1 true =
        (.ok (.get ⟨[], [97]⟩, none), next, 5) :=
    ⟨{}, by decide⟩
  refine ⟨by decide, hp, ?_⟩
  exact (parseResumable_iff_clientFrame (hv.append [10, 97]) ⟨rfl, rfl⟩ (by decide)
    (by decide)).mp hp

section Batch

open HeaderLine (spaced)

theorem length_cut (lengths : List Nat) (body : Bytes) :
    (cut lengths body).length = lengths.length := by
  induction lengths generalizing body
  case nil         => rfl
  case cons _ _ hi => rw [cut, List.length_cons, hi, List.length_cons]

theorem length_unzipFields (fields : List Bytes) :
    2 * (unzipFields fields).1.length ≤ fields.length := by
  fun_induction unzipFields fields
  case case1 keys values he hi =>
    simp only [he, List.length_cons] at hi ⊢
    omega
  case case2 => exact Nat.zero_le _

theorem length_le_sum {lengths : List Nat} (h : 0 ∉ lengths) : lengths.length ≤ lengths.sum := by
  have hs := List.card_nsmul_le_sum lengths 1 fun length hm =>
    Nat.pos_of_ne_zero fun he => h (he ▸ hm)
  rwa [smul_eq_mul, Nat.mul_one] at hs

theorem Heads.length_spaced {fields before after : List Bytes}
    (h : Heads input headerEnd letter (before ++ fields ++ after)) :
    (spaced fields).length ≤ headerEnd := by
  have hl := congrArg List.length h.line_eq
  rw [List.length_take, HeaderLine.intercalate_cons, HeaderLine.spaced_append,
    HeaderLine.spaced_append] at hl
  simp only [List.length_append] at hl
  omega

theorem IsLength.length_pos {field : Bytes} (h : IsLength field n) : 1 ≤ field.length :=
  List.length_pos_iff.mpr h.ne_nil

theorem length_le_of_lengths {keys : List Bytes} {lengths : List Nat}
    (h : List.Forall₂ IsLength keys lengths) : ∀ key ∈ keys, 1 ≤ key.length := by
  induction h
  case nil          => simp
  case cons hl _ hi => exact List.forall_mem_cons.mpr ⟨hl.length_pos, hi⟩

theorem ArePairs.lengths {pairs : List Bytes} {lengths : List (Nat × Nat)}
    (h : ArePairs pairs lengths) :
    pairs.length = 2 * lengths.length ∧ ∀ field ∈ pairs, 1 ≤ field.length := by
  induction h
  case nil => simp
  case cons hk _ hv _ hi =>
    refine ⟨by simp only [List.length_cons, hi.left]; omega, ?_⟩
    exact List.forall_mem_cons.mpr
      ⟨hk.length_pos, List.forall_mem_cons.mpr ⟨hv.length_pos, hi.right⟩⟩

-- Each key of a batch takes a field of the header with at least a digit, and at least a byte.
theorem ClientFrame.batch_le (h : ClientFrame tagged input command tag n) :
    3 * command.batch.length ≤ n := by
  rcases h with @⟨headerEnd, letter, parts, shape, _, hh, hs, he, -⟩
  generalize (input.take n).drop (headerEnd + 1) = body
  cases hs
  case multiGet nsf ns count keys lengths tags tag' _ _ _ hk hz _ =>
    have hk' := HeaderLine.le_length_spaced (length_le_of_lengths hk)
    have hl := Heads.length_spaced (show Heads input headerEnd _ ([nsf, count] ++ keys ++ tags) from hh)
    have hsum := length_le_sum hz
    have hlen := hk.length_eq
    simp only [Command.batch, List.length_tail, length_cut, List.length_cons, List.sum_cons] at he ⊢
    omega
  case multiTouch nsf ns count keys lengths ttls secs get tags tag' _ _ _ hk hz _ _ =>
    have hk' := HeaderLine.le_length_spaced (length_le_of_lengths hk)
    have hl := Heads.length_spaced (show Heads input headerEnd _
      ([nsf, count] ++ keys ++ (ttls ++ getFlag get ++ tags)) by simpa using hh)
    have hsum := length_le_sum hz
    have hlen := hk.length_eq
    simp only [Command.batch, List.length_tail, length_cut, List.length_cons, List.sum_cons] at he ⊢
    omega
  case multiSet nsf ns count pairs lengths ttls secs tags tag' _ _ _ hp _ _ =>
    have hk' := HeaderLine.le_length_spaced hp.lengths.right
    have hl := Heads.length_spaced (show Heads input headerEnd _
      ([nsf, count] ++ pairs ++ (ttls ++ tags)) by simpa using hh)
    have hlen := hp.lengths.left
    have hu := length_unzipFields
      (cut (ns :: lengths.flatMap fun length => [length.1, length.2]) body).tail
    simp only [Command.batch, List.length_tail, length_cut, List.length_cons] at hu ⊢
    have hf : (lengths.flatMap fun length => [length.1, length.2]).length = 2 * lengths.length := by
      simp [List.length_flatMap]
      omega
    omega
  case keyed hl =>
    cases hl <;> exact Nat.zero_le _
  all_goals exact Nat.zero_le _

end Batch
end Nanocached.Wire
