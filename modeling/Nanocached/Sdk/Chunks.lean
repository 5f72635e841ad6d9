import Nanocached.Basic
import Nanocached.Lib.Decimal
import Nanocached.Lib.HeaderLine

-- How the Rust SDK splits a batch into frames.

namespace Nanocached.Sdk

def maxRequestBytes : Nat := 1024 * 1024 - 256

def maxBatchKeys : Nat := 400

def multiFrameFixedOverheadBytes : Nat := 64

def decimalDigitsGo (n digits : Nat) : Nat :=
  if 10 ≤ n then decimalDigitsGo (n / 10) (digits + 1) else digits

def decimalDigits (n : Nat) : Nat :=
  decimalDigitsGo n 1

def getEntryCost (key : Bytes) : Nat :=
  key.length + 1 + decimalDigits key.length

def setEntryCost (key value : Bytes) : Nat :=
  key.length + value.length + 2 + decimalDigits key.length + decimalDigits value.length

theorem decimalDigitsGo_eq (n digits : Nat) :
    decimalDigitsGo n digits + 1 = (Decimal.ofNat n).length + digits := by
  fun_induction decimalDigitsGo n digits
  case case1 n digits h hi =>
    rw [hi, Decimal.ofNat, Decimal.ofNat, Nat.toDigits_of_base_le (by decide) h]
    simp
    omega
  case case2 n digits h =>
    rw [Decimal.ofNat, Nat.toDigits_of_lt_base (Nat.lt_of_not_le h)]
    simp [Nat.add_comm]

-- An entry is charged for what it adds to the header and to the body of its frame.
theorem entryCost_eq (key value : Bytes) :
    getEntryCost key = (HeaderLine.spaced [Decimal.ofNat key.length] ++ key).length ∧
    setEntryCost key value = (HeaderLine.spaced [Decimal.ofNat key.length,
      Decimal.ofNat value.length] ++ key ++ value).length := by
  have hk := decimalDigitsGo_eq key.length 1
  have hv := decimalDigitsGo_eq value.length 1
  simp only [getEntryCost, setEntryCost, decimalDigits, HeaderLine.spaced, List.flatMap_cons,
    List.flatMap_nil, List.length_append, List.length_cons, List.length_nil]
  omega

-- The lengths of the chunks so far, and the length and the bytes of the one that is being filled.
def chunkStep (base : Nat) : List Nat × Nat × Nat → Nat → List Nat × Nat × Nat
  | (lengths, chunkLen, chunkBytes), cost =>
    if chunkLen > 0 ∧ (chunkLen = maxBatchKeys ∨ base + chunkBytes + cost > maxRequestBytes) then
      (lengths ++ [chunkLen], 1, cost)
    else (lengths, chunkLen + 1, chunkBytes + cost)

def close : List Nat × Nat × Nat → List Nat
  | (lengths, chunkLen, _) => if chunkLen > 0 then lengths ++ [chunkLen] else lengths

def chunkLengths (namespaceLen entryCount : Nat) (entryCost : Nat → Nat) : List Nat :=
  let base := namespaceLen + multiFrameFixedOverheadBytes
  close ((List.range entryCount).foldl (fun s i => chunkStep base s (entryCost i)) ([], 0, 0))

-- A chunk by the costs of its entries. An entry that is too large goes alone.
structure Fits (base : Nat) (chunk : List Nat) : Prop where
  ne_nil : chunk ≠ []
  keys   : chunk.length ≤ maxBatchKeys
  bytes  : 1 < chunk.length → base + chunk.sum ≤ maxRequestBytes

theorem close_foldl (base : Nat) (costs lengths chunk : List Nat)
    (h : chunk = [] ∨ Fits base chunk) :
    ∃ chunks : List (List Nat),
      close (costs.foldl (chunkStep base) (lengths, chunk.length, chunk.sum)) =
        lengths ++ chunks.map List.length ∧
      chunks.flatten = chunk ++ costs ∧ ∀ c ∈ chunks, Fits base c := by
  induction costs generalizing lengths chunk
  case nil =>
    rcases h with rfl | h
    case inl => exact ⟨[], by simp [close]⟩
    case inr => exact ⟨[chunk], by simp [close, List.length_pos_iff, h.ne_nil, h]⟩
  case cons cost costs hi =>
    rw [List.foldl_cons, chunkStep]
    split
    case isTrue hfull =>
      have h := h.resolve_left (List.length_pos_iff.mp hfull.left)
      obtain ⟨chunks, he, hf, hc⟩ := hi (lengths ++ [chunk.length]) [cost]
        (.inr ⟨by simp, by simp [maxBatchKeys], by simp⟩)
      exact ⟨chunk :: chunks, by simpa using he, by simp [hf], by simpa using ⟨h, hc⟩⟩
    case isFalse hroom =>
      have hk : chunk.length ≤ maxBatchKeys := h.elim (by rintro rfl; simp) (·.keys)
      have h' : Fits base (chunk ++ [cost]) := by
        refine ⟨by simp, ?_, ?_⟩ <;> simp only [List.length_append, List.length_singleton,
          List.sum_append, List.sum_singleton, maxBatchKeys] at hk hroom ⊢ <;> omega
      simpa using hi lengths _ (.inr h')

-- The chunks are the batch, and all but single entries fit into a frame.
theorem chunkLengths_fits (namespaceLen entryCount : Nat) (entryCost : Nat → Nat) :
    ∃ chunks : List (List Nat), chunks.flatten = (List.range entryCount).map entryCost ∧
      chunkLengths namespaceLen entryCount entryCost = chunks.map List.length ∧
      ∀ chunk ∈ chunks, Fits (namespaceLen + multiFrameFixedOverheadBytes) chunk := by
  obtain ⟨chunks, he, hf, hc⟩ := close_foldl (namespaceLen + multiFrameFixedOverheadBytes)
    ((List.range entryCount).map entryCost) [] [] (.inl rfl)
  rw [List.foldl_map] at he
  exact ⟨chunks, by simpa using hf, by simpa [chunkLengths] using he, hc⟩

end Nanocached.Sdk
