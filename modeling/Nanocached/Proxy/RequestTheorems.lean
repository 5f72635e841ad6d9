import Nanocached.Command.ClientFrame
import Nanocached.Proxy.RequestGrammar
import Nanocached.Proxy.RequestResume

-- The proxy reads its clients as a node would.

namespace Nanocached.Proxy

open Wire (Heads ClientFrame clientLetters)

variable {input : Bytes} {tagged : Bool} {tag : Option UInt32} {request : Request}
variable {letter : Bytes} {parts : List Bytes} {headerEnd maxFrame n : Nat}

section Frames

theorem foldlM_checkedAdd_of_lt {lengths : List Nat} {a : Nat} (h : a + lengths.sum < 2 ^ 64) :
    lengths.foldlM checkedAdd a = .ok (a + lengths.sum) := by
  induction lengths generalizing a
  case nil => rfl
  case cons length lengths hi =>
    rw [List.sum_cons] at h ⊢
    rw [List.foldlM_cons, checkedAdd_eq_ok.mpr ⟨rfl, by omega⟩, ← Nat.add_assoc]
    exact hi (by omega)

theorem frameEndOf_of_lt {lengths : List Nat} (h : headerEnd + 1 + lengths.sum < 2 ^ 64) :
    frameEndOf headerEnd lengths = .ok (headerEnd + 1 + lengths.sum) := by
  rw [frameEndOf, foldlM_checkedAdd_of_lt (by omega), checkedAdd_eq_ok.mpr ⟨rfl, by omega⟩]
  exact checkedAdd_eq_ok.mpr ⟨by omega, h⟩

-- A header of the grammar is ASCII, and therefore UTF-8.
theorem isUtf8_of_header {shape : Wire.Shape} (hh : Heads input headerEnd letter parts)
    (hs : Wire.Header tagged letter parts shape) : Wire.isUtf8 (input.take headerEnd) = true := by
  refine Ascii.validateUTF8_of_ascii ?_
  rw [hh.line_eq]
  exact Wire.forall_mem_intercalate (by decide) hs.isAscii

theorem requestOf_of_clientFrame {command : Wire.Command} (h : ClientFrame tagged input command tag n)
    (hm : n ≤ maxFrame) (hn : n < 2 ^ 64) :
    ∃ request, Client.command request = command ∧
      requestOf input tagged true maxFrame = (.ok (.ready request tag), n) := by
  rcases h with @⟨headerEnd, letter, parts, shape, _, hh, hs, he, hc⟩
  have hlen := hh.length_parts
  obtain ⟨shape', hp, hl, ht, hf⟩ := Client.parseHeader_of_header hs (by omega)
  obtain ⟨request, hr, hcommand⟩ :=
    hf (Wire.cut shape.lengths ((input.take n).drop (headerEnd + 1)))
  refine ⟨request, hcommand, ?_⟩
  have hline : parseHeaderLine tagged (input.take headerEnd) = .ok shape' := by
    simp only [parseHeaderLine, isUtf8_of_header hh hs, hh.fields, hp]
    rfl
  have hend : frameEndOf headerEnd shape.lengths = .ok n := by
    rw [← he]
    exact frameEndOf_of_lt (by omega)
  have hnone : (shape'.multi.filter fun _ => !true) = none := by cases shape'.multi <;> rfl
  simp only [requestOf, hh.lf, hline, bodyOf, hl, hend, if_neg (Nat.not_lt.mpr hm),
    if_neg (Nat.not_lt.mpr hc), hnone, hr]

-- A request is what the header of its frame makes of the body.
theorem ready_of_requestOf (hh : Heads input headerEnd letter parts)
    (h : requestOf input tagged true maxFrame = (.ok (.ready request tag), n)) :
    ∃ shape, Client.parseHeader tagged parts letter = .ok shape ∧
      frameEndOf headerEnd shape.lengths = .ok n ∧ n ≤ maxFrame ∧ n ≤ input.length ∧
      shape.finish (Wire.cut shape.lengths ((input.take n).drop (headerEnd + 1))) =
        .ready request tag := by
  simp only [requestOf, hh.lf] at h
  cases hp : parseHeaderLine tagged (input.take headerEnd)
  case error =>
    rw [hp] at h
    cases h
  case ok shape =>
    rw [hp] at h
    unfold parseHeaderLine at hp
    split at hp
    case isTrue => contradiction
    case isFalse =>
      rw [hh.fields] at hp
      dsimp only [bodyOf] at h
      cases he : frameEndOf headerEnd shape.lengths
      case error =>
        rw [he] at h
        cases h
      case ok frameEnd =>
        have hnone : (shape.multi.filter fun _ => !true) = none := by cases shape.multi <;> rfl
        rw [he] at h
        by_cases hm : frameEnd > maxFrame
        case pos =>
          simp only [if_pos hm] at h
          cases h
        case neg =>
          by_cases hc : input.length < frameEnd
          case pos =>
            simp only [if_neg hm, if_pos hc] at h
            cases h
          case neg =>
            simp only [if_neg hm, if_neg hc, hnone, Prod.mk.injEq, Except.ok.injEq] at h
            obtain ⟨hf, rfl⟩ := h
            exact ⟨shape, hp, he, Nat.le_of_not_lt hm, Nat.le_of_not_lt hc, hf⟩

theorem clientFrame_of_requestOf (hh : Heads input headerEnd letter parts)
    (hl : letter ∈ clientLetters)
    (h : requestOf input tagged true maxFrame = (.ok (.ready request tag), n)) :
    ClientFrame tagged input (Client.command request) tag n ∧ n ≤ maxFrame := by
  obtain ⟨shape, hp, he, hm, hc, hready⟩ := ready_of_requestOf hh h
  obtain ⟨shape', hs, hlen, ht, hf⟩ := Client.header_of_parseHeader hl hp
  obtain ⟨request', hr, hcommand⟩ :=
    hf (Wire.cut shape'.lengths ((input.take n).drop (headerEnd + 1)))
  rw [hlen, hr] at hready
  cases hready
  rw [hcommand]
  rw [hlen] at he
  exact ⟨.mk hh hs (frameEndOf_eq_ok he).symm hc, hm⟩

theorem finish_of_auth {shape : Client.Shape} (h : Client.auth parts = .ok shape)
    (fields : List Bytes) :
    ∃ tagging retryCapable, shape.finish fields = .auth fields.headI tagging retryCapable := by
  unfold Client.auth at h
  split at h
  all_goals
    simp only [Fallible.bind_eq_ok, Fallible.pure_eq_ok, Fallible.check_eq_ok,
      Fallible.throw_eq_ok, false_and, exists_false] at h
  all_goals
    obtain ⟨_, rfl, _, -, -, rfl⟩ := h
    exact ⟨_, _, rfl⟩

-- Other letters are no requests, and the first frame of a connection is none either.
theorem letter_mem_of_requestOf (hh : Heads input headerEnd letter parts)
    (h : requestOf input tagged true maxFrame = (.ok (.ready request tag), n)) :
    letter ∈ clientLetters := by
  obtain ⟨shape, hp, -, -, -, hready⟩ := ready_of_requestOf hh h
  unfold Client.parseHeader at hp
  split at hp
  case h_1 =>
    obtain ⟨_, _, ha⟩ := finish_of_auth hp
      (Wire.cut shape.lengths ((input.take n).drop (headerEnd + 1)))
    rw [ha] at hready
    cases hready
  case h_17 => cases hp
  all_goals decide

-- Every request the proxy takes up is a frame of the grammar.
theorem clientFrame_of_ready (h : requestOf input tagged true maxFrame = (.ok (.ready request tag), n)) :
    ClientFrame tagged input (Client.command request) tag n ∧ n ≤ maxFrame := by
  rcases Wire.heads_cases input with hf | ⟨headerEnd, letter, parts, hh⟩
  case inl =>
    simp only [requestOf, hf] at h
    split_ifs at h
    all_goals cases h
  case inr => exact clientFrame_of_requestOf hh (letter_mem_of_requestOf hh h) h

theorem view_eq_emit :
    (∃ charge, view tagged maxFrame input = .emit (charge, .ready request tag) n) ↔
      requestOf input tagged true maxFrame = (.ok (.ready request tag), n) := by
  by_cases hc : ∃ frame tag,
    (requestOf input tagged false maxFrame).1 = .ok (.chargeRequired frame tag)
  case pos =>
    obtain ⟨frame, tag', hr⟩ := hc
    simp only [view, hr, stepOf_eq_emit]
    constructor
    case mp =>
      rintro ⟨_, -, ho, -, hn⟩
      exact Prod.ext ho hn
    case mpr =>
      intro h
      rw [h]
      exact ⟨_, rfl, rfl, rfl, rfl⟩
  case neg =>
    have hne : ∀ frame tag,
        (requestOf input tagged false maxFrame).1 ≠ .ok (.chargeRequired frame tag) :=
      fun frame tag he => hc ⟨frame, tag, he⟩
    simp only [view_uncharged hne, requestOf_uncharged hne, stepOf_eq_emit]
    constructor
    case mp =>
      rintro ⟨_, -, ho, -, hn⟩
      exact Prod.ext ho hn
    case mpr =>
      intro h
      rw [h]
      exact ⟨_, rfl, rfl, rfl, rfl⟩

end Frames

-- The chunks in which the input of a client arrives make no difference to what the proxy makes of it,
-- nothing is taken off the buffer as long as a frame is not complete or not charged, and a frame that
-- is not too long is to the proxy what it is to a node.
theorem client_read_as_by_node (tagged : Bool) :
    (∀ (maxFrame : Nat) (chunks : List Bytes), (requests tagged maxFrame).feed {} [] chunks =
      ((requests tagged maxFrame).drain {} chunks.flatten).1) ∧
    (∀ input scan maxFrame outcome,
      (parseRequestLimited input tagged scan maxFrame).1 = .ok outcome → outcome.isPending = true →
        (parseRequestLimited input tagged scan maxFrame).2.2 = 0) ∧
    ∀ input headerEnd letter parts, Heads input headerEnd letter parts → letter ∈ clientLetters →
      ∀ command tag n, n ≤ maxClientFrameSize →
        ((Wire.parseCharging input tagged {}).1 = .ok (command, tag) ∧
            (Wire.parseCharging input tagged {}).2.2 = n ↔
          ∃ charge request, Client.command request = command ∧
            (handle input tagged maxClientFrameSize {}).1 = .emit (charge, .ready request tag) n) := by
  refine ⟨fun maxFrame => (represents_requests tagged maxFrame).feed_eq, ?_, ?_⟩
  case refine_1 =>
    intro input scan maxFrame outcome ho hp
    have hc := takes_parseRequestLimited ho
    rwa [if_pos hp] at hc
  case refine_2 =>
    intro input headerEnd letter parts hh hl command tag n hn
    have hn' : n < 2 ^ 64 := lt_of_le_of_lt hn (by decide)
    have hf := (Wire.parseCharging_eq
      (show Wire.MigrateProgress.Valid tagged input {} from .init)).left
    rw [(handle_eq ⟨.fresh, rfl⟩).left]
    constructor
    case mp =>
      rintro ⟨ho, hc⟩
      have hframe := Wire.clientFrame_of_frameOf hh hl (hf.symm.trans (Prod.ext ho hc))
      obtain ⟨request, hr, h⟩ := requestOf_of_clientFrame hframe hn hn'
      obtain ⟨charge, he⟩ := view_eq_emit.mpr h
      exact ⟨charge, request, hr, he⟩
    case mpr =>
      rintro ⟨charge, request, rfl, he⟩
      obtain ⟨hframe, -⟩ := clientFrame_of_requestOf hh hl (view_eq_emit.mp ⟨charge, he⟩)
      rw [Wire.frameOf_of_clientFrame hframe hn'] at hf
      exact Prod.ext_iff.mp hf

-- `g 1 1 7`, and then the namespace `n` and the key `k`.
theorem client_read_as_by_node_get :
    (parseRequestLimited [103, 32] true {} maxClientFrameSize).2.2 = 0 ∧
    (Wire.parseCharging [103, 32, 49, 32, 49, 32, 55, 10, 110, 107] true {}).1 =
      .ok (.get ⟨[110], [107]⟩, some 7) ∧
    ∃ charge request, Client.command request = .get ⟨[110], [107]⟩ ∧
      (handle [103, 32, 49, 32, 49, 32, 55, 10, 110, 107] true maxClientFrameSize {}).1 =
        .emit (charge, .ready request (some 7)) 10 :=
  ⟨(client_read_as_by_node true).right.left _ _ _ .incomplete rfl rfl, rfl,
    ((client_read_as_by_node true).right.right _ 7 [103] [[49], [49], [55]] ⟨rfl, rfl⟩ (by decide)
      _ _ 10 (by decide)).mp ⟨rfl, rfl⟩⟩

end Nanocached.Proxy
