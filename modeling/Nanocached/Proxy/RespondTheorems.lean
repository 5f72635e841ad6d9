import Nanocached.Proxy.ReplyTheorems
import Nanocached.Proxy.RequestTheorems
import Nanocached.Proxy.Respond

-- The replies of nodes mean the same after the proxy.

namespace Nanocached.Proxy

open HeaderLine (spaced IsField isField_ofNat)

section Receive

variable {α : Type} {read : Bytes → Read α} {buf : Bytes} {chunks : List Bytes}

-- The bytes arrive in chunks, and the next chunk is waited for only as long as there are too few of
-- them. The chunks that are left have not been waited for.
def receive (read : Bytes → Read α) (buf : Bytes) : List Bytes → Read α × List Bytes
  | []              => (read buf, [])
  | chunk :: chunks =>
    match read buf with
    | .more   => receive read (buf ++ chunk) chunks
    | decided => (decided, chunk :: chunks)

theorem Read.append_nil (result : Read α) : result.append [] = result := by
  cases result <;> simp [Read.append]

theorem receive_eq (hs : Stable read) (h : read (buf ++ chunks.flatten) ≠ .more) :
    read (buf ++ chunks.flatten) =
      (receive read buf chunks).1.append (receive read buf chunks).2.flatten := by
  induction chunks generalizing buf
  case nil => simp [receive, Read.append_nil]
  case cons chunk chunks hi =>
    by_cases hr : read buf = .more
    case pos =>
      rw [receive, hr]
      rw [List.flatten_cons, ← List.append_assoc] at h ⊢
      exact hi h
    case neg =>
      have hd : receive read buf (chunk :: chunks) = (read buf, chunk :: chunks) := by
        rw [receive]
        split
        case h_1 he => exact absurd he hr
        case h_2    => rfl
      rw [hd]
      exact hs buf _ hr

theorem receive_done (hs : Stable read) {result : α} {rest : Bytes}
    (h : read (buf ++ chunks.flatten) = .done result rest) :
    ∃ buffered left, receive read buf chunks = (.done result buffered, left) ∧
      buffered ++ left.flatten = rest := by
  have hm : read (buf ++ chunks.flatten) ≠ .more := by simp [h]
  have he := receive_eq hs hm
  rw [h] at he
  generalize receive read buf chunks = received at he ⊢
  obtain ⟨result', left⟩ := received
  cases result'
  case more          => cases he
  case failed        => cases he
  case done buffered =>
    cases he
    exact ⟨buffered, left, rfl, rfl⟩

theorem receive_failed (hs : Stable read) (h : read (buf ++ chunks.flatten) = .failed) :
    (receive read buf chunks).1 = .failed := by
  have hm : read (buf ++ chunks.flatten) ≠ .more := by simp [h]
  have he := receive_eq hs hm
  rw [h] at he
  generalize receive read buf chunks = received at he ⊢
  obtain ⟨result, left⟩ := received
  cases result
  case more   => cases he
  case failed => rfl
  case done   => cases he

end Receive

section Readers

variable {tag tag' : UInt32} {expect : Expect} {reply : ReplyFrame} {result : NodeReply} {rest : Bytes}

theorem tagField_injective (h : tagField tag = tagField tag') : tag = tag' :=
  UInt32.toNat_inj.mp (Decimal.ofNat_injective h)

theorem parseLengthField_ofNat {n : Nat} (h : n < 2 ^ 64) :
    parseLengthField (Decimal.ofNat n) = some n := by
  have hc := Decimal.isCanonical_ofNat n
  have hd : (Decimal.ofNat n).all Decimal.isDigit = true := List.all_eq_true.mpr hc.isDigit
  have he : (Decimal.ofNat n).isEmpty = false := List.isEmpty_eq_false_iff.mpr hc.nonempty
  simp only [parseLengthField, hd, he, Decimal.value_ofNat, if_pos h]
  rfl

theorem length_tagField_le (tag : UInt32) : (tagField tag).length ≤ 10 :=
  Decimal.length_ofNat_le (by decide) (lt_trans tag.toNat_lt (by decide))

def headerLimit (expect : Expect) : Nat :=
  if expect = .multi then maxMultiReplyHeaderBytes else maxRequestSize

-- The reply is read off the front of what has arrived.
structure Reads (expect : Expect) (reply : ReplyFrame) (result : NodeReply) : Prop where
  fields : ∀ field ∈ [reply.marker] :: reply.fields, IsField field
  fits   : (spaced reply.fields).length + 13 ≤ headerLimit expect
  read   : ∀ tag rest, readFields tag expect (reply.body ++ rest) [reply.marker]
             (reply.fields ++ [tagField tag]) = .done result rest

theorem readReply_render (h : Reads expect reply result) (tag tag' : UInt32) (rest : Bytes) :
    readReply tag expect (reply.render (some tag') ++ rest) =
      readFields tag expect (reply.body ++ rest) [reply.marker] (reply.fields ++ [tagField tag']) := by
  have hfields : ∀ field ∈ [reply.marker] :: (reply.fields ++ [tagField tag']), IsField field := by
    intro field hm
    rw [← List.cons_append, List.mem_append, List.mem_singleton] at hm
    rcases hm with hm | rfl
    · exact h.fields field hm
    · exact isField_ofNat _
  have hline : reply.render (some tag') ++ rest =
      ([reply.marker] ++ spaced (reply.fields ++ [tagField tag'])) ++ 10 :: (reply.body ++ rest) := by
    simp [ReplyFrame.render, tagSuffix, spaced, tagField]
  have hlen : ([reply.marker] ++ spaced (reply.fields ++ [tagField tag'])).length + 1 ≤
      headerLimit expect := by
    have ht := length_tagField_le tag'
    have hf := h.fits
    rw [HeaderLine.spaced_append]
    simp only [List.length_append, spaced, List.flatMap_cons, List.flatMap_nil, List.append_nil,
      List.length_cons, List.length_nil] at hf ⊢
    omega
  have hread : readLineUpTo (headerLimit expect) (reply.render (some tag') ++ rest) =
      .done ([reply.marker] ++ spaced (reply.fields ++ [tagField tag'])) (reply.body ++ rest) := by
    rw [hline, readLineUpTo, HeaderLine.findIdx?_line (HeaderLine.lf_notMem_line hfields)]
    dsimp only
    rw [if_neg (Nat.not_lt.mpr hlen)]
    simp
  rw [readReply]
  dsimp only [headerLimit] at hread
  simp only [hread, Proxy.fields, HeaderLine.splitOn_spaced hfields]

theorem readReply_done (h : Reads expect reply result) (tag : UInt32) (rest : Bytes) :
    readReply tag expect (reply.render (some tag) ++ rest) = .done result rest :=
  (readReply_render h tag tag rest).trans (h.read tag rest)

-- The tag is the last field, which is compared before anything is read.
theorem readReply_failed (h : Reads expect reply result) (ht : tag' ≠ tag) (rest : Bytes) :
    readReply tag' expect (reply.render (some tag) ++ rest) = .failed := by
  rw [readReply_render h]
  rcases readsBody_readFields tag' expect [reply.marker] (reply.fields ++ [tagField tag])
    with hf | ⟨he, -⟩
  case failed => exact hf _
  case body =>
    rw [List.getLast?_concat] at he
    exact absurd (tagField_injective (Option.some.inj he)).symm ht

theorem readBody_append (body : Bytes) {read : Bytes → NodeReply} {fits : NodeReply → Bool}
    (h : fits (read body) = true) (rest : Bytes) :
    readBody (body ++ rest) body.length read fits = .done (read body) rest := by
  simp [readBody, h]

theorem readStatus_done (h : expect.fits result = true) (tag : UInt32) (rest : Bytes) :
    readStatus tag expect rest [tagField tag] result = .done result rest := by
  simpa [readStatus] using readBody_append [] h rest

theorem readValue_done {value : Bytes} {ttl : Option Nat} {read : Bytes → Option Nat → NodeReply}
    (h : expect.fits (read value ttl) = true) (hv : value.length ≤ maxRequestSize)
    (ht : ∀ secs ∈ ttl, secs < 2 ^ 64) (tag : UInt32) (rest : Bytes) :
    readValue tag expect (value ++ rest)
      (Decimal.ofNat value.length :: (ttl.map Decimal.ofNat).toList ++ [tagField tag]) read =
        .done (read value ttl) rest := by
  have hl : parseLengthField (Decimal.ofNat value.length) = some value.length :=
    parseLengthField_ofNat (lt_of_le_of_lt hv (by decide))
  have hb : readBody (value ++ rest) value.length (read · ttl) expect.fits =
      .done (read value ttl) rest := readBody_append value h rest
  have hc : ¬(tagField tag ≠ tagField tag ∨ value.length > maxRequestSize) := by
    rintro (hn | hn)
    · exact hn rfl
    · omega
  cases ttl
  case none =>
    simp only [readValue, Option.map_none, Option.toList_none, List.cons_append, List.nil_append, hl,
      if_neg hc, hb]
  case some secs =>
    simp only [readValue, Option.map_some, Option.toList_some, List.cons_append, List.nil_append, hl,
      parseLengthField_ofNat (ht secs rfl), if_neg hc, hb]

theorem rosterTokens_eq (roster : List Bytes) (h : roster.length < 2 ^ 64) (tag : UInt32) :
    rosterTokens tag (Decimal.ofNat roster.length :: roster ++ [tagField tag]) = some roster := by
  simp only [rosterTokens, List.getLast?_concat, List.dropLast_concat, Option.bind_eq_bind,
    Option.bind_some, ne_eq, not_true_eq_false, if_false, parseLengthField_ofNat h]
  rfl

theorem mapM_map_eq_some {α β γ : Type} {f : α → β} {g : β → Option γ} {k : α → γ} {xs : List α}
    (h : ∀ x ∈ xs, g (f x) = some (k x)) : (xs.map f).mapM g = some (xs.map k) := by
  induction xs
  case nil => rfl
  case cons x xs hi =>
    rw [List.forall_mem_cons] at h
    rw [List.map_cons, List.mapM_cons, h.left, hi h.right]
    rfl

end Readers

section Answers

-- The commands which are about one key, and those of them which can miss it.
def isKeyed : Wire.Command → Bool
  | .get _ | .set .. | .delete _ | .incr .. | .casSet .. | .casDelete .. | .touch .. => true
  | _                                                                                => false

def mayMiss : Wire.Command → Bool
  | .get _ | .delete _ | .incr .. | .casSet .. | .casDelete .. | .touch .. => true
  | _                                                                      => false

-- A batch which is a part of one that a client has sent.
def Sendable (keys : List Bytes) : Prop :=
  ∃ input tagged charge request tag n,
    (handle input tagged maxClientFrameSize {}).1 = .emit (charge, .ready request tag) n ∧
      keys.Sublist (Client.command request).batch

def valuesLength (entries : List Nanocached.MultiEntry) : Nat :=
  (entries.map fun entry => entry.bytes.length).sum

-- What a node answers to the commands which are forwarded to it.
inductive NodeAnswers : Wire.Command → Response → Prop
  | value {key value} :
      value.length ≤ maxRequestSize → NodeAnswers (.get key) (.value value)
  | notFound {command} :
      mayMiss command = true → NodeAnswers command .notFound
  | wrongNode {command} :
      isKeyed command = true → NodeAnswers command .wrongNode
  | set {key value ttl} :
      NodeAnswers (.set key value ttl) .stored
  | casSet {key condition value ttl} :
      NodeAnswers (.casSet key condition value ttl) .stored
  | touch {key ttl} :
      NodeAnswers (.touch key ttl false) .stored
  | touched {key ttl value} {remaining : Option Duration} :
      value.length ≤ maxRequestSize → (∀ ttl ∈ remaining, ttlWireSeconds ttl < 2 ^ 64) →
      NodeAnswers (.touch key ttl true) (.touched value remaining)
  | delete {key} :
      NodeAnswers (.delete key) .deleted
  | casDelete {key digest} :
      NodeAnswers (.casDelete key digest) .deleted
  | incremented {key delta value} {remaining : Option Duration} :
      value.length ≤ maxRequestSize → (∀ ttl ∈ remaining, ttlWireSeconds ttl < 2 ^ 64) →
      NodeAnswers (.incr key delta) (.incremented value remaining)
  | notNumeric {key delta} :
      NodeAnswers (.incr key delta) .notNumeric
  | clear {ns removed} :
      NodeAnswers (.clear ns) (.cleared removed)
  | clearAll {removed} :
      NodeAnswers .clearAll (.cleared removed)
  | multiGet {ns keys entries} :
      Sendable keys → entries.length = keys.length →
      valuesLength entries ≤ maxMultiReplyValueBytes →
      NodeAnswers (.multiGet ns keys) (.multi entries)
  | multiTouched {ns keys ttl entries} :
      Sendable keys → entries.length = keys.length →
      valuesLength entries ≤ maxMultiReplyValueBytes →
      NodeAnswers (.multiTouch ns keys ttl true) (.multi entries)
  | multiSet {ns keys values ttl entries} :
      Sendable keys → entries.length = keys.length →
      NodeAnswers (.multiSet ns keys values ttl) (.multiAck entries)
  | multiTouch {ns keys ttl entries} :
      Sendable keys → entries.length = keys.length →
      NodeAnswers (.multiTouch ns keys ttl false) (.multiTouch entries)

def multiEntryOf : Nanocached.MultiEntry → MultiEntry
  | .value value => .value value
  | .miss        => .miss
  | .wrongNode   => .wrongNode

def ackEntryOf : MultiAckEntry → AckEntry
  | .stored    => .stored
  | .wrongNode => .wrongNode

def touchEntryOf : MultiTouchEntry → MultiEntry
  | .touched   => .value []
  | .miss      => .miss
  | .wrongNode => .wrongNode

-- What a reply to the proxy says of an answer.
def nodeReply : Response → Option NodeReply
  | .value value              => some (.value value)
  | .touched value none       => some (.value value)
  | .touched value (some ttl) => some (.touched value (ttlWireSeconds ttl))
  | .incremented value ttl    => some (.incremented value (ttl.map ttlWireSeconds))
  | .stored                   => some .stored
  | .deleted                  => some .deleted
  | .notFound                 => some .notFound
  | .notNumeric               => some .notNumeric
  | .cleared _                => some .cleared
  | .wrongNode                => some .wrongNode
  | .multi entries            => some (.multi (entries.map multiEntryOf))
  | .multiAck entries         => some (.multiAck (entries.map ackEntryOf))
  | .multiTouch entries       => some (.multiTouch (entries.map touchEntryOf))
  | _                         => none

variable {keys : List Bytes}

theorem Sendable.length_le (h : Sendable keys) : 3 * keys.length ≤ maxRequestSize := by
  obtain ⟨input, tagged, charge, request, tag, n, he, hs⟩ := h
  rw [(handle_eq ⟨.fresh, rfl⟩).left] at he
  obtain ⟨hf, hn⟩ := clientFrame_of_ready (view_eq_emit.mp ⟨charge, he⟩)
  have hb := hf.batch_le
  have hl := hs.length_le
  have hm : maxClientFrameSize ≤ maxRequestSize := by decide
  omega

end Answers

section Reads

variable {expect : Expect} {result : NodeReply} {marker : UInt8} {value : Bytes} {ttl : Option Nat}

theorem le_headerLimit (expect : Expect) : maxRequestSize ≤ headerLimit expect := by
  cases expect <;> decide

theorem reads_status (hm : IsField [marker]) (h : expect.fits result = true)
    (hr : ∀ tag rest fields, readFields tag expect rest [marker] fields =
      readStatus tag expect rest fields result) : Reads expect ⟨marker, [], []⟩ result where
  fields := by simpa using hm
  fits   := show 13 ≤ headerLimit expect from le_trans (by decide) (le_headerLimit expect)
  read   := fun tag rest => (hr tag rest _).trans (readStatus_done h tag rest)

theorem reads_value (read : Bytes → Option Nat → NodeReply) (hm : IsField [marker])
    (hv : value.length ≤ maxRequestSize) (ht : ∀ secs ∈ ttl, secs < 2 ^ 64)
    (h : expect.fits (read value ttl) = true)
    (hr : ∀ tag rest fields, readFields tag expect rest [marker] fields =
      readValue tag expect rest fields read) :
    Reads expect ⟨marker, Decimal.ofNat value.length :: (ttl.map Decimal.ofNat).toList, value⟩
      (read value ttl) where
  fields := by
    cases ttl <;> simp [hm, isField_ofNat]
  fits   := by
    have hlen : ∀ field ∈ Decimal.ofNat value.length :: (ttl.map Decimal.ofNat).toList,
        field.length ≤ 20 := by
      have hl := Decimal.length_ofNat_le (k := 20) (by decide)
        (lt_of_le_of_lt hv (by decide))
      cases ttl
      case none => simpa using hl
      case some secs =>
        have hs := Decimal.length_ofNat_le (k := 20) (by decide)
          (lt_trans (ht secs rfl) (by decide))
        simpa using ⟨hl, hs⟩
    have hf := HeaderLine.length_spaced_le hlen
    have hc : (Decimal.ofNat value.length :: (ttl.map Decimal.ofNat).toList).length ≤ 2 := by
      cases ttl <;> simp
    have hlim : maxRequestSize ≤ headerLimit expect := le_headerLimit expect
    have hmax : 21 * 2 + 13 ≤ maxRequestSize := by decide
    dsimp only
    omega
  read   := fun tag rest => (hr tag _ _).trans (readValue_done h hv ht tag rest)

-- How a `V` (86) is read.
theorem reads_v (hv : value.length ≤ maxRequestSize) (ht : ∀ secs ∈ ttl, secs < 2 ^ 64)
    (h : expect.fits (ttl.elim (.value value) (.touched value)) = true) :
    Reads expect ⟨86, Decimal.ofNat value.length :: (ttl.map Decimal.ofNat).toList, value⟩
      (ttl.elim (.value value) (.touched value)) :=
  reads_value (fun value ttl => ttl.elim (.value value) (.touched value))
    ⟨by decide, by decide⟩ hv ht h fun _ _ _ => rfl

-- A roster: the number of the keys, a token for each of them.
theorem fits_roster {α : Type} {entries : List α} {token : α → Bytes} {k : Nat}
    (hl : 3 * entries.length ≤ maxRequestSize) (ht : ∀ entry ∈ entries, (token entry).length ≤ k)
    (hk : (k + 1) * entries.length + 21 ≤ headerLimit expect) :
    (spaced (Decimal.ofNat entries.length :: entries.map token)).length + 13 ≤
      headerLimit expect := by
  have hc := Decimal.length_ofNat_le (k := 7) (by decide)
    (show entries.length < 10 ^ 7 by simp only [maxRequestSize] at hl; omega)
  have hs := HeaderLine.length_spaced_le
    (show ∀ field ∈ entries.map token, field.length ≤ k by simpa using ht)
  rw [List.length_map] at hs
  simp only [spaced, List.flatMap_cons, List.length_append, List.length_cons] at hs ⊢
  omega

theorem isField_roster {α : Type} {entries : List α} {token : α → Bytes} (hm : IsField [marker])
    (ht : ∀ entry, IsField (token entry)) :
    ∀ field ∈ [marker] :: Decimal.ofNat entries.length :: entries.map token, IsField field := by
  refine List.forall_mem_cons.mpr ⟨hm, List.forall_mem_cons.mpr ⟨isField_ofNat _, ?_⟩⟩
  simpa using fun entry _ => ht entry

theorem bind_rosterTokens {α β : Type} {entries : List α} {token : α → Bytes}
    {parse : Bytes → Option β} {entryOf : α → β} (hl : 3 * entries.length ≤ maxRequestSize)
    (ht : ∀ entry ∈ entries, parse (token entry) = some (entryOf entry)) (tag : UInt32) :
    (rosterTokens tag (Decimal.ofNat entries.length :: entries.map token ++ [tagField tag])).bind
      (·.mapM parse) = some (entries.map entryOf) := by
  have hr := rosterTokens_eq (entries.map token)
    (by simp only [List.length_map, maxRequestSize] at hl ⊢; omega) tag
  rw [List.length_map] at hr
  rw [hr]
  exact mapM_map_eq_some ht

theorem isField_ackToken (entry : MultiAckEntry) : IsField entry.token := by
  cases entry <;> exact ⟨by decide, by decide⟩

theorem isField_touchToken (entry : MultiTouchEntry) : IsField entry.token := by
  cases entry <;> exact ⟨by decide, by decide⟩

theorem isField_multiToken (entry : Nanocached.MultiEntry) : IsField entry.token := by
  cases entry
  case value value => exact isField_ofNat _
  all_goals exact ⟨by decide, by decide⟩

theorem reads_multiAck {entries : List MultiAckEntry}
    (hl : 3 * entries.length ≤ maxRequestSize) :
    Reads .multiAck ⟨79, Decimal.ofNat entries.length :: entries.map (·.token), []⟩
      (.multiAck (entries.map ackEntryOf)) where
  fields := isField_roster (show IsField [79] from ⟨by decide, by decide⟩) isField_ackToken
  fits   := by
    refine fits_roster (k := 1) hl (fun entry _ => by cases entry <;> decide) ?_
    simp only [headerLimit, maxRequestSize] at hl ⊢
    rw [if_neg (by decide)]
    omega
  read tag rest := by
    have ht : ∀ entry ∈ entries, AckEntry.parse entry.token = some (ackEntryOf entry) := by
      intro entry _
      cases entry <;> rfl
    simp only [readFields, readMultiAck, bind_rosterTokens hl ht]
    exact readBody_append [] (by decide) rest

theorem reads_multiTouch {entries : List MultiTouchEntry}
    (hl : 3 * entries.length ≤ maxRequestSize) :
    Reads .multiTouch ⟨89, Decimal.ofNat entries.length :: entries.map (·.token), []⟩
      (.multiTouch (entries.map touchEntryOf)) where
  fields := isField_roster (show IsField [89] from ⟨by decide, by decide⟩) isField_touchToken
  fits   := by
    refine fits_roster (k := 1) hl (fun entry _ => by cases entry <;> decide) ?_
    simp only [headerLimit, maxRequestSize] at hl ⊢
    rw [if_neg (by decide)]
    omega
  read tag rest := by
    have ht : ∀ entry ∈ entries, MultiEntry.parse entry.token = some (touchEntryOf entry) := by
      intro entry _
      cases entry <;> rfl
    simp only [readFields, readMultiTouch, bind_rosterTokens hl ht]
    exact readBody_append [] (by decide) rest

-- The token of an entry of an `M`.
def rosterTokenOf : Nanocached.MultiEntry → RosterToken
  | .value value => .value value.length
  | .miss        => .miss
  | .wrongNode   => .wrongNode

theorem parse_multiToken {entry : Nanocached.MultiEntry} (h : entry.bytes.length < 2 ^ 64) :
    RosterToken.parse entry.token = some (rosterTokenOf entry) := by
  cases entry
  case value value =>
    have hc := Decimal.isCanonical_ofNat value.length
    have hn (byte : UInt8) (hd : Decimal.isDigit byte = false) :
        (Nanocached.MultiEntry.value value).token ≠ [byte] := by
      intro he
      have hb : Decimal.ofNat value.length = [byte] := he
      exact absurd (hc.isDigit byte (by simp [hb])) (by simp [hd])
    rw [RosterToken.parse, if_neg (hn 45 rfl), if_neg (hn 87 rfl)]
    exact congrArg (Option.map RosterToken.value) (parseLengthField_ofNat h)
  case miss      => rfl
  case wrongNode => rfl

theorem length_rosterTokenOf (entry : Nanocached.MultiEntry) :
    (rosterTokenOf entry).length = entry.bytes.length := by
  cases entry <;> rfl

-- The values are cut off the body as they have been written to it.
theorem multiEntries_eq (entries : List Nanocached.MultiEntry) :
    multiEntries (entries.map rosterTokenOf) (entries.flatMap (·.bytes)) =
      entries.map multiEntryOf := by
  induction entries
  case nil => rfl
  case cons entry entries hi =>
    cases entry
    case value value =>
      have hb : (Nanocached.MultiEntry.value value).bytes = value := rfl
      simp only [List.map_cons, rosterTokenOf, List.flatMap_cons, hb, multiEntries, multiEntryOf,
        List.take_left, List.drop_left, hi]
    case miss      => exact congrArg (MultiEntry.miss :: ·) hi
    case wrongNode => exact congrArg (MultiEntry.wrongNode :: ·) hi

theorem length_bytes_le {entries : List Nanocached.MultiEntry} {entry : Nanocached.MultiEntry}
    (h : entry ∈ entries) : entry.bytes.length ≤ valuesLength entries :=
  List.single_le_sum (fun _ _ => Nat.zero_le _) _
    (List.mem_map_of_mem (f := fun entry => entry.bytes.length) h)

theorem length_multiToken {entry : Nanocached.MultiEntry}
    (h : entry.bytes.length ≤ maxMultiReplyValueBytes) : entry.token.length ≤ 8 := by
  cases entry
  case value value =>
    exact Decimal.length_ofNat_le (by decide) (lt_of_le_of_lt h (by decide))
  case miss      => decide
  case wrongNode => decide

theorem reads_multi {entries : List Nanocached.MultiEntry}
    (hl : 3 * entries.length ≤ maxRequestSize)
    (hv : valuesLength entries ≤ maxMultiReplyValueBytes) :
    Reads .multi ⟨77, Decimal.ofNat entries.length :: entries.map (·.token),
      entries.flatMap (·.bytes)⟩ (.multi (entries.map multiEntryOf)) where
  fields := isField_roster (show IsField [77] from ⟨by decide, by decide⟩) isField_multiToken
  fits   := by
    refine fits_roster (k := 8) hl
      (fun entry hm => length_multiToken ((length_bytes_le hm).trans hv)) ?_
    simp only [headerLimit, maxRequestSize, maxMultiReplyHeaderBytes, if_true] at hl ⊢
    omega
  read tag rest := by
    have ht : ∀ entry ∈ entries, RosterToken.parse entry.token = some (rosterTokenOf entry) :=
      fun entry hm => parse_multiToken
        (lt_of_le_of_lt ((length_bytes_le hm).trans hv) (by decide))
    have hsum : ((entries.map rosterTokenOf).map (·.length)).sum =
        (entries.flatMap (·.bytes)).length := by
      simp only [List.map_map, List.length_flatMap, Function.comp_def, length_rosterTokenOf]
    have hle : ¬((entries.map rosterTokenOf).map (·.length)).sum > maxMultiReplyValueBytes := by
      rw [hsum, List.length_flatMap]
      exact Nat.not_lt.mpr hv
    simp only [readFields, readMulti, bind_rosterTokens hl ht, if_neg hle]
    rw [hsum, readBody_append _ (by decide), multiEntries_eq]

end Reads

-- An answer is read as such by the proxy.
theorem reads_of_answers {command : Wire.Command} {response : Response} {expect : Expect}
    (h : NodeAnswers command response) (he : expectOf command = some expect) :
    ∃ reply result, response.reply = some reply ∧ nodeReply response = some result ∧
      Reads expect reply result := by
  cases h
  case value value hv =>
    cases he
    exact ⟨_, _, rfl, rfl, reads_v hv (show ∀ secs ∈ none, secs < 2 ^ 64 by simp) rfl⟩
  case notFound hm =>
    refine ⟨_, _, rfl, rfl, reads_status ⟨by decide, by decide⟩ ?_ fun _ _ _ => rfl⟩
    cases command <;> cases hm <;> cases he <;> first | rfl | (split <;> rfl)
  case wrongNode hm =>
    refine ⟨_, _, rfl, rfl, reads_status ⟨by decide, by decide⟩ ?_ fun _ _ _ => rfl⟩
    cases command <;> cases hm <;> cases he <;> first | rfl | (split <;> rfl)
  case touched value remaining hv ht =>
    cases he
    have ht' : ∀ secs ∈ remaining.map ttlWireSeconds, secs < 2 ^ 64 := by simpa using ht
    cases remaining
    case none     => exact ⟨_, _, rfl, rfl, reads_v hv ht' rfl⟩
    case some ttl => exact ⟨_, _, rfl, rfl, reads_v hv ht' rfl⟩
  case incremented value remaining hv ht =>
    cases he
    have ht' : ∀ secs ∈ remaining.map ttlWireSeconds, secs < 2 ^ 64 := by simpa using ht
    have hr : Reads .incremented ⟨73, _, value⟩ (.incremented value (remaining.map ttlWireSeconds)) :=
      reads_value .incremented ⟨by decide, by decide⟩ hv ht' rfl fun _ _ _ => rfl
    rw [Option.map_map] at hr
    exact ⟨_, _, rfl, rfl, hr⟩
  case multiGet hk hl hv =>
    cases he
    exact ⟨_, _, rfl, rfl, reads_multi (hl ▸ hk.length_le) hv⟩
  case multiTouched hk hl hv =>
    cases he
    exact ⟨_, _, rfl, rfl, reads_multi (hl ▸ hk.length_le) hv⟩
  case multiSet hk hl =>
    cases he
    exact ⟨_, _, rfl, rfl, reads_multiAck (hl ▸ hk.length_le)⟩
  case multiTouch hk hl =>
    cases he
    exact ⟨_, _, rfl, rfl, reads_multiTouch (hl ▸ hk.length_le)⟩
  all_goals
    cases he
    exact ⟨_, _, rfl, rfl, reads_status ⟨by decide, by decide⟩ rfl fun _ _ _ => rfl⟩

section Responses

variable (tag : Option UInt32) (value : Bytes)

theorem respond_eq (marker : UInt8) : respond tag [marker] = ReplyFrame.render ⟨marker, [], []⟩ tag := by
  cases tag <;> simp [respond, ReplyFrame.render, tagSuffix, spaced, tagField]

theorem respondValue_eq :
    respondValue tag value = ReplyFrame.render ⟨86, [Decimal.ofNat value.length], value⟩ tag := by
  cases tag <;> simp [respondValue, ReplyFrame.render, tagSuffix, spaced, tagField]

theorem respondWithTtl_eq (marker : UInt8) (ttl : Option Duration) :
    respondWithTtl tag marker value (ttl.map ttlWireSeconds) =
      ReplyFrame.render ⟨marker, Decimal.ofNat value.length :: Response.ttlFields ttl, value⟩ tag := by
  cases tag <;> cases ttl <;>
    simp [respondWithTtl, ReplyFrame.render, tagSuffix, spaced, tagField, Response.ttlFields]

theorem respondMulti_eq (entries : List Nanocached.MultiEntry) :
    respondMulti tag (entries.map multiEntryOf) = encodeMulti entries tag := by
  have ht : ∀ entry, (multiEntryOf entry).token = entry.token := fun entry => by cases entry <;> rfl
  have hb : ∀ entry, (multiEntryOf entry).bytes = entry.bytes := fun entry => by cases entry <;> rfl
  simp only [respondMulti, encodeMulti, List.length_map, List.map_map, List.flatMap_map,
    Function.comp_def, ht, hb]

theorem respondMultiAck_eq (entries : List MultiAckEntry) :
    respondMultiAck tag (entries.map ackEntryOf) = encodeMultiAck entries tag := by
  have ht : ∀ entry, (ackEntryOf entry).token = entry.token := fun entry => by cases entry <;> rfl
  simp only [respondMultiAck, encodeMultiAck, List.length_map, List.map_map, Function.comp_def, ht]

theorem respondMultiTouch_eq (entries : List MultiTouchEntry) :
    respondMultiTouch tag (entries.map touchEntryOf) = encodeMultiTouch entries tag := by
  have ht : ∀ entry, (touchEntryOf entry).touchToken = entry.token :=
    fun entry => by cases entry <;> rfl
  simp only [respondMultiTouch, encodeMultiTouch, List.length_map, List.map_map, Function.comp_def,
    ht]

theorem encodeResponse_multi (entries : List Nanocached.MultiEntry) :
    encodeResponse (.multi entries) tag = some (encodeMulti entries tag) := by
  cases tag <;> rfl

theorem encodeResponse_multiAck (entries : List MultiAckEntry) :
    encodeResponse (.multiAck entries) tag = some (encodeMultiAck entries tag) := by
  cases tag <;> rfl

theorem encodeResponse_multiTouch (entries : List MultiTouchEntry) :
    encodeResponse (.multiTouch entries) tag = some (encodeMultiTouch entries tag) := by
  cases tag <;> rfl

-- The client gets what the node would have written to it.
theorem encodeResponse_of_answers {command : Wire.Command} {response : Response} {expect : Expect}
    {result : NodeReply} (h : NodeAnswers command response) (he : expectOf command = some expect)
    (hr : nodeReply response = some result) :
    encodeResponse response tag =
      if result = .wrongNode then some (respond tag [87]) else respondWith tag expect result := by
  have status {response : Response} {marker : UInt8} (hm : response.reply = some ⟨marker, [], []⟩) :
      encodeResponse response tag = some (respond tag [marker]) := by
    rw [Response.encodeResponse_eq hm, respond_eq]
  cases h
  case value value hv =>
    cases he
    cases hr
    rw [Response.encodeResponse_eq rfl, ← respondValue_eq]
    rfl
  case notFound hm =>
    cases hr
    rw [status rfl, if_neg nofun]
    cases command <;> cases hm <;> cases he <;> first | rfl | (split <;> rfl)
  case wrongNode hm =>
    cases hr
    exact status rfl
  case touched value remaining hv ht =>
    cases he
    rw [Response.encodeResponse_eq rfl, ← respondWithTtl_eq]
    cases remaining <;> cases hr <;> rfl
  case incremented value remaining hv ht =>
    cases he
    cases hr
    rw [Response.encodeResponse_eq rfl, ← respondWithTtl_eq]
    rfl
  case multiGet | multiTouched =>
    cases he
    cases hr
    rw [encodeResponse_multi, ← respondMulti_eq]
    rfl
  case multiSet =>
    cases he
    cases hr
    rw [encodeResponse_multiAck, ← respondMultiAck_eq]
    rfl
  case multiTouch =>
    cases he
    cases hr
    rw [encodeResponse_multiTouch, ← respondMultiTouch_eq]
    rfl
  all_goals
    cases he
    cases hr
    exact status rfl

end Responses

-- What a node answers to a command is read as such, however the bytes arrive and whatever follows
-- them, and written to the client as the node would have written it. With any other tag it is an
-- error.
theorem answers_pass_through {command : Wire.Command} {response : Response} {expect : Expect}
    (h : NodeAnswers command response) (he : expectOf command = some expect) (tag : UInt32) :
    ∃ bytes result, response.encodeWithTag tag = some bytes ∧ nodeReply response = some result ∧
      (∀ buf chunks rest, buf ++ chunks.flatten = bytes ++ rest →
        ∃ buffered left, receive (readReply tag expect) buf chunks = (.done result buffered, left) ∧
          buffered ++ left.flatten = rest) ∧
      (∀ tag' buf chunks rest, tag' ≠ tag → buf ++ chunks.flatten = bytes ++ rest →
        (receive (readReply tag' expect) buf chunks).1 = .failed) ∧
      ∀ clientTag, encodeResponse response clientTag =
        if result = .wrongNode then some (respond clientTag [87])
        else respondWith clientTag expect result := by
  obtain ⟨reply, result, hreply, hresult, hreads⟩ := reads_of_answers h he
  refine ⟨reply.render (some tag), result, Response.encodeResponse_eq hreply (some tag), hresult,
    ?_, ?_, fun clientTag => encodeResponse_of_answers clientTag h he hresult⟩
  case refine_1 =>
    intro buf chunks rest hb
    refine receive_done (stable_readReply tag expect) ?_
    rw [hb]
    exact readReply_done hreads tag rest
  case refine_2 =>
    intro tag' buf chunks rest ht hb
    refine receive_failed (stable_readReply tag' expect) ?_
    rw [hb]
    exact readReply_failed hreads ht rest

-- A batch of the key `k` alone, which a client sends as `m 0 1 1` and `k`. The answer `M 1 2 7` and
-- `vv` arrives in three parts, and `W` behind it.
theorem answers_pass_through_batch :
    ∃ buffered left,
      receive (readReply 7 .multi) [77, 32] [[49, 32, 50, 32, 55, 10], [118, 118, 87]] =
        (.done (.multi [.value [118, 118]]) buffered, left) ∧ buffered ++ left.flatten = [87] := by
  have hs : Sendable [[107]] :=
    ⟨[109, 32, 48, 32, 49, 32, 49, 10, 107], false, _, _, _, _, rfl, List.Sublist.refl _⟩
  have ha : NodeAnswers (.multiGet [] [[107]]) (.multi [.value [118, 118]]) :=
    .multiGet hs rfl (by decide)
  obtain ⟨bytes, result, hb, hr, hdone, -⟩ := answers_pass_through ha rfl 7
  cases hb
  cases hr
  exact hdone _ _ _ rfl

end Nanocached.Proxy
