import Nanocached.Proxy.Pairing

-- A shared connection together with a node that answers each complete frame which it has received,
-- in order, and never closes the connection.

namespace Nanocached.Proxy

structure Session where
  backend  : Backend
  -- What the node has replied to the frames so far, and what of it is still on its way.
  replies  : List Bytes
  outgoing : Bytes

namespace Session

def dialed : Session where
  backend  := .connected
  replies  := []
  outgoing := []

def correct (slot : Slot) (reply : Bytes) : Bool :=
  match readReply slot.tag slot.expect reply with
  | .done _ [] => true
  | _          => false

-- What the request of the slot comes to with that reply.
def told (slot : Slot) (reply : Bytes) : Option Nat × Resolution :=
  match readReply slot.tag slot.expect reply with
  | .done result _ => (slot.reply, .reply result reply)
  | _              => (slot.reply, .failed)

-- The node does not close the connection, and it answers and takes what is written in time.
def orderly : Backend.Event → Bool
  | .send _ | .close | .timeout | .writeFailed => false
  | _                                          => true

inductive Event
  | task (e : Backend.Event)
  | answer (reply : Bytes)
  | deliver (count : Nat)

variable (s : Session)

-- The frames which the node has received completely. The last one may not be complete yet.
def frames : Nat :=
  s.backend.reserved.length - min s.backend.writer.left.length 1

def exec : Event → Option Session
  | .task e => do
    if orderly e then
      let backend ← s.backend.exec e
      return { s with backend }
    else
      none
  | .answer reply => do
    let slot ← s.backend.reserved[s.replies.length]?
    if s.replies.length < s.frames ∧ correct slot reply then
      return { s with replies := s.replies ++ [reply], outgoing := s.outgoing ++ reply }
    else
      none
  | .deliver count => do
    if 0 < count ∧ count ≤ s.outgoing.length then
      let backend ← s.backend.exec (.send (s.outgoing.take count))
      return { s with backend, outgoing := s.outgoing.drop count }
    else
      none

def run (allowed : Session → Event → Bool) (s : Session) : List Event → Option Session
  | []          => some s
  | e :: events => if allowed s e then (s.exec e).bind (run allowed · events) else none

-- No byte arrives between the two polls of the reader.
def meets : Event → Bool
  | .deliver _ => s.backend.reader ≠ .idling
  | _          => true

inductive Reaches : Session → Prop
  | dialed : Reaches dialed
  | step {s s' : Session} {e : Event} :
    Reaches s → s.meets e → s.exec e = some s' → Reaches s'

-- The reader polls the pending queue and finds it empty. Before it polls the socket, a request is
-- reserved and written and the node answers it.
def raced : List Event :=
  let request : BackendRequest := ⟨7, Backend.frameGet [] [107], .value, Backend.framed_get⟩
  [.task (.enqueue request), .task (.push 7), .task .pollPending, .task .take, .task .reserve] ++
    List.replicate 7 (.task .write) ++
    [.task .flush, .answer [78, 32, 48, 10], .deliver 4, .task (.pollSocket 4), .task .drain]

theorem desynced_raced : ∃ s, dialed.run (fun _ _ => true) raced = some s ∧ s.backend.watched ∧
    s.backend.pendingClosed ∧ s.backend.resolved = [(some 7, .failed)] :=
  ⟨(dialed.run (fun _ _ => true) raced).get (by decide +kernel), (Option.some_get _).symm,
    by decide +kernel⟩

structure Synced : Prop where
  valid   : s.backend.Valid
  quiet   : s.backend.watched = false ∧ s.backend.pendingClosed = false ∧ s.backend.ended = false
  idle    : s.backend.reader = .idling → s.backend.inbox = []
  owed    : s.replies.length ≤ s.frames
  correct : ∀ {i : Nat} {slot reply}, s.backend.reserved[i]? = some slot → s.replies[i]? = some reply →
              Session.correct slot reply
  stream  : ∃ taken read unread, s.backend.reserved = taken ++ s.backend.inFlight ∧
              s.replies = read ++ unread ∧ taken.length = read.length ∧
              s.backend.answered = List.zipWith told taken read ∧
              s.backend.buf ++ s.backend.inbox ++ s.outgoing = unread.flatten

variable {s s' : Session} {e : Event} {b : Backend} {slot : Slot} {reply buf : Bytes}

section Reads

theorem readReply_of_correct (h : correct slot reply) :
    ∃ result, readReply slot.tag slot.expect reply = .done result [] := by
  rw [correct] at h
  split at h
  case h_1 result hr => exact ⟨result, hr⟩
  case h_2           => contradiction

-- A prefix of correct replies is never taken for anything else.
theorem readReply_of_append {more rest : Bytes} (hc : correct slot reply)
    (hb : buf ++ more = reply ++ rest) (hm : readReply slot.tag slot.expect buf ≠ .more) :
    ∃ result left, readReply slot.tag slot.expect buf = .done result left ∧
      told slot reply = (slot.reply, .reply result reply) ∧
      buf = reply ++ left ∧ left ++ more = rest := by
  obtain ⟨result, hr⟩ := readReply_of_correct hc
  have hbuf := stable_readReply slot.tag slot.expect buf more hm
  have hreply := stable_readReply slot.tag slot.expect reply rest (by simp [hr])
  rw [hb, hreply, hr] at hbuf
  cases hread : readReply slot.tag slot.expect buf
  case more   => contradiction
  case failed => simp [hread, Read.append] at hbuf
  case done result' left =>
    simp only [hread, Read.append, List.nil_append, Read.done.injEq] at hbuf
    obtain ⟨rfl, rfl⟩ := hbuf
    refine ⟨result, left, rfl, by simp [told, hr], ?_, rfl⟩
    rwa [← List.append_assoc, List.append_cancel_right_eq] at hb

theorem readReply_nil : readReply slot.tag slot.expect [] = .more := by
  simp [readReply, readLineUpTo]

end Reads

section Step

theorem frames_le_of_step {e : Backend.Event} (step : Backend.Step s.backend e b)
    (he : e ≠ .writeFailed) : s.frames ≤ { s with backend := b }.frames := by
  cases step
  case writeFailed => contradiction
  all_goals simp_all [frames, Writer.left, Backend.resolve, Backend.poison]
  all_goals try omega

theorem correct_of_reading {taken : List Slot} {read unread : List Bytes} (h : s.Synced)
    (ht : s.backend.reserved = taken ++ s.backend.inFlight)
    (hr : s.backend.reader = .reading slot) (hreplies : s.replies = read ++ reply :: unread)
    (hl : taken.length = read.length) : correct slot reply := by
  refine h.correct (i := taken.length) ?_ (by simp [hreplies, hl])
  simp [ht, Backend.inFlight, hr, Reader.slot]

theorem reply_of_reading (h : s.Synced) (hr : s.backend.reader = .reading slot)
    (hd : readReply slot.tag slot.expect s.backend.buf ≠ .more) :
    ∃ taken read unread reply result left, s.backend.reserved = taken ++ s.backend.inFlight ∧
      s.replies = read ++ reply :: unread ∧ taken.length = read.length ∧
      s.backend.answered = List.zipWith told taken read ∧
      readReply slot.tag slot.expect s.backend.buf = .done result left ∧
      told slot reply = (slot.reply, .reply result reply) ∧
      s.backend.buf = reply ++ left ∧
      left ++ s.backend.inbox ++ s.outgoing = unread.flatten := by
  obtain ⟨taken, read, unread, ht, hreplies, hl, ha, hs⟩ := h.stream
  cases unread
  case nil =>
    have hb : s.backend.buf = [] := by simp at hs; exact hs.left
    simp [hb, readReply_nil] at hd
  case cons reply unread =>
    rw [List.flatten_cons, List.append_assoc] at hs
    obtain ⟨result, left, hread, htold, hb, hrest⟩ :=
      readReply_of_append (correct_of_reading h ht hr hreplies hl) hs hd
    exact ⟨taken, read, unread, reply, result, left, ht, hreplies, hl, ha, hread, htold, hb,
      by rwa [List.append_assoc]⟩

theorem unread_of_reading (h : s.Synced) (hr : s.backend.reader = .reading slot)
    (hu : s.backend.answered.length < s.replies.length) :
    ∃ reply rest, correct slot reply ∧
      s.backend.buf ++ s.backend.inbox ++ s.outgoing = reply ++ rest := by
  obtain ⟨taken, read, unread, ht, hreplies, hl, ha, hs⟩ := h.stream
  cases unread
  case nil               => simp [ha, hreplies, hl] at hu
  case cons reply unread =>
    exact ⟨reply, unread.flatten, correct_of_reading h ht hr hreplies hl, hs⟩

theorem Synced.not_draining (h : s.Synced) : s.backend.reader ≠ .draining := by
  intro hr
  simpa [h.quiet.right.left] using h.valid.drains hr

theorem Synced.not_watched {bytes inbox : Bytes} (h : s.Synced)
    (hr : s.backend.reader = .idling) (hi : s.backend.inbox = bytes ++ inbox) :
    ¬(bytes ≠ [] ∨ s.backend.ended) := by
  rw [h.idle hr] at hi
  simp [(List.append_eq_nil_iff.mp hi.symm).left, h.quiet.right.right]

theorem Synced.not_failed {e : Backend.Event} (h : s.Synced)
    (hr : s.backend.reader = .reading slot) (he : orderly e) :
    ¬(readReply slot.tag slot.expect s.backend.buf = .failed ∨
      readReply slot.tag slot.expect s.backend.buf = .more ∧ (e = .timeout ∨ s.backend.ended)) := by
  rintro (hf | ⟨_, rfl | hc⟩)
  · obtain ⟨_, _, _, _, _, _, _, _, _, _, hd, _⟩ := reply_of_reading h hr (by simp [hf])
    simp [hf] at hd
  · contradiction
  · simp [h.quiet.right.right] at hc

section Task

variable {e : Backend.Event} (h : s.Synced) (step : Backend.Step s.backend e b) (he : orderly e)
include h step he

theorem quiet_of_step : b.watched = false ∧ b.pendingClosed = false ∧ b.ended = false := by
  have hq := h.quiet
  cases step
  case watch hr hi hb   => exact absurd hb (h.not_watched hr hi)
  case fail hr _ hf     => exact absurd hf (h.not_failed hr he)
  case close            => contradiction
  all_goals exact hq

theorem idle_of_step : b.reader = .idling → b.inbox = [] := by
  have hi := h.idle
  cases step
  case pollEmpty hr hp _ =>
    intro _
    obtain ⟨taken, read, unread, ht, hreplies, hl, _, hs⟩ := h.stream
    have ho := h.owed.trans (Nat.sub_le ..)
    simp only [ht, hreplies, Backend.inFlight, hr, hp, Reader.slot, Option.toList_none,
      List.append_nil, List.length_append] at ho
    have hu : unread = [] := List.eq_nil_of_length_eq_zero (by omega)
    simp only [hu, List.flatten_nil, List.append_eq_nil_iff] at hs
    exact hs.left.right
  case read hr _ _ _ =>
    intro hd
    simp [hr] at hd
  case send => contradiction
  case watch hr hi hb => exact absurd hb (h.not_watched hr hi)
  case poll | pollClosed | idle | reply | fail | drained => simp [Backend.poison]
  all_goals exact hi

theorem stream_of_step :
    ∃ taken read unread, b.reserved = taken ++ b.inFlight ∧ s.replies = read ++ unread ∧
      taken.length = read.length ∧ b.answered = List.zipWith told taken read ∧
      b.buf ++ b.inbox ++ s.outgoing = unread.flatten := by
  obtain ⟨taken, read, unread, ht, hreplies, hl, ha, hs⟩ := h.stream
  cases step
  case reserve =>
    exact ⟨taken, read, unread, by simp [ht, Backend.inFlight], hreplies, hl, ha, hs⟩
  case poll slot pending hr hp =>
    have ht : s.backend.reserved = taken ++ slot :: pending := by
      simpa [Backend.inFlight, Reader.slot, hr, hp] using ht
    exact ⟨taken, read, unread, ht, hreplies, hl, ha, hs⟩
  case pollEmpty hr _ _ | pollClosed hr _ _ | idle hr _ _ =>
    have ht : s.backend.reserved = taken ++ s.backend.pending := by
      simpa [Backend.inFlight, Reader.slot, hr] using ht
    exact ⟨taken, read, unread, ht, hreplies, hl, ha, hs⟩
  case read hi _ =>
    exact ⟨taken, read, unread, ht, hreplies, hl, ha, by simpa [hi] using hs⟩
  case reply slot reply rest hr hd =>
    obtain ⟨taken, read, unread, bytes, result, left, ht, hreplies, hl, ha, hd', htold, hb, hs⟩ :=
      reply_of_reading h hr (by simp [hd])
    cases hd.symm.trans hd'
    have ht : s.backend.reserved = taken ++ [slot] ++ s.backend.pending := by
      simpa [Backend.inFlight, hr, Reader.slot] using ht
    have htake : s.backend.buf.take (s.backend.buf.length - rest.length) = bytes := by simp [hb]
    refine ⟨taken ++ [slot], read ++ [bytes], unread, ht, by simpa using hreplies,
      by simpa using hl, (Backend.answered_resolve (by simp)).trans ?_, hs⟩
    rw [List.zipWith_append hl, ha, htake]
    simp [htold]
  case refused hp => simp [h.quiet] at hp
  case discard    => exact ⟨taken, read, unread, ht, hreplies, hl, by simpa [Backend.answered, Backend.resolve] using ha, hs⟩
  case watch hr hi hb => exact absurd hb (h.not_watched hr hi)
  case fail hr _ hf   => exact absurd hf (h.not_failed hr he)
  case drain hr _ | drained hr _ => exact absurd hr h.not_draining
  case send => contradiction
  all_goals exact ⟨taken, read, unread, ht, hreplies, hl, ha, hs⟩

theorem correct_of_step {i : Nat} (hs : b.reserved[i]? = some slot)
    (hr : s.replies[i]? = some reply) : correct slot reply := by
  have hc {slot : Slot} (hs : s.backend.reserved[i]? = some slot) := h.correct hs hr
  have hi : i < s.backend.reserved.length :=
    (List.getElem?_eq_some_iff.mp hr).choose.trans_le (h.owed.trans (Nat.sub_le ..))
  cases step
  case reserve => exact hc (by rwa [List.getElem?_append_left hi] at hs)
  all_goals exact hc hs

theorem synced_of_task : { s with backend := b }.Synced where
  valid   := Backend.valid_of_step h.valid step
  quiet   := quiet_of_step h step he
  idle    := idle_of_step h step he
  owed    := h.owed.trans (frames_le_of_step step (by rintro rfl; contradiction))
  correct := correct_of_step h step he
  stream  := stream_of_step (s := s) h step he

end Task

theorem synced_of_answer (h : s.Synced) (hs : s.backend.reserved[s.replies.length]? = some slot)
    (hl : s.replies.length < s.frames) (hc : correct slot reply) :
    { s with replies := s.replies ++ [reply], outgoing := s.outgoing ++ reply }.Synced where
  valid   := h.valid
  quiet   := h.quiet
  idle    := h.idle
  owed    := by rw [List.length_append]; exact hl
  correct := by
    intro i slot' reply' hs' hr
    rcases Nat.lt_or_ge i s.replies.length with hi | hi
    · rw [List.getElem?_append_left hi] at hr
      exact h.correct hs' hr
    · have hi : i = s.replies.length := by
        have hi := (List.getElem?_eq_some_iff.mp hr).choose
        simp at hi
        omega
      subst hi
      cases hs.symm.trans hs'
      simp at hr
      exact hr ▸ hc
  stream  := by
    obtain ⟨taken, read, unread, ht, hreplies, hl, ha, hs⟩ := h.stream
    refine ⟨taken, read, unread ++ [reply], ht, by simp [hreplies], hl, ha, ?_⟩
    rw [List.flatten_append, ← hs]
    simp

theorem synced_of_deliver {count : Nat} (h : s.Synced) (hr : s.backend.reader ≠ .idling)
    (hb : s.backend.exec (.send (s.outgoing.take count)) = some b) :
    { s with backend := b, outgoing := s.outgoing.drop count }.Synced := by
  have step := Backend.step_of_exec hb
  have hv := Backend.valid_of_step h.valid step
  obtain ⟨taken, read, unread, ht, hreplies, hl, ha, hs⟩ := h.stream
  cases step
  case fail he _ => rcases he with he | he <;> contradiction
  case send      =>
    exact ⟨hv, h.quiet, fun hi => absurd hi hr, h.owed, h.correct, taken, read, unread, ht, hreplies,
      hl, ha, by simpa using hs⟩

theorem synced_of_exec (h : s.Synced) (hm : s.meets e) (he : s.exec e = some s') : s'.Synced := by
  cases e <;> rw [exec] at he
  case task e =>
    obtain ⟨ho, he⟩ := Option.ite_none_right_eq_some.mp he
    obtain ⟨b, hb, he⟩ := Option.bind_eq_some_iff.mp he
    cases he
    exact synced_of_task h (Backend.step_of_exec hb) ho
  case answer reply =>
    obtain ⟨slot, hs, he⟩ := Option.bind_eq_some_iff.mp he
    obtain ⟨⟨hl, hc⟩, he⟩ := Option.ite_none_right_eq_some.mp he
    cases he
    exact synced_of_answer h hs hl hc
  case deliver count =>
    obtain ⟨_, he⟩ := Option.ite_none_right_eq_some.mp he
    obtain ⟨b, hb, he⟩ := Option.bind_eq_some_iff.mp he
    cases he
    exact synced_of_deliver h (by simpa [meets] using hm) hb

theorem Reaches.synced (h : Reaches s) : s.Synced := by
  induction h
  case dialed =>
    refine ⟨Backend.valid_connected, ⟨rfl, rfl, rfl⟩, fun _ => rfl, Nat.zero_le _, fun hs => ?_,
      [], [], [], rfl, rfl, rfl, rfl, rfl⟩
    simp [Session.dialed, Backend.connected] at hs
  case step hm he hi => exact synced_of_exec hi hm he

end Step

section Progress

def Event.works (s : Session) : Event → Bool
  | .task e    => e.works s.backend
  | .answer _  => false
  | .deliver _ => true

-- What happens without further requests and replies.
def Works (s s' : Session) : Prop :=
  ∃ e : Event, e.works s ∧ s.meets e ∧ s.exec e = some s'

-- Every reply that the node has sent was handed to whoever waits for it.
def Settled (s : Session) : Prop :=
  s.backend.answered.length = s.replies.length

def rank (s : Session) : Nat ×ₗ Nat :=
  toLex ((ofLex s.backend.rank).1, (ofLex s.backend.rank).2 + 2 * s.outgoing.length)

theorem rank_lt_of_exec (hw : e.works s) (he : s.exec e = some s') : s'.rank < s.rank := by
  rw [rank, rank, Prod.Lex.toLex_lt_toLex]
  cases e <;> rw [exec] at he
  case task e =>
    obtain ⟨_, he⟩ := Option.ite_none_right_eq_some.mp he
    obtain ⟨b, hb, he⟩ := Option.bind_eq_some_iff.mp he
    cases he
    have hl := Prod.Lex.lt_iff.mp (Backend.rank_lt_of_step (Backend.step_of_exec hb) hw)
    exact hl.imp_right fun hl => ⟨hl.left, Nat.add_lt_add_right hl.right _⟩
  case answer => contradiction
  case deliver count =>
    obtain ⟨hc, he⟩ := Option.ite_none_right_eq_some.mp he
    obtain ⟨b, hb, he⟩ := Option.bind_eq_some_iff.mp he
    cases he
    rw [Backend.exec] at hb
    obtain ⟨_, hb⟩ := Option.ite_none_left_eq_some.mp hb
    cases hb
    refine .inr ⟨rfl, ?_⟩
    simp [Backend.rank]
    omega

theorem works_of_isSome (hw : e.works s) (hm : s.meets e) (he : (s.exec e).isSome) :
    ∃ s', s.Works s' :=
  ⟨(s.exec e).get he, e, hw, hm, (Option.some_get he).symm⟩

theorem works_of_task {e : Backend.Event} (hw : e.works s.backend) (ho : orderly e)
    (he : (s.backend.exec e).isSome) : ∃ s', s.Works s' := by
  obtain ⟨b, hb⟩ := Option.isSome_iff_exists.mp he
  exact works_of_isSome (e := .task e) hw rfl (by rw [exec, if_pos ho, hb]; rfl)

theorem works_of_reading (h : s.Synced) (hr : s.backend.reader = .reading slot)
    (hu : s.backend.answered.length < s.replies.length) : ∃ s', s.Works s' := by
  cases hread : readReply slot.tag slot.expect s.backend.buf
  case failed | done =>
    exact works_of_task (e := .readReply) rfl rfl (by simp [Backend.exec, hr, hread])
  case more =>
    cases hi : s.backend.inbox
    case cons =>
      exact works_of_task (e := .read 1) rfl rfl (by simp [Backend.exec, hr, hread, hi])
    case nil =>
      -- All that has arrived is not a reply yet, so the rest of it is on its way.
      obtain ⟨reply, rest, hc, hs⟩ := unread_of_reading h hr hu
      have hout : s.outgoing ≠ [] := by
        intro hout
        obtain ⟨result, hd⟩ := readReply_of_correct hc
        simp only [hi, hout, List.append_nil] at hs
        rw [hs, stable_readReply slot.tag slot.expect reply rest (by simp [hd]), hd] at hread
        contradiction
      have hcount : 0 < 1 ∧ 1 ≤ s.outgoing.length := ⟨Nat.one_pos, List.length_pos_iff.mpr hout⟩
      refine works_of_isSome (e := .deliver 1) rfl (by simp [meets, hr]) ?_
      rw [exec, if_pos hcount, Backend.exec, if_neg (by simp [h.quiet])]
      rfl

theorem works_of_not_settled (h : s.Synced) (hn : ¬s.Settled) : ∃ s', s.Works s' := by
  obtain ⟨taken, read, unread, ht, hreplies, hl, ha, _⟩ := h.stream
  have ho := h.owed.trans (Nat.sub_le ..)
  have hu : s.backend.answered.length < s.replies.length := by
    rw [Settled] at hn
    simp only [ha, hreplies, List.length_zipWith, List.length_append] at hn ⊢
    omega
  have hf : 0 < s.backend.inFlight.length := by
    simp only [ha, ht, hreplies, List.length_zipWith, List.length_append] at hu ho ⊢
    omega
  cases hr : s.backend.reader
  case polling =>
    have hp : s.backend.pending ≠ [] := by
      simpa [Backend.inFlight, hr, Reader.slot, List.length_pos_iff] using hf
    refine works_of_task (e := .pollPending) (by simp [Backend.Event.works, hp]) rfl ?_
    rw [Backend.exec, if_pos hr]
    split <;> rfl
  case idling =>
    have hp : s.backend.pending ≠ [] := by
      simpa [Backend.inFlight, hr, Reader.slot, List.length_pos_iff] using hf
    refine works_of_task (e := .pollSocket 1) (by simp [Backend.Event.works, hp]) rfl ?_
    simp [Backend.exec, hr, h.idle hr]
  case reading slot => exact works_of_reading h hr hu
  case draining => exact absurd hr h.not_draining
  case done =>
    simp [Backend.inFlight, hr, Reader.slot, (h.valid.finish hr).left] at hf

theorem settles (h : s.Synced) : Inevitable Works Settled s := by
  refine .of_rank Synced rank ?_ ?_ works_of_not_settled h
  · rintro s s' h ⟨e, _, hm, he⟩
    exact synced_of_exec h hm he
  · rintro s s' _ ⟨e, hw, _, he⟩
    exact rank_lt_of_exec hw he

end Progress

theorem Reaches.in_sync (h : Reaches s) :
    s.backend.watched = false ∧ s.backend.pendingClosed = false ∧
    s.backend.buf ++ s.backend.inbox ++ s.outgoing =
      (s.replies.drop s.backend.answered.length).flatten ∧
    (∀ {i : Nat} {entry}, s.backend.answered[i]? = some entry → ∃ slot reply result,
      s.backend.reserved[i]? = some slot ∧ s.replies[i]? = some reply ∧
      readReply slot.tag slot.expect reply = .done result [] ∧
      entry = (slot.reply, .reply result reply)) ∧
    Inevitable Works Settled s := by
  have hs := h.synced
  obtain ⟨taken, read, unread, ht, hreplies, hl, ha, hu⟩ := hs.stream
  refine ⟨hs.quiet.left, hs.quiet.right.left, ?_, ?_, settles hs⟩
  · simp [hu, hreplies, ha, hl]
  · intro i entry hi
    rw [ha, List.getElem?_zipWith_eq_some] at hi
    obtain ⟨slot, reply, hslot, hreply, rfl⟩ := hi
    have hslot : s.backend.reserved[i]? = some slot := by
      rw [ht, List.getElem?_append_left (List.getElem?_eq_some_iff.mp hslot).choose, hslot]
    have hreply : s.replies[i]? = some reply := by
      rw [hreplies, List.getElem?_append_left (List.getElem?_eq_some_iff.mp hreply).choose, hreply]
    obtain ⟨result, hr⟩ := readReply_of_correct (hs.correct hslot hreply)
    exact ⟨slot, reply, result, hslot, hreply, hr, by simp [told, hr]⟩

theorem Reaches.run {events : List Event} (h : Reaches s) (hr : s.run meets events = some s') :
    Reaches s' := by
  induction events generalizing s
  case nil =>
    cases hr
    exact h
  case cons e events hi =>
    obtain ⟨hm, hr⟩ := Option.ite_none_right_eq_some.mp hr
    obtain ⟨s₁, he, hr⟩ := Option.bind_eq_some_iff.mp hr
    exact hi (h.step hm he) hr

-- The reader finds the slot of the request first.
def awaited : List Event :=
  let request : BackendRequest := ⟨7, Backend.frameGet [] [107], .value, Backend.framed_get⟩
  [.task (.enqueue request), .task (.push 7), .task .take, .task .reserve, .task .pollPending] ++
    List.replicate 7 (.task .write) ++
    [.task .flush, .answer [78, 32, 48, 10], .deliver 4, .task (.read 4), .task .readReply]

theorem in_sync_awaited : ∃ s, Reaches s ∧ s.replies = [[78, 32, 48, 10]] ∧
    s.backend.resolved = [(some 7, .reply .notFound [78, 32, 48, 10])] ∧
    s.backend.watched = false := by
  have hr : Reaches ((dialed.run meets awaited).get (by decide +kernel)) :=
    Reaches.dialed.run (Option.some_get _).symm
  exact ⟨_, hr, by decide +kernel, by decide +kernel, hr.in_sync.left⟩

end Session
end Nanocached.Proxy
