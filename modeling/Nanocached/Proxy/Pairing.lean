import Nanocached.Lib.Inevitable
import Nanocached.Proxy.BackendTheorems

namespace Nanocached.Proxy

-- Both tasks lose rank as they proceed.
def Writer.rank : Writer → Nat
  | .reserving .. => 9
  | .writing ..   => 6
  | .waiting      => 4
  | .leaving      => 3
  | .discarding   => 2
  | .joining      => 1
  | .done         => 0

def Reader.rank : Reader → Nat
  | .idling    => 4
  | .polling   => 3
  | .reading _ => 2
  | .draining  => 1
  | .done      => 0

def Writer.left : Writer → Bytes
  | .writing _ left => left
  | .reserving .. | .waiting | .leaving | .discarding | .joining | .done => []

namespace Backend

def Event.requests : Event → List BackendRequest
  | .enqueue request => [request]
  | _                => []

def run (s : Backend) : List Event → Option Backend
  | []          => some s
  | e :: events => (s.exec e).bind (run · events)

-- The states of a connection, and the requests that were enqueued on the way.
inductive Reaches : List BackendRequest → Backend → Prop
  | connected : Reaches [] connected
  | step {requests : List BackendRequest} {s s' : Backend} {e : Event} :
    Reaches requests s → s.exec e = some s' → Reaches (requests ++ e.requests) s'

-- The frame that goes out for a slot.
inductive Frames (requests : List BackendRequest) : Slot → Bytes → Prop
  | request {request : BackendRequest} {tag : UInt32} {header body : Bytes} :
    request ∈ requests → substituteTag request.frame tag = some (header, body) →
    Frames requests ⟨tag, request.expect, some request.reply⟩ (header ++ body)
  | probe {tag : UInt32} {header body : Bytes} :
    substituteTag (frameGet [] keepaliveKey) tag = some (header, body) →
    Frames requests ⟨tag, .value, none⟩ (header ++ body)

-- What was written is the beginning of it.
def Begun (requests : List BackendRequest) (slot : Slot) (bytes : Bytes) : Prop :=
  ∃ left, Frames requests slot (bytes ++ left)

def onWire (slots : List Slot) (written : List Bytes) : List (Slot × UInt8) :=
  (List.zipWith (fun slot bytes => bytes.map (slot, ·)) slots written).flatten

-- The last of the frames may be incomplete still.
def Wrote (requests : List BackendRequest) (s : Backend) : Prop :=
  ∃ written, s.wire = onWire s.reserved written ∧
    List.Forall₂ (Begun requests) s.reserved written ∧
    ∀ {slot left}, s.writer = .writing slot left → ∃ slots chunks bytes,
      s.reserved = slots ++ [slot] ∧ written = chunks ++ [bytes] ∧
      Frames requests slot (bytes ++ left)

structure Written (requests : List BackendRequest) (s : Backend) : Prop where
  enqueued : s.enqueued = requests.map (·.reply)
  entered  : ∀ request ∈ s.entering ++ s.queue, request ∈ requests
  ready    : ∀ {slot frame}, s.writer = .reserving slot frame → Frames requests slot frame
  wrote    : Wrote requests s

-- What happens without anyone enqueueing a request and without the node. While there is nothing
-- to do for it the reader waits: neither of its polls completes.
def Event.works (s : Backend) : Event → Bool
  | .enqueue _ | .abandon | .probe | .send _ | .close => false
  | .pollPending  => s.pending ≠ [] || s.detached
  | .pollSocket _ => s.pending ≠ [] || s.detached || s.inbox ≠ [] || s.ended
  | _             => true

def Works (s s' : Backend) : Prop :=
  ∃ e : Event, e.works s ∧ s.exec e = some s'

variable {s s' : Backend} {e : Event}

section Progress

def rank (s : Backend) : Nat ×ₗ Nat :=
  toLex (7 * s.entering.length + 6 * s.queue.length + s.writer.rank + 2 * s.inFlight.length +
    s.reader.rank, s.writer.left.length + s.inbox.length)

theorem rank_lt_of_step (step : Step s e s') (hw : e.works s) : s'.rank < s.rank := by
  rw [rank, rank, Prod.Lex.toLex_lt_toLex]
  cases step
  case push request hf =>
    have hl : (s.entering.filter (·.reply ≠ request.reply)).length < s.entering.length :=
      List.length_filter_lt_length_iff_exists.mpr ⟨request, List.mem_of_find?_eq_some hf, by simp⟩
    simp only [inFlight, List.length_append, List.length_singleton] at hl ⊢
    omega
  case read hi hb =>
    have hl := List.length_pos_iff.mpr hb
    exact .inr ⟨rfl, by simp only [hi, List.length_append]; omega⟩
  all_goals
    simp_all [Event.works, inFlight, resolve, poison, Writer.rank, Reader.rank, Writer.left,
      Reader.slot]
  all_goals try omega

theorem isSome_substituteTag {frame : Bytes} (h : 10 ∈ frame) (tag : UInt32) :
    ∃ tagged, substituteTag frame tag = some tagged := by
  obtain ⟨headerEnd, hf⟩ := Option.isSome_iff_exists.mp
    (List.findIdx?_isSome.trans (List.any_eq_true.mpr ⟨10, h, by simp⟩) :
      (frame.findIdx? (· == 10)).isSome)
  exact ⟨_, by rw [substituteTag, hf]; rfl⟩

theorem works_of_isSome (hw : e.works s) (h : (s.exec e).isSome) : ∃ s', s.Works s' :=
  ⟨(s.exec e).get h, e, hw, (Option.some_get h).symm⟩

-- The reader is not stuck while there are replies to wait for.
theorem works_of_reader (hr : s.reader ≠ .done)
    (hp : s.pending ≠ [] ∨ s.detached ∨ s.reader.slot.isSome) : ∃ s', s.Works s' := by
  cases hs : s.reader
  case polling =>
    simp only [hs, Reader.slot, Option.isSome_none, Bool.false_eq_true, or_false] at hp
    refine works_of_isSome (e := .pollPending) (by simpa [Event.works] using hp) ?_
    rw [exec, if_pos hs]
    split <;> rfl
  case idling =>
    simp only [hs, Reader.slot, Option.isSome_none, Bool.false_eq_true, or_false] at hp
    have hw : (Event.pollSocket 1).works s := by
      simp only [Event.works, Bool.or_eq_true, decide_eq_true_eq]
      exact .inl (.inl hp)
    refine works_of_isSome hw ?_
    rw [exec, if_pos hs]
    split
    case isTrue     => rfl
    case isFalse hi =>
      have hl : 1 ≤ s.inbox.length := List.length_pos_iff.mpr (by simpa using hi)
      rw [if_pos (by omega)]
      rfl
  case reading slot =>
    cases hread : Proxy.readReply slot.tag slot.expect s.buf
    case more          => exact works_of_isSome (e := .timeout) rfl (by simp [exec, hs, hread])
    case failed | done => exact works_of_isSome (e := .readReply) rfl (by simp [exec, hs, hread])
  case draining =>
    cases hq : s.pending
    case nil  => exact works_of_isSome (e := .drained) rfl (by simp [exec, hs, hq])
    case cons => exact works_of_isSome (e := .drain) rfl (by simp [exec, hs, hq])
  case done => contradiction

theorem works_of_pending (h : s.Valid) (hp : s.pending ≠ []) : ∃ s', s.Works s' :=
  works_of_reader (fun hr => hp (h.finish hr).left) (.inl hp)

theorem works_of_reserving (h : s.Valid) {slot : Slot} {frame : Bytes}
    (hw : s.writer = .reserving slot frame) : ∃ s', s.Works s' := by
  by_cases hl : s.pendingClosed ∨ s.pending.length < maxBackendInFlight
  case pos =>
    refine works_of_isSome (e := .reserve) rfl ?_
    simp only [exec, hw]
    split
    case isTrue     => rfl
    case isFalse hc => rw [if_pos (hl.resolve_left hc)]; rfl
  case neg =>
    refine works_of_pending h fun hn => hl (.inr ?_)
    rw [hn]
    decide

theorem works_of_queue (h : s.Valid) (hq : s.queue ≠ []) : ∃ s', s.Works s' := by
  obtain ⟨request, queue, hq⟩ := List.exists_cons_of_ne_nil hq
  cases hw : s.writer
  case waiting =>
    obtain ⟨frame, hf⟩ := isSome_substituteTag request.framed s.nextTag
    exact works_of_isSome (e := .take) rfl (by simp [exec, hw, hq, Backend.tagged, hf])
  case reserving     => exact works_of_reserving h hw
  case writing left =>
    cases left
    case nil  => exact works_of_isSome (e := .flush) rfl (by simp [exec, hw])
    case cons => exact works_of_isSome (e := .write) rfl (by simp [exec, hw])
  case leaving           => exact works_of_isSome (e := .leave) rfl (by simp [exec, hw])
  case discarding | done => exact works_of_isSome (e := .discard) rfl (by simp [exec, hw, hq])
  case joining           =>
    by_cases hr : s.reader = .done
    case pos => exact works_of_isSome (e := .join) rfl (by simp [exec, hw, hr])
    case neg => exact works_of_reader hr (.inr (.inl (by simp [detached, hw])))

theorem works_of_awaiting (h : s.Valid) {slot : Slot} (hs : slot ∈ s.awaiting) :
    ∃ s', s.Works s' := by
  rcases List.mem_append.mp hs with hs | hs
  · rcases List.mem_append.mp hs with hs | hs
    · have hs := Option.mem_toList.mp hs
      exact works_of_reader (by rintro hr; simp [hr, Reader.slot] at hs) (.inr (.inr (by simp [hs])))
    · exact works_of_pending h (List.ne_nil_of_mem hs)
  · cases hw : s.writer <;> simp [hw, Writer.slot] at hs
    exact works_of_reserving h hw

-- Nobody waits for a reply any more.
def Settled (s : Backend) : Prop :=
  ∀ id ∈ s.enqueued, ∃ resolution, (some id, resolution) ∈ s.resolved

theorem works_of_not_settled (h : s.Valid) (hs : ¬s.Settled) : ∃ s', s.Works s' := by
  simp only [Settled, not_forall] at hs
  obtain ⟨id, hi, hn⟩ := hs
  have hp := h.placed.mem_iff.mpr hi
  simp only [places, List.mem_append, List.mem_map, List.mem_filterMap] at hp
  rcases hp with ((⟨request, hm, hr⟩ | ⟨request, hm, _⟩) | ⟨slot, hm, _⟩) | ⟨⟨_, resolution⟩, hm, rfl⟩
  · have hf : (s.entering.find? (·.reply = id)).isSome :=
      List.find?_isSome.mpr ⟨request, hm, by simpa using hr⟩
    exact works_of_isSome (e := .push id) rfl (by simpa [exec, Option.isSome_bind] using hf)
  · exact works_of_queue h (List.ne_nil_of_mem hm)
  · exact works_of_awaiting h hm
  · exact absurd ⟨resolution, hm⟩ hn

theorem settles (h : s.Valid) : Inevitable Works Settled s := by
  refine .of_rank Valid rank ?_ ?_ works_of_not_settled h
  · rintro s s' h ⟨e, _, he⟩
    exact valid_of_step h (step_of_exec he)
  · rintro s s' _ ⟨e, hw, he⟩
    exact rank_lt_of_step (step_of_exec he) hw

end Progress

section Written

variable {requests more : List BackendRequest} {slot : Slot} {frame bytes : Bytes}
variable {slots : List Slot} {chunks : List Bytes}

theorem Frames.mono (h : Frames requests slot frame) : Frames (requests ++ more) slot frame := by
  cases h
  case request hm hs => exact .request (List.mem_append_left _ hm) hs
  case probe hs      => exact .probe hs

theorem Begun.mono (h : Begun requests slot bytes) : Begun (requests ++ more) slot bytes :=
  h.imp fun _ => Frames.mono

theorem Wrote.mono (h : Wrote requests s) (more : List BackendRequest) :
    Wrote (requests ++ more) s := by
  obtain ⟨written, hw, hb, hl⟩ := h
  refine ⟨written, hw, hb.imp fun _ _ => Begun.mono, fun hw => ?_⟩
  obtain ⟨slots, chunks, bytes, hs, hc, hf⟩ := hl hw
  exact ⟨slots, chunks, bytes, hs, hc, hf.mono⟩

theorem onWire_append (h : slots.length = chunks.length) :
    onWire (slots ++ [slot]) (chunks ++ [bytes]) = onWire slots chunks ++ bytes.map (slot, ·) := by
  simp [onWire, List.zipWith_append h]

theorem enqueued_of_step (h : Written requests s) (step : Step s e s') :
    s'.enqueued = (requests ++ e.requests).map (·.reply) := by
  have hq := h.enqueued
  cases step
  case enqueue     => simp [hq, Event.requests]
  case fail _ he _ =>
    have hn : e.requests = [] := by rcases he with rfl | rfl <;> rfl
    exact hq.trans (by simp [hn])
  all_goals exact hq.trans (by simp [Event.requests])

theorem entered_of_step (h : Written requests s) (step : Step s e s') :
    ∀ request ∈ s'.entering ++ s'.queue, request ∈ requests ++ e.requests := by
  have he := h.entered
  cases step
  case enqueue =>
    simp only [List.mem_append, List.mem_singleton, Event.requests] at he ⊢
    grind
  case push hf =>
    have hm := List.mem_of_find?_eq_some hf
    simp only [List.mem_append, List.mem_filter, List.mem_singleton] at he ⊢
    grind
  case take hq _ | discard hq _ =>
    simp only [resolve, hq, List.mem_append, List.mem_cons] at he ⊢
    grind
  all_goals exact fun request hr => List.mem_append_left _ (he request hr)

theorem ready_of_step (h : Written requests s) (step : Step s e s') {slot : Slot} {frame : Bytes}
    (hw : s'.writer = .reserving slot frame) : Frames (requests ++ e.requests) slot frame := by
  have hr {slot frame} (hw : s.writer = .reserving slot frame) := h.ready hw
  cases step
  case take request queue header body _ hq hs =>
    cases hw
    exact .request (List.mem_append_left _ (h.entered request (by simp [hq]))) hs
  case probe hs =>
    cases hw
    exact .probe hs
  case quit | notified | refused | reserve | write | flush | writeFailed | leave | detach | join =>
    contradiction
  all_goals exact (hr hw).mono

theorem wrote_of_step (h : Written requests s) (step : Step s e s') :
    Wrote (requests ++ e.requests) s' := by
  obtain ⟨written, hw, hb, hl⟩ := h.wrote.mono e.requests
  cases step
  case reserve slot frame hr _ _ =>
    have hf : Frames (requests ++ Event.reserve.requests) slot ([] ++ frame) := (h.ready hr).mono
    refine ⟨written ++ [[]], ?_, List.rel_append hb (.cons ⟨frame, hf⟩ .nil), fun hw' => ?_⟩
    · rw [onWire_append hb.length_eq, ← hw]
      exact (List.append_nil _).symm
    · cases hw'
      exact ⟨s.reserved, written, [], rfl, rfl, hf⟩
  case write slot byte left hr =>
    obtain ⟨slots, chunks, bytes, hs, hc, hf⟩ := hl hr
    have hf : Frames (requests ++ Event.write.requests) slot (bytes ++ [byte] ++ left) := by
      simpa using hf
    rw [hs, hc] at hb hw
    have hlen : slots.length = chunks.length := by simpa using hb.length_eq
    refine ⟨chunks ++ [bytes ++ [byte]], ?_, ?_, fun hw' => ?_⟩
    · simp only [hs, hw, onWire_append hlen, List.map_append, List.append_assoc]
      rfl
    · have hb := List.forall₂_take_append _ _ _ hb
      rw [← hlen, List.take_left] at hb
      simp only [hs]
      exact List.rel_append hb (.cons ⟨left, hf⟩ .nil)
    · cases hw'
      exact ⟨slots, chunks, _, hs, rfl, hf⟩
  case take | probe | quit | notified | refused | flush | writeFailed | leave | detach | join =>
    exact ⟨written, hw, hb, by simp⟩
  all_goals exact ⟨written, hw, hb, hl⟩

theorem Reaches.valid (h : Reaches requests s) : s.Valid := by
  induction h
  case connected    => exact valid_connected
  case step he hi => exact valid_of_step hi (step_of_exec he)

theorem Reaches.written (h : Reaches requests s) : Written requests s := by
  induction h
  case connected =>
    exact ⟨rfl, by simp [Backend.connected], by simp [Backend.connected], [], rfl, .nil,
      by simp [Backend.connected]⟩
  case step he hi =>
    have step := step_of_exec he
    exact ⟨enqueued_of_step hi step, entered_of_step hi step, ready_of_step hi step,
      wrote_of_step hi step⟩

theorem Reaches.run {events : List Event} (h : Reaches requests s)
    (hr : s.run events = some s') : Reaches (requests ++ events.flatMap (·.requests)) s' := by
  induction events generalizing requests s
  case nil =>
    cases hr
    simpa using h
  case cons e events hi =>
    obtain ⟨s₁, he, hr⟩ := Option.bind_eq_some_iff.mp hr
    have h := hi (h.step he) hr
    rwa [List.append_assoc] at h

end Written

section Pairing

variable {requests : List BackendRequest} {slot : Slot} {id : Nat} {resolution : Resolution}

theorem mem_reserved_of_wire {item : Slot × UInt8} (h : Wrote requests s) (hi : item ∈ s.wire) :
    item.1 ∈ s.reserved := by
  obtain ⟨written, hw, _, _⟩ := h
  rw [hw, onWire, List.mem_flatten] at hi
  obtain ⟨items, hm, hi⟩ := hi
  obtain ⟨i, _, rfl⟩ := List.mem_iff_getElem.mp hm
  simp only [List.getElem_zipWith, List.mem_map] at hi
  obtain ⟨_, _, rfl⟩ := hi
  exact List.getElem_mem _

theorem exists_of_forall₂ {α β : Type} {R : α → β → Prop} {l₁ : List α} {l₂ : List β} {a : α}
    (h : List.Forall₂ R l₁ l₂) (ha : a ∈ l₁) : ∃ b ∈ l₂, R a b := by
  induction h
  case nil => contradiction
  case cons hr _ hi =>
    rcases List.mem_cons.mp ha with rfl | ha
    · exact ⟨_, List.mem_cons_self, hr⟩
    · obtain ⟨b, hb, hr⟩ := hi ha
      exact ⟨b, List.mem_cons_of_mem _ hb, hr⟩

-- A request whose slot was reserved is not among those that were not sent.
theorem not_notSent (h : s.Valid) (hs : slot ∈ s.reserved) (hr : slot.reply = some id) :
    (some id, .notSent) ∉ s.resolved := by
  intro hn
  have hp := nodup_places h
  rw [places, List.nodup_append] at hp
  obtain ⟨taken, ht, ha⟩ := h.order
  rcases List.mem_append.mp (ht ▸ hs) with hs | hs
  · obtain ⟨entry, he, ha⟩ := exists_of_forall₂ ha hs
    obtain ⟨he, hs⟩ := List.mem_filter.mp he
    have hne : (some id, .notSent) ≠ entry := by
      rintro rfl
      simp at hs
    have : Std.Symm fun a b : Option Nat × Resolution =>
        ∀ i, a.1 = some i → ∀ j, b.1 = some j → i ≠ j :=
      ⟨fun _ _ h i hi j hj => (h j hj i hi).symm⟩
    have hd := (List.pairwise_filterMap.mp hp.right.left).forall hn he hne
    exact hd id rfl id (ha.reply.trans hr) rfl
  · have hs : id ∈ s.awaiting.filterMap (·.reply) :=
      List.mem_filterMap.mpr ⟨slot, List.mem_append_left _ hs, hr⟩
    have hn : id ∈ s.resolved.filterMap (·.1) := List.mem_filterMap.mpr ⟨_, hn, rfl⟩
    exact hp.right.right id (List.mem_append_right _ hs) id hn rfl

theorem nodup_tags (h : s.Valid) : (s.awaiting.map (·.tag)).Nodup := by
  obtain ⟨first, ht, _⟩ := h.tags
  rw [ht]
  refine nodup_consecutive ?_
  have hb := h.bounded
  have hr : s.reader.slot.toList.length ≤ 1 := Option.length_toList_le
  have hw : s.writer.slot.toList.length ≤ 1 := Option.length_toList_le
  simp only [awaiting, inFlight, List.length_append, maxBackendInFlight] at *
  omega

theorem reply_of_resolved {before after : List (Option Nat × Resolution)} {reply : NodeReply}
    {bytes : Bytes} (h : s.Valid)
    (hr : s.resolved = before ++ (some id, .reply reply bytes) :: after) :
    ∃ earlier slot later, s.reserved = earlier ++ slot :: later ∧ slot.reply = some id ∧
      (∃ line body, bytes = line ++ 10 :: body ∧
        (fields line).getLast? = some (tagField slot.tag)) ∧
      ∀ other ∈ earlier, ∃ resolution, (other.reply, resolution) ∈ before := by
  obtain ⟨taken, ht, ha⟩ := h.order
  rw [answered, hr, List.filter_append, List.filter_cons_of_pos (by simp)] at ha
  have hbefore := List.forall₂_take_append _ _ _ ha
  have hafter := List.forall₂_drop_append _ _ _ ha
  generalize hn : (before.filter _).length = n at hbefore hafter
  obtain ⟨slot, later, hslot, hlater, hd⟩ := List.forall₂_cons_right_iff.mp hafter
  refine ⟨taken.take n, slot, later ++ s.inFlight, ?_, hslot.reply.symm, hslot.tag rfl, ?_⟩
  · rw [ht, ← List.cons_append, ← hd, ← List.append_assoc, List.take_append_drop]
  · intro other ho
    obtain ⟨entry, he, ha⟩ := exists_of_forall₂ hbefore ho
    exact ⟨entry.2, ha.reply ▸ (List.mem_filter.mp he).left⟩

theorem Reaches.paired (h : Reaches requests s) :
    ((s.resolved.filterMap (·.1)).Nodup ∧
      (∀ id ∈ s.resolved.filterMap (·.1), id ∈ requests.map (·.reply)) ∧
      s.enqueued = requests.map (·.reply) ∧ Inevitable Works Settled s) ∧
    (∃ written, s.wire = onWire s.reserved written ∧
      List.Forall₂ (Begun requests) s.reserved written) ∧
    (∀ {id before reply bytes after},
      s.resolved = before ++ (some id, .reply reply bytes) :: after →
      ∃ earlier slot later, s.reserved = earlier ++ slot :: later ∧ slot.reply = some id ∧
        (∃ line body, bytes = line ++ 10 :: body ∧
          (fields line).getLast? = some (tagField slot.tag)) ∧
        ∀ other ∈ earlier, ∃ resolution, (other.reply, resolution) ∈ before) ∧
    (∀ id, (some id, .notSent) ∈ s.resolved → ∀ item ∈ s.wire, item.1.reply ≠ some id) ∧
    (s.resolved.Pairwise fun entry later => entry.2 = .failed → !later.2.isReply) ∧
    (s.awaiting.map (·.tag)).Nodup := by
  have hv := h.valid
  have hw := h.written
  have hn := List.nodup_append.mp (nodup_places hv)
  refine ⟨⟨hn.right.left, fun id hi => ?_, hw.enqueued, settles hv⟩, ?_, reply_of_resolved hv, ?_,
    hv.last, nodup_tags hv⟩
  · exact hw.enqueued ▸ hv.placed.mem_iff.mp (List.mem_append_right _ hi)
  · obtain ⟨written, hw, hb, _⟩ := hw.wrote
    exact ⟨written, hw, hb⟩
  · intro id hi item hm hr
    exact not_notSent hv (mem_reserved_of_wire hw.wrote hm) hr hi

theorem framed_get : 10 ∈ frameGet [] [107] :=
  framed_frameGet

-- A request that is answered while another one is taken from the queue.
def exchange : List Event :=
  let request (reply : Nat) : BackendRequest := ⟨reply, frameGet [] [107], .value, framed_get⟩
  [.enqueue (request 7), .push 7, .take, .reserve] ++ List.replicate 7 .write ++
    [.flush, .pollPending, .enqueue (request 8), .push 8, .take, .send [78, 32, 48, 10], .read 4,
      .readReply]

theorem paired_exchange : ∃ requests s, Reaches requests s ∧
    s.resolved = [(some 7, .reply .notFound [78, 32, 48, 10])] ∧
    s.awaiting = [⟨1, .value, some 8⟩] ∧ Inevitable Works Settled s := by
  have hr : Reaches _ ((connected.run exchange).get (by decide +kernel)) :=
    Reaches.connected.run (Option.some_get _).symm
  exact ⟨_, _, hr, by decide +kernel, by decide +kernel, hr.paired.left.right.right.right⟩

end Pairing

end Backend
end Nanocached.Proxy
