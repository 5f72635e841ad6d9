import Nanocached.Proxy.Backend

namespace Nanocached.Proxy.Backend

-- What a step can do.
inductive Step (s : Backend) : Event → Backend → Prop
  | enqueue {request : BackendRequest} :
    (s.closed = false) → (s.abandoned = false) → (request.reply ∉ s.enqueued) →
    Step s (.enqueue request) { s with
      entering := s.entering ++ [request]
      enqueued := s.enqueued ++ [request.reply] }
  | push {request : BackendRequest} :
    (s.entering.find? (·.reply = request.reply) = some request) →
    Step s (.push request.reply) { s with
      entering := s.entering.filter (·.reply ≠ request.reply)
      queue    := s.queue ++ [request] }
  | abandon : (s.entering = []) → Step s .abandon { s with abandoned := true }
  | take {request : BackendRequest} {queue : List BackendRequest} {header body : Bytes} :
    (s.writer = .waiting) → (s.queue = request :: queue) →
    (substituteTag request.frame s.nextTag = some (header, body)) →
    Step s .take { s with
      queue   := queue
      nextTag := s.nextTag + 1
      writer  := .reserving ⟨s.nextTag, request.expect, some request.reply⟩ (header ++ body) }
  | quit :
    (s.writer = .waiting) → (s.queue = []) → s.abandoned →
    Step s .take { s with writer := .leaving }
  | probe {header body : Bytes} :
    (s.writer = .waiting) →
    (substituteTag (frameGet [] keepaliveKey) s.nextTag = some (header, body)) →
    Step s .probe { s with
      nextTag := s.nextTag + 1
      writer  := .reserving ⟨s.nextTag, .value, none⟩ (header ++ body) }
  | notified :
    (s.writer = .waiting) → s.poisoned →
    Step s .notified { s with poisoned := false, writer := .leaving }
  | refused {slot : Slot} {frame : Bytes} :
    (s.writer = .reserving slot frame) → s.pendingClosed →
    Step s .reserve { s.resolve slot.reply .notSent with writer := .leaving }
  | reserve {slot : Slot} {frame : Bytes} :
    (s.writer = .reserving slot frame) → (s.pendingClosed = false) →
    (s.pending.length < maxBackendInFlight) →
    Step s .reserve { s with
      pending  := s.pending ++ [slot]
      reserved := s.reserved ++ [slot]
      writer   := .writing slot frame }
  | write {slot : Slot} {byte : UInt8} {left : Bytes} :
    (s.writer = .writing slot (byte :: left)) →
    Step s .write { s with wire := s.wire ++ [(slot, byte)], writer := .writing slot left }
  | flush {slot : Slot} : (s.writer = .writing slot []) → Step s .flush { s with writer := .waiting }
  | writeFailed {slot : Slot} {left : Bytes} :
    (s.writer = .writing slot left) → Step s .writeFailed { s with writer := .leaving }
  | leave :
    (s.writer = .leaving) → Step s .leave { s with closed := true, writer := .discarding }
  | discard {request : BackendRequest} {queue : List BackendRequest} :
    (s.queue = request :: queue) → (s.writer = .discarding ∨ s.writer = .done) →
    Step s .discard { s.resolve (some request.reply) .notSent with queue := queue }
  | detach :
    (s.writer = .discarding) → (s.queue = []) → Step s .detach { s with writer := .joining }
  | join : (s.writer = .joining) → (s.reader = .done) → Step s .join { s with writer := .done }
  | poll {slot : Slot} {pending : List Slot} :
    (s.reader = .polling) → (s.pending = slot :: pending) →
    Step s .pollPending { s with pending := pending, reader := .reading slot }
  | pollEmpty :
    (s.reader = .polling) → (s.pending = []) → (s.detached = false) →
    Step s .pollPending { s with reader := .idling }
  | pollClosed :
    (s.reader = .polling) → (s.pending = []) → s.detached →
    Step s .pollPending { s with reader := .done }
  | idle {count : Nat} :
    (s.reader = .idling) → (s.inbox = []) → (s.ended = false) →
    Step s (.pollSocket count) { s with reader := .polling }
  | watch {count : Nat} {bytes inbox : Bytes} :
    (s.reader = .idling) → (s.inbox = bytes ++ inbox) → (bytes ≠ [] ∨ s.ended) →
    Step s (.pollSocket count) { s.poison with
      buf := s.buf ++ bytes, inbox := inbox, watched := true }
  | read {slot : Slot} {count : Nat} {bytes inbox : Bytes} :
    (s.reader = .reading slot) → (Proxy.readReply slot.tag slot.expect s.buf = .more) →
    (s.inbox = bytes ++ inbox) → (bytes ≠ []) →
    Step s (.read count) { s with buf := s.buf ++ bytes, inbox := inbox }
  | reply {slot : Slot} {reply : NodeReply} {rest : Bytes} :
    (s.reader = .reading slot) →
    (Proxy.readReply slot.tag slot.expect s.buf = .done reply rest) →
    Step s .readReply
      { s.resolve slot.reply (.reply reply (s.buf.take (s.buf.length - rest.length))) with
        buf := rest, reader := .polling }
  | fail {event : Event} {slot : Slot} :
    (event = .readReply ∨ event = .timeout) → (s.reader = .reading slot) →
    (Proxy.readReply slot.tag slot.expect s.buf = .failed ∨
      Proxy.readReply slot.tag slot.expect s.buf = .more ∧ (event = .timeout ∨ s.ended)) →
    Step s event (s.resolve slot.reply .failed).poison
  | drain {slot : Slot} {pending : List Slot} :
    (s.reader = .draining) → (s.pending = slot :: pending) →
    Step s .drain { s.resolve slot.reply .failed with pending := pending }
  | drained :
    (s.reader = .draining) → (s.pending = []) →
    Step s .drained { s with reader := .done, poisoned := true }
  | send {bytes : Bytes} :
    (s.ended = false) → Step s (.send bytes) { s with inbox := s.inbox ++ bytes }
  | close : Step s .close { s with ended := true }

variable {s s' : Backend} {e : Event}

theorem step_of_tagged {queue : List BackendRequest} {frame : Bytes} {expect : Expect}
    {reply : Option Nat} (h : s.tagged queue frame expect reply = some s') :
    ∃ header body, substituteTag frame s.nextTag = some (header, body) ∧ s' = { s with
      queue   := queue
      nextTag := s.nextTag + 1
      writer  := .reserving ⟨s.nextTag, expect, reply⟩ (header ++ body) } := by
  obtain ⟨⟨header, body⟩, ht, h⟩ := Option.bind_eq_some_iff.mp h
  cases h
  exact ⟨_, _, ht, rfl⟩

theorem step_of_exec (h : s.exec e = some s') : Step s e s' := by
  cases e <;> rw [exec] at h
  case enqueue request =>
    obtain ⟨hc, h⟩ := Option.ite_none_left_eq_some.mp h
    cases h
    simp only [Bool.or_eq_true, decide_eq_true_eq, not_or, Bool.not_eq_true] at hc
    exact .enqueue hc.left.left.left hc.left.left.right hc.left.right
  case push reply =>
    obtain ⟨request, hf, h⟩ := Option.bind_eq_some_iff.mp h
    cases h
    have hr : request.reply = reply := by simpa using List.find?_some hf
    subst hr
    exact .push hf
  case abandon =>
    obtain ⟨he, h⟩ := Option.ite_none_right_eq_some.mp h
    cases h
    exact .abandon (List.isEmpty_iff.mp he)
  case take =>
    split at h
    case h_1 request queue hw hq =>
      obtain ⟨header, body, ht, h⟩ := step_of_tagged h
      subst h
      exact .take hw hq ht
    case h_2 hw hq =>
      obtain ⟨ha, h⟩ := Option.ite_none_right_eq_some.mp h
      cases h
      exact .quit hw hq ha
    case h_3 => contradiction
  case probe =>
    split at h
    case h_1 hw =>
      obtain ⟨header, body, ht, h⟩ := step_of_tagged h
      subst h
      exact .probe hw ht
    case h_2 => contradiction
  case notified =>
    obtain ⟨hw, h⟩ := Option.ite_none_right_eq_some.mp h
    cases h
    exact .notified hw.left hw.right
  case reserve =>
    split at h
    case h_1 slot frame hw =>
      split at h
      case isTrue hp => cases h; exact .refused hw hp
      case isFalse hp =>
        obtain ⟨hn, h⟩ := Option.ite_none_right_eq_some.mp h
        cases h
        exact .reserve hw (by simpa using hp) hn
    case h_2 => contradiction
  case write =>
    split at h
    case h_1 hw => cases h; exact .write hw
    case h_2    => contradiction
  case flush =>
    split at h
    case h_1 hw => cases h; exact .flush hw
    case h_2    => contradiction
  case writeFailed =>
    split at h
    case h_1 hw => cases h; exact .writeFailed hw
    case h_2    => contradiction
  case leave =>
    obtain ⟨hw, h⟩ := Option.ite_none_right_eq_some.mp h
    cases h
    exact .leave hw
  case discard =>
    split at h
    case h_1 request queue hq =>
      obtain ⟨hw, h⟩ := Option.ite_none_right_eq_some.mp h
      cases h
      exact .discard hq hw
    case h_2 => contradiction
  case detach =>
    obtain ⟨hw, h⟩ := Option.ite_none_right_eq_some.mp h
    cases h
    exact .detach hw.left (List.isEmpty_iff.mp hw.right)
  case join =>
    obtain ⟨hw, h⟩ := Option.ite_none_right_eq_some.mp h
    cases h
    exact .join hw.left hw.right
  case pollPending =>
    obtain ⟨hr, h⟩ := Option.ite_none_right_eq_some.mp h
    split at h
    case h_1 slot pending hp => cases h; exact .poll hr hp
    case h_2 hp =>
      cases h
      cases hd : s.detached
      case true  => exact .pollClosed hr hp hd
      case false => exact .pollEmpty hr hp hd
  case pollSocket count =>
    obtain ⟨hr, h⟩ := Option.ite_none_right_eq_some.mp h
    split at h
    case isTrue hi =>
      cases h
      have hi := List.isEmpty_iff.mp hi
      split
      case isTrue he  =>
        have hw : Step s (.pollSocket count) _ := .watch hr (List.nil_append _).symm (.inr he)
        rwa [List.append_nil] at hw
      case isFalse he => exact .idle hr hi (by simpa using he)
    case isFalse hi =>
      obtain ⟨hc, h⟩ := Option.ite_none_right_eq_some.mp h
      cases h
      refine .watch hr (List.take_append_drop ..).symm (.inl fun hn => ?_)
      rcases List.take_eq_nil_iff.mp hn with hz | hn
      · omega
      · simp [hn] at hi
  case read count =>
    split at h
    case h_1 slot hr =>
      obtain ⟨hc, h⟩ := Option.ite_none_right_eq_some.mp h
      cases h
      refine .read hr hc.left (List.take_append_drop ..).symm fun hn => ?_
      have hl := congrArg List.length hn
      simp only [List.length_take, List.length_nil] at hl
      omega
    case h_2 => contradiction
  case readReply =>
    split at h
    case h_1 slot hr =>
      split at h
      case h_1 reply rest hd => cases h; exact .reply hr hd
      case h_2 hf            => cases h; exact .fail (.inl rfl) hr (.inl hf)
      case h_3 hm            =>
        obtain ⟨hc, h⟩ := Option.ite_none_right_eq_some.mp h
        cases h
        exact .fail (.inl rfl) hr (.inr ⟨hm, .inr hc.right⟩)
    case h_2 => contradiction
  case timeout =>
    split at h
    case h_1 slot hr =>
      obtain ⟨hm, h⟩ := Option.ite_none_right_eq_some.mp h
      cases h
      exact .fail (.inr rfl) hr (.inr ⟨hm, .inl rfl⟩)
    case h_2 => contradiction
  case drain =>
    obtain ⟨hr, h⟩ := Option.ite_none_right_eq_some.mp h
    split at h
    case h_1 slot pending hp => cases h; exact .drain hr hp
    case h_2                 => contradiction
  case drained =>
    obtain ⟨hr, h⟩ := Option.ite_none_right_eq_some.mp h
    cases h
    exact .drained hr.left (List.isEmpty_iff.mp hr.right)
  case send bytes =>
    obtain ⟨he, h⟩ := Option.ite_none_left_eq_some.mp h
    cases h
    exact .send (by simpa using he)
  case close =>
    cases h
    exact .close

end Nanocached.Proxy.Backend
