import Nanocached.Proxy.BackendStep
import Nanocached.Proxy.ReplyTheorems

namespace Nanocached.Proxy

def Writer.slot : Writer → Option Slot
  | .reserving slot _                                              => some slot
  | .waiting | .writing .. | .leaving | .discarding | .joining | .done => none

def Reader.slot : Reader → Option Slot
  | .reading slot                          => some slot
  | .polling | .idling | .draining | .done => none

def Resolution.isReply : Resolution → Bool
  | .reply .. => true
  | _         => false

-- The reply that was read, if there was one, has echoed the tag of the slot.
structure Answers (slot : Slot) (entry : Option Nat × Resolution) : Prop where
  reply : entry.1 = slot.reply
  tag   : ∀ {reply bytes}, entry.2 = .reply reply bytes → ∃ line body,
            bytes = line ++ 10 :: body ∧ (fields line).getLast? = some (tagField slot.tag)

def consecutive (first : UInt32) (n : Nat) : List UInt32 :=
  (List.range n).map fun i => first + .ofNat i

-- It has not left its loop.
def Writer.active : Writer → Bool
  | .waiting | .reserving .. | .writing ..     => true
  | .leaving | .discarding | .joining | .done => false

namespace Backend

-- The slots that await a reply have consecutive tags.
def Tagged (slots : List Slot) (writer : Writer) (nextTag : UInt32) : Prop :=
  ∃ first, slots.map (·.tag) = consecutive first slots.length ∧
    (writer.active → nextTag = first + .ofNat slots.length)

section Definitions

variable (s : Backend)

-- The slots which were reserved and are not resolved.
def inFlight : List Slot :=
  s.reader.slot.toList ++ s.pending

-- Along with the one which is about to be reserved.
def awaiting : List Slot :=
  s.inFlight ++ s.writer.slot.toList

-- The requests that the reader has resolved, and the probes.
def answered : List (Option Nat × Resolution) :=
  s.resolved.filter (·.2 ≠ .notSent)

-- Every request that was enqueued is in one place.
def places : List Nat :=
  s.entering.map (·.reply) ++ s.queue.map (·.reply) ++ s.awaiting.filterMap (·.reply) ++
    s.resolved.filterMap (·.1)

structure Valid : Prop where
  placed  : s.places.Perm s.enqueued
  nodup   : s.enqueued.Nodup
  tags    : Tagged s.awaiting s.writer s.nextTag
  bounded : s.pending.length ≤ maxBackendInFlight
  order   : ∃ taken, s.reserved = taken ++ s.inFlight ∧ List.Forall₂ Answers taken s.answered
  failed  : ∀ entry ∈ s.resolved, entry.2 = .failed → s.pendingClosed
  drains  : s.reader = .draining → s.pendingClosed
  stopped : s.pendingClosed → s.reader = .draining ∨ s.reader = .done
  last    : s.resolved.Pairwise fun entry later => entry.2 = .failed → !later.2.isReply
  finish  : s.reader = .done → s.pending = [] ∧ (s.pendingClosed ∨ s.detached)

end Definitions

variable {s s' : Backend} {e : Event}

section Places

theorem perm_of_find {reply : Nat} {requests : List BackendRequest} {request : BackendRequest}
    (hn : (requests.map (·.reply)).Nodup)
    (hf : requests.find? (·.reply = reply) = some request) :
    (requests.map (·.reply)).Perm
      (reply :: (requests.filter (·.reply ≠ reply)).map (·.reply)) := by
  have hr : request.reply = reply := by simpa using List.find?_some hf
  have hm : reply ∈ requests.map (·.reply) :=
    List.mem_map.mpr ⟨request, List.mem_of_find?_eq_some hf, hr⟩
  have he : (requests.filter (·.reply ≠ reply)).map (·.reply) =
      (requests.map (·.reply)).filter (· ≠ reply) := by
    rw [List.filter_map]
    rfl
  have hd : (requests.map (·.reply)).filter (· ≠ reply) = (requests.map (·.reply)).erase reply := by
    rw [hn.erase_eq_filter]
    exact List.filter_congr fun _ _ => by simp [bne, Bool.beq_eq_decide_eq]
  rw [he, hd]
  exact List.perm_cons_erase hm

theorem count_filterMap_cons {α : Type} {f : α → Option Nat} {a : α} {l : List α} {id : Nat} :
    ((a :: l).filterMap f).count id = (f a).toList.count id + (l.filterMap f).count id := by
  cases h : f a
  case none   => simp [h]
  case some n => simp [h, List.count_cons, Nat.add_comm]

theorem nodup_places (h : s.Valid) : s.places.Nodup :=
  h.placed.nodup_iff.mpr h.nodup

theorem placed_of_step (h : s.Valid) (step : Step s e s') :
    s'.places.Perm s'.enqueued := by
  have hp := h.placed
  rw [List.perm_iff_count] at hp ⊢
  intro id
  specialize hp id
  have hnodup := nodup_places h
  cases step
  case push request hf =>
    have hn : (s.entering.map (·.reply)).Nodup := by
      simp only [places, List.append_assoc] at hnodup
      exact (List.nodup_append.mp hnodup).left
    have hc := (perm_of_find hn hf).count_eq id
    simp only [places, awaiting, inFlight, List.count_append, List.map_append, List.map_cons,
      List.map_nil, List.count_cons, List.count_nil] at hp hc ⊢
    omega
  all_goals
    simp_all only [places, awaiting, inFlight, resolve, poison, Writer.slot, Reader.slot,
      List.map_append, List.map_cons, List.map_nil, List.filterMap_append, List.filterMap_nil,
      Option.toList_some, Option.toList_none, List.count_append, List.count_cons, List.count_nil,
      count_filterMap_cons, List.append_nil, List.cons_append, List.nil_append]
    try omega

theorem nodup_of_step (h : s.Valid) (step : Step s e s') : s'.enqueued.Nodup := by
  cases step
  case enqueue request _ _ hn =>
    exact List.nodup_append.mpr ⟨h.nodup, List.nodup_singleton _,
      fun id hi _ hr he => hn (List.mem_singleton.mp hr ▸ he ▸ hi)⟩
  all_goals exact h.nodup

end Places

section Tags

theorem consecutive_succ {first : UInt32} {n : Nat} :
    consecutive first (n + 1) = consecutive first n ++ [first + .ofNat n] := by
  simp [consecutive, List.range_succ]

theorem consecutive_cons {first : UInt32} {n : Nat} :
    consecutive first (n + 1) = first :: consecutive (first + 1) n := by
  simp [consecutive, List.range_succ_eq_map, Function.comp_def, UInt32.add_assoc, UInt32.add_comm 1]

theorem nodup_consecutive {first : UInt32} {n : Nat} (h : n ≤ 2 ^ 32) :
    (consecutive first n).Nodup := by
  refine List.Nodup.map_on (fun i hi j hj he => ?_) List.nodup_range
  have he := congrArg UInt32.toNat (UInt32.add_right_inj first |>.mp he)
  simp only [List.mem_range] at hi hj
  rwa [UInt32.toNat_ofNat_of_lt' (hi.trans_le h), UInt32.toNat_ofNat_of_lt' (hj.trans_le h)] at he

variable {first : UInt32} {slot : Slot} {slots : List Slot} {writer writer' : Writer}

theorem consecutive_of_append (h : (slots ++ [slot]).map (·.tag) =
    consecutive first (slots ++ [slot]).length) :
    slots.map (·.tag) = consecutive first slots.length := by
  rw [List.length_append, List.length_singleton, consecutive_succ, List.map_append] at h
  exact List.append_inj_left' h rfl

theorem consecutive_of_cons (h : (slot :: slots).map (·.tag) =
    consecutive first (slot :: slots).length) :
    slots.map (·.tag) = consecutive (first + 1) slots.length := by
  rw [List.length_cons, consecutive_cons, List.map_cons] at h
  exact (List.cons.inj h).right

theorem add_ofNat_length_cons :
    first + .ofNat (slot :: slots).length = first + 1 + .ofNat slots.length := by
  simp [UInt32.add_assoc, UInt32.add_comm 1]

theorem Tagged.push (h : Tagged slots .waiting slot.tag) :
    Tagged (slots ++ [slot]) writer (slot.tag + 1) := by
  obtain ⟨first, ht, hn⟩ := h
  have hn := hn rfl
  refine ⟨first, ?_, fun _ => ?_⟩
  · simp [consecutive_succ, ht, ← hn]
  · simp [hn, UInt32.add_assoc]

theorem Tagged.pop {nextTag : UInt32} (h : Tagged (slot :: slots) writer nextTag) :
    Tagged slots writer nextTag := by
  obtain ⟨first, ht, hn⟩ := h
  exact ⟨first + 1, consecutive_of_cons ht, fun ha => add_ofNat_length_cons ▸ hn ha⟩

theorem Tagged.discard {nextTag : UInt32} (h : Tagged (slots ++ [slot]) writer nextTag)
    (hw : writer'.active = false) : Tagged slots writer' nextTag := by
  obtain ⟨first, ht, _⟩ := h
  exact ⟨first, consecutive_of_append ht, fun ha => by simp [hw] at ha⟩

theorem Tagged.leave {nextTag : UInt32} (h : Tagged slots writer nextTag)
    (hw : writer'.active → writer.active) : Tagged slots writer' nextTag := by
  obtain ⟨first, ht, hn⟩ := h
  exact ⟨first, ht, fun ha => hn (hw ha)⟩

theorem tags_of_step (h : s.Valid) (step : Step s e s') :
    Tagged s'.awaiting s'.writer s'.nextTag := by
  have ht := h.tags
  cases step
  case take hw _ _ | probe hw _ =>
    simp only [awaiting, inFlight, hw, Writer.slot, Option.toList_none, List.append_nil] at ht ⊢
    exact ht.push
  case refused hw _ =>
    simp only [awaiting, inFlight, hw, Writer.slot, Option.toList_none, List.append_nil] at ht ⊢
    exact ht.discard rfl
  case reserve hw _ _ =>
    simp only [awaiting, inFlight, hw, Writer.slot, Option.toList_none, List.append_nil] at ht ⊢
    exact List.append_assoc .. ▸ ht.leave fun _ => rfl
  case reply hr _ | fail hr _ _ =>
    simp only [awaiting, inFlight, hr, Reader.slot, Option.toList_none] at ht ⊢
    exact ht.pop
  case drain hr hp =>
    simp only [awaiting, inFlight, resolve, hr, hp, Reader.slot, Option.toList_none] at ht ⊢
    exact ht.pop
  case poll hr hp =>
    simp only [awaiting, inFlight, hr, hp, Reader.slot, Option.toList_none] at ht ⊢
    exact ht
  case pollEmpty hr _ _ | pollClosed hr _ _ | idle hr _ _ | watch hr _ _ | drained hr _ =>
    simp only [awaiting, inFlight, hr, Reader.slot, Option.toList_none, poison] at ht ⊢
    exact ht
  case quit hw _ _ | notified hw _ | write hw | flush hw | writeFailed hw | leave hw | detach hw _ |
      join hw _ =>
    simp only [awaiting, inFlight, hw, Writer.slot, Option.toList_none, List.append_nil] at ht ⊢
    exact ht.leave (by simp [Writer.active])
  all_goals exact ht

end Tags

section Order

theorem answered_resolve {reply : Option Nat} {resolution : Resolution}
    (h : resolution ≠ .notSent) :
    (s.resolve reply resolution).answered = s.answered ++ [(reply, resolution)] := by
  simp [answered, resolve, h]

theorem answers_failed {slot : Slot} : Answers slot (slot.reply, .failed) :=
  ⟨rfl, by simp⟩

theorem answers_reply {slot : Slot} {reply : NodeReply} {rest : Bytes}
    (h : Proxy.readReply slot.tag slot.expect s.buf = .done reply rest) :
    Answers slot (slot.reply, .reply reply (s.buf.take (s.buf.length - rest.length))) := by
  refine ⟨rfl, fun he => ?_⟩
  obtain ⟨line, body, hb, hl⟩ := echoed_of_readReply h
  cases he
  refine ⟨line, body, ?_, hl⟩
  have hl : s.buf.length - rest.length = (line ++ 10 :: body).length := by simp [hb]; omega
  rw [hl, hb, List.take_left]

theorem order_of_step (h : s.Valid) (step : Step s e s') :
    ∃ taken, s'.reserved = taken ++ s'.inFlight ∧ List.Forall₂ Answers taken s'.answered := by
  obtain ⟨taken, hr, ht⟩ := h.order
  -- The first of the slots in flight is answered.
  have answer {slot slots resolution} (hf : s.inFlight = slot :: slots)
      (hs : resolution ≠ .notSent) (ha : Answers slot (slot.reply, resolution)) :
      s.reserved = (taken ++ [slot]) ++ slots ∧
        List.Forall₂ Answers (taken ++ [slot]) (s.resolve slot.reply resolution).answered := by
    rw [answered_resolve hs]
    exact ⟨by simp [hr, hf], List.rel_append ht (.cons ha .nil)⟩
  cases step
  case reserve => exact ⟨taken, by simp [hr, inFlight], ht⟩
  case poll hp hq => exact ⟨taken, by simp [hr, inFlight, hp, hq, Reader.slot], ht⟩
  case reply slot _ _ hp hd =>
    have hf : s.inFlight = slot :: s.pending := by simp [inFlight, hp, Reader.slot]
    exact ⟨_, answer hf (by simp) (answers_reply hd)⟩
  case fail slot hp _ _ =>
    have hf : s.inFlight = slot :: s.pending := by simp [inFlight, hp, Reader.slot]
    exact ⟨_, answer hf (by simp) answers_failed⟩
  case drain slot pending hp hq =>
    have hf : s.inFlight = slot :: pending := by simp [inFlight, hp, hq, Reader.slot]
    have ha := answer hf (by simp) answers_failed
    exact ⟨_, by simpa [inFlight, resolve, hp, Reader.slot] using ha.left, ha.right⟩
  case refused | discard => exact ⟨taken, hr, by simpa [answered, resolve] using ht⟩
  case pollEmpty hp _ _ | pollClosed hp _ _ | idle hp _ _ | watch hp _ _ | drained hp _ =>
    exact ⟨taken, by simpa [inFlight, poison, hp, Reader.slot] using hr, ht⟩
  all_goals exact ⟨taken, hr, ht⟩

theorem bounded_of_step (h : s.Valid) (step : Step s e s') :
    s'.pending.length ≤ maxBackendInFlight := by
  have hb := h.bounded
  cases step
  case reserve hl      => simpa using hl
  case poll hp | drain hp =>
    rw [hp] at hb
    exact (Nat.le_succ _).trans hb
  all_goals exact hb

end Order

section Poison

theorem pendingClosed_of_reading {slot : Slot} (h : s.Valid) (hr : s.reader = .reading slot) :
    s.pendingClosed = false := by
  by_contra hc
  simpa [hr] using h.stopped (by simpa using hc)

theorem failed_of_step (h : s.Valid) (step : Step s e s') :
    ∀ entry ∈ s'.resolved, entry.2 = .failed → s'.pendingClosed := by
  have hf := h.failed
  cases step
  case refused | discard | reply =>
    intro entry he hfailed
    rcases List.mem_append.mp he with he | he
    · exact hf entry he hfailed
    · cases List.mem_singleton.mp he
      contradiction
  case fail | watch => exact fun _ _ _ => rfl
  case drain hr _   => exact fun _ _ _ => h.drains hr
  all_goals exact hf

theorem drains_of_step (h : s.Valid) (step : Step s e s') :
    s'.reader = .draining → s'.pendingClosed := by
  have hd := h.drains
  cases step
  case fail | watch => exact fun _ => rfl
  case poll | pollEmpty | pollClosed | idle | reply | drained => simp
  all_goals exact hd

theorem stopped_of_step (h : s.Valid) (step : Step s e s') :
    s'.pendingClosed → s'.reader = .draining ∨ s'.reader = .done := by
  have hs := h.stopped
  cases step
  case fail | watch => exact fun _ => .inl rfl
  case drained | pollClosed => exact fun _ => .inr rfl
  case poll hr _ | pollEmpty hr _ _ | idle hr _ _ | reply hr _ =>
    intro hc
    simpa [hr] using hs hc
  all_goals exact hs

theorem last_of_step (h : s.Valid) (step : Step s e s') :
    s'.resolved.Pairwise fun entry later => entry.2 = .failed → !later.2.isReply := by
  have hl := h.last
  cases step
  case refused | discard | fail | drain =>
    exact List.pairwise_append.mpr ⟨hl, List.pairwise_singleton .., by simp [Resolution.isReply]⟩
  case reply hr _ =>
    refine List.pairwise_append.mpr ⟨hl, List.pairwise_singleton .., fun entry he _ _ hf => ?_⟩
    simpa [pendingClosed_of_reading h hr] using h.failed entry he hf
  all_goals exact hl

theorem finish_of_step (h : s.Valid) (step : Step s e s') :
    s'.reader = .done → s'.pending = [] ∧ (s'.pendingClosed ∨ s'.detached) := by
  have hf := h.finish
  cases step
  case take hw _ _ | probe hw _ | quit hw _ _ | notified hw _ | refused hw _ | write hw | flush hw |
      writeFailed hw | leave hw =>
    intro hr
    simpa [detached, resolve, hw] using hf hr
  case reserve hw hc _ =>
    intro hr
    simp [detached, hw, hc] at hf
    exact (hf hr).elim
  case detach | join => exact fun hr => ⟨(hf hr).left, .inr rfl⟩
  case pollClosed hp hd => exact fun _ => ⟨hp, .inr hd⟩
  case drained hr hp => exact fun _ => ⟨hp, .inl (h.drains hr)⟩
  case poll | pollEmpty | idle | watch | reply | fail => simp [poison]
  case drain hr _ =>
    intro hd
    simp [resolve, hr] at hd
  all_goals exact hf

end Poison

theorem valid_connected : connected.Valid where
  placed  := .refl _
  nodup   := List.nodup_nil
  tags    := ⟨0, rfl, fun _ => rfl⟩
  bounded := Nat.zero_le _
  order   := ⟨[], rfl, .nil⟩
  failed  := by simp [connected]
  drains  := by simp [connected]
  stopped := by simp [connected]
  last    := .nil
  finish  := by simp [connected]

theorem valid_of_step (h : s.Valid) (step : Step s e s') : s'.Valid where
  placed  := placed_of_step h step
  nodup   := nodup_of_step h step
  tags    := tags_of_step h step
  bounded := bounded_of_step h step
  order   := order_of_step h step
  failed  := failed_of_step h step
  drains  := drains_of_step h step
  stopped := stopped_of_step h step
  last    := last_of_step h step
  finish  := finish_of_step h step

end Backend
end Nanocached.Proxy
