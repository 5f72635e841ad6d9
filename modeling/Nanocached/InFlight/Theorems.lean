import Nanocached.InFlight.Basic

namespace Nanocached.InFlight

open Semaphore (total_release total_cancel total_acquire total_take)

theorem toU32_of_le {n : Nat} (h : n ≤ u32Max) : toU32 n = n :=
  Nat.min_eq_left h

theorem toU32_le (n : Nat) : toU32 n ≤ u32Max :=
  Nat.min_le_right ..

theorem pos_of_saturatingMul_pos {a b : Nat} (h : 0 < saturatingMul a b) : 0 < a :=
  Nat.pos_of_mul_pos_right (Nat.lt_of_lt_of_le h (Nat.min_le_left ..))

theorem saturatingMul_pos {a b : Nat} (ha : 0 < a) (hb : 0 < b) : 0 < saturatingMul a b :=
  Nat.lt_min.mpr ⟨Nat.mul_pos ha hb, by decide⟩

@[simp]
theorem Charge.permits_none : Charge.permits none = 0 :=
  rfl

@[simp]
theorem Charge.tokens_none : Charge.tokens none = 0 :=
  rfl

namespace Conn

def replyCharge (conn : Conn) : Option Charge :=
  match conn.phase with
  | .replying _ charge => charge
  | _                  => none

-- The permits a connection holds.
def total (conn : Conn) : Nat :=
  conn.receiveCharge + conn.frameCharge.elim 0 FrameCharge.held + Charge.permits conn.replyCharge

-- What a connection has added to the pinned tally.
def pins (conn : Conn) : Nat :=
  conn.receiveCharged + conn.frameCharge.elim 0 FrameCharge.pinnedHeld

def tokens (conn : Conn) : Nat :=
  conn.frameCharge.elim 0 (fun charge => if charge.overdraft then 1 else 0) +
  Charge.tokens conn.replyCharge

-- The cost of a request, and the permits it was given or is waiting for.
def ask (conn : Conn) : Option (Nat × Nat) :=
  match conn.phase with
  | .charging request _ (.bytes permits) => some (request.cost, permits)
  | .replying cost charge                => some (cost, Charge.permits charge)
  | _                                    => none

-- A request that gets less than its cost gets at least all there is room for. What a frame itself
-- has pinned of its charge does not take away room.
def Tight (conn : Conn) (bytes pinned : Nat) : Prop :=
  (∀ charge ∈ conn.frameCharge, charge.held < charge.cost →
    bytes + charge.pinnedHeld ≤ pinned + charge.held) ∧
  ∀ ask ∈ conn.ask, ask.2 < ask.1 → bytes ≤ pinned + ask.2

instance {conn : Conn} {bytes pinned : Nat} : Decidable (conn.Tight bytes pinned) :=
  inferInstanceAs (Decidable (_ ∧ _))

end Conn

variable {ι : Type} [DecidableEq ι]

-- The connection that takes the step.
def Event.conn : Event ι → ι
  | grow i _ | shrink i | frame i _ _ | get i _ | keepForwardPhase i _ | keepAckPhase i
  | reply i _ | finish i | resume i | resumeToken i | close i => i

def Event.amount : Event ι → Nat
  | grow _ want         => want
  | frame _ keys values => (Request.frame keys values).cost
  | get _ cost          => cost
  | reply _ cost        => cost
  | _                   => 0

-- The bytes that are no longer pinned after a frame has kept a part of its charge.
def Conn.unpins (conn : Conn) (keep : FrameCharge → FrameCharge) : Nat :=
  conn.frameCharge.elim 0 fun charge => charge.pinnedHeld - (keep charge).pinnedHeld

-- The bytes that the step takes off the pinned tally.
def Event.unpins (s : InFlight ι) : Event ι → Nat
  | shrink i => (s.conns i).receiveCharged
  | finish i => (s.conns i).frameCharge.elim 0 FrameCharge.pinnedHeld
  | close i  => (s.conns i).pins
  | keepForwardPhase i batches => (s.conns i).unpins fun charge => charge.shrinkTo
      (saturatingAdd (saturatingMul charge.keys multiKeyForwardBytesPerKey) batches)
  | keepAckPhase i => (s.conns i).unpins fun charge =>
      charge.shrinkTo (saturatingMul charge.keys multiAckBytesPerKey)
  | reply i _ => (s.conns i).unpins fun charge =>
      (charge.shrinkTo (saturatingMul charge.keys multiKeyReplyBytesPerKey)).pin
  | _ => 0

-- No frame of another connection runs on a part of its cost.
def NoneClamped (s : InFlight ι) (i : ι) : Prop :=
  ∀ j ≠ i, ∀ charge ∈ (s.conns j).frameCharge, charge.held < charge.cost → charge.held = 0

-- The steps which do not let a second request run with fewer permits than its cost. No amount is
-- cut off at the 32 bits of a semaphore's permits; the step does not unpin bytes that another
-- request has been denied and which it still waits for or does without; and the overdraft token,
-- which a connection takes if it finds no room, is not granted while a frame runs on a part of its
-- cost, all of which can be pinned.
structure Event.Spares (s : InFlight ι) (e : Event ι) : Prop where
  fits  : e.amount ≤ u32Max
  room  : ∀ j ≠ e.conn, (s.conns j).Tight s.bytes (s.pinned - e.unpins s)
  token : ∀ {i request own}, e = .resumeToken i →
            (s.conns i).phase = .charging request own .byteOrToken → s.room own = 0 →
            s.NoneClamped i

inductive Run (Allowed : InFlight ι → Event ι → Prop) (bytes : Nat) : InFlight ι → Prop
  | new : Run Allowed bytes (.new bytes)
  | step : Run Allowed bytes s → s.exec e = some s' → Allowed s e → Run Allowed bytes s'

structure FrameCharge.WF (charge : FrameCharge) (bytes receiveCharged : Nat) : Prop where
  pinned : charge.pinnedHeld ≤ charge.held
  u32    : charge.held ≤ u32Max
  keys   : 0 < charge.cost → 0 < charge.keys
  token  : charge.overdraft = true → charge.held = 0 ∧ 0 < charge.cost ∧ 0 < receiveCharged
  short  : charge.held < charge.cost →
             0 < charge.held ∨ charge.overdraft = true ∨ bytes ≤ receiveCharged

-- A frame is only taken if there is none.
def Conn.Takes (conn : Conn) (request : Request) : Prop :=
  ∀ {keys values}, request = .frame keys values → conn.frameCharge = none

-- What a connection in the phase holds, and has asked for.
inductive Conn.InPhase (conn : Conn) (bytes : Nat) : Phase → Prop
  | idle : conn.frameCharge = none → InPhase conn bytes .idle
  | growing :
    conn.frameCharge = none → conn.receiveCharged < want → want ≤ u32Max →
    InPhase conn bytes (.growing want)
  | charging :
    0 < request.cost → request.cost ≤ u32Max → own = conn.pins → own < bytes →
    conn.Takes request → (∀ charge ∈ conn.frameCharge, charge.overdraft = false) →
    (∀ {n}, wait = .bytes n → 0 < n ∧ n ≤ u32Max) → (wait = .byteOrToken → 0 < own) →
    InPhase conn bytes (.charging request own wait)
  | serving : InPhase conn bytes .serving
  | replying :
    (charge = some .overdraft → 0 < conn.pins) →
    (Charge.permits charge < cost →
      0 < Charge.permits charge ∨ 0 < conn.tokens ∨ bytes ≤ conn.pins) →
    InPhase conn bytes (.replying cost charge)

structure Conn.WF (conn : Conn) (bytes : Nat) : Prop where
  receive : conn.receiveCharge = conn.receiveCharged
  frame   : ∀ charge ∈ conn.frameCharge, charge.WF bytes conn.receiveCharged
  phase   : conn.InPhase bytes conn.phase

structure WF [Fintype ι] (s : InFlight ι) : Prop where
  conns   : ∀ i, (s.conns i).WF s.bytes
  permits : s.permits.total + ∑ i, (s.conns i).total = s.bytes
  pinned  : s.pinned = ∑ i, (s.conns i).pins
  tokens  : s.overdraft.total + ∑ i, (s.conns i).tokens = 1
  tight   : ∀ i, (s.conns i).Tight s.bytes s.pinned
  alone   : ∀ {i j}, (s.conns i).undercharged → (s.conns j).undercharged → i = j

namespace Conn

variable {conn : Conn} {bytes pinned : Nat}

theorem undercharged_iff : conn.undercharged = true ↔
    (∃ charge ∈ conn.frameCharge, charge.held < charge.cost) ∨
    ∃ cost charge, conn.phase = .replying cost charge ∧ Charge.permits charge < cost := by
  unfold undercharged
  cases conn.phase <;> simp [Option.any_eq_true]

theorem WF.pins_add_reply_le_total (h : conn.WF bytes) :
    conn.pins + Charge.permits conn.replyCharge ≤ conn.total := by
  have hr := h.receive
  have hf := h.frame
  unfold pins total
  cases hc : conn.frameCharge
  case none        => simp [hr]
  case some charge =>
    have hp := (hf charge hc).pinned
    simp only [Option.elim]
    omega

theorem WF.pins_le_total (h : conn.WF bytes) : conn.pins ≤ conn.total :=
  (Nat.le_add_right ..).trans h.pins_add_reply_le_total

-- The part of a charge that is not pinned comes on top of what the connection pins.
theorem Tight.of_undercharged (h : conn.WF bytes) (ht : conn.Tight bytes pinned)
    (hu : conn.undercharged = true) : bytes + conn.pins ≤ pinned + conn.total := by
  rcases undercharged_iff.mp hu with ⟨charge, hm, hlt⟩ | ⟨cost, charge, hp, hlt⟩
  case inl =>
    have hr := h.receive
    have ht := ht.left charge hm hlt
    unfold pins total
    rw [Option.mem_def.mp hm]
    simp only [Option.elim]
    omega
  case inr =>
    have ht := ht.right (cost, Charge.permits charge) (by simp [ask, hp]) hlt
    have hle := h.pins_add_reply_le_total
    have he : conn.replyCharge = charge := by simp [replyCharge, hp]
    rw [he] at hle
    omega

theorem Tight.mono {pinned' : Nat} (ht : conn.Tight bytes pinned) (hle : pinned ≤ pinned') :
    conn.Tight bytes pinned' :=
  ⟨fun charge hm hlt => (ht.left charge hm hlt).trans (Nat.add_le_add_right hle _),
   fun ask hm hlt => (ht.right ask hm hlt).trans (Nat.add_le_add_right hle _)⟩

-- A request without permits of its own runs on the token, or on what its connection has pinned.
theorem WF.of_undercharged (h : conn.WF bytes) (hu : conn.undercharged = true) :
    (∃ charge ∈ conn.frameCharge, charge.held < charge.cost ∧ 0 < charge.held) ∨
    0 < Charge.permits conn.replyCharge ∨ 0 < conn.tokens ∨ bytes ≤ conn.pins := by
  rcases undercharged_iff.mp hu with ⟨charge, hm, hlt⟩ | ⟨cost, charge, hp, hlt⟩
  case inl =>
    rcases (h.frame charge hm).short hlt with hh | ho | hb
    · exact .inl ⟨charge, hm, hlt, hh⟩
    · right; right; left
      unfold tokens
      rw [Option.mem_def.mp hm]
      simp only [Option.elim, ho, if_true]
      omega
    · exact .inr (.inr (.inr (hb.trans (Nat.le_add_right ..))))
  case inr =>
    have hw := h.phase
    rw [hp] at hw
    cases hw with
    | replying _ hs =>
      have he : conn.replyCharge = charge := by simp [replyCharge, hp]
      rw [he]
      exact .inr (hs hlt)

theorem WF.pins_pos_of_tokens (h : conn.WF bytes) (ht : 0 < conn.tokens) : 0 < conn.pins := by
  by_cases hf : ∃ charge ∈ conn.frameCharge, charge.overdraft = true
  case pos =>
    have ⟨charge, hm, ho⟩ := hf
    exact Nat.lt_of_lt_of_le ((h.frame charge hm).token ho).right.right (Nat.le_add_right ..)
  case neg =>
    have hr : 0 < Charge.tokens conn.replyCharge := by
      unfold tokens at ht
      cases hc : conn.frameCharge <;> simp_all
    have hw := h.phase
    unfold replyCharge at hr
    cases hw : conn.phase with
    | replying cost charge =>
      rw [hw] at hr
      have hp := h.phase
      rw [hw] at hp
      cases hp with
      | replying ho _ =>
        rcases charge with _ | _ | _
        · contradiction
        · contradiction
        · exact ho rfl
    | _ => simp [hw, Charge.tokens] at hr

theorem WF.total_pos_of_undercharged (h : conn.WF bytes) (hb : 0 < bytes)
    (hu : conn.undercharged = true) : 0 < conn.total := by
  have hle := h.pins_le_total
  rcases h.of_undercharged hu with ⟨charge, hm, _, hh⟩ | hp | ht | hp
  · unfold total
    rw [Option.mem_def.mp hm]
    simp only [Option.elim]
    omega
  · exact Nat.lt_of_lt_of_le hp (Nat.le_add_left ..)
  · exact Nat.lt_of_lt_of_le (h.pins_pos_of_tokens ht) hle
  · omega

end Conn

variable {s s' s'' : InFlight ι} {i j : ι} {conn conn' : Conn}

-- What a step may do: only the connection itself changes, and the permits, pinned bytes and tokens
-- that it gains or loses are taken from the budget or given back to it.
structure Moves (s : InFlight ι) (i : ι) (conn : Conn) (s' : InFlight ι) : Prop where
  bytes   : s'.bytes = s.bytes
  conns   : s'.conns = Function.update s.conns i conn
  permits : s'.permits.total + conn.total = s.permits.total + (s.conns i).total
  pinned  : s'.pinned + (s.conns i).pins = s.pinned + conn.pins
  tokens  : s'.overdraft.total + conn.tokens = s.overdraft.total + (s.conns i).tokens

namespace Moves

theorem conn_eq (h : Moves s i conn s') : s'.conns i = conn := by
  rw [h.conns, Function.update_self]

theorem conn_ne (h : Moves s i conn s') (hj : j ≠ i) : s'.conns j = s.conns j := by
  rw [h.conns, Function.update_of_ne hj]

theorem trans (h : Moves s i conn s') (h' : Moves s' i conn' s'') : Moves s i conn' s'' where
  bytes   := h'.bytes.trans h.bytes
  conns   := by rw [h'.conns, h.conns, Function.update_idem]
  permits := by have := h.permits; have := h'.permits; rw [h.conn_eq] at this; omega
  pinned  := by have := h.pinned; have := h'.pinned; rw [h.conn_eq] at this; omega
  tokens  := by have := h.tokens; have := h'.tokens; rw [h.conn_eq] at this; omega

theorem refl (s : InFlight ι) (i : ι) : Moves s i (s.conns i) s :=
  ⟨rfl, (Function.update_eq_self ..).symm, rfl, rfl, rfl⟩

theorem pins_le (h : Moves s i conn s') (hle : (s.conns i).pins ≤ s.pinned) :
    (s'.conns i).pins ≤ s'.pinned := by
  have := h.pinned
  rw [h.conn_eq]
  omega

variable [Fintype ι]

theorem sum_eq (h : Moves s i conn s') (f : Conn → Nat) :
    ∑ j, f (s'.conns j) + f (s.conns i) = ∑ j, f (s.conns j) + f conn := by
  have hs := Finset.add_sum_erase Finset.univ (fun j => f (s.conns j)) (Finset.mem_univ i)
  have hs' := Finset.add_sum_erase Finset.univ (fun j => f (s'.conns j)) (Finset.mem_univ i)
  have he : ∑ j ∈ Finset.univ.erase i, f (s'.conns j) =
      ∑ j ∈ Finset.univ.erase i, f (s.conns j) :=
    Finset.sum_congr rfl fun j hj => by rw [h.conn_ne (Finset.ne_of_mem_erase hj)]
  rw [h.conn_eq] at hs'
  omega

theorem wf (h : s.WF) (hm : Moves s i conn s') (hc : conn.WF s.bytes)
    (ht : conn.Tight s.bytes s'.pinned) (ho : ∀ j ≠ i, (s.conns j).Tight s.bytes s'.pinned)
    (hu : conn.undercharged → (s.conns i).undercharged ∨ ∀ j ≠ i, ¬(s.conns j).undercharged) :
    s'.WF where
  conns j := by
    rw [hm.bytes]
    by_cases hj : j = i
    case pos => subst hj; rwa [hm.conn_eq]
    case neg => rw [hm.conn_ne hj]; exact h.conns j
  permits := by
    have := hm.permits
    have := hm.sum_eq Conn.total
    have := h.permits
    rw [hm.bytes]
    omega
  pinned := by
    have := hm.pinned
    have := hm.sum_eq Conn.pins
    have := h.pinned
    omega
  tokens := by
    have := hm.tokens
    have := hm.sum_eq Conn.tokens
    have := h.tokens
    omega
  tight j := by
    rw [hm.bytes]
    by_cases hj : j = i
    case pos => subst hj; rwa [hm.conn_eq]
    case neg => rw [hm.conn_ne hj]; exact ho j hj
  alone := by
    have hother : ∀ {j}, j ≠ i → conn.undercharged → ¬(s.conns j).undercharged := by
      intro j hj hu' huj
      rcases hu hu' with hi | hn
      · exact hj (h.alone huj hi)
      · exact hn j hj huj
    intro j k huj huk
    by_cases hj : j = i <;> by_cases hk : k = i
    · rw [hj, hk]
    · subst hj
      rw [hm.conn_eq] at huj
      rw [hm.conn_ne hk] at huk
      exact absurd huk (hother hk huj)
    · subst hk
      rw [hm.conn_eq] at huk
      rw [hm.conn_ne hj] at huj
      exact absurd huj (hother hj huk)
    · rw [hm.conn_ne hj] at huj
      rw [hm.conn_ne hk] at huk
      exact h.alone huj huk

end Moves

namespace WF

variable [Fintype ι]

omit [DecidableEq ι] in
theorem pins_le_pinned (h : s.WF) (i : ι) : (s.conns i).pins ≤ s.pinned := by
  rw [h.pinned]
  exact Finset.single_le_sum (f := fun i => (s.conns i).pins) (fun _ _ => Nat.zero_le _)
    (Finset.mem_univ i)

theorem add_le_sum (f : Conn → Nat) (hj : j ≠ i) :
    f (s.conns i) + f (s.conns j) ≤ ∑ k, f (s.conns k) := by
  rw [← Finset.add_sum_erase Finset.univ (fun k => f (s.conns k)) (Finset.mem_univ i)]
  refine Nat.add_le_add_left ?_ _
  exact Finset.single_le_sum (f := fun k => f (s.conns k)) (fun _ _ => Nat.zero_le _)
    (Finset.mem_erase.mpr ⟨hj, Finset.mem_univ j⟩)

theorem pinned_le_total (h : s.WF) (i : ι) :
    s.pinned + (s.conns i).total ≤ ∑ k, (s.conns k).total + (s.conns i).pins := by
  have hp := Finset.add_sum_erase Finset.univ (fun k => (s.conns k).pins) (Finset.mem_univ i)
  have ht := Finset.add_sum_erase Finset.univ (fun k => (s.conns k).total) (Finset.mem_univ i)
  have hle : ∑ k ∈ Finset.univ.erase i, (s.conns k).pins ≤
      ∑ k ∈ Finset.univ.erase i, (s.conns k).total :=
    Finset.sum_le_sum fun k _ => (h.conns k).pins_le_total
  have hs := h.pinned
  omega

-- While a request runs on less than its cost, it and the pinned bytes take up the whole budget.
theorem not_undercharged_of_permits (h : s.WF) (hp : 0 < s.permits.total) (j : ι) :
    ¬(s.conns j).undercharged := by
  intro hu
  have ht := (h.tight j).of_undercharged (h.conns j) hu
  have hle := h.pinned_le_total j
  have hs := h.permits
  omega

theorem not_undercharged_of_pins (h : s.WF) (hb : 0 < s.bytes)
    (hp : s.bytes ≤ (s.conns i).pins) (hj : j ≠ i) : ¬(s.conns j).undercharged := by
  intro hu
  have hpos := (h.conns j).total_pos_of_undercharged hb hu
  have hle := (h.conns i).pins_le_total
  have hsum := add_le_sum (s := s) Conn.total hj
  have hs := h.permits
  omega

theorem not_undercharged_of_token (h : s.WF) (hr : s.bytes ≤ s.pinned)
    (hown : 0 < (s.conns i).pins) (ht : 0 < s.overdraft.total) (hj : j ≠ i)
    (hf : ∀ charge ∈ (s.conns j).frameCharge, charge.held < charge.cost → charge.held = 0) :
    ¬(s.conns j).undercharged := by
  intro hu
  have hle := h.pinned_le_total j
  have hs := h.permits
  rcases (h.conns j).of_undercharged hu with ⟨charge, hm, hlt, hh⟩ | hp | htok | hp
  · have := hf charge hm hlt
    omega
  · -- The permits of a reply are not pinned.
    have hpins := (h.conns j).pins_add_reply_le_total
    omega
  · have hsum : (s.conns j).tokens ≤ ∑ k, (s.conns k).tokens :=
      Finset.single_le_sum (f := fun k => (s.conns k).tokens) (fun _ _ => Nat.zero_le _)
        (Finset.mem_univ j)
    have htokens := h.tokens
    omega
  · have hsum := add_le_sum (s := s) Conn.pins hj
    have hpin := h.pinned
    have htot := h.pinned_le_total i
    have hpt := (h.conns i).pins_le_total
    omega

end WF

-- The connection of a request that was admitted.
def Conn.admitted (conn : Conn) (charge : Option Charge) : Request → Conn
  | .frame keys values =>
    { conn with frameCharge := some (.new keys values charge), phase := .serving }
  | .reply cost => { conn with phase := .replying cost charge }

-- How a request comes to be admitted with a charge.
inductive Admits (conn : Conn) (bytes pinned : Nat) (request : Request) : Option Charge → Prop
  | free : request.cost = 0 → Admits conn bytes pinned request none
  | pinsAll : bytes ≤ conn.pins → Admits conn bytes pinned request none
  | overdraftHeld (hm : charge ∈ conn.frameCharge) :
    charge.overdraft = true → bytes ≤ pinned → Admits conn bytes pinned request none
  | budget : 0 < n → n ≤ u32Max → (n < request.cost → bytes ≤ pinned + n) →
    Admits conn bytes pinned request (some (.budget n))
  | overdraft : 0 < request.cost → 0 < conn.pins → bytes ≤ pinned →
    Admits conn bytes pinned request (some .overdraft)

section Admit

variable {request : Request} {charge : Option Charge} {bytes pinned : Nat}

theorem Admits.permits_le (h : Admits conn bytes pinned request charge) :
    Charge.permits charge ≤ u32Max := by
  cases h
  case budget n _ hn _ => exact hn
  all_goals exact Nat.zero_le _

theorem Admits.wf (h : Admits conn bytes pinned request charge) (hw : conn.WF bytes)
    (hf : conn.Takes request) : (conn.admitted charge request).WF bytes := by
  cases request
  case frame keys values =>
    have hpins : conn.pins = conn.receiveCharged := by simp [Conn.pins, hf rfl]
    refine ⟨hw.receive, ?_, .serving⟩
    intro frameCharge hm
    cases Option.mem_some.mp hm
    refine ⟨Nat.min_le_right .., toU32_le _, ?_, ?_, ?_⟩
    · exact pos_of_saturatingMul_pos
    · intro ho
      have ho : charge = some .overdraft := by simpa [FrameCharge.new] using ho
      subst ho
      cases h with
      | overdraft hc hp _ => exact ⟨rfl, hc, hpins ▸ hp⟩
    · intro hlt
      cases h with
      | free hc            => simp [FrameCharge.new, hc] at hlt
      | pinsAll hp         => exact .inr (.inr (hpins ▸ hp))
      | overdraftHeld hm'  => simp [hf rfl] at hm'
      | budget hn hle _    =>
        left
        simpa [FrameCharge.new, Charge.permits, toU32_of_le hle] using hn
      | overdraft _ _ _    => exact .inr (.inl (by simp [FrameCharge.new]))
  case reply cost =>
    refine ⟨hw.receive, hw.frame, .replying ?_ ?_⟩
    · intro he
      subst he
      cases h with
      | overdraft _ hp _ => exact hp
    · intro hlt
      cases h with
      | free hc          => exact absurd (show cost = 0 from hc) (Nat.ne_of_gt (Nat.zero_lt_of_lt hlt))
      | pinsAll hp       => exact .inr (.inr hp)
      | overdraftHeld hm ho _ =>
        right; left
        simp [Conn.tokens, Conn.admitted, Option.mem_def.mp hm, ho]
      | budget hn _ _    => exact .inl hn
      | overdraft _ _ _  =>
        right; left
        simp [Conn.tokens, Conn.admitted, Conn.replyCharge, Charge.tokens]

theorem Admits.bytes_le (h : Admits conn bytes pinned request charge) (hp : conn.pins ≤ pinned)
    (hlt : Charge.permits charge < request.cost) : bytes ≤ pinned + Charge.permits charge := by
  cases h with
  | free hc               => exact absurd (hc ▸ hlt) (Nat.not_lt_zero _)
  | pinsAll hb            => exact (hb.trans hp).trans (Nat.le_add_right ..)
  | overdraftHeld _ _ hb  => exact hb.trans (Nat.le_add_right ..)
  | budget _ _ hb         => exact hb hlt
  | overdraft _ _ hb      => exact hb.trans (Nat.le_add_right ..)

theorem Admits.tight (h : Admits conn bytes pinned request charge) (hp : conn.pins ≤ pinned)
    (ht : conn.Tight bytes pinned) {pinned' : Nat}
    (hf : conn.Takes request)
    (he : pinned' + conn.pins = pinned + (conn.admitted charge request).pins) :
    (conn.admitted charge request).Tight bytes pinned' := by
  cases request
  case frame keys values =>
    simp only [Conn.pins, Conn.admitted, hf rfl, Option.elim] at he
    refine ⟨?_, nofun⟩
    intro frameCharge hm hlt
    cases Option.mem_some.mp hm
    have hle : (FrameCharge.new keys values charge).held = Charge.permits charge :=
      toU32_of_le h.permits_le
    have hb := h.bytes_le hp (hle ▸ hlt)
    omega
  case reply cost =>
    have he : pinned' = pinned := by
      simpa [Conn.pins, Conn.admitted] using he
    subst he
    refine ⟨ht.left, ?_⟩
    intro ask hm hlt
    cases Option.mem_some.mp hm
    exact h.bytes_le hp hlt

theorem enter_moves {s₁ : InFlight ι} (hb : s₁.bytes = s.bytes) (hc : s₁.conns = s.conns)
    (hpin : s₁.pinned = s.pinned)
    (hp : s₁.permits.total + Charge.permits charge = s.permits.total)
    (ht : s₁.overdraft.total + Charge.tokens charge = s.overdraft.total)
    (hu : Charge.permits charge ≤ u32Max) (hr : (s.conns i).replyCharge = none)
    (hf : (s.conns i).Takes request) :
    Moves s i ((s.conns i).admitted charge request) (s₁.enter i request charge) := by
  cases request
  case frame keys values =>
    have hf := hf rfl
    constructor
    case bytes => exact hb
    case conns => simp [enter, setConn, hc, Conn.admitted]
    case permits =>
      have hheld : (FrameCharge.new keys values charge).held = Charge.permits charge :=
        toU32_of_le hu
      simp only [enter, setConn, Conn.total, Conn.admitted, hf, Option.elim, hr, hheld]
      simp only [Conn.replyCharge, Charge.permits_none]
      omega
    case pinned =>
      simp only [enter, setConn, Conn.pins, Conn.admitted, hf, Option.elim, hpin]
      omega
    case tokens =>
      have ho : (if (FrameCharge.new keys values charge).overdraft = true then 1 else 0) =
          Charge.tokens charge := by
        rcases charge with _ | _ | _ <;> rfl
      simp only [enter, setConn, Conn.tokens, Conn.admitted, hf, Option.elim, hr, ho]
      simp only [Conn.replyCharge, Charge.tokens_none]
      omega
  case reply cost =>
    constructor
    case bytes => exact hb
    case conns => simp [enter, setPhase, setConn, hc, Conn.admitted]
    case permits =>
      simp only [enter, setPhase, setConn, Conn.total, Conn.admitted, hr]
      simp only [Conn.replyCharge, Charge.permits_none]
      omega
    case pinned =>
      simp only [enter, setPhase, setConn, Conn.pins, Conn.admitted, hpin]
    case tokens =>
      simp only [enter, setPhase, setConn, Conn.tokens, Conn.admitted, hr]
      simp only [Conn.replyCharge, Charge.tokens_none]
      omega

end Admit

section Drop

theorem dropReply_moves (s : InFlight ι) (i : ι) :
    Moves s i { s.conns i with phase := .idle } (s.dropReply i) := by
  unfold dropReply
  split
  case _ cost charge hp =>
    have he : (s.conns i).replyCharge = charge := by simp [Conn.replyCharge, hp]
    refine ⟨rfl, rfl, ?_, rfl, ?_⟩
    · simp only [setPhase, setConn, total_release, Conn.total, he]
      simp only [Conn.replyCharge, Charge.permits_none]
      omega
    · simp only [setPhase, setConn, total_release, Conn.tokens, he]
      simp only [Conn.replyCharge, Charge.tokens_none]
      omega
  case _ hp =>
    have he : (s.conns i).replyCharge = none := by
      unfold Conn.replyCharge
      split
      case _ hp' => exact absurd hp' (hp _ _)
      case _     => rfl
    refine ⟨rfl, rfl, ?_, rfl, ?_⟩
    · simp only [setPhase, setConn, Conn.total, he]
      rfl
    · simp only [setPhase, setConn, Conn.tokens, he]
      rfl

theorem dropFrameCharge_moves (hle : (s.conns i).pins ≤ s.pinned) :
    Moves s i { s.conns i with frameCharge := none } (s.dropFrameCharge i) := by
  unfold dropFrameCharge
  split
  case _ hc =>
    rw [← hc]
    exact .refl s i
  case _ charge hc =>
    refine ⟨rfl, rfl, ?_, ?_, ?_⟩
    · simp only [setConn, total_release, Conn.total, hc, Option.elim, Conn.replyCharge]
      omega
    · simp only [setConn, Conn.pins, hc, Option.elim] at hle ⊢
      omega
    · simp only [setConn, total_release, Conn.tokens, hc, Option.elim, Conn.replyCharge]
      omega

theorem dropReceive_moves (hle : (s.conns i).pins ≤ s.pinned) :
    Moves s i { s.conns i with receiveCharge := 0, receiveCharged := 0 } (s.dropReceive i) := by
  refine ⟨rfl, rfl, ?_, ?_, rfl⟩
  · simp only [dropReceive, setConn, total_release, Conn.total, Conn.replyCharge]
    omega
  · simp only [dropReceive, setConn, Conn.pins] at hle ⊢
    omega

theorem cancelWait_moves (s : InFlight ι) (i : ι) : Moves s i (s.conns i) (s.cancelWait i) := by
  unfold cancelWait
  split
  all_goals refine ⟨rfl, (Function.update_eq_self ..).symm, ?_, rfl, ?_⟩
  all_goals simp only [total_cancel]

variable [Fintype ι]

-- A connection that no longer serves a request.
theorem WF.idle (h : s.WF) (hm : Moves s i conn s') (hr : conn.receiveCharge = conn.receiveCharged)
    (hf : conn.frameCharge = none) (hp : conn.phase = .idle)
    (ho : ∀ j ≠ i, (s.conns j).Tight s.bytes s'.pinned) : s'.WF := by
  refine hm.wf h ⟨hr, by simp [hf], hp ▸ .idle hf⟩ ⟨by simp [hf], by simp [Conn.ask, hp]⟩ ho ?_
  intro hu
  simp [Conn.undercharged, hf, hp] at hu

end Drop

namespace FrameCharge

variable {charge : FrameCharge} {bytes receiveCharged keep : Nat}

-- A charge that falls short after it was narrowed did so before, and nothing of it was given back.
theorem WF.short_shrinkTo (h : charge.WF bytes receiveCharged)
    (hlt : (charge.shrinkTo keep).held < (charge.shrinkTo keep).cost) :
    (charge.shrinkTo keep).held = charge.held ∧ charge.held < charge.cost := by
  have hu := h.u32
  simp only [shrinkTo, toU32] at hlt ⊢
  omega

theorem WF.shrinkTo (h : charge.WF bytes receiveCharged) (hk : 0 < charge.keys → 0 < keep) :
    (charge.shrinkTo keep).WF bytes receiveCharged where
  pinned := Nat.min_le_right ..
  u32    := (Nat.min_le_right ..).trans h.u32
  keys   := fun hc => h.keys (Nat.lt_of_lt_of_le hc (Nat.min_le_left ..))
  token  := fun ho => by
    have ⟨hheld, hcost, hr⟩ := h.token ho
    have hpos := hk (h.keys hcost)
    simp only [FrameCharge.shrinkTo]
    omega
  short  := fun hlt => by
    have ⟨he, hlt⟩ := h.short_shrinkTo hlt
    rw [he]
    exact h.short hlt

theorem WF.pin (h : charge.WF bytes receiveCharged) : charge.pin.WF bytes receiveCharged where
  pinned := by simp [FrameCharge.pin, h.pinned]
  u32    := h.u32
  keys   := h.keys
  token  := h.token
  short  := h.short

end FrameCharge

namespace WF

variable [Fintype ι] {request : Request} {charge : Option Charge} {own : Nat}

-- Whoever is admitted with less than its cost is the only one.
theorem alone_of_admits (h : s.WF) (hb : 0 < s.bytes)
    (ha : Admits (s.conns i) s.bytes s.pinned request charge)
    (hp : Charge.permits charge ≤ s.permits.total)
    (ht : Charge.tokens charge ≤ s.overdraft.total)
    (htoken : charge = some .overdraft → s.NoneClamped i)
    (hu : ((s.conns i).admitted charge request).undercharged) :
    (s.conns i).undercharged ∨ ∀ j ≠ i, ¬(s.conns j).undercharged := by
  cases ha with
  | free hc =>
    left
    cases request
    case frame keys values =>
      simp [Conn.undercharged, Conn.admitted, FrameCharge.new, hc] at hu
    case reply cost =>
      have hc : cost = 0 := hc
      subst hc
      refine Conn.undercharged_iff.mpr (.inl ?_)
      rcases Conn.undercharged_iff.mp hu with hf | ⟨_, _, he, hlt⟩
      · exact hf
      · cases he
        contradiction
  | pinsAll hpins => exact .inr fun j hj => h.not_undercharged_of_pins hb hpins hj
  | overdraftHeld hm ho _ =>
    have ⟨hheld, hcost, _⟩ := ((h.conns i).frame _ hm).token ho
    exact .inl (Conn.undercharged_iff.mpr (.inl ⟨_, hm, hheld ▸ hcost⟩))
  | budget hn _ _ =>
    exact .inr fun j _ => h.not_undercharged_of_permits (Nat.lt_of_lt_of_le hn hp) j
  | overdraft _ hpins hpinned =>
    exact .inr fun j hj => h.not_undercharged_of_token hpinned hpins ht hj (htoken rfl j hj)

theorem enter {s₁ : InFlight ι} (h : s.WF) (hb : 0 < s.bytes)
    (ha : Admits (s.conns i) s.bytes s.pinned request charge) (hbytes : s₁.bytes = s.bytes)
    (hconns : s₁.conns = s.conns) (hpin : s₁.pinned = s.pinned)
    (hp : s₁.permits.total + Charge.permits charge = s.permits.total)
    (ht : s₁.overdraft.total + Charge.tokens charge = s.overdraft.total)
    (hr : (s.conns i).replyCharge = none)
    (hf : (s.conns i).Takes request)
    (htoken : charge = some .overdraft → s.NoneClamped i) :
    (s₁.enter i request charge).WF := by
  have hm := enter_moves hbytes hconns hpin hp ht ha.permits_le hr hf
  have hpins : (s.conns i).pins ≤ ((s.conns i).admitted charge request).pins := by
    cases request
    case frame => simp [Conn.pins, Conn.admitted, hf rfl]
    case reply => exact Nat.le_refl _
  have hle : s.pinned ≤ (s₁.enter i request charge).pinned := by
    have := hm.pinned
    omega
  refine hm.wf h (ha.wf (h.conns i) hf) ?_ (fun j _ => (h.tight j).mono hle) ?_
  · exact ha.tight (h.pins_le_pinned i) (h.tight i) hf hm.pinned
  · exact h.alone_of_admits hb ha (by omega) (by omega) htoken

theorem wait (h : s.WF) {w : Wait} (hbytes : s'.bytes = s.bytes)
    (hconns : s'.conns = Function.update s.conns i
      { s.conns i with phase := .charging request own w })
    (hp : s'.permits.total = s.permits.total) (hpin : s'.pinned = s.pinned)
    (ht : s'.overdraft.total = s.overdraft.total) (hr : (s.conns i).replyCharge = none)
    (hphase : Conn.InPhase { s.conns i with phase := .charging request own w } s.bytes
      (.charging request own w))
    (hask : ∀ {n}, w = .bytes n → n < request.cost → s.bytes ≤ s.pinned + n) : s'.WF := by
  have hm : Moves s i { s.conns i with phase := .charging request own w } s' := by
    refine ⟨hbytes, hconns, ?_, ?_, ?_⟩
    · rw [hp, Conn.total, Conn.total, hr]
      rfl
    · rw [hpin]
      rfl
    · rw [ht, Conn.tokens, Conn.tokens, hr]
      rfl
  refine hm.wf h ⟨(h.conns i).receive, (h.conns i).frame, hphase⟩ ⟨?_, ?_⟩ ?_ ?_
  · rw [hpin]
    exact (h.tight i).left
  · rw [hpin]
    intro ask hask' hlt
    cases w
    case bytes n =>
      cases Option.mem_some.mp hask'
      exact hask rfl hlt
    all_goals contradiction
  · rw [hpin]
    exact fun j _ => h.tight j
  · intro hu
    refine .inl (Conn.undercharged_iff.mpr (.inl ?_))
    exact (Conn.undercharged_iff.mp hu).resolve_right nofun

theorem chargeLoop (h : s.WF) (hcost : 0 < request.cost) (hu : request.cost ≤ u32Max)
    (hown : own = (s.conns i).pins) (hlt : own < s.bytes) (hr : (s.conns i).replyCharge = none)
    (hf : (s.conns i).Takes request)
    (ho : ∀ charge ∈ (s.conns i).frameCharge, charge.overdraft = false) :
    (s.chargeLoop i request own).WF := by
  have hpinned : max s.pinned own = s.pinned := Nat.max_eq_left (hown ▸ h.pins_le_pinned i)
  unfold InFlight.chargeLoop
  dsimp only
  split
  case isTrue hroom =>
    rw [room, hpinned] at hroom ⊢
    have hle : min request.cost (s.bytes - s.pinned) ≤ u32Max := (Nat.min_le_left ..).trans hu
    rw [toU32_of_le hle]
    refine h.wait rfl rfl ?_ rfl rfl hr ?_ ?_
    · exact total_acquire
    · refine .charging hcost hu hown hlt hf ho ?_ nofun
      intro n hn
      cases hn
      exact ⟨Nat.lt_min.mpr ⟨hcost, hroom⟩, hle⟩
    · intro n hn hclamped
      cases hn
      omega
  case isFalse hroom =>
    split
    case isTrue =>
      refine h.wait rfl rfl ?_ rfl rfl hr ?_ nofun
      · exact total_acquire
      · exact .charging hcost hu hown hlt hf ho nofun nofun
    case isFalse hpos =>
      refine h.wait rfl rfl ?_ rfl ?_ hr ?_ nofun
      · exact total_acquire
      · exact total_acquire
      · exact .charging hcost hu hown hlt hf ho nofun fun _ => Nat.pos_of_ne_zero hpos

theorem chargeWithinRoom {overdraftHeld : Bool} (h : s.WF) (hb : 0 < s.bytes)
    (hu : request.cost ≤ u32Max) (hown : own = (s.conns i).pins)
    (hr : (s.conns i).replyCharge = none)
    (hf : (s.conns i).Takes request)
    (ho : overdraftHeld = (s.conns i).frameCharge.any FrameCharge.overdraft) :
    (s.chargeWithinRoom i request own overdraftHeld).WF := by
  unfold InFlight.chargeWithinRoom
  split
  case isTrue hc =>
    refine h.enter hb ?_ rfl rfl rfl rfl rfl hr hf nofun
    rcases hc with hc | hc | hc
    · exact .free hc
    · exact .pinsAll (hown ▸ hc)
    · have ⟨charge, hm, hover⟩ := (Option.any_eq_true ..).mp (ho ▸ hc)
      have ⟨hheld, hcost, _⟩ := ((h.conns i).frame charge hm).token hover
      have ht := (h.tight i).left charge hm (hheld ▸ hcost)
      exact .overdraftHeld hm hover (by omega)
  case isFalse hc =>
    have ⟨hcost, hown', hover⟩ : request.cost ≠ 0 ∧ ¬own ≥ s.bytes ∧ ¬overdraftHeld = true := by
      simpa only [not_or] using hc
    refine h.chargeLoop (Nat.pos_of_ne_zero hcost) hu hown (Nat.lt_of_not_ge hown') hr hf ?_
    intro charge hm
    by_contra hn
    exact hover (ho ▸ (Option.any_eq_true ..).mpr ⟨charge, hm, by simpa using hn⟩)

theorem narrow {charge charge' : FrameCharge} (h : s.WF) (hphase : (s.conns i).phase = .serving)
    (hc : (s.conns i).frameCharge = some charge)
    (hw : charge'.WF s.bytes (s.conns i).receiveCharged) (hheld : charge'.held ≤ charge.held)
    (hover : charge'.overdraft = charge.overdraft)
    (hshort : charge'.held < charge'.cost → charge'.held = charge.held ∧ charge.held < charge.cost)
    (ho : ∀ j ≠ i, (s.conns j).Tight s.bytes
      (s.pinned - (charge.pinnedHeld - charge'.pinnedHeld))) :
    (s.narrow i charge charge').WF := by
  have hpins := h.pins_le_pinned i
  have hm : Moves s i { s.conns i with frameCharge := some charge' } (s.narrow i charge charge') := by
    refine ⟨rfl, rfl, ?_, ?_, ?_⟩
    · simp only [InFlight.narrow, setConn, total_release, Conn.total, hc, Option.elim,
        Conn.replyCharge]
      omega
    · simp only [InFlight.narrow, setConn, Conn.pins, hc, Option.elim] at hpins ⊢
      omega
    · simp only [InFlight.narrow, setConn, Conn.tokens, hc, Option.elim, hover, Conn.replyCharge]
  have hframe : { s.conns i with frameCharge := some charge' : Conn }.WF s.bytes := by
    refine ⟨(h.conns i).receive, fun _ hm => Option.mem_some.mp hm ▸ hw, ?_⟩
    change Conn.InPhase _ _ (s.conns i).phase
    rw [hphase]
    exact .serving
  refine hm.wf h hframe ⟨?_, ?_⟩ (fun j hj => (ho j hj).mono (Nat.le_add_right ..)) ?_
  · intro _ hmem hlt
    cases Option.mem_some.mp hmem
    have ⟨he, hlt⟩ := hshort hlt
    have ht := (h.tight i).left charge hc hlt
    have hpin := hm.pinned
    simp only [Conn.pins, hc, Option.elim] at hpin
    omega
  · intro ask hask
    simp [Conn.ask, hphase] at hask
  · intro hu
    left
    rcases Conn.undercharged_iff.mp hu with ⟨_, hmem, hlt⟩ | ⟨_, _, he, _⟩
    · cases Option.mem_some.mp hmem
      exact Conn.undercharged_iff.mpr (.inl ⟨charge, hc, (hshort hlt).right⟩)
    · exact absurd (hphase.symm.trans he) nofun

-- A loop iteration of `charge_within_room` after a wait that has not charged anything.
theorem chargeLoop_again {w : Wait} (h : s.WF) (hp : (s.conns i).phase = .charging request own w)
    {permits overdraft : Semaphore ι} (ht : permits.total = s.permits.total)
    (ho : overdraft.total = s.overdraft.total) :
    ({ s with permits := permits, overdraft := overdraft }.chargeLoop i request own).WF := by
  have hw : { s with permits := permits, overdraft := overdraft : InFlight ι }.WF :=
    ⟨h.conns, ht ▸ h.permits, h.pinned, ho ▸ h.tokens, h.tight, h.alone⟩
  have hphase := (h.conns i).phase
  rw [hp] at hphase
  cases hphase with
  | charging hcost hu hown hlt hf hover _ _ =>
    exact hw.chargeLoop hcost hu hown hlt (by simp [Conn.replyCharge, hp]) hf hover

theorem resume (h : s.WF) (hb : 0 < s.bytes) (he : s.resume i = some s') : s'.WF := by
  have hphase := (h.conns i).phase
  unfold InFlight.resume at he
  dsimp only at he
  split at he
  case _ want hp =>
    have ⟨permits, ht, he⟩ := Option.bind_eq_some_iff.mp he
    cases he
    rw [hp] at hphase
    cases hphase with
    | growing hf hlt hle =>
      have ht := total_take ht
      have hu : toU32 (want - (s.conns i).receiveCharged) = want - (s.conns i).receiveCharged :=
        toU32_of_le ((Nat.sub_le ..).trans hle)
      rw [hu] at ht ⊢
      have hr := (h.conns i).receive
      refine h.idle (i := i) ⟨rfl, rfl, ?_, ?_, ?_⟩ ?_ hf rfl
        fun j _ => (h.tight j).mono (Nat.le_add_right ..)
      · simp only [setConn, Conn.total, hf, Option.elim, Conn.replyCharge, hp,
          Charge.permits_none]
        omega
      · simp only [setConn, Conn.pins, hf, Option.elim]
        omega
      · simp only [setConn, Conn.tokens, hf, Option.elim, Conn.replyCharge, hp]
      · dsimp only
        omega
  case _ request own n hp =>
    have ⟨permits, ht, he⟩ := Option.bind_eq_some_iff.mp he
    cases he
    rw [hp] at hphase
    cases hphase with
    | charging hcost hu hown hlt hf hover hn _ =>
      have ⟨hpos, hle⟩ := hn rfl
      refine h.enter hb (.budget hpos hle ?_) rfl rfl rfl (total_take ht) rfl ?_ hf nofun
      · exact (h.tight i).right (request.cost, n) (by simp [Conn.ask, hp])
      · simp [Conn.replyCharge, hp]
  case _ request own hp =>
    have ⟨permits, ht, he⟩ := Option.bind_eq_some_iff.mp he
    cases he
    exact h.chargeLoop_again hp (total_release.trans (total_take ht)) rfl
  case _ request own hp =>
    have ⟨permits, ht, he⟩ := Option.bind_eq_some_iff.mp he
    cases he
    exact h.chargeLoop_again hp (total_release.trans (total_take ht))
      total_cancel
  case _ => contradiction

theorem resumeToken (h : s.WF) (hb : 0 < s.bytes) (he : s.resumeToken i = some s')
    (htoken : ∀ {request own}, (s.conns i).phase = .charging request own .byteOrToken →
      s.room own = 0 → s.NoneClamped i) :
    s'.WF := by
  unfold InFlight.resumeToken at he
  split at he
  case _ request own hp =>
    have ⟨overdraft, ht, he⟩ := Option.bind_eq_some_iff.mp he
    have htotal := total_take ht
    have hphase := (h.conns i).phase
    rw [hp] at hphase
    cases hphase with
    | charging hcost hu hown hlt hf hover _ hpos =>
      have hr : (s.conns i).replyCharge = none := by simp [Conn.replyCharge, hp]
      have hpinned : max s.pinned own = s.pinned := Nat.max_eq_left (hown ▸ h.pins_le_pinned i)
      dsimp only at he
      split at he
      case isTrue hroom =>
        have htoken := htoken hp hroom
        rw [room] at hroom
        dsimp only at hroom
        cases he
        have ha : Admits (s.conns i) s.bytes s.pinned request (some .overdraft) :=
          .overdraft hcost (hown ▸ hpos rfl) (by omega)
        exact h.enter hb ha rfl rfl rfl total_cancel htotal hr hf fun _ => htoken
      case isFalse hroom =>
        cases he
        exact h.chargeLoop_again hp total_cancel (total_release.trans htotal)
  case _ => contradiction

omit [DecidableEq ι] in
theorem of_idle (h : s.WF) (hp : (s.conns i).phase = .idle) :
    (s.conns i).frameCharge = none ∧ (s.conns i).receiveCharged = (s.conns i).pins ∧
    (s.conns i).replyCharge = none := by
  have hphase := (h.conns i).phase
  rw [hp] at hphase
  cases hphase with
  | idle hf => exact ⟨hf, by simp [Conn.pins, hf], by simp [Conn.replyCharge, hp]⟩

theorem shrinkTo {charge : FrameCharge} {keep : Nat} (h : s.WF)
    (hp : (s.conns i).phase = .serving) (hc : (s.conns i).frameCharge = some charge)
    (hk : 0 < charge.keys → 0 < keep)
    (ho : ∀ j ≠ i, (s.conns j).Tight s.bytes
      (s.pinned - (charge.pinnedHeld - (charge.shrinkTo keep).pinnedHeld))) :
    (s.narrow i charge (charge.shrinkTo keep)).WF :=
  have hw := (h.conns i).frame charge hc
  h.narrow hp hc (hw.shrinkTo hk) (Nat.min_le_right ..) rfl hw.short_shrinkTo ho

theorem exec {e : Event ι} (h : s.WF) (hb : 0 < s.bytes) (he : s.exec e = some s')
    (hs : e.Spares s) : s'.WF := by
  have hfits := hs.fits
  have ho := hs.room
  cases e
  case resume i      => exact h.resume hb he
  case resumeToken i => exact h.resumeToken hb he (hs.token rfl)
  case close i =>
    cases he
    have hm₁ := (cancelWait_moves s i).trans (dropReply_moves _ i)
    have hm₂ := hm₁.trans (dropFrameCharge_moves (hm₁.pins_le (h.pins_le_pinned i)))
    have hm₃ := hm₂.trans (dropReceive_moves (hm₂.pins_le (h.pins_le_pinned i)))
    refine h.idle hm₃ rfl ?_ ?_ fun j hj => (ho j hj).mono (Nat.sub_le_iff_le_add.mpr ?_)
    · rw [hm₂.conn_eq]
    · rw [hm₂.conn_eq, hm₁.conn_eq]
    · exact (Nat.le_add_right ..).trans hm₃.pinned.ge
  case finish i =>
    have hm₁ := dropReply_moves s i
    have hm₂ := hm₁.trans (dropFrameCharge_moves (hm₁.pins_le (h.pins_le_pinned i)))
    have hpin := hm₂.pinned
    simp only [hm₁.conn_eq, Conn.pins, Option.elim_none] at hpin
    simp only [InFlight.exec] at he
    split at he
    case h_3 => contradiction
    all_goals
      cases he
      refine h.idle hm₂ ?_ rfl ?_ fun j hj => (ho j hj).mono ?_
      · rw [hm₁.conn_eq]
        exact (h.conns i).receive
      · rw [hm₁.conn_eq]
      · rw [Event.unpins]
        omega
  case shrink i =>
    have ⟨hp, he⟩ := Option.ite_none_right_eq_some.mp he
    cases he
    exact h.idle (dropReceive_moves (h.pins_le_pinned i)) rfl (h.of_idle hp).left hp ho
  case grow i want =>
    have ⟨⟨hp, _, hlt⟩, he⟩ := Option.ite_none_right_eq_some.mp he
    have ⟨hf, _, hr⟩ := h.of_idle hp
    cases he
    have hm : Moves s i { s.conns i with phase := .growing want }
        (s.chargeExact i (want - (s.conns i).receiveCharged) |>.setPhase i (.growing want)) := by
      refine ⟨rfl, rfl, ?_, rfl, ?_⟩
      · simp only [chargeExact, setPhase, setConn, total_acquire, Conn.total, hr]
        rfl
      · simp only [chargeExact, setPhase, setConn, Conn.tokens, hr]
        rfl
    have hw : { s.conns i with phase := .growing want : Conn }.WF s.bytes :=
      ⟨(h.conns i).receive, (h.conns i).frame, .growing hf hlt hfits⟩
    refine hm.wf h hw ⟨by simp [hf], by simp [Conn.ask]⟩ ho ?_
    intro hu
    simp [Conn.undercharged, hf] at hu
  case frame i keys values =>
    have ⟨hp, he⟩ := Option.ite_none_right_eq_some.mp he
    have ⟨hf, hown, hr⟩ := h.of_idle hp
    cases he
    exact h.chargeWithinRoom hb hfits hown hr (fun _ => hf) (by simp [hf])
  case get i cost =>
    have ⟨hp, he⟩ := Option.ite_none_right_eq_some.mp he
    have ⟨hf, hown, hr⟩ := h.of_idle hp
    cases he
    exact h.chargeWithinRoom hb hfits hown hr (fun _ => hf) (by simp [hf])
  case keepForwardPhase i batches =>
    simp only [InFlight.exec] at he
    split at he
    case h_2 => contradiction
    case h_1 charge hp hc =>
      cases he
      simp only [Event.unpins, Conn.unpins, hc, Option.elim_some] at ho
      refine h.shrinkTo hp hc (fun hk => ?_) ho
      have hpos := saturatingMul_pos hk (show 0 < multiKeyForwardBytesPerKey by decide)
      exact Nat.lt_min.mpr ⟨Nat.add_pos_left hpos _, by decide⟩
  case keepAckPhase i =>
    simp only [InFlight.exec] at he
    split at he
    case h_2 => contradiction
    case h_1 charge hp hc =>
      cases he
      simp only [Event.unpins, Conn.unpins, hc, Option.elim_some] at ho
      exact h.shrinkTo hp hc (fun hk => saturatingMul_pos hk (by decide)) ho
  case reply i cost =>
    simp only [InFlight.exec] at he
    split at he
    case h_2 => contradiction
    case h_1 charge hp hc =>
      cases he
      simp only [Event.unpins, Conn.unpins, hc, Option.elim_some] at ho
      have hw := (h.conns i).frame charge hc
      have hk : 0 < charge.keys → 0 < saturatingMul charge.keys multiKeyReplyBytesPerKey :=
        fun hk => saturatingMul_pos hk (by decide)
      have hnarrow := h.narrow hp hc (hw.shrinkTo hk).pin (Nat.min_le_right ..) rfl
        hw.short_shrinkTo ho
      refine hnarrow.chargeWithinRoom hb hfits ?_ ?_ nofun ?_
      · simp only [InFlight.narrow, setConn, Function.update_self, Conn.pins, Option.elim]
        rw [FrameCharge.pin, Nat.max_eq_right (hw.shrinkTo hk).pinned]
      · simp [InFlight.narrow, setConn, Conn.replyCharge, hp]
      · simp [InFlight.narrow, setConn]

end WF

section Bytes

variable {request : Request} {charge : Option Charge} {own : Nat}

@[simp]
theorem enter_bytes : (s.enter i request charge).bytes = s.bytes := by
  cases request <;> rfl

@[simp]
theorem chargeLoop_bytes : (s.chargeLoop i request own).bytes = s.bytes := by
  unfold chargeLoop
  dsimp only
  split
  · rfl
  · split <;> rfl

@[simp]
theorem chargeWithinRoom_bytes {overdraftHeld : Bool} :
    (s.chargeWithinRoom i request own overdraftHeld).bytes = s.bytes := by
  unfold chargeWithinRoom
  split <;> simp

@[simp]
theorem dropFrameCharge_bytes : (s.dropFrameCharge i).bytes = s.bytes := by
  unfold dropFrameCharge
  split <;> rfl

theorem resume_bytes (he : s.resume i = some s') : s'.bytes = s.bytes := by
  unfold resume at he
  dsimp only at he
  split at he
  case h_5 => contradiction
  all_goals
    have ⟨_, _, he⟩ := Option.bind_eq_some_iff.mp he
    cases he
    simp [setConn]

theorem resumeToken_bytes (he : s.resumeToken i = some s') : s'.bytes = s.bytes := by
  unfold resumeToken at he
  split at he
  case h_2 => contradiction
  case h_1 =>
    have ⟨_, _, he⟩ := Option.bind_eq_some_iff.mp he
    dsimp only at he
    split at he <;> cases he <;> simp

theorem exec_bytes {e : Event ι} (he : s.exec e = some s') : s'.bytes = s.bytes := by
  cases e
  case resume i      => exact resume_bytes he
  case resumeToken i => exact resumeToken_bytes he
  case close i =>
    cases he
    have hm := (cancelWait_moves s i).trans (dropReply_moves _ i)
    simp [dropReceive, setConn, hm.bytes]
  case finish i =>
    simp only [exec] at he
    split at he
    case h_3 => contradiction
    all_goals
      cases he
      simp [(dropReply_moves s i).bytes]
  all_goals
    simp only [exec] at he
    split at he
    · cases he
      simp [chargeExact, setPhase, setConn, dropReceive, narrow]
    · contradiction

end Bytes

variable [Fintype ι]

omit [DecidableEq ι] in
theorem wf_new (bytes : Nat) : (new bytes : InFlight ι).WF where
  conns _ := ⟨rfl, nofun, .idle rfl⟩
  permits := by simp [new, Conn.new, Conn.total, Conn.replyCharge]
  pinned  := by simp [new, Conn.new, Conn.pins]
  tokens  := by simp [new, Conn.new, Conn.tokens, Conn.replyCharge]
  tight _ := ⟨nofun, nofun⟩
  alone   := by simp [new, Conn.new, Conn.undercharged]

theorem Run.wf {bytes : Nat} (hb : 0 < bytes) (h : Run Event.Spares bytes s) :
    s.bytes = bytes ∧ s.WF := by
  induction h
  case new => exact ⟨rfl, wf_new bytes⟩
  case step he hs hi =>
    have ⟨hbytes, hw⟩ := hi
    exact ⟨(exec_bytes he).trans hbytes, hw.exec (hbytes ▸ hb) he hs⟩

theorem Run.undercharged_alone {bytes : Nat} (hb : 0 < bytes) (h : Run Event.Spares bytes s)
    {i j : ι} (hi : (s.conns i).undercharged) (hj : (s.conns j).undercharged) : i = j :=
  (h.wf hb).right.alone hi hj

omit [Fintype ι] in
theorem Run.of_execAll {bytes : Nat} {es : List (Event ι)}
    (h : Run (fun _ _ => True) bytes s) (he : s.execAll es = some s') :
    Run (fun _ _ => True) bytes s' := by
  induction es generalizing s
  case nil =>
    cases he
    exact h
  case cons e es hi =>
    have ⟨_, he, hes⟩ := Option.bind_eq_some_iff.mp he
    exact hi (h.step he trivial) hes

-- The first connection pins most of the budget, so the reply of the second one is clamped.
theorem undercharged_alone_of_pinned :
    ∃ s : InFlight (Fin 2), Run Event.Spares minMaxInFlightBytes s ∧ (s.conns 1).undercharged ∧
      ∀ j, (s.conns j).undercharged → j = 1 := by
  have h : Run Event.Spares minMaxInFlightBytes _ := .step (e := .resume (1 : Fin 2))
    (.step (e := .get 1 1000000)
      (.step (e := .resume 0)
        (.step (e := .grow 0 983040) .new rfl ⟨by decide, by decide, nofun⟩)
        rfl ⟨by decide, by decide, nofun⟩)
      rfl ⟨by decide, by decide, nofun⟩)
    rfl ⟨by decide, by decide, nofun⟩
  exact ⟨_, h, by decide, fun j hj => h.undercharged_alone (by decide) hj (by decide)⟩

-- A request that is clamped to the room there is before it waits is not looked at again when it is
-- granted the bytes. The second connection is given all of the room the first one leaves, and the
-- third one waits for as much until the first one is done: then both run on a part of their cost.
theorem two_undercharged :
    ∃ s : InFlight (Fin 3), Run (fun _ _ => True) minMaxInFlightBytes s ∧
      (s.conns 1).undercharged ∧ (s.conns 2).undercharged := by
  let es : List (Event (Fin 3)) :=
    [.grow 0 983040, .resume 0, .get 1 1000000, .resume 1, .get 2 1000000, .shrink 0, .resume 2]
  have he : ((new minMaxInFlightBytes).execAll es).isSome := by decide
  exact ⟨_, .of_execAll .new (Option.some_get he).symm, rfl, rfl⟩

-- The overdraft token does not keep others out, either. Here the whole charge of the first
-- connection's frame is pinned, so the second one finds no room and takes the token.
example : ((new minMaxInFlightBytes : InFlight (Fin 2)).execAll
    [.grow 1 983040, .resume 1, .frame 0 10000 false, .resume 0, .get 1 1000, .resumeToken 1]).map
    (fun s => ((s.conns 0).undercharged, (s.conns 1).undercharged)) = some (true, true) := by
  decide

end Nanocached.InFlight
