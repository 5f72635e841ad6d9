import Nanocached.Basic

-- The budgets which the connections of a source address have in common. Whether an entry of the map
-- goes is decided under the map's lock, but the reference that is counted there is released only
-- after the drop hook has given the lock back. So these are two steps.

namespace Nanocached.Proxy

inductive IpAddr where
  | v4 (addr : BitVec 32)
  | v6 (addr : BitVec 128)
deriving DecidableEq, Repr

-- The address that is carried by `::ffff:a.b.c.d`.
def toIpv4Mapped (addr : BitVec 128) : Option (BitVec 32) :=
  if addr >>> 32 = 0xffff then some (addr.setWidth 32) else none

def perIpKey : IpAddr → IpAddr
  | .v4 addr => .v4 addr
  | .v6 addr =>
    match toIpv4Mapped addr with
    | some v4 => .v4 v4
    | none    => .v6 (addr &&& (BitVec.allOnes 128 <<< 64))

structure InFlightBudget where
  permits : Nat
  bytes   : Nat
deriving DecidableEq, Repr

def InFlightBudget.new (bytes : Nat) : InFlightBudget where
  permits := bytes
  bytes   := bytes

structure IpBudgets where
  inFlight : InFlightBudget
  parked   : InFlightBudget
deriving DecidableEq, Repr

-- A connection's share. It is dropping from when its hook has returned until it has released its
-- reference. The source does not keep the address of the peer itself.
structure IpInFlightShare where
  peer     : IpAddr
  ip       : IpAddr
  budgets  : Nat
  dropping : Bool
deriving DecidableEq, Repr

-- The budgets are numbered in the order in which they were allocated. The shares are those that
-- are live or dropping.
structure IpInFlightShares where
  budgets    : Map IpAddr Nat
  shareBytes : Nat
  allocated  : List IpBudgets
  shares     : List IpInFlightShare

inductive ShareEvent where
  | acquire (peer : IpAddr)
  | drop (id : Nat)
  | release (id : Nat)
deriving DecidableEq, Repr

namespace IpInFlightShares

def new (shareBytes : Nat) : IpInFlightShares where
  budgets    := ∅
  shareBytes := shareBytes
  allocated  := []
  shares     := []

def acquire (s : IpInFlightShares) (peer : IpAddr) : IpInFlightShares :=
  let ip := perIpKey peer
  match s.budgets.lookup ip with
  | some budgets => { s with shares := s.shares ++ [⟨peer, ip, budgets, false⟩] }
  | none         =>
    { s with
      budgets   := s.budgets.insert ip s.allocated.length
      allocated := s.allocated ++ [⟨.new s.shareBytes, .new s.shareBytes⟩]
      shares    := s.shares ++ [⟨peer, ip, s.allocated.length, false⟩] }

-- The references of the map and those of the shares.
def strongCount (s : IpInFlightShares) (budgets : Nat) : Nat :=
  s.budgets.entries.countP (fun entry => entry.2 = budgets) +
  s.shares.countP (fun share => share.budgets = budgets)

def drop (s : IpInFlightShares) (id : Nat) (share : IpInFlightShare) : IpInFlightShares :=
  { s with
    budgets := if s.strongCount share.budgets ≤ 2 then s.budgets.erase share.ip else s.budgets
    shares  := s.shares.set id { share with dropping := true } }

def release (s : IpInFlightShares) (id : Nat) : IpInFlightShares :=
  { s with shares := s.shares.eraseIdx id }

def exec (s : IpInFlightShares) : ShareEvent → Option IpInFlightShares
  | .acquire peer => some (s.acquire peer)
  | .drop id      =>
    match s.shares[id]? with
    | some share => if share.dropping then none else some (s.drop id share)
    | none       => none
  | .release id   =>
    match s.shares[id]? with
    | some share => if share.dropping then some (s.release id) else none
    | none       => none

inductive Run (Allowed : IpInFlightShares → ShareEvent → Prop) (shareBytes : Nat) :
    IpInFlightShares → Prop
  | new : Run Allowed shareBytes (new shareBytes)
  | step : Run Allowed shareBytes s → Allowed s e → s.exec e = some s' → Run Allowed shareBytes s'

variable {s s' : IpInFlightShares} {id : Nat} {share : IpInFlightShare} {shareBytes : Nat}
variable {e : ShareEvent} {Allowed : IpInFlightShares → ShareEvent → Prop}

-- What holds of every interleaving.
structure WF (s : IpInFlightShares) : Prop where
  keyed : ∀ share ∈ s.shares, share.ip = perIpKey share.peer
  live  : ∀ share ∈ s.shares, share.dropping = false →
            s.budgets.lookup share.ip = some share.budgets
  made  : ∀ {ip budgets}, s.budgets.lookup ip = some budgets → budgets < s.allocated.length
  own   : ∀ {ip ip' budgets}, s.budgets.lookup ip = some budgets →
            s.budgets.lookup ip' = some budgets → ip = ip'

-- Every entry has a connection.
def Connected (s : IpInFlightShares) : Prop :=
  ∀ ip budgets, s.budgets.lookup ip = some budgets →
    ∃ share ∈ s.shares, share.dropping = false ∧ share.ip = ip

-- While another share of the same budgets is dropping, the hook runs only for a share that is not
-- the last one of its address.
def LastAlone (s : IpInFlightShares) : ShareEvent → Prop
  | .drop id => ∀ share ∈ s.shares[id]?, ∀ other ∈ s.shares.eraseIdx id,
      other.dropping = true → other.budgets = share.budgets →
      ∃ rest ∈ s.shares.eraseIdx id, rest.dropping = false ∧ rest.ip = share.ip
  | _        => True

instance : Decidable (s.LastAlone e) :=
  match e with
  | .drop id   => inferInstanceAs (Decidable (∀ share ∈ s.shares[id]?, _))
  | .acquire _ => inferInstanceAs (Decidable True)
  | .release _ => inferInstanceAs (Decidable True)

section Counts

theorem shares_perm (h : s.shares[id]? = some share) :
    s.shares.Perm (share :: s.shares.eraseIdx id) := by
  obtain ⟨hlt, rfl⟩ := List.getElem?_eq_some_iff.mp h
  exact (List.getElem_cons_eraseIdx_perm hlt).symm

theorem drop_shares_perm (h : s.shares[id]? = some share) :
    (s.drop id share).shares.Perm ({ share with dropping := true } :: s.shares.eraseIdx id) := by
  obtain ⟨hlt, _⟩ := List.getElem?_eq_some_iff.mp h
  exact List.set_perm_cons_eraseIdx hlt _

-- The hook counts the map's reference, its own one, and the others.
theorem strongCount_eq (h : s.shares[id]? = some share)
    (hl : s.budgets.lookup share.ip = some share.budgets) :
    s.strongCount share.budgets =
      2 + (s.budgets.erase share.ip).entries.countP (fun entry => entry.2 = share.budgets) +
      (s.shares.eraseIdx id).countP (fun other => other.budgets = share.budgets) := by
  rw [strongCount, (AList.entries_perm_cons_erase hl).countP_eq, (shares_perm h).countP_eq,
    List.countP_cons_of_pos (by simp), List.countP_cons_of_pos (by simp)]
  omega

end Counts

theorem lookup_drop {ip : IpAddr} {budgets : Nat}
    (hl : (s.drop id share).budgets.lookup ip = some budgets) :
    s.budgets.lookup ip = some budgets := by
  rw [IpInFlightShares.drop] at hl
  split at hl
  · exact (AList.lookup_erase_eq_some.mp hl).right
  · exact hl

theorem exec_cases (h : s.exec e = some s') :
    (∃ peer, e = .acquire peer ∧ s' = s.acquire peer) ∨
    (∃ id share, e = .drop id ∧ s.shares[id]? = some share ∧ share.dropping = false ∧
      s' = s.drop id share) ∨
    ∃ id share, e = .release id ∧ s.shares[id]? = some share ∧ share.dropping = true ∧
      s' = s.release id := by
  cases e <;> simp only [exec] at h
  case acquire peer => exact .inl ⟨peer, rfl, (Option.some.inj h).symm⟩
  case drop id =>
    split at h
    case h_1 share hs =>
      split at h
      case isTrue     => contradiction
      case isFalse hd =>
        have hd : share.dropping = false := by simpa using hd
        exact .inr (.inl ⟨id, share, rfl, hs, hd, (Option.some.inj h).symm⟩)
    case h_2 => contradiction
  case release id =>
    split at h
    case h_1 share hs =>
      split at h
      case isTrue hd => exact .inr (.inr ⟨id, share, rfl, hs, hd, (Option.some.inj h).symm⟩)
      case isFalse   => contradiction
    case h_2 => contradiction

namespace WF

theorem of_new : (new shareBytes).WF where
  keyed  := by simp [new]
  live   := by simp [new]
  made h := by simp [new] at h
  own h  := by simp [new] at h

theorem acquire (h : s.WF) (peer : IpAddr) : (s.acquire peer).WF := by
  simp only [IpInFlightShares.acquire]
  split
  case h_1 budgets hl =>
    refine { h with keyed := ?_, live := ?_ }
    · simpa [or_imp, forall_and] using h.keyed
    · simpa [or_imp, forall_and, hl] using h.live
  case h_2 hl =>
    constructor
    case keyed => simpa [or_imp, forall_and] using h.keyed
    case live =>
      intro share hm hd
      rcases List.mem_append.mp hm with hm | hm
      case inl =>
        -- An address that has no entry has no live share either.
        have hl' := h.live share hm hd
        refine AList.lookup_insert_eq_some.mpr (.inr ⟨fun he => ?_, hl'⟩)
        rw [he, hl] at hl'
        contradiction
      case inr =>
        obtain rfl := List.mem_singleton.mp hm
        exact AList.lookup_insert _
    case made =>
      intro ip budgets hb
      rw [List.length_append, List.length_singleton]
      rcases AList.lookup_insert_eq_some.mp hb with ⟨_, rfl⟩ | ⟨_, hb⟩
      · omega
      · exact Nat.lt_succ_of_lt (h.made hb)
    case own =>
      intro ip ip' budgets hb hb'
      rcases AList.lookup_insert_eq_some.mp hb with ⟨rfl, rfl⟩ | ⟨_, hb⟩
      all_goals rcases AList.lookup_insert_eq_some.mp hb' with ⟨rfl, he⟩ | ⟨_, hb'⟩
      · rfl
      · exact absurd (h.made hb') (Nat.lt_irrefl _)
      · exact absurd (he ▸ h.made hb) (Nat.lt_irrefl _)
      · exact h.own hb hb'

theorem drop (h : s.WF) (hs : s.shares[id]? = some share) (hd : share.dropping = false) :
    (s.drop id share).WF where
  keyed other hm := by
    have hk := h.keyed
    simp only [(shares_perm hs).mem_iff, List.forall_mem_cons] at hk
    rcases List.mem_cons.mp ((drop_shares_perm hs).mem_iff.mp hm) with rfl | hm
    · exact hk.left
    · exact hk.right other hm
  live other hm hd' := by
    have hl := h.live share (List.mem_of_getElem? hs) hd
    rcases List.mem_cons.mp ((drop_shares_perm hs).mem_iff.mp hm) with rfl | hm
    case inl => contradiction
    case inr =>
      have hl' := h.live other (List.mem_of_mem_eraseIdx hm) hd'
      rw [IpInFlightShares.drop]
      split
      case isFalse => exact hl'
      case isTrue hc =>
        -- Were the other one of this address, it would have been counted.
        rw [strongCount_eq hs hl] at hc
        refine AList.lookup_erase_eq_some.mpr ⟨fun he => ?_, hl'⟩
        rw [he, hl] at hl'
        have hp := List.countP_pos_iff (p := fun other => other.budgets = share.budgets) |>.mpr
          ⟨other, hm, by simpa using (Option.some.inj hl').symm⟩
        omega
  made hb    := h.made (lookup_drop hb)
  own hb hb' := h.own (lookup_drop hb) (lookup_drop hb')

theorem release (h : s.WF) : (s.release id).WF where
  keyed share hm := h.keyed share (List.mem_of_mem_eraseIdx hm)
  live share hm  := h.live share (List.mem_of_mem_eraseIdx hm)
  made           := h.made
  own            := h.own

-- The last share of an address sees no other reference than the map's and its own.
theorem strongCount_last (h : s.WF) (hs : s.shares[id]? = some share) (hd : share.dropping = false)
    (ha : s.LastAlone (.drop id))
    (hlast : ∀ rest ∈ s.shares.eraseIdx id, rest.dropping = false → rest.ip ≠ share.ip) :
    s.strongCount share.budgets = 2 := by
  have hown := h.live share (List.mem_of_getElem? hs) hd
  rw [strongCount_eq hs hown, List.countP_eq_zero.mpr, List.countP_eq_zero.mpr]
  · intro rest hm heq
    have heq : rest.budgets = share.budgets := by simpa using heq
    cases hr : rest.dropping
    case false =>
      have hl := h.live rest (List.mem_of_mem_eraseIdx hm) hr
      exact hlast rest hm hr (h.own (heq ▸ hl) hown)
    case true =>
      obtain ⟨rest, hm, hr, he⟩ := ha share hs rest hm hr heq
      exact hlast rest hm hr he
  · intro entry hm heq
    have heq : entry.2 = share.budgets := by simpa using heq
    obtain ⟨hne, hl⟩ := AList.lookup_erase_eq_some.mp (AList.lookup_of_mem hm)
    exact hne (h.own (heq ▸ hl) hown)

theorem exec (h : s.WF) (he : s.exec e = some s') : s'.WF := by
  rcases exec_cases he with
    ⟨peer, rfl, rfl⟩ | ⟨id, share, rfl, hs, hd, rfl⟩ | ⟨id, share, _, _, _, rfl⟩
  · exact h.acquire peer
  · exact h.drop hs hd
  · exact h.release

end WF

namespace Connected

theorem of_new : (new shareBytes).Connected := by
  intro ip budgets h
  simp [new] at h

theorem acquire (h : s.Connected) (peer : IpAddr) : (s.acquire peer).Connected := by
  simp only [IpInFlightShares.acquire]
  split
  all_goals intro ip budgets hl
  case h_1 =>
    obtain ⟨share, hm, hs⟩ := h _ _ hl
    exact ⟨share, List.mem_append_left _ hm, hs⟩
  case h_2 =>
    rcases AList.lookup_insert_eq_some.mp hl with ⟨rfl, rfl⟩ | ⟨_, hl⟩
    case inl => exact ⟨_, List.mem_append_right _ (.head _), rfl, rfl⟩
    case inr =>
      obtain ⟨share, hm, hs⟩ := h _ _ hl
      exact ⟨share, List.mem_append_left _ hm, hs⟩

theorem drop (h : s.Connected) (hw : s.WF) (hs : s.shares[id]? = some share)
    (hd : share.dropping = false) (ha : s.LastAlone (.drop id)) : (s.drop id share).Connected := by
  intro ip budgets hl
  obtain ⟨other, hm, hd', rfl⟩ := h _ _ (lookup_drop hl)
  rcases List.mem_cons.mp ((shares_perm hs).mem_iff.mp hm) with rfl | hm
  case inr => exact ⟨other, (drop_shares_perm hs).mem_iff.mpr (.tail _ hm), hd', rfl⟩
  case inl =>
    by_contra hn
    have hc := hw.strongCount_last hs hd ha fun rest hm hr he =>
      hn ⟨rest, (drop_shares_perm hs).mem_iff.mpr (.tail _ hm), hr, he⟩
    rw [IpInFlightShares.drop, if_pos hc.le] at hl
    exact (AList.lookup_erase_eq_some.mp hl).left rfl

theorem release (h : s.Connected) (hs : s.shares[id]? = some share) (hd : share.dropping = true) :
    (s.release id).Connected := by
  intro ip budgets hl
  obtain ⟨other, hm, hd', he⟩ := h _ _ hl
  rcases List.mem_cons.mp ((shares_perm hs).mem_iff.mp hm) with rfl | hm
  · simp [hd] at hd'
  · exact ⟨other, hm, hd', he⟩

theorem exec (h : s.Connected) (hw : s.WF) (ha : s.LastAlone e) (he : s.exec e = some s') :
    s'.Connected := by
  rcases exec_cases he with
    ⟨peer, rfl, rfl⟩ | ⟨id, share, rfl, hs, hd, rfl⟩ | ⟨id, share, _, hs, hd, rfl⟩
  · exact h.acquire peer
  · exact h.drop hw hs hd ha
  · exact h.release hs hd

end Connected

namespace Run

theorem wf (h : Run Allowed shareBytes s) : s.WF := by
  induction h
  case new          => exact .of_new
  case step he hi   => exact hi.exec he

theorem connected (h : Run LastAlone shareBytes s) : s.Connected := by
  induction h
  case new             => exact .of_new
  case step hr ha he hi => exact hi.exec hr.wf ha he

theorem entry_while_connected (h : Run LastAlone shareBytes s) :
    (∀ share ∈ s.shares, share.dropping = false →
      s.budgets.lookup (perIpKey share.peer) = some share.budgets) ∧
    (∀ share ∈ s.shares, ∀ other ∈ s.shares, share.dropping = false → other.dropping = false →
      perIpKey share.peer = perIpKey other.peer → share.budgets = other.budgets) ∧
    ∀ ip, (∀ share ∈ s.shares, perIpKey share.peer ≠ ip) → s.budgets.lookup ip = none := by
  have hlive : ∀ share ∈ s.shares, share.dropping = false →
      s.budgets.lookup (perIpKey share.peer) = some share.budgets := by
    intro share hm hd
    rw [← h.wf.keyed share hm]
    exact h.wf.live share hm hd
  refine ⟨hlive, fun share hm other hm' hd hd' he => ?_, fun ip hn => ?_⟩
  · have hl := hlive share hm hd
    rw [he, hlive other hm' hd'] at hl
    exact (Option.some.inj hl).symm
  · by_contra hl
    obtain ⟨budgets, hl⟩ := Option.ne_none_iff_exists'.mp hl
    obtain ⟨share, hm, _, he⟩ := h.connected ip budgets hl
    exact hn share hm (h.wf.keyed share hm ▸ he)

-- Two addresses of one /64 prefix, whose connections end one after the other.
theorem entry_while_connected_of_subnet :
    ∃ s, Run LastAlone 16 s ∧ s.allocated.length = 1 ∧ s.shares = [] ∧
      s.budgets.lookup (.v6 (1 <<< 64)) = none := by
  have h : Run LastAlone 16 _ := .step (e := .release 0) (.step (e := .drop 0) (.step
    (e := .release 0) (.step (e := .drop 0) (.step (e := .acquire (.v6 (1 <<< 64 + 2))) (.step
      (e := .acquire (.v6 (1 <<< 64 + 1))) .new (by decide) rfl) (by decide) rfl) (by decide) rfl)
      (by decide) rfl) (by decide) rfl) (by decide) rfl
  exact ⟨_, h, rfl, rfl, h.entry_while_connected.right.right _ (by decide)⟩

-- Both hooks run before either of the references is released, so that both of them count three.
theorem entry_without_connection :
    ∃ s, Run (fun _ _ => True) 16 s ∧ s.shares = [] ∧ s.budgets.lookup (.v4 7) = some 0 := by
  have h : Run (fun _ _ => True) 16 _ := .step (e := .release 0) (.step (e := .release 0) (.step
    (e := .drop 1) (.step (e := .drop 0) (.step (e := .acquire (.v4 7)) (.step
      (e := .acquire (.v4 7)) .new trivial rfl) trivial rfl) trivial rfl) trivial rfl) trivial rfl)
      trivial rfl
  exact ⟨_, h, rfl, rfl⟩

end Run

end IpInFlightShares
end Nanocached.Proxy
