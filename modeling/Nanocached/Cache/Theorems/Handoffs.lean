import Nanocached.Cache.Theorems.Tombstones

-- What the calls tell a pass that reclaims entries: how many handoffs were ahead of the ring, and
-- which entries are alive.

namespace Nanocached
namespace Cache

variable {sha256 : Bytes → Vector UInt8 32} {s s' : Cache} {now : Instant} {op : Op} {r : Response}
         {key : Key}

theorem handoffs_forgetTombstoneIfStamped {stamped : Instant} :
    (s.forgetTombstoneIfStamped key stamped).2.handoffs = s.handoffs := by
  unfold forgetTombstoneIfStamped
  split <;> rfl

theorem handoffs_pruneTombstonesGo {order : List (Instant × Key)} :
    (pruneTombstonesGo now order s).handoffs = s.handoffs := by
  induction order generalizing s
  case nil => rfl
  case cons item order hi =>
    rw [pruneTombstonesGo]
    split
    · rfl
    · exact hi.trans handoffs_forgetTombstoneIfStamped

theorem handoffs_forgetOldestTombstoneGo {order : List (Instant × Key)} :
    (forgetOldestTombstoneGo order s).handoffs = s.handoffs := by
  induction order generalizing s
  case nil => rfl
  case cons item order hi =>
    have hf := @handoffs_forgetTombstoneIfStamped s item.2 item.1
    rw [forgetOldestTombstoneGo]
    split
    case h_1 he =>
      rw [he] at hf
      exact hf
    case h_2 he =>
      rw [he] at hf
      exact hi.trans hf

theorem handoffs_tombstone : (s.tombstone key now).handoffs = s.handoffs := by
  have hp : (s.pruneTombstones now).handoffs = s.handoffs := handoffs_pruneTombstonesGo
  have hf : (if (s.pruneTombstones now).handoffTombstones.size ≥ maxHandoffTombstones then
      (s.pruneTombstones now).forgetOldestTombstone else s.pruneTombstones now).handoffs =
        s.handoffs := by
    split
    · exact handoffs_forgetOldestTombstoneGo.trans hp
    · exact hp
  unfold tombstone
  dsimp only
  generalize (if (s.pruneTombstones now).handoffTombstones.size ≥ maxHandoffTombstones then _
    else _) = s₁ at hf ⊢
  split <;> exact hf

-- A call that hands off a value ahead of the ring is counted, and no other.
theorem handoffs_of_exec (h : s.WF sha256) (he : exec sha256 s now op = some (r, s')) :
    s'.handoffs = (s.noteHandoff now op.isCounted).handoffs := by
  cases tombstoneStep_exec h he
  case keeps hk => exact hk.handoffs
  case sweeps hop hk =>
    rw [hop]
    exact hk.handoffs.trans handoffs_pruneTombstonesGo
  case buries s₁ key _ hk hs =>
    rw [hs]
    exact handoffs_tombstone.trans hk.handoffs
  case clears hop _ _ hh =>
    rw [hop]
    exact hh

-- No entry comes back to life unless it is written.
theorem live_of_exec (h : s.WF sha256) (he : exec sha256 s now op = some (r, s'))
    (hw : ¬(Event.mk now op r).Writes key) (hl : (s'.contents.live now key).isSome) :
    (s.contents.live now key).isSome := by
  obtain ⟨cs, hs, hc, _⟩ := (outcome_of_exec h he).changes
  obtain ⟨ha, hcs⟩ := hs.contents h
  rw [hcs] at hl
  exact Contents.live_of_applyAll ha (fun value expiresAt hm => hw (hc _ hm))
    (fun expiresAt hm => hc _ hm) hl

section Reclaim

variable {owned : Key → Bool} {keys : List Key} {n n' : Nat}

theorem live_of_reclaimGo (h : s.WF sha256) (he : reclaimGo owned keys n s = some (n', s'))
    (hl : (s'.contents.live now key).isSome) : (s.contents.live now key).isSome := by
  obtain ⟨unowned, m, s₁, he₁, hs, _⟩ := reclaimGo_steps h owned keys n
  cases he.symm.trans he₁
  obtain ⟨ha, hc⟩ := hs.contents h
  rw [hc] at hl
  refine Contents.live_of_applyAll ha (fun value expiresAt hm => ?_) (fun expiresAt hm => ?_) hl
  · simp at hm
  · simp at hm

-- What is left of the given keys is owned.
theorem owned_of_reclaimGo (h : s.WF sha256) (he : reclaimGo owned keys n s = some (n', s'))
    (hk : key ∈ keys) (hl : (s'.contents.live now key).isSome) : owned key := by
  induction keys generalizing s n
  case nil => contradiction
  case cons key' keys hi =>
    rw [reclaimGo] at he
    split at he
    case isTrue hp =>
      obtain ⟨hp, ho⟩ := Bool.and_eq_true_iff.mp hp
      obtain ⟨entry, hp⟩ := Option.isSome_iff_exists.mp hp
      obtain ⟨i, ns, hl', hn, hm, hr⟩ := Store.removeEntry_of_some h hp
      simp only [hr, Option.bind_eq_bind, Option.bind_some] at he
      have hs : Steps sha256 [.discard key'] s _ := discard_steps hl' hn hm
      by_cases hkk : key = key'
      case pos =>
        subst hkk
        have hl := live_of_reclaimGo (hs.wf h) he hl
        rw [(hs.contents h).2] at hl
        simp [Contents.live, Contents.apply] at hl
      case neg => exact hi (hs.wf h) he ((List.mem_cons.mp hk).resolve_left hkk)
    case isFalse hp =>
      by_cases hkk : key = key'
      case pos =>
        subst hkk
        have hl := live_of_reclaimGo h he hl
        have hp' : (s.peek key).isSome := by
          obtain ⟨e, hl⟩ := Option.isSome_iff_exists.mp hl
          have he := Option.isSome_of_mem (Option.filter_eq_some_iff.mp hl).1
          simpa [Store.contents] using he
        simpa [hp'] using hp
      case neg => exact hi h he ((List.mem_cons.mp hk).resolve_left hkk)

theorem reclaimGo_of_owned (ho : ∀ key ∈ keys, owned key) :
    reclaimGo owned keys n s = some (n, s) := by
  induction keys
  case nil => rfl
  case cons key keys hi =>
    have hk := ho key List.mem_cons_self
    rw [reclaimGo]
    simpa [hk] using hi fun key hm => ho key (List.mem_cons_of_mem _ hm)

end Reclaim
end Cache

theorem Contents.live_mono {c : Contents} {key : Key} {now now' : Instant} (h : now ≤ now')
    (hl : (c.live now' key).isSome) : (c.live now key).isSome := by
  obtain ⟨e, he⟩ := Option.isSome_iff_exists.mp hl
  obtain ⟨he, hx⟩ := Option.filter_eq_some_iff.mp he
  refine Option.isSome_iff_exists.mpr ⟨e, Option.filter_eq_some_iff.mpr ⟨he, ?_⟩⟩
  rw [Bool.not_eq_true', ← Bool.not_eq_true] at hx ⊢
  exact fun hx' => hx (Content.isExpiredAt_mono hx' h)

end Nanocached
