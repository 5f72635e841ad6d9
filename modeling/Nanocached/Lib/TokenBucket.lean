import Mathlib

-- A bucket of tokens, of which one comes back per `cooldown` until there are `burst` of them.
structure TokenBucket where
  tokens     : ℕ
  refilledAt : ℕ

namespace TokenBucket

-- Whole refills only. The remainder counts towards the next one, unless the bucket is full.
def refill (burst cooldown now : ℕ) (bucket : TokenBucket) : TokenBucket :=
  let refills := (now - bucket.refilledAt) / cooldown
  if 0 < refills then
    let tokens := min (bucket.tokens + refills) burst
    ⟨tokens, if tokens = burst then now else bucket.refilledAt + cooldown * refills⟩
  else
    bucket

def spend (bucket : TokenBucket) : Bool × TokenBucket :=
  if bucket.tokens = 0 then
    (false, bucket)
  else
    (true, { bucket with tokens := bucket.tokens - 1 })

variable {burst cooldown now t : ℕ} {bucket bucket' : TokenBucket} {grants : List ℕ}

-- All that a refill can do.
theorem refill_cases (hc : 0 < cooldown) (hr : bucket.refilledAt ≤ now) : ∃ n,
    bucket.refilledAt + cooldown * n ≤ now ∧ now < bucket.refilledAt + cooldown * n + cooldown ∧
      (bucket.refill burst cooldown now =
          ⟨bucket.tokens + n, bucket.refilledAt + cooldown * n⟩ ∧
          (n = 0 ∨ bucket.tokens + n < burst) ∨
        bucket.refill burst cooldown now = ⟨burst, now⟩ ∧ burst ≤ bucket.tokens + n) := by
  have hm := Nat.div_add_mod (now - bucket.refilledAt) cooldown
  have hlt := Nat.mod_lt (now - bucket.refilledAt) hc
  generalize hn : (now - bucket.refilledAt) / cooldown = n at hm
  refine ⟨n, by omega, by omega, ?_⟩
  unfold refill
  dsimp only
  rw [hn]
  split
  case isTrue hpos =>
    split
    case isTrue hf => exact .inr ⟨by rw [hf], min_eq_right_iff.mp hf⟩
    case isFalse hf =>
      have hlt : bucket.tokens + n < burst := not_le.mp fun hle => hf (min_eq_right hle)
      exact .inl ⟨by rw [min_eq_left hlt.le], .inr hlt⟩
  case isFalse hz =>
    obtain rfl : n = 0 := by omega
    exact .inl ⟨rfl, .inl rfl⟩

theorem refilledAt_refill (hc : 0 < cooldown) (hr : bucket.refilledAt ≤ now) :
    (bucket.refill burst cooldown now).refilledAt ≤ now ∧
      now < (bucket.refill burst cooldown now).refilledAt + cooldown := by
  obtain ⟨n, hle, hlt, ⟨he, _⟩ | ⟨he, _⟩⟩ := @refill_cases burst cooldown now bucket hc hr
  · rw [he]
    exact ⟨hle, hlt⟩
  · rw [he]
    exact ⟨le_rfl, Nat.lt_add_of_pos_right hc⟩

theorem tokens_refill (hc : 0 < cooldown) (hr : bucket.refilledAt ≤ now)
    (ht : bucket.tokens ≤ burst) : (bucket.refill burst cooldown now).tokens ≤ burst := by
  obtain ⟨n, _, _, ⟨he, hn⟩ | ⟨he, _⟩⟩ := @refill_cases burst cooldown now bucket hc hr
  · rw [he]
    dsimp only
    omega
  · rw [he]

-- The tokens that can be spent until `t`.
def credit (cooldown t : ℕ) (bucket : TokenBucket) : ℕ :=
  bucket.tokens + (t - bucket.refilledAt) / cooldown

theorem credit_refill (hc : 0 < cooldown) (hr : bucket.refilledAt ≤ now) (ht : now ≤ t) :
    (bucket.refill burst cooldown now).credit cooldown t ≤ bucket.credit cooldown t := by
  obtain ⟨n, hle, _, hcases⟩ := @refill_cases burst cooldown now bucket hc hr
  have hdiv (r) (hr : bucket.refilledAt + cooldown * n ≤ r) (hrt : r ≤ t) :
      (t - r) / cooldown + n ≤ (t - bucket.refilledAt) / cooldown := by
    rw [← Nat.add_mul_div_left _ _ hc]
    exact Nat.div_le_div_right (by omega)
  unfold credit
  rcases hcases with ⟨he, _⟩ | ⟨he, hb⟩
  · rw [he]
    have := hdiv _ le_rfl (hle.trans ht)
    dsimp only
    omega
  · rw [he]
    have := hdiv _ hle ht
    dsimp only
    omega

theorem credit_spend (hs : bucket.spend = (true, bucket')) :
    bucket'.credit cooldown t + 1 = bucket.credit cooldown t := by
  unfold spend at hs
  split at hs
  case isTrue     => cases hs
  case isFalse hn =>
    cases hs
    dsimp only [credit]
    omega

theorem eq_of_not_spend (hs : bucket.spend = (false, bucket')) :
    bucket' = bucket ∧ bucket.tokens = 0 := by
  unfold spend at hs
  split at hs
  case isTrue hz =>
    cases hs
    exact ⟨rfl, hz⟩
  case isFalse => cases hs

theorem refilledAt_spend {granted : Bool} (hs : bucket.spend = (granted, bucket')) :
    bucket'.refilledAt = bucket.refilledAt := by
  unfold spend at hs
  split at hs
  all_goals
    cases hs
    rfl

theorem tokens_spend {granted : Bool} (hs : bucket.spend = (granted, bucket')) :
    bucket'.tokens ≤ bucket.tokens := by
  unfold spend at hs
  split at hs
  case isTrue =>
    cases hs
    exact le_rfl
  case isFalse =>
    cases hs
    exact Nat.sub_le _ _

-- What has been granted accounts for the tokens that are missing, also since any given time.
structure Earned (burst cooldown : ℕ) (bucket : TokenBucket) (grants : List ℕ) : Prop where
  all   : burst ≤ bucket.tokens + grants.length
  since : ∀ start, min burst ((bucket.refilledAt + cooldown - start) / cooldown) ≤
            bucket.tokens + grants.countP (start ≤ ·)

namespace Earned

theorem new (hb : 0 < burst) (hc : 0 < cooldown) :
    Earned burst cooldown ⟨burst - 1, now⟩ (grants ++ [now]) where
  all := by
    rw [List.length_append, List.length_singleton]
    dsimp only
    omega
  since start := by
    rw [List.countP_append, List.countP_singleton]
    dsimp only
    by_cases hs : start ≤ now
    case pos =>
      rw [if_pos (decide_eq_true hs)]
      omega
    case neg =>
      rw [Nat.div_eq_of_lt (by omega)]
      omega

theorem refill (h : Earned burst cooldown bucket grants) (hc : 0 < cooldown)
    (hr : bucket.refilledAt ≤ now) :
    Earned burst cooldown (bucket.refill burst cooldown now) grants := by
  obtain ⟨n, _, _, ⟨he, _⟩ | ⟨he, _⟩⟩ := @refill_cases burst cooldown now bucket hc hr
  case inl =>
    rw [he]
    refine ⟨?_, fun start => ?_⟩
    · have := h.all
      dsimp only
      omega
    · have hs := h.since start
      have hle : (bucket.refilledAt + cooldown * n + cooldown - start) / cooldown ≤
          (bucket.refilledAt + cooldown - start) / cooldown + n := by
        rw [← Nat.add_mul_div_left _ _ hc]
        exact Nat.div_le_div_right (by omega)
      dsimp only
      omega
  case inr =>
    rw [he]
    exact ⟨Nat.le_add_right _ _, fun start => (min_le_left _ _).trans (Nat.le_add_right _ _)⟩

theorem spend (h : Earned burst cooldown bucket grants) (hc : 0 < cooldown)
    (hr : bucket.refilledAt ≤ now) (hs : bucket.spend = (true, bucket')) :
    Earned burst cooldown bucket' (grants ++ [now]) := by
  unfold TokenBucket.spend at hs
  split at hs
  case isTrue => cases hs
  case isFalse hn =>
    cases hs
    refine ⟨?_, fun start => ?_⟩
    · have := h.all
      rw [List.length_append, List.length_singleton]
      dsimp only
      omega
    · have hs := h.since start
      rw [List.countP_append, List.countP_singleton]
      dsimp only
      by_cases hst : start ≤ now
      case pos =>
        rw [if_pos (decide_eq_true hst)]
        omega
      case neg =>
        rw [Nat.div_eq_of_lt (by omega)]
        omega

-- An empty bucket has had its burst spent recently.
theorem of_tokens_eq_zero (h : Earned burst cooldown bucket grants) (hc : 0 < cooldown)
    (hz : bucket.tokens = 0) (hlt : now < bucket.refilledAt + cooldown) :
    burst ≤ grants.countP fun grant => now < grant + burst * cooldown := by
  by_cases hw : burst * cooldown ≤ now + 1
  case pos =>
    have hs := h.since (now + 1 - burst * cooldown)
    have hb : burst ≤
        (bucket.refilledAt + cooldown - (now + 1 - burst * cooldown)) / cooldown := by
      rw [Nat.le_div_iff_mul_le hc]
      omega
    rw [min_eq_left hb, hz, Nat.zero_add] at hs
    refine hs.trans (List.countP_mono_left fun grant _ hg => ?_)
    have hg := of_decide_eq_true hg
    exact decide_eq_true (by omega)
  case neg =>
    have ha := h.all
    rw [hz, Nat.zero_add] at ha
    refine ha.trans (List.countP_eq_length.mpr fun grant _ => ?_).ge
    exact decide_eq_true (by omega)

end Earned
end TokenBucket
