import Nanocached.Discovery.Limiter
import Nanocached.Lib.TokenBucket

-- The limiter of announces is a token bucket for each source.

namespace Nanocached.Discovery

-- The longest duration, whose seconds are an unsigned 64-bit integer.
def maxDuration : Duration :=
  fromSecs (2 ^ 64) - 1

def checkedMul (duration : Duration) (n : Nat) : Option Duration :=
  if duration * n ≤ maxDuration then some (duration * n) else none

namespace AnnounceBucket

def bucket (b : AnnounceBucket) : TokenBucket :=
  ⟨b.tokens, b.refilledAt⟩

-- The refill with the arithmetic of the source, which fails if it overflows.
def refilledChecked (bucket : AnnounceBucket) (now : Instant) : Option AnnounceBucket := do
  let refills := min (durationSince now bucket.refilledAt / announceInsertCooldown) (2 ^ 32 - 1)
  if 0 < refills then
    let tokens := min (min (bucket.tokens + refills) (2 ^ 32 - 1)) announceInsertBurst
    let refilledAt ←
      if tokens = announceInsertBurst then pure now
      else checkedAdd bucket.refilledAt (← checkedMul announceInsertCooldown refills)
    return { bucket with tokens, refilledAt }
  else
    return bucket

variable {b : AnnounceBucket} {now : Instant}

-- More refills than fit into 32 bits fill the bucket as well.
theorem bucket_refilled : (b.refilled now).bucket =
    b.bucket.refill announceInsertBurst announceInsertCooldown now := by
  unfold refilled TokenBucket.refill bucket durationSince
  dsimp only
  obtain ⟨n, hq⟩ : ∃ n : Nat, (now - b.refilledAt) / announceInsertCooldown = n := ⟨_, rfl⟩
  rw [hq]
  have hb : announceInsertBurst = 64 := rfl
  by_cases hn : n ≤ 2 ^ 32 - 1
  case pos =>
    have ht : min (min (b.tokens + n) (2 ^ 32 - 1)) announceInsertBurst =
        min (b.tokens + n) announceInsertBurst := by omega
    rw [min_eq_left hn, ht]
    split <;> rfl
  case neg =>
    have ht : min (min (b.tokens + (2 ^ 32 - 1)) (2 ^ 32 - 1)) announceInsertBurst =
        announceInsertBurst := by omega
    have ht' : min (b.tokens + n) announceInsertBurst = announceInsertBurst := by omega
    rw [min_eq_right (not_le.mp hn).le, ht, ht', if_pos (show 0 < 2 ^ 32 - 1 by decide),
      if_pos (show 0 < n by omega), if_pos rfl, if_pos rfl]

theorem refilledChecked_eq (hr : b.refilledAt ≤ now) (hn : now ≤ maxInstant) :
    b.refilledChecked now = some (b.refilled now) := by
  unfold refilledChecked refilled durationSince
  have hle := Nat.mul_div_le (now - b.refilledAt) announceInsertCooldown
  dsimp only
  obtain ⟨n, hq⟩ : ∃ n : Nat, (now - b.refilledAt) / announceInsertCooldown = n := ⟨_, rfl⟩
  rw [hq] at hle ⊢
  split
  case isFalse => rfl
  case isTrue hpos =>
    split
    case isTrue => rfl
    case isFalse hf =>
      -- Fewer refills than the burst are due.
      have hb : announceInsertBurst = 64 := rfl
      have hlt : n < 64 := by omega
      have hmin : min n (2 ^ 32 - 1) = n := by omega
      have hmul : announceInsertCooldown * n ≤ maxDuration :=
        (Nat.mul_le_mul_left _ hlt.le).trans (by decide)
      have hadd : b.refilledAt + announceInsertCooldown * n ≤ maxInstant :=
        ((Nat.add_le_add_left hle _).trans (Nat.add_sub_of_le hr).le).trans hn
      rw [hmin, checkedMul, if_pos hmul, Option.bind_eq_bind, Option.bind_some, checkedAdd,
        if_pos hadd]
      rfl

end AnnounceBucket

namespace AnnounceLimiter

structure Call where
  source : Bytes
  now    : Instant
  order  : IterOrder (Sigma fun _ : Bytes => AnnounceBucket)

-- Whether the call is allowed, and the limiter after it.
def exec (limiter : AnnounceLimiter) (call : Call) : Bool × AnnounceLimiter :=
  announceInsertAllowed limiter call.source call.now call.order

def after (limiter : AnnounceLimiter) (calls : List Call) : AnnounceLimiter :=
  calls.foldl (fun limiter call => (exec limiter call).2) limiter

-- When calls for the source were allowed.
def grants (source : Bytes) (limiter : AnnounceLimiter) : List Call → List Instant
  | []            => []
  | call :: calls =>
    let (allowed, limiter) := exec limiter call
    if call.source = source ∧ allowed then
      call.now :: grants source limiter calls
    else
      grants source limiter calls

-- No call evicts the bucket of the source.
def Spares (source : Bytes) (limiter : AnnounceLimiter) : List Call → Prop
  | []            => True
  | call :: calls =>
    (source ∈ limiter → source ∈ (exec limiter call).2) ∧ Spares source (exec limiter call).2 calls

def Timely (calls : List Call) : Prop :=
  (calls.map Call.now).Pairwise (· ≤ ·) ∧ ∀ call ∈ calls, call.now ≤ maxInstant

variable {limiter limiter' : AnnounceLimiter} {call : Call} {calls : List Call} {source : Bytes}
         {b b' : AnnounceBucket}

theorem exec_of_lookup (h : limiter.lookup call.source = some b) : ∃ b',
    (b.bucket.refill announceInsertBurst announceInsertCooldown call.now).spend =
      ((exec limiter call).1, b'.bucket) ∧
    (exec limiter call).2 = limiter.insert call.source b' := by
  rw [← AnnounceBucket.bucket_refilled, TokenBucket.spend]
  simp only [exec, announceInsertAllowed, h]
  by_cases hz : (b.refilled call.now).tokens = 0
  case pos =>
    have hz' : (b.refilled call.now).bucket.tokens = 0 := hz
    rw [if_pos hz, if_pos hz']
    exact ⟨{ b.refilled call.now with lastSeen := call.now }, rfl, rfl⟩
  case neg =>
    have hz' : (b.refilled call.now).bucket.tokens ≠ 0 := hz
    rw [if_neg hz, if_neg hz']
    exact ⟨_, rfl, rfl⟩

def withRoom (limiter : AnnounceLimiter)
    (order : IterOrder (Sigma fun _ : Bytes => AnnounceBucket)) : AnnounceLimiter :=
  if maxAnnounceLimiterEntries ≤ limiter.size then
    match (order.apply limiter.entries).argmin (·.2.lastSeen) with
    | some oldest => limiter.erase oldest.1
    | none        => limiter
  else
    limiter

theorem exec_of_notMem (h : call.source ∉ limiter) : exec limiter call =
    (true, (withRoom limiter call.order).insert call.source
      ⟨announceInsertBurst - 1, call.now, call.now⟩) := by
  simp only [exec, announceInsertAllowed, AList.lookup_eq_none.mpr h]
  rfl

theorem lookup_withRoom {order : IterOrder (Sigma fun _ : Bytes => AnnounceBucket)}
    (h : (withRoom limiter order).lookup source = some b) : limiter.lookup source = some b := by
  unfold withRoom at h
  split at h
  case isTrue =>
    split at h
    · exact (AList.lookup_erase_eq_some.mp h).2
    · exact h
  case isFalse => exact h

theorem size_withRoom {order : IterOrder (Sigma fun _ : Bytes => AnnounceBucket)}
    (h : limiter.size ≤ maxAnnounceLimiterEntries) :
    (withRoom limiter order).size < maxAnnounceLimiterEntries := by
  unfold withRoom
  split
  case isFalse hlt => exact not_le.mp hlt
  case isTrue hle =>
    split
    case h_1 oldest ho =>
      have hm := (order.perm _).mem_iff.mp (List.argmin_mem ho)
      have hs := AList.size_erase_of_lookup (AList.lookup_of_mem hm)
      omega
    case h_2 ho =>
      have hn : order.apply limiter.entries = [] := List.argmin_eq_none.mp ho
      have hl := (order.perm limiter.entries).length_eq
      rw [hn] at hl
      have : limiter.size = 0 := hl.symm
      exact absurd (this ▸ hle) (by decide)

-- The time at which the call is allowed, if it is one for the source.
def granted (limiter : AnnounceLimiter) (call : Call) (source : Bytes) : List Instant :=
  if call.source = source ∧ (exec limiter call).1 then [call.now] else []

theorem grants_cons : grants source limiter (call :: calls) =
    granted limiter call source ++ grants source (exec limiter call).2 calls := by
  rw [grants, granted]
  dsimp only
  split <;> rfl

theorem grants_concat : grants source limiter (calls ++ [call]) =
    grants source limiter calls ++ granted (after limiter calls) call source := by
  induction calls generalizing limiter
  case nil              => simp [grants_cons, grants, after]
  case cons call' _ hi => rw [List.cons_append, grants_cons, hi, grants_cons, List.append_assoc]; rfl

theorem granted_of_ne (h : call.source ≠ source) : granted limiter call source = [] :=
  if_neg fun hs => h hs.1

theorem cooldown_pos : 0 < announceInsertCooldown := by
  decide

theorem burst_pos : 0 < announceInsertBurst := by
  decide

-- What is known about the buckets at the latest call, given what was granted so far.
structure Sound (limiter : AnnounceLimiter) (now : Instant) (grants : Bytes → List Instant) :
    Prop where
  size   : limiter.size ≤ maxAnnounceLimiterEntries
  past   : ∀ {source b}, limiter.lookup source = some b → b.refilledAt ≤ now
  tokens : ∀ {source b}, limiter.lookup source = some b → b.tokens ≤ announceInsertBurst
  earned : ∀ {source b}, limiter.lookup source = some b →
             TokenBucket.Earned announceInsertBurst announceInsertCooldown b.bucket (grants source)

namespace Sound

variable {now : Instant} {grants : Bytes → List Instant}

theorem empty : Sound ∅ now fun _ => [] where
  size      := Nat.zero_le _
  past h    := by contradiction
  tokens h  := by contradiction
  earned h  := by contradiction

-- A bucket which the call has put into its place.
theorem insert (h : Sound limiter now grants) (hn : now ≤ call.now)
    (hl : ∀ {source b}, limiter'.lookup source = some b → limiter.lookup source = some b)
    (hs : (limiter'.insert call.source b).size ≤ maxAnnounceLimiterEntries)
    (hp : b.refilledAt ≤ call.now) (ht : b.tokens ≤ announceInsertBurst)
    (he : TokenBucket.Earned announceInsertBurst announceInsertCooldown b.bucket
      (grants call.source ++ granted limiter call call.source)) :
    Sound (limiter'.insert call.source b) call.now fun source =>
      grants source ++ granted limiter call source := by
  constructor
  case size => exact hs
  all_goals
    intro source b' hb'
    rw [AList.lookup_insert_eq_ite] at hb'
    split at hb'
  case past.isTrue    => cases hb'; exact hp
  case past.isFalse   => exact (h.past (hl hb')).trans hn
  case tokens.isTrue  => cases hb'; exact ht
  case tokens.isFalse => exact h.tokens (hl hb')
  case earned.isTrue hsource =>
    cases hb'
    rw [hsource]
    exact he
  case earned.isFalse hne =>
    rw [granted_of_ne (Ne.symm hne), List.append_nil]
    exact h.earned (hl hb')

theorem exec (h : Sound limiter now grants) (hn : now ≤ call.now) :
    Sound (exec limiter call).2 call.now fun source =>
      grants source ++ granted limiter call source := by
  by_cases hm : call.source ∈ limiter
  case neg =>
    have he : granted limiter call call.source = [call.now] := by
      simp [granted, exec_of_notMem hm]
    rw [exec_of_notMem hm]
    refine h.insert hn lookup_withRoom ?_ le_rfl (Nat.sub_le _ _) ?_
    · have hn' : call.source ∉ withRoom limiter call.order := fun hm' => by
        obtain ⟨b, hb⟩ := AList.exists_lookup_of_mem hm'
        exact hm (AList.mem_of_lookup (lookup_withRoom hb))
      rw [AList.size_insert_of_notMem hn']
      exact size_withRoom h.size
    · rw [he]
      exact .new burst_pos cooldown_pos
  case pos =>
    obtain ⟨b, hb⟩ := AList.exists_lookup_of_mem hm
    obtain ⟨b', hs, he⟩ := exec_of_lookup hb
    have hr : b.bucket.refilledAt ≤ call.now := (h.past hb).trans hn
    have hr' := @TokenBucket.refilledAt_refill announceInsertBurst _ _ _ cooldown_pos hr
    have ht' := TokenBucket.tokens_refill cooldown_pos hr (h.tokens hb)
    have hearned := (h.earned hb).refill cooldown_pos hr
    rw [he]
    refine h.insert hn id ?_ ?_ ?_ ?_
    · rw [AList.size_insert_of_lookup hb]
      exact h.size
    · exact (TokenBucket.refilledAt_spend hs).le.trans hr'.1
    · exact (TokenBucket.tokens_spend hs).trans ht'
    · cases ha : (AnnounceLimiter.exec limiter call).1
      case false =>
        rw [ha] at hs
        obtain ⟨hb', _⟩ := TokenBucket.eq_of_not_spend hs
        rw [hb', granted, if_neg (by simp [ha]), List.append_nil]
        exact hearned
      case true =>
        rw [ha] at hs
        rw [granted, if_pos ⟨rfl, ha⟩]
        exact hearned.spend cooldown_pos hr'.1 hs

theorem mono {now' : Instant} (h : Sound limiter now grants) (hn : now ≤ now') :
    Sound limiter now' grants :=
  { h with past := fun hb => (h.past hb).trans hn }

theorem after (ht : (calls.map Call.now).Pairwise (· ≤ ·)) (hn : ∀ call ∈ calls, call.now ≤ now) :
    Sound (after ∅ calls) now fun source => AnnounceLimiter.grants source ∅ calls := by
  induction calls using List.reverseRecOn generalizing now
  case nil => exact .empty
  case append_singleton calls call hi =>
    rw [List.map_append, List.pairwise_append] at ht
    have hi := hi ht.1 fun call' hm => ht.2.2 _ (List.mem_map_of_mem hm) _ List.mem_cons_self
    have he := (hi.exec le_rfl).mono (hn call (by simp))
    rw [AnnounceLimiter.after, List.foldl_append]
    simp only [grants_concat]
    exact he

end Sound

theorem lookup_exec_of_ne (h : call.source ≠ source) (hb : limiter.lookup source = some b)
    (hm : source ∈ (exec limiter call).2) : (exec limiter call).2.lookup source = some b := by
  by_cases hc : call.source ∈ limiter
  case pos =>
    obtain ⟨b', hb'⟩ := AList.exists_lookup_of_mem hc
    obtain ⟨_, _, he⟩ := exec_of_lookup hb'
    rw [he, AList.lookup_insert_ne h.symm]
    exact hb
  case neg =>
    obtain ⟨b', hb'⟩ := AList.exists_lookup_of_mem hm
    rw [hb']
    rw [exec_of_notMem hc, AList.lookup_insert_ne h.symm] at hb'
    exact (lookup_withRoom hb').symm.trans hb

theorem notMem_exec_of_ne (h : call.source ≠ source) (hn : source ∉ limiter) :
    source ∉ (exec limiter call).2 := by
  intro hm
  by_cases hc : call.source ∈ limiter
  case pos =>
    obtain ⟨b', hb'⟩ := AList.exists_lookup_of_mem hc
    obtain ⟨_, _, he⟩ := exec_of_lookup hb'
    rw [he, AList.mem_insert] at hm
    exact hn (hm.resolve_left h.symm)
  case neg =>
    rw [exec_of_notMem hc, AList.mem_insert] at hm
    obtain ⟨b, hb⟩ := AList.exists_lookup_of_mem (hm.resolve_left h.symm)
    exact hn (AList.mem_of_lookup (lookup_withRoom hb))

theorem grants_cons_le {until_ : Instant} (hb : limiter.lookup call.source = some b)
    (hr : b.refilledAt ≤ call.now)
    (hi : ∀ b', (exec limiter call).2.lookup call.source = some b' → b'.refilledAt ≤ call.now →
      (grants call.source (exec limiter call).2 calls).length ≤
        b'.bucket.credit announceInsertCooldown until_) :
    (grants call.source limiter (call :: calls)).length ≤
      (b.bucket.refill announceInsertBurst announceInsertCooldown call.now).credit
        announceInsertCooldown until_ := by
  obtain ⟨b', hs, he⟩ := exec_of_lookup hb
  have hb' : (exec limiter call).2.lookup call.source = some b' := by
    rw [he]
    exact AList.lookup_insert _
  have hr' : b'.refilledAt ≤ call.now :=
    (TokenBucket.refilledAt_spend hs).le.trans (TokenBucket.refilledAt_refill cooldown_pos hr).1
  have hrest := hi b' hb' hr'
  rw [grants_cons, List.length_append]
  cases ha : (exec limiter call).1
  case false =>
    rw [ha] at hs
    rw [(TokenBucket.eq_of_not_spend hs).1] at hrest
    rw [granted, if_neg (by simp [ha])]
    simpa using hrest
  case true =>
    rw [ha] at hs
    have hone := @TokenBucket.credit_spend announceInsertCooldown until_ _ _ hs
    rw [granted, if_pos ⟨rfl, ha⟩, List.length_singleton]
    omega

theorem grants_le_credit {now until_ : Instant} (hb : limiter.lookup source = some b)
    (hr : b.refilledAt ≤ now) (ht : (now :: calls.map Call.now).Pairwise (· ≤ ·))
    (hu : ∀ call ∈ calls, call.now ≤ until_) (hs : Spares source limiter calls) :
    (grants source limiter calls).length ≤ b.bucket.credit announceInsertCooldown until_ := by
  induction calls generalizing limiter b now
  case nil => exact Nat.zero_le _
  case cons call calls hi =>
    obtain ⟨hn, ht⟩ := List.pairwise_cons.mp ht
    have hle : b.bucket.refilledAt ≤ call.now := hr.trans (hn _ List.mem_cons_self)
    have hu' : ∀ call ∈ calls, call.now ≤ until_ := fun call hm => hu call (.tail _ hm)
    by_cases hc : call.source = source
    case neg =>
      have hb' := lookup_exec_of_ne hc hb (hs.1 (AList.mem_of_lookup hb))
      rw [grants_cons, granted_of_ne hc]
      exact hi hb' hle ht hu' hs.2
    case pos =>
      subst hc
      have hcons := grants_cons_le hb hle fun b' hb' hr' => hi hb' hr' ht hu' hs.2
      exact hcons.trans (TokenBucket.credit_refill cooldown_pos hle (hu call List.mem_cons_self))

theorem grants_le {start until_ : Instant}
    (hb : ∀ b, limiter.lookup source = some b →
      b.refilledAt ≤ start ∧ b.tokens ≤ announceInsertBurst)
    (ht : (calls.map Call.now).Pairwise (· ≤ ·))
    (hc : ∀ call ∈ calls, start ≤ call.now ∧ call.now ≤ until_)
    (hs : Spares source limiter calls) :
    (grants source limiter calls).length ≤
      announceInsertBurst + (until_ - start) / announceInsertCooldown + 1 := by
  induction calls generalizing limiter
  case nil => exact Nat.zero_le _
  case cons call calls hi =>
    obtain ⟨hn, ht'⟩ := List.pairwise_cons.mp ht
    obtain ⟨hstart, huntil⟩ := hc call List.mem_cons_self
    have hc' : ∀ call ∈ calls, start ≤ call.now ∧ call.now ≤ until_ :=
      fun call hm => hc call (.tail _ hm)
    have hu' : ∀ call ∈ calls, call.now ≤ until_ := fun call hm => (hc' call hm).2
    by_cases hcs : call.source = source
    case neg =>
      rw [grants_cons, granted_of_ne hcs, List.nil_append]
      refine hi (fun b hl => ?_) ht' hc' hs.2
      by_cases hm : source ∈ limiter
      case pos =>
        obtain ⟨b', hl'⟩ := AList.exists_lookup_of_mem hm
        have he := lookup_exec_of_ne hcs hl' (hs.1 hm)
        cases hl.symm.trans he
        exact hb b hl'
      case neg => exact absurd (AList.mem_of_lookup hl) (notMem_exec_of_ne hcs hm)
    case pos =>
      subst hcs
      by_cases hm : call.source ∈ limiter
      case pos =>
        obtain ⟨b, hl⟩ := AList.exists_lookup_of_mem hm
        obtain ⟨hr, htok⟩ := hb b hl
        have hr' : b.bucket.refilledAt ≤ call.now := hr.trans hstart
        have hcons := grants_cons_le hl hr' fun b' hb' hr' =>
          grants_le_credit hb' hr' ht hu' hs.2
        have htok' := TokenBucket.tokens_refill cooldown_pos hr' htok
        have hlt := (@TokenBucket.refilledAt_refill announceInsertBurst _ _ _ cooldown_pos hr').2
        generalize b.bucket.refill announceInsertBurst announceInsertCooldown call.now = bucket
          at hcons htok' hlt
        have hdiv : (until_ - bucket.refilledAt) / announceInsertCooldown ≤
            (until_ - start) / announceInsertCooldown + 1 := by
          rw [← Nat.add_div_right _ cooldown_pos]
          exact Nat.div_le_div_right (by dsimp only [Instant, Duration] at *; omega)
        exact (hcons.trans (Nat.add_le_add htok' hdiv)).trans (Nat.add_assoc ..).ge
      case neg =>
        have hl : (exec limiter call).2.lookup call.source =
            some ⟨announceInsertBurst - 1, call.now, call.now⟩ := by
          rw [exec_of_notMem hm]
          exact AList.lookup_insert _
        have hrest := grants_le_credit hl le_rfl ht hu' hs.2
        have hdiv : (until_ - call.now) / announceInsertCooldown ≤
            (until_ - start) / announceInsertCooldown :=
          Nat.div_le_div_right (Nat.sub_le_sub_left hstart _)
        have hone : (granted limiter call call.source).length ≤ 1 := by
          rw [granted]
          split <;> simp
        rw [grants_cons, List.length_append]
        calc _ ≤ 1 + (announceInsertBurst - 1 + (until_ - start) / announceInsertCooldown) :=
                 Nat.add_le_add hone (hrest.trans (Nat.add_le_add_left hdiv _))
             _ = announceInsertBurst + (until_ - start) / announceInsertCooldown := by
                 rw [← Nat.add_assoc, Nat.add_sub_of_le burst_pos]
             _ ≤ _ := Nat.le_succ _

theorem Timely.sound (h : Timely (calls ++ [call])) :
    Sound (after ∅ calls) call.now fun source => grants source ∅ calls := by
  have ht := h.1
  rw [List.map_append, List.pairwise_append] at ht
  exact .after ht.1 fun call' hm => ht.2.2 _ (List.mem_map_of_mem hm) _ List.mem_cons_self

theorem denied_of_spent (h : Timely (calls ++ [call]))
    (hd : (exec (after ∅ calls) call).1 = false) : announceInsertBurst ≤
      (grants call.source ∅ calls).countP fun grant =>
        call.now < grant + announceInsertBurst * announceInsertCooldown := by
  have hs := h.sound
  by_cases hm : call.source ∈ after ∅ calls
  case neg =>
    rw [exec_of_notMem hm] at hd
    contradiction
  case pos =>
    obtain ⟨b, hb⟩ := AList.exists_lookup_of_mem hm
    obtain ⟨b', hsp, _⟩ := exec_of_lookup hb
    have hr : b.bucket.refilledAt ≤ call.now := hs.past hb
    rw [hd] at hsp
    exact ((hs.earned hb).refill cooldown_pos hr).of_tokens_eq_zero cooldown_pos
      (TokenBucket.eq_of_not_spend hsp).2 (TokenBucket.refilledAt_refill cooldown_pos hr).2

theorem interval_bounded {segment : List Call} {start length : Instant}
    (h : Timely (calls ++ segment))
    (hc : ∀ call ∈ segment, start ≤ call.now ∧ call.now ≤ start + length)
    (hs : Spares source (after ∅ calls) segment) :
    (grants source (after ∅ calls) segment).length ≤
      announceInsertBurst + length / announceInsertCooldown + 1 := by
  cases segment
  case nil => exact Nat.zero_le _
  case cons call segment =>
    obtain ⟨hstart, _⟩ := hc call List.mem_cons_self
    have ht := h.1
    rw [List.map_append, List.pairwise_append] at ht
    have hsound : Sound (after ∅ calls) call.now fun source => grants source ∅ calls :=
      .after ht.1 fun call' hm => ht.2.2 _ (List.mem_map_of_mem hm) _ List.mem_cons_self
    have hfirst (call') (hm : call' ∈ call :: segment) : call.now ≤ call'.now := by
      rcases List.mem_cons.mp hm with rfl | hm
      · exact le_rfl
      · exact (List.pairwise_cons.mp ht.2.1).1 _ (List.mem_map_of_mem hm)
    refine (grants_le (fun b hb => ⟨hsound.past hb, hsound.tokens hb⟩) ht.2.1
      (fun call' hm => ⟨hfirst call' hm, (hc call' hm).2⟩) hs).trans ?_
    have hdiv : (start + length - call.now) / announceInsertCooldown ≤
        length / announceInsertCooldown :=
      Nat.div_le_div_right (Nat.sub_le_iff_le_add'.mpr (Nat.add_le_add_right hstart _))
    exact Nat.succ_le_succ (Nat.add_le_add_left hdiv _)

theorem allowed_within_bounds (h : Timely calls) :
    (after ∅ calls).size ≤ maxAnnounceLimiterEntries ∧
    (∀ segment source start length, Timely (calls ++ segment) →
      (∀ call ∈ segment, start ≤ call.now ∧ call.now ≤ start + length) →
      Spares source (after ∅ calls) segment →
        (grants source (after ∅ calls) segment).length ≤
          announceInsertBurst + length / announceInsertCooldown + 1) ∧
    ∀ call, Timely (calls ++ [call]) →
      ((exec (after ∅ calls) call).1 = false → announceInsertBurst ≤
        (grants call.source ∅ calls).countP fun grant =>
          call.now < grant + announceInsertBurst * announceInsertCooldown) ∧
      ∀ b, (after ∅ calls).lookup call.source = some b →
        b.refilledChecked call.now = some (b.refilled call.now) ∧
          (b.refilled call.now).tokens ≤ announceInsertBurst := by
  have hnow (call) (hm : call ∈ calls) : call.now ≤ maxInstant := h.2 call hm
  refine ⟨(Sound.after h.1 hnow).size, fun _ _ _ _ => interval_bounded, fun call ht => ?_⟩
  refine ⟨denied_of_spent ht, fun b hb => ?_⟩
  have hr : b.bucket.refilledAt ≤ call.now := (ht.sound).past hb
  refine ⟨AnnounceBucket.refilledChecked_eq hr (ht.2 call (by simp)), ?_⟩
  have htok := TokenBucket.tokens_refill cooldown_pos hr ((ht.sound).tokens hb)
  rwa [← AnnounceBucket.bucket_refilled] at htok

-- The burst is spent at once.
theorem allowed_within_bounds_of_burst :
    let call : Call := ⟨[97], 0, .asListed⟩
    let calls := List.replicate announceInsertBurst call
    (exec (after ∅ calls) call).1 = false ∧
      announceInsertBurst ≤ (grants [97] ∅ calls).countP fun grant =>
        0 < grant + announceInsertBurst * announceInsertCooldown := by
  intro call calls
  have ht (n) : Timely (List.replicate n call) := by
    refine ⟨?_, fun call' hm => ?_⟩
    · rw [List.map_replicate]
      exact List.pairwise_replicate.mpr (.inr le_rfl)
    · rw [List.eq_of_mem_replicate hm]
      exact Nat.zero_le _
  have hd : (exec (after ∅ calls) call).1 = false := by decide +kernel
  have ht' : Timely (calls ++ [call]) := by
    rw [← List.replicate_succ']
    exact ht _
  exact ⟨hd, ((allowed_within_bounds (ht _)).2.2 call ht').1 hd⟩

end AnnounceLimiter
end Nanocached.Discovery
