import Nanocached.Cache.Theorems.Eviction

namespace Nanocached

variable {sha256 : Bytes → Vector UInt8 32} {id : Option Nat} {ns : Bytes} {name : Bytes}
variable {entry : Entry} {key : Key} {now : Instant}

namespace Contents

variable {c : Contents} {key key' : Key} {f : Option Instant → Option Instant}

-- The value that a read at `now` finds.
def liveValue (c : Contents) (now : Instant) (key : Key) : Option Bytes :=
  (c.live now key).map (·.1)

theorem liveValue_access_of_ne (hn : key' ≠ key) :
    (c.applyAll (c.access now key f)).liveValue now key' = c.liveValue now key' := by
  rw [access]
  cases c.entry key
  case none   => rfl
  case some e =>
    dsimp only
    split <;> simp [liveValue, live, apply, hn]

-- Only a use that lets the entry expire takes the value away.
theorem liveValue_access (hf : ∀ {e}, c.live now key = some e → (f e.2).all (now < ·)) :
    (c.applyAll (c.access now key f)).liveValue now key' = c.liveValue now key' := by
  by_cases hn : key' = key
  case neg => exact liveValue_access_of_ne hn
  case pos =>
    subst hn
    rw [access]
    cases he : c.entry key'
    case none   => rfl
    case some e =>
      by_cases hx : e.isExpiredAt now
      case pos => simp [hx, liveValue, live, apply, he, Option.filter]
      case neg =>
        have hl : c.live now key' = some e := by simp [live, he, Option.filter, hx]
        have hf := hf hl
        have hx' : Content.isExpiredAt (e.1, f e.2) now = false := by
          cases hx : f e.2 <;> simp_all [Content.isExpiredAt]
        simp [hx, liveValue, live, apply, he, Option.filter, hx']

theorem liveValue_access_of_none (h : c.liveValue now key = none) :
    (c.applyAll (c.access now key f)).liveValue now key = none := by
  refine (liveValue_access fun {e} he => ?_).trans h
  simp [liveValue, he] at h

end Contents

namespace Store

variable {s s' : Store} {i : Nat} {n : Namespace} {cs : List Change}

theorem peek_eq_some_iff (h : s.WF sha256) : s.peek key = some entry ↔ ∃ i n,
    s.slots.lookup i = some n ∧ n.name = key.ns ∧ n.entries.lookup key.name = some entry := by
  rw [peek_eq, Option.bind_eq_some_iff]
  simp only [h.find_eq_some_iff]
  constructor
  case mp  => rintro ⟨n, ⟨i, hl, hn⟩, he⟩; exact ⟨i, n, hl, hn, he⟩
  case mpr => rintro ⟨i, n, hl, hn, he⟩; exact ⟨n, ⟨i, hl, hn⟩, he⟩

theorem entry_of_peek (hp : s.peek key = some entry) :
    s.contents.entry key = some (entry.value, entry.expiresAt) := by
  simp [contents, hp]

theorem entry_of_peek_none (hp : s.peek key = none) : s.contents.entry key = none := by
  simp [contents, hp]

-- The entry was promoted right before it is removed.
theorem removed_promoted (he : n.entries.lookup name = some entry) :
    { s with
      slots := s.slots.insert i { n with entries := n.entries.insert name entry } }.removed i
        { n with entries := n.entries.insert name entry } name = s.removed i n name := by
  have hs : ({ n with entries := n.entries.insert name entry } : Namespace).share name =
      n.share name := by
    simp [Namespace.share, Namespace.entryShare, Namespace.markShare, Namespace.digestShare, he]
  have hw : ({ n with entries := n.entries.insert name entry } : Namespace).without name =
      n.without name := by
    simp [Namespace.without, hs, AList.erase_insert_self]
  simp only [removed, AList.erase_insert_self, hs, hw, AList.insert_insert, Namespace.markCount]

theorem removeEntry_of_none (h : s.WF sha256) (hp : s.peek key = none) :
    s.removeEntry key = some (none, s) := by
  rw [removeEntry, findNamespace]
  cases hf : s.namespaces.lookup key.ns
  case none   => rfl
  case some i =>
    refine removeEntryIn_none fun n hl hm => ?_
    obtain ⟨n', hl', hn⟩ := h.index.mp hf
    cases hl.symm.trans hl'
    obtain ⟨entry, he⟩ := AList.exists_lookup_of_mem hm
    simp [(peek_eq_some_iff h).mpr ⟨i, n, hl, hn, he⟩] at hp

theorem removeEntry_of_some (h : s.WF sha256) (hp : s.peek key = some entry) : ∃ i n,
    s.slots.lookup i = some n ∧ n.name = key.ns ∧ n.entries.lookup key.name = some entry ∧
    s.removeEntry key = some (some entry, s.removed i n key.name) := by
  have ⟨i, n, hl, hn, he⟩ := (peek_eq_some_iff h).mp hp
  refine ⟨i, n, hl, hn, he, ?_⟩
  simp only [removeEntry, findNamespace, h.index.mpr ⟨n, hl, hn⟩]
  exact removeEntryIn_eq hl he

theorem removeEntry_steps (h : s.WF sha256) (key : Key) : ∃ s',
    s.removeEntry key = some (s.peek key, s') ∧
    Steps sha256 (s.contents.removal key) s s' := by
  cases hp : s.peek key
  case none =>
    refine ⟨s, removeEntry_of_none h hp, ?_⟩
    simpa [Contents.removal, entry_of_peek_none hp] using .refl
  case some entry =>
    obtain ⟨i, n, hl, hn, he, hr⟩ := removeEntry_of_some h hp
    refine ⟨_, hr, ?_⟩
    obtain ⟨ns, name⟩ := key
    cases hn
    simpa [Contents.removal, entry_of_peek hp] using
      .single (.remove hl (AList.mem_of_lookup he))

-- The identifier was looked up for the namespace `ns`, and its slot is not looked up again.
def Resolves (s : Store) (id : Option Nat) (ns : Bytes) : Prop :=
  id.bind s.slots.lookup = s.find ns

theorem Resolves.findNamespace (s : Store) (ns : Bytes) : s.Resolves (s.findNamespace ns) ns :=
  rfl

-- The identifier stands for the namespace as long as no new ones are handed out.
theorem Frame.resolves (h : s.WF sha256) (h' : s'.WF sha256) (hf : Frame s s')
    (hi : s'.nextSlotId = s.nextSlotId) (hr : s.Resolves id ns) : s'.Resolves id ns := by
  have old {j n'} (hl : s'.slots.lookup j = some n') :
      ∃ n, s.slots.lookup j = some n ∧ n.name = n'.name := hf.slot hl (hi ▸ h'.fresh hl)
  rw [Resolves]
  cases hf' : s'.find ns
  case some n' =>
    have ⟨j, hl', hn'⟩ := h'.find_eq_some_iff.mp hf'
    have ⟨n, hl, hn⟩ := old hl'
    rw [Resolves, h.find_eq_some_iff.mpr ⟨j, hl, hn.trans hn'⟩, Option.bind_eq_some_iff] at hr
    have ⟨i, he, hl''⟩ := hr
    rw [he, Option.bind_some, h.id_unique hl'' hl rfl, hl']
  case none =>
    rw [Option.bind_eq_none_iff]
    intro i he
    by_contra hc
    have ⟨n', hl'⟩ := Option.ne_none_iff_exists'.mp hc
    have ⟨n, hl, hn⟩ := old hl'
    rw [Resolves, he, Option.bind_some, hl] at hr
    have ⟨_, _, hn'⟩ := h.find_eq_some_iff.mp hr.symm
    rw [h'.find_eq_some_iff.mpr ⟨i, hl', hn.symm.trans hn'⟩] at hf'
    contradiction

theorem Step.nextSlotId_eq {c : Option Change} (step : Step sha256 c s s')
    (hc : ∀ change ∈ c, change.IsUse) : s'.nextSlotId = s.nextSlotId := by
  cases step with
  | tick | heap | hash | use | amend => rfl
  | remove => exact removed_nextSlotId
  | _      => exact absurd (hc _ rfl) (by simp [Change.IsUse])

theorem Steps.nextSlotId_eq (steps : Steps sha256 cs s s') (hc : ∀ change ∈ cs, change.IsUse) :
    s'.nextSlotId = s.nextSlotId := by
  induction steps
  case refl           => rfl
  case head step _ hi =>
    rw [hi fun _ hm => hc _ (List.mem_append_right _ hm)]
    exact step.nextSlotId_eq fun _ hm => hc _ (List.mem_append_left _ (Option.mem_toList.mpr hm))

theorem Steps.resolves (h : s.WF sha256) (steps : Steps sha256 cs s s')
    (hc : ∀ change ∈ cs, change.IsUse) (hr : s.Resolves id ns) : s'.Resolves id ns :=
  (steps.frame h).resolves h (steps.wf h) (steps.nextSlotId_eq hc) hr

end Store

namespace Cache

variable {s s' : Cache} {i : Nat} {n : Namespace}

theorem entryIn_eq_none (hr : s.Resolves id ns) (hp : s.peek ⟨ns, name⟩ = none) :
    s.entryIn id name = none := by
  rw [Store.peek_eq, ← show _ = s.find ns from hr] at hp
  rw [entryIn]
  cases id
  case none   => rfl
  case some i =>
    simp only [Option.bind_some] at hp
    cases hl : s.slots.lookup i
    case none   => simp [hl]
    case some n =>
      have hp : n.entries.lookup name = none := by simpa [hl] using hp
      simp [hl, hp]

theorem entryIn_eq_some (h : s.WF sha256) (hr : s.Resolves id ns)
    (hp : s.peek ⟨ns, name⟩ = some entry) : ∃ i n,
      s.slots.lookup i = some n ∧ n.name = ns ∧ n.entries.lookup name = some entry ∧
      s.entryIn id name = some (i, n, entry) := by
  rw [Store.peek_eq, Option.bind_eq_some_iff] at hp
  have ⟨n, hf, he⟩ := hp
  have ⟨_, _, hn⟩ := h.find_eq_some_iff.mp hf
  rw [← show _ = s.find ns from hr, Option.bind_eq_some_iff] at hf
  have ⟨i, hi, hl⟩ := hf
  refine ⟨i, n, hl, hn, he, ?_⟩
  simp [entryIn, hi, hl, show n.entries.lookup name = some entry from he]

-- An expired entry is promoted before it is removed, which makes no difference.
theorem removeEntryIn_promote (he : n.entries.lookup name = some entry) :
    (s.promote i n name entry).removeEntryIn i name = some (some entry, s.removed i n name) := by
  rw [Store.removeEntryIn_eq (AList.lookup_insert _) (AList.lookup_insert _)]
  exact congrArg some (congrArg _ (Store.removed_promoted he))

theorem getIn_steps {t : Store} {lastUsed : Nat} (h : s.WF sha256) (hr : s.Resolves id ns)
    (ht : s.tick = (lastUsed, t)) (name : Bytes) (now : Instant) : ∃ s',
      { s with toStore := t }.getIn id name now lastUsed =
        some ((s.contents.live now ⟨ns, name⟩).map (·.1), s') ∧
      Steps sha256 (s.contents.access now ⟨ns, name⟩ (·)) s s' := by
  cases ht
  have hw : Store.WF sha256 { s.toStore with clock := s.clock + 1 } := h.mono (Nat.le_succ _)
  rw [getIn, Contents.live, Contents.access]
  cases hp : s.peek ⟨ns, name⟩
  case none =>
    rw [entryIn_eq_none (s := { s with clock := s.clock + 1 }) hr hp, Store.entry_of_peek_none hp]
    exact ⟨_, rfl, .silent .tick, rfl, rfl⟩
  case some entry =>
    obtain ⟨i, n, hl, hn, he, hi⟩ := entryIn_eq_some (s := { s with clock := s.clock + 1 }) hw hr hp
    cases hn
    simp only [hi, Store.entry_of_peek hp, Option.filter_some,
      Content.isExpiredAt_mk]
    by_cases hx : entry.isExpiredAt now
    case pos =>
      have hr := removeEntryIn_promote (s := { s with clock := s.clock + 1 }) (i := i) he
      simp only [hx, if_true, hr, Option.bind_eq_bind, Option.bind_some, Option.pure_def]
      have hs : Store.Steps sha256 [] s.toStore { s.toStore with clock := s.clock + 1 } :=
        .silent .tick
      exact ⟨_, rfl, hs.trans (.single (.remove hl (AList.mem_of_lookup he))), rfl, rfl⟩
    case neg =>
      simp only [hx]
      exact ⟨_, rfl, .single (.use hl he), rfl, rfl⟩

theorem touchIn_steps (h : s.WF sha256) (hr : s.Resolves id ns) (name : Bytes)
    (ttl : Option Duration) (promote : Bool) (now : Instant) : ∃ s',
      s.touchIn id name ttl promote now =
        some ((s.contents.live now ⟨ns, name⟩).map fun e =>
          (e.1, (ttl.bind (checkedAdd now)).map (durationSince · now)), s') ∧
      Steps sha256 (s.contents.access now ⟨ns, name⟩ fun _ => ttl.bind (checkedAdd now)) s s' := by
  have hw : Store.WF sha256 { s.toStore with clock := s.clock + 1 } := h.mono (Nat.le_succ _)
  have hs : Store.Steps sha256 [] s.toStore { s.toStore with clock := s.clock + 1 } :=
    .silent .tick
  rw [touchIn, Contents.live, Contents.access]
  cases hp : s.peek ⟨ns, name⟩
  case none =>
    rw [Store.entry_of_peek_none hp]
    cases promote
    case false =>
      simp only [Bool.false_eq_true, if_false]
      rw [entryIn_eq_none (s := { s with touches := s.touches + 1 }) hr hp]
      exact ⟨_, rfl, .refl, rfl, rfl⟩
    case true =>
      simp only [if_true, Store.tick]
      rw [entryIn_eq_none
        (s := { s with clock := s.clock + 1, touches := s.touches + 1 }) hr hp]
      exact ⟨_, rfl, hs, rfl, rfl⟩
  case some entry =>
    simp only [Store.entry_of_peek hp, Option.filter_some,
      Content.isExpiredAt_mk]
    cases promote
    case false =>
      obtain ⟨i, n, hl, hn, he, hi⟩ :=
        entryIn_eq_some (s := { s with touches := s.touches + 1 }) h hr hp
      cases hn
      simp only [Bool.false_eq_true, if_false, hi]
      by_cases hx : entry.isExpiredAt now
      case pos =>
        simp only [hx, if_true, Store.removeEntryIn_eq hl he, Option.bind_eq_bind,
          Option.bind_some, Option.pure_def]
        exact ⟨_, rfl, .single (.remove hl (AList.mem_of_lookup he)), rfl, rfl⟩
      case neg =>
        simp only [hx]
        exact ⟨_, rfl, .single (.amend hl he), rfl, rfl⟩
    case true =>
      obtain ⟨i, n, hl, hn, he, hi⟩ := entryIn_eq_some
        (s := { s with clock := s.clock + 1, touches := s.touches + 1 }) hw hr hp
      cases hn
      simp only [if_true, Store.tick, hi]
      by_cases hx : entry.isExpiredAt now
      case pos =>
        have hr := removeEntryIn_promote
          (s := { s with clock := s.clock + 1, touches := s.touches + 1 }) (i := i) he
        simp only [hx, if_true, hr, Option.bind_eq_bind, Option.bind_some, Option.pure_def]
        exact ⟨_, rfl, hs.trans (.single (.remove hl (AList.mem_of_lookup he))), rfl, rfl⟩
      case neg =>
        simp only [hx]
        exact ⟨_, rfl, .single (.use hl he), rfl, rfl⟩

theorem getAt_steps (h : s.WF sha256) (key : Key) (now : Instant) : ∃ s',
    s.getAt key now = some ((s.contents.live now key).map (·.1), s') ∧
    Steps sha256 (s.contents.access now key (·)) s s' :=
  getIn_steps h (.findNamespace _ _) rfl key.name now

theorem touchAt_steps (h : s.WF sha256) (key : Key) (ttl : Option Duration) (promote : Bool)
    (now : Instant) : ∃ s',
      s.touchAt key ttl promote now =
        some ((s.contents.live now key).map fun e =>
          (e.1, (ttl.bind (checkedAdd now)).map (durationSince · now)), s') ∧
      Steps sha256 (s.contents.access now key fun _ => ttl.bind (checkedAdd now)) s s' :=
  touchIn_steps h (.findNamespace _ _) key.name ttl promote now

-- The steps of a batch of reads.
def Uses (sha256 : Bytes → Vector UInt8 32) (now : Instant) (s s' : Cache) : Prop :=
  ∃ cs, Steps sha256 cs s s' ∧ ∀ change ∈ cs, s.contents.Finds now change

namespace Uses

variable {s₁ s₂ : Cache} {now : Instant}

theorem refl : Uses sha256 now s s :=
  ⟨[], .refl, by simp⟩

theorem access {key : Key} {expiresAt : Option Instant → Option Instant}
    (hs : Steps sha256 (s.contents.access now key expiresAt) s s₁) :
    Uses sha256 now s s₁ :=
  ⟨_, hs, fun _ => Contents.finds_of_mem_access _ _ _⟩

theorem live (h : s.WF sha256) (hu : Uses sha256 now s s₁) (key : Key)
    (hl : (s₁.contents.live now key).isSome) : (s.contents.live now key).isSome := by
  obtain ⟨cs, hs, hc⟩ := hu
  obtain ⟨ha, he⟩ := hs.contents h
  rw [he] at hl
  exact Contents.live_of_finds ha hc hl

theorem trans (h : s.WF sha256) (h₁ : Uses sha256 now s s₁) (h₂ : Uses sha256 now s₁ s₂) :
    Uses sha256 now s s₂ := by
  have hl := h₁.live h
  have ⟨cs₁, hs₁, hc₁⟩ := h₁
  have ⟨cs₂, hs₂, hc₂⟩ := h₂
  refine ⟨cs₁ ++ cs₂, hs₁.trans hs₂, fun change hm => ?_⟩
  rcases List.mem_append.mp hm with hm | hm
  · exact hc₁ change hm
  · have hc := hc₂ change hm
    cases change with
    | retime key expiresAt => exact hl key hc
    | remove key           => trivial
    | _                    => contradiction

theorem wf (h : s.WF sha256) (hu : Uses sha256 now s s₁) : s₁.WF sha256 :=
  have ⟨_, hs, _⟩ := hu
  hs.wf h

theorem resolves (h : s.WF sha256) (hu : Uses sha256 now s s₁) (hr : s.Resolves id ns) :
    s₁.Resolves id ns :=
  have ⟨_, hs, hc⟩ := hu
  hs.1.resolves h (fun change hm => (hc change hm).isUse) hr

end Uses

-- The identifier finds what its namespace holds, even if that is dropped half-way.
theorem entryIn_eq (h : s.WF sha256) (hr : s.Resolves id ns) :
    s.entryIn id name = s.entryIn (s.findNamespace ns) name := by
  cases hp : s.peek ⟨ns, name⟩
  case none => rw [entryIn_eq_none hr hp, entryIn_eq_none (.findNamespace _ _) hp]
  case some entry =>
    obtain ⟨i, n, hl, hn, -, he⟩ := entryIn_eq_some h hr hp
    obtain ⟨i', n', hl', hn', -, he'⟩ := entryIn_eq_some h (.findNamespace _ _) hp
    cases h.id_unique hl hl' (hn.trans hn'.symm)
    cases hl.symm.trans hl'
    rw [he, he']

theorem getIn_eq_getAt (h : s.WF sha256) (hr : s.Resolves id ns) :
    { s with toStore := s.tick.2 }.getIn id name now s.tick.1 = s.getAt ⟨ns, name⟩ now := by
  have hw : Store.WF sha256 { s.toStore with clock := s.clock + 1 } := h.mono (Nat.le_succ _)
  have he := @entryIn_eq _ id ns name { s with clock := s.clock + 1 } hw hr
  simp only [getAt, getIn, Store.tick, he]

theorem touchIn_eq_touchAt {ttl : Option Duration} {promote : Bool} (h : s.WF sha256)
    (hr : s.Resolves id ns) :
    s.touchIn id name ttl promote now = s.touchAt ⟨ns, name⟩ ttl promote now := by
  cases promote
  case false =>
    have he := @entryIn_eq _ id ns name { s with touches := s.touches + 1 } h hr
    simp only [touchAt, touchIn, Bool.false_eq_true, if_false, he]
  case true =>
    have hw : Store.WF sha256 { s.toStore with clock := s.clock + 1 } := h.mono (Nat.le_succ _)
    have he := @entryIn_eq _ id ns name
      { s with clock := s.clock + 1, touches := s.touches + 1 } hw hr
    simp only [touchAt, touchIn, if_true, Store.tick, he]
    rfl

-- A read takes no value away from another one.
theorem liveValue_of_getAt {key : Key} {answer : Option Bytes} (h : s.WF sha256)
    (he : s.getAt key now = some (answer, s')) (key' : Key) :
    s'.contents.liveValue now key' = s.contents.liveValue now key' := by
  obtain ⟨s₁, he', hs⟩ := getAt_steps h key now
  obtain ⟨-, rfl⟩ := Prod.mk.inj (Option.some.inj (he.symm.trans he'))
  rw [(hs.contents h).right]
  refine Contents.liveValue_access fun {e} he => ?_
  have hx := (Option.filter_eq_some_iff.mp he).right
  cases hx' : e.2 <;> simp_all [Content.isExpiredAt]

end Cache

namespace Cache

variable {s s' : Cache} {names : List Bytes} {maxValueBytes n : Nat}

-- The answer for a value after `n` bytes of values, and the number of bytes along with it.
def fit (maxValueBytes n : Nat) : Option Bytes → Option Bytes × Nat
  | none => (none, n)
  | some value =>
    if wrappingAdd n value.length ≤ maxValueBytes then (some value, wrappingAdd n value.length)
    else (none, n)

theorem getManyGo_of_full (hn : maxValueBytes ≤ n) :
    getManyGo id maxValueBytes now names n s = some (names.map fun _ => none, s) := by
  induction names
  case nil          => rfl
  case cons _ _ hi  => simp [getManyGo, hn, hi]

theorem getManyGo_cons (h : s.WF sha256) (hr : s.Resolves id ns) (hn : n < maxValueBytes) : ∃ s₁,
    s.getAt ⟨ns, name⟩ now = some (s.contents.liveValue now ⟨ns, name⟩, s₁) ∧
    Uses sha256 now s s₁ ∧ s₁.WF sha256 ∧ s₁.Resolves id ns ∧
    (∀ key, s₁.contents.liveValue now key = s.contents.liveValue now key) ∧
    ∀ names, getManyGo id maxValueBytes now (name :: names) n s =
      (getManyGo id maxValueBytes now names
        (fit maxValueBytes n (s.contents.liveValue now ⟨ns, name⟩)).2 s₁).map fun r =>
          ((fit maxValueBytes n (s.contents.liveValue now ⟨ns, name⟩)).1 :: r.1, r.2) := by
  obtain ⟨s₁, he, hs⟩ := getAt_steps h ⟨ns, name⟩ now
  rw [← Contents.liveValue] at he
  have hu : Uses sha256 now s s₁ := .access hs
  refine ⟨s₁, he, hu, hu.wf h, hu.resolves h hr, fun key => ?_, fun names => ?_⟩
  case refine_1 => exact liveValue_of_getAt h he key
  case refine_2 =>
    rw [getManyGo, if_neg (Nat.not_le.mpr hn)]
    have hg := (getIn_eq_getAt h hr).trans he
    simp only [Store.tick] at hg ⊢
    simp only [hg, Option.bind_eq_bind, Option.bind_some]
    cases s.contents.liveValue now ⟨ns, name⟩
    case none => rw [Option.map_eq_bind]; rfl
    case some value =>
      dsimp only [fit]
      split <;> (rw [Option.map_eq_bind]; rfl)

theorem getManyGo_uses (h : s.WF sha256) (hr : s.Resolves id ns) : ∃ values s',
    getManyGo id maxValueBytes now names n s = some (values, s') ∧ Uses sha256 now s s' := by
  induction names generalizing s n
  case nil => exact ⟨[], s, rfl, .refl⟩
  case cons name names hi =>
    by_cases hn : n < maxValueBytes
    case neg => exact ⟨_, s, getManyGo_of_full (Nat.le_of_not_lt hn), .refl⟩
    case pos =>
      obtain ⟨s₁, -, hu, hw, hr', -, hc⟩ := @getManyGo_cons _ id ns name now s _ _ h hr hn
      obtain ⟨values, s', he, hu'⟩ := hi hw hr'
      exact ⟨_, s', by rw [hc, he]; rfl, hu.trans h hu'⟩

theorem getMany_uses (h : s.WF sha256) (ns : Bytes) (names : List Bytes) (maxValueBytes : Nat)
    (now : Instant) : ∃ values s',
      s.getMany ns names maxValueBytes now = some (values, s') ∧ Uses sha256 now s s' :=
  getManyGo_uses h (.findNamespace _ _)

section TouchMany

variable {ttl : Option Duration} {promote : Bool} {touchedAtOnce : Map Bytes Bytes}

-- The value fits into the answers, of which `n` bytes are taken.
def Fits (maxValueBytes n : Nat) (value : Option Bytes) : Prop :=
  maxValueBytes = usizeMax ∨
    n < maxValueBytes ∧ ∀ v ∈ value, saturatingAdd n v.length ≤ maxValueBytes

theorem not_fits_iff {value : Option Bytes} : ¬Fits maxValueBytes n value ↔
    maxValueBytes ≠ usizeMax ∧
      (n ≥ maxValueBytes ∨
        (value.map List.length).any fun len => decide (saturatingAdd n len > maxValueBytes)) := by
  cases value
  case none => simp [Fits]
  case some => simp [Fits]; omega

-- What a batch does for one name.
inductive TouchesOne (ns : Bytes) (ttl : Option Duration) (promote : Bool) (maxValueBytes : Nat)
    (now : Instant) (name : Bytes) (n : Nat) (touchedAtOnce : Map Bytes Bytes) (s : Cache) :
    Option Bytes → Nat → Map Bytes Bytes → Cache → Prop
  | withheld :
    ¬Fits maxValueBytes n
      ((touchedAtOnce.lookup name).or (s.contents.liveValue now ⟨ns, name⟩)) →
    TouchesOne ns ttl promote maxValueBytes now name n touchedAtOnce s none n touchedAtOnce s
  | repeated {value : Bytes} :
    Fits maxValueBytes n (some value) → touchedAtOnce.lookup name = some value →
    TouchesOne ns ttl promote maxValueBytes now name n touchedAtOnce s
      (some value) (saturatingAdd n value.length) touchedAtOnce
      { s with touches := s.touches + 1, hits := if promote then s.hits + 1 else s.hits }
  | missed {s₁ : Cache} :
    Fits maxValueBytes n none → touchedAtOnce.lookup name = none →
    s.contents.liveValue now ⟨ns, name⟩ = none →
    s.touchAt ⟨ns, name⟩ ttl promote now = some (none, s₁) →
    TouchesOne ns ttl promote maxValueBytes now name n touchedAtOnce s none n touchedAtOnce s₁
  | touched {value : Bytes} {remaining : Option Duration} {s₁ : Cache} :
    Fits maxValueBytes n (some value) → touchedAtOnce.lookup name = none →
    s.contents.liveValue now ⟨ns, name⟩ = some value →
    s.touchAt ⟨ns, name⟩ ttl promote now = some (some (value, remaining), s₁) →
    TouchesOne ns ttl promote maxValueBytes now name n touchedAtOnce s
      (some value) (saturatingAdd n value.length)
      (if ttl = some 0 then touchedAtOnce.insert name value else touchedAtOnce) s₁

theorem liveValueLen_eq (h : s.WF sha256) (hr : s.Resolves id ns) :
    s.liveValueLen id name now = (s.contents.liveValue now ⟨ns, name⟩).map List.length := by
  rw [liveValueLen, Contents.liveValue, Contents.live]
  cases hp : s.peek ⟨ns, name⟩
  case none => rw [entryIn_eq_none hr hp, Store.entry_of_peek_none hp]; rfl
  case some entry =>
    obtain ⟨i, n, -, -, -, hi⟩ := entryIn_eq_some h hr hp
    rw [hi, Store.entry_of_peek hp]
    by_cases hx : entry.isExpiredAt now <;> simp [hx, Option.filter]

theorem touchManyGo_cons (h : s.WF sha256) (hr : s.Resolves id ns) : ∃ answer n' touchedAtOnce' s₁,
    TouchesOne ns ttl promote maxValueBytes now name n touchedAtOnce s
      answer n' touchedAtOnce' s₁ ∧
    Uses sha256 now s s₁ ∧ s₁.WF sha256 ∧ s₁.Resolves id ns ∧
    ∀ names, touchManyGo id ttl promote maxValueBytes now (name :: names) n touchedAtOnce s =
      (touchManyGo id ttl promote maxValueBytes now names n' touchedAtOnce' s₁).map fun r =>
        (answer :: r.1, r.2) := by
  simp only [touchManyGo, liveValueLen_eq h hr]
  cases hm : touchedAtOnce.lookup name
  case some value =>
    dsimp only
    split
    case isTrue hc =>
      refine ⟨none, n, touchedAtOnce, s, .withheld ?_, .refl, h, hr,
        fun _ => by rw [Option.map_eq_bind]; rfl⟩
      rw [hm, Option.some_or, not_fits_iff]
      simpa using hc
    case isFalse hc =>
      refine ⟨some value, _, touchedAtOnce, _, .repeated ?_ hm, .refl, h, hr,
        fun _ => by rw [Option.map_eq_bind]; rfl⟩
      exact not_not.mp (mt not_fits_iff.mp (by simpa using hc))
  case none =>
    dsimp only
    split
    case isTrue hc =>
      refine ⟨none, n, touchedAtOnce, s, .withheld ?_, .refl, h, hr,
        fun _ => by rw [Option.map_eq_bind]; rfl⟩
      rw [hm, Option.none_or, not_fits_iff]
      exact hc
    case isFalse hc =>
      obtain ⟨s₁, he, hs⟩ := touchAt_steps h ⟨ns, name⟩ ttl promote now
      have hu : Uses sha256 now s s₁ := .access hs
      have hf := not_not.mp (mt not_fits_iff.mp hc)
      simp only [touchIn_eq_touchAt h hr]
      cases hl : s.contents.live now ⟨ns, name⟩
      case none =>
        have hv : s.contents.liveValue now ⟨ns, name⟩ = none := by simp [Contents.liveValue, hl]
        rw [hl, Option.map_none] at he
        refine ⟨none, n, touchedAtOnce, s₁, .missed (hv ▸ hf) hm hv he, hu, hu.wf h,
          hu.resolves h hr, fun _ => ?_⟩
        simp only [he, Option.bind_eq_bind, Option.bind_some]
        rw [Option.map_eq_bind]
        rfl
      case some e =>
        have hv : s.contents.liveValue now ⟨ns, name⟩ = some e.1 := by
          simp [Contents.liveValue, hl]
        rw [hl, Option.map_some] at he
        refine ⟨some e.1, _, _, s₁, .touched (hv ▸ hf) hm hv he, hu, hu.wf h,
          hu.resolves h hr, fun _ => ?_⟩
        simp only [he, Option.bind_eq_bind, Option.bind_some]
        rw [Option.map_eq_bind]
        rfl

theorem touchManyGo_uses (h : s.WF sha256) (hr : s.Resolves id ns) : ∃ values s',
    touchManyGo id ttl promote maxValueBytes now names n touchedAtOnce s = some (values, s') ∧
    Uses sha256 now s s' := by
  induction names generalizing s n touchedAtOnce
  case nil => exact ⟨[], s, rfl, .refl⟩
  case cons name names hi =>
    obtain ⟨_, n', touchedAtOnce', s₁, -, hu, hw, hr', hc⟩ := @touchManyGo_cons _ id ns name now s
      maxValueBytes n ttl promote touchedAtOnce h hr
    obtain ⟨values, s', he, hu'⟩ := hi hw hr'
    exact ⟨_, s', by rw [hc, he]; rfl, hu.trans h hu'⟩

theorem touchMany_uses (h : s.WF sha256) (ns : Bytes) (names : List Bytes) (ttl : Option Duration)
    (promote : Bool) (maxValueBytes : Nat) (now : Instant) : ∃ values s',
      s.touchMany ns names ttl promote maxValueBytes now = some (values, s') ∧ Uses sha256 now s s' :=
  touchManyGo_uses h (.findNamespace _ _)

end TouchMany

end Cache
end Nanocached
