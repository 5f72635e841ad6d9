import Nanocached.Cache.Run
import Nanocached.Cache.Theorems.Sweep

namespace Nanocached.Cache

variable {sha256 : Bytes → Vector UInt8 32} {s s' : Cache} {now : Instant} {op : Op} {key : Key}
variable {calls : List (Instant × Op)}

-- The changes that can come with a call made in the state `s`.
def Event.Emits (s : Store) (e : Event) : Change → Prop
  | .write key _ _          => e.Writes key
  | .mark key               => e.op = .markMigrated key
  | .retime key _           => (s.contents.live e.now key).isSome
  | .clearAll               => e.op = .clearAll
  | .bury _ t | .expire _ t => t = e.now
  | .displace _             => maxHandoffTombstones ≤ s.handoffTombstones.size
  | _                       => True

-- Hands off a delete, be it as a value that lives for no time.
def Op.isHandoffDelete : Op → Bool
  | .handoffDelete _      => true
  | .handoffSet _ _ ttl _ => ttl = some 0
  | _                     => false

-- Hands off a value ahead of the ring, which is counted.
def Op.isCounted : Op → Bool
  | .handoffSet _ _ _ aheadOfRing         => aheadOfRing
  | .handoffSetIfAbsent _ _ _ aheadOfRing => aheadOfRing
  | _                                     => false

-- All that a call can do to the tombstones.
inductive TombstoneStep (s : Cache) (now : Instant) (op : Op) (s' : Cache) : Prop
  | keeps (h : Keeps (s.noteHandoff now op.isCounted) s')
  | sweeps (hop : op.isCounted = false) (h : Keeps (s.pruneTombstones now) s')
  | buries {s₁ : Cache} {key : Key} (hop : op.isHandoffDelete = true)
      (h : Keeps (s.noteHandoff now op.isCounted) s₁) (hs : s' = s₁.tombstone key now)
  | clears (hop : op.isCounted = false) (order : s'.tombstoneOrder = [])
      (buried : s'.handoffTombstones = ∅) (handoffs : s'.handoffs = s.handoffs)

-- The outcome of a call: it returns, and its steps are the ones it is supposed to make.
structure Outcome (sha256 : Bytes → Vector UInt8 32) (s : Cache) (e : Event) (s' : Cache) : Prop where
  exec       : exec sha256 s e.now e.op = some (e.response, s')
  changes    : ∃ cs, Store.Steps sha256 cs s.toStore s'.toStore ∧
                 (∀ change ∈ cs, e.Emits s.toStore change) ∧
                 ∀ key, e.Writes key → ∃ value expiresAt, .write key value expiresAt ∈ cs
  tombstones : TombstoneStep s e.now e.op s'

theorem Event.emits_of_finds {e : Event} {change : Change} (h : s.contents.Finds e.now change) :
    e.Emits s.toStore change := by
  cases change <;> first | exact h | trivial

theorem Event.emits_of_bury {e : Event} {old excess : List Key} (he : e.now = now)
    (hn : s.handoffTombstones.size < maxHandoffTombstones → excess = []) :
    ∀ change ∈ s.contents.removal key ++ Contents.burial key now old excess,
      e.Emits s.toStore change := by
  intro change hm
  simp only [Contents.burial, List.mem_append, List.mem_map, List.mem_singleton] at hm
  rcases hm with hm | (⟨_, _, rfl⟩ | ⟨_, hm, rfl⟩) | rfl
  · cases Contents.eq_of_mem_removal _ _ hm
    trivial
  · exact he.symm
  · by_contra hc
    rw [hn (Nat.lt_of_not_le hc)] at hm
    contradiction
  · exact he.symm

theorem Event.emits_of_sweeps {e : Event} {includeMarked : Bool} {owned : Option (Key → Bool)}
    {old : List Key} {cs : List Change} (he : e.now = now)
    (hc : ∀ change ∈ cs, s.contents.Sweeps now includeMarked owned change) :
    ∀ change ∈ old.map (.expire · now) ++ cs, e.Emits s.toStore change := by
  intro change hm
  rcases List.mem_append.mp hm with hm | hm
  · have ⟨_, _, hk⟩ := List.mem_map.mp hm
    subst hk
    exact he.symm
  · have hc := hc change hm
    cases change <;> trivial

section Steps

variable {cs : List Change} {aheadOfRing : Bool}

theorem steps_of_noteHandoff (hs : Steps sha256 cs (s.noteHandoff now aheadOfRing) s') :
    Store.Steps sha256 cs s.toStore s'.toStore :=
  toStore_noteHandoff s now aheadOfRing ▸ hs.1

theorem keeps_of_noteHandoff (h : s.WF sha256)
    (hs : Steps sha256 cs (s.noteHandoff now aheadOfRing) s')
    (hc : ∀ change ∈ cs, change.buries = false) : Keeps (s.noteHandoff now aheadOfRing) s' :=
  hs.keeps (toStore_noteHandoff s now aheadOfRing ▸ h) hc

theorem keeps_of_sweeps {includeMarked : Bool} {owned : Option (Key → Bool)} (h : s.WF sha256)
    (hs : Steps sha256 cs (s.pruneTombstones now) s')
    (hc : ∀ change ∈ cs, s.contents.Sweeps now includeMarked owned change) :
    Keeps (s.pruneTombstones now) s' := by
  obtain ⟨old, hp, _⟩ := pruneTombstones_steps sha256 s now
  refine hs.keeps (hp.wf h) fun change hm => ?_
  have hc := hc change hm
  cases change with
  | bury => contradiction
  | _    => rfl

end Steps

namespace Outcome

variable {e : Event} {cs : List Change} (h : s.WF sha256)
  (he : Cache.exec sha256 s e.now e.op = some (e.response, s'))

include h he

-- Calls which write nothing.
theorem of_finds (hs : Steps sha256 cs (s.noteHandoff e.now e.op.isCounted) s')
    (hc : ∀ change ∈ cs, s.contents.Finds e.now change) (hw : ∀ key, ¬e.Writes key) :
    Outcome sha256 s e s' where
  exec       := he
  changes    := ⟨cs, steps_of_noteHandoff hs, fun change hm => Event.emits_of_finds (hc change hm),
    fun key h => absurd h (hw key)⟩
  tombstones := .keeps (keeps_of_noteHandoff h hs fun change hm => (hc change hm).not_buries)

theorem of_reads (hop : e.op.isCounted = false) (hu : Uses sha256 e.now s s')
    (hw : ∀ key, ¬e.Writes key) : Outcome sha256 s e s' := by
  obtain ⟨cs, hs, hc⟩ := hu
  refine of_finds h he ?_ hc hw
  rw [hop]
  exact hs

omit h in
theorem of_not_writes (hs : Store.Steps sha256 cs s.toStore s'.toStore)
    (hc : ∀ change ∈ cs, e.Emits s.toStore change) (hw : ∀ key, ¬e.Writes key)
    (ht : TombstoneStep s e.now e.op s') : Outcome sha256 s e s' :=
  ⟨he, ⟨cs, hs, hc, fun key h => absurd h (hw key)⟩, ht⟩

theorem of_keeps (hop : e.op.isCounted = false) (hs : Steps sha256 cs s s')
    (hc : ∀ change ∈ cs, e.Emits s.toStore change ∧ change.buries = false)
    (hw : ∀ key, ¬e.Writes key) : Outcome sha256 s e s' := by
  refine of_not_writes he hs.1 (fun change hm => (hc change hm).1) hw (.keeps ?_)
  rw [hop]
  exact hs.keeps h fun change hm => (hc change hm).2

-- Calls which write one key, maybe after they removed its expired entry.
theorem of_write (cs : List Change) {value : Bytes} {expiresAt : Option Instant} {keys : List Key}
    (hs : Steps sha256 (cs ++ .write key value expiresAt :: keys.map .remove)
      (s.noteHandoff e.now e.op.isCounted) s')
    (hc : ∀ change ∈ cs, change = .remove key) (hw : ∀ key', e.Writes key' ↔ key = key') :
    Outcome sha256 s e s' := by
  have hcs : ∀ change ∈ cs ++ .write key value expiresAt :: keys.map .remove,
      change = .write key value expiresAt ∨ ∃ key, change = .remove key := by
    intro change hm
    simp only [List.mem_append, List.mem_cons, List.mem_map] at hm
    rcases hm with hm | rfl | ⟨key, _, rfl⟩
    · exact .inr ⟨key, hc change hm⟩
    · exact .inl rfl
    · exact .inr ⟨key, rfl⟩
  refine ⟨he, ⟨_, steps_of_noteHandoff hs, fun change hm => ?_, fun key' hk => ?_⟩,
    .keeps (keeps_of_noteHandoff h hs fun change hm => ?_)⟩
  case refine_1 =>
    rcases hcs change hm with rfl | ⟨_, rfl⟩
    · exact (hw key).mpr rfl
    · trivial
  case refine_2 =>
    cases (hw key').mp hk
    exact ⟨value, expiresAt, by simp⟩
  case refine_3 =>
    rcases hcs change hm with rfl | ⟨_, rfl⟩ <;> rfl

end Outcome

theorem exec_outcome (h : s.WF sha256) (now : Instant) (op : Op) :
    ∃ r s', Outcome sha256 s ⟨now, op, r⟩ s' := by
  have purge {key} : ∀ change ∈ s.contents.purge now key, s.contents.Finds now change :=
    fun _ hm => Contents.eq_of_mem_purge _ _ _ hm ▸ trivial
  have removal {key} : ∀ change ∈ s.contents.removal key, s.contents.Finds now change :=
    fun _ hm => Contents.eq_of_mem_removal _ _ hm ▸ trivial
  have keep {key} : ∀ change ∈ s.contents.removal key, change.buries = false :=
    fun _ hm => Contents.eq_of_mem_removal _ _ hm ▸ rfl
  cases op with
  | set key value =>
    have ⟨keys, s', he, hs, _⟩ := s.set_steps h key value
    exact ⟨.done, s', .of_write h (by simp [exec, he]) [] hs (by simp) (by simp [Event.Writes])⟩
  | setWithTtl key value ttl =>
    have ⟨keys, s', he, hs, _⟩ := s.setWithTtl_steps h key value ttl now
    exact ⟨.done, s', .of_write h (by simp [exec, he]) [] hs (by simp) (by simp [Event.Writes])⟩
  | setMany ns items ttl =>
    have ⟨cs, s', he, hs, hb⟩ := s.setMany_steps h ns items ttl now
    refine ⟨.done, s', by simp [exec, he], ⟨cs, hs.1, fun change hm => ?_, fun key hk => ?_⟩,
      .keeps (hs.keeps h fun change hm => ?_)⟩
    · rcases hb.only hm with ⟨name, hn, _, _, rfl⟩ | ⟨key, rfl⟩
      · exact ⟨rfl, hn⟩
      · trivial
    · obtain ⟨_, name⟩ := key
      obtain ⟨rfl, hn⟩ := hk
      exact hb.writes hn
    · rcases hb.only hm with ⟨name, hn, _, _, rfl⟩ | ⟨key, rfl⟩ <;> rfl
  | get key =>
    have ⟨s', he, hs⟩ := s.getAt_steps h key now
    exact ⟨_, s', .of_reads h (by simp [exec, he]; rfl) rfl (.access hs) (by simp [Event.Writes])⟩
  | getMany ns names maxValueBytes =>
    have ⟨values, s', he, hu⟩ := s.getMany_uses h ns names maxValueBytes now
    exact ⟨_, s', .of_reads h (by simp [exec, he]; rfl) rfl hu (by simp [Event.Writes])⟩
  | touch key ttl promote =>
    have ⟨s', he, hs⟩ := s.touchAt_steps h key ttl promote now
    exact ⟨_, s', .of_reads h (by simp [exec, he]; rfl) rfl (.access hs) (by simp [Event.Writes])⟩
  | touchMany ns names ttl promote maxValueBytes =>
    have ⟨values, s', he, hu⟩ := s.touchMany_uses h ns names ttl promote maxValueBytes now
    exact ⟨_, s', .of_reads h (by simp [exec, he]; rfl) rfl hu (by simp [Event.Writes])⟩
  | incr key delta =>
    cases hl : s.contents.live now key
    case none =>
      have ⟨s', he, hs⟩ := incrAt_of_not_live h delta hl
      exact ⟨_, s', .of_reads h (by simp [exec, he]; rfl) rfl ⟨_, hs, purge⟩ (by simp [Event.Writes])⟩
    case some e =>
      cases hn : incremented e.1 delta
      case none =>
        have he := incrAt_of_none hl hn
        exact ⟨_, s, .of_reads h (by simp [exec, he]; rfl) rfl .refl (by simp [Event.Writes])⟩
      case some n =>
        have ⟨keys, s', he, hs, _⟩ := incrAt_of_some h hl hn
        exact ⟨_, s', .of_write h (by simp [exec, he]; rfl) [] hs (by simp)
          (by simp [Event.Writes])⟩
  | casSet key condition value ttl =>
    by_cases hc : condition.holds sha256 ((s.contents.live now key).map (·.1))
    case pos =>
      have ⟨keys, s', he, hs, _⟩ := casSetAt_of_holds h value ttl hc
      exact ⟨_, s', .of_write h (by simp [exec, he]; rfl) _ hs
        (fun _ => Contents.eq_of_mem_purge _ _ _) (by simp [Event.Writes])⟩
    case neg =>
      have ⟨s', he, hs⟩ := casSetAt_of_not_holds h value ttl hc
      exact ⟨_, s', .of_reads h (by simp [exec, he]; rfl) rfl ⟨_, hs, purge⟩ (by simp [Event.Writes])⟩
  | casDelete key expected =>
    have ⟨s', he, hs⟩ := s.casDeleteAt_steps h key expected now
    refine ⟨_, s', .of_reads h (by simp [exec, he]; rfl) rfl ⟨_, hs, fun change hm => ?_⟩
      (by simp [Event.Writes])⟩
    rcases List.mem_append.mp hm with hm | hm
    · exact purge change hm
    · split at hm
      · cases List.mem_singleton.mp hm; trivial
      · contradiction
  | delete key =>
    have ⟨s', he, hs⟩ := s.delete_steps h key now
    exact ⟨_, s', .of_reads h (by simp [exec, he]; rfl) rfl ⟨_, hs, removal⟩ (by simp [Event.Writes])⟩
  | handoffSet key value ttl aheadOfRing =>
    by_cases ht : ttl = some 0
    case pos =>
      subst ht
      have ⟨old, excess, s', he, hs, hn, hr⟩ := s.handoffSet_of_zero h key value aheadOfRing now
      exact ⟨.flag true, _, .of_not_writes (by simp [exec, he]) hs (Event.emits_of_bury rfl hn)
        (by simp [Event.Writes]) (.buries rfl (keeps_of_noteHandoff h hr keep) rfl)⟩
    case neg =>
      have ⟨changed, keys, s', he, hs⟩ := s.handoffSet_of_ne_zero h key value ht aheadOfRing now
      exact ⟨_, s', .of_write h (by simp [exec, he]; rfl) [] hs (by simp)
        (by simp [Event.Writes, ht])⟩
  | handoffSetIfAbsent key value ttl aheadOfRing =>
    by_cases hr : s.Refuses key now
    case pos =>
      have ⟨s', he, cs, hc, hs⟩ := handoffSetIfAbsentAt_of_refuses h value ttl aheadOfRing hr
      exact ⟨_, s', .of_finds h (by simp [exec, he]; rfl) hs (fun change hm => purge _ (hc hm))
        (by simp [Event.Writes])⟩
    case neg =>
      have ⟨keys, s', he, hs⟩ := handoffSetIfAbsentAt_of_not_refuses h value ttl aheadOfRing hr
      exact ⟨_, s', .of_write h (by simp [exec, he]; rfl) _ hs
        (fun _ => Contents.eq_of_mem_purge _ _ _) (by simp [Event.Writes])⟩
  | handoffDelete key =>
    have ⟨old, excess, s', he, hs, hn, hr⟩ := s.handoffDeleteAt_steps h key now
    exact ⟨_, _, .of_not_writes (by simp [exec, he]; rfl) hs (Event.emits_of_bury rfl hn)
      (by simp [Event.Writes]) (.buries rfl (hr.keeps h keep) rfl)⟩
  | markMigrated key =>
    have ⟨cs, hc, hs⟩ := Store.markMigrated_steps h key
    refine ⟨_, _, .of_keeps h rfl rfl ⟨hs, rfl, rfl⟩ (fun change hm => ?_) (by simp [Event.Writes])⟩
    cases List.mem_singleton.mp (hc hm)
    exact ⟨rfl, rfl⟩
  | unmarkMigratedMany keys =>
    have ⟨cs, hs, hc⟩ := Store.unmarkMigratedMany_steps h keys
    refine ⟨_, _, .of_keeps h rfl rfl ⟨hs, rfl, rfl⟩ (fun change hm => ?_) (by simp [Event.Writes])⟩
    have ⟨_, _, he⟩ := hc change hm
    cases he
    exact ⟨trivial, rfl⟩
  | clear ns =>
    have ⟨cs, s', he, hs, hc, _⟩ := Store.clear_steps h ns
    refine ⟨_, { s with toStore := s' }, .of_keeps h (by simp [exec, he]; rfl) rfl ⟨hs, rfl, rfl⟩
      (fun change hm => ?_) (by simp [Event.Writes])⟩
    cases List.mem_singleton.mp (hc hm)
    exact ⟨trivial, rfl⟩
  | clearAll =>
    refine ⟨_, _, .of_not_writes rfl (.single .clearAll) ?_ (by simp [Event.Writes])
      (.clears rfl rfl rfl rfl)⟩
    simp [Event.Emits]
  | sweep order =>
    have ⟨n, s', old, cs, he, hs, hc, _, hk⟩ := s.sweepAt_steps h order now true none
    exact ⟨_, s', .of_not_writes (by simp [exec, he]; rfl) hs (Event.emits_of_sweeps rfl hc)
      (by simp [Event.Writes]) (.sweeps rfl (keeps_of_sweeps h hk hc))⟩
  | sweepKeeping order owned =>
    have ⟨n, s', old, cs, he, hs, hc, _, hk⟩ := s.sweepAt_steps h order now true (some owned)
    exact ⟨_, s', .of_not_writes (by simp [exec, he]; rfl) hs (Event.emits_of_sweeps rfl hc)
      (by simp [Event.Writes]) (.sweeps rfl (keeps_of_sweeps h hk hc))⟩
  | sweepExpired order =>
    have ⟨n, s', old, cs, he, hs, hc, _, hk⟩ := s.sweepAt_steps h order now false none
    exact ⟨_, s', .of_not_writes (by simp [exec, he]; rfl) hs (Event.emits_of_sweeps rfl hc)
      (by simp [Event.Writes]) (.sweeps rfl (keeps_of_sweeps h hk hc))⟩
  | reclaimUnowned keys owned handoffQuietFor =>
    have ⟨unowned, report, s', he, hs⟩ :=
      s.reclaimUnownedAt_steps h keys owned handoffQuietFor now
    exact ⟨_, s', .of_keeps h (by simp [exec, he]; rfl) rfl hs (by simp [Event.Emits, Change.buries])
      (by simp [Event.Writes])⟩
  | keys order =>
    exact ⟨.keys (s.keysAt order now), s, .of_reads h rfl rfl .refl (by simp [Event.Writes])⟩

-- No call ever panics, in particular none of the `expect`s fails.
theorem exec_isSome (h : s.WF sha256) (now : Instant) (op : Op) :
    (exec sha256 s now op).isSome := by
  have ⟨_, _, ho⟩ := s.exec_outcome h now op
  simp [show exec sha256 s now op = _ from ho.exec]

theorem outcome_of_exec (h : s.WF sha256) {r : Response}
    (he : exec sha256 s now op = some (r, s')) : Outcome sha256 s ⟨now, op, r⟩ s' := by
  have ⟨_, _, ho⟩ := s.exec_outcome h now op
  cases he.symm.trans ho.exec
  exact ho

theorem wf_of_exec (h : s.WF sha256) {r : Response} (he : exec sha256 s now op = some (r, s')) :
    s'.WF sha256 :=
  have ⟨_, hs, _⟩ := (outcome_of_exec h he).changes
  hs.wf h

-- No run of calls panics, whatever the clock reads.
theorem execAll_isSome (maxMemoryBytes : UInt64) (budgets : List (Bytes × UInt64))
    (calls : List (Instant × Op)) :
    (execAll sha256 (withBudgets maxMemoryBytes budgets) calls).isSome := by
  have h : (withBudgets maxMemoryBytes budgets).WF sha256 := .withBudgets ..
  generalize withBudgets maxMemoryBytes budgets = s at h ⊢
  induction calls generalizing s
  case nil => rfl
  case cons call calls hi =>
    obtain ⟨⟨r, s'⟩, he⟩ := Option.isSome_iff_exists.mp (exec_isSome h call.1 call.2)
    simpa [execAll, he, Option.isSome_bind] using hi s' (wf_of_exec h he)

theorem frame_of_exec (h : s.WF sha256) {r : Response} (he : exec sha256 s now op = some (r, s')) :
    Store.Frame s.toStore s'.toStore :=
  have ⟨_, hs, _⟩ := (outcome_of_exec h he).changes
  hs.frame h

theorem execAll_snoc {es : List Event} {r : Response} {s'' : Cache}
    (h : execAll sha256 s calls = some (es, s')) (he : exec sha256 s' now op = some (r, s'')) :
    execAll sha256 s (calls ++ [(now, op)]) = some (es ++ [⟨now, op, r⟩], s'') := by
  induction calls generalizing s es
  case nil =>
    cases h
    simp [execAll, he]
  case cons call calls hi =>
    simp only [execAll, Option.bind_eq_bind, Option.bind_eq_some_iff] at h
    obtain ⟨⟨r, s₁⟩, hr, ⟨es', s₂⟩, ha, h⟩ := h
    cases h
    simp [execAll, hr, hi ha]

namespace Run

variable {es es₁ es₂ : List Event} {s₁ s₂ s₃ : Cache}

theorem trans (h₁ : Run sha256 s₁ es₁ s₂) (h₂ : Run sha256 s₂ es₂ s₃) :
    Run sha256 s₁ (es₁ ++ es₂) s₃ := by
  induction h₂
  case refl       => simpa using h₁
  case tail he hi => simpa using hi.tail he

theorem of_execAll (h : execAll sha256 s calls = some (es, s')) : Run sha256 s es s' := by
  induction calls generalizing s es
  case nil =>
    cases h
    exact .refl
  case cons call calls hi =>
    simp only [execAll, Option.bind_eq_bind, Option.bind_eq_some_iff] at h
    obtain ⟨⟨r, s₁⟩, he, ⟨es', s₂⟩, hr, h⟩ := h
    cases h
    exact (Run.refl.tail he).trans (hi hr)

theorem of_execAll_get (h : (execAll sha256 s calls).isSome) :
    Run sha256 s ((execAll sha256 s calls).get h).1 ((execAll sha256 s calls).get h).2 :=
  of_execAll (Option.some_get h).symm

-- A run is determined by its calls.
theorem execAll_eq (run : Run sha256 s es s') :
    execAll sha256 s (es.map fun e => (e.now, e.op)) = some (es, s') := by
  induction run
  case refl       => rfl
  case tail he hi => simpa using execAll_snoc hi he

theorem wf (h : s.WF sha256) (run : Run sha256 s es s') : s'.WF sha256 := by
  induction run
  case refl       => exact h
  case tail he hi => exact wf_of_exec hi he

end Run

theorem now_of_execAll {es : List Event}
    (h : execAll sha256 s calls = some (es, s')) : es.map (·.now) = calls.map (·.1) := by
  induction calls generalizing s es
  case nil =>
    cases h
    rfl
  case cons call calls hi =>
    simp only [execAll, Option.bind_eq_bind, Option.bind_eq_some_iff] at h
    obtain ⟨⟨r, s₁⟩, he, ⟨es', s₂⟩, hr, h⟩ := h
    cases h
    simp [hi hr]

section Reachable

variable {maxMemoryBytes : UInt64} {budgets : List (Bytes × UInt64)}

theorem Reachable.of_execAll
    (h : (execAll sha256 (withBudgets maxMemoryBytes budgets) calls).isSome)
    (ht : (calls.map (·.1)).Pairwise (· ≤ ·)) :
    Reachable sha256 maxMemoryBytes budgets ((execAll sha256 _ calls).get h).2 := by
  have hn : ((execAll sha256 _ calls).get h).1.map (·.now) = calls.map (·.1) :=
    now_of_execAll (Option.some_get h).symm
  refine ⟨?_, .of_execAll_get h⟩
  rwa [Timely, ← List.pairwise_map, hn]

theorem Reachable.wf (h : Reachable sha256 maxMemoryBytes budgets s) : s.WF sha256 :=
  have ⟨_, run⟩ := h
  run.wf (.withBudgets maxMemoryBytes budgets)

end Reachable
end Nanocached.Cache
