import Nanocached.Cache.Theorems.Run

namespace Nanocached

variable {sha256 : Bytes → Vector UInt8 32} {key : Key} {now : Instant}
variable {includeMarked : Bool} {owned : Option (Key → Bool)}

namespace Contents

variable {c d : Contents} {change : Change} {cs : List Change} {e : Content}

-- A change which leaves the key marked and did not mark it has left its value alone.
structure KeepsMark (key : Key) (c c' : Contents) : Prop where
  marked : key ∈ c.marked
  value  : (c'.entry key).map (·.1) = (c.entry key).map (·.1)

theorem value_update_of_ne {k : Key} {e? : Option Content} (h : key ≠ k) :
    (Function.update c.entry k e? key).map (·.1) = (c.entry key).map (·.1) := by
  rw [Function.update_of_ne h]

theorem keepsMark_of_apply (hc : change ≠ .mark key) (hm : key ∈ (c.apply change).marked) :
    KeepsMark key c (c.apply change) ∧ ∀ value expiresAt, change ≠ .write key value expiresAt := by
  cases change with
  | write k v x =>
    have hn : key ≠ k := hm.right
    refine ⟨⟨hm.left, value_update_of_ne hn⟩, ?_⟩
    rintro _ _ ⟨⟩
    exact hn rfl
  | retime k x =>
    refine ⟨⟨hm, ?_⟩, by simp⟩
    by_cases hk : key = k
    case pos =>
      subst hk
      simp [apply, Function.comp_def]
    case neg => exact value_update_of_ne hk
  | remove k | discard k => exact ⟨⟨hm.left, value_update_of_ne hm.right⟩, by simp⟩
  | mark k =>
    rcases hm with rfl | hm
    · contradiction
    · exact ⟨⟨hm, rfl⟩, by simp⟩
  | unmark k => exact ⟨⟨hm.left, rfl⟩, by simp⟩
  | clear n => exact ⟨⟨hm.left, by simp only [apply, if_neg hm.right]⟩, by simp⟩
  | clearAll => exact absurd hm (Set.notMem_empty key)
  | bury k t | expire k t => exact ⟨⟨hm, rfl⟩, by simp⟩
  | displace k => exact ⟨⟨hm, rfl⟩, by simp⟩

theorem keepsMark_of_applyAll (hc : .mark key ∉ cs) (hm : key ∈ (c.applyAll cs).marked) :
    KeepsMark key c (c.applyAll cs) ∧ ∀ value expiresAt, .write key value expiresAt ∉ cs := by
  induction cs generalizing c
  case nil => exact ⟨⟨hm, rfl⟩, by simp⟩
  case cons change cs hi =>
    have ⟨hk, hw⟩ := hi (List.not_mem_of_not_mem_cons hc) hm
    have ⟨hk', hw'⟩ := keepsMark_of_apply (fun he => hc (by simp [he])) hk.marked
    refine ⟨⟨hk'.marked, hk.value.trans hk'.value⟩, fun value expiresAt hm => ?_⟩
    rcases List.mem_cons.mp hm with rfl | hm
    · exact hw' value expiresAt rfl
    · exact hw value expiresAt hm

-- The entry of the key may be removed by a sweep.
def Removable (c : Contents) (now : Instant) (includeMarked : Bool) (owned : Option (Key → Bool))
    (key : Key) : Prop :=
  (c.entry key).any (·.isExpiredAt now) ∨
  includeMarked ∧ key ∈ c.marked ∧ ¬owned.any (· key)

theorem Sweeps.removable (h : d.Sweeps now includeMarked owned change)
    (hc : change = .remove key ∨ change = .discard key) :
    d.Removable now includeMarked owned key := by
  rcases hc with rfl | rfl
  · exact .inl h
  · exact h.right.right.imp_right fun ho => ⟨h.left, h.right.left, ho⟩

theorem entry_of_sweeps (ha : c.Allows cs) (he : c.entry key = some e)
    (hs : ∀ change ∈ cs, d.Sweeps now includeMarked owned change) :
    (c.applyAll cs).entry key = some e ∨
    (c.applyAll cs).entry key = none ∧ d.Removable now includeMarked owned key := by
  refine applyAll_induction
    (P := fun c => c.entry key = some e ∨ c.entry key = none ∧ d.Removable _ _ _ _) ha (.inl he) ?_
  intro c change hm _ hc
  have hs := hs change hm
  have removed {k : Key} (hk : change = .remove k ∨ change = .discard k) :
      Function.update c.entry k none key = some e ∨
      Function.update c.entry k none key = none ∧ d.Removable now includeMarked owned key := by
    by_cases he : key = k
    case pos =>
      subst he
      exact .inr ⟨Function.update_self .., hs.removable hk⟩
    case neg => rwa [Function.update_of_ne he]
  cases change with
  | remove k  => exact removed (.inl rfl)
  | discard k => exact removed (.inr rfl)
  | unmark k  => exact hc
  | _         => contradiction

end Contents

namespace Store

variable {s : Store}

theorem not_mem_marked_of_clearMigratedMark (h : s.WF sha256) (key : Key) :
    key ∉ (s.clearMigratedMark key).contents.marked := by
  rw [clearMigratedMark, findNamespace]
  cases hf : s.namespaces.lookup key.ns
  case none =>
    intro hm
    obtain ⟨ns, hn, _⟩ := mem_contents_marked.mp hm
    simp [find, findNamespace, hf] at hn
  case some id =>
    obtain ⟨ns, hl, hn⟩ := h.index.mp hf
    simp only [hl, Namespace.releaseMark_eq]
    obtain ⟨_, name⟩ := key
    cases hn
    rw [((Steps.single (.unmark hl)).contents h).right]
    exact fun hm => hm.right rfl

theorem not_mem_marked_of_unmarkMigratedMany (h : s.WF sha256) {keys : List Key}
    (hk : key ∈ keys) : key ∉ (s.unmarkMigratedMany keys).2.contents.marked := by
  rw [unmarkMigratedMany]
  induction keys generalizing s
  case nil => contradiction
  case cons k keys hi =>
    obtain ⟨cs, hc, hs⟩ := clearMigratedMark_steps h k
    rcases List.mem_cons.mp hk with rfl | hk
    · obtain ⟨cs', hs', hc'⟩ := unmarkMigratedMany_steps (hs.wf h) keys
      intro hm
      change key ∈ (unmarkMigratedMany _ keys).2.contents.marked at hm
      rw [(hs'.contents (hs.wf h)).right] at hm
      refine not_mem_marked_of_clearMigratedMark h key (Contents.keepsMark_of_applyAll ?_ hm).left.marked
      intro hm
      obtain ⟨_, _, he⟩ := hc' _ hm
      contradiction
    · exact hi (hs.wf h) hk

end Store

namespace Cache

variable {s s' s₁ : Cache} {op : Op} {r : Response} {es es₁ es₂ : List Event}

-- The call takes the mark of the key away.
def Event.Unmarks (e : Event) (key : Key) : Prop :=
  ∃ keys, e.op = .unmarkMigratedMany keys ∧ key ∈ keys

theorem keepsMark_of_exec (h : s.WF sha256) (he : exec sha256 s now op = some (r, s'))
    (ho : op ≠ .markMigrated key) (hm : key ∈ s'.contents.marked) :
    Contents.KeepsMark key s.contents s'.contents ∧
    ¬(Event.mk now op r).Writes key ∧ ¬(Event.mk now op r).Unmarks key := by
  have ⟨cs, steps, hc, hw⟩ := (outcome_of_exec h he).changes
  have hk := hm
  rw [(steps.contents h).right] at hk ⊢
  have ⟨hk, hn⟩ := Contents.keepsMark_of_applyAll (fun hm => ho (hc _ hm)) hk
  refine ⟨hk, fun hw' => ?_, ?_⟩
  case refine_1 =>
    have ⟨value, expiresAt, hm⟩ := hw key hw'
    exact hn value expiresAt hm
  case refine_2 =>
    rintro ⟨keys, rfl, hk⟩
    cases he
    exact Store.not_mem_marked_of_unmarkMigratedMany h hk hm

theorem entry_of_markMigrated (h : s.WF sha256)
    (he : exec sha256 s now (.markMigrated key) = some (r, s')) :
    s'.contents.entry = s.contents.entry := by
  cases he
  have ⟨cs, hc, hs⟩ := Store.markMigrated_steps h key
  rw [(hs.contents h).right]
  have ⟨ha, _⟩ := hs.contents h
  refine Contents.applyAll_induction (P := (·.entry = s.contents.entry)) ha rfl fun hm _ he => ?_
  cases List.mem_singleton.mp (hc hm)
  exact he

-- The run marked the key when it held the value that it holds in the end, and it was neither written
-- nor unmarked since.
def MarkedIn (sha256 : Bytes → Vector UInt8 32) (init : Cache) (es : List Event) (s : Cache)
    (key : Key) : Prop :=
  ∃ es₁ s₁ e es₂ value, es = es₁ ++ e :: es₂ ∧ Run sha256 init es₁ s₁ ∧
    e.op = .markMigrated key ∧ (∀ e' ∈ es₂, ¬e'.Writes key ∧ ¬e'.Unmarks key) ∧
    (s₁.peek key).map (·.value) = some value ∧ (s.peek key).map (·.value) = some value

theorem map_value_peek : (s.peek key).map (·.value) = (s.contents.entry key).map (·.1) := by
  rw [Store.contents, Option.map_map]
  rfl

theorem Run.markedIn {init : Cache} (h : init.WF sha256) (hn : init.contents.marked = ∅)
    (run : Run sha256 init es s) (hm : s.isMarked key) : MarkedIn sha256 init es s key := by
  induction run
  case refl => exact absurd (show key ∈ init.contents.marked from hm) (hn ▸ Set.notMem_empty key)
  case tail es s₂ now op r s₃ run he hi =>
    have hw := run.wf h
    by_cases ho : op = .markMigrated key
    case pos =>
      subst ho
      have hs := Store.isSome_of_marked (wf_of_exec hw he) hm
      have ⟨e, hv⟩ := Option.isSome_iff_exists.mp hs
      refine ⟨es, s₂, _, [], e.1, rfl, run, rfl, by simp, ?_, ?_⟩
      · rw [map_value_peek, ← entry_of_markMigrated hw he, hv]
        rfl
      · rw [map_value_peek, hv]
        rfl
    case neg =>
      have ⟨hk, hu⟩ := keepsMark_of_exec hw he ho hm
      obtain ⟨es₁, s₁, e, es₂, value, rfl, run₁, ho', hes, hv₁, hv⟩ := hi hk.marked
      refine ⟨es₁, s₁, e, es₂ ++ [⟨now, op, r⟩], value, by simp, run₁, ho', ?_, hv₁, ?_⟩
      · simpa [or_imp, forall_and] using ⟨⟨fun e he => (hes e he).left, hu.left⟩,
          fun e he => (hes e he).right, hu.right⟩
      · rw [map_value_peek] at hv ⊢
        exact hk.value.trans hv

-- The keys of a sweep are taken from the queue one after the other.
theorem sweepGo_succ (s : Cache) (budget removed : Nat) :
    sweepGo now includeMarked owned (budget + 1) removed s =
      (sweepGo now includeMarked owned budget removed s).bind fun p =>
        sweepGo now includeMarked owned 1 p.1 p.2 := by
  induction budget generalizing s removed
  case zero => rfl
  case succ budget hi =>
    cases hp : s.pendingRemoval
    case nil => simp [sweepGo, hp]
    case cons key rest =>
      rw [sweepGo, hp]
      rw [sweepGo, hp]
      simp only [Option.bind_eq_bind, Option.bind_assoc]
      exact congrArg _ (funext fun p => hi p.2 (removed + p.1))

-- The entry of a key survives the first keys of a sweep, or it is removed with one of them, when it
-- may be.
theorem sweepGo_removes {e : Content} {budget n₀ n : Nat} (h : s.WF sha256)
    (he : s.contents.entry key = some e)
    (hg : sweepGo now includeMarked owned budget n₀ s = some (n, s')) :
    s'.contents.entry key = some e ∨
    s'.contents.entry key = none ∧
    ∃ i n₁ s₁ n₂ s₂, i < budget ∧
      sweepGo now includeMarked owned i n₀ s = some (n₁, s₁) ∧
      sweepGo now includeMarked owned (i + 1) n₀ s = some (n₂, s₂) ∧
      s₁.contents.entry key = some e ∧ s₂.contents.entry key = none ∧
      s₁.contents.Removable now includeMarked owned key := by
  induction budget generalizing n s'
  case zero =>
    cases hg
    exact .inl he
  case succ budget hi =>
    have ⟨n₁, s₁, _, hg₁, hs₁, _⟩ := sweepGo_steps h now includeMarked owned budget n₀
    have hw := hs₁.wf h
    have ⟨_, _, cs, hg₂, hs₂, hc, _⟩ := sweepGo_steps hw now includeMarked owned 1 n₁
    have hg' := hg
    rw [sweepGo_succ, hg₁, Option.bind_some, hg₂] at hg'
    cases hg'
    have ⟨ha, happ⟩ := hs₂.contents hw
    rcases hi hg₁ with he₁ | ⟨he₁, i, n₃, s₃, n₄, s₄, hlt, rest⟩
    case inl =>
      have hd := Contents.entry_of_sweeps ha he₁ hc
      rw [← happ] at hd
      refine hd.imp_right fun ⟨hn, hr⟩ => ⟨hn, budget, n₁, s₁, n, s', ?_⟩
      exact ⟨Nat.lt_succ_self _, hg₁, hg, he₁, hn, hr⟩
    case inr =>
      have hk := Contents.shrinks_of_sweeps ha hc
      exact .inr ⟨(happ ▸ hk).entry_none he₁, i, n₃, s₃, n₄, s₄, Nat.lt_succ_of_lt hlt, rest⟩

variable {maxMemoryBytes : UInt64} {budgets : List (Bytes × UInt64)}

theorem Run.sweepAt_fresh (run : Run sha256 (withBudgets maxMemoryBytes budgets) es s) :
    (∀ key, s.isMarked key → MarkedIn sha256 (withBudgets maxMemoryBytes budgets) es s key) ∧
    ∀ (order : IterOrder Key) (now : Instant) (includeMarked : Bool) (owned : Option (Key → Bool)),
      ∃ n s', s.sweepAt order now includeMarked owned = some (n, s') ∧
        let queued := (s.pruneTombstones now).refill order now includeMarked
        ∀ key e, s.contents.entry key = some e →
          (¬e.isExpiredAt now → ¬s.isMarked key → s'.contents.entry key = some e) ∧
          (s'.contents.entry key = some e ∨
            s'.contents.entry key = none ∧
            ∃ i n₁ s₁ n₂ s₂, i < sweepBudget ∧
              sweepGo now includeMarked owned i 0 queued = some (n₁, s₁) ∧
              sweepGo now includeMarked owned (i + 1) 0 queued = some (n₂, s₂) ∧
              s₁.contents.entry key = some e ∧ s₂.contents.entry key = none ∧
              (e.isExpiredAt now ∨
                includeMarked ∧ s₁.isMarked key ∧ s.isMarked key ∧ ¬owned.any (· key))) := by
  have hw := run.wf (.withBudgets maxMemoryBytes budgets)
  have hn : (withBudgets maxMemoryBytes budgets).contents.marked = ∅ :=
    Set.eq_empty_of_forall_notMem fun _ hm => nomatch (Store.mem_contents_marked.mp hm)
  refine ⟨fun key => run.markedIn (.withBudgets ..) hn, fun order now includeMarked owned => ?_⟩
  have ⟨n, s', _, _, hs, _⟩ := s.sweepAt_steps hw order now includeMarked owned
  have ⟨hwq, hk, hq⟩ := refill_spec hw order now includeMarked
  refine ⟨n, s', hs, fun key e he => ?_⟩
  rcases sweepGo_removes hwq (hq ▸ he) hs with hr | ⟨hnone, i, n₁, s₁, n₂, s₂, hi, h₁, h₂, he₁, he₂, hr⟩
  case inl => exact ⟨fun _ _ => hr, .inl hr⟩
  case inr =>
    have hx : e.isExpiredAt now ∨
        includeMarked ∧ s₁.isMarked key ∧ s.isMarked key ∧ ¬owned.any (· key) := by
      refine hr.imp (fun hx => by simpa [he₁] using hx) fun ⟨hi, hm, ho⟩ => ⟨hi, hm, ?_, ho⟩
      have ⟨_, _, _, hg, hs, hc, _⟩ := sweepGo_steps hwq now includeMarked owned i 0
      cases hg.symm.trans h₁
      have ⟨ha, happ⟩ := hs.contents hwq
      exact hk.marked <| (Contents.shrinks_of_sweeps ha hc).marked <| happ ▸ hm
    refine ⟨fun hl hm => ?_, .inr ⟨hnone, i, n₁, s₁, n₂, s₂, hi, h₁, h₂, he₁, he₂, hx⟩⟩
    exact (hx.elim hl fun hc => hm hc.right.right.left).elim

theorem sweepAt_fresh_of_marked :
    let run := (execAll (fun _ => .replicate 32 0) (withBudgets 10000 [])
      [(0, .set ⟨[], [1]⟩ [2]), (1, .markMigrated ⟨[], [1]⟩), (2, .set ⟨[], [3]⟩ [4])]).get
      (by decide)
    MarkedIn (fun _ => .replicate 32 0) (withBudgets 10000 []) run.1 run.2 ⟨[], [1]⟩ ∧
    ∃ n s', run.2.sweepAt .asListed 3 true none = some (n, s') ∧
      s'.contents.entry ⟨[], [3]⟩ = some ([4], none) := by
  intro run
  have hrun : Run _ (withBudgets 10000 []) run.1 run.2 := .of_execAll_get _
  have ⟨hm, hs⟩ := hrun.sweepAt_fresh
  have ⟨n, s', he, hk⟩ := hs .asListed 3 true none
  exact ⟨hm _ (by decide), n, s', he, (hk _ ([4], none) (by decide)).left (by decide) (by decide)⟩

end Cache
end Nanocached
