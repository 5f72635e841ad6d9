import Nanocached.Cache.Theorems.Eviction

namespace Nanocached

variable {sha256 : Bytes → Vector UInt8 32} {id : Nat} {ns name value : Bytes} {key : Key}
variable {expiresAt : Option Instant} {now : Instant}

namespace Store

-- No limit is ever reached.
def Unlimited (s : Store) : Prop :=
  s.maxMemoryBytes = .ofNat usizeMax ∧ s.budgets = ∅

theorem Unlimited.le {s : Store} (h : s.Unlimited) (n : UInt64) : n ≤ s.maxMemoryBytes := by
  rw [h.left, UInt64.le_iff_toNat_le]
  have := n.toNat_lt
  simp only [usizeMax, UInt64.toNat_ofNat']
  omega

theorem Frame.unlimited {s t : Store} (hf : Frame s t) (h : s.Unlimited) : t.Unlimited :=
  ⟨hf.maxMemoryBytes.trans h.left, hf.budgets.trans h.right⟩

end Store

namespace Cache

variable {s : Cache} {t : Store}

-- A write, and the evictions that make room for it. The identifier stands for the namespace as long
-- as it is in use.
theorem insertInto_steps (h : s.WF sha256) (key : Key) (value : Bytes) (expiresAt : Option Instant)
    (he : s.ensureNamespace key.ns = (id, t)) : ∃ (keys : List Key) (s' : Cache),
      { s with toStore := t }.insertInto id key.name value expiresAt = some s' ∧
      Steps sha256 (.write key value expiresAt :: keys.map .remove) s s' ∧
      (s.Unlimited → keys = []) ∧
      (id ∈ s'.slots → s'.findNamespace key.ns = some id) := by
  have ⟨_, _, s₁, he', hp, hw⟩ := h.put_ensureNamespace key value expiresAt
  cases he.symm.trans he'
  have ⟨keys₁, s₂, hb, hs₁, _, hu₁⟩ :=
    enforceNamespaceBudget_steps (s := { s with toStore := s₁ }) hw.wf id
  have ⟨keys₂, s₃, ho, hs₂, _, hu₂⟩ := evictWhileOver_steps (hs₁.wf hw.wf)
  have hs := hs₁.trans hs₂
  refine ⟨keys₁ ++ keys₂, s₃, ?_, ?_, fun hu => ?_, fun hm => ?_⟩
  case refine_1 => simp [insertInto, hp, hb, ho]
  case refine_2 =>
    have hs₀ : Steps sha256 [.write key value expiresAt] s { s with toStore := s₁ } :=
      ⟨.single (.write he hp), rfl, rfl⟩
    simpa using hs₀.trans hs
  case refine_3 =>
    have hu := hw.frame.unlimited hu
    rw [hu₁ hu.right, hu₂ ((hs₁.frame hw.wf).unlimited hu |>.le _), List.append_nil]
  case refine_4 =>
    have ⟨n, hl⟩ := AList.exists_lookup_of_mem hm
    have ⟨n₁, hl₁, hn₁⟩ := hw.wf.index.mp hw.index
    have ⟨n₂, hl₂, hn₂⟩ := (hs.frame hw.wf).slot hl (hw.wf.fresh hl₁)
    cases hl₁.symm.trans hl₂
    exact (hs.wf hw.wf).index.mpr ⟨n, hl, hn₂.symm.trans hn₁⟩

theorem insert_steps (h : s.WF sha256) (key : Key) (value : Bytes) (expiresAt : Option Instant) :
    ∃ (keys : List Key) (s' : Cache),
      s.insert key value expiresAt = some s' ∧
      Steps sha256 (.write key value expiresAt :: keys.map .remove) s s' ∧
      (s.Unlimited → keys = []) := by
  rcases he : s.ensureNamespace key.ns with ⟨id, t⟩
  have ⟨keys, s', hi, hs, hu, _⟩ := insertInto_steps h key value expiresAt he
  exact ⟨keys, s', by simp only [insert, he, hi], hs, hu⟩

theorem set_steps (h : s.WF sha256) (key : Key) (value : Bytes) :
    ∃ (keys : List Key) (s' : Cache),
      s.set key value = some s' ∧
      Steps sha256 (.write key value none :: keys.map .remove) s s' ∧
      (s.Unlimited → keys = []) :=
  insert_steps (s := { s with sets := s.sets + 1 }) h key value none

theorem setWithTtl_steps (h : s.WF sha256) (key : Key) (value : Bytes) (ttl : Duration)
    (now : Instant) : ∃ (keys : List Key) (s' : Cache),
      s.setWithTtl key value ttl now = some s' ∧
      Steps sha256 (.write key value (checkedAdd now ttl) :: keys.map .remove) s s' ∧
      (s.Unlimited → keys = []) :=
  insert_steps (s := { s with sets := s.sets + 1 }) h key value (checkedAdd now ttl)

-- The changes of a batch of writes to the given names.
structure Batch (ns : Bytes) (names : List Bytes) (cs : List Change) : Prop where
  writes : ∀ {name}, name ∈ names → ∃ value expiresAt, .write ⟨ns, name⟩ value expiresAt ∈ cs
  only   : ∀ {change}, change ∈ cs →
             (∃ name ∈ names, ∃ value expiresAt, change = .write ⟨ns, name⟩ value expiresAt) ∨
             (∃ key, change = .remove key)

theorem Batch.cons {names : List Bytes} {keys : List Key} {cs : List Change}
    (h : Batch ns names cs) :
    Batch ns (name :: names) (.write ⟨ns, name⟩ value expiresAt :: keys.map .remove ++ cs) where
  writes := by
    intro name' hm
    rcases List.mem_cons.mp hm with rfl | hm
    · exact ⟨value, expiresAt, by simp⟩
    · have ⟨v, x, hm⟩ := h.writes hm
      exact ⟨v, x, List.mem_append_right _ hm⟩
  only := by
    intro change hm
    rw [List.cons_append, List.mem_cons, List.mem_append, List.mem_map] at hm
    rcases hm with rfl | ⟨key, -, rfl⟩ | hm
    · exact .inl ⟨name, by simp, value, expiresAt, rfl⟩
    · exact .inr ⟨key, rfl⟩
    · rcases h.only hm with ⟨name, hn, he⟩ | he
      · exact .inl ⟨name, .tail _ hn, he⟩
      · exact .inr he

theorem liveNamespace_eq {id : Option Nat}
    (hi : ∀ i ∈ id, i ∈ s.slots → s.findNamespace ns = some i) :
    s.liveNamespace id ns = s.ensureNamespace ns := by
  rw [liveNamespace]
  split
  case h_2 => rfl
  case h_1 i he =>
    have ⟨he, hm⟩ := Option.filter_eq_some_iff.mp he
    exact (Store.ensureNamespace_of_some (hi i he (by simpa using hm))).symm

theorem setManyGo_steps (h : s.WF sha256) (items : List (Bytes × Bytes)) {id : Option Nat}
    (hi : ∀ i ∈ id, i ∈ s.slots → s.findNamespace ns = some i) : ∃ cs s',
      setManyGo ns expiresAt items id s = some s' ∧
      Steps sha256 cs s s' ∧
      Batch ns (items.map (·.1)) cs := by
  induction items generalizing s id
  case nil => exact ⟨[], s, rfl, .refl, by simp, by simp⟩
  case cons item items hr =>
    have ⟨name, value⟩ := item
    rcases he : s.ensureNamespace ns with ⟨live, t⟩
    have hl := (liveNamespace_eq (s := { s with sets := s.sets + 1 }) hi).trans he
    have ⟨keys, s₁, hi₁, hs₁, _, hm⟩ := insertInto_steps
      (s := { s with sets := s.sets + 1 }) h ⟨ns, name⟩ value expiresAt he
    have hlive : ∀ i ∈ some live, i ∈ s₁.slots → s₁.findNamespace ns = some i := fun i hi => by
      cases hi
      exact hm
    have ⟨cs, s₂, hi₂, hs₂, hb⟩ := hr (hs₁.wf h) hlive
    refine ⟨_, s₂, ?_, hs₁.trans hs₂, hb.cons⟩
    rw [setManyGo]
    simp only [hl, hi₁, hi₂, Option.bind_eq_bind, Option.bind_some]

theorem setMany_steps (h : s.WF sha256) (ns : Bytes) (items : List (Bytes × Bytes))
    (ttl : Option Duration) (now : Instant) : ∃ cs s',
      s.setMany ns items ttl now = some s' ∧
      Steps sha256 cs s s' ∧
      Batch ns (items.map (·.1)) cs :=
  setManyGo_steps h items (by simp)

end Cache
end Nanocached
