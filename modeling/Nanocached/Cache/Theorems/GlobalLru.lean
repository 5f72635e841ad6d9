import Nanocached.Cache.Theorems.Run

namespace Nanocached

variable {sha256 : Bytes → Vector UInt8 32} {id : Nat} {ns : Namespace} {name : Bytes}
variable {entry : Entry} {key : Key}

namespace Store

variable {s : Store}

-- Two entries with the same stamp are the same.
theorem WF.stamp_unique (h : s.WF sha256) {id₁ id₂ : Nat} {ns₁ ns₂ : Namespace}
    {name₁ name₂ : Bytes} {e₁ e₂ : Entry} (hl₁ : s.slots.lookup id₁ = some ns₁)
    (hl₂ : s.slots.lookup id₂ = some ns₂) (he₁ : ns₁.entries.lookup name₁ = some e₁)
    (he₂ : ns₂.entries.lookup name₂ = some e₂) (hs : e₁.lastUsed = e₂.lastUsed) :
    id₁ = id₂ ∧ name₁ = name₂ := by
  obtain rfl := h.stamps hl₁ hl₂ he₁ he₂ hs
  cases hl₁.symm.trans hl₂
  have hd : (ns₁.entries.entries.map (·.2.lastUsed)).Nodup :=
    List.pairwise_map.mpr <| (h.slot hl₁).ordered.imp fun hlt => (ne_of_lt hlt).symm
  have he := List.inj_on_of_nodup_map hd (AList.mem_entries.mpr he₁) (AList.mem_entries.mpr he₂) hs
  exact ⟨rfl, congrArg Sigma.fst he⟩

theorem Victim.scanVictim (h : s.WF sha256) (v : s.Victim id ns name entry) :
    s.scanVictim = some id := by
  have hm : (s.slots.entries.filterMap fun p =>
      p.2.peekLru.map fun e => toLex (e.2.lastUsed, p.1)).min? =
        some (toLex (entry.lastUsed, id)) := by
    refine List.min?_eq_some_iff.mpr ⟨?_, fun item hi => ?_⟩
    case refine_1 =>
      exact List.mem_filterMap.mpr ⟨_, AList.mem_entries.mpr v.slot, by simp [v.lru]⟩
    case refine_2 =>
      have ⟨p, hp, he⟩ := List.mem_filterMap.mp hi
      have ⟨⟨name', entry'⟩, hu, he⟩ := Option.map_eq_some_iff.mp he
      subst he
      have hl := AList.lookup_of_mem hp
      have hn := Namespace.lookup_of_peekLru hu
      rcases (v.least hl hn).lt_or_eq with hlt | heq
      · exact (Prod.Lex.toLex_lt_toLex.mpr (.inl hlt)).le
      · have hi := h.stamps v.slot hl (Namespace.lookup_of_peekLru v.lru) hn heq
        exact (congrArg toLex (Prod.ext heq hi)).le
  rw [Store.scanVictim, hm]
  rfl

theorem WF.peek_removed (h : s.WF sha256) (hl : s.slots.lookup id = some ns) :
    (s.removed id ns name).peek key = if key = ⟨ns.name, name⟩ then none else s.peek key := by
  obtain ⟨n, name'⟩ := key
  simp only [peek_eq, h.find_removed hl, Key.mk.injEq]
  by_cases hn : n = ns.name
  case neg => simp [hn]
  case pos =>
    subst hn
    simp only [if_true, true_and, h.find_of_lookup hl, Option.bind_some]
    by_cases hm : name' = name
    case pos =>
      subst hm
      split <;> simp [Namespace.without]
    case neg =>
      split
      case isTrue hd =>
        have hz := AList.entries_eq_nil_iff.mp hd name'
        rw [AList.lookup_erase_ne hm] at hz
        simp [hz]
      case isFalse => simp [Namespace.without, AList.lookup_erase_ne hm]

end Store

namespace Cache

variable {s s' : Cache} {cs : List Change} {maxMemoryBytes : UInt64}
variable {budgets : List (Bytes × UInt64)}

-- The states between the steps of a call are included, as it is in there that `evict_one` is called.
theorem Reachable.evictOne_least_recently_used (h : Reachable sha256 maxMemoryBytes budgets s)
    (steps : Store.Steps sha256 cs s.toStore s'.toStore) :
    (∀ {id₁ id₂ ns₁ ns₂ name₁ name₂ e₁ e₂},
      s'.slots.lookup id₁ = some ns₁ → s'.slots.lookup id₂ = some ns₂ →
      ns₁.entries.lookup name₁ = some e₁ → ns₂.entries.lookup name₂ = some e₂ →
      e₁.lastUsed = e₂.lastUsed → id₁ = id₂ ∧ name₁ = name₂) ∧
    (∀ {id ns}, s'.slots.lookup id = some ns →
      (∀ {name e}, ns.entries.lookup name = some e → e.lastUsed ≤ s'.clock) ∧
      (ns.entries.entries.Pairwise fun p q => q.2.lastUsed < p.2.lastUsed) ∧
      ∃ key, (∀ k, s'.tails.count (toLex (k, id)) = if k = key then 1 else 0) ∧
        ∃ name e, ns.peekLru = some (name, e) ∧ key ≤ e.lastUsed) ∧
    (0 < s'.entryCount → ∃ id ns name e s'',
      s'.scanVictim = some id ∧
      s'.slots.lookup id = some ns ∧ ns.entries.lookup name = some e ∧
      (∀ {id' ns' name' e'}, s'.slots.lookup id' = some ns' →
        ns'.entries.lookup name' = some e' → e.lastUsed ≤ e'.lastUsed) ∧
      s'.evictOne = some s'' ∧
      ∀ key, s''.peek key = if key = ⟨ns.name, name⟩ then none else s'.peek key) := by
  have hw := steps.wf h.wf
  refine ⟨hw.stamp_unique, fun hl => ?_, fun hn => ?_⟩
  case refine_1 =>
    refine ⟨(hw.slot hl).recent, (hw.slot hl).ordered, ?_⟩
    have ⟨key, _, hk, hle⟩ := hw.tails.tail hl
    refine ⟨key, hk, ?_⟩
    cases hp : Namespace.peekLru _
    case none   => exact absurd (Namespace.peekLru_eq_none_iff.mp hp) (hw.inhabited hl)
    case some p => exact ⟨p.1, p.2, rfl, hle (Namespace.lookup_of_peekLru hp)⟩
  case refine_2 =>
    have ⟨id, ns, name, e, tails, v, _, he⟩ := s'.evictOne_eq hw hn
    refine ⟨id, ns, name, e, _, v.scanVictim hw, v.slot, Namespace.lookup_of_peekLru v.lru,
      v.least, he, fun key => ?_⟩
    exact hw.peek_removed v.slot

theorem evictOne_of_two_namespaces :
    let s := ((execAll (fun _ => .replicate 32 0) (withBudgets 10000 [])
      [(0, .set ⟨[1], [2]⟩ [3]), (0, .set ⟨[4], [5]⟩ [6]), (1, .get ⟨[1], [2]⟩)]).get
      (by decide)).2
    s.scanVictim = some 1 ∧
    ∃ ns name s', s.evictOne = some s' ∧
      ∀ key, s'.peek key = if key = ⟨ns, name⟩ then none else s.peek key := by
  intro s
  have h : Reachable _ 10000 [] s := .of_execAll _ (by decide)
  have h := h.evictOne_least_recently_used .refl
  have ⟨_, ns, name, _, s', _, _, _, _, he, hp⟩ := h.right.right (by decide)
  exact ⟨by decide, ns.name, name, s', he, hp⟩

end Cache
end Nanocached
