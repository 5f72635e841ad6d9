import Nanocached.Cache.Theorems.Run
import Nanocached.Handoff.Slot

-- The clears that wait for a joining node, and what it removes when it carries them out.

namespace Nanocached
namespace ClearScope

def covers (key : Key) : ClearScope → Bool
  | .namespace ns => key.ns = ns
  | .all          => true

def name : ClearScope → Option Bytes
  | .namespace ns => some ns
  | .all          => none

-- The call by which a node carries out a clear.
def op : ClearScope → Cache.Op
  | .namespace ns => .clear ns
  | .all          => .clearAll

end ClearScope

namespace Cache

variable {sha256 : Bytes → Vector UInt8 32} {s : Cache}

theorem entry_of_clears (h : s.WF sha256) (now : Instant) (scope : ClearScope) : ∃ r s',
    exec sha256 s now scope.op = some (r, s') ∧
      ∀ key, s'.contents.entry key = if scope.covers key then none else s.contents.entry key := by
  cases scope with
  | «namespace» ns =>
    obtain ⟨cs, t, he, _, _, hc⟩ := Store.clear_steps h ns
    refine ⟨.count ((s.find ns).elim 0 (·.entries.size)), { s with toStore := t }, ?_, fun key => ?_⟩
    · simp only [ClearScope.op, exec, he, Option.bind_eq_bind, Option.bind_some]
      rfl
    · simp [hc, ClearScope.covers, Contents.apply]
  | all => exact ⟨_, _, rfl, fun key => rfl⟩

theorem execAll_clears (h : s.WF sha256) (clears : List (Instant × ClearScope)) : ∃ es s',
    s.execAll sha256 (clears.map fun clear => (clear.1, clear.2.op)) = some (es, s') ∧
      ∀ key, s'.contents.entry key =
        if clears.any (·.2.covers key) then none else s.contents.entry key := by
  induction clears generalizing s
  case nil => exact ⟨[], s, rfl, fun key => rfl⟩
  case cons clear clears hi =>
    obtain ⟨r, s₁, he, hc⟩ := entry_of_clears h clear.1 clear.2
    obtain ⟨es, s', he', hc'⟩ := hi (wf_of_exec h he)
    refine ⟨⟨clear.1, clear.2.op, r⟩ :: es, s', ?_, fun key => ?_⟩
    · simp [execAll, he, he']
    · rw [hc', hc, List.any_cons]
      cases clear.2.covers key
      case false => rfl
      case true  => simp

end Cache

namespace PendingClears

inductive Op
  | push (scope : ClearScope)
  | take

def exec (clears : PendingClears) : Op → PendingClears
  | .push scope => clears.push scope
  | .take       => empty

def run (ops : List Op) : PendingClears :=
  ops.foldl exec empty

-- The scopes that were pushed since the previous `take`.
def pushed (ops : List Op) : List ClearScope :=
  ops.foldl (fun scopes op =>
    match op with
    | .push scope => scopes ++ [scope]
    | .take       => []) []

-- The namespaces among them.
def names (scopes : List ClearScope) : Finset Bytes :=
  (scopes.filterMap ClearScope.name).toFinset

-- More was pushed than can be kept.
def Exceeds (scopes : List ClearScope) : Prop :=
  maxPendingClearNamespaces < (names scopes).card ∨
    maxPendingClearBytes < ∑ ns ∈ names scopes, ns.length

variable {scopes : List ClearScope} {scope : ClearScope} {clears : PendingClears}

theorem names_append : names (scopes ++ [scope]) = names scopes ∪ scope.name.toFinset := by
  rw [names, List.filterMap_append, List.toFinset_append]
  cases scope <;> rfl

theorem Exceeds.append (h : Exceeds scopes) : Exceeds (scopes ++ [scope]) := by
  have hs : names scopes ⊆ names (scopes ++ [scope]) := by
    rw [names_append]
    exact Finset.subset_union_left
  exact h.imp (·.trans_le (Finset.card_le_card hs))
    (·.trans_le (Finset.sum_le_sum_of_subset hs))

-- What is held for the scopes that were pushed.
structure Holds (scopes : List ClearScope) (clears : PendingClears) : Prop where
  nodup     : clears.namespaces.Nodup
  bytes     : clears.bytes = (clears.namespaces.map List.length).sum
  length    : clears.namespaces.length ≤ maxPendingClearNamespaces
  collapsed : clears.all → .all ∈ scopes ∨ Exceeds scopes
  kept      : clears.all = false → .all ∉ scopes ∧ names scopes = clears.namespaces.toFinset

namespace Holds

theorem empty : Holds [] empty where
  nodup     := .nil
  bytes     := rfl
  length    := Nat.zero_le _
  collapsed := fun h => by contradiction
  kept      := fun _ => ⟨List.not_mem_nil, rfl⟩

theorem collapseToAll (h : .all ∈ scopes ∨ Exceeds scopes) : Holds scopes collapseToAll where
  nodup     := .nil
  bytes     := rfl
  length    := Nat.zero_le _
  collapsed := fun _ => h
  kept      := fun h => by contradiction

-- The namespaces with a new one among them, before it is looked at how many there are.
theorem insert (h : Holds scopes clears) (ha : clears.all = false) (ns : Bytes) :
    let clears := if ns ∈ clears.namespaces then clears else
      { clears with namespaces := ns :: clears.namespaces, bytes := clears.bytes + ns.length }
    clears.all = false ∧ clears.namespaces.Nodup ∧
      clears.bytes = (clears.namespaces.map List.length).sum ∧
      names (scopes ++ [.namespace ns]) = clears.namespaces.toFinset := by
  obtain ⟨_, hn⟩ := h.kept ha
  have hi : names (scopes ++ [.namespace ns]) = Insert.insert ns clears.namespaces.toFinset := by
    rw [names_append, hn, ClearScope.name]
    exact Finset.union_comm _ _
  dsimp only
  split
  case isTrue hm =>
    refine ⟨ha, h.nodup, h.bytes, ?_⟩
    rw [hi, Finset.insert_eq_of_mem (List.mem_toFinset.mpr hm)]
  case isFalse hm =>
    refine ⟨ha, List.nodup_cons.mpr ⟨hm, h.nodup⟩, ?_, ?_⟩
    · simp [h.bytes, Nat.add_comm]
    · rw [hi, List.toFinset_cons]

theorem push (h : Holds scopes clears) (scope : ClearScope) :
    Holds (scopes ++ [scope]) (clears.push scope) := by
  unfold PendingClears.push
  split
  case isTrue ha =>
    refine { h with collapsed := fun _ => ?_, kept := fun hf => ?_ }
    · exact (h.collapsed ha).imp (List.mem_append_left _) Exceeds.append
    · rw [ha] at hf
      contradiction
  case isFalse ha =>
    have ha := Bool.eq_false_iff.mpr ha
    cases scope with
    | all => exact collapseToAll (.inl (by simp))
    | «namespace» ns =>
      obtain ⟨ha', hnd, hb, hn⟩ := h.insert ha ns
      dsimp only at ha' hnd hb hn ⊢
      generalize (if ns ∈ clears.namespaces then _ else _) = clears' at ha' hnd hb hn ⊢
      have hcard : (names (scopes ++ [.namespace ns])).card = clears'.namespaces.length := by
        rw [hn, List.toFinset_card_of_nodup hnd]
      have hsum : ∑ ns ∈ names (scopes ++ [.namespace ns]), ns.length = clears'.bytes := by
        rw [hn, List.sum_toFinset _ hnd, hb]
      split
      case isTrue hx =>
        refine collapseToAll (.inr ?_)
        rw [Exceeds, hcard, hsum]
        exact hx
      case isFalse hx =>
        obtain ⟨hl, _⟩ := not_or.mp hx
        refine ⟨hnd, hb, not_lt.mp hl, fun ht => ?_, fun _ => ⟨?_, hn⟩⟩
        · rw [ha'] at ht
          contradiction
        · simpa using (h.kept ha).1

-- What was asked for is cleared, and nothing else unless the namespaces have been given up.
theorem covers_take (h : Holds scopes clears) (key : Key) :
    (scopes.any (·.covers key) → clears.take.any (·.covers key)) ∧
      (.all ∉ scopes → ¬Exceeds scopes →
        clears.take.any (·.covers key) → scopes.any (·.covers key)) := by
  unfold take
  split
  case isTrue ha =>
    refine ⟨fun _ => rfl, fun hall hx => ?_⟩
    exact absurd (h.collapsed ha) (not_or.mpr ⟨hall, hx⟩)
  case isFalse ha =>
    obtain ⟨hall, hn⟩ := h.kept (Bool.eq_false_iff.mpr ha)
    have hm (ns) : .namespace ns ∈ scopes ↔ ns ∈ clears.namespaces := by
      have hnm : ns ∈ clears.namespaces ↔ ns ∈ names scopes := by rw [hn, List.mem_toFinset]
      rw [hnm, names, List.mem_toFinset, List.mem_filterMap]
      constructor
      case mp => exact fun hm => ⟨_, hm, rfl⟩
      case mpr =>
        rintro ⟨scope, hm, hs⟩
        cases scope with
        | «namespace» ns' =>
          cases hs
          exact hm
        | all => contradiction
    simp only [List.any_eq_true, List.mem_map]
    constructor
    case left =>
      rintro ⟨scope, hs, hc⟩
      cases scope with
      | all            => exact absurd hs hall
      | «namespace» ns => exact ⟨_, ⟨ns, (hm ns).mp hs, rfl⟩, hc⟩
    case right =>
      rintro _ _ ⟨_, ⟨ns, hs, rfl⟩, hc⟩
      exact ⟨_, (hm ns).mpr hs, hc⟩

end Holds

theorem holds_run (ops : List Op) : Holds (pushed ops) (run ops) := by
  induction ops using List.reverseRecOn
  case nil => exact .empty
  case append_singleton ops op hi =>
    rw [pushed, run, List.foldl_append, List.foldl_append]
    cases op with
    | push scope => exact hi.push scope
    | take       => exact .empty

variable {sha256 : Bytes → Vector UInt8 32}

theorem take_covers_pushed (ops : List Op) :
    (run ops).namespaces.Nodup ∧
    (run ops).namespaces.length ≤ maxPendingClearNamespaces ∧
    (run ops).bytes = ((run ops).namespaces.map List.length).sum ∧
    ∀ {maxMemoryBytes budgets s}, Cache.Reachable sha256 maxMemoryBytes budgets s →
      ∀ clears : List (Instant × ClearScope), (clears.map (·.2)).Perm (run ops).take → ∃ es s',
        s.execAll sha256 (clears.map fun clear => (clear.1, clear.2.op)) = some (es, s') ∧
        (∀ key, (pushed ops).any (·.covers key) → s'.contents.entry key = none) ∧
        (.all ∉ pushed ops → ¬Exceeds (pushed ops) →
          ∀ key, (pushed ops).any (·.covers key) = false →
            s'.contents.entry key = s.contents.entry key) := by
  have h := holds_run ops
  refine ⟨h.nodup, h.length, h.bytes, fun hr clears hp => ?_⟩
  obtain ⟨es, s', he, hc⟩ := Cache.execAll_clears hr.wf clears
  have ha (key) : clears.any (·.2.covers key) = (run ops).take.any (·.covers key) := by
    rw [← hp.any_eq, List.any_map]
    rfl
  refine ⟨es, s', he, fun key hk => ?_, fun hall hx key hk => ?_⟩
  · rw [hc, ha, if_pos ((h.covers_take key).1 hk)]
  · rw [hc, ha, if_neg fun ht => ?_]
    rw [(h.covers_take key).2 hall hx ht] at hk
    contradiction

-- Two pushes of one namespace.
theorem take_covers_pushed_twice :
    let sha256 : Bytes → Vector UInt8 32 := fun _ => .replicate 32 0
    let ops : List Op := [.push (.namespace [97]), .push (.namespace [97])]
    (run ops).take = [.namespace [97]] ∧
    ∃ s, Cache.Reachable sha256 10000 [] s ∧ (s.contents.entry ⟨[97], [1]⟩).isSome ∧
      ∃ es s', s.execAll sha256 [(0, .clear [97])] = some (es, s') ∧
        s'.contents.entry ⟨[97], [1]⟩ = none := by
  intro sha256 ops
  have hr := @Cache.Reachable.of_execAll sha256 [(0, .set ⟨[97], [1]⟩ [2])] 10000 [] (by decide)
    (by decide)
  obtain ⟨_, _, _, ht⟩ := @take_covers_pushed sha256 ops
  obtain ⟨es, s', he, hc, _⟩ := ht hr [(0, .namespace [97])] (by decide)
  exact ⟨rfl, _, hr, by decide, es, s', he, hc _ (by decide)⟩

end PendingClears
end Nanocached
