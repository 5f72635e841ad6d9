import Nanocached.Cache.Theorems.Batches
import Nanocached.Cache.Theorems.GlobalLru

namespace Nanocached

variable {sha256 : Bytes → Vector UInt8 32} {ns name name' : Bytes} {id : Option Nat}
variable {now : Instant} {key : Key}

-- A use of another entry.
def Change.Spares (key : Key) (change : Change) : Prop :=
  ∃ key' ≠ key, change = .remove key' ∨ ∃ expiresAt, change = .retime key' expiresAt

namespace Store

variable {s s' : Store} {cs : List Change} {i : Nat} {n n' : Namespace}

-- The entries of a namespace are changed, but not the one of the key.
theorem WF.peek_update (h : s.WF sha256) (hl : s.slots.lookup i = some n)
    (hi : s'.namespaces = s.namespaces) (hs : s'.slots = s.slots.insert i n')
    (hk : key.ns = n.name → n'.entries.lookup key.name = n.entries.lookup key.name) :
    s'.peek key = s.peek key := by
  rw [peek_eq, peek_eq, h.find_update hl hi hs]
  split
  case isTrue hn  => rw [hn, h.find_of_lookup hl, Option.bind_some, Option.bind_some, hk hn]
  case isFalse hn => rfl

theorem Step.peek_of_spares {c : Option Change} (h : s.WF sha256) (step : Step sha256 c s s')
    (hc : ∀ change ∈ c, change.Spares key) : s'.peek key = s.peek key := by
  cases step with
  | tick | heap => rfl
  | hash hl     => exact h.peek_update hl rfl rfl fun _ => rfl
  | use hl he   =>
    obtain ⟨key', hn, hk | ⟨_, hk⟩⟩ := hc _ rfl
    · contradiction
    · cases hk
      refine h.peek_update hl rfl rfl fun hs => AList.lookup_insert_ne ?_
      exact fun he => hn (Key.ext hs he).symm
  | amend hl he =>
    obtain ⟨key', hn, hk | ⟨_, hk⟩⟩ := hc _ rfl
    · contradiction
    · cases hk
      refine h.peek_update hl rfl rfl fun hs => ?_
      dsimp only
      rw [AList.lookup_replace_eq_ite he, if_neg fun he => hn (Key.ext hs he).symm]
  | remove hl hm =>
    obtain ⟨key', hn, hk | ⟨_, hk⟩⟩ := hc _ rfl
    · cases hk
      rw [h.peek_removed hl, if_neg hn.symm]
    · contradiction
  | _ =>
    obtain ⟨key', hn, hk | ⟨_, hk⟩⟩ := hc _ rfl <;> contradiction

theorem Steps.peek_of_spares (h : s.WF sha256) (steps : Steps sha256 cs s s')
    (hc : ∀ change ∈ cs, change.Spares key) : s'.peek key = s.peek key := by
  induction steps
  case refl => rfl
  case head step _ hi =>
    rw [hi (step.wf h) fun _ hm => hc _ (List.mem_append_right _ hm)]
    exact step.peek_of_spares h fun _ hm => hc _ (List.mem_append_left _ (Option.mem_toList.mpr hm))

theorem Steps.isMarked_of_spares (h : s.WF sha256) (steps : Steps sha256 cs s s')
    (hc : ∀ change ∈ cs, change.Spares key) : s'.isMarked key = s.isMarked key := by
  obtain ⟨ha, he⟩ := steps.contents h
  have hm : key ∈ s'.contents.marked ↔ key ∈ s.contents.marked := by
    rw [he]
    refine Contents.applyAll_induction (P := fun c => key ∈ c.marked ↔ key ∈ s.contents.marked)
      ha Iff.rfl fun hm _ hi => ?_
    obtain ⟨key', hn, rfl | ⟨_, rfl⟩⟩ := hc _ hm
    · simp [Contents.apply, hn.symm, hi]
    · exact hi
  exact Bool.eq_iff_iff.mpr hm

end Store

namespace Cache

variable {s s' : Cache} {names : List Bytes} {ttl : Option Duration} {promote : Bool}
variable {maxValueBytes n n' : Nat} {touchedAtOnce touchedAtOnce' : Map Bytes Bytes}
variable {answer : Option Bytes} {answers : List (Option Bytes)} {found : Bytes → Option Bytes}

theorem spares_of_mem_access {c : Contents} {change : Change} {key' : Key}
    {f : Option Instant → Option Instant} (hn : key' ≠ key) (hm : change ∈ c.access now key' f) :
    change.Spares key := by
  rw [Contents.access] at hm
  split at hm
  case h_1 => contradiction
  case h_2 =>
    split at hm
    case isTrue  => exact ⟨key', hn, .inl (List.mem_singleton.mp hm)⟩
    case isFalse => exact ⟨key', hn, .inr ⟨_, List.mem_singleton.mp hm⟩⟩

theorem TouchesOne.spares (h : s.WF sha256) (hn : name ≠ name')
    (ho : TouchesOne ns ttl promote maxValueBytes now name n touchedAtOnce s
      answer n' touchedAtOnce' s') :
    s'.peek ⟨ns, name'⟩ = s.peek ⟨ns, name'⟩ ∧ s'.isMarked ⟨ns, name'⟩ = s.isMarked ⟨ns, name'⟩ := by
  have touched {r s₁} (he : s.touchAt ⟨ns, name⟩ ttl promote now = some (r, s₁)) :
      s₁.peek ⟨ns, name'⟩ = s.peek ⟨ns, name'⟩ ∧
        s₁.isMarked ⟨ns, name'⟩ = s.isMarked ⟨ns, name'⟩ := by
    obtain ⟨s₂, he', hs⟩ := touchAt_steps h ⟨ns, name⟩ ttl promote now
    obtain ⟨-, rfl⟩ := Prod.mk.inj (Option.some.inj (he.symm.trans he'))
    have hc {change} := @spares_of_mem_access now ⟨ns, name'⟩ s.contents change ⟨ns, name⟩
      (fun _ => ttl.bind (checkedAdd now)) (by simp [hn])
    exact ⟨hs.1.peek_of_spares h fun _ => hc, hs.1.isMarked_of_spares h fun _ => hc⟩
  cases ho
  case withheld          => exact ⟨rfl, rfl⟩
  case repeated          => exact ⟨rfl, rfl⟩
  case missed he         => exact touched he
  case touched he        => exact touched he

theorem spares_of_touchManyGo (h : s.WF sha256) (hr : s.Resolves id ns) (hn : name ∉ names)
    (he : touchManyGo id ttl promote maxValueBytes now names n touchedAtOnce s =
      some (answers, s')) :
    s'.peek ⟨ns, name⟩ = s.peek ⟨ns, name⟩ ∧ s'.isMarked ⟨ns, name⟩ = s.isMarked ⟨ns, name⟩ := by
  induction names generalizing s n touchedAtOnce answers
  case nil =>
    cases he
    exact ⟨rfl, rfl⟩
  case cons name' names hi =>
    obtain ⟨answer, rest, n', touchedAtOnce', s₁, -, ho, hw, hr', he⟩ :=
      touchManyGo_eq_cons h hr he
    obtain ⟨hne, hn⟩ := List.ne_and_not_mem_of_not_mem_cons hn
    obtain ⟨hp, hm⟩ := ho.spares h hne.symm
    obtain ⟨hp', hm'⟩ := hi hw hr' hn he
    exact ⟨hp'.trans hp, hm'.trans hm⟩

-- The answers, one for every name: its value, or none.
def Answers (found : Bytes → Option Bytes) (names : List Bytes) (answers : List (Option Bytes)) :
    Prop :=
  List.Forall₂ (fun name answer => ∀ value ∈ answer, found name = some value) names answers

theorem answers_none : Answers found names (names.map fun _ => none) := by
  induction names
  case nil          => exact .nil
  case cons _ _ hi  => exact .cons (by simp) hi

theorem valueBytes_none : valueBytes (names.map fun _ => none) = 0 := by
  simp [valueBytes]

theorem touchManyGo_bounded (h : s.WF sha256) (hr : s.Resolves id ns)
    (hf : ∀ name, (touchedAtOnce.lookup name).or (s.contents.liveValue now ⟨ns, name⟩) = found name)
    (he : touchManyGo id ttl promote maxValueBytes now names n touchedAtOnce s =
      some (answers, s')) :
    Answers found names answers ∧
      (maxValueBytes < usizeMax → n ≤ maxValueBytes → n + valueBytes answers ≤ maxValueBytes) := by
  induction names generalizing s n touchedAtOnce answers
  case nil =>
    cases he
    exact ⟨.nil, fun _ hn => hn⟩
  case cons name names hi =>
    obtain ⟨answer, rest, n', touchedAtOnce', s₁, rfl, ho, hw, hr', he⟩ :=
      touchManyGo_eq_cons h hr he
    obtain ⟨ha, -, hf⟩ := ho.answered h hf
    obtain ⟨hrest, hsum⟩ := hi hw hr' hf he
    refine ⟨.cons ha hrest, fun hm hn => ?_⟩
    obtain ⟨rfl, hb⟩ := ho.bounded hm hn
    rw [valueBytes_cons, ← Nat.add_assoc]
    exact hsum hm hb

theorem of_mem_fit {found : Option Bytes} {value : Bytes}
    (h : value ∈ (fit maxValueBytes n found).1) :
    found = some value := by
  cases found
  case none   => contradiction
  case some v =>
    rw [fit] at h
    split at h
    case isTrue  => exact h
    case isFalse => contradiction

theorem fit_bounded {found : Option Bytes} (h : ∀ value ∈ found, n + value.length ≤ usizeMax) :
    (fit maxValueBytes n found).2 = n + (fit maxValueBytes n found).1.elim 0 List.length ∧
      (n ≤ maxValueBytes → (fit maxValueBytes n found).2 ≤ maxValueBytes) := by
  cases found
  case none       => exact ⟨rfl, id⟩
  case some value =>
    rw [fit, wrappingAdd_eq (Nat.lt_succ_of_le (h value rfl))]
    split
    case isTrue hc => exact ⟨rfl, fun _ => hc⟩
    case isFalse   => exact ⟨rfl, id⟩

-- The lengths that are added up stay within a machine word: those of all the values after the first
-- `n` bytes, or that of any one of them on top of the bound.
def SumsFit (found : Bytes → Option Bytes) (maxValueBytes n : Nat) (names : List Bytes) : Prop :=
  n + valueBytes (names.map found) ≤ usizeMax ∨
    ∀ name ∈ names, ∀ value ∈ found name, maxValueBytes + value.length ≤ usizeMax

theorem getManyGo_bounded (h : s.WF sha256)
    (hr : s.Resolves id ns) (hf : ∀ name, s.contents.liveValue now ⟨ns, name⟩ = found name)
    (he : getManyGo id maxValueBytes now names n s = some (answers, s')) :
    Answers found names answers ∧
      (SumsFit found maxValueBytes n names → n ≤ maxValueBytes →
        n + valueBytes answers ≤ maxValueBytes) := by
  induction names generalizing s n answers
  case nil =>
    cases he
    exact ⟨.nil, fun _ hn => hn⟩
  case cons name names hi =>
    by_cases hlt : n < maxValueBytes
    case neg =>
      rw [getManyGo_of_full (Nat.le_of_not_lt hlt)] at he
      cases he
      exact ⟨answers_none, fun _ hn => by rwa [valueBytes_none, Nat.add_zero]⟩
    case pos =>
      obtain ⟨s₁, -, -, hw, hr', hv, hc⟩ := @getManyGo_cons _ id ns name now s _ _ h hr hlt
      obtain ⟨⟨rest, s₂⟩, hg, hp⟩ := Option.map_eq_some_iff.mp ((hc names).symm.trans he)
      cases hp
      rw [hf] at hg ⊢
      obtain ⟨hrest, hsum⟩ := hi hw hr' (fun name' => (hv ⟨ns, name'⟩).trans (hf name')) hg
      refine ⟨.cons (fun _ => of_mem_fit) hrest, fun hfit hn => ?_⟩
      have hone : ∀ value ∈ found name, n + value.length ≤ usizeMax := by
        intro value hm
        rcases hfit with hfit | hfit
        · simp only [List.map_cons, valueBytes_cons, Option.mem_def.mp hm, Option.elim_some] at hfit
          omega
        · exact (Nat.add_le_add_right hn _).trans (hfit name List.mem_cons_self value hm)
      obtain ⟨hnext, hle⟩ := fit_bounded hone
      rw [valueBytes_cons, ← Nat.add_assoc, ← hnext]
      refine hsum ?_ (hle hn)
      rcases hfit with hfit | hfit
      case inr => exact .inr fun name' hm => hfit name' (List.mem_cons_of_mem _ hm)
      case inl =>
        left
        rw [List.map_cons, valueBytes_cons] at hfit
        have hlen : (fit maxValueBytes n (found name)).1.elim 0 List.length ≤
            (found name).elim 0 List.length := by
          cases hfst : (fit maxValueBytes n (found name)).1
          case none   => exact Nat.zero_le _
          case some v => rw [of_mem_fit hfst]
        omega

-- A live name whose value is withheld every time it occurs might as well not occur.
theorem touchManyGo_without {value : Bytes} (h : s.WF sha256) (hr : s.Resolves id ns)
    (hf : ∀ name, (touchedAtOnce.lookup name).or (s.contents.liveValue now ⟨ns, name⟩) = found name)
    (hv : found name = some value)
    (he : touchManyGo id ttl promote maxValueBytes now names n touchedAtOnce s = some (answers, s'))
    (hn : ∀ p ∈ names.zip answers, p.1 = name → p.2 = none) :
    touchManyGo id ttl promote maxValueBytes now (names.filter (· ≠ name)) n touchedAtOnce s =
      some (((names.zip answers).filter (·.1 ≠ name)).map (·.2), s') := by
  induction names generalizing s n touchedAtOnce answers
  case nil =>
    cases he
    rfl
  case cons name' names hi =>
    obtain ⟨answer, n', touchedAtOnce', s₁, ho, -, hw, hr', hc⟩ := @touchManyGo_cons _ id ns name' now
      s maxValueBytes n ttl promote touchedAtOnce h hr
    obtain ⟨⟨rest, s₂⟩, hg, hp⟩ := Option.map_eq_some_iff.mp ((hc names).symm.trans he)
    cases hp
    obtain ⟨-, ha, hf'⟩ := ho.answered h hf
    have hrest := hi hw hr' hf' hg fun p hm => hn p (List.mem_cons_of_mem _ hm)
    by_cases hne : name' = name
    case neg =>
      rw [List.filter_cons_of_pos (by simpa using hne), hc, hrest, List.zip_cons_cons,
        List.filter_cons_of_pos (by simpa using hne)]
      rfl
    case pos =>
      subst hne
      have hnone : answer = none := hn (name', answer) List.mem_cons_self rfl
      subst hnone
      rw [List.filter_cons_of_neg (by simp), List.zip_cons_cons, List.filter_cons_of_neg (by simp)]
      cases ho
      case withheld => exact hrest
      case missed hm hl he =>
        have := hf name'
        rw [hm, hl, hv] at this
        contradiction

theorem Reachable.batches_bounded {maxMemoryBytes : UInt64} {budgets : List (Bytes × UInt64)}
    (h : Reachable sha256 maxMemoryBytes budgets s) (ns : Bytes) (names : List Bytes)
    (now : Instant) (hm : maxValueBytes ≤ usizeMax) :
    let found := fun name => s.contents.liveValue now ⟨ns, name⟩
    (∃ answers s', s.getMany ns names maxValueBytes now = some (answers, s') ∧
      answers.length = names.length ∧ Answers found names answers ∧
      (SumsFit found maxValueBytes 0 names → valueBytes answers ≤ maxValueBytes)) ∧
    ∀ ttl promote, ∃ answers s',
      s.touchMany ns names ttl promote maxValueBytes now = some (answers, s') ∧
      answers.length = names.length ∧ Answers found names answers ∧
      (maxValueBytes < usizeMax ∨ valueBytes (names.map found) ≤ usizeMax →
        valueBytes answers ≤ maxValueBytes) ∧
      ∀ name, (found name).isSome → (∀ p ∈ names.zip answers, p.1 = name → p.2 = none) →
        s'.peek ⟨ns, name⟩ = s.peek ⟨ns, name⟩ ∧
        s'.isMarked ⟨ns, name⟩ = s.isMarked ⟨ns, name⟩ ∧
        s.touchMany ns (names.filter (· ≠ name)) ttl promote maxValueBytes now =
          some (((names.zip answers).filter (·.1 ≠ name)).map (·.2), s') := by
  intro found
  have hr : s.Resolves (s.findNamespace ns) ns := .findNamespace _ _
  constructor
  case left =>
    obtain ⟨answers, s', he, -⟩ := getMany_uses h.wf ns names maxValueBytes now
    have hf (name : Bytes) : s.contents.liveValue now ⟨ns, name⟩ = found name := rfl
    obtain ⟨hans, hsum⟩ := getManyGo_bounded h.wf hr hf he
    refine ⟨answers, s', he, hans.length_eq.symm, hans, fun hfit => ?_⟩
    simpa using hsum hfit (Nat.zero_le _)
  case right =>
    intro ttl promote
    obtain ⟨answers, s', he, -⟩ := touchMany_uses h.wf ns names ttl promote maxValueBytes now
    have hf (name : Bytes) : ((∅ : Map Bytes Bytes).lookup name).or
        (s.contents.liveValue now ⟨ns, name⟩) = found name := by simp [found]
    obtain ⟨hans, hsum⟩ := touchManyGo_bounded h.wf hr hf he
    refine ⟨answers, s', he, hans.length_eq.symm, hans, fun hfit => ?_, fun name hv hn => ?_⟩
    · rcases hm.lt_or_eq with hlt | rfl
      · simpa using hsum hlt (Nat.zero_le _)
      · rw [answers_of_touchManyGo h.wf hr hf he]
        exact hfit.resolve_left (lt_irrefl _)
    · obtain ⟨value, hv⟩ := Option.isSome_iff_exists.mp hv
      have hw := touchManyGo_without h.wf hr hf hv he hn
      have hnot : name ∉ names.filter (· ≠ name) := by simp
      obtain ⟨hp, hk⟩ := spares_of_touchManyGo h.wf hr hnot hw
      exact ⟨hp, hk, hw⟩

-- The second value does not fit, and neither is touched if nothing fits.
theorem batches_bounded_of_withheld : ∃ es s,
    Run (fun _ => Vector.replicate 32 0) (withBudgets 0 []) es s ∧
      s.contents.liveValue 1 ⟨[], [107]⟩ = some [118] ∧
      (∃ answers s', s.getMany [] [[107], [107]] 1 1 = some (answers, s') ∧
        valueBytes answers ≤ 1) ∧
      ∃ s', s.touchMany [] [[107], [108]] none true 0 1 = some ([none, none], s') ∧
        s'.peek ⟨[], [107]⟩ = s.peek ⟨[], [107]⟩ := by
  obtain ⟨es, s, run, ht, hv⟩ : ∃ es s,
      Run (fun _ => Vector.replicate 32 0) (withBudgets 0 []) es s ∧ Timely es ∧
        s.contents.liveValue 1 ⟨[], [107]⟩ = some [118] :=
    ⟨[] ++ [⟨0, .set ⟨[], [107]⟩ [118], .done⟩], _, .tail .refl rfl, by simp [Timely], rfl⟩
  have h : Reachable (fun _ => Vector.replicate 32 0) 0 [] s := .intro ht run
  have hz : s.touchMany [] [[107], [108]] none true 0 1 = some ([none, none], s) := by
    simp [touchMany, touchManyGo, usizeMax]
  obtain ⟨answers, s₁, hg, -, -, hb⟩ :=
    (h.batches_bounded [] [[107], [107]] 1 (by decide : 1 ≤ usizeMax)).left
  obtain ⟨answers', s₂, htm, -, -, -, hw⟩ :=
    (h.batches_bounded [] [[107], [108]] 1 (by decide : 0 ≤ usizeMax)).right none true
  cases hz.symm.trans htm
  refine ⟨es, s, run, hv, ⟨answers, s₁, hg, hb (.inr ?_)⟩, s, hz, (hw [107] ?_ ?_).left⟩
  · simp [hv, usizeMax]
  · simp [hv]
  · simp

end Cache
end Nanocached
