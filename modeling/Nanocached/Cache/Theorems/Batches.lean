import Nanocached.Cache.Theorems.Run

namespace Nanocached

variable {sha256 : Bytes → Vector UInt8 32} {ns name : Bytes} {id : Option Nat} {now : Instant}

namespace Cache

variable {s s' : Cache} {β : Type}

-- Calls for one name after the other.
def each (call : Bytes → Cache → Option (β × Cache)) : List Bytes → Cache → Option (List β × Cache)
  | [], s => some ([], s)
  | name :: names, s => do
    let (result, s) ← call name s
    let (results, s) ← each call names s
    return (result :: results, s)

section SetMany

variable {items : List (Bytes × Bytes)} {ttl : Option Duration}

-- A write of one item.
def setOne (ns : Bytes) (ttl : Option Duration) (now : Instant) (s : Cache) (item : Bytes × Bytes) :
    Option Cache :=
  match ttl with
  | none     => s.set ⟨ns, item.1⟩ item.2
  | some ttl => s.setWithTtl ⟨ns, item.1⟩ item.2 ttl now

theorem setManyGo_eq_foldlM (h : s.WF sha256)
    (hi : ∀ i ∈ id, i ∈ s.slots → s.findNamespace ns = some i) :
    setManyGo ns (ttl.bind (checkedAdd now)) items id s = items.foldlM (setOne ns ttl now) s := by
  induction items generalizing s id
  case nil => rfl
  case cons item items hr =>
    obtain ⟨name, value⟩ := item
    rcases he : s.ensureNamespace ns with ⟨live, t⟩
    have hl := (liveNamespace_eq (s := { s with sets := s.sets + 1 }) hi).trans he
    obtain ⟨keys, s₁, hi₁, hs₁, -, hm⟩ := insertInto_steps
      (s := { s with sets := s.sets + 1 }) h ⟨ns, name⟩ value (ttl.bind (checkedAdd now)) he
    have hone : setOne ns ttl now s (name, value) = some s₁ := by
      cases ttl <;> simp only [setOne, set, setWithTtl, insert, he] <;> exact hi₁
    have hlive : ∀ i ∈ some live, i ∈ s₁.slots → s₁.findNamespace ns = some i := by
      intro i hi
      cases hi
      exact hm
    rw [setManyGo, List.foldlM_cons, hone]
    simp only [hl, hi₁, Option.bind_eq_bind, Option.bind_some]
    exact hr (hs₁.wf h) hlive

theorem setMany_eq_foldlM (h : s.WF sha256) :
    s.setMany ns items ttl now = items.foldlM (setOne ns ttl now) s :=
  setManyGo_eq_foldlM h (by simp)

end SetMany

-- The lengths of the values among the answers.
def valueBytes (answers : List (Option Bytes)) : Nat :=
  (answers.map fun answer => answer.elim 0 List.length).sum

@[simp]
theorem valueBytes_nil : valueBytes [] = 0 :=
  rfl

@[simp]
theorem valueBytes_cons {answer : Option Bytes} {answers : List (Option Bytes)} :
    valueBytes (answer :: answers) = answer.elim 0 List.length + valueBytes answers :=
  rfl

theorem wrappingAdd_eq {a b : Nat} (h : a + b < 2 ^ 64) : wrappingAdd a b = a + b :=
  Nat.mod_eq_of_lt h

section GetMany

variable {names : List Bytes} {maxValueBytes n : Nat} {answers : List (Option Bytes)}

-- A bound that is not reached does not matter.
theorem getManyGo_eq_each (h : s.WF sha256) (hr : s.Resolves id ns)
    (hm : maxValueBytes ≤ usizeMax)
    (he : each (fun name s => s.getAt ⟨ns, name⟩ now) names s = some (answers, s'))
    (hn : n + valueBytes answers < maxValueBytes) :
    getManyGo id maxValueBytes now names n s = some (answers, s') := by
  induction names generalizing s n answers
  case nil =>
    cases he
    rfl
  case cons name names hi =>
    obtain ⟨s₁, hg, -, hw, hr', -, hc⟩ := @getManyGo_cons _ id ns name now s _ _ h hr
      (Nat.lt_of_le_of_lt (Nat.le_add_right ..) hn)
    simp only [each, hg, Option.bind_eq_bind, Option.bind_some, Option.bind_eq_some_iff] at he
    obtain ⟨⟨rest, s₂⟩, he, hp⟩ := he
    cases hp
    rw [valueBytes_cons] at hn
    dsimp only at hn
    rw [hc]
    cases hv : s.contents.liveValue now ⟨ns, name⟩
    case none =>
      rw [hv] at hn
      rw [fit, hi hw hr' he (by simpa using hn)]
      rfl
    case some value =>
      rw [hv, Option.elim_some] at hn
      have hw64 : wrappingAdd n value.length = n + value.length := by
        refine wrappingAdd_eq ?_
        simp only [usizeMax] at hm
        omega
      rw [fit, hw64, if_pos (by omega), hi hw hr' he (by omega)]
      rfl

end GetMany

section TouchMany

variable {names : List Bytes} {ttl : Option Duration} {promote : Bool} {maxValueBytes n n' : Nat}
variable {touchedAtOnce touchedAtOnce' : Map Bytes Bytes} {answer : Option Bytes}

-- The loop, one name after the other.
theorem touchManyGo_eq_cons {answers : List (Option Bytes)} (h : s.WF sha256)
    (hr : s.Resolves id ns)
    (he : touchManyGo id ttl promote maxValueBytes now (name :: names) n touchedAtOnce s =
      some (answers, s')) : ∃ answer rest n' touchedAtOnce' s₁,
    answers = answer :: rest ∧
    TouchesOne ns ttl promote maxValueBytes now name n touchedAtOnce s
      answer n' touchedAtOnce' s₁ ∧
    s₁.WF sha256 ∧ s₁.Resolves id ns ∧
    touchManyGo id ttl promote maxValueBytes now names n' touchedAtOnce' s₁ = some (rest, s') := by
  obtain ⟨answer, n', touchedAtOnce', s₁, ho, -, hw, hr', hc⟩ := @touchManyGo_cons _ id ns name now s
    maxValueBytes n ttl promote touchedAtOnce h hr
  obtain ⟨⟨rest, s₂⟩, hg, hp⟩ := Option.map_eq_some_iff.mp ((hc names).symm.trans he)
  cases hp
  exact ⟨answer, rest, n', touchedAtOnce', s₁, rfl, ho, hw, hr', hg⟩

theorem not_expired_of_ttl (ht : ttl ≠ some 0) : (ttl.bind (checkedAdd now)).all (now < ·) := by
  cases ttl
  case none     => rfl
  case some ttl =>
    have hp : 0 < ttl := Nat.pos_of_ne_zero fun hz => ht (congrArg some hz)
    rw [Option.bind_some, checkedAdd]
    split
    case isTrue  => simpa using hp
    case isFalse => rfl

theorem contents_of_touchAt {key : Key} {touched : Option (Bytes × Option Duration)}
    (h : s.WF sha256) (he : s.touchAt key ttl promote now = some (touched, s')) :
    s'.contents =
      s.contents.applyAll (s.contents.access now key fun _ => ttl.bind (checkedAdd now)) := by
  obtain ⟨s₁, he', hs⟩ := touchAt_steps h key ttl promote now
  obtain ⟨-, rfl⟩ := Prod.mk.inj (Option.some.inj (he.symm.trans he'))
  exact (hs.contents h).right

-- With the values handed out for names that expired right away, every name has the value it had
-- before the batch.
theorem TouchesOne.answered {found : Bytes → Option Bytes} (h : s.WF sha256)
    (hf : ∀ name', (touchedAtOnce.lookup name').or (s.contents.liveValue now ⟨ns, name'⟩) =
      found name')
    (ho : TouchesOne ns ttl promote maxValueBytes now name n touchedAtOnce s
      answer n' touchedAtOnce' s') :
    (∀ value ∈ answer, found name = some value) ∧
    (Fits maxValueBytes n (found name) → answer = found name) ∧
    ∀ name', (touchedAtOnce'.lookup name').or (s'.contents.liveValue now ⟨ns, name'⟩) =
      found name' := by
  cases ho
  case withheld hn =>
    refine ⟨by simp, fun hc => absurd hc ?_, hf⟩
    rwa [hf] at hn
  case repeated value hc hm =>
    have hv := hf name
    rw [hm, Option.some_or] at hv
    exact ⟨by simp [← hv], fun _ => hv, hf⟩
  case missed hc hm hl he =>
    have hv := hf name
    rw [hm, Option.none_or, hl] at hv
    refine ⟨by simp, fun _ => hv, fun name' => ?_⟩
    by_cases hn : name' = name
    case pos =>
      rw [hn, hm, Option.none_or, contents_of_touchAt h he, Contents.liveValue_access_of_none hl, hv]
    case neg =>
      rw [contents_of_touchAt h he, Contents.liveValue_access_of_ne (by simp [hn]), hf]
  case touched value remaining hc hm hl he =>
    have hv := hf name
    rw [hm, Option.none_or, hl] at hv
    refine ⟨by simp [← hv], fun _ => hv, fun name' => ?_⟩
    by_cases ht : ttl = some 0
    case pos =>
      rw [if_pos ht]
      by_cases hn : name' = name
      case pos => rw [hn, AList.lookup_insert, Option.some_or, hv]
      case neg =>
        rw [AList.lookup_insert_ne hn, contents_of_touchAt h he,
          Contents.liveValue_access_of_ne (by simp [hn]), hf]
    case neg =>
      rw [if_neg ht, contents_of_touchAt h he,
        Contents.liveValue_access fun _ => not_expired_of_ttl ht, hf]

-- A bound other than the largest one is kept to.
theorem TouchesOne.bounded (hm : maxValueBytes < usizeMax)
    (ho : TouchesOne ns ttl promote maxValueBytes now name n touchedAtOnce s
      answer n' touchedAtOnce' s') (hn : n ≤ maxValueBytes) :
    n' = n + answer.elim 0 List.length ∧ n' ≤ maxValueBytes := by
  have fits {value : Bytes} (hf : Fits maxValueBytes n (some value)) :
      saturatingAdd n value.length = n + value.length ∧ n + value.length ≤ maxValueBytes := by
    have hle := (hf.resolve_left hm.ne).right value rfl
    simp only [saturatingAdd] at hle ⊢
    omega
  cases ho
  case withheld        => exact ⟨rfl, hn⟩
  case repeated hf _   => exact ⟨(fits hf).left, (fits hf).left.trans_le (fits hf).right⟩
  case missed          => exact ⟨rfl, hn⟩
  case touched hf _ _ _ => exact ⟨(fits hf).left, (fits hf).left.trans_le (fits hf).right⟩

theorem fits_usizeMax {value : Option Bytes} : Fits usizeMax n value :=
  .inl rfl

-- Without a bound, and unless the names expire right away, each of them is touched on its own.
theorem touchManyGo_eq_each (h : s.WF sha256) (hr : s.Resolves id ns) (ht : ttl ≠ some 0) :
    touchManyGo id ttl promote usizeMax now names n ∅ s =
      each (fun name s => (s.touchAt ⟨ns, name⟩ ttl promote now).map fun r =>
        (r.1.map (·.1), r.2)) names s := by
  induction names generalizing s n
  case nil => rfl
  case cons name names hi =>
    obtain ⟨answer, n', touchedAtOnce', s₁, ho, -, hw, hr', hc⟩ := @touchManyGo_cons _ id ns name now
      s usizeMax n ttl promote ∅ h hr
    rw [hc, each]
    cases ho
    case withheld hn         => exact absurd fits_usizeMax hn
    case repeated hm         => contradiction
    case missed _ he         => rw [hi hw hr', he, Option.map_eq_bind]; rfl
    case touched _ _ _ _ he  => rw [if_neg ht, hi hw hr', he, Option.map_eq_bind]; rfl

theorem answers_of_touchManyGo {found : Bytes → Option Bytes} {answers : List (Option Bytes)}
    (h : s.WF sha256) (hr : s.Resolves id ns)
    (hf : ∀ name, (touchedAtOnce.lookup name).or (s.contents.liveValue now ⟨ns, name⟩) = found name)
    (he : touchManyGo id ttl promote usizeMax now names n touchedAtOnce s = some (answers, s')) :
    answers = names.map found := by
  induction names generalizing s n touchedAtOnce answers
  case nil =>
    cases he
    rfl
  case cons name names hi =>
    obtain ⟨answer, rest, n', touchedAtOnce', s₁, rfl, ho, hw, hr', he⟩ :=
      touchManyGo_eq_cons h hr he
    obtain ⟨-, ha, hf⟩ := ho.answered h hf
    rw [ha fits_usizeMax, hi hw hr' hf he, List.map_cons]

end TouchMany

section Folds

theorem exists_each_getAt (h : s.WF sha256) (names : List Bytes) : ∃ s',
    each (fun name s => s.getAt ⟨ns, name⟩ now) names s =
      some (names.map fun name => s.contents.liveValue now ⟨ns, name⟩, s') := by
  induction names generalizing s
  case nil => exact ⟨s, rfl⟩
  case cons name names hi =>
    obtain ⟨s₁, hg, hs⟩ := getAt_steps h ⟨ns, name⟩ now
    obtain ⟨s', he⟩ := hi (hs.wf h)
    refine ⟨s', ?_⟩
    simp only [liveValue_of_getAt h hg] at he
    simp only [each, hg, he, Option.bind_eq_bind, Option.bind_some]
    rfl

theorem Reachable.batches_eq_folds {maxMemoryBytes : UInt64} {budgets : List (Bytes × UInt64)}
    (h : Reachable sha256 maxMemoryBytes budgets s) (ns : Bytes) (now : Instant) :
    (∀ items ttl, s.setMany ns items ttl now = items.foldlM (setOne ns ttl now) s) ∧
    (∀ names, ∃ answers s',
      each (fun name s => s.getAt ⟨ns, name⟩ now) names s = some (answers, s') ∧
      (valueBytes answers < usizeMax →
        s.getMany ns names usizeMax now = some (answers, s'))) ∧
    (∀ names ttl promote, ttl ≠ some 0 →
      s.touchMany ns names ttl promote usizeMax now =
        each (fun name s => (s.touchAt ⟨ns, name⟩ ttl promote now).map fun r =>
          (r.1.map (·.1), r.2)) names s) ∧
    ∀ names promote, ∃ s',
      s.touchMany ns names (some 0) promote usizeMax now =
        some (names.map fun name => s.contents.liveValue now ⟨ns, name⟩, s') := by
  have hr : s.Resolves (s.findNamespace ns) ns := .findNamespace _ _
  refine ⟨fun items ttl => setMany_eq_foldlM h.wf, fun names => ?_, fun names ttl promote ht => ?_,
    fun names promote => ?_⟩
  case refine_1 =>
    obtain ⟨s', he⟩ := exists_each_getAt h.wf names
    refine ⟨_, s', he, fun hn => getManyGo_eq_each h.wf hr le_rfl he ?_⟩
    rwa [Nat.zero_add]
  case refine_2 => exact touchManyGo_eq_each h.wf hr ht
  case refine_3 =>
    obtain ⟨answers, s', he, -⟩ := touchMany_uses h.wf ns names (some 0) promote usizeMax now
    refine ⟨s', ?_⟩
    rw [he, answers_of_touchManyGo h.wf hr (fun name => ?_) he]
    simp

theorem batches_eq_folds_of_repeated : ∃ es s,
    Run (fun _ => Vector.replicate 32 0) (withBudgets 0 []) es s ∧ es.length = 1 ∧
      s.getMany [] [[107], [107], [108]] usizeMax 1 =
        each (fun name s => s.getAt ⟨[], name⟩ 1) [[107], [107], [108]] s ∧
      s.touchMany [] [[107], [107]] (some 1) true usizeMax 1 =
        each (fun name s => (s.touchAt ⟨[], name⟩ (some 1) true 1).map fun r =>
          (r.1.map (·.1), r.2)) [[107], [107]] s ∧
      ∃ s', s.touchMany [] [[107], [107]] (some 0) true usizeMax 1 =
        some ([some [118], some [118]], s') := by
  obtain ⟨es, s, run, ht, hn, hv, hv'⟩ : ∃ es s,
      Run (fun _ => Vector.replicate 32 0) (withBudgets 0 []) es s ∧ Timely es ∧ es.length = 1 ∧
        s.contents.liveValue 1 ⟨[], [107]⟩ = some [118] ∧
        s.contents.liveValue 1 ⟨[], [108]⟩ = none :=
    ⟨[] ++ [⟨0, .set ⟨[], [107]⟩ [118], .done⟩], _, .tail .refl rfl, by simp [Timely], rfl, rfl,
      rfl⟩
  have h : Reachable (fun _ => Vector.replicate 32 0) 0 [] s := .intro ht run
  obtain ⟨-, hg, htouch, hz⟩ := h.batches_eq_folds [] 1
  obtain ⟨answers, s₁, he, hb⟩ := hg [[107], [107], [108]]
  refine ⟨es, s, run, hn, ?_, htouch _ _ _ (by decide), ?_⟩
  · obtain ⟨s₂, he'⟩ : ∃ s₂, each (fun name s => s.getAt ⟨[], name⟩ 1) _ s = some (_, s₂) :=
      exists_each_getAt h.wf [[107], [107], [108]]
    cases he.symm.trans he'
    rw [he]
    refine hb ?_
    simp only [List.map_cons, List.map_nil, hv, hv']
    decide
  · obtain ⟨s', he⟩ := hz [[107], [107]] true
    exact ⟨s', by simpa [hv] using he⟩

-- A bound that one value uses up leaves the second touch without an answer.
theorem batches_run_out : ∃ es s s',
    Run (fun _ => Vector.replicate 32 0) (withBudgets 0 []) es s ∧ Timely es ∧
      s.contents.liveValue 1 ⟨[], [107]⟩ = some [118] ∧
      s.touchMany [] [[107], [107]] (some 0) true 1 1 = some ([some [118], none], s') :=
  ⟨[] ++ [⟨0, .set ⟨[], [107]⟩ [118], .done⟩], _, _, .tail .refl rfl, by simp [Timely], rfl, rfl⟩

end Folds
end Cache
end Nanocached
