import Nanocached.Cache.Theorems.Run

namespace Nanocached

-- A cache that computes a digest whenever it needs one. What it keeps of it is charged all the same,
-- but never looked at.
section Hashing

variable (sha256 : Bytes → Vector UInt8 32)

def Store.hashOf (s : Store) (key : Key) : Option Digest :=
  (s.peek key).map fun entry => contentDigest sha256 entry.value

namespace Cache

def conditionHoldsHashing (s : Cache) (key : Key) (condition : CasCondition) (now : Instant) :
    Option (Bool × Cache) := do
  let s ← s.removeExpired key now
  match condition with
  | .digest expected =>
    return ((s.hashOf sha256 key).any fun digest => constantTimeEq digest.toList expected.toList,
      { s with toStore := (s.digestOf sha256 key).2 })
  | .absent  => return ((s.peek key).isNone, s)
  | .present => return ((s.peek key).isSome, s)

def casSetHashing (s : Cache) (key : Key) (condition : CasCondition) (value : Bytes)
    (ttl : Option Duration) (now : Instant) : Option (CasResult × Cache) := do
  let (holds, s) ← s.conditionHoldsHashing sha256 key condition now
  if !holds then
    return (.mismatch, s)
  else
    let expiresAt := ttl.bind (checkedAdd now)
    return (.stored, ← { s with casSets := s.casSets + 1 }.insert key value expiresAt)

def casDeleteHashing (s : Cache) (key : Key) (expected : Digest) (now : Instant) :
    Option (Bool × Cache) := do
  let (holds, s) ← s.conditionHoldsHashing sha256 key (.digest expected) now
  if !holds then
    return (false, s)
  else
    let s := { s with casDeletes := s.casDeletes + 1 }
    let (_, t) ← s.removeEntry key
    return (true, { s with toStore := t })

-- No other call needs a digest.
def execHashing (s : Cache) (now : Instant) : Op → Option (Response × Cache)
  | .casSet key condition value ttl => do
    let (result, s) ← s.casSetHashing sha256 key condition value ttl now
    return (.cas result, s)
  | .casDelete key expected => do
    let (result, s) ← s.casDeleteHashing sha256 key expected now
    return (.flag result, s)
  | op => exec sha256 s now op

def execAllHashing (s : Cache) : List (Instant × Op) → Option (List Event × Cache)
  | [] => some ([], s)
  | (now, op) :: calls => do
    let (r, s) ← execHashing sha256 s now op
    let (es, s) ← execAllHashing s calls
    return (⟨now, op, r⟩ :: es, s)

end Cache
end Hashing

variable {sha256 : Bytes → Vector UInt8 32}

theorem Store.WF.digestOf_eq {s : Store} (h : s.WF sha256) (key : Key) :
    (s.digestOf sha256 key).1 = s.hashOf sha256 key := by
  obtain ⟨s', hd, -⟩ := digestOf_steps h key
  rw [hd, hashOf, contents, Option.map_map]
  rfl

namespace Cache

variable {s : Cache} {now : Instant} {op : Op} {calls : List (Instant × Op)}

theorem conditionHoldsHashing_eq (h : s.WF sha256) (key : Key) (condition : CasCondition)
    (now : Instant) :
    s.conditionHoldsHashing sha256 key condition now =
      s.conditionHoldsAt sha256 key condition now := by
  obtain ⟨s₁, he, hs⟩ := s.removeExpired_steps h key now
  simp only [conditionHoldsHashing, conditionHoldsAt, he, Option.bind_eq_bind, Option.bind_some]
  cases condition
  case absent          => rfl
  case present         => rfl
  case digest expected => rw [← (hs.wf h).digestOf_eq key]

theorem execHashing_eq (h : s.WF sha256) (now : Instant) (op : Op) :
    execHashing sha256 s now op = exec sha256 s now op := by
  cases op
  case casSet =>
    simp only [execHashing, exec, casSetHashing, casSetAt, conditionHoldsHashing_eq h]
  case casDelete =>
    simp only [execHashing, exec, casDeleteHashing, casDeleteAt, conditionHoldsHashing_eq h]
  all_goals rfl

theorem execAllHashing_eq (h : s.WF sha256) (calls : List (Instant × Op)) :
    execAllHashing sha256 s calls = execAll sha256 s calls := by
  induction calls generalizing s
  case nil => rfl
  case cons call calls hi =>
    obtain ⟨now, op⟩ := call
    rw [execAllHashing, execAll, execHashing_eq h]
    cases he : exec sha256 s now op
    case none => rfl
    case some outcome =>
      simp only [Option.bind_eq_bind, Option.bind_some, hi (wf_of_exec h he)]

-- A digest that is kept is the one of the value in store, which is what every call is answered by.
theorem Reachable.digests_coherent {maxMemoryBytes : UInt64} {budgets : List (Bytes × UInt64)}
    (h : Reachable sha256 maxMemoryBytes budgets s) :
    (∀ id ns name digest, s.slots.lookup id = some ns → ns.digests.lookup name = some digest →
      ∃ entry, ns.entries.lookup name = some entry ∧
        digestCacheMinValueBytes ≤ entry.value.length ∧
        digest = contentDigest sha256 entry.value) ∧
    ∀ calls, execAll sha256 s calls = execAllHashing sha256 s calls :=
  ⟨fun _ _ _ _ hl hd => (h.wf.slot hl).digests hd, fun calls => (execAllHashing_eq h.wf calls).symm⟩

-- The first compare keeps the digest of a value. A second one after an overwrite must not use it.
theorem digests_coherent_compared :
    let sha256 := fun value : Bytes => Vector.replicate 32 (value.headD 0)
    ∃ s, Reachable sha256 0 [] s ∧
      (s.slots.lookup 0).bind (·.digests.lookup [107]) = some (Vector.replicate 16 7) ∧
      (execAllHashing sha256 s
        [(2, .set ⟨[], [107]⟩ (.replicate 4096 8)),
          (3, .casDelete ⟨[], [107]⟩ (Vector.replicate 16 7)),
          (4, .casDelete ⟨[], [107]⟩ (Vector.replicate 16 8))]).map (·.1.map (·.response)) =
        some [.done, .flag false, .flag true] := by
  intro sha256
  have h := Reachable.of_execAll (show (execAll sha256 _ _).isSome from execAll_isSome 0 []
    [(0, .set ⟨[], [107]⟩ (.replicate 4096 7)),
      (1, .casDelete ⟨[], [107]⟩ (Vector.replicate 16 0))])
    (by decide)
  refine ⟨_, h, by decide +kernel, ?_⟩
  rw [← h.digests_coherent.right]
  decide +kernel

end Cache
end Nanocached
