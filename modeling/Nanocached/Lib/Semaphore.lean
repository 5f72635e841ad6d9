import Mathlib

-- A fair semaphore: released permits go to those who wait in the order in which they came. Who has
-- been granted permits may take them up later, or give up before.
structure Semaphore (α : Type*) where
  free    : Nat
  waiting : List (α × Nat)
  granted : List (α × Nat)

namespace Semaphore

variable {α : Type*}

def new (permits : Nat) : Semaphore α where
  free    := permits
  waiting := []
  granted := []

def serveFrom (free : Nat) (granted : List (α × Nat)) : List (α × Nat) → Semaphore α
  | []            => ⟨free, [], granted⟩
  | ask :: asks =>
    if ask.2 ≤ free then
      serveFrom (free - ask.2) (granted ++ [ask]) asks
    else
      ⟨free, ask :: asks, granted⟩

def serve (s : Semaphore α) : Semaphore α :=
  serveFrom s.free s.granted s.waiting

def acquire (s : Semaphore α) (a : α) (n : Nat) : Semaphore α :=
  { s with waiting := s.waiting ++ [(a, n)] }.serve

def release (s : Semaphore α) (n : Nat) : Semaphore α :=
  { s with free := s.free + n }.serve

def take [DecidableEq α] (s : Semaphore α) (a : α) (n : Nat) : Option (Semaphore α) :=
  if (a, n) ∈ s.granted then
    some { s with granted := s.granted.erase (a, n) }
  else
    none

def cancel [DecidableEq α] (s : Semaphore α) (a : α) (n : Nat) : Semaphore α :=
  if (a, n) ∈ s.granted then
    { s with granted := s.granted.erase (a, n), free := s.free + n }.serve
  else
    { s with waiting := s.waiting.erase (a, n) }.serve

-- The permits nobody has taken.
def total (s : Semaphore α) : Nat :=
  s.free + (s.granted.map Prod.snd).sum

variable {s s' : Semaphore α} {a : α} {n : Nat}

@[simp]
theorem total_new : (new n : Semaphore α).total = n :=
  rfl

theorem total_serveFrom (free : Nat) (granted asks : List (α × Nat)) :
    (serveFrom free granted asks).total = free + (granted.map Prod.snd).sum := by
  induction asks generalizing free granted
  case nil => rfl
  case cons ask asks hi =>
    rw [serveFrom]
    split
    case isTrue h =>
      rw [hi, List.map_append, List.sum_append]
      simp only [List.map_cons, List.map_nil, List.sum_singleton]
      omega
    case isFalse => rfl

@[simp]
theorem total_serve : s.serve.total = s.total :=
  total_serveFrom ..

@[simp]
theorem total_acquire : (s.acquire a n).total = s.total :=
  total_serve

@[simp]
theorem total_release : (s.release n).total = s.total + n := by
  rw [release, total_serve]
  simp only [total]
  omega

variable [DecidableEq α]

theorem sum_erase {asks : List (α × Nat)} (h : (a, n) ∈ asks) :
    ((asks.erase (a, n)).map Prod.snd).sum + n = (asks.map Prod.snd).sum := by
  have hp := ((List.perm_cons_erase h).map Prod.snd).sum_eq
  rw [hp, List.map_cons, List.sum_cons, Nat.add_comm]

theorem total_take (h : s.take a n = some s') : s'.total + n = s.total := by
  unfold take at h
  split at h
  case isTrue hm =>
    cases h
    have hs := sum_erase hm
    simp only [total]
    omega
  case isFalse => contradiction

@[simp]
theorem total_cancel : (s.cancel a n).total = s.total := by
  unfold cancel
  split
  case isTrue hm =>
    have hs := sum_erase hm
    rw [total_serve]
    simp only [total]
    omega
  case isFalse => exact total_serve

end Semaphore
