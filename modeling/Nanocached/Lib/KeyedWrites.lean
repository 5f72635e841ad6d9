import Mathlib

-- Writes which act on the value at each key separately. A log of such writes can be replayed for
-- each key on its own, so a write can be moved past those which leave its key alone.
namespace KeyedWrites

variable {κ ω V : Type*} (act : ω → κ → V → V)

def applyAll (m : κ → V) (writes : List ω) : κ → V :=
  writes.foldl (fun m write k => act write k (m k)) m

def Spares (write : ω) (k : κ) : Prop :=
  ∀ v, act write k v = v

structure Overwrites (write : ω) (k : κ) : Prop where
  const  : ∀ v v', act write k v = act write k v'
  spares : ∀ k' ≠ k, Spares act write k'

variable {act} {m : κ → V} {writes l₁ l₂ : List ω} {write write' : ω} {k : κ}

theorem applyAll_append : applyAll act m (l₁ ++ l₂) = applyAll act (applyAll act m l₁) l₂ :=
  List.foldl_append

theorem applyAll_congr {m' : κ → V} (writes : List ω) (h : m k = m' k) :
    applyAll act m writes k = applyAll act m' writes k := by
  induction writes generalizing m m'
  case nil             => exact h
  case cons write _ hi => exact hi (congrArg (act write k) h)

theorem applyAll_spared (h : ∀ write ∈ writes, Spares act write k) :
    applyAll act m writes k = m k := by
  induction writes generalizing m
  case nil => rfl
  case cons write writes hi =>
    exact (hi fun w hw => h w (.tail _ hw)).trans (h write (.head _) (m k))

-- An earlier write to a key may be replaced in its place by one that would come last, unless the
-- writes in between have to do with the key.
theorem applyAll_replace (hw : Overwrites act write k) (hw' : Overwrites act write' k)
    (h : ∀ write ∈ l₂, Spares act write k) :
    applyAll act m (l₁ ++ write' :: l₂) = applyAll act m (l₁ ++ write :: l₂ ++ [write']) := by
  rw [applyAll_append, applyAll_append, applyAll_append]
  generalize applyAll act m l₁ = m
  funext k'
  by_cases hk : k' = k
  case pos =>
    subst hk
    calc applyAll act m (write' :: l₂) k'
      _ = act write' k' (m k') := applyAll_spared h
      _ = _                    := hw'.const _ _
  case neg =>
    have hm : act write' k' (m k') = act write k' (m k') := by
      rw [hw.spares k' hk, hw'.spares k' hk]
    calc applyAll act m (write' :: l₂) k'
      _ = applyAll act m (write :: l₂) k' := applyAll_congr l₂ hm
      _ = _                               := (hw'.spares k' hk _).symm

end KeyedWrites
