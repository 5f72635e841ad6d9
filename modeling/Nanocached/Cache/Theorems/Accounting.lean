import Nanocached.Cache.Theorems.Run

namespace Nanocached

variable {sha256 : Bytes → Vector UInt8 32} {id : Nat} {ns : Namespace}

namespace Store

variable {s : Store}

theorem charges_le (hl : s.slots.lookup id = some ns) : ns.charges ≤ s.charges := by
  rw [charges, AList.sumBy_eq_add_erase (fun _ (ns : Namespace) => _ + nameCharge ns.name) hl]
  omega

-- The wrapped byte counts are the true ones while these fit.
theorem WF.usedBytes_toNat (h : s.WF sha256) (hc : s.charges < 2 ^ 64) :
    s.usedBytes.toNat = s.charges := by
  rw [h.used, UInt64.toNat_ofNat_of_lt' hc]

theorem WF.slot_usedBytes_toNat (h : s.WF sha256) (hc : s.charges < 2 ^ 64)
    (hl : s.slots.lookup id = some ns) : ns.usedBytes.toNat = ns.charges := by
  rw [(h.slot hl).used, UInt64.toNat_ofNat_of_lt' ((charges_le hl).trans_lt hc)]

end Store

namespace Cache

variable {s : Cache} {maxMemoryBytes : UInt64} {budgets : List (Bytes × UInt64)}

theorem Reachable.accounting (h : Reachable sha256 maxMemoryBytes budgets s)
    (hc : s.charges < 2 ^ 63) :
    (∀ id ns, s.slots.lookup id = some ns →
      ns.usedBytes.toNat =
        (ns.entries.sumBy fun name e => name.length + e.value.length + entryOverheadBytes) +
        (ns.migrated.sumBy fun name _ => name.length + markOverheadBytes) +
        (ns.digests.sumBy fun name _ => name.length + digestOverheadBytes)) ∧
    s.usedBytes.toNat =
      (s.slots.sumBy fun _ ns => ns.usedBytes.toNat + nameCharge ns.name) +
      (s.handoffTombstones.sumBy fun key _ => tombstoneBytes key) ∧
    s.entryCount = (s.slots.sumBy fun _ ns => ns.entries.size) ∧
    s.marked = (s.slots.sumBy fun _ ns => ns.migrated.size) := by
  have hw := h.wf
  have hc : s.charges < 2 ^ 64 := by omega
  refine ⟨fun id ns hl => hw.slot_usedBytes_toNat hc hl, ?_, hw.entryCount, hw.marked⟩
  rw [hw.usedBytes_toNat hc, Store.charges]
  refine congrArg (· + _) (AList.sumBy_congr fun p hp => ?_)
  rw [hw.slot_usedBytes_toNat hc (AList.lookup_of_mem hp)]

theorem accounting_of_mark_and_tombstone :
    let s := ((execAll (fun _ => .replicate 32 0) (withBudgets 10000 [])
      [(0, .set ⟨[1], [2]⟩ [3]), (1, .markMigrated ⟨[1], [2]⟩), (2, .handoffDelete ⟨[], [4]⟩)]).get
      (by decide)).2
    s.usedBytes.toNat =
      (s.slots.sumBy fun _ ns => ns.usedBytes.toNat + nameCharge ns.name) +
      (s.handoffTombstones.sumBy fun key _ => tombstoneBytes key) ∧
    s.usedBytes.toNat = 182 + 81 + 751 + 251 :=
  ⟨(Reachable.of_execAll _ (by decide)).accounting (by decide) |>.right.left, by decide⟩

end Cache
end Nanocached
