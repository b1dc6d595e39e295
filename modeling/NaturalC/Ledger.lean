import Mathlib.Data.List.Perm.Basic
import Mathlib.Data.List.Perm.Subperm
import Mathlib.Data.List.Range

/-!
# Ledgers of handles

Handles that are open at one time are split into those that somebody holds and those that nobody
can give back any more. A handle is acquired while it is not open, and it is released or lost by
its holder.
-/
namespace Ledger

variable {κ : Type} {opened held held' lost : List κ} {k : κ}

/-- The open handles are all different, and each of them is either held or lost. -/
structure Balanced (opened held lost : List κ) : Prop where
  nodup : opened.Nodup
  perm : opened.Perm (held ++ lost)

theorem Balanced.nodup_parts (h : Balanced opened held lost) : (held ++ lost).Nodup :=
  h.perm.nodup_iff.mp h.nodup

/-- No two holders have the same handle. -/
theorem Balanced.nodup_held (h : Balanced opened held lost) : held.Nodup :=
  (List.nodup_append.mp h.nodup_parts).1

theorem Balanced.open_of_held (h : Balanced opened held lost) (hk : k ∈ held) : k ∈ opened :=
  h.perm.mem_iff.mpr (List.mem_append_left _ hk)

theorem Balanced.open_of_lost (h : Balanced opened held lost) (hk : k ∈ lost) : k ∈ opened :=
  h.perm.mem_iff.mpr (List.mem_append_right _ hk)

theorem Balanced.not_lost (h : Balanced opened held lost) (hk : k ∈ held) : k ∉ lost := by
  intro hl
  exact (List.nodup_append.mp h.nodup_parts).2.2 k hk k hl rfl

/-- The order of the holders does not matter. -/
theorem Balanced.of_perm (h : Balanced opened held lost) (hp : held.Perm held') : Balanced opened held' lost :=
  ⟨h.nodup, h.perm.trans (hp.append_right lost)⟩

theorem Balanced.acquire (h : Balanced opened held lost) (hk : k ∉ opened) :
    Balanced (k :: opened) (k :: held) lost :=
  ⟨List.nodup_cons.mpr ⟨hk, h.nodup⟩, h.perm.cons k⟩

theorem Balanced.lose (h : Balanced opened (k :: held) lost) : Balanced opened held (k :: lost) := by
  refine ⟨h.nodup, h.perm.trans ?_⟩
  rw [List.cons_append]
  exact List.perm_middle.symm

theorem Balanced.release [DecidableEq κ] (h : Balanced opened (k :: held) lost) :
    Balanced (opened.erase k) held lost := by
  refine ⟨h.nodup.erase k, ?_⟩
  have hp := h.perm.erase k
  rwa [List.cons_append, List.erase_cons_head] at hp

theorem Balanced.length (h : Balanced opened held lost) : opened.length = held.length + lost.length := by
  rw [h.perm.length_eq, List.length_append]

/-- Numbers below a limit that are held or lost are not enough for one more. -/
theorem Balanced.below {opened held lost : List Nat} (h : Balanced opened held lost) (n : Nat) :
    (held.filter (· < n)).length + (lost.filter (· < n)).length ≤ n := by
  have hnodup : ((held ++ lost).filter (· < n)).Nodup := h.nodup_parts.filter _
  have hsub : (held ++ lost).filter (· < n) ⊆ List.range n := by
    intro k hk
    exact List.mem_range.mpr (of_decide_eq_true (List.mem_filter.mp hk).2)
  have hle := (hnodup.subperm hsub).length_le
  rw [List.filter_append, List.length_append, List.length_range] at hle
  exact hle

end Ledger
