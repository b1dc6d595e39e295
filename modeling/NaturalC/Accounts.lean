import Mathlib.Algebra.BigOperators.Group.Finset.Basic
import Mathlib.Algebra.BigOperators.Group.Finset.Piecewise
import Mathlib.Data.Finset.Card
import Mathlib.Data.Finset.Range

/-!
# Accounts of cells

Memory is a partial function on addresses below a bound. Some of its cells are said to hold a number
of others. When the numbers add up to all cells in use and nobody holds the cell of another, every
cell in use is held.
-/
namespace Accounts

variable {α β : Type} {n a l : Nat} {m : Nat → Option α} {k : Nat → Option β} {size : β → Nat}

/-- The number of cells in use. -/
def used (n : Nat) (m : Nat → Option α) : Nat := ((Finset.range n).filter fun a => (m a).isSome).card

/-- What one cell is said to hold. -/
def share (size : β → Nat) (k : Nat → Option β) (l : Nat) : Nat := ((k l).map size).getD 0

/-- The number of cells that are said to be held. -/
def counted (size : β → Nat) (n : Nat) (k : Nat → Option β) : Nat := ∑ l ∈ Finset.range n, share size k l

/-- A cell that is there after a change of one cell. -/
theorem isSome_of_update {o : Option α} (h : (Function.update m l o a).isSome) : a = l ∨ (m a).isSome := by
  by_cases ha : a = l
  · exact Or.inl ha
  · rw [Function.update_of_ne ha] at h
    exact Or.inr h

theorem used_overwrite (hm : (m a).isSome) (x : α) : used n (Function.update m a (some x)) = used n m := by
  apply congrArg Finset.card
  apply Finset.filter_congr
  intro b _
  by_cases hb : b = a
  · subst hb
    simp [hm]
  · rw [Function.update_of_ne hb]

theorem used_remove (ha : a < n) (hm : (m a).isSome) : used n (Function.update m a none) + 1 = used n m := by
  have hold : a ∈ (Finset.range n).filter fun a => (m a).isSome := by simp [ha, hm]
  have herase : ((Finset.range n).filter fun b => (Function.update m a none b).isSome) =
      ((Finset.range n).filter fun a => (m a).isSome).erase a := by
    ext b
    by_cases hb : b = a <;> simp [hb]
  rw [used, used, herase, Finset.card_erase_add_one hold]

theorem used_removeAll {as : List Nat} (hn : as.Nodup) (has : ∀ a ∈ as, a < n ∧ (m a).isSome) :
    used n (fun b => if b ∈ as then none else m b) + as.length = used n m := by
  induction as with
  | nil => simp
  | cons a as ih =>
    obtain ⟨hnew, hn⟩ := List.nodup_cons.mp hn
    have hrest := ih hn fun b hb => has b (List.mem_cons_of_mem _ hb)
    have hstill : ((fun b => if b ∈ as then none else m b) a).isSome := by simp [hnew, (has a (by simp)).2]
    have hone := used_remove (m := fun b => if b ∈ as then none else m b) (has a (by simp)).1 hstill
    have hboth : (fun b => if b ∈ a :: as then none else m b) =
        Function.update (fun b => if b ∈ as then none else m b) a none := by
      funext b
      by_cases hb : b = a
      · subst hb
        simp
      · simp [hb]
    rw [hboth, List.length_cons]
    omega

/-- The cell above the bound is taken. -/
theorem used_take (x : α) : used (n + 1) (Function.update m n (some x)) = used n m + 1 := by
  have hsame : ((Finset.range n).filter fun b => (Function.update m n (some x) b).isSome) =
      (Finset.range n).filter fun a => (m a).isSome := by
    apply Finset.filter_congr
    intro b hb
    rw [Function.update_of_ne (Nat.ne_of_lt (Finset.mem_range.mp hb))]
  rw [used, used, Finset.range_add_one, Finset.filter_insert, if_pos (by simp), hsame, Finset.card_insert_of_notMem]
  simp

/-- The bound grows by a cell that is free. -/
theorem used_succ (hm : m n = none) : used (n + 1) m = used n m := by
  rw [used, used, Finset.range_add_one, Finset.filter_insert, if_neg (by simp [hm])]

theorem share_eq {y : β} (hk : k l = some y) : share size k l = size y := by
  rw [share, hk]
  rfl

theorem share_none (hk : k l = none) : share size k l = 0 := by
  rw [share, hk]
  rfl

/-- One of the cells is said to hold another number of them. -/
theorem counted_replace (size : β → Nat) (hl : l < n) (o : Option β) :
    counted size n (Function.update k l o) + share size k l = counted size n k + (o.map size).getD 0 := by
  have hshare : share size (Function.update k l o) = Function.update (share size k) l ((o.map size).getD 0) := by
    funext j
    by_cases hj : j = l
    · subst hj
      simp [share]
    · simp [share, hj]
  have hsplit := Finset.add_sum_erase (Finset.range n) (share size k) (Finset.mem_range.mpr hl)
  rw [counted, counted, hshare, Finset.sum_update_of_mem (Finset.mem_range.mpr hl), ← hsplit,
    Finset.sdiff_singleton_eq_erase]
  omega

/-- The bound grows by a cell that is no holder. -/
theorem counted_succ (size : β → Nat) (hk : k n = none) : counted size (n + 1) k = counted size n k := by
  rw [counted, counted, Finset.sum_range_succ, share_none hk, Nat.add_zero]

theorem counted_take (size : β → Nat) (o : Option β) (hk : k n = none) :
    counted size (n + 1) (Function.update k n o) = counted size n k + (o.map size).getD 0 := by
  have hnew := counted_replace size (k := k) (Nat.lt_succ_self n) o
  rw [share_none hk, counted_succ size hk] at hnew
  exact hnew

/-- When the holders hold different cells in use, and as many as there are, every cell in use is held. -/
theorem held_of_used {held : Nat → Finset Nat} (hsize : ∀ l < n, (held l).card = share size k l)
    (hdiff : ∀ i < n, ∀ j < n, i ≠ j → Disjoint (held i) (held j))
    (hheld : ∀ l < n, ∀ a ∈ held l, a < n ∧ (m a).isSome) (hle : used n m ≤ counted size n k) (ha : a < n)
    (hm : (m a).isSome) : ∃ l < n, a ∈ held l := by
  have hsub : (Finset.range n).biUnion held ⊆ (Finset.range n).filter fun a => (m a).isSome := by
    intro b hb
    obtain ⟨l, hl, hb⟩ := Finset.mem_biUnion.mp hb
    obtain ⟨hlt, hsome⟩ := hheld l (Finset.mem_range.mp hl) b hb
    exact Finset.mem_filter.mpr ⟨Finset.mem_range.mpr hlt, hsome⟩
  have hcard : ((Finset.range n).biUnion held).card = counted size n k := by
    rw [Finset.card_biUnion, counted]
    · exact Finset.sum_congr rfl fun l hl => hsize l (Finset.mem_range.mp hl)
    · intro i hi j hj hij
      exact hdiff i (Finset.mem_range.mp hi) j (Finset.mem_range.mp hj) hij
  have heq := Finset.eq_of_subset_of_card_le hsub (by rw [hcard]; exact hle)
  have hin : a ∈ (Finset.range n).biUnion held := by
    rw [heq]
    exact Finset.mem_filter.mpr ⟨Finset.mem_range.mpr ha, hm⟩
  obtain ⟨l, hl, hal⟩ := Finset.mem_biUnion.mp hin
  exact ⟨l, Finset.mem_range.mp hl, hal⟩

end Accounts
