import Mathlib.Logic.Function.Basic
import Mathlib.Data.List.Induction

/-!
# Steps that seem to happen at once

A system takes steps, some of which are marked with replacements in an abstract store of values under keys. If a
view of the system changes in each step by just the replacements of its mark, then after any run it is
the store after all the replacements, one after the other in the order of the run.
-/
namespace Linearize

variable {S K V C : Type}

/-- The marks of a run are those of its steps, in order. -/
inductive Runs (step : S → List C → S → Prop) : S → List C → S → Prop
  | refl (s : S) : Runs step s [] s
  | snoc {s t u : S} {cs ds : List C} (h : Runs step s cs t) (hstep : step t ds u) : Runs step s (cs ++ ds) u

variable [DecidableEq K]

/-- The store after the replacements. -/
def replaceAll (cs : List (K × V)) (store : K → Option V) : K → Option V :=
  cs.foldl (fun st c => Function.update st c.1 (some c.2)) store

theorem replaceAll_append (cs ds : List (K × V)) (store : K → Option V) :
    replaceAll (cs ++ ds) store = replaceAll ds (replaceAll cs store) := by
  rw [replaceAll, List.foldl_append]
  rfl

theorem replaceAll_singleton (c : K × V) (store : K → Option V) (k : K) :
    replaceAll [c] store k = if k = c.1 then some c.2 else store k := by
  change Function.update store c.1 (some c.2) k = _
  split_ifs with h
  · rw [h, Function.update_self]
  · rw [Function.update_of_ne h]

/-- Under a key there is what was there at first, or what one of the replacements has put there. -/
theorem replaceAll_cases (cs : List (K × V)) (store : K → Option V) (k : K) :
    (∀ c ∈ cs, c.1 ≠ k) ∧ replaceAll cs store k = store k ∨
      ∃ c ∈ cs, c.1 = k ∧ replaceAll cs store k = some c.2 := by
  induction cs using List.reverseRecOn with
  | nil => exact Or.inl ⟨by simp, rfl⟩
  | append_singleton cs c ih =>
    rw [replaceAll_append, replaceAll_singleton]
    by_cases hk : k = c.1
    · rw [if_pos hk]
      exact Or.inr ⟨c, by simp, hk.symm, rfl⟩
    · rw [if_neg hk]
      rcases ih with ⟨hno, hsame⟩ | ⟨d, hd, hdk, hvalue⟩
      · refine Or.inl ⟨?_, hsame⟩
        intro d hd
        rcases List.mem_append.mp hd with hd | hd
        · exact hno d hd
        · rw [List.mem_singleton.mp hd]
          exact fun h => hk h.symm
      · exact Or.inr ⟨d, List.mem_append_left _ hd, hdk, hvalue⟩

/-- Only the keys in sight matter. -/
theorem replaceAll_congr {P : K → Prop} (cs : List (K × V)) {store store' : K → Option V}
    (h : ∀ k, P k → store k = store' k) (k : K) (hk : P k) : replaceAll cs store k = replaceAll cs store' k := by
  induction cs using List.reverseRecOn with
  | nil => exact h k hk
  | append_singleton cs c ih =>
    rw [replaceAll_append, replaceAll_append, replaceAll_singleton, replaceAll_singleton, ih]

/-- Where each step changes what is in sight by its mark, a run changes it by all the marks in their order. -/
theorem Runs.linearizes {step : S → List (K × V) → S → Prop} {Inv : List (K × V) → S → Prop} {P : K → Prop}
    (view : S → K → Option V) {s t : S} {cs : List (K × V)} (h : Runs step s cs t) (hs : Inv [] s)
    (hstep : ∀ cs ds t u, Inv cs t → step t ds u →
      Inv (cs ++ ds) u ∧ ∀ k, P k → view u k = replaceAll ds (view t) k) :
    Inv cs t ∧ ∀ k, P k → view t k = replaceAll cs (view s) k := by
  induction h with
  | refl => exact ⟨hs, fun _ _ => rfl⟩
  | snoc _ hlast ih =>
    obtain ⟨hinv, hview⟩ := ih
    obtain ⟨hinv', hview'⟩ := hstep _ _ _ _ hinv hlast
    refine ⟨hinv', ?_⟩
    intro k hk
    rw [hview' k hk, replaceAll_append]
    exact replaceAll_congr _ hview k hk

end Linearize
