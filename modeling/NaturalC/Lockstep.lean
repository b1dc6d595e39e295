import NaturalC.Throwing

/-!
# Two runs in lockstep

Two computations, each on its own state, that end in the same way: both return, both throw, or both stop for the
same reason. The states stay in a relation, and so do the values that are returned.
-/
namespace Throwing

variable {σ τ α β γ δ : Type}

/-- The two ways of ending are the same. -/
inductive Lockstep (R : σ → τ → Prop) (Q : α → β → Prop) : Outcome σ α → Outcome τ β → Prop
  | ok {a : α} {b : β} {s : σ} {t : τ} (hs : R s t) (ha : Q a b) : Lockstep R Q (.ok a s) (.ok b t)
  | thrown {s : σ} {t : τ} (hs : R s t) : Lockstep R Q (.thrown s) (.thrown t)
  | halt (e : Halt) : Lockstep R Q (.halt e) (.halt e)

namespace Act

variable {R : σ → τ → Prop} {Q : α → β → Prop} {Q' : γ → δ → Prop} {s : σ} {t : τ}

theorem lockstep_bind {m : Act σ α} {n : Act τ β} {f : α → Act σ γ} {g : β → Act τ δ}
    (hm : Lockstep R Q (m.run s) (n.run t))
    (hf : ∀ a b s t, R s t → Q a b → Lockstep R Q' ((f a).run s) ((g b).run t)) :
    Lockstep R Q' ((m >>= f).run s) ((n >>= g).run t) := by
  rw [run_bind, run_bind]
  generalize m.run s = o, n.run t = o' at hm ⊢
  cases hm with
  | ok hs ha => exact hf _ _ _ _ hs ha
  | thrown hs => exact Lockstep.thrown hs
  | halt e => exact Lockstep.halt e

/-- What follows may depend on whether the two have returned, but not on what. -/
theorem lockstep_attempt {m : Act σ α} {n : Act τ β} (hm : Lockstep R Q (m.run s) (n.run t)) :
    Lockstep R (Option.Rel Q) ((attempt m).run s) ((attempt n).run t) := by
  rw [run_attempt, run_attempt]
  generalize m.run s = o, n.run t = o' at hm ⊢
  cases hm with
  | ok hs ha => exact Lockstep.ok hs (.some ha)
  | thrown hs => exact Lockstep.ok hs .none
  | halt e => exact Lockstep.halt e

end Act

end Throwing
