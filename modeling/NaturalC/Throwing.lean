import Mathlib.Logic.Basic

/-!
# Computations that mutate a store and may throw

A computation over a store ends in one of three ways: it returns a value, it
throws and leaves the store as it stood at that moment, or it never comes back.
Throwing does not undo anything, so a caller that recovers sees every write the
failed callee made.
-/
namespace Throwing

/-- Ways in which control never returns to the caller. -/
inductive Halt where
  /-- A read or write outside of every live object. -/
  | fault
  /-- The program stops itself. -/
  | abort
  /-- A loop has walked over more cells than were ever allocated. -/
  | diverge
  deriving DecidableEq, Repr

inductive Outcome (σ α : Type) where
  | ok (a : α) (s : σ)
  | thrown (s : σ)
  | halt (h : Halt)
  deriving DecidableEq, Repr

/-- Whenever control comes back, it does so in such a store. -/
def Outcome.Leaves {σ α : Type} (Inv : σ → Prop) : Outcome σ α → Prop
  | .ok _ s => Inv s
  | .thrown s => Inv s
  | .halt _ => True

/-- Control comes back, and it does so in such a store. -/
def Outcome.Returns {σ α : Type} (Inv : σ → Prop) : Outcome σ α → Prop
  | .ok _ s => Inv s
  | .thrown s => Inv s
  | .halt _ => False

theorem Outcome.Leaves.imp {σ α : Type} {Inv Inv' : σ → Prop} {o : Outcome σ α} (h : o.Leaves Inv)
    (himp : ∀ s, Inv s → Inv' s) : o.Leaves Inv' := by
  cases o with
  | ok a s => exact himp s h
  | thrown s => exact himp s h
  | halt e => trivial

theorem Outcome.Leaves.of_ok {σ α : Type} {Inv : σ → Prop} {o : Outcome σ α} (h : o.Leaves Inv) {a : α} {s : σ}
    (ho : o = .ok a s) : Inv s := by
  rw [ho] at h
  exact h

theorem Outcome.Returns.imp {σ α : Type} {Inv Inv' : σ → Prop} {o : Outcome σ α} (h : o.Returns Inv)
    (himp : ∀ s, Inv s → Inv' s) : o.Returns Inv' := by
  cases o with
  | ok a s => exact himp s h
  | thrown s => exact himp s h
  | halt e => exact h

/-- The value of a computation that returned. -/
def Outcome.value {σ α : Type} : Outcome σ α → Option α
  | .ok a _ => some a
  | _ => none

/-- Why a computation never came back. -/
def Outcome.stopped {σ α : Type} : Outcome σ α → Option Halt
  | .halt h => some h
  | _ => none

theorem Outcome.exists_of_value {σ α : Type} {o : Outcome σ α} {a : α} (h : o.value = some a) :
    ∃ s, o = .ok a s := by
  cases o with
  | ok b s =>
    cases h
    exact ⟨s, rfl⟩
  | thrown s => cases h
  | halt e => cases h

theorem Outcome.eq_of_stopped {σ α : Type} {o : Outcome σ α} {e : Halt}
    (h : o.stopped = some e) : o = .halt e := by
  cases o with
  | ok b s => cases h
  | thrown s => cases h
  | halt e =>
    cases h
    rfl

/-- A computation over the store `σ`. -/
def Act (σ α : Type) : Type := σ → Outcome σ α

variable {σ τ α β : Type}

namespace Act

def run (m : Act σ α) (s : σ) : Outcome σ α := m s

def ret (a : α) : Act σ α := fun s => .ok a s

def andThen (m : Act σ α) (f : α → Act σ β) : Act σ β := fun s =>
  match m s with
  | .ok a t => f a t
  | .thrown t => .thrown t
  | .halt h => .halt h

instance : Monad (Act σ) where
  pure := ret
  bind := andThen

/-- Leave the function with its error result. -/
def throwing : Act σ α := fun s => .thrown s

def stop (h : Halt) : Act σ α := fun _ => .halt h

def get : Act σ σ := fun s => .ok s s

def put (s : σ) : Act σ Unit := fun _ => .ok () s

/-- A value that is only there when a pointer is good. -/
def deref : Option α → Act σ α
  | some a => ret a
  | none => stop .fault

/-- Test the result of a call instead of passing its failure on. -/
def attempt (m : Act σ α) : Act σ (Option α) := fun s =>
  match m s with
  | .ok a t => .ok (some a) t
  | .thrown t => .ok none t
  | .halt h => .halt h

/-- Try one call after the other and note the result of each. -/
def attemptAll (step : β → Act σ α) : List β → Act σ (List (Option α))
  | [] => pure []
  | b :: bs => do
    let r ← attempt (step b)
    let rs ← attemptAll step bs
    pure (r :: rs)

/-- Make one call after the other up to the first that fails, and note the results before it. -/
def untilFailure (step : β → Act σ α) : List β → Act σ (List α)
  | [] => pure []
  | b :: bs => do
    match ← attempt (step b) with
    | none => pure []
    | some a => do
      let as ← untilFailure step bs
      pure (a :: as)

/-- Run a computation on one component of a larger store. -/
def zoom (view : τ → σ) (update : σ → τ → τ) (m : Act σ α) : Act τ α := fun t =>
  match m (view t) with
  | .ok a s => .ok a (update s t)
  | .thrown s => .thrown (update s t)
  | .halt h => .halt h

/-- Run a computation on an object of the function's own; it is gone if the computation throws. -/
def onLocal (m : Act τ α) (t : τ) : Act σ (α × τ) := fun s =>
  match m t with
  | .ok a t' => .ok (a, t') s
  | .thrown _ => .thrown s
  | .halt h => .halt h

/-- A loop: each round goes on with new locals or ends with a result. -/
def loop (step : β → Act σ (β ⊕ α)) : Nat → β → Act σ α
  | 0, _ => stop .diverge
  | n + 1, b => do
    match ← step b with
    | .inl b' => loop step n b'
    | .inr a => pure a

@[simp] theorem run_pure (a : α) (s : σ) : (pure a : Act σ α).run s = .ok a s := rfl
@[simp] theorem run_ret (a : α) (s : σ) : (ret a : Act σ α).run s = .ok a s := rfl
@[simp] theorem run_throwing (s : σ) : (throwing : Act σ α).run s = .thrown s := rfl
@[simp] theorem run_stop (h : Halt) (s : σ) : (stop h : Act σ α).run s = .halt h := rfl
@[simp] theorem run_get (s : σ) : (get : Act σ σ).run s = .ok s s := rfl
@[simp] theorem run_put (s t : σ) : (put t : Act σ Unit).run s = .ok () t := rfl
@[simp] theorem deref_some (a : α) : (deref (some a) : Act σ α) = ret a := rfl
@[simp] theorem deref_none : (deref none : Act σ α) = stop .fault := rfl

theorem eq_of_run_deref {o : Option α} {a : α} {s t : σ} (h : (deref o : Act σ α).run s = .ok a t) : t = s := by
  cases o with
  | none => cases h
  | some b =>
    cases h
    rfl

theorem run_bind (m : Act σ α) (f : α → Act σ β) (s : σ) :
    (m >>= f).run s = match m.run s with
      | .ok a t => (f a).run t
      | .thrown t => .thrown t
      | .halt h => .halt h := rfl

/-- A step that returns hands its value and its store to the rest. -/
theorem run_bind_ok {m : Act σ α} {f : α → Act σ β} {s t : σ} {a : α}
    (h : m.run s = .ok a t) : (m >>= f).run s = (f a).run t := by
  rw [run_bind, h]

theorem run_bind_thrown {m : Act σ α} {f : α → Act σ β} {s t : σ}
    (h : m.run s = .thrown t) : (m >>= f).run s = .thrown t := by
  rw [run_bind, h]

theorem run_bind_halt {m : Act σ α} {f : α → Act σ β} {s : σ} {e : Halt}
    (h : m.run s = .halt e) : (m >>= f).run s = .halt e := by
  rw [run_bind, h]

theorem exists_of_run_bind {m : Act σ α} {f : α → Act σ β} {s u : σ} {b : β}
    (h : (m >>= f).run s = .ok b u) : ∃ a t, m.run s = .ok a t ∧ (f a).run t = .ok b u := by
  rw [run_bind] at h
  split at h
  · rename_i a t hm
    exact ⟨a, t, hm, h⟩
  · cases h
  · cases h

@[simp] theorem run_bind_pure (a : α) (f : α → Act σ β) (s : σ) :
    (pure a >>= f).run s = (f a).run s := rfl
@[simp] theorem run_bind_ret (a : α) (f : α → Act σ β) (s : σ) :
    (ret a >>= f).run s = (f a).run s := rfl
@[simp] theorem run_bind_get (f : σ → Act σ β) (s : σ) :
    (get >>= f).run s = (f s).run s := rfl
@[simp] theorem run_bind_put (t : σ) (f : Unit → Act σ β) (s : σ) :
    (put t >>= f).run s = (f ()).run t := rfl
@[simp] theorem run_bind_throwing (f : α → Act σ β) (s : σ) :
    (throwing >>= f).run s = .thrown s := rfl
@[simp] theorem run_bind_stop (h : Halt) (f : α → Act σ β) (s : σ) :
    (stop h >>= f).run s = .halt h := rfl

/-- If the first step comes back, the rest goes on from there. -/
theorem leaves_bind {m : Act σ α} {f : α → Act σ β} {Inv Inv' : σ → Prop} {s : σ}
    (hm : (m.run s).Leaves Inv) (hthrown : ∀ t, Inv t → Inv' t)
    (hf : ∀ a t, m.run s = .ok a t → Inv t → ((f a).run t).Leaves Inv') : ((m >>= f).run s).Leaves Inv' := by
  rw [run_bind]
  cases h : m.run s with
  | ok a t =>
    rw [h] at hm
    exact hf a t h hm
  | thrown t =>
    rw [h] at hm
    exact hthrown t hm
  | halt e => trivial

theorem leaves_bind_pure {m : Act σ α} {Inv : σ → Prop} {s : σ} (b : β)
    (h : (m.run s).Leaves Inv) : ((m >>= fun _ => pure b).run s).Leaves Inv :=
  leaves_bind h (fun _ ht => ht) fun _ _ _ ht => ht

/-- The first step comes back, and so does the rest wherever the first one leads. -/
theorem returns_bind {m : Act σ α} {f : α → Act σ β} {Inv : σ → Prop} {s : σ}
    (hm : (m.run s).Returns Inv)
    (hf : ∀ a t, m.run s = .ok a t → Inv t → ((f a).run t).Returns Inv) :
    ((m >>= f).run s).Returns Inv := by
  rw [run_bind]
  cases h : m.run s with
  | ok a t =>
    rw [h] at hm
    exact hf a t h hm
  | thrown t =>
    rw [h] at hm
    exact hm
  | halt e =>
    rw [h] at hm
    exact hm

theorem run_attempt (m : Act σ α) (s : σ) :
    (attempt m).run s = match m.run s with
      | .ok a t => .ok (some a) t
      | .thrown t => .ok none t
      | .halt h => .halt h := rfl

theorem run_attempt_ok {m : Act σ α} {s t : σ} {a : α} (h : m.run s = .ok a t) :
    (attempt m).run s = .ok (some a) t := by
  rw [run_attempt, h]

theorem run_attempt_thrown {m : Act σ α} {s t : σ} (h : m.run s = .thrown t) :
    (attempt m).run s = .ok none t := by
  rw [run_attempt, h]

theorem run_attempt_halt {m : Act σ α} {s : σ} {e : Halt} (h : m.run s = .halt e) :
    (attempt m).run s = .halt e := by
  rw [run_attempt, h]

theorem returns_attempt {m : Act σ α} {Inv : σ → Prop} {s : σ} (h : (m.run s).Returns Inv) :
    ((attempt m).run s).Returns Inv := by
  rw [run_attempt]
  cases hm : m.run s <;> rw [hm] at h <;> exact h

theorem run_attemptAll_cons {step : β → Act σ α} {b : β} {bs : List β} {r : Option α}
    {rs : List (Option α)} {s t u : σ} (h : (attempt (step b)).run s = .ok r t)
    (hs : (attemptAll step bs).run t = .ok rs u) :
    (attemptAll step (b :: bs)).run s = .ok (r :: rs) u := by
  rw [attemptAll, run_bind_ok h, run_bind_ok hs]
  rfl

theorem run_untilFailure_ok {step : β → Act σ α} {b : β} {bs : List β} {a : α} {as : List α}
    {s t u : σ} (h : (step b).run s = .ok a t) (hs : (untilFailure step bs).run t = .ok as u) :
    (untilFailure step (b :: bs)).run s = .ok (a :: as) u := by
  rw [untilFailure, run_bind_ok (run_attempt_ok h)]
  dsimp only
  rw [run_bind_ok hs]
  rfl

theorem run_untilFailure_thrown {step : β → Act σ α} {b : β} {bs : List β} {s t : σ}
    (h : (step b).run s = .thrown t) : (untilFailure step (b :: bs)).run s = .ok [] t := by
  rw [untilFailure, run_bind_ok (run_attempt_thrown h)]
  rfl

/-- The first calls of a run that comes back are a run that comes back. -/
theorem run_attemptAll_prefix {step : β → Act σ α} {bs cs : List β} {rs : List (Option α)} {s u : σ}
    (h : (attemptAll step (bs ++ cs)).run s = .ok rs u) :
    ∃ qs t, (attemptAll step bs).run s = .ok qs t ∧ qs = rs.take bs.length := by
  induction bs generalizing s rs with
  | nil => exact ⟨[], s, rfl, rfl⟩
  | cons b bs ih =>
    rw [List.cons_append, attemptAll, run_bind] at h
    cases hb : (attempt (step b)).run s with
    | ok r t =>
      rw [hb] at h
      dsimp only at h
      rw [run_bind] at h
      cases hrest : (attemptAll step (bs ++ cs)).run t with
      | ok rs' v =>
        rw [hrest] at h
        cases h
        obtain ⟨qs, w, hqs, hq⟩ := ih hrest
        refine ⟨r :: qs, w, run_attemptAll_cons hb hqs, ?_⟩
        rw [hq]
        rfl
      | thrown v =>
        rw [hrest] at h
        cases h
      | halt e =>
        rw [hrest] at h
        cases h
    | thrown t =>
      rw [hb] at h
      cases h
    | halt e =>
      rw [hb] at h
      cases h

/-- What every call that comes back preserves holds after a run that comes back. -/
theorem attemptAll_invariant {step : β → Act σ α} {Inv : σ → Prop} {bs : List β}
    (hstep : ∀ b ∈ bs, ∀ s, Inv s → ((step b).run s).Leaves Inv)
    {s u : σ} {rs : List (Option α)} (hs : Inv s) (hrun : (attemptAll step bs).run s = .ok rs u) :
    Inv u := by
  induction bs generalizing s rs with
  | nil =>
    cases hrun
    exact hs
  | cons b bs ih =>
    have hb := hstep b (by simp) s hs
    have hrest : ∀ {t : σ} {r : Option α}, Inv t → (attempt (step b)).run s = .ok r t → Inv u := by
      intro t r ht hr
      rw [attemptAll, run_bind_ok hr, run_bind] at hrun
      cases hall : (attemptAll step bs).run t with
      | ok rs' v =>
        rw [hall] at hrun
        cases hrun
        exact ih (fun b hb => hstep b (List.mem_cons_of_mem _ hb)) ht hall
      | thrown v =>
        rw [hall] at hrun
        cases hrun
      | halt e =>
        rw [hall] at hrun
        cases hrun
    cases hcall : (step b).run s with
    | ok a t =>
      rw [hcall] at hb
      exact hrest hb (run_attempt_ok hcall)
    | thrown t =>
      rw [hcall] at hb
      exact hrest hb (run_attempt_thrown hcall)
    | halt e =>
      rw [attemptAll, run_bind_halt (run_attempt_halt hcall)] at hrun
      cases hrun

theorem run_zoom (view : τ → σ) (update : σ → τ → τ) (m : Act σ α) (t : τ) :
    (zoom view update m).run t = match m.run (view t) with
      | .ok a s => .ok a (update s t)
      | .thrown s => .thrown (update s t)
      | .halt h => .halt h := rfl

theorem run_zoom_ok {view : τ → σ} {update : σ → τ → τ} {m : Act σ α} {t : τ} {s : σ} {a : α}
    (h : m.run (view t) = .ok a s) : (zoom view update m).run t = .ok a (update s t) := by
  rw [run_zoom, h]

theorem run_zoom_thrown {view : τ → σ} {update : σ → τ → τ} {m : Act σ α} {t : τ} {s : σ}
    (h : m.run (view t) = .thrown s) : (zoom view update m).run t = .thrown (update s t) := by
  rw [run_zoom, h]

theorem run_onLocal_ok {m : Act τ α} {t t' : τ} {a : α} (h : m.run t = .ok a t') (s : σ) :
    (onLocal m t : Act σ (α × τ)).run s = .ok (a, t') s := by
  change (match m.run t with | .ok a t' => _ | .thrown _ => _ | .halt h => _) = _
  rw [h]

theorem run_onLocal_thrown {m : Act τ α} {t t' : τ} (h : m.run t = .thrown t') (s : σ) :
    (onLocal m t : Act σ (α × τ)).run s = .thrown s := by
  change (match m.run t with | .ok a t' => _ | .thrown _ => _ | .halt h => _) = _
  rw [h]

theorem leaves_onLocal (m : Act τ α) (t : τ) (s : σ) : ((onLocal m t : Act σ (α × τ)).run s).Leaves (· = s) := by
  change (match m.run t with | .ok a t' => _ | .thrown _ => _ | .halt h => _ : Outcome σ (α × τ)).Leaves _
  cases m.run t with
  | ok a t' => exact rfl
  | thrown t' => exact rfl
  | halt e => trivial

theorem leaves_attempt {m : Act σ α} {Inv : σ → Prop} {s : σ} (h : (m.run s).Leaves Inv) :
    ((attempt m).run s).Leaves Inv := by
  rw [run_attempt]
  cases hm : m.run s <;> rw [hm] at h <;> exact h

/-- A step on an object of the function's own keeps its invariant, or throws the object away. -/
theorem returns_bind_onLocal {m : Act τ α} {t : τ} {f : α × τ → Act σ β} {J : τ → Prop}
    {Inv : σ → Prop} {s : σ} (hm : (m.run t).Returns J) (hs : Inv s)
    (hf : ∀ a t', m.run t = .ok a t' → J t' → ((f (a, t')).run s).Returns Inv) :
    ((onLocal m t >>= f).run s).Returns Inv := by
  cases h : m.run t with
  | ok a t' =>
    rw [h] at hm
    rw [run_bind_ok (run_onLocal_ok h s)]
    exact hf a t' h hm
  | thrown t' =>
    rw [run_bind_thrown (run_onLocal_thrown h s)]
    exact hs
  | halt e =>
    rw [h] at hm
    exact hm.elim

/-- If a step on one component comes back, only that component is another one. -/
theorem leaves_zoom {view : τ → σ} {update : σ → τ → τ} {m : Act σ α} {J : σ → Prop}
    {Inv : τ → Prop} {t : τ} (hm : (m.run (view t)).Leaves J)
    (hup : ∀ s, J s → Inv (update s t)) : ((zoom view update m).run t).Leaves Inv := by
  rw [run_zoom]
  cases h : m.run (view t) with
  | ok a s =>
    rw [h] at hm
    exact hup s hm
  | thrown s =>
    rw [h] at hm
    exact hup s hm
  | halt e => trivial

/-- What holds of one component holds of the store with that component replaced. -/
theorem returns_zoom {view : τ → σ} {update : σ → τ → τ} {m : Act σ α} {J : σ → Prop}
    {Inv : τ → Prop} {t : τ} (hm : (m.run (view t)).Returns J)
    (hup : ∀ s, J s → Inv (update s t)) : ((zoom view update m).run t).Returns Inv := by
  rw [run_zoom]
  cases h : m.run (view t) with
  | ok a s =>
    rw [h] at hm
    exact hup s hm
  | thrown s =>
    rw [h] at hm
    exact hup s hm
  | halt e =>
    rw [h] at hm
    exact hm

theorem run_loop_inl {step : β → Act σ (β ⊕ α)} {n : Nat} {b b' : β} {s t : σ}
    (h : (step b).run s = .ok (.inl b') t) :
    (loop step (n + 1) b).run s = (loop step n b').run t := by
  rw [loop, run_bind_ok h]

theorem run_loop_inr {step : β → Act σ (β ⊕ α)} {n : Nat} {b : β} {a : α} {s t : σ}
    (h : (step b).run s = .ok (.inr a) t) : (loop step (n + 1) b).run s = .ok a t := by
  rw [loop, run_bind_ok h]
  rfl

theorem run_loop_thrown {step : β → Act σ (β ⊕ α)} {n : Nat} {b : β} {s t : σ}
    (h : (step b).run s = .thrown t) : (loop step (n + 1) b).run s = .thrown t := run_bind_thrown h

theorem run_loop_halt {step : β → Act σ (β ⊕ α)} {n : Nat} {b : β} {s : σ} {e : Halt}
    (h : (step b).run s = .halt e) : (loop step (n + 1) b).run s = .halt e := run_bind_halt h

end Act

end Throwing
