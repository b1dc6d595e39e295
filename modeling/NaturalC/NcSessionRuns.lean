import NaturalC.NcSession

/-!
# What a session does between its hooks

Only a hook changes the data of a protocol, and nothing changes the handle of the controller. So a relation that
holds across each call of a hook, and across everything that leaves these two alone, holds across whole runs.
-/
namespace NcSession

open Throwing Throwing.Act NcString

variable {σ α β : Type} {reg : Registry σ} {R : World σ → World σ → Prop} {w w' : World σ}

/-- The two fields are the same. -/
structure Quiet (w w' : World σ) : Prop where
  data : w'.session.data = w.session.data
  controllerHandle : w'.session.controllerHandle = w.session.controllerHandle

/-- Steps that the relation follows. -/
structure Traced (reg : Registry σ) (R : World σ → World σ → Prop) : Prop where
  quiet : ∀ {w w'}, Quiet w w' → R w w'
  trans : ∀ {w₁ w₂ w₃}, R w₁ w₂ → R w₂ w₃ → R w₁ w₃
  hook : ∀ {w hook f}, (reg.controller w.session.controllerHandle).hook hook = some f →
    R w ⟨w.session.after (f w.session), w.events ++ [.call hook (f w.session).result]⟩

theorem Traced.refl (hR : Traced reg R) (w : World σ) : R w w := hR.quiet ⟨rfl, rfl⟩

/-- One step after the other. -/
theorem Traced.bind (hR : Traced reg R) {m : Act (World σ) α} {f : α → Act (World σ) β}
    (hm : (m.run w).Leaves (R w)) (hf : ∀ a t, ((f a).run t).Leaves (R t)) : ((m >>= f).run w).Leaves (R w) :=
  leaves_bind hm (fun _ ht => ht) fun a t _ ht => (hf a t).imp fun _ hu => hR.trans ht hu

theorem Traced.modify (hR : Traced reg R) {f : Session σ → Session σ} (hdata : (f w.session).data = w.session.data)
    (hhandle : (f w.session).controllerHandle = w.session.controllerHandle) :
    ((modifySession f).run w).Leaves (R w) := hR.quiet ⟨hdata, hhandle⟩

theorem Traced.invoke (hR : Traced reg R) (hook : Hook) (w : World σ) :
    ((sessionControllerInvoke reg hook).run w).Leaves (R w) := by
  rw [sessionControllerInvoke, run_bind_get]
  split_ifs
  · exact hR.refl w
  · exact hR.refl w
  · cases hf : (reg.controller w.session.controllerHandle).hook hook with
    | none => exact hR.refl w
    | some f =>
      have hcall := hR.hook hf
      simp only [run_bind_record, run_bind_modifySession]
      split_ifs
      · exact hcall
      · exact hcall

theorem Traced.invokeResult (hR : Traced reg R) (hook : Hook) (w : World σ) :
    ((invokeResult reg hook).run w).Leaves (R w) := by
  apply hR.bind (leaves_attempt (hR.invoke hook w))
  intro _ t
  exact hR.refl t

theorem Traced.onLocal (hR : Traced reg R) (m : Act Str α) (s : Str) (w : World σ) :
    ((Act.onLocal m s).run w).Leaves (R w) := by
  apply (leaves_onLocal m s w).imp
  rintro _ rfl
  exact hR.refl _

theorem Traced.responseReset (hR : Traced reg R) (w : World σ) : (responseReset.run w).Leaves (R w) := by
  rw [NcSession.responseReset, run_bind_get]
  apply hR.bind (hR.onLocal _ _ w)
  intro _ t
  apply hR.bind (hR.onLocal _ _ t)
  intro _ u
  exact hR.modify rfl rfl

theorem Traced.socketReadline (hR : Traced reg R) (r : Readline) (connected : Bool) (w : World σ) :
    ((socketReadline r connected).run w).Leaves (R w) := by
  cases r with
  | line text => exact hR.quiet ⟨rfl, rfl⟩
  | timeout => exact hR.quiet ⟨rfl, rfl⟩
  | failure => exact hR.quiet ⟨rfl, rfl⟩

theorem Traced.processRequest (hR : Traced reg R) (r : Readline) (connected : Bool) (w : World σ) :
    ((sessionProcessRequest reg r connected).run w).Leaves (R w) := by
  apply hR.bind (hR.socketReadline r connected w)
  intro line t
  rw [run_bind_get]
  split_ifs
  · exact hR.modify rfl rfl
  · apply hR.bind (hR.responseReset t)
    intro _ u
    apply hR.bind (hR.invokeResult _ u)
    intro rc v
    exact hR.invoke _ v

theorem Traced.greet (hR : Traced reg R) (w : World σ) : ((sessionGreet reg).run w).Leaves (R w) := by
  apply hR.bind (hR.invokeResult _ w)
  intro rc t
  split_ifs
  · exact hR.refl t
  · exact hR.modify rfl rfl

end NcSession
