import NaturalC.NccBlocks

/-!
# Functions in the output

What the parser writes for a whole function: the constructors at the blank line, the labels, the
blocks, and at the closing brace the labels that the function does not have, with the destructors.
-/
namespace Ncc

open Regex Flow

/-! ## Functions -/

/-- A function from its opening to its closing brace, laid out with each statement on its own lines. -/
structure Function where
  opening : Line
  decls : List Line
  blankLine : Line
  body : Code
  /-- The `catch` label and its block. -/
  handler : Option (Line × Code)
  /-- The `finally` label and its block. -/
  cleanup : Option (Line × Code)
  closing : Line
  deriving DecidableEq, Repr

namespace Function

/-- The block behind a label, empty without the label. -/
def block : Option (Line × Code) → Code
  | none => .nil
  | some (_, b) => b

def partLines : Option (Line × Code) → List Line
  | none => []
  | some (l, b) => l :: codeLines b

def lines (f : Function) : List Line :=
  f.opening :: (f.decls ++ (f.blankLine :: (codeLines f.body ++ (partLines f.handler ++ (partLines f.cleanup ++
    [f.closing])))))

/-- What is read from the declarations. -/
def preamble (env : Env) (f : Function) : Preamble := preambleParse env (f.decls.flatten ++ f.blankLine)

/-- Whether there is a `catch` label by the end. -/
def hasCatch (f : Function) : Bool := f.handler.isSome || f.cleanup.isSome

def partItems (env : Env) (vars : List (Text × Text)) (label : Item) : Option (Line × Code) → List Item
  | none => []
  | some (_, b) => label :: codeItems env vars b

/-- What is written for the function. -/
def items (env : Env) (f : Function) : List Item :=
  .openBrace :: ((copy env [] f.decls).1 ++ (.autoNew (f.preamble env).autos ::
    (codeItems env (f.preamble env).vars f.body ++
      (partItems env (f.preamble env).vars .catchLabel f.handler ++
        (partItems env (f.preamble env).vars (.finallyLabel f.handler.isSome) f.cleanup ++
          [.closeBrace f.hasCatch f.cleanup.isSome (f.preamble env).autos])))))

end Function

/-- Every line of the function is taken for what it is. -/
structure Function.Fits (env : Env) (read : Text → Stmt) (u : Nat) (f : Function) : Prop where
  opening : opens f.opening = true
  decls : Copied env true f.decls
  declared : ∃ t, read (textOf f.decls) = .act t
  blankLine : blank f.blankLine = true
  body : Ncc.Fits env (f.preamble env).vars read u f.body
  catchLabel : ∀ l ∈ f.handler.map Prod.fst, test catchRx l = true
  handler : Ncc.Fits env (f.preamble env).vars read (u + cursorsIn f.body) (block f.handler)
  finallyLabel : ∀ l ∈ f.cleanup.map Prod.fst, test finallyRx l = true
  cleanup : Ncc.Fits env (f.preamble env).vars read (u + cursorsIn f.body + cursorsIn (block f.handler))
    (block f.cleanup)
  closing : closes f.closing = true

/-! ## What the parser writes for a function -/

theorem ruleOf_catch {l : Line} (h : test catchRx l = true) : ruleOf false l = .catchLabel := by
  have ho : test openRx l = false := test_exclusive (by decide) h
  have hc : test closeRx l = false := test_exclusive (by decide) h
  simp [ruleOf, ho, hc, h]

theorem ruleOf_finally {l : Line} (h : test finallyRx l = true) : ruleOf false l = .finallyLabel := by
  have ho : test openRx l = false := test_exclusive (by decide) h
  have hc : test closeRx l = false := test_exclusive (by decide) h
  have hcatch : test catchRx l = false := test_exclusive (by decide) h
  simp [ruleOf, ho, hc, hcatch, h]

theorem ruleOf_closing {l : Line} (h : closes l = true) : ruleOf false l = .closeBrace := by
  have ho : test openRx l = false := not_opens_of_closes h
  have hc : test closeRx l = true := h
  simp [ruleOf, ho, hc]

/-- The parser in the body of a function: what it has written, and what it will write at the closing brace. -/
structure Stage (vars : List (Text × Text)) (u : Nat) (hasCatch hasFinally : Bool) (autos : List Auto)
    (items : List Item) (s : State) : Prop where
  ready : Ready vars u s
  hasCatch : s.hasCatch = hasCatch
  hasFinally : s.hasFinally = hasFinally
  autoDestroy : s.autoDestroy = autos
  out : s.out.map Emitted.item = items

section

variable {env : Env} {vars : List (Text × Text)} {u : Nat} {hasCatch hasFinally : Bool} {autos : List Auto}
  {items : List Item} {s : State} {l : Line} {b : Code} {read : Text → Stmt}

theorem Stage.block (h : Stage vars u hasCatch hasFinally autos items s) (hb : Fits env vars read u b) (i : Nat) :
    ∃ s', steps env i s (codeLines b) = some s' ∧
      Stage vars (u + cursorsIn b) hasCatch hasFinally autos (items ++ codeItems env vars b) s' := by
  obtain ⟨s', hs', w⟩ := writes_block hb s i h.ready
  exact ⟨s', hs', h.ready.wrote w, w.hasCatch.trans h.hasCatch, w.hasFinally.trans h.hasFinally,
    w.autoDestroy.trans h.autoDestroy, by rw [w.out, h.out]⟩

/-- The `catch` label and its block. -/
theorem Stage.handler {part : Option (Line × Code)} (h : Stage vars u false hasFinally autos items s)
    (hl : ∀ l ∈ part.map Prod.fst, test catchRx l = true) (hb : Fits env vars read u (Function.block part)) (i : Nat) :
    ∃ s', steps env i s (Function.partLines part) = some s' ∧
      Stage vars (u + cursorsIn (Function.block part)) part.isSome hasFinally autos
        (items ++ Function.partItems env vars .catchLabel part) s' := by
  cases part with
  | none => exact ⟨s, rfl, by simpa [Function.block, cursorsIn, Function.partItems] using h⟩
  | some x =>
    obtain ⟨l, b⟩ := x
    have hstep : step env i s l =
        some { s.push .catchLabel [i] (Rule.catchLabel.dropped l) with hasCatch := true } := by
      rw [step, h.ready.insidePreamble, ruleOf_catch (hl l rfl)]
      rfl
    have hstage : Stage vars u true hasFinally autos (items ++ [.catchLabel])
        { s.push .catchLabel [i] (Rule.catchLabel.dropped l) with hasCatch := true } :=
      ⟨⟨h.ready.insidePreamble, h.ready.line, h.ready.vars, h.ready.uniq⟩, rfl, h.hasFinally, h.autoDestroy,
        by simp [State.push, h.out]⟩
    obtain ⟨s', hs', h'⟩ := hstage.block hb (i + 1)
    refine ⟨s', by rw [Function.partLines, steps, hstep]; exact hs', ?_⟩
    rw [List.append_assoc] at h'
    exact h'

/-- The `finally` label and its block. -/
theorem Stage.cleanup {part : Option (Line × Code)} (h : Stage vars u hasCatch false autos items s)
    (hl : ∀ l ∈ part.map Prod.fst, test finallyRx l = true) (hb : Fits env vars read u (Function.block part)) (i : Nat) :
    ∃ s', steps env i s (Function.partLines part) = some s' ∧
      Stage vars (u + cursorsIn (Function.block part)) (hasCatch || part.isSome) part.isSome autos
        (items ++ Function.partItems env vars (.finallyLabel hasCatch) part) s' := by
  cases part with
  | none => exact ⟨s, rfl, by simpa [Function.block, cursorsIn, Function.partItems] using h⟩
  | some x =>
    obtain ⟨l, b⟩ := x
    have hstep : step env i s l =
        some { s.push (.finallyLabel s.hasCatch) [i] (Rule.finallyLabel.dropped l) with
          hasCatch := true, hasFinally := true } := by
      rw [step, h.ready.insidePreamble, ruleOf_finally (hl l rfl)]
      rfl
    have hstage : Stage vars u true true autos (items ++ [.finallyLabel hasCatch])
        { s.push (.finallyLabel s.hasCatch) [i] (Rule.finallyLabel.dropped l) with
          hasCatch := true, hasFinally := true } :=
      ⟨⟨h.ready.insidePreamble, h.ready.line, h.ready.vars, h.ready.uniq⟩, rfl, rfl, h.autoDestroy,
        by simp [State.push, h.out, h.hasCatch]⟩
    obtain ⟨s', hs', h'⟩ := hstage.block hb (i + 1)
    refine ⟨s', by rw [Function.partLines, steps, hstep]; exact hs', ?_⟩
    rw [List.append_assoc] at h'
    rw [Option.isSome_some, Bool.or_true]
    exact h'

/-- From the opening brace to the blank line that ends the declarations. -/
theorem stage_of_opening {f : Function} (hf : f.Fits env read s.uniq) (hline : s.line = []) (i : Nat) :
    ∃ s', steps env i s (f.opening :: (f.decls ++ [f.blankLine])) = some s' ∧
      Stage (f.preamble env).vars s.uniq false false (f.preamble env).autos
        (s.out.map Emitted.item ++ .openBrace :: ((copy env [] f.decls).1 ++ [.autoNew (f.preamble env).autos])) s' := by
  obtain ⟨s₁, h₁⟩ : ∃ s₁, s₁ = { s.push .openBrace [i] (Rule.openBrace.dropped f.opening) with
      preambleLineno := s.out.length, preamble := [], insidePreamble := true, hasCatch := false,
      hasFinally := false } := ⟨_, rfl⟩
  have hopen : step env i s f.opening = some s₁ := by
    have hrule : ruleOf s.insidePreamble f.opening = .openBrace := if_pos hf.opening
    rw [step, hrule, h₁]
  have hin : s₁.insidePreamble = true := by rw [h₁]
  have hline₁ : s₁.line = [] := by rw [h₁]; exact hline
  have hdone : (copy env s₁.line f.decls).2 = [] := by rw [hline₁]; exact hf.decls.done
  obtain ⟨s₂, h₂, w, hpre⟩ := steps_copied (by rw [hin]; exact hf.decls.other) hdone (i + 1)
  have hblank : ruleOf true f.blankLine = .blank := by
    have ho : test openRx f.blankLine = false := not_opens_of_blank hf.blankLine
    have hb : test blankRx f.blankLine = true := hf.blankLine
    simp [ruleOf, ho, hb]
  have htext : s₂.preamble ++ f.blankLine = f.decls.flatten ++ f.blankLine := by
    rw [hpre, preambleAfter, hin, h₁]
    rfl
  obtain ⟨s₃, h₃⟩ : ∃ s₃, s₃ = { s₂.push (.autoNew (f.preamble env).autos) [i + 1 + f.decls.length]
      (Rule.blank.dropped f.blankLine) with
    vars := (f.preamble env).vars, autoDestroy := (f.preamble env).autos, insidePreamble := false,
    preamble := [] } := ⟨_, rfl⟩
  have hstep : step env (i + 1 + f.decls.length) s₂ f.blankLine = some s₃ := by
    have hin₂ : s₂.insidePreamble = true := w.insidePreamble.trans hin
    rw [step, hin₂, hblank, h₃]
    simp only [if_true, htext]
    rfl
  refine ⟨s₃, ?_, ⟨⟨?_, ?_, ?_, ?_⟩, ?_, ?_, ?_, ?_⟩⟩
  · rw [steps, hopen]
    simp only [Option.bind_eq_bind, Option.bind_some]
    rw [steps_append, h₂, Option.bind_some, steps, hstep]
    rfl
  · rw [h₃]
  · rw [h₃]
    exact w.line
  · rw [h₃]
  · rw [h₃]
    exact w.uniq.trans (by rw [h₁]; rfl)
  · rw [h₃]
    exact w.hasCatch.trans (by rw [h₁])
  · rw [h₃]
    exact w.hasFinally.trans (by rw [h₁])
  · rw [h₃]
  · rw [hline₁] at w
    simp [h₃, State.push, w.out, h₁]

/-- For a function whose lines are taken for what they are, the parser writes the items of the function. -/
theorem steps_function {f : Function} (hf : f.Fits env read s.uniq) (hline : s.line = []) (i : Nat) :
    ∃ s', steps env i s f.lines = some s' ∧
      s'.out.map Emitted.item = s.out.map Emitted.item ++ f.items env := by
  have hlines : f.lines = (f.opening :: (f.decls ++ [f.blankLine])) ++ (codeLines f.body ++
      (Function.partLines f.handler ++ (Function.partLines f.cleanup ++ [f.closing]))) := by simp [Function.lines]
  obtain ⟨s₁, h₁, stage₁⟩ := stage_of_opening hf hline i
  obtain ⟨s₂, h₂, stage₂⟩ := stage₁.block hf.body (i + (f.opening :: (f.decls ++ [f.blankLine])).length)
  obtain ⟨s₃, h₃, stage₃⟩ := stage₂.handler hf.catchLabel hf.handler
    (i + (f.opening :: (f.decls ++ [f.blankLine])).length + (codeLines f.body).length)
  obtain ⟨s₄, h₄, stage₄⟩ := stage₃.cleanup hf.finallyLabel hf.cleanup
    (i + (f.opening :: (f.decls ++ [f.blankLine])).length + (codeLines f.body).length +
      (Function.partLines f.handler).length)
  have hclose : ∀ j, step env j s₄ f.closing = some (s₄.push
      (.closeBrace s₄.hasCatch s₄.hasFinally s₄.autoDestroy) [j] (Rule.closeBrace.dropped f.closing)) := by
    intro j
    rw [step, stage₄.ready.insidePreamble, ruleOf_closing hf.closing]
    rfl
  have hsteps : steps env i s f.lines = (step env (i + (f.opening :: (f.decls ++ [f.blankLine])).length +
      (codeLines f.body).length + (Function.partLines f.handler).length + (Function.partLines f.cleanup).length)
      s₄ f.closing) := by
    rw [hlines, steps_append, h₁, Option.bind_some, steps_append, h₂, Option.bind_some, steps_append, h₃,
      Option.bind_some, steps_append, h₄, Option.bind_some, steps, hclose]
    rfl
  refine ⟨_, hsteps.trans (hclose _), ?_⟩
  · simp [State.push, stage₄.out, stage₄.hasCatch, stage₄.hasFinally, stage₄.autoDestroy, Function.items,
      Function.hasCatch]

end

end Ncc
