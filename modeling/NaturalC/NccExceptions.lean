import NaturalC.NccEmission

/-!
# Exceptions

The labels that the translator writes into a function, with the jumps to them, against
structured exception handling: an exception leads through the `catch` block, and every way
out through the `finally` block and the destructors. The macros for checked calls, `throw`,
`throwf` and `require` return from the function instead of jumping to a label.
-/
namespace Ncc

open Regex Flow

/-! ## The output as a program -/

abbrev CSeg := Seg Prim ItemFrame Label

def one (p : Prim) : CSeg := .code (.leaf p .nil)

/-- `goto finally; catch: __retval = -1;` -/
def catchSegs : List CSeg := [one (.goto .final), .label .caught, one .minusOne]

/-- The program in the text of an item outside of the blocks. -/
def Item.segs : Item → List CSeg
  | .openBrace => [one .zero]
  | .autoNew autos => [one (.create autos)]
  | .catchLabel => catchSegs
  | .finallyLabel hasCatch => (if hasCatch then [] else catchSegs) ++ [.label .final]
  | .closeBrace hasCatch hasFinally autos =>
    one .never :: ((if hasCatch then [] else catchSegs) ++ ((if hasFinally then [] else [.label .final]) ++
      [one (.destroy autos), one .giveBack]))
  | item => [one (.items [item])]

/-! ## The text of the program -/

def Label.text : Label → Text
  | .caught => str "catch:"
  | .final => str "finally:"

def Prim.text : Prim → Text
  | .items is => textOfItems is
  | .zero => str "int __retval = 0;"
  | .minusOne => str "__retval = -1;"
  | .goto .caught => str "goto catch;"
  | .goto .final => str "goto finally;"
  | .never => str "if (0) goto catch;"
  | .create autos => newCode autos
  | .destroy autos => destroyCode autos
  | .fail msg => str "return _throwf(" ++ msg ++ str ");"
  | .giveBack => str "return __retval;"

/-- The fragments of an item, each with its text and its meaning. -/
inductive Fragment where
  /-- White space, comments and braces. -/
  | layout (t : Text)
  | label (l : Label)
  | prim (p : Prim)
  /-- `__retval = e;` -/
  | set (e : Text)
  /-- `try (name(args));` -/
  | tryCall (name args : Text)
  /-- The statement for a method call. -/
  | tryMethod (t : Text)
  deriving DecidableEq, Repr

def Fragment.text : Fragment → Text
  | .layout t => t
  | .label l => l.text
  | .prim p => p.text
  | .set e => str "__retval = " ++ e ++ str ";"
  | .tryCall name args => str "try (" ++ name ++ str "(" ++ args ++ str "));"
  | .tryMethod t => t

/-- What the pieces outside of the blocks are in the program. -/
def Fragment.seg : Fragment → Option CSeg
  | .label l => some (.label l)
  | .prim p => some (one p)
  | _ => none

variable {σ : Type}

def Fragment.run (L : Lang σ) (p : Fragment) (s : Local σ) : Out (Jump Label Int) × Local σ :=
  match p with
  | .layout _ => (.normal, s)
  | .label _ => (.normal, s)
  | .prim p => L.prim p s
  | .set e => (.normal, { s.log (.did (.ret e)) (L.value e s.mem.val).2 with retval := (L.value e s.mem.val).1 })
  | .tryCall name args => L.cTry (.call name args) (L.call name args s.mem.val) s
  | .tryMethod t => L.cTry (.method t) (L.invoke t s.mem.val) s

/-- The pieces one after the other, up to one that leaves them. -/
def runFragments (L : Lang σ) : List Fragment → Local σ → Out (Jump Label Int) × Local σ
  | [], s => (.normal, s)
  | p :: ps, s =>
    match p.run L s with
    | (.normal, s) => runFragments L ps s
    | r => r

def catchFragments (gap : Text) : List Fragment :=
  [.prim (.goto .final), .layout gap, .label .caught, .layout (str " "), .prim .minusOne, .layout (str " ")]

def Item.fragments : Item → List Fragment
  | .openBrace => [.layout (str "\x7b             "), .prim .zero]
  | .autoNew autos => [.prim (.create autos)]
  | .catchLabel => (catchFragments (str " ")).dropLast
  | .finallyLabel hasCatch => (if hasCatch then [] else catchFragments (str " ")) ++ [.label .final]
  | .closeBrace hasCatch hasFinally autos =>
    [.prim .never, .layout (str " ")] ++ ((if hasCatch then [] else catchFragments (str "  ")) ++
      ((if hasFinally then [] else [.label .final, .layout (str " ")]) ++
        [.prim (.destroy autos), .prim .giveBack, .layout (str " \x7d")]))
  | .ret indent e =>
    [.layout (indent ++ str "do \x7b "), .set e, .layout (str " "), .prim (.goto .final),
      .layout (str " \x7d while (0);")]
  | .checked indent name args post => [.layout indent, .tryCall name args, .layout post]
  | .method t => [.tryMethod t]
  | item => [.prim (.items [item])]

/-- The text of an item is that of its pieces. -/
theorem fragments_text (item : Item) : (item.fragments.map Fragment.text).flatten = item.text := by
  cases item with
  | finallyLabel hasCatch => cases hasCatch <;> rfl
  | closeBrace hasCatch hasFinally autos =>
    cases hasCatch <;> cases hasFinally <;>
      simp [Item.fragments, catchFragments, Fragment.text, Prim.text, Label.text, Item.text, str]
  | ret indent e => simp [Item.fragments, Fragment.text, Prim.text, Item.text, str]
  | checked indent name args post => simp [Item.fragments, Fragment.text, Item.text, str]
  | _ => simp [Item.fragments, catchFragments, Fragment.text, Prim.text, Label.text, Item.text, textOfItems, join, str]

/-- An item that stands outside of the blocks. -/
def Item.isOutside : Item → Bool
  | .openBrace | .autoNew _ | .catchLabel | .finallyLabel _ | .closeBrace _ _ _ => true
  | _ => false

/-- Outside of the blocks the pieces are the program. -/
theorem fragments_segs {item : Item} (h : item.isOutside = true) :
    item.fragments.filterMap Fragment.seg = item.segs := by
  cases item with
  | finallyLabel hasCatch => cases hasCatch <;> rfl
  | closeBrace hasCatch hasFinally autos => cases hasCatch <;> cases hasFinally <;> rfl
  | openBrace => rfl
  | autoNew autos => rfl
  | catchLabel => rfl
  | _ => cases h

theorem runFragments_single (L : Lang σ) (p : Fragment) (s : Local σ) : runFragments L [p] s = p.run L s := by
  rw [runFragments]
  split
  · rename_i hnormal
    rw [hnormal, runFragments]
  · rfl

/-- In a block an item does what its pieces do. -/
theorem fragments_run (L : Lang σ) {item : Item} (h : item.isOutside = false) (s : Local σ) :
    L.items [item] s = runFragments L item.fragments s := by
  cases item with
  | ret indent e => rfl
  | checked indent name args post =>
    simp only [Item.fragments, runFragments, Fragment.run, Lang.items, Lang.cTry]
    split_ifs <;> rfl
  | method t => exact (runFragments_single L (.tryMethod t) s).symm
  | preface fn => exact (runFragments_single L (.prim (.items [.preface fn])) s).symm
  | foreach indent var list cur => exact (runFragments_single L (.prim (.items [.foreach indent var list cur])) s).symm
  | warning => exact (runFragments_single L (.prim (.items [.warning])) s).symm
  | verbatim t => exact (runFragments_single L (.prim (.items [.verbatim t])) s).symm
  | clobbered post => exact (runFragments_single L (.prim (.items [.clobbered post])) s).symm
  | _ => cases h

namespace Function

def partSegs (read : Text → Stmt) (env : Env) (vars : List (Text × Text)) (label : Item) :
    Option (Line × Code) → List CSeg
  | none => []
  | some (_, b) => label.segs ++ [.code (emit read env vars b)]

/-- The function in the output. -/
def program (read : Text → Stmt) (env : Env) (f : Function) : List CSeg :=
  Item.openBrace.segs ++ (one (.items (copy env [] f.decls).1) :: ((Item.autoNew (f.preamble env).autos).segs ++
    (.code (emit read env (f.preamble env).vars f.body) ::
      (partSegs read env (f.preamble env).vars .catchLabel f.handler ++
        (partSegs read env (f.preamble env).vars (.finallyLabel f.handler.isSome) f.cleanup ++
          (Item.closeBrace f.hasCatch f.cleanup.isSome (f.preamble env).autos).segs)))))

end Function

/-- A call of the function as it was written returns `v`. -/
def Function.Returns (L : Lang σ) (env : Env) (f : Function) (m : Mem σ) (v : Int) (m' : Mem σ) : Prop :=
  ∃ r, Exec L.output (f.program L.read env) (f.program L.read env) ⟨m, 0⟩ v ⟨m', r⟩

/-! ## Structured exceptions -/

/-- The declarations and constructors; whether the constructors succeeded. -/
def Function.prologue (L : Lang σ) (env : Env) (f : Function) (m : Mem σ) : Bool × Mem σ :=
  let d := (L.stmt env.isSym (L.read (textOf f.decls)) m).2
  L.createAll (f.preamble env).autos { d with val := L.clear (f.preamble env).autos d.val }

/-- The `catch` block runs after a throw and only then, the `finally` block and the destructors run on every
way out. The value is -1 after a throw, that of the return statement, or 0. -/
inductive Function.Structured (L : Lang σ) (env : Env) (f : Function) (m : Mem σ) : Int → Mem σ → Prop
  | fell {m₁ m₂ : Mem σ} (hb : Runs (L.source env.isSym) f.body (f.prologue L env m).2 .normal m₁)
    (hf : Runs (L.source env.isSym) (Function.block f.cleanup) m₁ .normal m₂) :
    Structured L env f m 0 (L.destroyAll (f.preamble env).autos m₂).2
  | returned {v : Int} {m₁ m₂ : Mem σ}
    (hb : Runs (L.source env.isSym) f.body (f.prologue L env m).2 (.exit (.returned v)) m₁)
    (hf : Runs (L.source env.isSym) (Function.block f.cleanup) m₁ .normal m₂) :
    Structured L env f m v (L.destroyAll (f.preamble env).autos m₂).2
  | thrown {m₁ m₂ m₃ : Mem σ} (hb : Runs (L.source env.isSym) f.body (f.prologue L env m).2 (.exit .thrown) m₁)
    (hc : Runs (L.source env.isSym) (Function.block f.handler) m₁ .normal m₂)
    (hf : Runs (L.source env.isSym) (Function.block f.cleanup) m₂ .normal m₃) :
    Structured L env f m (-1) (L.destroyAll (f.preamble env).autos m₃).2

/-! ## Conditions -/

/-- The blocks behind the labels are not left, and destructors succeed. -/
structure Function.Safe (L : Lang σ) (env : Env) (f : Function) : Prop where
  handler : Calm (L.source env.isSym) (block f.handler)
  cleanup : Calm (L.source env.isSym) (block f.cleanup)
  destroy : ∀ a x, (L.destroy a x).1 = 0

/-- The body is left by `return`, `throw_silent` and `throw_errno` only. -/
def Function.Plain (L : Lang σ) (env : Env) (f : Function) : Prop :=
  ∀ g ∈ f.body.leaves, ∀ s, ((L.source env.isSym).leaf g s).1 ≠ .exit .failed

/-! ## Runs of the output -/

section

variable {L : Lang σ} {env : Env} {f : Function} {vars : List (Text × Text)} {p k : List CSeg} {u : Nat} {v r : Int}
  {m : Mem σ} {t : Local σ}

theorem createAll_fst (h : ∀ a x, (L.create a x).1 = 0) (as : List Auto) (m : Mem σ) : (L.createAll as m).1 = true := by
  induction as generalizing m with
  | nil => rfl
  | cons a as ih => rw [Lang.createAll, if_pos (h a _), ih]

theorem destroyAll_fst (h : ∀ a x, (L.destroy a x).1 = 0) (as : List Auto) (m : Mem σ) :
    (L.destroyAll as m).1 = true := by
  induction as generalizing m with
  | nil => rfl
  | cons a as ih => rw [Lang.destroyAll, if_pos (h a _), ih]

theorem exec_one {q : Prim} {s s' : Local σ} (h : L.prim q s = (.normal, s')) :
    Exec L.output p (one q :: k) s v t ↔ Exec L.output p k s' v t :=
  exec_normal (runs_single.mpr h)

theorem exec_jump {l : Label} {s : Local σ} :
    Exec L.output p (one (.goto l) :: k) s v t ↔ Exec L.output p (behind l p) s v t :=
  exec_goto (runs_single.mpr rfl)

/-- A block that is not left. -/
theorem exec_calm {b : Code} (hb : Fits env vars L.read u b) (hcalm : Calm (L.source env.isSym) b) :
    Exec L.output p (.code (emit L.read env vars b) :: k) ⟨m, r⟩ v t ↔
      ∃ m₁, Runs (L.source env.isSym) b m .normal m₁ ∧ Exec L.output p k ⟨m₁, r⟩ v t := by
  have hm := matches_of_fits hb (.inr hcalm : r = 0 ∨ _)
  rw [emit_eq_map hb]
  constructor
  · intro h
    obtain ⟨o, t₁, hr, hbrk, hcont⟩ := exists_runs_of_exec h
    obtain ⟨o', m₁, hrun, hout⟩ := Runs.of_map (v := view r) (s := m) hm hr
    cases o' with
    | normal =>
      cases hout
      exact ⟨m₁, hrun, (exec_normal hr).mp h⟩
    | brk =>
      cases hout
      exact absurd rfl hbrk
    | cont =>
      cases hout
      exact absurd rfl hcont
    | exit e => exact absurd rfl (hcalm.ne_exit hrun e)
  · rintro ⟨m₁, hrun, h⟩
    exact (exec_normal (hrun.map hm)).mpr h

theorem behind_final (read : Text → Stmt) (env : Env) (f : Function) :
    behind .final (f.program read env) =
      (match f.cleanup with
        | none => []
        | some (_, b) => [.code (emit read env (f.preamble env).vars b), one .never]) ++
        [one (.destroy (f.preamble env).autos), one .giveBack] := by
  cases hh : f.handler <;> cases hc : f.cleanup <;>
    simp [Function.program, Function.partSegs, Function.hasCatch, hh, hc, Item.segs, catchSegs, one, behind]

theorem behind_caught (read : Text → Stmt) (env : Env) (f : Function) :
    ∃ x, (x = [] ∨ x = [one .never]) ∧ behind .caught (f.program read env) =
      one .minusOne :: ((match f.handler with
        | none => []
        | some (_, b) => [.code (emit read env (f.preamble env).vars b)]) ++
        (x ++ .label .final :: behind .final (f.program read env))) := by
  rw [behind_final]
  cases hh : f.handler with
  | none =>
    refine ⟨[], .inl rfl, ?_⟩
    cases hc : f.cleanup <;>
      simp [Function.program, Function.partSegs, Function.hasCatch, hh, hc, Item.segs, catchSegs, one, behind]
  | some y =>
    cases hc : f.cleanup with
    | none =>
      refine ⟨[one .never], .inr rfl, ?_⟩
      simp [Function.program, Function.partSegs, Function.hasCatch, hh, hc, Item.segs, catchSegs, one, behind]
    | some z =>
      refine ⟨[], .inl rfl, ?_⟩
      simp [Function.program, Function.partSegs, Function.hasCatch, hh, hc, Item.segs, catchSegs, one, behind]

/-- What stands in front of the body, and the jump behind it. -/
theorem program_eq (read : Text → Stmt) (env : Env) (f : Function) :
    ∃ x k, (x = [] ∨ x = [one .never]) ∧ f.program read env =
      one .zero :: one (.items (copy env [] f.decls).1) :: one (.create (f.preamble env).autos) ::
        .code (emit read env (f.preamble env).vars f.body) :: (x ++ one (.goto .final) :: k) := by
  cases hh : f.handler with
  | some y => exact ⟨[], _, .inl rfl, by simp [Function.program, Function.partSegs, hh, Item.segs, catchSegs]; rfl⟩
  | none =>
    cases hc : f.cleanup with
    | some z => exact ⟨[], _, .inl rfl, by simp [Function.program, Function.partSegs, hh, hc, Item.segs, catchSegs]; rfl⟩
    | none =>
      exact ⟨[one .never], _, .inr rfl, by
        simp [Function.program, Function.partSegs, Function.hasCatch, hh, hc, Item.segs, catchSegs]; rfl⟩

/-- The part in front of a label or jump does nothing. -/
theorem exec_skip {x : List CSeg} (hx : x = [] ∨ x = [one .never]) {s : Local σ} :
    Exec L.output p (x ++ k) s v t ↔ Exec L.output p k s v t := by
  rcases hx with rfl | rfl
  · rfl
  · exact exec_one rfl

/-- The `finally` block, the destructors and the return. -/
theorem exec_final (hf : f.Fits env L.read u) (hs : f.Safe L env) {m' : Mem σ} {r' : Int} :
    Exec L.output (f.program L.read env) (behind .final (f.program L.read env)) ⟨m, r⟩ v ⟨m', r'⟩ ↔
      ∃ m₁, Runs (L.source env.isSym) (Function.block f.cleanup) m .normal m₁ ∧
        m' = (L.destroyAll (f.preamble env).autos m₁).2 ∧ v = r ∧ r' = r := by
  have hend : ∀ m : Mem σ, Exec L.output (f.program L.read env) [one (.destroy (f.preamble env).autos), one .giveBack]
      ⟨m, r⟩ v ⟨m', r'⟩ ↔ m' = (L.destroyAll (f.preamble env).autos m).2 ∧ v = r ∧ r' = r := by
    intro m
    have hdestroy : L.prim (.destroy (f.preamble env).autos) ⟨m, r⟩ =
        (.normal, ⟨(L.destroyAll (f.preamble env).autos m).2, r⟩) := by
      rw [Lang.prim, Local.orReturn, destroyAll_fst hs.destroy]
      rfl
    rw [exec_one hdestroy, one, exec_ret (runs_single.mpr rfl), Local.mk.injEq]
    tauto
  rw [behind_final]
  cases hc : f.cleanup with
  | none => simp [hend, Function.block, runs_nil]
  | some x =>
    obtain ⟨l, b⟩ := x
    have hblock : Function.block f.cleanup = b := by rw [hc]; rfl
    have hfits := hf.cleanup
    have hcalm := hs.cleanup
    rw [hblock] at hfits hcalm
    simp only [List.cons_append, List.nil_append]
    rw [exec_calm hfits hcalm]
    simp only [exec_one (show L.prim .never _ = (.normal, _) from rfl), hend]
    rfl

/-- The `catch` block, and then what follows on every way out. -/
theorem exec_caught (hf : f.Fits env L.read u) (hs : f.Safe L env) :
    Exec L.output (f.program L.read env) (behind .caught (f.program L.read env)) ⟨m, r⟩ v t ↔
      ∃ m₁, Runs (L.source env.isSym) (Function.block f.handler) m .normal m₁ ∧
        Exec L.output (f.program L.read env) (behind .final (f.program L.read env)) ⟨m₁, -1⟩ v t := by
  obtain ⟨x, hx, hprog⟩ := behind_caught L.read env f
  rw [hprog, exec_one (show L.prim .minusOne _ = (.normal, _) from rfl)]
  cases hh : f.handler with
  | none => simp [exec_skip hx, exec_label, Function.block, runs_nil]
  | some y =>
    obtain ⟨l, b⟩ := y
    have hblock : Function.block f.handler = b := by rw [hh]; rfl
    have hfits := hf.handler
    have hcalm := hs.handler
    rw [hblock] at hfits hcalm
    simp only [List.cons_append, List.nil_append]
    rw [exec_calm hfits hcalm]
    simp only [exec_skip hx, exec_label]
    rfl

/-- The declarations and constructors in front of the body. -/
theorem exec_prologue (hf : f.Fits env L.read u) (hm : (f.prologue L env m).1 = true) :
    Exec L.output p (one .zero :: one (.items (copy env [] f.decls).1) :: one (.create (f.preamble env).autos) :: k)
      ⟨m, 0⟩ v t ↔ Exec L.output p k ⟨(f.prologue L env m).2, 0⟩ v t := by
  obtain ⟨c, hc⟩ := hf.declared
  have hdecl : L.prim (.items (copy env [] f.decls).1) ⟨m, 0⟩ =
      (.normal, ⟨(L.stmt env.isSym (L.read (textOf f.decls)) m).2, 0⟩) := by
    rw [Lang.prim, items_verbatim hf.decls.verbatim, hf.decls.text, hc]
    rfl
  have hcreate : L.prim (.create (f.preamble env).autos) ⟨(L.stmt env.isSym (L.read (textOf f.decls)) m).2, 0⟩ =
      (.normal, ⟨(f.prologue L env m).2, 0⟩) := by
    change ((if (f.prologue L env m).1 then _ else _ : Out (Jump Label Int)), _) = _
    rw [hm]
    rfl
  rw [exec_one (show L.prim .zero _ = (.normal, _) from rfl), exec_one hdecl, exec_one hcreate]

/-- Every way out of the body: a checked call that fails and its like return at once. -/
theorem returns_iff (hf : f.Fits env L.read u) (hs : f.Safe L env) (hm : (f.prologue L env m).1 = true)
    {m' : Mem σ} :
    f.Returns L env m v m' ↔ f.Structured L env m v m' ∨
      v = -1 ∧ Runs (L.source env.isSym) f.body (f.prologue L env m).2 (.exit .failed) m' := by
  obtain ⟨x, k, hx, hprog⟩ := program_eq L.read env f
  have hbody := matches_of_fits hf.body (.inl rfl : (0 : Int) = 0 ∨ Calm (L.source env.isSym) f.body)
  have hstart : f.Returns L env m v m' ↔ ∃ r, Exec L.output (f.program L.read env)
      (.code (emit L.read env (f.preamble env).vars f.body) :: (x ++ one (.goto .final) :: k))
      ⟨(f.prologue L env m).2, 0⟩ v ⟨m', r⟩ := by
    refine exists_congr fun r => ?_
    conv_lhs => arg 3; rw [hprog]
    exact exec_prologue hf hm
  rw [hstart, emit_eq_map hf.body]
  constructor
  · rintro ⟨r, h⟩
    obtain ⟨o, t, hr, hbrk, hcont⟩ := exists_runs_of_exec h
    obtain ⟨o', m₁, hrun, hout⟩ := Runs.of_map (v := view 0) (s := (f.prologue L env m).2) hbody hr
    cases o' with
    | normal =>
      cases hout
      rw [exec_normal hr, exec_skip hx, exec_jump, exec_final hf hs] at h
      obtain ⟨m₂, hfin, rfl, rfl, -⟩ := h
      exact .inl (.fell hrun hfin)
    | brk =>
      cases hout
      exact absurd rfl hbrk
    | cont =>
      cases hout
      exact absurd rfl hcont
    | exit e =>
      cases e with
      | returned w =>
        cases hout
        rw [exec_goto hr, exec_final hf hs] at h
        obtain ⟨m₂, hfin, rfl, rfl, -⟩ := h
        exact .inl (.returned hrun hfin)
      | thrown =>
        cases hout
        rw [exec_goto hr, exec_caught hf hs] at h
        obtain ⟨m₂, hc, h⟩ := h
        obtain ⟨m₃, hfin, rfl, rfl, -⟩ := (exec_final hf hs).mp h
        exact .inl (.thrown hrun hc hfin)
      | failed =>
        cases hout
        obtain ⟨rfl, hend⟩ := (exec_ret hr).mp h
        obtain ⟨rfl, -⟩ := Local.mk.inj hend
        exact .inr ⟨rfl, hrun⟩
  · have hend : ∀ {m₁ m₂ : Mem σ} (r : Int), Runs (L.source env.isSym) (Function.block f.cleanup) m₁ .normal m₂ →
        Exec L.output (f.program L.read env) (behind .final (f.program L.read env)) ⟨m₁, r⟩ r
          ⟨(L.destroyAll (f.preamble env).autos m₂).2, r⟩ :=
      fun r hfin => (exec_final hf hs).mpr ⟨_, hfin, rfl, rfl, rfl⟩
    rintro (h | ⟨rfl, hrun⟩)
    · cases h with
      | fell hb hfin =>
        exact ⟨0, (exec_normal (hb.map hbody)).mpr ((exec_skip hx).mpr (exec_jump.mpr (hend 0 hfin)))⟩
      | returned hb hfin =>
        exact ⟨v, (exec_goto (hb.map hbody)).mpr (hend v hfin)⟩
      | thrown hb hc hfin =>
        exact ⟨-1, (exec_goto (hb.map hbody)).mpr ((exec_caught hf hs).mpr ⟨_, hc, hend (-1) hfin⟩)⟩
    · exact ⟨0, (exec_ret (hrun.map hbody)).mpr ⟨rfl, rfl⟩⟩

end

/-! ## Structured exceptions in the output -/

section

variable {L : Lang σ} {env : Env} {f : Function} {s : State}

theorem not_failed (hp : f.Plain L env) {m m' : Mem σ} : ¬ Runs (L.source env.isSym) f.body m (.exit .failed) m' := by
  rintro ⟨n, hn⟩
  obtain ⟨g, hg, t, hexit⟩ := leaf_of_run hn
  exact hp g hg t hexit

/-- A function that is left by falling off its end, `return`, `throw_silent` or `throw_errno`, and whose lines
are taken for what they are: the parser writes it, and a call of what was written returns what structured
exception handling gives. -/
theorem function_simulates (hf : f.Fits env L.read s.uniq) (hline : s.line = []) (hs : f.Safe L env)
    (hc : ∀ a x, (L.create a x).1 = 0) (hp : f.Plain L env) (i : Nat) :
    ∃ s', steps env i s f.lines = some s' ∧ s'.out.map Emitted.item = s.out.map Emitted.item ++ f.items env ∧
      ∀ m v m', f.Returns L env m v m' ↔ f.Structured L env m v m' := by
  obtain ⟨s', hsteps, hout⟩ := steps_function hf hline i
  refine ⟨s', hsteps, hout, fun m v m' => ?_⟩
  rw [returns_iff hf hs (createAll_fst hc _ _)]
  exact or_iff_left fun h => not_failed hp h.2

/-! ## A function with all kinds of exits -/

/-- What C makes of the functions below. Every checked call fails, and every value is 3. -/
def demoLang : Lang Unit where
  read t :=
    if t = str "\t\tthrow_silent();" then .throwSilent
    else if t = str "\treturn 3;" then .ret (str "3")
    else if t = str "\twork();" then .call (str "work") []
    else .act t
  act _ _ := ()
  value _ _ := (3, ())
  call _ _ _ := (1, ())
  invoke _ _ := (1, ())
  report _ _ := ()
  clear _ _ := ()
  create _ _ := (0, ())
  destroy _ _ := (0, ())
  test _ _ _ := (true, ())
  enter _ _ _ := (false, ())
  next _ _ _ := (false, ())

/-- A function with a branch that throws, a return statement and both blocks. -/
def throwFunction : Function where
  opening := str "\x7b\n"
  decls := [str "\tlist_t *a;\n"]
  blankLine := str "\n"
  body := .branch ⟨.lines [str "\tif (x) \x7b\n"], [], [str "\t\x7d\n"]⟩
    (.leaf [str "\t\tthrow_silent();\n"] .nil) .nil (.leaf [str "\treturn 3;\n"] .nil)
  handler := some (str "catch:\n", .leaf [str "\ty = 0;\n"] .nil)
  cleanup := some (str "finally:\n", .leaf [str "\tz = 0;\n"] .nil)
  closing := str "\x7d\n"

theorem ruleOf_ret {l : Line} {m : Match} (hopen : test openRx l = false) (hclose : test closeRx l = false)
    (hcatch : test catchRx l = false) (hfinally : test finallyRx l = false) (hforeach : search foreachRx l = none)
    (h : search returnRx l = some m) : ruleOf false l = .ret m := by
  simp [ruleOf, statementRule, hopen, hclose, hcatch, hfinally, hforeach, h]

theorem throwFunction_fits : throwFunction.Fits someEnv demoLang.read 0 := by
  have hret : ∃ m, search returnRx (str "\treturn 3;\n") = some m ∧ m.group 2 = str "3" := by
    have h : (search returnRx (str "\treturn 3;\n")).map (fun m => m.group 2) = some (str "3") := by decide +kernel
    exact Option.map_eq_some_iff.mp h
  obtain ⟨m, hm, hgroup⟩ := hret
  have htaken : Taken someEnv (throwFunction.preamble someEnv).vars demoLang.read [str "\treturn 3;\n"] := by
    refine .ret (m := m) (ruleOf_ret (by decide +kernel) (by decide +kernel) (by decide +kernel) (by decide +kernel)
      (by decide +kernel) hm) ?_
    rw [hgroup]
    decide +kernel
  have hopening : Copied someEnv false [str "\tif (x) \x7b\n"] := by decide +kernel
  have hclosing : Copied someEnv false [str "\t\x7d\n"] := by decide +kernel
  have hmid : Copied someEnv false [] := by decide +kernel
  have hthrow : Copied someEnv false [str "\t\tthrow_silent();\n"] := by decide +kernel
  have hhandler : Copied someEnv false [str "\ty = 0;\n"] := by decide +kernel
  have hcleanup : Copied someEnv false [str "\tz = 0;\n"] := by decide +kernel
  exact {
    opening := by decide +kernel
    decls := by decide +kernel
    declared := ⟨textOf throwFunction.decls, by decide +kernel⟩
    blankLine := by decide +kernel
    body := ⟨rfl, hopening, hmid, hclosing, by decide +kernel, ⟨.copied hthrow (by decide +kernel), trivial⟩, trivial,
      htaken, trivial⟩
    catchLabel := by decide +kernel
    handler := ⟨.copied hhandler (by decide +kernel), trivial⟩
    finallyLabel := by decide +kernel
    cleanup := ⟨.copied hcleanup (by decide +kernel), trivial⟩
    closing := by decide +kernel }

/-- An assignment does not leave the function. -/
theorem act_no_exit {g : List Line} (text : Text) (hread : demoLang.read (textOf g) = .act text) (m : Mem Unit)
    (e : Exit) : ((demoLang.source someEnv.isSym).leaf g m).1 ≠ .exit e := by
  change (demoLang.stmt someEnv.isSym (demoLang.read (textOf g)) m).1 ≠ .exit e
  rw [hread]
  intro h
  cases h

theorem throwFunction_safe : throwFunction.Safe demoLang someEnv where
  handler := by
    intro g hg m e
    obtain rfl : g = [str "\ty = 0;\n"] := by simpa [throwFunction, Function.block, Block.leaves] using hg
    apply act_no_exit (str "\ty = 0;")
    decide +kernel
  cleanup := by
    intro g hg m e
    obtain rfl : g = [str "\tz = 0;\n"] := by simpa [throwFunction, Function.block, Block.leaves] using hg
    apply act_no_exit (str "\tz = 0;")
    decide +kernel
  destroy _ _ := rfl

theorem throwFunction_plain : throwFunction.Plain demoLang someEnv := by
  intro g hg m
  change (demoLang.stmt someEnv.isSym (demoLang.read (textOf g)) m).1 ≠ .exit .failed
  have hcases : g = [str "\t\tthrow_silent();\n"] ∨ g = [str "\treturn 3;\n"] := by
    simpa [throwFunction, Block.leaves] using hg
  rcases hcases with rfl | rfl
  · have hread : demoLang.read (textOf [str "\t\tthrow_silent();\n"]) = .throwSilent := by decide +kernel
    rw [hread]
    intro h
    cases h
  · have hread : demoLang.read (textOf [str "\treturn 3;\n"]) = .ret (str "3") := by decide +kernel
    rw [hread]
    intro h
    cases h

/-- The branch is taken, so the function throws. -/
theorem function_simulates_throwFunction :
    ∃ s', steps someEnv 0 (start (str "f.nc")) throwFunction.lines = some s' ∧
      s'.out.map Emitted.item = .preface (str "f.nc") :: throwFunction.items someEnv ∧
      ∀ m v m', throwFunction.Returns demoLang someEnv m v m' ↔ throwFunction.Structured demoLang someEnv m v m' :=
  function_simulates (s := start (str "f.nc")) throwFunction_fits rfl throwFunction_safe (fun _ _ => rfl)
    throwFunction_plain 0

/-- An assignment to a variable whose name starts with `return`. -/
def codeFunction : Function where
  opening := str "\x7b\n"
  decls := []
  blankLine := str "\n"
  body := .leaf [str "\treturn_code = 3;\n"] .nil
  handler := none
  cleanup := none
  closing := str "\x7d\n"

/-- What is written for the assignment leaves the function with the value assigned. -/
theorem assignment_taken_for_return :
    (∃ s', steps someEnv 0 (start (str "f.nc")) codeFunction.lines = some s' ∧
      s'.out.map Emitted.item = .preface (str "f.nc") :: codeFunction.items someEnv) ∧
      codeFunction.Safe demoLang someEnv ∧ codeFunction.Plain demoLang someEnv ∧
      (∃ m, codeFunction.Returns demoLang someEnv ⟨(), []⟩ 3 m) ∧
      ¬ ∃ m, codeFunction.Structured demoLang someEnv ⟨(), []⟩ 3 m := by
  have hread : demoLang.read (textOf [str "\treturn_code = 3;\n"]) = .act (str "\treturn_code = 3;") := by
    decide +kernel
  have hleaf : ∀ m, (demoLang.source someEnv.isSym).leaf [str "\treturn_code = 3;\n"] m =
      demoLang.stmt someEnv.isSym (.act (str "\treturn_code = 3;")) m := by
    intro m
    rw [← hread]
    rfl
  have hprog : codeFunction.program demoLang.read someEnv =
      [one .zero, one (.items []), one (.create []), one (.items [.ret (str "\t") (str "_code = 3")]), one .never,
        one (.goto .final), .label .caught, one .minusOne, .label .final, one (.destroy []), one .giveBack] := by
    decide +kernel
  refine ⟨?_, ⟨by simp [Calm, codeFunction, Function.block, Block.leaves],
    by simp [Calm, codeFunction, Function.block, Block.leaves], fun _ _ => rfl⟩, ?_, ?_, ?_⟩
  · have hsteps : (steps someEnv 0 (start (str "f.nc")) codeFunction.lines).map (fun s => s.out.map Emitted.item) =
        some (.preface (str "f.nc") :: codeFunction.items someEnv) := by decide +kernel
    exact Option.map_eq_some_iff.mp hsteps
  · intro g hg m
    obtain rfl : g = [str "\treturn_code = 3;\n"] := by simpa [codeFunction, Block.leaves] using hg
    rw [hleaf]
    intro h
    cases h
  · have hdecl : demoLang.prim (.items []) ⟨⟨(), []⟩, 0⟩ = (.normal, ⟨⟨(), [.did (.act [])]⟩, 0⟩) := by decide +kernel
    refine ⟨⟨(), [.did (.ret (str "_code = 3")), .did (.act [])]⟩, 3, ?_⟩
    rw [hprog]
    refine .code (runs_single.mpr rfl) (.code (runs_single.mpr hdecl) (.code (runs_single.mpr rfl) ?_))
    refine .goto (l := .final) (runs_single.mpr rfl) ?_
    exact .code (runs_single.mpr rfl) (.ret (runs_single.mpr rfl))
  · rintro ⟨m, h⟩
    cases h with
    | returned hb =>
      have hout := congrArg Prod.fst (runs_single.mp hb)
      rw [hleaf] at hout
      cases hout

/-! ## Checked calls -/

/-- The function goes through its `catch` block, its `finally` block and the destructors, and returns -1. -/
def Function.Handled (L : Lang σ) (env : Env) (f : Function) (m : Mem σ) (v : Int) (m' : Mem σ) : Prop :=
  v = -1 ∧ ∃ m₁ m₂, Runs (L.source env.isSym) (Function.block f.handler) m .normal m₁ ∧
    Runs (L.source env.isSym) (Function.block f.cleanup) m₁ .normal m₂ ∧
    m' = (L.destroyAll (f.preamble env).autos m₂).2

theorem stmt_trace (isSym : Text → Bool) (st : Stmt) (m : Mem σ) :
    (L.stmt isSym st m).2.trace = .did st :: m.trace := by
  have hchecked : ∀ (st : Stmt) (r : Int × σ), (L.checked st r m).2.trace = .did st :: m.trace := by
    intro st r
    rw [Lang.checked]
    split_ifs <;> rfl
  cases st with
  | call name args =>
    rw [Lang.stmt]
    split_ifs
    · exact hchecked _ _
    · rfl
  | method t => exact hchecked _ _
  | require c =>
    rw [Lang.stmt]
    split_ifs <;> rfl
  | _ => rfl

/-- Every statement and every test leaves an event. -/
theorem source_grows (isSym : Text → Bool) : Grows (L.source isSym) (fun m => m.trace.length) where
  leaf g m := by
    change m.trace.length < (L.stmt isSym (L.read (textOf g)) m).2.trace.length
    rw [stmt_trace]
    exact Nat.lt_succ_self _
  test f m := Nat.lt_succ_self _
  round first f m := by cases first <;> exact Nat.lt_succ_self _

theorem destroyAll_grows (as : List Auto) (m : Mem σ) :
    m.trace.length ≤ (L.destroyAll as m).2.trace.length ∧
      (as ≠ [] → m.trace.length < (L.destroyAll as m).2.trace.length) := by
  induction as generalizing m with
  | nil => simp [Lang.destroyAll]
  | cons a as ih =>
    suffices h : m.trace.length < (L.destroyAll (a :: as) m).2.trace.length from ⟨Nat.le_of_lt h, fun _ => h⟩
    rw [Lang.destroyAll]
    split_ifs
    · exact Nat.lt_of_lt_of_le (Nat.lt_succ_self _) (ih (m.log (.destroyed a) (L.destroy a m.val).2)).1
    · exact Nat.lt_succ_self _

/-- Going through blocks and destructors leaves no event only when there are none. -/
theorem handled_self_iff {m : Mem σ} : f.Handled L env m (-1) m ↔
    Function.block f.handler = .nil ∧ Function.block f.cleanup = .nil ∧ (f.preamble env).autos = [] := by
  constructor
  · rintro ⟨-, m₁, m₂, ⟨n₁, h₁⟩, ⟨n₂, h₂⟩, hm⟩
    obtain ⟨hle₁, hlt₁⟩ := run_grows (source_grows env.isSym) h₁
    obtain ⟨hle₂, hlt₂⟩ := run_grows (source_grows env.isSym) h₂
    obtain ⟨hle₃, hlt₃⟩ := destroyAll_grows (L := L) (f.preamble env).autos m₂
    have hsize : m.trace.length = (L.destroyAll (f.preamble env).autos m₂).2.trace.length := by rw [← hm]
    simp only at hle₁ hlt₁ hle₂ hlt₂
    refine ⟨?_, ?_, ?_⟩
    · by_contra hne
      have := hlt₁ hne
      omega
    · by_contra hne
      have := hlt₂ hne
      omega
    · by_contra hne
      have := hlt₃ hne
      omega
  · rintro ⟨hh, hc, ha⟩
    refine ⟨rfl, m, m, ?_, ?_, ?_⟩
    · rw [hh, runs_nil]
      exact ⟨rfl, rfl⟩
    · rw [hc, runs_nil]
      exact ⟨rfl, rfl⟩
    · rw [ha]
      rfl

/-- When a checked call fails or `throw`, `throwf` or `require` leaves the body, the function returns at once. -/
theorem returns_failed_iff {u : Nat} (hf : f.Fits env L.read u) (hs : f.Safe L env) {m m₁ m' : Mem σ} {v : Int}
    (hm : (f.prologue L env m).1 = true)
    (hb : Runs (L.source env.isSym) f.body (f.prologue L env m).2 (.exit .failed) m₁) :
    f.Returns L env m v m' ↔ v = -1 ∧ m' = m₁ := by
  rw [returns_iff hf hs hm]
  constructor
  · rintro (h | ⟨rfl, h⟩)
    · cases h with
      | fell h => cases (hb.unique h).1
      | returned h => cases (hb.unique h).1
      | thrown h => cases (hb.unique h).1
    · exact ⟨rfl, (hb.unique h).2.symm⟩
  · rintro ⟨rfl, rfl⟩
    exact .inr ⟨rfl, hb⟩

/-- The parser writes a function, and a call of it in which a checked call fails, or `throw`, `throwf` or
`require` leaves the body, goes through the blocks and destructors just when there are none. -/
theorem failure_handled_iff (hf : f.Fits env L.read s.uniq) (hline : s.line = []) (hs : f.Safe L env)
    {m m₁ : Mem σ} (hm : (f.prologue L env m).1 = true)
    (hb : Runs (L.source env.isSym) f.body (f.prologue L env m).2 (.exit .failed) m₁) (i : Nat) :
    ∃ s', steps env i s f.lines = some s' ∧ s'.out.map Emitted.item = s.out.map Emitted.item ++ f.items env ∧
      ((∃ v m', f.Returns L env m v m' ∧ f.Handled L env m₁ v m') ↔
        Function.block f.handler = .nil ∧ Function.block f.cleanup = .nil ∧ (f.preamble env).autos = []) := by
  obtain ⟨s', hsteps, hout⟩ := steps_function hf hline i
  refine ⟨s', hsteps, hout, ?_⟩
  simp only [returns_failed_iff hf hs hm hb, ← handled_self_iff (L := L) (m := m₁)]
  constructor
  · rintro ⟨v, m', ⟨rfl, rfl⟩, h⟩
    exact h
  · intro h
    exact ⟨-1, m₁, ⟨rfl, rfl⟩, h⟩

/-- A function with a checked call. -/
def workFunction (cleanup : Option (Line × Code)) : Function where
  opening := str "\x7b\n"
  decls := []
  blankLine := str "\n"
  body := .leaf [str "\twork();\n"] .nil
  handler := none
  cleanup := cleanup
  closing := str "\x7d\n"

/-- A `finally` block with one statement. -/
def someCleanup : Option (Line × Code) := some (str "finally:\n", .leaf [str "\tz = 0;\n"] .nil)

theorem workFunction_fits {cleanup : Option (Line × Code)} (hc : cleanup = none ∨ cleanup = someCleanup) :
    (workFunction cleanup).Fits someEnv demoLang.read 0 := by
  have hcopy : copy someEnv [] [str "\twork();\n"] = ([.checked (str "\t") (str "work") [] []], []) := by
    decide +kernel
  have hother : ∀ l ∈ [str "\twork();\n"], (ruleOf false l).isOther = true := by decide +kernel
  have hread : demoLang.read (textOf [str "\twork();\n"]) = .call (str "work") [] := by decide +kernel
  have hcopied : Copied someEnv false [str "\tz = 0;\n"] := by decide +kernel
  have hact : (demoLang.read (textOf [str "\tz = 0;\n"])).asIs someEnv.isSym = true := by decide +kernel
  have hlabel : test finallyRx (str "finally:\n") = true := by decide +kernel
  have hopen : opens (str "\x7b\n") = true := by decide +kernel
  have hdecls : Copied someEnv true [] := by decide +kernel
  have hdeclared : demoLang.read (textOf []) = .act [] := by decide +kernel
  have hblank : blank (str "\n") = true := by decide +kernel
  have hclose : closes (str "\x7d\n") = true := by decide +kernel
  exact {
    opening := hopen
    decls := hdecls
    declared := ⟨[], hdeclared⟩
    blankLine := hblank
    body := ⟨.checked hother hcopy (by decide +kernel) hread, trivial⟩
    catchLabel := by simp [workFunction]
    handler := trivial
    finallyLabel := by
      rcases hc with rfl | rfl
      · simp [workFunction]
      · simpa [workFunction, someCleanup] using hlabel
    cleanup := by
      rcases hc with rfl | rfl
      · trivial
      · exact ⟨.copied hcopied hact, trivial⟩
    closing := hclose }

theorem workFunction_safe {cleanup : Option (Line × Code)} (hc : cleanup = none ∨ cleanup = someCleanup) :
    (workFunction cleanup).Safe demoLang someEnv where
  handler := by simp [Calm, workFunction, Function.block, Block.leaves]
  cleanup := by
    rcases hc with rfl | rfl
    · simp [Calm, workFunction, Function.block, Block.leaves]
    · intro g hg m e
      obtain rfl : g = [str "\tz = 0;\n"] := by
        simpa [workFunction, someCleanup, Function.block, Block.leaves] using hg
      apply act_no_exit (str "\tz = 0;")
      decide +kernel
  destroy _ _ := rfl

/-- The call fails. -/
theorem workFunction_fails (cleanup : Option (Line × Code)) (m : Mem Unit) :
    Runs (demoLang.source someEnv.isSym) (workFunction cleanup).body m (.exit .failed)
      (m.log (.did (.call (str "work") [])) ()) := by
  have hread : demoLang.read (textOf [str "\twork();\n"]) = .call (str "work") [] := by decide +kernel
  have hsym : someEnv.isSym (str "work") = true := by decide +kernel
  apply runs_single.mpr
  change demoLang.stmt someEnv.isSym (demoLang.read (textOf [str "\twork();\n"])) m = _
  rw [hread, Lang.stmt, hsym]
  rfl

/-- Without blocks and locals there is nothing to go through. -/
theorem failure_handled_iff_workFunction :
    ∃ s', steps someEnv 0 (start (str "f.nc")) (workFunction none).lines = some s' ∧
      s'.out.map Emitted.item = .preface (str "f.nc") :: (workFunction none).items someEnv ∧
      ∃ m v m', (workFunction none).Returns demoLang someEnv ⟨(), []⟩ v m' ∧
        (workFunction none).Handled demoLang someEnv m v m' := by
  have hautos : ((workFunction none).preamble someEnv).autos = [] := by decide +kernel
  obtain ⟨s', hsteps, hout, hiff⟩ := failure_handled_iff (s := start (str "f.nc")) (workFunction_fits (.inl rfl)) rfl
    (workFunction_safe (.inl rfl)) (createAll_fst (fun _ _ => rfl) _ _)
    (workFunction_fails none ((workFunction none).prologue demoLang someEnv ⟨(), []⟩).2) 0
  obtain ⟨v, m', h⟩ := hiff.mpr ⟨rfl, rfl, hautos⟩
  exact ⟨s', hsteps, hout, _, v, m', h⟩

/-- The failing call passes by the `finally` block. -/
theorem failed_call_skips_finally :
    (workFunction someCleanup).Fits someEnv demoLang.read 0 ∧ (workFunction someCleanup).Safe demoLang someEnv ∧
      ∃ m m₁, Runs (demoLang.source someEnv.isSym) (workFunction someCleanup).body
          ((workFunction someCleanup).prologue demoLang someEnv m).2 (.exit .failed) m₁ ∧
        (workFunction someCleanup).Returns demoLang someEnv m (-1) m₁ ∧
        ¬ ∃ v m', (workFunction someCleanup).Returns demoLang someEnv m v m' ∧
          (workFunction someCleanup).Handled demoLang someEnv m₁ v m' := by
  have hf := workFunction_fits (.inr rfl : someCleanup = none ∨ _)
  have hs := workFunction_safe (.inr rfl : someCleanup = none ∨ _)
  have hm : ((workFunction someCleanup).prologue demoLang someEnv ⟨(), []⟩).1 = true :=
    createAll_fst (fun _ _ => rfl) _ _
  have hb := workFunction_fails someCleanup ((workFunction someCleanup).prologue demoLang someEnv ⟨(), []⟩).2
  refine ⟨hf, hs, ⟨(), []⟩, _, hb, (returns_failed_iff hf hs hm hb).mpr ⟨rfl, rfl⟩, ?_⟩
  rintro ⟨v, m', hreturns, hhandled⟩
  obtain ⟨rfl, rfl⟩ := (returns_failed_iff hf hs hm hb).mp hreturns
  have hnil := (handled_self_iff.mp hhandled).2.1
  cases hnil

end

end Ncc
