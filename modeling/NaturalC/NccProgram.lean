import NaturalC.NccFile

/-!
# Functions that call each other

The functions of a file call one another, down to any depth. What a call does in the output is
compared with the source twice: with the exceptions as the macros have made them, for every file,
and with exceptions as they are meant, for the files where no function with something to clean up
can be left by the macros.
-/
namespace Ncc

open Regex Flow

variable {σ : Type}

/-! ## Calls between functions -/

/-- How C passes arguments and takes a function's variables away again, and what there is to see when a call
goes too deep. -/
structure Calling (σ : Type) where
  enter : Text → Text → σ → σ
  leave : Text → σ → Mem σ → σ
  tooDeep : σ → Int × σ

/-- What a function of the file does in a given language. -/
abbrev Meaning (σ : Type) := Lang σ → Function → Mem σ → Int → Mem σ → Prop

open Classical in
/-- A call of a function by such a meaning. -/
noncomputable def callBy (cc : Calling σ) (R : Mem σ → Int → Mem σ → Prop) (name args : Text) (x : σ) : Int × σ :=
  if h : ∃ r : Int × Mem σ, R ⟨cc.enter name args x, []⟩ r.1 r.2 then
    ((Classical.choose h).1, cc.leave name x (Classical.choose h).2)
  else cc.tooDeep x

/-- C with calls of the functions of a file, to some depth. Other calls are those of `L`. -/
noncomputable def linked (L : Lang σ) (cc : Calling σ) (F : Text → Option Function) (R : Meaning σ) : Nat → Lang σ
  | 0 => { L with call := fun name args x => match F name with
      | none => L.call name args x
      | some _ => cc.tooDeep x }
  | n + 1 => { L with call := fun name args x => match F name with
      | none => L.call name args x
      | some f => callBy cc (R (linked L cc F R n) f) name args x }

/-- Two meanings that agree in the linked language give the same language at the next depth, and so at all. -/
theorem linked_congr (L : Lang σ) (cc : Calling σ) {F : Text → Option Function} {R R' : Meaning σ}
    (h : ∀ n name f, F name = some f → ∀ m v m',
      R (linked L cc F R n) f m v m' ↔ R' (linked L cc F R n) f m v m') (n : Nat) :
    linked L cc F R n = linked L cc F R' n := by
  induction n with
  | zero => rfl
  | succ n ih =>
    rw [linked, linked, ← ih]
    congr 1
    funext name args x
    cases hf : F name with
    | none => rfl
    | some f =>
      have hR : R (linked L cc F R n) f = R' (linked L cc F R n) f := by
        funext m v m'
        exact propext (h n name f hf m v m')
      simp only [hR]

section

variable {L : Lang σ} {cc : Calling σ} {F : Text → Option Function} {R : Meaning σ} {n : Nat}

@[simp] theorem linked_read : (linked L cc F R n).read = L.read := by cases n <;> rfl
@[simp] theorem linked_create : (linked L cc F R n).create = L.create := by cases n <;> rfl
@[simp] theorem linked_destroy : (linked L cc F R n).destroy = L.destroy := by cases n <;> rfl

end

/-! ## What a function does -/

/-- A statement that cannot leave a block, whatever the calls do. -/
def Stmt.stays (isSym : Text → Bool) : Stmt → Bool
  | .act _ => true
  | .brk => true
  | .cont => true
  | .call name _ => !isSym name
  | _ => false

/-- A statement that the macros cannot make leave the function. -/
def Stmt.unchecked (isSym : Text → Bool) : Stmt → Bool
  | .call name _ => !isSym name
  | .method _ => false
  | .throw _ => false
  | .require _ => false
  | _ => true

theorem leaf_of_stays {L : Lang σ} {env : Env} {g : List Line} (h : (L.read (textOf g)).stays env.isSym = true)
    (s : Mem σ) (e : Exit) : ((L.source env.isSym).leaf g s).1 ≠ .exit e := by
  change (L.stmt env.isSym (L.read (textOf g)) s).1 ≠ .exit e
  cases hr : L.read (textOf g) with
  | call name args =>
    rw [hr] at h
    have hsym : env.isSym name = false := by simpa [Stmt.stays] using h
    rw [Lang.stmt, hsym, if_neg Bool.false_ne_true]
    simp
  | act t => simp [Lang.stmt]
  | brk => simp [Lang.stmt]
  | cont => simp [Lang.stmt]
  | ret t => rw [hr] at h; cases h
  | method t => rw [hr] at h; cases h
  | throwSilent => rw [hr] at h; cases h
  | throwErrno t => rw [hr] at h; cases h
  | throw t => rw [hr] at h; cases h
  | require t => rw [hr] at h; cases h

theorem leaf_of_unchecked {L : Lang σ} {env : Env} {g : List Line}
    (h : (L.read (textOf g)).unchecked env.isSym = true) (s : Mem σ) :
    ((L.source env.isSym).leaf g s).1 ≠ .exit .failed := by
  change (L.stmt env.isSym (L.read (textOf g)) s).1 ≠ .exit .failed
  cases hr : L.read (textOf g) with
  | call name args =>
    rw [hr] at h
    have hsym : env.isSym name = false := by simpa [Stmt.unchecked] using h
    rw [Lang.stmt, hsym, if_neg Bool.false_ne_true]
    simp
  | act t => simp [Lang.stmt]
  | brk => simp [Lang.stmt]
  | cont => simp [Lang.stmt]
  | ret t => simp [Lang.stmt]
  | throwSilent => simp [Lang.stmt]
  | throwErrno t => simp [Lang.stmt]
  | method t => rw [hr] at h; cases h
  | throw t => rw [hr] at h; cases h
  | require t => rw [hr] at h; cases h

namespace Function

/-- The blocks behind the labels have statements only that cannot leave them. -/
structure Tidy (read : Text → Stmt) (env : Env) (f : Function) : Prop where
  handler : ∀ g ∈ (block f.handler).leaves, (read (textOf g)).stays env.isSym = true
  cleanup : ∀ g ∈ (block f.cleanup).leaves, (read (textOf g)).stays env.isSym = true

/-- There is nothing to run on the way out. -/
def Bare (env : Env) (f : Function) : Prop :=
  block f.handler = .nil ∧ block f.cleanup = .nil ∧ (f.preamble env).autos = []

/-- No statement of the body is checked, and none throws by a macro that returns. -/
def Unchecked (read : Text → Stmt) (env : Env) (f : Function) : Prop :=
  ∀ g ∈ f.body.leaves, (read (textOf g)).unchecked env.isSym = true

/-- Exceptions as the macros have made them: `throw_silent` and `throw_errno` go through the blocks behind the
labels, and everything else that fails returns at once. -/
def Behaves (L : Lang σ) (env : Env) (f : Function) (m : Mem σ) (v : Int) (m' : Mem σ) : Prop :=
  f.Structured L env m v m' ∨ v = -1 ∧ Runs (L.source env.isSym) f.body (f.prologue L env m).2 (.exit .failed) m'

/-- Exceptions as they are meant: whatever fails goes through the `catch` block, the `finally` block and the
destructors, and the value is -1. -/
inductive Intended (L : Lang σ) (env : Env) (f : Function) (m : Mem σ) : Int → Mem σ → Prop
  | structured {v : Int} {m' : Mem σ} (h : f.Structured L env m v m') : Intended L env f m v m'
  | failed {m₁ m₂ m₃ : Mem σ} (hb : Runs (L.source env.isSym) f.body (f.prologue L env m).2 (.exit .failed) m₁)
    (hc : Runs (L.source env.isSym) (block f.handler) m₁ .normal m₂)
    (hf : Runs (L.source env.isSym) (block f.cleanup) m₂ .normal m₃) :
    Intended L env f m (-1) (L.destroyAll (f.preamble env).autos m₃).2

theorem Tidy.safe {L : Lang σ} {env : Env} {f : Function} (ht : f.Tidy L.read env)
    (hd : ∀ a x, (L.destroy a x).1 = 0) : f.Safe L env where
  handler g hg s e := leaf_of_stays (ht.handler g hg) s e
  cleanup g hg s e := leaf_of_stays (ht.cleanup g hg) s e
  destroy := hd

theorem Unchecked.plain {L : Lang σ} {env : Env} {f : Function} (hu : f.Unchecked L.read env) : f.Plain L env :=
  fun g hg s => leaf_of_unchecked (hu g hg) s

/-- Where there is nothing to clean up, or nothing that fails, the macros do as they are meant to. -/
theorem behaves_iff_intended {L : Lang σ} {env : Env} {f : Function} (h : f.Bare env ∨ f.Unchecked L.read env)
    {m m' : Mem σ} {v : Int} : f.Behaves L env m v m' ↔ f.Intended L env m v m' := by
  constructor
  · rintro (hs | ⟨rfl, hb⟩)
    · exact .structured hs
    · rcases h with ⟨hh, hc, ha⟩ | hu
      · have hrunc : Runs (L.source env.isSym) (block f.handler) m' .normal m' := by
          rw [hh, runs_nil]
          exact ⟨rfl, rfl⟩
        have hrunf : Runs (L.source env.isSym) (block f.cleanup) m' .normal m' := by
          rw [hc, runs_nil]
          exact ⟨rfl, rfl⟩
        have hend := Intended.failed hb hrunc hrunf
        rw [ha] at hend
        exact hend
      · exact absurd hb (not_failed hu.plain)
  · intro hi
    cases hi with
    | structured hs => exact .inl hs
    | failed hb hrunc hrunf =>
      rcases h with ⟨hh, hc, ha⟩ | hu
      · rw [hh, runs_nil] at hrunc
        rw [hc, runs_nil] at hrunf
        obtain ⟨-, rfl⟩ := hrunc
        obtain ⟨-, rfl⟩ := hrunf
        rw [ha]
        exact .inr ⟨rfl, hb⟩
      · exact absurd hb (not_failed hu.plain)

end Function

/-! ## Files of functions -/

theorem fits_of_mem {env : Env} {read : Text → Stmt} {u : Nat} {ps : List Piece} (h : FileFits env read u ps)
    {f : Function} (hf : .function f ∈ ps) : ∃ v, f.Fits env read v := by
  induction ps generalizing u with
  | nil => cases hf
  | cons p ps ih =>
    cases p with
    | gap ls =>
      rcases List.mem_cons.mp hf with hf | hf
      · cases hf
      · exact ih h.2 hf
    | function g =>
      rcases List.mem_cons.mp hf with hf | hf
      · obtain rfl := Piece.function.inj hf
        exact ⟨u, h.1⟩
      · exact ih h.2 hf

section

variable {L : Lang σ} {env : Env} {ps : List Piece} {F : Text → Option Function}

/-- A function of the output in a linked language. -/
theorem returns_linked_iff (hps : FileFits env L.read 0 ps) (htidy : ∀ f, .function f ∈ ps → f.Tidy L.read env)
    (hc : ∀ a x, (L.create a x).1 = 0) (hd : ∀ a x, (L.destroy a x).1 = 0) (cc : Calling σ) (R : Meaning σ) (n : Nat)
    {f : Function} (hf : .function f ∈ ps) {m m' : Mem σ} {v : Int} :
    f.Returns (linked L cc F R n) env m v m' ↔ f.Behaves (linked L cc F R n) env m v m' := by
  obtain ⟨u, hfits⟩ := fits_of_mem hps hf
  have hfits' : f.Fits env (linked L cc F R n).read u := by
    rw [linked_read]
    exact hfits
  have htidy' : f.Tidy (linked L cc F R n).read env := by
    rw [linked_read]
    exact htidy f hf
  exact returns_iff hfits' (htidy'.safe (by rw [linked_destroy]; exact hd))
    (createAll_fst (by rw [linked_create]; exact hc) _ _)

/-- The parser writes a whole file, and a call of any of its functions in the output does what the source says with
the exceptions as the macros have made them, with calls of the functions among each other to any depth. -/
theorem file_simulates (hps : FileFits env L.read 0 ps) (hF : ∀ name f, F name = some f → .function f ∈ ps)
    (htidy : ∀ f, .function f ∈ ps → f.Tidy L.read env) (hc : ∀ a x, (L.create a x).1 = 0)
    (hd : ∀ a x, (L.destroy a x).1 = 0) (cc : Calling σ) (fn : Text) :
    (∃ s, parse env fn (fileLines ps) = some s ∧ s.out.map Emitted.item = .preface fn :: fileItems env ps) ∧
      ∀ n f, .function f ∈ ps → ∀ m v m',
        f.Returns (linked L cc F (fun L f => f.Returns L env) n) env m v m' ↔
          f.Behaves (linked L cc F (fun L f => f.Behaves L env) n) env m v m' := by
  refine ⟨parse_pieces hps fn, ?_⟩
  intro n f hf m v m'
  have hsame : linked L cc F (fun L f => f.Returns L env) n = linked L cc F (fun L f => f.Behaves L env) n := by
    apply linked_congr
    intro n name g hg m v m'
    exact returns_linked_iff hps htidy hc hd cc _ n (hF name g hg)
  rw [← hsame]
  exact returns_linked_iff hps htidy hc hd cc _ n hf

/-- In a file where every function has nothing to clean up or nothing that the macros can make fail, exceptions are
what they are meant to be, from function to function and down to any depth. -/
theorem file_exceptions (hps : FileFits env L.read 0 ps) (hF : ∀ name f, F name = some f → .function f ∈ ps)
    (htidy : ∀ f, .function f ∈ ps → f.Tidy L.read env)
    (hclean : ∀ f, .function f ∈ ps → f.Bare env ∨ f.Unchecked L.read env) (hc : ∀ a x, (L.create a x).1 = 0)
    (hd : ∀ a x, (L.destroy a x).1 = 0) (cc : Calling σ) (fn : Text) :
    (∃ s, parse env fn (fileLines ps) = some s ∧ s.out.map Emitted.item = .preface fn :: fileItems env ps) ∧
      ∀ n f, .function f ∈ ps → ∀ m v m',
        f.Returns (linked L cc F (fun L f => f.Returns L env) n) env m v m' ↔
          f.Intended (linked L cc F (fun L f => f.Intended L env) n) env m v m' := by
  have hone : ∀ (R : Meaning σ) (n : Nat) (f : Function), .function f ∈ ps → ∀ m v m',
      f.Returns (linked L cc F R n) env m v m' ↔ f.Intended (linked L cc F R n) env m v m' := by
    intro R n f hf m v m'
    rw [returns_linked_iff hps htidy hc hd cc R n hf]
    apply Function.behaves_iff_intended
    rw [linked_read]
    exact hclean f hf
  refine ⟨parse_pieces hps fn, ?_⟩
  intro n f hf m v m'
  have hsame : linked L cc F (fun L f => f.Returns L env) n = linked L cc F (fun L f => f.Intended L env) n := by
    apply linked_congr
    intro n name g hg m v m'
    exact hone _ n g (hF name g hg) m v m'
  rw [← hsame]
  exact hone _ n f hf m v m'

end

/-! ## A file with two functions -/

/-- Lines of other kinds around two functions, of which the second calls the first. -/
def workFile : List Piece :=
  [.gap [str "int work()\n"], .function throwFunction, .gap [str "int\n", str "twice()\n"],
    .function (workFunction none)]

def workTable (name : Text) : Option Function := if name = str "work" then some throwFunction else none

/-- No arguments and no results in memory. -/
def plainCalling : Calling Unit := ⟨fun _ _ x => x, fun _ x _ => x, fun x => (-1, x)⟩

theorem workFile_fits : FileFits someEnv demoLang.read 0 workFile := by
  have hfirst : Copied someEnv false [str "int work()\n"] := by decide +kernel
  have hsecond : Copied someEnv false [str "int\n", str "twice()\n"] := by decide +kernel
  have hcursors : throwFunction.cursors = 0 := rfl
  refine ⟨hfirst, throwFunction_fits, hsecond, ?_, trivial⟩
  rw [hcursors]
  exact workFunction_fits (Or.inl rfl)

theorem of_mem_workFile {f : Function} (hf : .function f ∈ workFile) : f = throwFunction ∨ f = workFunction none := by
  simpa [workFile] using hf

theorem workFile_tidy (f : Function) (hf : .function f ∈ workFile) : f.Tidy demoLang.read someEnv := by
  rcases of_mem_workFile hf with rfl | rfl
  · exact ⟨by decide +kernel, by decide +kernel⟩
  · exact ⟨by decide +kernel, by decide +kernel⟩

/-- The first function throws by `throw_silent` only, and the second one has nothing to clean up. -/
theorem workFile_clean (f : Function) (hf : .function f ∈ workFile) :
    f.Bare someEnv ∨ f.Unchecked demoLang.read someEnv := by
  rcases of_mem_workFile hf with rfl | rfl
  · right
    intro g hg
    exact (by decide +kernel : ∀ g ∈ throwFunction.body.leaves,
      (demoLang.read (textOf g)).unchecked someEnv.isSym = true) g hg
  · exact Or.inl ⟨rfl, rfl, by decide +kernel⟩

theorem workTable_mem (name : Text) (f : Function) (hf : workTable name = some f) : .function f ∈ workFile := by
  rw [workTable] at hf
  split_ifs at hf
  obtain rfl := Option.some.inj hf
  simp [workFile]

theorem file_simulates_workFile :
    (∃ s, parse someEnv (str "f.nc") (fileLines workFile) = some s ∧
        s.out.map Emitted.item = .preface (str "f.nc") :: fileItems someEnv workFile) ∧
      ∀ n f, .function f ∈ workFile → ∀ m v m',
        f.Returns (linked demoLang plainCalling workTable (fun L f => f.Returns L someEnv) n) someEnv m v m' ↔
          f.Behaves (linked demoLang plainCalling workTable (fun L f => f.Behaves L someEnv) n) someEnv m v m' :=
  file_simulates workFile_fits workTable_mem workFile_tidy (fun _ _ => rfl) (fun _ _ => rfl) plainCalling (str "f.nc")

theorem file_exceptions_workFile :
    (∃ s, parse someEnv (str "f.nc") (fileLines workFile) = some s ∧
        s.out.map Emitted.item = .preface (str "f.nc") :: fileItems someEnv workFile) ∧
      ∀ n f, .function f ∈ workFile → ∀ m v m',
        f.Returns (linked demoLang plainCalling workTable (fun L f => f.Returns L someEnv) n) someEnv m v m' ↔
          f.Intended (linked demoLang plainCalling workTable (fun L f => f.Intended L someEnv) n) someEnv m v m' :=
  file_exceptions workFile_fits workTable_mem workFile_tidy workFile_clean (fun _ _ => rfl) (fun _ _ => rfl)
    plainCalling (str "f.nc")

/-! ## Constructors and destructors in a run -/

/-- The locals that are created in a list of events, the last event first. -/
def createdIn (es : List Event) : List Auto :=
  (es.filterMap fun e => match e with | .created a => some a | _ => none).reverse

def destroyedIn (es : List Event) : List Auto :=
  (es.filterMap fun e => match e with | .destroyed a => some a | _ => none).reverse

theorem createdIn_append (a b : List Event) : createdIn (a ++ b) = createdIn b ++ createdIn a := by
  simp [createdIn]

theorem destroyedIn_append (a b : List Event) : destroyedIn (a ++ b) = destroyedIn b ++ destroyedIn a := by
  simp [destroyedIn]

/-- What happened from one memory to another, by the locals it created and destroyed. -/
def Happened (created destroyed : List Auto) (m m' : Mem σ) : Prop :=
  ∃ es, m'.trace = es ++ m.trace ∧ createdIn es = created ∧ destroyedIn es = destroyed

theorem Happened.trans {a a' b b' : List Auto} {m₁ m₂ m₃ : Mem σ} (h : Happened a b m₁ m₂) (h' : Happened a' b' m₂ m₃) :
    Happened (a ++ a') (b ++ b') m₁ m₃ := by
  obtain ⟨es, he, rfl, rfl⟩ := h
  obtain ⟨es', he', rfl, rfl⟩ := h'
  exact ⟨es' ++ es, by rw [he', he, List.append_assoc], createdIn_append es' es, destroyedIn_append es' es⟩

section

variable {L : Lang σ} {env : Env} {f : Function} {m m' : Mem σ}

theorem happened_stmt (isSym : Text → Bool) (st : Stmt) (m : Mem σ) : Happened [] [] m (L.stmt isSym st m).2 :=
  ⟨[.did st], stmt_trace isSym st m, rfl, rfl⟩

/-- The statements and tests of a block create and destroy nothing. -/
theorem relates_source (isSym : Text → Bool) : Relates (L.source isSym) (Happened [] []) where
  refl m := ⟨[], rfl, rfl, rfl⟩
  trans h h' := h.trans h'
  leaf g m := happened_stmt isSym _ m
  test f m := ⟨[.tested f.opening.text], rfl, rfl, rfl⟩
  round first f m := by cases first <;> exact ⟨[.tested f.opening.text], rfl, rfl, rfl⟩

theorem happened_createAll (hc : ∀ a x, (L.create a x).1 = 0) (as : List Auto) (m : Mem σ) :
    Happened as [] m (L.createAll as m).2 := by
  induction as generalizing m with
  | nil => exact ⟨[], rfl, rfl, rfl⟩
  | cons a as ih =>
    rw [Lang.createAll, if_pos (hc a m.val)]
    exact Happened.trans (a := [a]) ⟨[.created a], rfl, rfl, rfl⟩ (ih (m.log (.created a) (L.create a m.val).2))

theorem happened_destroyAll (hd : ∀ a x, (L.destroy a x).1 = 0) (as : List Auto) (m : Mem σ) :
    Happened [] as m (L.destroyAll as m).2 := by
  induction as generalizing m with
  | nil => exact ⟨[], rfl, rfl, rfl⟩
  | cons a as ih =>
    rw [Lang.destroyAll, if_pos (hd a m.val)]
    exact Happened.trans (b := [a]) ⟨[.destroyed a], rfl, rfl, rfl⟩ (ih (m.log (.destroyed a) (L.destroy a m.val).2))

theorem happened_prologue (hc : ∀ a x, (L.create a x).1 = 0) (m : Mem σ) :
    Happened (f.preamble env).autos [] m (f.prologue L env m).2 :=
  (happened_stmt env.isSym _ m).trans (happened_createAll hc (f.preamble env).autos _)

/-- Every way through the blocks destroys the locals, each of them once. -/
theorem happened_structured {v : Int} (hc : ∀ a x, (L.create a x).1 = 0) (hd : ∀ a x, (L.destroy a x).1 = 0)
    (h : f.Structured L env m v m') : Happened (f.preamble env).autos (f.preamble env).autos m m' := by
  have hrel := relates_source (L := L) env.isSym
  have hprologue : Happened (f.preamble env).autos [] m (f.prologue L env m).2 := happened_prologue hc m
  have hend : ∀ m₁ m₂ : Mem σ, Happened [] [] m₁ m₂ →
      Happened [] (f.preamble env).autos m₁ (L.destroyAll (f.preamble env).autos m₂).2 :=
    fun _ m₂ hm => hm.trans (happened_destroyAll hd _ m₂)
  have hall : ∀ m₂ : Mem σ, Happened [] [] (f.prologue L env m).2 m₂ → Happened (f.preamble env).autos
      (f.preamble env).autos m (L.destroyAll (f.preamble env).autos m₂).2 := by
    intro m₂ hm
    have hboth := hprologue.trans (hend _ m₂ hm)
    rw [List.append_nil, List.nil_append] at hboth
    exact hboth
  cases h with
  | fell hb hf => exact hall _ ((hb.relates hrel).trans (hf.relates hrel))
  | returned hb hf => exact hall _ ((hb.relates hrel).trans (hf.relates hrel))
  | thrown hb hh hf => exact hall _ (((hb.relates hrel).trans (hh.relates hrel)).trans (hf.relates hrel))

/-- In every call of a function of the output its locals are created once each, in order. They are destroyed once
each, in order, unless the body is left by a macro, and then none of them is. -/
theorem locals_destroyed {u : Nat} (hf : f.Fits env L.read u) (ht : f.Tidy L.read env)
    (hc : ∀ a x, (L.create a x).1 = 0) (hd : ∀ a x, (L.destroy a x).1 = 0) {v : Int} (h : f.Returns L env m v m') :
    Happened (f.preamble env).autos (f.preamble env).autos m m' ∧
        (¬ ∃ m₁, Runs (L.source env.isSym) f.body (f.prologue L env m).2 (.exit .failed) m₁) ∨
      Happened (f.preamble env).autos [] m m' ∧
        Runs (L.source env.isSym) f.body (f.prologue L env m).2 (.exit .failed) m' := by
  rcases (returns_iff hf (ht.safe hd) (createAll_fst hc _ _)).mp h with hs | ⟨-, hb⟩
  · refine .inl ⟨happened_structured hc hd hs, ?_⟩
    rintro ⟨m₁, hb⟩
    cases hs with
    | fell hb' => cases (hb.unique hb').1
    | returned hb' => cases (hb.unique hb').1
    | thrown hb' => cases (hb.unique hb').1
  · refine .inr ⟨?_, hb⟩
    have hboth := (happened_prologue hc m).trans (hb.relates (relates_source env.isSym))
    rw [List.append_nil] at hboth
    exact hboth

end

/-- The branch is taken, and the body is left by `throw_silent`. -/
theorem throwFunction_thrown (m : Mem Unit) :
    ∃ m', Runs (demoLang.source someEnv.isSym) throwFunction.body m (.exit .thrown) m' := by
  have hread : demoLang.read (textOf [str "\t\tthrow_silent();\n"]) = .throwSilent := by decide +kernel
  refine ⟨(m.log (.tested (textOf [str "\tif (x) \x7b\n"])) ()).log (.did .throwSilent) (), 3, ?_⟩
  change andThen (andThen (some (demoLang.stmt someEnv.isSym (demoLang.read (textOf [str "\t\tthrow_silent();\n"])) _))
    _) _ = _
  rw [hread]
  rfl

/-- A label block with one assignment runs through. -/
theorem assignment_runs {t : Text} (hread : demoLang.read (textOf [t]) = .act (chomp t)) (m : Mem Unit) :
    ∃ m', Runs (demoLang.source someEnv.isSym) (.leaf [t] .nil) m .normal m' := by
  refine ⟨m.log (.did (.act (chomp t))) (), runs_single.mpr ?_⟩
  change demoLang.stmt someEnv.isSym (demoLang.read (textOf [t])) m = _
  rw [hread]
  rfl

/-- The list of the function is created and destroyed. -/
theorem locals_destroyed_throwFunction :
    (throwFunction.preamble someEnv).autos = [⟨str "list", str "a"⟩] ∧
      ∃ m', throwFunction.Returns demoLang someEnv ⟨(), []⟩ (-1) m' ∧
        (Happened (throwFunction.preamble someEnv).autos (throwFunction.preamble someEnv).autos ⟨(), []⟩ m' ∧
            (¬ ∃ m₁, Runs (demoLang.source someEnv.isSym) throwFunction.body
              (throwFunction.prologue demoLang someEnv ⟨(), []⟩).2 (.exit .failed) m₁) ∨
          Happened (throwFunction.preamble someEnv).autos [] ⟨(), []⟩ m' ∧
            Runs (demoLang.source someEnv.isSym) throwFunction.body
              (throwFunction.prologue demoLang someEnv ⟨(), []⟩).2 (.exit .failed) m') := by
  have htidy := workFile_tidy throwFunction (by simp [workFile])
  obtain ⟨m₁, hb⟩ := throwFunction_thrown (throwFunction.prologue demoLang someEnv ⟨(), []⟩).2
  obtain ⟨m₂, hh⟩ := assignment_runs (t := str "\ty = 0;\n") (by decide +kernel) m₁
  obtain ⟨m₃, hf⟩ := assignment_runs (t := str "\tz = 0;\n") (by decide +kernel) m₂
  have hreturns := (returns_iff throwFunction_fits (htidy.safe fun _ _ => rfl) (createAll_fst (fun _ _ => rfl) _ _)).mpr
    (.inl (.thrown hb hh hf))
  exact ⟨by decide +kernel, _, hreturns,
    locals_destroyed throwFunction_fits htidy (fun _ _ => rfl) (fun _ _ => rfl) hreturns⟩

end Ncc
