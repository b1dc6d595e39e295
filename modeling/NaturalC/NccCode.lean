import NaturalC.Flow
import NaturalC.NccFunctions

/-!
# The meaning of a function

A Natural C function is read as blocks of statements, once as it stands in the source, where
an exception leads to the `catch` block and every way out through the `finally` block, and once
as the C code that the translator writes for it, where the labels are the targets of `goto`
and the macros of `nc_exception.h` are expanded. What C makes of the text of a statement, an
expression or the head of a loop is a parameter.
-/
namespace Ncc

open Regex Flow

/-! ## Statements -/

/-- What the text of a statement is. -/
inductive Stmt where
  /-- A statement that neither leaves the block nor is checked. -/
  | act (t : Text)
  | brk
  | cont
  | ret (e : Text)
  | call (name args : Text)
  /-- The call of a method, with the statement it stands for. -/
  | method (t : Text)
  | throwSilent
  | throwErrno (syscall : Text)
  /-- `throw` and `throwf`. -/
  | throw (args : Text)
  | require (c : Text)
  deriving DecidableEq, Repr

/-- What is done in a run, one entry for each statement, test, constructor and destructor. -/
inductive Event where
  | did (st : Stmt)
  | tested (t : Text)
  | created (a : Auto)
  | destroyed (a : Auto)
  deriving DecidableEq, Repr

/-- The memory and what has been done to it, the last event first. -/
structure Mem (σ : Type) where
  val : σ
  trace : List Event
  deriving DecidableEq, Repr

variable {σ : Type}

def Mem.log (s : Mem σ) (e : Event) (x : σ) : Mem σ := ⟨x, e :: s.trace⟩

/-- C with the headers. -/
structure Lang (σ : Type) where
  read : Text → Stmt
  act : Text → σ → σ
  value : Text → σ → Int × σ
  call : Text → Text → σ → Int × σ
  /-- A method call by its statement. -/
  invoke : Text → σ → Int × σ
  /-- `_throwf`, which prints a message and returns -1. -/
  report : Text → σ → σ
  /-- The locals are set to `NULL`. -/
  clear : List Auto → σ → σ
  create : Auto → σ → Int × σ
  destroy : Auto → σ → Int × σ
  /-- The condition of a branch, by the texts in front of it and behind it. -/
  test : Text → Text → σ → Bool × σ
  /-- A loop before its first round. -/
  enter : Text → Text → σ → Bool × σ
  /-- A loop between two rounds. -/
  next : Text → Text → σ → Bool × σ

/-! ## The source -/

/-- The ways out of the body. -/
inductive Exit where
  | returned (v : Int)
  /-- `throw_silent` and `throw_errno`. -/
  | thrown
  /-- A checked call that failed, `throw`, `throwf` and `require`. -/
  | failed
  deriving DecidableEq, Repr

/-- A call whose result has to be zero. -/
def Lang.checked (L : Lang σ) (st : Stmt) (r : Int × σ) (s : Mem σ) : Out Exit × Mem σ :=
  if r.1 = 0 then (.normal, s.log (.did st) r.2) else (.exit .failed, s.log (.did st) (L.report [] r.2))

/-- A statement of the source. The calls to check are those of functions in the symbol table. -/
def Lang.stmt (L : Lang σ) (isSym : Text → Bool) (st : Stmt) (s : Mem σ) : Out Exit × Mem σ :=
  match st with
  | .act t => (.normal, s.log (.did st) (L.act t s.val))
  | .brk => (.brk, s.log (.did st) s.val)
  | .cont => (.cont, s.log (.did st) s.val)
  | .ret e => (.exit (.returned (L.value e s.val).1), s.log (.did st) (L.value e s.val).2)
  | .call name args =>
    if isSym name then L.checked st (L.call name args s.val) s
    else (.normal, s.log (.did st) (L.call name args s.val).2)
  | .method t => L.checked st (L.invoke t s.val) s
  | .throwSilent => (.exit .thrown, s.log (.did st) s.val)
  | .throwErrno t => (.exit .thrown, s.log (.did st) (L.report t s.val))
  | .throw t => (.exit .failed, s.log (.did st) (L.report t s.val))
  | .require c =>
    if (L.value c s.val).1 = 0 then
      (.exit .failed, s.log (.did st) (L.report (str "invalid argument(s)") (L.value c s.val).2))
    else (.normal, s.log (.did st) (L.value c s.val).2)

/-- The lines in front of the first block of a branch or loop. -/
inductive Opening where
  | lines (ls : List Line)
  /-- A `foreach` loop with the number of its cursor. -/
  | foreach (l : Line) (cur : Nat)
  deriving DecidableEq, Repr

/-- The lines around the blocks of a branch or loop. -/
structure Frame where
  opening : Opening
  /-- Between the two blocks of a branch. -/
  mid : List Line
  tail : List Line
  deriving DecidableEq, Repr

abbrev Code := Block (List Line) Frame

/-- The loop that a `foreach` line stands for. -/
def foreachItem (l : Line) (cur : Nat) : Item :=
  match search foreachRx l with
  | some m => .foreach (m.group 1) (m.group 2) (m.group 3) cur
  | none => .verbatim (chomp l)

def Opening.text : Opening → Text
  | .lines ls => textOf ls
  | .foreach l cur => (foreachItem l cur).text

def Mem.tested (s : Mem σ) (t : Text) (r : Bool × σ) : Bool × Mem σ := (r.1, s.log (.tested t) r.2)

/-- The source as it is meant. -/
def Lang.source (L : Lang σ) (isSym : Text → Bool) : Sem (List Line) Frame (Mem σ) Exit where
  leaf g s := L.stmt isSym (L.read (textOf g)) s
  test f s := s.tested f.opening.text (L.test f.opening.text (textOf f.tail) s.val)
  enter f s := s.tested f.opening.text (L.enter f.opening.text (textOf f.tail) s.val)
  next f s := s.tested f.opening.text (L.next f.opening.text (textOf f.tail) s.val)

/-! ## The emitted code -/

/-- The variables of a function in the output. -/
structure Local (σ : Type) where
  mem : Mem σ
  /-- `__retval`. -/
  retval : Int
  deriving DecidableEq, Repr

inductive Label where
  | caught
  | final
  deriving DecidableEq, Repr

def Local.log (s : Local σ) (e : Event) (x : σ) : Local σ := { s with mem := s.mem.log e x }

/-- `try (call)`. -/
def Lang.cTry (L : Lang σ) (st : Stmt) (r : Int × σ) (s : Local σ) : Out (Jump Label Int) × Local σ :=
  if r.1 = 0 then (.normal, s.log (.did st) r.2) else (.exit (.ret (-1)), s.log (.did st) (L.report [] r.2))

/-- `if (__retval == 0) goto catch`. -/
def Local.goCatch (s : Local σ) : Out (Jump Label Int) × Local σ :=
  if s.retval = 0 then (.exit (.goto .caught), s) else (.normal, s)

/-- A statement that stands in the output as it is. -/
def Lang.cStmt (L : Lang σ) (st : Stmt) (s : Local σ) : Out (Jump Label Int) × Local σ :=
  match st with
  | .act t => (.normal, s.log (.did st) (L.act t s.mem.val))
  | .brk => (.brk, s.log (.did st) s.mem.val)
  | .cont => (.cont, s.log (.did st) s.mem.val)
  | .ret e => (.exit (.ret (L.value e s.mem.val).1), s.log (.did st) (L.value e s.mem.val).2)
  | .call name args => (.normal, s.log (.did st) (L.call name args s.mem.val).2)
  | .method t => (.normal, s.log (.did st) (L.invoke t s.mem.val).2)
  | .throwSilent => (s.log (.did st) s.mem.val).goCatch
  | .throwErrno t => (s.log (.did st) (L.report t s.mem.val)).goCatch
  -- these macros return from the function
  | .throw t => (.exit (.ret (-1)), s.log (.did st) (L.report t s.mem.val))
  | .require c =>
    if (L.value c s.mem.val).1 = 0 then
      (.exit (.ret (-1)), s.log (.did st) (L.report (str "invalid argument(s)") (L.value c s.mem.val).2))
    else (.normal, s.log (.did st) (L.value c s.mem.val).2)

def textOfItems (is : List Item) : Text := join (str "\n") (is.map Item.text)

/-- What was written for one statement. -/
def Lang.items (L : Lang σ) (is : List Item) (s : Local σ) : Out (Jump Label Int) × Local σ :=
  match is with
  | [.ret _ e] =>
    (.exit (.goto .final),
      { s.log (.did (.ret e)) (L.value e s.mem.val).2 with retval := (L.value e s.mem.val).1 })
  | [.checked _ name args _] => L.cTry (.call name args) (L.call name args s.mem.val) s
  | [.method t] => L.cTry (.method t) (L.invoke t s.mem.val) s
  | is => L.cStmt (L.read (textOfItems is)) s

/-- The locals are created one after the other; whether all of it succeeded. -/
def Lang.createAll (L : Lang σ) : List Auto → Mem σ → Bool × Mem σ
  | [], s => (true, s)
  | a :: as, s =>
    if (L.create a s.val).1 = 0 then L.createAll as (s.log (.created a) (L.create a s.val).2)
    else (false, s.log (.created a) (L.report [] (L.create a s.val).2))

def Lang.destroyAll (L : Lang σ) : List Auto → Mem σ → Bool × Mem σ
  | [], s => (true, s)
  | a :: as, s =>
    if (L.destroy a s.val).1 = 0 then L.destroyAll as (s.log (.destroyed a) (L.destroy a s.val).2)
    else (false, s.log (.destroyed a) (L.report [] (L.destroy a s.val).2))

/-- The pieces of the output. -/
inductive Prim where
  | items (is : List Item)
  /-- `int __retval = 0;` -/
  | zero
  /-- `__retval = -1;` -/
  | minusOne
  | goto (l : Label)
  /-- `if (0) goto catch;` -/
  | never
  | create (autos : List Auto)
  | destroy (autos : List Auto)
  /-- `return _throwf(...)`. -/
  | fail (msg : Text)
  /-- `return __retval;` -/
  | giveBack
  deriving DecidableEq, Repr

/-- A step that returns -1 when it fails. -/
def Local.orReturn (s : Local σ) (r : Bool × Mem σ) : Out (Jump Label Int) × Local σ :=
  (if r.1 then .normal else .exit (.ret (-1)), { s with mem := r.2 })

def Lang.prim (L : Lang σ) (p : Prim) (s : Local σ) : Out (Jump Label Int) × Local σ :=
  match p with
  | .items is => L.items is s
  | .zero => (.normal, { s with retval := 0 })
  | .minusOne => (.normal, { s with retval := -1 })
  | .goto l => (.exit (.goto l), s)
  | .never => (.normal, s)
  | .create autos => s.orReturn (L.createAll autos { s.mem with val := L.clear autos s.mem.val })
  | .destroy autos => s.orReturn (L.destroyAll autos s.mem)
  | .fail msg => (.exit (.ret (-1)), { s with mem := { s.mem with val := L.report msg s.mem.val } })
  | .giveBack => (.exit (.ret s.retval), s)

/-- What stands around the blocks of the output. -/
inductive ItemFrame where
  | lines (opening mid tail : List Item)
  /-- The `if` of a macro. -/
  | guard (st : Stmt)
  deriving DecidableEq, Repr

def Local.tested (s : Local σ) (t : Text) (r : Bool × σ) : Bool × Local σ := (r.1, s.log (.tested t) r.2)

/-- A head of the output, given what C does with its texts. -/
def Lang.head (L : Lang σ) (how : Text → Text → σ → Bool × σ) (f : ItemFrame) (s : Local σ) : Bool × Local σ :=
  match f with
  | .lines opening _ tail => s.tested (textOfItems opening) (how (textOfItems opening) (textOfItems tail) s.mem.val)
  | .guard st =>
    match st with
    | .call name args =>
      ((L.call name args s.mem.val).1 ≠ 0, s.log (.did st) (L.call name args s.mem.val).2)
    | .method t => ((L.invoke t s.mem.val).1 ≠ 0, s.log (.did st) (L.invoke t s.mem.val).2)
    | .require c => ((L.value c s.mem.val).1 = 0, s.log (.did st) (L.value c s.mem.val).2)
    | _ => (false, s)

/-- The output as C runs it. -/
def Lang.output (L : Lang σ) : Sem Prim ItemFrame (Local σ) (Jump Label Int) where
  leaf := L.prim
  test := L.head L.test
  enter := L.head L.enter
  next := L.head L.next

abbrev CCode := Block Prim ItemFrame

/-! ## What is written for a block -/

/-- The context buffer over several lines: what is written, and what is left. -/
def copy (env : Env) : Text → List Line → List Item × Text
  | buf, [] => ([], buf)
  | buf, l :: ls =>
    if waits (addLine buf l) then copy env (addLine buf l) ls
    else ((settle env (addLine buf l)).1 :: (copy env [] ls).1, (copy env [] ls).2)

/-- What is written for a statement. -/
def stmtItems (env : Env) (vars : List (Text × Text)) : List Line → List Item
  | [l] =>
    match ruleOf false l with
    | .ret m => [.ret (m.group 1) (m.group 2)]
    | .method => [.method ((methodInvoke env vars l).getD [])]
    | _ => (copy env [] [l]).1
  | g => (copy env [] g).1

def Opening.items (env : Env) : Opening → List Item
  | .lines ls => (copy env [] ls).1
  | .foreach l cur => [foreachItem l cur]

/-- The items of a block in the order of the output. -/
def codeItems (env : Env) (vars : List (Text × Text)) (b : Code) : List Item :=
  b.flat (stmtItems env vars) (fun f => f.opening.items env) (fun f => (copy env [] f.mid).1)
    fun f => (copy env [] f.tail).1

def Opening.source : Opening → List Line
  | .lines ls => ls
  | .foreach l _ => [l]

def codeLines (b : Code) : List Line := b.flat id (fun f => f.opening.source) Frame.mid Frame.tail

def Frame.items (env : Env) (f : Frame) : ItemFrame :=
  .lines (f.opening.items env) (copy env [] f.mid).1 (copy env [] f.tail).1

/-- The block behind these items is in braces. -/
def braced (is : List Item) : Bool := ((textOfItems is).reverse.dropWhile isSpace).head? = some '\x7b'

/-- The macro that ends in an `if` without `else`, with its message. -/
def macroIf (read : Text → Stmt) : List Item → Option (Stmt × Text)
  | [.checked _ name args _] => some (.call name args, [])
  | [.method t] => some (.method t, [])
  | is =>
    match read (textOfItems is) with
    | .require c => some (.require c, str "invalid argument(s)")
    | _ => none

/-- An `else` behind a block goes to the `if` of a macro at its end, if there is one. -/
def attach (read : Text → Stmt) (e : CCode) : CCode → Option CCode
  | .nil => none
  | .leaf p k =>
    match k with
    | .nil =>
      match p with
      | .items is => (macroIf read is).map fun x => .branch (.guard x.1) (.leaf (.fail x.2) .nil) e .nil
      | _ => none
    | k => (attach read e k).map (.leaf p)
  | .branch f t e' k =>
    match k with
    | .nil =>
      match f with
      | .lines _ mid _ => if braced mid then none else (attach read e e').map fun x => .branch f t x .nil
      | .guard _ => none
    | k => (attach read e k).map (.branch f t e')
  | .loop first f t k =>
    match k with
    | .nil =>
      match f with
      | .lines opening _ _ => if braced opening then none else (attach read e t).map fun x => .loop first f x .nil
      | .guard _ => none
    | k => (attach read e k).map (.loop first f t)

/-- The block for the `else` part, when it does not belong to the branch. -/
def dangling (read : Text → Stmt) (env : Env) (f : Frame) (t e : CCode) : Option CCode :=
  if (f.mid = [] ∧ e = .nil) ∨ braced (f.opening.items env) then none else attach read e t

/-- The block that C sees in the output. -/
def emit (read : Text → Stmt) (env : Env) (vars : List (Text × Text)) : Code → CCode
  | .nil => .nil
  | .leaf g k => .leaf (.items (stmtItems env vars g)) (emit read env vars k)
  | .branch f t e k =>
    match dangling read env f (emit read env vars t) (emit read env vars e) with
    | some x => .branch (f.items env) x .nil (emit read env vars k)
    | none => .branch (f.items env) (emit read env vars t) (emit read env vars e) (emit read env vars k)
  | .loop first f t k => .loop first (f.items env) (emit read env vars t) (emit read env vars k)

end Ncc
