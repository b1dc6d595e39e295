import NaturalC.Regex

/-!
# The translator

The `parser` of `ncc` with `lexer`, `preamble_parse` and `method_invoke`. The loop over the
input lines is a step function on the parser's variables. What is pushed onto the output is
an item that says which rule wrote it, with the numbers of the input lines it stands for and
the part of their text that is not in it; `Item.text` is what the output file gets.
-/
namespace Ncc

open Regex

/-- A line of the input, with its newline. -/
abbrev Line := Text

/-! ## Patterns -/

def lit (s : String) : Rx := s.toList.foldr (fun c r => .seq (.cls (· = c)) r) .eps

/-- The expressions one after the other. -/
def all : List Rx → Rx
  | [] => .eps
  | r :: rs => .seq r (all rs)

def spaces : Rx := .star true (.cls isSpace)

def spaces1 : Rx := .seq (.cls isSpace) spaces

def word : Rx := .seq (.cls isWord) (.star true (.cls isWord))

/-- `$C_IDENTIFIER`. -/
def cIdentifier : Rx := .seq (.cls isWordStart) (.star true (.cls isWord))

/-- `.` without `/s`. -/
def dot : Rx := .cls (· ≠ '\n')

/-- `.` with `/s`. -/
def any : Rx := .cls fun _ => true

/-- `^{\s*$`. -/
def openRx : Rx := all [.bol false, lit "\x7b", spaces, .eol false]

/-- `^\s*$`. -/
def blankRx : Rx := all [.bol false, spaces, .eol false]

/-- `^}\s*$`. -/
def closeRx : Rx := all [.bol false, lit "\x7d", spaces, .eol false]

/-- `^catch:\s*$`. -/
def catchRx : Rx := all [.bol false, lit "catch:", spaces, .eol false]

/-- `^finally:\s*$`. -/
def finallyRx : Rx := all [.bol false, lit "finally:", spaces, .eol false]

/-- `^(\s*)foreach\s*\((.*?),\s*(.*?)\)\s*{`. -/
def foreachRx : Rx :=
  all [.bol false, .cap 1 spaces, lit "foreach", spaces, lit "(", .cap 2 (.star false dot), lit ",",
    spaces, .cap 3 (.star false dot), lit ")", spaces, lit "\x7b"]

/-- `^(\s*)return\s*(.+?);`. -/
def returnRx : Rx :=
  all [.bol false, .cap 1 spaces, lit "return", spaces, .cap 2 (.seq dot (.star false dot)), lit ";"]

/-- `^(\s*)__retval =`. -/
def retvalRx : Rx := all [.bol false, .cap 1 spaces, lit "__retval ="]

/-- `^\s*${C_IDENTIFIER}\.${C_IDENTIFIER}\s*\(`. -/
def methodRx : Rx := all [.bol false, spaces, cIdentifier, lit ".", cIdentifier, spaces, lit "("]

/-- `^(\s+)([A-Za-z0-9_]+)\s*\(` with `/sm`. -/
def bareRx : Rx := all [.bol true, .cap 1 spaces1, .cap 2 word, spaces, lit "("]

/-- `;\s*$` with `/sm`. -/
def endRx : Rx := all [lit ";", spaces, .eol true]

/-- `^(\s+)([A-Za-z0-9_]+)\s*\((.*?)\);` with `/sm`. -/
def callRx : Rx :=
  all [.bol true, .cap 1 spaces1, .cap 2 word, spaces, lit "(", .cap 3 (.star false any), lit ");"]

/-- `if `. -/
def ifRx : Rx := lit "if "

/-- `^\s*(${C_IDENTIFIER})\.(${C_IDENTIFIER})\s*\((.*)\);`. -/
def invokeRx : Rx :=
  all [.bol false, spaces, .cap 1 cIdentifier, lit ".", .cap 2 cIdentifier, spaces, lit "(",
    .cap 3 (.star true dot), lit ");"]

/-! ## Symbols -/

structure Class where
  pfx : Text
  /-- The methods and their parameters. -/
  methods : List (Text × List Text)

/-- What `cpp` has collected from the source and its headers. -/
structure Env where
  /-- The keys of `%FUNC_SYM`. -/
  funcSym : List Text
  /-- `@NC_TYPES`, the user types included. -/
  types : List Text
  /-- `$CLASS`. -/
  classes : List (Text × Class)

/-- `@NC_KEYWORDS`. -/
def ncKeywords : List Text :=
  ["require", "destroy", "log_debug", "log_debug2", "log_warning", "log_error", "log_info",
    "log_notice", "throw", "throwf", "throw_if", "throw_errno", "throw_silent", "throw_fatal",
    "throw_response", "throw_html", "str_to_pointer", "thread_exit", "process_exit", "exit", "abort",
    "array_new", "array_destroy", "array_truncate", "array_push", "array_pop", "array_grow",
    "array_foreach", "mutex_lock", "mutex_unlock", "hash_lock", "hash_unlock", "mem_calloc",
    "list_wrlock", "list_rdlock", "list_unlock", "memset", "memcpy", "strncpy"].map str

/-- The keywords are deleted from `%FUNC_SYM`. -/
def Env.isSym (env : Env) (name : Text) : Bool := name ∈ env.funcSym && name ∉ ncKeywords

/-! ## Local variables -/

def lexer (raw : Text) : List Text :=
  let raw := gsub (.seq (.bol true) spaces1) [] raw
  let raw := gsub (.seq spaces1 (.eol true)) [] raw
  let raw := gsub (.seq (lit ",") spaces) (str ",") raw
  let raw := gsub (.seq (lit "//") (.star true dot)) [] raw
  let raw := gsub (all [lit "/*", .star true dot, lit "*/"]) [] raw
  let raw := gsub (lit "\n") [] raw
  let raw := gsub spaces1 (str " ") raw
  split (lit ";") raw

/-- A local that is allocated and destroyed automatically. -/
structure Auto where
  pfx : Text
  id : Text
  deriving DecidableEq, Repr

structure Preamble where
  /-- The type of each local. -/
  vars : List (Text × Text)
  autos : List Auto
  deriving DecidableEq, Repr

/-- `string_t` uses the prefix `str`, the other types their own name. -/
def typePrefix (name : Text) : Text := if name = str "string" then str "str" else name

/-- One declarator. -/
def declare (type pfx : Text) (p : Preamble) (id : Text) : Preamble :=
  let (type, id) := match search (all [.bol false, lit "*", .star true (lit "*")]) id with
    | some m => (type ++ str " " ++ m.all, m.post)
    | none => (type, id)
  let p := { p with vars := (id, type) :: p.vars }
  if test (lit "=") id then p else { p with autos := p.autos ++ [⟨pfx, id⟩] }

@[irreducible] def preambleParse (env : Env) (raw : Text) : Preamble :=
  (lexer raw).foldl (fun p line =>
    let (type, ids) := match split2 (lit " ") line with
      | [] => ([], [])
      | [type] => (type, [])
      | type :: ids :: _ => (type, ids)
    match env.types.find? fun name => name ++ str "_t" = type with
    | none => p
    | some name => (split (all [spaces, lit ",", spaces]) ids).foldl (declare type (typePrefix name)) p)
    ⟨[], []⟩

/-- `new_code`: all locals are set to `NULL` first. -/
def newCode (autos : List Auto) : Text :=
  (autos.map fun a => a.id ++ str " = NULL; ").flatten ++
    (autos.map fun a => str "try (" ++ a.pfx ++ str "_new(&" ++ a.id ++ str ")); ").flatten

/-- `destroy_code`. -/
def destroyCode (autos : List Auto) : Text :=
  (autos.map fun a => str "destroy(" ++ a.pfx ++ str ", &" ++ a.id ++ str "); ").flatten

/-! ## Method calls -/

/-- The parameters of the function, with the object in front of the first parameter that comes at
or behind the place of one of its type. The flag tells whether that place has been found. -/
def newParams (self type : Text) : List Text → List Text → Bool × List Text
  | [], params => (false, params)
  | d :: ds, params =>
    if test (lit (String.ofList (type ++ str " *"))) d then (true, self :: params)
    else match params with
      | [] => (false, [])
      | p :: params => ((newParams self type ds params).1, p :: (newParams self type ds params).2)

def join (sep : Text) : List Text → Text
  | [] => []
  | [t] => t
  | t :: ts => t ++ sep ++ join sep ts

/-- The statement for a method call; nothing when the translator dies. -/
def methodInvoke (env : Env) (vars : List (Text × Text)) (l : Line) : Option Text := do
  let m := (search invokeRx l).getD ⟨[], [], [], []⟩
  let type ← vars.lookup (m.group 1)
  let type := type.takeWhile (· ≠ ' ')
  let cls ← env.classes.lookup type
  let ds ← cls.methods.lookup (m.group 2)
  let (found, params) := newParams (m.group 1) type ds (split (all [spaces, lit ",", spaces]) (m.group 3))
  if found then
    some (str "\t\ttry (" ++ cls.pfx ++ str "_" ++ m.group 2 ++ str "(" ++ join (str ", ") params ++
      str "));")
  else none

/-! ## The output -/

inductive Item where
  /-- The `#line` directive. -/
  | preface (fn : Text)
  | openBrace
  | autoNew (autos : List Auto)
  | closeBrace (hasCatch hasFinally : Bool) (autos : List Auto)
  | catchLabel
  | finallyLabel (hasCatch : Bool)
  | foreach (indent var list : Text) (cur : Nat)
  | ret (indent e : Text)
  | warning
  | method (stmt : Text)
  /-- Text of the input as it is. -/
  | verbatim (t : Text)
  /-- A call with its result checked. -/
  | checked (indent name args post : Text)
  /-- A call whose parts were lost because another match came in between. -/
  | clobbered (post : Text)
  deriving DecidableEq, Repr

/-- The cursor of a `foreach` loop. -/
def cursor (n : Nat) : Text := str "nc_cur" ++ Nat.toDigits 10 n

def Item.text : Item → Text
  | .preface fn => str "#line 1 \"" ++ fn ++ str "\""
  | .openBrace => str "\x7b             int __retval = 0;"
  | .autoNew autos => newCode autos
  | .closeBrace hasCatch hasFinally autos =>
    str "if (0) goto catch; " ++
      (if hasCatch then [] else str "goto finally;  catch: __retval = -1; ") ++
      (if hasFinally then [] else str "finally: ") ++ destroyCode autos ++ str "return __retval; \x7d"
  | .catchLabel => str "goto finally; catch: __retval = -1;"
  | .finallyLabel hasCatch =>
    if hasCatch then str "finally:" else str "goto finally; catch: __retval = -1; finally:"
  | .foreach indent var list cur =>
    indent ++ str "for (" ++ cursor cur ++ str " = " ++ list ++ str "->head; " ++ cursor cur ++
      str "; " ++ cursor cur ++ str " = " ++ cursor cur ++ str "->next) \x7b  str_copy(" ++ var ++
      str "," ++ cursor cur ++ str "->value);"
  | .ret indent e =>
    indent ++ str "do \x7b __retval = " ++ e ++ str "; goto finally; \x7d while (0);"
  | .warning => str "#warning Please do not modify __retval directly."
  | .method stmt => stmt
  | .verbatim t => t
  | .checked indent name args post =>
    indent ++ str "try (" ++ name ++ str "(" ++ args ++ str "));" ++ post
  | .clobbered post => str "try (());" ++ post

/-- One element of `@out`. -/
structure Emitted where
  item : Item
  /-- The numbers of the input lines that it stands for. -/
  origin : List Nat
  /-- The text of these lines that is not in it. -/
  dropped : Text
  deriving DecidableEq, Repr

/-- The variables of `parser`. -/
structure State where
  out : List Emitted
  /-- `$line`, the statement that is not finished yet. -/
  line : Text
  /-- The numbers of its lines. -/
  origin : List Nat
  uniq : Nat
  insidePreamble : Bool
  hasCatch : Bool
  hasFinally : Bool
  /-- The element of `@out` with the opening brace. -/
  preambleLineno : Nat
  preamble : Text
  /-- The locals in `$func`. -/
  vars : List (Text × Text)
  autoDestroy : List Auto
  /-- The cursors that were added to elements of `@out`. -/
  cursors : List (Nat × Nat)
  deriving DecidableEq, Repr

def State.push (s : State) (item : Item) (origin : List Nat) (dropped : Text) : State :=
  { s with out := s.out ++ [⟨item, origin, dropped⟩] }

/-! ## Rules -/

/-- The rules in the order in which they are tried. -/
inductive Rule where
  | openBrace
  | blank
  | closeBrace
  | catchLabel
  | finallyLabel
  | foreach (m : Match)
  | ret (m : Match)
  | retval
  | method
  /-- The line goes into the context buffer. -/
  | other

/-- The rules behind the braces and labels. -/
def statementRule (l : Line) : Rule :=
  match search foreachRx l with
  | some m => .foreach m
  | none =>
    match search returnRx l with
    | some m => .ret m
    | none => if test retvalRx l then .retval else if test methodRx l then .method else .other

def ruleOf (insidePreamble : Bool) (l : Line) : Rule :=
  if test openRx l then .openBrace
  else if insidePreamble && test blankRx l then .blank
  else if test closeRx l then .closeBrace
  else if test catchRx l then .catchLabel
  else if test finallyRx l then .finallyLabel
  else statementRule l

def chomp (l : Line) : Text := if l.getLast? = some '\n' then l.dropLast else l

/-- The context buffer with one more line. -/
def addLine (line : Text) (l : Line) : Text :=
  if line.length > 0 then line ++ '\n' :: chomp l else chomp l

/-- The keywords in front of a parenthesis that do not make a bare statement. -/
def control : List Text := ["if", "for", "switch", "while", "do", "foreach"].map str

/-- The buffer starts a bare statement. -/
def bare (line : Text) : Bool :=
  match search bareRx line with
  | none => false
  | some m => m.group 2 ∉ control

/-- The buffer is kept for the next line. -/
def waits (line : Text) : Bool := bare line && !test endRx line

/-- The first letters of an identifier were taken for the keyword. -/
def cutWord (l : Line) (m : Match) : Text :=
  if ((l.drop ((m.group 1).length + 6)).head?.map isWord).getD false then str "return" else []

/-- The text of the line that a rule does not write out. -/
def Rule.dropped (l : Line) : Rule → Text
  | .foreach m => m.post
  | .ret m => cutWord l m ++ m.post
  | .retval => l
  | .method => ((search invokeRx l).map Match.post).getD l
  | _ => []

/-- What is written for a buffer that is not kept, and what is lost. -/
def settle (env : Env) (line : Text) : Item × Text :=
  if bare line then
    match search callRx line with
    | none => (.verbatim line, [])
    | some m =>
      if m.group 2 ∈ ["foreach", "catch"].map str then (.verbatim line, [])
      else if env.isSym (m.group 2) then
        -- the warning about an embedded `if ` is itself a match and empties `$1`, `$2` and `$3`
        if test ifRx line then (.clobbered m.post, m.pre ++ m.all)
        else (.checked (m.group 1) (m.group 2) (m.group 3) m.post, m.pre)
      else (.verbatim line, [])
  else (.verbatim line, [])

/-- The rules that look at more than one line. -/
def stepOther (env : Env) (i : Nat) (s : State) (l : Line) : State :=
  let line := addLine s.line l
  if waits line then { s with line := line, origin := s.origin ++ [i] }
  else
    let (item, dropped) := settle env line
    { s.push item (s.origin ++ [i]) dropped with line := [], origin := [] }

/-- One line of the input; nothing when the translator dies. -/
def step (env : Env) (i : Nat) (s : State) (l : Line) : Option State :=
  let rule := ruleOf s.insidePreamble l
  -- every line but the opening brace is added to the preamble
  let p := if s.insidePreamble then { s with preamble := s.preamble ++ l } else s
  let lost := rule.dropped l
  match rule with
  | .openBrace =>
    some { s.push .openBrace [i] lost with
      preambleLineno := s.out.length, preamble := [], insidePreamble := true,
      hasCatch := false, hasFinally := false }
  | .blank =>
    let func := preambleParse env p.preamble
    some { p.push (.autoNew func.autos) [i] lost with
      vars := func.vars, autoDestroy := func.autos, insidePreamble := false, preamble := [] }
  | .closeBrace => some (p.push (.closeBrace p.hasCatch p.hasFinally p.autoDestroy) [i] lost)
  | .catchLabel => some { p.push .catchLabel [i] lost with hasCatch := true }
  | .finallyLabel =>
    some { p.push (.finallyLabel p.hasCatch) [i] lost with hasCatch := true, hasFinally := true }
  | .foreach m =>
    some { p.push (.foreach (m.group 1) (m.group 2) (m.group 3) p.uniq) [i] lost with
      uniq := p.uniq + 1, cursors := p.cursors ++ [(p.preambleLineno, p.uniq)] }
  | .ret m => some (p.push (.ret (m.group 1) (m.group 2)) [i] lost)
  | .retval => some (p.push .warning [i] lost)
  | .method => do
    let stmt ← methodInvoke env p.vars l
    some (p.push (.method stmt) [i] lost)
  | .other => some (stepOther env i p l)

def steps (env : Env) : Nat → State → List Line → Option State
  | _, s, [] => some s
  | i, s, l :: ls => do steps env (i + 1) (← step env i s l) ls

/-- The parser before the first line. -/
def start (fn : Text) : State :=
  { out := [⟨.preface fn, [], []⟩], line := [], origin := [], uniq := 0, insidePreamble := false,
    hasCatch := false, hasFinally := false, preambleLineno := 0, preamble := [], vars := [],
    autoDestroy := [], cursors := [] }

/-- The loop of `parser`. The input has the implicit lines in front already. -/
def parse (env : Env) (fn : Text) (input : List Line) : Option State :=
  steps env 0 (start fn) input

/-- The text of the `n`-th element of `@out`, with the cursors that were added to it. -/
def elementText (s : State) (n : Nat) (e : Emitted) : Text :=
  e.item.text ++ ((s.cursors.filter (·.1 = n)).map fun c =>
    str "list_entry_t *" ++ cursor c.2 ++ str ";").flatten

/-- The output file. -/
def parser (env : Env) (fn : Text) (input : List Line) : Option Text :=
  (parse env fn input).map fun s => join (str "\n") (s.out.mapIdx (elementText s)) ++ str "\n"

end Ncc
