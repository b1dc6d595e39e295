import NaturalC.Ncc
import NaturalC.Walk

/-!
# Headers and symbols

`cpp` goes through the source and the headers it includes, and fills the symbol table. A
header is marked when it is first included and then read at once, so headers that include
each other are read once. For the proofs a file is the list of what its lines contribute,
and `cpp` is a walk along these.
-/
namespace Ncc

open Regex

/-! ## Patterns -/

/-- `[a-zA-z0-9_]`. The range from `A` to `z` holds six characters besides the letters. -/
def isSymChar (c : Char) : Bool := ('A' ≤ c && c ≤ 'z') || ('0' ≤ c && c ≤ '9')

def symWord : Rx := .seq (.cls isSymChar) (.star true (.cls isSymChar))

/-- `^#include `. -/
def includeRx : Rx := all [.bol false, lit "#include "]

/-- `\s*$`. -/
def trailRx : Rx := all [spaces, .eol false]

/-- `^<`. -/
def bracketRx : Rx := all [.bol false, lit "<"]

/-- `nc/`. -/
def ncDirRx : Rx := lit "nc/"

/-- `^#define ([a-zA-z0-9_]+)\(`. -/
def defineRx : Rx := all [.bol false, lit "#define ", .cap 1 symWord, lit "("]

/-- `^typedef class ($C_IDENTIFIER) `. -/
def classRx : Rx := all [.bol false, lit "typedef class ", .cap 1 cIdentifier, lit " "]

/-- `^(static |extern |inline )*(int|size_t|char|void)\s+(\**)([a-zA-z0-9_]+)\(`. -/
def declRx : Rx :=
  all [.bol false, .star true (.cap 1 (.alt (lit "static ") (.alt (lit "extern ") (lit "inline ")))),
    .cap 2 (.alt (lit "int") (.alt (lit "size_t") (.alt (lit "char") (lit "void")))), spaces1,
    .cap 3 (.star true (lit "*")), .cap 4 symWord, lit "("]

/-- `^\**([a-zA-z0-9_]+)\(`. -/
def definitionRx : Rx := all [.bol false, .star true (lit "*"), .cap 1 symWord, lit "("]

/-- `void\s*$`. -/
def voidRx : Rx := all [lit "void", spaces, .eol false]

/-- `^"(.*?)"$`. -/
def quotedRx : Rx := all [.bol false, lit "\"", .cap 1 (.star false dot), lit "\"", .eol false]

/-- `^<(.*?)>$`. -/
def bracketedRx : Rx := all [.bol false, lit "<", .cap 1 (.star false dot), lit ">", .eol false]

/-- `^\s*int ${prefix}_($C_IDENTIFIER)\s*\((.*)\);`. -/
def methodDeclRx (pfx : Text) : Rx :=
  all [.bol false, spaces, lit "int ", lit (String.ofList pfx), lit "_", .cap 1 cIdentifier, spaces, lit "(",
    .cap 2 (.star true dot), lit ");"]

/-- `^} ($C_IDENTIFIER);`. -/
def typedefRx : Rx := all [.bol false, lit "\x7d ", .cap 1 cIdentifier, lit ";"]

/-! ## Files -/

/-- The name of the file for a path as it stands in an `#include`, given which files exist. -/
def resolve (includes : List Text) (found : Text → Bool) (fn : Text) : Text :=
  match search quotedRx fn with
  | some m => m.group 1
  | none =>
    match search bracketedRx fn with
    | some m =>
      let paths := includes.map fun base => base ++ str "/" ++ m.group 1
      (paths.find? found).getD (paths.getLast?.getD [])
    | none => fn

/-- `readfile`; nothing when the file is missing or empty and the translator dies. -/
def readfile (includes : List Text) (files : Text → Option (List Line)) (fn : Text) : Option (List Line) :=
  match files (resolve includes (fun path => (files path).isSome) fn) with
  | some (l :: ls) => some (l :: ls)
  | _ => none

/-! ## Tables -/

/-- The global tables. -/
structure Tables where
  /-- The keys of `%HEADER`. -/
  header : List Text
  /-- The keys of `%FUNC_SYM`. -/
  funcSym : List Text
  ncTypes : List Text
  userTypes : List Text
  classes : List (Text × Class)
  /-- The paths that were read for an `#include`, the last one first. -/
  scanned : List Text

def Tables.start : Tables := ⟨[], [], ["string", "list", "hash", "socket", "file"].map str, [], [], []⟩

/-- The loop of `class_parse`: the methods, the last one first, and the name of the type. -/
def classLines (pfx : Text) : List Line → List (Text × Text) × Option Text → List (Text × Text) × Option Text
  | [], x => x
  | l :: ls, (methods, typedef) =>
    match search (methodDeclRx pfx) l with
    | some m => classLines pfx ls ((m.group 1, m.group 2) :: methods, typedef)
    | none =>
      match typedef, search typedefRx l with
      | none, some m => classLines pfx ls (methods, some (m.group 1))
      | typedef, _ => classLines pfx ls (methods, typedef)

/-- `class_parse` on the lines from the definition on. -/
def classParse (pfx : Text) (ls : List Line) (t : Tables) : Tables :=
  match classLines pfx ls ([], none) with
  | (methods, some typedef) =>
    { t with classes := (typedef, ⟨pfx, methods.map fun x =>
        (x.1, split (all [spaces, lit ",", spaces]) x.2)⟩) :: t.classes }
  | (_, none) => t

/-! ## The loop over the lines -/

/-- The path of an `#include`. -/
def pathOf (m : Match) : Text :=
  let path := chomp m.post
  match search trailRx path with
  | some m => m.pre ++ m.post
  | none => path

/-- System headers are skipped, unless they are those of the library. -/
def skipped (path : Text) : Bool := test bracketRx path && !test ncDirRx path

/-- One line, with the one before it and those behind it. What to do at a new header is a parameter. -/
def cppLine (visit : Text → Tables → Option Tables) (prev l : Line) (ls : List Line) (t : Tables) :
    Option Tables :=
  match search includeRx l with
  | some m =>
    if skipped (pathOf m) then some t
    else if t.header.contains (pathOf m) then some t
    else visit (pathOf m) { t with header := pathOf m :: t.header }
  | none =>
    match search defineRx l with
    | some m => some { t with funcSym := m.group 1 :: t.funcSym }
    | none =>
      match search classRx l with
      | some m =>
        let t := classParse (m.group 1) (l :: ls) t
        some { t with userTypes := t.userTypes ++ [m.group 1 ++ str "_t"], ncTypes := t.ncTypes ++ [m.group 1] }
      | none =>
        match search declRx l with
        | some m =>
          -- functions that return `void` are left out
          if m.group 2 = str "void" ∧ m.group 3 = [] then some t
          else some { t with funcSym := m.group 4 :: t.funcSym }
        | none =>
          match search definitionRx l with
          | some m => if test voidRx prev then some t else some { t with funcSym := m.group 1 :: t.funcSym }
          | none => some t

def cppLines (visit : Text → Tables → Option Tables) : Line → List Line → Tables → Option Tables
  | _, [], t => some t
  | prev, l :: ls, t => (cppLine visit prev l ls t).bind (cppLines visit l ls)

/-- `cpp` with a limit on the depth of its recursion. The line before the first one is the last one, as
Perl counts from the end. -/
def cpp (read : Text → Option (List Line)) : Nat → List Line → Tables → Option Tables
  | 0, _, _ => none
  | n + 1, lines, t =>
    cppLines (fun path t => (read path).bind fun lines => cpp read n lines { t with scanned := path :: t.scanned })
      (lines.getLast?.getD []) lines t

/-! ## What a file contributes -/

/-- The header that a line includes, unless it is skipped. -/
def includedBy (l : Line) : Option Text :=
  match search includeRx l with
  | some m => if skipped (pathOf m) then none else some (pathOf m)
  | none => none

/-- The symbol that the rules find in a line behind another one. -/
def symbolIn (prev l : Line) : Option Text :=
  if test includeRx l then none
  else
    match search defineRx l with
    | some m => some (m.group 1)
    | none =>
      if test classRx l then none
      else
        match search declRx l with
        | some m => if m.group 2 = str "void" ∧ m.group 3 = [] then none else some (m.group 4)
        | none =>
          match search definitionRx l with
          | some m => if test voidRx prev then none else some (m.group 1)
          | none => none

/-- The symbols of the lines behind a line. -/
def symbolsAfter : Line → List Line → List Text
  | _, [] => []
  | prev, l :: ls => (symbolIn prev l).toList ++ symbolsAfter l ls

/-- The symbols that the rules find in a file. -/
def symbolsOf (lines : List Line) : List Text := symbolsAfter (lines.getLast?.getD []) lines

/-- The headers that a file includes. -/
def includesOf (lines : List Line) : List Text := lines.filterMap includedBy

/-- The headers in reach of a file, over any number of includes. -/
inductive Reachable (read : Text → Option (List Line)) (src : List Line) : Text → Prop
  | direct {path : Text} (h : path ∈ includesOf src) : Reachable read src path
  | through {path next : Text} {lines : List Line} (h : Reachable read src path)
    (hr : read path = some lines) (hn : next ∈ includesOf lines) : Reachable read src next

/-- The headers are among finitely many files that are there and not empty. -/
structure Available (read : Text → Option (List Line)) (src : List Line) (paths : List Text) : Prop where
  source : ∀ path ∈ includesOf src, path ∈ paths
  header : ∀ path ∈ paths, ∃ lines, read path = some lines ∧ ∀ next ∈ includesOf lines, next ∈ paths

def entryOf (prev l : Line) : Walk.Entry Text Text :=
  match includedBy l with
  | some path => .link path
  | none =>
    match symbolIn prev l with
    | some k => .item k
    | none => .skip

def entriesAfter : Line → List Line → List (Walk.Entry Text Text)
  | _, [] => []
  | prev, l :: ls => entryOf prev l :: entriesAfter l ls

def entriesOf (lines : List Line) : List (Walk.Entry Text Text) := entriesAfter (lines.getLast?.getD []) lines

theorem symbolIn_of_includedBy {prev l : Line} {path : Text} (h : includedBy l = some path) :
    symbolIn prev l = none := by
  rw [includedBy] at h
  rw [symbolIn, test]
  cases hm : search includeRx l with
  | none => simp [hm] at h
  | some m => rfl

theorem mem_entriesAfter_link {path : Text} (prev : Line) (lines : List Line) :
    .link path ∈ entriesAfter prev lines ↔ path ∈ includesOf lines := by
  induction lines generalizing prev with
  | nil => simp [entriesAfter, includesOf]
  | cons l ls ih =>
    rw [entriesAfter, List.mem_cons, ih l, includesOf, includesOf, List.filterMap_cons, entryOf]
    cases hi : includedBy l with
    | some q => simp
    | none => cases symbolIn prev l <;> simp

theorem mem_entriesAfter_item {k : Text} (prev : Line) (lines : List Line) :
    .item k ∈ entriesAfter prev lines ↔ k ∈ symbolsAfter prev lines := by
  induction lines generalizing prev with
  | nil => simp [entriesAfter, symbolsAfter]
  | cons l ls ih =>
    rw [entriesAfter, List.mem_cons, ih l, symbolsAfter, List.mem_append, entryOf]
    cases hi : includedBy l with
    | some q => simp [symbolIn_of_includedBy hi]
    | none => cases symbolIn prev l <;> simp

/-- The state of the walk that the tables stand for. -/
structure Follows (t : Tables) (s : Walk.State Text Text) : Prop where
  header : t.header = s.seen
  funcSym : t.funcSym = s.found
  scanned : t.scanned = s.seen

theorem classParse_header (pfx : Text) (ls : List Line) (t : Tables) :
    (classParse pfx ls t).header = t.header ∧ (classParse pfx ls t).funcSym = t.funcSym ∧
      (classParse pfx ls t).scanned = t.scanned := by
  rw [classParse]
  split <;> exact ⟨rfl, rfl, rfl⟩

variable {visit : Text → Tables → Option Tables} {prev l : Line} {ls : List Line} {t : Tables}

theorem cppLine_include {path : Text} (h : includedBy l = some path) :
    cppLine visit prev l ls t =
      if path ∈ t.header then some t else visit path { t with header := path :: t.header } := by
  rw [includedBy] at h
  rw [cppLine]
  cases hm : search includeRx l with
  | none => simp [hm] at h
  | some m =>
    rw [hm] at h
    by_cases hs : skipped (pathOf m) = true
    · simp [hs] at h
    · obtain rfl : pathOf m = path := by simpa [hs] using h
      simp only [if_neg hs, List.contains_iff_mem]

/-- Any other line adds the symbol that the rules find in it. -/
theorem cppLine_other (visit : Text → Tables → Option Tables) (prev : Line) (ls : List Line)
    {s : Walk.State Text Text} (h : includedBy l = none) (hf : Follows t s) :
    ∃ t', cppLine visit prev l ls t = some t' ∧
      Follows t' { s with found := (symbolIn prev l).toList ++ s.found } := by
  rw [includedBy] at h
  rw [cppLine, symbolIn]
  cases hm : search includeRx l with
  | some m =>
    have hs : skipped (pathOf m) = true := by
      by_contra hs
      simp [hm, hs] at h
    have htest : test includeRx l = true := by simp [test, hm]
    simp only [hs, htest, if_true]
    exact ⟨t, rfl, hf⟩
  | none =>
    have htest : test includeRx l = false := by simp [test, hm]
    simp only [htest, Bool.false_eq_true, if_false]
    cases search defineRx l with
    | some m => exact ⟨_, rfl, hf.header, congrArg (m.group 1 :: ·) hf.funcSym, hf.scanned⟩
    | none =>
      cases hc : search classRx l with
      | some m =>
        obtain ⟨hh, hs, hsc⟩ := classParse_header (m.group 1) (l :: ls) t
        have htest : test classRx l = true := by simp [test, hc]
        simp only [htest, if_true]
        exact ⟨_, rfl, hh.trans hf.header, hs.trans hf.funcSym, hsc.trans hf.scanned⟩
      | none =>
        have htest : test classRx l = false := by simp [test, hc]
        simp only [htest, Bool.false_eq_true, if_false]
        cases search declRx l with
        | some m =>
          simp only
          split_ifs
          · exact ⟨t, rfl, hf⟩
          · exact ⟨_, rfl, hf.header, congrArg (m.group 4 :: ·) hf.funcSym, hf.scanned⟩
        | none =>
          simp only
          cases search definitionRx l with
          | some m =>
            simp only
            split_ifs
            · exact ⟨t, rfl, hf⟩
            · exact ⟨_, rfl, hf.header, congrArg (m.group 1 :: ·) hf.funcSym, hf.scanned⟩
          | none => exact ⟨t, rfl, hf⟩

/-- The lines of a file follow the walk through its entries. -/
theorem cppLines_follows {enter : Text → Walk.State Text Text → Option (Walk.State Text Text)}
    (hv : ∀ path t s s', Follows t s → enter path { s with seen := path :: s.seen } = some s' →
      ∃ t', visit path { t with header := path :: t.header } = some t' ∧ Follows t' s')
    (prev : Line) (lines : List Line) (t : Tables) (s s' : Walk.State Text Text) (hf : Follows t s)
    (hs : Walk.through enter (entriesAfter prev lines) s = some s') :
    ∃ t', cppLines visit prev lines t = some t' ∧ Follows t' s' := by
  induction lines generalizing prev t s with
  | nil =>
    obtain rfl : s = s' := Option.some.inj hs
    exact ⟨t, rfl, hf⟩
  | cons l ls ih =>
    rw [entriesAfter, entryOf] at hs
    rw [cppLines]
    cases hi : includedBy l with
    | some path =>
      rw [hi] at hs
      rw [cppLine_include hi, hf.header]
      by_cases hmem : path ∈ s.seen
      · rw [if_pos hmem]
        rw [Walk.through, if_pos hmem] at hs
        exact ih l t s hf hs
      · rw [if_neg hmem]
        rw [Walk.through, if_neg hmem] at hs
        obtain ⟨s₁, hs₁, hrest⟩ := Option.bind_eq_some_iff.mp hs
        obtain ⟨t₁, ht₁, hf₁⟩ := hv path t s s₁ hf hs₁
        rw [← hf.header, ht₁]
        exact ih l t₁ s₁ hf₁ hrest
    | none =>
      obtain ⟨t₁, ht₁, hf₁⟩ := cppLine_other visit prev ls hi hf
      rw [hi] at hs
      rw [ht₁]
      apply ih l t₁ _ hf₁
      cases hk : symbolIn prev l with
      | some k =>
        rw [hk] at hs
        exact hs
      | none =>
        rw [hk] at hs
        exact hs

/-- `cpp` follows the walk along the includes. -/
theorem cpp_follows (read : Text → Option (List Line)) (n : Nat) (lines : List Line) (t : Tables)
    (s s' : Walk.State Text Text) (hf : Follows t s)
    (hs : Walk.walk (fun path => (read path).map entriesOf) n (entriesOf lines) s = some s') :
    ∃ t', cpp read n lines t = some t' ∧ Follows t' s' := by
  induction n generalizing lines t s s' with
  | zero => simp [Walk.walk] at hs
  | succ n ih =>
    refine cppLines_follows ?_ _ lines t s s' hf hs
    intro path t s s' hf hs
    obtain ⟨es, hes, hs⟩ := Option.bind_eq_some_iff.mp hs
    obtain ⟨ls, hls, rfl⟩ := Option.map_eq_some_iff.mp hes
    rw [hls]
    exact ih ls _ { s with seen := path :: s.seen } s' ⟨congrArg (path :: ·) hf.header, hf.funcSym, congrArg (path :: ·) hf.scanned⟩ hs

/-- Reach in the files is reach in the walk. -/
theorem reach_iff {read : Text → Option (List Line)} {src : List Line} {path : Text} :
    Walk.Reach (fun path => (read path).map entriesOf) (entriesOf src) path ↔ Reachable read src path := by
  constructor
  · intro h
    induction h with
    | link h => exact .direct ((mem_entriesAfter_link _ _).mp h)
    | step _ hf hb ih =>
      obtain ⟨lines, hr, rfl⟩ := Option.map_eq_some_iff.mp hf
      exact .through ih hr ((mem_entriesAfter_link _ _).mp hb)
  · intro h
    induction h with
    | direct h => exact .link ((mem_entriesAfter_link _ _).mpr h)
    | through _ hr hn ih =>
      exact .step ih (Option.map_eq_some_iff.mpr ⟨_, hr, rfl⟩) ((mem_entriesAfter_link _ _).mpr hn)

/-- On finitely many files that include each other in any way, `cpp` comes to its end with any limit above
their number. It has read the headers in reach of the source, each of them once, and the symbols
are those of the source and of these headers. -/
theorem cpp_collects (includes : List Text) (files : Text → Option (List Line)) (src : List Line)
    (paths : List Text) (ha : Available (readfile includes files) src paths) (n : Nat) (hn : paths.length < n) :
    ∃ t, cpp (readfile includes files) n src Tables.start = some t ∧ t.scanned.Nodup ∧
      (∀ path, path ∈ t.scanned ↔ Reachable (readfile includes files) src path) ∧
      ∀ k, k ∈ t.funcSym ↔ k ∈ symbolsOf src ∨ ∃ path lines,
        Reachable (readfile includes files) src path ∧ readfile includes files path = some lines ∧
          k ∈ symbolsOf lines := by
  have hclosed : Walk.Closed (fun path => (readfile includes files path).map entriesOf) paths := by
    intro path hp
    obtain ⟨lines, hr, hl⟩ := ha.header path hp
    exact ⟨entriesOf lines, Option.map_eq_some_iff.mpr ⟨lines, hr, rfl⟩, fun h => hl _ ((mem_entriesAfter_link _ _).mp h)⟩
  obtain ⟨s, hs, hnodup, hseen, hfound⟩ := Walk.walk_exact hclosed (entriesOf src)
    (fun h => ha.source _ ((mem_entriesAfter_link _ _).mp h)) n hn
  obtain ⟨t, ht, hf⟩ := cpp_follows (readfile includes files) n src Tables.start ⟨[], []⟩ s ⟨rfl, rfl, rfl⟩ hs
  refine ⟨t, ht, by rw [hf.scanned]; exact hnodup, ?_, ?_⟩
  · intro path
    rw [hf.scanned, hseen, reach_iff]
  · intro k
    rw [hf.funcSym, hfound, entriesOf, mem_entriesAfter_item]
    apply or_congr_right
    constructor
    · rintro ⟨path, es, hr, he, hk⟩
      obtain ⟨lines, hl, rfl⟩ := Option.map_eq_some_iff.mp he
      exact ⟨path, lines, reach_iff.mp hr, hl, (mem_entriesAfter_item _ _).mp hk⟩
    · rintro ⟨path, lines, hr, hl, hk⟩
      exact ⟨path, entriesOf lines, reach_iff.mpr hr, Option.map_eq_some_iff.mpr ⟨lines, hl, rfl⟩, (mem_entriesAfter_item _ _).mpr hk⟩

/-- Two headers that include each other, and the first itself. -/
def cyclicFiles : Text → Option (List Line) := fun path =>
  if path = str "a.h" then some (["#include \"b.h\"\n", "#include \"a.h\"\n", "int f(int);\n"].map str)
  else if path = str "b.h" then some (["#include \"a.h\"\n", "#define g(x) x\n"].map str)
  else none

theorem cpp_collects_cycle :
    ∃ t, cpp (readfile [] cyclicFiles) 3 [str "#include \"a.h\"\n"] Tables.start = some t ∧ t.scanned.Nodup ∧
      (∀ path, path ∈ t.scanned ↔ Reachable (readfile [] cyclicFiles) [str "#include \"a.h\"\n"] path) ∧
      ∀ k, k ∈ t.funcSym ↔ k ∈ symbolsOf [str "#include \"a.h\"\n"] ∨ ∃ path lines,
        Reachable (readfile [] cyclicFiles) [str "#include \"a.h\"\n"] path ∧
          readfile [] cyclicFiles path = some lines ∧ k ∈ symbolsOf lines := by
  refine cpp_collects [] cyclicFiles _ [str "\"a.h\"", str "\"b.h\""] ⟨by decide +kernel, ?_⟩ 3 (by decide)
  intro path hp
  rcases List.mem_cons.mp hp with rfl | hp
  · exact ⟨["#include \"b.h\"\n", "#include \"a.h\"\n", "int f(int);\n"].map str, by decide +kernel,
      by decide +kernel⟩
  · rw [List.mem_singleton.mp hp]
    exact ⟨["#include \"a.h\"\n", "#define g(x) x\n"].map str, by decide +kernel, by decide +kernel⟩

end Ncc
