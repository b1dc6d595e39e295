import NaturalC.NccCpp
import NaturalC.NccDeclarators

/-!
# Declarations

The declarations at the start of a function as C reads them, and the locals among them that are pointers to a
built-in type without an initialiser. `preamble_parse` finds these when each declaration of one has the type
first on its line, with a blank behind it, and nothing but stars, names and assignments between the commas.
-/
namespace Ncc

open Regex

/-! ## Declarations -/

/-- What stands in front of the declarators. -/
inductive Spec where
  /-- With the layout behind it. -/
  | word (t : Text) (l : List Bit)
  /-- The members of a structure or an enumeration. -/
  | body (b : List Bit)
  deriving DecidableEq, Repr

def chars (t : Text) : List Bit := t.map Bit.code

def Spec.bits : Spec → List Bit
  | .word t l => chars t ++ l
  | .body b => b

def specBits (specs : List Spec) : List Bit := specs.flatMap Spec.bits

structure Declarator where
  /-- The stars, with parentheses and qualifiers. -/
  before : List Bit
  name : Text
  /-- The dimensions or parameters. -/
  after : List Bit
  init : Option (List Bit)
  deriving DecidableEq, Repr

def Declarator.bits (a : Declarator) : List Bit :=
  a.before ++ (chars a.name ++ (a.after ++ match a.init with
    | none => []
    | some e => .code '=' :: e))

structure Declaration where
  /-- The layout in front. -/
  lead : List Bit
  specs : List Spec
  declarators : List Declarator
  deriving DecidableEq, Repr

def commas : List (List Bit) → List Bit
  | [] => []
  | [g] => g
  | g :: gs => g ++ .code ',' :: commas gs

/-- Without the semicolon. -/
def Declaration.inner (d : Declaration) : List Bit :=
  d.lead ++ (specBits d.specs ++ commas (d.declarators.map Declarator.bits))

/-- The start of a function up to the first blank line. -/
structure Declarations where
  decls : List Declaration
  trail : List Bit
  deriving DecidableEq, Repr

def declBits (decls : List Declaration) (trail : List Bit) : List Bit :=
  decls.foldr (fun d rest => d.inner ++ .code ';' :: rest) trail

def Declarations.bits (p : Declarations) : List Bit := declBits p.decls p.trail

def Spec.WellFormed : Spec → Prop
  | .word t l => Identifier t ∧ ∀ b ∈ l, b.isLayout = true
  | .body _ => True

structure Declaration.WellFormed (d : Declaration) : Prop where
  lead : ∀ b ∈ d.lead, b.isLayout = true
  specs : ∀ s ∈ d.specs, s.WellFormed
  names : ∀ a ∈ d.declarators, Identifier a.name

structure Declarations.WellFormed (p : Declarations) : Prop where
  lexical : Lexical p.bits
  decls : ∀ d ∈ p.decls, d.WellFormed
  trail : ∀ b ∈ p.trail, b.isLayout = true

instance (s : Spec) : Decidable s.WellFormed :=
  match s with
  | .word t l => inferInstanceAs (Decidable (Identifier t ∧ ∀ b ∈ l, b.isLayout = true))
  | .body _ => .isTrue trivial

instance (d : Declaration) : Decidable d.WellFormed :=
  decidable_of_iff ((∀ b ∈ d.lead, b.isLayout = true) ∧ (∀ s ∈ d.specs, s.WellFormed) ∧
      ∀ a ∈ d.declarators, Identifier a.name)
    ⟨fun ⟨h₁, h₂, h₃⟩ => ⟨h₁, h₂, h₃⟩, fun h => ⟨h.lead, h.specs, h.names⟩⟩

instance (p : Declarations) : Decidable p.WellFormed :=
  decidable_of_iff (Lexical p.bits ∧ (∀ d ∈ p.decls, d.WellFormed) ∧ ∀ b ∈ p.trail, b.isLayout = true)
    ⟨fun ⟨h₁, h₂, h₃⟩ => ⟨h₁, h₂, h₃⟩, fun h => ⟨h.lexical, h.decls, h.trail⟩⟩

/-! ## Locals -/

/-- Words with a tag behind them. -/
def tagWords : List Text := ["struct", "union", "enum"].map str

/-- The built-in type of a declaration. A tag is not a type. -/
def builtinType (env : Env) : Bool → List Spec → Option Text
  | _, [] => none
  | true, _ :: rest => builtinType env false rest
  | false, .body _ :: rest => builtinType env false rest
  | false, .word t _ :: rest =>
    match builtin env t with
    | some name => some name
    | none => builtinType env (tagWords.contains t) rest

/-- A type or an object from elsewhere is declared. -/
def Spec.elsewhere : Spec → Bool
  | .word t _ => (["typedef", "extern"].map str).contains t
  | .body _ => false

/-- One star, maybe in parentheses or with qualifiers, no dimensions or parameters, and no initialiser. -/
def Declarator.isPointer (a : Declarator) : Bool :=
  a.init.isNone &&
    (match a.before.filter fun b => b != .code '(' && !b.isLayout with
      | .code '*' :: rest => rest.all fun
        | .code c => isWord c
        | _ => false
      | _ => false) &&
    a.after.all fun b => b.isLayout || b == .code ')'

/-- The local that needs an object. -/
def Declarator.names (a : Declarator) : List Text := if a.isPointer then [a.name] else []

/-- The locals that are pointers to a built-in type without an initialiser, with the prefix of the type. -/
def Declaration.locals (env : Env) (d : Declaration) : List (Text × Text) :=
  if d.specs.any Spec.elsewhere then []
  else match builtinType env false d.specs with
    | none => []
    | some name => (d.declarators.flatMap Declarator.names).map fun n => (typePrefix name, n)

def Declarations.locals (env : Env) (p : Declarations) : List (Text × Text) := p.decls.flatMap (Declaration.locals env)

/-! ## What is read from a declaration -/

/-- The text of a declarator on one line, without comments. -/
def inline (bits : List Bit) : Text := flat (settled true bits)

/-- What stands between the commas, up to the first semicolon. -/
def parts (g : List Bit) : List Text := ((inline g).takeWhile (· ≠ ';')).splitOn ','

/-- A star and a name. -/
structure Declarator.Plain (a : Declarator) : Prop where
  before : a.before.filter (fun b => !b.isLayout) = [.code '*']
  after : ∀ b ∈ a.after, b.isLayout = true
  init : a.init = none

/-- Either the declarator is a star and a name, or it gets no object and has an assignment between any two commas. -/
def Declarator.Expected (pre : List Bit) (a : Declarator) : Prop :=
  pre = [] ∧ a.Plain ∨ a.isPointer = false ∧ ∀ part ∈ parts (pre ++ a.bits), '=' ∈ part

/-- The declarator gets no object, but there is something without an assignment between two commas. -/
structure Declarator.Surplus (pre : List Bit) (a : Declarator) : Prop where
  pointer : a.isPointer = false
  text : ∀ part ∈ parts (pre ++ a.bits), ¬ White part
  bare : ∃ part ∈ parts (pre ++ a.bits), '=' ∉ part

/-- The declaration as `lexer` cuts it at the semicolons. -/
def Declaration.segs (first : Bool) (d : Declaration) : List Text := (flat (settled first d.inner)).splitOn ';'

/-- No part of the declaration starts with a built-in type and a blank. -/
def Declaration.Skipped (env : Env) (first : Bool) (d : Declaration) : Prop :=
  ∀ seg ∈ d.segs first, builtin env (front seg) = none

instance (env : Env) (first : Bool) (d : Declaration) : Decidable (d.Skipped env first) :=
  inferInstanceAs (Decidable (∀ seg ∈ d.segs first, builtin env (front seg) = none))

/-- The declarators, the first one with the words between the type and it. -/
def groups (more : List Spec) (a : Declarator) (as : List Declarator) : List (List Bit) :=
  (specBits more ++ a.bits) :: as.map Declarator.bits

/-- The type stands in front, with a blank behind it, and a semicolon only in the last declarator. -/
structure Declaration.Typed (env : Env) (first : Bool) (d : Declaration) (t : Text) (l : List Bit) (more : List Spec)
    (a : Declarator) (as : List Declarator) : Prop where
  specs : d.specs = .word t l :: more
  declarators : d.declarators = a :: as
  builtin : (builtin env t).isSome = true
  storage : d.specs.any Spec.elsewhere = false
  lead : flat (settled first d.lead) = []
  blank : flat (settled false l) ≠ []
  semicolons : ∀ g ∈ (groups more a as).dropLast, ';' ∉ inline g
  behind : ∀ seg ∈ (d.segs first).tail, Ncc.builtin env (front seg) = none

/-- The declaration is read as it is: it is skipped and declares none of the locals, or its type is found, and all
declarators are as they are expected. -/
def Declaration.Expected (env : Env) (first : Bool) (d : Declaration) : Prop :=
  d.Skipped env first ∧ d.locals env = [] ∨ ∃ t l more a as, d.Typed env first t l more a as ∧
    a.Expected (specBits more) ∧ ∀ b ∈ as, b.Expected []

/-- The declaration is skipped, but declares locals. -/
def Declaration.Missed (env : Env) (first : Bool) (d : Declaration) : Prop :=
  d.Skipped env first ∧ d.locals env ≠ []

/-- Something else in the declaration is taken for a local. -/
def Declaration.Surplus (env : Env) (first : Bool) (d : Declaration) : Prop :=
  ∃ t l more a as, d.Typed env first t l more a as ∧
    (a.Expected (specBits more) ∨ a.Surplus (specBits more)) ∧ (∀ b ∈ as, b.Expected [] ∨ b.Surplus []) ∧
    (a.Surplus (specBits more) ∨ ∃ b ∈ as, b.Surplus [])

/-- All declarations have a property; the flag is for the first one. -/
def Each (P : Bool → Declaration → Prop) : Bool → List Declaration → Prop
  | _, [] => True
  | first, d :: ds => P first d ∧ Each P false ds

/-- The comments are found where they are. -/
structure Declarations.Found (p : Declarations) : Prop where
  oneLine : OneLine p.bits
  legible : Legible (layout p.bits)

/-- The declarations are read as they are. White space may stand in front of the type in the first one only. -/
structure Declarations.Expected (env : Env) (p : Declarations) : Prop where
  found : p.Found
  each : Each (Declaration.Expected env) true p.decls

/-! ## Parts of the settled text -/

theorem flat_append (bits rest : List Bit) : flat (bits ++ rest) = flat bits ++ flat rest := List.flatMap_append

theorem flat_chars (t : Text) : flat (chars t) = t := by
  induction t with
  | nil => rfl
  | cons c t ih =>
    change flat (.code c :: chars t) = c :: t
    rw [flat_cons, ih]
    rfl

/-- The text behind a part is settled on its own. -/
theorem settled_append (s : Bool) (bits : List Bit) :
    ∃ s', ∀ rest, settled s (bits ++ rest) = settled s bits ++ settled s' rest := by
  induction bits generalizing s with
  | nil => exact ⟨s, fun rest => by cases s <;> rfl⟩
  | cons b bits ih =>
    cases b with
    | gap w =>
      obtain ⟨s', h⟩ := ih false
      refine ⟨s', fun rest => ?_⟩
      rw [List.cons_append, settled, settled, h]
      split
      · rfl
      · rfl
    | line t =>
      obtain ⟨s', h⟩ := ih (decide ((dropAfter ',' false (trimEnds t)).getLast? = some ','))
      exact ⟨s', fun rest => by rw [List.cons_append, settled, settled, h]; rfl⟩
    | block t =>
      obtain ⟨s', h⟩ := ih false
      exact ⟨s', fun rest => by rw [List.cons_append, settled, settled, h]; rfl⟩
    | quoted t =>
      obtain ⟨s', h⟩ := ih false
      exact ⟨s', fun rest => by rw [List.cons_append, settled, settled, h]; rfl⟩
    | code c =>
      obtain ⟨s', h⟩ := ih (decide (c = ','))
      exact ⟨s', fun rest => by rw [List.cons_append, settled, settled, h]; rfl⟩

theorem settled_code (s : Bool) (bits : List Bit) (c : Char) (rest : List Bit) :
    settled s (bits ++ .code c :: rest) = settled s bits ++ .code c :: settled (c = ',') rest := by
  obtain ⟨s', h⟩ := settled_append s bits
  rw [h, settled]

/-- The letters of a word stay. -/
theorem settled_chars {t : Text} (ht : Identifier t) (s : Bool) (rest : List Bit) :
    settled s (chars t ++ rest) = chars t ++ settled false rest := by
  have hword := identifier_word ht
  have hne : t ≠ [] := by
    obtain ⟨c, w, rfl, -⟩ := ht
    exact List.cons_ne_nil c w
  clear ht
  induction t generalizing s with
  | nil => exact absurd rfl hne
  | cons c t ih =>
    have hc : c ≠ ',' := fun h => absurd (hword c List.mem_cons_self) (by rw [h]; decide)
    change settled s (.code c :: (chars t ++ rest)) = .code c :: (chars t ++ settled false rest)
    rw [settled, decide_eq_false hc]
    by_cases hnil : t = []
    · rw [hnil]
      rfl
    · rw [ih false (fun d hd => hword d (List.mem_cons_of_mem _ hd)) hnil]

/-- Of layout, at most blanks are left. -/
theorem flat_layout {bits : List Bit} (hlayout : ∀ b ∈ bits, b.isLayout = true) (hlex : ∀ b ∈ bits, b.Lexical)
    (s : Bool) : White (flat (settled s bits)) := by
  induction bits generalizing s with
  | nil => cases s <;> simp [settled, flat, White]
  | cons b rest ih =>
    have hrec := ih (fun d hd => hlayout d (List.mem_cons_of_mem _ hd)) fun d hd => hlex d (List.mem_cons_of_mem _ hd)
    have hb : b.Lexical := hlex b List.mem_cons_self
    cases b with
    | gap w =>
      rw [settled]
      split
      · exact hrec false
      · rw [flat_cons]
        have hgap : White (Bit.flat (.gap (if breaks w then ['\n'] else w))) := by
          split
          · rename_i hbreak
            simp [Bit.flat, breaks, White]
          · rename_i hbreak
            rw [Bit.flat, if_neg hbreak]
            exact hb.2
        exact fun c hc => (List.mem_append.mp hc).elim (hgap c) (hrec false c)
    | line t => exact hrec _
    | block t => exact hrec _
    | quoted t => exact absurd (hlayout _ List.mem_cons_self) Bool.false_ne_true
    | code c => exact absurd (hlayout _ List.mem_cons_self) Bool.false_ne_true

/-- Whether white space is left out at the start makes no other difference. -/
theorem flat_start {g : List Bit} (hlex : ∀ b ∈ g, b.Lexical) (s : Bool) :
    ∃ w, White w ∧ flat (settled s g) = w ++ inline g := by
  cases s with
  | true => exact ⟨[], by simp [White], rfl⟩
  | false =>
    by_cases hgap : ∃ w r, g = .gap w :: r
    · obtain ⟨w, r, rfl⟩ := hgap
      have hw : ∀ b ∈ [Bit.gap w], b.Lexical := by
        intro b hb
        rw [List.mem_singleton.mp hb]
        exact hlex _ List.mem_cons_self
      have hwhite : White (flat (settled false [.gap w])) := flat_layout (by simp [Bit.isLayout]) hw false
      refine ⟨_, hwhite, ?_⟩
      rw [inline, ← flat_append]
      rfl
    · push Not at hgap
      exact ⟨[], by simp [White], by rw [inline, settled_start hgap false true]; rfl⟩

/-! ## Names -/

theorem takeWhile_free {a : Char} {x : Text} (hx : a ∉ x) (z : Text) :
    (x ++ z).takeWhile (· ≠ a) = x ++ z.takeWhile (· ≠ a) := by
  apply List.takeWhile_append_of_pos
  intro c hc
  simpa using fun h : c = a => hx (h ▸ hc)

theorem takeWhile_self {a : Char} {x : Text} (hx : a ∉ x) : x.takeWhile (· ≠ a) = x := by
  have hfree := takeWhile_free hx []
  rw [List.append_nil] at hfree
  rw [hfree, List.takeWhile_nil, List.append_nil]

/-- The first text between separators. -/
theorem splitOn_first (a : Char) (t : Text) : ∃ L, t.splitOn a = t.takeWhile (· ≠ a) :: L := by
  induction t using separator_induction a with
  | single x hx => exact ⟨[], by rw [List.splitOn_eq_singleton hx, takeWhile_self hx]⟩
  | more x t hx ih =>
    refine ⟨t.splitOn a, ?_⟩
    rw [List.splitOn_append_cons_self_of_not_mem hx, takeWhile_free hx, List.takeWhile_cons, if_neg (by simp),
      List.append_nil]

theorem not_semicolon_of_white {w : Text} (hw : White w) : ';' ∉ w := fun h => absurd (hw ';' h) (by decide)

theorem not_semicolon_of_identifier {t : Text} (ht : Identifier t) : ';' ∉ t :=
  fun h => absurd (identifier_word ht ';' h) (by decide)

/-- The text of a star and a name. -/
theorem inline_plain {a : Declarator} (h : a.Plain) (hname : Identifier a.name) (hlex : ∀ b ∈ a.bits, b.Lexical) :
    ∃ u v w, inline a.bits = u ++ '*' :: (v ++ (a.name ++ w)) ∧ White u ∧ White v ∧ White w := by
  obtain ⟨b₁, b₂, hbefore, hb₁, -, hb₂⟩ := List.filter_eq_cons_iff.mp h.before
  have hbits : a.bits = b₁ ++ .code '*' :: (b₂ ++ (chars a.name ++ a.after)) := by
    rw [Declarator.bits, hbefore, h.init]
    simp
  have hl₁ : ∀ b ∈ b₁, b.isLayout = true := fun b hb => by simpa using hb₁ b hb
  have hl₂ : ∀ b ∈ b₂, b.isLayout = true := by
    intro b hb
    simpa using List.filter_eq_nil_iff.mp hb₂ b hb
  rw [hbits] at hlex
  simp only [List.mem_append, List.mem_cons] at hlex
  obtain ⟨s, hs⟩ := settled_append false b₂
  refine ⟨_, _, _, ?_, flat_layout hl₁ (fun b hb => hlex b (.inl hb)) true,
    flat_layout hl₂ (fun b hb => hlex b (.inr (.inr (.inl hb)))) false,
    flat_layout h.after (fun b hb => hlex b (.inr (.inr (.inr (.inr hb))))) false⟩
  rw [inline, hbits, settled_code, decide_eq_false (by decide), hs, settled_chars hname, flat_append, flat_cons,
    flat_append, flat_append, flat_chars]
  rfl

theorem Declarator.Plain.isPointer {a : Declarator} (h : a.Plain) : a.isPointer = true := by
  have hbefore : a.before.filter (fun b => b != .code '(' && !b.isLayout) = [.code '*'] := by
    rw [← List.filter_filter, h.before]
    rfl
  rw [Declarator.isPointer, h.init, hbefore]
  simp
  exact fun b hb => .inl (h.after b hb)

/-- The names that are read from a declarator are the locals in it. -/
theorem Declarator.Expected.gives {pre : List Bit} {a : Declarator} (h : a.Expected pre) (hname : Identifier a.name)
    (hlex : ∀ b ∈ pre ++ a.bits, b.Lexical) :
    Gives ((inline (pre ++ a.bits)).takeWhile (· ≠ ';')) a.names := by
  obtain ⟨rfl, hplain⟩ | ⟨hpointer, hassigned⟩ := h
  · obtain ⟨u, v, w, htext, hu, hv, hw⟩ := inline_plain hplain hname hlex
    have hfree : ';' ∉ u ++ '*' :: (v ++ (a.name ++ w)) := by
      simp only [List.mem_append, List.mem_cons, not_or]
      exact ⟨not_semicolon_of_white hu, by decide, not_semicolon_of_white hv, not_semicolon_of_identifier hname,
        not_semicolon_of_white hw⟩
    rw [Declarator.names, hplain.isPointer, List.nil_append, htext, takeWhile_self hfree]
    exact gives_pointer hu hv hname hw
  · rw [Declarator.names, hpointer]
    exact gives_assigned hassigned

/-- There are more names than locals. -/
theorem Declarator.Surplus.gives {pre : List Bit} {a : Declarator} (h : a.Surplus pre) :
    ∃ ns, Gives ((inline (pre ++ a.bits)).takeWhile (· ≠ ';')) ns ∧ ns ≠ [] := by
  obtain ⟨ns, hns, hnil⟩ := gives_parts h.text
  obtain ⟨part, hpart, hbare⟩ := h.bare
  exact ⟨ns, hns, fun hn => hbare (hnil hn part hpart)⟩

theorem commas_cons {g : List Bit} {gs : List (List Bit)} (hne : gs ≠ []) :
    commas (g :: gs) = g ++ .code ',' :: commas gs := by
  cases gs with
  | nil => exact absurd rfl hne
  | cons _ _ => rfl

/-- The names of a list are those of its parts. -/
theorem gives_commas {gs : List (List Bit)} {ns : List (List Text)}
    (h : List.Forall₂ (fun g ns => Gives ((inline g).takeWhile (· ≠ ';')) ns) gs ns) (hne : gs ≠ [])
    (hsemi : ∀ g ∈ gs.dropLast, ';' ∉ inline g) : Gives ((inline (commas gs)).takeWhile (· ≠ ';')) ns.flatten := by
  induction h with
  | nil => exact absurd rfl hne
  | @cons g n gs ns hg hgs ih =>
    by_cases hnil : gs = []
    · subst hnil
      cases hgs
      rw [List.flatten_singleton]
      exact hg
    · obtain ⟨g', gs', rfl⟩ := List.exists_cons_of_ne_nil hnil
      rw [List.dropLast_cons_cons] at hsemi
      have hfree : ';' ∉ inline g := hsemi g List.mem_cons_self
      have hrest := ih hnil fun d hd => hsemi d (List.mem_cons_of_mem _ hd)
      have htext : inline (commas (g :: g' :: gs')) = inline g ++ ',' :: inline (commas (g' :: gs')) := by
        rw [commas_cons (List.cons_ne_nil g' gs'), inline, settled_code, flat_append, flat_cons]
        rfl
      rw [htext, takeWhile_free hfree, List.takeWhile_cons, if_pos (by decide), List.flatten_cons]
      rw [takeWhile_self hfree] at hg
      exact gives_comma hg hrest

/-! ## Locals that are read -/

variable {env : Env} {first : Bool} {d : Declaration} {t : Text} {l : List Bit} {more : List Spec} {a : Declarator}
  {as : List Declarator}

theorem commas_front (pre g : List Bit) (gs : List (List Bit)) :
    pre ++ commas (g :: gs) = commas ((pre ++ g) :: gs) := by
  cases gs with
  | nil => rfl
  | cons h gs => rw [commas_cons (List.cons_ne_nil h gs), commas_cons (List.cons_ne_nil h gs), List.append_assoc]

theorem inner_typed (hspecs : d.specs = .word t l :: more) (hdeclarators : d.declarators = a :: as) :
    d.inner = d.lead ++ (chars t ++ (l ++ commas (groups more a as))) := by
  rw [Declaration.inner, hspecs, hdeclarators, specBits, List.flatMap_cons, Spec.bits, List.map_cons, groups,
    ← commas_front]
  simp [specBits]

/-- The text of a declaration that starts with a type. -/
theorem flat_typed (first : Bool) (ht : Identifier t) (hlex : ∀ b ∈ d.inner, b.Lexical)
    (hinner : d.inner = d.lead ++ (chars t ++ (l ++ commas (groups more a as))))
    (hlead : flat (settled first d.lead) = []) :
    ∃ w, White w ∧ flat (settled first d.inner) =
      t ++ (flat (settled false l) ++ (w ++ inline (commas (groups more a as)))) := by
  rw [hinner] at hlex
  have hgroups : ∀ b ∈ commas (groups more a as), b.Lexical := fun b hb =>
    hlex b (List.mem_append_right _ (List.mem_append_right _ (List.mem_append_right _ hb)))
  obtain ⟨s, hs⟩ := settled_append first d.lead
  obtain ⟨s', hs'⟩ := settled_append false l
  obtain ⟨w, hw, hstart⟩ := flat_start hgroups s'
  refine ⟨w, hw, ?_⟩
  rw [hinner, hs, settled_chars ht, hs', flat_append, flat_append, flat_append, flat_chars, hlead, hstart]
  rfl

theorem mem_commas {gs : List (List Bit)} {g : List Bit} (hg : g ∈ gs) {b : Bit} (hb : b ∈ g) : b ∈ commas gs := by
  induction gs with
  | nil => cases hg
  | cons h gs ih =>
    by_cases hnil : gs = []
    · subst hnil
      rw [List.mem_singleton] at hg
      exact hg ▸ hb
    · rw [commas_cons hnil, List.mem_append, List.mem_cons]
      rcases List.mem_cons.mp hg with rfl | hg
      · exact .inl hb
      · exact .inr (.inr (ih hg))

/-- The locals that are read from a declaration. -/
def Declaration.reads (env : Env) (first : Bool) (d : Declaration) : List (Text × Text) :=
  ((d.segs first).flatMap (segAutos env)).map Auto.named

theorem Declaration.Skipped.reads (h : d.Skipped env first) : d.reads env first = [] := by
  have hnone : (d.segs first).flatMap (segAutos env) = [] :=
    List.flatMap_eq_nil_iff.mpr fun seg hseg => segAutos_ignored (h seg hseg)
  rw [Declaration.reads, hnone]
  rfl

/-- The locals of a declaration whose type is found are the names that its declarators give. -/
theorem Declaration.Typed.reads (h : d.Typed env first t l more a as) (hd : d.WellFormed)
    (hlex : ∀ b ∈ d.inner, b.Lexical) {ns : List (List Text)}
    (hns : List.Forall₂ (fun g ns => Gives ((inline g).takeWhile (· ≠ ';')) ns) (groups more a as) ns) :
    ∃ name, d.reads env first = ns.flatten.map (fun n => (typePrefix name, n)) ∧
      d.locals env = ((a :: as).flatMap Declarator.names).map fun n => (typePrefix name, n) := by
  obtain ⟨name, hname⟩ := Option.isSome_iff_exists.mp h.builtin
  have hword : Identifier t ∧ ∀ b ∈ l, b.isLayout = true :=
    hd.specs (.word t l) (by rw [h.specs]; exact List.mem_cons_self)
  have hinner := inner_typed h.specs h.declarators
  obtain ⟨w, hw, htext⟩ := flat_typed first hword.1 hlex hinner h.lead
  rw [hinner] at hlex
  have hblank : White (flat (settled false l)) := flat_layout hword.2 (fun b hb =>
    hlex b (List.mem_append_right _ (List.mem_append_right _ (List.mem_append_left _ hb)))) false
  obtain ⟨L, hsegs⟩ : ∃ L, d.segs first = (flat (settled first d.inner)).takeWhile (· ≠ ';') :: L := splitOn_first ';' _
  have hbehind : L.flatMap (segAutos env) = [] := by
    apply List.flatMap_eq_nil_iff.mpr
    intro seg hseg
    exact segAutos_ignored (h.behind seg (by rw [hsegs]; exact hseg))
  have hfirst : (flat (settled first d.inner)).takeWhile (· ≠ ';') =
      t ++ (flat (settled false l) ++ (w ++ (inline (commas (groups more a as))).takeWhile (· ≠ ';'))) := by
    rw [htext, takeWhile_free (not_semicolon_of_identifier hword.1), takeWhile_free (not_semicolon_of_white hblank),
      takeWhile_free (not_semicolon_of_white hw)]
  obtain ⟨hne, hnames⟩ := gives_white hw (gives_commas hns (List.cons_ne_nil _ _) h.semicolons)
  have hfree : ∀ c ∈ t, isSpace c = false := fun c hc => isSpace_of_isWord (identifier_word hword.1 c hc)
  refine ⟨name, ?_, ?_⟩
  · rw [Declaration.reads, hsegs, List.flatMap_cons, hbehind, List.append_nil, hfirst,
      segAutos_read hfree h.blank hblank hname, named_split (squeeze_inside _) hne, hnames]
  · rw [Declaration.locals, h.storage, h.specs, builtinType, hname, h.declarators]
    rfl

/-- The names and the text of all declarators. -/
theorem mem_groups (h : d.Typed env first t l more a as) (hd : d.WellFormed) (hlex : ∀ b ∈ d.inner, b.Lexical) :
    (Identifier a.name ∧ ∀ b ∈ specBits more ++ a.bits, b.Lexical) ∧
      ∀ c ∈ as, Identifier c.name ∧ ∀ b ∈ c.bits, b.Lexical := by
  rw [inner_typed h.specs h.declarators] at hlex
  have hgroup : ∀ g ∈ groups more a as, ∀ b ∈ g, b.Lexical := fun g hg b hb =>
    hlex b (List.mem_append_right _ (List.mem_append_right _ (List.mem_append_right _ (mem_commas hg hb))))
  have hname : ∀ c ∈ a :: as, Identifier c.name := fun c hc => hd.names c (by rw [h.declarators]; exact hc)
  exact ⟨⟨hname a List.mem_cons_self, hgroup _ List.mem_cons_self⟩, fun c hc =>
    ⟨hname c (List.mem_cons_of_mem _ hc), hgroup _ (List.mem_cons_of_mem _ (List.mem_map_of_mem hc))⟩⟩

theorem gives_expected (h : ∀ b ∈ as, b.Expected []) (hrest : ∀ b ∈ as, Identifier b.name ∧ ∀ c ∈ b.bits, c.Lexical) :
    List.Forall₂ (fun g ns => Gives ((inline g).takeWhile (· ≠ ';')) ns) (as.map Declarator.bits)
      (as.map Declarator.names) := by
  induction as with
  | nil => exact .nil
  | cons b as ih =>
    obtain ⟨hname, hlex⟩ := hrest b List.mem_cons_self
    have hrec := ih (fun c hc => h c (List.mem_cons_of_mem _ hc)) fun c hc => hrest c (List.mem_cons_of_mem _ hc)
    exact .cons ((h b List.mem_cons_self).gives hname hlex) hrec

/-- What is read from a declaration is what it declares. -/
theorem Declaration.Expected.reads (h : d.Expected env first) (hd : d.WellFormed) (hlex : ∀ b ∈ d.inner, b.Lexical) :
    d.reads env first = d.locals env := by
  obtain ⟨hskip, hlocals⟩ | ⟨t, l, more, a, as, htyped, hone, hothers⟩ := h
  · rw [hskip.reads, hlocals]
  · obtain ⟨⟨hname, hbits⟩, hrest⟩ := mem_groups htyped hd hlex
    have hgives := hone.gives hname hbits
    obtain ⟨name, hreads, hlocals⟩ := htyped.reads hd hlex (.cons hgives (gives_expected hothers hrest))
    rw [hreads, hlocals, List.flatMap_cons, List.flatMap_def, List.flatten_cons]

theorem Declaration.Missed.reads (h : d.Missed env first) : (d.reads env first).length < (d.locals env).length := by
  rw [h.1.reads]
  exact List.length_pos_iff.mpr h.2

/-- At least as many names as locals, and more of them where something else is taken for one. -/
theorem gives_surplus {pre : List Bit} (h : a.Expected pre ∨ a.Surplus pre) (hname : Identifier a.name)
    (hlex : ∀ b ∈ pre ++ a.bits, b.Lexical) :
    ∃ ns, Gives ((inline (pre ++ a.bits)).takeWhile (· ≠ ';')) ns ∧
      (a.names.length ≤ ns.length ∧ (a.Surplus pre → a.names.length < ns.length)) := by
  by_cases hsurplus : a.Surplus pre
  · obtain ⟨ns, hns, hne⟩ := hsurplus.gives
    have hpos := List.length_pos_iff.mpr hne
    rw [Declarator.names, hsurplus.pointer]
    exact ⟨ns, hns, Nat.zero_le _, fun _ => hpos⟩
  · have hexpected := h.resolve_right hsurplus
    exact ⟨_, hexpected.gives hname hlex, Nat.le_refl _, fun hs => absurd hs hsurplus⟩

theorem gives_others (h : ∀ b ∈ as, b.Expected [] ∨ b.Surplus [])
    (hrest : ∀ b ∈ as, Identifier b.name ∧ ∀ c ∈ b.bits, c.Lexical) :
    ∃ nss, List.Forall₂ (fun g ns => Gives ((inline g).takeWhile (· ≠ ';')) ns) (as.map Declarator.bits) nss ∧
      ((as.flatMap Declarator.names).length ≤ nss.flatten.length ∧
        ((∃ b ∈ as, b.Surplus []) → (as.flatMap Declarator.names).length < nss.flatten.length)) := by
  induction as with
  | nil => exact ⟨[], .nil, Nat.le_refl _, fun ⟨b, hb, _⟩ => by cases hb⟩
  | cons b as ih =>
    obtain ⟨nss, hnss, hle, hlt⟩ := ih (fun c hc => h c (List.mem_cons_of_mem _ hc))
      fun c hc => hrest c (List.mem_cons_of_mem _ hc)
    obtain ⟨hname, hlex⟩ := hrest b List.mem_cons_self
    obtain ⟨ns, hns, hnle, hnlt⟩ := gives_surplus (h b List.mem_cons_self) hname hlex
    refine ⟨ns :: nss, .cons hns hnss, ?_⟩
    rw [List.flatMap_cons, List.flatten_cons, List.length_append, List.length_append]
    refine ⟨Nat.add_le_add hnle hle, ?_⟩
    rintro ⟨c, hc, hsurplus⟩
    rcases List.mem_cons.mp hc with rfl | hc
    · exact Nat.add_lt_add_of_lt_of_le (hnlt hsurplus) hle
    · exact Nat.add_lt_add_of_le_of_lt hnle (hlt ⟨c, hc, hsurplus⟩)

theorem Declaration.Surplus.reads (h : d.Surplus env first) (hd : d.WellFormed) (hlex : ∀ b ∈ d.inner, b.Lexical) :
    (d.locals env).length < (d.reads env first).length := by
  obtain ⟨t, l, more, a, as, htyped, hone, hothers, hsurplus⟩ := h
  obtain ⟨⟨hname, hbits⟩, hrest⟩ := mem_groups htyped hd hlex
  obtain ⟨ns, hns, hle, hlt⟩ := gives_surplus hone hname hbits
  obtain ⟨nss, hnss, hle', hlt'⟩ := gives_others hothers hrest
  obtain ⟨name, hreads, hlocals⟩ := htyped.reads hd hlex (.cons hns hnss)
  rw [hreads, hlocals, List.length_map, List.length_map, List.flatMap_cons, List.flatten_cons, List.length_append,
    List.length_append]
  rcases hsurplus with h | h
  · exact Nat.add_lt_add_of_lt_of_le (hlt h) hle'
  · exact Nat.add_lt_add_of_le_of_lt hle (hlt' h)

/-! ## All declarations -/

theorem Lexical.mem {bits : List Bit} (h : Lexical bits) : ∀ b ∈ bits, b.Lexical := by
  induction bits with
  | nil =>
    intro b hb
    cases hb
  | cons b rest ih => exact List.forall_mem_cons.mpr ⟨h.1, ih h.2.2⟩

theorem dropFinal_code (bits : List Bit) (c : Char) (rest : List Bit) :
    dropFinal (bits ++ .code c :: rest) = bits ++ .code c :: dropFinal rest := by
  induction bits with
  | nil => exact dropFinal_cons fun w hw => by cases hw
  | cons b bits ih =>
    have hne : bits ++ .code c :: rest ≠ [] := List.append_ne_nil_of_right_ne_nil bits (List.cons_ne_nil _ rest)
    rw [List.cons_append, dropFinal_cons fun _ _ => hne, ih]
    rfl

theorem segAutos_white {w : Text} (hw : White w) : segAutos env w = [] := by
  have hfront : front w = [] := by
    cases w with
    | nil => rfl
    | cons c w => rw [front, List.takeWhile_cons, hw c List.mem_cons_self]; rfl
  apply segAutos_ignored
  rw [hfront, builtin_nil]

/-- Only white space is left behind the last declaration. -/
theorem flat_trail {trail : List Bit} (htrail : ∀ b ∈ trail, b.isLayout = true) (hlex : ∀ b ∈ trail, b.Lexical)
    (s : Bool) : White (flat (dropFinal (settled s trail))) := by
  obtain ⟨tail, hsame, -⟩ := exists_final (settled s trail)
  have hwhite := flat_layout htrail hlex s
  rw [hsame, flat_append] at hwhite
  exact fun c hc => hwhite c (List.mem_append_left _ hc)

/-- What is read from all declarations. -/
def readAll (env : Env) : Bool → List Declaration → List (Text × Text)
  | _, [] => []
  | first, d :: ds => d.reads env first ++ readAll env false ds

/-- One declaration after the other is read. -/
theorem autos_decls {decls : List Declaration} {trail : List Bit} (hlex : ∀ b ∈ declBits decls trail, b.Lexical)
    (htrail : ∀ b ∈ trail, b.isLayout = true) (first : Bool) :
    (((flat (dropFinal (settled first (declBits decls trail)))).splitOn ';').flatMap (segAutos env)).map Auto.named =
      readAll env first decls := by
  induction decls generalizing first with
  | nil =>
    have hwhite : White (flat (dropFinal (settled first trail))) := flat_trail htrail hlex first
    change (((flat (dropFinal (settled first trail))).splitOn ';').flatMap (segAutos env)).map Auto.named = []
    rw [List.splitOn_eq_singleton (not_semicolon_of_white hwhite), List.flatMap_singleton, segAutos_white hwhite]
    rfl
  | cons d decls ih =>
    have hbits : declBits (d :: decls) trail = d.inner ++ .code ';' :: declBits decls trail := rfl
    rw [hbits] at hlex ⊢
    have hrest := ih (fun b hb => hlex b (List.mem_append_right _ (List.mem_cons_of_mem _ hb))) false
    have htext : flat (dropFinal (settled first (d.inner ++ .code ';' :: declBits decls trail))) =
        flat (settled first d.inner) ++ ';' :: flat (dropFinal (settled false (declBits decls trail))) := by
      rw [settled_code, dropFinal_code, flat_append, flat_cons]
      rfl
    rw [htext, List.splitOn_append_cons_self, List.flatMap_append, List.map_append, hrest]
    rfl

theorem autos_found {p : Declarations} (hp : p.WellFormed) (h : p.Found) :
    (preambleParse env (source p.bits)).autos.map Auto.named = readAll env true p.decls := by
  rw [autos_source hp.lexical h.oneLine h.legible]
  exact autos_decls hp.lexical.mem hp.trail true

theorem mem_declBits {decls : List Declaration} (trail : List Bit) {d : Declaration} (hd : d ∈ decls) {b : Bit}
    (hb : b ∈ d.inner) : b ∈ declBits decls trail := by
  induction decls with
  | nil => cases hd
  | cons c decls ih =>
    change b ∈ c.inner ++ .code ';' :: declBits decls trail
    rcases List.mem_cons.mp hd with rfl | hd
    · exact List.mem_append_left _ hb
    · exact List.mem_append_right _ (List.mem_cons_of_mem _ (ih hd))

/-- A declaration that can be read. -/
def Declaration.Sound (d : Declaration) : Prop := d.WellFormed ∧ ∀ b ∈ d.inner, b.Lexical

theorem Declarations.WellFormed.sound {p : Declarations} (hp : p.WellFormed) : ∀ d ∈ p.decls, d.Sound :=
  fun d hd => ⟨hp.decls d hd, fun _ hb => hp.lexical.mem _ (mem_declBits p.trail hd hb)⟩

theorem readAll_expected {ds : List Declaration} (hds : ∀ d ∈ ds, d.Sound)
    (h : Each (Declaration.Expected env) first ds) : readAll env first ds = ds.flatMap (Declaration.locals env) := by
  induction ds generalizing first with
  | nil => rfl
  | cons d ds ih =>
    obtain ⟨hwell, hlex⟩ := hds d List.mem_cons_self
    rw [readAll, h.1.reads hwell hlex, ih (fun c hc => hds c (List.mem_cons_of_mem _ hc)) h.2, List.flatMap_cons]

/-- Where declarations are missed, there is less than there should be. -/
theorem readAll_missed {ds : List Declaration} (hds : ∀ d ∈ ds, d.Sound)
    (h : Each (fun first d => d.Expected env first ∨ d.Missed env first) first ds) :
    (readAll env first ds).length ≤ (ds.flatMap (Declaration.locals env)).length ∧
      ((readAll env first ds).length = (ds.flatMap (Declaration.locals env)).length →
        Each (Declaration.Expected env) first ds) := by
  induction ds generalizing first with
  | nil => exact ⟨Nat.le_refl _, fun _ => trivial⟩
  | cons d ds ih =>
    obtain ⟨hle, heach⟩ := ih (fun c hc => hds c (List.mem_cons_of_mem _ hc)) h.2
    obtain ⟨hwell, hlex⟩ := hds d List.mem_cons_self
    rw [readAll, List.flatMap_cons, List.length_append, List.length_append]
    rcases h.1 with hexpected | hmissed
    · rw [hexpected.reads hwell hlex]
      exact ⟨by omega, fun heq => ⟨hexpected, heach (by omega)⟩⟩
    · have hlt := hmissed.reads
      exact ⟨by omega, fun heq => by omega⟩

/-- Where something else is taken for a local, there is more. -/
theorem readAll_surplus {ds : List Declaration} (hds : ∀ d ∈ ds, d.Sound)
    (h : Each (fun first d => d.Expected env first ∨ d.Surplus env first) first ds) :
    (ds.flatMap (Declaration.locals env)).length ≤ (readAll env first ds).length ∧
      ((readAll env first ds).length = (ds.flatMap (Declaration.locals env)).length →
        Each (Declaration.Expected env) first ds) := by
  induction ds generalizing first with
  | nil => exact ⟨Nat.le_refl _, fun _ => trivial⟩
  | cons d ds ih =>
    obtain ⟨hle, heach⟩ := ih (fun c hc => hds c (List.mem_cons_of_mem _ hc)) h.2
    obtain ⟨hwell, hlex⟩ := hds d List.mem_cons_self
    rw [readAll, List.flatMap_cons, List.length_append, List.length_append]
    rcases h.1 with hexpected | hsurplus
    · rw [hexpected.reads hwell hlex]
      exact ⟨by omega, fun heq => ⟨hexpected, heach (by omega)⟩⟩
    · have hlt := hsurplus.reads hwell hlex
      exact ⟨by omega, fun heq => by omega⟩

/-- Exactly the locals that are pointers to a built-in type without an initialiser get an object and lose it at the
end, each once. -/
def Declarations.Exact (env : Env) (p : Declarations) : Prop :=
  (preambleParse env (source p.bits)).autos.map Auto.named = p.locals env

instance (env : Env) (p : Declarations) : Decidable (p.Exact env) :=
  inferInstanceAs (Decidable ((preambleParse env (source p.bits)).autos.map Auto.named = p.locals env))

/-- The declarations that are read as they are give exactly the locals. Where all others are skipped, or something
else is taken for a local in each of them, there is no other way. -/
theorem preamble_exact {p : Declarations} (hp : p.WellFormed) :
    (p.Expected env → p.Exact env) ∧
      (p.Found → (Each (fun first d => d.Expected env first ∨ d.Missed env first) true p.decls ∨
          Each (fun first d => d.Expected env first ∨ d.Surplus env first) true p.decls) →
        p.Exact env → p.Expected env) := by
  constructor
  · intro h
    rw [Declarations.Exact, autos_found hp h.found]
    exact readAll_expected hp.sound h.each
  · intro hfound heach hexact
    rw [Declarations.Exact, autos_found hp hfound] at hexact
    have hlength := congrArg List.length hexact
    rcases heach with heach | heach
    · exact ⟨hfound, (readAll_missed hp.sound heach).2 hlength⟩
    · exact ⟨hfound, (readAll_surplus hp.sound heach).2 hlength⟩

/-- The built-in types alone. -/
def libraryEnv : Env := ⟨[], Tables.start.ncTypes, []⟩

def gapOf (s : String) : Bit := .gap (str s)

def starred (name : String) : Declarator := ⟨[.code '*'], str name, [], none⟩

def assigned (name : String) (e : List Bit) : Declarator :=
  ⟨[gapOf " ", .code '*'], str name, [gapOf " "], some (gapOf " " :: e)⟩

/-- Behind a comment over two lines, with a comma at the end of the first one. -/
def buffers : Declaration where
  lead := [gapOf "\t", .line (str " the buffers,"), gapOf "\n\t", .line (str " all of them"), gapOf "\n\t"]
  specs := [.word (str "string_t") [gapOf " "]]
  declarators := [starred "buf", assigned "val" (chars (str "NULL"))]

/-- With comments between the type and the star. -/
def rows : Declaration where
  lead := [gapOf "\n\t"]
  specs := [.word (str "list_t") [gapOf "\t", .block (str " kept */ /* here "), gapOf " "]]
  declarators := [starred "rows"]

/-- With a semicolon in a literal that goes over the end of a line. -/
def separator : Declaration where
  lead := [gapOf "\n\t"]
  specs := [.word (str "char") []]
  declarators := [assigned "sep" [.quoted (str "\"; \\\n\"")]]

def keptPreamble : Declarations := ⟨[buffers, rows, separator], [gapOf "\n\n"]⟩

theorem plain_starred (name : String) : (starred name).Plain := by
  constructor
  · rfl
  · intro b hb
    cases hb
  · rfl

theorem buffers_expected : buffers.Expected libraryEnv true := by
  have htyped : buffers.Typed libraryEnv true (str "string_t") [gapOf " "] [] (starred "buf")
      [assigned "val" (chars (str "NULL"))] :=
    ⟨rfl, rfl, by decide +kernel, by decide +kernel, by decide +kernel, by decide +kernel, by decide +kernel,
      by decide +kernel⟩
  have hval : (assigned "val" (chars (str "NULL"))).Expected [] := .inr ⟨by decide +kernel, by decide +kernel⟩
  refine .inr ⟨_, _, _, _, _, htyped, .inl ⟨rfl, plain_starred "buf"⟩, ?_⟩
  intro b hb
  rw [List.mem_singleton.mp hb]
  exact hval

theorem rows_expected : rows.Expected libraryEnv false := by
  have htyped : rows.Typed libraryEnv false (str "list_t")
      [gapOf "\t", .block (str " kept */ /* here "), gapOf " "] []
      (starred "rows") [] :=
    ⟨rfl, rfl, by decide +kernel, by decide +kernel, by decide +kernel, by decide +kernel, by decide +kernel,
      by decide +kernel⟩
  refine .inr ⟨_, _, _, _, _, htyped, .inl ⟨rfl, plain_starred "rows"⟩, ?_⟩
  intro b hb
  cases hb

theorem keptPreamble_expected : keptPreamble.Expected libraryEnv where
  found := ⟨by decide +kernel, by decide +kernel⟩
  each := ⟨buffers_expected, rows_expected, .inl ⟨by decide +kernel, by decide +kernel⟩, trivial⟩

theorem preamble_exact_kept :
    keptPreamble.Exact libraryEnv ∧
      keptPreamble.locals libraryEnv = [(str "str", str "buf"), (str "list", str "rows")] :=
  ⟨(preamble_exact (by decide +kernel)).1 keptPreamble_expected, by decide +kernel⟩

/-- `string_t *buf;` with a comment behind it, and `list_t *rows;` on the next line. -/
def commentPreamble : Declarations where
  decls :=
    [{ lead := [gapOf "\t"]
       specs := [.word (str "string_t") [gapOf " "]]
       declarators := [starred "buf"] },
     { lead := [gapOf "\t", .line (str " the buffer"), gapOf "\n\t"]
       specs := [.word (str "list_t") [gapOf " "]]
       declarators := [starred "rows"] }]
  trail := [gapOf "\n\n"]

/-- `string_t *buf = copy(src, len);`. -/
def callPreamble : Declarations where
  decls :=
    [{ lead := [gapOf "\t"]
       specs := [.word (str "string_t") []]
       declarators := [assigned "buf" (chars (str "copy(src,") ++ gapOf " " :: chars (str "len)"))] }]
  trail := [gapOf "\n\n"]

/-- `string_t *a = f(x, b, c = 0); string_t *b;`. -/
def cancelPreamble : Declarations where
  decls :=
    [{ lead := [gapOf "\t"]
       specs := [.word (str "string_t") []]
       declarators := [assigned "a" (chars (str "f(x,") ++ gapOf " " :: (chars (str "b,") ++ gapOf " " ::
         (chars (str "c") ++ gapOf " " :: .code '=' :: gapOf " " :: chars (str "0)"))))] },
     { lead := [gapOf " "]
       specs := [.word (str "string_t") [gapOf " "]]
       declarators := [starred "b"] }]
  trail := [gapOf "\n\n"]

-- A name in a call stands in for the local that is missed.
example : cancelPreamble.WellFormed ∧ cancelPreamble.Exact libraryEnv ∧
    ∀ d ∈ cancelPreamble.decls.tail, d.Skipped libraryEnv false ∧ d.locals libraryEnv ≠ [] := by
  decide +kernel

/-- The comment hides the second local, and the end of the call is taken for one. -/
theorem preamble_inexact :
    (commentPreamble.WellFormed ∧ ¬ commentPreamble.Exact libraryEnv ∧
      source commentPreamble.bits = str "\tstring_t *buf;\t// the buffer\n\tlist_t *rows;\n\n" ∧
      commentPreamble.locals libraryEnv = [(str "str", str "buf"), (str "list", str "rows")] ∧
      (preambleParse libraryEnv (source commentPreamble.bits)).autos = [⟨str "str", str "buf"⟩]) ∧
    (callPreamble.WellFormed ∧ ¬ callPreamble.Exact libraryEnv ∧
      source callPreamble.bits = str "\tstring_t *buf = copy(src, len);\n\n" ∧
      callPreamble.locals libraryEnv = [] ∧
      (preambleParse libraryEnv (source callPreamble.bits)).autos = [⟨str "str", str "len)"⟩]) := by
  decide +kernel

end Ncc
