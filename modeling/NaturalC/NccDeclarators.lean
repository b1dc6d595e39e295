import Mathlib.Data.List.Induction
import NaturalC.NccLayout

/-!
# Declarators

`preamble_parse` reads a declaration from its text on one line: the type is in front of the first blank, and
each comma ends an identifier. An identifier with an `=` in it gets no object.
-/
namespace Ncc

open Regex

variable {env : Env} {prev : Option Char} {c : Char} {x z : Text}

/-! ## Splitting at one character -/

theorem run_char_nil {s : String} (hs : s.toList = [c]) {t : Text} (ht : t.head? ≠ some c) :
    run (lit s) ⟨prev, t, []⟩ = [] := by
  cases t with
  | nil => exact run_lit_nil hs
  | cons d t => exact run_lit_ne hs fun hd => ht (by rw [hd]; rfl)

theorem searchFrom_char {s : String} (hs : s.toList = [c]) (hx : c ∉ x) (z : Text) :
    searchFrom (lit s) prev (x ++ c :: z) = some ⟨x, [c], z, []⟩ := by
  induction x generalizing prev with
  | nil =>
    have hrun : run (lit s) ⟨prev, c :: z, []⟩ = [⟨some c, z, []⟩] := by
      rw [show c :: z = s.toList ++ z by rw [hs]; rfl, run_lit s z, hs]
      rfl
    rw [List.nil_append, searchFrom, hrun]
    simp
  | cons d x ih =>
    have hd : (d :: (x ++ c :: z)).head? ≠ some c := fun h => hx (by rw [← Option.some.inj h]; exact List.mem_cons_self)
    rw [List.cons_append, searchFrom, run_char_nil hs hd, ih fun h => hx (List.mem_cons_of_mem _ h)]
    rfl

theorem searchFrom_no_char {s : String} (hs : s.toList = [c]) (hx : c ∉ x) : searchFrom (lit s) prev x = none := by
  induction x generalizing prev with
  | nil => rw [searchFrom, run_lit_nil hs]
  | cons d x ih =>
    have hd : (d :: x).head? ≠ some c := fun h => hx (by rw [← Option.some.inj h]; exact List.mem_cons_self)
    rw [searchFrom, run_char_nil hs hd, ih fun h => hx (List.mem_cons_of_mem _ h)]
    rfl

theorem test_char {s : String} (hs : s.toList = [c]) (t : Text) : test (lit s) t = t.contains c := by
  by_cases ht : c ∈ t
  · obtain ⟨x, z, rfl, hx⟩ := List.eq_append_cons_of_mem ht
    rw [test, search, searchFrom_char hs hx]
    simp
  · rw [test, search, searchFrom_no_char hs ht]
    simpa using ht

theorem fields_char {s : String} (hs : s.toList = [c]) {n : Nat} {t : Text} (hn : t.length ≤ n) :
    fields (lit s) n t = t.splitOn c := by
  induction n generalizing t with
  | zero =>
    obtain rfl : t = [] := List.length_eq_zero_iff.mp (Nat.le_zero.mp hn)
    rfl
  | succ n ih =>
    by_cases ht : c ∈ t
    · obtain ⟨x, z, rfl, hx⟩ := List.eq_append_cons_of_mem ht
      rw [List.length_append, List.length_cons] at hn
      rw [fields, search, searchFrom_char hs hx, List.splitOn_append_cons_self_of_not_mem hx]
      simp only [List.cons_ne_nil, if_false, ih (t := z) (by omega)]
    · rw [fields, search, searchFrom_no_char hs ht, List.splitOn_eq_singleton ht]

/-- What is in front of a character that ends nothing else. -/
theorem split2_char {s : String} (hs : s.toList = [c]) (hx : c ∉ x) (z : Text) :
    split2 (lit s) (x ++ c :: z) = [x, z] := by
  have hne : x ++ c :: z ≠ [] := List.append_ne_nil_of_right_ne_nil x (List.cons_ne_nil c z)
  rw [split2, if_neg hne, fields, search, searchFrom_char hs hx]
  simp [fields]

theorem split2_no_char {s : String} (hs : s.toList = [c]) (hx : c ∉ x) (hne : x ≠ []) : split2 (lit s) x = [x] := by
  rw [split2, if_neg hne, fields, search, searchFrom_no_char hs hx]

/-- Empty fields at the end do not matter to what makes nothing of them. -/
theorem flatMap_split {α : Type} {f : Text → List α} (hf : f [] = []) (r : Rx) (t : Text) :
    (split r t).flatMap f = (fields r t.length t).flatMap f := by
  rw [split]
  generalize fields r t.length t = L
  induction L using List.reverseRecOn with
  | nil => rfl
  | append_singleton L x ih =>
    rw [List.reverse_append, List.reverse_singleton, List.singleton_append, List.dropWhile_cons]
    split
    · rename_i hx
      rw [decide_eq_true_eq] at hx
      rw [ih, hx, List.flatMap_append, List.flatMap_singleton, hf, List.append_nil]
    · rw [List.reverse_cons, List.reverse_reverse]

/-! ## The locals of a line -/

/-- The type, and what is declared with it. -/
def splitType (line : Text) : Text × Text :=
  match split2 (lit " ") line with
  | [] => ([], [])
  | [type] => (type, [])
  | type :: ids :: _ => (type, ids)

/-- The built-in type with that name. -/
def builtin (env : Env) (type : Text) : Option Text := env.types.find? fun name => name ++ str "_t" = type

/-- The local that an identifier stands for. -/
def autoOf (pfx id : Text) : List Auto := if id.contains '=' then [] else [⟨pfx, id.dropWhile (· = '*')⟩]

def lineAutos (env : Env) (line : Text) : List Auto :=
  match builtin env (splitType line).1 with
  | none => []
  | some name => (split commaRx (splitType line).2).flatMap (autoOf (typePrefix name))

theorem run_star_lit (s : At) : run (.star true (lit "*")) s = run (.star true (.cls (· = '*'))) s := by
  have hlit : run (lit "*") = run (.cls (· = '*')) := by
    funext s
    have hcopy : run .eps = fun s : At => [s] := by
      funext s
      rfl
    change (run (.cls (· = '*')) s).flatMap (run .eps) = _
    rw [hcopy, List.flatMap_singleton']
  rw [run, run, hlit]

theorem exists_stars (t : Text) : ∃ w x, t = w ++ x ∧ (∀ c ∈ w, decide (c = '*') = true) ∧
    (∀ c ∈ x.head?, decide (c = '*') = false) ∧ t.dropWhile (· = '*') = x := by
  induction t with
  | nil => exact ⟨[], [], rfl, by simp, by simp, rfl⟩
  | cons c t ih =>
    by_cases hc : c = '*'
    · obtain ⟨w, x, rfl, hw, hx, hdrop⟩ := ih
      exact ⟨c :: w, x, rfl, List.forall_mem_cons.mpr ⟨by simpa using hc, hw⟩, hx, by
        rw [List.dropWhile_cons, if_pos (by simpa using hc), hdrop]⟩
    · exact ⟨[], c :: t, rfl, by simp, by simpa using hc, by rw [List.dropWhile_cons, if_neg (by simpa using hc)]⟩

/-- The stars in front of an identifier are taken off. -/
theorem search_stars (id : Text) :
    (match search (all [.bol false, lit "*", .star true (lit "*")]) id with
      | some m => m.post
      | none => id) = id.dropWhile (· = '*') := by
  obtain ⟨w, x, rfl, hw, hx, hdrop⟩ := exists_stars id
  rw [hdrop, all, search_bol]
  cases w with
  | nil =>
    have hnone : run (all [lit "*", .star true (lit "*")]) ⟨none, [] ++ x, []⟩ = [] := by
      rw [all, run, List.nil_append, run_char_nil (c := '*') rfl]
      · rfl
      · intro hstar
        exact absurd (hx '*' hstar) (by decide)
    rw [hnone]
    rfl
  | cons c w =>
    obtain rfl : c = '*' := by simpa using hw c List.mem_cons_self
    have hstars : (run (.star true (lit "*")) ⟨some '*', w ++ x, []⟩).head? = some ⟨lastOf (some '*') w, x, []⟩ := by
      rw [run_star_lit]
      exact head?_star (fun c hc => hw c (List.mem_cons_of_mem _ hc)) hx
    have hmatch : (run (all [lit "*", .star true (lit "*")]) ⟨none, '*' :: w ++ x, []⟩).head? =
        some ⟨lastOf (some '*') w, x, []⟩ :=
      head?_seq (congrArg List.head? (run_lit "*" (w ++ x))) (head?_seq hstars rfl)
    rw [hmatch]
    rfl

theorem contains_dropWhile (id : Text) : (id.dropWhile (· = '*')).contains '=' = id.contains '=' := by
  obtain ⟨w, x, rfl, hw, -, hdrop⟩ := exists_stars id
  have hno : '=' ∉ w := fun h => absurd (hw '=' h) (by decide)
  rw [hdrop, Bool.eq_iff_iff, List.contains_iff_mem, List.contains_iff_mem, List.mem_append]
  exact ⟨Or.inr, fun h => h.resolve_left hno⟩

theorem autos_declare (type pfx : Text) (p : Preamble) (id : Text) :
    (declare type pfx p id).autos = p.autos ++ autoOf pfx id := by
  have hid := search_stars id
  rw [autoOf, ← contains_dropWhile, declare]
  cases hm : search (all [.bol false, lit "*", .star true (lit "*")]) id with
  | none =>
    rw [hm] at hid
    simp only at hid ⊢
    rw [← hid, test_char (c := '=') rfl]
    split
    · exact (List.append_nil _).symm
    · rfl
  | some m =>
    rw [hm] at hid
    simp only at hid ⊢
    rw [← hid, test_char (c := '=') rfl]
    split
    · exact (List.append_nil _).symm
    · rfl

theorem foldl_autos {α : Type} {f : Preamble → α → Preamble} {g : α → List Auto}
    (hstep : ∀ p a, (f p a).autos = p.autos ++ g a) (l : List α) (p : Preamble) :
    (l.foldl f p).autos = p.autos ++ l.flatMap g := by
  induction l generalizing p with
  | nil => exact (List.append_nil _).symm
  | cons a l ih => rw [List.foldl_cons, ih, hstep, List.append_assoc, List.flatMap_cons]

/-- The locals that get an object are those of the lines. -/
theorem autos_preambleParse (env : Env) (raw : Text) :
    (preambleParse env raw).autos = (lexer raw).flatMap (lineAutos env) := by
  have hids : ∀ p type ids, (match builtin env type with
      | none => p
      | some name => (split commaRx ids).foldl (declare type (typePrefix name)) p).autos =
      p.autos ++ (match builtin env type with
        | none => []
        | some name => (split commaRx ids).flatMap (autoOf (typePrefix name))) := by
    intro p type ids
    cases builtin env type with
    | none => exact (List.append_nil _).symm
    | some name => exact foldl_autos (autos_declare type (typePrefix name)) _ p
  rw [preambleParse, foldl_autos (g := lineAutos env)]
  · exact List.nil_append _
  · intro p line
    exact hids p (splitType line).1 (splitType line).2

/-! ## Statements -/

/-- The text between semicolons, as a line. -/
def segAutos (env : Env) (seg : Text) : List Auto := lineAutos env (squeeze false seg)

theorem splitOn_squeeze {a : Char} (ha : isSpace a = false) (t : Text) :
    (squeeze false t).splitOn a = (t.splitOn a).map (squeeze false) := by
  have hfree : ∀ x : Text, a ∉ x → a ∉ squeeze false x := fun x hx h => hx ((mem_squeeze ha).mp h)
  induction t using separator_induction a with
  | single x hx =>
    rw [List.splitOn_eq_singleton hx, List.splitOn_eq_singleton (hfree x hx), List.map_singleton]
  | more x t hx ih =>
    rw [squeeze_at ha, List.splitOn_append_cons_self_of_not_mem (hfree x hx), ih,
      List.splitOn_append_cons_self_of_not_mem hx, List.map_cons]

theorem builtin_nil (env : Env) : builtin env [] = none := by
  apply List.find?_eq_none.mpr
  intro name _ h
  exact List.append_ne_nil_of_right_ne_nil name (by decide) (of_decide_eq_true h)

theorem lineAutos_nil (env : Env) : lineAutos env [] = [] := by
  have hnone : builtin env (splitType []).1 = none := builtin_nil env
  rw [lineAutos, hnone]

/-- The locals of a text whose comments can be found, statement by statement. -/
theorem autos_source {bits : List Bit} (h : Lexical bits) (hone : OneLine bits) (hlegible : Legible (layout bits)) :
    (preambleParse env (source bits)).autos = ((flat (layout bits)).splitOn ';').flatMap (segAutos env) := by
  rw [autos_preambleParse, lexer_source h hone hlegible, flatMap_split (lineAutos_nil env),
    fields_char (c := ';') rfl (Nat.le_refl _), splitOn_squeeze rfl, List.flatMap_map]
  rfl

/-- In front of the first blank. -/
def front (seg : Text) : Text := seg.takeWhile fun c => !isSpace c

theorem exists_front (seg : Text) : ∃ z, seg = front seg ++ z ∧ (∀ c ∈ front seg, isSpace c = false) ∧
    ∀ c ∈ z.head?, isSpace c = true := by
  induction seg with
  | nil => exact ⟨[], rfl, by simp [front], by simp⟩
  | cons c t ih =>
    obtain ⟨z, hz, hfront, hhead⟩ := ih
    cases hc : isSpace c with
    | false =>
      have hcons : front (c :: t) = c :: front t := by
        rw [front, List.takeWhile_cons, hc]
        rfl
      rw [hcons]
      exact ⟨z, by rw [List.cons_append, ← hz], List.forall_mem_cons.mpr ⟨hc, hfront⟩, hhead⟩
    | true =>
      have hnil : front (c :: t) = [] := by
        rw [front, List.takeWhile_cons, hc]
        rfl
      rw [hnil]
      exact ⟨c :: t, rfl, by simp, by simpa using hc⟩

/-- A type with a blank behind it. -/
theorem splitType_squeeze {t u : Text} (ht : ∀ c ∈ t, isSpace c = false) (hne : u ≠ []) (hu : White u) (z : Text) :
    splitType (squeeze false (t ++ (u ++ z))) = (t, squeeze true z) := by
  obtain ⟨c, u, rfl⟩ := List.exists_cons_of_ne_nil hne
  have hblank : ' ' ∉ t := fun h => absurd (ht ' ' h) (by decide)
  have hu' : White u := fun d hd => hu d (List.mem_cons_of_mem _ hd)
  rw [squeeze_word ht, List.cons_append, squeeze, if_pos (hu c List.mem_cons_self), if_neg (by decide),
    squeeze_space hu', splitType, split2_char rfl hblank]

theorem splitType_front (seg : Text) : (splitType (squeeze false seg)).1 = front seg := by
  obtain ⟨z, hz, hfront, hhead⟩ := exists_front seg
  cases z with
  | nil =>
    have hblank : ' ' ∉ front seg := fun h => absurd (hfront ' ' h) (by decide)
    have hsame : squeeze false seg = front seg := by
      have hword := squeeze_word hfront []
      rw [← hz] at hword
      rw [hword, squeeze, List.append_nil]
    rw [hsame, splitType]
    by_cases hne : front seg = []
    · rw [hne]
      rfl
    · rw [split2_no_char rfl hblank hne]
  | cons c z =>
    have hc : White [c] := by
      intro d hd
      rw [List.mem_singleton] at hd
      exact hd ▸ hhead c rfl
    have htype := splitType_squeeze hfront (List.cons_ne_nil c []) hc z
    rw [List.singleton_append, ← hz] at htype
    rw [htype]

/-- Nothing is read where no built-in type stands in front of a blank. -/
theorem segAutos_ignored {seg : Text} (h : builtin env (front seg) = none) : segAutos env seg = [] := by
  rw [segAutos, lineAutos, splitType_front, h]

theorem segAutos_read {t u name : Text} (ht : ∀ c ∈ t, isSpace c = false) (hne : u ≠ []) (hu : White u)
    (hname : builtin env t = some name) (z : Text) :
    segAutos env (t ++ (u ++ z)) = (split commaRx (squeeze true z)).flatMap (autoOf (typePrefix name)) := by
  rw [segAutos, lineAutos, splitType_squeeze ht hne hu]
  simp only [hname]

/-! ## Identifiers -/

/-- The name that is read from a text between commas. -/
def namesOf (p : Text) : List Text := if p.contains '=' then [] else [trim (p.dropWhile (· = '*'))]

/-- The text between two commas may have white space at its end, if it is the last one. -/
theorem fields_pieces {t : Text} (ht : ∀ c ∈ t.head?, isSpace c = false) {n : Nat} (hn : t.length ≤ n) :
    List.Forall₂ (fun f p => ∃ w, White w ∧ f = p ++ w) (fields commaRx n t) (pieces t) := by
  induction hm : t.length using Nat.strongRecOn generalizing t n with
  | ind m ih =>
    by_cases hmem : ',' ∈ t
    · obtain ⟨y, t', rfl, hy⟩ := List.eq_append_cons_of_mem hmem
      obtain ⟨x, u, rfl, hu, hx⟩ := exists_white_end y
      obtain ⟨v, z, rfl, hv, hz⟩ := exists_white_start t'
      have hcomma : ',' ∉ x := fun h => hy (List.mem_append_left u h)
      have hpre : ∀ c ∈ (x ++ u).head?, isSpace c = false := by
        intro c hc
        apply ht
        rw [List.head?_append, hc]
        rfl
      have hlen : z.length < m := by
        rw [← hm]
        simp only [List.length_append, List.length_cons]
        omega
      cases n with
      | zero => omega
      | succ n =>
        have hrest := ih z.length hlen hz (n := n) (by omega) rfl
        rw [fields_first hcomma hx hu hv hz, pieces_comma, pieces_single hy, trim_start hpre hx hu, pieces_white hv]
        exact .cons ⟨[], by simp [White], (List.append_nil x).symm⟩ hrest
    · obtain ⟨x, w, rfl, hw, hx⟩ := exists_white_end t
      rw [fields_no_comma hmem, pieces_single hmem, trim_start ht hx hw]
      exact .cons ⟨w, hw, rfl⟩ .nil

/-- Fields that are not empty are all kept. -/
theorem split_of_ne_nil {r : Rx} {t : Text} (h : ∀ f ∈ fields r t.length t, f ≠ []) :
    split r t = fields r t.length t := by
  rw [split]
  generalize fields r t.length t = L at h
  induction L using List.reverseRecOn with
  | nil => rfl
  | append_singleton L x _ =>
    have hx : x ≠ [] := h x (by simp)
    rw [List.reverse_append, List.reverse_singleton, List.singleton_append, List.dropWhile_cons,
      if_neg (by simpa using hx), List.reverse_cons, List.reverse_reverse]

theorem dropWhile_stars {w : Text} (hw : White w) (p : Text) :
    (p ++ w).dropWhile (· = '*') = p.dropWhile (· = '*') ++ w := by
  induction p with
  | nil =>
    cases w with
    | nil => rfl
    | cons c w =>
      have hc : c ≠ '*' := fun h => absurd (hw c List.mem_cons_self) (by rw [h]; decide)
      rw [List.nil_append, List.dropWhile_cons, if_neg (by simpa using hc)]
      rfl
  | cons c p ih =>
    rw [List.cons_append, List.dropWhile_cons, List.dropWhile_cons, ih]
    split
    · rfl
    · rfl

/-- A local as C names it. -/
def Auto.named (a : Auto) : Text × Text := (a.pfx, trim a.id)

theorem named_autoOf {w : Text} (hw : White w) (pfx p : Text) :
    (autoOf pfx (p ++ w)).map Auto.named = (namesOf p).map fun n => (pfx, n) := by
  have hno : '=' ∉ w := fun h => absurd (hw '=' h) (by decide)
  have hcontains : (p ++ w).contains '=' = p.contains '=' := by
    rw [Bool.eq_iff_iff, List.contains_iff_mem, List.contains_iff_mem, List.mem_append]
    exact ⟨fun h => h.resolve_right hno, Or.inl⟩
  have htrim : trim (p.dropWhile (· = '*') ++ w) = trim (p.dropWhile (· = '*')) := by
    simpa using trim_around (u := []) (t := p.dropWhile (· = '*')) (by simp [White]) hw
  rw [autoOf, namesOf, hcontains, dropWhile_stars hw]
  split
  · rfl
  · rw [List.map_singleton, List.map_singleton, Auto.named, htrim]

/-- The names that are read from a text, when there is something between any two commas. -/
theorem named_split {t : Text} (ht : ∀ c ∈ t.head?, isSpace c = false) (hp : ∀ p ∈ pieces t, p ≠ []) (pfx : Text) :
    ((split commaRx t).flatMap (autoOf pfx)).map Auto.named = ((pieces t).flatMap namesOf).map fun n => (pfx, n) := by
  have hfields := fields_pieces ht (Nat.le_refl t.length)
  have hall : ∀ f ∈ fields commaRx t.length t, f ≠ [] := by
    generalize fields commaRx t.length t = fs at hfields
    generalize pieces t = ps at hfields hp
    induction hfields with
    | nil => exact fun f hf => by cases hf
    | cons hfp _ ih =>
      obtain ⟨w, -, rfl⟩ := hfp
      refine List.forall_mem_cons.mpr ⟨?_, ih fun p hm => hp p (List.mem_cons_of_mem _ hm)⟩
      exact List.append_ne_nil_of_left_ne_nil (hp _ List.mem_cons_self) w
  rw [split_of_ne_nil hall]
  clear hall hp
  generalize fields commaRx t.length t = fs at hfields
  generalize pieces t = ps at hfields
  induction hfields with
  | nil => rfl
  | cons hfp _ ih =>
    obtain ⟨w, hw, rfl⟩ := hfp
    rw [List.flatMap_cons, List.flatMap_cons, List.map_append, List.map_append, named_autoOf hw, ih]

/-- White space in front of a text makes no difference to its pieces. -/
theorem pieces_squeeze {w : Text} (hw : White w) (s s' : Bool) (x : Text) :
    pieces (squeeze s (w ++ x)) = pieces (squeeze s' x) := by
  obtain ⟨u, y, rfl, hu, hy⟩ := exists_white_start x
  have hsame : ∀ s v, White v → pieces (squeeze s (v ++ y)) = pieces (squeeze false y) := by
    intro s v hv
    obtain ⟨a, ha⟩ := squeeze_append s v y
    rw [ha, squeeze_start hy a false, pieces_white (squeeze_white hv s)]
  have hboth : White (w ++ u) := fun c hc => (List.mem_append.mp hc).elim (hw c) (hu c)
  rw [← List.append_assoc, hsame s (w ++ u) hboth, hsame s' u hu]

/-- The names that are read from a text. -/
def Gives (x : Text) (names : List Text) : Prop :=
  (∀ p ∈ pieces (squeeze true x), p ≠ []) ∧ (pieces (squeeze true x)).flatMap namesOf = names

theorem gives_white {w x : Text} {names : List Text} (hw : White w) (h : Gives x names) : Gives (w ++ x) names := by
  rw [Gives, pieces_squeeze hw true true]
  exact h

theorem gives_comma {x y : Text} {ns ms : List Text} (hx : Gives x ns) (hy : Gives y ms) :
    Gives (x ++ ',' :: y) (ns ++ ms) := by
  obtain ⟨hxne, hxnames⟩ := hx
  obtain ⟨hyne, hynames⟩ := hy
  have hpieces : pieces (squeeze true (x ++ ',' :: y)) = pieces (squeeze true x) ++ pieces (squeeze true y) := by
    have hstart := pieces_squeeze (w := []) (by simp [White]) false true y
    rw [List.nil_append] at hstart
    rw [squeeze_at rfl, pieces_comma, hstart]
  rw [Gives, hpieces, List.flatMap_append, hxnames, hynames]
  exact ⟨fun p hp => (List.mem_append.mp hp).elim (hxne p) (hyne p), rfl⟩

theorem identifier_word {name : Text} (h : Identifier name) : ∀ c ∈ name, isWord c = true := by
  obtain ⟨c, w, rfl, hc, hw⟩ := h
  exact List.forall_mem_cons.mpr ⟨isWord_of_isWordStart hc, hw⟩

/-- Nothing is taken off a text that does not start with a star. -/
theorem dropWhile_no_stars {t : Text} (ht : ∀ c ∈ t.head?, c ≠ '*') : t.dropWhile (· = '*') = t := by
  cases t with
  | nil => rfl
  | cons c t => rw [List.dropWhile_cons, if_neg (by simpa using ht c rfl)]

theorem namesOf_pointer {v name : Text} (hv : White v) (hname : Identifier name) :
    namesOf ('*' :: (v ++ name)) = [name] := by
  have hequals : ('*' :: (v ++ name)).contains '=' = false := by
    rw [← Bool.not_eq_true, List.contains_iff_mem]
    simp only [List.mem_cons, List.mem_append, not_or]
    exact ⟨by decide, fun h => absurd (hv '=' h) (by decide), fun h => absurd (identifier_word hname '=' h) (by decide)⟩
  have hstart : ∀ c ∈ (v ++ name).head?, c ≠ '*' := by
    rintro c hc rfl
    rcases List.mem_append.mp (List.mem_of_mem_head? hc) with h | h
    · exact absurd (hv '*' h) (by decide)
    · exact absurd (identifier_word hname '*' h) (by decide)
  have hlocal : trim (v ++ name) = name := by
    simpa using trim_eq (v := []) hv (plain_identifier hname).2 (by simp [White])
  have hstars : ('*' :: (v ++ name)).dropWhile (· = '*') = v ++ name := by
    rw [List.dropWhile_cons, if_pos (by decide), dropWhile_no_stars hstart]
  rw [namesOf, hequals, hstars, hlocal]
  rfl

theorem trimmed_pointer {name : Text} (v : Text) (hname : Identifier name) : Trimmed ('*' :: (v ++ name)) := by
  refine ⟨fun c hc => ?_, fun c hc => ?_⟩
  · cases hc
    rfl
  · have hne : name ≠ [] := by
      obtain ⟨d, n, rfl, -⟩ := hname
      exact List.cons_ne_nil d n
    have hlast : ('*' :: (v ++ name)).getLast? = name.getLast? := by
      rw [← List.cons_append, List.getLast?_append, List.getLast?_eq_some_getLast hne]
      rfl
    exact (plain_identifier hname).2.2 c (hlast ▸ hc)

/-- A pointer. -/
theorem gives_pointer {u v w name : Text} (hu : White u) (hv : White v) (hname : Identifier name) (hw : White w) :
    Gives (u ++ '*' :: (v ++ (name ++ w))) [name] := by
  apply gives_white hu
  obtain ⟨a, ha⟩ := squeeze_append false v (name ++ w)
  have hfree : ∀ c ∈ name, isSpace c = false := fun c hc => isSpace_of_isWord (identifier_word hname c hc)
  have htext : squeeze true ('*' :: (v ++ (name ++ w))) = '*' :: (squeeze false v ++ name) ++ squeeze false w := by
    rw [squeeze_char rfl, ha, squeeze_start (head?_identifier hname) a false, squeeze_word hfree]
    simp
  have hv' : White (squeeze false v) := squeeze_white hv false
  have hw' : White (squeeze false w) := squeeze_white hw false
  have hcomma : ',' ∉ '*' :: (squeeze false v ++ name) ++ squeeze false w := by
    simp only [List.cons_append, List.mem_cons, List.mem_append, not_or]
    exact ⟨by decide, ⟨not_comma_of_white hv', (plain_identifier hname).1⟩, not_comma_of_white hw'⟩
  have hpiece : pieces (squeeze true ('*' :: (v ++ (name ++ w)))) = ['*' :: (squeeze false v ++ name)] := by
    have htrim := trim_eq (u := []) (by simp [White]) (trimmed_pointer (squeeze false v) hname) hw'
    rw [htext, pieces_single hcomma]
    exact congrArg (fun x => [x]) htrim
  rw [Gives, hpiece, List.flatMap_singleton, namesOf_pointer hv' hname]
  refine ⟨fun p hp => ?_, rfl⟩
  rw [List.mem_singleton] at hp
  exact hp ▸ List.cons_ne_nil _ _

theorem mem_trim {c : Char} (hc : isSpace c = false) {t : Text} (h : c ∈ t) : c ∈ trim t := by
  obtain ⟨u, v, hu, hv, -, hsame⟩ := exists_trim t
  rw [hsame] at h
  rcases List.mem_append.mp h with h | h
  · exact absurd (hu c h) (by rw [hc]; decide)
  · rcases List.mem_append.mp h with h | h
    · exact h
    · exact absurd (hv c h) (by rw [hc]; decide)

theorem gives_equals {x : Text} (hx : ',' ∉ x) (h : '=' ∈ x) : Gives x [] := by
  have hmem : '=' ∈ trim (squeeze true x) := mem_trim rfl ((mem_squeeze rfl).mpr h)
  have hcomma : ',' ∉ squeeze true x := fun hc => hx ((mem_squeeze rfl).mp hc)
  rw [Gives, pieces_single hcomma, List.flatMap_singleton, namesOf, List.contains_iff_mem.mpr hmem]
  refine ⟨fun p hp => ?_, rfl⟩
  rw [List.mem_singleton] at hp
  exact hp ▸ List.ne_nil_of_mem hmem

/-- An assignment between any two commas. -/
theorem gives_assigned {x : Text} (h : ∀ part ∈ x.splitOn ',', '=' ∈ part) : Gives x [] := by
  induction x using separator_induction ',' with
  | single x hx =>
    rw [List.splitOn_eq_singleton hx] at h
    exact gives_equals hx (h x List.mem_cons_self)
  | more x t hx ih =>
    rw [List.splitOn_append_cons_self_of_not_mem hx] at h
    exact gives_comma (gives_equals hx (h x List.mem_cons_self))
      (ih fun part hp => h part (List.mem_cons_of_mem _ hp))

theorem mem_of_mem_trim {c : Char} {t : Text} (h : c ∈ trim t) : c ∈ t := by
  obtain ⟨u, v, -, -, -, hsame⟩ := exists_trim t
  rw [hsame]
  exact List.mem_append_right u (List.mem_append_left v h)

/-- A text without an assignment gives a name. -/
theorem gives_part {x : Text} (hx : ',' ∉ x) (h : ¬ White x) : ∃ ns, Gives x ns ∧ (ns = [] → '=' ∈ x) := by
  have hcomma : ',' ∉ squeeze true x := fun hc => hx ((mem_squeeze rfl).mp hc)
  obtain ⟨c, hc, hspace⟩ : ∃ c ∈ x, isSpace c = false := by
    by_contra hno
    push Not at hno
    exact h fun c hc => Bool.not_eq_false _ ▸ hno c hc
  refine ⟨namesOf (trim (squeeze true x)), ?_, fun hnil => ?_⟩
  · rw [Gives, pieces_single hcomma, List.flatMap_singleton]
    refine ⟨fun p hp => ?_, rfl⟩
    rw [List.mem_singleton] at hp
    exact hp ▸ List.ne_nil_of_mem (mem_trim hspace ((mem_squeeze hspace).mpr hc))
  · rw [namesOf] at hnil
    split at hnil
    · rename_i hequals
      exact (mem_squeeze rfl).mp (mem_of_mem_trim (List.contains_iff_mem.mp hequals))
    · cases hnil

theorem gives_parts {x : Text} (h : ∀ part ∈ x.splitOn ',', ¬ White part) :
    ∃ ns, Gives x ns ∧ (ns = [] → ∀ part ∈ x.splitOn ',', '=' ∈ part) := by
  induction x using separator_induction ',' with
  | single x hx =>
    rw [List.splitOn_eq_singleton hx] at h ⊢
    obtain ⟨ns, hns, hnil⟩ := gives_part hx (h x List.mem_cons_self)
    exact ⟨ns, hns, fun hn part hpart => by rw [List.mem_singleton.mp hpart]; exact hnil hn⟩
  | more x t hx ih =>
    rw [List.splitOn_append_cons_self_of_not_mem hx] at h ⊢
    obtain ⟨ns, hns, hnil⟩ := gives_part hx (h x List.mem_cons_self)
    obtain ⟨ms, hms, hmil⟩ := ih fun part hpart => h part (List.mem_cons_of_mem _ hpart)
    refine ⟨ns ++ ms, gives_comma hns hms, fun happend => ?_⟩
    obtain ⟨hn, hm⟩ := List.append_eq_nil_iff.mp happend
    exact List.forall_mem_cons.mpr ⟨hnil hn, hmil hm⟩

end Ncc
