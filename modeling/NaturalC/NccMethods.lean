import NaturalC.Ncc

/-!
# Method calls

`method_invoke` takes the text between the parentheses apart at its commas, whatever they
belong to, puts the object between two of the pieces and joins them again. So a comma
inside of an argument counts as one between arguments, and the white space around it
is lost.
-/
namespace Ncc

open Regex

/-! ## The parts of the line -/

variable {prev : Option Char} {caps : List (Nat × Text)}

theorem run_chars (w t : Text) :
    run (w.foldr (fun c r => .seq (.cls (· = c)) r) .eps) ⟨prev, w ++ t, caps⟩ = [⟨lastOf prev w, t, caps⟩] := by
  induction w generalizing prev with
  | nil => simp [run, lastOf]
  | cons c w ih => simp [run, ih, lastOf_cons]

theorem run_lit (s : String) (t : Text) :
    run (lit s) ⟨prev, s.toList ++ t, caps⟩ = [⟨lastOf prev s.toList, t, caps⟩] :=
  run_chars s.toList t

theorem run_lit_ne {s : String} {c d : Char} {w t : Text} (hs : s.toList = c :: w) (hne : d ≠ c) :
    run (lit s) ⟨prev, d :: t, caps⟩ = [] := by
  simp [lit, hs, run, hne]

theorem run_lit_nil {s : String} {c : Char} {w : Text} (hs : s.toList = c :: w) :
    run (lit s) ⟨prev, [], caps⟩ = [] := by
  simp [lit, hs, run]

/-- A C identifier. -/
def Identifier (t : Text) : Prop := ∃ c w, t = c :: w ∧ isWordStart c = true ∧ ∀ d ∈ w, isWord d = true

instance (t : Text) : Decidable (Identifier t) :=
  decidable_of_iff (t.head?.any isWordStart = true ∧ t.tail.all isWord = true) (by
    cases t <;> simp [Identifier])

def White (t : Text) : Prop := ∀ c ∈ t, isSpace c = true

instance (t : Text) : Decidable (White t) := decidable_of_iff (t.all isSpace = true) List.all_eq_true

theorem head?_spaces {u z : Text} (hu : White u) (hz : ∀ c ∈ z.head?, isSpace c = false) :
    (run spaces ⟨prev, u ++ z, caps⟩).head? = some ⟨lastOf prev u, z, caps⟩ :=
  head?_star hu hz

theorem head?_cIdentifier {t z : Text} (ht : Identifier t) (hz : ∀ c ∈ z.head?, isWord c = false) :
    (run cIdentifier ⟨prev, t ++ z, caps⟩).head? = some ⟨lastOf prev t, z, caps⟩ := by
  obtain ⟨c, w, rfl, hc, hw⟩ := ht
  have hfirst : (run (.cls isWordStart) ⟨prev, c :: w ++ z, caps⟩).head? = some ⟨some c, w ++ z, caps⟩ := by
    simp [run, hc]
  rw [lastOf_cons]
  exact head?_seq hfirst (head?_star hw hz)

theorem isSpace_of_isWord {c : Char} (h : isWord c = true) : isSpace c = false := by
  by_contra hs
  rw [Bool.not_eq_false] at hs
  simp only [isSpace, Bool.or_eq_true, decide_eq_true_eq] at hs
  rcases hs with ((((rfl | rfl) | rfl) | rfl) | rfl) | rfl <;> exact absurd h (by decide)

theorem isWord_of_isWordStart {c : Char} (h : isWordStart c = true) : isWord c = true := by
  simp only [isWordStart, isWord, Char.isAlphanum, Bool.or_eq_true] at h ⊢
  tauto

/-- A text is a line and what follows it. -/
theorem exists_line (t : Text) :
    ∃ x z, t = x ++ z ∧ (∀ c ∈ x, decide (c ≠ '\n') = true) ∧ ∀ c ∈ z.head?, decide (c ≠ '\n') = false := by
  induction t with
  | nil => exact ⟨[], [], rfl, by simp, by simp⟩
  | cons c t ih =>
    by_cases hc : c = '\n'
    · exact ⟨[], c :: t, rfl, by simp, by simp [hc]⟩
    · obtain ⟨x, z, rfl, hx, hz⟩ := ih
      exact ⟨c :: x, z, rfl, List.forall_mem_cons.mpr ⟨by simpa using hc, hx⟩, hz⟩

/-- The last `);` on the line, if none stands behind the call. -/
theorem head?_argument {body tail : Text} (hbody : '\n' ∉ body) (htail : ')' ∉ tail) :
    (run (all [.cap 3 (.star true dot), lit ");"]) ⟨prev, body ++ (str ");" ++ tail), caps⟩).head? =
      some ⟨some ';', tail, (3, body) :: caps⟩ := by
  have hall : ∀ s, run (all [.cap 3 (.star true dot), lit ");"]) s =
      run (.seq (.cap 3 (.star true dot)) (lit ");")) s := by simp [all, run]
  rw [hall]
  -- the star runs to the end of the line and comes back to the last place where `);` follows
  obtain ⟨x, z, hxz, hx, hz⟩ := exists_line (str ");" ++ tail)
  have hdot : ∀ c ∈ body ++ x, decide (c ≠ '\n') = true := by
    intro c hc
    rcases List.mem_append.mp hc with hc | hc
    · have hne : c ≠ '\n' := fun h => hbody (h ▸ hc)
      simpa using hne
    · exact hx c hc
  obtain ⟨L, L', hL, hlong⟩ := ends_longer caps prev body x z
  have hstar : run (.star true dot) ⟨prev, body ++ (str ");" ++ tail), caps⟩ =
      L ++ ⟨lastOf prev body, str ");" ++ tail, caps⟩ :: L' := by
    rw [hxz, ← List.append_assoc, ← hL]
    exact run_star_cls hdot hz
  have hnone : ∀ a ∈ L, ∀ caps', run (lit ");") ⟨a.prev, a.rest, caps'⟩ = [] := by
    intro a ha caps'
    obtain ⟨y, c, y', hy, hr⟩ := hlong a ha
    have hsplit : str ");" ++ tail = y ++ c :: (y' ++ z) := by
      rw [hxz, hy, List.append_assoc]
      rfl
    have hno : ')' ∉ y' ++ z := by
      intro hmem
      cases y with
      | nil =>
        obtain ⟨-, h⟩ := List.cons.inj hsplit
        rw [← h] at hmem
        rcases List.mem_cons.mp hmem with h' | h'
        · exact absurd h' (by decide)
        · exact htail h'
      | cons d y =>
        obtain ⟨-, h⟩ := List.cons.inj hsplit
        have hin : ')' ∈ ';' :: tail := by
          have h2 : (';' :: tail : Text) = y ++ c :: (y' ++ z) := h
          rw [h2]
          simp only [List.mem_append, List.mem_cons] at hmem ⊢
          tauto
        rcases List.mem_cons.mp hin with h' | h'
        · exact absurd h' (by decide)
        · exact htail h'
    rw [hr]
    cases hyz : y' ++ z with
    | nil => exact run_lit_nil rfl
    | cons d t =>
      apply run_lit_ne rfl
      rintro rfl
      exact hno (by rw [hyz]; exact List.mem_cons_self)
  rw [run, run, hstar, List.map_append, List.map_cons]
  refine head?_flatMap ?_ ?_
  · intro a ha
    obtain ⟨b, hb, rfl⟩ := List.mem_map.mp ha
    exact hnone b hb _
  · have htake : (body ++ (str ");" ++ tail)).take
        ((body ++ (str ");" ++ tail)).length - (str ");" ++ tail).length) = body := by simp
    rw [htake]
    exact congrArg List.head? (run_lit ");" tail)

theorem head?_identifier {t z : Text} (ht : Identifier t) : ∀ c ∈ (t ++ z).head?, isSpace c = false := by
  obtain ⟨c, w, rfl, hc, -⟩ := ht
  intro d hd
  obtain rfl : c = d := by simpa using hd
  exact isSpace_of_isWord (isWord_of_isWordStart hc)

theorem head?_white {u z : Text} (hu : White u) (hz : ∀ c ∈ z.head?, isWord c = false) :
    ∀ c ∈ (u ++ z).head?, isWord c = false := by
  cases u with
  | nil => exact hz
  | cons d u =>
    intro c hc
    obtain rfl : d = c := by simpa using hc
    by_contra hw
    rw [Bool.not_eq_false] at hw
    have hd := hu d List.mem_cons_self
    rw [isSpace_of_isWord hw] at hd
    exact Bool.false_ne_true hd

/-- The line of a method call, with the text between the parentheses as a whole. -/
def callLine (indent obj method gap body tail : Text) : Line :=
  indent ++ (obj ++ (str "." ++ (method ++ (gap ++ (str "(" ++ (body ++ (str ");" ++ tail)))))))

/-- The pattern of `method_invoke` takes the line apart as it was put together. -/
theorem search_invokeRx {indent obj method gap body tail : Text} (hindent : White indent)
    (hobj : Identifier obj) (hmethod : Identifier method) (hgap : White gap) (hbody : '\n' ∉ body)
    (htail : ')' ∉ tail) :
    ∃ m, search invokeRx (callLine indent obj method gap body tail) = some m ∧ m.group 1 = obj ∧
      m.group 2 = method ∧ m.group 3 = body := by
  have hparen : ∀ c ∈ (str "(" ++ (body ++ (str ");" ++ tail))).head?, isSpace c = false := by
    intro c hc
    obtain rfl : '(' = c := by simpa [str] using hc
    decide
  have hparen' : ∀ c ∈ (str "(" ++ (body ++ (str ");" ++ tail))).head?, isWord c = false := by
    intro c hc
    obtain rfl : '(' = c := by simpa [str] using hc
    decide
  have hdot : ∀ c ∈ (str "." ++ (method ++ (gap ++ (str "(" ++ (body ++ (str ");" ++ tail)))))).head?,
      isWord c = false := by
    intro c hc
    obtain rfl : '.' = c := by simpa [str] using hc
    decide
  have hrun : (run (all [spaces, .cap 1 cIdentifier, lit ".", .cap 2 cIdentifier, spaces, lit "(",
      .cap 3 (.star true dot), lit ");"]) ⟨none, callLine indent obj method gap body tail, []⟩).head? =
      some ⟨some ';', tail, [(3, body), (2, method), (1, obj)]⟩ := by
    refine head?_seq (head?_spaces hindent (head?_identifier hobj)) ?_
    refine head?_seq (head?_cap (head?_cIdentifier hobj hdot) rfl) ?_
    refine head?_seq (congrArg List.head? (run_lit "." _)) ?_
    refine head?_seq (head?_cap (head?_cIdentifier hmethod (head?_white hgap hparen')) rfl) ?_
    refine head?_seq (head?_spaces hgap hparen) ?_
    refine head?_seq (congrArg List.head? (run_lit "(" _)) ?_
    exact head?_argument hbody htail
  rw [invokeRx, all, search_bol, hrun]
  exact ⟨_, rfl, rfl, rfl, rfl⟩

/-! ## Texts between commas -/

/-- The text without white space at its ends. -/
def trim (t : Text) : Text := ((t.dropWhile isSpace).reverse.dropWhile isSpace).reverse

def Trimmed (t : Text) : Prop := (∀ c ∈ t.head?, isSpace c = false) ∧ ∀ c ∈ t.getLast?, isSpace c = false

instance (t : Text) : Decidable (Trimmed t) :=
  decidable_of_iff (t.head?.any isSpace = false ∧ t.getLast?.any isSpace = false) (by
    rw [Trimmed]
    cases t.head? <;> cases t.getLast? <;> simp)

theorem dropWhile_white {u t : Text} (hu : White u) : (u ++ t).dropWhile isSpace = t.dropWhile isSpace := by
  induction u with
  | nil => rfl
  | cons c u ih =>
    rw [List.cons_append, List.dropWhile_cons, if_pos (hu c List.mem_cons_self)]
    exact ih fun d hd => hu d (List.mem_cons_of_mem _ hd)

theorem dropWhile_start {t : Text} (ht : ∀ c ∈ t.head?, isSpace c = false) : t.dropWhile isSpace = t := by
  cases t with
  | nil => rfl
  | cons c t => rw [List.dropWhile_cons, if_neg (by simp [ht c rfl])]

theorem white_reverse {u : Text} (hu : White u) : White u.reverse := fun c hc => hu c (List.mem_reverse.mp hc)

theorem trim_eq {u x v : Text} (hu : White u) (hx : Trimmed x) (hv : White v) : trim (u ++ (x ++ v)) = x := by
  cases x with
  | nil =>
    have hnil : (u ++ ([] ++ v)).dropWhile isSpace = [] := by
      rw [dropWhile_white hu, List.nil_append, ← List.append_nil v, dropWhile_white hv]
      rfl
    rw [trim, hnil]
    rfl
  | cons c x =>
    have hstart : (u ++ (c :: x ++ v)).dropWhile isSpace = c :: x ++ v := by
      rw [dropWhile_white hu]
      exact dropWhile_start hx.1
    rw [trim, hstart, List.reverse_append, dropWhile_white (white_reverse hv), dropWhile_start, List.reverse_reverse]
    rw [List.head?_reverse]
    exact hx.2

theorem exists_white_start (t : Text) :
    ∃ u x, t = u ++ x ∧ White u ∧ ∀ c ∈ x.head?, isSpace c = false := by
  induction t with
  | nil => exact ⟨[], [], rfl, by simp [White], by simp⟩
  | cons c t ih =>
    cases hc : isSpace c with
    | false => exact ⟨[], c :: t, rfl, by simp [White], by simpa using hc⟩
    | true =>
      obtain ⟨u, x, rfl, hu, hx⟩ := ih
      exact ⟨c :: u, x, rfl, List.forall_mem_cons.mpr ⟨hc, hu⟩, hx⟩

theorem exists_white_end (t : Text) :
    ∃ x v, t = x ++ v ∧ White v ∧ ∀ c ∈ x.getLast?, isSpace c = false := by
  obtain ⟨u, x, ht, hu, hx⟩ := exists_white_start t.reverse
  refine ⟨x.reverse, u.reverse, ?_, white_reverse hu, ?_⟩
  · rw [← List.reverse_append, ← ht, List.reverse_reverse]
  · rw [List.getLast?_reverse]
    exact hx

/-- A text is its trimmed part with white space around it. -/
theorem exists_trim (t : Text) : ∃ u v, White u ∧ White v ∧ Trimmed (trim t) ∧ t = u ++ (trim t ++ v) := by
  obtain ⟨u, y, rfl, hu, hy⟩ := exists_white_start t
  obtain ⟨x, v, rfl, hv, hx⟩ := exists_white_end y
  have htrim : Trimmed x := by
    refine ⟨?_, hx⟩
    cases x with
    | nil => simp
    | cons c x => simpa using hy
  rw [trim_eq hu htrim hv]
  exact ⟨u, v, hu, hv, htrim, rfl⟩

theorem trim_trimmed {x : Text} (hx : Trimmed x) : trim x = x := by
  simpa using trim_eq (u := []) (v := []) (by simp [White]) hx (by simp [White])

theorem trim_around {u t v : Text} (hu : White u) (hv : White v) : trim (u ++ (t ++ v)) = trim t := by
  obtain ⟨u', v', hu', hv', htrim, ht⟩ := exists_trim t
  have hleft : White (u ++ u') := fun c hc => (List.mem_append.mp hc).elim (hu c) (hu' c)
  have hright : White (v' ++ v) := fun c hc => (List.mem_append.mp hc).elim (hv' c) (hv c)
  have hsame : u ++ (t ++ v) = (u ++ u') ++ (trim t ++ (v' ++ v)) := by
    rw [ht, trim_eq hu' htrim hv']
    simp
  rw [hsame, trim_eq hleft htrim hright]

/-- The texts between the commas, without the white space around these. -/
def pieces (t : Text) : List Text := (t.splitOn ',').map trim

/-- Every text is free of the separator, or such a text with the separator and another text behind it. -/
theorem separator_induction {P : Text → Prop} (a : Char) (single : ∀ x, a ∉ x → P x)
    (more : ∀ x t, a ∉ x → P t → P (x ++ a :: t)) (t : Text) : P t := by
  induction hn : t.length using Nat.strongRecOn generalizing t with
  | ind n ih =>
    by_cases ht : a ∈ t
    · obtain ⟨x, z, rfl, hx⟩ := List.eq_append_cons_of_mem ht
      rw [List.length_append, List.length_cons] at hn
      exact more x z hx (ih z.length (by omega) z rfl)
    · exact single t ht

theorem comma_induction {P : Text → Prop} (single : ∀ x, ',' ∉ x → P x)
    (comma : ∀ x t, ',' ∉ x → P t → P (x ++ ',' :: t)) (t : Text) : P t :=
  separator_induction ',' single comma t

theorem not_comma_of_white {u : Text} (hu : White u) : ',' ∉ u := fun h => absurd (hu ',' h) (by decide)

theorem pieces_single {x : Text} (hx : ',' ∉ x) : pieces x = [trim x] := by
  rw [pieces, List.splitOn_eq_singleton hx, List.map_singleton]

theorem pieces_comma (x t : Text) : pieces (x ++ ',' :: t) = pieces x ++ pieces t := by
  rw [pieces, List.splitOn_append_cons_self, List.map_append]
  rfl

/-- White space in front makes no difference. -/
theorem pieces_white {u : Text} (hu : White u) (t : Text) : pieces (u ++ t) = pieces t := by
  induction t using comma_induction with
  | single x hx =>
    have hux : ',' ∉ u ++ x := fun h => (List.mem_append.mp h).elim (not_comma_of_white hu) hx
    rw [pieces_single hux, pieces_single hx]
    simpa using trim_around (t := x) (v := []) hu (by simp [White])
  | comma x t hx ih =>
    have hux : ',' ∉ u ++ x := fun h => (List.mem_append.mp h).elim (not_comma_of_white hu) hx
    rw [← List.append_assoc, pieces_comma, pieces_comma, pieces_single hux, pieces_single hx]
    congr 2
    simpa using trim_around (t := x) (v := []) hu (by simp [White])

/-- So does white space behind. -/
theorem pieces_white_end {v : Text} (hv : White v) (t : Text) : pieces (t ++ v) = pieces t := by
  induction t using comma_induction with
  | single x hx =>
    have hxv : ',' ∉ x ++ v := fun h => (List.mem_append.mp h).elim hx (not_comma_of_white hv)
    rw [pieces_single hxv, pieces_single hx]
    simpa using trim_around (u := []) (t := x) (by simp [White]) hv
  | comma x t hx ih => rw [List.append_assoc, List.cons_append, pieces_comma, pieces_comma, ih]

/-! ## Splitting at the commas -/

/-- `\s*,\s*`. -/
def commaRx : Rx := all [spaces, lit ",", spaces]

theorem run_comma_nil {u z : Text} (hu : White u) (hz : ∀ c ∈ z.head?, isSpace c = false ∧ c ≠ ',') :
    run commaRx ⟨prev, u ++ z, caps⟩ = [] := by
  have hstar : run spaces ⟨prev, u ++ z, caps⟩ = ends caps prev u z := run_star_cls hu fun c hc => (hz c hc).1
  rw [commaRx, all, run, hstar, List.flatMap_eq_nil_iff]
  intro a ha
  obtain ⟨y, y', rfl, hr⟩ := mem_ends ha
  have hnone : run (lit ",") a = [] := by
    obtain ⟨aprev, arest, acaps⟩ := a
    obtain rfl : arest = y' ++ z := hr
    cases hyz : y' ++ z with
    | nil => exact run_lit_nil rfl
    | cons d t =>
      apply run_lit_ne (c := ',') rfl
      rintro rfl
      cases y' with
      | nil => exact (hz ',' (by rw [← List.nil_append z, hyz]; rfl)).2 rfl
      | cons e y' =>
        obtain ⟨rfl, -⟩ := List.cons.inj hyz
        exact not_comma_of_white hu (by simp)
  rw [all, run, hnone, List.flatMap_nil]

theorem head?_comma {u v z : Text} (hu : White u) (hv : White v) (hz : ∀ c ∈ z.head?, isSpace c = false) :
    ∃ prev', (run commaRx ⟨prev, u ++ ',' :: (v ++ z), caps⟩).head? = some ⟨prev', z, caps⟩ := by
  have hcomma : ∀ c ∈ (',' :: (v ++ z)).head?, isSpace c = false := by
    intro c hc
    obtain rfl : ',' = c := by simpa using hc
    decide
  exact ⟨_, head?_seq (head?_spaces hu hcomma)
    (head?_seq (congrArg List.head? (run_lit "," (v ++ z))) (head?_seq (head?_spaces hv hz) rfl))⟩

/-- The first comma with the white space around it. -/
theorem searchFrom_comma {x u v z : Text} (hx : ',' ∉ x) (hlast : ∀ c ∈ x.getLast?, isSpace c = false)
    (hu : White u) (hv : White v) (hz : ∀ c ∈ z.head?, isSpace c = false) :
    searchFrom commaRx prev (x ++ (u ++ ',' :: (v ++ z))) = some ⟨x, u ++ ',' :: v, z, []⟩ := by
  induction x generalizing prev with
  | nil =>
    obtain ⟨prev', hrun⟩ : ∃ prev', (run commaRx ⟨prev, u ++ ',' :: (v ++ z), []⟩).head? = some ⟨prev', z, []⟩ :=
      head?_comma hu hv hz
    obtain ⟨es, hes⟩ := List.head?_eq_some_iff.mp hrun
    have htake : (u ++ ',' :: (v ++ z)).take ((u ++ ',' :: (v ++ z)).length - z.length) = u ++ ',' :: v := by
      have hsame : u ++ ',' :: (v ++ z) = (u ++ ',' :: v) ++ z := by simp
      rw [hsame, List.length_append, Nat.add_sub_cancel, List.take_left]
    rw [List.nil_append]
    cases ht : u ++ ',' :: (v ++ z) with
    | nil => simp at ht
    | cons c t =>
      rw [ht] at hes htake
      rw [searchFrom, hes, ← htake]
  | cons c x ih =>
    have hnil : run commaRx ⟨prev, c :: x ++ (u ++ ',' :: (v ++ z)), []⟩ = [] := by
      obtain ⟨w, y, hwy, hw, hy⟩ := exists_white_start (c :: x)
      cases y with
      | nil =>
        rw [List.append_nil] at hwy
        have hd := hlast _ (List.getLast?_eq_some_getLast (List.cons_ne_nil c x))
        rw [hw _ (hwy ▸ List.getLast_mem (List.cons_ne_nil c x))] at hd
        exact absurd hd (by decide)
      | cons d y =>
        rw [hwy, List.append_assoc]
        apply run_comma_nil hw
        intro e he
        obtain rfl : d = e := by simpa using he
        exact ⟨hy d rfl, fun h => hx (by rw [hwy, h]; simp)⟩
    rw [List.cons_append] at hnil ⊢
    have hlast' : ∀ e ∈ x.getLast?, isSpace e = false := by
      cases x with
      | nil => simp
      | cons d x => simpa [List.getLast?_cons] using hlast
    rw [searchFrom, hnil]
    simp only [ih (fun h => hx (List.mem_cons_of_mem _ h)) hlast', Option.map_some]
theorem run_no_comma {x : Text} (hx : ',' ∉ x) : run commaRx ⟨prev, x, caps⟩ = [] := by
  obtain ⟨w, y, rfl, hw, hy⟩ := exists_white_start x
  refine run_comma_nil hw fun c hc => ⟨hy c hc, ?_⟩
  rintro rfl
  exact hx (List.mem_append_right w (List.mem_of_mem_head? hc))

theorem searchFrom_no_comma {x : Text} (hx : ',' ∉ x) : searchFrom commaRx prev x = none := by
  induction x generalizing prev with
  | nil => rw [searchFrom, run_no_comma hx]
  | cons c x ih =>
    rw [searchFrom, run_no_comma hx]
    simp only [ih fun h => hx (List.mem_cons_of_mem _ h), Option.map_none]

/-- The first field, up to the first comma. -/
theorem fields_first {x u v z : Text} (hx : ',' ∉ x) (hlast : ∀ c ∈ x.getLast?, isSpace c = false)
    (hu : White u) (hv : White v) (hz : ∀ c ∈ z.head?, isSpace c = false) (n : Nat) :
    fields commaRx (n + 1) (x ++ u ++ ',' :: (v ++ z)) = x :: fields commaRx n z := by
  have hsearch : search commaRx (x ++ (u ++ ',' :: (v ++ z))) = some ⟨x, u ++ ',' :: v, z, []⟩ :=
    searchFrom_comma hx hlast hu hv hz
  have hlong : u ++ ',' :: v ≠ [] := List.append_ne_nil_of_right_ne_nil u (List.cons_ne_nil ',' v)
  rw [List.append_assoc, fields, hsearch]
  simp only [if_neg hlong]

theorem fields_no_comma {x : Text} (hx : ',' ∉ x) (n : Nat) : fields commaRx n x = [x] := by
  cases n with
  | zero => rfl
  | succ n => rw [fields, search, searchFrom_no_comma hx]

theorem trim_start {x w : Text} (hx : ∀ c ∈ (x ++ w).head?, isSpace c = false)
    (hlast : ∀ c ∈ x.getLast?, isSpace c = false) (hw : White w) : trim (x ++ w) = x := by
  have htrimmed : Trimmed x := by
    refine ⟨?_, hlast⟩
    cases x with
    | nil =>
      intro c hc
      cases hc
    | cons d x => exact hx
  simpa using trim_eq (u := []) (by simp [White]) htrimmed hw

theorem trimmed_end {y z : Text} (h : Trimmed (y ++ z)) (hz : ∀ c ∈ z.head?, isSpace c = false) : Trimmed z := by
  refine ⟨hz, fun c hc => h.2 c ?_⟩
  rw [List.getLast?_append, Option.mem_def.mp hc]
  rfl

theorem trimmed_start {x z : Text} (h : Trimmed (x ++ z)) (hx : ∀ c ∈ x.getLast?, isSpace c = false) :
    Trimmed x := by
  refine ⟨fun c hc => h.1 c ?_, hx⟩
  rw [List.head?_append, Option.mem_def.mp hc]
  rfl

theorem fields_comma {t : Text} (ht : Trimmed t) {n : Nat} (hn : t.length ≤ n) : fields commaRx n t = pieces t := by
  induction hm : t.length using Nat.strongRecOn generalizing t n with
  | ind m ih =>
    by_cases hmem : ',' ∈ t
    · obtain ⟨y, t', rfl, hy⟩ := List.eq_append_cons_of_mem hmem
      obtain ⟨x, u, rfl, hu, hx⟩ := exists_white_end y
      obtain ⟨v, z, rfl, hv, hz⟩ := exists_white_start t'
      have hcomma : ',' ∉ x := fun h => hy (List.mem_append_left u h)
      have hpre : Trimmed x := trimmed_start (by simpa using ht) hx
      have hpost : Trimmed z := trimmed_end (y := x ++ u ++ ',' :: v) (by simpa using ht) hz
      have htrim : trim (x ++ u) = x := by simpa using trim_eq (u := []) (by simp [White]) hpre hu
      have hlen : z.length < m := by
        rw [← hm]
        simp only [List.length_append, List.length_cons]
        omega
      cases n with
      | zero => omega
      | succ n =>
        have hrest : fields commaRx n z = pieces z := ih z.length hlen hpost (by omega) rfl
        rw [fields_first hcomma hx hu hv hz, pieces_comma, pieces_single hy, htrim, pieces_white hv, ← hrest]
        rfl
    · rw [pieces_single hmem, trim_trimmed ht, fields_no_comma hmem]

theorem exists_last_piece {t : Text} (hne : t ≠ []) (hlast : ∀ c ∈ t.getLast?, isSpace c = false ∧ c ≠ ',') :
    ∃ L p, pieces t = L ++ [p] ∧ p ≠ [] := by
  induction t using comma_induction with
  | single x hx =>
    refine ⟨[], trim x, pieces_single hx, fun hnil => ?_⟩
    obtain ⟨u, v, hu, hv, -, hsame⟩ := exists_trim x
    rw [hnil, List.nil_append] at hsame
    have hwhite : isSpace (x.getLast hne) = true := by
      have hmem : x.getLast hne ∈ u ++ v := hsame ▸ List.getLast_mem hne
      exact (List.mem_append.mp hmem).elim (hu _) (hv _)
    rw [(hlast _ (List.getLast?_eq_some_getLast hne)).1] at hwhite
    exact Bool.false_ne_true hwhite
  | comma x t hx ih =>
    cases t with
    | nil => exact absurd rfl (hlast ',' (by simp)).2
    | cons d t =>
      obtain ⟨L, p, hL, hp⟩ := ih (List.cons_ne_nil d t) (by simpa [List.getLast?_cons] using hlast)
      exact ⟨pieces x ++ L, p, by rw [pieces_comma, hL, List.append_assoc], hp⟩

/-- Nothing is left out at the end when the last piece is not empty. -/
theorem split_comma {t : Text} (ht : Trimmed t) (hne : t ≠ []) (hlast : t.getLast? ≠ some ',') :
    split commaRx t = pieces t := by
  obtain ⟨L, p, hL, hp⟩ := exists_last_piece hne fun c hc => ⟨ht.2 c hc, fun h => hlast (h ▸ hc)⟩
  rw [split, fields_comma ht (Nat.le_refl _), hL, List.reverse_append, List.reverse_singleton, List.singleton_append,
    List.dropWhile_cons, if_neg (by simpa using hp), List.reverse_cons, List.reverse_reverse]

/-! ## Arguments -/

/-- The text of an argument on one line, which neither starts nor ends with white space or a comma. -/
structure Argument (a : Text) : Prop where
  ne_nil : a ≠ []
  trimmed : Trimmed a
  last_ne : a.getLast? ≠ some ','

instance (a : Text) : Decidable (Argument a) :=
  decidable_of_iff (a ≠ [] ∧ Trimmed a ∧ a.getLast? ≠ some ',')
    ⟨fun ⟨h₁, h₂, h₃⟩ => ⟨h₁, h₂, h₃⟩, fun h => ⟨h.ne_nil, h.trimmed, h.last_ne⟩⟩

/-- The arguments, with commas and white space between them. -/
inductive Listed : List Text → Text → Prop
  | none : Listed [] []
  | one (a : Text) : Listed [a] a
  | more (a b : Text) (as : List Text) (u v t : Text) (hu : White u) (hv : White v) (ht : Listed (b :: as) t) :
    Listed (a :: b :: as) (a ++ (u ++ ',' :: (v ++ t)))

theorem pieces_listed {args : List Text} {body : Text} (hargs : Listed args body) (hne : args ≠ []) :
    pieces body = args.flatMap pieces := by
  induction hargs with
  | none => exact absurd rfl hne
  | one a => simp
  | more a b as u v t hu hv ht ih =>
    rw [← List.append_assoc, pieces_comma, pieces_white_end hu, pieces_white hv, ih (List.cons_ne_nil b as)]
    rfl

theorem argument_listed {args : List Text} {body : Text} (hargs : Listed args body) (hne : args ≠ [])
    (hall : ∀ a ∈ args, Argument a) : Argument body := by
  induction hargs with
  | none => exact absurd rfl hne
  | one a => exact hall a List.mem_cons_self
  | more a b as u v t hu hv ht ih =>
    have ha := hall a List.mem_cons_self
    have ht := ih (List.cons_ne_nil b as) fun c hc => hall c (List.mem_cons_of_mem _ hc)
    have hlast : (a ++ (u ++ ',' :: (v ++ t))).getLast? = t.getLast? := by
      have hsame : a ++ (u ++ ',' :: (v ++ t)) = (a ++ (u ++ ',' :: v)) ++ t := by simp
      rw [hsame, List.getLast?_append, List.getLast?_eq_some_getLast ht.ne_nil]
      rfl
    refine ⟨by simp, ⟨?_, ?_⟩, ?_⟩
    · rw [List.head?_append_of_ne_nil _ ha.ne_nil]
      exact ha.trimmed.1
    · rw [hlast]
      exact ht.trimmed.2
    · rw [hlast]
      exact ht.last_ne

/-- What `method_invoke` takes the argument texts for. -/
theorem split_listed {args : List Text} {body : Text} (hargs : Listed args body)
    (hall : ∀ a ∈ args, Argument a) : split commaRx body = args.flatMap pieces := by
  by_cases hne : args = []
  · subst hne
    cases hargs
    rfl
  · have hbody := argument_listed hargs hne hall
    rw [split_comma hbody.trimmed hbody.ne_nil hbody.last_ne, pieces_listed hargs hne]

/-! ## The place of the object -/

/-- The element put in front of the `k`-th, or at the end. -/
def insertAt (k : Nat) (x : Text) (l : List Text) : List Text := l.take k ++ x :: l.drop k

theorem insertAt_succ (k : Nat) (x y : Text) (l : List Text) : insertAt (k + 1) x (y :: l) = y :: insertAt k x l := rfl

/-- The text by which `method_invoke` tells a parameter of the object's type. -/
def shows (base d : Text) : Bool := test (lit (String.ofList (base ++ str " *"))) d

variable {self base d : Text} {ds ps : List Text}

theorem newParams_here (hd : shows base d = true) : newParams self base (d :: ds) ps = (true, self :: ps) := by
  rw [shows] at hd
  cases ps <;> simp only [newParams, hd, if_true]

theorem newParams_end (hd : shows base d = false) : newParams self base (d :: ds) [] = (false, []) := by
  rw [shows] at hd
  simp only [newParams, hd, Bool.false_eq_true, if_false]

theorem newParams_later (p : Text) (hd : shows base d = false) :
    newParams self base (d :: ds) (p :: ps) = ((newParams self base ds ps).1, p :: (newParams self base ds ps).2) := by
  rw [shows] at hd
  simp only [newParams, hd, Bool.false_eq_true, if_false]

/-- The place has to come before the declaration ends, and not behind the end of the call. -/
theorem newParams_fst :
    (newParams self base ds ps).1 = true ↔
      ds.findIdx (shows base) < ds.length ∧ ds.findIdx (shows base) ≤ ps.length := by
  induction ds generalizing ps with
  | nil => simp [newParams]
  | cons d ds ih =>
    rw [List.findIdx_cons]
    cases hd : shows base d with
    | true => simp [newParams_here hd]
    | false =>
      cases ps with
      | nil => simp [newParams_end hd]
      | cons p ps => simp [newParams_later p hd, ih]

theorem newParams_snd (h : (newParams self base ds ps).1 = true) :
    (newParams self base ds ps).2 = insertAt (ds.findIdx (shows base)) self ps := by
  induction ds generalizing ps with
  | nil => simp [newParams] at h
  | cons d ds ih =>
    rw [List.findIdx_cons]
    cases hd : shows base d with
    | true =>
      rw [newParams_here hd]
      rfl
    | false =>
      cases ps with
      | nil => simp [newParams_end hd] at h
      | cons p ps =>
        rw [newParams_later p hd] at h ⊢
        exact congrArg (p :: ·) (ih h)

/-! ## Texts put together again -/

theorem join_cons (sep t : Text) {ts : List Text} (hne : ts ≠ []) :
    join sep (t :: ts) = t ++ (sep ++ join sep ts) := by
  cases ts with
  | nil => exact absurd rfl hne
  | cons u us => simp [join]

theorem join_append (sep : Text) {ts us : List Text} (hts : ts ≠ []) (hus : us ≠ []) :
    join sep (ts ++ us) = join sep ts ++ (sep ++ join sep us) := by
  induction ts with
  | nil => exact absurd rfl hts
  | cons t ts ih =>
    cases ts with
    | nil => exact join_cons sep t hus
    | cons v ts =>
      rw [List.cons_append, join_cons sep t (by simp), ih (List.cons_ne_nil v ts), join_cons sep t (by simp)]
      simp

/-- No comma in it, and no white space at its ends. -/
def Plain (p : Text) : Prop := ',' ∉ p ∧ Trimmed p

instance (p : Text) : Decidable (Plain p) := inferInstanceAs (Decidable (',' ∉ p ∧ Trimmed p))

theorem plain_trim {x : Text} (hx : ',' ∉ x) : Plain (trim x) := by
  obtain ⟨u, v, -, -, htrim, hsame⟩ := exists_trim x
  refine ⟨fun h => hx ?_, htrim⟩
  rw [hsame]
  exact List.mem_append_right u (List.mem_append_left v h)

theorem plain_of_mem_pieces {t p : Text} (hp : p ∈ pieces t) : Plain p := by
  induction t using comma_induction with
  | single x hx =>
    rw [pieces_single hx, List.mem_singleton] at hp
    exact hp ▸ plain_trim hx
  | comma x t hx ih =>
    rw [pieces_comma, pieces_single hx] at hp
    rcases List.mem_append.mp hp with hp | hp
    · rw [List.mem_singleton] at hp
      exact hp ▸ plain_trim hx
    · exact ih hp

theorem pieces_plain {p : Text} (hp : Plain p) : pieces p = [p] := by
  rw [pieces_single hp.1, trim_trimmed hp.2]

theorem flatMap_pieces_plain {L : List Text} (hL : ∀ p ∈ L, Plain p) : L.flatMap pieces = L := by
  induction L with
  | nil => rfl
  | cons p L ih =>
    rw [List.flatMap_cons, pieces_plain (hL p List.mem_cons_self), ih fun q hq => hL q (List.mem_cons_of_mem _ hq)]
    rfl

theorem pieces_ne_nil (t : Text) : pieces t ≠ [] := fun h => List.splitOn_ne_nil ',' t (List.map_eq_nil_iff.mp h)

theorem flatMap_pieces_ne_nil {L : List Text} (hne : L ≠ []) : L.flatMap pieces ≠ [] := by
  cases L with
  | nil => exact absurd rfl hne
  | cons t L => exact fun h => pieces_ne_nil t (List.append_eq_nil_iff.mp h).1

/-- The pieces of texts that were put together are those of the texts. -/
theorem pieces_join {L : List Text} (hne : L ≠ []) : pieces (join (str ", ") L) = L.flatMap pieces := by
  induction L with
  | nil => exact absurd rfl hne
  | cons t L ih =>
    cases L with
    | nil => simp [join]
    | cons u L =>
      have hspace : White [' '] := by simp [White, isSpace]
      rw [List.flatMap_cons, ← ih (List.cons_ne_nil u L), ← pieces_white hspace (join _ (u :: L)), ← pieces_comma,
        join_cons _ _ (List.cons_ne_nil u L)]
      rfl

theorem count_join_pieces (t : Text) : (join (str ", ") (pieces t)).count ',' = t.count ',' := by
  have hone : (str ", ").count ',' = 1 := by decide
  induction t using comma_induction with
  | single x hx =>
    rw [pieces_single hx, join, List.count_eq_zero.mpr (plain_trim hx).1, List.count_eq_zero.mpr hx]
  | comma x t hx ih =>
    rw [pieces_comma, pieces_single hx, List.singleton_append, join_cons _ _ (pieces_ne_nil t)]
    simp only [List.count_append, List.count_cons_self, hone, ih, List.count_eq_zero.mpr (plain_trim hx).1,
      List.count_eq_zero.mpr hx]
    omega

theorem append_comma_inj {x x' y y' : Text} (hcount : x.count ',' = x'.count ',')
    (h : x ++ ',' :: y = x' ++ ',' :: y') : x = x' ∧ y = y' := by
  induction x generalizing x' with
  | nil =>
    cases x' with
    | nil => exact ⟨rfl, (List.cons.inj h).2⟩
    | cons c x' =>
      obtain ⟨rfl, -⟩ := List.cons.inj h
      simp at hcount
  | cons c x ih =>
    cases x' with
    | nil =>
      obtain ⟨rfl, -⟩ := List.cons.inj h
      simp at hcount
    | cons d x' =>
      obtain ⟨rfl, htail⟩ := List.cons.inj h
      rw [List.count_cons, List.count_cons] at hcount
      obtain ⟨rfl, rfl⟩ := ih (Nat.add_right_cancel hcount) htail
      exact ⟨rfl, rfl⟩

theorem join_pieces_iff {L : List Text} :
    join (str ", ") (L.flatMap pieces) = join (str ", ") L ↔ ∀ a ∈ L, join (str ", ") (pieces a) = a := by
  induction L with
  | nil => simp
  | cons a L ih =>
    rw [List.forall_mem_cons, List.flatMap_cons]
    cases L with
    | nil => simp [join]
    | cons b L =>
      rw [join_append _ (pieces_ne_nil a) (flatMap_pieces_ne_nil (List.cons_ne_nil b L)),
        join_cons _ _ (List.cons_ne_nil b L), ← ih]
      constructor
      · intro h
        obtain ⟨ha, hL⟩ := append_comma_inj (count_join_pieces a) h
        exact ⟨ha, (List.cons.inj hL).2⟩
      · rintro ⟨ha, hL⟩
        rw [ha, hL]

/-- The text is pieces put together the way `method_invoke` does it. -/
def Tidy (a : Text) : Prop := ∃ ps, (∀ p ∈ ps, Plain p) ∧ a = join (str ", ") ps

theorem tidy_iff {a : Text} : Tidy a ↔ join (str ", ") (pieces a) = a := by
  constructor
  · rintro ⟨ps, hps, rfl⟩
    cases ps with
    | nil => rfl
    | cons p ps => rw [pieces_join (List.cons_ne_nil p ps), flatMap_pieces_plain hps]
  · exact fun h => ⟨pieces a, fun p => plain_of_mem_pieces, h.symm⟩

/-! ## The statement for a method call -/

theorem insertAt_zero_eq_iff {x : Text} {l : List Text} {k : Nat} (hk : k ≤ l.length) :
    x :: l = insertAt k x l ↔ ∀ i < k, l[i]? = some x := by
  induction k generalizing l with
  | zero => simp [insertAt]
  | succ k ih =>
    cases l with
    | nil => simp at hk
    | cons y l =>
      rw [insertAt_succ, List.cons.injEq]
      constructor
      · rintro ⟨rfl, h⟩ i hi
        cases i with
        | zero => rfl
        | succ i => exact (ih (by simpa using hk)).mp h i (by omega)
      · intro h
        obtain rfl : y = x := by simpa using h 0 (by omega)
        exact ⟨rfl, (ih (by simpa using hk)).mpr fun i hi => h (i + 1) (by omega)⟩

/-- Two places are as good as each other when only copies of the element stand between them. -/
theorem insertAt_eq_iff {x : Text} {l : List Text} {j k : Nat} (hjk : j ≤ k) (hk : k ≤ l.length) :
    insertAt j x l = insertAt k x l ↔ ∀ i, j ≤ i → i < k → l[i]? = some x := by
  induction j generalizing k l with
  | zero =>
    apply (insertAt_zero_eq_iff hk).trans
    exact ⟨fun h i _ hi => h i hi, fun h i hi => h i (Nat.zero_le i) hi⟩
  | succ j ih =>
    obtain ⟨k, rfl⟩ : ∃ k', k = k' + 1 := ⟨k - 1, by omega⟩
    cases l with
    | nil => simp at hk
    | cons y l =>
      rw [insertAt_succ, insertAt_succ, List.cons.injEq, ih (by omega) (by simpa using hk)]
      constructor
      · rintro ⟨-, h⟩ i hi hik
        obtain ⟨i, rfl⟩ : ∃ i', i = i' + 1 := ⟨i - 1, by omega⟩
        exact h i (by omega) (by omega)
      · exact fun h => ⟨rfl, fun i hi hik => h (i + 1) (by omega) (by omega)⟩

/-- The same with the places in any order. -/
def Between (x : Text) (l : List Text) (j k : Nat) : Prop := ∀ i, min j k ≤ i → i < max j k → l[i]? = some x

theorem insertAt_eq_iff_between {x : Text} {l : List Text} {j k : Nat} (hj : j ≤ l.length) (hk : k ≤ l.length) :
    insertAt j x l = insertAt k x l ↔ Between x l j k := by
  rw [Between]
  rcases Nat.le_total j k with h | h
  · rw [Nat.min_eq_left h, Nat.max_eq_right h, insertAt_eq_iff h hk]
  · rw [Nat.min_eq_right h, Nat.max_eq_left h, eq_comm, insertAt_eq_iff h hj]

theorem plain_identifier {t : Text} (ht : Identifier t) : Plain t := by
  obtain ⟨c, w, rfl, hc, hw⟩ := ht
  have hall : ∀ d ∈ c :: w, isWord d = true := List.forall_mem_cons.mpr ⟨isWord_of_isWordStart hc, hw⟩
  refine ⟨fun h => absurd (hall ',' h) (by decide), fun d hd => ?_, fun d hd => ?_⟩
  · exact isSpace_of_isWord (hall d (List.mem_of_mem_head? hd))
  · exact isSpace_of_isWord (hall d (List.mem_of_mem_getLast? hd))

/-- The place among the pieces that belongs to a place among the arguments. -/
def piecePlace (k : Nat) (args : List Text) : Nat := ((args.take k).flatMap pieces).length

theorem flatMap_insertAt (k : Nat) {x : Text} (hx : Plain x) (args : List Text) :
    (insertAt k x args).flatMap pieces = insertAt (piecePlace k args) x (args.flatMap pieces) := by
  have hsplit : args.flatMap pieces = (args.take k).flatMap pieces ++ (args.drop k).flatMap pieces := by
    rw [← List.flatMap_append, List.take_append_drop]
  rw [insertAt, insertAt, piecePlace, hsplit, List.take_left, List.drop_left, List.flatMap_append,
    List.flatMap_cons, pieces_plain hx]
  rfl

theorem mem_insertAt {k : Nat} {x a : Text} {l : List Text} : a ∈ insertAt k x l ↔ a = x ∨ a ∈ l := by
  have hl : a ∈ l ↔ a ∈ l.take k ∨ a ∈ l.drop k := by rw [← List.mem_append, List.take_append_drop]
  rw [insertAt, List.mem_append, List.mem_cons, hl]
  tauto

theorem insertAt_ne_nil (j : Nat) (x : Text) (l : List Text) : insertAt j x l ≠ [] := by simp [insertAt]

/-- The texts of the two calls are the same when the pieces are, and the arguments come back. -/
theorem join_insertAt_iff {j k : Nat} {obj : Text} {args : List Text} (hobj : Plain obj)
    (hj : j ≤ (args.flatMap pieces).length) :
    join (str ", ") (insertAt j obj (args.flatMap pieces)) = join (str ", ") (insertAt k obj args) ↔
      (∀ a ∈ args, Tidy a) ∧ Between obj (args.flatMap pieces) j (piecePlace k args) := by
  have hk : piecePlace k args ≤ (args.flatMap pieces).length := by
    conv_rhs => rw [← List.take_append_drop k args, List.flatMap_append, List.length_append]
    exact Nat.le_add_right _ _
  have hplain : ∀ p ∈ insertAt j obj (args.flatMap pieces), Plain p := by
    intro p hp
    rcases mem_insertAt.mp hp with rfl | hp
    · exact hobj
    · obtain ⟨a, -, ha⟩ := List.mem_flatMap.mp hp
      exact plain_of_mem_pieces ha
  rw [← insertAt_eq_iff_between hj hk]
  constructor
  · intro h
    have hsame : insertAt j obj (args.flatMap pieces) = insertAt (piecePlace k args) obj (args.flatMap pieces) :=
      calc insertAt j obj (args.flatMap pieces)
        _ = (insertAt j obj (args.flatMap pieces)).flatMap pieces := (flatMap_pieces_plain hplain).symm
        _ = pieces (join (str ", ") (insertAt j obj (args.flatMap pieces))) :=
          (pieces_join (insertAt_ne_nil _ _ _)).symm
        _ = pieces (join (str ", ") (insertAt k obj args)) := by rw [h]
        _ = (insertAt k obj args).flatMap pieces := pieces_join (insertAt_ne_nil _ _ _)
        _ = insertAt (piecePlace k args) obj (args.flatMap pieces) := flatMap_insertAt k hobj args
    rw [hsame, ← flatMap_insertAt k hobj, join_pieces_iff] at h
    exact ⟨fun a ha => tidy_iff.mpr (h a (mem_insertAt.mpr (.inr ha))), hsame⟩
  · rintro ⟨htidy, hsame⟩
    rw [hsame, ← flatMap_insertAt k hobj, join_pieces_iff]
    intro a ha
    rcases mem_insertAt.mp ha with rfl | ha
    · rw [pieces_plain hobj, join]
    · exact tidy_iff.mp (htidy a ha)

/-! ## Types -/

/-- The type that is kept for a local with so many asterisks. -/
def varType (base : Text) (stars : Nat) : Text :=
  if stars = 0 then base else base ++ str " " ++ List.replicate stars '*'

/-- The words of a declaration without its qualifiers. -/
def declWords (d : Text) : List Text :=
  (d.splitOnP fun c => !isWord c).filter fun w =>
    !(["", "const", "volatile", "restrict", "register"].map str).contains w

/-- The declared parameter is of the type of a local with so many asterisks. -/
def hasType (base : Text) (stars : Nat) (d : Text) : Bool :=
  let d := gsub (all [lit "/*", .star true dot, lit "*/"]) [] d
  (declWords d).head? = some base && d.count '*' + d.count '[' = stars

theorem takeWhile_varType {base : Text} (hbase : Identifier base) (stars : Nat) :
    (varType base stars).takeWhile (· ≠ ' ') = base := by
  obtain ⟨c, w, rfl, hc, hw⟩ := hbase
  have hall : ∀ d ∈ c :: w, decide (d ≠ ' ') = true := by
    intro d hd
    have hword : isWord d = true := (List.mem_cons.mp hd).elim (· ▸ isWord_of_isWordStart hc) (hw d)
    rw [decide_eq_true_eq]
    rintro rfl
    exact absurd hword (by decide)
  rw [varType]
  split_ifs
  · rw [← List.append_nil (c :: w), List.takeWhile_append_of_pos hall]
    rfl
  · rw [List.append_assoc, List.takeWhile_append_of_pos hall]
    exact List.append_nil _

/-- The call of the function with the given arguments. -/
def callText (pfx method : Text) (params : List Text) : Text :=
  str "\t\ttry (" ++ pfx ++ str "_" ++ method ++ str "(" ++ join (str ", ") params ++ str "));"

theorem callText_inj {pfx method : Text} {ps qs : List Text} :
    callText pfx method ps = callText pfx method qs ↔ join (str ", ") ps = join (str ", ") qs := by
  simp [callText]

/-- What `method_invoke` makes of a call: it puts the object among the pieces. -/
theorem methodInvoke_callLine (env : Env) (vars : List (Text × Text)) {indent obj method gap body tail base : Text}
    {stars : Nat} {args ds : List Text} {cls : Class} (hindent : White indent) (hobj : Identifier obj)
    (hmethod : Identifier method) (hgap : White gap) (hbase : Identifier base) (hline : '\n' ∉ body)
    (htail : ')' ∉ tail) (hargs : Listed args body) (hall : ∀ a ∈ args, Argument a)
    (hvar : vars.lookup obj = some (varType base stars)) (hcls : env.classes.lookup base = some cls)
    (hds : cls.methods.lookup method = some ds) :
    methodInvoke env vars (callLine indent obj method gap body tail) =
      if (newParams obj base ds (args.flatMap pieces)).1 then
        some (callText cls.pfx method (newParams obj base ds (args.flatMap pieces)).2)
      else none := by
  obtain ⟨m, hm, h1, h2, h3⟩ := search_invokeRx hindent hobj hmethod hgap hline htail
  have hps : split (all [spaces, lit ",", spaces]) body = args.flatMap pieces := split_listed hargs hall
  simp only [methodInvoke, hm, Option.getD_some, h1, h2, h3, hvar, Option.bind_eq_bind, Option.bind_some,
    takeWhile_varType hbase, hcls, hds, hps]
  rfl

/-- The statement has the arguments as they were written, with the object in front of the parameter of
its type, just when the pieces go together to the same texts and the place among them is the same. -/
theorem methodInvoke_inserts_iff (env : Env) (vars : List (Text × Text))
    {indent obj method gap body tail base : Text} {stars : Nat} {args ds : List Text} {cls : Class}
    (hindent : White indent) (hobj : Identifier obj) (hmethod : Identifier method) (hgap : White gap)
    (hbase : Identifier base) (hline : '\n' ∉ body) (htail : ')' ∉ tail) (hargs : Listed args body)
    (hall : ∀ a ∈ args, Argument a) (hvar : vars.lookup obj = some (varType base stars))
    (hcls : env.classes.lookup base = some cls) (hds : cls.methods.lookup method = some ds) :
    methodInvoke env vars (callLine indent obj method gap body tail) =
        some (callText cls.pfx method (insertAt (ds.findIdx (hasType base stars)) obj args)) ↔
      (∀ a ∈ args, Tidy a) ∧ ds.findIdx (shows base) < ds.length ∧
        ds.findIdx (shows base) ≤ (args.flatMap pieces).length ∧
        Between obj (args.flatMap pieces) (ds.findIdx (shows base))
          (piecePlace (ds.findIdx (hasType base stars)) args) := by
  rw [methodInvoke_callLine env vars hindent hobj hmethod hgap hbase hline htail hargs hall hvar hcls hds]
  cases hfound : (newParams obj base ds (args.flatMap pieces)).1 with
  | true =>
    obtain ⟨hlt, hle⟩ := newParams_fst.mp hfound
    rw [if_pos rfl, Option.some.injEq, callText_inj, newParams_snd hfound,
      join_insertAt_iff (plain_identifier hobj) hle]
    tauto
  | false =>
    have hno : ¬(ds.findIdx (shows base) < ds.length ∧
        ds.findIdx (shows base) ≤ (args.flatMap pieces).length) := by
      intro h
      rw [newParams_fst.mpr h] at hfound
      exact Bool.false_ne_true hfound.symm
    simp only [Bool.false_eq_true, if_false, reduceCtorEq, false_iff]
    tauto

def printParams : List Text := ["foo_t *self", "char *fmt", "int n"].map str

/-- A class with one method. -/
def printEnv : Env := ⟨[], [], [(str "foo_t", ⟨str "foo", [(str "print", printParams)]⟩)]⟩

theorem methodInvoke_inserts_nested :
    methodInvoke printEnv [(str "o", varType (str "foo_t") 1)]
        (callLine (str "\t") (str "o") (str "print") [] (str "s , f(a, b)") (str "\n")) =
      some (callText (str "foo") (str "print") [str "o", str "s", str "f(a, b)"]) := by
  have hargs : Listed [str "s", str "f(a, b)"] (str "s , f(a, b)") :=
    .more _ _ [] [' '] [' '] _ (by decide +kernel) (by decide +kernel) (.one _)
  have hall : ∀ a ∈ [str "s", str "f(a, b)"], Argument a := by decide +kernel
  have htidy : ∀ a ∈ [str "s", str "f(a, b)"], Tidy a :=
    List.forall_mem_cons.mpr ⟨⟨[str "s"], by decide +kernel, rfl⟩,
      List.forall_mem_singleton.mpr ⟨[str "f(a", str "b)"], by decide +kernel, rfl⟩⟩
  have hvar : List.lookup (str "o") [(str "o", varType (str "foo_t") 1)] = some (varType (str "foo_t") 1) := rfl
  have hshows : printParams.findIdx (shows (str "foo_t")) = 0 := by decide +kernel
  have hplace : printParams.findIdx (hasType (str "foo_t") 1) = 0 := by decide +kernel
  have hobj : Identifier (str "o") := by decide +kernel
  have hmethod : Identifier (str "print") := by decide +kernel
  have hbase : Identifier (str "foo_t") := by decide +kernel
  have hline : '\n' ∉ str "s , f(a, b)" := by decide +kernel
  refine (methodInvoke_inserts_iff printEnv _ (by decide +kernel) hobj hmethod (by decide +kernel) hbase hline
    (by decide +kernel) hargs hall hvar rfl rfl).mpr ⟨htidy, ?_⟩
  rw [hshows, hplace]
  exact ⟨by decide +kernel, by decide +kernel, fun i _ hi => absurd hi (Nat.not_lt_zero i)⟩

/-- The blanks behind the commas are not those of the source, also inside of a literal. -/
theorem methodInvoke_changes_literal :
    Listed [str "\"a,b\"", str "f(1,2)"] (str "\"a,b\", f(1,2)") ∧
      (∀ a ∈ [str "\"a,b\"", str "f(1,2)"], Argument a) ∧
      printParams.findIdx (hasType (str "foo_t") 1) = 0 ∧
      methodInvoke printEnv [(str "o", varType (str "foo_t") 1)]
          (callLine (str "\t") (str "o") (str "print") [] (str "\"a,b\", f(1,2)") (str "\n")) =
        some (callText (str "foo") (str "print") [str "o", str "\"a, b\"", str "f(1, 2)"]) ∧
      callText (str "foo") (str "print") [str "o", str "\"a, b\"", str "f(1, 2)"] ≠
        callText (str "foo") (str "print") (insertAt 0 (str "o") [str "\"a,b\"", str "f(1,2)"]) :=
  ⟨.more _ _ [] [] [' '] _ (by decide +kernel) (by decide +kernel) (.one _), by decide +kernel, by decide +kernel,
    by decide +kernel, by decide +kernel⟩

end Ncc
