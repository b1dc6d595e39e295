import NaturalC.NccLexer

/-!
# Layout

What `lexer` makes of a text, in the parts that C sees in it: white space, comments, literals and the rest.
The substitutions do not know these parts. Where comments stand alone on their lines and nothing looks like
the start or the end of one, they delete what C leaves out.
-/
namespace Ncc

open Regex

/-! ## Source text -/

/-- A part of the source text as C reads it: white space, comments, literals and single characters. -/
inductive Bit where
  | gap (w : Text)
  | line (t : Text)
  /-- A block comment, or several ones with nothing but white space between them. -/
  | block (t : Text)
  /-- With its quotes. -/
  | quoted (t : Text)
  | code (c : Char)
  deriving DecidableEq, Repr

def Bit.text : Bit → Text
  | .gap w => w
  | .line t => str "//" ++ t
  | .block t => str "/*" ++ (t ++ str "*/")
  | .quoted t => t
  | .code c => [c]

def source (bits : List Bit) : Text := bits.flatMap Bit.text

/-- Comments and white space. -/
def Bit.isLayout : Bit → Bool
  | .gap _ => true
  | .line _ => true
  | .block _ => true
  | _ => false

/-- It starts and ends with a quote. -/
def Quoted (t : Text) : Prop := (t.head? = some '"' ∨ t.head? = some '\'') ∧ t.getLast? = t.head?

instance (t : Text) : Decidable (Quoted t) :=
  inferInstanceAs (Decidable ((t.head? = some '"' ∨ t.head? = some '\'') ∧ t.getLast? = t.head?))

/-- Up to the end of the text, a comment goes on and may be followed by others, with white space between them. The
flag says whether one is open. -/
def comments : Bool → Text → Bool
  | true, '*' :: '/' :: t => comments false t
  | true, _ :: t => comments true t
  | true, [] => true
  | false, '/' :: '*' :: t => comments true t
  | false, c :: t => isSpace c && comments false t
  | false, [] => false

/-- The text of a bit is one for C. -/
def Bit.Lexical : Bit → Prop
  | .gap w => w ≠ [] ∧ White w
  | .line _ => True
  | .block t => comments true t = true
  | .quoted t => Quoted t
  | .code c => isSpace c = false ∧ c ≠ '"' ∧ c ≠ '\''

/-- What may come behind a bit. White space is in one piece, and a line comment goes to the end of the line. -/
def Bit.Fits : Bit → List Bit → Prop
  | .gap _, .gap _ :: _ => False
  | .line _, rest => AtEnd (source rest)
  | .code c, rest => c = '/' → (source rest).head? ≠ some '/' ∧ (source rest).head? ≠ some '*'
  | _, _ => True

def Lexical : List Bit → Prop
  | [] => True
  | b :: rest => b.Lexical ∧ b.Fits rest ∧ Lexical rest

instance : (b : Bit) → Decidable b.Lexical
  | .gap w => inferInstanceAs (Decidable (w ≠ [] ∧ White w))
  | .line _ => .isTrue trivial
  | .block t => inferInstanceAs (Decidable (comments true t = true))
  | .quoted t => inferInstanceAs (Decidable (Quoted t))
  | .code c => inferInstanceAs (Decidable (isSpace c = false ∧ c ≠ '"' ∧ c ≠ '\''))

instance : (b : Bit) → (rest : List Bit) → Decidable (b.Fits rest)
  | .gap _, .gap _ :: _ => .isFalse id
  | .gap _, [] => .isTrue trivial
  | .gap _, .line _ :: _ => .isTrue trivial
  | .gap _, .block _ :: _ => .isTrue trivial
  | .gap _, .quoted _ :: _ => .isTrue trivial
  | .gap _, .code _ :: _ => .isTrue trivial
  | .line _, rest => inferInstanceAs (Decidable (AtEnd (source rest)))
  | .block _, _ => .isTrue trivial
  | .quoted _, _ => .isTrue trivial
  | .code c, rest => inferInstanceAs (Decidable
      (c = '/' → (source rest).head? ≠ some '/' ∧ (source rest).head? ≠ some '*'))

instance decLexical : (bits : List Bit) → Decidable (Lexical bits)
  | [] => .isTrue trivial
  | b :: rest =>
    have := decLexical rest
    inferInstanceAs (Decidable (b.Lexical ∧ b.Fits rest ∧ Lexical rest))

/-- Comments do not go over the end of a line. -/
def Bit.OneLine : Bit → Prop
  | .line t => '\n' ∉ t
  | .block t => '\n' ∉ t
  | _ => True

instance : (b : Bit) → Decidable b.OneLine
  | .gap _ => .isTrue trivial
  | .line t => inferInstanceAs (Decidable ('\n' ∉ t))
  | .block t => inferInstanceAs (Decidable ('\n' ∉ t))
  | .quoted _ => .isTrue trivial
  | .code _ => .isTrue trivial

def OneLine (bits : List Bit) : Prop := ∀ b ∈ bits, b.OneLine

instance (bits : List Bit) : Decidable (OneLine bits) := inferInstanceAs (Decidable (∀ b ∈ bits, b.OneLine))

theorem OneLine.rest {b : Bit} {rest : List Bit} (h : OneLine (b :: rest)) : OneLine rest :=
  fun d hd => h d (List.mem_cons_of_mem b hd)

/-! ## Settled layout -/

/-- A line ends in it. -/
def breaks (w : Text) : Bool := w.contains '\n'

/-- The first three substitutions of `lexer`. -/
def straight (start comma : Bool) (t : Text) : Text := dropAfter ',' comma (trimEnds (dropAfter '\n' start t))

/-- The white space that counts: not at the start, not behind a comma, and only a newline if there is one.
Within comments and literals, there is none behind a comma, around a newline or at the end of a line comment. -/
def settled : Bool → List Bit → List Bit
  | _, [] => []
  | drop, .gap w :: rest =>
    if drop then settled false rest else .gap (if breaks w then ['\n'] else w) :: settled false rest
  | _, .line t :: rest =>
    .line (dropAfter ',' false (trimEnds t)) :: settled ((dropAfter ',' false (trimEnds t)).getLast? = some ',') rest
  | _, .block t :: rest => .block (dropAfter ',' false t) :: settled false rest
  | _, .quoted t :: rest => .quoted (straight false false t) :: settled false rest
  | _, .code c :: rest => .code c :: settled (c = ',') rest

/-- Without white space at the end. -/
def dropFinal : List Bit → List Bit
  | [] => []
  | [.gap _] => []
  | b :: rest => b :: dropFinal rest

theorem dropFinal_cons {b : Bit} {rest : List Bit} (h : ∀ w, b = .gap w → rest ≠ []) :
    dropFinal (b :: rest) = b :: dropFinal rest := by
  cases b with
  | gap w =>
    cases rest with
    | nil => exact absurd rfl (h w rfl)
    | cons _ _ => rfl
  | _ => cases rest <;> rfl

theorem source_cons (b : Bit) (rest : List Bit) : source (b :: rest) = b.text ++ source rest := List.flatMap_cons

theorem source_append (bits rest : List Bit) : source (bits ++ rest) = source bits ++ source rest :=
  List.flatMap_append

theorem not_quote {q : Char} (hq : q = '"' ∨ q = '\'') : isSpace q = false ∧ q ≠ ',' ∧ q ≠ '/' ∧ q ≠ '*' := by
  rcases hq with rfl | rfl
  · decide
  · decide

theorem Quoted.first {t : Text} (h : Quoted t) : ∃ q body, t = q :: body ∧ isSpace q = false := by
  cases t with
  | nil => rcases h.1 with hq | hq <;> cases hq
  | cons q body => exact ⟨q, body, rfl, (not_quote (h.1.imp Option.some.inj Option.some.inj)).1⟩

theorem Quoted.last {t : Text} (h : Quoted t) : ∀ c ∈ t.getLast?, isSpace c = false ∧ c ≠ ',' ∧ c ≠ '/' ∧ c ≠ '*' := by
  intro c hc
  obtain ⟨hq, hlast⟩ := h
  have hfirst : t.head? = some c := hlast ▸ hc
  rw [hfirst] at hq
  exact not_quote (hq.imp Option.some.inj Option.some.inj)

/-- The first character of a bit that is not white space. -/
theorem Bit.start {b : Bit} (hb : b.Lexical) (hgap : ∀ w, b ≠ .gap w) (rest : Text) :
    ∃ c t, b.text ++ rest = c :: t ∧ isSpace c = false := by
  cases b with
  | gap w => exact absurd rfl (hgap w)
  | line t => exact ⟨'/', _, rfl, rfl⟩
  | block t => exact ⟨'/', _, rfl, rfl⟩
  | quoted t =>
    obtain ⟨q, body, rfl, hq⟩ := Quoted.first hb
    exact ⟨q, _, rfl, hq⟩
  | code c => exact ⟨c, _, rfl, hb.1⟩

/-- Behind white space comes something else, or nothing. -/
theorem Lexical.behind_gap {w : Text} {rest : List Bit} (h : Lexical (.gap w :: rest)) :
    ∀ c ∈ (source rest).head?, isSpace c = false := by
  obtain ⟨-, hfits, hrest⟩ := h
  intro c hc
  cases rest with
  | nil => cases hc
  | cons b rest =>
    have hgap : ∀ w, b ≠ .gap w := by
      rintro w rfl
      exact hfits
    obtain ⟨d, t, htext, hd⟩ := Bit.start hrest.1 hgap (source rest)
    rw [source_cons, htext] at hc
    obtain rfl : d = c := by simpa using hc
    exact hd

/-- In front of something else than white space, the flag makes no difference. -/
theorem settled_start {rest : List Bit} (h : ∀ w r, rest ≠ .gap w :: r) (s s' : Bool) :
    settled s rest = settled s' rest := by
  cases rest with
  | nil => cases s <;> cases s' <;> rfl
  | cons b rest =>
    cases b with
    | gap w => exact absurd rfl (h w rest)
    | _ => cases s <;> cases s' <;> rfl

theorem straight_char {c : Char} (hc : isSpace c = false) (start comma : Bool) (t : Text) :
    straight start comma (c :: t) = c :: straight false (c = ',') t := by
  have hn : c ≠ '\n' := fun h => by rw [h] at hc; exact absurd hc (by decide)
  rw [straight, dropAfter, hc, Bool.and_false, if_neg (by decide), decide_eq_false hn, trimEnds_char hc, dropAfter, hc,
    Bool.and_false, if_neg (by decide), straight]

/-- The end of a text that does not end in white space stays, first without the white space around newlines. -/
theorem getLast?_trimmed {x : Text} (hlast : ∀ c ∈ x.getLast?, isSpace c = false) (start : Bool) :
    (trimEnds (dropAfter '\n' start x)).getLast? = x.getLast? := by
  have hfirst := getLast?_dropAfter (a := '\n') hlast start
  rw [getLast?_trimEnds_of (by rwa [hfirst]), hfirst]

theorem getLast?_straight {x : Text} (hlast : ∀ c ∈ x.getLast?, isSpace c = false) (start comma : Bool) :
    (straight start comma x).getLast? = x.getLast? := by
  have htrimmed := getLast?_trimmed hlast start
  rw [straight, getLast?_dropAfter (by rwa [htrimmed]), htrimmed]

/-- What comes before something else than white space. -/
theorem straight_split {x : Text} (hx : x ≠ []) (hlast : ∀ c ∈ x.getLast?, isSpace c = false) (start comma : Bool)
    (t : Text) :
    straight start comma (x ++ t) = straight start comma x ++ straight false (x.getLast? = some ',') t := by
  have hnewline : x.getLast? ≠ some '\n' := fun h => absurd (hlast '\n' h) (by decide)
  have hfirst := getLast?_dropAfter (a := '\n') hlast start
  have htrimmed := getLast?_trimmed hlast start
  have hne : ∀ y : Text, y.getLast? = x.getLast? → y ≠ [] := by
    rintro y hy rfl
    exact hx (List.getLast?_eq_none_iff.mp hy.symm)
  rw [straight, dropAfter_append hx hlast, decide_eq_false hnewline, trimEnds_split (hne _ hfirst) (by rwa [hfirst]),
    dropAfter_append (hne _ htrimmed) (by rwa [htrimmed]), straight, straight]
  simp only [htrimmed]

/-- A text on one line that neither starts nor ends with white space. -/
theorem straight_word {x : Text} (hx : x ≠ []) (hfree : '\n' ∉ x) (hstart : ∀ c ∈ x.head?, isSpace c = false)
    (hlast : ∀ c ∈ x.getLast?, isSpace c = false) (start comma : Bool) (t : Text) :
    straight start comma (x ++ t) = dropAfter ',' comma x ++ straight false (x.getLast? = some ',') t := by
  rw [straight, dropAfter_free_start hfree hx hstart, trimEnds_append hx hfree hlast, dropAfter_append hx hlast,
    straight]

/-- In front of something else than white space, the flags make no difference. -/
theorem straight_start {t : Text} (ht : ∀ c ∈ t.head?, isSpace c = false) (start comma : Bool) :
    straight start comma t = straight false false t := by
  cases t with
  | nil => cases start <;> cases comma <;> rfl
  | cons c t => rw [straight_char (ht c rfl), straight_char (ht c rfl)]

theorem straight_white {w : Text} (hw : White w) (start comma : Bool) : straight start comma w = [] := by
  have hdrop : ∀ c ∈ dropAfter '\n' start w, isSpace c = true :=
    fun c hc => hw c ((dropAfter_sublist '\n' start w).subset hc)
  have htrim : trimEnds (dropAfter '\n' start w) = [] := by
    have hspace := trimEnds_space (z := []) hdrop atEnd_nil
    rw [List.append_nil] at hspace
    exact hspace
  rw [straight, htrim]
  cases comma <;> rfl

/-- White space counts for nothing at the start of a line and behind a comma, and is cut to its last newline. -/
theorem straight_gap {w t : Text} (hw : White w) (ht : ∀ c ∈ t.head?, isSpace c = false) (hne : t ≠ [])
    (start comma : Bool) : straight start comma (w ++ t) =
      (if start || comma then [] else if breaks w then ['\n'] else w) ++ straight false false t := by
  have hX : ∀ c ∈ (trimEnds (dropAfter '\n' false t)).head?, isSpace c = false := by
    obtain ⟨c, t, rfl⟩ := List.exists_cons_of_ne_nil hne
    rw [dropAfter_char, trimEnds_char (ht c rfl)]
    exact ht
  have hstop : ¬ AtEnd (trimEnds (dropAfter '\n' false t)) := by
    obtain ⟨c, t, rfl⟩ := List.exists_cons_of_ne_nil hne
    rw [dropAfter_char, trimEnds_char (ht c rfl)]
    exact not_atEnd fun h => by rw [h] at ht; exact absurd (ht '\n' rfl) (by decide)
  cases start with
  | true => rw [straight, dropAfter_space hw, ← straight, straight_start ht]; rfl
  | false =>
    by_cases hn : '\n' ∈ w
    · have hbreak : breaks w = true := List.contains_iff_mem.mpr hn
      obtain ⟨x, v, rfl, hx⟩ := List.eq_append_cons_of_mem hn
      have hxw : White x := fun c hc => hw c (List.mem_append_left _ hc)
      have hvw : White v := fun c hc => hw c (List.mem_append_right _ (List.mem_cons_of_mem _ hc))
      have hdrop : dropAfter '\n' false (x ++ '\n' :: v ++ t) = x ++ '\n' :: dropAfter '\n' false t := by
        rw [List.append_assoc, List.cons_append, dropAfter_free hx, dropAfter_char, decide_eq_true rfl,
          dropAfter_space hvw, dropAfter_start ht true false]
      have hline : trimEnds ('\n' :: dropAfter '\n' false t) = '\n' :: trimEnds (dropAfter '\n' false t) :=
        trimEnds_inside hstop
      rw [straight, hdrop, trimEnds_space hxw (by rw [hline]; exact atEnd_newline _), hline, hbreak, straight]
      cases comma with
      | true => exact dropAfter_start hX true false
      | false => rfl
    · have hbreak : breaks w = false := by
        rw [breaks, ← Bool.not_eq_true, List.contains_iff_mem]
        exact hn
      rw [straight, dropAfter_free hn, trimEnds_within hn hstop, hbreak, straight]
      cases comma with
      | true =>
        rw [dropAfter_space hw]
        exact dropAfter_start hX true false
      | false => exact dropAfter_free (not_comma_of_white hw) _

theorem straight_quoted {t rest : Text} (ht : Quoted t) (start comma : Bool) :
    straight start comma (t ++ rest) = straight false false t ++ straight false false rest := by
  obtain ⟨q, body, hq, hspace⟩ := ht.first
  have hstart : ∀ c ∈ t.head?, isSpace c = false := by
    intro c hc
    rw [hq] at hc
    cases hc
    exact hspace
  have hne : t ≠ [] := hq ▸ List.cons_ne_nil q body
  have hcomma : t.getLast? ≠ some ',' := fun h => (ht.last ',' h).2.1 rfl
  rw [straight_split hne fun c hc => (ht.last c hc).1, straight_start hstart, decide_eq_false hcomma]

theorem straight_block {t rest : Text} (ht : '\n' ∉ t) (start comma : Bool) :
    straight start comma (str "/*" ++ (t ++ str "*/") ++ rest) =
      str "/*" ++ (dropAfter ',' false t ++ str "*/") ++ straight false false rest := by
  have hlast : (str "/*" ++ (t ++ str "*/")).getLast? = some '/' := by
    rw [← List.append_assoc, List.getLast?_append]
    rfl
  have hfree : '\n' ∉ str "/*" ++ (t ++ str "*/") := by
    simp only [List.mem_append, not_or]
    exact ⟨by decide, ht, by decide⟩
  have hstart : ∀ c ∈ (str "/*" ++ (t ++ str "*/")).head?, isSpace c = false := fun c hc => by
    cases hc
    rfl
  have hinner : dropAfter ',' false (str "/*" ++ (t ++ str "*/")) =
      str "/*" ++ (dropAfter ',' false t ++ str "*/") := by
    have hclose : ∀ c ∈ (str "*/").head?, isSpace c = false := fun c hc => by
      cases hc
      rfl
    rw [dropAfter_free (by decide), dropAfter_before hclose]
    rfl
  have hne : str "/*" ++ (t ++ str "*/") ≠ [] := List.cons_ne_nil _ _
  rw [straight_word hne hfree hstart, dropAfter_start hstart comma false, hinner, hlast]
  · rfl
  · intro c hc
    rw [hlast] at hc
    cases hc
    rfl

theorem source_ne_nil {b : Bit} (hb : b.Lexical) (rest : List Bit) : source (b :: rest) ≠ [] := by
  rw [source_cons]
  intro h
  have htext := (List.append_eq_nil_iff.mp h).1
  cases b with
  | gap w => exact hb.1 htext
  | quoted t =>
    obtain ⟨q, body, rfl, -⟩ := hb.first
    cases htext
  | _ => cases htext

/-- Something else than white space stays what it is. -/
theorem settled_word {b : Bit} (hb : ∀ w, b ≠ .gap w) (s : Bool) (r : List Bit) :
    ∃ b' r', settled s (b :: r) = b' :: r' ∧ ∀ w, b' ≠ .gap w := by
  cases b with
  | gap w => exact absurd rfl (hb w)
  | _ => exact ⟨_, _, by rw [settled], fun w hw => by cases hw⟩

theorem Lexical.not_gap {w : Text} {b : Bit} {r : List Bit} (h : Lexical (.gap w :: b :: r)) : ∀ v, b ≠ .gap v := by
  rintro v rfl
  exact h.2.1

theorem straight_line {t rest : Text} (ht : '\n' ∉ t) (hrest : AtEnd rest) (start comma : Bool) :
    straight start comma (str "//" ++ t ++ rest) = str "//" ++ dropAfter ',' false (trimEnds t) ++
      straight false ((dropAfter ',' false (trimEnds t)).getLast? = some ',') rest := by
  have hfree : '\n' ∉ str "//" ++ t := by
    rw [List.mem_append, not_or]
    exact ⟨by decide, ht⟩
  have hstart : ∀ c ∈ (str "//" ++ t).head?, isSpace c = false := fun c hc => by
    cases hc
    rfl
  have htrim : trimEnds (str "//" ++ t) = str "//" ++ trimEnds t :=
    trimEnds_append (List.cons_ne_nil _ _) (by decide) (fun c hc => by cases hc; rfl) t
  have hlast : ∀ c ∈ (str "//" ++ trimEnds t).getLast?, isSpace c = false := by
    rw [← htrim]
    exact getLast?_trimEnds hfree
  have hcomma : ((str "//" ++ trimEnds t).getLast? = some ',') =
      ((dropAfter ',' false (trimEnds t)).getLast? = some ',') := by
    rw [getLast?_dropAfter (getLast?_trimEnds ht), List.getLast?_append]
    cases (trimEnds t).getLast? with
    | none =>
      have hslash : (str "//").getLast? = some '/' := rfl
      simp [hslash]
    | some c => rfl
  have hne : str "//" ++ trimEnds t ≠ [] := List.cons_ne_nil _ _
  have hslash : str "//" ≠ [] := List.cons_ne_nil _ _
  rw [straight, dropAfter_free_start hfree (List.cons_ne_nil _ _) hstart, trimEnds_line hfree hrest.straight, htrim,
    dropAfter_append hne hlast, dropAfter_free_start (by decide) hslash (fun c hc => by cases hc; rfl), straight]
  simp only [hcomma]

theorem straight_source {bits : List Bit} (h : Lexical bits) (hone : OneLine bits) (start comma : Bool) :
    straight start comma (source bits) = source (dropFinal (settled (start || comma) bits)) := by
  induction bits generalizing start comma with
  | nil => cases start <;> cases comma <;> rfl
  | cons b rest ih =>
    obtain ⟨hb, hfits, hrest⟩ := h
    have hfree : b.OneLine := hone b List.mem_cons_self
    have hrec := ih hrest hone.rest
    rw [source_cons]
    cases b with
    | gap w =>
      cases rest with
      | nil =>
        rw [show source [] = [] from rfl, List.append_nil, Bit.text, straight_white hb.2, settled]
        split
        · rfl
        · rfl
      | cons d r =>
        have hstart := Lexical.behind_gap ⟨hb, hfits, hrest⟩
        have hword := Lexical.not_gap ⟨hb, hfits, hrest⟩
        obtain ⟨b', r', hset, -⟩ := settled_word hword false r
        rw [Bit.text, straight_gap hb.2 hstart (source_ne_nil hrest.1 r), settled, hrec false false, Bool.or_self]
        split
        · rfl
        · rw [dropFinal_cons fun _ _ => by rw [hset]; exact List.cons_ne_nil _ _, source_cons]
          rfl
    | line t =>
      rw [settled, dropFinal_cons (fun w hw => by cases hw), source_cons, Bit.text, straight_line hfree hfits, hrec,
        Bool.false_or]
      rfl
    | block t =>
      rw [settled, dropFinal_cons (fun w hw => by cases hw), source_cons, Bit.text, straight_block hfree, hrec]
      rfl
    | quoted t =>
      rw [settled, dropFinal_cons (fun w hw => by cases hw), source_cons, Bit.text, straight_quoted hb, hrec]
      rfl
    | code c =>
      rw [settled, dropFinal_cons (fun w hw => by cases hw), source_cons, Bit.text, List.singleton_append,
        straight_char hb.1, hrec, Bool.false_or]
      rfl

/-! ## Settled text -/

theorem breaks_iff {w : Text} : breaks w = true ↔ '\n' ∈ w := List.contains_iff_mem

/-- What is known about a bit when the white space has been settled. Behind a line comment that ends in a comma,
the next line follows at once. -/
def Bit.Settled : Bit → List Bit → Prop
  | .gap w, _ => White w ∧ (breaks w = true → w = ['\n'])
  | .quoted t, _ => Quoted t
  | .code c, rest => isSpace c = false ∧ (c = '/' → (source rest).head? ≠ some '/' ∧ (source rest).head? ≠ some '*')
  | _, _ => True

def Settled : List Bit → Prop
  | [] => True
  | b :: rest => b.Settled rest ∧ Settled rest

/-- The text starts as it did, or with white space. -/
theorem head?_settled {c : Char} (hc : isSpace c = false) {bits : List Bit} (hbits : Lexical bits)
    (h : (source (settled false bits)).head? = some c) : (source bits).head? = some c := by
  cases bits with
  | nil => exact h
  | cons b rest =>
    cases b with
    | gap w =>
      exfalso
      rw [settled, if_neg (by decide), source_cons, Bit.text] at h
      obtain ⟨d, u, hw⟩ := List.exists_cons_of_ne_nil hbits.1.1
      have hd : isSpace d = true := hbits.1.2 d (by rw [hw]; exact List.mem_cons_self)
      split at h
      · cases h
        exact absurd hc (by decide)
      · rw [hw] at h
        cases h
        rw [hc] at hd
        exact Bool.false_ne_true hd
    | quoted t =>
      obtain ⟨q, body, rfl, hq⟩ := Quoted.first hbits.1
      rw [settled, source_cons, Bit.text, straight_char hq] at h
      exact h
    | _ => exact h

theorem Quoted.settled {t : Text} (h : Quoted t) : Quoted (straight false false t) := by
  obtain ⟨q, body, hq, hspace⟩ := h.first
  have hhead : (straight false false t).head? = t.head? := by
    rw [hq, straight_char hspace]
    rfl
  rw [Quoted, hhead, getLast?_straight fun c hc => (h.last c hc).1]
  exact h

theorem Lexical.settled {bits : List Bit} (h : Lexical bits) (s : Bool) : Settled (settled s bits) := by
  induction bits generalizing s with
  | nil => exact trivial
  | cons b rest ih =>
    obtain ⟨hb, hfits, hrest⟩ := h
    cases b with
    | gap w =>
      rw [Ncc.settled]
      split
      · exact ih hrest false
      · refine ⟨?_, ih hrest false⟩
        split
        · exact ⟨by decide, fun _ => rfl⟩
        · rename_i hbreak
          exact ⟨hb.2, fun h => absurd h hbreak⟩
    | line t => exact ⟨trivial, ih hrest _⟩
    | block t => exact ⟨trivial, ih hrest false⟩
    | quoted t => exact ⟨hb.settled, ih hrest false⟩
    | code c =>
      refine ⟨⟨hb.1, ?_⟩, ih hrest _⟩
      rintro rfl
      obtain ⟨hslash, hstar⟩ := hfits rfl
      exact ⟨fun h => hslash (head?_settled rfl hrest h), fun h => hstar (head?_settled rfl hrest h)⟩

/-- At most white space is left out. -/
theorem exists_final (bits : List Bit) :
    ∃ tail, bits = dropFinal bits ++ tail ∧ (tail = [] ∨ ∃ w, tail = [.gap w]) := by
  induction bits with
  | nil => exact ⟨[], rfl, .inl rfl⟩
  | cons b rest ih =>
    obtain ⟨tail, hrest, htail⟩ := ih
    by_cases hlast : ∀ w, b = .gap w → rest ≠ []
    · exact ⟨tail, by rw [dropFinal_cons hlast, List.cons_append, ← hrest], htail⟩
    · push Not at hlast
      obtain ⟨w, rfl, rfl⟩ := hlast
      exact ⟨[.gap w], rfl, .inr ⟨w, rfl⟩⟩

theorem dropFinal_start {c : Char} {bits : List Bit} (h : (source (dropFinal bits)).head? = some c) :
    (source bits).head? = some c := by
  obtain ⟨tail, hbits, -⟩ := exists_final bits
  rw [hbits, source_append, List.head?_append, h]
  rfl

theorem Settled.dropFinal {bits : List Bit} (h : Settled bits) : Settled (dropFinal bits) := by
  induction bits with
  | nil => exact trivial
  | cons b rest ih =>
    obtain ⟨hb, hrest⟩ := h
    by_cases hlast : ∀ w, b = .gap w → rest ≠ []
    · rw [dropFinal_cons hlast]
      refine ⟨?_, ih hrest⟩
      cases b with
      | code c =>
        obtain ⟨hspace, hslash⟩ := hb
        refine ⟨hspace, fun hc => ?_⟩
        obtain ⟨hslash, hstar⟩ := hslash hc
        exact ⟨fun h => hslash (dropFinal_start h), fun h => hstar (dropFinal_start h)⟩
      | _ => exact hb
    · push Not at hlast
      obtain ⟨w, rfl, rfl⟩ := hlast
      exact trivial

theorem OneLine.settled {bits : List Bit} (h : OneLine bits) (s : Bool) : OneLine (settled s bits) := by
  induction bits generalizing s with
  | nil => exact h
  | cons b rest ih =>
    have hb : b.OneLine := h b List.mem_cons_self
    have hrest := ih h.rest
    have hkeep : ∀ t, '\n' ∉ t → '\n' ∉ dropAfter ',' false t := fun t ht hn =>
      ht ((dropAfter_sublist ',' false t).subset hn)
    have hcons : ∀ b' s', b'.OneLine → OneLine (b' :: Ncc.settled s' rest) := fun b' s' hb' =>
      List.forall_mem_cons.mpr ⟨hb', hrest s'⟩
    cases b with
    | gap w =>
      rw [Ncc.settled]
      split
      · exact hrest false
      · exact hcons _ _ trivial
    | line t => exact hcons _ _ (hkeep _ fun hn => hb ((trimEnds_sublist t).subset hn))
    | block t => exact hcons _ _ (hkeep t hb)
    | quoted t => exact hcons _ _ trivial
    | code c => exact hcons _ _ trivial

theorem OneLine.dropFinal {bits : List Bit} (h : OneLine bits) : OneLine (dropFinal bits) := by
  obtain ⟨tail, hbits, -⟩ := exists_final bits
  rw [hbits] at h
  exact fun b hb => h b (List.mem_append_left tail hb)

/-! ## Comments -/

/-- Up to the first newline. -/
def firstLine (t : Text) : Text := t.takeWhile (· ≠ '\n')

/-- What stands on a line up to its end, when there are no comments to the end of the line. -/
def restOfLine : List Bit → Text
  | [] => []
  | .gap w :: rest => if breaks w then [] else w ++ restOfLine rest
  | .line _ :: rest => restOfLine rest
  | .quoted t :: rest => if breaks t then firstLine t else t ++ restOfLine rest
  | b :: rest => b.text ++ restOfLine rest

/-- No `/*` in a text has a `*/` behind it on its line, which goes on with `y`. -/
def Unpaired (y : Text) : Text → Prop
  | [] => True
  | c :: t => (c = '/' → t.head? = some '*' → has '*' '/' (firstLine (t.tail ++ y)) = false) ∧ Unpaired y t

instance decUnpaired (y : Text) : (t : Text) → Decidable (Unpaired y t)
  | [] => .isTrue trivial
  | c :: t =>
    have := decUnpaired y t
    inferInstanceAs (Decidable
      ((c = '/' → t.head? = some '*' → has '*' '/' (firstLine (t.tail ++ y)) = false) ∧ Unpaired y t))

def startsLine : List Bit → Bool
  | .line _ :: _ => true
  | _ => false

/-- The comments can be found without knowing C: what looks like the start or the end of one is one. The block
comments on a line have nothing but white space between them, and a comment to the end of the line that ends in a
comma has nothing but such a comment on the next line. -/
def Bit.Legible : Bit → List Bit → Prop
  | .line _, rest => AtEnd (source rest) ∨ startsLine rest = true
  | .block t, rest => has '/' '/' t = false ∧ (source rest).head? ≠ some '/' ∧ has '*' '/' (restOfLine rest) = false
  | .quoted t, rest => has '/' '/' t = false ∧ Unpaired (restOfLine rest) t
  | _, _ => True

def Legible : List Bit → Prop
  | [] => True
  | b :: rest => b.Legible rest ∧ Legible rest

instance : (b : Bit) → (rest : List Bit) → Decidable (b.Legible rest)
  | .gap _, _ => .isTrue trivial
  | .line _, rest => inferInstanceAs (Decidable (AtEnd (source rest) ∨ startsLine rest = true))
  | .block t, rest => inferInstanceAs (Decidable
      (has '/' '/' t = false ∧ (source rest).head? ≠ some '/' ∧ has '*' '/' (restOfLine rest) = false))
  | .quoted t, rest => inferInstanceAs (Decidable (has '/' '/' t = false ∧ Unpaired (restOfLine rest) t))
  | .code _, _ => .isTrue trivial

instance decLegible : (bits : List Bit) → Decidable (Legible bits)
  | [] => .isTrue trivial
  | b :: rest =>
    have := decLegible rest
    inferInstanceAs (Decidable (b.Legible rest ∧ Legible rest))

/-- No `//` in a word or where it meets the next one. -/
theorem cutLines_word {x z : Text} (hx : has '/' '/' x = false) (hmeet : x.getLast? = some '/' → z.head? ≠ some '/') :
    cutLines false (x ++ z) = x ++ cutLines false z := by
  induction x with
  | nil => rfl
  | cons c x ih =>
    rw [has, Bool.or_eq_false_iff] at hx
    have hskip : ¬ (c = '/' ∧ (x ++ z).head? = some '/') := by
      rintro ⟨rfl, hhead⟩
      cases x with
      | nil => exact hmeet rfl hhead
      | cons d x =>
        have hd : d = '/' := by simpa using hhead
        simp [hd] at hx
    rw [List.cons_append, cutLines_skip hskip, ih hx.2]
    · rfl
    · cases x with
      | nil => exact fun h => by cases h
      | cons d x => rwa [List.getLast?_cons_cons] at hmeet

/-- Without comments to the end of the line. -/
def unlined (bits : List Bit) : List Bit := bits.filter fun
  | .line _ => false
  | _ => true

theorem has_of_not_mem {a b : Char} {t : Text} (h : a ∉ t) : has a b t = false := by
  rw [← Bool.not_eq_true, has_iff]
  rintro ⟨u, v, rfl⟩
  exact h (by simp)

/-- Comments go, whether the text starts in one that goes on or not. -/
theorem cutLines_source {bits : List Bit} (h : Settled bits) (hone : OneLine bits) (hlegible : Legible bits) :
    cutLines false (source bits) = source (unlined bits) ∧
      (startsLine bits = true → cutLines true (source bits) = source (unlined bits)) := by
  induction bits with
  | nil => exact ⟨rfl, fun h => by cases h⟩
  | cons b rest ih =>
    obtain ⟨hb, hrest⟩ := h
    obtain ⟨hthis, hlegible⟩ := hlegible
    obtain ⟨hcut, hgo⟩ := ih hrest hone.rest hlegible
    rw [source_cons]
    cases b with
    | gap w =>
      refine ⟨?_, fun h => by cases h⟩
      have hw : '/' ∉ w := fun hmem => absurd (hb.1 '/' hmem) (by decide)
      have hlast : w.getLast? = some '/' → (source rest).head? ≠ some '/' :=
        fun hlast => absurd (List.mem_of_getLast? hlast) hw
      rw [Bit.text, cutLines_word (has_of_not_mem hw) hlast, hcut]
      rfl
    | line t =>
      have hfree : '\n' ∉ t := hone (.line t) List.mem_cons_self
      have hafter : cutLines true (source rest) = source (unlined rest) := by
        rcases hthis with hend | hnext
        · rw [cutLines_atEnd hend, hcut]
        · exact hgo hnext
      have hslash : '\n' ∉ '/' :: t := fun hn => (List.mem_cons.mp hn).elim (by decide) hfree
      refine ⟨?_, fun _ => ?_⟩
      · change cutLines false ('/' :: '/' :: (t ++ source rest)) = _
        rw [cutLines, if_pos ⟨rfl, rfl⟩, ← List.cons_append, cutLines_inside hslash, hafter]
        rfl
      · have hopen : '\n' ∉ str "//" ++ t := fun hn => (List.mem_append.mp hn).elim (by decide) hfree
        rw [Bit.text, cutLines_inside hopen, hafter]
        rfl
    | block t =>
      refine ⟨?_, fun h => by cases h⟩
      obtain ⟨hslash, hnext, -⟩ := hthis
      have hclose : cutLines false (str "*/" ++ source rest) = str "*/" ++ cutLines false (source rest) :=
        cutLines_word (by decide) fun _ => hnext
      have hbody : cutLines false (t ++ (str "*/" ++ source rest)) = t ++ cutLines false (str "*/" ++ source rest) :=
        cutLines_word hslash fun _ h => absurd (Option.some.inj h) (by decide)
      have hopen : cutLines false (str "/*" ++ (t ++ (str "*/" ++ source rest))) =
          str "/*" ++ cutLines false (t ++ (str "*/" ++ source rest)) :=
        cutLines_word (by decide) fun h => absurd h (by decide)
      rw [Bit.text, List.append_assoc, List.append_assoc, hopen, hbody, hclose, hcut]
      simp [unlined, source, Bit.text]
    | quoted t =>
      refine ⟨?_, fun h => by cases h⟩
      have hmeet : t.getLast? = some '/' → (source rest).head? ≠ some '/' :=
        fun h => absurd rfl (Quoted.last hb '/' h).2.2.1
      rw [Bit.text, cutLines_word hthis.1 hmeet, hcut]
      rfl
    | code c =>
      refine ⟨?_, fun h => by cases h⟩
      rw [Bit.text, List.singleton_append, cutLines_skip fun h => (hb.2 h.1).1 h.2, hcut]
      rfl

/-- Without comments. -/
def uncommented (bits : List Bit) : List Bit := bits.filter fun
  | .line _ => false
  | .block _ => false
  | _ => true

/-- The first line is followed by its end. -/
theorem exists_firstLine (u : Text) {z : Text} (hz : AtEnd z) :
    ∃ z', u ++ z = firstLine u ++ z' ∧ AtEnd z' ∧ '\n' ∉ firstLine u := by
  induction u with
  | nil => exact ⟨z, rfl, hz, List.not_mem_nil⟩
  | cons c u ih =>
    by_cases hc : c = '\n'
    · refine ⟨'\n' :: (u ++ z), ?_, atEnd_newline _, ?_⟩
      · rw [hc]
        rfl
      · rw [hc]
        exact List.not_mem_nil
    · obtain ⟨z', hsplit, hend, hfree⟩ := ih
      have hline : firstLine (c :: u) = c :: firstLine u := List.takeWhile_cons_of_pos (by simpa using hc)
      refine ⟨z', by rw [hline, List.cons_append, hsplit, List.cons_append], hend, ?_⟩
      rw [hline]
      exact fun h => (List.mem_cons.mp h).elim (fun h => hc h.symm) hfree

theorem firstLine_append {t : Text} (ht : '\n' ∈ t) (y : Text) : firstLine (t ++ y) = firstLine t := by
  induction t with
  | nil => cases ht
  | cons c t ih =>
    by_cases hc : c = '\n'
    · rw [hc]
      rfl
    · have ht' : '\n' ∈ t := (List.mem_cons.mp ht).resolve_left fun h => hc h.symm
      rw [List.cons_append, firstLine, firstLine, List.takeWhile_cons_of_pos (by simpa using hc),
        List.takeWhile_cons_of_pos (by simpa using hc)]
      exact congrArg (c :: ·) (ih ht')

/-- What stands on the line is followed by its end. -/
theorem source_unlined {bits : List Bit} (h : Settled bits) (hone : OneLine bits) :
    ∃ z, source (unlined bits) = restOfLine bits ++ z ∧ AtEnd z ∧ '\n' ∉ restOfLine bits := by
  induction bits with
  | nil => exact ⟨[], rfl, atEnd_nil, List.not_mem_nil⟩
  | cons b rest ih =>
    obtain ⟨hb, hrest⟩ := h
    have hfree : b.OneLine := hone b List.mem_cons_self
    obtain ⟨z, hz, hend, hline⟩ := ih hrest hone.rest
    have hword : ∀ x, '\n' ∉ x → x ++ source (unlined rest) = (x ++ restOfLine rest) ++ z ∧ AtEnd z ∧
        '\n' ∉ x ++ restOfLine rest := fun x hx =>
      ⟨by rw [hz, List.append_assoc], hend, fun hn => (List.mem_append.mp hn).elim hx hline⟩
    cases b with
    | gap w =>
      rw [restOfLine]
      split
      · rename_i hbreak
        obtain rfl := hb.2 hbreak
        exact ⟨'\n' :: source (unlined rest), rfl, atEnd_newline _, List.not_mem_nil⟩
      · rename_i hbreak
        exact ⟨z, hword w fun hn => hbreak (breaks_iff.mpr hn)⟩
    | line t => exact ⟨z, hz, hend, hline⟩
    | block t =>
      refine ⟨z, hword (Bit.block t).text fun hn => ?_⟩
      simp only [Bit.text, List.mem_append] at hn
      rcases hn with hn | hn | hn
      · exact absurd hn (by decide)
      · exact hfree hn
      · exact absurd hn (by decide)
    | quoted t =>
      rw [restOfLine]
      split
      · rename_i hbreak
        -- The line ends within the literal.
        have hline := firstLine_append (breaks_iff.mp hbreak) (source (unlined rest))
        obtain ⟨z', hsplit, hend', hfree'⟩ := exists_firstLine (t ++ source (unlined rest)) atEnd_nil
        rw [List.append_nil, hline] at hsplit
        rw [hline] at hfree'
        exact ⟨z', hsplit, hend', hfree'⟩
      · rename_i hbreak
        exact ⟨z, hword t fun hn => hbreak (breaks_iff.mpr hn)⟩
    | code c =>
      refine ⟨z, hword [c] fun hn => ?_⟩
      rw [List.mem_singleton] at hn
      rw [← hn] at hb
      exact absurd hb.1 (by decide)

theorem replaceAll_white (n : Nat) (prev : Option Char) {w : Text} (hw : White w) (z : Text) :
    ∃ prev', replaceAll blockRx [] n prev (w ++ z) = w ++ replaceAll blockRx [] n prev' z := by
  induction w generalizing prev with
  | nil => exact ⟨prev, rfl⟩
  | cons c w ih =>
    obtain ⟨prev', hrest⟩ := ih (some c) fun d hd => hw d (List.mem_cons_of_mem _ hd)
    have hc : c ≠ '/' := fun hc => absurd (hw c List.mem_cons_self) (by rw [hc]; decide)
    exact ⟨prev', by
      rw [List.cons_append, replaceAll_skip (run_block_none fun h => absurd h hc), hrest]
      rfl⟩

/-- In a literal, nothing is taken for a comment. -/
theorem replaceAll_unpaired (n : Nat) (prev : Option Char) {t y z : Text} (ht : Unpaired y t) (hz : AtEnd z)
    (hlast : ∀ c ∈ t.getLast?, c ≠ '/') :
    ∃ prev', replaceAll blockRx [] n prev (t ++ (y ++ z)) = t ++ replaceAll blockRx [] n prev' (y ++ z) := by
  induction t generalizing prev with
  | nil => exact ⟨prev, rfl⟩
  | cons c t ih =>
    have hlast' : ∀ d ∈ t.getLast?, d ≠ '/' := by
      cases t with
      | nil => exact fun d hd => by cases hd
      | cons d t => rwa [List.getLast?_cons_cons] at hlast
    obtain ⟨prev', hrest⟩ := ih (some c) ht.2 hlast'
    have hnone : run blockRx ⟨prev, c :: (t ++ (y ++ z)), []⟩ = [] := by
      obtain ⟨z', hsplit, hend, hfree⟩ := exists_firstLine (t ++ y) hz
      rw [← List.append_assoc, hsplit, ← List.cons_append]
      apply run_block_nil hfree hend
      rintro rfl hstar
      cases t with
      | nil => exact absurd rfl (hlast '/' rfl)
      | cons d t =>
        have hd : d ≠ '\n' := by
          rintro rfl
          cases hstar
        have hline : firstLine (d :: t ++ y) = d :: firstLine (t ++ y) := List.takeWhile_cons_of_pos (by simpa using hd)
        rw [hline] at hstar ⊢
        exact ht.1 rfl hstar
    refine ⟨prev', ?_⟩
    rw [List.cons_append, replaceAll_skip hnone, hrest]
    rfl

/-- The next character, when the comment in between is left out. -/
theorem unlined_start {bits : List Bit} (h : Settled bits) (hstar : (source (unlined bits)).head? = some '*') :
    (source bits).head? = some '*' ∨ (source bits).head? = some '/' := by
  induction bits with
  | nil => cases hstar
  | cons b rest ih =>
    obtain ⟨hb, hrest⟩ := h
    cases b with
    | gap w =>
      cases w with
      | nil => exact ih hrest hstar
      | cons d w => exact .inl hstar
    | line t => exact .inr rfl
    | block t => exact .inr rfl
    | quoted t =>
      obtain ⟨q, body, rfl, -⟩ := Quoted.first hb
      exact .inl hstar
    | code c => exact .inl hstar

/-- Each block comment is the match. -/
theorem replaceAll_source {n : Nat} {prev : Option Char} {bits : List Bit} (h : Settled bits) (hone : OneLine bits)
    (hlegible : Legible bits) (hn : (source (unlined bits)).length ≤ n) :
    replaceAll blockRx [] n prev (source (unlined bits)) = source (uncommented bits) := by
  induction bits generalizing n prev with
  | nil => exact replaceAll_nil blockRx [] n prev
  | cons b rest ih =>
    obtain ⟨hb, hrest⟩ := h
    obtain ⟨hthis, hlegible⟩ := hlegible
    have hfree : b.OneLine := hone b List.mem_cons_self
    have hrestLine := hone.rest
    obtain ⟨z, hz, hend, hline⟩ := source_unlined hrest hrestLine
    have hsource : ∀ d : Bit, unlined (d :: rest) = d :: unlined rest →
        source (unlined (d :: rest)) = d.text ++ source (unlined rest) := fun d hd => by rw [hd, source_cons]
    cases b with
    | gap w =>
      rw [hsource _ rfl] at hn ⊢
      rw [List.length_append] at hn
      obtain ⟨prev', hw⟩ := replaceAll_white n prev hb.1 (source (unlined rest))
      rw [Bit.text, hw, ih hrest hrestLine hlegible (by omega)]
      rfl
    | line t => exact ih hrest hrestLine hlegible hn
    | block t =>
      rw [hsource _ rfl] at hn ⊢
      rw [List.length_append] at hn
      obtain ⟨prev', hrun⟩ := head?_block prev hfree hline hend hthis.2.2
      have hlong : (Bit.block t).text ≠ [] := List.cons_ne_nil _ _
      have hpos := List.length_pos_iff.mpr hlong
      obtain ⟨k, rfl⟩ : ∃ k, n = k + 1 := ⟨n - 1, by omega⟩
      have htext : (Bit.block t).text ++ source (unlined rest) =
          str "/*" ++ (t ++ (str "*/" ++ (restOfLine rest ++ z))) := by
        rw [hz, Bit.text, List.append_assoc, List.append_assoc]
      rw [← htext] at hrun
      rw [replaceAll_match hrun hz.symm hlong, List.nil_append, ih hrest hrestLine hlegible (by omega)]
      rfl
    | quoted t =>
      rw [hsource _ rfl] at hn ⊢
      rw [List.length_append] at hn
      have hquote : ∀ c ∈ t.getLast?, c ≠ '/' := fun c hc => (Quoted.last hb c hc).2.2.1
      obtain ⟨prev', hskip⟩ := replaceAll_unpaired n prev hthis.2 hend hquote
      rw [← hz] at hskip
      rw [Bit.text, hskip, ih hrest hrestLine hlegible (by omega)]
      rfl
    | code c =>
      rw [hsource _ rfl] at hn ⊢
      rw [List.length_append] at hn
      have hnone : run blockRx ⟨prev, c :: source (unlined rest), []⟩ = [] := by
        apply run_block_none
        intro hc hstar
        obtain ⟨hslash', hstar'⟩ := hb.2 hc
        exact (unlined_start hrest hstar).elim hstar' hslash'
      rw [Bit.text, List.singleton_append, replaceAll_skip hnone, ih hrest hrestLine hlegible (by omega)]
      rfl

/-! ## The lexer -/

/-- The text of a bit on one line, without comments. -/
def Bit.flat : Bit → Text
  | .gap w => if breaks w then [] else w
  | .quoted t => t.filter (· ≠ '\n')
  | .code c => [c]
  | _ => []

def flat (bits : List Bit) : Text := bits.flatMap Bit.flat

theorem flat_cons (b : Bit) (rest : List Bit) : flat (b :: rest) = b.flat ++ flat rest := List.flatMap_cons

theorem filter_uncommented {bits : List Bit} (h : Settled bits) (hone : OneLine bits) :
    (source (uncommented bits)).filter (· ≠ '\n') = flat bits := by
  induction bits with
  | nil => rfl
  | cons b rest ih =>
    obtain ⟨hb, hrest⟩ := h
    have hfree : b.OneLine := hone b List.mem_cons_self
    have hrec := ih hrest hone.rest
    have hkeep : ∀ x : Text, '\n' ∉ x → x.filter (· ≠ '\n') = x := by
      intro x hx
      apply List.filter_eq_self.mpr
      intro c hc
      simpa using fun h : c = '\n' => hx (h ▸ hc)
    have hflat : ∀ d : Bit, uncommented (d :: rest) = d :: uncommented rest →
        (source (uncommented (d :: rest))).filter (· ≠ '\n') = d.text.filter (· ≠ '\n') ++ flat rest := by
      intro d hd
      rw [hd, source_cons, List.filter_append, hrec]
    cases b with
    | gap w =>
      rw [hflat _ rfl, flat_cons, Bit.text, Bit.flat]
      split
      · rename_i hbreak
        rw [hb.2 hbreak]
        rfl
      · rename_i hbreak
        rw [hkeep w fun hn => hbreak (breaks_iff.mpr hn)]
    | line t => exact hrec
    | block t => exact hrec
    | quoted t => exact hflat _ rfl
    | code c =>
      have hc : '\n' ∉ [c] := by
        rw [List.mem_singleton]
        intro hn
        rw [← hn] at hb
        exact absurd hb.1 (by decide)
      rw [hflat _ rfl, Bit.text, hkeep [c] hc]
      rfl

/-- The layout as the comments are looked for. -/
def layout (bits : List Bit) : List Bit := dropFinal (settled true bits)

/-- What `lexer` gets out of a text whose comments it can find. -/
theorem lexer_source {bits : List Bit} (h : Lexical bits) (hone : OneLine bits) (hlegible : Legible (layout bits)) :
    lexer (source bits) = split (lit ";") (squeeze false (flat (layout bits))) := by
  have hsettled : Settled (layout bits) := (h.settled true).dropFinal
  have hlines : OneLine (layout bits) := (hone.settled true).dropFinal
  have hstraight : dropAfter ',' false (trimEnds (dropAfter '\n' true (source bits))) = source (layout bits) :=
    straight_source h hone true false
  have hblocks : gsub blockRx [] (source (unlined (layout bits))) = source (uncommented (layout bits)) :=
    replaceAll_source hsettled hlines hlegible (Nat.le_refl _)
  simp only [lexer]
  rw [gsub_starts, gsub_ends, gsub_commas, hstraight, gsub_lineComments,
    (cutLines_source hsettled hlines hlegible).1]
  rw [← blockRx, hblocks, gsub_newlines, filter_uncommented hsettled hlines, gsub_blanks]

end Ncc
