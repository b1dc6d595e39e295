import NaturalC.Regex

/-!
# Substitutions

`s/r/with/g` goes through a text from left to right: it copies what no match starts at, and a match is
written over. So a function that does the same with each character is the substitution. Four such functions
are white space behind a character or at the ends of lines, comments up to the end of a line, and blocks
of white space.
-/
namespace Regex

variable {r : Rx} {subst : Text} {n : Nat} {prev : Option Char} {c : Char} {t w z : Text} {e : At}

theorem replaceAll_nil (r : Rx) (subst : Text) (n : Nat) (prev : Option Char) : replaceAll r subst n prev [] = [] := by
  cases n with
  | zero => rfl
  | succ n =>
    rw [replaceAll, searchFrom]
    cases run r ⟨prev, [], []⟩ with
    | nil => rfl
    | cons e es => rfl

/-- A character that no match starts at is copied. -/
theorem replaceAll_skip (h : run r ⟨prev, c :: t, []⟩ = []) :
    replaceAll r subst n prev (c :: t) = c :: replaceAll r subst n (some c) t := by
  cases n with
  | zero => rfl
  | succ n =>
    rw [replaceAll, replaceAll, searchFrom, h]
    cases hm : searchFrom r (some c) t with
    | none => rfl
    | some m =>
      by_cases hall : m.all = []
      · simp [hall]
      · simp [hall]

/-- A match is written over. -/
theorem replaceAll_match (h : (run r ⟨prev, w ++ z, []⟩).head? = some e) (hz : e.rest = z) (hw : w ≠ []) :
    replaceAll r subst (n + 1) prev (w ++ z) = subst ++ replaceAll r subst n w.getLast? z := by
  obtain ⟨es, hes⟩ := List.head?_eq_some_iff.mp h
  have htake : (w ++ z).take ((w ++ z).length - z.length) = w := by
    rw [List.length_append, Nat.add_sub_cancel, List.take_left]
  cases ht : w ++ z with
  | nil => exact absurd (List.append_eq_nil_iff.mp ht).1 hw
  | cons d u =>
    rw [ht] at hes htake
    rw [replaceAll, searchFrom, hes]
    simp only [hz, htake, if_neg hw, List.nil_append]

/-- `f` does with each character what the substitution does. -/
def Substitutes (r : Rx) (subst : Text) (f : Option Char → Text → Text) (prev : Option Char) (c : Char)
    (t : Text) : Prop :=
  (run r ⟨prev, c :: t, []⟩ = [] ∧ f prev (c :: t) = c :: f (some c) t) ∨
    ∃ w z e, c :: t = w ++ z ∧ w ≠ [] ∧ (run r ⟨prev, w ++ z, []⟩).head? = some e ∧ e.rest = z ∧
      f prev (c :: t) = subst ++ f w.getLast? z

theorem replaceAll_eq {f : Option Char → Text → Text} (hnil : ∀ prev, f prev [] = [])
    (hcons : ∀ prev c t, Substitutes r subst f prev c t) (hn : t.length ≤ n) :
    replaceAll r subst n prev t = f prev t := by
  induction hm : t.length using Nat.strongRecOn generalizing t n prev with
  | ind m ih =>
    cases t with
    | nil => rw [replaceAll_nil, hnil]
    | cons c t =>
      rw [List.length_cons] at hn hm
      obtain ⟨hrun, hf⟩ | ⟨w, z, e, hwz, hw, hrun, he, hf⟩ := hcons prev c t
      · rw [replaceAll_skip hrun, hf, ih t.length (by omega) (by omega) rfl]
      · have hlen := congrArg List.length hwz
        rw [List.length_cons, List.length_append] at hlen
        have hpos := List.length_pos_iff.mpr hw
        obtain ⟨k, rfl⟩ : ∃ k, n = k + 1 := ⟨n - 1, by omega⟩
        rw [hf, hwz, replaceAll_match hrun he hw, ih z.length (by omega) (by omega) rfl]

theorem gsub_eq {f : Option Char → Text → Text} (hnil : ∀ prev, f prev [] = [])
    (hcons : ∀ prev c t, Substitutes r subst f prev c t) (t : Text) : gsub r subst t = f none t :=
  replaceAll_eq hnil hcons (Nat.le_refl _)

/-! ## White space behind a character -/

/-- Without the white space behind each `a`, and at the start if the flag is set. -/
def dropAfter (a : Char) : Bool → Text → Text
  | _, [] => []
  | drop, c :: t => if drop && isSpace c then dropAfter a true t else c :: dropAfter a (c = a) t

theorem dropAfter_char (a c : Char) (t : Text) : dropAfter a false (c :: t) = c :: dropAfter a (c = a) t := by
  rw [dropAfter, Bool.false_and, if_neg (by decide)]

theorem dropAfter_sublist (a : Char) (s : Bool) (t : Text) : (dropAfter a s t).Sublist t := by
  induction t generalizing s with
  | nil => exact List.Sublist.refl _
  | cons c t ih =>
    rw [dropAfter]
    split
    · exact (ih true).cons c
    · exact (ih _).cons_cons c

theorem dropAfter_space {a : Char} (hw : ∀ c ∈ w, isSpace c = true) (z : Text) :
    dropAfter a true (w ++ z) = dropAfter a true z := by
  induction w with
  | nil => rfl
  | cons c w ih =>
    rw [List.cons_append, dropAfter, hw c List.mem_cons_self, Bool.and_self, if_pos rfl]
    exact ih fun d hd => hw d (List.mem_cons_of_mem _ hd)

/-- In front of something else, the flag makes no difference. -/
theorem dropAfter_start {a : Char} (hz : ∀ c ∈ z.head?, isSpace c = false) (s s' : Bool) :
    dropAfter a s z = dropAfter a s' z := by
  cases z with
  | nil => cases s <;> cases s' <;> rfl
  | cons c z =>
    have hc := hz c rfl
    rw [dropAfter, dropAfter, hc, Bool.and_false, Bool.and_false]

/-- What follows a text that does not end in white space. -/
theorem dropAfter_append {a : Char} {x : Text} (hx : x ≠ []) (hlast : ∀ c ∈ x.getLast?, isSpace c = false)
    (s : Bool) (z : Text) :
    dropAfter a s (x ++ z) = dropAfter a s x ++ dropAfter a (x.getLast? = some a) z := by
  induction x generalizing s with
  | nil => exact absurd rfl hx
  | cons c x ih =>
    cases x with
    | nil =>
      have hc := hlast c rfl
      simp [dropAfter, hc]
    | cons d x =>
      have hlast' : ∀ e ∈ (d :: x).getLast?, isSpace e = false := by
        intro e he
        exact hlast e (by rw [List.getLast?_cons_cons]; exact he)
      rw [List.cons_append, dropAfter, dropAfter, List.getLast?_cons_cons, ih (List.cons_ne_nil d x) hlast',
        ih (List.cons_ne_nil d x) hlast']
      split
      · rfl
      · rfl

/-- The end of a text that does not end in white space stays. -/
theorem getLast?_dropAfter {a : Char} {x : Text} (hlast : ∀ c ∈ x.getLast?, isSpace c = false) (s : Bool) :
    (dropAfter a s x).getLast? = x.getLast? := by
  by_cases hx : x = []
  · rw [hx, dropAfter]
  · obtain ⟨y, c, rfl⟩ := List.eq_nil_or_concat' x |>.resolve_left hx
    have hc := hlast c (by simp)
    suffices h : ∃ y', dropAfter a s (y ++ [c]) = y' ++ [c] by
      obtain ⟨y', h⟩ := h
      rw [h, List.getLast?_concat, List.getLast?_concat]
    clear hx hlast
    induction y generalizing s with
    | nil => exact ⟨[], by simp [dropAfter, hc]⟩
    | cons d y ih =>
      rw [List.cons_append, dropAfter]
      split
      · exact ih true
      · obtain ⟨y', h⟩ := ih (d = a)
        exact ⟨d :: y', by rw [h]; rfl⟩

/-- What comes before something else than white space. -/
theorem dropAfter_before {a : Char} (hz : ∀ c ∈ z.head?, isSpace c = false) (s : Bool) (x : Text) :
    dropAfter a s (x ++ z) = dropAfter a s x ++ dropAfter a false z := by
  induction x generalizing s with
  | nil => exact dropAfter_start hz s false
  | cons c x ih =>
    rw [List.cons_append, dropAfter, dropAfter, ih, ih]
    split
    · rfl
    · rfl

/-- A text without the character is left alone behind its start. -/
theorem dropAfter_free {a : Char} (ha : a ∉ w) (z : Text) : dropAfter a false (w ++ z) = w ++ dropAfter a false z := by
  induction w with
  | nil => rfl
  | cons c w ih =>
    have hc : c ≠ a := fun h => ha (h ▸ List.mem_cons_self)
    rw [List.cons_append, dropAfter_char, decide_eq_false hc, ih fun h => ha (List.mem_cons_of_mem _ h)]
    rfl

/-- The flag is about white space at the start. -/
theorem dropAfter_free_start {a : Char} (ha : a ∉ w) (hw : w ≠ []) (hstart : ∀ c ∈ w.head?, isSpace c = false)
    (s : Bool) (z : Text) : dropAfter a s (w ++ z) = w ++ dropAfter a false z := by
  rw [← dropAfter_free ha z]
  apply dropAfter_start
  intro c hc
  rw [List.head?_append_of_ne_nil _ hw] at hc
  exact hstart c hc

/-! ## White space at the ends of lines -/

/-- Without the white space in front of each newline and at the end. -/
def trimEnds (t : Text) : Text :=
  t.foldr (fun c u => if isSpace c && (u.isEmpty || u.head? == some '\n') then u else c :: u) []

theorem trimEnds_cons (c : Char) (t : Text) : trimEnds (c :: t) =
    if isSpace c && ((trimEnds t).isEmpty || (trimEnds t).head? == some '\n') then trimEnds t
    else c :: trimEnds t := rfl

theorem trimEnds_char (hc : isSpace c = false) (t : Text) : trimEnds (c :: t) = c :: trimEnds t := by
  rw [trimEnds_cons, hc, Bool.false_and]
  rfl

/-- The end of a text, or the end of a line. -/
def AtEnd (u : Text) : Prop := ∀ c ∈ u.head?, c = '\n'

theorem atEnd_iff (u : Text) : (u.isEmpty || u.head? == some '\n') = true ↔ AtEnd u := by
  cases u with
  | nil => simp [AtEnd]
  | cons c u => simp [AtEnd]

instance (u : Text) : Decidable (AtEnd u) := decidable_of_iff _ (atEnd_iff u)

theorem trimEnds_end (hc : isSpace c = true) (h : AtEnd (trimEnds t)) : trimEnds (c :: t) = trimEnds t := by
  rw [trimEnds_cons, hc, Bool.true_and, if_pos ((atEnd_iff _).mpr h)]

theorem trimEnds_inside (h : ¬ AtEnd (trimEnds t)) : trimEnds (c :: t) = c :: trimEnds t := by
  rw [trimEnds_cons, if_neg]
  rw [Bool.and_eq_true, atEnd_iff]
  exact fun hb => h hb.2

/-- White space at an end goes. -/
theorem trimEnds_space (hw : ∀ c ∈ w, isSpace c = true) (h : AtEnd (trimEnds z)) :
    trimEnds (w ++ z) = trimEnds z := by
  induction w with
  | nil => rfl
  | cons c w ih =>
    have hrest := ih fun d hd => hw d (List.mem_cons_of_mem _ hd)
    rw [List.cons_append, trimEnds_end (hw c List.mem_cons_self) (by rw [hrest]; exact h), hrest]

theorem not_atEnd {u : Text} (hc : c ≠ '\n') : ¬ AtEnd (c :: u) := fun h => hc (h c rfl)

theorem atEnd_nil : AtEnd [] := by
  intro c hc
  cases hc

theorem atEnd_newline (u : Text) : AtEnd ('\n' :: u) := fun _ h => (Option.some.inj h).symm

/-- White space within a line stays. -/
theorem trimEnds_within (hw : '\n' ∉ w) (h : ¬ AtEnd (trimEnds z)) : trimEnds (w ++ z) = w ++ trimEnds z := by
  induction w with
  | nil => rfl
  | cons c w ih =>
    have hrest := ih fun hd => hw (List.mem_cons_of_mem _ hd)
    rw [List.cons_append, trimEnds_inside, hrest]
    · rfl
    · rw [hrest]
      cases w with
      | nil => exact h
      | cons d w => exact not_atEnd fun hd => hw (hd ▸ List.mem_cons_of_mem _ List.mem_cons_self)

/-- What follows a text that ends in something else than white space. -/
theorem trimEnds_append {x : Text} (hx : x ≠ []) (hfree : '\n' ∉ x) (hlast : ∀ c ∈ x.getLast?, isSpace c = false)
    (z : Text) : trimEnds (x ++ z) = x ++ trimEnds z := by
  obtain ⟨y, c, rfl⟩ := List.eq_nil_or_concat' x |>.resolve_left hx
  have hc := hlast c (by simp)
  have hend : trimEnds (c :: z) = c :: trimEnds z := trimEnds_char hc z
  rw [List.append_assoc, List.singleton_append, trimEnds_within, hend, List.append_assoc, List.singleton_append]
  · exact fun hy => hfree (List.mem_append_left _ hy)
  · rw [hend]
    exact not_atEnd fun hn => hfree (by simp [hn])

/-- What comes before something else than white space, whatever follows. -/
theorem trimEnds_until (hc : isSpace c = false) (x : Text) :
    ∃ x', ∀ z, trimEnds (x ++ c :: z) = x' ++ c :: trimEnds z := by
  induction x with
  | nil => exact ⟨[], fun z => trimEnds_char hc z⟩
  | cons d x ih =>
    obtain ⟨x', h⟩ := ih
    by_cases hend : isSpace d = true ∧ (x' ++ [c]).head? = some '\n'
    · refine ⟨x', fun z => ?_⟩
      rw [List.cons_append, trimEnds_end hend.1, h]
      rw [h]
      cases x' with
      | nil => exact fun e he => by cases he; exact Option.some.inj hend.2
      | cons e x' => exact fun e he => by cases he; exact Option.some.inj hend.2
    · refine ⟨d :: x', fun z => ?_⟩
      have hhead : ((x' ++ c :: trimEnds z).isEmpty || (x' ++ c :: trimEnds z).head? == some '\n') =
          ((x' ++ [c]).head? == some '\n') := by
        cases x' <;> simp
      rw [List.cons_append, trimEnds_cons, h, hhead, if_neg]
      · rfl
      · simpa using hend

theorem trimEnds_split {x : Text} (hx : x ≠ []) (hlast : ∀ c ∈ x.getLast?, isSpace c = false) (z : Text) :
    trimEnds (x ++ z) = trimEnds x ++ trimEnds z := by
  obtain ⟨y, c, rfl⟩ := List.eq_nil_or_concat' x |>.resolve_left hx
  obtain ⟨y', h⟩ := trimEnds_until (hlast c (by simp)) y
  rw [List.append_assoc, List.singleton_append, h, h]
  simp [trimEnds]

/-- The end of a text that does not end in white space stays. -/
theorem getLast?_trimEnds_of {x : Text} (hlast : ∀ c ∈ x.getLast?, isSpace c = false) :
    (trimEnds x).getLast? = x.getLast? := by
  rcases List.eq_nil_or_concat' x with rfl | ⟨y, c, rfl⟩
  · rfl
  · obtain ⟨y', h⟩ := trimEnds_until (hlast c (by simp)) y
    rw [h]
    simp [trimEnds]

theorem trimEnds_sublist (t : Text) : (trimEnds t).Sublist t := by
  induction t with
  | nil => exact List.Sublist.refl _
  | cons c t ih =>
    rw [trimEnds_cons]
    split
    · exact ih.cons c
    · exact ih.cons_cons c

/-- The last line of what comes before a newline. -/
theorem trimEnds_line (ht : '\n' ∉ t) (h : AtEnd (trimEnds z)) : trimEnds (t ++ z) = trimEnds t ++ trimEnds z := by
  induction t with
  | nil => rfl
  | cons c t ih =>
    have hrest := ih fun hd => ht (List.mem_cons_of_mem _ hd)
    rw [List.cons_append, trimEnds_cons, trimEnds_cons, hrest]
    cases htrim : trimEnds t with
    | nil => cases hc : isSpace c with
      | false => simp
      | true => simp [(atEnd_iff _).mpr h]
    | cons d u =>
      have hd : d ∈ t := (trimEnds_sublist t).subset (by rw [htrim]; exact List.mem_cons_self)
      have hne : d ≠ '\n' := fun hn => ht (hn ▸ List.mem_cons_of_mem _ hd)
      simp [hne]

theorem getLast?_trimEnds (ht : '\n' ∉ t) : ∀ c ∈ (trimEnds t).getLast?, isSpace c = false := by
  induction t with
  | nil => exact fun c hc => by cases hc
  | cons c t ih =>
    have hrest := ih fun h => ht (List.mem_cons_of_mem _ h)
    by_cases hend : isSpace c = true ∧ AtEnd (trimEnds t)
    · rw [trimEnds_end hend.1 hend.2]
      exact hrest
    · have hkeep : trimEnds (c :: t) = c :: trimEnds t := by
        rw [trimEnds_cons, if_neg]
        rw [Bool.and_eq_true, atEnd_iff]
        exact hend
      rw [hkeep]
      cases htrim : trimEnds t with
      | nil =>
        intro d hd
        obtain rfl : c = d := by simpa using hd
        by_contra hspace
        rw [Bool.not_eq_false] at hspace
        exact hend ⟨hspace, by rw [htrim]; exact fun e he => by cases he⟩
      | cons d u =>
        rw [htrim] at hrest
        rw [List.getLast?_cons_cons]
        exact hrest

/-- A line that has ended has ended. -/
theorem AtEnd.straight (hz : AtEnd z) : AtEnd (trimEnds (dropAfter '\n' false z)) := by
  cases z with
  | nil => exact hz
  | cons c z =>
    obtain rfl := hz c rfl
    rw [dropAfter_char]
    by_cases h : AtEnd (trimEnds (dropAfter '\n' (decide ('\n' = '\n')) z))
    · rw [trimEnds_end rfl h]
      exact h
    · rw [trimEnds_inside h]
      exact atEnd_newline _

/-! ## Comments up to the end of the line -/

/-- Without `//` and what stands behind it on its line; with the flag set, the text starts inside. -/
def cutLines : Bool → Text → Text
  | _, [] => []
  | true, c :: t => if c = '\n' then c :: cutLines false t else cutLines true t
  | false, c :: t => if c = '/' ∧ t.head? = some '/' then cutLines true t else c :: cutLines false t

theorem cutLines_skip (h : ¬ (c = '/' ∧ t.head? = some '/')) : cutLines false (c :: t) = c :: cutLines false t := by
  rw [cutLines, if_neg h]

theorem cutLines_inside {u : Text} (hu : '\n' ∉ u) (z : Text) : cutLines true (u ++ z) = cutLines true z := by
  induction u with
  | nil => rfl
  | cons c u ih =>
    rw [List.cons_append, cutLines, if_neg fun hc => hu (by rw [hc]; exact List.mem_cons_self)]
    exact ih fun hc => hu (List.mem_cons_of_mem _ hc)

theorem cutLines_atEnd (hz : AtEnd z) : cutLines true z = cutLines false z := by
  cases z with
  | nil => rfl
  | cons c z =>
    obtain rfl := hz c rfl
    rw [cutLines, if_pos rfl, cutLines_skip fun h => absurd h.1 (by decide)]

theorem cutLines_comment {u : Text} (hu : '\n' ∉ u) (hz : AtEnd z) : cutLines true (u ++ z) = cutLines false z := by
  rw [cutLines_inside hu, cutLines_atEnd hz]

/-! ## Blocks of white space -/

/-- With one blank for each block of white space; with the flag set, the text starts inside. -/
def squeeze : Bool → Text → Text
  | _, [] => []
  | inside, c :: t =>
    if isSpace c then (if inside then squeeze true t else ' ' :: squeeze true t) else c :: squeeze false t

theorem squeeze_char (hc : isSpace c = false) (s : Bool) (t : Text) : squeeze s (c :: t) = c :: squeeze false t := by
  rw [squeeze, hc]
  rfl

/-- In front of something else, the flag makes no difference. -/
theorem squeeze_start (hz : ∀ c ∈ z.head?, isSpace c = false) (s s' : Bool) : squeeze s z = squeeze s' z := by
  cases z with
  | nil => cases s <;> cases s' <;> rfl
  | cons c z => rw [squeeze_char (hz c rfl), squeeze_char (hz c rfl)]

theorem squeeze_space (hw : ∀ c ∈ w, isSpace c = true) (z : Text) : squeeze true (w ++ z) = squeeze true z := by
  induction w with
  | nil => rfl
  | cons c w ih =>
    rw [List.cons_append, squeeze, hw c List.mem_cons_self, if_pos rfl, if_pos rfl]
    exact ih fun d hd => hw d (List.mem_cons_of_mem _ hd)

/-- What follows something else than white space. -/
theorem squeeze_at (hc : isSpace c = false) (s : Bool) (x z : Text) :
    squeeze s (x ++ c :: z) = squeeze s x ++ c :: squeeze false z := by
  induction x generalizing s with
  | nil => exact squeeze_char hc s z
  | cons d x ih =>
    rw [List.cons_append, squeeze, squeeze, ih, ih]
    split
    · split
      · rfl
      · rfl
    · rfl

theorem squeeze_append (s : Bool) (x z : Text) : ∃ s', squeeze s (x ++ z) = squeeze s x ++ squeeze s' z := by
  induction x generalizing s with
  | nil => exact ⟨s, rfl⟩
  | cons d x ih =>
    obtain ⟨a, ha⟩ := ih true
    obtain ⟨b, hb⟩ := ih false
    rw [List.cons_append, squeeze, squeeze]
    split
    · refine ⟨a, ?_⟩
      rw [ha]
      split
      · rfl
      · rfl
    · exact ⟨b, by rw [hb]; rfl⟩

theorem squeeze_white (hw : ∀ c ∈ w, isSpace c = true) (s : Bool) : ∀ c ∈ squeeze s w, isSpace c = true := by
  induction w generalizing s with
  | nil => exact hw
  | cons d w ih =>
    have hrest := ih (fun e he => hw e (List.mem_cons_of_mem _ he)) true
    rw [squeeze, if_pos (hw d List.mem_cons_self)]
    split
    · exact hrest
    · exact List.forall_mem_cons.mpr ⟨rfl, hrest⟩

/-- A text without white space is left alone. -/
theorem squeeze_word (ht : ∀ c ∈ t, isSpace c = false) (z : Text) : squeeze false (t ++ z) = t ++ squeeze false z := by
  induction t with
  | nil => rfl
  | cons d t ih =>
    rw [List.cons_append, squeeze_char (ht d List.mem_cons_self), ih fun e he => ht e (List.mem_cons_of_mem _ he)]
    rfl

/-- Inside of a block, the next thing is something else. -/
theorem squeeze_inside (t : Text) : ∀ c ∈ (squeeze true t).head?, isSpace c = false := by
  induction t with
  | nil =>
    intro c hc
    cases hc
  | cons d t ih =>
    rw [squeeze]
    split
    · exact ih
    · rename_i hd
      intro c hc
      cases hc
      exact Bool.not_eq_true _ ▸ hd

theorem mem_squeeze (hc : isSpace c = false) {s : Bool} : c ∈ squeeze s t ↔ c ∈ t := by
  induction t generalizing s with
  | nil => cases s <;> rfl
  | cons d t ih =>
    have hne : isSpace d = true → c ≠ d := fun hd h => by rw [h, hd] at hc; exact absurd hc (by decide)
    have hblank : c ≠ ' ' := fun h => by rw [h] at hc; exact absurd hc (by decide)
    rw [squeeze]
    split
    · rename_i hd
      rw [List.mem_cons, or_iff_right (hne hd)]
      split
      · exact ih
      · rw [List.mem_cons, or_iff_right hblank, ih]
    · rw [List.mem_cons, List.mem_cons, ih]

end Regex
