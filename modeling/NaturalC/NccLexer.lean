import NaturalC.NccMethods
import NaturalC.Substitution

/-!
# The lexer

`lexer` is a row of substitutions and a split. Each substitution is a function on the text.
-/
namespace Ncc

open Regex

variable {prev : Option Char} {c : Char} {t : Text}

theorem head?_spaces1 {u z : Text} (hc : isSpace c = true) (hu : White u) (hz : ∀ d ∈ z.head?, isSpace d = false) :
    (run spaces1 ⟨prev, c :: u ++ z, []⟩).head? = some ⟨lastOf (some c) u, z, []⟩ := by
  have hfirst : (run (.cls isSpace) ⟨prev, c :: (u ++ z), []⟩).head? = some ⟨some c, u ++ z, []⟩ := by
    simp [run, hc]
  exact head?_seq hfirst (head?_spaces hu hz)

theorem run_spaces1_nil (hc : isSpace c = false) : run spaces1 ⟨prev, c :: t, []⟩ = [] := by
  simp [spaces1, run, hc]

/-- The line begins here. -/
def atStart (prev : Option Char) : Bool := prev = none ∨ prev = some '\n'

theorem gsub_starts (t : Text) : gsub (.seq (.bol true) spaces1) [] t = dropAfter '\n' true t := by
  apply gsub_eq (f := fun prev t => dropAfter '\n' (atStart prev) t)
  · intro prev
    rw [dropAfter]
  · intro prev c t
    by_cases hmatch : atStart prev = true ∧ isSpace c = true
    · obtain ⟨hprev, hc⟩ := hmatch
      obtain ⟨u, z, rfl, hu, hz⟩ := exists_white_start t
      have hbol : run (.seq (.bol true) spaces1) ⟨prev, c :: u ++ z, []⟩ = run spaces1 ⟨prev, c :: u ++ z, []⟩ := by
        simp only [atStart, decide_eq_true_eq] at hprev
        simp [run, hprev]
      refine .inr ⟨c :: u, z, _, rfl, List.cons_ne_nil c u, hbol ▸ head?_spaces1 hc hu hz, rfl, ?_⟩
      simp only [hprev, List.nil_append]
      rw [← List.cons_append, dropAfter_space (List.forall_mem_cons.mpr ⟨hc, hu⟩)]
      exact dropAfter_start hz _ _
    · have hnone : run (.seq (.bol true) spaces1) ⟨prev, c :: t, []⟩ = [] := by
        by_cases hprev : atStart prev = true
        · have hc : isSpace c = false := by
            simpa [hprev] using hmatch
          simp [run, spaces1, hc]
        · simp only [atStart, decide_eq_true_eq] at hprev
          simp [run, hprev]
      refine .inl ⟨hnone, ?_⟩
      have hflag : (atStart prev && isSpace c) = false := by
        simpa using hmatch
      simp only [dropAfter, hflag, Bool.false_eq_true, if_false]
      simp [atStart]

theorem run_spaces1 {u z : Text} (hc : isSpace c = true) (hu : White u) (hz : ∀ d ∈ z.head?, isSpace d = false) :
    run spaces1 ⟨prev, c :: u ++ z, []⟩ = ends [] (some c) u z := by
  have hfirst : run (.cls isSpace) ⟨prev, c :: (u ++ z), []⟩ = [⟨some c, u ++ z, []⟩] := by
    simp [run, hc]
  rw [spaces1, List.cons_append, run, hfirst, List.flatMap_singleton, spaces, run_star_cls hu hz]

/-- `$` does not match in front of white space without a newline, or of anything else. -/
theorem run_eol_nil {a : At} {v z : Text} (ha : a.rest = v ++ z) (hv : '\n' ∉ v)
    (hz : ∀ d ∈ z.head?, isSpace d = false) (hne : z ≠ []) : run (.eol true) a = [] := by
  have hhead : ∀ d ∈ (v ++ z).head?, d ≠ '\n' := by
    intro d hd hn
    cases v with
    | nil =>
      rw [hn] at hd
      exact absurd (hz '\n' hd) (by decide)
    | cons e v =>
      obtain rfl : e = d := by simpa using hd
      exact hv (hn ▸ List.mem_cons_self)
  cases hvz : v ++ z with
  | nil => exact absurd (List.append_eq_nil_iff.mp hvz).2 hne
  | cons d x =>
    have hd : d ≠ '\n' := hhead d (by rw [hvz]; rfl)
    simp [run, ha, hvz, hd]

/-- Either there is no newline in a text, or it has a last one. -/
theorem newline_cases (u : Text) : '\n' ∉ u ∨ ∃ x v, u = x ++ '\n' :: v ∧ '\n' ∉ v := by
  induction u with
  | nil => exact .inl List.not_mem_nil
  | cons c u ih =>
    obtain hno | ⟨x, v, rfl, hv⟩ := ih
    · by_cases hc : c = '\n'
      · exact .inr ⟨[], u, by rw [hc]; rfl, hno⟩
      · exact .inl fun h => (List.mem_cons.mp h).elim (fun he => hc he.symm) hno
    · exact .inr ⟨c :: x, v, rfl, hv⟩

/-- Something follows on the same line. -/
theorem not_atEnd_trim {u z : Text} (hu : '\n' ∉ u) (hz : ∀ d ∈ z.head?, isSpace d = false) (hne : z ≠ []) :
    ¬ AtEnd (trimEnds (u ++ z)) := by
  obtain ⟨d, z, rfl⟩ := List.exists_cons_of_ne_nil hne
  have hd : isSpace d = false := hz d rfl
  have hstop : ¬ AtEnd (trimEnds (d :: z)) := by
    rw [trimEnds_char hd]
    exact not_atEnd fun h => by rw [h] at hd; exact absurd hd (by decide)
  rw [trimEnds_within hu hstop]
  cases u with
  | nil => exact hstop
  | cons e u => exact not_atEnd fun h => hu (h ▸ List.mem_cons_self)

theorem gsub_ends (t : Text) : gsub (.seq spaces1 (.eol true)) [] t = trimEnds t := by
  apply gsub_eq (f := fun _ t => trimEnds t)
  · intro prev
    rfl
  · intro prev c t
    cases hc : isSpace c with
    | false =>
      have hnone : run (.seq spaces1 (.eol true)) ⟨prev, c :: t, []⟩ = [] := by
        rw [run, run_spaces1_nil hc]
        rfl
      exact .inl ⟨hnone, trimEnds_char hc t⟩
    | true =>
      obtain ⟨u, z, rfl, hu, hz⟩ := exists_white_start t
      have hrun : run (.seq spaces1 (.eol true)) ⟨prev, c :: u ++ z, []⟩ =
          (ends [] (some c) u z).flatMap (run (.eol true)) := by
        rw [run, run_spaces1 hc hu hz]
      by_cases hne : z = []
      · -- the white space is the end of the text
        subst hne
        obtain ⟨es, hes⟩ : ∃ es, ends [] (some c) u [] = ⟨lastOf (some c) u, [], []⟩ :: es :=
          List.head?_eq_some_iff.mp head?_ends
        have hmatch : (run (.seq spaces1 (.eol true)) ⟨prev, c :: u ++ [], []⟩).head? =
            some ⟨lastOf (some c) u, [], []⟩ := by
          rw [hrun, hes, List.flatMap_cons]
          simp [run]
        have hgone : trimEnds (c :: u ++ []) = trimEnds [] :=
          trimEnds_space (List.forall_mem_cons.mpr ⟨hc, hu⟩) (by simp [AtEnd, trimEnds])
        exact .inr ⟨c :: u, [], _, rfl, List.cons_ne_nil c u, hmatch, rfl, hgone⟩
      · obtain hno | ⟨x, v, rfl, hv⟩ := newline_cases u
        · -- no newline that white space could stand in front of
          have hnone : run (.seq spaces1 (.eol true)) ⟨prev, c :: u ++ z, []⟩ = [] := by
            rw [hrun, List.flatMap_eq_nil_iff]
            intro a ha
            obtain ⟨y, y', rfl, hr⟩ := mem_ends ha
            exact run_eol_nil hr (fun h => hno (List.mem_append_right y h)) hz hne
          exact .inl ⟨hnone, trimEnds_inside (not_atEnd_trim hno hz hne)⟩
        · -- the white space up to the last newline
          obtain ⟨L, L', hends, hlong⟩ := ends_longer [] (some c) x ('\n' :: v) z
          have hL : ∀ a ∈ L, run (.eol true) a = [] := by
            intro a ha
            obtain ⟨y, d, y', hy, hr⟩ := hlong a ha
            refine run_eol_nil hr (fun h => hv ?_) hz hne
            cases y with
            | nil =>
              obtain ⟨-, rfl⟩ := List.cons.inj hy
              exact h
            | cons e y =>
              obtain ⟨-, rfl⟩ := List.cons.inj hy
              simp [h]
          have hmatch : (run (.seq spaces1 (.eol true)) ⟨prev, (c :: x) ++ ('\n' :: v ++ z), []⟩).head? =
              some ⟨lastOf (some c) x, '\n' :: v ++ z, []⟩ := by
            have hsame : (c :: x) ++ ('\n' :: v ++ z) = c :: (x ++ '\n' :: v) ++ z := by simp
            rw [hsame, hrun, hends]
            apply head?_flatMap hL
            simp [run]
          refine .inr ⟨c :: x, '\n' :: v ++ z, _, by simp, List.cons_ne_nil c x, hmatch, rfl, ?_⟩
          have hend : AtEnd (trimEnds ('\n' :: v ++ z)) := by
            rw [List.cons_append, trimEnds_inside (not_atEnd_trim hv hz hne)]
            exact atEnd_newline _
          have hwhite : ∀ d ∈ c :: x, isSpace d = true := by
            intro d hd
            obtain rfl | hd := List.mem_cons.mp hd
            · exact hc
            · exact hu d (List.mem_append_left _ hd)
          simpa using trimEnds_space hwhite hend

theorem gsub_commas (t : Text) : gsub (.seq (lit ",") spaces) (str ",") t = dropAfter ',' false t := by
  apply gsub_eq (f := fun _ t => dropAfter ',' false t)
  · intro prev
    rfl
  · intro prev c t
    by_cases hc : c = ','
    · subst hc
      obtain ⟨u, z, rfl, hu, hz⟩ := exists_white_start t
      have hmatch : (run (.seq (lit ",") spaces) ⟨prev, ',' :: u ++ z, []⟩).head? = some ⟨lastOf (some ',') u, z, []⟩ :=
        head?_seq (congrArg List.head? (run_lit "," (u ++ z))) (head?_spaces hu hz)
      refine .inr ⟨',' :: u, z, _, rfl, List.cons_ne_nil _ u, hmatch, rfl, ?_⟩
      beta_reduce
      rw [dropAfter_char, decide_eq_true rfl, dropAfter_space hu, dropAfter_start hz true false]
      rfl
    · have hnone : run (.seq (lit ",") spaces) ⟨prev, c :: t, []⟩ = [] := by
        rw [run, run_lit_ne rfl hc]
        rfl
      refine .inl ⟨hnone, ?_⟩
      beta_reduce
      rw [dropAfter_char, decide_eq_false hc]

theorem run_slashes_nil (h : ¬ (c = '/' ∧ t.head? = some '/')) : run (lit "//") ⟨prev, c :: t, []⟩ = [] := by
  by_cases hc : c = '/'
  · cases t with
    | nil => simp [lit, run, hc]
    | cons d t =>
      have hd : d ≠ '/' := fun hd => h ⟨hc, by rw [hd]; rfl⟩
      simp [lit, run, hc, hd]
  · exact run_lit_ne rfl hc

theorem gsub_lineComments (t : Text) :
    gsub (.seq (lit "//") (.star true dot)) [] t = cutLines false t := by
  apply gsub_eq (f := fun _ t => cutLines false t)
  · intro prev
    rfl
  · intro prev c t
    by_cases hslash : c = '/' ∧ t.head? = some '/'
    · obtain ⟨rfl, hhead⟩ := hslash
      obtain ⟨t, rfl⟩ : ∃ t', t = '/' :: t' := ⟨t.tail, List.eq_cons_of_mem_head? hhead⟩
      obtain ⟨u, z, rfl, hdot, hstop⟩ := exists_line t
      have hu : '\n' ∉ u := fun h => absurd (hdot '\n' h) (by decide)
      have hz : AtEnd z := fun d hd => by simpa using hstop d hd
      have hmatch : (run (.seq (lit "//") (.star true dot)) ⟨prev, ('/' :: '/' :: u) ++ z, []⟩).head? =
          some ⟨lastOf (some '/') u, z, []⟩ :=
        head?_seq (congrArg List.head? (run_lit "//" (u ++ z))) (head?_star hdot hstop)
      refine .inr ⟨'/' :: '/' :: u, z, _, rfl, List.cons_ne_nil _ _, hmatch, rfl, ?_⟩
      have hfree : '\n' ∉ '/' :: u := fun h => (List.mem_cons.mp h).elim (by decide) hu
      beta_reduce
      rw [cutLines, if_pos ⟨rfl, rfl⟩]
      exact cutLines_comment (u := '/' :: u) hfree hz
    · have hnone : run (.seq (lit "//") (.star true dot)) ⟨prev, c :: t, []⟩ = [] := by
        rw [run, run_slashes_nil hslash]
        rfl
      exact .inl ⟨hnone, cutLines_skip hslash⟩

theorem gsub_newlines (t : Text) : gsub (lit "\n") [] t = t.filter (· ≠ '\n') := by
  apply gsub_eq (f := fun _ t => t.filter (· ≠ '\n'))
  · intro prev
    rfl
  · intro prev c t
    by_cases hc : c = '\n'
    · subst hc
      exact .inr ⟨['\n'], t, _, rfl, by decide, congrArg List.head? (run_lit "\n" t), rfl, by simp⟩
    · exact .inl ⟨run_lit_ne rfl hc, by simp [hc]⟩

theorem gsub_blanks (t : Text) : gsub spaces1 (str " ") t = squeeze false t := by
  apply gsub_eq (f := fun _ t => squeeze false t)
  · intro prev
    rfl
  · intro prev c t
    cases hc : isSpace c with
    | false => exact .inl ⟨run_spaces1_nil hc, squeeze_char hc false t⟩
    | true =>
      obtain ⟨u, z, rfl, hu, hz⟩ := exists_white_start t
      refine .inr ⟨c :: u, z, _, rfl, List.cons_ne_nil c u, head?_spaces1 hc hu hz, rfl, ?_⟩
      beta_reduce
      rw [squeeze, hc, if_pos rfl, if_neg (by decide), squeeze_space hu, squeeze_start hz true false]
      rfl

/-! ## Comments within a line -/

/-- Two characters stand next to each other in a text. -/
def has (a b : Char) : Text → Bool
  | [] => false
  | c :: t => (c == a && t.head? == some b) || has a b t

theorem has_iff {a b : Char} {t : Text} : has a b t = true ↔ ∃ u v, t = u ++ a :: b :: v := by
  induction t with
  | nil => simp [has]
  | cons c t ih =>
    rw [has, Bool.or_eq_true, ih, Bool.and_eq_true, beq_iff_eq, beq_iff_eq]
    constructor
    · rintro (⟨rfl, hb⟩ | ⟨u, v, rfl⟩)
      · exact ⟨[], t.tail, by rw [List.nil_append, ← List.eq_cons_of_mem_head? hb]⟩
      · exact ⟨c :: u, v, rfl⟩
    · rintro ⟨u, v, huv⟩
      cases u with
      | nil =>
        obtain ⟨rfl, rfl⟩ := List.cons.inj huv
        exact .inl ⟨rfl, rfl⟩
      | cons d u =>
        obtain ⟨rfl, rfl⟩ := List.cons.inj huv
        exact .inr ⟨u, v, rfl⟩

/-- `/\*.*\*/`. -/
def blockRx : Rx := all [lit "/*", .star true dot, lit "*/"]

/-- No comment ends here. -/
theorem run_close_nil {a : At} {y z : Text} (ha : a.rest = y ++ z) (hz : AtEnd z)
    (hy : ∀ v, y ≠ '*' :: '/' :: v) : run (all [lit "*/"]) a = [] := by
  have hrun : run (lit "*/") a = [] := by
    obtain ⟨aprev, arest, acaps⟩ := a
    obtain rfl : arest = y ++ z := ha
    cases y with
    | nil =>
      cases z with
      | nil => exact run_lit_nil rfl
      | cons d z =>
        obtain rfl := hz d rfl
        exact run_lit_ne rfl (by decide)
    | cons c y =>
      by_cases hc : c = '*'
      · cases y with
        | nil =>
          cases z with
          | nil => simp [lit, run]
          | cons d z =>
            obtain rfl := hz d rfl
            simp [lit, run]
        | cons d y =>
          have hd : d ≠ '/' := fun hd => hy y (by rw [hc, hd])
          simp [lit, run, hd]
      · exact run_lit_ne rfl hc
  rw [all, all, run, hrun]
  rfl

/-- A comment does not start here. -/
theorem run_block_none (h : c = '/' → t.head? ≠ some '*') :
    run blockRx ⟨prev, c :: t, []⟩ = [] := by
  have hlit : run (lit "/*") ⟨prev, c :: t, []⟩ = [] := by
    by_cases hc : c = '/'
    · cases t with
      | nil => simp [lit, run, hc]
      | cons d t =>
        have hd : d ≠ '*' := fun hd => h hc (by rw [hd]; rfl)
        simp [lit, run, hc, hd]
    · exact run_lit_ne rfl hc
  rw [blockRx, all, run, hlit]
  rfl

/-- A comment does not start here, or it does not end on this line. -/
theorem run_block_nil {x z : Text} (hx : '\n' ∉ x) (hz : AtEnd z)
    (h : c = '/' → x.head? = some '*' → has '*' '/' x.tail = false) :
    run blockRx ⟨prev, c :: x ++ z, []⟩ = [] := by
  by_cases hopen : c = '/' ∧ x.head? = some '*'
  · obtain ⟨rfl, hhead⟩ := hopen
    have hno := h rfl hhead
    obtain ⟨y, rfl⟩ : ∃ y, x = '*' :: y := ⟨x.tail, List.eq_cons_of_mem_head? hhead⟩
    have hdot : ∀ d ∈ y, (fun d => decide (d ≠ '\n')) d = true := by
      intro d hd
      simpa using fun hn => hx (by rw [← hn]; exact List.mem_cons_of_mem _ hd)
    have hstop : ∀ d ∈ z.head?, (fun d => decide (d ≠ '\n')) d = false := fun d hd => by simpa using hz d hd
    have hlit : run (lit "/*") ⟨prev, '/' :: '*' :: y ++ z, []⟩ = [⟨lastOf prev ['/', '*'], y ++ z, []⟩] :=
      run_lit "/*" (y ++ z)
    have hstar : run (.star true dot) ⟨lastOf prev ['/', '*'], y ++ z, []⟩ = ends [] _ y z := run_star_cls hdot hstop
    rw [blockRx, all, run, hlit, List.flatMap_singleton, all, run, hstar, List.flatMap_eq_nil_iff]
    intro a ha
    obtain ⟨u, u', rfl, hr⟩ := mem_ends ha
    refine run_close_nil hr hz fun v hv => ?_
    rw [List.tail_cons, ← Bool.not_eq_true, has_iff] at hno
    exact hno ⟨u, v, by rw [hv]⟩
  · apply run_block_none
    intro hc hhead
    cases x with
    | nil =>
      have hnewline : '*' = '\n' := hz '*' hhead
      exact absurd hnewline (by decide)
    | cons d x => exact hopen ⟨hc, hhead⟩

/-- A comment is the match, when no other one ends behind it on its line. -/
theorem head?_block (prev : Option Char) {x y z : Text} (hx : '\n' ∉ x) (hy : '\n' ∉ y) (hz : AtEnd z)
    (hlast : has '*' '/' y = false) :
    ∃ prev', (run blockRx ⟨prev, str "/*" ++ (x ++ (str "*/" ++ (y ++ z))), []⟩).head? = some ⟨prev', y ++ z, []⟩ := by
  have hdot : ∀ d ∈ x ++ (str "*/" ++ y), (fun d => decide (d ≠ '\n')) d = true := by
    intro d hd
    rw [decide_eq_true_eq]
    rintro rfl
    simp only [List.mem_append] at hd
    rcases hd with hd | hd | hd
    · exact hx hd
    · exact absurd hd (by decide)
    · exact hy hd
  have hstop : ∀ d ∈ z.head?, (fun d => decide (d ≠ '\n')) d = false := fun d hd => by simpa using hz d hd
  obtain ⟨L, L', hends, hlong⟩ := ends_longer [] (lastOf prev (str "/*")) x (str "*/" ++ y) z
  have hL : ∀ a ∈ L, run (all [lit "*/"]) a = [] := by
    intro a ha
    obtain ⟨u, d, u', hu, hr⟩ := hlong a ha
    refine run_close_nil hr hz fun v hv => ?_
    rw [hv] at hu
    rw [← Bool.not_eq_true, has_iff] at hlast
    rcases u with - | ⟨e, u⟩
    · obtain ⟨-, h⟩ := List.cons.inj hu
      obtain ⟨h, -⟩ := List.cons.inj h
      exact absurd h (by decide)
    · obtain ⟨-, h⟩ := List.cons.inj hu
      rcases u with - | ⟨f, u⟩
      · obtain ⟨-, h⟩ := List.cons.inj h
        exact hlast ⟨[], v, h⟩
      · obtain ⟨-, h⟩ := List.cons.inj h
        have h' : y = u ++ d :: '*' :: '/' :: v := h
        exact hlast ⟨u ++ [d], v, by rw [h']; simp⟩
  have hstar : run (.star true dot) ⟨lastOf prev (str "/*"), x ++ (str "*/" ++ (y ++ z)), []⟩ =
      L ++ ⟨lastOf (lastOf prev (str "/*")) x, str "*/" ++ y ++ z, []⟩ :: L' := by
    have hsame : x ++ (str "*/" ++ (y ++ z)) = (x ++ (str "*/" ++ y)) ++ z := by simp
    rw [hsame]
    exact (run_star_cls hdot hstop).trans hends
  obtain ⟨prev', hclose⟩ : ∃ prev', (run (all [lit "*/"])
      ⟨lastOf (lastOf prev (str "/*")) x, str "*/" ++ y ++ z, []⟩).head? = some ⟨prev', y ++ z, []⟩ := by
    rw [List.append_assoc]
    exact ⟨_, head?_seq (congrArg List.head? (run_lit "*/" (y ++ z))) rfl⟩
  refine ⟨prev', head?_seq (congrArg List.head? (run_lit "/*" _)) ?_⟩
  rw [all, run]
  refine Eq.trans (congrArg (fun as => (as.flatMap (run (all [lit "*/"]))).head?) hstar) ?_
  exact head?_flatMap hL hclose

end Ncc
