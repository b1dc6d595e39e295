import NaturalC.NccRestated

/-!
# Which statements reach the output

The parser writes most lines out at once and keeps a statement that is not finished in a
buffer. The buffer is written when a line ends it, wherever the output stands by then, and
never at the end of the file. `Laid` describes the files on which this does no harm.
-/
namespace Ncc

open Regex

/-- The numbers of the input lines in the order of the output. -/
def origins (out : List Emitted) : List Nat := out.flatMap Emitted.origin

/-- The lines of the input with these numbers. -/
def linesAt (input : List Line) (is : List Nat) : List Line := is.map fun i => input.getD i []

def Rule.isOther : Rule → Bool
  | .other => true
  | _ => false

/-- Whether the next line is in the preamble. -/
def Rule.preambleNext (insidePreamble : Bool) : Rule → Bool
  | .openBrace => true
  | .blank => false
  | _ => insidePreamble

/-- The text of several lines in the buffer. -/
def bufferOf (g : List Line) : Text := g.foldl addLine []

/-- The lines are one statement for the parser: it waits after each of them but the last. -/
structure Finished (g : List Line) : Prop where
  ne : g ≠ []
  waiting : ∀ a b, g = a ++ b → a ≠ [] → b ≠ [] → waits (bufferOf a) = true
  done : waits (bufferOf g) = false

/-- The first lines of the statement, but not all of them. -/
theorem finished_iff {g : List Line} : Finished g ↔
    g ≠ [] ∧ (∀ k < g.length, k ≠ 0 → waits (bufferOf (g.take k)) = true) ∧ waits (bufferOf g) = false := by
  constructor
  · intro h
    refine ⟨h.ne, fun k hk hne => h.waiting _ (g.drop k) (List.take_append_drop k g).symm ?_ ?_, h.done⟩
    · rw [ne_eq, List.take_eq_nil_iff]
      exact fun hnil => hnil.elim hne h.ne
    · rw [ne_eq, List.drop_eq_nil_iff]
      exact Nat.not_le.mpr hk
  · rintro ⟨hne, hwaiting, hdone⟩
    refine ⟨hne, ?_, hdone⟩
    rintro a b rfl ha hb
    have hlen := List.length_pos_iff.mpr hb
    have hw := hwaiting a.length (by rw [List.length_append]; omega) (mt List.length_eq_zero_iff.mp ha)
    rwa [List.take_left] at hw

instance (g : List Line) : Decidable (Finished g) := decidable_of_iff _ finished_iff.symm

variable {env : Env} {i : Nat} {s s' : State} {l : Line}

/-- What has been found on the line. -/
def Rule.Reads (l : Line) : Rule → Prop
  | .openBrace => test openRx l = true
  | .blank => test blankRx l = true
  | .closeBrace => test closeRx l = true
  | .catchLabel => test catchRx l = true
  | .finallyLabel => test finallyRx l = true
  | .foreach m => search foreachRx l = some m
  | .ret m => search returnRx l = some m
  | _ => True

theorem statementRule_reads (l : Line) : (statementRule l).Reads l := by
  rw [statementRule]
  cases hforeach : search foreachRx l with
  | some m => exact hforeach
  | none =>
    cases hret : search returnRx l with
    | some m => exact hret
    | none =>
      dsimp only
      split_ifs <;> trivial

theorem ruleOf_reads (p : Bool) (l : Line) : (ruleOf p l).Reads l := by
  rw [ruleOf]
  split_ifs with hopen hblank hclose hcatch hfinally
  · exact hopen
  · exact (Bool.and_eq_true_iff.mp hblank).2
  · exact hclose
  · exact hcatch
  · exact hfinally
  · exact statementRule_reads l

/-- What a step writes, and what it leaves in the buffer. -/
theorem step_cases (h : step env i s l = some s') :
    s'.insidePreamble = (ruleOf s.insidePreamble l).preambleNext s.insidePreamble ∧
    (((ruleOf s.insidePreamble l).isOther = false ∧ s'.line = s.line ∧ s'.origin = s.origin ∧
      ∃ item, Restates [l] item.text ((ruleOf s.insidePreamble l).dropped l) ∧
        s'.out = s.out ++ [⟨item, [i], (ruleOf s.insidePreamble l).dropped l⟩]) ∨
    ((ruleOf s.insidePreamble l).isOther = true ∧ waits (addLine s.line l) = true ∧
      s'.line = addLine s.line l ∧ s'.origin = s.origin ++ [i] ∧ s'.out = s.out) ∨
    ((ruleOf s.insidePreamble l).isOther = true ∧ waits (addLine s.line l) = false ∧
      s'.line = [] ∧ s'.origin = [] ∧
      s'.out = s.out ++ [⟨(settle env (addLine s.line l)).1, s.origin ++ [i],
        (settle env (addLine s.line l)).2⟩])) := by
  -- adding the line to the preamble changes nothing that matters here
  have hp : ∀ {p : State}, p = (if s.insidePreamble then { s with preamble := s.preamble ++ l } else s) →
      p.insidePreamble = s.insidePreamble ∧ p.line = s.line ∧ p.origin = s.origin ∧ p.out = s.out := by
    rintro p rfl
    split <;> exact ⟨rfl, rfl, rfl, rfl⟩
  obtain ⟨hpre, hline, horigin, hout⟩ := hp rfl
  have hreads := ruleOf_reads s.insidePreamble l
  unfold step at h
  generalize (if s.insidePreamble then { s with preamble := s.preamble ++ l } else s) = p at *
  cases hrule : ruleOf s.insidePreamble l with
  | openBrace =>
    rw [hrule] at h hreads
    cases h
    exact ⟨rfl, .inl ⟨rfl, rfl, rfl, _, restates_openBrace hreads, rfl⟩⟩
  | blank =>
    rw [hrule] at h hreads
    cases h
    exact ⟨rfl, .inl ⟨rfl, hline, horigin, _, restates_blank hreads _, congrArg (· ++ _) hout⟩⟩
  | closeBrace =>
    rw [hrule] at h hreads
    cases h
    exact ⟨hpre, .inl ⟨rfl, hline, horigin, _, restates_closeBrace hreads _ _ _, congrArg (· ++ _) hout⟩⟩
  | catchLabel =>
    rw [hrule] at h hreads
    cases h
    exact ⟨hpre, .inl ⟨rfl, hline, horigin, _, restates_catchLabel hreads, congrArg (· ++ _) hout⟩⟩
  | finallyLabel =>
    rw [hrule] at h hreads
    cases h
    exact ⟨hpre, .inl ⟨rfl, hline, horigin, _, restates_finallyLabel hreads _, congrArg (· ++ _) hout⟩⟩
  | foreach m =>
    rw [hrule] at h hreads
    cases h
    exact ⟨hpre, .inl ⟨rfl, hline, horigin, _, restates_foreach hreads _, congrArg (· ++ _) hout⟩⟩
  | ret m =>
    rw [hrule] at h hreads
    cases h
    exact ⟨hpre, .inl ⟨rfl, hline, horigin, _, restates_ret hreads, congrArg (· ++ _) hout⟩⟩
  | retval =>
    rw [hrule] at h hreads
    cases h
    exact ⟨hpre, .inl ⟨rfl, hline, horigin, _, restates_retval l, congrArg (· ++ _) hout⟩⟩
  | method =>
    rw [hrule] at h
    obtain ⟨stmt, hstmt, h⟩ := Option.bind_eq_some_iff.mp h
    cases h
    exact ⟨hpre, .inl ⟨rfl, hline, horigin, _, restates_method hstmt, congrArg (· ++ _) hout⟩⟩
  | other =>
    rw [hrule] at h
    cases h
    simp only [stepOther, hline, horigin]
    cases hw : waits (addLine s.line l) with
    | true => exact ⟨hpre, .inr (.inl ⟨rfl, rfl, rfl, rfl, hout⟩)⟩
    | false => exact ⟨hpre, .inr (.inr ⟨rfl, rfl, rfl, rfl, congrArg (· ++ _) hout⟩)⟩

/-- The output only grows. -/
theorem steps_out {input : List Line} (h : steps env i s input = some s') :
    ∃ new, s'.out = s.out ++ new := by
  induction input generalizing i s with
  | nil =>
    cases h
    exact ⟨[], (List.append_nil _).symm⟩
  | cons l ls ih =>
    obtain ⟨t, ht, hs⟩ := Option.bind_eq_some_iff.mp h
    obtain ⟨new, hnew⟩ := ih hs
    obtain ⟨-, ⟨-, -, -, item, -, hout⟩ | ⟨-, -, -, -, hout⟩ | ⟨-, -, -, -, hout⟩⟩ := step_cases ht
    · exact ⟨_, by rw [hnew, hout, List.append_assoc]⟩
    · exact ⟨new, by rw [hnew, hout]⟩
    · exact ⟨_, by rw [hnew, hout, List.append_assoc]⟩

/-! ## The texts of the output -/

theorem textOf_concat {g : List Line} (hg : g ≠ []) (l : Line) :
    textOf (g ++ [l]) = textOf g ++ '\n' :: chomp l := by
  have hne : g.map chomp ≠ [] := by simpa using hg
  rw [textOf, List.map_append, join_append _ hne (by simp)]
  rfl

/-- The buffer is the text of its lines, and everything that has been written restates its own. -/
structure Restated (s : State) (input : List Line) : Prop where
  line : s.line = textOf (linesAt input s.origin)
  origin : s.line = [] → s.origin = []
  out : ∀ e ∈ s.out, Restates (linesAt input e.origin) e.item.text e.dropped

theorem Restated.addLine {input : List Line} (hs : Restated s input) (l : Line) :
    addLine s.line l = textOf (linesAt input s.origin ++ [l]) := by
  rw [Ncc.addLine]
  split
  · rename_i hlen
    have hg : linesAt input s.origin ≠ [] := by
      intro hg
      rw [hs.line, hg] at hlen
      exact Nat.lt_irrefl _ hlen
    rw [textOf_concat hg, ← hs.line]
  · rename_i hlen
    have hnil : s.line = [] := List.length_eq_zero_iff.mp (by omega)
    rw [hs.origin hnil]
    rfl

/-- The symbols of the examples: one function whose result is checked. -/
def someEnv : Env := ⟨[str "work"], ["string", "list"].map str, []⟩

end Ncc
