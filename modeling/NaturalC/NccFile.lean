import NaturalC.NccExceptions
import Mathlib.Data.List.Nodup

/-!
# Whole files

A file is functions with other lines between them. The parser writes the functions one after the
other, with the other lines as they are, and every `foreach` loop of the file has a cursor of its
own, which is declared at the opening brace in front of the loop.
-/
namespace Ncc

open Regex Flow

/-! ## Pieces of a file -/

/-- A function, or lines outside of functions. -/
inductive Piece where
  | gap (ls : List Line)
  | function (f : Function)

namespace Function

/-- The cursors that the loops of a function need. -/
def cursors (f : Function) : Nat := cursorsIn f.body + cursorsIn (block f.handler) + cursorsIn (block f.cleanup)

end Function

namespace Piece

def lines : Piece → List Line
  | .gap ls => ls
  | .function f => f.lines

/-- What is written for a piece. -/
def items (env : Env) : Piece → List Item
  | .gap ls => (copy env [] ls).1
  | .function f => f.items env

def cursors : Piece → Nat
  | .gap _ => 0
  | .function f => f.cursors

end Piece

/-- The lines of every piece are taken for what they are, with the cursors numbered through. -/
def FileFits (env : Env) (read : Text → Stmt) : Nat → List Piece → Prop
  | _, [] => True
  | u, .gap ls :: ps => Copied env false ls ∧ FileFits env read u ps
  | u, .function f :: ps => f.Fits env read u ∧ FileFits env read (u + f.cursors) ps

def fileLines (ps : List Piece) : List Line := ps.flatMap Piece.lines
def fileItems (env : Env) (ps : List Piece) : List Item := ps.flatMap (Piece.items env)

/-- The parser between two pieces. -/
structure Outside (u : Nat) (s : State) : Prop where
  insidePreamble : s.insidePreamble = false
  line : s.line = []
  uniq : s.uniq = u

variable {env : Env} {read : Text → Stmt} {u : Nat} {s s' : State} {f : Function}

/-- The parser writes the items of a function and is outside again behind it. -/
theorem steps_function_outside (hf : f.Fits env read u) (hs : Outside u s) (i : Nat) :
    ∃ s', steps env i s f.lines = some s' ∧ Outside (u + f.cursors) s' ∧
      s'.out.map Emitted.item = s.out.map Emitted.item ++ f.items env := by
  have hlines : f.lines = (f.opening :: (f.decls ++ [f.blankLine])) ++ (codeLines f.body ++
      (Function.partLines f.handler ++ (Function.partLines f.cleanup ++ [f.closing]))) := by simp [Function.lines]
  have hfits : f.Fits env read s.uniq := by
    rw [hs.uniq]
    exact hf
  obtain ⟨s₁, h₁, stage₁⟩ := stage_of_opening hfits hs.line i
  obtain ⟨s₂, h₂, stage₂⟩ := stage₁.block hfits.body (i + (f.opening :: (f.decls ++ [f.blankLine])).length)
  obtain ⟨s₃, h₃, stage₃⟩ := stage₂.handler hfits.catchLabel hfits.handler
    (i + (f.opening :: (f.decls ++ [f.blankLine])).length + (codeLines f.body).length)
  obtain ⟨s₄, h₄, stage₄⟩ := stage₃.cleanup hfits.finallyLabel hfits.cleanup
    (i + (f.opening :: (f.decls ++ [f.blankLine])).length + (codeLines f.body).length +
      (Function.partLines f.handler).length)
  have hclose : ∀ j, step env j s₄ f.closing = some (s₄.push
      (.closeBrace s₄.hasCatch s₄.hasFinally s₄.autoDestroy) [j] (Rule.closeBrace.dropped f.closing)) := by
    intro j
    rw [step, stage₄.ready.insidePreamble, ruleOf_closing hfits.closing]
    rfl
  have hsteps : steps env i s f.lines = (step env (i + (f.opening :: (f.decls ++ [f.blankLine])).length +
      (codeLines f.body).length + (Function.partLines f.handler).length + (Function.partLines f.cleanup).length)
      s₄ f.closing) := by
    rw [hlines, steps_append, h₁, Option.bind_some, steps_append, h₂, Option.bind_some, steps_append, h₃,
      Option.bind_some, steps_append, h₄, Option.bind_some, steps, hclose]
    rfl
  refine ⟨_, hsteps.trans (hclose _), ⟨stage₄.ready.insidePreamble, stage₄.ready.line, ?_⟩, ?_⟩
  · have huniq := stage₄.ready.uniq
    rw [hs.uniq] at huniq
    rw [Function.cursors, ← Nat.add_assoc, ← Nat.add_assoc]
    exact huniq
  · simp [State.push, stage₄.out, stage₄.hasCatch, stage₄.hasFinally, stage₄.autoDestroy, Function.items,
      Function.hasCatch]

/-- Lines between functions come out as they are. -/
theorem steps_gap {ls : List Line} (h : Copied env false ls) (hs : Outside u s) (i : Nat) :
    ∃ s', steps env i s ls = some s' ∧ Outside u s' ∧
      s'.out.map Emitted.item = s.out.map Emitted.item ++ (copy env [] ls).1 := by
  have hother : ∀ l ∈ ls, (ruleOf s.insidePreamble l).isOther = true := by
    rw [hs.insidePreamble]
    exact h.other
  have hdone : (copy env s.line ls).2 = [] := by
    rw [hs.line]
    exact h.done
  obtain ⟨s', hs', w, -⟩ := steps_copied hother hdone i
  refine ⟨s', hs', ⟨w.insidePreamble.trans hs.insidePreamble, w.line, w.uniq.trans hs.uniq⟩, ?_⟩
  rw [w.out, hs.line]

theorem steps_pieces {ps : List Piece} (hps : FileFits env read u ps) (hs : Outside u s) (i : Nat) :
    ∃ s', steps env i s (fileLines ps) = some s' ∧
      s'.out.map Emitted.item = s.out.map Emitted.item ++ fileItems env ps := by
  induction ps generalizing u s i with
  | nil => exact ⟨s, rfl, (List.append_nil _).symm⟩
  | cons p ps ih =>
    obtain ⟨s₁, v, h₁, hs₁, hout₁, hrest⟩ : ∃ s₁ v, steps env i s p.lines = some s₁ ∧ Outside v s₁ ∧
        s₁.out.map Emitted.item = s.out.map Emitted.item ++ p.items env ∧ FileFits env read v ps := by
      cases p with
      | gap ls =>
        obtain ⟨s₁, h₁, hs₁, hout⟩ := steps_gap hps.1 hs i
        exact ⟨s₁, u, h₁, hs₁, hout, hps.2⟩
      | function f =>
        obtain ⟨s₁, h₁, hs₁, hout⟩ := steps_function_outside hps.1 hs i
        exact ⟨s₁, u + f.cursors, h₁, hs₁, hout, hps.2⟩
    obtain ⟨s₂, h₂, hout₂⟩ := ih hrest hs₁ (i + p.lines.length)
    refine ⟨s₂, ?_, ?_⟩
    · rw [fileLines, List.flatMap_cons, steps_append, h₁]
      exact h₂
    · rw [hout₂, hout₁, List.append_assoc]
      rfl

/-- The parser writes the pieces of a file one after the other. -/
theorem parse_pieces {ps : List Piece} (hps : FileFits env read 0 ps) (fn : Text) :
    ∃ s, parse env fn (fileLines ps) = some s ∧ s.out.map Emitted.item = .preface fn :: fileItems env ps :=
  steps_pieces hps ⟨rfl, rfl, rfl⟩ 0

/-! ## Cursors -/

/-- The cursor of a loop. -/
def Item.cursor : Item → Option Nat
  | .foreach _ _ _ n => some n
  | _ => none

/-- The place of the last opening brace, counted from the end, or that of the first element. -/
def lastOpen (es : List Emitted) : Nat := es.length - 1 - es.reverse.findIdx fun e => e.item.isOpen

theorem lastOpen_snoc (es : List Emitted) (e : Emitted) :
    lastOpen (es ++ [e]) = if e.item.isOpen then es.length else lastOpen es := by
  rw [lastOpen, lastOpen, List.reverse_append, List.reverse_singleton, List.singleton_append, List.findIdx_cons,
    List.length_append, List.length_singleton, Nat.add_sub_cancel]
  cases e.item.isOpen with
  | true => rfl
  | false =>
    rw [cond_false, if_neg Bool.false_ne_true]
    omega

/-- What a line adds to the output and to the cursors. -/
inductive Writing (s s' : State) : Prop
  | nothing (hout : s'.out = s.out) (hplace : s'.preambleLineno = s.preambleLineno) (hcursors : s'.cursors = s.cursors)
    (huniq : s'.uniq = s.uniq)
  | plain (e : Emitted) (hitem : e.item.cursor = none ∧ e.item.isOpen = false) (hout : s'.out = s.out ++ [e])
    (hplace : s'.preambleLineno = s.preambleLineno) (hcursors : s'.cursors = s.cursors) (huniq : s'.uniq = s.uniq)
  | opening (e : Emitted) (hitem : e.item.cursor = none ∧ e.item.isOpen = true) (hout : s'.out = s.out ++ [e])
    (hplace : s'.preambleLineno = s.out.length) (hcursors : s'.cursors = s.cursors) (huniq : s'.uniq = s.uniq)
  | loop (e : Emitted) (hitem : e.item.cursor = some s.uniq ∧ e.item.isOpen = false) (hout : s'.out = s.out ++ [e])
    (hplace : s'.preambleLineno = s.preambleLineno) (hcursors : s'.cursors = s.cursors ++ [(s.preambleLineno, s.uniq)])
    (huniq : s'.uniq = s.uniq + 1)

theorem settle_plain (env : Env) (line : Text) :
    (settle env line).1.cursor = none ∧ (settle env line).1.isOpen = false := by
  unfold settle
  split
  · split
    · exact ⟨rfl, rfl⟩
    · split
      · exact ⟨rfl, rfl⟩
      · split
        · split
          · exact ⟨rfl, rfl⟩
          · exact ⟨rfl, rfl⟩
        · exact ⟨rfl, rfl⟩
  · exact ⟨rfl, rfl⟩

theorem stepOther_writing (env : Env) (i : Nat) {p : State} (l : Line) (hout : p.out = s.out)
    (hplace : p.preambleLineno = s.preambleLineno) (hcursors : p.cursors = s.cursors) (huniq : p.uniq = s.uniq) :
    Writing s (stepOther env i p l) := by
  rw [stepOther]
  cases waits (addLine p.line l) with
  | true => exact .nothing hout hplace hcursors huniq
  | false => exact .plain _ (settle_plain env (addLine p.line l)) (congrArg (· ++ _) hout) hplace hcursors huniq

theorem step_writing {i : Nat} {l : Line} (h : step env i s l = some s') : Writing s s' := by
  unfold step at h
  cases hr : ruleOf s.insidePreamble l with
  | openBrace =>
    rw [hr] at h
    obtain rfl := Option.some.inj h
    exact .opening _ ⟨rfl, rfl⟩ rfl rfl rfl rfl
  | blank =>
    rw [hr] at h
    obtain rfl := Option.some.inj h
    cases hin : s.insidePreamble <;> exact .plain _ ⟨rfl, rfl⟩ rfl rfl rfl rfl
  | closeBrace =>
    rw [hr] at h
    obtain rfl := Option.some.inj h
    cases hin : s.insidePreamble <;> exact .plain _ ⟨rfl, rfl⟩ rfl rfl rfl rfl
  | catchLabel =>
    rw [hr] at h
    obtain rfl := Option.some.inj h
    cases hin : s.insidePreamble <;> exact .plain _ ⟨rfl, rfl⟩ rfl rfl rfl rfl
  | finallyLabel =>
    rw [hr] at h
    obtain rfl := Option.some.inj h
    cases hin : s.insidePreamble <;> exact .plain _ ⟨rfl, rfl⟩ rfl rfl rfl rfl
  | foreach m =>
    rw [hr] at h
    obtain rfl := Option.some.inj h
    cases hin : s.insidePreamble <;> exact .loop _ ⟨rfl, rfl⟩ rfl rfl rfl rfl
  | ret m =>
    rw [hr] at h
    obtain rfl := Option.some.inj h
    cases hin : s.insidePreamble <;> exact .plain _ ⟨rfl, rfl⟩ rfl rfl rfl rfl
  | retval =>
    rw [hr] at h
    obtain rfl := Option.some.inj h
    cases hin : s.insidePreamble <;> exact .plain _ ⟨rfl, rfl⟩ rfl rfl rfl rfl
  | method =>
    rw [hr] at h
    simp only [Option.bind_eq_bind] at h
    obtain ⟨stmt, -, hs'⟩ := Option.bind_eq_some_iff.mp h
    obtain rfl := Option.some.inj hs'
    cases hin : s.insidePreamble <;> exact .plain _ ⟨rfl, rfl⟩ rfl rfl rfl rfl
  | other =>
    rw [hr] at h
    obtain rfl := Option.some.inj h
    cases hin : s.insidePreamble <;> exact stepOther_writing env i l rfl rfl rfl rfl

/-- The cursor of the `j`-th element. -/
def cursorAt (es : List Emitted) (j : Nat) : Option Nat := es[j]?.bind fun e => e.item.cursor

/-- The cursors that are declared at the `k`-th element. -/
def declaredAt (s : State) (k : Nat) : List Nat := (s.cursors.filter (·.1 = k)).map Prod.snd

/-- The loops have the numbers from 0 on, each of them is declared once, and where the last function began. -/
structure Numbered (s : State) : Prop where
  place : s.preambleLineno = lastOpen s.out
  loops : s.out.filterMap (fun e => e.item.cursor) = List.range s.uniq
  declared : s.cursors.map Prod.snd = List.range s.uniq
  inside : ∀ j n, cursorAt s.out j = some n → (lastOpen (s.out.take j), n) ∈ s.cursors

theorem cursorAt_snoc (es : List Emitted) (e : Emitted) (j : Nat) :
    cursorAt (es ++ [e]) j =
      if j < es.length then cursorAt es j else if j = es.length then e.item.cursor else none := by
  unfold cursorAt
  split_ifs with hlt heq
  · rw [List.getElem?_append_left hlt]
  · rw [heq, List.getElem?_concat_length]
    rfl
  · rw [List.getElem?_eq_none (by rw [List.length_append, List.length_singleton]; omega)]
    rfl

theorem filterMap_one {e : Emitted} {c : Option Nat} (he : e.item.cursor = c) :
    [e].filterMap (fun e => e.item.cursor) = c.toList := by
  cases c with
  | none => simp [he]
  | some n => simp [he]

/-- An element that is no loop. -/
theorem inside_snoc {es : List Emitted} {e : Emitted} {cs : List (Nat × Nat)} (he : e.item.cursor = none)
    (h : ∀ j n, cursorAt es j = some n → (lastOpen (es.take j), n) ∈ cs) {j n : Nat}
    (hj : cursorAt (es ++ [e]) j = some n) : (lastOpen ((es ++ [e]).take j), n) ∈ cs := by
  rw [cursorAt_snoc] at hj
  split_ifs at hj with hlt heq
  · rw [List.take_append_of_le_length (Nat.le_of_lt hlt)]
    exact h j n hj
  · rw [he] at hj
    cases hj

theorem numbered_step (hs : Numbered s) (hw : Writing s s') : Numbered s' := by
  cases hw with
  | nothing hout hplace hcursors huniq =>
    exact ⟨by rw [hplace, hout, hs.place], by rw [hout, huniq, hs.loops], by rw [hcursors, huniq, hs.declared],
      by rw [hout, hcursors]; exact hs.inside⟩
  | plain e hitem hout hplace hcursors huniq =>
    refine ⟨?_, ?_, by rw [hcursors, huniq, hs.declared], ?_⟩
    · rw [hplace, hout, lastOpen_snoc, hitem.2, hs.place]
      rfl
    · rw [hout, huniq, List.filterMap_append, hs.loops, filterMap_one hitem.1]
      exact List.append_nil _
    · intro j n hj
      rw [hout] at hj ⊢
      rw [hcursors]
      exact inside_snoc hitem.1 hs.inside hj
  | opening e hitem hout hplace hcursors huniq =>
    refine ⟨?_, ?_, by rw [hcursors, huniq, hs.declared], ?_⟩
    · rw [hplace, hout, lastOpen_snoc, hitem.2]
      rfl
    · rw [hout, huniq, List.filterMap_append, hs.loops, filterMap_one hitem.1]
      exact List.append_nil _
    · intro j n hj
      rw [hout] at hj ⊢
      rw [hcursors]
      exact inside_snoc hitem.1 hs.inside hj
  | loop e hitem hout hplace hcursors huniq =>
    refine ⟨?_, ?_, ?_, ?_⟩
    · rw [hplace, hout, lastOpen_snoc, hitem.2, hs.place]
      rfl
    · rw [hout, huniq, List.filterMap_append, hs.loops, filterMap_one hitem.1, List.range_succ]
      rfl
    · rw [hcursors, huniq, List.map_append, hs.declared, List.range_succ]
      rfl
    · intro j n hj
      rw [hout, cursorAt_snoc] at hj
      rw [hout, hcursors]
      split_ifs at hj with hlt heq
      · rw [List.take_append_of_le_length (Nat.le_of_lt hlt)]
        exact List.mem_append_left _ (hs.inside j n hj)
      · -- the loop itself
        obtain rfl := Option.some.inj (hitem.1.symm.trans hj)
        rw [heq, List.take_left, ← hs.place]
        exact List.mem_append_right _ (List.mem_singleton.mpr rfl)

theorem numbered_steps {i : Nat} {ls : List Line} (hs : Numbered s) (h : steps env i s ls = some s') : Numbered s' := by
  induction ls generalizing s i with
  | nil =>
    obtain rfl := Option.some.inj h
    exact hs
  | cons l ls ih =>
    rw [steps] at h
    obtain ⟨s₁, hstep, hrest⟩ := Option.bind_eq_some_iff.mp h
    exact ih (numbered_step hs (step_writing hstep)) hrest

theorem numbered_start (fn : Text) : Numbered (start fn) where
  place := rfl
  loops := rfl
  declared := rfl
  inside j n hj := by
    cases j with
    | zero => cases hj
    | succ j => cases hj

theorem mem_of_cursorAt {es : List Emitted} {j n : Nat} (hj : cursorAt es j = some n) :
    n ∈ es.filterMap fun e => e.item.cursor := by
  obtain ⟨e, he, hn⟩ := Option.bind_eq_some_iff.mp hj
  exact List.mem_filterMap.mpr ⟨e, List.mem_of_getElem? he, hn⟩

theorem eq_of_cursorAt {es : List Emitted} (hnodup : (es.filterMap fun e => e.item.cursor).Nodup) {i j n : Nat}
    (hi : cursorAt es i = some n) (hj : cursorAt es j = some n) : i = j := by
  induction es generalizing i j with
  | nil => cases hi
  | cons e es ih =>
    have hhead : e.item.cursor = some n → n ∉ es.filterMap fun e => e.item.cursor := by
      intro he hmem
      rw [List.filterMap_cons, he] at hnodup
      exact (List.nodup_cons.mp hnodup).1 hmem
    have htail : (es.filterMap fun e => e.item.cursor).Nodup := by
      cases he : e.item.cursor with
      | none =>
        rw [List.filterMap_cons, he] at hnodup
        exact hnodup
      | some m =>
        rw [List.filterMap_cons, he] at hnodup
        exact (List.nodup_cons.mp hnodup).2
    cases i with
    | zero =>
      cases j with
      | zero => rfl
      | succ j =>
        have hmem : n ∈ es.filterMap fun e => e.item.cursor := mem_of_cursorAt hj
        exact absurd hmem (hhead hi)
    | succ i =>
      cases j with
      | zero =>
        have hmem : n ∈ es.filterMap fun e => e.item.cursor := mem_of_cursorAt hi
        exact absurd hmem (hhead hj)
      | succ j => exact congrArg Nat.succ (ih htail hi hj)

/-- Whatever the input is: no two loops of the output share a cursor, and the cursor of a loop is declared at one
place only, the last opening brace in front of it (or the first line when there is none), and there once. -/
theorem cursors_declared {fn : Text} {input : List Line} (h : parse env fn input = some s) {j n : Nat}
    (hj : cursorAt s.out j = some n) :
    (∀ j', cursorAt s.out j' = some n → j' = j) ∧
      ∀ k, (declaredAt s k).count n = if k = lastOpen (s.out.take j) then 1 else 0 := by
  have hs := numbered_steps (numbered_start fn) h
  constructor
  · intro j' hj'
    apply eq_of_cursorAt _ hj' hj
    rw [hs.loops]
    exact List.nodup_range
  · intro k
    have hmem := hs.inside j n hj
    have hnodup : (s.cursors.map Prod.snd).Nodup := by
      rw [hs.declared]
      exact List.nodup_range
    split_ifs with hk
    · apply List.count_eq_one_of_mem
      · exact hnodup.sublist (List.filter_sublist.map Prod.snd)
      · exact List.mem_map.mpr ⟨_, List.mem_filter.mpr ⟨hmem, by simp [hk]⟩, rfl⟩
    · apply List.count_eq_zero_of_not_mem
      intro hn
      obtain ⟨⟨k', n'⟩, hfilter, rfl⟩ := List.mem_map.mp hn
      obtain ⟨hin, hk'⟩ := List.mem_filter.mp hfilter
      have heq := List.inj_on_of_nodup_map hnodup hin hmem rfl
      apply hk
      rw [← of_decide_eq_true hk']
      exact congrArg Prod.fst heq

/-- Two functions with a loop each. -/
def loopsFile : List Line :=
  ["int a()\n", "\x7b\n", "\n", "\tforeach(x, l) \x7b\n", "\t\x7d\n", "\x7d\n", "int b()\n", "\x7b\n", "\n",
    "\tforeach(y, m) \x7b\n", "\t\x7d\n", "\x7d\n"].map str

theorem cursors_declared_loopsFile :
    ∃ s, parse someEnv (str "f.nc") loopsFile = some s ∧ cursorAt s.out 10 = some 1 ∧
      (∀ j', cursorAt s.out j' = some 1 → j' = 10) ∧
        ∀ k, (declaredAt s k).count 1 = if k = lastOpen (s.out.take 10) then 1 else 0 := by
  have hat : (parse someEnv (str "f.nc") loopsFile).bind (fun s => cursorAt s.out 10) = some 1 := by decide +kernel
  obtain ⟨s, hs, hj⟩ := Option.bind_eq_some_iff.mp hat
  exact ⟨s, hs, hj, cursors_declared hs hj⟩

end Ncc
