import NaturalC.NccCode

/-!
# Blocks in the output

A block of the source runs like the block that is written for it, when every statement is
taken for what it is. The rules look at the start of a line only, so this is not always so: an
assignment to a variable whose name starts with `return` is taken for a return statement.
-/
namespace Ncc

open Regex Flow

variable {σ : Type} {env : Env} {vars : List (Text × Text)} {L : Lang σ}

/-! ## Lines that are taken for what they are -/

def Item.isVerbatim : Item → Bool
  | .verbatim _ => true
  | _ => false

/-- The lines come out as they are. -/
structure Copied (env : Env) (p : Bool) (ls : List Line) : Prop where
  other : ∀ l ∈ ls, (ruleOf p l).isOther = true
  done : (copy env [] ls).2 = []
  verbatim : ∀ x ∈ (copy env [] ls).1, x.isVerbatim = true
  text : textOfItems (copy env [] ls).1 = textOf ls

instance (env : Env) (p : Bool) (ls : List Line) : Decidable (Copied env p ls) :=
  decidable_of_iff ((∀ l ∈ ls, (ruleOf p l).isOther = true) ∧ (copy env [] ls).2 = [] ∧
      (∀ x ∈ (copy env [] ls).1, x.isVerbatim = true) ∧ textOfItems (copy env [] ls).1 = textOf ls)
    ⟨fun ⟨h₁, h₂, h₃, h₄⟩ => ⟨h₁, h₂, h₃, h₄⟩, fun h => ⟨h.other, h.done, h.verbatim, h.text⟩⟩

/-- A statement that may stand in the output as it is. -/
def Stmt.asIs (isSym : Text → Bool) : Stmt → Bool
  | .ret _ => false
  | .method _ => false
  | .call name _ => !isSym name
  | _ => true

/-- The lines of a statement are taken for what they are. -/
inductive Taken (env : Env) (vars : List (Text × Text)) (read : Text → Stmt) : List Line → Prop
  | ret {l : Line} {m : Match} (h : ruleOf false l = .ret m) (hr : read (textOf [l]) = .ret (m.group 2)) :
    Taken env vars read [l]
  | method {l : Line} {t : Text} (h : ruleOf false l = .method) (hm : methodInvoke env vars l = some t)
    (hr : read (textOf [l]) = .method t) : Taken env vars read [l]
  | checked {g : List Line} {indent name args post : Text} (ho : ∀ l ∈ g, (ruleOf false l).isOther = true)
    (hc : copy env [] g = ([.checked indent name args post], [])) (hsym : env.isSym name = true)
    (hr : read (textOf g) = .call name args) : Taken env vars read g
  | copied {g : List Line} (h : Copied env false g) (hr : (read (textOf g)).asIs env.isSym = true) :
    Taken env vars read g

theorem stmtItems_other {g : List Line} (h : ∀ l ∈ g, (ruleOf false l).isOther = true) :
    stmtItems env vars g = (copy env [] g).1 := by
  cases g with
  | nil => rfl
  | cons l g =>
    cases g with
    | cons l' g => rfl
    | nil =>
      have hl := h l List.mem_cons_self
      rw [stmtItems]
      cases hr : ruleOf false l <;> rw [hr] at hl <;> first | rfl | cases hl

theorem items_verbatim {is : List Item} (h : ∀ x ∈ is, x.isVerbatim = true) (s : Local σ) :
    L.items is s = L.cStmt (L.read (textOfItems is)) s := by
  cases is with
  | nil => rfl
  | cons x is =>
    have hx := h x List.mem_cons_self
    cases x with
    | verbatim t => rfl
    | _ => cases hx

/-! ## Statements -/

/-- The source seen from the output, with the value of `__retval`. -/
def view (r : Int) : View (Mem σ) Exit (Local σ) (Jump Label Int) where
  state s := ⟨s, r⟩
  exit
    | .returned v, s => (.goto .final, ⟨s, v⟩)
    | .thrown, s => (.goto .caught, ⟨s, r⟩)
    | .failed, s => (.ret (-1), ⟨s, r⟩)

theorem cTry_eq (st : Stmt) (x : Int × σ) (r : Int) (s : Mem σ) :
    L.cTry st x ⟨s, r⟩ = (view r).out (L.checked st x s) := by
  rw [Lang.cTry, Lang.checked]
  split_ifs <;> rfl

/-- A statement that stands in the output as it is. Only there `throw_silent` looks at `__retval`. -/
theorem cStmt_eq {st : Stmt} (hst : st.asIs env.isSym = true) {r : Int} {s : Mem σ}
    (hr : r = 0 ∨ (L.stmt env.isSym st s).1 ≠ .exit .thrown) :
    L.cStmt st ⟨s, r⟩ = (view r).out (L.stmt env.isSym st s) := by
  cases st with
  | act t => rfl
  | brk => rfl
  | cont => rfl
  | ret e => cases hst
  | method t => cases hst
  | call name args =>
    have hsym : env.isSym name = false := by simpa [Stmt.asIs] using hst
    rw [Lang.stmt, hsym]
    rfl
  | throwSilent =>
    rcases hr with rfl | hr
    · rfl
    · exact absurd rfl hr
  | throwErrno t =>
    rcases hr with rfl | hr
    · rfl
    · exact absurd rfl hr
  | throw t => rfl
  | require c =>
    rw [Lang.cStmt, Lang.stmt]
    split_ifs <;> rfl

theorem items_eq {g : List Line} (hg : Taken env vars L.read g) {r : Int} {s : Mem σ}
    (hr : r = 0 ∨ ((L.source env.isSym).leaf g s).1 ≠ .exit .thrown) :
    L.items (stmtItems env vars g) ⟨s, r⟩ = (view r).out ((L.source env.isSym).leaf g s) := by
  change _ = (view r).out (L.stmt env.isSym (L.read (textOf g)) s)
  cases hg with
  | @ret l m h hread =>
    rw [hread, stmtItems, h]
    rfl
  | @method l t h hm hread =>
    rw [hread, stmtItems, h, hm]
    exact cTry_eq _ _ r s
  | @checked g indent name args post ho hc hsym hread =>
    rw [hread, stmtItems_other ho, hc, Lang.stmt, hsym]
    exact cTry_eq _ _ r s
  | copied h hread =>
    rw [stmtItems_other h.other, items_verbatim h.verbatim, h.text]
    exact cStmt_eq hread hr

/-! ## Blocks -/

def Opening.cursors : Opening → Nat
  | .lines _ => 0
  | .foreach _ _ => 1

/-- The cursors that the `foreach` loops in a block need. -/
def cursorsIn : Code → Nat
  | .nil => 0
  | .leaf _ k => cursorsIn k
  | .branch _ t e k => cursorsIn t + cursorsIn e + cursorsIn k
  | .loop _ f t k => f.opening.cursors + cursorsIn t + cursorsIn k

/-- The opening lines are taken for what they are, and a cursor has the next number. -/
def Opening.Fits (env : Env) (u : Nat) : Opening → Prop
  | .lines ls => Copied env false ls
  | .foreach l cur => cur = u ∧ ∃ m, ruleOf false l = .foreach m

/-- All lines of a block are taken for what they are, and no `else` goes astray. -/
def Fits (env : Env) (vars : List (Text × Text)) (read : Text → Stmt) : Nat → Code → Prop
  | _, .nil => True
  | u, .leaf g k => Taken env vars read g ∧ Fits env vars read u k
  | u, .branch f t e k =>
    f.opening.cursors = 0 ∧ f.opening.Fits env u ∧ Copied env false f.mid ∧ Copied env false f.tail ∧
      dangling read env f (emit read env vars t) (emit read env vars e) = none ∧
      Fits env vars read u t ∧ Fits env vars read (u + cursorsIn t) e ∧
      Fits env vars read (u + cursorsIn t + cursorsIn e) k
  | u, .loop first f t k =>
    first = true ∧ f.opening.Fits env u ∧ Copied env false f.tail ∧
      Fits env vars read (u + f.opening.cursors) t ∧
      Fits env vars read (u + f.opening.cursors + cursorsIn t) k

theorem search_of_ruleOf_foreach {l : Line} {m : Match} (h : ruleOf false l = .foreach m) :
    search foreachRx l = some m := by
  unfold ruleOf at h
  split_ifs at h
  unfold statementRule at h
  split at h
  · cases h
    assumption
  · split at h
    · cases h
    · split_ifs at h

theorem Opening.Fits.text {o : Opening} {u : Nat} (h : o.Fits env u) : textOfItems (o.items env) = o.text := by
  cases o with
  | lines ls => exact Copied.text h
  | foreach l cur => rfl

theorem emit_eq_map {b : Code} {u : Nat} (h : Fits env vars L.read u b) :
    emit L.read env vars b = b.map (fun g => .items (stmtItems env vars g)) (Frame.items env) := by
  induction b generalizing u with
  | nil => rfl
  | leaf g k ih => rw [emit, Block.map, ih h.2]
  | branch f t e k iht ihe ihk =>
    obtain ⟨-, -, -, -, hd, ht, he, hk⟩ := h
    rw [emit, hd, Block.map, iht ht, ihe he, ihk hk]
  | loop first f t k iht ihk =>
    obtain ⟨-, -, -, ht, hk⟩ := h
    rw [emit, Block.map, iht ht, ihk hk]

theorem taken_of_fits {b : Code} {u : Nat} (h : Fits env vars L.read u b) :
    ∀ g ∈ b.leaves, Taken env vars L.read g := by
  induction b generalizing u with
  | nil => simp [Block.leaves]
  | leaf g k ih => exact List.forall_mem_cons.mpr ⟨h.1, ih h.2⟩
  | branch f t e k iht ihe ihk =>
    obtain ⟨-, -, -, -, -, ht, he, hk⟩ := h
    exact List.forall_mem_append.mpr ⟨iht ht, List.forall_mem_append.mpr ⟨ihe he, ihk hk⟩⟩
  | loop first f t k iht ihk =>
    obtain ⟨-, -, -, ht, hk⟩ := h
    exact List.forall_mem_append.mpr ⟨iht ht, ihk hk⟩

/-- The texts in the output around the blocks are those of the source. -/
theorem frame_of_fits {b : Code} {u : Nat} (h : Fits env vars L.read u b) :
    ∀ f ∈ b.heads, textOfItems (f.opening.items env) = f.opening.text ∧
      textOfItems (copy env [] f.tail).1 = textOf f.tail := by
  induction b generalizing u with
  | nil => simp [Block.heads]
  | leaf g k ih => exact ih h.2
  | branch f t e k iht ihe ihk =>
    obtain ⟨-, ho, -, htail, -, ht, he, hk⟩ := h
    exact List.forall_mem_cons.mpr ⟨⟨ho.text, htail.text⟩,
      List.forall_mem_append.mpr ⟨iht ht, List.forall_mem_append.mpr ⟨ihe he, ihk hk⟩⟩⟩
  | loop first f t k iht ihk =>
    obtain ⟨-, ho, htail, ht, hk⟩ := h
    exact List.forall_mem_cons.mpr ⟨⟨ho.text, htail.text⟩, List.forall_mem_append.mpr ⟨iht ht, ihk hk⟩⟩

/-- The block that is written does the same, as long as `__retval` is zero or nothing is thrown. -/
theorem matches_of_fits {b : Code} {u : Nat} (h : Fits env vars L.read u b) {r : Int}
    (hr : r = 0 ∨ Calm (L.source env.isSym) b) :
    Matches (L.source env.isSym) L.output (fun g => .items (stmtItems env vars g)) (Frame.items env) (view r) b where
  leaf g hg s := items_eq (taken_of_fits h g hg) (hr.imp_right fun hcalm => hcalm g hg s .thrown)
  test f hf s := by
    obtain ⟨ho, ht⟩ := frame_of_fits h f hf
    change L.head L.test (f.items env) ⟨s, r⟩ = _
    rw [Frame.items, Lang.head, ho, ht]
    rfl
  round f hf first s := by
    obtain ⟨ho, ht⟩ := frame_of_fits h f hf
    cases first with
    | true =>
      change L.head L.enter (f.items env) ⟨s, r⟩ = _
      rw [Frame.items, Lang.head, ho, ht]
      rfl
    | false =>
      change L.head L.next (f.items env) ⟨s, r⟩ = _
      rw [Frame.items, Lang.head, ho, ht]
      rfl

/-! ## What the parser writes for a block -/

/-- What a run of the parser over some lines has written, with the number of new cursors, and what it has
left as it was. -/
structure Wrote (s s' : State) (items : List Item) (n : Nat) : Prop where
  out : s'.out.map Emitted.item = s.out.map Emitted.item ++ items
  line : s'.line = []
  uniq : s'.uniq = s.uniq + n
  insidePreamble : s'.insidePreamble = s.insidePreamble
  hasCatch : s'.hasCatch = s.hasCatch
  hasFinally : s'.hasFinally = s.hasFinally
  vars : s'.vars = s.vars
  autoDestroy : s'.autoDestroy = s.autoDestroy

/-- The parser is in the body of a function, between two statements. -/
structure Ready (vars : List (Text × Text)) (u : Nat) (s : State) : Prop where
  insidePreamble : s.insidePreamble = false
  line : s.line = []
  vars : s.vars = vars
  uniq : s.uniq = u

/-- What is written for some lines in the body. -/
def Writes (env : Env) (vars : List (Text × Text)) (u : Nat) (ls : List Line) (items : List Item) (n : Nat) : Prop :=
  ∀ s i, Ready vars u s → ∃ s', steps env i s ls = some s' ∧ Wrote s s' items n

variable {s : State} {l : Line} {u : Nat}

theorem Wrote.trans {s₁ s₂ : State} {x y : List Item} {n k : Nat} (h₁ : Wrote s s₁ x n) (h₂ : Wrote s₁ s₂ y k) :
    Wrote s s₂ (x ++ y) (n + k) where
  out := by rw [h₂.out, h₁.out, List.append_assoc]
  line := h₂.line
  uniq := by rw [h₂.uniq, h₁.uniq, Nat.add_assoc]
  insidePreamble := h₂.insidePreamble.trans h₁.insidePreamble
  hasCatch := h₂.hasCatch.trans h₁.hasCatch
  hasFinally := h₂.hasFinally.trans h₁.hasFinally
  vars := h₂.vars.trans h₁.vars
  autoDestroy := h₂.autoDestroy.trans h₁.autoDestroy

theorem Ready.wrote {s₁ : State} {x : List Item} {n : Nat} (h : Ready vars u s) (w : Wrote s s₁ x n) :
    Ready vars (u + n) s₁ where
  insidePreamble := w.insidePreamble.trans h.insidePreamble
  line := w.line
  vars := w.vars.trans h.vars
  uniq := by rw [w.uniq, h.uniq]

theorem Writes.append {a b : List Line} {x y : List Item} {n k : Nat} (ha : Writes env vars u a x n)
    (hb : Writes env vars (u + n) b y k) : Writes env vars u (a ++ b) (x ++ y) (n + k) := by
  intro s i hs
  obtain ⟨s₁, h₁, w₁⟩ := ha s i hs
  obtain ⟨s₂, h₂, w₂⟩ := hb s₁ (i + a.length) (hs.wrote w₁)
  exact ⟨s₂, by rw [steps_append, h₁]; exact h₂, w₁.trans w₂⟩

/-- The declarations after some lines. -/
def preambleAfter (s : State) (g : List Line) : Text := if s.insidePreamble then s.preamble ++ g.flatten else s.preamble

/-- Any other line goes to the context buffer. -/
theorem step_other (env : Env) (h : (ruleOf s.insidePreamble l).isOther = true) (i : Nat) :
    ∃ s', step env i s l = some s' ∧ s'.line = (copy env s.line [l]).2 ∧ s'.preamble = preambleAfter s [l] ∧
      s'.out.map Emitted.item = s.out.map Emitted.item ++ (copy env s.line [l]).1 ∧ s'.uniq = s.uniq ∧
      s'.insidePreamble = s.insidePreamble ∧ s'.hasCatch = s.hasCatch ∧ s'.hasFinally = s.hasFinally ∧
      s'.vars = s.vars ∧ s'.autoDestroy = s.autoDestroy := by
  have hstep : step env i s l =
      some (stepOther env i (if s.insidePreamble then { s with preamble := s.preamble ++ l } else s) l) := by
    unfold step
    cases hr : ruleOf s.insidePreamble l <;> rw [hr] at h <;> first | rfl | cases h
  refine ⟨_, hstep, ?_⟩
  unfold stepOther preambleAfter
  cases hp : s.insidePreamble <;> cases hw : waits (addLine s.line l) <;> simp [copy, hw, State.push, hp]

/-- What the buffer gives for some lines is written. -/
theorem steps_copied {g : List Line} (ho : ∀ l ∈ g, (ruleOf s.insidePreamble l).isOther = true)
    (hdone : (copy env s.line g).2 = []) (i : Nat) :
    ∃ s', steps env i s g = some s' ∧ Wrote s s' (copy env s.line g).1 0 ∧ s'.preamble = preambleAfter s g := by
  induction g generalizing s i with
  | nil => exact ⟨s, rfl, ⟨by simp [copy], hdone, rfl, rfl, rfl, rfl, rfl, rfl⟩, by simp [preambleAfter]⟩
  | cons l g ih =>
    obtain ⟨s₁, h₁, hline, hpre, hout, huniq, hin, hcatch, hfinally, hvars, hauto⟩ :=
      step_other env (ho l List.mem_cons_self) i
    have hg : ∀ x ∈ g, (ruleOf s₁.insidePreamble x).isOther = true := by
      rw [hin]
      exact fun x hx => ho x (List.mem_cons_of_mem l hx)
    have hcopy : copy env s.line (l :: g) =
        ((copy env s.line [l]).1 ++ (copy env s₁.line g).1, (copy env s₁.line g).2) := by
      rw [hline]
      simp only [copy]
      split_ifs <;> rfl
    obtain ⟨s', h', w, hpre'⟩ := ih hg (by rw [hcopy] at hdone; exact hdone) (i + 1)
    refine ⟨s', by rw [steps, h₁]; exact h', ?_, ?_⟩
    · exact {
        out := by rw [w.out, hout, hcopy, List.append_assoc]
        line := w.line
        uniq := w.uniq.trans huniq
        insidePreamble := w.insidePreamble.trans hin
        hasCatch := w.hasCatch.trans hcatch
        hasFinally := w.hasFinally.trans hfinally
        vars := w.vars.trans hvars
        autoDestroy := w.autoDestroy.trans hauto }
    · rw [hpre', preambleAfter, preambleAfter, hin, hpre, preambleAfter]
      split_ifs <;> simp

theorem writes_copied {g : List Line} (ho : ∀ l ∈ g, (ruleOf false l).isOther = true)
    (hdone : (copy env [] g).2 = []) : Writes env vars u g (copy env [] g).1 0 := by
  intro s i hs
  have hdone' : (copy env s.line g).2 = [] := by rw [hs.line]; exact hdone
  obtain ⟨s', h, w, -⟩ := steps_copied (by rw [hs.insidePreamble]; exact ho) hdone' i
  rw [hs.line] at w
  exact ⟨s', h, w⟩

theorem writes_ret {m : Match} (h : ruleOf false l = .ret m) :
    Writes env vars u [l] [.ret (m.group 1) (m.group 2)] 0 := by
  intro s i hs
  have hstep : steps env i s [l] = some (s.push (.ret (m.group 1) (m.group 2)) [i] ((Rule.ret m).dropped l)) := by
    rw [steps, step, hs.insidePreamble, h]
    rfl
  exact ⟨_, hstep, ⟨by simp [State.push], hs.line, rfl, rfl, rfl, rfl, rfl, rfl⟩⟩

theorem writes_method {t : Text} (h : ruleOf false l = .method) (hm : methodInvoke env vars l = some t) :
    Writes env vars u [l] [.method t] 0 := by
  intro s i hs
  have hstep : steps env i s [l] = some (s.push (.method t) [i] (Rule.method.dropped l)) := by
    rw [steps, step, hs.insidePreamble, h]
    simp only [Bool.false_eq_true, if_false, hs.vars, hm]
    rfl
  exact ⟨_, hstep, ⟨by simp [State.push], hs.line, rfl, rfl, rfl, rfl, rfl, rfl⟩⟩

theorem writes_foreach {m : Match} (h : ruleOf false l = .foreach m) :
    Writes env vars u [l] [foreachItem l u] 1 := by
  intro s i hs
  have hstep : steps env i s [l] =
      some { s.push (.foreach (m.group 1) (m.group 2) (m.group 3) s.uniq) [i] ((Rule.foreach m).dropped l) with
        uniq := s.uniq + 1, cursors := s.cursors ++ [(s.preambleLineno, s.uniq)] } := by
    rw [steps, step, hs.insidePreamble, h]
    rfl
  have hitem : foreachItem l u = .foreach (m.group 1) (m.group 2) (m.group 3) s.uniq := by
    rw [foreachItem, search_of_ruleOf_foreach h, hs.uniq]
  exact ⟨_, hstep, ⟨by simp [State.push, hitem], hs.line, rfl, rfl, rfl, rfl, rfl, rfl⟩⟩

theorem writes_taken {g : List Line} {read : Text → Stmt} (hg : Taken env vars read g) :
    Writes env vars u g (stmtItems env vars g) 0 := by
  cases hg with
  | @ret l m h hr =>
    rw [stmtItems, h]
    exact writes_ret h
  | @method l t h hm hr =>
    rw [stmtItems, h, hm]
    exact writes_method h hm
  | checked ho hc =>
    rw [stmtItems_other ho]
    exact writes_copied ho (by rw [hc])
  | copied h =>
    rw [stmtItems_other h.other]
    exact writes_copied h.other h.done

theorem writes_opening {o : Opening} (ho : o.Fits env u) :
    Writes env vars u o.source (o.items env) o.cursors := by
  cases o with
  | lines ls => exact writes_copied (Copied.other ho) (Copied.done ho)
  | foreach l cur =>
    obtain ⟨rfl, m, hm⟩ := ho
    exact writes_foreach hm

/-- The parser writes for a block what was said to be written for its parts. -/
theorem writes_block {read : Text → Stmt} {b : Code} (hb : Fits env vars read u b) :
    Writes env vars u (codeLines b) (codeItems env vars b) (cursorsIn b) := by
  induction b generalizing u with
  | nil =>
    intro s i hs
    exact ⟨s, rfl, ⟨(List.append_nil _).symm, hs.line, rfl, rfl, rfl, rfl, rfl, rfl⟩⟩
  | leaf g k ih =>
    have h := (writes_taken hb.1).append (ih hb.2)
    rw [Nat.zero_add] at h
    exact h
  | branch f t e k iht ihe ihk =>
    obtain ⟨hzero, ho, hmid, htail, -, ht, he, hk⟩ := hb
    have hafter := (iht ht).append ((writes_copied hmid.other hmid.done).append
      ((ihe he).append ((writes_copied htail.other htail.done).append (ihk hk))))
    have hopen : Writes env vars u f.opening.source (f.opening.items env) f.opening.cursors := writes_opening ho
    rw [hzero] at hopen
    have h := hopen.append hafter
    have hcount : 0 + (cursorsIn t + (0 + (cursorsIn e + (0 + cursorsIn k)))) = cursorsIn (.branch f t e k) := by
      rw [cursorsIn]
      omega
    rw [hcount] at h
    exact h
  | loop first f t k iht ihk =>
    obtain ⟨-, ho, htail, ht, hk⟩ := hb
    have h := (writes_opening ho).append ((iht ht).append ((writes_copied htail.other htail.done).append (ihk hk)))
    have hcount : f.opening.cursors + (cursorsIn t + (0 + cursorsIn k)) = cursorsIn (.loop first f t k) := by
      rw [cursorsIn]
      omega
    rw [hcount] at h
    exact h

end Ncc
