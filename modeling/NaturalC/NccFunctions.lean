import NaturalC.NccLines

/-!
# Allocation and destruction of locals

The code that allocates the locals of a function is written at the first blank line behind
its opening brace, and the code that destroys them at its closing brace. What is destroyed
is kept in a variable that outlives the function, so the two agree only when the blank line
comes before the closing brace.
-/
namespace Ncc

open Regex

def opens (l : Line) : Bool := test openRx l
def blank (l : Line) : Bool := test blankRx l
def closes (l : Line) : Bool := test closeRx l

/-- A line that matches a literal at its start begins with the literal's first character. -/
theorem head_of_test {p : Char → Bool} {a r : Rx} {l : Line}
    (h : test (.seq (.bol false) (.seq (.seq (.cls p) a) r)) l = true) :
    ∃ c t, l = c :: t ∧ p c = true := by
  rw [test_bol] at h
  cases l with
  | nil => simp [run] at h
  | cons c t =>
    refine ⟨c, t, rfl, ?_⟩
    by_contra hc
    simp [run, hc] at h

/-- A character that is no white space is not on a blank line. -/
theorem blank_head {c : Char} {t : Text} (hc : isSpace c = false) (hn : c ≠ '\n') :
    blank (c :: t) = false := by
  rw [← Bool.not_eq_true]
  intro h
  have h' := (test_bol (.seq spaces (.seq (.eol false) .eps)) (c :: t)).mp h
  apply h'
  simp [run, spaces, many, hc, hn]

/-- A line does not start with two different characters. -/
theorem test_exclusive {c d : Char} {a r a' r' : Rx} {l : Line} (hne : c ≠ d)
    (h : test (.seq (.bol false) (.seq (.seq (.cls (· = c)) a) r)) l = true) :
    test (.seq (.bol false) (.seq (.seq (.cls (· = d)) a') r')) l = false := by
  obtain ⟨x, t, rfl, hx⟩ := head_of_test h
  rw [← Bool.not_eq_true]
  intro h'
  obtain ⟨y, t', hy, hd⟩ := head_of_test h'
  cases hy
  exact hne ((of_decide_eq_true hx).symm.trans (of_decide_eq_true hd))

theorem not_blank_of_test {c : Char} {a r : Rx} {l : Line} (hc : isSpace c = false) (hn : c ≠ '\n')
    (h : test (.seq (.bol false) (.seq (.seq (.cls (· = c)) a) r)) l = true) : blank l = false := by
  obtain ⟨x, t, rfl, hx⟩ := head_of_test h
  rw [decide_eq_true_eq] at hx
  subst hx
  exact blank_head hc hn

theorem not_opens_of_closes {l : Line} (h : closes l = true) : opens l = false := test_exclusive (by decide) h

theorem not_blank_of_closes {l : Line} (h : closes l = true) : blank l = false :=
  not_blank_of_test (by decide) (by decide) h

theorem not_opens_of_blank {l : Line} (h : blank l = true) : opens l = false := by
  rw [← Bool.not_eq_true]
  intro ho
  rw [not_blank_of_test (by decide) (by decide) ho] at h
  cases h

/-! ## Functions in the output -/

/-- The locals that the code allocates. -/
def Item.allocates : Item → List Auto
  | .autoNew autos => autos
  | _ => []

def Item.isOpen : Item → Bool
  | .openBrace => true
  | _ => false

def Item.isBrace : Item → Bool
  | .openBrace => true
  | .closeBrace _ _ _ => true
  | _ => false

def allocated (es : List Emitted) : List Auto := es.flatMap fun e => e.item.allocates

/-- The elements in front of the next opening brace. -/
def outside (es : List Emitted) : List Emitted := es.takeWhile fun e => !e.item.isOpen

/-- In every function of the output, what is allocated between its braces is what is destroyed at
its end, and behind it nothing is allocated before the next function. -/
def Balanced (out : List Emitted) : Prop :=
  ∀ front o inner c rest hasCatch hasFinally autos, out = front ++ o :: (inner ++ c :: rest) →
    o.item = .openBrace → c.item = .closeBrace hasCatch hasFinally autos →
    (∀ e ∈ inner, e.item.isBrace = false) →
    (∀ x, x ∈ allocated inner ↔ x ∈ autos) ∧ allocated (outside rest) = []

/-! ## Functions in the input -/

/-- The locals to allocate, when a blank line ends the declarations before the next function. -/
def declared (env : Env) : Text → List Line → Option (List Auto)
  | _, [] => none
  | raw, l :: ls =>
    if opens l then none
    else if blank l then some (preambleParse env (raw ++ l)).autos
    else declared env (raw ++ l) ls

/-- The declarations that a blank line ends, in the order of the file. -/
def declarations (env : Env) : List Line → List (List Auto)
  | [] => []
  | l :: ls => (if opens l then (declared env [] ls).toList else []) ++ declarations env ls

/-- Every function has a blank line between its braces, or there is nothing to allocate in it and
nothing was allocated by the declarations read last. -/
def Separated (env : Env) (input : List Line) : Prop :=
  ∀ front o body c rest, input = front ++ o :: (body ++ c :: rest) → opens o = true → closes c = true →
    (∀ l ∈ body, opens l = false ∧ closes l = false) →
    (∃ l ∈ body, blank l = true) ∨
      (declared env [] (body ++ c :: rest)).getD [] = [] ∧
        (declarations env front).getLast?.getD [] = []

/-! ## Steps -/

variable {env : Env} {i : Nat} {s s' : State} {l : Line}

/-- The text of the declarations after a line. -/
def State.preambleWith (s : State) (l : Line) : Text := if s.insidePreamble then s.preamble ++ l else s.preamble

/-- What a line does to the braces, the declarations and the locals to destroy. -/
inductive Effect (env : Env) (s s' : State) (l : Line) : Prop where
  | opening (e : Emitted) (h : opens l = true) (ho : s'.out = s.out ++ [e])
      (hi : e.item = .openBrace) (hp : s'.insidePreamble = true) (ht : s'.preamble = [])
      (ha : s'.autoDestroy = s.autoDestroy)
  | ending (e : Emitted) (h : opens l = false) (hb : blank l = true) (hs : s.insidePreamble = true)
      (ho : s'.out = s.out ++ [e])
      (hi : e.item = .autoNew (preambleParse env (s.preamble ++ l)).autos)
      (hp : s'.insidePreamble = false) (ha : s'.autoDestroy = (preambleParse env (s.preamble ++ l)).autos)
  | closing (e : Emitted) (h : opens l = false) (hc : closes l = true)
      (ho : s'.out = s.out ++ [e])
      (hi : e.item = .closeBrace s.hasCatch s.hasFinally s.autoDestroy)
      (hp : s'.insidePreamble = s.insidePreamble) (ht : s'.preamble = s.preambleWith l)
      (ha : s'.autoDestroy = s.autoDestroy)
  | other (es : List Emitted) (h : opens l = false) (hb : s.insidePreamble = true → blank l = false)
      (hc : closes l = false) (ho : s'.out = s.out ++ es)
      (hi : ∀ e ∈ es, e.item.isBrace = false ∧ e.item.allocates = [])
      (hp : s'.insidePreamble = s.insidePreamble) (ht : s'.preamble = s.preambleWith l)
      (ha : s'.autoDestroy = s.autoDestroy)

theorem settle_quiet (env : Env) (line : Text) :
    (settle env line).1.isBrace = false ∧ (settle env line).1.allocates = [] := by
  unfold settle
  split
  · split
    · exact ⟨rfl, rfl⟩
    · split
      · exact ⟨rfl, rfl⟩
      · split
        · split <;> exact ⟨rfl, rfl⟩
        · exact ⟨rfl, rfl⟩
  · exact ⟨rfl, rfl⟩

/-- The rule of a line that is neither a brace nor the end of the declarations. -/
theorem quiet_rule {p : Bool} (ho : opens l = false) (hb : p = true → blank l = false)
    (hc : closes l = false) :
    ruleOf p l ≠ .openBrace ∧ ruleOf p l ≠ .blank ∧ ruleOf p l ≠ .closeBrace := by
  have hs : statementRule l ≠ .openBrace ∧ statementRule l ≠ .blank ∧ statementRule l ≠ .closeBrace := by
    unfold statementRule
    split
    · simp
    · split
      · simp
      · split
        · simp
        · split <;> simp
  have hblank : (p && blank l) = false := by
    cases p with
    | true => exact hb rfl
    | false => rfl
  simp only [opens, blank, closes] at ho hblank hc
  simp only [ruleOf, ho, hblank, hc, Bool.false_eq_true, if_false]
  split
  · simp
  · split
    · simp
    · exact hs

theorem step_effect (h : step env i s l = some s') : Effect env s s' l := by
  have hp : ∀ {p : State}, p = (if s.insidePreamble then { s with preamble := s.preamble ++ l } else s) →
      p.insidePreamble = s.insidePreamble ∧ p.preamble = s.preambleWith l ∧ p.out = s.out ∧
      p.autoDestroy = s.autoDestroy ∧ p.hasCatch = s.hasCatch ∧ p.hasFinally = s.hasFinally := by
    rintro p rfl
    unfold State.preambleWith
    split <;> exact ⟨rfl, rfl, rfl, rfl, rfl, rfl⟩
  obtain ⟨hpre, htext, hout, hauto, hcatch, hfinally⟩ := hp rfl
  unfold step at h
  generalize (if s.insidePreamble then { s with preamble := s.preamble ++ l } else s) = p at *
  cases ho : opens l with
  | true =>
    have hrule : ruleOf s.insidePreamble l = .openBrace := if_pos ho
    rw [hrule] at h
    cases h
    exact .opening _ ho rfl rfl rfl rfl rfl
  | false =>
    have hnot : test openRx l = false := ho
    by_cases hb : s.insidePreamble = true ∧ blank l = true
    · have hblank : test blankRx l = true := hb.2
      have hrule : ruleOf s.insidePreamble l = .blank := by simp [ruleOf, hnot, hblank, hb.1]
      have hfull : p.preamble = s.preamble ++ l := by rw [htext, State.preambleWith, if_pos hb.1]
      rw [hrule] at h
      cases h
      have hautos : (preambleParse env p.preamble).autos = (preambleParse env (s.preamble ++ l)).autos := by
        rw [hfull]
      exact .ending _ ho hb.2 hb.1 (congrArg (· ++ _) hout) (congrArg Item.autoNew hautos) rfl hautos
    · cases hc : closes l with
      | true =>
        have hclose : test closeRx l = true := hc
        have hrule : ruleOf s.insidePreamble l = .closeBrace := by
          have hblank : test blankRx l = false := not_blank_of_closes hc
          simp [ruleOf, hnot, hblank, hclose]
        rw [hrule] at h
        cases h
        refine .closing _ ho hc (congrArg (· ++ _) hout) ?_ hpre htext hauto
        rw [← hcatch, ← hfinally, ← hauto]
      | false =>
        have hb' : s.insidePreamble = true → blank l = false := by
          intro hin
          rw [← Bool.not_eq_true]
          exact fun hbl => hb ⟨hin, hbl⟩
        obtain ⟨hr₁, hr₂, hr₃⟩ := quiet_rule ho hb' hc
        cases hrule : ruleOf s.insidePreamble l with
        | openBrace => exact absurd hrule hr₁
        | blank => exact absurd hrule hr₂
        | closeBrace => exact absurd hrule hr₃
        | method =>
          rw [hrule] at h
          obtain ⟨stmt, -, h⟩ := Option.bind_eq_some_iff.mp h
          cases h
          exact .other _ ho hb' hc (congrArg (· ++ _) hout) (by simp [Item.isBrace, Item.allocates])
            hpre htext hauto
        | other =>
          rw [hrule] at h
          cases h
          simp only [stepOther]
          split
          · exact .other [] ho hb' hc (by simpa using hout) (by simp) hpre htext hauto
          · exact .other _ ho hb' hc (congrArg (· ++ _) hout) (by simpa using settle_quiet env _)
              hpre htext hauto
        | _ =>
          rw [hrule] at h
          cases h
          exact .other _ ho hb' hc (congrArg (· ++ _) hout) (by simp [Item.isBrace, Item.allocates])
            hpre htext hauto

/-! ## Runs -/

theorem steps_append (a b : List Line) :
    steps env i s (a ++ b) = (steps env i s a).bind fun t => steps env (i + a.length) t b := by
  induction a generalizing i s with
  | nil => rfl
  | cons l a ih =>
    rw [List.cons_append, steps, steps, Option.bind_eq_bind, Option.bind_assoc]
    congr 1
    funext t
    rw [ih, List.length_cons, ← Nat.add_assoc, Nat.add_right_comm]

theorem steps_cons {a : List Line} (h : steps env i s (l :: a) = some s') :
    ∃ t, step env i s l = some t ∧ steps env (i + 1) t a = some s' :=
  Option.bind_eq_some_iff.mp h

/-- The declarations that are being read. -/
def ahead (env : Env) (s : State) (ls : List Line) : Option (List Auto) :=
  if s.insidePreamble then declared env s.preamble ls else none

theorem ahead_other (ho : opens l = false) (hb : s.insidePreamble = true → blank l = false)
    (hp : s'.insidePreamble = s.insidePreamble) (ht : s'.preamble = s.preambleWith l) (ls : List Line) :
    ahead env s (l :: ls) = ahead env s' ls := by
  cases hin : s.insidePreamble with
  | true =>
    rw [ahead, ahead, hp, ht, State.preambleWith, hin, if_pos rfl, if_pos rfl, if_pos rfl, declared, ho,
      hb hin]
    rfl
  | false => rw [ahead, ahead, hp, hin, if_neg Bool.false_ne_true, if_neg Bool.false_ne_true]

/-- Up to the next function, the code allocates what the declarations that are being read say. -/
theorem allocated_outside {ls : List Line} {new : List Emitted} (h : steps env i s ls = some s')
    (hout : s'.out = s.out ++ new) : allocated (outside new) = (ahead env s ls).getD [] := by
  induction ls generalizing i s new with
  | nil =>
    cases h
    obtain rfl : new = [] := by simpa using hout
    unfold ahead
    split <;> rfl
  | cons l ls ih =>
    obtain ⟨t, ht, hs⟩ := steps_cons h
    obtain ⟨more, hmore⟩ := steps_out hs
    have hrest := ih hs hmore
    rw [hmore] at hout
    cases step_effect ht with
    | opening e ho hpush hi =>
      rw [hpush, List.append_assoc] at hout
      obtain rfl := List.append_cancel_left hout
      have hnone : ahead env s (l :: ls) = none := by
        unfold ahead
        split
        · rw [declared, ho, if_pos rfl]
        · rfl
      simp [hnone, outside, hi, Item.isOpen, allocated]
    | ending e ho hb hin hpush hi hp ha =>
      rw [hpush, List.append_assoc] at hout
      obtain rfl := List.append_cancel_left hout
      have hnone : ahead env t ls = none := by rw [ahead, hp, if_neg Bool.false_ne_true]
      rw [hnone] at hrest
      have hsome : ahead env s (l :: ls) = some (preambleParse env (s.preamble ++ l)).autos := by
        rw [ahead, hin, if_pos rfl, declared, ho, hb]
        rfl
      have hlist : outside ([e] ++ more) = e :: outside more := by simp [outside, hi, Item.isOpen]
      rw [hsome, hlist]
      change e.item.allocates ++ allocated (outside more) = _
      rw [hrest, hi]
      exact List.append_nil _
    | closing e ho hc hpush hi hp ht =>
      rw [hpush, List.append_assoc] at hout
      obtain rfl := List.append_cancel_left hout
      have hlist : outside ([e] ++ more) = e :: outside more := by simp [outside, hi, Item.isOpen]
      rw [ahead_other ho (fun _ => not_blank_of_closes hc) hp ht, ← hrest, hlist]
      change e.item.allocates ++ allocated (outside more) = _
      rw [hi]
      rfl
    | other es ho hb hc hpush hi hp ht =>
      rw [hpush, List.append_assoc] at hout
      obtain rfl := List.append_cancel_left hout
      have hopen : ∀ e ∈ es, (!e.item.isOpen) = true := by
        intro e he
        have hbrace := (hi e he).1
        cases hitem : e.item <;> rw [hitem] at hbrace <;> first | rfl | cases hbrace
      have hlist : outside (es ++ more) = es ++ outside more := List.takeWhile_append_of_pos hopen
      have hnone : allocated es = [] := List.flatMap_eq_nil_iff.mpr fun e he => (hi e he).2
      rw [ahead_other ho hb hp ht, ← hrest, hlist, allocated, List.flatMap_append]
      change allocated es ++ _ = _
      rw [hnone]
      rfl

/-- What is destroyed at a closing brace is what the last declarations say. -/
theorem steps_autoDestroy {ls : List Line} (h : steps env i s ls = some s') :
    s'.autoDestroy = ((ahead env s ls).toList ++ declarations env ls).getLast?.getD s.autoDestroy := by
  induction ls generalizing i s with
  | nil =>
    cases h
    unfold ahead
    split <;> rfl
  | cons l ls ih =>
    obtain ⟨t, ht, hs⟩ := steps_cons h
    rw [ih hs]
    cases step_effect ht with
    | opening e ho hpush hi hp ht ha =>
      have hnone : ahead env s (l :: ls) = none := by
        unfold ahead
        split
        · rw [declared, ho, if_pos rfl]
        · rfl
      have hahead : ahead env t ls = declared env [] ls := by rw [ahead, hp, ht, if_pos rfl]
      rw [hnone, hahead, ha, declarations, ho, if_pos rfl]
      rfl
    | ending e ho hb hin hpush hi hp ha =>
      have hnone : ahead env t ls = none := by rw [ahead, hp, if_neg Bool.false_ne_true]
      have hsome : ahead env s (l :: ls) = some (preambleParse env (s.preamble ++ l)).autos := by
        rw [ahead, hin, if_pos rfl, declared, ho, hb]
        rfl
      rw [hnone, hsome, ha, declarations, ho]
      simp [List.getLast?_cons]
    | closing e ho hc hpush hi hp ht ha =>
      rw [ahead_other ho (fun _ => not_blank_of_closes hc) hp ht, ha, declarations, ho]
      rfl
    | other es ho hb hc hpush hi hp ht ha =>
      rw [ahead_other ho hb hp ht, ha, declarations, ho]
      rfl

theorem declared_append {raw : Text} {a b : List Line} {autos : List Auto}
    (h : declared env raw a = some autos) : declared env raw (a ++ b) = some autos := by
  induction a generalizing raw with
  | nil => cases h
  | cons l a ih =>
    rw [declared] at h
    rw [List.cons_append, declared]
    split
    · rename_i ho
      rw [if_pos ho] at h
      cases h
    · rename_i ho
      rw [if_neg ho] at h
      split
      · rename_i hb
        rw [if_pos hb] at h
        exact h
      · rename_i hb
        rw [if_neg hb] at h
        exact ih h

/-- Without an opening brace, only a blank line is needed to end the declarations. -/
theorem declared_eq_none (raw : Text) {body : List Line} (ho : ∀ l ∈ body, opens l = false) :
    declared env raw body = none ↔ ∀ l ∈ body, blank l = false := by
  induction body generalizing raw with
  | nil => simp [declared]
  | cons l body ih =>
    have hrest := ih (raw ++ l) fun x hx => ho x (List.mem_cons_of_mem _ hx)
    rw [declared, ho l (by simp), if_neg Bool.false_ne_true]
    cases hb : blank l with
    | true => simp [hb]
    | false => simp [hb, hrest]

theorem declarations_eq_nil {body : List Line} (ho : ∀ l ∈ body, opens l = false) :
    declarations env body = [] := by
  induction body with
  | nil => rfl
  | cons l body ih =>
    rw [declarations, ho l (by simp), ih fun x hx => ho x (List.mem_cons_of_mem _ hx)]
    rfl

/-- Every element of the output was written by a line of the input. -/
theorem steps_split {ls : List Line} {x y : List Emitted} {e : Emitted}
    (h : steps env i s ls = some s') (hout : s'.out = s.out ++ (x ++ e :: y)) :
    ∃ a l b t t', ls = a ++ l :: b ∧ steps env i s a = some t ∧ t.out = s.out ++ x ∧
      step env (i + a.length) t l = some t' ∧ t'.out = t.out ++ [e] ∧
      steps env (i + a.length + 1) t' b = some s' ∧ s'.out = t'.out ++ y := by
  induction ls generalizing i s x with
  | nil =>
    cases h
    simp at hout
  | cons l ls ih =>
    obtain ⟨u, hu, hs⟩ := steps_cons h
    -- the lines behind `l` wrote the element
    have hlater : ∀ z, u.out ++ (z ++ e :: y) = s.out ++ (x ++ e :: y) → u.out ++ z = s.out ++ x →
        ∃ a l' b t t', l :: ls = a ++ l' :: b ∧ steps env i s a = some t ∧ t.out = s.out ++ x ∧
          step env (i + a.length) t l' = some t' ∧ t'.out = t.out ++ [e] ∧
          steps env (i + a.length + 1) t' b = some s' ∧ s'.out = t'.out ++ y := by
      intro z hz hz'
      obtain ⟨a, l', b, t, t', hls, ha, ht, hl', ht', hb, hy⟩ := ih hs (hout.trans hz.symm)
      refine ⟨l :: a, l', b, t, t', by rw [hls]; rfl, ?_, ht.trans hz', ?_, ht', ?_, hy⟩
      · rw [steps, hu]
        exact ha
      · rw [List.length_cons, ← Nat.add_assoc, Nat.add_right_comm]
        exact hl'
      · rw [List.length_cons, ← Nat.add_assoc, Nat.add_right_comm i]
        exact hb
    have hpush : (∃ f, u.out = s.out ++ [f]) ∨ u.out = s.out := by
      obtain ⟨-, ⟨-, -, -, item, -, hp⟩ | ⟨-, -, -, -, hp⟩ | ⟨-, -, -, -, hp⟩⟩ := step_cases hu
      · exact .inl ⟨_, hp⟩
      · exact .inr hp
      · exact .inl ⟨_, hp⟩
    rcases hpush with ⟨f, hf⟩ | hsame
    · obtain ⟨more, hmore⟩ := steps_out hs
      have hlist : f :: more = x ++ e :: y := by
        rw [hmore, hf, List.append_assoc] at hout
        exact List.append_cancel_left hout
      cases x with
      | nil =>
        obtain ⟨rfl, rfl⟩ := List.cons.inj hlist
        exact ⟨[], l, ls, s, u, rfl, rfl, (List.append_nil _).symm, hu, hf, hs, hmore⟩
      | cons g x =>
        obtain ⟨rfl, -⟩ := List.cons.inj hlist
        exact hlater x (by rw [hf]; simp) (by rw [hf]; simp)
    · exact hlater x (by rw [hsame]) (by rw [hsame])

/-- Braces in the output stand for braces in the input. -/
theorem steps_noBrace {ls : List Line} {new : List Emitted} (h : steps env i s ls = some s')
    (hout : s'.out = s.out ++ new) :
    (∀ e ∈ new, e.item.isBrace = false) ↔ ∀ l ∈ ls, opens l = false ∧ closes l = false := by
  induction ls generalizing i s new with
  | nil =>
    cases h
    obtain rfl : new = [] := by simpa using hout
    simp
  | cons l ls ih =>
    obtain ⟨t, ht, hs⟩ := steps_cons h
    obtain ⟨more, hmore⟩ := steps_out hs
    have hrest := ih hs hmore
    rw [hmore] at hout
    cases step_effect ht with
    | opening e ho hpush hi =>
      rw [hpush, List.append_assoc] at hout
      obtain rfl := List.append_cancel_left hout
      simp [hi, ho, Item.isBrace]
    | ending e ho hb hin hpush hi =>
      rw [hpush, List.append_assoc] at hout
      obtain rfl := List.append_cancel_left hout
      have hc : closes l = false := by
        rw [← Bool.not_eq_true]
        intro hc
        rw [not_blank_of_closes hc] at hb
        cases hb
      have he : e.item.isBrace = false := by
        rw [hi]
        rfl
      rw [List.singleton_append, List.forall_mem_cons, hrest, List.forall_mem_cons]
      exact ⟨fun hall => ⟨⟨ho, hc⟩, hall.2⟩, fun hall => ⟨he, hall.2⟩⟩
    | closing e ho hc hpush hi =>
      rw [hpush, List.append_assoc] at hout
      obtain rfl := List.append_cancel_left hout
      simp [hi, hc, Item.isBrace]
    | other es ho hb hc hpush hi =>
      rw [hpush, List.append_assoc] at hout
      obtain rfl := List.append_cancel_left hout
      rw [List.forall_mem_append, hrest, List.forall_mem_cons]
      exact ⟨fun hall => ⟨⟨ho, hc⟩, hall.2⟩, fun hall => ⟨fun e he => (hi e he).1, hall.2⟩⟩

/-- What was written for the body of a function and behind it. -/
structure Written (env : Env) (front body : List Line) (c : Line) (rest : List Line)
    (inner after : List Emitted) (autos : List Auto) : Prop where
  plain : ∀ l ∈ body, opens l = false
  within : allocated inner = (declared env [] body).getD []
  total : allocated inner ++ allocated (outside after) = (declared env [] (body ++ c :: rest)).getD []
  destroyed : autos = (declared env [] body).getD ((declarations env front).getLast?.getD [])

/-- The steps from one brace to the other and on to the end of the file. -/
theorem written_of_steps {fn : Text} {front body rest : List Line} {o c : Line}
    {t₁ t₂ t₃ t₄ : State} {inner after : List Emitted} {j k m : Nat}
    (h₁ : steps env i (start fn) front = some t₁) (h₂ : step env j t₁ o = some t₂)
    (h₃ : steps env k t₂ body = some t₃) (h₄ : step env m t₃ c = some t₄)
    (h₅ : steps env (m + 1) t₄ rest = some s) (ho : opens o = true) (hc : closes c = true)
    (hbody : ∀ l ∈ body, opens l = false) (hinner : t₃.out = t₂.out ++ inner)
    (hafter : s.out = t₄.out ++ after) (hquiet : ∀ e ∈ inner, e.item.isBrace = false)
    (hk : k + body.length = m) :
    ∃ e, t₄.out = t₃.out ++ [e] ∧
      e.item = .closeBrace t₃.hasCatch t₃.hasFinally t₃.autoDestroy ∧
      Written env front body c rest inner after t₃.autoDestroy := by
  have hopen : t₂.insidePreamble = true ∧ t₂.preamble = [] ∧ t₂.autoDestroy = t₁.autoDestroy := by
    cases step_effect h₂ with
    | opening e h hpush hi hp ht ha => exact ⟨hp, ht, ha⟩
    | ending e h => rw [ho] at h; cases h
    | closing e h => rw [ho] at h; cases h
    | other es h => rw [ho] at h; cases h
  obtain ⟨e, hpush, hitem⟩ : ∃ e, t₄.out = t₃.out ++ [e] ∧
      e.item = .closeBrace t₃.hasCatch t₃.hasFinally t₃.autoDestroy := by
    cases step_effect h₄ with
    | opening e h => rw [not_opens_of_closes hc] at h; cases h
    | ending e h hb => rw [not_blank_of_closes hc] at hb; cases hb
    | closing e h hc' hpush hi => exact ⟨e, hpush, hi⟩
    | other es h hb hc' => rw [hc] at hc'; cases hc'
  have hahead : ∀ ls, ahead env t₂ ls = declared env [] ls := by
    intro ls
    rw [ahead, hopen.1, hopen.2.1, if_pos rfl]
  have hnotOpen : ∀ e ∈ inner, (!e.item.isOpen) = true := by
    intro e he
    have hbrace := hquiet e he
    cases hi : e.item <;> rw [hi] at hbrace <;> first | rfl | cases hbrace
  have hself : ∀ es : List Emitted, (∀ e ∈ es, (!e.item.isOpen) = true) → outside es = es := by
    intro es hes
    have h := @List.takeWhile_append_of_pos _ _ _ [] hes
    rw [List.append_nil, List.takeWhile_nil, List.append_nil] at h
    exact h
  have hwithin : allocated inner = (declared env [] body).getD [] := by
    have h := allocated_outside h₃ hinner
    rw [hahead] at h
    rw [← h, hself inner hnotOpen]
  refine ⟨e, hpush, hitem, hbody, hwithin, ?_, ?_⟩
  · -- the steps from the opening brace to the end of the file
    have htail : steps env k t₂ (body ++ c :: rest) = some s := by
      rw [steps_append, h₃, Option.bind_some, hk, steps, h₄]
      exact h₅
    have hout : s.out = t₂.out ++ (inner ++ e :: after) := by
      rw [hafter, hpush, hinner]
      simp
    have h := allocated_outside htail hout
    rw [hahead] at h
    have hcut : outside (inner ++ e :: after) = inner ++ e :: outside after := by
      have he : (!e.item.isOpen) = true := by
        rw [hitem]
        rfl
      have hrest : outside (e :: after) = e :: outside after := by
        rw [outside, List.takeWhile_cons, he]
        rfl
      rw [outside, List.takeWhile_append_of_pos hnotOpen]
      exact congrArg (inner ++ ·) hrest
    rw [← h, hcut, allocated, allocated, allocated, List.flatMap_append, List.flatMap_cons, hitem]
    rfl
  · have hfront := steps_autoDestroy h₁
    have hlast := steps_autoDestroy h₃
    rw [hahead, declarations_eq_nil hbody, List.append_nil, hopen.2.2, hfront] at hlast
    rw [hlast]
    cases declared env [] body <;> rfl

/-- What is written for a function is balanced when it has a blank line, or nothing to allocate
and nothing left to destroy. -/
theorem Written.balanced_iff {front body rest : List Line} {c : Line} {inner after : List Emitted}
    {autos : List Auto} (w : Written env front body c rest inner after autos) :
    ((∀ x, x ∈ allocated inner ↔ x ∈ autos) ∧ allocated (outside after) = []) ↔
      (∃ l ∈ body, blank l = true) ∨
        (declared env [] (body ++ c :: rest)).getD [] = [] ∧
          (declarations env front).getLast?.getD [] = [] := by
  have hiff := @declared_eq_none env [] _ w.plain
  have hinner := w.within
  have htotal := w.total
  have hautos := w.destroyed
  cases hdecl : declared env [] body with
  | some as =>
    have hblank : ∃ l ∈ body, blank l = true := by
      by_contra hno
      have hall : ∀ l ∈ body, blank l = false := by
        intro l hl
        rw [← Bool.not_eq_true]
        exact fun hb => hno ⟨l, hl, hb⟩
      rw [hiff.mpr hall] at hdecl
      cases hdecl
    rw [hdecl] at hinner hautos
    rw [declared_append hdecl, hinner] at htotal
    have hafter : allocated (outside after) = [] := by simpa using htotal
    refine iff_of_true ⟨?_, hafter⟩ (.inl hblank)
    intro x
    rw [hinner, hautos]
    exact Iff.rfl
  | none =>
    have hno : ¬ ∃ l ∈ body, blank l = true := by
      rintro ⟨l, hl, hb⟩
      rw [hiff.mp hdecl l hl] at hb
      cases hb
    rw [hdecl] at hinner hautos
    rw [hinner] at htotal
    have hlate : allocated (outside after) = (declared env [] (body ++ c :: rest)).getD [] := htotal
    have hstale : autos = (declarations env front).getLast?.getD [] := hautos
    have hempty : (∀ x, x ∈ allocated inner ↔ x ∈ autos) ↔ autos = [] := by
      rw [hinner]
      simp [List.eq_nil_iff_forall_not_mem]
    rw [hempty, hlate, hstale]
    constructor
    · rintro ⟨h₁, h₂⟩
      exact .inr ⟨h₂, h₁⟩
    · rintro (h | ⟨h₁, h₂⟩)
      · exact absurd h hno
      · exact ⟨h₂, h₁⟩

/-- What a line writes is determined by the output. -/
theorem pushed_unique {out out' : List Emitted} {e f : Emitted} (hf : out' = out ++ [f]) (he : out' = out ++ [e]) :
    f = e := by
  have h := List.append_cancel_left (hf.symm.trans he)
  exact (List.cons.inj h).1

/-- A line that writes an opening brace is one. -/
theorem opens_of_item {e : Emitted} (h : step env i s l = some s') (hout : s'.out = s.out ++ [e])
    (hi : e.item = .openBrace) : opens l = true := by
  cases step_effect h with
  | opening f ho => exact ho
  | ending f ho hb hin hpush hf =>
    rw [pushed_unique hpush hout, hi] at hf
    cases hf
  | closing f ho hc hpush hf =>
    rw [pushed_unique hpush hout, hi] at hf
    cases hf
  | other es ho hb hc hpush hf =>
    have h := List.append_cancel_left (hpush.symm.trans hout)
    have hq := (hf e (by rw [h]; simp)).1
    rw [hi] at hq
    cases hq

/-- A line that writes a closing brace is one, and destroys what the state says. -/
theorem closes_of_item {e : Emitted} {hasCatch hasFinally : Bool} {autos : List Auto}
    (h : step env i s l = some s') (hout : s'.out = s.out ++ [e])
    (hi : e.item = .closeBrace hasCatch hasFinally autos) :
    closes l = true ∧ autos = s.autoDestroy := by
  cases step_effect h with
  | opening f ho hpush hf =>
    rw [pushed_unique hpush hout, hi] at hf
    cases hf
  | ending f ho hb hin hpush hf =>
    rw [pushed_unique hpush hout, hi] at hf
    cases hf
  | closing f ho hc hpush hf =>
    rw [pushed_unique hpush hout, hi] at hf
    cases hf
    exact ⟨hc, rfl⟩
  | other es ho hb hc hpush hf =>
    have h := List.append_cancel_left (hpush.symm.trans hout)
    have hq := (hf e (by rw [h]; simp)).1
    rw [hi] at hq
    cases hq

/-- In the output of the parser every function destroys the locals it allocates, and allocates them
between its braces, exactly when every function of the input has a blank line between its braces or
has nothing to allocate and nothing left to destroy from the declarations read before it. -/
theorem prologue_matches_epilogue_iff {fn : Text} {input : List Line}
    (h : parse env fn input = some s) : Balanced s.out ↔ Separated env input := by
  constructor
  · intro hbal front o body c rest hinput ho hc hbody
    rw [parse, hinput, steps_append] at h
    obtain ⟨t₁, h₁, h⟩ := Option.bind_eq_some_iff.mp h
    obtain ⟨t₂, h₂, h⟩ := steps_cons h
    rw [steps_append] at h
    obtain ⟨t₃, h₃, h⟩ := Option.bind_eq_some_iff.mp h
    obtain ⟨t₄, h₄, h₅⟩ := steps_cons h
    obtain ⟨inner, hinner⟩ := steps_out h₃
    obtain ⟨after, hafter⟩ := steps_out h₅
    have hquiet := (steps_noBrace h₃ hinner).mpr hbody
    obtain ⟨e, hpush, hitem, w⟩ := written_of_steps h₁ h₂ h₃ h₄ h₅ ho hc (fun l hl => (hbody l hl).1)
      hinner hafter hquiet rfl
    obtain ⟨f, hf, hfi⟩ : ∃ f, t₂.out = t₁.out ++ [f] ∧ f.item = .openBrace := by
      cases step_effect h₂ with
      | opening f hopen hpush hi => exact ⟨f, hpush, hi⟩
      | ending f hopen => rw [ho] at hopen; cases hopen
      | closing f hopen => rw [ho] at hopen; cases hopen
      | other es hopen => rw [ho] at hopen; cases hopen
    have hout : s.out = t₁.out ++ f :: (inner ++ e :: after) := by
      rw [hafter, hpush, hinner, hf]
      simp
    exact w.balanced_iff.mp (hbal _ _ _ _ _ _ _ _ hout hfi hitem hquiet)
  · intro hsep front o inner c rest hasCatch hasFinally autos hout ho hc hquiet
    -- neither brace is the first element, which has no line
    obtain ⟨x, rfl⟩ : ∃ x, front = (start fn).out ++ x := by
      obtain ⟨new, hnew⟩ := steps_out h
      cases front with
      | nil =>
        rw [hout] at hnew
        obtain ⟨rfl, -⟩ := List.cons.inj hnew
        cases ho
      | cons e x =>
        rw [hout] at hnew
        obtain ⟨rfl, -⟩ := List.cons.inj hnew
        exact ⟨x, rfl⟩
    rw [List.append_assoc] at hout
    obtain ⟨front', o', tail, t₁, t₂, hin, h₁, hx, h₂, hpush, h₃, hrest⟩ := steps_split h hout
    obtain ⟨body, c', rest', t₃, t₄, htail, hb, hinner, h₄, hpush', h₅, hafter⟩ := steps_split h₃ hrest
    have ho' := opens_of_item h₂ hpush ho
    obtain ⟨hc', hautos⟩ := closes_of_item h₄ hpush' hc
    have hbody := (steps_noBrace hb hinner).mp hquiet
    obtain ⟨e, he, hitem, w⟩ := written_of_steps h₁ h₂ hb h₄ h₅ ho' hc' (fun l hl => (hbody l hl).1)
      hinner hafter hquiet rfl
    rw [hautos]
    refine w.balanced_iff.mpr (hsep front' o' body c' rest' ?_ ho' hc' hbody)
    rw [hin, htail]

/-- If a function starts at a line and so many lines stand between its braces, it is in order. -/
def SeparatedAt (env : Env) (input : List Line) (i k : Nat) : Prop :=
  opens (input.getD i []) = true → closes ((input.drop (i + 1)).getD k []) = true →
    (∀ l ∈ (input.drop (i + 1)).take k, opens l = false ∧ closes l = false) →
    (∃ l ∈ (input.drop (i + 1)).take k, blank l = true) ∨
      (declared env [] (input.drop (i + 1))).getD [] = [] ∧
        (declarations env (input.take i)).getLast?.getD [] = []

instance (env : Env) (input : List Line) (i k : Nat) : Decidable (SeparatedAt env input i k) := by
  delta SeparatedAt
  infer_instance

theorem separated_of_places {input : List Line}
    (h : ∀ i < input.length, ∀ k < input.length, SeparatedAt env input i k) : Separated env input := by
  rintro front o body c rest rfl ho hc hbody
  have hdrop : (front ++ o :: (body ++ c :: rest)).drop (front.length + 1) = body ++ c :: rest := by
    rw [List.drop_append, List.drop_of_length_le (Nat.le_succ _)]
    simp
  have hplace := h front.length (by simp) body.length (by simp; omega)
  rw [SeparatedAt, hdrop, List.take_left, List.take_left] at hplace
  exact hplace (by simpa using ho) (by simpa using hc) hbody

/-- Two functions with a local each. -/
def separatedFile : List Line :=
  ["\x7b\n", "\tstring_t *a;\n", "\n", "\x7d\n", "\n", "\x7b\n", "\tlist_t *b;\n", "\n", "\x7d\n"].map str

theorem prologue_matches_epilogue_iff_separatedFile :
    ∃ s, parse someEnv (str "f.nc") separatedFile = some s ∧
      Balanced s.out := by
  have hsome : (parse someEnv (str "f.nc") separatedFile).isSome = true := by decide +kernel
  obtain ⟨s, hs⟩ := Option.isSome_iff_exists.mp hsome
  have hseparated : Separated someEnv separatedFile := by
    apply separated_of_places
    decide +kernel
  exact ⟨s, hs, (prologue_matches_epilogue_iff hs).mpr hseparated⟩

/-- A function with a local, and one without any blank line. -/
def joinedFile : List Line :=
  ["\x7b\n", "\tstring_t *a;\n", "\n", "\x7d\n", "\x7b\n", "\tgo();\n", "\x7d\n"].map str

/-- The second function destroys the local of the first. -/
theorem second_function_destroys_local_of_first :
    ∃ s, parse someEnv (str "f.nc") joinedFile = some s ∧
      s.out.getLast?.map Emitted.item = some (.closeBrace false false [⟨str "str", str "a"⟩]) ∧
      ¬ Balanced s.out := by
  have hout : (parse someEnv (str "f.nc") joinedFile).map State.out =
      some [⟨.preface (str "f.nc"), [], []⟩, ⟨.openBrace, [0], []⟩,
        ⟨.verbatim (str "\tstring_t *a;"), [1], []⟩, ⟨.autoNew [⟨str "str", str "a"⟩], [2], []⟩,
        ⟨.closeBrace false false [⟨str "str", str "a"⟩], [3], []⟩, ⟨.openBrace, [4], []⟩,
        ⟨.verbatim (str "\tgo();"), [5], []⟩,
        ⟨.closeBrace false false [⟨str "str", str "a"⟩], [6], []⟩] := by
    decide +kernel
  obtain ⟨s, hs, hlist⟩ := Option.map_eq_some_iff.mp hout
  refine ⟨s, hs, by rw [hlist]; rfl, ?_⟩
  intro hbal
  rw [hlist] at hbal
  obtain ⟨hsets, -⟩ := hbal _ ⟨.openBrace, [4], []⟩ [⟨.verbatim (str "\tgo();"), [5], []⟩]
    ⟨.closeBrace false false [⟨str "str", str "a"⟩], [6], []⟩ [] false false
    [⟨str "str", str "a"⟩] (List.append_cons [_, _, _, _, _] _ _).symm rfl rfl (by simp [Item.isBrace])
  have hmem := (hsets ⟨str "str", str "a"⟩).mpr (by simp)
  simp [allocated, Item.allocates] at hmem

end Ncc
