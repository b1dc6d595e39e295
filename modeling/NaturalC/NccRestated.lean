import NaturalC.NccMethods

/-!
# What the output says of the source

Each rule writes a text in which the text of its lines stands again, between texts of its
own: the keyword of a `return` or a `foreach` is replaced, the object of a method call goes
among the arguments, and what the rule's pattern does not reach is lost.
-/
namespace Ncc

open Regex

/-! ## The parts of a line -/

variable {l : Line} {m : Match} {w : Text} {new : List (Nat × Text)}

theorem denotes_chars (k : Text) (h : Denotes (k.foldr (fun c r => .seq (.cls (· = c)) r) .eps) w new) :
    w = k ∧ new = [] := by
  induction k generalizing w new with
  | nil => exact h
  | cons c k ih =>
    obtain ⟨x, xs, ⟨⟨d, hd, rfl⟩, rfl⟩, y, ys, hy, rfl, rfl⟩ := h
    obtain ⟨rfl, rfl⟩ := ih hy
    obtain rfl : d = c := of_decide_eq_true hd
    exact ⟨rfl, rfl⟩

theorem denotes_lit {k : String} (h : Denotes (lit k) w new) : w = str k ∧ new = [] := denotes_chars _ h

theorem denotes_spaces (h : Denotes spaces w new) : White w ∧ new = [] := denotes_star_cls h

variable {r a : Rx} {k : String}

theorem denotes_bol_seq {multi : Bool} (h : Denotes (.seq (.bol multi) r) w new) : Denotes r w new := by
  obtain ⟨_, _, ⟨rfl, rfl⟩, x, xs, hx, rfl, rfl⟩ := h
  rwa [List.append_nil]

theorem denotes_lit_seq (h : Denotes (.seq (lit k) r) w new) : ∃ x, Denotes r x new ∧ w = str k ++ x := by
  obtain ⟨_, _, hk, x, xs, hx, rfl, rfl⟩ := h
  obtain ⟨rfl, rfl⟩ := denotes_lit hk
  exact ⟨x, by rwa [List.append_nil], rfl⟩

theorem denotes_lit_end (h : Denotes (.seq (lit k) .eps) w new) : w = str k ∧ new = [] := by
  obtain ⟨x, ⟨rfl, rfl⟩, rfl⟩ := denotes_lit_seq h
  exact ⟨List.append_nil _, rfl⟩

theorem denotes_spaces_seq (h : Denotes (.seq spaces r) w new) :
    ∃ gap x, White gap ∧ Denotes r x new ∧ w = gap ++ x := by
  obtain ⟨gap, _, hgap, x, xs, hx, rfl, rfl⟩ := h
  obtain ⟨hwhite, rfl⟩ := denotes_spaces hgap
  exact ⟨gap, x, hwhite, by rwa [List.append_nil], rfl⟩

/-- A group without groups in it. -/
theorem denotes_cap_seq {P : Text → Prop} {n : Nat} (ha : ∀ {x xs}, Denotes a x xs → P x ∧ xs = [])
    (h : Denotes (.seq (.cap n a) r) w new) :
    ∃ part x later, P part ∧ Denotes r x later ∧ w = part ++ x ∧ new = later ++ [(n, part)] := by
  obtain ⟨part, _, ⟨_, hpart, rfl⟩, x, xs, hx, rfl, rfl⟩ := h
  obtain ⟨hP, rfl⟩ := ha hpart
  exact ⟨part, x, xs, hP, hx, rfl, rfl⟩

theorem white_append {u v : Text} (hu : White u) (hv : White v) : White (u ++ v) :=
  fun c hc => (List.mem_append.mp hc).elim (hu c) (hv c)

/-- At the end of a line there is nothing but its newline. -/
theorem white_of_eol {s e : At} (h : e ∈ run (.eol false) s) : White s.rest := by
  rw [run] at h
  split at h
  · rename_i hend
    rcases hend with hend | hend | ⟨hmulti, -⟩
    · rw [hend]
      exact fun c hc => absurd hc List.not_mem_nil
    · rw [hend]
      exact fun c hc => (List.mem_singleton.mp hc) ▸ rfl
    · cases hmulti
  · cases h

/-- White space up to the end of the line. -/
theorem white_of_spaces_eol {s e : At} (h : e ∈ run (all [spaces, .eol false]) s) : White s.rest := by
  obtain ⟨u, hu, he⟩ := List.mem_flatMap.mp h
  obtain ⟨v, hv, -⟩ := List.mem_flatMap.mp he
  obtain ⟨w, new, hw, hrest, -⟩ := run_denotes hu
  rw [hrest]
  exact white_append (denotes_spaces hw).1 (white_of_eol hv)

/-- A brace or a label on a line of its own. -/
theorem label_of_test {k : String} (h : test (all [.bol false, lit k, spaces, .eol false]) l = true) :
    ∃ gap, White gap ∧ l = str k ++ gap := by
  obtain ⟨e, he⟩ := List.exists_mem_of_ne_nil _ ((test_bol _ l).mp h)
  obtain ⟨u, hu, he⟩ := List.mem_flatMap.mp he
  obtain ⟨w, new, hw, hrest, -⟩ := run_denotes hu
  obtain ⟨rfl, -⟩ := denotes_lit hw
  exact ⟨u.rest, white_of_spaces_eol he, hrest⟩

theorem white_of_blank (h : test blankRx l = true) : White l := by
  obtain ⟨e, he⟩ := List.exists_mem_of_ne_nil _ ((test_bol _ l).mp h)
  exact white_of_spaces_eol he

/-- A `foreach` line up to its brace. -/
def foreachHead (indent gap var gap' list gap'' : Text) : Text :=
  indent ++ (str "foreach" ++ (gap ++ (str "(" ++ (var ++ (str "," ++ (gap' ++ (list ++
    (str ")" ++ (gap'' ++ str "\x7b")))))))))

theorem foreach_parts (h : search foreachRx l = some m) :
    ∃ gap gap' gap'', White gap ∧ White gap' ∧ White gap'' ∧
      l = foreachHead (m.group 1) gap (m.group 2) gap' (m.group 3) gap'' ++ m.post := by
  obtain ⟨h₀, hl⟩ := search_denotes h
  rw [search_bol_pre h, List.nil_append] at hl
  obtain ⟨indent, _, _, -, h₁, hw, hn⟩ := denotes_cap_seq denotes_spaces (denotes_bol_seq h₀)
  obtain ⟨_, h₂, rfl⟩ := denotes_lit_seq h₁
  obtain ⟨gap, _, hgap, h₃, rfl⟩ := denotes_spaces_seq h₂
  obtain ⟨_, h₄, rfl⟩ := denotes_lit_seq h₃
  obtain ⟨var, _, _, -, h₅, rfl, rfl⟩ := denotes_cap_seq denotes_star_cls h₄
  obtain ⟨_, h₆, rfl⟩ := denotes_lit_seq h₅
  obtain ⟨gap', _, hgap', h₇, rfl⟩ := denotes_spaces_seq h₆
  obtain ⟨list, _, _, -, h₈, rfl, rfl⟩ := denotes_cap_seq denotes_star_cls h₇
  obtain ⟨_, h₉, rfl⟩ := denotes_lit_seq h₈
  obtain ⟨gap'', _, hgap'', h₁₀, rfl⟩ := denotes_spaces_seq h₉
  obtain ⟨rfl, rfl⟩ := denotes_lit_end h₁₀
  refine ⟨gap, gap', gap'', hgap, hgap', hgap'', ?_⟩
  rw [hl, hw, Match.group, Match.group, Match.group, hn]
  rfl

/-- A `return` line up to the semicolon. -/
def returnHead (indent gap e : Text) : Text := indent ++ (str "return" ++ (gap ++ (e ++ str ";")))

theorem return_parts (h : search returnRx l = some m) :
    ∃ gap, White gap ∧ m.group 2 ≠ [] ∧ l = returnHead (m.group 1) gap (m.group 2) ++ m.post := by
  obtain ⟨h₀, hl⟩ := search_denotes h
  rw [search_bol_pre h, List.nil_append] at hl
  obtain ⟨indent, _, _, -, h₁, hw, hn⟩ := denotes_cap_seq denotes_spaces (denotes_bol_seq h₀)
  obtain ⟨_, h₂, rfl⟩ := denotes_lit_seq h₁
  obtain ⟨gap, _, hgap, h₃, rfl⟩ := denotes_spaces_seq h₂
  obtain ⟨e, _, _, he, h₄, rfl, rfl⟩ := denotes_cap_seq denotes_plus h₃
  obtain ⟨rfl, rfl⟩ := denotes_lit_end h₄
  rw [hl, hw, Match.group, Match.group, hn]
  exact ⟨gap, hgap, he, rfl⟩

/-- A method call up to its semicolon. -/
def invokeHead (indent obj method gap args : Text) : Text :=
  indent ++ (obj ++ (str "." ++ (method ++ (gap ++ (str "(" ++ (args ++ str ");"))))))

theorem invoke_parts (h : search invokeRx l = some m) :
    ∃ indent gap, White indent ∧ White gap ∧
      l = invokeHead indent (m.group 1) (m.group 2) gap (m.group 3) ++ m.post := by
  obtain ⟨h₀, hl⟩ := search_denotes h
  rw [search_bol_pre h, List.nil_append] at hl
  obtain ⟨indent, _, hindent, h₁, hw⟩ := denotes_spaces_seq (denotes_bol_seq h₀)
  obtain ⟨obj, _, _, -, h₂, rfl, hn⟩ := denotes_cap_seq denotes_plus h₁
  obtain ⟨_, h₃, rfl⟩ := denotes_lit_seq h₂
  obtain ⟨method, _, _, -, h₄, rfl, rfl⟩ := denotes_cap_seq denotes_plus h₃
  obtain ⟨gap, _, hgap, h₅, rfl⟩ := denotes_spaces_seq h₄
  obtain ⟨_, h₆, rfl⟩ := denotes_lit_seq h₅
  obtain ⟨args, _, _, -, h₇, rfl, rfl⟩ := denotes_cap_seq denotes_star_cls h₆
  obtain ⟨rfl, rfl⟩ := denotes_lit_end h₇
  refine ⟨indent, gap, hindent, hgap, ?_⟩
  rw [hl, hw, Match.group, Match.group, Match.group, hn]
  rfl

/-- A call up to its semicolon. -/
def callHead (indent name gap args : Text) : Text :=
  indent ++ (name ++ (gap ++ (str "(" ++ (args ++ str ");"))))

/-- The text of lines without the newline at their end. -/
def textOf (ls : List Line) : Text := join (str "\n") (ls.map chomp)

/-- What stands in front of the closing brace of a function. -/
def epilogue (hasCatch hasFinally : Bool) (autos : List Auto) : Text :=
  str "if (0) goto catch; " ++
    ((if hasCatch then [] else str "goto finally;  catch: __retval = -1; ") ++
      ((if hasFinally then [] else str "finally: ") ++ (destroyCode autos ++ str "return __retval; ")))

/-- The head of the loop for a `foreach` line. -/
def loopHead (indent var list : Text) (cur : Nat) : Text :=
  indent ++ (str "for (" ++ (cursor cur ++ (str " = " ++ (list ++ (str "->head; " ++ (cursor cur ++ (str "; " ++
    (cursor cur ++ (str " = " ++ (cursor cur ++ (str "->next) \x7b  str_copy(" ++ (var ++ (str "," ++
      (cursor cur ++ str "->value);"))))))))))))))

/-- The expression follows the keyword in the same word. -/
def runsOn (gap e : Text) : Bool := (gap ++ e).head?.any isWord

/-- Lines of the source, the text that is written for them, and the part of theirs that is not in it. What
the rules add is written out here. -/
inductive Restates : List Line → Text → Text → Prop where
  | preface (fn : Text) : Restates [] (str "#line 1 \"" ++ fn ++ str "\"") []
  | openBrace {gap : Text} (hgap : White gap) :
      Restates [str "\x7b" ++ gap] (str "\x7b" ++ str "             int __retval = 0;") []
  | blank {gap : Text} (hgap : White gap) (autos : List Auto) : Restates [gap] (newCode autos) []
  | closeBrace {gap : Text} (hgap : White gap) (hasCatch hasFinally : Bool) (autos : List Auto) :
      Restates [str "\x7d" ++ gap] (epilogue hasCatch hasFinally autos ++ str "\x7d") []
  | catchLabel {gap : Text} (hgap : White gap) :
      Restates [str "catch:" ++ gap] (str "goto finally; " ++ (str "catch:" ++ str " __retval = -1;")) []
  | finallyLabel {gap : Text} (hgap : White gap) (hasCatch : Bool) :
      Restates [str "finally:" ++ gap]
        ((if hasCatch then [] else str "goto finally; catch: __retval = -1; ") ++ str "finally:") []
  | foreach {indent gap var gap' list gap'' post : Text} (hgap : White gap) (hgap' : White gap')
      (hgap'' : White gap'') (cur : Nat) :
      Restates [foreachHead indent gap var gap' list gap'' ++ post] (loopHead indent var list cur) post
  | ret {indent gap e post : Text} (hgap : White gap) (hword : runsOn gap e = false) :
      Restates [returnHead indent gap e ++ post]
        (indent ++ (str "do \x7b __retval = " ++ (e ++ str "; goto finally; \x7d while (0);"))) post
  /-- An identifier loses its first letters. -/
  | cut {indent gap e post : Text} (hgap : White gap) (hword : runsOn gap e = true) :
      Restates [returnHead indent gap e ++ post]
        (indent ++ (str "do \x7b __retval = " ++ (e ++ str "; goto finally; \x7d while (0);"))) (str "return" ++ post)
  | refused (l : Line) : Restates [l] (str "#warning Please do not modify __retval directly.") l
  | method {indent obj method gap args post : Text} {before after : List Text} (hindent : White indent)
      (hgap : White gap) (hargs : split commaRx args = before ++ after) (pfx : Text) :
      Restates [invokeHead indent obj method gap args ++ post] (callText pfx method (before ++ obj :: after)) post
  /-- A method call that goes on in the next line is not read. -/
  | unread (l : Line) (pfx : Text) : Restates [l] (callText pfx [] [[]]) l
  | copied (g : List Line) : Restates g (textOf g) []
  | checked {g : List Line} {pre indent name gap args post : Text} (hgap : White gap)
      (hg : textOf g = pre ++ (callHead indent name gap args ++ post)) :
      Restates g (indent ++ (str "try (" ++ (name ++ (str "(" ++ (args ++ (str "));" ++ post)))))) pre
  | clobbered {g : List Line} {lost post : Text} (hg : textOf g = lost ++ post) :
      Restates g (str "try (());" ++ post) lost
  /-- A cursor is declared behind it. -/
  | declared {g : List Line} {t lost : Text} (h : Restates g t lost) (n : Nat) :
      Restates g (t ++ (str "list_entry_t *" ++ cursor n ++ str ";")) lost

theorem restates_openBrace (h : test openRx l = true) : Restates [l] Item.openBrace.text [] := by
  obtain ⟨gap, hgap, rfl⟩ := label_of_test h
  exact .openBrace hgap

theorem restates_blank (h : test blankRx l = true) (autos : List Auto) : Restates [l] (Item.autoNew autos).text [] :=
  .blank (white_of_blank h) autos

theorem restates_closeBrace (h : test closeRx l = true) (hasCatch hasFinally : Bool) (autos : List Auto) :
    Restates [l] (Item.closeBrace hasCatch hasFinally autos).text [] := by
  obtain ⟨gap, hgap, rfl⟩ := label_of_test h
  have htext : (Item.closeBrace hasCatch hasFinally autos).text = epilogue hasCatch hasFinally autos ++ str "\x7d" := by
    simp only [Item.text, epilogue, List.append_assoc]
    rfl
  rw [htext]
  exact .closeBrace hgap hasCatch hasFinally autos

theorem restates_catchLabel (h : test catchRx l = true) : Restates [l] Item.catchLabel.text [] := by
  obtain ⟨gap, hgap, rfl⟩ := label_of_test h
  exact .catchLabel hgap

theorem restates_retval (l : Line) : Restates [l] Item.warning.text l := .refused l

theorem restates_finallyLabel (h : test finallyRx l = true) (hasCatch : Bool) :
    Restates [l] (Item.finallyLabel hasCatch).text [] := by
  obtain ⟨gap, hgap, rfl⟩ := label_of_test h
  have hwritten := Restates.finallyLabel hgap hasCatch
  cases hasCatch <;> exact hwritten

theorem restates_foreach (h : search foreachRx l = some m) (cur : Nat) :
    Restates [l] (Item.foreach (m.group 1) (m.group 2) (m.group 3) cur).text m.post := by
  obtain ⟨gap, gap', gap'', hgap, hgap', hgap'', hl⟩ := foreach_parts h
  have htext : (Item.foreach (m.group 1) (m.group 2) (m.group 3) cur).text =
      loopHead (m.group 1) (m.group 2) (m.group 3) cur := by
    simp only [Item.text, loopHead, List.append_assoc]
  rw [htext, hl]
  exact .foreach hgap hgap' hgap'' cur

theorem restates_ret (h : search returnRx l = some m) :
    Restates [l] (Item.ret (m.group 1) (m.group 2)).text (cutWord l m ++ m.post) := by
  obtain ⟨gap, hgap, he, hl⟩ := return_parts h
  have htext : (Item.ret (m.group 1) (m.group 2)).text = m.group 1 ++ (str "do \x7b __retval = " ++
      (m.group 2 ++ str "; goto finally; \x7d while (0);")) := by
    simp only [Item.text, List.append_assoc]
  have hdrop : l.drop ((m.group 1).length + 6) = (gap ++ m.group 2) ++ (str ";" ++ m.post) := by
    have hsplit : l = (m.group 1 ++ str "return") ++ ((gap ++ m.group 2) ++ (str ";" ++ m.post)) := by
      rw [hl, returnHead]
      simp only [List.append_assoc]
    have hlen : (m.group 1).length + 6 = (m.group 1 ++ str "return").length := by
      rw [List.length_append]
      rfl
    rw [hlen, hsplit, List.drop_left]
  have hhead : ((gap ++ m.group 2) ++ (str ";" ++ m.post)).head? = (gap ++ m.group 2).head? :=
    List.head?_append_of_ne_nil _ (by simp [he])
  have hcut : cutWord l m = if runsOn gap (m.group 2) then str "return" else [] := by
    rw [cutWord, hdrop, hhead, runsOn]
    cases (gap ++ m.group 2).head? <;> rfl
  rw [htext, hcut]
  cases hword : runsOn gap (m.group 2) with
  | false =>
    rw [if_neg Bool.false_ne_true]
    conv => arg 1; rw [hl]
    exact .ret hgap hword
  | true =>
    rw [if_pos rfl]
    conv => arg 1; rw [hl]
    exact .cut hgap hword

/-- The statement for a method call has the object among the parameters that its pattern has read. -/
theorem methodInvoke_parts {env : Env} {vars : List (Text × Text)} {stmt : Text}
    (h : methodInvoke env vars l = some stmt) :
    ∃ (pfx : Text) (k : Nat), stmt = callText pfx (((search invokeRx l).getD ⟨[], [], [], []⟩).group 2)
      (insertAt k (((search invokeRx l).getD ⟨[], [], [], []⟩).group 1)
        (split commaRx (((search invokeRx l).getD ⟨[], [], [], []⟩).group 3))) := by
  rw [methodInvoke] at h
  generalize (search invokeRx l).getD ⟨[], [], [], []⟩ = m at h ⊢
  obtain ⟨type, -, h⟩ := Option.bind_eq_some_iff.mp h
  obtain ⟨cls, -, h⟩ := Option.bind_eq_some_iff.mp h
  obtain ⟨ds, -, h⟩ := Option.bind_eq_some_iff.mp h
  dsimp only at h
  split at h
  · rename_i hfound
    refine ⟨cls.pfx, ds.findIdx (shows (type.takeWhile (· ≠ ' '))), ?_⟩
    rw [commaRx, ← newParams_snd hfound]
    exact (Option.some.inj h).symm
  · cases h

theorem restates_method {env : Env} {vars : List (Text × Text)} {stmt : Text}
    (h : methodInvoke env vars l = some stmt) :
    Restates [l] stmt (((search invokeRx l).map Match.post).getD l) := by
  obtain ⟨pfx, k, rfl⟩ := methodInvoke_parts h
  cases hm : search invokeRx l with
  | none =>
    have hparams : insertAt k [] (split commaRx []) = [[]] := by cases k <;> rfl
    change Restates [l] (callText pfx [] (insertAt k [] (split commaRx []))) l
    rw [hparams]
    exact .unread l pfx
  | some m =>
    obtain ⟨indent, gap, hindent, hgap, hl⟩ := invoke_parts hm
    conv => arg 1; rw [hl]
    exact .method hindent hgap (List.take_append_drop k _).symm pfx

/-- The declarations of cursors are added behind the text. -/
theorem Restates.cursors {g : List Line} {t lost : Text} (h : Restates g t lost) (cs : List (Nat × Nat)) :
    Restates g (t ++ (cs.map fun c => str "list_entry_t *" ++ cursor c.2 ++ str ";").flatten) lost := by
  induction cs generalizing t with
  | nil => rwa [List.map_nil, List.flatten_nil, List.append_nil]
  | cons c cs ih =>
    rw [List.map_cons, List.flatten_cons, ← List.append_assoc]
    exact ih (h.declared c.2)

end Ncc
