import Mathlib.Data.List.Basic

/-!
# Backtracking regular expressions

Regular expressions as Perl runs them. From a place in a text, an expression leads to the
places behind its matches, in the order in which backtracking tries them, so the match is
the first of them. A star is greedy or lazy by the order in which it lists its ends.
-/
namespace Regex

abbrev Text := List Char

/-- A text that is written out. -/
def str (s : String) : Text := s.toList

/-- `\s`. -/
def isSpace (c : Char) : Bool :=
  c = ' ' || c = '\t' || c = '\n' || c = '\r' || c = '\x0b' || c = '\x0c'

/-- `[A-Za-z0-9_]`. -/
def isWord (c : Char) : Bool := c.isAlphanum || c = '_'

/-- `[A-Za-z_]`. -/
def isWordStart (c : Char) : Bool := c.isAlpha || c = '_'

inductive Rx where
  | eps
  | cls (p : Char → Bool)
  | seq (a b : Rx)
  | alt (a b : Rx)
  | star (greedy : Bool) (r : Rx)
  /-- A numbered group. -/
  | cap (n : Nat) (r : Rx)
  /-- `^`, with `/m` if the flag is set. -/
  | bol (m : Bool)
  /-- `$`, with `/m` if the flag is set. -/
  | eol (m : Bool)

/-- A place in a text: the character before it, the text behind it, and the groups so far. -/
structure At where
  prev : Option Char
  rest : Text
  caps : List (Nat × Text)
  deriving DecidableEq, Repr

/-- Any number of rounds that each get further. -/
def many (greedy : Bool) (step : At → List At) : Nat → At → List At
  | 0, s => [s]
  | n + 1, s =>
    let more := ((step s).filter fun e => e.rest.length < s.rest.length).flatMap (many greedy step n)
    if greedy then more ++ [s] else s :: more

/-- The places behind the matches from a given place. -/
def run : Rx → At → List At
  | .eps, s => [s]
  | .cls p, s =>
    match s.rest with
    | [] => []
    | c :: t => if p c then [⟨some c, t, s.caps⟩] else []
  | .seq a b, s => (run a s).flatMap (run b)
  | .alt a b, s => run a s ++ run b s
  | .star greedy r, s => many greedy (run r) s.rest.length s
  | .cap n r, s => (run r s).map fun e =>
    { e with caps := (n, s.rest.take (s.rest.length - e.rest.length)) :: e.caps }
  | .bol m, s => if s.prev = none ∨ (m ∧ s.prev = some '\n' ∧ s.rest ≠ []) then [s] else []
  | .eol m, s => if s.rest = [] ∨ s.rest = ['\n'] ∨ (m ∧ s.rest.head? = some '\n') then [s] else []

structure Match where
  /-- What is in front of the match. -/
  pre : Text
  /-- The text of the match. -/
  all : Text
  /-- What is behind it. -/
  post : Text
  caps : List (Nat × Text)
  deriving DecidableEq, Repr

/-- The text of a group, empty when the group took no part in the match. -/
def Match.group (m : Match) (n : Nat) : Text := (m.caps.lookup n).getD []

/-- The leftmost match that does not start before the given place. -/
def searchFrom (r : Rx) (prev : Option Char) : Text → Option Match
  | [] =>
    match run r ⟨prev, [], []⟩ with
    | e :: _ => some ⟨[], [], e.rest, e.caps⟩
    | [] => none
  | c :: t =>
    match run r ⟨prev, c :: t, []⟩ with
    | e :: _ => some ⟨[], (c :: t).take ((c :: t).length - e.rest.length), e.rest, e.caps⟩
    | [] => (searchFrom r (some c) t).map fun m => { m with pre := c :: m.pre }

/-- `text =~ /r/`. -/
def search (r : Rx) (text : Text) : Option Match := searchFrom r none text

/-- Whether the text matches. -/
def test (r : Rx) (text : Text) : Bool := (search r text).isSome

/-- `text =~ s/r/with/g`. The fuel is the length of the text, and a match takes part of it. -/
def replaceAll (r : Rx) (subst : Text) : Nat → Option Char → Text → Text
  | 0, _, text => text
  | n + 1, prev, text =>
    match searchFrom r prev text with
    | none => text
    | some m =>
      if m.all = [] then text
      else m.pre ++ subst ++ replaceAll r subst n m.all.getLast? m.post

def gsub (r : Rx) (subst text : Text) : Text := replaceAll r subst text.length none text

/-- The fields between matches, at most `limit` of them. -/
def fields (r : Rx) : Nat → Text → List Text
  | 0, text => [text]
  | limit + 1, text =>
    match search r text with
    | none => [text]
    | some m => if m.all = [] then [text] else m.pre :: fields r limit m.post

/-- `split /r/, text`, which leaves out empty fields at the end. -/
def split (r : Rx) (text : Text) : List Text :=
  ((fields r text.length text).reverse.dropWhile (· = [])).reverse

/-- `split /r/, text, 2`. -/
def split2 (r : Rx) (text : Text) : List Text := if text = [] then [] else fields r 1 text

/-! ## Anchored expressions -/

variable {r : Rx} {t : Text} {c : Char}

theorem run_bol_start (r : Rx) (t : Text) (cs : List (Nat × Text)) :
    run (.seq (.bol false) r) ⟨none, t, cs⟩ = run r ⟨none, t, cs⟩ := by
  simp [run]

theorem run_bol_later (r : Rx) (c : Char) (t : Text) (cs : List (Nat × Text)) :
    run (.seq (.bol false) r) ⟨some c, t, cs⟩ = [] := by
  simp [run]

theorem searchFrom_bol_later (r : Rx) (c : Char) (t : Text) :
    searchFrom (.seq (.bol false) r) (some c) t = none := by
  induction t generalizing c with
  | nil => rw [searchFrom, run_bol_later]
  | cons d t ih => rw [searchFrom, run_bol_later, ih d, Option.map_none]

/-- An expression that starts with `^` matches at the start or not at all. -/
theorem search_bol (r : Rx) (t : Text) :
    search (.seq (.bol false) r) t =
      (run r ⟨none, t, []⟩).head?.map fun e =>
        ⟨[], t.take (t.length - e.rest.length), e.rest, e.caps⟩ := by
  rw [search]
  cases t with
  | nil =>
    rw [searchFrom, run_bol_start]
    cases run r ⟨none, [], []⟩ <;> simp
  | cons c t =>
    rw [searchFrom, run_bol_start]
    cases run r ⟨none, c :: t, []⟩ with
    | nil => rw [searchFrom_bol_later, Option.map_none, List.head?_nil, Option.map_none]
    | cons e es => rfl

theorem test_bol (r : Rx) (t : Text) :
    test (.seq (.bol false) r) t = true ↔ run r ⟨none, t, []⟩ ≠ [] := by
  rw [test, search_bol]
  cases run r ⟨none, t, []⟩ <;> simp

/-! ## Greedy stars -/

/-- The places that a greedy star over `w` leads to, the longest match first. -/
def ends (caps : List (Nat × Text)) : Option Char → Text → Text → List At
  | prev, [], z => [⟨prev, z, caps⟩]
  | prev, c :: w, z => ends caps (some c) w z ++ [⟨prev, c :: w ++ z, caps⟩]

variable {p : Char → Bool} {prev : Option Char} {w x z : Text} {caps : List (Nat × Text)}

theorem many_cls (n : Nat) (hn : w.length ≤ n) (hw : ∀ c ∈ w, p c = true) (hz : ∀ c ∈ z.head?, p c = false) :
    many true (run (.cls p)) n ⟨prev, w ++ z, caps⟩ = ends caps prev w z := by
  induction n generalizing w prev with
  | zero =>
    obtain rfl : w = [] := List.length_eq_zero_iff.mp (Nat.le_zero.mp hn)
    rfl
  | succ n ih =>
    cases w with
    | nil =>
      have hstep : run (.cls p) ⟨prev, z, caps⟩ = [] := by
        cases z with
        | nil => rfl
        | cons c z => simp [run, hz c (by simp)]
      simp [many, hstep, ends]
    | cons c w =>
      have hstep : run (.cls p) ⟨prev, c :: (w ++ z), caps⟩ = [⟨some c, w ++ z, caps⟩] := by
        simp [run, hw c (by simp)]
      have hrest : many true (run (.cls p)) n ⟨some c, w ++ z, caps⟩ = ends caps (some c) w z :=
        ih (by simpa using hn) fun d hd => hw d (by simp [hd])
      simp [many, hstep, ends, hrest]

/-- A greedy star over a class. -/
theorem run_star_cls (hw : ∀ c ∈ w, p c = true) (hz : ∀ c ∈ z.head?, p c = false) :
    run (.star true (.cls p)) ⟨prev, w ++ z, caps⟩ = ends caps prev w z := by
  rw [run]
  exact many_cls _ (by simp) hw hz

/-- The character in front of the place behind `w`. -/
def lastOf (prev : Option Char) (w : Text) : Option Char := w.getLast?.or prev

theorem lastOf_cons (prev : Option Char) (c : Char) (w : Text) : lastOf prev (c :: w) = lastOf (some c) w := by
  cases w with
  | nil => rfl
  | cons d w => simp [lastOf, List.getLast?_cons]

theorem head?_ends : (ends caps prev w z).head? = some ⟨lastOf prev w, z, caps⟩ := by
  induction w generalizing prev with
  | nil => rfl
  | cons c w ih => rw [ends, List.head?_append, ih, lastOf_cons, Option.some_or]

theorem ends_append (caps : List (Nat × Text)) (prev : Option Char) (w x z : Text) :
    ∃ L, ends caps prev (w ++ x) z = ends caps (lastOf prev w) x z ++ L := by
  induction w generalizing prev with
  | nil => exact ⟨[], by simp [lastOf]⟩
  | cons c w ih =>
    obtain ⟨L, hL⟩ := ih (some c)
    exact ⟨L ++ [⟨prev, c :: (w ++ x) ++ z, caps⟩], by
      rw [List.cons_append, ends, hL, List.append_assoc, lastOf_cons]⟩

theorem mem_ends {a : At} (ha : a ∈ ends caps prev w z) : ∃ y y', w = y ++ y' ∧ a.rest = y' ++ z := by
  induction w generalizing prev with
  | nil =>
    rw [ends, List.mem_singleton] at ha
    exact ⟨[], [], rfl, by rw [ha]; rfl⟩
  | cons c w ih =>
    rcases List.mem_append.mp ha with ha | ha
    · obtain ⟨y, y', rfl, hr⟩ := ih ha
      exact ⟨c :: y, y', rfl, hr⟩
    · rw [List.mem_singleton] at ha
      exact ⟨[], c :: w, rfl, by rw [ha]⟩

/-- The places behind more than `w`, and then the one right behind it. -/
theorem ends_longer (caps : List (Nat × Text)) (prev : Option Char) (w x z : Text) :
    ∃ L L', ends caps prev (w ++ x) z = L ++ ⟨lastOf prev w, x ++ z, caps⟩ :: L' ∧
      ∀ a ∈ L, ∃ y c y', x = y ++ c :: y' ∧ a.rest = y' ++ z := by
  obtain ⟨L', hL'⟩ := ends_append caps prev w x z
  rw [hL']
  cases x with
  | nil => exact ⟨[], L', rfl, by simp⟩
  | cons c x =>
    refine ⟨ends caps (some c) x z, L', by rw [ends, List.append_assoc]; rfl, ?_⟩
    intro a ha
    obtain ⟨y, y', rfl, hr⟩ := mem_ends ha
    rcases List.eq_nil_or_concat' y with rfl | ⟨b, d, rfl⟩
    · exact ⟨[], c, y', rfl, hr⟩
    · exact ⟨c :: b, d, y', by simp, hr⟩

/-- The first match of a sequence, when the first match of its first part can be continued. -/
theorem head?_seq {a b : Rx} {s u e : At} (ha : (run a s).head? = some u) (hb : (run b u).head? = some e) :
    (run (.seq a b) s).head? = some e := by
  obtain ⟨us, hus⟩ := List.head?_eq_some_iff.mp ha
  rw [run, hus, List.flatMap_cons, List.head?_append, hb, Option.some_or]

theorem head?_flatMap {f : At → List At} {L L' : List At} {u e : At} (hL : ∀ a ∈ L, f a = [])
    (hu : (f u).head? = some e) : ((L ++ u :: L').flatMap f).head? = some e := by
  have hnil : L.flatMap f = [] := List.flatMap_eq_nil_iff.mpr hL
  rw [List.flatMap_append, hnil, List.nil_append, List.flatMap_cons, List.head?_append, hu, Option.some_or]

theorem head?_star (hw : ∀ c ∈ w, p c = true) (hz : ∀ c ∈ z.head?, p c = false) :
    (run (.star true (.cls p)) ⟨prev, w ++ z, caps⟩).head? = some ⟨lastOf prev w, z, caps⟩ := by
  rw [run_star_cls hw hz, head?_ends]

theorem head?_cap {n : Nat} {r : Rx} {t : Text} {e : At} (h : (run r ⟨prev, w ++ t, caps⟩).head? = some e)
    (he : e.rest = t) :
    (run (.cap n r) ⟨prev, w ++ t, caps⟩).head? = some { e with caps := (n, w) :: e.caps } := by
  have htake : (w ++ t).take ((w ++ t).length - e.rest.length) = w := by
    rw [he]
    simp
  rw [run, List.head?_map, h, Option.map_some, htake]

/-! ## The texts of an expression -/

/-- Rounds one after the other, with the groups in them, the last one first. -/
inductive Rounds (P : Text → List (Nat × Text) → Prop) : Text → List (Nat × Text) → Prop where
  | none : Rounds P [] []
  | more {w x : Text} {new later : List (Nat × Text)} (h : P w new) (hs : Rounds P x later) :
      Rounds P (w ++ x) (later ++ new)

/-- A text that the expression stands for, with its groups. What `^` and `$` ask of the text around it
is left out. -/
def Denotes : Rx → Text → List (Nat × Text) → Prop
  | .eps, w, new => w = [] ∧ new = []
  | .cls p, w, new => (∃ c, p c = true ∧ w = [c]) ∧ new = []
  | .seq a b, w, new => ∃ x xs, Denotes a x xs ∧ ∃ y ys, Denotes b y ys ∧ w = x ++ y ∧ new = ys ++ xs
  | .alt a b, w, new => Denotes a w new ∨ Denotes b w new
  | .star _ r, w, new => Rounds (Denotes r) w new
  | .cap n r, w, new => ∃ xs, Denotes r w xs ∧ new = (n, w) :: xs
  | .bol _, w, new => w = [] ∧ new = []
  | .eol _, w, new => w = [] ∧ new = []

/-- Between the two places stands this text, and these groups have been added. -/
def Takes (s e : At) (w : Text) (new : List (Nat × Text)) : Prop := s.rest = w ++ e.rest ∧ e.caps = new ++ s.caps

variable {s e u : At} {m : Match} {new later : List (Nat × Text)}

theorem Takes.refl (s : At) : Takes s s [] [] := ⟨rfl, rfl⟩

theorem Takes.trans (h : Takes s u w new) (h' : Takes u e x later) : Takes s e (w ++ x) (later ++ new) := by
  refine ⟨?_, ?_⟩
  · rw [h.1, h'.1, List.append_assoc]
  · rw [h'.2, h.2, List.append_assoc]

theorem mem_many {greedy : Bool} {step : At → List At} {P : Text → List (Nat × Text) → Prop}
    (hstep : ∀ {s e : At}, e ∈ step s → ∃ w new, P w new ∧ Takes s e w new) (n : Nat)
    (h : e ∈ many greedy step n s) : ∃ w new, Rounds P w new ∧ Takes s e w new := by
  induction n generalizing s with
  | zero =>
    obtain rfl := List.mem_singleton.mp h
    exact ⟨[], [], .none, Takes.refl _⟩
  | succ n ih =>
    have hcases : e = s ∨ ∃ u ∈ step s, e ∈ many greedy step n u := by
      cases greedy with
      | true =>
        rcases List.mem_append.mp h with h | h
        · obtain ⟨u, hu, he⟩ := List.mem_flatMap.mp h
          exact .inr ⟨u, (List.mem_filter.mp hu).1, he⟩
        · exact .inl (List.mem_singleton.mp h)
      | false =>
        rcases List.mem_cons.mp h with h | h
        · exact .inl h
        · obtain ⟨u, hu, he⟩ := List.mem_flatMap.mp h
          exact .inr ⟨u, (List.mem_filter.mp hu).1, he⟩
    rcases hcases with rfl | ⟨u, hu, he⟩
    · exact ⟨[], [], .none, Takes.refl _⟩
    · obtain ⟨w, new, hw, hfirst⟩ := hstep hu
      obtain ⟨x, later, hx, hrest⟩ := ih he
      exact ⟨w ++ x, later ++ new, .more hw hx, hfirst.trans hrest⟩

/-- An expression takes the texts that it stands for. -/
theorem run_denotes (h : e ∈ run r s) : ∃ w new, Denotes r w new ∧ Takes s e w new := by
  induction r generalizing s e with
  | eps =>
    obtain rfl := List.mem_singleton.mp h
    exact ⟨[], [], ⟨rfl, rfl⟩, Takes.refl _⟩
  | cls p =>
    obtain ⟨prev, rest, caps⟩ := s
    cases rest with
    | nil => cases h
    | cons c t =>
      by_cases hc : p c = true
      · have he : e = ⟨some c, t, caps⟩ := by simpa [run, hc] using h
        exact ⟨[c], [], ⟨⟨c, hc, rfl⟩, rfl⟩, by rw [he]; rfl, by rw [he]; rfl⟩
      · simp [run, hc] at h
  | seq a b iha ihb =>
    obtain ⟨u, hu, he⟩ := List.mem_flatMap.mp h
    obtain ⟨x, xs, hx, hfirst⟩ := iha hu
    obtain ⟨y, ys, hy, hrest⟩ := ihb he
    exact ⟨x ++ y, ys ++ xs, ⟨x, xs, hx, y, ys, hy, rfl, rfl⟩, hfirst.trans hrest⟩
  | alt a b iha ihb =>
    rcases List.mem_append.mp h with h | h
    · obtain ⟨w, new, hw, htakes⟩ := iha h
      exact ⟨w, new, .inl hw, htakes⟩
    · obtain ⟨w, new, hw, htakes⟩ := ihb h
      exact ⟨w, new, .inr hw, htakes⟩
  | star greedy r ih => exact mem_many ih _ h
  | cap n r ih =>
    obtain ⟨u, hu, rfl⟩ := List.mem_map.mp h
    obtain ⟨w, new, hw, hrest, hcaps⟩ := ih hu
    have htake : s.rest.take (s.rest.length - u.rest.length) = w := by
      rw [hrest]
      simp
    refine ⟨w, (n, w) :: new, ⟨new, hw, rfl⟩, hrest, ?_⟩
    rw [htake, hcaps]
    rfl
  | bol multi =>
    rw [run] at h
    split at h
    · obtain rfl := List.mem_singleton.mp h
      exact ⟨[], [], ⟨rfl, rfl⟩, Takes.refl _⟩
    · cases h
  | eol multi =>
    rw [run] at h
    split at h
    · obtain rfl := List.mem_singleton.mp h
      exact ⟨[], [], ⟨rfl, rfl⟩, Takes.refl _⟩
    · cases h

theorem searchFrom_denotes (h : searchFrom r prev t = some m) :
    Denotes r m.all m.caps ∧ t = m.pre ++ (m.all ++ m.post) := by
  induction t generalizing prev m with
  | nil =>
    rw [searchFrom] at h
    cases hrun : run r ⟨prev, [], []⟩ with
    | nil =>
      rw [hrun] at h
      cases h
    | cons e es =>
      rw [hrun] at h
      cases h
      obtain ⟨w, new, hw, hrest, hcaps⟩ := run_denotes (hrun ▸ List.mem_cons_self : e ∈ run r ⟨prev, [], []⟩)
      obtain ⟨rfl, he⟩ := List.append_eq_nil_iff.mp hrest.symm
      rw [List.append_nil] at hcaps
      exact ⟨hcaps ▸ hw, he.symm⟩
  | cons c t ih =>
    rw [searchFrom] at h
    cases hrun : run r ⟨prev, c :: t, []⟩ with
    | nil =>
      rw [hrun] at h
      obtain ⟨m', hm', rfl⟩ := Option.map_eq_some_iff.mp h
      obtain ⟨hw, ht⟩ := ih hm'
      exact ⟨hw, congrArg (c :: ·) ht⟩
    | cons e es =>
      rw [hrun] at h
      cases h
      obtain ⟨w, new, hw, hrest, hcaps⟩ :=
        run_denotes (hrun ▸ List.mem_cons_self : e ∈ run r ⟨prev, c :: t, []⟩)
      have htake : (c :: t).take ((c :: t).length - e.rest.length) = w := by
        rw [show c :: t = w ++ e.rest from hrest]
        simp
      rw [List.append_nil] at hcaps
      dsimp only
      rw [htake, hcaps]
      exact ⟨hw, hrest⟩

/-- A match stands between what is in front of it and what is behind it. -/
theorem search_denotes (h : search r t = some m) : Denotes r m.all m.caps ∧ t = m.pre ++ (m.all ++ m.post) :=
  searchFrom_denotes h

theorem search_bol_pre (h : search (.seq (.bol false) r) t = some m) : m.pre = [] := by
  rw [search_bol] at h
  obtain ⟨e, -, rfl⟩ := Option.map_eq_some_iff.mp h
  rfl

theorem denotes_star_cls {greedy : Bool} (h : Denotes (.star greedy (.cls p)) w new) :
    (∀ c ∈ w, p c = true) ∧ new = [] := by
  have hrounds : Rounds (Denotes (.cls p)) w new := h
  induction hrounds with
  | none => exact ⟨by simp, rfl⟩
  | more hfirst _ ih =>
    obtain ⟨⟨c, hc, rfl⟩, rfl⟩ := hfirst
    obtain ⟨hx, rfl⟩ := ih ‹_›
    exact ⟨List.forall_mem_cons.mpr ⟨hc, hx⟩, rfl⟩

/-- One character and any number of others. -/
theorem denotes_plus {q : Char → Bool} {greedy : Bool} (h : Denotes (.seq (.cls p) (.star greedy (.cls q))) w new) :
    w ≠ [] ∧ new = [] := by
  obtain ⟨x, xs, ⟨⟨c, -, rfl⟩, rfl⟩, y, ys, hy, rfl, rfl⟩ := h
  obtain ⟨-, rfl⟩ := denotes_star_cls hy
  exact ⟨List.cons_ne_nil c y, rfl⟩

end Regex
