import Mathlib.Data.List.Basic
import Mathlib.Data.List.Lex

/-!
# Leftmost-longest matching

Extended regular expressions as POSIX matches them: of all matches the one that starts first,
of these the longest one, and of these the one whose groups are longest from left to right.
Expressions are classes, repeated classes, sequences and groups.
-/
namespace Posix

inductive Ere (α : Type) where
  | cls (p : α → Bool)
  | many (p : α → Bool)
  | seq (a b : Ere α)
  | group (a : Ere α)

/-- One or more characters of a class. -/
def Ere.some {α : Type} (p : α → Bool) : Ere α := .seq (.cls p) (.many p)

/-- A match: where it stops, the text behind it, and where its groups start and stop. -/
structure Parse (α : Type) where
  stop : Nat
  rest : List α
  groups : List (Nat × Nat)

variable {α : Type}

/-- All matches that start at the place `i`, where the text `s` stands. -/
def parses : Ere α → Nat → List α → List (Parse α)
  | .cls p, i, c :: s => if p c then [⟨i + 1, s, []⟩] else []
  | .cls _, _, [] => []
  | .many p, i, s => (List.range ((s.takeWhile p).length + 1)).map fun n => ⟨i + n, s.drop n, []⟩
  | .seq a b, i, s => (parses a i s).flatMap fun x =>
    (parses b x.stop x.rest).map fun y => ⟨y.stop, y.rest, x.groups ++ y.groups⟩
  | .group a, i, s => (parses a i s).map fun x => ⟨x.stop, x.rest, (i, x.stop) :: x.groups⟩

/-- What decides between matches that start at the same place. -/
def Parse.rank (x : Parse α) : List Nat := x.stop :: x.groups.map fun g => g.2 - g.1

/-- The match that comes first. -/
def pick : List (Parse α) → Option (Parse α)
  | [] => none
  | x :: xs =>
    match pick xs with
    | none => some x
    | some y => if x.rank < y.rank then some y else some x

/-- `regexec(3)` from the place `i` on: the match and its groups. -/
def regexecFrom (r : Ere α) : Nat → List α → Option (List (Nat × Nat))
  | i, [] => (pick (parses r i [])).map fun x => (i, x.stop) :: x.groups
  | i, c :: s =>
    match pick (parses r i (c :: s)) with
    | some x => some ((i, x.stop) :: x.groups)
    | none => regexecFrom r (i + 1) s

def regexec (r : Ere α) (s : List α) : Option (List (Nat × Nat)) := regexecFrom r 0 s

variable {r a b : Ere α} {p : α → Bool} {i : Nat} {s t : List α} {x : Parse α}

theorem mem_parses_cls : x ∈ parses (.cls p) i s ↔ ∃ c t, s = c :: t ∧ p c = true ∧ x = ⟨i + 1, t, []⟩ := by
  cases s with
  | nil => simp [parses]
  | cons c s =>
    by_cases hc : p c = true
    · simp [parses, hc]
    · simp [parses, hc]

theorem mem_parses_many : x ∈ parses (.many p) i s ↔
    ∃ u t, s = u ++ t ∧ (∀ c ∈ u, p c = true) ∧ x = ⟨i + u.length, t, []⟩ := by
  simp only [parses, List.mem_map, List.mem_range]
  constructor
  · rintro ⟨n, hn, rfl⟩
    have hle : n ≤ (s.takeWhile p).length := Nat.lt_succ_iff.mp hn
    have hlen : (s.take n).length = n :=
      List.length_take_of_le (Nat.le_trans hle (List.takeWhile_sublist p).length_le)
    refine ⟨s.take n, s.drop n, (List.take_append_drop n s).symm, ?_, by rw [hlen]⟩
    intro c hc
    have hpre : s.take n = (s.takeWhile p).take n := by
      rw [List.prefix_iff_eq_take.mp (List.takeWhile_prefix p), List.take_take,
        Nat.min_eq_left hle]
    rw [hpre] at hc
    exact List.all_eq_true.mp List.all_takeWhile c (List.mem_of_mem_take hc)
  · rintro ⟨u, t, rfl, hu, rfl⟩
    refine ⟨u.length, ?_, by simp⟩
    rw [List.takeWhile_append_of_pos hu, List.length_append]
    omega

theorem mem_parses_seq : x ∈ parses (.seq a b) i s ↔
    ∃ y ∈ parses a i s, ∃ z ∈ parses b y.stop y.rest, x = ⟨z.stop, z.rest, y.groups ++ z.groups⟩ := by
  simp only [parses, List.mem_flatMap, List.mem_map]
  constructor
  · rintro ⟨y, hy, z, hz, rfl⟩
    exact ⟨y, hy, z, hz, rfl⟩
  · rintro ⟨y, hy, z, hz, rfl⟩
    exact ⟨y, hy, z, hz, rfl⟩

theorem mem_parses_group : x ∈ parses (.group a) i s ↔
    ∃ y ∈ parses a i s, x = ⟨y.stop, y.rest, (i, y.stop) :: y.groups⟩ := by
  simp only [parses, List.mem_map]
  constructor
  · rintro ⟨y, hy, rfl⟩
    exact ⟨y, hy, rfl⟩
  · rintro ⟨y, hy, rfl⟩
    exact ⟨y, hy, rfl⟩

theorem mem_parses_some : x ∈ parses (Ere.some p) i s ↔
    ∃ u t, s = u ++ t ∧ u ≠ [] ∧ (∀ c ∈ u, p c = true) ∧ x = ⟨i + u.length, t, []⟩ := by
  rw [Ere.some, mem_parses_seq]
  constructor
  · rintro ⟨y, hy, z, hz, rfl⟩
    obtain ⟨c, t, rfl, hc, rfl⟩ := mem_parses_cls.mp hy
    obtain ⟨u, t, rfl, hu, rfl⟩ := mem_parses_many.mp hz
    refine ⟨c :: u, t, rfl, by simp, List.forall_mem_cons.mpr ⟨hc, hu⟩, ?_⟩
    simp [Nat.add_assoc, Nat.add_comm 1]
  · rintro ⟨u, t, rfl, hne, hu, rfl⟩
    obtain ⟨c, u, rfl⟩ := List.exists_cons_of_ne_nil hne
    obtain ⟨hc, hu⟩ := List.forall_mem_cons.mp hu
    refine ⟨_, mem_parses_cls.mpr ⟨c, u ++ t, rfl, hc, rfl⟩, _,
      mem_parses_many.mpr ⟨u, t, rfl, hu, rfl⟩, ?_⟩
    simp [Nat.add_assoc, Nat.add_comm 1]

theorem mem_parses_group_some : x ∈ parses (.group (Ere.some p)) i s ↔
    ∃ u t, s = u ++ t ∧ u ≠ [] ∧ (∀ c ∈ u, p c = true) ∧ x = ⟨i + u.length, t, [(i, i + u.length)]⟩ := by
  rw [mem_parses_group]
  constructor
  · rintro ⟨y, hy, rfl⟩
    obtain ⟨u, t, rfl, hne, hu, rfl⟩ := mem_parses_some.mp hy
    exact ⟨u, t, rfl, hne, hu, rfl⟩
  · rintro ⟨u, t, rfl, hne, hu, rfl⟩
    exact ⟨_, mem_parses_some.mpr ⟨u, t, rfl, hne, hu, rfl⟩, rfl⟩

/-- The first match is one of them, and none is longer. -/
theorem pick_some {xs : List (Parse α)} (h : pick xs = some x) :
    x ∈ xs ∧ ∀ y ∈ xs, y.stop ≤ x.stop := by
  have hrank : ∀ {y z : Parse α}, ¬ y.rank < z.rank → z.stop ≤ y.stop := by
    intro y z hyz
    by_contra hlt
    exact hyz (List.Lex.rel (Nat.lt_of_not_le hlt))
  have hrank' : ∀ {y z : Parse α}, y.rank < z.rank → y.stop ≤ z.stop := by
    intro y z hyz
    by_contra hlt
    exact absurd (List.lt_trans hyz (List.Lex.rel (Nat.lt_of_not_le hlt))) (List.lt_irrefl _)
  induction xs generalizing x with
  | nil => cases h
  | cons z zs ih =>
    rw [pick] at h
    cases hz : pick zs with
    | none =>
      rw [hz] at h
      cases h
      cases zs with
      | nil => simp
      | cons w ws =>
        rw [pick] at hz
        split at hz
        · cases hz
        · split at hz <;> cases hz
    | some y =>
      obtain ⟨hmem, hmax⟩ := ih hz
      rw [hz] at h
      dsimp only at h
      split at h
      · rename_i hlt
        cases h
        refine ⟨List.mem_cons_of_mem _ hmem, ?_⟩
        exact List.forall_mem_cons.mpr ⟨hrank' hlt, hmax⟩
      · rename_i hlt
        cases h
        refine ⟨List.mem_cons_self, ?_⟩
        exact List.forall_mem_cons.mpr ⟨Nat.le_refl _, fun w hw => Nat.le_trans (hmax w hw) (hrank hlt)⟩

theorem pick_eq_none {xs : List (Parse α)} : pick xs = none ↔ xs = [] := by
  cases xs with
  | nil => simp [pick]
  | cons x xs =>
    rw [pick]
    split
    · simp
    · split <;> simp

/-- The match is found at the first place where there is one. -/
theorem regexecFrom_some {pmatch : List (Nat × Nat)} (h : regexecFrom r i s = some pmatch) :
    ∃ u t x, s = u ++ t ∧ pick (parses r (i + u.length) t) = some x ∧
      pmatch = (i + u.length, x.stop) :: x.groups := by
  induction s generalizing i with
  | nil =>
    rw [regexecFrom] at h
    obtain ⟨x, hx, rfl⟩ := Option.map_eq_some_iff.mp h
    exact ⟨[], [], x, rfl, hx, rfl⟩
  | cons c s ih =>
    rw [regexecFrom] at h
    split at h
    · rename_i x hx
      cases h
      exact ⟨[], c :: s, x, rfl, hx, rfl⟩
    · obtain ⟨u, t, x, rfl, hx, rfl⟩ := ih h
      refine ⟨c :: u, t, x, rfl, ?_, ?_⟩
      · rw [List.length_cons, Nat.add_comm u.length 1, ← Nat.add_assoc]
        exact hx
      · rw [List.length_cons, Nat.add_comm u.length 1, ← Nat.add_assoc]

/-- A match right at the start is found. -/
theorem regexecFrom_here (h : parses r i s ≠ []) :
    ∃ x, pick (parses r i s) = some x ∧ regexecFrom r i s = some ((i, x.stop) :: x.groups) := by
  obtain ⟨x, hx⟩ := Option.ne_none_iff_exists'.mp fun hnone => h (pick_eq_none.mp hnone)
  refine ⟨x, hx, ?_⟩
  cases s with
  | nil =>
    rw [regexecFrom, hx]
    rfl
  | cons c s => rw [regexecFrom, hx]

/-- Places where nothing matches are passed over. -/
theorem regexecFrom_skip {u : List α} (h : ∀ v w c, u = v ++ c :: w → parses r (i + v.length) (c :: w ++ t) = []) :
    regexecFrom r i (u ++ t) = regexecFrom r (i + u.length) t := by
  induction u generalizing i with
  | nil => rfl
  | cons c u ih =>
    have hnone : pick (parses r i (c :: (u ++ t))) = none :=
      pick_eq_none.mpr (h [] u c rfl)
    rw [List.cons_append, regexecFrom, hnone]
    dsimp only
    rw [ih, List.length_cons, Nat.add_comm u.length 1, Nat.add_assoc]
    intro v w d huv
    have := h (c :: v) w d (by rw [huv]; rfl)
    rw [List.length_cons, Nat.add_comm v.length 1, ← Nat.add_assoc] at this
    exact this

/-! ## Anchors -/

/-- One character of each class. -/
def Ere.word (p : α → Bool) : List (α → Bool) → Ere α
  | [] => .cls p
  | q :: qs => .seq (.cls p) (Ere.word q qs)

/-- The matches of one of the expressions that go on to the end of the text. -/
def parsesToEnd (rs : List (Ere α)) (i : Nat) (s : List α) : List (Parse α) :=
  (rs.flatMap fun r => parses r i s).filter fun x => x.rest.isEmpty

/-- `regexec(3)` for an expression between `^` and `$`. A counted repetition such as `a{1,2}` is given
by the list of its expansions. -/
def regexecWhole (rs : List (Ere α)) (s : List α) : Option (List (Nat × Nat)) :=
  (pick (parsesToEnd rs 0 s)).map fun x => (0, x.stop) :: x.groups

/-- `regexec(3)` for an expression in front of `$`, from the place `i` on. -/
def regexecEndFrom (r : Ere α) : Nat → List α → Option (List (Nat × Nat))
  | i, [] => (pick (parsesToEnd [r] i [])).map fun x => (i, x.stop) :: x.groups
  | i, c :: s =>
    match pick (parsesToEnd [r] i (c :: s)) with
    | some x => some ((i, x.stop) :: x.groups)
    | none => regexecEndFrom r (i + 1) s

def regexecEnd (r : Ere α) (s : List α) : Option (List (Nat × Nat)) := regexecEndFrom r 0 s

/-- A match up to the end is found at the first place where there is one. -/
theorem regexecEndFrom_some {pmatch : List (Nat × Nat)} (h : regexecEndFrom r i s = some pmatch) :
    ∃ u t x, s = u ++ t ∧ x ∈ parsesToEnd [r] (i + u.length) t ∧ pmatch = (i + u.length, x.stop) :: x.groups ∧
      ∀ v w, u = v ++ w → w ≠ [] → parsesToEnd [r] (i + v.length) (w ++ t) = [] := by
  have hfirst : ∀ v w : List α, [] = v ++ w → w ≠ [] → parsesToEnd [r] (i + v.length) (w ++ s) = [] := by
    intro v w hvw hw
    exact absurd (List.append_eq_nil_iff.mp hvw.symm).2 hw
  induction s generalizing i with
  | nil =>
    rw [regexecEndFrom] at h
    obtain ⟨x, hx, rfl⟩ := Option.map_eq_some_iff.mp h
    exact ⟨[], [], x, rfl, (pick_some hx).1, rfl, hfirst⟩
  | cons c s ih =>
    rw [regexecEndFrom] at h
    split at h
    · rename_i x hx
      cases h
      exact ⟨[], c :: s, x, rfl, (pick_some hx).1, rfl, hfirst⟩
    · rename_i hnone
      obtain ⟨u, t, x, rfl, hx, rfl, hmin⟩ := ih h fun v w hvw hw =>
        absurd (List.append_eq_nil_iff.mp hvw.symm).2 hw
      have hplace : ∀ n, i + 1 + n = i + (n + 1) := fun n => by omega
      rw [hplace] at hx ⊢
      refine ⟨c :: u, t, x, rfl, hx, rfl, ?_⟩
      intro v w hvw hw
      cases v with
      | nil =>
        obtain rfl : c :: u = w := hvw
        exact pick_eq_none.mp hnone
      | cons d v =>
        obtain ⟨rfl, rfl⟩ := List.cons.inj hvw
        have hlater := hmin v w rfl hw
        rwa [hplace] at hlater

theorem mem_parses_word {ps : List (α → Bool)} : x ∈ parses (Ere.word p ps) i s ↔
    ∃ u t, s = u ++ t ∧ List.Forall₂ (fun q c => q c = true) (p :: ps) u ∧ x = ⟨i + u.length, t, []⟩ := by
  induction ps generalizing p i s x with
  | nil =>
    rw [Ere.word, mem_parses_cls]
    constructor
    · rintro ⟨c, t, rfl, hc, rfl⟩
      exact ⟨[c], t, rfl, .cons hc .nil, rfl⟩
    · rintro ⟨u, t, rfl, hu, rfl⟩
      cases hu with
      | cons hc hnil =>
        cases hnil
        exact ⟨_, t, rfl, hc, rfl⟩
  | cons q ps ih =>
    rw [Ere.word, mem_parses_seq]
    constructor
    · rintro ⟨y, hy, z, hz, rfl⟩
      obtain ⟨c, t, rfl, hc, rfl⟩ := mem_parses_cls.mp hy
      obtain ⟨u, t, rfl, hu, rfl⟩ := ih.mp hz
      refine ⟨c :: u, t, rfl, .cons hc hu, ?_⟩
      simp [Nat.add_assoc, Nat.add_comm 1]
    · rintro ⟨u, t, rfl, hu, rfl⟩
      cases hu with
      | cons hc hrest =>
        refine ⟨_, mem_parses_cls.mpr ⟨_, _, rfl, hc, rfl⟩, _, ih.mpr ⟨_, t, rfl, hrest, rfl⟩, ?_⟩
        simp [Nat.add_assoc, Nat.add_comm 1]

theorem mem_parsesToEnd {rs : List (Ere α)} :
    x ∈ parsesToEnd rs i s ↔ (∃ r ∈ rs, x ∈ parses r i s) ∧ x.rest = [] := by
  simp only [parsesToEnd, List.mem_filter, List.mem_flatMap, List.isEmpty_iff]

/-- The first match is among those that there are. -/
theorem pick_of_mem {xs : List (Parse α)} (hx : x ∈ xs) : ∃ y ∈ xs, pick xs = some y := by
  cases hy : pick xs with
  | none =>
    rw [pick_eq_none.mp hy] at hx
    cases hx
  | some y => exact ⟨y, (pick_some hy).1, rfl⟩

/-- If all matches of the whole text have the same groups, these are found. -/
theorem regexecWhole_unique {rs : List (Ere α)} {groups : List (Nat × Nat)} (hx : x ∈ parsesToEnd rs 0 s)
    (hall : ∀ y ∈ parsesToEnd rs 0 s, y.stop = s.length ∧ y.groups = groups) :
    regexecWhole rs s = some ((0, s.length) :: groups) := by
  obtain ⟨y, hy, hpick⟩ := pick_of_mem hx
  obtain ⟨hstop, hgroups⟩ := hall y hy
  rw [regexecWhole, hpick, Option.map_some, hstop, hgroups]

end Posix
