import Mathlib.Data.List.Basic
import Mathlib.Data.List.Induction
import Mathlib.Data.List.Nodup
import Mathlib.Logic.Function.Basic

/-!
# Doubly linked segments

Cells live in a memory indexed by addresses. `Seg m p xs q` says that the cells
`xs` follow one another in `m` in both directions, that the first one points back to
`p` and that the last one points forward to `q`. `Path m xs q` is the forward half of
it. Nothing is said about cells outside of `xs`, so a write elsewhere is always framed.
-/
namespace Linked

abbrev Addr := Nat

structure Cell (α : Type) where
  value : α
  next : Option Addr
  prev : Option Addr
  deriving DecidableEq, Repr

abbrev Mem (α : Type) := Addr → Option (Cell α)

variable {α : Type}

/-- The addresses of a segment, in order. -/
def addrs (xs : List (Addr × α)) : List Addr := xs.map Prod.fst

@[simp] theorem addrs_nil : addrs ([] : List (Addr × α)) = [] := rfl
@[simp] theorem addrs_cons (a : Addr) (v : α) (xs : List (Addr × α)) :
    addrs ((a, v) :: xs) = a :: addrs xs := rfl
@[simp] theorem addrs_append (xs ys : List (Addr × α)) : addrs (xs ++ ys) = addrs xs ++ addrs ys :=
  List.map_append
@[simp] theorem addrs_reverse (xs : List (Addr × α)) : addrs xs.reverse = (addrs xs).reverse :=
  List.map_reverse
@[simp] theorem length_addrs (xs : List (Addr × α)) : (addrs xs).length = xs.length :=
  List.length_map _

/-- The address a pointer to the segment holds; past its end that is `q`. -/
def first (xs : List (Addr × α)) (q : Option Addr) : Option Addr :=
  match xs with
  | [] => q
  | (a, _) :: _ => some a

/-- The address of the last cell; before the start that is `p`. -/
def last (p : Option Addr) : List (Addr × α) → Option Addr
  | [] => p
  | (a, _) :: xs => last (some a) xs

@[simp] theorem first_nil (q : Option Addr) : first ([] : List (Addr × α)) q = q := rfl
@[simp] theorem first_cons (a : Addr) (v : α) (xs : List (Addr × α)) (q : Option Addr) :
    first ((a, v) :: xs) q = some a := rfl
@[simp] theorem first_append (xs ys : List (Addr × α)) (q : Option Addr) :
    first (xs ++ ys) q = first xs (first ys q) := by cases xs <;> rfl
@[simp] theorem last_nil (p : Option Addr) : last p ([] : List (Addr × α)) = p := rfl
@[simp] theorem last_cons (p : Option Addr) (a : Addr) (v : α) (xs : List (Addr × α)) :
    last p ((a, v) :: xs) = last (some a) xs := rfl
@[simp] theorem last_append (p : Option Addr) (xs ys : List (Addr × α)) :
    last p (xs ++ ys) = last (last p xs) ys := by
  induction xs generalizing p with
  | nil => rfl
  | cons x xs ih => exact ih _

theorem first_reverse (xs : List (Addr × α)) (p : Option Addr) : first xs.reverse p = last p xs := by
  induction xs generalizing p with
  | nil => rfl
  | cons x xs ih =>
    rw [List.reverse_cons, first_append]
    exact ih _

theorem last_reverse (xs : List (Addr × α)) (q : Option Addr) : last q xs.reverse = first xs q := by
  cases xs with
  | nil => rfl
  | cons x xs => simp [first, last]

theorem first_eq_none {xs : List (Addr × α)} : first xs none = none ↔ xs = [] := by
  cases xs <;> simp [first]

theorem first_some_ne_none (xs : List (Addr × α)) (a : Addr) : first xs (some a) ≠ none := by
  cases xs <;> simp [first]

theorem last_congr {xs : List (Addr × α)} (h : xs ≠ []) (p q : Option Addr) : last p xs = last q xs := by
  cases xs with
  | nil => exact absurd rfl h
  | cons x xs => rfl

theorem last_mem {xs : List (Addr × α)} {p : Option Addr} {a : Addr} (h : last p xs = some a)
    (hp : p ≠ some a) : a ∈ addrs xs := by
  induction xs generalizing p with
  | nil => exact absurd h hp
  | cons x xs ih =>
    by_cases hx : x.1 = a
    · simp [addrs, hx]
    · exact List.mem_cons_of_mem _ (ih h (by simpa using hx))

theorem last_eq_none {xs : List (Addr × α)} : last none xs = none ↔ xs = [] := by
  rw [← first_reverse, first_eq_none, List.reverse_eq_nil_iff]

/-- A doubly linked segment from `p` to `q`. -/
def Seg (m : Mem α) : Option Addr → List (Addr × α) → Option Addr → Prop
  | _, [], _ => True
  | p, (a, v) :: xs, q => m a = some ⟨v, first xs q, p⟩ ∧ Seg m (some a) xs q

/-- The forward half of a segment. -/
def Path (m : Mem α) : List (Addr × α) → Option Addr → Prop
  | [], _ => True
  | (a, v) :: xs, q => (∃ p, m a = some ⟨v, first xs q, p⟩) ∧ Path m xs q

theorem seg_append {m : Mem α} {p q : Option Addr} {xs ys : List (Addr × α)} :
    Seg m p (xs ++ ys) q ↔ Seg m p xs (first ys q) ∧ Seg m (last p xs) ys q := by
  induction xs generalizing p with
  | nil => simp [Seg]
  | cons x xs ih =>
    obtain ⟨a, v⟩ := x
    simp [Seg, ih, and_assoc]

theorem path_append {m : Mem α} {q : Option Addr} {xs ys : List (Addr × α)} :
    Path m (xs ++ ys) q ↔ Path m xs (first ys q) ∧ Path m ys q := by
  induction xs with
  | nil => simp [Path]
  | cons x xs ih => simp [Path, ih, and_assoc]

theorem Seg.path {m : Mem α} {p q : Option Addr} {xs : List (Addr × α)} (h : Seg m p xs q) :
    Path m xs q := by
  induction xs generalizing p with
  | nil => trivial
  | cons x xs ih => exact ⟨⟨p, h.1⟩, ih h.2⟩

/-- Writes outside of a segment do not change it. -/
theorem Seg.frame {m m' : Mem α} {p q : Option Addr} {xs : List (Addr × α)} (h : Seg m p xs q)
    (hf : ∀ a ∈ addrs xs, m' a = m a) : Seg m' p xs q := by
  induction xs generalizing p with
  | nil => trivial
  | cons x xs ih =>
    refine ⟨(hf _ (by simp [addrs])).trans h.1, ih h.2 ?_⟩
    intro a ha
    exact hf a (List.mem_cons_of_mem _ ha)

theorem Path.frame {m m' : Mem α} {q : Option Addr} {xs : List (Addr × α)} (h : Path m xs q)
    (hf : ∀ a ∈ addrs xs, m' a = m a) : Path m' xs q := by
  induction xs with
  | nil => trivial
  | cons x xs ih =>
    obtain ⟨⟨p, hx⟩, hxs⟩ := h
    refine ⟨⟨p, (hf _ (by simp [addrs])).trans hx⟩, ih hxs ?_⟩
    intro a ha
    exact hf a (List.mem_cons_of_mem _ ha)

/-- A pointer and the memory determine the path to the end. -/
theorem Path.unique {m : Mem α} {xs ys : List (Addr × α)} (hx : Path m xs none)
    (hy : Path m ys none) (h : first xs none = first ys none) : xs = ys := by
  induction xs generalizing ys with
  | nil => exact (first_eq_none.mp h.symm).symm
  | cons x xs ih =>
    obtain ⟨a, v⟩ := x
    cases ys with
    | nil => simp at h
    | cons y ys =>
      obtain ⟨b, w⟩ := y
      obtain ⟨⟨p, ha⟩, hxs⟩ := hx
      obtain ⟨⟨p', hb⟩, hys⟩ := hy
      have hab : a = b := by simpa using h
      subst hab
      obtain ⟨rfl, hnext, -⟩ := Cell.mk.inj (Option.some.inj (ha.symm.trans hb))
      rw [ih hxs hys hnext]

/-- The last cell of a path may get another value and lead on to somewhere else. -/
theorem Path.setLast {m : Mem α} {us : List (Addr × α)} {a : Addr} {v : α} {q : Option Addr}
    (h : Path m (us ++ [(a, v)]) q) (ha : a ∉ addrs us) (w : α) (n p : Option Addr) :
    Path (Function.update m a (some ⟨w, n, p⟩)) (us ++ [(a, w)]) n := by
  obtain ⟨hus, -⟩ := path_append.mp h
  refine path_append.mpr ⟨?_, ⟨p, by simp⟩, trivial⟩
  apply hus.frame
  intro b hb
  exact Function.update_of_ne (ne_of_mem_of_not_mem hb ha) _ _

theorem Path.live {m : Mem α} {q : Option Addr} {xs : List (Addr × α)} (h : Path m xs q)
    {a : Addr} (ha : a ∈ addrs xs) : m a ≠ none := by
  induction xs with
  | nil => simp at ha
  | cons x xs ih =>
    obtain ⟨⟨p, hx⟩, hxs⟩ := h
    rcases List.mem_cons.mp ha with rfl | ha
    · simp [hx]
    · exact ih hxs ha

/-- The backward link of a cell inside of a segment is the cell before it. -/
theorem Seg.prev {m : Mem α} {p q : Option Addr} {xs ys : List (Addr × α)} {a : Addr} {v : α}
    (h : Seg m p (xs ++ (a, v) :: ys) q) : m a = some ⟨v, first ys q, last p xs⟩ :=
  (seg_append.mp h).2.1

/-- Following backward links from one address always takes the same number of steps. -/
theorem Seg.position {m : Mem α} {q : Option Addr} {xs : List (Addr × α)} (h : Seg m none xs q)
    (us : List (Addr × α)) {us' vs vs' : List (Addr × α)} {a : Addr} {v v' : α}
    (hx : xs = us ++ (a, v) :: vs) (hx' : xs = us' ++ (a, v') :: vs') : us.length = us'.length := by
  have hprev : last none us = last none us' := by
    have h₁ := Seg.prev (hx ▸ h)
    have h₂ := Seg.prev (hx' ▸ h)
    exact (Cell.mk.inj (Option.some.inj (h₁.symm.trans h₂))).2.2
  induction us using List.reverseRecOn generalizing us' vs vs' a v v' with
  | nil =>
    rw [last_nil] at hprev
    rw [last_eq_none.mp hprev.symm]
  | append_singleton ws w ih =>
    obtain ⟨b, z⟩ := w
    rcases List.eq_nil_or_concat us' with rfl | ⟨ws', ⟨b', z'⟩, rfl⟩
    · simp at hprev
    · rw [List.concat_eq_append] at hx' hprev ⊢
      have hb : b = b' := by simpa using hprev
      subst hb
      rw [List.append_assoc] at hx hx'
      have hlast : last none ws = last none ws' := by
        have h₁ := Seg.prev (hx ▸ h)
        have h₂ := Seg.prev (hx' ▸ h)
        exact (Cell.mk.inj (Option.some.inj (h₁.symm.trans h₂))).2.2
      have := ih hx hx' hlast
      simp only [List.length_append, List.length_singleton, this]

/-- A segment that starts with a null backward link visits no cell twice. -/
theorem Seg.nodup {m : Mem α} {q : Option Addr} {xs : List (Addr × α)} (h : Seg m none xs q) :
    (addrs xs).Nodup := by
  rw [List.Nodup, List.pairwise_iff_getElem]
  intro i j hi hj hij heq
  rw [length_addrs] at hi hj
  have cut : ∀ k (hk : k < xs.length), xs = xs.take k ++ (xs[k].1, xs[k].2) :: xs.drop (k + 1) := by
    intro k hk
    rw [← List.drop_eq_getElem_cons hk, List.take_append_drop]
  have ha : xs[i].1 = xs[j].1 := by simpa [addrs] using heq
  have hl := h.position _ (cut i hi) (ha ▸ cut j hj)
  simp only [List.length_take] at hl
  omega

/-- Replacing the value of one cell keeps all links. -/
theorem Seg.setValue {m : Mem α} {p q : Option Addr} {xs ys : List (Addr × α)} {a : Addr} {v : α}
    (h : Seg m p (xs ++ (a, v) :: ys) q) (hx : a ∉ addrs xs) (hy : a ∉ addrs ys) (w : α) :
    Seg (Function.update m a (some ⟨w, first ys q, last p xs⟩)) p (xs ++ (a, w) :: ys) q := by
  obtain ⟨hxs, -, hys⟩ := seg_append.mp h
  refine seg_append.mpr ⟨hxs.frame ?_, Function.update_self _ _ _, hys.frame ?_⟩
  · intro b hb
    exact Function.update_of_ne (ne_of_mem_of_not_mem hb hx) _ _
  · intro b hb
    exact Function.update_of_ne (ne_of_mem_of_not_mem hb hy) _ _

/-- Write the forward link of the cell `p` points to, if it points anywhere. -/
def linkNext (p q : Option Addr) (m : Mem α) : Mem α :=
  fun a => if p = some a then (m a).map (fun c => { c with next := q }) else m a

/-- Write the backward link of the cell `q` points to, if it points anywhere. -/
def linkPrev (q p : Option Addr) (m : Mem α) : Mem α :=
  fun a => if q = some a then (m a).map (fun c => { c with prev := p }) else m a

@[simp] theorem linkNext_none (q : Option Addr) (m : Mem α) : linkNext none q m = m := by
  funext a
  simp [linkNext]

@[simp] theorem linkPrev_none (p : Option Addr) (m : Mem α) : linkPrev none p m = m := by
  funext a
  simp [linkPrev]

/-- A path does not look at backward links. -/
theorem Path.linkPrev {m : Mem α} {xs : List (Addr × α)} {q : Option Addr} (h : Path m xs q)
    (n p : Option Addr) : Path (linkPrev n p m) xs q := by
  induction xs with
  | nil => trivial
  | cons x xs ih =>
    obtain ⟨⟨o, hx⟩, hxs⟩ := h
    refine ⟨?_, ih hxs⟩
    by_cases hn : n = some x.1
    · exact ⟨p, by simp [Linked.linkPrev, hn, hx]⟩
    · exact ⟨o, by simp [Linked.linkPrev, hn, hx]⟩

theorem linkNext_update {m : Mem α} {a : Addr} {v : α} {n p : Option Addr}
    (h : m a = some ⟨v, n, p⟩) (q : Option Addr) :
    linkNext (some a) q m = Function.update m a (some ⟨v, q, p⟩) := by
  funext b
  by_cases hb : b = a
  · subst hb
    simp [linkNext, h]
  · simp [linkNext, hb, Ne.symm hb]

theorem linkPrev_update {m : Mem α} {a : Addr} {v : α} {n p : Option Addr}
    (h : m a = some ⟨v, n, p⟩) (q : Option Addr) :
    linkPrev (some a) q m = Function.update m a (some ⟨v, n, q⟩) := by
  funext b
  by_cases hb : b = a
  · subst hb
    simp [linkPrev, h]
  · simp [linkPrev, hb, Ne.symm hb]

/-- Rewriting the forward link of the last cell retargets the segment. -/
theorem Seg.linkNext {m : Mem α} {p q : Option Addr} {xs : List (Addr × α)} (h : Seg m p xs q)
    (hn : (addrs xs).Nodup) (r : Option Addr) : Seg (Linked.linkNext (last none xs) r m) p xs r := by
  rcases List.eq_nil_or_concat xs with rfl | ⟨ys, ⟨b, w⟩, rfl⟩
  · trivial
  · rw [List.concat_eq_append] at *
    obtain ⟨hys, hb, -⟩ := seg_append.mp h
    have hbys : b ∉ addrs ys := by
      rw [addrs_append] at hn
      intro hin
      exact (List.nodup_append.mp hn).2.2 b hin b (by simp) rfl
    refine seg_append.mpr ⟨hys.frame ?_, ?_, trivial⟩
    · intro a ha
      simp [Linked.linkNext, (ne_of_mem_of_not_mem ha hbys).symm]
    · simp [Linked.linkNext, hb]

/-- Rewriting the backward link of the first cell moves the start of the segment. -/
theorem Seg.linkPrev {m : Mem α} {p q : Option Addr} {xs : List (Addr × α)} (h : Seg m p xs q)
    (hn : (addrs xs).Nodup) (r : Option Addr) : Seg (Linked.linkPrev (first xs none) r m) r xs q := by
  cases xs with
  | nil => trivial
  | cons x xs =>
    obtain ⟨a, v⟩ := x
    obtain ⟨ha, -⟩ := List.nodup_cons.mp hn
    refine ⟨by simp [Linked.linkPrev, h.1], h.2.frame ?_⟩
    intro b hb
    simp [Linked.linkPrev, (ne_of_mem_of_not_mem hb ha).symm]

def Cell.swap (c : Cell α) : Cell α := ⟨c.value, c.prev, c.next⟩

/-- Exchange both links of every listed cell. -/
def swapLinks (as : List Addr) (m : Mem α) : Mem α :=
  fun a => if a ∈ as then (m a).map Cell.swap else m a

/-- Free every listed cell. -/
def release (as : List Addr) (m : Mem α) : Mem α := fun a => if a ∈ as then none else m a

@[simp] theorem release_nil (m : Mem α) : release [] m = m := by
  funext a
  simp [release]

theorem release_singleton (a : Addr) (m : Mem α) : release [a] m = Function.update m a none := by
  funext b
  by_cases hb : b = a <;> simp [release, hb]

@[simp] theorem swapLinks_nil (m : Mem α) : swapLinks [] m = m := by
  funext a
  simp [swapLinks]

/-- A segment read with its links exchanged is the reversed segment. -/
theorem Seg.swapLinks {m : Mem α} {p q : Option Addr} {xs : List (Addr × α)} (h : Seg m p xs q)
    (as : List Addr) (ha : ∀ a ∈ addrs xs, a ∈ as) :
    Seg (Linked.swapLinks as m) q xs.reverse p := by
  induction xs generalizing p with
  | nil => trivial
  | cons x xs ih =>
    obtain ⟨a, v⟩ := x
    have htail := ih h.2 (fun b hb => ha b (List.mem_cons_of_mem _ hb))
    rw [List.reverse_cons]
    refine seg_append.mpr ⟨htail, ?_, trivial⟩
    have hin : a ∈ as := ha a (by simp)
    rw [Linked.swapLinks, if_pos hin, h.1, last_reverse]
    rfl

theorem first_mem {xs : List (Addr × α)} {a : Addr} (h : first xs none = some a) : a ∈ addrs xs := by
  cases xs with
  | nil => simp at h
  | cons x xs => simpa [first, addrs, eq_comm] using Or.inl h

/-- Taking one cell out of a segment: its neighbours are linked to each other. -/
theorem Seg.unlink {m : Mem α} {xs ys : List (Addr × α)} {a : Addr} {v : α}
    (h : Seg m none (xs ++ (a, v) :: ys) none) :
    Seg (release [a] (Linked.linkNext (last none xs) (first ys none)
      (Linked.linkPrev (first ys none) (last none xs) m))) none (xs ++ ys) none := by
  have hn := h.nodup
  rw [addrs_append, addrs_cons] at hn
  obtain ⟨hnx, hnay, hdis⟩ := List.nodup_append.mp hn
  obtain ⟨hay, hny⟩ := List.nodup_cons.mp hnay
  obtain ⟨hx, -, hy⟩ := seg_append.mp h
  refine seg_append.mpr ⟨(hx.linkNext hnx _).frame ?_, (hy.linkPrev hny _).frame ?_⟩
  · intro b hb
    have hba : b ≠ a := hdis b hb a (by simp)
    have hfirst : first ys none ≠ some b := fun he =>
      hdis b hb b (List.mem_cons_of_mem _ (first_mem he)) rfl
    simp [release, hba, Linked.linkNext, Linked.linkPrev, hfirst]
  · intro b hb
    have hba : b ≠ a := ne_of_mem_of_not_mem hb hay
    have hlast : last none xs ≠ some b := fun he =>
      hdis b (last_mem he (by simp)) b (List.mem_cons_of_mem _ hb) rfl
    simp [release, hba, Linked.linkNext, hlast]

end Linked
