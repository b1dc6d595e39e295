import Mathlib.Data.List.Basic

/-!
# Collecting along links

Nodes hold items and links to other nodes. A walk goes through the entries of a node in
order, collects the items, and follows a link at once unless its target was seen before.
The links may form cycles; what bounds the walk is the number of nodes not seen yet.
-/
namespace Walk

inductive Entry (α β : Type) where
  | item (b : β)
  | link (a : α)
  | skip

structure State (α β : Type) where
  /-- The nodes that a link was followed to, the last one first. -/
  seen : List α
  found : List β

variable {α β : Type}

/-- The entries of one node, given what to do at a new link. -/
def through [DecidableEq α] (visit : α → State α β → Option (State α β)) : List (Entry α β) → State α β → Option (State α β)
  | [], s => some s
  | .item b :: es, s => through visit es { s with found := b :: s.found }
  | .link a :: es, s =>
    if a ∈ s.seen then through visit es s
    else (visit a { s with seen := a :: s.seen }).bind (through visit es)
  | .skip :: es, s => through visit es s

/-- A walk of limited depth; nothing when a node cannot be read or the depth is not enough. -/
def walk [DecidableEq α] (read : α → Option (List (Entry α β))) : Nat → List (Entry α β) → State α β → Option (State α β)
  | 0, _, _ => none
  | n + 1, es, s => through (fun a s => (read a).bind fun es => walk read n es s) es s

/-- The nodes that the entries lead to, over any number of links. -/
inductive Reach (read : α → Option (List (Entry α β))) (es : List (Entry α β)) : α → Prop
  | link {a : α} (h : .link a ∈ es) : Reach read es a
  | step {a b : α} {fs : List (Entry α β)} (ha : Reach read es a) (hf : read a = some fs)
    (hb : .link b ∈ fs) : Reach read es b

theorem Reach.mono {read : α → Option (List (Entry α β))} {es fs : List (Entry α β)} {a : α}
    (h : Reach read es a) (hsub : ∀ {b}, Entry.link b ∈ es → Reach read fs b) : Reach read fs a := by
  induction h with
  | link h => exact hsub h
  | step _ hf hb ih => exact Reach.step ih hf hb

/-- What a walk through `es` has done between two states. -/
structure Covers (read : α → Option (List (Entry α β))) (es : List (Entry α β)) (s t : State α β) : Prop where
  grows : s.seen ⊆ t.seen
  once : s.seen.Nodup → t.seen.Nodup
  reached : ∀ {a}, a ∈ t.seen → a ∉ s.seen → Reach read es a
  closed : ∀ {a}, a ∈ t.seen → a ∉ s.seen →
    ∃ fs, read a = some fs ∧ ∀ {b}, Entry.link b ∈ fs → b ∈ t.seen
  links : ∀ {b}, Entry.link b ∈ es → b ∈ t.seen
  found : ∀ k, k ∈ t.found ↔ k ∈ s.found ∨ .item k ∈ es ∨
    ∃ a fs, a ∈ t.seen ∧ a ∉ s.seen ∧ read a = some fs ∧ .item k ∈ fs

variable {read : α → Option (List (Entry α β))} {s t u : State α β} {e : Entry α β} {es : List (Entry α β)}

/-- Nothing was entered. -/
theorem Covers.stay (hseen : t.seen = s.seen) (hlinks : ∀ {b}, Entry.link b ∈ es → b ∈ s.seen)
    (hfound : ∀ k, k ∈ t.found ↔ k ∈ s.found ∨ .item k ∈ es) : Covers read es s t where
  grows := hseen ▸ List.Subset.refl _
  once h := hseen ▸ h
  reached ha hn := absurd (hseen ▸ ha) hn
  closed ha hn := absurd (hseen ▸ ha) hn
  links hb := hseen ▸ hlinks hb
  found k := by
    rw [hfound]
    refine ⟨fun h => h.imp_right Or.inl, ?_⟩
    rintro (h | h | ⟨a, fs, ha, hn, -⟩)
    · exact Or.inl h
    · exact Or.inr h
    · exact absurd (hseen ▸ ha) hn

/-- One entry and then the others. -/
theorem Covers.cons (h₁ : Covers read [e] s t) (h₂ : Covers read es t u) : Covers read (e :: es) s u where
  grows := List.Subset.trans h₁.grows h₂.grows
  once h := h₂.once (h₁.once h)
  reached {a} ha hn := by
    by_cases hat : a ∈ t.seen
    · exact (h₁.reached hat hn).mono fun h => Reach.link (List.mem_cons.mpr (Or.inl (List.mem_singleton.mp h)))
    · exact (h₂.reached ha hat).mono fun h => Reach.link (List.mem_cons_of_mem _ h)
  closed {a} ha hn := by
    by_cases hat : a ∈ t.seen
    · obtain ⟨fs, hf, hl⟩ := h₁.closed hat hn
      exact ⟨fs, hf, fun h => h₂.grows (hl h)⟩
    · exact h₂.closed ha hat
  links {b} hb := by
    rcases List.mem_cons.mp hb with hb | hb
    · exact h₂.grows (h₁.links (List.mem_singleton.mpr hb))
    · exact h₂.links hb
  found k := by
    rw [h₂.found, h₁.found, List.mem_singleton, List.mem_cons]
    constructor
    · rintro ((h | h | ⟨a, fs, ha, hn, hf, hk⟩) | h | ⟨a, fs, ha, hn, hf, hk⟩)
      · exact Or.inl h
      · exact Or.inr (Or.inl (Or.inl h))
      · exact Or.inr (Or.inr ⟨a, fs, h₂.grows ha, hn, hf, hk⟩)
      · exact Or.inr (Or.inl (Or.inr h))
      · exact Or.inr (Or.inr ⟨a, fs, ha, fun hs => hn (h₁.grows hs), hf, hk⟩)
    · rintro (h | (h | h) | ⟨a, fs, ha, hn, hf, hk⟩)
      · exact Or.inl (Or.inl h)
      · exact Or.inl (Or.inr (Or.inl h))
      · exact Or.inr (Or.inl h)
      · by_cases hat : a ∈ t.seen
        · exact Or.inl (Or.inr (Or.inr ⟨a, fs, hat, hn, hf, hk⟩))
        · exact Or.inr (Or.inr ⟨a, fs, ha, hat, hf, hk⟩)

/-- A link to a new node and all that lies behind it. -/
theorem Covers.enter {a : α} {fs : List (Entry α β)} (hn : a ∉ s.seen) (hf : read a = some fs)
    (h : Covers read fs { s with seen := a :: s.seen } t) : Covers read [.link a] s t where
  grows := fun x hx => h.grows (List.mem_cons_of_mem _ hx)
  once hs := h.once (List.nodup_cons.mpr ⟨hn, hs⟩)
  reached {b} hb hbs := by
    have ha : Reach read [.link a] a := Reach.link List.mem_cons_self
    by_cases hab : b = a
    · exact hab ▸ ha
    · exact (h.reached hb (by simp [hab, hbs])).mono fun hl => Reach.step ha hf hl
  closed {b} hb hbs := by
    by_cases hab : b = a
    · subst hab
      exact ⟨fs, hf, h.links⟩
    · exact h.closed hb (by simp [hab, hbs])
  links {b} hb := by
    obtain rfl : b = a := by simpa using hb
    exact h.grows List.mem_cons_self
  found k := by
    have hseen : a ∈ t.seen := h.grows List.mem_cons_self
    rw [h.found]
    constructor
    · rintro (hk | hk | ⟨b, gs, hb, hbn, hg, hk⟩)
      · exact Or.inl hk
      · exact Or.inr (Or.inr ⟨a, fs, hseen, hn, hf, hk⟩)
      · exact Or.inr (Or.inr ⟨b, gs, hb, fun hs => hbn (List.mem_cons_of_mem _ hs), hg, hk⟩)
    · rintro (hk | hk | ⟨b, gs, hb, hbn, hg, hk⟩)
      · exact Or.inl hk
      · simp at hk
      · by_cases hab : b = a
        · subst hab
          rw [hf] at hg
          exact Or.inr (Or.inl (Option.some.inj hg ▸ hk))
        · exact Or.inr (Or.inr ⟨b, gs, hb, by simp [hab, hbn], hg, hk⟩)

/-- Every link from one of the nodes leads to one of them, and all of them can be read. -/
def Closed (read : α → Option (List (Entry α β))) (nodes : List α) : Prop :=
  ∀ a ∈ nodes, ∃ fs, read a = some fs ∧ ∀ {b}, Entry.link b ∈ fs → b ∈ nodes

variable [DecidableEq α] {nodes : List α}

/-- How many of the nodes are not seen yet. -/
def unseen (nodes : List α) (s : State α β) : Nat := (nodes.filter fun a => a ∉ s.seen).length

theorem unseen_le (hsub : s.seen ⊆ t.seen) : unseen nodes t ≤ unseen nodes s := by
  refine List.Sublist.length_le (List.monotone_filter_right nodes ?_)
  intro a ha
  simp only [decide_eq_true_eq] at ha ⊢
  exact fun h => ha (hsub h)

theorem unseen_cons_lt {a : α} (ha : a ∈ nodes) (hn : a ∉ s.seen) :
    unseen nodes { s with seen := a :: s.seen } < unseen nodes s := by
  have hfilter : (nodes.filter fun b => b ∉ a :: s.seen) =
      (nodes.filter fun b => b ∉ s.seen).filter fun b => b ≠ a := by
    rw [List.filter_filter]
    apply List.filter_congr
    intro b _
    simp
  rw [unseen, unseen, hfilter, List.length_filter_lt_length_iff_exists]
  exact ⟨a, List.mem_filter.mpr ⟨ha, by simpa using hn⟩, by simp⟩

/-- The entries of a node, if every new link can be followed. -/
theorem through_covers {visit : α → State α β → Option (State α β)} {m : Nat}
    (hv : ∀ a s, a ∈ nodes → a ∉ s.seen → unseen nodes s ≤ m → ∃ fs t, read a = some fs ∧
      visit a { s with seen := a :: s.seen } = some t ∧ Covers read fs { s with seen := a :: s.seen } t)
    (es : List (Entry α β)) (s : State α β) (hes : ∀ {b}, Entry.link b ∈ es → b ∈ nodes)
    (hm : unseen nodes s ≤ m) : ∃ t, through visit es s = some t ∧ Covers read es s t := by
  induction es generalizing s with
  | nil => exact ⟨s, rfl, Covers.stay rfl (by simp) (by simp)⟩
  | cons e es ih =>
    have hrest : ∀ {b}, Entry.link b ∈ es → b ∈ nodes := fun h => hes (List.mem_cons_of_mem _ h)
    cases e with
    | item b =>
      obtain ⟨t, ht, hcov⟩ := ih { s with found := b :: s.found } hrest hm
      refine ⟨t, ht, Covers.cons (t := { s with found := b :: s.found }) (Covers.stay rfl (by simp) ?_) hcov⟩
      intro k
      simp [or_comm]
    | skip =>
      obtain ⟨t, ht, hcov⟩ := ih s hrest hm
      exact ⟨t, ht, Covers.cons (Covers.stay rfl (by simp) (by simp)) hcov⟩
    | link a =>
      rw [through]
      by_cases ha : a ∈ s.seen
      · obtain ⟨t, ht, hcov⟩ := ih s hrest hm
        rw [if_pos ha]
        exact ⟨t, ht, Covers.cons (Covers.stay rfl (by simpa using ha) (by simp)) hcov⟩
      · obtain ⟨fs, t, hf, hvisit, hcov⟩ := hv a s (hes List.mem_cons_self) ha hm
        have henter := Covers.enter ha hf hcov
        obtain ⟨u, hu, hcov'⟩ := ih t hrest (Nat.le_trans (unseen_le henter.grows) hm)
        rw [if_neg ha, hvisit]
        exact ⟨u, hu, Covers.cons henter hcov'⟩

/-- A walk that may go deeper than there are unseen nodes comes to its end. -/
theorem walk_covers (hc : Closed read nodes) (n : Nat) (es : List (Entry α β)) (s : State α β)
    (hes : ∀ {b}, Entry.link b ∈ es → b ∈ nodes) (hn : unseen nodes s < n) :
    ∃ t, walk read n es s = some t ∧ Covers read es s t := by
  induction n generalizing es s with
  | zero => exact absurd hn (Nat.not_lt_zero _)
  | succ n ih =>
    refine through_covers ?_ es s hes (Nat.le_of_lt_succ hn)
    intro a s ha hs hm
    obtain ⟨fs, hf, hl⟩ := hc a ha
    obtain ⟨t, ht, hcov⟩ := ih fs { s with seen := a :: s.seen } hl
      (Nat.lt_of_lt_of_le (unseen_cons_lt ha hs) hm)
    exact ⟨fs, t, hf, by rw [hf]; exact ht, hcov⟩

/-- A walk from the start sees exactly the nodes in reach, each once, and finds exactly their items. -/
theorem walk_exact (hc : Closed read nodes) (es : List (Entry α β))
    (hes : ∀ {b}, Entry.link b ∈ es → b ∈ nodes) (n : Nat) (hn : nodes.length < n) :
    ∃ t, walk read n es ⟨[], []⟩ = some t ∧ t.seen.Nodup ∧ (∀ a, a ∈ t.seen ↔ Reach read es a) ∧
      ∀ k, k ∈ t.found ↔ .item k ∈ es ∨ ∃ a fs, Reach read es a ∧ read a = some fs ∧ .item k ∈ fs := by
  obtain ⟨t, ht, hcov⟩ := walk_covers hc n es ⟨[], []⟩ hes
    (Nat.lt_of_le_of_lt (List.length_filter_le _ _) hn)
  have hseen : ∀ a, a ∈ t.seen ↔ Reach read es a := by
    intro a
    refine ⟨fun h => hcov.reached h (by simp), ?_⟩
    intro h
    induction h with
    | link h => exact hcov.links h
    | step _ hf hb ih =>
      obtain ⟨fs, hf', hl⟩ := hcov.closed ih (by simp)
      rw [hf] at hf'
      exact hl (Option.some.inj hf' ▸ hb)
  refine ⟨t, ht, hcov.once List.nodup_nil, hseen, ?_⟩
  intro k
  rw [hcov.found]
  simp [hseen]

end Walk
