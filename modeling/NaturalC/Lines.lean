import Mathlib.Data.List.Basic

/-!
# Cutting a stream into lines

A stream over any alphabet is cut at a separator into complete lines and an unfinished
rest. A second symbol may stand right in front of a separator and is then part of the
line's end. What a reader has to know to work on pieces of the stream is how the lines
of two pieces combine when the pieces are put together.
-/
namespace Lines

variable {α : Type}

/-- The stream is the given lines, each with a separator behind it, and an unfinished one. -/
structure Cut (sep : α) (s : List α) (lines : List (List α)) (rest : List α) : Prop where
  eq : s = (lines.map (· ++ [sep])).flatten ++ rest
  line : ∀ l ∈ lines, sep ∉ l
  rest : sep ∉ rest

variable {sep : α} {s t l r u : List α} {ls ms : List (List α)}

theorem Cut.nil : Cut sep [] [] [] := ⟨rfl, by simp, by simp⟩

/-- Text in front of a stream that starts with an unfinished line. -/
theorem Cut.unfinished (h : sep ∉ r) : Cut sep r [] r := ⟨rfl, by simp, h⟩

theorem Cut.cons (hl : sep ∉ l) (h : Cut sep s ls r) : Cut sep (l ++ sep :: s) (l :: ls) r where
  eq := by simp [h.eq]
  line := by
    intro m hm
    rcases List.mem_cons.mp hm with rfl | hm
    · exact hl
    · exact h.line m hm
  rest := h.rest

/-- More text without a separator goes to the unfinished line. -/
theorem Cut.append_unfinished (h : Cut sep s ls r) (ht : sep ∉ t) : Cut sep (s ++ t) ls (r ++ t) where
  eq := by rw [h.eq, List.append_assoc]
  line := h.line
  rest := by
    rw [List.mem_append, not_or]
    exact ⟨h.rest, ht⟩

/-- The first line of what follows completes the unfinished one. -/
theorem Cut.append (h : Cut sep s ls r) (ht : Cut sep t (l :: ms) u) :
    Cut sep (s ++ t) (ls ++ (r ++ l) :: ms) u where
  eq := by simp [h.eq, ht.eq]
  line := by
    intro m hm
    simp only [List.mem_append, List.mem_cons] at hm
    rcases hm with hm | rfl | hm
    · exact h.line m hm
    · rw [List.mem_append, not_or]
      exact ⟨h.rest, ht.line l (by simp)⟩
    · exact ht.line m (by simp [hm])
  rest := ht.rest

/-- After a separator the next stream is cut for itself. -/
theorem Cut.append_closed (h : Cut sep s ls []) (ht : Cut sep t ms u) :
    Cut sep (s ++ t) (ls ++ ms) u where
  eq := by simp [h.eq, ht.eq]
  line := by
    intro m hm
    rcases List.mem_append.mp hm with hm | hm
    · exact h.line m hm
    · exact ht.line m hm
  rest := ht.rest

/-- The first of several pieces with a separator. -/
theorem exists_first_piece {cs : List (List α)} (h : sep ∈ cs.flatten) :
    ∃ pre c post, cs = pre ++ c :: post ∧ sep ∉ pre.flatten ∧ sep ∈ c := by
  induction cs with
  | nil => simp at h
  | cons c cs ih =>
    by_cases hc : sep ∈ c
    · exact ⟨[], c, cs, rfl, by simp, hc⟩
    · obtain ⟨pre, d, post, rfl, hpre, hd⟩ := ih (by simpa [hc] using h)
      exact ⟨c :: pre, d, post, rfl, by simpa [hc] using hpre, hd⟩

/-- What is in a text that has been joined from several ones. -/
theorem mem_intercalate {b : α} (hb : b ≠ sep) : b ∈ List.intercalate [sep] ls ↔ ∃ x ∈ ls, b ∈ x := by
  induction ls with
  | nil => simp
  | cons x ls ih =>
    cases ls with
    | nil => simp
    | cons y ls =>
      rw [List.intercalate_cons_cons, List.mem_append, List.mem_append, ih]
      simp [hb]

theorem Cut.mem_iff (h : Cut sep s ls r) : sep ∈ s ↔ ls ≠ [] := by
  have hr := h.rest
  rw [h.eq]
  cases ls with
  | nil => simpa using hr
  | cons l ls => simp

/-- A stream with nothing unfinished is empty or ends with a separator. -/
theorem Cut.rest_eq_nil_iff (h : Cut sep s ls r) : r = [] ↔ s = [] ∨ s.getLast? = some sep := by
  have hr := h.rest
  rw [h.eq]
  rcases List.eq_nil_or_concat r with rfl | ⟨init, b, rfl⟩
  · rcases List.eq_nil_or_concat ls with rfl | ⟨ls, l, rfl⟩
    · simp
    · simp
  · rw [List.concat_eq_append] at hr ⊢
    have hb : b ≠ sep := by
      rintro rfl
      simp at hr
    simp [← List.append_assoc, hb]

section Compute

variable [DecidableEq α]

/-- The complete lines of a stream, and the unfinished one. -/
def cut (sep : α) : List α → List (List α) × List α
  | [] => ([], [])
  | b :: s =>
    if b = sep then ([] :: (cut sep s).1, (cut sep s).2)
    else match cut sep s with
      | ([], r) => ([], b :: r)
      | (l :: ls, r) => ((b :: l) :: ls, r)

theorem cut_unfinished (h : sep ∉ r) : cut sep r = ([], r) := by
  induction r with
  | nil => rfl
  | cons b r ih =>
    rw [List.mem_cons, not_or] at h
    rw [cut, if_neg (Ne.symm h.1), ih h.2]

theorem cut_line (h : sep ∉ l) : cut sep (l ++ sep :: s) = (l :: (cut sep s).1, (cut sep s).2) := by
  induction l with
  | nil => rw [List.nil_append, cut, if_pos rfl]
  | cons b l ih =>
    rw [List.mem_cons, not_or] at h
    rw [List.cons_append, cut, if_neg (Ne.symm h.1), ih h.2]

/-- There is one way to cut a stream. -/
theorem Cut.eq_cut (h : Cut sep s ls r) : cut sep s = (ls, r) := by
  induction ls generalizing s with
  | nil =>
    rw [h.eq]
    exact cut_unfinished h.rest
  | cons l ls ih =>
    have htail : Cut sep ((ls.map (· ++ [sep])).flatten ++ r) ls r :=
      ⟨rfl, fun m hm => h.line m (List.mem_cons_of_mem _ hm), h.rest⟩
    have hs : s = l ++ sep :: ((ls.map (· ++ [sep])).flatten ++ r) := by simp [h.eq]
    rw [hs, cut_line (h.line l (by simp)), ih htail]

theorem cut_spec (sep : α) (s : List α) : Cut sep s (cut sep s).1 (cut sep s).2 := by
  induction s with
  | nil => exact Cut.nil
  | cons b s ih =>
    rw [cut]
    split
    · rename_i hb
      rw [hb]
      exact Cut.cons List.not_mem_nil ih
    · rename_i hb
      have hone : Cut sep [b] [] [b] := Cut.unfinished (by simpa using Ne.symm hb)
      split
      · rename_i r hcut
        rw [hcut] at ih
        obtain rfl : s = r := by simpa using ih.eq
        exact hone.append_unfinished ih.rest
      · rename_i l ls r hcut
        rw [hcut] at ih
        exact hone.append ih

/-- The lines and the unfinished one are the parts between the separators. -/
theorem splitOn_eq_cut (sep : α) (s : List α) : s.splitOn sep = (cut sep s).1 ++ [(cut sep s).2] := by
  induction s with
  | nil => rfl
  | cons b s ih =>
    rw [List.splitOn_cons_eq_if_modifyHead, ih, cut]
    by_cases hb : b = sep
    · rw [if_pos (by simp [hb]), if_pos hb]
      rfl
    · rw [if_neg (by simpa using hb), if_neg hb]
      split
      · rename_i r hcut
        rw [hcut]
        rfl
      · rename_i l ls r hcut
        rw [hcut]
        rfl

/-- There are as many complete lines as separators. -/
theorem length_cut (sep : α) (s : List α) : (cut sep s).1.length = s.count sep := by
  induction s with
  | nil => rfl
  | cons b s ih =>
    rw [cut, List.count_cons]
    split
    · rename_i hb
      rw [if_pos (by simp [hb]), List.length_cons, ih]
    · rename_i hb
      rw [if_neg (by simpa using hb), ← ih]
      split
      · rename_i r hcut
        rw [hcut]
        rfl
      · rename_i l ls r hcut
        rw [hcut]
        rfl

/-- Leaving out elements that are no separators makes lines shorter and changes nothing else. -/
theorem cut_sublist {s t : List α} (h : List.Sublist s t) (hc : s.count sep = t.count sep) :
    List.Forall₂ List.Sublist (cut sep s).1 (cut sep t).1 ∧ List.Sublist (cut sep s).2 (cut sep t).2 := by
  induction h with
  | slnil => exact ⟨.nil, .slnil⟩
  | @cons s t b h ih =>
    have hle := h.count_le sep
    have hb : b ≠ sep := by
      rintro rfl
      rw [List.count_cons_self] at hc
      omega
    rw [List.count_cons_of_ne hb] at hc
    obtain ⟨hlines, hrest⟩ := ih hc
    rw [cut, if_neg hb]
    cases hcut : cut sep t with
    | mk ls r =>
      rw [hcut] at hlines hrest
      generalize (cut sep s).1 = ms at hlines ⊢
      cases hlines with
      | nil => exact ⟨.nil, hrest.cons b⟩
      | cons hl hls => exact ⟨.cons (hl.cons b) hls, hrest⟩
  | @cons_cons s t b h ih =>
    by_cases hb : b = sep
    · subst hb
      rw [List.count_cons_self, List.count_cons_self] at hc
      obtain ⟨hlines, hrest⟩ := ih (Nat.succ.inj hc)
      rw [cut, if_pos rfl, cut, if_pos rfl]
      exact ⟨.cons (.refl _) hlines, hrest⟩
    · rw [List.count_cons_of_ne hb, List.count_cons_of_ne hb] at hc
      obtain ⟨hlines, hrest⟩ := ih hc
      rw [cut, if_neg hb, cut, if_neg hb]
      cases hs : cut sep s with
      | mk ms q =>
        cases ht : cut sep t with
        | mk ls r =>
          rw [hs, ht] at hlines hrest
          cases hlines with
          | nil => exact ⟨.nil, hrest.cons_cons b⟩
          | cons hl hls => exact ⟨.cons (hl.cons_cons b) hls, hrest⟩
/-- Reading on never changes a line that is complete. -/
theorem cut_append_lines (sep : α) (s t : List α) :
    ∃ more, (cut sep (s ++ t)).1 = (cut sep s).1 ++ more ∧ (sep ∈ t → more ≠ []) := by
  have h := cut_spec sep s
  have h' := cut_spec sep t
  cases hcut : (cut sep t).1 with
  | nil =>
    have ht : sep ∉ t := fun hm => h'.mem_iff.mp hm hcut
    refine ⟨[], ?_, fun hm => absurd hm ht⟩
    rw [(h.append_unfinished ht).eq_cut, List.append_nil]
  | cons l ms =>
    rw [hcut] at h'
    refine ⟨((cut sep s).2 ++ l) :: ms, ?_, by simp⟩
    rw [(h.append h').eq_cut]

/-- What is unfinished is decided by the last piece with a separator. -/
theorem cut_append_rest {s t : List α} (ht : sep ∈ t) : (cut sep (s ++ t)).2 = (cut sep t).2 := by
  have h := cut_spec sep s
  have h' := cut_spec sep t
  cases hcut : (cut sep t).1 with
  | nil => exact absurd hcut (h'.mem_iff.mp ht)
  | cons l ms =>
    rw [hcut] at h'
    rw [(h.append h').eq_cut]

/-- Text that follows without a separator and the unfinished line before it are in one line. -/
theorem length_le_of_unfinished {a b : List α} (ha : sep ∉ a) (hb : sep ∈ b) :
    ∃ l ∈ (cut sep (s ++ (a ++ b))).1, (cut sep s).2.length + a.length ≤ l.length := by
  have h := (cut_spec sep s).append_unfinished ha
  have h' := cut_spec sep b
  cases hcut : (cut sep b).1 with
  | nil => exact absurd hcut (h'.mem_iff.mp hb)
  | cons l ms =>
    rw [hcut] at h'
    have happ := h.append h'
    rw [List.append_assoc] at happ
    rw [happ.eq_cut]
    refine ⟨(cut sep s).2 ++ a ++ l, by simp, ?_⟩
    simp only [List.length_append]
    omega

/-- The lines of a stream, and the unfinished one if anything of it is there yet. -/
def segments (sep : α) (s : List α) : List (List α) :=
  (cut sep s).1 ++ if (cut sep s).2 = [] then [] else [(cut sep s).2]

theorem Cut.segments (h : Cut sep s ls r) : segments sep s = ls ++ if r = [] then [] else [r] := by
  rw [Lines.segments, h.eq_cut]

theorem segments_closed (hs : (cut sep s).2 = []) : segments sep s = (cut sep s).1 := by
  rw [segments, if_pos hs, List.append_nil]

theorem segments_open (hs : (cut sep s).2 ≠ []) : segments sep s = (cut sep s).1 ++ [(cut sep s).2] := by
  rw [segments, if_neg hs]

theorem segments_ne_nil (sep : α) (hs : s ≠ []) : segments sep s ≠ [] := by
  intro hnil
  obtain ⟨hlines, hrest⟩ := List.append_eq_nil_iff.mp hnil
  have hcut := (cut_spec sep s).eq
  by_cases hr : (cut sep s).2 = []
  · exact hs (by simpa [hlines, hr] using hcut)
  · simp [hr] at hrest

/-- After a separator the segments of the next piece are added. -/
theorem segments_append_closed (hs : (cut sep s).2 = []) (t : List α) :
    segments sep (s ++ t) = segments sep s ++ segments sep t := by
  have h := cut_spec sep s
  rw [hs] at h
  rw [h.segments, (h.append_closed (cut_spec sep t)).segments, segments]
  simp

/-- Otherwise the first segment of the next piece continues the last one. -/
theorem segments_append_open {x : List α} {xs : List (List α)} (hs : (cut sep s).2 ≠ [])
    (ht : segments sep t = x :: xs) :
    segments sep (s ++ t) = (cut sep s).1 ++ ((cut sep s).2 ++ x) :: xs := by
  have h := cut_spec sep s
  have h' := cut_spec sep t
  rw [h'.segments] at ht
  cases hcut : (cut sep t).1 with
  | nil =>
    rw [hcut] at h' ht
    have happ := h.append_unfinished h'.rest
    obtain ⟨hne, rfl, rfl⟩ : (cut sep t).2 ≠ [] ∧ (cut sep t).2 = x ∧ [] = xs := by
      split at ht
      · cases ht
      · rename_i hne
        exact ⟨hne, List.cons.inj ht⟩
    rw [show s ++ t = s ++ (cut sep t).2 by rw [← show t = (cut sep t).2 by simpa using h'.eq],
      happ.segments, if_neg (by simp [hs])]
  | cons l ms =>
    rw [hcut] at h' ht
    obtain ⟨rfl, rfl⟩ := List.cons.inj ht
    rw [(h.append h').segments]
    simp

/-- Reading on can only change the last segment. -/
theorem segments_append_prefix (sep : α) (hs : s ≠ []) (t : List α) :
    ∃ m, m ≠ [] ∧ segments sep (s ++ t) = (segments sep s).dropLast ++ m := by
  by_cases hrest : (cut sep s).2 = []
  · obtain ⟨init, l, hl⟩ := (List.eq_nil_or_concat _).resolve_left (segments_ne_nil sep hs)
    rw [List.concat_eq_append] at hl
    refine ⟨l :: segments sep t, by simp, ?_⟩
    rw [segments_append_closed hrest, hl, List.dropLast_concat, List.append_assoc]
    rfl
  · rw [segments_open hrest, List.dropLast_concat]
    cases hseg : segments sep t with
    | nil =>
      obtain rfl : t = [] := by
        by_contra hne
        exact segments_ne_nil sep hne hseg
      exact ⟨[(cut sep s).2], by simp, by rw [List.append_nil, segments_open hrest]⟩
    | cons x xs => exact ⟨((cut sep s).2 ++ x) :: xs, by simp, segments_append_open hrest hseg⟩

/-- The complete lines are segments for good. -/
theorem segments_getElem? {k : Nat} (hk : k < (cut sep s).1.length) (t : List α) :
    (segments sep (s ++ t))[k]? = (segments sep s)[k]? := by
  obtain ⟨more, hmore, -⟩ := cut_append_lines sep s t
  rw [segments, segments, hmore, List.append_assoc, List.getElem?_append_left hk,
    List.getElem?_append_left hk]

/-- A segment is made of symbols of the stream. -/
theorem mem_of_mem_segment {x : List α} (hx : x ∈ segments sep s) {b : α} (hb : b ∈ x) : b ∈ s := by
  rw [(cut_spec sep s).eq]
  rcases List.mem_append.mp hx with hx | hx
  · refine List.mem_append_left _ (List.mem_flatten.mpr ⟨x ++ [sep], ?_, List.mem_append_left _ hb⟩)
    exact List.mem_map_of_mem (f := (· ++ [sep])) hx
  · split at hx
    · simp at hx
    · rw [List.mem_singleton.mp hx] at hb
      exact List.mem_append_right _ hb

/-- A segment is a piece of the stream without a separator in it. -/
theorem segment_isInfix {x : List α} (hx : x ∈ segments sep s) : List.IsInfix x s ∧ sep ∉ x := by
  have h := cut_spec sep s
  rcases List.mem_append.mp hx with hx | hx
  · obtain ⟨a, b, hab⟩ := List.append_of_mem hx
    refine ⟨⟨(a.map (· ++ [sep])).flatten, sep :: ((b.map (· ++ [sep])).flatten ++ (cut sep s).2), ?_⟩, h.line x hx⟩
    conv_rhs => rw [h.eq, hab]
    simp
  · split at hx
    · simp at hx
    · rw [List.mem_singleton.mp hx]
      refine ⟨⟨((cut sep s).1.map (· ++ [sep])).flatten, [], ?_⟩, h.rest⟩
      rw [List.append_nil, ← h.eq]

end Compute

/-- A piece without a separator lies on one side of each separator. -/
theorem isInfix_line {x : List α} (hx : List.IsInfix x (l ++ sep :: t)) (hsep : sep ∉ x) :
    List.IsInfix x l ∨ List.IsInfix x t := by
  obtain ⟨a, b, hab⟩ := hx
  rcases List.append_eq_append_iff.mp hab with ⟨c, hl, -⟩ | ⟨c, hax, hc⟩
  · exact Or.inl ⟨a, c, hl.symm⟩
  · cases c with
    | nil => exact Or.inl ⟨a, [], by rw [List.append_nil, hax, List.append_nil]⟩
    | cons y c =>
      obtain ⟨rfl, rfl⟩ := List.cons.inj hc
      rcases List.append_eq_append_iff.mp hax with ⟨d, rfl, hx⟩ | ⟨d, ha, hd⟩
      · exact absurd (by rw [hx]; simp) hsep
      · cases d with
        | nil =>
          rw [List.nil_append] at hd
          exact absurd (by rw [← hd]; simp) hsep
        | cons z d =>
          obtain ⟨rfl, rfl⟩ := List.cons.inj hd
          exact Or.inr ⟨d, b, rfl⟩

section Trim

/-- Every `cr` stands right in front of a separator or at the end. -/
def Guarded (cr sep : α) (s : List α) : Prop :=
  ∀ pre post, s = pre ++ cr :: post → post = [] ∨ post.head? = some sep

variable {cr : α}

/-- A piece of a guarded stream is guarded. -/
theorem Guarded.piece (pre post : List α) (h : Guarded cr sep (pre ++ s ++ post)) :
    Guarded cr sep s := by
  intro a b hs
  rcases h (pre ++ a) (b ++ post) (by simp [hs]) with hb | hb
  · exact Or.inl (List.append_eq_nil_iff.mp hb).1
  · cases b with
    | nil => exact Or.inl rfl
    | cons x b => exact Or.inr (by simpa using hb)

/-- A guarded line in front of a guarded stream. -/
theorem Guarded.line (hl : Guarded cr sep l) (ht : Guarded cr sep t) (hne : cr ≠ sep) :
    Guarded cr sep (l ++ sep :: t) := by
  intro a b hab
  rcases List.append_eq_append_iff.mp hab with ⟨c, rfl, hc⟩ | ⟨c, rfl, hc⟩
  · cases c with
    | nil => exact absurd (List.cons.inj hc).1.symm hne
    | cons x c =>
      obtain ⟨-, rfl⟩ := List.cons.inj hc
      exact ht c b rfl
  · cases c with
    | nil => exact absurd (List.cons.inj hc).1 hne
    | cons x c =>
      obtain ⟨rfl, rfl⟩ := List.cons.inj hc
      rcases hl a c rfl with rfl | hhead
      · exact Or.inr rfl
      · cases c with
        | nil => cases hhead
        | cons y c => exact Or.inr hhead

/-- Within one line the symbol can only be the last one. -/
theorem Guarded.not_mem_dropLast (h : Guarded cr sep l) (hl : sep ∉ l) : cr ∉ l.dropLast := by
  intro hmem
  rcases List.eq_nil_or_concat l with rfl | ⟨init, x, rfl⟩
  · simp at hmem
  · rw [List.concat_eq_append] at *
    rw [List.dropLast_concat] at hmem
    obtain ⟨a, b, rfl⟩ := List.append_of_mem hmem
    rcases h a (b ++ [x]) (by simp) with hnil | hhead
    · simp at hnil
    · have hsep : sep ∈ b ++ [x] := List.mem_of_mem_head? hhead
      apply hl
      rw [List.append_assoc, List.cons_append]
      exact List.mem_append_right _ (List.mem_cons_of_mem _ hsep)

variable [DecidableEq α]

/-- The line without the symbol that may stand in front of a separator. -/
def trim (cr : α) (l : List α) : List α := if l.getLast? = some cr then l.dropLast else l

@[simp] theorem trim_nil : trim cr [] = [] := by simp [trim]

theorem length_trim_le (l : List α) : (trim cr l).length ≤ l.length := by
  rw [trim]
  split
  · simp
  · exact Nat.le_refl _

theorem length_trim_lt (h : l.getLast? = some cr) : (trim cr l).length < l.length := by
  have hpos := List.length_pos_iff.mpr (show l ≠ [] by rintro rfl; simp at h)
  rw [trim, if_pos h, List.length_dropLast]
  omega

theorem trim_concat (l : List α) : trim cr (l ++ [cr]) = l := by simp [trim]

theorem trim_of_ne (h : l.getLast? ≠ some cr) : trim cr l = l := if_neg h

/-- What does not end in the symbol is left alone. -/
theorem trim_append_of_ne (h : r.getLast? ≠ some cr) (l : List α) : trim cr (r ++ l) = r ++ trim cr l := by
  rcases List.eq_nil_or_concat l with rfl | ⟨init, b, rfl⟩
  · rw [List.append_nil, trim_nil, List.append_nil, trim_of_ne h]
  · rw [List.concat_eq_append, ← List.append_assoc]
    by_cases hb : b = cr
    · subst hb
      rw [trim_concat, trim_concat]
    · rw [trim_of_ne (by simpa using hb), trim_of_ne (by simpa using hb), List.append_assoc]

theorem trim_trim (h : Guarded cr sep l) (hl : sep ∉ l) : trim cr (trim cr l) = trim cr l := by
  by_cases hlast : l.getLast? = some cr
  · have hnot := h.not_mem_dropLast hl
    have htrim : trim cr l = l.dropLast := if_pos hlast
    rw [htrim]
    exact trim_of_ne fun hc => hnot (List.mem_of_getLast? hc)
  · rw [trim_of_ne hlast, trim_of_ne hlast]

end Trim

end Lines
