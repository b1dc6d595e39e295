import NaturalC.NcJoin

/-!
# Line endings

A text of lines, each of them with a LF or a CRLF at its end, is split into these lines,
and joining the lines with the LF writes the text with a LF at the end of each line. An
empty text is not split at all: the list keeps what it had.
-/
namespace NcSplit

open Throwing Throwing.Act NcString NcList Linked Lines

/-- Lines with their terminators, a CRLF where the flag is set. -/
def terminated (ls : List (Bytes × Bool)) : Bytes :=
  ls.flatMap fun l => l.1 ++ if l.2 then [13, 10] else [10]

/-- A line with the CR that may be left at its end. -/
def withCr (l : Bytes × Bool) : Bytes := l.1 ++ if l.2 then [13] else []

variable {ls : List (Bytes × Bool)}

@[simp] theorem terminated_cons (l : Bytes × Bool) (ls : List (Bytes × Bool)) :
    terminated (l :: ls) = withCr l ++ 10 :: terminated ls := by
  obtain ⟨l, crlf⟩ := l
  cases crlf <;> simp [terminated, withCr]

/-- The lines up to their LF. -/
theorem cut_terminated (hls : ∀ p ∈ ls, 10 ∉ p.1) : Cut 10 (terminated ls) (ls.map withCr) [] := by
  induction ls with
  | nil => exact Cut.nil
  | cons p ls ih =>
    have hp : 10 ∉ withCr p := by
      have hline := hls p (by simp)
      unfold withCr
      split <;> simp [hline]
    rw [terminated_cons, List.map_cons]
    exact Cut.cons hp (ih fun q hq => hls q (List.mem_cons_of_mem _ hq))

/-- One CR is taken off. -/
theorem trim_withCr {p : Bytes × Bool} (hp : p.1.getLast? ≠ some 13) : trim 13 (withCr p) = p.1 := by
  unfold withCr
  split
  · exact trim_concat p.1
  · rw [List.append_nil]
    exact trim_of_ne hp

theorem pieces_terminated (hne : ls ≠ []) (hls : ∀ p ∈ ls, 10 ∉ p.1 ∧ p.1.getLast? ≠ some 13) :
    pieces 10 (terminated ls) = ls.map Prod.fst := by
  have hseg : segments 10 (terminated ls) = ls.map withCr := by
    rw [(cut_terminated fun p hp => (hls p hp).1).segments]
    simp
  rcases List.eq_nil_or_concat ls with rfl | ⟨init, last, rfl⟩
  · exact absurd rfl hne
  rw [List.concat_eq_append] at hls hseg ⊢
  have htrim : init.map (trim 13 ∘ withCr) = init.map Prod.fst := by
    apply List.map_congr_left
    intro p hp
    exact trim_withCr (hls p (List.mem_append_left _ hp)).2
  have hlast := (hls last (by simp)).2
  rw [List.map_append] at hseg
  rw [pieces_segments _ hseg, List.map_map, htrim, trim_withCr hlast, trim_of_ne hlast]
  simp

/-- All lines with a LF. -/
theorem terminated_lf (hlf : ∀ p ∈ ls, p.2 = false) (hne : ls ≠ []) :
    terminated ls = List.intercalate [10] (ls.map Prod.fst) ++ [10] := by
  induction ls with
  | nil => exact absurd rfl hne
  | cons p ls ih =>
    have hp : withCr p = p.1 := by simp [withCr, hlf p (by simp)]
    rw [terminated_cons, hp, List.map_cons]
    cases ls with
    | nil => rw [List.map_nil, List.intercalate_singleton]; rfl
    | cons q ls =>
      rw [ih (fun x hx => hlf x (List.mem_cons_of_mem _ hx)) (by simp), List.map_cons,
        List.intercalate_cons_cons]
      simp

variable {F : Rest} {h : Heap} {c : Addr → Option Chain} {d : UInt8}

/-- `str_join` with the newline, which also goes to the end. -/
theorem strJoin_newline (r : RepIn F h c) {src : Addr} {xs : Chain} (hs : c src = some xs)
    (hn : ∀ t ∈ texts xs, NulFree t) {dest : Str} {old : Bytes} (hdest : Holds dest old)
    (hmax : (List.intercalate [10] (texts xs) ++ [10]).length < stringMax) :
    ∃ t, (strJoin dest src 10).run h = .ok t h ∧ Holds t (List.intercalate [10] (texts xs) ++ [10]) := by
  rw [List.length_append, List.length_singleton] at hmax
  obtain ⟨e, htrunc, he, -⟩ := strTruncate_holds hdest
  obtain ⟨t, hloop, ht⟩ := loop_join (d := 10) [] r hs (by decide) hn he
    (by rw [List.length_nil, Nat.zero_add]; omega) (Nat.lt_succ_of_le (r.length_le hs))
  rw [List.nil_append] at ht
  have hmem : cString [10, 0] = some [10] := by decide
  obtain ⟨u, hput, hu, -⟩ := (strCat_holds ht hmem).1 (by rw [List.length_singleton]; exact hmax)
  have hput : (strPutc true 10).run t = .ok () u := hput
  have hloop' : (loop (joinStep src 10) (h.fresh + 1) (first xs none, 0, e)).run h = .ok t h := hloop
  refine ⟨u, ?_, hu⟩
  simp only [strJoin]
  rw [run_bind_ok (run_onLocal_ok htrunc h)]
  simp only [run_bind_loadList, r.list_eq hs, header, run_bind_get]
  rw [run_bind_ok hloop', if_pos trivial, run_bind_ok (run_onLocal_ok hput h)]
  rfl

/-- Splitting a text at the newline gives back its lines, whatever their terminators, and joining
them gives back the text when all terminators are LF. -/
theorem split_terminated_lines (r : RepIn F h c) {l : Addr} {xs : Chain} (hl : c l = some xs) (hne : ls ≠ [])
    (hls : ∀ p ∈ ls, NulFree p.1 ∧ 10 ∉ p.1 ∧ p.1.getLast? ≠ some 13) {src dest : Str} {old : Bytes}
    (hsrc : Holds src (terminated ls)) (hmax : (terminated ls).length < stringMax) (hdest : Holds dest old) :
    ∃ h' ys, (strSplit l src 10).run h = .ok () h' ∧ RepIn F h' (Function.update c l (some ys)) ∧
      texts ys = ls.map Prod.fst ∧
      ((∀ p ∈ ls, p.2 = false) →
        ∃ j, (strJoin dest l 10).run h' = .ok j h' ∧ Holds j (terminated ls)) := by
  have hnul : NulFree (terminated ls) := by
    intro h0
    obtain ⟨p, hp, h0⟩ := List.mem_flatMap.mp h0
    rcases List.mem_append.mp h0 with h0 | h0
    · exact (hls p hp).1 h0
    · revert h0
      split <;> decide
  have htext : terminated ls ≠ [] := by
    obtain ⟨p, ls', rfl⟩ := List.exists_cons_of_ne_nil hne
    simp
  obtain ⟨h', ys, hsplit, ⟨hys, -⟩, r'⟩ := strSplit_rep r hl hsrc hnul htext hmax
  rw [pieces_terminated hne fun p hp => (hls p hp).2] at hys
  refine ⟨h', ys, hsplit, r', hys, ?_⟩
  intro hlf
  have hjoin := terminated_lf hlf hne
  rw [← hys] at hjoin
  have hparts : ∀ t ∈ texts ys, NulFree t := by
    intro t ht
    rw [hys] at ht
    obtain ⟨p, hp, rfl⟩ := List.mem_map.mp ht
    exact (hls p hp).1
  rw [hjoin] at hmax ⊢
  exact strJoin_newline r' (Function.update_self _ _ _) hparts hdest hmax

/-- The lines `a` and an empty one, with a LF each, into a new list. -/
theorem split_terminated_lines_two :
    ∃ h₀ h ys, listNew.run Heap.empty = .ok Heap.empty.fresh h₀ ∧
      (strSplit Heap.empty.fresh (ofText [97, 10, 10]).1 10).run h₀ = .ok () h ∧
      texts ys = [[97], []] ∧
      ∃ j, (strJoin (ofText []).1 Heap.empty.fresh 10).run h = .ok j h ∧ Holds j [97, 10, 10] := by
  obtain ⟨h₀, hnew, -, r₀⟩ := listNew_rep rep_empty
  have hsrc : Holds (ofText [97, 10, 10]).1 (terminated [([97], false), ([], false)]) := holds_ofText _
  have hne : ([([97], false), ([], false)] : List (Bytes × Bool)) ≠ [] := by decide
  obtain ⟨h, ys, hsplit, -, hys, hjoin⟩ := split_terminated_lines r₀ (Function.update_self _ _ _)
    hne (by simp [NulFree]) hsrc (by decide) (ofText []).2
  exact ⟨h₀, h, ys, hnew, hsplit, hys, hjoin (by simp)⟩

/-! ## What is left of the old list -/

theorem cut_isInfix {s x : Bytes} (hx : x ∈ (cut d s).1 ++ [(cut d s).2]) : List.IsInfix x s := by
  have hs := (cut_spec d s).eq
  rcases List.mem_append.mp hx with hx | hx
  · obtain ⟨us, vs, hlines⟩ := List.append_of_mem hx
    refine ⟨(us.map (· ++ [d])).flatten, d :: (vs.map (· ++ [d])).flatten ++ (cut d s).2, ?_⟩
    conv => rhs; rw [hs, hlines]
    simp
  · rw [List.mem_singleton.mp hx]
    exact ⟨((cut d s).1.map (· ++ [d])).flatten, [], by rw [List.append_nil]; exact hs.symm⟩

theorem tokens_isInfix {t x : Bytes} (hx : x ∈ tokens d t) : List.IsInfix x t := by
  obtain ⟨y, hy, rfl⟩ := List.mem_map.mp hx
  have hfinish : List.IsPrefix (finish d y) y := by
    rw [finish]
    split
    · exact chomp_isPrefix y
    · exact List.prefix_rfl
  have htext : List.IsPrefix (cText (chomp t)) t :=
    (List.takeWhile_prefix _).trans (chomp_isPrefix t)
  exact hfinish.isInfix.trans ((cut_isInfix hy).trans htext.isInfix)

/-- An empty string leaves the list as it is. -/
theorem strSplit_empty {src : Str} (hs : Holds src []) (dest : Addr) (h : Heap) :
    (strSplit dest src d).run h = .ok () h := by
  have hlen : src.len = 0 := hs.len
  rw [strSplit, if_pos hlen]
  rfl

/-- What `str_split` leaves on the list depends on the string and the delimiter alone, and consists
of parts of the string, exactly when the string is not empty. -/
theorem split_fresh_iff {src : Str} {t : Bytes} (hs : Holds src t) (hmax : t.length < stringMax) (d : UInt8) :
    (∃ ts, (∀ x ∈ ts, List.IsInfix x t) ∧
      ∀ {F h c} {l : Addr} {xs : Chain}, RepIn F h c → c l = some xs →
        ∃ h' ys, (strSplit l src d).run h = .ok () h' ∧ texts ys = ts ∧
          RepIn F h' (Function.update c l (some ys))) ↔ t ≠ [] := by
  constructor
  · rintro ⟨ts, -, hall⟩ rfl
    -- A new list stays empty, and one with an element keeps it.
    obtain ⟨h₀, -, -, r₀⟩ := listNew_rep rep_empty
    obtain ⟨h₁, y, hpush, ⟨hy, -⟩, -, r₁⟩ := listPush_rep r₀ (Function.update_self _ _ _) (ofText [97]).2
    obtain ⟨h', ys, hrun, hys, r'⟩ := hall r₀ (Function.update_self _ _ _)
    obtain ⟨h'', zs, hrun', hzs, r''⟩ := hall r₁ (Function.update_self _ _ _)
    rw [strSplit_empty hs] at hrun hrun'
    cases hrun
    cases hrun'
    have hempty := r₀.list_eq (Function.update_self _ _ _)
    have hempty' := r'.list_eq (Function.update_self _ _ _)
    have hone := r₁.list_eq (Function.update_self _ _ _)
    have hone' := r''.list_eq (Function.update_self _ _ _)
    have hcount : ys.length = 0 := by
      rw [hempty] at hempty'
      simpa [header] using (congrArg ListT.count (Option.some.inj hempty')).symm
    have hcount' : zs.length = 1 := by
      rw [hone] at hone'
      simpa [header] using (congrArg ListT.count (Option.some.inj hone')).symm
    have hlen := congrArg List.length (hys.trans hzs.symm)
    rw [length_texts, length_texts, hcount, hcount'] at hlen
    cases hlen
  · intro hne
    refine ⟨tokens d t, fun x hx => tokens_isInfix hx, ?_⟩
    intro F h c l xs r hl
    obtain ⟨h', ys, hrun, ⟨hys, -⟩, r'⟩ := strSplit_tokens r hl hs hne hmax
    exact ⟨h', ys, hrun, hys, r'⟩

/-- Splitting `a:b` always leaves the same list, and splitting the empty string does not. -/
theorem split_fresh_iff_colon :
    (∃ ts, (∀ x ∈ ts, List.IsInfix x [97, 58, 98]) ∧
      ∀ {F h c} {l : Addr} {xs : Chain}, RepIn F h c → c l = some xs →
        ∃ h' ys, (strSplit l (ofText [97, 58, 98]).1 58).run h = .ok () h' ∧ texts ys = ts ∧
          RepIn F h' (Function.update c l (some ys))) ∧
    ¬ ∃ ts, (∀ x ∈ ts, List.IsInfix x []) ∧
      ∀ {F h c} {l : Addr} {xs : Chain}, RepIn F h c → c l = some xs →
        ∃ h' ys, (strSplit l (ofText []).1 58).run h = .ok () h' ∧ texts ys = ts ∧
          RepIn F h' (Function.update c l (some ys)) := by
  refine ⟨(split_fresh_iff (ofText [97, 58, 98]).2 (by decide) 58).mpr (by decide), fun hfresh => ?_⟩
  exact (split_fresh_iff (ofText []).2 (by decide) 58).mp hfresh rfl

/-- A list with the element `a` keeps it when the empty string is split, and an empty list stays
empty. -/
theorem split_empty_keeps_list :
    ((do
      let l ← listNew
      listPush l (ofText [97]).1
      strSplit l (ofText []).1 58
      let x ← loadList l
      let a ← deref x.head
      let e ← loadEntry a
      pure (x.count, e.value.text)).run Heap.empty).value = some (1, [97]) ∧
    ((do
      let l ← listNew
      strSplit l (ofText []).1 58
      let x ← loadList l
      pure x.count).run Heap.empty).value = some 0 := by
  decide

end NcSplit
