import NaturalC.NcJoin
import NaturalC.NcStringSound

/-!
# Replacing a character

The loop of `str_translate` moves its cursor on between the test for the end of the string
and the comparison. What it compares are the characters from the second one up to the first
NUL. With an occurrence of the old character anywhere else the text is not what it should be.
-/
namespace NcString

open Throwing Throwing.Act

/-- What becomes of one character. -/
def replaceChar (old new c : UInt8) : UInt8 := if c = old then new else c

/-- What the loop makes of the bytes behind its cursor. -/
def translateBehind (old new : UInt8) : Bytes → Bytes
  | [] => []
  | c :: w => if c = 0 then c :: w else replaceChar old new c :: translateBehind old new w

/-- What `str_translate` makes of a text. -/
def translated (old new : UInt8) : Bytes → Bytes
  | [] => []
  | c :: w => if c = 0 then c :: w else c :: translateBehind old new w

variable {old new c : UInt8} {w text : Bytes} {s : Str}

theorem length_translateBehind (old new : UInt8) (w : Bytes) :
    (translateBehind old new w).length = w.length := by
  induction w with
  | nil => rfl
  | cons c w ih =>
    rw [translateBehind]
    split
    · rfl
    · rw [List.length_cons, List.length_cons, ih]

/-- Nothing behind a NUL is changed. -/
theorem translateBehind_append (old new : UInt8) (w rest : Bytes) :
    translateBehind old new (w ++ 0 :: rest) = translateBehind old new w ++ 0 :: rest := by
  induction w with
  | nil => rfl
  | cons c w ih =>
    rw [List.cons_append, translateBehind, translateBehind]
    split
    · rfl
    · rw [ih, List.cons_append]

theorem translated_append (old new : UInt8) (text rest : Bytes) :
    translated old new (text ++ 0 :: rest) = translated old new text ++ 0 :: rest := by
  cases text with
  | nil => rfl
  | cons c w =>
    rw [List.cons_append, translated, translated]
    split
    · rfl
    · rw [translateBehind_append, List.cons_append]

theorem length_translated (old new : UInt8) (text : Bytes) :
    (translated old new text).length = text.length := by
  cases text with
  | nil => rfl
  | cons c w =>
    rw [translated]
    split
    · rfl
    · rw [List.length_cons, List.length_cons, length_translateBehind]

/-- A round compares the byte behind the cursor. -/
theorem translateStep_next {pre : Bytes} {d : UInt8} (hc : c ≠ 0)
    (hv : s.value = some (pre ++ c :: d :: w)) :
    (translateStep old new pre.length).run s =
      .ok (.inl (pre.length + 1)) { s with value := some (pre ++ c :: replaceChar old new d :: w) } := by
  have hhere : (peek pre.length).run s = .ok c s := peek_at s pre (d :: w) hv rfl
  have hnext : (peek (pre.length + 1)).run s = .ok d s := by
    refine peek_at s (pre ++ [c]) w ?_ (by simp)
    rw [hv, List.append_assoc]
    rfl
  rw [translateStep, run_bind_ok hhere, if_neg hc, run_bind_ok hnext, replaceChar]
  by_cases hd : d = old
  · have hwrite : (memcpy (pre.length + 1) [new]).run s =
        .ok () { s with value := some (pre ++ c :: new :: w) } := by
      have hcopy : (memcpy (pre.length + 1) [new]).run s =
          .ok () { s with value := some (pre ++ [c] ++ [new] ++ w) } :=
        memcpy_inside s (pre ++ [c]) [d] w (by rw [hv]; simp) (by simp) rfl
      simpa using hcopy
    rw [if_pos hd, if_pos hd, run_bind_ok hwrite]
    rfl
  · rw [if_neg hd, if_neg hd, ← hv]
    rfl

/-- From a cursor on, the loop changes the bytes behind it up to the next NUL. -/
theorem loop_translate_behind (hold : old ≠ 0) (hnew : new ≠ 0) (w : Bytes) :
    ∀ {s : Str} {c : UInt8} (pre : Bytes), s.value = some (pre ++ c :: w) → (c ≠ 0 → 0 ∈ w) →
      ∀ fuel, w.length < fuel →
      (loop (translateStep old new) fuel pre.length).run s =
        .ok () { s with value := some (pre ++ if c = 0 then c :: w else c :: translateBehind old new w) } := by
  induction w with
  | nil =>
    intro s c pre hv hnul fuel hf
    obtain ⟨fuel, rfl⟩ : ∃ k, fuel = k + 1 := ⟨fuel - 1, by omega⟩
    have hc : c = 0 := by
      by_contra hc
      exact absurd (hnul hc) (by simp)
    have hstop : (translateStep old new pre.length).run s = .ok (.inr ()) s := by
      rw [translateStep, run_bind_ok (peek_at s pre [] hv rfl), if_pos hc]
      rfl
    rw [run_loop_inr hstop, if_pos hc, ← hv]
  | cons d w ih =>
    intro s c pre hv hnul fuel hf
    obtain ⟨fuel, rfl⟩ : ∃ k, fuel = k + 1 := ⟨fuel - 1, by omega⟩
    rw [List.length_cons] at hf
    by_cases hc : c = 0
    · have hstop : (translateStep old new pre.length).run s = .ok (.inr ()) s := by
        rw [translateStep, run_bind_ok (peek_at s pre _ hv rfl), if_pos hc]
        rfl
      rw [run_loop_inr hstop, if_pos hc, ← hv]
    · have hzero : replaceChar old new d = 0 ↔ d = 0 := by
        rw [replaceChar]
        by_cases hd : d = old
        · rw [if_pos hd, hd]
          exact iff_of_false hnew hold
        · rw [if_neg hd]
      have hnul' : replaceChar old new d ≠ 0 → 0 ∈ w := by
        intro hd
        rcases List.mem_cons.mp (hnul hc) with h0 | hw
        · exact absurd (hzero.mpr h0.symm) hd
        · exact hw
      have hrest := ih (s := { s with value := some (pre ++ c :: replaceChar old new d :: w) })
        (c := replaceChar old new d) (pre ++ [c]) (by simp) hnul' fuel (by omega)
      rw [List.length_append, List.length_singleton] at hrest
      rw [run_loop_inl (translateStep_next hc hv), hrest, if_neg hc, translateBehind]
      by_cases hd : d = 0
      · subst hd
        simp [hzero]
      · rw [if_neg hd, if_neg (mt hzero.mp hd)]
        simp

theorem strTranslate_holds {old new : Int} (hold : toChar old ≠ 0) (hnew : toChar new ≠ 0) (h : Holds s text) :
    ∃ t, (strTranslate old new).run s = .ok () t ∧ Holds t (translated (toChar old) (toChar new) text) ∧
      t.size = s.size := by
  obtain ⟨rest, hv, hz⟩ := h.value
  obtain ⟨c, w, hcw⟩ : ∃ c w, text ++ 0 :: rest = c :: w := by
    cases text with
    | nil => exact ⟨0, rest, rfl⟩
    | cons c text => exact ⟨c, text ++ 0 :: rest, rfl⟩
  have hlen : w.length < s.size + 1 := by
    have hcount := congrArg List.length hcw
    simp only [List.length_append, List.length_cons] at hcount
    omega
  have hnul : c ≠ 0 → 0 ∈ w := by
    intro hc
    have hmem : (0 : UInt8) ∈ c :: w := by
      rw [← hcw]
      simp
    rcases List.mem_cons.mp hmem with h0 | hw
    · exact absurd h0.symm hc
    · exact hw
  have hloop := loop_translate_behind hold hnew w (s := s) [] (by rw [hv, hcw]; rfl) hnul (s.size + 1) hlen
  have hbuf : (if c = 0 then c :: w else c :: translateBehind (toChar old) (toChar new) w) =
      translated (toChar old) (toChar new) text ++ 0 :: rest := by
    rw [← translated_append, hcw]
    rfl
  rw [List.length_nil, List.nil_append, hbuf] at hloop
  rw [strTranslate, run_bind_get]
  refine ⟨_, hloop, ⟨?_, rest, rfl, ?_⟩, rfl⟩
  · rw [length_translated]
    exact h.len
  · rw [length_translated]
    exact hz

/-! ## When this is what it should be -/

theorem map_replaceChar_eq_self_iff (hne : old ≠ new) : text = text.map (replaceChar old new) ↔ old ∉ text := by
  induction text with
  | nil => simp
  | cons c text ih =>
    rw [List.map_cons, List.cons.injEq, ih, replaceChar, List.mem_cons, not_or]
    by_cases hc : c = old
    · rw [if_pos hc, hc]
      simp [hne]
    · rw [if_neg hc]
      simp [Ne.symm hc]

theorem cText_cons_of_ne (hc : c ≠ 0) (w : Bytes) : cText (c :: w) = c :: cText w := by
  rw [cText, List.takeWhile_cons_of_pos (by simpa using hc)]
  rfl

/-- The characters behind the first NUL are left out. -/
theorem translateBehind_eq_map_iff (hne : old ≠ new) (w : Bytes) :
    translateBehind old new w = w.map (replaceChar old new) ↔ old ∉ w.drop (cText w).length := by
  induction w with
  | nil => simp [translateBehind]
  | cons c w ih =>
    by_cases hc : c = 0
    · subst hc
      rw [translateBehind, if_pos rfl, map_replaceChar_eq_self_iff hne]
      rfl
    · rw [translateBehind, if_neg hc, List.map_cons, List.cons_inj_right, ih, cText_cons_of_ne hc,
        List.length_cons, List.drop_succ_cons]

/-- And so is the first character. -/
theorem translated_eq_map_iff (hold : old ≠ 0) (text : Bytes) :
    translated old new text = text.map (replaceChar old new) ↔
      old = new ∨ text.head? ≠ some old ∧ old ∉ text.drop (cText text).length := by
  by_cases hne : old = new
  · have hsame : replaceChar old new = id := by
      funext c
      rw [replaceChar]
      split
      · rename_i hc
        rw [hc, hne]
        rfl
      · rfl
    have hbehind : ∀ w, translateBehind old new w = w := by
      intro w
      induction w with
      | nil => rfl
      | cons c w ih =>
        rw [translateBehind, ih, hsame]
        exact ite_self _
    have htext : translated old new text = text := by
      cases text with
      | nil => rfl
      | cons c w =>
        rw [translated, hbehind]
        exact ite_self _
    rw [htext, hsame, List.map_id]
    exact iff_of_true rfl (Or.inl hne)
  · rw [or_iff_right hne]
    cases text with
    | nil => simp [translated]
    | cons c w =>
      by_cases hc : c = 0
      · subst hc
        rw [translated, if_pos rfl, map_replaceChar_eq_self_iff hne]
        have hhead : (0 :: w).head? ≠ some old := by simpa using Ne.symm hold
        exact (and_iff_right hhead).symm
      · rw [translated, if_neg hc, List.map_cons, List.cons.injEq, translateBehind_eq_map_iff hne,
          cText_cons_of_ne hc, List.length_cons, List.drop_succ_cons, List.head?_cons]
        have hhead : c = replaceChar old new c ↔ some c ≠ some old := by
          rw [replaceChar]
          by_cases hco : c = old
          · rw [if_pos hco, hco]
            exact iff_of_false hne (by simp)
          · rw [if_neg hco]
            exact iff_of_true rfl (by simpa using hco)
        rw [hhead]

/-- `str_translate` replaces every occurrence of a character and leaves none behind exactly when there is
nothing to replace in the first place and behind the first NUL, or the characters are the same. -/
theorem strTranslate_translates_iff {old new : Int} (hold : toChar old ≠ 0) (hnew : toChar new ≠ 0)
    (h : Holds s text) :
    (∃ t, (strTranslate old new).run s = .ok () t ∧
        Holds t (text.map (replaceChar (toChar old) (toChar new))) ∧ t.len = s.len ∧ t.size = s.size ∧
        (toChar old ≠ toChar new → (NcSplit.strCount t (toChar old) : Act Unit Nat).run () = .ok 0 ())) ↔
      toChar old = toChar new ∨
        text.head? ≠ some (toChar old) ∧ toChar old ∉ text.drop (cText text).length := by
  obtain ⟨t, hrun, ht, hz⟩ := strTranslate_holds hold hnew h
  rw [← translated_eq_map_iff hold]
  constructor
  · rintro ⟨u, hu, hheld, -⟩
    rw [hrun] at hu
    cases hu
    exact ht.unique hheld
  · intro he
    rw [he] at ht
    refine ⟨t, hrun, ht, by rw [ht.len, List.length_map, h.len], hz, ?_⟩
    intro hne
    rw [NcSplit.strCount_cText ht]
    have hgone : toChar old ∉ text.map (replaceChar (toChar old) (toChar new)) := by
      intro hmem
      obtain ⟨c, -, hc⟩ := List.mem_map.mp hmem
      rw [replaceChar] at hc
      split at hc
      · exact hne hc.symm
      · rename_i hco
        exact hco hc
    have hsub := List.takeWhile_sublist (l := text.map (replaceChar (toChar old) (toChar new))) (· != 0)
    rw [cText, List.count_eq_zero_of_not_mem fun hm => hgone (hsub.subset hm)]

/-- In `a.b` the point becomes a slash, and in `.b` it stays. -/
theorem strTranslate_translates_iff_path :
    (∃ t, (strTranslate 46 47).run (ofText [97, 46, 98]).1 = .ok () t ∧ Holds t [97, 47, 98] ∧
        (NcSplit.strCount t 46 : Act Unit Nat).run () = .ok 0 ()) ∧
      ¬ ∃ t, (strTranslate 46 47).run (ofText [46, 98]).1 = .ok () t ∧ Holds t [47, 98] ∧ t.len = 2 ∧
        t.size = (ofText [46, 98]).1.size ∧ (NcSplit.strCount t 46 : Act Unit Nat).run () = .ok 0 () := by
  have hold : toChar 46 ≠ 0 := by decide
  have hnew : toChar 47 ≠ 0 := by decide
  constructor
  · obtain ⟨t, hrun, ht, -, -, hcount⟩ :=
      (strTranslate_translates_iff hold hnew (ofText [97, 46, 98]).2).mpr (by decide)
    exact ⟨t, hrun, ht, hcount (by decide)⟩
  · rintro ⟨t, hrun, ht, hlen, hsize, hcount⟩
    have hcond := (strTranslate_translates_iff hold hnew (ofText [46, 98]).2).mp
      ⟨t, hrun, ht, hlen, hsize, fun _ => hcount⟩
    exact absurd hcond (by decide)

/-- The point at the start of `.a` stays. -/
theorem strTranslate_skips_first : ∃ t, (strTranslate 46 47).run (ofText [46, 97]).1 = .ok () t ∧
    t.text = [46, 97] ∧ [46, 97].map (replaceChar (toChar 46) (toChar 47)) = [47, 97] ∧
    (NcSplit.strCount t (toChar 46) : Act Unit Nat).run () = .ok 1 () := by
  refine ⟨_, rfl, ?_, ?_, ?_⟩
  · decide
  · decide
  · decide

end NcString
