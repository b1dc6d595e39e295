import NaturalC.NcRegex
import NaturalC.NcStringSound

/-!
# Calls that fail

A call on a string fails when the result would be larger than `STRING_MAX` or when there is
no memory. `str_cat` tests everything before it writes, so a call of it that fails has done
nothing. The functions that replace the text have thrown the old one away by then, each at
another point; for these, the conditions under which a failure does no harm.
-/
namespace NcString

open Throwing Throwing.Act

/-! ## Appending -/

/-- The call appends the text, or it fails because the result is too large and changes nothing. -/
structure Appends (m : Act Str Unit) (dest : Str) (text : Bytes) : Prop where
  succeeds : (∃ t, m.run dest = .ok () t) ↔ text = [] ∨ dest.len + text.length + 1 ≤ stringMax
  sound : ∀ t, m.run dest = .ok () t → Sound t ∧ t.text = dest.text ++ text
  /-- The bytes of the old text are still there. -/
  kept : ∀ t, m.run dest = .ok () t → (t.value.getD []).take dest.len = dest.text
  fails : (¬ ∃ t, m.run dest = .ok () t) → m.run dest = .thrown dest
  /-- The size that is asked for is computed for a text that is not too long itself. -/
  exact : text.length < stringMax → (dest.len + text.length + 1) % 2 ^ 64 = dest.len + text.length + 1

variable {dest src : Str} {room : Bool} {n : Nat} {text mem : Bytes}

theorem strCat_appends (hd : Sound dest) (hmem : cString mem = some text) :
    Appends (strCat true mem) dest text := by
  have hM : stringMax = 536870912 := rfl
  have hlen : dest.len = dest.text.length := hd.wf.len
  have hlt := hd.len
  have hsize := hd.size
  obtain ⟨hok, hbig⟩ := strCat_holds hd.wf hmem
  have hmod : text.length < stringMax →
      (dest.len + text.length + 1) % 2 ^ 64 = dest.len + text.length + 1 := by
    intro hshort
    apply Nat.mod_eq_of_lt
    omega
  by_cases hfit : dest.text.length + text.length < stringMax
  · obtain ⟨t, hrun, ht, hz⟩ := hok hfit
    have hheld : ∀ u, (strCat true mem).run dest = .ok () u → Holds u (dest.text ++ text) ∧ u.size ≤ stringMax := by
      intro u hu
      rw [hrun] at hu
      cases hu
      exact ⟨ht, hz hsize⟩
    refine ⟨iff_of_true ⟨t, hrun⟩ (Or.inr (by omega)), ?_, ?_, fun hno => absurd ⟨t, hrun⟩ hno, hmod⟩
    · intro u hu
      obtain ⟨hh, hz⟩ := hheld u hu
      exact ⟨hh.sound hz, hh.text⟩
    · intro u hu
      obtain ⟨rest, hv, -⟩ := (hheld u hu).1.value
      rw [hv, Option.getD_some, List.append_assoc, List.take_left' hlen.symm]
  · have hthrown := hbig hsize (Nat.le_of_not_lt hfit)
    have hno : ∀ t, (strCat true mem).run dest ≠ .ok () t := by
      intro t ht
      rw [hthrown] at ht
      cases ht
    refine ⟨iff_of_false (fun ⟨t, ht⟩ => hno t ht) ?_, fun t ht => absurd ht (hno t),
      fun t ht => absurd ht (hno t), fun _ => hthrown, hmod⟩
    rintro (rfl | hle)
    · rw [List.length_nil] at hfit
      omega
    · omega

/-- `str_cat`, and `str_append` and `str_putc` through it. -/
theorem appending_succeeds_iff (hd : Sound dest) :
    (∀ mem text, cString mem = some text → Appends (strCat true mem) dest text) ∧
    (∀ src mem text, Str.value src = some mem → cString mem = some text →
      Appends (strAppend true src) dest text) ∧
    ∀ c, Appends (strPutc true c) dest (cText [c]) := by
  refine ⟨fun mem text hmem => strCat_appends hd hmem, ?_, ?_⟩
  · intro src mem text hv hmem
    have hcat : strAppend true src = strCat true mem := by
      rw [strAppend, hv]
      rfl
    rw [hcat]
    exact strCat_appends hd hmem
  · intro c
    exact strCat_appends hd (cString_cText [c] [])

/-- An `a` is appended to an empty string. -/
theorem appending_succeeds_iff_letter :
    Sound (ofText []).1 ∧ Appends (strCat true (charArray [97])) (ofText []).1 [97] ∧
      Appends (strAppend true (ofText [97]).1) (ofText []).1 [97] ∧ Appends (strPutc true 97) (ofText []).1 [97] := by
  have hd : Sound (ofText []).1 := (ofText []).2.sound (by decide)
  obtain ⟨hcat, happend, hputc⟩ := appending_succeeds_iff hd
  exact ⟨hd, hcat _ _ (by decide), happend _ _ _ rfl (by decide), hputc 97⟩

/-! ## Replacing the text -/

/-- `str_vprintf`, given what `vasprintf(3)` makes of its arguments, if it succeeds. -/
def strVprintf (formatted : Option Bytes) : Act Str Unit := do
  let dest ← get
  if dest.size > 0 then put { dest with value := none, size := 0, len := 0 } else pure ()
  match formatted with
  | none => throwing
  | some bytes => do
    let dest ← get
    put { dest with value := some (charArray bytes) }
    let text ← deref (cString (charArray bytes))
    let dest ← get
    put { dest with len := text.length }
    if text.length > stringMax then do
      let dest ← get
      put { dest with value := none, size := 0, len := 0 }
      throwing
    else do
      let dest ← get
      put { dest with size := text.length + 1 }

/-- Which allocations of `str_prepend` succeed: those of the local string, of the two copies and of
the buffer for the result. -/
structure Rooms where
  calloc : Bool
  malloc : Bool
  saved : Bool
  copied : Bool
  grown : Bool

/-- `str_prepend` with each of its allocations on its own. -/
def strPrependWith (r : Rooms) (src : Str) : Act Str Unit := do
  let buf ← strNew r.calloc r.malloc
  let dest ← get
  let (_, buf) ← onLocal (strCopy r.saved dest) buf
  strCopy r.copied src
  strAppend r.grown buf

theorem strPrepend_eq (room : Bool) (src : Str) : strPrepend room src = strPrependWith ⟨true, true, room, room, room⟩ src :=
  rfl

theorem strSprintf_eq (hn : NulFree text) (s : Str) :
    (strSprintf text).run s = (strVprintf (some text)).run s := by
  have hmem := cString_charArray text hn
  simp only [strSprintf, strVprintf, run_bind_get]
  by_cases hz : s.size > 0
  · rw [if_pos hz, run_bind_put]
    simp only [run_bind_get, run_bind_put, hmem, deref_some, run_bind_ret]
    split <;> rfl
  · rw [if_neg hz]
    simp only [run_bind_get, run_bind_put, hmem, deref_some, run_bind_ret]
    split <;> rfl

/-- A call that fails leaves the text as it was, and one that succeeds a string of an admissible size. -/
def Atomic {α : Type} (text : Bytes) : Outcome Str α → Prop
  | .ok _ t => t.size ≤ stringMax
  | .thrown t => Holds t text
  | .halt _ => False

/-- A string object whose buffer is gone holds no text. -/
theorem not_holds_of_none (hv : dest.value = none) : ¬ Holds dest text := by
  intro hheld
  obtain ⟨rest, hv', -⟩ := hheld.value
  rw [hv] at hv'
  cases hv'

/-- The buffer has room for so many characters, or there is memory for a larger one. -/
def HasRoom (s : Str) (room : Bool) (n : Nat) : Prop := n < s.size ∨ room = true

theorem refused_of_not (h : ¬ (n < stringMax ∧ HasRoom dest room n)) : stringMax ≤ n ∨ ¬ HasRoom dest room n := by
  rw [not_and_or, Nat.not_lt] at h
  exact h

theorem strResize_room (h : HasRoom dest room n) : (strResize room (n + 1)).run dest = (strResize true (n + 1)).run dest := by
  rcases h with hlt | rfl
  · have hno : ¬ dest.size < n + 1 := by omega
    rw [strResize, strResize, if_neg (Nat.succ_ne_zero n), if_neg (Nat.succ_ne_zero n)]
    by_cases hbig : n + 1 > stringMax
    · rw [if_pos hbig, if_pos hbig]
    · rw [if_neg hbig, if_neg hbig, run_bind_get, run_bind_get, if_neg hno, if_neg hno]
  · rfl

theorem strResize_refused (h : stringMax ≤ n ∨ ¬ HasRoom dest room n) : (strResize room (n + 1)).run dest = .thrown dest := by
  rw [strResize, if_neg (Nat.succ_ne_zero n)]
  by_cases hbig : n + 1 > stringMax
  · rw [if_pos hbig]
    rfl
  · have hroom := h.resolve_left (by omega)
    rw [HasRoom, not_or] at hroom
    rw [if_neg hbig, run_bind_get, if_pos (by omega), Bool.not_eq_true _ |>.mp hroom.2]
    rfl

/-- Nothing is left of the old text when the new one does not fit. -/
theorem truncate_refused {α : Type} (h : Sound dest) (hno : stringMax ≤ n ∨ ¬ HasRoom dest room n) (k : Unit → Act Str α) :
    ∃ t, (do strTruncate; let u ← strResize room (n + 1); k u).run dest = .thrown t ∧ Holds t [] := by
  obtain ⟨t, htrunc, ht, hz⟩ := strTruncate_holds h.wf
  refine ⟨t, ?_, ht⟩
  rw [run_bind_ok htrunc]
  apply run_bind_thrown
  apply strResize_refused
  rw [HasRoom, hz]
  exact hno

theorem truncate_room {α : Type} (h : Sound dest) (hroom : HasRoom dest room n) (k : Unit → Act Str α) :
    (do strTruncate; let u ← strResize room (n + 1); k u).run dest =
      (do strTruncate; let u ← strResize true (n + 1); k u).run dest := by
  obtain ⟨t, htrunc, -, hz⟩ := strTruncate_holds h.wf
  have hroom' : HasRoom t room n := by
    rw [HasRoom, hz]
    exact hroom
  rw [run_bind_ok htrunc, run_bind_ok htrunc, run_bind, run_bind, strResize_room hroom']

/-- Any text is the empty one, or something is lost. -/
theorem atomic_truncated {α : Type} {o : Outcome Str α} (h : ∃ t, o = .thrown t ∧ Holds t []) :
    Atomic text o ↔ text = [] := by
  obtain ⟨t, rfl, ht⟩ := h
  constructor
  · intro hheld
    exact Holds.unique hheld ht
  · rintro rfl
    exact ht

theorem strNcpy_atomic_iff (h : Sound dest) {len : Nat} (hlen : len ≤ mem.length) :
    Atomic dest.text ((strNcpy room mem len).run dest) ↔
      dest.text = [] ∨ len = 0 ∨ stringMax < len ∨ len < stringMax ∧ HasRoom dest room len := by
  by_cases hbig : len > stringMax
  · rw [strNcpy, if_pos hbig]
    exact iff_of_true h.wf (by omega)
  by_cases hzero : len = 0
  · obtain ⟨t, htrunc, -, hz⟩ := strTruncate_holds h.wf
    rw [strNcpy, if_neg hbig, if_pos hzero, htrunc]
    exact iff_of_true (by rw [Atomic, hz]; exact h.size) (Or.inr (Or.inl hzero))
  by_cases hroom : len < stringMax ∧ HasRoom dest room len
  · have htext : mem = mem.take len ++ mem.drop len := (List.take_append_drop len mem).symm
    have hsize : (mem.take len).length = len := List.length_take_of_le hlen
    obtain ⟨t, hrun, ht, hz⟩ := strNcpy_holds h.wf htext (by rw [hsize]; exact hroom.1)
    have htrue : (strNcpy room mem len).run dest = (strNcpy true mem len).run dest := by
      rw [strNcpy, strNcpy, if_neg hbig, if_neg hzero, if_neg hbig, if_neg hzero]
      exact truncate_room h hroom.2 _
    rw [hsize] at hrun
    rw [htrue, hrun]
    refine iff_of_true ?_ (by tauto)
    rw [Atomic, hz]
    refine Nat.max_le.mpr ⟨h.size, ?_⟩
    split
    · exact Nat.zero_le _
    · rw [hsize]
      exact hroom.1
  · have hno := refused_of_not hroom
    rw [strNcpy, if_neg hbig, if_neg hzero, atomic_truncated (truncate_refused h hno _)]
    constructor
    · exact Or.inl
    · rintro (he | he | he | he)
      · exact he
      · exact absurd he hzero
      · exact absurd he hbig
      · exact absurd he hroom

/-- A copy that needs no memory, or gets it. -/
theorem strCopy_room (h : Sound dest) (hsrc : Sound src) (hroom : src.text = [] ∨ room = true) :
    ∃ t, (strCopy room src).run dest = .ok () t ∧ Holds t src.text ∧
      t.size = if src.text = [] then dest.size else src.size := by
  obtain ⟨t, hrun, ht, hz⟩ := strCopy_holds h.wf hsrc.wf
  refine ⟨t, ?_, ht, hz⟩
  rcases hroom with he | rfl
  · have hempty : src.len = 0 := by rw [hsrc.wf.len, he]; rfl
    rw [strCopy, if_pos (Or.inl hempty)] at hrun ⊢
    exact hrun
  · exact hrun

/-- A copy that gets none. -/
theorem strCopy_no_room (hsrc : Sound src) (hne : src.text ≠ []) :
    (strCopy false src).run dest = .thrown { dest with size := 0, value := none } := by
  have hsize := hsrc.len
  have hlen : src.len ≠ 0 := by
    rw [hsrc.wf.len]
    exact fun h0 => hne (List.length_eq_zero_iff.mp h0)
  rw [strCopy, if_neg (not_or.mpr ⟨hlen, by omega⟩), run_bind_get, run_bind_put]
  rfl

theorem strCopy_atomic_iff (h : Sound dest) (hsrc : Sound src) :
    Atomic dest.text ((strCopy room src).run dest) ↔ src.text = [] ∨ room = true := by
  by_cases hroom : src.text = [] ∨ room = true
  · obtain ⟨t, hrun, -, hz⟩ := strCopy_room h hsrc hroom
    rw [hrun]
    refine iff_of_true ?_ hroom
    rw [Atomic, hz]
    split
    · exact h.size
    · exact hsrc.size
  · refine iff_of_false ?_ hroom
    rw [not_or, Bool.not_eq_true] at hroom
    rw [hroom.2, strCopy_no_room hsrc hroom.1]
    exact not_holds_of_none rfl

theorem strVprintf_atomic_iff (h : Sound dest) (formatted : Option Bytes) :
    Atomic dest.text ((strVprintf formatted).run dest) ↔
      ∃ bytes, formatted = some bytes ∧ (cText bytes).length < stringMax := by
  have hlt := h.len
  unfold strVprintf
  rw [run_bind_get, if_pos (by omega), run_bind_put]
  cases formatted with
  | none =>
    apply iff_of_false (not_holds_of_none rfl)
    rintro ⟨bytes, he, -⟩
    cases he
  | some bytes =>
    have hmem : cString (charArray bytes) = some (cText bytes) := cString_cText bytes []
    simp only [run_bind_get, run_bind_put, hmem, deref_some, run_bind_ret, Option.some.injEq, exists_eq_left']
    by_cases hbig : (cText bytes).length > stringMax
    · rw [if_pos hbig]
      exact iff_of_false (not_holds_of_none rfl) (by omega)
    · rw [if_neg hbig]
      rfl

/-- `str_read` with a buffer of the size asked for. -/
theorem strRead_returns (h : Sound dest) {size : Nat} {result : ReadResult} (hsize : size < stringMax)
    (hresult : result ≠ .failed) (hread : ∀ bytes, result = .data bytes → bytes.length ≤ size) :
    ∃ k t, (strRead true size result).run dest = .ok k t ∧ t.size ≤ stringMax := by
  obtain ⟨t, htrunc, ht, htz⟩ := strTruncate_holds h.wf
  obtain ⟨u, hresize, hu, huz, -⟩ := strResize_holds ht (Nat.succ_pos size) hsize
  have hmax : u.size ≤ stringMax := by
    rw [huz, htz]
    exact Nat.max_le.mpr ⟨h.size, hsize⟩
  simp only [strRead, if_neg (Nat.not_lt.mpr (Nat.le_of_lt hsize))]
  rw [run_bind_ok htrunc, run_bind_ok hresize]
  cases result with
  | failed => exact absurd rfl hresult
  | eagain => exact ⟨1, u, rfl, hmax⟩
  | data bytes =>
    have hfit := hread bytes rfl
    have hroom : size + 1 ≤ u.size := by
      rw [huz]
      exact Nat.le_max_right _ _
    obtain ⟨buf, hv, hbuf, -⟩ := (hu.sound hmax).value
    obtain ⟨w, hset, hw⟩ := strSetLen_runs (s := { u with value := some (bytes ++ buf.drop bytes.length) })
      (n := bytes.length) rfl (by rw [List.length_append, List.length_drop, ← hbuf]; omega) hmax
      (show bytes.length < u.size by omega)
    refine ⟨0, w, ?_, hw.size⟩
    dsimp only
    rw [run_bind_ok (memcpy_front bytes hv (by omega)), run_bind_ok hset]
    rfl

/-- Failures of `read(2)` itself are another matter. -/
theorem strRead_atomic_iff (h : Sound dest) {size : Nat} {result : ReadResult} (hresult : result ≠ .failed)
    (hread : ∀ bytes, result = .data bytes → bytes.length ≤ size) :
    Atomic dest.text ((strRead room size result).run dest) ↔
      dest.text = [] ∨ stringMax < size ∨ size < stringMax ∧ HasRoom dest room size := by
  unfold strRead
  by_cases hbig : size > stringMax
  · rw [if_pos hbig]
    exact iff_of_true h.wf (by omega)
  by_cases hroom : size < stringMax ∧ HasRoom dest room size
  · obtain ⟨k, t, hrun, hz⟩ := strRead_returns h hroom.1 hresult hread
    unfold strRead at hrun
    rw [if_neg hbig] at hrun ⊢
    rw [truncate_room h hroom.2, hrun]
    exact iff_of_true hz (by tauto)
  · have hno := refused_of_not hroom
    rw [if_neg hbig, atomic_truncated (truncate_refused h hno _)]
    constructor
    · exact Or.inl
    · rintro (he | he | he)
      · exact he
      · exact absurd he hbig
      · exact absurd he hroom

/-- `str_cat` needs memory only for a text that does not fit into the buffer. -/
theorem strCat_room (h : Sound dest) (hmem : cString mem = some text) :
    (strCat room mem).run dest =
      if dest.len + text.length < dest.size ∨ dest.len + text.length < stringMax ∧ room = true then
        (strCat true mem).run dest else .thrown dest := by
  have hM : stringMax = 536870912 := rfl
  have hlen : dest.len = dest.text.length := h.wf.len
  have hlt := h.len
  have hsize := h.size
  split
  · rename_i hroom
    cases room with
    | true => rfl
    | false =>
      have hfit : dest.len + text.length < dest.size := hroom.resolve_right (by simp)
      have hnew : (dest.len + text.length + 1) % 2 ^ 64 = dest.len + text.length + 1 := by
        apply Nat.mod_eq_of_lt
        omega
      simp only [strCat, hmem, deref_some, run_bind_ret]
      split
      · rfl
      · rw [if_neg (by omega), if_neg (by omega), run_bind_get, run_bind_get, hnew, if_neg (by omega), if_neg (by omega),
          if_neg (by omega), if_neg (by omega)]
  · rename_i hroom
    rw [not_or] at hroom
    have hno : stringMax ≤ dest.len + text.length ∨ ¬ HasRoom dest room (dest.len + text.length) := by
      apply refused_of_not
      rintro ⟨hbig, hfit | ht⟩
      · exact hroom.1 hfit
      · exact hroom.2 ⟨hbig, ht⟩
    simp only [strCat, hmem, deref_some, run_bind_ret]
    rw [if_neg (by omega)]
    split
    · rfl
    · rename_i hshort
      have hnew : (dest.len + text.length + 1) % 2 ^ 64 = dest.len + text.length + 1 := by
        apply Nat.mod_eq_of_lt
        omega
      rw [run_bind_get, hnew, if_neg (by omega), if_pos (by omega)]
      exact run_bind_thrown (strResize_refused hno)

/-- What `str_prepend` needs so that a failure of it does no harm: that it fails before it touches the
destination, or that it does not fail, or that the two texts are the same. -/
def PrependKeeps (r : Rooms) (dest src : Str) : Prop :=
  r.calloc = false ∨ r.malloc = false ∨ dest.text ≠ [] ∧ r.saved = false ∨
    (src.text = [] ∨ r.copied = true ∧
      (src.len + (cText dest.text).length < src.size ∨
        src.len + (cText dest.text).length < stringMax ∧ r.grown = true ∨ src.text = dest.text))

/-- The two calls of `str_prepend` that change the destination, with its old text in `b`. -/
theorem strCopy_append_atomic_iff (h : Sound dest) (hsrc : Sound src) {b : Str} (hb : Holds b dest.text)
    {copied grown : Bool} :
    Atomic dest.text ((do strCopy copied src; strAppend grown b).run dest) ↔
      src.text = [] ∨ copied = true ∧
        (src.len + (cText dest.text).length < src.size ∨
          src.len + (cText dest.text).length < stringMax ∧ grown = true ∨ src.text = dest.text) := by
  by_cases hcopied : src.text ≠ [] ∧ copied = false
  · -- The old buffer is gone and there is no new one.
    rw [hcopied.2, run_bind_thrown (strCopy_no_room hsrc hcopied.1)]
    apply iff_of_false (not_holds_of_none rfl)
    rintro (he | ⟨he, -⟩)
    · exact hcopied.1 he
    · cases he
  rw [not_and_or, not_not, Bool.not_eq_false] at hcopied
  obtain ⟨d, hcopy, hd, hdz⟩ := strCopy_room h hsrc hcopied
  have hds : Sound d := by
    apply hd.sound
    rw [hdz]
    split
    · exact h.size
    · exact hsrc.size
  obtain ⟨rest, hbv, -⟩ := hb.value
  have hmem := cString_cText dest.text rest
  have hcat : strAppend grown b = strCat grown (dest.text ++ 0 :: rest) := by
    rw [strAppend, hbv]
    rfl
  have hlen : d.len = src.len := hd.len.trans hsrc.wf.len.symm
  have hshort : (cText dest.text).length < dest.size := by
    have hle : (cText dest.text).length ≤ dest.text.length := (List.takeWhile_sublist _).length_le
    have hlt := h.wf.len_lt_size
    rw [h.wf.len] at hlt
    omega
  rw [run_bind_ok hcopy, hcat, strCat_room hds hmem, hlen, hdz]
  by_cases hempty : src.text = []
  · -- The old text fits into the old buffer.
    have hzero : src.len = 0 := by
      rw [hsrc.wf.len, hempty]
      rfl
    obtain ⟨t, hrun, -, hz⟩ := (strCat_holds hd hmem).1 (by
      have := h.size
      rw [hempty, List.length_nil]
      omega)
    rw [if_pos hempty, if_pos (Or.inl (by omega)), hrun]
    exact iff_of_true (hz hds.size) (Or.inl hempty)
  · have hcopied := hcopied.resolve_left hempty
    have hsrcSize := hsrc.size
    have hsrcLen := hsrc.wf.len
    rw [if_neg hempty, or_iff_right hempty, and_iff_right hcopied]
    split
    · rename_i hfit
      obtain ⟨t, hrun, -, hz⟩ := (strCat_holds hd hmem).1 (by omega)
      rw [hrun]
      exact iff_of_true (hz hds.size) (hfit.elim Or.inl fun hg => Or.inr (Or.inl hg))
    · rename_i hfit
      rw [not_or] at hfit
      rw [or_iff_right hfit.1, or_iff_right hfit.2]
      constructor
      · intro hheld
        exact hd.unique hheld
      · intro he
        rw [he] at hd
        exact hd

theorem strPrepend_atomic_iff (h : Sound dest) (hsrc : Sound src) (r : Rooms) :
    Atomic dest.text ((strPrependWith r src).run dest) ↔ PrependKeeps r dest src := by
  obtain ⟨buf, hnew, hbuf, hbz⟩ := strNew_holds dest
  have hbuf : Sound buf := hbuf.sound (by rw [hbz]; decide)
  rw [strPrependWith, PrependKeeps]
  by_cases hcalloc : r.calloc = false
  · rw [strNew, hcalloc]
    exact iff_of_true h.wf (Or.inl rfl)
  by_cases hmalloc : r.malloc = false
  · have hthrow : (strNew r.calloc r.malloc : Act Str Str).run dest = .thrown dest := by
      rw [strNew, hmalloc]
      split <;> rfl
    rw [run_bind_thrown hthrow]
    exact iff_of_true h.wf (Or.inr (Or.inl hmalloc))
  have hnew' : (strNew r.calloc r.malloc : Act Str Str).run dest = .ok buf dest := by
    rw [Bool.not_eq_false _ |>.mp hcalloc, Bool.not_eq_false _ |>.mp hmalloc]
    exact hnew
  rw [or_iff_right hcalloc, or_iff_right hmalloc, run_bind_ok hnew', run_bind_get]
  by_cases hsaved : dest.text ≠ [] ∧ r.saved = false
  · -- The old text cannot be saved, and nothing has happened to it yet.
    rw [hsaved.2, run_bind_thrown (run_onLocal_thrown (strCopy_no_room h hsaved.1) dest)]
    exact iff_of_true h.wf (Or.inl ⟨hsaved.1, rfl⟩)
  have hroom : dest.text = [] ∨ r.saved = true := by
    rw [not_and_or, not_not, Bool.not_eq_false] at hsaved
    exact hsaved
  obtain ⟨b, hsave, hb, -⟩ := strCopy_room hbuf h hroom
  rw [or_iff_right hsaved, run_bind_ok (run_onLocal_ok hsave dest)]
  exact strCopy_append_atomic_iff h hsrc hb

/-- Which calls leave the old text in place when they fail, and a string of an admissible size when they
do not. Whether memory is to be had is part of the question. -/
theorem failures_atomic_iff (h : Sound dest) :
    (∀ room mem len, len ≤ List.length mem → (Atomic dest.text ((strNcpy room mem len).run dest) ↔
      dest.text = [] ∨ len = 0 ∨ stringMax < len ∨ len < stringMax ∧ HasRoom dest room len)) ∧
    (∀ room src, Sound src → (Atomic dest.text ((strCopy room src).run dest) ↔ src.text = [] ∨ room = true)) ∧
    (∀ formatted, Atomic dest.text ((strVprintf formatted).run dest) ↔
      ∃ bytes, formatted = some bytes ∧ (cText bytes).length < stringMax) ∧
    (∀ room size result, result ≠ .failed → (∀ bytes, result = .data bytes → bytes.length ≤ size) →
      (Atomic dest.text ((strRead room size result).run dest) ↔
        dest.text = [] ∨ stringMax < size ∨ size < stringMax ∧ HasRoom dest room size)) ∧
    ∀ r src, Sound src → (Atomic dest.text ((strPrependWith r src).run dest) ↔ PrependKeeps r dest src) := by
  refine ⟨?_, ?_, strVprintf_atomic_iff h, ?_, ?_⟩
  · intro room mem len hlen
    exact strNcpy_atomic_iff h hlen
  · intro room src hsrc
    exact strCopy_atomic_iff h hsrc
  · intro room size result hresult hread
    exact strRead_atomic_iff h hresult hread
  · intro r src hsrc
    exact strPrepend_atomic_iff h hsrc r

instance (s : Str) (room : Bool) (n : Nat) : Decidable (HasRoom s room n) :=
  inferInstanceAs (Decidable (_ ∨ _))

instance (r : Rooms) (dest src : Str) : Decidable (PrependKeeps r dest src) :=
  inferInstanceAs (Decidable (_ ∨ _))

/-- A string `a`, and a `b` for it. All five calls can do as they should, and all five can lose the text:
without memory, or when the format cannot be expanded. -/
theorem failures_atomic_iff_letter :
    Atomic [97] ((strNcpy true [98, 98, 98] 3).run (ofText [97]).1) ∧
      Atomic [97] ((strCopy true (ofText [98]).1).run (ofText [97]).1) ∧
      Atomic [97] ((strVprintf (some [98, 0])).run (ofText [97]).1) ∧
      Atomic [97] ((strRead true 1 (.data [98])).run (ofText [97]).1) ∧
      Atomic [97] ((strPrependWith ⟨true, true, true, true, true⟩ (ofText [98]).1).run (ofText [97]).1) ∧
      ¬ Atomic [97] ((strNcpy false [98, 98, 98] 3).run (ofText [97]).1) ∧
      ¬ Atomic [97] ((strCopy false (ofText [98]).1).run (ofText [97]).1) ∧
      ¬ Atomic [97] ((strVprintf none).run (ofText [97]).1) ∧
      ¬ Atomic [97] ((strRead false 3 (.data [98])).run (ofText [97]).1) ∧
      ¬ Atomic [97] ((strPrependWith ⟨true, true, true, false, true⟩ (ofText [98]).1).run (ofText [97]).1) := by
  have h : Sound (ofText [97]).1 := (ofText [97]).2.sound (by decide)
  have hsrc : Sound (ofText [98]).1 := (ofText [98]).2.sound (by decide)
  have hdata : ∀ {size : Nat}, 1 ≤ size → ∀ bytes, ReadResult.data [98] = .data bytes → bytes.length ≤ size := by
    rintro size hsize bytes he
    cases he
    exact hsize
  obtain ⟨hncpy, hcopy, hprintf, hread, hprepend⟩ := failures_atomic_iff h
  refine ⟨?_, ?_, ?_, ?_, ?_, ?_, ?_, ?_, ?_, ?_⟩
  · exact (hncpy true _ 3 (by decide)).mpr (by decide)
  · exact (hcopy true _ hsrc).mpr (by decide)
  · exact (hprintf _).mpr ⟨_, rfl, by decide⟩
  · exact (hread true 1 _ (by decide) (hdata (by decide))).mpr (by decide)
  · exact (hprepend _ _ hsrc).mpr (by decide)
  · exact fun ha => absurd ((hncpy false _ 3 (by decide)).mp ha) (by decide)
  · exact fun ha => absurd ((hcopy false _ hsrc).mp ha) (by decide)
  · rintro ha
    obtain ⟨bytes, he, -⟩ := (hprintf none).mp ha
    cases he
  · exact fun ha => absurd ((hread false 3 _ (by decide) (hdata (by decide))).mp ha) (by decide)
  · exact fun ha => absurd ((hprepend _ _ hsrc).mp ha) (by decide)

/-- Without memory for the copy, the old text is lost as well. -/
theorem strCopy_loses_text : Sound (ofText [97]).1 ∧ Sound (ofText [98]).1 ∧
    ¬ Atomic (ofText [97]).1.text ((strCopy false (ofText [98]).1).run (ofText [97]).1) := by
  refine ⟨(ofText [97]).2.sound (by decide), (ofText [98]).2.sound (by decide), ?_⟩
  exact not_holds_of_none rfl

end NcString
