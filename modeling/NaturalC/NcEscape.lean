import NaturalC.NcStringSpec

/-!
# Escaping special characters

`str_escape` writes every byte that is not a letter, a digit or one of `/_.-~` as a percent
sign and two hexadecimal digits, and `str_unescape` reads such codes back with `sscanf(3)`.
Characters are classified as in the C locale.
-/
namespace NcString

open Throwing Throwing.Act

/-- `isalnum(3)` in the C locale. A `char` above 127 is negative and not a letter. -/
def isAlnum (c : UInt8) : Bool :=
  (48 ≤ c && c ≤ 57) || (65 ≤ c && c ≤ 90) || (97 ≤ c && c ≤ 122)

/-- The characters in `"/_.-~"`. -/
def unreserved : Bytes := [47, 95, 46, 45, 126]

/-- What is not escaped. `strchr(3)` also finds the NUL at the end of its string. -/
def isPlain (c : UInt8) : Bool := isAlnum c || unreserved.contains c || c == 0

/-- A digit as `%x` prints it. -/
def hexDigit (n : Nat) : UInt8 := if n < 10 then UInt8.ofNat (48 + n) else UInt8.ofNat (87 + n)

/-- What `snprintf(3)` makes of the format `"%%%02x"`. -/
def escapeCode (c : UInt8) : Bytes := [37, hexDigit (c.toNat / 16), hexDigit (c.toNat % 16)]

/-- One character of `str_escape`, written to the result. -/
def putEscaped (c : UInt8) : Act Str Unit :=
  if isPlain c then strPutc true c else strCat true (charArray (escapeCode c))

/-- The loop of `str_escape`, run on the result. -/
def escapeFrom (mem : Bytes) : List Nat → Act Str Unit
  | [] => pure ()
  | i :: is => do
    let c ← deref mem[i]?
    putEscaped c
    escapeFrom mem is

/-- `str_move` from an object of the function's own. -/
def moveLocal (buf : Str) : Act Str Unit := do
  let dest ← get
  let (_, (d, _)) ← onLocal (strMove true) (dest, buf)
  put d

def strEscape (src : Str) : Act Str Unit := do
  let buf ← strNew true true
  strTruncate
  if src.len = 0 then pure ()
  else do
    let mem ← deref src.value
    let (_, buf) ← onLocal (escapeFrom mem (List.range src.len)) buf
    moveLocal buf

/-- `isspace(3)` in the C locale. -/
def isSpace (c : UInt8) : Bool := c == 32 || (9 ≤ c && c ≤ 13)

/-- The value of a hexadecimal digit. -/
def hexValue (c : UInt8) : Option Nat :=
  if 48 ≤ c ∧ c ≤ 57 then some (c.toNat - 48)
  else if 97 ≤ c ∧ c ≤ 102 then some (c.toNat - 87)
  else if 65 ≤ c ∧ c ≤ 70 then some (c.toNat - 55)
  else none

/-- What `%02x` reads: white space, and then at most two characters of a number that may have a
sign. The prefix `0x` is as long as the field, which leaves no room for a digit, and is read as zero. -/
def scanHex (text : Bytes) : Option Int :=
  match text.dropWhile isSpace with
  | [] => none
  | [c] => (hexValue c).map Int.ofNat
  | c :: d :: _ =>
    if c = 43 then (hexValue d).map Int.ofNat
    else if c = 45 then (hexValue d).map fun n => -Int.ofNat n
    else match hexValue c, hexValue d with
      | none, _ => none
      -- with `0x` too, since no digit of it is left in the field
      | some n, none => some (Int.ofNat n)
      | some n, some m => some (Int.ofNat (16 * n + m))

/-- `sscanf(3)` with the format `"%%%02x"`. -/
def sscanfCode : Bytes → Option Int
  | 37 :: text => scanHex text
  | _ => none

/-- The conversion of an `int` to a `char`. -/
def toChar (code : Int) : UInt8 := UInt8.ofNat (code % 256).toNat

/-- One round of the loop of `str_unescape`. -/
def unescapeRound (mem : Bytes) (i : Nat) : Act Str (Nat ⊕ Unit) := do
  let c ← deref mem[i]?
  if c = 0 then pure (.inr ())
  else if c = 37 then do
    let text ← deref (cString (mem.drop i))
    match sscanfCode text with
    | some code => do
      strPutc true (toChar code)
      pure (.inl (i + 3))
    | none => do
      strPutc true c
      pure (.inl (i + 1))
  else do
    strPutc true c
    pure (.inl (i + 1))

def strUnescape (src : Str) : Act Str Unit := do
  let buf ← strNew true true
  if src.len = 0 then pure ()
  else do
    let mem ← deref src.value
    let (_, buf) ← onLocal (loop (unescapeRound mem) (mem.length + 1) 0) buf
    moveLocal buf

/-! ## What they do to the text -/

/-- What `str_escape` writes for one byte. -/
def escapeByte (c : UInt8) : Bytes := if c = 0 then [] else if isPlain c then [c] else escapeCode c

/-- What `str_escape` makes of a text. -/
def escape (text : Bytes) : Bytes := text.flatMap escapeByte

theorem hexDigit_spec : ∀ n < 16, hexValue (hexDigit n) = some n ∧ hexDigit n ≠ 0 ∧
    isAlnum (hexDigit n) = true ∧ isSpace (hexDigit n) = false ∧ hexDigit n ≠ 43 ∧ hexDigit n ≠ 45 := by
  decide

/-- A code is read back, whatever follows. -/
theorem sscanfCode_escapeCode (c : UInt8) (rest : Bytes) :
    sscanfCode (escapeCode c ++ rest) = some (Int.ofNat c.toNat) := by
  have hlt : c.toNat < 256 := c.toNat_lt_size
  obtain ⟨hhi, -, -, hspace, hplus, hminus⟩ := hexDigit_spec (c.toNat / 16) (by omega)
  obtain ⟨hlo, -⟩ := hexDigit_spec (c.toNat % 16) (by omega)
  have hsum : 16 * (c.toNat / 16) + c.toNat % 16 = c.toNat := Nat.div_add_mod _ _
  change scanHex (hexDigit (c.toNat / 16) :: hexDigit (c.toNat % 16) :: rest) = _
  rw [scanHex, List.dropWhile_cons, hspace]
  simp [hplus, hminus, hhi, hlo, hsum]

theorem toChar_ofNat (c : UInt8) : toChar (Int.ofNat c.toNat) = c := by
  have hlt : c.toNat < 256 := c.toNat_lt_size
  have hmod : (Int.ofNat c.toNat % 256).toNat = c.toNat := by
    simp only [Int.ofNat_eq_natCast]
    omega
  rw [toChar, hmod, UInt8.ofNat_toNat]

/-- What a byte is written as has no NUL in it. -/
theorem nulFree_escapeByte (c : UInt8) : NulFree (escapeByte c) := by
  have hlt : c.toNat < 256 := c.toNat_lt_size
  obtain ⟨-, hhi, -⟩ := hexDigit_spec (c.toNat / 16) (by omega)
  obtain ⟨-, hlo, -⟩ := hexDigit_spec (c.toNat % 16) (by omega)
  intro h0
  rw [escapeByte] at h0
  split at h0
  · cases h0
  · rename_i hc
    split at h0
    · exact hc (List.mem_singleton.mp h0).symm
    · simp only [escapeCode, List.mem_cons, List.not_mem_nil, or_false] at h0
      rcases h0 with h0 | h0 | h0
      · exact absurd h0 (by decide)
      · exact hhi h0.symm
      · exact hlo h0.symm

theorem nulFree_escape (text : Bytes) : NulFree (escape text) := by
  intro h0
  obtain ⟨c, -, hc⟩ := List.mem_flatMap.mp h0
  exact nulFree_escapeByte c hc

/-- One byte is written to the result, or the result gets too long. -/
theorem putEscaped_holds {s : Str} {old : Bytes} (h : Holds s old) (hz : s.size ≤ stringMax) (c : UInt8) :
    (old.length + (escapeByte c).length < stringMax →
      ∃ t, (putEscaped c).run s = .ok () t ∧ Holds t (old ++ escapeByte c) ∧ t.size ≤ stringMax) ∧
    (stringMax ≤ old.length + (escapeByte c).length → (putEscaped c).run s = .thrown s) := by
  have hmem : ∃ mem, putEscaped c = strCat true mem ∧ cString mem = some (escapeByte c) := by
    rw [putEscaped]
    by_cases hc : c = 0
    · subst hc
      exact ⟨[0, 0], rfl, by decide⟩
    · have hnul := nulFree_escapeByte c
      rw [escapeByte, if_neg hc] at hnul ⊢
      by_cases hplain : isPlain c = true
      · rw [if_pos hplain] at hnul
        rw [if_pos hplain, if_pos hplain]
        exact ⟨[c, 0], rfl, cString_append [c] [] hnul⟩
      · rw [if_neg hplain] at hnul
        rw [if_neg hplain, if_neg hplain]
        exact ⟨_, rfl, cString_charArray _ hnul⟩
  obtain ⟨mem, hcall, hmem⟩ := hmem
  rw [hcall]
  obtain ⟨hok, hbig⟩ := strCat_holds h hmem
  refine ⟨?_, fun hlong => hbig hz hlong⟩
  intro hfit
  obtain ⟨t, hrun, ht, hsize⟩ := hok hfit
  exact ⟨t, hrun, ht, hsize hz⟩

/-- The loop writes one byte after the other. -/
theorem escapeFrom_holds {s : Str} {old mid : Bytes} (pre post : Bytes) (h : Holds s old)
    (hz : s.size ≤ stringMax) (hmax : old.length + (escape mid).length < stringMax) :
    ∃ t, (escapeFrom (pre ++ mid ++ post) (List.range' pre.length mid.length)).run s = .ok () t ∧
      Holds t (old ++ escape mid) ∧ t.size ≤ stringMax := by
  induction mid generalizing s old pre with
  | nil => exact ⟨s, rfl, by simpa [escape] using h, hz⟩
  | cons c mid ih =>
    have hsplit : escape (c :: mid) = escapeByte c ++ escape mid := rfl
    rw [hsplit, List.length_append] at hmax
    obtain ⟨t, hrun, ht, htz⟩ := (putEscaped_holds h hz c).1 (by omega)
    obtain ⟨u, hloop, hu, huz⟩ := ih (pre ++ [c]) ht htz (by rw [List.length_append]; omega)
    refine ⟨u, ?_, by rw [hsplit, ← List.append_assoc]; exact hu, huz⟩
    have hget : (pre ++ c :: mid ++ post)[pre.length]? = some c := by simp
    rw [List.length_cons, List.range'_succ, escapeFrom, hget, deref_some, run_bind_ret,
      run_bind_ok hrun]
    rw [List.length_append, List.length_singleton] at hloop
    simpa using hloop

theorem moveLocal_holds {dest buf : Str} {old text : Bytes} (hd : Holds dest old) (hb : Holds buf text)
    (hbz : buf.size ≤ stringMax) :
    ∃ t, (moveLocal buf).run dest = .ok () t ∧ Holds t text ∧
      (dest.size ≤ stringMax → t.size ≤ stringMax) := by
  obtain ⟨d, hcopy, hd', hdz⟩ := strCopy_holds hd hb
  obtain ⟨b, htrunc, -, -⟩ := strTruncate_holds hb
  have hmove : (strMove true).run (dest, buf) = .ok () (d, b) := by
    simp only [strMove, run_bind_get]
    rw [run_bind_ok (run_zoom_ok hcopy)]
    exact run_zoom_ok htrunc
  refine ⟨d, ?_, hd', ?_⟩
  · simp only [moveLocal, run_bind_get]
    rw [run_bind_ok (run_onLocal_ok hmove dest)]
    rfl
  · intro hz
    rw [hdz]
    split <;> assumption

/-- `str_escape` replaces the contents of the destination. -/
theorem strEscape_holds {dest src : Str} {old text : Bytes} (hd : Holds dest old) (hs : Holds src text)
    (hmax : (escape text).length < stringMax) :
    ∃ t, (strEscape src).run dest = .ok () t ∧ Holds t (escape text) ∧
      (dest.size ≤ stringMax → t.size ≤ stringMax) := by
  obtain ⟨buf, hnew, hbuf, hbz⟩ := strNew_holds dest
  obtain ⟨d, htrunc, hd', hdz⟩ := strTruncate_holds hd
  have hM : 16 ≤ stringMax := by decide
  simp only [strEscape]
  rw [run_bind_ok hnew, run_bind_ok htrunc]
  by_cases hlen : src.len = 0
  · have htext : text = [] := List.length_eq_zero_iff.mp (hs.len.symm.trans hlen)
    subst htext
    rw [if_pos hlen]
    exact ⟨d, rfl, hd', by omega⟩
  · obtain ⟨rest, hval, -⟩ := hs.value
    obtain ⟨b, hloop, hb, hbz'⟩ :=
      escapeFrom_holds [] (0 :: rest) hbuf (by omega) (by simpa using hmax)
    rw [List.nil_append] at hloop hb
    obtain ⟨t, hmove, ht, htz⟩ := moveLocal_holds hd' hb hbz'
    refine ⟨t, ?_, ht, fun hz => htz (by omega)⟩
    rw [List.length_nil, ← List.range_eq_range', ← hs.len] at hloop
    rw [if_neg hlen, hval, deref_some, run_bind_ret, run_bind_ok (run_onLocal_ok hloop d)]
    exact hmove

/-- One more character. -/
theorem strPutc_holds {s : Str} {old : Bytes} {c : UInt8} (h : Holds s old) (hz : s.size ≤ stringMax)
    (hc : c ≠ 0) (hmax : old.length + 1 < stringMax) :
    ∃ t, (strPutc true c).run s = .ok () t ∧ Holds t (old ++ [c]) ∧ t.size ≤ stringMax := by
  have hmem : cString [c, 0] = some [c] := cString_append [c] [] (by simpa [NulFree] using Ne.symm hc)
  obtain ⟨t, hrun, ht, hsize⟩ := (strCat_holds h hmem).1 hmax
  exact ⟨t, hrun, ht, hsize hz⟩

/-- The code of a byte, or the byte itself, is read back. -/
theorem unescapeRound_holds {s : Str} {old text : Bytes} {c : UInt8} (pre rest : Bytes) (h : Holds s old)
    (hz : s.size ≤ stringMax) (hmax : old.length + 1 < stringMax) (hc : c ≠ 0) (hn : NulFree text) :
    ∃ t, (unescapeRound (pre ++ (escapeByte c ++ text) ++ 0 :: rest) pre.length).run s =
        .ok (.inl (pre.length + (escapeByte c).length)) t ∧
      Holds t (old ++ [c]) ∧ t.size ≤ stringMax := by
  obtain ⟨t, hput, ht, htz⟩ := strPutc_holds h hz hc hmax
  refine ⟨t, ?_, ht, htz⟩
  have hnul : NulFree (escapeByte c ++ text) := (nulFree_escapeByte c).append hn
  have hdrop : cString ((pre ++ (escapeByte c ++ text) ++ 0 :: rest).drop pre.length) =
      some (escapeByte c ++ text) := by
    rw [List.append_assoc, List.drop_left' rfl]
    exact cString_append _ rest hnul
  rw [escapeByte, if_neg hc] at hdrop ⊢
  simp only [unescapeRound]
  by_cases hplain : isPlain c = true
  · rw [if_pos hplain] at hdrop ⊢
    have hpercent : c ≠ 37 := by
      rintro rfl
      exact absurd hplain (by decide)
    have hget : (pre ++ ([c] ++ text) ++ 0 :: rest)[pre.length]? = some c := by simp
    rw [hget, deref_some, run_bind_ret, if_neg hc, if_neg hpercent, run_bind_ok hput]
    rfl
  · rw [if_neg hplain] at hdrop ⊢
    have hget : (pre ++ (escapeCode c ++ text) ++ 0 :: rest)[pre.length]? = some 37 := by
      simp [escapeCode]
    rw [hget, deref_some, run_bind_ret, if_neg (by decide), if_pos rfl, hdrop, deref_some, run_bind_ret,
      sscanfCode_escapeCode]
    dsimp only
    rw [toChar_ofNat, run_bind_ok hput]
    rfl

theorem length_escapeByte_pos {c : UInt8} (hc : c ≠ 0) : 0 < (escapeByte c).length := by
  rw [escapeByte, if_neg hc]
  split <;> simp [escapeCode]

/-- Escaping makes no text shorter. -/
theorem length_le_escape {text : Bytes} (hn : NulFree text) : text.length ≤ (escape text).length := by
  induction text with
  | nil => exact Nat.zero_le _
  | cons c text ih =>
    have hpos : 0 < (escapeByte c).length := length_escapeByte_pos fun he => hn (by simp [he])
    have hrest := ih fun hm => hn (List.mem_cons_of_mem _ hm)
    have hsplit : escape (c :: text) = escapeByte c ++ escape text := rfl
    rw [hsplit, List.length_append, List.length_cons]
    omega

/-- The loop reads back one byte after the other. -/
theorem loop_unescape {s : Str} {old text : Bytes} (pre rest : Bytes) {fuel : Nat} (h : Holds s old)
    (hz : s.size ≤ stringMax) (hn : NulFree text) (hmax : old.length + text.length < stringMax)
    (hf : text.length < fuel) :
    ∃ t, (loop (unescapeRound (pre ++ escape text ++ 0 :: rest)) fuel pre.length).run s = .ok () t ∧
      Holds t (old ++ text) ∧ t.size ≤ stringMax := by
  induction text generalizing s old pre fuel with
  | nil =>
    obtain ⟨fuel, rfl⟩ : ∃ n, fuel = n + 1 := ⟨fuel - 1, by simp at hf; omega⟩
    have hget : (pre ++ escape [] ++ 0 :: rest)[pre.length]? = some 0 := by simp [escape]
    have hround : (unescapeRound (pre ++ escape [] ++ 0 :: rest) pre.length).run s = .ok (.inr ()) s := by
      simp only [unescapeRound]
      rw [hget]
      rfl
    exact ⟨s, run_loop_inr hround, by simpa using h, hz⟩
  | cons c text ih =>
    obtain ⟨fuel, rfl⟩ : ∃ n, fuel = n + 1 := ⟨fuel - 1, by simp at hf; omega⟩
    rw [List.length_cons] at hmax hf
    have hc : c ≠ 0 := fun he => hn (by simp [he])
    have hsplit : escape (c :: text) = escapeByte c ++ escape text := rfl
    obtain ⟨t, hround, ht, htz⟩ := unescapeRound_holds pre rest h hz (by omega) hc
      (nulFree_escape text)
    obtain ⟨u, hloop, hu, huz⟩ := ih (pre ++ escapeByte c) ht htz
      (fun hm => hn (List.mem_cons_of_mem _ hm)) (by rw [List.length_append, List.length_singleton]; omega)
      (show text.length < fuel by omega)
    refine ⟨u, ?_, by simpa using hu, huz⟩
    rw [hsplit, run_loop_inl hround]
    simpa using hloop

/-- `str_unescape` undoes `str_escape`. An empty source leaves the destination as it is. -/
theorem strUnescape_holds {dest src : Str} {old text : Bytes} (hd : Holds dest old)
    (hs : Holds src (escape text)) (hn : NulFree text) (hmax : text.length < stringMax) :
    ∃ t, (strUnescape src).run dest = .ok () t ∧ Holds t (if text = [] then old else text) ∧
      (dest.size ≤ stringMax → t.size ≤ stringMax) := by
  obtain ⟨buf, hnew, hbuf, hbz⟩ := strNew_holds dest
  have hM : 16 ≤ stringMax := by decide
  simp only [strUnescape]
  rw [run_bind_ok hnew]
  cases text with
  | nil =>
    have hlen : src.len = 0 := hs.len
    exact ⟨dest, by rw [if_pos hlen]; rfl, by simpa using hd, id⟩
  | cons c text =>
    have hc : c ≠ 0 := fun he => hn (by simp [he])
    have hlen : src.len ≠ 0 := by
      have hpos := length_escapeByte_pos hc
      have hsplit : escape (c :: text) = escapeByte c ++ escape text := rfl
      rw [hs.len, hsplit, List.length_append]
      omega
    obtain ⟨rest, hval, -⟩ := hs.value
    have hle := length_le_escape hn
    obtain ⟨b, hloop, hb, hbz'⟩ := loop_unescape [] rest hbuf (by omega) hn
      (by simpa using hmax)
      (show (c :: text).length < (escape (c :: text) ++ 0 :: rest).length + 1 by
        rw [List.length_append]; omega)
    rw [List.nil_append, List.length_nil] at hloop
    rw [List.nil_append] at hb
    obtain ⟨t, hmove, ht, htz⟩ := moveLocal_holds hd hb hbz'
    refine ⟨t, ?_, by simpa using ht, htz⟩
    rw [if_neg hlen, hval, deref_some, run_bind_ret, run_bind_ok (run_onLocal_ok hloop dest)]
    exact hmove

/-- The characters that an escaped text consists of: letters, digits and `/_.-~%`. -/
def isUriChar (c : UInt8) : Bool := isAlnum c || unreserved.contains c || c == 37

theorem isUriChar_escapeByte {c d : UInt8} (hd : d ∈ escapeByte c) : isUriChar d = true := by
  have hlt : c.toNat < 256 := c.toNat_lt_size
  obtain ⟨-, -, hhi, -⟩ := hexDigit_spec (c.toNat / 16) (by omega)
  obtain ⟨-, -, hlo, -⟩ := hexDigit_spec (c.toNat % 16) (by omega)
  rw [escapeByte] at hd
  split at hd
  · cases hd
  · rename_i hc
    split at hd
    · rename_i hplain
      rw [List.mem_singleton.mp hd, isUriChar]
      rw [isPlain] at hplain
      simp only [Bool.or_eq_true, beq_iff_eq, hc, or_false] at hplain
      rw [Bool.or_eq_true, Bool.or_eq_true]
      exact .inl hplain
    · simp only [escapeCode, List.mem_cons, List.not_mem_nil, or_false] at hd
      rcases hd with rfl | rfl | rfl
      · decide
      · simp [isUriChar, hhi]
      · simp [isUriChar, hlo]

/-- Unescaping what `str_escape` has written gives back the text, and only characters that may stand
in a URI are written. -/
theorem unescape_escape {src dest dest' : Str} {text old old' : Bytes} (hs : Holds src text)
    (hd : Holds dest old) (hd' : Holds dest' old') (hne : text ≠ []) (hn : NulFree text)
    (hmax : (escape text).length < stringMax) :
    ∃ e t, (strEscape src).run dest = .ok () e ∧ (strUnescape e).run dest' = .ok () t ∧ Holds t text ∧
      ∀ c ∈ e.text, isUriChar c = true := by
  obtain ⟨e, hescape, he, -⟩ := strEscape_holds hd hs hmax
  have hle := length_le_escape hn
  obtain ⟨t, hunescape, ht, -⟩ := strUnescape_holds hd' he hn (by omega)
  rw [if_neg hne] at ht
  refine ⟨e, t, hescape, hunescape, ht, ?_⟩
  intro c hc
  rw [he.text] at hc
  obtain ⟨b, -, hb⟩ := List.mem_flatMap.mp hc
  exact isUriChar_escapeByte hb

/-- The text `a%é`, in Latin-1, into two empty strings. -/
theorem unescape_escape_latin :
    ∃ e t, (strEscape (ofText [97, 37, 233]).1).run (ofText []).1 = .ok () e ∧
      (strUnescape e).run (ofText []).1 = .ok () t ∧ Holds t [97, 37, 233] ∧
      ∀ c ∈ e.text, isUriChar c = true := by
  have htext : Holds (ofText [97, 37, 233]).1 [97, 37, 233] := holds_ofText _
  have hempty : Holds (ofText []).1 [] := holds_ofText _
  exact unescape_escape htext hempty hempty (by decide) (by decide) (by decide)

end NcString
