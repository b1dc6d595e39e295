import NaturalC.NcUnescape

/-!
# What unescaping makes of a text

`unescape` is what a decoder of percent codes is for: a percent sign with two hexadecimal
digits behind it, other than `00`, stands for a byte, and every other character for itself.
`decoded` is what the loop of `str_unescape` writes, where `sscanf(3)` decides what a code is.
The two agree on a text exactly when `sscanf(3)` never finds a number behind a percent sign
that begins no code.
-/
namespace NcString

open Throwing Throwing.Act

/-- The byte that a code with these two characters stands for. -/
def hexByte (a b : UInt8) : Option UInt8 :=
  match hexValue a, hexValue b with
  | some n, some m => if 16 * n + m = 0 then none else some (UInt8.ofNat (16 * n + m))
  | _, _ => none

/-- The text with every code replaced by its byte. -/
def unescape : Bytes → Bytes
  | c :: a :: b :: w =>
    if c = 37 then
      match hexByte a b with
      | some x => x :: unescape w
      | none => c :: unescape (a :: b :: w)
    else c :: unescape (a :: b :: w)
  | w => w

/-- The text that the loop of `str_unescape` writes. A NUL is written as nothing. -/
def decoded : Bytes → Bytes
  | c :: a :: b :: w =>
    if c = 37 then
      match scanHex (a :: b :: w) with
      | some code => cText [toChar code] ++ decoded w
      | none => c :: decoded (a :: b :: w)
    else c :: decoded (a :: b :: w)
  | w => w

/-- What stands behind every percent sign of a text. -/
def BehindPercent (P : Bytes → Prop) (text : Bytes) : Prop := ∀ w, 37 :: w <:+ text → P w

/-- A code, or something in which `sscanf(3)` finds no number. -/
def Unmistaken : Bytes → Prop
  | a :: b :: w => (hexByte a b).isSome ∨ scanHex (a :: b :: w) = none
  | _ => False

variable {P : Bytes → Prop} {a b c x : UInt8} {w text : Bytes}

theorem behindPercent_nil : BehindPercent P [] := by
  intro w h
  simp at h

theorem behindPercent_cons : BehindPercent P (c :: w) ↔ (c = 37 → P w) ∧ BehindPercent P w := by
  constructor
  · intro h
    refine ⟨?_, fun u hu => h u (hu.trans (List.suffix_cons c w))⟩
    rintro rfl
    exact h w List.suffix_rfl
  · rintro ⟨hhead, htail⟩ u hu
    rcases List.suffix_cons_iff.mp hu with he | hu
    · obtain ⟨rfl, rfl⟩ := List.cons.inj he
      exact hhead rfl
    · exact htail u hu

theorem behindPercent_cons_of_ne (hc : c ≠ 37) : BehindPercent P (c :: w) ↔ BehindPercent P w := by
  rw [behindPercent_cons]
  exact ⟨fun h => h.2, fun h => ⟨fun he => absurd he hc, h⟩⟩

instance decidableBehindPercent [DecidablePred P] : (text : Bytes) → Decidable (BehindPercent P text)
  | [] => .isTrue behindPercent_nil
  | _ :: w =>
    have : Decidable (BehindPercent P w) := decidableBehindPercent w
    decidable_of_iff _ behindPercent_cons.symm

instance : DecidablePred Unmistaken
  | [] => .isFalse id
  | [_] => .isFalse id
  | a :: b :: w => inferInstanceAs (Decidable ((hexByte a b).isSome ∨ scanHex (a :: b :: w) = none))

/-- What a hexadecimal digit is not. -/
theorem hexValue_ne {n : Nat} (h : hexValue a = some n) :
    n < 16 ∧ isSpace a = false ∧ a ≠ 37 ∧ a ≠ 43 ∧ a ≠ 45 := by
  have hlt : a.toNat < 256 := a.toNat_lt_size
  have hall : ∀ k < 256, ∀ m ∈ hexValue (UInt8.ofNat k), m < 16 ∧ isSpace (UInt8.ofNat k) = false ∧
      UInt8.ofNat k ≠ 37 ∧ UInt8.ofNat k ≠ 43 ∧ UInt8.ofNat k ≠ 45 := by decide +kernel
  have ha := hall a.toNat hlt n
  rw [UInt8.ofNat_toNat] at ha
  exact ha h

theorem hexByte_some (h : hexByte a b = some x) :
    ∃ n m, hexValue a = some n ∧ hexValue b = some m ∧ 16 * n + m ≠ 0 ∧ x = UInt8.ofNat (16 * n + m) := by
  rw [hexByte] at h
  split at h
  · rename_i n m hn hm
    split at h
    · cases h
    · rename_i h0
      exact ⟨n, m, hn, hm, h0, (Option.some.inj h).symm⟩
  · cases h

/-- `sscanf(3)` reads a code as the byte it stands for. -/
theorem scanHex_code (h : hexByte a b = some x) (w : Bytes) :
    ∃ code, scanHex (a :: b :: w) = some code ∧ toChar code = x ∧ x ≠ 0 := by
  obtain ⟨n, m, hn, hm, h0, rfl⟩ := hexByte_some h
  obtain ⟨hn16, hspace, -, hplus, hminus⟩ := hexValue_ne hn
  obtain ⟨hm16, -⟩ := hexValue_ne hm
  have hsmall : 16 * n + m < 256 := by omega
  refine ⟨Int.ofNat (16 * n + m), ?_, ?_, ?_⟩
  · rw [scanHex, List.dropWhile_cons, hspace]
    simp [hplus, hminus, hn, hm]
  · have hmod : (Int.ofNat (16 * n + m) % 256).toNat = 16 * n + m := by
      simp only [Int.ofNat_eq_natCast]
      omega
    rw [toChar, hmod]
  · intro he
    have hnat := congrArg UInt8.toNat he
    rw [UInt8.toNat_ofNat_of_lt' hsmall] at hnat
    exact h0 hnat

theorem hexByte_none_of_scanHex (h : scanHex (a :: b :: w) = none) : hexByte a b = none := by
  cases hgood : hexByte a b with
  | none => rfl
  | some x =>
    obtain ⟨code, hsome, -⟩ := scanHex_code hgood w
    rw [h] at hsome
    cases hsome

/-- A percent sign is no number. -/
theorem scanHex_percent (w : Bytes) : scanHex (37 :: w) = none := by
  rw [scanHex, List.dropWhile_cons_of_neg (by decide)]
  cases w with
  | nil => rfl
  | cons d w => rfl

/-- One digit in front of a percent sign is no percent sign. -/
theorem scanHex_before_percent {code : Int} (h : scanHex (a :: 37 :: w) = some code) : toChar code ≠ 37 := by
  by_cases hspace : isSpace a = true
  · have hskip : scanHex (a :: 37 :: w) = scanHex (37 :: w) := by
      rw [scanHex, scanHex, List.dropWhile_cons_of_pos hspace]
    rw [hskip, scanHex_percent] at h
    cases h
  · rw [scanHex, List.dropWhile_cons_of_neg hspace] at h
    have h37 : hexValue 37 = none := by decide
    simp only [h37, Option.map_none] at h
    split_ifs at h
    cases hn : hexValue a with
    | none =>
      rw [hn] at h
      cases h
    | some n =>
      rw [hn] at h
      cases h
      obtain ⟨hn16, -⟩ := hexValue_ne hn
      have hall : ∀ n < 16, toChar (Int.ofNat n) ≠ 37 := by decide
      exact hall n hn16

/-! ## The two texts -/

theorem unescape_cons_of_ne (hc : c ≠ 37) (w : Bytes) : unescape (c :: w) = c :: unescape w := by
  match w with
  | [] => rfl
  | [_] => rfl
  | a :: b :: w => rw [unescape, if_neg hc]

theorem unescape_code (h : hexByte a b = some x) (w : Bytes) :
    unescape (37 :: a :: b :: w) = x :: unescape w := by
  rw [unescape, if_pos rfl, h]

theorem unescape_no_code (h : hexByte a b = none) (w : Bytes) :
    unescape (37 :: a :: b :: w) = 37 :: unescape (a :: b :: w) := by
  rw [unescape, if_pos rfl, h]

theorem decoded_cons_of_ne (hc : c ≠ 37) (w : Bytes) : decoded (c :: w) = c :: decoded w := by
  match w with
  | [] => rfl
  | [_] => rfl
  | a :: b :: w => rw [decoded, if_neg hc]

theorem decoded_code {code : Int} (h : scanHex (a :: b :: w) = some code) :
    decoded (37 :: a :: b :: w) = cText [toChar code] ++ decoded w := by
  rw [decoded, if_pos rfl, h]

theorem decoded_no_code (h : scanHex (a :: b :: w) = none) :
    decoded (37 :: a :: b :: w) = 37 :: decoded (a :: b :: w) := by
  rw [decoded, if_pos rfl, h]

/-- The digits of a code are no percent signs. -/
theorem hexByte_ne_percent (h : hexByte a b = some x) : a ≠ 37 ∧ b ≠ 37 := by
  obtain ⟨n, m, hn, hm, -, -⟩ := hexByte_some h
  exact ⟨(hexValue_ne hn).2.2.1, (hexValue_ne hm).2.2.1⟩

/-- A character in front makes the text longer, or begins a code and makes it one shorter. -/
theorem length_unescape_le (c : UInt8) (w : Bytes) :
    (unescape w).length ≤ (unescape (c :: w)).length + 1 := by
  by_cases hc : c = 37
  · subst hc
    match w with
    | [] => exact Nat.zero_le _
    | [_] => exact Nat.le_of_ble_eq_true rfl
    | a :: b :: w =>
      cases hcode : hexByte a b with
      | none =>
        rw [unescape_no_code hcode, List.length_cons]
        omega
      | some x =>
        obtain ⟨ha, hb⟩ := hexByte_ne_percent hcode
        rw [unescape_code hcode, unescape_cons_of_ne ha, unescape_cons_of_ne hb]
        simp
  · rw [unescape_cons_of_ne hc, List.length_cons]
    omega

/-- What `sscanf(3)` mistakes for a code begins with some other character than a percent sign. -/
theorem ne_percent_of_scanHex {code : Int} (h : scanHex (a :: w) = some code) : a ≠ 37 := by
  rintro rfl
  rw [scanHex_percent] at h
  cases h

theorem length_cText_le (c : UInt8) : (cText [c]).length ≤ 1 :=
  (List.takeWhile_prefix (l := [c]) (· != 0)).length_le

/-- With every mistake characters are lost. -/
theorem length_decoded_le (text : Bytes) : (decoded text).length ≤ (unescape text).length := by
  induction text using decoded.induct with
  | case1 a b w code hcode ih =>
    rw [decoded_code hcode, List.length_append]
    have hwritten := length_cText_le (toChar code)
    cases hgood : hexByte a b with
    | some x =>
      rw [unescape_code hgood, List.length_cons]
      omega
    | none =>
      have hb := length_unescape_le b w
      rw [unescape_no_code hgood, unescape_cons_of_ne (ne_percent_of_scanHex hcode), List.length_cons,
        List.length_cons]
      omega
  | case2 a b w hcode ih =>
    have hbad := hexByte_none_of_scanHex hcode
    rw [decoded_no_code hcode, unescape_no_code hbad, List.length_cons, List.length_cons]
    omega
  | case3 c a b w hc ih =>
    rw [decoded_cons_of_ne hc, unescape_cons_of_ne hc, List.length_cons, List.length_cons]
    omega
  | case4 w hshort =>
    match w with
    | [] => exact Nat.le_refl _
    | [_] => exact Nat.le_refl _
    | [_, _] => exact Nat.le_refl _
    | a :: b :: c :: w => exact absurd rfl (hshort a b c w)

/-- A mistake shows in the text. -/
theorem decoded_ne_unescape {code : Int} (hcode : scanHex (a :: b :: w) = some code) (hbad : hexByte a b = none) :
    decoded (37 :: a :: b :: w) ≠ unescape (37 :: a :: b :: w) := by
  have ha := ne_percent_of_scanHex hcode
  have hshort := length_decoded_le w
  rw [decoded_code hcode, unescape_no_code hbad, unescape_cons_of_ne ha]
  intro he
  by_cases h37 : toChar code = 37
  · -- The number is that of a percent sign. Both characters behind it are missing then.
    have hb : b ≠ 37 := by
      rintro rfl
      exact scanHex_before_percent hcode h37
    have hlen := congrArg List.length he
    have hwritten := length_cText_le (toChar code)
    rw [unescape_cons_of_ne hb, List.length_append] at hlen
    simp only [List.length_cons] at hlen
    omega
  · by_cases h0 : toChar code = 0
    · -- Nothing is written at all.
      have hlen := congrArg List.length he
      have hb := length_unescape_le b w
      rw [h0, List.length_append] at hlen
      have hnil : (cText [0]).length = 0 := rfl
      simp only [List.length_cons] at hlen
      omega
    · have hone : cText [toChar code] = [toChar code] :=
        cText_of_nulFree (by simpa [NulFree] using Ne.symm h0)
      rw [hone] at he
      exact h37 (List.cons.inj he).1

/-- A text too short for a code. -/
theorem decoded_short (h : w.length ≤ 2) : decoded w = w := by
  match w with
  | [] => rfl
  | [_] => rfl
  | [_, _] => rfl

theorem unescape_short (h : w.length ≤ 2) : unescape w = w := by
  match w with
  | [] => rfl
  | [_] => rfl
  | [_, _] => rfl

/-- A character that begins no code. -/
theorem decoded_cons_plain (hp : c = 37 → scanHex w = none) : decoded (c :: w) = c :: decoded w := by
  by_cases hc : c = 37
  · subst hc
    match w with
    | [] => rfl
    | [_] => rfl
    | a :: b :: u => exact decoded_no_code (hp rfl)
  · exact decoded_cons_of_ne hc w

/-- The loop writes what is meant exactly when it takes nothing for a code that is none. -/
theorem decoded_eq_unescape_iff (htwo : BehindPercent (2 ≤ ·.length) text) :
    decoded text = unescape text ↔ BehindPercent Unmistaken text := by
  induction text using decoded.induct with
  | case1 a b w code hcode ih =>
    rw [behindPercent_cons] at htwo ⊢
    cases hgood : hexByte a b with
    | some x =>
      obtain ⟨ha, hb⟩ := hexByte_ne_percent hgood
      obtain ⟨code', hcode', hx, hx0⟩ := scanHex_code hgood w
      obtain rfl : code' = code := Option.some.inj (hcode'.symm.trans hcode)
      have hone : cText [x] = [x] := cText_of_nulFree (by simpa [NulFree] using Ne.symm hx0)
      rw [behindPercent_cons_of_ne ha, behindPercent_cons_of_ne hb] at htwo ⊢
      rw [decoded_code hcode, unescape_code hgood, hx, hone, List.singleton_append, List.cons_inj_right, ih htwo.2]
      exact ⟨fun h => ⟨fun _ => Or.inl (by rw [hgood]; rfl), h⟩, fun h => h.2⟩
    | none =>
      apply iff_of_false (decoded_ne_unescape hcode hgood)
      rintro ⟨h, -⟩
      rcases h rfl with hsome | hnone
      · rw [hgood] at hsome
        cases hsome
      · rw [hcode] at hnone
        cases hnone
  | case2 a b w hcode ih =>
    have hbad := hexByte_none_of_scanHex hcode
    rw [behindPercent_cons] at htwo ⊢
    rw [decoded_no_code hcode, unescape_no_code hbad, List.cons_inj_right, ih htwo.2]
    exact ⟨fun h => ⟨fun _ => Or.inr hcode, h⟩, fun h => h.2⟩
  | case3 c a b w hc ih =>
    rw [behindPercent_cons_of_ne hc] at htwo ⊢
    rw [decoded_cons_of_ne hc, unescape_cons_of_ne hc, List.cons_inj_right, ih htwo]
  | case4 w hshort =>
    have hlen : w.length ≤ 2 := by
      match w with
      | [] => exact Nat.zero_le 2
      | [_] => exact Nat.le_succ 1
      | [_, _] => exact le_rfl
      | a :: b :: c :: w => exact absurd rfl (hshort a b c w)
    have hfree : ∀ v, ¬ 37 :: v <:+ w := by
      intro v hv
      have hv2 := htwo v hv
      have hle := hv.length_le
      rw [List.length_cons] at hle
      omega
    have hsame : decoded w = unescape w := by rw [decoded_short hlen, unescape_short hlen]
    exact iff_of_true hsame fun v hv => absurd hv (hfree v)

/-! ## The run -/

theorem NulFree.tail (h : NulFree (c :: w)) : NulFree w := fun hm => h (List.mem_cons_of_mem _ hm)

theorem NulFree.head (h : NulFree (c :: w)) : c ≠ 0 := by
  rintro rfl
  exact h List.mem_cons_self

/-- From a place on, the loop writes the rest of the text. The induction is on the length of it. -/
theorem loop_decoded (n : Nat) : ∀ {s old text} (pre rest : Bytes), text.length = n → Holds s old →
    s.size ≤ stringMax → NulFree text → BehindPercent (2 ≤ ·.length) text →
    old.length + text.length < stringMax → ∀ fuel, text.length < fuel →
    ∃ t, (loop (unescapeRound (pre ++ text ++ 0 :: rest)) fuel pre.length).run s = .ok () t ∧
      Holds t (old ++ decoded text) ∧ t.size ≤ stringMax := by
  induction n using Nat.strong_induction_on with
  | h n ih =>
    intro s old text pre rest hn h hz hnul htwo hmax fuel hf
    obtain ⟨fuel, rfl⟩ : ∃ k, fuel = k + 1 := ⟨fuel - 1, by omega⟩
    cases text with
    | nil =>
      have hround := unescapeRound_stop (s := s) (w := []) pre rest rfl
      exact ⟨s, run_loop_inr hround, by simpa [decoded] using h, hz⟩
    | cons c w =>
      have hc := hnul.head
      have hcut : cText w = w := cText_of_nulFree hnul.tail
      rw [List.length_cons] at hn hmax hf
      by_cases hcode : c = 37 ∧ (scanHex w).isSome
      · obtain ⟨rfl, hcode⟩ := hcode
        obtain ⟨code, hscan⟩ := Option.isSome_iff_exists.mp hcode
        obtain ⟨t, hround, ht, htz⟩ := unescapeRound_code (w := w) pre rest (by rw [hcut]; exact hscan) h hz (by omega)
        have hold := length_append_cText old (toChar code)
        have hlong : 2 ≤ w.length := (behindPercent_cons.mp htwo).1 rfl
        obtain ⟨a, b, u, rfl⟩ : ∃ a b u, w = a :: b :: u := by
          match w with
          | [] => exact absurd hlong (by decide)
          | [_] => exact absurd hlong (by simp)
          | a :: b :: u => exact ⟨a, b, u, rfl⟩
        rw [List.length_cons, List.length_cons] at hn hmax hf
        have htwo' := (behindPercent_cons.mp (behindPercent_cons.mp (behindPercent_cons.mp htwo).2).2).2
        obtain ⟨v, hloop, hv, hvz⟩ := ih u.length (by omega) (pre ++ [37, a, b]) rest rfl ht htz
          hnul.tail.tail.tail htwo' (by omega) fuel (by omega)
        refine ⟨v, ?_, ?_, hvz⟩
        · rw [run_loop_inl hround]
          simpa using hloop
        · rw [decoded_code hscan, ← List.append_assoc]
          exact hv
      · have hp : c = 37 → scanHex w = none := by
          intro hc37
          rw [← Option.not_isSome_iff_eq_none]
          exact fun hs => hcode ⟨hc37, hs⟩
        obtain ⟨t, hround, ht, htz⟩ := unescapeRound_plain (w := w) pre rest hc (by rw [hcut]; exact hp) h hz (by omega)
        obtain ⟨v, hloop, hv, hvz⟩ := ih w.length (by omega) (pre ++ [c]) rest rfl ht htz hnul.tail
          (behindPercent_cons.mp htwo).2 (by rw [List.length_append, List.length_singleton]; omega)
          fuel (by omega)
        refine ⟨v, ?_, ?_, hvz⟩
        · rw [run_loop_inl hround]
          simpa using hloop
        · rw [decoded_cons_plain hp, List.append_cons]
          exact hv

/-- What `str_unescape` writes. An empty source leaves the destination as it is. -/
theorem strUnescape_decoded {dest src : Str} {old : Bytes} (hd : Holds dest old) (hs : Holds src text)
    (hmax : text.length < stringMax) (hnul : NulFree text) (htwo : BehindPercent (2 ≤ ·.length) text) :
    ∃ t, (strUnescape src).run dest = .ok () t ∧ Holds t (if text = [] then old else decoded text) := by
  obtain ⟨buf, hnew, hbuf, hbz⟩ := strNew_holds dest
  obtain ⟨rest, hval, -⟩ := hs.value
  rw [strUnescape, run_bind_ok hnew, hval]
  by_cases hlen : src.len = 0
  · obtain rfl : text = [] := List.length_eq_zero_iff.mp (hs.len.symm.trans hlen)
    rw [if_pos hlen, if_pos rfl]
    exact ⟨dest, rfl, hd⟩
  · have hne : text ≠ [] := by
      rintro rfl
      exact hlen hs.len
    have hbz' : buf.size ≤ stringMax := by
      rw [hbz]
      decide
    obtain ⟨b, hloop, hb, hbz''⟩ := loop_decoded text.length [] rest rfl hbuf hbz' hnul htwo
      (by simpa using hmax) ((text ++ 0 :: rest).length + 1) (by rw [List.length_append]; omega)
    obtain ⟨t, hmove, ht, -⟩ := moveLocal_holds hd hb hbz''
    rw [List.nil_append, List.length_nil] at hloop
    rw [List.nil_append] at ht
    rw [if_neg hlen, if_neg hne, deref_some, run_bind_ret, run_bind_ok (run_onLocal_ok hloop dest)]
    exact ⟨t, hmove, ht⟩

/-- `str_unescape` makes of a text what is meant by it exactly when the text is not empty, or the
destination is, and behind every percent sign that begins no code there is no number. -/
theorem strUnescape_unescapes_iff {dest src : Str} {old : Bytes} (hd : Holds dest old) (hs : Holds src text)
    (hz : src.size ≤ stringMax) (hnul : NulFree text) (htwo : BehindPercent (2 ≤ ·.length) text) :
    (∃ t, (strUnescape src).run dest = .ok () t ∧ Holds t (unescape text)) ↔
      (text = [] → old = []) ∧ BehindPercent Unmistaken text := by
  have hlen := hs.len
  have hlt := hs.len_lt_size
  obtain ⟨t, hrun, ht⟩ := strUnescape_decoded hd hs (by omega) hnul htwo
  have hiff : (∃ t, (strUnescape src).run dest = .ok () t ∧ Holds t (unescape text)) ↔
      (if text = [] then old else decoded text) = unescape text := by
    constructor
    · rintro ⟨u, hu, hheld⟩
      rw [hrun] at hu
      cases hu
      exact ht.unique hheld
    · intro he
      exact ⟨t, hrun, he ▸ ht⟩
  rw [hiff]
  by_cases hempty : text = []
  · subst hempty
    rw [if_pos rfl]
    exact ⟨fun he => ⟨fun _ => he, behindPercent_nil⟩, fun h => h.1 rfl⟩
  · rw [if_neg hempty, decoded_eq_unescape_iff htwo]
    exact ⟨fun h => ⟨fun he => absurd he hempty, h⟩, fun h => h.2⟩

/-- The text `a%41%zz%7e`. -/
def twoCodes : Bytes := [97, 37, 52, 49, 37, 122, 122, 37, 55, 101]

/-- The text `%0xg`. -/
def prefixCode : Bytes := [37, 48, 120, 103]

theorem strUnescape_unescapes_iff_codes :
    (∃ t, (strUnescape (ofText twoCodes).1).run (ofText []).1 = .ok () t ∧
      Holds t [97, 65, 37, 122, 122, 126]) ∧
      ¬ ∃ t, (strUnescape (ofText prefixCode).1).run (ofText []).1 = .ok () t ∧ Holds t prefixCode := by
  constructor
  · exact (strUnescape_unescapes_iff (ofText []).2 (ofText twoCodes).2 (by decide) (by decide) (by decide)).mpr
      ⟨fun _ => rfl, by decide⟩
  · -- `sscanf(3)` takes the prefix for a zero.
    intro h
    obtain ⟨-, hbad⟩ :=
      (strUnescape_unescapes_iff (ofText []).2 (ofText prefixCode).2 (by decide) (by decide) (by decide)).mp h
    exact absurd hbad (by decide)

/-- Of `%4g` the loop keeps one byte. -/
theorem strUnescape_swallows : ∃ t, (strUnescape (ofText [37, 52, 103]).1).run (ofText []).1 = .ok () t ∧
    t.text = [4] ∧ unescape [37, 52, 103] = [37, 52, 103] := by
  refine ⟨_, rfl, ?_, by decide⟩
  decide

end NcString
