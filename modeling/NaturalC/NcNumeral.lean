import NaturalC.NcNumber

/-!
# Numerals and the integers made of them

`numeral` is the mathematical value of the decimal numeral that a text starts with.
`strtol(3)` clamps it to the range of a `long` and `strtoul(3)` reduces it modulo
`2 ^ 64`; the functions of `string.c` then test for the range of 32 bits.
-/
namespace NcString

open Throwing Throwing.Act

/-- The numeral has a minus sign. -/
def minusSign (text : Bytes) : Bool := (text.dropWhile isSpace).head? = some 45

/-- What follows the white space and the sign. -/
def unsigned (text : Bytes) : Bytes :=
  let body := text.dropWhile isSpace
  if body.head? = some 45 ∨ body.head? = some 43 then body.tail else body

/-- The value of the numeral behind the leading white space, if there is one. -/
def numeral (text : Bytes) : Option Int :=
  let digits := (unsigned text).takeWhile isDigit
  if digits = [] then none
  else some (if minusSign text then -digitsValue digits else digitsValue digits)

/-- What follows the numeral. -/
def numeralRest (text : Bytes) : Bytes := (unsigned text).dropWhile isDigit

/-- What `strtol(3)` reads. -/
structure Strtol where
  value : Int
  erange : Bool

/-- `strtol(3)` in base ten: without a numeral the value is zero, and a numeral that no `long` can
hold gives the nearest one that exists. -/
def strtol (text : Bytes) : Strtol :=
  match numeral text with
  | none => ⟨0, false⟩
  | some z =>
    if z > 2 ^ 63 - 1 then ⟨2 ^ 63 - 1, true⟩
    else if z < -2 ^ 63 then ⟨-2 ^ 63, true⟩
    else ⟨z, false⟩

def intMax : Int := 2 ^ 31 - 1

def int32Max : Int := 2 ^ 31 - 1

/-- The conversion of a `long` to 32 bits. -/
def toInt32 (l : Int) : Int := l.bmod (2 ^ 32)

/-- The common text of `str_to_int` and `str_to_int32`. -/
def strToSigned {σ : Type} (max : Int) (src : Str) : Act σ Int := do
  let mem ← deref src.value
  let text ← deref (cString mem)
  let l := strtol text
  if l.erange then throwing
  else if l.value > max then throwing
  else pure (toInt32 l.value)

def strToInt {σ : Type} (src : Str) : Act σ Int := strToSigned intMax src

def strToInt32 {σ : Type} (src : Str) : Act σ Int := strToSigned int32Max src

variable {σ : Type}

theorem strToSigned_run {s : Str} {text : Bytes} (hs : Holds s text) (max : Int) (st : σ) :
    (strToSigned max s).run st =
      if (strtol (cText text)).erange ∨ (strtol (cText text)).value > max then .thrown st
      else .ok (toInt32 (strtol (cText text)).value) st := by
  obtain ⟨rest, hv, -⟩ := hs.value
  simp only [strToSigned, hv, deref_some, run_bind_ret, cString_cText]
  by_cases he : (strtol (cText text)).erange = true
  · rw [if_pos he, if_pos (.inl he)]
    rfl
  · by_cases hm : (strtol (cText text)).value > max
    · rw [if_neg he, if_pos hm, if_pos (.inr hm)]
      rfl
    · rw [if_neg he, if_neg hm, if_neg (not_or.mpr ⟨he, hm⟩)]
      rfl

theorem strtol_none {text : Bytes} (h : numeral text = none) : strtol text = ⟨0, false⟩ := by
  rw [strtol, h]

theorem strtol_above {text : Bytes} {z : Int} (h : numeral text = some z) (hz : 2 ^ 63 ≤ z) :
    strtol text = ⟨2 ^ 63 - 1, true⟩ := by
  simp only [strtol, h]
  rw [if_pos (by omega)]

theorem strtol_below {text : Bytes} {z : Int} (h : numeral text = some z) (hz : z < -2 ^ 63) :
    strtol text = ⟨-2 ^ 63, true⟩ := by
  simp only [strtol, h]
  rw [if_neg (by omega), if_pos hz]

theorem strtol_exact {text : Bytes} {z : Int} (h : numeral text = some z) (hlow : -2 ^ 63 ≤ z)
    (hhigh : z < 2 ^ 63) : strtol text = ⟨z, false⟩ := by
  simp only [strtol, h]
  rw [if_neg (by omega), if_neg (by omega)]

theorem strToSigned_none {s : Str} {text : Bytes} (hs : Holds s text)
    (hz : numeral (cText text) = none) (st : σ) : (strToSigned (2 ^ 31 - 1) s).run st = .ok 0 st := by
  rw [strToSigned_run hs, strtol_none hz]
  rfl

/-- The only bounds are those of `strtol(3)` and the one above. -/
theorem strToSigned_some {s : Str} {text : Bytes} (hs : Holds s text) {z : Int}
    (hz : numeral (cText text) = some z) (st : σ) :
    (strToSigned (2 ^ 31 - 1) s).run st =
      if z < -2 ^ 63 ∨ 2 ^ 31 ≤ z then .thrown st else .ok (toInt32 z) st := by
  rw [strToSigned_run hs]
  by_cases habove : 2 ^ 63 ≤ z
  · rw [strtol_above hz habove, if_pos (.inl rfl), if_pos (.inr (by omega))]
  · by_cases hbelow : z < -2 ^ 63
    · rw [strtol_below hz hbelow, if_pos (.inl rfl), if_pos (.inl hbelow)]
    · rw [strtol_exact hz (by omega) (by omega)]
      refine if_congr ?_ rfl rfl
      simp only [Bool.false_eq_true, false_or]
      omega

/-- A value that fits is kept; any other one becomes a value that fits. -/
theorem toInt32_eq_iff (l : Int) : toInt32 l = l ↔ -2 ^ 31 ≤ l ∧ l < 2 ^ 31 := by
  rw [toInt32, Int.bmod_def]
  split <;> omega

/-- Whatever is stored is what `strtol` has returned, and a numeral outside of the range of 32
bits is rejected. -/
def Exact (convert : Str → Act Unit Int) (s : Str) (text : Bytes) : Prop :=
  (∀ v, (convert s).run () = .ok v () → v = (strtol (cText text)).value) ∧
  ∀ z, numeral (cText text) = some z → z < -2 ^ 31 ∨ 2 ^ 31 ≤ z → (convert s).run () = .thrown ()

/-- The numeral is below the range of 32 bits but not below that of a `long`. -/
def Underflows (text : Bytes) : Prop := ∃ z, numeral (cText text) = some z ∧ -2 ^ 63 ≤ z ∧ z < -2 ^ 31

theorem not_exact {s : Str} {text : Bytes} (hs : Holds s text) (hunder : Underflows text) :
    ¬ Exact (strToSigned (2 ^ 31 - 1)) s text := by
  rintro ⟨-, hreject⟩
  obtain ⟨z, hz, hlow, hhigh⟩ := hunder
  have hthrown := hreject z hz (.inl hhigh)
  rw [strToSigned_some hs hz, if_neg (by omega)] at hthrown
  cases hthrown

theorem exact_of_not_underflows {s : Str} {text : Bytes} (hs : Holds s text)
    (hunder : ¬ Underflows text) : Exact (strToSigned (2 ^ 31 - 1)) s text := by
  constructor
  · intro v hv
    cases hz : numeral (cText text) with
    | none =>
      rw [strToSigned_none hs hz] at hv
      rw [strtol_none hz]
      cases hv
      rfl
    | some z =>
      have hin : ¬ (-2 ^ 63 ≤ z ∧ z < -2 ^ 31) := fun hb => hunder ⟨z, hz, hb⟩
      rw [strToSigned_some hs hz] at hv
      split at hv
      · cases hv
      · cases hv
        rw [strtol_exact hz (by omega) (by omega)]
        exact (toInt32_eq_iff z).mpr (by omega)
  · intro z hz hout
    have hin : ¬ (-2 ^ 63 ≤ z ∧ z < -2 ^ 31) := fun hb => hunder ⟨z, hz, hb⟩
    rw [strToSigned_some hs hz, if_pos (by omega)]

/-- Both conversions test for the upper bound only: they are exact unless the numeral is too small
for 32 bits and yet a `long`, and there they store its value modulo `2 ^ 32`. -/
theorem str_to_int_exact_iff {s : Str} {text : Bytes} (hs : Holds s text) :
    (Exact strToInt s text ↔ ¬ Underflows text) ∧ (Exact strToInt32 s text ↔ ¬ Underflows text) := by
  have hboth : Exact (strToSigned (2 ^ 31 - 1)) s text ↔ ¬ Underflows text :=
    ⟨fun he hu => not_exact hs hu he, exact_of_not_underflows hs⟩
  exact ⟨hboth, hboth⟩

/-- The numeral -2147483649. -/
def belowInt : Bytes := [45, 50, 49, 52, 55, 52, 56, 51, 54, 52, 57]

theorem str_to_int_wraps :
    (strtol belowInt).value = -2147483649 ∧
      (strToInt (ofText belowInt).1).run () = .ok 2147483647 () ∧
      (strToInt32 (ofText belowInt).1).run () = .ok 2147483647 () ∧
      ¬ Exact strToInt (ofText belowInt).1 belowInt ∧ ¬ Exact strToInt32 (ofText belowInt).1 belowInt := by
  have hvalue : (strtol (cText belowInt)).value = -2147483649 := by decide +kernel
  have hint : (strToInt (ofText belowInt).1).run () = .ok 2147483647 () := by decide +kernel
  have hint32 : (strToInt32 (ofText belowInt).1).run () = .ok 2147483647 () := by decide +kernel
  refine ⟨by decide +kernel, hint, hint32, fun he => ?_, fun he => ?_⟩
  · exact absurd ((he.1 _ hint).trans hvalue) (by decide)
  · exact absurd ((he.1 _ hint32).trans hvalue) (by decide)

theorem str_to_int_exact_iff_36 : Exact strToInt (ofText [45, 51, 54]).1 [45, 51, 54] := by
  apply (str_to_int_exact_iff (ofText [45, 51, 54]).2).1.mpr
  rintro ⟨z, hz, -, hlow⟩
  have h36 : numeral (cText (ofText [45, 51, 54]).1.text) = some (-36) := by decide
  rw [h36] at hz
  cases hz
  exact absurd hlow (by decide)

/-- `strtoul(3)` by the parts of the numeral. -/
theorem strtoul_eq (text : Bytes) : strtoul text =
    if (unsigned text).takeWhile isDigit = [] then ⟨0, text, false⟩
    else if 2 ^ 64 ≤ digitsValue ((unsigned text).takeWhile isDigit) then
      ⟨2 ^ 64 - 1, numeralRest text, true⟩
    else ⟨if minusSign text then (2 ^ 64 - digitsValue ((unsigned text).takeWhile isDigit)) % 2 ^ 64
      else digitsValue ((unsigned text).takeWhile isDigit), numeralRest text, false⟩ := by
  simp only [minusSign, decide_eq_true_eq]
  rfl

theorem strtoul_none {text : Bytes} (hz : numeral text = none) : strtoul text = ⟨0, text, false⟩ := by
  have hdigits : (unsigned text).takeWhile isDigit = [] := by
    by_contra hne
    rw [numeral, if_neg hne] at hz
    cases hz
  rw [strtoul_eq, if_pos hdigits]

/-- The negation of `strtoul(3)` is a remainder. -/
theorem strtoul_some {text : Bytes} {z : Int} (hz : numeral text = some z) :
    strtoul text = if 2 ^ 64 ≤ z.natAbs then ⟨2 ^ 64 - 1, numeralRest text, true⟩
      else ⟨(z % 2 ^ 64).toNat, numeralRest text, false⟩ := by
  have hdigits : (unsigned text).takeWhile isDigit ≠ [] := by
    intro he
    rw [numeral, if_pos he] at hz
    cases hz
  rw [numeral, if_neg hdigits] at hz
  rw [strtoul_eq, if_neg hdigits]
  generalize digitsValue ((unsigned text).takeWhile isDigit) = n at hz ⊢
  have habs : z.natAbs = n := by
    rw [← Option.some.inj hz]
    split
    · rw [Int.natAbs_neg, Int.natAbs_natCast]
    · rw [Int.natAbs_natCast]
  rw [habs]
  by_cases hbig : 2 ^ 64 ≤ n
  · rw [if_pos hbig, if_pos hbig]
  · have hvalue : (if minusSign text then (2 ^ 64 - n) % 2 ^ 64 else n) = (z % 2 ^ 64).toNat := by
      rw [← Option.some.inj hz]
      split
      · omega
      · omega
    rw [if_neg hbig, if_neg hbig, hvalue]

theorem strToUint32_none {s : Str} {text : Bytes} (hs : Holds s text)
    (hz : numeral (cText text) = none) (st : σ) : (strToUint32 s).run st = .thrown st := by
  obtain ⟨rest, hv, -⟩ := hs.value
  have hulong : (strToUlong s : Act σ Nat).run st = .thrown st := by
    simp only [strToUlong, hv, deref_some, run_bind_ret, cString_cText, strtoul_none hz]
    rw [if_pos (Decidable.em _)]
    rfl
  rw [strToUint32, run_bind_thrown hulong]

theorem strToUint32_some {s : Str} {text : Bytes} (hs : Holds s text) {z : Int}
    (hz : numeral (cText text) = some z) (st : σ) :
    (strToUint32 s).run st =
      if numeralRest (cText text) = [] ∧ z.natAbs < 2 ^ 64 ∧ z % 2 ^ 64 < 2 ^ 32 then
        .ok (z % 2 ^ 64).toNat st else .thrown st := by
  obtain ⟨rest, hv, -⟩ := hs.value
  have hne : cText text ≠ [] := by
    intro he
    rw [he, show numeral [] = none from rfl] at hz
    cases hz
  have hulong : (strToUlong s : Act σ Nat).run st =
      if numeralRest (cText text) = [] ∧ z.natAbs < 2 ^ 64 then .ok (z % 2 ^ 64).toNat st
      else .thrown st := by
    simp only [strToUlong, hv, deref_some, run_bind_ret, cString_cText, strtoul_some hz]
    by_cases hrest : numeralRest (cText text) = []
    · by_cases hbig : 2 ^ 64 ≤ z.natAbs
      · rw [if_pos hbig, if_neg (by simp [hne, hrest]), if_pos ⟨rfl, rfl⟩, if_neg (by omega)]
        rfl
      · rw [if_neg hbig, if_neg (by simp [hne, hrest]), if_neg (by simp), if_pos ⟨hrest, by omega⟩]
        rfl
    · rw [if_neg (c := numeralRest (cText text) = [] ∧ z.natAbs < 2 ^ 64) (fun hc => hrest hc.1)]
      split <;> rw [if_pos (.inr hrest)] <;> rfl
  by_cases hok : numeralRest (cText text) = [] ∧ z.natAbs < 2 ^ 64
  · rw [if_pos hok] at hulong
    rw [strToUint32, run_bind_ok hulong]
    by_cases hlow : z % 2 ^ 64 < 2 ^ 32
    · rw [if_neg (by omega), if_pos ⟨hok.1, hok.2, hlow⟩]
      rfl
    · rw [if_pos (by omega), if_neg (fun hc => hlow hc.2.2)]
      rfl
  · rw [if_neg hok] at hulong
    rw [strToUint32, run_bind_thrown hulong, if_neg (fun hc => hok ⟨hc.1, hc.2.1⟩)]

/-- Whatever is stored is the value of the whole text as a numeral, and fits 32 bits. -/
def Unsigned32 (s : Str) (text : Bytes) : Prop :=
  ∀ v, (strToUint32 s).run () = .ok v () →
    numeral text = some (v : Int) ∧ numeralRest text = [] ∧ v < 2 ^ 32

/-- The text, as far as its first NUL, is a numeral just above `-2 ^ 64`. -/
def WrapsAround (text : Bytes) : Prop :=
  ∃ z, numeral (cText text) = some z ∧ numeralRest (cText text) = [] ∧ -2 ^ 64 < z ∧ z < -2 ^ 64 + 2 ^ 32

/-- The text goes on behind a NUL, in front of which stands a numeral that fits. -/
def HidesRest (text : Bytes) : Prop :=
  ¬ NulFree text ∧
    ∃ z, numeral (cText text) = some z ∧ numeralRest (cText text) = [] ∧ 0 ≤ z ∧ z < 2 ^ 32

/-- White space, a sign and digits have no NUL among them. -/
theorem nulFree_of_numeralRest {text : Bytes} (h : numeralRest text = []) : NulFree text := by
  intro h0
  have hdigits : 0 ∉ unsigned text := by
    intro hin
    exact absurd (List.dropWhile_eq_nil_iff.mp h 0 hin) (by decide)
  rw [← List.takeWhile_append_dropWhile (p := isSpace) (l := text)] at h0
  rcases List.mem_append.mp h0 with hspace | hbody
  · exact absurd (List.mem_takeWhile_imp hspace) (by decide)
  · rw [unsigned] at hdigits
    generalize text.dropWhile isSpace = body at hbody hdigits
    split at hdigits
    · rename_i hsign
      cases body with
      | nil => cases hbody
      | cons b body =>
        rcases List.mem_cons.mp hbody with rfl | hin
        · simp at hsign
        · exact hdigits hin
    · exact hdigits hbody

/-- `str_to_uint32` accepts nothing but numerals that fit, except negative ones that `strtoul(3)`
turns into numbers below `2 ^ 32`, and whatever stands behind a NUL. -/
theorem str_to_uint32_exact_iff {s : Str} {text : Bytes} (hs : Holds s text) :
    Unsigned32 s text ↔ ¬ WrapsAround text ∧ ¬ HidesRest text := by
  constructor
  · intro hu
    constructor
    · rintro ⟨z, hz, hrest, hlow, hhigh⟩
      have hrun := strToUint32_some hs hz ()
      rw [if_pos ⟨hrest, by omega, by omega⟩] at hrun
      obtain ⟨hv, hall, -⟩ := hu _ hrun
      rw [cText_of_nulFree (nulFree_of_numeralRest hall), hv, Option.some.injEq] at hz
      omega
    · rintro ⟨hnul, z, hz, hrest, hlow, hhigh⟩
      have hrun := strToUint32_some hs hz ()
      rw [if_pos ⟨hrest, by omega, by omega⟩] at hrun
      exact hnul (nulFree_of_numeralRest (hu _ hrun).2.1)
  · rintro ⟨hwrap, hhide⟩ v hv
    cases hz : numeral (cText text) with
    | none =>
      rw [strToUint32_none hs hz] at hv
      cases hv
    | some z =>
      rw [strToUint32_some hs hz] at hv
      split at hv
      · rename_i hok
        obtain ⟨hrest, habs, hmod⟩ := hok
        have hnonneg : 0 ≤ z := by
          by_contra hneg
          exact hwrap ⟨z, hz, hrest, by omega, by omega⟩
        have hfits : z < 2 ^ 32 := by omega
        have hfree : NulFree text := by
          by_contra hnul
          exact hhide ⟨hnul, z, hz, hrest, hnonneg, hfits⟩
        rw [cText_of_nulFree hfree] at hz hrest
        cases hv
        refine ⟨?_, hrest, by omega⟩
        rw [hz, Option.some.injEq]
        omega
      · cases hv

/-- The numeral -18446744073709551615, which is `1 - 2 ^ 64`. -/
def wrapsToOne : Bytes := 45 :: printUnsigned (2 ^ 64 - 1)

theorem str_to_uint32_accepts_negative :
    numeral wrapsToOne = some (-18446744073709551615) ∧
      (strToUint32 (ofText wrapsToOne).1).run () = .ok 1 () ∧
      ¬ Unsigned32 (ofText wrapsToOne).1 wrapsToOne := by
  have hvalue : numeral wrapsToOne = some (-18446744073709551615) := by decide +kernel
  have hrun : (strToUint32 (ofText wrapsToOne).1).run () = .ok 1 () := by decide +kernel
  refine ⟨hvalue, hrun, fun hu => ?_⟩
  have hone := (hu 1 hrun).1
  rw [hvalue] at hone
  exact absurd hone (by decide)

theorem str_to_uint32_exact_iff_7 : Unsigned32 (ofText [32, 55]).1 [32, 55] := by
  refine (str_to_uint32_exact_iff (ofText [32, 55]).2).mpr ⟨?_, fun hhide => hhide.1 (by decide)⟩
  rintro ⟨z, hz, -, -, hhigh⟩
  have h7 : numeral (cText (ofText [32, 55]).1.text) = some 7 := by decide
  rw [h7] at hz
  cases hz
  exact absurd hhigh (by decide)

end NcString
