import Mathlib.Data.Nat.Digits.Lemmas
import NaturalC.NcEscape

/-!
# Numbers as text

What `printf(3)` makes of an unsigned number with `%u`, and `str_to_ulong` and
`str_to_uint32`, which read one with `strtoul(3)` in base ten.
-/
namespace NcString

open Throwing Throwing.Act

def isDigit (c : UInt8) : Bool := 48 ≤ c && c ≤ 57

/-- What `%u` prints. -/
def printUnsigned (n : Nat) : Bytes :=
  if n = 0 then [48] else (Nat.digits 10 n).reverse.map fun d => UInt8.ofNat (48 + d)

def digitsValue (ds : Bytes) : Nat := ds.foldl (fun n d => 10 * n + (d.toNat - 48)) 0

/-- What `strtoul(3)` reads. -/
structure Strtoul where
  value : Nat
  /-- The text that `endptr` points at. -/
  rest : Bytes
  erange : Bool

/-- `strtoul(3)` in base ten. Without any digit the whole text is left over; a number with a minus
sign is negated as an unsigned one. -/
def strtoul (text : Bytes) : Strtoul :=
  let body := text.dropWhile isSpace
  let signed := body.head? = some 45 ∨ body.head? = some 43
  let digits := if signed then body.tail else body
  let n := digitsValue (digits.takeWhile isDigit)
  if digits.takeWhile isDigit = [] then ⟨0, text, false⟩
  else if n ≥ 2 ^ 64 then ⟨2 ^ 64 - 1, digits.dropWhile isDigit, true⟩
  else ⟨if body.head? = some 45 then (2 ^ 64 - n) % 2 ^ 64 else n, digits.dropWhile isDigit, false⟩

def strToUlong {σ : Type} (src : Str) : Act σ Nat := do
  let mem ← deref src.value
  let text ← deref (cString mem)
  let r := strtoul text
  if text = [] ∨ r.rest ≠ [] then throwing
  else if r.erange ∧ r.value = 2 ^ 64 - 1 then throwing
  else pure r.value

def strToUint32 {σ : Type} (src : Str) : Act σ Nat := do
  let ul ← strToUlong src
  if ul > 2 ^ 32 - 1 then throwing else pure ul

theorem toNat_digit {d : Nat} (hd : d < 10) : (UInt8.ofNat (48 + d)).toNat = 48 + d := by
  rw [UInt8.toNat_ofNat']
  exact Nat.mod_eq_of_lt (by omega)

theorem isDigit_printUnsigned {n : Nat} : ∀ c ∈ printUnsigned n, isDigit c = true := by
  intro c hc
  rw [printUnsigned] at hc
  split at hc
  · rw [List.mem_singleton.mp hc]
    rfl
  · obtain ⟨d, hd, rfl⟩ := List.mem_map.mp hc
    have hlt : d < 10 := Nat.digits_lt_base (by decide) (List.mem_reverse.mp hd)
    have hdigit : ∀ d < 10, isDigit (UInt8.ofNat (48 + d)) = true := by decide
    exact hdigit d hlt

theorem printUnsigned_ne_nil (n : Nat) : printUnsigned n ≠ [] := by
  rw [printUnsigned]
  split
  · simp
  · rename_i hn
    simpa using Nat.digits_ne_nil_iff_ne_zero.mpr hn

theorem length_printUnsigned {n k : Nat} (hk : 0 < k) (hn : n < 10 ^ k) : (printUnsigned n).length ≤ k := by
  rw [printUnsigned]
  split
  · exact hk
  · rw [List.length_map, List.length_reverse, Nat.digits_length_le_iff (by decide)]
    exact hn

/-- Reading the digits back gives the number. -/
theorem digitsValue_printUnsigned (n : Nat) : digitsValue (printUnsigned n) = n := by
  rw [printUnsigned]
  split
  · rename_i hn
    rw [hn]
    rfl
  · have hread : ∀ ds : List Nat, (∀ d ∈ ds, d < 10) →
        digitsValue (ds.reverse.map fun d => UInt8.ofNat (48 + d)) = Nat.ofDigits 10 ds := by
      intro ds hds
      induction ds with
      | nil => rfl
      | cons d ds ih =>
        have hd : (UInt8.ofNat (48 + d)).toNat = 48 + d := toNat_digit (hds d (by simp))
        have ih := ih fun e he => hds e (List.mem_cons_of_mem _ he)
        rw [digitsValue] at ih ⊢
        rw [List.reverse_cons, List.map_append, List.foldl_append, ih, Nat.ofDigits_cons]
        simp only [List.map_cons, List.map_nil, List.foldl_cons, List.foldl_nil, hd]
        simp
        omega
    rw [hread _ fun d hd => Nat.digits_lt_base (by decide) hd, Nat.ofDigits_digits]

/-- A digit is neither white space nor a sign. -/
theorem isDigit_start {d : UInt8} (hd : isDigit d = true) : isSpace d = false ∧ d ≠ 45 ∧ d ≠ 43 := by
  simp only [isDigit, Bool.and_eq_true, decide_eq_true_eq, UInt8.le_iff_toNat_le, UInt8.reduceToNat] at hd
  refine ⟨?_, ?_, ?_⟩
  · simp only [isSpace, Bool.or_eq_false_iff, beq_eq_false_iff_ne, ne_eq, Bool.and_eq_false_iff,
      decide_eq_false_iff_not, UInt8.le_iff_toNat_le, UInt8.reduceToNat]
    refine ⟨?_, .inr (by omega)⟩
    rintro rfl
    simp at hd
  · rintro rfl
    simp at hd
  · rintro rfl
    simp at hd

theorem strtoul_printUnsigned {n : Nat} (hn : n < 2 ^ 64) : strtoul (printUnsigned n) = ⟨n, [], false⟩ := by
  have hdigit := @isDigit_printUnsigned n
  have hvalue := digitsValue_printUnsigned n
  have hne := printUnsigned_ne_nil n
  generalize printUnsigned n = ds at *
  -- The first character is a digit, so nothing is skipped and there is no sign.
  obtain ⟨d, ds', rfl⟩ := List.exists_cons_of_ne_nil hne
  have hd : isDigit d = true := hdigit d (by simp)
  have hfirst := isDigit_start hd
  have htake : (d :: ds').takeWhile isDigit = d :: ds' := List.takeWhile_eq_self_iff.mpr hdigit
  have hdrop : (d :: ds').dropWhile isDigit = [] := List.dropWhile_eq_nil_iff.mpr hdigit
  simp only [strtoul, List.dropWhile_cons, hfirst.1, List.head?_cons, Option.some.injEq, hfirst.2.1,
    hfirst.2.2, or_self, if_false, Bool.false_eq_true]
  rw [htake, hvalue, if_neg hne, if_neg (by omega)]
  rw [List.dropWhile_cons] at hdrop
  rw [hdrop]

/-- `str_to_uint32` reads what `%u` has printed. -/
theorem strToUint32_print {σ : Type} {s : Str} {n : Nat} (hs : Holds s (printUnsigned n))
    (hn : n < 2 ^ 32) (st : σ) : (strToUint32 s).run st = .ok n st := by
  obtain ⟨rest, hv, -⟩ := hs.value
  have hnul : NulFree (printUnsigned n) := by
    intro h0
    exact absurd (isDigit_printUnsigned 0 h0) (by decide)
  have hulong : (strToUlong s : Act σ Nat).run st = .ok n st := by
    simp only [strToUlong, hv, deref_some, run_bind_ret, cString_append _ rest hnul]
    rw [strtoul_printUnsigned (by omega)]
    simp [printUnsigned_ne_nil]
  rw [strToUint32, run_bind_ok hulong, if_neg (by omega)]
  rfl

end NcString
