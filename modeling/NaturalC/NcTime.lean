import NaturalC.NcNumeral
import NaturalC.NcRegex

/-!
# Times with a zone

`str_to_time` cuts a time string into the date with the time of day, the hours of the zone
and its minutes. `strptime(3)` and `mktime(3)` turn the first part into seconds.
-/
namespace NcTime

open Throwing Throwing.Act NcString Posix

/-- `atoi(3)`. -/
def atoi (text : Bytes) : Int := toInt32 (strtol text).value

def isLetter (c : UInt8) : Bool := 65 ≤ c && c ≤ 90 || 97 ≤ c && c ≤ 122

def isSign (c : UInt8) : Bool := c == 43 || c == 45

/-- `" [A-Za-z]{3} [0-9]{4} [0-9]{2}:[0-9]{2}:[0-9]{2}"`, class by class. -/
def monthToSecond : List (UInt8 → Bool) :=
  [(· == 32), isLetter, isLetter, isLetter, (· == 32), isDigit, isDigit, isDigit, isDigit, (· == 32),
    isDigit, isDigit, (· == 58), isDigit, isDigit, (· == 58), isDigit, isDigit]

/-- A space and the zone, `" ([+-][0-9][0-9])([0-9][0-9])"`. -/
def zoneExpr : Ere UInt8 :=
  .seq (.cls (· == 32)) (.seq (.group (.word isSign [isDigit, isDigit])) (.group (.word isDigit [isDigit])))

/-- The expression for a time string, with one digit for the day and with two. -/
def timeString : List (Ere UInt8) :=
  [.seq (.group (.word isDigit monthToSecond)) zoneExpr,
    .seq (.group (.word isDigit (isDigit :: monthToSecond))) zoneExpr]

/-- The text of a string object as `char *`. -/
def charsOf {σ : Type} (s : Str) : Act σ Bytes := do
  let mem ← deref s.value
  deref (cString mem)

/-- The adjustment that `str_to_time` computes, in seconds. -/
def adjustment (hours mins : Bytes) : Int :=
  let offset := atoi hours * 60 * 60
  if offset < 0 then offset - atoi mins * 60 else offset + atoi mins * 60

/-- `str_to_time`. The adjustment is computed last and used for nothing. -/
def strToTime {σ Tm : Type} (strptime : Bytes → Option Tm) (mktime : Tm → Int) (src : Str) : Act σ Int := do
  let buf ← strNew true true
  let offsetHours ← strNew true true
  let offsetMins ← strNew true true
  match ← attempt (strStrRegexBy (regexecWhole timeString) src [buf, offsetHours, offsetMins]) with
  | some [buf, offsetHours, offsetMins] => do
    let text ← charsOf buf
    match strptime text with
    | none => throwing
    | some result => do
      let dest := mktime result
      let hours ← charsOf offsetHours
      let mins ← charsOf offsetMins
      let _offset := adjustment hours mins
      pure dest
  | _ => throwing

/-! ## Well-formed time strings -/

/-- `D Mon YYYY HH:MM:SS`. -/
def IsDate (d : Bytes) : Prop :=
  List.Forall₂ (fun p c => p c = true) (isDigit :: monthToSecond) d ∨
    List.Forall₂ (fun p c => p c = true) (isDigit :: isDigit :: monthToSecond) d

structure Zone where
  minus : Bool
  hours : Fin 100
  mins : Fin 100

def twoDigits (n : Fin 100) : Bytes := [UInt8.ofNat (48 + n / 10), UInt8.ofNat (48 + n % 10)]

def Zone.sign (z : Zone) : UInt8 := if z.minus then 45 else 43

/-- `+hhmm` or `-hhmm`. -/
def Zone.text (z : Zone) : Bytes := z.sign :: (twoDigits z.hours ++ twoDigits z.mins)

/-- The seconds by which the zone is ahead. -/
def Zone.offset (z : Zone) : Int :=
  if z.minus then -(3600 * z.hours + 60 * z.mins : Int) else 3600 * z.hours + 60 * z.mins

def timeText (d : Bytes) (z : Zone) : Bytes := d ++ 32 :: z.text

theorem Zone.isSign_sign (z : Zone) : isSign z.sign = true := by
  rw [Zone.sign]
  split <;> rfl

theorem twoDigits_digits (n : Fin 100) :
    List.Forall₂ (fun p c => p c = true) [isDigit, isDigit] (twoDigits n) := by
  have hdigit : ∀ d < 10, isDigit (UInt8.ofNat (48 + d)) = true := by decide
  exact .cons (hdigit _ (by omega)) (.cons (hdigit _ (by omega)) .nil)

theorem mem_parses_zone {i : Nat} {s : Bytes} {x : Parse UInt8} : x ∈ parses zoneExpr i s ↔
    ∃ hs ms t, s = 32 :: (hs ++ (ms ++ t)) ∧
      List.Forall₂ (fun p c => p c = true) [isSign, isDigit, isDigit] hs ∧
      List.Forall₂ (fun p c => p c = true) [isDigit, isDigit] ms ∧
      x = ⟨i + 6, t, [(i + 1, i + 4), (i + 4, i + 6)]⟩ := by
  rw [zoneExpr, mem_parses_seq]
  constructor
  · rintro ⟨y₁, hy₁, z₁, hz₁, rfl⟩
    obtain ⟨c, t₁, rfl, hc, rfl⟩ := mem_parses_cls.mp hy₁
    obtain ⟨y₂, hy₂, z₂, hz₂, rfl⟩ := mem_parses_seq.mp hz₁
    obtain ⟨y₃, hy₃, rfl⟩ := mem_parses_group.mp hy₂
    obtain ⟨hs, t₂, rfl, hhs, rfl⟩ := mem_parses_word.mp hy₃
    obtain ⟨y₄, hy₄, rfl⟩ := mem_parses_group.mp hz₂
    obtain ⟨ms, t₃, rfl, hms, rfl⟩ := mem_parses_word.mp hy₄
    obtain rfl : c = 32 := by simpa using hc
    have hhl := hhs.length_eq
    have hml := hms.length_eq
    refine ⟨hs, ms, t₃, rfl, hhs, hms, ?_⟩
    simp only [← hhl, ← hml, List.length_cons, List.length_nil, List.nil_append, List.cons_append]
  · rintro ⟨hs, ms, t, rfl, hhs, hms, rfl⟩
    have hhl := hhs.length_eq
    have hml := hms.length_eq
    refine ⟨_, mem_parses_cls.mpr ⟨32, _, rfl, rfl, rfl⟩, _, mem_parses_seq.mpr ⟨_, mem_parses_group.mpr
      ⟨_, mem_parses_word.mpr ⟨hs, _, rfl, hhs, rfl⟩, rfl⟩, _, mem_parses_group.mpr
      ⟨_, mem_parses_word.mpr ⟨ms, t, rfl, hms, rfl⟩, rfl⟩, rfl⟩, ?_⟩
    simp only [← hhl, ← hml, List.length_cons, List.length_nil, List.nil_append, List.cons_append]

theorem mem_parses_dated {p : UInt8 → Bool} {ps : List (UInt8 → Bool)} {s : Bytes} {x : Parse UInt8} :
    x ∈ parses (.seq (.group (.word p ps)) zoneExpr) 0 s ↔
    ∃ d hs ms t, s = d ++ 32 :: (hs ++ (ms ++ t)) ∧ List.Forall₂ (fun p c => p c = true) (p :: ps) d ∧
      List.Forall₂ (fun p c => p c = true) [isSign, isDigit, isDigit] hs ∧
      List.Forall₂ (fun p c => p c = true) [isDigit, isDigit] ms ∧
      x = ⟨d.length + 6, t, [(0, d.length), (d.length + 1, d.length + 4), (d.length + 4, d.length + 6)]⟩ := by
  rw [mem_parses_seq]
  constructor
  · rintro ⟨y, hy, z, hz, rfl⟩
    obtain ⟨y', hy', rfl⟩ := mem_parses_group.mp hy
    obtain ⟨d, t, rfl, hd, rfl⟩ := mem_parses_word.mp hy'
    obtain ⟨hs, ms, t', rfl, hhs, hms, rfl⟩ := mem_parses_zone.mp hz
    refine ⟨d, hs, ms, t', rfl, hd, hhs, hms, ?_⟩
    simp only [Nat.zero_add, List.cons_append, List.nil_append]
  · rintro ⟨d, hs, ms, t, rfl, hd, hhs, hms, rfl⟩
    refine ⟨_, mem_parses_group.mpr ⟨_, mem_parses_word.mpr ⟨d, _, rfl, hd, rfl⟩, rfl⟩, _,
      mem_parses_zone.mpr ⟨hs, ms, t, rfl, hhs, hms, rfl⟩, ?_⟩
    simp only [Nat.zero_add, List.cons_append, List.nil_append]

variable {d : Bytes} {z : Zone}

theorem length_timeText (d : Bytes) (z : Zone) : (timeText d z).length = d.length + 6 := by
  simp only [timeText, Zone.text, twoDigits, List.length_append, List.length_cons, List.length_nil]

/-- The groups of a well-formed time string: the date, and the two parts of the zone. -/
theorem regexec_timeText (hd : IsDate d) (z : Zone) :
    regexecWhole timeString (timeText d z) = some [(0, d.length + 6), (0, d.length),
      (d.length + 1, d.length + 4), (d.length + 4, d.length + 6)] := by
  have hzone : ∀ {p ps}, List.Forall₂ (fun p c => p c = true) (p :: ps) d →
      (⟨d.length + 6, [], [(0, d.length), (d.length + 1, d.length + 4), (d.length + 4, d.length + 6)]⟩ :
        Parse UInt8) ∈ parses (.seq (.group (.word p ps)) zoneExpr) 0 (timeText d z) := by
    intro p ps hps
    refine mem_parses_dated.mpr ⟨d, z.sign :: twoDigits z.hours, twoDigits z.mins, [], ?_, hps,
      .cons z.isSign_sign (twoDigits_digits z.hours), twoDigits_digits z.mins, rfl⟩
    simp [timeText, Zone.text]
  have hsome : (⟨d.length + 6, [], [(0, d.length), (d.length + 1, d.length + 4), (d.length + 4, d.length + 6)]⟩ :
      Parse UInt8) ∈ parsesToEnd timeString 0 (timeText d z) := by
    refine mem_parsesToEnd.mpr ⟨?_, rfl⟩
    rcases hd with hone | htwo
    · exact ⟨_, List.mem_cons_self, hzone hone⟩
    · exact ⟨_, List.mem_cons_of_mem _ (List.mem_singleton_self _), hzone htwo⟩
  rw [← length_timeText d z]
  apply regexecWhole_unique hsome
  · intro y hy
    obtain ⟨⟨r, hr, hy⟩, hrest⟩ := mem_parsesToEnd.mp hy
    have hform : ∃ d' hs ms, timeText d z = d' ++ 32 :: (hs ++ ms) ∧ hs.length = 3 ∧ ms.length = 2 ∧
        y.stop = d'.length + 6 ∧
        y.groups = [(0, d'.length), (d'.length + 1, d'.length + 4), (d'.length + 4, d'.length + 6)] := by
      rcases List.mem_cons.mp hr with rfl | hr
      · obtain ⟨d', hs, ms, t, heq, -, hhs, hms, rfl⟩ := mem_parses_dated.mp hy
        obtain rfl : t = [] := hrest
        exact ⟨d', hs, ms, by simpa using heq, hhs.length_eq.symm, hms.length_eq.symm, rfl, rfl⟩
      · obtain rfl := List.mem_singleton.mp hr
        obtain ⟨d', hs, ms, t, heq, -, hhs, hms, rfl⟩ := mem_parses_dated.mp hy
        obtain rfl : t = [] := hrest
        exact ⟨d', hs, ms, by simpa using heq, hhs.length_eq.symm, hms.length_eq.symm, rfl, rfl⟩
    obtain ⟨d', hs, ms, heq, hhs, hms, hstop, hgroups⟩ := hform
    have hlen := congrArg List.length heq
    rw [length_timeText, List.length_append, List.length_cons, List.length_append, hhs, hms] at hlen
    have hsame : d'.length = d.length := by omega
    rw [hstop, hgroups, hsame, length_timeText]
    exact ⟨rfl, rfl⟩

theorem nulFree_of_classes {ps : List (UInt8 → Bool)} {u : Bytes} (hps : (ps.any fun p => p 0) = false)
    (h : List.Forall₂ (fun p c => p c = true) ps u) : NulFree u := by
  induction h with
  | nil => exact List.not_mem_nil
  | cons hc hrest ih =>
    rw [List.any_cons, Bool.or_eq_false_iff] at hps
    intro h0
    rcases List.mem_cons.mp h0 with rfl | hin
    · rw [hps.1] at hc
      cases hc
    · exact ih hps.2 hin

theorem IsDate.nulFree (hd : IsDate d) : NulFree d := by
  rcases hd with hone | htwo
  · exact nulFree_of_classes (by decide) hone
  · exact nulFree_of_classes (by decide) htwo

/-- The hours with their sign. -/
def Zone.hoursText (z : Zone) : Bytes := z.sign :: twoDigits z.hours

theorem Zone.nulFree_hoursText (z : Zone) : NulFree z.hoursText := by
  exact nulFree_of_classes (by decide) (.cons z.isSign_sign (twoDigits_digits z.hours))

theorem nulFree_twoDigits (n : Fin 100) : NulFree (twoDigits n) :=
  nulFree_of_classes (by decide) (twoDigits_digits n)

theorem nulFree_timeText (hd : IsDate d) (z : Zone) : NulFree (timeText d z) := by
  have hspace : NulFree [32] := by decide
  exact hd.nulFree.append (hspace.append (z.nulFree_hoursText.append (nulFree_twoDigits z.mins)))

theorem IsDate.length_le (hd : IsDate d) : d.length ≤ 20 := by
  rcases hd with hone | htwo
  · exact (hone.length_eq.symm.trans_le (by decide))
  · exact (htwo.length_eq.symm.trans_le (by decide))

theorem charsOf_holds {σ : Type} {s : Str} {text : Bytes} (hs : Holds s text) (hn : NulFree text) (st : σ) :
    (charsOf s : Act σ Bytes).run st = .ok text st := by
  obtain ⟨rest, hv, -⟩ := hs.value
  rw [charsOf, hv, deref_some, run_bind_ret, cString_append _ rest hn]
  rfl

theorem atoi_twoDigits : ∀ n : Fin 100, atoi (twoDigits n) = n := by decide +kernel

theorem atoi_signed : ∀ n : Fin 100,
    atoi (43 :: twoDigits n) = n ∧ atoi (45 :: twoDigits n) = -(n : Int) := by decide +kernel

/-- The adjustment is the offset of the zone but for `-0001` to `-0099`: no hours have no sign. -/
theorem adjustment_iff (z : Zone) :
    adjustment z.hoursText (twoDigits z.mins) = z.offset ↔
      ¬ (z.minus = true ∧ z.hours = 0 ∧ z.mins ≠ 0) := by
  obtain ⟨minus, hours, mins⟩ := z
  obtain ⟨hplus, hminus⟩ := atoi_signed hours
  have hmins := atoi_twoDigits mins
  have hzero : ∀ n : Fin 100, n = 0 ↔ (n : Int) = 0 := by
    intro n
    rw [Fin.ext_iff]
    exact Int.natCast_eq_zero.symm
  cases minus with
  | false =>
    have hsign : atoi (Zone.hoursText ⟨false, hours, mins⟩) = hours := hplus
    simp only [adjustment, hsign, hmins, Zone.offset, Bool.false_eq_true, if_false, false_and, not_false_eq_true,
      iff_true]
    split <;> omega
  | true =>
    have hsign : atoi (Zone.hoursText ⟨true, hours, mins⟩) = -(hours : Int) := hminus
    simp only [adjustment, hsign, hmins, Zone.offset, if_true, true_and, ne_eq, hzero]
    split <;> omega

/-- The three parts of a time string stand where the groups say. -/
theorem cuts_timeText (hd : IsDate d) (z : Zone) (rest : Bytes) :
    List.Forall₂ (Cuts (timeText d z ++ 0 :: rest))
      [(0, d.length), (d.length + 1, d.length + 4), (d.length + 4, d.length + 6)]
      [d, z.hoursText, twoDigits z.mins] := by
  have hd := hd.length_le
  have hM : 20 < stringMax := by decide
  have hhours : z.hoursText.length = 3 := rfl
  have hmins : (twoDigits z.mins).length = 2 := rfl
  have hdate : Cuts (timeText d z ++ 0 :: rest) (([] : Bytes).length, ([] : Bytes).length + d.length) d :=
    cuts_append (w := 32 :: z.text ++ 0 :: rest) (by simp [timeText]) (by omega)
  have hhour : Cuts (timeText d z ++ 0 :: rest)
      ((d ++ [32]).length, (d ++ [32]).length + z.hoursText.length) z.hoursText :=
    cuts_append (w := twoDigits z.mins ++ 0 :: rest) (by simp [timeText, Zone.text, Zone.hoursText]) (by omega)
  have hmin : Cuts (timeText d z ++ 0 :: rest)
      ((d ++ 32 :: z.hoursText).length, (d ++ 32 :: z.hoursText).length + (twoDigits z.mins).length)
      (twoDigits z.mins) :=
    cuts_append (w := 0 :: rest) (by simp [timeText, Zone.text, Zone.hoursText]) (by omega)
  rw [List.length_nil, Nat.zero_add] at hdate
  rw [List.length_append, List.length_singleton, hhours] at hhour
  rw [List.length_append, List.length_cons, hhours, hmins] at hmin
  exact .cons hdate (.cons hhour (.cons hmin .nil))

/-- For a well-formed time string the result is that of its date. -/
theorem strToTime_run {Tm : Type} {strptime : Bytes → Option Tm} {tm : Tm} (mktime : Tm → Int) (hd : IsDate d)
    (hparse : strptime d = some tm) {s : Str} (hs : Holds s (timeText d z)) :
    (strToTime strptime mktime s).run () = .ok (mktime tm) () := by
  obtain ⟨b, hb, hbh, -⟩ := strNew_holds ()
  have hc := hs.bind_cString
  rw [cText_of_nulFree (nulFree_timeText hd z)] at hc
  obtain ⟨bufs, hrun, hbufs⟩ := strStrRegexBy_run hc (regexec_timeText hd z) (cuts_timeText hd z)
    (.cons hbh (.cons hbh (.cons hbh .nil))) rfl ()
  cases hbufs with
  | cons hbuf hbufs =>
    cases hbufs with
    | cons hhours hbufs =>
      cases hbufs with
      | cons hmins hnil =>
        cases hnil
        rw [strToTime, run_bind_ok hb, run_bind_ok hb, run_bind_ok hb, run_bind_ok (run_attempt_ok hrun)]
        dsimp only
        rw [run_bind_ok (charsOf_holds hbuf hd.nulFree ()), hparse]
        dsimp only
        rw [run_bind_ok (charsOf_holds hhours z.nulFree_hoursText ()),
          run_bind_ok (charsOf_holds hmins (nulFree_twoDigits z.mins) ())]
        rfl

/-- `str_to_time` of one date in two zones: the one that is ahead by more has the earlier time. -/
def OffsetsCount {Tm : Type} (strptime : Bytes → Option Tm) (mktime : Tm → Int) (s₁ s₂ : Str)
    (z₁ z₂ : Zone) : Prop :=
  ∃ t₁ t₂, (strToTime strptime mktime s₁).run () = .ok t₁ () ∧
    (strToTime strptime mktime s₂).run () = .ok t₂ () ∧ t₁ - t₂ = z₂.offset - z₁.offset

/-- A broken-down time, as `struct tm` counts months and years. -/
structure Tm where
  sec : Nat
  min : Nat
  hour : Nat
  mday : Nat
  mon : Nat
  year : Nat
  deriving DecidableEq

/-- `12 Aug 2006 22:49:40`. -/
def august : Bytes := [49, 50, 32, 65, 117, 103, 32, 50, 48, 48, 54, 32, 50, 50, 58, 52, 57, 58, 52, 48]

def augustTm : Tm := ⟨40, 49, 22, 12, 7, 106⟩

def parseAugust (text : Bytes) : Option Tm := if text = august then some augustTm else none

def augustSeconds (tm : Tm) : Int := if tm = augustTm then 1155422980 else -1

theorem isDate_august : IsDate august := by
  apply Or.inr
  rw [List.forall₂_iff_get]
  decide

/-- The zone has no effect, so the times of two zones are right only when these are the same. -/
theorem str_to_time_iff {Tm : Type} {strptime : Bytes → Option Tm} {tm : Tm} (mktime : Tm → Int)
    (hd : IsDate d) (hparse : strptime d = some tm) {s₁ s₂ : Str} {z₁ z₂ : Zone}
    (h₁ : Holds s₁ (timeText d z₁)) (h₂ : Holds s₂ (timeText d z₂)) :
    OffsetsCount strptime mktime s₁ s₂ z₁ z₂ ↔ z₁.offset = z₂.offset := by
  have hrun₁ := strToTime_run mktime hd hparse h₁
  have hrun₂ := strToTime_run mktime hd hparse h₂
  constructor
  · rintro ⟨t₁, t₂, ht₁, ht₂, hdiff⟩
    obtain rfl : mktime tm = t₁ := by simpa [hrun₁] using ht₁
    obtain rfl : mktime tm = t₂ := by simpa [hrun₂] using ht₂
    omega
  · intro hsame
    exact ⟨_, _, hrun₁, hrun₂, by omega⟩

/-- The example of the documentation in its zone and in that of Greenwich. -/
theorem str_to_time_ignores_zone :
    IsDate august ∧ ¬ OffsetsCount parseAugust augustSeconds
      (ofText (timeText august ⟨true, 4, 0⟩)).1 (ofText (timeText august ⟨false, 0, 0⟩)).1
      ⟨true, 4, 0⟩ ⟨false, 0, 0⟩ := by
  refine ⟨isDate_august, ?_⟩
  rintro ⟨t₁, t₂, ht₁, ht₂, hdiff⟩
  have hparse : parseAugust august = some augustTm := if_pos rfl
  rw [strToTime_run augustSeconds isDate_august hparse (holds_ofText _)] at ht₁ ht₂
  cases ht₁
  cases ht₂
  exact absurd hdiff (by decide)

theorem str_to_time_iff_minutes : OffsetsCount parseAugust augustSeconds
    (ofText (timeText august ⟨true, 1, 0⟩)).1 (ofText (timeText august ⟨true, 0, 60⟩)).1
    ⟨true, 1, 0⟩ ⟨true, 0, 60⟩ :=
  (str_to_time_iff augustSeconds isDate_august (if_pos rfl) (holds_ofText _) (holds_ofText _)).mpr (by decide)

end NcTime
