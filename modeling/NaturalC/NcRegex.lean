import NaturalC.NcEscape
import NaturalC.Posix

/-!
# Regular expressions in strings

`str_str_regex` copies the groups of a match into strings, and `str_subst_regex` replaces
what an expression matches, the first match only. Expressions are compiled without regard
to case, which makes no difference to those that occur.
-/
namespace NcString

open Throwing Throwing.Act Posix

/-- `str_sprintf`, given what `vasprintf(3)` makes of its arguments. -/
def strSprintf (text : Bytes) : Act Str Unit := do
  let dest ← get
  let len := text.length
  if len > stringMax then do
    put { dest with value := none, size := 0, len := 0 }
    throwing
  else put { dest with value := some (charArray text), size := len + 1, len := len }

def regexReplaceAll (preg : Ere UInt8) (replacement : Bytes) : Act Str Unit := do
  let result ← strNew true true
  let buf ← get
  let mem ← deref buf.value
  let text ← deref (cString mem)
  match regexec preg text with
  | some ((so, eo) :: _) => do
    let (_, result) ← onLocal (strNcpy true mem so) result
    let (_, result) ← onLocal (strCat true replacement) result
    let (_, result) ← onLocal (strCat true (mem.drop eo)) result
    moveLocal result
  | _ => pure ()

def strSubstRegex (pattern : Ere UInt8) (replacement : Bytes) : Act Str Unit := do
  regexReplaceAll pattern replacement
  let src ← get
  let mem ← deref src.value
  let text ← deref (cString mem)
  put { src with len := text.length }

/-- The loop of `str_str_regex` over the groups of a match and the strings they go to. -/
def copyGroups {σ : Type} (mem : Bytes) : List (Nat × Nat) → List Str → Act σ (List Str)
  | (so, eo) :: pmatch, buf :: bufs => do
    let (_, buf) ← onLocal (strNcpy true (mem.drop so) (eo - so)) buf
    let bufs ← copyGroups mem pmatch bufs
    pure (buf :: bufs)
  | _, bufs => pure bufs

def strStrRegex {σ : Type} (src : Str) (pattern : Ere UInt8) (bufs : List Str) : Act σ (List Str) := do
  let mem ← deref src.value
  let text ← deref (cString mem)
  match regexec pattern text with
  | some (_ :: pmatch) => copyGroups mem pmatch bufs
  | _ => throwing

/-- `str_str_regex` for an expression with anchors, given by what `regexec(3)` makes of it. -/
def strStrRegexBy {σ : Type} (exec : Bytes → Option (List (Nat × Nat))) (src : Str) (bufs : List Str) :
    Act σ (List Str) := do
  let mem ← deref src.value
  let text ← deref (cString mem)
  match exec text with
  | some (_ :: pmatch) => copyGroups mem pmatch bufs
  | _ => throwing

theorem strStrRegex_eq {σ : Type} (src : Str) (pattern : Ere UInt8) (bufs : List Str) :
    (strStrRegex src pattern bufs : Act σ (List Str)) = strStrRegexBy (regexec pattern) src bufs := rfl

/-- The text `u` stands where the group says. -/
def Cuts (mem : Bytes) (g : Nat × Nat) (u : Bytes) : Prop :=
  (∃ rest, mem.drop g.1 = u ++ rest) ∧ g.2 = g.1 + u.length ∧ u.length < stringMax

theorem cuts_append {mem v u w : Bytes} (h : mem = v ++ u ++ w) (hfit : u.length < stringMax) :
    Cuts mem (v.length, v.length + u.length) u := by
  refine ⟨⟨w, ?_⟩, rfl, hfit⟩
  rw [h, List.append_assoc, List.drop_left' rfl]

/-- Each group is copied to its string. -/
theorem copyGroups_run {σ : Type} {mem : Bytes} {pmatch : List (Nat × Nat)} {us olds : List Bytes}
    {bufs : List Str} (hcuts : List.Forall₂ (Cuts mem) pmatch us) (hbufs : List.Forall₂ Holds bufs olds)
    (hlen : bufs.length = us.length) (st : σ) :
    ∃ bufs', (copyGroups mem pmatch bufs).run st = .ok bufs' st ∧ List.Forall₂ Holds bufs' us := by
  induction hcuts generalizing bufs olds with
  | nil =>
    obtain rfl : bufs = [] := List.length_eq_zero_iff.mp hlen
    exact ⟨[], rfl, .nil⟩
  | cons hcut hcuts ih =>
    rename_i g u gs us
    obtain ⟨so, eo⟩ := g
    obtain ⟨⟨rest, hdrop⟩, heo, hfit⟩ := hcut
    cases hbufs with
    | nil => cases hlen
    | cons hb hbs =>
      obtain ⟨t, hcopy, ht, -⟩ := strNcpy_holds hb hdrop hfit
      obtain ⟨ts, hrest, hts⟩ := ih hbs (Nat.succ_inj.mp hlen)
      refine ⟨t :: ts, ?_, .cons ht hts⟩
      dsimp only at heo
      rw [copyGroups, heo, Nat.add_sub_cancel_left, run_bind_ok (run_onLocal_ok hcopy st)]
      dsimp only
      rw [run_bind_ok hrest]
      rfl

theorem strStrRegexBy_run {σ : Type} {exec : Bytes → Option (List (Nat × Nat))} {src : Str} {text : Bytes}
    (hc : src.value.bind cString = some text) {g : Nat × Nat} {pmatch : List (Nat × Nat)}
    (hexec : exec text = some (g :: pmatch)) {us olds : List Bytes} {bufs : List Str}
    (hcuts : ∀ rest, List.Forall₂ (Cuts (text ++ 0 :: rest)) pmatch us)
    (hbufs : List.Forall₂ Holds bufs olds) (hlen : bufs.length = us.length) (st : σ) :
    ∃ bufs', (strStrRegexBy exec src bufs).run st = .ok bufs' st ∧ List.Forall₂ Holds bufs' us := by
  obtain ⟨mem, hv, hmem⟩ := Option.bind_eq_some_iff.mp hc
  obtain ⟨rest, hsplit⟩ := cString_split hmem
  have hcuts' := hcuts rest
  rw [← hsplit] at hcuts'
  obtain ⟨bufs', hcopy, hbufs'⟩ := copyGroups_run hcuts' hbufs hlen st
  refine ⟨bufs', ?_, hbufs'⟩
  rw [strStrRegexBy, hv, deref_some, run_bind_ret, hmem, deref_some, run_bind_ret, hexec]
  exact hcopy

/-- Only a match lets `str_str_regex` succeed. -/
theorem strStrRegexBy_ok {σ : Type} {exec : Bytes → Option (List (Nat × Nat))} {src : Str} {text : Bytes}
    (hc : src.value.bind cString = some text) {bufs bufs' : List Str} {st st' : σ}
    (hrun : (strStrRegexBy exec src bufs).run st = .ok bufs' st') :
    ∃ pmatch, exec text = some pmatch := by
  obtain ⟨mem, hv, hmem⟩ := Option.bind_eq_some_iff.mp hc
  rw [strStrRegexBy, hv, deref_some, run_bind_ret, hmem, deref_some, run_bind_ret] at hrun
  cases hexec : exec text with
  | none =>
    rw [hexec] at hrun
    cases hrun
  | some pmatch => exact ⟨pmatch, rfl⟩

theorem strSprintf_holds {s : Str} {text : Bytes} (hmax : text.length ≤ stringMax) :
    ∃ t, (strSprintf text).run s = .ok () t ∧ Holds t text ∧ t.size = text.length + 1 := by
  simp only [strSprintf, run_bind_get, if_neg (Nat.not_lt.mpr hmax)]
  exact ⟨_, rfl, ⟨rfl, [], rfl, rfl⟩, rfl⟩

/-- The expression `"\n"`. -/
def newline : Ere UInt8 := .cls (· == 10)

/-- The first newline is found. -/
theorem regexec_newline {a : Bytes} (ha : 10 ∉ a) (b : Bytes) :
    regexec newline (a ++ 10 :: b) = some [(a.length, a.length + 1)] := by
  have hskip : regexecFrom newline 0 (a ++ 10 :: b) = regexecFrom newline (0 + a.length) (10 :: b) := by
    apply regexecFrom_skip
    rintro v w c rfl
    have hc : c ≠ 10 := fun he => ha (by simp [he])
    simp [newline, parses, hc]
  rw [regexec, hskip, Nat.zero_add]
  rfl

/-- The first newline of a text gets a backslash in front of it. -/
theorem strSubstRegex_newline {s : Str} {a b : Bytes} (hs : Holds s (a ++ 10 :: b)) (ha : 10 ∉ a)
    (hn : NulFree (a ++ 10 :: b)) (hmax : (a ++ 92 :: 10 :: b).length < stringMax) :
    ∃ t, (strSubstRegex newline (charArray [92, 10])).run s = .ok () t ∧
      Holds t (a ++ 92 :: 10 :: b) := by
  simp only [List.length_append, List.length_cons] at hmax
  obtain ⟨rest, hv, -⟩ := hs.value
  obtain ⟨r₀, hnew, hr₀, hz₀⟩ := strNew_holds s
  have htext := cString_append _ rest hn
  obtain ⟨r₁, hncpy, hr₁, hz₁⟩ := strNcpy_holds hr₀
    (show a ++ 10 :: b ++ 0 :: rest = a ++ (10 :: b ++ 0 :: rest) by simp) (by omega)
  obtain ⟨r₂, hcat, hr₂, hz₂⟩ := (strCat_holds hr₁ (cString_charArray [92, 10] (by decide))).1
    (by rw [List.length_cons, List.length_singleton]; omega)
  have hbn : NulFree b := fun h0 => hn (by simp [h0])
  obtain ⟨r₃, hcat', hr₃, hz₃⟩ := (strCat_holds hr₂ (cString_append b rest hbn)).1
    (by simp only [List.length_append, List.length_cons, List.length_nil]; omega)
  have hdrop : (a ++ 10 :: b ++ 0 :: rest).drop (a.length + 1) = b ++ 0 :: rest := by
    rw [List.append_assoc, ← List.drop_drop, List.drop_left' rfl]
    rfl
  have hz : r₁.size ≤ stringMax := by
    have hM : 16 ≤ stringMax := by decide
    rw [hz₁, hz₀]
    refine Nat.max_le.mpr ⟨hM, ?_⟩
    split <;> omega
  obtain ⟨t, hmove, ht, -⟩ := moveLocal_holds hs hr₃ (hz₃ (hz₂ hz))
  have hreplace : (regexReplaceAll newline (charArray [92, 10])).run s = .ok () t := by
    simp only [regexReplaceAll]
    rw [run_bind_ok hnew, run_bind_get, hv, deref_some, run_bind_ret, htext, deref_some, run_bind_ret,
      regexec_newline ha]
    dsimp only
    rw [run_bind_ok (run_onLocal_ok hncpy s)]
    dsimp only
    rw [run_bind_ok (run_onLocal_ok hcat s)]
    dsimp only
    rw [hdrop, run_bind_ok (run_onLocal_ok hcat' s)]
    exact hmove
  have ht : Holds t (a ++ 92 :: 10 :: b) := by simpa using ht
  obtain ⟨rest', hv', -⟩ := ht.value
  have hn' : NulFree (a ++ 92 :: 10 :: b) := by
    intro h0
    apply hn
    simpa using h0
  refine ⟨t, ?_, ht⟩
  rw [strSubstRegex, run_bind_ok hreplace, run_bind_get, hv', deref_some, run_bind_ret,
    cString_append _ rest' hn', deref_some, run_bind_ret, ← ht.len, ← hv']
  rfl

end NcString
