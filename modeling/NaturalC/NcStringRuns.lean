import NaturalC.NcStringSound

/-!
# Runs of string operations

A client has created some strings with `str_new` and calls the functions of `string.c` on
them in any order. A call may throw, and the client goes on all the same.
-/
namespace NcString

open Throwing Throwing.Act

/-- A call on the strings that have the names `ι`. Texts of the client's own are given by the
memory they stand in. -/
inductive Call (ι : Type) where
  | cpy (dest : ι) (src : Bytes)
  | ncpy (dest : ι) (src : Bytes) (len : Nat)
  | cat (dest : ι) (src : Bytes)
  | append (dest src : ι)
  | prepend (dest src : ι)
  | putc (dest : ι) (c : UInt8)
  | copy (dest src : ι)
  | move (dest src : ι)
  | swap (s1 s2 : ι)
  | truncate (dest : ι)
  | truncateAt (src : ι) (position : Nat)
  | setLen (dest : ι) (newLen : Nat)
  | resize (str : ι) (newSize : Nat)
  | setTerminator (str : ι) (terminator : Int)
  | chomp (str : ι)
  | toUpper (s : ι)
  | translate (s : ι) (old new : Int)
  | escape (dest src : ι)
  | unescape (dest src : ι)
  | read (dest : ι) (size : Nat) (result : ReadResult)

variable {ι : Type} [DecidableEq ι]

/-- A function that modifies one string. -/
def onString {α : Type} (i : ι) (m : Act Str α) : Act (ι → Str) Unit := do
  let _ ← zoom (fun st : ι → Str => st i) (fun s st => Function.update st i s) m
  pure ()

/-- A function that reads a second string. -/
def fromString (dest src : ι) (m : Str → Act Str Unit) : Act (ι → Str) Unit := do
  let st ← get
  onString dest (m (st src))

/-- A function that modifies two strings. -/
def onStrings (i j : ι) (m : Act (Str × Str) Unit) : Act (ι → Str) Unit :=
  zoom (fun st => (st i, st j)) (fun p st => Function.update (Function.update st i p.1) j p.2) m

/-- Every allocation succeeds. -/
def Call.exec : Call ι → Act (ι → Str) Unit
  | .cpy dest src => onString dest (strCpy true src)
  | .ncpy dest src len => onString dest (strNcpy true src len)
  | .cat dest src => onString dest (strCat true src)
  | .append dest src => fromString dest src (strAppend true)
  | .prepend dest src => fromString dest src (strPrepend true)
  | .putc dest c => onString dest (strPutc true c)
  | .copy dest src => fromString dest src (strCopy true)
  | .move dest src => onStrings dest src (strMove true)
  | .swap s1 s2 => onStrings s1 s2 strSwap
  | .truncate dest => onString dest strTruncate
  | .truncateAt src position => onString src (strTruncateAt position)
  | .setLen dest newLen => onString dest (strSetLen newLen)
  | .resize str newSize => onString str (strResize true newSize)
  | .setTerminator str terminator => onString str (strSetTerminator true terminator)
  | .chomp str => onString str strChomp
  | .toUpper s => onString s strToUpper
  | .translate s old new => onString s (strTranslate old new)
  | .escape dest src => fromString dest src strEscape
  | .unescape dest src => fromString dest src strUnescape
  | .read dest size result => onString dest (strRead true size result)

/-- The calls that a client may make: two pointers are those of two strings, a text of its own
has a NUL behind it or the number of bytes it says, what is unescaped has been escaped, and
`read(2)` returns no more than it was asked for. -/
def Call.Allowed (st : ι → Str) : Call ι → Prop
  | .cpy _ src => 0 ∈ src
  | .ncpy _ src len => len ≤ src.length
  | .cat _ src => 0 ∈ src
  | .append dest src => dest ≠ src
  | .prepend dest src => dest ≠ src
  | .copy dest src => dest ≠ src
  | .move dest src => dest ≠ src
  | .swap s1 s2 => s1 ≠ s2
  | .translate _ old _ => toChar old ≠ 0
  | .escape dest src => dest ≠ src
  | .unescape dest src => dest ≠ src ∧ ∃ text, (st src).text = NcString.escape text
  | .read _ size result => ∀ bytes, result = .data bytes → bytes.length ≤ size
  | _ => True

/-- The states of a client's strings, from those that `str_new` makes. -/
inductive Reached : (ι → Str) → Prop where
  | new {st : ι → Str} (h : ∀ i, (strNew true true : Act Unit Str).run () = .ok (st i) ()) : Reached st
  | returned {st st' : ι → Str} {call : Call ι} (h : Reached st) (hcall : call.Allowed st)
      (hrun : call.exec.run st = .ok () st') : Reached st'
  | thrown {st st' : ι → Str} {call : Call ι} (h : Reached st) (hcall : call.Allowed st)
      (hrun : call.exec.run st = .thrown st') : Reached st'

variable {st : ι → Str}

theorem onString_sound {α : Type} {i : ι} {m : Act Str α} (h : ∀ i, Sound (st i))
    (hm : (m.run (st i)).Returns Sound) :
    ((onString i m).run st).Returns fun st => ∀ i, Sound (st i) := by
  apply returns_bind
  · refine returns_zoom hm ?_
    intro s hs j
    by_cases hj : j = i
    · rw [hj, Function.update_self]
      exact hs
    · rw [Function.update_of_ne hj]
      exact h j
  · intro _ t _ ht
    exact ht

theorem onStrings_sound {i j : ι} {m : Act (Str × Str) Unit} (h : ∀ i, Sound (st i))
    (hm : (m.run (st i, st j)).Returns fun p => Sound p.1 ∧ Sound p.2) :
    ((onStrings i j m).run st).Returns fun st => ∀ i, Sound (st i) := by
  refine returns_zoom hm ?_
  rintro p ⟨hi, hj⟩ k
  by_cases hk : k = j
  · rw [hk, Function.update_self]
    exact hj
  · rw [Function.update_of_ne hk]
    by_cases hk' : k = i
    · rw [hk', Function.update_self]
      exact hi
    · rw [Function.update_of_ne hk']
      exact h k

/-- One call comes back, and leaves every string sound. -/
theorem exec_sound (h : ∀ i, Sound (st i)) {call : Call ι} (hcall : call.Allowed st) :
    (call.exec.run st).Returns fun st => ∀ i, Sound (st i) := by
  cases call with
  | cpy dest src => exact onString_sound h (strCpy_sound (h dest) hcall)
  | ncpy dest src len => exact onString_sound h (strNcpy_sound (h dest) hcall)
  | cat dest src => exact onString_sound h (strCat_sound (h dest) hcall)
  | append dest src => exact onString_sound h (strAppend_sound (h dest) (h src))
  | prepend dest src => exact onString_sound h (strPrepend_sound (h dest) (h src))
  | putc dest c => exact onString_sound h (strPutc_sound (h dest) c)
  | copy dest src => exact onString_sound h (strCopy_sound (h dest) (h src))
  | move dest src => exact onStrings_sound h (strMove_sound (h dest) (h src))
  | swap s1 s2 => exact onStrings_sound h ⟨h s2, h s1⟩
  | truncate dest => exact onString_sound h (strTruncate_sound (h dest))
  | truncateAt src position => exact onString_sound h (strTruncateAt_sound (h src) position)
  | setLen dest newLen => exact onString_sound h (strSetLen_sound (h dest) newLen)
  | resize str newSize => exact onString_sound h (strResize_sound (h str) newSize)
  | setTerminator str terminator => exact onString_sound h (strSetTerminator_sound (h str) terminator)
  | chomp str => exact onString_sound h (strChomp_sound (h str))
  | toUpper s => exact onString_sound h (strToUpper_sound (h s))
  | translate s old new => exact onString_sound h (strTranslate_sound hcall new (h s))
  | escape dest src => exact onString_sound h (strEscape_sound (h dest) (h src))
  | unescape dest src =>
    obtain ⟨-, text, htext⟩ := hcall
    exact onString_sound h (strUnescape_sound (h dest) (h src) htext)
  | read dest size result => exact onString_sound h (strRead_sound (h dest) hcall)

theorem Reached.sound (h : Reached st) : ∀ i, Sound (st i) := by
  induction h with
  | new hnew =>
    intro i
    obtain ⟨s, hrun, hs⟩ := strNew_sound
    have heq := (hnew i).symm.trans hrun
    injection heq with heq
    rw [heq]
    exact hs
  | returned _ hcall hrun ih =>
    have hstep := exec_sound ih hcall
    rw [hrun] at hstep
    exact hstep
  | thrown _ hcall hrun ih =>
    have hstep := exec_sound ih hcall
    rw [hrun] at hstep
    exact hstep

/-- In every state that a client gets to, all strings are sound, and every call it may make then
comes back without an access outside of a buffer and leaves all strings sound. -/
theorem strings_stay_sound (h : Reached st) :
    (∀ i, Sound (st i)) ∧
      ∀ call : Call ι, call.Allowed st → ∃ st', (∀ i, Sound (st' i)) ∧
        (call.exec.run st = .ok () st' ∨ call.exec.run st = .thrown st') := by
  refine ⟨h.sound, ?_⟩
  intro call hcall
  have hstep := exec_sound h.sound hcall
  cases hrun : call.exec.run st with
  | ok a st' =>
    rw [hrun] at hstep
    exact ⟨st', hstep, .inl rfl⟩
  | thrown st' =>
    rw [hrun] at hstep
    exact ⟨st', hstep, .inr rfl⟩
  | halt e =>
    rw [hrun] at hstep
    exact hstep.elim

/-- The letter `a` goes into the first of two new strings. -/
theorem strings_stay_sound_two :
    ∃ st st' : Bool → Str, Reached st ∧ (Call.cat true (charArray [97])).exec.run st = .ok () st' ∧
      (st' true).text = [97] ∧ ∀ i, Sound (st' i) := by
  obtain ⟨s, hnew, -⟩ := strNew_sound
  have hst : Reached (fun _ : Bool => s) := .new fun _ => hnew
  cases hnew
  obtain ⟨-, hcalls⟩ := strings_stay_sound hst
  obtain ⟨st', hsound, hrun | hrun⟩ := hcalls (.cat true (charArray [97]))
    (show 0 ∈ charArray [97] by decide)
  · refine ⟨_, st', hst, hrun, ?_, hsound⟩
    cases hrun
    rfl
  · cases hrun

end NcString
