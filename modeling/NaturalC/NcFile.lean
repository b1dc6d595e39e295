import Mathlib.Logic.Function.Basic
import NaturalC.NcStringSpec

/-!
# Replacing a file

`file_write` fills a temporary file and renames it. The results of the system calls are
parameters, and every state of the file system on the way is kept, since the process
may stop in any of them.
-/
namespace NcFile

open Throwing Throwing.Act NcString

/-- Names lead to files, and each file has its bytes. -/
structure FileSystem where
  entry : Bytes → Option Nat
  data : Nat → Bytes

def FileSystem.contents (fs : FileSystem) (name : Bytes) : Option Bytes := (fs.entry name).map fs.data

structure World where
  fs : FileSystem
  /-- Every state so far, the last one first. -/
  seen : List FileSystem

def World.start (fs : FileSystem) : World := ⟨fs, [fs]⟩

/-- What the system calls answer. -/
structure Calls where
  /-- The six characters that replace the last `XXXXXX`, and the new file. -/
  mkstemp : Option (Bytes × Nat)
  /-- Whether `write(2)` succeeds, and how many bytes arrive in the file. -/
  write : Bool × Nat
  close : Bool
  rename : Bool

def change (f : FileSystem → FileSystem) : Act World Unit := do
  let w ← get
  put ⟨f w.fs, f w.fs :: w.seen⟩

/-- `mkstemp(3)`. -/
def mkstemp (calls : Calls) (template : Bytes) : Act World (Option (Bytes × Nat)) :=
  match calls.mkstemp with
  | none => pure none
  | some (r, file) => do
    let name := template.take (template.length - 6) ++ r
    change fun fs => ⟨Function.update fs.entry name (some file), Function.update fs.data file []⟩
    pure (some (name, file))

/-- The first `n` bytes arrive one after the other in a file that was empty. -/
def arrive (file : Nat) (data : Bytes) : Nat → Act World Unit
  | 0 => pure ()
  | n + 1 => do
    arrive file data n
    change fun fs => { fs with data := Function.update fs.data file (data.take (n + 1)) }

/-- `write(2)` to a new file. -/
def write (calls : Calls) (fd : Nat) (data : Bytes) : Act World (Option Nat) := do
  arrive fd data calls.write.2
  pure (if calls.write.1 then some calls.write.2 else none)

/-- `rename(2)`, which is one step. -/
def rename (calls : Calls) (src dest : Bytes) : Act World Bool :=
  if calls.rename then do
    change fun fs => if src = dest then fs else
      { fs with entry := Function.update (Function.update fs.entry dest (fs.entry src)) src none }
    pure true
  else pure false

/-- `file_puts`. A `write(2)` that takes fewer bytes is a success. -/
def filePuts (calls : Calls) (fd : Nat) (str : Str) : Act World Unit :=
  if str.len = 0 then pure ()
  else do
    let value ← deref str.value
    let bytes ← write calls fd (value.take str.len)
    if bytes = none then throwing else pure ()

def fileRename (calls : Calls) (src dest : Str) : Act World Unit :=
  if src.len = 0 ∨ dest.len = 0 then throwing
  else do
    let src ← deref (src.value.bind cString)
    let dest ← deref (dest.value.bind cString)
    let done ← rename calls src dest
    if done then pure () else throwing

/-- `%s.tmpXXXXXXXXXX`. The `%s` stands there as it is. -/
def tempTemplate : Bytes := [37, 115, 46, 116, 109, 112] ++ List.replicate 10 88

def fileWrite (calls : Calls) (path data : Str) : Act World Unit := do
  let template ← strNew true true
  let made ← mkstemp calls tempTemplate
  match made with
  | none => throwing
  | some (name, fd) => do
    let copied ← onLocal (strCpy true (name ++ [0])) template
    filePuts calls fd data
    if calls.close then fileRename calls copied.2 path else throwing

/-- The name of the temporary file. -/
def tempName (r : Bytes) : Bytes := [37, 115, 46, 116, 109, 112, 88, 88, 88, 88] ++ r

/-- Answers that the calls can give: a temporary file is new, and no more bytes arrive than were
sent. -/
structure Calls.Possible (calls : Calls) (fs : FileSystem) (data : Bytes) : Prop where
  fresh : ∀ {r file}, calls.mkstemp = some (r, file) → r.length = 6 ∧ NulFree r ∧
    fs.entry (tempName r) = none ∧ ∀ name, fs.entry name ≠ some file
  sent : calls.write.2 ≤ data.length

/-- The file at `name` never holds anything but the old contents or the new ones, and it holds the
new ones after a success. -/
def Replaces (name : Bytes) (old : Option Bytes) (data : Bytes) : Outcome World Unit → Prop
  | .ok () w => (∀ fs ∈ w.seen, fs.contents name = old ∨ fs.contents name = some data) ∧
      w.fs.contents name = some data
  | .thrown w => ∀ fs ∈ w.seen, fs.contents name = old ∨ fs.contents name = some data
  | .halt _ => False

/-- The temporary name is the one that is to be written. -/
def Calls.Collides (calls : Calls) (path data : Str) : Prop :=
  data.text ≠ [] ∧ ∃ r file, calls.mkstemp = some (r, file) ∧ tempName r = cText path.text

/-- `write(2)` takes fewer bytes than it was given, and nothing fails. -/
def Calls.Short (calls : Calls) (path data : Str) : Prop :=
  calls.mkstemp ≠ none ∧ calls.write.1 = true ∧ calls.write.2 < data.text.length ∧
    calls.close = true ∧ path.text ≠ [] ∧ calls.rename = true

variable {calls : Calls} {file : Nat}

@[simp] theorem run_change (f : FileSystem → FileSystem) (w : World) :
    (change f).run w = .ok () ⟨f w.fs, f w.fs :: w.seen⟩ := rfl

@[simp] theorem run_bind_change {α : Type} (f : FileSystem → FileSystem) (g : Unit → Act World α) (w : World) :
    (change f >>= g).run w = (g ()).run ⟨f w.fs, f w.fs :: w.seen⟩ := rfl

/-- The names are the same, and so is every file but one. -/
def Same (file : Nat) (fs fs' : FileSystem) : Prop :=
  fs'.entry = fs.entry ∧ ∀ f, f ≠ file → fs'.data f = fs.data f

theorem Same.refl (fs : FileSystem) : Same file fs fs := ⟨rfl, fun _ _ => rfl⟩

theorem Same.trans {fs₁ fs₂ fs₃ : FileSystem} (a : Same file fs₁ fs₂) (b : Same file fs₂ fs₃) :
    Same file fs₁ fs₃ :=
  ⟨b.1.trans a.1, fun f hf => (b.2 f hf).trans (a.2 f hf)⟩

theorem Same.contents {fs fs' : FileSystem} (h : Same file fs fs') {name : Bytes}
    (hname : fs.entry name ≠ some file) : fs'.contents name = fs.contents name := by
  rw [FileSystem.contents, FileSystem.contents, h.1]
  cases hf : fs.entry name with
  | none => rfl
  | some f =>
    have hne : f ≠ file := by
      rintro rfl
      exact hname hf
    rw [Option.map_some, Option.map_some, h.2 f hne]

/-- All that happened between two worlds happened to one file. -/
structure Aside (file : Nat) (w w' : World) : Prop where
  fs : Same file w.fs w'.fs
  kept : w.seen ⊆ w'.seen
  seen : ∀ fs ∈ w'.seen, fs ∈ w.seen ∨ Same file w.fs fs

theorem Aside.refl (w : World) : Aside file w w :=
  ⟨Same.refl _, List.Subset.refl _, fun _ h => Or.inl h⟩

theorem Aside.trans {w₁ w₂ w₃ : World} (a : Aside file w₁ w₂) (b : Aside file w₂ w₃) : Aside file w₁ w₃ := by
  refine ⟨a.fs.trans b.fs, List.Subset.trans a.kept b.kept, ?_⟩
  intro fs hfs
  rcases b.seen fs hfs with h | h
  · exact a.seen fs h
  · exact Or.inr (a.fs.trans h)

theorem aside_put (w : World) (bytes : Bytes) :
    Aside file w ⟨{ w.fs with data := Function.update w.fs.data file bytes },
      { w.fs with data := Function.update w.fs.data file bytes } :: w.seen⟩ := by
  have hsame : Same file w.fs { w.fs with data := Function.update w.fs.data file bytes } :=
    ⟨rfl, fun f hf => Function.update_of_ne hf _ _⟩
  refine ⟨hsame, List.subset_cons_self _ _, ?_⟩
  intro fs hfs
  rcases List.mem_cons.mp hfs with rfl | hfs
  · exact Or.inr hsame
  · exact Or.inl hfs

theorem arrive_run (data : Bytes) (n : Nat) (w : World) (hempty : w.fs.data file = []) :
    ∃ w', (arrive file data n).run w = .ok () w' ∧ Aside file w w' ∧ w'.fs.data file = data.take n := by
  induction n with
  | zero => exact ⟨w, rfl, Aside.refl w, by simp [hempty]⟩
  | succ n ih =>
    obtain ⟨w', hrun, haside, -⟩ := ih
    refine ⟨_, ?_, haside.trans (aside_put w' (data.take (n + 1))), ?_⟩
    · rw [arrive, run_bind_ok hrun, run_change]
    · simp

/-- `file_puts` writes to the one file, and a short write is a success. -/
theorem filePuts_run (calls : Calls) {str : Str} (hs : str.WF) (w : World) (hempty : w.fs.data file = []) :
    ∃ w', Aside file w w' ∧ (str.text = [] → w' = w) ∧
      ((filePuts calls file str).run w = .thrown w' ∧ calls.write.1 = false ∧ str.text ≠ [] ∨
        (filePuts calls file str).run w = .ok () w' ∧ (str.text = [] ∨ calls.write.1 = true) ∧
          w'.fs.data file = str.text.take calls.write.2) := by
  obtain ⟨rest, hv, -⟩ := hs.value
  have hlen := hs.len
  rw [filePuts]
  by_cases hnil : str.text = []
  · rw [if_pos (by rw [hlen, hnil]; rfl)]
    exact ⟨w, Aside.refl w, fun _ => rfl, Or.inr ⟨rfl, Or.inl hnil, by simp [hempty, hnil]⟩⟩
  · rw [if_neg (by rw [hlen]; simpa using hnil)]
    obtain ⟨w', hrun, haside, hdata⟩ := arrive_run str.text calls.write.2 w hempty
    have htake : (str.text ++ 0 :: rest).take str.len = str.text := List.take_left' hlen.symm
    have hwrite : (write calls file str.text).run w =
        .ok (if calls.write.1 then some calls.write.2 else none) w' := by
      rw [write, run_bind_ok hrun]
      rfl
    refine ⟨w', haside, fun h => absurd h hnil, ?_⟩
    simp only [hv, deref_some, run_bind_ret, htake]
    rw [run_bind_ok hwrite]
    cases hok : calls.write.1 with
    | false => exact Or.inl ⟨rfl, rfl, hnil⟩
    | true => exact Or.inr ⟨rfl, Or.inr rfl, hdata⟩

/-- What the file system is after a successful `rename(2)`. -/
def moved (src dest : Bytes) (fs : FileSystem) : FileSystem :=
  if src = dest then fs else
    { fs with entry := Function.update (Function.update fs.entry dest (fs.entry src)) src none }

theorem contents_moved {src : Bytes} (dest : Bytes) {fs : FileSystem} (hsrc : fs.entry src = some file) :
    (moved src dest fs).contents dest = some (fs.data file) := by
  rw [moved]
  split_ifs with heq
  · rw [FileSystem.contents, ← heq, hsrc]
    rfl
  · simp [FileSystem.contents, Function.update_of_ne (Ne.symm heq), hsrc]

theorem fileRename_run {src dest : Str} {text : Bytes} (hs : Holds src text) (hd : dest.WF)
    (htext : text ≠ []) (hnul : NulFree text) (w : World) :
    (fileRename calls src dest).run w =
      if dest.text ≠ [] ∧ calls.rename = true then
        .ok () ⟨moved text (cText dest.text) w.fs, moved text (cText dest.text) w.fs :: w.seen⟩
      else .thrown w := by
  obtain ⟨rest, hv, -⟩ := hs.value
  obtain ⟨rest', hv', -⟩ := hd.value
  have hlen : src.len ≠ 0 := by
    rw [hs.len]
    simpa using htext
  rw [fileRename]
  by_cases hnil : dest.text = []
  · rw [if_pos (Or.inr (by rw [hd.len, hnil]; rfl)), if_neg (fun h => h.1 hnil)]
    rfl
  · have hlen' : dest.len ≠ 0 := by
      rw [hd.len]
      simpa using hnil
    rw [if_neg (by simp [hlen, hlen'])]
    simp only [hv, hv', Option.bind_some, cString_cText, deref_some, run_bind_ret, cText_of_nulFree hnul]
    rw [rename]
    cases hren : calls.rename with
    | false => simp
    | true => simp [hnil, moved, run_bind]

theorem nulFree_tempName {r : Bytes} (hr : NulFree r) : NulFree (tempName r) := by
  intro h0
  rcases List.mem_append.mp h0 with h0 | h0
  · revert h0
    decide
  · exact hr h0

/-- The world once the temporary file is there. -/
def afterMkstemp (fs : FileSystem) (r : Bytes) (file : Nat) : World :=
  let fs' := ⟨Function.update fs.entry (tempName r) (some file), Function.update fs.data file []⟩
  ⟨fs', [fs', fs]⟩

variable {fs : FileSystem} {path data : Str} {r : Bytes}

theorem fileWrite_made (fs : FileSystem) (hp : path.WF) (hd : data.WF) (hm : calls.mkstemp = some (r, file))
    (hr : r.length = 6) (hnul : NulFree r) :
    ∃ w', Aside file (afterMkstemp fs r file) w' ∧ (data.text = [] → w' = afterMkstemp fs r file) ∧
      ((fileWrite calls path data).run (World.start fs) = .thrown w' ∧ ¬ calls.Short path data ∨
        (fileWrite calls path data).run (World.start fs) =
            .ok () ⟨moved (tempName r) (cText path.text) w'.fs,
              moved (tempName r) (cText path.text) w'.fs :: w'.seen⟩ ∧
          w'.fs.data file = data.text.take calls.write.2 ∧
          (calls.write.2 < data.text.length → calls.Short path data)) := by
  obtain ⟨str, hnew, hstr, -⟩ := strNew_holds (World.start fs)
  have hmade : (mkstemp calls tempTemplate).run (World.start fs) =
      .ok (some (tempName r, file)) (afterMkstemp fs r file) := by
    rw [mkstemp, hm]
    rfl
  have hcstr : cString (tempName r ++ [0]) = some (tempName r) := by
    rw [cString_cText, cText_of_nulFree (nulFree_tempName hnul)]
  have hfit : (tempName r).length < stringMax := by
    rw [tempName, List.length_append, hr]
    decide
  obtain ⟨template, hcpy, ht, -⟩ := (strCpy_holds hstr hcstr).1 hfit
  obtain ⟨w', haside, hsame, hputs⟩ := filePuts_run calls hd (afterMkstemp fs r file)
    (Function.update_self _ _ _)
  have hrun : (fileWrite calls path data).run (World.start fs) =
      (do
        filePuts calls file data
        if calls.close then fileRename calls template path else throwing).run (afterMkstemp fs r file) := by
    rw [fileWrite, run_bind_ok hnew, run_bind_ok hmade]
    simp only []
    rw [run_bind_ok (run_onLocal_ok hcpy _)]
  rw [hrun]
  refine ⟨w', haside, hsame, ?_⟩
  rcases hputs with ⟨hputs, hfail, -⟩ | ⟨hputs, hok, hbytes⟩
  · refine Or.inl ⟨run_bind_thrown hputs, ?_⟩
    rintro ⟨-, hw, -⟩
    rw [hfail] at hw
    exact Bool.false_ne_true hw
  · rw [run_bind_ok hputs]
    cases hclose : calls.close with
    | false =>
      refine Or.inl ⟨rfl, ?_⟩
      rintro ⟨-, -, -, hc, -⟩
      rw [hclose] at hc
      exact Bool.false_ne_true hc
    | true =>
      rw [if_pos rfl, fileRename_run ht hp (by simp [tempName]) (nulFree_tempName hnul) w']
      split_ifs with hren
      · refine Or.inr ⟨rfl, hbytes, ?_⟩
        intro hshort
        refine ⟨by simp [hm], ?_, hshort, hclose, hren⟩
        rcases hok with hnil | hok
        · rw [hnil] at hshort
          exact absurd hshort (Nat.not_lt_zero _)
        · exact hok
      · exact Or.inl ⟨rfl, fun h => hren ⟨h.2.2.2.2.1, h.2.2.2.2.2⟩⟩

theorem fileWrite_none (hm : calls.mkstemp = none) :
    (fileWrite calls path data).run (World.start fs) = .thrown (World.start fs) := by
  obtain ⟨str, hnew, -, -⟩ := strNew_holds (World.start fs)
  have hmade : (mkstemp calls tempTemplate).run (World.start fs) = .ok none (World.start fs) := by
    rw [mkstemp, hm]
    rfl
  rw [fileWrite, run_bind_ok hnew, run_bind_ok hmade]
  rfl

/-- A file that gets another name than the path leaves the path alone. -/
theorem contents_aside (hfresh : ∀ name, fs.entry name ≠ some file) {name : Bytes} (hne : tempName r ≠ name)
    {w' : World} (haside : Aside file (afterMkstemp fs r file) w') :
    ∀ fs' ∈ w'.seen, fs'.contents name = fs.contents name := by
  have hentry : (afterMkstemp fs r file).fs.entry name = fs.entry name :=
    Function.update_of_ne (Ne.symm hne) _ _
  have hmade : (afterMkstemp fs r file).fs.contents name = fs.contents name := by
    rw [FileSystem.contents, FileSystem.contents, hentry]
    cases hf : fs.entry name with
    | none => rfl
    | some f =>
      have hff : f ≠ file := by
        rintro rfl
        exact hfresh name hf
      exact congrArg some (Function.update_of_ne hff _ _)
  intro fs' hfs'
  rcases haside.seen fs' hfs' with h | h
  · rcases List.mem_cons.mp h with rfl | h
    · exact hmade
    · rw [List.mem_singleton.mp h]
  · rw [h.contents (by rw [hentry]; exact hfresh name), hmade]

/-- A temporary file at the path itself shows there before it has its bytes. -/
theorem not_replaces_collided {o : Outcome World Unit} (hentry : fs.entry (tempName r) = none)
    {bytes : Bytes} (hbytes : bytes ≠ []) {w' : World} (haside : Aside file (afterMkstemp fs r file) w')
    (ho : o = .thrown w' ∨ ∃ fs', o = .ok () ⟨fs', fs' :: w'.seen⟩) :
    ¬ Replaces (tempName r) (fs.contents (tempName r)) bytes o := by
  have hold : fs.contents (tempName r) = none := by rw [FileSystem.contents, hentry]; rfl
  have hseen : (afterMkstemp fs r file).fs ∈ w'.seen := haside.kept List.mem_cons_self
  have hnow : (afterMkstemp fs r file).fs.contents (tempName r) = some [] := by
    simp [FileSystem.contents, afterMkstemp]
  have hbad : ¬ ((afterMkstemp fs r file).fs.contents (tempName r) = none ∨
      (afterMkstemp fs r file).fs.contents (tempName r) = some bytes) := by
    rw [hnow]
    rintro (h | h)
    · exact absurd h (by simp)
    · exact hbytes (Option.some.inj h).symm
  rw [hold]
  rcases ho with rfl | ⟨fs', rfl⟩
  · intro h
    exact hbad (h _ hseen)
  · intro h
    exact hbad (h.1 _ (List.mem_cons_of_mem _ hseen))

/-- Before the rename the path has its old contents, or none of its bytes are missing yet. -/
theorem contents_before (hm : calls.mkstemp = some (r, file)) (hfresh : ∀ name, fs.entry name ≠ some file)
    (hcol : ¬ calls.Collides path data) {w' : World} (haside : Aside file (afterMkstemp fs r file) w')
    (hsame : data.text = [] → w' = afterMkstemp fs r file) :
    ∀ fs' ∈ w'.seen, fs'.contents (cText path.text) = fs.contents (cText path.text) ∨
      fs'.contents (cText path.text) = some data.text := by
  intro fs' hfs'
  by_cases hname : tempName r = cText path.text
  · have hnil : data.text = [] := by
      by_contra hne
      exact hcol ⟨hne, r, file, hm, hname⟩
    rw [hsame hnil] at hfs'
    rcases List.mem_cons.mp hfs' with rfl | h
    · apply Or.inr
      rw [← hname, hnil]
      simp [FileSystem.contents]
    · rw [List.mem_singleton.mp h]
      exact Or.inl rfl
  · exact Or.inl (contents_aside hfresh hname haside fs' hfs')

/-- `file_write` replaces the file at once or not at all, whatever the calls answer and wherever the
process stops, unless `write(2)` is short or the temporary name happens to be the path. -/
theorem file_write_replaces_iff (hp : path.WF) (hd : data.WF) (hc : calls.Possible fs data.text) :
    Replaces (cText path.text) (fs.contents (cText path.text)) data.text
        ((fileWrite calls path data).run (World.start fs)) ↔
      ¬ calls.Collides path data ∧ ¬ calls.Short path data := by
  cases hm : calls.mkstemp with
  | none =>
    rw [fileWrite_none hm]
    constructor
    · intro
      refine ⟨?_, fun h => h.1 hm⟩
      rintro ⟨-, r, file, h, -⟩
      rw [hm] at h
      exact absurd h (by simp)
    · rintro - fs' hfs'
      rw [List.mem_singleton.mp hfs']
      exact Or.inl rfl
  | some made =>
    obtain ⟨r, file⟩ := made
    obtain ⟨hr, hnul, hentry, hfresh⟩ := hc.fresh hm
    obtain ⟨w', haside, hsame, hends⟩ := fileWrite_made fs hp hd hm hr hnul
    have htemp : w'.fs.entry (tempName r) = some file := by
      rw [haside.fs.1]
      exact Function.update_self _ _ _
    by_cases hcol : calls.Collides path data
    · have hname : tempName r = cText path.text := by
        obtain ⟨-, r', file', hm', hname⟩ := hcol
        rw [hm] at hm'
        obtain ⟨rfl, -⟩ := Prod.mk.inj (Option.some.inj hm')
        exact hname
      rw [← hname]
      refine iff_of_false (not_replaces_collided hentry hcol.1 haside ?_) fun h => h.1 hcol
      rcases hends with ⟨hrun, -⟩ | ⟨hrun, -⟩
      · exact Or.inl hrun
      · exact Or.inr ⟨_, hrun⟩
    · have hbefore := contents_before hm hfresh hcol haside hsame
      rcases hends with ⟨hrun, hno⟩ | ⟨hrun, hbytes, hshort⟩
      · rw [hrun]
        exact iff_of_true hbefore ⟨hcol, hno⟩
      · have hafter := contents_moved (cText path.text) htemp
        rw [hbytes] at hafter
        rw [hrun, Replaces, hafter]
        constructor
        · rintro ⟨-, hall⟩
          refine ⟨hcol, fun hs => ?_⟩
          have hlen := congrArg List.length (Option.some.inj hall)
          rw [List.length_take] at hlen
          have := hs.2.2.1
          omega
        · rintro ⟨-, hno⟩
          have hall : data.text.take calls.write.2 = data.text :=
            List.take_of_length_le (Nat.le_of_not_lt fun h => hno (hshort h))
          rw [hall] at hafter ⊢
          refine ⟨?_, rfl⟩
          intro fs' hfs'
          rcases List.mem_cons.mp hfs' with rfl | hfs'
          · exact Or.inr hafter
          · exact hbefore fs' hfs'

/-- A file `p` with the contents `o`. -/
def oneFile : FileSystem := ⟨fun name => if name = [112] then some 0 else none, fun _ => [111]⟩

/-- All calls succeed; `n` bytes arrive. -/
def writing (n : Nat) : Calls := ⟨some ([97, 98, 99, 100, 101, 102], 1), (true, n), true, true⟩

theorem possible_writing {n : Nat} {data : Bytes} (hn : n ≤ data.length) : (writing n).Possible oneFile data where
  fresh := by
    intro r file h
    obtain ⟨rfl, rfl⟩ := Prod.mk.inj (Option.some.inj h)
    refine ⟨rfl, by simp [NulFree], rfl, ?_⟩
    intro name
    simp only [oneFile]
    split <;> simp
  sent := hn

theorem file_write_replaces_iff_ab :
    Replaces [112] (some [111]) [97, 98]
      ((fileWrite (writing 2) (ofText [112]).1 (ofText [97, 98]).1).run (World.start oneFile)) := by
  refine (file_write_replaces_iff (ofText [112]).2 (ofText [97, 98]).2 (possible_writing (by decide))).mpr
    ⟨?_, ?_⟩
  · rintro ⟨-, r, file, h, hname⟩
    obtain ⟨rfl, rfl⟩ := Prod.mk.inj (Option.some.inj h)
    exact absurd hname (by decide)
  · rintro ⟨-, -, h, -⟩
    exact absurd h (by decide)

/-- One of the two bytes arrives: `file_write` succeeds, and the file holds that one byte. -/
theorem file_write_short_write :
    (writing 1).Possible oneFile [97, 98] ∧
      (∃ w, (fileWrite (writing 1) (ofText [112]).1 (ofText [97, 98]).1).run (World.start oneFile) = .ok () w ∧
        w.fs.contents [112] = some [97]) ∧
      ¬ Replaces [112] (some [111]) [97, 98]
        ((fileWrite (writing 1) (ofText [112]).1 (ofText [97, 98]).1).run (World.start oneFile)) := by
  have hrun : ∃ w, (fileWrite (writing 1) (ofText [112]).1 (ofText [97, 98]).1).run (World.start oneFile) =
      .ok () w ∧ w.fs.contents [112] = some [97] := ⟨_, rfl, rfl⟩
  refine ⟨possible_writing (by decide), hrun, ?_⟩
  obtain ⟨w, hw, hone⟩ := hrun
  rw [hw]
  rintro ⟨-, h⟩
  rw [hone] at h
  exact absurd h (by decide)

end NcFile
