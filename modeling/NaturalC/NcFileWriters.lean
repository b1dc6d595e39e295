import NaturalC.Linearize
import NaturalC.NcFile

/-!
# Concurrent writers

Any number of calls of `file_write` at the same time, with turns from one system call to the next and, within
`write(2)`, from one byte to the next. Each call works on a temporary file of its own, and the file
that it is to replace changes in the one turn that renames it.
-/
namespace NcFile

open Throwing Throwing.Act NcString Linearize

/-- Where a call of `file_write` is. -/
inductive Stage where
  | start
  /-- In `file_puts`, with so many bytes in the temporary file. -/
  | puts (template : Str) (fd sent : Nat)
  | closes (template : Str) (fd : Nat)
  | renames (template : Str) (fd : Nat)
  | ended (succeeded : Bool)

/-- A call of `file_write`, and what its system calls answer. -/
structure Writer where
  path : Str
  data : Str
  calls : Calls
  stage : Stage

/-- The temporary file has been made, or not. -/
def Writer.made (w : Writer) (template : Str) : Option (Bytes × Nat) → Act World Writer
  | none => pure { w with stage := .ended false }
  | some (name, fd) => do
    let copied ← onLocal (strCpy true (name ++ [0])) template
    pure { w with stage := .puts copied.2 fd 0 }

/-- From one system call to the next one. -/
def Writer.turn (w : Writer) : Act World Writer :=
  match w.stage with
  | .start => do
    let template ← strNew true true
    let made ← mkstemp w.calls tempTemplate
    w.made template made
  | .puts template fd sent =>
    if w.data.len = 0 then pure { w with stage := .closes template fd }
    else if sent < w.calls.write.2 then do
      let value ← deref w.data.value
      change fun fs => { fs with data := Function.update fs.data fd ((value.take w.data.len).take (sent + 1)) }
      pure { w with stage := .puts template fd (sent + 1) }
    else pure { w with stage := if w.calls.write.1 then .closes template fd else .ended false }
  | .closes template fd => pure { w with stage := if w.calls.close then .renames template fd else .ended false }
  | .renames template _ => do
    let renamed ← attempt (fileRename w.calls template w.path)
    pure { w with stage := .ended renamed.isSome }
  | .ended _ => pure w

/-- The writers and the file system that they share. -/
structure Writers where
  world : World
  calls : List Writer

/-- What a successful call has put where. -/
def Writer.replacement (w : Writer) : Bytes × Bytes := (cText w.path.text, w.data.text.take w.calls.write.2)

def Stage.succeeded : Stage → Bool
  | .ended ok => ok
  | _ => false

/-- The turn after which a writer is like this is marked if the call has returned in it without an error. -/
def Writer.marks (w : Writer) : List (Bytes × Bytes) := if w.stage.succeeded then [w.replacement] else []

/-- One of the writers that are at work takes its turn. `mkstemp(3)` makes a file that has been neither there
nor in use. -/
inductive Writers.Step (s : Writers) : List (Bytes × Bytes) → Writers → Prop
  | turn {i : Nat} {w w' : Writer} {world : World} (hw : s.calls[i]? = some w)
      (hwork : ∀ ok, w.stage ≠ .ended ok) (hfresh : w.stage = .start → w.calls.Possible s.world.fs w.data.text)
      (hrun : w.turn.run s.world = .ok w' world) : Writers.Step s w'.marks ⟨world, s.calls.set i w'⟩

/-- The names that `mkstemp(3)` gives. -/
def Temp (name : Bytes) : Prop := ∃ r : Bytes, r.length = 6 ∧ NulFree r ∧ name = tempName r

/-- A temporary file at work has one name, which its writer knows, and its bytes. -/
structure Temporary (fs : FileSystem) (template : Str) (fd : Nat) (bytes : Bytes) : Prop where
  name : ∃ r, r.length = 6 ∧ NulFree r ∧ Holds template (tempName r)
  entry : fs.entry template.text = some fd
  only : ∀ name, fs.entry name = some fd → name = template.text
  data : fs.data fd = bytes

def Stage.file? : Stage → Option Nat
  | .puts _ fd _ => some fd
  | .closes _ fd => some fd
  | .renames _ fd => some fd
  | _ => none

/-- What is in the temporary file of a writer. -/
def Writer.Stands (fs : FileSystem) (w : Writer) : Stage → Prop
  | .puts template fd sent =>
    Temporary fs template fd (w.data.text.take sent) ∧ sent ≤ w.calls.write.2
  | .closes template fd => Temporary fs template fd (w.data.text.take w.calls.write.2)
  | .renames template fd => Temporary fs template fd (w.data.text.take w.calls.write.2)
  | _ => True

/-- A call that replaces a file which is not a temporary one. -/
structure Writer.Proper (w : Writer) : Prop where
  path : w.path.WF
  data : w.data.WF
  target : ¬ Temp (cText w.path.text)

variable {fs fs' : FileSystem} {w w' : Writer} {template : Str} {fd sent : Nat} {bytes : Bytes}

theorem Temporary.temp (h : Temporary fs template fd bytes) : Temp template.text := by
  obtain ⟨r, hr, hnul, ht⟩ := h.name
  exact ⟨r, hr, hnul, ht.text⟩

/-- A name that is not temporary does not lead to the file. -/
theorem Temporary.other (h : Temporary fs template fd bytes) {name : Bytes} (hname : ¬ Temp name) :
    fs.entry name ≠ some fd := by
  intro he
  rw [h.only name he] at hname
  exact hname h.temp

/-! ## What others do to a temporary file -/

/-- Another temporary file is made. -/
theorem Temporary.mkstemp (h : Temporary fs template fd bytes) {name : Bytes} {file : Nat}
    (hname : fs.entry name = none) (hfile : ∀ name, fs.entry name ≠ some file) :
    Temporary ⟨Function.update fs.entry name (some file), Function.update fs.data file []⟩ template fd bytes where
  name := h.name
  entry := by
    have hne : template.text ≠ name := by
      rintro rfl
      rw [h.entry] at hname
      cases hname
    rw [← h.entry]
    exact Function.update_of_ne hne _ _
  only := by
    intro other hother
    by_cases hne : other = name
    · rw [hne] at hother
      have hfd : file = fd := by simpa using hother
      rw [← hfd] at h
      exact absurd h.entry (hfile _)
    · exact h.only other (by simpa [Function.update_of_ne hne] using hother)
  data := by
    have hne : fd ≠ file := by
      rintro rfl
      exact hfile _ h.entry
    rw [← h.data]
    exact Function.update_of_ne hne _ _

/-- Another file gets bytes. -/
theorem Temporary.put (h : Temporary fs template fd bytes) {other : Nat} (hne : fd ≠ other) (more : Bytes) :
    Temporary { fs with data := Function.update fs.data other more } template fd bytes where
  name := h.name
  entry := h.entry
  only := h.only
  data := by
    rw [← h.data]
    exact Function.update_of_ne hne _ _

/-- Another temporary file is renamed. -/
theorem Temporary.moved (h : Temporary fs template fd bytes) {src dest : Bytes} {other : Nat}
    (hsrc : fs.entry src = some other) (hne : fd ≠ other) (hdest : ¬ Temp dest) :
    Temporary (moved src dest fs) template fd bytes := by
  have hnsrc : template.text ≠ src := by
    rintro rfl
    rw [h.entry] at hsrc
    exact hne (Option.some.inj hsrc)
  have hndest : template.text ≠ dest := by
    rintro rfl
    exact hdest h.temp
  rw [NcFile.moved]
  split_ifs with heq
  · exact h
  · refine ⟨h.name, ?_, ?_, h.data⟩
    · rw [← h.entry]
      exact (Function.update_of_ne hnsrc _ _).trans (Function.update_of_ne hndest _ _)
    · intro name hname
      by_cases h₁ : name = src
      · rw [h₁] at hname
        simp at hname
      · by_cases h₂ : name = dest
        · rw [h₂] at hname
          simp only [Function.update_of_ne (Ne.symm heq), Function.update_self] at hname
          rw [hsrc] at hname
          exact absurd (Option.some.inj hname).symm hne
        · simp only [Function.update_of_ne h₁, Function.update_of_ne h₂] at hname
          exact h.only name hname

/-! ## One turn -/

/-- What one turn of a writer does: it keeps to its own temporary file, and what it changes elsewhere is what it is
marked with. -/
structure Effect (fs fs' : FileSystem) (w w' : Writer) : Prop where
  call : w'.path = w.path ∧ w'.data = w.data ∧ w'.calls = w.calls
  stands : w'.Stands fs' w'.stage
  others : ∀ {template : Str} {fd : Nat} {bytes : Bytes}, Temporary fs template fd bytes → w.stage.file? ≠ some fd →
    Temporary fs' template fd bytes
  file : ∀ fd, w'.stage.file? = some fd → w.stage.file? = some fd ∨ ∀ name, fs.entry name ≠ some fd
  view : ∀ p, ¬ Temp p → fs'.contents p = replaceAll w'.marks fs.contents p

/-- Nothing happens to the file system. -/
theorem Effect.still {stage : Stage} (hstands : w.Stands fs stage)
    (hfile : ∀ fd, stage.file? = some fd → w.stage.file? = some fd) (hend : stage.succeeded = false) :
    Effect fs fs w { w with stage := stage } where
  call := ⟨rfl, rfl, rfl⟩
  stands := by
    cases stage with
    | start => trivial
    | puts => exact hstands
    | closes => exact hstands
    | renames => exact hstands
    | ended => trivial
  others := fun h _ => h
  file := fun fd h => Or.inl (hfile fd h)
  view := by
    intro p _
    rw [Writer.marks, hend]
    rfl

theorem contents_of_same {name : Bytes} {file : Nat} (more : Bytes) (h : fs.entry name ≠ some file) :
    FileSystem.contents { fs with data := Function.update fs.data file more } name = fs.contents name := by
  rw [FileSystem.contents, FileSystem.contents]
  cases hf : fs.entry name with
  | none => rfl
  | some f =>
    have hne : f ≠ file := by
      rintro rfl
      exact h hf
    exact congrArg some (Function.update_of_ne hne _ _)

/-- The call of `mkstemp(3)`. -/
theorem effect_start {world world' : World} (hstage : w.stage = .start)
    (hfresh : w.calls.Possible world.fs w.data.text) (hrun : w.turn.run world = .ok w' world') :
    Effect world.fs world'.fs w w' := by
  obtain ⟨str, hnew, hstr, -⟩ := strNew_holds world
  rw [Writer.turn, hstage] at hrun
  dsimp only at hrun
  rw [run_bind_ok hnew] at hrun
  cases hm : w.calls.mkstemp with
  | none =>
    have hmade : (NcFile.mkstemp w.calls tempTemplate).run world = .ok none world := by
      rw [NcFile.mkstemp, hm]
      rfl
    rw [run_bind_ok hmade] at hrun
    cases hrun
    apply Effect.still
    · trivial
    · intro fd hfd
      cases hfd
    · rfl
  | some made =>
    obtain ⟨r, file⟩ := made
    obtain ⟨hr, hnul, hentry, hfile⟩ := hfresh.fresh hm
    have hmade : (NcFile.mkstemp w.calls tempTemplate).run world = .ok (some (tempName r, file))
        ⟨⟨Function.update world.fs.entry (tempName r) (some file), Function.update world.fs.data file []⟩,
          ⟨Function.update world.fs.entry (tempName r) (some file), Function.update world.fs.data file []⟩ ::
            world.seen⟩ := by
      rw [NcFile.mkstemp, hm]
      rfl
    have hcstr : cString (tempName r ++ [0]) = some (tempName r) := by
      rw [cString_cText, cText_of_nulFree (nulFree_tempName hnul)]
    have hfit : (tempName r).length < stringMax := by
      rw [tempName, List.length_append, hr]
      decide
    obtain ⟨template, hcpy, ht, -⟩ := (strCpy_holds hstr hcstr).1 hfit
    rw [run_bind_ok hmade, Writer.made, run_bind_ok (run_onLocal_ok hcpy _)] at hrun
    cases hrun
    refine ⟨⟨rfl, rfl, rfl⟩, ⟨⟨⟨r, hr, hnul, ht⟩, ?_, ?_, ?_⟩, Nat.zero_le _⟩,
      fun h _ => h.mkstemp hentry hfile, ?_, ?_⟩
    · rw [ht.text]
      exact Function.update_self _ _ _
    · intro name hname
      by_cases hne : name = tempName r
      · rw [hne, ht.text]
      · exact absurd (by simpa [Function.update_of_ne hne] using hname) (hfile name)
    · exact Function.update_self _ _ _
    · intro fd hfd
      obtain rfl : file = fd := by simpa [Stage.file?] using hfd
      exact Or.inr hfile
    · intro p hp
      have hne : p ≠ tempName r := fun h => hp ⟨r, hr, hnul, h⟩
      change FileSystem.contents ⟨Function.update world.fs.entry (tempName r) (some file), _⟩ p = world.fs.contents p
      rw [← contents_of_same [] (hfile p)]
      simp only [FileSystem.contents, Function.update_of_ne hne]

/-- The calls of `write(2)`, of which each turn is one byte. -/
theorem effect_puts {world world' : World} (hp : w.Proper) (hstage : w.stage = .puts template fd sent)
    (hs : w.Stands world.fs w.stage) (hrun : w.turn.run world = .ok w' world') :
    Effect world.fs world'.fs w w' := by
  rw [hstage] at hs
  obtain ⟨htemp, hsent⟩ := hs
  obtain ⟨rest, hv, -⟩ := hp.data.value
  have hlen := hp.data.len
  have hfile : w.stage.file? = some fd := by rw [hstage]; rfl
  rw [Writer.turn, hstage] at hrun
  dsimp only at hrun
  split_ifs at hrun with hnil hmore hok
  · -- nothing is to be written
    cases hrun
    have hempty : w.data.text = [] := List.length_eq_zero_iff.mp (hlen.symm.trans hnil)
    apply Effect.still
    · rw [hempty] at htemp
      simpa [Writer.Stands, hempty] using htemp
    · intro fd' hfd'
      rw [hfile]
      exact hfd'
    · rfl
  · -- one more byte
    have htake : (w.data.text ++ 0 :: rest).take w.data.len = w.data.text := List.take_left' hlen.symm
    simp only [hv, deref_some, run_bind_ret, htake, run_bind_change] at hrun
    cases hrun
    refine ⟨⟨rfl, rfl, rfl⟩, ⟨⟨htemp.name, htemp.entry, htemp.only, Function.update_self _ _ _⟩, hmore⟩, ?_, ?_, ?_⟩
    · intro template' fd' bytes' h hne
      rw [hfile] at hne
      exact h.put (fun heq => hne (congrArg some heq.symm)) _
    · intro fd' hfd'
      rw [hfile]
      exact Or.inl hfd'
    · intro p hp'
      exact contents_of_same _ (htemp.other hp')
  · -- `write(2)` returns
    cases hrun
    have hall : sent = w.calls.write.2 := by omega
    rw [hall] at htemp
    apply Effect.still
    · exact htemp
    · intro fd' hfd'
      rw [hfile]
      exact hfd'
    · rfl
  · cases hrun
    apply Effect.still
    · trivial
    · intro fd' hfd'
      cases hfd'
    · rfl

theorem effect_closes {world world' : World} (hstage : w.stage = .closes template fd)
    (hs : w.Stands world.fs w.stage) (hrun : w.turn.run world = .ok w' world') :
    Effect world.fs world'.fs w w' := by
  have hfile : w.stage.file? = some fd := by rw [hstage]; rfl
  rw [hstage] at hs
  rw [Writer.turn, hstage] at hrun
  dsimp only at hrun
  cases hok : w.calls.close with
  | true =>
    rw [hok] at hrun
    cases hrun
    apply Effect.still
    · exact hs
    · intro fd' hfd'
      rw [hfile]
      exact hfd'
    · rfl
  | false =>
    rw [hok] at hrun
    cases hrun
    apply Effect.still
    · trivial
    · intro fd' hfd'
      cases hfd'
    · rfl

/-- The file appears under its new name, and nothing else does. -/
theorem contents_moved_other {src dest p : Bytes} (hsrc : p ≠ src) (hdest : p ≠ dest) :
    (moved src dest fs).contents p = fs.contents p := by
  rw [moved]
  split_ifs
  · rfl
  · simp only [FileSystem.contents, Function.update_of_ne hsrc, Function.update_of_ne hdest]

/-- The call of `rename(2)`. -/
theorem effect_renames {world world' : World} (hp : w.Proper) (hstage : w.stage = .renames template fd)
    (hs : w.Stands world.fs w.stage) (hrun : w.turn.run world = .ok w' world') :
    Effect world.fs world'.fs w w' := by
  rw [hstage] at hs
  have htemp : Temporary world.fs template fd (w.data.text.take w.calls.write.2) := hs
  obtain ⟨r, hr, hnul, ht⟩ := htemp.name
  have hentry := htemp.entry
  rw [ht.text] at hentry
  have hne : tempName r ≠ [] := by simp [tempName]
  have hren := @fileRename_run w.calls _ _ _ ht hp.path hne (nulFree_tempName hnul) world
  rw [Writer.turn, hstage] at hrun
  dsimp only at hrun
  split_ifs at hren with hok
  · rw [run_bind_ok (run_attempt_ok hren)] at hrun
    cases hrun
    refine ⟨⟨rfl, rfl, rfl⟩, trivial, ?_, ?_, ?_⟩
    · intro template' fd' bytes' h hne
      rw [hstage] at hne
      exact h.moved hentry (fun heq => hne (congrArg some heq.symm)) hp.target
    · intro fd' hfd'
      cases hfd'
    · intro p hp'
      change (moved (tempName r) (cText w.path.text) world.fs).contents p =
        replaceAll [(cText w.path.text, w.data.text.take w.calls.write.2)] world.fs.contents p
      rw [replaceAll_singleton]
      have hsrc : p ≠ tempName r := fun h => hp' ⟨r, hr, hnul, h⟩
      by_cases hdest : p = cText w.path.text
      · rw [if_pos hdest, hdest, contents_moved _ hentry, htemp.data]
      · rw [if_neg hdest, contents_moved_other hsrc hdest]
  · rw [run_bind_ok (run_attempt_thrown hren)] at hrun
    cases hrun
    apply Effect.still
    · trivial
    · intro fd' hfd'
      cases hfd'
    · rfl

/-- One turn, wherever the writer is. -/
theorem effect_turn {world world' : World} (hp : w.Proper) (hs : w.Stands world.fs w.stage)
    (hwork : ∀ ok, w.stage ≠ .ended ok) (hfresh : w.stage = .start → w.calls.Possible world.fs w.data.text)
    (hrun : w.turn.run world = .ok w' world') :
    Effect world.fs world'.fs w w' := by
  cases hstage : w.stage with
  | start => exact effect_start hstage (hfresh hstage) hrun
  | puts template fd sent => exact effect_puts hp hstage hs hrun
  | closes template fd => exact effect_closes hstage hs hrun
  | renames template fd => exact effect_renames hp hstage hs hrun
  | ended ok => exact absurd hstage (hwork ok)

/-! ## All turns -/

/-- The writers are at work on files of their own, and those that have succeeded are marked. -/
structure Sound (cs : List (Bytes × Bytes)) (s : Writers) : Prop where
  proper : ∀ w ∈ s.calls, w.Proper
  stands : ∀ w ∈ s.calls, w.Stands s.world.fs w.stage
  apart : ∀ {i j : Nat} {w v : Writer} {fd : Nat}, s.calls[i]? = some w → s.calls[j]? = some v →
    w.stage.file? = some fd → v.stage.file? = some fd → i = j
  log : cs.Perm ((s.calls.filter fun w => w.stage.succeeded).map Writer.replacement)

theorem exists_temporary (hs : w.Stands fs w.stage) (hfile : w.stage.file? = some fd) :
    ∃ template bytes, Temporary fs template fd bytes := by
  cases hstage : w.stage with
  | start =>
    rw [hstage] at hfile
    cases hfile
  | puts template fd' sent =>
    rw [hstage] at hs hfile
    obtain rfl := Option.some.inj hfile
    exact ⟨template, _, hs.1⟩
  | closes template fd' =>
    rw [hstage] at hs hfile
    obtain rfl := Option.some.inj hfile
    exact ⟨template, _, hs⟩
  | renames template fd' =>
    rw [hstage] at hs hfile
    obtain rfl := Option.some.inj hfile
    exact ⟨template, _, hs⟩
  | ended ok =>
    rw [hstage] at hfile
    cases hfile

/-- The turn of one writer leaves the others where they are. -/
theorem Effect.stands_other {v : Writer} (e : Effect fs fs' w w') (hs : v.Stands fs v.stage)
    (hne : ∀ fd, v.stage.file? = some fd → w.stage.file? ≠ some fd) : v.Stands fs' v.stage := by
  cases hstage : v.stage with
  | start => trivial
  | puts template fd sent =>
    rw [hstage] at hs hne
    exact ⟨e.others hs.1 (hne fd rfl), hs.2⟩
  | closes template fd =>
    rw [hstage] at hs hne
    exact e.others hs (hne fd rfl)
  | renames template fd =>
    rw [hstage] at hs hne
    exact e.others hs (hne fd rfl)
  | ended ok => trivial

theorem not_succeeded (hwork : ∀ ok, w.stage ≠ .ended ok) : w.stage.succeeded = false := by
  cases hstage : w.stage with
  | ended ok => exact absurd hstage (hwork ok)
  | _ => rfl

theorem filter_set {l : List Writer} {i : Nat} (hw : l[i]? = some w) (hno : w.stage.succeeded = false) :
    (w'.marks ++ (l.filter fun w => w.stage.succeeded).map Writer.replacement).Perm
      (((l.set i w').filter fun w => w.stage.succeeded).map Writer.replacement) := by
  induction l generalizing i with
  | nil => cases hw
  | cons v l ih =>
    cases i with
    | zero =>
      obtain rfl : v = w := Option.some.inj hw
      rw [List.set_cons_zero, List.filter_cons_of_neg (by simp [hno]), List.filter_cons, Writer.marks]
      split_ifs
      · exact List.Perm.refl _
      · exact List.Perm.refl _
    | succ i =>
      have hrest := ih (i := i) hw
      rw [List.set_cons_succ, List.filter_cons, List.filter_cons]
      split_ifs
      · exact List.perm_middle.trans (hrest.cons _)
      · exact hrest

/-- A file that a writer has after its turn is not one that another writer has. -/
theorem Sound.apart_turn {cs : List (Bytes × Bytes)} {s : Writers} (h : Sound cs s) (e : Effect s.world.fs fs' w w')
    {i j : Nat} {v : Writer} (hw : s.calls[i]? = some w) (hv : s.calls[j]? = some v) (hne : i ≠ j)
    (hfile : w'.stage.file? = some fd) : v.stage.file? ≠ some fd := by
  intro hfile'
  rcases e.file fd hfile with hold | hnew
  · exact hne (h.apart hw hv hold hfile')
  · obtain ⟨template, bytes, htemp⟩ := exists_temporary (h.stands v (List.mem_of_getElem? hv)) hfile'
    exact hnew _ htemp.entry

theorem sound_step {cs ds : List (Bytes × Bytes)} {s u : Writers} (h : Sound cs s) (hstep : s.Step ds u) :
    Sound (cs ++ ds) u ∧ ∀ p, ¬ Temp p → u.world.fs.contents p = replaceAll ds s.world.fs.contents p := by
  obtain ⟨hw, hwork, hfresh, hrun⟩ := hstep
  rename_i i w w' world
  have hmem := List.mem_of_getElem? hw
  have hp := h.proper w hmem
  have e := effect_turn hp (h.stands w hmem) hwork hfresh hrun
  obtain ⟨hlt, hget⟩ := List.getElem?_eq_some_iff.mp hw
  refine ⟨⟨?_, ?_, ?_, ?_⟩, e.view⟩
  · intro v hv
    rcases List.mem_or_eq_of_mem_set hv with hv | rfl
    · exact h.proper v hv
    · obtain ⟨hpath, hdata, -⟩ := e.call
      exact ⟨by rw [hpath]; exact hp.path, by rw [hdata]; exact hp.data, by rw [hpath]; exact hp.target⟩
  · intro v hv
    obtain ⟨j, hj⟩ := List.getElem?_of_mem hv
    by_cases hij : i = j
    · rw [hij, List.getElem?_set_self (by omega)] at hj
      obtain rfl := Option.some.inj hj
      exact e.stands
    · rw [List.getElem?_set_ne hij] at hj
      exact e.stands_other (h.stands v (List.mem_of_getElem? hj)) fun fd hfd hfd' => hij (h.apart hw hj hfd' hfd)
  · intro a b v x fd ha hb hfile hfile'
    by_cases hia : i = a
    · by_cases hib : i = b
      · rw [← hia, hib]
      · rw [← hia, List.getElem?_set_self (by omega)] at ha
        rw [List.getElem?_set_ne hib] at hb
        obtain rfl := Option.some.inj ha
        exact absurd hfile' (h.apart_turn e hw hb hib hfile)
    · rw [List.getElem?_set_ne hia] at ha
      by_cases hib : i = b
      · rw [← hib, List.getElem?_set_self (by omega)] at hb
        obtain rfl := Option.some.inj hb
        exact absurd hfile (h.apart_turn e hw ha hia hfile')
      · rw [List.getElem?_set_ne hib] at hb
        exact h.apart ha hb hfile hfile'
  · refine List.Perm.trans ?_ (filter_set hw (not_succeeded hwork))
    exact List.perm_append_comm.trans (h.log.append_left _)

/-! ## A writer that is alone -/

def Writer.turns (w : Writer) : Nat → Act World Writer
  | 0 => pure w
  | n + 1 => do
    let w' ← w.turns n
    w'.turn

theorem turns_succ {n : Nat} {world world' : World} {o : Outcome World Writer}
    (h : (w.turns n).run world = .ok w' world') (hturn : w'.turn.run world' = o) :
    (w.turns (n + 1)).run world = o := by
  rw [Writer.turns, run_bind_ok h, hturn]

/-- How a call returns. -/
def returned (w : Writer) (world : World) : Outcome World Unit :=
  if w.stage.succeeded then .ok () world else .thrown world

/-- The turns within `write(2)` are the bytes that arrive. -/
theorem turns_arrive {rest : Bytes} {n m : Nat} {world₀ world : World}
    (hvalue : w.data.value = some (w.data.text ++ 0 :: rest)) (hlen : w.data.len = w.data.text.length)
    (hnil : w.data.len ≠ 0) (hstart : (w.turns n).run world₀ = .ok { w with stage := .puts template fd 0 } world)
    (hm : m ≤ w.calls.write.2) :
    ∃ world', (arrive fd w.data.text m).run world = .ok () world' ∧
      (w.turns (n + m)).run world₀ = .ok { w with stage := .puts template fd m } world' := by
  induction m with
  | zero => exact ⟨world, rfl, hstart⟩
  | succ m ih =>
    obtain ⟨world', harrive, hturns⟩ := ih (by omega)
    have htake : (w.data.text ++ 0 :: rest).take w.data.len = w.data.text := List.take_left' hlen.symm
    obtain ⟨world'', hchange⟩ : ∃ world'', (change fun fs => { fs with
        data := Function.update fs.data fd (w.data.text.take (m + 1)) }).run world' = .ok () world'' := ⟨_, rfl⟩
    refine ⟨world'', ?_, turns_succ hturns ?_⟩
    · rw [arrive, run_bind_ok harrive, hchange]
    · rw [Writer.turn]
      dsimp only
      rw [if_neg hnil, if_pos (by omega)]
      simp only [hvalue, deref_some, run_bind_ret, htake]
      rw [run_bind_ok hchange]
      rfl

/-- All bytes have arrived that `write(2)` has taken. -/
theorem filePuts_arrive {calls : Calls} {data : Str} {rest : Bytes} {world world' : World}
    (hvalue : data.value = some (data.text ++ 0 :: rest)) (hlen : data.len = data.text.length) (hnil : data.len ≠ 0)
    (harrive : (arrive fd data.text calls.write.2).run world = .ok () world') :
    (filePuts calls fd data).run world = if calls.write.1 then .ok () world' else .thrown world' := by
  have htake : (data.text ++ 0 :: rest).take data.len = data.text := List.take_left' hlen.symm
  have hwrite : (write calls fd data.text).run world =
      .ok (if calls.write.1 then some calls.write.2 else none) world' := by
    rw [write, run_bind_ok harrive]
    rfl
  rw [filePuts, if_neg hnil]
  simp only [hvalue, deref_some, run_bind_ret, htake]
  rw [run_bind_ok hwrite]
  cases calls.write.1 with
  | false => rfl
  | true => rfl

/-- From the last system calls on. -/
theorem turns_end (fd : Nat) {n : Nat} {world₀ world : World}
    (h : (w.turns n).run world₀ = .ok { w with stage := .closes template fd } world)
    (hfile : ∃ t, ((fileRename w.calls template w.path).run world = .ok () t ∨
      (fileRename w.calls template w.path).run world = .thrown t)) :
    ∃ n w' world', (w.turns n).run world₀ = .ok w' world' ∧ (∃ ok, w'.stage = .ended ok) ∧
      (if w.calls.close then fileRename w.calls template w.path else throwing).run world = returned w' world' := by
  cases hclose : w.calls.close with
  | false =>
    refine ⟨n + 1, { w with stage := .ended false }, world, turns_succ h ?_, ⟨_, rfl⟩, rfl⟩
    rw [Writer.turn, hclose]
    rfl
  | true =>
    have hnext : (w.turns (n + 1)).run world₀ = .ok { w with stage := .renames template fd } world := by
      apply turns_succ h
      rw [Writer.turn, hclose]
      rfl
    obtain ⟨t, hrun | hrun⟩ := hfile
    · refine ⟨n + 2, { w with stage := .ended true }, t, turns_succ hnext ?_, ⟨_, rfl⟩, ?_⟩
      · rw [Writer.turn]
        dsimp only
        rw [run_bind_ok (run_attempt_ok hrun)]
        rfl
      · rw [if_pos rfl, hrun]
        rfl
    · refine ⟨n + 2, { w with stage := .ended false }, t, turns_succ hnext ?_, ⟨_, rfl⟩, ?_⟩
      · rw [Writer.turn]
        dsimp only
        rw [run_bind_ok (run_attempt_thrown hrun)]
        rfl
      · rw [if_pos rfl, hrun]
        rfl

/-- The turns of a writer that is alone are the call of `file_write`. -/
theorem writer_alone (hp : w.path.WF) (hd : w.data.WF) (hstage : w.stage = .start) {world : World}
    (hname : ∀ r file, w.calls.mkstemp = some (r, file) → r.length = 6 ∧ NulFree r) :
    ∃ n w' world', (w.turns n).run world = .ok w' world' ∧ (∃ ok, w'.stage = .ended ok) ∧
      (fileWrite w.calls w.path w.data).run world = returned w' world' := by
  obtain ⟨str, hnew, hstr, -⟩ := strNew_holds world
  cases hm : w.calls.mkstemp with
  | none =>
    have hmade : (NcFile.mkstemp w.calls tempTemplate).run world = .ok none world := by
      rw [NcFile.mkstemp, hm]
      rfl
    refine ⟨1, { w with stage := .ended false }, world, turns_succ rfl ?_, ⟨_, rfl⟩, ?_⟩
    · rw [Writer.turn, hstage]
      dsimp only
      rw [run_bind_ok hnew, run_bind_ok hmade]
      rfl
    · rw [fileWrite, run_bind_ok hnew, run_bind_ok hmade]
      rfl
  | some made =>
    obtain ⟨r, file⟩ := made
    obtain ⟨hr, hnul⟩ := hname r file hm
    obtain ⟨world₁, hmade⟩ : ∃ world₁, (NcFile.mkstemp w.calls tempTemplate).run world =
        .ok (some (tempName r, file)) world₁ := by
      rw [NcFile.mkstemp, hm]
      exact ⟨_, rfl⟩
    have hcstr : cString (tempName r ++ [0]) = some (tempName r) := by
      rw [cString_cText, cText_of_nulFree (nulFree_tempName hnul)]
    have hfit : (tempName r).length < stringMax := by
      rw [tempName, List.length_append, hr]
      decide
    obtain ⟨template, hcpy, ht, -⟩ := (strCpy_holds hstr hcstr).1 hfit
    have hfirst : (w.turns 1).run world = .ok { w with stage := .puts template file 0 } world₁ := by
      apply turns_succ rfl
      rw [Writer.turn, hstage]
      dsimp only
      rw [run_bind_ok hnew, run_bind_ok hmade, Writer.made, run_bind_ok (run_onLocal_ok hcpy _)]
      rfl
    have hrename : ∀ u : World, ∃ t, ((fileRename w.calls template w.path).run u = .ok () t ∨
        (fileRename w.calls template w.path).run u = .thrown t) := by
      intro u
      rw [fileRename_run ht hp (by simp [tempName]) (nulFree_tempName hnul) u]
      split_ifs
      · exact ⟨_, Or.inl rfl⟩
      · exact ⟨_, Or.inr rfl⟩
    rw [fileWrite, run_bind_ok hnew, run_bind_ok hmade]
    dsimp only
    rw [run_bind_ok (run_onLocal_ok hcpy _)]
    obtain ⟨rest, hvalue, -⟩ := hd.value
    have hlen := hd.len
    by_cases hnil : w.data.len = 0
    · have hputs : (filePuts w.calls file w.data).run world₁ = .ok () world₁ := by
        rw [filePuts, if_pos hnil]
        rfl
      rw [run_bind_ok hputs]
      refine turns_end file (n := 2) ?_ (hrename world₁)
      apply turns_succ hfirst
      rw [Writer.turn]
      dsimp only
      rw [if_pos hnil]
      rfl
    · obtain ⟨world₂, harrive, hturns⟩ := turns_arrive hvalue hlen hnil hfirst (Nat.le_refl _)
      have hputs := filePuts_arrive hvalue hlen hnil harrive
      have hlast : (w.turns (1 + w.calls.write.2 + 1)).run world = .ok
          { w with stage := if w.calls.write.1 then .closes template file else .ended false } world₂ := by
        apply turns_succ hturns
        rw [Writer.turn]
        dsimp only
        rw [if_neg hnil, if_neg (Nat.lt_irrefl _)]
        rfl
      cases hok : w.calls.write.1 with
      | false =>
        rw [hok] at hlast hputs
        refine ⟨_, _, _, hlast, ⟨_, rfl⟩, ?_⟩
        rw [run_bind_thrown hputs]
        rfl
      | true =>
        rw [hok] at hlast hputs
        rw [run_bind_ok hputs]
        exact turns_end file hlast (hrename world₂)

/-! ## All of them together -/

/-- So many calls of `file_write` that have not yet begun. -/
structure Writers.Ready (s : Writers) : Prop where
  proper : ∀ w ∈ s.calls, w.Proper
  start : ∀ w ∈ s.calls, w.stage = .start

theorem Writers.Ready.sound {s : Writers} (h : s.Ready) : Sound [] s where
  proper := h.proper
  stands := by
    intro w hw
    rw [h.start w hw]
    trivial
  apart := by
    intro i j w v fd hw _ hfile
    rw [h.start w (List.mem_of_getElem? hw)] at hfile
    cases hfile
  log := by
    have hnil : (s.calls.filter fun w => w.stage.succeeded) = [] := by
      rw [List.filter_eq_nil_iff]
      intro w hw
      rw [h.start w hw]
      exact Bool.false_ne_true
    rw [hnil]
    exact List.Perm.nil

/-- However the calls take turns, and wherever they are stopped: a file that is not a temporary one is as if the
calls that have returned without an error had each replaced it at once, in the order in which they have
renamed, and the others had done nothing. So it holds what it held at first, or what one of these calls was
given, as far as `write(2)` has taken it. -/
theorem file_writers_linearize {s u : Writers} {cs : List (Bytes × Bytes)} (hs : s.Ready)
    (hrun : Runs Writers.Step s cs u) :
    cs.Perm ((u.calls.filter fun w => w.stage.succeeded).map Writer.replacement) ∧ ∀ p, ¬ Temp p →
      u.world.fs.contents p = replaceAll cs s.world.fs.contents p ∧
      (u.world.fs.contents p = s.world.fs.contents p ∨ ∃ w ∈ u.calls, w.stage.succeeded = true ∧
        cText w.path.text = p ∧ u.world.fs.contents p = some (w.data.text.take w.calls.write.2)) := by
  obtain ⟨hsound, hview⟩ := hrun.linearizes (fun s => s.world.fs.contents) hs.sound
    (fun _ _ _ _ h hstep => sound_step h hstep)
  refine ⟨hsound.log, ?_⟩
  intro p hp
  have hnow := hview p hp
  refine ⟨hnow, ?_⟩
  rcases replaceAll_cases cs s.world.fs.contents p with ⟨-, hsame⟩ | ⟨c, hc, hkey, hvalue⟩
  · exact Or.inl (hnow.trans hsame)
  · obtain ⟨w, hw, rfl⟩ := List.mem_map.mp (hsound.log.mem_iff.mp hc)
    obtain ⟨hmem, hok⟩ := List.mem_filter.mp hw
    exact Or.inr ⟨w, hmem, hok, hkey, hnow.trans hvalue⟩

/-- A call that writes one byte to the file `p`. -/
def oneByte (r : Bytes) (file : Nat) (b : UInt8) : Writer :=
  ⟨(ofText [112]).1, (ofText [b]).1, ⟨some (r, file), (true, 1), true, true⟩, .start⟩

def twoWriters : Writers := ⟨World.start oneFile, [oneByte [97, 98, 99, 100, 101, 102] 1 97,
  oneByte [103, 98, 99, 100, 101, 102] 2 98]⟩

theorem not_temp_short {name : Bytes} (h : name.length < 16) : ¬ Temp name := by
  rintro ⟨r, hr, -, rfl⟩
  rw [tempName, List.length_append, hr] at h
  exact absurd h (by decide)

theorem ready_twoWriters : twoWriters.Ready where
  proper := by
    intro w hw
    have hpath : ¬ Temp [112] := not_temp_short (by decide)
    rcases List.mem_pair.mp hw with rfl | rfl
    · exact ⟨(ofText [112]).2, (ofText [97]).2, hpath⟩
    · exact ⟨(ofText [112]).2, (ofText [98]).2, hpath⟩
  start := by
    intro w hw
    rcases List.mem_pair.mp hw with rfl | rfl
    · rfl
    · rfl

/-- What the turn of the writer at a place makes of them all, and how it is marked. -/
def Writers.after (s : Writers) (i : Nat) : List (Bytes × Bytes) × Writers :=
  match s.calls[i]? with
  | none => ([], s)
  | some w =>
    match w.turn.run s.world with
    | .ok w' world => (w'.marks, ⟨world, s.calls.set i w'⟩)
    | _ => ([], s)

theorem step_after {s : Writers} {i : Nat} {w : Writer} (hw : s.calls[i]? = some w)
    (hwork : ∀ ok, w.stage ≠ .ended ok) (hfresh : w.stage = .start → w.calls.Possible s.world.fs w.data.text)
    (hrun : (w.turn.run s.world).value.isSome = true) : s.Step (s.after i).1 (s.after i).2 := by
  rw [Writers.after, hw]
  dsimp only
  cases ho : w.turn.run s.world with
  | ok w' world => exact .turn hw hwork hfresh ho
  | thrown world =>
    rw [ho] at hrun
    cases hrun
  | halt e =>
    rw [ho] at hrun
    cases hrun

/-- A writer that has its temporary file can go on. -/
theorem step_at_work {s : Writers} (i : Nat) (hfile : (s.calls[i]?.bind fun w => w.stage.file?).isSome = true)
    (hrun : (s.calls[i]?.bind fun w => (w.turn.run s.world).value).isSome = true) :
    s.Step (s.after i).1 (s.after i).2 := by
  cases hw : s.calls[i]? with
  | none =>
    rw [hw] at hfile
    cases hfile
  | some w =>
    rw [hw, Option.bind_some] at hfile hrun
    refine step_after hw ?_ ?_ hrun
    · intro ok hstage
      rw [hstage] at hfile
      cases hfile
    · intro hstage
      rw [hstage] at hfile
      cases hfile

theorem possible_oneByte {r : Bytes} {file : Nat} {b : UInt8} {fs : FileSystem} (hr : r.length = 6) (hnul : NulFree r)
    (hname : fs.entry (tempName r) = none) (hfile : ∀ name, fs.entry name ≠ some file) :
    (oneByte r file b).calls.Possible fs (oneByte r file b).data.text where
  fresh := by
    intro r' file' h
    obtain ⟨rfl, rfl⟩ := Prod.mk.inj (Option.some.inj h)
    exact ⟨hr, hnul, hname, hfile⟩
  sent := by
    change 1 ≤ (ofText [b]).1.text.length
    rw [(holds_ofText [b]).text]
    exact Nat.le_refl 1

/-- The second writer begins, then the first one begins and ends, while the second one has not gone on. -/
theorem file_writers_linearize_two : twoWriters.Ready ∧ ∃ u, Runs Writers.Step twoWriters [([112], [97])] u ∧
    [([112], [97])].Perm ((u.calls.filter fun w => w.stage.succeeded).map Writer.replacement) ∧
    ∀ p, ¬ Temp p → u.world.fs.contents p = replaceAll [([112], [97])] oneFile.contents p := by
  let s₁ := (twoWriters.after 1).2
  let s₂ := (s₁.after 0).2
  let s₃ := (s₂.after 0).2
  let s₄ := (s₃.after 0).2
  let s₅ := (s₄.after 0).2
  have h₁ : twoWriters.Step [] s₁ := by
    have h := step_after (s := twoWriters) (i := 1) (w := oneByte [103, 98, 99, 100, 101, 102] 2 98) rfl
      (by simp [oneByte]) (fun _ => possible_oneByte rfl (by decide) rfl ?_) rfl
    · exact h
    · intro name
      change (if name = [112] then some 0 else none) ≠ some 2
      split_ifs <;> simp
  have h₂ : s₁.Step [] s₂ := by
    have h := step_after (s := s₁) (i := 0) (w := oneByte [97, 98, 99, 100, 101, 102] 1 97) rfl
      (by simp [oneByte]) (fun _ => possible_oneByte rfl (by decide) rfl ?_) rfl
    · exact h
    · intro name
      change Function.update oneFile.entry (tempName [103, 98, 99, 100, 101, 102]) (some 2) name ≠ some 1
      rw [Function.update_apply]
      change (if _ then some 2 else if name = [112] then some 0 else none) ≠ some 1
      split_ifs <;> simp
  have h₃ : s₂.Step [] s₃ := step_at_work 0 rfl rfl
  have h₄ : s₃.Step [] s₄ := step_at_work 0 rfl rfl
  have h₅ : s₄.Step [] s₅ := step_at_work 0 rfl rfl
  have h₆ : s₅.Step [([112], [97])] (s₅.after 0).2 := step_at_work 0 rfl rfl
  have hrun : Runs Writers.Step twoWriters [([112], [97])] (s₅.after 0).2 :=
    ((((((Runs.refl _).snoc h₁).snoc h₂).snoc h₃).snoc h₄).snoc h₅).snoc h₆
  obtain ⟨hlog, hview⟩ := file_writers_linearize ready_twoWriters hrun
  exact ⟨ready_twoWriters, _, hrun, hlog, fun p hp => (hview p hp).1⟩

end NcFile
