import Mathlib.Data.List.DropRight
import Mathlib.Logic.Function.Basic
import NaturalC.NcRegex

/-!
# Copying a file

`file_copy` reads the source into a string buffer and writes the buffer to a path that it
makes of its arguments. The file there is opened with `O_CREAT` and without `O_TRUNC`.
-/
namespace NcFileCopy

open Throwing Throwing.Act NcString Posix

/-- What a path leads to, symbolic links followed. -/
inductive Node where
  | regular (file : Nat)
  | directory
  | device
  | fifo
  | socket

inductive FileType where
  | nonexistent
  | regular
  | directory
  | symlink
  | device
  | fifo
  | socket
  deriving DecidableEq

def Node.type : Node → FileType
  | .regular _ => .regular
  | .directory => .directory
  | .device => .device
  | .fifo => .fifo
  | .socket => .socket

/-- What `stat(2)` finds. `ENOENT` is told apart from the other errors. -/
inductive Lookup where
  | found (node : Node)
  | absent
  | denied

def pathMax : Nat := 4096

/-- Where the paths lead. One that is too long leads nowhere. -/
structure Names where
  lookup : Bytes → Lookup
  short : ∀ path, pathMax ≤ path.length → lookup path = .denied

structure FileSystem where
  names : Names
  data : Nat → Bytes
  mode : Nat → Nat

/-- What the system calls answer. -/
structure Calls where
  openSource : Bool
  /-- How many bytes `read(2)` yields at most. -/
  read : Option Nat
  closeSource : Bool
  openTarget : Bool
  /-- The file that `open(2)` makes at a path, and where the paths lead then. -/
  create : Bytes → Option (Nat × Names)
  umask : Nat
  /-- How many bytes `write(2)` takes at most. -/
  write : Option Nat
  closeTarget : Bool

def stat (path : Str) : Act FileSystem Lookup := do
  let path ← deref (path.value.bind cString)
  let fs ← get
  pure (fs.names.lookup path)

def fileExists (path : Str) : Act FileSystem Bool := do
  match ← stat path with
  | .found _ => pure true
  | .absent => pure false
  | .denied => throwing

/-- The type that `file_stat` stores. It is never that of a symbolic link. -/
def fileStat (path : Str) : Act FileSystem FileType := do
  match ← stat path with
  | .found node => pure node.type
  | .absent => pure .nonexistent
  | .denied => throwing

def fileIs (type : FileType) (path : Str) : Act FileSystem Unit := do
  let st ← fileStat path
  if st ≠ type then throwing else pure ()

def fileIsDirectory : Str → Act FileSystem Unit := fileIs .directory

def fileIsRegular : Str → Act FileSystem Unit := fileIs .regular

def fileIsSymlink : Str → Act FileSystem Unit := fileIs .symlink

/-- Only regular files are asked for their size and mode. -/
def FileSystem.size (fs : FileSystem) : Node → Nat
  | .regular file => (fs.data file).length
  | _ => 0

def FileSystem.modeOf (fs : FileSystem) : Node → Nat
  | .regular file => fs.mode file
  | _ => 0

def fileGet (field : FileSystem → Node → Nat) (path : Str) : Act FileSystem Nat := do
  match ← stat path with
  | .found node => do
    let fs ← get
    pure (field fs node)
  | _ => throwing

def fileGetSize : Str → Act FileSystem Nat := fileGet FileSystem.size

def fileGetMode : Str → Act FileSystem Nat := fileGet FileSystem.modeOf

/-- The checks of the source file. -/
def checkSource (src : Str) : Act FileSystem Unit := do
  let regular ← attempt (fileIsRegular src)
  let symlink ← if regular.isNone then attempt (fileIsSymlink src) else pure (some ())
  if regular.isNone ∧ symlink.isNone then throwing
  else do
    let directory ← attempt (fileIsDirectory src)
    if directory.isSome then throwing else pure ()

/-- `"([^/]+)$"`, but for the anchor. -/
def fileName : Ere UInt8 := .group (Ere.some (· != 47))

/-- `"(.+)/(.+)$"`, but for the anchor. -/
def dirAndName : Ere UInt8 :=
  .seq (.group (Ere.some fun _ => true)) (.seq (.cls (· == 47)) (.group (Ere.some fun _ => true)))

/-- The directory and the name of the new file. -/
def newNames (dest oldFn newBasename newFn : Str) : Act FileSystem (Str × Str) := do
  let found ← fileExists dest
  if found then do
    let symlink ← attempt (fileIsSymlink dest)
    if symlink.isSome then throwing
    else do
      let directory ← attempt (fileIsDirectory dest)
      if directory.isNone then throwing
      else do
        let (_, newBasename) ← onLocal (strCopy true dest) newBasename
        let (_, newFn) ← onLocal (strCopy true oldFn) newFn
        pure (newBasename, newFn)
  else do
    let groups ← strStrRegexBy (regexecEnd dirAndName) dest [newBasename, newFn]
    let newBasename ← deref groups[0]?
    let newFn ← deref groups[1]?
    pure (newBasename, newFn)

def openRead (calls : Calls) (path : Bytes) : Act FileSystem (Option Nat) := do
  let fs ← get
  match fs.names.lookup path with
  | .found (.regular file) => pure (if calls.openSource then some file else none)
  | _ => pure none

/-- `read(2)` of at most `count` bytes from the start. -/
def read (calls : Calls) (fd count : Nat) : Act FileSystem (Option Bytes) := do
  let fs ← get
  pure (calls.read.map fun n => ((fs.data fd).take count).take n)

/-- Read the source file into the buffer. -/
def readSource (calls : Calls) (src : Str) (fileSize : Nat) (buf : Str) : Act FileSystem Str := do
  let (_, buf) ← onLocal (strResize true (fileSize + 1)) buf
  let path ← deref (src.value.bind cString)
  match ← openRead calls path with
  | none => throwing
  | some fd => do
    match ← read calls fd fileSize with
    | none => throwing
    | some bytes => do
      let (_, buf) ← onLocal (memcpy 0 bytes) buf
      if bytes.length < fileSize then throwing
      else if calls.closeSource then pure buf else throwing

/-- The permissions of a new file. -/
def permissions (calls : Calls) (mode : Nat) : Nat := mode &&& (0o7777 ^^^ (calls.umask &&& 0o777))

/-- `open(2)` with `O_WRONLY | O_CREAT`: what is in an existing file stays. -/
def openWrite (calls : Calls) (path : Bytes) (mode : Nat) : Act FileSystem (Option Node) := do
  let fs ← get
  match fs.names.lookup path with
  | .found .directory => pure none
  | .found node => pure (if calls.openTarget then some node else none)
  | .denied => pure none
  | .absent =>
    match calls.create path with
    | none => pure none
    | some (file, names) => do
      put ⟨names, Function.update fs.data file [], Function.update fs.mode file (permissions calls mode)⟩
      pure (some (.regular file))

/-- Bytes replace those at the start of a file, and what is behind them stays. -/
def FileSystem.store (fs : FileSystem) (bytes : Bytes) : Node → FileSystem
  | .regular file =>
    { fs with data := Function.update fs.data file (bytes ++ (fs.data file).drop bytes.length) }
  | _ => fs

/-- `write(2)` at the start. -/
def write (calls : Calls) (fd : Node) (bytes : Bytes) : Act FileSystem (Option Nat) :=
  match calls.write with
  | none => pure none
  | some n => do
    let fs ← get
    put (fs.store (bytes.take n) fd)
    pure (some (bytes.take n).length)

/-- Write the buffer to the new file. -/
def writeTarget (calls : Calls) (path : Bytes) (mode fileSize : Nat) (value : Bytes) : Act FileSystem Unit := do
  match ← openWrite calls path mode with
  | none => throwing
  | some fd => do
    match ← write calls fd (value.take fileSize) with
    | none => throwing
    | some n =>
      if n < fileSize then throwing
      else if calls.closeTarget then pure () else throwing

def fileCopy (calls : Calls) (src dest : Str) : Act FileSystem Unit := do
  let buf ← strNew true true
  let oldFn ← strNew true true
  let newFn ← strNew true true
  let newBasename ← strNew true true
  let newPath ← strNew true true
  checkSource src
  let groups ← strStrRegexBy (regexecEnd fileName) src [oldFn]
  let oldFn ← deref groups[0]?
  let fileSize ← fileGetSize src
  let mode ← fileGetMode src
  let (newBasename, newFn) ← newNames dest oldFn newBasename newFn
  let buf ← readSource calls src fileSize buf
  let base ← deref (newBasename.value.bind cString)
  let fn ← deref (newFn.value.bind cString)
  let (_, newPath) ← onLocal (strSprintf (base ++ 47 :: fn)) newPath
  let path ← deref (newPath.value.bind cString)
  let value ← deref buf.value
  writeTarget calls path mode fileSize value

/-! ## The names -/

/-- What follows the last slash. -/
def baseName (path : Bytes) : Bytes := path.rtakeWhile (· != 47)

theorem baseName_append {u b : Bytes} (hu : u = [] ∨ ∃ v, u = v ++ [47]) (hb : ∀ c ∈ b, (c != 47) = true) :
    baseName (u ++ b) = b := by
  have hrev : ∀ c ∈ b.reverse, (c != 47) = true := fun c hc => hb c (List.mem_reverse.mp hc)
  rw [baseName, List.rtakeWhile, List.reverse_append, List.takeWhile_append_of_pos hrev]
  rcases hu with rfl | ⟨v, rfl⟩
  · simp
  · simp

theorem mem_parses_dirAndName {i : Nat} {s : Bytes} {x : Parse UInt8} : x ∈ parses dirAndName i s ↔
    ∃ a b t, s = a ++ 47 :: (b ++ t) ∧ a ≠ [] ∧ b ≠ [] ∧
      x = ⟨i + a.length + 1 + b.length, t,
        [(i, i + a.length), (i + a.length + 1, i + a.length + 1 + b.length)]⟩ := by
  rw [dirAndName, mem_parses_seq]
  constructor
  · rintro ⟨y, hy, z, hz, rfl⟩
    obtain ⟨a, ta, rfl, ha, -, rfl⟩ := mem_parses_group_some.mp hy
    obtain ⟨y', hy', z', hz', rfl⟩ := mem_parses_seq.mp hz
    obtain ⟨c, tc, rfl, hc, rfl⟩ := mem_parses_cls.mp hy'
    obtain ⟨b, t, rfl, hb, -, rfl⟩ := mem_parses_group_some.mp hz'
    obtain rfl : c = 47 := by simpa using hc
    exact ⟨a, b, t, rfl, ha, hb, rfl⟩
  · rintro ⟨a, b, t, rfl, ha, hb, rfl⟩
    have hfirst := (mem_parses_group_some (i := i)).mpr ⟨a, 47 :: (b ++ t), rfl, ha, fun _ _ => rfl, rfl⟩
    have hslash := (mem_parses_cls (i := i + a.length)).mpr ⟨47, b ++ t, rfl, beq_self_eq_true 47, rfl⟩
    have hlast := (mem_parses_group_some (i := i + a.length + 1)).mpr ⟨b, t, rfl, hb, fun _ _ => rfl, rfl⟩
    exact ⟨_, hfirst, _, mem_parses_seq.mpr ⟨_, hslash, _, hlast, rfl⟩, rfl⟩

/-- The match of `"([^/]+)$"` is the base name. -/
theorem regexec_fileName {path : Bytes} {pmatch : List (Nat × Nat)}
    (h : regexecEnd fileName path = some pmatch) :
    ∃ u b, path = u ++ b ∧ b = baseName path ∧
      pmatch = [(u.length, u.length + b.length), (u.length, u.length + b.length)] := by
  obtain ⟨u, t, x, rfl, hx, rfl, hmin⟩ := regexecEndFrom_some h
  obtain ⟨⟨r, hr, hx⟩, hrest⟩ := mem_parsesToEnd.mp hx
  obtain rfl := List.mem_singleton.mp hr
  obtain ⟨b, t', rfl, hne, hb, rfl⟩ := mem_parses_group_some.mp hx
  obtain rfl : t' = [] := hrest
  rw [List.append_nil]
  have hu : u = [] ∨ ∃ v, u = v ++ [47] := by
    rcases List.eq_nil_or_concat' u with rfl | ⟨v, c, rfl⟩
    · exact Or.inl rfl
    · refine Or.inr ⟨v, ?_⟩
      by_contra hc
      -- The match would have started one byte earlier.
      have hnone := hmin v [c] rfl (List.cons_ne_nil _ _)
      have hc : (c != 47) = true := by simpa using hc
      have hword : ∀ a ∈ c :: b, (a != 47) = true := List.forall_mem_cons.mpr ⟨hc, hb⟩
      have hmatch := (mem_parses_group_some (i := 0 + v.length)).mpr ⟨c :: b, [], rfl, List.cons_ne_nil _ _, hword, rfl⟩
      have hthere : _ ∈ parsesToEnd [fileName] (0 + v.length) ([c] ++ (b ++ [])) :=
        mem_parsesToEnd.mpr ⟨⟨fileName, List.mem_singleton_self _, hmatch⟩, rfl⟩
      rw [hnone] at hthere
      cases hthere
  refine ⟨u, b, rfl, (baseName_append hu hb).symm, ?_⟩
  simp

/-- The match of `"(.+)/(.+)$"` is the whole path, cut at a slash. -/
theorem regexec_dirAndName {path : Bytes} {pmatch : List (Nat × Nat)}
    (h : regexecEnd dirAndName path = some pmatch) :
    ∃ a b, path = a ++ 47 :: b ∧
      pmatch = [(0, path.length), (0, a.length), (a.length + 1, a.length + 1 + b.length)] := by
  obtain ⟨u, t, x, rfl, hx, rfl, hmin⟩ := regexecEndFrom_some h
  obtain ⟨⟨r, hr, hx⟩, hrest⟩ := mem_parsesToEnd.mp hx
  obtain rfl := List.mem_singleton.mp hr
  obtain ⟨a, b, t', rfl, ha, hb, rfl⟩ := mem_parses_dirAndName.mp hx
  obtain rfl : t' = [] := hrest
  have hu : u = [] := by
    by_contra hne
    -- The match would have started at the first byte.
    have hnone := hmin [] u rfl hne
    have hsplit : u ++ (a ++ 47 :: (b ++ [])) = u ++ a ++ 47 :: (b ++ []) := (List.append_assoc _ _ _).symm
    have hmatch := (mem_parses_dirAndName (i := 0)).mpr ⟨u ++ a, b, [], hsplit, by simp [hne], hb, rfl⟩
    have hthere : _ ∈ parsesToEnd [dirAndName] (0 + ([] : Bytes).length) (u ++ (a ++ 47 :: (b ++ []))) :=
      mem_parsesToEnd.mpr ⟨⟨dirAndName, List.mem_singleton_self _, hmatch⟩, rfl⟩
    rw [hnone] at hthere
    cases hthere
  obtain rfl := hu
  refine ⟨a, b, by simp, ?_⟩
  simp
  omega

/-! ## The steps -/

variable {fs fs' : FileSystem} {calls : Calls} {path src dest : Str}

theorem run_stat (hpath : path.WF) (fs : FileSystem) :
    (stat path).run fs = .ok (fs.names.lookup (cText path.text)) fs := by
  rw [stat, Holds.bind_cString hpath, deref_some, run_bind_ret]
  rfl

/-- The type that `file_stat` finds, if it finds one. -/
def Lookup.type : Lookup → Option FileType
  | .found node => some node.type
  | .absent => some .nonexistent
  | .denied => none

theorem run_fileStat (hpath : path.WF) (fs : FileSystem) :
    (fileStat path).run fs = match (fs.names.lookup (cText path.text)).type with
      | some type => .ok type fs
      | none => .thrown fs := by
  rw [fileStat, run_bind_ok (run_stat hpath fs)]
  cases fs.names.lookup (cText path.text) with
  | found node => rfl
  | absent => rfl
  | denied => rfl

theorem run_fileExists (hpath : path.WF) (fs : FileSystem) :
    (fileExists path).run fs = match fs.names.lookup (cText path.text) with
      | .found _ => .ok true fs
      | .absent => .ok false fs
      | .denied => .thrown fs := by
  rw [fileExists, run_bind_ok (run_stat hpath fs)]
  cases fs.names.lookup (cText path.text) with
  | found node => rfl
  | absent => rfl
  | denied => rfl

theorem run_fileIs (type : FileType) (hpath : path.WF) (fs : FileSystem) :
    (fileIs type path).run fs =
      if (fs.names.lookup (cText path.text)).type = some type then .ok () fs else .thrown fs := by
  have hstat := run_fileStat hpath fs
  cases ht : (fs.names.lookup (cText path.text)).type with
  | none =>
    rw [ht] at hstat
    exact run_bind_thrown hstat
  | some t =>
    rw [ht] at hstat
    rw [fileIs, run_bind_ok hstat]
    by_cases heq : t = type
    · simp [heq]
    · simp [heq]

theorem run_attempt_fileIs (type : FileType) (hpath : path.WF) (fs : FileSystem) :
    (attempt (fileIs type path)).run fs =
      .ok (if (fs.names.lookup (cText path.text)).type = some type then some () else none) fs := by
  have hrun := run_fileIs type hpath fs
  by_cases ht : (fs.names.lookup (cText path.text)).type = some type
  · rw [if_pos ht] at hrun ⊢
    exact run_attempt_ok hrun
  · rw [if_neg ht] at hrun ⊢
    exact run_attempt_thrown hrun

theorem type_ne_symlink (l : Lookup) : l.type ≠ some .symlink := by
  cases l with
  | found node => cases node <;> exact fun he => by cases he
  | absent => exact fun he => by cases he
  | denied => exact fun he => by cases he

theorem length_lt_pathMax {names : Names} {text : Bytes} (h : names.lookup text ≠ .denied) :
    text.length < pathMax := by
  by_contra hlong
  exact h (names.short text (Nat.le_of_not_lt hlong))

/-- What passes the checks is a regular file. -/
theorem checkSource_ok (hsrc : src.WF) (hrun : (checkSource src).run fs = .ok () fs') :
    fs = fs' ∧ ∃ file, fs.names.lookup (cText src.text) = .found (.regular file) := by
  have hregular := run_attempt_fileIs .regular hsrc fs
  have hsymlink := run_attempt_fileIs .symlink hsrc fs
  have hdirectory := run_attempt_fileIs .directory hsrc fs
  unfold checkSource fileIsRegular fileIsSymlink fileIsDirectory at hrun
  rw [run_bind_ok hregular] at hrun
  by_cases hreg : (fs.names.lookup (cText src.text)).type = some .regular
  · have hdir : (fs.names.lookup (cText src.text)).type ≠ some .directory := by
      rw [hreg]
      decide
    rw [if_pos hreg] at hrun
    rw [if_neg hdir] at hdirectory
    dsimp only [Option.isNone_some] at hrun
    rw [if_neg Bool.false_ne_true, run_bind_pure, if_neg (by simp), run_bind_ok hdirectory] at hrun
    cases hrun
    refine ⟨rfl, ?_⟩
    cases hl : fs.names.lookup (cText src.text) with
    | found node =>
      cases node with
      | regular file => exact ⟨file, rfl⟩
      | _ =>
        rw [hl] at hreg
        cases hreg
    | _ =>
      rw [hl] at hreg
      cases hreg
  · rw [if_neg hreg] at hrun
    rw [if_neg (type_ne_symlink _)] at hsymlink
    dsimp only [Option.isNone_none] at hrun
    rw [if_pos rfl, run_bind_ok hsymlink, if_pos (by simp)] at hrun
    cases hrun

/-- A write at the start of a buffer. -/
theorem memcpy_front (s : Str) {buf bytes : Bytes} (hv : s.value = some buf) (hroom : bytes.length ≤ buf.length) :
    (memcpy 0 bytes).run s = .ok () { s with value := some (bytes ++ buf.drop bytes.length) } := by
  have hsplit : s.value = some ([] ++ buf.take bytes.length ++ buf.drop bytes.length) := by
    rw [List.nil_append, List.take_append_drop]
    exact hv
  simpa using memcpy_inside s [] _ _ hsplit rfl (List.length_take_of_le hroom)

theorem fileGet_ok {field : FileSystem → Node → Nat} (hpath : path.WF) {node : Node}
    (hnode : fs.names.lookup (cText path.text) = .found node) :
    (fileGet field path).run fs = .ok (field fs node) fs := by
  rw [fileGet, run_bind_ok (run_stat hpath fs), hnode]
  rfl

/-- The path that is written: in the destination when that is a directory, else the destination. -/
def targetPath (fs : FileSystem) (src dest : Bytes) : Bytes :=
  match fs.names.lookup dest with
  | .found .directory => dest ++ 47 :: baseName src
  | _ => dest

theorem fileName_ok {oldFn : Str} {groups : List Str} (hsrc : src.WF)
    (hfound : fs.names.lookup (cText src.text) ≠ .denied) (hold : Holds oldFn [])
    (hrun : (strStrRegexBy (regexecEnd fileName) src [oldFn]).run fs = .ok groups fs') :
    fs = fs' ∧ ∃ s, groups = [s] ∧ Holds s (baseName (cText src.text)) := by
  have hc := Holds.bind_cString hsrc
  obtain ⟨pmatch, hexec⟩ := strStrRegexBy_ok hc hrun
  obtain ⟨u, b, hpath, hb, rfl⟩ := regexec_fileName hexec
  have hlen := length_lt_pathMax hfound
  rw [hpath, List.length_append] at hlen
  have hM : pathMax < stringMax := by decide
  have hcuts : ∀ rest, List.Forall₂ (Cuts (cText src.text ++ 0 :: rest))
      [(u.length, u.length + b.length)] [b] := by
    intro rest
    exact .cons (cuts_append (by rw [hpath]) (by omega)) .nil
  obtain ⟨bufs, hrun', hbufs⟩ := strStrRegexBy_run hc hexec hcuts (.cons hold .nil) rfl fs
  rw [hrun] at hrun'
  cases hrun'
  cases hbufs with
  | cons hs hnil =>
    cases hnil
    rw [← hb]
    exact ⟨rfl, _, rfl, hs⟩

theorem dirAndName_ok {newBasename newFn : Str} {groups : List Str} (hdest : dest.WF)
    (hfound : fs.names.lookup (cText dest.text) ≠ .denied) (hb : Holds newBasename []) (hf : Holds newFn [])
    (hrun : (strStrRegexBy (regexecEnd dirAndName) dest [newBasename, newFn]).run fs = .ok groups fs') :
    fs = fs' ∧ ∃ s t a b, groups = [s, t] ∧ Holds s a ∧ Holds t b ∧ cText dest.text = a ++ 47 :: b := by
  have hc := Holds.bind_cString hdest
  obtain ⟨pmatch, hexec⟩ := strStrRegexBy_ok hc hrun
  obtain ⟨a, b, hpath, rfl⟩ := regexec_dirAndName hexec
  have hlen := length_lt_pathMax hfound
  rw [hpath, List.length_append, List.length_cons] at hlen
  have hM : pathMax < stringMax := by decide
  have hcuts : ∀ rest, List.Forall₂ (Cuts (cText dest.text ++ 0 :: rest))
      [(0, a.length), (a.length + 1, a.length + 1 + b.length)] [a, b] := by
    intro rest
    have hdir : Cuts (cText dest.text ++ 0 :: rest) (([] : Bytes).length, ([] : Bytes).length + a.length) a :=
      cuts_append (w := 47 :: b ++ 0 :: rest) (by simp [hpath]) (by omega)
    have hname : Cuts (cText dest.text ++ 0 :: rest)
        ((a ++ [47]).length, (a ++ [47]).length + b.length) b :=
      cuts_append (w := 0 :: rest) (by simp [hpath]) (by omega)
    rw [List.length_nil, Nat.zero_add] at hdir
    rw [List.length_append, List.length_singleton] at hname
    exact .cons hdir (.cons hname .nil)
  obtain ⟨bufs, hrun', hbufs⟩ := strStrRegexBy_run hc hexec hcuts (.cons hb (.cons hf .nil)) rfl fs
  rw [hrun] at hrun'
  cases hrun'
  cases hbufs with
  | cons hs hbufs =>
    cases hbufs with
    | cons ht hnil =>
      cases hnil
      exact ⟨rfl, _, _, a, b, rfl, hs, ht, hpath⟩

/-- The two names make up the path that is written. -/
theorem newNames_ok {oldFn newBasename newFn : Str} {made : Str × Str} {base : Bytes} (hdest : dest.WF)
    (hold : Holds oldFn base) (hfree : NulFree base) (hb : Holds newBasename []) (hf : Holds newFn [])
    (hrun : (newNames dest oldFn newBasename newFn).run fs = .ok made fs') :
    fs = fs' ∧ ∃ tb tf, Holds made.1 tb ∧ Holds made.2 tf ∧
      cText tb ++ 47 :: cText tf = match fs.names.lookup (cText dest.text) with
        | .found .directory => cText dest.text ++ 47 :: base
        | _ => cText dest.text := by
  have hexists := run_fileExists hdest fs
  unfold newNames at hrun
  cases hl : fs.names.lookup (cText dest.text) with
  | found node =>
    rw [hl] at hexists
    have hsymlink := run_attempt_fileIs .symlink hdest fs
    have hdirectory := run_attempt_fileIs .directory hdest fs
    rw [if_neg (type_ne_symlink _)] at hsymlink
    rw [hl] at hdirectory
    unfold fileIsSymlink fileIsDirectory at hrun
    rw [run_bind_ok hexists, if_pos rfl, run_bind_ok hsymlink, if_neg (by simp)] at hrun
    by_cases hdir : node.type = .directory
    · obtain rfl : node = .directory := by
        cases node <;> first | rfl | cases hdir
      obtain ⟨b', hcopy, hb', -⟩ := strCopy_holds hb hdest
      obtain ⟨f', hcopy', hf', -⟩ := strCopy_holds hf hold
      have htype : (Lookup.found .directory).type = some .directory := rfl
      rw [if_pos htype] at hdirectory
      rw [run_bind_ok hdirectory, if_neg (by simp), run_bind_ok (run_onLocal_ok hcopy fs)] at hrun
      dsimp only at hrun
      rw [run_bind_ok (run_onLocal_ok hcopy' fs)] at hrun
      cases hrun
      refine ⟨rfl, _, _, hb', hf', ?_⟩
      rw [cText_of_nulFree hfree]
    · have htype : (Lookup.found node).type ≠ some .directory := fun he => hdir (Option.some.inj he)
      rw [if_neg htype] at hdirectory
      rw [run_bind_ok hdirectory, if_pos (by simp)] at hrun
      cases hrun
  | absent =>
    rw [hl] at hexists
    rw [run_bind_ok hexists, if_neg (by simp)] at hrun
    obtain ⟨groups, t, hmatch, hrun⟩ := exists_of_run_bind hrun
    have hfound : fs.names.lookup (cText dest.text) ≠ .denied := by
      rw [hl]
      exact fun he => by cases he
    obtain ⟨rfl, s₁, s₂, a, b, rfl, h₁, h₂, hpath⟩ := dirAndName_ok hdest hfound hb hf hmatch
    cases hrun
    have hall : NulFree (a ++ 47 :: b) := by
      rw [← hpath]
      exact nulFree_cText dest.text
    refine ⟨rfl, a, b, h₁, h₂, ?_⟩
    have ha : NulFree a := fun h0 => hall (List.mem_append_left _ h0)
    have hb' : NulFree b := fun h0 => hall (List.mem_append_right _ (List.mem_cons_of_mem _ h0))
    rw [cText_of_nulFree ha, cText_of_nulFree hb', hpath]
  | denied =>
    rw [hl] at hexists
    rw [run_bind_thrown hexists] at hrun
    cases hrun

/-- A source that could be read is in the buffer as a whole. -/
theorem readSource_ok {buf buf' : Str} {file : Nat} (hsrc : src.WF)
    (hfile : fs.names.lookup (cText src.text) = .found (.regular file)) (hbuf : Holds buf [])
    (hrun : (readSource calls src (fs.data file).length buf).run fs = .ok buf' fs') :
    fs = fs' ∧ ∃ rest, buf'.value = some (fs.data file ++ rest) := by
  rw [readSource] at hrun
  by_cases hfits : (fs.data file).length + 1 ≤ stringMax
  · obtain ⟨t, hresize, ht, hsize, -⟩ := strResize_holds hbuf (Nat.succ_pos _) hfits
    have hopen : (openRead calls (cText src.text)).run fs =
        .ok (if calls.openSource then some file else none) fs := by
      rw [openRead, run_bind_get, hfile]
      rfl
    rw [run_bind_ok (run_onLocal_ok hresize fs), Holds.bind_cString hsrc, deref_some, run_bind_ret,
      run_bind_ok hopen] at hrun
    cases hso : calls.openSource with
    | false =>
      rw [hso] at hrun
      cases hrun
    | true =>
      rw [hso, if_pos rfl] at hrun
      dsimp only at hrun
      have hread : (read calls file (fs.data file).length).run fs =
          .ok (calls.read.map fun n => ((fs.data file).take (fs.data file).length).take n) fs := rfl
      rw [run_bind_ok hread] at hrun
      cases hcall : calls.read with
      | none =>
        rw [hcall] at hrun
        cases hrun
      | some n =>
        rw [hcall] at hrun
        dsimp only [Option.map_some] at hrun
        obtain ⟨⟨⟨⟩, t'⟩, fs₁, hcopy, hrun⟩ := exists_of_run_bind hrun
        dsimp only at hrun
        by_cases hshort : (((fs.data file).take (fs.data file).length).take n).length < (fs.data file).length
        · rw [if_pos hshort] at hrun
          cases hrun
        · have hall : ((fs.data file).take (fs.data file).length).take n = fs.data file := by
            rw [List.take_length, List.length_take] at hshort
            rw [List.take_length]
            exact List.take_of_length_le (by omega)
          rw [if_neg hshort] at hrun
          rw [hall] at hcopy
          obtain ⟨rest, hv, hz⟩ := ht.value
          have hroom : (fs.data file).length ≤ ([] ++ 0 :: rest : Bytes).length := by
            simp only [List.length_nil, List.nil_append, List.length_cons] at hz ⊢
            omega
          have hmem := memcpy_front t hv hroom
          rw [run_onLocal_ok hmem fs] at hcopy
          cases hcopy
          split at hrun
          · cases hrun
            exact ⟨rfl, _, rfl⟩
          · cases hrun
  · have hbig : (strResize true ((fs.data file).length + 1)).run buf = .thrown buf := by
      rw [strResize, if_neg (Nat.succ_ne_zero _), if_pos (Nat.lt_of_not_le hfits)]
      rfl
    rw [run_bind_thrown (run_onLocal_thrown hbig fs)] at hrun
    cases hrun

/-- The file that a successful `file_copy` wrote: one that was there, or a new one. -/
inductive Written (calls : Calls) (fs : FileSystem) (path : Bytes) (mode : Nat) (bytes : Bytes) :
    FileSystem → Prop where
  | there {node : Node} (hfound : fs.names.lookup path = .found node) (hne : node ≠ .directory) :
    Written calls fs path mode bytes (fs.store bytes node)
  | new {file : Nat} {names : Names} (habsent : fs.names.lookup path = .absent)
    (hcreate : calls.create path = some (file, names)) :
    Written calls fs path mode bytes (FileSystem.store ⟨names, Function.update fs.data file [],
      Function.update fs.mode file (permissions calls mode)⟩ bytes (.regular file))

theorem writeFile_ok {node : Node} {bytes : Bytes} {fs₁ : FileSystem} {mode : Nat} {path : Bytes}
    (hopen : (openWrite calls path mode).run fs = .ok (some node) fs₁) {rest : Bytes}
    (hrun : (writeTarget calls path mode bytes.length (bytes ++ rest)).run fs = .ok () fs') :
    fs' = fs₁.store bytes node := by
  rw [writeTarget, run_bind_ok hopen] at hrun
  dsimp only at hrun
  rw [List.take_left' rfl] at hrun
  cases hwrite : calls.write with
  | none =>
    have hno : (write calls node bytes).run fs₁ = .ok none fs₁ := by
      rw [write, hwrite]
      rfl
    rw [run_bind_ok hno] at hrun
    cases hrun
  | some n =>
    have hyes : (write calls node bytes).run fs₁ =
        .ok (some (bytes.take n).length) (fs₁.store (bytes.take n) node) := by
      rw [write, hwrite]
      rfl
    rw [run_bind_ok hyes] at hrun
    dsimp only at hrun
    by_cases hshort : (bytes.take n).length < bytes.length
    · rw [if_pos hshort] at hrun
      cases hrun
    · rw [if_neg hshort] at hrun
      have hall : bytes.take n = bytes := by
        rw [List.length_take] at hshort
        exact List.take_of_length_le (by omega)
      rw [hall] at hrun
      split at hrun
      · cases hrun
        rfl
      · cases hrun

theorem writeTarget_ok {path bytes rest : Bytes} {mode : Nat}
    (hrun : (writeTarget calls path mode bytes.length (bytes ++ rest)).run fs = .ok () fs') :
    Written calls fs path mode bytes fs' := by
  have hopen : ∀ fs₁, (openWrite calls path mode).run fs = .ok none fs₁ → False := by
    intro fs₁ hnone
    rw [writeTarget, run_bind_ok hnone] at hrun
    cases hrun
  cases hl : fs.names.lookup path with
  | denied =>
    refine (hopen fs ?_).elim
    rw [openWrite, run_bind_get, hl]
    rfl
  | absent =>
    cases hcreate : calls.create path with
    | none =>
      refine (hopen fs ?_).elim
      rw [openWrite, run_bind_get, hl]
      dsimp only
      rw [hcreate]
      rfl
    | some made =>
      obtain ⟨file, names⟩ := made
      have hmade : (openWrite calls path mode).run fs = .ok (some (.regular file))
          ⟨names, Function.update fs.data file [], Function.update fs.mode file (permissions calls mode)⟩ := by
        rw [openWrite, run_bind_get, hl]
        dsimp only
        rw [hcreate]
        rfl
      rw [writeFile_ok hmade hrun]
      exact .new hl hcreate
  | found node =>
    have hnode : node ≠ .directory ∧ calls.openTarget = true := by
      constructor
      · rintro rfl
        apply hopen fs
        rw [openWrite, run_bind_get, hl]
        rfl
      · by_contra hno
        apply hopen fs
        rw [openWrite, run_bind_get, hl]
        cases node <;> simp [hno]
    have hthere : (openWrite calls path mode).run fs = .ok (some node) fs := by
      rw [openWrite, run_bind_get, hl]
      cases node with
      | directory => exact absurd rfl hnode.1
      | _ => simp [hnode.2]
    rw [writeFile_ok hthere hrun]
    exact .there hl hnode.1

/-- The path that is composed of the two names. -/
theorem joined_ok {newPath t : Str} {a b : Bytes} (ha : NulFree a) (hb : NulFree b)
    (hrun : (onLocal (strSprintf (a ++ 47 :: b)) newPath).run fs = .ok ((), t) fs') :
    fs = fs' ∧ t.value.bind cString = some (a ++ 47 :: b) := by
  by_cases hmax : (a ++ 47 :: b).length ≤ stringMax
  · obtain ⟨t', hprint, ht', -⟩ := strSprintf_holds (s := newPath) hmax
    have hslash : NulFree [47] := by decide
    have hfree : NulFree (a ++ 47 :: b) := ha.append (hslash.append hb)
    have hc := ht'.bind_cString
    rw [cText_of_nulFree hfree] at hc
    rw [run_onLocal_ok hprint fs] at hrun
    cases hrun
    exact ⟨rfl, hc⟩
  · have hbig : ∃ u, (strSprintf (a ++ 47 :: b)).run newPath = .thrown u := by
      rw [strSprintf, run_bind_get]
      dsimp only
      rw [if_pos (Nat.lt_of_not_le hmax)]
      exact ⟨_, rfl⟩
    obtain ⟨u, hbig⟩ := hbig
    rw [run_onLocal_thrown hbig fs] at hrun
    cases hrun

/-- Whatever a successful `file_copy` wrote are the bytes of the source. -/
theorem fileCopy_ok (hsrc : src.WF) (hdest : dest.WF) (hrun : (fileCopy calls src dest).run fs = .ok () fs') :
    ∃ file, fs.names.lookup (cText src.text) = .found (.regular file) ∧
      Written calls fs (targetPath fs (cText src.text) (cText dest.text)) (fs.mode file) (fs.data file) fs' := by
  obtain ⟨s₀, hnew, h₀, -⟩ := strNew_holds fs
  rw [fileCopy, run_bind_ok hnew, run_bind_ok hnew, run_bind_ok hnew, run_bind_ok hnew, run_bind_ok hnew] at hrun
  obtain ⟨⟨⟩, fs₁, hcheck, hrun⟩ := exists_of_run_bind hrun
  obtain ⟨rfl, file, hfile⟩ := checkSource_ok hsrc hcheck
  have hfound : fs.names.lookup (cText src.text) ≠ .denied := by
    rw [hfile]
    exact fun he => by cases he
  obtain ⟨groups, fs₂, hmatch, hrun⟩ := exists_of_run_bind hrun
  obtain ⟨rfl, oldFn, rfl, hold⟩ := fileName_ok hsrc hfound h₀ hmatch
  have hsize : (fileGetSize src).run fs = .ok (fs.data file).length fs := fileGet_ok hsrc hfile
  have hmode : (fileGetMode src).run fs = .ok (fs.mode file) fs := fileGet_ok hsrc hfile
  have hfirst : deref [oldFn][0]? = (ret oldFn : Act FileSystem Str) := rfl
  rw [hfirst, run_bind_ret, run_bind_ok hsize, run_bind_ok hmode] at hrun
  have hbase : NulFree (baseName (cText src.text)) := by
    intro h0
    exact nulFree_cText src.text ((List.rtakeWhile_suffix _ _).subset h0)
  obtain ⟨⟨newBasename, newFn⟩, fs₃, hnames, hrun⟩ := exists_of_run_bind hrun
  obtain ⟨rfl, tb, tf, hb, hf, hpath⟩ := newNames_ok hdest hold hbase h₀ h₀ hnames
  dsimp only at hb hf hrun
  obtain ⟨buf, fs₄, hread, hrun⟩ := exists_of_run_bind hrun
  obtain ⟨rfl, rest, hbuf⟩ := readSource_ok hsrc hfile h₀ hread
  rw [hb.bind_cString, deref_some, run_bind_ret, hf.bind_cString, deref_some, run_bind_ret] at hrun
  obtain ⟨⟨⟨⟩, newPath⟩, fs₅, hjoin, hrun⟩ := exists_of_run_bind hrun
  obtain ⟨rfl, hjoined⟩ := joined_ok (nulFree_cText tb) (nulFree_cText tf) hjoin
  dsimp only at hrun
  rw [hjoined, deref_some, run_bind_ret, hbuf, deref_some, run_bind_ret, hpath] at hrun
  exact ⟨file, hfile, writeTarget_ok hrun⟩

/-! ## The copy -/

/-- The bytes of a regular file. -/
def FileSystem.contents (fs : FileSystem) (path : Bytes) : Option Bytes :=
  match fs.names.lookup path with
  | .found (.regular file) => some (fs.data file)
  | _ => none

/-- Answers that `open(2)` can give: a new file is one that no path leads to, the path leads to it
then, and other files stay where they are. -/
structure Calls.Possible (calls : Calls) (fs : FileSystem) : Prop where
  leads : ∀ {path file names}, calls.create path = some (file, names) →
    names.lookup path = .found (.regular file)
  fresh : ∀ {path file names}, calls.create path = some (file, names) →
    ∀ p, fs.names.lookup p ≠ .found (.regular file)
  keeps : ∀ {path file names}, calls.create path = some (file, names) →
    ∀ p node, fs.names.lookup p = .found node → names.lookup p = .found node

/-- The file at the target has the contents of the source, and so has the source still. -/
def CopiesExactly (fs fs' : FileSystem) (src target : Bytes) : Prop :=
  ∃ bytes, fs.contents src = some bytes ∧ fs'.contents target = some bytes ∧ fs'.contents src = some bytes

/-- There is nothing at the target, or a regular file that is no longer than the source. -/
def Covers (fs : FileSystem) (src target : Bytes) : Prop :=
  fs.names.lookup target = .absent ∨
    ∃ old bytes, fs.contents target = some old ∧ fs.contents src = some bytes ∧ old.length ≤ bytes.length

theorem contents_of_lookup {p : Bytes} {file : Nat} (h : fs.names.lookup p = .found (.regular file)) :
    fs.contents p = some (fs.data file) := by
  rw [FileSystem.contents, h]

theorem store_names (fs : FileSystem) (bytes : Bytes) (node : Node) : (fs.store bytes node).names = fs.names := by
  cases node <;> rfl

theorem store_data_same (fs : FileSystem) (bytes : Bytes) (file : Nat) :
    (fs.store bytes (.regular file)).data file = bytes ++ (fs.data file).drop bytes.length :=
  Function.update_self _ _ _

theorem store_data_other (fs : FileSystem) (bytes : Bytes) {file f : Nat} (hne : f ≠ file) :
    (fs.store bytes (.regular file)).data f = fs.data f := Function.update_of_ne hne _ _

/-- Bytes that cover a file replace its contents. -/
theorem store_covers (bytes : Bytes) {old : Bytes} :
    bytes ++ old.drop bytes.length = bytes ↔ old.length ≤ bytes.length := by
  rw [List.append_right_eq_self, List.drop_eq_nil_iff]

variable {p target : Bytes} {file : Nat}

/-- A copy over a regular file is exact when no bytes of that file are left. -/
theorem exact_over_iff (hfile : fs.names.lookup p = .found (.regular file)) {there : Nat}
    (hthere : fs.names.lookup target = .found (.regular there)) :
    CopiesExactly fs (fs.store (fs.data file) (.regular there)) p target ↔
      (fs.data there).length ≤ (fs.data file).length := by
  have hold := contents_of_lookup hfile
  have hnames := store_names fs (fs.data file) (.regular there)
  rw [← hnames] at hfile hthere
  constructor
  · rintro ⟨bytes, hbytes, htarget, -⟩
    rw [hold] at hbytes
    cases hbytes
    rw [contents_of_lookup hthere, store_data_same, Option.some.injEq] at htarget
    exact (store_covers _).mp htarget
  · intro hle
    refine ⟨fs.data file, hold, ?_, ?_⟩
    · rw [contents_of_lookup hthere, store_data_same, (store_covers _).mpr hle]
    · rw [contents_of_lookup hfile]
      by_cases hsame : file = there
      · subst hsame
        rw [store_data_same, (store_covers _).mpr (Nat.le_refl _)]
      · rw [store_data_other _ _ hsame]

/-- A copy to a new file is exact. -/
theorem exact_new (hposs : calls.Possible fs) (hfile : fs.names.lookup p = .found (.regular file)) {made mode : Nat}
    {names : Names} (hcreate : calls.create target = some (made, names)) :
    CopiesExactly fs (FileSystem.store ⟨names, Function.update fs.data made [],
      Function.update fs.mode made (permissions calls mode)⟩ (fs.data file) (.regular made)) p target := by
  have hne : file ≠ made := by
    rintro rfl
    exact hposs.fresh hcreate _ hfile
  have hkept := hposs.keeps hcreate _ _ hfile
  refine ⟨fs.data file, contents_of_lookup hfile, ?_, ?_⟩
  · rw [contents_of_lookup (hposs.leads hcreate), store_data_same]
    simp
  · rw [contents_of_lookup hkept, store_data_other _ _ hne]
    simp [hne]

/-- A successful `file_copy` makes an exact copy unless the file that was at the target is longer
than the source or is no regular file. -/
theorem file_copy_iff (hsrc : src.WF) (hdest : dest.WF) (hposs : calls.Possible fs)
    (hrun : (fileCopy calls src dest).run fs = .ok () fs') :
    CopiesExactly fs fs' (cText src.text) (targetPath fs (cText src.text) (cText dest.text)) ↔
      Covers fs (cText src.text) (targetPath fs (cText src.text) (cText dest.text)) := by
  obtain ⟨file, hfile, hwritten⟩ := fileCopy_ok hsrc hdest hrun
  have hold := contents_of_lookup hfile
  generalize targetPath fs (cText src.text) (cText dest.text) = target at hwritten ⊢
  cases hwritten with
  | new habsent hcreate => exact iff_of_true (exact_new hposs hfile hcreate) (Or.inl habsent)
  | there hfound hne =>
    rename_i node
    cases node with
    | regular there =>
      rw [exact_over_iff hfile hfound]
      constructor
      · intro hle
        exact Or.inr ⟨_, _, contents_of_lookup hfound, hold, hle⟩
      · rintro (habsent | ⟨old, bytes, htarget, hbytes, hle⟩)
        · rw [hfound] at habsent
          cases habsent
        · rw [contents_of_lookup hfound] at htarget
          rw [hold] at hbytes
          cases htarget
          cases hbytes
          exact hle
    | directory => exact absurd rfl hne
    | _ =>
      have hnone : fs.contents target = none := by
        unfold FileSystem.contents
        rw [hfound]
      refine iff_of_false ?_ ?_
      · rintro ⟨bytes, -, htarget, -⟩
        change fs.contents target = some bytes at htarget
        rw [hnone] at htarget
        cases htarget
      · rintro (habsent | ⟨old, bytes, htarget, -⟩)
        · rw [hfound] at habsent
          cases habsent
        · rw [hnone] at htarget
          cases htarget

/-- The file `s`, and a directory `d` with a file of the same name. -/
def twoFiles (a b : Bytes) : FileSystem where
  names :=
    { lookup := fun p =>
        if pathMax ≤ p.length then .denied
        else if p = [115] then .found (.regular 0)
        else if p = [100] then .found .directory
        else if p = [100, 47, 115] then .found (.regular 1)
        else .absent
      short := fun _ h => if_pos h }
  data := fun file => if file = 0 then a else b
  mode := fun _ => 0o644

/-- Every call succeeds, and reading and writing are complete. -/
def complete : Calls where
  openSource := true
  read := some 4096
  closeSource := true
  openTarget := true
  create := fun _ => none
  umask := 0o022
  write := some 4096
  closeTarget := true

theorem possible_complete (fs : FileSystem) : complete.Possible fs :=
  ⟨fun h => (Option.some_ne_none _ h.symm).elim, fun h => (Option.some_ne_none _ h.symm).elim,
    fun h => (Option.some_ne_none _ h.symm).elim⟩

/-- What is at two paths after a success. -/
def after (p q : Bytes) : Outcome FileSystem Unit → Option (Option Bytes × Option Bytes)
  | .ok () fs => some (fs.contents p, fs.contents q)
  | _ => none

theorem ok_of_after {o : Outcome FileSystem Unit} {p q : Bytes} {x y : Option Bytes} (h : after p q o = some (x, y)) :
    ∃ fs, o = .ok () fs ∧ fs.contents p = x ∧ fs.contents q = y := by
  cases o with
  | ok u fs =>
    cases h
    exact ⟨fs, rfl, rfl, rfl⟩
  | _ => cases h

/-- The file `x` is copied over the longer file `ab`, whose last byte stays. -/
theorem file_copy_keeps_tail :
    ∃ fs', (fileCopy complete (ofText [115]).1 (ofText [100]).1).run (twoFiles [120] [97, 98]) = .ok () fs' ∧
      fs'.contents [100, 47, 115] = some [120, 98] ∧
      ¬ CopiesExactly (twoFiles [120] [97, 98]) fs' [115] [100, 47, 115] := by
  have hafter : after [115] [100, 47, 115]
      ((fileCopy complete (ofText [115]).1 (ofText [100]).1).run (twoFiles [120] [97, 98])) =
        some (some [120], some [120, 98]) := by
    decide +kernel
  obtain ⟨fs', hrun, -, htarget⟩ := ok_of_after hafter
  refine ⟨fs', hrun, htarget, ?_⟩
  rintro ⟨bytes, hbytes, htarget', -⟩
  have hsrc : (twoFiles [120] [97, 98]).contents [115] = some [120] := rfl
  rw [hsrc] at hbytes
  rw [htarget, ← hbytes] at htarget'
  exact absurd htarget' (by decide)

theorem file_copy_iff_longer :
    ∃ fs', (fileCopy complete (ofText [115]).1 (ofText [100]).1).run (twoFiles [97, 98] [120]) = .ok () fs' ∧
      CopiesExactly (twoFiles [97, 98] [120]) fs' [115] [100, 47, 115] := by
  have hafter : after [115] [100, 47, 115]
      ((fileCopy complete (ofText [115]).1 (ofText [100]).1).run (twoFiles [97, 98] [120])) =
        some (some [97, 98], some [97, 98]) := by
    decide +kernel
  obtain ⟨fs', hrun, -, -⟩ := ok_of_after hafter
  refine ⟨fs', hrun, ?_⟩
  exact (file_copy_iff (ofText [115]).2 (ofText [100]).2 (possible_complete _) hrun).mpr
    (Or.inr ⟨[120], [97, 98], rfl, rfl, by decide⟩)

end NcFileCopy
