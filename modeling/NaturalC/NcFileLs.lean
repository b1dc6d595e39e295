import NaturalC.NcListSplice

/-!
# Listing a directory

`file_ls` takes the first entry that `readdir_r(3)` yields for `.` and the second for `..`,
each only in its place, and lists the others as they are.
-/
namespace NcFileLs

open Throwing Throwing.Act NcString NcList Linked

/-- A name of at most 255 bytes, the size of `d_name` with its null. -/
abbrev DName := { t : Bytes // NulFree t ∧ t.length < 256 }

/-- What a call of `readdir_r(3)` finds. -/
inductive Reading where
  | entry (d_name : DName)
  | failure (rc : Int)

/-- `readdir_r(3)`: the return code, the entry or null, and what is left. -/
def readdirR : List Reading → (Int × Option DName) × List Reading
  | [] => ((0, none), [])
  | .entry d :: dirp => ((0, some d), dirp)
  | .failure rc :: dirp => ((rc, none), dirp)

def dot : Bytes := [46]

def dotDot : Bytes := [46, 46]

/-- Read past one of the two dot entries. At the end of the directory nothing is left to read. -/
def readPast (dest : Addr) (name : Bytes) (dirp : List Reading) : Act Heap (Option (List Reading)) :=
  match readdirR dirp with
  | ((rc, result), dirp) =>
    if rc < 0 then throwing
    else match result with
      | none => pure none
      | some d =>
        if strcmp d.1 name ≠ 0 then do
          listCat dest (charArray d.1)
          pure (some dirp)
        else pure (some dirp)

/-- The loop over the rest of the directory. -/
def scan (dest : Addr) : List Reading → Act Heap Unit
  | [] => pure ()
  | .failure rc :: _ => if rc < 0 then throwing else pure ()
  | .entry d :: dirp => do
    listCat dest (charArray d.1)
    scan dest dirp

/-- What follows the `.` entry. -/
def readSecond (dest : Addr) : Option (List Reading) → Act Heap Unit
  | none => pure ()
  | some dirp => do
    match ← readPast dest dotDot dirp with
    | none => pure ()
    | some dirp => scan dest dirp

/-- `file_ls`. Closing the directory changes no list. -/
def fileLs (opendir : Bytes → Option (List Reading)) (dest : Addr) (path : Str) : Act Heap Unit := do
  listTruncate dest
  let name ← deref (path.value.bind cString)
  match opendir name with
  | none => throwing
  | some dirp => do
    let rest ← readPast dest dot dirp
    readSecond dest rest

/-! ## The entries that are listed -/

/-- The names that a listing should have. -/
def listing (entries : List DName) : List Bytes :=
  (entries.map Subtype.val).filter fun name => name ≠ dot && name ≠ dotDot

/-- The names that are listed from the second entry on. -/
def fromSecond : List DName → List Bytes
  | [] => []
  | d :: entries => (if d.1 = dotDot then [] else [d.1]) ++ entries.map Subtype.val

/-- The names that are listed. -/
def listed : List DName → List Bytes
  | [] => []
  | d :: entries => (if d.1 = dot then [] else [d.1]) ++ fromSecond entries

/-- `.` comes first or not at all, and `..` second or not at all. -/
def DotsFirst (entries : List DName) : Prop :=
  ∀ i d, entries[i]? = some d → (d.1 = dot → i = 0) ∧ (d.1 = dotDot → i = 1)

theorem mem_listing {entries : List DName} {name : Bytes} :
    name ∈ listing entries ↔ name ∈ entries.map Subtype.val ∧ name ≠ dot ∧ name ≠ dotDot := by
  simp [listing]

/-- Each name is listed once. -/
theorem nodup_listing {entries : List DName} (hnodup : entries.Nodup) : (listing entries).Nodup :=
  (hnodup.map Subtype.val_injective).filter _

/-- An entry in the place of another dot entry is listed. -/
theorem mem_listed {entries : List DName} {i : Nat} {d : DName} (hd : entries[i]? = some d)
    (hdot : d.1 = dot → i ≠ 0) (hdots : d.1 = dotDot → i ≠ 1) : d.1 ∈ listed entries := by
  cases entries with
  | nil => cases hd
  | cons d₀ entries =>
    cases i with
    | zero =>
      obtain rfl : d₀ = d := by simpa using hd
      rw [listed, if_neg fun he => hdot he rfl]
      exact List.mem_cons_self
    | succ i =>
      rw [listed]
      apply List.mem_append_right _
      cases entries with
      | nil => cases hd
      | cons d₁ entries =>
        cases i with
        | zero =>
          obtain rfl : d₁ = d := by simpa using hd
          rw [fromSecond, if_neg fun he => hdots he rfl]
          exact List.mem_cons_self
        | succ i =>
          rw [fromSecond]
          refine List.mem_append_right _ (List.mem_map_of_mem ?_)
          exact List.mem_of_getElem? (i := i) (by simpa using hd)

/-- From the second place on, all names are listed as they are but for a `..` there. -/
theorem fromSecond_eq {entries : List DName}
    (h : ∀ i d, entries[i]? = some d → d.1 ≠ dot ∧ (d.1 = dotDot → i = 0)) :
    fromSecond entries = listing entries := by
  cases entries with
  | nil => rfl
  | cons d entries =>
    have hrest : listing entries = entries.map Subtype.val := by
      rw [listing, List.filter_eq_self]
      intro name hname
      obtain ⟨e, he, rfl⟩ := List.mem_map.mp hname
      obtain ⟨i, hi⟩ := List.mem_iff_getElem?.mp he
      obtain ⟨hdot, hdots⟩ := h (i + 1) e (by simpa using hi)
      simpa using ⟨hdot, fun hd => Nat.succ_ne_zero i (hdots hd)⟩
    obtain ⟨hdot, -⟩ := h 0 d rfl
    rw [fromSecond, ← hrest]
    by_cases hd : d.1 = dotDot
    · simp [listing, hd]
    · simp [listing, hd, hdot]

/-- The right names are listed exactly when the dots come first. -/
theorem listed_eq_listing (entries : List DName) : listed entries = listing entries ↔ DotsFirst entries := by
  constructor
  · intro heq i d hd
    have hnot : d.1 ∈ listed entries → d.1 ≠ dot ∧ d.1 ≠ dotDot := by
      intro hmem
      rw [heq] at hmem
      exact (mem_listing.mp hmem).2
    constructor
    · intro hdot
      by_contra hi
      refine (hnot (mem_listed hd (fun _ => hi) ?_)).1 hdot
      intro hdots
      rw [hdots] at hdot
      exact absurd hdot (by decide)
    · intro hdots
      by_contra hi
      refine (hnot (mem_listed hd ?_ (fun _ => hi))).2 hdots
      intro hdot
      rw [hdot] at hdots
      exact absurd hdots (by decide)
  · intro h
    cases entries with
    | nil => rfl
    | cons d entries =>
      have hrest : fromSecond entries = listing entries := by
        apply fromSecond_eq
        intro i e he
        obtain ⟨hdot, hdots⟩ := h (i + 1) e (by simpa using he)
        exact ⟨fun hd => Nat.succ_ne_zero i (hdot hd), fun hd => Nat.succ_inj.mp (hdots hd)⟩
      obtain ⟨-, hdots⟩ := h 0 d rfl
      have hfirst : d.1 ≠ dotDot := fun hd => Nat.zero_ne_one (hdots hd)
      rw [listed, hrest]
      by_cases hd : d.1 = dot
      · simp [listing, hd]
      · simp [listing, hd, hfirst]

/-! ## What `file_ls` does -/

variable {h : Heap} {c : Addr → Option Chain} {dest : Addr}

/-- The list holds the names, and the other lists are as they were. -/
def Holding (h : Heap) (c : Addr → Option Chain) (dest : Addr) (names : List Bytes) : Prop :=
  ∃ xs, Rep h (Function.update c dest (some xs)) ∧ texts xs = names

theorem Holding.unique {us vs : List Bytes} (hu : Holding h c dest us) (hv : Holding h c dest vs) : us = vs := by
  obtain ⟨xs, rx, rfl⟩ := hu
  obtain ⟨ys, ry, rfl⟩ := hv
  rw [rx.unique ry (Function.update_self _ _ _) (Function.update_self _ _ _)]

theorem listCat_holding {names : List Bytes} (hn : Holding h c dest names) (d : DName) :
    ∃ h', (listCat dest (charArray d.1)).run h = .ok () h' ∧ Holding h' c dest (names ++ [d.1]) := by
  obtain ⟨xs, r, rfl⟩ := hn
  have hM : 256 ≤ stringMax := by decide
  obtain ⟨h', str, hrun, ⟨hstr, -⟩, -, r'⟩ :=
    (listCat_rep r (Function.update_self _ _ _) (cString_charArray d.1 d.2.1)).1 (d.2.2.trans_le hM)
  rw [Function.update_idem] at r'
  exact ⟨h', hrun, _, r', by simp [hstr.text]⟩

/-- Reading past a dot entry lists any other entry in its place. -/
theorem readPast_run {names : List Bytes} (hn : Holding h c dest names) (name : Bytes) (d : DName)
    (dirp : List Reading) :
    ∃ h', (readPast dest name (.entry d :: dirp)).run h = .ok (some dirp) h' ∧
      Holding h' c dest (names ++ if d.1 = name then [] else [d.1]) := by
  have hcmp := strcmp_eq_zero d.1 name
  unfold readPast
  dsimp only [readdirR]
  rw [if_neg (by decide)]
  by_cases hd : d.1 = name
  · rw [if_neg (not_not.mpr (hcmp.mpr hd)), if_pos hd, List.append_nil]
    exact ⟨h, rfl, hn⟩
  · rw [if_pos (mt hcmp.mp hd), if_neg hd]
    obtain ⟨h', hrun, hn'⟩ := listCat_holding hn d
    exact ⟨h', by rw [run_bind_ok hrun]; rfl, hn'⟩

theorem scan_run {names : List Bytes} (hn : Holding h c dest names) (entries : List DName) :
    ∃ h', (scan dest (entries.map .entry)).run h = .ok () h' ∧
      Holding h' c dest (names ++ entries.map Subtype.val) := by
  induction entries generalizing h names with
  | nil => exact ⟨h, rfl, by simpa using hn⟩
  | cons d entries ih =>
    obtain ⟨h₁, hcat, hn₁⟩ := listCat_holding hn d
    obtain ⟨h₂, hscan, hn₂⟩ := ih hn₁
    refine ⟨h₂, ?_, by simpa using hn₂⟩
    rw [List.map_cons, scan, run_bind_ok hcat]
    exact hscan

theorem readSecond_run {names : List Bytes} (hn : Holding h c dest names) (entries : List DName) :
    ∃ h', (readSecond dest (some (entries.map .entry))).run h = .ok () h' ∧
      Holding h' c dest (names ++ fromSecond entries) := by
  cases entries with
  | nil => exact ⟨h, rfl, by simpa [fromSecond] using hn⟩
  | cons d entries =>
    obtain ⟨h₁, hpast, hn₁⟩ := readPast_run hn dotDot d (entries.map .entry)
    obtain ⟨h₂, hscan, hn₂⟩ := scan_run hn₁ entries
    refine ⟨h₂, ?_, by simpa [fromSecond] using hn₂⟩
    rw [readSecond, List.map_cons, run_bind_ok hpast]
    exact hscan

variable {opendir : Bytes → Option (List Reading)} {path : Str}

/-- `file_ls` of any directory, its entries in any order. -/
theorem fileLs_run (r : Rep h c) {old : Chain} (hl : c dest = some old) (hpath : path.WF)
    {entries : List DName} (hopen : opendir (cText path.text) = some (entries.map .entry)) :
    ∃ h', (fileLs opendir dest path).run h = .ok () h' ∧ Holding h' c dest (listed entries) := by
  obtain ⟨h₀, htrunc, -, r₀⟩ := listTruncate_rep r hl
  have hn₀ : Holding h₀ c dest [] := ⟨[], r₀, rfl⟩
  have hopened : (fileLs opendir dest path).run h =
      (readPast dest dot (entries.map .entry) >>= readSecond dest).run h₀ := by
    rw [fileLs, run_bind_ok htrunc, Holds.bind_cString hpath, deref_some, run_bind_ret, hopen]
  rw [hopened]
  cases entries with
  | nil => exact ⟨h₀, rfl, hn₀⟩
  | cons d entries =>
    obtain ⟨h₁, hpast, hn₁⟩ := readPast_run hn₀ dot d (entries.map .entry)
    obtain ⟨h₂, hsecond, hn₂⟩ := readSecond_run hn₁ entries
    refine ⟨h₂, ?_, hn₂⟩
    rw [List.map_cons, run_bind_ok hpast]
    exact hsecond

/-- `file_ls` succeeds with the names of the entries but for the dots, each once and in their
order. Which names these are does not depend on the order. -/
def Lists (opendir : Bytes → Option (List Reading)) (h : Heap) (c : Addr → Option Chain) (dest : Addr)
    (path : Str) (entries : List DName) : Prop :=
  ∃ h' names, (fileLs opendir dest path).run h = .ok () h' ∧ Holding h' c dest names ∧
    names = listing entries ∧ (entries.Nodup → names.Nodup) ∧
    ∀ name, name ∈ names ↔ name ∈ entries.map Subtype.val ∧ name ≠ dot ∧ name ≠ dotDot

/-- The listing is right exactly when `.` comes first and `..` second, as far as they come. -/
theorem file_ls_iff (r : Rep h c) {old : Chain} (hl : c dest = some old) (hpath : path.WF)
    {entries : List DName} (hopen : opendir (cText path.text) = some (entries.map .entry)) :
    Lists opendir h c dest path entries ↔ DotsFirst entries := by
  obtain ⟨h', hrun, hn⟩ := fileLs_run r hl hpath hopen
  rw [← listed_eq_listing]
  constructor
  · rintro ⟨h'', names, hrun', hn', rfl, -, -⟩
    rw [hrun] at hrun'
    cases hrun'
    exact hn.unique hn'
  · intro heq
    rw [heq] at hn
    exact ⟨h', _, hrun, hn, rfl, nodup_listing, fun _ => mem_listing⟩

/-- The entries `.`, `..` and `a`. -/
def dotName : DName := ⟨dot, by decide⟩

def dotDotName : DName := ⟨dotDot, by decide⟩

def aName : DName := ⟨[97], by decide⟩

/-- A file system with one directory. -/
def oneDirectory (entries : List DName) (name : Bytes) : Option (List Reading) :=
  if name = [100] then some (entries.map .entry) else none

/-- When a file comes before the dots they are listed. -/
theorem file_ls_lists_dots :
    (∃ h', (fileLs (oneDirectory [aName, dotName, dotDotName]) 1 (letter 100).1).run emptyAndB = .ok () h' ∧
      Holding h' emptyAndBChains 1 [[97], dot, dotDot]) ∧
    ¬ Lists (oneDirectory [aName, dotName, dotDotName]) emptyAndB emptyAndBChains 1 (letter 100).1
      [aName, dotName, dotDotName] := by
  have hopen : oneDirectory [aName, dotName, dotDotName] (cText (letter 100).1.text) =
      some ([aName, dotName, dotDotName].map .entry) := if_pos rfl
  have hlist : emptyAndBChains 1 = some [(2, (letter 98).1)] := rfl
  obtain ⟨h', hrun, hn⟩ := fileLs_run rep_emptyAndB hlist (letter 100).2 hopen
  refine ⟨⟨h', hrun, hn⟩, ?_⟩
  rintro ⟨h'', names, hrun', hn', hnames, -, -⟩
  rw [hrun] at hrun'
  cases hrun'
  have hsame := hn.unique hn'
  rw [hnames] at hsame
  exact absurd hsame (by decide)

theorem file_ls_iff_dots_first :
    Lists (oneDirectory [dotName, dotDotName, aName]) emptyAndB emptyAndBChains 1 (letter 100).1
      [dotName, dotDotName, aName] := by
  have hopen : oneDirectory [dotName, dotDotName, aName] (cText (letter 100).1.text) =
      some ([dotName, dotDotName, aName].map .entry) := if_pos rfl
  have hlist : emptyAndBChains 1 = some [(2, (letter 98).1)] := rfl
  apply (file_ls_iff rep_emptyAndB hlist (letter 100).2 hopen).mpr
  apply (listed_eq_listing _).mp
  decide

end NcFileLs
