import NaturalC.NcHashLeaks
import NaturalC.NcListPositions
import NaturalC.NcPasswd
import NaturalC.NcPidfile
import NaturalC.NcRegex
import NaturalC.NcSplit

/-!
# The names of the users of `/etc/passwd`

`passwd_get_uid_map` fills a hash table with the first column of every row under the third
one, and `passwd_get_symbolic_uid` looks a number up in it. The rows and the columns of
one row are lists in the heap in which the buckets of the table are as well.
-/
namespace NcPasswd

open Throwing Throwing.Act NcString NcHash NcSplit Lines Linked
open NcList hiding onHeap Op World exec execAll

/-- The files, and the heap with the table of the caller. -/
structure Host where
  world : NcPidfile.World
  store : Store

def inWorld {α : Type} (m : Act NcPidfile.World α) : Act Host α :=
  zoom Host.world (fun w host => { host with world := w }) m

def inStore {α : Type} (m : Act Store α) : Act Host α :=
  zoom Host.store (fun s host => { host with store := s }) m

/-- `strncmp(3)` compares at most `len` characters. -/
def strNcmp {σ : Type} (s : Str) (c : Bytes) (len : Nat) : Act σ Int := do
  if 0 < len ∧ len < stringMax then do
    let mem ← deref s.value
    let t1 ← deref (cString mem)
    let t2 ← deref (cString c)
    pure (strcmp (t1.take len) (t2.take len))
  else throwing

/-- `"/etc/passwd"`. -/
def passwdPath : Bytes := [47, 101, 116, 99, 47, 112, 97, 115, 115, 119, 100]

/-- One round of the loop over the rows, with its counter and the strings for the line and two columns. -/
def uidMapStep (rows cols : Addr) : Nat × Str × Str × Str → Act Store ((Nat × Str × Str × Str) ⊕ Unit)
  | (i, line, uidSym, uidNum) => do
    let l ← onHeap (loadList rows)
    if i < l.count then do
      let line ← onHeap (listGet line rows i)
      let rc ← strNcmp line (charArray [35]) 1
      if rc = 0 then pure (.inl (i + 1, line, uidSym, uidNum))
      else do
        -- A line that is empty leaves the columns of the line before it on the list.
        onHeap (strSplit cols line 58)
        let uidSym ← onHeap (listGet uidSym cols 0)
        let uidNum ← onHeap (listGet uidNum cols 2)
        let key ← deref uidNum.value
        hashSet key uidSym
        pure (.inl (i + 1, line, uidSym, uidNum))
    else pure (.inr ())

/-- The loop over the rows. -/
def uidMapRows (rows cols : Addr) (line uidSym uidNum : Str) : Act Store Unit := do
  let l ← onHeap (loadList rows)
  loop (uidMapStep rows cols) (l.count + 1) (0, line, uidSym, uidNum)

/-- What `passwd_get_uid_map` does with its locals. -/
def uidMapBody (rows cols : Addr) (buf path line uidSym uidNum : Str) : Act Host Unit := do
  inStore hashTruncate
  let (_, path) ← onLocal (strCpy true (charArray passwdPath)) path
  let file ← deref (path.value.bind cString)
  let buf ← inWorld (NcPidfile.fileRead buf file)
  let (_, buf) ← onLocal strChomp buf
  inStore (onHeap (strSplit rows buf 10))
  inStore (uidMapRows rows cols line uidSym uidNum)

/-- A call that fails makes the function return before its lists are destroyed. -/
def passwdGetUidMap : Act Host Unit := do
  let buf ← strNew true true
  let path ← strNew true true
  let line ← strNew true true
  let uidNum ← strNew true true
  let uidSym ← strNew true true
  let rows ← inStore (onHeap listNew)
  let cols ← inStore (onHeap listNew)
  uidMapBody rows cols buf path line uidSym uidNum
  inStore (onHeap (listDestroy rows))
  inStore (onHeap (listDestroy cols))

/-- What `"%u"` makes of the number of a user. -/
def uidText (uid : UInt32) : Bytes := printUnsigned uid.toNat

def passwdGetSymbolicUid (dest : Str) (uid : UInt32) : Act Store Str := do
  let uidStr ← strNew true true
  let result ← strNew true true
  let (_, uidStr) ← onLocal (strSprintf (uidText uid)) uidStr
  let key ← deref uidStr.value
  let result ← hashGet result key
  let (_, dest) ← onLocal (strCopy true result) dest
  pure dest

/-! ## What the file says -/

def commented (row : Bytes) : Bool := row.head? = some 35

/-- The columns of a row, or those of the row before it. -/
def columns (cols : List Bytes) (row : Bytes) : List Bytes := if row = [] then cols else tokens 58 row

/-- The number and the name in some columns. -/
def uidName (cols : List Bytes) : Option (Bytes × Bytes) := do
  let sym ← cols[0]?
  let num ← cols[2]?
  pure (num, sym)

/-- The numbers and names of the rows up to one that is too short, and whether there is none of these. -/
def uidNames (cols : List Bytes) : List Bytes → List (Bytes × Bytes) × Bool
  | [] => ([], true)
  | row :: rows =>
    if commented row then uidNames cols rows
    else match uidName (columns cols row) with
      | none => ([], false)
      | some p => (p :: (uidNames (columns cols row) rows).1, (uidNames (columns cols row) rows).2)

/-- The rows of the file. -/
def rowsOf (data : Bytes) : List Bytes := if chomp data = [] then [] else tokens 10 (chomp data)

/-- What the rows of the file give. A short one among them ends the reading. -/
def fileNames (data : Bytes) : List (Bytes × Bytes) × Bool := uidNames [] (rowsOf data)

/-- What comes of a file that may be missing. -/
def hostNames (data : Option Bytes) : List (Bytes × Bytes) × Bool :=
  match data with
  | none => ([], false)
  | some data => fileNames data

/-- The last name of every number. -/
def lastNames (ps : List (Bytes × Bytes)) (names : Bytes → Option Bytes) : Bytes → Option Bytes :=
  ps.foldl (fun m p => Function.update m p.1 (some p.2)) names

/-- The end of a call: it is done, or it has failed. -/
def ended {σ : Type} (done : Bool) (st : σ) : Outcome σ Unit := if done then .ok () st else .thrown st

/-- The name that is found, or a failure. -/
def found {σ : Type} (name : Option Bytes) (st : σ) : Outcome σ Bytes :=
  match name with
  | some name => .ok name st
  | none => .thrown st

theorem nulFree_tokens {d : UInt8} {t u : Bytes} (hu : u ∈ tokens d t) : NulFree u := by
  have hspec := cut_spec d (cText (chomp t))
  have hnul : NulFree (cText (chomp t)) := nulFree_cString (cString_cText (chomp t) [])
  obtain ⟨l, hl, rfl⟩ := List.mem_map.mp hu
  have hsub : ∀ b ∈ l, b ∈ cText (chomp t) := by
    intro b hb
    rw [hspec.eq]
    rcases List.mem_append.mp hl with hl | hl
    · exact List.mem_append_left _ (List.mem_flatten_of_mem (List.mem_map_of_mem hl) (List.mem_append_left _ hb))
    · rw [List.mem_singleton.mp hl] at hb
      exact List.mem_append_right _ hb
  have hfin : ∀ b ∈ finish d l, b ∈ l := by
    intro b hb
    rw [finish] at hb
    split at hb
    · exact (chomp_isPrefix l).subset hb
    · exact hb
  exact fun h0 => hnul (hsub 0 (hfin 0 h0))

theorem length_tokens (d : UInt8) (t : Bytes) : (tokens d t).length ≤ t.length + 1 := by
  have hspec := congrArg List.length (cut_spec d (cText (chomp t))).eq
  have hle := (chomp_isPrefix t).length_le
  have htake := (List.takeWhile_prefix (l := chomp t) (· != 0)).length_le
  have hlines : (cut d (cText (chomp t))).1.length ≤ (((cut d (cText (chomp t))).1.map (· ++ [d])).flatten).length := by
    generalize (cut d (cText (chomp t))).1 = ls
    induction ls with
    | nil => exact Nat.le_refl _
    | cons l ls ih =>
      simp only [List.map_cons, List.flatten_cons, List.length_append, List.length_cons, List.length_nil] at ih ⊢
      omega
  rw [List.length_append] at hspec
  rw [tokens, List.length_map, List.length_append, List.length_singleton]
  rw [cText] at *
  omega

/-! ## The table while the file is read -/

variable {ks : List Bytes} {s : Store} {c : Addr → Option Chain} {T : Table}

/-- `hash_set` of a key in use, from any memory. -/
theorem stores_set (S : Stores ks s c T) {mem k : Bytes} (hmem : cString mem = some k) (hk : k ∈ ks)
    (hfit : k.length < stringMax) {value : Str} {v : Bytes} (hv : Holds value v) (hn : NulFree v) (hnot : v ∉ ks) :
    ∃ s' c' T', (hashSet mem value).run s = .ok () s' ∧ Stores ks s' c' T' ∧
      T'.lookup = Function.update T.lookup k (some v) ∧ Local out s s' c c' := by
  have hnul : NulFree k := nulFree_cString hmem
  have hkey : NulFree k ∧ fitsString k = true := ⟨hnul, decide_eq_true hfit⟩
  rcases S.search ⟨k, hnul⟩ hk with ⟨hclear, hnone⟩ | ⟨qs, w, rs, hP, hqs, hq, hsome⟩
  · have hnew : k ∉ (T.pairs (xorBytes k)).map Prod.fst := by
      rw [← T.isSome_lookup, hnone]
      decide
    obtain ⟨s', c', hrun, htab, hcount, -, hlocal⟩ := (hashSet_absent S.tab hmem hclear hv).1 hfit
    obtain ⟨T', hpairs, hlookup, hkeys⟩ := T.exists_add v hnew
    refine ⟨s', c', T', hrun, S.put hpairs (pairTab_update htab (by simp)) ?_ ?_, hlookup, hlocal⟩
    · rw [hcount, hkeys, S.count]
    · intro p hp
      rcases List.mem_append.mp hp with hp | hp
      · exact Or.inl hp
      · rw [List.mem_singleton.mp hp]
        exact Or.inr ⟨hkey, hn, hnot⟩
  · have hB : flat (T.pairs (xorBytes k)) = flat qs ++ k :: w :: flat rs := by simp [hP]
    obtain ⟨s', c', hrun, htab, hcount, -, hlocal⟩ := hashSet_found S.tab hmem hB hqs (cText_of_nulFree hnul) hv
    obtain ⟨T', hpairs, hlookup, hkeys⟩ := T.exists_overwrite v hP hq
    refine ⟨s', c', T', hrun, S.put hpairs (pairTab_update htab (by simp)) ?_ ?_, hlookup, hlocal⟩
    · rw [hcount, hkeys, S.count]
    · intro p hp
      simp only [List.mem_append, List.mem_cons] at hp
      rcases hp with hp | rfl | hp
      · exact Or.inl (by simp [hP, hp])
      · exact Or.inr ⟨hkey, hn, hnot⟩
      · exact Or.inl (by simp [hP, hp])

/-- `hash_get` of a key in use, from any memory. -/
theorem stores_get (S : Stores ks s c T) {mem k : Bytes} (hmem : cString mem = some k) (hk : k ∈ ks) {dest : Str}
    {old : Bytes} (hd : Holds dest old) :
    (T.lookup k = none ∧ (hashGet dest mem).run s = .thrown s) ∨
      ∃ v d, T.lookup k = some v ∧ (hashGet dest mem).run s = .ok d s ∧ Holds d v := by
  have hnul : NulFree k := nulFree_cString hmem
  rcases S.search ⟨k, hnul⟩ hk with ⟨hclear, hnone⟩ | ⟨qs, v, rs, hP, hqs, -, hsome⟩
  · exact Or.inl ⟨hnone, hashGet_absent S.tab hmem hclear dest⟩
  · have hB : flat (T.pairs (xorBytes k)) = flat qs ++ k :: v :: flat rs := by simp [hP]
    obtain ⟨d, hrun, hd'⟩ := hashGet_found S.tab hmem hB hqs (cText_of_nulFree hnul) hd
    exact Or.inr ⟨v, d, hsome, hrun, hd'⟩

/-- `list_get` at any position. -/
theorem listGet_at {F : Rest} {h : Heap} (r : RepIn F h c) {l : Addr} {xs : Chain} (hl : c l = some xs) {dest : Str}
    (hd : dest.WF) {i : Nat} (hi : i < 2 ^ 32) :
    ((texts xs)[i]? = none → (listGet dest l i).run h = .thrown h) ∧
      ∀ t, (texts xs)[i]? = some t → ∃ d, (listGet dest l i).run h = .ok d h ∧ Holds d t := by
  constructor
  · intro hnone
    have hlen : xs.length ≤ i := by simpa [texts] using hnone
    exact listGet_beyond r hl dest hlen
  · intro t ht
    obtain ⟨hlt, hget⟩ := List.getElem?_eq_some_iff.mp ht
    have hlt : i < xs.length := by simpa using hlt
    have hcut : xs = xs.take i ++ (xs[i].1, xs[i].2) :: xs.drop (i + 1) := by simp
    have hlen : (xs.take i).length = i := List.length_take_of_le (Nat.le_of_lt hlt)
    obtain ⟨d, hrun, hd⟩ := listGet_rep r (hl.trans (congrArg some hcut)) (by omega) hd
    rw [hlen] at hrun
    have htext : (xs[i].2).text = t := by simpa [texts] using hget
    exact ⟨d, hrun, htext ▸ hd⟩

/-- What is in the heap beside the lists from before, the buckets and two lists of a function. -/
structure Left (old : Store) (rows cols : Addr) (s : Store) : Prop where
  bounded : Bounded s.heap
  debt : s.heap.debt ≤ old.heap.debt
  lists : ∀ l, (s.heap.list l).isSome → (l = rows ∨ l = cols) ∨ (old.heap.list l).isSome ∨ ∃ i, s.hash.bucket i = some l
  buckets : ∀ i l, old.hash.bucket i = some l → s.hash.bucket i = some l

theorem Left.grows {old s s' : Store} {rows cols : Addr} (L : Left old rows cols s) (hg : Grows s s') :
    Left old rows cols s' := by
  refine ⟨hg.bounded, Int.le_trans hg.debt L.debt, ?_, fun i l h => hg.buckets i l (L.buckets i l h)⟩
  intro l hl
  rcases hg.lists l hl with hold | hnew
  · rcases L.lists l hold with hown | hbefore | ⟨i, hi⟩
    · exact Or.inl hown
    · exact Or.inr (Or.inl hbefore)
    · exact Or.inr (Or.inr ⟨i, hg.buckets i l hi⟩)
  · exact Or.inr (Or.inr hnew)

theorem strSplit_costs {h : Heap} (r : Rep h c) (hb : Bounded h) {dest : Addr} {xs : Chain} (hd : c dest = some xs)
    (src : Str) (d : UInt8) : ((strSplit dest src d).run h).Leaves (Costs 0 h) := by
  have hstep : ∀ o, Keeps (splitStep dest d o) := by
    intro o
    cases o with
    | none => exact (moves_pure _).keeps
    | some cp =>
      apply (moves_deref _).keeps.bind
      rintro ⟨tok, rest⟩
      apply (keeps_listCat dest tok).bind
      intro _
      dsimp only
      split
      · apply (moves_loadList dest).keeps.bind
        intro l
        apply (moves_deref l.tail).keeps.bind
        intro t
        exact (keeps_onValue t _).bind fun _ => (moves_pure _).keeps
      · exact (moves_pure _).keeps
  have hrest : ∀ copy : Str, Keeps (do
      let (_, copy) ← onLocal strChomp copy
      let cp ← deref copy.value
      loop (splitStep dest d) (cp.length + 1) (some cp)) := by
    intro copy
    apply (keeps_onLocal _ _).bind
    intro x
    apply (moves_deref _).keeps.bind
    intro cp
    exact Keeps.loop hstep _ _
  rw [strSplit]
  split
  · exact Costs.refl hb
  · obtain ⟨e, hnew, -⟩ := strNew_holds h
    rw [run_bind_ok hnew]
    apply leaves_bind (leaves_onLocal _ e h)
    · rintro _ rfl
      exact Costs.refl hb
    · rintro x _ - rfl
      exact listTruncate_then r hb hd (hrest x.2)

/-- The table stores `T`, the rows of the file are on their list and the columns of a row on another one. -/
structure Reading (ks : List Bytes) (old : Store) (rows cols : Addr) (ys : Chain) (s : Store)
    (c : Addr → Option Chain) (T : Table) (cs : List Bytes) : Prop where
  stores : Stores ks s c T
  left : Left old rows cols s
  rowsChain : c rows = some ys
  colsChain : ∃ zs, c cols = some zs ∧ texts zs = cs ∧ ∀ z ∈ zs, z.2.size ≤ stringMax
  rowsApart : ∀ i, s.hash.bucket i ≠ some rows
  colsApart : ∀ i, s.hash.bucket i ≠ some cols
  ne : rows ≠ cols ∧ rows ≠ out ∧ cols ≠ out
  nulFree : ∀ t ∈ cs, NulFree t

variable {old : Store} {rows cols : Addr} {ys : Chain} {cs : List Bytes}

/-- The entries of a chain are as short as their buffers. -/
theorem length_lt_of_size {h : Heap} {F : Rest} (r : RepIn F h c) {l : Addr} {xs : Chain} (hl : c l = some xs)
    (hsize : ∀ x ∈ xs, x.2.size ≤ stringMax) {t : Bytes} (ht : t ∈ texts xs) : t.length < stringMax := by
  obtain ⟨x, hx, rfl⟩ := List.mem_map.mp ht
  have hwf : Holds x.2 x.2.text := r.wf hl x hx
  have hroom := hwf.len_lt_size
  have hlen := hwf.len
  have hmax := hsize x hx
  omega

/-- `str_split` of a row. -/
theorem columns_run (R : Reading ks old rows cols ys s c T cs) {line : Str} {row : Bytes} (hline : Holds line row)
    (hmax : row.length < stringMax) :
    ∃ h' c', (strSplit cols line 58).run s.heap = .ok () h' ∧
      Reading ks old rows cols ys { s with heap := h' } c' T (columns cs row) := by
  obtain ⟨zs, hzs, htexts, hsize⟩ := R.colsChain
  by_cases hrow : row = []
  · have hlen : line.len = 0 := by
      rw [hline.len, hrow]
      rfl
    refine ⟨s.heap, c, ?_, ?_⟩
    · simp only [strSplit, if_pos hlen]
      rfl
    · rw [columns, if_pos hrow]
      exact R
  · obtain ⟨h', zs', hrun, ⟨htexts', hsize'⟩, r'⟩ := strSplit_tokens R.stores.tab.rep hzs hline hrow hmax (d := 58)
    have hc := (strSplit_costs R.stores.tab.rep R.left.bounded hzs line 58).of_ok hrun
    refine ⟨h', Function.update c cols (some zs'), hrun, ?_⟩
    rw [columns, if_neg hrow]
    refine ⟨R.stores.other R.colsApart (fun he => absurd he R.ne.2.2) r', R.left.grows (Grows.of_costs hc), ?_,
      ⟨zs', Function.update_self _ _ _, htexts', hsize'⟩, R.rowsApart, R.colsApart, R.ne, fun t ht => nulFree_tokens ht⟩
    rw [Function.update_of_ne R.ne.1]
    exact R.rowsChain

/-- `hash_set` leaves both lists alone. -/
theorem Reading.set (R : Reading ks old rows cols ys s c T cs) {s' : Store} {c' : Addr → Option Chain} {T' : Table}
    (S : Stores ks s' c' T') (L : Local out s s' c c') (hg : Grows s s') : Reading ks old rows cols ys s' c' T' cs := by
  obtain ⟨zs, hzs, hcols⟩ := R.colsChain
  have hrows : c' rows = some ys := by
    rw [L.same rows R.ne.2.1 (by simp [R.rowsChain]) R.rowsApart, R.rowsChain]
  have hcols' : c' cols = some zs := by
    rw [L.same cols R.ne.2.2 (by simp [hzs]) R.colsApart, hzs]
  have hfresh : ∀ {l : Addr}, (∀ i, s.hash.bucket i ≠ some l) → (c l).isSome → ∀ i, s'.hash.bucket i ≠ some l := by
    intro l hl hsome i hi
    rcases L.fresh i l hi with hold | hnone
    · exact hl i hold
    · rw [hnone] at hsome
      cases hsome
  exact ⟨S, R.left.grows hg, hrows, ⟨zs, hcols', hcols⟩, hfresh R.rowsApart (by simp [R.rowsChain]),
    hfresh R.colsApart (by simp [hzs]), R.ne, R.nulFree⟩

theorem strNcmp_hash {σ : Type} {line : Str} {row : Bytes} (hline : Holds line row) (hn : NulFree row) (st : σ) :
    ∃ rc, (strNcmp line (charArray [35]) 1).run st = .ok rc st ∧ (rc = 0 ↔ commented row = true) := by
  obtain ⟨rest, hval, -⟩ := hline.value
  have hmax : 0 < 1 ∧ 1 < stringMax := by decide
  have htext : cString (row ++ 0 :: rest) = some row := by rw [cString_cText, cText_of_nulFree hn]
  have hhash : cString (charArray [35]) = some [35] := by decide
  refine ⟨strcmp (row.take 1) [35], ?_, ?_⟩
  · rw [strNcmp, if_pos hmax, hval, deref_some, run_bind_ret, htext, deref_some, run_bind_ret, hhash]
    rfl
  · cases row with
    | nil => decide
    | cons b row =>
      by_cases hb : b = 35
      · subst hb
        simp [commented, strcmp]
      · simp only [commented, List.head?_cons, List.take_succ_cons, List.take_zero, strcmp, if_neg hb]
        split <;> simp [hb]

/-- The strings for the line and the two columns are well formed. -/
def Scratch (x : Nat × Str × Str × Str) : Prop := x.2.1.WF ∧ x.2.2.1.WF ∧ x.2.2.2.WF

/-- What one round does with a row: nothing, or it fails, or it stores a name. -/
theorem uidMapStep_run (R : Reading ks old rows cols ys s c T cs) {x : Nat × Str × Str × Str} (hx : Scratch x)
    (hi : x.1 < 2 ^ 32) {row : Bytes} (hrow : (texts ys)[x.1]? = some row) (hn : NulFree row)
    (hmax : row.length < stringMax) :
    (commented row = true → ∃ y, Scratch y ∧ y.1 = x.1 + 1 ∧ (uidMapStep rows cols x).run s = .ok (.inl y) s) ∧
    (commented row = false → uidName (columns cs row) = none →
      ∃ s' c', (uidMapStep rows cols x).run s = .thrown s' ∧ Reading ks old rows cols ys s' c' T (columns cs row)) ∧
    ∀ p, commented row = false → uidName (columns cs row) = some p → p.1 ∈ ks → p.2 ∉ ks →
      ∃ y s' c' T', Scratch y ∧ y.1 = x.1 + 1 ∧ (uidMapStep rows cols x).run s = .ok (.inl y) s' ∧
        Reading ks old rows cols ys s' c' T' (columns cs row) ∧
        T'.lookup = Function.update T.lookup p.1 (some p.2) := by
  obtain ⟨i, line, uidSym, uidNum⟩ := x
  obtain ⟨hlineWf, hsymWf, hnumWf⟩ := hx
  have hlt : i < (header ys).count := by
    have hlt := (List.getElem?_eq_some_iff.mp hrow).1
    simpa [header] using hlt
  have hlist : (loadList rows).run s.heap = .ok (header ys) s.heap := by
    rw [loadList, run_bind_get, R.stores.tab.rep.list_eq R.rowsChain]
    rfl
  obtain ⟨line', hline, hholds⟩ := (listGet_at R.stores.tab.rep R.rowsChain hlineWf hi).2 row hrow
  obtain ⟨rc, hcmp, hrc⟩ := strNcmp_hash hholds hn s
  have hstart : (uidMapStep rows cols (i, line, uidSym, uidNum)).run s =
      (if rc = 0 then pure (.inl (i + 1, line', uidSym, uidNum))
      else do
        onHeap (strSplit cols line' 58)
        let uidSym ← onHeap (listGet uidSym cols 0)
        let uidNum ← onHeap (listGet uidNum cols 2)
        let key ← deref uidNum.value
        hashSet key uidSym
        pure (.inl (i + 1, line', uidSym, uidNum)) : Act Store ((Nat × Str × Str × Str) ⊕ Unit)).run s := by
    rw [uidMapStep, run_bind_ok (run_onHeap_ok hlist)]
    rw [if_pos hlt, run_bind_ok (run_onHeap_ok hline), run_bind_ok hcmp]
  have hcode : commented row = false → rc ≠ 0 := by
    intro hcom h0
    rw [hrc.mp h0] at hcom
    cases hcom
  refine ⟨?_, ?_, ?_⟩
  · intro hcom
    refine ⟨(i + 1, line', uidSym, uidNum), ⟨hholds.wf, hsymWf, hnumWf⟩, rfl, ?_⟩
    rw [hstart, if_pos (hrc.mpr hcom)]
    rfl
  · intro hcom hnone
    obtain ⟨h', c', hsplit, R'⟩ := columns_run R hholds hmax
    obtain ⟨zs, hzs, htexts, hsize⟩ := R'.colsChain
    refine ⟨{ s with heap := h' }, c', ?_, R'⟩
    rw [hstart, if_neg (hcode hcom), run_bind_ok (run_onHeap_ok hsplit)]
    -- One of the two columns is missing.
    obtain ⟨hsym0, hsym⟩ := listGet_at R'.stores.tab.rep hzs hsymWf (i := 0) (by decide)
    obtain ⟨hnum0, -⟩ := listGet_at R'.stores.tab.rep hzs hnumWf (i := 2) (by decide)
    rw [htexts] at hsym0 hsym hnum0
    cases h0 : (columns cs row)[0]? with
    | none => exact run_bind_thrown (run_onHeap_thrown (hsym0 h0))
    | some sym =>
      obtain ⟨sym', hget, -⟩ := hsym sym h0
      have h2 : (columns cs row)[2]? = none := by
        cases h2 : (columns cs row)[2]? with
        | none => rfl
        | some num => simp [uidName, h0, h2] at hnone
      rw [run_bind_ok (run_onHeap_ok hget)]
      exact run_bind_thrown (run_onHeap_thrown (hnum0 h2))
  · intro p hcom hsome hkey hvalue
    obtain ⟨h', c', hsplit, R'⟩ := columns_run R hholds hmax
    obtain ⟨zs, hzs, htexts, hsize⟩ := R'.colsChain
    obtain ⟨-, hsym⟩ := listGet_at R'.stores.tab.rep hzs hsymWf (i := 0) (by decide)
    obtain ⟨-, hnum⟩ := listGet_at R'.stores.tab.rep hzs hnumWf (i := 2) (by decide)
    rw [htexts] at hsym hnum
    obtain ⟨h0, h2⟩ : (columns cs row)[0]? = some p.2 ∧ (columns cs row)[2]? = some p.1 := by
      cases h0 : (columns cs row)[0]? with
      | none => simp [uidName, h0] at hsome
      | some sym =>
        cases h2 : (columns cs row)[2]? with
        | none => simp [uidName, h0, h2] at hsome
        | some num =>
          simp only [uidName, h0, h2, Option.bind_eq_bind, Option.bind_some, Option.pure_def,
            Option.some.injEq] at hsome
          subst hsome
          exact ⟨rfl, rfl⟩
    obtain ⟨sym', hgetSym, hsym'⟩ := hsym p.2 h0
    obtain ⟨num', hgetNum, hnum'⟩ := hnum p.1 h2
    have hmem : ∀ {t : Bytes} {k : Nat}, (columns cs row)[k]? = some t → NulFree t ∧ t.length < stringMax := by
      intro t k ht
      have hin := List.mem_of_getElem? ht
      exact ⟨R'.nulFree t hin, length_lt_of_size R'.stores.tab.rep hzs hsize (htexts ▸ hin)⟩
    obtain ⟨rest, hval, -⟩ := hnum'.value
    have hkeyText : cString (p.1 ++ 0 :: rest) = some p.1 := by rw [cString_cText, cText_of_nulFree (hmem h2).1]
    obtain ⟨s', c'', T', hset, S', hlookup, hlocal⟩ := stores_set R'.stores hkeyText hkey (hmem h2).2 hsym' (hmem h0).1
      hvalue
    have hg := (plain_hashSet _ _ _ R'.left.bounded).of_ok hset
    refine ⟨(i + 1, line', sym', num'), s', c'', T', ⟨hholds.wf, hsym'.wf, hnum'.wf⟩, rfl, ?_, R'.set S' hlocal hg,
      hlookup⟩
    rw [hstart, if_neg (hcode hcom), run_bind_ok (run_onHeap_ok hsplit), run_bind_ok (run_onHeap_ok hgetSym),
      run_bind_ok (run_onHeap_ok hgetNum), hval, deref_some, run_bind_ret, run_bind_ok hset]
    rfl

theorem uidNames_skip {row : Bytes} (h : commented row = true) (cs : List Bytes) (rows : List Bytes) :
    uidNames cs (row :: rows) = uidNames cs rows := by
  rw [uidNames, if_pos h]

theorem uidNames_short {row : Bytes} (h : commented row = false) (hnone : uidName (columns cs row) = none)
    (rows : List Bytes) : uidNames cs (row :: rows) = ([], false) := by
  rw [uidNames, h, if_neg Bool.false_ne_true, hnone]

theorem uidNames_store {row : Bytes} {p : Bytes × Bytes} (h : commented row = false)
    (hsome : uidName (columns cs row) = some p) (rows : List Bytes) :
    uidNames cs (row :: rows) = (p :: (uidNames (columns cs row) rows).1, (uidNames (columns cs row) rows).2) := by
  rw [uidNames, h, if_neg Bool.false_ne_true, hsome]

/-- The loop stores the names of the rows that are left, one after the other. -/
theorem loop_uidMap (hshort : ys.length < 2 ^ 32) (hrows : ∀ row ∈ texts ys, NulFree row ∧ row.length < stringMax)
    (rest : List Bytes) :
    ∀ (done : List Bytes) {cs : List Bytes} {x : Nat × Str × Str × Str} {s : Store} {c : Addr → Option Chain} {T : Table} {fuel : Nat},
      Reading ks old rows cols ys s c T cs → Scratch x → texts ys = done ++ rest → x.1 = done.length →
      rest.length < fuel → (∀ p ∈ (uidNames cs rest).1, p.1 ∈ ks ∧ p.2 ∉ ks) →
      ∃ s' c' T' cs', (loop (uidMapStep rows cols) fuel x).run s = ended (uidNames cs rest).2 s' ∧
        Reading ks old rows cols ys s' c' T' cs' ∧ T'.lookup = lastNames (uidNames cs rest).1 T.lookup := by
  induction rest with
  | nil =>
    intro done cs x s c T fuel R hx hcut hi hfuel _
    obtain ⟨n, rfl⟩ : ∃ n, fuel = n + 1 := ⟨fuel - 1, by omega⟩
    have hend : ¬ x.1 < (header ys).count := by
      have hlen := congrArg List.length hcut
      simp only [length_texts, List.append_nil] at hlen
      rw [hi, ← hlen]
      exact Nat.lt_irrefl _
    have hlist : (loadList rows).run s.heap = .ok (header ys) s.heap := by
      rw [loadList, run_bind_get, R.stores.tab.rep.list_eq R.rowsChain]
      rfl
    have hstep : (uidMapStep rows cols x).run s = .ok (.inr ()) s := by
      obtain ⟨i, line, uidSym, uidNum⟩ := x
      rw [uidMapStep, run_bind_ok (run_onHeap_ok hlist), if_neg hend]
      rfl
    exact ⟨s, c, T, cs, run_loop_inr hstep, R, rfl⟩
  | cons row rest ih =>
    intro done cs x s c T fuel R hx hcut hi hfuel hnames
    obtain ⟨n, rfl⟩ : ∃ n, fuel = n + 1 := ⟨fuel - 1, by omega⟩
    have hrest : rest.length < n := by simpa using hfuel
    have hnext : ∀ {y : Nat × Str × Str × Str}, y.1 = x.1 + 1 → y.1 = (done ++ [row]).length := by
      intro y hy
      rw [hy, hi, List.length_append, List.length_singleton]
    have hcut' : texts ys = (done ++ [row]) ++ rest := by rw [hcut, List.append_assoc, List.singleton_append]
    have hget : (texts ys)[x.1]? = some row := by rw [hcut, hi, List.getElem?_append_right (Nat.le_refl _)]; simp
    have hbound : x.1 < 2 ^ 32 := by
      have hlt := (List.getElem?_eq_some_iff.mp hget).1
      rw [length_texts] at hlt
      omega
    obtain ⟨hn, hmax⟩ := hrows row (by simp [hcut])
    obtain ⟨hskip, hfail, hstore⟩ := uidMapStep_run R hx hbound hget hn hmax
    cases hcom : commented row with
    | true =>
      obtain ⟨y, hy, hyi, hrun⟩ := hskip hcom
      rw [uidNames_skip hcom] at hnames ⊢
      rw [run_loop_inl hrun]
      exact ih _ R hy hcut' (hnext hyi) hrest hnames
    | false =>
      cases hname : uidName (columns cs row) with
      | none =>
        obtain ⟨s', c', hrun, R'⟩ := hfail hcom hname
        rw [uidNames_short hcom hname]
        exact ⟨s', c', T, _, run_loop_thrown hrun, R', rfl⟩
      | some p =>
        rw [uidNames_store hcom hname] at hnames ⊢
        obtain ⟨hkey, hvalue⟩ := hnames p (by simp)
        obtain ⟨y, s', c', T', hy, hyi, hrun, R', hlookup⟩ := hstore p hcom hname hkey hvalue
        rw [run_loop_inl hrun]
        obtain ⟨s'', c'', T'', cs'', hloop, R'', hlast⟩ := ih _ R' hy hcut' (hnext hyi) hrest
          fun q hq => hnames q (List.mem_cons_of_mem _ hq)
        refine ⟨s'', c'', T'', cs'', hloop, R'', ?_⟩
        rw [hlast, hlookup]
        rfl

theorem lastNames_cases {ps : List (Bytes × Bytes)} {names : Bytes → Option Bytes} {k v : Bytes}
    (h : lastNames ps names k = some v) : (k, v) ∈ ps ∨ names k = some v := by
  induction ps generalizing names with
  | nil => exact Or.inr h
  | cons p ps ih =>
    rcases ih h with hmem | hold
    · exact Or.inl (List.mem_cons_of_mem _ hmem)
    · change Function.update names p.1 (some p.2) k = some v at hold
      by_cases hk : k = p.1
      · rw [hk, Function.update_self, Option.some.injEq] at hold
        exact Or.inl (by simp [hk, ← hold])
      · rw [Function.update_of_ne hk] at hold
        exact Or.inr hold

/-! ## The calls -/

/-- Two new lists are all that there is beside what was there before. -/
theorem left_new (hb : Bounded s.heap) {h₁ h₂ : Heap} (hrows : listNew.run s.heap = .ok rows h₁)
    (hcols : listNew.run h₁ = .ok cols h₂) : Left s rows cols ⟨h₂, s.hash⟩ := by
  obtain ⟨t₁, hnew₁, hb₁, hdebt₁, hlists₁⟩ := listNew_debt hb
  cases hrows.symm.trans hnew₁
  obtain ⟨t₂, hnew₂, hb₂, hdebt₂, hlists₂⟩ := listNew_debt hb₁
  cases hcols.symm.trans hnew₂
  refine ⟨hb₂, Int.le_trans hdebt₂ hdebt₁, fun l hl => ?_, fun _ _ h => h⟩
  rcases hlists₂ l hl with rfl | hl₁
  · exact Or.inl (Or.inr rfl)
  · rcases hlists₁ l hl₁ with rfl | hl₀
    · exact Or.inl (Or.inl rfl)
    · exact Or.inr (Or.inl hl₀)

/-- The table is emptied with the two new lists beside it. -/
theorem reading_start {B : UInt8 → List Bytes} (tab : Tab out s c B) (hb : Bounded s.heap) (ks : List Bytes) :
    ∃ rows cols s₁ s₂ s₃ c', (onHeap listNew).run s = .ok rows s₁ ∧ (onHeap listNew).run s₁ = .ok cols s₂ ∧
      hashTruncate.run s₂ = .ok () s₃ ∧ Reading ks s rows cols [] s₃ c' Table.empty [] ∧
      s.heap.list rows = none ∧ s.heap.list cols = none := by
  have hnone : ∀ {s : Store} {c : Addr → Option Chain} {l : Addr}, Tab out s c B → c l = none →
      ∀ i, s.hash.bucket i ≠ some l := by
    intro s c l tab hl i hi
    obtain ⟨xs, hxs, -⟩ := tab.chain hi
    rw [hl] at hxs
    cases hxs
  obtain ⟨h₁, hrows, hfree₁, r₁⟩ := listNew_rep tab.rep
  have tab₁ := tab.other (hnone tab hfree₁) ⟨h₁, s.hash⟩ rfl (fun _ => rfl) r₁
  obtain ⟨h₂, hcols, hfree₂, r₂⟩ := listNew_rep tab₁.rep
  have tab₂ := tab₁.other (hnone tab₁ hfree₂) ⟨h₂, s.hash⟩ rfl (fun _ => rfl) r₂
  obtain ⟨s₃, c₃, htrunc, tab₃, hcount, L⟩ := hashTruncate_tab tab₂
  -- Neither list is the other one, that of the client or a bucket.
  have hbucket : ∀ i, s.hash.bucket i ≠ some s.heap.fresh := hnone tab hfree₁
  have hbucket₁ : ∀ i, s.hash.bucket i ≠ some h₁.fresh := by
    have hfresh := hnone tab₁ hfree₂
    exact hfresh
  have hout : ∀ {c : Addr → Option Chain} {s : Store} {B : UInt8 → List Bytes} {l : Addr}, Tab out s c B → c l = none →
      l ≠ out := by
    intro c s B l tab hl he
    have hsome := tab.client
    rw [← he, hl] at hsome
    cases hsome
  have hne : s.heap.fresh ≠ h₁.fresh := by
    intro he
    rw [← he, Function.update_self] at hfree₂
    cases hfree₂
  have hrows₂ : Function.update (Function.update c s.heap.fresh (some [])) h₁.fresh (some []) s.heap.fresh =
      some [] := by
    rw [Function.update_of_ne hne, Function.update_self]
  have hcols₂ : Function.update (Function.update c s.heap.fresh (some [])) h₁.fresh (some []) h₁.fresh = some [] :=
    Function.update_self _ _ _
  have hrows₃ : c₃ s.heap.fresh = some [] := by
    rw [L.same _ (hout tab hfree₁) (by rw [hrows₂]; rfl) hbucket, hrows₂]
  have hcols₃ : c₃ h₁.fresh = some [] := by
    rw [L.same _ (hout tab₁ hfree₂) (by rw [hcols₂]; rfl) hbucket₁, hcols₂]
  have happart : ∀ {l : Addr}, (∀ i, s.hash.bucket i ≠ some l) →
      Function.update (Function.update c s.heap.fresh (some [])) h₁.fresh (some []) l = some [] →
      ∀ i, s₃.hash.bucket i ≠ some l := by
    intro l hl hsome i hi
    rcases L.fresh i l hi with hold | hno
    · exact hl i hold
    · rw [hsome] at hno
      cases hno
  have hleft : Left s s.heap.fresh h₁.fresh s₃ := by
    apply Left.grows _ ((hashTruncate_grows tab₂ (left_new hb hrows hcols).bounded).of_ok htrunc)
    exact left_new hb hrows hcols
  have hR : Reading ks s s.heap.fresh h₁.fresh [] s₃ c₃ Table.empty [] :=
    ⟨stores_empty tab₃ hcount, hleft, hrows₃, ⟨[], hcols₃, rfl, fun z hz => by cases hz⟩, happart hbucket hrows₂,
      happart hbucket₁ hcols₂, ⟨hne, hout tab hfree₁, hout tab₁ hfree₂⟩, fun t ht => by cases ht⟩
  have hcolsFree : c h₁.fresh = none := by
    rw [Function.update_of_ne (Ne.symm hne)] at hfree₂
    exact hfree₂
  refine ⟨_, _, _, _, s₃, c₃, run_onHeap_ok hrows, run_onHeap_ok hcols, htrunc, hR, ?_, ?_⟩
  · rw [tab.rep.lists, hfree₁]
    rfl
  · rw [tab.rep.lists, hcolsFree]
    rfl

/-- The rows of the file come onto their list, and the loop goes over them. -/
theorem rows_run (R : Reading ks old rows cols [] s c T []) {buf : Str} {data : Bytes} (hbuf : Holds buf (chomp data))
    (hmax : data.length < stringMax) (hnames : ∀ p ∈ (fileNames data).1, p.1 ∈ ks ∧ p.2 ∉ ks)
    {line uidSym uidNum : Str} (hx : Scratch (0, line, uidSym, uidNum)) :
    ∃ h s' c' T' ys cs, (strSplit rows buf 10).run s.heap = .ok () h ∧
      (uidMapRows rows cols line uidSym uidNum).run { s with heap := h } = ended (fileNames data).2 s' ∧
      Reading ks old rows cols ys s' c' T' cs ∧ T'.lookup = lastNames (fileNames data).1 T.lookup := by
  have hchomp := (chomp_isPrefix data).length_le
  obtain ⟨h, c₁, ys, hsplit, htexts, hsize, R₁⟩ : ∃ h c₁ ys, (strSplit rows buf 10).run s.heap = .ok () h ∧
      texts ys = rowsOf data ∧ (∀ y ∈ ys, y.2.size ≤ stringMax) ∧
      Reading ks old rows cols ys { s with heap := h } c₁ T [] := by
    by_cases hempty : chomp data = []
    · have hlen : buf.len = 0 := by rw [hbuf.len, hempty]; rfl
      refine ⟨s.heap, c, [], ?_, ?_, (fun y hy => by cases hy), R⟩
      · simp only [strSplit, if_pos hlen]
        rfl
      · rw [rowsOf, if_pos hempty]
        rfl
    · obtain ⟨h, ys, hrun, ⟨htexts, hsize⟩, r⟩ := strSplit_tokens R.stores.tab.rep R.rowsChain hbuf hempty (by omega)
        (d := 10)
      refine ⟨h, Function.update c rows (some ys), ys, hrun, ?_, hsize, ?_⟩
      · rw [htexts, rowsOf, if_neg hempty]
      · obtain ⟨zs, hzs, hcols⟩ := R.colsChain
        have hc := (strSplit_costs R.stores.tab.rep R.left.bounded R.rowsChain buf 10).of_ok hrun
        refine ⟨R.stores.other R.rowsApart (fun he => absurd he R.ne.2.1) r, R.left.grows (Grows.of_costs hc),
          Function.update_self _ _ _, ⟨zs, ?_, hcols⟩, R.rowsApart, R.colsApart, R.ne, R.nulFree⟩
        rw [Function.update_of_ne (Ne.symm R.ne.1)]
        exact hzs
  have hrows : ∀ row ∈ texts ys, NulFree row ∧ row.length < stringMax := by
    intro row hrow
    refine ⟨?_, length_lt_of_size R₁.stores.tab.rep R₁.rowsChain hsize hrow⟩
    rw [htexts, rowsOf] at hrow
    split at hrow
    · cases hrow
    · exact nulFree_tokens hrow
  have hcount : ys.length < 2 ^ 32 := by
    have hlen := congrArg List.length htexts
    have hmaxVal : stringMax + 2 < 2 ^ 32 := by decide
    have htokens := length_tokens 10 (chomp data)
    rw [length_texts, rowsOf] at hlen
    split at hlen
    · rw [hlen]
      decide
    · omega
  have hlist : (loadList rows).run h = .ok (header ys) h := by
    rw [loadList, run_bind_get, R₁.stores.tab.rep.list_eq R₁.rowsChain]
    rfl
  have hfuel : (rowsOf data).length < (header ys).count + 1 := by
    rw [← htexts, length_texts]
    exact Nat.lt_succ_self _
  obtain ⟨s', c', T', cs', hloop, R', hlookup⟩ := loop_uidMap hcount hrows (rowsOf data) [] R₁ hx htexts rfl
    hfuel hnames
  refine ⟨h, s', c', T', ys, cs', hsplit, ?_, R', hlookup⟩
  rw [uidMapRows, run_bind_ok (run_onHeap_ok hlist)]
  exact hloop

/-- Both local lists are given back. -/
theorem destroy_run (R : Reading ks old rows cols ys s c T cs) :
    ∃ h₁ h₂ c', (listDestroy rows).run s.heap = .ok () h₁ ∧ (listDestroy cols).run h₁ = .ok () h₂ ∧
      Stores ks { s with heap := h₂ } c' T ∧ Grows old { s with heap := h₂ } := by
  obtain ⟨zs, hzs, -⟩ := R.colsChain
  obtain ⟨h₁, hrows, r₁⟩ := listDestroy_rep R.stores.tab.rep R.rowsChain
  have hcols : Function.update c rows none cols = some zs := by
    rw [Function.update_of_ne (Ne.symm R.ne.1)]
    exact hzs
  obtain ⟨h₂, hcolsRun, r₂⟩ := listDestroy_rep r₁ hcols
  have S₁ := R.stores.other R.rowsApart (fun he => absurd he R.ne.2.1) r₁
  refine ⟨h₁, h₂, _, hrows, hcolsRun, S₁.other R.colsApart (fun he => absurd he R.ne.2.2) r₂, ?_⟩
  obtain ⟨hcost₁, hgone₁⟩ := (listDestroy_costs R.stores.tab.rep R.left.bounded R.rowsChain).of_ok hrows
  obtain ⟨hcost₂, hgone₂⟩ := (listDestroy_costs r₁ hcost₁.bounded hcols).of_ok hcolsRun
  have L := (R.left.grows (Grows.of_costs hcost₁)).grows (Grows.of_costs hcost₂)
  refine ⟨L.bounded, L.debt, fun l hl => ?_, L.buckets⟩
  rcases L.lists l hl with (rfl | rfl) | hother
  · have hstill := hcost₂.lists _ hl
    simp [hgone₁] at hstill
  · simp [hgone₂] at hl
  · exact hother

/-- Two new lists, and nothing else, are in the second store beside the lists of the first one and the buckets. -/
def Abandoned (old new : Store) : Prop :=
  ∃ rows cols : Addr, rows ≠ cols ∧ Left old rows cols new ∧ ∀ l ∈ [rows, cols],
    old.heap.list l = none ∧ (new.heap.list l).isSome ∧ ∀ i, new.hash.bucket i ≠ some l

theorem Reading.abandoned (R : Reading ks old rows cols ys s c T cs) (hrows : old.heap.list rows = none)
    (hcols : old.heap.list cols = none) : Abandoned old s := by
  obtain ⟨zs, hzs, -⟩ := R.colsChain
  have hlisted : ∀ {l : Addr} {xs : Chain}, c l = some xs → (s.heap.list l).isSome := by
    intro l xs hl
    rw [R.stores.tab.rep.list_eq hl]
    rfl
  refine ⟨rows, cols, R.ne.1, R.left, fun l hl => ?_⟩
  rcases List.mem_pair.mp hl with rfl | rfl
  · exact ⟨hrows, hlisted R.rowsChain, R.rowsApart⟩
  · exact ⟨hcols, hlisted hzs, R.colsApart⟩

theorem run_inStore_ok {α : Type} {m : Act Store α} {host : Host} {a : α} {s : Store}
    (h : m.run host.store = .ok a s) : (inStore m).run host = .ok a { host with store := s } := run_zoom_ok h

theorem run_inWorld_ok {α : Type} {m : Act NcPidfile.World α} {host : Host} {a : α} {w : NcPidfile.World}
    (h : m.run host.world = .ok a w) : (inWorld m).run host = .ok a { host with world := w } := run_zoom_ok h

theorem run_inWorld_thrown {α : Type} {m : Act NcPidfile.World α} {host : Host} {w : NcPidfile.World}
    (h : m.run host.world = .thrown w) : (inWorld m).run host = .thrown { host with world := w } := run_zoom_thrown h

theorem run_inStore_ended {m : Act Store Unit} {host : Host} {b : Bool} {s : Store}
    (h : m.run host.store = ended b s) : (inStore m).run host = ended b { host with store := s } := by
  cases b with
  | true => exact run_zoom_ok h
  | false => exact run_zoom_thrown h

/-- A call that is done has grown nothing but the table, and one that has failed has abandoned its lists. -/
def Settled (old new : Store) (done : Bool) : Prop := if done then Grows old new else Abandoned old new

/-- From the empty table and the new strings on, the body stores the names of the file. -/
theorem uidMapBody_run (host : Host) {s' : Store} (htrunc : hashTruncate.run host.store = .ok () s')
    (R : Reading ks old rows cols [] s' c Table.empty []) {e : Str} (he : Holds e []) (hsize : e.size = 16)
    (hlen : ∀ data ∈ host.world.files passwdPath, data.length < stringMax)
    (hnames : ∀ p ∈ (hostNames (host.world.files passwdPath)).1, p.1 ∈ ks ∧ p.2 ∉ ks) :
    ∃ s c' T ys cs, (uidMapBody rows cols e e e e e).run host =
        ended (hostNames (host.world.files passwdPath)).2 ⟨host.world, s⟩ ∧
      Reading ks old rows cols ys s c' T cs ∧
      T.lookup = lastNames (hostNames (host.world.files passwdPath)).1 fun _ => none := by
  have hpath : cString (charArray passwdPath) = some passwdPath := by decide
  obtain ⟨path, hcpy, hholds, -⟩ := (strCpy_holds he hpath).1 (by decide)
  have hname : path.value.bind cString = some passwdPath := by
    rw [hholds.bind_cString, cText_of_nulFree (by decide)]
  rw [uidMapBody, run_bind_ok (run_inStore_ok htrunc), run_bind_ok (run_onLocal_ok hcpy _)]
  dsimp only
  rw [hname, deref_some, run_bind_ret]
  cases hfile : host.world.files passwdPath with
  | none =>
    have hread : (NcPidfile.fileRead e passwdPath).run host.world = .thrown host.world := by
      simp only [NcPidfile.fileRead, run_bind_get, hfile]
      rfl
    exact ⟨s', c, Table.empty, [], [], run_bind_thrown (run_inWorld_thrown hread), R, rfl⟩
  | some data =>
    have hshort := hlen data hfile
    obtain ⟨t, hstrRead, ht⟩ := strRead_holds (he.sound (by rw [hsize]; decide)) hshort
    obtain ⟨u, hchomp, hu, -⟩ := strChomp_holds ht
    have hread : (NcPidfile.fileRead e passwdPath).run (⟨host.world, s'⟩ : Host).world = .ok t host.world := by
      simp only [NcPidfile.fileRead, run_bind_get, hfile]
      rw [if_neg (Nat.not_lt.mpr (Nat.le_of_lt hshort)), run_bind_ok (run_onLocal_ok hstrRead host.world)]
      rfl
    rw [hfile] at hnames
    obtain ⟨h, s, c', T, ys, cs, hsplit, hloop, R', hlookup⟩ := rows_run R hu hshort hnames
      (show Scratch (0, e, e, e) from ⟨he.wf, he.wf, he.wf⟩)
    refine ⟨s, c', T, ys, cs, ?_, R', hlookup⟩
    rw [run_bind_ok (run_inWorld_ok hread), run_bind_ok (run_onLocal_ok hchomp _)]
    dsimp only
    rw [run_bind_ok (run_inStore_ok (run_onHeap_ok hsplit))]
    exact run_inStore_ended hloop

/-- `passwd_get_uid_map` leaves the last name of every number in the table, as far as it has read. -/
theorem passwdGetUidMap_run {host : Host} {B : UInt8 → List Bytes} (tab : Tab out host.store c B)
    (hb : Bounded host.store.heap) (hlen : ∀ data ∈ host.world.files passwdPath, data.length < stringMax)
    (hnames : ∀ p ∈ (hostNames (host.world.files passwdPath)).1, p.1 ∈ ks ∧ p.2 ∉ ks) :
    ∃ store c' T, passwdGetUidMap.run host = ended (hostNames (host.world.files passwdPath)).2 ⟨host.world, store⟩ ∧
      Settled host.store store (hostNames (host.world.files passwdPath)).2 ∧ Stores ks store c' T ∧
      T.lookup = lastNames (hostNames (host.world.files passwdPath)).1 fun _ => none := by
  obtain ⟨rows, cols, s₁, s₂, s₃, c₃, hrows, hcols, htrunc, R, hrowsFree, hcolsFree⟩ := reading_start tab hb ks
  obtain ⟨e, hnew, he, hsize⟩ := strNew_holds host
  obtain ⟨s, c', T, ys, cs, hbody, R', hlookup⟩ :=
    uidMapBody_run ⟨host.world, s₂⟩ htrunc R he hsize hlen hnames
  have hstart : passwdGetUidMap.run host = (do
      uidMapBody rows cols e e e e e
      inStore (onHeap (listDestroy rows))
      inStore (onHeap (listDestroy cols)) : Act Host Unit).run ⟨host.world, s₂⟩ := by
    rw [passwdGetUidMap, run_bind_ok hnew, run_bind_ok hnew, run_bind_ok hnew, run_bind_ok hnew, run_bind_ok hnew,
      run_bind_ok (run_inStore_ok hrows), run_bind_ok (run_inStore_ok hcols)]
  rw [hstart]
  cases hdone : (hostNames (host.world.files passwdPath)).2 with
  | false =>
    rw [hdone] at hbody
    exact ⟨s, c', T, run_bind_thrown hbody, R'.abandoned hrowsFree hcolsFree, R'.stores, hlookup⟩
  | true =>
    rw [hdone] at hbody
    obtain ⟨h₁, h₂, c'', hdestroyRows, hdestroyCols, S, hgrows⟩ := destroy_run R'
    refine ⟨{ s with heap := h₂ }, c'', T, ?_, hgrows, S, hlookup⟩
    rw [run_bind_ok hbody, run_bind_ok (run_inStore_ok (run_onHeap_ok hdestroyRows))]
    exact run_inStore_ok (run_onHeap_ok hdestroyCols)

theorem nulFree_lookup (S : Stores ks s c T) {k v : Bytes} (h : T.lookup k = some v) : NulFree v := by
  obtain ⟨p, hp, rfl⟩ := Option.map_eq_some_iff.mp h
  exact (S.value (List.mem_of_find?_eq_some hp)).1

theorem nulFree_uidText (uid : UInt32) : NulFree (uidText uid) := fun h =>
  absurd (isDigit_printUnsigned 0 h) (by decide)

theorem length_uidText (uid : UInt32) : (uidText uid).length < stringMax :=
  Nat.lt_of_le_of_lt (length_printUnsigned (k := 10) (by decide) (Nat.lt_trans uid.toNat_lt (by decide))) (by decide)

/-- `passwd_get_symbolic_uid` gives what the table has under the number, or fails. -/
theorem symbolicUid_run (S : Stores ks s c T) (uid : UInt32) (hk : uidText uid ∈ ks) (dest : WfStr) :
    shown ((passwdGetSymbolicUid dest.1 uid).run s) = found (T.lookup (uidText uid)) s := by
  obtain ⟨e, hnew, he, -⟩ := strNew_holds s
  obtain ⟨t, hprint, ht, -⟩ := strSprintf_holds (s := e) (Nat.le_of_lt (length_uidText uid))
  obtain ⟨rest, hval, -⟩ := ht.value
  have hkey : cString (uidText uid ++ 0 :: rest) = some (uidText uid) := by
    rw [cString_cText, cText_of_nulFree (nulFree_uidText uid)]
  have hstart : (passwdGetSymbolicUid dest.1 uid).run s = (do
      let result ← hashGet e (uidText uid ++ 0 :: rest)
      let (_, dest) ← onLocal (strCopy true result) dest.1
      pure dest : Act Store Str).run s := by
    rw [passwdGetSymbolicUid, run_bind_ok hnew, run_bind_ok hnew, run_bind_ok (run_onLocal_ok hprint s)]
    dsimp only
    rw [hval, deref_some, run_bind_ret]
  rw [hstart]
  rcases stores_get S hkey hk he with ⟨hnone, hrun⟩ | ⟨v, d, hsome, hrun, hd⟩
  · rw [run_bind_thrown hrun, hnone]
    rfl
  · obtain ⟨u, hcopy, hu, -⟩ := strCopy_holds dest.2 hd
    rw [run_bind_ok hrun, run_bind_ok (run_onLocal_ok hcopy s), hsome]
    change Outcome.ok (cText u.text) s = .ok v s
    rw [hu.text, cText_of_nulFree (nulFree_lookup S hsome)]

/-- More keys may be asked for, as long as no value is one of them. -/
theorem stores_more (S : Stores ks s c T) {js : List Bytes} (h : ∀ k v, T.lookup k = some v → v ∉ js) :
    Stores js s c T := by
  refine ⟨S.tab, S.count, S.key, ?_⟩
  intro i p hp
  exact ⟨(S.value hp).1, h p.1 p.2 (T.find_pair hp)⟩

/-- `passwd_get_uid_map` reads `/etc/passwd` up to the first row without a third column, which makes it fail
with its two lists, and nothing else, left behind. `passwd_get_symbolic_uid` then gives the name of the last
row with a number that has been read, and fails for any other one. The table compares keys and values alike,
so no name may read like a number that is in the file or asked for. -/
theorem uid_map_answers (host : Host) {c : Addr → Option Chain} {B : UInt8 → List Bytes}
    (tab : Tab out host.store c B) (hb : Bounded host.store.heap)
    (hlen : ∀ data ∈ host.world.files passwdPath, data.length < stringMax)
    (hapart : ∀ p ∈ (hostNames (host.world.files passwdPath)).1, ∀ q ∈ (hostNames (host.world.files passwdPath)).1,
      p.2 ≠ q.1) :
    ∃ store, passwdGetUidMap.run host = ended (hostNames (host.world.files passwdPath)).2 ⟨host.world, store⟩ ∧
      Settled host.store store (hostNames (host.world.files passwdPath)).2 ∧
      ∀ uid, (∀ p ∈ (hostNames (host.world.files passwdPath)).1, p.2 ≠ uidText uid) → ∀ dest : WfStr,
        shown ((passwdGetSymbolicUid dest.1 uid).run store) =
          found (lastNames (hostNames (host.world.files passwdPath)).1 (fun _ => none) (uidText uid)) store := by
  have hnames : ∀ p ∈ (hostNames (host.world.files passwdPath)).1,
      p.1 ∈ (hostNames (host.world.files passwdPath)).1.map Prod.fst ∧
        p.2 ∉ (hostNames (host.world.files passwdPath)).1.map Prod.fst := by
    intro p hp
    refine ⟨List.mem_map_of_mem hp, fun hmem => ?_⟩
    obtain ⟨q, hq, he⟩ := List.mem_map.mp hmem
    exact hapart p hp q hq he.symm
  obtain ⟨store, c', T, hrun, hsettled, S, hlookup⟩ := passwdGetUidMap_run tab hb hlen hnames
  refine ⟨store, hrun, hsettled, fun uid huid dest => ?_⟩
  have hmore : Stores [uidText uid] store c' T := by
    apply stores_more S
    intro k v hkv hmem
    rw [hlookup] at hkv
    rcases lastNames_cases hkv with hin | hnone
    · exact huid (k, v) hin (List.mem_singleton.mp hmem)
    · cases hnone
  rw [symbolicUid_run hmore uid (List.mem_singleton_self _) dest, hlookup]

/-- `root:x:0`, `#nc:x:8` and `nc:x:7`. -/
def users : Bytes :=
  rootName ++ [58, 120, 58, 48, 10] ++ [35, 110, 99, 58, 120, 58, 56, 10] ++ [110, 99, 58, 120, 58, 55, 10]

/-- A host with this file and a new table. -/
def usersHost : Host := ⟨⟨∅, fun path => if path = passwdPath then some users else none⟩, start⟩

theorem uid_map_answers_users : ∃ store, passwdGetUidMap.run usersHost = .ok () ⟨usersHost.world, store⟩ ∧
    Grows start store ∧ ∀ dest : WfStr, shown ((passwdGetSymbolicUid dest.1 7).run store) = .ok [110, 99] store ∧
      shown ((passwdGetSymbolicUid dest.1 8).run store) = .thrown store := by
  have hfile : usersHost.world.files passwdPath = some users := by simp [usersHost]
  have hnames : hostNames (usersHost.world.files passwdPath) =
      ([([48], rootName), ([55], [110, 99])], true) := by
    rw [hfile]
    decide +kernel
  have hanswers := uid_map_answers usersHost tab_start
    (tidyTables_start : TidyTables (startTables : Tables Unit)).bounded
    (by
      intro data hdata
      rw [hfile] at hdata
      cases hdata
      decide +kernel)
    (by
      rw [hnames]
      decide +kernel)
  rw [hnames] at hanswers
  obtain ⟨store, hrun, hgrows, hfound⟩ := hanswers
  refine ⟨store, hrun, hgrows, fun dest => ⟨?_, ?_⟩⟩
  · exact (hfound 7 (by decide +kernel) dest).trans (by rfl)
  · exact (hfound 8 (by decide +kernel) dest).trans (by rfl)

end NcPasswd
