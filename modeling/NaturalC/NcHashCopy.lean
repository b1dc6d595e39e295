import NaturalC.NcHashMap

/-!
# Copying a hash table

Several tables share one heap. Calls on one of them never touch the buckets of another.
`hash_copy` clears the bucket pointers of the destination and then copies each bucket of the
source into the bucket it has just cleared, so it works for a source without buckets only.
-/
namespace NcHash

open Throwing Throwing.Act NcString NcList Linked

/-- The tables with the names `ι`, and the heap with their lists. -/
structure Tables (ι : Type) where
  heap : Heap
  table : ι → HashT

variable {ι : Type} [DecidableEq ι]

/-- A call on one table. -/
def onTable {α : Type} (i : ι) (m : Act Store α) : Act (Tables ι) α :=
  zoom (fun t : Tables ι => ⟨t.heap, t.table i⟩) (fun s t => ⟨s.heap, Function.update t.table i s.hash⟩) m

/-- The loop of `hash_copy`. `list_copy` needs a list to copy to. -/
def copyBuckets (dest src : HashT) : List UInt8 → Act Heap Unit
  | [] => pure ()
  | i :: is => do
    match src.bucket i with
    | some l => do
      let d ← deref (dest.bucket i)
      listCopy d l
    | none => pure ()
    copyBuckets dest src is

/-- The tables after the `memset` of the bucket pointers of one. -/
def cleared (t : Tables ι) (dest : ι) : Tables ι :=
  { t with table := Function.update t.table dest { t.table dest with bucket := fun _ => none } }

def hashCopy (dest src : ι) : Act (Tables ι) Unit := do
  let t ← get
  put (cleared t dest)
  let t ← get
  zoom Tables.heap (fun h t => { t with heap := h }) (copyBuckets (t.table dest) (t.table src) slots)
  let t ← get
  put { t with table := Function.update t.table dest { t.table dest with count := (t.table src).count } }

/-- After `list_new` and a `hash_new` for each table. -/
def startTables : Tables ι := ⟨start.heap, fun _ => hashNew⟩

/-- A client calls the functions on the tables in any order. -/
def execTables (calls : List (ι × Op)) : Act (Tables ι) (List (Option Reply)) :=
  attemptAll (fun x : ι × Op => onTable x.1 (exec x.2)) calls

/-- Each table holds its pairs, and no two tables share a bucket. -/
structure Apart (t : Tables ι) (c : Addr → Option Chain) (P : ι → UInt8 → List (Bytes × Bytes)) : Prop where
  tab : ∀ i, PairTab ⟨t.heap, t.table i⟩ c (P i)
  apart : ∀ {i j a b l}, i ≠ j → (t.table i).bucket a = some l → (t.table j).bucket b ≠ some l

/-- The tables hold some pairs each, apart from each other. -/
def SomeApart (t : Tables ι) : Prop := ∃ c P, Apart t c P

/-- A call on any of the tables leaves the pairs of the others as they are. -/
def Independent (t : Tables ι) : Prop :=
  ∃ c P, Apart t c P ∧ ∀ i op, ((onTable i (exec op)).run t).Leaves fun t' =>
    ∃ c' ps, Apart t' c' (Function.update P i ps)

/-- The destination has the pairs of the source in its buckets, in the same order, nothing else has
changed, and from then on the tables do not depend on each other. -/
structure Copied (t t' : Tables ι) (P : ι → UInt8 → List (Bytes × Bytes)) (dest src : ι) : Prop where
  pairs : ∃ c', Apart t' c' (Function.update P dest (P src))
  count : (t'.table dest).count = (t.table src).count
  source : t'.table src = t.table src
  independent : ∀ calls rs u, (execTables calls).run t' = .ok rs u → Independent u

/-! ## Calls on one table -/

variable {s : Store} {c : Addr → Option Chain} {P : UInt8 → List (Bytes × Bytes)}

/-- `hash_get` writes nothing. -/
theorem hashGet_leaves (T : PairTab s c P) (k : CText) {dest : Str} {old : Bytes} (hd : Holds dest old) :
    ((hashGet dest (charArray k.1)).run s).Leaves (· = s) := by
  have hc := cString_charArray k.1 k.2
  rcases search_cases k.1 (P (xorBytes k.1)) with
    hclear | ⟨qs, t, v, rs, hP, hqs, ht⟩ | ⟨qs, a, t, rs, hP, hqs, ha, ht⟩
  · rw [hashGet_absent T hc hclear]
    exact rfl
  · have hB : flat (P (xorBytes k.1)) = flat qs ++ t :: v :: flat rs := by simp [hP]
    obtain ⟨d, hrun, -⟩ := hashGet_found T hc hB hqs ht hd
    rw [hrun]
    exact rfl
  · obtain ⟨hcut, hbefore⟩ := flat_value_cut t rs hqs ha
    have hfound := hashGet_found T hc ((congrArg flat hP).trans hcut) hbefore ht hd
    cases rs with
    | nil =>
      dsimp only [flat] at hfound
      rw [hfound]
      trivial
    | cons r rs =>
      obtain ⟨d, hrun, -⟩ := hfound
      rw [hrun]
      exact rfl

theorem hashKeyExists_leaves (T : PairTab s c P) (k : CText) :
    ((hashKeyExists (charArray k.1)).run s).Leaves (· = s) := by
  obtain ⟨dest, hnew, hd, -⟩ := strNew_holds s
  have hget := hashGet_leaves T k hd
  rw [hashKeyExists, run_bind_ok hnew]
  cases hrun : (hashGet dest (charArray k.1)).run s with
  | ok d t =>
    rw [hrun] at hget
    rw [run_bind_ok (run_attempt_ok hrun)]
    exact hget
  | thrown t =>
    rw [hrun] at hget
    rw [run_bind_ok (run_attempt_thrown hrun)]
    exact hget
  | halt e =>
    rw [run_bind_halt (run_attempt_halt hrun)]
    trivial

/-- Nothing has changed. -/
theorem Follows.rfl (T : PairTab s c P) : Follows s c s := ⟨c, P, T, Local.rfl⟩

/-- Only a list of the client, or one of the call itself, has changed. -/
theorem Follows.other (T : PairTab s c P) {h' : Heap} {l : Addr} {o : Option Chain}
    (hl : l = out ∧ o.isSome ∨ c l = none) (r : Rep h' (Function.update c l o)) : Follows s c ⟨h', s.hash⟩ := by
  have hno : ∀ i, s.hash.bucket i ≠ some l := by
    rcases hl with ⟨rfl, -⟩ | hnone
    · exact T.apart
    · exact (fresh_apart T hnone).1
  have ho : l = out → o.isSome := by
    intro he
    rcases hl with ⟨-, hsome⟩ | hnone
    · exact hsome
    · exact absurd he (fresh_apart T hnone).2
  exact ⟨_, P, T.other hno ⟨h', s.hash⟩ (by rfl) ho r, Local.other (hl.imp_left And.left) _ (by rfl) _⟩

/-- Every call on a table is a matter of that table. -/
theorem exec_follows (T : PairTab s c P) (op : Op) : ((exec op).run s).Leaves (Follows s c) := by
  cases op with
  | set key value => exact leaves_bind_pure _ (hashSet_follows T key value)
  | delete key => exact leaves_bind_pure _ (hashDelete_follows T key)
  | get dest key =>
    refine leaves_bind (hashGet_leaves T key dest.2) ?_ ?_
    · rintro _ rfl
      exact Follows.rfl T
    · rintro d _ - rfl
      exact Follows.rfl T
  | truncate =>
    obtain ⟨s', c', hrun, T', -, hloc⟩ := hashTruncate_tab T
    rw [exec, run_bind_ok hrun]
    exact ⟨c', fun _ => [], T', hloc⟩
  | keyExists key =>
    refine leaves_bind (hashKeyExists_leaves T key) ?_ ?_
    · rintro _ rfl
      exact Follows.rfl T
    · rintro b _ - rfl
      exact Follows.rfl T
  | valueExists value =>
    obtain ⟨h', hrun, hnone, r⟩ := valueExists_run T value
    rw [exec, run_bind_ok hrun]
    exact Follows.other T (Or.inr hnone) r
  | getKeys =>
    obtain ⟨h', ys, hrun, r⟩ := listing_run T picks_entryValue
    rw [exec, hashGetKeys, hrun]
    exact Follows.other T (Or.inl ⟨rfl, rfl⟩) r
  | getValues =>
    obtain ⟨h', ys, hrun, r⟩ := listing_run T picks_nextValue
    rw [exec, hashGetValues, hrun]
    exact Follows.other T (Or.inl ⟨rfl, rfl⟩) r

/-! ## Runs on several tables -/

variable {t : Tables ι} {Q : ι → UInt8 → List (Bytes × Bytes)}

omit [DecidableEq ι] in
/-- A bucket of one table is a list that a call on another table leaves alone. -/
theorem Apart.same (A : Apart t c Q) {i j : ι} {s' : Store} {c' : Addr → Option Chain}
    (L : Local out ⟨t.heap, t.table i⟩ s' c c') (hij : i ≠ j) {b : UInt8} {l : Addr}
    (hl : (t.table j).bucket b = some l) : c' l = c l := by
  apply L.same
  · rintro rfl
    exact (A.tab j).apart b hl
  · obtain ⟨xs, hxs, -⟩ := (A.tab j).chain hl
    rw [hxs]
    rfl
  · intro a ha
    exact A.apart hij ha hl

omit [DecidableEq ι] in
/-- The buckets that a table has after a call are its old ones and new ones. -/
theorem Apart.differ (A : Apart t c Q) {i j : ι} {s' : Store} {c' : Addr → Option Chain}
    (L : Local out ⟨t.heap, t.table i⟩ s' c c') (hij : i ≠ j) {a b : UInt8} {l : Addr}
    (ha : s'.hash.bucket a = some l) : (t.table j).bucket b ≠ some l := by
  intro hb
  rcases L.fresh a l ha with hold | hnone
  · exact A.apart hij hold hb
  · obtain ⟨xs, hxs, -⟩ := (A.tab j).chain hb
    rw [hnone] at hxs
    cases hxs

theorem Apart.step (A : Apart t c Q) (i : ι) {s' : Store} (h : Follows ⟨t.heap, t.table i⟩ c s') :
    ∃ c' ps, Apart ⟨s'.heap, Function.update t.table i s'.hash⟩ c' (Function.update Q i ps) := by
  obtain ⟨c', ps, T', L⟩ := h
  refine ⟨c', ps, ?_, ?_⟩
  · intro j
    by_cases hj : j = i
    · subst hj
      simpa only [Function.update_self] using T'
    · simp only [Function.update_of_ne hj]
      have T := A.tab j
      refine ⟨T'.rep, ?_, T.missing, T.inj, T'.client, T.apart⟩
      intro b l hl
      rw [A.same L (Ne.symm hj) hl]
      exact T.bucket hl
  · intro j k a b l hjk ha hb
    dsimp only at ha hb
    by_cases hj : j = i
    · subst hj
      rw [Function.update_self] at ha
      rw [Function.update_of_ne hjk.symm] at hb
      exact A.differ L hjk ha hb
    · rw [Function.update_of_ne hj] at ha
      by_cases hk : k = i
      · subst hk
        rw [Function.update_self] at hb
        exact A.differ L hjk.symm hb ha
      · rw [Function.update_of_ne hk] at hb
        exact A.apart hjk ha hb

theorem Apart.onTable (A : Apart t c Q) (i : ι) (op : Op) :
    ((onTable i (exec op)).run t).Leaves fun t' => ∃ c' ps, Apart t' c' (Function.update Q i ps) :=
  leaves_zoom (exec_follows (A.tab i) op) fun _ => A.step i

omit [DecidableEq ι] in
theorem apart_start : Apart (startTables : Tables ι) (Function.update (fun _ => none) out (some [])) (fun _ _ => []) := by
  refine ⟨fun _ => tab_start, ?_⟩
  intro i j a b l _ ha
  cases ha

/-- Whatever is called on which of the tables, they stay apart. -/
theorem execTables_apart {t' : Tables ι} {calls : List (ι × Op)} {rs : List (Option Reply)}
    (hrun : (execTables calls).run t = .ok rs t') (A : SomeApart t) : SomeApart t' := by
  refine attemptAll_invariant ?_ A hrun
  rintro ⟨i, op⟩ - t ⟨c, Q, A⟩
  apply (A.onTable i op).imp
  rintro t' ⟨c', ps, A'⟩
  exact ⟨c', _, A'⟩

theorem Apart.independent (A : Apart t c Q) {u : Tables ι} {calls : List (ι × Op)} {rs : List (Option Reply)}
    (hrun : (execTables calls).run t = .ok rs u) : Independent u := by
  obtain ⟨c', Q', A'⟩ := execTables_apart hrun ⟨c, Q, A⟩
  exact ⟨c', Q', A', A'.onTable⟩

/-! ## The copy -/

theorem copyBuckets_none {dest src : HashT} (hsrc : ∀ i, src.bucket i = none) (is : List UInt8) (h : Heap) :
    (copyBuckets dest src is).run h = .ok () h := by
  induction is with
  | nil => rfl
  | cons i is ih =>
    simp only [copyBuckets, hsrc i]
    exact ih

/-- The first bucket of the source is copied to a null pointer. -/
theorem copyBuckets_fault {dest src : HashT} (hdest : ∀ i, dest.bucket i = none) {is : List UInt8} {i : UInt8}
    (hi : i ∈ is) (hsrc : src.bucket i ≠ none) (h : Heap) : (copyBuckets dest src is).run h = .halt .fault := by
  induction is with
  | nil => cases hi
  | cons j is ih =>
    cases hj : src.bucket j with
    | some l =>
      simp only [copyBuckets, hj, hdest j]
      rfl
    | none =>
      have hmem : i ∈ is := by
        rcases List.mem_cons.mp hi with rfl | hmem
        · exact absurd hj hsrc
        · exact hmem
      simp only [copyBuckets, hj]
      exact ih hmem

theorem run_hashCopy_ok {dest src : ι}
    (hcopy : (copyBuckets ((cleared t dest).table dest) ((cleared t dest).table src) slots).run (cleared t dest).heap =
      .ok () t.heap) :
    (hashCopy dest src).run t = .ok () ⟨t.heap, Function.update t.table dest ⟨fun _ => none, (t.table src).count⟩⟩ := by
  have hcount : ((cleared t dest).table src).count = (t.table src).count := by
    by_cases hsrc : src = dest
    · subst hsrc
      simp [cleared]
    · simp [cleared, hsrc]
  simp only [hashCopy, run_bind_get, run_bind_put]
  rw [run_bind_ok (run_zoom_ok hcopy)]
  simp only [run_bind_get, run_put, hcount]
  simp [cleared]

theorem run_hashCopy_none {dest src : ι} (hsrc : ∀ i, (t.table src).bucket i = none) :
    (hashCopy dest src).run t = .ok () ⟨t.heap, Function.update t.table dest ⟨fun _ => none, (t.table src).count⟩⟩ := by
  apply run_hashCopy_ok
  apply copyBuckets_none
  intro i
  by_cases he : src = dest
  · subst he
    simp [cleared]
  · simp [cleared, he, hsrc i]

/-- A table copied to itself is emptied. -/
theorem run_hashCopy_self (src : ι) :
    (hashCopy src src).run t = .ok () ⟨t.heap, Function.update t.table src ⟨fun _ => none, (t.table src).count⟩⟩ := by
  apply run_hashCopy_ok
  apply copyBuckets_none
  intro i
  simp [cleared]

theorem run_hashCopy_fault {dest src : ι} (hne : dest ≠ src) {i : UInt8} (hi : (t.table src).bucket i ≠ none) :
    (hashCopy dest src).run t = .halt .fault := by
  have hcopy : (copyBuckets ((cleared t dest).table dest) ((cleared t dest).table src) slots).run t.heap =
      .halt .fault := by
    refine copyBuckets_fault ?_ (mem_slots i) ?_ t.heap
    · intro j
      simp [cleared]
    · simpa [cleared, hne.symm] using hi
  simp only [hashCopy, run_bind_get, run_bind_put]
  apply run_bind_halt
  rw [run_zoom]
  dsimp only [cleared] at hcopy ⊢
  rw [hcopy]

/-- A table without buckets is copied by giving up the buckets of the destination. -/
theorem copied_of_none (A : Apart t c Q) {dest src : ι} (hsrc : ∀ i, (t.table src).bucket i = none) :
    Copied t ⟨t.heap, Function.update t.table dest ⟨fun _ => none, (t.table src).count⟩⟩ Q dest src := by
  have hempty : Q src = fun _ => [] := by
    funext i
    have hflat := (A.tab src).missing (hsrc i)
    cases hQ : Q src i with
    | nil => rfl
    | cons p ps =>
      simp only [hQ] at hflat
      cases hflat
  have A' : Apart ⟨t.heap, Function.update t.table dest ⟨fun _ => none, (t.table src).count⟩⟩ c
      (Function.update Q dest (Q src)) := by
    constructor
    · intro j
      have T := A.tab j
      by_cases hj : j = dest
      · subst hj
        simp only [Function.update_self, hempty]
        refine ⟨T.rep, ?_, fun _ => rfl, ?_, T.client, ?_⟩
        · intro i l hl
          cases hl
        · intro i k l hl
          cases hl
        · intro i hi
          cases hi
      · simpa only [Function.update_of_ne hj] using T
    · intro j k a b l hjk ha hb
      dsimp only at ha hb
      by_cases hj : j = dest
      · subst hj
        rw [Function.update_self] at ha
        cases ha
      · rw [Function.update_of_ne hj] at ha
        by_cases hk : k = dest
        · subst hk
          rw [Function.update_self] at hb
          cases hb
        · rw [Function.update_of_ne hk] at hb
          exact A.apart hjk ha hb
  refine ⟨⟨c, A'⟩, ?_, ?_, ?_⟩
  · simp
  · by_cases he : src = dest
    · subst he
      have hbuckets : (t.table src).bucket = fun _ => none := funext hsrc
      simp only [Function.update_self, ← hbuckets]
    · exact Function.update_of_ne he _ _
  · intro calls rs u hrun
    exact A'.independent hrun

/-- After any calls on the tables, `hash_copy` works if and only if the source never got a bucket. -/
theorem hash_copy_copies_iff {calls : List (ι × Op)} {rs : List (Option Reply)} {t : Tables ι}
    (hrun : (execTables calls).run startTables = .ok rs t) (dest src : ι) :
    ∃ c P, Apart t c P ∧
      ((∃ t', (hashCopy dest src).run t = .ok () t' ∧ Copied t t' P dest src) ↔
        ∀ i, (t.table src).bucket i = none) := by
  obtain ⟨c, P, A⟩ := execTables_apart hrun ⟨_, _, apart_start⟩
  refine ⟨c, P, A, ?_, ?_⟩
  · rintro ⟨t', hcopy, C⟩ i
    by_cases hne : dest = src
    · subst hne
      rw [run_hashCopy_self] at hcopy
      cases hcopy
      rw [← C.source]
      simp
    · by_contra hi
      rw [run_hashCopy_fault hne hi] at hcopy
      cases hcopy
  · intro hsrc
    exact ⟨_, run_hashCopy_none hsrc, copied_of_none A hsrc⟩

/-- A table on which nothing is called stays as it is. -/
theorem execTables_other {calls : List (ι × Op)} {rs : List (Option Reply)} {t' : Tables ι} {j : ι}
    (hcalls : ∀ x ∈ calls, x.1 ≠ j) (hrun : (execTables calls).run t = .ok rs t') : t'.table j = t.table j := by
  have hstep : ∀ x ∈ calls, ∀ u : Tables ι, u.table j = t.table j →
      ((onTable x.1 (exec x.2)).run u).Leaves fun v => v.table j = t.table j := by
    rintro ⟨i, op⟩ hmem u hu
    have hij : j ≠ i := (hcalls _ hmem).symm
    rw [onTable, run_zoom]
    cases (exec op).run ⟨u.heap, u.table i⟩ with
    | ok a s => exact (Function.update_of_ne hij _ _).trans hu
    | thrown s => exact (Function.update_of_ne hij _ _).trans hu
    | halt e => trivial
  exact attemptAll_invariant hstep rfl hrun

theorem hash_copy_copies_iff_new :
    ∃ (rs : List (Option Reply)) (t t' : Tables Bool),
      (execTables [(true, .set ab (ofText [120]))]).run startTables = .ok rs t ∧
      (hashCopy true false).run t = .ok () t' ∧ ∃ P, Copied t t' P true false := by
  have hvalue : ((execTables [(true, .set ab (ofText [120]))]).run startTables).value = some [some .done] := by
    decide +kernel
  obtain ⟨t, hrun⟩ := Outcome.exists_of_value hvalue
  have hsrc : t.table false = hashNew := execTables_other (by simp) hrun
  obtain ⟨c, P, -, hiff⟩ := hash_copy_copies_iff hrun true false
  obtain ⟨t', hcopy, C⟩ := hiff.mpr (by simp [hsrc, hashNew])
  exact ⟨_, t, t', hrun, hcopy, P, C⟩

/-- Copying a table with one pair to a new one. -/
theorem hash_copy_faults :
    ¬ ∀ (calls : List (Bool × Op)) (rs : List (Option Reply)) (t : Tables Bool),
      (execTables calls).run startTables = .ok rs t → ∀ dest src,
        ∃ c P, Apart t c P ∧ ∃ t', (hashCopy dest src).run t = .ok () t' ∧ Copied t t' P dest src := by
  intro h
  have hvalue : ((execTables [(false, .set ab (ofText [120]))]).run startTables).value = some [some .done] := by
    decide +kernel
  have hstop : ((execTables [(false, .set ab (ofText [120]))] >>= fun _ => hashCopy true false).run
      startTables).stopped = some .fault := by
    decide +kernel
  obtain ⟨t, hrun⟩ := Outcome.exists_of_value hvalue
  obtain ⟨c, P, -, t', hcopy, -⟩ := h _ _ t hrun true false
  rw [run_bind_ok hrun, hcopy] at hstop
  cases hstop

end NcHash
