import NaturalC.NcHashSpec

/-!
# Runs on a hash table

A client makes a table and a list with which it asks for the keys and values, and
then calls the functions of `hash.c` in any order. Whatever it stores, the buckets
stay sequences of pairs. The search compares keys and values alike, so a lookup is
right for exactly those keys that no value in front of them is equal to.
-/
namespace NcHash

open Throwing Throwing.Act NcString NcList Linked

inductive Op where
  | set (key : CText) (value : WfStr)
  | get (dest : WfStr) (key : CText)
  | delete (key : CText)
  | truncate
  | keyExists (key : CText)
  | valueExists (value : CText)
  | getKeys
  | getValues

inductive Reply where
  | done
  | text (t : Bytes)
  | flag (b : Bool)
  | texts (ts : List Bytes)
  deriving DecidableEq, Repr

/-- A client reads a list by following the forward links. -/
def readStep : Option Addr × List Bytes → Act Heap ((Option Addr × List Bytes) ⊕ List Bytes)
  | (none, ts) => pure (.inr ts)
  | (some cur, ts) => do
    let c ← loadEntry cur
    pure (.inl (c.next, ts ++ [c.value.text]))

def readList (list : Addr) : Act Heap (List Bytes) := do
  let l ← loadList list
  let h ← get
  loop readStep (h.fresh + 1) (l.head, [])

/-- The address of the client's list. -/
def out : Addr := 0

/-- The store after `list_new` and `hash_new`. -/
def start : Store :=
  ⟨⟨fun _ => none, Function.update (fun _ => none) out (some ⟨0, none, none⟩), 1⟩, hashNew⟩

def exec : Op → Act Store Reply
  | .set key value => do
    hashSet (charArray key.1) value.1
    pure .done
  | .get dest key => do
    let d ← hashGet dest.1 (charArray key.1)
    pure (.text d.text)
  | .delete key => do
    hashDelete (charArray key.1)
    pure .done
  | .truncate => do
    hashTruncate
    pure .done
  | .keyExists key => do
    let b ← hashKeyExists (charArray key.1)
    pure (.flag b)
  | .valueExists value => do
    let b ← hashValueExists (charArray value.1)
    pure (.flag b)
  | .getKeys => do
    hashGetKeys out
    let ts ← onHeap (readList out)
    pure (.texts ts)
  | .getValues => do
    hashGetValues out
    let ts ← onHeap (readList out)
    pure (.texts ts)

def execAll (ops : List Op) : Act Store (List (Option Reply)) := attemptAll exec ops

theorem tab_start : Tab out start (Function.update (fun _ => none) out (some [])) (fun _ => []) := by
  obtain ⟨h', hnew, -, r⟩ := listNew_rep rep_empty
  cases hnew
  exact ⟨r, by simp [start, hashNew], fun _ => rfl, by simp [start, hashNew], by simp,
    by simp [start, hashNew]⟩

variable {s : Store} {c : Addr → Option Chain} {P : UInt8 → List (Bytes × Bytes)}

/-- The table holds the given pairs in the given order. -/
def PairTab (s : Store) (c : Addr → Option Chain) (P : UInt8 → List (Bytes × Bytes)) : Prop :=
  Tab out s c (fun i => flat (P i))

/-- The table holds some pairs. -/
def HoldsPairs (s : Store) : Prop := ∃ c P, PairTab s c P

theorem flat_update (P : UInt8 → List (Bytes × Bytes)) (i : UInt8) (ps : List (Bytes × Bytes)) :
    (fun j => flat (Function.update P i ps j)) = Function.update (fun j => flat (P j)) i (flat ps) := by
  funext j
  by_cases hj : j = i
  · subst hj
    simp
  · simp [hj]

/-- Neither a key nor a value of these pairs compares equal to `k`. -/
def Clear (k : Bytes) (ps : List (Bytes × Bytes)) : Prop := ∀ t ∈ flat ps, cText t ≠ k

@[simp] theorem clear_nil (k : Bytes) : Clear k [] := by simp [Clear]

@[simp] theorem clear_cons {k : Bytes} {p : Bytes × Bytes} {ps : List (Bytes × Bytes)} :
    Clear k (p :: ps) ↔ (cText p.1 ≠ k ∧ cText p.2 ≠ k) ∧ Clear k ps := by
  simp [Clear, and_assoc]

/-- Where the search for `k` ends: nowhere, at a key, or at a value. -/
theorem search_cases (k : Bytes) (ps : List (Bytes × Bytes)) :
    Clear k ps ∨
    (∃ qs t v rs, ps = qs ++ (t, v) :: rs ∧ Clear k qs ∧ cText t = k) ∨
    (∃ qs a t rs, ps = qs ++ (a, t) :: rs ∧ Clear k qs ∧ cText a ≠ k ∧ cText t = k) := by
  induction ps with
  | nil => exact Or.inl (clear_nil k)
  | cons p ps ih =>
    obtain ⟨a, b⟩ := p
    by_cases ha : cText a = k
    · exact Or.inr (Or.inl ⟨[], a, b, ps, rfl, clear_nil k, ha⟩)
    · by_cases hb : cText b = k
      · exact Or.inr (Or.inr ⟨[], a, b, ps, rfl, clear_nil k, ha, hb⟩)
      · have hp : cText a ≠ k ∧ cText b ≠ k := ⟨ha, hb⟩
        rcases ih with hclear | ⟨qs, t, v, rs, rfl, hqs, ht⟩ | ⟨qs, x, t, rs, rfl, hqs, hx, ht⟩
        · exact Or.inl (clear_cons.mpr ⟨hp, hclear⟩)
        · exact Or.inr (Or.inl ⟨(a, b) :: qs, t, v, rs, rfl, clear_cons.mpr ⟨hp, hqs⟩, ht⟩)
        · exact Or.inr (Or.inr ⟨(a, b) :: qs, x, t, rs, rfl, clear_cons.mpr ⟨hp, hqs⟩, hx, ht⟩)

/-- A bucket in which the search ends at a value, cut as the search sees it. -/
theorem flat_value_cut {k a : Bytes} {qs : List (Bytes × Bytes)} (t : Bytes)
    (rs : List (Bytes × Bytes)) (hqs : Clear k qs) (ha : cText a ≠ k) :
    flat (qs ++ (a, t) :: rs) = (flat qs ++ [a]) ++ t :: flat rs ∧
      ∀ u ∈ flat qs ++ [a], cText u ≠ k := by
  constructor
  · simp
  · intro u hu
    rcases List.mem_append.mp hu with hu | hu
    · exact hqs u hu
    · rw [List.mem_singleton] at hu
      rwa [hu]

theorem pairTab_update {s' : Store} {c' : Addr → Option Chain} {i : UInt8} {bs : List Bytes}
    {ps : List (Bytes × Bytes)}
    (T : Tab out s' c' (Function.update (fun j => flat (P j)) i bs)) (h : flat ps = bs) :
    PairTab s' c' (Function.update P i ps) := by
  rw [PairTab, flat_update, h]
  exact T

/-- `hash_set` of a key that nothing compares equal to. -/
theorem set_clear (T : PairTab s c P) (k : CText) (hclear : Clear k.1 (P (xorBytes k.1)))
    (value : WfStr) :
    (fitsString k.1 = true → ∃ s' c', (hashSet (charArray k.1) value.1).run s = .ok () s' ∧
      PairTab s' c' (Function.update P (xorBytes k.1)
        (P (xorBytes k.1) ++ [(k.1, value.1.text)])) ∧ s'.hash.count = s.hash.count + 1 ∧
      Local out s s' c c') ∧
    (fitsString k.1 = false → ∃ s' c', (hashSet (charArray k.1) value.1).run s = .thrown s' ∧
      PairTab s' c' P ∧ s'.hash.count = s.hash.count ∧ Local out s s' c c') := by
  obtain ⟨hok, hlong⟩ := hashSet_absent T (cString_charArray k.1 k.2) hclear value.2
  constructor
  · intro hfit
    obtain ⟨s', c', hrun, T', hcount, -, hloc⟩ := hok (of_decide_eq_true hfit)
    exact ⟨s', c', hrun, pairTab_update T' (by simp), hcount, hloc⟩
  · intro hfit
    exact hlong (Nat.le_of_not_lt (of_decide_eq_false hfit))

/-- `hash_set` of a key that is found as a key. -/
theorem set_key (T : PairTab s c P) (k : CText) {qs rs : List (Bytes × Bytes)} {t v : Bytes}
    (hP : P (xorBytes k.1) = qs ++ (t, v) :: rs) (hqs : Clear k.1 qs) (ht : cText t = k.1)
    (value : WfStr) :
    ∃ s' c', (hashSet (charArray k.1) value.1).run s = .ok () s' ∧
      PairTab s' c' (Function.update P (xorBytes k.1) (qs ++ (t, value.1.text) :: rs)) ∧
      s'.hash.count = s.hash.count ∧ Local out s s' c c' := by
  have hB : flat (P (xorBytes k.1)) = flat qs ++ t :: v :: flat rs := by simp [hP]
  obtain ⟨s', c', hrun, T', hcount, -, hloc⟩ :=
    hashSet_found T (cString_charArray k.1 k.2) hB hqs ht value.2
  exact ⟨s', c', hrun, pairTab_update T' (by simp), hcount, hloc⟩

/-- `hash_set` of a key that is found as a value: the key of the next pair is lost. -/
theorem set_value (T : PairTab s c P) (k : CText) {qs rs : List (Bytes × Bytes)} {a t : Bytes}
    (hP : P (xorBytes k.1) = qs ++ (a, t) :: rs) (hqs : Clear k.1 qs) (ha : cText a ≠ k.1)
    (ht : cText t = k.1) (value : WfStr) :
    match rs with
    | [] => (hashSet (charArray k.1) value.1).run s = .halt .fault
    | (_, y) :: rs => ∃ s' c', (hashSet (charArray k.1) value.1).run s = .ok () s' ∧
        PairTab s' c' (Function.update P (xorBytes k.1)
          (qs ++ (a, t) :: (value.1.text, y) :: rs)) ∧ Local out s s' c c' := by
  obtain ⟨hcut, hbefore⟩ := flat_value_cut t rs hqs ha
  have hfound := hashSet_found T (cString_charArray k.1 k.2) ((congrArg flat hP).trans hcut)
    hbefore ht value.2
  cases rs with
  | nil => exact hfound
  | cons r rs =>
    obtain ⟨s', c', hrun, T', -, -, hloc⟩ := hfound
    exact ⟨s', c', hrun, pairTab_update T' (by simp), hloc⟩

theorem delete_key (T : PairTab s c P) (k : CText) {qs rs : List (Bytes × Bytes)} {t v : Bytes}
    (hP : P (xorBytes k.1) = qs ++ (t, v) :: rs) (hqs : Clear k.1 qs) (ht : cText t = k.1) :
    ∃ s' c', (hashDelete (charArray k.1)).run s = .ok () s' ∧
      PairTab s' c' (Function.update P (xorBytes k.1) (qs ++ rs)) ∧
      s'.hash.count = s.hash.count - 1 ∧ Local out s s' c c' := by
  have hB : flat (P (xorBytes k.1)) = flat qs ++ t :: v :: flat rs := by simp [hP]
  obtain ⟨s', c', hrun, T', hcount, hloc⟩ := hashDelete_found T (cString_charArray k.1 k.2) hB hqs ht
  exact ⟨s', c', hrun, pairTab_update T' (by simp), hcount, hloc⟩

/-- `hash_delete` of a key that is found as a value: the value of one pair and the key of the
next one go. -/
theorem delete_value (T : PairTab s c P) (k : CText) {qs rs : List (Bytes × Bytes)} {a t : Bytes}
    (hP : P (xorBytes k.1) = qs ++ (a, t) :: rs) (hqs : Clear k.1 qs) (ha : cText a ≠ k.1)
    (ht : cText t = k.1) :
    match rs with
    | [] => (hashDelete (charArray k.1)).run s = .halt .fault
    | (_, y) :: rs => ∃ s' c', (hashDelete (charArray k.1)).run s = .ok () s' ∧
        PairTab s' c' (Function.update P (xorBytes k.1) (qs ++ (a, y) :: rs)) ∧ Local out s s' c c' := by
  obtain ⟨hcut, hbefore⟩ := flat_value_cut t rs hqs ha
  have hfound := hashDelete_found T (cString_charArray k.1 k.2) ((congrArg flat hP).trans hcut)
    hbefore ht
  cases rs with
  | nil => exact hfound
  | cons r rs =>
    obtain ⟨s', c', hrun, T', -, hloc⟩ := hfound
    exact ⟨s', c', hrun, pairTab_update T' (by simp), hloc⟩

/-- The calls that change a table one key at a time. -/
def Op.updates : Op → Bool
  | .set _ _ => true
  | .delete _ => true
  | _ => false

/-- A table with pairs that a call on the table has led to. -/
def Follows (s : Store) (c : Addr → Option Chain) (s' : Store) : Prop :=
  ∃ c' P, PairTab s' c' P ∧ Local out s s' c c'

theorem hashSet_follows (T : PairTab s c P) (k : CText) (value : WfStr) :
    ((hashSet (charArray k.1) value.1).run s).Leaves (Follows s c) := by
  rcases search_cases k.1 (P (xorBytes k.1)) with
    hclear | ⟨qs, t, v, rs, hP, hqs, ht⟩ | ⟨qs, a, t, rs, hP, hqs, ha, ht⟩
  · obtain ⟨hok, hlong⟩ := set_clear T k hclear value
    cases hfit : fitsString k.1 with
    | true =>
      obtain ⟨s', c', hrun, T', -, hloc⟩ := hok hfit
      rw [hrun]
      exact ⟨c', _, T', hloc⟩
    | false =>
      obtain ⟨s', c', hrun, T', -, hloc⟩ := hlong hfit
      rw [hrun]
      exact ⟨c', _, T', hloc⟩
  · obtain ⟨s', c', hrun, T', -, hloc⟩ := set_key T k hP hqs ht value
    rw [hrun]
    exact ⟨c', _, T', hloc⟩
  · have hset := set_value T k hP hqs ha ht value
    cases rs with
    | nil =>
      dsimp only at hset
      rw [hset]
      trivial
    | cons r rs =>
      obtain ⟨s', c', hrun, T', hloc⟩ := hset
      rw [hrun]
      exact ⟨c', _, T', hloc⟩

theorem hashDelete_follows (T : PairTab s c P) (k : CText) :
    ((hashDelete (charArray k.1)).run s).Leaves (Follows s c) := by
  rcases search_cases k.1 (P (xorBytes k.1)) with
    hclear | ⟨qs, t, v, rs, hP, hqs, ht⟩ | ⟨qs, a, t, rs, hP, hqs, ha, ht⟩
  · rw [hashDelete_absent T (cString_charArray k.1 k.2) hclear]
    exact ⟨c, P, T, Local.rfl⟩
  · obtain ⟨s', c', hrun, T', -, hloc⟩ := delete_key T k hP hqs ht
    rw [hrun]
    exact ⟨c', _, T', hloc⟩
  · have hdel := delete_value T k hP hqs ha ht
    cases rs with
    | nil =>
      dsimp only at hdel
      rw [hdel]
      trivial
    | cons r rs =>
      obtain ⟨s', c', hrun, T', hloc⟩ := hdel
      rw [hrun]
      exact ⟨c', _, T', hloc⟩

theorem Follows.holdsPairs {s' : Store} (h : Follows s c s') : HoldsPairs s' := by
  obtain ⟨c', P, T, -⟩ := h
  exact ⟨c', P, T⟩

/-- In every table that comes out of `hash_set` and `hash_delete`, the buckets are sequences of
pairs, whatever has been taken for a key on the way. -/
theorem reachable_pairs {ops : List Op} (hops : ∀ op ∈ ops, op.updates = true)
    {rs : List (Option Reply)} (hrun : (execAll ops).run start = .ok rs s) :
    HoldsPairs s := by
  have hstart : HoldsPairs start := ⟨_, fun _ => [], tab_start⟩
  refine attemptAll_invariant ?_ hstart hrun
  rintro op hop s ⟨c, P, T⟩
  have hup := hops op hop
  cases op with
  | set key value =>
    exact leaves_bind_pure _ ((hashSet_follows T key value).imp fun _ => Follows.holdsPairs)
  | delete key => exact leaves_bind_pure _ ((hashDelete_follows T key).imp fun _ => Follows.holdsPairs)
  | _ => cases hup

/-- `k` is not a key of the table. -/
def NotAKey (P : UInt8 → List (Bytes × Bytes)) (k : Bytes) : Prop :=
  ∀ p ∈ P (xorBytes k), cText p.1 ≠ k

/-- An entry that the search for `k` returns stands where a key stands, so that the entry behind
it is the value of that key. -/
def LandsOnKey (s : Store) (c : Addr → Option Chain) (k : Bytes) : Prop :=
  ∀ l a s', (hashEntrySearch (charArray k)).run s = .ok (l, a) s' →
    ∃ xs v ys, c l = some (xs ++ (a, v) :: ys) ∧ xs.length % 2 = 0

/-- The calls with `k` do what they should for a key that is not there. -/
structure ActsAbsent (s : Store) (P : UInt8 → List (Bytes × Bytes)) (k : Bytes) : Prop where
  get : ∀ dest : WfStr, (hashGet dest.1 (charArray k)).run s = .thrown s
  delete : (hashDelete (charArray k)).run s = .thrown s
  set : ∀ value : WfStr, ∃ s' c', (hashSet (charArray k) value.1).run s = .ok () s' ∧
    PairTab s' c' (Function.update P (xorBytes k) (P (xorBytes k) ++ [(k, value.1.text)])) ∧
    s'.hash.count = s.hash.count + 1

/-- No value in front of the key `k`, if it is there at all, compares equal to it. -/
def NoValueFirst (P : UInt8 → List (Bytes × Bytes)) (k : Bytes) : Prop :=
  ∀ p ∈ (P (xorBytes k)).takeWhile (fun p => cText p.1 ≠ k), cText p.2 ≠ k

theorem clear_iff {k : Bytes} {ps : List (Bytes × Bytes)} :
    Clear k ps ↔ ∀ p ∈ ps, cText p.1 ≠ k ∧ cText p.2 ≠ k := by
  induction ps with
  | nil => simp
  | cons p ps ih => simp [ih]

theorem length_flat (ps : List (Bytes × Bytes)) : (flat ps).length = 2 * ps.length := by
  induction ps with
  | nil => rfl
  | cons p ps ih =>
    simp only [flat_cons, List.length_cons, ih]
    omega

/-- Nothing compares equal to the key. -/
theorem acts_absent_iff_of_clear (T : PairTab s c P) (k : CText)
    (hclear : Clear k.1 (P (xorBytes k.1))) :
    LandsOnKey s c k.1 ∧ (ActsAbsent s P k.1 ↔ fitsString k.1 = true) := by
  have hc := cString_charArray k.1 k.2
  refine ⟨?_, ?_, ?_⟩
  · intro l a s' hrun
    rw [hashEntrySearch_absent T hc hclear] at hrun
    cases hrun
  · intro hacts
    by_contra hlong
    have hset := hacts.set (ofText [])
    obtain ⟨s', c', hrun, -⟩ := hset
    obtain ⟨s'', c'', hrun', -⟩ := (set_clear T k hclear _).2 (by simpa using hlong)
    rw [hrun'] at hrun
    cases hrun
  · intro hfit
    refine ⟨?_, ?_, ?_⟩
    · intro dest
      exact hashGet_absent T hc hclear dest.1
    · exact hashDelete_absent T hc hclear
    · intro value
      obtain ⟨s', c', hrun, T', hcount, -⟩ := (set_clear T k hclear value).1 hfit
      exact ⟨s', c', hrun, T', hcount⟩

/-- The search for a key that is found in front of all equal values. -/
theorem landsOnKey_of_key (T : PairTab s c P) (k : CText) {qs rs : List (Bytes × Bytes)}
    {t v : Bytes} (hP : P (xorBytes k.1) = qs ++ (t, v) :: rs) (hqs : Clear k.1 qs)
    (ht : cText t = k.1) : LandsOnKey s c k.1 := by
  intro l a s' hrun
  have hB : flat (P (xorBytes k.1)) = flat qs ++ t :: v :: flat rs := by simp [hP]
  obtain ⟨l', xs, a', w, ys, -, hl, hxs, -, -, hfound⟩ :=
    hashEntrySearch_found T (cString_charArray k.1 k.2) hB hqs ht
  rw [hfound] at hrun
  cases hrun
  refine ⟨xs, w, ys, hl, ?_⟩
  rw [← length_texts xs, hxs, length_flat]
  omega

/-- The search that meets an equal value first returns that value. -/
theorem not_landsOnKey_of_value (T : PairTab s c P) (k : CText) {qs rs : List (Bytes × Bytes)}
    {a t : Bytes} (hP : P (xorBytes k.1) = qs ++ (a, t) :: rs) (hqs : Clear k.1 qs)
    (ha : cText a ≠ k.1) (ht : cText t = k.1) : ¬ LandsOnKey s c k.1 := by
  intro hlands
  obtain ⟨hcut, hbefore⟩ := flat_value_cut t rs hqs ha
  obtain ⟨l, xs, b, w, ys, -, hl, hxs, -, -, hfound⟩ :=
    hashEntrySearch_found T (cString_charArray k.1 k.2) ((congrArg flat hP).trans hcut) hbefore ht
  obtain ⟨xs', w', ys', hl', heven⟩ := hlands l b s hfound
  have hpos := (T.rep.seg hl).position xs rfl (Option.some.inj (hl.symm.trans hl'))
  have hlen : xs.length = 2 * qs.length + 1 := by
    rw [← length_texts xs, hxs, List.length_append, length_flat]
    rfl
  omega

theorem takeWhile_clear {k : Bytes} {qs : List (Bytes × Bytes)} (hqs : Clear k qs)
    (rs : List (Bytes × Bytes)) :
    (qs ++ rs).takeWhile (fun p => cText p.1 ≠ k) =
      qs ++ rs.takeWhile (fun p => cText p.1 ≠ k) := by
  apply List.takeWhile_append_of_pos
  intro p hp
  simpa using (clear_iff.mp hqs p hp).1

/-- In every table that comes out of `hash_set` and `hash_delete`, a key is treated as it should
be exactly when no value in front of it compares equal and, for a key that is not there, it is
short enough to be stored. -/
theorem key_lookup_right_iff (ops : List Op) (hops : ∀ op ∈ ops, op.updates = true)
    (rs : List (Option Reply)) (s : Store) (hrun : (execAll ops).run start = .ok rs s) :
    ∃ c P, PairTab s c P ∧ ∀ k : CText,
      (LandsOnKey s c k.1 ∧ (NotAKey P k.1 → ActsAbsent s P k.1) ↔
        NoValueFirst P k.1 ∧ (NotAKey P k.1 → fitsString k.1 = true)) := by
  obtain ⟨c, P, T⟩ := reachable_pairs hops hrun
  refine ⟨c, P, T, ?_⟩
  intro k
  rcases search_cases k.1 (P (xorBytes k.1)) with
    hclear | ⟨qs, t, v, rs, hP, hqs, ht⟩ | ⟨qs, a, t, rs, hP, hqs, ha, ht⟩
  · obtain ⟨hlands, hacts⟩ := acts_absent_iff_of_clear T k hclear
    have hno : NoValueFirst P k.1 := fun p hp =>
      (clear_iff.mp hclear p ((List.takeWhile_prefix _).subset hp)).2
    simp [hlands, hno, hacts]
  · have hlands := landsOnKey_of_key T k hP hqs ht
    have hkey : ¬ NotAKey P k.1 := fun hnot => hnot (t, v) (by simp [hP]) ht
    have hno : NoValueFirst P k.1 := by
      intro p hp
      rw [hP, takeWhile_clear hqs] at hp
      have hp' : p ∈ qs := by simpa [ht] using hp
      exact (clear_iff.mp hqs p hp').2
    simp [hlands, hkey, hno]
  · have hlands := not_landsOnKey_of_value T k hP hqs ha ht
    have hno : ¬ NoValueFirst P k.1 := by
      intro hno
      refine hno (a, t) ?_ ht
      rw [hP, takeWhile_clear hqs]
      simp [ha]
    simp [hlands, hno]

theorem flat_inj {ps qs : List (Bytes × Bytes)} (h : flat ps = flat qs) : ps = qs := by
  induction ps generalizing qs with
  | nil =>
    cases qs with
    | nil => rfl
    | cons q qs => cases h
  | cons p ps ih =>
    cases qs with
    | nil => cases h
    | cons q qs =>
      rw [flat_cons, flat_cons, List.cons.injEq, List.cons.injEq] at h
      rw [ih h.2.2, Prod.ext h.1 h.2.1]

/-- A table holds these pairs and no others. -/
theorem PairTab.unique {s : Store} {c c' : Addr → Option Chain} {P P' : UInt8 → List (Bytes × Bytes)}
    (T : PairTab s c P) (T' : PairTab s c' P') : P = P' := by
  funext i
  apply flat_inj
  cases hb : s.hash.bucket i with
  | none => rw [T.missing hb, T'.missing hb]
  | some l =>
    obtain ⟨xs, hxs, ht⟩ := Option.map_eq_some_iff.mp (T.bucket hb)
    obtain ⟨ys, hys, ht'⟩ := Option.map_eq_some_iff.mp (T'.bucket hb)
    rw [← ht, ← ht', T.rep.unique T'.rep hxs hys]

/-- The keys `ab`, `ba` and `12` have the same hash. -/
def ab : CText := ⟨[97, 98], by decide⟩
def ba : CText := ⟨[98, 97], by decide⟩
def oneTwo : CText := ⟨[49, 50], by decide⟩

/-- The table with one pair, the key `ab`. -/
theorem run_set_ab (value : WfStr) : ∃ s c, (execAll [.set ab value]).run start = .ok [some .done] s ∧
    PairTab s c (Function.update (fun _ => []) (xorBytes ab.1) [(ab.1, value.1.text)]) := by
  have T : PairTab start (Function.update (fun _ => none) out (some [])) (fun _ => []) := tab_start
  obtain ⟨s, c, hset, T', -⟩ := (set_clear T ab (clear_nil _) value).1 (by decide)
  have hexec : (attempt (exec (.set ab value))).run start = .ok (some .done) s := run_attempt_ok (run_bind_ok hset)
  exact ⟨s, c, run_attemptAll_cons hexec rfl, T'⟩

/-- The key `ba` is treated as it should be when `ab` has the value `x`, but not when it has the value `ba`. -/
theorem key_lookup_right_iff_ab :
    (∃ rs s c P, (execAll [.set ab (ofText [120])]).run start = .ok rs s ∧ PairTab s c P ∧
      LandsOnKey s c ba.1 ∧ (NotAKey P ba.1 → ActsAbsent s P ba.1)) ∧
    ∃ rs s c P, (execAll [.set ab (ofText ba.1)]).run start = .ok rs s ∧ PairTab s c P ∧
      ¬ (LandsOnKey s c ba.1 ∧ (NotAKey P ba.1 → ActsAbsent s P ba.1)) := by
  constructor
  · obtain ⟨s, d, hrun, Td⟩ := run_set_ab (ofText [120])
    obtain ⟨c, P, T, hiff⟩ := key_lookup_right_iff _ (by decide) _ s hrun
    obtain rfl := T.unique Td
    refine ⟨_, s, c, _, hrun, T, (hiff ba).mpr ⟨?_, fun _ => by decide⟩⟩
    rw [NoValueFirst]
    decide
  · obtain ⟨s, d, hrun, Td⟩ := run_set_ab (ofText ba.1)
    obtain ⟨c, P, T, hiff⟩ := key_lookup_right_iff _ (by decide) _ s hrun
    obtain rfl := T.unique Td
    refine ⟨_, s, c, _, hrun, T, fun hright => ?_⟩
    have hno := ((hiff ba).mp hright).1
    rw [NoValueFirst] at hno
    revert hno
    decide

/-- With `ba` stored under `ab`, looking for the key `ba` runs off the end of the bucket; with the
pair `12` behind it, it returns `12`, and setting `ba` destroys the key `12`. -/
theorem value_taken_for_key :
    (execAll [.set ab (ofText [98, 97]), .get (ofText []) ba]).run start = .halt .fault ∧
    ((execAll [.set ab (ofText [98, 97]), .set oneTwo (ofText [120]), .get (ofText []) ba,
        .set ba (ofText [121]), .get (ofText []) oneTwo]).run start).value =
      some [some .done, some .done, some (.text [49, 50]), some .done, none] := by
  constructor
  · exact Outcome.eq_of_stopped (by decide +kernel)
  · decide +kernel

end NcHash
