import NaturalC.NcListSplice

/-!
# Elements by position

`list_get` and `list_delete` walk to a position with a bound check of their own each,
and `list_compare` walks over the list and over its arguments with one counter.
-/
namespace NcList

open Throwing Throwing.Act NcString Linked

/-- One round of the loop in `list_delete`. -/
def deleteStep (list : Addr) (offset : Nat) :
    Option Addr × Nat → Act Heap ((Option Addr × Nat) ⊕ Unit)
  | (none, _) => pure (.inr ())
  | (some ent, n) =>
    if n = offset then do
      listEntryDelete list ent
      pure (.inr ())
    else do
      let c ← loadEntry ent
      pure (.inl (c.next, n + 1))

def listDelete (list : Addr) (offset : Nat) : Act Heap Unit := do
  let l ← loadList list
  if offset > l.count then throwing
  else do
    let h ← get
    loop (deleteStep list offset) (h.fresh + 1) (l.head, 0)

/-- The loop of `list_compare`: the arguments from `s2` on are compared with the elements from
`s1` on, `count` elements having been read. Nothing is the early return. -/
def compareArgs (list : Addr) (s1 : Str) (count : Nat) : List Bytes → Act Heap (Option Nat)
  | [] => pure (some count)
  | s2 :: args => do
    let rc ← strCmp s1 s2
    if rc ≠ 0 then pure none
    else match args with
      | [] => pure (some count)
      | _ :: _ => do
        let s1 ← listGet s1 list count
        compareArgs list s1 (count + 1) args

/-- The last test of `list_compare`. -/
def compareCount (list : Addr) : Option Nat → Act Heap Int
  | none => pure (-1)
  | some count => do
    let l ← loadList list
    if count ≠ l.count then pure (-1) else pure 0

def listCompare (list : Addr) (args : List Bytes) : Act Heap Int := do
  let s1 ← strNew true true
  let l ← loadList list
  if args = [] ∧ l.count ≠ 0 then pure (-1)
  else do
    let s1 ← listGet s1 list 0
    let read ← compareArgs list s1 1 args
    compareCount list read

/-- What the caller gets from a compiled function: an exception becomes the value -1. -/
def retval (m : Act Heap Int) : Act Heap Int := do
  match ← attempt m with
  | none => pure (-1)
  | some v => pure v

variable {h : Heap} {F : Rest} {c : Addr → Option Chain}

/-- The walk stops at the entry with the given number and deletes it. -/
theorem loop_delete (r : RepIn F h c) {l a : Addr} {v : Str} (ds us : Chain) {vs : Chain}
    (hl : c l = some (ds ++ us ++ (a, v) :: vs)) (fuel : Nat) (hf : us.length < fuel) :
    ∃ h', (loop (deleteStep l (ds.length + us.length)) fuel
        (first (us ++ (a, v) :: vs) none, ds.length)).run h = .ok () h' ∧
      RepIn F h' (Function.update c l (some (ds ++ us ++ vs))) := by
  induction us generalizing ds fuel with
  | nil =>
    obtain ⟨fuel, rfl⟩ : ∃ k, fuel = k + 1 := ⟨fuel - 1, by simp at hf; omega⟩
    obtain ⟨h', hdel, -, r'⟩ := listEntryDelete_rep r hl
    refine ⟨h', run_loop_inr ?_, r'⟩
    simp only [List.nil_append, first_cons, deleteStep, List.length_nil, Nat.add_zero, if_true]
    rw [run_bind_ok hdel]
    rfl
  | cons x us ih =>
    obtain ⟨b, w⟩ := x
    obtain ⟨fuel, rfl⟩ : ∃ k, fuel = k + 1 := ⟨fuel - 1, by simp at hf; omega⟩
    have hl' : c l = some (ds ++ [(b, w)] ++ us ++ (a, v) :: vs) := by simpa using hl
    have hb : h.entry b = some ⟨w, first (us ++ (a, v) :: vs) none, last none ds⟩ := by
      have hseg := r.seg hl
      rw [List.append_assoc, List.cons_append] at hseg
      exact hseg.prev
    have hne : ds.length ≠ ds.length + (us.length + 1) := by omega
    have hstep : (deleteStep l (ds.length + (us.length + 1)) (some b, ds.length)).run h =
        .ok (.inl (first (us ++ (a, v) :: vs) none, ds.length + 1)) h := by
      simp only [deleteStep, if_neg hne, run_bind_loadEntry, hb]
      rfl
    obtain ⟨h', hrun, r'⟩ := ih (ds ++ [(b, w)]) hl' fuel (by simpa using hf)
    refine ⟨h', ?_, by simpa using r'⟩
    rw [List.length_append, List.length_singleton, Nat.add_assoc, Nat.add_comm 1] at hrun
    rw [List.cons_append, first_cons, List.length_cons, run_loop_inl hstep]
    exact hrun

/-- A walk over fewer entries than that deletes nothing. -/
theorem loop_delete_beyond (list : Addr) (xs : Chain) (h : Heap) (fuel n offset : Nat)
    (hp : Path h.entry xs none) (hf : xs.length < fuel) (ho : n + xs.length ≤ offset) :
    (loop (deleteStep list offset) fuel (first xs none, n)).run h = .ok () h := by
  induction xs generalizing fuel n with
  | nil =>
    obtain ⟨fuel, rfl⟩ : ∃ k, fuel = k + 1 := ⟨fuel - 1, by simp at hf; omega⟩
    exact run_loop_inr rfl
  | cons x xs ih =>
    obtain ⟨b, w⟩ := x
    obtain ⟨⟨p, hb⟩, hxs⟩ := hp
    obtain ⟨fuel, rfl⟩ : ∃ k, fuel = k + 1 := ⟨fuel - 1, by simp at hf; omega⟩
    rw [List.length_cons] at ho hf
    have hne : n ≠ offset := by omega
    have hstep : (deleteStep list offset (some b, n)).run h = .ok (.inl (first xs none, n + 1)) h := by
      simp only [deleteStep, if_neg hne, run_bind_loadEntry, hb]
      rfl
    rw [first_cons, run_loop_inl hstep]
    exact ih fuel (n + 1) hxs (by omega) (by omega)

theorem listDelete_rep (r : RepIn F h c) {l a : Addr} {v : Str} {us vs : Chain}
    (hl : c l = some (us ++ (a, v) :: vs)) :
    ∃ h', (listDelete l us.length).run h = .ok () h' ∧
      RepIn F h' (Function.update c l (some (us ++ vs))) := by
  have hlen := r.length_le hl
  rw [List.length_append, List.length_cons] at hlen
  obtain ⟨h', hloop, r'⟩ := loop_delete r [] us hl (h.fresh + 1) (by omega)
  refine ⟨h', ?_, r'⟩
  have hcount : ¬ us.length > (header (us ++ (a, v) :: vs)).count := by
    simp only [header, List.length_append, List.length_cons]
    omega
  rw [List.length_nil, Nat.zero_add] at hloop
  simp only [listDelete, run_bind_loadList, r.list_eq hl, if_neg hcount, run_bind_get]
  exact hloop

/-- The position one behind the last entry passes the test, and the walk ends without a match. -/
theorem listDelete_end (r : RepIn F h c) {l : Addr} {xs : Chain} (hl : c l = some xs) :
    (listDelete l xs.length).run h = .ok () h := by
  have hcount : ¬ xs.length > (header xs).count := Nat.lt_irrefl _
  simp only [listDelete, run_bind_loadList, r.list_eq hl, if_neg hcount, run_bind_get]
  exact loop_delete_beyond l xs h (h.fresh + 1) 0 xs.length (r.seg hl).path
    (Nat.lt_succ_of_le (r.length_le hl)) (by omega)

theorem listDelete_beyond (r : RepIn F h c) {l : Addr} {xs : Chain} (hl : c l = some xs)
    {offset : Nat} (ho : xs.length < offset) : (listDelete l offset).run h = .thrown h := by
  simp [listDelete, r.list_eq hl, header, ho]

theorem listGet_beyond (r : RepIn F h c) {l : Addr} {xs : Chain} (hl : c l = some xs) (dest : Str)
    {offset : Nat} (ho : xs.length ≤ offset) : (listGet dest l offset).run h = .thrown h := by
  simp only [listGet]
  exact run_bind_thrown (listEntryGet_beyond r hl ho)

/-- `list_get` and `list_delete` at one position: both fail and leave the heap as it is when the
list has no such element; otherwise the one copies its text out, and the other leaves a well-formed
list of all other entries, with a count that is one less, and every other list as it was. -/
def Positions (F : Rest) (h : Heap) (c : Addr → Option Chain) (l : Addr) (xs : Chain) (dest : Str)
    (offset : Nat) : Prop :=
  if xs.length ≤ offset then
    (listGet dest l offset).run h = .thrown h ∧ (listDelete l offset).run h = .thrown h
  else
    (∃ d text, (listGet dest l offset).run h = .ok d h ∧ Holds d text ∧
      (texts xs)[offset]? = some text) ∧
    ∃ h', (listDelete l offset).run h = .ok () h' ∧
      RepIn F h' (Function.update c l (some (xs.eraseIdx offset))) ∧
      ∃ header', h'.list l = some header' ∧ header'.count + 1 = xs.length

/-- The two bound checks agree at every position but the one just past the end. -/
theorem list_delete_iff_not_end (r : RepIn F h c) {l : Addr} {xs : Chain} (hl : c l = some xs)
    (hmax : xs.length < 2 ^ 32) {dest : Str} {old : Bytes} (hd : Holds dest old) (offset : Nat) :
    Positions F h c l xs dest offset ↔ offset ≠ xs.length := by
  rcases Nat.lt_trichotomy offset xs.length with hlt | rfl | hgt
  · have hcut : xs = xs.take offset ++ (xs[offset].1, xs[offset].2) :: xs.drop (offset + 1) := by
      rw [← List.drop_eq_getElem_cons hlt, List.take_append_drop]
    have hlen : (xs.take offset).length = offset := by
      rw [List.length_take]
      omega
    have herase : xs.take offset ++ xs.drop (offset + 1) = xs.eraseIdx offset :=
      (List.eraseIdx_eq_take_drop_succ xs offset).symm
    have hl' := hl.trans (congrArg some hcut)
    obtain ⟨d, hget, hd'⟩ := listGet_rep r hl' (by rw [hlen]; omega) hd
    obtain ⟨h', hdel, r'⟩ := listDelete_rep r hl'
    rw [hlen] at hget hdel
    rw [herase] at r'
    have hcount : (xs.eraseIdx offset).length + 1 = xs.length := by
      rw [List.length_eraseIdx_of_lt hlt]
      omega
    refine ⟨fun _ => Nat.ne_of_lt hlt, fun _ => ?_⟩
    rw [Positions, if_neg (Nat.not_le.mpr hlt)]
    refine ⟨⟨d, _, hget, hd', ?_⟩, h', hdel, r', _, r'.list_eq (Function.update_self _ _ _), hcount⟩
    simp [texts, hlt]
  · refine ⟨fun hpos => ?_, fun hne => absurd rfl hne⟩
    rw [Positions, if_pos (Nat.le_refl _), listDelete_end r hl] at hpos
    cases hpos.2
  · refine ⟨fun _ => Nat.ne_of_gt hgt, fun _ => ?_⟩
    rw [Positions, if_pos (Nat.le_of_lt hgt)]
    exact ⟨listGet_beyond r hl dest (Nat.le_of_lt hgt), listDelete_beyond r hl hgt⟩

/-- The list at address 1 has one element; deleting the element at position 1 succeeds and changes
nothing, where `list_get` fails. -/
theorem list_delete_accepts_end :
    (listGet (letter 0).1 1 1).run emptyAndB = .thrown emptyAndB ∧
      (listDelete 1 1).run emptyAndB = .ok () emptyAndB ∧
      ¬ Positions Rest.none emptyAndB emptyAndBChains 1 [(2, (letter 98).1)] (letter 0).1 1 := by
  have hl : emptyAndBChains 1 = some [(2, (letter 98).1)] := rfl
  have hdel : (listDelete 1 1).run emptyAndB = .ok () emptyAndB := listDelete_end rep_emptyAndB hl
  refine ⟨listGet_beyond rep_emptyAndB hl _ (Nat.le_refl _), hdel, fun hpos => ?_⟩
  rw [Positions, if_pos (by decide), hdel] at hpos
  cases hpos.2

/-- A list of `b`, `a` and `c`. -/
theorem exists_bac : ∃ h c xs, Rep h c ∧ c 1 = some xs ∧ texts xs = [[98], [97], [99]] := by
  have hb : emptyAndBChains 1 = some [(2, (letter 98).1)] := rfl
  obtain ⟨h₁, a, -, ⟨ha, -⟩, -, r₁⟩ := listPush_rep rep_emptyAndB hb (letter 97).2
  obtain ⟨h₂, s, -, ⟨hs, -⟩, -, r₂⟩ := listPush_rep r₁ (Function.update_self _ _ _) (letter 99).2
  refine ⟨h₂, _, _, r₂, Function.update_self _ _ _, ?_⟩
  have ha : a.text = [97] := ha.text
  have hs : s.text = [99] := hs.text
  rw [texts_append, texts_append, texts_cons, texts_cons, texts_cons, ha, hs]
  rfl

/-- The middle element and the last one can be read and deleted, and the end is no element. -/
theorem list_delete_iff_not_end_bac :
    ∃ h c xs, Rep h c ∧ c 1 = some xs ∧ texts xs = [[98], [97], [99]] ∧
      Positions Rest.none h c 1 xs (letter 0).1 1 ∧ Positions Rest.none h c 1 xs (letter 0).1 2 ∧
      ¬ Positions Rest.none h c 1 xs (letter 0).1 3 := by
  obtain ⟨h, c, xs, r, hl, hxs⟩ := exists_bac
  have hlen : xs.length = 3 := by
    rw [← length_texts, hxs]
    rfl
  have hiff := list_delete_iff_not_end r hl (by omega) (letter 0).2
  refine ⟨h, c, xs, r, hl, hxs, (hiff 1).mpr (by omega), (hiff 2).mpr (by omega), ?_⟩
  intro hpos
  exact (hiff 3).mp hpos hlen.symm

/-- Behind the first `k` elements, which agree, both sequences go on. -/
def AgreeBeyond (k : Nat) (xs ys : List Bytes) : Prop :=
  k < xs.length ∧ k < ys.length ∧ xs.take k = ys.take k

instance (k : Nat) (xs ys : List Bytes) : Decidable (AgreeBeyond k xs ys) :=
  inferInstanceAs (Decidable (_ ∧ _))

theorem agreeBeyond_cons {k : Nat} {x y : Bytes} {xs ys : List Bytes} :
    AgreeBeyond (k + 1) (x :: xs) (y :: ys) ↔ x = y ∧ AgreeBeyond k xs ys := by
  simp only [AgreeBeyond, List.length_cons, List.take_succ_cons, List.cons.injEq]
  constructor
  · rintro ⟨hx, hy, hxy, htake⟩
    exact ⟨hxy, Nat.lt_of_succ_lt_succ hx, Nat.lt_of_succ_lt_succ hy, htake⟩
  · rintro ⟨hxy, hx, hy, htake⟩
    exact ⟨Nat.succ_lt_succ hx, Nat.succ_lt_succ hy, hxy, htake⟩

theorem run_retval_ok {m : Act Heap Int} {h t : Heap} {v : Int} (hm : m.run h = .ok v t) :
    (retval m).run h = .ok v t := run_bind_ok (run_attempt_ok hm)

theorem run_retval_thrown {m : Act Heap Int} {h t : Heap} (hm : m.run h = .thrown t) :
    (retval m).run h = .ok (-1) t := run_bind_ok (run_attempt_thrown hm)

theorem run_retval_congr {m m' : Act Heap Int} {h : Heap} (hm : m.run h = m'.run h) :
    (retval m).run h = (retval m').run h := by
  rw [retval, run_bind, run_attempt, hm]
  rfl

theorem run_retval_halt {m : Act Heap Int} {h : Heap} {e : Halt} (hm : m.run h = .halt e) :
    (retval m).run h = .halt e := run_bind_halt (run_attempt_halt hm)

/-- The texts of the arguments, as the caller writes them. -/
def argTexts (args : List CText) : List Bytes := args.map Subtype.val

@[simp] theorem argTexts_cons (arg : CText) (args : List CText) :
    argTexts (arg :: args) = arg.1 :: argTexts args := rfl

/-- The memory that the arguments point to. -/
def argArrays (args : List CText) : List Bytes := args.map (fun a => charArray a.1)

/-- The outcome of the comparison from one position on, `k` elements of the list being in reach of
the counter of `list_entry_get`. -/
def walked (h : Heap) (k : Nat) (xs args : List Bytes) : Outcome Heap Int :=
  if AgreeBeyond k xs args then .halt .abort else .ok (if xs = args then 0 else -1) h

theorem walked_cons (h : Heap) (k : Nat) (x y : Bytes) (xs ys : List Bytes) :
    walked h (k + 1) (x :: xs) (y :: ys) = if x = y then walked h k xs ys else .ok (-1) h := by
  by_cases hxy : x = y
  · simp only [walked, agreeBeyond_cons, hxy, true_and, List.cons.injEq, if_true]
  · simp only [walked, agreeBeyond_cons, hxy, false_and, List.cons.injEq, if_false]

theorem walked_nil_left (h : Heap) (k : Nat) (args : List Bytes) :
    walked h k [] args = .ok (if args = [] then 0 else -1) h := by
  simp only [walked, AgreeBeyond, List.length_nil, Nat.not_lt_zero, false_and, if_false,
    eq_comm (a := [])]

theorem walked_nil_right (h : Heap) (k : Nat) (xs : List Bytes) :
    walked h k xs [] = .ok (if xs = [] then 0 else -1) h := by
  simp only [walked, AgreeBeyond, List.length_nil, Nat.not_lt_zero, false_and, and_false, if_false]

theorem strCmp_arg {s1 : Str} {text : Bytes} (hs1 : Holds s1 text) (hfree : NulFree text) (arg : CText)
    (h : Heap) : (strCmp s1 (charArray arg.1)).run h = .ok (strcmp text arg.1) h := by
  have hrun := strCmp_holds hs1 (cString_charArray arg.1 arg.2) h
  rwa [cText_of_nulFree hfree] at hrun

theorem compareArgs_ne {s1 : Str} {text : Bytes} (hs1 : Holds s1 text) (hfree : NulFree text)
    {arg : CText} (hne : text ≠ arg.1) (l : Addr) (count : Nat) (args : List Bytes) (h : Heap) :
    (compareArgs l s1 count (charArray arg.1 :: args)).run h = .ok none h := by
  have hrc : strcmp text arg.1 ≠ 0 := fun he => hne ((strcmp_eq_zero _ _).mp he)
  unfold compareArgs
  rw [run_bind_ok (strCmp_arg hs1 hfree arg h), if_pos hrc]
  rfl

theorem compareArgs_last {s1 : Str} {arg : CText} (hs1 : Holds s1 arg.1) (l : Addr) (count : Nat)
    (h : Heap) : (compareArgs l s1 count [charArray arg.1]).run h = .ok (some count) h := by
  have hrc := (strcmp_eq_zero arg.1 arg.1).mpr rfl
  unfold compareArgs
  rw [run_bind_ok (strCmp_arg hs1 arg.2 arg h), if_neg (not_not.mpr hrc)]
  rfl

theorem compareArgs_next {s1 : Str} {arg : CText} (hs1 : Holds s1 arg.1) (l : Addr) (count : Nat)
    (s2 : Bytes) (args : List Bytes) (h : Heap) :
    (compareArgs l s1 count (charArray arg.1 :: s2 :: args)).run h =
      (listGet s1 l count >>= fun s1 => compareArgs l s1 (count + 1) (s2 :: args)).run h := by
  have hrc := (strcmp_eq_zero arg.1 arg.1).mpr rfl
  conv_lhs => unfold compareArgs
  rw [run_bind_ok (strCmp_arg hs1 arg.2 arg h), if_neg (not_not.mpr hrc)]

theorem compareCount_run (r : RepIn F h c) {l : Addr} {xs : Chain} (hl : c l = some xs) (count : Nat) :
    (compareCount l (some count)).run h = .ok (if count = xs.length then 0 else -1) h := by
  simp only [compareCount, run_bind_loadList, r.list_eq hl, header]
  by_cases he : count = xs.length
  · rw [if_neg (not_not.mpr he), if_pos he]
    rfl
  · rw [if_pos he, if_neg he]
    rfl

/-- The walk over both sequences: each round compares one pair and reads the next element. -/
theorem compareArgs_run (r : RepIn F h c) {l a : Addr} {v : Str} (us : Chain) {vs : Chain}
    (hl : c l = some (us ++ (a, v) :: vs)) (hfree : ∀ t ∈ texts ((a, v) :: vs), NulFree t) (k : Nat)
    (hk : us.length + (k + 1) = 2 ^ 32) {s1 : Str} (hs1 : Holds s1 v.text) (arg : CText)
    (args : List CText) :
    (retval (compareArgs l s1 (us.length + 1) (argArrays (arg :: args)) >>= compareCount l)).run h =
      walked h (k + 1) (texts ((a, v) :: vs)) (argTexts (arg :: args)) := by
  induction args generalizing us a v vs k s1 arg with
  | nil =>
    rw [texts_cons, argTexts_cons, walked_cons]
    by_cases heq : v.text = arg.1
    · rw [if_pos heq]
      refine Eq.trans ?_ (walked_nil_right h k _).symm
      rw [heq] at hs1
      have hcount : us.length + 1 = (us ++ (a, v) :: vs).length ↔ texts vs = [] := by
        rw [← List.length_eq_zero_iff, length_texts, List.length_append, List.length_cons]
        omega
      refine run_retval_ok ((run_bind_ok (compareArgs_last hs1 l _ h)).trans ?_)
      rw [compareCount_run r hl, if_congr hcount rfl rfl]
    · rw [if_neg heq]
      exact run_retval_ok (run_bind_ok (compareArgs_ne hs1 (hfree _ (by simp)) heq l _ _ h))
  | cons arg' args ih =>
    rw [texts_cons, argTexts_cons, walked_cons]
    by_cases heq : v.text = arg.1
    · rw [if_pos heq]
      rw [heq] at hs1
      have hnext := compareArgs_next hs1 l (us.length + 1) (charArray arg'.1) (argArrays args) h
      -- The next element: none is left, it is out of reach, or it is read.
      cases vs with
      | nil =>
        have hget : (listGet s1 l (us.length + 1)).run h = .thrown h :=
          listGet_beyond r hl s1 (by simp)
        rw [texts_nil, walked_nil_left]
        exact run_retval_thrown (run_bind_thrown (hnext.trans (run_bind_thrown hget)))
      | cons y vs =>
        cases k with
        | zero =>
          have hget : (listGet s1 l (us.length + 1)).run h = .halt .abort :=
            listGet_abort r hl s1 (by simp) (by omega)
          have hbeyond : AgreeBeyond 0 (texts (y :: vs)) (argTexts (arg' :: args)) := by
            simp [AgreeBeyond, argTexts]
          apply (run_retval_halt (run_bind_halt (hnext.trans (run_bind_halt hget)))).trans
          exact (if_pos hbeyond).symm
        | succ k =>
          obtain ⟨b, w⟩ := y
          have hl' : c l = some ((us ++ [(a, v)]) ++ (b, w) :: vs) := by simpa using hl
          have hlen : (us ++ [(a, v)]).length = us.length + 1 := by simp
          obtain ⟨d, hget, hd⟩ := listGet_rep r hl' (by omega) hs1
          rw [hlen] at hget
          have hrest := ih (us ++ [(a, v)]) hl' (fun t ht => hfree t (List.mem_cons_of_mem _ ht)) k
            (by omega) hd arg'
          rw [hlen] at hrest
          have hstep : (compareArgs l s1 (us.length + 1) (argArrays (arg :: arg' :: args))).run h =
              (compareArgs l d (us.length + 1 + 1) (argArrays (arg' :: args))).run h :=
            hnext.trans (run_bind_ok hget)
          rw [← hrest]
          apply run_retval_congr
          rw [run_bind, run_bind, hstep]
    · rw [if_neg heq]
      exact run_retval_ok (run_bind_ok (compareArgs_ne hs1 (hfree _ (by simp)) heq l _ _ h))

/-- `list_compare` on a list with elements. -/
theorem listCompare_run (r : RepIn F h c) {l a : Addr} {v : Str} {vs : Chain}
    (hl : c l = some ((a, v) :: vs)) (hfree : ∀ t ∈ texts ((a, v) :: vs), NulFree t)
    (args : List CText) : (retval (listCompare l (argArrays args))).run h =
      walked h (2 ^ 32) (texts ((a, v) :: vs)) (argTexts args) := by
  obtain ⟨s, hnew, hs, -⟩ := strNew_holds h
  have hl' : c l = some ([] ++ (a, v) :: vs) := hl
  have hne : (header ((a, v) :: vs)).count ≠ 0 := by simp [header]
  cases args with
  | nil =>
    refine (run_retval_ok ?_).trans (walked_nil_right h _ _).symm
    rw [listCompare, run_bind_ok hnew, run_bind_loadList, r.list_eq hl]
    dsimp only
    rw [if_pos ⟨rfl, hne⟩]
    rfl
  | cons arg args =>
    obtain ⟨d, hget, hd⟩ := listGet_rep r hl' (by decide) hs
    rw [List.length_nil] at hget
    have hargs : ¬ (argArrays (arg :: args) = [] ∧ (header ((a, v) :: vs)).count ≠ 0) :=
      fun he => List.cons_ne_nil _ _ he.1
    refine (run_retval_congr ?_).trans
      (compareArgs_run r [] hl' hfree (2 ^ 32 - 1) (by decide) hd arg args)
    rw [listCompare, run_bind_ok hnew, run_bind_loadList, r.list_eq hl]
    dsimp only
    rw [if_neg hargs, run_bind_ok hget]
    rfl

/-- On an empty list the first element is read whether or not there are arguments. -/
theorem listCompare_nil (r : RepIn F h c) {l : Addr} (hl : c l = some []) (args : List Bytes) :
    (retval (listCompare l args)).run h = .ok (-1) h := by
  obtain ⟨s, hnew, -, -⟩ := strNew_holds h
  apply run_retval_thrown
  rw [listCompare, run_bind_ok hnew, run_bind_loadList, r.list_eq hl]
  dsimp only
  rw [if_neg (by simp [header])]
  exact run_bind_thrown (listGet_beyond r hl s (Nat.le_refl _))

/-- `list_compare` says whether the list is the sequence of its arguments, but for two kinds of
input: with an empty list it fails also when there are no arguments, and when the first `2 ^ 32`
elements agree and both sequences go on, the next one is never found and the program aborts. -/
theorem list_compare_iff (r : RepIn F h c) {l : Addr} {xs : Chain} (hl : c l = some xs)
    (hfree : ∀ t ∈ texts xs, NulFree t) (args : List CText) :
    (retval (listCompare l (argArrays args))).run h =
        .ok (if texts xs = argTexts args then 0 else -1) h ↔
      ¬ (xs = [] ∧ args = []) ∧ ¬ AgreeBeyond (2 ^ 32) (texts xs) (argTexts args) := by
  cases xs with
  | nil =>
    have hshort : ¬ AgreeBeyond (2 ^ 32) (texts []) (argTexts args) := fun ha => by simpa using ha.1
    rw [listCompare_nil r hl]
    cases args with
    | nil =>
      refine ⟨fun he => ?_, fun hcond => absurd ⟨rfl, rfl⟩ hcond.1⟩
      exact absurd (Outcome.ok.inj he).1 (by decide)
    | cons arg args =>
      have hne : ¬ texts [] = argTexts (arg :: args) := (List.cons_ne_nil _ _).symm
      rw [if_neg hne]
      exact ⟨fun _ => ⟨fun he => List.cons_ne_nil _ _ he.2, hshort⟩, fun _ => rfl⟩
  | cons x vs =>
    obtain ⟨a, v⟩ := x
    rw [listCompare_run r hl hfree args, walked]
    by_cases hbeyond : AgreeBeyond (2 ^ 32) (texts ((a, v) :: vs)) (argTexts args)
    · rw [if_pos hbeyond]
      refine ⟨fun he => ?_, fun hcond => absurd hbeyond hcond.2⟩
      cases he
    · rw [if_neg hbeyond]
      exact ⟨fun _ => ⟨fun he => List.cons_ne_nil _ _ he.1, hbeyond⟩, fun _ => rfl⟩

/-- An empty list is not found equal to no elements. -/
theorem list_compare_empty_fails :
    texts [] = argTexts [] ∧
      (retval (listCompare 0 (argArrays []))).run emptyAndB = .ok (-1) emptyAndB :=
  ⟨rfl, listCompare_nil rep_emptyAndB rfl _⟩

/-- The list `b`, `a`, `c` is equal to these arguments, and to no arguments that differ in the middle
or stop before the end. -/
theorem list_compare_iff_bac :
    ∃ h c xs, Rep h c ∧ c 1 = some xs ∧ texts xs = [[98], [97], [99]] ∧
      (retval (listCompare 1 (argArrays [⟨[98], by decide⟩, ⟨[97], by decide⟩, ⟨[99], by decide⟩]))).run h =
        .ok 0 h ∧
      (retval (listCompare 1 (argArrays [⟨[98], by decide⟩, ⟨[98], by decide⟩, ⟨[99], by decide⟩]))).run h =
        .ok (-1) h ∧
      (retval (listCompare 1 (argArrays [⟨[98], by decide⟩, ⟨[97], by decide⟩]))).run h = .ok (-1) h := by
  obtain ⟨h, c, xs, r, hl, hxs⟩ := exists_bac
  have hne : xs ≠ [] := by
    rintro rfl
    cases hxs
  have hshort : ∀ args : List CText, ¬ (xs = [] ∧ args = []) ∧ ¬ AgreeBeyond (2 ^ 32) (texts xs) (argTexts args) := by
    intro args
    refine ⟨fun he => hne he.1, fun hb => ?_⟩
    rw [hxs] at hb
    exact absurd hb.1 (by decide)
  have hiff := list_compare_iff r hl (by rw [hxs]; decide)
  refine ⟨h, c, xs, r, hl, hxs, ?_, ?_, ?_⟩
  · have hrun := (hiff [⟨[98], by decide⟩, ⟨[97], by decide⟩, ⟨[99], by decide⟩]).mpr (hshort _)
    rwa [hxs] at hrun
  · have hrun := (hiff [⟨[98], by decide⟩, ⟨[98], by decide⟩, ⟨[99], by decide⟩]).mpr (hshort _)
    rwa [hxs] at hrun
  · have hrun := (hiff [⟨[98], by decide⟩, ⟨[97], by decide⟩]).mpr (hshort _)
    rwa [hxs] at hrun

end NcList
