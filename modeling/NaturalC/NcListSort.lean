import Mathlib.Data.List.Chain
import NaturalC.NcListSpec
import NaturalC.NcNumber

/-!
# Sorting a list

`list_sort` takes the two strings to compare once for each pass, from the first two
entries. So a pass exchanges either every pair of neighbours, which moves the first value
to the end, or none at all.
-/
namespace NcList

open Throwing Throwing.Act NcString Linked

def sortDescending : UInt32 := 0x0001
def sortNumeric : UInt32 := 0x0010

def ascending (flags : UInt32) : Bool := flags &&& sortDescending = 0
def lexicographical (flags : UInt32) : Bool := flags &&& sortNumeric = 0

/-- The value of `rc` in `list_sort`. -/
def sortCompare {σ : Type} (flags : UInt32) (str1 str2 : Str) : Act σ Int :=
  if lexicographical flags then do
    let mem ← deref str2.value
    strCmp str1 mem
  else do
    let i ← strToUint32 str1
    let j ← strToUint32 str2
    pure (if i > j then 1 else if i < j then -1 else 0)

def outOfOrder (flags : UInt32) (rc : Int) : Bool :=
  (ascending flags && rc > 0) || (!ascending flags && rc < 0)

def swapValues (ent1 ent2 : Addr) : Act Heap Unit := do
  let e1 ← loadEntry ent1
  let e2 ← loadEntry ent2
  modifyEntry ent1 (fun c => { c with value := e2.value })
  modifyEntry ent2 (fun c => { c with value := e1.value })

def swapWhen (out : Bool) (ent1 ent2 : Addr) (found : Bool) : Act Heap Bool :=
  if out then do
    swapValues ent1 ent2
    pure true
  else pure found

/-- One round of the inner loop: the strings stay those of the start of the pass. -/
def sortStep (flags : UInt32) (str1 str2 : Str) :
    Option Addr × Option Addr × Bool → Act Heap ((Option Addr × Option Addr × Bool) ⊕ Bool)
  | (some ent1, some ent2, found) => do
    let rc ← sortCompare flags str1 str2
    let found ← swapWhen (outOfOrder flags rc) ent1 ent2 found
    let e1 ← loadEntry ent1
    let e2 ← loadEntry ent2
    pure (.inl (e1.next, e2.next, found))
  | (_, _, found) => pure (.inr found)

/-- One round of the outer loop. -/
def sortPass (list : Addr) (flags : UInt32) (_ : Unit) : Act Heap (Unit ⊕ Unit) := do
  let l ← loadList list
  let ent1 ← deref l.head
  let e1 ← loadEntry ent1
  let ent2 ← deref e1.next
  let e2 ← loadEntry ent2
  let h ← get
  let found ← loop (sortStep flags e1.value e2.value) (h.fresh + 1) (some ent1, some ent2, false)
  pure (if found then .inl () else .inr ())

def listSort (list : Addr) (flags : UInt32) : Act Heap Unit := do
  let l ← loadList list
  if l.count < 2 then pure ()
  else do
    let h ← get
    loop (sortPass list flags) (h.fresh + 1) ()

/-- The number that `str_to_uint32` reads, if it accepts the string. -/
def numberOf (s : Str) : Option Nat := ((strToUint32 s).run ()).value

/-- What the comparison of two strings gives, unless `str_to_uint32` throws. -/
def compared (flags : UInt32) (a b : Str) : Option Int :=
  if lexicographical flags then some (strcmp (cText a.text) (cText b.text))
  else (numberOf a).bind fun i => (numberOf b).map fun j =>
    if i > j then 1 else if i < j then -1 else 0

/-- A pass that starts with these two strings exchanges. -/
def Out (flags : UInt32) (a b : Str) : Prop :=
  ∃ rc, compared flags a b = some rc ∧ outOfOrder flags rc = true

/-- The list can be sorted in this way: for a numeric order `str_to_uint32` accepts every value. -/
def Sortable (flags : UInt32) (vs : List Str) : Prop :=
  lexicographical flags = true ∨ ∀ v ∈ vs, numberOf v ≠ none

/-- Two neighbours are in the order that the flags ask for. -/
def Follows (flags : UInt32) (a b : Str) : Prop :=
  if lexicographical flags then
    if ascending flags then strcmp (cText a.text) (cText b.text) ≤ 0
    else 0 ≤ strcmp (cText a.text) (cText b.text)
  else ∃ i j, numberOf a = some i ∧ numberOf b = some j ∧ if ascending flags then i ≤ j else j ≤ i

def values (xs : Chain) : List Str := xs.map Prod.snd

@[simp] theorem values_nil : values [] = [] := rfl
@[simp] theorem values_cons (a : Addr) (v : Str) (xs : Chain) : values ((a, v) :: xs) = v :: values xs := rfl
@[simp] theorem values_append (xs ys : Chain) : values (xs ++ ys) = values xs ++ values ys :=
  List.map_append

/-- A list whose forward links are sound. Nothing is said of the backward ones, which `list_sort`
does not read. -/
structure Forward (h : Heap) (l : Addr) (xs : Chain) : Prop where
  list : ∃ t, h.list l = some ⟨xs.length, first xs none, t⟩
  path : Path h.entry xs none
  below : ∀ a ∈ addrs xs, a < h.fresh
  wf : ∀ v ∈ values xs, v.WF

/-- Every header and every link of the heap is as before. -/
structure SameLinks (h h' : Heap) : Prop where
  list : h'.list = h.list
  fresh : h'.fresh = h.fresh
  links : ∀ a, (h'.entry a).map (fun c => (c.next, c.prev)) = (h.entry a).map (fun c => (c.next, c.prev))

theorem SameLinks.refl (h : Heap) : SameLinks h h := ⟨rfl, rfl, fun _ => rfl⟩

theorem SameLinks.trans {h₁ h₂ h₃ : Heap} (a : SameLinks h₁ h₂) (b : SameLinks h₂ h₃) : SameLinks h₁ h₃ :=
  ⟨b.list.trans a.list, b.fresh.trans a.fresh, fun x => (b.links x).trans (a.links x)⟩

variable {h : Heap} {flags : UInt32}

theorem strcmp_swap (a b : Bytes) : strcmp b a = -strcmp a b := by
  induction a generalizing b with
  | nil => cases b <;> simp [strcmp]
  | cons x a ih =>
    cases b with
    | nil => simp [strcmp]
    | cons y b =>
      simp only [strcmp]
      by_cases hxy : x = y
      · simp [hxy, ih b]
      · rw [if_neg hxy, if_neg (Ne.symm hxy)]
        rcases UInt8.lt_or_lt_of_ne hxy with hlt | hlt
        · simp [hlt, UInt8.lt_asymm hlt]
        · simp [hlt, UInt8.lt_asymm hlt]

theorem strcmp_pos_trans {a b c : Bytes} (hab : strcmp a b > 0) (hbc : strcmp b c > 0) :
    strcmp a c > 0 := by
  induction a generalizing b c with
  | nil => cases b <;> simp [strcmp] at hab
  | cons x a ih =>
    cases b with
    | nil => cases c <;> simp [strcmp] at hbc
    | cons y b =>
      cases c with
      | nil => simp [strcmp]
      | cons z c =>
        simp only [strcmp] at hab hbc ⊢
        grind [UInt8.lt_trans, UInt8.lt_asymm]

/-- What a run of `str_to_uint32` does depends on the string alone. -/
theorem strToUint32_run {σ : Type} {s : Str} (hs : s.WF) (st : σ) :
    (strToUint32 s).run st = match numberOf s with
      | some n => .ok n st
      | none => .thrown st := by
  obtain ⟨rest, hv, -⟩ := hs.value
  have hulong : (∀ {τ : Type} (t : τ), (strToUlong s).run t = .thrown t) ∨
      ∃ n, ∀ {τ : Type} (t : τ), (strToUlong s).run t = .ok n t := by
    simp only [strToUlong, hv, deref_some, run_bind_ret, cString_cText]
    split_ifs
    · exact Or.inl fun t => rfl
    · exact Or.inl fun t => rfl
    · exact Or.inr ⟨_, fun t => rfl⟩
  rcases hulong with hu | ⟨n, hu⟩
  · simp only [numberOf, strToUint32, run_bind_thrown (hu st), run_bind_thrown (hu ()), Outcome.value]
  · simp only [numberOf, strToUint32, run_bind_ok (hu st), run_bind_ok (hu ())]
    split_ifs <;> rfl

theorem sortCompare_ok {σ : Type} {a b : Str} (ha : a.WF) (hb : b.WF) {rc : Int}
    (hc : compared flags a b = some rc) (st : σ) : (sortCompare flags a b).run st = .ok rc st := by
  rw [sortCompare]
  rw [compared] at hc
  split_ifs at hc ⊢
  · obtain ⟨rest, hv, -⟩ := hb.value
    simp only [hv, deref_some, run_bind_ret]
    rw [strCmp_holds ha (cString_cText _ _), Option.some.inj hc]
  · obtain ⟨i, hi, hc⟩ := Option.bind_eq_some_iff.mp hc
    obtain ⟨j, hj, rfl⟩ := Option.map_eq_some_iff.mp hc
    have hri := strToUint32_run ha st
    have hrj := strToUint32_run hb st
    rw [hi] at hri
    rw [hj] at hrj
    rw [run_bind_ok hri, run_bind_ok hrj]
    rfl

theorem sortCompare_thrown {σ : Type} {a b : Str} (ha : a.WF) (hb : b.WF)
    (hc : compared flags a b = none) (st : σ) : (sortCompare flags a b).run st = .thrown st := by
  rw [sortCompare]
  rw [compared] at hc
  split_ifs at hc ⊢
  have hri := strToUint32_run ha st
  have hrj := strToUint32_run hb st
  cases hi : numberOf a with
  | none =>
    rw [hi] at hri
    exact run_bind_thrown hri
  | some i =>
    cases hj : numberOf b with
    | none =>
      rw [hi] at hri
      rw [hj] at hrj
      rw [run_bind_ok hri]
      exact run_bind_thrown hrj
    | some j => simp [hi, hj] at hc

theorem compared_isSome {vs : List Str} (hs : Sortable flags vs) {a b : Str} (ha : a ∈ vs)
    (hb : b ∈ vs) : compared flags a b ≠ none := by
  rw [compared]
  split_ifs with hlex
  · exact Option.some_ne_none _
  · rcases hs with hs | hs
    · exact absurd hs hlex
    · obtain ⟨i, hi⟩ := Option.ne_none_iff_exists'.mp (hs a ha)
      obtain ⟨j, hj⟩ := Option.ne_none_iff_exists'.mp (hs b hb)
      simp [hi, hj]

theorem out_asymm {a b : Str} (h1 : Out flags a b) : ¬ Out flags b a := by
  rintro ⟨r2, hr2, ho2⟩
  obtain ⟨r1, hr1, ho1⟩ := h1
  have hneg : r2 = -r1 := by
    rw [compared] at hr1 hr2
    split_ifs at hr1 hr2
    · rw [← Option.some.inj hr1, ← Option.some.inj hr2, strcmp_swap]
    · obtain ⟨i, hi, hr1⟩ := Option.bind_eq_some_iff.mp hr1
      obtain ⟨j, hj, rfl⟩ := Option.map_eq_some_iff.mp hr1
      simp only [hi, hj, Option.bind_some, Option.map_some, Option.some.injEq] at hr2
      rw [← hr2]
      split_ifs <;> omega
  simp only [outOfOrder, Bool.or_eq_true, Bool.and_eq_true, decide_eq_true_eq, Bool.not_eq_true'] at ho1 ho2
  rcases ho1 with ⟨ha, h1⟩ | ⟨ha, h1⟩ <;> rcases ho2 with ⟨ha', h2⟩ | ⟨ha', h2⟩
  · omega
  · simp [ha] at ha'
  · simp [ha] at ha'
  · omega

theorem out_trans {a b c : Str} (hab : Out flags a b) (hbc : Out flags b c) : Out flags a c := by
  obtain ⟨r1, hr1, ho1⟩ := hab
  obtain ⟨r2, hr2, ho2⟩ := hbc
  rw [Out]
  simp only [outOfOrder, Bool.or_eq_true, Bool.and_eq_true, decide_eq_true_eq, Bool.not_eq_true'] at ho1 ho2 ⊢
  simp only [compared] at hr1 hr2 ⊢
  split_ifs at hr1 hr2 ⊢
  · refine ⟨_, rfl, ?_⟩
    rw [← Option.some.inj hr1] at ho1
    rw [← Option.some.inj hr2] at ho2
    rcases ho1 with ⟨ha, h1⟩ | ⟨ha, h1⟩ <;> rcases ho2 with ⟨ha', h2⟩ | ⟨ha', h2⟩
    · exact Or.inl ⟨ha, strcmp_pos_trans h1 h2⟩
    · simp [ha] at ha'
    · simp [ha] at ha'
    · refine Or.inr ⟨ha, ?_⟩
      rw [strcmp_swap] at h1 h2 ⊢
      have := strcmp_pos_trans (by omega : strcmp (cText c.text) (cText b.text) > 0)
        (by omega : strcmp (cText b.text) (cText a.text) > 0)
      omega
  · obtain ⟨i, hi, hr1⟩ := Option.bind_eq_some_iff.mp hr1
    obtain ⟨j, hj, rfl⟩ := Option.map_eq_some_iff.mp hr1
    rw [hj] at hr2
    obtain ⟨k, hk, rfl⟩ := Option.map_eq_some_iff.mp hr2
    refine ⟨_, by rw [hi, hk]; rfl, ?_⟩
    split_ifs at ho1 ho2 ⊢ <;> first | omega | grind

theorem follows_iff {vs : List Str} (hs : Sortable flags vs) {a b : Str} (ha : a ∈ vs) (hb : b ∈ vs) :
    Follows flags a b ↔ ¬ Out flags a b := by
  simp only [Follows, Out, outOfOrder, compared]
  split_ifs with hlex hasc hasc
  · simp [hasc]
  · simp [hasc]
  all_goals
    rcases hs with hs | hs
    · exact absurd hs hlex
    obtain ⟨i, hi⟩ := Option.ne_none_iff_exists'.mp (hs a ha)
    obtain ⟨j, hj⟩ := Option.ne_none_iff_exists'.mp (hs b hb)
    simp only [hi, hj, Option.bind_some, Option.map_some, Option.some.injEq, hasc]
    grind

/-- A path to the end does not come back to an entry. -/
theorem nodup_of_path {xs : Chain} (hp : Path h.entry xs none) : (addrs xs).Nodup := by
  induction xs with
  | nil => simp
  | cons x xs ih =>
    obtain ⟨a, v⟩ := x
    refine List.nodup_cons.mpr ⟨?_, ih hp.2⟩
    intro hmem
    obtain ⟨⟨b, w⟩, hbw, rfl⟩ := List.mem_map.mp hmem
    obtain ⟨us, vs, rfl⟩ := List.append_of_mem hbw
    -- the rest of the path from the second visit would be the whole path
    have hagain := (path_append.mp hp.2).2
    have heq := hp.unique hagain rfl
    have hlen := congrArg List.length heq
    simp at hlen
    omega

/-- The exchanges of one pass carry a value along the entries to the last one. -/
def carry (a : Addr) (v : Str) : Chain → Chain
  | [] => [(a, v)]
  | (b, w) :: ts => (a, w) :: carry b v ts

@[simp] theorem addrs_carry (a : Addr) (v : Str) (ts : Chain) : addrs (carry a v ts) = a :: addrs ts := by
  induction ts generalizing a with
  | nil => rfl
  | cons x ts ih =>
    obtain ⟨b, w⟩ := x
    simp [carry, ih]

@[simp] theorem values_carry (a : Addr) (v : Str) (ts : Chain) :
    values (carry a v ts) = values ts ++ [v] := by
  induction ts generalizing a with
  | nil => rfl
  | cons x ts ih =>
    obtain ⟨b, w⟩ := x
    simp [carry, ih]

@[simp] theorem first_carry (a : Addr) (v : Str) (ts : Chain) : first (carry a v ts) none = some a := by
  cases ts <;> rfl

theorem swapValues_run {a b : Addr} {x y : Cell Str} (hab : a ≠ b) (ha : h.entry a = some x)
    (hb : h.entry b = some y) :
    (swapValues a b).run h = .ok () { h with
      entry := Function.update (Function.update h.entry a (some { x with value := y.value })) b
        (some { y with value := x.value }) } := by
  simp [swapValues, ha, hb, Function.update_of_ne hab.symm]

theorem sameLinks_swap {a b : Addr} {x y : Cell Str} (hab : a ≠ b) (ha : h.entry a = some x)
    (hb : h.entry b = some y) (v w : Str) :
    SameLinks h { h with
      entry := Function.update (Function.update h.entry a (some { x with value := v })) b
        (some { y with value := w }) } := by
  refine ⟨rfl, rfl, fun c => ?_⟩
  by_cases hcb : c = b
  · simp [hcb, hb]
  · by_cases hca : c = a
    · simp [hca, Function.update_of_ne hab, ha]
    · simp [Function.update_of_ne hcb, Function.update_of_ne hca]

/-- A pass with a pair that is out of order. -/
theorem loop_sort_out {s1 s2 : Str} (hw1 : s1.WF) (hw2 : s2.WF) (ho : Out flags s1 s2) (ts : Chain)
    (a : Addr) (v : Str) (h : Heap) (fuel : Nat) (found : Bool)
    (hp : Path h.entry ((a, v) :: ts) none) (hf : ts.length < fuel) :
    ∃ h', (loop (sortStep flags s1 s2) fuel (some a, first ts none, found)).run h =
        .ok (found || ts ≠ []) h' ∧ Path h'.entry (carry a v ts) none ∧ SameLinks h h' ∧
      ∀ x ∉ a :: addrs ts, h'.entry x = h.entry x := by
  induction ts generalizing a v h fuel found with
  | nil =>
    obtain ⟨fuel, rfl⟩ : ∃ n, fuel = n + 1 := ⟨fuel - 1, by simp at hf; omega⟩
    refine ⟨h, run_loop_inr ?_, hp, SameLinks.refl h, fun _ _ => rfl⟩
    simp [sortStep]
  | cons y ts ih =>
    obtain ⟨b, w⟩ := y
    obtain ⟨fuel, rfl⟩ : ∃ n, fuel = n + 1 := ⟨fuel - 1, by simp at hf; omega⟩
    obtain ⟨rc, hrc, hout⟩ := ho
    have hn := nodup_of_path hp
    simp only [addrs_cons, List.nodup_cons, List.mem_cons, not_or] at hn
    obtain ⟨⟨hab, hats⟩, hbts, -⟩ := hn
    obtain ⟨⟨p, ha⟩, ⟨q, hb⟩, hts⟩ := hp
    -- the values of the two entries change places, the links stay
    let h1 : Heap := { h with
      entry := Function.update (Function.update h.entry a (some ⟨w, some b, p⟩)) b
        (some ⟨v, first ts none, q⟩) }
    have hswap : (swapValues a b).run h = .ok () h1 := swapValues_run hab ha hb
    have ha1 : h1.entry a = some ⟨w, some b, p⟩ := by
      simp [h1, Function.update_of_ne hab]
    have hb1 : h1.entry b = some ⟨v, first ts none, q⟩ := by simp [h1]
    have hwhen : (swapWhen true a b found).run h = .ok true h1 := by
      rw [swapWhen, if_pos rfl, run_bind_ok hswap]
      rfl
    have hstep : (sortStep flags s1 s2 (some a, some b, found)).run h =
        .ok (.inl (some b, first ts none, true)) h1 := by
      rw [sortStep, run_bind_ok (sortCompare_ok hw1 hw2 hrc h), hout, run_bind_ok hwhen]
      simp [ha1, hb1]
    have hts1 : Path h1.entry ts none := by
      apply hts.frame
      intro x hx
      have hxa : x ≠ a := ne_of_mem_of_not_mem hx hats
      have hxb : x ≠ b := ne_of_mem_of_not_mem hx hbts
      simp [h1, Function.update_of_ne hxa, Function.update_of_ne hxb]
    obtain ⟨h', hrun, hpath, hlinks, hframe⟩ := ih b v h1 fuel true ⟨⟨q, hb1⟩, hts1⟩ (by simpa using hf)
    refine ⟨h', ?_, ⟨⟨p, ?_⟩, hpath⟩, (sameLinks_swap hab ha hb w v).trans hlinks, ?_⟩
    · rw [first_cons, run_loop_inl hstep, hrun]
      simp
    · rw [hframe a (by simp [hab, hats]), ha1, first_carry]
    · intro x hx
      simp only [addrs_cons, List.mem_cons, not_or] at hx
      rw [hframe x (by simp [hx])]
      simp [h1, Function.update_of_ne hx.1, Function.update_of_ne hx.2.1]

/-- A pass with a pair that is in order. -/
theorem loop_sort_in {s1 s2 : Str} (hw1 : s1.WF) (hw2 : s2.WF) {rc : Int}
    (hc : compared flags s1 s2 = some rc) (ho : outOfOrder flags rc = false) (ts : Chain)
    (a : Addr) (v : Str) (h : Heap) (fuel : Nat) (found : Bool)
    (hp : Path h.entry ((a, v) :: ts) none) (hf : ts.length < fuel) :
    (loop (sortStep flags s1 s2) fuel (some a, first ts none, found)).run h = .ok found h := by
  induction ts generalizing a v fuel with
  | nil =>
    obtain ⟨fuel, rfl⟩ : ∃ n, fuel = n + 1 := ⟨fuel - 1, by simp at hf; omega⟩
    exact run_loop_inr rfl
  | cons y ts ih =>
    obtain ⟨b, w⟩ := y
    obtain ⟨fuel, rfl⟩ : ∃ n, fuel = n + 1 := ⟨fuel - 1, by simp at hf; omega⟩
    obtain ⟨⟨p, ha⟩, hts⟩ := hp
    obtain ⟨q, hb⟩ := hts.1
    have hstep : (sortStep flags s1 s2 (some a, some b, found)).run h =
        .ok (.inl (some b, first ts none, found)) h := by
      rw [sortStep, run_bind_ok (sortCompare_ok hw1 hw2 hc h), ho, swapWhen, if_neg Bool.false_ne_true]
      simp [ha, hb]
    rw [first_cons, run_loop_inl hstep]
    exact ih b w fuel hts (by simpa using hf)

theorem Forward.length_le {l : Addr} {xs : Chain} (f : Forward h l xs) : xs.length ≤ h.fresh := by
  have hsub : addrs xs ⊆ List.range h.fresh := fun a ha => List.mem_range.mpr (f.below a ha)
  have hle := ((nodup_of_path f.path).subperm hsub).length_le
  simpa using hle

variable {l a b : Addr} {v w : Str} {ts : Chain}

theorem sortPass_out (f : Forward h l ((a, v) :: (b, w) :: ts)) (ho : Out flags v w) :
    ∃ h', (sortPass l flags ()).run h = .ok (.inl ()) h' ∧
      Forward h' l (carry a v ((b, w) :: ts)) ∧ SameLinks h h' := by
  obtain ⟨t, hlist⟩ := f.list
  obtain ⟨⟨p, ha⟩, ⟨q, hb⟩, -⟩ := id f.path
  have hlen := f.length_le
  obtain ⟨h', hrun, hpath, hlinks, -⟩ := loop_sort_out (f.wf v (by simp)) (f.wf w (by simp)) ho
    ((b, w) :: ts) a v h (h.fresh + 1) false f.path (by simp at hlen ⊢; omega)
  rw [first_cons] at hrun
  refine ⟨h', ?_, ⟨⟨t, ?_⟩, hpath, ?_, ?_⟩, hlinks⟩
  · simp only [sortPass, run_bind_loadList, hlist, first_cons, deref_some, run_bind_ret,
      run_bind_loadEntry, ha, hb, run_bind_get]
    rw [run_bind_ok hrun]
    rfl
  · rw [hlinks.list, hlist]
    simp [← length_addrs (carry a v _)]
  · rw [hlinks.fresh, addrs_carry]
    exact f.below
  · intro x hx
    apply f.wf x
    simp only [values_carry, values_cons, List.mem_append, List.mem_cons] at hx ⊢
    tauto

theorem sortPass_in (f : Forward h l ((a, v) :: (b, w) :: ts)) {rc : Int}
    (hc : compared flags v w = some rc) (ho : outOfOrder flags rc = false) :
    (sortPass l flags ()).run h = .ok (.inr ()) h := by
  obtain ⟨t, hlist⟩ := f.list
  obtain ⟨⟨p, ha⟩, ⟨q, hb⟩, -⟩ := id f.path
  have hlen := f.length_le
  have hrun := loop_sort_in (f.wf v (by simp)) (f.wf w (by simp)) hc ho
    ((b, w) :: ts) a v h (h.fresh + 1) false f.path (by simp at hlen ⊢; omega)
  simp only [sortPass, run_bind_loadList, hlist, first_cons, deref_some, run_bind_ret,
    run_bind_loadEntry, ha, hb, run_bind_get]
  rw [first_cons] at hrun
  rw [run_bind_ok hrun]
  rfl

theorem sortPass_thrown (f : Forward h l ((a, v) :: (b, w) :: ts)) (hc : compared flags v w = none) :
    (sortPass l flags ()).run h = .thrown h := by
  obtain ⟨t, hlist⟩ := f.list
  obtain ⟨⟨p, ha⟩, ⟨q, hb⟩, -⟩ := id f.path
  have hstep : (sortStep flags v w (some a, some b, false)).run h = .thrown h :=
    run_bind_thrown (sortCompare_thrown (f.wf v (by simp)) (f.wf w (by simp)) hc h)
  simp only [sortPass, run_bind_loadList, hlist, first_cons, deref_some, run_bind_ret,
    run_bind_loadEntry, ha, hb, run_bind_get]
  exact run_bind_thrown (run_loop_thrown hstep)

/-- How a run of the passes ends: `p` are the values that were moved behind the others, each out of
order with the next, and `b` is the first one that stays. -/
structure Settles (flags : UInt32) (list : Addr) (h h' : Heap) (xs ys : Chain) (p : List Str) (b : Str)
    (q : List Str) (o : Outcome Heap Unit) : Prop where
  forward : Forward h' list ys
  links : SameLinks h h'
  addrs : addrs ys = addrs xs
  values : values ys = b :: q ++ p
  ends : o = .ok () h' ∧ (∀ c ∈ (q ++ p).head?, ¬ Out flags b c) ∨
    o = .thrown h' ∧ ¬ Sortable flags (NcList.values ys)

/-- The passes stop: after the last value in `q` the next comparison is with a value that was moved
before, and by transitivity that one belongs behind. -/
theorem loop_sortPass (q : List Str) (b : Str) (p : List Str) (xs : Chain) (h : Heap) (fuel : Nat)
    (f : Forward h l xs) (hv : values xs = b :: q ++ p) (hlen : 2 ≤ xs.length)
    (hp : ∀ y ∈ p, Out flags y b) (hf : q.length < fuel) :
    ∃ h' ys p' b' q', b :: q = p' ++ b' :: q' ∧ (p' ++ [b']).IsChain (Out flags) ∧
      Settles flags l h h' xs ys (p ++ p') b' q' ((loop (sortPass l flags) fuel ()).run h) := by
  obtain ⟨fuel, rfl⟩ : ∃ n, fuel = n + 1 := ⟨fuel - 1, by omega⟩
  obtain ⟨⟨a1, v1⟩, ⟨a2, v2⟩, ts, rfl⟩ : ∃ x y ts, xs = x :: y :: ts := by
    match xs, hlen with
    | x :: y :: ts, _ => exact ⟨x, y, ts, rfl⟩
  obtain ⟨rfl, hrest⟩ : v1 = b ∧ v2 :: values ts = q ++ p := by simpa using hv
  cases hc : compared flags v1 v2 with
  | none =>
    refine ⟨h, _, [], v1, q, rfl, by simp, ⟨f, SameLinks.refl h, rfl, by simp [hrest], Or.inr ⟨?_, ?_⟩⟩⟩
    · exact run_loop_thrown (sortPass_thrown f hc)
    · intro hs
      exact compared_isSome hs (by simp) (by simp) hc
  | some rc =>
    cases ho : outOfOrder flags rc with
    | false =>
      refine ⟨h, _, [], v1, q, rfl, by simp, ⟨f, SameLinks.refl h, rfl, by simp [hrest], Or.inl ⟨?_, ?_⟩⟩⟩
      · exact run_loop_inr (sortPass_in f hc ho)
      · rw [List.append_nil, ← hrest]
        rintro c hcm ⟨rc', hrc', ho'⟩
        obtain rfl : v2 = c := by simpa using hcm
        rw [hc] at hrc'
        rw [Option.some.inj hrc', ho'] at ho
        exact absurd ho (by simp)
    | true =>
      have hout : Out flags v1 v2 := ⟨rc, hc, ho⟩
      cases q with
      | nil =>
        -- the value to compare with was moved before
        have hmem : v2 ∈ p := by
          rw [List.nil_append] at hrest
          rw [← hrest]
          exact List.mem_cons_self
        exact absurd hout (out_asymm (hp v2 hmem))
      | cons c q =>
        obtain ⟨rfl, hrest⟩ : v2 = c ∧ values ts = q ++ p := by simpa using hrest
        obtain ⟨h1, hpass, hf1, hl1⟩ := sortPass_out f hout
        obtain ⟨h', ys, p', b', q', hsplit, hchain, hset⟩ := loop_sortPass q v2 (p ++ [v1]) _ h1 fuel hf1
          (by simp [hrest]) (by rw [← length_addrs, addrs_carry]; simp)
          (by
            intro y hy
            rcases List.mem_append.mp hy with hy | hy
            · exact out_trans (hp y hy) hout
            · rw [List.mem_singleton.mp hy]
              exact hout)
          (by simpa using hf)
        refine ⟨h', ys, v1 :: p', b', q', by simp [hsplit], ?_, ?_⟩
        · rw [List.cons_append]
          cases p' with
          | nil =>
            obtain ⟨rfl, -⟩ : v2 = b' ∧ q = q' := by simpa using hsplit
            simpa using hout
          | cons u p' =>
            obtain ⟨rfl, -⟩ : v2 = u ∧ q = p' ++ b' :: q' := by simpa using hsplit
            exact List.isChain_cons_cons.mpr ⟨hout, hchain⟩
        · rw [run_loop_inl hpass]
          refine ⟨hset.forward, hl1.trans hset.links, ?_, ?_, ?_⟩
          · rw [hset.addrs, addrs_carry]
            rfl
          · simp [hset.values]
          · simpa using hset.ends

theorem listSort_short {xs : Chain} (f : Forward h l xs) (hlen : xs.length < 2) :
    (listSort l flags).run h = .ok () h := by
  obtain ⟨t, hlist⟩ := f.list
  simp only [listSort, run_bind_loadList, hlist]
  rw [if_pos hlen]
  rfl

theorem listSort_settles {xs : Chain} (flags : UInt32) (f : Forward h l xs) (hlen : 2 ≤ xs.length) :
    ∃ h' ys p b q, values xs = p ++ b :: q ∧ (p ++ [b]).IsChain (Out flags) ∧
      Settles flags l h h' xs ys p b q ((listSort l flags).run h) := by
  obtain ⟨t, hlist⟩ := f.list
  obtain ⟨b, q, hbq⟩ : ∃ b q, values xs = b :: q := by
    cases xs with
    | nil => simp at hlen
    | cons x xs => exact ⟨x.2, values xs, rfl⟩
  have hle := f.length_le
  have hq : q.length + 1 = xs.length := by simpa [values] using (congrArg List.length hbq).symm
  obtain ⟨h', ys, p', b', q', hsplit, hchain, hset⟩ := loop_sortPass q b [] xs h (h.fresh + 1) f
    (by simp [hbq]) hlen (by simp) (by omega)
  have hrun : (listSort l flags).run h = (loop (sortPass l flags) (h.fresh + 1) ()).run h := by
    simp only [listSort, run_bind_loadList, hlist]
    rw [if_neg (Nat.not_lt.mpr hlen)]
    rfl
  rw [← hrun] at hset
  exact ⟨h', ys, p', b', q', hbq.trans hsplit, hchain, hset⟩

/-- `list_sort` comes back with the same entries, linked as before, and the same values in some
order; it throws only on a value that is not a number. -/
theorem list_sort_permutes {xs : Chain} (f : Forward h l xs) (flags : UInt32) :
    ∃ h' ys, ((listSort l flags).run h = .ok () h' ∨
        (listSort l flags).run h = .thrown h' ∧ lexicographical flags = false ∧
          ∃ v ∈ values xs, numberOf v = none) ∧
      SameLinks h h' ∧ Forward h' l ys ∧ addrs ys = addrs xs ∧ (values ys).Perm (values xs) := by
  rcases Nat.lt_or_ge xs.length 2 with hlen | hlen
  · exact ⟨h, xs, Or.inl (listSort_short f hlen), SameLinks.refl h, f, rfl, List.Perm.refl _⟩
  · obtain ⟨h', ys, p, b, q, hsplit, -, hset⟩ := listSort_settles flags f hlen
    have hperm : (values ys).Perm (values xs) := by
      rw [hset.values, hsplit]
      exact List.perm_append_comm
    refine ⟨h', ys, ?_, hset.links, hset.forward, hset.addrs, hperm⟩
    rcases hset.ends with ⟨hok, -⟩ | ⟨hthrown, hs⟩
    · exact Or.inl hok
    · simp only [Sortable, not_or, not_forall, not_not, Bool.not_eq_true] at hs
      obtain ⟨hlex, v, hv, hnone⟩ := hs
      exact Or.inr ⟨hthrown, hlex, v, hperm.subset hv, hnone⟩

/-- A list at address 0 with three entries. -/
def three (u v w : WfStr) : Heap :=
  ⟨fun a => if a = 1 then some ⟨u.1, some 2, none⟩ else if a = 2 then some ⟨v.1, some 3, some 1⟩
      else if a = 3 then some ⟨w.1, none, some 2⟩ else none,
    fun l => if l = 0 then some ⟨3, some 1, some 3⟩ else none, 4⟩

def threeChain (u v w : WfStr) : Chain := [(1, u.1), (2, v.1), (3, w.1)]

theorem forward_three (u v w : WfStr) : Forward (three u v w) 0 (threeChain u v w) where
  list := ⟨_, rfl⟩
  path := ⟨⟨_, rfl⟩, ⟨_, rfl⟩, ⟨_, rfl⟩, trivial⟩
  below := by simp [three, threeChain]
  wf := by simp [threeChain, u.2, v.2, w.2]

/-- The list `3`, `2`, `1`. -/
def digits321 : Heap := three (ofText [51]) (ofText [50]) (ofText [49])

def digits321Chain : Chain := threeChain (ofText [51]) (ofText [50]) (ofText [49])

theorem list_sort_permutes_321 :
    ∃ h' ys, ((listSort 0 sortNumeric).run digits321 = .ok () h' ∨
        (listSort 0 sortNumeric).run digits321 = .thrown h' ∧ lexicographical sortNumeric = false ∧
          ∃ v ∈ values digits321Chain, numberOf v = none) ∧
      SameLinks digits321 h' ∧ Forward h' 0 ys ∧ addrs ys = [1, 2, 3] ∧
      (values ys).Perm (values digits321Chain) :=
  list_sort_permutes (forward_three (ofText [51]) (ofText [50]) (ofText [49])) sortNumeric

/-- The order that the flags ask for. -/
def InOrder (flags : UInt32) (vs : List Str) : Prop := vs.IsChain (Follows flags)

theorem inOrder_iff {vs ws : List Str} (hs : Sortable flags vs) (hsub : ws ⊆ vs) :
    InOrder flags ws ↔ ws.IsChain (fun a b => ¬ Out flags a b) := by
  induction ws with
  | nil => simp [InOrder]
  | cons a ws ih =>
    cases ws with
    | nil => simp [InOrder]
    | cons b ws =>
      have ih := ih (fun x hx => hsub (List.mem_cons_of_mem _ hx))
      rw [InOrder] at ih ⊢
      rw [List.isChain_cons_cons, List.isChain_cons_cons, ih,
        follows_iff hs (hsub (by simp)) (hsub (by simp))]

/-- A rotation that stops behind the first descents is in order in two cases only. -/
theorem isChain_rotated {α : Type} {R : α → α → Prop} {p q : List α} {b : α}
    (hfall : (p ++ [b]).IsChain R) (hstop : ∀ c ∈ (q ++ p).head?, ¬ R b c) :
    (b :: q ++ p).IsChain (fun x y => ¬ R x y) ↔ (p ++ b :: q).IsChain (fun x y => ¬ R x y) ∨
      ((p ++ b :: q).tail ++ (p ++ b :: q).take 1).IsChain (fun x y => ¬ R x y) := by
  match p with
  | [] =>
    simp only [List.append_nil, List.nil_append, List.tail_cons, List.take_succ_cons, List.take_zero]
      at hstop ⊢
    refine ⟨Or.inl, ?_⟩
    rintro (h | h)
    · exact h
    · refine List.isChain_cons.mpr ⟨hstop, (List.isChain_append.mp h).1⟩
  | [u] =>
    have hu : R u b := by simpa using hfall
    constructor
    · intro h
      exact Or.inr (by simpa using h)
    · rintro (h | h)
      · simp only [List.singleton_append, List.isChain_cons_cons] at h
        exact absurd hu h.1
      · simpa using h
  | u :: v :: p =>
    simp only [List.cons_append, List.isChain_cons_cons] at hfall
    constructor
    · intro h
      have hq := (List.isChain_append.mp h).2.1
      rw [List.isChain_cons_cons] at hq
      exact absurd hfall.1 hq.1
    · rintro (h | h)
      · simp only [List.cons_append, List.isChain_cons_cons] at h
        exact absurd hfall.1 h.1
      · have hrest := (List.isChain_append.mp h).1
        cases p with
        | nil =>
          simp only [List.cons_append, List.nil_append, List.tail_cons, List.isChain_cons_cons] at hrest
          simp only [List.nil_append, List.isChain_cons_cons] at hfall
          exact absurd hfall.2.1 hrest.1
        | cons w p =>
          simp only [List.cons_append, List.tail_cons, List.isChain_cons_cons] at hrest
          simp only [List.cons_append, List.isChain_cons_cons] at hfall
          exact absurd hfall.2.1 hrest.1

/-- `list_sort` succeeds, and it has sorted the list exactly if the values were in order before, or
were so but for the first one, which belongs to the end. -/
theorem list_sort_sorts_iff {xs : Chain} (f : Forward h l xs) (flags : UInt32)
    (hs : Sortable flags (values xs)) :
    ∃ h' ys, (listSort l flags).run h = .ok () h' ∧ Forward h' l ys ∧ (values ys).Perm (values xs) ∧
      (InOrder flags (values ys) ↔ InOrder flags (values xs) ∨
        InOrder flags ((values xs).tail ++ (values xs).take 1)) := by
  rcases Nat.lt_or_ge xs.length 2 with hlen | hlen
  · have hsorted : InOrder flags (values xs) := by
      match xs, hlen with
      | [], _ => simp [InOrder]
      | [_], _ => simp [InOrder, values]
    exact ⟨h, xs, listSort_short f hlen, f, List.Perm.refl _, by simp [hsorted]⟩
  · obtain ⟨h', ys, p, b, q, hsplit, hfall, hset⟩ := listSort_settles flags f hlen
    have hperm : (values ys).Perm (values xs) := by
      rw [hset.values, hsplit]
      exact List.perm_append_comm
    rcases hset.ends with ⟨hok, hstop⟩ | ⟨-, hno⟩
    · refine ⟨h', ys, hok, hset.forward, hperm, ?_⟩
      have hrot : (values xs).tail ++ (values xs).take 1 ⊆ values xs :=
        List.append_subset.mpr ⟨(List.tail_sublist _).subset, List.take_subset _ _⟩
      rw [inOrder_iff hs hperm.subset, inOrder_iff hs (List.Subset.refl _), inOrder_iff hs hrot,
        hset.values, hsplit]
      exact isChain_rotated hfall hstop
    · refine absurd ?_ hno
      rcases hs with hs | hs
      · exact Or.inl hs
      · exact Or.inr fun v hv => hs v (hperm.subset hv)

theorem list_sort_sorts_iff_312 :
    ∃ h' ys, (listSort 0 0).run (three (ofText [51]) (ofText [49]) (ofText [50])) = .ok () h' ∧
      Forward h' 0 ys ∧ InOrder 0 (values ys) := by
  obtain ⟨h', ys, hrun, hf, -, hiff⟩ := list_sort_sorts_iff
    (forward_three (ofText [51]) (ofText [49]) (ofText [50])) 0 (Or.inl (by decide))
  refine ⟨h', ys, hrun, hf, hiff.mpr (Or.inr ?_)⟩
  refine List.isChain_cons_cons.mpr ⟨?_, List.isChain_cons_cons.mpr ⟨?_, List.isChain_singleton _⟩⟩
  · exact (by decide : strcmp [49] [50] ≤ 0)
  · exact (by decide : strcmp [50] [51] ≤ 0)

/-- The list `3`, `2`, `1` is left as `1`, `3`, `2`. -/
theorem list_sort_321_unsorted :
    Sortable 0 (values digits321Chain) ∧
      ∃ h', (listSort 0 0).run digits321 = .ok () h' ∧
        Forward h' 0 (threeChain (ofText [49]) (ofText [51]) (ofText [50])) ∧
        ¬ InOrder 0 (values (threeChain (ofText [49]) (ofText [51]) (ofText [50]))) := by
  refine ⟨Or.inl (by decide), _, rfl, ⟨⟨_, rfl⟩, ⟨⟨_, rfl⟩, ⟨_, rfl⟩, ⟨_, rfl⟩, trivial⟩, ?_, ?_⟩, ?_⟩
  · exact (forward_three (ofText [49]) (ofText [51]) (ofText [50])).below
  · exact (forward_three (ofText [49]) (ofText [51]) (ofText [50])).wf
  · intro hsorted
    have hpair := (List.isChain_cons_cons.mp (List.isChain_cons_cons.mp hsorted).2).1
    exact absurd (show strcmp [51] [50] ≤ 0 from hpair) (by decide)

end NcList
