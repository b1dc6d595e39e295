import NaturalC.NcListSpec

/-!
# Runs of list operations and plain sequences

A client holds pointers to the lists it has created and calls the functions of
`list.c` on them in any order. Abstractly it has a collection of sequences of texts,
numbered in the order of creation. The run lemma says that the heap and the
collection stay in step for as long as no call hits one of the three places where the
code departs from sequences.
-/
namespace NcList

open Throwing Throwing.Act NcString Linked

structure World where
  heap : Heap
  /-- The pointers the client has got from `list_new`, oldest first. -/
  lists : List Addr

def World.empty : World := ⟨Heap.empty, []⟩

inductive Op where
  | new
  | push (i : Nat) (item : WfStr)
  | unshift (i : Nat) (value : WfStr)
  | pop (dest : WfStr) (i : Nat)
  | shift (dest : WfStr) (i : Nat)
  | get (dest : WfStr) (i offset : Nat)
  | entryDelete (i k : Nat)
  | cat (i : Nat) (value : CText)
  | fromChar (i : Nat) (args : List CText)
  | truncate (i : Nat)
  | reverse (i : Nat)
  | copy (dest src : Nat)
  | move (dest src : Nat)
  | merge (dest src : Nat)

inductive Reply where
  | done
  | text (t : Bytes)
  deriving DecidableEq, Repr

def onHeap {α : Type} (m : Act Heap α) : Act World α :=
  zoom World.heap (fun h w => { w with heap := h }) m

/-- The pointer in one of the client's variables. -/
def pointer (i : Nat) : Act World Addr := do
  let w ← get
  deref w.lists[i]?

/-- A client gets at an entry by following forward links from the head. -/
def walk : Nat → Option Addr → Act Heap Addr
  | 0, p => deref p
  | n + 1, p => do
    let a ← deref p
    let c ← loadEntry a
    walk n c.next

def deleteAt (l : Addr) (k : Nat) : Act Heap Unit := do
  let x ← loadList l
  let a ← walk k x.head
  listEntryDelete l a

/-- A call on the list in one variable. -/
def call {α : Type} (i : Nat) (m : Addr → Act Heap α) (reply : α → Reply) : Act World Reply := do
  let l ← pointer i
  let a ← onHeap (m l)
  pure (reply a)

/-- A call on the lists in two variables. -/
def call₂ (dest src : Nat) (m : Addr → Addr → Act Heap Unit) : Act World Reply := do
  let d ← pointer dest
  let s ← pointer src
  onHeap (m d s)
  pure .done

def exec : Op → Act World Reply
  | .new => do
    let l ← onHeap listNew
    let w ← get
    put { w with lists := w.lists ++ [l] }
    pure .done
  | .push i item => call i (fun l => listPush l item.1) (fun _ => .done)
  | .unshift i value => call i (fun l => listUnshift l value.1) (fun _ => .done)
  | .pop dest i => call i (fun l => listPop dest.1 l) (fun d => .text d.text)
  | .shift dest i => call i (fun l => listShift dest.1 l) (fun d => .text d.text)
  | .get dest i offset => call i (fun l => listGet dest.1 l offset) (fun d => .text d.text)
  | .entryDelete i k => call i (fun l => deleteAt l k) (fun _ => .done)
  | .cat i value => call i (fun l => listCat l (charArray value.1)) (fun _ => .done)
  | .fromChar i args =>
    call i (fun l => listFromChar l ((args.map Subtype.val).map charArray)) (fun _ => .done)
  | .truncate i => call i listTruncate (fun _ => .done)
  | .reverse i => call i listReverse (fun _ => .done)
  | .copy dest src => call₂ dest src listCopy
  | .move dest src => call₂ dest src listMove
  | .merge dest src => call₂ dest src listMerge

/-- A run of calls; a call that fails is noted with `none` and the client goes on. -/
def execAll (ops : List Op) : Act World (List (Option Reply)) := attemptAll exec ops

/-- The collection of sequences that a client has in mind. -/
abbrev Seqs := List (List Bytes)

/-- One operation on plain sequences, as the reply and the new collection; `none` when the
call is not one a client may make. `fits` says which `char *` texts are strings at all. -/
def specStep (fits : Bytes → Bool) (A : Seqs) : Op → Option (Option Reply × Seqs)
  | .new => some (some .done, A ++ [[]])
  | .push i item => A[i]?.map fun xs => (some .done, A.set i (xs ++ [item.1.text]))
  | .unshift i value => A[i]?.map fun xs => (some .done, A.set i (value.1.text :: xs))
  | .pop _ i => A[i]?.map fun xs => (xs.getLast?.map .text, A.set i xs.dropLast)
  | .shift _ i => A[i]?.map fun xs => (xs.head?.map .text, A.set i xs.tail)
  | .get _ i offset => A[i]?.map fun xs => (xs[offset]?.map .text, A)
  | .entryDelete i k => A[i]?.bind fun xs =>
    if k < xs.length then some (some .done, A.set i (xs.eraseIdx k)) else none
  | .cat i value => A[i]?.map fun xs =>
    if fits value.1 then (some .done, A.set i (xs ++ [value.1])) else (none, A)
  | .fromChar i args => A[i]?.map fun _ =>
    (if (args.map Subtype.val).all fits then some .done else none,
      A.set i ((args.map Subtype.val).takeWhile fits))
  | .truncate i => A[i]?.map fun _ => (some .done, A.set i [])
  | .reverse i => A[i]?.map fun xs => (some .done, A.set i xs.reverse)
  | .copy d s => if d = s then none else
    A[d]?.bind fun _ => A[s]?.map fun ys => (some .done, A.set d ys)
  | .move d s => if d = s then none else
    A[d]?.bind fun _ => A[s]?.map fun ys => (some .done, (A.set d ys).set s [])
  | .merge d s => if d = s then none else
    A[d]?.bind fun xs => A[s]?.map fun ys => (some .done, (A.set d (xs ++ ys)).set s [])

def specAll (fits : Bytes → Bool) : List Op → Seqs → Option (List (Option Reply) × Seqs)
  | [], A => some ([], A)
  | op :: ops, A => do
    let (r, B) ← specStep fits A op
    let (rs, C) ← specAll fits ops B
    pure (r :: rs, C)

/-- Every list of the client is a doubly linked chain from head to tail of the right length,
no two share an entry, and their texts are the given sequences. -/
def Refines (w : World) (A : Seqs) : Prop :=
  ∃ c, Rep w.heap c ∧ w.lists.Nodup ∧ w.lists.map (fun l => (c l).map texts) = A.map some

/-- A `list_get` inside of the list asks for a position that 32 bits can count. -/
def InReach (A : Seqs) : Op → Prop
  | .get _ i offset => ∀ xs, A[i]? = some xs → offset < xs.length → offset < 2 ^ 32
  | _ => True

/-- `list_unshift` and `list_merge` find their destination empty. -/
def DestEmpty (A : Seqs) : Op → Prop
  | .unshift i _ => ∀ xs, A[i]? = some xs → xs = []
  | .merge d _ => ∀ xs, A[d]? = some xs → xs = []
  | _ => True

/-- Where the code follows sequences. -/
def Safe (A : Seqs) (op : Op) : Prop := InReach A op ∧ DestEmpty A op

/-- Every step of the run is taken from a collection in which `P` holds of it. -/
def Along (fits : Bytes → Bool) (P : Seqs → Op → Prop) : List Op → Seqs → Prop
  | [], _ => True
  | op :: ops, A => P A op ∧ ∀ r B, specStep fits A op = some (r, B) → Along fits P ops B

theorem Along.mono {fits : Bytes → Bool} {P Q : Seqs → Op → Prop} {ops : List Op} {A : Seqs}
    (h : Along fits P ops A) (hpq : ∀ op ∈ ops, ∀ A, P A op → Q A op) : Along fits Q ops A := by
  induction ops generalizing A with
  | nil => trivial
  | cons op ops ih =>
    refine ⟨hpq op (by simp) A h.1, ?_⟩
    intro r B hstep
    exact ih (h.2 r B hstep) (fun op' hop => hpq op' (List.mem_cons_of_mem _ hop))

theorem map_update_set {α β : Type} [DecidableEq α] {l : List α} (hn : l.Nodup) {i : Nat} {a : α}
    (hi : l[i]? = some a) (f : α → β) (b : β) :
    l.map (Function.update f a b) = (l.map f).set i b := by
  have hlt := (List.getElem?_eq_some_iff.mp hi).1
  apply List.ext_getElem?
  intro j
  rw [List.getElem?_map, List.getElem?_set, List.getElem?_map]
  by_cases hij : i = j
  · subst hij
    have ha : l[i] = a := (List.getElem?_eq_some_iff.mp hi).2
    simp [hlt, ha]
  · rw [if_neg hij]
    cases hj : l[j]? with
    | none => rfl
    | some x =>
      have hx : x ≠ a := by
        rintro rfl
        exact hij ((List.getElem?_inj hlt hn).mp (hi.trans hj.symm))
      simp [hx]

variable {w : World} {A B : Seqs} {c : Addr → Option Chain}

/-- The chain behind one sequence of the collection. -/
theorem chain_of (hmap : w.lists.map (fun l => (c l).map texts) = A.map some) {i : Nat}
    {xs : List Bytes} (hi : A[i]? = some xs) :
    ∃ l zs, w.lists[i]? = some l ∧ c l = some zs ∧ texts zs = xs := by
  have h := congrArg (fun k => k[i]?) hmap
  simp only [List.getElem?_map, hi, Option.map_some, Option.map_eq_some_iff] at h
  obtain ⟨l, hl, zs, hz, ht⟩ := h
  exact ⟨l, zs, hl, hz, ht⟩

/-- One list of the client was changed, in the heap and in the collection. -/
theorem refines_set (hn : w.lists.Nodup) (hmap : w.lists.map (fun l => (c l).map texts) = A.map some)
    {i : Nat} {l : Addr} (hl : w.lists[i]? = some l) {h' : Heap} {ys : Chain}
    (r : Rep h' (Function.update c l (some ys))) :
    Refines { w with heap := h' } (A.set i (texts ys)) := by
  refine ⟨_, r, hn, ?_⟩
  have hf : (fun k => (Function.update c l (some ys) k).map texts) =
      Function.update (fun k => (c k).map texts) l (some (texts ys)) := by
    funext k
    by_cases hk : k = l
    · subst hk
      simp
    · simp [hk]
  rw [hf, map_update_set hn hl, hmap, List.map_set]

theorem run_call_ok {α : Type} {i : Nat} {l : Addr} {m : Addr → Act Heap α} {reply : α → Reply}
    {a : α} {h' : Heap} (hl : w.lists[i]? = some l) (hm : (m l).run w.heap = .ok a h') :
    (call i m reply).run w = .ok (reply a) { w with heap := h' } := by
  have hz : (onHeap (m l)).run w = .ok a { w with heap := h' } := run_zoom_ok hm
  have hp : (pointer i).run w = .ok l w := by simp [pointer, hl]
  simp only [call]
  rw [run_bind_ok hp, run_bind_ok hz]
  rfl

theorem run_call_thrown {α : Type} {i : Nat} {l : Addr} {m : Addr → Act Heap α}
    {reply : α → Reply} {h' : Heap} (hl : w.lists[i]? = some l)
    (hm : (m l).run w.heap = .thrown h') :
    (call i m reply).run w = .thrown { w with heap := h' } := by
  have hz : (onHeap (m l)).run w = .thrown { w with heap := h' } := run_zoom_thrown hm
  have hp : (pointer i).run w = .ok l w := by simp [pointer, hl]
  simp only [call]
  rw [run_bind_ok hp, run_bind_thrown hz]

theorem run_call₂ {dest src : Nat} {d s : Addr} {m : Addr → Addr → Act Heap Unit} {h' : Heap}
    (hd : w.lists[dest]? = some d) (hs : w.lists[src]? = some s)
    (hm : (m d s).run w.heap = .ok () h') :
    (call₂ dest src m).run w = .ok .done { w with heap := h' } := by
  have hz : (onHeap (m d s)).run w = .ok () { w with heap := h' } := run_zoom_ok hm
  have hp : (pointer dest).run w = .ok d w := by simp [pointer, hd]
  have hq : (pointer src).run w = .ok s w := by simp [pointer, hs]
  simp only [call₂]
  rw [run_bind_ok hp, run_bind_ok hq, run_bind_ok hz]
  rfl

/-- Two variables of the client hold two different pointers. -/
theorem pointer_ne (hn : w.lists.Nodup) {i j : Nat} {a b : Addr} (hij : i ≠ j)
    (hi : w.lists[i]? = some a) (hj : w.lists[j]? = some b) : a ≠ b := by
  rintro rfl
  exact hij ((List.getElem?_inj (List.getElem?_eq_some_iff.mp hi).1 hn).mp (hi.trans hj.symm))

/-- Following `k` forward links from the head reaches the entry at position `k`. -/
theorem walk_path (us vs : Chain) (a : Addr) (v : Str) (h : Heap)
    (hp : Path h.entry (us ++ (a, v) :: vs) none) :
    (walk us.length (first (us ++ (a, v) :: vs) none)).run h = .ok a h := by
  induction us with
  | nil => rfl
  | cons x us ih =>
    obtain ⟨b, u⟩ := x
    obtain ⟨⟨p, hb⟩, hus⟩ := hp
    simp only [List.length_cons, List.cons_append, first_cons, walk, deref_some, run_bind_ret,
      run_bind_loadEntry, hb]
    exact ih hus

theorem deleteAt_rep {h : Heap} (r : Rep h c) {l a : Addr} {v : Str} {us vs : Chain}
    (hl : c l = some (us ++ (a, v) :: vs)) :
    ∃ h', (deleteAt l us.length).run h = .ok () h' ∧
      Rep h' (Function.update c l (some (us ++ vs))) := by
  obtain ⟨h', hdel, -, r'⟩ := listEntryDelete_rep r hl
  refine ⟨h', ?_, r'⟩
  simp only [deleteAt, run_bind_loadList, r.list_eq hl]
  rw [show (header (us ++ (a, v) :: vs)).head = first (us ++ (a, v) :: vs) none from rfl,
    run_bind_ok (walk_path us vs a v h (r.seg hl).path)]
  exact hdel

/-- A chain cut at a position of its sequence of texts. -/
theorem chain_cut {zs : Chain} {k : Nat} (hk : k < (texts zs).length) :
    ∃ us a v vs, zs = us ++ (a, v) :: vs ∧ us.length = k := by
  rw [length_texts] at hk
  refine ⟨zs.take k, zs[k].1, zs[k].2, zs.drop (k + 1), ?_, ?_⟩
  · rw [← List.drop_eq_getElem_cons hk, List.take_append_drop]
  · simp only [List.length_take]
    omega

/-- What the reply of the specification means for the outcome of the call. -/
def outcome (r : Option Reply) (w : World) : Outcome World Reply :=
  match r with
  | some a => .ok a w
  | none => .thrown w

/-- The call keeps the heap and the collection in step whenever it is safe to make. -/
def InStep (op : Op) : Prop :=
  ∀ {w : World} {A B : Seqs} {reply : Option Reply}, Refines w A → Safe A op →
    specStep fitsString A op = some (reply, B) →
    ∃ w', (exec op).run w = outcome reply w' ∧ Refines w' B

theorem inStep_new : InStep .new := by
  rintro w A B reply ⟨c, r, hn, hmap⟩ - hstep
  obtain ⟨h', hrun, hnone, r'⟩ := listNew_rep r
  cases hstep
  have hfresh : w.heap.fresh ∉ w.lists := by
    intro hin
    have hmem : (c w.heap.fresh).map texts ∈ A.map some := by
      rw [← hmap]
      exact List.mem_map_of_mem hin
    rw [hnone] at hmem
    simp at hmem
  refine ⟨⟨h', w.lists ++ [w.heap.fresh]⟩, ?_, _, r', ?_, ?_⟩
  · have hz : (onHeap listNew).run w = .ok w.heap.fresh { w with heap := h' } := run_zoom_ok hrun
    simp only [exec]
    rw [run_bind_ok hz]
    rfl
  · rw [List.nodup_append]
    refine ⟨hn, by simp, ?_⟩
    intro a ha b hb
    rw [List.mem_singleton.mp hb]
    exact ne_of_mem_of_not_mem ha hfresh
  · have hold : w.lists.map (fun l => (Function.update c w.heap.fresh (some []) l).map texts) =
        w.lists.map (fun l => (c l).map texts) := by
      apply List.map_congr_left
      intro l hl
      rw [Function.update_of_ne (ne_of_mem_of_not_mem hl hfresh)]
    rw [List.map_append, hold, hmap]
    simp

theorem inStep_push (i : Nat) (item : WfStr) : InStep (.push i item) := by
  rintro w A B reply ⟨c, r, hn, hmap⟩ - hstep
  obtain ⟨xs, hi, he⟩ := Option.map_eq_some_iff.mp hstep
  cases he
  obtain ⟨l, zs, hl, hz, rfl⟩ := chain_of hmap hi
  obtain ⟨h', str, hrun, ⟨hstr, -⟩, -, r'⟩ := listPush_rep r hz item.2
  refine ⟨_, run_call_ok hl hrun, ?_⟩
  simpa [hstr.text] using refines_set hn hmap hl r'

theorem inStep_unshift (i : Nat) (value : WfStr) : InStep (.unshift i value) := by
  rintro w A B reply ⟨c, r, hn, hmap⟩ hsafe hstep
  obtain ⟨xs, hi, he⟩ := Option.map_eq_some_iff.mp hstep
  cases he
  obtain ⟨l, zs, hl, hz, rfl⟩ := chain_of hmap hi
  have hnil : zs = [] := by simpa [texts] using hsafe.2 _ hi
  subst hnil
  obtain ⟨h', str, hrun, hstr, r'⟩ := listUnshift_nil_rep r hz value.2
  refine ⟨_, run_call_ok hl hrun, ?_⟩
  simpa [hstr.text] using refines_set hn hmap hl r'

theorem inStep_pop (dest : WfStr) (i : Nat) : InStep (.pop dest i) := by
  rintro w A B reply ⟨c, r, hn, hmap⟩ - hstep
  obtain ⟨xs, hi, he⟩ := Option.map_eq_some_iff.mp hstep
  cases he
  obtain ⟨l, zs, hl, hz, rfl⟩ := chain_of hmap hi
  rcases List.eq_nil_or_concat zs with rfl | ⟨us, ⟨a, v⟩, rfl⟩
  · have r' : Rep w.heap (Function.update c l (some [])) := by
      rw [← hz, Function.update_eq_self]
      exact r
    exact ⟨_, run_call_thrown hl (listPop_nil r hz dest.1), refines_set hn hmap hl r'⟩
  · rw [List.concat_eq_append] at *
    obtain ⟨h', d, hrun, hd, r'⟩ := listPop_rep r hz dest.2
    refine ⟨{ w with heap := h' }, ?_, by simpa using refines_set hn hmap hl r'⟩
    rw [exec, run_call_ok hl hrun]
    simp [outcome, hd.text]

theorem inStep_shift (dest : WfStr) (i : Nat) : InStep (.shift dest i) := by
  rintro w A B reply ⟨c, r, hn, hmap⟩ - hstep
  obtain ⟨xs, hi, he⟩ := Option.map_eq_some_iff.mp hstep
  cases he
  obtain ⟨l, zs, hl, hz, rfl⟩ := chain_of hmap hi
  cases zs with
  | nil =>
    have r' : Rep w.heap (Function.update c l (some [])) := by
      rw [← hz, Function.update_eq_self]
      exact r
    exact ⟨_, run_call_thrown hl (listShift_nil r hz dest.1), refines_set hn hmap hl r'⟩
  | cons x vs =>
    obtain ⟨h', d, hrun, -, hd, r'⟩ := listShift_rep r hz dest.2
    refine ⟨{ w with heap := h' }, ?_, by simpa using refines_set hn hmap hl r'⟩
    rw [exec, run_call_ok hl hrun]
    simp [outcome, hd.text]

theorem inStep_get (dest : WfStr) (i offset : Nat) : InStep (.get dest i offset) := by
  rintro w A B reply ⟨c, r, hn, hmap⟩ hsafe hstep
  obtain ⟨xs, hi, he⟩ := Option.map_eq_some_iff.mp hstep
  cases he
  obtain ⟨l, zs, hl, hz, rfl⟩ := chain_of hmap hi
  refine ⟨w, ?_, c, r, hn, hmap⟩
  by_cases hlt : offset < (texts zs).length
  · have hmax := hsafe.1 _ hi hlt
    obtain ⟨us, a, v, vs, rfl, rfl⟩ := chain_cut hlt
    obtain ⟨d, hrun, hd⟩ := listGet_rep r hz hmax dest.2
    rw [exec, run_call_ok hl hrun]
    simp [outcome, hd.text]
  · have hge : zs.length ≤ offset := by simpa using hlt
    have hrun : (listGet dest.1 l offset).run w.heap = .thrown w.heap := by
      simp only [listGet]
      exact run_bind_thrown (listEntryGet_beyond r hz hge)
    rw [List.getElem?_eq_none (by simpa using hge)]
    exact run_call_thrown hl hrun

theorem inStep_entryDelete (i k : Nat) : InStep (.entryDelete i k) := by
  rintro w A B reply ⟨c, r, hn, hmap⟩ - hstep
  obtain ⟨xs, hi, he⟩ := Option.bind_eq_some_iff.mp hstep
  split at he
  · rename_i hk
    cases he
    obtain ⟨l, zs, hl, hz, rfl⟩ := chain_of hmap hi
    obtain ⟨us, a, v, vs, rfl, rfl⟩ := chain_cut hk
    obtain ⟨h', hrun, r'⟩ := deleteAt_rep r hz
    have herase : (texts (us ++ (a, v) :: vs)).eraseIdx us.length = texts (us ++ vs) := by
      rw [texts_append, List.eraseIdx_append_of_length_le (by simp)]
      simp
    rw [herase]
    exact ⟨_, run_call_ok hl hrun, refines_set hn hmap hl r'⟩
  · cases he

theorem inStep_cat (i : Nat) (value : CText) : InStep (.cat i value) := by
  rintro w A B reply ⟨c, r, hn, hmap⟩ - hstep
  obtain ⟨xs, hi, he⟩ := Option.map_eq_some_iff.mp hstep
  obtain ⟨l, zs, hl, hz, rfl⟩ := chain_of hmap hi
  obtain ⟨hok, hbig⟩ := listCat_rep r hz (cString_charArray value.1 value.2)
  by_cases hfit : value.1.length < stringMax
  · obtain ⟨h', str, hrun, ⟨hstr, -⟩, -, r'⟩ := hok hfit
    rw [if_pos (by simpa [fitsString] using hfit)] at he
    cases he
    refine ⟨_, run_call_ok hl hrun, ?_⟩
    simpa [hstr.text] using refines_set hn hmap hl r'
  · rw [if_neg (by simpa [fitsString] using hfit)] at he
    cases he
    exact ⟨w, run_call_thrown hl (hbig (Nat.le_of_not_lt hfit)), c, r, hn, hmap⟩

theorem inStep_fromChar (i : Nat) (args : List CText) : InStep (.fromChar i args) := by
  rintro w A B reply ⟨c, r, hn, hmap⟩ - hstep
  obtain ⟨xs, hi, he⟩ := Option.map_eq_some_iff.mp hstep
  cases he
  obtain ⟨l, zs, hl, hz, rfl⟩ := chain_of hmap hi
  obtain ⟨h₁, htrunc, -, r₁⟩ := listTruncate_rep r hz
  have hnul : ∀ t ∈ args.map Subtype.val, NulFree t := by
    intro t ht
    obtain ⟨u, -, rfl⟩ := List.mem_map.mp ht
    exact u.2
  obtain ⟨h₂, ys, hall, hys, r₂⟩ := catAll_rep r₁ (Function.update_self _ _ _) _ hnul
  rw [Function.update_idem, List.nil_append] at r₂
  have hset := refines_set hn hmap hl r₂
  rw [hys] at hset
  refine ⟨{ w with heap := h₂ }, ?_, hset⟩
  have hrun : (listFromChar l ((args.map Subtype.val).map charArray)).run w.heap = _ :=
    (run_bind_ok htrunc).trans hall
  split at hrun
  · rename_i hfit
    rw [if_pos hfit]
    exact run_call_ok hl hrun
  · rename_i hfit
    rw [if_neg hfit]
    exact run_call_thrown hl hrun

theorem inStep_truncate (i : Nat) : InStep (.truncate i) := by
  rintro w A B reply ⟨c, r, hn, hmap⟩ - hstep
  obtain ⟨xs, hi, he⟩ := Option.map_eq_some_iff.mp hstep
  cases he
  obtain ⟨l, zs, hl, hz, rfl⟩ := chain_of hmap hi
  obtain ⟨h', hrun, -, r'⟩ := listTruncate_rep r hz
  exact ⟨_, run_call_ok hl hrun, refines_set hn hmap hl r'⟩

theorem inStep_reverse (i : Nat) : InStep (.reverse i) := by
  rintro w A B reply ⟨c, r, hn, hmap⟩ - hstep
  obtain ⟨xs, hi, he⟩ := Option.map_eq_some_iff.mp hstep
  cases he
  obtain ⟨l, zs, hl, hz, rfl⟩ := chain_of hmap hi
  obtain ⟨h', hrun, r'⟩ := listReverse_rep r hz
  exact ⟨_, run_call_ok hl hrun, by simpa using refines_set hn hmap hl r'⟩

/-- The two lists of a call that has two. -/
theorem chains_of {w : World} {A : Seqs} {c : Addr → Option Chain} (hn : w.lists.Nodup)
    (hmap : w.lists.map (fun l => (c l).map texts) = A.map some) {d s : Nat} {α : Type}
    {f : List Bytes → List Bytes → α} {x : α}
    (hstep : (if d = s then none else A[d]?.bind fun xs => A[s]?.map fun ys => f xs ys) = some x) :
    ∃ l k zs ws, (w.lists[d]? = some l ∧ w.lists[s]? = some k ∧ l ≠ k) ∧ c l = some zs ∧ c k = some ws ∧
      A[d]? = some (texts zs) ∧ f (texts zs) (texts ws) = x := by
  split at hstep
  · cases hstep
  · rename_i hds
    obtain ⟨xs, hd, hstep⟩ := Option.bind_eq_some_iff.mp hstep
    obtain ⟨ys, hs, hx⟩ := Option.map_eq_some_iff.mp hstep
    obtain ⟨l, zs, hl, hz, rfl⟩ := chain_of hmap hd
    obtain ⟨k, ws, hk, hw, rfl⟩ := chain_of hmap hs
    exact ⟨l, k, zs, ws, ⟨hl, hk, pointer_ne hn hds hl hk⟩, hz, hw, hd, hx⟩

theorem inStep_copy (d s : Nat) : InStep (.copy d s) := by
  rintro w A B reply ⟨c, r, hn, hmap⟩ - hstep
  obtain ⟨l, k, zs, ws, ⟨hl, hk, hne⟩, hz, hw, -, he⟩ := chains_of hn hmap hstep
  cases he
  obtain ⟨h', us, hrun, hus, r'⟩ := listCopy_rep r hne hz hw
  rw [← hus]
  exact ⟨_, run_call₂ hl hk hrun, refines_set hn hmap hl r'⟩

/-- After all entries went from one list to another, empty one. -/
theorem refines_hand_over {w : World} {A : Seqs} {c : Addr → Option Chain} (hn : w.lists.Nodup)
    (hmap : w.lists.map (fun l => (c l).map texts) = A.map some) {d s : Nat}
    {l k : Addr} (hl : w.lists[d]? = some l) (hk : w.lists[s]? = some k) {h' : Heap} {ys : Chain}
    (r : Rep h' (Function.update (Function.update c l (some ys)) k (some []))) :
    Refines { w with heap := h' } ((A.set d (texts ys)).set s []) := by
  have hmap' : w.lists.map (fun x => (Function.update c l (some ys) x).map texts) =
      (A.set d (texts ys)).map some := by
    have hf : (fun x => (Function.update c l (some ys) x).map texts) =
        Function.update (fun x => (c x).map texts) l (some (texts ys)) := by
      funext x
      by_cases hx : x = l
      · subst hx
        simp
      · simp [hx]
    rw [hf, map_update_set hn hl, hmap, List.map_set]
  exact refines_set hn hmap' hk r

theorem inStep_move (d s : Nat) : InStep (.move d s) := by
  rintro w A B reply ⟨c, r, hn, hmap⟩ - hstep
  obtain ⟨l, k, zs, ws, ⟨hl, hk, hne⟩, hz, hw, -, he⟩ := chains_of hn hmap hstep
  cases he
  obtain ⟨h', hrun, r'⟩ := listMove_rep r hne hz hw
  exact ⟨_, run_call₂ hl hk hrun, refines_hand_over hn hmap hl hk r'⟩

theorem inStep_merge (d s : Nat) : InStep (.merge d s) := by
  rintro w A B reply ⟨c, r, hn, hmap⟩ hsafe hstep
  obtain ⟨l, k, zs, ws, ⟨hl, hk, hne⟩, hz, hw, hd, he⟩ := chains_of hn hmap hstep
  cases he
  have hnil : zs = [] := by simpa [texts] using hsafe.2 _ hd
  subst hnil
  obtain ⟨h', hrun, r'⟩ := listMerge_rep r hne hz hw
  exact ⟨_, run_call₂ hl hk hrun, refines_hand_over hn hmap hl hk r'⟩

/-- A single safe call keeps the heap and the collection in step. -/
theorem exec_refines (op : Op) : InStep op := by
  cases op with
  | new => exact inStep_new
  | push i item => exact inStep_push i item
  | unshift i value => exact inStep_unshift i value
  | pop dest i => exact inStep_pop dest i
  | shift dest i => exact inStep_shift dest i
  | get dest i offset => exact inStep_get dest i offset
  | entryDelete i k => exact inStep_entryDelete i k
  | cat i value => exact inStep_cat i value
  | fromChar i args => exact inStep_fromChar i args
  | truncate i => exact inStep_truncate i
  | reverse i => exact inStep_reverse i
  | copy d s => exact inStep_copy d s
  | move d s => exact inStep_move d s
  | merge d s => exact inStep_merge d s

/-- Every safe run replies as the run on plain sequences does and ends in step with it. -/
theorem execAll_refines (ops : List Op) {w : World} {A B : Seqs} {rs : List (Option Reply)}
    (h : Refines w A) (hsafe : Along fitsString Safe ops A)
    (hspec : specAll fitsString ops A = some (rs, B)) :
    ∃ w', (execAll ops).run w = .ok rs w' ∧ Refines w' B := by
  induction ops generalizing w A rs with
  | nil =>
    cases hspec
    exact ⟨w, rfl, h⟩
  | cons op ops ih =>
    obtain ⟨⟨reply, C⟩, hstep, hrest⟩ := Option.bind_eq_some_iff.mp hspec
    obtain ⟨⟨rs', D⟩, hall, he⟩ := Option.bind_eq_some_iff.mp hrest
    cases he
    obtain ⟨w₁, hrun, h₁⟩ := exec_refines op h hsafe.1 hstep
    obtain ⟨w₂, hrun₂, h₂⟩ := ih h₁ (hsafe.2 _ _ hstep) hall
    refine ⟨w₂, run_attemptAll_cons ?_ hrun₂, h₂⟩
    cases reply with
    | none => exact run_attempt_thrown hrun
    | some a => exact run_attempt_ok hrun

theorem refines_empty : Refines World.empty [] :=
  ⟨fun _ => none, rep_empty, List.nodup_nil, rfl⟩

/-- Every call but `list_unshift` and `list_merge`, which do not link backwards. -/
def Op.linksBothWays : Op → Bool
  | .unshift _ _ => false
  | .merge _ _ => false
  | _ => true

/-- Any run of these calls on lists made by `list_new` is a run on plain sequences of texts. A
text that is too long for a string object is refused, which leaves the list as it was, and it
ends the arguments of `list_from_char`. -/
theorem list_runs_refine_sequences (ops : List Op) (hops : ∀ op ∈ ops, op.linksBothWays = true)
    (hreach : Along fitsString InReach ops []) (replies : List (Option Reply)) (A : Seqs)
    (hspec : specAll fitsString ops [] = some (replies, A)) :
    ∃ w, (execAll ops).run World.empty = .ok replies w ∧ Refines w A := by
  refine execAll_refines ops refines_empty (hreach.mono ?_) hspec
  intro op hop A hin
  refine ⟨hin, ?_⟩
  have hboth := hops op hop
  cases op with
  | unshift i value => cases hboth
  | merge d s => cases hboth
  | _ => trivial

/-- The one-byte strings of the examples below. -/
def letter (b : UInt8) : WfStr := ⟨⟨some [b, 0], 2, 1, true⟩, rfl, [], rfl, rfl⟩

theorem list_runs_refine_sequences_abc :
    ∃ w, (execAll [.new, .push 0 (letter 97), .push 0 (letter 98), .reverse 0,
        .get (letter 0) 0 1, .shift (letter 0) 0, .pop (letter 0) 0, .pop (letter 0) 0]).run
          World.empty =
        .ok [some .done, some .done, some .done, some .done, some (.text [97]), some (.text [98]),
          some (.text [97]), none] w ∧ Refines w [[]] :=
  list_runs_refine_sequences _ (by decide) (by simp [Along, InReach, specStep]) _ _ rfl

theorem nulFree_replicate (n : Nat) : NulFree (List.replicate n 97) := by
  simp [NulFree, List.mem_replicate]

/-- A text of `STRING_MAX` bytes. -/
def longText : CText := ⟨List.replicate stringMax 97, nulFree_replicate stringMax⟩

/-- Plain sequences take any text, but `list_cat` does not. -/
theorem list_cat_refuses_long_text :
    ¬ ∀ (ops : List Op) (replies : List (Option Reply)) (A : Seqs),
      (∀ op ∈ ops, op.linksBothWays = true) → specAll (fun _ => true) ops [] = some (replies, A) →
      ∃ w, (execAll ops).run World.empty = .ok replies w ∧ Refines w A := by
  intro h
  have hops : ∀ op ∈ [Op.new, .cat 0 longText], op.linksBothWays = true := by
    simp [Op.linksBothWays]
  obtain ⟨w, hrun, -⟩ := h [.new, .cat 0 longText] [some .done, some .done] [[longText.1]] hops rfl
  have hfits : fitsString longText.1 = false := by simp [fitsString, longText]
  have hspec : specAll fitsString [.new, .cat 0 longText] [] = some ([some .done, none], [[]]) := by
    simp [specAll, specStep, hfits]
  obtain ⟨w', hrun', -⟩ := execAll_refines _ refines_empty
    (by simp [Along, Safe, InReach, DestEmpty]) hspec
  rw [hrun] at hrun'
  simp at hrun'

end NcList
