import NaturalC.NcHashCopy
import NaturalC.NcListLeaks

/-!
# No pair is lost

A table frees what it takes out of its buckets, and the lists that its functions make for themselves
are gone when these return. So in every run of calls on some tables, each entry in the heap is in a
bucket of one of the tables or on the list of the client.
-/
namespace NcHash

open Throwing Throwing.Act NcString Linked Accounts
open NcList hiding onHeap Op World exec execAll

/-- The entries that no list counts are not more than before, a list that is new is a bucket, and the
buckets stay. -/
structure Grows (s s' : Store) : Prop where
  bounded : Bounded s'.heap
  debt : s'.heap.debt ≤ s.heap.debt
  lists : ∀ l, (s'.heap.list l).isSome → (s.heap.list l).isSome ∨ ∃ i, s'.hash.bucket i = some l
  buckets : ∀ i l, s.hash.bucket i = some l → s'.hash.bucket i = some l

variable {α : Type} {s s' : Store} {c : Addr → Option Chain} {P : UInt8 → List (Bytes × Bytes)}

theorem Grows.refl (hb : Bounded s.heap) : Grows s s := ⟨hb, Int.le_refl _, fun _ hl => Or.inl hl, fun _ _ h => h⟩

theorem Grows.trans {s'' : Store} (hg : Grows s s') (hg' : Grows s' s'') : Grows s s'' := by
  refine ⟨hg'.bounded, Int.le_trans hg'.debt hg.debt, ?_, fun i l h => hg'.buckets i l (hg.buckets i l h)⟩
  intro l hl
  rcases hg'.lists l hl with hold | hnew
  · rcases hg.lists l hold with hold | ⟨i, hi⟩
    · exact Or.inl hold
    · exact Or.inr ⟨i, hg'.buckets i l hi⟩
  · exact Or.inr hnew

theorem Grows.of_costs {h : Heap} (hc : Costs 0 s.heap h) : Grows s { s with heap := h } :=
  ⟨hc.bounded, by have hd := hc.debt; dsimp only; omega, fun l hl => Or.inl (hc.lists l hl), fun _ _ h => h⟩

/-- The function leaves nothing behind. -/
def Plain (m : Act Store α) : Prop := ∀ s, Bounded s.heap → (m.run s).Leaves (Grows s)

theorem Plain.bind {β : Type} {m : Act Store α} {f : α → Act Store β} (hm : Plain m) (hf : ∀ a, Plain (f a)) :
    Plain (m >>= f) := by
  intro s hb
  apply leaves_bind (hm s hb) (fun _ ht => ht)
  intro a t _ ht
  exact (hf a t ht.bounded).imp fun u hu => ht.trans hu

theorem plain_pure (a : α) : Plain (pure a : Act Store α) := fun _ hb => Grows.refl hb

theorem plain_throwing : Plain (throwing : Act Store α) := fun _ hb => Grows.refl hb

theorem plain_get : Plain (get : Act Store Store) := fun _ hb => Grows.refl hb

theorem plain_deref (o : Option α) : Plain (deref o : Act Store α) := by
  intro s hb
  cases o with
  | none => trivial
  | some a => exact Grows.refl hb

theorem plain_onLocal {τ : Type} (m : Act τ α) (t : τ) : Plain (onLocal m t : Act Store (α × τ)) := by
  intro s hb
  apply (leaves_onLocal m t s).imp
  rintro _ rfl
  exact Grows.refl hb

theorem Plain.attempt {m : Act Store α} (hm : Plain m) : Plain (Act.attempt m) := fun s hb => leaves_attempt (hm s hb)

theorem plain_onHeap {m : Act Heap α} (hm : Keeps m) : Plain (onHeap m) := fun s hb =>
  leaves_zoom (hm s.heap hb) fun _ hc => Grows.of_costs hc

/-- Only the counter changes. -/
theorem plain_count (f : Nat → Nat) : Plain (modifyHash fun x => { x with count := f x.count }) := fun _ hb =>
  ⟨hb, Int.le_refl _, fun _ hl => Or.inl hl, fun _ _ h => h⟩

/-! ## The functions -/

theorem plain_hashFunction (key : Bytes) : Plain (hashFunction key) :=
  (plain_deref _).bind fun _ => plain_pure _

theorem keeps_strCmp (s1 : Str) (s2 : Bytes) : Keeps (strCmp s1 s2) := by
  apply (moves_deref _).keeps.bind
  intro mem
  apply (moves_deref _).keeps.bind
  intro t1
  exact (moves_deref _).keeps.bind fun _ => (moves_pure _).keeps

theorem keeps_searchBucket (bucket : Addr) (key : Bytes) : Keeps (searchBucket bucket key) := by
  apply (moves_loadList bucket).keeps.bind
  intro l
  apply moves_get.keeps.bind
  intro h
  apply Keeps.loop
  intro o
  cases o with
  | none => exact (moves_pure _).keeps
  | some cur =>
    apply (moves_loadEntry cur).keeps.bind
    intro e
    apply (keeps_strCmp e.value key).bind
    intro rc
    exact Keeps.ite (moves_pure _).keeps (moves_pure _).keeps

theorem plain_hashEntrySearch (key : Bytes) : Plain (hashEntrySearch key) := by
  apply (plain_hashFunction key).bind
  intro slot
  apply plain_get.bind
  intro s
  cases s.hash.bucket slot with
  | none => exact plain_throwing
  | some bucket =>
    apply (plain_onHeap (keeps_searchBucket bucket key)).bind
    intro found
    cases found with
    | none => exact plain_throwing
    | some ent => exact plain_pure _

theorem keeps_nextEntry (ent : Addr) : Keeps (nextEntry ent) :=
  (moves_loadEntry ent).keeps.bind fun _ => (moves_pure _).keeps

theorem plain_hashDelete (key : Bytes) : Plain (hashDelete key) := by
  apply (plain_hashEntrySearch key).attempt.bind
  intro found
  cases found with
  | none => exact plain_throwing
  | some x =>
    obtain ⟨bucket, ent⟩ := x
    have hboth : Keeps (do
        let n ← nextEntry ent
        let v ← deref n
        listEntryDelete bucket v
        listEntryDelete bucket ent) := by
      apply (keeps_nextEntry ent).bind
      intro n
      apply (moves_deref n).keeps.bind
      intro v
      exact (moves_listEntryDelete bucket v).keeps.bind fun _ => (moves_listEntryDelete bucket ent).keeps
    exact (plain_onHeap hboth).bind fun _ => plain_count fun n => n - 1

theorem plain_hashGet (dest : Str) (key : Bytes) : Plain (hashGet dest key) := by
  apply (plain_hashEntrySearch key).attempt.bind
  intro found
  cases found with
  | none => exact plain_throwing
  | some x =>
    obtain ⟨bucket, ent⟩ := x
    apply plain_onHeap
    apply (keeps_nextEntry ent).bind
    intro n
    apply (moves_deref n).keeps.bind
    intro v
    apply (moves_loadEntry v).keeps.bind
    intro e
    exact (keeps_onLocal _ _).bind fun _ => (moves_pure _).keeps

theorem keeps_onValue (a : Addr) (m : Act Str α) : Keeps (onValue a m) := by
  apply (moves_loadEntry a).keeps.bind
  intro e
  apply (keeps_onLocal m e.value).bind
  intro x
  exact (moves_modifyEntry a _).keeps.bind fun _ => (moves_pure _).keeps

/-- A bucket that is made belongs to the table at once. -/
theorem plain_hashBucket (slot : UInt8) : Plain (hashBucket slot) := by
  intro s hb
  rw [hashBucket, run_bind_get]
  cases hslot : s.hash.bucket slot with
  | some bucket => exact Grows.refl hb
  | none =>
    obtain ⟨h', hrun, hb', hdebt, hlists⟩ := listNew_debt hb
    dsimp only
    rw [run_bind_ok (run_onHeap_ok hrun)]
    refine ⟨hb', hdebt, ?_, ?_⟩
    · intro l hl
      rcases hlists l hl with rfl | hold
      · exact Or.inr ⟨slot, Function.update_self _ _ _⟩
      · exact Or.inl hold
    · intro i l hi
      have hne : i ≠ slot := by
        rintro rfl
        rw [hslot] at hi
        cases hi
      change Function.update s.hash.bucket slot (some s.heap.fresh) i = some l
      rw [Function.update_of_ne hne, hi]

theorem plain_hashSet (key : Bytes) (value : Str) : Plain (hashSet key value) := by
  apply (plain_hashFunction key).bind
  intro slot
  apply (plain_hashBucket slot).bind
  intro bucket
  apply (plain_onHeap (keeps_searchBucket bucket key)).bind
  intro found
  cases found with
  | some cur =>
    apply plain_onHeap
    apply (keeps_nextEntry cur).bind
    intro n
    exact (moves_deref n).keeps.bind fun v => keeps_onValue v _
  | none =>
    apply (plain_onLocal _ _).bind
    intro x
    apply (plain_onHeap (keeps_listPush bucket x.2)).bind
    intro _
    apply (plain_onHeap (keeps_listPush bucket value)).attempt.bind
    intro pushed
    cases pushed with
    | some _ => exact plain_count fun n => n + 1
    | none =>
      have hundo : Keeps (do
          let l ← loadList bucket
          let t ← deref l.tail
          listEntryDelete bucket t) := by
        apply (moves_loadList bucket).keeps.bind
        intro l
        exact (moves_deref l.tail).keeps.bind fun t => (moves_listEntryDelete bucket t).keeps
      exact (plain_onHeap hundo).bind fun _ => plain_throwing

theorem plain_hashKeyExists (key : Bytes) : Plain (hashKeyExists key) := by
  have hnew : Plain (strNew true true : Act Store Str) := fun s hb => Grows.refl hb
  apply hnew.bind
  intro dest
  exact (plain_hashGet dest key).attempt.bind fun _ => plain_pure _

/-! ## Buckets that are truncated or listed -/

/-- Every bucket of the table is a list. -/
theorem forBuckets_costs {h : Heap} (r : Rep h c) (hb : Bounded h) (bucket : UInt8 → Option Addr)
    (hlists : ∀ {i l}, bucket i = some l → (c l).isSome) (is : List UInt8) :
    ((forBuckets listTruncate bucket is).run h).Leaves (Costs 0 h) := by
  induction is generalizing h c with
  | nil => exact Costs.refl hb
  | cons i is ih =>
    simp only [forBuckets]
    cases hi : bucket i with
    | none => exact ih r hb hlists
    | some l =>
      obtain ⟨xs, hl⟩ := Option.isSome_iff_exists.mp (hlists hi)
      obtain ⟨h₁, htrunc, -, r₁⟩ := listTruncate_rep r hl
      have hc := (listTruncate_costs r hb hl).of_ok htrunc
      have hlists₁ : ∀ {j k}, bucket j = some k → (Function.update c l (some []) k).isSome := by
        intro j k hj
        by_cases hkl : k = l
        · subst hkl
          simp
        · rw [Function.update_of_ne hkl]
          exact hlists hj
      dsimp only
      rw [run_bind_ok htrunc]
      exact (ih r₁ hc.bounded hlists₁).imp fun _ ht => hc.trans ht

theorem hashTruncate_grows {B : UInt8 → List Bytes} (T : Tab out s c B) (hb : Bounded s.heap) :
    (hashTruncate.run s).Leaves (Grows s) := by
  have hlists : ∀ {i l}, s.hash.bucket i = some l → (c l).isSome := by
    intro i l hl
    obtain ⟨xs, hxs, -⟩ := T.chain hl
    simp [hxs]
  rw [hashTruncate, run_bind_get]
  have hheap : ((onHeap (forBuckets listTruncate s.hash.bucket slots)).run s).Leaves (Grows s) :=
    leaves_zoom (forBuckets_costs T.rep hb s.hash.bucket hlists slots) fun _ hc => Grows.of_costs hc
  apply leaves_bind hheap (fun _ ht => ht)
  intro _ t _ ht
  exact (plain_count (fun _ => 0) t ht.bounded).imp fun u hu => ht.trans hu

theorem keeps_forBuckets {visit : Addr → Act Heap Unit} (hvisit : ∀ l, Keeps (visit l)) (bucket : UInt8 → Option Addr)
    (is : List UInt8) : Keeps (forBuckets visit bucket is) := by
  induction is with
  | nil => exact (moves_pure ()).keeps
  | cons i is ih =>
    simp only [forBuckets]
    cases bucket i with
    | none => exact ih
    | some l => exact (hvisit l).bind fun _ => ih

theorem keeps_pairStep {pick : Addr → Act Heap Str} (hpick : ∀ ent, Keeps (pick ent)) (dest : Addr) (o : Option Addr) :
    Keeps (pairStep pick dest o) := by
  cases o with
  | none => exact (moves_pure _).keeps
  | some ent =>
    apply (hpick ent).bind
    intro value
    apply (keeps_listPush dest value).bind
    intro _
    apply (keeps_nextEntry ent).bind
    intro n
    apply (moves_deref n).keeps.bind
    intro v
    exact (keeps_nextEntry v).bind fun _ => (moves_pure _).keeps

/-- Listing one part of all pairs into a list. -/
theorem hashList_grows {pick : Addr → Act Heap Str} (hpick : ∀ ent, Keeps (pick ent)) (r : Rep s.heap c)
    (hb : Bounded s.heap) {dest : Addr} {xs : Chain} (hd : c dest = some xs) :
    ((hashList pick dest).run s).Leaves (Grows s) := by
  rw [hashList, run_bind_get]
  have hvisit : ∀ bucket, Keeps (do
      let l ← loadList bucket
      let h ← get
      loop (pairStep pick dest) (h.fresh + 1) l.head) := by
    intro bucket
    apply (moves_loadList bucket).keeps.bind
    intro l
    apply moves_get.keeps.bind
    intro h
    exact Keeps.loop (keeps_pairStep hpick dest) _ _
  exact leaves_zoom (listTruncate_then r hb hd (keeps_forBuckets hvisit s.hash.bucket slots)) fun _ hc =>
    Grows.of_costs hc

theorem keeps_entryValue (ent : Addr) : Keeps (entryValue ent) :=
  (moves_loadEntry ent).keeps.bind fun _ => (moves_pure _).keeps

theorem keeps_nextValue (ent : Addr) : Keeps (nextValue ent) := by
  apply (keeps_nextEntry ent).bind
  intro n
  exact (moves_deref n).keeps.bind fun v => keeps_entryValue v

theorem keeps_readList (list : Addr) : Keeps (readList list) := by
  apply (moves_loadList list).keeps.bind
  intro l
  apply moves_get.keeps.bind
  intro h
  apply Keeps.loop
  rintro ⟨o, ts⟩
  cases o with
  | none => exact (moves_pure _).keeps
  | some cur => exact (moves_loadEntry cur).keeps.bind fun _ => (moves_pure _).keeps

/-- The list of the values is gone when the call returns. -/
theorem hashValueExists_grows (T : PairTab s c P) (hb : Bounded s.heap) (value : CText) :
    ((hashValueExists (charArray value.1)).run s).Leaves (Grows s) := by
  obtain ⟨h₁, hnew, hnone, r₁⟩ := listNew_rep T.rep
  obtain ⟨hbucket, hout⟩ := fresh_apart T hnone
  have T₁ : PairTab { s with heap := h₁ } _ P := T.other hbucket ⟨h₁, s.hash⟩ rfl (fun he => absurd he hout) r₁
  obtain ⟨h, hrun, hb₁, hdebt, hlists⟩ := listNew_debt hb
  obtain rfl : h₁ = h := by
    have hsame := hnew.symm.trans hrun
    injection hsame
  obtain ⟨h₂, ys, hvalues, -, r₂⟩ := hashList_run picks_nextValue T₁ hbucket (Function.update_self _ _ _)
  have hg := (hashList_grows keeps_nextValue r₁ hb₁ (s := { s with heap := h₁ }) (Function.update_self _ _ _)).of_ok
    hvalues
  have hfind := listFind_rep r₂ (Function.update_self _ _ _) (cString_charArray value.1 value.2)
  rw [Function.update_idem] at r₂
  obtain ⟨h₃, hdestroy, -⟩ := listDestroy_rep r₂ (Function.update_self _ _ _)
  obtain ⟨hc, hgone⟩ := (listDestroy_costs r₂ hg.bounded (Function.update_self _ _ _)).of_ok hdestroy
  rw [hashValueExists, run_bind_ok (run_onHeap_ok hnew), hashGetValues, run_bind_ok hvalues,
    run_bind_ok (run_onHeap_ok hfind), run_bind_ok (run_onHeap_ok hdestroy)]
  have hdebt₂ := hg.debt
  have hdebt₃ := hc.debt
  refine ⟨hc.bounded, ?_, ?_, fun _ _ h => h⟩
  · dsimp only at hdebt₂ ⊢
    omega
  · intro l hl
    -- The only list that was new has gone again.
    have hne : l ≠ s.heap.fresh := by
      rintro rfl
      change (h₃.list s.heap.fresh).isSome at hl
      rw [hgone] at hl
      cases hl
    rcases hg.lists l (hc.lists l hl) with hold | hnew
    · rcases hlists l hold with he | hold
      · exact absurd he hne
      · exact Or.inl hold
    · exact Or.inr hnew

/-! ## Runs -/

theorem exec_grows (T : PairTab s c P) (hb : Bounded s.heap) (op : Op) : ((exec op).run s).Leaves (Grows s) := by
  obtain ⟨xs, hxs⟩ := Option.isSome_iff_exists.mp T.client
  cases op with
  | set key value => exact leaves_bind_pure _ (plain_hashSet _ _ s hb)
  | get dest key => exact ((plain_hashGet _ _).bind fun _ => plain_pure _) s hb
  | delete key => exact leaves_bind_pure _ (plain_hashDelete _ s hb)
  | truncate => exact leaves_bind_pure _ (hashTruncate_grows T hb)
  | keyExists key => exact ((plain_hashKeyExists _).bind fun _ => plain_pure _) s hb
  | valueExists value =>
    apply leaves_bind (hashValueExists_grows T hb value) (fun _ ht => ht)
    intro _ _ _ ht
    exact ht
  | getKeys =>
    apply leaves_bind (hashList_grows keeps_entryValue T.rep hb hxs) (fun _ ht => ht)
    intro _ t _ ht
    exact (((plain_onHeap (keeps_readList out)).bind fun _ => plain_pure _) t ht.bounded).imp fun u hu => ht.trans hu
  | getValues =>
    apply leaves_bind (hashList_grows keeps_nextValue T.rep hb hxs) (fun _ ht => ht)
    intro _ t _ ht
    exact (((plain_onHeap (keeps_readList out)).bind fun _ => plain_pure _) t ht.bounded).imp fun u hu => ht.trans hu

/-- Every list is a bucket or that of the client, and the lists count all entries. -/
structure TidyTables {ι : Type} (t : Tables ι) : Prop where
  bounded : Bounded t.heap
  debt : t.heap.debt ≤ 0
  lists : ∀ l, (t.heap.list l).isSome → l = out ∨ ∃ j i, (t.table j).bucket i = some l

variable {ι : Type} [DecidableEq ι] {t : Tables ι}

theorem TidyTables.step (A : TidyTables t) {i : ι} (hg : Grows ⟨t.heap, t.table i⟩ s') :
    TidyTables ⟨s'.heap, Function.update t.table i s'.hash⟩ := by
  refine ⟨hg.bounded, Int.le_trans hg.debt A.debt, fun l hl => ?_⟩
  dsimp only
  rcases hg.lists l hl with hold | ⟨b, hb⟩
  · rcases A.lists l hold with hout | ⟨j, b, hb⟩
    · exact Or.inl hout
    · by_cases hj : j = i
      · subst hj
        refine Or.inr ⟨j, b, ?_⟩
        rw [Function.update_self]
        exact hg.buckets b l hb
      · refine Or.inr ⟨j, b, ?_⟩
        rw [Function.update_of_ne hj]
        exact hb
  · refine Or.inr ⟨i, b, ?_⟩
    rw [Function.update_self]
    exact hb

omit [DecidableEq ι] in
theorem tidyTables_start : TidyTables (startTables : Tables ι) := by
  have hlist : ∀ l, (start.heap.list l).isSome → l = out := by
    intro l hl
    by_contra hne
    simp [start, hne] at hl
  refine ⟨⟨?_, ?_⟩, ?_, fun l hl => Or.inl (hlist l hl)⟩
  · intro a ha
    cases ha
  · intro l hl
    rw [hlist l hl]
    exact Nat.one_pos
  · change start.heap.debt ≤ 0
    decide +kernel

/-- The tables hold some pairs each, in lists that are all there are. -/
def Whole (t : Tables ι) : Prop :=
  ∃ c Q, Apart t c Q ∧ Rep t.heap c ∧ (c out).isSome

theorem leaves_and {σ : Type} {J K : σ → Prop} {o : Outcome σ α} (hj : o.Leaves J) (hk : o.Leaves K) :
    o.Leaves fun s => J s ∧ K s := by
  cases o with
  | ok a s => exact ⟨hj, hk⟩
  | thrown s => exact ⟨hj, hk⟩
  | halt e => trivial

theorem onTable_tidy (i : ι) (op : Op) (hw : Whole t) (ht : TidyTables t) :
    ((onTable i (exec op)).run t).Leaves fun t' => Whole t' ∧ TidyTables t' := by
  obtain ⟨c, Q, A, -⟩ := hw
  refine leaves_and ((A.onTable i op).imp ?_) (leaves_zoom (exec_grows (A.tab i) ht.bounded op) fun _ hg => ht.step hg)
  rintro t' ⟨c', ps, A'⟩
  exact ⟨c', _, A', (A'.tab i).rep, (A'.tab i).client⟩

/-- In every run of calls on some tables in one heap, whatever the keys and values are: each entry in the heap
is in a bucket of a table or on the list of the client, and there are no other lists. -/
theorem hash_runs_lose_nothing {calls : List (ι × Op)} {rs : List (Option Reply)}
    (hrun : (execTables calls).run startTables = .ok rs t) :
    ∃ c Q, Apart t c Q ∧ NothingLost t.heap c ∧ ∀ l, (c l).isSome ↔ l = out ∨ ∃ j i, (t.table j).bucket i = some l := by
  have hstart : Whole (startTables : Tables ι) := ⟨_, _, apart_start, tab_start.rep, tab_start.client⟩
  have hstep : ∀ x ∈ calls, ∀ u : Tables ι, Whole u ∧ TidyTables u →
      ((onTable x.1 (exec x.2)).run u).Leaves fun u' => Whole u' ∧ TidyTables u' :=
    fun x _ u hu => onTable_tidy x.1 x.2 hu.1 hu.2
  obtain ⟨⟨c, Q, A, r, hout⟩, htidy⟩ := attemptAll_invariant hstep ⟨hstart, tidyTables_start⟩ hrun
  refine ⟨c, Q, A, nothingLost_of_debt r htidy.bounded htidy.debt, fun l => ⟨?_, ?_⟩⟩
  · intro hl
    apply htidy.lists l
    rw [r.lists l]
    cases hc : c l with
    | none => simp [hc] at hl
    | some xs => rfl
  · rintro (rfl | ⟨j, i, hi⟩)
    · exact hout
    · obtain ⟨xs, hxs, -⟩ := (A.tab j).chain hi
      simp [hxs]

/-- Two tables, one of which gives back a pair and the other one all of its pairs. -/
theorem hash_runs_lose_nothing_two :
    ∃ t : Tables Bool, (execTables [(false, .set ab (ofText [120])), (true, .set ba (ofText [121])),
        (false, .set oneTwo (ofText [122])), (false, .delete ab), (false, .valueExists ab), (true, .truncate)]).run
          startTables =
        .ok [some .done, some .done, some .done, some .done, some (.flag false), some .done] t ∧
      ∃ c Q, Apart t c Q ∧ NothingLost t.heap c ∧
        ∀ l, (c l).isSome ↔ l = out ∨ ∃ j i, (t.table j).bucket i = some l := by
  have hvalue : ((execTables [(false, .set ab (ofText [120])), (true, .set ba (ofText [121])),
        (false, .set oneTwo (ofText [122])), (false, .delete ab), (false, .valueExists ab), (true, .truncate)]).run
          (startTables : Tables Bool)).value =
        some [some .done, some .done, some .done, some .done, some (.flag false), some .done] := by
    decide +kernel
  obtain ⟨t, hrun⟩ := Outcome.exists_of_value hvalue
  exact ⟨t, hrun, hash_runs_lose_nothing hrun⟩

end NcHash
