import NaturalC.NcHash
import NaturalC.NcListSpec

/-!
# The table as buckets of texts

`Tab` ties a store to the texts in its 256 buckets. At this level a bucket is one flat
sequence, in which the search takes the first entry that compares equal to the key, be
it a key or a value. Each function of `hash.c` gets its lemma here; which entries are
keys is a matter of the modules above.
-/
namespace NcHash

open Throwing Throwing.Act NcString NcList Linked

/-- The bucket `i` of the table holds the texts `B i`, and `out` is a list of the client. -/
structure Tab (out : Addr) (s : Store) (c : Addr → Option Chain) (B : UInt8 → List Bytes) :
    Prop where
  rep : Rep s.heap c
  bucket : ∀ {i l}, s.hash.bucket i = some l → (c l).map texts = some (B i)
  missing : ∀ {i}, s.hash.bucket i = none → B i = []
  inj : ∀ {i j l}, s.hash.bucket i = some l → s.hash.bucket j = some l → i = j
  client : (c out).isSome
  apart : ∀ i, s.hash.bucket i ≠ some out

variable {α : Type} {out : Addr} {s : Store} {c : Addr → Option Chain} {B : UInt8 → List Bytes}

theorem run_onHeap_ok {m : Act Heap α} {a : α} {h : Heap} (hm : m.run s.heap = .ok a h) :
    (onHeap m).run s = .ok a { s with heap := h } := run_zoom_ok hm

theorem run_onHeap_thrown {m : Act Heap α} {h : Heap} (hm : m.run s.heap = .thrown h) :
    (onHeap m).run s = .thrown { s with heap := h } := run_zoom_thrown hm

theorem run_onHeap_halt {m : Act Heap α} {e : Halt} (hm : m.run s.heap = .halt e) :
    (onHeap m).run s = .halt e := by
  rw [onHeap, run_zoom, hm]

@[simp] theorem run_modifyHash (f : HashT → HashT) (s : Store) :
    (modifyHash f).run s = .ok () { s with hash := f s.hash } := rfl

theorem Tab.chain (T : Tab out s c B) {i : UInt8} {l : Addr} (hl : s.hash.bucket i = some l) :
    ∃ xs, c l = some xs ∧ texts xs = B i := Option.map_eq_some_iff.mp (T.bucket hl)

/-- The contents of one bucket change. -/
theorem Tab.replace (T : Tab out s c B) {i : UInt8} {l : Addr} (hl : s.hash.bucket i = some l)
    (s' : Store) (hb : s'.hash.bucket = s.hash.bucket) {ys : Chain}
    (r : Rep s'.heap (Function.update c l (some ys))) :
    Tab out s' (Function.update c l (some ys)) (Function.update B i (texts ys)) where
  rep := r
  bucket := by
    intro j k hk
    rw [hb] at hk
    by_cases hj : j = i
    · subst hj
      cases hl.symm.trans hk
      simp
    · have hkl : k ≠ l := by
        rintro rfl
        exact hj (T.inj hk hl)
      rw [Function.update_of_ne hkl, Function.update_of_ne hj]
      exact T.bucket hk
  missing := by
    intro j hj
    rw [hb] at hj
    have hji : j ≠ i := by
      rintro rfl
      simp [hl] at hj
    rw [Function.update_of_ne hji]
    exact T.missing hj
  inj := by
    rw [hb]
    exact T.inj
  client := by
    have hne : out ≠ l := by
      rintro rfl
      exact T.apart i hl
    rw [Function.update_of_ne hne]
    exact T.client
  apart := by
    rw [hb]
    exact T.apart

/-- A list that is no bucket changes. -/
theorem Tab.other (T : Tab out s c B) {l : Addr} (hl : ∀ i, s.hash.bucket i ≠ some l)
    (s' : Store) (hb : s'.hash = s.hash) {o : Option Chain} (ho : l = out → o.isSome)
    (r : Rep s'.heap (Function.update c l o)) : Tab out s' (Function.update c l o) B where
  rep := r
  bucket := by
    intro i k hk
    rw [hb] at hk
    have hkl : k ≠ l := by
      rintro rfl
      exact hl i hk
    rw [Function.update_of_ne hkl]
    exact T.bucket hk
  missing := by
    rw [hb]
    exact T.missing
  inj := by
    rw [hb]
    exact T.inj
  client := by
    by_cases hout : out = l
    · subst hout
      simpa using ho rfl
    · rw [Function.update_of_ne hout]
      exact T.client
  apart := by
    rw [hb]
    exact T.apart

/-- What a call on the table leaves alone: every list that is neither a bucket nor the client's. A new
bucket is a list that was not there before. -/
structure Local (out : Addr) (s s' : Store) (c c' : Addr → Option Chain) : Prop where
  same : ∀ l, l ≠ out → (c l).isSome → (∀ i, s.hash.bucket i ≠ some l) → c' l = c l
  fresh : ∀ i l, s'.hash.bucket i = some l → s.hash.bucket i = some l ∨ c l = none

theorem Local.rfl : Local out s s c c :=
  ⟨fun _ _ _ _ => Eq.refl _, fun _ _ h => Or.inl h⟩

/-- Changing one of the buckets is a matter of the table. -/
theorem Local.replace {s₁ s' : Store} {c₁ : Addr → Option Chain} (L : Local out s s₁ c c₁) {i : UInt8} {l : Addr}
    (hl : s₁.hash.bucket i = some l) (hb : s'.hash.bucket = s₁.hash.bucket) (o : Option Chain) :
    Local out s s' c (Function.update c₁ l o) where
  same := by
    intro k hout hk hno
    have hkl : k ≠ l := by
      rintro rfl
      rcases L.fresh i k hl with hold | hnone
      · exact hno i hold
      · rw [hnone] at hk
        cases hk
    rw [Function.update_of_ne hkl]
    exact L.same k hout hk hno
  fresh := by
    rw [hb]
    exact L.fresh

/-- So is a list that comes and goes. -/
theorem Local.other {l : Addr} (hl : l = out ∨ c l = none) (s' : Store) (hb : s'.hash = s.hash) (o : Option Chain) :
    Local out s s' c (Function.update c l o) where
  same := by
    intro k hout hk _
    have hkl : k ≠ l := by
      rintro rfl
      rcases hl with he | hnone
      · exact hout he
      · rw [hnone] at hk
        cases hk
    exact Function.update_of_ne hkl _ _
  fresh := by
    intro i k hk
    rw [hb] at hk
    exact Or.inl hk

theorem hashFunction_run {σ : Type} {key k : Bytes} (hk : cString key = some k) (st : σ) :
    (hashFunction key).run st = .ok (xorBytes k) st := by
  simp [hashFunction, hk]

/-- The search walks to the first entry that compares equal. -/
theorem loop_search {key k : Bytes} (hk : cString key = some k) (xs : Chain) (h : Heap)
    (fuel : Nat) (hp : Path h.entry xs none) (hw : ∀ x ∈ xs, x.2.WF) (hf : xs.length < fuel) :
    (loop (searchStep key) fuel (first xs none)).run h =
      .ok ((xs.find? fun x => cText x.2.text = k).map Prod.fst) h := by
  have hmiss : (searchStep key none).run h = .ok (.inr none) h := rfl
  have hstep : ∀ a c, h.entry a = some c → c.value.WF → (searchStep key (some a)).run h =
      .ok (if cText c.value.text = k then .inr (some a) else .inl c.next) h := by
    intro a c ha hc
    simp only [searchStep, run_bind_loadEntry, ha]
    exact run_strCmp_if hk hc _ _ h
  rw [loop_seek some hmiss hstep xs fuel hp hw hf]
  cases xs.find? fun x => cText x.2.text = k with
  | none => rfl
  | some x => rfl

theorem searchBucket_run {h : Heap} (r : Rep h c) {l : Addr} {xs : Chain} (hl : c l = some xs)
    {key k : Bytes} (hk : cString key = some k) :
    (searchBucket l key).run h = .ok ((xs.find? fun x => cText x.2.text = k).map Prod.fst) h := by
  simp only [searchBucket, run_bind_loadList, r.list_eq hl, run_bind_get, header]
  exact loop_search hk xs h _ (r.seg hl).path (fun x hx => r.wf hl x hx)
    (Nat.lt_succ_of_le (r.length_le hl))

/-- The chain below a cut of its texts. -/
theorem texts_cut {zs : Chain} {us vs : List Bytes} {t : Bytes} (h : texts zs = us ++ t :: vs) :
    ∃ xs a v ys, zs = xs ++ (a, v) :: ys ∧ texts xs = us ∧ v.text = t ∧ texts ys = vs := by
  obtain ⟨xs, rest, rfl, hxs, hrest⟩ := List.map_eq_append_iff.mp h
  obtain ⟨⟨a, v⟩, ys, rfl, hv, hys⟩ := List.map_eq_cons_iff.mp hrest
  exact ⟨xs, a, v, ys, rfl, hxs, hv, hys⟩

theorem find_none {xs : Chain} {k : Bytes} (h : ∀ t ∈ texts xs, cText t ≠ k) :
    (xs.find? fun x => cText x.2.text = k) = none := by
  rw [List.find?_eq_none]
  intro x hx
  simpa using h x.2.text (List.mem_map_of_mem hx)

theorem find_first {xs ys : Chain} {a : Addr} {v : Str} {k : Bytes}
    (hxs : ∀ t ∈ texts xs, cText t ≠ k) (hv : cText v.text = k) :
    ((xs ++ (a, v) :: ys).find? fun x => cText x.2.text = k) = some (a, v) := by
  rw [List.find?_append, find_none hxs]
  simp [hv]

/-- No entry of the bucket compares equal: the search fails. -/
theorem hashEntrySearch_absent (T : Tab out s c B) {key k : Bytes} (hk : cString key = some k)
    (habs : ∀ t ∈ B (xorBytes k), cText t ≠ k) : (hashEntrySearch key).run s = .thrown s := by
  simp only [hashEntrySearch]
  rw [run_bind_ok (hashFunction_run hk s), run_bind_get]
  cases hb : s.hash.bucket (xorBytes k) with
  | none => rfl
  | some l =>
    obtain ⟨xs, hl, htx⟩ := T.chain hb
    have hfind := searchBucket_run T.rep hl hk
    rw [find_none (by rwa [htx])] at hfind
    dsimp only
    rw [run_bind_ok (run_onHeap_ok hfind)]
    rfl

/-- The search returns the first entry that compares equal. -/
theorem hashEntrySearch_found (T : Tab out s c B) {key k t : Bytes} (hk : cString key = some k)
    {us vs : List Bytes} (hB : B (xorBytes k) = us ++ t :: vs) (hus : ∀ u ∈ us, cText u ≠ k)
    (ht : cText t = k) :
    ∃ l xs a v ys, s.hash.bucket (xorBytes k) = some l ∧ c l = some (xs ++ (a, v) :: ys) ∧
      texts xs = us ∧ v.text = t ∧ texts ys = vs ∧ (hashEntrySearch key).run s = .ok (l, a) s := by
  cases hb : s.hash.bucket (xorBytes k) with
  | none =>
    rw [T.missing hb] at hB
    simp at hB
  | some l =>
    obtain ⟨zs, hl, htx⟩ := T.chain hb
    obtain ⟨xs, a, v, ys, rfl, hxs, hv, hys⟩ := texts_cut (htx.trans hB)
    refine ⟨l, xs, a, v, ys, rfl, hl, hxs, hv, hys, ?_⟩
    have hfind := searchBucket_run T.rep hl hk
    rw [find_first (by rwa [hxs]) (by rwa [hv])] at hfind
    simp only [hashEntrySearch]
    rw [run_bind_ok (hashFunction_run hk s), run_bind_get, hb]
    dsimp only
    rw [run_bind_ok (run_onHeap_ok hfind)]
    rfl

@[simp] theorem run_bind_nextEntry (ent : Addr) (f : Option Addr → Act Heap α) (h : Heap) :
    (nextEntry ent >>= f).run h = match h.entry ent with
      | some e => (f e.next).run h
      | none => .halt .fault := by
  cases he : h.entry ent <;> simp [nextEntry, run_bind, he, loadEntry]

theorem hashGet_absent (T : Tab out s c B) {key k : Bytes} (hk : cString key = some k)
    (habs : ∀ t ∈ B (xorBytes k), cText t ≠ k) (dest : Str) :
    (hashGet dest key).run s = .thrown s := by
  simp only [hashGet]
  rw [run_bind_ok (run_attempt_thrown (hashEntrySearch_absent T hk habs))]
  rfl

/-- `hash_get` copies the entry behind the one that compares equal, and faults at the end of the
bucket. -/
theorem hashGet_found (T : Tab out s c B) {key k t : Bytes} (hk : cString key = some k)
    {us vs : List Bytes} (hB : B (xorBytes k) = us ++ t :: vs) (hus : ∀ u ∈ us, cText u ≠ k)
    (ht : cText t = k) {dest : Str} {old : Bytes} (hd : Holds dest old) :
    match vs with
    | [] => (hashGet dest key).run s = .halt .fault
    | w :: _ => ∃ d, (hashGet dest key).run s = .ok d s ∧ Holds d w := by
  obtain ⟨l, xs, a, v, ys, hb, hl, hxs, hv, hys, hrun⟩ := hashEntrySearch_found T hk hB hus ht
  have ha := (T.rep.seg hl).prev
  simp only [hashGet]
  rw [run_bind_ok (run_attempt_ok hrun)]
  dsimp only
  cases ys with
  | nil =>
    subst hys
    apply run_onHeap_halt
    simp [ha]
  | cons y ys =>
    obtain ⟨b, w⟩ := y
    subst hys
    have hl' : c l = some ((xs ++ [(a, v)]) ++ (b, w) :: ys) := by simpa using hl
    have hb' := (T.rep.seg hl').prev
    obtain ⟨d, hcopy, hd', -⟩ := strCopy_holds hd (T.rep.wf hl' (b, w) (by simp))
    refine ⟨d, run_onHeap_ok (h := s.heap) ?_, hd'⟩
    simp only [run_bind_nextEntry, ha, first_cons, deref_some, run_bind_ret, run_bind_loadEntry, hb']
    rw [run_bind_ok (run_onLocal_ok hcopy s.heap)]
    rfl

theorem hashDelete_absent (T : Tab out s c B) {key k : Bytes} (hk : cString key = some k)
    (habs : ∀ t ∈ B (xorBytes k), cText t ≠ k) : (hashDelete key).run s = .thrown s := by
  simp only [hashDelete]
  rw [run_bind_ok (run_attempt_thrown (hashEntrySearch_absent T hk habs))]
  rfl

/-- `hash_delete` takes out the entry that compares equal and the one behind it. -/
theorem hashDelete_found (T : Tab out s c B) {key k t : Bytes} (hk : cString key = some k)
    {us vs : List Bytes} (hB : B (xorBytes k) = us ++ t :: vs) (hus : ∀ u ∈ us, cText u ≠ k)
    (ht : cText t = k) :
    match vs with
    | [] => (hashDelete key).run s = .halt .fault
    | _ :: ws => ∃ s' c', (hashDelete key).run s = .ok () s' ∧
        Tab out s' c' (Function.update B (xorBytes k) (us ++ ws)) ∧
        s'.hash.count = s.hash.count - 1 ∧ Local out s s' c c' := by
  obtain ⟨l, xs, a, v, ys, hb, hl, hxs, hv, hys, hrun⟩ := hashEntrySearch_found T hk hB hus ht
  have ha := (T.rep.seg hl).prev
  simp only [hashDelete]
  rw [run_bind_ok (run_attempt_ok hrun)]
  dsimp only
  cases ys with
  | nil =>
    subst hys
    refine run_bind_halt (run_onHeap_halt ?_)
    simp [ha]
  | cons y ys =>
    obtain ⟨b, w⟩ := y
    subst hys hxs
    have hl' : c l = some ((xs ++ [(a, v)]) ++ (b, w) :: ys) := by simpa using hl
    obtain ⟨h₁, hdel₁, -, r₁⟩ := listEntryDelete_rep T.rep hl'
    have hl₁ : Function.update c l (some (xs ++ [(a, v)] ++ ys)) l = some (xs ++ (a, v) :: ys) := by
      simp
    obtain ⟨h₂, hdel₂, -, r₂⟩ := listEntryDelete_rep r₁ hl₁
    rw [Function.update_idem] at r₂
    have hboth : (nextEntry a >>= fun n => deref n >>= fun v => listEntryDelete l v >>= fun _ =>
        listEntryDelete l a).run s.heap = .ok () h₂ := by
      simp only [run_bind_nextEntry, ha, first_cons, deref_some, run_bind_ret]
      rw [run_bind_ok hdel₁, hdel₂]
    rw [run_bind_ok (run_onHeap_ok hboth)]
    have T' := T.replace hb ⟨h₂, ⟨s.hash.bucket, s.hash.count - 1⟩⟩ rfl r₂
    rw [texts_append] at T'
    exact ⟨_, _, rfl, T', rfl, Local.rfl.replace hb (by rfl) _⟩

/-- A slot without a bucket gets an empty list that was not there before. -/
theorem Tab.newBucket (T : Tab out s c B) {i : UInt8} (hb : s.hash.bucket i = none) {l : Addr}
    (hnone : c l = none) {h' : Heap} (r : Rep h' (Function.update c l (some []))) (count : Nat) :
    Tab out ⟨h', ⟨Function.update s.hash.bucket i (some l), count⟩⟩
      (Function.update c l (some [])) B := by
  have hnew : ∀ {j k}, s.hash.bucket j = some k → k ≠ l := by
    rintro j k hj rfl
    obtain ⟨xs, hk, -⟩ := T.chain hj
    rw [hnone] at hk
    cases hk
  have hout : out ≠ l := by
    rintro rfl
    simpa [hnone] using T.client
  have hsplit : ∀ {j k}, Function.update s.hash.bucket i (some l) j = some k →
      (j = i ∧ k = l) ∨ (j ≠ i ∧ s.hash.bucket j = some k) := by
    intro j k hj
    by_cases hji : j = i
    · subst hji
      rw [Function.update_self] at hj
      exact Or.inl ⟨rfl, (Option.some.inj hj).symm⟩
    · rw [Function.update_of_ne hji] at hj
      exact Or.inr ⟨hji, hj⟩
  constructor
  · exact r
  · intro j k hj
    obtain ⟨rfl, rfl⟩ | ⟨-, hold⟩ := hsplit hj
    · simp [T.missing hb]
    · rw [Function.update_of_ne (hnew hold)]
      exact T.bucket hold
  · intro j hj
    have hji : j ≠ i := by
      rintro rfl
      simp at hj
    dsimp only at hj
    rw [Function.update_of_ne hji] at hj
    exact T.missing hj
  · intro j k m hj hk
    obtain ⟨rfl, rfl⟩ | ⟨-, hj'⟩ := hsplit hj
    · obtain ⟨rfl, -⟩ | ⟨-, hk'⟩ := hsplit hk
      · rfl
      · exact absurd rfl (hnew hk')
    · obtain ⟨rfl, rfl⟩ | ⟨-, hk'⟩ := hsplit hk
      · exact absurd rfl (hnew hj')
      · exact T.inj hj' hk'
  · rw [Function.update_of_ne hout]
    exact T.client
  · intro j hj
    obtain ⟨-, he⟩ | ⟨-, hj⟩ := hsplit hj
    · exact hout he
    · exact T.apart j hj

/-- Making the bucket of a slot does not change what the table holds. -/
theorem hashBucket_tab (T : Tab out s c B) (i : UInt8) :
    ∃ s' c' l xs, (hashBucket i).run s = .ok l s' ∧ Tab out s' c' B ∧
      s'.hash.bucket i = some l ∧ s'.hash.count = s.hash.count ∧ c' l = some xs ∧
      texts xs = B i ∧ c' out = c out ∧ Local out s s' c c' := by
  cases hb : s.hash.bucket i with
  | some l =>
    obtain ⟨xs, hl, htx⟩ := T.chain hb
    refine ⟨s, c, l, xs, ?_, T, hb, rfl, hl, htx, rfl, Local.rfl⟩
    simp [hashBucket, hb]
  | none =>
    obtain ⟨h', hnew, hnone, r⟩ := listNew_rep T.rep
    have T' := T.newBucket hb hnone r s.hash.count
    have hout : out ≠ s.heap.fresh := by
      intro he
      have hclient := T.client
      rw [he, hnone] at hclient
      cases hclient
    refine ⟨_, _, s.heap.fresh, [], ?_, T', Function.update_self _ _ _, rfl, ?_, ?_,
      Function.update_of_ne hout _ _, ?_, ?_⟩
    · simp only [hashBucket, run_bind_get, hb]
      rw [run_bind_ok (run_onHeap_ok hnew)]
      rfl
    · exact Function.update_self _ _ _
    · exact (T.missing hb).symm
    · exact (Local.other (Or.inr hnone) s rfl _).same
    · intro j l hl
      by_cases hj : j = i
      · subst hj
        dsimp only at hl
        rw [Function.update_self] at hl
        cases hl
        exact Or.inr hnone
      · exact Or.inl ((Function.update_of_ne hj _ _).symm.trans hl)

/-- `hash_set` when no entry of the bucket compares equal to the key. -/
theorem hashSet_absent (T : Tab out s c B) {key k : Bytes} (hk : cString key = some k)
    (habs : ∀ t ∈ B (xorBytes k), cText t ≠ k) {value : Str} {text : Bytes}
    (hv : Holds value text) :
    (k.length < stringMax → ∃ s' c', (hashSet key value).run s = .ok () s' ∧
      Tab out s' c' (Function.update B (xorBytes k) (B (xorBytes k) ++ [k, text])) ∧
      s'.hash.count = s.hash.count + 1 ∧ c' out = c out ∧ Local out s s' c c') ∧
    (stringMax ≤ k.length → ∃ s' c', (hashSet key value).run s = .thrown s' ∧
      Tab out s' c' B ∧ s'.hash.count = s.hash.count ∧ Local out s s' c c') := by
  obtain ⟨s₁, c₁, l, xs, hbucket, T₁, hb₁, hcount, hl, htx, hout, hloc⟩ := hashBucket_tab T (xorBytes k)
  have hfind := searchBucket_run T₁.rep hl hk
  rw [find_none (by rwa [htx])] at hfind
  simp only [hashSet]
  rw [run_bind_ok (hashFunction_run hk s), run_bind_ok hbucket, run_bind_ok (run_onHeap_ok hfind)]
  dsimp only [Option.map_none]
  constructor
  · intro hfit
    obtain ⟨str, str', halias, hstr, hcopy⟩ := strAlias_copied emptyString hk hfit
    have hsame : listPush l str = listPush l str' := by
      simp only [listPush, listEntryNew, hcopy]
    obtain ⟨h₂, x, hpush, ⟨hx, -⟩, -, r₂⟩ := listPush_rep T₁.rep hl hstr
    obtain ⟨h₃, y, hpush', ⟨hy, -⟩, -, r₃⟩ := listPush_rep r₂ (Function.update_self _ _ _) hv
    rw [Function.update_idem] at r₃
    have hbucket' : s₁.hash.bucket (xorBytes k) = some l := hb₁
    have T' := T₁.replace hbucket' ⟨h₃, ⟨s₁.hash.bucket, s₁.hash.count + 1⟩⟩ rfl r₃
    rw [texts_append, texts_append, htx] at T'
    simp only [texts_cons, texts_nil, hx.text, hy.text, List.append_assoc, List.cons_append,
      List.nil_append] at T'
    have hne : out ≠ l := by
      rintro rfl
      exact T₁.apart _ hbucket'
    refine ⟨_, _, ?_, T', by rw [← hcount], (Function.update_of_ne hne _ _).trans hout,
      hloc.replace hbucket' (by rfl) _⟩
    rw [run_bind_ok (run_onLocal_ok halias _)]
    dsimp only
    rw [hsame, run_bind_ok (run_onHeap_ok hpush), run_bind_ok (run_attempt_ok (run_onHeap_ok hpush'))]
    rfl
  · intro hbig
    obtain ⟨str, halias⟩ := (strAlias_holds emptyString hk).2 hbig
    exact ⟨s₁, c₁, run_bind_thrown (run_onLocal_thrown halias _), T₁, hcount, hloc⟩

/-- `hash_set` when an entry compares equal: the entry behind it is written over. -/
theorem hashSet_found (T : Tab out s c B) {key k t : Bytes} (hk : cString key = some k)
    {us vs : List Bytes} (hB : B (xorBytes k) = us ++ t :: vs) (hus : ∀ u ∈ us, cText u ≠ k)
    (ht : cText t = k) {value : Str} {text : Bytes} (hv : Holds value text) :
    match vs with
    | [] => (hashSet key value).run s = .halt .fault
    | _ :: ws => ∃ s' c', (hashSet key value).run s = .ok () s' ∧
        Tab out s' c' (Function.update B (xorBytes k) (us ++ t :: text :: ws)) ∧
        s'.hash.count = s.hash.count ∧ c' out = c out ∧ Local out s s' c c' := by
  obtain ⟨s₁, c₁, l, zs, hbucket, T₁, hb₁, hcount, hl, htx, hout, hloc⟩ := hashBucket_tab T (xorBytes k)
  obtain ⟨xs, a, v, ys, rfl, hxs, hv', hys⟩ := texts_cut (htx.trans hB)
  have hfind := searchBucket_run T₁.rep hl hk
  rw [find_first (by rwa [hxs]) (by rwa [hv'])] at hfind
  have ha := (T₁.rep.seg hl).prev
  simp only [hashSet]
  rw [run_bind_ok (hashFunction_run hk s), run_bind_ok hbucket, run_bind_ok (run_onHeap_ok hfind)]
  dsimp only [Option.map_some]
  cases ys with
  | nil =>
    subst hys
    apply run_onHeap_halt
    simp [ha]
  | cons y ys =>
    obtain ⟨b, w⟩ := y
    subst hys hxs hv'
    have hl' : c₁ l = some ((xs ++ [(a, v)]) ++ (b, w) :: ys) := by simpa using hl
    obtain ⟨x, hset, hx, -⟩ := strCopy_holds (T₁.rep.wf hl' (b, w) (by simp)) hv
    obtain ⟨h₂, hcopy, -, r₂⟩ := onValue_rep T₁.rep hl' hset hx.wf
    have T' := T₁.replace hb₁ ⟨h₂, s₁.hash⟩ rfl r₂
    simp only [texts_append, texts_cons, hx.text, List.append_assoc, List.cons_append,
      List.nil_append] at T'
    have hne : out ≠ l := by
      rintro rfl
      exact T₁.apart _ hb₁
    refine ⟨_, _, run_onHeap_ok (h := h₂) ?_, T', hcount, (Function.update_of_ne hne _ _).trans hout,
      hloc.replace hb₁ (by rfl) _⟩
    simp only [run_bind_nextEntry, ha, first_cons, deref_some, run_bind_ret]
    exact hcopy

/-- Truncating the buckets one after the other. -/
theorem forBuckets_truncate {h : Heap} (r : Rep h c) (bucket : UInt8 → Option Addr)
    (hb : ∀ {i l}, bucket i = some l → (c l).isSome) (is : List UInt8) :
    ∃ h', (forBuckets listTruncate bucket is).run h = .ok () h' ∧
      Rep h' (fun l => if is.any (fun i => bucket i = some l) then some [] else c l) := by
  induction is generalizing h c with
  | nil => exact ⟨h, rfl, by simpa using r⟩
  | cons i is ih =>
    simp only [forBuckets]
    cases hi : bucket i with
    | none =>
      obtain ⟨h', hrun, r'⟩ := ih r hb
      refine ⟨h', hrun, ?_⟩
      simpa [hi] using r'
    | some l =>
      obtain ⟨xs, hl⟩ := Option.isSome_iff_exists.mp (hb hi)
      obtain ⟨h₁, htrunc, -, r₁⟩ := listTruncate_rep r hl
      have hb₁ : ∀ {j k}, bucket j = some k → (Function.update c l (some []) k).isSome := by
        intro j k hj
        by_cases hkl : k = l
        · subst hkl
          simp
        · rw [Function.update_of_ne hkl]
          exact hb hj
      obtain ⟨h', hrun, r'⟩ := ih r₁ hb₁
      refine ⟨h', ?_, ?_⟩
      · dsimp only
        rw [run_bind_ok htrunc, hrun]
      · have hsame : (fun k => if (i :: is).any (fun j => bucket j = some k) then some [] else c k) =
            fun k => if is.any (fun j => bucket j = some k) then some []
              else Function.update c l (some []) k := by
          funext k
          by_cases hkl : l = k
          · subst hkl
            simp [hi]
          · rw [Function.update_of_ne (Ne.symm hkl)]
            simp [hi, hkl]
        rw [hsame]
        exact r'

theorem mem_slots (i : UInt8) : i ∈ slots := by
  refine List.mem_map.mpr ⟨i.toNat, ?_, ?_⟩
  · exact List.mem_range.mpr i.toNat_lt
  · simp

theorem hashTruncate_tab (T : Tab out s c B) :
    ∃ s' c', hashTruncate.run s = .ok () s' ∧ Tab out s' c' (fun _ => []) ∧
      s'.hash.count = 0 ∧ Local out s s' c c' := by
  have hsome : ∀ {i l}, s.hash.bucket i = some l → (c l).isSome := by
    intro i l hl
    obtain ⟨xs, hxs, -⟩ := T.chain hl
    simp [hxs]
  obtain ⟨h', hrun, r⟩ := forBuckets_truncate T.rep s.hash.bucket hsome slots
  refine ⟨⟨h', ⟨s.hash.bucket, 0⟩⟩, _, ?_, ⟨r, ?_, fun _ => rfl, T.inj, ?_, T.apart⟩, rfl, ?_,
    fun i l hl => Or.inl hl⟩
  · simp only [hashTruncate, run_bind_get]
    rw [run_bind_ok (run_onHeap_ok hrun)]
    rfl
  · intro i l hl
    have hany : slots.any (fun i => s.hash.bucket i = some l) = true :=
      List.any_eq_true.mpr ⟨i, mem_slots i, by simpa using hl⟩
    simp [hany]
  · split
    · rfl
    · exact T.client
  · intro l _ _ hno
    have hany : slots.any (fun i => s.hash.bucket i = some l) = false :=
      List.any_eq_false.mpr fun i _ => by simpa using hno i
    simp [hany]

/-- Keys and values of a bucket in the order of its list. -/
def flat : List (Bytes × Bytes) → List Bytes
  | [] => []
  | (k, v) :: ps => k :: v :: flat ps

@[simp] theorem flat_nil : flat [] = [] := rfl
@[simp] theorem flat_cons (p : Bytes × Bytes) (ps : List (Bytes × Bytes)) :
    flat (p :: ps) = p.1 :: p.2 :: flat ps := rfl

@[simp] theorem flat_append (ps qs : List (Bytes × Bytes)) : flat (ps ++ qs) = flat ps ++ flat qs := by
  induction ps with
  | nil => rfl
  | cons p ps ih => simp [ih]

/-- One of the two parts of a pair. -/
def part {α : Type} (second : Bool) (p : α × α) : α := if second then p.2 else p.1

/-- `pick` reads the given part of the pair that starts at an entry. -/
def Picks (second : Bool) (pick : Addr → Act Heap Str) : Prop :=
  ∀ (h : Heap) (a b : Addr) (v w : Str) (p n q : Option Addr), h.entry a = some ⟨v, some b, p⟩ →
    h.entry b = some ⟨w, n, q⟩ → (pick a).run h = .ok (part second (v, w)) h

theorem picks_entryValue : Picks false entryValue := by
  intro h a b v w p n q ha hb
  simp [entryValue, ha, part]

theorem picks_nextValue : Picks true nextValue := by
  intro h a b v w p n q ha hb
  simp [nextValue, entryValue, ha, hb, part]

/-- The listing loop pushes its part of every pair that is still ahead of it. -/
theorem loop_pairs {second : Bool} {pick : Addr → Act Heap Str} (hpick : Picks second pick)
    {h : Heap} {dest src : Addr} (hne : dest ≠ src) (ps : List (Bytes × Bytes)) (r : Rep h c)
    {xs pre todo : Chain} (hd : c dest = some xs) (hs : c src = some (pre ++ todo))
    (hps : texts todo = flat ps) (fuel : Nat) (hf : todo.length < fuel) :
    ∃ h' ys, (loop (pairStep pick dest) fuel (first todo none)).run h = .ok () h' ∧
      texts ys = ps.map (part second) ∧ Rep h' (Function.update c dest (some (xs ++ ys))) := by
  induction ps generalizing h c xs pre todo fuel with
  | nil =>
    obtain rfl : todo = [] := by simpa [texts] using hps
    obtain ⟨fuel, rfl⟩ : ∃ k, fuel = k + 1 := ⟨fuel - 1, by simp at hf; omega⟩
    refine ⟨h, [], run_loop_inr rfl, rfl, ?_⟩
    rw [List.append_nil, ← hd, Function.update_eq_self]
    exact r
  | cons p ps ih =>
    obtain ⟨fuel, rfl⟩ : ∃ k, fuel = k + 1 := ⟨fuel - 1, by omega⟩
    obtain ⟨⟨a, v⟩, todo₁, rfl, hv, hrest⟩ := List.map_eq_cons_iff.mp hps
    obtain ⟨⟨b, w⟩, todo₂, rfl, hw, hrest⟩ := List.map_eq_cons_iff.mp hrest
    have hs' : c src = some (pre ++ [(a, v)] ++ (b, w) :: todo₂) := by simpa using hs
    have ha := (r.seg hs).prev
    have hb := (r.seg hs').prev
    have hpart : Holds (part second (v, w)) (part second p) := by
      have hv' := r.wf hs (a, v) (by simp)
      have hw' := r.wf hs (b, w) (by simp)
      rw [Str.WF, hv] at hv'
      rw [Str.WF, hw] at hw'
      cases second
      · exact hv'
      · exact hw'
    obtain ⟨h₁, str, hpush, ⟨hstr, -⟩, -, r₁⟩ := listPush_rep r hd hpart
    have hsrc : Function.update c dest (some (xs ++ [(h.fresh, str)])) src =
        some (pre ++ (a, v) :: (b, w) :: todo₂) := by
      rw [Function.update_of_ne (Ne.symm hne), hs]
    have hsrc' : Function.update c dest (some (xs ++ [(h.fresh, str)])) src =
        some (pre ++ [(a, v)] ++ (b, w) :: todo₂) := by simpa using hsrc
    have ha₁ := (r₁.seg hsrc).prev
    have hb₁ := (r₁.seg hsrc').prev
    have hstep : (pairStep pick dest (some a)).run h = .ok (.inl (first todo₂ none)) h₁ := by
      simp only [pairStep]
      rw [run_bind_ok (hpick h a b v w _ _ _ ha hb), run_bind_ok hpush]
      simp [ha₁, hb₁]
    obtain ⟨h₂, ys, hloop, hys, r₂⟩ := ih r₁ (Function.update_self _ _ _)
      (hsrc.trans (by rw [List.append_cons, List.append_cons])) hrest fuel (by simp at hf; omega)
    rw [Function.update_idem, List.append_assoc] at r₂
    refine ⟨h₂, (h.fresh, str) :: ys, ?_, by simp [hys, hstr.text], r₂⟩
    rw [first_cons, run_loop_inl hstep, hloop]

/-- The listing loop over some of the buckets. -/
theorem forBuckets_pairs {second : Bool} {pick : Addr → Act Heap Str} (hpick : Picks second pick)
    {h : Heap} {dest : Addr} (P : UInt8 → List (Bytes × Bytes)) (bucket : UInt8 → Option Addr)
    (hdest : ∀ i, bucket i ≠ some dest)
    (hb : ∀ {i l}, bucket i = some l → (c l).map texts = some (flat (P i)))
    (hnone : ∀ {i}, bucket i = none → flat (P i) = []) (is : List UInt8) (r : Rep h c)
    {xs : Chain} (hd : c dest = some xs) :
    ∃ h' ys, (forBuckets (fun b => do
        let l ← loadList b
        let h ← get
        loop (pairStep pick dest) (h.fresh + 1) l.head) bucket is).run h = .ok () h' ∧
      texts ys = is.flatMap (fun i => (P i).map (part second)) ∧
      Rep h' (Function.update c dest (some (xs ++ ys))) := by
  induction is generalizing h c xs with
  | nil =>
    refine ⟨h, [], rfl, rfl, ?_⟩
    rw [List.append_nil, ← hd, Function.update_eq_self]
    exact r
  | cons i is ih =>
    simp only [forBuckets]
    cases hi : bucket i with
    | none =>
      obtain ⟨h', ys, hrun, hys, r'⟩ := ih hb r hd
      have hPi : P i = [] := by
        have hflat := hnone hi
        cases hP : P i with
        | nil => rfl
        | cons p ps => simp [hP] at hflat
      exact ⟨h', ys, hrun, by simp [hys, hPi], r'⟩
    | some l =>
      have hne : dest ≠ l := by
        rintro rfl
        exact hdest i hi
      obtain ⟨zs, hl, hzs⟩ := Option.map_eq_some_iff.mp (hb hi)
      obtain ⟨h₁, ys₁, hloop, hys₁, r₁⟩ := loop_pairs hpick hne (P i) r hd
        (hl.trans (by rw [List.nil_append])) hzs (h.fresh + 1) (Nat.lt_succ_of_le (r.length_le hl))
      have hb₁ : ∀ {j k}, bucket j = some k →
          (Function.update c dest (some (xs ++ ys₁)) k).map texts = some (flat (P j)) := by
        intro j k hj
        have hkd : k ≠ dest := by
          rintro rfl
          exact hdest j hj
        rw [Function.update_of_ne hkd]
        exact hb hj
      obtain ⟨h₂, ys₂, hrun, hys₂, r₂⟩ := ih hb₁ r₁ (Function.update_self _ _ _)
      rw [Function.update_idem, List.append_assoc] at r₂
      refine ⟨h₂, ys₁ ++ ys₂, ?_, by simp [hys₁, hys₂], r₂⟩
      have hvisit : (loadList l >>= fun x => get >>= fun h =>
          loop (pairStep pick dest) (h.fresh + 1) x.head).run h = .ok () h₁ := by
        simp only [run_bind_loadList, r.list_eq hl, run_bind_get, header]
        exact hloop
      dsimp only
      rw [run_bind_ok hvisit, hrun]

/-- `hash_get_keys` and `hash_get_values`: only the destination changes. -/
theorem hashList_run {second : Bool} {pick : Addr → Act Heap Str} (hpick : Picks second pick)
    {P : UInt8 → List (Bytes × Bytes)} (T : Tab out s c (fun i => flat (P i))) {dest : Addr}
    (hdest : ∀ i, s.hash.bucket i ≠ some dest) {xs : Chain} (hd : c dest = some xs) :
    ∃ h' ys, (hashList pick dest).run s = .ok () { s with heap := h' } ∧
      texts ys = slots.flatMap (fun i => (P i).map (part second)) ∧
      Rep h' (Function.update c dest (some ys)) := by
  obtain ⟨h₁, htrunc, -, r₁⟩ := listTruncate_rep T.rep hd
  have hb : ∀ {i l}, s.hash.bucket i = some l →
      (Function.update c dest (some []) l).map texts = some (flat (P i)) := by
    intro i l hl
    have hld : l ≠ dest := by
      rintro rfl
      exact hdest i hl
    rw [Function.update_of_ne hld]
    exact T.bucket hl
  obtain ⟨h₂, ys, hrun, hys, r₂⟩ := forBuckets_pairs hpick P s.hash.bucket hdest hb T.missing
    slots r₁ (Function.update_self _ _ _)
  rw [Function.update_idem, List.nil_append] at r₂
  refine ⟨h₂, ys, ?_, hys, r₂⟩
  simp only [hashList, run_bind_get]
  apply run_onHeap_ok
  rw [run_bind_ok htrunc, hrun]

end NcHash
