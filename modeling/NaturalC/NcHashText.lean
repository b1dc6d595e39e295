import NaturalC.NcHashSpec
import NaturalC.NcSplit
import NaturalC.NcRegex
import NaturalC.NcStringSound

/-!
# Hash tables as text

`hash_serialize` writes a line `key: value` for every pair of a table, and `hash_deserialize`
reads such lines and calls `hash_set` for each of them. A value with newlines in it is
written with a backslash in front of its first newline, and a line with a backslash at its
end goes on with the next one.
-/
namespace NcHash

open Throwing Throwing.Act NcString NcList Linked Lines NcSplit Posix

/-- The value `ptr`, which `text` is read from, is added to `buf`. -/
def serializeValue (ptr : Str) (text : Bytes) (buf val : Str) : Act Heap (Str × Str) :=
  if 10 ∈ text then do
    let (_, val) ← onLocal (strCopy true ptr) val
    let (_, val) ← onLocal (strSubstRegex newline (charArray [92, 10])) val
    let (_, buf) ← onLocal (strAppend true val) buf
    pure (buf, val)
  else do
    let (_, buf) ← onLocal (strAppend true ptr) buf
    pure (buf, val)

/-- The loop of `hash_serialize` over one bucket: the entry, `buf`, `val` and the result. -/
def serializePair : Option Addr × Str × Str × Str →
    Act Heap ((Option Addr × Str × Str × Str) ⊕ (Str × Str × Str))
  | (none, buf, val, str) => pure (.inr (buf, val, str))
  | (some ent, buf, val, str) => do
    let ptr ← entryValue ent
    let mem ← deref ptr.value
    let key ← deref (cString mem)
    let (_, buf) ← onLocal (strSprintf (key ++ [58, 32])) buf
    let n ← nextEntry ent
    let ent ← deref n
    let ptr ← entryValue ent
    let mem ← deref ptr.value
    let text ← deref (cString mem)
    let (buf, val) ← serializeValue ptr text buf val
    let (_, buf) ← onLocal (strPutc true 10) buf
    let (_, str) ← onLocal (strAppend true buf) str
    let next ← nextEntry ent
    pure (.inl (next, buf, val, str))

/-- The loop of `hash_serialize` over the buckets. -/
def serializeBuckets (bucket : UInt8 → Option Addr) : List UInt8 → Str → Str → Str → Act Heap Str
  | [], _, _, str => pure str
  | i :: is, buf, val, str =>
    match bucket i with
    | none => serializeBuckets bucket is buf val str
    | some l => do
      let list ← loadList l
      let h ← get
      let (buf, val, str) ← loop serializePair (h.fresh + 1) (list.head, buf, val, str)
      serializeBuckets bucket is buf val str

def hashSerialize (str : Str) : Act Store Str := do
  let buf ← strNew true true
  let val ← strNew true true
  let s ← get
  onHeap (serializeBuckets s.hash.bucket slots buf val str)

/-- The characters of a key, `[A-Za-z0-9._-]`. -/
def isKeyChar (c : UInt8) : Bool := isAlnum c || c == 46 || c == 95 || c == 45

/-- The expression `"([A-Za-z0-9._-]+): (.*)"`. -/
def keyLine : Ere UInt8 :=
  .seq (.group (.some isKeyChar)) (.seq (.cls (· == 58)) (.seq (.cls (· == 32)) (.group (.many fun _ => true))))

/-- A store together with the calls of `hash_set` that have been made, as key and value. -/
structure Session where
  store : Store
  calls : List (Bytes × Bytes)

def onStore {α : Type} (m : Act Store α) : Act Session α :=
  zoom Session.store (fun s t => { t with store := s }) m

/-- `hash_set`, as `hash_deserialize` calls it. -/
def callSet (key : Bytes) (value : Str) : Act Session Unit := do
  let k ← deref (cString key)
  let t ← get
  put { t with calls := t.calls ++ [(k, value.text)] }
  onStore (hashSet key value)

/-- A line either has a key or goes on with the value of the last one. -/
def takeLine {σ : Type} (line key val : Str) : Act σ (Str × Str) := do
  if key.len = 0 then do
    let bufs ← strStrRegex line keyLine [key, val]
    pure (bufs.getD 0 key, bufs.getD 1 val)
  else do
    let (_, val) ← onLocal (strAppend true line) val
    pure (key, val)

/-- A value of several lines gets a newline at its end. -/
def endValue {σ : Type} (multiline : Bool) (val : Str) : Act σ Str :=
  if multiline then do
    let (_, val) ← onLocal (strPutc true 10) val
    pure val
  else pure val

/-- One round of the loop in `hash_deserialize`: the entry, `key`, `val` and `multiline`. -/
def deserializeStep : Option Addr × Str × Str × Bool →
    Act Session ((Option Addr × Str × Str × Bool) ⊕ Str)
  | (none, key, _, _) => pure (.inr key)
  | (some cur, key, val, multiline) => do
    let e ← onStore (onHeap (loadEntry cur))
    if e.value.len = 0 then pure (.inl (e.next, key, val, multiline))
    else do
      let (key, val) ← takeLine e.value key val
      let (eol, val) ← onLocal (peek (strGetTerminator val)) val
      if eol = 92 then do
        let (_, val) ← onLocal (strSetTerminator true 10) val
        pure (.inl (e.next, key, val, true))
      else do
        let val ← endValue multiline val
        let mem ← deref key.value
        callSet mem val
        let (_, key) ← onLocal strTruncate key
        let (_, val) ← onLocal strTruncate val
        let e ← onStore (onHeap (loadEntry cur))
        pure (.inl (e.next, key, val, false))

def hashDeserialize (str : Str) : Act Session Unit := do
  let key ← strNew true true
  let val ← strNew true true
  let lines ← onStore (onHeap listNew)
  onStore (onHeap (strSplit lines str 10))
  let l ← onStore (onHeap (loadList lines))
  let t ← get
  let key ← loop deserializeStep (t.store.heap.fresh + 1) (l.head, key, val, false)
  if key.len > 0 then throwing else onStore (onHeap (listDestroy lines))

/-! ## What is written -/

/-- A backslash in front of the first newline. -/
def escapeFirst : Bytes → Bytes
  | [] => []
  | c :: v => if c = 10 then 92 :: 10 :: v else c :: escapeFirst v

/-- The text for a pair. -/
def pairText (p : Bytes × Bytes) : Bytes := p.1 ++ [58, 32] ++ escapeFirst p.2 ++ [10]

/-- The pairs of a table in the order of the buckets. -/
def pairsOf (P : UInt8 → List (Bytes × Bytes)) : List (Bytes × Bytes) := slots.flatMap P

theorem escapeFirst_of_not_mem {v : Bytes} (h : 10 ∉ v) : escapeFirst v = v := by
  induction v with
  | nil => rfl
  | cons c v ih =>
    have hc : c ≠ 10 := fun he => h (by simp [he])
    rw [escapeFirst, if_neg hc, ih fun hm => h (List.mem_cons_of_mem _ hm)]

theorem escapeFirst_line {a : Bytes} (h : 10 ∉ a) (b : Bytes) :
    escapeFirst (a ++ 10 :: b) = a ++ 92 :: 10 :: b := by
  induction a with
  | nil => rfl
  | cons c a ih =>
    have hc : c ≠ 10 := fun he => h (by simp [he])
    rw [List.cons_append, escapeFirst, if_neg hc, ih fun hm => h (List.mem_cons_of_mem _ hm)]
    rfl

theorem nulFree_escapeFirst {v : Bytes} (h : NulFree v) : NulFree (escapeFirst v) := by
  by_cases hv : 10 ∈ v
  · obtain ⟨a, b, rfl, ha⟩ := List.eq_append_cons_of_mem hv
    rw [escapeFirst_line ha]
    intro h0
    apply h
    simpa using h0
  · rw [escapeFirst_of_not_mem hv]
    exact h

variable {out : Addr} {s : Store} {c : Addr → Option Chain} {h : Heap}

/-- The value of a pair goes to its line, with the newline escaped. -/
theorem serializeValue_holds {buf val ptr : Str} {b u v : Bytes} (hbuf : Holds buf b) (hval : Holds val u)
    (hptr : Holds ptr v) (hn : NulFree v) (hmax : b.length + (escapeFirst v).length < stringMax) :
    ∃ buf' val' u', (serializeValue ptr v buf val).run h = .ok (buf', val') h ∧
      Holds buf' (b ++ escapeFirst v) ∧ Holds val' u' := by
  rw [serializeValue]
  by_cases hv : 10 ∈ v
  · rw [if_pos hv]
    obtain ⟨x, y, rfl, hx⟩ := List.eq_append_cons_of_mem hv
    have hnul := nulFree_escapeFirst hn
    rw [escapeFirst_line hx] at hmax hnul ⊢
    obtain ⟨w₁, hcopy, hw₁, -⟩ := strCopy_holds hval hptr
    obtain ⟨w₂, hsubst, hw₂⟩ := strSubstRegex_newline hw₁ hx hn (by omega)
    obtain ⟨buf', happend, hbuf', -⟩ := (strAppend_holds hbuf hw₂ hnul).1 hmax
    refine ⟨buf', w₂, _, ?_, hbuf', hw₂⟩
    rw [run_bind_ok (run_onLocal_ok hcopy h)]
    dsimp only
    rw [run_bind_ok (run_onLocal_ok hsubst h)]
    dsimp only
    rw [run_bind_ok (run_onLocal_ok happend h)]
    rfl
  · rw [if_neg hv]
    rw [escapeFirst_of_not_mem hv] at hmax ⊢
    obtain ⟨buf', happend, hbuf', -⟩ := (strAppend_holds hbuf hptr hn).1 hmax
    refine ⟨buf', val, u, ?_, hbuf', hval⟩
    rw [run_bind_ok (run_onLocal_ok happend h)]
    rfl

theorem length_pairText (p : Bytes × Bytes) :
    (pairText p).length = p.1.length + 2 + (escapeFirst p.2).length + 1 := by
  simp only [pairText, List.length_append, List.length_cons, List.length_nil]

theorem nulFree_pairText {p : Bytes × Bytes} (hk : NulFree p.1) (hv : NulFree p.2) :
    NulFree (pairText p) := by
  intro h0
  have hesc := nulFree_escapeFirst hv
  simp only [pairText, List.mem_append, List.mem_cons, List.not_mem_nil, or_false] at h0
  rcases h0 with ((h0 | h0) | h0) | h0
  · exact hk h0
  · rcases h0 with h0 | h0 <;> exact absurd h0 (by decide)
  · exact hesc h0
  · exact absurd h0 (by decide)

/-- The loop over one bucket writes the pairs that are still ahead of it. -/
theorem loop_serializePair (r : Rep h c) {l : Addr} (ps : List (Bytes × Bytes)) {pre todo : Chain}
    (hs : c l = some (pre ++ todo)) (hps : texts todo = flat ps)
    (hn : ∀ p ∈ ps, NulFree p.1 ∧ NulFree p.2) {buf val str : Str} {b u old : Bytes} (hbuf : Holds buf b)
    (hval : Holds val u) (hstr : Holds str old)
    (hmax : old.length + (ps.flatMap pairText).length < stringMax) {fuel : Nat} (hf : todo.length < fuel) :
    ∃ buf' val' str' b' u', (loop serializePair fuel (first todo none, buf, val, str)).run h =
        .ok (buf', val', str') h ∧ Holds buf' b' ∧ Holds val' u' ∧
      Holds str' (old ++ ps.flatMap pairText) := by
  induction ps generalizing pre todo buf val str b u old fuel with
  | nil =>
    obtain rfl : todo = [] := by simpa [texts] using hps
    obtain ⟨fuel, rfl⟩ : ∃ k, fuel = k + 1 := ⟨fuel - 1, by simp at hf; omega⟩
    exact ⟨buf, val, str, b, u, run_loop_inr rfl, hbuf, hval, by simpa using hstr⟩
  | cons p ps ih =>
    obtain ⟨fuel, rfl⟩ : ∃ k, fuel = k + 1 := ⟨fuel - 1, by omega⟩
    obtain ⟨⟨a₁, x⟩, todo, rfl, hx, hrest⟩ := List.map_eq_cons_iff.mp hps
    obtain ⟨⟨a₂, y⟩, todo, rfl, hy, hrest⟩ := List.map_eq_cons_iff.mp hrest
    obtain ⟨hkn, hvn⟩ := hn p (by simp)
    have hs' : c l = some (pre ++ [(a₁, x)] ++ (a₂, y) :: todo) := by simpa using hs
    have ha₁ := (r.seg hs).prev
    have ha₂ := (r.seg hs').prev
    have hxh : Holds x p.1 := hx ▸ r.wf hs (a₁, x) (by simp)
    have hyh : Holds y p.2 := hy ▸ r.wf hs (a₂, y) (by simp)
    obtain ⟨xrest, hxv, -⟩ := hxh.value
    obtain ⟨yrest, hyv, -⟩ := hyh.value
    rw [List.flatMap_cons, List.length_append, length_pairText] at hmax
    have hlen : (p.1 ++ [58, 32]).length = p.1.length + 2 := by simp
    obtain ⟨b₁, hprint, hb₁, -⟩ := strSprintf_holds (s := buf)
      (show (p.1 ++ [58, 32]).length ≤ stringMax by omega)
    obtain ⟨b₂, val', u', hvalue, hb₂, hval'⟩ := serializeValue_holds (h := h) hb₁ hval hyh hvn
      (by omega)
    have hmem : cString [10, 0] = some [10] := by decide
    obtain ⟨b₃, hput, hb₃, -⟩ := (strCat_holds hb₂ hmem).1
      (by rw [List.length_append, hlen, List.length_singleton]; omega)
    have hput : (strPutc true 10).run b₂ = .ok () b₃ := hput
    have hline : Holds b₃ (pairText p) := hb₃
    obtain ⟨str', happend, hstr', -⟩ := (strAppend_holds hstr hline (nulFree_pairText hkn hvn)).1
      (by rw [length_pairText]; omega)
    have hs'' : c l = some (pre ++ [(a₁, x), (a₂, y)] ++ todo) := by simpa using hs
    obtain ⟨buf₄, val₄, str₄, b₄, u₄, hloop, hbuf₄, hval₄, hstr₄⟩ := ih hs'' hrest
      (fun q hq => hn q (List.mem_cons_of_mem _ hq)) hline hval' hstr'
      (by rw [List.length_append, length_pairText]; omega)
      (show todo.length < fuel by simp only [List.length_cons] at hf; omega)
    refine ⟨buf₄, val₄, str₄, b₄, u₄, ?_, hbuf₄, hval₄, by simpa using hstr₄⟩
    have hstep : (serializePair (some a₁, buf, val, str)).run h =
        .ok (.inl (first todo none, b₃, val', str')) h := by
      have hkey : (entryValue a₁).run h = .ok x h := by simp [entryValue, ha₁]
      have hnext : (nextEntry a₁).run h = .ok (some a₂) h := by simp [nextEntry, ha₁]
      have hptr : (entryValue a₂).run h = .ok y h := by simp [entryValue, ha₂]
      have hlast : (nextEntry a₂).run h = .ok (first todo none) h := by simp [nextEntry, ha₂]
      simp only [serializePair]
      rw [run_bind_ok hkey, hxv, deref_some, run_bind_ret, cString_append _ xrest hkn, deref_some,
        run_bind_ret, run_bind_ok (run_onLocal_ok hprint h)]
      dsimp only
      rw [run_bind_ok hnext, deref_some, run_bind_ret, run_bind_ok hptr, hyv, deref_some, run_bind_ret,
        cString_append _ yrest hvn, deref_some, run_bind_ret, run_bind_ok hvalue]
      dsimp only
      rw [run_bind_ok (run_onLocal_ok hput h)]
      dsimp only
      rw [run_bind_ok (run_onLocal_ok happend h)]
      dsimp only
      rw [run_bind_ok hlast]
      rfl
    rw [first_cons, run_loop_inl hstep, hloop]

theorem serializeBuckets_run (P : UInt8 → List (Bytes × Bytes)) (bucket : UInt8 → Option Addr) (r : Rep h c)
    (hb : ∀ {i l}, bucket i = some l → (c l).map texts = some (flat (P i)))
    (hnone : ∀ {i}, bucket i = none → flat (P i) = [])
    (hn : ∀ i, ∀ p ∈ P i, NulFree p.1 ∧ NulFree p.2) (is : List UInt8) {buf val str : Str}
    {b u old : Bytes} (hbuf : Holds buf b) (hval : Holds val u) (hstr : Holds str old)
    (hmax : old.length + ((is.flatMap P).flatMap pairText).length < stringMax) :
    ∃ t, (serializeBuckets bucket is buf val str).run h = .ok t h ∧
      Holds t (old ++ (is.flatMap P).flatMap pairText) := by
  induction is generalizing buf val str b u old with
  | nil => exact ⟨str, rfl, by simpa using hstr⟩
  | cons i is ih =>
    rw [List.flatMap_cons, List.flatMap_append, List.length_append] at hmax
    rw [serializeBuckets]
    cases hi : bucket i with
    | none =>
      have hPi : P i = [] := by
        have hflat := hnone hi
        cases hP : P i with
        | nil => rfl
        | cons p ps => simp [hP] at hflat
      rw [hPi] at hmax
      obtain ⟨t, hrun, ht⟩ := ih hbuf hval hstr (by simpa using hmax)
      exact ⟨t, hrun, by simpa [hPi] using ht⟩
    | some l =>
      obtain ⟨xs, hl, hxs⟩ := Option.map_eq_some_iff.mp (hb hi)
      obtain ⟨buf', val', str', b', u', hloop, hbuf', hval', hstr'⟩ := loop_serializePair r (P i)
        (hl.trans (by rw [List.nil_append])) hxs (hn i) hbuf hval hstr (by omega)
        (Nat.lt_succ_of_le (r.length_le hl))
      obtain ⟨t, hrun, ht⟩ := ih hbuf' hval' hstr' (by rw [List.length_append]; omega)
      refine ⟨t, ?_, by simpa using ht⟩
      dsimp only
      simp only [run_bind_loadList, r.list_eq hl, header, run_bind_get]
      have hloop' : (loop serializePair (h.fresh + 1) (first xs none, buf, val, str)).run h =
          .ok (buf', val', str') h := hloop
      rw [run_bind_ok hloop']
      exact hrun

/-- `hash_serialize` writes the pairs in the order of the buckets. -/
theorem hashSerialize_tab {P : UInt8 → List (Bytes × Bytes)} (T : Tab out s c (fun i => flat (P i)))
    (hn : ∀ i, ∀ p ∈ P i, NulFree p.1 ∧ NulFree p.2) {str : Str} {old : Bytes} (hstr : Holds str old)
    (hmax : old.length + ((pairsOf P).flatMap pairText).length < stringMax) :
    ∃ t, (hashSerialize str).run s = .ok t s ∧ Holds t (old ++ (pairsOf P).flatMap pairText) := by
  obtain ⟨buf, hbufNew, hbuf, -⟩ := strNew_holds s
  obtain ⟨val, hvalNew, hval, -⟩ := strNew_holds s
  obtain ⟨t, hrun, ht⟩ := serializeBuckets_run P s.hash.bucket T.rep T.bucket T.missing hn slots
    hbuf hval hstr hmax
  refine ⟨t, ?_, ht⟩
  rw [hashSerialize, run_bind_ok hbufNew, run_bind_ok hvalNew, run_bind_get]
  exact run_onHeap_ok hrun

end NcHash
