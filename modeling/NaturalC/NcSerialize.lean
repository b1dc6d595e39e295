import NaturalC.NcJoin
import NaturalC.NcEscape

/-!
# Writing a list as a text

`list_serialize` escapes the elements of a list and joins them with spaces, and
`list_deserialize` splits such a text and unescapes the parts. All parts go through one
buffer, and unescaping an empty part does not clear it.
-/
namespace NcSplit

open Throwing Throwing.Act NcString NcList Linked Lines

/-- One round of the loop in `list_serialize`: the entry, the number of those before it, the
escaped value and the result. -/
def serializeStep :
    Option Addr × Nat × Str × Str → Act Heap ((Option Addr × Nat × Str × Str) ⊕ Str)
  | (none, _, _, dest) => pure (.inr dest)
  | (some cur, i, buf, dest) => do
    let e ← loadEntry cur
    let (_, buf) ← onLocal (strEscape e.value) buf
    let (_, dest) ← if i ≠ 0 then onLocal (strPutc true 32) dest else pure ((), dest)
    let (_, dest) ← onLocal (strAppend true buf) dest
    pure (.inl (e.next, i + 1, buf, dest))

def listSerialize (dest : Str) (src : Addr) : Act Heap Str := do
  let buf ← strNew true true
  let (_, dest) ← onLocal strTruncate dest
  let l ← loadList src
  let h ← get
  loop serializeStep (h.fresh + 1) (l.head, 0, buf, dest)

/-- One round of the loop in `list_deserialize`: the entry and the buffer. -/
def deserializeStep (dest : Addr) : Option Addr × Str → Act Heap ((Option Addr × Str) ⊕ Unit)
  | (none, _) => pure (.inr ())
  | (some cur, buf) => do
    let e ← loadEntry cur
    let (_, buf) ← onLocal (strUnescape e.value) buf
    listPush dest buf
    let e ← loadEntry cur
    pure (.inl (e.next, buf))

def listDeserialize (dest : Addr) (src : Str) : Act Heap Unit := do
  let tok ← listNew
  let buf ← strNew true true
  listTruncate dest
  strSplit tok src 32
  let t ← loadList tok
  let h ← get
  loop (deserializeStep dest) (h.fresh + 1) (t.head, buf)
  listDestroy tok

/-- The text for a list. -/
def serialized (ts : List Bytes) : Bytes := List.intercalate [32] (ts.map escape)

/-- What comes out of the buffer when these texts are read back one after the other. -/
def carry : Bytes → List Bytes → List Bytes
  | _, [] => []
  | buf, t :: ts => (if t = [] then buf else t) :: carry (if t = [] then buf else t) ts

variable {F : Rest} {h : Heap} {c : Addr → Option Chain}

/-- All texts come back if no empty one follows another text. -/
theorem carry_eq_iff (buf : Bytes) (ts : List Bytes) :
    carry buf ts = ts ↔ List.IsChain (fun a b => b = [] → a = []) (buf :: ts) := by
  induction ts generalizing buf with
  | nil => simp [carry]
  | cons t ts ih =>
    rw [carry, List.isChain_cons_cons]
    by_cases ht : t = []
    · subst ht
      rw [if_pos rfl]
      constructor
      · intro heq
        obtain ⟨rfl, hrest⟩ := List.cons.inj heq
        exact ⟨fun _ => rfl, (ih []).mp hrest⟩
      · rintro ⟨hbuf, hrest⟩
        obtain rfl := hbuf rfl
        rw [(ih []).mpr hrest]
    · rw [if_neg ht]
      constructor
      · intro heq
        exact ⟨fun h => absurd h ht, (ih t).mp (List.cons.inj heq).2⟩
      · rintro ⟨-, hrest⟩
        rw [(ih t).mpr hrest]

/-- The loop behind the first element: each one gets a space in front of it. -/
theorem loop_serialize (pre : Chain) (r : RepIn F h c) {src : Addr} {todo : Chain}
    (hs : c src = some (pre ++ todo)) {buf dest : Str} {b old : Bytes} (hbuf : Holds buf b)
    (hdest : Holds dest old) {i : Nat} (hi : i ≠ 0)
    (hmax : old.length + ((texts todo).flatMap fun t => 32 :: escape t).length < stringMax) {fuel : Nat}
    (hf : todo.length < fuel) :
    ∃ t, (loop serializeStep fuel (first todo none, i, buf, dest)).run h = .ok t h ∧
      Holds t (old ++ (texts todo).flatMap fun t => 32 :: escape t) := by
  induction todo generalizing pre buf dest b old i fuel with
  | nil =>
    obtain ⟨fuel, rfl⟩ : ∃ k, fuel = k + 1 := ⟨fuel - 1, by simp at hf; omega⟩
    exact ⟨dest, run_loop_inr rfl, by simpa using hdest⟩
  | cons x todo ih =>
    obtain ⟨a, v⟩ := x
    obtain ⟨fuel, rfl⟩ : ∃ k, fuel = k + 1 := ⟨fuel - 1, by simp at hf; omega⟩
    have ha := (r.seg hs).prev
    have hv : Holds v v.text := r.wf hs (a, v) (by simp)
    have hs' : c src = some (pre ++ [(a, v)] ++ todo) := by rw [hs, List.append_assoc]; rfl
    rw [texts_cons, List.flatMap_cons] at hmax ⊢
    simp only [List.length_append, List.length_cons] at hmax
    obtain ⟨e, hescape, he, -⟩ := strEscape_holds hbuf hv (by omega)
    have hmem : cString [32, 0] = some [32] := by decide
    obtain ⟨u, hput, hu, -⟩ := (strCat_holds hdest hmem).1 (by rw [List.length_singleton]; omega)
    have hput : (strPutc true 32).run dest = .ok () u := hput
    obtain ⟨w, happend, hw, -⟩ := (strAppend_holds hu he (nulFree_escape _)).1
      (by rw [List.length_append, List.length_singleton]; omega)
    obtain ⟨t, hloop, ht⟩ := ih (pre ++ [(a, v)]) hs' he hw (Nat.succ_ne_zero i)
      (by simp only [List.length_append, List.length_singleton]; omega) (by simpa using hf)
    refine ⟨t, ?_, by simpa using ht⟩
    have hstep : (serializeStep (some a, i, buf, dest)).run h =
        .ok (.inl (first todo none, i + 1, e, w)) h := by
      simp only [serializeStep, run_bind_loadEntry, ha]
      rw [run_bind_ok (run_onLocal_ok hescape h)]
      dsimp only
      rw [if_pos hi, run_bind_ok (run_onLocal_ok hput h), run_bind_ok (run_onLocal_ok happend h)]
      rfl
    rw [first_cons, run_loop_inl hstep, hloop]

theorem serialized_cons (t : Bytes) (ts : List Bytes) :
    serialized (t :: ts) = escape t ++ ts.flatMap fun t => 32 :: escape t := by
  rw [serialized, List.map_cons]
  induction ts generalizing t with
  | nil => simp
  | cons u ts ih =>
    rw [List.map_cons, List.intercalate_cons_cons, ih u, List.flatMap_cons]
    simp

/-- `list_serialize` writes the text for the list. -/
theorem listSerialize_rep (r : RepIn F h c) {src : Addr} {xs : Chain} (hs : c src = some xs)
    {dest : Str} {old : Bytes} (hdest : Holds dest old)
    (hmax : (serialized (texts xs)).length < stringMax) :
    ∃ t, (listSerialize dest src).run h = .ok t h ∧ Holds t (serialized (texts xs)) := by
  obtain ⟨buf, hnew, hbuf, -⟩ := strNew_holds h
  obtain ⟨d, htrunc, hd, -⟩ := strTruncate_holds hdest
  have hfuel := Nat.lt_succ_of_le (r.length_le hs)
  simp only [listSerialize]
  rw [run_bind_ok hnew, run_bind_ok (run_onLocal_ok htrunc h)]
  simp only [run_bind_loadList, r.list_eq hs, header, run_bind_get]
  cases xs with
  | nil => exact ⟨d, run_loop_inr rfl, hd⟩
  | cons x xs =>
    obtain ⟨a, v⟩ := x
    have ha := (r.seg (show c src = some ([] ++ (a, v) :: xs) from hs)).prev
    have hv : Holds v v.text := r.wf hs (a, v) (by simp)
    rw [texts_cons, serialized_cons] at hmax ⊢
    rw [List.length_append] at hmax
    have hfirst : (escape v.text).length < stringMax := Nat.lt_of_le_of_lt (Nat.le_add_right _ _) hmax
    obtain ⟨e, hescape, he, -⟩ := strEscape_holds hbuf hv hfirst
    obtain ⟨w, happend, hw, -⟩ := (strAppend_holds hd he (nulFree_escape _)).1
      (by rw [List.length_nil, Nat.zero_add]; exact hfirst)
    rw [List.nil_append] at hw
    obtain ⟨t, hloop, ht⟩ := loop_serialize [(a, v)] r hs he hw Nat.one_ne_zero hmax
      (show xs.length < h.fresh by simpa using hfuel)
    refine ⟨t, ?_, ht⟩
    have hstep : (serializeStep (some a, 0, buf, d)).run h = .ok (.inl (first xs none, 1, e, w)) h := by
      simp only [serializeStep, run_bind_loadEntry, ha]
      rw [run_bind_ok (run_onLocal_ok hescape h)]
      dsimp only
      rw [if_neg (by simp), run_bind_pure]
      dsimp only
      rw [run_bind_ok (run_onLocal_ok happend h)]
      rfl
    rw [first_cons, run_loop_inl hstep, hloop]

/-- The loop of `list_deserialize` reads back the parts ahead of it. -/
theorem loop_deserialize {dest tok : Addr} (hne : dest ≠ tok) (todo : Chain) (r : RepIn F h c)
    {xs pre : Chain} (hd : c dest = some xs) (hs : c tok = some (pre ++ todo)) {ts : List Bytes}
    (hts : texts todo = ts.map escape) (hn : ∀ t ∈ ts, NulFree t ∧ t.length < stringMax) {buf : Str}
    {b : Bytes} (hbuf : Holds buf b) {fuel : Nat} (hf : todo.length < fuel) :
    ∃ h' ys, (loop (deserializeStep dest) fuel (first todo none, buf)).run h = .ok () h' ∧
      texts ys = carry b ts ∧ RepIn F h' (Function.update c dest (some (xs ++ ys))) := by
  induction todo generalizing h c xs pre ts buf b fuel with
  | nil =>
    obtain ⟨fuel, rfl⟩ : ∃ k, fuel = k + 1 := ⟨fuel - 1, by simp at hf; omega⟩
    obtain rfl : ts = [] := List.map_eq_nil_iff.mp hts.symm
    refine ⟨h, [], run_loop_inr rfl, rfl, ?_⟩
    rw [List.append_nil, ← hd, Function.update_eq_self]
    exact r
  | cons x todo ih =>
    obtain ⟨a, v⟩ := x
    obtain ⟨fuel, rfl⟩ : ∃ k, fuel = k + 1 := ⟨fuel - 1, by simp at hf; omega⟩
    rw [texts_cons] at hts
    obtain ⟨t, ts, rfl, ht, hrest⟩ := List.map_eq_cons_iff.mp hts.symm
    have ha := (r.seg hs).prev
    have hv : Holds v (escape t) := ht ▸ r.wf hs (a, v) (by simp)
    obtain ⟨htn, htmax⟩ := hn t (by simp)
    obtain ⟨buf', hunescape, hbuf', -⟩ := strUnescape_holds hbuf hv htn htmax
    obtain ⟨h₁, str, hpush, ⟨hstr, -⟩, -, r₁⟩ := listPush_rep r hd hbuf'
    have hs₁ : Function.update c dest (some (xs ++ [(h.fresh, str)])) tok =
        some (pre ++ [(a, v)] ++ todo) := by
      rw [Function.update_of_ne (Ne.symm hne), hs, List.append_assoc]
      rfl
    have ha₁ := (r₁.seg (by rw [hs₁, List.append_assoc]; rfl)).prev
    obtain ⟨h₂, ys, hloop, hys, r₂⟩ := ih r₁ (Function.update_self _ _ _) hs₁ hrest.symm
      (fun u hu => hn u (List.mem_cons_of_mem _ hu)) hbuf' (by simpa using hf)
    have hstep : (deserializeStep dest (some a, buf)).run h =
        .ok (.inl (first todo none, buf')) h₁ := by
      simp only [deserializeStep, run_bind_loadEntry, ha]
      rw [run_bind_ok (run_onLocal_ok hunescape h)]
      dsimp only
      rw [run_bind_ok hpush]
      simp [ha₁]
    rw [Function.update_idem, List.append_assoc] at r₂
    refine ⟨h₂, (h.fresh, str) :: ys, ?_, ?_, r₂⟩
    · rw [first_cons, run_loop_inl hstep, hloop]
    · rw [texts_cons, hys, carry, hstr.text]

/-- No escaped text has a space or a line terminator in it. -/
theorem not_mem_escape {t : Bytes} {d : UInt8} (hd : isUriChar d = false) : d ∉ escape t := by
  intro hm
  obtain ⟨b, -, hb⟩ := List.mem_flatMap.mp hm
  rw [isUriChar_escapeByte hb] at hd
  cases hd

theorem escape_eq_nil_iff {t : Bytes} (hn : NulFree t) : escape t = [] ↔ t = [] := by
  constructor
  · intro he
    have hle := length_le_escape hn
    rw [he] at hle
    exact List.length_eq_zero_iff.mp (Nat.le_zero.mp hle)
  · rintro rfl
    rfl

/-- The text for a list splits into the escaped elements. -/
theorem pieces_serialized {ts : List Bytes} (hne : ts ≠ []) :
    pieces 32 (serialized ts) = ts.map escape := by
  obtain ⟨us, t, rfl⟩ := (List.eq_nil_or_concat ts).resolve_left hne
  rw [List.concat_eq_append]
  have hterm : Unterminated (escape t) :=
    ⟨fun he => not_mem_escape (by decide) (List.mem_of_getLast? he),
      fun he => not_mem_escape (by decide) (List.mem_of_getLast? he)⟩
  have hline : Unterminated (serialized (us ++ [t])) := by
    rw [serialized, List.map_append]
    exact unterminated_intercalate (by decide) (by decide) hterm
  rw [pieces_splitOn (by decide), chomp_unterminated hline, serialized]
  apply List.splitOn_intercalate
  · intro e he
    obtain ⟨u, -, rfl⟩ := List.mem_map.mp he
    exact not_mem_escape (by decide)
  · simp

theorem nulFree_serialized (ts : List Bytes) : NulFree (serialized ts) := by
  intro h0
  obtain ⟨e, he, h0⟩ := (mem_intercalate (by decide)).mp h0
  obtain ⟨t, -, rfl⟩ := List.mem_map.mp he
  exact nulFree_escape t h0

/-- An element is no longer than the text for its list. -/
theorem length_le_serialized {ts : List Bytes} {t : Bytes} (ht : t ∈ ts) (hn : NulFree t) :
    t.length ≤ (serialized ts).length := by
  apply Nat.le_trans (length_le_escape hn)
  cases ts with
  | nil => cases ht
  | cons u ts =>
    rw [serialized_cons, List.length_append]
    rcases List.mem_cons.mp ht with rfl | ht
    · exact Nat.le_add_right _ _
    · have hpart : 32 :: escape t ∈ ts.map fun t => 32 :: escape t := List.mem_map_of_mem ht
      have hle := (List.sublist_flatten_of_mem hpart).length_le
      rw [← List.flatMap_def, List.length_cons] at hle
      omega

/-- Only the list without elements and the one of an empty element have the empty text. -/
theorem serialized_eq_nil_iff {ts : List Bytes} (hn : ∀ t ∈ ts, NulFree t) :
    serialized ts = [] ↔ ts = [] ∨ ts = [[]] := by
  cases ts with
  | nil => simp [serialized]
  | cons t ts =>
    rw [serialized_cons, List.append_eq_nil_iff, escape_eq_nil_iff (hn t (by simp))]
    cases ts with
    | nil => simp
    | cons u ts => simp

/-- What comes back from the text for a list. -/
def reread (ts : List Bytes) : List Bytes := if ts = [[]] then [] else carry [] ts

theorem reread_eq_iff (ts : List Bytes) :
    reread ts = ts ↔ ts ≠ [[]] ∧ List.IsChain (fun a b => b = [] → a = []) ts := by
  rw [reread]
  by_cases hts : ts = [[]]
  · simp [hts]
  · rw [if_neg hts, carry_eq_iff]
    cases ts with
    | nil => simp
    | cons t ts => simp [hts]

/-- What is on a new list when the text for a list has been split into it. -/
theorem strSplit_serialized (r : RepIn F h c) {tok : Addr} (htok : c tok = some []) {ts : List Bytes}
    (hn : ∀ t ∈ ts, NulFree t) (hmax : (serialized ts).length < stringMax) {src : Str}
    (hs : Holds src (serialized ts)) :
    ∃ h' toks, (strSplit tok src 32).run h = .ok () h' ∧
      texts toks = (if ts = [[]] then [] else ts).map escape ∧
      RepIn F h' (Function.update c tok (some toks)) := by
  by_cases hnil : serialized ts = []
  · have hlen : src.len = 0 := by rw [hs.len, hnil]; rfl
    refine ⟨h, [], by rw [strSplit, if_pos hlen]; rfl, ?_, ?_⟩
    · rcases (serialized_eq_nil_iff hn).mp hnil with rfl | rfl <;> rfl
    · rw [← htok, Function.update_eq_self]
      exact r
  · obtain ⟨h', toks, hrun, ⟨htoks, -⟩, r'⟩ := strSplit_rep (d := 32) r htok hs (nulFree_serialized ts) hnil hmax
    have hts : ts ≠ [] ∧ ts ≠ [[]] :=
      ⟨fun he => hnil ((serialized_eq_nil_iff hn).mpr (.inl he)),
        fun he => hnil ((serialized_eq_nil_iff hn).mpr (.inr he))⟩
    refine ⟨h', toks, hrun, ?_, r'⟩
    rw [htoks, pieces_serialized hts.1, if_neg hts.2]

theorem listDeserialize_rep (r : RepIn F h c) {dest : Addr} {zs : Chain} (hd : c dest = some zs)
    {ts : List Bytes} (hn : ∀ t ∈ ts, NulFree t) (hmax : (serialized ts).length < stringMax)
    {src : Str} (hs : Holds src (serialized ts)) :
    ∃ h' ys, (listDeserialize dest src).run h = .ok () h' ∧ texts ys = reread ts ∧
      RepIn F h' (Function.update c dest (some ys)) := by
  obtain ⟨h₁, hnew, hfresh, r₁⟩ := listNew_rep r
  have hne : dest ≠ h.fresh := fun he => ne_of_none hfresh hd he.symm
  obtain ⟨buf, hbufNew, hbuf, -⟩ := strNew_holds h₁
  have hd₁ : Function.update c h.fresh (some []) dest = some zs := by
    rw [Function.update_of_ne hne, hd]
  obtain ⟨h₂, htrunc, -, r₂⟩ := listTruncate_rep r₁ hd₁
  have htok : Function.update (Function.update c h.fresh (some [])) dest (some []) h.fresh = some [] := by
    rw [Function.update_of_ne (Ne.symm hne), Function.update_self]
  obtain ⟨h₃, toks, hrun, htoks, r₃⟩ := strSplit_serialized r₂ htok hn hmax hs
  rw [Function.update_comm hne, Function.update_idem, Function.update_comm (Ne.symm hne)] at r₃
  have hd₃ : Function.update (Function.update c dest (some [])) h.fresh (some toks) dest =
      some [] := by
    rw [Function.update_of_ne hne, Function.update_self]
  have hs₃ : Function.update (Function.update c dest (some [])) h.fresh (some toks) h.fresh =
      some ([] ++ toks) := Function.update_self _ _ _
  have hparts : ∀ t ∈ (if ts = [[]] then [] else ts), NulFree t ∧ t.length < stringMax := by
    intro t ht
    have ht : t ∈ ts := by
      split at ht
      · cases ht
      · exact ht
    exact ⟨hn t ht, Nat.lt_of_le_of_lt (length_le_serialized ht (hn t ht)) hmax⟩
  obtain ⟨h₄, ys, hloop, hys, r₄⟩ := loop_deserialize hne toks r₃ hd₃ hs₃ htoks hparts hbuf
    (Nat.lt_succ_of_le (r₃.length_le hs₃))
  have hs₄ : Function.update (Function.update (Function.update c dest (some [])) h.fresh (some toks))
      dest (some ([] ++ ys)) h.fresh = some toks := by
    rw [Function.update_of_ne (Ne.symm hne), Function.update_self]
  obtain ⟨h₅, hdestroy, r₅⟩ := listDestroy_rep r₄ hs₄
  refine ⟨h₅, ys, ?_, ?_, ?_⟩
  · simp only [listDeserialize]
    rw [run_bind_ok hnew, run_bind_ok hbufNew, run_bind_ok htrunc, run_bind_ok hrun]
    simp only [run_bind_loadList, r₃.list_eq hs₃, header, run_bind_get]
    exact (run_bind_ok hloop).trans hdestroy
  · rw [hys, reread]
    split <;> rfl
  · -- The temporary list is gone again.
    convert r₅ using 1
    funext a
    by_cases hk : a = h.fresh
    · rw [hk, Function.update_self, Function.update_of_ne (Ne.symm hne), hfresh]
    · by_cases ha : a = dest
      · rw [ha, Function.update_self, Function.update_of_ne hne, Function.update_self, List.nil_append]
      · simp only [Function.update_of_ne hk, Function.update_of_ne ha]

/-- A list comes back from its text if and only if it is not just one empty element, and no empty
element follows another one that is not empty. -/
theorem deserialize_serialize_iff (r : RepIn F h c) {l k : Addr} {xs zs : Chain} (hl : c l = some xs)
    (hk : c k = some zs) (hn : ∀ t ∈ texts xs, NulFree t)
    (hmax : (serialized (texts xs)).length < stringMax) {dest : Str} {old : Bytes}
    (hdest : Holds dest old) :
    ∃ s h' ys, (listSerialize dest l).run h = .ok s h ∧ (listDeserialize k s).run h = .ok () h' ∧
      RepIn F h' (Function.update c k (some ys)) ∧
      (texts ys = texts xs ↔
        texts xs ≠ [[]] ∧ List.IsChain (fun a b => b = [] → a = []) (texts xs)) := by
  obtain ⟨s, hserialize, hs⟩ := listSerialize_rep r hl hdest hmax
  obtain ⟨h', ys, hdeserialize, hys, r'⟩ := listDeserialize_rep r hk hn hmax hs
  refine ⟨s, h', ys, hserialize, hdeserialize, r', ?_⟩
  rw [hys]
  exact reread_eq_iff _

/-- A list of two words, read back over itself. -/
theorem deserialize_serialize_iff_words :
    ∃ l h₀ h s h' xs ys, listNew.run Heap.empty = .ok l h₀ ∧
      (catAll l [charArray [97, 32], charArray [98]]).run h₀ = .ok () h ∧
      (listSerialize (ofText []).1 l).run h = .ok s h ∧ (listDeserialize l s).run h = .ok () h' ∧
      texts xs = [[97, 32], [98]] ∧ texts ys = texts xs := by
  have hempty : Holds (ofText []).1 [] := holds_ofText _
  obtain ⟨h₀, hnew, -, r₀⟩ := listNew_rep rep_empty
  obtain ⟨h, xs, hcat, htexts, r⟩ := catAll_rep r₀ (Function.update_self _ _ _) [[97, 32], [98]] (by decide)
  rw [if_pos (by decide)] at hcat
  have hxs : texts xs = [[97, 32], [98]] := by rw [htexts]; decide
  obtain ⟨s, h', ys, hserialize, hdeserialize, -, hiff⟩ := deserialize_serialize_iff r
    (Function.update_self _ _ _) (Function.update_self _ _ _) (by simp [hxs, NulFree])
    (by rw [List.nil_append, hxs]; decide +kernel) hempty
  refine ⟨Heap.empty.fresh, h₀, h, s, h', xs, ys, hnew, hcat, hserialize, hdeserialize, hxs, ?_⟩
  exact hiff.mpr (by simp [hxs])

/-- An empty element comes back as the one before it: the list `a`, `""` as `a`, `a`. -/
theorem deserialize_repeats_element :
    ((do
      let l ← listNew
      listFromChar l [charArray [97], charArray []]
      let s ← listSerialize (ofText []).1 l
      listDeserialize l s
      let x ← listGet (ofText []).1 l 0
      let y ← listGet (ofText []).1 l 1
      pure (s.text, x.text, y.text) : Act Heap (Bytes × Bytes × Bytes)).run Heap.empty).value =
    some ([97, 32], [97], [97]) := by
  decide +kernel

end NcSplit
