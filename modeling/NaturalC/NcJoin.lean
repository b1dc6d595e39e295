import NaturalC.NcSplit

/-!
# Joining a list to a string

`str_join` puts the elements of a list into a string with a delimiter between them, and
`str_count` counts how often a character occurs. With a delimiter that is not part of a line
terminator, joining and splitting undo each other.
-/
namespace NcSplit

open Throwing Throwing.Act NcString NcList Linked Lines

/-- One round of the loop in `str_join`: the entry, the number of those before it, the result. -/
def joinStep (src : Addr) (delimiter : UInt8) :
    Option Addr × Nat × Str → Act Heap ((Option Addr × Nat × Str) ⊕ Str)
  | (none, _, dest) => pure (.inr dest)
  | (some cur, i, dest) => do
    let e ← loadEntry cur
    let (_, dest) ← onLocal (strAppend true e.value) dest
    let l ← loadList src
    let (_, dest) ← if i + 1 < l.count then onLocal (strPutc true delimiter) dest else pure ((), dest)
    pure (.inl (e.next, i + 1, dest))

def strJoin (dest : Str) (src : Addr) (delimiter : UInt8) : Act Heap Str := do
  let (_, dest) ← onLocal strTruncate dest
  let l ← loadList src
  let h ← get
  let dest ← loop (joinStep src delimiter) (h.fresh + 1) (l.head, 0, dest)
  if delimiter = 10 then do
    let (_, dest) ← onLocal (strPutc true delimiter) dest
    pure dest
  else pure dest

/-- The loop of `str_count`. -/
def countFrom {σ : Type} (c : UInt8) : Bytes → Nat → Act σ Nat
  | [], _ => stop .fault
  | b :: mem, n => if b = 0 then pure n else countFrom c mem (if b = c then n + 1 else n)

def strCount {σ : Type} (s : Str) (c : UInt8) : Act σ Nat := do
  let mem ← deref s.value
  countFrom c mem 0

variable {F : Rest} {h : Heap} {c : Addr → Option Chain} {d : UInt8}

/-- `str_count` looks at the text up to the first NUL in it. -/
theorem strCount_cText {σ : Type} {s : Str} {text : Bytes} (hs : Holds s text) (d : UInt8) (st : σ) :
    (strCount s d).run st = .ok ((cText text).count d) st := by
  obtain ⟨rest, hval, -⟩ := hs.value
  have hloop : ∀ n, (countFrom d (text ++ 0 :: rest) n).run st = .ok (n + (cText text).count d) st := by
    clear hs hval
    induction text with
    | nil =>
      intro n
      rfl
    | cons b text ih =>
      intro n
      rw [List.cons_append, countFrom, cText]
      by_cases hb : b = 0
      · rw [if_pos hb, List.takeWhile_cons_of_neg (by simpa using hb)]
        rfl
      · rw [if_neg hb, List.takeWhile_cons_of_pos (by simpa using hb), ih, List.count_cons]
        by_cases hbd : b = d
        · rw [if_pos hbd, if_pos (by simp [hbd]), cText]
          congr 1
          omega
        · rw [if_neg hbd, if_neg (by simpa using hbd)]
          rfl
  rw [strCount, hval, deref_some, run_bind_ret, hloop, Nat.zero_add]

theorem strCount_holds {σ : Type} {s : Str} {text : Bytes} (hs : Holds s text) (hn : NulFree text)
    (d : UInt8) (st : σ) : (strCount s d).run st = .ok (text.count d) st := by
  rw [strCount_cText hs, cText_of_nulFree hn]

/-- The loop appends the elements that are still ahead of it. -/
theorem loop_join (pre : Chain) (r : RepIn F h c) {src : Addr} {todo : Chain} (hs : c src = some (pre ++ todo))
    (hd : d ≠ 0) (hn : ∀ t ∈ texts todo, NulFree t) {dest : Str} {old : Bytes} (hdest : Holds dest old)
    (hmax : old.length + (List.intercalate [d] (texts todo)).length < stringMax) {fuel : Nat}
    (hf : todo.length < fuel) :
    ∃ t, (loop (joinStep src d) fuel (first todo none, pre.length, dest)).run h = .ok t h ∧
      Holds t (old ++ List.intercalate [d] (texts todo)) := by
  induction todo generalizing pre dest old fuel with
  | nil =>
    obtain ⟨fuel, rfl⟩ : ∃ k, fuel = k + 1 := ⟨fuel - 1, by simp at hf; omega⟩
    exact ⟨dest, run_loop_inr rfl, by simpa using hdest⟩
  | cons x todo ih =>
    obtain ⟨a, v⟩ := x
    obtain ⟨fuel, rfl⟩ : ∃ k, fuel = k + 1 := ⟨fuel - 1, by simp at hf; omega⟩
    have ha := (r.seg hs).prev
    have hv : Holds v v.text := r.wf hs (a, v) (by simp)
    have hvn : NulFree v.text := hn v.text (by simp)
    have hrest : ∀ t ∈ texts todo, NulFree t := fun t ht => hn t (List.mem_cons_of_mem _ ht)
    have hs' : c src = some (pre ++ [(a, v)] ++ todo) := by rw [hs, List.append_assoc]; rfl
    have hlist := r.list_eq hs
    rw [texts_cons] at hmax ⊢
    -- The last element is not followed by a delimiter.
    cases todo with
    | nil =>
      rw [texts_nil, List.intercalate_singleton] at hmax ⊢
      obtain ⟨t, happend, ht, -⟩ := (strAppend_holds hdest hv hvn).1 hmax
      have hstep : (joinStep src d (some a, pre.length, dest)).run h =
          .ok (.inl (none, pre.length + 1, t)) h := by
        simp only [joinStep, run_bind_loadEntry, ha]
        rw [run_bind_ok (run_onLocal_ok happend h)]
        simp only [run_bind_loadList, hlist, header, List.length_append, List.length_singleton,
          Nat.lt_irrefl, if_false]
        rfl
      refine ⟨t, ?_, ht⟩
      rw [first_cons, run_loop_inl hstep]
      obtain ⟨fuel, rfl⟩ : ∃ k, fuel = k + 1 := ⟨fuel - 1, by simp at hf; omega⟩
      exact run_loop_inr rfl
    | cons y todo =>
      rw [texts_cons, List.intercalate_cons_cons, ← texts_cons] at hmax ⊢
      simp only [List.length_append, List.length_singleton] at hmax
      obtain ⟨t, happend, ht, -⟩ := (strAppend_holds hdest hv hvn).1 (by omega)
      have hmem : cString [d, 0] = some [d] := cString_append [d] [] (by simpa [NulFree] using Ne.symm hd)
      obtain ⟨u, hput, hu, -⟩ := (strCat_holds ht hmem).1
        (by simp only [List.length_append, List.length_singleton]; omega)
      have hput : (strPutc true d).run t = .ok () u := hput
      have hstep : (joinStep src d (some a, pre.length, dest)).run h =
          .ok (.inl (first (y :: todo) none, (pre ++ [(a, v)]).length, u)) h := by
        simp only [joinStep, run_bind_loadEntry, ha]
        rw [run_bind_ok (run_onLocal_ok happend h)]
        simp only [run_bind_loadList, hlist, header]
        rw [if_pos (by simp only [List.length_append, List.length_cons]; omega),
          run_bind_ok (run_onLocal_ok hput h)]
        rw [List.length_append, List.length_singleton]
        rfl
      obtain ⟨w, hloop, hw⟩ := ih (pre ++ [(a, v)]) hs' hrest hu
        (by simp only [List.length_append, List.length_singleton]; omega) (by simpa using hf)
      refine ⟨w, ?_, by simpa using hw⟩
      rw [first_cons, run_loop_inl hstep, hloop]

/-- `str_join` with a delimiter other than the newline. -/
theorem strJoin_rep (r : RepIn F h c) {src : Addr} {xs : Chain} (hs : c src = some xs) (hd : d ≠ 0)
    (hd10 : d ≠ 10) (hn : ∀ t ∈ texts xs, NulFree t) {dest : Str} {old : Bytes} (hdest : Holds dest old)
    (hmax : (List.intercalate [d] (texts xs)).length < stringMax) :
    ∃ t, (strJoin dest src d).run h = .ok t h ∧ Holds t (List.intercalate [d] (texts xs)) := by
  obtain ⟨e, htrunc, he, -⟩ := strTruncate_holds hdest
  obtain ⟨t, hloop, ht⟩ := loop_join [] r hs hd hn he (by simpa using hmax)
    (Nat.lt_succ_of_le (r.length_le hs))
  refine ⟨t, ?_, by simpa using ht⟩
  simp only [strJoin]
  rw [run_bind_ok (run_onLocal_ok htrunc h)]
  simp only [run_bind_loadList, r.list_eq hs, header, run_bind_get]
  have hloop' : (loop (joinStep src d) (h.fresh + 1) (first xs none, 0, e)).run h = .ok t h := hloop
  rw [run_bind_ok hloop', if_neg hd10]
  rfl

/-- With a delimiter other than the newline the pieces are the parts between the delimiters. -/
theorem pieces_splitOn (hd : d ≠ 10) (t : Bytes) : pieces d t = (NcString.chomp t).splitOn d := by
  have hfinish : finish d = id := by
    funext l
    rw [finish, if_neg hd]
    rfl
  rw [splitOn_eq_cut, pieces, hfinish, List.map_id]

/-- A text without a line terminator at its end. -/
def Unterminated (t : Bytes) : Prop := t.getLast? ≠ some 10 ∧ t.getLast? ≠ some 13

theorem chomp_unterminated {t : Bytes} (ht : Unterminated t) : NcString.chomp t = t := by
  rw [NcString.chomp, if_neg ht.1, if_neg ht.2]

/-- What ends with the last of the joined elements, or with the delimiter in front of it. -/
theorem unterminated_intercalate (hd10 : d ≠ 10) (hd13 : d ≠ 13) {ts : List Bytes} {t : Bytes}
    (ht : Unterminated t) : Unterminated (List.intercalate [d] (ts ++ [t])) := by
  induction ts with
  | nil => simpa using ht
  | cons x ts ih =>
    rw [List.cons_append, List.intercalate_cons_of_ne_nil (by simp)]
    by_cases hnil : List.intercalate [d] (ts ++ [t]) = []
    · rw [hnil, List.append_nil, Unterminated]
      simp [hd10, hd13]
    · rw [Unterminated, List.getLast?_append_of_ne_nil _ hnil]
      exact ih

/-- Splitting and joining with one delimiter undo each other. -/
theorem join_split_inverse (hd : d ≠ 0) (hd10 : d ≠ 10) (hd13 : d ≠ 13) :
    (∀ {F h c} {l : Addr} {xs : Chain} {s dest : Str} {t old : Bytes}, RepIn F h c → c l = some xs →
      Holds s t → t ≠ [] → NulFree t → Unterminated t → t.length < stringMax → Holds dest old →
      ∃ h' ys j n, (strSplit l s d).run h = .ok () h' ∧
        RepIn F h' (Function.update c l (some ys)) ∧
        (strJoin dest l d).run h' = .ok j h' ∧ Holds j t ∧
        (strCount s d).run h' = .ok n h' ∧ ys.length = n + 1) ∧
    (∀ {F h c} {l k : Addr} {xs zs : Chain} {dest : Str} {old : Bytes}, RepIn F h c → c l = some xs →
      c k = some zs → texts xs ≠ [] → texts xs ≠ [[]] → (∀ t ∈ texts xs, NulFree t ∧ d ∉ t) →
      (∀ t ∈ (texts xs).getLast?, Unterminated t) →
      (List.intercalate [d] (texts xs)).length < stringMax → Holds dest old →
      ∃ j h' ys, (strJoin dest l d).run h = .ok j h ∧ (strSplit k j d).run h = .ok () h' ∧
        texts ys = texts xs ∧ RepIn F h' (Function.update c k (some ys))) := by
  constructor
  · intro F h c l xs s dest t old r hl hs hne hn hterm hmax hdest
    obtain ⟨h', ys, hsplit, ⟨hys, -⟩, r'⟩ := strSplit_rep r hl hs hn hne hmax
    rw [pieces_splitOn hd10, chomp_unterminated hterm] at hys
    have hjoin : List.intercalate [d] (texts ys) = t := by rw [hys, List.intercalate_splitOn]
    have hparts : ∀ x ∈ texts ys, NulFree x := by
      intro x hx h0
      apply hn
      rw [← hjoin]
      exact (mem_intercalate (Ne.symm hd)).mpr ⟨x, hx, h0⟩
    obtain ⟨j, hj, hjt⟩ := strJoin_rep r' (Function.update_self _ _ _) hd hd10 hparts hdest
      (by rw [hjoin]; exact hmax)
    rw [hjoin] at hjt
    refine ⟨h', ys, j, t.count d, hsplit, r', hj, hjt, strCount_holds hs hn d h', ?_⟩
    rw [← length_texts, hys, splitOn_eq_cut, List.length_append, List.length_singleton, length_cut]
  · intro F h c l k xs zs dest old r hl hk hne hne' hparts hlast hmax hdest
    obtain ⟨j, hj, hjt⟩ := strJoin_rep r hl hd hd10 (fun t ht => (hparts t ht).1) hdest hmax
    obtain ⟨ts, t, hts⟩ := (List.eq_nil_or_concat (texts xs)).resolve_left hne
    rw [List.concat_eq_append] at hts
    have hterm : Unterminated (List.intercalate [d] (texts xs)) := by
      rw [hts]
      exact unterminated_intercalate hd10 hd13 (hlast t (by rw [hts]; simp))
    have hsplit := List.splitOn_intercalate d (fun t ht => (hparts t ht).2) hne
    have hjne : List.intercalate [d] (texts xs) ≠ [] := by
      intro hnil
      rw [hnil] at hsplit
      exact hne' hsplit.symm
    have hjn : NulFree (List.intercalate [d] (texts xs)) := by
      intro h0
      obtain ⟨x, hx, hx0⟩ := (mem_intercalate (Ne.symm hd)).mp h0
      exact (hparts x hx).1 hx0
    obtain ⟨h', ys, hrun, ⟨hys, -⟩, r'⟩ := strSplit_rep r hk hjt hjn hjne hmax
    rw [pieces_splitOn hd10, chomp_unterminated hterm, hsplit] at hys
    exact ⟨j, h', ys, hj, hrun, hys, r'⟩

/-- The text `,a,` split into a new list, and that list joined and split again. -/
theorem join_split_inverse_comma :
    ∃ l h₀ h ys j n h' zs, listNew.run Heap.empty = .ok l h₀ ∧
      (strSplit l (ofText [44, 97, 44]).1 44).run h₀ = .ok () h ∧
      (strJoin (ofText []).1 l 44).run h = .ok j h ∧ Holds j [44, 97, 44] ∧
      (strCount (ofText [44, 97, 44]).1 44 : Act Heap Nat).run h = .ok n h ∧
      (ys : Chain).length = n + 1 ∧ (strSplit l j 44).run h = .ok () h' ∧ texts zs = texts ys := by
  have hempty : Holds (ofText []).1 [] := holds_ofText _
  have htext : Holds (ofText [44, 97, 44]).1 [44, 97, 44] := holds_ofText _
  have hterm : Unterminated [44, 97, 44] := by simp [Unterminated]
  obtain ⟨h₀, hnew, -, r₀⟩ := listNew_rep rep_empty
  obtain ⟨hleft, hright⟩ := join_split_inverse (d := 44) (by decide) (by decide) (by decide)
  obtain ⟨h, ys, j, n, hsplit, r, hjoin, hj, hcount, hlen⟩ := hleft r₀ (Function.update_self _ _ _) htext
    (by decide) (by decide) hterm (by decide) hempty
  -- The list has the parts of the text, whatever they are.
  obtain ⟨h₂, ys₂, hsplit₂, ⟨htexts, -⟩, r₂⟩ := strSplit_rep r₀ (Function.update_self _ _ _)
    (d := 44) htext (by decide) (by decide) (by decide)
  rw [hsplit] at hsplit₂
  cases hsplit₂
  rw [Function.update_idem] at r₂
  have hparts : texts ys₂ = [[], [97], []] := by rw [htexts]; decide +kernel
  obtain ⟨j₂, h', zs, hjoin₂, hsplit₃, hzs, -⟩ := hright r₂ (Function.update_self _ _ _)
    (Function.update_self _ _ _) (by rw [hparts]; decide) (by rw [hparts]; decide)
    (by rw [hparts]; decide) (by rw [hparts]; simp [Unterminated])
    (by rw [hparts]; decide +kernel) hempty
  rw [hjoin] at hjoin₂
  cases hjoin₂
  refine ⟨Heap.empty.fresh, h₀, h, ys₂, j, n, h', zs, hnew, hsplit, hjoin, hj, hcount, ?_, hsplit₃, hzs⟩
  have hn := strCount_holds htext (by decide) 44 h
  rw [hcount] at hn
  cases hn
  rw [← length_texts, hparts]
  rfl

end NcSplit
