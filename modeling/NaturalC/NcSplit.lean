import NaturalC.NcListSpec
import NaturalC.Lines

/-!
# Splitting a string into a list

`str_split` cuts a copy of the string with `strsep(3)` and puts the pieces onto a list.
With the newline as the delimiter it also takes off the line terminators, one at the end
of the whole text and one at the end of each piece.
-/
namespace NcSplit

open Throwing Throwing.Act NcString NcList Linked Lines

/-- `strsep(3)` with one delimiter: the token as it stands in memory once its delimiter has been
overwritten by a NUL, and the position after it, null behind the last token. -/
def strsep (delimiter : UInt8) : Bytes → Option (Bytes × Option Bytes)
  | [] => none
  | b :: mem =>
    if b = 0 then some ([0], none)
    else if b = delimiter then some ([0], some mem)
    else (strsep delimiter mem).map fun x => (b :: x.1, x.2)

/-- One round of the loop in `str_split`. -/
def splitStep (dest : Addr) (delimiter : UInt8) : Option Bytes → Act Heap (Option Bytes ⊕ Unit)
  | none => pure (.inr ())
  | some cp => do
    let (tok, rest) ← deref (strsep delimiter cp)
    listCat dest tok
    if delimiter = 10 then do
      let d ← loadList dest
      let t ← deref d.tail
      onValue t strChomp
    else pure ()
    pure (.inl rest)

def strSplit (dest : Addr) (src : Str) (delimiter : UInt8) : Act Heap Unit := do
  if src.len = 0 then pure ()
  else do
    let srcCopy ← strNew true true
    let (_, srcCopy) ← onLocal (strCopy true src) srcCopy
    listTruncate dest
    let (_, srcCopy) ← onLocal strChomp srcCopy
    let cp ← deref srcCopy.value
    loop (splitStep dest delimiter) (cp.length + 1) (some cp)

/-- What becomes of a token. -/
def finish (delimiter : UInt8) (l : Bytes) : Bytes := if delimiter = 10 then NcString.chomp l else l

/-- What `str_split` puts onto the list: the whole text loses a line terminator first. -/
def pieces (delimiter : UInt8) (t : Bytes) : List Bytes :=
  ((cut delimiter (NcString.chomp t)).1 ++ [(cut delimiter (NcString.chomp t)).2]).map (finish delimiter)

variable {d : UInt8}

/-- `strsep(3)` passes over characters that are neither the delimiter nor the NUL. -/
theorem strsep_append {l : Bytes} (hn : NulFree l) (hl : d ∉ l) (mem : Bytes) :
    strsep d (l ++ mem) = (strsep d mem).map fun x => (l ++ x.1, x.2) := by
  induction l with
  | nil => simp
  | cons b l ih =>
    have hb : b ≠ 0 := fun he => hn (by simp [he])
    have hb' : b ≠ d := fun he => hl (by simp [he])
    have htail := ih (fun hm => hn (List.mem_cons_of_mem _ hm)) (fun hm => hl (List.mem_cons_of_mem _ hm))
    rw [List.cons_append, strsep, if_neg hb, if_neg hb', htail, Option.map_map]
    rfl

theorem strsep_line {l : Bytes} (hn : NulFree l) (hl : d ∉ l) (hd : d ≠ 0) (mem : Bytes) :
    strsep d (l ++ d :: mem) = some (charArray l, some mem) := by
  rw [strsep_append hn hl, strsep, if_neg hd, if_pos rfl]
  rfl

theorem strsep_last {l : Bytes} (hn : NulFree l) (hl : d ∉ l) (mem : Bytes) :
    strsep d (l ++ 0 :: mem) = some (charArray l, none) := by
  rw [strsep_append hn hl, strsep, if_pos rfl]
  rfl

variable {F : Rest} {h : Heap} {c : Addr → Option Chain}

/-- One token goes onto the list, with the newline as delimiter without its line terminator. -/
theorem splitStep_rep (r : RepIn F h c) {dest : Addr} {xs : Chain} (hd : c dest = some xs)
    {l : Bytes} (hn : NulFree l) (hmax : l.length < stringMax) {cp : Bytes} {rest : Option Bytes}
    (hsep : strsep d cp = some (charArray l, rest)) :
    ∃ h' x, (splitStep dest d (some cp)).run h = .ok (.inl rest) h' ∧
      (x.2.text = finish d l ∧ x.2.size ≤ stringMax) ∧
      RepIn F h' (Function.update c dest (some (xs ++ [x]))) := by
  obtain ⟨h₁, str, hcat, ⟨hstr, hsize⟩, -, r₁⟩ := (listCat_rep r hd (cString_charArray l hn)).1 hmax
  have hlist := r₁.list_eq (Function.update_self dest (some (xs ++ [(h.fresh, str)])) c)
  simp only [splitStep, hsep, deref_some, run_bind_ret]
  rw [run_bind_ok hcat]
  by_cases hd10 : d = 10
  · obtain ⟨t, hchomp, ht, hz⟩ := strChomp_holds hstr
    obtain ⟨h₂, hval, -, r₂⟩ := onValue_rep r₁ (Function.update_self _ _ _) hchomp ht.wf
    rw [Function.update_idem] at r₂
    refine ⟨h₂, (h.fresh, t), ?_, ⟨?_, Nat.le_trans (Nat.le_of_eq hz) hsize⟩, r₂⟩
    rotate_left
    · rw [finish, if_pos hd10]
      exact ht.text
    rw [if_pos hd10]
    simp only [run_bind_loadList, hlist, header, last_append, last_cons, last_nil, deref_some,
      run_bind_ret]
    rw [run_bind_ok hval]
    rfl
  · refine ⟨h₁, (h.fresh, str), ?_, ⟨?_, hsize⟩, r₁⟩
    rotate_left
    · rw [finish, if_neg hd10]
      exact hstr.text
    rw [if_neg hd10]
    rfl

/-- The loop puts all lines onto the list and then what is behind the last delimiter. -/
theorem loop_split (r : RepIn F h c) {dest : Addr} {xs : Chain} (hd : c dest = some xs)
    {s rest : Bytes} {ls : List Bytes} (mem : Bytes) (hcut : Cut d s ls rest) (hn : NulFree s)
    (hmax : s.length < stringMax) (fuel : Nat) (hf : s.length + 1 < fuel) :
    ∃ h' ys, (loop (splitStep dest d) fuel (some (s ++ 0 :: mem))).run h = .ok () h' ∧
      (texts ys = (ls ++ [rest]).map (finish d) ∧ ∀ y ∈ ys, y.2.size ≤ stringMax) ∧
      RepIn F h' (Function.update c dest (some (xs ++ ys))) := by
  induction ls generalizing h c xs s fuel with
  | nil =>
    obtain ⟨fuel, rfl⟩ : ∃ n, fuel = n + 2 := ⟨fuel - 2, by omega⟩
    obtain rfl : s = rest := by simpa using hcut.eq
    obtain ⟨h₁, x, hstep, hx, r₁⟩ := splitStep_rep r hd hn hmax (strsep_last hn hcut.rest mem)
    refine ⟨h₁, [x], ?_, ⟨by simp [hx.1], by simpa using hx.2⟩, r₁⟩
    rw [run_loop_inl hstep]
    exact run_loop_inr rfl
  | cons l ls ih =>
    obtain ⟨fuel, rfl⟩ : ∃ n, fuel = n + 1 := ⟨fuel - 1, by omega⟩
    have hs : s = l ++ d :: ((ls.map (· ++ [d])).flatten ++ rest) := by simp [hcut.eq]
    generalize htl : (ls.map (· ++ [d])).flatten ++ rest = tl at hs
    subst hs
    have hl : d ∉ l := hcut.line l (by simp)
    -- A delimiter that ends a line is not the NUL, which is not in the text.
    have hd0 : d ≠ 0 := by
      rintro rfl
      exact hn (by simp)
    have hnl : NulFree l := fun hm => hn (List.mem_append_left _ hm)
    have hntl : NulFree tl := fun hm => hn (List.mem_append_right _ (List.mem_cons_of_mem _ hm))
    have hcut' : Cut d tl ls rest :=
      ⟨htl.symm, fun m hm => hcut.line m (List.mem_cons_of_mem _ hm), hcut.rest⟩
    simp only [List.length_append, List.length_cons] at hmax hf
    have hsep := strsep_line hnl hl hd0 (tl ++ 0 :: mem)
    obtain ⟨h₁, x, hstep, hx, r₁⟩ := splitStep_rep r hd hnl (by omega) hsep
    obtain ⟨h₂, ys, hloop, hys, r₂⟩ :=
      ih r₁ (Function.update_self _ _ _) hcut' hntl (by omega) fuel (by omega)
    rw [Function.update_idem, List.append_assoc] at r₂
    refine ⟨h₂, x :: ys, ?_, ⟨by simp [hx.1, hys.1], List.forall_mem_cons.mpr ⟨hx.2, hys.2⟩⟩, r₂⟩
    rw [List.append_assoc, List.cons_append, run_loop_inl hstep, hloop]

theorem chomp_line {l : Bytes} (hl : 10 ∉ l) : chomp l = trim 13 l := by
  have hlast : l.getLast? ≠ some 10 := fun hc => hl (List.mem_of_getLast? hc)
  rw [chomp, if_neg hlast, trim]

theorem map_chomp {ls : List Bytes} (h : ∀ l ∈ ls, 10 ∉ l) : ls.map chomp = ls.map (trim 13) := by
  apply List.map_congr_left
  intro l hl
  exact chomp_line (h l hl)

/-- `str_chomp` takes the CR or the newline off the last line. -/
theorem chomp_unfinished {s r : Bytes} (hs : s = [] ∨ s.getLast? = some 10) (hr : 10 ∉ r)
    (hne : r ≠ []) : chomp (s ++ r) = s ++ trim 13 r := by
  have hlast : (s ++ r).getLast? ≠ some 10 := by
    rw [List.getLast?_append_of_ne_nil _ hne]
    exact fun hc => hr (List.mem_of_getLast? hc)
  rw [chomp, if_neg hlast]
  exact trim_append_of_ne (by rcases hs with rfl | hs <;> simp [*]) r

theorem chomp_newline {s l : Bytes} (hs : s = [] ∨ s.getLast? = some 10) :
    chomp (s ++ l ++ [10]) = s ++ trim 13 l := by
  rw [chomp, if_pos (by simp), List.dropLast_concat]
  exact trim_append_of_ne (by rcases hs with rfl | hs <;> simp [*]) l

theorem chomp_isPrefix (t : Bytes) : List.IsPrefix (chomp t) t := by
  rw [chomp]
  split
  · split
    · exact (List.dropLast_prefix _).trans (List.dropLast_prefix _)
    · exact List.dropLast_prefix _
  · split
    · exact List.dropLast_prefix _
    · exact List.prefix_rfl

theorem not_mem_trim {l : Bytes} (hl : 10 ∉ l) : 10 ∉ trim 13 l := by
  rw [trim]
  split
  · exact fun hm => hl (List.dropLast_subset _ hm)
  · exact hl

/-- What `str_split` makes of a text: every line is trimmed, and the last one twice. -/
theorem pieces_segments {t l : Bytes} (ms : List Bytes) (hseg : segments 10 t = ms ++ [l]) :
    pieces 10 t = ms.map (trim 13) ++ [trim 13 (trim 13 l)] := by
  have hfinish : ∀ ls : List Bytes, ls.map (finish 10) = ls.map NcString.chomp := fun ls => rfl
  rw [pieces, hfinish]
  have h := cut_spec 10 t
  -- The last line of the text, finished or not, is the only one that the first chomp changes.
  have hlast : ∀ {ms l}, Cut 10 (ms.map (· ++ [10])).flatten ms [] → 10 ∉ l →
      chomp t = (ms.map (· ++ [10])).flatten ++ trim 13 l →
      ((cut 10 (chomp t)).1 ++ [(cut 10 (chomp t)).2]).map chomp =
        ms.map (trim 13) ++ [trim 13 (trim 13 l)] := by
    intro ms l hms hl hchomp
    rw [hchomp, (hms.append_unfinished (not_mem_trim hl)).eq_cut]
    simp only [List.map_append, List.map_cons, List.map_nil, List.nil_append]
    rw [map_chomp hms.line, chomp_line (not_mem_trim hl)]
  have hflat : ∀ {ms : List Bytes}, (∀ l ∈ ms, 10 ∉ l) →
      Cut 10 (ms.map (· ++ [10])).flatten ms [] := fun hms => ⟨by simp, hms, by simp⟩
  by_cases hr : (cut 10 t).2 = []
  · rw [segments_closed hr] at hseg
    rw [hr, hseg] at h
    have hms := hflat fun m hm => h.line m (List.mem_append_left _ hm)
    have ht : t = (ms.map (· ++ [10])).flatten ++ l ++ [10] := by simp [h.eq]
    apply hlast hms (h.line l (by simp))
    rw [ht, chomp_newline (hms.rest_eq_nil_iff.mp rfl)]
  · rw [segments_open hr] at hseg
    obtain ⟨hlines, hrest⟩ := List.append_inj' hseg rfl
    obtain rfl : (cut 10 t).2 = l := by simpa using hrest
    rw [hlines] at h
    have hms := hflat h.line
    apply hlast hms h.rest
    conv => lhs; rw [h.eq]
    rw [chomp_unfinished (hms.rest_eq_nil_iff.mp rfl) h.rest hr]

/-- What `str_split` puts onto the list: the tokens up to the first NUL behind the chomped text. -/
def tokens (delimiter : UInt8) (t : Bytes) : List Bytes :=
  ((cut delimiter (cText (NcString.chomp t))).1 ++ [(cut delimiter (cText (NcString.chomp t))).2]).map
    (finish delimiter)

theorem tokens_of_nulFree {t : Bytes} (hn : NulFree t) : tokens d t = pieces d t := by
  have hchomp : NulFree (NcString.chomp t) := fun hm => hn ((chomp_isPrefix t).subset hm)
  rw [tokens, cText_of_nulFree hchomp, pieces]

/-- A text up to its first NUL, with what is behind it in memory. -/
theorem exists_cText (t rest : Bytes) : ∃ mem, t ++ 0 :: rest = cText t ++ 0 :: mem :=
  cString_split (cString_cText t rest)

/-- `str_split` replaces the contents of the list by the tokens of a text that is not empty. -/
theorem strSplit_tokens (r : RepIn F h c) {dest : Addr} {xs : Chain} (hd : c dest = some xs)
    {src : Str} {t : Bytes} (hs : Holds src t) (hne : t ≠ []) (hmax : t.length < stringMax) :
    ∃ h' ys, (strSplit dest src d).run h = .ok () h' ∧
      (texts ys = tokens d t ∧ ∀ y ∈ ys, y.2.size ≤ stringMax) ∧
      RepIn F h' (Function.update c dest (some ys)) := by
  obtain ⟨s₀, hnew, hs₀, -⟩ := strNew_holds h
  obtain ⟨s₁, hcopy, hs₁, -⟩ := strCopy_holds hs₀ hs
  obtain ⟨h₁, htrunc, -, r₁⟩ := listTruncate_rep r hd
  obtain ⟨s₂, hchomp, hs₂, -⟩ := strChomp_holds hs₁
  obtain ⟨rest, hval, -⟩ := hs₂.value
  obtain ⟨mem, hmem⟩ := exists_cText (chomp t) rest
  have hnul := nulFree_cString (cString_cText (chomp t) rest)
  have hlen : (cText (chomp t)).length < stringMax := by
    have hle := (chomp_isPrefix t).length_le
    have htake := (List.takeWhile_prefix (l := chomp t) (· != 0)).length_le
    rw [cText]
    omega
  obtain ⟨h₂, ys, hloop, hys, r₂⟩ := loop_split r₁ (Function.update_self _ _ _) mem
    (cut_spec d (cText (chomp t))) hnul hlen ((chomp t ++ 0 :: rest).length + 1) (by rw [hmem]; simp)
  rw [Function.update_idem, List.nil_append] at r₂
  refine ⟨h₂, ys, ?_, hys, r₂⟩
  have hpos : src.len ≠ 0 := by
    rw [hs.len]
    exact fun h0 => hne (List.length_eq_zero_iff.mp h0)
  simp only [strSplit, if_neg hpos]
  rw [run_bind_ok hnew, run_bind_ok (run_onLocal_ok hcopy h)]
  dsimp only
  rw [run_bind_ok htrunc, run_bind_ok (run_onLocal_ok hchomp h₁)]
  dsimp only
  rw [hval, deref_some, run_bind_ret, hmem]
  rw [hmem] at hloop
  exact hloop

/-- The tokens of a text without a NUL in it. -/
theorem strSplit_rep (r : RepIn F h c) {dest : Addr} {xs : Chain} (hd : c dest = some xs)
    {src : Str} {t : Bytes} (hs : Holds src t) (hn : NulFree t) (hne : t ≠ [])
    (hmax : t.length < stringMax) :
    ∃ h' ys, (strSplit dest src d).run h = .ok () h' ∧
      (texts ys = pieces d t ∧ ∀ y ∈ ys, y.2.size ≤ stringMax) ∧
      RepIn F h' (Function.update c dest (some ys)) := by
  rw [← tokens_of_nulFree hn]
  exact strSplit_tokens r hd hs hne hmax

end NcSplit
