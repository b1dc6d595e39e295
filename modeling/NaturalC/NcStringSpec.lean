import NaturalC.NcString

/-!
# What the string functions do to the text

`Holds s text` is the invariant of a string object together with its meaning: the
buffer has `size` bytes, starts with the text, and a NUL stands right after it.
Each function gets one lemma from `Holds` to `Holds`, and callers never look at the
buffer again.
-/
namespace NcString

open Throwing Throwing.Act

/-- The string object is well formed and its text is `text`. -/
structure Holds (s : Str) (text : Bytes) : Prop where
  len : s.len = text.length
  value : ∃ rest, s.value = some (text ++ 0 :: rest) ∧ s.size = text.length + 1 + rest.length

theorem Holds.size_pos {s : Str} {text : Bytes} (h : Holds s text) : 0 < s.size := by
  obtain ⟨rest, -, hs⟩ := h.value
  omega

theorem Holds.len_lt_size {s : Str} {text : Bytes} (h : Holds s text) : s.len < s.size := by
  obtain ⟨rest, -, hs⟩ := h.value
  have := h.len
  omega

/-- A string object has one text. -/
theorem Holds.unique {s : Str} {t u : Bytes} (ht : Holds s t) (hu : Holds s u) : t = u := by
  obtain ⟨r, hr, -⟩ := ht.value
  obtain ⟨r', hr', -⟩ := hu.value
  have hb : t ++ 0 :: r = u ++ 0 :: r' := Option.some.inj (hr.symm.trans hr')
  exact (List.append_inj hb (ht.len.symm.trans hu.len)).1

/-- The text a string object claims to hold. -/
def Str.text (s : Str) : Bytes := (s.value.getD []).take s.len

/-- `len < size`, the buffer has `size` bytes and `value[len]` is a NUL. -/
def Str.WF (s : Str) : Prop := Holds s s.text

theorem Holds.text {s : Str} {t : Bytes} (h : Holds s t) : s.text = t := by
  obtain ⟨rest, hv, -⟩ := h.value
  rw [Str.text, hv, h.len, Option.getD_some, List.take_left' rfl]

theorem Holds.wf {s : Str} {t : Bytes} (h : Holds s t) : s.WF := by
  rw [Str.WF, h.text]
  exact h

/-- A string object together with its invariant. -/
abbrev WfStr := { s : Str // s.WF }

/-- A string object with the given text. -/
def ofText (text : Bytes) : WfStr :=
  ⟨⟨some (text ++ [0]), text.length + 1, text.length, true⟩, by
    simp [Str.WF, Str.text, List.take_left']
    exact ⟨rfl, [], rfl, rfl⟩⟩

theorem holds_ofText (text : Bytes) : Holds (ofText text).1 text := ⟨rfl, [], rfl, rfl⟩

/-- A text without NUL is what `strlen(3)`, `strcmp(3)` and the like see of it. -/
def NulFree (text : Bytes) : Prop := 0 ∉ text

/-- The text of a `char *` argument. -/
abbrev CText := { t : Bytes // NulFree t }

instance (text : Bytes) : Decidable (NulFree text) := inferInstanceAs (Decidable (0 ∉ text))

theorem NulFree.append {t u : Bytes} (ht : NulFree t) (hu : NulFree u) : NulFree (t ++ u) := by
  intro h0
  rcases List.mem_append.mp h0 with h0 | h0
  · exact ht h0
  · exact hu h0

/-- The part of a text that the functions on `char *` see. -/
def cText (text : Bytes) : Bytes := text.takeWhile (· != 0)

theorem cText_of_nulFree {text : Bytes} (h : NulFree text) : cText text = text := by
  rw [cText, List.takeWhile_eq_self_iff]
  intro b hb
  have hne : b ≠ 0 := fun he => h (he ▸ hb)
  simp [hne]

theorem cString_cText (text rest : Bytes) : cString (text ++ 0 :: rest) = some (cText text) := by
  have hcut : (text ++ 0 :: rest).takeWhile (· != 0) = cText text := by
    induction text with
    | nil => simp [cText]
    | cons b text ih =>
      rw [List.cons_append, List.takeWhile_cons, cText, List.takeWhile_cons]
      split
      · rw [ih, cText]
      · rfl
  simp [cString, hcut]

theorem nulFree_cText (text : Bytes) : NulFree (cText text) := by
  intro h0
  have hkept := List.mem_takeWhile_imp h0
  simp at hkept

theorem cString_append (text rest : Bytes) (h : NulFree text) :
    cString (text ++ 0 :: rest) = some text := by
  rw [cString_cText, cText_of_nulFree h]

@[simp] theorem cString_charArray (text : Bytes) (h : NulFree text) :
    cString (charArray text) = some text := cString_append text [] h

/-- What a string object gives as `char *`. -/
theorem Holds.bind_cString {s : Str} {text : Bytes} (h : Holds s text) :
    s.value.bind cString = some (cText text) := by
  obtain ⟨rest, hv, -⟩ := h.value
  rw [hv]
  exact cString_cText text rest

theorem nulFree_cString {mem text : Bytes} (h : cString mem = some text) : NulFree text := by
  unfold cString at h
  split at h
  · intro h0
    rw [← Option.some.inj h] at h0
    simpa using List.mem_takeWhile_imp h0
  · cases h

/-- The memory of a `char *` is its text, a NUL, and whatever comes after. -/
theorem cString_split {mem text : Bytes} (h : cString mem = some text) :
    ∃ rest, mem = text ++ 0 :: rest := by
  unfold cString at h
  split at h
  · rename_i h0
    cases h
    induction mem with
    | nil => simp at h0
    | cons b mem ih =>
      by_cases hb : b = 0
      · subst hb
        exact ⟨mem, by simp⟩
      · obtain ⟨rest, hrest⟩ := ih (by simpa [Ne.symm hb] using h0)
        refine ⟨rest, ?_⟩
        have hw : (b :: mem).takeWhile (· != 0) = b :: mem.takeWhile (· != 0) := by simp [hb]
        rw [hw, List.cons_append, ← hrest]
  · cases h

/-- A write that stays inside of the buffer replaces that stretch of it. -/
theorem memcpy_inside (s : Str) (pre mid post : Bytes) {bs : Bytes} {off : Nat}
    (hv : s.value = some (pre ++ mid ++ post)) (ho : off = pre.length)
    (hl : mid.length = bs.length) :
    (memcpy off bs).run s = .ok () { s with value := some (pre ++ bs ++ post) } := by
  subst ho
  have hd : (pre ++ (mid ++ post)).drop (pre.length + bs.length) = post := by
    rw [← hl, ← List.append_assoc]
    simp
  simp only [memcpy, run_bind_get, hv, deref_some, run_bind_ret]
  rw [if_pos (by simp [hl])]
  simp [hd]

theorem peek_at (s : Str) (pre post : Bytes) {b : UInt8} {off : Nat}
    (hv : s.value = some (pre ++ b :: post)) (ho : off = pre.length) :
    (peek off).run s = .ok b s := by
  subst ho
  simp [peek, hv]

/-- A buffer cut around one of its bytes. -/
theorem cut_at (buf : Bytes) (n : Nat) (h : n < buf.length) :
    ∃ pre b post, buf = pre ++ b :: post ∧ pre.length = n :=
  ⟨buf.take n, buf[n], buf.drop (n + 1),
    by rw [← List.drop_eq_getElem_cons h, List.take_append_drop],
    by simp only [List.length_take]; omega⟩

theorem cbufLenFrom_text {σ : Type} (text rest : Bytes) (i : Nat) (s : σ) (h : NulFree text) :
    (cbufLenFrom (text ++ 0 :: rest) i).run s =
      if i + text.length < stringMax then .ok (i + text.length) s else .thrown s := by
  induction text generalizing i with
  | nil => simp only [List.nil_append, cbufLenFrom]; split <;> simp_all
  | cons b text ih =>
    have hb : b ≠ 0 := fun he => h (by simp [he])
    have ht : NulFree text := fun hm => h (by simp [hm])
    simp only [List.cons_append, cbufLenFrom, hb, if_false, List.length_cons]
    by_cases hi : i < stringMax
    · rw [if_pos hi, ih _ ht]
      have he : i + 1 + text.length = i + (text.length + 1) := by omega
      rw [he]
    · rw [if_neg hi, if_neg (by omega)]
      rfl

/-- `cbuf_len` finds the length of every text that a string object can hold. -/
theorem cbufLen_text {σ : Type} {mem text : Bytes} (s : σ) (h : cString mem = some text) :
    (cbufLen mem).run s =
      if text.length < stringMax then .ok text.length s else .thrown s := by
  obtain ⟨rest, rfl⟩ := cString_split h
  simpa [cbufLen] using cbufLenFrom_text text rest 0 s (nulFree_cString h)

theorem strNew_holds {σ : Type} (s : σ) :
    ∃ str, (strNew true true : Act σ Str).run s = .ok str s ∧ Holds str [] ∧ str.size = 16 :=
  ⟨_, rfl, ⟨rfl, _, rfl, rfl⟩, rfl⟩

theorem strTruncate_holds {s : Str} {text : Bytes} (h : Holds s text) :
    ∃ t, strTruncate.run s = .ok () t ∧ Holds t [] ∧ t.size = s.size := by
  obtain ⟨rest, hv, hs⟩ := h.value
  simp only [strTruncate, run_bind_get, run_bind_put, if_pos h.size_pos]
  cases text with
  | nil =>
    refine ⟨_, memcpy_inside _ [] [0] rest (by simpa using hv) rfl rfl,
      ⟨rfl, rest, by simp, by simpa using hs⟩, rfl⟩
  | cons b text =>
    refine ⟨_, memcpy_inside _ [] [b] (text ++ 0 :: rest) (by simpa using hv) rfl rfl, ⟨rfl, text ++ 0 :: rest, by simp, ?_⟩, rfl⟩
    simp only [List.length_nil, List.length_append, List.length_cons] at hs ⊢
    omega

/-- Copying never looks at the old contents of the destination, only at its shape. -/
theorem strCopy_holds {dest src : Str} {old text : Bytes} (hd : Holds dest old)
    (hs : Holds src text) :
    ∃ t, (strCopy true src).run dest = .ok () t ∧ Holds t text ∧
      t.size = if text = [] then dest.size else src.size := by
  obtain ⟨rest, hv, hz⟩ := hs.value
  unfold strCopy
  cases text with
  | nil =>
    have hl : src.len = 0 := by simpa using hs.len
    simpa [hl] using strTruncate_holds hd
  | cons b text =>
    have hl : src.len = text.length + 1 := hs.len
    have hz' : src.size ≠ 0 := by have := hs.size_pos; omega
    have hsz : src.size = text.length + 2 + rest.length := by
      simp only [List.length_cons] at hz; omega
    have htake : (b :: text ++ 0 :: rest).take (src.len + 1) = b :: text ++ [0] := by
      rw [hl]
      have : (b :: text ++ 0 :: rest) = (b :: text ++ [0]) ++ rest := by simp
      rw [this, List.take_left' (by simp)]
    have hrep : List.replicate src.size uninit =
        [] ++ List.replicate (text.length + 2) uninit ++ List.replicate rest.length uninit := by
      rw [hsz, List.replicate_add]
      rfl
    have hlen : ¬ (b :: text ++ 0 :: rest).length < src.len + 1 := by
      rw [hl]
      simp
    rw [if_neg (by rw [hl]; simp [hz'])]
    simp only [run_bind_get, run_bind_put, Bool.not_true, Bool.false_eq_true, if_false, hv,
      deref_some, run_bind_ret, if_neg hlen, htake]
    have hw : (memcpy 0 (b :: text ++ [0])).run
        ⟨some (List.replicate src.size uninit), 0, dest.len, dest.owner⟩ = _ :=
      memcpy_inside _ [] (List.replicate (text.length + 2) uninit)
        (List.replicate rest.length uninit) (congrArg some hrep) rfl (by simp)
    rw [run_bind_ok hw]
    refine ⟨_, rfl, ⟨hl, List.replicate rest.length uninit, by simp, ?_⟩, by simp⟩
    simpa using hz

theorem strMove_holds {dest src : Str} {old text : Bytes} (hd : Holds dest old)
    (hs : Holds src text) :
    ∃ d s, (strMove true).run (dest, src) = .ok () (d, s) ∧ Holds d text ∧ Holds s [] := by
  obtain ⟨d, hcopy, hd', -⟩ := strCopy_holds hd hs
  obtain ⟨s, htrunc, hs', -⟩ := strTruncate_holds hs
  refine ⟨d, s, ?_, hd', hs'⟩
  simp only [strMove, run_bind_get]
  rw [run_bind_ok (run_zoom_ok hcopy)]
  exact run_zoom_ok htrunc

/-- Growing keeps the text; the buffer is only replaced by a larger one. -/
theorem strResize_holds {s : Str} {text : Bytes} {n : Nat} (h : Holds s text) (hn : 0 < n)
    (hmax : n ≤ stringMax) :
    ∃ t, (strResize true n).run s = .ok () t ∧ Holds t text ∧ t.size = max s.size n ∧
      t.owner = s.owner := by
  obtain ⟨rest, hv, hz⟩ := h.value
  unfold strResize
  rw [if_neg (by omega), if_neg (by omega)]
  simp only [run_bind_get]
  by_cases hlt : s.size < n
  · rw [if_pos hlt]
    -- The grown buffer is the old one, some fill, and the byte that is cleared last.
    have hre : realloc s.value n =
        (text ++ 0 :: rest ++ List.replicate (n - s.size - 1) uninit) ++ [uninit] ++ [] := by
      have hlen : (text ++ 0 :: rest).length = s.size := by simp [hz]; omega
      have hr : List.replicate n uninit = List.replicate (n - s.size - 1) uninit ++ [uninit] ++
          List.replicate s.size uninit := by
        rw [← List.replicate_succ', ← List.replicate_add]
        congr 1
        omega
      rw [realloc, hv, Option.getD_some, hr, ← List.append_assoc, ← List.append_assoc,
        List.take_left' (by simp only [List.length_append, hlen, List.length_replicate,
          List.length_singleton]; omega)]
      simp
    have hw : (memcpy (n - 1) [0]).run { s with value := some (realloc s.value n) } = _ :=
      memcpy_inside _ _ _ _ (congrArg some hre)
      (by simp only [List.length_append, List.length_cons, List.length_replicate]; omega) rfl
    simp only [Bool.not_true, Bool.false_eq_true, if_false, run_bind_put]
    rw [run_bind_ok hw]
    refine ⟨_, rfl, ⟨h.len, rest ++ List.replicate (n - s.size - 1) uninit ++ [0], by simp, ?_⟩,
      by simp; omega, rfl⟩
    simp only [List.length_append, List.length_replicate, List.length_singleton]
    omega
  · rw [if_neg hlt]
    exact ⟨s, rfl, h, by omega, rfl⟩

/-- The write half of `str_cat`, once the buffer is known to be large enough. -/
theorem memcpy_text {s : Str} {old text : Bytes} (h : Holds s old) (hne : text ≠ [])
    (hfit : old.length + text.length + 1 ≤ s.size) (k : Act Str Unit) :
    ∃ post, s.size = old.length + text.length + 1 + post.length ∧
      (do memcpy s.len text; memcpy (s.len + text.length) [0]; k).run s =
        k.run { s with value := some (old ++ text ++ [0] ++ post) } := by
  obtain ⟨rest, hv, hz⟩ := h.value
  have hpos : 0 < text.length := List.length_pos_iff.mpr hne
  -- Split the free part of the buffer where the new text and its NUL will end.
  obtain ⟨mid, b, post, hsplit, hmid⟩ := cut_at (0 :: rest) text.length
    (by simp only [List.length_cons]; omega)
  have hbuf : s.value = some (old ++ mid ++ b :: post) := by rw [hv, hsplit, List.append_assoc]
  have hrest : rest.length = mid.length + post.length := by
    have := congrArg List.length hsplit
    simp only [List.length_cons, List.length_append] at this
    omega
  have h₁ : (memcpy s.len text).run s = _ := memcpy_inside _ old mid (b :: post) hbuf h.len hmid
  have h₂ : (memcpy (s.len + text.length) [0]).run
      { s with value := some (old ++ text ++ b :: post) } = _ :=
    memcpy_inside _ (old ++ text) [b] post (by simp) (by simp [h.len]) rfl
  refine ⟨post, by omega, ?_⟩
  rw [run_bind_ok h₁, run_bind_ok h₂]

theorem catText_holds {s : Str} {old text : Bytes} (h : Holds s old) (hne : text ≠ [])
    (hfit : old.length + text.length + 1 ≤ s.size) (hmax : old.length + text.length ≤ stringMax) :
    ∃ t, (do memcpy s.len text; memcpy (s.len + text.length) [0]
             strSetLen (old.length + text.length)).run s = .ok () t ∧
      Holds t (old ++ text) ∧ t.size = s.size ∧ t.owner = s.owner := by
  obtain ⟨post, hz, hrun⟩ := memcpy_text h hne hfit (strSetLen (old.length + text.length))
  have h₃ : (memcpy (old.length + text.length) [0]).run
      { s with value := some (old ++ text ++ [0] ++ post), len := old.length + text.length } = _ :=
    memcpy_inside _ (old ++ text) [0] post rfl (by simp) rfl
  rw [hrun]
  simp only [strSetLen, run_bind_get]
  rw [if_neg (by omega), if_neg (by omega), run_bind_put, h₃]
  refine ⟨_, rfl, ⟨by simp, post, by simp, ?_⟩, rfl, rfl⟩
  simp only [List.length_append]
  omega

/-- Appending succeeds exactly when the result is a string, and fails without any effect. -/
theorem strCat_holds {dest : Str} {old text mem : Bytes} (hd : Holds dest old)
    (hc : cString mem = some text) :
    (old.length + text.length < stringMax →
      ∃ t, (strCat true mem).run dest = .ok () t ∧ Holds t (old ++ text) ∧
        (dest.size ≤ stringMax → t.size ≤ stringMax)) ∧
    (dest.size ≤ stringMax → stringMax ≤ old.length + text.length →
      (strCat true mem).run dest = .thrown dest) := by
  have hlen := hd.len
  have hlt := hd.len_lt_size
  have hM : stringMax = 536870912 := rfl
  unfold strCat
  simp only [hc, deref_some, run_bind_ret]
  constructor
  · intro hfit
    have hnew : (dest.len + text.length + 1) % 2 ^ 64 = old.length + text.length + 1 := by
      rw [hlen, Nat.mod_eq_of_lt]
      omega
    cases htext : text with
    | nil => exact ⟨dest, by simp, by simpa [htext] using hd, id⟩
    | cons b text' =>
      rw [← htext]
      have hne : text ≠ [] := by simp [htext]
      have hpos : 0 < text.length := List.length_pos_iff.mpr hne
      rw [if_neg (by omega), if_neg (by omega), run_bind_get, hnew, if_neg (by omega)]
      by_cases hgrow : old.length + text.length + 1 > dest.size
      · obtain ⟨u, hu, huh, hus, -⟩ := strResize_holds hd (n := old.length + text.length + 1)
          (by omega) (by omega)
        rw [if_pos hgrow, run_bind_ok hu]
        have hul : u.len = dest.len := huh.len.trans hlen.symm
        obtain ⟨t, ht, hth, hts, -⟩ := catText_holds huh hne (by omega) (Nat.le_of_lt hfit)
        rw [hul] at ht
        exact ⟨t, ht, hth, by omega⟩
      · rw [if_neg hgrow]
        obtain ⟨t, ht, hth, hts, -⟩ := catText_holds hd hne (by omega) (Nat.le_of_lt hfit)
        exact ⟨t, ht, hth, by omega⟩
  · intro hmax hbig
    rw [if_neg (by omega)]
    by_cases ht : stringMax ≤ text.length
    · rw [if_pos ht]
      rfl
    · have hnew : (dest.len + text.length + 1) % 2 ^ 64 = old.length + text.length + 1 := by
        rw [hlen, Nat.mod_eq_of_lt]
        omega
      rw [if_neg ht, run_bind_get, hnew, if_neg (by omega), if_pos (by omega)]
      have hr : (strResize true (old.length + text.length + 1)).run dest = .thrown dest := by
        unfold strResize
        rw [if_neg (by omega), if_pos (by omega)]
        rfl
      exact run_bind_thrown hr

theorem strAppend_holds {dest src : Str} {old text : Bytes} (hd : Holds dest old)
    (hs : Holds src text) (hn : NulFree text) :
    (old.length + text.length < stringMax →
      ∃ t, (strAppend true src).run dest = .ok () t ∧ Holds t (old ++ text) ∧
        (dest.size ≤ stringMax → t.size ≤ stringMax)) ∧
    (dest.size ≤ stringMax → stringMax ≤ old.length + text.length →
      (strAppend true src).run dest = .thrown dest) := by
  obtain ⟨rest, hv, -⟩ := hs.value
  simp only [strAppend, hv, deref_some, run_bind_ret]
  exact strCat_holds hd (cString_append text rest hn)

/-- `str_ncpy` copies as many bytes as it is told to. -/
theorem strNcpy_holds {dest : Str} {old : Bytes} (hd : Holds dest old) {mem text rest : Bytes}
    (hmem : mem = text ++ rest) (hfit : text.length < stringMax) :
    ∃ t, (strNcpy true mem text.length).run dest = .ok () t ∧ Holds t text ∧
      t.size = max dest.size (if text = [] then 0 else text.length + 1) := by
  rw [strNcpy, if_neg (by omega)]
  by_cases hne : text = []
  · rw [if_pos (by simp [hne]), hne]
    simpa using strTruncate_holds hd
  · have hpos : 0 < text.length := List.length_pos_iff.mpr hne
    rw [if_neg (by omega)]
    obtain ⟨u, hu, huh, hus⟩ := strTruncate_holds hd
    obtain ⟨v, hv, hvh, hvs, -⟩ := strResize_holds huh (n := text.length + 1) (by omega) (by omega)
    have hsrc : ¬ mem.length < text.length := by rw [hmem]; simp
    have htake : mem.take text.length = text := by rw [hmem, List.take_left' rfl]
    rw [run_bind_ok hu, run_bind_ok hv, if_neg hsrc, htake]
    -- The buffer starts with the NUL of the truncated text; cut it after `text.length + 1`.
    obtain ⟨vrest, hvv, hvz⟩ := hvh.value
    simp only [List.length_nil, List.nil_append] at hvv hvz
    obtain ⟨mid, c, post, hsplit, hmid⟩ := cut_at (0 :: vrest) text.length
      (by simp only [List.length_cons]; omega)
    have hpost : vrest.length = mid.length + post.length := by
      have := congrArg List.length hsplit
      simp only [List.length_cons, List.length_append] at this
      omega
    have h₁ : (memcpy 0 text).run v = _ :=
      memcpy_inside _ [] mid (c :: post) (by rw [hvv, hsplit]; simp) rfl hmid
    have h₂ : (memcpy text.length [0]).run { v with value := some ([] ++ text ++ c :: post) } = _ :=
      memcpy_inside _ text [c] post (by simp) rfl rfl
    rw [run_bind_ok h₁, run_bind_ok h₂]
    refine ⟨_, rfl, ⟨rfl, post, by simp, by simp only; omega⟩, ?_⟩
    simp only [hne, if_false]
    omega

/-- `str_cpy` refuses a text that no string object can hold, before it touches anything. -/
theorem strCpy_holds {dest : Str} {old text mem : Bytes} (hd : Holds dest old)
    (hc : cString mem = some text) :
    (text.length < stringMax →
      ∃ t, (strCpy true mem).run dest = .ok () t ∧ Holds t text ∧
        t.size = max dest.size (if text = [] then 0 else text.length + 1)) ∧
    (stringMax ≤ text.length → (strCpy true mem).run dest = .thrown dest) := by
  have hlen := cbufLen_text dest hc
  obtain ⟨rest, hmem⟩ := cString_split hc
  rw [strCpy]
  constructor
  · intro hfit
    rw [if_pos hfit] at hlen
    rw [run_bind_ok hlen]
    exact strNcpy_holds hd hmem hfit
  · intro hbig
    rw [if_neg (by omega)] at hlen
    exact run_bind_thrown hlen

/-- An alias of a terminated array is a string object over that very memory. -/
theorem strAlias_holds {mem text : Bytes} (s : Str) (hc : cString mem = some text) :
    (text.length < stringMax → ∃ t, (strAlias mem).run s = .ok () t ∧ t.len = text.length ∧
      t.size = text.length + 1 ∧ t.value = some mem) ∧
    (stringMax ≤ text.length → ∃ t, (strAlias mem).run s = .thrown t) := by
  have hlen := cbufLen_text { s with owner := false, value := some mem } hc
  simp only [strAlias, run_bind_get, run_bind_put]
  constructor
  · intro hfit
    rw [if_pos hfit] at hlen
    rw [run_bind_ok hlen]
    exact ⟨_, rfl, rfl, rfl, rfl⟩
  · intro hbig
    rw [if_neg (by omega)] at hlen
    exact ⟨_, run_bind_thrown hlen⟩

/-- A copy of an alias is a copy of its text, whatever is behind it in memory. -/
theorem strAlias_copied {mem text : Bytes} (s : Str) (hc : cString mem = some text)
    (hfit : text.length < stringMax) :
    ∃ t u, (strAlias mem).run s = .ok () t ∧ Holds u text ∧ strCopy true t = strCopy true u := by
  obtain ⟨t, halias, hlen, hsize, hval⟩ := (strAlias_holds s hc).1 hfit
  obtain ⟨rest, rfl⟩ := cString_split hc
  refine ⟨t, { t with value := some (charArray text) }, halias, ⟨hlen, [], rfl, hsize⟩, ?_⟩
  have htake : (text ++ 0 :: rest).take (text.length + 1) = charArray text := by
    rw [List.append_cons, List.take_left' (by simp)]
    rfl
  have htake' : (charArray text).take (text.length + 1) = charArray text :=
    List.take_of_length_le (by simp [charArray])
  have hlong : ¬ (text ++ 0 :: rest).length < text.length + 1 := by simp
  have hlong' : ¬ (charArray text).length < text.length + 1 := by simp [charArray]
  have hbind : ∀ (b : Bytes) (f : Bytes → Act Str Unit), (ret b >>= f) = f b := fun _ _ => rfl
  simp only [strCopy, hval, hlen, deref_some, hbind, if_neg hlong, if_neg hlong', htake, htake']

theorem strcmp_eq_zero (a b : Bytes) : strcmp a b = 0 ↔ a = b := by
  induction a generalizing b with
  | nil => cases b <;> simp [strcmp]
  | cons x a ih =>
    cases b with
    | nil => simp [strcmp]
    | cons y b =>
      simp only [strcmp]
      split
      · rename_i hxy
        simp [ih, hxy]
      · rename_i hxy
        split <;> simp [hxy]

theorem strCmp_holds {σ : Type} {s : Str} {text mem key : Bytes} (hs : Holds s text)
    (hc : cString mem = some key) (st : σ) :
    (strCmp s mem).run st = .ok (strcmp (cText text) key) st := by
  obtain ⟨rest, hv, -⟩ := hs.value
  simp [strCmp, hv, cString_cText text rest, hc]

/-- The text without the line terminator at its end, or without a CR that stands there alone. -/
def chomp (text : Bytes) : Bytes :=
  if text.getLast? = some 10 then
    if text.dropLast.getLast? = some 13 then text.dropLast.dropLast else text.dropLast
  else if text.getLast? = some 13 then text.dropLast else text

theorem chompAt_holds {s : Str} {text : Bytes} {b : UInt8} (h : Holds s (text ++ [b])) :
    ∃ t, (chompAt text.length).run s = .ok () t ∧ Holds t text ∧ t.size = s.size := by
  obtain ⟨rest, hv, hz⟩ := h.value
  have hlen : s.len = text.length + 1 := by simpa using h.len
  have hw : (memcpy text.length [0]).run s = _ := memcpy_inside _ text [b] (0 :: rest) hv rfl rfl
  simp only [chompAt]
  rw [run_bind_ok hw]
  refine ⟨_, rfl, ⟨by simp [hlen], 0 :: rest, by simp, ?_⟩, rfl⟩
  simp only [List.length_append, List.length_cons, List.length_nil] at hz ⊢
  omega

theorem Holds.last {s : Str} {text : Bytes} {b : UInt8} (h : Holds s (text ++ [b])) :
    (peek text.length).run s = .ok b s := by
  obtain ⟨rest, hv, -⟩ := h.value
  exact peek_at _ text (0 :: rest) (by simpa using hv) rfl

theorem chompCr_holds {s : Str} {text : Bytes} (h : Holds s text) :
    ∃ t, (chompCr (text.length - 1)).run s = .ok () t ∧
      Holds t (if text.getLast? = some 13 then text.dropLast else text) ∧ t.size = s.size := by
  simp only [chompCr, run_bind_get]
  rcases List.eq_nil_or_concat text with rfl | ⟨init, b, rfl⟩
  · have hlen : s.len = 0 := h.len
    exact ⟨s, by simp [hlen], by simpa using h, rfl⟩
  · rw [List.concat_eq_append] at h ⊢
    have hlen : s.len > 0 := by simp [h.len]
    rw [if_pos hlen]
    simp only [List.length_append, List.length_singleton, Nat.add_sub_cancel]
    rw [run_bind_ok h.last]
    by_cases hb : b = 13
    · simpa [hb] using chompAt_holds h
    · exact ⟨s, by simp [hb], by simpa [hb] using h, rfl⟩

theorem strChomp_holds {s : Str} {text : Bytes} (h : Holds s text) :
    ∃ t, strChomp.run s = .ok () t ∧ Holds t (chomp text) ∧ t.size = s.size := by
  simp only [strChomp, run_bind_get]
  rcases List.eq_nil_or_concat text with rfl | ⟨init, b, rfl⟩
  · have hlen : s.len = 0 := h.len
    exact ⟨s, by simp [hlen], by simpa [chomp] using h, rfl⟩
  · rw [List.concat_eq_append] at h ⊢
    have hlen : s.len = init.length + 1 := by simpa using h.len
    have hcp : strGetTerminator s = init.length := by simp [strGetTerminator, hlen]
    rw [if_neg (by omega), hcp, run_bind_ok h.last]
    by_cases hb : b = 10
    · obtain ⟨u, hu, huh, hus⟩ := chompAt_holds h
      obtain ⟨t, ht, hth, hts⟩ := chompCr_holds huh
      rw [if_pos hb, run_bind_ok hu]
      exact ⟨t, ht, by simpa [chomp, hb] using hth, by omega⟩
    · obtain ⟨t, ht, hth, hts⟩ := chompCr_holds h
      rw [if_neg hb]
      exact ⟨t, by simpa using ht, by simpa [chomp, hb] using hth, hts⟩

/-- `str_cmp_terminator` accepts the empty string and every text with that last byte. -/
theorem strCmpTerminator_holds {s : Str} {text : Bytes} {c : UInt8} (h : Holds s text) :
    (strCmpTerminator c).run s =
      if text = [] ∨ text.getLast? = some c then .ok () s else .thrown s := by
  simp only [strCmpTerminator, run_bind_get]
  rcases List.eq_nil_or_concat text with rfl | ⟨init, b, rfl⟩
  · have hlen : s.len = 0 := h.len
    simp [hlen]
  · rw [List.concat_eq_append] at h ⊢
    have hlen : s.len = init.length + 1 := by simpa using h.len
    rw [if_pos (by omega), hlen, Nat.add_sub_cancel, run_bind_ok h.last]
    by_cases hb : b = c <;> simp [hb]

end NcString
