import NaturalC.NcEscape

/-!
# The invariant of string objects

The functions of `string.c` that edit a string in place, and what all of them have in common:
the text ends inside of the buffer with a NUL behind it, and the buffer is no larger than
`STRING_MAX`. Every call leaves a string like that behind, also one that throws.
-/
namespace NcString

open Throwing Throwing.Act

def strTruncateAt (position : Nat) : Act Str Unit := do
  let src ← get
  if position > src.len then throwing
  else do
    memcpy position [0]
    let src ← get
    put { src with len := position }

def strSetTerminator (room : Bool) (terminator : Int) : Act Str Unit := do
  let str ← get
  if str.len > 0 then do
    memcpy (str.len - 1) [toChar terminator]
    if terminator = 0 then do
      let str ← get
      put { str with len := str.len - 1 }
    else pure ()
  else strPutc room (toChar terminator)

/-- `toupper(3)` in the C locale. -/
def toUpper (c : UInt8) : UInt8 := if 97 ≤ c ∧ c ≤ 122 then c - 32 else c

/-- The loop of `str_to_upper`. -/
def toUpperFrom : List Nat → Act Str Unit
  | [] => pure ()
  | i :: is => do
    let c ← peek i
    memcpy i [toUpper c]
    toUpperFrom is

def strToUpper : Act Str Unit := do
  let s ← get
  toUpperFrom (List.range s.len)

/-- One round of the loop in `str_translate`; the first character is never compared. -/
def translateStep (old new : UInt8) (cp : Nat) : Act Str (Nat ⊕ Unit) := do
  let c ← peek cp
  if c = 0 then pure (.inr ())
  else do
    let c ← peek (cp + 1)
    if c = old then memcpy (cp + 1) [new] else pure ()
    pure (.inl (cp + 1))

def strTranslate (old new : Int) : Act Str Unit := do
  let s ← get
  loop (translateStep (toChar old) (toChar new)) (s.size + 1) 0

/-- `str_swap` on `(s1, s2)`. -/
def strSwap : Act (Str × Str) Unit := do
  let (s1, s2) ← get
  put (s2, s1)

def strPrepend (room : Bool) (src : Str) : Act Str Unit := do
  let buf ← strNew true true
  let dest ← get
  let (_, buf) ← onLocal (strCopy room dest) buf
  strCopy room src
  strAppend room buf

/-- What `read(2)` does. -/
inductive ReadResult where
  | data (bytes : Bytes)
  | eagain
  | failed
  deriving DecidableEq, Repr

/-- `str_read`, with its return value; the result of `read(2)` is given. -/
def strRead (room : Bool) (size : Nat) (result : ReadResult) : Act Str Nat := do
  if size > stringMax then throwing
  else do
    strTruncate
    strResize room (size + 1)
    match result with
    | .eagain => pure 1
    | .failed => throwing
    | .data bytes => do
      memcpy 0 bytes
      strSetLen bytes.length
      pure 0

/-- What all functions rely on: `len < size <= STRING_MAX`, the buffer has `size` bytes and
`value[len]` is a NUL. -/
structure Sound (s : Str) : Prop where
  len : s.len < s.size
  size : s.size ≤ stringMax
  value : ∃ buf, s.value = some buf ∧ buf.length = s.size ∧ buf[s.len]? = some 0

variable {s : Str}

theorem Holds.sound {text : Bytes} (h : Holds s text) (hz : s.size ≤ stringMax) : Sound s := by
  obtain ⟨rest, hv, hs⟩ := h.value
  refine ⟨h.len_lt_size, hz, _, hv, ?_, ?_⟩
  · simp only [List.length_append, List.length_cons]
    omega
  · rw [h.len]
    simp

theorem Sound.wf (h : Sound s) : s.WF := by
  obtain ⟨buf, hv, hlen, hnul⟩ := h.value
  have hlt : s.len < buf.length := hlen ▸ h.len
  have htext : s.text = buf.take s.len := by rw [Str.text, hv, Option.getD_some]
  have hnul : buf.get ⟨s.len, hlt⟩ = 0 := by
    rw [List.get_eq_getElem]
    exact Option.some.inj ((List.getElem?_eq_getElem hlt).symm.trans hnul)
  rw [Str.WF, htext]
  refine ⟨?_, buf.drop (s.len + 1), ?_, ?_⟩
  · rw [List.length_take]
    omega
  · rw [hv, ← hnul, List.get_eq_getElem, List.getElem_cons_drop, List.take_append_drop]
  · rw [List.length_take, List.length_drop]
    omega

theorem strNew_sound : ∃ s, (strNew true true : Act Unit Str).run () = .ok s () ∧ Sound s := by
  obtain ⟨s, hrun, hs, hz⟩ := strNew_holds ()
  exact ⟨s, hrun, hs.sound (by rw [hz]; decide)⟩

/-- One byte is written into the buffer. -/
theorem memcpy_byte {buf : Bytes} {i : Nat} {b : UInt8} (hv : s.value = some buf) (hi : i < buf.length) :
    (memcpy i [b]).run s = .ok () { s with value := some (buf.set i b) } := by
  simp only [memcpy, run_bind_get, hv, deref_some, run_bind_ret]
  rw [List.length_singleton, if_pos (by omega), List.set_eq_take_append_cons_drop, if_pos hi]
  simp

/-- A byte of the text is written, or one more NUL at its end. -/
theorem Sound.poke (h : Sound s) {i : Nat} {b : UInt8} (hi : i ≤ s.len) (hb : i = s.len → b = 0) :
    ∃ t, (memcpy i [b]).run s = .ok () t ∧ Sound t ∧ t.len = s.len ∧ t.size = s.size := by
  obtain ⟨buf, hv, hlen, hnul⟩ := h.value
  have hlt := h.len
  refine ⟨_, memcpy_byte hv (by omega), ⟨h.len, h.size, buf.set i b, rfl, ?_, ?_⟩, rfl, rfl⟩
  · rw [List.length_set, hlen]
  · dsimp only
    by_cases hi' : i = s.len
    · rw [hi', hb hi', List.getElem?_set_self (by omega)]
    · rw [List.getElem?_set_ne hi', hnul]

/-- The text is cut off, or goes on with what stood in the buffer. -/
theorem Sound.cut (h : Sound s) {n : Nat} (hn : n < s.size) :
    ∃ t, (memcpy n [0]).run s = .ok () t ∧ Sound { t with len := n } ∧ t.size = s.size := by
  obtain ⟨buf, hv, hlen, -⟩ := h.value
  refine ⟨_, memcpy_byte hv (by omega), ⟨hn, h.size, buf.set n 0, rfl, ?_, ?_⟩, rfl⟩
  · rw [List.length_set, hlen]
  · dsimp only
    rw [List.getElem?_set_self (by omega)]

theorem Sound.peek (h : Sound s) {i : Nat} (hi : i ≤ s.len) :
    ∃ b, (NcString.peek i).run s = .ok b s ∧ (i = s.len → b = 0) := by
  obtain ⟨buf, hv, hlen, hnul⟩ := h.value
  have hlt : i < buf.length := by
    have := h.len
    omega
  refine ⟨buf.get ⟨i, hlt⟩, ?_, ?_⟩
  · simp only [NcString.peek, run_bind_get, hv, deref_some, run_bind_ret]
    rw [List.getElem?_eq_getElem hlt]
    rfl
  · rintro rfl
    rw [List.get_eq_getElem]
    exact Option.some.inj ((List.getElem?_eq_getElem hlt).symm.trans hnul)

/-! ## Every function keeps the invariant -/

theorem strTruncate_sound (h : Sound s) : (strTruncate.run s).Returns Sound := by
  obtain ⟨t, hrun, ht, hz⟩ := strTruncate_holds h.wf
  rw [hrun]
  exact ht.sound (hz ▸ h.size)

theorem strCopy_sound (h : Sound s) {src : Str} (hsrc : Sound src) :
    ((strCopy true src).run s).Returns Sound := by
  obtain ⟨t, hrun, ht, hz⟩ := strCopy_holds h.wf hsrc.wf
  rw [hrun]
  apply ht.sound
  rw [hz]
  split
  · exact h.size
  · exact hsrc.size

/-- A buffer that has been resized has the room that was asked for. -/
theorem size_strResize (h : Sound s) {n : Nat} {t : Str} (hrun : (strResize true n).run s = .ok () t) :
    n ≤ t.size := by
  by_cases hn : n = 0
  · exact hn ▸ Nat.zero_le _
  by_cases hmax : n > stringMax
  · rw [strResize, if_neg hn, if_pos hmax] at hrun
    cases hrun
  obtain ⟨u, hu, -, hz, -⟩ := strResize_holds h.wf (Nat.pos_of_ne_zero hn) (Nat.le_of_not_lt hmax)
  rw [hrun] at hu
  cases hu
  rw [hz]
  exact Nat.le_max_right _ _

theorem strResize_sound (h : Sound s) (n : Nat) : ((strResize true n).run s).Returns Sound := by
  by_cases hn : n = 0
  · rw [strResize, if_pos hn]
    exact h
  by_cases hmax : n > stringMax
  · rw [strResize, if_neg hn, if_pos hmax]
    exact h
  obtain ⟨t, hrun, ht, hz, -⟩ := strResize_holds h.wf (Nat.pos_of_ne_zero hn) (Nat.le_of_not_lt hmax)
  rw [hrun]
  apply ht.sound
  rw [hz]
  exact Nat.max_le.mpr ⟨h.size, Nat.le_of_not_lt hmax⟩

/-- What came into the buffer up to the new length becomes the text. -/
theorem strSetLen_runs {buf : Bytes} {n : Nat} (hv : s.value = some buf) (hlen : buf.length = s.size)
    (hz : s.size ≤ stringMax) (hn : n < s.size) :
    ∃ t, (strSetLen n).run s = .ok () t ∧ Sound t := by
  have hlt : n < buf.length := by omega
  simp only [strSetLen, run_bind_get]
  rw [if_neg (by omega), if_neg (Nat.not_le.mpr hn), run_bind_put]
  rw [memcpy_byte (show { s with len := n }.value = some buf from hv) hlt]
  refine ⟨_, rfl, hn, hz, buf.set n 0, rfl, ?_, ?_⟩
  · rw [List.length_set, hlen]
  · exact List.getElem?_set_self hlt

theorem strSetLen_sound (h : Sound s) (n : Nat) : ((strSetLen n).run s).Returns Sound := by
  by_cases hn : n < s.size
  · obtain ⟨buf, hv, hlen, -⟩ := h.value
    obtain ⟨t, hrun, ht⟩ := strSetLen_runs hv hlen h.size hn
    rw [hrun]
    exact ht
  · have hthrow : (strSetLen n).run s = .thrown s := by
      simp only [strSetLen, run_bind_get]
      rw [if_pos (Nat.le_of_not_lt hn)]
      split <;> rfl
    rw [hthrow]
    exact h

theorem strCat_sound (h : Sound s) {mem : Bytes} (hmem : 0 ∈ mem) :
    ((strCat true mem).run s).Returns Sound := by
  have hc : cString mem = some (mem.takeWhile (· != 0)) := if_pos hmem
  obtain ⟨hok, hbig⟩ := strCat_holds h.wf hc
  by_cases hfit : s.text.length + (mem.takeWhile (· != 0)).length < stringMax
  · obtain ⟨t, hrun, ht, hz⟩ := hok hfit
    rw [hrun]
    exact ht.sound (hz h.size)
  · rw [hbig h.size (Nat.le_of_not_lt hfit)]
    exact h

theorem strPutc_sound (h : Sound s) (c : UInt8) : ((strPutc true c).run s).Returns Sound :=
  strCat_sound h (by simp)

theorem strAppend_sound (h : Sound s) {src : Str} (hsrc : Sound src) :
    ((strAppend true src).run s).Returns Sound := by
  obtain ⟨buf, hv, -, hnul⟩ := hsrc.value
  simp only [strAppend, hv, deref_some, run_bind_ret]
  exact strCat_sound h (List.mem_of_getElem? hnul)

theorem strPrepend_sound (h : Sound s) {src : Str} (hsrc : Sound src) :
    ((strPrepend true src).run s).Returns Sound := by
  obtain ⟨buf, hnew, hbuf, hz⟩ := strNew_holds s
  have hbuf : Sound buf := hbuf.sound (by rw [hz]; decide)
  simp only [strPrepend]
  rw [run_bind_ok hnew, run_bind_get]
  apply returns_bind_onLocal (strCopy_sound hbuf h) h
  intro _ b _ hb
  apply returns_bind (strCopy_sound h hsrc)
  intro _ t _ ht
  exact strAppend_sound ht hb

/-- What is behind the text of the destination has been read or copied into the buffer. -/
theorem memcpy_front {buf : Bytes} (bs : Bytes) (hv : s.value = some buf) (hlen : bs.length ≤ buf.length) :
    (memcpy 0 bs).run s = .ok () { s with value := some (bs ++ buf.drop bs.length) } := by
  simp only [memcpy, run_bind_get, hv, deref_some, run_bind_ret]
  rw [Nat.zero_add, if_pos hlen, List.take_zero, List.nil_append]
  rfl

theorem strNcpy_sound (h : Sound s) {src : Bytes} {len : Nat} (hlen : len ≤ src.length) :
    ((strNcpy true src len).run s).Returns Sound := by
  by_cases hmax : len > stringMax
  · rw [strNcpy, if_pos hmax]
    exact h
  by_cases hzero : len = 0
  · rw [strNcpy, if_neg hmax, if_pos hzero]
    exact strTruncate_sound h
  rw [strNcpy, if_neg hmax, if_neg hzero]
  apply returns_bind (strTruncate_sound h)
  intro _ t _ ht
  apply returns_bind (strResize_sound ht _)
  intro _ u hresize hu
  have hroom := size_strResize ht hresize
  rw [if_neg (Nat.not_lt.mpr hlen)]
  obtain ⟨buf, hv, hbuf, -⟩ := hu.value
  have htake : (src.take len).length = len := List.length_take_of_le hlen
  rw [run_bind_ok (memcpy_front _ hv (by omega)), htake]
  rw [run_bind_ok (memcpy_byte rfl (by simp only [List.length_append, List.length_drop]; omega))]
  refine ⟨hroom, hu.size, _, rfl, ?_, ?_⟩
  · simp only [List.length_set, List.length_append, List.length_drop]
    omega
  · apply List.getElem?_set_self
    simp only [List.length_append, List.length_drop]
    omega

theorem strCpy_sound (h : Sound s) {src : Bytes} (hsrc : 0 ∈ src) :
    ((strCpy true src).run s).Returns Sound := by
  have hc : cString src = some (src.takeWhile (· != 0)) := if_pos hsrc
  have hlen := cbufLen_text s hc
  rw [strCpy]
  split at hlen
  · rw [run_bind_ok hlen]
    exact strNcpy_sound h (List.takeWhile_sublist _).length_le
  · rw [run_bind_thrown hlen]
    exact h

theorem strTruncateAt_sound (h : Sound s) (n : Nat) : ((strTruncateAt n).run s).Returns Sound := by
  simp only [strTruncateAt, run_bind_get]
  by_cases hn : n > s.len
  · rw [if_pos hn]
    exact h
  · obtain ⟨t, hrun, ht, -⟩ := h.cut (Nat.lt_of_le_of_lt (Nat.le_of_not_lt hn) h.len)
    rw [if_neg hn, run_bind_ok hrun]
    exact ht

theorem strSetTerminator_sound (h : Sound s) (terminator : Int) :
    ((strSetTerminator true terminator).run s).Returns Sound := by
  simp only [strSetTerminator, run_bind_get]
  by_cases hlen : s.len > 0
  · rw [if_pos hlen]
    by_cases hzero : terminator = 0
    · subst hzero
      obtain ⟨t, hrun, ht, -⟩ := h.cut (Nat.lt_of_le_of_lt (Nat.sub_le s.len 1) h.len)
      obtain ⟨u, hrun', -, hlen', -⟩ := h.poke (Nat.sub_le s.len 1) (b := 0) (fun _ => rfl)
      rw [hrun] at hrun'
      cases hrun'
      rw [show toChar 0 = 0 from rfl, run_bind_ok hrun, if_pos rfl, run_bind_get, hlen']
      exact ht
    · obtain ⟨t, hrun, ht, -⟩ := h.poke (Nat.sub_le s.len 1) (b := toChar terminator) (by omega)
      rw [run_bind_ok hrun, if_neg hzero]
      exact ht
  · rw [if_neg hlen]
    exact strPutc_sound h _

theorem strChomp_sound (h : Sound s) : (strChomp.run s).Returns Sound := by
  obtain ⟨t, hrun, ht, hz⟩ := strChomp_holds h.wf
  rw [hrun]
  exact ht.sound (hz ▸ h.size)

theorem toUpperFrom_sound (is : List Nat) (h : Sound s) (his : ∀ i ∈ is, i < s.len) :
    ((toUpperFrom is).run s).Returns Sound := by
  induction is generalizing s with
  | nil => exact h
  | cons i is ih =>
    have hi := his i (by simp)
    obtain ⟨c, hpeek, -⟩ := h.peek (Nat.le_of_lt hi)
    obtain ⟨t, hpoke, ht, hlen, -⟩ := h.poke (Nat.le_of_lt hi) (b := toUpper c) (by omega)
    rw [toUpperFrom, run_bind_ok hpeek, run_bind_ok hpoke]
    apply ih ht
    intro j hj
    rw [hlen]
    exact his j (List.mem_cons_of_mem _ hj)

theorem strToUpper_sound (h : Sound s) : (strToUpper.run s).Returns Sound := by
  simp only [strToUpper, run_bind_get]
  exact toUpperFrom_sound _ h fun i hi => List.mem_range.mp hi

/-- The loop stops at the NUL behind the text, if not before. -/
theorem loop_translate {old new : UInt8} (hold : old ≠ 0) (h : Sound s) {cp fuel : Nat}
    (hcp : cp ≤ s.len) (hf : s.len - cp < fuel) :
    ((loop (translateStep old new) fuel cp).run s).Returns Sound := by
  induction fuel generalizing s cp with
  | zero => omega
  | succ fuel ih =>
    obtain ⟨c, hc, hend⟩ := h.peek hcp
    by_cases hc0 : c = 0
    · have hstep : (translateStep old new cp).run s = .ok (.inr ()) s := by
        rw [translateStep, run_bind_ok hc, if_pos hc0]
        rfl
      rw [run_loop_inr hstep]
      exact h
    · have hlt : cp < s.len := Nat.lt_of_le_of_ne hcp fun he => hc0 (hend he)
      obtain ⟨d, hd, hend'⟩ := h.peek hlt
      -- Only a character that is not the NUL at the end is replaced.
      have hround : ∃ t, (translateStep old new cp).run s = .ok (.inl (cp + 1)) t ∧ Sound t ∧
          t.len = s.len := by
        rw [translateStep, run_bind_ok hc, if_neg hc0, run_bind_ok hd]
        by_cases hdo : d = old
        · obtain ⟨t, hpoke, ht, hlen, -⟩ :=
            h.poke hlt (b := new) (fun he => absurd (hdo.symm.trans (hend' he)) hold)
          rw [if_pos hdo, run_bind_ok hpoke]
          exact ⟨t, rfl, ht, hlen⟩
        · rw [if_neg hdo]
          exact ⟨s, rfl, h, rfl⟩
      obtain ⟨t, hround, ht, hlen⟩ := hround
      rw [run_loop_inl hround]
      apply ih ht
      · rw [hlen]
        exact hlt
      · rw [hlen]
        omega

theorem strTranslate_sound {old : Int} (hold : toChar old ≠ 0) (new : Int) (h : Sound s) :
    ((strTranslate old new).run s).Returns Sound := by
  simp only [strTranslate, run_bind_get]
  have hlt := h.len
  exact loop_translate hold h (Nat.zero_le _) (by omega)

/-- `str_read` with any number of bytes that `read(2)` may return. -/
theorem strRead_sound (h : Sound s) {size : Nat} {result : ReadResult}
    (hread : ∀ bytes, result = .data bytes → bytes.length ≤ size) :
    ((strRead true size result).run s).Returns Sound := by
  by_cases hmax : size > stringMax
  · simp only [strRead, if_pos hmax]
    exact h
  simp only [strRead, if_neg hmax]
  apply returns_bind (strTruncate_sound h)
  intro _ t _ ht
  apply returns_bind (strResize_sound ht _)
  intro _ u hresize hu
  cases result with
  | eagain => exact hu
  | failed => exact hu
  | data bytes =>
    have hroom := size_strResize ht hresize
    have hfit := hread bytes rfl
    obtain ⟨buf, hv, hbuf, -⟩ := hu.value
    dsimp only
    rw [run_bind_ok (memcpy_front bytes hv (by omega))]
    obtain ⟨w, hset, hw⟩ := strSetLen_runs (s := { u with value := some (bytes ++ buf.drop bytes.length) })
      rfl (by rw [List.length_append, List.length_drop, ← hbuf]; omega) hu.size
      (show bytes.length < u.size by omega)
    rw [run_bind_ok hset]
    exact hw

/-- What `read(2)` returns becomes the text. -/
theorem strRead_holds (h : Sound s) {bytes : Bytes} (hmax : bytes.length < stringMax) :
    ∃ t, (strRead true bytes.length (.data bytes)).run s = .ok 0 t ∧ Holds t bytes := by
  obtain ⟨t, htrunc, ht, -⟩ := strTruncate_holds h.wf
  obtain ⟨u, hresize, hu, hz, -⟩ := strResize_holds ht (Nat.succ_pos bytes.length) hmax
  have hroom : bytes.length + 1 ≤ u.size := by
    rw [hz]
    exact Nat.le_max_right _ _
  obtain ⟨rest, hv, hlen⟩ := hu.value
  rw [List.nil_append] at hv
  rw [List.length_nil, Nat.zero_add] at hlen
  obtain ⟨mid, b, post, hbuf, hmid⟩ := cut_at (0 :: rest) bytes.length
    (by rw [List.length_cons]; omega)
  have hdrop : (0 :: rest).drop bytes.length = b :: post := by
    rw [hbuf, List.drop_left' hmid]
  have hpost : u.size = bytes.length + 1 + post.length := by
    have := congrArg List.length hbuf
    simp only [List.length_append, List.length_cons] at this
    omega
  have hset : (strSetLen bytes.length).run { u with value := some (bytes ++ b :: post) } =
      .ok () { u with value := some (bytes ++ 0 :: post), len := bytes.length } := by
    simp only [strSetLen, run_bind_get]
    rw [if_neg (Nat.not_lt.mpr (Nat.le_of_lt hmax)), if_neg (Nat.not_le.mpr hroom), run_bind_put,
      memcpy_byte rfl (by simp)]
    simp
  refine ⟨{ u with value := some (bytes ++ 0 :: post), len := bytes.length }, ?_, ⟨rfl, post, rfl, hpost⟩⟩
  simp only [strRead, if_neg (Nat.not_lt.mpr (Nat.le_of_lt hmax))]
  rw [run_bind_ok htrunc, run_bind_ok hresize,
    run_bind_ok (memcpy_front bytes hv (by rw [List.length_cons]; omega)), hdrop, run_bind_ok hset]
  rfl

theorem putEscaped_sound (h : Sound s) (c : UInt8) : ((putEscaped c).run s).Returns Sound := by
  rw [putEscaped]
  split
  · exact strPutc_sound h c
  · exact strCat_sound h (by simp [charArray])

theorem escapeFrom_sound {mem : Bytes} (is : List Nat) (his : ∀ i ∈ is, i < mem.length) (h : Sound s) :
    ((escapeFrom mem is).run s).Returns Sound := by
  induction is generalizing s with
  | nil => exact h
  | cons i is ih =>
    rw [escapeFrom, List.getElem?_eq_getElem (his i (by simp)), deref_some, run_bind_ret]
    apply returns_bind (putEscaped_sound h _)
    intro _ t _ ht
    exact ih (fun j hj => his j (List.mem_cons_of_mem _ hj)) ht

theorem moveLocal_sound (h : Sound s) {buf : Str} (hbuf : Sound buf) :
    ((moveLocal buf).run s).Returns Sound := by
  obtain ⟨t, hrun, ht, hz⟩ := moveLocal_holds h.wf hbuf.wf hbuf.size
  rw [hrun]
  exact ht.sound (hz h.size)

theorem strEscape_sound (h : Sound s) {src : Str} (hsrc : Sound src) :
    ((strEscape src).run s).Returns Sound := by
  obtain ⟨buf, hnew, hbuf, hz⟩ := strNew_holds s
  have hbuf : Sound buf := hbuf.sound (by rw [hz]; decide)
  obtain ⟨mem, hv, hlen, -⟩ := hsrc.value
  have hlt := hsrc.len
  rw [strEscape, run_bind_ok hnew]
  apply returns_bind (strTruncate_sound h)
  intro _ t _ ht
  by_cases hempty : src.len = 0
  · rw [if_pos hempty]
    exact ht
  · rw [if_neg hempty, hv, deref_some, run_bind_ret]
    have hinside : ∀ i ∈ List.range src.len, i < mem.length := by
      intro i hi
      have := List.mem_range.mp hi
      omega
    apply returns_bind_onLocal (escapeFrom_sound _ hinside hbuf) ht
    intro _ b _ hb
    exact moveLocal_sound ht hb

/-- A NUL inside of a text leaves no trace when the text is escaped. -/
theorem escape_filter (text : Bytes) : escape (text.filter (· ≠ 0)) = escape text := by
  induction text with
  | nil => rfl
  | cons c text ih =>
    by_cases hc : c = 0
    · subst hc
      rw [List.filter_cons_of_neg (by simp), ih]
      rfl
    · rw [List.filter_cons_of_pos (by simpa using hc)]
      change escapeByte c ++ escape _ = escapeByte c ++ escape text
      rw [ih]

/-- `str_unescape` of a text that `str_escape` has written. -/
theorem strUnescape_sound (h : Sound s) {src : Str} (hsrc : Sound src) {text : Bytes}
    (htext : src.text = escape text) : ((strUnescape src).run s).Returns Sound := by
  have hnul : NulFree (text.filter (· ≠ 0)) := by simp [NulFree]
  have hwf := hsrc.wf
  rw [Str.WF, htext, ← escape_filter] at hwf
  have hle := length_le_escape hnul
  have hlen := hwf.len
  have hlt := hsrc.len
  have hmax := hsrc.size
  obtain ⟨t, hrun, ht, hz⟩ := strUnescape_holds h.wf hwf hnul (by omega)
  rw [hrun]
  exact ht.sound (hz h.size)

theorem strMove_sound {dest src : Str} (hd : Sound dest) (hs : Sound src) :
    ((strMove true).run (dest, src)).Returns fun p => Sound p.1 ∧ Sound p.2 := by
  simp only [strMove, run_bind_get]
  apply returns_bind
  · apply returns_zoom (strCopy_sound hd hs)
    intro d hd'
    exact ⟨hd', hs⟩
  · rintro _ p - ⟨hd', hs'⟩
    apply returns_zoom (strTruncate_sound hs')
    intro s hs''
    exact ⟨hd', hs''⟩

end NcString
