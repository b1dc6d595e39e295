import NaturalC.NcHashText

/-!
# Reading the text of a hash table

What `hash_deserialize` makes of a list of lines, as a function on texts: the calls of
`hash_set` that it makes, if it gets to the end. What these calls do to a table is a
function on the texts in its buckets. A call goes wrong when the first entry that compares
equal to the key is the last one of its bucket, which only a value can be.
-/
namespace NcHash

open Throwing Throwing.Act NcString NcList Linked Lines NcSplit Posix

/-- The part of a text between two places. -/
def slice (text : Bytes) (g : Nat × Nat) : Bytes := (text.drop g.1).take (g.2 - g.1)

/-- The key and the value on a line. -/
def splitKey (line : Bytes) : Option (Bytes × Bytes) :=
  match regexec keyLine line with
  | some [_, k, v] => some (slice line k, slice line v)
  | _ => none

/-- The variables of `hash_deserialize`. -/
structure Reading where
  key : Bytes
  val : Bytes
  multiline : Bool
  deriving DecidableEq, Repr

def Reading.start : Reading := ⟨[], [], false⟩

/-- The key and the value that a line leaves in the two buffers. -/
def nextValues (d : Reading) (line : Bytes) : Option (Bytes × Bytes) :=
  if d.key = [] then splitKey line else some (d.key, d.val ++ line)

/-- One line: the new variables and the call of `hash_set`, if there is one. -/
def decodeLine (d : Reading) (line : Bytes) : Option (Reading × Option (Bytes × Bytes)) :=
  if line = [] then some (d, none)
  else
    (nextValues d line).map fun (key, val) =>
      if val.getLast? = some 92 then (⟨key, val.dropLast ++ [10], true⟩, none)
      else (.start, some (key, if d.multiline then val ++ [10] else val))

/-- All lines: the variables at the end and the calls. -/
def decode : Reading → List Bytes → Option (Reading × List (Bytes × Bytes))
  | d, [] => some (d, [])
  | d, line :: lines =>
    (decodeLine d line).bind fun (d', call) =>
      (decode d' lines).map fun (e, calls) => (e, call.toList ++ calls)

/-- The first text is written over. It has to be there. -/
def overwrite (v : Bytes) : List Bytes → Option (List Bytes)
  | [] => none
  | _ :: ts => some (v :: ts)

/-- `hash_set` on the texts of a bucket. -/
def setBucket (k v : Bytes) : List Bytes → Option (List Bytes)
  | [] => some [k, v]
  | t :: ts => (if cText t = k then overwrite v ts else setBucket k v ts).map (t :: ·)

/-- The calls one after the other, on the texts of all buckets. -/
def setAll : (UInt8 → List Bytes) → List (Bytes × Bytes) → Option (UInt8 → List Bytes)
  | B, [] => some B
  | B, (k, v) :: ps => (setBucket k v (B (xorBytes k))).bind fun ts =>
    setAll (Function.update B (xorBytes k) ts) ps

/-- What the lines do to a table: the variables at the end, the calls and the texts in the buckets. -/
def replay (B : UInt8 → List Bytes) (d : Reading) (lines : List Bytes) :
    Option (Reading × List (Bytes × Bytes) × (UInt8 → List Bytes)) :=
  (decode d lines).bind fun (e, calls) => (setAll B calls).map fun B' => (e, calls, B')

/-! ## The expression for a key -/

variable {i : Nat} {t u v w k : Bytes}

theorem mem_parses_keyLine {x : Parse UInt8} : x ∈ parses keyLine i t ↔
    ∃ k v w, t = k ++ 58 :: 32 :: (v ++ w) ∧ k ≠ [] ∧ (∀ c ∈ k, isKeyChar c = true) ∧
      x = ⟨i + k.length + 2 + v.length, w,
        [(i, i + k.length), (i + k.length + 2, i + k.length + 2 + v.length)]⟩ := by
  rw [keyLine, mem_parses_seq]
  constructor
  · rintro ⟨y₁, hy₁, z₁, hz₁, rfl⟩
    obtain ⟨y₂, hy₂, rfl⟩ := mem_parses_group.mp hy₁
    obtain ⟨k, t₁, rfl, hne, hk, rfl⟩ := mem_parses_some.mp hy₂
    obtain ⟨y₃, hy₃, z₃, hz₃, rfl⟩ := mem_parses_seq.mp hz₁
    obtain ⟨c, t₂, rfl, hc, rfl⟩ := mem_parses_cls.mp hy₃
    obtain ⟨y₄, hy₄, z₄, hz₄, rfl⟩ := mem_parses_seq.mp hz₃
    obtain ⟨d, t₃, rfl, hd, rfl⟩ := mem_parses_cls.mp hy₄
    obtain ⟨y₅, hy₅, rfl⟩ := mem_parses_group.mp hz₄
    obtain ⟨v, w, rfl, -, rfl⟩ := mem_parses_many.mp hy₅
    obtain rfl : c = 58 := by simpa using hc
    obtain rfl : d = 32 := by simpa using hd
    exact ⟨k, v, w, rfl, hne, hk, rfl⟩
  · rintro ⟨k, v, w, rfl, hne, hk, rfl⟩
    refine ⟨_, mem_parses_group.mpr ⟨_, mem_parses_some.mpr ⟨k, _, rfl, hne, hk, rfl⟩, rfl⟩, _,
      mem_parses_seq.mpr ⟨_, mem_parses_cls.mpr ⟨58, _, rfl, rfl, rfl⟩, _,
        mem_parses_seq.mpr ⟨_, mem_parses_cls.mpr ⟨32, _, rfl, rfl, rfl⟩, _,
          mem_parses_group.mpr ⟨_, mem_parses_many.mpr ⟨v, w, rfl, by simp, rfl⟩, rfl⟩, rfl⟩, rfl⟩, ?_⟩
    rfl

/-- A match of the expression goes on to the end of the text. -/
theorem pick_keyLine {x : Parse UInt8} (h : pick (parses keyLine i t) = some x) :
    ∃ k v, t = k ++ 58 :: 32 :: v ∧ k ≠ [] ∧ (∀ c ∈ k, isKeyChar c = true) ∧
      x.stop = i + t.length ∧
      x.groups = [(i, i + k.length), (i + k.length + 2, i + t.length)] := by
  obtain ⟨hmem, hmax⟩ := pick_some h
  obtain ⟨k, v, w, rfl, hne, hk, rfl⟩ := mem_parses_keyLine.mp hmem
  -- The match with the rest of the text in its last group is not longer.
  have hle := hmax _ (mem_parses_keyLine.mpr ⟨k, v ++ w, [], by simp, hne, hk, rfl⟩)
  have hw : w = [] := by
    apply List.length_eq_zero_iff.mp
    simp only [List.length_append] at hle
    omega
  subst hw
  refine ⟨k, v, by simp, hne, hk, ?_, ?_⟩
  · simp only [List.length_append, List.length_cons, List.length_nil]
    omega
  · simp only [List.length_append, List.length_cons, List.length_nil, List.cons.injEq, Prod.mk.injEq,
      true_and, and_true]
    omega

theorem not_mem_key (hk : ∀ c ∈ k, isKeyChar c = true) : 58 ∉ k :=
  fun hm => absurd (hk 58 hm) (by decide)

/-- A line that starts with a key. -/
theorem regexec_keyLine (hne : k ≠ []) (hk : ∀ c ∈ k, isKeyChar c = true) (v : Bytes) :
    regexec keyLine (k ++ 58 :: 32 :: v) =
      some [(0, k.length + 2 + v.length), (0, k.length), (k.length + 2, k.length + 2 + v.length)] := by
  have hsome : parses keyLine 0 (k ++ 58 :: 32 :: v) ≠ [] :=
    List.ne_nil_of_mem (mem_parses_keyLine.mpr ⟨k, v, [], by simp, hne, hk, rfl⟩)
  obtain ⟨x, hx, hrun⟩ := regexecFrom_here hsome
  obtain ⟨k', v', heq, -, hk', hstop, hgroups⟩ := pick_keyLine hx
  have hkk : k = k' := by
    have hcut := congrArg (fun s => (cut 58 s).1) heq
    simp only [cut_line (not_mem_key hk), cut_line (not_mem_key hk'), List.cons.injEq] at hcut
    exact hcut.1
  subst hkk
  have hlen : (k ++ 58 :: 32 :: v).length = k.length + 2 + v.length := by
    simp only [List.length_append, List.length_cons]
    omega
  rw [regexec, hrun, hstop, hgroups, hlen]
  simp only [Nat.zero_add]

theorem slice_of_append {a b : Bytes} (ht : t = a ++ u ++ b) : slice t (a.length, a.length + u.length) = u := by
  rw [slice, ht, List.append_assoc, List.drop_left' rfl, Nat.add_sub_cancel_left, List.take_left' rfl]

theorem splitKey_line (hne : k ≠ []) (hk : ∀ c ∈ k, isKeyChar c = true) (v : Bytes) :
    splitKey (k ++ 58 :: 32 :: v) = some (k, v) := by
  have hkey : slice (k ++ 58 :: 32 :: v) (0, k.length) = k := by simp [slice]
  have hval : slice (k ++ 58 :: 32 :: v) (k.length + 2, k.length + 2 + v.length) = v := by
    have h := slice_of_append (t := k ++ 58 :: 32 :: v) (a := k ++ [58, 32]) (u := v) (b := []) (by simp)
    rw [List.length_append] at h
    exact h
  rw [splitKey, regexec_keyLine hne hk]
  dsimp only
  rw [hkey, hval]

/-- Whatever a line has on it, the value goes on to its end. -/
theorem splitKey_some {line : Bytes} (h : splitKey line = some (k, v)) :
    ∃ u, line = u ++ k ++ 58 :: 32 :: v ∧ k ≠ [] ∧ (∀ c ∈ k, isKeyChar c = true) ∧
      regexec keyLine line = some [(u.length, line.length), (u.length, u.length + k.length),
        (u.length + k.length + 2, line.length)] := by
  rw [splitKey] at h
  split at h
  · rename_i g₁ g₂ g₃ hregexec
    obtain ⟨u, t, x, rfl, hx, hmatch⟩ := regexecFrom_some hregexec
    obtain ⟨k', v', rfl, hne, hk, hstop, hgroups⟩ := pick_keyLine hx
    rw [Nat.zero_add] at hmatch hstop hgroups
    rw [hstop, hgroups] at hmatch
    simp only [List.cons.injEq, and_true] at hmatch
    obtain ⟨rfl, rfl, rfl⟩ := hmatch
    have hkey := slice_of_append (t := u ++ (k' ++ 58 :: 32 :: v')) (a := u) (u := k')
      (b := 58 :: 32 :: v') (by simp)
    have hval := slice_of_append (t := u ++ (k' ++ 58 :: 32 :: v')) (a := u ++ k' ++ [58, 32]) (u := v')
      (b := []) (by simp)
    have hlen : u.length + (k' ++ 58 :: 32 :: v').length = (u ++ k' ++ [58, 32]).length + v'.length := by
      simp only [List.length_append, List.length_cons, List.length_nil]
      omega
    have hstart : u.length + k'.length + 2 = (u ++ k' ++ [58, 32]).length := by
      simp only [List.length_append, List.length_cons, List.length_nil]
    rw [hlen, hstart, hkey, hval] at h
    obtain ⟨rfl, rfl⟩ := Prod.mk.inj (Option.some.inj h)
    refine ⟨u, by simp, hne, hk, ?_⟩
    rw [hregexec, ← List.length_append]
  · cases h

theorem regexec_keyLine_none {line : Bytes} (h : splitKey line = none) : regexec keyLine line = none := by
  cases hregexec : regexec keyLine line with
  | none => rfl
  | some pmatch =>
    obtain ⟨u, t, x, rfl, hx, hmatch⟩ := regexecFrom_some hregexec
    obtain ⟨k', v', rfl, -, -, -, hgroups⟩ := pick_keyLine hx
    rw [splitKey, hregexec, hmatch, hgroups] at h
    cases h

/-- The key and the value of a line are copied, or the call throws. -/
theorem strStrRegex_keyLine {σ : Type} {line key val : Str} {text b u : Bytes} (hline : Holds line text)
    (hn : NulFree text) (hmax : text.length < stringMax) (hkey : Holds key b) (hval : Holds val u) (st : σ) :
    match splitKey text with
    | none => (strStrRegex line keyLine [key, val]).run st = .thrown st
    | some (k, v) => ∃ key' val', (strStrRegex line keyLine [key, val]).run st = .ok [key', val'] st ∧
        Holds key' k ∧ Holds val' v := by
  obtain ⟨rest, hv, -⟩ := hline.value
  have hnone : regexec keyLine text = none →
      (strStrRegex line keyLine [key, val] : Act σ (List Str)).run st = .thrown st := by
    intro h
    rw [strStrRegex, hv, deref_some, run_bind_ret, cString_append _ rest hn, deref_some, run_bind_ret, h]
    exact run_throwing st
  have hsome : ∀ {g pmatch}, regexec keyLine text = some (g :: pmatch) →
      (strStrRegex line keyLine [key, val] : Act σ (List Str)).run st =
        (copyGroups (text ++ 0 :: rest) pmatch [key, val]).run st := by
    intro g pmatch h
    rw [strStrRegex, hv, deref_some, run_bind_ret, cString_append _ rest hn, deref_some, run_bind_ret, h]
  cases hsplit : splitKey text with
  | none => exact hnone (regexec_keyLine_none hsplit)
  | some p =>
    obtain ⟨k, v⟩ := p
    obtain ⟨w, rfl, -, -, hregexec⟩ := splitKey_some hsplit
    have hlen : (w ++ k ++ 58 :: 32 :: v).length = w.length + k.length + 2 + v.length := by
      simp only [List.length_append, List.length_cons]
      omega
    rw [hlen] at hregexec hmax
    -- The pieces of the buffer behind the starts of the two groups.
    have hdrop₁ : (w ++ k ++ 58 :: 32 :: v ++ 0 :: rest).drop w.length =
        k ++ (58 :: 32 :: v ++ 0 :: rest) := by
      simp only [List.append_assoc]
      rw [List.drop_left' rfl]
    have hdrop₂ : (w ++ k ++ 58 :: 32 :: v ++ 0 :: rest).drop (w.length + k.length + 2) =
        v ++ 0 :: rest := by
      rw [← List.length_append, ← List.drop_drop, List.append_assoc, List.drop_left' rfl]
      rfl
    obtain ⟨key', hkeyRun, hkey', -⟩ := strNcpy_holds hkey hdrop₁ (by omega)
    obtain ⟨val', hvalRun, hval', -⟩ := strNcpy_holds hval hdrop₂ (by omega)
    refine ⟨key', val', ?_, hkey', hval'⟩
    rw [hsome hregexec]
    simp only [copyGroups, Nat.add_sub_cancel_left]
    rw [run_bind_ok (run_onLocal_ok hkeyRun st)]
    dsimp only
    rw [run_bind, run_bind_ok (run_onLocal_ok hvalRun st)]
    rfl

/-! ## One call of `hash_set` -/

variable {out : Addr} {s : Store} {c : Addr → Option Chain} {B : UInt8 → List Bytes}

theorem setBucket_absent {k v : Bytes} {bs : List Bytes} (h : ∀ t ∈ bs, cText t ≠ k) :
    setBucket k v bs = some (bs ++ [k, v]) := by
  induction bs with
  | nil => rfl
  | cons t bs ih =>
    rw [setBucket, if_neg (h t (by simp)), ih fun u hu => h u (List.mem_cons_of_mem _ hu)]
    rfl

theorem setBucket_found {k v t : Bytes} {us : List Bytes} (vs : List Bytes) (hus : ∀ u ∈ us, cText u ≠ k)
    (ht : cText t = k) : setBucket k v (us ++ t :: vs) = (overwrite v vs).map (us ++ t :: ·) := by
  induction us with
  | nil =>
    rw [List.nil_append, setBucket, if_pos ht]
    rfl
  | cons u us ih =>
    rw [List.cons_append, setBucket, if_neg (hus u (by simp)),
      ih fun w hw => hus w (List.mem_cons_of_mem _ hw), Option.map_map]
    rfl

/-- `hash_set` does to the store what `setBucket` does to the texts. -/
theorem hashSet_tab (T : Tab out s c B) {key k : Bytes} (hk : cString key = some k)
    (hfit : k.length < stringMax) {value : Str} {text : Bytes} (hv : Holds value text) :
    match setBucket k text (B (xorBytes k)) with
    | none => (hashSet key value).run s = .halt .fault
    | some ts => ∃ s' c', (hashSet key value).run s = .ok () s' ∧
        Tab out s' c' (Function.update B (xorBytes k) ts) ∧ c' out = c out := by
  cases hfind : (B (xorBytes k)).find? (fun t => cText t = k) with
  | none =>
    have habs : ∀ t ∈ B (xorBytes k), cText t ≠ k := by
      intro t ht
      simpa using List.find?_eq_none.mp hfind t ht
    obtain ⟨s', c', hrun, T', -, hout, -⟩ := (hashSet_absent T hk habs hv).1 hfit
    rw [setBucket_absent habs]
    exact ⟨s', c', hrun, T', hout⟩
  | some t =>
    obtain ⟨ht, us, vs, hB, hus⟩ := List.find?_eq_some_iff_append.mp hfind
    have ht : cText t = k := by simpa using ht
    have hus : ∀ u ∈ us, cText u ≠ k := by
      intro u hu
      simpa using hus u hu
    have hset := hashSet_found T hk hB hus ht hv
    rw [hB, setBucket_found vs hus ht]
    cases vs with
    | nil => exact hset
    | cons w ws =>
      obtain ⟨s', c', hrun, T', -, hout, -⟩ := hset
      exact ⟨s', c', hrun, T', hout⟩

/-- A new list takes the place of the client's. -/
theorem Tab.watch (T : Tab out s c B) {l : Addr} (hl : c l = none) {h : Heap} {xs : Chain}
    (r : Rep h (Function.update c l (some xs))) :
    Tab l ⟨h, s.hash⟩ (Function.update c l (some xs)) B := by
  have happart : ∀ i, s.hash.bucket i ≠ some l := by
    intro i hi
    obtain ⟨ys, hys, -⟩ := T.chain hi
    rw [hl] at hys
    cases hys
  have T' := T.other happart ⟨h, s.hash⟩ rfl (fun _ => rfl) r
  exact ⟨T'.rep, T'.bucket, T'.missing, T'.inj, by simp, happart⟩

/-! ## One line -/

theorem peek_terminator {v : Str} {text : Bytes} (h : Holds v text) :
    (peek (strGetTerminator v)).run v = .ok (text.getLast?.getD 0) v := by
  rcases List.eq_nil_or_concat text with rfl | ⟨init, b, rfl⟩
  · obtain ⟨rest, hv, -⟩ := h.value
    have hlen : v.len = 0 := h.len
    have hcp : strGetTerminator v = 0 := by simp [strGetTerminator, hlen]
    rw [hcp]
    exact peek_at _ [] rest hv rfl
  · rw [List.concat_eq_append] at h ⊢
    have hlen : v.len = init.length + 1 := by simpa using h.len
    have hcp : strGetTerminator v = init.length := by simp [strGetTerminator, hlen]
    rw [hcp, h.last]
    simp

theorem strSetTerminator_holds {v : Str} {init : Bytes} {b : UInt8} (h : Holds v (init ++ [b])) :
    ∃ w, (strSetTerminator true 10).run v = .ok () w ∧ Holds w (init ++ [10]) := by
  obtain ⟨rest, hv, hz⟩ := h.value
  have hlen : v.len = init.length + 1 := by simpa using h.len
  have hset : (memcpy init.length [10]).run v = .ok () { v with value := some (init ++ [10] ++ 0 :: rest) } :=
    memcpy_inside v init [b] (0 :: rest) (by simpa using hv) rfl rfl
  refine ⟨{ v with value := some (init ++ [10] ++ 0 :: rest) }, ?_, ⟨?_, rest, by simp, ?_⟩⟩
  · have hlast : v.len - 1 = init.length := by omega
    simp only [strSetTerminator, run_bind_get]
    rw [if_pos (by omega), hlast]
    exact run_bind_ok hset
  · simpa using hlen
  · simpa using hz

theorem length_splitKey {line : Bytes} (h : splitKey line = some (k, v)) : k.length + v.length + 2 ≤ line.length := by
  obtain ⟨u, rfl, -⟩ := splitKey_some h
  simp only [List.length_append, List.length_cons]
  omega

theorem nulFree_key (hk : ∀ c ∈ k, isKeyChar c = true) : NulFree k :=
  fun hm => absurd (hk 0 hm) (by decide)

theorem takeLine_run {σ : Type} {line key val : Str} {text : Bytes} {d : Reading} (hline : Holds line text)
    (hn : NulFree text) (hkey : Holds key d.key) (hval : Holds val d.val)
    (hmax : d.val.length + text.length < stringMax) (st : σ) :
    match nextValues d text with
    | none => (takeLine line key val).run st = .thrown st
    | some (k, v) => ∃ key' val', (takeLine line key val).run st = .ok (key', val') st ∧
        Holds key' k ∧ Holds val' v := by
  rw [nextValues, takeLine, hkey.len]
  by_cases hd : d.key = []
  · rw [if_pos hd, if_pos (by rw [hd]; rfl)]
    have hregex := strStrRegex_keyLine hline hn (by omega) hkey hval st
    cases hsplit : splitKey text with
    | none =>
      rw [hsplit] at hregex
      exact run_bind_thrown hregex
    | some p =>
      rw [hsplit] at hregex
      obtain ⟨key', val', hrun, hkey', hval'⟩ := hregex
      refine ⟨key', val', ?_, hkey', hval'⟩
      rw [run_bind_ok hrun]
      rfl
  · rw [if_neg hd, if_neg (fun h0 => hd (List.length_eq_zero_iff.mp h0))]
    obtain ⟨val', happend, hval', -⟩ := (strAppend_holds hval hline hn).1 hmax
    refine ⟨key, val', ?_, hkey, hval'⟩
    rw [run_bind_ok (run_onLocal_ok happend st)]
    rfl

theorem nextValues_bounds {d : Reading} {line : Bytes} (h : nextValues d line = some (k, v))
    (hkn : NulFree d.key) : k ≠ [] ∧ NulFree k ∧
      k.length + v.length ≤ d.key.length + d.val.length + line.length := by
  rw [nextValues] at h
  by_cases hd : d.key = []
  · rw [if_pos hd] at h
    obtain ⟨u, hline, hne, hk, -⟩ := splitKey_some h
    have hlen := length_splitKey h
    exact ⟨hne, nulFree_key hk, by omega⟩
  · rw [if_neg hd] at h
    cases h
    refine ⟨hd, hkn, ?_⟩
    rw [List.length_append]
    omega

theorem decodeLine_bounds {d d' : Reading} {line : Bytes} {call : Option (Bytes × Bytes)}
    (h : decodeLine d line = some (d', call)) (hkn : NulFree d.key) : NulFree d'.key ∧
      d'.key.length + d'.val.length ≤ d.key.length + d.val.length + line.length := by
  rw [decodeLine] at h
  split at h
  · cases h
    exact ⟨hkn, by omega⟩
  · obtain ⟨⟨k, v⟩, hnext, h⟩ := Option.map_eq_some_iff.mp h
    obtain ⟨hne, hk, hlen⟩ := nextValues_bounds hnext hkn
    dsimp only at h
    split at h
    · rename_i hlast
      cases h
      have hv : v ≠ [] := by
        rintro rfl
        cases hlast
      have hpos := List.length_pos_of_ne_nil hv
      refine ⟨hk, ?_⟩
      have hsame : (v.dropLast ++ [10]).length = v.length := by
        rw [List.length_append, List.length_dropLast, List.length_singleton]
        omega
      dsimp only
      rw [hsame]
      exact hlen
    · cases h
      exact ⟨by simp [NulFree, Reading.start], by simp [Reading.start]⟩

variable {l : Addr} {t : Session}

theorem run_onStoreHeap_ok {α : Type} {m : Act Heap α} {a : α} {h : Heap}
    (hm : m.run t.store.heap = .ok a h) :
    (onStore (onHeap m)).run t = .ok a ⟨⟨h, t.store.hash⟩, t.calls⟩ := run_zoom_ok (run_onHeap_ok hm)

theorem run_loadLine (r : Rep t.store.heap c) {pre todo : Chain} {a : Addr} {x : Str}
    (hl : c l = some (pre ++ (a, x) :: todo)) :
    ∃ p, (onStore (onHeap (loadEntry a))).run t = .ok ⟨x, first todo none, p⟩ t := by
  have ha := (r.seg hl).prev
  have hload : (loadEntry a).run t.store.heap =
      .ok ⟨x, first todo none, last none pre⟩ t.store.heap := by simp [loadEntry, ha]
  exact ⟨_, run_onStoreHeap_ok hload⟩

theorem callSet_run (T : Tab l t.store c B) {key k : Bytes} (hk : cString key = some k)
    (hfit : k.length < stringMax) {value : Str} {v : Bytes} (hv : Holds value v) :
    match setBucket k v (B (xorBytes k)) with
    | none => (callSet key value).run t = .halt .fault
    | some ts => ∃ s' c', (callSet key value).run t = .ok () ⟨s', t.calls ++ [(k, v)]⟩ ∧
        Tab l s' c' (Function.update B (xorBytes k) ts) ∧ c' l = c l := by
  have hset := hashSet_tab T hk hfit hv
  have hcall : (callSet key value).run t =
      (onStore (hashSet key value)).run ⟨t.store, t.calls ++ [(k, v)]⟩ := by
    rw [callSet, hk, deref_some, run_bind_ret, run_bind_get, run_bind_put, hv.text]
  rw [hcall]
  cases hb : setBucket k v (B (xorBytes k)) with
  | none =>
    rw [hb] at hset
    rw [onStore, run_zoom, hset]
  | some ts =>
    rw [hb] at hset
    obtain ⟨s', c', hrun, T', hc'⟩ := hset
    exact ⟨s', c', run_zoom_ok hrun, T', hc'⟩

theorem endValue_run {val : Str} {v : Bytes} (hval : Holds val v) (multiline : Bool)
    (hmax : v.length + 1 < stringMax) :
    ∃ val', (endValue multiline val).run t = .ok val' t ∧
      Holds val' (if multiline then v ++ [10] else v) := by
  cases multiline with
  | false => exact ⟨val, rfl, hval⟩
  | true =>
    have hmem : cString [10, 0] = some [10] := by decide
    obtain ⟨val', hput, hval', -⟩ := (strCat_holds hval hmem).1 (by rw [List.length_singleton]; exact hmax)
    exact ⟨val', run_bind_ok (run_onLocal_ok hput t), hval'⟩

/-- The variables after a line. -/
structure Buffers (d : Reading) (key val : Str) (multiline : Bool) : Prop where
  key : Holds key d.key
  val : Holds val d.val
  multiline : multiline = d.multiline

/-- What a round does once a value is complete. -/
def storeValue (a : Addr) (mem : Bytes) (key val : Str) : Act Session ((Option Addr × Str × Str × Bool) ⊕ Str) := do
  callSet mem val
  let x ← onLocal strTruncate key
  let y ← onLocal strTruncate val
  let e ← onStore (onHeap (loadEntry a))
  pure (.inl (e.next, x.2, y.2, false))

theorem storeValue_run (T : Tab l t.store c B) {pre todo : Chain} {a : Addr} {x : Str}
    (hl : c l = some (pre ++ (a, x) :: todo)) {key val : Str} {k v : Bytes} (mem : Bytes) (hkey : Holds key k)
    (hval : Holds val v) (hk : NulFree k) (hfit : k.length < stringMax) :
    match setBucket k v (B (xorBytes k)) with
    | none => (storeValue a (k ++ 0 :: mem) key val).run t = .halt .fault
    | some ts => ∃ s' c' key' val' m', (storeValue a (k ++ 0 :: mem) key val).run t =
          .ok (.inl (first todo none, key', val', m')) ⟨s', t.calls ++ [(k, v)]⟩ ∧
        Buffers .start key' val' m' ∧ Tab l s' c' (Function.update B (xorBytes k) ts) ∧ c' l = c l := by
  have hcall := callSet_run T (cString_append k mem hk) hfit hval
  rw [storeValue]
  cases hb : setBucket k v (B (xorBytes k)) with
  | none =>
    rw [hb] at hcall
    exact run_bind_halt hcall
  | some ts =>
    rw [hb] at hcall
    obtain ⟨s', c', hcall, T', hc'⟩ := hcall
    obtain ⟨key', hkeyCut, hkey', -⟩ := strTruncate_holds hkey
    obtain ⟨val', hvalCut, hval', -⟩ := strTruncate_holds hval
    rw [← hc'] at hl
    obtain ⟨p, hload⟩ := run_loadLine (t := ⟨s', _⟩) T'.rep hl
    refine ⟨s', c', key', val', false, ?_, ⟨hkey', hval', rfl⟩, T', hc'⟩
    rw [run_bind_ok hcall, run_bind_ok (run_onLocal_ok hkeyCut _)]
    dsimp only
    rw [run_bind_ok (run_onLocal_ok hvalCut _)]
    dsimp only
    rw [run_bind_ok hload]
    rfl

/-- One round of the loop does what `decodeLine` says. -/
theorem deserializeStep_run (T : Tab l t.store c B) {pre todo : Chain} {a : Addr} {x : Str}
    (hl : c l = some (pre ++ (a, x) :: todo)) (hn : NulFree x.text) {d : Reading} {key val : Str}
    {multiline : Bool} (hd : Buffers d key val multiline) (hkn : NulFree d.key)
    (hmax : d.key.length + d.val.length + x.text.length < stringMax) :
    match decodeLine d x.text with
    | none => (deserializeStep (some a, key, val, multiline)).run t = .thrown t
    | some (d', none) => ∃ key' val' m', (deserializeStep (some a, key, val, multiline)).run t =
        .ok (.inl (first todo none, key', val', m')) t ∧ Buffers d' key' val' m'
    | some (d', some (k, v)) =>
      match setBucket k v (B (xorBytes k)) with
      | none => (deserializeStep (some a, key, val, multiline)).run t = .halt .fault
      | some ts => ∃ s' c' key' val' m', (deserializeStep (some a, key, val, multiline)).run t =
            .ok (.inl (first todo none, key', val', m')) ⟨s', t.calls ++ [(k, v)]⟩ ∧
          Buffers d' key' val' m' ∧ Tab l s' c' (Function.update B (xorBytes k) ts) ∧ c' l = c l := by
  obtain ⟨p, hload⟩ := run_loadLine T.rep hl
  have hx : Holds x x.text := T.rep.wf hl (a, x) (by simp)
  rw [decodeLine]
  by_cases hblank : x.text = []
  · rw [if_pos hblank]
    refine ⟨key, val, multiline, ?_, hd⟩
    rw [deserializeStep, run_bind_ok hload, if_pos (by rw [hx.len, hblank]; rfl)]
    rfl
  rw [if_neg hblank]
  have htake := takeLine_run hx hn hd.key hd.val (by omega) t
  have hlen : x.len ≠ 0 := by
    rw [hx.len]
    exact fun h0 => hblank (List.length_eq_zero_iff.mp h0)
  cases hnext : nextValues d x.text with
  | none =>
    rw [hnext] at htake
    show (deserializeStep (some a, key, val, multiline)).run t = .thrown t
    rw [deserializeStep, run_bind_ok hload, if_neg hlen]
    exact run_bind_thrown htake
  | some kv =>
    obtain ⟨k, v⟩ := kv
    rw [hnext] at htake
    obtain ⟨key₁, val₁, htake, hkey₁, hval₁⟩ := htake
    obtain ⟨hne, hk, hroom⟩ := nextValues_bounds hnext hkn
    have hpos := List.length_pos_of_ne_nil hne
    have heol := run_onLocal_ok (peek_terminator hval₁) t
    dsimp only [Option.map_some]
    by_cases hlast : v.getLast? = some 92
    · rw [if_pos hlast]
      rcases List.eq_nil_or_concat v with rfl | ⟨init, b, rfl⟩
      · cases hlast
      rw [List.concat_eq_append] at hval₁ heol ⊢
      obtain ⟨val₂, hset, hval₂⟩ := strSetTerminator_holds hval₁
      refine ⟨key₁, val₂, true, ?_, ⟨hkey₁, by simpa using hval₂, rfl⟩⟩
      rw [deserializeStep, run_bind_ok hload, if_neg hlen, run_bind_ok htake]
      dsimp only
      rw [run_bind_ok heol]
      dsimp only
      rw [if_pos (by simpa using hlast), run_bind_ok (run_onLocal_ok hset t)]
      rfl
    · rw [if_neg hlast]
      obtain ⟨val₂, hend, hval₂⟩ := endValue_run (t := t) hval₁ multiline (by omega)
      obtain ⟨mem, hmem, -⟩ := hkey₁.value
      have hstore := storeValue_run T hl mem hkey₁ hval₂ hk (by omega)
      have heol' : v.getLast?.getD 0 ≠ 92 := by
        intro h0
        cases hv : v.getLast? with
        | none =>
          rw [hv] at h0
          exact absurd h0 (by decide)
        | some b =>
          rw [hv] at h0 hlast
          exact hlast (congrArg some h0)
      have hstep : (deserializeStep (some a, key, val, multiline)).run t =
          (storeValue a (k ++ 0 :: mem) key₁ val₂).run t := by
        rw [deserializeStep, run_bind_ok hload, if_neg hlen, run_bind_ok htake]
        dsimp only
        rw [run_bind_ok heol]
        dsimp only
        rw [if_neg heol', run_bind_ok hend, hmem, deref_some, run_bind_ret]
        rfl
      rw [← hd.multiline]
      dsimp only
      rw [hstep]
      exact hstore

/-! ## All lines -/

variable {d d' : Reading} {line : Bytes} {lines : List Bytes}

theorem replay_none (h : decodeLine d line = none) : replay B d (line :: lines) = none := by
  rw [replay, decode, h]
  rfl

theorem replay_skip (h : decodeLine d line = some (d', none)) :
    replay B d (line :: lines) = replay B d' lines := by
  rw [replay, replay, decode, h]
  cases hrest : decode d' lines <;> simp [hrest]

theorem replay_call {k v : Bytes} (h : decodeLine d line = some (d', some (k, v))) :
    replay B d (line :: lines) = (setBucket k v (B (xorBytes k))).bind fun ts =>
      (replay (Function.update B (xorBytes k) ts) d' lines).map fun (e, calls, B') =>
        (e, (k, v) :: calls, B') := by
  rw [replay, decode, h]
  cases hrest : decode d' lines with
  | none =>
    cases setBucket k v (B (xorBytes k)) with
    | none => simp [hrest]
    | some ts => simp [replay, hrest]
  | some x =>
    obtain ⟨e, calls⟩ := x
    cases hset : setBucket k v (B (xorBytes k)) with
    | none => simp [hrest, setAll, hset]
    | some ts => simp [hrest, replay, setAll, hset, Option.map_map, Function.comp_def]

/-- The lines together with their newlines. -/
def lengthOf : List Bytes → Nat
  | [] => 0
  | line :: lines => line.length + 1 + lengthOf lines

@[simp] theorem lengthOf_nil : lengthOf [] = 0 := rfl
@[simp] theorem lengthOf_cons (line : Bytes) (lines : List Bytes) :
    lengthOf (line :: lines) = line.length + 1 + lengthOf lines := rfl

/-- The loop of `hash_deserialize` makes the calls that `replay` says, or does not come to its end. -/
theorem loop_deserialize (T : Tab l t.store c B) {pre todo : Chain} (hl : c l = some (pre ++ todo))
    (hn : ∀ line ∈ texts todo, NulFree line) {key val : Str} {multiline : Bool}
    (hd : Buffers d key val multiline) (hkn : NulFree d.key)
    (hmax : d.key.length + d.val.length + lengthOf (texts todo) ≤ stringMax) {fuel : Nat}
    (hf : todo.length < fuel) :
    match replay B d (texts todo) with
    | none => ((loop deserializeStep fuel (first todo none, key, val, multiline)).run t).value = none
    | some (e, calls, B') => ∃ s' c' key',
        (loop deserializeStep fuel (first todo none, key, val, multiline)).run t =
          .ok key' ⟨s', t.calls ++ calls⟩ ∧ Holds key' e.key ∧ Tab l s' c' B' ∧ c' l = c l := by
  induction todo generalizing t c B pre d key val multiline fuel with
  | nil =>
    obtain ⟨fuel, rfl⟩ : ∃ k, fuel = k + 1 := ⟨fuel - 1, by simp at hf; omega⟩
    refine ⟨t.store, c, key, ?_, hd.key, T, rfl⟩
    rw [List.append_nil]
    exact run_loop_inr rfl
  | cons x todo ih =>
    obtain ⟨a, x⟩ := x
    obtain ⟨fuel, rfl⟩ : ∃ k, fuel = k + 1 := ⟨fuel - 1, by omega⟩
    simp only [texts_cons, lengthOf_cons] at hmax
    have hstep := deserializeStep_run T hl (hn x.text (by simp)) hd hkn (by omega)
    have hl' : c l = some (pre ++ [(a, x)] ++ todo) := by simpa using hl
    have hn' : ∀ line ∈ texts todo, NulFree line := fun line hline => hn line (by simp [hline])
    have hf' : todo.length < fuel := by simpa using hf
    rw [texts_cons, first_cons]
    cases hline : decodeLine d x.text with
    | none =>
      rw [hline] at hstep
      rw [replay_none hline]
      show ((loop deserializeStep (fuel + 1) _).run t).value = none
      rw [run_loop_thrown hstep]
      rfl
    | some next =>
      obtain ⟨d', call⟩ := next
      rw [hline] at hstep
      obtain ⟨hkn', hlen⟩ := decodeLine_bounds hline hkn
      cases call with
      | none =>
        obtain ⟨key', val', m', hstep, hd'⟩ := hstep
        rw [replay_skip hline, run_loop_inl hstep]
        exact ih T hl' hn' hd' hkn' (by omega) hf'
      | some call =>
        obtain ⟨k, v⟩ := call
        rw [replay_call hline]
        cases hset : setBucket k v (B (xorBytes k)) with
        | none =>
          dsimp only at hstep
          rw [hset] at hstep
          show ((loop deserializeStep (fuel + 1) _).run t).value = none
          rw [run_loop_halt hstep]
          rfl
        | some ts =>
          dsimp only at hstep
          rw [hset] at hstep
          obtain ⟨s', c', key', val', m', hstep, hd', T', hc'⟩ := hstep
          rw [run_loop_inl hstep]
          have hrest := ih (t := ⟨s', t.calls ++ [(k, v)]⟩) T' (hc'.trans hl') hn' hd' hkn'
            (by omega) hf'
          rw [Option.bind_some]
          cases hreplay : replay (Function.update B (xorBytes k) ts) d' (texts todo) with
          | none =>
            rw [hreplay] at hrest
            exact hrest
          | some r =>
            obtain ⟨e, calls, B'⟩ := r
            rw [hreplay] at hrest
            obtain ⟨s'', c'', key'', hrun, hkey'', T'', hc''⟩ := hrest
            refine ⟨s'', c'', key'', ?_, hkey'', T'', hc''.trans hc'⟩
            rw [hrun]
            simp

/-- The lines of a text that `hash_deserialize` looks at. -/
def linesOf (text : Bytes) : List Bytes := if text = [] then [] else pieces 10 text

theorem nulFree_pieces {text : Bytes} (hn : NulFree text) : ∀ line ∈ pieces 10 text, NulFree line := by
  intro line hline h0
  obtain ⟨x, hx, rfl⟩ := List.mem_map.mp hline
  have hcut := cut_spec 10 (chomp text)
  have hsub : ∀ b ∈ x, b ∈ chomp text := by
    intro b hb
    rw [hcut.eq]
    rcases List.mem_append.mp hx with hx | hx
    · refine List.mem_append_left _ (List.mem_flatten.mpr ⟨x ++ [10], List.mem_map_of_mem hx, ?_⟩)
      exact List.mem_append_left _ hb
    · rw [List.mem_singleton.mp hx] at hb
      exact List.mem_append_right _ hb
  exact hn ((chomp_isPrefix text).subset (hsub 0 ((chomp_isPrefix x).subset h0)))

theorem lengthOf_append (ls ms : List Bytes) : lengthOf (ls ++ ms) = lengthOf ls + lengthOf ms := by
  induction ls with
  | nil => simp
  | cons line ls ih =>
    rw [List.cons_append, lengthOf_cons, lengthOf_cons, ih]
    omega

theorem lengthOf_map_chomp (ls : List Bytes) : lengthOf (ls.map chomp) ≤ lengthOf ls := by
  induction ls with
  | nil => exact Nat.le_refl _
  | cons line ls ih =>
    have hle := (chomp_isPrefix line).length_le
    rw [List.map_cons, lengthOf_cons, lengthOf_cons]
    omega

theorem lengthOf_lines (ls : List Bytes) : lengthOf ls = (ls.map (· ++ [10])).flatten.length := by
  induction ls with
  | nil => rfl
  | cons line ls ih =>
    rw [lengthOf_cons, ih, List.map_cons, List.flatten_cons, List.length_append,
      List.length_append, List.length_singleton]

theorem lengthOf_pieces (text : Bytes) : lengthOf (pieces 10 text) ≤ text.length + 1 := by
  have hcut := congrArg List.length (cut_spec 10 (chomp text)).eq
  have hle := (chomp_isPrefix text).length_le
  have hmap := lengthOf_map_chomp ((cut 10 (chomp text)).1 ++ [(cut 10 (chomp text)).2])
  rw [lengthOf_append, lengthOf_lines (cut 10 (chomp text)).1, lengthOf_cons, lengthOf_nil] at hmap
  rw [List.length_append] at hcut
  have hpieces : pieces 10 text =
      ((cut 10 (chomp text)).1 ++ [(cut 10 (chomp text)).2]).map chomp := rfl
  rw [hpieces]
  omega

/-- The lines are put onto a list of their own. -/
theorem strSplit_lines {h : Heap} (r : Rep h c) (hl : c l = some []) {str : Str} {text : Bytes}
    (hstr : Holds str text) (hn : NulFree text) (hmax : text.length < stringMax) :
    ∃ h' xs, (strSplit l str 10).run h = .ok () h' ∧ texts xs = linesOf text ∧
      Rep h' (Function.update c l (some xs)) := by
  rw [linesOf]
  by_cases ht : text = []
  · have hlen : str.len = 0 := by rw [hstr.len, ht]; rfl
    refine ⟨h, [], ?_, by rw [if_pos ht]; rfl, ?_⟩
    · rw [strSplit, if_pos hlen]
      rfl
    · rw [← hl, Function.update_eq_self]
      exact r
  · obtain ⟨h', xs, hrun, ⟨hxs, -⟩, r'⟩ := strSplit_rep (d := 10) r hl hstr hn ht hmax
    exact ⟨h', xs, hrun, by rw [if_neg ht, hxs], r'⟩

/-- `hash_deserialize` succeeds when every line can be read, every call of `hash_set` finds its way
and no value is left open at the end. -/
theorem hashDeserialize_run (T : Tab out s c B) {str : Str} {text : Bytes} (hstr : Holds str text)
    (hn : NulFree text) (hmax : text.length < stringMax) (calls : List (Bytes × Bytes)) :
    (∃ s', (hashDeserialize str).run ⟨s, []⟩ = .ok () ⟨s', calls⟩) ↔
      ∃ e B', replay B .start (linesOf text) = some (e, calls, B') ∧ e.key = [] := by
  obtain ⟨key, hkeyNew, hkey, -⟩ := strNew_holds (⟨s, []⟩ : Session)
  obtain ⟨val, hvalNew, hval, -⟩ := strNew_holds (⟨s, []⟩ : Session)
  obtain ⟨h₁, hnew, hnone, r₁⟩ := listNew_rep T.rep
  obtain ⟨h₂, xs, hsplit, hxs, r₂⟩ := strSplit_lines r₁ (Function.update_self _ _ _) hstr hn hmax
  rw [Function.update_idem] at r₂
  have T₂ := T.watch hnone r₂
  have hlist := r₂.list_eq (Function.update_self _ _ _)
  have hnlines : ∀ line ∈ texts xs, NulFree line := by
    rw [hxs, linesOf]
    split
    · simp
    · exact nulFree_pieces hn
  have hlen : lengthOf (texts xs) ≤ stringMax := by
    rw [hxs, linesOf]
    split
    · exact Nat.zero_le _
    · exact Nat.le_trans (lengthOf_pieces text) hmax
  have hpre : Function.update c s.heap.fresh (some xs) s.heap.fresh = some ([] ++ xs) :=
    Function.update_self _ _ _
  have hloop := loop_deserialize (t := ⟨⟨h₂, s.hash⟩, []⟩) (d := .start) T₂ hpre hnlines ⟨hkey, hval, rfl⟩
    (by simp [NulFree, Reading.start]) (by simpa [Reading.start] using hlen)
    (Nat.lt_succ_of_le (r₂.length_le (Function.update_self _ _ _)))
  have hrun : (hashDeserialize str).run ⟨s, []⟩ =
      (loop deserializeStep (h₂.fresh + 1) (first xs none, key, val, false) >>= fun key =>
        if key.len > 0 then throwing else onStore (onHeap (listDestroy s.heap.fresh))).run
          ⟨⟨h₂, s.hash⟩, []⟩ := by
    have hload : (loadList s.heap.fresh).run h₂ = .ok (header xs) h₂ := by simp [loadList, hlist]
    rw [hashDeserialize, run_bind_ok hkeyNew, run_bind_ok hvalNew,
      run_bind_ok (run_onStoreHeap_ok (t := ⟨s, []⟩) hnew),
      run_bind_ok (run_onStoreHeap_ok (t := ⟨⟨h₁, s.hash⟩, []⟩) hsplit),
      run_bind_ok (run_onStoreHeap_ok (t := ⟨⟨h₂, s.hash⟩, []⟩) hload), run_bind_get]
    rfl
  rw [hrun, ← hxs]
  cases hreplay : replay B .start (texts xs) with
  | none =>
    rw [hreplay] at hloop
    have hloop : ((loop deserializeStep (h₂.fresh + 1) (first xs none, key, val, false)).run
        ⟨⟨h₂, s.hash⟩, []⟩).value = none := hloop
    constructor
    · rintro ⟨s', hok⟩
      obtain ⟨key', t', hkey', -⟩ := exists_of_run_bind hok
      rw [hkey'] at hloop
      cases hloop
    · rintro ⟨e, B', h0, -⟩
      cases h0
  | some r =>
    obtain ⟨e, calls', B'⟩ := r
    rw [hreplay] at hloop
    obtain ⟨s₃, c₃, key', hloop, hkey', T₃, hc₃⟩ := hloop
    rw [Function.update_self] at hc₃
    obtain ⟨h₄, hdestroy, -⟩ := listDestroy_rep T₃.rep hc₃
    have hdestroy := run_onStoreHeap_ok (t := ⟨s₃, calls'⟩) hdestroy
    have hloop : (loop deserializeStep (h₂.fresh + 1) (first xs none, key, val, false)).run
        ⟨⟨h₂, s.hash⟩, []⟩ = .ok key' ⟨s₃, calls'⟩ := hloop
    rw [run_bind_ok hloop, hkey'.len]
    constructor
    · rintro ⟨s', hok⟩
      by_cases he : e.key = []
      · rw [if_neg (by simp [he]), hdestroy] at hok
        cases hok
        exact ⟨e, B', rfl, he⟩
      · rw [if_pos (List.length_pos_of_ne_nil he)] at hok
        cases hok
    · rintro ⟨e', B'', heq, he⟩
      cases heq
      exact ⟨_, by rw [if_neg (by simp [he]), hdestroy]⟩

end NcHash
