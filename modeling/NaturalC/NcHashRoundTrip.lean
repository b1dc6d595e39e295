import NaturalC.NcHashDecode
import NaturalC.NcHashMap

/-!
# From a hash table to its text and back

The text of a table is a sequence of lines, and reading it takes one pair after the other.
A pair with a value on one line comes back, and so does a pair with a value on two lines.
The backslash is put in front of the first newline only: with one line the value stays open,
and with three or more it ends after the second.
-/
namespace NcHash

open Throwing Throwing.Act NcString NcList Linked Lines NcSplit Posix

/-- A key over `[A-Za-z0-9._-]`. -/
structure IsKey (k : Bytes) : Prop where
  nonempty : k ≠ []
  chars : ∀ c ∈ k, isKeyChar c = true

/-- A text on one line that does not end in a backslash or a CR. -/
structure IsLine (l : Bytes) : Prop where
  nulFree : NulFree l
  newline : 10 ∉ l
  backslash : l.getLast? ≠ some 92
  cr : l.getLast? ≠ some 13

/-- Lines with a newline behind each of them. -/
def unlines (ls : List Bytes) : Bytes := (ls.map (· ++ [10])).flatten

/-- A value of one or more lines, each of them with a newline at its end and none of them empty. -/
def IsText (v : Bytes) : Prop := ∃ l ls, v = unlines (l :: ls) ∧ ∀ x ∈ l :: ls, IsLine x ∧ x ≠ []

/-- The lines for a pair. -/
def pairLines (p : Bytes × Bytes) : List Bytes := (cut 10 (pairText p)).1

variable {k l v : Bytes} {ls : List Bytes} {p : Bytes × Bytes} {ps : List (Bytes × Bytes)}

theorem IsKey.newline (hk : IsKey k) : 10 ∉ k := fun hm => absurd (hk.chars 10 hm) (by decide)

theorem IsKey.line (hk : IsKey k) (hv : 10 ∉ v) : 10 ∉ k ++ 58 :: 32 :: v := by
  simp only [List.mem_append, List.mem_cons, not_or]
  exact ⟨hk.newline, by decide, by decide, hv⟩

/-- A value on one line takes one line. -/
theorem cut_pairText_line (hk : IsKey k) (hv : 10 ∉ v) :
    Cut 10 (pairText (k, v)) [k ++ 58 :: 32 :: v] [] where
  eq := by simp [pairText, escapeFirst_of_not_mem hv]
  line := by simpa using hk.line hv
  rest := by simp

/-- A value of several lines takes a line for each of them and an empty one. -/
theorem cut_pairText_text (hk : IsKey k) (hls : ∀ x ∈ l :: ls, 10 ∉ x) :
    Cut 10 (pairText (k, unlines (l :: ls))) ((k ++ 58 :: 32 :: (l ++ [92])) :: (ls ++ [[]])) [] where
  eq := by
    have hv : unlines (l :: ls) = l ++ 10 :: unlines ls := by simp [unlines]
    rw [pairText, hv, escapeFirst_line (hls l (by simp))]
    simp [unlines]
  line := by
    intro x hx
    rcases List.mem_cons.mp hx with rfl | hx
    · apply hk.line
      have hl := hls l (by simp)
      simp [hl]
    · rcases List.mem_append.mp hx with hx | hx
      · exact hls x (List.mem_cons_of_mem _ hx)
      · simp [List.mem_singleton.mp hx]
  rest := by simp

theorem pairLines_line (hk : IsKey k) (hv : 10 ∉ v) : pairLines (k, v) = [k ++ 58 :: 32 :: v] :=
  congrArg Prod.fst (cut_pairText_line hk hv).eq_cut

theorem pairLines_text (hk : IsKey k) (hls : ∀ x ∈ l :: ls, 10 ∉ x) :
    pairLines (k, unlines (l :: ls)) = (k ++ 58 :: 32 :: (l ++ [92])) :: (ls ++ [[]]) :=
  congrArg Prod.fst (cut_pairText_text hk hls).eq_cut

/-- The pairs that are looked at: a key and a value on one line or on several. -/
structure IsPair (p : Bytes × Bytes) : Prop where
  key : IsKey p.1
  value : IsLine p.2 ∨ IsText p.2

/-- What is on the lines of a pair. -/
theorem IsPair.lines (hp : IsPair p) : ∀ x ∈ pairLines p, 10 ∉ x ∧ x.getLast? ≠ some 13 := by
  obtain ⟨k, v⟩ := p
  have hkeyLine : ∀ {v : Bytes}, 10 ∉ v → v.getLast? ≠ some 13 →
      10 ∉ k ++ 58 :: 32 :: v ∧ (k ++ 58 :: 32 :: v).getLast? ≠ some 13 := by
    intro v hv hcr
    refine ⟨hp.key.line hv, ?_⟩
    rw [List.getLast?_append_of_ne_nil _ (by simp)]
    cases v with
    | nil => simp
    | cons b v => simpa using hcr
  intro x hx
  rcases hp.value with hv | ⟨l, ls, hv, hls⟩
  · rw [pairLines_line hp.key hv.newline, List.mem_singleton] at hx
    rw [hx]
    exact hkeyLine hv.newline hv.cr
  · have hv : v = unlines (l :: ls) := hv
    rw [hv, pairLines_text hp.key fun x hx => (hls x hx).1.newline] at hx
    rcases List.mem_cons.mp hx with rfl | hx
    · have hl := (hls l (by simp)).1.newline
      exact hkeyLine (by simp [hl]) (by simp)
    · rcases List.mem_append.mp hx with hx | hx
      · have h := (hls x (List.mem_cons_of_mem _ hx)).1
        exact ⟨h.newline, h.cr⟩
      · simp [List.mem_singleton.mp hx]

theorem IsPair.closed (hp : IsPair p) : (cut 10 (pairText p)).2 = [] := by
  rcases hp.value with hv | ⟨l, ls, hv, hls⟩
  · exact congrArg Prod.snd (cut_pairText_line hp.key hv.newline).eq_cut
  · have hcut := (cut_pairText_text hp.key fun x hx => (hls x hx).1.newline).eq_cut
    rw [← hv] at hcut
    exact congrArg Prod.snd hcut

/-- Without a CR at the end of a line, the pieces of a text are its lines. -/
theorem pieces_eq_segments {t : Bytes} (hne : t ≠ []) (hcr : ∀ x ∈ segments 10 t, x.getLast? ≠ some 13) :
    pieces 10 t = segments 10 t := by
  rcases List.eq_nil_or_concat (segments 10 t) with h0 | ⟨ms, l, hseg⟩
  · exact absurd h0 (segments_ne_nil 10 hne)
  · rw [List.concat_eq_append] at hseg
    have hl : trim 13 l = l := trim_of_ne (hcr l (by rw [hseg]; simp))
    have hms : ms.map (trim 13) = ms := by
      rw [List.map_congr_left fun x hx => trim_of_ne (hcr x (by rw [hseg]; simp [hx])), List.map_id']
    rw [pieces_segments ms hseg, hms, hl, hl, hseg]

theorem segments_pairs (hps : ∀ p ∈ ps, IsPair p) :
    (cut 10 (ps.flatMap pairText)).2 = [] ∧ segments 10 (ps.flatMap pairText) = ps.flatMap pairLines := by
  induction ps with
  | nil => exact ⟨rfl, rfl⟩
  | cons p ps ih =>
    obtain ⟨hclosed, hseg⟩ := ih fun q hq => hps q (List.mem_cons_of_mem _ hq)
    have hp := (hps p (by simp)).closed
    have hcut := cut_spec 10 (pairText p)
    rw [hp] at hcut
    have hall := (hcut.append_closed (cut_spec 10 (ps.flatMap pairText))).eq_cut
    rw [List.flatMap_cons, List.flatMap_cons]
    constructor
    · rw [hall]
      exact hclosed
    · rw [segments_append_closed hp, hseg, pairLines, segments_closed hp]

theorem linesOf_pairs (hps : ∀ p ∈ ps, IsPair p) : linesOf (ps.flatMap pairText) = ps.flatMap pairLines := by
  obtain ⟨-, hseg⟩ := segments_pairs hps
  rw [linesOf]
  split
  · rename_i h0
    rw [h0] at hseg
    exact hseg
  · rename_i hne
    rw [pieces_eq_segments hne, hseg]
    intro x hx
    rw [hseg] at hx
    obtain ⟨p, hp, hx⟩ := List.mem_flatMap.mp hx
    exact ((hps p hp).lines x hx).2

/-! ## Reading the lines of pairs -/

variable {d e : Reading} {xs ys : List Bytes} {calls : List (Bytes × Bytes)}

theorem decode_append : decode d (xs ++ ys) = (decode d xs).bind fun (d', calls) =>
    (decode d' ys).map fun (e, calls') => (e, calls ++ calls') := by
  induction xs generalizing d with
  | nil =>
    rw [List.nil_append, decode]
    cases hys : decode d ys <;> simp [hys]
  | cons x xs ih =>
    rw [List.cons_append, decode, decode]
    cases hline : decodeLine d x with
    | none => rfl
    | some next =>
      obtain ⟨d', call⟩ := next
      simp only [Option.bind_some, ih]
      cases decode d' xs with
      | none => rfl
      | some r =>
        obtain ⟨d'', calls⟩ := r
        cases hys : decode d'' ys with
        | none => simp [hys]
        | some r' => simp [hys]

theorem decodeLine_blank (d : Reading) : decodeLine d [] = some (d, none) := rfl

/-- The last byte of a line is the last one of the value on it. -/
theorem getLast_keyLine (k : Bytes) (hv : v ≠ []) : (k ++ 58 :: 32 :: v).getLast? = v.getLast? := by
  rw [List.getLast?_append_of_ne_nil _ (by simp)]
  cases v with
  | nil => exact absurd rfl hv
  | cons b v => rfl

theorem nextValues_start (hk : IsKey k) (v : Bytes) :
    nextValues .start (k ++ 58 :: 32 :: v) = some (k, v) := splitKey_line hk.nonempty hk.chars v

theorem decodeLine_line (hk : IsKey k) (hv : v.getLast? ≠ some 92) :
    decodeLine .start (k ++ 58 :: 32 :: v) = some (.start, some (k, v)) := by
  rw [decodeLine, if_neg (by simp), nextValues_start hk]
  dsimp only [Option.map_some]
  rw [if_neg hv]
  rfl

theorem decodeLine_open (hk : IsKey k) (l : Bytes) :
    decodeLine .start (k ++ 58 :: 32 :: (l ++ [92])) = some (⟨k, l ++ [10], true⟩, none) := by
  rw [decodeLine, if_neg (by simp), nextValues_start hk]
  dsimp only [Option.map_some]
  rw [if_pos (by simp), List.dropLast_concat]

/-- A line that is not empty and does not end in a backslash closes an open value. -/
theorem decodeLine_close (hk : d.key ≠ []) (hne : l ≠ []) (hl : l.getLast? ≠ some 92) :
    decodeLine d l = some (.start, some (d.key, if d.multiline then d.val ++ l ++ [10] else d.val ++ l)) := by
  have hlast : (d.val ++ l).getLast? ≠ some 92 := by
    rw [List.getLast?_append_of_ne_nil _ hne]
    exact hl
  rw [decodeLine, if_neg hne, nextValues, if_neg hk]
  dsimp only [Option.map_some]
  rw [if_neg hlast]

theorem decode_line (hk : IsKey k) (hv : IsLine v) :
    decode .start (pairLines (k, v)) = some (.start, [(k, v)]) := by
  rw [pairLines_line hk hv.newline, decode, decodeLine_line hk hv.backslash]
  rfl

/-- A value of two lines is read back. -/
theorem decode_two {m : Bytes} (hk : IsKey k) (hls : ∀ x ∈ [l, m], IsLine x ∧ x ≠ []) :
    decode .start (pairLines (k, unlines [l, m])) = some (.start, [(k, unlines [l, m])]) := by
  obtain ⟨hm, hne⟩ := hls m (by simp)
  have hclose := decodeLine_close (d := ⟨k, l ++ [10], true⟩) hk.nonempty hne hm.backslash
  rw [pairLines_text hk fun x hx => (hls x hx).1.newline]
  simp [decode, decodeLine_open hk, hclose, decodeLine_blank, unlines]

theorem count_unlines (hls : ∀ x ∈ ls, 10 ∉ x) : (unlines ls).count 10 = ls.length := by
  induction ls with
  | nil => rfl
  | cons l ls ih =>
    have hl := List.count_eq_zero_of_not_mem (hls l (by simp))
    have ih := ih fun x hx => hls x (List.mem_cons_of_mem _ hx)
    rw [unlines] at ih ⊢
    rw [List.map_cons, List.flatten_cons, List.count_append, List.count_append, hl, ih]
    simp [Nat.add_comm]

/-- The pairs that come back: a value on one line, or one of two lines. -/
def Short (v : Bytes) : Prop := 10 ∈ v → v.count 10 = 2

theorem decode_short (hp : IsPair p) (hs : Short p.2) :
    decode .start (pairLines p) = some (.start, [p]) := by
  obtain ⟨k, v⟩ := p
  rcases hp.value with hv | ⟨l, ls, hv, hls⟩
  · exact decode_line hp.key hv
  · have hv : v = unlines (l :: ls) := hv
    subst hv
    have hcount := hs (by simp [unlines])
    rw [count_unlines fun x hx => (hls x hx).1.newline] at hcount
    obtain ⟨m, rfl⟩ := List.length_eq_one_iff.mp (Nat.succ.inj hcount)
    exact decode_two hp.key hls

theorem decode_pairs (hps : ∀ p ∈ ps, IsPair p) (hs : ∀ p ∈ ps, Short p.2) :
    decode .start (ps.flatMap pairLines) = some (.start, ps) := by
  induction ps with
  | nil => rfl
  | cons p ps ih =>
    have ih := ih (fun q hq => hps q (List.mem_cons_of_mem _ hq)) fun q hq => hs q (List.mem_cons_of_mem _ hq)
    rw [List.flatMap_cons, decode_append, decode_short (hps p (by simp)) (hs p (by simp))]
    simp [ih]

theorem replay_pairs {B : UInt8 → List Bytes} (hps : ∀ p ∈ ps, IsPair p) (hs : ∀ p ∈ ps, Short p.2) :
    replay B .start (ps.flatMap pairLines) = (setAll B ps).map fun B' => (.start, ps, B') := by
  rw [replay, decode_pairs hps hs]
  rfl

/-! ## The number of newlines in a value that is read -/

theorem not_mem_splitKey {line : Bytes} (h : splitKey line = some (k, v)) {b : UInt8} (hb : b ∉ line) : b ∉ v := by
  obtain ⟨u, rfl, -⟩ := splitKey_some h
  intro hv
  apply hb
  simp [hv]

/-- Between two lines either nothing is open, or a value with a newline in it is. -/
structure Between (d : Reading) : Prop where
  closed : d.key = [] → d = .start
  opened : d.key ≠ [] → d.multiline = true ∧ 0 < d.val.count 10

theorem between_start : Between .start := ⟨fun _ => rfl, fun h => absurd rfl h⟩

/-- No value has one newline: it has none, or one for a backslash and one at its end. -/
theorem decodeLine_between {d' : Reading} {line : Bytes} {call : Option (Bytes × Bytes)} (hd : Between d)
    (hline : 10 ∉ line) (h : decodeLine d line = some (d', call)) :
    Between d' ∧ ∀ q ∈ call, q.2.count 10 ≠ 1 := by
  rw [decodeLine] at h
  split at h
  · cases h
    exact ⟨hd, by simp⟩
  · obtain ⟨⟨k, v⟩, hnext, h⟩ := Option.map_eq_some_iff.mp h
    dsimp only at h
    have hk : k ≠ [] := by
      rw [nextValues] at hnext
      split at hnext
      · obtain ⟨u, -, hne, -⟩ := splitKey_some hnext
        exact hne
      · cases hnext
        assumption
    split at h
    · cases h
      exact ⟨⟨fun h0 => absurd h0 hk, fun _ => ⟨rfl, by simp⟩⟩, by simp⟩
    · cases h
      refine ⟨between_start, ?_⟩
      simp only [Option.mem_def, Option.some.injEq, forall_eq']
      by_cases hkey : d.key = []
      · rw [nextValues, if_pos hkey] at hnext
        have hzero := List.count_eq_zero_of_not_mem (not_mem_splitKey hnext hline)
        rw [hd.closed hkey]
        simp [Reading.start, hzero]
      · rw [nextValues, if_neg hkey] at hnext
        cases hnext
        obtain ⟨hmulti, hpos⟩ := hd.opened hkey
        rw [if_pos hmulti]
        simp only [List.count_append, List.count_singleton_self]
        omega

theorem decode_between (hd : Between d) (hxs : ∀ x ∈ xs, 10 ∉ x) (h : decode d xs = some (e, calls)) :
    ∀ q ∈ calls, q.2.count 10 ≠ 1 := by
  induction xs generalizing d calls with
  | nil =>
    cases h
    simp
  | cons x xs ih =>
    obtain ⟨⟨d', call⟩, hline, h⟩ := Option.bind_eq_some_iff.mp h
    obtain ⟨⟨e', calls'⟩, hrest, h⟩ := Option.map_eq_some_iff.mp h
    cases h
    obtain ⟨hd', hcall⟩ := decodeLine_between hd (hxs x (by simp)) hline
    intro q hq
    rcases List.mem_append.mp hq with hq | hq
    · exact hcall q (Option.mem_toList.mp hq)
    · exact ih hd' (fun y hy => hxs y (List.mem_cons_of_mem _ hy)) hrest q hq

/-- Lines without a backslash at their end are read one by one. -/
theorem decode_plain (hxs : ∀ x ∈ xs, 10 ∉ x ∧ x.getLast? ≠ some 92) (h : decode .start xs = some (e, calls)) :
    e = .start ∧ ∀ q ∈ calls, q.2.count 10 = 0 := by
  induction xs generalizing calls with
  | nil =>
    cases h
    simp
  | cons x xs ih =>
    obtain ⟨⟨d', call⟩, hline, h⟩ := Option.bind_eq_some_iff.mp h
    obtain ⟨⟨e', calls'⟩, hrest, h⟩ := Option.map_eq_some_iff.mp h
    cases h
    obtain ⟨hnl, hlast⟩ := hxs x (by simp)
    have hstep : d' = .start ∧ ∀ q ∈ call, q.2.count 10 = 0 := by
      rw [decodeLine] at hline
      split at hline
      · cases hline
        simp
      · obtain ⟨⟨k, v⟩, hnext, hline⟩ := Option.map_eq_some_iff.mp hline
        have hsplit : splitKey x = some (k, v) := hnext
        have hv : v.getLast? ≠ some 92 := by
          obtain ⟨u, rfl, -⟩ := splitKey_some hsplit
          by_cases hv : v = []
          · simp [hv]
          · rwa [getLast_keyLine _ hv] at hlast
        dsimp only at hline
        rw [if_neg hv] at hline
        cases hline
        have hzero := List.count_eq_zero_of_not_mem (not_mem_splitKey hsplit hnl)
        simp [Reading.start, hzero]
    obtain ⟨rfl, hcall⟩ := hstep
    obtain ⟨rfl, hcalls⟩ := ih (fun y hy => hxs y (List.mem_cons_of_mem _ hy)) hrest
    refine ⟨rfl, ?_⟩
    intro q hq
    rcases List.mem_append.mp hq with hq | hq
    · exact hcall q (Option.mem_toList.mp hq)
    · exact hcalls q hq

/-- Reading ends after the second line of a value. -/
theorem decode_long {m : Bytes} (hk : IsKey k) (hls : ∀ x ∈ l :: m :: ls, IsLine x ∧ x ≠ [])
    (h : decode .start (pairLines (k, unlines (l :: m :: ls))) = some (e, calls)) :
    e = .start ∧ ∀ q ∈ calls, q.2.count 10 ≤ 2 := by
  obtain ⟨hm, hne⟩ := hls m (by simp)
  have hclose := decodeLine_close (d := ⟨k, l ++ [10], true⟩) hk.nonempty hne hm.backslash
  have hcut : pairLines (k, unlines (l :: m :: ls)) =
      [k ++ 58 :: 32 :: (l ++ [92]), m] ++ (ls ++ [[]]) :=
    pairLines_text hk fun x hx => (hls x hx).1.newline
  have htwo : decode .start [k ++ 58 :: 32 :: (l ++ [92]), m] = some (.start, [(k, unlines [l, m])]) := by
    simp [decode, decodeLine_open hk, hclose, unlines]
  rw [hcut, decode_append, htwo, Option.bind_some] at h
  obtain ⟨⟨e', calls'⟩, hrest, h⟩ := Option.map_eq_some_iff.mp h
  cases h
  have hplain : ∀ x ∈ ls ++ [[]], 10 ∉ x ∧ x.getLast? ≠ some 92 := by
    intro x hx
    rcases List.mem_append.mp hx with hx | hx
    · have h := (hls x (by simp [hx])).1
      exact ⟨h.newline, h.backslash⟩
    · simp [List.mem_singleton.mp hx]
  obtain ⟨rfl, hcalls⟩ := decode_plain hplain hrest
  refine ⟨rfl, ?_⟩
  intro q hq
  rcases List.mem_append.mp hq with hq | hq
  · rw [List.mem_singleton.mp hq, count_unlines]
    · exact Nat.le_refl 2
    · intro x hx
      exact (hls x (by simp at hx; rcases hx with rfl | rfl <;> simp)).1.newline
  · rw [hcalls q hq]
    exact Nat.zero_le 2

/-- Unless a value has one line, every value that is read has at most two. -/
theorem decode_count_le (hps : ∀ p ∈ ps, IsPair p) (hone : ∀ p ∈ ps, p.2.count 10 ≠ 1)
    (h : decode .start (ps.flatMap pairLines) = some (e, calls)) : ∀ q ∈ calls, q.2.count 10 ≤ 2 := by
  induction ps generalizing calls with
  | nil =>
    cases h
    simp
  | cons p ps ih =>
    rw [List.flatMap_cons, decode_append] at h
    obtain ⟨⟨d', calls₁⟩, hpair, h⟩ := Option.bind_eq_some_iff.mp h
    obtain ⟨⟨e', calls₂⟩, hrest, h⟩ := Option.map_eq_some_iff.mp h
    cases h
    have hp := hps p (by simp)
    have hfirst : d' = .start ∧ ∀ q ∈ calls₁, q.2.count 10 ≤ 2 := by
      obtain ⟨k, v⟩ := p
      rcases hp.value with hv | ⟨l, ls, hv, hls⟩
      · rw [decode_line hp.key hv] at hpair
        cases hpair
        have hzero : v.count 10 = 0 := List.count_eq_zero_of_not_mem hv.newline
        simp [hzero]
      · have hv : v = unlines (l :: ls) := hv
        subst hv
        have hcount := hone (k, unlines (l :: ls)) (by simp)
        rw [count_unlines fun x hx => (hls x hx).1.newline] at hcount
        cases ls with
        | nil => exact absurd rfl hcount
        | cons m ls => exact decode_long hp.key hls hpair
    obtain ⟨rfl, hcalls₁⟩ := hfirst
    have hcalls₂ := ih (fun q hq => hps q (List.mem_cons_of_mem _ hq))
      (fun q hq => hone q (List.mem_cons_of_mem _ hq)) hrest
    intro q hq
    rcases List.mem_append.mp hq with hq | hq
    · exact hcalls₁ q hq
    · exact hcalls₂ q hq

/-- Values of one line and of three or more are never read back. -/
theorem short_of_decode (hps : ∀ p ∈ ps, IsPair p)
    (h : decode .start (ps.flatMap pairLines) = some (e, calls))
    (hcalls : ∀ p ∈ ps, 10 ∈ p.2 → p ∈ calls) : ∀ p ∈ ps, Short p.2 := by
  have hnl : ∀ x ∈ ps.flatMap pairLines, 10 ∉ x := by
    intro x hx
    obtain ⟨p, hp, hx⟩ := List.mem_flatMap.mp hx
    exact ((hps p hp).lines x hx).1
  have hone : ∀ p ∈ ps, p.2.count 10 ≠ 1 := by
    intro p hp
    by_cases h10 : 10 ∈ p.2
    · exact decode_between between_start hnl h p (hcalls p hp h10)
    · rw [List.count_eq_zero_of_not_mem h10]
      decide
  intro p hp h10
  have hle := decode_count_le hps hone h p (hcalls p hp h10)
  have hpos := List.count_pos_iff.mpr h10
  have hne := hone p hp
  omega

/-! ## The round trip -/

variable {out out' : Addr} {s d : Store} {c c' : Addr → Option Chain} {B : UInt8 → List Bytes}
  {P : UInt8 → List (Bytes × Bytes)} {str : Str}

theorem IsText.nulFree (hv : IsText v) : NulFree v := by
  obtain ⟨l, ls, rfl, hls⟩ := hv
  intro h0
  obtain ⟨x, hx, h0⟩ := List.mem_flatten.mp h0
  obtain ⟨y, hy, rfl⟩ := List.mem_map.mp hx
  rcases List.mem_append.mp h0 with h0 | h0
  · exact (hls y hy).1.nulFree h0
  · exact absurd (List.mem_singleton.mp h0) (by decide)

theorem IsPair.nulFree (hp : IsPair p) : NulFree p.1 ∧ NulFree p.2 :=
  ⟨nulFree_key hp.key.chars, hp.value.elim IsLine.nulFree IsText.nulFree⟩

/-- The text of the table goes to a table with other contents. -/
theorem hashDeserialize_serialized (T : Tab out s c fun i => flat (P i)) (D : Tab out' d c' B)
    (hP : ∀ p ∈ pairsOf P, IsPair p) (hstr : Holds str [])
    (hmax : ((pairsOf P).flatMap pairText).length < stringMax) :
    ∃ text, (hashSerialize str).run s = .ok text s ∧ ∀ calls,
      ((∃ d', (hashDeserialize text).run ⟨d, []⟩ = .ok () ⟨d', calls⟩) ↔
        ∃ e B', replay B .start ((pairsOf P).flatMap pairLines) = some (e, calls, B') ∧ e.key = []) := by
  have hn : ∀ i, ∀ p ∈ P i, NulFree p.1 ∧ NulFree p.2 := by
    intro i p hp
    exact (hP p (List.mem_flatMap.mpr ⟨i, mem_slots i, hp⟩)).nulFree
  obtain ⟨text, hrun, htext⟩ := hashSerialize_tab T hn hstr (by simpa using hmax)
  have hnul : NulFree ((pairsOf P).flatMap pairText) := by
    intro h0
    obtain ⟨p, hp, h0⟩ := List.mem_flatMap.mp h0
    exact nulFree_pairText (hP p hp).nulFree.1 (hP p hp).nulFree.2 h0
  refine ⟨text, hrun, ?_⟩
  intro calls
  rw [← linesOf_pairs hP]
  exact hashDeserialize_run D htext hnul hmax calls

/-- A table whose values are on one line comes back, unless one of the calls of `hash_set` ends at
the last entry of a bucket. -/
theorem hash_round_trip_iff (T : Tab out s c fun i => flat (P i)) (D : Tab out' d c' B)
    (hkey : ∀ p ∈ pairsOf P, IsKey p.1) (hvalue : ∀ p ∈ pairsOf P, IsLine p.2) (hstr : Holds str [])
    (hmax : ((pairsOf P).flatMap pairText).length < stringMax) :
    ∃ text, (hashSerialize str).run s = .ok text s ∧
      ((∃ d', (hashDeserialize text).run ⟨d, []⟩ = .ok () ⟨d', pairsOf P⟩) ↔
        (setAll B (pairsOf P)).isSome) := by
  have hP : ∀ p ∈ pairsOf P, IsPair p := fun p hp => ⟨hkey p hp, Or.inl (hvalue p hp)⟩
  have hshort : ∀ p ∈ pairsOf P, Short p.2 := fun p hp h10 => absurd h10 (hvalue p hp).newline
  obtain ⟨text, hrun, hiff⟩ := hashDeserialize_serialized T D hP hstr hmax
  refine ⟨text, hrun, ?_⟩
  rw [hiff, replay_pairs hP hshort, Option.isSome_iff_exists]
  constructor
  · rintro ⟨e, B', hreplay, -⟩
    obtain ⟨B'', hset, -⟩ := Option.map_eq_some_iff.mp hreplay
    exact ⟨B'', hset⟩
  · rintro ⟨B', hset⟩
    exact ⟨.start, B', by rw [hset]; rfl, rfl⟩

/-- The pairs of a table with one bucket. -/
theorem pairsOf_update (i : UInt8) (ps : List (Bytes × Bytes)) :
    pairsOf (Function.update (fun _ => []) i ps) = ps := by
  obtain ⟨us, vs, hslots⟩ := List.append_of_mem (mem_slots i)
  have hnodup := slots_nodup
  rw [hslots, List.nodup_append] at hnodup
  obtain ⟨-, hvs, hus⟩ := hnodup
  have hnil : ∀ {ws : List UInt8}, i ∉ ws → ws.flatMap (Function.update (fun _ => []) i ps) = [] := by
    intro ws hi
    refine List.flatMap_eq_nil_iff.mpr fun j hj => ?_
    have hji : j ≠ i := by
      rintro rfl
      exact hi hj
    exact Function.update_of_ne hji _ _
  rw [pairsOf, hslots, List.flatMap_append, List.flatMap_cons, Function.update_self,
    hnil fun hi => hus i hi i (by simp) rfl, hnil (List.nodup_cons.mp hvs).1, List.nil_append,
    List.append_nil]

/-- A table with the keys `ab` and `ba`. -/
theorem exists_pairs (v w : WfStr) (hv : Clear ba.1 [(ab.1, v.1.text)]) :
    ∃ s c P, PairTab s c P ∧ pairsOf P = [(ab.1, v.1.text), (ba.1, w.1.text)] := by
  obtain ⟨s, c, -, T⟩ := run_set_ab v
  have hsame : xorBytes ba.1 = xorBytes ab.1 := by decide
  have hP : Function.update (fun _ => []) (xorBytes ab.1) [(ab.1, v.1.text)] (xorBytes ba.1) =
      [(ab.1, v.1.text)] := by
    rw [hsame]
    exact Function.update_self _ _ _
  obtain ⟨s', c', -, T', -⟩ := (set_clear T ba (hP ▸ hv) w).1 (by decide)
  refine ⟨s', c', _, T', ?_⟩
  rw [hP, hsame, Function.update_idem, pairsOf_update]
  rfl

theorem isKey_ab : IsKey ab.1 := by
  refine ⟨by decide, ?_⟩
  intro c hc
  rcases (by simpa [ab] using hc : c = 97 ∨ c = 98) with rfl | rfl
  all_goals decide

theorem isKey_ba : IsKey ba.1 := by
  refine ⟨by decide, ?_⟩
  intro c hc
  rcases (by simpa [ba] using hc : c = 98 ∨ c = 97) with rfl | rfl
  all_goals decide

/-- A table with `x` under `ab` and `y` under `ba` comes back. -/
theorem hash_round_trip_iff_ab :
    ∃ s c P text d', PairTab s c P ∧ pairsOf P = [(ab.1, [120]), (ba.1, [121])] ∧
      (hashSerialize (ofText []).1).run s = .ok text s ∧
      (hashDeserialize text).run ⟨start, []⟩ = .ok () ⟨d', [(ab.1, [120]), (ba.1, [121])]⟩ := by
  obtain ⟨s, c, P, T, hP⟩ := exists_pairs (ofText [120]) (ofText [121]) (by rw [Clear]; decide)
  have hP : pairsOf P = [(ab.1, [120]), (ba.1, [121])] := hP
  have hx : IsLine [120] := ⟨by decide, by decide, by decide, by decide⟩
  have hy : IsLine [121] := ⟨by decide, by decide, by decide, by decide⟩
  obtain ⟨text, hrun, hiff⟩ := hash_round_trip_iff (B := fun _ => []) T tab_start
    (by rw [hP]; simpa using ⟨isKey_ab, isKey_ba⟩) (by rw [hP]; simpa using ⟨hx, hy⟩) (ofText []).2
    (by rw [hP]; decide)
  rw [hP] at hiff
  obtain ⟨d', hd'⟩ := hiff.mpr (by decide +kernel)
  exact ⟨s, c, P, text, d', T, hP, hrun, hd'⟩

/-- The table with `ba` under the key `ab` and `x` under `ba`: the text is right, and reading it
into an empty table runs off the end of the bucket at the second line. -/
theorem hash_deserialize_faults :
    ((execAll [.set ab (ofText [122]), .set ba (ofText [120]), .set ab (ofText ba.1)] >>= fun _ =>
        hashSerialize (ofText []).1).run start).value =
      some (ofText [97, 98, 58, 32, 98, 97, 10, 98, 97, 58, 32, 120, 10]).1 ∧
    (hashDeserialize (ofText [97, 98, 58, 32, 98, 97, 10, 98, 97, 58, 32, 120, 10]).1).run ⟨start, []⟩ =
      .halt .fault := by
  constructor
  · decide +kernel
  · exact Outcome.eq_of_stopped (by decide +kernel)

/-- A table with values of several lines comes back when all of these have two lines, and no call of
`hash_set` ends at the last entry of a bucket. -/
theorem hash_multiline_round_trip_iff (T : Tab out s c fun i => flat (P i)) (D : Tab out' d c' B)
    (hkey : ∀ p ∈ pairsOf P, IsKey p.1) (hvalue : ∀ p ∈ pairsOf P, IsLine p.2 ∨ IsText p.2)
    (hstr : Holds str []) (hmax : ((pairsOf P).flatMap pairText).length < stringMax) :
    ∃ text, (hashSerialize str).run s = .ok text s ∧
      ((∃ d' calls, (hashDeserialize text).run ⟨d, []⟩ = .ok () ⟨d', calls⟩ ∧
          ∀ p ∈ pairsOf P, IsText p.2 → p ∈ calls) ↔
        (∀ p ∈ pairsOf P, IsText p.2 → p.2.count 10 = 2) ∧ (setAll B (pairsOf P)).isSome) := by
  have hP : ∀ p ∈ pairsOf P, IsPair p := fun p hp => ⟨hkey p hp, hvalue p hp⟩
  have htext : ∀ p ∈ pairsOf P, 10 ∈ p.2 → IsText p.2 := by
    intro p hp h10
    exact (hvalue p hp).resolve_left fun hl => hl.newline h10
  obtain ⟨text, hrun, hiff⟩ := hashDeserialize_serialized T D hP hstr hmax
  refine ⟨text, hrun, ?_⟩
  constructor
  · rintro ⟨d', calls, hd', hcalls⟩
    obtain ⟨e, B', hreplay, -⟩ := (hiff calls).mp ⟨d', hd'⟩
    obtain ⟨⟨e', calls'⟩, hdecode, hset⟩ := Option.bind_eq_some_iff.mp hreplay
    obtain ⟨B'', -, heq⟩ := Option.map_eq_some_iff.mp hset
    cases heq
    have hshort := short_of_decode hP hdecode fun p hp h10 => hcalls p hp (htext p hp h10)
    rw [replay_pairs hP hshort] at hreplay
    obtain ⟨B'', hset, -⟩ := Option.map_eq_some_iff.mp hreplay
    refine ⟨?_, by rw [hset]; rfl⟩
    rintro p hp ⟨l, ls, hv, hls⟩
    exact hshort p hp (by rw [hv]; simp [unlines])
  · rintro ⟨htwo, hset⟩
    have hshort : ∀ p ∈ pairsOf P, Short p.2 := fun p hp h10 => htwo p hp (htext p hp h10)
    obtain ⟨B', hset⟩ := Option.isSome_iff_exists.mp hset
    have hreplay : replay B .start ((pairsOf P).flatMap pairLines) = some (.start, pairsOf P, B') := by
      rw [replay_pairs hP hshort, hset]
      rfl
    obtain ⟨d', hd'⟩ := (hiff (pairsOf P)).mpr ⟨.start, B', hreplay, rfl⟩
    exact ⟨d', pairsOf P, hd', fun p hp _ => hp⟩

/-- A table with two lines under `ab` and a word under `ba` comes back, and one with a single line
under `ab` does not. -/
theorem hash_multiline_round_trip_iff_ab :
    (∃ s c P text d' calls, PairTab s c P ∧ pairsOf P = [(ab.1, [97, 10, 98, 10]), (ba.1, [120])] ∧
      (hashSerialize (ofText []).1).run s = .ok text s ∧
      (hashDeserialize text).run ⟨start, []⟩ = .ok () ⟨d', calls⟩ ∧ (ab.1, [97, 10, 98, 10]) ∈ calls) ∧
    ∃ s c P text, PairTab s c P ∧ pairsOf P = [(ab.1, [97, 10]), (ba.1, [120])] ∧
      (hashSerialize (ofText []).1).run s = .ok text s ∧
      ¬ ∃ d' calls, (hashDeserialize text).run ⟨start, []⟩ = .ok () ⟨d', calls⟩ ∧ (ab.1, [97, 10]) ∈ calls := by
  have ha : IsLine [97] := ⟨by decide, by decide, by decide, by decide⟩
  have hb : IsLine [98] := ⟨by decide, by decide, by decide, by decide⟩
  have hx : IsLine [120] := ⟨by decide, by decide, by decide, by decide⟩
  have hone : IsText [97, 10] := ⟨[97], [], rfl, by simpa using ha⟩
  have htwo : IsText [97, 10, 98, 10] := ⟨[97], [[98]], rfl, by simpa using ⟨ha, hb⟩⟩
  have hword : ¬ IsText [120] := by
    rintro ⟨l, ls, hv, -⟩
    have hmem : 10 ∈ unlines (l :: ls) := by simp [unlines]
    rw [← hv] at hmem
    exact absurd hmem (by decide)
  constructor
  · obtain ⟨s, c, P, T, hP⟩ := exists_pairs (ofText [97, 10, 98, 10]) (ofText [120]) (by rw [Clear]; decide)
    have hP : pairsOf P = [(ab.1, [97, 10, 98, 10]), (ba.1, [120])] := hP
    obtain ⟨text, hrun, hiff⟩ := hash_multiline_round_trip_iff (B := fun _ => []) T tab_start
      (by rw [hP]; simpa using ⟨isKey_ab, isKey_ba⟩)
      (by rw [hP]; simpa using ⟨Or.inr htwo, Or.inl hx⟩) (ofText []).2 (by rw [hP]; decide)
    rw [hP] at hiff
    obtain ⟨d', calls, hd', hcalls⟩ := hiff.mpr ⟨by simp [hword], by decide +kernel⟩
    exact ⟨s, c, P, text, d', calls, T, hP, hrun, hd', hcalls _ (by simp) htwo⟩
  · obtain ⟨s, c, P, T, hP⟩ := exists_pairs (ofText [97, 10]) (ofText [120]) (by rw [Clear]; decide)
    have hP : pairsOf P = [(ab.1, [97, 10]), (ba.1, [120])] := hP
    obtain ⟨text, hrun, hiff⟩ := hash_multiline_round_trip_iff (B := fun _ => []) T tab_start
      (by rw [hP]; simpa using ⟨isKey_ab, isKey_ba⟩)
      (by rw [hP]; simpa using ⟨Or.inr hone, Or.inl hx⟩) (ofText []).2 (by rw [hP]; decide)
    rw [hP] at hiff
    refine ⟨s, c, P, text, T, hP, hrun, ?_⟩
    rintro ⟨d', calls, hd', hcall⟩
    have hcount := (hiff.mp ⟨d', calls, hd', by simp [hword, hcall]⟩).1 (ab.1, [97, 10]) (by simp) hone
    exact absurd hcount (by decide)

/-- One line under the key `ab` stays open until the end of the text, and of three lines the third
is taken for another pair. -/
theorem hash_deserialize_rejects_lines :
    ((execAll [.set ab (ofText [97, 10])] >>= fun _ => hashSerialize (ofText []).1).run start).value =
      some (ofText [97, 98, 58, 32, 97, 92, 10, 10]).1 ∧
    ((hashDeserialize (ofText [97, 98, 58, 32, 97, 92, 10, 10]).1).run ⟨start, []⟩).value = none ∧
    ((execAll [.set ab (ofText [97, 10, 98, 10, 99, 10])] >>= fun _ =>
        hashSerialize (ofText []).1).run start).value =
      some (ofText [97, 98, 58, 32, 97, 92, 10, 98, 10, 99, 10, 10]).1 ∧
    ((hashDeserialize (ofText [97, 98, 58, 32, 97, 92, 10, 98, 10, 99, 10, 10]).1).run
      ⟨start, []⟩).value = none := by
  decide +kernel

end NcHash
