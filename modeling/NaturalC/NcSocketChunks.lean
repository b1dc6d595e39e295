import NaturalC.NcSocketRuns

/-!
# Lines and the chunks they arrive in

A stream arrives in chunks of any size that `read(2)` can return. What `socket_readline`
returns can depend on where the chunks end, because line terminators are also taken off the
end of a fragment. For the streams that are `Steady` it does not: after any number of calls,
what has been returned and what is in the input buffer are together the segments of the part
of the stream that has been read.
-/
namespace NcSocket

open Throwing Throwing.Act NcString NcList NcSplit Linked Lines

/-- What is left of a line that is trimmed twice. -/
def bare (l : Bytes) : Bytes := trim 13 (trim 13 l)

/-- The lines of a stream that can be cut into chunks anywhere. -/
structure Steady (ls : List Bytes) : Prop where
  /-- Only the last line may end in two CRs. -/
  ends : ∀ l ∈ ls.dropLast, (trim 13 l).getLast? ≠ some 13
  /-- Nothing follows a CR that stands early in a line other than the first, except for one more CR
  at the end of the last line. -/
  early : ∀ k l i, 0 < k → ls[k]? = some l → i < recvBufSize - 2 → l[i]? = some 13 →
    l.drop i = [13] ∨ (k + 1 = ls.length ∧ l.drop i = [13, 13])

variable {ls a b : List Bytes} {l p x : Bytes}

theorem bare_append_of_ne (h : p.getLast? ≠ some 13) (x : Bytes) : bare (p ++ x) = p ++ bare x := by
  rw [bare, trim_append_of_ne h, trim_append_of_ne h, bare]

theorem length_bare_le (l : Bytes) : (bare l).length ≤ l.length :=
  Nat.le_trans (length_trim_le _) (length_trim_le _)

theorem Steady.bare_eq (h : Steady ls) (hl : l ∈ ls.dropLast) : bare l = trim 13 l :=
  trim_of_ne (h.ends l hl)

/-- Behind a fragment that ends in a CR there is nothing left but at most one more CR. -/
theorem Steady.behind_cr (h : Steady (a ++ (p ++ x) :: b)) (ha : a ≠ [])
    (hp : p.length ≤ recvBufSize - 2) (hcr : p.getLast? = some 13) : x = [] ∨ (b = [] ∧ x = [13]) := by
  obtain ⟨init, c, rfl⟩ := (List.eq_nil_or_concat p).resolve_left (by rintro rfl; simp at hcr)
  rw [List.concat_eq_append] at *
  obtain rfl : c = 13 := by simpa using hcr
  have hpos : 0 < a.length := List.length_pos_iff.mpr ha
  have hlt : init.length < recvBufSize - 2 := by
    rw [List.length_append, List.length_singleton] at hp
    omega
  rcases h.early a.length (init ++ [13] ++ x) init.length hpos (by simp) hlt (by simp) with hx | ⟨hb, hx⟩
  · rw [List.append_assoc, List.drop_left' rfl] at hx
    exact .inl (by simpa using hx)
  · rw [List.append_assoc, List.drop_left' rfl] at hx
    refine .inr ⟨?_, by simpa using hx⟩
    rw [List.length_append, List.length_cons] at hb
    exact List.length_eq_zero_iff.mp (by omega)

/-- The two parts of a line that is cut early, each trimmed for itself, make up the trimmed line. -/
theorem Steady.join (h : Steady (a ++ (p ++ x) :: b)) (ha : a ≠ []) (hp : p.length ≤ recvBufSize - 2) :
    bare p ++ bare x = bare (p ++ x) ∧ (b ≠ [] → bare p ++ trim 13 x = bare (p ++ x)) := by
  have hmem : b ≠ [] → p ++ x ∈ (a ++ (p ++ x) :: b).dropLast := by
    intro hb
    rw [List.dropLast_append_of_ne_nil (by simp), List.dropLast_cons_of_ne_nil hb]
    simp
  by_cases hcr : p.getLast? = some 13
  · rcases h.behind_cr ha hp hcr with rfl | ⟨rfl, rfl⟩
    · simp [bare]
    · refine ⟨?_, fun hb => absurd rfl hb⟩
      obtain ⟨init, c, rfl⟩ := (List.eq_nil_or_concat p).resolve_left (by rintro rfl; simp at hcr)
      rw [List.concat_eq_append] at *
      obtain rfl : c = 13 := by simpa using hcr
      -- Two CRs are cut off here, so there must not be a third one.
      have hinit : init.getLast? ≠ some 13 := by
        intro hc
        rw [List.length_append, List.length_singleton] at hp
        rw [List.append_assoc] at h
        rcases h.behind_cr ha (by omega) hc with hx | ⟨-, hx⟩ <;> simp at hx
      rw [bare, bare, bare, trim_concat, trim_concat, trim_concat, trim_of_ne hinit]
      simp [trim]
  · have hpp : bare p = p := by rw [bare, trim_of_ne hcr, trim_of_ne hcr]
    rw [hpp]
    refine ⟨(bare_append_of_ne hcr x).symm, ?_⟩
    intro hb
    rw [h.bare_eq (hmem hb), trim_append_of_ne hcr]

/-- A stream that does not depend on the chunks, with lines that are not too long. -/
structure Readable (stream : Bytes) : Prop where
  steady : Steady (segments 10 stream)
  short : ∀ l ∈ segments 10 stream, l.length + recvBufSize ≤ stringMax

/-- The reader after `k` calls, when `seen` has been read and `cs` is still to come. -/
structure Reads (stream seen : Bytes) (k : Nat) (cs : List Bytes) (es : List Event) (r : Reader) :
    Prop where
  stream : stream = seen ++ cs.flatten
  chunks : ∀ c ∈ cs, Chunk c
  events : r.events = cs.map .data ++ es
  connected : r.connected = true
  fragmented : r.fragmented = decide ((cut 10 seen).2 ≠ [])
  fragment : (cut 10 seen).2 ≠ [] → (cut 10 seen).1 ≠ [] ∧ (cut 10 seen).2.length ≤ recvBufSize - 2
  returned : k ≤ (cut 10 seen).1.length
  buf : r.buf = ((segments 10 seen).map bare).drop k

variable {stream seen u rest : Bytes} {k n : Nat} {cs pre : List Bytes} {es : List Event} {r : Reader}

/-- The first segment of what has just been read belongs to a line of the stream. -/
theorem first_segment (hstream : stream = seen ++ u ++ rest) (hu : 10 ∈ u) {x : Bytes}
    {xs : List Bytes} (hx : segments 10 u = x :: xs) (hopen : (cut 10 seen).2 ≠ []) :
    ∃ b, segments 10 stream = (cut 10 seen).1 ++ ((cut 10 seen).2 ++ x) :: b ∧ (xs ≠ [] → b ≠ []) := by
  have hall := segments_append_open hopen hx
  have hne : seen ++ u ≠ [] := by
    intro hnil
    rw [(List.append_eq_nil_iff.mp hnil).2] at hu
    simp at hu
  rcases List.eq_nil_or_concat xs with rfl | ⟨ys, l, rfl⟩
  · -- All of `u` is one line with its newline.
    have hclosed : (cut 10 (seen ++ u)).2 = [] := by
      rw [cut_append_rest hu]
      by_contra hrest
      rw [segments_open hrest] at hx
      have hlen := congrArg List.length hx
      rw [List.length_append, List.length_singleton, List.length_singleton] at hlen
      exact (cut_spec 10 u).mem_iff.mp hu (List.length_eq_zero_iff.mp (by omega))
    refine ⟨segments 10 rest, ?_, fun h => absurd rfl h⟩
    rw [hstream, segments_append_closed hclosed, hall, List.append_assoc]
    rfl
  · obtain ⟨m, hm, hseg⟩ := segments_append_prefix 10 hne rest
    rw [List.concat_eq_append] at hall
    refine ⟨ys ++ m, ?_, fun _ => by simp [hm]⟩
    rw [hstream, hseg, hall, ← List.cons_append, ← List.append_assoc, List.dropLast_concat]
    simp

/-- The tokens of what has just been read, put behind the segments that are already there. -/
theorem merge_steady (S : Readable stream) (hstream : stream = seen ++ u ++ rest) (hu : 10 ∈ u)
    (hfrag : (cut 10 seen).2 ≠ [] → (cut 10 seen).1 ≠ [] ∧ (cut 10 seen).2.length ≤ recvBufSize - 2)
    (hk : k ≤ (cut 10 seen).1.length)
    (hneed : (cut 10 seen).2 ≠ [] ∨ ((segments 10 seen).map bare).drop k = []) :
    mergeTokens (decide ((cut 10 seen).2 ≠ [])) (((segments 10 seen).map bare).drop k) (pieces 10 u) =
      ((segments 10 (seen ++ u)).map bare).drop k := by
  have hune : u ≠ [] := List.ne_nil_of_mem hu
  have hinit : ∀ l ∈ (segments 10 (seen ++ u)).dropLast, bare l = trim 13 l := by
    intro l hl
    obtain ⟨m, hm, hseg⟩ := segments_append_prefix 10 (s := seen ++ u) (by simp [hune]) rest
    apply S.steady.bare_eq
    rw [hstream, hseg, List.dropLast_append_of_ne_nil hm]
    exact List.mem_append_left _ hl
  by_cases hopen : (cut 10 seen).2 = []
  · have hbuf := hneed.resolve_left (fun h => h hopen)
    obtain ⟨init, l, hl⟩ := (List.eq_nil_or_concat _).resolve_left (segments_ne_nil 10 hune)
    rw [List.concat_eq_append] at hl
    have hall := segments_append_closed hopen u
    have hlen : ((segments 10 seen).map bare).length = k := by
      have hle := List.drop_eq_nil_iff.mp hbuf
      rw [List.length_map, segments_closed hopen] at hle ⊢
      omega
    have htrim : init.map (trim 13) = init.map bare := by
      apply List.map_congr_left
      intro y hy
      refine (hinit y ?_).symm
      rw [hall, hl, ← List.append_assoc, List.dropLast_concat]
      exact List.mem_append_right _ hy
    rw [hbuf, mergeTokens, if_neg (by simp [hopen]), List.nil_append, pieces_segments _ hl, hall,
      List.map_append, List.drop_left' hlen, hl, List.map_append, htrim]
    rfl
  · obtain ⟨hlines, hshort⟩ := hfrag hopen
    obtain ⟨x, xs, hx⟩ := List.exists_cons_of_ne_nil (segments_ne_nil 10 hune)
    have hall := segments_append_open hopen hx
    obtain ⟨b, hseg, hb⟩ := first_segment hstream hu hx hopen
    have hsteady := S.steady
    rw [hseg] at hsteady
    obtain ⟨hjoin, hjoin'⟩ := hsteady.join hlines hshort
    -- The first token of the new text goes to the fragment.
    have htokens : ∃ y ys, pieces 10 u = y :: ys ∧
        bare (cut 10 seen).2 ++ y = bare ((cut 10 seen).2 ++ x) ∧ ys = xs.map bare := by
      rcases List.eq_nil_or_concat xs with rfl | ⟨ys, l, rfl⟩
      · exact ⟨bare x, [], pieces_segments [] hx, hjoin, rfl⟩
      · rw [List.concat_eq_append] at *
        refine ⟨trim 13 x, _, pieces_segments (x :: ys) hx, hjoin' (hb (by simp)), ?_⟩
        rw [List.map_append]
        refine congrArg (· ++ [bare l]) (List.map_congr_left ?_)
        intro y hy
        refine (hinit y ?_).symm
        rw [hall, ← List.cons_append, ← List.append_assoc, List.dropLast_concat]
        exact List.mem_append_right _ (List.mem_cons_of_mem _ hy)
    obtain ⟨y, ys, hpieces, hy, rfl⟩ := htokens
    have hk' : k ≤ ((cut 10 seen).1.map bare).length := by rwa [List.length_map]
    rw [mergeTokens, if_pos (by simp [hopen]), hpieces, segments_open hopen, hall, List.map_append,
      List.map_append, List.drop_append_of_le_length hk', List.drop_append_of_le_length hk']
    simp [hy]

/-! ## One call -/

/-- Chunks without a newline are put together. -/
theorem gather_chunks {acc : Bytes} (hpre : ∀ c ∈ pre, Chunk c) (hlf : 10 ∉ acc ++ pre.flatten)
    (hmax : (acc ++ pre.flatten).length < stringMax) (es : List Event) :
    gather true acc (pre.map .data ++ es) = gather true (acc ++ pre.flatten) es := by
  induction pre generalizing acc with
  | nil => simp
  | cons c pre ih =>
    rw [List.flatten_cons, ← List.append_assoc] at hlf hmax
    have hc := (hpre c (by simp)).1
    have hshort : ¬ stringMax ≤ acc.length + c.length := by
      simp only [List.length_append] at hmax
      omega
    have hnone : 10 ∉ acc ++ c := fun hm => hlf (List.mem_append_left _ hm)
    rw [List.map_cons, List.cons_append, gather, if_neg hc, if_neg hshort, if_pos ⟨rfl, hnone⟩,
      ih (fun d hd => hpre d (List.mem_cons_of_mem _ hd)) hlf hmax]
    simp

/-- Reading ends with the first chunk that has a newline. -/
theorem gather_newline (pre : List Bytes) {c : Bytes} (hpre : ∀ c ∈ pre, Chunk c) (hlf : 10 ∉ pre.flatten) (hc : 10 ∈ c)
    (hmax : pre.flatten.length + c.length < stringMax) (es : List Event) :
    gather true [] (pre.map .data ++ .data c :: es) = (.line (pre.flatten ++ c), true, es) := by
  rw [gather_chunks hpre (by simpa using hlf) (by rw [List.nil_append]; omega), List.nil_append, gather,
    if_neg (List.ne_nil_of_mem hc), if_neg (by omega), if_neg (by simp [hc])]

/-- A complete line in the buffer is returned. -/
theorem Reads.buffered (hr : Reads stream seen k cs es r) (hclosed : (cut 10 seen).2 = [])
    (hbuf : r.buf ≠ []) :
    ∃ t r', r.readline = (.got t, r') ∧ ((segments 10 stream).map bare)[k]? = some t ∧
      Reads stream seen (k + 1) cs es r' := by
  have hfrag : r.fragmented = false := by rw [hr.fragmented, hclosed]; rfl
  have hk : k < (cut 10 seen).1.length := by
    rw [hr.buf, segments_closed hclosed] at hbuf
    have hlen := List.length_pos_iff.mpr hbuf
    rw [List.length_drop, List.length_map] at hlen
    omega
  have hhead : ((segments 10 stream).map bare)[k]? = r.buf.head? := by
    rw [hr.buf, List.head?_drop, hr.stream, List.getElem?_map, segments_getElem? hk, List.getElem?_map]
  obtain ⟨t, ts, ht⟩ := List.exists_cons_of_ne_nil hbuf
  refine ⟨t, { r with buf := r.buf.tail }, ?_, ?_, hr.stream, hr.chunks, hr.events, hr.connected,
    hr.fragmented, hr.fragment, hk, ?_⟩
  · rw [Reader.readline, if_pos ⟨hbuf, hfrag⟩, ht]
    rfl
  · rw [hhead, ht]
    rfl
  · change r.buf.tail = _
    rw [hr.buf, List.tail_drop]

/-- The first segment of the new text is a part of a line that is not too long. -/
theorem Readable.first_short (S : Readable stream) (hstream : stream = seen ++ u ++ rest) (hu : 10 ∈ u)
    (hopen : (cut 10 seen).2 ≠ []) {y : Bytes} {ys : List Bytes} (hp : pieces 10 u = y :: ys) :
    (bare (cut 10 seen).2).length + y.length < stringMax := by
  obtain ⟨x, xs, hx⟩ :=
    List.exists_cons_of_ne_nil (segments_ne_nil 10 (List.ne_nil_of_mem hu))
  obtain ⟨b, hseg, -⟩ := first_segment hstream hu hx hopen
  have hshort := S.short ((cut 10 seen).2 ++ x) (by rw [hseg]; simp)
  have hy : y.length ≤ x.length := by
    rcases List.eq_nil_or_concat xs with rfl | ⟨zs, l, rfl⟩
    · rw [pieces_segments [] hx] at hp
      rw [← (List.cons.inj hp).1]
      exact length_bare_le x
    · rw [List.concat_eq_append] at hx
      rw [pieces_segments (x :: zs) hx] at hp
      rw [← (List.cons.inj hp).1]
      exact length_trim_le x
  have hp := length_bare_le (cut 10 seen).2
  rw [List.length_append] at hshort
  simp only [recvBufSize] at hshort
  omega

/-- A call does not look at the buffer while the last line in it is unfinished, or when nothing is in it. -/
theorem Reads.not_ready (hr : Reads stream seen k cs es r) (hneed : (cut 10 seen).2 ≠ [] ∨ r.buf = []) :
    ¬ (r.buf ≠ [] ∧ r.fragmented = false) := by
  rintro ⟨hbuf, hfrag⟩
  rw [hr.fragmented] at hfrag
  rcases hneed with h | h
  · simp [h] at hfrag
  · exact hbuf h

/-- The line that is continued does not become too long. -/
theorem Reads.not_overlong (S : Readable stream) (hr : Reads stream seen k cs es r) {u rest : Bytes}
    (hstream : stream = seen ++ u ++ rest) (hu : 10 ∈ u) : ¬ r.overlong u := by
  rintro ⟨hfrag, hlong⟩
  rw [hr.fragmented] at hfrag
  have hopen := of_decide_eq_true hfrag
  obtain ⟨y, ys, hy⟩ := List.exists_cons_of_ne_nil (List.length_pos_iff.mp (length_pieces (u := u)).1)
  have hshort := S.first_short hstream hu hopen hy
  have hk : k ≤ ((cut 10 seen).1.map bare).length := by
    rw [List.length_map]
    exact hr.returned
  rw [hr.buf, segments_open hopen, hy, List.map_append, List.drop_append_of_le_length hk] at hlong
  simp at hlong
  omega

/-- Otherwise more is read, up to the next chunk with a newline. -/
theorem Reads.newline (S : Readable stream) {c : Bytes}
    (hr : Reads stream seen k (pre ++ c :: cs) es r) (hpre : 10 ∉ pre.flatten) (hc : 10 ∈ c)
    (hneed : (cut 10 seen).2 ≠ [] ∨ r.buf = []) :
    ∃ t r', r.readline = (.got t, r') ∧ ((segments 10 stream).map bare)[k]? = some t ∧
      Reads stream (seen ++ (pre.flatten ++ c)) (k + 1) cs es r' := by
  have hu : (10 : UInt8) ∈ pre.flatten ++ c := List.mem_append_right _ hc
  have hstream : stream = seen ++ (pre.flatten ++ c) ++ cs.flatten := by simp [hr.stream]
  have hchunk := hr.chunks c (by simp)
  have hready := hr.not_ready hneed
  -- What is in front of the chunk with the newline belongs to one line.
  have hlen : pre.flatten.length + c.length < stringMax := by
    obtain ⟨l, hl, hle⟩ := length_le_of_unfinished (s := seen) hpre (b := c ++ cs.flatten) (by simp [hc])
    have hmem : l ∈ segments 10 stream := by
      rw [hstream]
      apply List.mem_append_left _
      simpa using hl
    have hshort := S.short l hmem
    have hsize := hchunk.2
    simp only [recvBufSize] at hshort hsize
    omega
  have hgather : gather r.connected [] r.events = (.line (pre.flatten ++ c), true, cs.map .data ++ es) := by
    rw [hr.connected, hr.events, List.map_append, List.append_assoc]
    exact gather_newline _ (fun d hd => hr.chunks d (by simp [hd])) hpre hc hlen _
  have hmerge := merge_steady (k := k) S hstream hu hr.fragment hr.returned
    (hneed.imp_right fun h => by rw [← hr.buf, h])
  rw [← hr.buf, ← hr.fragmented] at hmerge
  have hfit := hr.not_overlong S hstream hu
  -- The new text has at least one line more than has been returned.
  have hlines : k < (cut 10 (seen ++ (pre.flatten ++ c))).1.length := by
    obtain ⟨more, hmore, hne⟩ := cut_append_lines 10 seen (pre.flatten ++ c)
    have hpos := List.length_pos_iff.mpr (hne hu)
    have hret := hr.returned
    rw [hmore, List.length_append]
    omega
  have hhead : ((segments 10 stream).map bare)[k]? =
      (((segments 10 (seen ++ (pre.flatten ++ c))).map bare).drop k).head? := by
    rw [List.head?_drop, hstream, List.getElem?_map, segments_getElem? hlines, List.getElem?_map]
  have hne : ((segments 10 (seen ++ (pre.flatten ++ c))).map bare).drop k ≠ [] := by
    rw [ne_eq, List.drop_eq_nil_iff, List.length_map, segments, List.length_append]
    omega
  obtain ⟨t, ts, ht⟩ := List.exists_cons_of_ne_nil hne
  have hrest : (cut 10 (seen ++ (pre.flatten ++ c))).2 = (cut 10 c).2 := by
    rw [cut_append_rest hu, cut_append_rest hc]
  refine ⟨t, ⟨ts, decide ((pre.flatten ++ c).getLast? ≠ some 10), true, cs.map .data ++ es⟩, ?_, ?_,
    hstream, fun d hd => hr.chunks d (by simp [hd]), rfl, rfl, ?_, ?_, hlines, ?_⟩
  · rw [Reader.readline, if_neg hready, hgather]
    dsimp only
    rw [Reader.accept, if_neg hfit, hmerge, ht]
    rfl
  · rw [hhead, ht]
    rfl
  · have hiff := (cut_spec 10 (seen ++ (pre.flatten ++ c))).rest_eq_nil_iff
    have hune : pre.flatten ++ c ≠ [] := List.ne_nil_of_mem hu
    rw [List.getLast?_append_of_ne_nil _ hune] at hiff
    simp only [ne_eq, hiff, List.append_eq_nil_iff, List.ne_nil_of_mem hc, and_false, false_or]
  · intro hopen
    rw [hrest] at hopen ⊢
    refine ⟨List.length_pos_iff.mp (by omega), ?_⟩
    have hcut := congrArg List.length (cut_spec 10 c).eq
    have hsize := hchunk.2
    obtain ⟨m, ms, hm⟩ := List.exists_cons_of_ne_nil ((cut_spec 10 c).mem_iff.mp hc)
    rw [hm] at hcut
    simp only [List.map_cons, List.flatten_cons, List.length_append, List.length_singleton] at hcut
    omega
  · rw [← List.tail_drop, ht]
    rfl

/-! ## All calls -/

/-- Once all lines have been returned that are complete, the rest of the stream has no newline. -/
theorem Reads.more (hr : Reads stream seen k cs es r) (hk : k < (cut 10 stream).1.length)
    (hneed : (cut 10 seen).2 = [] → r.buf = []) (hopen : (cut 10 seen).2 ≠ [] → (cut 10 stream).2 = []) :
    10 ∈ cs.flatten := by
  by_contra hnot
  have hcut := ((cut_spec 10 seen).append_unfinished hnot).eq_cut
  rw [← hr.stream] at hcut
  by_cases hrest : (cut 10 seen).2 = []
  · have hbuf := hneed hrest
    rw [hr.buf, List.drop_eq_nil_iff, List.length_map, segments_closed hrest] at hbuf
    rw [hcut] at hk
    exact absurd hk (Nat.not_lt.mpr hbuf)
  · have hclosed := hopen hrest
    rw [hcut] at hclosed
    exact hrest (List.append_eq_nil_iff.mp hclosed).1

/-- As long as there is a newline to come or a complete line in the buffer, a call returns the next
segment. -/
theorem Reads.next (S : Readable stream) (hr : Reads stream seen k cs es r)
    (hmore : ((cut 10 seen).2 = [] → r.buf = []) → 10 ∈ cs.flatten) :
    ∃ t r' seen' cs', r.readline = (.got t, r') ∧ ((segments 10 stream).map bare)[k]? = some t ∧
      Reads stream seen' (k + 1) cs' es r' := by
  by_cases hbuf : (cut 10 seen).2 = [] ∧ r.buf ≠ []
  · obtain ⟨t, r', hcall, ht, hr'⟩ := hr.buffered hbuf.1 hbuf.2
    exact ⟨t, r', seen, cs, hcall, ht, hr'⟩
  · have hneed : (cut 10 seen).2 = [] → r.buf = [] := fun hrest => by
      by_contra hne
      exact hbuf ⟨hrest, hne⟩
    obtain ⟨pre, c, cs', rfl, hpre, hc⟩ := exists_first_piece (hmore hneed)
    have hneed' : (cut 10 seen).2 ≠ [] ∨ r.buf = [] := by
      by_cases hrest : (cut 10 seen).2 = []
      · exact .inr (hneed hrest)
      · exact .inl hrest
    obtain ⟨t, r', hcall, ht, hr'⟩ := hr.newline S hpre hc hneed'
    exact ⟨t, r', _, cs', hcall, ht, hr'⟩

/-- From the `k`-th call on, a stream of complete lines is returned line by line. -/
theorem Reads.replies (S : Readable stream) (hclosed : (cut 10 stream).2 = [])
    (hr : Reads stream seen k cs es r) (hn : k + n = (cut 10 stream).1.length) :
    r.replies n = (((segments 10 stream).map bare).drop k).map .got := by
  induction n generalizing seen k cs r with
  | zero =>
    rw [List.drop_of_length_le (by rw [List.length_map, segments_closed hclosed]; omega)]
    rfl
  | succ n ih =>
    have hk : k < (cut 10 stream).1.length := by omega
    obtain ⟨t, r', seen', cs', hcall, ht, hr'⟩ :=
      hr.next S (fun hneed => hr.more hk hneed fun _ => hclosed)
    obtain ⟨hlt, hget⟩ := List.getElem?_eq_some_iff.mp ht
    rw [Reader.replies, hcall, List.drop_eq_getElem_cons hlt, hget, List.map_cons,
      ih hr' (by omega)]

theorem Chunking.reads {chunks : List Bytes} (hc : Chunking stream chunks) (es : List Event) :
    Reads stream [] 0 chunks es (.opened (chunks.map .data ++ es)) where
  stream := hc.flatten.symm
  chunks := hc.chunk
  events := rfl
  connected := rfl
  fragmented := rfl
  fragment := fun h => absurd rfl h
  returned := Nat.zero_le _
  buf := rfl

/-- The calls on a fresh socket return the lines of the stream, trimmed twice. -/
theorem readline_steady {chunks : List Bytes} {dests : List Str} {s : Sock} (S : Readable stream)
    (hnul : NulFree stream) (hclosed : (cut 10 stream).2 = []) (hc : Chunking stream chunks)
    (hs : Fresh s chunks) (hd : ∀ d ∈ dests, d.WF) (hn : dests.length = (cut 10 stream).1.length) :
    ∃ rs s', (attemptAll socketReadline dests).run s = .ok rs s' ∧
      rs.map (Option.map Str.text) = ((cut 10 stream).1.map bare).map some := by
  have hgood := (consistent_chunks hc.chunk (by rw [hc.flatten]; exact hnul) 0).good
  have hreads := hc.reads []
  rw [List.append_nil] at hreads
  rw [List.replicate_zero, List.append_nil] at hgood
  have hreplies := hreads.replies S hclosed (n := dests.length) (by omega)
  rw [List.drop_zero, segments_closed hclosed] at hreplies
  have hgot : ∀ x ∈ Reader.replies dests.length (.opened (chunks.map .data)),
      x = .failed ∨ ∃ t, x = .got t := by
    intro x hx
    rw [hreplies] at hx
    obtain ⟨t, -, rfl⟩ := List.mem_map.mp hx
    exact .inr ⟨t, rfl⟩
  obtain ⟨rs, s', hrun, hrs⟩ := attemptAll_matches hs.opened.rel hgood hd hgot
  refine ⟨rs, s', hrun, ?_⟩
  rw [hrs, hreplies, List.map_map]
  rfl

/-- The lines of a stream without their terminators. -/
def lines (stream : Bytes) : List Bytes := (cut 10 stream).1.map (trim 13)

/-- In a stream whose CRs all stand in front of a newline, a CR can only be the last byte of a line. -/
theorem guarded_line (hg : Guarded 13 10 stream) (hl : l ∈ (cut 10 stream).1) : Guarded 13 10 l := by
  have hcut := (cut_spec 10 stream).eq
  obtain ⟨a, b, hab⟩ := List.append_of_mem hl
  rw [hab] at hcut
  apply Guarded.piece (a.map (· ++ [10])).flatten (10 :: ((b.map (· ++ [10])).flatten ++ (cut 10 stream).2))
  rw [hcut] at hg
  simpa using hg

theorem steady_of_guarded (hg : ∀ l ∈ ls, Guarded 13 10 l) (hls : ∀ l ∈ ls, 10 ∉ l) : Steady ls where
  ends := by
    intro l hl hcr
    have hmem := List.dropLast_subset _ hl
    have hnot := (hg l hmem).not_mem_dropLast (hls l hmem)
    rw [trim] at hcr
    split at hcr
    · exact hnot (List.mem_of_getLast? hcr)
    · rename_i hne
      exact hne hcr
  early := by
    intro k l i _ hl _ hi
    have hmem := List.mem_of_getElem? hl
    obtain ⟨hlt, hi'⟩ := List.getElem?_eq_some_iff.mp hi
    have hdrop := List.drop_eq_getElem_cons hlt
    rw [hi'] at hdrop
    have hsplit : l = l.take i ++ 13 :: l.drop (i + 1) := by
      rw [← hdrop, List.take_append_drop]
    left
    rcases hg l hmem _ _ hsplit with hnil | hhead
    · rw [hdrop, hnil]
    · exact absurd (List.mem_of_mem_drop (List.mem_of_mem_head? hhead)) (hls l hmem)

/-- A stream of lines that are not too long for the string functions is read line by line, however
it is cut into chunks. -/
theorem readline_any_chunks {stream : Bytes} {chunks : List Bytes} {s : Sock} {dests : List Str}
    (hnul : NulFree stream) (hend : stream.getLast? = some 10)
    (hcr : ∀ i : Nat, stream[i]? = some 13 → stream[i + 1]? = some 10)
    (hshort : ∀ l ∈ (cut 10 stream).1, l.length + recvBufSize ≤ stringMax)
    (hc : Chunking stream chunks) (hs : Fresh s chunks) (hd : ∀ d ∈ dests, d.WF)
    (hn : dests.length = (lines stream).length) :
    ∃ rs s', (attemptAll socketReadline dests).run s = .ok rs s' ∧
      rs.map (Option.map Str.text) = (lines stream).map some := by
  have hguarded : Guarded 13 10 stream := by
    rintro a b rfl
    have hnext := hcr a.length (by simp)
    have hskip : (a ++ 13 :: b)[a.length + 1]? = b.head? := by
      rw [List.getElem?_append_right (Nat.le_add_right _ _), Nat.add_sub_cancel_left,
        List.getElem?_cons_succ, ← List.head?_eq_getElem?]
    rw [hskip] at hnext
    exact Or.inr hnext
  have hclosed := (cut_spec 10 stream).rest_eq_nil_iff.mpr (Or.inr hend)
  have hline : ∀ l ∈ (cut 10 stream).1, Guarded 13 10 l := fun l hl => guarded_line hguarded hl
  have S : Readable stream := by
    constructor
    · rw [segments_closed hclosed]
      exact steady_of_guarded hline (cut_spec 10 stream).line
    · rw [segments_closed hclosed]
      exact hshort
  rw [lines, List.length_map] at hn
  obtain ⟨rs, s', hrun, hrs⟩ := readline_steady S hnul hclosed hc hs hd hn
  refine ⟨rs, s', hrun, ?_⟩
  rw [hrs, lines]
  refine congrArg (List.map some) (List.map_congr_left ?_)
  intro l hl
  exact trim_trim (hline l hl) ((cut_spec 10 stream).line l hl)

/-- The lines `a` and `b` in three chunks, cut between CR and LF and within the second line. -/
theorem readline_any_chunks_ab :
    ∃ rs s', (attemptAll socketReadline [(ofText []).1, (ofText []).1]).run
        (freshSock [[97, 13], [10, 98], [10]]) = .ok rs s' ∧
      rs.map (Option.map Str.text) = [some [97], some [98]] := by
  have hshort : ∀ l ∈ (cut 10 ([97, 13, 10, 98, 10] : Bytes)).1,
      l.length + recvBufSize ≤ stringMax := by
    decide
  have hcr : ∀ i : Nat, ([97, 13, 10, 98, 10] : Bytes)[i]? = some 13 →
      ([97, 13, 10, 98, 10] : Bytes)[i + 1]? = some 10 := by
    intro i hi
    obtain ⟨hlt, -⟩ := List.getElem?_eq_some_iff.mp hi
    have hall : ∀ i < 5, ([97, 13, 10, 98, 10] : Bytes)[i]? = some 13 →
        ([97, 13, 10, 98, 10] : Bytes)[i + 1]? = some 10 := by
      decide
    exact hall i hlt hi
  have hnul : NulFree ([97, 13, 10, 98, 10] : Bytes) := by decide
  exact readline_any_chunks hnul rfl hcr hshort ⟨rfl, by simp [Chunk, recvBufSize]⟩
    (fresh_freshSock _) (by simp [(ofText []).2]) rfl

/-- A fresh socket gets an error when the line overflows while it is being read. -/
theorem readline_overflow {cs : List Bytes} {c : Bytes} {s : Sock} (hs : Fresh s (cs ++ [c]))
    (hcs : ∀ d ∈ cs, Chunk d) (hc : Chunk c) (hn : NulFree (cs.flatten ++ c)) (hlf : 10 ∉ cs.flatten)
    (hfit : cs.flatten.length < stringMax) (hover : stringMax ≤ cs.flatten.length + c.length)
    {dest : Str} (hd : dest.WF) : ∃ s', (socketReadline dest).run s = .thrown s' := by
  have hall : ∀ d ∈ cs ++ [c], Chunk d := by
    intro d hd
    rcases List.mem_append.mp hd with hd | hd
    · exact hcs d hd
    · rw [List.mem_singleton.mp hd]
      exact hc
  have hgood := (consistent_chunks hall (by simpa using hn) 0).good
  rw [List.replicate_zero, List.append_nil] at hgood
  have hmatch := (readline_matches hs.opened.rel hgood hd).2
  have hgather : gather true [] ((cs ++ [c]).map .data) = (.refused, true, []) := by
    rw [List.map_append, gather_chunks hcs (by simpa using hlf) (by rw [List.nil_append]; exact hfit),
      List.nil_append, List.map_cons, gather, if_neg hc.1, if_pos hover]
    rfl
  have hreply : (Reader.opened ((cs ++ [c]).map .data)).readline.1 = .failed := by
    rw [Reader.readline, if_neg (by simp [Reader.opened]), Reader.opened]
    dsimp only
    rw [hgather]
  rw [hreply] at hmatch
  cases hrun : (socketReadline dest).run s with
  | ok d t =>
    rw [hrun] at hmatch
    rcases hmatch.1 with ⟨t, ht, -⟩ | ⟨ht, -⟩ <;> cases ht
  | thrown t => exact ⟨t, rfl⟩
  | halt e =>
    rw [hrun] at hmatch
    cases hmatch.1

/-- The second chunk of the stream below: the newline of the first line and all of the second. -/
def nextLine (m : Nat) : Bytes := 10 :: List.replicate m 98 ++ [10]

/-- A line of `n` bytes that come one by one, and a second line. -/
def longChunks (n m : Nat) : List Bytes := List.replicate n [97] ++ [nextLine m]

theorem mem_longChunks {n m : Nat} {b : UInt8} (hb : b ∈ (longChunks n m).flatten) :
    b = 97 ∨ b = 10 ∨ b = 98 := by
  simp only [longChunks, nextLine, List.flatten_append, List.mem_append, List.mem_flatten,
    List.mem_replicate, List.mem_cons] at hb
  rcases hb with ⟨l, ⟨-, rfl⟩, h⟩ | ⟨l, rfl | h, hb⟩
  · exact Or.inl (List.mem_singleton.mp h)
  · simp only [List.mem_append, List.mem_cons, List.mem_replicate, List.not_mem_nil, or_false] at hb
    tauto
  · simp at h

/-- The first call gives up on a line that is one byte longer than what is allowed above. -/
theorem readline_refuses_long_line :
    ¬ ∀ (stream : Bytes) (chunks : List Bytes) (s : Sock) (dests : List Str),
      NulFree stream → stream.getLast? = some 10 →
      (∀ i : Nat, stream[i]? = some 13 → stream[i + 1]? = some 10) →
      Chunking stream chunks → Fresh s chunks → (∀ d ∈ dests, d.WF) →
      dests.length = (lines stream).length →
      ∃ rs s', (attemptAll socketReadline dests).run s = .ok rs s' ∧
        rs.map (Option.map Str.text) = (lines stream).map some := by
  intro hall
  obtain ⟨n, hn⟩ : ∃ n, n + recvBufSize = stringMax + 1 :=
    ⟨_, Nat.sub_add_cancel (by decide)⟩
  obtain ⟨m, hm⟩ : ∃ m, m + 3 = recvBufSize := ⟨_, Nat.sub_add_cancel (by decide)⟩
  have hfirst : (List.replicate n [(97 : UInt8)]).flatten.length = n := by simp
  have hnext : (nextLine m).length + 1 = recvBufSize := by simp [nextLine, ← hm]
  have hchunk : Chunk (nextLine m) := ⟨by simp [nextLine], by omega⟩
  have hone : ∀ c ∈ List.replicate n [(97 : UInt8)], Chunk c := by
    intro c hc
    rw [(List.mem_replicate.mp hc).2]
    exact ⟨by simp, by simp [recvBufSize]⟩
  have hnul : NulFree (longChunks n m).flatten := by
    intro h0
    rcases mem_longChunks h0 with h | h | h <;> exact absurd h (by decide)
  have hcr : ∀ i : Nat, (longChunks n m).flatten[i]? = some 13 →
      (longChunks n m).flatten[i + 1]? = some 10 := by
    intro i hi
    rcases mem_longChunks (List.mem_of_getElem? hi) with h | h | h <;> exact absurd h (by decide)
  have hchunks : ∀ c ∈ longChunks n m, Chunk c := by
    intro c hc
    rcases List.mem_append.mp hc with hc | hc
    · exact hone c hc
    · rw [List.mem_singleton.mp hc]
      exact hchunk
  have hdests : ∀ d ∈ List.replicate (lines (longChunks n m).flatten).length (ofText []).1, d.WF := by
    intro d hd
    rw [(List.mem_replicate.mp hd).2]
    exact (ofText []).2
  obtain ⟨rs, s', hrun, hrs⟩ := hall (longChunks n m).flatten (longChunks n m)
    (freshSock (longChunks n m)) _ hnul (by simp [longChunks, nextLine, List.getLast?_cons]) hcr
    ⟨rfl, hchunks⟩ (fresh_freshSock _) hdests List.length_replicate
  have hlf : (10 : UInt8) ∉ (List.replicate n [(97 : UInt8)]).flatten := by simp
  obtain ⟨t, hthrown⟩ := readline_overflow (fresh_freshSock (longChunks n m)) hone hchunk
    (by simpa [longChunks] using hnul) hlf (by omega) (by omega) (ofText []).2
  have hlines : lines (longChunks n m).flatten ≠ [] := by
    have hmem : (10 : UInt8) ∈ (longChunks n m).flatten := by simp [longChunks, nextLine]
    simpa [lines] using (cut_spec 10 _).mem_iff.mp hmem
  obtain ⟨l, ls, hl⟩ := List.exists_cons_of_ne_nil hlines
  rw [hl] at hrun hrs
  rw [List.length_cons, List.replicate_succ, attemptAll, run_bind_ok (run_attempt_thrown hthrown),
    run_bind] at hrun
  split at hrun
  · cases hrun
    simp at hrs
  · cases hrun
  · cases hrun

end NcSocket
