import NaturalC.NcSocketChunks

/-!
# Where a chunk must not end

The streams whose lines do not depend on the chunks are exactly the steady ones. If a line is
not steady, there is a chunk that shows it: one that begins with the newline in front of the
line and ends behind the CR, or one that takes the newline behind the line together with the
next byte. Every other byte may come in a chunk of its own.
-/
namespace NcSocket

open Throwing Throwing.Act NcString NcList NcSplit Linked Lines

/-- Every byte in a chunk of its own. -/
def singles (t : Bytes) : List Bytes := t.map fun b => [b]

variable {stream l p q t : Bytes} {ls : List Bytes} {es : List Event} {n : Nat}

@[simp] theorem flatten_singles (t : Bytes) : (singles t).flatten = t := by
  induction t with
  | nil => rfl
  | cons b t ih =>
    change [b] ++ (singles t).flatten = b :: t
    rw [ih]
    rfl

theorem chunk_singles {c : Bytes} (hc : c ∈ singles t) : Chunk c := by
  obtain ⟨b, -, rfl⟩ := List.mem_map.mp hc
  exact ⟨by simp, by simp [recvBufSize]⟩

/-- The reply when a line is read byte by byte, up to a chunk with a newline. -/
theorem readline_after_singles (es : List Event) {c : Bytes} (hl : 10 ∉ l) (hc : 10 ∈ c)
    (hmax : l.length + c.length < stringMax) :
    (Reader.opened ((singles l).map .data ++ .data c :: es)).readline =
      (.got ((pieces 10 (l ++ c)).head?.getD []),
        ⟨(pieces 10 (l ++ c)).tail, decide ((l ++ c).getLast? ≠ some 10), true, es⟩) := by
  have hgather := gather_newline (singles l) (fun d hd => chunk_singles hd) (by simpa using hl) hc
    (by rw [flatten_singles]; exact hmax) es
  rw [flatten_singles] at hgather
  rw [Reader.readline, if_neg (by simp [Reader.opened]), Reader.opened]
  dsimp only
  rw [hgather]
  dsimp only
  rw [Reader.accept, if_neg (by simp [Reader.overlong])]
  rfl

theorem segments_line (hl : 10 ∉ l) (t : Bytes) : segments 10 (l ++ 10 :: t) = l :: segments 10 t := by
  rw [segments, cut_line hl, segments]
  rfl

theorem segments_rest (hl : 10 ∉ l) (hne : l ≠ []) : segments 10 l = [l] := by
  rw [segments, cut_unfinished hl, if_neg hne]
  rfl

/-- A line that is read byte by byte is trimmed twice, and nothing stays behind. -/
theorem readline_singles (hl : 10 ∉ l) (hmax : l.length + 1 < stringMax) :
    (Reader.opened ((singles (l ++ [10])).map .data ++ es)).readline = (.got (bare l), .opened es) := by
  have hseg : segments 10 (l ++ [10]) = [] ++ [l] := segments_line hl []
  have hcall := readline_after_singles es (c := [10]) hl (by simp) hmax
  rw [pieces_segments _ hseg] at hcall
  have hsingles : (singles (l ++ [10])).map Event.data ++ es = (singles l).map .data ++ .data [10] :: es := by
    simp [singles]
  rw [hsingles, hcall]
  simp [Reader.opened, bare]

/-- The bytes of these lines with their newlines. -/
def joined (ls : List Bytes) : Bytes := (ls.map (· ++ [10])).flatten

theorem replies_singles (hls : ∀ l ∈ ls, 10 ∉ l) (hmax : ∀ l ∈ ls, l.length + 1 < stringMax) :
    (Reader.opened ((singles (joined ls)).map .data ++ es)).replies (ls.length + n) =
      (ls.map bare).map .got ++ (Reader.opened es).replies n := by
  induction ls with
  | nil => simp [joined, singles]
  | cons l ls ih =>
    have hsplit : (singles (joined (l :: ls))).map Event.data ++ es =
        (singles (l ++ [10])).map .data ++ ((singles (joined ls)).map .data ++ es) := by
      simp [singles, joined]
    rw [hsplit, List.length_cons, Nat.add_right_comm, Reader.replies,
      readline_singles (hls l (by simp)) (hmax l (by simp)),
      ih (fun m hm => hls m (List.mem_cons_of_mem _ hm)) (fun m hm => hmax m (List.mem_cons_of_mem _ hm))]
    rfl

/-- The newline behind a line comes together with the next byte: the line is trimmed once. -/
theorem reply_pair (hl : 10 ∉ l) (hmax : l.length + 2 < stringMax) (b : UInt8) :
    (Reader.opened ((singles l).map .data ++ .data [10, b] :: es)).readline.1 = .got (trim 13 l) := by
  have hseg : ∃ x, segments 10 (l ++ [10, b]) = [l] ++ [x] := by
    rw [segments_line hl]
    by_cases hb : b = 10
    · exact ⟨[], by rw [hb]; rfl⟩
    · exact ⟨[b], by rw [segments_rest (by simpa using Ne.symm hb) (by simp)]; rfl⟩
  obtain ⟨x, hx⟩ := hseg
  rw [readline_after_singles _ hl (by simp) (by simpa using hmax), pieces_segments _ hx]
  rfl

/-- A fragment is continued by a line that is read byte by byte. -/
theorem readline_continued (es : List Event) (hq : 10 ∉ q) (hpq : p.length + q.length + 1 < stringMax) :
    (Reader.mk [bare p] true true ((singles q).map .data ++ .data [10] :: es)).readline.1 =
      .got (bare p ++ bare q) := by
  have hseg : segments 10 (q ++ [10]) = [] ++ [q] := segments_line hq []
  have hpieces : pieces 10 (q ++ [10]) = [bare q] := pieces_segments [] hseg
  have hgather := gather_newline (singles q) (c := [10]) (fun d hd => chunk_singles hd)
    (by simpa using hq) (by simp) (by rw [flatten_singles, List.length_singleton]; omega) es
  rw [flatten_singles] at hgather
  have hfit : ¬ (Reader.mk [bare p] true true ((singles q).map .data ++ .data [10] :: es)).overlong
      (q ++ [10]) := by
    rintro ⟨-, hlong⟩
    have hlen := length_bare_le p
    have hlen' := length_bare_le q
    rw [hpieces] at hlong
    change stringMax ≤ (bare p).length + (bare q).length at hlong
    omega
  rw [Reader.readline, if_neg (by simp)]
  dsimp only
  rw [hgather]
  dsimp only
  rw [Reader.accept, if_neg hfit, hpieces]
  rfl

/-- A chunk ends within a line: its two parts are trimmed one by one. -/
theorem replies_split {l : Bytes} (hl : 10 ∉ l) (hp : 10 ∉ p) (hne : p ≠ []) (hq : 10 ∉ q)
    (hl' : l.length + (10 :: p).length < stringMax) (hpq : p.length + q.length + 1 < stringMax) :
    (Reader.opened ((singles l).map .data ++ .data (10 :: p) :: ((singles q).map .data ++
      .data [10] :: es))).replies 2 = [.got (trim 13 l), .got (bare p ++ bare q)] := by
  have hseg : segments 10 (l ++ 10 :: p) = [l] ++ [p] := by
    rw [segments_line hl, segments_rest hp hne]
    rfl
  have hlast : (l ++ 10 :: p).getLast? ≠ some 10 := by
    intro hc
    have hrest := (cut_spec 10 (l ++ 10 :: p)).rest_eq_nil_iff.mpr (.inr hc)
    rw [cut_line hl, cut_unfinished hp] at hrest
    exact hne hrest
  rw [Reader.replies, Reader.replies, Reader.replies, readline_after_singles _ hl (by simp) hl',
    pieces_segments _ hseg]
  dsimp only
  rw [decide_eq_true hlast]
  have hsecond := readline_continued es hq hpq
  exact congrArg (fun x => [.got (trim 13 l), x]) hsecond

/-! ## What agreement on all chunks says about the lines -/

/-- However the stream is cut into chunks, the calls return the same lines. -/
def ChunksAgree (stream : Bytes) : Prop :=
  ∀ (chunks chunks' : List Bytes) (s s' : Sock) (dests dests' : List Str),
    Chunking stream chunks → Chunking stream chunks' → Fresh s chunks → Fresh s' chunks' →
    (∀ d ∈ dests, d.WF) → (∀ d ∈ dests', d.WF) → dests.length = (lines stream).length →
    dests'.length = (lines stream).length →
    ∃ rs t rs' t', (attemptAll socketReadline dests).run s = .ok rs t ∧
      (attemptAll socketReadline dests').run s' = .ok rs' t' ∧
      rs.map (Option.map Str.text) = rs'.map (Option.map Str.text)

/-- What the first calls of a run return, when the reader has lines for them. -/
theorem first_results {chunks : List Bytes} {s : Sock} {k m : Nat} {ts : List Bytes}
    (hnul : NulFree stream) (hc : Chunking stream chunks) (hs : Fresh s chunks)
    (hts : (Reader.opened (chunks.map .data)).replies k = ts.map .got) {rs : List (Option Str)} {t : Sock}
    (hrun : (attemptAll socketReadline (List.replicate (k + m) (ofText []).1)).run s = .ok rs t) :
    (rs.map (Option.map Str.text)).take k = ts.map some := by
  have hgood := (consistent_chunks hc.chunk (by rw [hc.flatten]; exact hnul) 0).good
  rw [List.replicate_zero, List.append_nil] at hgood
  have hwf : ∀ d ∈ List.replicate k (ofText []).1, d.WF := by
    intro d hd
    rw [(List.mem_replicate.mp hd).2]
    exact (ofText []).2
  have hgot : ∀ x ∈ Reader.replies (List.replicate k (ofText []).1).length (.opened (chunks.map .data)),
      x = .failed ∨ ∃ t, x = .got t := by
    intro x hx
    rw [List.length_replicate, hts] at hx
    obtain ⟨y, -, rfl⟩ := List.mem_map.mp hx
    exact .inr ⟨y, rfl⟩
  obtain ⟨qs, v, hqs, hmap⟩ := attemptAll_matches hs.opened.rel hgood hwf hgot
  rw [List.replicate_add] at hrun
  obtain ⟨qs', w, hqs', hq⟩ := run_attemptAll_prefix hrun
  rw [hqs] at hqs'
  cases hqs'
  rw [List.length_replicate] at hq hmap
  rw [← List.map_take, ← hq, hmap, hts, List.map_map]
  rfl

/-- Two ways of cutting the stream give the same first lines. -/
theorem ChunksAgree.first_lines (h : ChunksAgree stream) (hnul : NulFree stream)
    {chunks chunks' : List Bytes} {k : Nat} {ts ts' : List Bytes} (hk : k ≤ (lines stream).length)
    (hc : Chunking stream chunks) (hc' : Chunking stream chunks')
    (hts : (Reader.opened (chunks.map .data)).replies k = ts.map .got)
    (hts' : (Reader.opened (chunks'.map .data)).replies k = ts'.map .got) : ts = ts' := by
  obtain ⟨m, hm⟩ := Nat.exists_eq_add_of_le hk
  have hwf : ∀ d ∈ List.replicate (k + m) (ofText []).1, d.WF := by
    intro d hd
    rw [(List.mem_replicate.mp hd).2]
    exact (ofText []).2
  have hlen : (List.replicate (k + m) (ofText []).1).length = (lines stream).length := by
    rw [List.length_replicate, hm]
  obtain ⟨rs, t, rs', t', hrun, hrun', hsame⟩ := h chunks chunks' (freshSock chunks) (freshSock chunks')
    _ _ hc hc' (fresh_freshSock _) (fresh_freshSock _) hwf hwf hlen hlen
  have hfirst := first_results hnul hc (fresh_freshSock _) hts hrun
  have hfirst' := first_results hnul hc' (fresh_freshSock _) hts' hrun'
  rw [hsame, hfirst'] at hfirst
  exact (List.map_injective_iff.mpr (fun _ _ => Option.some.inj) hfirst).symm

/-- What is in front of two bytes or of anything but a CR is not touched. -/
theorem bare_behind (p : Bytes) {q : Bytes} (hq : q ≠ []) (hcr : q ≠ [13]) : bare (p ++ q) = p ++ bare q := by
  obtain ⟨z, c, rfl⟩ := (List.eq_nil_or_concat q).resolve_left hq
  rw [List.concat_eq_append] at hcr ⊢
  have hbehind : ∀ w : Bytes, w ≠ [] → trim 13 (p ++ w) = p ++ trim 13 w := by
    intro w hw
    by_cases hlast : w.getLast? = some 13
    · have hlast' : (p ++ w).getLast? = some 13 := by rw [List.getLast?_append_of_ne_nil _ hw, hlast]
      rw [trim, if_pos hlast', trim, if_pos hlast, List.dropLast_append_of_ne_nil hw]
    · have hlast' : (p ++ w).getLast? ≠ some 13 := by rwa [List.getLast?_append_of_ne_nil _ hw]
      rw [trim_of_ne hlast', trim_of_ne hlast]
  have htrim : trim 13 (z ++ [c]) ≠ [] := by
    by_cases hc : c = 13
    · subst hc
      rw [trim_concat]
      rintro rfl
      exact hcr rfl
    · rw [trim_of_ne (by simpa using hc)]
      simp
  rw [bare, hbehind _ (by simp), hbehind _ htrim, bare]

/-- What is lost of a fragment that ends in a CR is not made up for, except by one CR behind it. -/
theorem rest_of_join (hp : p.getLast? = some 13) (hq : q ≠ []) (h : bare p ++ bare q = bare (p ++ q)) :
    q = [13] := by
  by_contra hcr
  rw [bare_behind p hq hcr] at h
  have hsame : bare p = p := List.append_cancel_right h
  have hlen := congrArg List.length hsame
  have htrim := length_trim_lt hp
  have hle : (trim 13 (trim 13 p)).length ≤ (trim 13 p).length := length_trim_le _
  rw [bare] at hlen
  omega

theorem fits_of_short {x : Bytes} (h : x.length + recvBufSize ≤ stringMax) : x.length + 1 < stringMax := by
  have hM : 3 ≤ recvBufSize := by decide
  omega

/-- A line is read byte by byte in one run and as a part of this chunking in the other. -/
theorem ChunksAgree.ends (h : ChunksAgree stream) (hnul : NulFree stream)
    (hshort : ∀ l ∈ (cut 10 stream).1, l.length + recvBufSize ≤ stringMax) {a b : List Bytes} {m : Bytes}
    (hcut : Cut 10 stream (a ++ l :: m :: b) []) : (trim 13 l).getLast? ≠ some 13 := by
  have hlines : (cut 10 stream).1 = a ++ l :: m :: b := by rw [hcut.eq_cut]
  rw [hlines] at hshort
  have hM : 3 ≤ recvBufSize := by decide
  have hline : ∀ x ∈ a, 10 ∉ x := fun x hx => hcut.line x (by simp [hx])
  have hmax : ∀ x ∈ a, x.length + 1 < stringMax := fun x hx => fits_of_short (hshort x (by simp [hx]))
  have hl : 10 ∉ l := hcut.line l (by simp)
  have hl' := hshort l (by simp)
  obtain ⟨c, cs, hc⟩ := List.exists_cons_of_ne_nil (show m ++ [10] ++ joined b ≠ [] by simp)
  have hstream : stream = joined a ++ (l ++ 10 :: c :: cs) := by
    rw [← hc, hcut.eq]
    simp [joined]
  -- The newline of `l` comes with the byte behind it.
  have hchunks : Chunking stream (singles (joined a) ++ (singles l ++ [10, c] :: singles cs)) := by
    constructor
    · simp [hstream]
    · intro d hd
      simp only [List.mem_append, List.mem_cons] at hd
      rcases hd with hd | hd | rfl | hd
      · exact chunk_singles hd
      · exact chunk_singles hd
      · exact ⟨by simp, by simp [recvBufSize]⟩
      · exact chunk_singles hd
  have hsingles : Chunking stream (singles stream) := ⟨flatten_singles _, fun d hd => chunk_singles hd⟩
  have hreplies : (Reader.opened ((singles (joined a) ++ (singles l ++ [10, c] :: singles cs)).map
      .data)).replies (a.length + 1) = (a.map bare ++ [trim 13 l]).map .got := by
    rw [List.map_append, replies_singles hline hmax, List.map_append, List.map_cons, Reader.replies,
      reply_pair hl (by omega), Reader.replies, List.map_append]
    rfl
  have hreplies' : (Reader.opened ((singles stream).map .data)).replies (a.length + 1) =
      (a.map bare ++ [bare l]).map .got := by
    have hsplit : (singles stream).map Event.data = (singles (joined a)).map .data ++
        ((singles (l ++ [10])).map .data ++ (singles (c :: cs)).map .data) := by
      simp [hstream, singles]
    rw [hsplit, replies_singles hline hmax, Reader.replies, readline_singles hl (by omega),
      Reader.replies, List.map_append]
    rfl
  have hk : a.length + 1 ≤ (lines stream).length := by
    rw [lines, hlines, List.length_map, List.length_append, List.length_cons]
    omega
  have hsame := h.first_lines hnul hk hchunks hsingles hreplies hreplies'
  have heq : trim 13 l = bare l := by simpa using hsame
  intro hcr
  exact Nat.ne_of_lt (length_trim_lt hcr) (congrArg List.length heq).symm

/-- A chunk that ends behind an early CR shows when something follows the CR. -/
theorem ChunksAgree.behind_cr (h : ChunksAgree stream) (hnul : NulFree stream)
    (hshort : ∀ l ∈ (cut 10 stream).1, l.length + recvBufSize ≤ stringMax) {a b : List Bytes} {m : Bytes}
    (hcut : Cut 10 stream (a ++ m :: (p ++ q) :: b) []) (hp : p.length ≤ recvBufSize - 2)
    (hcr : p.getLast? = some 13) : q = [] ∨ q = [13] := by
  have hlines : (cut 10 stream).1 = a ++ m :: (p ++ q) :: b := by rw [hcut.eq_cut]
  rw [hlines] at hshort
  have hM : recvBufSize = 16384 := by decide
  have hline : ∀ x ∈ a, 10 ∉ x := fun x hx => hcut.line x (by simp [hx])
  have hmax : ∀ x ∈ a, x.length + 1 < stringMax := fun x hx => fits_of_short (hshort x (by simp [hx]))
  have hm : 10 ∉ m := hcut.line m (by simp)
  have hm' := hshort m (by simp)
  have hpq : 10 ∉ p ++ q := hcut.line (p ++ q) (by simp)
  have hpq' := hshort (p ++ q) (by simp)
  rw [List.length_append] at hpq'
  have hne : p ≠ [] := by
    rintro rfl
    simp at hcr
  have hp10 : 10 ∉ p := fun hx => hpq (List.mem_append_left _ hx)
  have hq10 : 10 ∉ q := fun hx => hpq (List.mem_append_right _ hx)
  have hstream : stream = joined a ++ (m ++ 10 :: (p ++ (q ++ 10 :: joined b))) := by
    rw [hcut.eq]
    simp [joined]
  have hchunks : Chunking stream
      (singles (joined a) ++ (singles m ++ (10 :: p) :: (singles q ++ [10] :: singles (joined b)))) := by
    constructor
    · simp [hstream]
    · intro d hd
      simp only [List.mem_append, List.mem_cons] at hd
      rcases hd with hd | hd | rfl | hd | rfl | hd
      · exact chunk_singles hd
      · exact chunk_singles hd
      · exact ⟨by simp, by rw [List.length_cons]; omega⟩
      · exact chunk_singles hd
      · exact ⟨by simp, by simp [recvBufSize]⟩
      · exact chunk_singles hd
  have hsingles : Chunking stream (singles stream) := ⟨flatten_singles _, fun d hd => chunk_singles hd⟩
  have hreplies : (Reader.opened ((singles (joined a) ++ (singles m ++ (10 :: p) :: (singles q ++
      [10] :: singles (joined b)))).map .data)).replies (a.length + 2) =
      (a.map bare ++ [trim 13 m, bare p ++ bare q]).map .got := by
    rw [List.map_append, replies_singles hline hmax, List.map_append, List.map_cons, List.map_append,
      List.map_cons, replies_split hm hp10 hne hq10 (by rw [List.length_cons]; omega) (by omega),
      List.map_append]
    rfl
  have hreplies' : (Reader.opened ((singles stream).map .data)).replies (a.length + 2) =
      (a.map bare ++ [bare m, bare (p ++ q)]).map .got := by
    have hsplit : (singles stream).map Event.data = (singles (joined a)).map .data ++
        ((singles (m ++ [10])).map .data ++ ((singles (p ++ q ++ [10])).map .data ++
          (singles (joined b)).map .data)) := by
      simp [hstream, singles]
    rw [hsplit, replies_singles hline hmax, Reader.replies, readline_singles hm (by omega),
      Reader.replies, readline_singles hpq (by rw [List.length_append]; omega), Reader.replies,
      List.map_append]
    rfl
  have hk : a.length + 2 ≤ (lines stream).length := by
    rw [lines, hlines, List.length_map, List.length_append, List.length_cons, List.length_cons]
    omega
  have hsame := h.first_lines hnul hk hchunks hsingles hreplies hreplies'
  have hjoin : bare p ++ bare q = bare (p ++ q) := by
    have h := List.append_cancel_left hsame
    simp only [List.cons.injEq, and_true] at h
    exact h.2
  by_cases hq : q = []
  · exact .inl hq
  · exact .inr (rest_of_join hcr hq hjoin)

/-- If the chunks make no difference, then the lines are steady. -/
theorem ChunksAgree.steady (h : ChunksAgree stream) (hnul : NulFree stream)
    (hclosed : (cut 10 stream).2 = [])
    (hshort : ∀ l ∈ (cut 10 stream).1, l.length + recvBufSize ≤ stringMax) :
    Steady (cut 10 stream).1 := by
  have hcut := cut_spec 10 stream
  rw [hclosed] at hcut
  have hends : ∀ l ∈ (cut 10 stream).1.dropLast, (trim 13 l).getLast? ≠ some 13 := by
    intro l hl
    obtain ⟨a, b, hab⟩ := List.append_of_mem hl
    obtain ⟨init, x, hx⟩ := (List.eq_nil_or_concat (cut 10 stream).1).resolve_left
      (by intro hnil; rw [hnil] at hl; simp at hl)
    rw [List.concat_eq_append] at hx
    rw [hx, List.dropLast_concat] at hab
    rw [hx, hab] at hcut
    obtain ⟨m, ms, hm⟩ := List.exists_cons_of_ne_nil (show b ++ [x] ≠ [] by simp)
    rw [List.append_assoc, List.cons_append, hm] at hcut
    exact h.ends hnul hshort hcut
  refine ⟨hends, ?_⟩
  intro k l i hk hl hi hcr
  obtain ⟨hlt, hi'⟩ := List.getElem?_eq_some_iff.mp hcr
  obtain ⟨hlt', hl'⟩ := List.getElem?_eq_some_iff.mp hl
  have hdrop : l.drop i = 13 :: l.drop (i + 1) := by rw [List.drop_eq_getElem_cons hlt, hi']
  have htake : l.take (i + 1) = l.take i ++ [13] := by
    rw [← List.take_append_getElem hlt, hi']
  -- The line, the one in front of it, and the others.
  obtain ⟨k, rfl⟩ : ∃ j, k = j + 1 := ⟨k - 1, by omega⟩
  have hall : (cut 10 stream).1 = (cut 10 stream).1.take k ++ (cut 10 stream).1[k] ::
      (l.take (i + 1) ++ l.drop (i + 1)) :: (cut 10 stream).1.drop (k + 1 + 1) := by
    rw [List.take_append_drop]
    conv => lhs; rw [← List.take_append_drop k (cut 10 stream).1]
    rw [List.drop_eq_getElem_cons (by omega), List.drop_eq_getElem_cons hlt', hl']
  rw [hall] at hcut
  have hbehind := h.behind_cr hnul hshort hcut
    (by rw [List.length_take]; omega) (by rw [htake]; simp)
  rcases hbehind with hq | hq
  · exact .inl (by rw [hdrop, hq])
  · have htwo : l.drop i = [13, 13] := by rw [hdrop, hq]
    refine .inr ⟨?_, htwo⟩
    -- Two CRs at the end are only possible in the last line.
    by_contra hlast
    have hmem : l ∈ (cut 10 stream).1.dropLast := by
      rw [List.mem_iff_getElem?]
      refine ⟨k + 1, ?_⟩
      rw [List.getElem?_dropLast, if_pos (by omega)]
      exact hl
    apply hends l hmem
    rw [← List.take_append_drop i l, htwo, show ([13, 13] : Bytes) = [13] ++ [13] from rfl,
      ← List.append_assoc, trim_concat]
    simp

/-- Any two ways of cutting a stream into chunks give the same lines if and only if the lines are
steady. -/
theorem chunks_agree_iff_steady {stream : Bytes} (hnul : NulFree stream)
    (hend : stream.getLast? = some 10)
    (hshort : ∀ l ∈ (cut 10 stream).1, l.length + recvBufSize ≤ stringMax) :
    ChunksAgree stream ↔ Steady (cut 10 stream).1 := by
  have hclosed := (cut_spec 10 stream).rest_eq_nil_iff.mpr (Or.inr hend)
  refine ⟨fun h => h.steady hnul hclosed hshort, ?_⟩
  intro hsteady chunks chunks' s s' dests dests' hc hc' hs hs' hd hd' hn hn'
  have S : Readable stream := by
    constructor
    · rw [segments_closed hclosed]
      exact hsteady
    · rw [segments_closed hclosed]
      exact hshort
  rw [lines, List.length_map] at hn hn'
  obtain ⟨rs, t, hrun, hrs⟩ := readline_steady S hnul hclosed hc hs hd hn
  obtain ⟨rs', t', hrun', hrs'⟩ := readline_steady S hnul hclosed hc' hs' hd' hn'
  exact ⟨rs, t, rs', t', hrun, hrun', hrs.trans hrs'.symm⟩

/-- A CR in the first line does no harm, since that line is always read as a whole. -/
theorem chunks_agree_iff_steady_one :
    ChunksAgree [97, 13, 98, 10] := by
  have hshort : ∀ l ∈ (cut 10 ([97, 13, 98, 10] : Bytes)).1, l.length + recvBufSize ≤ stringMax := by
    decide
  have hnul : NulFree ([97, 13, 98, 10] : Bytes) := by decide
  refine (chunks_agree_iff_steady hnul rfl hshort).mpr ⟨by decide, ?_⟩
  intro k l i hk hl
  have hone : (cut 10 ([97, 13, 98, 10] : Bytes)).1[k]? = none :=
    List.getElem?_eq_none_iff.mpr (Nat.succ_le_of_lt hk)
  rw [hone] at hl
  cases hl

/-- In the second of these lines the CR is lost when the first chunk ends behind it. -/
theorem chunk_end_loses_cr :
    ¬ ∀ stream : Bytes, NulFree stream → stream.getLast? = some 10 →
      (∃ i : Nat, stream[i]? = some 13 ∧ stream[i + 1]? ≠ some 10) → ChunksAgree stream := by
  intro hall
  have hnul : NulFree ([120, 10, 97, 13, 98, 10] : Bytes) := by decide
  have hagree := hall [120, 10, 97, 13, 98, 10] hnul rfl ⟨3, rfl, by decide⟩
  have htwo : Chunking [120, 10, 97, 13, 98, 10] [[120, 10, 97, 13], [98, 10]] :=
    ⟨rfl, by simp [Chunk, recvBufSize]⟩
  have hone : Chunking [120, 10, 97, 13, 98, 10] [[120, 10, 97, 13, 98, 10]] :=
    ⟨rfl, by simp [Chunk, recvBufSize]⟩
  have hsame : ([[120], [97, 98]] : List Bytes) = [[120], [97, 13, 98]] :=
    hagree.first_lines (k := 2) hnul (by decide) htwo hone (by decide +kernel) (by decide +kernel)
  exact absurd hsame (by decide)

end NcSocket
