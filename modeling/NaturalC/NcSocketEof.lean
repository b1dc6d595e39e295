import NaturalC.NcSocketChunks

/-!
# Lines at the end of a stream

When the peer closes the connection behind an unfinished line, `socket_readline` fails as soon
as it has to read again, and it has to read again for every line as long as the last line in
the buffer is unfinished. The complete lines that wait in front of such a fragment are lost.
How many they are is decided by the chunks.
-/
namespace NcSocket

open Throwing Throwing.Act NcString NcList NcSplit Linked Lines

/-- How many complete lines wait in the buffer in front of a fragment, after one more chunk. Each
call takes one of them while it reads; when a chunk ends with a newline, the buffer is emptied
without reading. -/
def backlog (waiting : Nat) (c : Bytes) : Nat :=
  if 10 ∉ c then waiting else if c.getLast? = some 10 then 0 else waiting + c.count 10 - 1

/-- A last chunk without a newline gives one more line before the end is noticed. -/
def spare (chunks : List Bytes) : Nat := if 10 ∈ chunks.getLast?.getD [10] then 0 else 1

variable {stream seen : Bytes} {k m : Nat} {cs pre : List Bytes} {es : List Event} {r : Reader}

theorem foldl_backlog_none {b : Nat} (h : 10 ∉ pre.flatten) : pre.foldl backlog b = b := by
  induction pre generalizing b with
  | nil => rfl
  | cons c pre ih =>
    rw [List.flatten_cons, List.mem_append, not_or] at h
    rw [List.foldl_cons, backlog, if_pos h.1, ih h.2]

/-- How many lines wait when `k` have been returned. -/
def waiting (seen : Bytes) (k : Nat) : Nat :=
  if (cut 10 seen).2 = [] then 0 else (cut 10 seen).1.length - k

/-- Reading up to a chunk with a newline changes the number as `backlog` says. -/
theorem waiting_newline {c : Bytes} (hpre : 10 ∉ pre.flatten) (hc : 10 ∈ c)
    (hk : k ≤ (cut 10 seen).1.length) (hneed : (cut 10 seen).2 = [] → (cut 10 seen).1.length ≤ k) :
    waiting (seen ++ (pre.flatten ++ c)) (k + 1) = backlog (waiting seen k) c := by
  have hu : (10 : UInt8) ∈ pre.flatten ++ c := List.mem_append_right _ hc
  have hrest : (cut 10 (seen ++ (pre.flatten ++ c))).2 = (cut 10 c).2 := by
    rw [cut_append_rest hu, cut_append_rest hc]
  have hlast : (cut 10 c).2 = [] ↔ c.getLast? = some 10 := by
    rw [(cut_spec 10 c).rest_eq_nil_iff]
    simp [List.ne_nil_of_mem hc]
  have hcount : (cut 10 (seen ++ (pre.flatten ++ c))).1.length =
      (cut 10 seen).1.length + c.count 10 := by
    rw [length_cut, length_cut, List.count_append, List.count_append, List.count_eq_zero.mpr hpre]
    omega
  have hpos : 0 < c.count 10 := List.count_pos_iff.mpr hc
  rw [backlog, if_neg (not_not.mpr hc)]
  simp only [waiting, hrest, hlast, hcount]
  by_cases hend : c.getLast? = some 10
  · rw [if_pos hend, if_pos hend]
  · rw [if_neg hend, if_neg hend]
    by_cases hclosed : (cut 10 seen).2 = []
    · have hle := hneed hclosed
      rw [if_pos hclosed]
      omega
    · rw [if_neg hclosed]
      omega

/-- When the end of the stream is all that is left to read, a call that has to read fails. -/
theorem readline_end (buf : List Bytes) (fragmented connected : Bool)
    (hneed : fragmented = true ∨ buf = []) (m : Nat) :
    (Reader.mk buf fragmented connected (List.replicate (m + 1) (.data []))).readline =
      (.failed, ⟨buf, fragmented, false, List.replicate m (.data [])⟩) := by
  have hready : ¬ (buf ≠ [] ∧ fragmented = false) := by
    rintro ⟨hbuf, hfrag⟩
    rcases hneed with h | h
    · cases hfrag.symm.trans h
    · exact hbuf h
  rw [Reader.readline, if_neg hready]
  rfl

/-- Where a rest of the stream without a newline goes: it is the end of a segment, of which the buffer has
the start. -/
theorem Reads.merged (S : Readable stream) (hr : Reads stream seen k cs es r) (hlf : 10 ∉ cs.flatten)
    (hne : cs.flatten ≠ []) (hneed : (cut 10 seen).2 ≠ [] ∨ r.buf = []) :
    ∃ p, p ++ cs.flatten ∈ segments 10 stream ∧
      (r.fragmented = true → r.buf.getLast?.getD [] = bare p) ∧
      mergeTokens r.fragmented r.buf (pieces 10 cs.flatten) = ((segments 10 stream).map bare).drop k := by
  have hseg : segments 10 cs.flatten = [] ++ [cs.flatten] := by
    rw [segments, cut_unfinished hlf, if_neg hne]
  have hpieces : pieces 10 cs.flatten = [bare cs.flatten] := pieces_segments [] hseg
  by_cases hopen : (cut 10 seen).2 = []
  · have hbuf := hneed.resolve_left (fun h => h hopen)
    have hall := segments_append_closed hopen cs.flatten
    rw [← hr.stream, hseg] at hall
    have hlen : ((segments 10 seen).map bare).length = k := by
      have hle := hr.buf
      rw [hbuf] at hle
      have hle := List.drop_eq_nil_iff.mp hle.symm
      have hret := hr.returned
      rw [List.length_map, segments_closed hopen] at hle ⊢
      omega
    refine ⟨[], by rw [hall]; simp, ?_, ?_⟩
    · intro hfrag
      rw [hr.fragmented, hopen] at hfrag
      simp at hfrag
    · rw [hr.fragmented, hopen, mergeTokens, if_neg (by simp), hbuf, hpieces, hall, List.map_append,
        List.drop_left' hlen]
      rfl
  · obtain ⟨hlines, hshort⟩ := hr.fragment hopen
    have hall := segments_append_open hopen hseg
    rw [← hr.stream] at hall
    have hsteady := S.steady
    rw [hall] at hsteady
    have hjoin := (hsteady.join hlines hshort).1
    have hk' : k ≤ ((cut 10 seen).1.map bare).length := by
      rw [List.length_map]
      exact hr.returned
    have hbuf : r.buf = ((cut 10 seen).1.map bare).drop k ++ [bare (cut 10 seen).2] := by
      rw [hr.buf, segments_open hopen, List.map_append, List.drop_append_of_le_length hk']
      rfl
    refine ⟨(cut 10 seen).2, by rw [hall]; simp, fun _ => by rw [hbuf]; simp, ?_⟩
    rw [hr.fragmented, mergeTokens, if_pos (by simp [hopen]), hbuf, hpieces, hall, List.map_append,
      List.drop_append_of_le_length hk']
    simp [hjoin]

/-- The rest of the stream has no newline: one more call returns the next segment, and the call after
that fails. -/
theorem Reads.lastCall (S : Readable stream) (hr : Reads stream seen k cs (List.replicate m (.data [])) r)
    (hlf : 10 ∉ cs.flatten) (hne : cs.flatten ≠ []) (hm : 2 ≤ m)
    (hneed : (cut 10 seen).2 ≠ [] ∨ r.buf = []) :
    ∃ t, r.replies 2 = [.got t, .failed] ∧ ((segments 10 stream).map bare)[k]? = some t := by
  obtain ⟨m, rfl⟩ : ∃ n, m = n + 2 := ⟨m - 2, by omega⟩
  have hready := hr.not_ready hneed
  have hseg : segments 10 cs.flatten = [] ++ [cs.flatten] := by
    rw [segments, cut_unfinished hlf, if_neg hne]
  have hpieces : pieces 10 cs.flatten = [bare cs.flatten] := pieces_segments [] hseg
  obtain ⟨p, hmem, hlast, hmerge⟩ := hr.merged S hlf hne hneed
  have hshort := S.short _ hmem
  have hM : recvBufSize = 16384 := rfl
  rw [List.length_append] at hshort
  have hgather : gather r.connected [] r.events =
      (.line cs.flatten, false, List.replicate (m + 1) (.data [])) := by
    rw [hr.connected, hr.events, gather_chunks hr.chunks (by simpa using hlf)
      (by rw [List.nil_append]; omega), List.nil_append, List.replicate_succ, gather, if_pos rfl, atEnd,
      if_neg hne]
  have hfit : ¬ r.overlong cs.flatten := by
    rintro ⟨hfrag, hover⟩
    have hp := length_bare_le p
    have hx := length_bare_le cs.flatten
    rw [hlast hfrag, hpieces] at hover
    change stringMax ≤ (bare p).length + (bare cs.flatten).length at hover
    omega
  have hdrop : ((segments 10 stream).map bare).drop k ≠ [] := by
    rw [← hmerge, mergeTokens]
    split
    · simp
    · simp [hpieces]
  obtain ⟨t, ts, ht⟩ := List.exists_cons_of_ne_nil hdrop
  have hflag : decide (cs.flatten.getLast? ≠ some 10) = true :=
    decide_eq_true fun hc => hlf (List.mem_of_getLast? hc)
  refine ⟨t, ?_, ?_⟩
  · rw [Reader.replies, Reader.replies, Reader.replies, Reader.readline, if_neg hready, hgather]
    dsimp only
    rw [Reader.accept, if_neg hfit, hmerge, ht, hflag]
    have hfail := congrArg Prod.fst (readline_end ts true false (.inl rfl) m)
    exact congrArg (fun x => [.got t, x]) hfail
  · rw [← List.head?_drop, ht]
    rfl

/-- What has been seen has no more lines than the stream. -/
theorem Reads.lines_le (hr : Reads stream seen k cs es r) :
    (cut 10 seen).1.length ≤ (cut 10 stream).1.length := by
  rw [length_cut, length_cut, hr.stream, List.count_append]
  exact Nat.le_add_right _ _

/-- All lines have been returned when nothing is left in the buffer. -/
theorem Reads.all_returned (hr : Reads stream seen k cs es r) (hneed : (cut 10 seen).2 ≠ [] ∨ r.buf = [])
    (h : (cut 10 seen).2 = []) : (cut 10 seen).1.length ≤ k := by
  have hnil := hneed.resolve_left (fun hne => hne h)
  rw [hr.buf, List.drop_eq_nil_iff, List.length_map, segments_closed h] at hnil
  exact hnil

/-- No newline is left: there is at most one more call that returns something. -/
theorem Reads.untilEnd_last (S : Readable stream) (hrest : (cut 10 stream).2 ≠ []) (hm : 2 ≤ m)
    (hr : Reads stream seen k cs (List.replicate m (.data [])) r)
    (hneed : (cut 10 seen).2 ≠ [] ∨ r.buf = []) (hlf : 10 ∉ cs.flatten) :
    ∃ n, r.replies (n + 1) = ((((segments 10 stream).map bare).drop k).take n).map .got ++ [.failed] ∧
      k + n ≤ (segments 10 stream).length ∧
      k + n + cs.foldl backlog (waiting seen k) = (cut 10 stream).1.length + spare cs := by
  have hsegs : (segments 10 stream).length = (cut 10 stream).1.length + 1 := by
    rw [segments_open hrest, List.length_append, List.length_singleton]
  have hret := hr.returned
  have hcut := ((cut_spec 10 seen).append_unfinished hlf).eq_cut
  rw [← hr.stream] at hcut
  have hlines : (cut 10 stream).1.length = (cut 10 seen).1.length := by rw [hcut]
  rw [foldl_backlog_none hlf]
  by_cases hne : cs.flatten = []
  · have hcs : cs = [] := by
      rcases List.eq_nil_or_concat cs with h | ⟨ds, d, rfl⟩
      · exact h
      · have hd' := (hr.chunks d (by simp)).1
        simp [hd'] at hne
    subst hcs
    have hopen : (cut 10 seen).2 ≠ [] := by
      rw [hcut] at hrest
      simpa using hrest
    refine ⟨0, ?_, by omega, ?_⟩
    · obtain ⟨buf, fragmented, connected, events⟩ := r
      have hev : events = List.replicate m (.data []) := by simpa using hr.events
      have hfrag : fragmented = true := by
        have h := hr.fragmented
        rw [decide_eq_true hopen] at h
        exact h
      subst hev
      obtain ⟨m, rfl⟩ : ∃ n, m = n + 1 := ⟨m - 1, by omega⟩
      have hfail := congrArg Prod.fst (readline_end buf _ connected (.inl hfrag) m)
      exact congrArg (fun x => [x]) hfail
    · rw [waiting, if_neg hopen, spare]
      simp
      omega
  · obtain ⟨t, hreplies, ht⟩ := hr.lastCall S hlf hne hm hneed
    obtain ⟨hlt', hget⟩ := List.getElem?_eq_some_iff.mp ht
    refine ⟨1, ?_, by omega, ?_⟩
    · rw [hreplies, List.drop_eq_getElem_cons hlt', hget]
      rfl
    · have hspare : spare cs = 1 := by
        rcases List.eq_nil_or_concat cs with rfl | ⟨ds, d, rfl⟩
        · exact absurd rfl hne
        · have hd' : 10 ∉ d := fun hx => hlf (by simp [hx])
          simp [spare, hd']
      rw [hspare, waiting]
      split
      · rename_i hclosed
        have hle := hr.all_returned hneed hclosed
        omega
      · omega

/-- From the `k`-th call on, the segments are returned one after the other until the call that fails,
and all of them but for those that wait in front of the last fragment. -/
theorem Reads.untilEnd (S : Readable stream) (hrest : (cut 10 stream).2 ≠ []) (hm : 2 ≤ m)
    (hr : Reads stream seen k cs (List.replicate m (.data [])) r) :
    ∃ n, r.replies (n + 1) = ((((segments 10 stream).map bare).drop k).take n).map .got ++ [.failed] ∧
      k + n ≤ (segments 10 stream).length ∧
      k + n + cs.foldl backlog (waiting seen k) = (cut 10 stream).1.length + spare cs := by
  obtain ⟨d, hd⟩ : ∃ d, d = (cut 10 stream).1.length - k := ⟨_, rfl⟩
  induction d using Nat.strong_induction_on generalizing seen k cs r with
  | _ d ih =>
    have hmono := hr.lines_le
    have hsegs : (segments 10 stream).length = (cut 10 stream).1.length + 1 := by
      rw [segments_open hrest, List.length_append, List.length_singleton]
    have hret := hr.returned
    -- After a call that returns the next segment.
    have hstep : ∀ {t r' seen' cs'}, r.readline = (.got t, r') →
        ((segments 10 stream).map bare)[k]? = some t →
        Reads stream seen' (k + 1) cs' (List.replicate m (.data [])) r' → k < (cut 10 stream).1.length →
        cs'.foldl backlog (waiting seen' (k + 1)) = cs.foldl backlog (waiting seen k) →
        spare cs' = spare cs →
        ∃ n, r.replies (n + 1) = ((((segments 10 stream).map bare).drop k).take n).map .got ++ [.failed] ∧
          k + n ≤ (segments 10 stream).length ∧
          k + n + cs.foldl backlog (waiting seen k) = (cut 10 stream).1.length + spare cs := by
      intro t r' seen' cs' hcall ht hr' hlt hfold hspare
      obtain ⟨n, hreplies, hle, hsum⟩ := ih _ (by omega) hr' rfl
      obtain ⟨hlt', hget⟩ := List.getElem?_eq_some_iff.mp ht
      refine ⟨n + 1, ?_, by omega, by rw [← hfold, ← hspare]; omega⟩
      rw [Reader.replies, hcall, hreplies, List.drop_eq_getElem_cons hlt', hget, List.take_succ_cons]
      rfl
    by_cases hbuf : (cut 10 seen).2 = [] ∧ r.buf ≠ []
    · obtain ⟨t, r', hcall, ht, hr'⟩ := hr.buffered hbuf.1 hbuf.2
      have hlt := hr'.returned
      refine hstep hcall ht hr' (by omega) ?_ rfl
      rw [waiting, waiting, if_pos hbuf.1, if_pos hbuf.1]
    · have hneed : (cut 10 seen).2 ≠ [] ∨ r.buf = [] := by
        by_cases h : (cut 10 seen).2 = []
        · exact .inr (by by_contra hne; exact hbuf ⟨h, hne⟩)
        · exact .inl h
      by_cases hlf : 10 ∈ cs.flatten
      · obtain ⟨pre, c, cs', rfl, hpre, hc⟩ := exists_first_piece hlf
        obtain ⟨t, r', hcall, ht, hr'⟩ := hr.newline S hpre hc hneed
        have hlt := hr'.returned
        have hmono' := hr'.lines_le
        refine hstep hcall ht hr' (by omega) ?_ ?_
        · rw [waiting_newline hpre hc hret (hr.all_returned hneed), List.foldl_append, foldl_backlog_none hpre,
            List.foldl_cons]
        · rcases List.eq_nil_or_concat cs' with rfl | ⟨ds, d, rfl⟩
          · simp [spare, hc]
          · rw [List.concat_eq_append, spare, spare, ← List.cons_append, ← List.append_assoc,
              List.getLast?_concat, List.getLast?_concat]
      · exact hr.untilEnd_last S hrest hm hneed hlf

/-- Calling until a call fails has the results that the reader has. -/
theorem untilFailure_matches {dests : List Str} {s : Sock} (ts : List Bytes) (hr : Rel s r) (hg : Good r)
    (hd : ∀ d ∈ dests, d.WF) (hts : r.replies (ts.length + 1) = ts.map .got ++ [.failed])
    (hn : ts.length < dests.length) :
    ∃ rs s', (untilFailure socketReadline dests).run s = .ok rs s' ∧ rs.map Str.text = ts := by
  induction ts generalizing s r dests with
  | nil =>
    obtain ⟨dest, dests, rfl⟩ := List.exists_cons_of_ne_nil (List.length_pos_iff.mp hn)
    have hcall := (readline_matches hr hg (hd dest (by simp))).2
    have hfail : r.readline.1 = .failed := (List.cons.inj hts).1
    rw [hfail] at hcall
    cases hrun : (socketReadline dest).run s with
    | ok d t =>
      rw [hrun] at hcall
      rcases hcall.1 with ⟨t, ht, -⟩ | ⟨ht, -⟩ <;> cases ht
    | thrown t => exact ⟨[], t, run_untilFailure_thrown hrun, rfl⟩
    | halt e =>
      rw [hrun] at hcall
      cases hcall.1
  | cons x ts ih =>
    obtain ⟨dest, dests, rfl⟩ := List.exists_cons_of_ne_nil
      (List.length_pos_iff.mp (Nat.lt_of_le_of_lt (Nat.zero_le _) hn))
    have hcall := (readline_matches hr hg (hd dest (by simp))).2
    obtain ⟨hgot, hrest⟩ := List.cons.inj hts
    rw [hgot] at hcall
    cases hrun : (socketReadline dest).run s with
    | ok d t =>
      rw [hrun] at hcall
      obtain ⟨hline, hr'⟩ := hcall
      obtain ⟨y, hy, hdy⟩ := hline.resolve_right (fun h => by cases h.1)
      cases hy
      obtain ⟨rs, s', hall, hrs⟩ := ih hr' hg.readline (fun d hm => hd d (List.mem_cons_of_mem _ hm)) hrest
        (by simpa using hn)
      exact ⟨d :: rs, s', run_untilFailure_ok hrun hall, by rw [List.map_cons, hdy.text, hrs]⟩
    | thrown t =>
      rw [hrun] at hcall
      cases hcall.1
    | halt e =>
      rw [hrun] at hcall
      cases hcall.1

theorem steady_of_no_cr {ls : List Bytes} (h : ∀ l ∈ ls, 13 ∉ l) : Steady ls where
  ends := by
    intro l hl hcr
    have hno := h l (List.dropLast_subset _ hl)
    rw [trim_of_ne fun hc => hno (List.mem_of_getLast? hc)] at hcr
    exact hno (List.mem_of_getLast? hcr)
  early := by
    intro k l i _ hl _ hi
    exact absurd (List.mem_of_getElem? hi) (h l (List.mem_of_getElem? hl))

/-- Without CRs, all complete lines in front of an unfinished one are delivered before the end of the
stream makes a call fail if and only if no more of them wait in front of the last fragment than the
last chunk still gets out of the buffer. -/
theorem lines_before_eof_iff {stream : Bytes} {chunks : List Bytes} {s : Sock} {dests : List Str} {m : Nat}
    (hnul : NulFree stream) (hcr : 13 ∉ stream) (hne : stream ≠ []) (hend : stream.getLast? ≠ some 10)
    (hshort : ∀ l ∈ segments 10 stream, l.length + recvBufSize ≤ stringMax)
    (hc : Chunking stream chunks) (hm : 2 ≤ m)
    (hs : Opened s (chunks.map .data ++ List.replicate m (.data []))) (hd : ∀ d ∈ dests, d.WF)
    (hn : (segments 10 stream).length < dests.length) :
    ∃ rs s', (untilFailure socketReadline dests).run s = .ok rs s' ∧ rs.length < dests.length ∧
      (List.IsPrefix (cut 10 stream).1 (rs.map Str.text) ↔ chunks.foldl backlog 0 ≤ spare chunks) := by
  have hrest : (cut 10 stream).2 ≠ [] := by
    rw [ne_eq, (cut_spec 10 stream).rest_eq_nil_iff, not_or]
    exact ⟨hne, hend⟩
  have hno : ∀ l ∈ segments 10 stream, 13 ∉ l := fun l hl hx => hcr (mem_of_mem_segment hl hx)
  have S : Readable stream := ⟨steady_of_no_cr hno, hshort⟩
  have hbare : (segments 10 stream).map bare = segments 10 stream := by
    rw [List.map_congr_left (g := id), List.map_id]
    intro l hl
    have hlast : l.getLast? ≠ some 13 := fun hx => hno l hl (List.mem_of_getLast? hx)
    rw [bare, trim_of_ne hlast, trim_of_ne hlast, id]
  have hgood := (consistent_chunks hc.chunk (by rw [hc.flatten]; exact hnul) m).good
  obtain ⟨n, hreplies, hle, hsum⟩ := (hc.reads (List.replicate m (.data []))).untilEnd S hrest hm
  rw [List.drop_zero, hbare] at hreplies
  have hlen : ((segments 10 stream).take n).length = n := by
    rw [List.length_take]
    omega
  obtain ⟨rs, s', hrun, hrs⟩ := untilFailure_matches ((segments 10 stream).take n) hs.rel hgood hd
    (by rw [hlen]; exact hreplies) (by omega)
  have hrlen : rs.length = n := by rw [← List.length_map (f := Str.text), hrs, hlen]
  refine ⟨rs, s', hrun, by omega, ?_⟩
  -- The results are the first `n` segments; it is enough to count them.
  have hwait : waiting [] 0 = 0 := rfl
  rw [hwait] at hsum
  have hlines : List.IsPrefix (cut 10 stream).1 ((segments 10 stream).take n) ↔
      (cut 10 stream).1.length ≤ n := by
    constructor
    · intro hpre
      have hpre := hpre.length_le
      omega
    · intro hle'
      rw [segments_open hrest, List.take_append, List.take_of_length_le hle']
      exact List.prefix_append _ _
  rw [hrs, hlines]
  omega

/-- One line and the beginning of another in one chunk, the rest of it in a second one. -/
theorem lines_before_eof_iff_ab :
    ∃ rs s', (untilFailure socketReadline (List.replicate 3 (ofText []).1)).run
        { freshSock [] with reads := [.data [97, 10, 98], .data [99], .data [], .data []] } = .ok rs s' ∧
      rs.length < 3 ∧ List.IsPrefix [[97]] (rs.map Str.text) := by
  have hnul : NulFree ([97, 10, 98, 99] : Bytes) := by decide
  have hshort : ∀ l ∈ segments 10 ([97, 10, 98, 99] : Bytes), l.length + recvBufSize ≤ stringMax := by
    decide
  have hs : Opened { freshSock [] with reads := [.data [97, 10, 98], .data [99], .data [], .data []] }
      ([[97, 10, 98], [99]].map Event.data ++ List.replicate 2 (.data [])) :=
    ⟨(fresh_freshSock []).opened.readBuf, (fresh_freshSock []).opened.lists, rfl, rfl, rfl⟩
  have hd : ∀ d ∈ List.replicate 3 (ofText []).1, d.WF := by
    intro d hd
    rw [(List.mem_replicate.mp hd).2]
    exact (ofText []).2
  have hc : Chunking [97, 10, 98, 99] [[97, 10, 98], [99]] := ⟨rfl, by simp [Chunk, recvBufSize]⟩
  obtain ⟨rs, s', hrun, hlen, hiff⟩ := lines_before_eof_iff hnul (by decide) (by decide) (by decide)
    hshort hc (Nat.le_refl 2) hs hd (by decide)
  exact ⟨rs, s', hrun, hlen, hiff.mpr (by decide)⟩

/-- Two lines and the beginning of a third in one chunk: the second line is never delivered. -/
theorem eof_loses_line :
    ¬ ∀ (stream : Bytes) (chunks : List Bytes) (s : Sock) (dests : List Str) (m : Nat),
      NulFree stream → 13 ∉ stream → stream ≠ [] → stream.getLast? ≠ some 10 → Chunking stream chunks →
      2 ≤ m → Opened s (chunks.map .data ++ List.replicate m (.data [])) → (∀ d ∈ dests, d.WF) →
      (segments 10 stream).length < dests.length →
      ∃ rs s', (untilFailure socketReadline dests).run s = .ok rs s' ∧
        List.IsPrefix (cut 10 stream).1 (rs.map Str.text) := by
  intro hall
  have hs : Opened { freshSock [] with reads := [.data [97, 10, 98, 10, 99], .data [], .data []] }
      ([[97, 10, 98, 10, 99]].map Event.data ++ List.replicate 2 (.data [])) :=
    ⟨(fresh_freshSock []).opened.readBuf, (fresh_freshSock []).opened.lists, rfl, rfl, rfl⟩
  have hd : ∀ d ∈ List.replicate 4 (ofText []).1, d.WF := by
    intro d hd
    rw [(List.mem_replicate.mp hd).2]
    exact (ofText []).2
  have hc : Chunking [97, 10, 98, 10, 99] [[97, 10, 98, 10, 99]] := ⟨rfl, by simp [Chunk, recvBufSize]⟩
  have hnul : NulFree ([97, 10, 98, 10, 99] : Bytes) := by decide
  obtain ⟨rs, s', hrun, hpre⟩ := hall [97, 10, 98, 10, 99] [[97, 10, 98, 10, 99]] _ _ 2 hnul (by decide)
    (by decide) (by decide) hc (Nat.le_refl 2) hs hd (by decide)
  have hgood := (consistent_chunks hc.chunk (by rw [hc.flatten]; exact hnul) 2).good
  obtain ⟨rs', t, hrun', hrs⟩ := untilFailure_matches [[97]] hs.rel hgood hd (by decide +kernel)
    (by decide)
  rw [hrun] at hrun'
  cases hrun'
  rw [hrs] at hpre
  exact absurd hpre (by decide)

end NcSocket
