import NaturalC.NcSocketTimeout

/-!
# One direction of a connection

One side prints lines with `socket_printf`, and the other one reads them with `socket_readline`. What
`write(2)` has taken is on its way until some `read(2)` returns it, in chunks of any size. A call that
prints can fail in the middle of its line; nothing is printed behind that.
-/
namespace NcSocket

open Throwing Throwing.Act NcString NcList NcSplit Linked Lines

/-! ## Printing -/

/-- `write(2)`, with the number that it returns. The state is what is on its way. -/
def write (result : Int) (src : Bytes) : Act Bytes Int := do
  let flight ← get
  put (flight ++ src.take result.toNat)
  pure result

def socketWrite (result : Int) (src : Bytes) : Act Bytes Unit :=
  if src.length = 0 then pure ()
  else do
    let bytes ← write result src
    if bytes ≤ 0 then throwing
    else if bytes ≠ src.length then throwing
    else pure ()

/-- `socket_printf`, given the text that `vasprintf(3)` has made. -/
def socketPrintf (result : Int) (buf : Bytes) : Act Bytes Unit := socketWrite result buf

/-- A call that succeeds has sent the whole text. One that fails has sent a part of it, but never all. -/
theorem socketPrintf_cases {result : Int} {buf : Bytes} (hne : buf ≠ []) (hresult : result ≤ buf.length)
    (flight : Bytes) :
    (result = buf.length ∧ (socketPrintf result buf).run flight = .ok () (flight ++ buf)) ∨
      result.toNat < buf.length ∧
        (socketPrintf result buf).run flight = .thrown (flight ++ buf.take result.toNat) := by
  have hlen : buf.length ≠ 0 := fun h0 => hne (List.length_eq_zero_iff.mp h0)
  have hwrite : (write result buf).run flight = .ok result (flight ++ buf.take result.toNat) := rfl
  rw [socketPrintf, socketWrite, if_neg hlen, run_bind_ok hwrite]
  by_cases hpos : result ≤ 0
  · right
    rw [if_pos hpos]
    exact ⟨by omega, rfl⟩
  · rw [if_neg hpos]
    by_cases hall : result = buf.length
    · left
      refine ⟨hall, ?_⟩
      rw [if_neg (not_not.mpr hall), hall, Int.toNat_natCast, List.take_length]
      rfl
    · right
      rw [if_pos hall]
      exact ⟨by omega, rfl⟩

/-! ## Texts that can be read -/

/-- A line that can be sent: it may end in a CR. -/
structure Message (l : Bytes) : Prop where
  nul : NulFree l
  line : 10 ∉ l
  cr : Guarded 13 10 l
  short : l.length + recvBufSize ≤ stringMax

/-- Lines as they are printed. -/
def wire (ls : List Bytes) : Bytes := (ls.map (· ++ [10])).flatten

/-- What can be on its way. -/
structure Talk (stream : Bytes) : Prop where
  nul : NulFree stream
  cr : Guarded 13 10 stream
  short : ShortLines stream

variable {ls ms : List Bytes} {l t torn flight stream seen received c : Bytes} {k : Nat} {r : Reader} {s s' : Sock}

theorem wire_cons (l : Bytes) (ls : List Bytes) : wire (l :: ls) = l ++ 10 :: wire ls := by simp [wire]

theorem wire_append (ls ms : List Bytes) : wire (ls ++ ms) = wire ls ++ wire ms := by simp [wire]

theorem wire_singleton (l : Bytes) : wire [l] = l ++ [10] := by simp [wire]

theorem Talk.part (h : Talk stream) (ht : List.IsInfix t stream) : Talk t where
  nul := fun h0 => h.nul (ht.subset h0)
  cr := by
    obtain ⟨a, b, rfl⟩ := ht
    exact h.cr.piece a b
  short := h.short.part ht

theorem talk_wire (h : ∀ l ∈ ls, Message l) : Talk (wire ls) := by
  induction ls with
  | nil =>
    refine ⟨List.not_mem_nil, ?_, ?_⟩
    · intro a b hab
      simp [wire] at hab
    · intro x hx _
      rw [List.eq_nil_of_infix_nil hx]
      decide
  | cons l ls ih =>
    have hl := h l List.mem_cons_self
    have hls := ih fun m hm => h m (List.mem_cons_of_mem _ hm)
    rw [wire_cons]
    refine ⟨?_, hl.cr.line hls.cr (by decide), ?_⟩
    · intro h0
      rcases List.mem_append.mp h0 with h0 | h0
      · exact hl.nul h0
      · exact hls.nul ((List.mem_cons.mp h0).resolve_left (by decide))
    · intro x hx hlf
      rcases isInfix_line hx hlf with hx | hx
      · have hle := hx.length_le
        have hshort := hl.short
        omega
      · exact hls.short x hx hlf

/-- Lines behind which a part of one more has been sent. -/
theorem talk_torn (h : ∀ l ∈ ls, Message l) (ht : ∃ l, Message l ∧ List.IsPrefix torn l) :
    Talk (wire ls ++ torn) := by
  obtain ⟨l, hl, rest, rfl⟩ := ht
  have hall : Talk (wire (ls ++ [torn ++ rest])) := by
    apply talk_wire
    intro m hm
    rcases List.mem_append.mp hm with hm | hm
    · exact h m hm
    · rw [List.mem_singleton.mp hm]
      exact hl
  refine hall.part ⟨[], rest ++ [10], ?_⟩
  rw [wire_append, wire_singleton]
  simp

theorem cut_wire (h : ∀ l ∈ ls, Message l) (ht : 10 ∉ torn) : cut 10 (wire ls ++ torn) = (ls, torn) := by
  have hcut : Cut 10 (wire ls ++ torn) ls torn := ⟨rfl, fun l hl => (h l hl).line, ht⟩
  exact hcut.eq_cut

theorem Talk.readable (h : Talk stream) : Readable stream where
  steady := by
    apply steady_of_guarded
    · intro l hl
      exact (h.part (segment_isInfix hl).1).cr
    · intro l hl
      exact (segment_isInfix hl).2
  short := by
    intro l hl
    exact h.short l (segment_isInfix hl).1 (segment_isInfix hl).2

/-! ## Reading -/

/-- What `read(2)` returns while the other side is there and does not keep us waiting for too long. -/
def Event.Calm (e : Event) : Prop := e = .eintr ∨ ∃ c, Chunk c ∧ NulFree c ∧ e = .data c

theorem stopsEarly_calm {es : List Event} (h : ∀ e ∈ es, e.Calm) : stopsEarly es = false := by
  induction es with
  | nil => rfl
  | cons e es ih =>
    have hrest := ih fun x hx => h x (List.mem_cons_of_mem _ hx)
    rcases h e List.mem_cons_self with rfl | ⟨c, -, -, rfl⟩
    · exact hrest
    · rw [stopsEarly]
      split_ifs
      · rfl
      · exact hrest

/-- Nothing gets lost. -/
theorem kept_calm {es : List Event} (h : ∀ e ∈ es, e.Calm) : kept es = chunksOf es := by
  induction es with
  | nil => rfl
  | cons e es ih =>
    have hcalm : ∀ x ∈ es, x.Calm := fun x hx => h x (List.mem_cons_of_mem _ hx)
    rcases h e List.mem_cons_self with rfl | ⟨c, -, -, rfl⟩
    · exact ih hcalm
    · rw [kept, stopsEarly_calm hcalm, if_neg (by simp), ih hcalm]
      rfl

theorem live_calm {e : Event} (h : e.Calm) : e.Live := by
  rcases h with rfl | ⟨c, hc, -, rfl⟩
  · exact trivial
  · exact hc

theorem consistent_calm {es : List Event} (h : ∀ e ∈ es, e.Calm) : Consistent es where
  chunk := by
    intro c hc
    rcases h _ hc with hc | ⟨d, hd, hn, hc⟩
    · cases hc
    · cases hc
      exact ⟨hd.2, hn⟩
  ended := by
    rintro a b rfl
    rcases h (.data []) (by simp) with hc | ⟨d, hd, -, hc⟩
    · cases hc
    · cases hc
      exact absurd rfl hd.1
  bad := by
    rintro a b rfl
    rcases h .ebadf (by simp) with hc | ⟨d, -, -, hc⟩
    · cases hc
    · cases hc

/-- The events behind a call are the last ones of those before it. -/
theorem gather_suffix (connected : Bool) (acc : Bytes) (es : List Event) :
    List.IsSuffix (gather connected acc es).2.2 es := by
  induction es generalizing acc with
  | nil => exact List.suffix_refl _
  | cons e es ih =>
    have hrest : ∀ acc, List.IsSuffix (gather connected acc es).2.2 (e :: es) := fun acc =>
      (ih acc).trans (List.suffix_cons _ _)
    cases e with
    | eintr => exact hrest acc
    | data c =>
      rw [gather]
      split_ifs
      · exact List.suffix_cons _ _
      · exact List.suffix_cons _ _
      · exact hrest _
      · exact List.suffix_cons _ _
    | _ => exact List.suffix_cons _ _

theorem readline_suffix (r : Reader) : List.IsSuffix r.readline.2.events r.events := by
  have h := gather_suffix r.connected [] r.events
  rw [Reader.readline]
  split_ifs
  · exact List.suffix_refl _
  · split <;> rename_i heq <;> rw [heq] at h
    · rw [Reader.accept]
      split_ifs <;> exact h
    all_goals exact h

/-- While nothing disturbs the reading, a call returns the next line or waits for more of it. -/
theorem Awaits.readline_calm (S : Readable stream) (A : Awaits stream seen k r) (hcalm : ∀ e ∈ r.events, e.Calm) :
    (∃ t seen' r', r.readline = (.got t, r') ∧ ((segments 10 stream).map bare)[k]? = some t ∧
      Awaits stream seen' (k + 1) r') ∨
    (r.readline.1 = .blocked ∧ 10 ∉ (kept r.events).flatten ∧ ((cut 10 seen).2 = [] → r.buf = [])) := by
  by_cases hbuf : (cut 10 seen).2 = [] ∧ r.buf ≠ []
  · rcases A.readline S with ⟨t, seen', r', hcall, ht, A', -⟩ | ⟨g, r', hcall, hg, -, -⟩ | ⟨-, -, hneed⟩
    · exact Or.inl ⟨t, seen', r', hcall, ht, A'⟩
    · have hfrag : r.fragmented = decide ((cut 10 seen).2 ≠ []) := A.reads.fragmented
      have hready : r.buf ≠ [] ∧ r.fragmented = false := ⟨hbuf.2, by simp [hfrag, hbuf.1]⟩
      rw [readline_ready hready] at hcall
      obtain ⟨rfl, -⟩ := Prod.mk.inj hcall
      rcases hg with hg | hg <;> cases hg
    · exact absurd (hneed hbuf.1) hbuf.2
  · have hneed : (cut 10 seen).2 = [] → r.buf = [] := by
      intro hrest
      by_contra hne
      exact hbuf ⟨hrest, hne⟩
    have hacc : (10 : UInt8) ∉ ([] : Bytes) := List.not_mem_nil
    rcases gather_live A.live hacc A.short with
      ⟨g, es, -, -, hstop, -⟩ | ⟨pre, c, es, hg, -, hkept, hpre, hc, hmax, hsuf⟩ | ⟨hg, -, hnone⟩
    · rw [stopsEarly_calm hcalm] at hstop
      cases hstop
    · obtain ⟨t, seen', r', hcall, ht, A', -⟩ :=
        A.newline S hneed hg hkept hpre hc (by simpa using hmax) hsuf
      exact Or.inl ⟨t, seen', r', hcall, ht, A'⟩
    · right
      have hconn : r.connected = true := A.reads.connected
      refine ⟨?_, hnone, hneed⟩
      rw [Reader.readline, if_neg (A.not_ready hneed), hconn, hg]

/-! ## The lines and the one who reads them -/

/-- Behind the lines, and what there may be of one more, the reader has got the first `k` of them. -/
structure Carries (ls : List Bytes) (torn flight : Bytes) (s : Sock) (k : Nat) (r : Reader) (received seen : Bytes) :
    Prop where
  rel : Rel s r
  calm : ∀ e ∈ r.events, e.Calm
  awaits : Awaits received seen k r
  stream : wire ls ++ torn = received ++ flight
  flag : s.timeout = false

theorem Carries.good (h : Carries ls torn flight s k r received seen) : Good r where
  events := consistent_calm h.calm
  closed := by
    intro hno
    have hconn : r.connected = true := h.awaits.reads.connected
    rw [hconn] at hno
    cases hno

/-- More is printed. -/
theorem Carries.printed (h : Carries ls torn flight s k r received seen) {u : Bytes}
    (hu : wire ms ++ t = wire ls ++ torn ++ u) : Carries ms t (flight ++ u) s k r received seen where
  rel := h.rel
  calm := h.calm
  awaits := h.awaits
  stream := by rw [hu, h.stream, List.append_assoc]
  flag := h.flag

/-- What a call of `read(2)` can return, and what is on its way behind that. -/
inductive Arrives : Bytes → Event → Bytes → Prop
  | eintr (flight : Bytes) : Arrives flight .eintr flight
  | data {c rest : Bytes} (h : Chunk c) : Arrives (c ++ rest) (.data c) rest

/-- A call of `read(2)` returns. -/
theorem Carries.delivered (h : Carries ls torn flight s k r received seen) (htalk : Talk (wire ls ++ torn))
    {e : Event} {rest : Bytes} (hd : Arrives flight e rest) :
    ∃ r' received', Carries ls torn rest { s with reads := s.reads ++ [e] } k r' received' seen := by
  have R := h.awaits.reads
  have hrel : Rel { s with reads := s.reads ++ [e] } { r with events := r.events ++ [e] } :=
    ⟨h.rel.buffer, h.rel.fragmented, h.rel.connected, congrArg (· ++ [e]) h.rel.reads⟩
  cases hd with
  | eintr =>
    have hcalm : ∀ e ∈ r.events ++ [.eintr], e.Calm := by
      intro e he
      rcases List.mem_append.mp he with he | he
      · exact h.calm e he
      · rw [List.mem_singleton.mp he]
        exact Or.inl rfl
    have hchunks : chunksOf (r.events ++ [.eintr]) = chunksOf r.events := by simp [chunksOf, Event.chunk?]
    have hkept : kept (r.events ++ [.eintr]) = kept r.events := by
      rw [kept_calm hcalm, kept_calm h.calm, hchunks]
    refine ⟨{ r with events := r.events ++ [.eintr] }, received, hrel, hcalm, ⟨?_, ?_, ?_⟩, h.stream, h.flag⟩
    · have hquiet : Reader.quiet { r with events := r.events ++ [.eintr] } = r.quiet := by
        rw [Reader.quiet, Reader.quiet, hkept]
      rw [hquiet, hkept]
      exact R
    · exact fun e he => live_calm (hcalm e he)
    · rw [hchunks]
      exact h.awaits.short
  | @data c rest hc =>
    have hstream : wire ls ++ torn = received ++ c ++ rest := by rw [h.stream, List.append_assoc]
    have hnul : NulFree c := by
      intro h0
      apply htalk.nul
      rw [hstream]
      simp [h0]
    have hcalm : ∀ e ∈ r.events ++ [.data c], e.Calm := by
      intro e he
      rcases List.mem_append.mp he with he | he
      · exact h.calm e he
      · rw [List.mem_singleton.mp he]
        exact Or.inr ⟨c, hc, hnul, rfl⟩
    have hchunks : chunksOf (r.events ++ [.data c]) = chunksOf r.events ++ [c] := by simp [chunksOf, Event.chunk?]
    have hkept : kept (r.events ++ [.data c]) = kept r.events ++ [c] := by
      rw [kept_calm hcalm, kept_calm h.calm, hchunks]
    refine ⟨{ r with events := r.events ++ [.data c] }, received ++ c, hrel, hcalm, ⟨?_, ?_, ?_⟩, hstream, h.flag⟩
    · rw [hkept]
      exact {
        stream := by
          rw [List.flatten_append, ← List.append_assoc, ← R.stream]
          simp
        chunks := by
          intro d hd
          rcases List.mem_append.mp hd with hd | hd
          · exact R.chunks d hd
          · rw [List.mem_singleton.mp hd]
            exact hc
        events := by rw [Reader.quiet, hkept, List.append_nil]
        connected := R.connected
        fragmented := R.fragmented
        fragment := R.fragment
        returned := R.returned
        buf := R.buf }
    · exact fun e he => live_calm (hcalm e he)
    · rw [hchunks]
      -- the chunks that are left are the end of what has been received
      apply htalk.short.part
      have hread := R.stream
      rw [kept_calm h.calm] at hread
      refine ⟨seen, rest, ?_⟩
      rw [hstream, hread]
      simp

/-- A line of a part of the stream is one of those that have been printed. -/
theorem line_of_received (hls : ∀ l ∈ ls, Message l) (ht : 10 ∉ torn) (hstream : wire ls ++ torn = received ++ flight)
    (hk : k < (cut 10 received).1.length) (hget : ((segments 10 received).map bare)[k]? = some t) :
    ∃ l, ls[k]? = some l ∧ t = trim 13 l := by
  obtain ⟨more, hmore, -⟩ := cut_append_lines 10 received flight
  rw [← hstream, cut_wire hls ht] at hmore
  have hseg : (segments 10 received)[k]? = ls[k]? := by
    rw [show ls = (cut 10 received).1 ++ more from hmore, List.getElem?_append_left hk, segments,
      List.getElem?_append_left hk]
  rw [List.getElem?_map, hseg] at hget
  obtain ⟨l, hl, rfl⟩ := Option.map_eq_some_iff.mp hget
  have hmsg := hls l (List.mem_of_getElem? hl)
  exact ⟨l, hl, trim_trim hmsg.cr hmsg.line⟩

/-- A call returns the next of the lines, or waits. It does not wait when all that has been printed are whole
lines, none of it is on its way, and there is a line that has not been returned. -/
theorem Carries.next (h : Carries ls torn flight s k r received seen) (hls : ∀ l ∈ ls, Message l)
    (ht : ∃ l, Message l ∧ List.IsPrefix torn l) :
    (∃ l r' seen', ls[k]? = some l ∧ r.readline = (.got (trim 13 l), r') ∧
      ∀ s', Rel s' r' → s'.timeout = false → Carries ls torn flight s' (k + 1) r' received seen') ∨
    (r.readline.1 = .blocked ∧ (torn = [] → flight = [] → k = ls.length)) := by
  have hlf : 10 ∉ torn := by
    obtain ⟨l, hl, hpre⟩ := ht
    exact fun hm => hl.line (hpre.subset hm)
  have htalk : Talk received := (talk_torn hls ht).part ⟨[], flight, by rw [h.stream]; rfl⟩
  rcases h.awaits.readline_calm htalk.readable h.calm with ⟨t, seen', r', hcall, hget, A⟩ | ⟨hblocked, hnone, hneed⟩
  · left
    have hk : k < (cut 10 received).1.length := by
      have hret := A.reads.returned
      have hread := A.reads.stream
      obtain ⟨more, hmore, -⟩ := cut_append_lines 10 seen' (kept r'.events).flatten
      rw [← hread] at hmore
      rw [hmore, List.length_append]
      omega
    obtain ⟨l, hl, rfl⟩ := line_of_received hls hlf h.stream hk hget
    refine ⟨l, r', seen', hl, hcall, ?_⟩
    intro s' hrel hflag
    have hsuf := readline_suffix r
    rw [hcall] at hsuf
    exact ⟨hrel, fun e he => h.calm e (hsuf.subset he), A, h.stream, hflag⟩
  · right
    refine ⟨hblocked, ?_⟩
    rintro rfl rfl
    have hall : received = wire ls := by
      have hstream := h.stream
      rw [List.append_nil, List.append_nil] at hstream
      exact hstream.symm
    have hcut : cut 10 received = (ls, []) := by
      have hcut := cut_wire hls hlf
      rwa [List.append_nil, ← hall] at hcut
    have hret := h.awaits.reads.returned
    have hle : k ≤ ls.length := by
      obtain ⟨more, hmore, -⟩ := cut_append_lines 10 seen (kept r.events).flatten
      rw [← h.awaits.reads.stream, hcut] at hmore
      have hlen : ls.length = (cut 10 seen).1.length + more.length := by
        rw [← List.length_append]
        exact congrArg List.length hmore
      omega
    by_contra hne
    have hk : k < (cut 10 received).1.length := by
      rw [hcut]
      exact Nat.lt_of_le_of_ne hle hne
    exact hnone (h.awaits.reads.more hk hneed fun _ => by rw [hcut])

/-- What the reader does with a line. -/
theorem Carries.socketReadline (h : Carries ls torn flight s k r received seen) (hls : ∀ l ∈ ls, Message l)
    (ht : ∃ l, Message l ∧ List.IsPrefix torn l) {dest : Str} (hd : dest.WF) :
    (∃ l d s' r' seen', ls[k]? = some l ∧ (socketReadline dest).run s = .ok d s' ∧ d.text = trim 13 l ∧
      Carries ls torn flight s' (k + 1) r' received seen') ∨
    ((socketReadline dest).run s = .halt .diverge ∧ (torn = [] → flight = [] → k = ls.length)) := by
  have hcall := (readline_matches h.rel h.good hd).2
  rcases h.next hls ht with ⟨l, r', seen', hl, hread, hnext⟩ | ⟨hblocked, hend⟩
  · left
    rw [hread] at hcall
    cases hrun : (NcSocket.socketReadline dest).run s with
    | ok d s' =>
      rw [hrun] at hcall
      obtain ⟨hreply, hrel⟩ := hcall
      have hflag := socketReadline_flag h.rel h.good hrun
      rw [hread, if_neg (by simp), h.flag] at hflag
      rcases hreply with ⟨t, hgot, htext⟩ | ⟨htimeout, -⟩
      · cases hgot
        exact ⟨l, d, s', r', seen', hl, rfl, htext.text, hnext s' hrel hflag⟩
      · cases htimeout
    | thrown s' =>
      rw [hrun] at hcall
      cases hcall.1
    | halt e =>
      rw [hrun] at hcall
      cases hcall.1
  · right
    rw [hblocked] at hcall
    cases hrun : (NcSocket.socketReadline dest).run s with
    | ok d s' =>
      rw [hrun] at hcall
      rcases hcall.1 with ⟨t, hgot, -⟩ | ⟨htimeout, -⟩
      · cases hgot
      · cases htimeout
    | thrown s' =>
      rw [hrun] at hcall
      cases hcall.1
    | halt e =>
      rw [hrun] at hcall
      obtain ⟨-, rfl⟩ := hcall
      exact ⟨rfl, hend⟩

/-- A socket that has just been connected. -/
theorem carries_opened (hs : Opened s []) (hflag : s.timeout = false) (ls : List Bytes) :
    Carries ls [] (wire ls) s 0 (.opened []) [] [] where
  rel := hs.rel
  calm := by simp [Reader.opened]
  awaits := by
    have hcut : Chunking [] [] := ⟨rfl, by simp⟩
    refine ⟨hcut.reads [], by simp [Reader.opened], ?_⟩
    intro x hx _
    rw [List.eq_nil_of_infix_nil hx]
    decide
  stream := List.append_nil _
  flag := hflag

end NcSocket
