import NaturalC.Lockstep
import NaturalC.NcSessionEof
import NaturalC.NcSocketTimeout

/-!
# A session on the wire

`session_handler` reads its lines from a socket. Whatever the hooks do, it does what it would do on the list of
the lines that the client has sent: how the stream was cut on its way has no influence, and at the end of
the lines the session waits, runs into the timeout or keeps failing.
-/
namespace NcSession

open Throwing Throwing.Act NcString Lines
open NcSocket (Sock Reader Reply Rel Good Reads Readable Chunk Chunking Opened Consistent bare)

/-! ## What the session hears -/

/-- What `session_process_request` gets for a reply of the socket. -/
inductive Hears : Reply → Readline → Prop
  | line {t : Bytes} {text : Str} (h : text.text = t) : Hears (.got t) (.line text)
  | timeout : Hears .timeout .timeout
  | failure : Hears .failed .failure

/-- The replies to so many calls, and whether the socket is connected behind each of them. -/
def trace : Nat → Reader → List (Reply × Bool)
  | 0, _ => []
  | n + 1, r => (r.readline.1, r.readline.2.connected) :: trace n r.readline.2

def HearsAll (replies : List (Reply × Bool)) (input : List (Readline × Bool)) : Prop :=
  List.Forall₂ (fun x y => Hears x.1 y.1 ∧ y.2 = x.2) replies input

/-- No call waits for ever, and behind a call that has got no line all calls fail. -/
structure Orderly (replies : List (Reply × Bool)) : Prop where
  live : ∀ x ∈ replies, x.1 ≠ .blocked
  order : replies.Pairwise fun x y => (∃ t, x.1 = .got t) ∨ y.1 = .failed

theorem Orderly.tail {x : Reply × Bool} {replies : List (Reply × Bool)} (h : Orderly (x :: replies)) :
    Orderly replies where
  live := fun y hy => h.live y (List.mem_cons_of_mem _ hy)
  order := (List.pairwise_cons.mp h.order).2

variable {σ : Type} {reg : Registry σ} {r : Reader} {s : Sock} {n : Nat}

theorem run_onWorld {α : Type} (m : Act (World σ) α) (w : World σ) (s : Sock) :
    (onWorld m).run ⟨w, s⟩ = match m.run w with
      | .ok a w' => .ok a ⟨w', s⟩
      | .thrown w' => .thrown ⟨w', s⟩
      | .halt e => .halt e := by
  rw [onWorld, run_zoom]
  dsimp only
  cases m.run w with
  | ok a w' => rfl
  | thrown w' => rfl
  | halt e => rfl

/-- A request on the socket is a request with what the socket replies. -/
theorem processRequest_hears (reg : Registry σ) (hr : Rel s r) (hg : Good r) (hlive : r.readline.1 ≠ .blocked)
    (hflag : r.readline.1 ≠ .failed → s.timeout = false) :
    ∃ y s', Hears r.readline.1 y ∧ Rel s' r.readline.2 ∧ ((∃ t, r.readline.1 = .got t) → s'.timeout = false) ∧
      ∀ w, (processRequest reg).run ⟨w, s⟩ =
        (onWorld (sessionProcessRequest reg y r.readline.2.connected)).run ⟨w, s'⟩ := by
  obtain ⟨line, hline, hnew⟩ : ∃ line : Str, Holds line [] ∧
      ∀ c : Client σ, (strNew true true : Act (Client σ) Str).run c = .ok line c :=
    ⟨_, ⟨rfl, _, rfl, rfl⟩, fun _ => rfl⟩
  have hcall := (NcSocket.readline_matches hr hg hline).2
  cases hread : (NcSocket.socketReadline line).run s with
  | ok d s' =>
    rw [hread] at hcall
    obtain ⟨hreply, hrel⟩ := hcall
    have hset := NcSocket.socketReadline_flag hr hg hread
    have hrun : ∀ w, (processRequest reg).run ⟨w, s⟩ =
        (onWorld (sessionProcessRequest reg (readlineOf (some d) s') s'.connected)).run ⟨w, s'⟩ := by
      intro w
      have hsock : (onSock (NcSocket.socketReadline line)).run (⟨w, s⟩ : Client σ) = .ok d ⟨w, s'⟩ := run_zoom_ok hread
      rw [processRequest, run_bind_ok (hnew _), run_bind_ok (run_attempt_ok hsock)]
      rfl
    rw [hrel.connected] at hrun
    rcases hreply with ⟨t, hgot, ht⟩ | ⟨htimeout, -⟩
    · rw [hgot, if_neg (by simp), hflag (by simp [hgot])] at hset
      rw [hgot]
      refine ⟨.line d, s', Hears.line ht.text, hrel, fun _ => hset, ?_⟩
      intro w
      rw [hrun, readlineOf, hset]
      rfl
    · rw [htimeout, if_pos rfl] at hset
      rw [htimeout]
      refine ⟨.timeout, s', Hears.timeout, hrel, by simp, ?_⟩
      intro w
      rw [hrun, readlineOf, hset]
      rfl
  | thrown s' =>
    rw [hread] at hcall
    obtain ⟨hreply, hrel⟩ := hcall
    rw [hreply, ← hrel.connected]
    refine ⟨.failure, s', Hears.failure, hrel, by simp, ?_⟩
    intro w
    have hsock : (onSock (NcSocket.socketReadline line)).run (⟨w, s⟩ : Client σ) = .thrown ⟨w, s'⟩ :=
      run_zoom_thrown hread
    rw [processRequest, run_bind_ok (hnew _), run_bind_ok (run_attempt_thrown hsock)]
    rfl
  | halt e =>
    rw [hread] at hcall
    exact absurd hcall.1 hlive

/-- The loop on the socket is the loop on what the socket replies, however far it gets. -/
theorem requestLoop_hears (reg : Registry σ) (n : Nat) (hr : Rel s r) (hg : Good r) (ho : Orderly (trace n r))
    (hflag : (∃ x ∈ trace n r, x.1 ≠ .failed) → s.timeout = false) :
    ∃ input, HearsAll (trace n r) input ∧
      ∀ w, ∃ s', (requestLoop reg n).run ⟨w, s⟩ = (onWorld (readLoop reg input)).run ⟨w, s'⟩ := by
  induction n generalizing r s with
  | zero => exact ⟨[], List.Forall₂.nil, fun w => ⟨s, rfl⟩⟩
  | succ n ih =>
    rw [trace] at ho hflag ⊢
    obtain ⟨y, s₁, hy, hr₁, hgot, hrun⟩ := processRequest_hears reg hr hg (ho.live _ List.mem_cons_self)
      fun hne => hflag ⟨_, List.mem_cons_self, hne⟩
    have hflag₁ : (∃ x ∈ trace n r.readline.2, x.1 ≠ .failed) → s₁.timeout = false := by
      rintro ⟨x, hx, hne⟩
      exact hgot (((List.pairwise_cons.mp ho.order).1 x hx).resolve_right hne)
    obtain ⟨input, hinput, hloop⟩ := ih hr₁ hg.readline ho.tail hflag₁
    refine ⟨(y, r.readline.2.connected) :: input, List.Forall₂.cons ⟨hy, rfl⟩ hinput, ?_⟩
    intro w
    by_cases hs : w.session.sessionState = sessionRead
    · -- the request is made, and the rest of the loop is the same from where it has led
      have hreq := hrun w
      rw [run_onWorld] at hreq
      cases ho : (sessionProcessRequest reg y r.readline.2.connected).run w with
      | ok u w₁ =>
        rw [ho] at hreq
        obtain ⟨s', hrest⟩ := hloop w₁
        refine ⟨s', ?_⟩
        rw [requestLoop, run_bind_get, if_pos hs, run_bind_ok (run_attempt_ok hreq), hrest, run_onWorld, run_onWorld,
          readLoop, run_bind_get, if_pos hs, run_bind_ok (run_attempt_ok ho)]
      | thrown w₁ =>
        rw [ho] at hreq
        obtain ⟨s', hrest⟩ := hloop w₁
        refine ⟨s', ?_⟩
        rw [requestLoop, run_bind_get, if_pos hs, run_bind_ok (run_attempt_thrown hreq), hrest, run_onWorld,
          run_onWorld, readLoop, run_bind_get, if_pos hs, run_bind_ok (run_attempt_thrown ho)]
      | halt e =>
        rw [ho] at hreq
        refine ⟨s, ?_⟩
        rw [requestLoop, run_bind_get, if_pos hs, run_bind_halt (run_attempt_halt hreq), run_onWorld, readLoop,
          run_bind_get, if_pos hs, run_bind_halt (run_attempt_halt ho)]
    · refine ⟨s, ?_⟩
      rw [requestLoop, run_bind_get, if_neg hs, run_onWorld, readLoop_ended hs]
      rfl

/-! ## The whole session -/

/-- `session_handler` on the socket, with at most so many rounds of its loop. -/
def Client.sessionHandler (reg : Registry σ) (rounds : Nat) (closes : Bool) : Act (Client σ) Unit := do
  onWorld (modifySession fun s => { s with sessionState := sessionGreeting })
  onWorld (sessionGreet reg)
  let ended ← requestLoop reg rounds
  if ended then onWorld (sessionEnd reg closes) else pure ()

theorem sessionHandler_hears (reg : Registry σ) (closes : Bool) {input : List (Readline × Bool)}
    (h : ∀ w, ∃ s', (requestLoop reg n).run ⟨w, s⟩ = (onWorld (readLoop reg input)).run ⟨w, s'⟩) (w : World σ) :
    ∃ s', (Client.sessionHandler reg n closes).run ⟨w, s⟩ =
      (onWorld (sessionHandler reg input closes)).run ⟨w, s'⟩ := by
  let w₁ : World σ := { w with session := { w.session with sessionState := sessionGreeting } }
  have hset : (onWorld (modifySession fun s => { s with sessionState := sessionGreeting })).run (⟨w, s⟩ : Client σ) =
      .ok () ⟨w₁, s⟩ := rfl
  have hset' : (modifySession fun s => { s with sessionState := sessionGreeting }).run w = .ok () w₁ := rfl
  cases hgreet : (sessionGreet reg).run w₁ with
  | ok u w₂ =>
    have hgreet' : (onWorld (sessionGreet reg)).run ⟨w₁, s⟩ = .ok u ⟨w₂, s⟩ := run_zoom_ok hgreet
    obtain ⟨s', hloop⟩ := h w₂
    refine ⟨s', ?_⟩
    rw [Client.sessionHandler, run_bind_ok hset, run_bind_ok hgreet', run_onWorld, sessionHandler,
      run_bind_ok hset', run_bind_ok hgreet]
    rw [run_onWorld] at hloop
    cases hread : (readLoop reg input).run w₂ with
    | ok b w₃ =>
      rw [hread] at hloop
      rw [run_bind_ok hloop, run_bind_ok hread]
      cases b with
      | false => rfl
      | true => exact run_onWorld (sessionEnd reg closes) w₃ s'
    | thrown w₃ =>
      rw [hread] at hloop
      rw [run_bind_thrown hloop, run_bind_thrown hread]
    | halt e =>
      rw [hread] at hloop
      rw [run_bind_halt hloop, run_bind_halt hread]
  | thrown w₂ =>
    have hgreet' : (onWorld (sessionGreet reg)).run ⟨w₁, s⟩ = .thrown ⟨w₂, s⟩ := run_zoom_thrown hgreet
    refine ⟨s, ?_⟩
    rw [Client.sessionHandler, run_bind_ok hset, run_bind_thrown hgreet', run_onWorld, sessionHandler,
      run_bind_ok hset', run_bind_thrown hgreet]
  | halt e =>
    have hgreet' : (onWorld (sessionGreet reg)).run ⟨w₁, s⟩ = .halt e := by rw [run_onWorld, hgreet]
    refine ⟨s, ?_⟩
    rw [Client.sessionHandler, run_bind_ok hset, run_bind_halt hgreet', run_onWorld, sessionHandler,
      run_bind_ok hset', run_bind_halt hgreet]

/-! ## The lines of a stream -/

/-- What may be left to read when all lines have been sent, and what the session hears of it: nothing, a
timeout, or the end of the connection at each further call. -/
inductive Ending : List NcSocket.Event → List (Readline × Bool) → Prop
  | waiting : Ending [] []
  | silent : Ending [.eagain] [(.timeout, true)]
  | gone (m : Nat) : Ending (List.replicate m (.data [])) (List.replicate m (.failure, false))

/-- Complete lines that a client may send: without NULs, with CRs only in front of the newline, and not too long
for a string. -/
structure Lined (stream : Bytes) : Prop where
  nul : NulFree stream
  closed : stream.getLast? = some 10
  cr : ∀ i : Nat, stream[i]? = some 13 → stream[i + 1]? = some 10
  short : ∀ l ∈ (cut 10 stream).1, l.length + NcSocket.recvBufSize ≤ stringMax

variable {stream seen : Bytes} {k m : Nat} {cs chunks : List Bytes} {es : List NcSocket.Event}
  {tail : List (Readline × Bool)}

theorem Lined.guarded (h : Lined stream) : Guarded 13 10 stream := by
  rintro a b rfl
  have hnext := h.cr a.length (by simp)
  have hskip : (a ++ 13 :: b)[a.length + 1]? = b.head? := by
    rw [List.getElem?_append_right (Nat.le_add_right _ _), Nat.add_sub_cancel_left, List.getElem?_cons_succ,
      ← List.head?_eq_getElem?]
  rw [hskip] at hnext
  exact Or.inr hnext

theorem Lined.rest (h : Lined stream) : (cut 10 stream).2 = [] :=
  (cut_spec 10 stream).rest_eq_nil_iff.mpr (Or.inr h.closed)

theorem Lined.readable (h : Lined stream) : Readable stream where
  steady := by
    rw [segments_closed h.rest]
    exact NcSocket.steady_of_guarded (fun l hl => NcSocket.guarded_line h.guarded hl) (cut_spec 10 stream).line
  short := by
    rw [segments_closed h.rest]
    exact h.short

/-- The buffered reader hands out the lines, each without its CR. -/
theorem Lined.map_bare (h : Lined stream) : (segments 10 stream).map bare = NcSocket.lines stream := by
  rw [segments_closed h.rest]
  refine List.map_congr_left fun l hl => ?_
  exact trim_trim (NcSocket.guarded_line h.guarded hl) ((cut_spec 10 stream).line l hl)

/-- When the last line of a stream has been returned, all of the stream has been read. -/
theorem reads_done (hclosed : (cut 10 stream).2 = []) (hr : Reads stream seen k cs es r)
    (hk : k = (cut 10 stream).1.length) : r = ⟨[], false, true, es⟩ := by
  have hle := hr.lines_le
  have hret := hr.returned
  have hlf : (10 : UInt8) ∉ cs.flatten := by
    rw [length_cut] at hk hret
    have hcount := congrArg (List.count 10) hr.stream
    rw [List.count_append] at hcount
    exact List.count_eq_zero.mp (by omega)
  have hcut := ((cut_spec 10 seen).append_unfinished hlf).eq_cut
  rw [← hr.stream] at hcut
  rw [hcut] at hclosed
  obtain ⟨hseen, hcs⟩ := List.append_eq_nil_iff.mp hclosed
  have hnil : cs = [] := by
    apply List.eq_nil_iff_forall_not_mem.mpr
    intro c hc
    exact (hr.chunks c hc).1 (List.flatten_eq_nil_iff.mp hcs c hc)
  obtain ⟨buf, fragmented, connected, events⟩ := r
  have hbuf := hr.buf
  have hfrag := hr.fragmented
  have hevents := hr.events
  rw [segments_closed hseen, List.drop_of_length_le (by rw [List.length_map]; omega)] at hbuf
  rw [hseen] at hfrag
  rw [hnil] at hevents
  obtain rfl : buf = [] := hbuf
  obtain rfl : fragmented = false := hfrag
  obtain rfl : connected = true := hr.connected
  obtain rfl : events = es := hevents
  rfl

/-- While lines are left, each call returns the next of them, and behind the last one nothing but the end is
left to read. -/
theorem trace_lines (S : Readable stream) (hclosed : (cut 10 stream).2 = []) (m : Nat)
    (hr : Reads stream seen k cs es r) (hn : k + n = (cut 10 stream).1.length) :
    trace (n + m) r = (((segments 10 stream).map bare).drop k).map (fun t => (.got t, true)) ++
      trace m ⟨[], false, true, es⟩ := by
  induction n generalizing seen k cs r with
  | zero =>
    rw [List.drop_of_length_le (by rw [List.length_map, segments_closed hclosed]; omega), Nat.zero_add,
      reads_done hclosed hr (by omega)]
    rfl
  | succ n ih =>
    obtain ⟨t, r', seen', cs', hcall, ht, hr'⟩ :=
      hr.next S fun hneed => hr.more (by omega) hneed fun _ => hclosed
    obtain ⟨hlt, hget⟩ := List.getElem?_eq_some_iff.mp ht
    rw [Nat.succ_add, trace, hcall, List.drop_eq_getElem_cons hlt, hget, List.map_cons, ih hr' (by omega)]
    dsimp only
    rw [hr'.connected]
    rfl

theorem trace_gone (connected : Bool) (m : Nat) :
    trace m ⟨[], false, connected, List.replicate m (.data [])⟩ = List.replicate m (.failed, false) := by
  induction m generalizing connected with
  | zero => rfl
  | succ m ih =>
    rw [trace, NcSocket.readline_end [] false connected (Or.inr rfl) m, List.replicate_succ]
    exact congrArg _ (ih false)

/-- Behind the lines the session hears the end. -/
theorem Ending.hears (h : Ending es tail) {input : List (Readline × Bool)}
    (hi : HearsAll (trace tail.length ⟨[], false, true, es⟩) input) : input = tail := by
  cases h with
  | waiting =>
    cases hi
    rfl
  | silent =>
    rcases hi with _ | ⟨⟨hy, hc⟩, hi⟩
    rcases hi with _ | _
    rename_i y
    obtain ⟨y, connected⟩ := y
    obtain rfl : connected = true := hc
    cases hy
    rfl
  | gone m =>
    rw [List.length_replicate, trace_gone] at hi
    induction m generalizing input with
    | zero =>
      cases hi
      rfl
    | succ m ih =>
      rw [List.replicate_succ] at hi
      rcases hi with _ | ⟨⟨hy, hc⟩, hi⟩
      rename_i y input
      obtain ⟨y, connected⟩ := y
      obtain rfl : connected = false := hc
      cases hy
      rw [ih hi]
      rfl

theorem Ending.orderly (h : Ending es tail) : Orderly (trace tail.length ⟨[], false, true, es⟩) := by
  cases h with
  | waiting => exact ⟨by simp [trace], by simp [trace]⟩
  | silent => exact ⟨by simp [trace, Reader.readline, NcSocket.gather], by simp [trace]⟩
  | gone m =>
    rw [List.length_replicate, trace_gone]
    constructor
    · intro x hx
      rw [(List.mem_replicate.mp hx).2]
      simp
    · exact List.pairwise_replicate.mpr (Or.inr (Or.inr rfl))

theorem Ending.consistent (h : Ending es tail) (hc : ∀ c ∈ chunks, Chunk c) (hn : NulFree chunks.flatten) :
    Consistent (chunks.map .data ++ es) := by
  cases h with
  | waiting => exact NcSocket.consistent_chunks hc hn 0
  | silent =>
    have hdata : ∀ c, NcSocket.Event.data c ∈ chunks.map NcSocket.Event.data ++ [.eagain] → c ∈ chunks := by simp
    constructor
    · intro c hmem
      exact ⟨(hc c (hdata c hmem)).2, fun h0 => hn (List.mem_flatten.mpr ⟨c, hdata c hmem, h0⟩)⟩
    · intro a b hes
      exact absurd rfl (hc [] (hdata [] (by rw [hes]; simp))).1
    · intro a b hes
      have hmem : NcSocket.Event.ebadf ∈ chunks.map NcSocket.Event.data ++ [.eagain] := by
        rw [hes]
        simp
      simp at hmem
  | gone m => exact NcSocket.consistent_chunks hc hn m

/-- The lines that the session hears have the texts that the socket returns. -/
theorem hears_lines {ls : List Bytes} {rest : List (Reply × Bool)} {input : List (Readline × Bool)}
    (h : HearsAll (ls.map (fun t => (.got t, true)) ++ rest) input) :
    ∃ texts : List Str, ∃ input', texts.map Str.text = ls ∧ HearsAll rest input' ∧
      input = texts.map (fun t => (.line t, true)) ++ input' := by
  induction ls generalizing input with
  | nil => exact ⟨[], input, rfl, h, rfl⟩
  | cons l ls ih =>
    rcases h with _ | ⟨⟨hy, hc⟩, h⟩
    rename_i y input
    obtain ⟨texts, input', htexts, hrest, rfl⟩ := ih h
    obtain ⟨y, connected⟩ := y
    cases hy with
    | line htext =>
      rename_i text
      obtain rfl : connected = true := hc
      exact ⟨text :: texts, input', by rw [List.map_cons, htext, htexts], hrest, rfl⟩

/-- The lines come first, and nothing that has failed is followed by a line. -/
theorem orderly_lines {ls : List Bytes} {rest : List (Reply × Bool)} (h : Orderly rest) :
    Orderly (ls.map (fun t => (.got t, true)) ++ rest) where
  live := by
    intro x hx
    rcases List.mem_append.mp hx with hx | hx
    · obtain ⟨t, -, rfl⟩ := List.mem_map.mp hx
      simp
    · exact h.live x hx
  order := by
    refine List.pairwise_append.mpr ⟨?_, h.order, ?_⟩
    · exact List.pairwise_map.mpr (List.pairwise_of_forall fun t _ => Or.inl ⟨t, rfl⟩)
    · intro x hx y _
      obtain ⟨t, -, rfl⟩ := List.mem_map.mp hx
      exact Or.inl ⟨t, rfl⟩

/-- The loop on the socket, whatever the session is like. -/
theorem requestLoop_lines (reg : Registry σ) (hl : Lined stream) (hc : Chunking stream chunks)
    (hs : Opened s (chunks.map .data ++ es)) (hflag : s.timeout = false) (he : Ending es tail) :
    ∃ texts : List Str, texts.map Str.text = NcSocket.lines stream ∧ ∀ w, ∃ s',
      (requestLoop reg (texts.length + tail.length)).run ⟨w, s⟩ =
        (onWorld (readLoop reg (texts.map (fun t => (.line t, true)) ++ tail))).run ⟨w, s'⟩ := by
  have hgood := (he.consistent hc.chunk (by rw [hc.flatten]; exact hl.nul)).good
  have htrace := trace_lines hl.readable hl.rest tail.length (hc.reads es) (Nat.zero_add _)
  rw [hl.map_bare, List.drop_zero] at htrace
  have ho : Orderly ((NcSocket.lines stream).map (fun t => (.got t, true)) ++
      trace tail.length ⟨[], false, true, es⟩) :=
    orderly_lines he.orderly
  rw [← htrace] at ho
  obtain ⟨input, hinput, hloop⟩ := requestLoop_hears reg _ hs.rel hgood ho fun _ => hflag
  rw [htrace] at hinput
  obtain ⟨texts, input', htexts, hrest, rfl⟩ := hears_lines hinput
  rw [he.hears hrest] at hloop
  have hlength : texts.length = (cut 10 stream).1.length := by
    have h := congrArg List.length htexts
    rwa [List.length_map, NcSocket.lines, List.length_map] at h
  refine ⟨texts, htexts, ?_⟩
  rw [hlength]
  exact hloop

/-- However a client's lines come in, `session_handler` does on the socket what it does on the list of the lines:
it calls the same hooks with them in their order and ends in the same way. -/
theorem session_handler_on_socket (reg : Registry σ) (closes : Bool) (hl : Lined stream) (hc : Chunking stream chunks)
    (hs : Opened s (chunks.map .data ++ es)) (hflag : s.timeout = false) (he : Ending es tail) :
    ∃ texts : List Str, texts.map Str.text = NcSocket.lines stream ∧ ∀ w, ∃ s',
      (Client.sessionHandler reg (texts.length + tail.length) closes).run ⟨w, s⟩ =
        (onWorld (sessionHandler reg (texts.map (fun t => (.line t, true)) ++ tail) closes)).run ⟨w, s'⟩ := by
  obtain ⟨texts, htexts, hloop⟩ := requestLoop_lines reg hl hc hs hflag he
  exact ⟨texts, htexts, fun w => sessionHandler_hears reg closes hloop w⟩

/-- Two lines in three chunks, cut between CR and LF and within the second line. -/
def twoLines : Bytes := [97, 13, 10, 98, 10]

theorem lined_twoLines : Lined twoLines where
  nul := by decide
  closed := rfl
  cr := by
    intro i hi
    obtain ⟨hlt, -⟩ := List.getElem?_eq_some_iff.mp hi
    have hall : ∀ i < 5, twoLines[i]? = some 13 → twoLines[i + 1]? = some 10 := by decide
    exact hall i hlt hi
  short := by decide

theorem chunking_twoLines : Chunking twoLines [[97, 13], [10, 98], [10]] :=
  ⟨rfl, by simp [Chunk, NcSocket.recvBufSize]⟩

theorem chunking_whole : Chunking twoLines [twoLines] :=
  ⟨rfl, by simp [Chunk, NcSocket.recvBufSize, twoLines]⟩

/-- The two lines, and then silence. -/
def silentSock (chunks : List Bytes) : Sock :=
  { NcSocket.freshSock chunks with reads := chunks.map .data ++ [.eagain] }

theorem opened_silentSock (chunks : List Bytes) : Opened (silentSock chunks) (chunks.map .data ++ [.eagain]) :=
  ⟨(NcSocket.fresh_freshSock chunks).opened.readBuf, (NcSocket.fresh_freshSock chunks).opened.lists, rfl, rfl, rfl⟩

theorem session_handler_on_socket_twoLines :
    ∃ texts : List Str, texts.map Str.text = NcSocket.lines twoLines ∧ ∀ w, ∃ s',
      (Client.sessionHandler failingRegistry (texts.length + 1) true).run
          ⟨w, silentSock [[97, 13], [10, 98], [10]]⟩ =
        (onWorld (sessionHandler failingRegistry (texts.map (fun t => (.line t, true)) ++ [(.timeout, true)])
          true)).run ⟨w, s'⟩ := by
  have h := session_handler_on_socket failingRegistry true lined_twoLines chunking_twoLines
    (opened_silentSock _) rfl Ending.silent
  exact h

/-! ## Hooks that look at texts -/

/-- The same call of a hook, but for where its line is stored. -/
inductive Hook.Alike : Hook → Hook → Prop
  | same (hook : Hook) : Hook.Alike hook hook
  | request {line line' : Str} (h : line.text = line'.text) : Hook.Alike (.request line) (.request line')

inductive Event.Alike : Event → Event → Prop
  | line {text text' : Str} (h : text.text = text'.text) : Event.Alike (.read (.line text)) (.read (.line text'))
  | timeout : Event.Alike (.read .timeout) (.read .timeout)
  | failure : Event.Alike (.read .failure) (.read .failure)
  | call {hook hook' : Hook} (h : hook.Alike hook') (result : Int) :
      Event.Alike (.call hook result) (.call hook' result)

structure Session.Alike (s s' : Session σ) : Prop where
  sessionState : s.sessionState = s'.sessionState
  code : s.response.code = s'.response.code
  header : s.response.header.text = s'.response.header.text
  body : s.response.body.text = s'.response.body.text
  asis : s.response.asis = s'.response.asis
  data : s.data = s'.data
  controllerHandle : s.controllerHandle = s'.controllerHandle
  timeout : s.timeout = s'.timeout
  connected : s.connected = s'.connected

structure Effect.Alike (e e' : Effect σ) : Prop where
  result : e.result = e'.result
  sessionState : e.sessionState = e'.sessionState
  code : e.code = e'.code
  header : e.header.1.text = e'.header.1.text
  body : e.body.1.text = e'.body.1.text
  asis : e.asis = e'.asis
  data : e.data = e'.data

/-- The hooks look at the text of a string and at nothing else of it. -/
def TextOnly (reg : Registry σ) : Prop :=
  ∀ i (hook hook' : Hook) (s s' : Session σ), hook.Alike hook' → s.Alike s' →
    Option.Rel (fun f f' => Effect.Alike (f s) (f' s')) ((reg.controller i).hook hook) ((reg.controller i).hook hook')

/-- Two sessions that nobody can tell apart by the texts of their strings. -/
structure World.Alike (reg : Registry σ) (w w' : World σ) : Prop where
  session : w.session.Alike w'.session
  events : List.Forall₂ Event.Alike w.events w'.events
  ready : Ready reg w.session
  ready' : Ready reg w'.session

variable {w w' : World σ} {hook hook' : Hook}

theorem Ready.set {s : Session σ} (h : Ready reg s) (state : Int) : Ready reg { s with sessionState := state } :=
  ⟨h.handle, h.registered, h.header, h.body⟩

/-- The same state is set in both. -/
theorem World.Alike.setState (h : World.Alike reg w w') (state : Int) :
    World.Alike reg { w with session := { w.session with sessionState := state } }
      { w' with session := { w'.session with sessionState := state } } where
  session := { h.session with sessionState := rfl }
  events := h.events
  ready := h.ready.set state
  ready' := h.ready'.set state

theorem invoke_lockstep (hreg : TextOnly reg) (hhook : hook.Alike hook') (h : World.Alike reg w w') :
    Lockstep (World.Alike reg) Eq ((sessionControllerInvoke reg hook).run w)
      ((sessionControllerInvoke reg hook').run w') := by
  have hrel := hreg w.session.controllerHandle hook hook' w.session w'.session hhook h.session
  have hhandle := h.session.controllerHandle
  cases hf : (reg.controller w.session.controllerHandle).hook hook with
  | none =>
    rw [hf] at hrel
    cases hf' : (reg.controller w.session.controllerHandle).hook hook' with
    | none =>
      rw [hhandle] at hf'
      rw [invoke_none h.ready hf, invoke_none h.ready' hf']
      exact Lockstep.ok h rfl
    | some f' =>
      rw [hf'] at hrel
      cases hrel
  | some f =>
    rw [hf] at hrel
    cases hf' : (reg.controller w.session.controllerHandle).hook hook' with
    | none =>
      rw [hf'] at hrel
      cases hrel
    | some f' =>
      rw [hf'] at hrel
      obtain ⟨he⟩ := hrel
      have hafter : World.Alike reg
          ⟨w.session.after (f w.session), w.events ++ [.call hook (f w.session).result]⟩
          ⟨w'.session.after (f' w'.session), w'.events ++ [.call hook' (f w.session).result]⟩ := by
        refine ⟨⟨he.sessionState, he.code, he.header, he.body, he.asis, he.data, hhandle, h.session.timeout,
          h.session.connected⟩, ?_, ?_, ?_⟩
        · exact List.rel_append h.events (List.Forall₂.cons (.call hhook _) List.Forall₂.nil)
        · exact ⟨h.ready.handle, h.ready.registered, (f w.session).header.2, (f w.session).body.2⟩
        · exact ⟨h.ready'.handle, h.ready'.registered, (f' w'.session).header.2, (f' w'.session).body.2⟩
      rw [hhandle] at hf'
      rw [sessionControllerInvoke, run_bind_get, if_neg h.ready.handle, if_neg (Nat.not_le.mpr h.ready.registered), hf,
        sessionControllerInvoke, run_bind_get, if_neg h.ready'.handle,
        if_neg (Nat.not_le.mpr h.ready'.registered), hf']
      simp only [run_bind_record, run_bind_modifySession]
      rw [← he.result]
      split_ifs
      · exact Lockstep.thrown hafter
      · exact Lockstep.ok hafter rfl

theorem invokeResult_lockstep (hreg : TextOnly reg) (hhook : hook.Alike hook') (h : World.Alike reg w w') :
    Lockstep (World.Alike reg) Eq ((invokeResult reg hook).run w) ((invokeResult reg hook').run w') := by
  apply lockstep_bind (lockstep_attempt (invoke_lockstep hreg hhook h))
  intro a b s t hs hab
  cases hab with
  | none => exact Lockstep.ok hs rfl
  | some => exact Lockstep.ok hs rfl

theorem sessionGreet_lockstep (hreg : TextOnly reg) (h : World.Alike reg w w') :
    Lockstep (World.Alike reg) Eq ((sessionGreet reg).run w) ((sessionGreet reg).run w') := by
  apply lockstep_bind (invokeResult_lockstep hreg (.same _) h)
  rintro rc _ s t hs rfl
  split_ifs
  · exact Lockstep.thrown hs
  · exact Lockstep.ok (hs.setState sessionRead) rfl

theorem responseReset_lockstep (h : World.Alike reg w w') :
    Lockstep (World.Alike reg) Eq (responseReset.run w) (responseReset.run w') := by
  obtain ⟨header, hh, hhw, -⟩ := strTruncate_holds h.ready.header
  obtain ⟨body, hb, hbw, -⟩ := strTruncate_holds h.ready.body
  obtain ⟨header', hh', hhw', -⟩ := strTruncate_holds h.ready'.header
  obtain ⟨body', hb', hbw', -⟩ := strTruncate_holds h.ready'.body
  rw [responseReset, run_bind_get, run_bind_ok (run_onLocal_ok hh w), run_bind_ok (run_onLocal_ok hb w),
    run_bind_get, run_bind_ok (run_onLocal_ok hh' w'), run_bind_ok (run_onLocal_ok hb' w')]
  refine Lockstep.ok ⟨{ h.session with code := rfl, header := ?_, body := ?_, asis := rfl }, h.events,
    ⟨h.ready.handle, h.ready.registered, hhw.wf, hbw.wf⟩, ⟨h.ready'.handle, h.ready'.registered, hhw'.wf, hbw'.wf⟩⟩ rfl
  · exact hhw.text.trans hhw'.text.symm
  · exact hbw.text.trans hbw'.text.symm

/-- What the session has heard is recorded, and the connection may have been lost. -/
theorem World.Alike.heard {y y' : Readline} (h : World.Alike reg w w') (hy : Event.Alike (.read y) (.read y'))
    (connected : Bool) :
    World.Alike reg ⟨{ w.session with connected := connected }, w.events ++ [.read y]⟩
      ⟨{ w'.session with connected := connected }, w'.events ++ [.read y']⟩ where
  session := { h.session with connected := rfl }
  events := List.rel_append h.events (List.Forall₂.cons hy List.Forall₂.nil)
  ready := ⟨h.ready.handle, h.ready.registered, h.ready.header, h.ready.body⟩
  ready' := ⟨h.ready'.handle, h.ready'.registered, h.ready'.header, h.ready'.body⟩

theorem socketReadline_lockstep {y y' : Readline} (h : World.Alike reg w w')
    (hy : Event.Alike (.read y) (.read y')) (connected : Bool) :
    Lockstep (World.Alike reg) (fun l l' => l.text = l'.text) ((socketReadline y connected).run w)
      ((socketReadline y' connected).run w') := by
  have hheard := h.heard hy connected
  cases hy with
  | line htext => exact Lockstep.ok hheard htext
  | timeout =>
    refine Lockstep.ok (R := World.Alike reg) ⟨{ hheard.session with timeout := rfl }, hheard.events, ?_, ?_⟩ rfl
    · exact ⟨hheard.ready.handle, hheard.ready.registered, hheard.ready.header, hheard.ready.body⟩
    · exact ⟨hheard.ready'.handle, hheard.ready'.registered, hheard.ready'.header, hheard.ready'.body⟩
  | failure => exact Lockstep.thrown hheard

theorem processRequest_lockstep (hreg : TextOnly reg) {y y' : Readline} (h : World.Alike reg w w')
    (hy : Event.Alike (.read y) (.read y')) (connected : Bool) :
    Lockstep (World.Alike reg) Eq ((sessionProcessRequest reg y connected).run w)
      ((sessionProcessRequest reg y' connected).run w') := by
  apply lockstep_bind (socketReadline_lockstep h hy connected)
  intro line line' s t hs hline
  rw [run_bind_get, run_bind_get, ← hs.session.timeout]
  split_ifs
  · exact Lockstep.ok (hs.setState sessionTimeout) rfl
  · apply lockstep_bind (responseReset_lockstep hs)
    rintro _ _ s₁ t₁ hs₁ -
    apply lockstep_bind (invokeResult_lockstep hreg (.request hline) hs₁)
    rintro rc _ s₂ t₂ hs₂ rfl
    exact invoke_lockstep hreg (.same _) hs₂

/-- The loop on lines with the same texts. -/
theorem readLoop_lockstep (hreg : TextOnly reg) {input input' : List (Readline × Bool)}
    (hi : List.Forall₂ (fun x y => Event.Alike (.read x.1) (.read y.1) ∧ x.2 = y.2) input input')
    (h : World.Alike reg w w') :
    Lockstep (World.Alike reg) Eq ((readLoop reg input).run w) ((readLoop reg input').run w') := by
  induction hi generalizing w w' with
  | nil =>
    rw [readLoop, run_bind_get, run_bind_get, h.session.sessionState]
    exact Lockstep.ok h rfl
  | @cons x x' input input' hx _ ih =>
    obtain ⟨y, connected⟩ := x
    obtain ⟨y', connected'⟩ := x'
    obtain ⟨hy, rfl⟩ := hx
    rw [readLoop, readLoop, run_bind_get, run_bind_get, h.session.sessionState]
    split_ifs
    · apply lockstep_bind (lockstep_attempt (processRequest_lockstep hreg h hy connected))
      intro _ _ s t hs _
      exact ih hs
    · exact Lockstep.ok h rfl

theorem sessionEnd_lockstep (hreg : TextOnly reg) (h : World.Alike reg w w') (closes : Bool) :
    Lockstep (World.Alike reg) Eq ((sessionEnd reg closes).run w) ((sessionEnd reg closes).run w') := by
  have htimeout : Lockstep (World.Alike reg) Eq
      ((if w.session.sessionState = sessionTimeout ∧ w.session.connected = true then
        sessionControllerInvoke reg .timeout else pure ()).run w)
      ((if w'.session.sessionState = sessionTimeout ∧ w'.session.connected = true then
        sessionControllerInvoke reg .timeout else pure ()).run w') := by
    rw [← h.session.sessionState, ← h.session.connected]
    split_ifs
    · exact invoke_lockstep hreg (.same _) h
    · exact Lockstep.ok h rfl
  rw [sessionEnd, run_bind_get, run_bind_get]
  apply lockstep_bind (lockstep_attempt htimeout)
  intro _ _ s t hs _
  have hclose : Lockstep (World.Alike reg) Eq ((sessionClose closes).run s) ((sessionClose closes).run t) := by
    rw [sessionClose, run_bind_get, run_bind_get, ← hs.session.sessionState]
    split_ifs
    · exact Lockstep.thrown hs
    · exact Lockstep.ok hs rfl
    · exact Lockstep.ok (hs.setState sessionClosed) rfl
    · exact Lockstep.thrown hs
  apply lockstep_bind hclose
  intro _ _ s₁ t₁ hs₁ _
  exact invoke_lockstep hreg (.same _) hs₁

theorem sessionHandler_lockstep (hreg : TextOnly reg) {input input' : List (Readline × Bool)} (closes : Bool)
    (hi : List.Forall₂ (fun x y => Event.Alike (.read x.1) (.read y.1) ∧ x.2 = y.2) input input')
    (h : World.Alike reg w w') :
    Lockstep (World.Alike reg) Eq ((sessionHandler reg input closes).run w)
      ((sessionHandler reg input' closes).run w') := by
  rw [sessionHandler, sessionHandler, run_bind_modifySession, run_bind_modifySession]
  apply lockstep_bind (sessionGreet_lockstep hreg (h.setState sessionGreeting))
  intro _ _ s t hs _
  apply lockstep_bind (readLoop_lockstep hreg hi hs)
  rintro ended _ s₁ t₁ hs₁ rfl
  cases ended with
  | false => exact Lockstep.ok hs₁ rfl
  | true => exact sessionEnd_lockstep hreg hs₁ closes

/-- The same lines, stored in different places. -/
theorem alike_lines {texts texts' : List Str} (h : texts.map Str.text = texts'.map Str.text)
    (tail : List (Readline × Bool)) (htail : ∀ x ∈ tail, x.1 = .timeout ∨ x.1 = .failure) :
    List.Forall₂ (fun x y => Event.Alike (.read x.1) (.read y.1) ∧ x.2 = y.2)
      (texts.map (fun t => (.line t, true)) ++ tail) (texts'.map (fun t => (.line t, true)) ++ tail) := by
  apply List.rel_append
  · rw [List.forall₂_map_left_iff, List.forall₂_map_right_iff]
    rw [← List.forall₂_eq_eq_eq, List.forall₂_map_left_iff, List.forall₂_map_right_iff] at h
    exact h.imp fun _ _ htext => ⟨Event.Alike.line htext, rfl⟩
  · apply List.forall₂_same.mpr
    intro x hx
    obtain ⟨y, connected⟩ := x
    obtain rfl | rfl := htail _ hx
    · exact ⟨Event.Alike.timeout, rfl⟩
    · exact ⟨Event.Alike.failure, rfl⟩

theorem Ending.no_line (h : Ending es tail) : ∀ x ∈ tail, x.1 = .timeout ∨ x.1 = .failure := by
  cases h with
  | waiting => simp
  | silent => simp
  | gone m =>
    intro x hx
    rw [(List.mem_replicate.mp hx).2]
    exact Or.inr rfl

/-- Two clients that send the same stream are served in the same way, however the stream was cut for each of
them: the same hooks are called with the same lines and results, and the sessions end alike. -/
theorem chunking_unseen (hreg : TextOnly reg) (closes : Bool) {chunks' : List Bytes} {c c' : Client σ}
    (hl : Lined stream) (hc : Chunking stream chunks) (hc' : Chunking stream chunks') (he : Ending es tail)
    (hs : Opened c.sock (chunks.map .data ++ es)) (hs' : Opened c'.sock (chunks'.map .data ++ es))
    (hflag : c.sock.timeout = false) (hflag' : c'.sock.timeout = false) (hw : World.Alike reg c.world c'.world) :
    let rounds := (NcSocket.lines stream).length + tail.length
    Lockstep (fun d d' => World.Alike reg d.world d'.world) Eq ((Client.sessionHandler reg rounds closes).run c)
      ((Client.sessionHandler reg rounds closes).run c') := by
  obtain ⟨w, s⟩ := c
  obtain ⟨w', s'⟩ := c'
  obtain ⟨texts, htexts, hrun⟩ := requestLoop_lines reg hl hc hs hflag he
  obtain ⟨texts', htexts', hrun'⟩ := requestLoop_lines reg hl hc' hs' hflag' he
  have hlength : texts.length = (NcSocket.lines stream).length := by rw [← htexts, List.length_map]
  have hlength' : texts'.length = (NcSocket.lines stream).length := by rw [← htexts', List.length_map]
  rw [hlength] at hrun
  rw [hlength'] at hrun'
  obtain ⟨u, hu⟩ := sessionHandler_hears reg closes hrun w
  obtain ⟨u', hu'⟩ := sessionHandler_hears reg closes hrun' w'
  have hlock := sessionHandler_lockstep hreg closes (alike_lines (htexts.trans htexts'.symm) tail he.no_line) hw
  dsimp only
  rw [hu, hu', run_onWorld, run_onWorld]
  generalize (sessionHandler reg _ closes).run w = o, (sessionHandler reg _ closes).run w' = o' at hlock ⊢
  cases hlock with
  | ok hs ha => exact Lockstep.ok hs ha
  | thrown hs => exact Lockstep.thrown hs
  | halt e => exact Lockstep.halt e

theorem textOnly_failing : TextOnly failingRegistry := by
  intro i hook hook' s s' hhook hs
  have heffect : ∀ code : Int, Effect.Alike (⟨code, s.sessionState, 0, ofText [], ofText [], false, ()⟩ : Effect Unit)
      ⟨code, s'.sessionState, 0, ofText [], ofText [], false, ()⟩ := fun _ =>
    ⟨rfl, hs.sessionState, rfl, rfl, rfl, rfl, rfl⟩
  cases hhook with
  | request h => exact Option.Rel.some (heffect 5)
  | same hook =>
    cases hook with
    | request line => exact Option.Rel.some (heffect 5)
    | response arg => exact Option.Rel.some (heffect 0)
    | _ => exact Option.Rel.none

def silentClient (chunks : List Bytes) : Client Unit := ⟨accepted, silentSock chunks⟩

theorem opened_silentClient (chunks : List Bytes) :
    Opened (silentClient chunks).sock (chunks.map .data ++ [.eagain]) :=
  opened_silentSock chunks

theorem alike_silentClient (chunks chunks' : List Bytes) :
    World.Alike failingRegistry (silentClient chunks).world (silentClient chunks').world := by
  have hready : Ready failingRegistry accepted.session := ⟨by decide, by decide, (ofText []).2, (ofText []).2⟩
  exact ⟨⟨rfl, rfl, rfl, rfl, rfl, rfl, rfl, rfl, rfl⟩, List.Forall₂.nil, hready, hready⟩

theorem chunking_unseen_twoLines :
    Lockstep (fun d d' => World.Alike failingRegistry d.world d'.world) Eq
      ((Client.sessionHandler failingRegistry ((NcSocket.lines twoLines).length + 1) true).run
        (silentClient [[97, 13], [10, 98], [10]]))
      ((Client.sessionHandler failingRegistry ((NcSocket.lines twoLines).length + 1) true).run
        (silentClient [twoLines])) := by
  have h := chunking_unseen textOnly_failing true lined_twoLines chunking_twoLines chunking_whole Ending.silent
    (opened_silentClient _) (opened_silentClient _) rfl rfl (alike_silentClient _ _)
  exact h

end NcSession
