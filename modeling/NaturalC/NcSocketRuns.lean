import NaturalC.NcSocketReader

/-!
# Runs of a socket

A socket that has just been opened agrees with a reader whose buffer is empty, so the
results about readers hold for every run that starts there. The first one is that the tests
for logic errors in `socket_readline` never fail: as long as the socket is connected, an
unfinished line is the last entry of the input buffer and the tail points to it.
-/
namespace NcSocket

open Throwing Throwing.Act NcString NcList NcSplit Linked Lines

/-- A connected socket with an empty input buffer. -/
structure Opened (s : Sock) (events : List Event) : Prop where
  readBuf : s.heap.list s.readBuf = some ⟨0, none, none⟩
  lists : ∀ l x, s.heap.list l = some x → l < s.heap.fresh
  connected : s.connected = true
  whole : s.fragmented = false
  reads : s.reads = events

/-- The reader that nothing has been read by. -/
def Reader.opened (events : List Event) : Reader := ⟨[], false, true, events⟩

variable {s : Sock} {events : List Event}

theorem Opened.rel (hs : Opened s events) : Rel s (.opened events) where
  buffer := by
    refine ⟨[], none, ⟨hs.readBuf, ⟨trivial, ?_, List.nodup_nil, by simp, by simp⟩, hs.lists⟩, rfl,
      by simp, ?_⟩
    · intro a v vs he
      cases he
    · intro hf
      cases hf
  fragmented := hs.whole
  connected := hs.connected
  reads := hs.reads

theorem Consistent.good (hc : Consistent events) : Good (.opened events) where
  events := hc
  closed := by
    intro hf
    cases hf

/-- A chunk that one `read(2)` can return. -/
def Chunk (c : Bytes) : Prop := c ≠ [] ∧ c.length ≤ recvBufSize - 1

/-- The chunks cut the stream into pieces that `read(2)` can return. -/
structure Chunking (stream : Bytes) (chunks : List Bytes) : Prop where
  flatten : chunks.flatten = stream
  chunk : ∀ c ∈ chunks, Chunk c

/-- A connected socket that nothing has been read from. -/
structure Fresh (s : Sock) (chunks : List Bytes) : Prop where
  lists : s.heap.list = Function.update (fun _ => none) s.readBuf (some ⟨0, none, none⟩)
  below : s.readBuf < s.heap.fresh
  connected : s.connected = true
  whole : s.fragmented = false
  reads : s.reads = chunks.map .data

theorem Fresh.opened {chunks : List Bytes} (hs : Fresh s chunks) : Opened s (chunks.map .data) where
  readBuf := by
    rw [hs.lists]
    exact Function.update_self _ _ _
  lists := by
    intro l x hx
    rw [hs.lists] at hx
    by_cases hl : l = s.readBuf
    · rw [hl]
      exact hs.below
    · rw [Function.update_of_ne hl] at hx
      cases hx
  connected := hs.connected
  whole := hs.whole
  reads := hs.reads

/-- What the order of the events has to be, said about pairs of them. -/
theorem Consistent.of_pairwise (hc : ∀ c, .data c ∈ events → c.length ≤ recvBufSize - 1 ∧ NulFree c)
    (he : events.Pairwise fun x y => x = .data [] → y = .data [])
    (hb : events.Pairwise fun x y => x = .ebadf → y = .ebadf) : Consistent events where
  chunk := hc
  ended := by
    rintro a b rfl e hmem
    have htail := (List.pairwise_append.mp he).2.1
    exact (List.pairwise_cons.mp htail).1 e hmem rfl
  bad := by
    rintro a b rfl e hmem
    have htail := (List.pairwise_append.mp hb).2.1
    exact (List.pairwise_cons.mp htail).1 e hmem rfl

/-- Chunks, and then the end of the stream. -/
theorem consistent_chunks {chunks : List Bytes} (hc : ∀ c ∈ chunks, Chunk c)
    (hn : NulFree chunks.flatten) (m : Nat) :
    Consistent (chunks.map .data ++ List.replicate m (.data [])) := by
  have hend : ∀ e ∈ List.replicate m (Event.data []), e = .data [] := fun e he =>
    (List.mem_replicate.mp he).2
  refine Consistent.of_pairwise ?_ ?_ ?_
  · intro c hmem
    rcases List.mem_append.mp hmem with hmem | hmem
    · obtain ⟨d, hd, he⟩ := List.mem_map.mp hmem
      obtain rfl : d = c := by simpa using he
      exact ⟨(hc d hd).2, fun h0 => hn (List.mem_flatten.mpr ⟨d, hd, h0⟩)⟩
    · cases hend _ hmem
      exact ⟨by simp [recvBufSize], by simp [NulFree]⟩
  · refine List.pairwise_append.mpr ⟨?_, ?_, fun _ _ y hy _ => hend y hy⟩
    · refine List.Pairwise.imp_of_mem ?_ (List.pairwise_of_forall (R := fun _ _ => True) fun _ _ => trivial)
      intro x y hx _ _ he
      obtain ⟨d, hd, rfl⟩ := List.mem_map.mp hx
      cases he
      exact absurd rfl (hc [] hd).1
    · refine List.Pairwise.imp_of_mem ?_ (List.pairwise_of_forall (R := fun _ _ => True) fun _ _ => trivial)
      exact fun _ hy _ _ => hend _ hy
  · refine List.Pairwise.imp_of_mem ?_ (List.pairwise_of_forall (R := fun _ _ => True) fun _ _ => trivial)
    intro x y hx _ _ he
    subst he
    rcases List.mem_append.mp hx with hx | hx
    · obtain ⟨d, -, he⟩ := List.mem_map.mp hx
      cases he
    · cases hend _ hx

/-- What `socket_readline` does before it looks for logic errors: the list of tokens, when there
is a line. -/
def readTokens : Act Sock (Option Addr) := do
  let line ← strNew true true
  let tok ← onHeap listNew
  match ← readLoop line with
  | .line line => do
    onHeap (strSplit tok line 10)
    pure (some tok)
  | _ => pure none

/-- In a state that agrees with a reader, an unfinished line can be continued. -/
theorem readTokens_ready {r : Reader} {t : Sock} {tok : Addr} (hr : Rel s r) (hg : Good r)
    (hrun : readTokens.run s = .ok (some tok) t) (hfrag : t.fragmented = true) :
    ∃ ws, ws ≠ [] ∧ Path t.heap.entry ws none ∧
      t.heap.list t.readBuf = some ⟨ws.length, first ws none, last none ws⟩ ∧
      ∃ n a b, t.heap.list tok = some ⟨n, some a, b⟩ := by
  obtain ⟨line, hline, hl, hlz⟩ := strNew_holds s
  obtain ⟨ws, tail, b, hws, hz, hopen⟩ := hr.buffer
  obtain ⟨h₁, hnew, bs⟩ := b.listNew
  have hM : (16 : Nat) ≤ stringMax := by decide
  simp only [readTokens] at hrun
  rw [run_bind_ok hline, run_bind_ok (run_onHeap_ok hnew)] at hrun
  cases hloop : (readLoop line).run { s with heap := h₁ } with
  | halt e =>
    rw [run_bind_halt hloop] at hrun
    cases hrun
  | thrown t' =>
    rw [run_bind_thrown hloop] at hrun
    cases hrun
  | ok got t' =>
    rw [run_bind_ok hloop] at hrun
    cases got with
    | timeout => cases hrun
    | failed => cases hrun
    | line line' =>
      -- Splitting does not change the flag, and neither does reading.
      have hkeep : t'.fragmented = t.fragmented ∧ ∃ h', t = { t' with heap := h' } := by
        dsimp only at hrun
        rw [run_bind, onHeap, run_zoom] at hrun
        cases hsplit : (strSplit s.heap.fresh line' 10).run t'.heap with
        | ok x h' =>
          rw [hsplit] at hrun
          cases hrun
          exact ⟨rfl, h', rfl⟩
        | thrown h' =>
          rw [hsplit] at hrun
          cases hrun
        | halt e =>
          rw [hsplit] at hrun
          cases hrun
      have hflag : r.fragmented = true := by
        have hends := loop_gather (s := { s with heap := h₁ }) (s.reads.length + 1) hg.events
          hr.reads hl (by omega) (by simp [NulFree]) (by rw [hr.reads]; exact Nat.lt_succ_self _)
        change Ends _ _ ((readLoop line).run _) at hends
        rw [hloop] at hends
        obtain ⟨-, -, -, ht⟩ := hends
        rw [← hr.fragmented, ← hfrag, ← hkeep.1, ht.fragmented]
      have hleft := readLoop_left (s := { s with heap := h₁ }) hg bs hws hz hopen hr.fragmented
        hr.connected hr.reads (by simp [hflag]) hl (by omega)
      rw [hloop] at hleft
      obtain ⟨-, -, u, -, hl', hp⟩ := hleft
      obtain ⟨h₂, x, xs, hsplit, -, -, bs₂⟩ := hp.split hl'
      dsimp only at hrun
      rw [run_bind_ok (run_onHeap_ok hsplit)] at hrun
      cases hrun
      obtain ⟨hne, rfl⟩ := hp.unfinished hflag
      exact ⟨ws, hne, bs₂.queue.path, bs₂.readBuf_eq, _, x.1, _, bs₂.tok_eq⟩

/-- The tests for logic errors never fail. Whatever is done about them, every run is the same, and
when a line has been read while the last one is unfinished, the buffer is not empty, its tail is its
last entry, and there is a first token. -/
theorem logic_errors_unreachable {dests : List Str} (hc : Consistent events) (hs : Opened s events)
    (hd : ∀ d ∈ dests, d.WF) :
    (∀ logicError, (attemptAll (socketReadlineOr logicError) dests).run s =
      (attemptAll socketReadline dests).run s) ∧
    ∀ rs s' tok t, (attemptAll socketReadline dests).run s = .ok rs s' →
      readTokens.run s' = .ok (some tok) t → t.fragmented = true →
      ∃ ws, ws ≠ [] ∧ Path t.heap.entry ws none ∧
        t.heap.list t.readBuf = some ⟨ws.length, first ws none, last none ws⟩ ∧
        ∃ n a b, t.heap.list tok = some ⟨n, some a, b⟩ := by
  obtain ⟨hsame, hrel⟩ := attemptAll_rel hs.rel hc.good hd
  refine ⟨hsame, ?_⟩
  intro rs s' tok t hrun htok hfrag
  obtain ⟨r', hr', hg'⟩ := hrel rs s' hrun
  exact readTokens_ready hr' hg' htok hfrag

/-- A fresh socket. -/
def freshSock (chunks : List Bytes) : Sock :=
  ⟨⟨fun _ => none, Function.update (fun _ => none) 0 (some ⟨0, none, none⟩), 1⟩, 0, 3, true, false,
    false, chunks.map .data⟩

theorem fresh_freshSock (chunks : List Bytes) : Fresh (freshSock chunks) chunks :=
  ⟨rfl, Nat.zero_lt_one, rfl, rfl, rfl⟩

/-- A line and a half, an interrupt, the rest of the second line, a timeout, and the end. -/
def someEvents : List Event :=
  [.data [97, 10, 98], .eintr, .data [99, 10], .eagain, .data [], .data []]

/-- Two calls on these events; the second one finds its line unfinished in the buffer. -/
theorem logic_errors_unreachable_someEvents :
    (attemptAll (socketReadlineOr (stop .abort)) [(ofText []).1, (ofText []).1]).run
        { freshSock [] with reads := someEvents } =
      (attemptAll socketReadline [(ofText []).1, (ofText []).1]).run
        { freshSock [] with reads := someEvents } := by
  have hc : Consistent someEvents := by
    refine Consistent.of_pairwise ?_ (by decide) (by decide)
    intro c hc
    simp only [someEvents, List.mem_cons, Event.data.injEq, List.not_mem_nil, or_false,
      reduceCtorEq, false_or] at hc
    rcases hc with rfl | rfl | rfl | rfl <;> decide
  have hs : Opened { freshSock [] with reads := someEvents } someEvents :=
    ⟨(fresh_freshSock []).opened.readBuf, (fresh_freshSock []).opened.lists, rfl, rfl, rfl⟩
  exact (logic_errors_unreachable hc hs (by simp [(ofText []).2])).1 _

end NcSocket
