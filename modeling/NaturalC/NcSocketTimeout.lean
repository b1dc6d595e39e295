import Mathlib.Data.List.Flatten
import NaturalC.NcSocketEof

/-!
# Timeouts in the middle of a line

When `read(2)` runs into the timeout, `socket_readline` returns at once. A fragment that an earlier call has
left in the input buffer stays there, but what this call has read so far is in a string of its own and goes
with it. The lines that are returned are those of the stream without these chunks.
-/
namespace NcSocket

open Throwing Throwing.Act NcString NcList NcSplit Linked Lines

/-- What `read(2)` can return while the connection is there. -/
def Event.Live : Event → Prop
  | .data c => Chunk c
  | .ebadf => False
  | _ => True

/-- An event that makes a call return without a line. -/
def Event.stops : Event → Bool
  | .eagain => true
  | .error => true
  | _ => false

def Event.chunk? : Event → Option Bytes
  | .data c => some c
  | _ => none

/-- The chunks that are read, one after the other. -/
def chunksOf (es : List Event) : List Bytes := es.filterMap Event.chunk?

/-- The call that these events come to is stopped before there is a newline. -/
def stopsEarly : List Event → Bool
  | [] => false
  | .data c :: es => if 10 ∈ c then false else stopsEarly es
  | .eintr :: es => stopsEarly es
  | .ebadf :: _ => false
  | .eagain :: _ => true
  | .error :: _ => true

/-- The chunks that are not lost. -/
def kept : List Event → List Bytes
  | [] => []
  | .data c :: es => if 10 ∉ c ∧ stopsEarly es = true then kept es else c :: kept es
  | _ :: es => kept es

/-- No call is stopped after it has read something: between a chunk without a newline and a timeout or an error
there is another chunk. -/
def NeverStopped (es : List Event) : Prop :=
  ∀ a c m e b, es = a ++ .data c :: (List.replicate m .eintr ++ e :: b) → e.stops = true → 10 ∈ c

/-- A text without a newline fits into a string, and so does one more chunk. -/
def ShortLines (stream : Bytes) : Prop :=
  ∀ x, List.IsInfix x stream → 10 ∉ x → x.length + recvBufSize ≤ stringMax

variable {es : List Event} {acc : Bytes}

/-! ## What is kept -/

theorem kept_sublist (es : List Event) : List.Sublist (kept es) (chunksOf es) := by
  induction es with
  | nil => exact .slnil
  | cons e es ih =>
    cases e with
    | data c =>
      rw [kept]
      split
      · exact ih.cons c
      · exact ih.cons_cons c
    | _ => exact ih

/-- Only chunks without a newline get lost. -/
theorem count_kept (es : List Event) : (kept es).flatten.count 10 = (chunksOf es).flatten.count 10 := by
  induction es with
  | nil => rfl
  | cons e es ih =>
    cases e with
    | data c =>
      have hchunks : chunksOf (.data c :: es) = c :: chunksOf es := rfl
      rw [kept, hchunks, List.flatten_cons, List.count_append]
      split
      · rename_i hlost
        rw [ih, List.count_eq_zero.mpr hlost.1, Nat.zero_add]
      · rw [List.flatten_cons, List.count_append, ih]
    | _ => exact ih

/-- A call that is stopped early has been stopped behind its last chunk. -/
theorem NeverStopped.tail {e : Event} (h : NeverStopped (e :: es)) : NeverStopped es := by
  intro a c m x b hes hx
  exact h (e :: a) c m x b (by rw [hes]; rfl) hx

theorem stopsEarly_of_stops (m : Nat) {e : Event} (he : e.stops = true) (b : List Event) :
    stopsEarly (List.replicate m .eintr ++ e :: b) = true := by
  induction m with
  | zero =>
    cases e with
    | eagain => rfl
    | error => rfl
    | _ => cases he
  | succ m ih => exact ih

/-- The other way round: the last chunk in front of what stops the call has no newline. -/
theorem NeverStopped.not_stopsEarly {c : Bytes} (h : NeverStopped (.data c :: es)) (hc : 10 ∉ c) :
    stopsEarly es = false := by
  -- The interrupts between the chunk and the events that are left.
  have hgo : ∀ m, NeverStopped (.data c :: (List.replicate m .eintr ++ es)) → stopsEarly es = false := by
    clear h
    induction es generalizing c with
    | nil =>
      intro m _
      rfl
    | cons e es ih =>
      intro m h
      cases e with
      | data d =>
        by_cases hd : 10 ∈ d
        · rw [stopsEarly, if_pos hd]
        · rw [stopsEarly, if_neg hd]
          apply ih hd 0
          intro a c' m' x b hes hx
          refine h (.data c :: (List.replicate m .eintr ++ a)) c' m' x b ?_ hx
          rw [List.replicate_zero, List.nil_append] at hes
          rw [hes]
          simp
      | eintr =>
        apply ih hc (m + 1)
        rw [List.replicate_succ', List.append_assoc]
        exact h
      | ebadf => rfl
      | eagain => exact absurd (h [] c m .eagain es rfl rfl) hc
      | error => exact absurd (h [] c m .error es rfl rfl) hc
  exact hgo 0 h

/-- If nothing gets lost, the first chunk does not. -/
theorem kept_all_data {c : Bytes} (h : kept (.data c :: es) = chunksOf (.data c :: es)) :
    ¬ (10 ∉ c ∧ stopsEarly es = true) ∧ kept es = chunksOf es := by
  have hchunks : chunksOf (.data c :: es) = c :: chunksOf es := rfl
  rw [kept, hchunks] at h
  split at h
  · have hlen := (kept_sublist es).length_le
    rw [h, List.length_cons] at hlen
    omega
  · rename_i hkeep
    exact ⟨hkeep, (List.cons.inj h).2⟩

theorem neverStopped_iff (es : List Event) : NeverStopped es ↔ kept es = chunksOf es := by
  induction es with
  | nil =>
    refine ⟨fun _ => rfl, ?_⟩
    rintro - a c m e b hes
    simp at hes
  | cons e es ih =>
    constructor
    · intro h
      have hrest := ih.mp h.tail
      cases e with
      | data c =>
        have hkeep : ¬ (10 ∉ c ∧ stopsEarly es = true) := by
          rintro ⟨hc, hstop⟩
          rw [h.not_stopsEarly hc] at hstop
          cases hstop
        rw [kept, if_neg hkeep, hrest]
        rfl
      | _ => exact hrest
    · intro hkept a c m x b hes hx
      cases a with
      | nil =>
        obtain ⟨rfl, rfl⟩ := List.cons.inj hes
        by_contra hc
        exact (kept_all_data hkept).1 ⟨hc, stopsEarly_of_stops m hx b⟩
      | cons d a =>
        rw [List.cons_append] at hes
        obtain ⟨rfl, rfl⟩ := List.cons.inj hes
        refine ih.mpr ?_ a c m x b rfl hx
        cases e with
        | data d => exact (kept_all_data hkept).2
        | _ => exact hkept

/-! ## One call -/

theorem ShortLines.part {s t : Bytes} (h : ShortLines t) (hs : List.IsInfix s t) : ShortLines s := by
  intro x hx
  exact h x (hx.trans hs)

/-- How the reading ends while the connection is there: stopped by an event, with a newline, or not at all. -/
theorem gather_live (hlive : ∀ e ∈ es, e.Live) (hacc : 10 ∉ acc)
    (hshort : ShortLines (acc ++ (chunksOf es).flatten)) :
    (∃ g es', gather true acc es = (g, true, es') ∧ (g = .timeout ∨ g = .failed) ∧ stopsEarly es = true ∧
      kept es = kept es' ∧ List.IsSuffix es' es ∧ es'.length < es.length) ∨
    (∃ pre c es', gather true acc es = (.line (acc ++ (pre.flatten ++ c)), true, es') ∧ stopsEarly es = false ∧
      kept es = pre ++ c :: kept es' ∧ 10 ∉ pre.flatten ∧ 10 ∈ c ∧
      acc.length + pre.flatten.length + c.length < stringMax ∧ List.IsSuffix es' es) ∨
    (gather true acc es = (.blocked, true, []) ∧ stopsEarly es = false ∧ 10 ∉ (kept es).flatten) := by
  induction es generalizing acc with
  | nil => exact Or.inr (Or.inr ⟨rfl, rfl, by simp [kept]⟩)
  | cons e es ih =>
    have hrest : ∀ x ∈ es, x.Live := fun x hx => hlive x (List.mem_cons_of_mem _ hx)
    cases e with
    | eintr =>
      rcases ih hrest hacc hshort with
        ⟨g, es', hg, hstop, hearly, hkept, hsuf, hlen⟩ | ⟨pre, c, es', hg, hearly, hkept, hpre, hc, hmax, hsuf⟩ |
          ⟨hg, hrest⟩
      · exact Or.inl ⟨g, es', hg, hstop, hearly, hkept, hsuf.trans (List.suffix_cons _ _), Nat.lt_succ_of_lt hlen⟩
      · exact Or.inr (Or.inl ⟨pre, c, es', hg, hearly, hkept, hpre, hc, hmax, hsuf.trans (List.suffix_cons _ _)⟩)
      · exact Or.inr (Or.inr ⟨hg, hrest⟩)
    | ebadf => exact (hlive _ List.mem_cons_self).elim
    | eagain => exact Or.inl ⟨_, es, rfl, Or.inl rfl, rfl, rfl, List.suffix_cons _ _, Nat.lt_succ_self _⟩
    | error => exact Or.inl ⟨_, es, rfl, Or.inr rfl, rfl, rfl, List.suffix_cons _ _, Nat.lt_succ_self _⟩
    | data c =>
      have hchunk : Chunk c := hlive _ List.mem_cons_self
      have hchunks : chunksOf (.data c :: es) = c :: chunksOf es := rfl
      rw [hchunks, List.flatten_cons, ← List.append_assoc] at hshort
      have hfit : ¬ stringMax ≤ acc.length + c.length := by
        have hle := hshort acc ⟨[], c ++ (chunksOf es).flatten, by simp⟩ hacc
        have hsize := hchunk.2
        simp only [recvBufSize] at hle hsize
        omega
      by_cases hc : 10 ∈ c
      · have hgather : gather true acc (.data c :: es) = (.line (acc ++ c), true, es) := by
          rw [gather, if_neg hchunk.1, if_neg hfit, if_neg (by simp [hc])]
        refine Or.inr (Or.inl ⟨[], c, es, by simpa using hgather, by rw [stopsEarly, if_pos hc], ?_, by simp, hc,
          by simpa using hfit, List.suffix_cons _ _⟩)
        rw [kept, if_neg (fun hno => hno.1 hc), List.nil_append]
      · have hacc' : 10 ∉ acc ++ c := by simp [hacc, hc]
        have hgather : gather true acc (.data c :: es) = gather true (acc ++ c) es := by
          rw [gather, if_neg hchunk.1, if_neg hfit, if_pos ⟨rfl, hacc'⟩]
        rw [hgather, stopsEarly, if_neg hc]
        rcases ih hrest hacc' hshort with
          ⟨g, es', hg, hstop, hearly, hkept, hsuf, hlen⟩ | ⟨pre, d, es', hg, hearly, hkept, hpre, hd, hmax, hsuf⟩ |
            ⟨hg, hearly, hnone⟩
        · refine Or.inl ⟨g, es', hg, hstop, hearly, ?_, hsuf.trans (List.suffix_cons _ _), Nat.lt_succ_of_lt hlen⟩
          rw [kept, if_pos ⟨hc, hearly⟩, hkept]
        · refine Or.inr (Or.inl ⟨c :: pre, d, es', by simpa using hg, hearly, ?_, by simp [hc, hpre], hd,
            by simpa [Nat.add_assoc] using hmax, hsuf.trans (List.suffix_cons _ _)⟩)
          rw [kept, if_neg (by simp [hearly]), hkept, List.cons_append]
        · refine Or.inr (Or.inr ⟨hg, hearly, ?_⟩)
          rw [kept, if_neg (by simp [hearly]), List.flatten_cons]
          simp [hc, hnone]

/-- The same reader without the chunks that get lost. -/
def Reader.quiet (r : Reader) : Reader := { r with events := (kept r.events).map .data }

/-- After `k` lines, the reader is where it would be without the chunks that get lost. -/
structure Awaits (stream seen : Bytes) (k : Nat) (r : Reader) : Prop where
  reads : Reads stream seen k (kept r.events) [] r.quiet
  live : ∀ e ∈ r.events, e.Live
  short : ShortLines (chunksOf r.events).flatten

variable {stream seen : Bytes} {k n : Nat} {r : Reader}

theorem chunksOf_isInfix {a b : List Event} (h : List.IsSuffix a b) :
    List.IsInfix (chunksOf a).flatten (chunksOf b).flatten := by
  obtain ⟨c, rfl⟩ := h
  exact ⟨(chunksOf c).flatten, [], by simp [chunksOf]⟩

/-- What is done with the text that has been read does not depend on what is still to come. -/
theorem accept_quiet (r : Reader) (u : Bytes) (c : Bool) (es es' : List Event) :
    r.accept u c es = ((r.quiet.accept u c es').1, { (r.quiet.accept u c es').2 with events := es }) := by
  have hover : r.quiet.overlong u ↔ r.overlong u := Iff.rfl
  by_cases hlong : r.overlong u
  · rw [Reader.accept, if_pos hlong, Reader.accept, if_pos (hover.mpr hlong)]
    rfl
  · rw [Reader.accept, if_neg hlong, Reader.accept, if_neg (mt hover.mp hlong)]
    rfl

theorem readline_ready (h : r.buf ≠ [] ∧ r.fragmented = false) :
    r.readline = (.got (r.buf.head?.getD []), { r with buf := r.buf.tail }) := by
  rw [Reader.readline, if_pos h]

/-- A call that gets a line from the socket. -/
theorem readline_line (h : ¬ (r.buf ≠ [] ∧ r.fragmented = false)) {u : Bytes} {c : Bool}
    (hg : gather r.connected [] r.events = (.line u, c, es)) : r.readline = r.accept u c es := by
  rw [Reader.readline, if_neg h, hg]

/-- An event that stops a call leaves what is kept as it was. -/
theorem Awaits.stopped (A : Awaits stream seen k r) (hkept : kept r.events = kept es)
    (hsuf : List.IsSuffix es r.events) : Awaits stream seen k { r with connected := true, events := es } where
  reads := by
    have hconn : r.connected = true := A.reads.connected
    have hquiet : Reader.quiet { r with connected := true, events := es } = r.quiet := by
      rw [Reader.quiet, Reader.quiet, hkept, ← hconn]
    rw [hquiet, ← hkept]
    exact A.reads
  live e he := A.live e (hsuf.subset he)
  short := A.short.part (chunksOf_isInfix hsuf)

theorem Awaits.not_ready (A : Awaits stream seen k r) (hneed : (cut 10 seen).2 = [] → r.buf = []) :
    ¬ (r.buf ≠ [] ∧ r.fragmented = false) := A.reads.not_ready (not_or_of_imp hneed)

/-- A call that comes to a newline returns what it would return without the chunks that get lost. -/
theorem Awaits.newline (S : Readable stream) (A : Awaits stream seen k r)
    (hneed : (cut 10 seen).2 = [] → r.buf = [])
    {pre : List Bytes} {c : Bytes} (hg : gather true [] r.events = (.line (pre.flatten ++ c), true, es))
    (hkept : kept r.events = pre ++ c :: kept es) (hpre : 10 ∉ pre.flatten) (hc : 10 ∈ c)
    (hmax : pre.flatten.length + c.length < stringMax) (hsuf : List.IsSuffix es r.events) :
    ∃ t seen' r', r.readline = (.got t, r') ∧ ((segments 10 stream).map bare)[k]? = some t ∧
      Awaits stream seen' (k + 1) r' ∧ r'.events.length ≤ r.events.length := by
  have hconn : r.connected = true := A.reads.connected
  have R := A.reads
  rw [hkept] at R
  have hready := A.not_ready hneed
  obtain ⟨t, r₁, hcall, ht, R₁⟩ := R.newline S hpre hc (not_or_of_imp hneed)
  have hquiet : gather r.quiet.connected [] r.quiet.events =
      (.line (pre.flatten ++ c), true, (kept es).map .data) := by
    have hevents : r.quiet.events = pre.map .data ++ .data c :: (kept es).map .data := by
      rw [Reader.quiet, hkept, List.map_append, List.map_cons]
    rw [R.connected, hevents]
    exact gather_newline pre (fun d hd => R.chunks d (by simp [hd])) hpre hc hmax _
  have hready' : ¬ (r.quiet.buf ≠ [] ∧ r.quiet.fragmented = false) := hready
  rw [readline_line hready' hquiet] at hcall
  have hread : r.readline = (.got t, { r₁ with events := es }) := by
    rw [← hconn] at hg
    rw [readline_line hready hg, hconn, accept_quiet r _ _ es ((kept es).map .data), hcall]
  have hsame : Reader.quiet { r₁ with events := es } = r₁ := by
    have hevents := R₁.events
    rw [List.append_nil] at hevents
    rw [Reader.quiet, ← hevents]
  refine ⟨t, seen ++ (pre.flatten ++ c), _, hread, ht, ⟨?_, fun e he => A.live e (hsuf.subset he),
    A.short.part (chunksOf_isInfix hsuf)⟩, hsuf.length_le⟩
  rw [hsame]
  exact R₁

/-- A call returns the next line, or is stopped and leaves what is kept as it was, or waits for a newline. -/
theorem Awaits.readline (S : Readable stream) (A : Awaits stream seen k r) :
    (∃ t seen' r', r.readline = (.got t, r') ∧ ((segments 10 stream).map bare)[k]? = some t ∧
      Awaits stream seen' (k + 1) r' ∧ r'.events.length ≤ r.events.length) ∨
    (∃ g r', r.readline = (g, r') ∧ (g = .timeout ∨ g = .failed) ∧ Awaits stream seen k r' ∧
      r'.events.length < r.events.length) ∨
    (r.readline.1 = .blocked ∧ 10 ∉ (kept r.events).flatten ∧ ((cut 10 seen).2 = [] → r.buf = [])) := by
  have hconn : r.connected = true := A.reads.connected
  have hfrag : r.fragmented = decide ((cut 10 seen).2 ≠ []) := A.reads.fragmented
  by_cases hbuf : (cut 10 seen).2 = [] ∧ r.buf ≠ []
  · have hready : r.buf ≠ [] ∧ r.fragmented = false := ⟨hbuf.2, by simp [hfrag, hbuf.1]⟩
    obtain ⟨t, r₁, hcall, ht, R⟩ := A.reads.buffered hbuf.1 hbuf.2
    have hquiet : r.quiet.buf ≠ [] ∧ r.quiet.fragmented = false := hready
    rw [readline_ready hquiet] at hcall
    cases hcall
    exact Or.inl ⟨_, seen, { r with buf := r.buf.tail }, readline_ready hready, ht, ⟨R, A.live, A.short⟩, le_rfl⟩
  · have hneed : (cut 10 seen).2 = [] → r.buf = [] := by
      intro hrest
      by_contra hne
      exact hbuf ⟨hrest, hne⟩
    have hready : ¬ (r.buf ≠ [] ∧ r.fragmented = false) := A.not_ready hneed
    have hacc : (10 : UInt8) ∉ ([] : Bytes) := by simp
    rcases gather_live A.live hacc A.short with
      ⟨g, es, hg, hstop, -, hkept, hsuf, hlen⟩ | ⟨pre, c, es, hg, -, hkept, hpre, hc, hmax, hsuf⟩ |
        ⟨hg, -, hnone⟩
    · have A' := A.stopped hkept hsuf
      rw [Reader.readline, if_neg hready, hconn, hg]
      rcases hstop with rfl | rfl
      · exact Or.inr (Or.inl ⟨_, _, rfl, Or.inl rfl, A', hlen⟩)
      · exact Or.inr (Or.inl ⟨_, _, rfl, Or.inr rfl, A', hlen⟩)
    · exact Or.inl (A.newline S hneed hg hkept hpre hc (by simpa using hmax) hsuf)
    · refine Or.inr (Or.inr ⟨?_, hnone, hneed⟩)
      rw [Reader.readline, if_neg hready, hconn, hg]

/-! ## Runs -/

/-- The lines that so many calls get. -/
def Reader.lines (n : Nat) (r : Reader) : List Bytes := (r.replies n).filterMap Reply.line?

/-- No call gets anything but the next line. -/
theorem Awaits.lines_prefix (S : Readable stream) (A : Awaits stream seen k r) (n : Nat)
    (hn : ∀ x ∈ r.replies n, x ≠ .blocked) :
    List.IsPrefix (r.lines n) (((segments 10 stream).map bare).drop k) := by
  induction n generalizing seen k r with
  | zero => exact List.nil_prefix
  | succ n ih =>
    rw [Reader.replies] at hn
    rw [Reader.lines, Reader.replies, List.filterMap_cons]
    rcases A.readline S with ⟨t, seen', r', hcall, ht, A', -⟩ | ⟨g, r', hcall, hg, A', -⟩ | ⟨hblocked, -⟩
    · rw [hcall] at hn ⊢
      obtain ⟨hlt, hget⟩ := List.getElem?_eq_some_iff.mp ht
      rw [List.drop_eq_getElem_cons hlt, hget]
      exact List.cons_prefix_cons.mpr ⟨rfl, ih A' fun x hx => hn x (List.mem_cons_of_mem _ hx)⟩
    · rw [hcall] at hn ⊢
      have hrest := ih A' fun x hx => hn x (List.mem_cons_of_mem _ hx)
      rcases hg with rfl | rfl
      · exact hrest
      · exact hrest
    · exact absurd hblocked (hn _ List.mem_cons_self)

/-- After enough calls, all lines are there. -/
theorem Awaits.lines_complete (S : Readable stream) (hclosed : (cut 10 stream).2 = [])
    (A : Awaits stream seen k r) {m : Nat} (hm : (cut 10 stream).1.length - k + r.events.length ≤ m) :
    ∃ n, (∀ x ∈ r.replies n, x ≠ .blocked) ∧ r.lines n = ((segments 10 stream).map bare).drop k := by
  induction m generalizing seen k r with
  | zero =>
    refine ⟨0, by simp [Reader.replies], ?_⟩
    rw [segments_closed hclosed, List.drop_of_length_le (by rw [List.length_map]; omega)]
    rfl
  | succ m ih =>
    rcases A.readline S with
      ⟨t, seen', r', hcall, ht, A', hle⟩ | ⟨g, r', hcall, hg, A', hlen⟩ | ⟨-, hnone, hneed⟩
    · obtain ⟨hlt, hget⟩ := List.getElem?_eq_some_iff.mp ht
      have hk : k < (cut 10 stream).1.length := by
        rwa [List.length_map, segments_closed hclosed] at hlt
      obtain ⟨n, hn, hlines⟩ := ih A' (by omega)
      refine ⟨n + 1, ?_, ?_⟩
      · rw [Reader.replies, hcall]
        exact List.forall_mem_cons.mpr ⟨by simp, hn⟩
      · rw [Reader.lines, Reader.replies, hcall, List.drop_eq_getElem_cons hlt, hget, ← hlines]
        rfl
    · obtain ⟨n, hn, hlines⟩ := ih A' (by omega)
      refine ⟨n + 1, ?_, ?_⟩
      · rw [Reader.replies, hcall]
        refine List.forall_mem_cons.mpr ⟨?_, hn⟩
        rcases hg with rfl | rfl
        · simp
        · simp
      · rw [Reader.lines, Reader.replies, hcall, ← hlines]
        rcases hg with rfl | rfl
        · rfl
        · rfl
    · by_cases hk : (cut 10 stream).1.length ≤ k
      · refine ⟨0, by simp [Reader.replies], ?_⟩
        rw [segments_closed hclosed, List.drop_of_length_le (by rwa [List.length_map])]
        rfl
      · have hmore := A.reads.more (Nat.lt_of_not_le hk) hneed fun _ => hclosed
        exact absurd hmore hnone

/-! ## The flag for a timeout -/

/-- A client that clears the flag before a call and looks at it afterwards. -/
def awaitLine (dest : Str) : Act Sock (Option Str) := do
  let s ← get
  put { s with timeout := false }
  let d ← socketReadline dest
  let s ← get
  pure (if s.timeout then none else some d)

/-- The lines that a run of such calls has got. -/
def linesGot (rs : List (Option (Option Str))) : List Bytes := rs.filterMap fun x => x.join.map Str.text

variable {s t : Sock} {line : Str}

/-- The flag is set by what a timeout leaves, and by nothing else. -/
def Flagged (s : Sock) (got : Got) (t : Sock) : Prop :=
  match got with
  | .timeout => t.timeout = true
  | _ => t.timeout = s.timeout

theorem endRead_flag {x : Str ⊕ Got} (h : (endRead line).run s = .ok x t) :
    t = s ∧ (x = .inl line ∨ x = .inr (.line line)) := by
  rw [endRead] at h
  split at h
  · cases h
  · rw [run_bind_get] at h
    obtain ⟨mem, s₁, hmem, h⟩ := exists_of_run_bind h
    obtain ⟨text, s₂, htext, h⟩ := exists_of_run_bind h
    rw [eq_of_run_deref htext, eq_of_run_deref hmem] at h
    split at h
    · cases h
      exact ⟨rfl, Or.inl rfl⟩
    · cases h
      exact ⟨rfl, Or.inr rfl⟩

theorem whileRead_flag {x : Str ⊕ Got} (h : (whileRead line).run s = .ok x t) :
    t = s ∧ (x = .inl line ∨ x = .inr (.line line)) := by
  rw [whileRead, run_bind_get] at h
  split at h
  · cases h
    exact ⟨rfl, Or.inl rfl⟩
  · exact endRead_flag h

/-- One round either goes on with the flag as it was, or ends and has set it as it should. -/
theorem readRound_flag {x : Str ⊕ Got} (h : (readRound line).run s = .ok x t) :
    (∃ l, x = .inl l ∧ t.timeout = s.timeout) ∨ ∃ got, x = .inr got ∧ Flagged s got t := by
  rw [readRound] at h
  obtain ⟨e, s₁, hread, h⟩ := exists_of_run_bind h
  have hs₁ : s₁.timeout = s.timeout := by
    rw [read, run_bind_get] at hread
    split at hread
    · cases hread
    · cases hread
      rfl
  -- What is left when there is no timeout.
  have hrest : ∀ {l : Str} {u : Sock}, u.timeout = s.timeout →
      t = u ∧ (x = .inl l ∨ x = .inr (.line l)) →
      (∃ l, x = .inl l ∧ t.timeout = s.timeout) ∨ ∃ got, x = .inr got ∧ Flagged s got t := by
    rintro l u hu ⟨rfl, rfl | rfl⟩
    · exact Or.inl ⟨l, rfl, hu⟩
    · exact Or.inr ⟨_, rfl, hu⟩
  cases e with
  | eintr =>
    cases h
    exact Or.inl ⟨line, rfl, hs₁⟩
  | eagain =>
    cases h
    exact Or.inr ⟨_, rfl, rfl⟩
  | ebadf =>
    dsimp only at h
    rw [run_bind_get, run_bind_put] at h
    exact hrest (u := { s₁ with connected := false, fd := -1 }) hs₁ (whileRead_flag h)
  | error =>
    cases h
    exact Or.inr ⟨_, rfl, hs₁⟩
  | data bytes =>
    dsimp only at h
    split at h
    · obtain ⟨⟨u, line'⟩, s₂, hcat, h⟩ := exists_of_run_bind h
      have hs₂ : s₂ = s₁ := (leaves_onLocal _ _ _).of_ok hcat
      rw [hs₂] at h
      exact hrest hs₁ (whileRead_flag h)
    · rw [run_bind_get, run_bind_put] at h
      exact hrest (u := { s₁ with connected := false }) hs₁ (endRead_flag h)

theorem loop_flag {got : Got} (n : Nat) (h : (loop readRound n line).run s = .ok got t) : Flagged s got t := by
  induction n generalizing s line with
  | zero => cases h
  | succ n ih =>
    rw [loop] at h
    obtain ⟨x, s₁, hround, h⟩ := exists_of_run_bind h
    rcases readRound_flag hround with ⟨l, rfl, hs₁⟩ | ⟨got', rfl, hflag⟩
    · have hrest := ih h
      cases got with
      | timeout => exact hrest
      | line l => exact Eq.trans hrest hs₁
      | failed => exact Eq.trans hrest hs₁
    · cases h
      exact hflag

theorem onHeap_flag {α : Type} {m : Act Heap α} {a : α} (h : (onHeap m).run s = .ok a t) :
    t.timeout = s.timeout := by
  rw [onHeap, run_zoom] at h
  cases hm : m.run s.heap with
  | ok b h' =>
    rw [hm] at h
    cases h
    rfl
  | thrown h' =>
    rw [hm] at h
    cases h
  | halt e =>
    rw [hm] at h
    cases h

/-- Nothing that is done with a line changes the flag. -/
theorem acceptOr_flag {logicError : Act Heap Unit} {s₀ : Sock} {dest fragment d : Str} {tok : Addr}
    (hrun : (acceptOr logicError s₀ dest line fragment tok).run s = .ok d t) : t.timeout = s.timeout := by
  rw [acceptOr] at hrun
  obtain ⟨u₁, t₁, hsplit, hrun⟩ := exists_of_run_bind hrun
  obtain ⟨u₂, t₂, hcontinue, hrun⟩ := exists_of_run_bind hrun
  obtain ⟨u₃, t₃, hmerge, hrun⟩ := exists_of_run_bind hrun
  obtain ⟨same, t₄, hsame, hrun⟩ := exists_of_run_bind hrun
  rw [run_bind_get, run_bind_put] at hrun
  obtain ⟨d', t₅, hshift, hrun⟩ := exists_of_run_bind hrun
  obtain ⟨u₅, t₆, hdestroy, hrun⟩ := exists_of_run_bind hrun
  cases hrun
  have ht₄ : t₄ = t₃ := (leaves_attempt (leaves_onLocal _ _ _)).of_ok hsame
  have ht₅ := onHeap_flag hshift
  dsimp only at ht₅
  calc t.timeout = t₅.timeout := onHeap_flag hdestroy
    _ = t₃.timeout := by rw [ht₅, ht₄]
    _ = t₂.timeout := onHeap_flag hmerge
    _ = t₁.timeout := onHeap_flag hcontinue
    _ = s.timeout := onHeap_flag hsplit

/-- After a call the flag says whether the call has run into the timeout. -/
theorem socketReadline_flag (hr : Rel s r) (hg : Good r) {dest d : Str}
    (hrun : (socketReadline dest).run s = .ok d t) :
    t.timeout = if r.readline.1 = .timeout then true else s.timeout := by
  obtain ⟨ws, tail, b, hws, hz, hopen⟩ := hr.buffer
  obtain ⟨line, h₁, ⟨hl, hlz⟩, bs, hstart⟩ := socketReadlineOr_start b hws hr.fragmented dest
  rw [← socketReadlineOr_throwing, hstart throwing] at hrun
  by_cases hready : r.buf ≠ [] ∧ r.fragmented = false
  · rw [if_pos hready] at hrun
    obtain ⟨d', t₁, hshift, hrun⟩ := exists_of_run_bind hrun
    obtain ⟨u, t₂, hdestroy, hrun⟩ := exists_of_run_bind hrun
    cases hrun
    rw [readline_ready hready, if_neg (by simp), onHeap_flag hdestroy, onHeap_flag hshift]
  · rw [if_neg hready] at hrun
    obtain ⟨got, t₁, hloop, hrun⟩ := exists_of_run_bind hrun
    have hleft := readLoop_left (s := { s with heap := h₁ }) hg bs hws hz hopen hr.fragmented
      hr.connected hr.reads hready hl hlz
    rw [hloop] at hleft
    rw [readLoop, run_bind_get] at hloop
    have hflag := loop_flag _ hloop
    obtain ⟨g, c, es, hgather⟩ : ∃ g c es, gather r.connected [] r.events = (g, c, es) := ⟨_, _, _, rfl⟩
    rw [hgather] at hleft
    cases got with
    | timeout =>
      obtain ⟨rfl, -⟩ := hleft
      obtain ⟨u, t₂, hdestroy, hrun⟩ := exists_of_run_bind hrun
      cases hrun
      have hreply : r.readline.1 = .timeout := by
        rw [Reader.readline, if_neg hready, hgather]
      rw [if_pos hreply, onHeap_flag hdestroy]
      exact hflag
    | failed =>
      obtain ⟨u, t₂, hdestroy, hrun⟩ := exists_of_run_bind hrun
      cases hrun
    | line line' =>
      obtain ⟨-, -, u, rfl, -⟩ := hleft
      have hreply : r.readline.1 ≠ .timeout := by
        rw [readline_line hready hgather, Reader.accept]
        split
        · simp
        · simp
      rw [if_neg hreply, acceptOr_flag hrun]
      exact hflag

/-- One call of the client, given the reader's reply. -/
def Answers (reply : Reply) (P : Sock → Prop) : Outcome Sock (Option Str) → Prop
  | .ok x s => reply ≠ .blocked ∧ x.map Str.text = reply.line? ∧ P s
  | .thrown s => reply = .failed ∧ P s
  | .halt _ => reply = .blocked

theorem awaitLine_answers (hr : Rel s r) (hg : Good r) {dest : Str} (hd : dest.WF) :
    Answers r.readline.1 (fun s' => Rel s' r.readline.2) ((awaitLine dest).run s) := by
  have hr' : Rel { s with timeout := false } r := ⟨hr.buffer, hr.fragmented, hr.connected, hr.reads⟩
  have hcall := (readline_matches hr' hg hd).2
  rw [awaitLine, run_bind_get, run_bind_put]
  cases hrun : (socketReadline dest).run { s with timeout := false } with
  | ok d t =>
    rw [hrun] at hcall
    have hflag := socketReadline_flag hr' hg hrun
    rw [run_bind_ok hrun, run_bind_get]
    obtain ⟨⟨x, hreply, hx⟩ | ⟨hreply, -⟩, hrel⟩ := hcall
    · rw [hreply, if_neg (by simp)] at hflag
      rw [hflag]
      exact ⟨by simp [hreply], by simp [hreply, Reply.line?, hx.text], hrel⟩
    · rw [hreply, if_pos rfl] at hflag
      rw [hflag]
      exact ⟨by simp [hreply], by simp [hreply, Reply.line?], hrel⟩
  | thrown t =>
    rw [hrun] at hcall
    rw [run_bind_thrown hrun]
    exact hcall
  | halt e =>
    rw [hrun] at hcall
    rw [run_bind_halt hrun]
    exact hcall.1

/-- So many calls of the client, given the reader. -/
def AnswersAll (n : Nat) (r : Reader) : Outcome Sock (List (Option (Option Str))) → Prop
  | .ok rs _ => linesGot rs = r.lines n ∧ ∀ x ∈ r.replies n, x ≠ .blocked
  | .thrown _ => False
  | .halt _ => .blocked ∈ r.replies n

theorem AnswersAll.cons {n : Nat} {x : Option (Option Str)} {o : Outcome Sock (List (Option (Option Str)))}
    (h : AnswersAll n r.readline.2 o) (hx : x.join.map Str.text = r.readline.1.line?)
    (hreply : r.readline.1 ≠ .blocked) {dest : Str} {dests : List Str}
    (hcall : (attempt (awaitLine dest)).run s = .ok x t) (hrest : (attemptAll awaitLine dests).run t = o) :
    AnswersAll (n + 1) r ((attemptAll awaitLine (dest :: dests)).run s) := by
  cases o with
  | ok rs u =>
    rw [run_attemptAll_cons hcall hrest]
    refine ⟨?_, List.forall_mem_cons.mpr ⟨hreply, h.2⟩⟩
    rw [linesGot, List.filterMap_cons, hx, Reader.lines, Reader.replies, List.filterMap_cons]
    cases hline : r.readline.1.line? with
    | none => exact h.1
    | some l => exact congrArg (l :: ·) h.1
  | thrown u => exact h.elim
  | halt e =>
    rw [attemptAll, run_bind_ok hcall, run_bind_halt hrest]
    exact List.mem_cons_of_mem _ h

/-- A run of the client gets the lines that the reader gets, unless it waits for more. -/
theorem attemptAll_awaitLine {dests : List Str} (hr : Rel s r) (hg : Good r) (hd : ∀ d ∈ dests, d.WF) :
    AnswersAll dests.length r ((attemptAll awaitLine dests).run s) := by
  induction dests generalizing s r with
  | nil => exact ⟨rfl, by simp [Reader.replies]⟩
  | cons dest dests ih =>
    have hcall := awaitLine_answers hr hg (hd dest (by simp))
    have hd' : ∀ d ∈ dests, d.WF := fun d hm => hd d (List.mem_cons_of_mem _ hm)
    cases hrun : (awaitLine dest).run s with
    | ok x t =>
      rw [hrun] at hcall
      exact (ih hcall.2.2 hg.readline hd').cons (x := some x) hcall.2.1 hcall.1 (run_attempt_ok hrun) rfl
    | thrown t =>
      rw [hrun] at hcall
      refine (ih hcall.2 hg.readline hd').cons ?_ ?_ (run_attempt_thrown hrun) rfl
      · rw [hcall.1]
        rfl
      · rw [hcall.1]
        simp
    | halt e =>
      rw [hrun] at hcall
      rw [attemptAll, run_bind_halt (run_attempt_halt hrun)]
      have hreply : r.readline.1 = .blocked := hcall
      exact List.mem_cons.mpr (Or.inl hreply.symm)

/-! ## All lines -/

/-- Some number of calls gets all the lines of the stream and nothing else. -/
def Delivers (s : Sock) (stream : Bytes) : Prop :=
  ∃ n, ∀ dests : List Str, dests.length = n → (∀ d ∈ dests, d.WF) →
    ∃ rs t, (attemptAll awaitLine dests).run s = .ok rs t ∧ linesGot rs = (cut 10 stream).1

/-- Events of a live connection with the data of a stream that has no CRs and whose lines are not too long. -/
structure Streams (events : List Event) (stream : Bytes) : Prop where
  live : ∀ e ∈ events, e.Live
  data : (chunksOf events).flatten = stream
  nul : NulFree stream
  cr : 13 ∉ stream
  closed : stream.getLast? = some 10
  short : ShortLines stream

variable {events : List Event}

theorem Streams.consistent (E : Streams events stream) : Consistent events where
  chunk := by
    intro c hc
    refine ⟨(E.live _ hc).2, ?_⟩
    intro h0
    apply E.nul
    rw [← E.data]
    exact List.mem_flatten.mpr ⟨c, List.mem_filterMap.mpr ⟨_, hc, rfl⟩, h0⟩
  ended := by
    rintro a b rfl
    exact absurd rfl (E.live (.data []) (by simp)).1
  bad := by
    rintro a b rfl
    exact (E.live .ebadf (by simp)).elim

theorem Streams.cut_closed (E : Streams events stream) : (cut 10 stream).2 = [] :=
  (cut_spec 10 stream).rest_eq_nil_iff.mpr (Or.inr E.closed)

/-- What is kept of a line is a part of that line. -/
theorem Streams.kept_lines (E : Streams events stream) :
    List.Forall₂ List.Sublist (cut 10 (kept events).flatten).1 (cut 10 stream).1 ∧
      (cut 10 (kept events).flatten).2 = [] := by
  have hsub : List.Sublist (kept events).flatten (chunksOf events).flatten := (kept_sublist events).flatten
  obtain ⟨hlines, hrest⟩ := cut_sublist hsub (count_kept events)
  rw [E.data] at hlines hrest
  rw [E.cut_closed] at hrest
  exact ⟨hlines, List.sublist_nil.mp hrest⟩

theorem exists_of_forall₂ {ls ms : List Bytes} (h : List.Forall₂ List.Sublist ls ms) {l : Bytes} (hl : l ∈ ls) :
    ∃ m ∈ ms, List.Sublist l m := by
  induction h with
  | nil => cases hl
  | @cons a b as bs hab hrest ih =>
    rcases List.mem_cons.mp hl with rfl | hl
    · exact ⟨b, List.mem_cons_self, hab⟩
    · obtain ⟨m, hm, hsub⟩ := ih hl
      exact ⟨m, List.mem_cons_of_mem _ hm, hsub⟩

/-- A complete line stands in the stream. -/
theorem line_isInfix {l : Bytes} (hl : l ∈ (cut 10 stream).1) : List.IsInfix l stream := by
  obtain ⟨a, b, hab⟩ := List.append_of_mem hl
  refine ⟨(a.map (· ++ [10])).flatten, 10 :: ((b.map (· ++ [10])).flatten ++ (cut 10 stream).2), ?_⟩
  conv_rhs => rw [(cut_spec 10 stream).eq, hab]
  simp

theorem Streams.readable (E : Streams events stream) : Readable (kept events).flatten where
  steady := by
    apply steady_of_no_cr
    intro l hl h13
    have hmem := mem_of_mem_segment hl h13
    apply E.cr
    rw [← E.data]
    exact (kept_sublist events).flatten.subset hmem
  short := by
    intro l hl
    obtain ⟨hlines, hclosed⟩ := E.kept_lines
    rw [segments_closed hclosed] at hl
    obtain ⟨l', hl', hsub⟩ := exists_of_forall₂ hlines hl
    have hshort := E.short l' (line_isInfix hl') ((cut_spec 10 stream).line l' hl')
    have hle := hsub.length_le
    omega

theorem bare_of_no_cr {l : Bytes} (h : 13 ∉ l) : bare l = l := by
  have hlast : l.getLast? ≠ some 13 := fun hc => h (List.mem_of_getLast? hc)
  rw [bare, trim_of_ne hlast, trim_of_ne hlast]

/-- Nothing is left out if the texts are the same. -/
theorem eq_of_sublist_of_flatten {as bs : List Bytes} (h : List.Sublist as bs) (hne : ∀ b ∈ bs, b ≠ [])
    (he : as.flatten = bs.flatten) : as = bs := by
  induction h with
  | slnil => rfl
  | @cons as bs b h ih =>
    have hle := h.flatten.length_le
    have hlen := congrArg List.length he
    have hpos := List.length_pos_iff.mpr (hne b List.mem_cons_self)
    rw [List.flatten_cons, List.length_append] at hlen
    omega
  | @cons_cons as bs b h ih =>
    rw [List.flatten_cons, List.flatten_cons] at he
    rw [ih (fun c hc => hne c (List.mem_cons_of_mem _ hc)) (List.append_cancel_left he)]

theorem Streams.awaits (E : Streams events stream) :
    Awaits (kept events).flatten [] 0 (.opened events) where
  reads := by
    have hchunk : ∀ c ∈ kept events, Chunk c := by
      intro c hc
      obtain ⟨e, he, hec⟩ := List.mem_filterMap.mp ((kept_sublist events).subset hc)
      cases e with
      | data d =>
        cases hec
        exact E.live _ he
      | _ => cases hec
    have hcut : Chunking (kept events).flatten (kept events) := ⟨rfl, hchunk⟩
    have hreads := hcut.reads []
    rw [List.append_nil] at hreads
    exact hreads
  live := E.live
  short := by
    change ShortLines (chunksOf events).flatten
    rw [E.data]
    exact E.short

theorem Streams.segments_kept (E : Streams events stream) :
    ((segments 10 (kept events).flatten).map bare).drop 0 = (cut 10 (kept events).flatten).1 := by
  rw [List.drop_zero, segments_closed E.kept_lines.2]
  refine (List.map_congr_left ?_).trans (List.map_id _)
  intro l hl
  refine bare_of_no_cr fun h13 => E.cr ?_
  rw [← E.data]
  exact (kept_sublist events).flatten.subset ((line_isInfix hl).subset h13)

/-- If all lines are delivered, nothing has been lost. -/
theorem Streams.kept_all (E : Streams events stream)
    (h : List.IsPrefix (cut 10 stream).1 (cut 10 (kept events).flatten).1) : kept events = chunksOf events := by
  obtain ⟨hlines, hclosed⟩ := E.kept_lines
  have hsame : (cut 10 stream).1 = (cut 10 (kept events).flatten).1 := h.eq_of_length hlines.length_eq.symm
  have htext : (kept events).flatten = (chunksOf events).flatten := by
    have hkept := (cut_spec 10 (kept events).flatten).eq
    have hall := (cut_spec 10 stream).eq
    rw [hclosed, ← hsame] at hkept
    rw [E.cut_closed] at hall
    rw [E.data, hall, hkept]
  refine eq_of_sublist_of_flatten (kept_sublist events) ?_ htext
  intro c hc
  obtain ⟨e, he, hec⟩ := List.mem_filterMap.mp hc
  cases e with
  | data d =>
    cases hec
    exact (E.live _ he).1
  | _ => cases hec

theorem Streams.neverStopped (E : Streams events stream) (hs : Opened s events) (h : Delivers s stream) :
    NeverStopped events := by
  obtain ⟨n, h⟩ := h
  have hd : ∀ d ∈ List.replicate n (ofText []).1, d.WF := by
    intro d hd
    rw [(List.mem_replicate.mp hd).2]
    exact (ofText []).2
  obtain ⟨rs, t, hrun, hgot⟩ := h _ List.length_replicate hd
  have hall := attemptAll_awaitLine hs.rel E.consistent.good hd
  rw [hrun, List.length_replicate] at hall
  have hprefix := E.awaits.lines_prefix E.readable n hall.2
  rw [E.segments_kept, ← hall.1, hgot] at hprefix
  exact (neverStopped_iff events).mpr (E.kept_all hprefix)

theorem Streams.delivers (E : Streams events stream) (hs : Opened s events) (h : NeverStopped events) :
    Delivers s stream := by
  have hkept := (neverStopped_iff events).mp h
  obtain ⟨n, hn, hlines⟩ := E.awaits.lines_complete E.readable E.kept_lines.2 le_rfl
  rw [E.segments_kept, hkept, E.data] at hlines
  refine ⟨n, ?_⟩
  rintro dests rfl hd
  have hall := attemptAll_awaitLine hs.rel E.consistent.good hd
  cases hrun : (attemptAll awaitLine dests).run s with
  | ok rs t =>
    rw [hrun] at hall
    exact ⟨rs, t, rfl, hall.1.trans hlines⟩
  | thrown t =>
    rw [hrun] at hall
    exact hall.elim
  | halt e =>
    rw [hrun] at hall
    exact absurd rfl (hn _ hall)

/-- Timeouts and errors lose nothing if and only if none of them comes to a call that has already read
something. -/
theorem timeouts_lose_nothing_iff (E : Streams events stream) (hs : Opened s events) :
    Delivers s stream ↔ NeverStopped events := ⟨E.neverStopped hs, E.delivers hs⟩

/-- Any text as short as this one has short lines. -/
theorem shortLines_of_length (h : stream.length + recvBufSize ≤ stringMax) : ShortLines stream := by
  intro x hx _
  have hle := hx.length_le
  omega

theorem opened_events (events : List Event) : Opened { freshSock [] with reads := events } events :=
  ⟨(fresh_freshSock []).opened.readBuf, (fresh_freshSock []).opened.lists, rfl, rfl, rfl⟩

/-- A line and the beginning of another, a timeout, and the rest. -/
def fragmentThenTimeout : List Event := [.data [97, 10, 98], .eagain, .data [99, 10]]

theorem timeouts_lose_nothing_iff_fragment :
    Delivers { freshSock [] with reads := fragmentThenTimeout } [97, 10, 98, 99, 10] := by
  have E : Streams fragmentThenTimeout [97, 10, 98, 99, 10] := by
    refine ⟨?_, rfl, by decide, by decide, rfl, shortLines_of_length (by decide)⟩
    simp [fragmentThenTimeout, Event.Live, Chunk, recvBufSize]
  exact (timeouts_lose_nothing_iff E (opened_events _)).mpr ((neverStopped_iff _).mpr rfl)

/-- The beginning of a line, a timeout, and the rest of the line. -/
def readThenTimeout : List Event := [.data [97], .eagain, .data [98, 10]]

/-- The line `ab` is not returned. -/
theorem timeout_loses_text :
    ¬ ∀ (events : List Event) (stream : Bytes) (s : Sock), Streams events stream → Opened s events →
      Delivers s stream := by
  intro h
  have E : Streams readThenTimeout [97, 98, 10] := by
    refine ⟨?_, rfl, by decide, by decide, rfl, shortLines_of_length (by decide)⟩
    simp [readThenTimeout, Event.Live, Chunk, recvBufSize]
  have hnever := E.neverStopped (opened_events _) (h _ _ _ E (opened_events _))
  exact absurd (hnever [] [97] 0 .eagain [.data [98, 10]] rfl rfl) (by decide)

end NcSocket
