import NaturalC.NcSocketSpec

/-!
# What a socket returns

`Reader` is what decides the results of `socket_readline`: the lines in the input buffer, the
two flags, and what the calls of `read(2)` will return. Its `readline` works on lists of
lines. The function on the heap does the same from every state that can be reached, so that
statements about runs can be proved without the heap.
-/
namespace NcSocket

open Throwing Throwing.Act NcString NcList NcSplit Linked Lines

structure Reader where
  buf : List Bytes
  fragmented : Bool
  connected : Bool
  events : List Event
  deriving DecidableEq, Repr

/-- How the reading ends. -/
inductive Gather where
  | line (u : Bytes)
  | timeout
  | failed
  /-- An exception is thrown while reading. -/
  | refused
  | blocked
  deriving DecidableEq, Repr

/-- The end of the input: what has been read so far is taken for a line. -/
def atEnd (acc : Bytes) : Gather := if acc = [] then .refused else .line acc

/-- Reading until there is a newline or the socket is closed. -/
def gather (connected : Bool) (acc : Bytes) : List Event → Gather × Bool × List Event
  | [] => (.blocked, connected, [])
  | .eintr :: es => gather connected acc es
  | .eagain :: es => (.timeout, connected, es)
  | .ebadf :: es => (atEnd acc, false, es)
  | .error :: es => (.failed, connected, es)
  | .data c :: es =>
    if c = [] then (atEnd acc, false, es)
    else if stringMax ≤ acc.length + c.length then (.refused, connected, es)
    else if connected ∧ 10 ∉ acc ++ c then gather connected (acc ++ c) es
    else (.line (acc ++ c), connected, es)

/-- The new tokens behind the buffer, the first one as part of the last line if that is unfinished. -/
def mergeTokens (fragmented : Bool) (buf toks : List Bytes) : List Bytes :=
  if fragmented then buf.dropLast ++ (buf.getLast?.getD [] ++ toks.head?.getD []) :: toks.tail
  else buf ++ toks

inductive Reply where
  | got (line : Bytes)
  | timeout
  | failed
  | blocked
  deriving DecidableEq, Repr

/-- The unfinished line and the first token together are too long for a string. -/
def Reader.overlong (r : Reader) (u : Bytes) : Prop :=
  r.fragmented = true ∧
    stringMax ≤ (r.buf.getLast?.getD []).length + ((pieces 10 u).head?.getD []).length

instance (r : Reader) (u : Bytes) : Decidable (r.overlong u) := inferInstanceAs (Decidable (_ ∧ _))

/-- What a call does with the text that has been read. -/
def Reader.accept (r : Reader) (u : Bytes) (connected : Bool) (es : List Event) : Reply × Reader :=
  if r.overlong u then (.failed, { r with connected := connected, events := es })
  else
    let all := mergeTokens r.fragmented r.buf (pieces 10 u)
    (.got (all.head?.getD []), ⟨all.tail, decide (u.getLast? ≠ some 10), connected, es⟩)

def Reader.readline (r : Reader) : Reply × Reader :=
  if r.buf ≠ [] ∧ r.fragmented = false then
    (.got (r.buf.head?.getD []), { r with buf := r.buf.tail })
  else
    match gather r.connected [] r.events with
    | (.line u, c, es) => r.accept u c es
    | (.timeout, c, es) => (.timeout, { r with connected := c, events := es })
    | (.failed, c, es) => (.failed, { r with connected := c, events := es })
    | (.refused, c, es) => (.failed, { r with connected := c, events := es })
    | (.blocked, c, es) => (.blocked, { r with connected := c, events := es })

/-- An event without any data. -/
def Event.silent (e : Event) : Prop := e = .data [] ∨ e = .ebadf

/-- Events that a stream socket can have: chunks that `read(2)` can return, and nothing but the end
once it has been reached. -/
structure Consistent (es : List Event) : Prop where
  chunk : ∀ c, .data c ∈ es → c.length ≤ recvBufSize - 1 ∧ NulFree c
  ended : ∀ a b, es = a ++ .data [] :: b → ∀ e ∈ b, e = .data []
  bad : ∀ a b, es = a ++ .ebadf :: b → ∀ e ∈ b, e = .ebadf

theorem Consistent.tail {e : Event} {es : List Event} (h : Consistent (e :: es)) : Consistent es where
  chunk := fun c hc => h.chunk c (List.mem_cons_of_mem _ hc)
  ended := fun a b hes => h.ended (e :: a) b (by rw [hes]; rfl)
  bad := fun a b hes => h.bad (e :: a) b (by rw [hes]; rfl)

/-- A reader whose socket is closed has nothing more to read. -/
structure Good (r : Reader) : Prop where
  events : Consistent r.events
  closed : r.connected = false → ∀ e ∈ r.events, e.silent

/-- The socket and the reader agree. While the socket is connected, an unfinished line is the last
entry of the buffer, and the tail points to it. -/
structure Rel (s : Sock) (r : Reader) : Prop where
  buffer : ∃ ws tail, Buffer s.heap s.readBuf ws tail ∧ texts ws = r.buf ∧
    (∀ x ∈ ws, x.2.size ≤ stringMax) ∧
    (r.fragmented = true → r.connected = true → ws ≠ [] ∧ tail = last none ws)
  fragmented : s.fragmented = r.fragmented
  connected : s.connected = r.connected
  reads : s.reads = r.events

/-! ## Reading -/

/-- What the events that are left can be. -/
theorem gather_good (acc : Bytes) {connected : Bool} {es : List Event} (h : Consistent es)
    (hc : connected = false → ∀ e ∈ es, e.silent) :
    Consistent (gather connected acc es).2.2 ∧
      ((gather connected acc es).2.1 = false → ∀ e ∈ (gather connected acc es).2.2, e.silent) ∧
      ((gather connected acc es).2.1 = true → connected = true) := by
  induction es generalizing acc with
  | nil => exact ⟨h, hc, id⟩
  | cons e es ih =>
    have hrest : connected = false → ∀ e ∈ es, e.silent := fun hno x hx =>
      hc hno x (List.mem_cons_of_mem _ hx)
    cases e with
    | eintr => exact ih _ h.tail hrest
    | eagain => exact ⟨h.tail, hrest, id⟩
    | ebadf => exact ⟨h.tail, fun _ x hx => .inr (h.bad [] es rfl x hx), fun hf => by cases hf⟩
    | error => exact ⟨h.tail, hrest, id⟩
    | data c =>
      rw [gather]
      split
      · rename_i hnil
        subst hnil
        exact ⟨h.tail, fun _ x hx => .inl (h.ended [] es rfl x hx), fun hf => by cases hf⟩
      · split
        · exact ⟨h.tail, hrest, id⟩
        · split
          · exact ih _ h.tail hrest
          · exact ⟨h.tail, hrest, id⟩

/-- The text that has been read. -/
theorem gather_line {connected : Bool} {acc u : Bytes} {es es' : List Event} {c : Bool}
    (h : Consistent es) (hn : NulFree acc) (hmax : acc.length < stringMax)
    (hg : gather connected acc es = (.line u, c, es')) :
    u ≠ [] ∧ NulFree u ∧ u.length < stringMax ∧ (c = true → connected = true → 10 ∈ u) := by
  have hend : ∀ {es : List Event}, (atEnd acc, false, es) = (Gather.line u, c, es') →
      u ≠ [] ∧ NulFree u ∧ u.length < stringMax ∧ (c = true → connected = true → 10 ∈ u) := by
    intro es he
    unfold atEnd at he
    split at he
    · cases he
    · rename_i hne
      cases he
      exact ⟨hne, hn, hmax, fun hf => by cases hf⟩
  induction es generalizing acc with
  | nil => cases hg
  | cons e es ih =>
    cases e with
    | eintr => exact ih h.tail hn hmax hg hend
    | eagain => cases hg
    | ebadf => exact hend hg
    | error => cases hg
    | data d =>
      have hd := h.chunk d (by simp)
      have hn' : NulFree (acc ++ d) := NulFree.append hn hd.2
      rw [gather] at hg
      split at hg
      · exact hend hg
      · rename_i hne
        split at hg
        · cases hg
        · rename_i hshort
          have hmax' : (acc ++ d).length < stringMax := by
            rw [List.length_append]
            omega
          split at hg
          · apply ih h.tail hn' hmax' hg
            intro es he
            unfold atEnd at he
            split at he
            · cases he
            · rename_i hne'
              cases he
              exact ⟨hne', hn', hmax', fun hf => by cases hf⟩
          · rename_i hstop
            cases hg
            refine ⟨by simp [hne], hn', hmax', ?_⟩
            intro hc _
            by_contra h10
            exact hstop ⟨hc, h10⟩

/-- Nothing is read from a closed socket. -/
theorem gather_silent (connected : Bool) {es : List Event} (h : ∀ e ∈ es, e.silent) :
    (gather connected [] es).1 = .refused ∨ (gather connected [] es).1 = .blocked := by
  cases es with
  | nil => exact .inr rfl
  | cons e es =>
    rcases h e (by simp) with rfl | rfl
    · exact .inl rfl
    · exact .inl rfl

/-- A socket that only what `read(2)` sets has changed of. -/
structure Sock.After (s s' : Sock) (connected : Bool) (es : List Event) : Prop where
  heap : s'.heap = s.heap
  readBuf : s'.readBuf = s.readBuf
  fragmented : s'.fragmented = s.fragmented
  connected : s'.connected = connected
  reads : s'.reads = es

/-- The loop of `socket_readline` ends in such a way. -/
def Ends (g : Gather) (P : Sock → Prop) : Outcome Sock Got → Prop
  | .ok (.line line) s => ∃ u, g = .line u ∧ Holds line u ∧ P s
  | .ok .timeout s => g = .timeout ∧ P s
  | .ok .failed s => g = .failed ∧ P s
  | .thrown s => g = .refused ∧ P s
  | .halt e => g = .blocked ∧ e = .diverge

theorem Ends.imp {g : Gather} {P Q : Sock → Prop} {o : Outcome Sock Got} (h : Ends g P o)
    (hpq : ∀ s, P s → Q s) : Ends g Q o := by
  cases o with
  | ok got s =>
    cases got with
    | line line =>
      obtain ⟨u, hg, hl, hp⟩ := h
      exact ⟨u, hg, hl, hpq s hp⟩
    | timeout => exact ⟨h.1, hpq s h.2⟩
    | failed => exact ⟨h.1, hpq s h.2⟩
  | thrown s => exact ⟨h.1, hpq s h.2⟩
  | halt e => exact h

theorem run_read {s : Sock} {e : Event} {events : List Event} (hs : s.reads = e :: events) :
    read.run s = .ok e { s with reads := events } := by
  simp [read, hs]

/-- What `str_cat` sees of the buffer that has been read into. -/
theorem cString_buf {c : Bytes} (hlen : c.length ≤ recvBufSize - 1) (hn : NulFree c) :
    cString (c ++ List.replicate (recvBufSize - c.length) 0) = some c := by
  have hbuf : c ++ List.replicate (recvBufSize - c.length) 0 =
      c ++ 0 :: List.replicate (recvBufSize - c.length - 1) 0 := by
    rw [← List.replicate_succ]
    congr 2
    simp only [recvBufSize] at hlen ⊢
    omega
  rw [hbuf]
  exact cString_append c _ hn

/-- Behind the loop, when the socket is closed. -/
theorem endRead_closed {s : Sock} {line : Str} {acc : Bytes} (hl : Holds line acc) (hn : NulFree acc)
    (hc : s.connected = false) :
    (endRead line).run s = if acc = [] then .thrown s else .ok (.inr (.line line)) s := by
  obtain ⟨rest, hval, -⟩ := hl.value
  have hlen : line.len = 0 ↔ acc = [] := by rw [hl.len, List.length_eq_zero_iff]
  by_cases hacc : acc = []
  · have hsame : { s with connected := false } = s := by rw [← hc]
    simp only [endRead, if_pos (hlen.mpr hacc), run_bind_get, run_bind_put, if_pos hacc, hsame]
    rfl
  · simp only [endRead, if_neg (mt hlen.mp hacc), run_bind_get, hval, deref_some, run_bind_ret,
      cString_append acc rest hn, hc, if_neg hacc]
    simp

/-- Behind the loop, when there is some text. -/
theorem whileRead_text {s : Sock} {line : Str} {acc : Bytes} (hl : Holds line acc) (hn : NulFree acc)
    (hne : acc ≠ []) :
    (whileRead line).run s =
      .ok (if s.connected ∧ 10 ∉ acc then .inl line else .inr (.line line)) s := by
  obtain ⟨rest, hval, -⟩ := hl.value
  have hlen : line.len ≠ 0 := by
    rw [hl.len]
    exact fun h0 => hne (List.length_eq_zero_iff.mp h0)
  simp only [whileRead, run_bind_get, hlen, false_and, if_false, endRead, hval, deref_some,
    run_bind_ret, cString_append acc rest hn]
  split <;> rfl

/-- The end of the input in one round. -/
theorem ends_closed {s s' : Sock} {line : Str} {acc : Bytes} {n : Nat} {es : List Event}
    (hl : Holds line acc) (hn : NulFree acc) (hs : s.After s' false es)
    (hround : (readRound line).run s = (endRead line).run s') :
    Ends (atEnd acc) (fun t => s.After t false es) ((loop readRound (n + 1) line).run s) := by
  rw [endRead_closed hl hn hs.connected] at hround
  by_cases hacc : acc = []
  · rw [if_pos hacc] at hround
    rw [loop, run_bind_thrown hround]
    exact ⟨if_pos hacc, hs⟩
  · rw [if_neg hacc] at hround
    rw [run_loop_inr hround]
    exact ⟨acc, if_neg hacc, hl, hs⟩

/-- One round with a chunk of data. -/
theorem readRound_data {es : List Event} {s : Sock} {line : Str} {acc c : Bytes} (hs : s.reads = .data c :: es)
    (hl : Holds line acc) (hz : line.size ≤ stringMax) (hn : NulFree acc) (hc : c ≠ [])
    (hlen : c.length ≤ recvBufSize - 1) (hcn : NulFree c) :
    (stringMax ≤ acc.length + c.length → (readRound line).run s = .thrown { s with reads := es }) ∧
    (acc.length + c.length < stringMax → ∃ line', Holds line' (acc ++ c) ∧ line'.size ≤ stringMax ∧
      (readRound line).run s =
        .ok (if s.connected ∧ 10 ∉ acc ++ c then .inl line' else .inr (.line line')) { s with reads := es }) := by
  have hpos : c.length > 0 := List.length_pos_iff.mpr hc
  obtain ⟨hok, hbig⟩ := strCat_holds hl (cString_buf hlen hcn)
  have hround : (readRound line).run s =
      (onLocal (strCat true (c ++ List.replicate (recvBufSize - c.length) 0)) line >>=
        fun x => whileRead x.2).run { s with reads := es } := by
    apply (run_bind_ok (run_read hs)).trans
    dsimp only
    rw [if_pos hpos]
  constructor
  · intro hlong
    rw [hround, run_bind_thrown (run_onLocal_thrown (hbig hz hlong) _)]
  · intro hfit
    obtain ⟨line', hcat, hl', hz'⟩ := hok hfit
    refine ⟨line', hl', hz' hz, ?_⟩
    rw [hround, run_bind_ok (run_onLocal_ok hcat _)]
    dsimp only
    rw [whileRead_text hl' (NulFree.append hn hcn) (by simp [hc])]

/-- The loop of `socket_readline` does what `gather` says. -/
theorem loop_gather {es : List Event} {s : Sock} {line : Str} {acc : Bytes} (fuel : Nat)
    (h : Consistent es) (hs : s.reads = es) (hl : Holds line acc) (hz : line.size ≤ stringMax)
    (hn : NulFree acc) (hf : es.length < fuel) :
    Ends (gather s.connected acc es).1
      (fun t => s.After t (gather s.connected acc es).2.1 (gather s.connected acc es).2.2)
      ((loop readRound fuel line).run s) := by
  induction es generalizing s line acc fuel with
  | nil =>
    obtain ⟨fuel, rfl⟩ : ∃ n, fuel = n + 1 := ⟨fuel - 1, by simp at hf; omega⟩
    have hread : read.run s = .halt .diverge := by simp [read, hs]
    have hround : (readRound line).run s = .halt .diverge := run_bind_halt hread
    rw [loop, run_bind_halt hround]
    exact ⟨rfl, rfl⟩
  | cons e es ih =>
    obtain ⟨fuel, rfl⟩ : ∃ n, fuel = n + 1 := ⟨fuel - 1, by simp at hf; omega⟩
    have hfuel : es.length < fuel := by simpa using hf
    have hread := run_read hs
    cases e with
    | eintr =>
      have hround : (readRound line).run s = .ok (.inl line) { s with reads := es } :=
        run_bind_ok hread
      rw [run_loop_inl hround]
      apply (ih (s := { s with reads := es }) fuel h.tail rfl hl hz hn hfuel).imp
      exact fun t ht => ⟨ht.heap, ht.readBuf, ht.fragmented, ht.connected, ht.reads⟩
    | eagain =>
      have hround : (readRound line).run s =
          .ok (.inr .timeout) { s with reads := es, timeout := true } := run_bind_ok hread
      rw [run_loop_inr hround]
      exact ⟨rfl, rfl, rfl, rfl, rfl, rfl⟩
    | error =>
      have hround : (readRound line).run s = .ok (.inr .failed) { s with reads := es } :=
        run_bind_ok hread
      rw [run_loop_inr hround]
      exact ⟨rfl, rfl, rfl, rfl, rfl, rfl⟩
    | ebadf =>
      have hafter : s.After { s with reads := es, connected := false, fd := -1 } false es :=
        ⟨rfl, rfl, rfl, rfl, rfl⟩
      apply ends_closed hl hn hafter
      apply (run_bind_ok hread).trans
      simp [whileRead]
    | data c =>
      rw [gather]
      by_cases hc : c = []
      · rw [if_pos hc]
        have hafter : s.After { s with reads := es, connected := false } false es :=
          ⟨rfl, rfl, rfl, rfl, rfl⟩
        apply ends_closed hl hn hafter
        apply (run_bind_ok hread).trans
        simp [hc]
      · rw [if_neg hc]
        obtain ⟨hclen, hcn⟩ := h.chunk c (by simp)
        obtain ⟨hbig, hok⟩ := readRound_data hs hl hz hn hc hclen hcn
        by_cases hlong : stringMax ≤ acc.length + c.length
        · rw [if_pos hlong, loop, run_bind_thrown (hbig hlong)]
          exact ⟨rfl, rfl, rfl, rfl, rfl, rfl⟩
        · rw [if_neg hlong]
          obtain ⟨line', hl', hz', hround⟩ := hok (Nat.lt_of_not_le hlong)
          by_cases hmore : s.connected ∧ 10 ∉ acc ++ c
          · rw [if_pos hmore] at hround ⊢
            rw [run_loop_inl hround]
            apply (ih (s := { s with reads := es }) fuel h.tail rfl hl' hz' (NulFree.append hn hcn) hfuel).imp
            exact fun t ht => ⟨ht.heap, ht.readBuf, ht.fragmented, ht.connected, ht.reads⟩
          · rw [if_neg hmore] at hround ⊢
            rw [run_loop_inr hround]
            exact ⟨_, rfl, hl', rfl, rfl, rfl, rfl, rfl⟩

/-! ## One call -/

theorem run_onHeap_ok {α : Type} {m : Act Heap α} {s : Sock} {a : α} {h : Heap}
    (hm : m.run s.heap = .ok a h) : (onHeap m).run s = .ok a { s with heap := h } := run_zoom_ok hm

theorem run_onHeap_thrown {α : Type} {m : Act Heap α} {s : Sock} {h : Heap}
    (hm : m.run s.heap = .thrown h) : (onHeap m).run s = .thrown { s with heap := h } :=
  run_zoom_thrown hm

/-- There is always a first token, and a second one when a newline is not at the end. -/
theorem length_pieces {u : Bytes} : 1 ≤ (pieces 10 u).length ∧
    (10 ∈ u → u.getLast? ≠ some 10 → 2 ≤ (pieces 10 u).length) := by
  have hlen : (pieces 10 u).length = (cut 10 (chomp u)).1.length + 1 := by simp [pieces]
  rw [hlen]
  refine ⟨Nat.le_add_left _ _, ?_⟩
  intro hmem hlast
  have hchomp : 10 ∈ chomp u := by
    rw [chomp, if_neg hlast]
    split
    · rename_i h13
      obtain ⟨init, b, rfl⟩ := List.eq_nil_or_concat u |>.resolve_left (List.ne_nil_of_mem hmem)
      rw [List.concat_eq_append] at hmem h13 ⊢
      obtain rfl : b = 13 := by simpa using h13
      rw [List.dropLast_concat]
      simpa using hmem
    · exact hmem
  have hpos := List.length_pos_iff.mpr ((cut_spec 10 (chomp u)).mem_iff.mp hchomp)
  omega

/-- A piece consists of bytes of the text. -/
theorem nulFree_piece {u x : Bytes} (hn : NulFree u) (hx : x ∈ pieces 10 u) : NulFree x := by
  obtain ⟨y, hy, rfl⟩ := List.mem_map.mp hx
  intro h0
  have hy0 : (0 : UInt8) ∈ y := (chomp_isPrefix y).subset h0
  have hcut := (cut_spec 10 (chomp u)).eq
  refine hn ((chomp_isPrefix u).subset ?_)
  rw [hcut]
  rcases List.mem_append.mp hy with hy | hy
  · refine List.mem_append_left _ (List.mem_flatten.mpr ⟨y ++ [10], ?_, List.mem_append_left _ hy0⟩)
    exact List.mem_map_of_mem (f := (· ++ [10])) hy
  · rw [List.mem_singleton.mp hy] at hy0
    exact List.mem_append_right _ hy0

/-- The comparison of the terminator tells whether the last line is unfinished. -/
theorem compare_terminator {line : Str} {u : Bytes} (hl : Holds line u) (hne : u ≠ []) (s : Sock) :
    ∃ same, (attempt (onLocal (strCmpTerminator 10) line)).run s = .ok same s ∧
      same.isNone = decide (u.getLast? ≠ some 10) := by
  have hcmp := strCmpTerminator_holds (c := 10) hl
  by_cases hlast : u.getLast? = some 10
  · rw [if_pos (Or.inr hlast)] at hcmp
    exact ⟨_, run_attempt_ok (run_onLocal_ok hcmp _), by simp [hlast]⟩
  · rw [if_neg (by simp [hne, hlast])] at hcmp
    exact ⟨_, run_attempt_thrown (run_onLocal_thrown hcmp _), by simp [hlast]⟩

variable {h : Heap} {readBuf tok : Addr} {ws xs : Chain} {tail : Option Addr}

/-- The new tokens go into the buffer, the first of them to an unfinished line if there is one. -/
theorem merge_rep {r : Reader} (bs : Buffers h readBuf tok ws tail xs) (hws : texts ws = r.buf)
    (hz : ∀ x ∈ ws, x.2.size ≤ stringMax)
    (hopen : r.fragmented = true → ws ≠ [] ∧ tail = last none ws)
    (hempty : r.fragmented = false → ws = []) {u : Bytes} (hn : NulFree u)
    (hxs : texts xs = pieces 10 u) (hxz : ∀ x ∈ xs, x.2.size ≤ stringMax) (hfit : ¬ r.overlong u)
    {fragment : Str} {old : Bytes} (hd : Holds fragment old) :
    ∃ h₁ h₂ zs tail', (continueLine r.fragmented readBuf tok fragment).run h = .ok () h₁ ∧
      (listMerge readBuf tok).run h₁ = .ok () h₂ ∧ Buffers h₂ readBuf tok zs tail' [] ∧
      texts zs = mergeTokens r.fragmented r.buf (pieces 10 u) ∧
      (∀ x ∈ zs, x.2.size ≤ stringMax) ∧ zs ≠ [] ∧
      (2 ≤ (pieces 10 u).length → 2 ≤ zs.length ∧ tail' = last none zs) := by
  have hlen : xs.length = (pieces 10 u).length := by rw [← hxs, length_texts]
  cases hfrag : r.fragmented with
  | false =>
    obtain rfl := hempty hfrag
    obtain ⟨h₂, hmerge, bs₂⟩ := bs.listMerge (fun hne => absurd rfl hne)
    rw [List.nil_append] at bs₂
    refine ⟨h, h₂, xs, _, rfl, hmerge, bs₂, ?_, hxz, ?_, fun h2 => ⟨by omega, rfl⟩⟩
    · rw [mergeTokens, if_neg (by simp), ← hws, hxs]
      rfl
    · have hone := (length_pieces (u := u)).1
      exact List.length_pos_iff.mp (by omega)
  | true =>
    obtain ⟨hne, htail⟩ := hopen hfrag
    obtain ⟨us, ⟨a, v⟩, rfl⟩ := (List.eq_nil_or_concat ws).resolve_left hne
    rw [List.concat_eq_append] at *
    obtain ⟨⟨b, w⟩, ys, rfl⟩ : ∃ x ys, xs = x :: ys := by
      refine List.exists_cons_of_ne_nil (List.length_pos_iff.mp ?_)
      have hone := (length_pieces (u := u)).1
      omega
    obtain rfl : tail = some a := by simpa using htail
    have hlast : r.buf.getLast?.getD [] = v.text := by simp [← hws]
    have hhead : (pieces 10 u).head?.getD [] = w.text := by simp [← hxs]
    have hshort : v.text.length + w.text.length < stringMax := by
      rw [Reader.overlong, hlast, hhead] at hfit
      exact Nat.lt_of_not_le fun hle => hfit ⟨hfrag, hle⟩
    have hwn : NulFree w.text := nulFree_piece hn (by rw [← hxs]; simp)
    obtain ⟨h₁, j, hjoin, ⟨hj, hjz⟩, bs₁⟩ :=
      (bs.joinFragment hwn (hz (a, v) (by simp)) hd).1 hshort
    obtain ⟨h₂, hmerge, bs₂⟩ := bs₁.listMerge (fun _ => by simp)
    refine ⟨h₁, h₂, us ++ [(a, j)] ++ ys, _, hjoin, hmerge, bs₂, ?_, ?_, by simp, ?_⟩
    · rw [mergeTokens, if_pos rfl, hlast, hhead, ← hws, ← hxs]
      simp [hj]
    · intro x hx
      simp only [List.mem_append, List.mem_singleton] at hx
      rcases hx with (hx | rfl) | hx
      · exact hz x (by simp [hx])
      · exact hjz
      · exact hxz x (by simp [hx])
    · intro h2
      rw [List.length_cons] at hlen
      have hys : ys ≠ [] := by
        rintro rfl
        rw [List.length_nil] at hlen
        omega
      have hpos := List.length_pos_iff.mpr hys
      refine ⟨?_, ?_⟩
      · simp only [List.length_append, List.length_singleton]
        omega
      · rw [last_append]
        exact last_congr hys _ _

/-- The first line of the buffer goes to the caller; the tail survives when there is another line. -/
theorem shift_rep {zs : Chain} (bs : Buffers h readBuf tok zs tail []) (hne : zs ≠ []) {dest : Str}
    {old : Bytes} (hd : Holds dest old) :
    ∃ h₁ h₂ d vs tail', (listShift dest readBuf).run h = .ok d h₁ ∧
      (listDestroy tok).run h₁ = .ok () h₂ ∧ Holds d ((texts zs).head?.getD []) ∧
      Buffer h₂ readBuf vs tail' ∧ texts vs = (texts zs).tail ∧ (∀ x ∈ vs, x ∈ zs) ∧
      (2 ≤ zs.length → tail = last none zs → vs ≠ [] ∧ tail' = last none vs) := by
  obtain ⟨⟨a, v⟩, vs, rfl⟩ := List.exists_cons_of_ne_nil hne
  obtain ⟨h₁, d, hshift, hd', bs₁⟩ := bs.listShift hd
  obtain ⟨h₂, hdestroy, b₂⟩ := bs₁.listDestroy
  refine ⟨h₁, h₂, d, vs, _, hshift, hdestroy, hd', b₂, rfl, fun x hx => by simp [hx], ?_⟩
  intro htwo htail
  have hvs : vs ≠ [] := by
    rintro rfl
    simp at htwo
  have hlast : tail = last none vs := by
    rw [htail, last_cons]
    exact last_congr hvs _ _
  have hother : last none vs ≠ some a := fun he =>
    (List.nodup_cons.mp bs.queue.nodup).1 (last_mem he (by simp))
  refine ⟨hvs, ?_⟩
  rw [hlast, if_neg hother]

/-- `joinFragment` with something else in the two places where it reports a logic error. -/
def joinFragmentOr (logicError : Act Heap Unit) (readBuf tok : Addr) (fragment : Str) :
    Act Heap Unit := do
  let b ← loadList readBuf
  match b.tail with
  | none => logicError
  | some tail => do
    let t ← loadList tok
    match t.head with
    | none => logicError
    | some head => do
      let e ← loadEntry head
      onValue tail (strAppend true e.value)
      let _ ← listShift fragment tok
      pure ()

/-- `socket_readline` with something else in these two places. -/
def socketReadlineOr (logicError : Act Heap Unit) (dest : Str) : Act Sock Str := do
  let line ← strNew true true
  let fragment ← strNew true true
  let tok ← onHeap listNew
  let s ← get
  let b ← onHeap (loadList s.readBuf)
  if b.count > 0 ∧ s.fragmented = false then do
    let d ← onHeap (listShift dest s.readBuf)
    onHeap (listDestroy tok)
    pure d
  else do
    match ← readLoop line with
    | .timeout => do
      onHeap (listDestroy tok)
      pure dest
    | .failed => do
      onHeap (listDestroy tok)
      throwing
    | .line line => do
      onHeap (strSplit tok line 10)
      onHeap (if s.fragmented then joinFragmentOr logicError s.readBuf tok fragment else pure ())
      onHeap (listMerge s.readBuf tok)
      let same ← attempt (onLocal (strCmpTerminator 10) line)
      let s ← get
      put { s with fragmented := same.isNone }
      let d ← onHeap (listShift dest s.readBuf)
      onHeap (listDestroy tok)
      pure d

theorem socketReadlineOr_throwing (dest : Str) : socketReadlineOr throwing dest = socketReadline dest :=
  rfl

/-- With a tail and a first token there is no logic error. -/
theorem joinFragmentOr_eq {logicError : Act Heap Unit} {a : Addr} {x : Addr × Str}
    (bs : Buffers h readBuf tok ws (some a) (x :: xs)) (fragment : Str) :
    (joinFragmentOr logicError readBuf tok fragment).run h =
      (joinFragment readBuf tok fragment).run h := by
  obtain ⟨b, u⟩ := x
  simp only [joinFragmentOr, joinFragment, run_bind_loadList, bs.readBuf_eq, bs.tok_eq, header,
    first_cons]

/-- How a call of `socket_readline` ends, given the reader's reply. -/
def Matches (dest : Str) (reply : Reply) (P : Sock → Prop) : Outcome Sock Str → Prop
  | .ok d s => ((∃ t, reply = .got t ∧ Holds d t) ∨ reply = .timeout ∧ d = dest) ∧ P s
  | .thrown s => reply = .failed ∧ P s
  | .halt e => reply = .blocked ∧ e = .diverge

/-- What `socket_readline` does once there is a line. -/
def acceptOr (logicError : Act Heap Unit) (s : Sock) (dest line fragment : Str) (tok : Addr) :
    Act Sock Str := do
  onHeap (strSplit tok line 10)
  onHeap (if s.fragmented then joinFragmentOr logicError s.readBuf tok fragment else pure ())
  onHeap (listMerge s.readBuf tok)
  let same ← attempt (onLocal (strCmpTerminator 10) line)
  let s ← get
  put { s with fragmented := same.isNone }
  let d ← onHeap (listShift dest s.readBuf)
  onHeap (listDestroy tok)
  pure d

/-- Some text has been read, and the buffer is ready to take its tokens. -/
structure Pending (r : Reader) (t : Sock) (tok : Addr) (ws : Chain) (tail : Option Addr) (u : Bytes)
    (c : Bool) (es : List Event) : Prop where
  buffers : Buffers t.heap t.readBuf tok ws tail []
  fragmented : t.fragmented = r.fragmented
  connected : t.connected = c
  reads : t.reads = es
  buf : texts ws = r.buf
  sizes : ∀ x ∈ ws, x.2.size ≤ stringMax
  unfinished : r.fragmented = true → ws ≠ [] ∧ tail = last none ws
  empty : r.fragmented = false → ws = []
  ne : u ≠ []
  nulFree : NulFree u
  short : u.length < stringMax
  newline : c = true → 10 ∈ u

variable {r : Reader} {s t : Sock} {u : Bytes} {c : Bool} {es : List Event}

/-- The text is split into tokens. -/
theorem Pending.split (hp : Pending r t tok ws tail u c es) {line : Str} (hl : Holds line u) :
    ∃ h₁ x xs, (strSplit tok line 10).run t.heap = .ok () h₁ ∧ texts (x :: xs) = pieces 10 u ∧
      (∀ y ∈ x :: xs, y.2.size ≤ stringMax) ∧ Buffers h₁ t.readBuf tok ws tail (x :: xs) := by
  have hself : only tok [] tok = some [] := only_eq_some.mpr ⟨rfl, rfl⟩
  obtain ⟨h₁, xs, hsplit, ⟨hxs, hxz⟩, r₁⟩ :=
    strSplit_rep (d := 10) hp.buffers.repIn hself hl hp.nulFree hp.ne hp.short
  have honly : Function.update (only tok []) tok (some xs) = only tok xs := by simp [only]
  rw [honly] at r₁
  obtain ⟨x, ys, rfl⟩ : ∃ x ys, xs = x :: ys := by
    refine List.exists_cons_of_ne_nil (List.length_pos_iff.mp ?_)
    rw [← length_texts, hxs]
    exact (length_pieces (u := u)).1
  exact ⟨h₁, x, ys, hsplit, hxs, hxz, hp.buffers.step r₁⟩

/-- An unfinished line is the last entry, and the tail points to it. -/
theorem Pending.lastEntry (hp : Pending r t tok ws tail u c es) (hr : r.fragmented = true) :
    ∃ us a v, ws = us ++ [(a, v)] ∧ tail = some a := by
  obtain ⟨hne, htail⟩ := hp.unfinished hr
  obtain ⟨us, ⟨a, v⟩, rfl⟩ := (List.eq_nil_or_concat ws).resolve_left hne
  rw [List.concat_eq_append] at htail ⊢
  exact ⟨us, a, v, rfl, by simpa using htail⟩

/-- The places for logic errors are not reached. -/
theorem Pending.acceptOr_eq (hp : Pending r t tok ws tail u c es) (hb : s.readBuf = t.readBuf)
    (hf : s.fragmented = t.fragmented) {dest line fragment : Str} (hl : Holds line u)
    (logicError : Act Heap Unit) :
    (acceptOr logicError s dest line fragment tok).run t =
      (acceptOr throwing s dest line fragment tok).run t := by
  obtain ⟨h₁, x, xs, hsplit, -, -, bs⟩ := hp.split hl
  simp only [acceptOr]
  rw [run_bind_ok (run_onHeap_ok hsplit), run_bind_ok (run_onHeap_ok hsplit), hb,
    hf.trans hp.fragmented]
  cases hr : r.fragmented with
  | false => rfl
  | true =>
    obtain ⟨us, a, v, rfl, rfl⟩ := hp.lastEntry hr
    have hjoin : (joinFragmentOr logicError t.readBuf tok fragment).run h₁ =
        (joinFragmentOr throwing t.readBuf tok fragment).run h₁ :=
      (joinFragmentOr_eq bs fragment).trans (joinFragmentOr_eq bs fragment).symm
    have hheap : (onHeap (joinFragmentOr logicError t.readBuf tok fragment)).run { t with heap := h₁ } =
        (onHeap (joinFragmentOr throwing t.readBuf tok fragment)).run { t with heap := h₁ } := by
      rw [onHeap, onHeap, run_zoom, run_zoom, hjoin]
    simp only [if_true]
    rw [run_bind, run_bind, hheap]

/-- The text that has been read goes through the buffer as the reader says. -/
theorem Pending.accept (hp : Pending r t tok ws tail u c es) (hb : s.readBuf = t.readBuf)
    (hf : s.fragmented = t.fragmented) {dest line fragment : Str} {old : Bytes} (hd : Holds dest old)
    (hl : Holds line u) (hfr : Holds fragment []) :
    Matches dest (r.accept u c es).1 (fun s' => Rel s' (r.accept u c es).2)
      ((acceptOr throwing s dest line fragment tok).run t) := by
  obtain ⟨h₁, ⟨b, w⟩, xs, hsplit, hxs, hxz, bs₁⟩ := hp.split hl
  have hcontinue : ∀ m, (if r.fragmented = true then joinFragmentOr throwing t.readBuf tok fragment
      else pure ()) = m → m = continueLine r.fragmented t.readBuf tok fragment := fun m hm => hm.symm
  simp only [acceptOr]
  rw [run_bind_ok (run_onHeap_ok hsplit), Reader.accept, hb, hf.trans hp.fragmented,
    hcontinue _ rfl]
  by_cases hlong : r.overlong u
  · rw [if_pos hlong]
    have hthrown : (continueLine r.fragmented t.readBuf tok fragment).run h₁ = .thrown h₁ := by
      obtain ⟨hr, hover⟩ := hlong
      obtain ⟨us, a, v, rfl, rfl⟩ := hp.lastEntry hr
      have hwn : NulFree w.text := nulFree_piece hp.nulFree (by rw [← hxs]; simp)
      rw [← hp.buf, ← hxs] at hover
      rw [continueLine, if_pos hr]
      exact (bs₁.joinFragment hwn (hp.sizes (a, v) (by simp)) hfr).2 (by simpa using hover)
    rw [run_bind_thrown (run_onHeap_thrown (s := { t with heap := h₁ }) hthrown)]
    exact ⟨rfl, ⟨ws, tail, bs₁.forget, hp.buf, hp.sizes, fun hr _ => hp.unfinished hr⟩, hp.fragmented,
      hp.connected, hp.reads⟩
  · rw [if_neg hlong]
    obtain ⟨h₂, h₃, zs, tail', hjoin, hmerge, bs₃, hzs, hzz, hzne, htwo⟩ :=
      merge_rep bs₁ hp.buf hp.sizes hp.unfinished hp.empty hp.nulFree hxs hxz hlong hfr
    obtain ⟨h₄, h₅, d, vs, tail'', hshift, hdestroy, hd', b₅, hvs, hsub, htail⟩ :=
      shift_rep bs₃ hzne hd
    obtain ⟨same, hterm, hsame⟩ := compare_terminator hl hp.ne { t with heap := h₃ }
    rw [run_bind_ok (run_onHeap_ok (s := { t with heap := h₁ }) hjoin),
      run_bind_ok (run_onHeap_ok (s := { t with heap := h₂ }) hmerge), run_bind_ok hterm,
      run_bind_get, run_bind_put]
    rw [run_bind_ok (run_onHeap_ok (s := { t with heap := h₃, fragmented := same.isNone }) hshift),
      run_bind_ok (run_onHeap_ok (s := { t with heap := h₄, fragmented := same.isNone }) hdestroy)]
    rw [← hzs]
    refine ⟨.inl ⟨_, rfl, hd'⟩, ⟨vs, tail'', b₅, hvs, fun x hx => hzz x (hsub x hx), ?_⟩, hsame,
      hp.connected, hp.reads⟩
    intro hr hconn
    have hnl := hp.newline hconn
    obtain ⟨htwo', hlast⟩ := htwo ((length_pieces (u := u)).2 hnl (of_decide_eq_true hr))
    exact htail htwo' hlast

/-- What is known when the loop of `socket_readline` is left. -/
def Left (r : Reader) (s : Sock) (tok : Addr) (ws : Chain) (tail : Option Addr)
    (g : Gather × Bool × List Event) : Outcome Sock Got → Prop
  | .ok (.line line) t => s.readBuf = t.readBuf ∧ s.fragmented = t.fragmented ∧
      ∃ u, g.1 = .line u ∧ Holds line u ∧ Pending r t tok ws tail u g.2.1 g.2.2
  | .ok .timeout t => g.1 = .timeout ∧ s.After t g.2.1 g.2.2
  | .ok .failed t => g.1 = .failed ∧ s.After t g.2.1 g.2.2
  | .thrown t => g.1 = .refused ∧ s.After t g.2.1 g.2.2
  | .halt e => g.1 = .blocked ∧ e = .diverge

/-- The loop is only run when there is no complete line in the buffer. -/
theorem readLoop_left (hg : Good r) (bs : Buffers s.heap s.readBuf tok ws tail [])
    (hws : texts ws = r.buf) (hz : ∀ x ∈ ws, x.2.size ≤ stringMax)
    (hopen : r.fragmented = true → r.connected = true → ws ≠ [] ∧ tail = last none ws)
    (hfrag : s.fragmented = r.fragmented) (hconn : s.connected = r.connected)
    (hreads : s.reads = r.events) (hready : ¬ (r.buf ≠ [] ∧ r.fragmented = false)) {line : Str}
    (hl : Holds line []) (hlz : line.size ≤ stringMax) :
    Left r s tok ws tail (gather r.connected [] r.events) ((readLoop line).run s) := by
  have hends := loop_gather (s.reads.length + 1) hg.events hreads hl hlz
    (by simp [NulFree]) (by rw [hreads]; exact Nat.lt_succ_self _)
  rw [hconn] at hends
  have hsilent : r.connected = false → _ := fun hc =>
    gather_silent r.connected (hg.closed hc)
  generalize hgather : gather r.connected [] r.events = g at *
  obtain ⟨g, c, es⟩ := g
  change Ends _ _ ((readLoop line).run s) at hends
  cases hloop : (readLoop line).run s with
  | halt e =>
    rw [hloop] at hends
    exact hends
  | thrown t =>
    rw [hloop] at hends
    exact hends
  | ok got t =>
    rw [hloop] at hends
    cases got with
    | timeout => exact hends
    | failed => exact hends
    | line line' =>
      obtain ⟨u, rfl, hl', ht⟩ := hends
      obtain ⟨hne, hn, hmax, hnl⟩ :=
        gather_line hg.events (by simp [NulFree]) (by simp [stringMax]) hgather
      have hconn' : r.connected = true := by
        by_contra hc
        rcases hsilent (by simpa using hc) with hs | hs <;> cases hs
      refine ⟨ht.readBuf.symm, ht.fragmented.symm, u, rfl, hl', ?_, ht.fragmented.trans hfrag,
        ht.connected, ht.reads, hws, hz, fun hf => hopen hf hconn', ?_, hne, hn, hmax,
        fun hc => hnl hc hconn'⟩
      · rw [ht.heap, ht.readBuf]
        exact bs
      · intro hf
        by_contra hne'
        refine hready ⟨?_, hf⟩
        rw [← hws]
        exact fun hnil => hne' (List.map_eq_nil_iff.mp hnil)

/-- A call of `socket_readline` up to the choice of the branch, which is made as the reader makes it. -/
theorem socketReadlineOr_start (b : Buffer s.heap s.readBuf ws tail) (hws : texts ws = r.buf)
    (hfrag : s.fragmented = r.fragmented) (dest : Str) :
    ∃ line h₁, (Holds line [] ∧ line.size ≤ stringMax) ∧ Buffers h₁ s.readBuf s.heap.fresh ws tail [] ∧
      ∀ logicError, (socketReadlineOr logicError dest).run s =
        if r.buf ≠ [] ∧ r.fragmented = false then
          (do
            let d ← onHeap (listShift dest s.readBuf)
            onHeap (listDestroy s.heap.fresh)
            pure d).run { s with heap := h₁ }
        else
          (do
            match ← readLoop line with
            | .timeout => do
              onHeap (listDestroy s.heap.fresh)
              pure dest
            | .failed => do
              onHeap (listDestroy s.heap.fresh)
              throwing
            | .line line' =>
              acceptOr logicError { s with heap := h₁ } dest line' line s.heap.fresh).run
            { s with heap := h₁ } := by
  obtain ⟨line, hline, hl, hlz⟩ := strNew_holds s
  obtain ⟨h₁, hnew, bs⟩ := b.listNew
  have hcount : (onHeap (loadList s.readBuf)).run { s with heap := h₁ } =
      .ok ⟨ws.length, first ws none, tail⟩ { s with heap := h₁ } := by
    apply run_onHeap_ok
    simp [loadList, bs.readBuf_eq]
  have hcond : (ws.length > 0 ∧ s.fragmented = false) ↔ (r.buf ≠ [] ∧ r.fragmented = false) := by
    rw [← hws, hfrag, ← length_texts, gt_iff_lt, List.length_pos_iff]
  refine ⟨line, h₁, ⟨hl, by rw [hlz]; decide⟩, bs, ?_⟩
  intro logicError
  simp only [socketReadlineOr]
  rw [run_bind_ok hline, run_bind_ok hline, run_bind_ok (run_onHeap_ok hnew), run_bind_get,
    run_bind_ok hcount]
  by_cases hready : r.buf ≠ [] ∧ r.fragmented = false
  · rw [if_pos hready, if_pos (hcond.mpr hready)]
  · rw [if_neg hready, if_neg (mt hcond.mp hready)]
    rfl

/-- A call of `socket_readline` does what the reader does. The places for logic errors are not
reached. -/
theorem readline_matches (hr : Rel s r) (hg : Good r) {dest : Str} {old : Bytes} (hd : Holds dest old) :
    (∀ logicError, (socketReadlineOr logicError dest).run s = (socketReadline dest).run s) ∧
    Matches dest r.readline.1 (fun s' => Rel s' r.readline.2) ((socketReadline dest).run s) := by
  obtain ⟨ws, tail, b, hws, hz, hopen⟩ := hr.buffer
  obtain ⟨line, h₁, ⟨hl, hlz⟩, bs, hstart⟩ := socketReadlineOr_start b hws hr.fragmented dest
  rw [← socketReadlineOr_throwing, hstart throwing, Reader.readline]
  by_cases hready : r.buf ≠ [] ∧ r.fragmented = false
  · rw [if_pos hready, if_pos hready]
    refine ⟨fun logicError => by rw [hstart, if_pos hready], ?_⟩
    obtain ⟨h₂, h₃, d, vs, tail', hshift, hdestroy, hd', b₃, hvs, hsub, -⟩ :=
      shift_rep bs (fun hnil => hready.1 (by rw [← hws, hnil, texts_nil])) hd
    rw [run_bind_ok (run_onHeap_ok (s := { s with heap := h₁ }) hshift),
      run_bind_ok (run_onHeap_ok (s := { s with heap := h₂ }) hdestroy), ← hws]
    refine ⟨.inl ⟨_, rfl, hd'⟩, ⟨vs, tail', b₃, hvs, fun x hx => hz x (hsub x hx), ?_⟩,
      hr.fragmented, hr.connected, hr.reads⟩
    intro hfrag
    rw [show r.fragmented = false from hready.2] at hfrag
    cases hfrag
  · rw [if_neg hready, if_neg hready]
    have hleft := readLoop_left (s := { s with heap := h₁ }) hg bs hws hz hopen hr.fragmented
      hr.connected hr.reads hready hl hlz
    have hgood := gather_good [] hg.events hg.closed
    generalize gather r.connected [] r.events = g at *
    obtain ⟨g, c, es⟩ := g
    -- The buffer is as it was when the call ends without a line.
    have hkeep : ∀ {t : Sock} {h' : Heap}, Sock.After { s with heap := h₁ } t c es →
        Buffer h' s.readBuf ws tail → Rel { t with heap := h' } { r with connected := c, events := es } := by
      intro t h' ht b'
      refine ⟨⟨ws, tail, ?_, hws, hz, fun hf hc => hopen hf (hgood.2.2 hc)⟩,
        ht.fragmented.trans hr.fragmented, ht.connected, ht.reads⟩
      change Buffer h' t.readBuf ws tail
      rw [ht.readBuf]
      exact b'
    cases hloop : (readLoop line).run { s with heap := h₁ } with
    | halt e =>
      rw [hloop] at hleft
      obtain ⟨rfl, rfl⟩ := hleft
      rw [run_bind_halt hloop]
      exact ⟨fun logicError => by rw [hstart, if_neg hready, run_bind_halt hloop], rfl, rfl⟩
    | thrown t =>
      rw [hloop] at hleft
      obtain ⟨rfl, ht⟩ := hleft
      rw [run_bind_thrown hloop]
      refine ⟨fun logicError => by rw [hstart, if_neg hready, run_bind_thrown hloop], rfl, ?_⟩
      have h := hkeep ht bs.forget
      have hheap : t.heap = h₁ := ht.heap
      rw [← hheap] at h
      exact h
    | ok got t =>
      rw [hloop] at hleft
      rw [run_bind_ok hloop]
      obtain ⟨h₂, hdestroy, b₂⟩ := bs.listDestroy
      have hfree : t.heap = h₁ → (onHeap (listDestroy s.heap.fresh)).run t = .ok () { t with heap := h₂ } := by
        intro hheap
        apply run_onHeap_ok
        rw [hheap]
        exact hdestroy
      cases got with
      | timeout =>
        obtain ⟨rfl, ht⟩ := hleft
        refine ⟨fun logicError => by rw [hstart, if_neg hready, run_bind_ok hloop], ?_⟩
        dsimp only
        rw [run_bind_ok (hfree ht.heap)]
        exact ⟨.inr ⟨rfl, rfl⟩, hkeep ht b₂⟩
      | failed =>
        obtain ⟨rfl, ht⟩ := hleft
        refine ⟨fun logicError => by rw [hstart, if_neg hready, run_bind_ok hloop], ?_⟩
        dsimp only
        rw [run_bind_ok (hfree ht.heap)]
        exact ⟨rfl, hkeep ht b₂⟩
      | line line' =>
        obtain ⟨hbuf, hfrag, u, rfl, hl', hp⟩ := hleft
        refine ⟨?_, hp.accept hbuf hfrag hd hl' hl⟩
        intro logicError
        rw [hstart, if_neg hready, run_bind_ok hloop]
        exact hp.acceptOr_eq hbuf hfrag hl' logicError

/-- What is left to read stays what a stream socket can have. -/
theorem Good.readline (hg : Good r) : Good r.readline.2 := by
  have h := gather_good [] hg.events hg.closed
  rw [Reader.readline]
  split
  · exact ⟨hg.events, hg.closed⟩
  · generalize gather r.connected [] r.events = g at *
    obtain ⟨g, c, es⟩ := g
    cases g with
    | line u =>
      dsimp only
      rw [Reader.accept]
      split
      · exact ⟨h.1, h.2.1⟩
      · exact ⟨h.1, h.2.1⟩
    | timeout => exact ⟨h.1, h.2.1⟩
    | failed => exact ⟨h.1, h.2.1⟩
    | refused => exact ⟨h.1, h.2.1⟩
    | blocked => exact ⟨h.1, h.2.1⟩

/-! ## Successive calls -/

/-- The replies to so many calls. -/
def Reader.replies : Nat → Reader → List Reply
  | 0, _ => []
  | n + 1, r => r.readline.1 :: r.readline.2.replies n

/-- The line of a reply, if there is one. -/
def Reply.line? : Reply → Option Bytes
  | .got t => some t
  | _ => none

/-- Calls that get a line or an error have the results that the reader has. -/
theorem attemptAll_matches {dests : List Str} (hr : Rel s r) (hg : Good r) (hd : ∀ d ∈ dests, d.WF)
    (hreply : ∀ x ∈ r.replies dests.length, x = .failed ∨ ∃ t, x = .got t) :
    ∃ rs s', (attemptAll socketReadline dests).run s = .ok rs s' ∧
      rs.map (Option.map Str.text) = (r.replies dests.length).map Reply.line? := by
  induction dests generalizing s r with
  | nil => exact ⟨[], s, rfl, rfl⟩
  | cons dest dests ih =>
    rw [List.length_cons, Reader.replies] at hreply
    have hcall := (readline_matches hr hg (hd dest (by simp))).2
    have hfirst := hreply _ List.mem_cons_self
    have hrest : ∀ {t : Sock}, Rel t r.readline.2 → ∃ rs s', (attemptAll socketReadline dests).run t =
        .ok rs s' ∧ rs.map (Option.map Str.text) =
          (r.readline.2.replies dests.length).map Reply.line? := fun ht =>
      ih ht hg.readline (fun d hm => hd d (List.mem_cons_of_mem _ hm))
        (fun x hx => hreply x (List.mem_cons_of_mem _ hx))
    rw [List.length_cons, Reader.replies]
    cases hrun : (socketReadline dest).run s with
    | halt e =>
      rw [hrun] at hcall
      rcases hfirst with hf | ⟨t, hf⟩
      · exact absurd (hcall.1.symm.trans hf) (by simp)
      · exact absurd (hcall.1.symm.trans hf) (by simp)
    | thrown t =>
      rw [hrun] at hcall
      obtain ⟨rs, s', hall, hrs⟩ := hrest hcall.2
      refine ⟨none :: rs, s', run_attemptAll_cons (run_attempt_thrown hrun) hall, ?_⟩
      rw [List.map_cons, List.map_cons, hcall.1, hrs]
      rfl
    | ok d t =>
      rw [hrun] at hcall
      obtain ⟨rs, s', hall, hrs⟩ := hrest hcall.2
      refine ⟨some d :: rs, s', run_attemptAll_cons (run_attempt_ok hrun) hall, ?_⟩
      rcases hcall.1 with ⟨t, ht, hdt⟩ | ⟨ht, -⟩
      · rw [List.map_cons, List.map_cons, ht, hrs, Option.map_some, hdt.text]
        rfl
      · rcases hfirst with hf | ⟨t, hf⟩
        · exact absurd (ht.symm.trans hf) (by simp)
        · exact absurd (ht.symm.trans hf) (by simp)

/-- The socket and a reader agree after any number of calls, and no call depends on what is done
about a logic error. -/
theorem attemptAll_rel {dests : List Str} (hr : Rel s r) (hg : Good r) (hd : ∀ d ∈ dests, d.WF) :
    (∀ logicError, (attemptAll (socketReadlineOr logicError) dests).run s =
      (attemptAll socketReadline dests).run s) ∧
    ∀ rs s', (attemptAll socketReadline dests).run s = .ok rs s' → ∃ r', Rel s' r' ∧ Good r' := by
  induction dests generalizing s r with
  | nil =>
    refine ⟨fun _ => rfl, ?_⟩
    intro rs s' hrun
    cases hrun
    exact ⟨r, hr, hg⟩
  | cons dest dests ih =>
    obtain ⟨hsame, hcall⟩ := readline_matches hr hg (hd dest (by simp))
    have hattempt : ∀ logicError, (attempt (socketReadlineOr logicError dest)).run s =
        (attempt (socketReadline dest)).run s := by
      intro logicError
      rw [run_attempt, run_attempt, hsame]
    have hrest : ∀ {t : Sock}, Rel t r.readline.2 → _ := fun ht =>
      ih ht hg.readline (fun d hm => hd d (List.mem_cons_of_mem _ hm))
    have hstep : ∀ {t : Sock} {x : Option Str}, Rel t r.readline.2 →
        (attempt (socketReadline dest)).run s = .ok x t →
        (∀ logicError, (attemptAll (socketReadlineOr logicError) (dest :: dests)).run s =
          (attemptAll socketReadline (dest :: dests)).run s) ∧
        ∀ rs s', (attemptAll socketReadline (dest :: dests)).run s = .ok rs s' →
          ∃ r', Rel s' r' ∧ Good r' := by
      intro t x ht hx
      obtain ⟨hsame', hrel⟩ := hrest ht
      constructor
      · intro logicError
        rw [attemptAll, attemptAll, run_bind_ok ((hattempt logicError).trans hx), run_bind_ok hx,
          run_bind, run_bind, hsame']
      · intro rs s' hrun
        rw [attemptAll, run_bind_ok hx, run_bind] at hrun
        cases hall : (attemptAll socketReadline dests).run t with
        | ok rs' s'' =>
          rw [hall] at hrun
          cases hrun
          exact hrel _ _ hall
        | thrown s'' =>
          rw [hall] at hrun
          cases hrun
        | halt e =>
          rw [hall] at hrun
          cases hrun
    cases hrun : (socketReadline dest).run s with
    | ok d t =>
      rw [hrun] at hcall
      exact hstep hcall.2 (run_attempt_ok hrun)
    | thrown t =>
      rw [hrun] at hcall
      exact hstep hcall.2 (run_attempt_thrown hrun)
    | halt e =>
      have hhalt := run_attempt_halt hrun
      constructor
      · intro logicError
        rw [attemptAll, attemptAll, run_bind_halt ((hattempt logicError).trans hhalt),
          run_bind_halt hhalt]
      · intro rs s' hall
        rw [attemptAll, run_bind_halt hhalt] at hall
        cases hall

end NcSocket
