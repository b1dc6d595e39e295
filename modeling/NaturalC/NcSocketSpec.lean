import NaturalC.NcSocket

/-!
# The input buffer of a socket

The list of lines that a socket keeps is not a well-formed list: `list_merge` leaves out
the backward links and may lose the tail. What `socket_readline` needs of it is less. Its
forward links are right, its first entry has no backward link, and its tail is right
whenever the last line is unfinished. `Buffers` says so, together with the list of new
tokens, which is well-formed all along.
-/
namespace NcSocket

open Throwing Throwing.Act NcString NcList NcSplit Linked Lines

/-- The entries of the input buffer. -/
structure Queue (h : Heap) (ws : Chain) : Prop where
  path : Path h.entry ws none
  head : ∀ {a v vs}, ws = (a, v) :: vs → h.entry a = some ⟨v, first vs none, none⟩
  nodup : (addrs ws).Nodup
  below : ∀ a ∈ addrs ws, a < h.fresh
  wf : ∀ x ∈ ws, x.2.WF

/-- The input buffer between two calls. Calls that failed may have left other lists behind. -/
structure Buffer (h : Heap) (readBuf : Addr) (ws : Chain) (tail : Option Addr) : Prop where
  readBuf_eq : h.list readBuf = some ⟨ws.length, first ws none, tail⟩
  queue : Queue h ws
  lists : ∀ l x, h.list l = some x → l < h.fresh

/-- Within a call there is also the list of tokens. -/
structure Buffers (h : Heap) (readBuf tok : Addr) (ws : Chain) (tail : Option Addr) (xs : Chain) :
    Prop where
  readBuf_eq : h.list readBuf = some ⟨ws.length, first ws none, tail⟩
  tok_eq : h.list tok = some (header xs)
  queue : Queue h ws
  seg : Seg h.entry none xs none
  apart : ∀ a ∈ addrs ws, a ∉ addrs xs
  below : ∀ a ∈ addrs xs, a < h.fresh
  wf : ∀ x ∈ xs, x.2.WF
  ne : readBuf ≠ tok
  lists : ∀ l x, h.list l = some x → l < h.fresh

/-- The cells of the input buffer and all other lists. -/
def restOf (h : Heap) (tok : Addr) (ws : Chain) : Rest :=
  ⟨fun a => if a ∈ addrs ws then h.entry a else none, fun l => if l = tok then none else h.list l⟩

/-- The list of tokens and nothing else. -/
def only (tok : Addr) (xs : Chain) : Addr → Option Chain :=
  Function.update (fun _ => none) tok (some xs)

variable {h h' : Heap} {readBuf tok : Addr} {ws xs ys : Chain} {tail : Option Addr}

theorem only_eq_some {l : Addr} {zs : Chain} : only tok xs l = some zs ↔ l = tok ∧ zs = xs := by
  by_cases hl : l = tok
  · subst hl
    simp [only, eq_comm]
  · simp [only, hl]

/-- For the functions on lists, the tokens are a list and the buffer is part of the rest. -/
theorem Buffers.repIn (b : Buffers h readBuf tok ws tail xs) :
    RepIn (restOf h tok ws) h (only tok xs) where
  lists := by
    intro l
    by_cases hl : l = tok
    · subst hl
      simp [only, b.tok_eq]
    · simp [only, hl, restOf]
  seg := by
    intro l zs hl
    rw [(only_eq_some.mp hl).2]
    exact b.seg
  apart := by
    intro l k zs us hl hk hne
    exact absurd ((only_eq_some.mp hl).1.trans (only_eq_some.mp hk).1.symm) hne
  entryBelow := by
    intro l zs hl
    rw [(only_eq_some.mp hl).2]
    exact b.below
  listBelow := by
    intro l zs hl
    rw [(only_eq_some.mp hl).1]
    exact b.lists _ _ b.tok_eq
  wf := by
    intro l zs hl
    rw [(only_eq_some.mp hl).2]
    exact b.wf
  rest := by
    intro a x hx
    by_cases ha : a ∈ addrs ws
    · simp only [restOf, if_pos ha] at hx
      exact ⟨hx, b.queue.below a ha⟩
    · simp [restOf, ha] at hx
  restApart := by
    intro a x l zs hx hl
    rw [(only_eq_some.mp hl).2]
    by_cases ha : a ∈ addrs ws
    · exact b.apart a ha
    · simp [restOf, ha] at hx
  restList := by
    intro l x hx
    by_cases hl : l = tok
    · simp [restOf, hl] at hx
    · rw [restOf] at hx
      dsimp only at hx
      rw [if_neg hl] at hx
      exact ⟨by simp [only, hl], b.lists l x hx⟩

/-- A cell of a path is there. -/
theorem live_of_path {m : Mem Str} {zs : Chain} {q : Option Addr} (hp : Path m zs q) {a : Addr}
    (ha : a ∈ addrs zs) : ∃ x, m a = some x := Option.ne_none_iff_exists'.mp (hp.live ha)

/-- The entries of the buffer are as they were. -/
theorem Queue.same (q : Queue h ws) (hs : ∀ a ∈ addrs ws, h'.entry a = h.entry a)
    (hf : ∀ a ∈ addrs ws, a < h'.fresh) : Queue h' ws where
  path := q.path.frame hs
  head := by
    intro a v vs he
    rw [hs a (by simp [he])]
    exact q.head he
  nodup := q.nodup
  below := hf
  wf := q.wf

/-- Working on the list of tokens does not touch the buffer. -/
theorem Buffers.step (b : Buffers h readBuf tok ws tail xs)
    (r : RepIn (restOf h tok ws) h' (only tok ys)) : Buffers h' readBuf tok ws tail ys := by
  have hself : only tok ys tok = some ys := only_eq_some.mpr ⟨rfl, rfl⟩
  have hcell : ∀ a ∈ addrs ws, h'.entry a = h.entry a ∧ a < h'.fresh := by
    intro a ha
    obtain ⟨x, hx⟩ := live_of_path b.queue.path ha
    obtain ⟨hx', hlt⟩ := r.rest (a := a) (x := x) (by simp [restOf, ha, hx])
    exact ⟨hx'.trans hx.symm, hlt⟩
  have hlist : ∀ l, l ≠ tok → h'.list l = h.list l := by
    intro l hl
    rw [r.lists]
    simp [only, hl, restOf]
  refine ⟨(hlist _ b.ne).trans b.readBuf_eq, ?_,
    b.queue.same (fun a ha => (hcell a ha).1) (fun a ha => (hcell a ha).2), r.seg hself,
    ?_, r.entryBelow hself, r.wf hself, b.ne, ?_⟩
  · rw [r.lists, hself]
    rfl
  · intro a ha
    obtain ⟨x, hx⟩ := live_of_path b.queue.path ha
    exact r.restApart (a := a) (x := x) (by simp [restOf, ha, hx]) hself
  · intro l x hx
    by_cases hl : l = tok
    · rw [hl]
      exact r.listBelow hself
    · rw [hlist l hl] at hx
      exact (r.restList (l := l) (x := x) (by simp [restOf, hl, hx])).2

/-- A call begins with an empty list of tokens. -/
theorem Buffer.listNew (b : Buffer h readBuf ws tail) :
    ∃ h', listNew.run h = .ok h.fresh h' ∧ Buffers h' readBuf h.fresh ws tail [] := by
  have hne : readBuf ≠ h.fresh := Nat.ne_of_lt (b.lists _ _ b.readBuf_eq)
  refine ⟨_, rfl, ?_⟩
  refine ⟨(Function.update_of_ne hne _ _).trans b.readBuf_eq, Function.update_self _ _ _,
    b.queue.same (fun _ _ => rfl) ?_, trivial, by simp, by simp, by simp, hne, ?_⟩
  · intro a ha
    exact Nat.lt_succ_of_lt (b.queue.below a ha)
  · intro l x hx
    by_cases hl : l = h.fresh
    · rw [hl]
      exact Nat.lt_succ_self _
    · have hx' : h.list l = some x := (Function.update_of_ne hl _ _).symm.trans hx
      exact Nat.lt_succ_of_lt (b.lists l x hx')

/-- Changing the list of tokens does not change which lists there are. -/
theorem below_update {f : Addr → Option ListT} {n : Nat} {l : Addr} (hf : ∀ l x, f l = some x → l < n)
    (hl : l < n) (y : Option ListT) : ∀ k x, Function.update f l y k = some x → k < n := by
  intro k x hx
  by_cases hk : k = l
  · rw [hk]
    exact hl
  · rw [Function.update_of_ne hk] at hx
    exact hf k x hx

/-- Without the list of tokens the input buffer is there as before. -/
theorem Buffers.forget (b : Buffers h readBuf tok ws tail xs) : Buffer h readBuf ws tail :=
  ⟨b.readBuf_eq, b.queue, b.lists⟩

/-- A call ends when the list of tokens, which is empty by then, has gone. -/
theorem Buffers.listDestroy (b : Buffers h readBuf tok ws tail []) :
    ∃ h', (listDestroy tok).run h = .ok () h' ∧ Buffer h' readBuf ws tail := by
  have htok : h.list tok = some ⟨0, none, none⟩ := b.tok_eq
  have hloop : (loop truncateStep (h.fresh + 1) none).run h = .ok () h := run_loop_inr rfl
  have htrunc : (listTruncate tok).run h =
      .ok () { h with list := Function.update h.list tok (some ⟨0, none, none⟩) } := by
    simp only [listTruncate, run_bind_loadList, htok, run_bind_get]
    rw [run_bind_ok hloop]
    simp [htok]
  refine ⟨{ h with list := Function.update h.list tok none }, ?_, ?_, b.queue.same ?_ ?_, ?_⟩
  · rw [NcList.listDestroy, run_bind_ok htrunc]
    simp
  · exact (Function.update_of_ne b.ne _ _).trans b.readBuf_eq
  · exact fun _ _ => rfl
  · exact b.queue.below
  · exact below_update b.lists (b.lists _ _ b.tok_eq) none

/-- The last entry of the buffer gets another value and is linked to more entries. -/
theorem Queue.extend {us vs : Chain} {a : Addr} {v w : Str} (q : Queue h (us ++ [(a, v)]))
    (hw : w.WF) (hp : Path h.entry vs none) (hn : (addrs vs).Nodup)
    (hapart : ∀ x ∈ addrs (us ++ [(a, v)]), x ∉ addrs vs) (hb : ∀ x ∈ addrs vs, x < h.fresh)
    (hwf : ∀ x ∈ vs, x.2.WF) :
    ∃ p, h.entry a = some ⟨v, none, p⟩ ∧
      Queue { h with entry := Function.update h.entry a (some ⟨w, first vs none, p⟩) }
        (us ++ (a, w) :: vs) := by
  obtain ⟨-, ⟨p, ha⟩, -⟩ := path_append.mp q.path
  have hnodup := q.nodup
  rw [addrs_append, addrs_cons, addrs_nil] at hnodup
  have hau : a ∉ addrs us := fun hin => (List.nodup_append.mp hnodup).2.2 a hin a (by simp) rfl
  have hav : a ∉ addrs vs := hapart a (by simp)
  have hset := q.path.setLast hau w (first vs none) p
  refine ⟨p, ha, ?_, ?_, ?_, ?_, ?_⟩
  · rw [List.append_cons]
    refine path_append.mpr ⟨hset, hp.frame ?_⟩
    intro x hx
    exact Function.update_of_ne (ne_of_mem_of_not_mem hx hav) _ _
  · intro x y zs he
    cases us with
    | nil =>
      cases he
      have hnone := q.head rfl
      rw [ha] at hnone
      cases hnone
      exact Function.update_self _ _ _
    | cons u us =>
      obtain ⟨rfl, rfl⟩ := List.cons.inj he
      have hx : x ≠ a := by
        rintro rfl
        simp at hau
      have hold := q.head (by rfl)
      change Function.update h.entry a _ x = _
      rw [Function.update_of_ne hx, hold]
      cases us <;> rfl
  · rw [List.append_cons, addrs_append]
    have hsame : addrs (us ++ [(a, w)]) = addrs (us ++ [(a, v)]) := by simp
    rw [hsame]
    refine List.nodup_append.mpr ⟨q.nodup, hn, ?_⟩
    rintro x hx y hy rfl
    exact hapart x hx hy
  · intro x hx
    rw [List.append_cons, addrs_append, List.mem_append] at hx
    rcases hx with hx | hx
    · exact q.below x (by simpa using hx)
    · exact hb x hx
  · intro x hx
    rw [List.append_cons, List.mem_append] at hx
    rcases hx with hx | hx
    · rcases List.mem_append.mp hx with hx | hx
      · exact q.wf x (by simp [hx])
      · rw [List.mem_singleton.mp hx]
        exact hw
    · exact hwf x hx

/-- Another value in the last entry of the buffer. -/
theorem Buffers.setLast {us : Chain} {a : Addr} {v w : Str}
    (bs : Buffers h readBuf tok (us ++ [(a, v)]) (some a) xs) (hw : w.WF) :
    ∃ p, h.entry a = some ⟨v, none, p⟩ ∧
      Buffers { h with entry := Function.update h.entry a (some ⟨w, none, p⟩) } readBuf tok
        (us ++ [(a, w)]) (some a) xs := by
  have hnil : Path h.entry ([] : Chain) none := trivial
  obtain ⟨p, ha, hq⟩ := bs.queue.extend hw hnil List.nodup_nil (by simp) (by simp) (by simp)
  refine ⟨p, ha, ?_, bs.tok_eq, hq, bs.seg.frame ?_, ?_, bs.below, bs.wf, bs.ne, bs.lists⟩
  · have h := bs.readBuf_eq
    rw [first_append, List.length_append] at h ⊢
    exact h
  · intro x hx
    refine Function.update_of_ne ?_ _ _
    rintro rfl
    exact bs.apart x (by simp) hx
  · intro x hx
    exact bs.apart x (by simpa using hx)

/-- The first token moves to the end of the unfinished line, unless the line gets too long. -/
theorem Buffers.joinFragment {us : Chain} {a b : Addr} {v u : Str}
    (bs : Buffers h readBuf tok (us ++ [(a, v)]) (some a) ((b, u) :: xs)) (hn : NulFree u.text)
    (hz : v.size ≤ stringMax) {fragment : Str} {old : Bytes} (hd : Holds fragment old) :
    (v.text.length + u.text.length < stringMax →
      ∃ h' w, (joinFragment readBuf tok fragment).run h = .ok () h' ∧
        (w.text = v.text ++ u.text ∧ w.size ≤ stringMax) ∧
        Buffers h' readBuf tok (us ++ [(a, w)]) (some a) xs) ∧
    (stringMax ≤ v.text.length + u.text.length →
      (joinFragment readBuf tok fragment).run h = .thrown h) := by
  have hv : Holds v v.text := bs.queue.wf (a, v) (by simp)
  have hu : Holds u u.text := bs.wf (b, u) (by simp)
  have hb := bs.seg.1
  obtain ⟨hok, hbig⟩ := strAppend_holds hv hu hn
  simp only [NcSocket.joinFragment, run_bind_loadList, bs.readBuf_eq, bs.tok_eq, header, first_cons,
    run_bind_loadEntry, hb]
  constructor
  · intro hfit
    obtain ⟨w, happend, hw, hwz⟩ := hok hfit
    obtain ⟨p, ha, bs₁⟩ := bs.setLast hw.wf
    have hself : only tok ((b, u) :: xs) tok = some ((b, u) :: xs) := only_eq_some.mpr ⟨rfl, rfl⟩
    obtain ⟨h₂, d, hshift, -, -, r₂⟩ := listShift_rep bs₁.repIn hself hd
    have honly : Function.update (only tok ((b, u) :: xs)) tok (some xs) = only tok xs := by
      simp [only]
    rw [honly] at r₂
    refine ⟨h₂, w, ?_, ⟨hw.text, hwz hz⟩, bs₁.step r₂⟩
    have hval : (onValue a (strAppend true u)).run h =
        .ok () { h with entry := Function.update h.entry a (some ⟨w, none, p⟩) } := by
      simp only [onValue, run_bind_loadEntry, ha]
      rw [run_bind_ok (run_onLocal_ok happend h)]
      simp [ha]
    rw [run_bind_ok hval, run_bind_ok hshift]
    rfl
  · intro hlong
    obtain ⟨p, ha, -⟩ := bs.setLast hv.wf
    have hval : (onValue a (strAppend true u)).run h = .thrown h := by
      simp only [onValue, run_bind_loadEntry, ha]
      exact run_bind_thrown (run_onLocal_thrown (hbig hz hlong) h)
    exact run_bind_thrown hval

/-- Merging the tokens into the buffer. -/
theorem Buffers.listMerge (bs : Buffers h readBuf tok ws tail xs)
    (ht : ws ≠ [] → tail = last none ws) :
    ∃ h', (listMerge readBuf tok).run h = .ok () h' ∧
      Buffers h' readBuf tok (ws ++ xs) (last none xs) [] := by
  have hr := bs.lists _ _ bs.readBuf_eq
  have hbound : ∀ y z, ∀ l x, Function.update (Function.update h.list readBuf y) tok z l = some x →
      l < h.fresh := fun y z => below_update (below_update bs.lists hr y) (bs.lists _ _ bs.tok_eq) z
  rcases List.eq_nil_or_concat ws with rfl | ⟨us, ⟨a, v⟩, rfl⟩
  · refine ⟨⟨h.entry, Function.update (Function.update h.list readBuf
      (some ⟨xs.length, first xs none, last none xs⟩)) tok (some ⟨0, none, none⟩), h.fresh⟩, ?_, ?_⟩
    · simp [NcList.listMerge, bs.readBuf_eq, bs.tok_eq, header, Ne.symm bs.ne]
    · refine ⟨?_, Function.update_self _ _ _, ?_, trivial, by simp, by simp, by simp, bs.ne, hbound _ _⟩
      · exact (Function.update_of_ne bs.ne _ _).trans (Function.update_self _ _ _)
      · refine ⟨bs.seg.path, ?_, bs.seg.nodup, bs.below, bs.wf⟩
        intro a v vs he
        have hseg := bs.seg
        rw [show xs = (a, v) :: vs from he] at hseg
        exact hseg.1
  · rw [List.concat_eq_append] at *
    have hta : tail = some a := by simpa using ht (by simp)
    subst hta
    have hv : v.WF := bs.queue.wf (a, v) (by simp)
    obtain ⟨p, ha, hq⟩ :=
      bs.queue.extend hv bs.seg.path bs.seg.nodup bs.apart bs.below bs.wf
    refine ⟨⟨Function.update h.entry a (some ⟨v, first xs none, p⟩),
      Function.update (Function.update h.list readBuf
      (some ⟨us.length + 1 + xs.length, first (us ++ [(a, v)]) none, last none xs⟩)) tok
      (some ⟨0, none, none⟩), h.fresh⟩, ?_, ?_⟩
    · simp [NcList.listMerge, bs.readBuf_eq, bs.tok_eq, header, Ne.symm bs.ne, ha]
    · rw [List.append_assoc, List.singleton_append]
      refine ⟨?_, Function.update_self _ _ _, hq.same (fun _ _ => rfl) hq.below, trivial, by simp,
        by simp, by simp, bs.ne, hbound _ _⟩
      have hlen : (us ++ (a, v) :: xs).length = us.length + 1 + xs.length := by
        simp only [List.length_append, List.length_cons]
        omega
      dsimp only
      rw [Function.update_of_ne bs.ne, Function.update_self, hlen, first_append, first_append]
      rfl

/-- Deleting the first entry of the buffer. The tail is lost when it was that entry. -/
theorem Buffers.deleteHead {a : Addr} {v : Str}
    (bs : Buffers h readBuf tok ((a, v) :: ws) tail xs) :
    ∃ h', (listEntryDelete readBuf a).run h = .ok () h' ∧
      Buffers h' readBuf tok ws (if tail = some a then none else tail) xs := by
  have ha := bs.queue.head rfl
  have hlist := bs.readBuf_eq
  obtain ⟨haw, hnw⟩ := List.nodup_cons.mp bs.queue.nodup
  refine ⟨⟨release [a] (linkPrev (first ws none) none h.entry), Function.update h.list readBuf
    (some ⟨ws.length, first ws none, if tail = some a then none else tail⟩), h.fresh⟩, ?_, ?_⟩
  · cases ws with
    | nil =>
      by_cases htail : tail = some a <;>
        simp [listEntryDelete, ha, hlist, release_singleton, htail]
    | cons x vs =>
      obtain ⟨b, w⟩ := x
      obtain ⟨⟨p, hb⟩, -⟩ := bs.queue.path.2
      have hba : b ≠ a := by
        rintro rfl
        simp at haw
      by_cases htail : tail = some a <;>
        simp [listEntryDelete, ha, hlist, release_singleton, htail, hb, hba.symm, linkPrev_update hb]
  · refine ⟨Function.update_self _ _ _, (Function.update_of_ne bs.ne.symm _ _).trans bs.tok_eq,
      ⟨?_, ?_, hnw, ?_, ?_⟩, bs.seg.frame ?_, ?_, bs.below, bs.wf, bs.ne,
      below_update bs.lists (bs.lists _ _ hlist) _⟩
    · apply (bs.queue.path.2.linkPrev (first ws none) none).frame
      intro x hx
      have hxa : x ≠ a := ne_of_mem_of_not_mem hx haw
      simp [release, hxa]
    · rintro b w vs rfl
      obtain ⟨⟨p, hb⟩, -⟩ := bs.queue.path.2
      have hba : b ≠ a := by
        rintro rfl
        simp at haw
      simp [release, linkPrev, hba, hb]
    · intro x hx
      exact bs.queue.below x (by simp [hx])
    · intro x hx
      exact bs.queue.wf x (List.mem_cons_of_mem _ hx)
    · intro x hx
      have hxa : x ≠ a := by
        rintro rfl
        exact bs.apart x (by simp) hx
      have hfirst : first ws none ≠ some x := by
        intro he
        exact bs.apart x (by simp [first_mem he]) hx
      simp [release, linkPrev, hxa, hfirst]
    · intro x hx
      exact bs.apart x (by simp [hx])

/-- Taking the first line out of the buffer. -/
theorem Buffers.listShift {a : Addr} {v : Str}
    (bs : Buffers h readBuf tok ((a, v) :: ws) tail xs) {dest : Str} {old : Bytes}
    (hd : Holds dest old) :
    ∃ h' d, (listShift dest readBuf).run h = .ok d h' ∧ Holds d v.text ∧
      Buffers h' readBuf tok ws (if tail = some a then none else tail) xs := by
  have hv : Holds v v.text := bs.queue.wf (a, v) (by simp)
  obtain ⟨d, u, hmove, hd', hu⟩ := strMove_holds hd hv
  have ha := bs.queue.head rfl
  obtain ⟨haw, hnw⟩ := List.nodup_cons.mp bs.queue.nodup
  have hget : (listEntryGet readBuf 0).run h = .ok a h := by
    simp only [listEntryGet, run_bind_loadList, bs.readBuf_eq, List.length_cons, first_cons]
    rw [if_neg (by omega), run_bind_get]
    exact run_loop_inr rfl
  have hval : (moveValue dest a).run h =
      .ok d { h with entry := Function.update h.entry a (some ⟨u, first ws none, none⟩) } := by
    simp only [moveValue, run_bind_loadEntry, ha]
    rw [run_bind_ok (run_onLocal_ok hmove h)]
    simp [ha]
  -- The value has been moved out, nothing else has changed.
  have bs₁ : Buffers { h with entry := Function.update h.entry a (some ⟨u, first ws none, none⟩) }
      readBuf tok ((a, u) :: ws) tail xs := by
    refine ⟨bs.readBuf_eq, bs.tok_eq, ⟨⟨⟨none, by simp⟩, bs.queue.path.2.frame ?_⟩, ?_,
      bs.queue.nodup, bs.queue.below, ?_⟩, bs.seg.frame ?_, bs.apart, bs.below, bs.wf, bs.ne,
      bs.lists⟩
    · intro x hx
      exact Function.update_of_ne (ne_of_mem_of_not_mem hx haw) _ _
    · intro x y vs he
      cases he
      exact Function.update_self _ _ _
    · intro x hx
      rcases List.mem_cons.mp hx with rfl | hx
      · exact hu.wf
      · exact bs.queue.wf x (List.mem_cons_of_mem _ hx)
    · intro x hx
      refine Function.update_of_ne ?_ _ _
      rintro rfl
      exact bs.apart x (by simp) hx
  obtain ⟨h', hdel, bs'⟩ := bs₁.deleteHead
  refine ⟨h', d, ?_, hd', bs'⟩
  have hcount : ¬ ((a, v) :: ws).length = 0 := by simp
  simp only [NcList.listShift, run_bind_loadList, bs.readBuf_eq, if_neg hcount]
  rw [run_bind_ok hget, run_bind_ok hval, run_bind_ok hdel]
  rfl

end NcSocket
