import NaturalC.NcListRuns

/-!
# Splicing at the head and between lists

`list_unshift` and `list_merge` write the forward links and leave the backward link
of the old first entry null. The forward view of the result is right, and it is a
well-formed list only in the case in which there was no such entry.
-/
namespace NcList

open Throwing Throwing.Act NcString Linked

variable {h : Heap} {c : Addr → Option Chain}

/-- The calls that use a list as a double-ended queue. -/
def Op.deque : Op → Bool
  | .push _ _ => true
  | .unshift _ _ => true
  | .pop _ _ => true
  | .shift _ _ => true
  | .entryDelete _ _ => true
  | .reverse _ => true
  | _ => false

theorem safe_of_deque {op : Op} (hop : op.deque = true) {A : Seqs} (hd : DestEmpty A op) :
    Safe A op := by
  refine ⟨?_, hd⟩
  cases op with
  | get dest i offset => cases hop
  | _ => trivial

/-- From this heap on, every run of queue calls on `l`, none of them a `list_unshift` onto a list
that has entries, replies and ends as the run on the sequence does. -/
def BehavesAs (h : Heap) (l : Addr) (xs : List Bytes) : Prop :=
  ∀ ops : List Op, (∀ op ∈ ops, op.deque = true) → Along fitsString DestEmpty ops [xs] →
    ∀ replies B, specAll fitsString ops [xs] = some (replies, B) →
      ∃ w, (execAll ops).run ⟨h, [l]⟩ = .ok replies w ∧ Refines w B

theorem behavesAs_of_rep (r : Rep h c) {l : Addr} {xs : Chain} (hl : c l = some xs) :
    BehavesAs h l (texts xs) := by
  intro ops hops hempty replies B hspec
  refine execAll_refines ops ⟨c, r, by simp, by simp [hl]⟩ (hempty.mono ?_) hspec
  intro op hop A hd
  exact safe_of_deque (hops op hop) hd

/-- The heap holds the same lists as before but for `dest` and `src`, which are as after moving
all elements of `src` to the end of `dest`. -/
def Merged (h : Heap) (c : Addr → Option Chain) (dest src : Addr) (xs : List Bytes) : Prop :=
  ∃ c', Rep h c' ∧ (c' dest).map texts = some xs ∧ c' src = some [] ∧
    ∀ k, k ≠ dest → k ≠ src → c' k = c k

/-- `list_merge` onto a list with entries: the last of them is linked forward, and the header gets
the tail of the source even if that is null. -/
theorem listMerge_run (r : Rep h c) {dest src t : Addr} (hne : dest ≠ src) {v : Str}
    {xs ys : Chain} (hd : c dest = some (xs ++ [(t, v)])) (hs : c src = some ys) :
    (listMerge dest src).run h = .ok ()
      ⟨Function.update h.entry t (some ⟨v, first ys none, last none xs⟩),
        Function.update (Function.update h.list dest
          (some ⟨xs.length + 1 + ys.length, first xs (some t), last none ys⟩)) src
          (some ⟨0, none, none⟩), h.fresh⟩ := by
  have ht : h.entry t = some ⟨v, none, last none xs⟩ := by simpa using (r.seg hd).prev
  simp [listMerge, r.list_eq hd, r.list_eq hs, header, ht, Ne.symm hne]

/-- No header for `dest ++ src` describes the entries that `list_merge` leaves behind. -/
theorem not_merged (r : Rep h c) {dest src t : Addr} (hne : dest ≠ src) {v : Str} {xs ys : Chain}
    (hd : c dest = some (xs ++ [(t, v)])) (hs : c src = some ys) {h' : Heap}
    (hrun : (listMerge dest src).run h = .ok () h') {zs : List Bytes}
    (hzs : zs = texts (xs ++ [(t, v)]) ++ texts ys) : ¬ Merged h' c dest src zs := by
  rintro ⟨c', r', hdest, -, -⟩
  rw [listMerge_run r hne hd hs] at hrun
  cases hrun
  obtain ⟨ws, hw, hwt⟩ := Option.map_eq_some_iff.mp hdest
  have hhead := r'.list_eq hw
  dsimp only at hhead
  rw [Function.update_of_ne hne, Function.update_self] at hhead
  obtain ⟨-, hfirst, hlast⟩ := ListT.mk.inj (Option.some.inj hhead)
  cases ys with
  | nil =>
    -- The tail is null although the list has entries.
    have hnil := last_eq_none.mp hlast.symm
    rw [hzs, hnil] at hwt
    simp at hwt
  | cons y ys =>
    obtain ⟨b, u⟩ := y
    -- Forward, the entries are those of both lists; backward, the second part starts anew.
    have hseg := r.seg hd
    have hpart : ∀ a ∈ addrs ((b, u) :: ys), a ≠ t := by
      rintro a ha rfl
      exact r.apart hd hs hne a (by simp) ha
    have hys : Seg (Function.update h.entry t (some ⟨v, some b, last none xs⟩)) none
        ((b, u) :: ys) none :=
      (r.seg hs).frame (fun a ha => Function.update_of_ne (hpart a ha) _ _)
    have hxs : Seg (Function.update h.entry t (some ⟨v, some b, last none xs⟩)) none
        (xs ++ [(t, v)]) (some b) := by
      have hlink := hseg.linkNext hseg.nodup (some b)
      rwa [last_append, last_cons, last_nil, linkNext_update hseg.prev] at hlink
    have hpath := path_append.mpr ⟨hxs.path, hys.path⟩
    have hsame := Path.unique (r'.seg hw).path hpath (by simpa using hfirst.symm)
    have hseg' := r'.seg hw
    rw [hsame] at hseg'
    have hb := hys.1.symm.trans (seg_append.mp hseg').2.1
    simp at hb

/-- `list_merge` leaves two well-formed lists, and a destination that behaves as the concatenation
from then on, exactly when the destination had no entries. -/
theorem list_merge_iff_dest_empty {dest src : Addr} {xs ys : Chain} (r : Rep h c)
    (hne : dest ≠ src) (hd : c dest = some xs) (hs : c src = some ys) :
    ∃ h', (listMerge dest src).run h = .ok () h' ∧
      (Merged h' c dest src (texts xs ++ texts ys) ∧ BehavesAs h' dest (texts xs ++ texts ys) ↔
        xs = []) := by
  rcases List.eq_nil_or_concat xs with rfl | ⟨us, ⟨t, v⟩, rfl⟩
  · obtain ⟨h', hrun, r'⟩ := listMerge_rep r hne hd hs
    have hdest : Function.update (Function.update c dest (some ys)) src (some []) dest = some ys := by
      rw [Function.update_of_ne hne, Function.update_self]
    refine ⟨h', hrun, fun _ => rfl, fun _ => ⟨⟨_, r', by simp [hdest], by simp, ?_⟩, ?_⟩⟩
    · intro k hkd hks
      rw [Function.update_of_ne hks, Function.update_of_ne hkd]
    · exact behavesAs_of_rep r' hdest
  · rw [List.concat_eq_append] at *
    refine ⟨_, listMerge_run r hne hd hs, ?_, ?_⟩
    · rintro ⟨hmerged, -⟩
      exact absurd hmerged (not_merged r hne hd hs (listMerge_run r hne hd hs) rfl)
    · intro hnil
      simp at hnil

/-- Two one-letter lists are merged; the queue calls then miss the first letter. -/
def mergeRun : List Op :=
  [.new, .new, .push 0 (letter 97), .push 1 (letter 98), .merge 0 1, .pop (letter 0) 0,
    .pop (letter 0) 0]

/-- After merging `b` behind `a`, one `list_pop` finds `b` and the next finds an empty list. -/
theorem list_merge_pop_misses_entry :
    (specAll fitsString mergeRun []).map Prod.fst =
        some [some .done, some .done, some .done, some .done, some .done, some (.text [98]),
          some (.text [97])] ∧
      ((execAll mergeRun).run World.empty).value =
        some [some .done, some .done, some .done, some .done, some .done, some (.text [98]),
          none] :=
  ⟨by decide +kernel, by decide +kernel⟩

/-- An empty list at address 0, and one at address 1 with the single entry `b`. -/
def emptyAndB : Heap :=
  ⟨fun a => if a = 2 then some ⟨(letter 98).1, none, none⟩ else none,
    fun l => if l = 0 then some ⟨0, none, none⟩ else if l = 1 then some ⟨1, some 2, some 2⟩ else none,
    3⟩

def emptyAndBChains : Addr → Option Chain := fun l =>
  if l = 0 then some [] else if l = 1 then some [(2, (letter 98).1)] else none

theorem rep_emptyAndB : Rep emptyAndB emptyAndBChains where
  lists := by
    intro l
    simp only [emptyAndB, emptyAndBChains]
    split
    · rfl
    · split <;> rfl
  seg := by
    intro l xs hl
    simp only [emptyAndBChains] at hl
    split at hl
    · cases hl
      trivial
    · split at hl
      · cases hl
        exact ⟨rfl, trivial⟩
      · cases hl
  apart := by
    intro l k xs ys hl hk hne
    simp only [emptyAndBChains] at hl hk
    grind [addrs]
  entryBelow := by
    intro l xs hl
    simp only [emptyAndBChains] at hl
    grind [addrs, emptyAndB]
  listBelow := by
    intro l xs hl
    simp only [emptyAndBChains] at hl
    grind [emptyAndB]
  wf := by
    intro l xs hl x hx
    have hx' : x = (2, (letter 98).1) := by
      simp only [emptyAndBChains] at hl
      grind
    rw [hx']
    exact (letter 98).2
  rest := by simp [Rest.none]
  restApart := by simp [Rest.none]
  restList := by simp [Rest.none]

theorem list_merge_iff_dest_empty_b :
    ∃ h', (listMerge 0 1).run emptyAndB = .ok () h' ∧
      Merged h' emptyAndBChains 0 1 [[98]] ∧ BehavesAs h' 0 [[98]] := by
  obtain ⟨h', hrun, hiff⟩ :=
    list_merge_iff_dest_empty rep_emptyAndB (show (0 : Addr) ≠ 1 by decide) rfl rfl
  exact ⟨h', hrun, hiff.mpr rfl⟩

/-- The heap holds the same lists as before but for `l`, which got one element in front. -/
def Unshifted (h : Heap) (c : Addr → Option Chain) (l : Addr) (xs : List Bytes) : Prop :=
  ∃ c', Rep h c' ∧ (c' l).map texts = some xs ∧ ∀ k, k ≠ l → c' k = c k

/-- `list_unshift` onto a list with entries. -/
theorem listUnshift_run (r : Rep h c) {l a : Addr} {v : Str} {xs : Chain}
    (hl : c l = some ((a, v) :: xs)) {value : Str} {text : Bytes} (hv : Holds value text) :
    ∃ str, Holds str text ∧ (listUnshift l value).run h = .ok ()
      ⟨Function.update h.entry h.fresh (some ⟨str, some a, none⟩),
        Function.update h.list l (some ⟨xs.length + 2, some h.fresh, last (some a) xs⟩),
        h.fresh + 1⟩ := by
  obtain ⟨str, hnew, hstr, -⟩ := listEntryNew_holds value text hv h
  refine ⟨str, hstr, ?_⟩
  simp only [listUnshift]
  rw [run_bind_ok hnew]
  simp [r.list_eq hl, header]

/-- The old first entry still has no backward link, so the result is not a doubly linked chain. -/
theorem not_unshifted (r : Rep h c) {l a : Addr} {v : Str} {xs : Chain}
    (hl : c l = some ((a, v) :: xs)) {str : Str} {zs : List Bytes} :
    ¬ Unshifted ⟨Function.update h.entry h.fresh (some ⟨str, some a, none⟩),
        Function.update h.list l (some ⟨xs.length + 2, some h.fresh, last (some a) xs⟩),
        h.fresh + 1⟩ c l zs := by
  rintro ⟨c', r', hdest, -⟩
  obtain ⟨ws, hw, -⟩ := Option.map_eq_some_iff.mp hdest
  have hhead := r'.list_eq hw
  dsimp only at hhead
  rw [Function.update_self] at hhead
  obtain ⟨-, hfirst, -⟩ := ListT.mk.inj (Option.some.inj hhead)
  have hne : ∀ b ∈ addrs ((a, v) :: xs), b ≠ h.fresh := fun b hb =>
    Nat.ne_of_lt (r.entryBelow hl b hb)
  have hxs : Seg (Function.update h.entry h.fresh (some ⟨str, some a, none⟩)) none
      ((a, v) :: xs) none :=
    (r.seg hl).frame (fun b hb => Function.update_of_ne (hne b hb) _ _)
  have hpath : Path (Function.update h.entry h.fresh (some ⟨str, some a, none⟩))
      ((h.fresh, str) :: (a, v) :: xs) none := ⟨⟨none, by simp⟩, hxs.path⟩
  have hsame := Path.unique (r'.seg hw).path hpath (by simpa using hfirst.symm)
  have hseg' := r'.seg hw
  rw [hsame] at hseg'
  have ha := hxs.1.symm.trans hseg'.2.1
  simp at ha

/-- `list_unshift` yields a well-formed list exactly when the list had no entries; and in every
run of queue calls that unshifts onto empty lists only, the lists are double-ended queues. -/
theorem list_unshift_iff_empty (l : Addr) (value : WfStr) :
    (∀ (h : Heap) (c : Addr → Option Chain) (xs : Chain), Rep h c →
      c l = some xs → ∃ h', (listUnshift l value.1).run h = .ok () h' ∧
        (Unshifted h' c l (value.1.text :: texts xs) ↔ xs = [])) ∧
    (∀ (ops : List Op) (w : World) (A : Seqs) (rs : List (Option Reply)) (B : Seqs), Refines w A →
      (∀ op ∈ ops, op.deque = true) → Along fitsString DestEmpty ops A →
      specAll fitsString ops A = some (rs, B) →
      ∃ w', (execAll ops).run w = .ok rs w' ∧ Refines w' B) := by
  constructor
  · intro h c xs r hl
    cases xs with
    | nil =>
      obtain ⟨h', str, hrun, hstr, r'⟩ := listUnshift_nil_rep r hl value.2
      refine ⟨h', hrun, fun _ => rfl, fun _ => ⟨_, r', by simp [hstr.text], ?_⟩⟩
      intro k hk
      exact Function.update_of_ne hk _ _
    | cons x xs =>
      obtain ⟨str, -, hrun⟩ := listUnshift_run r hl value.2
      refine ⟨_, hrun, ?_, ?_⟩
      · intro hun
        exact absurd hun (not_unshifted r hl)
      · intro hnil
        cases hnil
  · intro ops w A rs B href hops hempty hspec
    refine execAll_refines ops href (hempty.mono ?_) hspec
    intro op hop A hd
    exact safe_of_deque (hops op hop) hd

/-- `b`, then `a` in front of it; one `list_pop` finds `b` and the next finds an empty list. -/
theorem list_unshift_pop_misses_entry :
    (specAll fitsString [.new, .push 0 (letter 98), .unshift 0 (letter 97), .pop (letter 0) 0,
        .pop (letter 0) 0] []).map Prod.fst =
        some [some .done, some .done, some .done, some (.text [98]), some (.text [97])] ∧
      ((execAll [.new, .push 0 (letter 98), .unshift 0 (letter 97), .pop (letter 0) 0,
        .pop (letter 0) 0]).run World.empty).value =
        some [some .done, some .done, some .done, some (.text [98]), none] :=
  ⟨by decide +kernel, by decide +kernel⟩

theorem list_unshift_iff_empty_b :
    ∃ h', (listUnshift 0 (letter 97).1).run emptyAndB = .ok () h' ∧
      Unshifted h' emptyAndBChains 0 [[97]] := by
  obtain ⟨h', hrun, hiff⟩ :=
    (list_unshift_iff_empty 0 (letter 97)).1 emptyAndB emptyAndBChains [] rep_emptyAndB rfl
  exact ⟨h', hrun, hiff.mpr rfl⟩

end NcList
