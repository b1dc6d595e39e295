import Mathlib.Data.List.Perm.Subperm
import NaturalC.NcStringSpec
import NaturalC.NcList

/-!
# The heap invariant of the lists

`Rep h c` says that the list headers in the heap are those of `c`, that the entries of
each list form one doubly linked segment between head and tail, that no entry is in two
lists, and that every value is a well-formed string object. Each function gets one
lemma on what it does to `c`.
-/
namespace NcList

open Throwing Throwing.Act NcString Linked

abbrev Chain := List (Addr × Str)

/-- The header that belongs to a chain of entries. -/
def header (xs : Chain) : ListT := ⟨xs.length, first xs none, last none xs⟩

/-- The sequence of texts that a chain of entries stands for. -/
def texts (xs : Chain) : List Bytes := xs.map (fun x => x.2.text)

@[simp] theorem texts_nil : texts [] = [] := rfl
@[simp] theorem texts_cons (x : Addr × Str) (xs : Chain) : texts (x :: xs) = x.2.text :: texts xs := rfl
@[simp] theorem texts_append (xs ys : Chain) : texts (xs ++ ys) = texts xs ++ texts ys :=
  List.map_append
@[simp] theorem texts_reverse (xs : Chain) : texts xs.reverse = (texts xs).reverse :=
  List.map_reverse
@[simp] theorem length_texts (xs : Chain) : (texts xs).length = xs.length := List.length_map _

/-- Cells of the heap that no list below is about. -/
structure Rest where
  entry : Mem Str
  list : Addr → Option ListT

def Rest.none : Rest := ⟨fun _ => .none, fun _ => .none⟩

/-- The heap holds the lists that `c` describes, each a well-formed doubly linked chain, and apart
from them the cells of `F`. -/
structure RepIn (F : Rest) (h : Heap) (c : Addr → Option Chain) : Prop where
  lists : ∀ l, h.list l = ((c l).map header).or (F.list l)
  seg : ∀ {l xs}, c l = some xs → Seg h.entry none xs none
  apart : ∀ {l k xs ys}, c l = some xs → c k = some ys → l ≠ k → ∀ a ∈ addrs xs, a ∉ addrs ys
  entryBelow : ∀ {l xs}, c l = some xs → ∀ a ∈ addrs xs, a < h.fresh
  listBelow : ∀ {l xs}, c l = some xs → l < h.fresh
  wf : ∀ {l xs}, c l = some xs → ∀ x ∈ xs, x.2.WF
  rest : ∀ {a x}, F.entry a = some x → h.entry a = some x ∧ a < h.fresh
  restApart : ∀ {a x l xs}, F.entry a = some x → c l = some xs → a ∉ addrs xs
  restList : ∀ {l x}, F.list l = some x → c l = none ∧ l < h.fresh

/-- All lists of the heap are well-formed. -/
abbrev Rep (h : Heap) (c : Addr → Option Chain) : Prop := RepIn Rest.none h c

variable {α : Type} {F : Rest} {h : Heap} {c : Addr → Option Chain}

@[simp] theorem run_bind_loadList (l : Addr) (f : ListT → Act Heap α) (h : Heap) :
    (loadList l >>= f).run h = match h.list l with
      | some x => (f x).run h
      | none => .halt .fault := by
  cases hl : h.list l <;> simp [loadList, run_bind, hl]

@[simp] theorem run_modifyList (l : Addr) (g : ListT → ListT) (h : Heap) :
    (modifyList l g).run h = match h.list l with
      | some x => .ok () { h with list := Function.update h.list l (some (g x)) }
      | none => .halt .fault := by
  cases hl : h.list l <;> simp [modifyList, hl]

@[simp] theorem run_bind_modifyList (l : Addr) (g : ListT → ListT) (f : Unit → Act Heap α)
    (h : Heap) : (modifyList l g >>= f).run h = match h.list l with
      | some x => (f ()).run { h with list := Function.update h.list l (some (g x)) }
      | none => .halt .fault := by
  cases hl : h.list l <;> simp [run_bind, hl]

@[simp] theorem run_bind_loadEntry (a : Addr) (f : Cell Str → Act Heap α) (h : Heap) :
    (loadEntry a >>= f).run h = match h.entry a with
      | some x => (f x).run h
      | none => .halt .fault := by
  cases ha : h.entry a <;> simp [loadEntry, run_bind, ha]

@[simp] theorem run_modifyEntry (a : Addr) (g : Cell Str → Cell Str) (h : Heap) :
    (modifyEntry a g).run h = match h.entry a with
      | some x => .ok () { h with entry := Function.update h.entry a (some (g x)) }
      | none => .halt .fault := by
  cases ha : h.entry a <;> simp [modifyEntry, ha]

@[simp] theorem run_bind_modifyEntry (a : Addr) (g : Cell Str → Cell Str) (f : Unit → Act Heap α)
    (h : Heap) : (modifyEntry a g >>= f).run h = match h.entry a with
      | some x => (f ()).run { h with entry := Function.update h.entry a (some (g x)) }
      | none => .halt .fault := by
  cases ha : h.entry a <;> simp [run_bind, ha]

@[simp] theorem run_listEntryDestroy (a : Addr) (h : Heap) :
    (listEntryDestroy a).run h = match h.entry a with
      | some _ => .ok () { h with entry := Function.update h.entry a none }
      | none => .halt .fault := by
  cases ha : h.entry a <;> simp [listEntryDestroy, ha]

@[simp] theorem run_bind_listEntryDestroy (a : Addr) (f : Unit → Act Heap α) (h : Heap) :
    (listEntryDestroy a >>= f).run h = match h.entry a with
      | some _ => (f ()).run { h with entry := Function.update h.entry a none }
      | none => .halt .fault := by
  cases ha : h.entry a <;> simp [run_bind, ha]

theorem RepIn.list_eq (r : RepIn F h c) {l : Addr} {xs : Chain} (hl : c l = some xs) :
    h.list l = some (header xs) := by rw [r.lists, hl]; rfl

/-- The heap determines the entries of a list. -/
theorem RepIn.unique (r : RepIn F h c) {G : Rest} {c' : Addr → Option Chain} (r' : RepIn G h c') {l : Addr}
    {xs ys : Chain} (hl : c l = some xs) (hl' : c' l = some ys) : xs = ys := by
  have hheader := (r.list_eq hl).symm.trans (r'.list_eq hl')
  obtain ⟨-, hfirst, -⟩ := ListT.mk.inj (Option.some.inj hheader)
  exact Path.unique (r.seg hl).path (r'.seg hl').path hfirst

/-- A list has no more entries than there are addresses in use. -/
theorem RepIn.length_le (r : RepIn F h c) {l : Addr} {xs : Chain} (hl : c l = some xs) :
    xs.length ≤ h.fresh := by
  have hsub : addrs xs ⊆ List.range h.fresh := by
    intro a ha
    exact List.mem_range.mpr (r.entryBelow hl a ha)
  simpa using (List.subperm_of_subset (r.seg hl).nodup hsub).length_le

theorem ne_of_none {c : Addr → Option Chain} {k l : Addr} {xs : Chain} (hk : c k = none)
    (hl : c l = some xs) : k ≠ l := by
  rintro rfl
  rw [hk] at hl
  cases hl

/-- The entries of one list were rewritten, possibly together with fresh ones; all others stay. -/
theorem RepIn.replace {h' : Heap} {l : Addr} {xs ys : Chain} (r : RepIn F h c) (hl : c l = some xs)
    (hlist : h'.list = Function.update h.list l (some (header ys)))
    (hseg : Seg h'.entry none ys none)
    (hframe : ∀ a, a ∉ addrs xs → a < h.fresh → h'.entry a = h.entry a)
    (hold : ∀ a ∈ addrs ys, a ∈ addrs xs ∨ h.fresh ≤ a)
    (hbelow : ∀ a ∈ addrs ys, a < h'.fresh) (hfresh : h.fresh ≤ h'.fresh)
    (hwf : ∀ x ∈ ys, x.2.WF) : RepIn F h' (Function.update c l (some ys)) := by
  have hother : ∀ {k zs}, k ≠ l → Function.update c l (some ys) k = some zs → c k = some zs := by
    intro k zs hk hz
    rwa [Function.update_of_ne hk] at hz
  have hself : ∀ {zs}, Function.update c l (some ys) l = some zs → zs = ys := by
    intro zs hz
    rw [Function.update_self] at hz
    exact (Option.some.inj hz).symm
  -- An entry of the rewritten list is in no other list.
  have hmine : ∀ {k zs}, k ≠ l → c k = some zs → ∀ a ∈ addrs ys, a ∉ addrs zs := by
    intro k zs hk hz a ha hin
    rcases hold a ha with hx | hnew
    · exact r.apart hl hz (Ne.symm hk) a hx hin
    · exact absurd (r.entryBelow hz a hin) (Nat.not_lt.mpr hnew)
  constructor
  · intro k
    rw [hlist]
    by_cases hk : k = l
    · subst hk
      simp
    · simp [hk, r.lists]
  · intro k zs hz
    by_cases hk : k = l
    · subst hk
      rw [hself hz]
      exact hseg
    · have hc := hother hk hz
      apply (r.seg hc).frame
      intro a ha
      exact hframe a (fun hx => r.apart hl hc (Ne.symm hk) a hx ha) (r.entryBelow hc a ha)
  · intro k k' zs ws hz hw hne a ha
    by_cases hk : k = l
    · subst hk
      rw [hself hz] at ha
      exact hmine (Ne.symm hne) (hother (Ne.symm hne) hw) a ha
    · by_cases hk' : k' = l
      · subst hk'
        rw [hself hw]
        intro hy
        exact hmine hk (hother hk hz) a hy ha
      · exact r.apart (hother hk hz) (hother hk' hw) hne a ha
  · intro k zs hz a ha
    by_cases hk : k = l
    · subst hk
      rw [hself hz] at ha
      exact hbelow a ha
    · exact lt_of_lt_of_le (r.entryBelow (hother hk hz) a ha) hfresh
  · intro k zs hz
    by_cases hk : k = l
    · subst hk
      exact lt_of_lt_of_le (r.listBelow hl) hfresh
    · exact lt_of_lt_of_le (r.listBelow (hother hk hz)) hfresh
  · intro k zs hz x hx
    by_cases hk : k = l
    · subst hk
      rw [hself hz] at hx
      exact hwf x hx
    · exact r.wf (hother hk hz) x hx
  · intro a x hx
    obtain ⟨ha, hlt⟩ := r.rest hx
    refine ⟨?_, lt_of_lt_of_le hlt hfresh⟩
    rw [hframe a (r.restApart hx hl) hlt, ha]
  · intro a x k zs hx hz
    by_cases hk : k = l
    · subst hk
      rw [hself hz]
      intro ha
      rcases hold a ha with hin | hnew
      · exact r.restApart hx hl hin
      · exact absurd (r.rest hx).2 (Nat.not_lt.mpr hnew)
    · exact r.restApart hx (hother hk hz)
  · intro k x hx
    obtain ⟨hnone, hlt⟩ := r.restList hx
    rw [Function.update_of_ne (ne_of_none hnone hl)]
    exact ⟨hnone, lt_of_lt_of_le hlt hfresh⟩

theorem rep_empty : Rep Heap.empty (fun _ => none) := by
  constructor <;> simp [Heap.empty, Rest.none]

theorem listNew_rep (r : RepIn F h c) :
    ∃ h', listNew.run h = .ok h.fresh h' ∧ c h.fresh = none ∧
      RepIn F h' (Function.update c h.fresh (some [])) := by
  have hnone : c h.fresh = none := by
    cases hc : c h.fresh with
    | none => rfl
    | some xs => exact absurd (r.listBelow hc) (Nat.lt_irrefl _)
  have hother : ∀ {k zs}, Function.update c h.fresh (some []) k = some zs →
      (k = h.fresh ∧ zs = []) ∨ (k ≠ h.fresh ∧ c k = some zs) := by
    intro k zs hz
    by_cases hk : k = h.fresh
    · subst hk
      rw [Function.update_self] at hz
      exact Or.inl ⟨rfl, (Option.some.inj hz).symm⟩
    · rw [Function.update_of_ne hk] at hz
      exact Or.inr ⟨hk, hz⟩
  refine ⟨_, rfl, hnone, ?_⟩
  constructor
  · intro k
    by_cases hk : k = h.fresh
    · subst hk
      simp [header]
    · simp [hk, r.lists]
  · intro k zs hz
    obtain ⟨-, rfl⟩ | ⟨-, hc⟩ := hother hz
    · trivial
    · exact r.seg hc
  · intro k k' zs ws hz hw hne
    obtain ⟨rfl, rfl⟩ | ⟨-, hc⟩ := hother hz
    · simp
    · obtain ⟨rfl, rfl⟩ | ⟨-, hc'⟩ := hother hw
      · simp
      · exact r.apart hc hc' hne
  · intro k zs hz a ha
    obtain ⟨rfl, rfl⟩ | ⟨-, hc⟩ := hother hz
    · simp at ha
    · exact Nat.lt_succ_of_lt (r.entryBelow hc a ha)
  · intro k zs hz
    obtain ⟨rfl, -⟩ | ⟨-, hc⟩ := hother hz
    · exact Nat.lt_succ_self _
    · exact Nat.lt_succ_of_lt (r.listBelow hc)
  · intro k zs hz
    obtain ⟨-, rfl⟩ | ⟨-, hc⟩ := hother hz
    · simp
    · exact r.wf hc
  · intro a x hx
    obtain ⟨ha, hlt⟩ := r.rest hx
    exact ⟨ha, Nat.lt_succ_of_lt hlt⟩
  · intro a x k zs hx hz
    obtain ⟨-, rfl⟩ | ⟨-, hc⟩ := hother hz
    · simp
    · exact r.restApart hx hc
  · intro k x hx
    obtain ⟨hc, hlt⟩ := r.restList hx
    rw [Function.update_of_ne (Nat.ne_of_lt hlt)]
    exact ⟨hc, Nat.lt_succ_of_lt hlt⟩

theorem listEntryNew_holds (value : Str) (text : Bytes) (hv : Holds value text) (h : Heap) :
    ∃ str, (listEntryNew value).run h = .ok h.fresh { h with
        entry := Function.update h.entry h.fresh (some ⟨str, none, none⟩), fresh := h.fresh + 1 } ∧
      Holds str text ∧ str.size = if text = [] then 16 else value.size := by
  obtain ⟨s₀, hnew, hs₀, hz₀⟩ := strNew_holds h
  obtain ⟨s₁, hcopy, hs₁, hz₁⟩ := strCopy_holds hs₀ hv
  rw [hz₀] at hz₁
  refine ⟨s₁, ?_, hs₁, hz₁⟩
  simp only [listEntryNew]
  rw [run_bind_ok hnew, run_bind_ok (run_onLocal_ok hcopy h)]
  rfl

/-- Appending an unlinked entry extends the chain of the list by it. -/
theorem listPush_rep (r : RepIn F h c) {l : Addr} {xs : Chain} (hl : c l = some xs) {item : Str}
    {text : Bytes} (hi : Holds item text) :
    ∃ h' str, (listPush l item).run h = .ok () h' ∧
      (Holds str text ∧ str.size = if text = [] then 16 else item.size) ∧ h'.fresh = h.fresh + 1 ∧
      RepIn F h' (Function.update c l (some (xs ++ [(h.fresh, str)]))) := by
  obtain ⟨str, hnew, hstr, hsize⟩ := listEntryNew_holds item text hi h
  have hlist := r.list_eq hl
  have hseg := r.seg hl
  have hbelow := r.entryBelow hl
  have hfresh : h.fresh ∉ addrs xs := fun hin => Nat.lt_irrefl _ (hbelow _ hin)
  have hold : ∀ {s : Str}, ∀ a ∈ addrs (xs ++ [(h.fresh, s)]), a ∈ addrs xs ∨ h.fresh ≤ a := by
    intro s a ha
    simp only [addrs_append, addrs_cons, addrs_nil, List.mem_append, List.mem_singleton] at ha
    exact ha.imp_right (fun he => Nat.le_of_eq he.symm)
  have hnewBelow : ∀ {s : Str}, ∀ a ∈ addrs (xs ++ [(h.fresh, s)]), a < h.fresh + 1 := by
    intro s a ha
    simp only [addrs_append, addrs_cons, addrs_nil, List.mem_append, List.mem_singleton] at ha
    rcases ha with ha | rfl
    · exact Nat.lt_succ_of_lt (hbelow a ha)
    · exact Nat.lt_succ_self _
  have hwf : ∀ x ∈ xs ++ [(h.fresh, str)], x.2.WF := by
    intro x hx
    rcases List.mem_append.mp hx with hx | hx
    · exact r.wf hl x hx
    · rw [List.mem_singleton.mp hx]
      exact hstr.wf
  simp only [listPush]
  rw [run_bind_ok hnew]
  simp only [listEntryAppend]
  rcases List.eq_nil_or_concat xs with rfl | ⟨ys, ⟨t, v⟩, rfl⟩
  · refine ⟨_, str, by simp [hlist, header]; rfl, ⟨hstr, hsize⟩, rfl, ?_⟩
    refine r.replace hl ?_ ?_ ?_ hold hnewBelow (Nat.le_succ _) hwf
    · simp [header]
    · exact ⟨by simp, trivial⟩
    · intro a _ ha
      simp [Nat.ne_of_lt ha]
  · rw [List.concat_eq_append] at *
    have ht : h.entry t = some ⟨v, none, last none ys⟩ := by
      simpa using (seg_append.mp hseg).2.1
    have hne : t ≠ h.fresh := fun he => hfresh (by simp [← he])
    refine ⟨_, str, by simp [hlist, header, hne, ht, first_some_ne_none]; rfl, ⟨hstr, hsize⟩, rfl, ?_⟩
    refine r.replace hl ?_ ?_ ?_ hold hnewBelow (Nat.le_succ _) hwf
    · simp [header]
    · -- The old last entry now points at the new one, which points back at it.
      refine seg_append.mpr ⟨?_, by simp [hne.symm], trivial⟩
      apply (hseg.linkNext hseg.nodup (some h.fresh)).frame
      intro a ha
      have hafresh : a ≠ h.fresh := ne_of_mem_of_not_mem ha hfresh
      by_cases hat : a = t
      · subst hat
        simp [linkNext, ht]
      · simp [linkNext, hat, Ne.symm hat, hafresh]
    · intro a hx ha
      have hat : a ≠ t := by
        rintro rfl
        exact hx (by simp)
      simp [hat, Nat.ne_of_lt ha]

theorem loop_truncate (xs : Chain) (h : Heap) (fuel : Nat) (hp : Path h.entry xs none)
    (hn : (addrs xs).Nodup) (hf : xs.length < fuel) :
    (loop truncateStep fuel (first xs none)).run h =
      .ok () { h with entry := release (addrs xs) h.entry } := by
  induction xs generalizing h fuel with
  | nil =>
    obtain ⟨fuel, rfl⟩ : ∃ k, fuel = k + 1 := ⟨fuel - 1, by simp at hf; omega⟩
    rw [run_loop_inr (by rfl)]
    simp
  | cons x xs ih =>
    obtain ⟨a, v⟩ := x
    obtain ⟨⟨p, ha⟩, hxs⟩ := hp
    obtain ⟨hax, hnx⟩ := List.nodup_cons.mp hn
    obtain ⟨fuel, rfl⟩ : ∃ k, fuel = k + 1 := ⟨fuel - 1, by simp at hf; omega⟩
    have hstep : (truncateStep (some a)).run h =
        .ok (.inl (first xs none)) { h with entry := Function.update h.entry a none } := by
      simp [truncateStep, ha]
    have hframe : Path (Function.update h.entry a none) xs none := by
      apply hxs.frame
      intro b hb
      exact Function.update_of_ne (ne_of_mem_of_not_mem hb hax) _ _
    rw [first_cons, run_loop_inl hstep, ih _ fuel hframe hnx (by simpa using hf)]
    congr 2
    funext b
    by_cases hb : b = a <;> simp [release, hb]

theorem listTruncate_rep (r : RepIn F h c) {l : Addr} {xs : Chain} (hl : c l = some xs) :
    ∃ h', (listTruncate l).run h = .ok () h' ∧ h'.fresh = h.fresh ∧
      RepIn F h' (Function.update c l (some [])) := by
  have hlist := r.list_eq hl
  have hseg := r.seg hl
  have hloop := loop_truncate xs h (h.fresh + 1) hseg.path hseg.nodup
    (Nat.lt_succ_of_le (r.length_le hl))
  refine ⟨⟨release (addrs xs) h.entry, Function.update h.list l (some (header [])), h.fresh⟩,
    ?_, rfl, ?_⟩
  · simp only [listTruncate, run_bind_loadList, hlist, run_bind_get]
    rw [show (header xs).head = first xs none from rfl, run_bind_ok hloop]
    simp [hlist, header]
  · refine r.replace hl ?_ trivial ?_ ?_ ?_ (Nat.le_refl _) ?_
    · simp [header]
    · intro a ha _
      simp [release, ha]
    · simp
    · simp
    · simp

/-- Deleting a member unlinks and frees it. -/
theorem listEntryDelete_rep (r : RepIn F h c) {l a : Addr} {v : Str} {us vs : Chain}
    (hl : c l = some (us ++ (a, v) :: vs)) :
    ∃ h', (listEntryDelete l a).run h = .ok () h' ∧ h'.fresh = h.fresh ∧
      RepIn F h' (Function.update c l (some (us ++ vs))) := by
  have hlist := r.list_eq hl
  have hseg := r.seg hl
  have hn := hseg.nodup
  have ha := hseg.prev
  rw [addrs_append, addrs_cons] at hn
  obtain ⟨-, hnav, hdis⟩ := List.nodup_append.mp hn
  obtain ⟨hav, -⟩ := List.nodup_cons.mp hnav
  have hau : a ∉ addrs us := fun hin => hdis a hin a (by simp) rfl
  refine ⟨⟨release [a] (linkNext (last none us) (first vs none)
      (linkPrev (first vs none) (last none us) h.entry)),
    Function.update h.list l (some (header (us ++ vs))), h.fresh⟩, ?_, rfl, ?_⟩
  · -- One case for each pair of neighbours that may be missing.
    rcases List.eq_nil_or_concat us with rfl | ⟨us', ⟨b, w⟩, rfl⟩ <;>
      rcases vs with _ | ⟨⟨d, z⟩, vs'⟩
    · simp [listEntryDelete, ha, hlist, header, release_singleton]
    · have had : d ≠ a := fun he => hav (by simp [he])
      have hlast : last (some d) vs' ≠ some a := fun he => hav (last_mem (p := none) he (by simp))
      have hd := (seg_append.mp hseg).2.2.1
      simp [listEntryDelete, ha, hlist, header, hd, had.symm, hlast, release_singleton,
        linkPrev_update hd]
    · rw [List.concat_eq_append] at *
      have hab : b ≠ a := fun he => hau (by simp [he])
      have hfirst : first us' (some b) ≠ some a := fun he => hau (first_mem (by simpa using he))
      have hb : h.entry b = some ⟨w, some a, last none us'⟩ := by
        simpa using (seg_append.mp (seg_append.mp hseg).1).2.1
      simp [listEntryDelete, ha, hlist, header, hb, hab.symm, hfirst, release_singleton,
        linkNext_update hb]
    · rw [List.concat_eq_append] at *
      have hab : b ≠ a := fun he => hau (by simp [he])
      have had : d ≠ a := fun he => hav (by simp [he])
      have hbd : d ≠ b := fun he => hdis b (by simp) b (by simp [he]) rfl
      have hfirst : first us' (some b) ≠ some a := fun he => hau (first_mem (by simpa using he))
      have hlast : last (some d) vs' ≠ some a := fun he => hav (last_mem (p := none) he (by simp))
      have hb : h.entry b = some ⟨w, some a, last none us'⟩ := by
        simpa using (seg_append.mp (seg_append.mp hseg).1).2.1
      have hd := (seg_append.mp hseg).2.2.1
      have hb' : Function.update h.entry d (some ⟨z, first vs' none, some b⟩) b =
          some ⟨w, some a, last none us'⟩ := by
        rw [Function.update_of_ne hbd.symm, hb]
      simp [listEntryDelete, ha, hlist, header, hb, hd, hab.symm, had.symm, hbd.symm, hfirst, hlast,
        release_singleton, linkPrev_update hd, linkNext_update hb']
  · refine r.replace hl rfl hseg.unlink ?_ ?_ ?_ (Nat.le_refl _) ?_
    · intro x hx _
      simp only [addrs_append, addrs_cons, List.mem_append, List.mem_cons, not_or] at hx
      have hlast : last none us ≠ some x := fun he => hx.1 (last_mem he (by simp))
      have hfirst : first vs none ≠ some x := fun he => hx.2.2 (first_mem he)
      simp [release, linkNext, linkPrev, hx.2.1, hlast, hfirst]
    · intro x hx
      left
      simp only [addrs_append, addrs_cons, List.mem_append, List.mem_cons] at hx ⊢
      tauto
    · intro x hx
      apply r.entryBelow hl
      simp only [addrs_append, addrs_cons, List.mem_append, List.mem_cons] at hx ⊢
      tauto
    · intro x hx
      apply r.wf hl
      simp only [List.mem_append, List.mem_cons] at hx ⊢
      tauto

/-- No other entry of a list has the address of one of its entries. -/
theorem RepIn.not_mem (r : RepIn F h c) {l a : Addr} {v : Str} {us vs : Chain}
    (hl : c l = some (us ++ (a, v) :: vs)) : a ∉ addrs us ∧ a ∉ addrs vs := by
  have hn := (r.seg hl).nodup
  rw [addrs_append, addrs_cons] at hn
  obtain ⟨-, hnav, hdis⟩ := List.nodup_append.mp hn
  exact ⟨fun hin => hdis a hin a (by simp) rfl, (List.nodup_cons.mp hnav).1⟩

/-- Only the value of an entry changes. -/
theorem RepIn.setValue (r : RepIn F h c) {l a : Addr} {v w : Str} {us vs : Chain}
    (hl : c l = some (us ++ (a, v) :: vs)) (hw : w.WF) :
    RepIn F ⟨Function.update h.entry a (some ⟨w, first vs none, last none us⟩), h.list, h.fresh⟩
      (Function.update c l (some (us ++ (a, w) :: vs))) := by
  have hsame : header (us ++ (a, w) :: vs) = header (us ++ (a, v) :: vs) := by simp [header]
  obtain ⟨hau, hav⟩ := r.not_mem hl
  refine r.replace hl ?_ ((r.seg hl).setValue hau hav w) ?_ ?_ ?_ (Nat.le_refl _) ?_
  · rw [hsame, ← r.list_eq hl, Function.update_eq_self]
  · intro x hx _
    refine Function.update_of_ne ?_ _ _
    rintro rfl
    exact hx (by simp)
  · intro x hx
    exact Or.inl (by simpa using hx)
  · intro x hx
    exact r.entryBelow hl x (by simpa using hx)
  · intro x hx
    simp only [List.mem_append, List.mem_cons] at hx
    rcases hx with hx | rfl | hx
    · exact r.wf hl x (by simp [hx])
    · exact hw
    · exact r.wf hl x (by simp [hx])

/-- Running a string function on the value of an entry. -/
theorem onValue_rep (r : RepIn F h c) {l a : Addr} {v w : Str} {us vs : Chain}
    (hl : c l = some (us ++ (a, v) :: vs)) {m : Act Str α} {x : α} (hm : m.run v = .ok x w)
    (hw : w.WF) :
    ∃ h', (onValue a m).run h = .ok x h' ∧ h'.fresh = h.fresh ∧
      RepIn F h' (Function.update c l (some (us ++ (a, w) :: vs))) := by
  have ha := (r.seg hl).prev
  refine ⟨⟨Function.update h.entry a (some ⟨w, first vs none, last none us⟩), h.list, h.fresh⟩,
    ?_, rfl, r.setValue hl hw⟩
  simp only [onValue, run_bind_loadEntry, ha]
  rw [run_bind_ok (run_onLocal_ok hm h)]
  simp [ha]

/-- Moving a value out leaves an empty string in the entry. -/
theorem moveValue_rep (r : RepIn F h c) {l a : Addr} {v : Str} {us vs : Chain}
    (hl : c l = some (us ++ (a, v) :: vs)) {dest : Str} {old : Bytes} (hd : Holds dest old) :
    ∃ h' d s, (moveValue dest a).run h = .ok d h' ∧ h'.fresh = h.fresh ∧ Holds d v.text ∧
      RepIn F h' (Function.update c l (some (us ++ (a, s) :: vs))) := by
  have hv : Holds v v.text := r.wf hl (a, v) (by simp)
  obtain ⟨d, s, hmove, hd', hs⟩ := strMove_holds hd hv
  have ha := (r.seg hl).prev
  refine ⟨⟨Function.update h.entry a (some ⟨s, first vs none, last none us⟩), h.list, h.fresh⟩,
    d, s, ?_, rfl, hd', r.setValue hl hs.wf⟩
  simp only [moveValue, run_bind_loadEntry, ha]
  rw [run_bind_ok (run_onLocal_ok hmove h)]
  simp [ha]

/-- The search finds the entry at a position that the 32-bit counter can reach. -/
theorem loop_entryGet (us vs : Chain) (a : Addr) (v : Str) (h : Heap) (fuel count offset : Nat)
    (hp : Path h.entry (us ++ (a, v) :: vs) none) (hf : us.length < fuel)
    (ho : count + us.length = offset) (hmax : offset < 2 ^ 32) :
    (loop (entryGetStep offset) fuel (first (us ++ (a, v) :: vs) none, count)).run h = .ok a h := by
  induction us generalizing fuel count with
  | nil =>
    obtain ⟨fuel, rfl⟩ : ∃ k, fuel = k + 1 := ⟨fuel - 1, by simp at hf; omega⟩
    have hc : count = offset := by simpa using ho
    exact run_loop_inr (by simp [entryGetStep, hc])
  | cons x us ih =>
    obtain ⟨b, w⟩ := x
    obtain ⟨⟨p, hb⟩, hus⟩ := hp
    obtain ⟨fuel, rfl⟩ : ∃ k, fuel = k + 1 := ⟨fuel - 1, by simp at hf; omega⟩
    simp only [List.length_cons] at ho hf
    have hne : count ≠ offset := by omega
    have hmod : (count + 1) % 2 ^ 32 = count + 1 := Nat.mod_eq_of_lt (by omega)
    have hstep : (entryGetStep offset (some b, count)).run h =
        .ok (.inl (first (us ++ (a, v) :: vs) none, count + 1)) h := by
      simp only [entryGetStep, if_neg hne, run_bind_loadEntry, hb, hmod]
      rfl
    rw [List.cons_append, first_cons, run_loop_inl hstep]
    exact ih fuel (count + 1) hus (by omega) (by omega)

/-- A position that 32 bits cannot count to is never found, and the program aborts. -/
theorem loop_entryGet_abort (xs : Chain) (h : Heap) (fuel count offset : Nat)
    (hp : Path h.entry xs none) (hf : xs.length < fuel) (hc : count < 2 ^ 32)
    (ho : 2 ^ 32 ≤ offset) :
    (loop (entryGetStep offset) fuel (first xs none, count)).run h = .halt .abort := by
  induction xs generalizing fuel count with
  | nil =>
    obtain ⟨fuel, rfl⟩ : ∃ k, fuel = k + 1 := ⟨fuel - 1, by simp at hf; omega⟩
    rfl
  | cons x xs ih =>
    obtain ⟨b, w⟩ := x
    obtain ⟨⟨p, hb⟩, hxs⟩ := hp
    obtain ⟨fuel, rfl⟩ : ∃ k, fuel = k + 1 := ⟨fuel - 1, by simp at hf; omega⟩
    have hne : count ≠ offset := by omega
    have hstep : (entryGetStep offset (some b, count)).run h =
        .ok (.inl (first xs none, (count + 1) % 2 ^ 32)) h := by
      simp only [entryGetStep, if_neg hne, run_bind_loadEntry, hb]
      rfl
    rw [first_cons, run_loop_inl hstep]
    exact ih fuel _ hxs (by simpa using hf) (Nat.mod_lt _ (by decide))

theorem listEntryGet_rep (r : RepIn F h c) {l a : Addr} {v : Str} {us vs : Chain}
    (hl : c l = some (us ++ (a, v) :: vs)) (hmax : us.length < 2 ^ 32) :
    (listEntryGet l us.length).run h = .ok a h := by
  have hlen := r.length_le hl
  simp only [List.length_append, List.length_cons] at hlen
  have hcount : ¬ us.length ≥ (header (us ++ (a, v) :: vs)).count := by
    simp only [header, List.length_append, List.length_cons]
    omega
  simp only [listEntryGet, run_bind_loadList, r.list_eq hl, if_neg hcount, run_bind_get]
  exact loop_entryGet us vs a v h (h.fresh + 1) 0 us.length (r.seg hl).path
    (Nat.lt_succ_of_le (le_trans (Nat.le_add_right _ _) hlen)) (Nat.zero_add _) hmax

theorem listEntryGet_beyond (r : RepIn F h c) {l : Addr} {xs : Chain} (hl : c l = some xs)
    {offset : Nat} (ho : xs.length ≤ offset) : (listEntryGet l offset).run h = .thrown h := by
  simp [listEntryGet, r.list_eq hl, header, ho]

theorem listGet_rep (r : RepIn F h c) {l a : Addr} {v : Str} {us vs : Chain}
    (hl : c l = some (us ++ (a, v) :: vs)) (hmax : us.length < 2 ^ 32) {dest : Str} {old : Bytes}
    (hd : Holds dest old) :
    ∃ d, (listGet dest l us.length).run h = .ok d h ∧ Holds d v.text := by
  have hv : Holds v v.text := r.wf hl (a, v) (by simp)
  obtain ⟨d, hcopy, hd', -⟩ := strCopy_holds hd hv
  refine ⟨d, ?_, hd'⟩
  simp only [listGet]
  rw [run_bind_ok (listEntryGet_rep r hl hmax)]
  simp only [run_bind_loadEntry, (r.seg hl).prev]
  rw [run_bind_ok (run_onLocal_ok hcopy h)]
  rfl

/-- Asking for an entry of the list that lies beyond the reach of the counter stops the program. -/
theorem listGet_abort (r : RepIn F h c) {l : Addr} {xs : Chain} (hl : c l = some xs) (dest : Str)
    {offset : Nat} (hin : offset < xs.length) (ho : 2 ^ 32 ≤ offset) :
    (listGet dest l offset).run h = .halt .abort := by
  have hloop := loop_entryGet_abort xs h (h.fresh + 1) 0 offset (r.seg hl).path
    (Nat.lt_succ_of_le (r.length_le hl)) (by decide) ho
  have hget : (listEntryGet l offset).run h = .halt .abort := by
    have hcount : ¬ offset ≥ (header xs).count := Nat.not_le.mpr hin
    simp only [listEntryGet, run_bind_loadList, r.list_eq hl, if_neg hcount, run_bind_get]
    exact hloop
  simp only [listGet]
  exact run_bind_halt hget

/-- Taking the first entry off a list that is not empty. -/
theorem listShift_rep (r : RepIn F h c) {l a : Addr} {v : Str} {vs : Chain}
    (hl : c l = some ((a, v) :: vs)) {dest : Str} {old : Bytes} (hd : Holds dest old) :
    ∃ h' d, (listShift dest l).run h = .ok d h' ∧ h'.fresh = h.fresh ∧ Holds d v.text ∧
      RepIn F h' (Function.update c l (some vs)) := by
  have hl' : c l = some ([] ++ (a, v) :: vs) := hl
  obtain ⟨h₁, d, s, hmove, hf₁, hd', r₁⟩ := moveValue_rep r hl' hd
  obtain ⟨h₂, hdel, hf₂, r₂⟩ := listEntryDelete_rep r₁ (Function.update_self _ _ _)
  rw [Function.update_idem] at r₂
  refine ⟨h₂, d, ?_, hf₂.trans hf₁, hd', r₂⟩
  have hget : (listEntryGet l 0).run h = .ok a h := listEntryGet_rep r hl' (by decide)
  have hcount : ¬ (header ((a, v) :: vs)).count = 0 := by simp [header]
  simp only [listShift, run_bind_loadList, r.list_eq hl, if_neg hcount]
  rw [run_bind_ok hget, run_bind_ok hmove, run_bind_ok hdel]
  rfl

theorem listShift_nil (r : RepIn F h c) {l : Addr} (hl : c l = some []) (dest : Str) :
    (listShift dest l).run h = .thrown h := by
  simp [listShift, r.list_eq hl, header]

/-- Taking the last entry off a list that is not empty. -/
theorem listPop_rep (r : RepIn F h c) {l a : Addr} {v : Str} {us : Chain}
    (hl : c l = some (us ++ [(a, v)])) {dest : Str} {old : Bytes} (hd : Holds dest old) :
    ∃ h' d, (listPop dest l).run h = .ok d h' ∧ Holds d v.text ∧
      RepIn F h' (Function.update c l (some us)) := by
  obtain ⟨h₁, d, s, hmove, -, hd', r₁⟩ := moveValue_rep r hl hd
  obtain ⟨h₂, hdel, -, r₂⟩ := listEntryDelete_rep r₁ (Function.update_self _ _ _)
  rw [Function.update_idem, List.append_nil] at r₂
  refine ⟨h₂, d, ?_, hd', r₂⟩
  have htail : (header (us ++ [(a, v)])).tail = some a := by simp [header]
  simp only [listPop, run_bind_loadList, r.list_eq hl, htail]
  rw [run_bind_ok hmove, run_bind_ok hdel]
  rfl

theorem listPop_nil (r : RepIn F h c) {l : Addr} (hl : c l = some []) (dest : Str) :
    (listPop dest l).run h = .thrown h := by
  simp [listPop, r.list_eq hl, header]

/-- `list_cat` pushes every text that a string object can hold and refuses the others. -/
theorem listCat_rep (r : RepIn F h c) {l : Addr} {xs : Chain} (hl : c l = some xs) {value text : Bytes}
    (hv : cString value = some text) :
    (text.length < stringMax → ∃ h' str, (listCat l value).run h = .ok () h' ∧
      (Holds str text ∧ str.size ≤ stringMax) ∧ h'.fresh = h.fresh + 1 ∧
      RepIn F h' (Function.update c l (some (xs ++ [(h.fresh, str)])))) ∧
    (stringMax ≤ text.length → (listCat l value).run h = .thrown h) := by
  obtain ⟨s₀, hnew, hs₀, hz₀⟩ := strNew_holds h
  obtain ⟨hok, hbig⟩ := strCpy_holds hs₀ hv
  simp only [listCat]
  rw [run_bind_ok hnew]
  constructor
  · intro hfit
    obtain ⟨s₁, hcpy, hs₁, hz₁⟩ := hok hfit
    rw [run_bind_ok (run_onLocal_ok hcpy h)]
    obtain ⟨h', str, hpush, ⟨hstr, hz⟩, hfresh, r'⟩ := listPush_rep r hl hs₁
    refine ⟨h', str, hpush, ⟨hstr, ?_⟩, hfresh, r'⟩
    have hM : 16 ≤ stringMax := by decide
    rw [hz₀] at hz₁
    by_cases hne : text = []
    · rw [if_pos hne] at hz
      omega
    · rw [if_neg hne] at hz hz₁
      omega
  · intro hlong
    exact run_bind_thrown (run_onLocal_thrown (hbig hlong) h)

/-- The texts that fit into a string object. -/
def fitsString (t : Bytes) : Bool := decide (t.length < stringMax)

/-- `list_from_char` puts its arguments onto the list up to the first one it refuses. -/
theorem catAll_rep (r : RepIn F h c) {l : Addr} {xs : Chain} (hl : c l = some xs) (args : List Bytes)
    (hn : ∀ t ∈ args, NulFree t) :
    ∃ h' ys, (catAll l (args.map charArray)).run h =
        (if args.all fitsString then .ok () h' else .thrown h') ∧
      texts ys = args.takeWhile fitsString ∧ RepIn F h' (Function.update c l (some (xs ++ ys))) := by
  induction args generalizing h c xs with
  | nil =>
    refine ⟨h, [], by simp [catAll], rfl, ?_⟩
    rw [List.append_nil, ← hl, Function.update_eq_self]
    exact r
  | cons t args ih =>
    have ht : cString (charArray t) = some t := cString_charArray t (hn t (by simp))
    obtain ⟨hok, hbig⟩ := listCat_rep r hl ht
    simp only [List.map_cons, catAll]
    by_cases hfit : t.length < stringMax
    · obtain ⟨h₁, str, hcat, ⟨hstr, -⟩, -, r₁⟩ := hok hfit
      obtain ⟨h₂, ys, hall, hys, r₂⟩ := ih r₁ (Function.update_self _ _ _)
        (fun u hu => hn u (List.mem_cons_of_mem _ hu))
      rw [Function.update_idem, List.append_assoc] at r₂
      refine ⟨h₂, (h.fresh, str) :: ys, ?_, by simp [fitsString, hfit, hys, hstr.text], r₂⟩
      rw [run_bind_ok hcat, hall]
      simp [fitsString, hfit]
    · refine ⟨h, [], ?_, by simp [fitsString, hfit], ?_⟩
      · rw [run_bind_thrown (hbig (Nat.le_of_not_lt hfit))]
        simp [fitsString, hfit]
      · rw [List.append_nil, ← hl, Function.update_eq_self]
        exact r

/-- The copying loop pushes the values of the entries that are still ahead of it. -/
theorem loop_copy {dest src : Addr} (hne : dest ≠ src) (todo : Chain) (r : RepIn F h c)
    {xs pre : Chain} (hd : c dest = some xs) (hs : c src = some (pre ++ todo)) (fuel : Nat)
    (hf : todo.length < fuel) :
    ∃ h' ys, (loop (copyStep dest) fuel (first todo none)).run h = .ok () h' ∧
      texts ys = texts todo ∧ RepIn F h' (Function.update c dest (some (xs ++ ys))) := by
  induction todo generalizing h c xs pre fuel with
  | nil =>
    obtain ⟨fuel, rfl⟩ : ∃ k, fuel = k + 1 := ⟨fuel - 1, by simp at hf; omega⟩
    refine ⟨h, [], run_loop_inr rfl, rfl, ?_⟩
    rw [List.append_nil, ← hd, Function.update_eq_self]
    exact r
  | cons x todo ih =>
    obtain ⟨a, v⟩ := x
    obtain ⟨fuel, rfl⟩ : ∃ k, fuel = k + 1 := ⟨fuel - 1, by simp at hf; omega⟩
    have ha := (r.seg hs).prev
    have hv : Holds v v.text := r.wf hs (a, v) (by simp)
    obtain ⟨h₁, str, hpush, ⟨hstr, -⟩, -, r₁⟩ := listPush_rep r hd hv
    have hs₁ : Function.update c dest (some (xs ++ [(h.fresh, str)])) src =
        some (pre ++ [(a, v)] ++ todo) := by
      rw [Function.update_of_ne (Ne.symm hne), hs, List.append_assoc]
      rfl
    have ha₁ := (r₁.seg (by rw [hs₁, List.append_assoc]; rfl)).prev
    obtain ⟨h₂, ys, hloop, hys, r₂⟩ := ih r₁ (Function.update_self _ _ _) hs₁ fuel (by simpa using hf)
    have hstep : (copyStep dest (some a)).run h = .ok (.inl (first todo none)) h₁ := by
      simp only [copyStep, run_bind_loadEntry, ha]
      rw [run_bind_ok hpush]
      simp [ha₁]
    rw [Function.update_idem, List.append_assoc] at r₂
    refine ⟨h₂, (h.fresh, str) :: ys, ?_, by simp [hys, hstr.text], r₂⟩
    rw [first_cons, run_loop_inl hstep, hloop]

theorem listCopy_rep (r : RepIn F h c) {dest src : Addr} (hne : dest ≠ src) {xs ys : Chain}
    (hd : c dest = some xs) (hs : c src = some ys) :
    ∃ h' zs, (listCopy dest src).run h = .ok () h' ∧ texts zs = texts ys ∧
      RepIn F h' (Function.update c dest (some zs)) := by
  obtain ⟨h₁, htrunc, -, r₁⟩ := listTruncate_rep r hd
  have hs₁ : Function.update c dest (some []) src = some ([] ++ ys) := by
    rw [Function.update_of_ne (Ne.symm hne), hs]
    rfl
  obtain ⟨h₂, zs, hloop, hzs, r₂⟩ := loop_copy hne ys r₁ (Function.update_self _ _ _) hs₁
    (h₁.fresh + 1) (Nat.lt_succ_of_le (r₁.length_le hs₁))
  rw [Function.update_idem] at r₂
  refine ⟨h₂, zs, ?_, hzs, r₂⟩
  simp only [listCopy]
  rw [run_bind_ok htrunc]
  simp only [run_bind_loadList, r₁.list_eq hs₁, run_bind_get]
  exact hloop

/-- The entries of one list become those of another one, which was empty before. -/
theorem RepIn.hand_over (r : RepIn F h c) {dest src : Addr} (hne : dest ≠ src) {ys : Chain}
    (hd : c dest = some []) (hs : c src = some ys) :
    RepIn F ⟨h.entry, Function.update (Function.update h.list dest (some (header ys))) src
          (some (header [])), h.fresh⟩
      (Function.update (Function.update c dest (some ys)) src (some [])) := by
  have hcases : ∀ {k zs},
      Function.update (Function.update c dest (some ys)) src (some []) k = some zs → zs = [] ∨ (k = dest ∧ zs = ys) ∨ (k ≠ dest ∧ k ≠ src ∧ c k = some zs) := by
    intro k zs hz
    by_cases hks : k = src
    · subst hks
      rw [Function.update_self] at hz
      exact Or.inl (Option.some.inj hz).symm
    · rw [Function.update_of_ne hks] at hz
      by_cases hkd : k = dest
      · subst hkd
        rw [Function.update_self] at hz
        exact Or.inr (Or.inl ⟨rfl, (Option.some.inj hz).symm⟩)
      · rw [Function.update_of_ne hkd] at hz
        exact Or.inr (Or.inr ⟨hkd, hks, hz⟩)
  constructor
  · intro k
    by_cases hks : k = src
    · subst hks
      simp
    · by_cases hkd : k = dest
      · subst hkd
        simp [hks]
      · simp [hks, hkd, r.lists]
  · intro k zs hz
    obtain rfl | ⟨-, rfl⟩ | ⟨-, -, hk⟩ := hcases hz
    · trivial
    · exact r.seg hs
    · exact r.seg hk
  · intro k k' zs ws hz hw hkk a ha
    obtain rfl | ⟨rfl, rfl⟩ | ⟨-, hks, hk⟩ := hcases hz
    · simp at ha
    · obtain rfl | ⟨rfl, -⟩ | ⟨-, hks', hk'⟩ := hcases hw
      · simp
      · exact absurd rfl hkk
      · exact r.apart hs hk' (Ne.symm hks') a ha
    · obtain rfl | ⟨rfl, rfl⟩ | ⟨-, -, hk'⟩ := hcases hw
      · simp
      · exact r.apart hk hs hks a ha
      · exact r.apart hk hk' hkk a ha
  · intro k zs hz
    obtain rfl | ⟨-, rfl⟩ | ⟨-, -, hk⟩ := hcases hz
    · simp
    · exact r.entryBelow hs
    · exact r.entryBelow hk
  · intro k zs hz
    by_cases hks : k = src
    · subst hks
      exact r.listBelow hs
    · by_cases hkd : k = dest
      · subst hkd
        exact r.listBelow hd
      · obtain rfl | ⟨hk, -⟩ | ⟨-, -, hk⟩ := hcases hz
        · rw [Function.update_of_ne hks, Function.update_of_ne hkd] at hz
          exact r.listBelow hz
        · exact absurd hk hkd
        · exact r.listBelow hk
  · intro k zs hz
    obtain rfl | ⟨-, rfl⟩ | ⟨-, -, hk⟩ := hcases hz
    · simp
    · exact r.wf hs
    · exact r.wf hk
  · exact r.rest
  · intro a x k zs hx hz
    obtain rfl | ⟨-, rfl⟩ | ⟨-, -, hk⟩ := hcases hz
    · simp
    · exact r.restApart hx hs
    · exact r.restApart hx hk
  · intro k x hx
    obtain ⟨hnone, hlt⟩ := r.restList hx
    rw [Function.update_of_ne (ne_of_none hnone hs), Function.update_of_ne (ne_of_none hnone hd)]
    exact ⟨hnone, hlt⟩

theorem listMove_rep (r : RepIn F h c) {dest src : Addr} (hne : dest ≠ src) {xs ys : Chain}
    (hd : c dest = some xs) (hs : c src = some ys) :
    ∃ h', (listMove dest src).run h = .ok () h' ∧
      RepIn F h' (Function.update (Function.update c dest (some ys)) src (some [])) := by
  obtain ⟨h₁, htrunc, -, r₁⟩ := listTruncate_rep r hd
  have hs₁ : Function.update c dest (some []) src = some ys := by
    rw [Function.update_of_ne (Ne.symm hne), hs]
  have r₂ := r₁.hand_over hne (Function.update_self _ _ _) hs₁
  rw [Function.update_idem] at r₂
  refine ⟨_, ?_, r₂⟩
  simp only [listMove]
  rw [run_bind_ok htrunc]
  have hd₁ := r₁.list_eq (Function.update_self dest (some []) c)
  have hs₂ := r₁.list_eq hs₁
  simp [hd₁, hs₂, Ne.symm hne, header]

/-- Merging into an empty list is a move. -/
theorem listMerge_rep (r : RepIn F h c) {dest src : Addr} (hne : dest ≠ src) {ys : Chain}
    (hd : c dest = some []) (hs : c src = some ys) :
    ∃ h', (listMerge dest src).run h = .ok () h' ∧
      RepIn F h' (Function.update (Function.update c dest (some ys)) src (some [])) := by
  refine ⟨_, ?_, r.hand_over hne hd hs⟩
  simp [listMerge, r.list_eq hd, r.list_eq hs, Ne.symm hne, header]

/-- The loop of `list_reverse` walks from the last entry to the first and swaps its links. -/
theorem loop_reverse (xs : Chain) (q : Option Addr) (h : Heap) (fuel : Nat)
    (hs : Seg h.entry none xs q) (hf : xs.length < fuel) :
    (loop reverseStep fuel (last none xs)).run h =
      .ok () { h with entry := swapLinks (addrs xs) h.entry } := by
  induction xs using List.reverseRecOn generalizing q h fuel with
  | nil =>
    obtain ⟨fuel, rfl⟩ : ∃ k, fuel = k + 1 := ⟨fuel - 1, by simp at hf; omega⟩
    rw [last_nil, run_loop_inr (by rfl)]
    simp
  | append_singleton ys y ih =>
    obtain ⟨a, v⟩ := y
    obtain ⟨fuel, rfl⟩ : ∃ k, fuel = k + 1 := ⟨fuel - 1, by simp at hf; omega⟩
    obtain ⟨hys, ha, -⟩ := seg_append.mp hs
    have hn := hs.nodup
    have hay : a ∉ addrs ys := by
      rw [addrs_append] at hn
      intro hin
      exact (List.nodup_append.mp hn).2.2 a hin a (by simp) rfl
    have hstep : (reverseStep (some a)).run h = .ok (.inl (last none ys))
        { h with entry := Function.update h.entry a (some ⟨v, last none ys, q⟩) } := by
      simp [reverseStep, ha]
    have hframe : Seg (Function.update h.entry a (some ⟨v, last none ys, q⟩)) none ys (some a) := by
      apply hys.frame
      intro b hb
      exact Function.update_of_ne (ne_of_mem_of_not_mem hb hay) _ _
    rw [last_append, last_cons, last_nil, run_loop_inl hstep, ih _ _ fuel hframe (by simpa using hf)]
    congr 2
    funext b
    by_cases hb : b = a
    · subst hb
      simp [swapLinks, hay, ha, Cell.swap]
    · simp [swapLinks, hb]

theorem listReverse_rep (r : RepIn F h c) {l : Addr} {xs : Chain} (hl : c l = some xs) :
    ∃ h', (listReverse l).run h = .ok () h' ∧ RepIn F h' (Function.update c l (some xs.reverse)) := by
  have hlist := r.list_eq hl
  have hseg := r.seg hl
  have hloop := loop_reverse xs none
    { h with list := Function.update h.list l (some (header xs.reverse)) } (h.fresh + 1) hseg
    (Nat.lt_succ_of_le (r.length_le hl))
  have hback : header xs.reverse = ⟨xs.length, last none xs, first xs none⟩ := by
    simp [header, first_reverse, last_reverse]
  refine ⟨⟨swapLinks (addrs xs) h.entry, Function.update h.list l (some (header xs.reverse)),
    h.fresh⟩, ?_, ?_⟩
  · simp only [listReverse, run_bind_loadList, hlist, run_bind_modifyList, run_bind_get,
      Function.update_self, Function.update_idem]
    rw [hback] at hloop ⊢
    exact hloop
  · refine r.replace hl rfl (hseg.swapLinks _ (fun a ha => ha)) ?_ ?_ ?_ (Nat.le_refl _) ?_
    · intro a ha _
      simp [swapLinks, ha]
    · intro a ha
      exact Or.inl (by simpa using ha)
    · intro a ha
      exact r.entryBelow hl a (by simpa using ha)
    · intro x hx
      exact r.wf hl x (by simpa using hx)

/-- Unshifting onto an empty list. -/
theorem listUnshift_nil_rep (r : RepIn F h c) {l : Addr} (hl : c l = some []) {value : Str}
    {text : Bytes} (hv : Holds value text) :
    ∃ h' str, (listUnshift l value).run h = .ok () h' ∧ Holds str text ∧
      RepIn F h' (Function.update c l (some [(h.fresh, str)])) := by
  obtain ⟨str, hnew, hstr, -⟩ := listEntryNew_holds value text hv h
  have hlist := r.list_eq hl
  refine ⟨⟨Function.update h.entry h.fresh (some ⟨str, none, none⟩),
    Function.update h.list l (some (header [(h.fresh, str)])), h.fresh + 1⟩, str, ?_, hstr, ?_⟩
  · simp only [listUnshift]
    rw [run_bind_ok hnew]
    simp [hlist, header]
  · refine r.replace hl rfl ⟨by simp, trivial⟩ ?_ ?_ ?_ (Nat.le_succ _) ?_
    · intro a _ ha
      simp [Nat.ne_of_lt ha]
    · intro a ha
      right
      simp only [addrs_cons, addrs_nil, List.mem_singleton] at ha
      exact Nat.le_of_eq ha.symm
    · intro a ha
      simp only [addrs_cons, addrs_nil, List.mem_singleton] at ha
      subst ha
      exact Nat.lt_succ_self _
    · intro x hx
      rw [List.mem_singleton.mp hx]
      exact hstr.wf

/-- A list without entries can go. -/
theorem RepIn.drop (r : RepIn F h c) {l : Addr} (hl : c l = some []) :
    RepIn F { h with list := Function.update h.list l none } (Function.update c l none) := by
  have hold : ∀ {k xs}, Function.update c l none k = some xs → k ≠ l ∧ c k = some xs := by
    intro k xs hk
    by_cases hkl : k = l
    · subst hkl
      simp at hk
    · rw [Function.update_of_ne hkl] at hk
      exact ⟨hkl, hk⟩
  constructor
  · intro k
    by_cases hkl : k = l
    · subst hkl
      have hrest : F.list k = none := by
        cases hx : F.list k with
        | none => rfl
        | some x => exact absurd rfl (ne_of_none (r.restList hx).1 hl)
      simp [hrest]
    · simp [hkl, r.lists]
  · intro k xs hk
    exact r.seg (hold hk).2
  · intro k k' xs ys hk hk' hne
    exact r.apart (hold hk).2 (hold hk').2 hne
  · intro k xs hk
    exact r.entryBelow (hold hk).2
  · intro k xs hk
    exact r.listBelow (hold hk).2
  · intro k xs hk
    exact r.wf (hold hk).2
  · exact r.rest
  · intro a x k xs hx hk
    exact r.restApart hx (hold hk).2
  · intro k x hx
    obtain ⟨hnone, hlt⟩ := r.restList hx
    rw [Function.update_of_ne (ne_of_none hnone hl)]
    exact ⟨hnone, hlt⟩

theorem listDestroy_rep (r : RepIn F h c) {l : Addr} {xs : Chain} (hl : c l = some xs) :
    ∃ h', (listDestroy l).run h = .ok () h' ∧ RepIn F h' (Function.update c l none) := by
  obtain ⟨h₁, htrunc, -, r₁⟩ := listTruncate_rep r hl
  have r₂ := r₁.drop (Function.update_self _ _ _)
  rw [Function.update_idem] at r₂
  refine ⟨_, ?_, r₂⟩
  simp only [listDestroy]
  rw [run_bind_ok htrunc]
  rfl

/-- A loop along the forward links ends at the first entry with the text `k`, up to its first NUL. -/
theorem loop_seek {β : Type} {step : Option Addr → Act Heap (Option Addr ⊕ β)} {miss : β} (hit : Addr → β)
    {k : Bytes} {h : Heap} (hmiss : (step none).run h = .ok (.inr miss) h)
    (hstep : ∀ a c, h.entry a = some c → c.value.WF →
      (step (some a)).run h = .ok (if cText c.value.text = k then .inr (hit a) else .inl c.next) h)
    (xs : Chain) (fuel : Nat) (hp : Path h.entry xs none) (hw : ∀ x ∈ xs, x.2.WF) (hf : xs.length < fuel) :
    (loop step fuel (first xs none)).run h =
      .ok (((xs.find? fun x => cText x.2.text = k).map (hit ∘ Prod.fst)).getD miss) h := by
  induction xs generalizing fuel with
  | nil =>
    obtain ⟨fuel, rfl⟩ : ∃ n, fuel = n + 1 := ⟨fuel - 1, by simp at hf; omega⟩
    exact run_loop_inr hmiss
  | cons x xs ih =>
    obtain ⟨a, v⟩ := x
    obtain ⟨fuel, rfl⟩ : ∃ n, fuel = n + 1 := ⟨fuel - 1, by simp at hf; omega⟩
    obtain ⟨⟨p, ha⟩, hp'⟩ := hp
    have hround := hstep a _ ha (hw (a, v) (by simp))
    rw [first_cons]
    by_cases heq : cText v.text = k
    · rw [if_pos heq] at hround
      rw [run_loop_inr hround]
      simp [heq]
    · rw [if_neg heq] at hround
      rw [run_loop_inl hround, ih fuel hp' (fun x hx => hw x (List.mem_cons_of_mem _ hx)) (by simpa using hf)]
      simp [heq]

/-- What such a loop compares in a round. -/
theorem run_strCmp_if {key k : Bytes} (hk : cString key = some k) {v : Str} (hv : v.WF) {α : Type} (a b : α)
    (h : Heap) : (strCmp v key >>= fun rc => if rc = 0 then pure a else pure b : Act Heap α).run h =
      .ok (if cText v.text = k then a else b) h := by
  rw [run_bind_ok (strCmp_holds hv hk h)]
  by_cases heq : cText v.text = k
  · rw [if_pos ((strcmp_eq_zero _ _).mpr heq), if_pos heq]
    rfl
  · rw [if_neg (mt (strcmp_eq_zero _ _).mp heq), if_neg heq]
    rfl

/-- `list_find` compares the texts up to their first NUL. -/
theorem loop_find {string k : Bytes} (hk : cString string = some k) (xs : Chain) (h : Heap)
    (fuel : Nat) (hp : Path h.entry xs none) (hw : ∀ x ∈ xs, x.2.WF) (hf : xs.length < fuel) :
    (loop (findStep string) fuel (first xs none)).run h =
      .ok ((texts xs).any fun t => cText t = k) h := by
  have hmiss : (findStep string none).run h = .ok (.inr false) h := rfl
  have hstep : ∀ a c, h.entry a = some c → c.value.WF → (findStep string (some a)).run h =
      .ok (if cText c.value.text = k then .inr true else .inl c.next) h := by
    intro a c ha hc
    simp only [findStep, run_bind_loadEntry, ha]
    exact run_strCmp_if hk hc _ _ h
  rw [loop_seek (fun _ => true) hmiss hstep xs fuel hp hw hf, texts, List.any_map]
  have hany : (xs.any fun x => cText x.2.text = k) = (xs.find? fun x => cText x.2.text = k).isSome :=
    List.isSome_find?.symm
  refine congrArg (Outcome.ok · h) (Eq.trans ?_ hany.symm)
  cases xs.find? fun x => cText x.2.text = k with
  | none => rfl
  | some x => rfl

theorem listFind_rep (r : RepIn F h c) {l : Addr} {xs : Chain} (hl : c l = some xs) {string k : Bytes}
    (hk : cString string = some k) :
    (listFind l string).run h = .ok ((texts xs).any fun t => cText t = k) h := by
  simp only [listFind, run_bind_loadList, r.list_eq hl, run_bind_get, header]
  exact loop_find hk xs h _ (r.seg hl).path (fun x hx => r.wf hl x hx)
    (Nat.lt_succ_of_le (r.length_le hl))

end NcList
