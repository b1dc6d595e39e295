import NaturalC.Accounts
import NaturalC.NcListRuns

/-!
# No entry is lost

Each function on lists either links an entry into a list and counts it there, or frees it and takes
it off the count. So the entries in the heap are never more than the lists count, and since the
lists hold as many as they count, every entry is on a list.
-/
namespace NcList

open Throwing Throwing.Act NcString Linked Accounts

/-- No cell is above the bound. -/
structure Bounded (h : Heap) : Prop where
  entry : ∀ a, (h.entry a).isSome → a < h.fresh
  list : ∀ l, (h.list l).isSome → l < h.fresh

/-- The entries in the heap that no list counts. -/
def Heap.debt (h : Heap) : Int := (used h.fresh h.entry : Int) - counted ListT.count h.fresh h.list

/-- The debt grows by `d` at most, and no list comes into being. -/
structure Costs (d : Int) (h h' : Heap) : Prop where
  bounded : Bounded h'
  debt : h'.debt ≤ h.debt + d
  lists : ∀ l, (h'.list l).isSome → (h.list l).isSome

variable {α β : Type} {h h' : Heap} {d e : Int}

theorem Costs.refl (hb : Bounded h) : Costs 0 h h := ⟨hb, by omega, fun _ hl => hl⟩

theorem Costs.trans {h'' : Heap} (hc : Costs d h h') (hc' : Costs e h' h'') : Costs (d + e) h h'' :=
  ⟨hc'.bounded, by have h₁ := hc.debt; have h₂ := hc'.debt; omega, fun l hl => hc.lists l (hc'.lists l hl)⟩

theorem bounded_freshEntry (hb : Bounded h) : h.entry h.fresh = none := by
  cases he : h.entry h.fresh with
  | none => rfl
  | some x => exact absurd (hb.entry h.fresh (by simp [he])) (Nat.lt_irrefl _)

theorem bounded_freshList (hb : Bounded h) : h.list h.fresh = none := by
  cases he : h.list h.fresh with
  | none => rfl
  | some x => exact absurd (hb.list h.fresh (by simp [he])) (Nat.lt_irrefl _)

/-! ## The primitives -/

theorem costs_modifyEntry (hb : Bounded h) {a : Addr} {c : Cell Str} (ha : h.entry a = some c) (x : Cell Str) :
    Costs 0 h { h with entry := Function.update h.entry a (some x) } := by
  have hsome : (h.entry a).isSome := by simp [ha]
  refine ⟨⟨?_, hb.list⟩, ?_, fun _ hl => hl⟩
  · intro b hbs
    rcases isSome_of_update hbs with rfl | hold
    · exact hb.entry _ hsome
    · exact hb.entry b hold
  · simp only [Heap.debt, used_overwrite hsome]
    omega

theorem costs_modifyList (hb : Bounded h) {l : Addr} {y : ListT} (hl : h.list l = some y) (x : ListT) :
    Costs (y.count - x.count) h { h with list := Function.update h.list l (some x) } := by
  have hsome : (h.list l).isSome := by simp [hl]
  have hlt := hb.list l hsome
  refine ⟨⟨hb.entry, ?_⟩, ?_, ?_⟩
  · intro k hk
    rcases isSome_of_update hk with rfl | hold
    · exact hlt
    · exact hb.list k hold
  · have hcount := counted_replace ListT.count (k := h.list) hlt (some x)
    rw [share_eq hl] at hcount
    simp only [Option.map_some, Option.getD_some] at hcount
    simp only [Heap.debt]
    omega
  · intro k hk
    rcases isSome_of_update hk with rfl | hold
    · exact hsome
    · exact hold

theorem costs_destroyEntry (hb : Bounded h) {a : Addr} {c : Cell Str} (ha : h.entry a = some c) :
    Costs (-1) h { h with entry := Function.update h.entry a none } := by
  have hsome : (h.entry a).isSome := by simp [ha]
  refine ⟨⟨?_, hb.list⟩, ?_, fun _ hl => hl⟩
  · intro b hbs
    rcases isSome_of_update hbs with rfl | hold
    · exact hb.entry _ hsome
    · exact hb.entry b hold
  · have hused := used_remove (hb.entry a hsome) hsome
    simp only [Heap.debt]
    omega

theorem costs_newEntry (hb : Bounded h) (x : Cell Str) :
    Costs 1 h { h with entry := Function.update h.entry h.fresh (some x), fresh := h.fresh + 1 } := by
  refine ⟨⟨?_, fun l hl => Nat.lt_succ_of_lt (hb.list l hl)⟩, ?_, fun _ hl => hl⟩
  · intro b hbs
    rcases isSome_of_update hbs with rfl | hold
    · exact Nat.lt_succ_self _
    · exact Nat.lt_succ_of_lt (hb.entry b hold)
  · have hused := used_take (n := h.fresh) (m := h.entry) x
    have hcount := counted_succ ListT.count (bounded_freshList hb)
    simp only [Heap.debt]
    omega

/-! ## Computations -/

/-- The computation does not fail, and the debt moves by `d` at most. -/
def Moves (d : Int) (m : Act Heap α) : Prop :=
  ∀ h, Bounded h → (∃ e, m.run h = .halt e) ∨ ∃ a h', m.run h = .ok a h' ∧ Costs d h h'

/-- The computation does not leave anything behind. -/
def Keeps (m : Act Heap α) : Prop := ∀ h, Bounded h → (m.run h).Leaves (Costs 0 h)

theorem Moves.keeps {m : Act Heap α} (hm : Moves 0 m) : Keeps m := by
  intro h hb
  rcases hm h hb with ⟨e, hrun⟩ | ⟨a, h', hrun, hc⟩
  · rw [hrun]
    trivial
  · rw [hrun]
    exact hc

theorem Moves.bind {m : Act Heap α} {f : α → Act Heap β} (hm : Moves d m) (hf : ∀ a, Moves e (f a)) :
    Moves (d + e) (m >>= f) := by
  intro h hb
  rcases hm h hb with ⟨e, hrun⟩ | ⟨a, h', hrun, hc⟩
  · exact Or.inl ⟨e, run_bind_halt hrun⟩
  · rw [run_bind_ok hrun]
    rcases hf a h' hc.bounded with ⟨e, hrun'⟩ | ⟨b, h'', hrun', hc'⟩
    · exact Or.inl ⟨e, hrun'⟩
    · exact Or.inr ⟨b, h'', hrun', hc.trans hc'⟩

theorem Keeps.bind {m : Act Heap α} {f : α → Act Heap β} (hm : Keeps m) (hf : ∀ a, Keeps (f a)) : Keeps (m >>= f) := by
  intro h hb
  apply leaves_bind (hm h hb) (fun _ ht => ht)
  intro a t _ ht
  exact (hf a t ht.bounded).imp fun u hu => ht.trans hu

theorem moves_pure (a : α) : Moves 0 (pure a : Act Heap α) := fun h hb => Or.inr ⟨a, h, rfl, Costs.refl hb⟩

theorem moves_get : Moves 0 (get : Act Heap Heap) := fun h hb => Or.inr ⟨h, h, rfl, Costs.refl hb⟩

theorem moves_deref (o : Option α) : Moves 0 (deref o : Act Heap α) := by
  intro h hb
  cases o with
  | none => exact Or.inl ⟨.fault, rfl⟩
  | some a => exact Or.inr ⟨a, h, rfl, Costs.refl hb⟩

theorem keeps_throwing : Keeps (throwing : Act Heap α) := fun _ hb => Costs.refl hb

theorem keeps_stop (e : Halt) : Keeps (stop e : Act Heap α) := fun _ _ => trivial

theorem keeps_onLocal {τ : Type} (m : Act τ α) (t : τ) : Keeps (onLocal m t : Act Heap (α × τ)) := by
  intro h hb
  apply (leaves_onLocal m t h).imp
  rintro _ rfl
  exact Costs.refl hb

theorem Keeps.attempt {m : Act Heap α} (hm : Keeps m) : Keeps (Act.attempt m) := fun h hb => leaves_attempt (hm h hb)

theorem Moves.ite {p : Prop} [Decidable p] {m k : Act Heap α} (hm : Moves d m) (hk : Moves d k) :
    Moves d (if p then m else k) := by
  split
  · exact hm
  · exact hk

theorem Keeps.ite {p : Prop} [Decidable p] {m k : Act Heap α} (hm : Keeps m) (hk : Keeps k) :
    Keeps (if p then m else k) := by
  split
  · exact hm
  · exact hk

theorem Keeps.loop {step : β → Act Heap (β ⊕ α)} (hstep : ∀ b, Keeps (step b)) (fuel : Nat) (b : β) :
    Keeps (loop step fuel b) := by
  induction fuel generalizing b with
  | zero => exact keeps_stop .diverge
  | succ fuel ih =>
    apply (hstep b).bind
    intro r
    cases r with
    | inl b' => exact ih b'
    | inr a => exact (moves_pure a).keeps

theorem moves_loadList (l : Addr) : Moves 0 (loadList l) := moves_get.bind fun h => moves_deref (h.list l)

theorem moves_loadEntry (a : Addr) : Moves 0 (loadEntry a) := moves_get.bind fun h => moves_deref (h.entry a)

theorem moves_modifyEntry (a : Addr) (f : Cell Str → Cell Str) : Moves 0 (modifyEntry a f) := by
  intro h hb
  cases ha : h.entry a with
  | none => exact Or.inl ⟨.fault, by simp [modifyEntry, ha]⟩
  | some c => exact Or.inr ⟨(), _, by simp [modifyEntry, ha], costs_modifyEntry hb ha (f c)⟩

/-- A list whose count goes down by `d` at most. -/
theorem moves_modifyList (l : Addr) {f : ListT → ListT} (hf : ∀ x, (x.count : Int) - (f x).count ≤ d) :
    Moves d (modifyList l f) := by
  intro h hb
  cases hl : h.list l with
  | none => exact Or.inl ⟨.fault, by simp [modifyList, hl]⟩
  | some x =>
    have hc := costs_modifyList hb hl (f x)
    have hd := hf x
    refine Or.inr ⟨(), _, by simp [modifyList, hl], hc.bounded, ?_, hc.lists⟩
    have hdebt := hc.debt
    omega

theorem moves_listEntryDestroy (ent : Addr) : Moves (-1) (listEntryDestroy ent) := by
  intro h hb
  cases ha : h.entry ent with
  | none => exact Or.inl ⟨.fault, by simp [listEntryDestroy, ha]⟩
  | some c => exact Or.inr ⟨(), _, by simp [listEntryDestroy, ha], costs_destroyEntry hb ha⟩

/-! ## The functions -/

theorem moves_unlessHead {p : Prop} [Decidable p] {l : Addr} {f : ListT → ListT} {m : Act Heap Unit}
    (hf : ∀ x, (f x).count = x.count) (hm : Moves d m) :
    Moves d (if p then modifyList l f >>= fun _ => m else m) := by
  split
  · have hlist : Moves 0 (modifyList l f) := moves_modifyList l fun x => by rw [hf]; omega
    have hboth := hlist.bind fun _ => hm
    rwa [Int.zero_add] at hboth
  · exact hm

theorem moves_linked {o : Option Addr} {f : Addr → Cell Str → Cell Str} {m : Act Heap Unit} (hm : Moves d m) :
    Moves d (match o with
      | some a => modifyEntry a (f a) >>= fun _ => m
      | none => m) := by
  cases o with
  | none => exact hm
  | some a =>
    have hboth := (moves_modifyEntry a (f a)).bind fun _ => hm
    rwa [Int.zero_add] at hboth

theorem moves_countUp (l : Addr) : Moves (-1) (modifyList l fun d => { d with count := d.count + 1 }) :=
  moves_modifyList l fun x => by simp

/-- Linking a new entry counts it. -/
theorem moves_listEntryAppend (dest n : Addr) : Moves (-1) (listEntryAppend dest n) := by
  have hcount : Moves (-1) (do
      modifyList dest (fun d => { d with tail := some n })
      modifyList dest (fun d => { d with count := d.count + 1 })) := by
    have htail : Moves 0 (modifyList dest fun d => { d with tail := some n }) := moves_modifyList dest fun x => by simp
    exact htail.bind (e := -1) fun _ => moves_countUp dest
  apply (moves_loadList dest).bind (e := -1)
  intro d
  apply (moves_modifyEntry n _).bind (e := -1)
  intro _
  apply (moves_modifyEntry n _).bind (e := -1)
  intro _
  exact moves_linked (moves_unlessHead (fun _ => rfl) hcount)

theorem run_onLocal_halt {τ : Type} {m : Act τ α} {t : τ} {e : Halt} (hm : m.run t = .halt e) (h : Heap) :
    (onLocal m t : Act Heap (α × τ)).run h = .halt e := by
  have hm : m t = .halt e := hm
  change onLocal m t h = .halt e
  rw [onLocal, hm]

theorem listEntryNew_cases (value : Str) (hb : Bounded h) :
    (∃ e, (listEntryNew value).run h = .halt e) ∨ (listEntryNew value).run h = .thrown h ∨
      ∃ h', (listEntryNew value).run h = .ok h.fresh h' ∧ Costs 1 h h' := by
  obtain ⟨str, hnew, -⟩ := strNew_holds h
  simp only [listEntryNew]
  rw [run_bind_ok hnew]
  cases hcopy : (strCopy true value).run str with
  | ok a t =>
    rw [run_bind_ok (run_onLocal_ok hcopy h)]
    exact Or.inr (Or.inr ⟨_, rfl, costs_newEntry hb _⟩)
  | thrown t => exact Or.inr (Or.inl (run_bind_thrown (run_onLocal_thrown hcopy h)))
  | halt e =>
    exact Or.inl ⟨e, run_bind_halt (run_onLocal_halt hcopy h)⟩

/-- A new entry that is linked and counted. -/
theorem keeps_newEntry (value : Str) {f : Addr → Act Heap Unit} (hf : ∀ n, Moves (-1) (f n)) :
    Keeps (listEntryNew value >>= f) := by
  intro h hb
  rcases listEntryNew_cases value hb with ⟨e, hrun⟩ | hrun | ⟨h', hrun, hc⟩
  · rw [run_bind_halt hrun]
    trivial
  · rw [run_bind_thrown hrun]
    exact Costs.refl hb
  · rw [run_bind_ok hrun]
    rcases hf h.fresh h' hc.bounded with ⟨e, hrun'⟩ | ⟨a, h'', hrun', hc'⟩
    · rw [hrun']
      trivial
    · rw [hrun']
      exact hc.trans hc'

theorem keeps_listPush (list : Addr) (item : Str) : Keeps (listPush list item) :=
  keeps_newEntry item (moves_listEntryAppend list)

theorem keeps_listUnshift (dest : Addr) (value : Str) : Keeps (listUnshift dest value) := by
  apply keeps_newEntry value
  intro n
  apply (moves_loadList dest).bind (e := -1)
  intro d
  have hcount : Moves (-1) (do
      modifyList dest (fun d => { d with head := some n })
      modifyList dest (fun d => { d with count := d.count + 1 })) := by
    have hhead : Moves 0 (modifyList dest fun d => { d with head := some n }) := moves_modifyList dest fun x => by simp
    exact hhead.bind (e := -1) fun _ => moves_countUp dest
  have htail : Moves 0 (modifyList dest fun d => { d with tail := some n }) := moves_modifyList dest fun x => by simp
  split
  · exact (moves_modifyEntry n _).bind (e := -1) fun _ => hcount
  · exact htail.bind (e := -1) fun _ => hcount

/-- An entry that is freed is taken off the count. -/
theorem moves_listEntryDelete (list ent : Addr) : Moves 0 (listEntryDelete list ent) := by
  have hfree : Moves 0 (do
      modifyList list (fun l => { l with count := l.count - 1 })
      listEntryDestroy ent) := by
    have hcount : Moves 1 (modifyList list fun l => { l with count := l.count - 1 }) :=
      moves_modifyList list fun x => by simp only; omega
    exact hcount.bind (e := -1) fun _ => moves_listEntryDestroy ent
  have hunlink : Moves 0 (do
      let e ← loadEntry ent
      let l ← loadList list
      if l.head = some ent then modifyList list (fun l => { l with head := e.next }) else pure ()
      if l.tail = some ent then modifyList list (fun l => { l with tail := e.prev }) else pure ()
      modifyList list (fun l => { l with count := l.count - 1 })
      listEntryDestroy ent) := by
    apply (moves_loadEntry ent).bind (e := 0)
    intro e
    apply (moves_loadList list).bind (e := 0)
    intro l
    exact moves_unlessHead (fun _ => rfl) (moves_unlessHead (fun _ => rfl) hfree)
  have hback : Moves 0 (do
      let e ← loadEntry ent
      match e.prev with
      | some p => modifyEntry p (fun c => { c with next := e.next })
      | none => pure ()
      let e ← loadEntry ent
      let l ← loadList list
      if l.head = some ent then modifyList list (fun l => { l with head := e.next }) else pure ()
      if l.tail = some ent then modifyList list (fun l => { l with tail := e.prev }) else pure ()
      modifyList list (fun l => { l with count := l.count - 1 })
      listEntryDestroy ent) := by
    apply (moves_loadEntry ent).bind (e := 0)
    intro e
    exact moves_linked hunlink
  apply (moves_loadEntry ent).bind (e := 0)
  intro e
  exact moves_linked hback

theorem keeps_moveValue (dest : Str) (ent : Addr) : Keeps (moveValue dest ent) := by
  apply (moves_loadEntry ent).keeps.bind
  intro e
  apply (keeps_onLocal _ _).bind
  intro x
  exact (moves_modifyEntry ent _).keeps.bind fun _ => (moves_pure _).keeps

theorem keeps_listPop (dest : Str) (list : Addr) : Keeps (listPop dest list) := by
  apply (moves_loadList list).keeps.bind
  intro l
  cases l.tail with
  | none => exact keeps_throwing
  | some t =>
    apply (keeps_moveValue dest t).bind
    intro d
    exact (moves_listEntryDelete list t).keeps.bind fun _ => (moves_pure d).keeps

theorem keeps_listEntryGet (src : Addr) (offset : Nat) : Keeps (listEntryGet src offset) := by
  apply (moves_loadList src).keeps.bind
  intro l
  apply Keeps.ite keeps_throwing
  apply moves_get.keeps.bind
  intro h
  apply Keeps.loop
  rintro ⟨o, count⟩
  cases o with
  | none => exact keeps_stop .abort
  | some cur =>
    apply Keeps.ite (moves_pure _).keeps
    exact (moves_loadEntry cur).keeps.bind fun _ => (moves_pure _).keeps

theorem keeps_listGet (dest : Str) (src : Addr) (offset : Nat) : Keeps (listGet dest src offset) := by
  apply (keeps_listEntryGet src offset).bind
  intro ent
  apply (moves_loadEntry ent).keeps.bind
  intro e
  exact (keeps_onLocal _ _).bind fun _ => (moves_pure _).keeps

theorem keeps_listShift (dest : Str) (list : Addr) : Keeps (listShift dest list) := by
  apply (moves_loadList list).keeps.bind
  intro l
  apply Keeps.ite keeps_throwing
  apply (keeps_listEntryGet list 0).bind
  intro ent
  apply (keeps_moveValue dest ent).bind
  intro d
  exact (moves_listEntryDelete list ent).keeps.bind fun _ => (moves_pure d).keeps

theorem keeps_listCat (dest : Addr) (value : Bytes) : Keeps (listCat dest value) := by
  have hnew : Keeps (strNew true true : Act Heap Str) := fun h hb => Costs.refl hb
  apply hnew.bind
  intro str
  exact (keeps_onLocal _ _).bind fun _ => keeps_listPush dest _

theorem keeps_catAll (list : Addr) (args : List Bytes) : Keeps (catAll list args) := by
  induction args with
  | nil => exact (moves_pure ()).keeps
  | cons cp args ih => exact (keeps_listCat list cp).bind fun _ => ih

theorem keeps_listReverse (list : Addr) : Keeps (listReverse list) := by
  apply (moves_loadList list).keeps.bind
  intro l
  have hhead : Moves 0 (modifyList list fun l => { l with head := l.tail }) := moves_modifyList list fun x => by simp
  have htail : Moves 0 (modifyList list fun x => { x with tail := l.head }) := moves_modifyList list fun x => by simp
  apply hhead.keeps.bind
  intro _
  apply htail.keeps.bind
  intro _
  apply (moves_loadList list).keeps.bind
  intro l
  apply moves_get.keeps.bind
  intro h
  apply Keeps.loop
  intro o
  cases o with
  | none => exact (moves_pure _).keeps
  | some ptr =>
    apply (moves_loadEntry ptr).keeps.bind
    intro tmp
    apply (moves_modifyEntry ptr _).keeps.bind
    intro _
    apply (moves_modifyEntry ptr _).keeps.bind
    intro _
    exact (moves_loadEntry ptr).keeps.bind fun _ => (moves_pure _).keeps

theorem keeps_copyStep (dest : Addr) (o : Option Addr) : Keeps (copyStep dest o) := by
  cases o with
  | none => exact (moves_pure _).keeps
  | some cur =>
    apply (moves_loadEntry cur).keeps.bind
    intro c
    apply (keeps_listPush dest c.value).bind
    intro _
    exact (moves_loadEntry cur).keeps.bind fun _ => (moves_pure _).keeps

theorem keeps_deleteAt (l : Addr) (k : Nat) : Keeps (deleteAt l k) := by
  have hwalk : ∀ k p, Keeps (walk k p) := by
    intro k
    induction k with
    | zero => exact fun p => (moves_deref p).keeps
    | succ k ih =>
      intro p
      apply (moves_deref p).keeps.bind
      intro a
      exact (moves_loadEntry a).keeps.bind fun c => ih c.next
  apply (moves_loadList l).keeps.bind
  intro x
  exact (hwalk k x.head).bind fun a => (moves_listEntryDelete l a).keeps

/-! ## Lists as a whole -/

variable {c : Addr → Option Chain} {l : Addr} {xs : Chain}

theorem isSome_of_mem {m : Mem Str} {p q : Option Addr} {a : Addr} (hs : Seg m p xs q) (ha : a ∈ addrs xs) :
    (m a).isSome := by
  obtain ⟨⟨b, v⟩, hx, rfl⟩ := List.mem_map.mp ha
  obtain ⟨us, vs, rfl⟩ := List.append_of_mem hx
  rw [hs.prev]
  rfl

/-- All entries of a list are freed, as many as it counts. -/
theorem listTruncate_costs (r : Rep h c) (hb : Bounded h) (hl : c l = some xs) :
    ((listTruncate l).run h).Leaves (Costs 0 h) := by
  have hlist := r.list_eq hl
  have hseg := r.seg hl
  have hloop := loop_truncate xs h (h.fresh + 1) hseg.path hseg.nodup (Nat.lt_succ_of_le (r.length_le hl))
  have hrun : (listTruncate l).run h =
      .ok () ⟨release (addrs xs) h.entry, Function.update h.list l (some (header [])), h.fresh⟩ := by
    simp only [listTruncate, run_bind_loadList, hlist, run_bind_get]
    rw [show (header xs).head = first xs none from rfl, run_bind_ok hloop]
    simp [hlist, header]
  have hfreed := used_removeAll (m := h.entry) hseg.nodup fun a ha => ⟨r.entryBelow hl a ha, isSome_of_mem hseg ha⟩
  have hcounted := (costs_modifyList hb hlist (header [])).debt
  rw [hrun]
  refine ⟨⟨?_, (costs_modifyList hb hlist (header [])).bounded.list⟩, ?_, (costs_modifyList hb hlist (header [])).lists⟩
  · intro a ha
    apply hb.entry a
    change (release (addrs xs) h.entry a).isSome at ha
    rw [release] at ha
    split at ha
    · cases ha
    · exact ha
  · have hlen : (header xs).count = (addrs xs).length := by simp [header]
    have hzero : (header ([] : Chain)).count = 0 := rfl
    have hrelease : used h.fresh (release (addrs xs) h.entry) + (addrs xs).length = used h.fresh h.entry := hfreed
    simp only [Heap.debt, hzero] at hcounted ⊢
    omega

theorem listDestroy_costs (r : Rep h c) (hb : Bounded h) (hl : c l = some xs) :
    ((listDestroy l).run h).Leaves fun h' => Costs 0 h h' ∧ h'.list l = none := by
  obtain ⟨h₁, htrunc, -, r₁⟩ := listTruncate_rep r hl
  have hc := (listTruncate_costs r hb hl).of_ok htrunc
  have hlist : h₁.list l = some (header []) := r₁.list_eq (Function.update_self _ _ _)
  have hlt := hc.bounded.list l (by simp [hlist])
  have hcount := counted_replace ListT.count (k := h₁.list) hlt none
  rw [share_eq hlist] at hcount
  have hzero : (header ([] : Chain)).count = 0 := rfl
  simp only [Option.map_none, Option.getD_none, hzero] at hcount
  have hdrop : ∀ k, (Function.update h₁.list l none k).isSome → (h₁.list k).isSome := by
    intro k hk
    rcases isSome_of_update hk with rfl | hold
    · simp at hk
    · exact hold
  rw [listDestroy, run_bind_ok htrunc]
  refine ⟨⟨⟨hc.bounded.entry, fun k hk => hc.bounded.list k (hdrop k hk)⟩, ?_, fun k hk => hc.lists k (hdrop k hk)⟩,
    Function.update_self _ _ _⟩
  have hdebt := hc.debt
  simp only [Heap.debt] at hdebt ⊢
  omega

/-- The entries that one list counts are counted by another one. -/
theorem costs_handOver {dest src : Addr} (hne : dest ≠ src) (hb : Bounded h) {ys : Chain}
    (hd : h.list dest = some (header [])) (hs : h.list src = some (header ys)) :
    Costs 0 h ⟨h.entry, Function.update (Function.update h.list dest (some (header ys))) src (some (header [])),
      h.fresh⟩ := by
  have hdest := costs_modifyList hb hd (header ys)
  have hs' : Function.update h.list dest (some (header ys)) src = some (header ys) := by
    rw [Function.update_of_ne (Ne.symm hne), hs]
  have hsrc := costs_modifyList hdest.bounded hs' (header [])
  have hboth := hdest.trans hsrc
  have hzero : ((header ([] : Chain)).count : Int) - (header ys).count + ((header ys).count - (header []).count) =
      0 := by
    omega
  rwa [hzero] at hboth

theorem listMove_costs {dest src : Addr} {ys : Chain} (r : Rep h c) (hb : Bounded h) (hne : dest ≠ src)
    (hd : c dest = some xs) (hs : c src = some ys) : ((listMove dest src).run h).Leaves (Costs 0 h) := by
  obtain ⟨h₁, htrunc, -, r₁⟩ := listTruncate_rep r hd
  have hc := (listTruncate_costs r hb hd).of_ok htrunc
  have hs₁ : Function.update c dest (some []) src = some ys := by
    rw [Function.update_of_ne (Ne.symm hne), hs]
  have hdest := r₁.list_eq (Function.update_self dest (some []) c)
  have hsrc := r₁.list_eq hs₁
  have hrun : (listMove dest src).run h = .ok () ⟨h₁.entry,
      Function.update (Function.update h₁.list dest (some (header ys))) src (some (header [])), h₁.fresh⟩ := by
    simp only [listMove]
    rw [run_bind_ok htrunc]
    simp [hdest, hsrc, Ne.symm hne, header]
  rw [hrun]
  exact hc.trans (costs_handOver hne hc.bounded hdest hsrc)

/-- Merging into an empty list. -/
theorem listMerge_costs {dest src : Addr} {ys : Chain} (r : Rep h c) (hb : Bounded h) (hne : dest ≠ src)
    (hd : c dest = some []) (hs : c src = some ys) : ((listMerge dest src).run h).Leaves (Costs 0 h) := by
  have hrun : (listMerge dest src).run h = .ok () ⟨h.entry,
      Function.update (Function.update h.list dest (some (header ys))) src (some (header [])), h.fresh⟩ := by
    simp [listMerge, r.list_eq hd, r.list_eq hs, Ne.symm hne, header]
  rw [hrun]
  exact costs_handOver hne hb (r.list_eq hd) (r.list_eq hs)

/-- Whatever is done after the list has been truncated. -/
theorem listTruncate_then {m : Act Heap α} (r : Rep h c) (hb : Bounded h) (hl : c l = some xs) (hm : Keeps m) :
    ((listTruncate l >>= fun _ => m).run h).Leaves (Costs 0 h) := by
  apply leaves_bind (listTruncate_costs r hb hl) (fun _ ht => ht)
  intro _ t _ ht
  exact (hm t ht.bounded).imp fun u hu => ht.trans hu

theorem listCopy_costs {dest src : Addr} (r : Rep h c) (hb : Bounded h) (hd : c dest = some xs) :
    ((listCopy dest src).run h).Leaves (Costs 0 h) := by
  apply listTruncate_then r hb hd
  apply (moves_loadList src).keeps.bind
  intro s
  apply moves_get.keeps.bind
  intro h
  exact Keeps.loop (keeps_copyStep dest) _ _

theorem listFromChar_costs (r : Rep h c) (hb : Bounded h) (hl : c l = some xs) (args : List Bytes) :
    ((listFromChar l args).run h).Leaves (Costs 0 h) := listTruncate_then r hb hl (keeps_catAll l args)

/-- A new list counts nothing. -/
theorem listNew_debt (hb : Bounded h) : ∃ h', listNew.run h = .ok h.fresh h' ∧ Bounded h' ∧ h'.debt ≤ h.debt ∧
    ∀ l, (h'.list l).isSome → l = h.fresh ∨ (h.list l).isSome := by
  refine ⟨_, rfl, ⟨fun a ha => Nat.lt_succ_of_lt (hb.entry a ha), ?_⟩, ?_, fun l hl => isSome_of_update hl⟩
  · intro l hl
    rcases isSome_of_update hl with rfl | hold
    · exact Nat.lt_succ_self _
    · exact Nat.lt_succ_of_lt (hb.list l hold)
  · have hused := used_succ (bounded_freshEntry hb)
    have hcount := counted_take ListT.count (some ⟨0, none, none⟩) (bounded_freshList hb)
    simp only [Option.map_some, Option.getD_some] at hcount
    simp only [Heap.debt]
    omega

/-! ## Every entry is on a list -/

/-- Each entry in the heap is on one of the lists. -/
def NothingLost (h : Heap) (c : Addr → Option Chain) : Prop :=
  ∀ a, (h.entry a).isSome → ∃ l xs, c l = some xs ∧ a ∈ addrs xs

/-- When the lists count as many entries as there are, they have them all. -/
theorem nothingLost_of_debt (r : Rep h c) (hb : Bounded h) (hdebt : h.debt ≤ 0) : NothingLost h c := by
  intro a ha
  let held : Nat → Finset Nat := fun l => (addrs ((c l).getD [])).toFinset
  have hlisted : ∀ l b, b ∈ held l → ∃ xs, c l = some xs ∧ b ∈ addrs xs := by
    intro l b hb
    cases hl : c l with
    | none => simp [held, hl] at hb
    | some xs => exact ⟨xs, rfl, by simpa [held, hl] using hb⟩
  have hsize : ∀ l < h.fresh, (held l).card = share ListT.count h.list l := by
    intro l _
    rw [share, r.lists l]
    cases hl : c l with
    | none => simp [held, hl, Rest.none]
    | some xs =>
      have hcard := List.toFinset_card_of_nodup (r.seg hl).nodup
      simp [held, hl, hcard, header]
  have hdiff : ∀ i < h.fresh, ∀ j < h.fresh, i ≠ j → Disjoint (held i) (held j) := by
    intro i _ j _ hij
    rw [Finset.disjoint_left]
    intro b hi hj
    obtain ⟨xs, hxs, hbx⟩ := hlisted i b hi
    obtain ⟨ys, hys, hby⟩ := hlisted j b hj
    exact r.apart hxs hys hij b hbx hby
  have hheld : ∀ l < h.fresh, ∀ b ∈ held l, b < h.fresh ∧ (h.entry b).isSome := by
    intro l _ b hbl
    obtain ⟨xs, hxs, hbx⟩ := hlisted l b hbl
    exact ⟨r.entryBelow hxs b hbx, isSome_of_mem (r.seg hxs) hbx⟩
  have hle : used h.fresh h.entry ≤ counted ListT.count h.fresh h.list := by
    rw [Heap.debt] at hdebt
    omega
  obtain ⟨l, -, hal⟩ := held_of_used hsize hdiff hheld hle (hb.entry a ha) ha
  exact ⟨l, hlisted l a hal⟩

/-! ## Runs -/

/-- The lists of the client are all there are, and they count all entries. -/
structure Tidy (w : World) : Prop where
  bounded : Bounded w.heap
  debt : w.heap.debt ≤ 0
  lists : ∀ l, (w.heap.list l).isSome → l ∈ w.lists

variable {w : World} {A B : Seqs} {reply : Option Reply}

theorem Tidy.step (t : Tidy w) (hc : Costs 0 w.heap h') : Tidy { w with heap := h' } :=
  ⟨hc.bounded, by have h₁ := hc.debt; have h₂ := t.debt; dsimp only; omega, fun l hl => t.lists l (hc.lists l hl)⟩

theorem tidy_call {i : Nat} {m : Addr → Act Heap α} {reply : α → Reply} (t : Tidy w)
    (hm : ∀ l, w.lists[i]? = some l → ((m l).run w.heap).Leaves (Costs 0 w.heap)) :
    ((call i m reply).run w).Leaves Tidy := by
  cases hl : w.lists[i]? with
  | none =>
    have hp : (pointer i).run w = .halt .fault := by simp [pointer, hl]
    rw [call, run_bind_halt hp]
    trivial
  | some l =>
    have hp : (pointer i).run w = .ok l w := by simp [pointer, hl]
    have hcall : ((onHeap (m l)).run w).Leaves Tidy := leaves_zoom (hm l hl) fun h hc => t.step hc
    rw [call, run_bind_ok hp]
    exact leaves_bind hcall (fun _ ht => ht) fun _ _ _ ht => ht

theorem tidy_call₂ {dest src : Nat} {m : Addr → Addr → Act Heap Unit} (t : Tidy w)
    (hm : ∀ d s, w.lists[dest]? = some d → w.lists[src]? = some s → ((m d s).run w.heap).Leaves (Costs 0 w.heap)) :
    ((call₂ dest src m).run w).Leaves Tidy := by
  cases hd : w.lists[dest]? with
  | none =>
    have hp : (pointer dest).run w = .halt .fault := by simp [pointer, hd]
    rw [call₂, run_bind_halt hp]
    trivial
  | some d =>
    have hp : (pointer dest).run w = .ok d w := by simp [pointer, hd]
    rw [call₂, run_bind_ok hp]
    cases hs : w.lists[src]? with
    | none =>
      have hq : (pointer src).run w = .halt .fault := by simp [pointer, hs]
      rw [run_bind_halt hq]
      trivial
    | some s =>
      have hq : (pointer src).run w = .ok s w := by simp [pointer, hs]
      have hcall : ((onHeap (m d s)).run w).Leaves Tidy := leaves_zoom (hm d s hd hs) fun h hc => t.step hc
      rw [run_bind_ok hq]
      exact leaves_bind_pure _ hcall

/-- The chain behind a pointer of the client. -/
theorem chain_at (hmap : w.lists.map (fun l => (c l).map texts) = A.map some) {i : Nat}
    (hl : w.lists[i]? = some l) : ∃ xs, c l = some xs ∧ A[i]? = some (texts xs) := by
  have h := congrArg (fun k => k[i]?) hmap
  simp only [List.getElem?_map, hl, Option.map_some] at h
  obtain ⟨xs, hA, hxs⟩ := Option.map_eq_some_iff.mp h.symm
  obtain ⟨zs, hzs, rfl⟩ := Option.map_eq_some_iff.mp hxs.symm
  exact ⟨zs, hzs, hA⟩

/-- Every safe call leaves the heap tidy. -/
theorem exec_tidy (op : Op) (hw : Refines w A) (t : Tidy w) (hsafe : Safe A op)
    (hstep : specStep fitsString A op = some (reply, B)) : ((exec op).run w).Leaves Tidy := by
  obtain ⟨c, r, hn, hmap⟩ := hw
  have hb := t.bounded
  have hne : ∀ {i j a b}, i ≠ j → w.lists[i]? = some a → w.lists[j]? = some b → a ≠ b := pointer_ne hn
  cases op with
  | new =>
    obtain ⟨h', hrun, hb', hdebt, hlists⟩ := listNew_debt hb
    have hz : (onHeap listNew).run w = .ok w.heap.fresh { w with heap := h' } := run_zoom_ok hrun
    rw [exec, run_bind_ok hz]
    refine ⟨hb', Int.le_trans hdebt t.debt, fun l hl => ?_⟩
    rcases hlists l hl with rfl | hold
    · exact List.mem_append_right _ (List.mem_singleton_self _)
    · exact List.mem_append_left _ (t.lists l hold)
  | push i item => exact tidy_call t fun l _ => keeps_listPush l item.1 _ hb
  | unshift i value => exact tidy_call t fun l _ => keeps_listUnshift l value.1 _ hb
  | pop dest i => exact tidy_call t fun l _ => keeps_listPop dest.1 l _ hb
  | shift dest i => exact tidy_call t fun l _ => keeps_listShift dest.1 l _ hb
  | get dest i offset => exact tidy_call t fun l _ => keeps_listGet dest.1 l offset _ hb
  | entryDelete i k => exact tidy_call t fun l _ => keeps_deleteAt l k _ hb
  | cat i value => exact tidy_call t fun l _ => keeps_listCat l _ _ hb
  | reverse i => exact tidy_call t fun l _ => keeps_listReverse l _ hb
  | fromChar i args =>
    apply tidy_call t
    intro l hl
    obtain ⟨xs, hxs, -⟩ := chain_at hmap hl
    exact listFromChar_costs r hb hxs _
  | truncate i =>
    apply tidy_call t
    intro l hl
    obtain ⟨xs, hxs, -⟩ := chain_at hmap hl
    exact listTruncate_costs r hb hxs
  | copy dest src =>
    apply tidy_call₂ t
    intro d s hd hs
    obtain ⟨xs, hxs, -⟩ := chain_at hmap hd
    exact listCopy_costs r hb hxs
  | move dest src =>
    have hds : dest ≠ src := by
      rintro rfl
      simp [specStep] at hstep
    apply tidy_call₂ t
    intro d s hd hs
    obtain ⟨xs, hxs, -⟩ := chain_at hmap hd
    obtain ⟨ys, hys, -⟩ := chain_at hmap hs
    exact listMove_costs r hb (hne hds hd hs) hxs hys
  | merge dest src =>
    have hds : dest ≠ src := by
      rintro rfl
      simp [specStep] at hstep
    apply tidy_call₂ t
    intro d s hd hs
    obtain ⟨xs, hxs, hA⟩ := chain_at hmap hd
    obtain ⟨ys, hys, -⟩ := chain_at hmap hs
    have hempty : xs = [] := by
      have htexts := hsafe.2 (texts xs) hA
      simpa [texts] using htexts
    rw [hempty] at hxs
    exact listMerge_costs r hb (hne hds hd hs) hxs hys

theorem execAll_tidy (ops : List Op) {w : World} {A : Seqs} {rs : List (Option Reply)} (hw : Refines w A) (t : Tidy w)
    (hsafe : Along fitsString Safe ops A) (hspec : specAll fitsString ops A = some (rs, B)) :
    ∃ w', (execAll ops).run w = .ok rs w' ∧ Refines w' B ∧ Tidy w' := by
  induction ops generalizing w A rs with
  | nil =>
    cases hspec
    exact ⟨w, rfl, hw, t⟩
  | cons op ops ih =>
    obtain ⟨⟨reply, C⟩, hstep, hrest⟩ := Option.bind_eq_some_iff.mp hspec
    obtain ⟨⟨rs', D⟩, hall, he⟩ := Option.bind_eq_some_iff.mp hrest
    cases he
    obtain ⟨w₁, hrun, hw₁⟩ := exec_refines op hw hsafe.1 hstep
    have ht₁ := exec_tidy op hw t hsafe.1 hstep
    rw [hrun] at ht₁
    have t₁ : Tidy w₁ := by
      cases reply with
      | none => exact ht₁
      | some a => exact ht₁
    obtain ⟨w₂, hrun₂, hw₂, t₂⟩ := ih hw₁ t₁ (hsafe.2 _ _ hstep) hall
    refine ⟨w₂, run_attemptAll_cons ?_ hrun₂, hw₂, t₂⟩
    cases reply with
    | none => exact run_attempt_thrown hrun
    | some a => exact run_attempt_ok hrun

theorem tidy_empty : Tidy World.empty := by
  refine ⟨⟨?_, ?_⟩, Int.le_refl 0, ?_⟩
  · intro a ha
    cases ha
  · intro l hl
    cases hl
  · intro l hl
    cases hl

/-- After any safe run of calls, every entry in the heap is on one of the lists that the client has made,
and these are all lists. -/
theorem list_runs_lose_nothing (ops : List Op) (hsafe : Along fitsString Safe ops [])
    (replies : List (Option Reply)) (A : Seqs) (hspec : specAll fitsString ops [] = some (replies, A)) :
    ∃ w c, (execAll ops).run World.empty = .ok replies w ∧ Rep w.heap c ∧ NothingLost w.heap c ∧
      (∀ l, (c l).isSome ↔ l ∈ w.lists) ∧ w.lists.map (fun l => (c l).map texts) = A.map some := by
  obtain ⟨w, hrun, ⟨c, r, hn, hmap⟩, t⟩ := execAll_tidy ops refines_empty tidy_empty hsafe hspec
  refine ⟨w, c, hrun, r, nothingLost_of_debt r t.bounded t.debt, fun l => ⟨?_, ?_⟩, hmap⟩
  · intro hl
    apply t.lists l
    rw [r.lists l]
    cases hc : c l with
    | none => simp [hc] at hl
    | some xs => rfl
  · intro hl
    obtain ⟨i, hi⟩ := List.mem_iff_getElem?.mp hl
    obtain ⟨xs, hxs, -⟩ := chain_at hmap hi
    rw [hxs]
    rfl

/-- Two lists, a copy of the one in the other, and the first one emptied. -/
theorem list_runs_lose_nothing_copied :
    ∃ w c, (execAll [.new, .new, .push 0 (letter 97), .push 0 (letter 98), .copy 1 0, .shift (letter 0) 1,
        .truncate 0]).run World.empty =
        .ok [some .done, some .done, some .done, some .done, some .done, some (.text [97]), some .done] w ∧
      Rep w.heap c ∧ NothingLost w.heap c ∧ (∀ l, (c l).isSome ↔ l ∈ w.lists) ∧
      w.lists.map (fun l => (c l).map texts) = [[], [[98]]].map some :=
  list_runs_lose_nothing _ (by simp [Along, Safe, InReach, DestEmpty, specStep]) _ _ rfl

end NcList
