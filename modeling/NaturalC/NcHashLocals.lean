import NaturalC.NcHashText
import NaturalC.NcHashRuns
import NaturalC.NccCpp

/-!
# Tables and the locals of compiled functions

The translator lets a function make a string object for every local of type `string_t *`
that is not initialised, and destroy at the end what the local then points to. Here the
string objects are told apart, and `hash_serialize` and `hash_from_list` run as compiled,
with the locals that the translator finds in their declarations.
-/
namespace NcHash

open Throwing Throwing.Act NcString NcList Linked Ncc Regex

/-- A string object: the value of a list entry, or one that the function has made. -/
inductive Obj where
  | value (ent : Addr)
  | made (n : Nat)
  deriving DecidableEq, Repr

/-- What a compiled function runs on. -/
structure Frame where
  store : Store
  /-- The objects made by the function. -/
  objects : Nat → Option Str
  allocated : List Obj
  destroyed : List Obj
  locals : Text → Option Obj
  /-- The string of the caller. -/
  str : Str

def enter (s : Store) (str : Str) : Frame := ⟨s, fun _ => none, [], [], fun _ => none, str⟩

def inStore {α : Type} (m : Act Store α) : Act Frame α :=
  zoom Frame.store (fun s f => { f with store := s }) m

/-- What a local points to. -/
def pointee (x : Text) : Act Frame Obj := do
  let f ← get
  deref (f.locals x)

def assign (x : Text) (o : Obj) : Act Frame Unit := do
  let f ← get
  put { f with locals := Function.update f.locals x (some o) }

/-- Read a string object, which must not have been destroyed. -/
def readObj (o : Obj) : Act Frame Str := do
  let f ← get
  if o ∈ f.destroyed then stop .fault
  else match o with
    | .value ent => inStore (onHeap (entryValue ent))
    | .made n => deref (f.objects n)

/-- Run a string function on the object that a local points to. -/
def onObj (x : Text) (m : Act Str Unit) : Act Frame Unit := do
  let o ← pointee x
  let s ← readObj o
  let (_, t) ← onLocal m s
  match o with
  | .value ent => inStore (onHeap (modifyEntry ent fun c => { c with value := t }))
  | .made n => do
    let f ← get
    put { f with objects := Function.update f.objects n (some t) }

/-- Run a string function on the string of the caller. -/
def onStr (m : Act Str Unit) : Act Frame Unit := do
  let f ← get
  let (_, t) ← onLocal m f.str
  let f ← get
  put { f with str := t }

/-! ## What the translator adds -/

/-- `str_new` for one local. -/
def construct (x : Text) : Act Frame Unit := do
  let s ← strNew true true
  let f ← get
  put { f with
    objects := Function.update f.objects f.allocated.length (some s)
    allocated := f.allocated ++ [.made f.allocated.length]
    locals := Function.update f.locals x (some (.made f.allocated.length)) }

def constructAll : List Text → Act Frame Unit
  | [] => pure ()
  | x :: xs => do
    construct x
    constructAll xs

/-- The constructors; all locals are set to `NULL` first. -/
def prologue (xs : List Text) : Act Frame Unit := do
  let f ← get
  put { f with locals := fun x => if xs.contains x then none else f.locals x }
  constructAll xs

/-- The objects that are left without one of them. -/
def without (objects : Nat → Option Str) : Obj → Nat → Option Str
  | .value _ => objects
  | .made n => Function.update objects n none

/-- `destroy` for one local. -/
def destruct (x : Text) : Act Frame Unit := do
  let f ← get
  match f.locals x with
  | none => pure ()
  | some o => do
    let _ ← readObj o
    put { f with
      objects := without f.objects o
      destroyed := f.destroyed ++ [o]
      locals := Function.update f.locals x none }

def epilogue : List Text → Act Frame Unit
  | [] => pure ()
  | x :: xs => do
    destruct x
    epilogue xs

/-- A function with the constructors in front and the destructors at its end. `throw` and `try` return from the
function and do not come to that end. -/
def compiled (xs : List Text) (body : Act Frame Unit) : Act Frame Unit := do
  prologue xs
  body
  epilogue xs

/-- The translator looks at the built-in types only, when it reads declarations. -/
def libEnv : Env := ⟨[], Tables.start.ncTypes, []⟩

/-! ## The two functions -/

/-- The declarations of `hash_serialize`. -/
def serializePreamble : Text :=
  Regex.str "\tstring_t     *buf, *val;\n\tlist_entry_t *ent = NULL;\n\tstring_t     *ptr;\n\tsize_t        i;\n\n"

/-- The locals that get an object. -/
def serializeLocals : List Text := (preambleParse libEnv serializePreamble).autos.map Auto.id

/-- The bytes up to the NUL in the object of a local. -/
def chars (x : Text) : Act Frame Bytes := do
  let o ← pointee x
  let s ← readObj o
  let mem ← deref s.value
  deref (cString mem)

def bufId : Text := Regex.str "buf"

def valId : Text := Regex.str "val"

def ptrId : Text := Regex.str "ptr"

/-- The branch of `hash_serialize` on newlines in a value. -/
def appendValue (text : Bytes) : Act Frame Unit := do
  let o ← pointee ptrId
  let p ← readObj o
  if 10 ∈ text then do
    onObj valId (strCopy true p)
    onObj valId (strSubstRegex newline (charArray [92, 10]))
    let o ← pointee valId
    let v ← readObj o
    onObj bufId (strAppend true v)
  else onObj bufId (strAppend true p)

/-- One round of the loop of `hash_serialize` over a bucket. The local `ptr` is set to the key and
then to the value. -/
def serializeRound : Option Addr → Act Frame (Option Addr ⊕ Unit)
  | none => pure (.inr ())
  | some ent => do
    assign ptrId (.value ent)
    let key ← chars ptrId
    onObj bufId (strSprintf (key ++ [58, 32]))
    let n ← inStore (onHeap (nextEntry ent))
    let ent ← deref n
    assign ptrId (.value ent)
    let text ← chars ptrId
    appendValue text
    onObj bufId (strPutc true 10)
    let o ← pointee bufId
    let b ← readObj o
    onStr (strAppend true b)
    let next ← inStore (onHeap (nextEntry ent))
    pure (.inl next)

/-- The loop of `hash_serialize` over one bucket. -/
def serializeBucket (l : Addr) : Act Frame Unit := do
  let list ← inStore (onHeap (loadList l))
  let f ← get
  loop serializeRound (f.store.heap.fresh + 1) list.head

def serializeSlots (bucket : UInt8 → Option Addr) : List UInt8 → Act Frame Unit
  | [] => pure ()
  | i :: is =>
    match bucket i with
    | none => serializeSlots bucket is
    | some l => do
      serializeBucket l
      serializeSlots bucket is

/-- `hash_serialize` as it is compiled. -/
def serializeCompiled : Act Frame Unit := do
  let f ← get
  compiled serializeLocals (serializeSlots f.store.hash.bucket slots)

/-- The declarations of `hash_from_list`. -/
def fromListPreamble : Text :=
  Regex.str "\tlist_entry_t *cur = NULL;\n\tstring_t *key, *val = NULL;\n\n"

def fromListLocals : List Text := (preambleParse libEnv fromListPreamble).autos.map Auto.id

def keyId : Text := Regex.str "key"

/-- One round of the loop of `hash_from_list`. -/
def fromListRound : Option Addr → Act Frame (Option Addr ⊕ Unit)
  | none => pure (.inr ())
  | some cur => do
    assign keyId (.value cur)
    let n ← inStore (onHeap (nextEntry cur))
    match n with
    | none => throwing
    | some cur => do
      assign valId (.value cur)
      let o ← pointee keyId
      let k ← readObj o
      let mem ← deref k.value
      let v ← readObj (.value cur)
      inStore (hashSet mem v)
      let next ← inStore (onHeap (nextEntry cur))
      pure (.inl next)

def fromListBody (list : Addr) : Act Frame Unit := do
  let l ← inStore (onHeap (loadList list))
  if l.count % 2 ≠ 0 then throwing
  else do
    let f ← get
    loop fromListRound (f.store.heap.fresh + 1) l.head

/-- `hash_from_list` as it is compiled. -/
def fromListCompiled (list : Addr) : Act Frame Unit := compiled fromListLocals (fromListBody list)

theorem fromListLocals_eq :
    fromListLocals = [keyId] ∧ ∀ a ∈ (preambleParse libEnv fromListPreamble).autos, a.pfx = Regex.str "str" := by
  decide +kernel

theorem serializeLocals_eq :
    serializeLocals = [bufId, valId, ptrId] ∧
      ∀ a ∈ (preambleParse libEnv serializePreamble).autos, a.pfx = Regex.str "str" := by
  decide +kernel

/-! ## What the destructors destroy -/

variable {f : Frame} {x : Text} {xs : List Text}

/-- The local points to the value of an entry, which the function has not made. -/
def Astray (x : Text) (f : Frame) : Prop := ∃ a, f.locals x = some (.value a)

/-- Nothing is made or destroyed on the way, and a local that has gone astray stays so. -/
structure Quiet (x : Text) (f g : Frame) : Prop where
  allocated : g.allocated = f.allocated
  destroyed : g.destroyed = f.destroyed
  astray : Astray x f → Astray x g

theorem Quiet.refl (x : Text) (f : Frame) : Quiet x f f := ⟨rfl, rfl, id⟩

theorem Quiet.trans {f g h : Frame} (hfg : Quiet x f g) (hgh : Quiet x g h) : Quiet x f h :=
  ⟨hgh.allocated.trans hfg.allocated, hgh.destroyed.trans hfg.destroyed, fun ha => hgh.astray (hfg.astray ha)⟩

/-- The locals point to the objects made for them, from number `k` on. -/
def Owns (f : Frame) : List Text → Nat → Prop
  | [], _ => True
  | x :: xs, k => f.locals x = some (.made k) ∧ (f.objects k).isSome ∧ Owns f xs (k + 1)

theorem Owns.frame {g : Frame} {k : Nat} (h : Owns f xs k) (hlocals : ∀ y ∈ xs, g.locals y = f.locals y)
    (hobjects : ∀ n, k ≤ n → g.objects n = f.objects n) : Owns g xs k := by
  induction xs generalizing k with
  | nil => trivial
  | cons y xs ih =>
    obtain ⟨hy, hlive, hrest⟩ := h
    refine ⟨(hlocals y (by simp)).trans hy, by rwa [hobjects k (Nat.le_refl k)], ih hrest ?_ ?_⟩
    · intro z hz
      exact hlocals z (List.mem_cons_of_mem _ hz)
    · intro n hn
      exact hobjects n (Nat.le_of_succ_le hn)

/-- The objects from number `k` on. -/
def madeFrom (k n : Nat) : List Obj := (List.range' k n).map .made

theorem madeFrom_succ (k n : Nat) : madeFrom k (n + 1) = .made k :: madeFrom (k + 1) n := by
  rw [madeFrom, List.range'_succ]
  rfl

theorem construct_run (x : Text) (f : Frame) : ∃ s, (construct x).run f = .ok () { f with
    objects := Function.update f.objects f.allocated.length (some s)
    allocated := f.allocated ++ [.made f.allocated.length]
    locals := Function.update f.locals x (some (.made f.allocated.length)) } := ⟨_, rfl⟩

theorem constructs_run (hn : xs.Nodup) (f : Frame) :
    ∃ g, (constructAll xs).run f = .ok () g ∧ g.store = f.store ∧ g.destroyed = f.destroyed ∧
      g.allocated = f.allocated ++ madeFrom f.allocated.length xs.length ∧
      Owns g xs f.allocated.length ∧ (∀ y ∉ xs, g.locals y = f.locals y) ∧
      ∀ n < f.allocated.length, g.objects n = f.objects n := by
  induction xs generalizing f with
  | nil => exact ⟨f, rfl, rfl, rfl, by simp [madeFrom], trivial, fun _ _ => rfl, fun _ _ => rfl⟩
  | cons x xs ih =>
    obtain ⟨hx, hxs⟩ := List.nodup_cons.mp hn
    obtain ⟨s, hnew⟩ := construct_run x f
    obtain ⟨g, hrun, hstore, hdes, halloc, hown, hlocals, hobjects⟩ := ih hxs { f with
      objects := Function.update f.objects f.allocated.length (some s)
      allocated := f.allocated ++ [.made f.allocated.length]
      locals := Function.update f.locals x (some (.made f.allocated.length)) }
    rw [List.length_append, List.length_singleton] at halloc hown hobjects
    refine ⟨g, ?_, hstore, hdes, ?_, ⟨?_, ?_, hown⟩, ?_, ?_⟩
    · rw [constructAll, run_bind_ok hnew, hrun]
    · rw [halloc, List.length_cons, madeFrom_succ, List.append_assoc]
      rfl
    · rw [hlocals x hx]
      exact Function.update_self _ _ _
    · rw [hobjects _ (Nat.lt_succ_self _)]
      dsimp only
      rw [Function.update_self]
      rfl
    · intro y hy
      obtain ⟨hyx, hyxs⟩ := not_or.mp (fun h => hy (List.mem_cons.mpr h))
      rw [hlocals y hyxs]
      exact Function.update_of_ne hyx _ _
    · intro n hlt
      rw [hobjects n (Nat.lt_succ_of_lt hlt)]
      exact Function.update_of_ne (Nat.ne_of_lt hlt) _ _

/-- Reading an object changes nothing. -/
theorem readObj_cases (o : Obj) (f : Frame) :
    (∃ e, (readObj o).run f = .halt e) ∨ (o ∉ f.destroyed ∧ ∃ s, (readObj o).run f = .ok s f) := by
  by_cases ho : o ∈ f.destroyed
  · exact .inl ⟨.fault, by simp only [readObj, run_bind_get, if_pos ho, run_stop]⟩
  · cases o with
    | value ent =>
      have hread : (readObj (.value ent)).run f = (inStore (onHeap (entryValue ent))).run f := by
        simp only [readObj, run_bind_get, if_neg ho]
      cases he : f.store.heap.entry ent with
      | none =>
        have hval : (entryValue ent).run f.store.heap = .halt .fault := by simp [entryValue, he]
        refine .inl ⟨.fault, hread.trans ?_⟩
        rw [inStore, run_zoom, run_onHeap_halt hval]
      | some c =>
        have hval : (entryValue ent).run f.store.heap = .ok c.value f.store.heap := by simp [entryValue, he]
        exact .inr ⟨ho, c.value, hread.trans (run_zoom_ok (run_onHeap_ok hval))⟩
    | made n =>
      have hread : (readObj (.made n)).run f = (deref (f.objects n) : Act Frame Str).run f := by
        simp only [readObj, run_bind_get, if_neg ho]
      rw [hread]
      cases f.objects n with
      | none => exact .inl ⟨.fault, rfl⟩
      | some s => exact .inr ⟨ho, s, rfl⟩

/-- What one destructor can do. -/
theorem destruct_cases (x : Text) (f : Frame) :
    (∃ e, (destruct x).run f = .halt e) ∨
    (f.locals x = none ∧ (destruct x).run f = .ok () f) ∨
    ∃ o g, f.locals x = some o ∧ (destruct x).run f = .ok () g ∧ g.store = f.store ∧
      g.allocated = f.allocated ∧ g.destroyed = f.destroyed ++ [o] ∧
      g.locals = Function.update f.locals x none ∧
      ∀ n, o ≠ .made n → g.objects n = f.objects n := by
  cases hx : f.locals x with
  | none =>
    refine .inr (.inl ⟨rfl, ?_⟩)
    simp only [destruct, run_bind_get, hx]
    rfl
  | some o =>
    rcases readObj_cases o f with ⟨e, hread⟩ | ⟨-, s, hread⟩
    · refine .inl ⟨e, ?_⟩
      simp only [destruct, run_bind_get, hx]
      exact run_bind_halt hread
    · refine .inr (.inr ⟨o, { f with
        objects := without f.objects o
        destroyed := f.destroyed ++ [o]
        locals := Function.update f.locals x none }, rfl, ?_, rfl, rfl, rfl, rfl, ?_⟩)
      · simp only [destruct, run_bind_get, hx]
        exact run_bind_ok hread
      · intro n hne
        cases o with
        | value a => rfl
        | made m => exact Function.update_of_ne (fun he => hne (by rw [he])) _ _

/-- Whatever the locals point to is destroyed, if the destructors come back at all. -/
theorem epilogue_cases (xs : List Text) (f : Frame) :
    (∃ e, (epilogue xs).run f = .halt e) ∨
    ∃ g, (epilogue xs).run f = .ok () g ∧ g.allocated = f.allocated ∧
      (∀ o ∈ f.destroyed, o ∈ g.destroyed) ∧ ∀ x ∈ xs, ∀ o, f.locals x = some o → o ∈ g.destroyed := by
  induction xs generalizing f with
  | nil => exact .inr ⟨f, rfl, rfl, fun _ ho => ho, fun _ hx => absurd hx List.not_mem_nil⟩
  | cons x xs ih =>
    have hcons : ∀ {g}, (destruct x).run f = .ok () g →
        (epilogue (x :: xs)).run f = (epilogue xs).run g := fun hg => by
      rw [epilogue, run_bind_ok hg]
    rcases destruct_cases x f with ⟨e, he⟩ | ⟨hnone, hrun⟩ | ⟨o, g, ho, hrun, -, halloc, hdes, hlocals, -⟩
    · exact .inl ⟨e, by rw [epilogue, run_bind_halt he]⟩
    · rw [hcons hrun]
      apply (ih f).imp_right
      rintro ⟨u, hu, hualloc, hudes, hall⟩
      refine ⟨u, hu, hualloc, hudes, ?_⟩
      intro y hy o ho
      rcases List.mem_cons.mp hy with rfl | hy
      · rw [hnone] at ho
        cases ho
      · exact hall y hy o ho
    · rw [hcons hrun]
      apply (ih g).imp_right
      rintro ⟨u, hu, hualloc, hudes, hall⟩
      rw [hdes] at hudes
      rw [hlocals] at hall
      refine ⟨u, hu, hualloc.trans halloc, fun p hp => hudes p (List.mem_append_left _ hp), ?_⟩
      intro y hy p hp
      by_cases hyx : y = x
      · subst hyx
        rw [ho] at hp
        cases hp
        exact hudes o (by simp)
      · rcases List.mem_cons.mp hy with he | hy
        · exact absurd he hyx
        · exact hall y hy p ((Function.update_of_ne hyx _ _).trans hp)

/-- The destructors destroy what the locals own, one object after the other. -/
theorem epilogue_owned {k : Nat} (hn : xs.Nodup) (h : Owns f xs k)
    (hlive : ∀ n, k ≤ n → .made n ∉ f.destroyed) :
    ∃ g, (epilogue xs).run f = .ok () g ∧ g.store = f.store ∧ g.allocated = f.allocated ∧
      g.destroyed = f.destroyed ++ madeFrom k xs.length := by
  induction xs generalizing f k with
  | nil => exact ⟨f, rfl, rfl, rfl, by simp [madeFrom]⟩
  | cons x xs ih =>
    obtain ⟨hx, hxs⟩ := List.nodup_cons.mp hn
    obtain ⟨hloc, hobj, hrest⟩ := h
    obtain ⟨s, hs⟩ := Option.isSome_iff_exists.mp hobj
    have hread : (readObj (.made k)).run f = .ok s f := by
      simp only [readObj, run_bind_get, if_neg (hlive k (Nat.le_refl k)), hs, deref_some, run_ret]
    rcases destruct_cases x f with ⟨e, he⟩ | ⟨hnone, -⟩ | ⟨o, g, ho, hrun, hstore, halloc, hdes, hlocals, hkeep⟩
    · simp only [destruct, run_bind_get, hloc] at he
      rw [run_bind_ok hread] at he
      cases he
    · rw [hloc] at hnone
      cases hnone
    · rw [hloc] at ho
      cases ho
      have hown : Owns g xs (k + 1) := by
        refine hrest.frame ?_ ?_
        · intro y hy
          rw [hlocals]
          exact Function.update_of_ne (ne_of_mem_of_not_mem hy hx) _ _
        · intro n hle
          apply hkeep n
          rintro he
          cases he
          omega
      obtain ⟨u, hu, hustore, hualloc, hudes⟩ := ih hxs hown (by
        intro n hle hin
        rw [hdes] at hin
        rcases List.mem_append.mp hin with hin | hin
        · exact hlive n (Nat.le_of_succ_le hle) hin
        · cases List.mem_singleton.mp hin
          omega)
      refine ⟨u, ?_, hustore.trans hstore, hualloc.trans halloc, ?_⟩
      · rw [epilogue, run_bind_ok hrun]
        exact hu
      · rw [hudes, hdes, List.length_cons, madeFrom_succ, List.append_assoc]
        rfl

/-- Behind the constructors every local owns an object of its own. -/
theorem prologue_run (hn : xs.Nodup) (s : Store) (str : Str) :
    ∃ f, (prologue xs).run (enter s str) = .ok () f ∧ f.store = s ∧ f.destroyed = [] ∧
      f.allocated = madeFrom 0 xs.length ∧ Owns f xs 0 := by
  obtain ⟨f, hrun, hstore, hdes, halloc, hown, -, -⟩ := constructs_run hn (enter s str)
  have hnull : (fun x => if xs.contains x then none else (enter s str).locals x) = (enter s str).locals := by
    funext x
    exact ite_self _
  refine ⟨f, ?_, hstore, hdes, halloc.trans (List.nil_append _), hown⟩
  rw [prologue, run_bind_get, hnull]
  exact hrun

theorem value_not_mem_madeFrom (a : Addr) (k n : Nat) : .value a ∉ madeFrom k n := by
  intro ha
  obtain ⟨m, -, hv⟩ := List.mem_map.mp ha
  cases hv

/-- If the body leaves everything as it is, the function destroys what it has made. -/
theorem compiled_own {body : Act Frame Unit} (hn : xs.Nodup) (s : Store) (str : Str)
    (hbody : ∀ f, f.store = s → body.run f = .ok () f) :
    ((compiled xs body).run (enter s str)).Returns fun g =>
      g.store = s ∧ g.destroyed = g.allocated ∧ ∀ a, .value a ∉ g.destroyed := by
  obtain ⟨f, hpro, hstore, hdes, halloc, hown⟩ := prologue_run hn s str
  obtain ⟨g, hepi, hgstore, hgalloc, hgdes⟩ := epilogue_owned hn hown (by
    intro n _
    rw [hdes]
    exact List.not_mem_nil)
  rw [hdes, List.nil_append] at hgdes
  rw [compiled, run_bind_ok hpro, run_bind_ok (hbody f hstore), hepi]
  refine ⟨hgstore.trans hstore, by rw [hgdes, hgalloc, halloc], fun a => ?_⟩
  rw [hgdes]
  exact value_not_mem_madeFrom a 0 xs.length

/-- A call that throws leaves all that it has made, and has destroyed nothing. -/
theorem compiled_left {body : Act Frame Unit} (hn : xs.Nodup) (s : Store) (str : Str)
    (hbody : ∀ f, f.store = s → (body.run f).Leaves (Quiet x f)) {g : Frame}
    (hrun : (compiled xs body).run (enter s str) = .thrown g) :
    g.allocated = madeFrom 0 xs.length ∧ g.destroyed = [] := by
  obtain ⟨f, hpro, hstore, hdes, halloc, -⟩ := prologue_run hn s str
  have hquiet := hbody f hstore
  rw [compiled, run_bind_ok hpro] at hrun
  cases hb : body.run f with
  | ok v t =>
    -- The destructors do not throw.
    rw [run_bind_ok hb] at hrun
    rcases epilogue_cases xs t with ⟨e, he⟩ | ⟨u, hu, -⟩
    · rw [he] at hrun
      cases hrun
    · rw [hu] at hrun
      cases hrun
  | thrown t =>
    rw [run_bind_thrown hb] at hrun
    cases hrun
    rw [hb] at hquiet
    exact ⟨hquiet.allocated.trans halloc, hquiet.destroyed.trans hdes⟩
  | halt e =>
    rw [run_bind_halt hb] at hrun
    cases hrun

/-- If the body throws or leads a local astray, the function does not destroy just what it has made. -/
theorem compiled_astray {body : Act Frame Unit} (hn : xs.Nodup) (hx : x ∈ xs) (s : Store) (str : Str)
    (hbody : ∀ f, f.store = s → (body.run f).Leaves (Quiet x f))
    (hastray : ∀ f v g, f.store = s → body.run f = .ok v g → Astray x g) :
    ¬ ((compiled xs body).run (enter s str)).Returns fun g => ∀ o, o ∈ g.destroyed ↔ o ∈ g.allocated := by
  intro hret
  obtain ⟨f, hpro, hstore, -, halloc, -⟩ := prologue_run hn s str
  have hquiet := hbody f hstore
  cases hrun : (compiled xs body).run (enter s str) with
  | halt e =>
    rw [hrun] at hret
    exact hret
  | thrown g =>
    -- Behind the constructors there is at least one object, and none is destroyed.
    rw [hrun] at hret
    obtain ⟨hmade, hnone⟩ := compiled_left hn s str hbody hrun
    have hlen : xs.length = xs.length - 1 + 1 := by
      have hpos := List.length_pos_of_mem hx
      omega
    have hin : Obj.made 0 ∈ g.allocated := by
      rw [hmade, hlen, madeFrom_succ]
      exact List.mem_cons_self
    have hgone := (hret _).mpr hin
    rw [hnone] at hgone
    cases hgone
  | ok v g =>
    -- Behind the destructors the value of an entry is among the destroyed objects.
    rw [hrun] at hret
    rw [compiled, run_bind_ok hpro] at hrun
    cases hb : body.run f with
    | halt e =>
      rw [run_bind_halt hb] at hrun
      cases hrun
    | thrown t =>
      rw [run_bind_thrown hb] at hrun
      cases hrun
    | ok u t =>
      obtain ⟨a, ha⟩ := hastray f u t hstore hb
      rw [hb] at hquiet
      rw [run_bind_ok hb] at hrun
      rcases epilogue_cases xs t with ⟨e, he⟩ | ⟨w, hw, hwalloc, -, hall⟩
      · rw [he] at hrun
        cases hrun
      · rw [hw] at hrun
        cases hrun
        have hin := (hret (.value a)).mp (hall x hx _ ha)
        rw [hwalloc, hquiet.allocated, halloc] at hin
        exact value_not_mem_madeFrom a 0 xs.length hin

/-! ## What the bodies do to the locals -/

/-- The step makes and destroys nothing, and no local comes back from an entry. -/
def StaysQuiet {α : Type} (x : Text) (m : Act Frame α) : Prop := ∀ f, (m.run f).Leaves (Quiet x f)

section

variable {α β : Type}

theorem staysQuiet_pure (a : α) : StaysQuiet x (pure a : Act Frame α) := fun f => Quiet.refl x f

theorem staysQuiet_bind {m : Act Frame α} {k : α → Act Frame β} (hm : StaysQuiet x m)
    (hk : ∀ a, StaysQuiet x (k a)) : StaysQuiet x (m >>= k) :=
  fun f => leaves_bind (hm f) (fun _ h => h) fun a t _ ht => (hk a t).imp fun _ hu => ht.trans hu

theorem staysQuiet_throwing : StaysQuiet x (throwing : Act Frame α) := fun f => Quiet.refl x f

theorem staysQuiet_deref (o : Option α) : StaysQuiet x (deref o : Act Frame α) := by
  intro f
  cases o with
  | none => trivial
  | some a => exact Quiet.refl x f

theorem staysQuiet_get : StaysQuiet x (Act.get : Act Frame Frame) := fun f => Quiet.refl x f

theorem staysQuiet_onLocal {τ : Type} (m : Act τ α) (t : τ) : StaysQuiet x (onLocal m t : Act Frame (α × τ)) :=
  fun f => (leaves_onLocal m t f).imp fun _ he => he ▸ Quiet.refl x f

theorem staysQuiet_inStore (m : Act Store α) : StaysQuiet x (inStore m) := by
  intro f
  rw [inStore, run_zoom]
  cases m.run f.store with
  | ok a s => exact ⟨rfl, rfl, id⟩
  | thrown s => exact ⟨rfl, rfl, id⟩
  | halt e => trivial

theorem staysQuiet_pointee (y : Text) : StaysQuiet x (pointee y) := fun f => staysQuiet_deref (f.locals y) f

theorem staysQuiet_readObj (o : Obj) : StaysQuiet x (readObj o) := by
  intro f
  rcases readObj_cases o f with ⟨e, he⟩ | ⟨-, s, hs⟩
  · rw [he]
    trivial
  · rw [hs]
    exact Quiet.refl x f

theorem staysQuiet_onObj (y : Text) (m : Act Str Unit) : StaysQuiet x (onObj y m) := by
  refine staysQuiet_bind (staysQuiet_pointee y) fun o => ?_
  refine staysQuiet_bind (staysQuiet_readObj o) fun s => ?_
  refine staysQuiet_bind (staysQuiet_onLocal m s) fun t => ?_
  cases o with
  | value ent => exact staysQuiet_inStore _
  | made n => exact fun f => ⟨rfl, rfl, id⟩

theorem staysQuiet_onStr (m : Act Str Unit) : StaysQuiet x (onStr m) := by
  refine staysQuiet_bind staysQuiet_get fun f => ?_
  refine staysQuiet_bind (staysQuiet_onLocal m f.str) fun t => ?_
  exact fun f => ⟨rfl, rfl, id⟩

theorem staysQuiet_chars (y : Text) : StaysQuiet x (chars y) := by
  refine staysQuiet_bind (staysQuiet_pointee y) fun o => ?_
  refine staysQuiet_bind (staysQuiet_readObj o) fun s => ?_
  refine staysQuiet_bind (staysQuiet_deref _) fun mem => ?_
  exact staysQuiet_deref _

/-- Once it points to the value of an entry, a local has gone astray. -/
theorem assign_astray (x : Text) (ent : Addr) (f : Frame) :
    ((assign x (.value ent)).run f).Leaves fun g => Quiet x f g ∧ Astray x g :=
  ⟨⟨rfl, rfl, fun _ => ⟨ent, Function.update_self _ _ _⟩⟩, ent, Function.update_self _ _ _⟩

theorem staysQuiet_assign (y : Text) (ent : Addr) : StaysQuiet x (assign y (.value ent)) := by
  intro f
  by_cases hy : x = y
  · subst hy
    exact (assign_astray x ent f).imp fun _ h => h.1
  · exact ⟨rfl, rfl, fun ⟨a, ha⟩ => ⟨a, (Function.update_of_ne hy _ _).trans ha⟩⟩

end

/-- A round leads a local astray. -/
def LeadsAstray (x : Text) (m : Act Frame (Option Addr ⊕ Unit)) : Prop :=
  ∀ f, (m.run f).Leaves fun g => Quiet x f g ∧ Astray x g

/-- A step that leads a local astray, and quiet ones behind it. -/
theorem leadsAstray_bind {α : Type} {m : Act Frame α} {k : α → Act Frame (Option Addr ⊕ Unit)}
    (hm : ∀ f, (m.run f).Leaves fun g => Quiet x f g ∧ Astray x g) (hk : ∀ a, StaysQuiet x (k a)) :
    LeadsAstray x (m >>= k) :=
  fun f => leaves_bind (hm f) (fun _ h => h) fun a t _ ht =>
    (hk a t).imp fun _ hu => ⟨ht.1.trans hu, hu.astray ht.2⟩

/-- A walk over entries is quiet, and leads a local astray if there is an entry. -/
theorem loop_astray {step : Option Addr → Act Frame (Option Addr ⊕ Unit)} (hend : step none = pure (.inr ()))
    (hstep : ∀ ent, LeadsAstray x (step (some ent))) (fuel : Nat) (e : Option Addr) (f : Frame) :
    ((loop step fuel e).run f).Leaves fun g => Quiet x f g ∧ (Astray x f ∨ e ≠ none → Astray x g) := by
  induction fuel generalizing e f with
  | zero => trivial
  | succ fuel ih =>
    rw [loop]
    cases e with
    | none =>
      rw [hend]
      exact ⟨Quiet.refl x f, fun h => h.resolve_right fun hne => hne rfl⟩
    | some ent =>
      refine leaves_bind (hstep ent f) (fun _ h => ⟨h.1, fun _ => h.2⟩) fun r t _ ht => ?_
      cases r with
      | inl e' => exact (ih e' t).imp fun _ hu => ⟨ht.1.trans hu.1, fun _ => hu.2 (.inl ht.2)⟩
      | inr u => exact ⟨ht.1, fun _ => ht.2⟩

theorem staysQuiet_appendValue (text : Bytes) : StaysQuiet x (appendValue text) := by
  refine staysQuiet_bind (staysQuiet_pointee ptrId) fun o => ?_
  refine staysQuiet_bind (staysQuiet_readObj o) fun p => ?_
  by_cases hnl : 10 ∈ text
  · rw [if_pos hnl]
    refine staysQuiet_bind (staysQuiet_onObj valId _) fun _ => ?_
    refine staysQuiet_bind (staysQuiet_onObj valId _) fun _ => ?_
    refine staysQuiet_bind (staysQuiet_pointee valId) fun o => ?_
    refine staysQuiet_bind (staysQuiet_readObj o) fun v => ?_
    exact staysQuiet_onObj bufId _
  · rw [if_neg hnl]
    exact staysQuiet_onObj bufId _

theorem serializeRound_astray (ent : Addr) : LeadsAstray ptrId (serializeRound (some ent)) := by
  refine leadsAstray_bind (assign_astray ptrId ent) fun _ => ?_
  refine staysQuiet_bind (staysQuiet_chars ptrId) fun key => ?_
  refine staysQuiet_bind (staysQuiet_onObj bufId _) fun _ => ?_
  refine staysQuiet_bind (staysQuiet_inStore _) fun n => ?_
  refine staysQuiet_bind (staysQuiet_deref n) fun ent => ?_
  refine staysQuiet_bind (staysQuiet_assign ptrId ent) fun _ => ?_
  refine staysQuiet_bind (staysQuiet_chars ptrId) fun text => ?_
  refine staysQuiet_bind (staysQuiet_appendValue text) fun _ => ?_
  refine staysQuiet_bind (staysQuiet_onObj bufId _) fun _ => ?_
  refine staysQuiet_bind (staysQuiet_pointee bufId) fun o => ?_
  refine staysQuiet_bind (staysQuiet_readObj o) fun b => ?_
  refine staysQuiet_bind (staysQuiet_onStr _) fun _ => ?_
  refine staysQuiet_bind (staysQuiet_inStore _) fun next => ?_
  exact staysQuiet_pure _

theorem fromListRound_astray (ent : Addr) : LeadsAstray keyId (fromListRound (some ent)) := by
  refine leadsAstray_bind (assign_astray keyId ent) fun _ => ?_
  refine staysQuiet_bind (staysQuiet_inStore _) fun n => ?_
  cases n with
  | none => exact staysQuiet_throwing
  | some cur =>
    refine staysQuiet_bind (staysQuiet_assign valId cur) fun _ => ?_
    refine staysQuiet_bind (staysQuiet_pointee keyId) fun o => ?_
    refine staysQuiet_bind (staysQuiet_readObj o) fun k => ?_
    refine staysQuiet_bind (staysQuiet_deref _) fun mem => ?_
    refine staysQuiet_bind (staysQuiet_readObj _) fun v => ?_
    refine staysQuiet_bind (staysQuiet_inStore _) fun _ => ?_
    refine staysQuiet_bind (staysQuiet_inStore _) fun next => ?_
    exact staysQuiet_pure _

theorem staysQuiet_serializeBucket (l : Addr) : StaysQuiet ptrId (serializeBucket l) := by
  refine staysQuiet_bind (staysQuiet_inStore _) fun list => ?_
  refine staysQuiet_bind staysQuiet_get fun g => ?_
  exact fun f => (loop_astray rfl serializeRound_astray _ _ f).imp fun _ h => h.1

theorem staysQuiet_serializeSlots (bucket : UInt8 → Option Addr) (is : List UInt8) :
    StaysQuiet ptrId (serializeSlots bucket is) := by
  induction is with
  | nil => exact staysQuiet_pure ()
  | cons i is ih =>
    rw [serializeSlots]
    cases bucket i with
    | none => exact ih
    | some l => exact staysQuiet_bind (staysQuiet_serializeBucket l) fun _ => ih

variable {s : Store} {c : Addr → Option Chain} {P : UInt8 → List (Bytes × Bytes)}

theorem loadList_inStore (r : Rep s.heap c) {l : Addr} {xs : Chain} (hl : c l = some xs) (hf : f.store = s) :
    (inStore (onHeap (loadList l))).run f = .ok (header xs) f := by
  have hload : (loadList l).run f.store.heap = .ok (header xs) f.store.heap := by
    rw [hf, loadList, run_bind_get, r.list_eq hl]
    rfl
  exact run_zoom_ok (run_onHeap_ok hload)

theorem eq_nil_of_flat {ps : List (Bytes × Bytes)} (h : flat ps = []) : ps = [] := by
  cases ps with
  | nil => rfl
  | cons p ps => simp at h

/-- The bucket of a slot without pairs has no entries. -/
theorem slot_cases (T : PairTab s c P) (i : UInt8) :
    (P i = [] ∧ s.hash.bucket i = none) ∨
    ∃ l xs, s.hash.bucket i = some l ∧ c l = some xs ∧ (P i = [] ↔ xs = []) := by
  cases hb : s.hash.bucket i with
  | none => exact .inl ⟨eq_nil_of_flat (T.missing hb), rfl⟩
  | some l =>
    obtain ⟨xs, hl, htx⟩ := T.chain hb
    refine .inr ⟨l, xs, rfl, hl, fun hP => ?_, fun hxs => ?_⟩
    · rw [hP] at htx
      exact List.map_eq_nil_iff.mp htx
    · rw [hxs] at htx
      exact eq_nil_of_flat htx.symm

theorem serializeBucket_run (r : Rep s.heap c) {l : Addr} {xs : Chain} (hl : c l = some xs)
    (hf : f.store = s) : (serializeBucket l).run f =
      (loop serializeRound (f.store.heap.fresh + 1) (first xs none)).run f := by
  rw [serializeBucket, run_bind_ok (loadList_inStore r hl hf), run_bind_get]
  rfl

/-- The loop over buckets without entries does nothing. -/
theorem serializeSlots_empty (T : PairTab s c P) (is : List UInt8) (hP : ∀ i ∈ is, P i = []) (hf : f.store = s) :
    (serializeSlots s.hash.bucket is).run f = .ok () f := by
  induction is with
  | nil => rfl
  | cons i is ih =>
    have hrest := ih fun j hj => hP j (List.mem_cons_of_mem _ hj)
    rw [serializeSlots]
    rcases slot_cases T i with ⟨-, hb⟩ | ⟨l, xs, hb, hl, hiff⟩
    · rw [hb]
      exact hrest
    · obtain rfl := hiff.mp (hP i (by simp))
      have hbucket : (serializeBucket l).run f = .ok () f := serializeBucket_run T.rep hl hf
      rw [hb]
      dsimp only
      rw [run_bind_ok hbucket]
      exact hrest

/-- The first bucket with entries leads `ptr` astray. -/
theorem serializeSlots_astray (T : PairTab s c P) (is : List UInt8) (hP : ∃ i ∈ is, P i ≠ [])
    (hf : f.store = s) {v : Unit} {g : Frame} (hrun : (serializeSlots s.hash.bucket is).run f = .ok v g) :
    Astray ptrId g := by
  induction is with
  | nil =>
    obtain ⟨i, hi, -⟩ := hP
    cases hi
  | cons i is ih =>
    rw [serializeSlots] at hrun
    by_cases hi : P i = []
    · have hlater : ∃ j ∈ is, P j ≠ [] := by
        obtain ⟨j, hj, hne⟩ := hP
        rcases List.mem_cons.mp hj with rfl | hj
        · exact absurd hi hne
        · exact ⟨j, hj, hne⟩
      rcases slot_cases T i with ⟨-, hb⟩ | ⟨l, xs, hb, hl, hiff⟩
      · rw [hb] at hrun
        exact ih hlater hrun
      · obtain rfl := hiff.mp hi
        have hbucket : (serializeBucket l).run f = .ok () f := serializeBucket_run T.rep hl hf
        rw [hb] at hrun
        dsimp only at hrun
        rw [run_bind_ok hbucket] at hrun
        exact ih hlater hrun
    · rcases slot_cases T i with ⟨hnil, -⟩ | ⟨l, xs, hb, hl, hiff⟩
      · exact absurd hnil hi
      · have hne : first xs none ≠ none := fun he => hi (hiff.mpr (first_eq_none.mp he))
        have hbucket : ((serializeBucket l).run f).Leaves (Astray ptrId) := by
          rw [serializeBucket_run T.rep hl hf]
          exact (loop_astray rfl serializeRound_astray _ _ f).imp fun _ h => h.2 (.inr hne)
        have hrest : (((serializeBucket l) >>= fun _ => serializeSlots s.hash.bucket is).run f).Leaves
            (Astray ptrId) :=
          leaves_bind hbucket (fun _ h => h) fun _ t _ ht =>
            (staysQuiet_serializeSlots s.hash.bucket is t).imp fun _ hu => hu.astray ht
        rw [hb] at hrun
        exact hrest.of_ok hrun

/-! ## Which objects are left -/

/-- These entries have their values as before, and none of the values has been destroyed. -/
def Untouched (g : Frame) (xs : Chain) : Prop :=
  ∀ x ∈ xs, .value x.1 ∉ g.destroyed ∧ (g.store.heap.entry x.1).map Cell.value = some x.2

/-- The objects destroyed are those that were allocated. -/
def Balanced (g : Frame) : Prop := ∀ o, o ∈ g.destroyed ↔ o ∈ g.allocated

/-- `hash_serialize` comes back, all keys and values are as before, and it has destroyed what it has
allocated. -/
def SerializeKeeps (s : Store) (c : Addr → Option Chain) (str : Str) : Prop :=
  (serializeCompiled.run (enter s str)).Returns fun g =>
    (∀ i l xs, s.hash.bucket i = some l → c l = some xs → Untouched g xs) ∧ Balanced g

/-- The same for `hash_from_list` and the elements of the list. -/
def FromListKeeps (s : Store) (list : Addr) (xs : Chain) : Prop :=
  ((fromListCompiled list).run (enter s emptyString)).Returns fun g => Untouched g xs ∧ Balanced g

theorem untouched_of_store (r : Rep s.heap c) {l : Addr} {xs : Chain} (hl : c l = some xs) {g : Frame}
    (hstore : g.store = s) (hdes : ∀ a, .value a ∉ g.destroyed) : Untouched g xs := by
  rintro ⟨a, v⟩ hx
  obtain ⟨us, vs, rfl⟩ := List.append_of_mem hx
  refine ⟨hdes a, ?_⟩
  rw [hstore, (r.seg hl).prev]
  rfl

theorem nodup_serializeLocals : serializeLocals.Nodup := by
  rw [serializeLocals_eq.1]
  decide

theorem nodup_fromListLocals : fromListLocals.Nodup := by
  rw [fromListLocals_eq.1]
  decide

theorem serializeKeeps_iff (T : PairTab s c P) (str : Str) : SerializeKeeps s c str ↔ ∀ i, P i = [] := by
  have hptr : ptrId ∈ serializeLocals := by
    rw [serializeLocals_eq.1]
    decide
  constructor
  · intro hkeeps
    by_contra hP
    obtain ⟨i, hi⟩ := not_forall.mp hP
    apply compiled_astray nodup_serializeLocals hptr s str _ _ (hkeeps.imp fun _ h => h.2)
    · exact fun f _ => staysQuiet_serializeSlots s.hash.bucket slots f
    · exact fun f v g hf hrun => serializeSlots_astray T slots ⟨i, mem_slots i, hi⟩ hf hrun
  · intro hP
    refine (compiled_own nodup_serializeLocals s str fun f hf => ?_).imp ?_
    · exact serializeSlots_empty T slots (fun i _ => hP i) hf
    · rintro g ⟨hstore, heq, hdes⟩
      refine ⟨fun i l xs _ hl => untouched_of_store T.rep hl hstore hdes, fun o => ?_⟩
      rw [heq]

theorem fromListBody_run (r : Rep s.heap c) {list : Addr} {xs : Chain} (hl : c list = some xs) (hf : f.store = s) :
    (fromListBody list).run f = (if xs.length % 2 ≠ 0 then throwing
      else loop fromListRound (s.heap.fresh + 1) (first xs none) : Act Frame Unit).run f := by
  have hcount : (header xs).count = xs.length := rfl
  rw [fromListBody, run_bind_ok (loadList_inStore r hl hf), hcount]
  split
  · rfl
  · rw [run_bind_get, hf]
    rfl

theorem fromListBody_quiet (r : Rep s.heap c) {list : Addr} {xs : Chain} (hl : c list = some xs)
    (hf : f.store = s) : ((fromListBody list).run f).Leaves (Quiet keyId f) := by
  rw [fromListBody_run r hl hf]
  split
  · exact Quiet.refl keyId f
  · exact (loop_astray rfl fromListRound_astray _ _ f).imp fun _ h => h.1

theorem fromListKeeps_iff (r : Rep s.heap c) {list : Addr} {xs : Chain} (hl : c list = some xs) :
    FromListKeeps s list xs ↔ xs = [] := by
  have hkey : keyId ∈ fromListLocals := by
    rw [fromListLocals_eq.1]
    decide
  constructor
  · intro hkeeps
    by_contra hne
    apply compiled_astray nodup_fromListLocals hkey s emptyString _ _ (hkeeps.imp fun _ h => h.2)
    · exact fun f hf => fromListBody_quiet r hl hf
    · intro f v g hf hrun
      have hhead : first xs none ≠ none := fun he => hne (first_eq_none.mp he)
      rw [fromListBody_run r hl hf] at hrun
      split at hrun
      · cases hrun
      · exact ((loop_astray rfl fromListRound_astray _ _ f).imp fun _ h => h.2 (.inr hhead)).of_ok hrun
  · rintro rfl
    refine (compiled_own nodup_fromListLocals s emptyString fun f hf => ?_).imp ?_
    · rw [fromListBody_run r hl hf]
      rfl
    · rintro g ⟨hstore, heq, hdes⟩
      refine ⟨untouched_of_store r hl hstore hdes, fun o => ?_⟩
      rw [heq]

/-- A call that throws has allocated so many objects, and destroyed none. -/
def LeavesMade (n : Nat) (o : Outcome Frame Unit) : Prop :=
  ∀ g, o = .thrown g → g.allocated = madeFrom 0 n ∧ g.destroyed = []

/-- For every table that comes out of `hash_set` and `hash_delete`, `hash_serialize` leaves the keys
and values alone and destroys what it has allocated exactly when there are none; and so does
`hash_from_list` with the elements of a list. When they throw, nothing is destroyed at all. -/
theorem compiled_keeps_iff_empty {ops : List Op} {rs : List (Option Reply)} {s : Store}
    (hops : ∀ op ∈ ops, op.updates = true) (hrun : (execAll ops).run start = .ok rs s)
    {t : Store} {d : Addr → Option Chain} (r : Rep t.heap d) {list : Addr} {xs : Chain}
    (hl : d list = some xs) :
    (HoldsPairs s ∧ ∀ c P, PairTab s c P → ∀ str : WfStr,
      (SerializeKeeps s c str.1 ↔ ∀ i, P i = []) ∧
        LeavesMade 3 (serializeCompiled.run (enter s str.1))) ∧
      (FromListKeeps t list xs ↔ xs = []) ∧
        LeavesMade 1 ((fromListCompiled list).run (enter t emptyString)) := by
  refine ⟨⟨reachable_pairs hops hrun, fun c P T str => ⟨serializeKeeps_iff T str.1, fun g hg => ?_⟩⟩,
    fromListKeeps_iff r hl, fun g hg => ?_⟩
  · have hlen : serializeLocals.length = 3 := by rw [serializeLocals_eq.1]; rfl
    rw [← hlen]
    exact compiled_left nodup_serializeLocals s str.1
      (fun f _ => staysQuiet_serializeSlots s.hash.bucket slots f) hg
  · have hlen : fromListLocals.length = 1 := by rw [fromListLocals_eq.1]; rfl
    rw [← hlen]
    exact compiled_left nodup_fromListLocals t emptyString (fun f hf => fromListBody_quiet r hl hf) hg

/-- What a compiled function allocates and destroys, behind some calls on the table. -/
def account (before : Act Store Unit) (m : Act Frame Unit) : Option (List Obj × List Obj) :=
  ((do
    inStore before
    m
    let f ← get
    pure (f.allocated, f.destroyed)).run (enter start emptyString)).value

/-- With one pair in the table, `hash_serialize` destroys the value of its second entry, and with two
elements in the list `hash_from_list` destroys the first of them. -/
theorem compiled_destroys_element :
    account (hashSet (charArray ab.1) (ofText oneTwo.1).1) serializeCompiled =
        some ([.made 0, .made 1, .made 2], [.made 0, .made 1, .value 3]) ∧
      account (onHeap do
          listPush out (ofText ab.1).1
          listPush out (ofText oneTwo.1).1) (fromListCompiled out) = some ([.made 0], [.value 1]) ∧
      ∃ s c P, (hashSet (charArray ab.1) (ofText oneTwo.1).1).run start = .ok () s ∧ PairTab s c P ∧
        ¬ SerializeKeeps s c (ofText []).1 := by
  refine ⟨by decide +kernel, by decide +kernel, ?_⟩
  have T₀ : PairTab start (Function.update (fun _ => none) out (some [])) (fun _ => []) := tab_start
  obtain ⟨s, c, hrun, T, -⟩ := (set_clear T₀ ab (clear_nil _) (ofText oneTwo.1)).1 (by decide)
  refine ⟨s, c, _, hrun, T, fun hkeeps => ?_⟩
  have hnil := (serializeKeeps_iff T _).mp hkeeps (xorBytes ab.1)
  rw [Function.update_self] at hnil
  cases hnil

/-- The value `12` under the key `ab`: with the pair in the table an object of it is destroyed, and when it is
deleted again none is. -/
theorem compiled_keeps_iff_empty_pair :
    (∃ rs s c, (execAll [.set ab (ofText oneTwo.1)]).run start = .ok rs s ∧ HoldsPairs s ∧
      ¬ SerializeKeeps s c (ofText []).1) ∧
    (∃ rs s c, (execAll [.set ab (ofText oneTwo.1), .delete ab]).run start = .ok rs s ∧ HoldsPairs s ∧
      SerializeKeeps s c (ofText []).1) ∧
    ∃ t xs, (onHeap do
        listPush out (ofText ab.1).1
        listPush out (ofText oneTwo.1).1).run start = .ok () t ∧ texts xs = [ab.1, oneTwo.1] ∧
      ¬ FromListKeeps t out xs := by
  have T₀ : PairTab start (Function.update (fun _ => none) out (some [])) (fun _ => []) := tab_start
  obtain ⟨s₁, c₁, hset, T₁, -⟩ := (set_clear T₀ ab (clear_nil _) (ofText oneTwo.1)).1 (by decide)
  have hP : Function.update (fun _ => []) (xorBytes ab.1) ([] ++ [(ab.1, (ofText oneTwo.1).1.text)])
      (xorBytes ab.1) = [] ++ (ab.1, oneTwo.1) :: [] := Function.update_self _ _ _
  obtain ⟨s₂, c₂, hdelete, T₂, -⟩ := delete_key T₁ ab hP (clear_nil _) (cText_of_nulFree ab.2)
  have hfirst : (attempt (exec (.set ab (ofText oneTwo.1)))).run start = .ok (some .done) s₁ :=
    run_attempt_ok (run_bind_ok hset)
  have hsecond : (attempt (exec (.delete ab))).run s₁ = .ok (some .done) s₂ := run_attempt_ok (run_bind_ok hdelete)
  have hrun₁ : (execAll [.set ab (ofText oneTwo.1)]).run start = .ok [some .done] s₁ :=
    run_attemptAll_cons hfirst rfl
  have hrun₂ : (execAll [.set ab (ofText oneTwo.1), .delete ab]).run start = .ok [some .done, some .done] s₂ :=
    run_attemptAll_cons hfirst (run_attemptAll_cons hsecond rfl)
  obtain ⟨h₁, v, hpush₁, ⟨hv, -⟩, -, r₁⟩ := listPush_rep tab_start.rep (Function.update_self _ _ _) (ofText ab.1).2
  obtain ⟨h₂, w, hpush₂, ⟨hw, -⟩, -, r₂⟩ := listPush_rep r₁ (Function.update_self _ _ _) (ofText oneTwo.1).2
  obtain ⟨⟨-, hkeeps₁⟩, hlist, -⟩ :=
    compiled_keeps_iff_empty (t := ⟨h₂, start.hash⟩) (by decide) hrun₁ r₂ (Function.update_self _ _ _)
  obtain ⟨⟨-, hkeeps₂⟩, -⟩ :=
    compiled_keeps_iff_empty (t := ⟨h₂, start.hash⟩) (by decide) hrun₂ r₂ (Function.update_self _ _ _)
  refine ⟨⟨_, s₁, c₁, hrun₁, ⟨c₁, _, T₁⟩, fun hkeeps => ?_⟩, ⟨_, s₂, c₂, hrun₂, ⟨c₂, _, T₂⟩, ?_⟩,
    ⟨h₂, start.hash⟩, [(start.heap.fresh, v), (h₁.fresh, w)], ?_, ?_, fun hkeeps => ?_⟩
  · have hnil := (hkeeps₁ c₁ _ T₁ (ofText [])).1.mp hkeeps (xorBytes ab.1)
    rw [hP] at hnil
    cases hnil
  · refine (hkeeps₂ c₂ _ T₂ (ofText [])).1.mpr fun i => ?_
    rw [Function.update_idem]
    by_cases hi : i = xorBytes ab.1
    · rw [hi, Function.update_self]
      rfl
    · rw [Function.update_of_ne hi]
  · refine run_onHeap_ok ?_
    rw [run_bind_ok hpush₁, hpush₂]
  · rw [texts_cons, texts_cons, hv.text, hw.text]
    rfl
  · have hnil := hlist.mp hkeeps
    simp at hnil

end NcHash
