import NaturalC.NcString
import NaturalC.Linked

/-!
# Doubly linked lists of strings

List headers and entries are objects of one heap. Each function is the one of
`list.c` with the same name; a null or freed pointer faults when it is followed.
Allocation always succeeds here. A loop over entries is given as many rounds as
there are addresses in use, so a walk that runs out of them has met a cycle.
-/
namespace NcList

open Throwing Throwing.Act NcString Linked

structure ListT where
  count : Nat
  head : Option Addr
  tail : Option Addr
  deriving DecidableEq, Repr

structure Heap where
  entry : Mem Str
  list : Addr → Option ListT
  /-- Every address handed out so far is below this one. -/
  fresh : Addr

def Heap.empty : Heap := ⟨fun _ => none, fun _ => none, 0⟩

def loadList (l : Addr) : Act Heap ListT := do
  let h ← get
  deref (h.list l)

def modifyList (l : Addr) (f : ListT → ListT) : Act Heap Unit := do
  let x ← loadList l
  let h ← get
  put { h with list := Function.update h.list l (some (f x)) }

def loadEntry (a : Addr) : Act Heap (Cell Str) := do
  let h ← get
  deref (h.entry a)

def modifyEntry (a : Addr) (f : Cell Str → Cell Str) : Act Heap Unit := do
  let c ← loadEntry a
  let h ← get
  put { h with entry := Function.update h.entry a (some (f c)) }

/-- Run a string function on the value of an entry. -/
def onValue {α : Type} (a : Addr) (m : Act Str α) : Act Heap α := do
  let c ← loadEntry a
  let (r, s) ← onLocal m c.value
  modifyEntry a (fun c => { c with value := s })
  pure r

def listNew : Act Heap Addr := do
  let h ← get
  put { h with list := Function.update h.list h.fresh (some ⟨0, none, none⟩), fresh := h.fresh + 1 }
  pure h.fresh

def listEntryDestroy (ent : Addr) : Act Heap Unit := do
  let _ ← loadEntry ent
  let h ← get
  put { h with entry := Function.update h.entry ent none }

def listEntryAppend (dest n : Addr) : Act Heap Unit := do
  let d ← loadList dest
  modifyEntry n (fun c => { c with next := none })
  modifyEntry n (fun c => { c with prev := d.tail })
  match d.tail with
  | some t => modifyEntry t (fun c => { c with next := some n })
  | none => pure ()
  if d.head = none then modifyList dest (fun d => { d with head := some n }) else pure ()
  modifyList dest (fun d => { d with tail := some n })
  modifyList dest (fun d => { d with count := d.count + 1 })

/-- One round of the loop in `list_truncate`. -/
def truncateStep : Option Addr → Act Heap (Option Addr ⊕ Unit)
  | none => pure (.inr ())
  | some x => do
    let c ← loadEntry x
    listEntryDestroy x
    pure (.inl c.next)

def listTruncate (list : Addr) : Act Heap Unit := do
  let l ← loadList list
  let h ← get
  loop truncateStep (h.fresh + 1) l.head
  modifyList list (fun l => { l with head := none })
  modifyList list (fun l => { l with tail := none })
  modifyList list (fun l => { l with count := 0 })

def listDestroy (dest : Addr) : Act Heap Unit := do
  listTruncate dest
  let h ← get
  put { h with list := Function.update h.list dest none }

def listEntryNew (value : Str) : Act Heap Addr := do
  let str ← strNew true true
  let (_, str) ← onLocal (strCopy true value) str
  let h ← get
  put { h with entry := Function.update h.entry h.fresh (some ⟨str, none, none⟩),
               fresh := h.fresh + 1 }
  pure h.fresh

/-- `list_unshift`. The old head does not get a backward link. -/
def listUnshift (dest : Addr) (value : Str) : Act Heap Unit := do
  let n ← listEntryNew value
  let d ← loadList dest
  if d.count ≠ 0 then modifyEntry n (fun c => { c with next := d.head })
  else modifyList dest (fun d => { d with tail := some n })
  modifyList dest (fun d => { d with head := some n })
  modifyList dest (fun d => { d with count := d.count + 1 })

def listPush (list : Addr) (item : Str) : Act Heap Unit := do
  let n ← listEntryNew item
  listEntryAppend list n

def listEntryDelete (list ent : Addr) : Act Heap Unit := do
  let e ← loadEntry ent
  match e.next with
  | some n => modifyEntry n (fun c => { c with prev := e.prev })
  | none => pure ()
  let e ← loadEntry ent
  match e.prev with
  | some p => modifyEntry p (fun c => { c with next := e.next })
  | none => pure ()
  let e ← loadEntry ent
  let l ← loadList list
  if l.head = some ent then modifyList list (fun l => { l with head := e.next }) else pure ()
  if l.tail = some ent then modifyList list (fun l => { l with tail := e.prev }) else pure ()
  modifyList list (fun l => { l with count := l.count - 1 })
  listEntryDestroy ent

/-- Move the value of an entry to a string of the caller. -/
def moveValue (dest : Str) (ent : Addr) : Act Heap Str := do
  let e ← loadEntry ent
  let (_, (d, s)) ← onLocal (strMove true) (dest, e.value)
  modifyEntry ent (fun c => { c with value := s })
  pure d

def listPop (dest : Str) (list : Addr) : Act Heap Str := do
  let l ← loadList list
  match l.tail with
  | none => throwing
  | some t => do
    let d ← moveValue dest t
    listEntryDelete list t
    pure d

/-- `list_cat`; the string object made on the way is the function's own. -/
def listCat (dest : Addr) (value : Bytes) : Act Heap Unit := do
  let str ← strNew true true
  let (_, str) ← onLocal (strCpy true value) str
  listPush dest str

/-- One round of the search in `list_entry_get`. The position is counted in 32 bits, the
offset has 64; when the walk ends without a match the program aborts. -/
def entryGetStep (offset : Nat) : Option Addr × Nat → Act Heap ((Option Addr × Nat) ⊕ Addr)
  | (none, _) => stop .abort
  | (some cur, count) =>
    if count = offset then pure (.inr cur)
    else do
      let c ← loadEntry cur
      pure (.inl (c.next, (count + 1) % 2 ^ 32))

def listEntryGet (src : Addr) (offset : Nat) : Act Heap Addr := do
  let l ← loadList src
  if offset ≥ l.count then throwing
  else do
    let h ← get
    loop (entryGetStep offset) (h.fresh + 1) (l.head, 0)

def listGet (dest : Str) (src : Addr) (offset : Nat) : Act Heap Str := do
  let ent ← listEntryGet src offset
  let e ← loadEntry ent
  let (_, d) ← onLocal (strCopy true e.value) dest
  pure d

def listShift (dest : Str) (list : Addr) : Act Heap Str := do
  let l ← loadList list
  if l.count = 0 then throwing
  else do
    let ent ← listEntryGet list 0
    let d ← moveValue dest ent
    listEntryDelete list ent
    pure d

/-- One round of the loop in `list_copy`. -/
def copyStep (dest : Addr) : Option Addr → Act Heap (Option Addr ⊕ Unit)
  | none => pure (.inr ())
  | some cur => do
    let c ← loadEntry cur
    listPush dest c.value
    let c ← loadEntry cur
    pure (.inl c.next)

def listCopy (dest src : Addr) : Act Heap Unit := do
  listTruncate dest
  let s ← loadList src
  let h ← get
  loop (copyStep dest) (h.fresh + 1) s.head

/-- `list_merge`. The head of the source does not get a backward link. -/
def listMerge (dest src : Addr) : Act Heap Unit := do
  let d ← loadList dest
  let s ← loadList src
  if d.count = 0 then modifyList dest (fun d => { d with head := s.head })
  else do
    let t ← deref d.tail
    modifyEntry t (fun c => { c with next := s.head })
  modifyList dest (fun d => { d with tail := s.tail })
  modifyList dest (fun d => { d with count := d.count + s.count })
  modifyList src (fun s => { s with count := 0 })
  modifyList src (fun s => { s with head := none })
  modifyList src (fun s => { s with tail := none })

def listMove (dest src : Addr) : Act Heap Unit := do
  listTruncate dest
  let s ← loadList src
  modifyList dest (fun d => { d with head := s.head })
  modifyList dest (fun d => { d with tail := s.tail })
  modifyList dest (fun d => { d with count := s.count })
  modifyList src (fun s => { s with head := none })
  modifyList src (fun s => { s with tail := none })
  modifyList src (fun s => { s with count := 0 })

/-- The argument loop of `list_from_char`; the null pointer ends the arguments. -/
def catAll (list : Addr) : List Bytes → Act Heap Unit
  | [] => pure ()
  | cp :: args => do
    listCat list cp
    catAll list args

def listFromChar (list : Addr) (args : List Bytes) : Act Heap Unit := do
  listTruncate list
  catAll list args

/-- One round of the loop in `list_reverse`: it goes on along the link it has just written. -/
def reverseStep : Option Addr → Act Heap (Option Addr ⊕ Unit)
  | none => pure (.inr ())
  | some ptr => do
    let tmp ← loadEntry ptr
    modifyEntry ptr (fun c => { c with prev := c.next })
    modifyEntry ptr (fun c => { c with next := tmp.prev })
    let c ← loadEntry ptr
    pure (.inl c.next)

def listReverse (list : Addr) : Act Heap Unit := do
  let l ← loadList list
  modifyList list (fun l => { l with head := l.tail })
  modifyList list (fun x => { x with tail := l.head })
  let l ← loadList list
  let h ← get
  loop reverseStep (h.fresh + 1) l.head

/-- One round of the search in `list_find`. -/
def findStep (string : Bytes) : Option Addr → Act Heap (Option Addr ⊕ Bool)
  | none => pure (.inr false)
  | some cur => do
    let c ← loadEntry cur
    let rc ← strCmp c.value string
    if rc = 0 then pure (.inr true) else pure (.inl c.next)

def listFind (list : Addr) (string : Bytes) : Act Heap Bool := do
  let l ← loadList list
  let h ← get
  loop (findStep string) (h.fresh + 1) l.head

end NcList
