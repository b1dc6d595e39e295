import NaturalC.NcList

/-!
# Hash tables

A table is 256 pointers to lists, one for each value of the 8-bit hash. Keys and
values of a bucket share one list, each value right behind its key. The functions are
those of `hash.c`; the table they work on and the heap with its lists are the store.
Allocation always succeeds.
-/
namespace NcHash

open Throwing Throwing.Act NcString NcList Linked

structure HashT where
  bucket : UInt8 → Option Addr
  count : Nat

structure Store where
  heap : Heap
  hash : HashT

/-- `hash_new`: the table comes zeroed from `calloc(3)`. -/
def hashNew : HashT := ⟨fun _ => none, 0⟩

def onHeap {α : Type} (m : Act Heap α) : Act Store α :=
  zoom Store.heap (fun h s => { s with heap := h }) m

def modifyHash (f : HashT → HashT) : Act Store Unit := do
  let s ← get
  put { s with hash := f s.hash }

/-- The XOR of all bytes of a key. -/
def xorBytes (key : Bytes) : UInt8 := key.foldl (fun x b => x ^^^ b) 0

def hashFunction {σ : Type} (key : Bytes) : Act σ UInt8 := do
  let text ← deref (cString key)
  pure (xorBytes text)

/-- One round of the search for a key. It compares every entry, keys and values alike. -/
def searchStep (key : Bytes) : Option Addr → Act Heap (Option Addr ⊕ Option Addr)
  | none => pure (.inr none)
  | some cur => do
    let c ← loadEntry cur
    let rc ← strCmp c.value key
    if rc = 0 then pure (.inr (some cur)) else pure (.inl c.next)

/-- The search loop of `hash_entry_search` and `hash_set`. -/
def searchBucket (bucket : Addr) (key : Bytes) : Act Heap (Option Addr) := do
  let l ← loadList bucket
  let h ← get
  loop (searchStep key) (h.fresh + 1) l.head

def hashEntrySearch (key : Bytes) : Act Store (Addr × Addr) := do
  let slot ← hashFunction key
  let s ← get
  match s.hash.bucket slot with
  | none => throwing
  | some bucket => do
    match ← onHeap (searchBucket bucket key) with
    | some ent => pure (bucket, ent)
    | none => throwing

/-- `ent->next`, of an entry that must exist. -/
def nextEntry (ent : Addr) : Act Heap (Option Addr) := do
  let e ← loadEntry ent
  pure e.next

def hashDelete (key : Bytes) : Act Store Unit := do
  match ← attempt (hashEntrySearch key) with
  | some (bucket, ent) => do
    onHeap (do
      let n ← nextEntry ent
      let v ← deref n
      listEntryDelete bucket v
      listEntryDelete bucket ent)
    modifyHash (fun x => { x with count := x.count - 1 })
  | none => throwing

def hashGet (dest : Str) (key : Bytes) : Act Store Str := do
  match ← attempt (hashEntrySearch key) with
  | some (_, ent) => onHeap do
      let n ← nextEntry ent
      let v ← deref n
      let e ← loadEntry v
      let (_, d) ← onLocal (strCopy true e.value) dest
      pure d
  | none => throwing

/-- The bucket of a slot, made when it is not there yet. -/
def hashBucket (slot : UInt8) : Act Store Addr := do
  let s ← get
  match s.hash.bucket slot with
  | some bucket => pure bucket
  | none => do
    let bucket ← onHeap listNew
    modifyHash (fun x => { x with bucket := Function.update x.bucket slot (some bucket) })
    pure bucket

def hashSet (key : Bytes) (value : Str) : Act Store Unit := do
  let slot ← hashFunction key
  let bucket ← hashBucket slot
  match ← onHeap (searchBucket bucket key) with
  | some cur => onHeap do
      let n ← nextEntry cur
      let v ← deref n
      onValue v (strCopy true value)
  | none => do
    let (_, str) ← onLocal (strAlias key) emptyString
    onHeap (listPush bucket str)
    match ← attempt (onHeap (listPush bucket value)) with
    | some _ => modifyHash (fun x => { x with count := x.count + 1 })
    | none => do
      onHeap (do
        let l ← loadList bucket
        let t ← deref l.tail
        listEntryDelete bucket t)
      throwing

/-- The slots in the order of the loops over `bucket[i]`. -/
def slots : List UInt8 := (List.range 256).map UInt8.ofNat

/-- Do something to every bucket that exists. -/
def forBuckets (visit : Addr → Act Heap Unit) (bucket : UInt8 → Option Addr) :
    List UInt8 → Act Heap Unit
  | [] => pure ()
  | i :: is => do
    match bucket i with
    | some l => visit l
    | none => pure ()
    forBuckets visit bucket is

def hashTruncate : Act Store Unit := do
  let s ← get
  onHeap (forBuckets listTruncate s.hash.bucket slots)
  modifyHash (fun x => { x with count := 0 })

/-- One round of the loops in `hash_get_keys` and `hash_get_values`, which go two entries on. -/
def pairStep (pick : Addr → Act Heap Str) (dest : Addr) :
    Option Addr → Act Heap (Option Addr ⊕ Unit)
  | none => pure (.inr ())
  | some ent => do
    let value ← pick ent
    listPush dest value
    let n ← nextEntry ent
    let v ← deref n
    let m ← nextEntry v
    pure (.inl m)

/-- List one part of every pair in the table. -/
def hashList (pick : Addr → Act Heap Str) (dest : Addr) : Act Store Unit := do
  let s ← get
  onHeap (do
    listTruncate dest
    forBuckets (fun bucket => do
      let l ← loadList bucket
      let h ← get
      loop (pairStep pick dest) (h.fresh + 1) l.head) s.hash.bucket slots)

/-- `ent->value`. -/
def entryValue (ent : Addr) : Act Heap Str := do
  let e ← loadEntry ent
  pure e.value

/-- `ent->next->value`. -/
def nextValue (ent : Addr) : Act Heap Str := do
  let n ← nextEntry ent
  let v ← deref n
  entryValue v

def hashGetKeys (dest : Addr) : Act Store Unit := hashList entryValue dest

def hashGetValues (dest : Addr) : Act Store Unit := hashList nextValue dest

def hashKeyExists (key : Bytes) : Act Store Bool := do
  let dest ← strNew true true
  let found ← attempt (hashGet dest key)
  pure found.isSome

def hashValueExists (value : Bytes) : Act Store Bool := do
  let values ← onHeap listNew
  hashGetValues values
  let result ← onHeap (listFind values value)
  onHeap (listDestroy values)
  pure result

end NcHash
