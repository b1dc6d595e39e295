import Mathlib.Algebra.Group.Nat.Defs
import Mathlib.Data.List.Basic
import Mathlib.Data.List.TakeWhile
import NaturalC.Throwing

/-!
# String objects

A string object is a heap buffer together with the size of the buffer and the
length of the text in it. Every function below is the one of `string.c` with the
same name, run on the object it modifies; a buffer index outside of the buffer is
a fault. The Boolean arguments say whether the allocation made at that point
succeeds. Two pointer arguments always name two different objects, so the checks
for `src == dest` have nothing to test here.

A `char *` argument is given by the memory it points to. Its text ends at the
first NUL, and reading on past the end of that memory is a fault.
-/
namespace NcString

open Throwing Throwing.Act

abbrev Bytes := List UInt8

/-- `STRING_MAX`, the largest size of a buffer. -/
def stringMax : Nat := 536870912

/-- What `malloc(3)` leaves in memory nobody has written; deliberately not a NUL. -/
def uninit : UInt8 := 0xA5

structure Str where
  value : Option Bytes
  size : Nat
  len : Nat
  owner : Bool
  deriving DecidableEq, Repr

/-- `EMPTY_STRING` points at a literal, so its buffer holds one NUL and its size is zero. -/
def emptyString : Str := ⟨some [0], 0, 0, true⟩

/-- The text a `char *` denotes, when a NUL ends it. -/
def cString (mem : Bytes) : Option Bytes :=
  if 0 ∈ mem then some (mem.takeWhile (· != 0)) else none

/-- The memory of a NUL terminated array with the given text. -/
def charArray (text : Bytes) : Bytes := text ++ [0]

/-- Copy bytes into the buffer at an offset, as `memcpy(3)` and one-byte `memset(3)` do. -/
def memcpy (off : Nat) (bs : Bytes) : Act Str Unit := do
  let s ← get
  let buf ← deref s.value
  if off + bs.length ≤ buf.length then
    put { s with value := some (buf.take off ++ bs ++ buf.drop (off + bs.length)) }
  else stop .fault

/-- Read one byte of the buffer. -/
def peek (off : Nat) : Act Str UInt8 := do
  let s ← get
  let buf ← deref s.value
  deref buf[off]?

/-- The counting loop of `cbuf_len`; the bound is tested before each byte is read. -/
def cbufLenFrom {σ : Type} : Bytes → Nat → Act σ Nat
  | [], i => if i < stringMax then stop .fault else throwing
  | b :: rest, i =>
    if i < stringMax then if b = 0 then ret i else cbufLenFrom rest (i + 1) else throwing

def cbufLen {σ : Type} (s : Bytes) : Act σ Nat := cbufLenFrom s 0

def strTruncate : Act Str Unit := do
  let dest ← get
  put { dest with len := 0 }
  if dest.size > 0 then memcpy 0 [0] else pure ()

/-- `str_new`: the object comes zeroed from `calloc(3)`, the buffer has 16 bytes of which
the `memset(3)` clears one pointer's worth. -/
def strNew {σ : Type} (calloc malloc : Bool) : Act σ Str :=
  if !calloc then throwing
  else if !malloc then throwing
  else ret ⟨some (List.replicate 8 0 ++ List.replicate 8 uninit), 16, 0, true⟩

/-- `realloc(3)` keeps what fits. -/
def realloc (buf : Option Bytes) (size : Nat) : Bytes :=
  (buf.getD [] ++ List.replicate size uninit).take size

def strResize (room : Bool) (newSize : Nat) : Act Str Unit := do
  if newSize = 0 then throwing
  else if newSize > stringMax then throwing
  else do
    let str ← get
    if str.size < newSize then
      if !room then throwing
      else do
        put { str with value := some (realloc str.value newSize) }
        memcpy (newSize - 1) [0]
        let str ← get
        put { str with size := newSize }
    else pure ()

def strSetLen (newLen : Nat) : Act Str Unit := do
  let dest ← get
  if newLen > stringMax then throwing
  else if newLen ≥ dest.size then throwing
  else do
    put { dest with len := newLen }
    memcpy newLen [0]

/-- `str_cat`; `size_t` arithmetic is modulo `2 ^ 64`. -/
def strCat (room : Bool) (src : Bytes) : Act Str Unit := do
  let text ← deref (cString src)
  let srcLen := text.length
  if srcLen = 0 then pure ()
  else if srcLen ≥ stringMax then throwing
  else do
    let dest ← get
    let newSize := (dest.len + srcLen + 1) % 2 ^ 64
    if newSize ≤ dest.len then throwing
    else do
      if newSize > dest.size then strResize room newSize else pure ()
      memcpy dest.len text
      memcpy (dest.len + srcLen) [0]
      strSetLen (newSize - 1)

def strAppend (room : Bool) (src : Str) : Act Str Unit := do
  let mem ← deref src.value
  strCat room mem

def strPutc (room : Bool) (c : UInt8) : Act Str Unit := strCat room [c, 0]

def strNcpy (room : Bool) (src : Bytes) (len : Nat) : Act Str Unit := do
  if len > stringMax then throwing
  else if len = 0 then strTruncate
  else do
    strTruncate
    strResize room (len + 1)
    if src.length < len then stop .fault
    else do
      memcpy 0 (src.take len)
      memcpy len [0]
      let dest ← get
      put { dest with owner := true, len := len }

def strCpy (room : Bool) (src : Bytes) : Act Str Unit := do
  let srcLen ← cbufLen src
  strNcpy room src srcLen

/-- `str_copy`: the old buffer is released before the new one is asked for. -/
def strCopy (room : Bool) (src : Str) : Act Str Unit := do
  if src.len = 0 ∨ src.size = 0 then strTruncate
  else do
    let dest ← get
    put { dest with size := 0, value := none }
    if !room then throwing
    else do
      let buf ← deref src.value
      if buf.length < src.len + 1 then stop .fault
      else do
        let dest ← get
        put { dest with value := some (List.replicate src.size uninit) }
        memcpy 0 (buf.take (src.len + 1))
        let dest ← get
        put { dest with size := src.size, len := src.len, owner := true }

/-- `str_move` copies and then truncates the source; the store is `(dest, src)`. -/
def strMove (room : Bool) : Act (Str × Str) Unit := do
  let (_, src) ← get
  zoom Prod.fst (fun d p => (d, p.2)) (strCopy room src)
  zoom Prod.snd (fun s p => (p.1, s)) strTruncate

def strAlias (src : Bytes) : Act Str Unit := do
  let dest ← get
  put { dest with owner := false, value := some src }
  let len ← cbufLen src
  let dest ← get
  put { dest with len := len, size := len + 1 }

/-- `strcmp(3)` on texts: bytes compare as unsigned characters. -/
def strcmp : Bytes → Bytes → Int
  | [], [] => 0
  | [], _ :: _ => -1
  | _ :: _, [] => 1
  | a :: as, b :: bs => if a = b then strcmp as bs else if a < b then -1 else 1

def strCmp {σ : Type} (s1 : Str) (s2 : Bytes) : Act σ Int := do
  let mem ← deref s1.value
  let t1 ← deref (cString mem)
  let t2 ← deref (cString s2)
  pure (strcmp t1 t2)

/-- `str_get_terminator`: the offset of the last character, or of the NUL when there is none. -/
def strGetTerminator (str : Str) : Nat := if str.len > 0 then str.len - 1 else 0

def strCmpTerminator (terminator : UInt8) : Act Str Unit := do
  let str ← get
  if str.len > 0 then do
    let c ← peek (str.len - 1)
    if c ≠ terminator then throwing else pure ()
  else pure ()

/-- Drop the byte under `cp`, the last one of the text. -/
def chompAt (cp : Nat) : Act Str Unit := do
  memcpy cp [0]
  let str ← get
  put { str with len := str.len - 1 }

/-- The second half of `str_chomp`: a CR under `cp` goes as well. -/
def chompCr (cp : Nat) : Act Str Unit := do
  let str ← get
  if str.len > 0 then do
    let c ← peek cp
    if c = 13 then chompAt cp else pure ()
  else pure ()

def strChomp : Act Str Unit := do
  let str ← get
  if str.len = 0 then pure ()
  else do
    let cp := strGetTerminator str
    let c ← peek cp
    if c = 10 then do
      chompAt cp
      chompCr (cp - 1)
    else chompCr cp

end NcString
