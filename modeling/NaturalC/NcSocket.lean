import NaturalC.NcSplit

/-!
# Reading lines from a socket

`socket_readline` of `socket.c` and the fields of a socket that it touches. What the
`read(2)` calls of a run return is given beforehand; a socket that has nothing to return
any more blocks.
-/
namespace NcSocket

open Throwing Throwing.Act NcString NcList NcSplit Linked Lines

/-- The result of one `read(2)`; no data is the end of the stream. -/
inductive Event where
  | data (bytes : Bytes)
  | eintr
  | eagain
  | ebadf
  | error
  deriving DecidableEq, Repr

structure Sock where
  heap : Heap
  readBuf : Addr
  fd : Int
  connected : Bool
  fragmented : Bool
  timeout : Bool
  /-- The results of the calls of `read(2)` that are still to come. -/
  reads : List Event

/-- `RECV_BUF_SIZE`. -/
def recvBufSize : Nat := 16 * 1024

def onHeap {α : Type} (m : Act Heap α) : Act Sock α :=
  zoom Sock.heap (fun h s => { s with heap := h }) m

def read : Act Sock Event := do
  let s ← get
  match s.reads with
  | [] => stop .diverge
  | e :: reads => do
    put { s with reads := reads }
    pure e

/-- How the reading part of `socket_readline` ends. -/
inductive Got where
  | line (line : Str)
  | timeout
  | failed

/-- Behind the `do` loop: without any data the socket has gone bad, without a complete line the
reading starts again. -/
def endRead (line : Str) : Act Sock (Str ⊕ Got) := do
  if line.len = 0 then do
    let s ← get
    put { s with connected := false }
    throwing
  else do
    let s ← get
    let mem ← deref line.value
    let text ← deref (cString mem)
    if s.connected ∧ 10 ∉ text then pure (.inl line) else pure (.inr (.line line))

/-- The condition of the `do` loop. -/
def whileRead (line : Str) : Act Sock (Str ⊕ Got) := do
  let s ← get
  if line.len = 0 ∧ s.connected then pure (.inl line) else endRead line

/-- From one `read(2)` to the next one. The buffer is cleared before and one byte longer than
what is read. -/
def readRound (line : Str) : Act Sock (Str ⊕ Got) := do
  match ← read with
  | .eintr => pure (.inl line)
  | .eagain => do
    let s ← get
    put { s with timeout := true }
    pure (.inr .timeout)
  | .ebadf => do
    let s ← get
    put { s with connected := false, fd := -1 }
    whileRead line
  | .error => pure (.inr .failed)
  | .data bytes =>
    if bytes.length > 0 then do
      let buf := bytes ++ List.replicate (recvBufSize - bytes.length) 0
      let (_, line) ← onLocal (strCat true buf) line
      whileRead line
    else do
      let s ← get
      put { s with connected := false }
      endRead line

def readLoop (line : Str) : Act Sock Got := do
  let s ← get
  loop readRound (s.reads.length + 1) line

/-- The first token continues the last element of the input buffer. -/
def joinFragment (readBuf tok : Addr) (fragment : Str) : Act Heap Unit := do
  let b ← loadList readBuf
  match b.tail with
  | none => throwing
  | some tail => do
    let t ← loadList tok
    match t.head with
    | none => throwing
    | some head => do
      let e ← loadEntry head
      onValue tail (strAppend true e.value)
      let _ ← listShift fragment tok
      pure ()

/-- Only when the last line of the input buffer is unfinished. -/
def continueLine (fragmented : Bool) (readBuf tok : Addr) (fragment : Str) : Act Heap Unit :=
  if fragmented then joinFragment readBuf tok fragment else pure ()

def socketReadline (dest : Str) : Act Sock Str := do
  let line ← strNew true true
  let fragment ← strNew true true
  let tok ← onHeap listNew
  let s ← get
  let b ← onHeap (loadList s.readBuf)
  if b.count > 0 ∧ s.fragmented = false then do
    let d ← onHeap (listShift dest s.readBuf)
    onHeap (listDestroy tok)
    pure d
  else do
    match ← readLoop line with
    | .timeout => do
      onHeap (listDestroy tok)
      pure dest
    | .failed => do
      onHeap (listDestroy tok)
      throwing
    | .line line => do
      onHeap (strSplit tok line 10)
      onHeap (continueLine s.fragmented s.readBuf tok fragment)
      onHeap (listMerge s.readBuf tok)
      let same ← attempt (onLocal (strCmpTerminator 10) line)
      let s ← get
      put { s with fragmented := same.isNone }
      let d ← onHeap (listShift dest s.readBuf)
      onHeap (listDestroy tok)
      pure d

end NcSocket
