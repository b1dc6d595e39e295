import NaturalC.Ledger
import NaturalC.NcServer
import NaturalC.NcSession

/-!
# Accepting clients

`server_accept` makes a session for a client and starts a thread that runs `session_handler` on
it. The descriptors are those of the process, and a number that is closed can come back from
`accept(2)` for another client. The threads and the server take turns in any order.
-/
namespace NcAccept

open Throwing Throwing.Act NcString NcServer NcSession

/-! ## Sessions with their sockets -/

def maxClientCount : Int := 10000
def sessionOpen : Int := 2

/-- The socket of a client. What it has in `status` stands in the session. -/
structure Sock where
  fd : Int
  family : Int
  deriving DecidableEq

structure Conn (σ : Type) where
  world : NcSession.World σ
  sock : Option Sock

/-- A session that is at work, and the descriptors that are open in the process. -/
structure Held (σ : Type) where
  conn : Conn σ
  fds : List Nat

/-- How `close(2)` ends. One that fails may have given the descriptor back. -/
inductive Closing where
  | done
  | failed (released : Bool)
  deriving DecidableEq

/-- How `accept(2)` ends. -/
inductive Accepting where
  | client (fd : Nat)
  | eintr
  | aborted
  | error
  deriving DecidableEq

/-- What the system does for one call of `server_accept`. -/
structure Calls where
  sessionMemory : Bool
  socketMemory : Bool
  accept : List Accepting
  getpeername : Bool
  rcvtimeo : Bool
  sndtimeo : Bool
  thread : Bool
  close : Closing

variable {σ C : Type}

def modifyHeld (f : Held σ → Held σ) : Act (Held σ) Unit := do
  let h ← get
  put (f h)

def onWorld {α : Type} (m : Act (NcSession.World σ) α) : Act (Held σ) α :=
  zoom (fun h => h.conn.world) (fun w h => { h with conn := { h.conn with world := w } }) m

def loadSock : Act (Held σ) Sock := do
  let h ← get
  deref h.conn.sock

def storeSock (s : Option Sock) : Act (Held σ) Unit :=
  modifyHeld fun h => { h with conn := { h.conn with sock := s } }

/-- A new session, with the data that the protocol starts from. -/
def sessionNew {τ : Type} (null : σ) (memory : Bool) : Act τ (Conn σ) :=
  if memory then
    pure ⟨⟨⟨sessionOpen, ⟨0, (ofText []).1, (ofText []).1, false⟩, null, 2 ^ 32 - 1, false, false⟩, []⟩, none⟩
  else throwing

/-- `mem_calloc` demands that the pointer is `NULL`. -/
def socketNew (memory : Bool) : Act (Held σ) Unit := do
  let h ← get
  if h.conn.sock.isSome then throwing
  else if memory then storeSock (some ⟨-1, -1⟩)
  else throwing

def socketSetFamily (family : Int) : Act (Held σ) Unit := do
  let s ← loadSock
  if s.family ≥ 0 then throwing else storeSock (some { s with family := family })

def setConnected (b : Bool) : Act (Held σ) Unit :=
  onWorld (modifySession fun s => { s with connected := b })

/-- The descriptor of the next client, or none if it has gone away. -/
def acceptLoop {τ : Type} : List Accepting → Act τ (Option Nat)
  | [] => stop .diverge
  | .eintr :: rest => acceptLoop rest
  | .client fd :: _ => pure (some fd)
  | .aborted :: _ => pure none
  | .error :: _ => throwing

/-- The part of `socket_accept` behind the label `established`. -/
def established (srv : Server C) (fd : Nat) (getpeername : Bool) : Act (Held σ) Unit := do
  let s ← loadSock
  modifyHeld fun h => { h with fds := fd :: h.fds }
  setConnected true
  storeSock (some { s with fd := fd, family := srv.sockFamily })
  if srv.sockFamily = pfInet ∧ getpeername = false then throwing else pure ()

def aborted : Act (Held σ) Unit := do
  let s ← loadSock
  storeSock (some { s with fd := -1 })
  setConnected false

def socketAccept (srv : Server C) (c : Calls) : Act (Held σ) Unit := do
  match ← acceptLoop c.accept with
  | none => aborted
  | some fd => established srv fd c.getpeername

/-- Whether the number is that of an open descriptor. -/
def isOpen (fd : Int) (fds : List Nat) : Bool := decide (0 ≤ fd) && fds.contains fd.toNat

def socketSetTimeout (c : Calls) : Act (Held σ) Unit := do
  let s ← loadSock
  let h ← get
  if isOpen s.fd h.fds = false ∨ c.rcvtimeo = false then throwing
  else if c.sndtimeo = false then throwing
  else pure ()

def sessionAccept (srv : Server C) (c : Calls) : Act (Held σ) Unit := do
  socketNew c.socketMemory
  socketSetFamily srv.family
  onWorld (modifySession fun s => { s with controllerHandle := srv.controllerHandle })
  socketAccept srv c
  socketSetTimeout c

/-- The call of `close(2)` on a descriptor that is open. -/
def closeOpen (s : Sock) : Closing → Act (Held σ) Unit
  | .done => modifyHeld fun h =>
    { h with fds := h.fds.erase s.fd.toNat, conn := { h.conn with sock := some { s with fd := -1 } } }
  | .failed released => do
    modifyHeld fun h => { h with fds := if released then h.fds.erase s.fd.toNat else h.fds }
    throwing

def socketClose (closing : Closing) : Act (Held σ) Unit := do
  let s ← loadSock
  let h ← get
  if s.fd < 0 then pure ()
  else if isOpen s.fd h.fds then closeOpen s closing
  else throwing

def sessionClose (closing : Closing) : Act (Held σ) Unit := do
  let h ← get
  if h.conn.world.session.sessionState = sessionUndef then throwing
  else if h.conn.world.session.sessionState = sessionClosed then pure ()
  else do
    socketClose closing
    onWorld (modifySession fun s => { s with sessionState := sessionClosed })

def sessionDestroy (reg : Registry σ) : Act (Held σ) Unit := do
  onWorld (sessionControllerInvoke reg .destroy)
  storeSock none

/-! ## The handler of a session -/

def greeting (reg : Registry σ) : Act (Held σ) Unit := do
  onWorld (modifySession fun s => { s with sessionState := sessionGreeting })
  onWorld (sessionGreet reg)

/-- What `session_handler` does behind its loop. -/
def ending (reg : Registry σ) (closing : Closing) : Act (Held σ) Unit := do
  let h ← get
  let _ ← attempt (if h.conn.world.session.sessionState = sessionTimeout ∧ h.conn.world.session.connected = true then
    onWorld (sessionControllerInvoke reg .timeout) else pure ())
  sessionClose closing
  sessionDestroy reg

/-! ## The process -/

/-- Where a thread is in `session_handler`. -/
inductive Stage where
  | greeting
  | reading
  | ended
  deriving DecidableEq

structure Thread (σ : Type) where
  conn : Conn σ
  stage : Stage

/-- The open descriptors, the session that `server_accept` is setting up, and the threads. -/
structure Proc (σ : Type) where
  fds : List Nat
  main : Option (Conn σ)
  threads : List (Thread σ)

/-- Run a computation on a session of the process. What it does to the descriptors stays. -/
def onConn {α : Type} (m : Act (Held σ) α) (k : Conn σ) : Act (Proc σ) (α × Conn σ) := fun p =>
  match m.run ⟨k, p.fds⟩ with
  | .ok a h => .ok (a, h.conn) { p with fds := h.fds }
  | .thrown h => .thrown { p with fds := h.fds }
  | .halt e => .halt e

/-- The hook for new sessions, and the client. -/
def setUp (reg : Registry σ) (srv : Server C) (c : Calls) : Act (Held σ) Unit := do
  onWorld (modifySession fun s => { s with controllerHandle := srv.controllerHandle })
  onWorld (sessionControllerInvoke reg .init)
  sessionAccept srv c

/-- `server_accept` up to the return of `session_accept`. -/
def openSession (reg : Registry σ) (null : σ) (srv : Server C) (c : Calls) : Act (Proc σ) (Conn σ) := do
  let k ← sessionNew null c.sessionMemory
  let x ← onConn (setUp reg srv c) k
  pure x.2

/-- What is done with the session when there is no thread for it. -/
def overload (reg : Registry σ) (closing : Closing) : Act (Held σ) Unit := do
  onWorld (sessionControllerInvoke reg .overload)
  let _ ← attempt (sessionClose closing)
  sessionDestroy reg

def startThread (k : Conn σ) : Act (Proc σ) Unit := do
  let p ← get
  put { p with threads := p.threads ++ [⟨k, .greeting⟩] }

/-- The rest of `server_accept`. A `throw`, and the check of a call, returns from the function, so the block
behind `catch` is never entered and the session stays as it is. -/
def startSession (reg : Registry σ) (c : Calls) (k : Conn σ) : Act (Proc σ) Unit := do
  let s ← deref k.sock
  if s.fd ≥ maxClientCount then throwing
  else if s.fd < 0 then throwing
  else if c.thread then startThread k
  else do
    let _ ← onConn (overload reg c.close) k
    pure ()

def serverAccept (reg : Registry σ) (null : σ) (srv : Server C) (c : Calls) : Act (Proc σ) Unit := do
  let k ← openSession reg null srv c
  startSession reg c k

/-! ## Calls of hooks -/

/-- Whether a hook lets its caller go on, and what it leaves. -/
def invoked (reg : Registry σ) (hook : Hook) (w : NcSession.World σ) : Bool × NcSession.World σ :=
  match (sessionControllerInvoke reg hook).run w with
  | .ok _ w' => (true, w')
  | .thrown w' => (false, w')
  | .halt _ => (false, w)

variable {reg : Registry σ} {w : NcSession.World σ} {h h' : Held σ} {s : Sock} {fd : Nat} {α β : Type}

theorem run_invoke (reg : Registry σ) (hook : Hook) (w : NcSession.World σ) :
    (sessionControllerInvoke reg hook).run w =
      if (invoked reg hook w).1 then .ok () (invoked reg hook w).2 else .thrown (invoked reg hook w).2 := by
  cases ho : (sessionControllerInvoke reg hook).run w with
  | ok u w' => simp [invoked, ho]
  | thrown w' => simp [invoked, ho]
  | halt e =>
    -- a hook always comes back
    rw [sessionControllerInvoke, run_bind_get] at ho
    split_ifs at ho
    · cases ho
    · cases ho
    · split at ho
      · cases ho
      · rw [run_bind_record, run_bind_modifySession] at ho
        split_ifs at ho <;> cases ho

def Held.withWorld (h : Held σ) (w : NcSession.World σ) : Held σ := { h with conn := { h.conn with world := w } }

@[simp] theorem withWorld_world (h : Held σ) (w : NcSession.World σ) : (h.withWorld w).conn.world = w := rfl
@[simp] theorem withWorld_sock (h : Held σ) (w : NcSession.World σ) : (h.withWorld w).conn.sock = h.conn.sock := rfl
@[simp] theorem withWorld_fds (h : Held σ) (w : NcSession.World σ) : (h.withWorld w).fds = h.fds := rfl

theorem run_onWorld_ok {m : Act (NcSession.World σ) α} {a : α} {w' : NcSession.World σ}
    (hm : m.run h.conn.world = .ok a w') : (onWorld m).run h = .ok a (h.withWorld w') := run_zoom_ok hm

theorem run_onWorld_thrown {m : Act (NcSession.World σ) α} {w' : NcSession.World σ}
    (hm : m.run h.conn.world = .thrown w') : (onWorld m).run h = .thrown (h.withWorld w') := run_zoom_thrown hm

theorem run_onWorld_halt {m : Act (NcSession.World σ) α} {e : Halt}
    (hm : m.run h.conn.world = .halt e) : (onWorld m).run h = .halt e := by rw [onWorld, run_zoom, hm]

/-! ## What becomes of the descriptors -/

/-- A computation on a session ends as one that only sees the session does, and leaves such descriptors. -/
def Shows (fds : List Nat) : Outcome (Held σ) α → Outcome (NcSession.World σ) α → Prop
  | .ok a h, .ok b w => a = b ∧ h.conn.world = w ∧ h.fds = fds
  | .thrown h, .thrown w => h.conn.world = w ∧ h.fds = fds
  | .halt e, .halt e' => e = e'
  | _, _ => False

/-- When the session alone comes back, so does the computation, with those descriptors. -/
theorem Shows.returns {fds : List Nat} {o : Outcome (Held σ) α} {o' : Outcome (NcSession.World σ) α}
    (hs : Shows fds o o') (hret : o'.Returns fun _ => True) : o.Returns fun h => h.fds = fds := by
  cases o <;> cases o'
  case ok.ok => exact hs.2.2
  case thrown.thrown => exact hs.2
  case halt.halt => exact hret.elim
  all_goals exact hs.elim

theorem shows_onWorld (m : Act (NcSession.World σ) α) (h : Held σ) :
    Shows h.fds ((onWorld m).run h) (m.run h.conn.world) := by
  rw [onWorld, run_zoom]
  cases m.run h.conn.world with
  | ok a w => exact ⟨rfl, rfl, rfl⟩
  | thrown w => exact ⟨rfl, rfl⟩
  | halt e => exact rfl

/-- One step after the other, when only the first one changes the descriptors. -/
theorem shows_bind {m : Act (Held σ) α} {m' : Act (NcSession.World σ) α} {f : α → Act (Held σ) β}
    {f' : α → Act (NcSession.World σ) β} {fds : List Nat} (hm : Shows fds (m.run h) (m'.run w))
    (hf : ∀ a h', h'.fds = fds → Shows fds ((f a).run h') ((f' a).run h'.conn.world)) :
    Shows fds ((m >>= f).run h) ((m' >>= f').run w) := by
  rw [run_bind, run_bind]
  cases ho : m.run h with
  | ok a h₁ =>
    cases ho' : m'.run w with
    | ok b w₁ =>
      rw [ho, ho'] at hm
      obtain ⟨rfl, rfl, hfds⟩ := hm
      exact hf a h₁ hfds
    | thrown w₁ => rw [ho, ho'] at hm; exact hm.elim
    | halt e => rw [ho, ho'] at hm; exact hm.elim
  | thrown h₁ =>
    cases ho' : m'.run w with
    | ok b w₁ => rw [ho, ho'] at hm; exact hm.elim
    | thrown w₁ => rw [ho, ho'] at hm; exact hm
    | halt e => rw [ho, ho'] at hm; exact hm.elim
  | halt e =>
    cases ho' : m'.run w with
    | ok b w₁ => rw [ho, ho'] at hm; exact hm.elim
    | thrown w₁ => rw [ho, ho'] at hm; exact hm.elim
    | halt e' => rw [ho, ho'] at hm; exact hm

/-- The session has a socket, and its descriptor is open. -/
structure Connected (h : Held σ) (s : Sock) (fd : Nat) : Prop where
  sock : h.conn.sock = some s
  number : s.fd = fd
  opened : fd ∈ h.fds

theorem sessionClose_returns (closes : Bool) (w : NcSession.World σ) :
    ((NcSession.sessionClose closes).run w).Returns fun _ => True := by
  rw [NcSession.sessionClose, run_bind_get]
  split_ifs <;> exact trivial

theorem invoke_returns (reg : Registry σ) (hook : Hook) (w : NcSession.World σ) :
    ((sessionControllerInvoke reg hook).run w).Returns fun _ => True := by
  rw [run_invoke]
  split_ifs <;> exact trivial

theorem Connected.withWorld (hc : Connected h s fd) (w : NcSession.World σ) : Connected (h.withWorld w) s fd :=
  ⟨hc.sock, hc.number, hc.opened⟩

theorem Connected.run_loadSock (hc : Connected h s fd) : loadSock.run h = .ok s h := by
  rw [loadSock, run_bind_get, hc.sock]
  rfl

theorem Connected.isOpen (hc : Connected h s fd) : isOpen s.fd h.fds = true := by
  have hmem : h.fds.contains s.fd.toNat = true := by
    rw [hc.number, Int.toNat_natCast]
    exact List.contains_iff_mem.mpr hc.opened
  rw [NcAccept.isOpen, hmem, decide_eq_true (by rw [hc.number]; exact Int.natCast_nonneg fd)]
  rfl

/-- Whether `session_close` gives back the descriptor of a session in such a state. -/
def givesBack (state : Int) (closing : Closing) : Bool :=
  state ≠ sessionUndef && state ≠ sessionClosed && closing ≠ .failed false

/-- What is open after that. -/
def closed (fds : List Nat) (fd : Nat) (b : Bool) : List Nat := if b then fds.erase fd else fds

theorem shows_sessionClose (hc : Connected h s fd) (closing : Closing) :
    Shows (closed h.fds fd (givesBack h.conn.world.session.sessionState closing)) ((sessionClose closing).run h)
      ((NcSession.sessionClose (closing = .done)).run h.conn.world) := by
  rw [sessionClose, NcSession.sessionClose, run_bind_get, run_bind_get]
  by_cases hundef : h.conn.world.session.sessionState = sessionUndef
  · rw [if_pos hundef, if_pos hundef, hundef]
    exact ⟨rfl, rfl⟩
  rw [if_neg hundef, if_neg hundef]
  by_cases hclosed : h.conn.world.session.sessionState = sessionClosed
  · rw [if_pos hclosed, if_pos hclosed, hclosed]
    exact ⟨rfl, rfl, rfl⟩
  rw [if_neg hclosed, if_neg hclosed]
  have hneg : ¬ s.fd < 0 := by
    rw [hc.number]
    omega
  have hfd : s.fd.toNat = fd := by rw [hc.number, Int.toNat_natCast]
  have hclose : (socketClose closing).run h = (closeOpen s closing).run h := by
    rw [socketClose, run_bind_ok hc.run_loadSock, run_bind_get, if_neg hneg, if_pos hc.isOpen]
  have hback : givesBack h.conn.world.session.sessionState closing = decide (closing ≠ .failed false) := by
    simp [givesBack, hundef, hclosed]
  rw [run_bind, hclose, hback]
  cases closing with
  | done => exact ⟨rfl, rfl, by simp only [closed, hfd]; rfl⟩
  | failed released =>
    cases released with
    | false => exact ⟨rfl, rfl⟩
    | true => exact ⟨rfl, by simp only [closed, hfd]; rfl⟩

/-- The session when `session_handler` closes it, after the timeout hook. -/
def atClose (reg : Registry σ) (w : NcSession.World σ) : NcSession.World σ :=
  if w.session.sessionState = sessionTimeout ∧ w.session.connected = true then (invoked reg .timeout w).2 else w

theorem shows_sessionDestroy (reg : Registry σ) (h : Held σ) :
    Shows h.fds ((sessionDestroy reg).run h) ((sessionControllerInvoke reg .destroy).run h.conn.world) := by
  rw [sessionDestroy, run_invoke]
  split_ifs with hok
  · rw [run_bind_ok (run_onWorld_ok (by rw [run_invoke, if_pos hok]))]
    exact ⟨rfl, rfl, rfl⟩
  · rw [run_bind_thrown (run_onWorld_thrown (by rw [run_invoke, if_neg hok]))]
    exact ⟨rfl, rfl⟩

/-- The end of a session gives its descriptor back unless a hook has left it undefined or closed, or the call
of `close(2)` fails. -/
theorem shows_ending (hc : Connected h s fd) (reg : Registry σ) (closing : Closing) :
    Shows (closed h.fds fd (givesBack (atClose reg h.conn.world).session.sessionState closing))
      ((ending reg closing).run h) ((sessionEnd reg (closing = .done)).run h.conn.world) := by
  have htimeout : ∃ r, (attempt (if h.conn.world.session.sessionState = sessionTimeout ∧
        h.conn.world.session.connected = true then onWorld (sessionControllerInvoke reg .timeout) else pure ())).run h =
        .ok r (h.withWorld (atClose reg h.conn.world)) ∧
      (attempt (if h.conn.world.session.sessionState = sessionTimeout ∧ h.conn.world.session.connected = true then
        sessionControllerInvoke reg .timeout else pure ())).run h.conn.world = .ok r (atClose reg h.conn.world) := by
    rw [atClose]
    split_ifs
    · cases hok : (invoked reg .timeout h.conn.world).1 with
      | true =>
        have hrun := run_invoke reg .timeout h.conn.world
        rw [hok, if_pos rfl] at hrun
        exact ⟨_, run_attempt_ok (run_onWorld_ok hrun), run_attempt_ok hrun⟩
      | false =>
        have hrun := run_invoke reg .timeout h.conn.world
        rw [hok, if_neg Bool.false_ne_true] at hrun
        exact ⟨_, run_attempt_thrown (run_onWorld_thrown hrun), run_attempt_thrown hrun⟩
    · exact ⟨_, rfl, rfl⟩
  obtain ⟨r, hheld, hworld⟩ := htimeout
  rw [ending, sessionEnd, run_bind_get, run_bind_get, run_bind_ok hheld, run_bind_ok hworld]
  apply shows_bind (shows_sessionClose (hc.withWorld _) closing)
  intro _ h' hfds
  rw [← hfds]
  exact shows_sessionDestroy reg h'

/-! ## Setting up a session -/

/-- The descriptor with which `accept(2)` ends. -/
def clientOf : List Accepting → Option Nat
  | .eintr :: rest => clientOf rest
  | .client fd :: _ => some fd
  | _ => none

theorem run_acceptLoop {τ : Type} (rest : List Accepting) (t : τ) :
    match clientOf rest with
    | some fd => (acceptLoop rest).run t = .ok (some fd) t
    | none => (acceptLoop rest).run t = .ok none t ∨ (acceptLoop rest).run t = .thrown t ∨
        (acceptLoop rest).run t = .halt .diverge := by
  induction rest with
  | nil => exact Or.inr (Or.inr rfl)
  | cons a rest ih =>
    cases a with
    | client fd => exact rfl
    | eintr => exact ih
    | aborted => exact Or.inl rfl
    | error => exact Or.inr (Or.inl rfl)

/-- The new session, with the handle of the server's controller. -/
def fresh (null : σ) (srv : Server C) : NcSession.World σ :=
  ⟨⟨sessionOpen, ⟨0, (ofText []).1, (ofText []).1, false⟩, null, srv.controllerHandle, false, false⟩, []⟩

/-- The session of a client that has been accepted. -/
def accepted (reg : Registry σ) (null : σ) (srv : Server C) : NcSession.World σ :=
  let w := (invoked reg .init (fresh null srv)).2
  { w with session := { w.session with controllerHandle := srv.controllerHandle, connected := true } }

/-- The descriptor that `server_accept` gets, if it comes as far as `accept(2)`. -/
def arrived (reg : Registry σ) (null : σ) (srv : Server C) (c : Calls) : Option Nat :=
  if c.sessionMemory && (invoked reg .init (fresh null srv)).1 && c.socketMemory then clientOf c.accept else none

/-- What follows `accept(2)` in `session_accept` succeeds. -/
def settled (srv : Server C) (c : Calls) : Bool :=
  (srv.sockFamily ≠ pfInet || c.getpeername) && c.rcvtimeo && c.sndtimeo

/-- `session_accept` with a session that has no socket yet. -/
theorem run_sessionAccept (srv : Server C) (c : Calls) (hsock : h.conn.sock = none) :
    match if c.socketMemory then clientOf c.accept else none with
    | none => ∃ h', ((sessionAccept srv c).run h = .thrown h' ∧ h'.fds = h.fds) ∨
        (sessionAccept srv c).run h = .halt .diverge
    | some fd => ∃ h', h'.fds = fd :: h.fds ∧ if settled srv c then
        (sessionAccept srv c).run h = .ok () h' ∧ h'.conn = ⟨{ h.conn.world with session :=
          { h.conn.world.session with controllerHandle := srv.controllerHandle, connected := true } },
          some ⟨fd, srv.sockFamily⟩⟩
      else (sessionAccept srv c).run h = .thrown h' := by
  cases hmem : c.socketMemory with
  | false =>
    rw [if_neg Bool.false_ne_true]
    refine ⟨h, Or.inl ⟨?_, rfl⟩⟩
    rw [sessionAccept, socketNew, run_bind, run_bind_get, hsock, hmem]
    rfl
  | true =>
    rw [if_pos rfl]
    -- the socket when `accept(2)` is called
    obtain ⟨h₁, hh₁⟩ : ∃ h₁ : Held σ, h₁ = ⟨⟨{ h.conn.world with session :=
      { h.conn.world.session with controllerHandle := srv.controllerHandle } }, some ⟨-1, srv.family⟩⟩, h.fds⟩ :=
      ⟨_, rfl⟩
    have hprep : (sessionAccept srv c).run h =
        (do socketAccept srv c; socketSetTimeout c : Act (Held σ) Unit).run h₁ := by
      have hnew : (socketNew c.socketMemory).run h = .ok () { h with conn := ⟨h.conn.world, some ⟨-1, -1⟩⟩ } := by
        rw [socketNew, run_bind_get, hsock, hmem]
        rfl
      rw [sessionAccept, run_bind_ok hnew, hh₁]
      rfl
    rw [hprep]
    have haccept := run_acceptLoop c.accept h₁
    cases hclient : clientOf c.accept with
    | none =>
      rw [hclient] at haccept
      simp only at haccept ⊢
      rcases haccept with hrun | hrun | hrun
      · -- the client has gone away, and there is no descriptor to set a timeout for
        obtain ⟨h₂, hh₂⟩ : ∃ h₂ : Held σ, h₂ = ⟨⟨{ h₁.conn.world with session :=
          { h₁.conn.world.session with connected := false } }, some ⟨-1, srv.family⟩⟩, h.fds⟩ := ⟨_, rfl⟩
        have hgone : (socketAccept srv c).run h₁ = .ok () h₂ := by
          rw [socketAccept, run_bind_ok hrun, hh₂, hh₁]
          rfl
        refine ⟨h₂, Or.inl ⟨?_, by rw [hh₂]⟩⟩
        rw [run_bind_ok hgone, socketSetTimeout, hh₂]
        rfl
      · refine ⟨h₁, Or.inl ⟨?_, by rw [hh₁]⟩⟩
        rw [run_bind, socketAccept, run_bind_thrown hrun]
      · refine ⟨h₁, Or.inr ?_⟩
        rw [run_bind, socketAccept, run_bind_halt hrun]
    | some fd =>
      rw [hclient] at haccept
      simp only at haccept ⊢
      obtain ⟨h₂, hh₂⟩ : ∃ h₂ : Held σ, h₂ = ⟨⟨{ h.conn.world with session :=
        { h.conn.world.session with controllerHandle := srv.controllerHandle, connected := true } },
        some ⟨fd, srv.sockFamily⟩⟩, fd :: h.fds⟩ := ⟨_, rfl⟩
      have hest : (socketAccept srv c).run h₁ =
          if srv.sockFamily = pfInet ∧ c.getpeername = false then .thrown h₂ else .ok () h₂ := by
        rw [socketAccept, run_bind_ok haccept, hh₂, hh₁]
        change (if _ then _ else _ : Act (Held σ) Unit).run _ = _
        split_ifs <;> rfl
      have hopen : isOpen (fd : Int) (fd :: h.fds) = true := by simp [isOpen]
      have htime : (socketSetTimeout c).run h₂ =
          if c.rcvtimeo && c.sndtimeo then .ok () h₂ else .thrown h₂ := by
        rw [socketSetTimeout, hh₂]
        change (if isOpen (fd : Int) (fd :: h.fds) = false ∨ _ then _ else _ : Act (Held σ) Unit).run _ = _
        rw [hopen]
        cases c.rcvtimeo <;> cases c.sndtimeo <;> rfl
      refine ⟨h₂, by rw [hh₂], ?_⟩
      by_cases hpeer : srv.sockFamily = pfInet ∧ c.getpeername = false
      · rw [if_pos hpeer] at hest
        have hset : settled srv c = false := by simp [settled, hpeer.1, hpeer.2]
        rw [hset, if_neg Bool.false_ne_true, run_bind_thrown hest]
      · rw [if_neg hpeer] at hest
        have hset : settled srv c = (c.rcvtimeo && c.sndtimeo) := by
          have hfirst : (srv.sockFamily ≠ pfInet || c.getpeername) = true := by
            by_cases hf : srv.sockFamily = pfInet
            · simpa [hf] using hpeer
            · simp [hf]
          rw [settled, hfirst, Bool.true_and]
        rw [hset, run_bind_ok hest, htime]
        split_ifs
        · exact ⟨rfl, by rw [hh₂]⟩
        · rfl

theorem run_onConn (m : Act (Held σ) α) (k : Conn σ) (p : Proc σ) :
    (onConn m k).run p = match m.run ⟨k, p.fds⟩ with
      | .ok a h => .ok (a, h.conn) { p with fds := h.fds }
      | .thrown h => .thrown { p with fds := h.fds }
      | .halt e => .halt e := rfl

theorem run_onConn_ok {m : Act (Held σ) α} {k : Conn σ} {p : Proc σ} {a : α} (hm : m.run ⟨k, p.fds⟩ = .ok a h) :
    (onConn m k).run p = .ok (a, h.conn) { p with fds := h.fds } := by rw [run_onConn, hm]

theorem run_onConn_thrown {m : Act (Held σ) α} {k : Conn σ} {p : Proc σ} (hm : m.run ⟨k, p.fds⟩ = .thrown h) :
    (onConn m k).run p = .thrown { p with fds := h.fds } := by rw [run_onConn, hm]

theorem run_onConn_halt {m : Act (Held σ) α} {k : Conn σ} {p : Proc σ} {e : Halt}
    (hm : m.run ⟨k, p.fds⟩ = .halt e) : (onConn m k).run p = .halt e := by rw [run_onConn, hm]

/-- A session that `session_new` has made. -/
def blank (null : σ) : Conn σ :=
  ⟨⟨⟨sessionOpen, ⟨0, (ofText []).1, (ofText []).1, false⟩, null, 2 ^ 32 - 1, false, false⟩, []⟩, none⟩

/-- The new session up to its client, with enough memory for the session itself. -/
theorem run_setUp (reg : Registry σ) (null : σ) (srv : Server C) (c : Calls) (fds : List Nat)
    (hmem : c.sessionMemory = true) :
    match arrived reg null srv c with
    | none => ∃ h', ((setUp reg srv c).run ⟨blank null, fds⟩ = .thrown h' ∧ h'.fds = fds) ∨
        (setUp reg srv c).run ⟨blank null, fds⟩ = .halt .diverge
    | some fd => ∃ h', h'.fds = fd :: fds ∧ if settled srv c then
        (setUp reg srv c).run ⟨blank null, fds⟩ = .ok () h' ∧
          h'.conn = ⟨accepted reg null srv, some ⟨fd, srv.sockFamily⟩⟩
      else (setUp reg srv c).run ⟨blank null, fds⟩ = .thrown h' := by
  have hinit := run_invoke reg .init (fresh null srv)
  have hstart : (setUp reg srv c).run ⟨blank null, fds⟩ =
      (do onWorld (sessionControllerInvoke reg .init)
          sessionAccept srv c : Act (Held σ) Unit).run ⟨⟨fresh null srv, none⟩, fds⟩ := rfl
  cases hok : (invoked reg .init (fresh null srv)).1 with
  | false =>
    rw [hok, if_neg Bool.false_ne_true] at hinit
    have hnone : arrived reg null srv c = none := by simp [arrived, hok]
    rw [hnone]
    exact ⟨_, Or.inl ⟨by rw [hstart, run_bind_thrown (run_onWorld_thrown hinit)], rfl⟩⟩
  | true =>
    rw [hok, if_pos rfl] at hinit
    have harr : arrived reg null srv c = if c.socketMemory then clientOf c.accept else none := by
      simp [arrived, hmem, hok]
    rw [hstart, run_bind_ok (run_onWorld_ok hinit), harr]
    exact run_sessionAccept srv c rfl

/-- `server_accept` up to `session_accept`: the process gets a descriptor just when a client arrives, and
unless all goes well from there on, nobody has it. -/
theorem run_openSession (reg : Registry σ) (null : σ) (srv : Server C) (c : Calls) (p : Proc σ) :
    match arrived reg null srv c with
    | none => (openSession reg null srv c).run p = .thrown p ∨ (openSession reg null srv c).run p = .halt .diverge
    | some fd => (openSession reg null srv c).run p =
        if settled srv c then .ok ⟨accepted reg null srv, some ⟨fd, srv.sockFamily⟩⟩ { p with fds := fd :: p.fds }
        else .thrown { p with fds := fd :: p.fds } := by
  cases hmem : c.sessionMemory with
  | false =>
    have hnone : arrived reg null srv c = none := by simp [arrived, hmem]
    rw [hnone]
    left
    rw [openSession, sessionNew, hmem]
    rfl
  | true =>
    have hopen : (openSession reg null srv c).run p =
        (do let x ← onConn (setUp reg srv c) (blank null)
            pure x.2 : Act (Proc σ) (Conn σ)).run p := by
      rw [openSession, sessionNew, hmem]
      rfl
    have hset := run_setUp reg null srv c p.fds hmem
    rw [hopen]
    cases harr : arrived reg null srv c with
    | none =>
      rw [harr] at hset
      obtain ⟨h', ⟨hrun, hfds⟩ | hrun⟩ := hset
      · left
        rw [run_bind_thrown (run_onConn_thrown hrun), hfds]
      · right
        rw [run_bind_halt (run_onConn_halt hrun)]
    | some fd =>
      rw [harr] at hset
      obtain ⟨h', hfds, hrun⟩ := hset
      simp only
      split_ifs at hrun ⊢
      · rw [run_bind_ok (run_onConn_ok hrun.1), hfds, hrun.2]
        rfl
      · rw [run_bind_thrown (run_onConn_thrown hrun), hfds]

/-- Whether a session without a thread gives its descriptor back. -/
def overloadGivesBack (reg : Registry σ) (w : NcSession.World σ) (closing : Closing) : Bool :=
  (invoked reg .overload w).1 && givesBack (invoked reg .overload w).2.session.sessionState closing

theorem overload_fds (hc : Connected h s fd) (reg : Registry σ) (closing : Closing) :
    ((overload reg closing).run h).Returns fun h' =>
      h'.fds = closed h.fds fd (overloadGivesBack reg h.conn.world closing) := by
  have hhook := run_invoke reg .overload h.conn.world
  rw [overload, overloadGivesBack]
  cases hok : (invoked reg .overload h.conn.world).1 with
  | false =>
    rw [hok, if_neg Bool.false_ne_true] at hhook
    rw [run_bind_thrown (run_onWorld_thrown hhook)]
    exact rfl
  | true =>
    rw [hok, if_pos rfl] at hhook
    rw [run_bind_ok (run_onWorld_ok hhook), Bool.true_and]
    have hclose := (shows_sessionClose (hc.withWorld (invoked reg .overload h.conn.world).2) closing).returns
      (sessionClose_returns _ _)
    apply returns_bind (returns_attempt hclose)
    intro _ h' _ hfds
    exact ((shows_sessionDestroy reg h').returns (invoke_returns reg .destroy _)).imp fun _ h => h.trans hfds

end NcAccept
