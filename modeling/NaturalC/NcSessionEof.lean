import NaturalC.NcSession
import NaturalC.NcSocketEof

/-!
# The end of a connection

A session together with the socket that it reads from. When the peer has closed the connection,
`socket_readline` fails, `session_process_request` passes the failure on before it has looked at the state
of the session, and `session_handler` discards it.
-/
namespace NcSession

open Throwing Throwing.Act NcString
open NcSocket (Sock Reader Rel Good)

/-- A session with its socket. -/
structure Client (σ : Type) where
  world : World σ
  sock : Sock

variable {σ : Type}

def onWorld {α : Type} (m : Act (World σ) α) : Act (Client σ) α :=
  zoom Client.world (fun w c => { c with world := w }) m

def onSock {α : Type} (m : Act Sock α) : Act (Client σ) α :=
  zoom Client.sock (fun s c => { c with sock := s }) m

/-- What the session sees of a call of `socket_readline`. -/
def readlineOf (line : Option Str) (sock : Sock) : Readline :=
  match line with
  | none => .failure
  | some text => if sock.timeout then .timeout else .line text

/-- `session_process_request` on the socket. -/
def processRequest (reg : Registry σ) : Act (Client σ) Unit := do
  let line ← strNew true true
  let r ← attempt (onSock (NcSocket.socketReadline line))
  let c ← get
  onWorld (sessionProcessRequest reg (readlineOf r c.sock) c.sock.connected)

/-- At most so many rounds of the loop of `session_handler`. It says whether the loop has ended. -/
def requestLoop (reg : Registry σ) : Nat → Act (Client σ) Bool
  | 0 => do
    let c ← get
    pure (c.world.session.sessionState ≠ sessionRead)
  | n + 1 => do
    let c ← get
    if c.world.session.sessionState = sessionRead then do
      let _ ← attempt (processRequest reg)
      requestLoop reg n
    else pure true

/-- The session is being read from, no complete line can be had from the buffer, and the next `m` calls of
`read(2)` say that the connection has been closed. -/
structure Hung (c : Client σ) (m : Nat) : Prop where
  reading : c.world.session.sessionState = sessionRead
  sock : ∃ r, Rel c.sock r ∧ Good r ∧ (r.fragmented = true ∨ r.buf = []) ∧ r.events = List.replicate m (.data [])

/-- The next request takes the session out of its state, and the loop ends. -/
def NoticesEnd (reg : Registry σ) (c : Client σ) : Prop :=
  (∀ o c', (attempt (processRequest reg)).run c = .ok o c' → c'.world.session.sessionState ≠ sessionRead) ∧
    ∃ n c', (requestLoop reg n).run c = .ok true c'

variable {c : Client σ} {m : Nat}

/-- The call fails and nothing but the socket and the record of the session has changed. -/
theorem Hung.processRequest (reg : Registry σ) (h : Hung c (m + 1)) :
    ∃ c', (processRequest reg).run c = .thrown c' ∧ Hung c' m := by
  obtain ⟨r, hr, hg, hneed, hevents⟩ := h.sock
  obtain ⟨line, hnew, hl, -⟩ := strNew_holds c
  have hcall := (NcSocket.readline_matches hr hg hl).2
  have hgood := hg.readline
  obtain ⟨buf, fragmented, connected, events⟩ := r
  dsimp only at hneed hevents
  subst hevents
  rw [NcSocket.readline_end buf fragmented connected hneed] at hcall hgood
  cases hread : (NcSocket.socketReadline line).run c.sock with
  | ok d s =>
    rw [hread] at hcall
    rcases hcall.1 with ⟨t, hreply, -⟩ | ⟨hreply, -⟩
    · cases hreply
    · cases hreply
  | thrown s =>
    rw [hread] at hcall
    refine ⟨⟨⟨{ c.world.session with connected := s.connected }, c.world.events ++ [.read .failure]⟩, s⟩, ?_,
      h.reading, _, hcall.2, hgood, hneed, rfl⟩
    have hsock : (onSock (NcSocket.socketReadline line)).run c = .thrown { c with sock := s } := run_zoom_thrown hread
    rw [NcSession.processRequest, run_bind_ok hnew, run_bind_ok (run_attempt_thrown hsock)]
    rfl
  | halt e =>
    rw [hread] at hcall
    cases hcall.1

/-- As long as the end of the stream is read, the loop goes on. -/
theorem Hung.requestLoop (reg : Registry σ) (n : Nat) (h : Hung c (m + n)) :
    ∃ c', (requestLoop reg n).run c = .ok false c' ∧ Hung c' m := by
  induction n generalizing c with
  | zero =>
    refine ⟨c, ?_, h⟩
    rw [NcSession.requestLoop, run_bind_get, h.reading]
    rfl
  | succ n ih =>
    obtain ⟨c₁, hrun, h₁⟩ := Hung.processRequest reg (m := m + n) h
    obtain ⟨c', hloop, h'⟩ := ih h₁
    refine ⟨c', ?_, h'⟩
    rw [NcSession.requestLoop, run_bind_get, if_pos h.reading, run_bind_ok (run_attempt_thrown hrun)]
    exact hloop

/-- Whatever the hooks of the controllers do, the end of the connection does not end the session. -/
theorem end_never_noticed (reg : Registry σ) (h : Hung c (m + 1)) :
    ¬ NoticesEnd reg c ∧ (∃ c', (attempt (processRequest reg)).run c = .ok none c' ∧
        c'.world.session.sessionState = sessionRead) ∧
      ∀ n ≤ m + 1, ∃ c', (requestLoop reg n).run c = .ok false c' ∧ c'.world.session.sessionState = sessionRead := by
  obtain ⟨c₁, hrun, h₁⟩ := h.processRequest reg
  have hattempt : (attempt (processRequest reg)).run c = .ok none c₁ := run_attempt_thrown hrun
  refine ⟨?_, ⟨c₁, hattempt, h₁.reading⟩, ?_⟩
  · rintro ⟨hleaves, -⟩
    exact hleaves none c₁ hattempt h₁.reading
  · intro n hn
    obtain ⟨k, hk⟩ : ∃ k, m + 1 = k + n := ⟨m + 1 - n, by omega⟩
    rw [hk] at h
    obtain ⟨c', hloop, h'⟩ := h.requestLoop reg n
    exact ⟨c', hloop, h'.reading⟩

/-- A session that waits for its first line, and a peer that has gone. -/
def goneClient (m : Nat) : Client Unit :=
  ⟨{ accepted with session := { accepted.session with sessionState := sessionRead } },
    { NcSocket.freshSock [] with reads := List.replicate m (.data []) }⟩

theorem hung_goneClient (m : Nat) : Hung (goneClient m) m := by
  have hopened : NcSocket.Opened (goneClient m).sock (List.replicate m (.data [])) :=
    ⟨(NcSocket.fresh_freshSock []).opened.readBuf, (NcSocket.fresh_freshSock []).opened.lists, rfl, rfl, rfl⟩
  have hc : NcSocket.Consistent (List.replicate m (.data [])) :=
    NcSocket.consistent_chunks (by simp : ∀ c ∈ ([] : List Bytes), NcSocket.Chunk c) (by simp [NulFree]) m
  exact ⟨rfl, _, hopened.rel, hc.good, Or.inr rfl, rfl⟩

theorem end_never_noticed_gone : Hung (goneClient 3) 3 ∧ ¬ NoticesEnd failingRegistry (goneClient 3) :=
  ⟨hung_goneClient 3, (end_never_noticed failingRegistry (hung_goneClient 3)).1⟩

/-- The hooks leave the state of the session as it is. -/
def KeepsState (reg : Registry σ) : Prop :=
  ∀ n hook f s, (reg.controller n).hook hook = some f → (f s).sessionState = s.sessionState

theorem keepsState_failing : KeepsState failingRegistry := by
  intro n hook f s hf
  cases hook with
  | request line =>
    cases hf
    rfl
  | response arg =>
    cases hf
    rfl
  | _ => cases hf

/-- A session that keeps its state for good. -/
theorem gone_client_stays :
    ¬ ∀ (reg : Registry Unit) (c : Client Unit) (m : Nat), KeepsState reg → Hung c (m + 1) → NoticesEnd reg c := by
  intro h
  obtain ⟨hleaves, -⟩ := h failingRegistry (goneClient 1) 0 keepsState_failing (hung_goneClient 1)
  obtain ⟨c', hrun, h'⟩ := (hung_goneClient 1).processRequest failingRegistry
  exact hleaves none c' (run_attempt_thrown hrun) h'.reading

end NcSession
