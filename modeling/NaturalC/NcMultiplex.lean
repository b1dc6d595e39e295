import Mathlib.Logic.Relation
import NaturalC.NcDispatch
import NaturalC.NcSessionRuns
import NaturalC.NcThreads

/-!
# The loop of the server

After its set-up, `server_multiplex` waits in `poll(2)`, calls `server_accept` for each server that a client
waits for, and waits again. The threads of the sessions take their turns in between.
-/
namespace NcAccept

open Throwing Throwing.Act NcServer NcSession

variable {σ τ C : Type}

/-- Where `server_multiplex` is. `i` is what `poll(2)` has returned, `j` and `n` are the counters of the round. -/
inductive Place where
  | polling
  | examining (revents : Nat → Revents) (i j n : Nat)
  /-- Between the two halves of `server_accept`, for this entry of the tables. -/
  | accepting (entry : Nat) (revents : Nat → Revents) (i j n : Nat)
  | pollFailed
  /-- Connections are left that were not handled. -/
  | thrown
  /-- An entry behind the last server has been used. -/
  | fault

structure Multiplex (σ : Type) where
  place : Place
  proc : Proc σ
  /-- What `poll(2)` has reported so far. -/
  rounds : List (Nat → Revents)
  /-- The entries for which `server_accept` has been called. -/
  accepts : List Nat
  /-- The entries that the threads come from. -/
  origins : List Nat

/-- The server in an entry of the tables. -/
def serverAt (w : NcServer.World τ C) (entry : Nat) : Option (Server C) :=
  w.handler[entry]?.join.bind fun srv => w.servers[srv]?

/-- One step of the loop, or a turn of a thread. A round goes on as `dispatchStep` says, and where that notes down a
call, the call is made. -/
inductive Multiplex.Step (reg : Registry σ) (null : σ) (w : NcServer.World τ C) (pfdCount : Nat) (s : Multiplex σ) :
    Multiplex σ → Prop
  | interrupted (h : s.place = .polling) : Step reg null w pfdCount s s
  | pollFails (h : s.place = .polling) : Step reg null w pfdCount s { s with place := .pollFailed }
  | polls {revents : Nat → Revents} (h : s.place = .polling) : Step reg null w pfdCount s
      { s with place := .examining revents (readyCount revents pfdCount) 0 0, rounds := s.rounds ++ [revents] }
  | passes {revents : Nat → Revents} {i j n : Nat} {c : Nat × Nat} {r : Round} (h : s.place = .examining revents i j n)
      (hrun : (dispatchStep revents pfdCount i (j, n)).run .start = .ok (.inl c) r) (hcall : r.handled = []) :
      Step reg null w pfdCount s { s with place := .examining revents i c.1 c.2 }
  | dumps {revents : Nat → Revents} {i j n : Nat} {c : Nat × Nat} {r : Round} (h : s.place = .examining revents i j n)
      (hrun : (dispatchStep revents pfdCount i (j, n)).run .start = .ok (.inl c) r)
      (hcall : r.handled = [(n, .dump)]) (hn : n < pfdCount) :
      Step reg null w pfdCount s { s with place := .examining revents i c.1 c.2 }
  | accepts {revents : Nat → Revents} {i j n : Nat} {c : Nat × Nat} {r : Round} {srv : Server C} {calls : Calls}
      {p : Proc σ} (h : s.place = .examining revents i j n)
      (hrun : (dispatchStep revents pfdCount i (j, n)).run .start = .ok (.inl c) r)
      (hcall : r.handled = [(n, .accept)]) (hn : n < pfdCount) (hsrv : serverAt w n = some srv)
      (hstep : s.proc.step reg null (.accept srv calls) = some p) :
      Step reg null w pfdCount s { s with
        place := if p.main.isSome then .accepting n revents i c.1 c.2 else .examining revents i c.1 c.2
        proc := p
        accepts := s.accepts ++ [n] }
  | faults {revents : Nat → Revents} {i j n : Nat} {c : Nat × Nat} {r : Round} (h : s.place = .examining revents i j n)
      (hrun : (dispatchStep revents pfdCount i (j, n)).run .start = .ok (.inl c) r) (hcall : r.handled ≠ [])
      (hn : pfdCount ≤ n) : Step reg null w pfdCount s { s with place := .fault }
  | ends {revents : Nat → Revents} {i j n j' : Nat} {r : Round} (h : s.place = .examining revents i j n)
      (hrun : (dispatchStep revents pfdCount i (j, n)).run .start = .ok (.inr j') r) :
      Step reg null w pfdCount s { s with place := if j' < i then .thrown else .polling }
  | starts {entry : Nat} {revents : Nat → Revents} {i j n : Nat} {calls : Calls} {p : Proc σ}
      (h : s.place = .accepting entry revents i j n)
      (hstep : s.proc.step reg null (.start calls : Move C) = some p) :
      Step reg null w pfdCount s { s with
        place := .examining revents i j n
        proc := p
        origins := if p.threads.length = s.proc.threads.length then s.origins else s.origins ++ [entry] }
  | turns {k : Nat} {u : Turn} {p : Proc σ} (hstep : s.proc.step reg null (.turn k u : Move C) = some p) :
      Step reg null w pfdCount s { s with proc := p }

/-- The loop before its first `poll(2)`. -/
def Multiplex.start (listening : List Nat) : Multiplex σ := ⟨.polling, Proc.initial listening, [], [], []⟩

/-- The table of the controllers after the set-up. No handle leads to the entries that are not in use. -/
def registry (unused : Controller σ) (w : NcServer.World τ (Controller σ)) : Registry σ :=
  ⟨w.controllerCount, fun handle => (w.controllers handle).getD unused⟩

/-- The entries that a client waits for. -/
def clients (n : Nat) (revents : Nat → Revents) : List Nat := (List.range n).filter fun m => has (revents m) pollin

variable {reg : Registry σ} {null : σ} {w : NcServer.World τ C} {pfdCount i j n m : Nat} {revents : Nat → Revents}
  {p p' : Proc σ} {s s' : Multiplex σ} {t t' : Thread σ} {fds fds' : List Nat} {u : Turn} {calls : Calls}

/-! ## The handle of a session -/

def Conn.handle (k : Conn σ) : Nat := k.world.session.controllerHandle

theorem traced_handle : Traced reg fun w w' : NcSession.World σ =>
    w'.session.controllerHandle = w.session.controllerHandle where
  quiet := fun h => h.controllerHandle
  trans := fun h h' => h'.trans h
  hook := fun _ => rfl

/-- The session has the same handle as before. -/
def SameHandle (h h' : Held σ) : Prop := h'.conn.handle = h.conn.handle

theorem sameHandle_onWorld {α : Type} {m : Act (NcSession.World σ) α} {h : Held σ}
    (hm : (m.run h.conn.world).Leaves fun w' => w'.session.controllerHandle = h.conn.world.session.controllerHandle) :
    ((onWorld m).run h).Leaves (SameHandle h) := leaves_zoom hm fun _ hw => hw

theorem sameHandle_bind {α β : Type} {m : Act (Held σ) α} {f : α → Act (Held σ) β} {h : Held σ}
    (hm : (m.run h).Leaves (SameHandle h)) (hf : ∀ a x, ((f a).run x).Leaves (SameHandle x)) :
    ((m >>= f).run h).Leaves (SameHandle h) :=
  leaves_bind hm (fun _ ht => ht) fun a x _ hx => (hf a x).imp fun _ hy => Eq.trans hy hx

theorem sameHandle_session {f : Session σ → Session σ} (hf : ∀ s, (f s).controllerHandle = s.controllerHandle)
    (h : Held σ) : ((onWorld (modifySession f)).run h).Leaves (SameHandle h) := hf h.conn.world.session

theorem sameHandle_greeting (reg : Registry σ) (h : Held σ) : ((greeting reg).run h).Leaves (SameHandle h) := by
  rw [greeting]
  apply sameHandle_bind
  · exact sameHandle_session (fun _ => rfl) h
  · intro _ x
    exact sameHandle_onWorld (traced_handle.greet _)

/-- What is not done to the world of a session leaves its handle alone. -/
theorem sameHandle_modify (f : Held σ → Held σ) (hf : ∀ h, (f h).conn.world = h.conn.world) (h : Held σ) :
    ((modifyHeld f).run h).Leaves (SameHandle h) := by
  change (f h).conn.world.session.controllerHandle = _
  rw [hf h]
  rfl

theorem sameHandle_closeOpen (s : Sock) (closing : Closing) (h : Held σ) :
    ((closeOpen s closing).run h).Leaves (SameHandle h) := by
  cases closing with
  | done => exact sameHandle_modify _ (fun _ => rfl) h
  | failed released =>
    apply sameHandle_bind
    · exact sameHandle_modify _ (fun _ => rfl) h
    · intro _ x
      exact rfl

theorem sameHandle_socketClose (closing : Closing) (h : Held σ) :
    ((socketClose closing).run h).Leaves (SameHandle h) := by
  cases hsock : h.conn.sock with
  | none =>
    have hrun : (socketClose closing).run h = .halt .fault := by
      simp [socketClose, loadSock, run_bind, hsock]
    rw [hrun]
    trivial
  | some s =>
    have hload : loadSock.run h = .ok s h := by simp [loadSock, hsock]
    rw [socketClose, run_bind_ok hload, run_bind_get]
    split_ifs
    · exact rfl
    · exact sameHandle_closeOpen s closing h
    · exact rfl

theorem sameHandle_sessionClose (closing : Closing) (h : Held σ) :
    ((sessionClose closing).run h).Leaves (SameHandle h) := by
  rw [sessionClose, run_bind_get]
  split_ifs
  · exact rfl
  · exact rfl
  · apply sameHandle_bind (sameHandle_socketClose closing h)
    intro _ x
    exact sameHandle_session (fun _ => rfl) x

theorem sameHandle_ending (reg : Registry σ) (closing : Closing) (h : Held σ) :
    ((ending reg closing).run h).Leaves (SameHandle h) := by
  rw [ending, run_bind_get]
  apply sameHandle_bind
  · apply leaves_attempt
    split_ifs
    · exact sameHandle_onWorld (traced_handle.invoke _ _)
    · exact rfl
  · intro _ x
    apply sameHandle_bind (sameHandle_sessionClose closing x)
    intro _ y
    apply sameHandle_bind (sameHandle_onWorld (traced_handle.invoke _ _))
    intro _ z
    exact sameHandle_modify _ (fun _ => rfl) z

/-- A turn of a thread. -/
theorem turn_handle (hrun : t.turn reg fds u = some (t', fds')) : t'.conn.handle = t.conn.handle := by
  have hpiece : ∀ m, t.piece reg u = some m → (m.run ⟨t.conn, fds⟩).Leaves (SameHandle ⟨t.conn, fds⟩) := by
    intro m hm
    cases u with
    | greet =>
      rw [Thread.piece] at hm
      split_ifs at hm
      obtain rfl := Option.some.inj hm
      exact leaves_bind_pure _ (sameHandle_greeting reg _)
    | request r connected =>
      rw [Thread.piece] at hm
      split_ifs at hm
      obtain rfl := Option.some.inj hm
      exact leaves_bind_pure _ (sameHandle_onWorld (leaves_attempt (traced_handle.processRequest r connected _)))
    | finish closing =>
      rw [Thread.piece] at hm
      split_ifs at hm
      obtain rfl := Option.some.inj hm
      exact leaves_bind_pure _ (sameHandle_ending reg closing _)
  rw [Thread.turn] at hrun
  obtain ⟨m, hm, hrun⟩ := Option.bind_eq_some_iff.mp hrun
  have hleaves := hpiece m hm
  cases ho : m.run ⟨t.conn, fds⟩ with
  | ok stage h =>
    rw [ho] at hleaves hrun
    obtain ⟨rfl, -⟩ := Prod.mk.inj (Option.some.inj hrun)
    exact hleaves
  | thrown h =>
    rw [ho] at hleaves hrun
    obtain ⟨rfl, -⟩ := Prod.mk.inj (Option.some.inj hrun)
    exact hleaves
  | halt e =>
    rw [ho] at hrun
    cases hrun

/-! ## What a step of the process does to its sessions -/

/-- A new session has the handle of the server that its client came to. -/
theorem step_accept {srv : Server C} (hstep : p.step reg null (.accept srv calls) = some p') :
    p'.threads = p.threads ∧ ∀ k ∈ p'.main, k.handle = srv.controllerHandle := by
  rw [Proc.step] at hstep
  split_ifs at hstep with hkernel
  have hmain : p.main = none := Option.isNone_iff_eq_none.mp hkernel.1
  have hopen := run_openSession reg null srv calls p
  cases harr : arrived reg null srv calls with
  | none =>
    rw [harr] at hopen
    rcases hopen with hopen | hopen
    · rw [hopen] at hstep
      obtain rfl := Option.some.inj hstep
      exact ⟨rfl, by simp [hmain]⟩
    · rw [hopen] at hstep
      cases hstep
  | some fd =>
    rw [harr] at hopen
    simp only at hopen
    split_ifs at hopen
    · rw [hopen] at hstep
      obtain rfl := Option.some.inj hstep
      refine ⟨rfl, ?_⟩
      intro k hk
      obtain rfl := Option.some.inj hk
      rfl
    · rw [hopen] at hstep
      obtain rfl := Option.some.inj hstep
      exact ⟨rfl, by simp [hmain]⟩

/-- The rest of `server_accept` starts a thread for the session, or none at all. -/
theorem step_start (hstep : p.step reg null (.start calls : Move C) = some p') :
    p'.main = none ∧ (p'.threads = p.threads ∨ ∃ k ∈ p.main, p'.threads = p.threads ++ [⟨k, .greeting⟩]) := by
  rw [Proc.step] at hstep
  cases hmain : p.main with
  | none =>
    rw [hmain] at hstep
    cases hstep
  | some k =>
    rw [hmain] at hstep
    have hleaves : ((startSession reg calls k).run { p with main := none }).Leaves fun p' =>
        p'.main = none ∧ (p'.threads = p.threads ∨ ∃ l ∈ some k, p'.threads = p.threads ++ [⟨l, .greeting⟩]) := by
      cases hsock : k.sock with
      | none =>
        rw [startSession, hsock]
        trivial
      | some s =>
        rw [startSession, hsock, deref_some, run_bind_ret]
        split_ifs
        · exact ⟨rfl, Or.inl rfl⟩
        · exact ⟨rfl, Or.inl rfl⟩
        · exact ⟨rfl, Or.inr ⟨k, rfl, rfl⟩⟩
        · apply leaves_bind_pure
          rw [run_onConn]
          cases (overload reg calls.close).run ⟨k, p.fds⟩ with
          | ok a h => exact ⟨rfl, Or.inl rfl⟩
          | thrown h => exact ⟨rfl, Or.inl rfl⟩
          | halt e => trivial
    cases ho : (startSession reg calls k).run { p with main := none } with
    | ok a q =>
      simp only [ho] at hstep
      obtain rfl := Option.some.inj hstep
      rw [ho] at hleaves
      exact hleaves
    | thrown q =>
      simp only [ho] at hstep
      obtain rfl := Option.some.inj hstep
      rw [ho] at hleaves
      exact hleaves
    | halt e =>
      simp only [ho] at hstep
      cases hstep

theorem step_turn {k : Nat} (hstep : p.step reg null (.turn k u : Move C) = some p') :
    p'.main = p.main ∧ ∃ t t', p.threads[k]? = some t ∧ p'.threads = p.threads.set k t' ∧
      t'.conn.handle = t.conn.handle := by
  rw [Proc.step] at hstep
  obtain ⟨t, ht, hstep⟩ := Option.bind_eq_some_iff.mp hstep
  obtain ⟨⟨t', fds'⟩, hturn, hstep⟩ := Option.bind_eq_some_iff.mp hstep
  obtain rfl := Option.some.inj hstep
  exact ⟨rfl, t, t', ht, rfl, turn_handle hturn⟩

/-! ## The entries of the tables -/

/-- An entry is in the group of the constructor that made it. -/
theorem getElem_callers (i : Nat) (gs : List (List (Server C))) {e : Nat} (he : e < gs.flatten.length) :
    ∃ (k : Nat) (g : List (Server C)) (srv : Server C), gs[k]? = some g ∧ srv ∈ g ∧
      (callers i gs)[e]? = some (i + k) ∧ gs.flatten[e]? = some srv := by
  induction gs generalizing i e with
  | nil => simp at he
  | cons g gs ih =>
    by_cases hlt : e < g.length
    · refine ⟨0, g, g[e], rfl, List.getElem_mem hlt, ?_, ?_⟩
      · rw [callers, List.getElem?_append_left (by simpa using hlt)]
        simp [hlt]
      · rw [List.flatten_cons, List.getElem?_append_left hlt, List.getElem?_eq_getElem hlt]
    · rw [List.flatten_cons, List.length_append] at he
      obtain ⟨k, g', srv, hk, hsrv, hcaller, hflat⟩ := ih (i + 1) (e := e - g.length) (by omega)
      refine ⟨k + 1, g', srv, hk, hsrv, ?_, ?_⟩
      · rw [callers, List.getElem?_append_right (by simpa using hlt), List.length_replicate, hcaller]
        congr 1
        omega
      · rw [List.flatten_cons, List.getElem?_append_right (by omega), hflat]

/-- The server in an entry, the constructor that made it, and the first server of that constructor. -/
structure Entry (w : NcServer.World τ C) (n e : Nat) (srv first : Server C) : Prop where
  server : serverAt w e = some srv
  constructor : ∃ i, w.caller[e]? = some i ∧ (entriesOf w n i).head? = some first
  controller : w.controllers srv.controllerHandle = some first.controller
  handle : srv.controllerHandle ≠ 0
  registered : srv.controllerHandle < w.controllerCount

/-- After the set-up, every entry below the number of descriptors has a server. -/
theorem entry_of_setUp {sys : System τ C} {bindAddr : List NcString.Bytes} {constructors : List (Constructor τ C)}
    {uninit : Nat} {controllers : Nat → Option C} {g : τ}
    (hset : (serverMultiplex sys bindAddr constructors uninit).run (NcServer.World.start 1 controllers g) = .ok n w)
    {e : Nat} (he : e < n) : ∃ srv first, Entry w n e srv first := by
  obtain ⟨w', hr⟩ | ⟨addrs, gs, n', w', -, hr, -, hgs⟩ :=
    serverMultiplex_cases sys bindAddr constructors uninit 1 controllers g
  · rw [hr] at hset
    cases hset
  rw [hr] at hset
  obtain ⟨rfl, rfl⟩ := Outcome.ok.inj hset
  have hcount : n'.pfdCount = gs.flatten.length := by
    rw [hgs.pfdCount, Nat.zero_add]
  have hfilled : Filled n'.pfdCount w' := by
    have hf := hgs.filled
    rwa [Nat.zero_add, ← hcount] at hf
  obtain ⟨k, group, srv, hk, hsrv, hcaller, hflat⟩ := getElem_callers 0 gs (e := e) (by omega)
  rw [Nat.zero_add] at hcaller
  have hentries : entriesOf w' n'.pfdCount k = group := by
    have hfilter := filter_callers 0 k gs
    rw [Nat.zero_add] at hfilter
    rw [entriesOf_eq hfilled, hgs.caller, hgs.servers]
    exact hfilter.trans (by rw [hk]; rfl)
  obtain ⟨first, rest, rfl⟩ := List.exists_cons_of_ne_nil (List.ne_nil_of_mem hsrv)
  have hhandle : srv.controllerHandle = 1 + k := hgs.handles hk srv hsrv
  have hlen : k < gs.length := (List.getElem?_eq_some_iff.mp hk).1
  have haddrs : addrs.length ≠ 0 := by
    have hle := (hgs.upto _ (List.mem_of_getElem? hk)).length_le
    rw [List.length_cons] at hle
    omega
  refine ⟨srv, first, ⟨?_, ⟨k, ?_, ?_⟩, ?_, by omega, ?_⟩⟩
  · rw [serverAt, hfilled.handler he, hgs.servers]
    exact hflat
  · rw [hgs.caller]
    exact hcaller
  · rw [hentries]
    rfl
  · rw [hhandle]
    exact hgs.registered hk
  · rw [hhandle, hgs.count, if_neg haddrs]
    exact Nat.add_lt_add_left hlen 1

/-! ## The rounds -/

theorem dispatchStep_start (revents : Nat → Revents) (pfdCount i j n : Nat) :
    (dispatchStep revents pfdCount i (j, n)).run .start =
      if n ≤ pfdCount ∧ j < i then
        .ok (.inl (if has (revents n) pollin then j + 1 else j, n + 1))
          ⟨[n], (handling (revents n)).toList.map fun _ => n, (handling (revents n)).toList.map fun x => (n, x)⟩
      else .ok (.inr j) .start := by
  rw [dispatchStep]
  split_ifs with hgo hin
  · have hrun : (loadRevents revents n).run .start = .ok (revents n) ⟨[n], [], []⟩ := rfl
    rw [run_bind_ok hrun, if_pos hin, handling_of_pollin hin]
    rfl
  · have hrun : (loadRevents revents n).run .start = .ok (revents n) ⟨[n], [], []⟩ := rfl
    rw [run_bind_ok hrun, if_neg hin, handling, if_neg hin]
    split_ifs
    · rfl
    · rfl
  · rfl

/-- A round that goes on has not met as many clients as `poll(2)` has announced. -/
theorem dispatchStep_inl {c : Nat × Nat} {r : Round}
    (hrun : (dispatchStep revents pfdCount i (j, n)).run .start = .ok (.inl c) r) :
    n ≤ pfdCount ∧ j < i ∧ c = (if has (revents n) pollin then j + 1 else j, n + 1) ∧
      r.handled = (handling (revents n)).toList.map fun x => (n, x) := by
  rw [dispatchStep_start] at hrun
  by_cases hgo : n ≤ pfdCount ∧ j < i
  · rw [if_pos hgo] at hrun
    obtain ⟨hc, rfl⟩ := Outcome.ok.inj hrun
    exact ⟨hgo.1, hgo.2, (Sum.inl.inj hc).symm, rfl⟩
  · rw [if_neg hgo] at hrun
    cases (Outcome.ok.inj hrun).1

theorem dispatchStep_inr {j' : Nat} {r : Round}
    (hrun : (dispatchStep revents pfdCount i (j, n)).run .start = .ok (.inr j') r) :
    j' = j ∧ (pfdCount < n ∨ i ≤ j) := by
  rw [dispatchStep_start] at hrun
  by_cases hgo : n ≤ pfdCount ∧ j < i
  · rw [if_pos hgo] at hrun
    cases (Outcome.ok.inj hrun).1
  · rw [if_neg hgo] at hrun
    obtain ⟨hj, -⟩ := Outcome.ok.inj hrun
    exact ⟨(Sum.inr.inj hj).symm, by omega⟩

theorem clients_succ (n : Nat) (revents : Nat → Revents) :
    clients (n + 1) revents = clients n revents ++ if has (revents n) pollin then [n] else [] := by
  rw [clients, List.range_succ, List.filter_append]
  congr 1
  cases h : has (revents n) pollin with
  | true => simp [h]
  | false => simp [h]

theorem accepted_eq_length (revents : Nat → Revents) (n : Nat) :
    NcServer.accepted revents n = (clients n revents).length := by
  induction n with
  | zero => rfl
  | succ n ih =>
    rw [clients_succ, List.length_append, ← ih, NcServer.accepted, NcServer.accepted, Nat.count_succ]
    split_ifs <;> rfl

/-- No clients come after the last one. -/
theorem clients_eq (hmn : m ≤ n) (h : NcServer.accepted revents n ≤ NcServer.accepted revents m) :
    clients m revents = clients n revents := by
  have hprefix : List.IsPrefix (clients m revents) (clients n revents) := by
    apply List.IsPrefix.filter
    obtain ⟨d, rfl⟩ := Nat.exists_eq_add_of_le hmn
    rw [List.range_add]
    exact List.prefix_append _ _
  apply hprefix.eq_of_length_le
  rw [← accepted_eq_length, ← accepted_eq_length]
  exact h

theorem accepted_le_readyCount (revents : Nat → Revents) (n : Nat) :
    NcServer.accepted revents n ≤ readyCount revents n :=
  Nat.count_mono_left fun _ _ => ne_zero_of_pollin

/-- A server of which `poll(2)` has something else to say than that a client waits. -/
def Erroneous (n : Nat) (revents : Nat → Revents) : Prop :=
  ∃ m < n, revents m ≠ 0 ∧ has (revents m) pollin = false

theorem erroneous_of_lt (h : NcServer.accepted revents n < readyCount revents n) : Erroneous n revents := by
  by_contra hno
  have hall : ∀ m < n, revents m ≠ 0 → has (revents m) pollin = true := by
    intro m hm hready
    by_contra hin
    exact hno ⟨m, hm, hready, Bool.eq_false_of_not_eq_true hin⟩
  have heq := accepted_eq_readyCount hall
  omega

/-- How far a round has come, and for which servers `server_accept` was called in it and before it. -/
structure Counted (n : Nat) (revents : Nat → Revents) (i j m : Nat) (rounds : List (Nat → Revents))
    (accepts : List Nat) : Prop where
  announced : i = readyCount revents n
  met : j = NcServer.accepted revents m
  inside : m ≤ n + 1
  behind : m = n + 1 → has (revents n) pollin = false
  accepts : ∃ before, rounds = before ++ [revents] ∧ accepts = before.flatMap (clients n) ++ clients m revents

variable {rounds : List (Nat → Revents)} {accepts : List Nat}

/-- A round that has met all clients has called `server_accept` for each of them. -/
theorem Counted.complete (h : Counted n revents i j m rounds accepts) (hj : i ≤ j) :
    accepts = rounds.flatMap (clients n) := by
  obtain ⟨before, rfl, rfl⟩ := h.accepts
  have hle := accepted_le_readyCount revents n
  have hmet : readyCount revents n ≤ NcServer.accepted revents m := by
    rw [← h.announced, ← h.met]
    exact hj
  have hsame : clients m revents = clients n revents := by
    rcases Nat.lt_or_ge n m with hlt | hge
    · obtain rfl : m = n + 1 := by
        have := h.inside
        omega
      rw [clients_succ, h.behind rfl]
      simp
    · exact clients_eq hge (by omega)
  rw [hsame]
  simp

/-- A round that has come to the end without that has met an error. -/
theorem Counted.erroneous (h : Counted n revents i j m rounds accepts) (hj : j < i) (hm : n ≤ m) :
    Erroneous n revents := by
  apply erroneous_of_lt
  rw [← h.announced]
  apply Nat.lt_of_le_of_lt _ hj
  rw [h.met]
  exact Nat.count_monotone _ hm

theorem Counted.mem (h : Counted n revents i j m rounds accepts) : revents ∈ rounds := by
  obtain ⟨before, rfl, -⟩ := h.accepts
  exact List.mem_append_right _ (List.mem_singleton_self _)

/-- One more entry has been looked at. -/
theorem Counted.next (h : Counted n revents i j m rounds accepts) (hm : m < n ∨ has (revents m) pollin = false)
    (hmn : m ≤ n) : Counted n revents i (if has (revents m) pollin then j + 1 else j) (m + 1) rounds
      (accepts ++ if has (revents m) pollin then [m] else []) where
  announced := h.announced
  met := by
    rw [h.met, NcServer.accepted, NcServer.accepted, Nat.count_succ]
    split_ifs <;> rfl
  inside := by omega
  behind := by
    intro heq
    obtain rfl : m = n := by omega
    exact hm.resolve_left (Nat.lt_irrefl _)
  accepts := by
    obtain ⟨before, hrounds, haccepts⟩ := h.accepts
    refine ⟨before, hrounds, ?_⟩
    rw [haccepts, clients_succ, List.append_assoc]

/-- Nothing is accepted at this entry. -/
theorem Counted.pass (h : Counted n revents i j m rounds accepts) {c : Nat × Nat} {r : Round}
    (hrun : (dispatchStep revents n i (j, m)).run .start = .ok (.inl c) r) (hcall : (m, Handling.accept) ∉ r.handled) :
    Counted n revents i c.1 c.2 rounds accepts := by
  obtain ⟨hm, -, rfl, hhandled⟩ := dispatchStep_inl hrun
  have hin : has (revents m) pollin = false := by
    by_contra hin
    rw [hhandled, handling_of_pollin (Bool.eq_true_of_not_eq_false hin)] at hcall
    exact hcall (List.mem_singleton_self _)
  have hnext := h.next (Or.inr hin) hm
  simp only [hin, Bool.false_eq_true, if_false, List.append_nil] at hnext ⊢
  exact hnext

/-! ## Runs -/

/-- The session has the handle of the server in this entry. -/
def Belongs (w : NcServer.World τ C) (n e : Nat) (k : Conn σ) : Prop :=
  ∃ srv first, Entry w n e srv first ∧ k.handle = srv.controllerHandle

/-- What holds at each place of the loop. -/
def Multiplex.Stands (w : NcServer.World τ C) (n : Nat) (s : Multiplex σ) : Place → Prop
  | .polling => s.accepts = s.rounds.flatMap (clients n) ∧ List.Sublist s.origins s.accepts
  | .examining revents i j m => Counted n revents i j m s.rounds s.accepts ∧ List.Sublist s.origins s.accepts
  | .accepting e revents i j m => Counted n revents i j m s.rounds s.accepts ∧
      List.Sublist (s.origins ++ [e]) s.accepts ∧ ∀ k ∈ s.proc.main, Belongs w n e k
  | .pollFailed => List.Sublist s.origins s.accepts
  | .thrown => List.Sublist s.origins s.accepts ∧ ∃ revents ∈ s.rounds, Erroneous n revents
  | .fault => List.Sublist s.origins s.accepts ∧ ∃ revents ∈ s.rounds, Erroneous n revents

structure Multiplex.Routed (w : NcServer.World τ C) (n : Nat) (s : Multiplex σ) : Prop where
  threads : List.Forall₂ (fun e t => Belongs w n e t.conn) s.origins s.proc.threads
  stands : s.Stands w n s.place

/-- Every entry has a server. -/
def Furnished (w : NcServer.World τ C) (n : Nat) : Prop := ∀ e < n, ∃ srv first, Entry w n e srv first

theorem belongs_of_server (hw : Furnished w n) {e : Nat} (he : e < n) {srv : Server C} (hsrv : serverAt w e = some srv)
    {k : Conn σ} (hk : k.handle = srv.controllerHandle) : Belongs w n e k := by
  obtain ⟨srv', first, hentry⟩ := hw e he
  have hsame := hentry.server
  rw [hsrv] at hsame
  obtain rfl := Option.some.inj hsame
  exact ⟨srv, first, hentry, hk⟩

/-- A thread is replaced by one that belongs to the same entry. -/
theorem forall₂_set {α β : Type} {P : α → β → Prop} {xs : List α} {ys : List β} (h : List.Forall₂ P xs ys) {k : Nat}
    {y y' : β} (hy : ys[k]? = some y) (hP : ∀ x, P x y → P x y') : List.Forall₂ P xs (ys.set k y') := by
  induction h generalizing k with
  | nil => exact .nil
  | @cons a b as bs hab hrest ih =>
    cases k with
    | zero =>
      obtain rfl := Option.some.inj hy
      exact .cons (hP a hab) hrest
    | succ k => exact .cons hab (ih (by simpa using hy))

theorem routed_step (hw : Furnished w n) (h : s.Routed w n) (hstep : Multiplex.Step reg null w n s s') :
    s'.Routed w n := by
  have hstands := h.stands
  cases hstep with
  | interrupted hplace => exact h
  | pollFails hplace =>
    rw [hplace] at hstands
    exact ⟨h.threads, hstands.2⟩
  | @polls revents hplace =>
    rw [hplace] at hstands
    refine ⟨h.threads, ⟨rfl, rfl, Nat.zero_le _, by omega, s.rounds, rfl, ?_⟩, hstands.2⟩
    rw [hstands.1]
    simp [clients]
  | @passes revents i j m c r hplace hrun hcall =>
    rw [hplace] at hstands
    exact ⟨h.threads, hstands.1.pass hrun (by simp [hcall]), hstands.2⟩
  | @dumps revents i j m c r hplace hrun hcall hn =>
    rw [hplace] at hstands
    exact ⟨h.threads, hstands.1.pass hrun (by simp [hcall]), hstands.2⟩
  | @accepts revents i j m c r srv calls p hplace hrun hcall hn hsrv hproc =>
    rw [hplace] at hstands
    obtain ⟨hm, -, rfl, hhandled⟩ := dispatchStep_inl hrun
    have hin : has (revents m) pollin = true := by
      by_contra hin
      rw [hcall, handling, if_neg hin] at hhandled
      split_ifs at hhandled
      · cases hhandled
      · cases hhandled
    obtain ⟨hthreads, hmain⟩ := step_accept hproc
    have hnext := hstands.1.next (Or.inl hn) hm
    rw [hin, if_pos rfl, if_pos rfl] at hnext
    rw [hin, if_pos rfl]
    refine ⟨hthreads ▸ h.threads, ?_⟩
    dsimp only
    split_ifs
    · refine ⟨hnext, hstands.2.append (List.Sublist.refl _), ?_⟩
      intro k hk
      exact belongs_of_server hw hn hsrv (hmain k hk)
    · exact ⟨hnext, hstands.2.trans (List.sublist_append_left _ _)⟩
  | @faults revents i j m c r hplace hrun hcall hn =>
    rw [hplace] at hstands
    obtain ⟨-, hj, -, -⟩ := dispatchStep_inl hrun
    exact ⟨h.threads, hstands.2, revents, hstands.1.mem, hstands.1.erroneous hj hn⟩
  | @ends revents i j m j' r hplace hrun =>
    rw [hplace] at hstands
    obtain ⟨rfl, hend⟩ := dispatchStep_inr hrun
    refine ⟨h.threads, ?_⟩
    dsimp only
    split_ifs with hj
    · exact ⟨hstands.2, revents, hstands.1.mem, hstands.1.erroneous hj (by omega)⟩
    · exact ⟨hstands.1.complete (by omega), hstands.2⟩
  | @starts e revents i j m calls p hplace hproc =>
    rw [hplace] at hstands
    obtain ⟨hcounted, hsub, hbelongs⟩ := hstands
    obtain ⟨-, hsame | ⟨k, hk, hnew⟩⟩ := step_start hproc
    · rw [if_pos (congrArg List.length hsame)]
      exact ⟨hsame ▸ h.threads, hcounted, (List.sublist_append_left _ _).trans hsub⟩
    · rw [if_neg (by simp [hnew])]
      refine ⟨?_, hcounted, hsub⟩
      rw [hnew]
      exact List.rel_append h.threads (.cons (hbelongs k hk) .nil)
  | @turns k u p hproc =>
    obtain ⟨hmain, t, t', ht, hset, hhandle⟩ := step_turn hproc
    refine ⟨?_, ?_⟩
    · rw [hset]
      apply forall₂_set h.threads ht
      rintro e ⟨srv, first, hentry, hk⟩
      exact ⟨srv, first, hentry, hhandle.trans hk⟩
    · cases hplace : s.place with
      | accepting e revents i j m =>
        rw [hplace] at hstands
        exact ⟨hstands.1, hstands.2.1, hmain ▸ hstands.2.2⟩
      | _ =>
        rw [hplace] at hstands
        exact hstands

theorem routed_run (hw : Furnished w n) (h : s.Routed w n)
    (hrun : Relation.ReflTransGen (Multiplex.Step reg null w n) s s') : s'.Routed w n := by
  induction hrun with
  | refl => exact h
  | tail _ hstep ih => exact routed_step hw ih hstep

theorem run_snoc {ms : List (Move C)} {x : Move C} {q : Proc σ} (hrun : p.run reg null ms = some p')
    (hstep : p'.step reg null x = some q) : p.run reg null (ms ++ [x]) = some q := by
  rw [run_append hrun, Proc.run, hstep]
  rfl

/-- What the loop does to the process is a run of the process. -/
theorem moves_of_run {listening : List Nat}
    (hrun : Relation.ReflTransGen (Multiplex.Step reg null w n) (.start listening) s) :
    ∃ ms : List (Move C), (Proc.initial listening).run reg null ms = some s.proc := by
  induction hrun with
  | refl => exact ⟨[], rfl⟩
  | tail _ hstep ih =>
    obtain ⟨ms, hms⟩ := ih
    cases hstep with
    | accepts _ _ _ _ _ hproc => exact ⟨_, run_snoc hms hproc⟩
    | starts _ hproc => exact ⟨_, run_snoc hms hproc⟩
    | turns hproc => exact ⟨_, run_snoc hms hproc⟩
    | _ => exact ⟨ms, hms⟩

theorem Multiplex.Routed.sublist (h : s.Routed w n) : List.Sublist s.origins s.accepts := by
  have hstands := h.stands
  cases hplace : s.place with
  | polling =>
    rw [hplace] at hstands
    exact hstands.2
  | examining revents i j m =>
    rw [hplace] at hstands
    exact hstands.2
  | accepting e revents i j m =>
    rw [hplace] at hstands
    exact (List.sublist_append_left _ _).trans hstands.2.1
  | pollFailed =>
    rw [hplace] at hstands
    exact hstands
  | thrown =>
    rw [hplace] at hstands
    exact hstands.1
  | fault =>
    rw [hplace] at hstands
    exact hstands.1

/-- From the set-up on, whatever the clients, the hooks and the threads do: what happens to the sessions is a run
of the process; each of them is served by the controller that the constructor of its client's server has registered;
between two rounds, every client that `poll(2)` has reported has had its call of `server_accept`, one after the other;
and the loop is left for a wrong reason only after a server with an error. -/
theorem server_multiplex_serves {sys : System τ (Controller σ)} {bindAddr : List NcString.Bytes}
    {constructors : List (Constructor τ (Controller σ))} {uninit : Nat} {controllers : Nat → Option (Controller σ)}
    {g : τ} {w : NcServer.World τ (Controller σ)} (unused : Controller σ) {listening : List Nat}
    (hset : (serverMultiplex sys bindAddr constructors uninit).run (NcServer.World.start 1 controllers g) = .ok n w)
    (hrun : Relation.ReflTransGen (Multiplex.Step (registry unused w) null w n) (.start listening) s) :
    (∃ ms : List (Move (Controller σ)),
      (Proc.initial listening).run (registry unused w) null ms = some s.proc) ∧
    List.Forall₂ (fun e t => ∃ srv first, Entry w n e srv first ∧ t.conn.handle = srv.controllerHandle ∧
      (registry unused w).controller t.conn.handle = first.controller) s.origins s.proc.threads ∧
    List.Sublist s.origins s.accepts ∧
    (s.place = .polling → s.accepts = s.rounds.flatMap (clients n)) ∧
    (s.place = .thrown ∨ s.place = .fault → ∃ revents ∈ s.rounds, Erroneous n revents) := by
  have hw : Furnished w n := fun _ he => entry_of_setUp hset he
  have hstart : (Multiplex.start listening : Multiplex σ).Routed w n := ⟨.nil, rfl, List.Sublist.refl _⟩
  have h := routed_run hw hstart hrun
  have hstands := h.stands
  refine ⟨moves_of_run hrun, ?_, h.sublist, ?_, ?_⟩
  · apply h.threads.imp
    rintro e t ⟨srv, first, hentry, hhandle⟩
    refine ⟨srv, first, hentry, hhandle, ?_⟩
    rw [hhandle]
    exact congrArg (fun ctl => ctl.getD unused) hentry.controller
  · intro hplace
    rw [hplace] at hstands
    exact hstands.1
  · rintro (hplace | hplace)
    · rw [hplace] at hstands
      exact hstands.2
    · rw [hplace] at hstands
      exact hstands.2

/-- A constructor whose sessions refuse every request. -/
def refusing : Constructor Nat (Controller Unit) := fun k s => some ({ s with controller := failing, port := 80 }, k)

/-- A system in which nothing fails and the first socket gets the descriptor 3. -/
def plain : System Nat (Controller Unit) := ⟨failing, none, true, fun _ _ => true, fun k _ => some (3 + k, k + 1)⟩

/-- The set-up for one server on two addresses. -/
def setUpTwo : Outcome (NcServer.World Nat (Controller Unit)) Nat :=
  (serverMultiplex plain [[49], [50]] [refusing] 0).run (NcServer.World.start 1 (fun _ => none) 0)

def tablesOf {α : Type} : Outcome (NcServer.World Nat (Controller Unit)) α → NcServer.World Nat (Controller Unit)
  | .ok _ w => w
  | .thrown w => w
  | .halt _ => NcServer.World.start 1 (fun _ => none) 0

def twoServers : NcServer.World Nat (Controller Unit) := tablesOf setUpTwo

theorem setUpTwo_ok : setUpTwo = .ok 2 twoServers := by
  have hok : setUpTwo.value = some 2 := by decide +kernel
  rw [twoServers]
  cases h : setUpTwo with
  | ok n w =>
    rw [h] at hok
    rw [Option.some.inj hok]
    rfl
  | thrown w =>
    rw [h] at hok
    cases hok
  | halt e =>
    rw [h] at hok
    cases hok

/-- A client waits for the second of them. -/
def second : Nat → Revents := fun m => if m = 1 then pollin else 0

/-- It is accepted on descriptor 5 and gets a thread. -/
theorem second_accepted : ∃ srv p q, serverAt twoServers 1 = some srv ∧
    (Proc.initial [3, 4]).step (registry failing twoServers) () (.accept srv (allWell 5)) = some p ∧
    p.step (registry failing twoServers) () (.start (allWell 5) : Move (Controller Unit)) = some q ∧
    p.main.isSome = true ∧ q.threads.length = 1 := by
  have hrun : ((serverAt twoServers 1).bind fun srv =>
      ((Proc.initial [3, 4]).step (registry failing twoServers) () (.accept srv (allWell 5))).bind fun p =>
        (p.step (registry failing twoServers) () (.start (allWell 5) : Move (Controller Unit))).map fun q =>
          p.main.isSome && decide (q.threads.length = 1)) = some true := by decide +kernel
  obtain ⟨srv, hsrv, hrun⟩ := Option.bind_eq_some_iff.mp hrun
  obtain ⟨p, hp, hrun⟩ := Option.bind_eq_some_iff.mp hrun
  obtain ⟨q, hq, hrun⟩ := Option.map_eq_some_iff.mp hrun
  obtain ⟨hmain, hlen⟩ := Bool.and_eq_true_iff.mp hrun
  exact ⟨srv, p, q, hsrv, hp, hq, hmain, of_decide_eq_true hlen⟩

/-- A whole round. -/
theorem second_round : ∃ s : Multiplex Unit,
    Relation.ReflTransGen (Multiplex.Step (registry failing twoServers) () twoServers 2) (.start [3, 4]) s ∧
      s.place = .polling ∧ s.origins = [1] ∧ s.proc.threads.length = 1 := by
  obtain ⟨srv, p, q, hsrv, hp, hq, hmain, hlen⟩ := second_accepted
  have hthreads : p.threads = [] := (step_accept hp).1
  have hready : readyCount second 2 = 1 := by decide +kernel
  have hpolls : Multiplex.Step (registry failing twoServers) () twoServers 2 (.start [3, 4])
      ⟨.examining second 1 0 0, Proc.initial [3, 4], [second], [], []⟩ := by
    rw [← hready]
    exact .polls rfl
  have hpasses : Multiplex.Step (registry failing twoServers) () twoServers 2
      ⟨.examining second 1 0 0, Proc.initial [3, 4], [second], [], []⟩
      ⟨.examining second 1 0 1, Proc.initial [3, 4], [second], [], []⟩ :=
    .passes rfl (by decide +kernel : (dispatchStep second 2 1 (0, 0)).run .start = .ok (.inl (0, 1)) ⟨[0], [], []⟩) rfl
  have haccepts : Multiplex.Step (registry failing twoServers) () twoServers 2
      ⟨.examining second 1 0 1, Proc.initial [3, 4], [second], [], []⟩
      ⟨.accepting 1 second 1 1 2, p, [second], [1], []⟩ := by
    have h := Multiplex.Step.accepts (s := ⟨.examining second 1 0 1, Proc.initial [3, 4], [second], [], []⟩) rfl
      (by decide +kernel : (dispatchStep second 2 1 (0, 1)).run .start = .ok (.inl (1, 2)) ⟨[1], [1], [(1, .accept)]⟩)
      rfl (by decide) hsrv hp
    rw [if_pos hmain] at h
    exact h
  have hstarts : Multiplex.Step (registry failing twoServers) () twoServers 2
      ⟨.accepting 1 second 1 1 2, p, [second], [1], []⟩ ⟨.examining second 1 1 2, q, [second], [1], [1]⟩ := by
    have h : Multiplex.Step (registry failing twoServers) () twoServers 2
        ⟨.accepting 1 second 1 1 2, p, [second], [1], []⟩ _ := Multiplex.Step.starts rfl hq
    rw [if_neg (by simp [hlen, hthreads])] at h
    exact h
  have hends : Multiplex.Step (registry failing twoServers) () twoServers 2
      ⟨.examining second 1 1 2, q, [second], [1], [1]⟩ ⟨.polling, q, [second], [1], [1]⟩ :=
    .ends rfl (by decide +kernel : (dispatchStep second 2 1 (1, 2)).run .start = .ok (.inr 1) .start)
  exact ⟨_, .tail (.tail (.tail (.tail (.tail .refl hpolls) hpasses) haccepts) hstarts) hends, rfl, rfl, hlen⟩

theorem server_multiplex_serves_second :
    ∃ s : Multiplex Unit, s.proc.threads.length = 1 ∧
      (∃ ms : List (Move (Controller Unit)),
        (Proc.initial [3, 4]).run (registry failing twoServers) () ms = some s.proc) ∧
      List.Forall₂ (fun e t => ∃ srv first, Entry twoServers 2 e srv first ∧
        t.conn.handle = srv.controllerHandle ∧
        (registry failing twoServers).controller t.conn.handle = first.controller) s.origins s.proc.threads ∧
      List.Sublist s.origins s.accepts ∧
      (s.place = .polling → s.accepts = s.rounds.flatMap (clients 2)) ∧
      (s.place = .thrown ∨ s.place = .fault → ∃ revents ∈ s.rounds, Erroneous 2 revents) := by
  obtain ⟨s, hrun, -, -, hlen⟩ := second_round
  have h := server_multiplex_serves failing setUpTwo_ok hrun
  exact ⟨s, hlen, h⟩

end NcAccept
