import NaturalC.NcAccept

/-!
# Server and sessions at the same time

The server and the threads of its sessions take turns in any order, and between two turns of one
the others may open and close descriptors. A turn makes at most one call that opens or closes a
descriptor.
-/
namespace NcAccept

open Throwing Throwing.Act NcServer NcSession Ledger

variable {σ C : Type}

/-! ## Turns -/

/-- What a thread does next, with what the system answers. -/
inductive Turn where
  | greet
  | request (r : Readline) (connected : Bool)
  | finish (closing : Closing)

/-- A piece of `session_handler`, and the stage behind it. -/
def Thread.piece (reg : Registry σ) (t : Thread σ) : Turn → Option (Act (Held σ) Stage)
  | .greet => if t.stage = .greeting then some (do greeting reg; pure .reading) else none
  | .request r connected =>
    if t.stage = .reading ∧ t.conn.world.session.sessionState = sessionRead then
      -- `EBADF`, on which `socket_readline` forgets its descriptor, does not occur: the descriptor is open.
      some (do let _ ← onWorld (attempt (sessionProcessRequest reg r connected)); pure .reading)
    else none
  | .finish closing =>
    if t.stage = .reading ∧ t.conn.world.session.sessionState ≠ sessionRead then
      some (do ending reg closing; pure .ended)
    else none

/-- The thread ends when `session_handler` returns, with an error or without one. -/
def Thread.turn (reg : Registry σ) (fds : List Nat) (t : Thread σ) (u : Turn) : Option (Thread σ × List Nat) := do
  let m ← t.piece reg u
  match m.run ⟨t.conn, fds⟩ with
  | .ok stage h => some (⟨h.conn, stage⟩, h.fds)
  | .thrown h => some (⟨h.conn, .ended⟩, h.fds)
  | .halt _ => none

/-- A step of the process: one of the two halves of `server_accept`, or a turn of the `i`-th thread. -/
inductive Move (C : Type) where
  | accept (srv : Server C) (c : Calls)
  | start (c : Calls)
  | turn (i : Nat) (u : Turn)

/-- A number that comes from `accept(2)` is not that of an open descriptor. -/
def Proc.step (reg : Registry σ) (null : σ) (p : Proc σ) : Move C → Option (Proc σ)
  | .accept srv c =>
    if p.main.isNone ∧ (clientOf c.accept).all (fun fd => !p.fds.contains fd) = true then
      match (openSession reg null srv c).run p with
      | .ok k p' => some { p' with main := some k }
      | .thrown p' => some p'
      | .halt _ => none
    else none
  | .start c =>
    match p.main with
    | none => none
    | some k =>
      match (startSession reg c k).run { p with main := none } with
      | .ok _ p' => some p'
      | .thrown p' => some p'
      | .halt _ => none
  | .turn i u => do
    let t ← p.threads[i]?
    let x ← t.turn reg p.fds u
    some { p with fds := x.2, threads := p.threads.set i x.1 }

def Proc.run (reg : Registry σ) (null : σ) : Proc σ → List (Move C) → Option (Proc σ)
  | p, [] => some p
  | p, m :: ms => do
    let q ← p.step reg null m
    q.run reg null ms

/-- Before the first client. -/
def Proc.initial (listening : List Nat) : Proc σ := ⟨listening, none, []⟩

/-! ## Who has which descriptor -/

def Conn.descriptor (k : Conn σ) : Option Nat := k.sock.bind fun s => if s.fd < 0 then none else some s.fd.toNat

/-- A thread that has ended has nothing any more. -/
def Thread.descriptor (t : Thread σ) : Option Nat := if t.stage = .ended then none else t.conn.descriptor

/-- The descriptors of the sessions that are at work. -/
def Proc.held (p : Proc σ) : List Nat :=
  p.main.toList.filterMap Conn.descriptor ++ p.threads.filterMap Thread.descriptor

/-- Whether the controller of a session accepts the greeting. -/
def greets (reg : Registry σ) (w : NcSession.World σ) : Bool :=
  (invoked reg (.response 1) { w with session := { w.session with sessionState := sessionGreeting } }).1

/-- A turn after which nobody can close the descriptor any more: the greeting fails, or the session is closed in
a state in which `session_close` does not come to `close(2)`, or that call fails. -/
def Thread.loses (reg : Registry σ) (t : Thread σ) : Turn → Bool
  | .greet => !greets reg t.conn.world
  | .request _ _ => false
  | .finish closing => !givesBack (atClose reg t.conn.world).session.sessionState closing

/-- The session is neither given to a thread nor closed. -/
def startLoses (reg : Registry σ) (c : Calls) (k : Conn σ) (fd : Nat) : Bool :=
  decide (maxClientCount ≤ fd) || !c.thread && !overloadGivesBack reg k.world c.close

/-- The descriptors that are lost in a step. -/
def lostBy (reg : Registry σ) (null : σ) (p : Proc σ) : Move C → List Nat
  | .accept srv c => if settled srv c then [] else (arrived reg null srv c).toList
  | .start c => p.main.toList.flatMap fun k => k.descriptor.toList.filter fun fd => startLoses reg c k fd
  | .turn i u => p.threads[i]?.toList.flatMap fun t => if t.loses reg u then t.descriptor.toList else []

/-- The descriptors that are lost in a run, the last ones first. -/
def lostIn (reg : Registry σ) (null : σ) : Proc σ → List (Move C) → List Nat
  | _, [] => []
  | p, m :: ms => ((p.step reg null m).toList.flatMap fun q => lostIn reg null q ms) ++ lostBy reg null p m

/-- Every session at work has the descriptor of its client, and the open descriptors are those of the sessions,
the lost ones, and the ones on which the servers listen. -/
structure Sound (listening lost : List Nat) (p : Proc σ) : Prop where
  balanced : Balanced p.fds p.held (lost ++ listening)
  main : ∀ k ∈ p.main, ∃ (s : Sock) (fd : Nat), k.sock = some s ∧ s.fd = fd
  threads : ∀ t ∈ p.threads, t.stage ≠ .ended → ∃ (s : Sock) (fd : Nat), t.conn.sock = some s ∧ s.fd = fd ∧
    (fd : Int) < maxClientCount

section

variable {reg : Registry σ} {null : σ} {p p' : Proc σ} {t t' : Thread σ} {u : Turn} {k : Conn σ} {s : Sock}
  {fd i : Nat} {fds fds' listening lost : List Nat} {h : Held σ}

theorem descriptor_of_sock (hs : k.sock = some s) (hfd : s.fd = fd) : k.descriptor = some fd := by
  rw [Conn.descriptor, hs, Option.bind_some, hfd, if_neg (by omega), Int.toNat_natCast]

theorem run_sessionGreet (reg : Registry σ) (w : NcSession.World σ) :
    (sessionGreet reg).run w = if (invoked reg (.response 1) w).1 then
        .ok () { (invoked reg (.response 1) w).2 with
          session := { (invoked reg (.response 1) w).2.session with sessionState := sessionRead } }
      else .thrown (invoked reg (.response 1) w).2 := by
  have hhook := run_invoke reg (.response 1) w
  split_ifs at hhook ⊢ with hok
  · rw [sessionGreet, invokeResult, run_bind, run_bind_ok (run_attempt_ok hhook)]
    rfl
  · rw [sessionGreet, invokeResult, run_bind, run_bind_ok (run_attempt_thrown hhook)]
    rfl

/-- The greeting keeps the descriptor, and the thread goes on if it is accepted. -/
theorem greeting_cases (reg : Registry σ) (h : Held σ) :
    ∃ w, (greeting reg).run h =
      if greets reg h.conn.world then .ok () (h.withWorld w) else .thrown (h.withWorld w) := by
  have hrun : (greeting reg).run h = (onWorld (sessionGreet reg)).run (h.withWorld { h.conn.world with
    session := { h.conn.world.session with sessionState := sessionGreeting } }) := rfl
  have hgreet := run_sessionGreet reg { h.conn.world with
    session := { h.conn.world.session with sessionState := sessionGreeting } }
  rw [hrun, greets]
  split_ifs at hgreet ⊢
  · exact ⟨_, run_onWorld_ok hgreet⟩
  · exact ⟨_, run_onWorld_thrown hgreet⟩

theorem ending_returns (reg : Registry σ) (closes : Bool) (w : NcSession.World σ) :
    ((sessionEnd reg closes).run w).Returns fun _ => True := by
  rw [sessionEnd, run_bind_get]
  apply returns_bind
  · apply returns_attempt
    split_ifs
    · exact invoke_returns reg .timeout _
    · exact trivial
  · intro _ w' _ _
    apply returns_bind (sessionClose_returns closes w')
    intro _ w'' _ _
    exact invoke_returns reg .destroy w''

theorem not_ended_of_turn {x : Thread σ × List Nat} (hrun : t.turn reg fds u = some x) : t.stage ≠ .ended := by
  intro hst
  have hnone : t.piece reg u = none := by cases u <;> simp [Thread.piece, hst]
  rw [Thread.turn, hnone] at hrun
  cases hrun

/-- What a turn of a thread does to the descriptors. -/
theorem turn_cases (hc : Connected ⟨t.conn, fds⟩ s fd) (hrun : t.turn reg fds u = some (t', fds')) :
    t.stage ≠ .ended ∧
      (t'.stage ≠ .ended ∧ t'.conn.sock = t.conn.sock ∧ fds' = fds ∧ t.loses reg u = false ∨
        t'.stage = .ended ∧ fds' = closed fds fd (!t.loses reg u)) := by
  cases u with
  | greet =>
    by_cases hst : t.stage = .greeting
    · refine ⟨by simp [hst], ?_⟩
      obtain ⟨w, hw⟩ := greeting_cases reg ⟨t.conn, fds⟩
      rw [Thread.turn, Thread.piece, if_pos hst] at hrun
      simp only [Option.bind_eq_bind, Option.bind_some] at hrun
      cases hok : greets reg t.conn.world with
      | true =>
        rw [if_pos hok] at hw
        rw [run_bind_ok hw] at hrun
        obtain ⟨rfl, rfl⟩ := Prod.mk.inj (Option.some.inj hrun)
        exact Or.inl ⟨by simp, rfl, rfl, by rw [Thread.loses, hok]; rfl⟩
      | false =>
        rw [if_neg (by rw [hok]; exact Bool.false_ne_true)] at hw
        rw [run_bind_thrown hw] at hrun
        obtain ⟨rfl, rfl⟩ := Prod.mk.inj (Option.some.inj hrun)
        exact Or.inr ⟨rfl, by rw [Thread.loses, hok]; rfl⟩
    · rw [Thread.turn, Thread.piece, if_neg hst] at hrun
      cases hrun
  | request r connected =>
    by_cases hst : t.stage = .reading ∧ t.conn.world.session.sessionState = sessionRead
    · refine ⟨by simp [hst.1], ?_⟩
      rw [Thread.turn, Thread.piece, if_pos hst] at hrun
      simp only [Option.bind_eq_bind, Option.bind_some] at hrun
      cases hp : (sessionProcessRequest reg r connected).run t.conn.world with
      | ok a w =>
        rw [run_bind_ok (run_onWorld_ok (run_attempt_ok hp))] at hrun
        obtain ⟨rfl, rfl⟩ := Prod.mk.inj (Option.some.inj hrun)
        exact Or.inl ⟨by simp, rfl, rfl, rfl⟩
      | thrown w =>
        rw [run_bind_ok (run_onWorld_ok (run_attempt_thrown hp))] at hrun
        obtain ⟨rfl, rfl⟩ := Prod.mk.inj (Option.some.inj hrun)
        exact Or.inl ⟨by simp, rfl, rfl, rfl⟩
      | halt e =>
        rw [run_bind_halt (run_onWorld_halt (run_attempt_halt hp))] at hrun
        cases hrun
    · rw [Thread.turn, Thread.piece, if_neg hst] at hrun
      cases hrun
  | finish closing =>
    by_cases hst : t.stage = .reading ∧ t.conn.world.session.sessionState ≠ sessionRead
    · refine ⟨by simp [hst.1], Or.inr ?_⟩
      rw [Thread.turn, Thread.piece, if_pos hst] at hrun
      simp only [Option.bind_eq_bind, Option.bind_some] at hrun
      have hend := (shows_ending hc reg closing).returns (ending_returns reg _ _)
      rw [Thread.loses, Bool.not_not]
      cases ho : (ending reg closing).run ⟨t.conn, fds⟩ with
      | ok a h =>
        rw [run_bind_ok ho] at hrun
        rw [ho] at hend
        obtain ⟨rfl, rfl⟩ := Prod.mk.inj (Option.some.inj hrun)
        exact ⟨rfl, hend⟩
      | thrown h =>
        rw [run_bind_thrown ho] at hrun
        rw [ho] at hend
        obtain ⟨rfl, rfl⟩ := Prod.mk.inj (Option.some.inj hrun)
        exact ⟨rfl, hend⟩
      | halt e =>
        rw [run_bind_halt ho] at hrun
        cases hrun
    · rw [Thread.turn, Thread.piece, if_neg hst] at hrun
      cases hrun

/-- The rest of `server_accept`, for a session with a client. -/
theorem run_startSession (hc : Connected ⟨k, p.fds⟩ s fd) (reg : Registry σ) (c : Calls) :
    ∃ p', ((startSession reg c k).run p = .ok () p' ∨ (startSession reg c k).run p = .thrown p') ∧
      p' = if maxClientCount ≤ fd then p
        else if c.thread then { p with threads := p.threads ++ [⟨k, .greeting⟩] }
        else { p with fds := closed p.fds fd (overloadGivesBack reg k.world c.close) } := by
  have hsock : k.sock = some s := hc.sock
  have hload : (deref k.sock : Act (Proc σ) Sock).run p = .ok s p := by rw [hsock]; rfl
  rw [startSession, run_bind_ok hload, hc.number]
  by_cases hmax : maxClientCount ≤ (fd : Int)
  · rw [if_pos hmax, if_pos hmax]
    exact ⟨p, Or.inr rfl, rfl⟩
  rw [if_neg hmax, if_neg hmax, if_neg (by omega : ¬ (fd : Int) < 0)]
  cases hthread : c.thread with
  | true => exact ⟨_, Or.inl rfl, rfl⟩
  | false =>
    rw [if_neg Bool.false_ne_true, if_neg Bool.false_ne_true]
    have hover := overload_fds hc reg c.close
    refine ⟨_, ?_, rfl⟩
    cases ho : (overload reg c.close).run ⟨k, p.fds⟩ with
    | ok u h =>
      rw [ho] at hover
      left
      rw [run_bind_ok (run_onConn_ok ho), show h.fds = _ from hover]
      rfl
    | thrown h =>
      rw [ho] at hover
      right
      rw [run_bind_thrown (run_onConn_thrown ho), show h.fds = _ from hover]
    | halt e =>
      rw [ho] at hover
      exact hover.elim

/-! ## Steps keep the balance -/

/-- A session that lets go of its descriptor either gives it back or loses it. -/
theorem balanced_closed {opened held lost : List Nat} (h : Balanced opened (fd :: held) lost) (b : Bool) :
    Balanced (closed opened fd b) held ((if b then [] else [fd]) ++ lost) := by
  cases b with
  | true => exact h.release
  | false => exact h.lose

theorem sound_accept (hp : Sound listening lost p) {srv : Server C} {c : Calls}
    (hstep : p.step reg null (.accept srv c) = some p') :
    Sound listening (lostBy reg null p (.accept srv c) ++ lost) p' := by
  rw [Proc.step] at hstep
  split_ifs at hstep with hkernel
  obtain ⟨hmain, hnew⟩ := hkernel
  have hmain : p.main = none := Option.isNone_iff_eq_none.mp hmain
  have hopen := run_openSession reg null srv c p
  rw [lostBy]
  cases harr : arrived reg null srv c with
  | none =>
    rw [harr] at hopen
    rcases hopen with hopen | hopen
    · rw [hopen] at hstep
      obtain rfl := Option.some.inj hstep
      simpa using hp
    · rw [hopen] at hstep
      cases hstep
  | some fd =>
    have hclient : clientOf c.accept = some fd := by
      rw [arrived] at harr
      split_ifs at harr
      exact harr
    have hfd : fd ∉ p.fds := by
      rw [hclient] at hnew
      simpa using hnew
    have hacq := hp.balanced.acquire hfd
    rw [harr] at hopen
    simp only at hopen
    split_ifs at hopen ⊢ with hset
    · rw [hopen] at hstep
      obtain rfl := Option.some.inj hstep
      refine ⟨?_, ?_, hp.threads⟩
      · have hheld : ({ p with fds := fd :: p.fds, main := some ⟨accepted reg null srv, some ⟨fd, srv.sockFamily⟩⟩ } :
            Proc σ).held = fd :: p.held := by
          have hdesc := descriptor_of_sock (k := ⟨accepted reg null srv, some ⟨(fd : Int), srv.sockFamily⟩⟩) rfl rfl
          simp [Proc.held, hmain, hdesc]
        rw [hheld]
        exact hacq
      · intro k hk
        obtain rfl := Option.some.inj hk
        exact ⟨_, fd, rfl, rfl⟩
    · rw [hopen] at hstep
      obtain rfl := Option.some.inj hstep
      refine ⟨hacq.lose, ?_, hp.threads⟩
      intro k hk
      rw [hmain] at hk
      cases hk

theorem sound_start (hp : Sound listening lost p) {c : Calls}
    (hstep : p.step reg null (.start c : Move C) = some p') :
    Sound listening (lostBy reg null p (.start c : Move C) ++ lost) p' := by
  cases hmain : p.main with
  | none =>
    rw [Proc.step, hmain] at hstep
    cases hstep
  | some k =>
    obtain ⟨s, fd, hsock, hfd⟩ := hp.main k hmain
    have hdesc := descriptor_of_sock hsock hfd
    have hheld : p.held = fd :: p.threads.filterMap Thread.descriptor := by simp [Proc.held, hmain, hdesc]
    have hbal : Balanced p.fds (fd :: p.threads.filterMap Thread.descriptor) (lost ++ listening) := by
      rw [← hheld]
      exact hp.balanced
    have hc : Connected ⟨k, ({ p with main := none } : Proc σ).fds⟩ s fd :=
      ⟨hsock, hfd, hbal.open_of_held List.mem_cons_self⟩
    obtain ⟨q, hrun, hq⟩ := run_startSession hc reg c
    have hp' : p' = q := by
      rw [Proc.step, hmain] at hstep
      rcases hrun with hrun | hrun
      · simp only [hrun] at hstep
        exact (Option.some.inj hstep).symm
      · simp only [hrun] at hstep
        exact (Option.some.inj hstep).symm
    have hlost : lostBy reg null p (.start c : Move C) = if startLoses reg c k fd then [fd] else [] := by
      simp [lostBy, hmain, hdesc, List.filter_cons]
    rw [hlost, hp', hq, startLoses]
    by_cases hmax : maxClientCount ≤ (fd : Int)
    · rw [if_pos hmax, decide_eq_true hmax]
      exact ⟨hbal.lose, by simp, hp.threads⟩
    rw [if_neg hmax, decide_eq_false hmax, Bool.false_or]
    cases hthread : c.thread with
    | true =>
      rw [if_pos rfl]
      refine ⟨?_, by simp, ?_⟩
      · apply hbal.of_perm
        have hdesc' : Thread.descriptor ⟨k, .greeting⟩ = some fd := hdesc
        simp only [Proc.held, Option.toList_none, List.filterMap_nil, List.nil_append, List.filterMap_append,
          List.filterMap_cons_some hdesc']
        exact (List.perm_append_singleton fd _).symm
      · intro t ht hst
        rcases List.mem_append.mp ht with ht | ht
        · exact hp.threads t ht hst
        · obtain rfl := List.mem_singleton.mp ht
          exact ⟨s, fd, hsock, hfd, by omega⟩
    | false =>
      rw [if_neg Bool.false_ne_true]
      have hback := balanced_closed hbal (overloadGivesBack reg k.world c.close)
      cases hgive : overloadGivesBack reg k.world c.close with
      | true =>
        rw [hgive] at hback
        rw [Bool.not_true, Bool.and_false, if_neg Bool.false_ne_true]
        exact ⟨hback, by simp, hp.threads⟩
      | false =>
        rw [hgive] at hback
        rw [Bool.not_false, Bool.and_true, if_pos rfl]
        exact ⟨hback, by simp, hp.threads⟩

theorem sound_turn (hp : Sound listening lost p) (hstep : p.step reg null (.turn i u : Move C) = some p') :
    Sound listening (lostBy reg null p (.turn i u : Move C) ++ lost) p' := by
  rw [Proc.step] at hstep
  cases ht : p.threads[i]? with
  | none =>
    rw [ht] at hstep
    cases hstep
  | some t =>
    rw [ht] at hstep
    simp only [Option.bind_eq_bind, Option.bind_some] at hstep
    cases hturn : t.turn reg p.fds u with
    | none =>
      rw [hturn] at hstep
      cases hstep
    | some x =>
      obtain ⟨t', fds'⟩ := x
      rw [hturn] at hstep
      obtain rfl := Option.some.inj hstep
      obtain ⟨hi, rfl⟩ := List.getElem?_eq_some_iff.mp ht
      have hst : p.threads[i].stage ≠ .ended := not_ended_of_turn hturn
      obtain ⟨s, fd, hsock, hfd, hmax⟩ := hp.threads _ (List.getElem_mem hi) hst
      -- the descriptors of the others
      obtain ⟨others, hothers⟩ : ∃ l, l = p.main.toList.filterMap Conn.descriptor ++
        (p.threads.eraseIdx i).filterMap Thread.descriptor := ⟨_, rfl⟩
      have hset : ∀ x : Thread σ, (p.main.toList.filterMap Conn.descriptor ++
          (p.threads.set i x).filterMap Thread.descriptor).Perm (x.descriptor.toList ++ others) := by
        intro x
        have hperm := ((List.set_perm_cons_eraseIdx hi x).filterMap Thread.descriptor).append_left
          (p.main.toList.filterMap Conn.descriptor)
        apply hperm.trans
        rw [hothers]
        cases hx : x.descriptor with
        | none => rw [List.filterMap_cons_none hx]; rfl
        | some y =>
          rw [List.filterMap_cons_some hx]
          exact List.perm_middle
      have hdesc : p.threads[i].descriptor = some fd := by
        rw [Thread.descriptor, if_neg hst]
        exact descriptor_of_sock hsock hfd
      have hbal : Balanced p.fds (fd :: others) (lost ++ listening) := by
        apply hp.balanced.of_perm
        have hself := hset p.threads[i]
        rw [List.set_getElem_self, hdesc] at hself
        exact hself
      have hc : Connected ⟨p.threads[i].conn, p.fds⟩ s fd := ⟨hsock, hfd, hbal.open_of_held List.mem_cons_self⟩
      have hlost : lostBy reg null p (.turn i u : Move C) = if p.threads[i].loses reg u then [fd] else [] := by
        rw [lostBy, ht, Option.toList_some, List.flatMap_singleton, hdesc, Option.toList_some]
      obtain ⟨-, ⟨hst', hsock', hfds, hlose⟩ | ⟨hst', hfds⟩⟩ := turn_cases hc hturn
      · -- the session goes on
        rw [hlost, hlose]
        have hdesc' : t'.descriptor = some fd := by
          rw [Thread.descriptor, if_neg hst']
          exact descriptor_of_sock (hsock'.trans hsock) hfd
        refine ⟨?_, hp.main, ?_⟩
        · have hheld := hset t'
          rw [hdesc'] at hheld
          simp only [hfds]
          exact hbal.of_perm hheld.symm
        · intro x hx hxs
          rcases List.mem_or_eq_of_mem_set hx with hx | rfl
          · exact hp.threads x hx hxs
          · exact ⟨s, fd, hsock'.trans hsock, hfd, hmax⟩
      · -- the session is over
        rw [hlost]
        have hdesc' : t'.descriptor = none := by rw [Thread.descriptor, if_pos hst']
        refine ⟨?_, hp.main, ?_⟩
        · have hheld := hset t'
          rw [hdesc'] at hheld
          have hback := balanced_closed hbal (!p.threads[i].loses reg u)
          simp only [hfds]
          apply Balanced.of_perm _ hheld.symm
          cases hlose : p.threads[i].loses reg u with
          | true => rw [hlose] at hback; exact hback
          | false => rw [hlose] at hback; exact hback
        · intro x hx hxs
          rcases List.mem_or_eq_of_mem_set hx with hx | rfl
          · exact hp.threads x hx hxs
          · exact absurd hst' hxs

theorem sound_step (hp : Sound listening lost p) {m : Move C} (hstep : p.step reg null m = some p') :
    Sound listening (lostBy reg null p m ++ lost) p' := by
  cases m with
  | accept srv c => exact sound_accept hp hstep
  | start c => exact sound_start hp hstep
  | turn i u => exact sound_turn hp hstep

theorem sound_run {ms : List (Move C)} (hp : Sound listening lost p) (hrun : p.run reg null ms = some p') :
    Sound listening (lostIn reg null p ms ++ lost) p' := by
  induction ms generalizing p lost with
  | nil =>
    obtain rfl := Option.some.inj hrun
    exact hp
  | cons m ms ih =>
    rw [Proc.run] at hrun
    cases hstep : p.step reg null m with
    | none =>
      rw [hstep] at hrun
      cases hrun
    | some q =>
      rw [hstep] at hrun
      have hsound := ih (sound_step hp hstep) hrun
      simp only [lostIn, hstep, Option.toList_some, List.flatMap_cons, List.flatMap_nil, List.append_nil,
        List.append_assoc]
      exact hsound

theorem sound_initial (hl : listening.Nodup) : Sound listening [] (Proc.initial listening : Proc σ) :=
  ⟨⟨hl, List.Perm.refl _⟩, by simp [Proc.initial], by simp [Proc.initial]⟩

/-- The two halves of `server_accept`, one right after the other. -/
theorem serverAccept_moves {srv : Server C} {c : Calls} (hmain : p.main = none)
    (hkernel : (clientOf c.accept).all (fun fd => !p.fds.contains fd) = true)
    (hrun : (serverAccept reg null srv c).run p = .ok () p' ∨ (serverAccept reg null srv c).run p = .thrown p') :
    p.run reg null [.accept srv c, .start c] = some p' ∨ p.run reg null [.accept srv c] = some p' := by
  have hguard : p.main.isNone = true ∧ (clientOf c.accept).all (fun fd => !p.fds.contains fd) = true :=
    ⟨by rw [hmain]; rfl, hkernel⟩
  have hsame : ∀ k q, (openSession reg null srv c).run p = .ok k q → q.main = none := by
    intro k q ho
    have hopen := run_openSession reg null srv c p
    cases harr : arrived reg null srv c with
    | none =>
      rw [harr, ho] at hopen
      rcases hopen with hopen | hopen <;> cases hopen
    | some fd =>
      rw [harr, ho] at hopen
      simp only at hopen
      split_ifs at hopen
      obtain ⟨-, rfl⟩ := Outcome.ok.inj hopen
      exact hmain
  rw [serverAccept] at hrun
  cases ho : (openSession reg null srv c).run p with
  | ok k q =>
    left
    rw [run_bind_ok ho] at hrun
    have hfirst : p.step reg null (.accept srv c) = some { q with main := some k } := by
      rw [Proc.step, if_pos hguard, ho]
    have hback : ({ q with main := none } : Proc σ) = q := by rw [← hsame k q ho]
    have hsecond : ({ q with main := some k } : Proc σ).step reg null (.start c : Move C) = some p' := by
      rw [Proc.step]
      simp only [hback]
      rcases hrun with hrun | hrun
      · rw [hrun]
      · rw [hrun]
    rw [Proc.run, hfirst]
    simp only [Option.bind_eq_bind, Option.bind_some]
    rw [Proc.run, hsecond]
    rfl
  | thrown q =>
    right
    rw [run_bind_thrown ho] at hrun
    have hfirst : p.step reg null (.accept srv c) = some q := by rw [Proc.step, if_pos hguard, ho]
    rw [Proc.run, hfirst]
    rcases hrun with hrun | hrun
    · cases hrun
    · obtain rfl := Outcome.thrown.inj hrun
      rfl
  | halt e =>
    rw [run_bind_halt ho] at hrun
    rcases hrun with hrun | hrun <;> cases hrun

/-! ## Accounts of the descriptors -/

/-- In every run, whoever takes turns with whom: the open descriptors are all different, and they are those of
the sessions at work, the ones that have been lost on the way, and the ones that are listened on. Every session
at work has one of its own. -/
theorem descriptors_accounted (hl : listening.Nodup) {ms : List (Move C)}
    (hrun : (Proc.initial listening).run reg null ms = some p) :
    Balanced p.fds p.held (lostIn reg null (Proc.initial listening) ms ++ listening) ∧
      ∀ t ∈ p.threads, t.stage ≠ .ended → ∃ fd, t.descriptor = some fd ∧ fd ∈ p.fds := by
  have hp := sound_run (sound_initial hl) hrun
  rw [List.append_nil] at hp
  refine ⟨hp.balanced, ?_⟩
  intro t ht hst
  obtain ⟨s, fd, hsock, hfd, -⟩ := hp.threads t ht hst
  have hdesc : t.descriptor = some fd := by
    rw [Thread.descriptor, if_neg hst]
    exact descriptor_of_sock hsock hfd
  refine ⟨fd, hdesc, hp.balanced.open_of_held ?_⟩
  exact List.mem_append_right _ (List.mem_filterMap.mpr ⟨t, ht, hdesc⟩)

/-- A server that listens on descriptor 3, for the first controller. -/
def web : Server Unit := ⟨pfInet, [], 80, pfInet, 3, (), 1⟩

/-- A client comes, after a signal, and nothing fails. -/
def allWell (fd : Nat) : Calls := ⟨true, true, [.eintr, .client fd], true, true, true, true, .done⟩

def firstMoves : List (Move Unit) := [.accept web (allWell 4), .start (allWell 4)]

/-- The first session times out and a second one begins. Number 4 comes back for a client that is lost. -/
def moreMoves : List (Move Unit) :=
  [.turn 0 .greet, .accept web (allWell 5), .turn 0 (.request .timeout true), .start (allWell 5),
    .turn 0 (.finish .done), .accept web { allWell 4 with sndtimeo := false }, .turn 1 .greet,
    .turn 1 (.request .failure true)]

theorem descriptors_accounted_some :
    [3].Nodup ∧ ∃ p : Proc Unit, (Proc.initial [3]).run failingRegistry () (firstMoves ++ moreMoves) = some p ∧
      Balanced p.fds p.held (lostIn failingRegistry () (Proc.initial [3]) (firstMoves ++ moreMoves) ++ [3]) ∧
        ∀ t ∈ p.threads, t.stage ≠ .ended → ∃ fd, t.descriptor = some fd ∧ fd ∈ p.fds := by
  have hsome : ((Proc.initial [3]).run failingRegistry () (firstMoves ++ moreMoves)).isSome = true := by
    decide +kernel
  obtain ⟨p, hp⟩ := Option.isSome_iff_exists.mp hsome
  exact ⟨by decide, p, hp, descriptors_accounted (by decide) hp⟩

/-- The sessions that have a thread. -/
def Proc.working (p : Proc σ) : List (Thread σ) := p.threads.filter fun t => t.stage ≠ .ended

/-- The numbers that `server_accept` lets through. -/
def below (fds : List Nat) : List Nat := fds.filter (· < 10000)

theorem run_append {ms ms' : List (Move C)} (hrun : p.run reg null ms = some p') :
    p.run reg null (ms ++ ms') = p'.run reg null ms' := by
  induction ms generalizing p with
  | nil =>
    obtain rfl := Option.some.inj hrun
    rfl
  | cons m ms ih =>
    rw [Proc.run] at hrun
    cases hstep : p.step reg null m with
    | none =>
      rw [hstep] at hrun
      cases hrun
    | some q =>
      rw [hstep] at hrun
      rw [List.cons_append, Proc.run, hstep]
      exact ih hrun

theorem lostIn_append {ms ms' : List (Move C)} (hrun : p.run reg null ms = some p') :
    lostIn reg null p (ms ++ ms') = lostIn reg null p' ms' ++ lostIn reg null p ms := by
  induction ms generalizing p with
  | nil =>
    obtain rfl := Option.some.inj hrun
    exact (List.append_nil _).symm
  | cons m ms ih =>
    rw [Proc.run] at hrun
    cases hstep : p.step reg null m with
    | none =>
      rw [hstep] at hrun
      cases hrun
    | some q =>
      rw [hstep] at hrun
      simp only [List.cons_append, lostIn, hstep, Option.toList_some, List.flatMap_cons, List.flatMap_nil,
        List.append_nil]
      rw [ih hrun, List.append_assoc]

theorem working_le_held (hp : Sound listening lost p) : p.working.length ≤ (below p.held).length := by
  have hsub : ∀ ts : List (Thread σ), (∀ t ∈ ts, t ∈ p.threads) →
      (ts.filter fun t => t.stage ≠ .ended).length ≤ (below (ts.filterMap Thread.descriptor)).length := by
    intro ts hts
    induction ts with
    | nil => exact Nat.le_refl 0
    | cons t ts ih =>
      have hrest := ih fun x hx => hts x (List.mem_cons_of_mem _ hx)
      by_cases hst : t.stage = .ended
      · rw [List.filter_cons_of_neg (by simp [hst]), List.filterMap_cons_none (by rw [Thread.descriptor, if_pos hst])]
        exact hrest
      · obtain ⟨s, fd, hsock, hfd, hmax⟩ := hp.threads t (hts t List.mem_cons_self) hst
        have hdesc : t.descriptor = some fd := by
          rw [Thread.descriptor, if_neg hst]
          exact descriptor_of_sock hsock hfd
        have hlt : fd < 10000 := by
          have : maxClientCount = 10000 := rfl
          omega
        rw [List.filter_cons_of_pos (by simpa using hst), List.filterMap_cons_some hdesc, below,
          List.filter_cons_of_pos (by simpa using hlt)]
        exact Nat.succ_le_succ hrest
  apply (hsub p.threads fun t ht => ht).trans
  rw [below, below, Proc.held, List.filter_append, List.length_append]
  exact Nat.le_add_left _ _

/-- At any time there are at most `MAX_CLIENT_COUNT` sessions, and every number below it that was lost once, or is
listened on, is missing from then on: what is lost in the first part of a run is gone in all that follows. -/
theorem sessions_bounded (hl : listening.Nodup) {ms ms' : List (Move C)}
    (hrun : (Proc.initial listening).run reg null ms = some p) (hrun' : p.run reg null ms' = some p') :
    p'.working.length + (below (lostIn reg null (Proc.initial listening) ms ++ listening)).length ≤ 10000 := by
  have hall : (Proc.initial listening).run reg null (ms ++ ms') = some p' := by
    rw [run_append hrun]
    exact hrun'
  have hp := sound_run (sound_initial hl) hall
  rw [List.append_nil, lostIn_append hrun] at hp
  have hwork := working_le_held hp
  have hbelow := hp.balanced.below 10000
  rw [List.append_assoc, List.filter_append, List.length_append] at hbelow
  rw [below] at hwork ⊢
  omega

theorem sessions_bounded_some :
    [3].Nodup ∧ ∃ p p' : Proc Unit,
      (Proc.initial [3]).run failingRegistry () (firstMoves ++ moreMoves) = some p ∧
      p.run failingRegistry () [(.turn 1 (.request .timeout false) : Move Unit)] = some p' ∧
      p'.working.length +
        (below (lostIn failingRegistry () (Proc.initial [3]) (firstMoves ++ moreMoves) ++ [3])).length ≤ 10000 := by
  have hsome : ((Proc.initial [3]).run failingRegistry ()
      ((firstMoves ++ moreMoves) ++ [(.turn 1 (.request .timeout false) : Move Unit)])).isSome = true := by
    decide +kernel
  have hfirst : ((Proc.initial [3]).run failingRegistry () (firstMoves ++ moreMoves)).isSome = true := by
    decide +kernel
  obtain ⟨p, hp⟩ := Option.isSome_iff_exists.mp hfirst
  rw [run_append hp] at hsome
  obtain ⟨p', hp'⟩ := Option.isSome_iff_exists.mp hsome
  exact ⟨by decide, p, p', hp, hp', sessions_bounded (by decide) hp hp'⟩

/-! ## Sessions do not disturb each other -/

/-- What the `i`-th session is asked in a run. -/
def inputOf (i : Nat) : List (Move C) → List (Readline × Bool)
  | [] => []
  | .turn j (.request r connected) :: ms => if j = i then (r, connected) :: inputOf i ms else inputOf i ms
  | _ :: ms => inputOf i ms

/-- The beginning of `session_handler`, for a session alone. -/
def greetingAlone (reg : Registry σ) : Act (NcSession.World σ) Unit := do
  modifySession fun s => { s with sessionState := sessionGreeting }
  sessionGreet reg

/-- How far a session is that began with `w` and has been given this input. -/
inductive Along (reg : Registry σ) (w : NcSession.World σ) : List (Readline × Bool) → Stage →
    NcSession.World σ → Prop
  | greeting : Along reg w [] .greeting w
  | reading {input : List (Readline × Bool)} {w₁ w₂ : NcSession.World σ} (hg : (greetingAlone reg).run w = .ok () w₁)
    (hr : (readLoop reg input).run w₁ = .ok (decide (w₂.session.sessionState ≠ sessionRead)) w₂) :
    Along reg w input .reading w₂
  | ended {input : List (Readline × Bool)} {w' : NcSession.World σ} (closes : Bool)
    (h : (NcSession.sessionHandler reg input closes).run w = .ok () w' ∨
      (NcSession.sessionHandler reg input closes).run w = .thrown w') : Along reg w input .ended w'

variable {w w₁ w₂ : NcSession.World σ} {input : List (Readline × Bool)}

theorem Along.handled (h : Along reg w input .ended w₂) :
    ∃ closes, (NcSession.sessionHandler reg input closes).run w = .ok () w₂ ∨
      (NcSession.sessionHandler reg input closes).run w = .thrown w₂ := by
  cases h with
  | ended closes h => exact ⟨closes, h⟩

/-- One more request at the end of the input. -/
theorem readLoop_snoc {b : Bool} {r : Readline} {connected : Bool} {o : Option Unit}
    (h : (readLoop reg input).run w = .ok b w₁) (hread : w₁.session.sessionState = sessionRead)
    (hp : (attempt (sessionProcessRequest reg r connected)).run w₁ = .ok o w₂) :
    (readLoop reg (input ++ [(r, connected)])).run w = .ok (decide (w₂.session.sessionState ≠ sessionRead)) w₂ := by
  induction input generalizing w with
  | nil =>
    obtain ⟨-, rfl⟩ := Outcome.ok.inj h
    rw [List.nil_append, readLoop, run_bind_get, if_pos hread, run_bind_ok hp]
    rfl
  | cons x input ih =>
    obtain ⟨r', connected'⟩ := x
    rw [readLoop, run_bind_get] at h
    by_cases hs : w.session.sessionState = sessionRead
    · rw [if_pos hs] at h
      obtain ⟨o', w', ho', hrest⟩ := exists_of_run_bind h
      rw [List.cons_append, readLoop, run_bind_get, if_pos hs, run_bind_ok ho']
      exact ih hrest
    · rw [if_neg hs] at h
      obtain ⟨-, rfl⟩ := Outcome.ok.inj h
      exact absurd hread hs

theorem run_sessionHandler (hg : (greetingAlone reg).run w = .ok () w₁)
    (hr : (readLoop reg input).run w₁ = .ok (decide (w₂.session.sessionState ≠ sessionRead)) w₂)
    (hs : w₂.session.sessionState ≠ sessionRead) (closes : Bool) :
    (NcSession.sessionHandler reg input closes).run w = (sessionEnd reg closes).run w₂ := by
  have hsplit : (NcSession.sessionHandler reg input closes).run w = (do
      greetingAlone reg
      let ended ← readLoop reg input
      if ended then sessionEnd reg closes else pure () : Act (NcSession.World σ) Unit).run w := rfl
  rw [hsplit, run_bind_ok hg, run_bind_ok hr, decide_eq_true hs, if_pos rfl]

/-- What a turn asks of the session. -/
def Turn.asked : Turn → List (Readline × Bool)
  | .request r connected => [(r, connected)]
  | _ => []

/-- A turn takes the session along. -/
theorem turn_along (hc : Connected ⟨t.conn, fds⟩ s fd) (ha : Along reg w input t.stage t.conn.world)
    (hrun : t.turn reg fds u = some (t', fds')) : Along reg w (input ++ u.asked) t'.stage t'.conn.world := by
  cases u with
  | greet =>
    by_cases hst : t.stage = .greeting
    · rw [hst] at ha
      cases ha
      rw [Thread.turn, Thread.piece, if_pos hst] at hrun
      simp only [Option.bind_eq_bind, Option.bind_some] at hrun
      have hgreet := run_sessionGreet reg { t.conn.world with
        session := { t.conn.world.session with sessionState := sessionGreeting } }
      have hheld : ∀ h : Held σ, (greeting reg).run h = (onWorld (sessionGreet reg)).run (h.withWorld { h.conn.world with
        session := { h.conn.world.session with sessionState := sessionGreeting } }) := fun _ => rfl
      have halone : (greetingAlone reg).run t.conn.world = (sessionGreet reg).run { t.conn.world with
        session := { t.conn.world.session with sessionState := sessionGreeting } } := rfl
      rw [run_bind, hheld] at hrun
      split_ifs at hgreet
      · rw [run_onWorld_ok hgreet] at hrun
        obtain ⟨rfl, -⟩ := Prod.mk.inj (Option.some.inj hrun)
        exact .reading (halone.trans hgreet) rfl
      · rw [run_onWorld_thrown hgreet] at hrun
        obtain ⟨rfl, -⟩ := Prod.mk.inj (Option.some.inj hrun)
        refine .ended true (Or.inr ?_)
        have hsplit : (NcSession.sessionHandler reg ([] ++ Turn.greet.asked) true).run t.conn.world = (do
          greetingAlone reg
          let ended ← readLoop reg []
          if ended then sessionEnd reg true else pure () : Act (NcSession.World σ) Unit).run t.conn.world := rfl
        rw [hsplit, run_bind_thrown (halone.trans hgreet)]
        rfl
    · rw [Thread.turn, Thread.piece, if_neg hst] at hrun
      cases hrun
  | request r connected =>
    by_cases hst : t.stage = .reading ∧ t.conn.world.session.sessionState = sessionRead
    · rw [hst.1] at ha
      cases ha with
      | reading hg hr =>
        rw [Thread.turn, Thread.piece, if_pos hst] at hrun
        simp only [Option.bind_eq_bind, Option.bind_some] at hrun
        cases hp : (attempt (sessionProcessRequest reg r connected)).run t.conn.world with
        | ok o w' =>
          rw [run_bind_ok (run_onWorld_ok hp)] at hrun
          obtain ⟨rfl, -⟩ := Prod.mk.inj (Option.some.inj hrun)
          exact .reading hg (readLoop_snoc hr hst.2 hp)
        | thrown w' =>
          rw [run_attempt] at hp
          split at hp <;> cases hp
        | halt e =>
          rw [run_bind_halt (run_onWorld_halt hp)] at hrun
          cases hrun
    · rw [Thread.turn, Thread.piece, if_neg hst] at hrun
      cases hrun
  | finish closing =>
    by_cases hst : t.stage = .reading ∧ t.conn.world.session.sessionState ≠ sessionRead
    · rw [hst.1] at ha
      cases ha with
      | reading hg hr =>
        rw [Thread.turn, Thread.piece, if_pos hst] at hrun
        simp only [Option.bind_eq_bind, Option.bind_some] at hrun
        have hend := shows_ending hc reg closing
        have hasked : input ++ (Turn.finish closing).asked = input := List.append_nil input
        have halone := run_sessionHandler hg hr hst.2 (decide (closing = .done))
        rw [← halone] at hend
        cases ho : (ending reg closing).run ⟨t.conn, fds⟩ with
        | ok a h =>
          rw [run_bind_ok ho] at hrun
          obtain ⟨rfl, -⟩ := Prod.mk.inj (Option.some.inj hrun)
          rw [ho] at hend
          refine .ended (decide (closing = .done)) (Or.inl ?_)
          rw [hasked]
          cases ho' : (NcSession.sessionHandler reg input (decide (closing = .done))).run w with
          | ok a' w' => rw [ho'] at hend; rw [hend.2.1]
          | thrown w' => rw [ho'] at hend; exact hend.elim
          | halt e => rw [ho'] at hend; exact hend.elim
        | thrown h =>
          rw [run_bind_thrown ho] at hrun
          obtain ⟨rfl, -⟩ := Prod.mk.inj (Option.some.inj hrun)
          rw [ho] at hend
          refine .ended (decide (closing = .done)) (Or.inr ?_)
          rw [hasked]
          cases ho' : (NcSession.sessionHandler reg input (decide (closing = .done))).run w with
          | ok a' w' => rw [ho'] at hend; exact hend.elim
          | thrown w' => rw [ho'] at hend; rw [hend.1]
          | halt e => rw [ho'] at hend; exact hend.elim
        | halt e =>
          rw [run_bind_halt ho] at hrun
          cases hrun
    · rw [Thread.turn, Thread.piece, if_neg hst] at hrun
      cases hrun

/-- A step moves a thread on by a turn of its own, and leaves it alone otherwise. -/
theorem step_thread (hp : Sound listening lost p) {m : Move C} (hstep : p.step reg null m = some p')
    (ht : p.threads[i]? = some t) :
    p'.threads[i]? = some t ∧ inputOf i [m] = [] ∨
      ∃ u t' fds', m = .turn i u ∧ t.turn reg p.fds u = some (t', fds') ∧ p'.threads[i]? = some t' := by
  cases m with
  | accept srv c =>
    left
    refine ⟨?_, rfl⟩
    have hopen := run_openSession reg null srv c p
    rw [Proc.step] at hstep
    split_ifs at hstep
    cases harr : arrived reg null srv c with
    | none =>
      rw [harr] at hopen
      rcases hopen with hopen | hopen
      · rw [hopen] at hstep
        obtain rfl := Option.some.inj hstep
        exact ht
      · rw [hopen] at hstep
        cases hstep
    | some fd =>
      rw [harr] at hopen
      simp only at hopen
      split_ifs at hopen
      · rw [hopen] at hstep
        obtain rfl := Option.some.inj hstep
        exact ht
      · rw [hopen] at hstep
        obtain rfl := Option.some.inj hstep
        exact ht
  | start c =>
    left
    refine ⟨?_, rfl⟩
    cases hmain : p.main with
    | none =>
      rw [Proc.step, hmain] at hstep
      cases hstep
    | some k =>
      obtain ⟨s, fd, hsock, hfd⟩ := hp.main k hmain
      have hmem : fd ∈ p.fds := by
        apply hp.balanced.open_of_held
        simp [Proc.held, hmain, descriptor_of_sock hsock hfd]
      obtain ⟨q, hrun, hq⟩ := run_startSession (p := { p with main := none }) ⟨hsock, hfd, hmem⟩ reg c
      have hp' : p' = q := by
        rw [Proc.step, hmain] at hstep
        rcases hrun with hrun | hrun
        · simp only [hrun] at hstep
          exact (Option.some.inj hstep).symm
        · simp only [hrun] at hstep
          exact (Option.some.inj hstep).symm
      obtain ⟨hi, -⟩ := List.getElem?_eq_some_iff.mp ht
      rw [hp', hq]
      split_ifs
      · exact ht
      · rw [List.getElem?_append_left hi]
        exact ht
      · exact ht
  | turn j u =>
    rw [Proc.step] at hstep
    cases htj : p.threads[j]? with
    | none =>
      rw [htj] at hstep
      cases hstep
    | some x =>
      rw [htj] at hstep
      simp only [Option.bind_eq_bind, Option.bind_some] at hstep
      cases hturn : x.turn reg p.fds u with
      | none =>
        rw [hturn] at hstep
        cases hstep
      | some y =>
        obtain ⟨t', fds'⟩ := y
        rw [hturn] at hstep
        obtain rfl := Option.some.inj hstep
        by_cases hij : j = i
        · subst hij
          obtain rfl := Option.some.inj (htj.symm.trans ht)
          obtain ⟨hi, -⟩ := List.getElem?_eq_some_iff.mp ht
          exact Or.inr ⟨u, t', fds', rfl, hturn, by simp [hi]⟩
        · left
          refine ⟨by rw [List.getElem?_set_ne hij]; exact ht, ?_⟩
          cases u with
          | request r connected => exact if_neg hij
          | greet => rfl
          | finish closing => rfl

theorem inputOf_append (i : Nat) (ms ms' : List (Move C)) : inputOf i (ms ++ ms') = inputOf i ms ++ inputOf i ms' := by
  induction ms with
  | nil => rfl
  | cons m ms ih =>
    cases m with
    | accept srv c => exact ih
    | start c => exact ih
    | turn j u =>
      cases u with
      | greet => exact ih
      | finish closing => exact ih
      | request r connected =>
        rw [List.cons_append, inputOf, inputOf, ih]
        split_ifs <;> rfl

theorem run_along (hp : Sound listening lost p) {ms : List (Move C)} (hrun : p.run reg null ms = some p')
    (ht : p.threads[i]? = some t) (ha : Along reg w input t.stage t.conn.world) :
    ∃ t', p'.threads[i]? = some t' ∧ Along reg w (input ++ inputOf i ms) t'.stage t'.conn.world := by
  induction ms generalizing p lost t input with
  | nil =>
    obtain rfl := Option.some.inj hrun
    exact ⟨t, ht, by rw [inputOf, List.append_nil]; exact ha⟩
  | cons m ms ih =>
    rw [Proc.run] at hrun
    cases hstep : p.step reg null m with
    | none =>
      rw [hstep] at hrun
      cases hrun
    | some q =>
      rw [hstep] at hrun
      have hcons : inputOf i (m :: ms) = inputOf i [m] ++ inputOf i ms := inputOf_append i [m] ms
      rcases step_thread hp hstep ht with ⟨hq, hnone⟩ | ⟨u, t', fds', rfl, hturn, hq⟩
      · rw [hcons, hnone, List.nil_append]
        exact ih (sound_step hp hstep) hrun hq ha
      · obtain ⟨s, fd, hsock, hfd, -⟩ := hp.threads t (List.mem_of_getElem? ht) (not_ended_of_turn hturn)
        have hdesc : t.descriptor = some fd := by
          rw [Thread.descriptor, if_neg (not_ended_of_turn hturn)]
          exact descriptor_of_sock hsock hfd
        have hmem : fd ∈ p.fds := by
          apply hp.balanced.open_of_held
          exact List.mem_append_right _ (List.mem_filterMap.mpr ⟨t, List.mem_of_getElem? ht, hdesc⟩)
        have hinput : inputOf i [(.turn i u : Move C)] = u.asked := by
          cases u with
          | greet => rfl
          | finish closing => rfl
          | request r connected => exact if_pos rfl
        rw [hcons, hinput, ← List.append_assoc]
        exact ih (sound_step hp hstep) hrun hq (turn_along ⟨hsock, hfd, hmem⟩ ha hturn)

/-- Whatever the server and the other sessions do in between: when the thread of a session ends, the session is as
`session_handler` leaves it when it runs alone on the same input. -/
theorem session_isolated (hl : listening.Nodup) {ms ms' : List (Move C)}
    (hrun : (Proc.initial listening).run reg null ms = some p) (ht : p.threads[i]? = some t)
    (hst : t.stage = .greeting) (hrun' : p.run reg null ms' = some p') (ht' : p'.threads[i]? = some t')
    (hend : t'.stage = .ended) :
    ∃ closes, (NcSession.sessionHandler reg (inputOf i ms') closes).run t.conn.world = .ok () t'.conn.world ∨
      (NcSession.sessionHandler reg (inputOf i ms') closes).run t.conn.world = .thrown t'.conn.world := by
  have hp := sound_run (sound_initial hl) hrun
  have hfirst : Along reg t.conn.world [] t.stage t.conn.world := by
    rw [hst]
    exact .greeting
  obtain ⟨x, hx, ha⟩ := run_along hp hrun' ht hfirst
  obtain rfl := Option.some.inj (hx.symm.trans ht')
  rw [hend, List.nil_append] at ha
  exact ha.handled

theorem session_isolated_first :
    [3].Nodup ∧ ∃ (p p' : Proc Unit) (t t' : Thread Unit),
      (Proc.initial [3]).run failingRegistry () firstMoves = some p ∧ p.threads[0]? = some t ∧ t.stage = .greeting ∧
      p.run failingRegistry () moreMoves = some p' ∧ p'.threads[0]? = some t' ∧ t'.stage = .ended ∧
      ∃ closes, (NcSession.sessionHandler failingRegistry (inputOf 0 moreMoves) closes).run t.conn.world =
          .ok () t'.conn.world ∨
        (NcSession.sessionHandler failingRegistry (inputOf 0 moreMoves) closes).run t.conn.world =
          .thrown t'.conn.world := by
  have hfirst : ((Proc.initial [3]).run failingRegistry () firstMoves).bind
      (fun p => p.threads[0]?.map Thread.stage) = some .greeting := by decide +kernel
  have hmore : ((Proc.initial [3]).run failingRegistry () (firstMoves ++ moreMoves)).bind
      (fun p => p.threads[0]?.map Thread.stage) = some .ended := by decide +kernel
  obtain ⟨p, hp, hstage⟩ := Option.bind_eq_some_iff.mp hfirst
  obtain ⟨t, ht, hst⟩ := Option.map_eq_some_iff.mp hstage
  rw [run_append hp] at hmore
  obtain ⟨p', hp', hstage'⟩ := Option.bind_eq_some_iff.mp hmore
  obtain ⟨t', ht', hst'⟩ := Option.map_eq_some_iff.mp hstage'
  exact ⟨by decide, p, p', t, t', hp, ht, hst, hp', ht', hst', session_isolated (by decide) hp ht hst hp' ht' hst'⟩

end

end NcAccept
