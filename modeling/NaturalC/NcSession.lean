import NaturalC.NcStringSpec

/-!
# Sessions

`session_handler` greets the client and then reads lines, each of which goes to the request
handler of the controller and its result to the response handler. The hooks of a controller
are arbitrary functions of the session. What happens is recorded, so that a run can be
compared with the order in which the calls are meant to come.
-/
namespace NcSession

open Throwing Throwing.Act NcString

def sessionUndef : Int := 0
def sessionGreeting : Int := 1
def sessionRead : Int := 3
def sessionClosed : Int := 6
/-- A member of `SESSION_HOOKS` that serves as a state as well. -/
def sessionTimeout : Int := 4

structure Response where
  code : Int
  header : Str
  body : Str
  asis : Bool

/-- A session with protocol data of type `σ` and the status of its socket. -/
structure Session (σ : Type) where
  sessionState : Int
  response : Response
  data : σ
  controllerHandle : Nat
  timeout : Bool
  connected : Bool

/-- What a hook returns, and what it leaves in the session. -/
structure Effect (σ : Type) where
  result : Int
  sessionState : Int
  code : Int
  header : WfStr
  body : WfStr
  asis : Bool
  data : σ

structure Controller (σ : Type) where
  requestHandler : Session σ → Str → Effect σ
  responseHandler : Session σ → Int → Effect σ
  timeoutHandler : Option (Session σ → Effect σ)
  overloadHandler : Option (Session σ → Effect σ)
  sessionInit : Option (Session σ → Effect σ)
  sessionReset : Option (Session σ → Effect σ)
  sessionDestroy : Option (Session σ → Effect σ)

/-- How `socket_readline` ends. -/
inductive Readline where
  | line (text : Str)
  | timeout
  | failure

/-- A hook with its argument. -/
inductive Hook where
  | request (line : Str)
  | response (arg : Int)
  | init
  | reset
  | timeout
  | overload
  | destroy

/-- A read, or a call of a hook with what it returned. -/
inductive Event where
  | read (r : Readline)
  | call (hook : Hook) (result : Int)

structure World (σ : Type) where
  session : Session σ
  /-- What has happened so far, in order. -/
  events : List Event

/-- The table of controllers and the number of its entries in use. -/
structure Registry (σ : Type) where
  count : Nat
  controller : Nat → Controller σ

variable {σ : Type}

def modifySession (f : Session σ → Session σ) : Act (World σ) Unit := do
  let w ← get
  put { w with session := f w.session }

def record (e : Event) : Act (World σ) Unit := do
  let w ← get
  put { w with events := w.events ++ [e] }

/-- The function that is called for a hook. Only the two handlers are always there. -/
def Controller.hook (c : Controller σ) : Hook → Option (Session σ → Effect σ)
  | .request line => some fun s => c.requestHandler s line
  | .response arg => some fun s => c.responseHandler s arg
  | .init => c.sessionInit
  | .reset => c.sessionReset
  | .timeout => c.timeoutHandler
  | .overload => c.overloadHandler
  | .destroy => c.sessionDestroy

def Session.after (s : Session σ) (e : Effect σ) : Session σ :=
  { s with sessionState := e.sessionState, data := e.data,
           response := ⟨e.code, e.header.1, e.body.1, e.asis⟩ }

def sessionControllerInvoke (reg : Registry σ) (hook : Hook) : Act (World σ) Unit := do
  let w ← get
  if w.session.controllerHandle = 0 then pure ()
  else if w.session.controllerHandle ≥ reg.count then throwing
  else
    match (reg.controller w.session.controllerHandle).hook hook with
    | none => pure ()
    | some f => do
      record (.call hook (f w.session).result)
      modifySession fun s => s.after (f w.session)
      if (f w.session).result ≠ 0 then throwing else pure ()

/-- `session_controller_invoke` as a number: 0, or -1 if it has thrown. -/
def invokeResult (reg : Registry σ) (hook : Hook) : Act (World σ) Int := do
  let r ← attempt (sessionControllerInvoke reg hook)
  pure (if r = none then -1 else 0)

def sessionGreet (reg : Registry σ) : Act (World σ) Unit := do
  let rc ← invokeResult reg (.response 1)
  if rc < 0 then throwing
  else modifySession fun s => { s with sessionState := sessionRead }

def responseReset : Act (World σ) Unit := do
  let w ← get
  let header ← onLocal strTruncate w.session.response.header
  let body ← onLocal strTruncate w.session.response.body
  modifySession fun s => { s with response := ⟨0, header.2, body.2, false⟩ }

/-- `socket_readline`. The socket may have lost its connection afterwards. -/
def socketReadline (r : Readline) (connected : Bool) : Act (World σ) Str := do
  record (.read r)
  modifySession fun s => { s with connected := connected }
  match r with
  | .line text => pure text
  | .timeout => do
    modifySession fun s => { s with timeout := true }
    strNew true true
  | .failure => throwing

def sessionProcessRequest (reg : Registry σ) (r : Readline) (connected : Bool) : Act (World σ) Unit := do
  let line ← socketReadline r connected
  let w ← get
  if w.session.timeout then modifySession fun s => { s with sessionState := sessionTimeout }
  else do
    responseReset
    let rc ← invokeResult reg (.request line)
    sessionControllerInvoke reg (.response rc)

/-- The loop of `session_handler` on the input that comes. It says whether the loop has ended; if not, the
session waits for more input. -/
def readLoop (reg : Registry σ) : List (Readline × Bool) → Act (World σ) Bool
  | [] => do
    let w ← get
    pure (w.session.sessionState ≠ sessionRead)
  | (r, connected) :: input => do
    let w ← get
    if w.session.sessionState = sessionRead then do
      let _ ← attempt (sessionProcessRequest reg r connected)
      readLoop reg input
    else pure true

/-- `session_close`, given whether the socket can be closed. -/
def sessionClose (closes : Bool) : Act (World σ) Unit := do
  let w ← get
  if w.session.sessionState = sessionUndef then throwing
  else if w.session.sessionState = sessionClosed then pure ()
  else if closes then modifySession fun s => { s with sessionState := sessionClosed }
  else throwing

/-- What follows the loop. -/
def sessionEnd (reg : Registry σ) (closes : Bool) : Act (World σ) Unit := do
  let w ← get
  let _ ← attempt (if w.session.sessionState = sessionTimeout ∧ w.session.connected = true then
    sessionControllerInvoke reg .timeout else pure ())
  sessionClose closes
  sessionControllerInvoke reg .destroy

def sessionHandler (reg : Registry σ) (input : List (Readline × Bool)) (closes : Bool) :
    Act (World σ) Unit := do
  modifySession fun s => { s with sessionState := sessionGreeting }
  sessionGreet reg
  let ended ← readLoop reg input
  if ended then sessionEnd reg closes else pure ()

/-- A call that has nothing to do with requests. -/
def Event.Quiet : Event → Prop
  | .call .timeout _ => True
  | .call .destroy _ => True
  | _ => False

def Event.outcome : Event → Option Readline
  | .read r => some r
  | .call _ _ => none

/-- How the reads ended. -/
def readsOf (es : List Event) : List Readline := es.filterMap Event.outcome

/-- The order in which things are meant to happen after the greeting: each line goes to one call of the
request handler and its result to one call of the response handler, and nothing is asked for
after a timeout. -/
inductive Served : List Event → Prop
  | quiet {es : List Event} (h : ∀ e ∈ es, e.Quiet) : Served es
  | failure {es : List Event} (h : Served es) : Served (.read .failure :: es)
  | line {es : List Event} (text : Str) (r r' : Int) (h : Served es) :
    Served (.read (.line text) :: .call (.request text) r ::
      .call (.response (if r = 0 then 0 else -1)) r' :: es)
  | timeout {es : List Event} (h : ∀ e ∈ es, e.Quiet) : Served (.read .timeout :: es)

/-- The controller of the session is registered and the strings of its response are well-formed. -/
structure Ready (reg : Registry σ) (s : Session σ) : Prop where
  handle : s.controllerHandle ≠ 0
  registered : s.controllerHandle < reg.count
  header : s.response.header.WF
  body : s.response.body.WF

variable {reg : Registry σ} {w : World σ}

@[simp] theorem run_modifySession (f : Session σ → Session σ) (w : World σ) :
    (modifySession f).run w = .ok () { w with session := f w.session } := rfl

@[simp] theorem run_bind_modifySession {α : Type} (f : Session σ → Session σ) (g : Unit → Act (World σ) α)
    (w : World σ) : (modifySession f >>= g).run w = (g ()).run { w with session := f w.session } := rfl

@[simp] theorem run_bind_record {α : Type} (e : Event) (g : Unit → Act (World σ) α) (w : World σ) :
    (record e >>= g).run w = (g ()).run { w with events := w.events ++ [e] } := rfl

/-- What one call of a hook leaves behind. -/
structure Called (reg : Registry σ) (hook : Hook) (r : Int) (w w' : World σ) : Prop where
  events : w'.events = w.events ++ [.call hook r]
  ready : Ready reg w'.session
  timeout : w'.session.timeout = w.session.timeout

/-- A hook that is there is called once, whatever it does. -/
theorem invoke_some (hook : Hook) {f : Session σ → Effect σ} (hr : Ready reg w.session)
    (hf : (reg.controller w.session.controllerHandle).hook hook = some f) :
    ∃ r w', Called reg hook r w w' ∧
      (sessionControllerInvoke reg hook).run w = if r = 0 then .ok () w' else .thrown w' := by
  refine ⟨(f w.session).result, ⟨w.session.after (f w.session), w.events ++ [.call hook (f w.session).result]⟩,
    ⟨rfl, ⟨hr.handle, hr.registered, (f w.session).header.2, (f w.session).body.2⟩, rfl⟩, ?_⟩
  rw [sessionControllerInvoke, run_bind_get, if_neg hr.handle, if_neg (Nat.not_le.mpr hr.registered), hf]
  simp only [run_bind_record, run_bind_modifySession]
  by_cases h0 : (f w.session).result = 0
  · rw [if_neg (not_not.mpr h0), if_pos h0]
    rfl
  · rw [if_pos h0, if_neg h0]
    rfl

theorem invoke_none {hook : Hook} (hr : Ready reg w.session)
    (hf : (reg.controller w.session.controllerHandle).hook hook = none) :
    (sessionControllerInvoke reg hook).run w = .ok () w := by
  rw [sessionControllerInvoke, run_bind_get, if_neg hr.handle, if_neg (Nat.not_le.mpr hr.registered), hf]
  rfl

/-- The result of the call as a number. -/
theorem invokeResult_some (hook : Hook) {f : Session σ → Effect σ} (hr : Ready reg w.session)
    (hf : (reg.controller w.session.controllerHandle).hook hook = some f) :
    ∃ r w', Called reg hook r w w' ∧
      (invokeResult reg hook).run w = .ok (if r = 0 then 0 else -1) w' := by
  obtain ⟨r, w', hc, hrun⟩ := invoke_some hook hr hf
  refine ⟨r, w', hc, ?_⟩
  rw [invokeResult]
  by_cases h0 : r = 0
  · rw [if_pos h0] at hrun
    rw [run_bind_ok (run_attempt_ok hrun), if_pos h0]
    rfl
  · rw [if_neg h0] at hrun
    rw [run_bind_ok (run_attempt_thrown hrun), if_neg h0]
    rfl

theorem responseReset_run (hr : Ready reg w.session) :
    ∃ w', responseReset.run w = .ok () w' ∧ w'.events = w.events ∧ Ready reg w'.session ∧
      w'.session.timeout = w.session.timeout := by
  obtain ⟨header, hh, hhw, -⟩ := strTruncate_holds hr.header
  obtain ⟨body, hb, hbw, -⟩ := strTruncate_holds hr.body
  refine ⟨{ w with session := { w.session with response := ⟨0, header, body, false⟩ } }, ?_, rfl,
    ⟨hr.handle, hr.registered, hhw.wf, hbw.wf⟩, rfl⟩
  rw [responseReset, run_bind_get, run_bind_ok (run_onLocal_ok hh w), run_bind_ok (run_onLocal_ok hb w)]
  rfl

/-- A line: one call of each handler, the second with the result of the first. -/
theorem processRequest_line (hr : Ready reg w.session) (ht : w.session.timeout = false) (text : Str)
    (connected : Bool) :
    ∃ r r' w', Ready reg w'.session ∧ w'.session.timeout = false ∧
      w'.events = w.events ++ [.read (.line text), .call (.request text) r,
        .call (.response (if r = 0 then 0 else -1)) r'] ∧
      ∃ o, (attempt (sessionProcessRequest reg (.line text) connected)).run w = .ok o w' := by
  let w₀ : World σ := ⟨{ w.session with connected := connected }, w.events ++ [.read (.line text)]⟩
  have hread : (socketReadline (.line text) connected).run w = .ok text w₀ := rfl
  obtain ⟨w₁, hreset, he₁, hr₁, ht₁⟩ := responseReset_run (w := w₀) ⟨hr.handle, hr.registered, hr.header, hr.body⟩
  obtain ⟨r, w₂, hc₂, hreq⟩ := invokeResult_some (.request text) hr₁ rfl
  obtain ⟨r', w₃, hc₃, hres⟩ := invoke_some (.response (if r = 0 then 0 else -1)) hc₂.ready rfl
  have hrun : (sessionProcessRequest reg (.line text) connected).run w =
      if r' = 0 then .ok () w₃ else .thrown w₃ := by
    rw [sessionProcessRequest, run_bind_ok hread, run_bind_get, if_neg (by simp [w₀, ht]),
      run_bind_ok hreset, run_bind_ok hreq, hres]
  refine ⟨r, r', w₃, hc₃.ready, ?_, ?_, ?_⟩
  · rw [hc₃.timeout, hc₂.timeout, ht₁]
    exact ht
  · rw [hc₃.events, hc₂.events, he₁]
    simp [w₀]
  · split_ifs at hrun
    · exact ⟨_, run_attempt_ok hrun⟩
    · exact ⟨_, run_attempt_thrown hrun⟩

theorem processRequest_failure (hr : Ready reg w.session) (connected : Bool) :
    ∃ w', Ready reg w'.session ∧ w'.session.timeout = w.session.timeout ∧
      w'.events = w.events ++ [.read .failure] ∧
      (attempt (sessionProcessRequest reg .failure connected)).run w = .ok none w' :=
  ⟨⟨{ w.session with connected := connected }, w.events ++ [.read .failure]⟩,
    ⟨hr.handle, hr.registered, hr.header, hr.body⟩, rfl, rfl, rfl⟩

theorem processRequest_timeout (hr : Ready reg w.session) (connected : Bool) :
    ∃ w', Ready reg w'.session ∧ w'.session.sessionState = sessionTimeout ∧
      w'.events = w.events ++ [.read .timeout] ∧
      (attempt (sessionProcessRequest reg .timeout connected)).run w = .ok (some ()) w' :=
  ⟨⟨{ w.session with connected := connected, timeout := true, sessionState := sessionTimeout },
      w.events ++ [.read .timeout]⟩,
    ⟨hr.handle, hr.registered, hr.header, hr.body⟩, rfl, rfl, rfl⟩

theorem readLoop_ended (hs : w.session.sessionState ≠ sessionRead) (input : List (Readline × Bool)) :
    (readLoop reg input).run w = .ok true w := by
  cases input with
  | nil =>
    rw [readLoop, run_bind_get, decide_eq_true hs]
    rfl
  | cons x input =>
    rw [readLoop, run_bind_get, if_neg hs]
    rfl

theorem readsOf_quiet {es : List Event} (h : ∀ e ∈ es, e.Quiet) : readsOf es = [] := by
  refine List.filterMap_eq_nil_iff.mpr fun e he => ?_
  cases e with
  | read r => exact (h _ he).elim
  | call hook r => rfl

theorem readsOf_append_quiet (es : List Event) {rest : List Event} (h : ∀ e ∈ rest, e.Quiet) :
    readsOf (es ++ rest) = readsOf es := by
  have hrest : rest.filterMap Event.outcome = [] := readsOf_quiet h
  rw [readsOf, List.filterMap_append, hrest, List.append_nil]
  rfl

/-- The loop of the session, on any input: it reads from its start on, what it adds is in order, and so is
any end without requests after it. -/
theorem readLoop_served (input : List (Readline × Bool)) (w : World σ) (hr : Ready reg w.session)
    (ht : w.session.timeout = false) :
    ∃ b w' es, (readLoop reg input).run w = .ok b w' ∧ Ready reg w'.session ∧ w'.events = w.events ++ es ∧
      readsOf es <+: input.map Prod.fst ∧ ∀ rest, (∀ e ∈ rest, Event.Quiet e) → Served (es ++ rest) := by
  induction input generalizing w with
  | nil => exact ⟨_, w, [], rfl, hr, by simp, List.prefix_rfl, fun rest h => Served.quiet h⟩
  | cons x input ih =>
    obtain ⟨r, connected⟩ := x
    by_cases hs : w.session.sessionState = sessionRead
    · rw [readLoop, run_bind_get, if_pos hs]
      cases r with
      | line text =>
        obtain ⟨r, r', w₁, hr₁, ht₁, he₁, o, hrun⟩ := processRequest_line hr ht text connected
        obtain ⟨b, w', es, hrest, hr', he, hreads, hserved⟩ := ih w₁ hr₁ ht₁
        rw [run_bind_ok hrun]
        refine ⟨b, w', [.read (.line text), .call (.request text) r,
          .call (.response (if r = 0 then 0 else -1)) r'] ++ es, hrest, hr', by rw [he, he₁, List.append_assoc],
          by simpa [readsOf, List.filterMap_cons, Event.outcome] using hreads, ?_⟩
        intro rest hq
        exact Served.line text r r' (hserved rest hq)
      | failure =>
        obtain ⟨w₁, hr₁, ht₁, he₁, hrun⟩ := processRequest_failure hr connected
        obtain ⟨b, w', es, hrest, hr', he, hreads, hserved⟩ := ih w₁ hr₁ (ht₁.trans ht)
        rw [run_bind_ok hrun]
        refine ⟨b, w', [.read .failure] ++ es, hrest, hr', by rw [he, he₁, List.append_assoc],
          by simpa [readsOf, List.filterMap_cons, Event.outcome] using hreads, ?_⟩
        intro rest hq
        exact Served.failure (hserved rest hq)
      | timeout =>
        obtain ⟨w₁, hr₁, hs₁, he₁, hrun⟩ := processRequest_timeout hr connected
        rw [run_bind_ok hrun]
        refine ⟨true, w₁, _, readLoop_ended (by rw [hs₁]; decide) input, hr₁, he₁,
          List.cons_prefix_cons.mpr ⟨rfl, List.nil_prefix⟩, ?_⟩
        intro rest hq
        exact Served.timeout hq
    · exact ⟨true, w, [], readLoop_ended hs _, hr, by simp, List.nil_prefix, fun rest h => Served.quiet h⟩

/-- From here on only hooks without a request were called. -/
structure Quietly (reg : Registry σ) (w w' : World σ) : Prop where
  ready : Ready reg w'.session
  events : ∃ es, w'.events = w.events ++ es ∧ ∀ e ∈ es, e.Quiet

theorem Quietly.trans {w₁ w₂ w₃ : World σ} (a : Quietly reg w₁ w₂) (b : Quietly reg w₂ w₃) : Quietly reg w₁ w₃ := by
  obtain ⟨es, he, hq⟩ := a.events
  obtain ⟨es', he', hq'⟩ := b.events
  refine ⟨b.ready, es ++ es', by rw [he', he, List.append_assoc], ?_⟩
  intro e hmem
  rcases List.mem_append.mp hmem with h | h
  · exact hq e h
  · exact hq' e h

theorem Quietly.same {w' : World σ} (hr : Ready reg w'.session) (he : w'.events = w.events) : Quietly reg w w' :=
  ⟨hr, [], by rw [he, List.append_nil], by simp⟩

theorem quiet_timeout (r : Int) : (Event.call .timeout r).Quiet := trivial

theorem quiet_destroy (r : Int) : (Event.call .destroy r).Quiet := trivial

/-- An optional hook adds at most its own call. -/
theorem invoke_quiet {hook : Hook} (hq : ∀ r, (Event.call hook r).Quiet) {w₀ : World σ} (h₀ : Quietly reg w₀ w) :
    ((sessionControllerInvoke reg hook).run w).Returns (Quietly reg w₀) := by
  cases hf : (reg.controller w.session.controllerHandle).hook hook with
  | none =>
    rw [invoke_none h₀.ready hf]
    exact h₀
  | some f =>
    obtain ⟨r, w', hc, hrun⟩ := invoke_some hook h₀.ready hf
    have hstep : Quietly reg w w' := ⟨hc.ready, _, hc.events, by simpa using hq r⟩
    rw [hrun]
    split_ifs
    · exact h₀.trans hstep
    · exact h₀.trans hstep

theorem sessionClose_quiet {w₀ : World σ} (h₀ : Quietly reg w₀ w) (closes : Bool) :
    ((sessionClose closes).run w).Returns (Quietly reg w₀) := by
  rw [sessionClose, run_bind_get]
  split_ifs
  · exact h₀
  · exact h₀
  · exact ⟨⟨h₀.ready.handle, h₀.ready.registered, h₀.ready.header, h₀.ready.body⟩, h₀.events⟩
  · exact h₀

theorem sessionEnd_quiet (hr : Ready reg w.session) (closes : Bool) :
    ((sessionEnd reg closes).run w).Returns (Quietly reg w) := by
  have h₀ : Quietly reg w w := Quietly.same hr rfl
  rw [sessionEnd, run_bind_get]
  refine returns_bind (returns_attempt ?_) ?_
  · split_ifs
    · exact invoke_quiet quiet_timeout h₀
    · exact h₀
  · intro _ t _ ht
    apply returns_bind (sessionClose_quiet ht closes)
    intro _ u _ hu
    exact invoke_quiet quiet_destroy hu

/-- The greeting is one call of the response handler; the session is read from if it succeeds. -/
theorem sessionGreet_cases (hr : Ready reg w.session) :
    ∃ r w', Called reg (.response 1) r w w' ∧ (sessionGreet reg).run w =
      if r = 0 then .ok () { w' with session := { w'.session with sessionState := sessionRead } }
      else .thrown w' := by
  obtain ⟨r, w', hc, hrun⟩ := invokeResult_some (.response 1) hr rfl
  refine ⟨r, w', hc, ?_⟩
  rw [sessionGreet, run_bind_ok hrun]
  by_cases h0 : r = 0
  · rw [if_pos h0, if_pos h0, if_neg (by decide)]
    rfl
  · rw [if_neg h0, if_neg h0, if_pos (by decide)]
    rfl

theorem sessionHandler_returns (hr : Ready reg w.session) (ht : w.session.timeout = false)
    (he : w.events = []) (input : List (Readline × Bool)) (closes : Bool) :
    ((sessionHandler reg input closes).run w).Returns fun w' =>
      ∃ r es, w'.events = .call (.response 1) r :: es ∧ readsOf es <+: input.map Prod.fst ∧ Served es := by
  let w₁ : World σ := { w with session := { w.session with sessionState := sessionGreeting } }
  have hr₁ : Ready reg w₁.session := ⟨hr.handle, hr.registered, hr.header, hr.body⟩
  obtain ⟨r, w₂, hc, hgreet⟩ := sessionGreet_cases hr₁
  have he₂ : w₂.events = [.call (.response 1) r] := by
    rw [hc.events]
    exact congrArg (· ++ [Event.call (.response 1) r]) he
  rw [sessionHandler, run_bind_modifySession]
  by_cases h0 : r = 0
  · -- the greeting was sent, and the loop takes over
    rw [if_pos h0] at hgreet
    obtain ⟨b, w₃, es, hloop, hr₃, he₃, hreads, hserved⟩ := readLoop_served input
      { w₂ with session := { w₂.session with sessionState := sessionRead } }
      ⟨hc.ready.handle, hc.ready.registered, hc.ready.header, hc.ready.body⟩ (hc.timeout.trans ht)
    have hevents : w₃.events = .call (.response 1) r :: es := by
      rw [he₃]
      exact congrArg (· ++ es) he₂
    rw [run_bind_ok hgreet, run_bind_ok hloop]
    cases b with
    | false =>
      refine ⟨r, es, hevents, hreads, ?_⟩
      simpa using hserved [] (by simp)
    | true =>
      rw [if_pos rfl]
      apply (sessionEnd_quiet hr₃ closes).imp
      intro w' hq
      obtain ⟨rest, hrest, hquiet⟩ := hq.events
      refine ⟨r, es ++ rest, by rw [hrest, hevents, List.cons_append], ?_, hserved rest hquiet⟩
      rwa [readsOf_append_quiet es hquiet]
  · rw [if_neg h0] at hgreet
    rw [run_bind_thrown hgreet]
    exact ⟨r, [], he₂, List.nil_prefix, Served.quiet (by simp)⟩

/-- Every run of `session_handler`, on any input and with any hooks, begins with one greeting and then
serves the input in order, from its first read on. -/
theorem session_handler_in_order (hr : Ready reg w.session) (ht : w.session.timeout = false)
    (he : w.events = []) (input : List (Readline × Bool)) (closes : Bool) :
    ∃ w' r es, ((sessionHandler reg input closes).run w = .ok () w' ∨
        (sessionHandler reg input closes).run w = .thrown w') ∧
      w'.events = .call (.response 1) r :: es ∧ readsOf es <+: input.map Prod.fst ∧ Served es := by
  have hret := sessionHandler_returns hr ht he input closes
  cases ho : (sessionHandler reg input closes).run w with
  | ok u w' =>
    rw [ho] at hret
    obtain ⟨r, es, hev, hreads, hserved⟩ := hret
    exact ⟨w', r, es, Or.inl rfl, hev, hreads, hserved⟩
  | thrown w' =>
    rw [ho] at hret
    obtain ⟨r, es, hev, hreads, hserved⟩ := hret
    exact ⟨w', r, es, Or.inr rfl, hev, hreads, hserved⟩
  | halt e =>
    rw [ho] at hret
    exact hret.elim

/-- A controller whose request handler fails and whose other hooks succeed. -/
def failing : Controller Unit where
  requestHandler s _ := ⟨5, s.sessionState, 0, ofText [], ofText [], false, ()⟩
  responseHandler s _ := ⟨0, s.sessionState, 0, ofText [], ofText [], false, ()⟩
  timeoutHandler := none
  overloadHandler := none
  sessionInit := none
  sessionReset := none
  sessionDestroy := none

def failingRegistry : Registry Unit := ⟨2, fun _ => failing⟩

/-- A session just accepted for the controller at handle 1. -/
def accepted : World Unit := ⟨⟨2, ⟨0, (ofText []).1, (ofText []).1, false⟩, (), 1, false, true⟩, []⟩

/-- A line, a failed read and a timeout. -/
def someInput : List (Readline × Bool) := [(.line (ofText [97]).1, true), (.failure, true), (.timeout, true)]

theorem session_handler_in_order_failing :
    Ready failingRegistry accepted.session ∧
      ∃ w' r es, ((sessionHandler failingRegistry someInput true).run accepted = .ok () w' ∨
          (sessionHandler failingRegistry someInput true).run accepted = .thrown w') ∧
        w'.events = .call (.response 1) r :: es ∧ readsOf es <+: someInput.map Prod.fst ∧ Served es := by
  have hready : Ready failingRegistry accepted.session :=
    ⟨by decide, by decide, (ofText []).2, (ofText []).2⟩
  exact ⟨hready, session_handler_in_order hready rfl rfl someInput true⟩

end NcSession
