import Mathlib.Logic.Relation
import NaturalC.NcSessionRuns
import NaturalC.NcSessionWire
import NaturalC.NcThreads
import NaturalC.NcWire

/-!
# A conversation

A client prints requests, a session answers them through its hooks, and both read what the other has printed.
The two sides and the two directions of the connection take turns in any order. The client may do what it
likes: it need not wait for an answer before it prints the next request.
-/
namespace NcSession

open Throwing Throwing.Act NcString Lines
open NcSocket (Sock Reader Rel Good Opened Message Carries Arrives wire)

/-- Both sides, what is on its way between them, and what the client has printed and read. -/
structure Conversation (σ : Type) where
  /-- The lines that have been printed in full. -/
  requests : List Bytes
  /-- What has been sent of a call that has failed. -/
  torn : Bytes
  toServer : Bytes
  server : Client σ
  toClient : Bytes
  client : Sock
  replies : List Bytes

variable {σ : Type} {reg : Registry σ} {out : σ → List Bytes} {w w' : World σ} {c c' c₀ : Conversation σ}

def Conversation.said (out : σ → List Bytes) (c : Conversation σ) : List Bytes := out c.server.world.session.data

/-- A `read(2)` of the session returns. -/
def Client.reads (c : Client σ) (e : NcSocket.Event) : Client σ :=
  { c with sock := { c.sock with reads := c.sock.reads ++ [e] } }

/-- One of the two sides does something. What the hooks print is kept in the data of the protocol: `out` are the
lines that they have printed so far. -/
inductive Step (reg : Registry σ) (out : σ → List Bytes) (c : Conversation σ) : Conversation σ → Prop
  | prints {l : Bytes} {result : Int} {flight : Bytes} (hl : Message l) (htorn : c.torn = [])
      (hresult : result ≤ (l ++ [10]).length)
      (hrun : (NcSocket.socketPrintf result (l ++ [10])).run c.toServer = .ok () flight) :
      Step reg out c { c with requests := c.requests ++ [l], toServer := flight }
  | breaks {l : Bytes} {result : Int} {flight : Bytes} (hl : Message l) (htorn : c.torn = [])
      (hresult : result ≤ (l ++ [10]).length)
      (hrun : (NcSocket.socketPrintf result (l ++ [10])).run c.toServer = .thrown flight) :
      Step reg out c { c with torn := flight.drop c.toServer.length, toServer := flight }
  | serverReads {e : NcSocket.Event} {rest : Bytes} (h : Arrives c.toServer e rest) :
      Step reg out c { c with toServer := rest, server := c.server.reads e }
  | serves {x : Option Unit} {server : Client σ} (hstate : c.server.world.session.sessionState = sessionRead)
      (hrun : (attempt (processRequest reg)).run c.server = .ok x server) :
      Step reg out c { c with
        server := server,
        toClient := c.toClient ++ wire ((out server.world.session.data).drop (c.said out).length) }
  | clientReads {e : NcSocket.Event} {rest : Bytes} (h : Arrives c.toClient e rest) :
      Step reg out c { c with toClient := rest, client := { c.client with reads := c.client.reads ++ [e] } }
  | gets {dest line : Str} {client : Sock} (hdest : dest.WF)
      (hrun : (NcSocket.socketReadline dest).run c.client = .ok line client) :
      Step reg out c { c with client := client, replies := c.replies ++ [line.text] }

/-- The hooks add lines to what they have printed. -/
def Speaks (reg : Registry σ) (out : σ → List Bytes) : Prop :=
  ∀ i hook f (s : Session σ), (reg.controller i).hook hook = some f →
    ∃ more, (∀ l ∈ more, Message l) ∧ out (f s).data = out s.data ++ more

/-- The connection is there and the session has greeted; nothing has been read or requested. -/
structure Conversation.Opens (reg : Registry σ) (out : σ → List Bytes) (c : Conversation σ) : Prop where
  ready : Ready reg c.server.world.session
  inTime : c.server.world.session.timeout = false
  requests : c.requests = []
  torn : c.torn = []
  toServer : c.toServer = []
  server : Opened c.server.sock []
  serverFlag : c.server.sock.timeout = false
  said : ∀ l ∈ c.said out, Message l
  toClient : c.toClient = wire (c.said out)
  client : Opened c.client []
  clientFlag : c.client.timeout = false
  replies : c.replies = []

/-! ## What the hooks print -/

/-- More lines may have been printed. -/
def Adds (out : σ → List Bytes) (w w' : World σ) : Prop :=
  ∃ more, (∀ l ∈ more, Message l) ∧ out w'.session.data = out w.session.data ++ more

theorem Adds.trans {w₁ w₂ w₃ : World σ} (h : Adds out w₁ w₂) (h' : Adds out w₂ w₃) : Adds out w₁ w₃ := by
  obtain ⟨more, hmore, he⟩ := h
  obtain ⟨rest, hrest, he'⟩ := h'
  refine ⟨more ++ rest, ?_, by rw [he', he, List.append_assoc]⟩
  intro l hl
  rcases List.mem_append.mp hl with hl | hl
  · exact hmore l hl
  · exact hrest l hl

/-- Whatever a session does adds what its hooks print. -/
theorem traced_adds (hout : Speaks reg out) : Traced reg (Adds out) where
  quiet := fun h => ⟨[], by simp, by rw [h.data, List.append_nil]⟩
  trans := Adds.trans
  hook := fun hf => hout _ _ _ _ hf

/-! ## The invariant -/

/-- The session has dealt with the first requests in their order, and the client has got the first of the lines
that the hooks have printed. -/
structure InOrder (reg : Registry σ) (out : σ → List Bytes) (w₀ : World σ) (texts : List Str) (c : Conversation σ) :
    Prop where
  ready : Ready reg c.server.world.session
  inTime : c.server.world.session.timeout = false
  requests : ∀ l ∈ c.requests, Message l
  torn : ∃ l, Message l ∧ List.IsPrefix c.torn l
  said : ∀ l ∈ c.said out, Message l
  handled : List.IsPrefix (texts.map Str.text) (c.requests.map (trim 13))
  loop : (readLoop reg (texts.map fun t => (.line t, true))).run w₀ =
    .ok (decide (c.server.world.session.sessionState ≠ sessionRead)) c.server.world
  toServer : ∃ r received seen,
    Carries c.requests c.torn c.toServer c.server.sock texts.length r received seen
  replied : List.IsPrefix c.replies ((c.said out).map (trim 13))
  toClient : ∃ r received seen, Carries (c.said out) [] c.toClient c.client c.replies.length r received seen

variable {texts : List Str} {w₀ : World σ}

/-- Nothing of a line has been sent. -/
theorem torn_nil : ∃ l, Message l ∧ List.IsPrefix [] l :=
  ⟨[], ⟨List.not_mem_nil, List.not_mem_nil, by intro a b hab; simp at hab, by decide⟩, List.nil_prefix⟩

/-- The next line behind a prefix. -/
theorem prefix_snoc {α : Type} {xs ys : List α} {y : α} (h : List.IsPrefix xs ys) (hy : ys[xs.length]? = some y) :
    List.IsPrefix (xs ++ [y]) ys := by
  obtain ⟨zs, rfl⟩ := h
  cases zs with
  | nil => simp at hy
  | cons z zs =>
    obtain rfl : z = y := by simpa using hy
    exact ⟨zs, by simp⟩

theorem inOrder_opens (h : c.Opens reg out) : InOrder reg out c.server.world [] c where
  ready := h.ready
  inTime := h.inTime
  requests := by simp [h.requests]
  torn := by
    rw [h.torn]
    exact torn_nil
  said := h.said
  handled := List.nil_prefix
  loop := rfl
  toServer := by
    have hcarries := NcSocket.carries_opened h.server h.serverFlag []
    rw [h.requests, h.torn, h.toServer]
    exact ⟨_, _, _, hcarries⟩
  replied := by
    rw [h.replies]
    exact List.nil_prefix
  toClient := by
    have hcarries := NcSocket.carries_opened h.client h.clientFlag (c.said out)
    rw [h.toClient, h.replies]
    exact ⟨_, _, _, hcarries⟩

/-- The session either serves the next request or waits for it. -/
theorem serve_cases (reg : Registry σ) {k : Nat} {r : Reader} {received seen : Bytes}
    (h : Carries c.requests c.torn c.toServer c.server.sock k r received seen)
    (hreq : ∀ l ∈ c.requests, Message l) (ht : ∃ l, Message l ∧ List.IsPrefix c.torn l) :
    (∃ l d s' r' seen', c.requests[k]? = some l ∧ d.text = trim 13 l ∧
      Carries c.requests c.torn c.toServer s' (k + 1) r' received seen' ∧
      ∀ x w', (attempt (sessionProcessRequest reg (.line d) true)).run c.server.world = .ok x w' →
        (attempt (processRequest reg)).run c.server = .ok x ⟨w', s'⟩) ∨
    ((processRequest reg).run c.server = .halt .diverge ∧
      (c.torn = [] → c.toServer = [] → k = c.requests.length)) := by
  rcases h.next hreq ht with ⟨l, r', seen', hl, hread, hnext⟩ | ⟨hblocked, hend⟩
  · left
    have hlive : r.readline.1 ≠ .blocked := by
      rw [hread]
      simp
    obtain ⟨y, s', hy, hrel, hflag, hrun⟩ := processRequest_hears reg h.rel h.good hlive fun _ => h.flag
    have hconn : r.readline.2.connected = true := by
      have hcarries := hnext s' (by rw [hread] at hrel; exact hrel) (hflag ⟨trim 13 l, by rw [hread]⟩)
      rw [hread]
      exact hcarries.awaits.reads.connected
    rw [hread] at hy hrel
    cases hy with
    | @line t d htext =>
      refine ⟨l, d, s', r', seen', hl, htext, hnext s' hrel (hflag ⟨trim 13 l, by rw [hread]⟩), ?_⟩
      intro x w' hw'
      have hserve := hrun c.server.world
      rw [hconn, run_onWorld] at hserve
      have hsame : (attempt (processRequest reg)).run c.server = (attempt (processRequest reg)).run
          ⟨c.server.world, c.server.sock⟩ := rfl
      rw [run_attempt] at hw'
      rw [hsame, run_attempt, hserve]
      cases hm : (sessionProcessRequest reg (.line d) true).run c.server.world with
      | ok a t =>
        rw [hm] at hw'
        obtain ⟨rfl, rfl⟩ := Outcome.ok.inj hw'
        rfl
      | thrown t =>
        rw [hm] at hw'
        obtain ⟨rfl, rfl⟩ := Outcome.ok.inj hw'
        rfl
      | halt e =>
        rw [hm] at hw'
        cases hw'
  · right
    refine ⟨?_, hend⟩
    obtain ⟨line, hline, hnew⟩ : ∃ line : Str, NcString.Holds line [] ∧
        ∀ x : Client σ, (strNew true true : Act (Client σ) Str).run x = .ok line x :=
      ⟨_, ⟨rfl, _, rfl, rfl⟩, fun _ => rfl⟩
    have hcall := (NcSocket.readline_matches h.rel h.good hline).2
    rw [hblocked] at hcall
    cases hrun : (NcSocket.socketReadline line).run c.server.sock with
    | ok d s' =>
      rw [hrun] at hcall
      rcases hcall.1 with ⟨t, hgot, -⟩ | ⟨htimeout, -⟩
      · cases hgot
      · cases htimeout
    | thrown s' =>
      rw [hrun] at hcall
      cases hcall.1
    | halt e =>
      rw [hrun] at hcall
      obtain ⟨-, rfl⟩ := hcall
      have hsock : (onSock (NcSocket.socketReadline line)).run c.server = .halt .diverge := by
        rw [onSock, run_zoom, hrun]
      rw [processRequest, run_bind_ok (hnew _), run_bind_halt (run_attempt_halt hsock)]

theorem inOrder_step (hout : Speaks reg out) (h : InOrder reg out w₀ texts c) (hstep : Step reg out c c') :
    ∃ texts', InOrder reg out w₀ texts' c' := by
  obtain ⟨r, received, seen, hserver⟩ := h.toServer
  obtain ⟨q, received', seen', hclient⟩ := h.toClient
  cases hstep with
  | @prints l result flight hl htorn hresult hrun =>
    refine ⟨texts, { h with requests := ?_, handled := ?_, toServer := ⟨r, received, seen, ?_⟩ }⟩
    · intro m hm
      rcases List.mem_append.mp hm with hm | hm
      · exact h.requests m hm
      · rw [List.mem_singleton.mp hm]
        exact hl
    · rw [List.map_append]
      exact h.handled.trans (List.prefix_append _ _)
    · rcases NcSocket.socketPrintf_cases (by simp) hresult c.toServer with ⟨-, hok⟩ | ⟨-, hthrown⟩
      · rw [hrun] at hok
        obtain ⟨-, rfl⟩ := Outcome.ok.inj hok
        apply hserver.printed
        rw [htorn, NcSocket.wire_append, NcSocket.wire_singleton]
        simp
      · rw [hrun] at hthrown
        cases hthrown
  | @breaks l result flight hl htorn hresult hrun =>
    rcases NcSocket.socketPrintf_cases (by simp) hresult c.toServer with ⟨-, hok⟩ | ⟨hshort, hthrown⟩
    · rw [hrun] at hok
      cases hok
    · rw [hrun] at hthrown
      obtain rfl := Outcome.thrown.inj hthrown
      have hsent : (l ++ [10]).take result.toNat = l.take result.toNat := by
        rw [List.length_append, List.length_singleton] at hshort
        rw [List.take_append_of_le_length (by omega)]
      rw [hsent]
      refine ⟨texts, { h with torn := ⟨l, hl, ?_⟩, toServer := ⟨r, received, seen, ?_⟩ }⟩
      · rw [List.drop_left]
        exact List.take_prefix _ _
      · apply hserver.printed
        rw [htorn, List.drop_left, List.append_nil]
  | @serverReads e rest harrives =>
    obtain ⟨r', received'', hserver'⟩ := hserver.delivered (NcSocket.talk_torn h.requests h.torn) harrives
    exact ⟨texts, { h with toServer := ⟨r', received'', seen, hserver'⟩ }⟩
  | @serves x server hstate hrun =>
    rcases serve_cases reg hserver h.requests h.torn with ⟨l, d, s', r', seen'', hl, htext, hnext, hserve⟩ | ⟨hhalt, -⟩
    · obtain ⟨-, -, w', hready, htime, -, o, hworld⟩ := processRequest_line h.ready h.inTime d true
      rw [hserve o w' hworld] at hrun
      obtain ⟨rfl, rfl⟩ := Outcome.ok.inj hrun
      obtain ⟨more, hmore, hsaid⟩ :=
        (leaves_attempt ((traced_adds hout).processRequest (.line d) true c.server.world)).of_ok hworld
      have hdrop : (out w'.session.data).drop (c.said out).length = more := by
        rw [hsaid]
        exact List.drop_left
      rw [hdrop]
      have hloop := NcAccept.readLoop_snoc h.loop hstate hworld
      refine ⟨texts ++ [d], { h with
        ready := hready, inTime := htime, said := ?_, handled := ?_, loop := ?_,
        toServer := ⟨r', received, seen'', ?_⟩, replied := ?_,
        toClient := ⟨q, received', seen', ?_⟩ }⟩
      · intro m hm
        change m ∈ out w'.session.data at hm
        rw [hsaid] at hm
        rcases List.mem_append.mp hm with hm | hm
        · exact h.said m hm
        · exact hmore m hm
      · rw [List.map_append]
        apply prefix_snoc h.handled
        rw [List.length_map, List.getElem?_map, hl, htext]
        rfl
      · rw [List.map_append]
        exact hloop
      · rw [List.length_append, List.length_singleton]
        exact hnext
      · change List.IsPrefix c.replies ((out w'.session.data).map (trim 13))
        rw [hsaid, List.map_append]
        exact h.replied.trans (List.prefix_append _ _)
      · change Carries (out w'.session.data) [] _ c.client c.replies.length q received' seen'
        apply hclient.printed
        rw [hsaid, NcSocket.wire_append, List.append_nil, List.append_nil]
        rfl
    · have hnone := run_attempt_halt hhalt
      rw [hrun] at hnone
      cases hnone
  | @clientReads e rest harrives =>
    have htalk := NcSocket.talk_torn h.said torn_nil
    obtain ⟨q', received'', hclient'⟩ := hclient.delivered htalk harrives
    exact ⟨texts, { h with toClient := ⟨q', received'', seen', hclient'⟩ }⟩
  | @gets dest line client hdest hrun =>
    rcases hclient.socketReadline h.said torn_nil hdest with
      ⟨l, d, s', q', seen'', hl, hread, htext, hnext⟩ | ⟨hhalt, -⟩
    · rw [hrun] at hread
      obtain ⟨rfl, rfl⟩ := Outcome.ok.inj hread
      refine ⟨texts, { h with replied := ?_, toClient := ⟨q', received', seen'', ?_⟩ }⟩
      · apply prefix_snoc h.replied
        change ((c.said out).map (trim 13))[c.replies.length]? = _
        rw [List.getElem?_map, hl, htext]
        rfl
      · rw [List.length_append, List.length_singleton]
        exact hnext
    · rw [hrun] at hhalt
      cases hhalt

theorem inOrder_run (hout : Speaks reg out) (h : InOrder reg out w₀ texts c)
    (hrun : Relation.ReflTransGen (Step reg out) c c') : ∃ texts', InOrder reg out w₀ texts' c' := by
  induction hrun with
  | refl => exact ⟨texts, h⟩
  | tail _ hstep ih =>
    obtain ⟨texts', h'⟩ := ih
    exact inOrder_step hout h' hstep

/-- However the two sides take turns: the session has done what its loop does on the first of the requests in
their order, and the client has got the first of the lines that the hooks have printed, in theirs. When nothing
is on its way and both sides wait, nothing is left over, provided that no call has failed in the middle of a
request. -/
theorem conversation_in_order (hout : Speaks reg out) (hc : c.Opens reg out)
    (hrun : Relation.ReflTransGen (Step reg out) c c') :
    ∃ texts : List Str, List.IsPrefix (texts.map Str.text) (c'.requests.map (trim 13)) ∧
      (readLoop reg (texts.map fun t => (.line t, true))).run c.server.world =
        .ok (decide (c'.server.world.session.sessionState ≠ sessionRead)) c'.server.world ∧
      List.IsPrefix c'.replies ((c'.said out).map (trim 13)) ∧
      (c'.torn = [] → c'.toServer = [] → (processRequest reg).run c'.server = .halt .diverge →
        texts.map Str.text = c'.requests.map (trim 13)) ∧
      (c'.toClient = [] → (∃ dest : Str, dest.WF ∧ (NcSocket.socketReadline dest).run c'.client = .halt .diverge) →
        c'.replies = (c'.said out).map (trim 13)) := by
  obtain ⟨texts, h⟩ := inOrder_run hout (inOrder_opens hc) hrun
  refine ⟨texts, h.handled, h.loop, h.replied, ?_, ?_⟩
  · intro htorn hflight hwaits
    obtain ⟨r, received, seen, hserver⟩ := h.toServer
    rcases serve_cases reg hserver h.requests h.torn with ⟨l, d, s', r', seen', -, -, -, hserve⟩ | ⟨-, hend⟩
    · obtain ⟨-, -, w', -, -, -, o, hw'⟩ := processRequest_line h.ready h.inTime d true
      have hnone := run_attempt_halt hwaits
      rw [hserve o w' hw'] at hnone
      cases hnone
    · apply h.handled.eq_of_length
      rw [List.length_map, List.length_map]
      exact hend htorn hflight
  · rintro hflight ⟨dest, hdest, hwaits⟩
    obtain ⟨r, received, seen, hclient⟩ := h.toClient
    rcases hclient.socketReadline h.said torn_nil hdest with ⟨l, d, s', r', seen', -, hread, -, -⟩ | ⟨-, hend⟩
    · rw [hwaits] at hread
      cases hread
    · apply h.replied.eq_of_length
      rw [List.length_map]
      exact hend rfl hflight

theorem message_short {l : Bytes} (hnul : 0 ∉ l) (hlf : 10 ∉ l) (hcr : 13 ∉ l) (hlen : l.length ≤ 2) : Message l := by
  refine ⟨hnul, hlf, ?_, ?_⟩
  · intro a b hab
    exact absurd (by simp [hab]) hcr
  · have hmax : NcSocket.recvBufSize + 2 ≤ stringMax := by decide
    omega

theorem message_ok : Message [111, 107] := message_short (by decide) (by decide) (by decide) (by decide)

/-- A controller that answers every request with a line, and keeps what it has printed. -/
def answering : Controller (List Bytes) where
  requestHandler s _ := ⟨0, s.sessionState, 0, ofText [], ofText [], false, s.data⟩
  responseHandler s _ := ⟨0, s.sessionState, 0, ofText [], ofText [], false, s.data ++ [[111, 107]]⟩
  timeoutHandler := none
  overloadHandler := none
  sessionInit := none
  sessionReset := none
  sessionDestroy := none

def answeringRegistry : Registry (List Bytes) := ⟨2, fun _ => answering⟩

/-- A session that waits for its first request. -/
def waiting : World (List Bytes) := ⟨⟨sessionRead, ⟨0, (ofText []).1, (ofText []).1, false⟩, [], 1, false, true⟩, []⟩

def conversation : Conversation (List Bytes) :=
  ⟨[], [], [], ⟨waiting, NcSocket.freshSock []⟩, [], NcSocket.freshSock [], []⟩

theorem speaks_answering : Speaks answeringRegistry id := by
  intro i hook f s hf
  cases hook with
  | request line =>
    obtain rfl := Option.some.inj hf
    exact ⟨[], by simp, (List.append_nil _).symm⟩
  | response arg =>
    obtain rfl := Option.some.inj hf
    refine ⟨[[111, 107]], ?_, rfl⟩
    intro l hl
    rw [List.mem_singleton.mp hl]
    exact message_ok
  | init => cases hf
  | reset => cases hf
  | timeout => cases hf
  | overload => cases hf
  | destroy => cases hf

theorem opens_conversation : conversation.Opens answeringRegistry id where
  ready := ⟨by decide, by decide, (ofText []).2, (ofText []).2⟩
  inTime := rfl
  requests := rfl
  torn := rfl
  toServer := rfl
  server := (NcSocket.fresh_freshSock []).opened
  serverFlag := rfl
  said := by simp [Conversation.said, conversation, waiting]
  toClient := rfl
  client := (NcSocket.fresh_freshSock []).opened
  clientFlag := rfl
  replies := rfl

/-- A request has been printed and read. -/
def requested : Conversation (List Bytes) :=
  { conversation with requests := [[97]], server := conversation.server.reads (.data [97, 10]) }

theorem requested_served :
    (match (attempt (processRequest answeringRegistry)).run requested.server with
      | .ok _ d => decide (d.world.session.data = [[111, 107]])
      | _ => false) = true := by decide +kernel


/-- A client that has read the answer. -/
def answered : Sock := { NcSocket.freshSock [] with reads := [.data [111, 107, 10]] }

theorem answered_gets :
    (match (NcSocket.socketReadline (ofText []).1).run answered with
      | .ok line _ => decide (line.text = [111, 107])
      | _ => false) = true := by decide +kernel

/-- A request and its answer. -/
theorem conversation_run : ∃ c, Relation.ReflTransGen (Step answeringRegistry id) conversation c ∧
    c.requests = [[97]] ∧ c.said id = [[111, 107]] ∧ c.replies = [[111, 107]] := by
  have hprints : Step answeringRegistry id conversation
      { conversation with requests := [[97]], toServer := [97, 10] } :=
    .prints (message_short (by decide) (by decide) (by decide) (by decide)) rfl (by decide : (2 : Int) ≤ 2) rfl
  have hrequest : Arrives ([97, 10] ++ []) (.data [97, 10]) [] := .data ⟨by decide, by decide⟩
  have hanswer : Arrives ([111, 107, 10] ++ []) (.data [111, 107, 10]) [] := .data ⟨by decide, by decide⟩
  have hreads : Step answeringRegistry id { conversation with requests := [[97]], toServer := [97, 10] } requested :=
    .serverReads hrequest
  cases hserve : (attempt (processRequest answeringRegistry)).run requested.server with
  | thrown d =>
    have hserved := requested_served
    rw [hserve] at hserved
    cases hserved
  | halt e =>
    have hserved := requested_served
    rw [hserve] at hserved
    cases hserved
  | ok x d =>
    have hserved := requested_served
    rw [hserve] at hserved
    have hsaid : d.world.session.data = [[111, 107]] := of_decide_eq_true hserved
    cases hget : (NcSocket.socketReadline (ofText []).1).run answered with
    | thrown s =>
      have hgot := answered_gets
      rw [hget] at hgot
      cases hgot
    | halt e =>
      have hgot := answered_gets
      rw [hget] at hgot
      cases hgot
    | ok line s =>
      have hgot := answered_gets
      rw [hget] at hgot
      have htext : line.text = [111, 107] := of_decide_eq_true hgot
      have hserves : Step answeringRegistry id requested
          { requested with server := d, toClient := wire ((id d.world.session.data).drop 0) } :=
        .serves rfl hserve
      rw [hsaid] at hserves
      have hclient : Step answeringRegistry id { requested with server := d, toClient := [111, 107, 10] }
          { requested with server := d, client := answered } := .clientReads hanswer
      have hgets : Step answeringRegistry id { requested with server := d, client := answered }
          { requested with server := d, client := s, replies := [line.text] } := .gets (ofText []).2 hget
      refine ⟨_, .tail (.tail (.tail (.tail (.tail .refl hprints) hreads) hserves) hclient) hgets, rfl, hsaid, ?_⟩
      rw [htext]

theorem conversation_in_order_answered :
    ∃ c' : Conversation (List Bytes), c'.requests = [[97]] ∧ c'.replies = [[111, 107]] ∧
    ∃ texts : List Str, List.IsPrefix (texts.map Str.text) (c'.requests.map (trim 13)) ∧
      (readLoop answeringRegistry (texts.map fun t => (.line t, true))).run waiting =
        .ok (decide (c'.server.world.session.sessionState ≠ sessionRead)) c'.server.world ∧
      List.IsPrefix c'.replies ((c'.said id).map (trim 13)) ∧
      (c'.torn = [] → c'.toServer = [] → (processRequest answeringRegistry).run c'.server = .halt .diverge →
        texts.map Str.text = c'.requests.map (trim 13)) ∧
      (c'.toClient = [] → (∃ dest : Str, dest.WF ∧ (NcSocket.socketReadline dest).run c'.client = .halt .diverge) →
        c'.replies = (c'.said id).map (trim 13)) := by
  obtain ⟨c, hrun, hrequests, -, hreplies⟩ := conversation_run
  have h := conversation_in_order speaks_answering opens_conversation hrun
  exact ⟨c, hrequests, hreplies, h⟩

end NcSession
