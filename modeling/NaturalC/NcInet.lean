import NaturalC.NcBlocklist

/-!
# Addresses and ports

`session_is_loopback` compares the text of an address with `127.0.0.1`, and `socket_bind` changes the
port of a user who is not root, once as a number of the host and once as one of the network.
-/
namespace NcInet

open Throwing Throwing.Act NcString NcDns

variable {σ : Type}

/-! ## Loopback -/

/-- 127.0.0.1 -/
def loopback : InAddr := ⟨127, 0, 0, 1⟩

/-- `"127.0.0.1"`. -/
def loopbackText : Bytes := [49, 50, 55, 46, 48, 46, 48, 46, 49]

/-- `session_is_loopback`, for a session with this address of the remote host. -/
def sessionIsLoopback (sinAddr : InAddr) : Act σ Unit := do
  let buf ← strNew true true
  let (_, buf) ← onLocal (strFromInet sinAddr) buf
  let order ← strCmp buf (charArray loopbackText)
  if order < 0 then throwing else pure ()

theorem strcmp_append_left (p u v : Bytes) : strcmp (p ++ u) (p ++ v) = strcmp u v := by
  induction p with
  | nil => rfl
  | cons b p ih => rw [List.cons_append, List.cons_append, strcmp, if_pos rfl, ih]

/-- Two texts that differ before one of them ends compare by what they start with. -/
theorem strcmp_append {u v : Bytes} (huv : ¬ u <+: v) (hvu : ¬ v <+: u) (x y : Bytes) :
    strcmp (u ++ x) (v ++ y) = strcmp u v := by
  induction u generalizing v with
  | nil => exact absurd (List.nil_prefix) huv
  | cons b u ih =>
    cases v with
    | nil => exact absurd (List.nil_prefix) hvu
    | cons c v =>
      rw [List.cons_append, List.cons_append, strcmp, strcmp]
      by_cases hbc : b = c
      · rw [if_pos hbc, if_pos hbc]
        apply ih
        · intro h
          exact huv (by rw [hbc]; exact List.cons_prefix_cons.mpr ⟨rfl, h⟩)
        · intro h
          exact hvu (by rw [hbc]; exact List.cons_prefix_cons.mpr ⟨rfl, h⟩)
      · rw [if_neg hbc, if_neg hbc]

theorem run_sessionIsLoopback (sinAddr : InAddr) (st : σ) :
    (sessionIsLoopback sinAddr).run st =
      if strcmp (dotted sinAddr.quad) loopbackText < 0 then .thrown st else .ok () st := by
  obtain ⟨s, hnew, hs, -⟩ := strNew_holds st
  obtain ⟨t, hfrom, ht⟩ := strFromInet_holds hs sinAddr
  have hkey : cString (charArray loopbackText) = some loopbackText := cString_charArray _ (by decide)
  rw [sessionIsLoopback, run_bind_ok hnew, run_bind_ok (run_onLocal_ok hfrom st), run_bind_ok (strCmp_holds ht hkey st),
    cText_of_nulFree (nulFree_dotted (quad_digits sinAddr))]
  split
  · rfl
  · rfl

theorem forall_byte {P : UInt8 → Prop} (h : ∀ n < 256, P (UInt8.ofNat n)) (b : UInt8) : P b := by
  have hb := h b.toNat b.toNat_lt
  rwa [UInt8.ofNat_toNat] at hb

/-- `u` and `v` differ before one of them ends. -/
def Differ (u v : Bytes) : Prop := ¬ u <+: v ∧ ¬ v <+: u

instance (u v : Bytes) : Decidable (Differ u v) := inferInstanceAs (Decidable (_ ∧ _))

/-- The first parts whose digits stand before those of 127. -/
def Before127 (a : UInt8) : Prop := a < 2 ∨ (10 ≤ a ∧ a < 13) ∨ (100 ≤ a ∧ a < 127)

instance (a : UInt8) : Decidable (Before127 a) := inferInstanceAs (Decidable (_ ∨ _ ∨ _))

theorem first_part (a : UInt8) (ha : a ≠ 127) : Differ (decimal a ++ [46]) [49, 50, 55, 46] ∧
    (strcmp (decimal a ++ [46]) [49, 50, 55, 46] < 0 ↔ Before127 a) :=
  forall_byte (P := fun a => a ≠ 127 → Differ (decimal a ++ [46]) [49, 50, 55, 46] ∧
    (strcmp (decimal a ++ [46]) [49, 50, 55, 46] < 0 ↔ Before127 a)) (by decide +kernel) a ha

theorem zero_part (b : UInt8) (hb : b ≠ 0) : Differ (decimal b ++ [46]) [48, 46] ∧
    ¬ strcmp (decimal b ++ [46]) [48, 46] < 0 :=
  forall_byte (P := fun b => b ≠ 0 → Differ (decimal b ++ [46]) [48, 46] ∧
    ¬ strcmp (decimal b ++ [46]) [48, 46] < 0) (by decide +kernel) b hb

theorem last_part (d : UInt8) : strcmp (decimal d) [49] < 0 ↔ d = 0 :=
  forall_byte (P := fun d => strcmp (decimal d) [49] < 0 ↔ d = 0) (by decide +kernel) d

theorem dotted_quad (sinAddr : InAddr) : dotted sinAddr.quad = decimal sinAddr.a ++ [46] ++
    (decimal sinAddr.b ++ [46] ++ (decimal sinAddr.c ++ [46] ++ decimal sinAddr.d)) := by
  simp [dotted, InAddr.quad]

/-- The text of an address stands before `127.0.0.1`. -/
theorem before_loopback (sinAddr : InAddr) : strcmp (dotted sinAddr.quad) loopbackText < 0 ↔
    Before127 sinAddr.a ∨ sinAddr = ⟨127, 0, 0, 0⟩ := by
  obtain ⟨a, b, c, d⟩ := sinAddr
  rw [dotted_quad, show loopbackText = [49, 50, 55, 46] ++ ([48, 46] ++ ([48, 46] ++ [49])) from rfl]
  simp only [InAddr.mk.injEq]
  by_cases ha : a = 127
  · subst ha
    have hzero : strcmp (decimal b ++ [46] ++ (decimal c ++ [46] ++ decimal d)) ([48, 46] ++ ([48, 46] ++ [49])) < 0 ↔
        b = 0 ∧ c = 0 ∧ d = 0 := by
      by_cases hb : b = 0
      · subst hb
        rw [show decimal 0 ++ [46] = [48, 46] by decide, strcmp_append_left]
        by_cases hc : c = 0
        · subst hc
          rw [show decimal 0 ++ [46] = [48, 46] by decide, strcmp_append_left, last_part]
          simp
        · obtain ⟨⟨huv, hvu⟩, hnot⟩ := zero_part c hc
          rw [strcmp_append huv hvu]
          simp [hnot, hc]
      · obtain ⟨⟨huv, hvu⟩, hnot⟩ := zero_part b hb
        rw [strcmp_append huv hvu]
        simp [hnot, hb]
    rw [show decimal 127 ++ [46] = [49, 50, 55, 46] by decide, strcmp_append_left, hzero]
    simp [show ¬ Before127 127 by decide]
  · obtain ⟨⟨huv, hvu⟩, hfirst⟩ := first_part a ha
    rw [strcmp_append huv hvu, hfirst]
    simp [ha]

/-- Success means that the address is the loopback address. -/
def LoopbackOnly (sinAddr : InAddr) : Prop :=
  (sessionIsLoopback sinAddr).run () = .ok () () ↔ sinAddr = loopback

theorem loopback_only_iff (sinAddr : InAddr) :
    LoopbackOnly sinAddr ↔ sinAddr = loopback ∨ sinAddr = ⟨127, 0, 0, 0⟩ ∨ Before127 sinAddr.a := by
  rw [LoopbackOnly, run_sessionIsLoopback]
  by_cases hbefore : strcmp (dotted sinAddr.quad) loopbackText < 0
  · rw [if_pos hbefore]
    have hlow := (before_loopback sinAddr).mp hbefore
    have hne : sinAddr ≠ loopback := by
      rintro rfl
      exact absurd hbefore (by decide +kernel)
    simp [hne, or_comm.mp hlow]
  · rw [if_neg hbefore]
    have hhigh := mt (before_loopback sinAddr).mpr hbefore
    obtain ⟨hlow, hnet⟩ := not_or.mp hhigh
    simp [hlow, hnet]

/-- A host in another network is taken for the loopback interface. -/
theorem remote_host_is_loopback :
    (sessionIsLoopback ⟨192, 168, 0, 1⟩).run () = .ok () () ∧ ¬ LoopbackOnly ⟨192, 168, 0, 1⟩ := by
  have hok : (sessionIsLoopback ⟨192, 168, 0, 1⟩).run () = .ok () () := by decide +kernel
  refine ⟨hok, fun h => ?_⟩
  cases h.mp hok

/-! ## Ports -/

deriving instance DecidableEq for InAddr

/-- A call of the system or of the TLS library. -/
inductive Call where
  | socket (family : Int)
  | reuseAddr (fd : Int)
  /-- `bind(2)` to an address and a port, both as they lie in memory. -/
  | bindInet (fd : Int) (addr : InAddr) (port : UInt16)
  | bindLocal (fd : Int) (path : Bytes)
  | stat (path : Bytes)
  | unlink (path : Bytes)
  | chown (path : Bytes) (uid gid : Nat)
  | chmod (path : Bytes) (mode : Nat)
  | connect (fd : Int) (path : Bytes)
  | listen (fd : Int) (backlog : Nat)
  | bioNewAccept (port : Nat)
  | bioSetBindMode
  /-- The first call binds the BIO to its port. -/
  | bioDoAccept
  deriving DecidableEq

inductive Answer where
  | ok (value : Nat)
  | enoent
  | failed
  deriving DecidableEq

/-- The user, what `inet_addr(3)` makes of a text, and the answer to a call after those before it. -/
structure Host where
  uid : Nat
  inetAddr : Bytes → InAddr
  answer : List Call → Call → Answer

inductive Direction where
  | unknown
  | listen
  | connect
  deriving DecidableEq

/-- The fields of a `socket_t`. -/
structure Socket where
  family : Int
  direction : Direction
  fd : Int
  /-- `local.in`, in network byte order. -/
  sinAddr : InAddr
  sinPort : UInt16
  /-- The text in `local.un`. -/
  sunPath : Bytes
  connected : Bool
  tlsEnabled : Bool
  uid : Nat
  gid : Nat
  mode : Nat

structure World where
  sock : Socket
  /-- The calls so far. -/
  calls : List Call

def pfLocal : Int := 1

def pfInet : Int := 2

/-- `htons(3)` and `ntohs(3)` of a little-endian host. -/
def htons (n : UInt16) : UInt16 := UInt16.ofNat (n.toNat % 256 * 256 + n.toNat / 256)

/-- The size of `sun_path`. -/
def sunPathSize : Nat := 108

def call (host : Host) (c : Call) : Act World Answer := do
  let w ← get
  put { w with calls := w.calls ++ [c] }
  pure (host.answer w.calls c)

/-- A call that throws when it fails. -/
def must (host : Host) (c : Call) : Act World Nat := do
  match ← call host c with
  | .ok value => pure value
  | _ => throwing

def getSock : Act World Socket := do
  let w ← get
  pure w.sock

def setSock (f : Socket → Socket) : Act World Unit := do
  let w ← get
  put { w with sock := f w.sock }

/-- `str_to_inet` -/
def strToInet (host : Host) (src : Str) : Act World InAddr := do
  let text ← deref (src.value.bind cString)
  let addr := host.inetAddr text
  if addr = ⟨255, 255, 255, 255⟩ then do
    let order ← strCmp src (charArray [50, 53, 53, 46, 50, 53, 53, 46, 50, 53, 53, 46, 50, 53, 53])
    if order ≠ 0 then throwing else pure addr
  else pure addr

/-- The accept BIO always gets the same port. -/
def tlsAccept (host : Host) : Act World Unit := do
  let _ ← must host (.bioNewAccept 443)
  let _ ← must host .bioSetBindMode
  pure ()

def socketNewInet (host : Host) (address : Str) (port : Int) : Act World Unit := do
  let port := if port ≤ 1024 ∧ host.uid > 0 then port + 10000 else port
  setSock fun s => { s with sinPort := htons (UInt16.ofInt port), direction := .unknown, family := pfInet }
  let addr ← strToInet host address
  setSock fun s => { s with sinAddr := addr }
  let s ← getSock
  if s.tlsEnabled then tlsAccept host else pure ()

/-- A TLS socket is bound by the first accept of its BIO. -/
def bindSocket (host : Host) : Act World Unit := do
  let s ← getSock
  if s.tlsEnabled then do
    let fd ← must host .bioDoAccept
    setSock fun s => { s with fd := fd }
  else do
    let _ ← must host (.bindInet s.fd s.sinAddr s.sinPort)
    pure ()

def socketBindInet (host : Host) : Act World Unit := do
  setSock fun s =>
    if host.uid > 0 ∧ s.sinPort ≤ 1024 then { s with sinPort := s.sinPort + 1000 } else s
  bindSocket host

def fileExists (host : Host) (path : Bytes) : Act World Bool := do
  match ← call host (.stat path) with
  | .ok _ => pure true
  | .enoent => pure false
  | .failed => throwing

def openSocket (host : Host) : Act World Unit := do
  let s ← getSock
  let fd ← must host (.socket s.family)
  setSock fun s => { s with fd := fd }

/-- The part of `socket_local_operation` for a socket that listens. -/
def bindLocalFile (host : Host) : Act World Unit := do
  let s ← getSock
  let found ← fileExists host s.sunPath
  if found then do
    let _ ← must host (.unlink s.sunPath)
    pure ()
  let _ ← must host (.bindLocal s.fd s.sunPath)
  let _ ← must host (.chown s.sunPath s.uid s.gid)
  let _ ← must host (.chmod s.sunPath s.mode)
  pure ()

def socketLocalOperation (host : Host) : Act World Unit := do
  openSocket host
  let s ← getSock
  match s.direction with
  | .listen => bindLocalFile host
  | .connect => do
    let _ ← must host (.connect s.fd s.sunPath)
    setSock fun s => { s with connected := true }
  | .unknown => throwing

/-- The address for the family of the socket. -/
def setLocalAddress (host : Host) (address : Str) (port : Int) : Act World Unit := do
  let s ← getSock
  if s.family = pfInet then socketNewInet host address port
  else if s.family = pfLocal then do
    let text ← deref (address.value.bind cString)
    setSock fun s => { s with sunPath := text.take (sunPathSize - 1) }
  else throwing

def bindFamily (host : Host) : Act World Unit := do
  let s ← getSock
  if s.family = pfInet then socketBindInet host
  else if s.family = pfLocal then socketLocalOperation host
  else throwing

def socketBind (host : Host) (address : Str) (port : Int) : Act World Unit := do
  setLocalAddress host address port
  setSock fun s => { s with direction := .listen }
  openSocket host
  let s ← getSock
  -- the result is not looked at
  let _ ← call host (.reuseAddr s.fd)
  bindFamily host
  let s ← getSock
  let _ ← must host (.listen s.fd 300)
  pure ()

/-- The port that a call binds, as a number of the host. -/
def Call.port : Call → Option Nat
  | .bindInet _ _ port => some (htons port).toNat
  | .bioDoAccept => some 443
  | _ => none

/-- The ports that a run has bound, or tried to. -/
def ports {α : Type} : Outcome World α → List Nat
  | .ok _ w => w.calls.filterMap Call.port
  | .thrown w => w.calls.filterMap Call.port
  | .halt _ => []

/-- The port that a socket without TLS sends to `bind(2)`, as it lies in memory. -/
def sentPort (uid : Nat) (port : Int) : UInt16 :=
  let n := htons (UInt16.ofInt (if port ≤ 1024 ∧ uid > 0 then port + 10000 else port))
  if uid > 0 ∧ n ≤ 1024 then n + 1000 else n

variable {host : Host} {w : World} {address : Str} {port : Int}

@[simp] theorem run_call (host : Host) (c : Call) (w : World) :
    (call host c).run w = .ok (host.answer w.calls c) { w with calls := w.calls ++ [c] } := rfl

@[simp] theorem run_getSock (w : World) : getSock.run w = .ok w.sock w := rfl

@[simp] theorem run_setSock (f : Socket → Socket) (w : World) :
    (setSock f).run w = .ok () { w with sock := f w.sock } := rfl

/-- A call with these calls before it succeeds. -/
def Succeeds (host : Host) (calls : List Call) (c : Call) : Prop := ∃ value, host.answer calls c = .ok value

theorem run_must_ok {c : Call} {value : Nat} (h : host.answer w.calls c = .ok value) :
    (must host c).run w = .ok value { w with calls := w.calls ++ [c] } := by
  rw [must, run_bind_ok (run_call host c w), h]
  rfl

theorem run_must_failed {c : Call} (h : ¬ Succeeds host w.calls c) :
    (must host c).run w = .thrown { w with calls := w.calls ++ [c] } := by
  rw [must, run_bind_ok (run_call host c w)]
  cases hans : host.answer w.calls c with
  | ok value => exact absurd ⟨value, hans⟩ h
  | enoent => rfl
  | failed => rfl

/-- `inet_addr(3)` understands the text, and it says so: its error value is an address, too. -/
def Accepted (host : Host) (text : Bytes) : Prop :=
  host.inetAddr text = ⟨255, 255, 255, 255⟩ →
    text = [50, 53, 53, 46, 50, 53, 53, 46, 50, 53, 53, 46, 50, 53, 53]

theorem run_strToInet (host : Host) (haddr : address.WF) (w : World) :
    (Accepted host (cText address.text) →
      (strToInet host address).run w = .ok (host.inetAddr (cText address.text)) w) ∧
    (¬ Accepted host (cText address.text) → (strToInet host address).run w = .thrown w) := by
  have hkey := cString_charArray [50, 53, 53, 46, 50, 53, 53, 46, 50, 53, 53, 46, 50, 53, 53] (by decide)
  have hcmp := strCmp_holds haddr hkey w
  have hzero := strcmp_eq_zero (cText address.text) [50, 53, 53, 46, 50, 53, 53, 46, 50, 53, 53, 46, 50, 53, 53]
  rw [strToInet, Holds.bind_cString haddr, deref_some, run_bind_ret, Accepted]
  by_cases hall : host.inetAddr (cText address.text) = ⟨255, 255, 255, 255⟩
  · rw [if_pos hall, run_bind_ok hcmp]
    constructor
    · intro h
      rw [if_neg (not_not.mpr (hzero.mpr (h hall)))]
      rfl
    · intro h
      rw [if_pos fun he => h fun _ => hzero.mp he]
      rfl
  · rw [if_neg hall]
    exact ⟨fun _ => rfl, fun h => absurd (fun he => absurd he hall) h⟩

/-- The calls of `socket_new_inet`. -/
def tlsCalls (tls : Bool) : List Call := if tls then [.bioNewAccept 443, .bioSetBindMode] else []

/-- The calls of `socket_new_inet` succeed. -/
def TlsReady (host : Host) (tls : Bool) : Prop :=
  tls → Succeeds host [] (.bioNewAccept 443) ∧ Succeeds host [.bioNewAccept 443] .bioSetBindMode

theorem run_tlsAccept (host : Host) (sock : Socket) :
    (TlsReady host true → (tlsAccept host).run ⟨sock, []⟩ = .ok () ⟨sock, tlsCalls true⟩) ∧
    (¬ TlsReady host true → ∃ w, (tlsAccept host).run ⟨sock, []⟩ = .thrown w ∧ w.calls.filterMap Call.port = []) := by
  rw [tlsAccept]
  by_cases hnew : Succeeds host [] (.bioNewAccept 443)
  · obtain ⟨v, hv⟩ := hnew
    rw [run_bind_ok (run_must_ok (w := ⟨sock, []⟩) hv)]
    by_cases hmode : Succeeds host [.bioNewAccept 443] .bioSetBindMode
    · obtain ⟨u, hu⟩ := hmode
      have hrun : (must host .bioSetBindMode).run ⟨sock, [.bioNewAccept 443]⟩ =
          .ok u ⟨sock, tlsCalls true⟩ := run_must_ok hu
      rw [List.nil_append, run_bind_ok hrun]
      exact ⟨fun _ => rfl, fun h => absurd (fun _ => ⟨⟨v, hv⟩, ⟨u, hu⟩⟩) h⟩
    · have hrun : (must host .bioSetBindMode).run ⟨sock, [.bioNewAccept 443]⟩ =
          .thrown ⟨sock, tlsCalls true⟩ := run_must_failed hmode
      rw [List.nil_append, run_bind_thrown hrun]
      exact ⟨fun h => absurd (h rfl).2 hmode, fun _ => ⟨_, rfl, rfl⟩⟩
  · rw [run_bind_thrown (run_must_failed (w := ⟨sock, []⟩) hnew)]
    exact ⟨fun h => absurd (h rfl).1 hnew, fun _ => ⟨_, rfl, rfl⟩⟩

/-- The socket behind `socket_new_inet`. -/
def inetSock (host : Host) (address : Str) (port : Int) (s : Socket) : Socket :=
  { s with
    sinPort := htons (UInt16.ofInt (if port ≤ 1024 ∧ host.uid > 0 then port + 10000 else port))
    direction := .unknown
    family := pfInet
    sinAddr := host.inetAddr (cText address.text) }

/-- `socket_new_inet` succeeds. -/
def Prepared (host : Host) (address : Str) (sock : Socket) : Prop :=
  Accepted host (cText address.text) ∧ TlsReady host sock.tlsEnabled

theorem run_socketNewInet (host : Host) (port : Int) (haddr : address.WF) (sock : Socket) :
    (Prepared host address sock → (socketNewInet host address port).run ⟨sock, []⟩ =
      .ok () ⟨inetSock host address port sock, tlsCalls sock.tlsEnabled⟩) ∧
    (¬ Prepared host address sock → ∃ w, (socketNewInet host address port).run ⟨sock, []⟩ = .thrown w ∧
      w.calls.filterMap Call.port = []) := by
  have hset : ∀ w : World, (setSock fun s => { s with
      sinPort := htons (UInt16.ofInt (if port ≤ 1024 ∧ host.uid > 0 then port + 10000 else port))
      direction := .unknown, family := pfInet }).run w = _ := run_setSock _
  rw [socketNewInet, run_bind_ok (hset _)]
  obtain ⟨hinet, hnot⟩ := run_strToInet host haddr ⟨{ sock with
    sinPort := htons (UInt16.ofInt (if port ≤ 1024 ∧ host.uid > 0 then port + 10000 else port))
    direction := .unknown, family := pfInet }, []⟩
  by_cases hacc : Accepted host (cText address.text)
  · obtain ⟨hready, hrefused⟩ := run_tlsAccept host (inetSock host address port sock)
    rw [run_bind_ok (hinet hacc), run_bind_ok (run_setSock _ _), run_bind_ok (run_getSock _)]
    change (_ → (if sock.tlsEnabled then tlsAccept host else pure ()).run ⟨inetSock host address port sock, []⟩ = _) ∧
      (_ → ∃ w, (if sock.tlsEnabled then tlsAccept host else pure ()).run ⟨inetSock host address port sock, []⟩ =
        .thrown w ∧ _)
    cases htls : sock.tlsEnabled with
    | true =>
      rw [Prepared, htls, if_pos rfl]
      exact ⟨fun h => hready h.2, fun h => hrefused fun ht => h ⟨hacc, ht⟩⟩
    | false =>
      have hprep : Prepared host address sock := ⟨hacc, by rw [htls]; exact fun h => by cases h⟩
      exact ⟨fun _ => rfl, fun h => absurd hprep h⟩
  · rw [run_bind_thrown (hnot hacc)]
    exact ⟨fun h => absurd h.1 hacc, fun _ => ⟨_, rfl, rfl⟩⟩

/-- Calls that bind no port do not count. -/
theorem filterMap_port_append {calls : List Call} {c : Call} (hcalls : calls.filterMap Call.port = [])
    (hc : c.port = none) : (calls ++ [c]).filterMap Call.port = [] := by
  rw [List.filterMap_append, hcalls, List.filterMap_cons, hc]
  rfl

theorem ports_tlsCalls (tls : Bool) : (tlsCalls tls).filterMap Call.port = [] := by
  cases tls <;> rfl

/-- The port of the call behind `socket(2)`. -/
def boundPort (host : Host) (tls : Bool) (port : Int) : Nat :=
  if tls then 443 else (htons (sentPort host.uid port)).toNat

theorem must_cases (host : Host) (c : Call) (w : World) :
    (∃ value, (must host c).run w = .ok value { w with calls := w.calls ++ [c] }) ∨
      (must host c).run w = .thrown { w with calls := w.calls ++ [c] } := by
  by_cases h : Succeeds host w.calls c
  · obtain ⟨value, hv⟩ := h
    exact .inl ⟨value, run_must_ok hv⟩
  · exact .inr (run_must_failed h)

theorem ports_append {calls : List Call} {c : Call} {n : Nat} (hcalls : calls.filterMap Call.port = [])
    (hc : c.port = some n) : (calls ++ [c]).filterMap Call.port = [n] := by
  rw [List.filterMap_append, hcalls, List.filterMap_cons, hc]
  rfl

/-- One call is made, and it is the one that binds. -/
theorem run_bindSocket (sock : Socket) {calls : List Call} (hcalls : calls.filterMap Call.port = [])
    (hport : sock.sinPort = sentPort host.uid port) :
    ∃ w, ((bindSocket host).run ⟨sock, calls⟩ = .ok () w ∨ (bindSocket host).run ⟨sock, calls⟩ = .thrown w) ∧
      w.calls.filterMap Call.port = [boundPort host sock.tlsEnabled port] := by
  rw [bindSocket, run_bind_ok (run_getSock _)]
  cases htls : sock.tlsEnabled with
  | true =>
    have hlast : (calls ++ [Call.bioDoAccept]).filterMap Call.port = [boundPort host true port] :=
      ports_append hcalls rfl
    obtain ⟨v, hv⟩ | hv := must_cases host .bioDoAccept ⟨sock, calls⟩
    · exact ⟨_, .inl (run_bind_ok hv), hlast⟩
    · exact ⟨_, .inr (run_bind_thrown hv), hlast⟩
  | false =>
    have hlast : (calls ++ [Call.bindInet sock.fd sock.sinAddr sock.sinPort]).filterMap Call.port =
        [boundPort host false port] := by
      apply ports_append hcalls
      rw [Call.port, hport]
      rfl
    obtain ⟨v, hv⟩ | hv := must_cases host (.bindInet sock.fd sock.sinAddr sock.sinPort) ⟨sock, calls⟩
    · exact ⟨_, .inl (run_bind_ok hv), hlast⟩
    · exact ⟨_, .inr (run_bind_thrown hv), hlast⟩

/-- The second change of the port, and then the call. -/
theorem run_socketBindInet {sock : Socket} {calls : List Call} (hcalls : calls.filterMap Call.port = [])
    (hport : sock.sinPort = htons (UInt16.ofInt (if port ≤ 1024 ∧ host.uid > 0 then port + 10000 else port))) :
    ∃ w, ((socketBindInet host).run ⟨sock, calls⟩ = .ok () w ∨ (socketBindInet host).run ⟨sock, calls⟩ = .thrown w) ∧
      w.calls.filterMap Call.port = [boundPort host sock.tlsEnabled port] := by
  rw [socketBindInet, run_bind_ok (run_setSock _ _)]
  by_cases hlow : host.uid > 0 ∧ sock.sinPort ≤ 1024
  · have hsent : sock.sinPort + 1000 = sentPort host.uid port := by
      rw [sentPort, ← hport, if_pos hlow]
    simp only [if_pos hlow]
    exact run_bindSocket { sock with sinPort := sock.sinPort + 1000 } hcalls hsent
  · have hsent : sock.sinPort = sentPort host.uid port := by
      rw [sentPort, ← hport, if_neg hlow]
    simp only [if_neg hlow]
    exact run_bindSocket sock hcalls hsent

/-- What comes behind `setsockopt(2)`. -/
def bindAndListen (host : Host) : Act World Unit := do
  bindFamily host
  let s ← getSock
  let _ ← must host (.listen s.fd 300)
  pure ()

theorem ports_bindAndListen (sock : Socket) {calls : List Call} (hcalls : calls.filterMap Call.port = [])
    (hfamily : sock.family = pfInet)
    (hport : sock.sinPort = htons (UInt16.ofInt (if port ≤ 1024 ∧ host.uid > 0 then port + 10000 else port))) :
    ports ((bindAndListen host).run ⟨sock, calls⟩) = [boundPort host sock.tlsEnabled port] := by
  have hinet : (bindFamily host).run ⟨sock, calls⟩ = (socketBindInet host).run ⟨sock, calls⟩ := by
    rw [bindFamily, run_bind_ok (run_getSock _), if_pos hfamily]
  obtain ⟨w, hok | hthrown, hports⟩ := run_socketBindInet hcalls hport
  · rw [bindAndListen, run_bind_ok (hinet.trans hok), run_bind_ok (run_getSock _)]
    have hlisten : (w.calls ++ [Call.listen w.sock.fd 300]).filterMap Call.port =
        [boundPort host sock.tlsEnabled port] := by
      rw [List.filterMap_append, hports]
      rfl
    obtain ⟨v, hv⟩ | hv := must_cases host (.listen w.sock.fd 300) w
    · rw [run_bind_ok hv]
      exact hlisten
    · rw [run_bind_thrown hv]
      exact hlisten
  · rw [bindAndListen, run_bind_thrown (hinet.trans hthrown)]
    exact hports

/-- `socket_bind` gets as far as `bind(2)`. -/
def Opens (host : Host) (address : Str) (sock : Socket) : Prop :=
  Prepared host address sock ∧ Succeeds host (tlsCalls sock.tlsEnabled) (.socket pfInet)

open Classical in
theorem ports_socketBind (haddr : address.WF) {sock : Socket} (hfamily : sock.family = pfInet) :
    ports ((socketBind host address port).run ⟨sock, []⟩) =
      if Opens host address sock then [boundPort host sock.tlsEnabled port] else [] := by
  have hlocal : (setLocalAddress host address port).run ⟨sock, []⟩ =
      (socketNewInet host address port).run ⟨sock, []⟩ := by
    rw [setLocalAddress, run_bind_ok (run_getSock _), if_pos hfamily]
  obtain ⟨hprep, hnot⟩ := run_socketNewInet host port haddr sock
  have hcalls := ports_tlsCalls sock.tlsEnabled
  rw [socketBind]
  by_cases hp : Prepared host address sock
  · rw [run_bind_ok (hlocal.trans (hprep hp)), run_bind_ok (run_setSock _ _)]
    by_cases hsock : Succeeds host (tlsCalls sock.tlsEnabled) (.socket pfInet)
    · obtain ⟨fd, hfd⟩ := hsock
      have hopen : (openSocket host).run ⟨{ inetSock host address port sock with direction := .listen },
          tlsCalls sock.tlsEnabled⟩ = .ok () ⟨{ inetSock host address port sock with direction := .listen, fd := fd },
          tlsCalls sock.tlsEnabled ++ [.socket pfInet]⟩ := by
        rw [openSocket, run_bind_ok (run_getSock _), run_bind_ok (run_must_ok hfd)]
        rfl
      rw [if_pos ⟨hp, fd, hfd⟩, run_bind_ok hopen, run_bind_ok (run_getSock _), run_bind_ok (run_call _ _ _)]
      exact ports_bindAndListen { inetSock host address port sock with direction := .listen, fd := fd }
        (filterMap_port_append (filterMap_port_append hcalls rfl) rfl) rfl rfl
    · have hopen : (openSocket host).run ⟨{ inetSock host address port sock with direction := .listen },
          tlsCalls sock.tlsEnabled⟩ = .thrown ⟨{ inetSock host address port sock with direction := .listen },
          tlsCalls sock.tlsEnabled ++ [.socket pfInet]⟩ := by
        rw [openSocket, run_bind_ok (run_getSock _), run_bind_thrown (run_must_failed hsock)]
        rfl
      rw [if_neg fun h => hsock h.2, run_bind_thrown hopen]
      exact filterMap_port_append hcalls rfl
  · obtain ⟨w, hw, hnone⟩ := hnot hp
    rw [run_bind_thrown (hlocal.trans hw), if_neg fun h => hp h.1]
    exact hnone

/-- The port that the claim of a caller is about: his own, or 10000 more for a reserved one. -/
def wantedPort (uid : Nat) (port : Int) : Int := if uid = 0 ∨ 1024 < port then port else port + 10000

/-- The second change comes after the first one exactly for these ports. -/
def Twice (port : Int) : Prop :=
  if 1024 < port then port % 256 < 4 else 240 ≤ port % 256 ∧ port % 256 < 244

instance (port : Int) : Decidable (Twice port) := inferInstanceAs (Decidable (ite _ _ _))

theorem toNat_htons (n : UInt16) : (htons n).toNat = n.toNat % 256 * 256 + n.toNat / 256 := by
  have hn := n.toNat_lt
  rw [htons, UInt16.toNat_ofNat']
  omega

theorem htons_htons (n : UInt16) : htons (htons n) = n := by
  apply UInt16.toNat_inj.mp
  have hn := n.toNat_lt
  rw [toNat_htons, toNat_htons]
  omega

theorem toNat_ofInt {n : Int} (hn : 0 ≤ n) (hlt : n < 65536) : ((UInt16.ofInt n).toNat : Int) = n := by
  rw [UInt16.ofInt, UInt16.toNat_ofNat']
  omega

/-- The number that `socket_new_inet` gets to. -/
def newPort (uid : Nat) (port : Int) : Int := if port ≤ 1024 ∧ uid > 0 then port + 10000 else port

theorem newPort_wanted (uid : Nat) (port : Int) : newPort uid port = wantedPort uid port := by
  rw [newPort, wantedPort]
  split
  · rw [if_neg (by omega)]
  · rw [if_pos (by omega)]

/-- Behind the first change, the number of the network is a reserved one. -/
theorem twice_iff {uid : Nat} (huid : 0 < uid) (hport : 0 ≤ port) (hmax : port ≤ 65535) :
    htons (UInt16.ofInt (newPort uid port)) ≤ 1024 ↔ Twice port := by
  have hp : newPort uid port = if 1024 < port then port else port + 10000 := by
    rw [newPort]
    split
    · rw [if_neg (by omega)]
    · rw [if_pos (by omega)]
  rw [UInt16.le_iff_toNat_le, toNat_htons, show (1024 : UInt16).toNat = 1024 from rfl, Twice, hp]
  by_cases hhigh : 1024 < port
  · have hn := toNat_ofInt hport (by omega)
    rw [if_pos hhigh, if_pos hhigh]
    omega
  · have hn := toNat_ofInt (n := port + 10000) (by omega) (by omega)
    rw [if_neg hhigh, if_neg hhigh]
    omega

theorem sentPort_iff (uid : Nat) (hport : 0 ≤ port) (hmax : port ≤ 65535) :
    ((htons (sentPort uid port)).toNat : Int) = wantedPort uid port ↔ uid = 0 ∨ ¬ Twice port := by
  have hsent : sentPort uid port = if uid > 0 ∧ htons (UInt16.ofInt (newPort uid port)) ≤ 1024 then
      htons (UInt16.ofInt (newPort uid port)) + 1000 else htons (UInt16.ofInt (newPort uid port)) := rfl
  have hn : ((UInt16.ofInt (newPort uid port)).toNat : Int) = wantedPort uid port := by
    rw [← newPort_wanted]
    apply toNat_ofInt
    · rw [newPort]
      split <;> omega
    · rw [newPort]
      split <;> omega
  rw [hsent]
  by_cases hagain : uid > 0 ∧ htons (UInt16.ofInt (newPort uid port)) ≤ 1024
  · obtain ⟨huid, hlow⟩ := hagain
    have htwice := (twice_iff huid hport hmax).mp hlow
    -- swapping the bytes once more would take the 1000 away again
    have hne : (htons (htons (UInt16.ofInt (newPort uid port)) + 1000)).toNat ≠
        (UInt16.ofInt (newPort uid port)).toNat := by
      intro he
      have hback := congrArg htons (UInt16.toNat_inj.mp he)
      rw [htons_htons] at hback
      have hnat := congrArg UInt16.toNat hback
      rw [UInt16.toNat_add, show (1000 : UInt16).toNat = 1000 from rfl] at hnat
      have hlow' := UInt16.le_iff_toNat_le.mp hlow
      rw [show (1024 : UInt16).toNat = 1024 from rfl] at hlow'
      omega
    rw [if_pos ⟨huid, hlow⟩, ← hn]
    constructor
    · intro he
      exact absurd (Int.ofNat_inj.mp he) hne
    · rintro (h0 | hnot)
      · omega
      · exact absurd htwice hnot
  · rw [if_neg hagain, htons_htons]
    refine ⟨fun _ => ?_, fun _ => hn⟩
    by_cases huid : uid = 0
    · exact .inl huid
    · have hpos : 0 < uid := Nat.pos_of_ne_zero huid
      exact .inr fun htwice => hagain ⟨hpos, (twice_iff hpos hport hmax).mpr htwice⟩

/-- The ports that are bound are the wanted one, and there is one as soon as the socket is open. -/
def BindsAsked (host : Host) (address : Str) (sock : Socket) (port : Int) : Prop :=
  (∀ p ∈ ports ((socketBind host address port).run ⟨sock, []⟩), (p : Int) = wantedPort host.uid port) ∧
    (Opens host address sock → ports ((socketBind host address port).run ⟨sock, []⟩) ≠ [])

/-- The port is left alone where it has to be. With TLS it is always the same one. -/
def Untouched (uid : Nat) (tls : Bool) (port : Int) : Prop :=
  if tls then uid = 0 ∧ port = 443 else uid = 0 ∨ ¬ Twice port

theorem boundPort_iff (host : Host) (tls : Bool) (hport : 0 ≤ port) (hmax : port ≤ 65535) :
    (boundPort host tls port : Int) = wantedPort host.uid port ↔ Untouched host.uid tls port := by
  cases tls with
  | true =>
    change (443 : Int) = _ ↔ host.uid = 0 ∧ port = 443
    rw [wantedPort]
    split
    · omega
    · omega
  | false => exact sentPort_iff host.uid hport hmax

theorem socket_bind_port_iff (host : Host) {address : Str} (haddr : address.WF) {sock : Socket}
    (hfamily : sock.family = pfInet) (hport : 0 ≤ port) (hmax : port ≤ 65535) :
    BindsAsked host address sock port ↔ (Opens host address sock → Untouched host.uid sock.tlsEnabled port) := by
  rw [BindsAsked, ports_socketBind haddr hfamily, ← boundPort_iff host sock.tlsEnabled hport hmax]
  by_cases hopens : Opens host address sock
  · simp [hopens]
  · simp [hopens]

/-- A system where every call succeeds. -/
def easyHost (uid : Nat) : Host := ⟨uid, fun _ => ⟨0, 0, 0, 0⟩, fun _ _ => .ok 3⟩

/-- A new IPv4 socket. -/
def inetSocket : Socket := ⟨pfInet, .unknown, -1, ⟨0, 0, 0, 0⟩, 0, [], false, false, 0, 0, 0⟩

theorem socket_bind_port_iff_8080 :
    BindsAsked (easyHost 1000) (ofText [48, 46, 48, 46, 48, 46, 48]).1 inetSocket 8080 :=
  (socket_bind_port_iff (easyHost 1000) (ofText [48, 46, 48, 46, 48, 46, 48]).2 rfl (by decide) (by decide)).mpr
    fun _ => .inr (by decide)

/-- Port 1025 is above 1024, but its bytes in the other order are not. -/
theorem socket_bind_moves_port :
    ports ((socketBind (easyHost 1000) (ofText [48, 46, 48, 46, 48, 46, 48]).1 1025).run ⟨inetSocket, []⟩) = [60420] ∧
      ¬ BindsAsked (easyHost 1000) (ofText [48, 46, 48, 46, 48, 46, 48]).1 inetSocket 1025 := by
  have hports : ports ((socketBind (easyHost 1000) (ofText [48, 46, 48, 46, 48, 46, 48]).1 1025).run ⟨inetSocket, []⟩) =
      [60420] := by decide +kernel
  refine ⟨hports, fun h => ?_⟩
  have hall := h.1
  rw [hports] at hall
  exact absurd (hall 60420 (by simp)) (by decide)

end NcInet
