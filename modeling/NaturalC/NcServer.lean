import Mathlib.Data.List.Basic
import Mathlib.Logic.Function.Basic
import NaturalC.NcString

/-!
# Many servers in one process

The set-up of `server_multiplex`: every constructor gets a new server object for each
address to listen on, its controller is registered for the first one, and the descriptors
and the objects go into two tables. Constructors are arbitrary and may keep a state of
their own, so the family of the socket can be another one at each call.
-/
namespace NcServer

open Throwing Throwing.Act NcString

def pfLocal : Int := 1
def pfInet : Int := 2
def controllerMax : Nat := 10

/-- `server_t` with the socket that belongs to it. `C` are the session controllers. -/
structure Server (C : Type) where
  family : Int
  address : Bytes
  port : Int
  sockFamily : Int
  fd : Int
  controller : C
  controllerHandle : Nat

/-- A constructor changes the new object and returns a negative number when it fails. -/
abbrev Constructor (σ C : Type) := σ → Server C → Option (Server C × σ)

/-- What lies outside: the controller of a new object, the addresses of the host, memory, the user
database, and the calls from `socket(2)` to `listen(2)`. -/
structure System (σ C : Type) where
  blank : C
  ifaddrs : Option (List Bytes)
  malloc : Bool
  credentials : σ → Server C → Bool
  openSocket : σ → Server C → Option (Int × σ)

structure World (σ C : Type) where
  servers : List (Server C)
  /-- The number of the constructor that was called for each server. -/
  caller : List Nat
  pfd : List (Option Int)
  handler : List (Option Nat)
  controllerCount : Nat
  controllers : Nat → Option C
  global : σ

variable {σ C : Type}

def loadServer (srv : Nat) : Act (World σ C) (Server C) := do
  let w ← get
  deref w.servers[srv]?

def storeServer (srv : Nat) (s : Server C) : Act (World σ C) Unit := do
  let w ← get
  put { w with servers := w.servers.set srv s }

def serverNew (sys : System σ C) : Act (World σ C) Nat := do
  let w ← get
  put { w with servers := w.servers ++ [⟨pfInet, [], -1, -1, -1, sys.blank, 0⟩] }
  pure w.servers.length

/-- The call of the `i`-th constructor. -/
def construct (i : Nat) (constructor : Constructor σ C) (srv : Nat) : Act (World σ C) Unit := do
  let s ← loadServer srv
  let w ← get
  match constructor w.global s with
  | none => throwing
  | some (s, g) => do
    put { w with global := g, caller := w.caller ++ [i] }
    storeServer srv s

/-- `server_socket`, with `socket_set_family` and `socket_set_credentials`. -/
def serverSocket (sys : System σ C) (srv : Nat) : Act (World σ C) Unit := do
  let s ← loadServer srv
  if s.sockFamily ≥ 0 then throwing
  else do
    storeServer srv { s with sockFamily := s.family }
    let w ← get
    if s.family = pfLocal ∧ sys.credentials w.global s = false then throwing else pure ()

def sessionControllerRegister (ctl : C) : Act (World σ C) Nat := do
  let w ← get
  if w.controllerCount ≥ controllerMax then throwing
  else do
    put { w with controllerCount := w.controllerCount + 1,
                 controllers := Function.update w.controllers w.controllerCount (some ctl) }
    pure w.controllerCount

/-- `socket_bind`. -/
def socketBind (sys : System σ C) (srv : Nat) : Act (World σ C) Unit := do
  let s ← loadServer srv
  if s.sockFamily ≠ pfInet ∧ s.sockFamily ≠ pfLocal then throwing
  else do
    let w ← get
    match sys.openSocket w.global s with
    | none => throwing
    | some (fd, g) => do
      put { w with global := g }
      storeServer srv { s with fd := fd }

/-- Both tables are written at `j`, which must be inside of them. -/
def enter (j srv : Nat) (fd : Int) : Act (World σ C) Unit := do
  let w ← get
  if j < w.pfd.length ∧ j < w.handler.length then
    put { w with pfd := w.pfd.set j (some fd), handler := w.handler.set j (some srv) }
  else stop .fault

/-- The controller is registered for the first address only. -/
def handleFor (first : Bool) (srv handle : Nat) : Act (World σ C) Nat :=
  if first then do
    let s ← loadServer srv
    sessionControllerRegister s.controller
  else pure handle

/-- The body of the inner loop. It gives the handle and whether the server is a local one. -/
def listenOn (sys : System σ C) (i : Nat) (constructor : Constructor σ C) (first : Bool) (item : Bytes)
    (j handle : Nat) : Act (World σ C) (Nat × Bool) := do
  let srv ← serverNew sys
  construct i constructor srv
  serverSocket sys srv
  let handle ← handleFor first srv handle
  let s ← loadServer srv
  storeServer srv { s with
    controllerHandle := handle, address := if s.family ≠ pfLocal then item else s.address }
  socketBind sys srv
  let s ← loadServer srv
  enter j srv s.fd
  pure (handle, s.family = pfLocal)

/-- The counters of the loops. -/
structure Counters where
  pfdCount : Nat
  j : Nat
  controllerHandle : Nat

/-- The inner loop, over the addresses that are left. -/
def overAddresses (sys : System σ C) (i : Nat) (constructor : Constructor σ C) :
    Bool → List Bytes → Counters → Act (World σ C) Counters
  | _, [], n => pure n
  | first, item :: items, n => do
    let x ← listenOn sys i constructor first item n.j n.controllerHandle
    if x.2 then pure ⟨n.pfdCount + 1, n.j + 1, x.1⟩
    else overAddresses sys i constructor false items ⟨n.pfdCount + 1, n.j + 1, x.1⟩

/-- The outer loop, from the `i`-th constructor on. -/
def overConstructors (sys : System σ C) (bindAddr : List Bytes) :
    Nat → List (Constructor σ C) → Counters → Act (World σ C) Counters
  | _, [], n => pure n
  | i, constructor :: rest, n => do
    let n ← overAddresses sys i constructor true bindAddr n
    overConstructors sys bindAddr (i + 1) rest n

/-- The addresses to listen on. -/
def bindAddresses (sys : System σ C) (bindAddr : List Bytes) : Option (List Bytes) :=
  if bindAddr.length = 0 then sys.ifaddrs else some bindAddr

/-- `server_multiplex` up to the first `poll(2)`. The handle has no value before the loops. -/
def serverMultiplex (sys : System σ C) (bindAddr : List Bytes) (constructors : List (Constructor σ C))
    (uninit : Nat) : Act (World σ C) Nat := do
  match bindAddresses sys bindAddr with
  | none => throwing
  | some bindAddr =>
    if sys.malloc then do
      let size := bindAddr.length * constructors.length
      let w ← get
      put { w with pfd := List.replicate size none, handler := List.replicate size none }
      let n ← overConstructors sys bindAddr 0 constructors ⟨0, 0, uninit⟩
      pure n.pfdCount
    else throwing

variable {sys : System σ C} {i : Nat} {constructor : Constructor σ C} {first : Bool} {item : Bytes}
  {j handle : Nat} {w w' : World σ C} {l : List (Server C)} {s : Server C}

theorem run_loadServer (hw : w.servers = l ++ [s]) : (loadServer l.length).run w = .ok s w := by
  simp [loadServer, hw]

theorem run_storeServer (hw : w.servers = l ++ [s]) (t : Server C) :
    (storeServer l.length t).run w = .ok () { w with servers := l ++ [t] } := by
  simp [storeServer, hw]

/-- What a finished round of the inner loop has added. -/
structure Entered (i j : Nat) (s : Server C) (w w' : World σ C) : Prop where
  servers : w'.servers = w.servers ++ [s]
  caller : w'.caller = w.caller ++ [i]
  pfd : w'.pfd = w.pfd.set j (some s.fd)
  handler : w'.handler = w.handler.set j (some w.servers.length)

/-- The controller of a first server is registered under a new handle; the others get the old one. -/
def Registered (first : Bool) (handle : Nat) (s : Server C) (w w' : World σ C) : Prop :=
  if first then s.controllerHandle = w.controllerCount ∧ w'.controllerCount = w.controllerCount + 1 ∧
    w'.controllers = Function.update w.controllers w.controllerCount (some s.controller)
  else s.controllerHandle = handle ∧ w'.controllerCount = w.controllerCount ∧ w'.controllers = w.controllers

theorem construct_cases (i : Nat) (constructor : Constructor σ C) (w : World σ C) (hw : w.servers = l ++ [s]) :
    (construct i constructor l.length).run w = .thrown w ∨
      ∃ t g, (construct i constructor l.length).run w =
        .ok () { w with servers := l ++ [t], caller := w.caller ++ [i], global := g } := by
  rw [construct, run_bind_ok (run_loadServer hw), run_bind_get]
  cases constructor w.global s with
  | none => exact Or.inl rfl
  | some x =>
    obtain ⟨t, g⟩ := x
    refine Or.inr ⟨t, g, ?_⟩
    simp only [run_bind_put]
    have hw' : ({ w with caller := w.caller ++ [i], global := g } : World σ C).servers = l ++ [s] := hw
    exact run_storeServer hw' t

theorem serverSocket_cases (sys : System σ C) (w : World σ C) (hw : w.servers = l ++ [s]) :
    (∃ w', (serverSocket sys l.length).run w = .thrown w') ∨
      ∃ t, (serverSocket sys l.length).run w = .ok () { w with servers := l ++ [t] } := by
  rw [serverSocket, run_bind_ok (run_loadServer hw)]
  split_ifs
  · exact Or.inl ⟨_, rfl⟩
  · rw [run_bind_ok (run_storeServer hw _), run_bind_get]
    split_ifs
    · exact Or.inl ⟨_, rfl⟩
    · exact Or.inr ⟨_, rfl⟩

theorem handleFor_cases (first : Bool) (handle : Nat) (w : World σ C) (hw : w.servers = l ++ [s]) :
    (handleFor first l.length handle).run w = .thrown w ∨
      ∃ n w', (handleFor first l.length handle).run w = .ok n w' ∧ w'.servers = l ++ [s] ∧
        w'.caller = w.caller ∧ w'.pfd = w.pfd ∧ w'.handler = w.handler ∧
        Registered first handle { s with controllerHandle := n } w w' := by
  cases first with
  | false => exact Or.inr ⟨handle, w, rfl, hw, rfl, rfl, rfl, rfl, rfl, rfl⟩
  | true =>
    rw [handleFor, if_pos rfl, run_bind_ok (run_loadServer hw), sessionControllerRegister, run_bind_get]
    split_ifs
    · exact Or.inl rfl
    · exact Or.inr ⟨_, _, rfl, hw, rfl, rfl, rfl, rfl, rfl, rfl⟩

theorem socketBind_cases (sys : System σ C) (w : World σ C) (hw : w.servers = l ++ [s]) :
    (socketBind sys l.length).run w = .thrown w ∨
      ∃ fd g, (socketBind sys l.length).run w =
        .ok () { w with servers := l ++ [{ s with fd := fd }], global := g } := by
  rw [socketBind, run_bind_ok (run_loadServer hw)]
  split_ifs
  · exact Or.inl rfl
  · rw [run_bind_get]
    cases sys.openSocket w.global s with
    | none => exact Or.inl rfl
    | some x =>
      obtain ⟨fd, g⟩ := x
      refine Or.inr ⟨fd, g, ?_⟩
      simp only [run_bind_put]
      have hw' : ({ w with global := g } : World σ C).servers = l ++ [s] := hw
      exact run_storeServer hw' _

/-- One round of the inner loop fails, or it adds one server and one entry. -/
theorem listenOn_cases (hj : j < w.pfd.length) (hj' : j < w.handler.length) :
    (∃ w', (listenOn sys i constructor first item j handle).run w = .thrown w') ∨
      ∃ s w', (listenOn sys i constructor first item j handle).run w =
          .ok (s.controllerHandle, decide (s.family = pfLocal)) w' ∧
        Entered i j s w w' ∧ Registered first handle s w w' ∧ (s.family ≠ pfLocal → s.address = item) := by
  have hnew : (serverNew sys).run w = .ok w.servers.length
      { w with servers := w.servers ++ [⟨pfInet, [], -1, -1, -1, sys.blank, 0⟩] } := rfl
  rw [listenOn, run_bind_ok hnew]
  obtain hc | ⟨t₁, g, hc⟩ := construct_cases i constructor
    { w with servers := w.servers ++ [⟨pfInet, [], -1, -1, -1, sys.blank, 0⟩] } rfl
  · exact Or.inl ⟨_, run_bind_thrown hc⟩
  rw [run_bind_ok hc]
  obtain ⟨w₂, hs⟩ | ⟨t₂, hs⟩ := serverSocket_cases sys
    { w with servers := w.servers ++ [t₁], caller := w.caller ++ [i], global := g } rfl
  · exact Or.inl ⟨_, run_bind_thrown hs⟩
  rw [run_bind_ok hs]
  obtain hh | ⟨n, w₃, hh, hserv, hcall, hpfd, hhand, hreg⟩ := handleFor_cases first handle
    { w with servers := w.servers ++ [t₂], caller := w.caller ++ [i], global := g } rfl
  · exact Or.inl ⟨_, run_bind_thrown hh⟩
  rw [run_bind_ok hh, run_bind_ok (run_loadServer hserv), run_bind_ok (run_storeServer hserv _)]
  obtain hb | ⟨fd, g', hb⟩ := socketBind_cases sys
    { w₃ with servers := w.servers ++ [{ t₂ with
      controllerHandle := n, address := if t₂.family ≠ pfLocal then item else t₂.address }] } rfl
  · exact Or.inl ⟨_, run_bind_thrown hb⟩
  rw [run_bind_ok hb, run_bind_ok (run_loadServer rfl), enter, run_bind, run_bind_get]
  have hin : j < w₃.pfd.length ∧ j < w₃.handler.length := by
    rw [hpfd, hhand]
    exact ⟨hj, hj'⟩
  rw [if_pos hin]
  refine Or.inr ⟨{ t₂ with
      controllerHandle := n, address := if t₂.family ≠ pfLocal then item else t₂.address, fd := fd },
    { w₃ with
      servers := w.servers ++ [{ t₂ with
        controllerHandle := n, address := if t₂.family ≠ pfLocal then item else t₂.address, fd := fd }],
      pfd := w₃.pfd.set j (some fd), handler := w₃.handler.set j (some w.servers.length),
      global := g' }, rfl, ⟨rfl, hcall, ?_, ?_⟩, ?_, fun hinet => if_pos hinet⟩
  · exact congrArg (fun x => x.set j (some fd)) hpfd
  · exact congrArg (fun x => x.set j (some w.servers.length)) hhand
  · cases first with
    | false => exact hreg
    | true => exact hreg

/-- The first `n` entries of both tables are those of the servers made so far, in their order. -/
structure Filled (n : Nat) (w : World σ C) : Prop where
  servers : w.servers.length = n
  caller : w.caller.length = n
  pfd : ∀ {a : Nat} {s : Server C}, w.servers[a]? = some s → w.pfd[a]? = some (some s.fd)
  handler : ∀ {a : Nat}, a < n → w.handler[a]? = some (some a)
  room : w.handler.length = w.pfd.length

theorem Filled.enter {n : Nat} (hf : Filled n w) (hn : n < w.pfd.length) (he : Entered i n s w w') :
    Filled (n + 1) w' := by
  refine ⟨by simp [he.servers, hf.servers], by simp [he.caller, hf.caller], ?_, ?_, ?_⟩
  · intro a t ha
    rw [he.pfd]
    rw [he.servers] at ha
    rcases Nat.lt_trichotomy a n with hlt | rfl | hgt
    · rw [List.getElem?_append_left (by rw [hf.servers]; exact hlt)] at ha
      rw [List.getElem?_set_ne (Nat.ne_of_gt hlt)]
      exact hf.pfd ha
    · rw [List.getElem?_append_right (by rw [hf.servers]), hf.servers, Nat.sub_self] at ha
      rw [List.getElem?_set_self hn, ← Option.some.inj ha]
    · rw [List.getElem?_eq_none (by simp [hf.servers]; omega)] at ha
      exact absurd ha (by simp)
  · intro a ha
    rw [he.handler, hf.servers]
    by_cases hlt : a < n
    · rw [List.getElem?_set_ne (Nat.ne_of_gt hlt)]
      exact hf.handler hlt
    · obtain rfl : a = n := by omega
      exact List.getElem?_set_self (by rw [hf.room]; exact hn)
  · rw [he.handler, he.pfd, List.length_set, List.length_set, hf.room]

/-- One server for each of `n` addresses, up to the first local one. -/
def Upto (n : Nat) (g : List (Server C)) : Prop :=
  g.length = n ∧ (∀ s ∈ g, s.family ≠ pfLocal) ∨
    g.length ≤ n ∧ ∃ us s, g = us ++ [s] ∧ s.family = pfLocal ∧ ∀ u ∈ us, u.family ≠ pfLocal

theorem Upto.length_le {n : Nat} {g : List (Server C)} (h : Upto n g) : g.length ≤ n := by
  rcases h with ⟨h, -⟩ | ⟨h, -⟩
  · exact Nat.le_of_eq h
  · exact h

theorem Upto.cons {n : Nat} {g : List (Server C)} (h : Upto n g) (hs : s.family ≠ pfLocal) :
    Upto (n + 1) (s :: g) := by
  rcases h with ⟨hlen, hall⟩ | ⟨hlen, us, t, rfl, ht, hus⟩
  · exact Or.inl ⟨by simp [hlen], List.forall_mem_cons.mpr ⟨hs, hall⟩⟩
  · exact Or.inr ⟨Nat.succ_le_succ hlen, s :: us, t, rfl, ht, List.forall_mem_cons.mpr ⟨hs, hus⟩⟩

/-- The servers listen on the addresses in their order; a local one has an address of its own. -/
def Listed : List Bytes → List (Server C) → Prop
  | [], g => g = []
  | item :: items, g => ∀ s ∈ g.head?, (s.family ≠ pfLocal → s.address = item) ∧ Listed items g.tail

theorem listed_nil (addrs : List Bytes) : Listed addrs ([] : List (Server C)) := by
  cases addrs with
  | nil => rfl
  | cons item items => exact fun s hs => absurd hs (by simp)

theorem Listed.cons {items : List Bytes} {g : List (Server C)} (hs : s.family ≠ pfLocal → s.address = item)
    (h : Listed items g) : Listed (item :: items) (s :: g) := by
  rintro t ⟨⟩
  exact ⟨hs, h⟩

theorem Listed.at {addrs : List Bytes} {g : List (Server C)} (h : Listed addrs g) {k : Nat} (hk : g[k]? = some s)
    (hs : s.family ≠ pfLocal) : addrs[k]? = some s.address := by
  induction g generalizing addrs k with
  | nil => cases hk
  | cons t g ih =>
    cases addrs with
    | nil => cases h
    | cons item items =>
      obtain ⟨hfirst, hrest⟩ := h t rfl
      cases k with
      | zero =>
        obtain rfl : t = s := by simpa using hk
        exact congrArg some (hfirst hs).symm
      | succ k => exact ih hrest hk

/-- What a run of the inner loop for the `i`-th constructor has added. -/
structure Grouped (i : Nat) (g : List (Server C)) (n n' : Counters) (w w' : World σ C) : Prop where
  servers : w'.servers = w.servers ++ g
  caller : w'.caller = w.caller ++ List.replicate g.length i
  filled : Filled (n.j + g.length) w'
  size : w'.pfd.length = w.pfd.length
  pfdCount : n'.pfdCount = n.pfdCount + g.length
  j : n'.j = n.j + g.length
  handles : ∀ s ∈ g, s.controllerHandle = n'.controllerHandle

theorem Grouped.nil {n : Counters} (hf : Filled n.j w) : Grouped i [] n n w w :=
  ⟨by simp, by simp, hf, rfl, rfl, rfl, by simp⟩

theorem Grouped.cons {n n' : Counters} {w₁ : World σ C} {g : List (Server C)} {k : Nat}
    (he : Entered i n.j s w w₁) (hg : Grouped i g ⟨n.pfdCount + 1, n.j + 1, k⟩ n' w₁ w')
    (hs : s.controllerHandle = n'.controllerHandle) : Grouped i (s :: g) n n' w w' := by
  refine ⟨?_, ?_, ?_, ?_, ?_, ?_, List.forall_mem_cons.mpr ⟨hs, hg.handles⟩⟩
  · rw [hg.servers, he.servers, List.append_assoc]
    rfl
  · rw [hg.caller, he.caller, List.append_assoc]
    rfl
  · have hlen : n.j + 1 + g.length = n.j + (s :: g).length := by
      rw [List.length_cons]
      omega
    exact hlen ▸ hg.filled
  · rw [hg.size, he.pfd, List.length_set]
  · have := hg.pfdCount
    simp only [List.length_cons] at this ⊢
    omega
  · have := hg.j
    simp only [List.length_cons] at this ⊢
    omega

/-- The registry after the inner loop: only a first server has added to it. -/
def RegisteredGroup (first : Bool) (n n' : Counters) (w w' : World σ C) : List (Server C) → Prop
  | [] => n'.controllerHandle = n.controllerHandle ∧ w'.controllerCount = w.controllerCount ∧
      w'.controllers = w.controllers
  | s :: _ => Registered first n.controllerHandle s w w'

/-- The inner loop fails, or it makes a server for each address up to the first local one. -/
theorem overAddresses_cases (sys : System σ C) (i : Nat) (constructor : Constructor σ C) (first : Bool)
    (items : List Bytes) (n : Counters) (w : World σ C) (hf : Filled n.j w)
    (hroom : n.j + items.length ≤ w.pfd.length) :
    (∃ w', (overAddresses sys i constructor first items n).run w = .thrown w') ∨
      ∃ g n' w', (overAddresses sys i constructor first items n).run w = .ok n' w' ∧
        Grouped i g n n' w w' ∧ Upto items.length g ∧ Listed items g ∧ RegisteredGroup first n n' w w' g := by
  induction items generalizing first n w with
  | nil => exact Or.inr ⟨[], n, w, rfl, Grouped.nil hf, Or.inl ⟨rfl, by simp⟩, rfl, rfl, rfl, rfl⟩
  | cons item items ih =>
    rw [List.length_cons] at hroom
    have hlt : n.j < w.pfd.length := by omega
    rw [overAddresses]
    obtain ⟨w', hr⟩ | ⟨s, w₁, hr, he, hreg, haddr⟩ := listenOn_cases hlt (by rw [hf.room]; exact hlt)
    · exact Or.inl ⟨w', run_bind_thrown hr⟩
    rw [run_bind_ok hr]
    have hf₁ := hf.enter hlt he
    by_cases hloc : s.family = pfLocal
    · rw [if_pos (by simpa using hloc)]
      refine Or.inr ⟨[s], _, w₁, rfl, Grouped.cons he (Grouped.nil hf₁) rfl, ?_, .cons haddr (listed_nil items), hreg⟩
      exact Or.inr ⟨by simp, [], s, rfl, hloc, by simp⟩
    · rw [if_neg (by simpa using hloc)]
      have hroom₁ : n.j + 1 + items.length ≤ w₁.pfd.length := by
        rw [he.pfd, List.length_set]
        omega
      obtain ⟨w', hrest⟩ | ⟨g, n', w', hrest, hg, hup, hlist, hreg'⟩ := ih false ⟨_, n.j + 1, _⟩ w₁ hf₁ hroom₁
      · exact Or.inl ⟨w', hrest⟩
      refine Or.inr ⟨s :: g, n', w', hrest, ?_, hup.cons hloc, .cons haddr hlist, ?_⟩
      · apply Grouped.cons he hg
        cases g with
        | nil => exact hreg'.1.symm
        | cons t g =>
          rw [← hg.handles t List.mem_cons_self]
          exact hreg'.1.symm
      · -- the rounds after the first one leave the registry alone
        have hsame : w'.controllerCount = w₁.controllerCount ∧ w'.controllers = w₁.controllers := by
          cases g with
          | nil => exact hreg'.2
          | cons t g => exact hreg'.2
        cases first with
        | false => exact ⟨hreg.1, hsame.1.trans hreg.2.1, hsame.2.trans hreg.2.2⟩
        | true => exact ⟨hreg.1, hsame.1.trans hreg.2.1, hsame.2.trans hreg.2.2⟩

/-- The numbers of the constructors that made the servers of each group. -/
def callers (i : Nat) : List (List (Server C)) → List Nat
  | [] => []
  | g :: gs => List.replicate g.length i ++ callers (i + 1) gs

/-- What a run of the outer loop from the `i`-th constructor on has added, a group for each
constructor. -/
structure AllGrouped (addrs : List Bytes) (i : Nat) (gs : List (List (Server C))) (n n' : Counters)
    (w w' : World σ C) : Prop where
  servers : w'.servers = w.servers ++ gs.flatten
  caller : w'.caller = w.caller ++ callers i gs
  filled : Filled (n.j + gs.flatten.length) w'
  size : w'.pfd.length = w.pfd.length
  pfdCount : n'.pfdCount = n.pfdCount + gs.flatten.length
  upto : ∀ g ∈ gs, Upto addrs.length g
  listed : ∀ g ∈ gs, Listed addrs g
  count : w'.controllerCount = w.controllerCount + if addrs.length = 0 then 0 else gs.length
  handles : ∀ {k : Nat} {g : List (Server C)}, gs[k]? = some g →
    ∀ s ∈ g, s.controllerHandle = w.controllerCount + k
  registered : ∀ {k : Nat} {s : Server C} {g : List (Server C)}, gs[k]? = some (s :: g) →
    w'.controllers (w.controllerCount + k) = some s.controller
  below : ∀ {h : Nat}, h < w.controllerCount → w'.controllers h = w.controllers h

theorem AllGrouped.nil {addrs : List Bytes} {n : Counters} (hf : Filled n.j w) : AllGrouped addrs i [] n n w w :=
  ⟨by simp, by simp [callers], hf, rfl, rfl, by simp, by simp, by simp, by simp, by simp, fun _ => rfl⟩

/-- The registry after the group of one constructor, which has no server only if there is no
address. -/
theorem count_group {m : Nat} {n n' : Counters} {g : List (Server C)} (hup : Upto m g)
    (hreg : RegisteredGroup true n n' w w' g) :
    w'.controllerCount = w.controllerCount + if m = 0 then 0 else 1 := by
  cases g with
  | nil =>
    have hm : m = 0 := by
      rcases hup with ⟨h, -⟩ | ⟨-, us, t, h, -⟩
      · exact h.symm
      · simp at h
    rw [if_pos hm]
    exact hreg.2.1
  | cons s g =>
    have hm : m ≠ 0 := by
      have := hup.length_le
      rw [List.length_cons] at this
      omega
    rw [if_neg hm]
    exact hreg.2.1

theorem AllGrouped.cons {addrs : List Bytes} {n n₁ n' : Counters} {w₁ : World σ C} {g : List (Server C)}
    {gs : List (List (Server C))} (hg : Grouped i g n n₁ w w₁) (hup : Upto addrs.length g) (hlist : Listed addrs g)
    (hreg : RegisteredGroup true n n₁ w w₁ g) (hgs : AllGrouped addrs (i + 1) gs n₁ n' w₁ w') :
    AllGrouped addrs i (g :: gs) n n' w w' := by
  have hcount := count_group hup hreg
  have hsome : ∀ {g' : List (Server C)}, Upto addrs.length g' → g' ≠ [] →
      w₁.controllerCount = w.controllerCount + 1 := by
    intro g' hg' hne
    have hpos := List.length_pos_of_ne_nil hne
    have hle := hg'.length_le
    rw [hcount, if_neg (by omega)]
  have hmem : ∀ {k : Nat} {g' : List (Server C)}, gs[k]? = some g' → Upto addrs.length g' :=
    fun h => hgs.upto _ (List.mem_of_getElem? h)
  have hold : ∀ {h : Nat}, h < w.controllerCount → w₁.controllers h = w.controllers h := by
    intro h hh
    cases g with
    | nil => rw [hreg.2.2]
    | cons s g => rw [hreg.2.2, Function.update_of_ne (Nat.ne_of_lt hh)]
  refine ⟨?_, ?_, ?_, ?_, ?_, List.forall_mem_cons.mpr ⟨hup, hgs.upto⟩,
    List.forall_mem_cons.mpr ⟨hlist, hgs.listed⟩, ?_, ?_, ?_, ?_⟩
  · rw [hgs.servers, hg.servers, List.append_assoc, List.flatten_cons]
  · rw [hgs.caller, hg.caller, List.append_assoc, callers]
  · have hlen : n₁.j + gs.flatten.length = n.j + (g :: gs).flatten.length := by
      rw [hg.j, List.flatten_cons, List.length_append, Nat.add_assoc]
    exact hlen ▸ hgs.filled
  · rw [hgs.size, hg.size]
  · rw [hgs.pfdCount, hg.pfdCount, List.flatten_cons, List.length_append, Nat.add_assoc]
  · rw [hgs.count, hcount, List.length_cons]
    split_ifs
    · rfl
    · omega
  · intro k g' hk s hs
    cases k with
    | zero =>
      obtain rfl : g = g' := by simpa using hk
      obtain ⟨t, g, rfl⟩ := List.exists_cons_of_ne_nil (List.ne_nil_of_mem hs)
      rw [hg.handles s hs, ← hg.handles t List.mem_cons_self]
      exact hreg.1
    | succ k =>
      have hk : gs[k]? = some g' := by simpa using hk
      rw [hgs.handles hk s hs, hsome (hmem hk) (List.ne_nil_of_mem hs)]
      omega
  · intro k s g' hk
    cases k with
    | zero =>
      obtain rfl : g = s :: g' := by simpa using hk
      have hlt : w.controllerCount < w₁.controllerCount := by
        rw [hsome hup (List.cons_ne_nil _ _)]
        omega
      rw [Nat.add_zero, hgs.below hlt, hreg.2.2, Function.update_self]
    | succ k =>
      have hk : gs[k]? = some (s :: g') := by simpa using hk
      have := hgs.registered hk
      rwa [hsome (hmem hk) (List.cons_ne_nil _ _), Nat.add_assoc, Nat.add_comm 1] at this
  · intro h hh
    rw [hgs.below (by rw [hcount]; omega), hold hh]

/-- The outer loop never leaves the tables; it fails, or it makes a group for each constructor. -/
theorem overConstructors_cases (sys : System σ C) (bindAddr : List Bytes) (constructors : List (Constructor σ C))
    (i : Nat) (n : Counters) (w : World σ C) (hf : Filled n.j w)
    (hroom : n.j + bindAddr.length * constructors.length ≤ w.pfd.length) :
    (∃ w', (overConstructors sys bindAddr i constructors n).run w = .thrown w') ∨
      ∃ gs n' w', (overConstructors sys bindAddr i constructors n).run w = .ok n' w' ∧
        gs.length = constructors.length ∧ AllGrouped bindAddr i gs n n' w w' := by
  induction constructors generalizing i n w with
  | nil => exact Or.inr ⟨[], n, w, rfl, rfl, AllGrouped.nil hf⟩
  | cons constructor constructors ih =>
    rw [List.length_cons, Nat.mul_succ] at hroom
    rw [overConstructors]
    obtain ⟨w', hr⟩ | ⟨g, n₁, w₁, hr, hg, hup, hlist, hreg⟩ :=
      overAddresses_cases sys i constructor true bindAddr n w hf (by omega)
    · exact Or.inl ⟨w', run_bind_thrown hr⟩
    rw [run_bind_ok hr]
    have hf₁ : Filled n₁.j w₁ := hg.j ▸ hg.filled
    have hle := hup.length_le
    have hroom₁ : n₁.j + bindAddr.length * constructors.length ≤ w₁.pfd.length := by
      rw [hg.j, hg.size]
      omega
    obtain ⟨w', hrest⟩ | ⟨gs, n', w', hrest, hlen, hgs⟩ := ih (i + 1) n₁ w₁ hf₁ hroom₁
    · exact Or.inl ⟨w', hrest⟩
    exact Or.inr ⟨g :: gs, n', w', hrest, by simp [hlen], AllGrouped.cons hg hup hlist hreg hgs⟩

/-- The servers of the `i`-th constructor among the first `n` entries of the table. -/
def entriesOf (w : World σ C) (n i : Nat) : List (Server C) :=
  ((w.handler.take n).filterMap id).filterMap fun a =>
    if w.caller[a]? = some i then w.servers[a]? else none

theorem filterMap_range (cs : List Nat) (ss : List (Server C)) (hlen : cs.length = ss.length) (i : Nat) :
    ((List.range cs.length).filterMap fun a => if cs[a]? = some i then ss[a]? else none) =
      ((cs.zip ss).filter fun x => x.1 = i).map Prod.snd := by
  induction cs generalizing ss with
  | nil => rfl
  | cons c cs ih =>
    cases ss with
    | nil => simp at hlen
    | cons s ss =>
      have hrest := ih ss (by simpa using hlen)
      have hshift : ((List.range cs.length).filterMap
          ((fun a => if (c :: cs)[a]? = some i then (s :: ss)[a]? else none) ∘ Nat.succ)) =
          ((cs.zip ss).filter fun x => x.1 = i).map Prod.snd := by
        rw [← hrest]
        apply List.filterMap_congr
        intro a _
        simp
      rw [List.length_cons, List.range_succ_eq_map, List.filterMap_cons, List.filterMap_map, hshift,
        List.zip_cons_cons, List.filter_cons]
      by_cases hc : c = i
      · simp [hc]
      · simp [hc]

theorem Filled.le {n : Nat} (hf : Filled n w) : n ≤ w.handler.length := by
  rcases Nat.eq_zero_or_pos n with rfl | hpos
  · exact Nat.zero_le _
  · have hlast := hf.handler (Nat.sub_lt hpos Nat.one_pos)
    have := (List.getElem?_eq_some_iff.mp hlast).1
    omega

theorem entriesOf_eq {n : Nat} (hf : Filled n w) (i : Nat) :
    entriesOf w n i = ((w.caller.zip w.servers).filter fun x => x.1 = i).map Prod.snd := by
  have hlen := hf.le
  have htake : w.handler.take n = (List.range n).map some := by
    refine List.ext_getElem? fun a => ?_
    rcases Nat.lt_or_ge a n with ha | ha
    · rw [List.getElem?_take_of_lt ha, hf.handler ha]
      simp [ha]
    · rw [List.getElem?_eq_none (by simp; omega), List.getElem?_eq_none (by simp; omega)]
  rw [entriesOf, htake, List.filterMap_map]
  have hid : (List.range n).filterMap (id ∘ some) = List.range w.caller.length := by
    rw [hf.caller]
    simp
  rw [hid]
  exact filterMap_range _ _ (hf.caller.trans hf.servers.symm) i

theorem le_of_mem_callers {i c : Nat} {gs : List (List (Server C))} (hc : c ∈ callers i gs) : i ≤ c := by
  induction gs generalizing i with
  | nil => simp [callers] at hc
  | cons g gs ih =>
    rcases List.mem_append.mp hc with hc | hc
    · exact Nat.le_of_eq (List.eq_of_mem_replicate hc).symm
    · exact Nat.le_of_succ_le (ih hc)

/-- The servers of a constructor are those of its group. -/
theorem filter_callers (i k : Nat) (gs : List (List (Server C))) :
    (((callers i gs).zip gs.flatten).filter fun x => x.1 = i + k).map Prod.snd = gs[k]?.getD [] := by
  induction gs generalizing i k with
  | nil => simp [callers]
  | cons g gs ih =>
    have hzip : (List.replicate g.length i).zip g = g.map fun s => (i, s) := by
      clear ih
      induction g with
      | nil => rfl
      | cons s g ih => rw [List.length_cons, List.replicate_succ, List.zip_cons_cons, ih, List.map_cons]
    rw [callers, List.flatten_cons, List.zip_append (by simp), hzip, List.filter_append, List.map_append]
    cases k with
    | zero =>
      have hnone : ((callers (i + 1) gs).zip gs.flatten).filter (fun x => x.1 = i + 0) = [] := by
        apply List.filter_eq_nil_iff.mpr
        rintro ⟨c, s⟩ hx
        have := le_of_mem_callers (List.of_mem_zip hx).1
        simp
        omega
      rw [hnone]
      simp [List.filter_map, Function.comp_def]
    | succ k =>
      have hrest := ih (i + 1) k
      rw [Nat.add_assoc, Nat.add_comm 1] at hrest
      rw [hrest]
      simp [List.filter_map, Function.comp_def]

/-- The state of the process when `server_multiplex` is called. -/
def World.start (count : Nat) (controllers : Nat → Option C) (global : σ) : World σ C :=
  ⟨[], [], [], [], count, controllers, global⟩

/-- The two tables agree on every entry. -/
def Agree (n : Nat) (w : World σ C) : Prop :=
  ∀ j < n, ∃ a s, w.handler[j]? = some (some a) ∧ w.servers[a]? = some s ∧ w.pfd[j]? = some (some s.fd)

/-- The controllers that belong to the constructors: one registration for each, if there is an address
at all, and a handle of its own that all its servers carry. -/
structure Handles (k : Nat) (m n : Nat) (w₀ w : World σ C) : Prop where
  count : w.controllerCount = w₀.controllerCount + if m = 0 then 0 else k
  one : ∀ i < k, ∃ handle, (∀ s ∈ entriesOf w n i, s.controllerHandle = handle) ∧
    ∀ s ∈ (entriesOf w n i).head?, w.controllers handle = some s.controller
  apart : ∀ {i i' : Nat} {s s' : Server C}, i < k → i' < k → i ≠ i' → s ∈ entriesOf w n i →
    s' ∈ entriesOf w n i' → s.controllerHandle ≠ s'.controllerHandle

/-- The two tables before the loops. -/
def World.allocated (w : World σ C) (size : Nat) : World σ C :=
  { w with pfd := List.replicate size none, handler := List.replicate size none }

theorem serverMultiplex_cases (sys : System σ C) (bindAddr : List Bytes)
    (constructors : List (Constructor σ C)) (uninit count : Nat) (controllers : Nat → Option C) (g : σ) :
    (∃ w', (serverMultiplex sys bindAddr constructors uninit).run (World.start count controllers g) = .thrown w') ∨
      ∃ addrs gs n' w', bindAddresses sys bindAddr = some addrs ∧
        (serverMultiplex sys bindAddr constructors uninit).run (World.start count controllers g) =
          .ok n'.pfdCount w' ∧ gs.length = constructors.length ∧
        AllGrouped addrs 0 gs ⟨0, 0, uninit⟩ n'
          ((World.start count controllers g).allocated (addrs.length * constructors.length)) w' := by
  rw [serverMultiplex]
  cases bindAddresses sys bindAddr with
  | none => exact Or.inl ⟨_, rfl⟩
  | some addrs =>
    cases hm : sys.malloc with
    | false => exact Or.inl ⟨_, rfl⟩
    | true =>
      have hf : Filled 0 ((World.start count controllers g).allocated (addrs.length * constructors.length)) :=
        ⟨rfl, rfl, by simp [World.allocated, World.start], by simp, by simp [World.allocated]⟩
      obtain ⟨w', hr⟩ | ⟨gs, n', w', hr, hlen, hgs⟩ := overConstructors_cases sys addrs constructors 0
        ⟨0, 0, uninit⟩ _ hf (by simp [World.allocated])
      all_goals simp only [if_pos, run_bind_get, run_bind_put]
      · exact Or.inl ⟨w', run_bind_thrown hr⟩
      · exact Or.inr ⟨addrs, gs, n', w', rfl, run_bind_ok hr, hlen, hgs⟩

/-- The set-up of `server_multiplex` stays inside of its tables, and whenever it completes, the tables
agree, every constructor has an entry for each address, in their order, up to the first for which it chose
`PF_LOCAL`, and its servers carry the handle of its own controller. -/
theorem server_multiplex_tables (sys : System σ C) (bindAddr : List Bytes)
    (constructors : List (Constructor σ C)) (uninit count : Nat) (controllers : Nat → Option C) (g : σ) :
    (∀ e, (serverMultiplex sys bindAddr constructors uninit).run (World.start count controllers g) ≠ .halt e) ∧
      ∀ n w, (serverMultiplex sys bindAddr constructors uninit).run (World.start count controllers g) = .ok n w →
        ∃ addrs, bindAddresses sys bindAddr = some addrs ∧
          n ≤ addrs.length * constructors.length ∧ w.pfd.length = addrs.length * constructors.length ∧
          Agree n w ∧ (∀ i < constructors.length, Upto addrs.length (entriesOf w n i) ∧
            ∀ (k : Nat) (s : Server C), (entriesOf w n i)[k]? = some s → s.family ≠ pfLocal →
              addrs[k]? = some s.address) ∧
          Handles constructors.length addrs.length n (World.start count controllers g) w := by
  obtain ⟨w', hr⟩ | ⟨addrs, gs, n', w', haddr, hr, hlen, hgs⟩ :=
    serverMultiplex_cases sys bindAddr constructors uninit count controllers g
  · rw [hr]
    exact ⟨fun e h => absurd h (by simp), fun n w h => absurd h (by simp)⟩
  rw [hr]
  refine ⟨fun e h => absurd h (by simp), ?_⟩
  intro n w h
  obtain ⟨hn, rfl⟩ : n'.pfdCount = n ∧ w' = w := by
    cases h
    exact ⟨rfl, rfl⟩
  have hcount : n = gs.flatten.length := by
    rw [← hn, hgs.pfdCount, Nat.zero_add]
  have hfilled : Filled n w' := by
    have hf := hgs.filled
    rwa [Nat.zero_add, ← hcount] at hf
  have hsize : w'.pfd.length = addrs.length * constructors.length := by
    rw [hgs.size, World.allocated, List.length_replicate]
  have hentries : ∀ i, entriesOf w' n i = gs[i]?.getD [] := by
    intro i
    have hlook := filter_callers 0 i gs
    rw [Nat.zero_add] at hlook
    rw [entriesOf_eq hfilled, hgs.caller, hgs.servers]
    exact hlook
  have hgroup : ∀ {i}, i < constructors.length → gs[i]? = some (entriesOf w' n i) := by
    intro i hi
    rw [hentries, List.getElem?_eq_getElem (hlen.symm ▸ hi)]
    rfl
  have hhandle : ∀ {i s}, i < constructors.length → s ∈ entriesOf w' n i → s.controllerHandle = count + i :=
    fun hi hs => hgs.handles (hgroup hi) _ hs
  refine ⟨addrs, haddr, ?_, hsize, ?_, ?_, ?_, ?_, ?_⟩
  · rw [← hsize, ← hfilled.room]
    exact hfilled.le
  · intro j hj
    obtain ⟨s, hs⟩ : ∃ s, w'.servers[j]? = some s :=
      ⟨_, List.getElem?_eq_getElem (hfilled.servers.symm ▸ hj)⟩
    exact ⟨j, s, hfilled.handler hj, hs, hfilled.pfd hs⟩
  · intro i hi
    refine ⟨hgs.upto _ (List.mem_of_getElem? (hgroup hi)), fun k s hk hs => ?_⟩
    exact (hgs.listed _ (List.mem_of_getElem? (hgroup hi))).at hk hs
  · rw [hgs.count, hlen]
    rfl
  · intro i hi
    refine ⟨count + i, fun s hs => hhandle hi hs, ?_⟩
    intro s hs
    cases hg : entriesOf w' n i with
    | nil => simp [hg] at hs
    | cons t g' =>
      obtain rfl : t = s := by simpa [hg] using hs
      have hk := hgroup hi
      rw [hg] at hk
      exact hgs.registered hk
  · intro i i' s s' hi hi' hne hs hs'
    rw [hhandle hi hs, hhandle hi' hs']
    omega

/-- A system in which nothing fails and the descriptors count up. -/
def plainSystem : System Nat Unit := ⟨(), none, true, fun _ _ => true, fun k _ => some (3 + k, k)⟩

/-- A constructor that asks for a local socket when it is called for the second time. -/
def secondLocal : Constructor Nat Unit := fun k s =>
  some ({ s with family := if k = 1 then pfLocal else pfInet }, k + 1)

/-- The families of the entries that a constructor has in the end. -/
def familiesOf (i : Nat) : Outcome (World σ C) Nat → Option (List Int)
  | .ok n w => some ((entriesOf w n i).map Server.family)
  | _ => none

theorem exists_of_familiesOf {o : Outcome (World σ C) Nat} {fs : List Int} (h : familiesOf i o = some fs) :
    ∃ n w, o = .ok n w ∧ (entriesOf w n i).map Server.family = fs := by
  cases o with
  | ok n w => exact ⟨n, w, rfl, Option.some.inj h⟩
  | thrown w => exact absurd h (by simp [familiesOf])
  | halt e => exact absurd h (by simp [familiesOf])

/-- A constructor that chooses `PF_LOCAL` for the second of three addresses gets two entries. -/
theorem server_multiplex_local_second :
    ∃ n w, (serverMultiplex plainSystem [[49], [50], [51]] [secondLocal] 0).run
        (World.start 1 (fun _ => none) 0) = .ok n w ∧
      (∃ s ∈ entriesOf w n 0, s.family = pfLocal) ∧
      ¬ ((entriesOf w n 0).length = 3 ∨ (entriesOf w n 0).length = 1) := by
  have hrun : familiesOf 0 ((serverMultiplex plainSystem [[49], [50], [51]] [secondLocal] 0).run
      (World.start 1 (fun _ => none) 0)) = some [pfInet, pfLocal] := by decide +kernel
  obtain ⟨n, w, hok, hfam⟩ := exists_of_familiesOf hrun
  have hlen := congrArg List.length hfam
  rw [List.length_map] at hlen
  refine ⟨n, w, hok, ?_, by simp [hlen]⟩
  have hmem : pfLocal ∈ (entriesOf w n 0).map Server.family := by
    rw [hfam]
    decide
  obtain ⟨s, hs, hf⟩ := List.mem_map.mp hmem
  exact ⟨s, hs, hf⟩

end NcServer
