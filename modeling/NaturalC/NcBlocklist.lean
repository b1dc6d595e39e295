import NaturalC.NcJoin
import NaturalC.NcNumber
import NaturalC.NcRegex

/-!
# Blocklists in the name service

`dns_query_blocklist` looks up the address of a client below one blocklist domain after the other. The parts
of the address stand in reverse order in the names, which it gets by splitting the address, reversing the list
and joining it again.
-/
namespace NcDns

open Throwing Throwing.Act NcString NcList NcSplit Linked Lines

/-- A `struct in_addr`: its four bytes as they lie in memory. -/
structure InAddr where
  a : UInt8
  b : UInt8
  c : UInt8
  d : UInt8

def decimal (byte : UInt8) : Bytes := printUnsigned byte.toNat

/-- Parts with a dot between each two of them. -/
def dotted (parts : List Bytes) : Bytes := List.intercalate [46] parts

def InAddr.quad (addr : InAddr) : List Bytes :=
  [decimal addr.a, decimal addr.b, decimal addr.c, decimal addr.d]

/-- The address with its bytes in the other order. -/
def InAddr.reversed (addr : InAddr) : InAddr := ⟨addr.d, addr.c, addr.b, addr.a⟩

/-- `INET_ADDRSTRLEN` -/
def inetAddrstrlen : Nat := 16

/-- `inet_ntop(3)` with a buffer of this size. -/
def inetNtop (addr : InAddr) (size : Nat) : Option Bytes :=
  if (dotted addr.quad).length < size then some (dotted addr.quad) else none

/-- The rest of `buf` is zero. -/
def strFromInet (addr : InAddr) : Act Str Unit :=
  match inetNtop addr inetAddrstrlen with
  | none => throwing
  | some text => strCpy true (text ++ List.replicate (inetAddrstrlen + 1 - text.length) 0)

/-- The lists, the names that were looked up so far, and `*result`. -/
structure Query where
  heap : Heap
  asked : List Bytes
  result : Bool

def onHeap {α : Type} (m : Act Heap α) : Act Query α :=
  zoom Query.heap (fun h s => { s with heap := h }) m

theorem run_onHeap_ok {α : Type} {m : Act Heap α} {s : Query} {h : Heap} {x : α} (hm : m.run s.heap = .ok x h) :
    (onHeap m).run s = .ok x { s with heap := h } := run_zoom_ok hm

/-- Whether a name gets an answer. That may depend on the names that were looked up before it. -/
abbrev Oracle := List Bytes → Bytes → Bool

/-- A string as an argument for `%s` or for a function of the C library. -/
def charPointer {σ : Type} (s : Str) : Act σ Bytes := do
  let mem ← deref s.value
  deref (cString mem)

def gethostbyname (O : Oracle) (name : Bytes) : Act Query Bool := do
  let s ← get
  put { s with asked := s.asked ++ [name] }
  pure (O s.asked name)

def setResult (result : Bool) : Act Query Unit := do
  let s ← get
  put { s with result := result }

/-- One round of the loop in `dns_query_blocklist`: the entry and the string for the name. -/
def blocklistStep (O : Oracle) (revAddr : Str) :
    Option Addr × Str → Act Query ((Option Addr × Str) ⊕ Unit)
  | (none, _) => pure (.inr ())
  | (some cur, query) => do
    let e ← onHeap (loadEntry cur)
    let rev ← charPointer revAddr
    let domain ← charPointer e.value
    let (_, query) ← onLocal (strSprintf (rev ++ [46] ++ domain)) query
    let name ← charPointer query
    let answer ← gethostbyname O name
    if answer then do
      setResult true
      pure (.inr ())
    else pure (.inl (e.next, query))

/-- The reverse address string. -/
def reverseAddress (quad : Addr) (addr revAddr : Str) (sinAddr : InAddr) : Act Heap Str := do
  let (_, addr) ← onLocal (strFromInet sinAddr) addr
  strSplit quad addr 46
  listReverse quad
  strJoin revAddr quad 46

/-- A call that fails makes the function return before its list is destroyed. -/
def dnsQueryBlocklist (O : Oracle) (dnsbl : Addr) (sinAddr : InAddr) : Act Query Unit := do
  let addr ← strNew true true
  let revAddr ← strNew true true
  let query ← strNew true true
  let quad ← onHeap listNew
  setResult false
  let revAddr ← onHeap (reverseAddress quad addr revAddr sinAddr)
  let l ← onHeap (loadList dnsbl)
  let s ← get
  loop (blocklistStep O revAddr) (s.heap.fresh + 1) (l.head, query)
  onHeap (listDestroy quad)

/-- The name for an address below a domain. -/
def blockName (addr : InAddr) (domain : Bytes) : Bytes :=
  dotted [decimal addr.d, decimal addr.c, decimal addr.b, decimal addr.a, cText domain]

/-- Look up one name after the other, as long as there is no answer. A name that does not fit into a string
ends it. -/
def lookUp (O : Oracle) : List Bytes → Act Query Unit
  | [] => pure ()
  | name :: names =>
    if name.length > stringMax then throwing
    else do
      let answer ← gethostbyname O name
      if answer then setResult true else lookUp O names

theorem quad_reversed (addr : InAddr) : addr.reversed.quad = addr.quad.reverse := rfl

theorem isDigit_decimal {byte : UInt8} : ∀ x ∈ decimal byte, isDigit x = true := isDigit_printUnsigned

theorem length_decimal (byte : UInt8) : (decimal byte).length ≤ 3 :=
  length_printUnsigned (by decide) (Nat.lt_trans byte.toNat_lt (by decide))

theorem quad_digits (addr : InAddr) : ∀ part ∈ addr.quad, ∀ x ∈ part, isDigit x = true := by
  intro part hpart
  simp only [InAddr.quad, List.mem_cons, List.not_mem_nil, or_false] at hpart
  rcases hpart with rfl | rfl | rfl | rfl <;> exact isDigit_decimal

theorem length_dotted_quad (addr : InAddr) : (dotted addr.quad).length < inetAddrstrlen := by
  have ha := length_decimal addr.a
  have hb := length_decimal addr.b
  have hc := length_decimal addr.c
  have hd := length_decimal addr.d
  simp only [dotted, InAddr.quad, List.intercalate_cons_cons, List.intercalate_singleton, List.length_append,
    List.length_singleton, inetAddrstrlen]
  omega

/-- What is not a digit is not in a part. -/
theorem not_mem_part {parts : List Bytes} (hdigits : ∀ part ∈ parts, ∀ x ∈ part, isDigit x = true) {b : UInt8}
    (hb : isDigit b = false) {part : Bytes} (hpart : part ∈ parts) : b ∉ part := by
  intro hmem
  rw [hdigits part hpart b hmem] at hb
  cases hb

/-- The parts of an address come out of its text again. -/
theorem pieces_dotted {parts : List Bytes} (hdigits : ∀ part ∈ parts, ∀ x ∈ part, isDigit x = true)
    (hne : parts ≠ []) : pieces 46 (dotted parts) = parts := by
  have hdot : ∀ part ∈ parts, 46 ∉ part := fun part hpart => not_mem_part hdigits (by decide) hpart
  have hterm : Unterminated (dotted parts) := by
    obtain ⟨ps, p, rfl⟩ := List.eq_nil_or_concat parts |>.resolve_left hne
    rw [List.concat_eq_append] at hdigits ⊢
    refine unterminated_intercalate (by decide) (by decide) ⟨?_, ?_⟩
    · exact fun h => not_mem_part hdigits (b := 10) (by decide) (by simp) (List.mem_of_getLast? h)
    · exact fun h => not_mem_part hdigits (b := 13) (by decide) (by simp) (List.mem_of_getLast? h)
  rw [pieces_splitOn (by decide), chomp_unterminated hterm]
  exact List.splitOn_intercalate 46 hdot hne

theorem nulFree_dotted {parts : List Bytes} (hdigits : ∀ part ∈ parts, ∀ x ∈ part, isDigit x = true) :
    NulFree (dotted parts) := by
  intro h0
  obtain ⟨part, hpart, hmem⟩ := (mem_intercalate (by decide)).mp h0
  exact not_mem_part hdigits (by decide) hpart hmem

/-- An address in a string. -/
theorem strFromInet_holds {s : Str} {old : Bytes} (hs : Holds s old) (addr : InAddr) :
    ∃ t, (strFromInet addr).run s = .ok () t ∧ Holds t (dotted addr.quad) := by
  have hlen := length_dotted_quad addr
  have hntop : inetNtop addr inetAddrstrlen = some (dotted addr.quad) := if_pos hlen
  obtain ⟨n, hn⟩ : ∃ n, inetAddrstrlen + 1 - (dotted addr.quad).length = n + 1 :=
    ⟨inetAddrstrlen - (dotted addr.quad).length, by omega⟩
  have hbuf : cString (dotted addr.quad ++ List.replicate (inetAddrstrlen + 1 - (dotted addr.quad).length) 0) =
      some (dotted addr.quad) := by
    rw [hn, List.replicate_succ]
    exact cString_append _ _ (nulFree_dotted (quad_digits addr))
  obtain ⟨t, hcpy, ht, -⟩ := (strCpy_holds hs hbuf).1 (Nat.lt_trans hlen (by decide))
  refine ⟨t, ?_, ht⟩
  rw [strFromInet, hntop]
  exact hcpy

variable {F : Rest} {h : Heap} {c : Addr → Option Chain}

/-- The four calls that turn an address round. -/
theorem reverseAddress_rep (r : RepIn F h c) {quad : Addr} {xs : Chain} (hq : c quad = some xs) {addr revAddr : Str}
    {t u : Bytes} (ha : Holds addr t) (hrev : Holds revAddr u) (sinAddr : InAddr) :
    ∃ h' ys rev, (reverseAddress quad addr revAddr sinAddr).run h = .ok rev h' ∧
      Holds rev (dotted sinAddr.reversed.quad) ∧ texts ys = sinAddr.reversed.quad ∧
      RepIn F h' (Function.update c quad (some ys)) := by
  have hdigits := quad_digits sinAddr
  have hlen := length_dotted_quad sinAddr
  obtain ⟨a, hfrom, ha⟩ := strFromInet_holds ha sinAddr
  have hne : dotted sinAddr.quad ≠ [] := by simp [dotted, InAddr.quad]
  obtain ⟨h₁, ys, hsplit, ⟨hys, -⟩, r₁⟩ := strSplit_rep r hq ha (d := 46) (nulFree_dotted hdigits) hne
    (Nat.lt_trans hlen (by decide))
  rw [pieces_dotted hdigits (by simp [InAddr.quad])] at hys
  obtain ⟨h₂, hreverse, r₂⟩ := listReverse_rep r₁ (Function.update_self _ _ _)
  rw [Function.update_idem] at r₂
  have htexts : texts ys.reverse = sinAddr.reversed.quad := by
    rw [quad_reversed, ← hys, texts, texts, List.map_reverse]
  have hparts : ∀ part ∈ texts ys.reverse, NulFree part := by
    intro part hpart
    rw [htexts] at hpart
    exact not_mem_part (quad_digits sinAddr.reversed) (by decide) hpart
  obtain ⟨rev, hjoin, hrev⟩ := strJoin_rep r₂ (Function.update_self _ _ _) (d := 46) (by decide) (by decide) hparts
    hrev (by rw [htexts]; exact Nat.lt_trans (length_dotted_quad sinAddr.reversed) (by decide))
  rw [htexts] at hrev
  refine ⟨h₂, ys.reverse, rev, ?_, hrev, htexts, r₂⟩
  simp only [reverseAddress]
  rw [run_bind_ok (run_onLocal_ok hfrom h)]
  dsimp only
  rw [run_bind_ok hsplit, run_bind_ok hreverse, hjoin]

/-- The name for an entry of the list. -/
theorem dotted_quad_append (addr : InAddr) (domain : Bytes) :
    dotted addr.reversed.quad ++ [46] ++ cText domain = blockName addr domain := by
  simp [dotted, blockName, InAddr.quad, InAddr.reversed]

theorem run_charPointer {σ : Type} {s : Str} {t : Bytes} (hs : Holds s t) (st : σ) :
    (charPointer s).run st = .ok (cText t) st := by
  obtain ⟨rest, hval, -⟩ := hs.value
  rw [charPointer, hval, deref_some, run_bind_ret, cString_cText]
  rfl

theorem run_gethostbyname (O : Oracle) (name : Bytes) (s : Query) :
    (gethostbyname O name).run s = .ok (O s.asked name) { s with asked := s.asked ++ [name] } := rfl

theorem nulFree_blockName (addr : InAddr) (domain : Bytes) : NulFree (blockName addr domain) := by
  have hdomain : NulFree (cText domain) := nulFree_cText domain
  have hparts : NulFree (dotted addr.reversed.quad) := nulFree_dotted (quad_digits addr.reversed)
  rw [← dotted_quad_append]
  exact (hparts.append (by decide)).append hdomain

variable {O : Oracle}

/-- One round looks up one name, unless that one is too long for a string. -/
theorem run_blocklistStep {s : Query} {a : Addr} {v : Str} {next prev : Option Addr}
    (ha : s.heap.entry a = some ⟨v, next, prev⟩) (hv : Holds v v.text) (addr : InAddr) {rev : Str}
    (hrev : Holds rev (dotted addr.reversed.quad)) (query : Str) :
    ((blockName addr v.text).length ≤ stringMax → ∃ query',
      (blocklistStep O rev (some a, query)).run s =
        if O s.asked (blockName addr v.text) then
          .ok (.inr ()) { s with asked := s.asked ++ [blockName addr v.text], result := true }
        else .ok (.inl (next, query')) { s with asked := s.asked ++ [blockName addr v.text] }) ∧
    (stringMax < (blockName addr v.text).length → (blocklistStep O rev (some a, query)).run s = .thrown s) := by
  have hentry : (onHeap (loadEntry a)).run s = .ok ⟨v, next, prev⟩ s := by
    have hload : (loadEntry a).run s.heap = .ok ⟨v, next, prev⟩ s.heap := by
      rw [loadEntry, run_bind_get, ha]
      rfl
    exact run_onHeap_ok hload
  have hrevText : cText (dotted addr.reversed.quad) = dotted addr.reversed.quad :=
    cText_of_nulFree (nulFree_dotted (quad_digits addr.reversed))
  simp only [blocklistStep]
  rw [run_bind_ok hentry, run_bind_ok (run_charPointer hrev s), run_bind_ok (run_charPointer hv s), hrevText,
    dotted_quad_append]
  constructor
  · intro hfit
    obtain ⟨q, hprint, hq, -⟩ := strSprintf_holds (s := query) hfit
    have hname := run_charPointer hq s
    rw [cText_of_nulFree (nulFree_blockName addr v.text)] at hname
    refine ⟨q, ?_⟩
    rw [run_bind_ok (run_onLocal_ok hprint s)]
    dsimp only
    rw [run_bind_ok hname]
    rw [run_bind_ok (run_gethostbyname O _ s)]
    cases O s.asked (blockName addr v.text) <;> rfl
  · intro hbig
    have hprint : ∃ q, (strSprintf (blockName addr v.text)).run query = .thrown q := by
      simp only [strSprintf, run_bind_get, if_pos hbig]
      exact ⟨_, rfl⟩
    obtain ⟨q, hprint⟩ := hprint
    exact run_bind_thrown (run_onLocal_thrown hprint s)

/-- The loop looks up the names for the domains that are still ahead of it. -/
theorem loop_blocklist (pre : Chain) {s : Query} (r : RepIn F s.heap c) {dnsbl : Addr} {todo : Chain}
    (hl : c dnsbl = some (pre ++ todo)) (addr : InAddr) {rev : Str} (hrev : Holds rev (dotted addr.reversed.quad))
    (query : Str) {fuel : Nat} (hf : todo.length < fuel) :
    (loop (blocklistStep O rev) fuel (first todo none, query)).run s =
      (lookUp O ((texts todo).map (blockName addr))).run s := by
  induction todo generalizing pre s query fuel with
  | nil =>
    obtain ⟨fuel, rfl⟩ : ∃ k, fuel = k + 1 := ⟨fuel - 1, by simp at hf; omega⟩
    exact run_loop_inr rfl
  | cons x todo ih =>
    obtain ⟨a, v⟩ := x
    obtain ⟨fuel, rfl⟩ : ∃ k, fuel = k + 1 := ⟨fuel - 1, by simp at hf; omega⟩
    have hv : Holds v v.text := r.wf hl (a, v) (by simp)
    have hl' : c dnsbl = some (pre ++ [(a, v)] ++ todo) := by rw [hl, List.append_assoc]; rfl
    obtain ⟨hfits, hthrows⟩ := run_blocklistStep (O := O) (r.seg hl).prev hv addr hrev query
    rw [first_cons, texts_cons, List.map_cons, lookUp]
    by_cases hbig : (blockName addr v.text).length > stringMax
    · rw [if_pos hbig]
      exact run_loop_thrown (hthrows hbig)
    · rw [if_neg hbig]
      obtain ⟨q, hstep⟩ := hfits (Nat.not_lt.mp hbig)
      rw [run_bind_ok (run_gethostbyname O _ s)]
      cases hO : O s.asked (blockName addr v.text) with
      | true =>
        rw [hO] at hstep
        exact run_loop_inr hstep
      | false =>
        rw [hO] at hstep
        rw [run_loop_inl hstep]
        exact ih (pre ++ [(a, v)]) (s := { s with asked := s.asked ++ [blockName addr v.text] }) r hl' q
          (by simpa using hf)

/-- None of these names gets an answer when they are looked up in this order. -/
def Unanswered (O : Oracle) (asked names : List Bytes) : Prop :=
  ∀ pre name post, names = pre ++ name :: post → O (asked ++ pre) name = false

theorem unanswered_nil (asked : List Bytes) : Unanswered O asked [] := by
  intro pre name post h
  simp at h

theorem Unanswered.cons {asked names : List Bytes} {name : Bytes} (hname : O asked name = false)
    (hrest : Unanswered O (asked ++ [name]) names) : Unanswered O asked (name :: names) := by
  intro pre n post h
  cases pre with
  | nil =>
    obtain ⟨rfl, -⟩ := List.cons.inj h
    simpa using hname
  | cons x pre =>
    obtain ⟨rfl, hnames⟩ := List.cons.inj h
    simpa using hrest pre n post hnames

/-- The names were looked up in this order up to the first that was answered, or all of them if there is none. -/
def Consulted (O : Oracle) (asked names : List Bytes) (t : Query) : Prop :=
  (t.result = true ∧ ∃ pre name post, names = pre ++ name :: post ∧ Unanswered O asked pre ∧
    O (asked ++ pre) name = true ∧ t.asked = asked ++ pre ++ [name]) ∨
  (t.result = false ∧ Unanswered O asked names ∧ t.asked = asked ++ names)

/-- The names in front of the first one that is too long for a string. -/
def fitting (names : List Bytes) : List Bytes := names.takeWhile fun name => name.length ≤ stringMax

/-- Either one of the names is the first to be answered, or all that fit are looked up in vain. -/
theorem run_lookUp (names asked : List Bytes) :
    (∃ pre name post, fitting names = pre ++ name :: post ∧ Unanswered O asked pre ∧
      O (asked ++ pre) name = true ∧ ∀ h b,
        (lookUp O names).run ⟨h, asked, b⟩ = .ok () ⟨h, asked ++ pre ++ [name], true⟩) ∨
    (Unanswered O asked (fitting names) ∧ ∀ h b,
      (lookUp O names).run ⟨h, asked, b⟩ =
        if fitting names = names then .ok () ⟨h, asked ++ fitting names, b⟩
        else .thrown ⟨h, asked ++ fitting names, b⟩) := by
  induction names generalizing asked with
  | nil =>
    refine .inr ⟨unanswered_nil asked, ?_⟩
    intro h b
    simp [fitting, lookUp]
  | cons name names ih =>
    by_cases hbig : name.length > stringMax
    · have hfit : fitting (name :: names) = [] := List.takeWhile_cons_of_neg (by simpa using hbig)
      refine .inr ?_
      rw [hfit]
      refine ⟨unanswered_nil asked, ?_⟩
      intro h b
      rw [lookUp, if_pos hbig, if_neg (by simp), List.append_nil]
      rfl
    have hfit : fitting (name :: names) = name :: fitting names :=
      List.takeWhile_cons_of_pos (by simpa using hbig)
    have hrun : ∀ h b, (lookUp O (name :: names)).run ⟨h, asked, b⟩ =
        (if O asked name then setResult true else lookUp O names).run ⟨h, asked ++ [name], b⟩ := by
      intro h b
      rw [lookUp, if_neg hbig, run_bind_ok (run_gethostbyname O name _)]
    rw [hfit]
    cases hO : O asked name with
    | true =>
      refine .inl ⟨[], name, fitting names, rfl, unanswered_nil asked, by simpa using hO, ?_⟩
      intro h b
      rw [hrun, if_pos hO, List.append_nil]
      rfl
    | false =>
      rcases ih (asked ++ [name]) with ⟨pre, n, post, hsplit, hpre, hn, hout⟩ | ⟨hall, hout⟩
      · refine .inl ⟨name :: pre, n, post, by rw [hsplit]; rfl, hpre.cons hO, by simpa using hn, ?_⟩
        intro h b
        rw [hrun, if_neg (by simp [hO]), hout]
        simp
      · refine .inr ⟨hall.cons hO, ?_⟩
        intro h b
        rw [hrun, if_neg (by simp [hO]), hout]
        simp

/-- A new list with the parts of the address is in the heap beside the other ones. -/
def LeftBehind (F : Rest) (c : Addr → Option Chain) (addr : InAddr) (h : Heap) : Prop :=
  ∃ quad ys, c quad = none ∧ texts ys = addr.reversed.quad ∧ RepIn F h (Function.update c quad (some ys))

/-- `dns_query_blocklist` looks up the names for all domains of the list. It destroys its own list when it is
through, and leaves it behind when it throws. -/
theorem run_dnsQueryBlocklist {s : Query} (r : RepIn F s.heap c) {dnsbl : Addr} {xs : Chain}
    (hl : c dnsbl = some xs) (addr : InAddr) :
    ∃ h₁ h₂, LeftBehind F c addr h₁ ∧ RepIn F h₂ c ∧ ∀ asked result,
      ((lookUp O ((texts xs).map (blockName addr))).run ⟨h₁, s.asked, false⟩ = .ok () ⟨h₁, asked, result⟩ →
        (dnsQueryBlocklist O dnsbl addr).run s = .ok () ⟨h₂, asked, result⟩) ∧
      ((lookUp O ((texts xs).map (blockName addr))).run ⟨h₁, s.asked, false⟩ = .thrown ⟨h₁, asked, result⟩ →
        (dnsQueryBlocklist O dnsbl addr).run s = .thrown ⟨h₁, asked, result⟩) := by
  obtain ⟨s₁, hs₁, ha, -⟩ := strNew_holds s
  obtain ⟨s₂, hs₂, hrev, -⟩ := strNew_holds s
  obtain ⟨s₃, hs₃, -⟩ := strNew_holds s
  obtain ⟨h₁, hnew, hfresh, r₁⟩ := listNew_rep r
  obtain ⟨h₂, ys, rev, hreverse, hrev, hparts, r₂⟩ :=
    reverseAddress_rep r₁ (Function.update_self _ _ _) ha hrev addr
  rw [Function.update_idem] at r₂
  have hne : dnsbl ≠ s.heap.fresh := by
    rintro rfl
    rw [hfresh] at hl
    cases hl
  have hl₂ : Function.update c s.heap.fresh (some ys) dnsbl = some xs := by rw [Function.update_of_ne hne, hl]
  obtain ⟨h₃, hdestroy, r₃⟩ := listDestroy_rep r₂ (Function.update_self _ _ _)
  rw [Function.update_idem, ← hfresh, Function.update_eq_self] at r₃
  have hloop : (loop (blocklistStep O rev) (h₂.fresh + 1) ((header xs).head, s₃)).run ⟨h₂, s.asked, false⟩ =
      (lookUp O ((texts xs).map (blockName addr))).run ⟨h₂, s.asked, false⟩ :=
    loop_blocklist [] r₂ hl₂ addr hrev s₃ (Nat.lt_succ_of_le (r₂.length_le hl₂))
  have hlist : (loadList dnsbl).run h₂ = .ok (header xs) h₂ := by
    rw [loadList, run_bind_get, r₂.list_eq hl₂]
    rfl
  have hreset : (setResult false).run { s with heap := h₁ } = .ok () ⟨h₁, s.asked, false⟩ := rfl
  have hstart : (dnsQueryBlocklist O dnsbl addr).run s = (do
      loop (blocklistStep O rev) (h₂.fresh + 1) ((header xs).head, s₃)
      onHeap (listDestroy s.heap.fresh) : Act Query Unit).run ⟨h₂, s.asked, false⟩ := by
    simp only [dnsQueryBlocklist]
    rw [run_bind_ok hs₁, run_bind_ok hs₂, run_bind_ok hs₃, run_bind_ok (run_onHeap_ok hnew), run_bind_ok hreset,
      run_bind_ok (run_onHeap_ok hreverse), run_bind_ok (run_onHeap_ok hlist), run_bind_get]
  refine ⟨h₂, h₃, ⟨s.heap.fresh, ys, hfresh, hparts, r₂⟩, r₃, fun asked result => ⟨fun hout => ?_, fun hout => ?_⟩⟩
  · rw [hstart, run_bind_ok (hloop.trans hout)]
    exact run_onHeap_ok hdestroy
  · rw [hstart, run_bind_thrown (hloop.trans hout)]

/-- `dns_query_blocklist` looks up the names `d.c.b.a.domain` for the domains in the order of the list up to the
first that is answered, and says whether there was one. A name that is too long for a string makes it give up
and leave its own list behind. -/
theorem blocklist_lookups {s : Query} (r : RepIn F s.heap c) {dnsbl : Addr} {xs : Chain} (hl : c dnsbl = some xs)
    (O : Oracle) (addr : InAddr) :
    ∃ t, Consulted O s.asked (fitting ((texts xs).map (blockName addr))) t ∧
      if t.result = true ∨ fitting ((texts xs).map (blockName addr)) = (texts xs).map (blockName addr)
      then (dnsQueryBlocklist O dnsbl addr).run s = .ok () t ∧ RepIn F t.heap c
      else (dnsQueryBlocklist O dnsbl addr).run s = .thrown t ∧ LeftBehind F c addr t.heap := by
  obtain ⟨h₁, h₂, hleft, r', hrun⟩ := run_dnsQueryBlocklist (O := O) r hl addr
  rcases run_lookUp (O := O) ((texts xs).map (blockName addr)) s.asked with
    ⟨pre, name, post, hsplit, hpre, hname, hout⟩ | ⟨hall, hout⟩
  · refine ⟨⟨h₂, s.asked ++ pre ++ [name], true⟩, .inl ⟨rfl, pre, name, post, hsplit, hpre, hname, rfl⟩, ?_⟩
    rw [if_pos (.inl rfl)]
    exact ⟨(hrun _ _).1 (hout h₁ false), r'⟩
  · have hend := hout h₁ false
    by_cases hfits : fitting ((texts xs).map (blockName addr)) = (texts xs).map (blockName addr)
    · rw [if_pos hfits] at hend
      refine ⟨⟨h₂, s.asked ++ fitting ((texts xs).map (blockName addr)), false⟩, .inr ⟨rfl, hall, rfl⟩, ?_⟩
      rw [if_pos (.inr hfits)]
      exact ⟨(hrun _ _).1 hend, r'⟩
    · rw [if_neg hfits] at hend
      refine ⟨⟨h₁, s.asked ++ fitting ((texts xs).map (blockName addr)), false⟩, .inr ⟨rfl, hall, rfl⟩, ?_⟩
      rw [if_neg (by simpa using hfits)]
      exact ⟨(hrun _ _).2 hend, hleft⟩

/-- The loopback address in two lists, of which the second has it. -/
theorem blocklist_lookups_loopback :
    ∃ l h₀ h₁ h₂ t, listNew.run Heap.empty = .ok l h₀ ∧ (listCat l (charArray [97])).run h₀ = .ok () h₁ ∧
      (listCat l (charArray [98])).run h₁ = .ok () h₂ ∧
      (dnsQueryBlocklist (fun _ name => name.getLast? == some 98) l ⟨127, 0, 0, 1⟩).run ⟨h₂, [], false⟩ =
        .ok () t ∧
      t.asked = [[49, 46, 48, 46, 48, 46, 49, 50, 55, 46, 97], [49, 46, 48, 46, 48, 46, 49, 50, 55, 46, 98]] ∧
      t.result = true := by
  obtain ⟨h₀, hnew, -, r₀⟩ := listNew_rep rep_empty
  obtain ⟨h₁, v, hcat₁, ⟨hv, -⟩, -, r₁⟩ := (listCat_rep r₀ (Function.update_self _ _ _)
    (cString_charArray [97] (by decide))).1 (by decide)
  obtain ⟨h₂, w, hcat₂, ⟨hw, -⟩, -, r₂⟩ := (listCat_rep r₁ (Function.update_self _ _ _)
    (cString_charArray [98] (by decide))).1 (by decide)
  obtain ⟨t, hconsulted, hrun⟩ := blocklist_lookups (s := ⟨h₂, [], false⟩) r₂ (Function.update_self _ _ _)
    (fun _ name => name.getLast? == some 98) ⟨127, 0, 0, 1⟩
  have hnames : fitting ((texts ([] ++ [(h₀.fresh, v)] ++ [(h₁.fresh, w)])).map (blockName ⟨127, 0, 0, 1⟩)) =
      [[49, 46, 48, 46, 48, 46, 49, 50, 55, 46, 97], [49, 46, 48, 46, 48, 46, 49, 50, 55, 46, 98]] := by
    simp only [texts_append, texts_cons, texts_nil, hv.text, hw.text]
    decide +kernel
  rw [hnames] at hconsulted
  rcases hconsulted with ⟨hresult, pre, name, post, hsplit, -, hname, hasked⟩ | ⟨-, hnone, -⟩
  · rw [if_pos (.inl hresult)] at hrun
    refine ⟨_, h₀, h₁, h₂, t, hnew, hcat₁, hcat₂, hrun.1, ?_, hresult⟩
    -- The first name is not answered, so it is the second one.
    rcases pre with _ | ⟨x, _ | ⟨y, pre⟩⟩
    · obtain ⟨rfl, -⟩ := List.cons.inj hsplit
      simp at hname
    · obtain ⟨rfl, hrest⟩ := List.cons.inj hsplit
      obtain ⟨rfl, -⟩ := List.cons.inj hrest
      exact hasked
    · simp at hsplit
  · exact absurd (hnone [_] _ [] rfl) (by simp)

/-- A domain that is one byte shorter than `STRING_MAX`. -/
def longDomain : Bytes := List.replicate (stringMax - 1) 97

/-- A domain that the list takes, but no name below it is looked up, whatever the answer would be. -/
theorem long_domain_not_looked_up :
    ∃ l h₀ h t, listNew.run Heap.empty = .ok l h₀ ∧ (listCat l (charArray longDomain)).run h₀ = .ok () h ∧
      (dnsQueryBlocklist (fun _ _ => true) l ⟨127, 0, 0, 1⟩).run ⟨h, [], false⟩ = .thrown t ∧
      ¬ Consulted (fun _ _ => true) [] [blockName ⟨127, 0, 0, 1⟩ longDomain] t := by
  have hnul : NulFree longDomain := by simp [NulFree, longDomain, List.mem_replicate]
  have hlen : longDomain.length < stringMax := by
    rw [longDomain, List.length_replicate]
    decide
  have hbig : stringMax < (blockName ⟨127, 0, 0, 1⟩ longDomain).length := by
    rw [blockName, cText_of_nulFree hnul]
    simp only [dotted, List.intercalate_cons_cons, List.intercalate_singleton, List.length_append,
      List.length_singleton, longDomain, List.length_replicate]
    omega
  obtain ⟨h₀, hnew, -, r₀⟩ := listNew_rep rep_empty
  obtain ⟨h, v, hcat, ⟨hv, -⟩, -, r⟩ := (listCat_rep r₀ (Function.update_self _ _ _)
    (cString_charArray longDomain hnul)).1 hlen
  obtain ⟨h₁, h₂, -, -, hrun⟩ := run_dnsQueryBlocklist (O := fun _ _ => true) (s := ⟨h, [], false⟩) r
    (Function.update_self _ _ _) ⟨127, 0, 0, 1⟩
  refine ⟨_, h₀, h, ⟨h₁, [], false⟩, hnew, hcat, (hrun [] false).2 ?_, ?_⟩
  · rw [List.nil_append, texts_cons, List.map_cons, hv.text, lookUp, if_pos hbig]
    rfl
  · rintro (⟨htrue, -⟩ | ⟨-, hnone, -⟩)
    · cases htrue
    · exact absurd (hnone [] _ [] rfl) (by decide)

end NcDns
