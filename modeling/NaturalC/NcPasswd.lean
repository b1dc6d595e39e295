import NaturalC.NcStringSpec

/-!
# Users and groups

The lookups in a user and group database. `root` and `wheel` are names of the group 0
whatever the database says, since a system has only one of them.
-/
namespace NcPasswd

open Throwing Throwing.Act NcString

/-- An entry of a database: its id and name, and the bytes that its fields take in the buffer of a lookup. -/
structure Entry where
  id : Nat
  name : CText
  size : Nat
  fits : name.1.length < size

/-- Both databases, by name and by id. -/
structure Accounts where
  userNamed : Bytes → Option Entry
  groupNamed : Bytes → Option Entry
  user : Nat → Option Entry
  group : Nat → Option Entry

/-- `ERANGE` -/
def erange : Int := 34

/-- `getpwnam_r(3)`, `getpwuid_r(3)`, `getgrnam_r(3)` and `getgrgid_r(3)` about an entry that may be there, with
what they leave in the result pointer. -/
def getEntry (entry : Option Entry) (buflen : Nat) : Int × Option Entry :=
  match entry with
  | none => (0, none)
  | some e => if e.size ≤ buflen then (0, some e) else (erange, none)

/-- `__getpw_r`, on a system without `getpwuid_r(3)`. The entry stays in the memory of the library. -/
def getpwR (entry : Option Entry) : Int × Option Entry :=
  match entry with
  | some e => (0, some e)
  | none => (-1, none)

def passwdGetpwnam (haveGetpwuidR : Bool) (acc : Accounts) (name : Bytes) (buflen : Nat) : Int × Option Entry :=
  if haveGetpwuidR then getEntry (acc.userNamed name) buflen else getpwR (acc.userNamed name)

def passwdGetpwuid (haveGetpwuidR : Bool) (acc : Accounts) (uid buflen : Nat) : Int × Option Entry :=
  if haveGetpwuidR then getEntry (acc.user uid) buflen else getpwR (acc.user uid)

/-- The size of `buf` in `passwd_get_id_by_name`. -/
def nameBufsize : Nat := 512

variable {σ : Type}

def passwdGetIdByName (haveGetpwuidR : Bool) (acc : Accounts) (name : Str) : Act σ Nat := do
  let name ← deref (name.value.bind cString)
  let (i, pwptr) := passwdGetpwnam haveGetpwuidR acc name nameBufsize
  if i < 0 then throwing
  else match pwptr with
    | some pwent => pure pwent.id
    | none => throwing

def passwdExists (haveGetpwuidR : Bool) (acc : Accounts) (name : Str) : Act σ Bool := do
  let found ← attempt (passwdGetIdByName haveGetpwuidR acc name)
  pure found.isSome

/-- `"root"`. -/
def rootName : Bytes := [114, 111, 111, 116]

/-- `"wheel"`. -/
def wheelName : Bytes := [119, 104, 101, 101, 108]

/-- `GETGR_R_SIZE_MAX` -/
def getgrRSizeMax : Nat := 1024 + 200 * 8

/-- The call of `getgrnam_r(3)` or `getgrgid_r(3)`. -/
def getGroup (byName : Bool) (acc : Accounts) (gid : Nat) (name : Str) : Act σ (Int × Option Entry) :=
  if byName then do
    let key ← deref (name.value.bind cString)
    pure (getEntry (acc.groupNamed key) (getgrRSizeMax + 1))
  else pure (getEntry (acc.group gid) (getgrRSizeMax + 1))

/-- What `__group_get_gev` makes of the answer. -/
def storeGroup (byName : Bool) (gid : Nat) (name : Str) : Int × Option Entry → Act σ (Nat × Str)
  | (i, ptr) =>
    if i < 0 then throwing
    else match ptr with
      | none => throwing
      | some gr =>
        if byName then pure (gr.id, name)
        else do
          let (_, name) ← onLocal (strCpy true (charArray gr.name.1)) name
          pure (gid, name)

/-- `__group_get_gev`, with what it leaves in its two arguments. -/
def groupGetGev (byName : Bool) (acc : Accounts) (gid : Nat) (name : Str) : Act σ (Nat × Str) := do
  let root ← strCmp name (charArray rootName)
  let wheel ← strCmp name (charArray wheelName)
  if root = 0 ∨ wheel = 0 then pure (0, name)
  else do
    let answer ← getGroup byName acc gid name
    storeGroup byName gid name answer

def groupGetIdByName (acc : Accounts) (name : Str) : Act σ Nat := do
  match ← attempt (groupGetGev true acc 0 name) with
  | some (gid, _) => pure gid
  | none => throwing

def groupExists (acc : Accounts) (name : Str) : Act σ Bool := do
  let found ← attempt (groupGetIdByName acc name)
  pure found.isSome

def groupGetNameById (acc : Accounts) (gid : Nat) (name : Str) : Act σ Str := do
  let (_, name) ← groupGetGev false acc gid name
  pure name

def passwdGetNameById (haveGetpwuidR : Bool) (acc : Accounts) (uid : Nat) (name : Str) : Act σ Str := do
  let (i, result) := passwdGetpwuid haveGetpwuidR acc uid 1024
  if i < 0 then throwing
  else do
    let pwent ← deref result
    let (_, name) ← onLocal (strCpy true (charArray pwent.name.1)) name
    pure name

/-! ## Lookups by name -/

/-- The id of the user with this name. -/
def Accounts.userId (acc : Accounts) (name : Bytes) : Option Nat := (acc.userNamed name).map Entry.id

/-- The group of a name. BSD has `wheel` where Linux has `root`, and both names are good on both. -/
def Accounts.groupId (acc : Accounts) (name : Bytes) : Option Nat :=
  if name = rootName ∨ name = wheelName then some 0 else (acc.groupNamed name).map Entry.id

/-- The buffer of a lookup by name takes the entry of the user, if it goes through one. -/
def Entry.userFits (haveGetpwuidR : Bool) (e : Entry) : Bool := !haveGetpwuidR || e.size ≤ nameBufsize

def Entry.groupFits (e : Entry) : Bool := e.size ≤ getgrRSizeMax + 1

/-- What `passwd_get_id_by_name` finds. -/
def Accounts.foundUser (acc : Accounts) (haveGetpwuidR : Bool) (name : Bytes) : Option Nat :=
  ((acc.userNamed name).filter (Entry.userFits haveGetpwuidR)).map Entry.id

/-- What `group_get_id_by_name` finds. -/
def Accounts.foundGroup (acc : Accounts) (name : Bytes) : Option Nat :=
  if name = rootName ∨ name = wheelName then some 0 else ((acc.groupNamed name).filter Entry.groupFits).map Entry.id

variable {acc : Accounts} {name : Str} {entry : Option Entry} {buflen : Nat} {e : Entry}

theorem getEntry_fits (hsize : e.size ≤ buflen) : getEntry (some e) buflen = (0, some e) := if_pos hsize

theorem getEntry_large (hsize : ¬ e.size ≤ buflen) : getEntry (some e) buflen = (erange, none) := if_neg hsize

/-- A lookup that finds an id, or fails. -/
def answer (id : Option Nat) (st : σ) : Outcome σ Nat :=
  match id with
  | some id => .ok id st
  | none => .thrown st

theorem run_attempt_answer {m : Act σ Nat} {id : Option Nat} {st : σ} (h : m.run st = answer id st) :
    (attempt m).run st = .ok id st := by
  cases id with
  | none => exact run_attempt_thrown h
  | some id => exact run_attempt_ok h

theorem run_passwdGetIdByName (haveGetpwuidR : Bool) (hname : name.WF) (st : σ) :
    (passwdGetIdByName haveGetpwuidR acc name).run st =
      answer (acc.foundUser haveGetpwuidR (cText name.text)) st := by
  rw [passwdGetIdByName, Holds.bind_cString hname, deref_some, run_bind_ret, Accounts.foundUser, passwdGetpwnam]
  cases acc.userNamed (cText name.text) with
  | none => cases haveGetpwuidR <;> rfl
  | some e =>
    cases haveGetpwuidR with
    | false => rfl
    | true =>
      by_cases hsize : e.size ≤ nameBufsize
      · have hfits : e.userFits true = true := by simpa [Entry.userFits] using hsize
        rw [if_pos rfl, getEntry_fits hsize, Option.filter_some_pos hfits]
        rfl
      · have hlarge : e.userFits true = false := by simpa [Entry.userFits] using hsize
        rw [if_pos rfl, getEntry_large hsize, Option.filter_some_neg (by simp [hlarge])]
        rfl

theorem run_passwdExists (haveGetpwuidR : Bool) (hname : name.WF) (st : σ) :
    (passwdExists haveGetpwuidR acc name).run st =
      .ok (acc.foundUser haveGetpwuidR (cText name.text)).isSome st := by
  rw [passwdExists, run_bind_ok (run_attempt_answer (run_passwdGetIdByName haveGetpwuidR hname st))]
  rfl

/-- The output string reads `root` or `wheel`. -/
def Special (name : Str) : Prop := cText name.text = rootName ∨ cText name.text = wheelName

instance (name : Str) : Decidable (Special name) := inferInstanceAs (Decidable (_ ∨ _))

/-- `root` and `wheel` are the group 0, and for any other name there is a lookup. -/
theorem run_groupGetGev (byName : Bool) (hname : name.WF) (gid : Nat) (st : σ) :
    (groupGetGev byName acc gid name).run st =
      if Special name then .ok (0, name) st
      else (getGroup byName acc gid name >>= storeGroup byName gid name : Act σ (Nat × Str)).run st := by
  have hroot : cString (charArray rootName) = some rootName := cString_charArray _ (by decide)
  have hwheel : cString (charArray wheelName) = some wheelName := cString_charArray _ (by decide)
  have hboth : strcmp (cText name.text) rootName = 0 ∨ strcmp (cText name.text) wheelName = 0 ↔ Special name :=
    or_congr (strcmp_eq_zero _ _) (strcmp_eq_zero _ _)
  rw [groupGetGev, run_bind_ok (strCmp_holds hname hroot st), run_bind_ok (strCmp_holds hname hwheel st)]
  by_cases hspecial : Special name
  · rw [if_pos (hboth.mpr hspecial), if_pos hspecial]
    rfl
  · rw [if_neg (mt hboth.mp hspecial), if_neg hspecial]

/-- By name, any other name than these two gives the id of an entry that fits, or fails. -/
theorem run_getGroup_name (hname : name.WF) (gid : Nat) (st : σ) :
    (getGroup true acc gid name >>= storeGroup true gid name : Act σ (Nat × Str)).run st =
      match (acc.groupNamed (cText name.text)).filter Entry.groupFits with
      | some e => .ok (e.id, name) st
      | none => .thrown st := by
  have hkey : (getGroup true acc gid name).run st =
      .ok (getEntry (acc.groupNamed (cText name.text)) (getgrRSizeMax + 1)) st := by
    rw [getGroup, if_pos rfl, Holds.bind_cString hname]
    rfl
  rw [run_bind_ok hkey]
  cases acc.groupNamed (cText name.text) with
  | none => rfl
  | some e =>
    by_cases hsize : e.size ≤ getgrRSizeMax + 1
    · rw [getEntry_fits hsize, Option.filter_some_pos (by simpa [Entry.groupFits] using hsize)]
      rfl
    · rw [getEntry_large hsize, Option.filter_some_neg (by simpa [Entry.groupFits] using hsize)]
      rfl

theorem run_groupGetIdByName (hname : name.WF) (st : σ) :
    (groupGetIdByName acc name).run st = answer (acc.foundGroup (cText name.text)) st := by
  have hgev : (groupGetGev true acc 0 name).run st = _ := run_groupGetGev true hname 0 st
  rw [groupGetIdByName, Accounts.foundGroup]
  by_cases hspecial : cText name.text = rootName ∨ cText name.text = wheelName
  · rw [if_pos (show Special name from hspecial)] at hgev
    rw [run_bind_ok (run_attempt_ok hgev), if_pos hspecial]
    rfl
  · rw [if_neg (show ¬ Special name from hspecial), run_getGroup_name hname] at hgev
    rw [if_neg hspecial]
    cases hfound : (acc.groupNamed (cText name.text)).filter Entry.groupFits with
    | none =>
      rw [hfound] at hgev
      rw [run_bind_ok (run_attempt_thrown hgev)]
      rfl
    | some e =>
      rw [hfound] at hgev
      rw [run_bind_ok (run_attempt_ok hgev)]
      rfl

theorem run_groupExists (hname : name.WF) (st : σ) :
    (groupExists acc name).run st = .ok (acc.foundGroup (cText name.text)).isSome st := by
  rw [groupExists, run_bind_ok (run_attempt_answer (run_groupGetIdByName hname st))]
  rfl

/-- What a lookup by name finds is there, and fits. -/
theorem foundUser_eq_some {haveGetpwuidR : Bool} {n : Bytes} {uid : Nat} :
    acc.foundUser haveGetpwuidR n = some uid ↔
      ∃ e, acc.userNamed n = some e ∧ e.userFits haveGetpwuidR = true ∧ e.id = uid := by
  rw [Accounts.foundUser, Option.map_eq_some_iff]
  simp only [Option.filter_eq_some_iff, and_assoc]

theorem foundGroup_eq_some {n : Bytes} {gid : Nat} :
    acc.foundGroup n = some gid ↔ acc.groupId n = some gid ∧
      (n = rootName ∨ n = wheelName ∨ ∀ e, acc.groupNamed n = some e → e.groupFits = true) := by
  rw [Accounts.foundGroup, Accounts.groupId]
  by_cases hspecial : n = rootName ∨ n = wheelName
  · rw [if_pos hspecial, if_pos hspecial]
    tauto
  · rw [if_neg hspecial, if_neg hspecial]
    cases acc.groupNamed n with
    | none => simp
    | some e =>
      by_cases hfits : e.groupFits = true
      · simp [hfits]
      · simp [hfits, not_or.mp hspecial]

/-! ## Lookups by id -/

/-- What a caller sees of a lookup. -/
def shown : Outcome σ Str → Outcome σ Bytes
  | .ok name st => .ok (cText name.text) st
  | .thrown st => .thrown st
  | .halt e => .halt e

/-- The name of an entry, or a failure. -/
def named (entry : Option Entry) (st : σ) : Outcome σ Bytes :=
  match entry with
  | some e => .ok e.name.1 st
  | none => .thrown st

/-- A lookup stores the name of the entry or fails, without looking at what is in its output string
or through a null pointer. -/
structure Names (lookup : Str → Act Unit Str) (entry : Option Entry) (old other : Str) : Prop where
  stores : shown ((lookup old).run ()) = named entry ()
  same : shown ((lookup old).run ()) = shown ((lookup other).run ())
  nonnull : (lookup old).run () ≠ .halt .fault

theorem names_iff {lookup : Str → Act Unit Str} {entry : Option Entry} {old other : Str} :
    Names lookup entry old other ↔
      shown ((lookup old).run ()) = named entry () ∧ shown ((lookup other).run ()) = named entry () := by
  constructor
  · intro h
    exact ⟨h.stores, h.same.symm.trans h.stores⟩
  · rintro ⟨hold, hother⟩
    refine ⟨hold, hold.trans hother.symm, ?_⟩
    intro hfault
    rw [hfault] at hold
    cases entry <;> cases hold

/-- A name that fits in a string object is stored over whatever was there, and any other one is refused. -/
theorem run_storeName {old : Str} (hold : old.WF) (n : CText) (st : σ) :
    (n.1.length < stringMax → ∃ new, (onLocal (strCpy true (charArray n.1)) old).run st = .ok ((), new) st ∧
      cText new.text = n.1) ∧
    (stringMax ≤ n.1.length → (onLocal (strCpy true (charArray n.1)) old).run st = .thrown st) := by
  obtain ⟨hfits, hbig⟩ := strCpy_holds hold (cString_charArray n.1 n.2)
  constructor
  · intro hlen
    obtain ⟨new, hrun, hnew, -⟩ := hfits hlen
    refine ⟨new, run_onLocal_ok hrun st, ?_⟩
    rw [hnew.text, cText_of_nulFree n.2]
  · intro hlen
    exact run_onLocal_thrown (hbig hlen) st

theorem run_groupGetNameById_special {gid : Nat} {old : Str} (hold : old.WF) (hspecial : Special old) (st : σ) :
    (groupGetNameById acc gid old).run st = .ok old st := by
  have hgev : (groupGetGev false acc gid old).run st = _ := run_groupGetGev false hold gid st
  rw [if_pos hspecial] at hgev
  rw [groupGetNameById, run_bind_ok hgev]
  rfl

/-- The entry is there and the buffer of the lookup takes its fields. -/
def Fetched (entry : Option Entry) (buflen : Nat) : Prop := ∃ e, entry = some e ∧ e.size ≤ buflen

theorem Entry.length_lt {e : Entry} {buflen : Nat} (hsize : e.size ≤ buflen) (hbuf : buflen < stringMax) :
    e.name.1.length < stringMax := Nat.lt_trans (Nat.lt_of_lt_of_le e.fits hsize) hbuf

/-- Any other output string is written when the lookup has a result, and the lookup fails otherwise. -/
theorem run_groupGetNameById (acc : Accounts) (gid : Nat) {old : Str} (hold : old.WF) (hspecial : ¬ Special old)
    (st : σ) : (∀ e, acc.group gid = some e → e.size ≤ getgrRSizeMax + 1 →
        shown ((groupGetNameById acc gid old).run st) = .ok e.name.1 st) ∧
      (¬ Fetched (acc.group gid) (getgrRSizeMax + 1) →
        (groupGetNameById acc gid old).run st = .thrown st) := by
  have hgev : (groupGetGev false acc gid old).run st =
      (storeGroup false gid old (getEntry (acc.group gid) (getgrRSizeMax + 1))).run st := by
    rw [run_groupGetGev false hold, if_neg hspecial]
    rfl
  rw [groupGetNameById]
  constructor
  · intro e he hsize
    obtain ⟨new, hrun, hnew⟩ := (run_storeName hold e.name st).1 (e.length_lt hsize (by decide))
    have hstore : (storeGroup false gid old (0, some e)).run st = .ok (gid, new) st := by
      change (onLocal (strCpy true (charArray e.name.1)) old >>= fun p => pure (gid, p.2)).run st = _
      rw [run_bind_ok hrun]
      rfl
    rw [he, getEntry_fits hsize, hstore] at hgev
    rw [run_bind_ok hgev]
    exact congrArg (Outcome.ok · st) hnew
  · intro hnot
    apply run_bind_thrown
    rw [hgev]
    cases he : acc.group gid with
    | none => rfl
    | some e =>
      rw [getEntry_large fun hsize => hnot ⟨e, he, hsize⟩]
      rfl

/-- When `group_get_name_by_id` is right about this output string: one that reads `root` or `wheel`
has to be right by itself, and for any other one the entry has to fit in the buffer. -/
def GroupServed (acc : Accounts) (gid : Nat) (old : Str) : Prop :=
  if Special old then ∃ e, acc.group gid = some e ∧ e.name.1 = cText old.text
  else ∀ e, acc.group gid = some e → e.size ≤ getgrRSizeMax + 1

theorem groupGetNameById_iff {acc : Accounts} {gid : Nat} {old : Str} (hold : old.WF) :
    shown ((groupGetNameById acc gid old).run ()) = named (acc.group gid) () ↔ GroupServed acc gid old := by
  by_cases hspecial : Special old
  · rw [GroupServed, if_pos hspecial, run_groupGetNameById_special hold hspecial]
    cases he : acc.group gid with
    | none => simp [shown, named]
    | some e => simp [shown, named, eq_comm]
  · obtain ⟨hfound, hmissing⟩ := run_groupGetNameById acc gid hold hspecial ()
    rw [GroupServed, if_neg hspecial]
    cases he : acc.group gid with
    | none =>
      rw [hmissing (by rw [he]; rintro ⟨e, h, -⟩; cases h)]
      simp [shown, named]
    | some e =>
      by_cases hsize : e.size ≤ getgrRSizeMax + 1
      · rw [hfound e he hsize]
        simp [named, hsize]
      · rw [hmissing (by rw [he]; rintro ⟨e', h, h'⟩; cases h; exact hsize h')]
        simp [shown, named, hsize]

/-- When `passwd_get_name_by_id` is right: with `getpwuid_r(3)` only about a user that is there and
fits in the buffer, and without it about every user whose name fits in a string object. -/
def UserServed (haveGetpwuidR : Bool) (acc : Accounts) (uid : Nat) : Prop :=
  if haveGetpwuidR then Fetched (acc.user uid) 1024
  else ∀ e, acc.user uid = some e → e.name.1.length < stringMax

/-- A lookup without a result pointer dereferences it all the same. -/
theorem run_passwdGetNameById_null {acc : Accounts} {uid : Nat} (hnot : ¬ Fetched (acc.user uid) 1024)
    (old : Str) (st : σ) : (passwdGetNameById true acc uid old).run st = .halt .fault := by
  rw [passwdGetNameById, passwdGetpwuid, if_pos rfl]
  cases he : acc.user uid with
  | none => rfl
  | some e =>
    rw [getEntry_large fun hsize => hnot ⟨e, he, hsize⟩]
    rfl

theorem run_passwdGetNameById_result {acc : Accounts} {uid : Nat} {haveGetpwuidR : Bool} {old : Str}
    (hold : old.WF) {e : Entry} (h : passwdGetpwuid haveGetpwuidR acc uid 1024 = (0, some e)) (st : σ) :
    shown ((passwdGetNameById haveGetpwuidR acc uid old).run st) =
      if e.name.1.length < stringMax then .ok e.name.1 st else .thrown st := by
  obtain ⟨hfits, hbig⟩ := run_storeName hold e.name st
  have hbody : (passwdGetNameById haveGetpwuidR acc uid old : Act σ Str) =
      (onLocal (strCpy true (charArray e.name.1)) old >>= fun p => pure p.2) := by
    rw [passwdGetNameById, h]
    rfl
  rw [hbody]
  by_cases hlen : e.name.1.length < stringMax
  · obtain ⟨new, hrun, hnew⟩ := hfits hlen
    rw [run_bind_ok hrun, if_pos hlen]
    exact congrArg (Outcome.ok · st) hnew
  · rw [run_bind_thrown (hbig (Nat.le_of_not_lt hlen)), if_neg hlen]
    rfl

theorem passwdGetNameById_iff {acc : Accounts} {uid : Nat} {old : Str} (hold : old.WF) (haveGetpwuidR : Bool) :
    shown ((passwdGetNameById haveGetpwuidR acc uid old).run ()) = named (acc.user uid) () ↔
      UserServed haveGetpwuidR acc uid := by
  cases haveGetpwuidR with
  | true =>
    rw [UserServed, if_pos rfl]
    by_cases hfetch : Fetched (acc.user uid) 1024
    · obtain ⟨e, he, hsize⟩ := hfetch
      have hres : passwdGetpwuid true acc uid 1024 = (0, some e) := by
        rw [passwdGetpwuid, if_pos rfl, he, getEntry_fits hsize]
      rw [run_passwdGetNameById_result hold hres, if_pos (e.length_lt hsize (by decide)), he]
      exact ⟨fun _ => ⟨e, rfl, hsize⟩, fun _ => rfl⟩
    · rw [run_passwdGetNameById_null hfetch]
      refine ⟨fun h => ?_, fun h => absurd h hfetch⟩
      cases he : acc.user uid with
      | none =>
        rw [he] at h
        cases h
      | some e =>
        rw [he] at h
        cases h
  | false =>
    rw [UserServed, if_neg (by decide)]
    cases he : acc.user uid with
    | none =>
      have hthrown : (passwdGetNameById false acc uid old).run () = .thrown () := by
        simp only [passwdGetNameById, passwdGetpwuid, getpwR, he]
        rfl
      rw [hthrown]
      simp [shown, named]
    | some e =>
      have hres : passwdGetpwuid false acc uid 1024 = (0, some e) := by
        rw [passwdGetpwuid, if_neg Bool.false_ne_true, he, getpwR]
      rw [run_passwdGetNameById_result hold hres]
      by_cases hlen : e.name.1.length < stringMax
      · simp [named, hlen]
      · simp [named, hlen]

/-- What the two lookups promise, for any two contents of the output string. -/
def NamesByIds (acc : Accounts) (haveGetpwuidR : Bool) (gid uid : Nat) (old other : WfStr) : Prop :=
  Names (groupGetNameById acc gid) (acc.group gid) old.1 other.1 ∧
    Names (passwdGetNameById haveGetpwuidR acc uid) (acc.user uid) old.1 other.1

theorem names_by_id_iff (acc : Accounts) (haveGetpwuidR : Bool) (gid uid : Nat) (old other : WfStr) :
    NamesByIds acc haveGetpwuidR gid uid old other ↔
      GroupServed acc gid old.1 ∧ GroupServed acc gid other.1 ∧ UserServed haveGetpwuidR acc uid := by
  rw [NamesByIds, names_iff, names_iff, groupGetNameById_iff old.2, groupGetNameById_iff other.2,
    passwdGetNameById_iff old.2, passwdGetNameById_iff other.2, and_self, and_assoc]

/-- A system with the group `daemon` and nobody in it. -/
def daemonOnly : Accounts :=
  ⟨fun _ => none, fun _ => none, fun _ => none, fun gid =>
    if gid = 1 then some ⟨1, ⟨[100, 97, 101, 109, 111, 110], by decide⟩, 64, by decide⟩ else none⟩

/-- The group 1 is called `root` when the output string was, and asking for a user that is not there
reads through a null pointer. -/
theorem names_by_id_stale :
    shown ((groupGetNameById daemonOnly 1 (ofText rootName).1).run ()) = .ok rootName () ∧
      shown ((groupGetNameById daemonOnly 1 (ofText []).1).run ()) = .ok [100, 97, 101, 109, 111, 110] () ∧
      (passwdGetNameById true daemonOnly 7 (ofText []).1).run () = .halt .fault ∧
      ¬ NamesByIds daemonOnly true 1 0 (ofText rootName) (ofText []) ∧
      ¬ NamesByIds daemonOnly true 0 7 (ofText []) (ofText []) := by
  refine ⟨by decide +kernel, by decide +kernel, by decide +kernel, ?_, ?_⟩
  · rintro ⟨hgroup, -⟩
    exact absurd hgroup.stores (by decide +kernel)
  · rintro ⟨-, huser⟩
    exact huser.nonnull (by decide +kernel)

end NcPasswd
