import NaturalC.NcFileCopy
import NaturalC.NcPasswd

/-!
# Giving up the privileges of root

`drop_privileges` looks up a group and a user, goes into a `chroot(2)` jail and changes the
ids of the process. The system calls leave a record of the changes that they made.
-/
namespace NcPrivileges

open Throwing Throwing.Act NcString NcPasswd
open NcFileCopy (pathMax)

/-- The directory that a path leads to, from a root directory and a working directory. -/
structure Tree where
  resolve : Nat → Nat → Bytes → Option Nat
  empty : ∀ root cwd, resolve root cwd [] = none
  short : ∀ root cwd path, pathMax ≤ path.length → resolve root cwd path = none

inductive Event where
  | chdir (dir : Nat)
  | chroot (dir : Nat)
  | setgid (gid : Nat)
  | setuid (uid : Nat)
  deriving DecidableEq

structure World where
  tree : Tree
  /-- The databases, each in its root directory. -/
  database : Nat → Accounts
  root : Nat
  cwd : Nat
  uid : Nat
  gid : Nat
  events : List Event

/-- The users and groups that the process sees. -/
def World.db (w : World) : Accounts := w.database w.root

/-- Whether the calls succeed. -/
structure Calls where
  dnsInit : Bool
  threadInit : Bool
  setgid : Bool
  setuid : Bool

def World.chdir (w : World) (dir : Nat) : World :=
  { w with cwd := dir, events := w.events ++ [.chdir dir] }

/-- The working directory stays the same. -/
def World.chroot (w : World) (dir : Nat) : World :=
  { w with root := dir, events := w.events ++ [.chroot dir] }

def World.setgid (w : World) (gid : Nat) : World :=
  { w with gid := gid, events := w.events ++ [.setgid gid] }

def World.setuid (w : World) (uid : Nat) : World :=
  { w with uid := uid, events := w.events ++ [.setuid uid] }

/-- A system call that succeeds if the path leads to a directory. -/
def follow (move : World → Nat → World) (path : Bytes) : Act World Bool := do
  let w ← get
  match w.tree.resolve w.root w.cwd path with
  | none => pure false
  | some dir => do
    put (move w dir)
    pure true

def chdir : Bytes → Act World Bool := follow World.chdir

def chroot : Bytes → Act World Bool := follow World.chroot

/-- A system call that changes an id. -/
def changeId (succeeds : Bool) (change : World → Nat → World) (id : Nat) : Act World Bool := do
  let w ← get
  if succeeds then do
    put (change w id)
    pure true
  else pure false

def setgid (calls : Calls) : Nat → Act World Bool := changeId calls.setgid World.setgid

def setuid (calls : Calls) : Nat → Act World Bool := changeId calls.setuid World.setuid

def initLibraries (calls : Calls) : Act World Unit :=
  if calls.dnsInit then
    if calls.threadInit then pure () else throwing
  else throwing

def lookupGroup (gidStr : Str) : Act World Nat := do
  let w ← get
  let found ← groupExists w.db gidStr
  if found then groupGetIdByName w.db gidStr else throwing

/-- Whether there is such a user is asked with the name of the group. -/
def lookupUser (haveGetpwuidR : Bool) (uidStr gidStr : Str) : Act World Nat := do
  let w ← get
  let found ← passwdExists haveGetpwuidR w.db gidStr
  if found then passwdGetIdByName haveGetpwuidR w.db uidStr else throwing

/-- The working directory is changed also when the path is empty. -/
def enterJail (chrootdir regex : Str) : Act World Unit := do
  let path ← deref (chrootdir.value.bind cString)
  let changed ← chdir path
  if changed then do
    let jailed ← chroot path
    if jailed then do
      let _ ← onLocal (strSprintf (94 :: path)) regex
      pure ()
    else throwing
  else throwing

def changeIds (calls : Calls) (gid uid : Nat) : Act World Unit := do
  let done ← setgid calls gid
  if done then do
    let done ← setuid calls uid
    if done then pure () else throwing
  else throwing

/-- `getpwnam(3)` must still find root. -/
def checkJail (haveGetpwuidR : Bool) (buf : Str) : Act World Unit := do
  let (_, buf) ← onLocal (strCpy true (charArray rootName)) buf
  let w ← get
  let found ← passwdExists haveGetpwuidR w.db buf
  if found then pure () else throwing

def dropPrivileges (haveGetpwuidR : Bool) (calls : Calls) (uidStr gidStr chrootdir : Str) : Act World Unit := do
  let buf ← strNew true true
  let regex ← strNew true true
  let w ← get
  if w.uid > 0 then pure ()
  else do
    initLibraries calls
    let gid ← lookupGroup gidStr
    let uid ← lookupUser haveGetpwuidR uidStr gidStr
    enterJail chrootdir regex
    changeIds calls gid uid
    checkJail haveGetpwuidR buf

/-! ## What it should do -/

/-- The process has the ids, and that of the group was changed before that of the user. -/
def Dropped (w : World) (uid gid : Nat) : Prop :=
  w.uid = uid ∧ w.gid = gid ∧ ∃ before, w.events = before ++ [.setgid gid, .setuid uid]

def Event.isChdir : Event → Bool
  | .chdir _ => true
  | _ => false

/-- Since `w` there was no `chroot(2)`, `setgid(2)` or `setuid(2)`. -/
def Untouched (w w' : World) : Prop :=
  ∃ later, w'.events = w.events ++ later ∧ later.all Event.isChdir = true

/-- The user and the group exist, and the directory does or none is asked for. -/
def Asked (w : World) (uidStr gidStr chrootdir : Bytes) (uid gid : Nat) : Prop :=
  w.db.userId uidStr = some uid ∧ w.db.groupId gidStr = some gid ∧
    (chrootdir = [] ∨ ∃ dir, w.tree.resolve w.root w.cwd chrootdir = some dir)

/-- The privileges are dropped when the user, the group and the directory exist, and nothing is
changed when the user or the group does not. -/
structure Drops (haveGetpwuidR : Bool) (calls : Calls) (w : World) (uidStr gidStr chrootdir : Str) : Prop where
  succeeds : ∀ uid gid, Asked w (cText uidStr.text) (cText gidStr.text) (cText chrootdir.text) uid gid →
    ∃ w', (dropPrivileges haveGetpwuidR calls uidStr gidStr chrootdir).run w = .ok () w' ∧ Dropped w' uid gid
  fails : w.db.userId (cText uidStr.text) = none ∨ w.db.groupId (cText gidStr.text) = none →
    ∃ w', (dropPrivileges haveGetpwuidR calls uidStr gidStr chrootdir).run w = .thrown w' ∧ Untouched w w'

/-- The buffers of the lookups take the entries of the user and of the group. -/
structure EntriesFit (haveGetpwuidR : Bool) (acc : Accounts) (uidStr gidStr : Bytes) : Prop where
  user : ∀ e, acc.userNamed uidStr = some e → e.userFits haveGetpwuidR = true
  group : gidStr = rootName ∨ gidStr = wheelName ∨ ∀ e, acc.groupNamed gidStr = some e → e.groupFits = true

/-- There is a user of the name and the buffer of the lookup takes its entry. -/
def Looked (haveGetpwuidR : Bool) (acc : Accounts) (name : Bytes) : Prop :=
  ∃ e, acc.userNamed name = some e ∧ e.userFits haveGetpwuidR = true

/-- There is also a user with the name of the group, the path of the directory leads somewhere from
that directory as well, and root is a user there. -/
def JailHolds (haveGetpwuidR : Bool) (w : World) (gidStr chrootdir : Bytes) : Prop :=
  Looked haveGetpwuidR w.db gidStr ∧ ∃ dir jail, w.tree.resolve w.root w.cwd chrootdir = some dir ∧
    w.tree.resolve w.root dir chrootdir = some jail ∧ Looked haveGetpwuidR (w.database jail) rootName

variable {haveGetpwuidR : Bool} {calls : Calls} {w : World} {uidStr gidStr chrootdir : Str}

theorem foundUser_isSome {acc : Accounts} {name : Bytes} :
    (acc.foundUser haveGetpwuidR name).isSome = true ↔ Looked haveGetpwuidR acc name := by
  rw [Option.isSome_iff_exists]
  constructor
  · rintro ⟨uid, hfound⟩
    obtain ⟨e, he, hfits, -⟩ := foundUser_eq_some.mp hfound
    exact ⟨e, he, hfits⟩
  · rintro ⟨e, he, hfits⟩
    exact ⟨e.id, foundUser_eq_some.mpr ⟨e, he, hfits, rfl⟩⟩

/-- A user that is there is found if its entry fits. -/
theorem foundUser_iff_fits {acc : Accounts} {name : Bytes} {uid : Nat} (huser : acc.userId name = some uid) :
    acc.foundUser haveGetpwuidR name = some uid ↔
      ∀ e, acc.userNamed name = some e → e.userFits haveGetpwuidR = true := by
  obtain ⟨e, he, rfl⟩ := Option.map_eq_some_iff.mp huser
  constructor
  · intro hfound e' he'
    obtain ⟨e'', he'', hfits, -⟩ := foundUser_eq_some.mp hfound
    rw [he'] at he''
    cases he''
    exact hfits
  · intro hfits
    exact foundUser_eq_some.mpr ⟨e, he, hfits e he, rfl⟩

/-- Nothing is found that is not there. -/
theorem foundUser_none {acc : Accounts} {name : Bytes} (huser : acc.userId name = none) :
    acc.foundUser haveGetpwuidR name = none := by
  rw [Accounts.foundUser, Option.map_eq_none_iff.mp huser]
  rfl

theorem foundGroup_none {acc : Accounts} {name : Bytes} (hgroup : acc.groupId name = none) :
    acc.foundGroup name = none := by
  rw [Option.eq_none_iff_forall_ne_some]
  intro gid hfound
  rw [(foundGroup_eq_some.mp hfound).1] at hgroup
  cases hgroup

/-- All calls succeed that do not depend on a path. -/
structure Calls.Succeed (calls : Calls) : Prop where
  dnsInit : calls.dnsInit = true
  threadInit : calls.threadInit = true
  setgid : calls.setgid = true
  setuid : calls.setuid = true

theorem run_initLibraries (hcalls : calls.Succeed) (w : World) : (initLibraries calls).run w = .ok () w := by
  rw [initLibraries, if_pos hcalls.dnsInit, if_pos hcalls.threadInit]
  rfl

theorem run_lookupGroup (hgid : gidStr.WF) (w : World) :
    (lookupGroup gidStr).run w = answer (w.db.foundGroup (cText gidStr.text)) w := by
  have hid : (groupGetIdByName w.db gidStr).run w = _ := run_groupGetIdByName hgid w
  rw [lookupGroup, run_bind_get, run_bind_ok (run_groupExists hgid w)]
  cases hg : w.db.foundGroup (cText gidStr.text) with
  | none => rfl
  | some gid =>
    rw [hg] at hid
    rw [Option.isSome_some, if_pos rfl, hid]

theorem run_lookupUser (huid : uidStr.WF) (hgid : gidStr.WF) (w : World) :
    (lookupUser haveGetpwuidR uidStr gidStr).run w =
      if (w.db.foundUser haveGetpwuidR (cText gidStr.text)).isSome then
        answer (w.db.foundUser haveGetpwuidR (cText uidStr.text)) w
      else .thrown w := by
  rw [lookupUser, run_bind_get, run_bind_ok (run_passwdExists haveGetpwuidR hgid w)]
  by_cases hfound : (w.db.foundUser haveGetpwuidR (cText gidStr.text)).isSome
  · rw [if_pos hfound, if_pos hfound]
    exact run_passwdGetIdByName haveGetpwuidR huid w
  · rw [if_neg hfound, if_neg hfound]
    rfl

theorem run_follow_some (move : World → Nat → World) {path : Bytes} {dir : Nat}
    (h : w.tree.resolve w.root w.cwd path = some dir) : (follow move path).run w = .ok true (move w dir) := by
  rw [follow, run_bind_get, h]
  rfl

theorem run_follow_none (move : World → Nat → World) {path : Bytes}
    (h : w.tree.resolve w.root w.cwd path = none) : (follow move path).run w = .ok false w := by
  rw [follow, run_bind_get, h]
  rfl

/-- A jail is entered whose path leads somewhere twice. -/
theorem enterJail_ok_iff {regex : Str} (hdir : chrootdir.WF) {w' : World} :
    (enterJail chrootdir regex).run w = .ok () w' ↔
      ∃ dir jail, w.tree.resolve w.root w.cwd (cText chrootdir.text) = some dir ∧
        w.tree.resolve w.root dir (cText chrootdir.text) = some jail ∧ w' = (w.chdir dir).chroot jail := by
  unfold enterJail chdir chroot
  rw [Holds.bind_cString hdir, deref_some, run_bind_ret]
  cases hfirst : w.tree.resolve w.root w.cwd (cText chrootdir.text) with
  | none =>
    rw [run_bind_ok (run_follow_none _ hfirst), if_neg Bool.false_ne_true]
    refine iff_of_false (fun he => by cases he) ?_
    rintro ⟨dir, jail, hd, -⟩
    cases hd
  | some dir =>
    rw [run_bind_ok (run_follow_some _ hfirst), if_pos rfl]
    cases hsecond : w.tree.resolve w.root dir (cText chrootdir.text) with
    | none =>
      rw [run_bind_ok (run_follow_none _ hsecond), if_neg Bool.false_ne_true]
      refine iff_of_false (fun he => by cases he) ?_
      rintro ⟨dir', jail, hd, hj, -⟩
      cases hd
      rw [hsecond] at hj
      cases hj
    | some jail =>
      have hshort : (94 :: cText chrootdir.text).length ≤ stringMax := by
        by_contra hlong
        have hM : pathMax < stringMax := by decide
        rw [List.length_cons] at hlong
        rw [w.tree.short _ _ _ (by omega)] at hfirst
        cases hfirst
      obtain ⟨r, hprint, -, -⟩ := strSprintf_holds (s := regex) hshort
      rw [run_bind_ok (run_follow_some _ hsecond), if_pos rfl, run_bind_ok (run_onLocal_ok hprint _)]
      constructor
      · intro hw
        cases hw
        exact ⟨dir, jail, rfl, hsecond, rfl⟩
      · rintro ⟨dir', jail', hd, hj, rfl⟩
        cases hd
        rw [hsecond] at hj
        cases hj
        rfl

theorem run_changeId (change : World → Nat → World) {succeeds : Bool} (h : succeeds = true) (w : World)
    (id : Nat) : (changeId succeeds change id).run w = .ok true (change w id) := by
  rw [changeId, run_bind_get, if_pos h]
  rfl

theorem run_changeIds (hcalls : calls.Succeed) (w : World) (gid uid : Nat) :
    (changeIds calls gid uid).run w = .ok () ((w.setgid gid).setuid uid) := by
  unfold changeIds setgid setuid
  rw [run_bind_ok (run_changeId _ hcalls.setgid w gid), if_pos rfl, run_bind_ok (run_changeId _ hcalls.setuid _ uid),
    if_pos rfl]
  rfl

theorem run_checkJail {buf : Str} (hbuf : Holds buf []) (w : World) :
    (checkJail haveGetpwuidR buf).run w =
      if (w.db.foundUser haveGetpwuidR rootName).isSome then .ok () w else .thrown w := by
  have hroot : cString (charArray rootName) = some rootName := cString_charArray _ (by decide)
  obtain ⟨t, hcopy, ht, -⟩ := (strCpy_holds hbuf hroot).1 (by decide)
  have hfree : NulFree rootName := by decide
  have hexists : (passwdExists haveGetpwuidR w.db t).run w = _ := run_passwdExists haveGetpwuidR ht.wf w
  rw [ht.text, cText_of_nulFree hfree] at hexists
  rw [checkJail, run_bind_ok (run_onLocal_ok hcopy w)]
  dsimp only
  rw [run_bind_get, run_bind_ok hexists]
  split <;> rfl

/-- Nothing happens when the user or the group does not exist. -/
theorem dropPrivileges_missing (hcalls : calls.Succeed) (hroot : w.uid = 0) (huid : uidStr.WF) (hgid : gidStr.WF)
    (hmissing : w.db.userId (cText uidStr.text) = none ∨ w.db.groupId (cText gidStr.text) = none) :
    (dropPrivileges haveGetpwuidR calls uidStr gidStr chrootdir).run w = .thrown w := by
  obtain ⟨s, hnew, hs, -⟩ := strNew_holds w
  have hgroup := run_lookupGroup hgid w
  have huser : (lookupUser haveGetpwuidR uidStr gidStr).run w = _ := run_lookupUser huid hgid w
  rw [dropPrivileges, run_bind_ok hnew, run_bind_ok hnew, run_bind_get, if_neg (Nat.not_lt.mpr hroot.le),
    run_bind_ok (run_initLibraries hcalls w)]
  cases hg : w.db.foundGroup (cText gidStr.text) with
  | none =>
    rw [hg] at hgroup
    exact run_bind_thrown hgroup
  | some gid =>
    have hu : w.db.foundUser haveGetpwuidR (cText uidStr.text) = none := by
      rcases hmissing with hu | hnone
      · exact foundUser_none hu
      · rw [foundGroup_none hnone] at hg
        cases hg
    rw [hg] at hgroup
    rw [hu] at huser
    rw [run_bind_ok hgroup]
    refine run_bind_thrown (huser.trans ?_)
    split <;> rfl

/-- When both are found, the privileges are dropped exactly if the jail holds. -/
theorem dropPrivileges_ok_iff (hcalls : calls.Succeed) (hroot : w.uid = 0) (huid : uidStr.WF) (hgid : gidStr.WF)
    (hdir : chrootdir.WF) {w' : World} :
    (dropPrivileges haveGetpwuidR calls uidStr gidStr chrootdir).run w = .ok () w' ↔
      ∃ uid gid, w.db.foundUser haveGetpwuidR (cText uidStr.text) = some uid ∧
        w.db.foundGroup (cText gidStr.text) = some gid ∧ Looked haveGetpwuidR w.db (cText gidStr.text) ∧
        ∃ dir jail, w.tree.resolve w.root w.cwd (cText chrootdir.text) = some dir ∧
          w.tree.resolve w.root dir (cText chrootdir.text) = some jail ∧
          Looked haveGetpwuidR (w.database jail) rootName ∧
          w' = (((w.chdir dir).chroot jail).setgid gid).setuid uid := by
  obtain ⟨s, hnew, hs, -⟩ := strNew_holds w
  have hgroup := run_lookupGroup hgid w
  have huser : (lookupUser haveGetpwuidR uidStr gidStr).run w = _ := run_lookupUser huid hgid w
  rw [dropPrivileges, run_bind_ok hnew, run_bind_ok hnew, run_bind_get, if_neg (Nat.not_lt.mpr hroot.le),
    run_bind_ok (run_initLibraries hcalls w)]
  constructor
  · intro hrun
    obtain ⟨gid, w₁, hgid', hrun⟩ := exists_of_run_bind hrun
    rw [hgroup] at hgid'
    cases hg : w.db.foundGroup (cText gidStr.text) with
    | none =>
      rw [hg] at hgid'
      cases hgid'
    | some g =>
      rw [hg] at hgid'
      cases hgid'
      obtain ⟨uid, w₂, huid', hrun⟩ := exists_of_run_bind hrun
      rw [huser] at huid'
      split at huid'
      · rename_i hlooked
        cases hu : w.db.foundUser haveGetpwuidR (cText uidStr.text) with
        | none =>
          rw [hu] at huid'
          cases huid'
        | some u =>
          rw [hu] at huid'
          cases huid'
          obtain ⟨⟨⟩, w₃, hjail, hrun⟩ := exists_of_run_bind hrun
          obtain ⟨dir, jail, hd, hj, rfl⟩ := (enterJail_ok_iff hdir).mp hjail
          rw [run_bind_ok (run_changeIds hcalls _ gid uid), run_checkJail hs] at hrun
          split at hrun
          · rename_i hin
            cases hrun
            exact ⟨uid, gid, rfl, rfl, foundUser_isSome.mp hlooked, dir, jail, hd, hj, foundUser_isSome.mp hin, rfl⟩
          · cases hrun
      · cases huid'
  · rintro ⟨uid, gid, hu, hg, hlooked, dir, jail, hd, hj, hin, rfl⟩
    have hjail : (enterJail chrootdir s).run w = .ok () ((w.chdir dir).chroot jail) :=
      (enterJail_ok_iff hdir).mpr ⟨dir, jail, hd, hj, rfl⟩
    have hthere : ((((((w.chdir dir).chroot jail).setgid gid).setuid uid).db).foundUser haveGetpwuidR
        rootName).isSome = true := foundUser_isSome.mpr hin
    rw [hg] at hgroup
    rw [if_pos (foundUser_isSome.mpr hlooked), hu] at huser
    rw [run_bind_ok hgroup, run_bind_ok huser, run_bind_ok hjail, run_bind_ok (run_changeIds hcalls _ gid uid),
      run_checkJail hs, if_pos hthere]

theorem dropped_setuid (w : World) (uid gid : Nat) : Dropped ((w.setgid gid).setuid uid) uid gid :=
  ⟨rfl, rfl, w.events, List.append_assoc _ _ _⟩

/-- `drop_privileges` does what it should exactly when the entries fit the buffers of their lookups and,
asked to go into a jail, it is given one that holds; without a directory it never succeeds. -/
theorem drop_privileges_iff (haveGetpwuidR : Bool) (hcalls : calls.Succeed) (hroot : w.uid = 0) (huid : uidStr.WF)
    (hgid : gidStr.WF) (hdir : chrootdir.WF) :
    Drops haveGetpwuidR calls w uidStr gidStr chrootdir ↔
      ∀ uid gid, Asked w (cText uidStr.text) (cText gidStr.text) (cText chrootdir.text) uid gid →
        EntriesFit haveGetpwuidR w.db (cText uidStr.text) (cText gidStr.text) ∧
          JailHolds haveGetpwuidR w (cText gidStr.text) (cText chrootdir.text) := by
  constructor
  · intro hdrops uid gid hasked
    obtain ⟨w', hrun, hids, hgids, -⟩ := hdrops.succeeds uid gid hasked
    obtain ⟨hu, hg, -⟩ := hasked
    obtain ⟨uid', gid', hu', hg', hlooked, dir, jail, hd, hj, hin, rfl⟩ :=
      (dropPrivileges_ok_iff hcalls hroot huid hgid hdir).mp hrun
    have huidEq : uid' = uid := hids
    subst huidEq
    exact ⟨⟨(foundUser_iff_fits hu).mp hu', (foundGroup_eq_some.mp hg').2⟩, hlooked, dir, jail, hd, hj, hin⟩
  · intro hholds
    constructor
    · intro uid gid hasked
      obtain ⟨hfit, hlooked, dir, jail, hd, hj, hin⟩ := hholds uid gid hasked
      obtain ⟨hu, hg, -⟩ := hasked
      have hrun := (dropPrivileges_ok_iff hcalls hroot huid hgid hdir).mpr
        ⟨uid, gid, (foundUser_iff_fits hu).mpr hfit.user, foundGroup_eq_some.mpr ⟨hg, hfit.group⟩, hlooked,
          dir, jail, hd, hj, hin, rfl⟩
      exact ⟨_, hrun, dropped_setuid _ uid gid⟩
    · intro hmissing
      exact ⟨w, dropPrivileges_missing hcalls hroot huid hgid hmissing, [], (List.append_nil _).symm, rfl⟩

/-- The only path is `/`. -/
def slashOnly : Tree where
  resolve := fun root _ path => if path = [47] then some root else none
  empty := fun _ _ => rfl
  short := by
    intro root cwd path hlong
    apply if_neg
    rintro rfl
    exact absurd hlong (by decide)

/-- The user `u`, whose entry takes so many bytes. -/
def userU (size : Nat) (h : 1 < size) : Entry := ⟨1, ⟨[117], by decide⟩, size, h⟩

/-- A system with the users `u` and `root` and one group, on which root runs. -/
def host (size : Nat) (h : 1 < size) (group : CText) : World where
  tree := slashOnly
  database := fun _ =>
    { userNamed := fun name =>
        if name = [117] then some (userU size h)
        else if name = rootName then some ⟨0, ⟨rootName, by decide⟩, 64, by decide⟩ else none
      groupNamed := fun name =>
        if name = group.1 then some ⟨2, group, group.1.length + 64, Nat.lt_add_of_pos_right (by decide)⟩ else none
      user := fun _ => none
      group := fun _ => none }
  root := 0
  cwd := 0
  uid := 0
  gid := 0
  events := []

def succeeding : Calls := ⟨true, true, true, true⟩

theorem succeed_succeeding : succeeding.Succeed := ⟨rfl, rfl, rfl, rfl⟩

/-- The user `u` and the group `g` exist, but there is no user `g`; and where the names are the same,
no jail is not possible, nor is an entry of more than 512 bytes. -/
theorem drop_privileges_refuses :
    (Asked (host 64 (by decide) ⟨[103], by decide⟩) [117] [103] [47] 1 2 ∧
      ¬ Drops true succeeding (host 64 (by decide) ⟨[103], by decide⟩) (ofText [117]).1 (ofText [103]).1
        (ofText [47]).1) ∧
    (Asked (host 64 (by decide) ⟨[117], by decide⟩) [117] [117] [] 1 2 ∧
      ¬ Drops true succeeding (host 64 (by decide) ⟨[117], by decide⟩) (ofText [117]).1 (ofText [117]).1
        (ofText []).1) ∧
    (Asked (host 600 (by decide) ⟨[117], by decide⟩) [117] [117] [47] 1 2 ∧
      ¬ Drops true succeeding (host 600 (by decide) ⟨[117], by decide⟩) (ofText [117]).1 (ofText [117]).1
        (ofText [47]).1) := by
  have hgroup : Asked (host 64 (by decide) ⟨[103], by decide⟩) [117] [103] [47] 1 2 := ⟨rfl, rfl, Or.inr ⟨0, rfl⟩⟩
  have hnone : Asked (host 64 (by decide) ⟨[117], by decide⟩) [117] [117] [] 1 2 := ⟨rfl, rfl, Or.inl rfl⟩
  have hlarge : Asked (host 600 (by decide) ⟨[117], by decide⟩) [117] [117] [47] 1 2 := ⟨rfl, rfl, Or.inr ⟨0, rfl⟩⟩
  refine ⟨⟨hgroup, fun hdrops => ?_⟩, ⟨hnone, fun hdrops => ?_⟩, hlarge, fun hdrops => ?_⟩
  · obtain ⟨w', hrun, -⟩ := hdrops.succeeds 1 2 hgroup
    obtain ⟨-, -, -, -, ⟨e, he, -⟩, -⟩ := (dropPrivileges_ok_iff succeed_succeeding rfl (ofText [117]).2
      (ofText [103]).2 (ofText [47]).2).mp hrun
    cases he
  · obtain ⟨w', hrun, -⟩ := hdrops.succeeds 1 2 hnone
    obtain ⟨-, -, -, -, -, dir, jail, hd, -⟩ := (dropPrivileges_ok_iff succeed_succeeding rfl (ofText [117]).2
      (ofText [117]).2 (ofText []).2).mp hrun
    cases hd
  · obtain ⟨w', hrun, -⟩ := hdrops.succeeds 1 2 hlarge
    obtain ⟨-, -, -, -, ⟨e, he, hfits⟩, -⟩ := (dropPrivileges_ok_iff succeed_succeeding rfl (ofText [117]).2
      (ofText [117]).2 (ofText [47]).2).mp hrun
    cases he
    exact absurd hfits (by decide)

theorem drop_privileges_iff_same_name :
    Drops true succeeding (host 64 (by decide) ⟨[117], by decide⟩) (ofText [117]).1 (ofText [117]).1
      (ofText [47]).1 := by
  apply (drop_privileges_iff true succeed_succeeding rfl (ofText [117]).2 (ofText [117]).2 (ofText [47]).2).mpr
  intro uid gid hasked
  have huser : Looked true (host 64 (by decide) ⟨[117], by decide⟩).db [117] := ⟨userU 64 (by decide), rfl, rfl⟩
  refine ⟨⟨?_, Or.inr (Or.inr ?_)⟩, huser, 0, 0, rfl, rfl, _, rfl, rfl⟩
  · rintro e ⟨⟩
    rfl
  · rintro e ⟨⟩
    rfl

end NcPrivileges
