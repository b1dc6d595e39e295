import Mathlib.Data.Finset.Card
import NaturalC.NcNumber
import NaturalC.NcStringSound

/-!
# Pidfiles

`pidfile_create` writes the number of the calling process to a file, unless the file says
that another instance is running. To find out, it calls `pidfile_kill` with the signal 0,
which only tests whether the process exists, but which also removes the file.
-/
namespace NcPidfile

open Throwing Throwing.Act NcString

/-- The number of a process. -/
abbrev Pid := { n : Nat // 0 < n ∧ n < 2 ^ 31 }

/-- What `kill(2)` says. -/
inductive Answer where
  | success
  | esrch
  | eperm
  deriving DecidableEq, Repr

structure System where
  /-- `NC_IPCDIR`. -/
  ipcdir : Bytes
  /-- Whether the first process may send signals to the second one. -/
  permitted : Pid → Pid → Bool
  /-- What `kill(2)` says about a process group, which has a number that is not positive. -/
  group : Pid → Int → Answer

structure World where
  live : Finset Pid
  files : Bytes → Option Bytes

/-- `kill(2)` with the signal 0. -/
def kill (sys : System) (self : Pid) (pid : Int) : Act World Answer := do
  let w ← get
  if h : 0 < pid ∧ pid < 2 ^ 31 then
    if ⟨pid.toNat, by omega⟩ ∈ w.live then
      if sys.permitted self ⟨pid.toNat, by omega⟩ then pure .success else pure .eperm
    else pure .esrch
  else pure (sys.group self pid)

/-- The file of a program. -/
def pidfile (sys : System) (program : Bytes) : Bytes :=
  sys.ipcdir ++ [47] ++ program ++ [46, 112, 105, 100]

def unlink (path : Bytes) : Act World Unit := do
  let w ← get
  if (w.files path).isSome then put { w with files := Function.update w.files path none } else throwing

def fileRead (dest : Str) (path : Bytes) : Act World Str := do
  let w ← get
  match w.files path with
  | none => throwing
  | some data =>
    if data.length > stringMax then throwing
    else do
      let (_, dest) ← onLocal (strRead true data.length (.data data)) dest
      pure dest

def fileWrite (path data : Bytes) : Act World Unit := do
  let w ← get
  put { w with files := Function.update w.files path (some data) }

def pidfileStat (sys : System) (program : Bytes) : Act World Bool := do
  let w ← get
  pure (w.files (pidfile sys program)).isSome

/-- A `uint32_t` in the place of a `pid_t`. -/
def toPid (n : Nat) : Int := if n < 2 ^ 31 then n else n - 2 ^ 32

/-- `pidfile_kill` with the signal 0. -/
def pidfileKill (sys : System) (self : Pid) (program : Bytes) : Act World Unit := do
  let exist ← pidfileStat sys program
  if !exist then pure ()
  else do
    let pidStr ← strNew true true
    let pidStr ← fileRead pidStr (pidfile sys program)
    let (_, pidStr) ← onLocal strChomp pidStr
    let pid ← strToUint32 pidStr
    match ← kill sys self (toPid pid) with
    | .eperm => throwing
    | _ => unlink (pidfile sys program)

/-- What `"%u\n"` makes of the number of a process. -/
def pidText (p : Pid) : Bytes := printUnsigned p.1 ++ [10]

def pidfileCreate (sys : System) (self : Pid) (program : Bytes) : Act World Unit := do
  let exist ← pidfileStat sys program
  if exist then do
    match ← attempt (pidfileKill sys self program) with
    | some () => throwing
    | none => fileWrite (pidfile sys program) (pidText self)
  else fileWrite (pidfile sys program) (pidText self)

variable {sys : System} {program : Bytes} {w : World} {p q : Pid}

theorem kill_pid : (kill sys p (toPid q.1)).run w =
    .ok (if q ∈ w.live then if sys.permitted p q then .success else .eperm else .esrch) w := by
  obtain ⟨n, hpos, hlt⟩ := q
  have hpid : toPid n = n := if_pos hlt
  rw [kill, run_bind_get, hpid, dif_pos (by omega)]
  simp only [Int.toNat_natCast]
  split
  · split <;> rfl
  · rfl

theorem length_pidText (q : Pid) : (pidText q).length < stringMax := by
  have hlt : q.1 < 10 ^ 10 := Nat.lt_trans q.2.2 (by decide)
  have hdigits := length_printUnsigned (by decide) hlt
  have hM : 12 ≤ stringMax := by decide
  rw [pidText, List.length_append, List.length_singleton]
  omega

/-- The number without the newline. -/
theorem chomp_pidText (q : Pid) : NcString.chomp (pidText q) = printUnsigned q.1 := by
  have hlast : (printUnsigned q.1).getLast? ≠ some 13 := by
    intro h13
    exact absurd (isDigit_printUnsigned 13 (List.mem_of_getLast? h13)) (by decide)
  rw [pidText, NcString.chomp, if_pos (by simp), List.dropLast_concat, if_neg hlast]

/-- The file of a process is removed, unless the caller may not signal that process. -/
theorem pidfileKill_text (hq : w.files (pidfile sys program) = some (pidText q)) :
    (pidfileKill sys p program).run w =
      if q ∈ w.live ∧ sys.permitted p q = false then .thrown w
      else .ok () { w with files := Function.update w.files (pidfile sys program) none } := by
  have hmax := length_pidText q
  obtain ⟨s, hnew, hs, hz⟩ := strNew_holds w
  obtain ⟨t, hread, ht⟩ := strRead_holds (hs.sound (by rw [hz]; decide)) hmax
  obtain ⟨u, hchomp, hu, -⟩ := strChomp_holds ht
  rw [chomp_pidText] at hu
  have hstat : (pidfileStat sys program).run w = .ok true w := by
    simp [pidfileStat, hq]
  have hfile : (fileRead s (pidfile sys program)).run w = .ok t w := by
    simp only [fileRead, run_bind_get, hq]
    rw [if_neg (Nat.not_lt.mpr (Nat.le_of_lt hmax)), run_bind_ok (run_onLocal_ok hread w)]
    rfl
  have hpid := strToUint32_print hu (Nat.lt_trans q.2.2 (by decide)) w
  have hunlink : (unlink (pidfile sys program)).run w =
      .ok () { w with files := Function.update w.files (pidfile sys program) none } := by
    simp [unlink, hq]
  rw [pidfileKill, run_bind_ok hstat]
  simp only [Bool.not_true, Bool.false_eq_true, if_false]
  rw [run_bind_ok hnew, run_bind_ok hfile, run_bind_ok (run_onLocal_ok hchomp w)]
  dsimp only
  rw [run_bind_ok hpid, run_bind_ok kill_pid]
  by_cases hlive : q ∈ w.live
  · by_cases hperm : sys.permitted p q = true
    · rw [if_pos hlive, if_pos hperm, if_neg (by simp [hperm]), ← hunlink]
    · rw [if_pos hlive, if_neg hperm, if_pos ⟨hlive, by simpa using hperm⟩]
      rfl
  · rw [if_neg hlive, if_neg (by simp [hlive]), ← hunlink]

/-- What `pidfile_create` does to the file. -/
def withPidfile (sys : System) (program : Bytes) (w : World) (text : Option Bytes) : World :=
  { w with files := Function.update w.files (pidfile sys program) text }

@[simp] theorem files_withPidfile (text : Option Bytes) :
    (withPidfile sys program w text).files (pidfile sys program) = text := Function.update_self _ _ _

theorem pidfileCreate_none (hfile : w.files (pidfile sys program) = none) :
    (pidfileCreate sys p program).run w = .ok () (withPidfile sys program w (some (pidText p))) := by
  have hstat : (pidfileStat sys program).run w = .ok false w := by
    simp [pidfileStat, hfile]
  rw [pidfileCreate, run_bind_ok hstat]
  rfl

theorem pidfileCreate_text (hq : w.files (pidfile sys program) = some (pidText q)) :
    (pidfileCreate sys p program).run w =
      if q ∈ w.live ∧ sys.permitted p q = false then
        .ok () (withPidfile sys program w (some (pidText p)))
      else .thrown (withPidfile sys program w none) := by
  have hstat : (pidfileStat sys program).run w = .ok true w := by
    simp [pidfileStat, hq]
  have hkill := pidfileKill_text (p := p) hq
  rw [pidfileCreate, run_bind_ok hstat, if_pos rfl]
  by_cases hperm : q ∈ w.live ∧ sys.permitted p q = false
  · rw [if_pos hperm] at hkill
    rw [if_pos hperm, run_bind_ok (run_attempt_thrown hkill)]
    rfl
  · rw [if_neg hperm] at hkill
    rw [if_neg hperm, run_bind_ok (run_attempt_ok hkill)]
    rfl

/-! ## Runs of several processes -/

/-- A world together with the live processes whose `pidfile_create` has succeeded. -/
structure State where
  world : World
  holders : Finset Pid

/-- Nothing has been started yet, and there is no file. -/
def State.initial (files : Bytes → Option Bytes) : State := ⟨⟨∅, files⟩, ∅⟩

variable (sys program) in
/-- The states of all runs in which each call of `pidfile_create` is made in a state and by a
process with the property `P`. The number of a process is free again once it has exited. -/
inductive Reached (P : State → Pid → Prop) : State → Prop where
  | initial {files : Bytes → Option Bytes} (h : files (pidfile sys program) = none) :
      Reached P (.initial files)
  | start {s : State} {p : Pid} (h : Reached P s) (hp : p ∉ s.world.live) :
      Reached P ⟨{ s.world with live := insert p s.world.live }, s.holders⟩
  | exit {s : State} {p : Pid} (h : Reached P s) (hp : p ∈ s.world.live) :
      Reached P ⟨{ s.world with live := s.world.live.erase p }, s.holders.erase p⟩
  | created {s : State} {p : Pid} {w : World} (h : Reached P s) (hp : p ∈ s.world.live) (hP : P s p)
      (hrun : (pidfileCreate sys p program).run s.world = .ok () w) : Reached P ⟨w, insert p s.holders⟩
  | refused {s : State} {p : Pid} {w : World} (h : Reached P s) (hp : p ∈ s.world.live) (hP : P s p)
      (hrun : (pidfileCreate sys p program).run s.world = .thrown w) : Reached P ⟨w, s.holders⟩

/-- A call comes back and does what it should: it succeeds if and only if no live process has
succeeded before, and one that is refused leaves the file as it is. -/
def Exclusive (sys : System) (program : Bytes) (s : State) (p : Pid) : Prop :=
  ((∃ w, (pidfileCreate sys p program).run s.world = .ok () w) ↔ s.holders = ∅) ∧
    ((∃ w, (pidfileCreate sys p program).run s.world = .ok () w) ∨
      ∃ w, (pidfileCreate sys p program).run s.world = .thrown w ∧
        w.files (pidfile sys program) = s.world.files (pidfile sys program))

/-- There is no file, or it is left over from a process that has exited, and its number belongs to
another live process now, which the caller may not signal. -/
def Unclaimed (sys : System) (program : Bytes) (s : State) (p : Pid) : Prop :=
  s.world.files (pidfile sys program) = none ∨
    ∃ q, s.world.files (pidfile sys program) = some (pidText q) ∧ q ∉ s.holders ∧
      q ∈ s.world.live ∧ sys.permitted p q = false

/-- The file is that of the only holder, if there is one. -/
structure Claimed (sys : System) (program : Bytes) (s : State) : Prop where
  file : s.world.files (pidfile sys program) = none ∨
    ∃ q, s.world.files (pidfile sys program) = some (pidText q)
  holder : ∀ q ∈ s.holders, s.world.files (pidfile sys program) = some (pidText q)

theorem pidText_injective {p q : Pid} (h : pidText p = pidText q) : p = q := by
  rw [pidText, pidText] at h
  have hdigits := List.append_cancel_right h
  apply Subtype.ext
  rw [← digitsValue_printUnsigned p.1, ← digitsValue_printUnsigned q.1, hdigits]

variable {s : State}

/-- Nobody else holds the file when a call meets the condition. -/
theorem Claimed.holders_empty (h : Claimed sys program s) (hs : Unclaimed sys program s p) :
    s.holders = ∅ := by
  apply Finset.eq_empty_of_forall_notMem
  intro q hq
  have hfile := h.holder q hq
  rcases hs with hnone | ⟨r, hr, hne, -⟩
  · rw [hnone] at hfile
    cases hfile
  · rw [hr] at hfile
    rw [pidText_injective (Option.some.inj hfile)] at hne
    exact hne hq

theorem create_unclaimed (hs : Unclaimed sys program s p) :
    (pidfileCreate sys p program).run s.world =
      .ok () (withPidfile sys program s.world (some (pidText p))) := by
  rcases hs with hnone | ⟨q, hq, -, hlive, hperm⟩
  · exact pidfileCreate_none hnone
  · rw [pidfileCreate_text hq, if_pos ⟨hlive, hperm⟩]

theorem claimed_of_reached (h : Reached sys program (Unclaimed sys program) s) :
    Claimed sys program s := by
  induction h with
  | initial hfile => exact ⟨.inl hfile, by simp [State.initial]⟩
  | start _ _ ih => exact ⟨ih.file, ih.holder⟩
  | exit _ _ ih => exact ⟨ih.file, fun q hq => ih.holder q (Finset.mem_of_mem_erase hq)⟩
  | created _ _ hP hrun ih =>
    rename_i s p w _ _
    rw [create_unclaimed hP] at hrun
    cases hrun
    refine ⟨.inr ⟨p, files_withPidfile _⟩, ?_⟩
    intro q hq
    rw [ih.holders_empty hP] at hq
    rw [Finset.mem_singleton.mp hq]
    exact files_withPidfile _
  | refused _ _ hP hrun _ =>
    rw [create_unclaimed hP] at hrun
    cases hrun

/-- In every run whose calls all meet the condition, at most one live process holds the file at any
time, and the next call does what it should if and only if it meets the condition. -/
theorem pidfile_exclusive_iff (h : Reached sys program (Unclaimed sys program) s) :
    s.holders.card ≤ 1 ∧
      ∀ p ∈ s.world.live, Exclusive sys program s p ↔ Unclaimed sys program s p := by
  have hclaim := claimed_of_reached h
  constructor
  · apply Finset.card_le_one.mpr
    intro a ha b hb
    have heq := (hclaim.holder a ha).symm.trans (hclaim.holder b hb)
    exact pidText_injective (Option.some.inj heq)
  · intro p _
    constructor
    · rintro ⟨hiff, hfile⟩
      rcases hclaim.file with hnone | ⟨q, hq⟩
      · exact .inl hnone
      · right
        rw [pidfileCreate_text hq] at hiff hfile
        by_cases hperm : q ∈ s.world.live ∧ sys.permitted p q = false
        · rw [if_pos hperm] at hiff
          refine ⟨q, hq, ?_, hperm⟩
          rw [hiff.mp ⟨_, rfl⟩]
          exact Finset.notMem_empty q
        · -- The refused call has removed the file.
          rw [if_neg hperm] at hfile
          rcases hfile with ⟨w, hw⟩ | ⟨w, hw, hsame⟩
          · cases hw
          · cases hw
            rw [hq, files_withPidfile] at hsame
            cases hsame
    · intro hs
      have hrun := create_unclaimed hs
      exact ⟨⟨fun _ => hclaim.holders_empty hs, fun _ => ⟨_, hrun⟩⟩, .inl ⟨_, hrun⟩⟩

/-- A system on which every process may signal every other one. -/
def oneUser : System := ⟨[47, 114, 117, 110], fun _ _ => true, fun _ _ => .esrch⟩

/-- A system on which no process may signal another one. -/
def strangers : System := { oneUser with permitted := fun _ _ => false }

/-- A process that starts and gets the file. -/
theorem reached_created (sys : System) (program : Bytes) {p : Pid} (P : State → Pid → Prop)
    (hP : P ⟨⟨{p}, fun _ => none⟩, ∅⟩ p) :
    Reached sys program P ⟨withPidfile sys program ⟨{p}, fun _ => none⟩ (some (pidText p)), {p}⟩ := by
  have h : Reached sys program P ⟨⟨{p}, fun _ => none⟩, ∅⟩ := .start (.initial rfl) (Finset.notMem_empty _)
  exact .created h (Finset.mem_singleton_self p) hP (pidfileCreate_none rfl)

/-- The process 100 holds the file. While it lives, a call of 101 goes wrong; after its exit, with the
number 100 given to another process that 101 may not signal, the call does what it should. -/
theorem pidfile_exclusive_iff_second :
    (∃ s, Reached oneUser [110, 99] (Unclaimed oneUser [110, 99]) s ∧ s.holders = {⟨100, by decide⟩} ∧
      s.world.live = {⟨101, by decide⟩, ⟨100, by decide⟩} ∧ ¬ Exclusive oneUser [110, 99] s ⟨101, by decide⟩) ∧
    ∃ s, Reached strangers [110, 99] (Unclaimed strangers [110, 99]) s ∧ s.holders = ∅ ∧
      s.world.live = {⟨101, by decide⟩, ⟨100, by decide⟩} ∧ Exclusive strangers [110, 99] s ⟨101, by decide⟩ := by
  constructor
  · have h₁ := reached_created oneUser [110, 99] (p := ⟨100, by decide⟩)
      (Unclaimed oneUser [110, 99]) (.inl rfl)
    have h₂ := h₁.start (p := ⟨101, by decide⟩) (by decide)
    refine ⟨_, h₂, rfl, rfl, fun hex => ?_⟩
    rcases ((pidfile_exclusive_iff h₂).2 _ (Finset.mem_insert_self _ _)).mp hex with hnone | ⟨q, -, -, -, hperm⟩
    · exact absurd hnone (by decide)
    · cases hperm
  · have h₁ := reached_created strangers [110, 99] (p := ⟨100, by decide⟩)
      (Unclaimed strangers [110, 99]) (.inl rfl)
    have h₂ := ((h₁.exit (Finset.mem_singleton_self _)).start (p := ⟨100, by decide⟩) (by decide)).start
      (p := ⟨101, by decide⟩) (by decide)
    have hfile : (withPidfile strangers [110, 99] ⟨{⟨100, by decide⟩}, fun _ => none⟩
        (some (pidText ⟨100, by decide⟩))).files (pidfile strangers [110, 99]) = some (pidText ⟨100, by decide⟩) :=
      files_withPidfile _
    refine ⟨_, h₂, rfl, rfl, ?_⟩
    apply ((pidfile_exclusive_iff h₂).2 _ (Finset.mem_insert_self _ _)).mpr
    exact .inr ⟨⟨100, by decide⟩, hfile, by decide, by decide, rfl⟩

/-- After the second process was refused, a third one gets the file of the first one. -/
theorem third_create_succeeds {r : Pid} (h : Reached sys program (fun _ _ => True) s)
    (hfile : s.world.files (pidfile sys program) = none) (hp : p ∈ s.world.live)
    (hq : q ∈ s.world.live) (hr : r ∈ s.world.live) (hperm : sys.permitted q p = true) :
    ∃ s', Reached sys program (fun _ _ => True) s' ∧ s'.holders = insert r (insert p s.holders) ∧
      s'.world.live = s.world.live := by
  have h₁ := Reached.created h hp trivial (pidfileCreate_none hfile)
  have hwritten : (withPidfile sys program s.world (some (pidText p))).files (pidfile sys program) =
      some (pidText p) := files_withPidfile _
  have hrefused := pidfileCreate_text (p := q) hwritten
  rw [if_neg (by simp [hperm])] at hrefused
  have h₂ := Reached.refused h₁ hq trivial hrefused
  exact ⟨_, Reached.created h₂ hr trivial (pidfileCreate_none (files_withPidfile none)), rfl, rfl⟩

/-- The process 100 holds the file, 101 is refused, and now 102 gets it as well. -/
theorem refused_create_unlocks :
    ∃ s : State, Reached oneUser [110, 99] (fun _ _ => True) s ∧
      s.holders = {⟨102, by decide⟩, ⟨100, by decide⟩} ∧ s.holders ⊆ s.world.live := by
  have h₀ : Reached oneUser [110, 99] (fun _ _ => True) (.initial fun _ => none) := .initial rfl
  have h₁ := Reached.start h₀ (p := ⟨100, by decide⟩) (by decide)
  have h₂ := Reached.start h₁ (p := ⟨101, by decide⟩) (by decide)
  have h₃ := Reached.start h₂ (p := ⟨102, by decide⟩) (by decide)
  obtain ⟨s, hs, hholders, hlive⟩ := third_create_succeeds h₃ rfl (p := ⟨100, by decide⟩)
    (q := ⟨101, by decide⟩) (r := ⟨102, by decide⟩) (by decide) (by decide) (by decide) rfl
  refine ⟨s, hs, hholders, ?_⟩
  rw [hholders, hlive]
  decide

end NcPidfile
