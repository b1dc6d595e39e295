import Mathlib.Data.Nat.Count
import NaturalC.Throwing

/-!
# One round of the server

`server_multiplex` waits in `poll(2)` and then goes over the descriptors until it has met as many as
`poll(2)` has announced. A descriptor with an error is written to the log and not counted, so the round
walks past the end of the table and ends the server.
-/
namespace NcServer

open Throwing Throwing.Act

/-- The type of `revents`. -/
abbrev Revents := BitVec 16

def pollin : Revents := 0x001
def pollerr : Revents := 0x008
def pollhup : Revents := 0x010
def pollnval : Revents := 0x020

/-- `revents & bit`, as a condition. -/
def has (r bit : Revents) : Bool := r &&& bit != 0

/-- The condition for an error. -/
def failed (r : Revents) : Bool := has r pollerr || has r pollhup || has r pollnval

inductive Handling where
  | accept
  | dump
  deriving DecidableEq, Repr

/-- What a round does: where it reads the two tables, and what it does with which server. -/
structure Round where
  pfdRead : List Nat
  handlerRead : List Nat
  handled : List (Nat × Handling)
  deriving DecidableEq, Repr

def Round.start : Round := ⟨[], [], []⟩

/-- `pfd[n].revents`. The memory behind the table holds anything. -/
def loadRevents (revents : Nat → Revents) (n : Nat) : Act Round Revents := do
  let r ← get
  put { r with pfdRead := r.pfdRead ++ [n] }
  pure (revents n)

/-- A call with `handler[n]`. The result of `server_accept` is discarded, and `server_dump` only writes to
the log. -/
def withHandler (n : Nat) (what : Handling) : Act Round Unit := do
  let r ← get
  put { r with handlerRead := r.handlerRead ++ [n], handled := r.handled ++ [(n, what)] }

def serverAccept (n : Nat) : Act Round Unit := withHandler n .accept
def serverDump (n : Nat) : Act Round Unit := withHandler n .dump

/-- One turn of the loop, with the counters `j` and `n`. -/
def dispatchStep (revents : Nat → Revents) (pfdCount i : Nat) : Nat × Nat → Act Round ((Nat × Nat) ⊕ Nat)
  | (j, n) =>
    if n ≤ pfdCount ∧ j < i then do
      let r ← loadRevents revents n
      if has r pollin then do
        serverAccept n
        pure (.inl (j + 1, n + 1))
      else if failed r then do
        serverDump n
        pure (.inl (j, n + 1))
      else pure (.inl (j, n + 1))
    else pure (.inr j)

/-- The round after `poll(2)` has returned `i`. -/
def dispatch (revents : Nat → Revents) (pfdCount i : Nat) : Act Round Unit := do
  let j ← loop (dispatchStep revents pfdCount i) (pfdCount + 2) (0, 0)
  if j < i then throwing else pure ()

/-- What `poll(2)` returns. -/
def readyCount (revents : Nat → Revents) (pfdCount : Nat) : Nat := Nat.count (fun n => revents n ≠ 0) pfdCount

/-- The round comes to its end without an exception, has stayed in the tables, and has handled the ready
descriptors, each of them once. -/
def Served (revents : Nat → Revents) (pfdCount : Nat) (o : Outcome Round Unit) : Prop :=
  ∃ r, o = .ok () r ∧ (∀ n ∈ r.pfdRead, n < pfdCount) ∧ (∀ n ∈ r.handlerRead, n < pfdCount) ∧
    ∀ n < pfdCount, (r.handled.map Prod.fst).count n = if revents n ≠ 0 then 1 else 0

variable {revents : Nat → Revents} {pfdCount i n : Nat}

/-- How many clients have been accepted before the `n`-th descriptor. -/
def accepted (revents : Nat → Revents) (n : Nat) : Nat := Nat.count (fun n => has (revents n) pollin) n

/-- What is done with a descriptor. -/
def handling (r : Revents) : Option Handling :=
  if has r pollin then some .accept
  else if failed r then some .dump
  else none

/-- The first `n` turns of the loop. -/
def Round.upto (revents : Nat → Revents) : Nat → Round
  | 0 => .start
  | n + 1 =>
    let r := upto revents n
    let h := (handling (revents n)).toList
    ⟨r.pfdRead ++ [n], r.handlerRead ++ h.map (fun _ => n), r.handled ++ h.map (fun x => (n, x))⟩

theorem dispatchStep_goes_on (hn : n ≤ pfdCount) (hj : accepted revents n < i) :
    (dispatchStep revents pfdCount i (accepted revents n, n)).run (Round.upto revents n) =
      .ok (.inl (accepted revents (n + 1), n + 1)) (Round.upto revents (n + 1)) := by
  rw [dispatchStep, if_pos ⟨hn, hj⟩]
  cases hin : has (revents n) pollin with
  | true =>
    have hcount : accepted revents (n + 1) = accepted revents n + 1 :=
      Nat.count_succ_eq_succ_count_iff.mpr hin
    simp [hin, hcount, loadRevents, serverAccept, withHandler, Round.upto, handling, run_bind]
  | false =>
    have hcount : accepted revents (n + 1) = accepted revents n :=
      Nat.count_succ_eq_count_iff.mpr (by simp [hin])
    cases herr : failed (revents n) with
    | true => simp [hin, herr, hcount, loadRevents, serverDump, withHandler, Round.upto, handling, run_bind]
    | false => simp [hin, herr, hcount, loadRevents, Round.upto, handling, run_bind]

/-- The loop goes on while fewer clients have been accepted than announced, and one entry too far. -/
theorem loop_dispatch (hn : n ≤ pfdCount + 1) (hj : ∀ m < n, accepted revents m < i) (fuel : Nat) :
    (loop (dispatchStep revents pfdCount i) (fuel + n) (0, 0)).run .start =
      (loop (dispatchStep revents pfdCount i) fuel (accepted revents n, n)).run (Round.upto revents n) := by
  induction n generalizing fuel with
  | zero => rfl
  | succ n ih =>
    have hgoes := dispatchStep_goes_on (Nat.le_of_succ_le_succ hn) (hj n (Nat.lt_succ_self n))
    calc (loop (dispatchStep revents pfdCount i) (fuel + (n + 1)) (0, 0)).run .start
        = (loop (dispatchStep revents pfdCount i) (fuel + 1 + n) (0, 0)).run .start := by
          rw [Nat.add_right_comm, Nat.add_assoc]
      _ = (loop (dispatchStep revents pfdCount i) (fuel + 1) (accepted revents n, n)).run (Round.upto revents n) :=
          ih (Nat.le_of_succ_le hn) (fun m hm => hj m (Nat.lt_succ_of_lt hm)) (fuel + 1)
      _ = _ := run_loop_inl hgoes

/-- The round ends where enough clients have been accepted, or behind the entry after the last one. -/
theorem dispatch_ends (hn : n ≤ pfdCount + 1) (hj : ∀ m < n, accepted revents m < i)
    (hend : i ≤ accepted revents n ∨ n = pfdCount + 1) :
    (dispatch revents pfdCount i).run .start =
      if accepted revents n < i then .thrown (Round.upto revents n) else .ok () (Round.upto revents n) := by
  have hstop : (dispatchStep revents pfdCount i (accepted revents n, n)).run (Round.upto revents n) =
      .ok (.inr (accepted revents n)) (Round.upto revents n) := by
    have hno : ¬(n ≤ pfdCount ∧ accepted revents n < i) := by omega
    rw [dispatchStep, if_neg hno, run_pure]
  have hloop : (loop (dispatchStep revents pfdCount i) (pfdCount + 2) (0, 0)).run .start =
      .ok (accepted revents n) (Round.upto revents n) := by
    obtain ⟨fuel, hfuel⟩ : ∃ fuel, pfdCount + 2 = fuel + 1 + n := ⟨pfdCount + 1 - n, by omega⟩
    rw [hfuel, loop_dispatch hn hj, run_loop_inr hstop]
  rw [dispatch, run_bind_ok hloop]
  split <;> rfl

theorem upto_pfdRead (revents : Nat → Revents) (n : Nat) : (Round.upto revents n).pfdRead = List.range n := by
  induction n with
  | zero => rfl
  | succ n ih => rw [Round.upto, List.range_succ, ih]

theorem upto_handlerRead {m : Nat} (hm : m ∈ (Round.upto revents n).handlerRead) : m < n := by
  induction n with
  | zero => cases hm
  | succ n ih =>
    rw [Round.upto] at hm
    rcases List.mem_append.mp hm with hold | hnew
    · exact Nat.lt_succ_of_lt (ih hold)
    · obtain ⟨-, -, rfl⟩ := List.mem_map.mp hnew
      exact Nat.lt_succ_self n

/-- Each descriptor is handled once at most. -/
theorem upto_handled (revents : Nat → Revents) (n m : Nat) :
    ((Round.upto revents n).handled.map Prod.fst).count m =
      if m < n ∧ handling (revents m) ≠ none then 1 else 0 := by
  induction n with
  | zero => rfl
  | succ n ih =>
    rw [Round.upto, List.map_append, List.count_append, ih]
    rcases Nat.lt_trichotomy m n with hlt | rfl | hgt
    · cases handling (revents n) with
      | none => simp [hlt, Nat.lt_succ_of_lt hlt]
      | some h => simp [hlt, Nat.lt_succ_of_lt hlt, Nat.ne_of_gt hlt]
    · cases handling (revents m) <;> simp
    · have hno : ¬ m < n + 1 := by omega
      cases handling (revents n) with
      | none => simp [hno, Nat.lt_asymm hgt]
      | some h => simp [hno, Nat.lt_asymm hgt, Nat.ne_of_lt hgt]

theorem handling_of_pollin {r : Revents} (h : has r pollin = true) : handling r = some .accept := if_pos h

theorem handling_zero : handling 0 = none := by decide

theorem ne_zero_of_pollin {r : Revents} (h : has r pollin = true) : r ≠ 0 := by
  rintro rfl
  cases h

/-- A descriptor that is ready without a client is announced and never counted. -/
theorem accepted_lt_readyCount {m : Nat} (hm : m < n) (hready : revents m ≠ 0)
    (hno : has (revents m) pollin = false) : accepted revents n < readyCount revents n := by
  have hle : ∀ n, accepted revents n ≤ readyCount revents n := fun n =>
    Nat.count_mono_left fun _ _ => ne_zero_of_pollin
  induction n with
  | zero => cases hm
  | succ n ih =>
    have ha := Nat.count_succ (fun n => has (revents n) pollin) n
    have hr := Nat.count_succ (fun n => revents n ≠ 0) n
    rw [accepted, readyCount, ha, hr]
    rcases Nat.lt_or_eq_of_le (Nat.le_of_lt_succ hm) with hlt | rfl
    · have hprev : accepted revents n < readyCount revents n := ih hlt
      rw [accepted, readyCount] at hprev
      by_cases hin : has (revents n) pollin = true
      · rw [if_pos hin, if_pos (ne_zero_of_pollin hin)]
        omega
      · rw [if_neg hin]
        omega
    · have hprev := hle m
      rw [accepted, readyCount] at hprev
      rw [if_neg (by simp [hno]), if_pos hready]
      omega

/-- If every ready descriptor has a client, all that are announced are counted. -/
theorem accepted_eq_readyCount (h : ∀ n < pfdCount, revents n ≠ 0 → has (revents n) pollin = true) :
    accepted revents pfdCount = readyCount revents pfdCount :=
  Nat.le_antisymm (Nat.count_mono_left fun _ _ => ne_zero_of_pollin) (Nat.count_mono_left h)

/-- With a client on every ready descriptor, the round ends in the table, behind the last of them. -/
theorem dispatch_served (h : ∀ n < pfdCount, revents n ≠ 0 → has (revents n) pollin = true) :
    Served revents pfdCount ((dispatch revents pfdCount (readyCount revents pfdCount)).run .start) := by
  have hall := accepted_eq_readyCount h
  have hend : ∃ n, readyCount revents pfdCount ≤ accepted revents n := ⟨pfdCount, hall.ge⟩
  -- The turn after which the last announced client has been accepted.
  obtain ⟨n, hn, hfirst⟩ : ∃ n, readyCount revents pfdCount ≤ accepted revents n ∧
      ∀ m < n, accepted revents m < readyCount revents pfdCount :=
    ⟨Nat.find hend, Nat.find_spec hend, fun m hm => Nat.lt_of_not_le (Nat.find_min hend hm)⟩
  have hle : n ≤ pfdCount := by
    by_contra hgt
    have hlt := hfirst pfdCount (Nat.lt_of_not_le hgt)
    omega
  refine ⟨Round.upto revents n, ?_, ?_, ?_, ?_⟩
  · rw [dispatch_ends (Nat.le_succ_of_le hle) hfirst (Or.inl hn), if_neg (Nat.not_lt_of_le hn)]
  · intro m hm
    rw [upto_pfdRead, List.mem_range] at hm
    exact Nat.lt_of_lt_of_le hm hle
  · intro m hm
    exact Nat.lt_of_lt_of_le (upto_handlerRead hm) hle
  · intro m hm
    rw [upto_handled]
    by_cases hready : revents m = 0
    · rw [hready, handling_zero, if_neg (by simp), if_neg (by simp)]
    · have hin := h m hm hready
      have hmn : m < n := by
        by_contra hge
        have hcount : accepted revents m < accepted revents pfdCount := Nat.count_strict_mono hin hm
        have hmono : accepted revents n ≤ accepted revents m := Nat.count_monotone _ (Nat.le_of_not_lt hge)
        omega
      rw [handling_of_pollin hin, if_pos ⟨hmn, by simp⟩, if_pos hready]

/-- A round goes well if and only if there is a client on every ready descriptor. -/
theorem dispatch_served_iff (revents : Nat → Revents) (pfdCount : Nat) :
    Served revents pfdCount ((dispatch revents pfdCount (readyCount revents pfdCount)).run .start) ↔
      ∀ n < pfdCount, revents n ≠ 0 → has (revents n) pollin = true := by
  refine ⟨?_, dispatch_served⟩
  rintro ⟨r, hrun, hpfd, -, -⟩ m hm hready
  by_contra hno
  have hlt := accepted_lt_readyCount hm hready (Bool.eq_false_of_not_eq_true hno)
  have hall : ∀ k < pfdCount + 1, accepted revents k < readyCount revents pfdCount := by
    intro k hk
    have hmono : accepted revents k ≤ accepted revents pfdCount := Nat.count_monotone _ (Nat.le_of_lt_succ hk)
    omega
  -- The loop does not stop before it has read the entry behind the table.
  rw [dispatch_ends (Nat.le_refl _) hall (Or.inr rfl)] at hrun
  split at hrun
  · cases hrun
  · cases hrun
    rw [upto_pfdRead] at hpfd
    exact Nat.lt_irrefl _ (hpfd pfdCount (List.mem_range.mpr (Nat.lt_succ_self _)))

/-- A client on the first of two listening sockets, and a hangup on the second. -/
def clientAndHangup : Nat → Revents
  | 0 => pollin
  | 1 => pollhup
  | _ => 0

/-- The entry behind the two is read, and the server comes to its end. -/
theorem dispatch_throws_at_hangup :
    (dispatch clientAndHangup 2 (readyCount clientAndHangup 2)).run .start =
      .thrown ⟨[0, 1, 2], [0, 1], [(0, .accept), (1, .dump)]⟩ ∧
    ¬ ∀ (revents : Nat → Revents) (pfdCount : Nat),
      Served revents pfdCount ((dispatch revents pfdCount (readyCount revents pfdCount)).run .start) := by
  have hrun : (dispatch clientAndHangup 2 (readyCount clientAndHangup 2)).run .start =
      .thrown ⟨[0, 1, 2], [0, 1], [(0, .accept), (1, .dump)]⟩ := by
    decide +kernel
  refine ⟨hrun, ?_⟩
  intro h
  obtain ⟨r, hr, -⟩ := h clientAndHangup 2
  rw [hrun] at hr
  cases hr

end NcServer
