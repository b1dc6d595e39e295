import Mathlib.Data.List.Basic
import NaturalC.Throwing

/-!
# Reading memory through a cursor

A scan walks over memory that holds something at every address and keeps a record of the addresses at
which it reads. The record only grows, so a scan that has once read too far is never inside again.
-/
namespace Cursor

open Throwing Throwing.Act

/-- A cursor, the addresses read so far, and what has been made of them. -/
structure Scan (ρ : Type) where
  cp : Nat
  reads : List Nat
  out : ρ

variable {β ρ α γ : Type}

/-- The scan after `n` cells at `a`. -/
def Scan.at (s : Scan ρ) (a n : Nat) : Scan ρ := { s with reads := s.reads ++ List.range' a n }

/-- The scan after the next `n` cells. -/
def Scan.next (s : Scan ρ) (n : Nat) : Scan ρ := { s.at s.cp n with cp := s.cp + n }

@[simp] theorem Scan.next_cp (s : Scan ρ) (n : Nat) : (s.next n).cp = s.cp + n := rfl

/-- Move the cursor without reading. -/
def skip (n : Nat) : Act (Scan ρ) Unit := do
  let s ← get
  put { s with cp := s.cp + n }

def modifyOut (f : ρ → ρ) : Act (Scan ρ) Unit := do
  let s ← get
  put { s with out := f s.out }

/-- Everything has been read below the limit. -/
def Scan.Inside (limit : Nat) (s : Scan ρ) : Prop := ∀ a ∈ s.reads, a < limit

/-- The scan comes back, and has stayed below the limit. -/
def Safe (limit : Nat) (o : Outcome (Scan ρ) α) : Prop := o.Returns (Scan.Inside limit)

/-- What has been read before is still recorded afterwards. -/
def Grows (m : Act (Scan ρ) α) : Prop := ∀ s, (m.run s).Returns fun t => ∀ a ∈ s.reads, a ∈ t.reads

/-- A scan that has stayed inside started inside. -/
theorem Grows.inside {m : Act (Scan ρ) α} (hm : Grows m) {limit : Nat} {s : Scan ρ} (h : Safe limit (m.run s)) :
    s.Inside limit := by
  have hs := hm s
  cases hrun : m.run s with
  | ok a t =>
    rw [hrun] at h hs
    exact fun x hx => h x (hs x hx)
  | thrown t =>
    rw [hrun] at h hs
    exact fun x hx => h x (hs x hx)
  | halt e =>
    rw [hrun] at hs
    exact hs.elim

theorem Scan.Inside.at {limit : Nat} {s : Scan ρ} (hs : s.Inside limit) {a n : Nat} (h : a + n ≤ limit) :
    (s.at a n).Inside limit := by
  intro x hx
  rcases List.mem_append.mp hx with hx | hx
  · exact hs x hx
  · have hx' := (List.mem_range'_1.mp hx).2
    omega

theorem Scan.Inside.next {limit : Nat} {s : Scan ρ} (hs : s.Inside limit) {n : Nat} (h : s.cp + n ≤ limit) :
    (s.next n).Inside limit := hs.at h

/-- A scan that gives up has stayed where it was. -/
@[simp] theorem safe_throwing {limit : Nat} {s : Scan ρ} :
    Safe limit ((throwing : Act (Scan ρ) α).run s) ↔ s.Inside limit := Iff.rfl

@[simp] theorem safe_pure {limit : Nat} {a : α} {s : Scan ρ} :
    Safe limit ((pure a : Act (Scan ρ) α).run s) ↔ s.Inside limit := Iff.rfl

end Cursor
