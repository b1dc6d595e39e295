import NaturalC.Cursor
import NaturalC.NcStringSpec

/-!
# Records in a response of the name server

`dns_get_mx_list` and `dns_get_txt_record` walk over the packet that the resolver has put into a buffer on
the stack. Names are left to `dn_skipname(3)` and `dn_expand(3)`, which know where the packet ends; the fields
between the names are read without a look at the end.
-/
namespace NcDns

open Throwing Throwing.Act NcString Cursor

/-- `PACKETSZ`, the size of the buffer. -/
def packetSz : Nat := 512
/-- The bytes from the start of the buffer on, also those that do not belong to the packet. -/
abbrev Memory := Nat → UInt8

/-- `dn_skipname(3)` and `dn_expand(3)`, given the end of the packet and the place of the name. They give the
number of bytes that the name takes there, the second one also the name. -/
structure Resolver where
  dnSkipname : Memory → (fin cp : Nat) → Option Nat
  dnExpand : Memory → (fin cp size : Nat) → Option (Nat × Bytes)

/-- The two functions stay below the end that they are given. -/
structure Resolver.Bounded (R : Resolver) : Prop where
  skipname : ∀ mem fin cp len, R.dnSkipname mem fin cp = some len → cp + len ≤ fin
  expand : ∀ mem fin cp size len name, R.dnExpand mem fin cp size = some (len, name) → cp + len ≤ fin

/-- A scan of the packet that makes a list of texts. -/
abbrev Walk := Act (Scan (List Bytes))

/-- `list_push`. -/
def push (t : Bytes) : Walk Unit := modifyOut (· ++ [t])

variable (R : Resolver) (mem : Memory) (pktLen : Nat)

/-- What has been received of a packet of this length. -/
def received (pktLen : Nat) : Nat := min pktLen packetSz

variable {R mem pktLen} {limit : Nat} {s : Scan (List Bytes)}

/-- The call succeeds if this is so and fails otherwise. -/
def Decides (o : Outcome (Scan (List Bytes)) Unit) (P : Prop) : Prop :=
  (P → ∃ t, o = .ok () t) ∧ (¬ P → ∃ t, o = .thrown t)

variable {P Q : Prop}

theorem Decides.congr {o : Outcome (Scan (List Bytes)) Unit} (h : Decides o P) (hPQ : P ↔ Q) : Decides o Q :=
  ⟨fun hQ => h.1 (hPQ.mpr hQ), fun hQ => h.2 (mt hPQ.mp hQ)⟩

end NcDns
