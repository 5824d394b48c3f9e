/-
  MpiRma/Basic.lean
  =================
  **Errors, machine integers and slices.**  Numbers are natural numbers (ranks are
  integers); what the fixed width of the source's types decides is written out: an
  operation the source checks returns an option, an operation it does not check
  panics when its result leaves the type, and so do a slice or an index out of range.
-/
import MpiRma.Bytes
import Mathlib.Data.Int.Notation

namespace MpiRma

/-! ### Errors -/

/-- Thread levels of the MPI library. -/
inductive Threading where
  | single
  | funneled
  | serialized
  | multiple
deriving DecidableEq, Repr

inductive Error where
  | mpi (code : Int)
  | threading (got : Threading)
  | intercommunicator
  | sizeOverflow
  | countOverflow
  | rank (rank : Int)
  | range (start len window : Nat)
  | window (message : String)
  | full
  | ring (message : String)
  | payload (len capacity : Nat)
  | ack (origin : Int) (sequence received : Nat)
  | lapped (origin : Int) (expected found : Nat)
deriving DecidableEq, Repr

/-- How a call ends when it does not return a value: with an error, or in a panic. -/
inductive Fail where
  | error (e : Error)
  | panic
deriving DecidableEq, Repr

/-! ### Machine integers -/

def u64Max : Nat := 18446744073709551615
def usizeMax : Nat := 18446744073709551615
def i32Max : Nat := 2147483647
/-- Greatest value of `MPI_Aint`. -/
def aintMax : Nat := 9223372036854775807

/-- `checked_add` on a type whose greatest value is `max`. -/
def checkedAdd (max a b : Nat) : Option Nat := if a + b ≤ max then some (a + b) else none

/-- `checked_mul` on a type whose greatest value is `max`. -/
def checkedMul (max a b : Nat) : Option Nat := if a * b ≤ max then some (a * b) else none

/-- `saturating_add` on a type whose greatest value is `max`. -/
def saturatingAdd (max a b : Nat) : Nat := min (a + b) max

/-- `a + b` on a type whose greatest value is `max`; an overflow panics. -/
def plainAdd (max a b : Nat) : Except Fail Nat := if a + b ≤ max then .ok (a + b) else .error .panic

/-- `a * b` on a type whose greatest value is `max`; an overflow panics. -/
def plainMul (max a b : Nat) : Except Fail Nat := if a * b ≤ max then .ok (a * b) else .error .panic

def plainSub (a b : Nat) : Except Fail Nat := if b ≤ a then .ok (a - b) else .error .panic

/-- `a % b`; a zero divisor panics. -/
def plainRem (a b : Nat) : Except Fail Nat := if b = 0 then .error .panic else .ok (a % b)

theorem plainAdd_ok {max a b : Nat} (h : a + b ≤ max) : plainAdd max a b = .ok (a + b) := if_pos h

theorem plainMul_ok {max a b : Nat} (h : a * b ≤ max) : plainMul max a b = .ok (a * b) := if_pos h

theorem plainSub_ok {a b : Nat} (h : b ≤ a) : plainSub a b = .ok (a - b) := if_pos h

theorem plainRem_ok {a b : Nat} (h : 0 < b) : plainRem a b = .ok (a % b) :=
  if_neg (Nat.pos_iff_ne_zero.mp h)

theorem checkedAdd_eq_some {max a b c : Nat} :
    checkedAdd max a b = some c ↔ a + b ≤ max ∧ c = a + b := by
  unfold checkedAdd
  split <;> simp_all [eq_comm]

theorem checkedMul_eq_some {max a b c : Nat} :
    checkedMul max a b = some c ↔ a * b ≤ max ∧ c = a * b := by
  unfold checkedMul
  split <;> simp_all [eq_comm]

/-! ### Indexing and slices -/

/-- `xs[i]`. -/
def index {α : Type} (xs : List α) (i : Nat) : Except Fail α :=
  match xs[i]? with
  | some x => .ok x
  | none => .error .panic

/-- `bytes[start..stop]`. -/
def slice (bytes : Bytes) (start stop : Nat) : Except Fail Bytes :=
  if start ≤ stop ∧ stop ≤ bytes.length then .ok ((bytes.drop start).take (stop - start))
  else .error .panic

/-- `dst[start..stop].copy_from_slice(src)`. -/
def copyFromSlice (dst : Bytes) (start stop : Nat) (src : Bytes) : Except Fail Bytes :=
  if start ≤ stop ∧ stop ≤ dst.length ∧ src.length = stop - start then
    .ok (dst.take start ++ src ++ dst.drop stop)
  else .error .panic

theorem index_ok {α : Type} {xs : List α} {i : Nat} {x : α} (h : xs[i]? = some x) :
    index xs i = .ok x := by
  simp [index, h]

theorem slice_ok {bytes : Bytes} {start stop : Nat} (h : start ≤ stop) (h' : stop ≤ bytes.length) :
    slice bytes start stop = .ok ((bytes.drop start).take (stop - start)) := if_pos ⟨h, h'⟩

theorem copyFromSlice_ok {dst src : Bytes} {start stop : Nat} (h : start ≤ stop)
    (h' : stop ≤ dst.length) (hsrc : src.length = stop - start) :
    copyFromSlice dst start stop src = .ok (dst.take start ++ src ++ dst.drop stop) :=
  if_pos ⟨h, h', hsrc⟩

end MpiRma
