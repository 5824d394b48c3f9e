/-
  MpiRma/Window.lean
  ==================
  **The window layer of `window.rs`.**  Allocation is a collective program: every
  rank gathers the configuration of all ranks, allocates, opens its access epoch and
  meets the others in a barrier.  An allocated `Window` keeps the table of all ranks'
  lengths, and every access is validated against the length of the rank it targets
  before a command reaches MPI or the local memory.
-/
import MpiRma.Basic
import MpiRma.Collective

namespace MpiRma

/-! ### Calls into MPI during construction -/

/-- The memory model of a window (`MPI_WIN_MODEL`). -/
inductive MemoryModel where
  | unified
  | separate
deriving DecidableEq, Repr

/-- What a rank sees of its communicator and of the MPI library (`errWin` is the
    library's `MPI_ERR_WIN`). -/
structure Comm where
  size : Int
  rank : Int
  inter : Bool
  threading : Threading
  errWin : Int
deriving DecidableEq, Repr

/-- The element type of a window: `size_of::<T>()` and `T::TYPE_ID`. -/
structure Element where
  width : Nat
  typeId : Nat
deriving DecidableEq, Repr

def Element.u8 : Element := ⟨1, 1⟩
def Element.u64 : Element := ⟨8, 4⟩

/-- What `MPI_Win_allocate` hands out: the handle of the window, by which this rank names it,
    and whether the base pointer is null. -/
structure Base where
  win : Nat
  null : Bool
deriving DecidableEq, Repr

/-- Calls into MPI made while a window is constructed, with the window they act on. -/
inductive MpiCall where
  | allGather (row : List Nat)
  | winAllocate (bytes width : Nat)
  | winGetAttr (win : Nat)
  | winLockAll (win : Nat)
  | winSync (win : Nat)
  | winUnlockAll (win : Nat)
  | winFree (win : Nat)
  | barrier
deriving DecidableEq, Repr

/-- What each call answers: `allGather` the rows of all ranks in rank order,
    `winAllocate` a new window, `winGetAttr` the memory model if the attribute is set,
    and the calls `check` looks at their error code. -/
def MpiCall.Answer : MpiCall → Type
  | .allGather _ => List Nat
  | .winAllocate _ _ => Except Int Base
  | .winGetAttr _ => Except Int (Option MemoryModel)
  | .winLockAll _ => Except Int Unit
  | .winSync _ => Except Int Unit
  | .winUnlockAll _ => Except Int Unit
  | .winFree _ => Except Int Unit
  | .barrier => Unit

/-- Every rank of the communicator has to make these calls together. -/
def MpiCall.collective : MpiCall → Bool
  | .allGather _ => true
  | .winAllocate _ _ => true
  | .winFree _ => true
  | .barrier => true
  | .winGetAttr _ => false
  | .winLockAll _ => false
  | .winSync _ => false
  | .winUnlockAll _ => false

abbrev MpiEvent := (c : MpiCall) × c.Answer

/-- Which collective calls the ranks can make together, and what they answer.  A gather
    hands every rank the rows of all ranks, in rank order. -/
inductive MpiCall.Joint {n : Nat} : (Fin n → MpiEvent) → Prop where
  | allGather (rows : Fin n → List Nat) (width : Nat) (h : ∀ i, (rows i).length = width) :
      Joint fun i => ⟨.allGather (rows i), (List.ofFn rows).flatten⟩
  | winAllocate (bytes width : Fin n → Nat) (answer : Fin n → Except Int Base) :
      Joint fun i => ⟨.winAllocate (bytes i) (width i), answer i⟩
  | winFree (win : Fin n → Nat) (answer : Fin n → Except Int Unit) :
      Joint fun i => ⟨.winFree (win i), answer i⟩
  | barrier : Joint fun _ => ⟨.barrier, ()⟩

/-- Construction code: calls into MPI, early exits with an error. -/
abbrev Construct := Code MpiCall MpiCall.Answer Unit Error

namespace Construct

def allGatherInto (row : List Nat) : Construct (List Nat) := Code.perform (MpiCall.allGather row)
def winAllocate (bytes width : Nat) : Construct (Except Int Base) :=
  Code.perform (MpiCall.winAllocate bytes width)
def winGetAttr (win : Nat) : Construct (Except Int (Option MemoryModel)) :=
  Code.perform (MpiCall.winGetAttr win)
def winLockAll (win : Nat) : Construct (Except Int Unit) := Code.perform (MpiCall.winLockAll win)
def winSync (win : Nat) : Construct (Except Int Unit) := Code.perform (MpiCall.winSync win)
def winUnlockAll (win : Nat) : Construct (Except Int Unit) :=
    Code.perform (MpiCall.winUnlockAll win)
def winFree (win : Nat) : Construct (Except Int Unit) := Code.perform (MpiCall.winFree win)
def barrier : Construct Unit := Code.perform MpiCall.barrier

/-- Run `m`; when it fails, run `cleanup` and pass the error on. -/
def orElse {α : Type} (m : Construct α) (cleanup : Construct Unit) : Construct α := fun v =>
  (m v).bind fun
    | (.ok a, v') => .ret (.ok a, v')
    | (.error e, v') => (cleanup v').bind fun r => .ret (.error e, r.2)

end Construct

open Construct

def check {α : Type} : Except Int α → Except Error α
  | .ok a => .ok a
  | .error code => .error (.mpi code)

/-- `ok_or`. -/
def okOr {ε α : Type} (x : Option α) (e : ε) : Except ε α :=
  match x with
  | some a => .ok a
  | none => .error e

/-- `chunks_exact(width)`. -/
def chunksExact {α : Type} (width : Nat) (xs : List α) : List (List α) :=
  (List.range (xs.length / width)).map fun i => (xs.drop (i * width)).take width

/-- `MPI_Aint::try_from`, and `i32::try_from`, on a size. -/
def tryFrom (max a : Nat) : Option Nat := if a ≤ max then some a else none

theorem tryFrom_eq_some {max a b : Nat} : tryFrom max a = some b ↔ a ≤ max ∧ a = b := by
  unfold tryFrom
  split <;> simp_all

/-! ### Windows -/

/-- An allocated window: its handle, the length every rank allocated, the caller's rank, the
    number of ranks, and the memory model. -/
structure Window where
  win : Nat
  lengths : List Nat
  rank : Int
  ranks : Int
  model : MemoryModel
deriving DecidableEq, Repr

namespace Window

/-- `init_epoch`: enter the passive-target epoch and report the memory model. -/
def initEpoch (comm : Comm) (base : Base) (len : Nat) : Construct MemoryModel := do
  if 0 < len ∧ base.null = true then
    Code.throw (.mpi comm.errWin)
  else
    let value ← winGetAttr base.win
    let flagged ← Code.lift (check value)
    let model ← Code.lift (okOr flagged (.mpi comm.errWin))
    let locked ← winLockAll base.win
    Code.lift (check locked)
    -- `write_bytes` zeroes the local storage here
    if model = .separate then
      let synced ← winSync base.win
      Code.lift (check synced)
      pure model
    else
      pure model

/-- `Window::allocate`. -/
def allocate (comm : Comm) (element : Element) (len : Nat) : Construct Window := do
  if comm.inter then
    Code.throw .intercommunicator
  else if comm.threading ≠ .multiple then
    Code.throw (.threading comm.threading)
  else
    let config := [len, element.width, element.typeId]
    let ranks ← Code.lift (if comm.size < 0 then .error .sizeOverflow else .ok comm.size.toNat)
    let configsLen ← Code.lift (okOr (checkedMul usizeMax ranks config.length) .sizeOverflow)
    if i32Max < configsLen then
      Code.throw .countOverflow
    else
      let configs ← allGatherInto config
      if (chunksExact config.length configs).any (fun c => c.drop 1 ≠ config.drop 1) then
        Code.throw (.window "element type differs between ranks")
      else
        let lengths := (chunksExact config.length configs).map fun c => c.headD 0
        if lengths.any (fun len =>
            ((checkedMul usizeMax len element.width).bind (tryFrom aintMax)).isNone) then
          Code.throw .sizeOverflow
        else
          let bytes ← Code.lift (okOr (checkedMul usizeMax len element.width) .sizeOverflow)
          let bytes ← Code.lift (okOr (tryFrom aintMax bytes) .sizeOverflow)
          let width ← Code.lift (okOr (tryFrom i32Max element.width) .sizeOverflow)
          let answer ← winAllocate bytes width
          let base ← Code.lift (check answer)
          -- the handle is live from here on: a failing epoch frees it
          let model ← orElse (initEpoch comm base len) (do let _ ← winFree base.win; pure ())
          barrier
          pure ⟨base.win, lengths, comm.rank, comm.size, model⟩

/-- `Window::finish`, as the destructor runs it: its result is dropped. -/
def finish (window : Window) : Construct Unit := do
  let unlocked ← winUnlockAll window.win
  match unlocked with
  | .error _ => pure ()
  | .ok _ =>
    let _ ← winFree window.win
    pure ()

/-- `Window::validate`: the range lies in the allocation of the rank it targets. -/
def validate (window : Window) (rank : Int) (start len : Nat) : Except Fail Unit :=
  if rank < 0 ∨ window.ranks ≤ rank then
    .error (.error (.rank rank))
  else match checkedAdd usizeMax start len with
  | none => .error (.error .sizeOverflow)
  | some stop =>
    match index window.lengths rank.toNat with
    | .error e => .error e
    | .ok length =>
      if length < stop then .error (.error (.range start len length)) else .ok ()

theorem validate_ok {window : Window} {rank : Int} {start len length : Nat} (h0 : 0 ≤ rank)
    (h1 : rank < window.ranks) (hlen : window.lengths[rank.toNat]? = some length)
    (h : start + len ≤ length) (hmax : length ≤ usizeMax) :
    window.validate rank start len = .ok () := by
  have hrank : ¬ (rank < 0 ∨ window.ranks ≤ rank) := by omega
  have hadd : checkedAdd usizeMax start len = some (start + len) :=
    checkedAdd_eq_some.mpr ⟨by omega, rfl⟩
  have hstop : ¬ length < start + len := by omega
  simp [validate, hrank, hadd, index_ok hlen, hstop]

end Window

end MpiRma
