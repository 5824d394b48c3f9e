/-
  MpiRma/Layout.lean
  ==================
  **Construction of a ring (`Ring::new`).**  Every rank sorts its own copy of the lane
  list, compares it with the copies of the others, and derives all offsets and
  acknowledgement indices in one pass over the sorted list, also for lanes it does
  not own.
-/
import MpiRma.Window
import Mathlib.Data.List.Sort

namespace MpiRma

/-! ### Lanes and rings -/

def WORD : Nat := 8
def CHECKSUM : Nat := 4
def HEADER : Nat := 2 * WORD + CHECKSUM

/-- One `(source, destination, depth, capacity)` tuple of the lane list. -/
structure LaneSpec where
  source : Int
  destination : Int
  depth : Nat
  capacity : Nat
deriving DecidableEq, Repr

structure Lane where
  offset : Nat
  depth : Nat
  capacity : Nat
  slot : Nat
  ack : Nat
deriving DecidableEq, Repr

/-- The part of a `Ring` that never changes after construction.  `toLanes` is indexed by
    destination, `fromLanes` by origin. -/
structure Ring where
  slots : Window
  acks : Option Window
  ranks : Nat
  toLanes : List (Option Lane)
  fromLanes : List (Option Lane)
  incoming : List Int
deriving DecidableEq, Repr

def LaneSpec.le (a b : LaneSpec) : Prop :=
  a.source < b.source ∨ a.source = b.source ∧
    (a.destination < b.destination ∨ a.destination = b.destination ∧
      (a.depth < b.depth ∨ a.depth = b.depth ∧ a.capacity ≤ b.capacity))

instance : DecidableRel LaneSpec.le := fun a b => by unfold LaneSpec.le; infer_instance

instance : Std.Total LaneSpec.le := ⟨fun a b => by unfold LaneSpec.le; omega⟩

instance : IsTrans LaneSpec LaneSpec.le := ⟨fun a b c => by unfold LaneSpec.le; omega⟩

instance : Std.Antisymm LaneSpec.le :=
  ⟨fun a b h h' => by
    unfold LaneSpec.le at h h'
    obtain ⟨s, d, p, c⟩ := a
    obtain ⟨s', d', p', c'⟩ := b
    simp only [LaneSpec.mk.injEq] at *
    omega⟩

namespace Ring

open Construct

/-! ### Agreement -/

def rankWord (rank : Int) : Nat := (rank.emod 18446744073709551616).toNat

/-- The words a rank gathers: the mode, then four for each lane. -/
def encode (safe : Bool) (config : List LaneSpec) : List Nat :=
  safe.toNat :: config.flatMap fun spec =>
    [rankWord spec.source, rankWord spec.destination, spec.depth, spec.capacity]

/-- `Ring::agree`. -/
def agree (safe : Bool) (config : List LaneSpec) : Construct Unit := do
  let counts ← allGatherInto [config.length]
  if counts.any (fun count => count ≠ config.length) then
    Code.throw (.ring "configuration differs between ranks")
  else
    let row := encode safe config
    let all ← allGatherInto row
    if (chunksExact row.length all).any (fun other => other ≠ row) then
      Code.throw (.ring "configuration differs between ranks")
    else
      pure ()

/-! ### Layout -/

def repeated (config : List LaneSpec) : Bool :=
  (config.zip config.tail).any fun pair =>
    pair.1.source = pair.2.source ∧ pair.1.destination = pair.2.destination

/-- The checks made on one lane. -/
def checkSpec (ranks : Nat) (spec : LaneSpec) : Except Error Unit :=
  if spec.source < 0 ∨ spec.destination < 0 ∨ ranks ≤ spec.source.toNat ∨
      ranks ≤ spec.destination.toNat then
    .error (.ring "lane rank is outside the communicator")
  else if spec.source = spec.destination then
    .error (.ring "self lanes are not transport")
  else if spec.depth = 0 then
    .error (.ring "depth must be positive")
  else if spec.capacity = 0 then
    .error (.ring "capacity must be positive")
  else
    .ok ()

def checkSpecs (ranks : Nat) : List LaneSpec → Except Error Unit
  | [] => .ok ()
  | spec :: rest => do
    checkSpec ranks spec
    checkSpecs ranks rest

structure Tables where
  lengths : List Nat
  ackLengths : List Nat
  toLanes : List (Option Lane)
  fromLanes : List (Option Lane)
deriving DecidableEq, Repr

def Tables.empty (ranks : Nat) : Tables :=
  ⟨List.replicate ranks 0, List.replicate ranks 0, List.replicate ranks none,
    List.replicate ranks none⟩

/-- One turn of the layout loop.  The ranks of `spec` have been checked, so the indices
    are in range. -/
def place (me : Nat) (tables : Tables) (spec : LaneSpec) : Except Error Tables := do
  let slot ← okOr (checkedAdd usizeMax spec.capacity (HEADER + WORD)) .sizeOverflow
  if i32Max < slot then
    .error .countOverflow
  else
    let bytes ← okOr (checkedMul usizeMax spec.depth slot) .sizeOverflow
    let target := spec.destination.toNat
    let source := spec.source.toNat
    let offset := tables.lengths.getD target 0
    let length ← okOr (checkedAdd usizeMax offset bytes) .sizeOverflow
    -- the index counts the source's outgoing lanes in configuration order; every rank
    -- derives it, because the `from` table needs it to target the origin's counter
    let ack := tables.ackLengths.getD source 0
    let acks ← okOr (checkedAdd usizeMax ack 1) .sizeOverflow
    let lane : Lane := ⟨offset, spec.depth, spec.capacity, slot, ack⟩
    pure
      { lengths := tables.lengths.set target length
        ackLengths := tables.ackLengths.set source acks
        toLanes := if source = me then tables.toLanes.set target (some lane) else tables.toLanes
        fromLanes :=
          if target = me then tables.fromLanes.set source (some lane) else tables.fromLanes }

def layout (me : Nat) : Tables → List LaneSpec → Except Error Tables
  | tables, [] => .ok tables
  | tables, spec :: rest => do
    let tables ← place me tables spec
    layout me tables rest

def incomingOf (rank : Int) (config : List LaneSpec) : List Int :=
  (config.filterMap fun spec =>
    if spec.destination = rank then some spec.source else none).insertionSort (· ≤ ·)

/-- `usize::try_from` on a communicator's size or rank. -/
def tryRank (value : Int) : Except Error Nat :=
  if value < 0 then .error .sizeOverflow else .ok value.toNat

def allocateAcks (comm : Comm) (safe : Bool) (len : Nat) : Construct (Option Window) := do
  if safe then
    let window ← Window.allocate comm .u64 len
    pure (some window)
  else
    pure none

/-- `Ring::new`.  A failure after the slot window exists drops the windows made so far. -/
def new (comm : Comm) (rings : List LaneSpec) (safe : Bool) : Construct Ring := do
  if comm.inter then
    Code.throw .intercommunicator
  else
    let ranks ← Code.lift (tryRank comm.size)
    let me ← Code.lift (tryRank comm.rank)
    let config := rings.insertionSort LaneSpec.le
    agree safe config
    if repeated config then
      Code.throw (.ring "a lane is configured twice")
    else
      Code.lift (checkSpecs ranks config)
      let tables ← Code.lift (layout me (Tables.empty ranks) config)
      let slots ← Window.allocate comm .u8 (tables.lengths.getD me 0)
      let acks ← orElse (allocateAcks comm safe (tables.ackLengths.getD me 0)) slots.finish
      let unified := decide (slots.model = .unified) && acks.all fun w => w.model = .unified
      let models ← allGatherInto [unified.toNat]
      if models.contains 0 then
        match acks with
        | some window => window.finish
        | none => pure ()
        slots.finish
        Code.throw (.window "local ring access requires unified memory")
      else
        pure
          { slots := slots
            acks := acks
            ranks := ranks
            toLanes := tables.toLanes
            fromLanes := tables.fromLanes
            incoming := incomingOf comm.rank config }

/-- Whether this ring gates overwrites with cumulative acknowledgements. -/
def isSafe (R : Ring) : Bool := R.acks.isSome

end Ring

end MpiRma
