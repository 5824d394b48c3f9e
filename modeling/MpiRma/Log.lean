/-
  MpiRma/Log.lean
  ===============
  **What the log of a run says, and which logs are lawful.**  The first part reads the log:
  what landed on a lane, what polls returned from it, which content its slots have.  The
  second part is the contract of the ring as a law on logs: `EventOk` says when an event
  may be written after a given log, and a log is `Lawful` when each of its events was.
-/
import MpiRma.Accounting
import MpiRma.Cyclic

namespace MpiRma

/-! ### Reading the log -/

section Reading

variable (s d : Nat)

/-- The sequence of the newest image that landed on the lane from `s` to `d`. -/
def topOf : List Event → Nat
  | [] => 0
  | .put s' d' sequence _ _ _ _ :: log => if s' = s ∧ d' = d then sequence else topOf log
  | _ :: log => topOf log

def payloadOf (sequence : Nat) : List Event → Option Bytes
  | [] => none
  | .put s' d' sequence' data _ _ _ :: log =>
    if s' = s ∧ d' = d ∧ sequence' = sequence then some data else payloadOf sequence log
  | _ :: log => payloadOf sequence log

def sentOf : List Event → Nat
  | [] => 0
  | .put s' d' sequence _ ok _ _ :: log =>
    if s' = s ∧ d' = d ∧ ok = true then sequence else sentOf log
  | _ :: log => sentOf log

/-- The sequences and payloads put on the lane, oldest first. -/
def putsOf : List Event → List (Nat × Bytes)
  | [] => []
  | .put s' d' sequence data _ _ _ :: log =>
    if s' = s ∧ d' = d then putsOf log ++ [(sequence, data)] else putsOf log
  | _ :: log => putsOf log

/-- The messages polls returned from the lane, oldest first, as they log them on releasing `seen`;
    what they return to their callers is the same (`returned_polled`, `polls_delivered`). -/
def deliveredOf : List Event → List Message
  | [] => []
  | .polled rank (.ok messages) :: log =>
    if rank = d then deliveredOf log ++ fromOrigin s messages else deliveredOf log
  | _ :: log => deliveredOf log

/-- The sequence of the last message returned from the lane. -/
def cursorOf (log : List Event) : Nat :=
  ((deliveredOf s d log).getLast?.map Message.sequence).getD 0

def pollOpen : List Event → Bool
  | [] => false
  | .polling rank :: log => if rank = d then true else pollOpen log
  | .polled rank _ :: log => if rank = d then false else pollOpen log
  | _ :: log => pollOpen log

/-- The log right after the newest poll of rank `d` took the lock. -/
def pollStart : List Event → List Event
  | [] => []
  | .polling rank :: log => if rank = d then .polling rank :: log else pollStart log
  | _ :: log => pollStart log

def contentAt (lane : Lane) (log : List Event) (position : Nat) : Option Frame :=
  let sequence := Cyclic.newest lane.depth (topOf s d log) position
  if sequence = 0 then none else some ⟨sequence, (payloadOf s d sequence log).getD []⟩

end Reading

def seenOf (n d : Nat) (log : List Event) : List Nat := (List.range n).map fun s => cursorOf s d log

/-! ### Lawful logs -/

section Law

variable [Libraries] {n : Nat} {safe : Bool} {ring : Nat → Ring} (W : Wired n safe ring)
  (faults : Faults)

/-- A put carries the next sequence and, in a safe ring, overwrites nothing that no poll
    has returned. -/
structure PutOk (log : List Event) (s d sequence : Nat) (data : Bytes) (ok : Bool) (l : Lane) :
    Prop where
  lane : W.lane s d = some l
  fits : data.length ≤ l.capacity
  next : sequence = sentOf s d log + 1
  max : sequence ≤ u64Max
  room : safe = true → sequence ≤ cursorOf s d log + l.depth
  fault : ok = true ∨ faults.puts = true

/-- A read inside a slot shows a part of an image that says the slot's content. -/
def ReadOk (log : List Event) (d disp : Nat) (bytes : Bytes) : Prop :=
  ∀ s lane, W.lane s d = some lane → ∀ position < lane.depth,
    lane.slotAt position ≤ disp → disp + bytes.length ≤ lane.slotAt position + lane.slot →
    ∃ image, Ring.Says lane image (contentAt s d lane log position) ∧
      bytes = view image (disp - lane.slotAt position) bytes.length

def PolledOk (log : List Event) (d : Nat) (result : Except Fail (List Message)) : Prop :=
  d < n ∧ pollOpen d log = true ∧ ∃ messages lags, result = .ok messages ∧
    PollSum d safe (W.into d) (seenOf n d (pollStart d log))
      (seenOf n d (.polled d (.ok messages) :: log)) (pollStart d log) log messages lags

def SentOk (log : List Event) (s : Nat) (destination : Int) (data : Bytes) :
    Except Fail Nat → Prop
  | .ok sequence => ∃ d disp len : Nat, destination = d ∧
    .put s d sequence data true disp len ∈ log
  | .error .panic => False
  | .error (.error e) =>
    e = .rank destination ∧ (destination < 0 ∨ (n : Int) ≤ destination) ∨
    ∃ d : Nat, destination = d ∧ d < n ∧
      (e = .ring "directed lane is not configured" ∧ W.lane s d = none ∨
      ∃ lane, W.lane s d = some lane ∧
        (e = .payload data.length lane.capacity ∧ lane.capacity < data.length ∨
        e = .full ∧ safe = true ∨
        e = .ring "sequence number exhausted" ∧ u64Max ≤ sentOf s d log ∨
        (∃ code, e = .mpi code) ∧ faults.puts = true))

def AckedOk (d : Nat) (origin : Int) (sequence : Nat) : Except Fail Unit → Prop
  | .ok () => True
  | .error .panic => False
  | .error (.error e) =>
    e = .rank origin ∧ (origin < 0 ∨ (n : Int) ≤ origin) ∨
    ∃ s : Nat, origin = s ∧ s < n ∧ safe = true ∧
      (e = .ring "directed lane is not configured" ∧ W.lane s d = none ∨
      ∃ lane, W.lane s d = some lane ∧
        ((∃ received, e = .ack origin sequence received ∧ received < sequence) ∨
        (∃ code, e = .mpi code) ∧ faults.adds = true))

def ReturnedOk (log : List Event) (rank : Nat) : Request → Outcome → Prop
  | .send destination data, .sent result => SentOk W faults log rank destination data result
  | .poll, .polled result => ∃ messages, result = .ok messages ∧ .polled rank (.ok messages) ∈ log
  | .ack origin sequence, .acked result => AckedOk W faults rank origin sequence result
  | _, _ => False

def EventOk (log : List Event) : Event → Prop
  | .put s d sequence data ok disp len => ∃ l, PutOk W faults log s d sequence data ok l ∧
    disp = l.slotAt (l.position sequence) ∧ len = l.slot
  | .polling d => pollOpen d log = false
  | .read d disp bytes => ReadOk W log d disp bytes
  | .lost d _ => pollOpen d log = true
  | .polled d result => PolledOk W log d result
  | .returned rank request outcome => rank < n ∧ ReturnedOk W faults log rank request outcome

/-- Every event of the log was allowed when it was written. -/
def Lawful : List Event → Prop
  | [] => True
  | e :: log => EventOk W faults log e ∧ Lawful log

end Law

end MpiRma
