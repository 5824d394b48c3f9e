/-
  MpiRma/Ring.lean
  ================
  **Send, poll and acknowledge (`ring.rs`).**  The operations are programs over
  `RingCall`: taking and dropping the three mutexes, reading the local windows, the
  remote put and fetch-and-add, and the atomic statistics.  Everything else is
  computed between the commands.  `Ring.send` works on the guarded `Outgoing`, a poll
  on the guarded `seen` cursors, and both keep what they did to them when they exit
  early.
-/
import MpiRma.Layout

namespace MpiRma

/-! ### Messages and guarded state -/

structure Message where
  origin : Int
  sequence : Nat
  data : Bytes
deriving DecidableEq, Repr

structure Frame where
  sequence : Nat
  data : Bytes
deriving DecidableEq, Repr

/-- Per-lane sender state. -/
structure Outgoing where
  sent : Nat
  acked : Nat
  image : Bytes
deriving DecidableEq, Repr

/-- What the ring calls outside of its source: the value of a `crc32fast` hasher that was fed
    these bytes, and `sort_unstable_by_key`, which leaves equal sequences in some order. -/
class Libraries where
  hash : Bytes → UInt32
  sortUnstable : List Frame → List Frame
  perm : ∀ frames, (sortUnstable frames).Perm frames
  sorted : ∀ frames, (sortUnstable frames).Pairwise fun a b => a.sequence ≤ b.sequence

/-! ### Commands -/

/-- The steps of a ring operation other threads and ranks can tell apart.  A `put` and a
    `fetchAdd` include their flush; `unlockSeen` says what the poll that drops the guard
    hands to its caller, and `none` when an acknowledgement drops it. -/
inductive RingCall where
  | lockSent (i : Nat)
  | unlockSent (i : Nat) (outgoing : Outgoing) (poison : Bool)
  | lockSeen
  | unlockSeen (seen : List Nat) (poison : Bool) (polled : Option (Except Fail (List Message)))
  | lockAcked
  | unlockAcked (acked : List Nat) (poison : Bool)
  | readLocal (disp len : Nat)
  | readLocalVolatile (disp len : Nat)
  | readCounter (disp : Nat)
  | put (dest : Int) (disp : Nat) (data : Bytes)
  | fetchAdd (dest : Int) (disp value : Nat)
  | addLost (count : Nat)
  | addCorrupt
  | maxLag (lag : Nat)
  | addFull

/-- Answers: a poisoned mutex answers `none`, MPI calls answer an error code or a value. -/
def RingCall.Answer : RingCall → Type
  | .lockSent _ => Option Outgoing
  | .unlockSent _ _ _ => Unit
  | .lockSeen => Option (List Nat)
  | .unlockSeen _ _ _ => Unit
  | .lockAcked => Option (List Nat)
  | .unlockAcked _ _ => Unit
  | .readLocal _ _ => Bytes
  | .readLocalVolatile _ _ => Bytes
  | .readCounter _ => Nat
  | .put _ _ _ => Except Int Unit
  | .fetchAdd _ _ _ => Except Int Nat
  | .addLost _ => Unit
  | .addCorrupt => Unit
  | .maxLag _ => Unit
  | .addFull => Unit

abbrev RingCode (σ α : Type) := Code RingCall RingCall.Answer σ Fail α

abbrev RingProgram (α : Type) := Program RingCall RingCall.Answer α

/-- A guard dropped while panicking poisons its mutex. -/
def poisons {α : Type} : Except Fail α → Bool
  | .error .panic => true
  | _ => false

section Guards

variable {σ α : Type}

/-- Hold `self.sent[i]` around `body`. -/
def withSent (i : Nat) (body : RingCode Outgoing α) : RingCode σ α := fun v =>
  .op (.lockSent i) fun
    | none => .ret (.error (.error (.ring "send state poisoned")), v)
    | some outgoing => (body outgoing).bind fun r =>
      .op (.unlockSent i r.2 (poisons r.1)) fun _ => .ret (r.1, v)

/-- Hold `self.seen` around `body`. -/
def withSeen (polled : Except Fail α → Option (Except Fail (List Message)))
    (body : RingCode (List Nat) α) : RingCode σ α := fun v =>
  .op .lockSeen fun
    | none => .ret (.error (.error (.ring "receive state poisoned")), v)
    | some seen => (body seen).bind fun r =>
      .op (.unlockSeen r.2 (poisons r.1) (polled r.1)) fun _ => .ret (r.1, v)

/-- Hold `self.acked` around `body`. -/
def withAcked (body : RingCode (List Nat) α) : RingCode σ α := fun v =>
  .op .lockAcked fun
    | none => .ret (.error (.error (.ring "acknowledgement state poisoned")), v)
    | some acked => (body acked).bind fun r =>
      .op (.unlockAcked r.2 (poisons r.1)) fun _ => .ret (r.1, v)

def addLost (count : Nat) : RingCode σ Unit := Code.perform (RingCall.addLost count)
def addCorrupt : RingCode σ Unit := Code.perform RingCall.addCorrupt
def maxLag (lag : Nat) : RingCode σ Unit := Code.perform (RingCall.maxLag lag)
def addFull : RingCode σ Unit := Code.perform RingCall.addFull

def fail (e : Error) : RingCode σ α := Code.throw (.error e)

/-- `ok_or(..)?`. -/
def orFail (x : Option α) (e : Error) : RingCode σ α := Code.lift (okOr x (.error e))

end Guards

/-! ### Window accesses -/

namespace Window

variable {σ : Type}

/-- `Window::read_local` on the slot window. -/
def readLocal (window : Window) (disp len : Nat) : RingCode σ Bytes := do
  Code.lift (window.validate window.rank disp len)
  if len = 0 then
    pure []
  else
    Code.perform (RingCall.readLocal disp len)

/-- `Window::read_local_volatile` on the slot window. -/
def readLocalVolatile (window : Window) (disp len : Nat) : RingCode σ Bytes := do
  Code.lift (window.validate window.rank disp len)
  Code.perform (RingCall.readLocalVolatile disp len)

/-- `Window::read_local_volatile` of one element of the counter window. -/
def readCounter (window : Window) (disp : Nat) : RingCode σ Nat := do
  Code.lift (window.validate window.rank disp 1)
  Code.perform (RingCall.readCounter disp)

/-- The error of an MPI call. -/
def mpiResult {α : Type} : Except Int α → Except Fail α
  | .ok a => .ok a
  | .error code => .error (.error (.mpi code))

/-- `Window::put`. -/
def put (window : Window) (dest : Int) (disp : Nat) (data : Bytes) : RingCode σ Unit := do
  Code.lift (window.validate dest disp data.length)
  let _ ← orFail (tryFrom i32Max data.length) .countOverflow
  let answer : Except Int Unit ← Code.perform (RingCall.put dest disp data)
  Code.lift (mpiResult answer)

/-- `Window::fetch_add` on the counter window. -/
def fetchAdd (window : Window) (dest : Int) (disp value : Nat) : RingCode σ Nat := do
  Code.lift (window.validate dest disp 1)
  let answer : Except Int Nat ← Code.perform (RingCall.fetchAdd dest disp value)
  Code.lift (mpiResult answer)

end Window

namespace Ring

variable {σ : Type}

/-! ### Slot images -/

/-- `!sequence`. -/
def bitNot (sequence : Nat) : Nat := u64Max - sequence

/-- `Ring::word`. -/
def word (bytes : Bytes) : Except Fail Nat :=
  if bytes.length = WORD then .ok (ofLE bytes) else .error .panic

/-- `Ring::checksum`. -/
def checksum [Libraries] (sequence len : Nat) (data : Bytes) : Nat :=
  (Libraries.hash (toLE WORD sequence ++ toLE WORD len ++ data)).toNat

/-- `Vec::resize` with zero bytes. -/
def resize (image : Bytes) (slot : Nat) : Bytes :=
  image.take slot ++ List.replicate (slot - image.length) 0

/-- The image `send` writes over the scratch buffer. -/
def buildImage [Libraries] (lane : Lane) (image : Bytes) (sequence : Nat) (data : Bytes) :
    Except Fail Bytes := do
  let image := if image.length ≠ lane.slot then resize image lane.slot else image
  let image ← copyFromSlice image 0 WORD (toLE WORD sequence)
  let image ← copyFromSlice image WORD (2 * WORD) (toLE WORD data.length)
  let stop ← plainAdd usizeMax HEADER data.length
  let image ← copyFromSlice image HEADER stop data
  let image ← copyFromSlice image (2 * WORD) HEADER
    (toLE CHECKSUM (checksum sequence data.length data))
  let guardAt ← plainSub lane.slot WORD
  copyFromSlice image guardAt image.length (toLE WORD (bitNot sequence))

/-- `offset + position * slot`. -/
def slotOffset (lane : Lane) (position : Nat) : Except Fail Nat := do
  let skip ← plainMul usizeMax position lane.slot
  plainAdd usizeMax lane.offset skip

/-- `((sequence - 1) % depth) as usize`. -/
def slotPosition (lane : Lane) (sequence : Nat) : Except Fail Nat := do
  let before ← plainSub sequence 1
  plainRem before lane.depth

/-- `Ring::probe`. -/
def probe (R : Ring) (lane : Lane) (position : Nat) : RingCode σ (Option Nat) := do
  let offset ← Code.lift (slotOffset lane position)
  let head ← R.slots.readLocalVolatile offset WORD
  let stop ← Code.lift (plainAdd usizeMax offset lane.slot)
  let guardAt ← Code.lift (plainSub stop WORD)
  let tail ← R.slots.readLocalVolatile guardAt WORD
  let sequence ← Code.lift (word head)
  if sequence = 0 then
    pure none
  else
    let guard ← Code.lift (word tail)
    if guard ≠ bitNot sequence then
      addCorrupt
      pure none
    else
      pure (some sequence)

/-- `Ring::frame`. -/
def frame [Libraries] (R : Ring) (lane : Lane) (position : Nat) : RingCode σ (Option Frame) := do
  let offset ← Code.lift (slotOffset lane position)
  let image ← R.slots.readLocal offset lane.slot
  let sequence ← Code.lift (slice image 0 WORD >>= word)
  let guardAt ← Code.lift (plainSub lane.slot WORD)
  let guard ← Code.lift (slice image guardAt image.length >>= word)
  if sequence = 0 then
    pure none
  else if guard ≠ bitNot sequence then
    addCorrupt
    pure none
  else
    let len ← Code.lift (slice image WORD (2 * WORD) >>= word)
    match tryFrom usizeMax len with
    | none =>
      addCorrupt
      pure none
    | some len =>
      if lane.capacity < len then
        addCorrupt
        pure none
      else
        let checked ← Code.lift (slice image (2 * WORD) HEADER)
        let stop ← Code.lift (plainAdd usizeMax HEADER len)
        let data ← Code.lift (slice image HEADER stop)
        if ofLE checked ≠ checksum sequence len data then
          addCorrupt
          pure none
        else
          pure (some ⟨sequence, data⟩)

/-! ### Send -/

/-- `Ring::peer`. -/
def peer (R : Ring) (rank : Int) : Except Fail Nat :=
  if rank < 0 ∨ R.ranks ≤ rank.toNat then .error (.error (.rank rank)) else .ok rank.toNat

def perRank (R : Ring) (i : Nat) : Except Fail Unit :=
  if i < R.ranks then .ok () else .error .panic

/-- `Ring::acknowledged`: re-read the lane's cumulative acknowledgement. -/
def acknowledged (R : Ring) (lane : Lane) (sent acked : Nat) : RingCode σ Nat := do
  match R.acks with
  | none => Code.throw .panic
  | some acks =>
    let value ← acks.readCounter lane.ack
    if value < acked then
      fail (.ring "acknowledgement counter regressed")
    else if sent < value then
      fail (.ring "acknowledgement exceeds sent sequence")
    else
      pure value

/-- The overwrite gate of a safe ring: refresh the cached counter before refusing. -/
def gate (R : Ring) (lane : Lane) (sequence : Nat) : RingCode Outgoing Unit := do
  if R.isSafe then
    let outgoing ← Code.get
    let ahead ← Code.lift (plainSub sequence outgoing.acked)
    if lane.depth < ahead then
      let acked ← R.acknowledged lane outgoing.sent outgoing.acked
      Code.set { outgoing with acked := acked }
      let ahead ← Code.lift (plainSub sequence acked)
      if lane.depth < ahead then
        addFull
        fail .full
      else
        pure ()
    else
      pure ()
  else
    pure ()

/-- The part of `Ring::send` that holds the lane's sender state. -/
def sendLocked [Libraries] (R : Ring) (destination : Int) (lane : Lane) (data : Bytes) :
    RingCode Outgoing Nat := do
  let outgoing ← Code.get
  let sequence ← orFail (checkedAdd u64Max outgoing.sent 1) (.ring "sequence number exhausted")
  R.gate lane sequence
  let outgoing ← Code.get
  let image ← Code.lift (buildImage lane outgoing.image sequence data)
  Code.set { outgoing with image := image }
  let position ← Code.lift (slotPosition lane sequence)
  let offset ← Code.lift (slotOffset lane position)
  R.slots.put destination offset image
  Code.set { outgoing with sent := sequence, image := image }
  pure sequence

/-- `Ring::send`. -/
def send [Libraries] (R : Ring) (destination : Int) (data : Bytes) : RingCode Unit Nat := do
  let i ← Code.lift (R.peer destination)
  let entry ← Code.lift (index R.toLanes i)
  let lane ← orFail entry (.ring "directed lane is not configured")
  if lane.capacity < data.length then
    fail (.payload data.length lane.capacity)
  else
    Code.lift (R.perRank i)
    withSent i (R.sendLocked destination lane data)

/-! ### Poll -/

/-- The scan of `Ring::recover` over the positions left. -/
def scan [Libraries] (R : Ring) (lane : Lane) (seen : Nat) :
    List Nat → List Frame → RingCode σ (List Frame)
  | [], frames => pure frames
  | position :: rest, frames => do
    let probed ← R.probe lane position
    if probed.any (fun sequence => seen < sequence) then
      let found ← R.frame lane position
      match found with
      | none => scan R lane seen rest frames
      | some frame =>
        if seen < frame.sequence then
          scan R lane seen rest (frames ++ [frame])
        else
          scan R lane seen rest frames
    else
      scan R lane seen rest frames

/-- The elements whose key differs from the key kept last. -/
def dedupFrom {α : Type} (key : α → Nat) (last : Nat) : List α → List α
  | [] => []
  | a :: rest => if key a = last then dedupFrom key last rest else a :: dedupFrom key (key a) rest

/-- `dedup_by_key`. -/
def dedupByKey {α : Type} (key : α → Nat) : List α → List α
  | [] => []
  | a :: rest => a :: dedupFrom key (key a) rest

/-- `Ring::recover`. -/
def recover [Libraries] (R : Ring) (lane : Lane) (seen : Nat) : RingCode σ (List Frame) := do
  let frames ← R.scan lane seen (List.range lane.depth) []
  pure (dedupByKey Frame.sequence (Libraries.sortUnstable frames))

/-- The loop over the recovered frames. -/
def deliver (origin : Int) : List Frame → Nat → List Message → RingCode (List Nat) (List Message)
  | [], _, messages => pure messages
  | frame :: rest, next, messages =>
    if frame.sequence < next then
      deliver origin rest next messages
    else do
      let gap ← Code.lift (plainSub frame.sequence next)
      addLost gap
      let seen ← Code.get
      Code.set (seen.set origin.toNat frame.sequence)
      deliver origin rest (saturatingAdd u64Max frame.sequence 1)
        (messages ++ [⟨origin, frame.sequence, frame.data⟩])

/-- The `while read < depth` loop of one lane, `fuel` turns before `read` reaches `depth`. -/
def drain [Libraries] (R : Ring) (origin : Int) (lane : Lane) :
    Nat → List Message → RingCode (List Nat) (List Message)
  | 0, messages => pure messages
  | fuel + 1, messages => do
    let seen ← Code.get
    let cursor ← Code.lift (index seen origin.toNat)
    match checkedAdd u64Max cursor 1 with
    | none => pure messages
    | some expected =>
      let position ← Code.lift (slotPosition lane expected)
      let probed ← R.probe lane position
      match probed with
      | none => pure messages
      | some found =>
        if found < expected then
          pure messages
        else if expected < found then
          if R.isSafe then
            fail (.lapped origin expected found)
          else
            let frames ← R.recover lane cursor
            deliver origin frames expected messages
        else
          let copied ← R.frame lane position
          match copied with
          | none => pure messages
          | some frame =>
            if frame.sequence ≠ expected then
              pure messages
            else
              Code.set (seen.set origin.toNat expected)
              drain R origin lane fuel (messages ++ [⟨origin, expected, frame.data⟩])

/-- The lane loop of `Ring::poll`. -/
def pollLanes [Libraries] (R : Ring) :
    List Int → List Message → RingCode (List Nat) (List Message)
  | [], messages => pure messages
  | origin :: rest, messages => do
    let entry ← Code.lift (index R.fromLanes origin.toNat)
    let lane ← orFail entry (.ring "directed lane is not configured")
    let before ← Code.get
    let behind ← Code.lift (index before origin.toNat)
    let messages ← R.drain origin lane lane.depth messages
    let after ← Code.get
    let cursor ← Code.lift (index after origin.toNat)
    let lag ← Code.lift (plainSub cursor behind)
    maxLag lag
    pollLanes R rest messages

/-- `Ring::poll`. -/
def poll [Libraries] (R : Ring) : RingCode Unit (List Message) :=
  withSeen some (R.pollLanes R.incoming [])

/-! ### Acknowledge -/

/-- The check of `Ring::ack` against the receive cursor. -/
def received (origin : Int) (sequence : Nat) : RingCode (List Nat) Unit := do
  let seen ← Code.get
  let cursor ← Code.lift (index seen origin.toNat)
  if cursor < sequence then
    fail (.ack origin sequence cursor)
  else
    pure ()

/-- The part of `Ring::ack` that holds the acknowledgement mirror. -/
def ackLocked (acks : Window) (origin : Int) (lane : Lane) (sequence : Nat) :
    RingCode (List Nat) Unit := do
  let acked ← Code.get
  let mirror ← Code.lift (index acked origin.toNat)
  if sequence ≤ mirror then
    pure ()
  else
    withSeen (fun _ => none) (received origin sequence)
    let delta ← Code.lift (plainSub sequence mirror)
    let previous ← acks.fetchAdd origin lane.ack delta
    if previous ≠ mirror then
      fail (.ring "acknowledgement counter diverged")
    else
      Code.set (acked.set origin.toNat sequence)

/-- `Ring::ack`. -/
def ack (R : Ring) (origin : Int) (sequence : Nat) : RingCode Unit Unit := do
  let i ← Code.lift (R.peer origin)
  match R.acks with
  | none => pure ()
  | some acks =>
    let entry ← Code.lift (index R.fromLanes i)
    let lane ← orFail entry (.ring "directed lane is not configured")
    withAcked (ackLocked acks origin lane sequence)

end Ring

end MpiRma
