/-
  MpiRma/Segment.lean
  ===================
  **Published segments (`segment.rs`).**  A segment is a POSIX shared-memory object: its
  creator sizes it, maps it, copies the payload and stores the revision last; readers map
  it and believe it once they have loaded the revision.  The functions are programs over the
  calls into the operating system and the single loads and stores of mapped memory; the node
  is what the operating system keeps of names, objects, descriptors and mappings.
-/
import MpiRma.World

namespace MpiRma

/-! ### Handles -/

structure NonZeroU64 where
  get : Nat
  pos : 0 < get
  le : get ≤ u64Max
deriving DecidableEq

/-- `io::Error`: an errno, or a kind with its message. -/
inductive IoError where
  | os (errno : Int)
  | invalidInput (message : String)
  | invalidData (message : String)
deriving DecidableEq, Repr

abbrev Name := Bytes

/-- One shared-memory segment: its mapping (no base once it is detached), its name, whether
    it may unlink the name, and the call and errno of a cleanup that was refused. -/
structure Segment where
  base : Option Nat
  size : Nat
  name : Name
  owner : Bool
  failed : Option (String × Int)
deriving DecidableEq, Repr

/-- The calls of a handle's life: one `create` or `open`, and then the others. -/
inductive SegmentRequest where
  | create (name : Name) (revision : NonZeroU64) (payload : Bytes)
  | open (name : Name) (revision : NonZeroU64) (length : Nat)
  | payload
  | detach
  | retire
  | drop
deriving DecidableEq

inductive SegmentOutcome where
  | created (result : Except IoError Segment)
  | opened (result : Except IoError Segment)
  | payload (bytes : Bytes)
  | detached (result : Except IoError Unit)
  | retired (result : Except IoError Unit)
  | dropped
  | aborted
  | panicked
deriving DecidableEq

/-- How a function ends when it does not return a value. -/
inductive Halt where
  | error (e : IoError)
  | abort
  | panic
deriving DecidableEq, Repr

/-! ### Calls into the operating system -/

/-- The steps of a segment function: `begin` starts a handle, `self` and `keep` read and
    write its fields, and the rest are system calls and accesses to mapped memory.  A `close` on
    the way to `abort` is marked as cleanup. -/
inductive OsCall where
  | begin
  | self
  | keep (segment : Segment)
  | shmOpenExclusive (name : Name)
  | shmOpen (name : Name)
  | ftruncate (fd size : Nat)
  | posixFallocate (fd size : Nat)
  | fstat (fd : Nat)
  | mmap (fd size : Nat) (writable : Bool)
  | close (fd : Nat) (cleanup : Bool)
  | munmap (base size : Nat)
  | shmUnlink (name : Name)
  | store (base offset : Nat) (byte : UInt8)
  | storeWord (base offset value : Nat)
  | load (base offset : Nat)
  | loadWord (base offset : Nat)
deriving DecidableEq

def OsCall.Answer : OsCall → Type
  | .begin => Unit
  | .self => Segment
  | .keep _ => Unit
  | .shmOpenExclusive _ => Except Int Nat
  | .shmOpen _ => Except Int Nat
  | .ftruncate _ _ => Except Int Unit
  | .posixFallocate _ _ => Except Int Unit
  | .fstat _ => Except Int Nat
  | .mmap _ _ _ => Except Int Nat
  | .close _ _ => Except Int Unit
  | .munmap _ _ => Except Int Unit
  | .shmUnlink _ => Except Int Unit
  | .store _ _ _ => Unit
  | .storeWord _ _ _ => Unit
  | .load _ _ => UInt8
  | .loadWord _ _ => Nat

def OsCall.isOs : OsCall → Bool
  | .begin => false
  | .self => false
  | .keep _ => false
  | .store _ _ _ => false
  | .storeWord _ _ _ => false
  | .load _ _ => false
  | .loadWord _ _ => false
  | _ => true

abbrev SegmentCode (σ α : Type) := Code OsCall OsCall.Answer σ Halt α

namespace Segment

/-! ### The functions -/

/-- Length of the fixed header before the payload. -/
def HEADER : Nat := 64

/-- `u64::from_le_bytes(*b"trameseg")`. -/
def MAGIC : Nat := ofLE [116, 114, 97, 109, 101, 115, 101, 103]

/-- Greatest value of `off_t`. -/
def offMax : Nat := 9223372036854775807

section Functions

variable {σ : Type} {α : Type}

/-- `Err(e)`. -/
def fail (e : IoError) : SegmentCode σ α := Code.throw (.error e)

/-- `ok_or(..)?` and `map_err(..)?`. -/
def orFail (x : Option α) (e : IoError) : SegmentCode σ α := Code.lift (okOr x (.error e))

/-- The answer of a call, or `Err` of its errno. -/
def orOs : Except Int α → SegmentCode σ α
  | .ok a => pure a
  | .error errno => fail (.os errno)

def closeOrAbort (fd : Nat) : SegmentCode σ Unit := do
  let closed : Except Int Unit ← Code.perform (OsCall.close fd true)
  match closed with
  | .ok () => pure ()
  | .error _ => Code.throw .abort

def munmapOrAbort (base size : Nat) : SegmentCode σ Unit := do
  let unmapped : Except Int Unit ← Code.perform (OsCall.munmap base size)
  match unmapped with
  | .ok () => pure ()
  | .error _ => Code.throw .abort

def shmUnlinkOrAbort (name : Name) : SegmentCode σ Unit := do
  let unlinked : Except Int Unit ← Code.perform (OsCall.shmUnlink name)
  match unlinked with
  | .ok () => pure ()
  | .error _ => Code.throw .abort

def storeBytes (base : Nat) : Nat → Bytes → SegmentCode σ Unit
  | _, [] => pure ()
  | offset, byte :: rest => do
    Code.perform (OsCall.store base offset byte)
    storeBytes base (offset + 1) rest

def loadBytes (base : Nat) : Nat → Nat → SegmentCode σ Bytes
  | _, 0 => pure []
  | offset, len + 1 => do
    let byte : UInt8 ← Code.perform (OsCall.load base offset)
    let rest ← loadBytes base (offset + 1) len
    pure (byte :: rest)

/-- An exit of `create` that still has the descriptor. -/
def createExit (name : Name) (fd : Nat) (e : IoError) : SegmentCode σ α := do
  closeOrAbort fd
  shmUnlinkOrAbort name
  fail e

/-- The end of `create`: write the header and the payload, and the revision last. -/
def publish (revision : NonZeroU64) (payload : Bytes) (base length : Nat) : SegmentCode σ Unit := do
  storeBytes base 0 (toLE 8 MAGIC)
  storeBytes base 8 (toLE 8 length)
  storeBytes base HEADER payload
  let _ : Unit ← Code.perform (OsCall.storeWord base 16 revision.get)
  pure ()

/-- The part of `create` that has the whole object reserved. -/
def createMapped (name : Name) (revision : NonZeroU64) (payload : Bytes) (fd size length : Nat) :
    SegmentCode Unit Segment := do
  let mapped : Except Int Nat ← Code.perform (OsCall.mmap fd size true)
  match mapped with
  | .error errno => createExit name fd (.os errno)
  | .ok base =>
    let closed : Except Int Unit ← Code.perform (OsCall.close fd false)
    match closed with
    | .error errno =>
      munmapOrAbort base size
      shmUnlinkOrAbort name
      fail (.os errno)
    | .ok () =>
      publish revision payload base length
      pure ⟨some base, size, name, true, none⟩

/-- `Segment::create`. -/
def create (name : Name) (revision : NonZeroU64) (payload : Bytes) : SegmentCode Unit Segment := do
  let size ← orFail (checkedAdd usizeMax HEADER payload.length)
    (.invalidInput "segment size overflows usize")
  let length ← orFail (tryFrom u64Max payload.length)
    (.invalidInput "payload length does not fit u64")
  let sizeOff ← orFail (tryFrom offMax size) (.invalidInput "segment size does not fit off_t")
  let opened : Except Int Nat ← Code.perform (OsCall.shmOpenExclusive name)
  let fd ← orOs opened
  let truncated : Except Int Unit ← Code.perform (OsCall.ftruncate fd sizeOff)
  match truncated with
  | .error errno => createExit name fd (.os errno)
  | .ok () =>
    let reserved : Except Int Unit ← Code.perform (OsCall.posixFallocate fd sizeOff)
    match reserved with
    | .error errno => createExit name fd (.os errno)
    | .ok () => createMapped name revision payload fd size length

/-- An exit of `open` that still has the descriptor. -/
def openExit (fd : Nat) (e : IoError) : SegmentCode σ α := do
  closeOrAbort fd
  fail e

/-- An exit of `open` that has mapped the object. -/
def openUnmap (base size : Nat) (e : IoError) : SegmentCode σ α := do
  munmapOrAbort base size
  fail e

/-- The end of `open`: load the revision first, then the rest of the header. -/
def confirm (name : Name) (revision : NonZeroU64) (base size length : Nat) :
    SegmentCode Unit Segment := do
  let published : Nat ← Code.perform (OsCall.loadWord base 16)
  if published ≠ revision.get then
    openUnmap base size (.invalidData "segment revision disagrees with the handle")
  else
    let magic ← loadBytes base 0 8
    let stored ← loadBytes base 8 8
    if ofLE magic ≠ MAGIC ∨ ofLE stored ≠ length then
      openUnmap base size (.invalidData "segment format disagrees with the handle")
    else
      pure ⟨some base, size, name, false, none⟩

/-- `Segment::open`. -/
def «open» (name : Name) (revision : NonZeroU64) (length : Nat) : SegmentCode Unit Segment := do
  let size ← orFail (checkedAdd usizeMax HEADER length)
    (.invalidInput "segment size overflows usize")
  let sizeOff ← orFail (tryFrom offMax size) (.invalidInput "segment size does not fit off_t")
  let opened : Except Int Nat ← Code.perform (OsCall.shmOpen name)
  let fd ← orOs opened
  let stat : Except Int Nat ← Code.perform (OsCall.fstat fd)
  match stat with
  | .error errno => openExit fd (.os errno)
  | .ok found =>
    if found ≠ sizeOff then
      openExit fd (.invalidData "segment size disagrees with the handle")
    else
      let mapped : Except Int Nat ← Code.perform (OsCall.mmap fd size false)
      match mapped with
      | .error errno => openExit fd (.os errno)
      | .ok base =>
        let closed : Except Int Unit ← Code.perform (OsCall.close fd false)
        match closed with
        | .error errno => openUnmap base size (.os errno)
        | .ok () => confirm name revision base size length

/-- `Segment::payload`, with the bytes of the slice read one after the other. -/
def payload : SegmentCode Segment Bytes := do
  let self ← Code.get
  match self.base with
  | none => Code.throw .panic
  | some base =>
    if self.size < HEADER then
      Code.throw .panic
    else
      loadBytes base HEADER (self.size - HEADER)

/-- `Segment::detach`. -/
def detach : SegmentCode Segment Unit := do
  let self ← Code.get
  match self.failed with
  | some (_, errno) => fail (.os errno)
  | none =>
    match self.base with
    | none => pure ()
    | some base =>
      let unmapped : Except Int Unit ← Code.perform (OsCall.munmap base self.size)
      match unmapped with
      | .error errno =>
        Code.set { self with failed := some ("munmap", errno) }
        fail (.os errno)
      | .ok () => Code.set { self with base := none }

/-- `Segment::retire`. -/
def retire : SegmentCode Segment Unit := do
  let self ← Code.get
  match self.failed with
  | some (_, errno) => fail (.os errno)
  | none =>
    if self.owner = false then
      Code.throw .panic
    else
      detach
      let self ← Code.get
      let unlinked : Except Int Unit ← Code.perform (OsCall.shmUnlink self.name)
      match unlinked with
      | .error errno =>
        Code.set { self with failed := some ("shm_unlink", errno) }
        fail (.os errno)
      | .ok () => Code.set { self with owner := false }

/-- The unmapping of `Segment::drop`. -/
def dropMapping : SegmentCode Segment Unit := do
  let self ← Code.get
  match self.base with
  | none => pure ()
  | some base =>
    munmapOrAbort base self.size
    Code.set { self with base := none }

/-- The unlinking of `Segment::drop`. -/
def dropName : SegmentCode Segment Unit := do
  let self ← Code.get
  if self.owner then
    shmUnlinkOrAbort self.name
    Code.set { self with owner := false }
  else
    pure ()

/-- `Segment::drop`. -/
def drop : SegmentCode Segment Unit := do
  let self ← Code.get
  match self.failed with
  | some _ => Code.throw .abort
  | none =>
    dropMapping
    dropName

end Functions

end Segment

/-! ### The node -/

structure Object where
  made : SegmentRequest
  size : Nat
  bytes : Memory UInt8

structure Descriptor where
  holder : Nat
  object : Nat
deriving DecidableEq

structure Mapping where
  holder : Nat
  object : Nat
  size : Nat
  writable : Bool
deriving DecidableEq

/-- Where a handle is in its life. -/
inductive Life where
  | unborn
  | opening
  | held (segment : Segment)
  | failed
  | dropped
  | aborted
deriving DecidableEq

/-- The operating system and the handles of all processes.  Handles are numbered, and the
    object a handle creates has its number.  The observer writes down the call that started a
    handle, the first object it opened, whether a cleanup call of it was refused, whether it has
    unmapped and unlinked, the commands that went astray, and what the calls returned. -/
structure Node where
  objects : Nat → Option Object
  names : Name → Option Nat
  descriptors : Nat → Option Descriptor
  mappings : Nat → Option Mapping
  life : Nat → Life
  origin : Nat → Option SegmentRequest
  target : Nat → Option Nat
  refused : Nat → Bool
  detached : Nat → Bool
  unlinked : Nat → Bool
  strays : List (Nat × OsCall)
  log : List (Nat × SegmentRequest × SegmentOutcome)

/-- How a system call ends: with the descriptor or address the system picks, where there is one
    to pick, or with an errno. -/
inductive OsEnding where
  | ok (number : Nat)
  | error (errno : Int)
deriving DecidableEq

namespace Object

/-- `ftruncate`. -/
def truncate (obj : Object) (size : Nat) : Object where
  made := obj.made
  size := size
  bytes := fun i => if i < size then obj.bytes i else 0

/-- `posix_fallocate` from offset 0. -/
def allocate (obj : Object) (size : Nat) : Object := { obj with size := max obj.size size }

def write (obj : Object) (offset : Nat) (data : Bytes) : Object :=
  { obj with bytes := obj.bytes.write offset data }

/-- The published word. -/
def revision (obj : Object) : Nat := ofLE (obj.bytes.read 16 8)

end Object

namespace Node

def fresh : Node where
  objects := fun _ => none
  names := fun _ => none
  descriptors := fun _ => none
  mappings := fun _ => none
  life := fun _ => .unborn
  origin := fun _ => none
  target := fun _ => none
  refused := fun _ => false
  detached := fun _ => false
  unlinked := fun _ => false
  strays := []
  log := []

def alter (w : Node) (o : Nat) (f : Object → Object) : Node :=
  { w with objects := Function.update w.objects o ((w.objects o).map f) }

def writeAt (w : Node) (base offset : Nat) (data : Bytes) : Node :=
  match w.mappings base with
  | some m => w.alter m.object fun obj => obj.write offset data
  | none => w

def readAt (w : Node) (base offset len : Nat) : Bytes :=
  match (w.mappings base).bind fun m => w.objects m.object with
  | some obj => obj.bytes.read offset len
  | none => List.replicate len 0

def describe (w : Node) (t fd o : Nat) : Node :=
  { w with
    descriptors := Function.update w.descriptors fd (some ⟨t, o⟩)
    target := Function.update w.target t (some ((w.target t).getD o)) }

def refuse (w : Node) (t : Nat) : Node := { w with refused := Function.update w.refused t true }

/-- What a command of handle `t` in `call` does; `none` when it cannot happen. -/
def effect (t : Nat) (call : SegmentRequest) (c : OsCall) (ending : OsEnding) (w : Node) :
    Option (c.Answer × Node) :=
  match c with
  | .begin =>
    if w.life t = .unborn then
      some ((), { w with
        life := Function.update w.life t .opening
        origin := Function.update w.origin t (some call) })
    else none
  | .self =>
    match w.life t with
    | .held segment => some (segment, w)
    | _ => none
  | .keep segment => some ((), { w with life := Function.update w.life t (.held segment) })
  | .shmOpenExclusive name =>
    match ending with
    | .error errno => some (.error errno, w)
    | .ok fd =>
      if w.names name = none ∧ w.descriptors fd = none then
        some (.ok fd, { w.describe t fd t with
          objects := Function.update w.objects t (some ⟨call, 0, fun _ => 0⟩)
          names := Function.update w.names name (some t) })
      else none
  | .shmOpen name =>
    match ending with
    | .error errno => some (.error errno, w)
    | .ok fd =>
      match w.names name with
      | none => none
      | some o => if w.descriptors fd = none then some (.ok fd, w.describe t fd o) else none
  | .ftruncate fd size =>
    match ending, w.descriptors fd with
    | .error errno, _ => some (.error errno, w)
    | .ok _, some d => some (.ok (), w.alter d.object fun obj => obj.truncate size)
    | .ok _, none => none
  | .posixFallocate fd size =>
    match ending, w.descriptors fd with
    | .error errno, _ => some (.error errno, w)
    | .ok _, some d => some (.ok (), w.alter d.object fun obj => obj.allocate size)
    | .ok _, none => none
  | .fstat fd =>
    match ending, (w.descriptors fd).bind fun d => w.objects d.object with
    | .error errno, _ => some (.error errno, w)
    | .ok _, some obj => some (.ok obj.size, w)
    | .ok _, none => none
  | .mmap fd size writable =>
    match ending, w.descriptors fd with
    | .error errno, _ => some (.error errno, w)
    | .ok base, some d =>
      if w.mappings base = none then
        some (.ok base, { w with
          mappings := Function.update w.mappings base (some ⟨t, d.object, size, writable⟩) })
      else none
    | .ok _, none => none
  | .close fd cleanup =>
    let w' := { w with descriptors := Function.update w.descriptors fd none }
    match ending with
    | .error errno => some (.error errno, if cleanup then w'.refuse t else w')
    | .ok _ => some (.ok (), w')
  | .munmap base _ =>
    match ending with
    | .error errno => some (.error errno, w.refuse t)
    | .ok _ => some (.ok (), { w with
        mappings := Function.update w.mappings base none
        detached := Function.update w.detached t true })
  | .shmUnlink name =>
    match ending with
    | .error errno => some (.error errno, w.refuse t)
    | .ok _ =>
      if w.names name = none then none
      else some (.ok (), { w with
        names := Function.update w.names name none
        unlinked := Function.update w.unlinked t true })
  | .store base offset byte => some ((), w.writeAt base offset [byte])
  | .storeWord base offset value => some ((), w.writeAt base offset (toLE 8 value))
  | .load base offset => some ((w.readAt base offset 1).headD 0, w)
  | .loadWord base offset => some (ofLE (w.readAt base offset 8), w)

/-- Handle `t` has a mapping at `base` in which `len` bytes from `offset` on are backed by its
    object. -/
def backs (w : Node) (t base offset len : Nat) (writing : Bool) : Bool :=
  (w.mappings base).any fun m =>
    m.holder == t && (m.writable || !writing) && decide (offset + len ≤ m.size) &&
      (w.objects m.object).any fun obj => decide (offset + len ≤ obj.size)

def describes (w : Node) (t fd : Nat) : Bool := (w.descriptors fd).any fun d => d.holder == t

/-- The command is one handle `t` may issue: system calls until a cleanup call of it is
    refused, on its own descriptors and mappings and on the name of its own object, one `munmap`
    and one `shm_unlink` that succeed, and accesses within its mappings. -/
def proper (w : Node) (t : Nat) (c : OsCall) : Bool :=
  !(c.isOs && w.refused t) &&
  match c with
  | .begin => true
  | .self => true
  | .keep _ => true
  | .shmOpenExclusive _ => (w.objects t).isNone
  | .shmOpen _ => true
  | .ftruncate fd _ => w.descriptors fd == some ⟨t, t⟩
  | .posixFallocate fd _ => w.descriptors fd == some ⟨t, t⟩
  | .fstat fd => w.describes t fd
  | .mmap fd _ writable =>
    (w.descriptors fd).any fun d => d.holder == t && (!writable || d.object == t)
  | .close fd _ => w.describes t fd
  | .munmap base size =>
    !w.detached t && (w.mappings base).any fun m => m.holder == t && m.size == size
  | .shmUnlink name => !w.unlinked t && w.names name == some t
  | .store base offset _ => w.backs t base offset 1 true
  | .storeWord base offset _ => w.backs t base offset 8 true
  | .load base offset => w.backs t base offset 1 false
  | .loadWord base offset => w.backs t base offset 8 false

/-- A command takes effect, and is written down when it is not proper. -/
def exec (t : Nat) (call : SegmentRequest) (c : OsCall) (ending : OsEnding) (w : Node) :
    Option (c.Answer × Node) :=
  (effect t call c ending w).map fun r =>
    (r.1, if w.proper t c then r.2 else { r.2 with strays := (t, c) :: r.2.strays })

def finish (t : Nat) (call : SegmentRequest) (outcome : SegmentOutcome) (w : Node) : Node :=
  { w with
    life := match outcome with
      | .created (.ok segment) => Function.update w.life t (.held segment)
      | .opened (.ok segment) => Function.update w.life t (.held segment)
      | .created (.error _) => Function.update w.life t .failed
      | .opened (.error _) => Function.update w.life t .failed
      | .dropped => Function.update w.life t .dropped
      | .aborted => Function.update w.life t .aborted
      | _ => w.life
    log := (t, call, outcome) :: w.log }

end Node

/-! ### The machine -/

def SegmentOutcome.of {α : Type} (done : Except IoError α → SegmentOutcome) :
    Except Halt α → SegmentOutcome
  | .ok a => done (.ok a)
  | .error (.error e) => done (.error e)
  | .error .abort => .aborted
  | .error .panic => .panicked

def SegmentRequest.code : SegmentRequest → Program OsCall OsCall.Answer SegmentOutcome
  | .create name revision bytes =>
    .op .begin fun _ => (Segment.create name revision bytes ()).bind fun r =>
      .ret (.of .created r.1)
  | .open name revision length =>
    .op .begin fun _ => (Segment.open name revision length ()).bind fun r => .ret (.of .opened r.1)
  | .payload =>
    .op .self fun segment => (Segment.payload segment).bind fun r =>
      .ret (.of (fun bytes => .payload (bytes.toOption.getD [])) r.1)
  | .detach =>
    .op .self fun segment => (Segment.detach segment).bind fun r =>
      .op (.keep r.2) fun _ => .ret (.of .detached r.1)
  | .retire =>
    .op .self fun segment => (Segment.retire segment).bind fun r =>
      .op (.keep r.2) fun _ => .ret (.of .retired r.1)
  | .drop =>
    .op .self fun segment => (Segment.drop segment).bind fun r =>
      .ret (.of (fun _ => .dropped) r.1)

def segmentMachine : Machine OsCall OsCall.Answer Node SegmentRequest SegmentOutcome where
  code := SegmentRequest.code
  exec t call c w a w' := ∃ ending, Node.exec t call c ending w = some (a, w')
  finish := Node.finish

end MpiRma
