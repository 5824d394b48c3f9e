/-
  MpiRma/World.lean
  =================
  **All ranks of a ring at work.**  A `World` holds, for every rank, the guarded and
  atomic fields of its `Ring` and the local memory of its two windows, who holds which
  mutex, and the log an observer of the run keeps.  `World.exec` is the effect of one
  command: a put lands as one whole image at the moment it is executed, which may be any
  moment between the step before it and the step after it, so the flush returns later
  than the image lands.  `ringMachine` runs any number of threads at every rank.
-/
import MpiRma.Interleaving
import MpiRma.Ring
import Mathlib.Control.Monad.Basic

namespace MpiRma

/-! ### Calls and the observer's log -/

/-- A call on a ring. -/
inductive Request where
  | send (destination : Int) (data : Bytes)
  | poll
  | ack (origin : Int) (sequence : Nat)
deriving DecidableEq, Repr

def Request.payload : Request → Bytes
  | .send _ data => data
  | .poll => []
  | .ack _ _ => []

structure Call (n : Nat) where
  rank : Fin n
  request : Request

/-- What a call returned. -/
inductive Outcome where
  | sent (result : Except Fail Nat)
  | polled (result : Except Fail (List Message))
  | acked (result : Except Fail Unit)
deriving DecidableEq

/-- What the observer of a run writes down: an image landing (with the sequence in its
    header, the payload of the send, whether the put succeeds, and where it lands), a poll
    taking the `seen` lock, a read of a rank's own slot window, an addition to a rank's `lost`,
    a poll dropping the lock with its result, and a call returning. -/
inductive Event where
  | put (source destination sequence : Nat) (data : Bytes) (ok : Bool) (disp len : Nat)
  | polling (rank : Nat)
  | read (rank disp : Nat) (bytes : Bytes)
  | lost (rank count : Nat)
  | polled (rank : Nat) (result : Except Fail (List Message))
  | returned (rank : Nat) (request : Request) (outcome : Outcome)
deriving DecidableEq

/-! ### State -/

/-- The mutexes: one for each outgoing lane of a rank, and its two receive-side ones. -/
inductive Mutex where
  | sent (rank destination : Nat)
  | seen (rank : Nat)
  | acked (rank : Nat)
deriving DecidableEq, Repr

/-- The changing fields of one rank's ring and the local memory of its windows. -/
structure Process where
  sent : Nat → Outgoing
  seen : List Nat
  acked : List Nat
  lost : Nat
  corrupt : Nat
  maxLag : Nat
  full : Nat
  slots : Memory UInt8
  acks : Memory Nat

/-- The state right after construction: windows zeroed, every counter zero. -/
def Process.fresh (n : Nat) : Process where
  sent := fun _ => ⟨0, 0, []⟩
  seen := List.replicate n 0
  acked := List.replicate n 0
  lost := 0
  corrupt := 0
  maxLag := 0
  full := 0
  slots := fun _ => 0
  acks := fun _ => 0

structure World where
  process : Nat → Process
  holder : Mutex → Option Nat
  poisoned : Mutex → Bool
  log : List Event

namespace World

def fresh (n : Nat) : World where
  process := fun _ => Process.fresh n
  holder := fun _ => none
  poisoned := fun _ => false
  log := []

def modify (w : World) (rank : Nat) (f : Process → Process) : World :=
  { w with process := Function.update w.process rank (f (w.process rank)) }

def record (w : World) (e : Event) : World := { w with log := e :: w.log }

def take (w : World) (t : Nat) (m : Mutex) : World :=
  { w with holder := Function.update w.holder m (some t) }

def drop (w : World) (m : Mutex) (poison : Bool) : World :=
  { w with
    holder := Function.update w.holder m none
    poisoned := Function.update w.poisoned m (w.poisoned m || poison) }

/-- Take a mutex that is free; a poisoned one answers `none` and stays free. -/
def lock {α : Type} (w : World) (t : Nat) (m : Mutex) (data : α) : Option (Option α × World) :=
  if w.holder m = none then
    if w.poisoned m then some (none, w) else some (some data, w.take t m)
  else none

end World

/-! ### Commands -/

/-- Which MPI calls may report an error. -/
structure Faults where
  puts : Bool
  adds : Bool
deriving DecidableEq, Repr

/-- All MPI calls succeed. -/
def Faults.none : Faults := ⟨false, false⟩

/-- How a remote operation ends: well, with an error before it took effect, or with an
    error after it did. -/
inductive Ending where
  | ok
  | before (code : Int)
  | after (code : Int)
deriving DecidableEq, Repr

namespace World

/-- The slot window memory of `dest` with an image stored, and the put written down. -/
def land (w : World) (source dest : Nat) (disp : Nat) (image data : Bytes) (ok : Bool) : World :=
  (w.modify dest fun p => { p with slots := p.slots.write disp image }).record
    (.put source dest (ofLE (image.take WORD)) data ok disp image.length)

def add (w : World) (dest disp value : Nat) : World :=
  w.modify dest fun p =>
    { p with acks := Function.update p.acks disp ((p.acks disp + value) % (u64Max + 1)) }

/-- One command of thread `t` in `call`; `none` while it has to wait, or when the ending
    is none of those the faults allow. -/
def exec {n : Nat} (faults : Faults) (t : Nat) (call : Call n) (c : RingCall) (ending : Ending)
    (w : World) : Option (c.Answer × World) :=
  let rank := call.rank.val
  let self := w.process rank
  match c with
  | .lockSent i => w.lock t (.sent rank i) (self.sent i)
  | .unlockSent i outgoing poison =>
    if w.holder (.sent rank i) = some t then
      some ((), (w.modify rank fun p => { p with sent := Function.update p.sent i outgoing }).drop
        (.sent rank i) poison)
    else none
  | .lockSeen =>
    match w.lock t (.seen rank) self.seen with
    | none => none
    | some (answer, w') =>
      some (answer, if call.request = .poll ∧ answer.isSome then w'.record (.polling rank) else w')
  | .unlockSeen seen poison polled =>
    if w.holder (.seen rank) = some t then
      let w' := (w.modify rank fun p => { p with seen := seen }).drop (.seen rank) poison
      some ((), match polled with
        | none => w'
        | some result => w'.record (.polled rank result))
    else none
  | .lockAcked => w.lock t (.acked rank) self.acked
  | .unlockAcked acked poison =>
    if w.holder (.acked rank) = some t then
      some ((), (w.modify rank fun p => { p with acked := acked }).drop (.acked rank) poison)
    else none
  | .readLocal disp len =>
    some (self.slots.read disp len, w.record (.read rank disp (self.slots.read disp len)))
  | .readLocalVolatile disp len =>
    some (self.slots.read disp len, w.record (.read rank disp (self.slots.read disp len)))
  | .readCounter disp => some (self.acks disp, w)
  | .put dest disp image =>
    match ending with
    | .ok => some (.ok (), w.land rank dest.toNat disp image call.request.payload true)
    | .before code => if faults.puts then some (.error code, w) else none
    | .after code =>
      if faults.puts then
        some (.error code, w.land rank dest.toNat disp image call.request.payload false)
      else none
  | .fetchAdd dest disp value =>
    let previous := (w.process dest.toNat).acks disp
    match ending with
    | .ok => some (.ok previous, w.add dest.toNat disp value)
    | .before code => if faults.adds then some (.error code, w) else none
    | .after code => if faults.adds then some (.error code, w.add dest.toNat disp value) else none
  | .addLost count =>
    some ((), (w.modify rank fun p => { p with lost := (p.lost + count) % (u64Max + 1) }).record
      (.lost rank count))
  | .addCorrupt =>
    some ((), w.modify rank fun p => { p with corrupt := (p.corrupt + 1) % (u64Max + 1) })
  | .maxLag lag => some ((), w.modify rank fun p => { p with maxLag := max p.maxLag lag })
  | .addFull => some ((), w.modify rank fun p => { p with full := (p.full + 1) % (u64Max + 1) })

end World

/-! ### The machine -/

def Call.code [Libraries] {n : Nat} (ring : Nat → Ring) (call : Call n) : RingProgram Outcome :=
  match call.request with
  | .send destination data =>
    ((ring call.rank).send destination data ()).bind fun r => .ret (.sent r.1)
  | .poll => ((ring call.rank).poll ()).bind fun r => .ret (.polled r.1)
  | .ack origin sequence =>
    ((ring call.rank).ack origin sequence ()).bind fun r => .ret (.acked r.1)

/-- Any number of threads at each of `n` ranks, calling `send`, `poll` and `ack`. -/
def ringMachine [Libraries] (n : Nat) (ring : Nat → Ring) (faults : Faults) :
    Machine RingCall RingCall.Answer World (Call n) Outcome where
  code := Call.code ring
  exec t call c w a w' := ∃ ending, World.exec faults t call c ending w = some (a, w')
  finish _ call outcome w := w.record (.returned call.rank call.request outcome)

/-! ### The log only grows -/

section Log

variable {n : Nat} {faults : Faults} {t : Nat} {w w' : World}

theorem World.lock_log {α : Type} {m : Mutex} {data : α} {answer : Option α}
    (h : w.lock t m data = some (answer, w')) : w'.log = w.log := by
  unfold World.lock at h
  split at h
  · split at h
    · obtain ⟨-, rfl⟩ := Prod.mk.inj (Option.some.inj h)
      rfl
    · obtain ⟨-, rfl⟩ := Prod.mk.inj (Option.some.inj h)
      rfl
  · contradiction

theorem World.exec_log {call : Call n} {c : RingCall} {ending : Ending} {answer : c.Answer}
    (h : World.exec faults t call c ending w = some (answer, w')) : w.log <:+ w'.log := by
  have hsame : ∀ w' : World, w'.log = w.log → w.log <:+ w'.log := by
    intro w' hlog
    exact hlog ▸ List.suffix_rfl
  unfold World.exec at h
  cases c with
  | lockSent i => exact hsame w' (World.lock_log h)
  | lockAcked => exact hsame w' (World.lock_log h)
  | lockSeen =>
    dsimp only at h
    split at h
    · contradiction
    · rename_i x w₁ hlocked
      obtain ⟨-, rfl⟩ := Prod.mk.inj (Option.some.inj h)
      rw [← World.lock_log hlocked]
      split
      · apply List.suffix_cons
      · apply List.suffix_rfl
  | unlockSent i outgoing poison | unlockAcked acked poison =>
    dsimp only at h
    split at h
    · obtain ⟨-, rfl⟩ := Prod.mk.inj (Option.some.inj h)
      apply List.suffix_rfl
    · contradiction
  | unlockSeen seen poison polled =>
    dsimp only at h
    split at h
    · obtain ⟨-, rfl⟩ := Prod.mk.inj (Option.some.inj h)
      cases polled with
      | none => apply List.suffix_rfl
      | some result => apply List.suffix_cons
    · contradiction
  | readLocal disp len | readLocalVolatile disp len | addLost count =>
    obtain ⟨-, rfl⟩ := Prod.mk.inj (Option.some.inj h)
    apply List.suffix_cons
  | readCounter disp | addCorrupt | maxLag lag | addFull =>
    obtain ⟨-, rfl⟩ := Prod.mk.inj (Option.some.inj h)
    apply List.suffix_rfl
  | put dest disp image =>
    dsimp only at h
    split at h
    · obtain ⟨-, rfl⟩ := Prod.mk.inj (Option.some.inj h)
      apply List.suffix_cons
    · split at h
      · obtain ⟨-, rfl⟩ := Prod.mk.inj (Option.some.inj h)
        apply List.suffix_rfl
      · contradiction
    · split at h
      · obtain ⟨-, rfl⟩ := Prod.mk.inj (Option.some.inj h)
        apply List.suffix_cons
      · contradiction
  | fetchAdd dest disp value =>
    dsimp only at h
    split at h
    · obtain ⟨-, rfl⟩ := Prod.mk.inj (Option.some.inj h)
      apply List.suffix_rfl
    · split at h
      · obtain ⟨-, rfl⟩ := Prod.mk.inj (Option.some.inj h)
        apply List.suffix_rfl
      · contradiction
    · split at h
      · obtain ⟨-, rfl⟩ := Prod.mk.inj (Option.some.inj h)
        apply List.suffix_rfl
      · contradiction

theorem step_log [Libraries] {ring : Nat → Ring}
    {x y : Config RingCall RingCall.Answer World (Call n) Outcome}
    (h : (ringMachine n ring faults).Step x y) : x.shared.log <:+ y.shared.log := by
  cases h with
  | call t k hfree => apply List.suffix_rfl
  | command t k c cont a s' hat hexec =>
    obtain ⟨ending, hexec⟩ := hexec
    exact World.exec_log hexec
  | «return» t k r hat => apply List.suffix_cons

theorem steps_log [Libraries] {ring : Nat → Ring}
    {x y : Config RingCall RingCall.Answer World (Call n) Outcome}
    (h : Relation.ReflTransGen (ringMachine n ring faults).Step x y) :
    x.shared.log <:+ y.shared.log := by
  induction h with
  | refl => apply List.suffix_rfl
  | tail _ hstep ih => exact ih.trans (step_log hstep)

end Log

end MpiRma
