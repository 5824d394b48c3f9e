/-
  MpiRma/Stages.lean
  ==================
  **The stages of `send` and `ack`.**  On a configured lane each of the two operations
  passes through a handful of stages, one for each command it may issue next.  The programs
  below are these stages as functions of what the operation knows when it gets there;
  `send_code` and `ack_code` show that the code of a call is the first of them, so
  that what a thread in a call still has to do can be named.
-/
import MpiRma.Sending

namespace MpiRma

/-! ### Send -/

namespace Send

def leaving (d : Nat) (result : Except Fail Nat) (outgoing : Outgoing) : RingProgram Outcome :=
  .op (.unlockSent d outgoing (poisons result)) fun _ => .ret (.sent result)

def refusing (d : Nat) (outgoing : Outgoing) : RingProgram Outcome :=
  .op .addFull fun _ => leaving d (.error (.error .full)) outgoing

def storing (l : Lane) (d : Nat) (image : Bytes) (outgoing : Outgoing) : RingProgram Outcome :=
  .op (.put (d : Int) (l.slotAt (l.position (outgoing.sent + 1))) image)
    fun (answer : Except Int Unit) => match answer with
      | .ok () => leaving d (.ok (outgoing.sent + 1)) ⟨outgoing.sent + 1, outgoing.acked, image⟩
      | .error code => leaving d (.error (.error (.mpi code))) { outgoing with image := image }

def putting [Libraries] (l : Lane) (d : Nat) (data : Bytes) (outgoing : Outgoing) :
    RingProgram Outcome :=
  match Ring.buildImage l outgoing.image (outgoing.sent + 1) data with
  | .error e => leaving d (.error e) outgoing
  | .ok image => storing l d image outgoing

def refreshed [Libraries] (l : Lane) (d : Nat) (data : Bytes) (outgoing : Outgoing) (value : Nat) :
    RingProgram Outcome :=
  if value < outgoing.acked then
    leaving d (.error (.error (.ring "acknowledgement counter regressed"))) outgoing
  else if outgoing.sent < value then
    leaving d (.error (.error (.ring "acknowledgement exceeds sent sequence"))) outgoing
  else if l.depth < outgoing.sent + 1 - value then
    refusing d { outgoing with acked := value }
  else
    putting l d data { outgoing with acked := value }

/-- The cached counter would refuse: read the counter. -/
def refreshing [Libraries] (l : Lane) (d : Nat) (data : Bytes) (outgoing : Outgoing) :
    RingProgram Outcome :=
  .op (.readCounter l.ack) fun (value : Nat) => refreshed l d data outgoing value

def gated [Libraries] (safe : Bool) (l : Lane) (d : Nat) (data : Bytes) (outgoing : Outgoing) :
    RingProgram Outcome :=
  if safe = false then
    putting l d data outgoing
  else if outgoing.sent + 1 < outgoing.acked then
    leaving d (.error .panic) outgoing
  else if l.depth < outgoing.sent + 1 - outgoing.acked then
    refreshing l d data outgoing
  else
    putting l d data outgoing

def holding [Libraries] (safe : Bool) (l : Lane) (d : Nat) (data : Bytes) (outgoing : Outgoing) :
    RingProgram Outcome :=
  if u64Max < outgoing.sent + 1 then
    leaving d (.error (.error (.ring "sequence number exhausted"))) outgoing
  else
    gated safe l d data outgoing

def starting [Libraries] (safe : Bool) (l : Lane) (d : Nat) (data : Bytes) : RingProgram Outcome :=
  .op (.lockSent d) fun (answer : Option Outgoing) => match answer with
    | none => .ret (.sent (.error (.error (.ring "send state poisoned"))))
    | some outgoing => holding safe l d data outgoing

end Send

section Send

variable [Libraries] {n : Nat} {safe : Bool} {ring : Nat → Ring} {W : Wired n safe ring}
  {s d : Nat} {l : Lane}

omit [Libraries] in
/-- The gate, up to the commands it issues. -/
theorem gate_stages (hlane : W.lane s d = some l) (outgoing : Outgoing) :
    (ring s).gate l (outgoing.sent + 1) outgoing =
      if safe = false then .ret (.ok (), outgoing)
      else if outgoing.sent + 1 < outgoing.acked then .ret (.error .panic, outgoing)
      else if l.depth < outgoing.sent + 1 - outgoing.acked then
        .op (.readCounter l.ack) fun (value : Nat) =>
          if value < outgoing.acked then
            .ret (.error (.error (.ring "acknowledgement counter regressed")), outgoing)
          else if outgoing.sent < value then
            .ret (.error (.error (.ring "acknowledgement exceeds sent sequence")), outgoing)
          else if l.depth < outgoing.sent + 1 - value then
            .op .addFull fun _ => .ret (.error (.error .full), { outgoing with acked := value })
          else .ret (.ok (), { outgoing with acked := value })
      else .ret (.ok (), outgoing) := by
  have hs := (W.lanes hlane).source
  unfold Ring.gate
  rw [W.isSafe hs]
  cases safe with
  | false => rfl
  | true =>
    rw [if_pos rfl, if_neg (by decide)]
    show ((Code.lift (plainSub (outgoing.sent + 1) outgoing.acked) : RingCode Outgoing Nat) >>= _)
      outgoing = _
    by_cases hover : outgoing.sent + 1 < outgoing.acked
    · rw [if_pos hover, plainSub, if_neg (by omega), Code.lift_error_bind]
    rw [if_neg hover, plainSub_ok (by omega), Code.lift_ok_bind]
    by_cases hahead : l.depth < outgoing.sent + 1 - outgoing.acked
    swap
    · rw [if_neg hahead, if_neg hahead]
      rfl
    rw [if_pos hahead, if_pos hahead]
    obtain ⟨acks, hacks, hrank, hvalid⟩ := Wired.counter_fits hlane hs
    unfold Ring.acknowledged Window.readCounter
    rw [hacks]
    dsimp only
    rw [hrank, hvalid]
    apply congrArg (Program.op _)
    funext (value : Nat)
    simp only [Program.bind]
    by_cases hback : value < outgoing.acked
    · rw [if_pos hback, if_pos hback]
      rfl
    by_cases hover : outgoing.sent < value
    · rw [if_neg hback, if_pos hover, if_neg hback, if_pos hover]
      rfl
    rw [if_neg hback, if_neg hover, if_neg hback, if_neg hover]
    show ((Code.lift (plainSub (outgoing.sent + 1) value) : RingCode Outgoing Nat) >>= _) _ = _
    rw [plainSub_ok (by omega), Code.lift_ok_bind]
    by_cases hstill : l.depth < outgoing.sent + 1 - value
    · rw [if_pos hstill, if_pos hstill]
      rfl
    · rw [if_neg hstill, if_neg hstill]
      rfl

def putLocked (R : Ring) (d : Nat) (l : Lane) (data : Bytes) (sequence : Nat) :
    RingCode Outgoing Nat := do
  let outgoing ← Code.get
  let image ← Code.lift (Ring.buildImage l outgoing.image sequence data)
  Code.set { outgoing with image := image }
  let position ← Code.lift (Ring.slotPosition l sequence)
  let offset ← Code.lift (Ring.slotOffset l position)
  R.slots.put (d : Int) offset image
  Code.set { outgoing with sent := sequence, image := image }
  pure sequence

def leaveWith (d : Nat) (r : Except Fail Nat × Outgoing) : RingProgram Outcome :=
  Send.leaving d r.1 r.2

theorem putLocked_stages (hlane : W.lane s d = some l) (outgoing : Outgoing) {data : Bytes}
    (hdata : data.length ≤ l.capacity) (hmax : outgoing.sent + 1 ≤ u64Max) :
    (putLocked (ring s) d l data (outgoing.sent + 1) outgoing).bind (leaveWith d) =
      Send.putting l d data outgoing := by
  have hlaneOk := W.lanes hlane
  have hfits := W.slotsFit d hlaneOk.destination
  have hposition := hlaneOk.position_lt (outgoing.sent + 1)
  obtain ⟨image, himage, hbuilt⟩ := Ring.buildImage_says hlaneOk outgoing.image
    (Nat.succ_pos outgoing.sent) hmax hdata
  have hvalid := Wired.put_fits hlane hposition
  have hcount : tryFrom i32Max image.length = some image.length := by
    refine if_pos ?_
    rw [hbuilt.length]
    exact hlaneOk.count
  unfold Send.putting
  rw [himage]
  show (((Code.lift (Ring.buildImage l outgoing.image (outgoing.sent + 1) data) :
    RingCode Outgoing Bytes) >>= _) outgoing).bind _ = Send.storing l d image outgoing
  rw [himage, Code.lift_ok_bind]
  show (((Code.lift (Ring.slotPosition l (outgoing.sent + 1)) : RingCode Outgoing Nat) >>= _)
    _).bind _ = _
  rw [slotPosition_ok hlaneOk.depth, Code.lift_ok_bind, (hlaneOk.slotIn hposition).offset hfits,
    Code.lift_ok_bind]
  unfold Window.put
  rw [hbuilt.length, hvalid, ← hbuilt.length]
  unfold orFail
  rw [hcount]
  apply congrArg (Program.op _)
  funext (answer : Except Int Unit)
  cases answer with
  | ok u => rfl
  | error code => rfl

theorem sendLocked_stages (hlane : W.lane s d = some l) (outgoing : Outgoing) {data : Bytes}
    (hdata : data.length ≤ l.capacity) :
    ((ring s).sendLocked (d : Int) l data outgoing).bind (leaveWith d) =
      Send.holding safe l d data outgoing := by
  unfold Send.holding
  by_cases hmax : u64Max < outgoing.sent + 1
  · rw [if_pos hmax]
    have hnone : checkedAdd u64Max outgoing.sent 1 = none := if_neg (by omega)
    show (((Code.lift (okOr (checkedAdd u64Max outgoing.sent 1) _) : RingCode Outgoing Nat) >>= _)
      outgoing).bind _ = _
    rw [hnone]
    rfl
  rw [if_neg hmax]
  have hsome : checkedAdd u64Max outgoing.sent 1 = some (outgoing.sent + 1) := if_pos (by omega)
  show (((Code.lift (okOr (checkedAdd u64Max outgoing.sent 1) _) : RingCode Outgoing Nat) >>= _)
    outgoing).bind _ = _
  rw [hsome, okOr, Code.lift_ok_bind]
  show ((((ring s).gate l (outgoing.sent + 1) >>= fun _ =>
    putLocked (ring s) d l data (outgoing.sent + 1)) : RingCode Outgoing Nat) outgoing).bind _ = _
  have hput : ∀ acked, (putLocked (ring s) d l data (outgoing.sent + 1)
      { outgoing with acked := acked }).bind (leaveWith d) =
      Send.putting l d data { outgoing with acked := acked } := fun acked =>
    putLocked_stages hlane { outgoing with acked := acked } hdata (Nat.le_of_not_lt hmax)
  show (((ring s).gate l (outgoing.sent + 1) outgoing).bind _).bind _ = _
  rw [gate_stages hlane]
  unfold Send.gated
  by_cases hraw : safe = false
  · rw [if_pos hraw, if_pos hraw]
    exact hput outgoing.acked
  rw [if_neg hraw, if_neg hraw]
  by_cases hover : outgoing.sent + 1 < outgoing.acked
  · rw [if_pos hover, if_pos hover]
    rfl
  rw [if_neg hover, if_neg hover]
  by_cases hahead : l.depth < outgoing.sent + 1 - outgoing.acked
  swap
  · rw [if_neg hahead, if_neg hahead]
    exact hput outgoing.acked
  rw [if_pos hahead, if_pos hahead]
  apply congrArg (Program.op (RingCall.readCounter l.ack))
  funext (value : Nat)
  unfold Send.refreshed
  dsimp only
  by_cases hback : value < outgoing.acked
  · rw [if_pos hback, if_pos hback]
    rfl
  by_cases hbeyond : outgoing.sent < value
  · rw [if_neg hback, if_pos hbeyond, if_neg hback, if_pos hbeyond]
    rfl
  rw [if_neg hback, if_neg hbeyond, if_neg hback, if_neg hbeyond]
  by_cases hstill : l.depth < outgoing.sent + 1 - value
  · rw [if_pos hstill, if_pos hstill]
    rfl
  · rw [if_neg hstill, if_neg hstill]
    exact hput value

def Send.code (W : Wired n safe ring) (s : Nat) (destination : Int) (data : Bytes) :
    RingProgram Outcome :=
  if destination < 0 ∨ n ≤ destination.toNat then
    .ret (.sent (.error (.error (.rank destination))))
  else match W.lane s destination.toNat with
  | none => .ret (.sent (.error (.error (.ring "directed lane is not configured"))))
  | some l =>
    if l.capacity < data.length then
      .ret (.sent (.error (.error (.payload data.length l.capacity))))
    else
      Send.starting safe l destination.toNat data

/-- **A send is its stages.** -/
theorem send_code (W : Wired n safe ring) {call : Call n} {destination : Int} {data : Bytes}
    (hcall : call.request = .send destination data) :
    Call.code ring call = Send.code W call.rank destination data := by
  have hs := call.rank.isLt
  unfold Call.code Send.code
  rw [hcall]
  dsimp only
  unfold Ring.send Ring.peer
  rw [W.ranks _ hs]
  by_cases hpeer : destination < 0 ∨ n ≤ destination.toNat
  · rw [if_pos hpeer, if_pos hpeer]
    rfl
  rw [if_neg hpeer, if_neg hpeer, Code.lift_ok_bind]
  obtain ⟨d, rfl⟩ := Int.eq_ofNat_of_zero_le (a := destination) (by omega)
  rw [Int.toNat_natCast] at hpeer ⊢
  have hd : d < n := by omega
  rw [index_ok (W.toLanes _ hs d hd), Code.lift_ok_bind]
  unfold orFail
  cases hlane : W.lane call.rank d with
  | none => rfl
  | some l =>
    rw [okOr, Code.lift_ok_bind]
    dsimp only
    by_cases hdata : l.capacity < data.length
    · rw [if_pos hdata, if_pos hdata]
      rfl
    rw [if_neg hdata, if_neg hdata]
    unfold Ring.perRank
    rw [W.ranks _ hs, if_pos hd, Code.lift_ok_bind]
    unfold Send.starting
    apply congrArg (Program.op (RingCall.lockSent d))
    funext (answer : Option Outgoing)
    cases answer with
    | none => rfl
    | some outgoing =>
      refine Eq.trans ?_ (sendLocked_stages hlane outgoing (Nat.le_of_not_lt hdata))
      exact Program.bind_assoc _ _ _

def RingCall.sending : RingCall → Prop
  | .lockSent _ => True
  | .unlockSent _ _ _ => True
  | .readCounter _ => True
  | .put _ _ _ => True
  | .addFull => True
  | _ => False

omit [Libraries] in
theorem leaving_sends (d : Nat) (result : Except Fail Nat) (outgoing : Outgoing) :
    (Send.leaving d result outgoing).Only RingCall.sending := ⟨trivial, fun _ => trivial⟩

theorem putting_sends (l : Lane) (d : Nat) (data : Bytes) (outgoing : Outgoing) :
    (Send.putting l d data outgoing).Only RingCall.sending := by
  unfold Send.putting
  split
  · exact leaving_sends _ _ _
  · refine ⟨trivial, ?_⟩
    rintro (code | u)
    · exact leaving_sends _ _ _
    · exact leaving_sends _ _ _

theorem refreshed_sends (l : Lane) (d : Nat) (data : Bytes) (outgoing : Outgoing) (value : Nat) :
    (Send.refreshed l d data outgoing value).Only RingCall.sending := by
  unfold Send.refreshed
  split
  · exact leaving_sends _ _ _
  split
  · exact leaving_sends _ _ _
  split
  · exact ⟨trivial, fun _ => leaving_sends _ _ _⟩
  · exact putting_sends _ _ _ _

theorem send_only (W : Wired n safe ring) (s : Nat) (destination : Int) (data : Bytes) :
    (Send.code W s destination data).Only RingCall.sending := by
  unfold Send.code
  split
  · trivial
  split
  · trivial
  split
  · trivial
  refine ⟨trivial, ?_⟩
  rintro (_ | outgoing)
  · trivial
  show (Send.holding _ _ _ _ outgoing).Only _
  unfold Send.holding Send.gated
  split
  · exact leaving_sends _ _ _
  split
  · exact putting_sends _ _ _ _
  split
  · exact leaving_sends _ _ _
  split
  · exact ⟨trivial, fun value => refreshed_sends _ _ _ _ value⟩
  · exact putting_sends _ _ _ _

end Send

/-! ### Acknowledge -/

namespace Ack

def leaving (result : Except Fail Unit) (acked : List Nat) : RingProgram Outcome :=
  .op (.unlockAcked acked (poisons result)) fun _ => .ret (.acked result)

def adding (s : Nat) (l : Lane) (sequence mirror : Nat) (acked : List Nat) :
    RingProgram Outcome :=
  .op (.fetchAdd (s : Int) l.ack (sequence - mirror)) fun (answer : Except Int Nat) =>
    match answer with
    | .error code => leaving (.error (.error (.mpi code))) acked
    | .ok previous =>
      if previous ≠ mirror then
        leaving (.error (.error (.ring "acknowledgement counter diverged"))) acked
      else
        leaving (.ok ()) (acked.set s sequence)

/-- Drop the cursors' mutex, having compared with the cursor. -/
def compared (s : Nat) (l : Lane) (sequence mirror : Nat) (acked seen : List Nat)
    (verdict : Except Fail Unit) : RingProgram Outcome :=
  .op (.unlockSeen seen (poisons verdict) none) fun _ => match verdict with
    | .error e => leaving (.error e) acked
    | .ok () => adding s l sequence mirror acked

/-- Whether a sequence has been returned, by the cursors. -/
def verdict (s sequence : Nat) (seen : List Nat) : Except Fail Unit :=
  match seen[s]? with
  | none => .error .panic
  | some cursor => if cursor < sequence then .error (.error (.ack s sequence cursor)) else .ok ()

def checking (s : Nat) (l : Lane) (sequence mirror : Nat) (acked : List Nat) :
    RingProgram Outcome :=
  .op .lockSeen fun (answer : Option (List Nat)) => match answer with
    | none => leaving (.error (.error (.ring "receive state poisoned"))) acked
    | some seen => compared s l sequence mirror acked seen (verdict s sequence seen)

def holding (s : Nat) (l : Lane) (sequence : Nat) (acked : List Nat) : RingProgram Outcome :=
  match acked[s]? with
  | none => leaving (.error .panic) acked
  | some mirror =>
    if sequence ≤ mirror then leaving (.ok ()) acked else checking s l sequence mirror acked

def starting (s : Nat) (l : Lane) (sequence : Nat) : RingProgram Outcome :=
  .op .lockAcked fun (answer : Option (List Nat)) => match answer with
    | none => .ret (.acked (.error (.error (.ring "acknowledgement state poisoned"))))
    | some acked => holding s l sequence acked

end Ack

section Ack

variable {n : Nat} {safe : Bool} {ring : Nat → Ring} {W : Wired n safe ring} {s d : Nat} {l : Lane}

theorem received_stages (sequence : Nat) (seen : List Nat) :
    Ring.received (s : Int) sequence seen = .ret (Ack.verdict s sequence seen, seen) := by
  unfold Ack.verdict Ring.received
  show ((Code.lift (index seen s) : RingCode (List Nat) Nat) >>= _) seen = _
  unfold index
  cases hcursor : seen[s]? with
  | none => rfl
  | some cursor =>
    rw [Code.lift_ok_bind]
    dsimp only
    by_cases hlow : cursor < sequence
    · rw [if_pos hlow, if_pos hlow]
      rfl
    · rw [if_neg hlow, if_neg hlow]
      rfl

theorem ackLocked_stages {acks : Window}
    (hvalid : acks.validate (s : Int) l.ack 1 = .ok ()) (sequence : Nat) (acked : List Nat) :
    (Ring.ackLocked acks (s : Int) l sequence acked).bind (fun r => Ack.leaving r.1 r.2) =
      Ack.holding s l sequence acked := by
  unfold Ack.holding Ring.ackLocked
  show (((Code.lift (index acked s) : RingCode (List Nat) Nat) >>= _) acked).bind _ = _
  unfold index
  cases hmirror : acked[s]? with
  | none => rfl
  | some mirror =>
    rw [Code.lift_ok_bind]
    dsimp only
    by_cases hdone : sequence ≤ mirror
    · rw [if_pos hdone, if_pos hdone]
      rfl
    rw [if_neg hdone, if_neg hdone]
    apply congrArg (Program.op RingCall.lockSeen)
    funext (answer : Option (List Nat))
    cases answer with
    | none => rfl
    | some seen =>
      show ((((Ring.received (s : Int) sequence seen).bind _).bind _).bind _) = _
      rw [received_stages]
      apply congrArg (Program.op (RingCall.unlockSeen seen
        (poisons (Ack.verdict s sequence seen)) none))
      funext (answer : Unit)
      cases Ack.verdict s sequence seen with
      | error e => rfl
      | ok u =>
        show (((Code.lift (plainSub sequence mirror) : RingCode (List Nat) Nat) >>= _)
          acked).bind _ = Ack.adding s l sequence mirror acked
        rw [plainSub_ok (Nat.le_of_not_le hdone), Code.lift_ok_bind]
        unfold Window.fetchAdd
        rw [hvalid]
        apply congrArg (Program.op _)
        funext (answer : Except Int Nat)
        cases answer with
        | error code => rfl
        | ok previous =>
          show ((ite (previous ≠ mirror) _ _ : RingCode (List Nat) Unit) acked).bind _ =
            ite (previous ≠ mirror) _ _
          by_cases hdiverged : previous ≠ mirror
          · rw [if_pos hdiverged, if_pos hdiverged]
            rfl
          · rw [if_neg hdiverged, if_neg hdiverged]
            rfl

def RingCall.acksTo (s : Nat) (l : Lane) : RingCall → Prop
  | .lockAcked => True
  | .unlockAcked _ _ => True
  | .lockSeen => True
  | .unlockSeen _ _ polled => polled = none
  | .fetchAdd dest disp _ => dest = (s : Int) ∧ disp = l.ack
  | _ => False

theorem starting_acksTo (sequence : Nat) :
    (Ack.starting s l sequence).Only (RingCall.acksTo s l) := by
  have hleaving : ∀ result acked, (Ack.leaving result acked).Only (RingCall.acksTo s l) :=
    fun _ _ => ⟨trivial, fun _ => trivial⟩
  refine ⟨trivial, ?_⟩
  rintro (_ | acked)
  · trivial
  show (Ack.holding _ _ _ acked).Only _
  unfold Ack.holding
  split
  · exact hleaving _ _
  split
  · exact hleaving _ _
  refine ⟨trivial, ?_⟩
  rintro (_ | seen)
  · exact hleaving _ _
  refine ⟨rfl, fun _ => ?_⟩
  cases Ack.verdict s sequence seen with
  | error e => exact hleaving _ _
  | ok u =>
    refine ⟨⟨rfl, rfl⟩, ?_⟩
    rintro (code | previous)
    · exact hleaving _ _
    dsimp only
    split
    · exact hleaving _ _
    · exact hleaving _ _

def RingCall.acknowledging : RingCall → Prop
  | .lockAcked => True
  | .unlockAcked _ _ => True
  | .lockSeen => True
  | .unlockSeen _ _ polled => polled = none
  | .fetchAdd _ _ _ => True
  | _ => False

def Ack.code (W : Wired n safe ring) (d : Nat) (origin : Int) (sequence : Nat) :
    RingProgram Outcome :=
  if origin < 0 ∨ n ≤ origin.toNat then
    .ret (.acked (.error (.error (.rank origin))))
  else if safe = false then
    .ret (.acked (.ok ()))
  else match W.lane origin.toNat d with
  | none => .ret (.acked (.error (.error (.ring "directed lane is not configured"))))
  | some l => Ack.starting origin.toNat l sequence

theorem RingCall.acksTo.acknowledging {s : Nat} {l : Lane} {c : RingCall} (h : c.acksTo s l) :
    c.acknowledging := by
  cases c with
  | unlockSeen seen poison polled => exact h
  | lockAcked | unlockAcked | lockSeen | fetchAdd => trivial
  | _ => exact h.elim

theorem ack_only (W : Wired n safe ring) (d : Nat) (origin : Int) (sequence : Nat) :
    (Ack.code W d origin sequence).Only RingCall.acknowledging := by
  unfold Ack.code
  split
  · trivial
  split
  · trivial
  split
  · trivial
  · exact (starting_acksTo sequence).mono fun c hc => hc.acknowledging

/-- **An acknowledgement is its stages.** -/
theorem ack_code [Libraries] (W : Wired n safe ring) {call : Call n} {origin : Int} {sequence : Nat}
    (hcall : call.request = .ack origin sequence) :
    Call.code ring call = Ack.code W call.rank origin sequence := by
  have hd := call.rank.isLt
  unfold Call.code Ack.code
  rw [hcall]
  dsimp only
  unfold Ring.ack Ring.peer
  rw [W.ranks _ hd]
  by_cases hpeer : origin < 0 ∨ n ≤ origin.toNat
  · rw [if_pos hpeer, if_pos hpeer]
    rfl
  rw [if_neg hpeer, if_neg hpeer, Code.lift_ok_bind]
  obtain ⟨s, rfl⟩ := Int.eq_ofNat_of_zero_le (a := origin) (by omega)
  rw [Int.toNat_natCast] at hpeer ⊢
  have hs : s < n := by omega
  have hacks := W.acks call.rank hd
  cases safe with
  | false =>
    rw [if_neg (by decide)] at hacks
    rw [hacks]
    rfl
  | true =>
    rw [if_pos rfl] at hacks
    obtain ⟨acks, hsome, -⟩ := hacks
    rw [hsome, if_neg (by decide)]
    dsimp only
    rw [index_ok (W.fromLanes _ hd s hs), Code.lift_ok_bind]
    unfold orFail
    cases hlane : W.lane s call.rank with
    | none => rfl
    | some l =>
      rw [okOr, Code.lift_ok_bind]
      obtain ⟨acks', hsome', -, hvalid⟩ := Wired.counter_fits hlane hd
      obtain rfl : acks = acks' := Option.some.inj (hsome.symm.trans hsome')
      unfold Ack.starting
      apply congrArg (Program.op RingCall.lockAcked)
      funext (answer : Option (List Nat))
      cases answer with
      | none => rfl
      | some acked =>
        refine Eq.trans ?_ (ackLocked_stages hvalid sequence acked)
        exact Program.bind_assoc _ _ _

end Ack

end MpiRma
