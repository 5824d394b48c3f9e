/-
  MpiRma/Solo.lean
  ================
  **One lane of a ring, and a ring of that lane alone.**  `laneView` is everything a lane has
  in the ring: its slots, its counter, the sender state, its cursor, its mirror and its
  part of the log.  The calls on the lane run in the ring as they run in a ring configured
  with the lane alone, up to where its slots and its counter lie; a poll also turns to the
  other lanes into its rank, which leaves the cursor and the messages of this one alone.
-/
import MpiRma.Shadow
import MpiRma.LockOrder
import MpiRma.Stages

namespace MpiRma

/-! ### The view of a lane -/

def Lane.moved (l : Lane) (offset ack : Nat) : Lane := { l with offset := offset, ack := ack }

def Request.onLane (s d rank : Nat) : Request → Bool
  | .send destination _ => rank = s ∧ destination = (d : Int)
  | .poll => rank = d
  | .ack origin _ => rank = d ∧ origin = (s : Int)

def Call.onLane {n : Nat} (s d : Nat) (call : Call n) : Bool := call.request.onLane s d call.rank

/-- The part of an outcome that comes from origin `s`. -/
def Outcome.onLane (s : Nat) : Outcome → Outcome
  | .sent result => .sent result
  | .polled result => .polled (result.map (fromOrigin s))
  | .acked result => .acked result

def Event.onLane (s d : Nat) (l : Lane) : Event → Option Event
  | .put source destination sequence data ok disp len =>
    if source = s ∧ destination = d then
      some (.put source destination sequence data ok (disp - l.offset) len)
    else none
  | .polling rank => if rank = d then some (.polling rank) else none
  | .polled rank result =>
    if rank = d then some (.polled rank (result.map (fromOrigin s))) else none
  | .returned rank request outcome =>
    if request.onLane s d rank then some (.returned rank request (outcome.onLane s)) else none
  | .read _ _ _ => none
  | .lost _ _ => none

@[ext] structure LaneView where
  slots : List Bytes
  counter : Nat
  outgoing : Outgoing
  seen : Option Nat
  acked : Option Nat
  log : List Event
deriving DecidableEq

def laneView (s d : Nat) (l : Lane) (w : World) : LaneView where
  slots := (List.range l.depth).map fun p => (w.process d).slots.read (l.slotAt p) l.slot
  counter := (w.process s).acks l.ack
  outgoing := (w.process s).sent d
  seen := (w.process d).seen[s]?
  acked := (w.process d).acked[s]?
  log := w.log.filterMap (Event.onLane s d l)

/-! ### The commands of the lane -/

def AgreeAt (s : Nat) (v v' : List Nat) : Prop := v[s]? = v'[s]?

def GuardsAgree (s : Nat) (a a' : Option (List Nat)) : Prop :=
  ∃ v v', a = some v ∧ a' = some v' ∧ AgreeAt s v v'

/-- Commands on a lane and on the same lane at another place, with the relation of their
    answers. -/
inductive OnLane (s d : Nat) (l l' : Lane) :
    (c c' : RingCall) → (c.Answer → c'.Answer → Prop) → Prop where
  | lockSent : OnLane s d l l' (.lockSent d) (.lockSent d) fun a a' => a = a'
  | unlockSent (outgoing : Outgoing) (poison : Bool) :
      OnLane s d l l' (.unlockSent d outgoing poison) (.unlockSent d outgoing poison)
        fun _ _ => True
  | lockSeen : OnLane s d l l' .lockSeen .lockSeen (GuardsAgree s)
  | unlockSeen {v v' : List Nat} (poison : Bool) (polled : Option (Except Fail (List Message)))
      (h : AgreeAt s v v') :
      OnLane s d l l' (.unlockSeen v poison polled)
        (.unlockSeen v' poison (polled.map (Except.map (fromOrigin s)))) fun _ _ => True
  | lockAcked : OnLane s d l l' .lockAcked .lockAcked (GuardsAgree s)
  | unlockAcked {v v' : List Nat} (poison : Bool) (h : AgreeAt s v v') :
      OnLane s d l l' (.unlockAcked v poison) (.unlockAcked v' poison) fun _ _ => True
  | readLocal {p : Nat} (hp : p < l.depth) :
      OnLane s d l l' (.readLocal (l.slotAt p) l.slot) (.readLocal (l'.slotAt p) l'.slot)
        fun (a a' : Bytes) => a = a' ∧ a.length = l.slot
  | readHead {p : Nat} (hp : p < l.depth) :
      OnLane s d l l' (.readLocalVolatile (l.slotAt p) WORD) (.readLocalVolatile (l'.slotAt p) WORD)
        fun (a a' : Bytes) => a = a' ∧ a.length = WORD
  | readGuard {p : Nat} (hp : p < l.depth) :
      OnLane s d l l' (.readLocalVolatile (l.guardAt p) WORD)
        (.readLocalVolatile (l'.guardAt p) WORD) fun (a a' : Bytes) => a = a' ∧ a.length = WORD
  | readCounter : OnLane s d l l' (.readCounter l.ack) (.readCounter l'.ack)
      fun (a a' : Nat) => a = a'
  | put {p : Nat} {image : Bytes} (hp : p < l.depth) (himage : image.length = l.slot) :
      OnLane s d l l' (.put (d : Int) (l.slotAt p) image) (.put (d : Int) (l'.slotAt p) image)
        fun (a a' : Except Int Unit) => a = a'
  | fetchAdd (value : Nat) :
      OnLane s d l l' (.fetchAdd (s : Int) l.ack value) (.fetchAdd (s : Int) l'.ack value)
        fun (a a' : Except Int Nat) => a = a'
  | addLost (count : Nat) : OnLane s d l l' (.addLost count) (.addLost count) fun _ _ => True
  | addCorrupt : OnLane s d l l' .addCorrupt .addCorrupt fun _ _ => True
  | maxLag (lag : Nat) : OnLane s d l l' (.maxLag lag) (.maxLag lag) fun _ _ => True
  | addFull : OnLane s d l l' .addFull .addFull fun _ _ => True

def RingCall.failsPoll : RingCall → Prop
  | .unlockSeen _ _ (some (.error _)) => True
  | _ => False

/-- The calls on a lane are followed command by command; while a poll turns to other lanes
    its shadow waits. -/
def laneMatching (s d : Nat) (l l' : Lane) :
    Matching RingCall RingCall.Answer RingCall RingCall.Answer where
  paired := OnLane s d l l'
  silent := RingCall.receiving
  never := RingCall.failsPoll

section Op

variable {α α' : Type} {s d : Nat} {l l' : Lane} {B : α → Prop} {Q : α → α' → Prop}
  {c c' : RingCall} {rel : c.Answer → c'.Answer → Prop} {k : c.Answer → RingProgram α}
  {k' : c'.Answer → RingProgram α'}

theorem OnLane.op (h : OnLane s d l l' c c' rel)
    (hk : ∀ a a', rel a a' → (k a).Shadowed (laneMatching s d l l') B Q (k' a')) :
    Program.Shadowed (laneMatching s d l l') B Q (.op c k) (.op c' k') :=
  .paired h hk

end Op

/-! ### Send -/

section Send

variable [Libraries] {s d offset ack : Nat} {l : Lane}

abbrev Twins (s d : Nat) (l : Lane) (offset ack : Nat) (p p' : RingProgram Outcome) : Prop :=
  p.Shadowed (laneMatching s d l (l.moved offset ack)) (fun _ => False)
    (fun r r' => r' = r.onLane s) p'

omit [Libraries] in
theorem Twins.leaving (result : Except Fail Nat) (outgoing : Outgoing) :
    Twins s d l offset ack (Send.leaving d result outgoing) (Send.leaving d result outgoing) :=
  (OnLane.unlockSent outgoing _).op fun _ _ _ => .ret rfl

omit [Libraries] in
theorem Twins.storing (hdepth : 0 < l.depth) {image : Bytes} (himage : image.length = l.slot)
    (outgoing : Outgoing) :
    Twins s d l offset ack (Send.storing l d image outgoing)
      (Send.storing (l.moved offset ack) d image outgoing) := by
  apply (OnLane.put (Nat.mod_lt _ hdepth) himage).op
  rintro a _ rfl
  rcases a with code | u
  · exact Twins.leaving _ _
  · exact Twins.leaving _ _

theorem Twins.putting {n : Nat} {slotLength ackLength : Nat → Nat}
    (hlane : LaneOk n slotLength ackLength s d l) {data : Bytes} (hdata : data.length ≤ l.capacity)
    {outgoing : Outgoing} (hmax : outgoing.sent + 1 ≤ u64Max) :
    Twins s d l offset ack (Send.putting l d data outgoing)
      (Send.putting (l.moved offset ack) d data outgoing) := by
  obtain ⟨image, himage, hsays⟩ := Ring.buildImage_says hlane outgoing.image
    (Nat.succ_pos outgoing.sent) hmax hdata
  have himage' : Ring.buildImage (l.moved offset ack) outgoing.image (outgoing.sent + 1) data =
      .ok image := himage
  unfold Send.putting
  rw [himage, himage']
  exact .storing hlane.depth hsays.length outgoing

/-- A send on the lane runs alike wherever the lane lies. -/
theorem Twins.starting {n : Nat} {slotLength ackLength : Nat → Nat} (safe : Bool)
    (hlane : LaneOk n slotLength ackLength s d l) {data : Bytes}
    (hdata : data.length ≤ l.capacity) :
    Twins s d l offset ack (Send.starting safe l d data)
      (Send.starting safe (l.moved offset ack) d data) := by
  apply OnLane.lockSent.op
  rintro (_ | outgoing) _ rfl
  · exact .ret rfl
  show Twins s d l offset ack (Send.holding safe l d data outgoing)
    (Send.holding safe (l.moved offset ack) d data outgoing)
  have hdepth : (l.moved offset ack).depth = l.depth := rfl
  unfold Send.holding Send.gated
  by_cases hmax : u64Max < outgoing.sent + 1
  · simp only [hmax, if_true]
    exact Twins.leaving _ _
  simp only [hmax, if_false]
  have hput : ∀ acked, Twins s d l offset ack
    (Send.putting l d data { outgoing with acked := acked })
      (Send.putting (l.moved offset ack) d data { outgoing with acked := acked }) :=
    fun acked => .putting hlane hdata (Nat.le_of_not_lt hmax)
  split
  · exact hput outgoing.acked
  split
  · exact Twins.leaving _ _
  simp only [hdepth]
  split
  swap
  · exact hput outgoing.acked
  apply OnLane.readCounter.op
  rintro (value : Nat) _ rfl
  show Twins s d l offset ack (Send.refreshed l d data outgoing value)
    (Send.refreshed (l.moved offset ack) d data outgoing value)
  unfold Send.refreshed
  simp only [hdepth]
  split
  · exact Twins.leaving _ _
  split
  · exact Twins.leaving _ _
  split
  · exact OnLane.addFull.op fun _ _ _ => Twins.leaving _ _
  · exact hput value

end Send

/-! ### Acknowledge -/

section Ack

variable {s d offset ack : Nat} {l : Lane}

theorem Twins.ackLeaving (result : Except Fail Unit) {acked acked' : List Nat}
    (h : AgreeAt s acked acked') :
    Twins s d l offset ack (Ack.leaving result acked) (Ack.leaving result acked') :=
  (OnLane.unlockAcked _ h).op fun _ _ _ => .ret rfl

theorem Twins.adding (sequence mirror : Nat) {acked acked' : List Nat}
    (h : AgreeAt s acked acked') :
    Twins s d l offset ack (Ack.adding s l sequence mirror acked)
      (Ack.adding s (l.moved offset ack) sequence mirror acked') := by
  apply (OnLane.fetchAdd _).op
  rintro a _ rfl
  rcases a with code | previous
  · exact Twins.ackLeaving _ h
  dsimp only
  split
  · exact Twins.ackLeaving _ h
  · apply Twins.ackLeaving
    unfold AgreeAt at *
    rw [List.getElem?_set_self', List.getElem?_set_self', h]

/-- An acknowledgement on the lane runs alike wherever the lane lies. -/
theorem Twins.acking (sequence : Nat) :
    Twins s d l offset ack (Ack.starting s l sequence)
      (Ack.starting s (l.moved offset ack) sequence) := by
  apply OnLane.lockAcked.op
  rintro _ _ ⟨acked, acked', rfl, rfl, hacked⟩
  show Twins s d l offset ack (Ack.holding s l sequence acked)
    (Ack.holding s (l.moved offset ack) sequence acked')
  unfold Ack.holding
  rw [← hacked]
  split
  · exact Twins.ackLeaving _ hacked
  rename_i mirror _
  split
  · exact Twins.ackLeaving _ hacked
  apply OnLane.lockSeen.op
  rintro _ _ ⟨seen, seen', rfl, rfl, hseen⟩
  have hverdict : Ack.verdict s sequence seen' = Ack.verdict s sequence seen := by
    unfold Ack.verdict
    rw [← hseen]
  show Twins s d l offset ack (Ack.compared s l sequence mirror acked seen _)
    (Ack.compared s (l.moved offset ack) sequence mirror acked' seen' _)
  rw [hverdict]
  apply (OnLane.unlockSeen _ none hseen).op
  intro _ _ _
  cases Ack.verdict s sequence seen with
  | error e => exact Twins.ackLeaving _ hacked
  | ok u => exact Twins.adding _ _ hacked

end Ack

/-! ### Poll: the turn at the lane -/

abbrev SameRead {α : Type} (v v' : List Nat) : α → List Nat → α → List Nat → Prop :=
  fun a w a' w' => a = a' ∧ w = v ∧ w' = v'

abbrev Picked (s : Nat) : List Message → List Nat → List Message → List Nat → Prop :=
  fun messages w messages' w' => messages' = fromOrigin s messages ∧ AgreeAt s w w'

section Rules

variable {α β β' : Type} {T : Matching RingCall RingCall.Answer RingCall RingCall.Answer}
  {Q : β → List Nat → β' → List Nat → Prop} {v v' : List Nat}

theorem shadowed_lift {x : Except Fail α} {f : α → RingCode (List Nat) β}
    {f' : α → RingCode (List Nat) β'} (h : ∀ a, x = .ok a → Code.Shadowed T Q (f a) v (f' a) v') :
    Code.Shadowed T Q (Code.lift x >>= f) v (Code.lift x >>= f') v' := by
  cases x with
  | error e => exact .gaveUp ⟨e, rfl⟩
  | ok a => exact h a rfl

theorem shadowed_lift_ok {α' : Type} {a : α} {a' : α'} {f : α → RingCode (List Nat) β}
    {f' : α' → RingCode (List Nat) β'} (h : Code.Shadowed T Q (f a) v (f' a') v') :
    Code.Shadowed T Q (Code.lift (.ok a) >>= f) v (Code.lift (.ok a') >>= f') v' := h

theorem shadowed_get {f : List Nat → RingCode (List Nat) β} {f' : List Nat → RingCode (List Nat) β'}
    (h : Code.Shadowed T Q (f v) v (f' v') v') :
    Code.Shadowed T Q (Code.get >>= f) v (Code.get >>= f') v' := h

theorem shadowed_set {w w' : List Nat} {f : Unit → RingCode (List Nat) β}
    {f' : Unit → RingCode (List Nat) β'} (h : Code.Shadowed T Q (f ()) w (f' ()) w') :
    Code.Shadowed T Q (Code.set w >>= f) v (Code.set w' >>= f') v' := h

end Rules

theorem AgreeAt.index {s : Nat} {v v' : List Nat} (h : AgreeAt s v v') :
    index v' s = index v s := by
  unfold MpiRma.index
  rw [← h]

theorem AgreeAt.set {s : Nat} {v v' : List Nat} (h : AgreeAt s v v') (x : Nat) :
    AgreeAt s (v.set s x) (v'.set s x) := by
  unfold AgreeAt at *
  rw [List.getElem?_set_self', List.getElem?_set_self', h]

theorem fromOrigin_snoc (s : Nat) (messages : List Message) (sequence : Nat) (data : Bytes) :
    fromOrigin s (messages ++ [⟨s, sequence, data⟩]) =
      fromOrigin s messages ++ [⟨s, sequence, data⟩] := by
  rw [fromOrigin_append]
  simp [fromOrigin]

/-- The loop over recovered frames runs alike. -/
theorem deliver_twins {s d : Nat} {l l' : Lane} (frames : List Frame) (next : Nat)
    {messages messages' : List Message} {v v' : List Nat}
    (hmessages : messages' = fromOrigin s messages)
    (hagree : AgreeAt s v v') :
    Code.Shadowed (laneMatching s d l l') (Picked s) (Ring.deliver (s : Int) frames next messages) v
      (Ring.deliver (s : Int) frames next messages') v' := by
  induction frames generalizing next messages messages' v v' with
  | nil => exact .pure ⟨hmessages, hagree⟩
  | cons frame rest ih =>
    unfold Ring.deliver
    split
    · exact ih _ hmessages hagree
    refine shadowed_lift fun gap _ => ?_
    apply Code.Shadowed.paired (OnLane.addLost gap)
    intro _ _ _
    apply shadowed_get
    apply shadowed_set
    apply ih
    · rw [fromOrigin_snoc, hmessages]
    · rw [Int.toNat_natCast]
      exact hagree.set _

section Turn

variable [Libraries] {s d offset ack : Nat} {l : Lane} {R R' : Ring} {safe : Bool}
  {length length' : Nat}
  (hR : Receives R safe length) (hR' : Receives R' safe length') (hdepth : 0 < l.depth)
  (hslot : ∀ p < l.depth, SlotIn length l p)
  (hslot' : ∀ p < l.depth, SlotIn length' (l.moved offset ack) p)

omit [Libraries] in
theorem counted_twins {α : Type} {l' : Lane} (corrupt : Prop) [Decidable corrupt] (r : α)
    (v v' : List Nat) :
    Code.Shadowed (laneMatching s d l l') (SameRead v v') (counted corrupt r) v
      (counted corrupt r) v' := by
  unfold Code.Shadowed counted
  split
  · exact OnLane.addCorrupt.op fun _ _ _ => .ret ⟨r, r, rfl, rfl, rfl, rfl, rfl⟩
  · exact .ret ⟨r, r, rfl, rfl, rfl, rfl, rfl⟩

include hR hR' hslot hslot'

omit [Libraries] in
theorem probe_twins {p : Nat} (hp : p < l.depth) (v v' : List Nat) :
    Code.Shadowed (laneMatching s d l (l.moved offset ack)) (SameRead v v') (R.probe l p) v
      (R'.probe (l.moved offset ack) p) v' := by
  unfold Code.Shadowed
  rw [probe_eq hR (hslot p hp), probe_eq hR' (hslot' p hp)]
  apply (OnLane.readHead hp).op
  rintro head _ ⟨rfl, hhead⟩
  apply (OnLane.readGuard hp).op
  rintro tail _ ⟨rfl, htail⟩
  rw [probed_eq hhead htail, probed_eq hhead htail]
  exact counted_twins _ _ v v'

theorem frame_twins {p : Nat} (hp : p < l.depth) (v v' : List Nat) :
    Code.Shadowed (laneMatching s d l (l.moved offset ack)) (SameRead v v') (R.frame l p) v
      (R'.frame (l.moved offset ack) p) v' := by
  unfold Code.Shadowed
  rw [frame_eq hR (hslot p hp), frame_eq hR' (hslot' p hp)]
  apply (OnLane.readLocal hp).op
  rintro image _ ⟨rfl, himage⟩
  rw [framed_eq (hslot p hp) hR.fits himage, framed_eq (hslot' p hp) hR'.fits himage]
  exact counted_twins _ _ v v'

theorem scan_twins (seen : Nat) {positions : List Nat} (hpos : ∀ p ∈ positions, p < l.depth)
    (frames : List Frame) (v v' : List Nat) :
    Code.Shadowed (laneMatching s d l (l.moved offset ack)) (SameRead v v')
      (R.scan l seen positions frames) v
      (R'.scan (l.moved offset ack) seen positions frames) v' := by
  induction positions generalizing frames with
  | nil => exact .pure ⟨rfl, rfl, rfl⟩
  | cons p rest ih =>
    have hp : p < l.depth := hpos p (by simp)
    have hrest : ∀ q ∈ rest, q < l.depth := fun q hq => hpos q (by simp [hq])
    unfold Ring.scan
    apply (probe_twins hR hR' hslot hslot' hp v v').bind
    rintro probed _ _ _ ⟨rfl, rfl, rfl⟩
    split
    · apply (frame_twins hR hR' hslot hslot' hp _ _).bind
      rintro found _ _ _ ⟨rfl, rfl, rfl⟩
      cases found with
      | none => exact ih hrest frames
      | some frame =>
        dsimp only
        split
        · exact ih hrest _
        · exact ih hrest _
    · exact ih hrest frames

include hdepth

/-- The loop over the lane runs alike wherever the lane lies. -/
theorem drain_twins (fuel : Nat) {messages messages' : List Message} {v v' : List Nat}
    (hmessages : messages' = fromOrigin s messages) (hagree : AgreeAt s v v') :
    Code.Shadowed (laneMatching s d l (l.moved offset ack)) (Picked s)
      (R.drain (s : Int) l fuel messages) v
      (R'.drain (s : Int) (l.moved offset ack) fuel messages') v' := by
  induction fuel generalizing messages messages' v v' with
  | zero => exact .pure ⟨hmessages, hagree⟩
  | succ fuel ih =>
    unfold Ring.drain
    apply shadowed_get
    rw [Int.toNat_natCast, hagree.index]
    refine shadowed_lift fun cursor _ => ?_
    by_cases hmax : cursor + 1 ≤ u64Max
    swap
    · have hnone : checkedAdd u64Max cursor 1 = none := if_neg hmax
      rw [hnone]
      exact .pure ⟨hmessages, hagree⟩
    have hsome : checkedAdd u64Max cursor 1 = some (cursor + 1) := if_pos hmax
    have hposition : Ring.slotPosition (l.moved offset ack) (cursor + 1) =
        .ok (l.position (cursor + 1)) := slotPosition_ok hdepth cursor
    rw [hsome]
    dsimp only
    rw [slotPosition_ok hdepth, hposition]
    refine shadowed_lift fun p hp => ?_
    obtain rfl := Except.ok.inj hp
    have hlt : l.position (cursor + 1) < l.depth := Nat.mod_lt _ hdepth
    apply (probe_twins hR hR' hslot hslot' hlt v v').bind
    rintro probed _ _ _ ⟨rfl, rfl, rfl⟩
    cases probed with
    | none => exact .pure ⟨hmessages, hagree⟩
    | some found =>
      dsimp only
      split
      · exact .pure ⟨hmessages, hagree⟩
      split
      · rw [hR.isSafe, hR'.isSafe]
        split
        · exact .throw _
        · unfold Ring.recover
          rw [Code.bind_assoc, Code.bind_assoc]
          apply (scan_twins hR hR' hslot hslot' cursor (fun p hp => List.mem_range.mp hp) []
            _ _).bind
          rintro frames _ _ _ ⟨rfl, rfl, rfl⟩
          exact deliver_twins _ _ hmessages hagree
      · apply (frame_twins hR hR' hslot hslot' hlt _ _).bind
        rintro copied _ _ _ ⟨rfl, rfl, rfl⟩
        cases copied with
        | none => exact .pure ⟨hmessages, hagree⟩
        | some frame =>
          dsimp only
          split
          · exact .pure ⟨hmessages, hagree⟩
          · apply shadowed_set
            apply ih
            · rw [fromOrigin_snoc, hmessages]
            · exact hagree.set _

end Turn

/-! ### Poll: the turns at other lanes -/

section Elsewhere

variable [Libraries] {R : Ring} {lane : Lane}

abbrev Beyond (s : Nat) (messages : List Message) (v : List Nat) : List Message → List Nat → Prop :=
  fun messages' w => fromOrigin s messages' = fromOrigin s messages ∧ AgreeAt s w v

omit [Libraries] in
theorem Window.readLocal_leaves (window : Window) (disp len : Nat) (v : List Nat) :
    (window.readLocal disp len : RingCode (List Nat) Bytes).Leaves (fun _ w => w = v) v := by
  refine .step (.lift _) fun _ => ?_
  cases len with
  | zero => exact .pure rfl
  | succ k => exact .perform (RingCall.readLocal disp (k + 1))

omit [Libraries] in
theorem Window.readLocalVolatile_leaves (window : Window) (disp len : Nat) (v : List Nat) :
    (window.readLocalVolatile disp len : RingCode (List Nat) Bytes).Leaves (fun _ w => w = v) v :=
  .step (.lift _) fun _ => .perform (RingCall.readLocalVolatile disp len)

omit [Libraries] in
theorem addCorrupt_leaves {α : Type} (a : α) (v : List Nat) :
    (addCorrupt >>= fun _ => pure a : RingCode (List Nat) α).Leaves (fun _ w => w = v) v :=
  .step (.perform RingCall.addCorrupt) fun _ => .pure rfl

omit [Libraries] in
theorem probe_leaves (p : Nat) (v : List Nat) :
    (R.probe lane p : RingCode (List Nat) (Option Nat)).Leaves (fun _ w => w = v) v := by
  refine .step (.lift _) fun offset => ?_
  refine .step (R.slots.readLocalVolatile_leaves _ _ v) fun head => ?_
  refine .step (.lift _) fun stop => .step (.lift _) fun guardAt => ?_
  refine .step (R.slots.readLocalVolatile_leaves _ _ v) fun tail => ?_
  refine .step (.lift _) fun sequence => ?_
  split
  · exact .pure rfl
  refine .step (.lift _) fun guard => ?_
  split
  · exact addCorrupt_leaves none v
  · exact .pure rfl

theorem frame_leaves (p : Nat) (v : List Nat) :
    (R.frame lane p : RingCode (List Nat) (Option Frame)).Leaves (fun _ w => w = v) v := by
  refine .step (.lift _) fun offset => ?_
  refine .step (R.slots.readLocal_leaves _ _ v) fun image => ?_
  refine .step (.lift _) fun sequence => .step (.lift _) fun guardAt => ?_
  refine .step (.lift _) fun guard => ?_
  split
  · exact .pure rfl
  split
  · exact addCorrupt_leaves none v
  refine .step (.lift _) fun len => ?_
  split
  · exact addCorrupt_leaves none v
  split
  · exact addCorrupt_leaves none v
  refine .step (.lift _) fun checked => .step (.lift _) fun stop => ?_
  refine .step (.lift _) fun data => ?_
  split
  · exact addCorrupt_leaves none v
  · exact .pure rfl

theorem scan_leaves (seen : Nat) (positions : List Nat) (frames : List Frame) (v : List Nat) :
    (R.scan lane seen positions frames : RingCode (List Nat) (List Frame)).Leaves
      (fun _ w => w = v) v := by
  induction positions generalizing frames with
  | nil => exact .pure rfl
  | cons p rest ih =>
    refine .step (probe_leaves p v) fun probed => ?_
    split
    · refine .step (frame_leaves p v) fun found => ?_
      split
      · exact ih _
      · split
        · exact ih _
        · exact ih _
    · exact ih _

variable {s o : Nat}

omit [Libraries] in
theorem Beyond.trans {a b c : List Message} {u v w : List Nat} (h : Beyond s a u b v)
    (h' : Beyond s b v c w) : Beyond s a u c w :=
  ⟨h'.1.trans h.1, h'.2.trans h.2⟩

variable (hother : o ≠ s)
include hother

omit [Libraries] in
/-- A message of another origin. -/
theorem Beyond.deliver {messages : List Message} {v : List Nat} (sequence : Nat) (data : Bytes) :
    Beyond s messages v (messages ++ [⟨o, sequence, data⟩]) (v.set o sequence) := by
  constructor
  · rw [fromOrigin_append]
    simp [fromOrigin, hother]
  · exact List.getElem?_set_ne hother

omit [Libraries] in
theorem deliver_elsewhere (frames : List Frame) (next : Nat) (messages : List Message)
    (v : List Nat) :
    (Ring.deliver (o : Int) frames next messages).Leaves (Beyond s messages v) v := by
  induction frames generalizing next messages v with
  | nil => exact .pure ⟨rfl, rfl⟩
  | cons frame rest ih =>
    unfold Ring.deliver
    split
    · exact ih _ _ _
    refine .step (.lift _) fun gap => ?_
    refine .step (.perform (RingCall.addLost gap)) fun _ => ?_
    apply (ih _ _ (v.set o frame.sequence)).mono
    intro r hr a ha
    exact (Beyond.deliver hother frame.sequence frame.data).trans (hr a ha)

theorem drain_elsewhere (fuel : Nat) (messages : List Message) (v : List Nat) :
    (R.drain (o : Int) lane fuel messages).Leaves (Beyond s messages v) v := by
  induction fuel generalizing messages v with
  | zero => exact .pure ⟨rfl, rfl⟩
  | succ fuel ih =>
    have hstop : (pure messages : RingCode (List Nat) (List Message)).Leaves
      (Beyond s messages v) v :=
      .pure ⟨rfl, rfl⟩
    refine .get_bind (.step (.lift _) fun cursor => ?_)
    split
    · exact hstop
    refine .step (.lift _) fun position => .step (probe_leaves position v) fun probed => ?_
    split
    · exact hstop
    split
    · exact hstop
    split
    · split
      · exact .throw _
      · refine .step (.step (scan_leaves _ _ _ v) fun frames => .pure rfl) fun frames => ?_
        exact deliver_elsewhere hother frames _ messages v
    · refine .step (frame_leaves position v) fun copied => ?_
      split
      · exact hstop
      split
      · exact hstop
      · apply (ih _ (v.set o _)).mono
        intro r hr a ha
        exact (Beyond.deliver hother _ _).trans (hr a ha)

end Elsewhere

/-! ### Poll: the whole loop -/

section Poll

variable [Libraries] {R R' : Ring} {s : Nat}

/-- Turns at lanes from other origins. -/
theorem pollLanes_elsewhere {os : List Nat} (hos : s ∉ os) (messages : List Message)
    (v : List Nat) :
    (R.pollLanes (os.map fun o : Nat => (o : Int)) messages).Leaves (Beyond s messages v) v := by
  induction os generalizing messages v with
  | nil => exact .pure ⟨rfl, rfl⟩
  | cons o rest ih =>
    obtain ⟨ho, hrest⟩ := List.ne_and_not_mem_of_not_mem_cons hos
    rw [List.map_cons]
    unfold Ring.pollLanes
    refine .step (.lift _) fun entry => .step (.lift _) fun lane => .get_bind ?_
    refine .step (.lift _) fun behind => .bind (drain_elsewhere (Ne.symm ho) _ messages v) ?_
    intro messages₁ v₁ hbeyond
    refine .get_bind (.step (.lift _) fun cursor => .step (.lift _) fun lag => ?_)
    refine .step (.perform (RingCall.maxLag lag)) fun _ => ?_
    apply (ih hrest messages₁ v₁).mono
    intro r hr a ha
    exact hbeyond.trans (hr a ha)

theorem pollLanes_append (xs ys : List Int) (messages : List Message) :
    R.pollLanes (xs ++ ys) messages = R.pollLanes xs messages >>= R.pollLanes ys := by
  induction xs generalizing messages with
  | nil => rfl
  | cons x rest ih => simp only [List.cons_append, Ring.pollLanes, Code.bind_assoc, ih]

variable {d offset ack : Nat} {l : Lane} {safe : Bool} {length length' : Nat}
  (hR : Receives R safe length) (hR' : Receives R' safe length') (hdepth : 0 < l.depth)
  (hslot : ∀ p < l.depth, SlotIn length l p)
  (hslot' : ∀ p < l.depth, SlotIn length' (l.moved offset ack) p)
  (hfrom : R.fromLanes[s]? = some (some l))
  (hfrom' : R'.fromLanes[s]? = some (some (l.moved offset ack)))
include hR hR' hdepth hslot hslot' hfrom hfrom'

/-- The turn at the lane. -/
theorem turn_twins {messages messages' : List Message} {v v' : List Nat}
    (hmessages : messages' = fromOrigin s messages) (hagree : AgreeAt s v v') :
    Code.Shadowed (laneMatching s d l (l.moved offset ack)) (Picked s)
      (R.pollLanes [(s : Int)] messages) v (R'.pollLanes [(s : Int)] messages') v' := by
  unfold Ring.pollLanes
  rw [Int.toNat_natCast, index_ok hfrom, index_ok hfrom']
  apply shadowed_lift_ok
  unfold orFail
  rw [okOr, okOr]
  apply shadowed_lift_ok
  apply shadowed_get
  rw [hagree.index]
  refine shadowed_lift fun behind _ => ?_
  apply (drain_twins hR hR' hdepth hslot hslot' l.depth hmessages hagree).bind
  rintro messages v messages' v' ⟨hmessages, hagree⟩
  apply shadowed_get
  rw [hagree.index]
  refine shadowed_lift fun cursor _ => shadowed_lift fun lag _ => ?_
  exact .paired (OnLane.maxLag lag) fun _ _ _ => .pure ⟨hmessages, hagree⟩

/-- The loop of a poll, and the loop of a poll that has this lane alone. -/
theorem pollLanes_twins {pre post : List Nat} (hpre : s ∉ pre) (hpost : s ∉ post)
    {v v' : List Nat} (hagree : AgreeAt s v v') :
    Code.Shadowed (laneMatching s d l (l.moved offset ack)) (Picked s)
      (R.pollLanes ((pre ++ s :: post).map fun o : Nat => (o : Int)) []) v
      (R'.pollLanes [(s : Int)] []) v' := by
  rw [List.map_append, List.map_cons, pollLanes_append]
  refine .silent_bind (R.only_pollLanes _ _) (pollLanes_elsewhere hpre [] v) ?_
  rintro messages w ⟨hnone, hkept⟩
  rw [← List.singleton_append, pollLanes_append, ← Code.bind_pure (R'.pollLanes _ _)]
  have hempty : [] = fromOrigin s messages := hnone.symm
  have hagree' : AgreeAt s w v' := hkept.trans hagree
  apply (turn_twins hR hR' hdepth hslot hslot' hfrom hfrom' hempty hagree').bind
  rintro polled u polled' u' ⟨hpolled, hcursor⟩
  refine .silent_end (R.only_pollLanes _ _) (pollLanes_elsewhere hpost polled u) ?_
  rintro last z ⟨hsame, hlast⟩
  exact ⟨hpolled.trans hsame.symm, hlast.trans hcursor⟩

/-- **A poll, and a poll of the lane alone.** -/
theorem Twins.polling {pre post : List Nat} (hpre : s ∉ pre) (hpost : s ∉ post)
    (hincoming : R.incoming = (pre ++ s :: post).map fun o : Nat => (o : Int))
    (hincoming' : R'.incoming = [(s : Int)]) :
    Twins s d l offset ack ((R.poll ()).bind fun r => .ret (.polled r.1))
      ((R'.poll ()).bind fun r => .ret (.polled r.1)) := by
  unfold Ring.poll withSeen
  rw [hincoming, hincoming']
  apply OnLane.lockSeen.op
  rintro _ _ ⟨v, v', rfl, rfl, hagree⟩
  dsimp only
  rw [Program.bind_assoc, Program.bind_assoc]
  apply Program.Shadowed.bind
    (pollLanes_twins hR hR' hdepth hslot hslot' hfrom hfrom' hpre hpost hagree)
  · rintro ⟨_, w⟩ ⟨_, w'⟩ ⟨messages, messages', rfl, rfl, hmessages, hcursor⟩
    obtain rfl := hmessages
    exact (OnLane.unlockSeen false (some (.ok messages)) hcursor).op fun _ _ _ => .ret rfl
  · rintro ⟨_, w⟩ q' ⟨e, rfl⟩
    exact .never trivial

end Poll

end MpiRma
