/-
  MpiRma/Refinement.lean
  ======================
  **Every lane is a bounded channel.**  What landed on a lane is what its channel has
  accepted, the sequences polls returned are the positions taken, and the counter at the source
  is the room given back.  Each step of the ring, of any thread at any rank, is one step of
  this channel or leaves it alone; the channel of a safe ring is gated, with the depth of
  the lane.  A put lands as a whole image here; `torn_lapped` says what else a poll can see.

  Two things are not in the law of the log and are shown here first: a safe put lands within a
  turn of the counter as it is at that moment, not only of the cursor (`RoomAt`), and a poll that
  jumps ahead on a lane had been overrun by a whole turn (`Drain.batch`).
-/
import MpiRma.Channel
import MpiRma.Acknowledged
import MpiRma.RawMode
import Mathlib.Data.List.Infix

namespace MpiRma

/-! ### The room a put has -/

def RingCall.putless : RingCall → Prop
  | .put _ _ _ => False
  | _ => True

section Room

variable [Libraries] {n : Nat} {ring : Nat → Ring} {W : Wired n true ring} {t s d : Nat} {l : Lane}
  {data : Bytes} {w w' : World}

/-- Where a send of a safe ring stands before its put: the image it is about to put has room
    within a turn of the counter. -/
inductive RoomAt (W : Wired n true ring) (t s d : Nat) (l : Lane) (data : Bytes) (w : World) :
    RingProgram Outcome → Prop where
  | starting (hidle : Holding t [] w) : RoomAt W t s d l data w (Send.starting true l d data)
  | refreshing {outgoing : Outgoing} (hsending : Sending W Faults.none t s d l outgoing w)
      (hmax : outgoing.sent + 1 ≤ u64Max) :
      RoomAt W t s d l data w (Send.refreshing l d data outgoing)
  | storing {outgoing : Outgoing} {image : Bytes}
      (hroom : outgoing.sent + 1 ≤ (w.process s).acks l.ack + l.depth)
      (hhead : ofLE (image.take WORD) = outgoing.sent + 1) :
      RoomAt W t s d l data w (Send.storing l d image outgoing)
  | past {p : RingProgram Outcome} (honly : p.Only RingCall.putless) : RoomAt W t s d l data w p

omit [Libraries] in
theorem leaving_putless (d : Nat) (result : Except Fail Nat) (outgoing : Outgoing) :
    (Send.leaving d result outgoing).Only RingCall.putless :=
  ⟨trivial, fun _ => trivial⟩

/-- A send the gate let pass puts an image with room for it. -/
theorem RoomAt.putting (hlane : W.lane s d = some l) (hdata : data.length ≤ l.capacity)
    {outgoing : Outgoing} (hmax : outgoing.sent + 1 ≤ u64Max)
    (hroom : outgoing.sent + 1 ≤ (w.process s).acks l.ack + l.depth) :
    RoomAt W t s d l data w (Send.putting l d data outgoing) := by
  obtain ⟨image, himage, hsays⟩ := Ring.buildImage_says (W.lanes hlane) outgoing.image
    (Nat.succ_pos outgoing.sent) hmax hdata
  unfold Send.putting
  rw [himage]
  exact .storing hroom hsays.head

theorem RoomAt.stable {p : RingProgram Outcome} (h : RoomAt W t s d l data w p)
    (hlane : W.lane s d = some l) (hrely : RingRely W t w w') (hinv : RingInv W Faults.none w') :
    RoomAt W t s d l data w' p := by
  cases h with
  | starting hidle => exact .starting (hidle.rely hrely)
  | refreshing hsending hmax => exact .refreshing (hsending.rely hlane hrely hinv) hmax
  | storing hroom hhead =>
    have hcounter := hrely.counters s d l hlane
    exact .storing (hroom.trans (Nat.add_le_add_right hcounter _)) hhead
  | past honly => exact .past honly

variable {call : Call n} {c : RingCall} {cont : c.Answer → RingProgram Outcome} {a : c.Answer}
  {ending : Ending}

/-- Each command of a send takes it to its next stage. -/
theorem RoomAt.step (hlane : W.lane call.rank d = some l) (hdata : data.length ≤ l.capacity)
    (hinv : RingInv W Faults.none w) (h : RoomAt W t call.rank d l data w (.op c cont))
    (hexec : World.exec Faults.none t call c ending w = some (a, w')) :
    RoomAt W t call.rank d l data w' (cont a) := by
  generalize hp : Program.op c cont = p at h
  cases h with
  | starting hidle =>
    cases hp
    obtain ⟨outgoing, rfl, -, rfl, hsending⟩ := lockSent_sending hlane hidle hinv hexec
    show RoomAt W t call.rank d l data _ (Send.holding true l d data outgoing)
    by_cases hmax : outgoing.sent + 1 ≤ u64Max
    · rw [hsending.holding_stage data hlane hmax]
      split
      · exact .refreshing hsending hmax
      · obtain ⟨hcache, -⟩ := hsending.counter_le hlane
        exact .putting hlane hdata hmax (by omega)
    · unfold Send.holding
      rw [if_pos (by omega)]
      exact .past (leaving_putless _ _ _)
  | @refreshing outgoing hsending hmax =>
    cases hp
    obtain ⟨rfl, rfl⟩ := Prod.mk.inj (Option.some.inj hexec)
    show RoomAt W t call.rank d l data w
      (Send.refreshed l d data outgoing ((w.process call.rank).acks l.ack))
    rw [hsending.refreshed_stage data hlane]
    split
    · exact .past ⟨trivial, fun _ => leaving_putless _ _ _⟩
    · refine .putting hlane hdata hmax ?_
      dsimp only
      omega
  | storing hroom hhead =>
    cases hp
    rcases a with code | u
    · exact .past (leaving_putless _ _ _)
    · exact .past (leaving_putless _ _ _)
  | past honly =>
    subst hp
    exact .past (honly.2 a)

def PutsAt (W : Wired n true ring) (t : Nat) (call : Call n) (p : RingProgram Outcome) (w : World) :
    Prop :=
  p.Only RingCall.putless ∨ ∃ (d : Nat) (data : Bytes) (l : Lane), call.request = .send d data ∧
    W.lane call.rank d = some l ∧ data.length ≤ l.capacity ∧ RoomAt W t call.rank d l data w p

theorem putsAt_start (hidle : Holding t [] w) : PutsAt W t call (Call.code ring call) w := by
  cases hcall : call.request with
  | send destination data =>
    rw [send_code W hcall]
    unfold Send.code
    split
    · exact .inl trivial
    rename_i hpeer
    split
    · exact .inl trivial
    rename_i l hlane
    split
    · exact .inl trivial
    rename_i hdata
    obtain ⟨d, rfl⟩ := Int.eq_ofNat_of_zero_le (a := destination) (by omega)
    rw [Int.toNat_natCast] at hlane ⊢
    exact .inr ⟨d, data, l, hcall, hlane, Nat.le_of_not_lt hdata, .starting hidle⟩
  | poll =>
    left
    unfold Call.code
    rw [hcall]
    apply Program.only_bind
    · refine ⟨trivial, ?_⟩
      rintro (_ | seen)
      · trivial
      refine Program.only_bind (((ring call.rank).only_pollLanes _ _ seen).mono ?_) fun r => ?_
      · intro c hc
        cases c with
        | put => exact hc
        | _ => trivial
      · exact ⟨trivial, fun _ => trivial⟩
    · exact fun _ => trivial
  | ack origin sequence =>
    left
    rw [ack_code W hcall]
    apply (ack_only W _ _ _).mono
    intro c hc
    cases c with
    | put => exact hc
    | _ => trivial

theorem puts_tracked : Tracking (ringDiscipline W Faults.none)
    (mirroredMachine n ring Faults.none) (PutsAt W) where
  start {t call w} hinv hidle := putsAt_start (Idle.holding hidle)
  step {t call c cont a w w'} hinv hinv' h := by
    rintro ⟨-, ending, hexec⟩
    rcases h with honly | ⟨d, data, l, hcall, hlane, hdata, hroom⟩
    · exact .inl (honly.2 a)
    · exact .inr ⟨d, data, l, hcall, hlane, hdata, hroom.step hlane hdata hinv hexec⟩
  stable {t u call p w w'} hu hmoves hinv hrely h := by
    rcases h with honly | ⟨d, data, l, hcall, hlane, hdata, hroom⟩
    · exact .inl honly
    · exact .inr ⟨d, data, l, hcall, hlane, hdata, hroom.stable hlane hrely hinv⟩

/-- A put of a safe ring lands within a turn of the counter. -/
theorem reach_room {x : Config RingCall RingCall.Answer World (Call n) Outcome}
    (hreach : (ringMachine n ring Faults.none).Reach (World.fresh n) x) {dest : Int} {disp : Nat}
    {image : Bytes} {cont : (RingCall.put dest disp image).Answer → RingProgram Outcome}
    (hat : x.threads t = some ⟨call, .op (.put dest disp image) cont⟩)
    (hlane : W.lane call.rank dest.toNat = some l) :
    ofLE (image.take WORD) ≤ (x.shared.process call.rank).acks l.ack + l.depth := by
  have hputs : PutsAt W t call _ x.shared := puts_tracked.reach (ring_verified W Faults.none)
    (inv_fresh W Faults.none) (fun _ _ => nofun) (reach_mirrored rfl hreach) t _ hat
  rcases hputs with honly | ⟨d, data, l', hcall, hlane', hdata, hroom⟩
  · exact honly.1.elim
  generalize hp : Program.op (RingCall.put dest disp image) cont = p at hroom
  cases hroom with
  | starting | refreshing => cases hp
  | storing hroom hhead =>
    cases hp
    obtain rfl : l = l' := Option.some.inj (hlane.symm.trans hlane')
    exact hhead.symm ▸ hroom
  | past honly =>
    subst hp
    exact honly.1.elim

end Room

/-! ### Batches -/

section Batches

variable [Libraries] {n : Nat} {safe : Bool} {ring : Nat → Ring} {W : Wired n safe ring}
  {faults : Faults} {s d : Nat} {l : Lane} {cursor : Nat} {before after : List Event}

/-- A slot that holds a later sequence than the next one shows that a whole turn has landed. -/
theorem Probed.overrun {found : Nat}
    (h : Probed d l (l.position (cursor + 1)) before (some found) after)
    (hlaw : Lawful W faults after) (hlane : W.lane s d = some l) (hfound : cursor + 1 < found) :
    cursor + l.depth < topOf s d after := by
  have hdepth := (W.lanes hlane).depth
  have hcell := Cyclic.cell_lt hdepth (cursor + 1)
  rw [Lane.position_eq_cell] at h
  obtain ⟨a, b, head, htruth⟩ := h.truth hlaw hlane hcell
  obtain ⟨hpos, -, hnewest⟩ := htruth.found found rfl
  have htop := hlaw.top_mono (s := s) (d := d) htruth.tail_after
  have hle := Cyclic.newest_le l.depth (topOf s d b) (Cyclic.cell l.depth (cursor + 1))
  have hplace : Cyclic.cell l.depth (cursor + 1) < topOf s d b := by
    by_contra hlt
    rw [Cyclic.newest_empty (by omega)] at hnewest
    omega
  obtain ⟨-, hcell', -⟩ := Cyclic.newest_written hdepth hcell hplace
  rw [← hnewest] at hcell' hle
  have := Cyclic.turn_le (Nat.succ_pos cursor) hcell'.symm hfound
  omega

/-- **What a turn delivers**: the next sequences, and then others only when it was overrun. -/
theorem Drain.batch {fuel cursor' : Nat} {frames : List Frame} {stop : Option Nat}
    (h : Drain d l safe fuel cursor before frames cursor' after stop)
    (hlaw : Lawful W faults after) (hlane : W.lane s d = some l) :
    ∃ count jump, frames.map Frame.sequence = List.range' (cursor + 1) count ++ jump ∧
      jump.Pairwise (· < ·) ∧ (∀ p ∈ jump, cursor + count < p) ∧
      (jump ≠ [] → cursor + count + l.depth < topOf s d after) := by
  have hclimb := h.climb
  induction h with
  | full | exhausted | waits | lapped | unread => exact ⟨0, [], rfl, .nil, nofun, nofun⟩
  | @scanned fuel cursor found lost before a b after frames _ hprobe hfound hscan hlost hsettle =>
    have hlawProbe := hlaw.suffix (hscan.readsIn.suffix.trans hsettle.suffix)
    have hover := hprobe.overrun hlawProbe hlane hfound
    refine ⟨0, (survivors frames).map Frame.sequence, rfl, ?_, ?_, fun _ => ?_⟩
    · exact List.pairwise_map.mpr hclimb.ascending
    · intro p hp
      obtain ⟨f, hf, rfl⟩ := List.mem_map.mp hp
      exact (hclimb.bounds f hf).1
    · exact hover.trans_le (hlaw.top_mono (hscan.readsIn.suffix.trans hsettle.suffix))
  | next hprobe hcopy hframe hsequence hrest ih =>
    obtain ⟨count, jump, hframes, hascending, hahead, hoverrun⟩ := ih hlaw hrest.climb
    refine ⟨count + 1, jump, ?_, hascending, ?_, ?_⟩
    · rw [List.map_cons, hframes, hsequence, List.range'_succ, List.cons_append]
    · intro p hp
      have := hahead p hp
      omega
    · intro hjump
      have := hoverrun hjump
      omega

end Batches

/-! ### The channel of a lane -/

/-- The channel of the lane from `s` to `d`; a raw lane has no counter. -/
def channelOf (safe : Bool) (s d : Nat) (l : Lane) (w : World) : Channel Bytes where
  accepted := (putsOf s d w.log).map Prod.snd
  taken := (deliveredOf s d w.log).map Message.sequence
  released := if safe then (w.process s).acks l.ack else 0

section Lanes

variable [Libraries] {n : Nat} {safe : Bool} {ring : Nat → Ring} {W : Wired n safe ring} {s d : Nat}
  {l : Lane} {x y : Config RingCall RingCall.Answer World (Call n) Outcome}

omit [Libraries] in
theorem channelOf_cursor (w : World) : (channelOf safe s d l w).cursor = cursorOf s d w.log := by
  unfold Channel.cursor cursorOf channelOf
  rw [List.getLast?_map]

theorem Lawful.length_accepted {w : World} (h : Lawful W Faults.none w.log) :
    (channelOf safe s d l w).accepted.length = topOf s d w.log := by
  unfold channelOf
  rw [List.length_map, h.length_puts rfl]

omit [Libraries] in
/-- Steps that leave the lane's puts, deliveries and counter alone leave its channel alone. -/
theorem channelOf_congr {w w' : World} (hputs : putsOf s d w'.log = putsOf s d w.log)
    (hdelivered : deliveredOf s d w'.log = deliveredOf s d w.log)
    (hcounter : (w'.process s).acks l.ack = (w.process s).acks l.ack) :
    channelOf safe s d l w' = channelOf safe s d l w := by
  unfold channelOf
  rw [hputs, hdelivered, hcounter]

omit [Libraries] in
theorem putsOf_cons {e : Event} (log : List Event)
    (h : ∀ q data ok disp len, e ≠ .put s d q data ok disp len) :
    putsOf s d (e :: log) = putsOf s d log := by
  cases e with
  | put s' d' q data ok disp len =>
    apply if_neg
    rintro ⟨rfl, rfl⟩
    exact h q data ok disp len rfl
  | _ => rfl

omit [Libraries] in
/-- Only a put writes down a put. -/
theorem exec_put {t : Nat} {call : Call n} {c : RingCall} {ending : Ending} {a : c.Answer}
    {w w' : World} {q : Nat} {data : Bytes} {ok : Bool} {disp len : Nat}
    (hexec : World.exec Faults.none t call c ending w = some (a, w'))
    (hlog : w'.log = .put s d q data ok disp len :: w.log) :
    ∃ dest disp' image, c = .put dest disp' image ∧ call.rank.val = s ∧ dest.toNat = d ∧
      ofLE (image.take WORD) = q := by
  have hother : ∀ {e : Event}, w'.log = e :: w.log → e = .put s d q data ok disp len := by
    intro e he
    exact (List.cons.inj (he.symm.trans hlog)).1
  unfold World.exec at hexec
  cases c with
  | put dest disp' image =>
    cases ending with
    | ok =>
      obtain ⟨-, rfl⟩ := Prod.mk.inj (Option.some.inj hexec)
      injection hother rfl with hs hd hq
      exact ⟨dest, disp', image, rfl, hs, hd, hq⟩
    | before | after => contradiction
  | lockSent i | lockAcked =>
    have hsame := World.lock_log hexec
    exact absurd (hlog.symm.trans hsame) (List.cons_ne_self _ _)
  | lockSeen =>
    dsimp only at hexec
    split at hexec
    · contradiction
    · rename_i x w₁ hlocked
      obtain ⟨-, rfl⟩ := Prod.mk.inj (Option.some.inj hexec)
      have hsame := World.lock_log hlocked
      split at hother
      · have := hother (congrArg _ hsame)
        contradiction
      · rename_i hno
        rw [if_neg hno] at hlog
        exact absurd (hlog.symm.trans hsame) (List.cons_ne_self _ _)
  | unlockSent i outgoing poison | unlockAcked acked poison =>
    dsimp only at hexec
    split at hexec
    · obtain ⟨-, rfl⟩ := Prod.mk.inj (Option.some.inj hexec)
      exact absurd hlog.symm (List.cons_ne_self _ _)
    · contradiction
  | unlockSeen seen poison polled =>
    dsimp only at hexec
    split at hexec
    · obtain ⟨-, rfl⟩ := Prod.mk.inj (Option.some.inj hexec)
      cases polled with
      | none => exact absurd hlog.symm (List.cons_ne_self _ _)
      | some result =>
        have := hother rfl
        contradiction
    · contradiction
  | readLocal disp len | readLocalVolatile disp len | addLost count =>
    obtain ⟨-, rfl⟩ := Prod.mk.inj (Option.some.inj hexec)
    have := hother rfl
    contradiction
  | readCounter disp | addCorrupt | maxLag lag | addFull =>
    obtain ⟨-, rfl⟩ := Prod.mk.inj (Option.some.inj hexec)
    exact absurd hlog.symm (List.cons_ne_self _ _)
  | fetchAdd dest disp value =>
    cases ending with
    | ok =>
      obtain ⟨-, rfl⟩ := Prod.mk.inj (Option.some.inj hexec)
      exact absurd hlog.symm (List.cons_ne_self _ _)
    | before | after => contradiction

omit [Libraries] in
/-- A command that changes a counter writes nothing down. -/
theorem exec_counter {t : Nat} {call : Call n} {c : RingCall} {ending : Ending} {a : c.Answer}
    {w w' : World} {i disp : Nat} (hexec : World.exec Faults.none t call c ending w = some (a, w'))
    (hchanged : (w'.process i).acks disp ≠ (w.process i).acks disp) : w'.log = w.log := by
  by_cases hadds : ∃ dest disp value, c = .fetchAdd dest disp value
  · obtain ⟨dest, disp, value, rfl⟩ := hadds
    cases ending with
    | ok =>
      obtain ⟨-, rfl⟩ := Prod.mk.inj (Option.some.inj hexec)
      rfl
    | before | after => contradiction
  · push Not at hadds
    exact absurd (congrFun ((exec_framed hexec).acks hadds i) disp) hchanged

/-! ### Its steps -/

/-- A put on a lane is accepted by its channel. -/
theorem channel_accepts {w w' : World} {q : Nat} {data : Bytes} {ok : Bool} {disp len : Nat}
    (hlaw : Lawful W Faults.none w.log) (hlog : w'.log = .put s d q data ok disp len :: w.log)
    (hnext : q = sentOf s d w.log + 1)
    (hcounter : (w'.process s).acks l.ack = (w.process s).acks l.ack)
    (hroom : safe = true → q ≤ (w.process s).acks l.ack + l.depth) :
    Channel.Step safe l.depth (channelOf safe s d l w) (channelOf safe s d l w') := by
  have hafter : channelOf safe s d l w' = { channelOf safe s d l w with
      accepted := (channelOf safe s d l w).accepted ++ [data] } := by
    unfold channelOf
    rw [hlog, hcounter, putsOf, if_pos ⟨rfl, rfl⟩, List.map_append]
    rfl
  rw [hafter]
  apply Channel.Step.accept
  intro hsafe
  have hnow := hroom hsafe
  rw [hlaw.length_accepted, ← hlaw.sent_eq_top rfl]
  show _ < (if safe then _ else 0) + l.depth
  rw [if_pos hsafe]
  omega

/-- What a poll returns from a lane is taken from its channel. -/
theorem channel_taken {w w' : World} {messages : List Message} (hlane : W.lane s d = some l)
    (hlaw : Lawful W Faults.none (.polled d (.ok messages) :: w.log))
    (hlog : w'.log = .polled d (.ok messages) :: w.log)
    (hcounter : (w'.process s).acks l.ack = (w.process s).acks l.ack) :
    Channel.Step safe l.depth (channelOf safe s d l w) (channelOf safe s d l w') := by
  obtain ⟨messages', a, b, frames, hok, hturn⟩ := hlaw.turn hlane
  obtain rfl := Except.ok.inj hok
  have hlawStop := hlaw.2.suffix hturn.stop
  obtain ⟨count, jump, hframes, hascending, hahead, hoverrun⟩ := hturn.drain.batch hlawStop hlane
  have hcursor : (channelOf safe s d l w).cursor = cursorOf s d w.log := channelOf_cursor w
  have hlength : (channelOf safe s d l w).accepted.length = topOf s d w.log :=
    hlaw.2.length_accepted
  -- what is delivered has landed
  have hlanded : ∀ p ∈ frames.map Frame.sequence, p ≤ topOf s d w.log := by
    intro p hp
    obtain ⟨f, hf, rfl⟩ := List.mem_map.mp hp
    obtain ⟨older, -, holder, hgenuine⟩ := hturn.drain.genuine hlawStop hlane f hf
    exact hgenuine.top.trans (hlaw.2.top_mono (holder.trans hturn.stop))
  have hafter : channelOf safe s d l w' = { channelOf safe s d l w with
      taken := (channelOf safe s d l w).taken ++
        (List.range' ((channelOf safe s d l w).cursor + 1) count ++ jump) } := by
    rw [hcursor, ← hframes]
    unfold channelOf
    rw [hlog, hcounter, deliveredOf_polled, hturn.messages, List.map_append, List.map_map]
    rfl
  rw [hafter]
  apply Channel.Step.take
  · rw [hcursor, hlength]
    cases count with
    | zero => exact hlaw.2.cursor_le_top hlane
    | succ count =>
      apply hlanded
      rw [hframes]
      apply List.mem_append_left
      rw [List.mem_range'_1]
      omega
  · exact hascending
  · intro p hp
    rw [hcursor, hlength]
    refine ⟨hahead p hp, hlanded p ?_⟩
    rw [hframes]
    exact List.mem_append_right _ hp
  · intro hjump
    rw [hcursor, hlength]
    exact (hoverrun hjump).trans_le (hlaw.2.top_mono hturn.stop)

/-- **Each step of the ring is at most one step of a lane's channel.** -/
theorem channel_step (W : Wired n safe ring)
    (hreach : (ringMachine n ring Faults.none).Reach (World.fresh n) x)
    (hstep : (ringMachine n ring Faults.none).Step x y) (hlane : W.lane s d = some l) :
    Relation.ReflGen (Channel.Step safe l.depth) (channelOf safe s d l x.shared)
      (channelOf safe s d l y.shared) := by
  have hinv := reach_inv W rfl hreach
  have hinv' := reach_inv W rfl (hreach.step hstep)
  cases hstep with
  | call => exact .refl
  | «return» => exact .refl
  | @command w threads t call c cont a w' hat hexec =>
    have hstep := Machine.Step.command (M := ringMachine n ring Faults.none)
      t call c cont a w' hat hexec
    obtain ⟨ending, hexec⟩ := hexec
    have hframed := exec_framed hexec
    have hlaw : Lawful W Faults.none w.log := hinv.lawful
    have hlaw' : Lawful W Faults.none w'.log := hinv'.lawful
    by_cases hcounter : (w'.process s).acks l.ack = (w.process s).acks l.ack
    swap
    · -- an acknowledgement: the log is the same
      have hlog := exec_counter hexec hcounter
      cases safe with
      | false =>
        have hsame : channelOf false s d l w' = channelOf false s d l w := by
          unfold channelOf
          rw [hlog]
          rfl
        show Relation.ReflGen _ (channelOf false s d l w) (channelOf false s d l w')
        rw [hsame]
      | true =>
        apply Relation.ReflGen.single
        have hafter : channelOf true s d l w' = { channelOf true s d l w with
            released := (w'.process s).acks l.ack } := by
          unfold channelOf
          rw [hlog]
          rfl
        show Channel.Step true l.depth (channelOf true s d l w) (channelOf true s d l w')
        rw [hafter]
        apply Channel.Step.release
        · have hmono : (w.process s).acks l.ack ≤ (w'.process s).acks l.ack :=
            counter_mono hreach hstep hlane
          exact Nat.lt_of_le_of_ne hmono (Ne.symm hcounter)
        · rw [channelOf_cursor, ← hlog]
          exact (hinv'.lane s d l hlane).counter rfl
    rcases hframed.log with hlog | ⟨e, he, hlog⟩
    · show Relation.ReflGen _ (channelOf safe s d l w) (channelOf safe s d l w')
      rw [channelOf_congr (by rw [hlog]) (by rw [hlog]) hcounter]
    rw [hlog] at hlaw'
    by_cases hput : ∃ q data ok disp len, e = .put s d q data ok disp len
    · obtain ⟨q, data, ok, disp, len, rfl⟩ := hput
      obtain ⟨l', hput, -⟩ := hlaw'.1
      apply Relation.ReflGen.single
      apply channel_accepts hlaw hlog hput.next hcounter
      rintro rfl
      obtain ⟨dest, disp', image, rfl, rfl, rfl, rfl⟩ := exec_put hexec hlog
      exact reach_room hreach hat hlane
    by_cases hpolled : ∃ messages, e = .polled d (.ok messages)
    · obtain ⟨messages, rfl⟩ := hpolled
      exact .single (channel_taken hlane hlaw' hlog hcounter)
    · push Not at hput hpolled
      have hputs : putsOf s d w'.log = putsOf s d w.log := by
        rw [hlog]
        exact putsOf_cons w.log hput
      have hdelivered : deliveredOf s d w'.log = deliveredOf s d w.log := by
        rw [hlog]
        rcases hlaw'.delivered_step (s := s) (d := d) with ⟨messages, heq⟩ | hsame
        · exact absurd heq (hpolled messages)
        · exact hsame
      show Relation.ReflGen _ (channelOf safe s d l w) (channelOf safe s d l w')
      rw [channelOf_congr hputs hdelivered hcounter]

/-! ### Refinement -/

omit [Libraries] in
theorem channelOf_fresh : channelOf safe s d l (World.fresh n) = Channel.empty := by
  cases safe with
  | false => rfl
  | true => rfl

/-- The channel of a lane is at any time one a run of channels leads to. -/
theorem channel_run (W : Wired n safe ring)
    (hreach : (ringMachine n ring Faults.none).Reach (World.fresh n) x)
    (hlane : W.lane s d = some l) : Channel.Run safe l.depth (channelOf safe s d l x.shared) := by
  induction hreach with
  | refl =>
    show Channel.Run safe l.depth (channelOf safe s d l (World.fresh n))
    rw [channelOf_fresh]
  | tail hbefore hstep ih =>
    have hchannel := channel_step W hbefore hstep hlane
    exact ih.trans hchannel.to_reflTransGen

/-- The payloads polls returned are those received through the channel. -/
theorem channel_received (hlane : W.lane s d = some l) {w : World}
    (h : Lawful W Faults.none w.log) :
    (channelOf safe s d l w).received = (deliveredOf s d w.log).map Message.data := by
  have hfound : ∀ m ∈ deliveredOf s d w.log,
      ((putsOf s d w.log).map Prod.snd)[m.sequence - 1]? = some m.data := by
    intro m hm
    obtain ⟨i, hi, hat⟩ := List.mem_iff_getElem.mp (h.delivered_put rfl hlane hm)
    have hnumber := congrArg (fun xs => xs[i]?) (h.puts_numbered rfl (s := s) (d := d))
    have hlength := h.length_puts rfl (s := s) (d := d)
    simp only [List.getElem?_map, List.getElem?_eq_getElem hi, hat, Option.map_some] at hnumber
    rw [List.getElem?_range' (by omega)] at hnumber
    have hsequence := Option.some.inj hnumber
    rw [List.getElem?_map, show m.sequence - 1 = i by omega, List.getElem?_eq_getElem hi, hat]
    rfl
  unfold Channel.received channelOf
  dsimp only
  rw [List.filterMap_map]
  generalize deliveredOf s d w.log = delivered at hfound
  induction delivered with
  | nil => rfl
  | cons m rest ih =>
    rw [List.filterMap_cons, List.map_cons, Function.comp_apply, hfound m (List.mem_cons_self ..)]
    rw [ih fun m' hm' => hfound m' (List.mem_cons_of_mem _ hm')]

end Lanes

section Refinement

variable [Libraries] {n : Nat} {safe : Bool} {comm : Fin n → Comm} {lists : Fin n → List LaneSpec}
  {ring : Nat → Ring} {s d : Nat} {l : Lane}
  {x : Config RingCall RingCall.Answer World (Call n) Outcome}

/-- What makes a lane of a ring a channel: its state is that of a channel, what is returned is
    what is received, and no step of the ring does more than one step of the channel.  So a lane
    returns a part of what was put on it, in order, and a safe one a prefix of it, with never
    more than a turn landed beyond the counter. -/
structure IsChannel (n : Nat) (ring : Nat → Ring) (safe : Bool) (s d : Nat) (l : Lane)
    (x : Config RingCall RingCall.Answer World (Call n) Outcome) : Prop where
  run : Channel.Run safe l.depth (channelOf safe s d l x.shared)
  received : (deliveredOf s d x.shared.log).map Message.data =
    (channelOf safe s d l x.shared).received
  step : ∀ y, (ringMachine n ring Faults.none).Step x y →
    Relation.ReflGen (Channel.Step safe l.depth) (channelOf safe s d l x.shared)
      (channelOf safe s d l y.shared)
  part : ((deliveredOf s d x.shared.log).map Message.data).Sublist
    ((putsOf s d x.shared.log).map Prod.snd)
  lossless : safe = true → (deliveredOf s d x.shared.log).map Message.data =
    ((putsOf s d x.shared.log).map Prod.snd).take (cursorOf s d x.shared.log)
  bounded : safe = true →
    (putsOf s d x.shared.log).length ≤ (x.shared.process s).acks l.ack + l.depth

/-- **A ring refines its channels**: every lane is a bounded channel of its depth, gated when the
    ring is safe, in every interleaving of the steps of any number of threads at each rank, where
    a put lands as a whole image. -/
theorem lanes_are_channels (hring : Constructed n comm lists safe ring)
    (hreach : (ringMachine n ring Faults.none).Reach (World.fresh n) x) (hs : s < n)
    (hat : (ring s).toLanes[d]? = some (some l)) : IsChannel n ring safe s d l x := by
  obtain ⟨W⟩ := hring.wired
  have hlane := (W.to_iff hs).mp hat
  have hreceived := (channel_received hlane (reach_inv W rfl hreach).lawful).symm
  have hrun := channel_run W hreach hlane
  have hsound := hrun.sound
  constructor
  · exact hrun
  · exact hreceived
  · exact fun y hstep => channel_step W hreach hstep hlane
  · exact hreceived ▸ hsound.received_sublist
  · rintro rfl
    rw [hreceived, hsound.received_gated, channelOf_cursor]
    rfl
  · rintro rfl
    have hroom := hsound.room rfl
    unfold channelOf at hroom
    rwa [List.length_map] at hroom

omit [Libraries] in
theorem lanes_are_channels_pair : ∃ x y,
    @ringReplay libraries 2 (pairRing true 3 8) Faults.none queueSchedule = some x ∧
    @ringReplay libraries 2 (pairRing false 3 8) Faults.none
      (scanSchedule ++ [.finish 2 .ok]) = some y ∧
    @IsChannel libraries 2 (pairRing true 3 8) true 0 1 (pairLane 3 8) x ∧
    @IsChannel libraries 2 (pairRing false 3 8) false 0 1 (pairLane 3 8) y ∧
    (deliveredOf 0 1 x.shared.log).map Message.sequence = [1, 2, 3, 4] ∧
    (deliveredOf 0 1 y.shared.log).map Message.sequence = [4, 6, 8] := by
  let _ := libraries
  have hx : (ringReplay 2 (pairRing true 3 8) Faults.none queueSchedule).map
      (fun c => (deliveredOf 0 1 c.shared.log).map Message.sequence) = some [1, 2, 3, 4] := by
    decide +kernel
  have hy : (ringReplay 2 (pairRing false 3 8) Faults.none (scanSchedule ++ [.finish 2 .ok])).map
      (fun c => (deliveredOf 0 1 c.shared.log).map Message.sequence) = some [4, 6, 8] := by
    decide +kernel
  obtain ⟨x, hx, hdelivered⟩ := Option.map_eq_some_iff.mp hx
  obtain ⟨y, hy, hdelivered'⟩ := Option.map_eq_some_iff.mp hy
  exact ⟨x, y, hx, hy, lanes_are_channels (pair_three true) (reach_replay hx) (by decide) rfl,
    lanes_are_channels (pair_three false) (reach_replay hy) (by decide) rfl, hdelivered,
    hdelivered'⟩

/-! ### Receivers that keep up -/

/-- At no moment of a run did the lane have more unread messages than `depth`. -/
def KeptUp (s d depth : Nat) (log : List Event) : Prop :=
  ∀ log' ∈ log.tails, (putsOf s d log').length ≤ cursorOf s d log' + depth

omit [Libraries] in
theorem KeptUp.suffix {depth : Nat} {log log' : List Event} (h : KeptUp s d depth log)
    (hs : log' <:+ log) : KeptUp s d depth log' := by
  intro older holder
  exact h older ((List.mem_tails _ _).mpr (((List.mem_tails _ _).mp holder).trans hs))

/-- **A receiver that keeps up loses nothing**: when a lane never had more unread messages than
    slots, what polls returned is a prefix of what was put, in a raw ring too.  A put lands as a
    whole image. -/
theorem keeping_up (hring : Constructed n comm lists safe ring)
    (hreach : (ringMachine n ring Faults.none).Reach (World.fresh n) x) (hs : s < n)
    (hat : (ring s).toLanes[d]? = some (some l)) (hkept : KeptUp s d l.depth x.shared.log) :
    (deliveredOf s d x.shared.log).map Message.entry <+: putsOf s d x.shared.log := by
  obtain ⟨W⟩ := hring.wired
  have hlane := (W.to_iff hs).mp hat
  have hlaw := (reach_inv W rfl hreach).lawful
  have hchannels : Relation.ReflTransGen (fun a b => Channel.Step safe l.depth a b ∧
      a.accepted.length ≤ a.cursor + l.depth) Channel.empty (channelOf safe s d l x.shared) := by
    clear hlaw
    induction hreach with
    | refl =>
      show Relation.ReflTransGen _ _ (channelOf safe s d l (World.fresh n))
      rw [channelOf_fresh]
    | @tail a b hbefore hstep ih =>
      have hkept := hkept.suffix (step_log hstep)
      have hkeeps : (channelOf safe s d l a.shared).accepted.length ≤
          (channelOf safe s d l a.shared).cursor + l.depth := by
        rw [channelOf_cursor]
        unfold channelOf
        rw [List.length_map]
        exact hkept _ ((List.mem_tails _ _).mpr List.suffix_rfl)
      have hchannel := channel_step W hbefore hstep hlane
      generalize channelOf safe s d l b.shared = c at hchannel
      rcases hchannel with _ | hone
      · exact ih hkept
      · exact (ih hkept).tail ⟨hone, hkeeps⟩
  have hcursor := hlaw.cursor_le_top hlane
  have hmem : ∀ e ∈ (deliveredOf s d x.shared.log).map Message.entry,
      e ∈ putsOf s d x.shared.log := by
    intro e he
    obtain ⟨m, hm, rfl⟩ := List.mem_map.mp he
    exact hlaw.delivered_put rfl hlane hm
  have hpart := hlaw.entries_eq rfl 0 (cursorOf s d x.shared.log) hmem ?_ (by omega)
  · rw [hpart, List.drop_zero]
    exact List.take_prefix _ _
  · have htaken := Channel.taken_of_keeping_up hchannels
    rw [channelOf_cursor] at htaken
    rw [List.map_map]
    exact htaken

omit [Libraries] in
/-- The schedule of the safe queue, in a raw ring. -/
theorem keeping_up_pair : ∃ x,
    @ringReplay libraries 2 (pairRing false 3 8) Faults.none queueSchedule = some x ∧
    (putsOf 0 1 x.shared.log).map Prod.fst = [1, 2, 3, 4] ∧
    (deliveredOf 0 1 x.shared.log).map Message.entry <+: putsOf 0 1 x.shared.log := by
  let _ := libraries
  have hx : (ringReplay 2 (pairRing false 3 8) Faults.none queueSchedule).map
      (fun c => ((putsOf 0 1 c.shared.log).map Prod.fst,
        c.shared.log.tails.all fun log' =>
          decide ((putsOf 0 1 log').length ≤ cursorOf 0 1 log' + 3))) =
      some ([1, 2, 3, 4], true) := by decide +kernel
  obtain ⟨x, hx, hboth⟩ := Option.map_eq_some_iff.mp hx
  obtain ⟨hputs, hkept⟩ := Prod.mk.inj hboth
  refine ⟨x, hx, hputs, keeping_up (pair_three false) (reach_replay hx) (by decide) rfl ?_⟩
  intro log' hlog'
  exact of_decide_eq_true (List.all_eq_true.mp hkept log' hlog')

end Refinement

end MpiRma
