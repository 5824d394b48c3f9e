/-
  MpiRma/SafeMode.lean
  ====================
  **Safe mode is an exactly-once queue.**  Over every run of a safe ring in which the MPI
  calls succeed: on each lane the polls return a prefix of what was put, no step overwrites
  a slot whose message no poll has returned, and no operation returns an error a correct
  caller would not expect.  That the logged messages are those the polls return is
  `returned_polled`.
-/
import MpiRma.Reports
import MpiRma.Verified

namespace MpiRma

def World.slot (w : World) (d : Nat) (l : Lane) (p : Nat) : Bytes :=
  (w.process d).slots.read (l.slotAt p) l.slot

/-! ### Which steps change a slot -/

section Changes

variable {n : Nat} {faults : Faults} {t : Nat} {call : Call n} {w w' : World}

/-- Only a put that lands changes a slot window. -/
theorem exec_slots {c : RingCall} {ending : Ending} {answer : c.Answer}
    (h : World.exec faults t call c ending w = some (answer, w')) :
    (∀ i, (w'.process i).slots = (w.process i).slots) ∨
      ∃ dest disp image data ok, w' = w.land call.rank dest disp image data ok := by
  have hkeep : ∀ {f : Process → Process} {rank : Nat}, (∀ p, (f p).slots = p.slots) →
      ∀ i, ((w.modify rank f).process i).slots = (w.process i).slots :=
    fun hf i => World.modify_keeps Process.slots hf w _ i
  have hlock : ∀ {α : Type} {m : Mutex} {data : α} {x : Option α} {w₁ : World},
      w.lock t m data = some (x, w₁) → ∀ i, (w₁.process i).slots = (w.process i).slots := by
    intro α m data x w₁ hlock i
    unfold World.lock at hlock
    split at hlock
    · split at hlock
      · obtain ⟨-, rfl⟩ := Prod.mk.inj (Option.some.inj hlock)
        rfl
      · obtain ⟨-, rfl⟩ := Prod.mk.inj (Option.some.inj hlock)
        rfl
    · exact nomatch hlock
  unfold World.exec at h
  cases c with
  | lockSent i => exact .inl (hlock h)
  | lockAcked => exact .inl (hlock h)
  | lockSeen =>
    dsimp only at h
    split at h
    · exact nomatch h
    · rename_i x w₁ hlocked
      obtain ⟨-, rfl⟩ := Prod.mk.inj (Option.some.inj h)
      left
      intro i
      split
      · exact hlock hlocked i
      · exact hlock hlocked i
  | unlockSent i outgoing poison =>
    dsimp only at h
    split at h
    · obtain ⟨-, rfl⟩ := Prod.mk.inj (Option.some.inj h)
      exact .inl (hkeep (f := fun p => { p with sent := Function.update p.sent i outgoing })
        fun _ => rfl)
    · exact nomatch h
  | unlockSeen seen poison polled =>
    dsimp only at h
    split at h
    · obtain ⟨-, rfl⟩ := Prod.mk.inj (Option.some.inj h)
      left
      cases polled with
      | none => exact hkeep (f := fun p => { p with seen := seen }) fun _ => rfl
      | some result => exact hkeep (f := fun p => { p with seen := seen }) fun _ => rfl
    · exact nomatch h
  | unlockAcked acked poison =>
    dsimp only at h
    split at h
    · obtain ⟨-, rfl⟩ := Prod.mk.inj (Option.some.inj h)
      exact .inl (hkeep (f := fun p => { p with acked := acked }) fun _ => rfl)
    · exact nomatch h
  | readLocal disp len | readLocalVolatile disp len | readCounter disp =>
    obtain ⟨-, rfl⟩ := Prod.mk.inj (Option.some.inj h)
    exact .inl fun i => rfl
  | put dest disp image =>
    dsimp only at h
    split at h
    · obtain ⟨-, rfl⟩ := Prod.mk.inj (Option.some.inj h)
      exact .inr ⟨_, _, _, _, _, rfl⟩
    · split at h
      · obtain ⟨-, rfl⟩ := Prod.mk.inj (Option.some.inj h)
        exact .inl fun i => rfl
      · exact nomatch h
    · split at h
      · obtain ⟨-, rfl⟩ := Prod.mk.inj (Option.some.inj h)
        exact .inr ⟨_, _, _, _, _, rfl⟩
      · exact nomatch h
  | fetchAdd dest disp value =>
    dsimp only at h
    split at h
    · obtain ⟨-, rfl⟩ := Prod.mk.inj (Option.some.inj h)
      exact .inl (hkeep fun _ => rfl)
    · split at h
      · obtain ⟨-, rfl⟩ := Prod.mk.inj (Option.some.inj h)
        exact .inl fun i => rfl
      · exact nomatch h
    · split at h
      · obtain ⟨-, rfl⟩ := Prod.mk.inj (Option.some.inj h)
        exact .inl (hkeep fun _ => rfl)
      · exact nomatch h
  | addLost count =>
    obtain ⟨-, rfl⟩ := Prod.mk.inj (Option.some.inj h)
    exact .inl (hkeep (f := fun p => { p with lost := (p.lost + count) % (u64Max + 1) })
      fun _ => rfl)
  | addCorrupt | maxLag lag | addFull =>
    obtain ⟨-, rfl⟩ := Prod.mk.inj (Option.some.inj h)
    exact .inl (hkeep fun _ => rfl)

end Changes

variable [Libraries] {n : Nat} {safe : Bool} {ring : Nat → Ring} {W : Wired n safe ring}
  {faults : Faults} {s d : Nat} {l : Lane}

/-- A step that changes a slot of a lane is a put on that lane, of a sequence of that slot. -/
theorem slot_changed {x y : Config RingCall RingCall.Answer World (Call n) Outcome}
    (hinv : RingInv W faults y.shared) (hstep : (ringMachine n ring faults).Step x y)
    (hlane : W.lane s d = some l) {p : Nat} (hp : p < l.depth)
    (hchanged : y.shared.slot d l p ≠ x.shared.slot d l p) :
    ∃ q data ok, PutOk W faults x.shared.log s d q data ok l ∧ p = l.position q := by
  cases hstep with
  | call t k hfree => exact absurd rfl hchanged
  | «return» t k r hat => exact absurd rfl hchanged
  | @command w th t call c cont a w' hat hexec =>
    obtain ⟨ending, hexec⟩ := hexec
    rcases exec_slots hexec with hsame | ⟨dest, disp, image, data, ok, rfl⟩
    · refine absurd ?_ hchanged
      show ((w'.process d).slots.read _ _) = ((w.process d).slots.read _ _)
      rw [hsame d]
    · obtain ⟨l', hput, hdisp, hlen⟩ := hinv.lawful.1
      have hpos := (W.lanes hput.lane).position_lt (ofLE (image.take WORD))
      by_contra hnot
      apply hchanged
      show ((World.land w call.rank dest disp image data ok).process d).slots.read _ _ =
        (w.process d).slots.read _ _
      by_cases hd : d = dest
      swap
      · rw [World.land, World.record, World.modify_other hd]
      subst hd
      rw [World.land, World.record, World.modify_self]
      refine Memory.read_write_disjoint ?_
      rw [hlen, hdisp]
      by_cases hs : call.rank = s
      · subst hs
        obtain rfl : l = l' := Option.some.inj (hlane.symm.trans hput.lane)
        have hne : p ≠ l.position (ofLE (image.take WORD)) := fun heq => hnot ⟨_, _, _, hput, heq⟩
        exact l.slot_apart hne
      · have happart := W.apart hput.lane hlane hs
        have h₁ := l'.slot_inside hpos
        have h₂ := l.slot_inside hp
        have h₃ : l'.offset ≤ l'.slotAt (l'.position (ofLE (image.take WORD))) :=
          Nat.le_add_right _ _
        have h₄ : l.offset ≤ l.slotAt p := Nat.le_add_right _ _
        omega

/-! ### No unread message is overwritten -/

/-- Every message a step overwrites on a lane was copied out and returned by a poll. -/
def KeepsUnread (s d : Nat) (l : Lane) (w w' : World) : Prop :=
  ∀ p < l.depth, w'.slot d l p ≠ w.slot d l p → ∀ f, Ring.frameOf l (w.slot d l p) = some f →
    CopyOf d l [] w.log f ∧ ⟨s, f.sequence, f.data⟩ ∈ deliveredOf s d w.log

theorem keeps_unread {ring : Nat → Ring} {W : Wired n true ring} (hputs : faults.puts = false)
    {x y : Config RingCall RingCall.Answer World (Call n) Outcome}
    (hinv : RingInv W faults x.shared) (hinv' : RingInv W faults y.shared)
    (hstep : (ringMachine n ring faults).Step x y) (hlane : W.lane s d = some l) :
    KeepsUnread s d l x.shared y.shared := by
  intro p hp hchanged f hf
  have hdepth := (W.lanes hlane).depth
  have hlaw := hinv.lawful
  obtain ⟨q, data, ok, hput, hplace⟩ := slot_changed hinv' hstep hlane hp hchanged
  -- the slot held a sequence of the same cell, so a turn or more older
  have hcontent : contentAt s d l x.shared.log p = some f :=
    (((hinv.lane s d l hlane).slots p hp).frame).symm.trans hf
  obtain ⟨hpos, hnewest, hpayload⟩ := hlaw.content hcontent
  have hwritten : p < topOf s d x.shared.log := by
    by_contra hle
    rw [Cyclic.newest_empty (by omega)] at hnewest
    omega
  obtain ⟨-, hcell, -⟩ := Cyclic.newest_written hdepth hp hwritten
  have hle := Cyclic.newest_le l.depth (topOf s d x.shared.log) p
  have hsent := hlaw.sent_eq_top hputs (s := s) (d := d)
  have hnext := hput.next
  have hturn : f.sequence + l.depth ≤ q := by
    refine Cyclic.turn_le hpos ?_ (by omega)
    rw [hnewest, hcell, hplace]
    rfl
  have hroom := hput.room rfl
  -- so the polls have returned it
  have hmem : f.sequence ∈ (deliveredOf s d x.shared.log).map Message.sequence := by
    rw [hlaw.safe_delivered hlane, List.mem_range'_1]
    omega
  obtain ⟨m, hm, hsequence⟩ := List.mem_map.mp hmem
  obtain ⟨horigin, hcopy⟩ := (hlaw.returned hlane).copied m hm
  have hdata : m.data = f.data := by
    have hreturned := (hlaw.payload_put hputs).mpr (hlaw.delivered_put hputs hlane hm)
    rw [hsequence, hpayload] at hreturned
    exact (Option.some.inj hreturned).symm
  obtain ⟨origin, sequence, payload⟩ := m
  dsimp only at horigin hsequence hdata
  subst horigin hsequence hdata
  exact ⟨hcopy, hm⟩

/-! ### The queue -/

/-- A lane is an exactly-once queue: the puts are numbered, and what polls returned is a
    prefix of them. -/
structure Fifo (s d : Nat) (log : List Event) : Prop where
  numbered : (putsOf s d log).map Prod.fst = List.range' 1 (putsOf s d log).length
  returned : (deliveredOf s d log).map Message.entry <+: putsOf s d log

theorem Lawful.length_puts {log : List Event} (hputs : faults.puts = false)
    (h : Lawful W faults log) : (putsOf s d log).length = topOf s d log := by
  have := congrArg List.length (h.puts_numbered hputs (s := s) (d := d))
  rwa [List.length_map, List.length_range'] at this

theorem Lawful.fifo {ring : Nat → Ring} {W : Wired n true ring} {log : List Event}
    (hputs : faults.puts = false) (h : Lawful W faults log) (hlane : W.lane s d = some l) :
    Fifo s d log := by
  refine ⟨?_, ?_⟩
  · rw [h.length_puts hputs]
    exact h.puts_numbered hputs
  · have hcursor := h.cursor_le_top hlane
    have hmem : ∀ e ∈ (deliveredOf s d log).map Message.entry, e ∈ putsOf s d log := by
      intro e he
      obtain ⟨m, hm, rfl⟩ := List.mem_map.mp he
      exact h.delivered_put hputs hlane hm
    have hpart := h.entries_eq hputs 0 (cursorOf s d log) hmem ?_ (by omega)
    · rw [hpart, List.drop_zero]
      exact List.take_prefix _ _
    · rw [List.map_map, ← h.safe_delivered hlane]
      rfl

/-- What the calls on a safe ring may return when the MPI calls succeed. -/
def SafeReturn (ring : Nat → Ring) (log : List Event) (rank : Nat) :
    Request → Outcome → Prop
  | .poll, .polled result => ∃ messages, result = .ok messages ∧ .polled rank (.ok messages) ∈ log
  | .ack origin sequence, .acked result =>
    ∀ l, 0 ≤ origin → (ring rank).fromLanes[origin.toNat]? = some (some l) →
      result = .ok () ∨ ∃ received, result = .error (.error (.ack origin sequence received)) ∧
        received < sequence
  | .send destination data, .sent result =>
    ∀ l, 0 ≤ destination → (ring rank).toLanes[destination.toNat]? = some (some l) →
      (∃ sequence, result = .ok sequence ∧ (sequence, data) ∈ putsOf rank destination.toNat log) ∨
      result = .error (.error .full) ∨
      (result = .error (.error (.payload data.length l.capacity)) ∧ l.capacity < data.length) ∨
      (result = .error (.error (.ring "sequence number exhausted")) ∧
        (putsOf rank destination.toNat log).length = u64Max)
  | _, _ => False

omit [Libraries] in
theorem mem_putsOf {log : List Event} {q : Nat} {data : Bytes} {ok : Bool} {disp len : Nat}
    (h : .put s d q data ok disp len ∈ log) : (q, data) ∈ putsOf s d log := by
  induction log with
  | nil => exact nomatch h
  | cons e rest ih =>
    rcases List.mem_cons.mp h with rfl | h
    · simp [putsOf]
    · exact (putsOf_suffix (List.suffix_cons e rest)).subset (ih h)

theorem ReturnedOk.safeReturn {ring : Nat → Ring} {W : Wired n true ring} {log log' : List Event}
    {rank : Nat} (hrank : rank < n) {request : Request} {outcome : Outcome}
    (hlaw : Lawful W Faults.none log') (hs : log <:+ log')
    (h : ReturnedOk W Faults.none log rank request outcome) :
    SafeReturn ring log' rank request outcome := by
  cases request with
  | poll =>
    cases outcome with
    | polled result =>
      obtain ⟨messages, hok, hmem⟩ := h
      exact ⟨messages, hok, hs.subset hmem⟩
    | _ => exact h.elim
  | ack origin sequence =>
    cases outcome with
    | acked result =>
      intro l horigin hlane
      have hlane := (W.from_iff hrank).mp hlane
      rcases result with (e | _) | u
      · rcases h with ⟨-, hout⟩ | ⟨s, rfl, -, -, ⟨-, hnone⟩ | ⟨l', -, hack | ⟨-, hadds⟩⟩⟩
        · have := (W.lanes hlane).source
          omega
        · rw [Int.toNat_natCast, hnone] at hlane
          exact nomatch hlane
        · obtain ⟨received, rfl, hlow⟩ := hack
          exact .inr ⟨received, rfl, hlow⟩
        · exact nomatch hadds
      · exact h.elim
      · exact .inl rfl
    | _ => exact h.elim
  | send destination data =>
    cases outcome with
    | sent result =>
      intro l hdestination hlane
      have hlane := (W.to_iff hrank).mp hlane
      rcases result with (e | _) | sequence
      · rcases h with ⟨-, hout⟩ | ⟨d, rfl, -, ⟨-, hnone⟩ | ⟨l', hlane', hcases⟩⟩
        · have := (W.lanes hlane).destination
          omega
        · rw [Int.toNat_natCast, hnone] at hlane
          exact nomatch hlane
        · rw [Int.toNat_natCast] at hlane ⊢
          obtain rfl : l = l' := Option.some.inj (hlane.symm.trans hlane')
          rcases hcases with ⟨rfl, hwide⟩ | ⟨rfl, -⟩ | ⟨rfl, hmax⟩ | ⟨-, hputs⟩
          · exact .inr (.inr (.inl ⟨rfl, hwide⟩))
          · exact .inr (.inl rfl)
          · have hmono := hlaw.sent_mono (s := rank) (d := d) hs
            have htop := hlaw.top_le_max (s := rank) (d := d)
            refine .inr (.inr (.inr ⟨rfl, ?_⟩))
            rw [hlaw.length_puts rfl]
            rw [hlaw.sent_eq_top rfl] at hmono
            omega
          · exact nomatch hputs
      · exact h.elim
      · obtain ⟨d, disp, len, rfl, hmem⟩ := h
        rw [Int.toNat_natCast]
        exact .inl ⟨sequence, rfl, mem_putsOf (hs.subset hmem)⟩
    | _ => exact h.elim

structure SafeRun (n : Nat) (ring : Nat → Ring)
    (c : Config RingCall RingCall.Answer World (Call n) Outcome) : Prop where
  fifo : ∀ s d l, s < n → (ring s).toLanes[d]? = some (some l) → Fifo s d c.shared.log
  unread : ∀ s d l, s < n → (ring s).toLanes[d]? = some (some l) →
    ∀ c', (ringMachine n ring Faults.none).Step c c' → KeepsUnread s d l c.shared c'.shared
  returned : ∀ rank request outcome, .returned rank request outcome ∈ c.shared.log →
    SafeReturn ring c.shared.log rank request outcome

/-- **Safe mode is an exactly-once queue that overwrites nothing unread.**  For every lane
    list a safe ring can be constructed from and every interleaving of the steps of any
    number of threads at each rank. -/
theorem safe_fifo {comm : Fin n → Comm} {lists : Fin n → List LaneSpec} {ring : Nat → Ring}
    (hring : Constructed n comm lists true ring)
    {c : Config RingCall RingCall.Answer World (Call n) Outcome}
    (hreach : (ringMachine n ring Faults.none).Reach (World.fresh n) c) : SafeRun n ring c := by
  obtain ⟨W⟩ := hring.wired
  have hinv := reach_inv W rfl hreach
  refine ⟨fun s d l hs hlane => ?_, fun s d l hs hlane c' hstep => ?_,
    fun rank request outcome hmem => ?_⟩
  · exact hinv.lawful.fifo rfl ((W.to_iff hs).mp hlane)
  · exact keeps_unread rfl hinv (reach_inv W rfl (hreach.step hstep)) hstep ((W.to_iff hs).mp hlane)
  · obtain ⟨newer, older, hlog⟩ := List.append_of_mem hmem
    have hsuffix : .returned rank request outcome :: older <:+ c.shared.log := ⟨newer, hlog.symm⟩
    obtain ⟨hrank, hok⟩ := hinv.lawful.event hsuffix
    exact hok.safeReturn hrank hinv.lawful ((List.suffix_cons _ _).trans hsuffix)

/-- The second message lands while a poll reads the first slot, the fourth fills the slot an
    acknowledgement freed. -/
def queueSchedule : List (Move (Call 2) Ending) :=
  whole 0 pairSource (.send 1 [1, 2]) ++
    [.call 2 ⟨pairDestination, .poll⟩, .commands 2 [.ok, .ok, .ok]] ++
    whole 1 pairSource (.send 1 [3]) ++ [.finish 2 .ok] ++ whole 0 pairSource (.send 1 []) ++
    whole 2 pairDestination (.ack 0 2) ++ whole 0 pairSource (.send 1 [4]) ++
    whole 2 pairDestination .poll

omit [Libraries] in
theorem safe_fifo_pair : ∃ c,
    @ringReplay libraries 2 (pairRing true 3 8) Faults.none queueSchedule = some c ∧
    deliveredOf 0 1 c.shared.log = [⟨0, 1, [1, 2]⟩, ⟨0, 2, [3]⟩, ⟨0, 3, []⟩, ⟨0, 4, [4]⟩] ∧
    @SafeRun libraries 2 (pairRing true 3 8) c := by
  let _ := libraries
  have hrun : (ringReplay 2 (pairRing true 3 8) Faults.none queueSchedule).map
      (fun c => deliveredOf 0 1 c.shared.log) =
      some [⟨0, 1, [1, 2]⟩, ⟨0, 2, [3]⟩, ⟨0, 3, []⟩, ⟨0, 4, [4]⟩] := by decide +kernel
  obtain ⟨c, hreplay, hdelivered⟩ := Option.map_eq_some_iff.mp hrun
  exact ⟨c, hreplay, hdelivered, safe_fifo (pair_three true) (reach_replay hreplay)⟩

end MpiRma
