/-
  MpiRma/Failures.lean
  ====================
  **Puts and fetch-and-adds that report an error.**  A remote operation may fail before it
  took effect or after.  A send commits its sequence only when its put succeeds, so a
  failed put that landed leaves an image under a sequence the next send reuses; an
  acknowledgement adds to the counter before it compares and stores anything, so repeating
  one after an error may add its difference twice.  Each section says in which runs this
  does no harm, and shows a run in which it does.
-/
import MpiRma.RawMode
import Mathlib.Data.List.Infix

namespace MpiRma

/-! ### Failing puts -/

/-- All MPI calls but `put` succeed. -/
def Faults.ofPuts : Faults := ⟨true, false⟩

/-- Every message returned from a lane under a sequence a send returned carries the payload
    of that send. -/
def SendsAgree (s d : Nat) (log : List Event) : Prop :=
  ∀ q data, .returned s (.send (d : Int) data) (.sent (.ok q)) ∈ log →
    ∀ m ∈ deliveredOf s d log, m.sequence = q → m.data = data

/-- No put that succeeds lands under a sequence of which another payload has already been
    copied out of the lane. -/
def Unreplaced [Libraries] (s d : Nat) (l : Lane) (log : List Event) : Prop :=
  ∀ q data disp len older, .put s d q data true disp len :: older <:+ log →
    ∀ data', CopyOf d l [] older ⟨q, data'⟩ → data' = data

/-- The send error that would mean the counter got ahead of the sender. -/
def aheadOfSender : Fail := .error (.ring "acknowledgement exceeds sent sequence")

/-- What holds of a run of a safe ring whose puts may fail. -/
structure SendRun [Libraries] (n : Nat) (ring : Nat → Ring) (log : List Event) : Prop where
  agree : ∀ s d l, s < n → (ring s).toLanes[d]? = some (some l) → Unreplaced s d l log →
    SendsAgree s d log
  accepted : ∀ s destination data,
    .returned s (.send destination data) (.sent (.error aheadOfSender)) ∉ log

variable [Libraries] {n : Nat} {safe : Bool} {ring : Nat → Ring} {W : Wired n safe ring}
  {faults : Faults} {s d : Nat} {l : Lane}

/-- After a put that succeeded its payload stays the newest under its sequence. -/
theorem Lawful.payload_kept {log older : List Event} {q disp len : Nat} {data : Bytes}
    (h : Lawful W faults log) (hs : .put s d q data true disp len :: older <:+ log) :
    payloadOf s d q log = some data := by
  induction log with
  | nil => exact absurd (List.suffix_nil.mp hs) (List.cons_ne_nil _ _)
  | cons e rest ih =>
    rcases List.suffix_cons_iff.mp hs with heq | hbelow
    · rw [← heq]
      exact if_pos ⟨rfl, rfl, rfl⟩
    · have hrest := ih h.2 hbelow
      cases e with
      | put s' d' q' data' ok disp' len' =>
        -- a later put of the lane carries a later sequence
        have hother : ¬ (s' = s ∧ d' = d ∧ q' = q) := by
          rintro ⟨rfl, rfl, rfl⟩
          obtain ⟨l', hput, -⟩ := h.1
          have hnext := hput.next
          have hsent := h.2.sent_mono (s := s') (d := d') hbelow
          have hlast : sentOf s' d' (.put s' d' q' data true disp len :: older) = q' :=
            if_pos ⟨rfl, rfl, rfl⟩
          omega
        rw [payloadOf, if_neg hother]
        exact hrest
      | _ => exact hrest

theorem Lawful.sends_agree {log : List Event} (h : Lawful W faults log)
    (hlane : W.lane s d = some l) (hkept : Unreplaced s d l log) : SendsAgree s d log := by
  intro q data hmem m hm hsequence
  -- the send that returned `q` had put it
  obtain ⟨newer, older, hlog⟩ := List.append_of_mem hmem
  have hsuffix : .returned s (.send (d : Int) data) (.sent (.ok q)) :: older <:+ log :=
    ⟨newer, hlog.symm⟩
  obtain ⟨-, d', disp, len, hd, hput⟩ := h.event hsuffix
  obtain rfl : d = d' := by omega
  obtain ⟨newer', before, hsplit⟩ := List.append_of_mem hput
  have hputs : .put s d q data true disp len :: before <:+ log :=
    List.IsSuffix.trans ⟨newer', hsplit.symm⟩ ((List.suffix_cons _ _).trans hsuffix)
  -- and the message was copied before the put landed or after
  obtain ⟨-, p, image, earlier, hp, -, hread, himage, hframe⟩ := (h.returned hlane).copied m hm
  rw [hsequence] at hframe
  rcases List.suffix_or_suffix_of_suffix hread hputs with hearly | hlate
  · rcases List.suffix_cons_iff.mp hearly with heq | hearly
    · exact nomatch (List.cons.inj heq).1
    · exact hkept q data disp len before hputs m.data
        ⟨p, image, earlier, hp, List.nil_suffix, hearly, himage, hframe⟩
  · rcases List.suffix_cons_iff.mp hlate with heq | hlate
    · exact nomatch (List.cons.inj heq).1
    · have hlaw := h.suffix hread
      have hcopy : CopyOf d l earlier (.read d (l.slotAt p) image :: earlier) ⟨q, m.data⟩ :=
        ⟨p, image, earlier, hp, List.suffix_rfl, List.suffix_rfl, himage, hframe⟩
      obtain ⟨at', hfrom, hto, hgenuine⟩ := hcopy.genuine hlaw hlane
      have hpayload := (hlaw.suffix hto).payload_kept (hlate.trans hfrom)
      exact Option.some.inj (hgenuine.payload.symm.trans hpayload)

omit [Libraries] in
theorem SentOk.accepted {log : List Event} {destination : Int} {data : Bytes} :
    ¬ SentOk W faults log s destination data (.error aheadOfSender) := by
  unfold aheadOfSender
  rintro (⟨he, -⟩ | ⟨d, -, -, ⟨he, -⟩ | ⟨l, -, ⟨he, -⟩ | ⟨he, -⟩ | ⟨he, -⟩ | ⟨⟨code, he⟩, -⟩⟩⟩)
  all_goals simp at he

/-- **A send whose put fails corrupts nothing as long as no successful put replaces a copied
    payload.**  And no send is ever refused because the counter got ahead of it.

    `Unreplaced` is sufficient only: a poll still under way may have copied the payload that is
    replaced, and nothing disagrees before it returns. -/
theorem failed_sends {comm : Fin n → Comm} {lists : Fin n → List LaneSpec} {ring : Nat → Ring}
    (hring : Constructed n comm lists true ring)
    {c : Config RingCall RingCall.Answer World (Call n) Outcome}
    (hreach : (ringMachine n ring Faults.ofPuts).Reach (World.fresh n) c) :
    SendRun n ring c.shared.log := by
  obtain ⟨W⟩ := hring.wired
  have hinv := reach_inv W rfl hreach
  constructor
  · intro s d l hs hlane hkept
    exact hinv.lawful.sends_agree ((W.to_iff hs).mp hlane) hkept
  · intro s destination data hmem
    obtain ⟨newer, older, hlog⟩ := List.append_of_mem hmem
    obtain ⟨-, hok⟩ := hinv.lawful.event ⟨newer, hlog.symm⟩
    exact SentOk.accepted hok

/-- A put that lands and reports an error, a poll, and another payload under the same
    sequence. -/
def resendSchedule : List (Move (Call 2) Ending) :=
  [.call 0 ⟨pairSource, .send 1 [1]⟩, .finish 0 (.after 5)] ++ whole 1 pairDestination .poll ++
    whole 0 pairSource (.send 1 [2])

def unreadBefore : List Event → Bool
  | .put _ _ _ _ true _ _ :: older => older.all fun
    | .read _ _ _ => false
    | _ => true
  | _ => true

theorem unreplaced_of_unread {log : List Event} (h : ∀ older ∈ log.tails, unreadBefore older) :
    Unreplaced s d l log := by
  rintro q data disp len older hput data' ⟨p, image, earlier, -, -, hread, -⟩
  have hall := h _ ((List.mem_tails _ _).mpr hput)
  have hmem := hread.subset (List.mem_cons_self ..)
  have hno := List.all_eq_true.mp hall _ hmem
  contradiction

/-- After the failed put another payload is sent under its sequence before the poll. -/
def repeatSchedule : List (Move (Call 2) Ending) :=
  [.call 0 ⟨pairSource, .send 1 [1]⟩, .finish 0 (.after 5)] ++ whole 0 pairSource (.send 1 [2]) ++
    whole 1 pairDestination .poll

omit [Libraries] in
theorem failed_sends_pair : ∃ c,
    @ringReplay libraries 2 (pairRing true 3 8) Faults.ofPuts repeatSchedule = some c ∧
    deliveredOf 0 1 c.shared.log = [⟨0, 1, [2]⟩] ∧
    @Unreplaced libraries 0 1 (pairLane 3 8) c.shared.log ∧
    @SendRun libraries 2 (pairRing true 3 8) c.shared.log := by
  let _ := libraries
  have hrun : (ringReplay 2 (pairRing true 3 8) Faults.ofPuts repeatSchedule).map (fun c =>
      (deliveredOf 0 1 c.shared.log, decide (∀ older ∈ c.shared.log.tails, unreadBefore older))) =
      some ([⟨0, 1, [2]⟩], true) := by decide +kernel
  obtain ⟨c, hreplay, hobserved⟩ := Option.map_eq_some_iff.mp hrun
  simp only [Prod.mk.injEq, decide_eq_true_eq] at hobserved
  obtain ⟨hdelivered, hunread⟩ := hobserved
  exact ⟨c, hreplay, hdelivered, unreplaced_of_unread hunread,
    failed_sends (pair_three true) (reach_replay hreplay)⟩

omit [Libraries] in
/-- The receiver has the payload of the send that failed, the sender was told the sequence
    carries the other one. -/
theorem resend_disagrees : ¬ ∀ c, (@ringMachine libraries 2 (pairRing true 3 8) Faults.ofPuts).Reach
    (World.fresh 2) c → SendsAgree 0 1 c.shared.log := by
  let _ := libraries
  intro h
  have hrun : (ringReplay 2 (pairRing true 3 8) Faults.ofPuts resendSchedule).map (fun c =>
      (decide (.returned 0 (.send 1 [2]) (.sent (.ok 1)) ∈ c.shared.log),
        deliveredOf 0 1 c.shared.log)) = some (true, [⟨0, 1, [1]⟩]) := by decide +kernel
  obtain ⟨c, hreplay, hobserved⟩ := Option.map_eq_some_iff.mp hrun
  simp only [Prod.mk.injEq, decide_eq_true_eq] at hobserved
  obtain ⟨hreturned, hdelivered⟩ := hobserved
  have hagree := h c (reach_replay hreplay) 1 [2] hreturned ⟨0, 1, [1]⟩
  rw [hdelivered] at hagree
  have hdata := hagree (List.mem_singleton.mpr rfl) rfl
  exact absurd hdata (by decide)

/-! ### Failing acknowledgements -/

/-- All MPI calls but `fetch_add` succeed. -/
def Faults.ofAdds : Faults := ⟨false, true⟩

/-- What holds of a run whose acknowledgements free only slots that have been read, in the
    state it has reached and over the next step of `machine`. -/
structure AckRun (n : Nat) (ring : Nat → Ring)
    (machine : Machine RingCall RingCall.Answer World (Call n) Outcome)
    (c : Config RingCall RingCall.Answer World (Call n) Outcome) : Prop where
  counter : ∀ s d l, s < n → (ring s).toLanes[d]? = some (some l) →
    (c.shared.process s).acks l.ack ≤ (c.shared.process d).seen.getD s 0
  unread : ∀ s d l, s < n → (ring s).toLanes[d]? = some (some l) →
    ∀ c', machine.Step c c' → KeepsUnread s d l c.shared c'.shared

/-- **Failing acknowledgements free nothing unread as long as each adds to a counter its
    mirror agrees with.**

    This is sufficient only: a repetition adds from a mirror that has fallen behind, and still
    frees nothing when its fetch-and-add fails before it takes effect. -/
theorem failed_acks {comm : Fin n → Comm} {lists : Fin n → List LaneSpec} {ring : Nat → Ring}
    (hring : Constructed n comm lists true ring)
    {c : Config RingCall RingCall.Answer World (Call n) Outcome}
    (hreach : (mirroredMachine n ring Faults.ofAdds).Reach (World.fresh n) c) :
    AckRun n ring (mirroredMachine n ring Faults.ofAdds) c := by
  obtain ⟨W⟩ := hring.wired
  have hinv := mirrored_inv W hreach
  constructor
  · intro s d l hs hlane
    have hlane := (W.to_iff hs).mp hlane
    rw [hinv.seen_getD hlane]
    exact (hinv.lane s d l hlane).counter rfl
  · intro s d l hs hlane c' hstep
    have hinv' := mirrored_inv W (hreach.step hstep)
    exact keeps_unread rfl hinv hinv' hstep.unrestrict ((W.to_iff hs).mp hlane)

/-- `World.exec` that refuses an addition to a counter its mirror does not agree with. -/
def mirroredExec {n : Nat} (faults : Faults) (t : Nat) (call : Call n) (c : RingCall)
    (ending : Ending) (w : World) : Option (c.Answer × World) :=
  match c with
  | .fetchAdd dest disp value =>
    if (w.process call.rank).acked[dest.toNat]? = some ((w.process dest.toNat).acks disp) then
      World.exec faults t call (.fetchAdd dest disp value) ending w
    else none
  | c => World.exec faults t call c ending w

theorem exec_of_mirroredExec (t : Nat) (call : Call n) (c : RingCall) (ending : Ending) (w : World)
    (a : c.Answer) (w' : World) (h : mirroredExec faults t call c ending w = some (a, w')) :
    (mirroredMachine n ring faults).exec t call c w a w' := by
  cases c with
  | fetchAdd dest disp value =>
    dsimp only [mirroredExec] at h
    split at h
    · rename_i hagrees
      exact ⟨fun _ => hagrees, ending, h⟩
    · contradiction
  | _ => exact ⟨trivial, ending, h⟩

/-- An acknowledgement that failed before it took effect, and its repetition. -/
def refusedSchedule : List (Move (Call 2) Ending) :=
  [[1], [2]].flatMap (fun data => whole 0 pairSource (.send 1 data)) ++
    whole 1 pairDestination .poll ++
    [.call 1 ⟨pairDestination, .ack 0 2⟩, .finish 1 (.before 5)] ++
    whole 1 pairDestination (.ack 0 2)

omit [Libraries] in
theorem failed_acks_pair : ∃ c,
    (@mirroredMachine libraries 2 (pairRing true 3 8) Faults.ofAdds).replay
      (mirroredExec Faults.ofAdds)
      refusedSchedule (Machine.idle (World.fresh 2)) = some c ∧
    (c.shared.process 0).acks 0 = 2 ∧
    @AckRun libraries 2 (pairRing true 3 8)
      (@mirroredMachine libraries 2 (pairRing true 3 8) Faults.ofAdds)
      c := by
  let _ := libraries
  have hrun : ((mirroredMachine 2 (pairRing true 3 8) Faults.ofAdds).replay
      (mirroredExec Faults.ofAdds) refusedSchedule (Machine.idle (World.fresh 2))).map
      (fun c => (c.shared.process 0).acks 0) = some 2 := by decide +kernel
  obtain ⟨c, hreplay, hcounter⟩ := Option.map_eq_some_iff.mp hrun
  have hreach := Machine.reach_of_replay exec_of_mirroredExec .refl hreplay
  exact ⟨c, hreplay, hcounter, failed_acks (pair_three true) hreach⟩

/-- An acknowledgement that took effect and reported an error, and its repetition; then the
    sender fills the slots it takes for free. -/
def retrySchedule : List (Move (Call 2) Ending) :=
  whole 0 pairSource (.send 1 [1]) ++ whole 1 pairDestination .poll ++
    [.call 1 ⟨pairDestination, .ack 0 1⟩, .finish 1 (.after 5)] ++
    whole 1 pairDestination (.ack 0 1) ++
    [[2], [3], [4]].flatMap (fun data => whole 0 pairSource (.send 1 data)) ++
    [.call 0 ⟨pairSource, .send 1 [5]⟩, .commands 0 [.ok]]

omit [Libraries] in
/-- The repeated acknowledgement takes the counter past the cursor, and a send then
    overwrites a message no poll has returned. -/
theorem retry_frees_unread : ∃ c c',
    (@ringMachine libraries 2 (pairRing true 3 8) Faults.ofAdds).Reach (World.fresh 2) c ∧
    (@ringMachine libraries 2 (pairRing true 3 8) Faults.ofAdds).Step c c' ∧
    ¬ (c.shared.process 0).acks 0 ≤ (c.shared.process 1).seen.getD 0 0 ∧
    ¬ @KeepsUnread libraries 0 1 (pairLane 3 8) c.shared c'.shared := by
  let _ := libraries
  let machine := ringMachine 2 (pairRing true 3 8) Faults.ofAdds
  have hrun : (ringReplay 2 (pairRing true 3 8) Faults.ofAdds retrySchedule).bind (fun c =>
      (machine.play (World.exec Faults.ofAdds) (.commands 0 [.ok]) c).map fun c' =>
        ((c.shared.process 0).acks 0, (c.shared.process 1).seen.getD 0 0,
          Ring.frameOf (pairLane 3 8) (c.shared.slot 1 (pairLane 3 8) 1),
          Ring.frameOf (pairLane 3 8) (c'.shared.slot 1 (pairLane 3 8) 1),
          deliveredOf 0 1 c.shared.log)) =
      some (2, 1, some ⟨2, [2]⟩, some ⟨5, [5]⟩, [⟨0, 1, [1]⟩]) := by decide +kernel
  obtain ⟨c, hreplay, hrun⟩ := Option.bind_eq_some_iff.mp hrun
  obtain ⟨c', hplay, hobserved⟩ := Option.map_eq_some_iff.mp hrun
  simp only [Prod.mk.injEq] at hobserved
  obtain ⟨hcounter, hseen, hold, hnew, hdelivered⟩ := hobserved
  refine ⟨c, c', reach_replay hreplay, Machine.step_of_play exec_of_exec hplay, ?_,
    fun hkeeps => ?_⟩
  · rw [hcounter, hseen]
    decide
  · have hchanged : c'.shared.slot 1 (pairLane 3 8) 1 ≠ c.shared.slot 1 (pairLane 3 8) 1 := by
      intro hsame
      rw [hsame, hold] at hnew
      exact absurd hnew (by decide)
    obtain ⟨-, hreturned⟩ := hkeeps 1 (by decide) hchanged ⟨2, [2]⟩ hold
    rw [hdelivered] at hreturned
    exact absurd hreturned (by decide)

end MpiRma
