/-
  MpiRma/Polling.lean
  ===================
  **`poll` is verified.**  `pollLanes_runs` describes a poll against reads of anything; under
  the discipline the reads show the slots as the log has them and the log grows by events
  of others only, so the same description holds of the poll at work.  From it the result,
  the cursors and the law of the event that ends the poll follow.
-/
import MpiRma.Contract

namespace MpiRma

/-! ### The commands of a poll -/

def RingCall.receiving : RingCall → Prop
  | .readLocal _ _ => True
  | .readLocalVolatile _ _ => True
  | .addLost _ => True
  | .addCorrupt => True
  | .maxLag _ => True
  | .lockSent _ => False
  | .unlockSent _ _ _ => False
  | .lockSeen => False
  | .unlockSeen _ _ _ => False
  | .lockAcked => False
  | .unlockAcked _ _ => False
  | .readCounter _ => False
  | .put _ _ _ => False
  | .fetchAdd _ _ _ => False
  | .addFull => False

section Only

open Code RingCall

variable {σ : Type}

theorem only_addCorrupt : (addCorrupt : RingCode σ Unit).Only receiving := Only.perform trivial

theorem Window.only_readLocal (window : Window) (disp len : Nat) :
    (window.readLocal disp len : RingCode σ Bytes).Only receiving := by
  refine Only.bind (Only.lift _) fun _ => ?_
  cases len with
  | zero => exact Only.pure _
  | succ k => exact Only.perform (c := RingCall.readLocal disp (k + 1)) trivial

theorem Window.only_readLocalVolatile (window : Window) (disp len : Nat) :
    (window.readLocalVolatile disp len : RingCode σ Bytes).Only receiving :=
  Only.bind (Only.lift _) fun _ => Only.perform (c := RingCall.readLocalVolatile disp len) trivial

variable [Libraries] (R : Ring) (lane : Lane)

omit [Libraries] in
theorem Ring.only_probe (position : Nat) :
    (R.probe lane position : RingCode σ (Option Nat)).Only receiving := by
  refine Only.bind (Only.lift _) fun offset => ?_
  refine Only.bind (R.slots.only_readLocalVolatile _ _) fun head => ?_
  refine Only.bind (Only.lift _) fun stop => Only.bind (Only.lift _) fun guardAt => ?_
  refine Only.bind (R.slots.only_readLocalVolatile _ _) fun tail => ?_
  refine Only.bind (Only.lift _) fun sequence => ?_
  split
  · exact Only.pure _
  · refine Only.bind (Only.lift _) fun guard => ?_
    split
    · exact Only.bind only_addCorrupt fun _ => Only.pure _
    · exact Only.pure _

theorem Ring.only_frame (position : Nat) :
    (R.frame lane position : RingCode σ (Option Frame)).Only receiving := by
  refine Only.bind (Only.lift _) fun offset => ?_
  refine Only.bind (R.slots.only_readLocal _ _) fun image => ?_
  refine Only.bind (Only.lift _) fun sequence => Only.bind (Only.lift _) fun guardAt => ?_
  refine Only.bind (Only.lift _) fun guard => ?_
  split
  · exact Only.pure _
  split
  · exact Only.bind only_addCorrupt fun _ => Only.pure _
  refine Only.bind (Only.lift _) fun len => ?_
  split
  · exact Only.bind only_addCorrupt fun _ => Only.pure _
  split
  · exact Only.bind only_addCorrupt fun _ => Only.pure _
  refine Only.bind (Only.lift _) fun checked => Only.bind (Only.lift _) fun stop => ?_
  refine Only.bind (Only.lift _) fun data => ?_
  split
  · exact Only.bind only_addCorrupt fun _ => Only.pure _
  · exact Only.pure _

theorem Ring.only_scan (seen : Nat) (positions : List Nat) (frames : List Frame) :
    (R.scan lane seen positions frames : RingCode σ (List Frame)).Only receiving := by
  induction positions generalizing frames with
  | nil => exact Only.pure _
  | cons position rest ih =>
    refine Only.bind (R.only_probe lane position) fun probed => ?_
    split
    · refine Only.bind (R.only_frame lane position) fun found => ?_
      split
      · exact ih _
      · split
        · exact ih _
        · exact ih _
    · exact ih _

omit [Libraries] in
theorem Ring.only_deliver (origin : Int) (frames : List Frame) (next : Nat)
    (messages : List Message) : (Ring.deliver origin frames next messages).Only receiving := by
  induction frames generalizing next messages with
  | nil => exact Only.pure _
  | cons frame rest ih =>
    unfold Ring.deliver
    split
    · exact ih _ _
    · refine Only.bind (Only.lift _) fun gap => ?_
      refine Only.bind (Only.perform (c := RingCall.addLost gap) trivial) fun _ => ?_
      exact Only.bind Only.get fun seen => Only.bind (Only.set _) fun _ => ih _ _

theorem Ring.only_drain (origin : Int) (fuel : Nat) (messages : List Message) :
    (R.drain origin lane fuel messages).Only receiving := by
  induction fuel generalizing messages with
  | zero => exact Only.pure _
  | succ fuel ih =>
    refine Only.bind Only.get fun seen => Only.bind (Only.lift _) fun cursor => ?_
    split
    · exact Only.pure _
    refine Only.bind (Only.lift _) fun position => ?_
    refine Only.bind (R.only_probe lane position) fun probed => ?_
    split
    · exact Only.pure _
    split
    · exact Only.pure _
    split
    · split
      · exact Only.throw _
      · refine Only.bind ?_ fun frames => Ring.only_deliver _ _ _ _
        exact Only.bind (R.only_scan lane _ _ _) fun frames => Only.pure _
    · refine Only.bind (R.only_frame lane position) fun copied => ?_
      split
      · exact Only.pure _
      · split
        · exact Only.pure _
        · exact Only.bind (Only.set _) fun _ => ih _

theorem Ring.only_pollLanes (origins : List Int) (messages : List Message) :
    (R.pollLanes origins messages).Only receiving := by
  induction origins generalizing messages with
  | nil => exact Only.pure _
  | cons origin rest ih =>
    refine Only.bind (Only.lift _) fun entry => Only.bind (Only.lift _) fun lane => ?_
    refine Only.bind Only.get fun before => Only.bind (Only.lift _) fun behind => ?_
    refine Only.bind (R.only_drain lane _ _ _) fun messages => ?_
    refine Only.bind Only.get fun after => Only.bind (Only.lift _) fun cursor => ?_
    refine Only.bind (Only.lift _) fun lag => ?_
    exact Only.bind (Only.perform (c := RingCall.maxLag lag) trivial) fun _ => ih _

end Only

/-! ### The log while a poll is open -/

/-- Events of others neither end a poll nor deliver anything to its rank. -/
theorem Extends.still {d : Nat} {a b : List Event} (h : Extends d a b) :
    pollOpen d b = pollOpen d a ∧ pollStart d b = pollStart d a ∧
      ∀ s, deliveredOf s d b = deliveredOf s d a := by
  obtain ⟨added, rfl, hadded⟩ := h
  induction added with
  | nil => exact ⟨rfl, rfl, fun _ => rfl⟩
  | cons e rest ih =>
    obtain ⟨hopen, hstart, hdelivered⟩ := ih fun x hx => hadded x (by simp [hx])
    have hnot := hadded e (by simp)
    cases e with
    | polling rank =>
      have hne : ¬ rank = d := hnot
      simp only [List.cons_append, pollOpen, pollStart, if_neg hne, deliveredOf]
      exact ⟨hopen, hstart, hdelivered⟩
    | polled rank result =>
      have hne : ¬ rank = d := hnot
      cases result with
      | ok messages =>
        simp only [List.cons_append, pollOpen, pollStart, if_neg hne, deliveredOf]
        exact ⟨hopen, hstart, hdelivered⟩
      | error e =>
        simp only [List.cons_append, pollOpen, pollStart, if_neg hne, deliveredOf]
        exact ⟨hopen, hstart, hdelivered⟩
    | _ => exact ⟨hopen, hstart, hdelivered⟩

variable [Libraries] {n : Nat} {safe : Bool} {ring : Nat → Ring} {W : Wired n safe ring}
  {faults : Faults} {t : Nat} {d : Nat} {w w' : World} {start : List Event}

/-- Thread `t` is in a poll of rank `d` that took `seen` when the log was `start`. -/
structure Polling (W : Wired n safe ring) (faults : Faults) (t d : Nat) (start : List Event)
    (w : World) : Prop where
  inv : RingInv W faults w
  holding : Holding t [.seen d] w
  opened : pollOpen d w.log = true
  start : pollStart d w.log = start

theorem Polling.held (h : Polling W faults t d start w) : w.holder (.seen d) = some t :=
  h.holding.held (List.mem_singleton.mpr rfl)

theorem Polling.rely (h : Polling W faults t d start w) (hrely : RingRely W t w w')
    (hinv : RingInv W faults w') : Polling W faults t d start w' := by
  obtain ⟨hopen, hstart, -⟩ := (hrely.seen d h.held).log.still
  exact ⟨hinv, h.holding.rely hrely, hopen.trans h.opened, hstart.trans h.start⟩

/-- A read of the slot window shows the slots as the log has them. -/
theorem RingInv.readOk (h : RingInv W faults w) (disp len : Nat) :
    ReadOk W w.log d disp ((w.process d).slots.read disp len) := by
  intro s l hlane p hp hstart hend
  rw [Memory.length_read] at hend ⊢
  refine ⟨_, (h.lane s d l hlane).slots p hp, ?_⟩
  have hdisp : l.slotAt p + (disp - l.slotAt p) = disp := by omega
  rw [view, Memory.drop_read, hdisp, Memory.take_read _ _ _ _ (by omega)]

/-- A read by a poll. -/
theorem Polling.read (h : Polling W faults t d start w) (disp len : Nat) :
    Preserved W faults t w (w.record (.read d disp ((w.process d).slots.read disp len))) ∧
      Polling W faults t d start (w.record (.read d disp ((w.process d).slots.read disp len))) := by
  have hkept : Preserved W faults t w
      (w.record (.read d disp ((w.process d).slots.read disp len))) :=
    h.inv.note trivial (h.inv.readOk disp len) fun d' hown => (hown : d = d') ▸ h.held
  exact ⟨hkept, hkept.inv, h.holding, h.opened, h.start⟩

/-- Counting a statistic in a poll. -/
theorem Polling.count (h : Polling W faults t d start w) {f : Process → Process}
    (hf : Statistic f) (hlost : ∀ p, (f p).lost = p.lost) :
    Preserved W faults t w (w.modify d f) ∧ Polling W faults t d start (w.modify d f) := by
  have hkept := h.inv.count (t := t) hf hlost (.inr h.held)
  exact ⟨hkept, hkept.inv, h.holding, h.opened, h.start⟩

/-- A poll under the discipline meets nothing a poll against anything does not meet. -/
theorem Polling.step (call : Call n) {c : RingCall} {Q : c.Answer → World → Prop}
    (hc : c.receiving) (h : Polling W faults t call.rank start w)
    (hobserved : observed call.rank c Q w) :
    ringContract W faults t call c
      (fun a w' => Polling W faults t call.rank start w' ∧ Q a w') w := by
  refine ringContract_intro fun w₁ hrely hinv ending a w₂ _ hexec => ?_
  have hmine := h.rely hrely hinv
  have hapart := hrely.seen call.rank h.held
  cases c with
  | readLocal disp len =>
    obtain ⟨rfl, rfl⟩ := Prod.mk.inj (Option.some.inj hexec)
    obtain ⟨hkept, hnow⟩ := hmine.read disp len
    exact ⟨hkept, hnow, hobserved _ _ ⟨w₁, hapart, Memory.length_read _ _ _, rfl⟩⟩
  | readLocalVolatile disp len =>
    obtain ⟨rfl, rfl⟩ := Prod.mk.inj (Option.some.inj hexec)
    obtain ⟨hkept, hnow⟩ := hmine.read disp len
    exact ⟨hkept, hnow, hobserved _ _ ⟨w₁, hapart, Memory.length_read _ _ _, rfl⟩⟩
  | addLost count =>
    obtain ⟨rfl, rfl⟩ := Prod.mk.inj (Option.some.inj hexec)
    have hkept := hinv.addLost count hmine.held hmine.opened
    exact ⟨hkept, ⟨hkept.inv, hmine.holding, hmine.opened, hmine.start⟩,
      hobserved _ _ ⟨w₁, hapart, rfl⟩⟩
  | addCorrupt =>
    obtain ⟨rfl, rfl⟩ := Prod.mk.inj (Option.some.inj hexec)
    obtain ⟨hkept, hnow⟩ := hmine.count
      (f := fun p => { p with corrupt := (p.corrupt + 1) % (u64Max + 1) })
      ⟨fun _ => rfl, fun _ => rfl, fun _ => rfl, fun _ => rfl, fun _ => rfl⟩ (fun _ => rfl)
    exact ⟨hkept, hnow, hobserved _ _ ⟨w₁, hapart, rfl⟩⟩
  | maxLag lag =>
    obtain ⟨rfl, rfl⟩ := Prod.mk.inj (Option.some.inj hexec)
    obtain ⟨hkept, hnow⟩ := hmine.count
      (f := fun p => { p with maxLag := max p.maxLag lag })
      ⟨fun _ => rfl, fun _ => rfl, fun _ => rfl, fun _ => rfl, fun _ => rfl⟩ (fun _ => rfl)
    exact ⟨hkept, hnow, hobserved _ _ ⟨w₁, hapart, rfl⟩⟩
  | _ => exact hc.elim

/-! ### The end of a poll -/

theorem PollRun.unlapped {lanes : List (Nat × Lane)} {seen seen' : List Nat}
    {before after : List Event} {messages : List Message} {lags : List Nat}
    {stop : Option (Nat × Nat × Nat)}
    (h : PollRun d safe lanes seen before messages seen' after lags stop)
    (hlaw : Lawful W faults after) (hlanes : ∀ p ∈ lanes, W.lane p.1 d = some p.2)
    (hdistinct : lanes.Pairwise fun a b => a.1 ≠ b.1)
    (hroom : safe = true → ∀ p ∈ lanes, ∀ cursor, seen[p.1]? = some cursor →
      topOf p.1 d after ≤ cursor + p.2.depth) : stop = none := by
  induction h with
  | done => rfl
  | @lane o cursor cursor' l rest seen seen' before a b after frames messages lags stop hcursor
      hdrain hother hrest ih =>
    obtain ⟨hfirst, hdistinct'⟩ := List.pairwise_cons.mp hdistinct
    refine ih hlaw (fun p hp => hlanes p (by simp [hp])) hdistinct' fun hsafe p hp c hc => ?_
    refine hroom hsafe p (by simp [hp]) c ?_
    rwa [List.getElem?_set_ne (hfirst p hp)] at hc
  | @lapped o cursor cursor' found l rest seen before after frames hcursor hdrain =>
    cases safe with
    | false => exact absurd hdrain.raw_unlapped (by simp)
    | true =>
      have htop := hroom rfl (o, l) (by simp) cursor hcursor
      exact absurd (hdrain.unlapped hlaw (hlanes (o, l) (by simp)) htop) (by simp)

omit [Libraries] in
theorem ReadsIn.extend {P : Nat → Prop} {a b c : List Event} (h : ReadsIn d P a b)
    (h' : Extends d b c) : ReadsIn d P a c := h.trans h'.readsIn

theorem PollSum.extend {lanes : List (Nat × Lane)} {seen seen' : List Nat}
    {before after after' : List Event} {messages : List Message} {lags : List Nat}
    (h : PollSum d safe lanes seen seen' before after messages lags)
    (hextends : Extends d after after') :
    PollSum d safe lanes seen seen' before after' messages lags where
  turns o l hmem := by
    obtain ⟨cursor, cursor', a, b, frames, h₁, h₂, h₃, h₄, h₅, h₆⟩ := h.turns o l hmem
    exact ⟨cursor, cursor', a, b, frames, h₁, h₂, h₃, h₄, h₅, h₆.extend hextends⟩
  others := h.others
  length := h.length
  lags := h.lags
  lost := by
    rw [hextends.lostSum]
    exact h.lost
  suffix := h.suffix.trans hextends.suffix
  origins := h.origins

/-- The cursors a poll stores are those the log has after it. -/
theorem PollSum.seen_eq {seen' : List Nat} {log : List Event} {messages : List Message}
    {lags : List Nat} (hopen : pollOpen d log = true)
    (h : PollSum d safe (W.into d) (seenOf n d (pollStart d log)) seen' (pollStart d log) log
      messages lags) : seen' = seenOf n d (.polled d (.ok messages) :: log) := by
  have hlength : ∀ log, (seenOf n d log).length = n := fun log => by simp [seenOf]
  refine List.ext_getElem? fun o => ?_
  by_cases ho : o < n
  swap
  · rw [List.getElem?_eq_none (by rw [h.length, hlength]; omega),
      List.getElem?_eq_none (by rw [hlength]; omega)]
  have hstart : cursorOf o d (pollStart d log) = cursorOf o d log := (cursorOf_pollStart hopen).symm
  rw [seenOf_get ho, cursorOf_polled]
  cases hlane : W.lane o d with
  | none =>
    have hother : ∀ p ∈ W.into d, p.1 ≠ o := by
      rintro ⟨o', l⟩ hmem rfl
      rw [W.mem_into, hlane] at hmem
      contradiction
    obtain ⟨hsame, hnothing⟩ := h.others o hother
    rw [hsame, hnothing, seenOf_get ho, hstart]
    rfl
  | some l =>
    obtain ⟨cursor, cursor', a, b, frames, hc, hc', hdrain, hmessages, -, -⟩ :=
      h.turns o l (W.mem_into.mpr hlane)
    rw [seenOf_get ho, hstart] at hc
    rw [hc', hdrain.climb.last, hmessages, List.getLast?_map, Option.map_map,
      Option.some.inj hc]
    rfl

/-! ### The whole poll -/

theorem wp_lockSeen_poll {rank : Fin n} {Q : Option (List Nat) → World → Prop}
    (hidle : Holding t [] w)
    (h : ∀ start w', pollOpen rank start = true → pollStart rank start = start →
      w'.log = start → Polling W faults t rank start w' → Q (some (seenOf n rank start)) w') :
    ringContract W faults t ⟨rank, .poll⟩ .lockSeen Q w := by
  refine ringContract_intro fun w₁ hrely hinv ending a w₂ _ hexec => ?_
  unfold World.exec at hexec
  dsimp only at hexec
  split at hexec
  · exact nomatch hexec
  rename_i answer w' hlock
  obtain ⟨hfree, rfl, rfl⟩ := lock_some hinv.clean hlock
  simp only [Option.isSome_some, and_self, if_true, Option.some.injEq] at hexec
  obtain ⟨rfl, rfl⟩ := hexec
  have hclosed := (hinv.rank rank rank.isLt).closed hfree
  have htake := hinv.take (t := t) hfree
  have hheld : (w₁.take t (.seen rank)).holder (.seen rank) = some t := by simp [World.take]
  have hpolling := htake.inv.polling hheld hclosed
  refine ⟨htake.trans hpolling, ?_⟩
  rw [(hinv.rank rank rank.isLt).seen]
  have hopen : pollOpen rank (.polling rank :: w₁.log) = true := if_pos rfl
  have hstart : pollStart rank (.polling rank :: w₁.log) = .polling rank :: w₁.log := if_pos rfl
  exact h (.polling rank :: w₁.log) _ hopen hstart rfl
    ⟨hpolling.inv, (hidle.rely hrely).take, hopen, hstart⟩

/-- Every run of `poll` keeps the discipline and returns messages. -/
theorem poll_verified {rank : Fin n} (hidle : Holding t [] w) :
    (Call.code ring ⟨rank, .poll⟩).wp (ringContract W faults t ⟨rank, .poll⟩)
      ((ringDiscipline W faults).Returns (mirroredMachine n ring faults) t ⟨rank, .poll⟩) w := by
  unfold Call.code Ring.poll withSeen
  dsimp only
  rw [Program.wp_bind]
  refine wp_lockSeen_poll hidle fun start w₁ hopen hstart hlog hpolling => ?_
  dsimp only
  rw [Program.wp_bind]
  -- the poll against anything, and its commands under the discipline
  have hobserved : ((ring rank).pollLanes (ring rank).incoming [] (seenOf n rank start)).wp
      (observed rank) (fun r w' => ∃ polled seen' lags stop,
        PollRun rank safe (W.into rank) (seenOf n rank start) start polled seen' w'.log lags stop ∧
        r = polledLanes polled seen' stop) w₁ := by
    rw [W.incoming_into rank.isLt]
    refine pollLanes_runs (W.receives rank.isLt) (W.incomingLanes rank.isLt) (by simp [seenOf])
      fun polled seen' lags stop w' hrun _ _ => ⟨polled, seen', lags, stop, ?_, rfl⟩
    rwa [hlog] at hrun
  refine Program.wp_mono ringContract_monotone ?_ (Program.wp_only ringContract_monotone
    (fun c Q w hc hI hT => Polling.step ⟨rank, .poll⟩ hc hI hT)
    ((ring rank).only_pollLanes _ _ _) hpolling hobserved)
  rintro r w₂ ⟨hnow, polled, seen', lags, stop, hrun, rfl⟩
  have hcursor : ∀ s, cursorOf s rank w₂.log = cursorOf s rank start := by
    intro s
    rw [cursorOf_pollStart hnow.opened, hnow.start]
  obtain rfl : stop = none := by
    refine hrun.unlapped hnow.inv.lawful (fun p hp => W.mem_into.mp hp) W.lanesOk.distinct ?_
    rintro rfl ⟨o, l⟩ hmem cursor hc
    have hlane := W.mem_into.mp hmem
    have hroom := hnow.inv.lawful.safe_room hlane
    rw [seenOf_get (W.lanes hlane).source] at hc
    rw [hcursor, Option.some.inj hc] at hroom
    exact hroom
  have hsum := hrun.sum rfl W.lanesOk
  dsimp only [polledLanes, poisons]
  refine ringContract_intro fun w₃ hrely hinv ending a w₄ _ hexec => ?_
  have hmine := hnow.rely hrely hinv
  have hheld : w₃.holder (.seen rank) = some t := hmine.held
  unfold World.exec at hexec
  dsimp only at hexec
  rw [if_pos hheld] at hexec
  obtain ⟨rfl, rfl⟩ := Prod.mk.inj (Option.some.inj hexec)
  have hfull : PollSum rank safe (W.into rank) (seenOf n rank (pollStart rank w₃.log)) seen'
      (pollStart rank w₃.log) w₃.log polled lags := by
    rw [hmine.start]
    exact hsum.extend (hrely.seen rank hnow.held).log
  have hseen := hfull.seen_eq hmine.opened
  have hok : PolledOk W w₃.log rank (.ok polled) :=
    ⟨rank.isLt, hmine.opened, polled, lags, rfl, hseen ▸ hfull⟩
  refine ⟨hinv.polled hheld hok hseen, returns_ok ?_ fun log _ hs => ⟨polled, rfl, ?_⟩⟩
  · have hsame : Holding t [.seen rank] (w₃.modify rank fun p => { p with seen := seen' }) :=
      hmine.holding
    exact hsame.drop (by simp) false
  · apply hs.subset
    exact List.mem_cons_self ..

end MpiRma
