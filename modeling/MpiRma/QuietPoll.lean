/-
  MpiRma/QuietPoll.lean
  =====================
  **A poll with no put in progress drains a lane.**  Over every run of a safe or a raw ring
  in which the MPI calls succeed: a poll on whose lane no image lands returns the puts the
  lane still holds, moves the cursor to the newest one, and loses exactly the ones newer
  images have overwritten.  Lanes are judged one by one, so puts on one lane do not disturb
  what the same poll does at another.  That the logged messages are those the polls return is
  `returned_polled`.
-/
import MpiRma.RawMode

namespace MpiRma

variable [Libraries] {n : Nat}

/-- A poll of rank `d` from `c₀`, where it has just taken the lock, to its last step, which
    leads from `c` to `c'`. -/
structure PollSpan (ring : Nat → Ring) (d : Nat) (messages : List Message)
    (c₀ c c' : Config RingCall RingCall.Answer World (Call n) Outcome) : Prop where
  reach : (ringMachine n ring Faults.none).Reach (World.fresh n) c₀
  run : Relation.ReflTransGen (ringMachine n ring Faults.none).Step c₀ c
  during : pollStart d c.shared.log = c₀.shared.log
  ends : EndsPoll ring d messages c c'

/-- No image landed on a lane between two states. -/
def Quiet (s d : Nat) (w w' : World) : Prop := putsOf s d w'.log = putsOf s d w.log

/-- A poll that took a lane from `w` to `w'` returned exactly what was left of the puts:
    with `N` puts and `r` the cursor, the ones above `max r (N - depth)`. -/
structure Drained (safe : Bool) (s d : Nat) (l : Lane) (w w' : World) (messages : List Message)
    (amount N r : Nat) : Prop where
  puts : (putsOf s d w.log).map Prod.fst = List.range' 1 N
  before : (w.process d).seen[s]? = some r
  returned : (fromOrigin s messages).map Message.entry =
    (putsOf s d w.log).drop (max r (N - l.depth))
  sequences : (fromOrigin s messages).map Message.sequence =
    List.range' (max r (N - l.depth) + 1) (N - max r (N - l.depth))
  after : (w'.process d).seen[s]? = some N
  lost : amount = N - r - l.depth
  safe : safe = true → amount = 0
  settled : (deliveredOf s d w'.log).length + (skippedOf s d w'.log).length = N

section Poll

variable {safe : Bool} {ring : Nat → Ring} {W : Wired n safe ring} {s d : Nat} {l : Lane}
  {messages : List Message} {c₀ c c' : Config RingCall RingCall.Answer World (Call n) Outcome}

theorem PollSpan.lawful (h : PollSpan ring d messages c₀ c c') (W : Wired n safe ring) :
    Lawful W Faults.none (.polled d (.ok messages) :: c.shared.log) := by
  have hinv' := reach_inv W rfl (h.ends.reach.step h.ends.step)
  rw [← h.ends.ends]
  exact hinv'.lawful

/-- What a poll adds to `lost` is the sum over the lanes of what it passed over. -/
theorem PollSpan.lost (h : PollSpan ring d messages c₀ c c') (W : Wired n safe ring) (hd : d < n) :
    (c'.shared.process d).lost ≡ (c₀.shared.process d).lost +
      ((List.range n).map fun s => passedOver s d messages c.shared.log).sum [MOD u64Max + 1] := by
  have hbefore := ((reach_inv W rfl h.reach).rank d hd).lost
  have hafter := ((reach_inv W rfl (h.ends.reach.step h.ends.step)).rank d hd).lost
  have hsum := (h.lawful W).lost_polled
  have hlog : lostSum d c'.shared.log = lostSum d c.shared.log := by
    rw [h.ends.ends]
    rfl
  rw [hlog, hsum, h.during] at hafter
  exact hafter.trans (hbefore.symm.add_right _)

theorem PollSpan.drained (h : PollSpan ring d messages c₀ c c') (hlane : W.lane s d = some l)
    (hquiet : Quiet s d c₀.shared c.shared) :
    Drained safe s d l c.shared c'.shared messages (passedOver s d messages c.shared.log)
      (putsOf s d c.shared.log).length (cursorOf s d c.shared.log) := by
  have hlaw := h.lawful W
  have hinv := reach_inv W rfl h.ends.reach
  have hgenuine := hinv.genuine hlane
  have hgenuine' := (reach_inv W rfl (h.ends.reach.step h.ends.step)).genuine hlane
  have hlength := hlaw.2.length_puts rfl (s := s) (d := d)
  have hstart := (hlaw.2.suffix (pollStart_suffix d _)).length_puts rfl (s := s) (d := d)
  have hsame : topOf s d (pollStart d c.shared.log) = topOf s d c.shared.log := by
    rw [← hstart, ← hlength, h.during, hquiet]
  obtain ⟨hreturned, hcursor, hskipped⟩ := hlaw.quiet_poll rfl hlane hsame
  rw [hlaw.skipped_polled] at hskipped
  have hcount := hlaw.skipped_count (s := s) (d := d)
  have hle := (hlaw.returned hlane).count
  rw [← hlength] at hcursor hskipped hreturned
  constructor
  · exact hgenuine.numbered
  · exact hgenuine.cursor
  · exact hreturned
  · have hkeys := congrArg (List.map Prod.fst) hreturned
    rw [List.map_drop, hgenuine.numbered, List.drop_range', List.map_map] at hkeys
    rw [Nat.mul_one, Nat.add_comm 1] at hkeys
    exact hkeys
  · have hafter := hgenuine'.cursor
    rw [h.ends.ends, hcursor] at hafter
    exact hafter
  · exact Nat.add_left_cancel hskipped
  · rintro rfl
    have hroom := hlaw.2.safe_room hlane
    rw [← hlength] at hroom
    omega
  · rw [h.ends.ends]
    omega

end Poll

/-- What a poll does at all lanes of rank `d`: `amount` is what it adds to `lost` for each. -/
structure Drains (safe : Bool) (ring : Nat → Ring) (d : Nat) (messages : List Message)
    (c₀ c c' : Config RingCall RingCall.Answer World (Call n) Outcome) (amount : Nat → Nat) :
    Prop where
  lost : (c'.shared.process d).lost ≡
    (c₀.shared.process d).lost + ((List.range n).map amount).sum [MOD u64Max + 1]
  total : (c'.shared.process d).lost ≡ skippedSum n d c'.shared.log [MOD u64Max + 1]
  lane : ∀ s l, s < n → (ring s).toLanes[d]? = some (some l) → Quiet s d c₀.shared c.shared →
    ∃ N r, Drained safe s d l c.shared c'.shared messages (amount s) N r
  next : ∀ s l, s < n → (ring s).toLanes[d]? = some (some l) → Quiet s d c₀.shared c.shared →
    ∀ messages' c₁ c₂ c₃, Relation.ReflTransGen (ringMachine n ring Faults.none).Step c' c₁ →
      PollSpan ring d messages' c₁ c₂ c₃ → Quiet s d c'.shared c₂.shared →
      fromOrigin s messages' = []

/-- **A poll with no put in progress drains a lane exactly.**  For every ring and every
    state an earlier interleaving can lead to: at each lane on which no image lands while
    the poll holds the lock, it returns what is left of the puts and adds to `lost` what
    they overwrote; and a later poll finds the lane empty until the next put. -/
theorem quiet_poll_drains {comm : Fin n → Comm} {lists : Fin n → List LaneSpec} {safe : Bool}
    {ring : Nat → Ring} (hring : Constructed n comm lists safe ring) {d : Nat} (hd : d < n)
    {messages : List Message} {c₀ c c' : Config RingCall RingCall.Answer World (Call n) Outcome}
    (hspan : PollSpan ring d messages c₀ c c') :
    ∃ amount, Drains safe ring d messages c₀ c c' amount := by
  obtain ⟨W⟩ := hring.wired
  refine ⟨fun s => passedOver s d messages c.shared.log, hspan.lost W hd, ?_, ?_, ?_⟩
  · have hafter := ((reach_inv W rfl (hspan.ends.reach.step hspan.ends.step)).rank d hd).lost
    rw [hspan.ends.ends] at hafter ⊢
    rwa [(hspan.lawful W).lost_total.1 (if_pos rfl)] at hafter
  · intro s l hs hlane hquiet
    exact ⟨_, _, hspan.drained ((W.to_iff hs).mp hlane) hquiet⟩
  intro s l hs hlane hquiet messages' c₁ c₂ c₃ hsteps hspan' hquiet'
  have hlane := (W.to_iff hs).mp hlane
  have hdrained := hspan.drained hlane hquiet
  -- the later poll begins at the cursor this one left
  have hlog := steps_log hsteps
  have hlog' := steps_log hspan'.run
  have hquiet₁ : Quiet s d c₁.shared c₂.shared := by
    have hlow := putsOf_suffix (s := s) (d := d) hlog
    have hhigh := putsOf_suffix (s := s) (d := d) hlog'
    rw [hquiet'] at hhigh
    rw [Quiet, hquiet']
    exact hlow.eq_of_length_le hhigh.length_le
  have hdrained' := hspan'.drained hlane hquiet₁
  have hputs : putsOf s d c₂.shared.log = putsOf s d c.shared.log := by
    rw [hquiet', hspan.ends.ends]
    rfl
  have hcursor : (putsOf s d c.shared.log).length ≤ cursorOf s d c₂.shared.log := by
    have hlaw := (reach_inv W rfl hspan'.ends.reach).lawful
    have hmono := hlaw.cursor_mono hlane (hlog.trans hlog')
    have hafter := (reach_inv W rfl (hspan.ends.reach.step hspan.ends.step)).genuine hlane
    have hN := hafter.cursor.symm.trans hdrained.after
    rwa [Option.some.inj hN] at hmono
  have hlength := congrArg List.length hputs
  have hnone := hdrained'.returned
  rw [List.drop_of_length_le (by omega)] at hnone
  exact List.map_eq_nil_iff.mp hnone

/-- Five messages for three slots, and a poll that has taken the lock. -/
def lappedSchedule : List (Move (Call 2) Ending) :=
  [[1], [2], [3], [4], [5]].flatMap (fun data => whole 0 pairSource (.send 1 data)) ++
    [.call 2 ⟨pairDestination, .poll⟩, .commands 2 [.ok]]

omit [Libraries] in
theorem quiet_poll_drains_pair : ∃ c₀ c c' amount,
    @PollSpan libraries 2 (pairRing false 3 8) 1 [⟨0, 3, [3]⟩, ⟨0, 4, [4]⟩, ⟨0, 5, [5]⟩] c₀ c c' ∧
    Quiet 0 1 c₀.shared c.shared ∧ (c'.shared.process 1).lost = 2 ∧
    @Drains libraries 2 false (pairRing false 3 8) 1 [⟨0, 3, [3]⟩, ⟨0, 4, [4]⟩, ⟨0, 5, [5]⟩] c₀ c c'
      amount := by
  let _ := libraries
  let machine := ringMachine 2 (pairRing false 3 8) Faults.none
  have hrun : (ringReplay 2 (pairRing false 3 8) Faults.none lappedSchedule).bind (fun c₀ =>
      (machine.play (World.exec Faults.none) (.commands 2 (List.replicate 15 .ok)) c₀).bind fun c =>
        (machine.play (World.exec Faults.none) (.commands 2 [.ok]) c).map fun c' =>
          (decide (pollStart 1 c.shared.log = c₀.shared.log),
            decide (putsOf 0 1 c.shared.log = putsOf 0 1 c₀.shared.log),
            decide (c'.shared.log = .polled 1 (.ok [⟨0, 3, [3]⟩, ⟨0, 4, [4]⟩, ⟨0, 5, [5]⟩]) ::
              c.shared.log), (c'.shared.process 1).lost)) = some (true, true, true, 2) := by
    decide +kernel
  obtain ⟨c₀, hreplay, hrun⟩ := Option.bind_eq_some_iff.mp hrun
  obtain ⟨c, hplay, hrun⟩ := Option.bind_eq_some_iff.mp hrun
  obtain ⟨c', hplay', hobserved⟩ := Option.map_eq_some_iff.mp hrun
  simp only [Prod.mk.injEq, decide_eq_true_eq] at hobserved
  obtain ⟨hduring, hquiet, hlog, hlost⟩ := hobserved
  have hreach := reach_replay hreplay
  have hsteps := Machine.steps_of_play exec_of_exec hplay
  have hspan : PollSpan (pairRing false 3 8) 1 [⟨0, 3, [3]⟩, ⟨0, 4, [4]⟩, ⟨0, 5, [5]⟩] c₀ c c' :=
    ⟨hreach, hsteps, hduring,
      ⟨hreach.steps hsteps, Machine.step_of_play exec_of_exec hplay', hlog⟩⟩
  obtain ⟨amount, hdrains⟩ := quiet_poll_drains (pair_three false) (by decide) hspan
  exact ⟨c₀, c, c', amount, hspan, hquiet, hlost, hdrains⟩

end MpiRma
