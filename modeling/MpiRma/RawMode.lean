/-
  MpiRma/RawMode.lean
  ===================
  **Raw mode delivers genuine messages, in order, at most once.**  Over every run of a raw
  ring in which the MPI calls succeed: what a lane returned is a sublist of what was put on
  it, and each sequence its cursor has passed was returned once or counted in `lost` once.
  A sequence counted in `lost` has been overwritten, unless its image landed behind the
  back of the scan that skipped it.  That the logged messages are those the polls return is
  `returned_polled`.
-/
import MpiRma.SafeMode

namespace MpiRma

variable [Libraries] {n : Nat}

/-! ### What a raw lane delivers -/

structure LaneGenuine (s d : Nat) (w : World) : Prop where
  numbered : (putsOf s d w.log).map Prod.fst = List.range' 1 (putsOf s d w.log).length
  sublist : ((deliveredOf s d w.log).map Message.entry).Sublist (putsOf s d w.log)
  cursor : (w.process d).seen[s]? = some (cursorOf s d w.log)
  behind : cursorOf s d w.log ≤ (putsOf s d w.log).length
  once : ((deliveredOf s d w.log).map Message.sequence ++ skippedOf s d w.log).Perm
    (List.range' 1 (cursorOf s d w.log))

def PolledGenuine (n : Nat) (ring : Nat → Ring) (d : Nat) (result : Except Fail (List Message)) :
    Prop :=
  ∃ messages, result = .ok messages ∧ ∀ m ∈ messages, ∃ s < n, ∃ l, m.origin = ((s : Nat) : Int) ∧
    (ring s).toLanes[d]? = some (some l)

structure RawRun (n : Nat) (ring : Nat → Ring)
    (c : Config RingCall RingCall.Answer World (Call n) Outcome) : Prop where
  lane : ∀ s d l, s < n → (ring s).toLanes[d]? = some (some l) → LaneGenuine s d c.shared
  polled : ∀ d result, .polled d result ∈ c.shared.log → PolledGenuine n ring d result
  returned : ∀ d outcome, .returned d .poll outcome ∈ c.shared.log →
    ∃ messages, outcome = .polled (.ok messages) ∧ .polled d (.ok messages) ∈ c.shared.log
  lost : ∀ d < n, c.shared.holder (.seen d) = none →
    (c.shared.process d).lost ≡ skippedSum n d c.shared.log [MOD u64Max + 1]

section Runs

variable {safe : Bool} {ring : Nat → Ring} {W : Wired n safe ring} {w : World}

theorem RingInv.genuine (h : RingInv W Faults.none w) {s d : Nat} {l : Lane}
    (hlane : W.lane s d = some l) : LaneGenuine s d w := by
  have hlaw := h.lawful
  have hok := W.lanes hlane
  have hlength := hlaw.length_puts rfl (s := s) (d := d)
  refine ⟨?_, hlaw.delivered_sublist rfl hlane, ?_, ?_, hlaw.once hlane⟩
  · rw [hlength]
    exact hlaw.puts_numbered rfl
  · rw [(h.rank d hok.destination).seen]
    exact seenOf_get hok.source w.log
  · rw [hlength]
    exact hlaw.cursor_le_top hlane

theorem RingInv.lost (h : RingInv W Faults.none w) {d : Nat} (hd : d < n)
    (hfree : w.holder (.seen d) = none) :
    (w.process d).lost ≡ skippedSum n d w.log [MOD u64Max + 1] := by
  have hrank := h.rank d hd
  rw [← h.lawful.lost_total.1 (hrank.closed hfree)]
  exact hrank.lost

theorem PolledOk.genuine {log : List Event} {d : Nat}
    {result : Except Fail (List Message)} (h : PolledOk W log d result) :
    PolledGenuine n ring d result := by
  obtain ⟨-, -, messages, lags, rfl, hsum⟩ := h
  refine ⟨messages, rfl, fun m hm => ?_⟩
  obtain ⟨⟨s, l⟩, hmem, horigin⟩ := hsum.origins m hm
  have hlane := W.mem_into.mp hmem
  have hs := (W.lanes hlane).source
  exact ⟨s, hs, l, horigin, (W.to_iff hs).mpr hlane⟩

end Runs

/-- **Raw mode delivers only genuine messages, in order, at most once.**  For every lane
    list a raw ring can be constructed from and every interleaving of the steps of any
    number of threads at each rank. -/
theorem raw_genuine {comm : Fin n → Comm} {lists : Fin n → List LaneSpec} {ring : Nat → Ring}
    (hring : Constructed n comm lists false ring)
    {c : Config RingCall RingCall.Answer World (Call n) Outcome}
    (hreach : (ringMachine n ring Faults.none).Reach (World.fresh n) c) : RawRun n ring c := by
  obtain ⟨W⟩ := hring.wired
  have hinv := reach_inv W rfl hreach
  have hevent : ∀ e ∈ c.shared.log, ∃ older, older <:+ c.shared.log ∧
      EventOk W Faults.none older e := by
    intro e he
    obtain ⟨newer, older, hlog⟩ := List.append_of_mem he
    have hsuffix : e :: older <:+ c.shared.log := ⟨newer, hlog.symm⟩
    exact ⟨older, (List.suffix_cons _ _).trans hsuffix, hinv.lawful.event hsuffix⟩
  constructor
  · intro s d l hs hlane
    exact hinv.genuine ((W.to_iff hs).mp hlane)
  · intro d result hmem
    obtain ⟨older, -, hok⟩ := hevent _ hmem
    exact PolledOk.genuine hok
  · intro d outcome hmem
    obtain ⟨older, hs, -, hok⟩ := hevent _ hmem
    cases outcome with
    | polled result =>
      obtain ⟨messages, rfl, hpolled⟩ := hok
      exact ⟨messages, rfl, hs.subset hpolled⟩
    | _ => exact hok.elim
  · intro d hd hfree
    exact hinv.lost hd hfree

/-- Four messages lap the receiver; four more land behind its scan of the first slot. -/
def scanSchedule : List (Move (Call 2) Ending) :=
  [[1], [2], [3], [4]].flatMap (fun data => whole 0 pairSource (.send 1 data)) ++
    [.call 2 ⟨pairDestination, .poll⟩, .commands 2 (List.replicate 6 .ok)] ++
    [[5], [6], [7], [8]].flatMap fun data => whole 0 pairSource (.send 1 data)

omit [Libraries] in
theorem raw_genuine_pair : ∃ c,
    @ringReplay libraries 2 (pairRing false 3 8) Faults.none
      (scanSchedule ++ [.finish 2 .ok]) = some c ∧
    (deliveredOf 0 1 c.shared.log, (c.shared.process 1).lost) =
      ([⟨0, 4, [4]⟩, ⟨0, 6, [6]⟩, ⟨0, 8, [8]⟩], 5) ∧
    RawRun 2 (pairRing false 3 8) c := by
  let _ := libraries
  have hrun : (ringReplay 2 (pairRing false 3 8) Faults.none (scanSchedule ++ [.finish 2 .ok])).map
      (fun c => (deliveredOf 0 1 c.shared.log, (c.shared.process 1).lost)) =
      some ([⟨0, 4, [4]⟩, ⟨0, 6, [6]⟩, ⟨0, 8, [8]⟩], 5) := by decide +kernel
  obtain ⟨c, hreplay, hobserved⟩ := Option.map_eq_some_iff.mp hrun
  exact ⟨c, hreplay, hobserved, raw_genuine (pair_three false) (reach_replay hreplay)⟩

/-! ### What a raw poll counts as lost -/

/-- A poll that took rank `d` from `w` to `w'` moved the cursor past a sequence of the lane
    from `s` without returning it. -/
structure Skips (s d : Nat) (w w' : World) (messages : List Message) (x : Nat) : Prop where
  above : (w.process d).seen.getD s 0 < x
  passed : x ≤ (w'.process d).seen.getD s 0
  unreturned : ∀ m ∈ messages, m.origin = (s : Int) → m.sequence ≠ x

structure EndsPoll (ring : Nat → Ring) (d : Nat) (messages : List Message)
    (c c' : Config RingCall RingCall.Answer World (Call n) Outcome) : Prop where
  reach : (ringMachine n ring Faults.none).Reach (World.fresh n) c
  step : (ringMachine n ring Faults.none).Step c c'
  ends : c'.shared.log = .polled d (.ok messages) :: c.shared.log

/-- Every sequence a poll skips has been overwritten when the poll returns. -/
def SkipsOverwritten (n : Nat) (ring : Nat → Ring) : Prop :=
  ∀ c c' d messages, EndsPoll (n := n) ring d messages c c' →
    ∀ s l, s < n → (ring s).toLanes[d]? = some (some l) →
      ∀ x, Skips s d c.shared c'.shared messages x →
        ∃ f, Ring.frameOf l (c'.shared.slot d l (l.position x)) = some f ∧ x < f.sequence

section Skipping

variable {safe : Bool} {ring : Nat → Ring} {W : Wired n safe ring} {faults : Faults} {s d : Nat}
  {l : Lane}

theorem RingInv.seen_getD {w : World} (h : RingInv W faults w) (hlane : W.lane s d = some l) :
    (w.process d).seen.getD s 0 = cursorOf s d w.log := by
  have hok := W.lanes hlane
  rw [(h.rank d hok.destination).seen, List.getD_eq_getElem?_getD, seenOf_get hok.source]
  rfl

end Skipping

/-- **What a raw poll counts as lost.**  When the poll returns, the slot of a sequence it
    skipped holds that sequence or a newer one, and a newer one unless the image of the
    skipped sequence landed after the poll had last read the slot's head word. -/
theorem raw_skipped {comm : Fin n → Comm} {lists : Fin n → List LaneSpec} {ring : Nat → Ring}
    (hring : Constructed n comm lists false ring) {d : Nat} {messages : List Message}
    {c c' : Config RingCall RingCall.Answer World (Call n) Outcome}
    (hends : EndsPoll ring d messages c c') {s : Nat} {l : Lane} (hs : s < n)
    (hlane : (ring s).toLanes[d]? = some (some l)) {x : Nat}
    (hskips : Skips s d c.shared c'.shared messages x) :
    ∃ f, Ring.frameOf l (c'.shared.slot d l (l.position x)) = some f ∧ x ≤ f.sequence ∧
      (x ≤ headTop s d (l.slotAt (l.position x)) c.shared.log → x < f.sequence) := by
  obtain ⟨W⟩ := hring.wired
  have hlane := (W.to_iff hs).mp hlane
  have hinv := reach_inv W rfl hends.reach
  have hinv' := reach_inv W rfl (hends.reach.step hends.step)
  have hlaw := hinv'.lawful
  rw [hends.ends] at hlaw
  obtain ⟨habove, hpassed, hunreturned⟩ := hskips
  rw [hinv.seen_getD hlane] at habove
  rw [hinv'.seen_getD hlane, hends.ends] at hpassed
  have hnot : ∀ m ∈ fromOrigin s messages, m.sequence ≠ x := by
    intro m hm
    obtain ⟨hmem, horigin⟩ := List.mem_filter.mp hm
    exact hunreturned m hmem (by simpa using horigin)
  obtain ⟨hthere, hlook⟩ := hlaw.skipped_overwritten hlane habove hpassed hnot
  -- the slot says what the log says it holds
  have hslot := ((hinv'.lane s d l hlane).slots _ ((W.lanes hlane).position_lt x)).frame
  rw [hends.ends] at hslot
  have hcontent : contentAt s d l (.polled d (.ok messages) :: c.shared.log) (l.position x) =
      some ⟨Cyclic.newest l.depth (topOf s d c.shared.log) (l.position x), _⟩ := if_neg (by
        show ¬ Cyclic.newest l.depth (topOf s d c.shared.log) (l.position x) = 0
        omega)
  exact ⟨_, hslot.trans hcontent, hthere, hlook⟩

omit [Libraries] in
/-- The scan of `scanSchedule` passes sequence 7, which is in its slot when the poll returns. -/
theorem scan_skips : ∃ c c', @EndsPoll libraries 2 (pairRing false 3 8) 1
      [⟨0, 4, [4]⟩, ⟨0, 6, [6]⟩, ⟨0, 8, [8]⟩] c c' ∧
    (c.shared.process 1).seen.getD 0 0 = 0 ∧ (c'.shared.process 1).seen.getD 0 0 = 8 ∧
    @Ring.frameOf libraries (pairLane 3 8) (c'.shared.slot 1 (pairLane 3 8) 0) = some ⟨7, [7]⟩ := by
  let _ := libraries
  let machine := ringMachine 2 (pairRing false 3 8) Faults.none
  have hrun : (ringReplay 2 (pairRing false 3 8) Faults.none
      (scanSchedule ++ [.commands 2 (List.replicate 10 .ok)])).bind (fun c =>
        (machine.play (World.exec Faults.none) (.commands 2 [.ok]) c).map fun c' =>
          ((c.shared.process 1).seen.getD 0 0, (c'.shared.process 1).seen.getD 0 0,
            Ring.frameOf (pairLane 3 8) (c'.shared.slot 1 (pairLane 3 8) 0),
            decide (c'.shared.log = .polled 1 (.ok [⟨0, 4, [4]⟩, ⟨0, 6, [6]⟩, ⟨0, 8, [8]⟩]) ::
              c.shared.log))) = some (0, 8, some ⟨7, [7]⟩, true) := by decide +kernel
  obtain ⟨c, hreplay, hrun⟩ := Option.bind_eq_some_iff.mp hrun
  obtain ⟨c', hplay, hobserved⟩ := Option.map_eq_some_iff.mp hrun
  simp only [Prod.mk.injEq, decide_eq_true_eq] at hobserved
  obtain ⟨hbefore, hafter, hframe, hlog⟩ := hobserved
  exact ⟨c, c', ⟨reach_replay hreplay, Machine.step_of_play exec_of_exec hplay, hlog⟩,
    hbefore, hafter, hframe⟩

omit [Libraries] in
theorem raw_skipped_pair : ∃ c c' messages,
    @EndsPoll libraries 2 (pairRing false 3 8) 1 messages c c' ∧
    ∃ f, @Ring.frameOf libraries (pairLane 3 8) (c'.shared.slot 1 (pairLane 3 8) 1) = some f ∧
      5 ≤ f.sequence ∧
      (5 ≤ headTop 0 1 ((pairLane 3 8).slotAt 1) c.shared.log → 5 < f.sequence) := by
  let _ := libraries
  obtain ⟨c, c', hends, hbefore, hafter, -⟩ := scan_skips
  refine ⟨c, c', _, hends, raw_skipped (pair_three false) (s := 0)
    (l := pairLane 3 8) (x := 5) hends
    (by decide) rfl ⟨?_, ?_, ?_⟩⟩
  · rw [hbefore]
    decide
  · rw [hafter]
    decide
  · decide

omit [Libraries] in
/-- A sequence may be counted as lost while it is intact in its slot. -/
theorem skipped_intact : ¬ @SkipsOverwritten libraries 2 (pairRing false 3 8) := by
  let _ := libraries
  intro h
  obtain ⟨c, c', hends, hbefore, hafter, hframe⟩ := scan_skips
  have hskips : Skips 0 1 c.shared c'.shared [⟨0, 4, [4]⟩, ⟨0, 6, [6]⟩, ⟨0, 8, [8]⟩] 7 := by
    refine ⟨?_, ?_, ?_⟩
    · rw [hbefore]
      decide
    · rw [hafter]
      decide
    · decide
  obtain ⟨f, hf, hlt⟩ := h c c' 1 _ hends 0 (pairLane 3 8) (by decide) rfl 7 hskips
  have hsame : some f = some ⟨7, [7]⟩ := hf.symm.trans hframe
  rw [Option.some.inj hsame] at hlt
  exact Nat.lt_irrefl 7 hlt

end MpiRma
