/-
  MpiRma/FailingPoll.lean
  =======================
  **When a failing poll consumes nothing.**  A poll runs alone over a slot window with
  arbitrary contents.  It fails only where a lane of a safe ring shows a sequence newer than
  the next one, and it has advanced the cursors of whatever it had read by then: `ready`
  and `laps` say from the memory alone what it finds at a cursor, and `FailsClean` says
  from them when a failing poll leaves every cursor as it was.
-/
import MpiRma.Polling
import MpiRma.Replay

namespace MpiRma

/-! ### What a memory shows -/

section Memory

variable [Libraries] (mem : Memory UInt8) (l : Lane)

/-- What `probe` finds in a slot. -/
def probeAt (p : Nat) : Option Nat :=
  probeOf (mem.read (l.slotAt p) WORD) (mem.read (l.guardAt p) WORD)

/-- The next message of a lane can be read. -/
def Ready (cursor : Nat) : Prop :=
  cursor + 1 ≤ u64Max ∧ probeAt mem l (l.position (cursor + 1)) = some (cursor + 1) ∧
    ((Ring.frameOf l (mem.read (l.slotAt (l.position (cursor + 1))) l.slot)).map
      Frame.sequence) = some (cursor + 1)

/-- The slot of the next message holds a newer sequence. -/
def Laps (cursor : Nat) : Prop :=
  cursor + 1 ≤ u64Max ∧ ∃ found, probeAt mem l (l.position (cursor + 1)) = some found ∧
    cursor + 1 < found

/-- Reading on from a cursor while messages are ready, one of the next slots, `fuel` of
    them, holds a newer sequence. -/
def LapsWithin : Nat → Nat → Prop
  | 0, _ => False
  | fuel + 1, cursor => Laps mem l cursor ∨ Ready mem l cursor ∧ LapsWithin fuel (cursor + 1)

end Memory

/-- When a poll that fails consumes nothing: the first lane at which a newer sequence comes
    up shows it in its very next slot, and no lane before it has a message ready. -/
def FailsClean [Libraries] (R : Ring) (mem : Memory UInt8) (seen : List Nat) : Prop :=
  ∀ o l, R.fromLanes[o]? = some (some l) → LapsWithin mem l l.depth (seen.getD o 0) →
    (∀ o' < o, ∀ l', R.fromLanes[o']? = some (some l') →
      ¬ LapsWithin mem l' l'.depth (seen.getD o' 0)) →
    Laps mem l (seen.getD o 0) ∧
      ∀ o' < o, ∀ l', R.fromLanes[o']? = some (some l') → ¬ Ready mem l' (seen.getD o' 0)

/-! ### A poll over one memory -/

/-- The reads of rank `d` between two logs show a memory. -/
def Shows (mem : Memory UInt8) (d : Nat) (before after : List Event) : Prop :=
  ∀ older disp bytes, .read d disp bytes :: older <:+ after → before <:+ older →
    bytes = mem.read disp bytes.length

theorem Shows.part {mem : Memory UInt8} {d : Nat} {before a b after : List Event}
    (h : Shows mem d before after) (ha : before <:+ a) (hb : b <:+ after) : Shows mem d a b :=
  fun older disp bytes hread hold => h older disp bytes (hread.trans hb) (ha.trans hold)

section Still

variable [Libraries] {mem : Memory UInt8} {d : Nat} {l : Lane}

omit [Libraries] in
theorem Probed.still {p : Nat} {before after : List Event} {probed : Option Nat}
    (h : Probed d l p before probed after) (hshows : Shows mem d before after) :
    probed = probeAt mem l p := by
  obtain ⟨h₁, hhead, h₂, htail, h₃⟩ := h
  have hheadAt := hshows _ _ _ (h₂.suffix.trans ((List.suffix_cons _ _).trans h₃.suffix)) h₁.suffix
  have htailAt := hshows _ _ _ h₃.suffix
    (h₁.suffix.trans ((List.suffix_cons _ _).trans h₂.suffix))
  rw [hhead] at hheadAt
  rw [htail] at htailAt
  rw [probeAt, ← hheadAt, ← htailAt]

omit [Libraries] in
theorem Copied.still {p : Nat} {before after : List Event} {image : Bytes}
    (h : Copied d l p before image after) (hshows : Shows mem d before after) :
    image = mem.read (l.slotAt p) l.slot := by
  obtain ⟨h₁, himage, h₂⟩ := h
  have himageAt := hshows _ _ _ h₂.suffix h₁.suffix
  rwa [himage] at himageAt

omit [Libraries] in
theorem probeOf_eq {head tail : Bytes} {found : Nat} (h : probeOf head tail = some found) :
    found = ofLE head := by
  unfold probeOf at h
  split at h
  · contradiction
  split at h
  · contradiction
  · exact (Option.some.inj h).symm

omit [Libraries] in
theorem probeAt_le {p found : Nat} (h : probeAt mem l p = some found) : found ≤ u64Max := by
  have hlt := ofLE_lt (mem.read (l.slotAt p) WORD)
  rw [Memory.length_read, ← probeOf_eq h] at hlt
  unfold u64Max
  unfold WORD at hlt
  omega

theorem not_laps_of_ready {cursor : Nat} (h : Ready mem l cursor) : ¬ Laps mem l cursor := by
  rintro ⟨-, found, hfound, hlow⟩
  rw [h.2.1] at hfound
  have hsame := Option.some.inj hfound
  omega

/-- What the loop over a lane did, read off its memory: whether it stopped at a newer
    sequence, and that it advanced exactly when the next message was ready. -/
structure DrainStill (mem : Memory UInt8) (l : Lane) (fuel cursor cursor' : Nat)
    (stop : Option Nat) : Prop where
  stops : stop ≠ none ↔ LapsWithin mem l fuel cursor
  moves : cursor' ≠ cursor ↔ 0 < fuel ∧ Ready mem l cursor
  le : cursor ≤ cursor'

theorem DrainStill.waits {fuel cursor : Nat} (hready : ¬ Ready mem l cursor)
    (hlaps : ¬ Laps mem l cursor) : DrainStill mem l (fuel + 1) cursor cursor none := by
  refine ⟨⟨fun h => absurd rfl h, ?_⟩, ⟨fun h => absurd rfl h, ?_⟩, Nat.le_refl _⟩
  · rintro (h | ⟨h, -⟩)
    · exact absurd h hlaps
    · exact absurd h hready
  · rintro ⟨-, h⟩
    exact absurd h hready

theorem Drain.still {safe : Bool} {fuel cursor cursor' : Nat} {before after : List Event}
    {frames : List Frame} {stop : Option Nat}
    (h : Drain d l safe fuel cursor before frames cursor' after stop) (hsafe : safe = true)
    (hshows : Shows mem d before after) : DrainStill mem l fuel cursor cursor' stop := by
  induction h with
  | full =>
    refine ⟨⟨fun h => absurd rfl h, False.elim⟩, ⟨fun h => absurd rfl h, ?_⟩, Nat.le_refl _⟩
    rintro ⟨hpos, -⟩
    exact absurd hpos (Nat.lt_irrefl 0)
  | exhausted hmax =>
    apply DrainStill.waits
    · rintro ⟨hle, -⟩
      omega
    · rintro ⟨hle, -⟩
      omega
  | waits hprobe hlow =>
    have hprobed := hprobe.still hshows
    apply DrainStill.waits
    · rintro ⟨-, hfound, -⟩
      have hle := hlow _ (hprobed.trans hfound)
      omega
    · rintro ⟨-, found, hfound, hlap⟩
      have hle := hlow _ (hprobed.trans hfound)
      omega
  | lapped _ hprobe hfound =>
    have hprobed := hprobe.still hshows
    have hmax := probeAt_le hprobed.symm
    have hlaps := (⟨by omega, _, hprobed.symm, hfound⟩ : Laps mem l _)
    refine ⟨⟨fun _ => .inl hlaps, fun _ => nofun⟩, ⟨fun h => absurd rfl h, ?_⟩, Nat.le_refl _⟩
    rintro ⟨-, hready⟩
    exact absurd hlaps (not_laps_of_ready hready)
  | scanned hraw => exact absurd (hsafe.symm.trans hraw) (by decide)
  | unread hprobe hcopy hother =>
    have hprobed := hprobe.still (hshows.part List.suffix_rfl hcopy.grows.1)
    have himage := hcopy.still (hshows.part hprobe.grows.1 List.suffix_rfl)
    apply DrainStill.waits
    · rintro ⟨-, -, hframe⟩
      rw [← himage, Option.map_eq_some_iff] at hframe
      obtain ⟨frame, hsome, hsequence⟩ := hframe
      exact hother frame hsome hsequence
    · rintro ⟨-, found, hfound, hlap⟩
      rw [← hprobed] at hfound
      have hsame := Option.some.inj hfound
      omega
  | @next fuel cursor cursor' before a b after image frame frames stop hprobe hcopy hframe
      hsequence hrest ih =>
    have hprobed := hprobe.still (hshows.part List.suffix_rfl
      (hcopy.grows.1.trans hrest.climb.suffix))
    have himage := hcopy.still (hshows.part hprobe.grows.1 hrest.climb.suffix)
    have hreads := ih (hshows.part (hprobe.grows.1.trans hcopy.grows.1) List.suffix_rfl)
    have hle := hreads.le
    have hready : Ready mem l cursor := by
      refine ⟨?_, hprobed.symm, ?_⟩
      · rw [← hsequence]
        exact frameOf_le hframe
      · rw [← himage, hframe, Option.map_some, hsequence]
    refine ⟨hreads.stops.trans ⟨fun h => .inr ⟨hready, h⟩, ?_⟩, ⟨fun _ => ⟨by omega, hready⟩, ?_⟩,
      by omega⟩
    · rintro (h | ⟨-, h⟩)
      · exact absurd h (not_laps_of_ready hready)
      · exact h
    · intro _
      omega

theorem PollRun.untouched {safe : Bool} {lanes : List (Nat × Lane)} {seen seen' : List Nat}
    {before after : List Event} {messages : List Message} {lags : List Nat}
    {stop : Option (Nat × Nat × Nat)}
    (h : PollRun d safe lanes seen before messages seen' after lags stop) {o : Nat}
    (ho : ∀ p ∈ lanes, p.1 ≠ o) : seen'[o]? = seen[o]? := by
  induction h with
  | done => rfl
  | lane _ _ _ _ ih =>
    rw [ih fun p hp => ho p (List.mem_cons_of_mem _ hp)]
    exact List.getElem?_set_ne (ho _ (List.mem_cons_self ..))
  | lapped => exact List.getElem?_set_ne (ho _ (List.mem_cons_self ..))

theorem PollRun.grows {safe : Bool} {lanes : List (Nat × Lane)} {seen seen' : List Nat}
    {before after : List Event} {messages : List Message} {lags : List Nat}
    {stop : Option (Nat × Nat × Nat)}
    (h : PollRun d safe lanes seen before messages seen' after lags stop) : before <:+ after := by
  induction h with
  | done => exact List.suffix_rfl
  | lane _ hdrain hother _ ih => exact hdrain.climb.suffix.trans (hother.suffix.trans ih)
  | lapped _ hdrain => exact hdrain.climb.suffix

/-- What the loop over the lanes did, read off the memory: whether it stopped at a lane that
    lapped, and then whether it had advanced a cursor. -/
structure PollStill (mem : Memory UInt8) (lanes : List (Nat × Lane)) (seen seen' : List Nat)
    (stop : Option (Nat × Nat × Nat)) : Prop where
  passes : stop = none → ∀ p ∈ lanes, ¬ LapsWithin mem p.2 p.2.depth (seen.getD p.1 0)
  fails : ∀ x, stop = some x → ∃ l, (x.1, l) ∈ lanes ∧
    LapsWithin mem l l.depth (seen.getD x.1 0) ∧
    (∀ p ∈ lanes, p.1 < x.1 → ¬ LapsWithin mem p.2 p.2.depth (seen.getD p.1 0)) ∧
    (seen' = seen ↔ Laps mem l (seen.getD x.1 0) ∧
      ∀ p ∈ lanes, p.1 < x.1 → ¬ Ready mem p.2 (seen.getD p.1 0))

theorem laps_iff_not_ready {fuel cursor : Nat} (h : LapsWithin mem l fuel cursor) :
    Laps mem l cursor ↔ ¬ Ready mem l cursor := by
  constructor
  · intro hlaps hready
    exact not_laps_of_ready hready hlaps
  · intro hready
    cases fuel with
    | zero => exact h.elim
    | succ fuel =>
      rcases h with hlaps | ⟨h, -⟩
      · exact hlaps
      · exact absurd h hready

omit [Libraries] in
theorem set_eq_self_iff {seen : List Nat} {o cursor cursor' : Nat} (h : seen[o]? = some cursor) :
    seen.set o cursor' = seen ↔ cursor' = cursor := by
  obtain ⟨ho, hget⟩ := List.getElem?_eq_some_iff.mp h
  constructor
  · intro hset
    have hat := congrArg (·[o]?) hset
    simp only [List.getElem?_set_self ho, h] at hat
    exact Option.some.inj hat
  · rintro rfl
    rw [← hget]
    exact List.set_getElem_self ho

theorem PollRun.still {safe : Bool} {lanes : List (Nat × Lane)} {seen seen' : List Nat}
    {before after : List Event} {messages : List Message} {lags : List Nat}
    {stop : Option (Nat × Nat × Nat)}
    (h : PollRun d safe lanes seen before messages seen' after lags stop) (hsafe : safe = true)
    (hshows : Shows mem d before after) (hsorted : lanes.Pairwise fun a b => a.1 < b.1)
    (hdepth : ∀ p ∈ lanes, 0 < p.2.depth) : PollStill mem lanes seen seen' stop := by
  induction h with
  | done => exact ⟨fun _ => nofun, fun x hx => nomatch hx⟩
  | @lapped o cursor cursor' found l rest seen before after frames hcursor hdrain =>
    obtain ⟨hfirst, -⟩ := List.pairwise_cons.mp hsorted
    have hreads := hdrain.still hsafe hshows
    have hlaps := hreads.stops.mp nofun
    have hgetD : seen.getD o 0 = cursor := by
      rw [List.getD_eq_getElem?_getD, hcursor]
      rfl
    have hnone : ∀ p ∈ (o, l) :: rest, ¬ p.1 < o := by
      intro p hp hlt
      rcases List.mem_cons.mp hp with rfl | hp
      · exact Nat.lt_irrefl _ hlt
      · exact Nat.lt_asymm hlt (hfirst p hp)
    refine ⟨nofun, fun x hx => ?_⟩
    obtain rfl := Option.some.inj hx
    refine ⟨l, List.mem_cons_self .., ?_, fun p hp hlt => absurd hlt (hnone p hp), ?_⟩
    · rwa [hgetD]
    · rw [hgetD, set_eq_self_iff hcursor, laps_iff_not_ready hlaps]
      constructor
      · rintro hsame
        refine ⟨fun hready => ?_, fun p hp hlt => absurd hlt (hnone p hp)⟩
        exact hreads.moves.mpr ⟨hdepth _ (List.mem_cons_self ..), hready⟩ hsame
      · rintro ⟨hready, -⟩
        by_contra hmoved
        exact hready (hreads.moves.mp hmoved).2
  | @lane o cursor cursor' l rest seen seen' before a b after frames messages lags stop hcursor
      hdrain hother hrun ih =>
    obtain ⟨hfirst, hrest⟩ := List.pairwise_cons.mp hsorted
    have hdepth' : ∀ p ∈ rest, 0 < p.2.depth := fun p hp => hdepth p (List.mem_cons_of_mem _ hp)
    have hreads := hdrain.still hsafe
      (hshows.part List.suffix_rfl (hother.suffix.trans hrun.grows))
    have hpolled := ih (hshows.part (hdrain.climb.suffix.trans hother.suffix) List.suffix_rfl)
      hrest hdepth'
    have hgetD : seen.getD o 0 = cursor := by
      rw [List.getD_eq_getElem?_getD, hcursor]
      rfl
    have hothers : ∀ p ∈ rest, (seen.set o cursor').getD p.1 0 = seen.getD p.1 0 := by
      intro p hp
      rw [List.getD_eq_getElem?_getD, List.getD_eq_getElem?_getD,
        List.getElem?_set_ne (Nat.ne_of_lt (hfirst p hp))]
    have hpass : ¬ LapsWithin mem l l.depth (seen.getD o 0) := by
      rw [hgetD]
      intro hlaps
      exact hreads.stops.mpr hlaps rfl
    have hmoves : cursor' = cursor ↔ ¬ Ready mem l (seen.getD o 0) := by
      rw [hgetD]
      constructor
      · intro hsame hready
        exact hreads.moves.mpr ⟨hdepth _ (List.mem_cons_self ..), hready⟩ hsame
      · intro hready
        by_contra hmoved
        exact hready (hreads.moves.mp hmoved).2
    constructor
    · intro hstop p hp
      rcases List.mem_cons.mp hp with rfl | hp
      · exact hpass
      · rw [← hothers p hp]
        exact hpolled.passes hstop p hp
    · intro x hx
      obtain ⟨lx, hmem, hlaps, hbefore, hsame⟩ := hpolled.fails x hx
      have hlater : o < x.1 := hfirst (x.1, lx) hmem
      rw [hothers _ hmem] at hlaps
      refine ⟨lx, List.mem_cons_of_mem _ hmem, hlaps, fun p hp hlt => ?_, ?_⟩
      · rcases List.mem_cons.mp hp with rfl | hp
        · exact hpass
        · rw [← hothers p hp]
          exact hbefore p hp hlt
      · -- the vector is as it was when this lane and the later ones left it alone
        have hat : seen'[o]? = some cursor' := by
          rw [hrun.untouched fun p hp => Nat.ne_of_gt (hfirst p hp)]
          obtain ⟨ho, -⟩ := List.getElem?_eq_some_iff.mp hcursor
          exact List.getElem?_set_self ho
        have hsplit : seen' = seen ↔ cursor' = cursor ∧ seen' = seen.set o cursor' := by
          constructor
          · intro heq
            have hcursors : cursor' = cursor := by
              rw [heq, hcursor] at hat
              exact (Option.some.inj hat).symm
            exact ⟨hcursors, heq.trans ((set_eq_self_iff hcursor).mpr hcursors).symm⟩
          · rintro ⟨hcursors, heq⟩
            exact heq.trans ((set_eq_self_iff hcursor).mpr hcursors)
        rw [hsplit, hsame, hothers _ hmem, hmoves]
        constructor
        · rintro ⟨hready, hlap, hall⟩
          refine ⟨hlap, fun p hp hlt => ?_⟩
          rcases List.mem_cons.mp hp with rfl | hp
          · exact hready
          · rw [← hothers p hp]
            exact hall p hp hlt
        · rintro ⟨hlap, hall⟩
          refine ⟨hall (o, l) (List.mem_cons_self ..) hlater, hlap, fun p hp hlt => ?_⟩
          rw [hothers p hp]
          exact hall p (List.mem_cons_of_mem _ hp) hlt

/-- Whether the contents are such that a failing poll consumes nothing is what one poll
    over them shows. -/
theorem PollStill.failsClean {lanes : List (Nat × Lane)} {seen seen' : List Nat}
    {stop : Option (Nat × Nat × Nat)} {R : Ring}
    (hlanes : ∀ o l, (o, l) ∈ lanes ↔ R.fromLanes[o]? = some (some l))
    (h : PollStill mem lanes seen seen' stop) :
    FailsClean R mem seen ↔ ∀ x, stop = some x → seen' = seen := by
  constructor
  · intro hclean x hx
    obtain ⟨l, hmem, hlaps, hbefore, hsame⟩ := h.fails x hx
    obtain ⟨hlap, hready⟩ := hclean x.1 l ((hlanes _ _).mp hmem) hlaps fun o' ho' l' hat =>
      hbefore (o', l') ((hlanes _ _).mpr hat) ho'
    exact hsame.mpr ⟨hlap, fun p hp hlt => hready p.1 hlt p.2 ((hlanes _ _).mp hp)⟩
  · intro hkept o l hat hlaps hfirst
    have hmem := (hlanes o l).mpr hat
    cases hstop : stop with
    | none => exact absurd hlaps (h.passes hstop _ hmem)
    | some x =>
      obtain ⟨lx, hmemx, hlapsx, hbefore, hsame⟩ := h.fails x hstop
      -- the lane that stopped the poll is the first that shows a newer sequence
      obtain rfl : o = x.1 := by
        rcases Nat.lt_trichotomy o x.1 with hlt | heq | hlt
        · exact absurd hlaps (hbefore _ hmem hlt)
        · exact heq
        · exact absurd hlapsx (hfirst x.1 hlt lx ((hlanes _ _).mp hmemx))
      obtain rfl : l = lx :=
        Option.some.inj (Option.some.inj (hat.symm.trans ((hlanes _ _).mp hmemx)))
      obtain ⟨hlap, hready⟩ := hsame.mp (hkept x hstop)
      exact ⟨hlap, fun o' ho' l' hat' => hready (o', l') ((hlanes _ _).mpr hat') ho'⟩

theorem PollRun.raw_unlapped {lanes : List (Nat × Lane)} {seen seen' : List Nat}
    {before after : List Event} {messages : List Message} {lags : List Nat}
    {stop : Option (Nat × Nat × Nat)}
    (h : PollRun d false lanes seen before messages seen' after lags stop) : stop = none := by
  induction h with
  | done => rfl
  | lane _ _ _ _ ih => exact ih
  | lapped _ hdrain => exact absurd hdrain.raw_unlapped (by simp)

end Still

/-! ### A poll alone -/

section Alone

variable [Libraries] {n : Nat} {safe : Bool} {ring : Nat → Ring}

structure Alone (d : Nat) (w₀ w : World) : Prop where
  slots : (w.process d).slots = (w₀.process d).slots
  holder : w.holder = w₀.holder
  log : w₀.log <:+ w.log
  shows : Shows (w₀.process d).slots d w₀.log w.log

omit [Libraries] in
theorem Alone.refl (d : Nat) (w : World) : Alone d w w := by
  refine ⟨rfl, rfl, List.suffix_rfl, fun older disp bytes hread hold => ?_⟩
  have hlong := hread.length_le
  have hshort := hold.length_le
  rw [List.length_cons] at hlong
  omega

omit [Libraries] in
theorem Alone.read {d : Nat} {w₀ w : World} (h : Alone d w₀ w) (disp len : Nat) :
    Alone d w₀ (w.record (.read d disp ((w.process d).slots.read disp len))) := by
  refine ⟨h.slots, h.holder, h.log.trans (List.suffix_cons _ _), ?_⟩
  intro older disp' bytes hread hold
  rcases List.suffix_cons_iff.mp hread with heq | hread
  · have hevent := (List.cons.inj heq).1
    injection hevent with _ hdisp hbytes
    rw [hbytes, hdisp, Memory.length_read, h.slots]
  · exact h.shows older disp' bytes hread hold

omit [Libraries] in
theorem Alone.note {d : Nat} {w₀ w : World} (h : Alone d w₀ w) {f : Process → Process}
    (hf : ∀ p, (f p).slots = p.slots) : Alone d w₀ (w.modify d f) := by
  refine ⟨?_, h.holder, h.log, h.shows⟩
  rw [World.modify_self, hf, h.slots]

omit [Libraries] in
/-- A command of a poll, run alone, is one a poll may meet. -/
theorem Alone.step {d : Fin n} {t : Nat} {w₀ w w' : World} {c : RingCall} {a : c.Answer}
    {ending : Ending} (hc : c.receiving) (h : Alone d w₀ w)
    (hexec : World.exec Faults.none t ⟨d, .poll⟩ c ending w = some (a, w')) :
    Alone d w₀ w' ∧ Observes d c w a w' := by
  have hapart : Apart d w w := Apart.refl d w
  cases c with
  | readLocal disp len | readLocalVolatile disp len =>
    obtain ⟨rfl, rfl⟩ := Prod.mk.inj (Option.some.inj hexec)
    exact ⟨h.read disp len, w, hapart, Memory.length_read _ _ _, rfl⟩
  | addLost count =>
    obtain ⟨rfl, rfl⟩ := Prod.mk.inj (Option.some.inj hexec)
    refine ⟨?_, w, hapart, rfl⟩
    have hnote := h.note (f := fun p => { p with lost := (p.lost + count) % (u64Max + 1) })
      fun _ => rfl
    refine ⟨hnote.slots, hnote.holder, hnote.log.trans (List.suffix_cons _ _), ?_⟩
    intro older disp bytes hread hold
    rcases List.suffix_cons_iff.mp hread with heq | hread
    · exact nomatch (List.cons.inj heq).1
    · exact h.shows older disp bytes hread hold
  | addCorrupt | maxLag lag =>
    obtain ⟨rfl, rfl⟩ := Prod.mk.inj (Option.some.inj hexec)
    exact ⟨h.note fun _ => rfl, w, hapart, rfl⟩
  | _ => exact hc.elim

/-- A program that issues only commands of a poll never waits. -/
theorem runs_alone {α : Type} {d : Fin n} {t : Nat} {p : RingProgram α}
    (hp : p.Only RingCall.receiving) (w : World) :
    ∃ r w', p.Runs ((ringMachine n ring Faults.none).exec t ⟨d, .poll⟩) w r w' := by
  induction p generalizing w with
  | ret a => exact ⟨a, w, rfl, rfl⟩
  | op c k ih =>
    obtain ⟨hc, hk⟩ := hp
    obtain ⟨a, w₁, hexec⟩ : ∃ a w₁, World.exec Faults.none t ⟨d, .poll⟩ c .ok w = some (a, w₁) := by
      cases c with
      | readLocal | readLocalVolatile | addLost | addCorrupt | maxLag => exact ⟨_, _, rfl⟩
      | _ => exact hc.elim
    obtain ⟨r, w', hrest⟩ := ih a (hk a) w₁
    exact ⟨r, w', a, w₁, ⟨.ok, hexec⟩, hrest⟩

/-- The loop over the lanes, run alone. -/
theorem pollLanes_alone (W : Wired n safe ring) {d : Fin n} {t : Nat} {w w' : World}
    {seen : List Nat} (hseen : seen.length = n) {r : Except Fail (List Message) × List Nat}
    (hrun : ((ring d).pollLanes (ring d).incoming [] seen).Runs
      ((ringMachine n ring Faults.none).exec t ⟨d, .poll⟩) w r w') :
    Alone d w w' ∧ ∃ polled seen' lags stop, PollRun d safe (W.into d) seen w.log polled seen'
      w'.log lags stop ∧ r = polledLanes polled seen' stop := by
  have hobserved : ((ring d).pollLanes (ring d).incoming [] seen).wp (observed d)
      (fun r w' => ∃ polled seen' lags stop, PollRun d safe (W.into d) seen w.log polled seen'
        w'.log lags stop ∧ r = polledLanes polled seen' stop) w := by
    rw [W.incoming_into d.isLt]
    apply pollLanes_runs (W.receives d.isLt) (W.incomingLanes d.isLt) hseen
    intro polled seen' lags stop w' h _ _
    exact ⟨polled, seen', lags, stop, h, rfl⟩
  have hwp : ((ring d).pollLanes (ring d).incoming [] seen).wp
      (Program.Contract.ofSem ((ringMachine n ring Faults.none).exec t ⟨d, .poll⟩))
      (fun r w' => Alone d w w' ∧ ∃ polled seen' lags stop, PollRun d safe (W.into d) seen w.log
        polled seen' w'.log lags stop ∧ r = polledLanes polled seen' stop) w := by
    apply Program.wp_only (Program.Contract.ofSem_monotone _) _ ((ring d).only_pollLanes _ _ _)
      (Alone.refl d w) hobserved
    rintro c Q w₁ hc halone hQ a w₂ ⟨ending, hexec⟩
    obtain ⟨halone', hobserves⟩ := halone.step hc hexec
    exact ⟨halone', hQ a w₂ hobserves⟩
  have hafter := Program.wp_runs hwp hrun
  exact hafter

/-! ### The whole call -/

/-- A poll that fails, run alone, leaves every cursor as it was. -/
def ConsumesNothing (ring : Nat → Ring) (d : Fin n) (t : Nat) (w : World) : Prop :=
  ∀ e w', (Call.code ring ⟨d, .poll⟩).Runs ((ringMachine n ring Faults.none).exec t ⟨d, .poll⟩) w
    (.polled (.error e)) w' → (w'.process d).seen = (w.process d).seen

omit [Libraries] in
/-- A poisoned lock answers at once, and nothing changes. -/
theorem lockSeen_none {faults : Faults} {t : Nat} {call : Call n} {ending : Ending} {w w' : World}
    (h : World.exec faults t call .lockSeen ending w = some (none, w')) :
    w.poisoned (.seen call.rank) = true ∧ w' = w := by
  unfold World.exec World.lock at h
  dsimp only at h
  split at h
  · contradiction
  · rename_i answer w₁ hlock
    obtain ⟨hanswer, rfl⟩ := Prod.mk.inj (Option.some.inj h)
    subst hanswer
    split at hlock
    · split at hlock
      · rename_i hpoison
        obtain ⟨-, rfl⟩ := Prod.mk.inj (Option.some.inj hlock)
        exact ⟨hpoison, by simp⟩
      · exact absurd (Prod.mk.inj (Option.some.inj hlock)).1 (by simp)
    · contradiction

/-- A poll that takes a clean lock runs its loop and stores the vector. -/
theorem poll_alone (W : Wired n safe ring) {d : Fin n} {t : Nat} {w w' : World} {outcome : Outcome}
    (hseen : (w.process d).seen.length = n) (hclean : w.poisoned (.seen d) = false)
    (hrun : (Call.code ring ⟨d, .poll⟩).Runs ((ringMachine n ring Faults.none).exec t ⟨d, .poll⟩) w
      outcome w') :
    ∃ polled lags stop before after, outcome = .polled (polledLanes polled [] stop).1 ∧
      PollRun d safe (W.into d) (w.process d).seen before polled (w'.process d).seen
        after lags stop ∧
      Shows (w.process d).slots d before after := by
  obtain ⟨r, w₁, hpoll, rfl, rfl⟩ := Program.runs_bind.mp hrun
  obtain ⟨answer, w₂, ⟨_, hlock⟩, hpoll⟩ := hpoll
  cases answer with
  | none =>
    obtain ⟨hpoison, -⟩ := lockSeen_none hlock
    exact absurd (hpoison.symm.trans hclean) (by decide)
  | some seen =>
    obtain ⟨result, w₃, hbody, hunlock⟩ := Program.runs_bind.mp hpoll
    obtain ⟨_, w₄, ⟨_, hunlock⟩, rfl, rfl⟩ := hunlock
    obtain ⟨rfl, -, -, rfl⟩ := lockSeen_poll hlock
    obtain ⟨-, rfl⟩ := unlockSeen_poll hunlock
    obtain ⟨halone, polled, seen', lags, stop, hpolled, rfl⟩ := pollLanes_alone W hseen hbody
    refine ⟨polled, lags, stop, _, _, ?_, ?_, halone.shows⟩
    · cases stop with
      | none => rfl
      | some lap => rfl
    · have hstored : (polledLanes polled seen' stop).2 = seen' := by
        cases stop with
        | none => rfl
        | some lap => rfl
      simpa [World.modify, World.drop, World.record, hstored] using hpolled

/-- A poll that takes a free, clean lock, run alone, comes to an end. -/
theorem poll_ends (W : Wired n safe ring) {d : Fin n} {t : Nat} {w : World}
    (hseen : (w.process d).seen.length = n) (hfree : w.holder (.seen d) = none)
    (hclean : w.poisoned (.seen d) = false) :
    ∃ outcome w', (Call.code ring ⟨d, .poll⟩).Runs
      ((ringMachine n ring Faults.none).exec t ⟨d, .poll⟩) w outcome w' := by
  have hlock : World.exec Faults.none t ⟨d, .poll⟩ .lockSeen .ok w =
      some (some (w.process d).seen, (w.take t (.seen d)).record (.polling d)) := by
    unfold World.exec World.lock
    dsimp only
    rw [if_pos hfree, hclean]
    rfl
  obtain ⟨r, w', hbody⟩ := runs_alone (t := t)
    ((ring d).only_pollLanes (ring d).incoming [] (w.process d).seen)
    ((w.take t (.seen d)).record (.polling d))
  obtain ⟨halone, -⟩ := pollLanes_alone W hseen hbody
  have hheld : w'.holder (.seen d) = some t := by
    rw [halone.holder]
    apply Function.update_self
  have hunlock : World.exec Faults.none t ⟨d, .poll⟩ (.unlockSeen r.2 (poisons r.1) (some r.1)) .ok
      w' = some ((), ((w'.modify d fun p => { p with seen := r.2 }).drop (.seen d)
        (poisons r.1)).record (.polled d r.1)) := by
    unfold World.exec
    exact if_pos hheld
  have hpoll : ((ring d).poll ()).Runs ((ringMachine n ring Faults.none).exec t ⟨d, .poll⟩) w
      (r.1, ()) (((w'.modify d fun p => { p with seen := r.2 }).drop (.seen d)
        (poisons r.1)).record (.polled d r.1)) :=
    ⟨_, _, ⟨.ok, hlock⟩, Program.runs_bind.mpr ⟨r, w', hbody, (), _, ⟨.ok, hunlock⟩, rfl, rfl⟩⟩
  exact ⟨_, _, Program.runs_bind.mpr ⟨_, _, hpoll, rfl, rfl⟩⟩

/-- **When a failing poll consumes nothing.**  For every ring, every receiver state and
    arbitrary contents of its slot window: a failing poll leaves every cursor as it was
    exactly when the ring is raw, the lock is poisoned, or `FailsClean` holds. -/
theorem failing_poll {comm : Fin n → Comm} {lists : Fin n → List LaneSpec} {safe : Bool}
    {ring : Nat → Ring} (hring : Constructed n comm lists safe ring) (d : Fin n) (t : Nat)
    {w : World} (hseen : (w.process d).seen.length = n) (hfree : w.holder (.seen d) = none) :
    ConsumesNothing ring d t w ↔ safe = false ∨ w.poisoned (.seen d) = true ∨
      FailsClean (ring d) (w.process d).slots (w.process d).seen := by
  obtain ⟨W⟩ := hring.wired
  cases hpoison : w.poisoned (.seen d) with
  | true =>
    refine ⟨fun _ => .inr (.inl rfl), fun _ e w' hrun => ?_⟩
    obtain ⟨r, w₁, hpoll, -, rfl⟩ := Program.runs_bind.mp hrun
    obtain ⟨answer, w₂, ⟨_, hlock⟩, hpoll⟩ := hpoll
    cases answer with
    | none =>
      obtain ⟨-, rfl⟩ := lockSeen_none hlock
      obtain ⟨-, rfl⟩ := hpoll
      rfl
    | some seen =>
      obtain ⟨-, -, hclean, -⟩ := lockSeen_poll hlock
      exact absurd (hpoison.symm.trans hclean) (by decide)
  | false =>
    cases safe with
    | false =>
      refine ⟨fun _ => .inl rfl, fun _ e w' hrun => ?_⟩
      obtain ⟨polled, lags, stop, before, after, houtcome, hpolled, -⟩ :=
        poll_alone W hseen hpoison hrun
      obtain rfl := hpolled.raw_unlapped
      exact absurd (Outcome.polled.inj houtcome) (by simp [polledLanes])
    | true =>
      have hlanes : ∀ o l, (o, l) ∈ W.into d ↔ (ring d).fromLanes[o]? = some (some l) :=
        fun o l => W.mem_into.trans (W.from_iff d.isLt).symm
      have hstill : ∀ {polled seen' before after lags stop},
          PollRun d true (W.into d) (w.process d).seen before polled seen' after lags stop →
          Shows (w.process d).slots d before after →
          PollStill (w.process d).slots (W.into d) (w.process d).seen seen' stop :=
        fun hpolled hshows => hpolled.still rfl hshows W.into_sorted
          fun p hp => (W.lanesOk.slot p hp).2
      constructor
      · intro hkept
        right
        right
        obtain ⟨outcome, w', hrun⟩ := poll_ends (t := t) W hseen hfree hpoison
        obtain ⟨polled, lags, stop, before, after, rfl, hpolled, hshows⟩ :=
          poll_alone W hseen hpoison hrun
        apply ((hstill hpolled hshows).failsClean hlanes).mpr
        rintro x rfl
        exact hkept _ w' hrun
      · rintro (hraw | hbad | hclean) e w' hrun
        · contradiction
        · contradiction
        · obtain ⟨polled, lags, stop, before, after, houtcome, hpolled, hshows⟩ :=
            poll_alone W hseen hpoison hrun
          cases stop with
          | none => exact absurd (Outcome.polled.inj houtcome) (by simp [polledLanes])
          | some x => exact ((hstill hpolled hshows).failsClean hlanes).mp hclean x rfl

end Alone

/-! ### Corrupted windows -/

/-- Rank 1 of the pair with images in its slots, each given by its position, its sequence
    and its payload. -/
def stocked [Libraries] (images : List (Nat × Nat × Bytes)) : World :=
  (World.fresh 2).modify 1 fun p =>
    { p with slots := images.foldl (fun mem i => mem.write ((pairLane 3 8).slotAt i.1)
        (((Ring.buildImage (pairLane 3 8) [] i.2.1 i.2.2).toOption).getD [])) p.slots }

theorem failing_poll_pair :
    @ConsumesNothing libraries 2 (pairRing true 3 8) pairDestination 0
      (@stocked libraries [(0, 4, [1])]) := by
  let _ := libraries
  apply (failing_poll (pair_three true) pairDestination 0 (by decide) rfl).mpr
  right
  right
  intro o l hat _ _
  obtain rfl : o = 0 := by
    rcases o with _ | _ | o
    · rfl
    · have hnone : none = some l := Option.some.inj hat
      contradiction
    · contradiction
  obtain rfl : pairLane 3 8 = l := Option.some.inj (Option.some.inj hat)
  constructor
  · exact ⟨by decide, 4, by decide +kernel, by decide⟩
  · intro o' ho'
    exact absurd ho' (Nat.not_lt_zero o')

/-- Slot 0 holds the next message and slot 1 a newer one: the poll drains the one, fails at
    the other, and the message it drained is neither returned nor polled again. -/
theorem drained_dropped :
    ¬ @ConsumesNothing libraries 2 (pairRing true 3 8) pairDestination 0
      (@stocked libraries [(0, 1, [1]), (1, 5, [5])]) := by
  let _ := libraries
  have hrun : ((Call.code (pairRing true 3 8) ⟨pairDestination, .poll⟩).complete
      (fun c w => World.exec Faults.none 0 ⟨pairDestination, .poll⟩ c .ok w)
      (stocked [(0, 1, [1]), (1, 5, [5])])).map (fun r =>
        (decide (r.1 = .polled (.error (.error (.lapped 0 2 5)))),
          (r.2.process 1).seen)) = some (true, [1, 0]) := by
    decide +kernel
  obtain ⟨⟨outcome, w'⟩, hcomplete, hobserved⟩ := Option.map_eq_some_iff.mp hrun
  obtain ⟨houtcome, hafter⟩ := Prod.mk.inj hobserved
  have hruns : (Call.code (pairRing true 3 8) ⟨pairDestination, .poll⟩).Runs
      ((ringMachine 2 (pairRing true 3 8) Faults.none).exec 0 ⟨pairDestination, .poll⟩)
      (stocked [(0, 1, [1]), (1, 5, [5])]) outcome w' :=
    Program.complete_runs (fun c w a w' h => ⟨.ok, h⟩) hcomplete
  obtain rfl : outcome = .polled (.error (.error (.lapped 0 2 5))) := of_decide_eq_true houtcome
  intro hkept
  have hsame := hafter.symm.trans (hkept _ w' hruns)
  exact absurd hsame (by decide)

end MpiRma
