/-
  MpiRma/History.lean
  ===================
  **What a lawful log says about one lane.**  The cursor is the last sequence returned and
  stays behind the newest image; what polls returned ascends and was put on the lane; a
  safe lane returns everything and never holds more than a turn of unread images; and
  `lost` counts exactly the sequences a raw lane skipped.
-/
import MpiRma.Deliveries

namespace MpiRma

/-! ### The log of an open poll -/

section Open

variable {s d : Nat}

theorem deliveredOf_pollStart {log : List Event} (h : pollOpen d log = true) :
    deliveredOf s d log = deliveredOf s d (pollStart d log) := by
  induction log with
  | nil => exact nomatch h
  | cons e rest ih =>
    cases e with
    | polling rank =>
      by_cases hrank : rank = d
      · simp only [pollStart, hrank, if_true]
      · simp only [pollOpen, pollStart, hrank, if_false, deliveredOf] at h ⊢
        exact ih h
    | polled rank result =>
      by_cases hrank : rank = d
      · simp only [pollOpen, hrank, if_true] at h
        exact nomatch h
      · simp only [pollOpen, hrank, if_false] at h
        cases result with
        | ok messages =>
          simp only [deliveredOf, hrank, if_false, pollStart]
          exact ih h
        | error e => exact ih h
    | _ => exact ih h

theorem cursorOf_pollStart {log : List Event} (h : pollOpen d log = true) :
    cursorOf s d log = cursorOf s d (pollStart d log) := by
  rw [cursorOf, cursorOf, deliveredOf_pollStart h]

theorem pollStart_suffix (d : Nat) (log : List Event) : pollStart d log <:+ log := by
  induction log with
  | nil => exact List.suffix_refl _
  | cons e rest ih =>
    cases e with
    | polling rank =>
      unfold pollStart
      split
      · exact List.suffix_refl _
      · exact ih.trans (List.suffix_cons _ _)
    | _ => exact ih.trans (List.suffix_cons _ _)

theorem deliveredOf_polled (s : Nat) {d : Nat} {messages : List Message} {log : List Event} :
    deliveredOf s d (.polled d (.ok messages) :: log) =
      deliveredOf s d log ++ fromOrigin s messages := if_pos rfl

theorem cursorOf_polled (s : Nat) {d : Nat} {messages : List Message} {log : List Event} :
    cursorOf s d (.polled d (.ok messages) :: log) =
      ((fromOrigin s messages).getLast?.map Message.sequence).getD (cursorOf s d log) := by
  rw [cursorOf, deliveredOf_polled, List.getLast?_append, cursorOf]
  cases (fromOrigin s messages).getLast? <;> rfl

end Open

variable [Libraries] {n : Nat} {safe : Bool} {ring : Nat → Ring} {W : Wired n safe ring}
  {faults : Faults} {s d : Nat} {l : Lane}

omit [Libraries] in
theorem seenOf_get (hs : s < n) (log : List Event) :
    (seenOf n d log)[s]? = some (cursorOf s d log) := by
  simp [seenOf, hs]

/-! ### The turn of a poll at a lane -/

/-- The turn at a lane of the poll that ends a log: its loop from the cursor before the
    poll to the one after it. -/
structure TurnAt (s d : Nat) (l : Lane) (safe : Bool) (log : List Event)
    (messages : List Message) (a b : List Event) (frames : List Frame) : Prop where
  drain : Drain d l safe l.depth (cursorOf s d log) a frames
    (cursorOf s d (.polled d (.ok messages) :: log)) b none
  messages : fromOrigin s messages = frames.map (Frame.message s)
  start : pollStart d log <:+ a
  stop : b <:+ log
  noHead : ∀ p < l.depth, NoHead d (l.slotAt p) b log

omit [Libraries] in
theorem Wired.covers_apart (hlane : W.lane s d = some l) {p : Nat} (hp : p < l.depth) :
    ¬ coveredByOthers (W.into d) s (l.slotAt p) := by
  rintro ⟨⟨o, l'⟩, hmem, hne, hcover⟩
  have hother := W.mem_into.mp hmem
  have hinside := l.slot_inside hp
  have hge := (W.lanes hlane).slot_ge
  have happart := W.apart hother hlane hne
  dsimp only at hcover
  unfold Lane.covers at hcover
  unfold Lane.slotAt at hcover hinside
  omega

theorem Lawful.turn {log : List Event} {result : Except Fail (List Message)}
    (h : Lawful W faults (.polled d result :: log)) (hlane : W.lane s d = some l) :
    ∃ messages a b frames, result = .ok messages ∧ TurnAt s d l safe log messages a b frames := by
  obtain ⟨-, hopen, messages, lags, rfl, hsum⟩ := h.1
  have hmem := W.mem_into.mpr hlane
  obtain ⟨cursor, cursor', a, b, frames, hc, hc', hdrain, hmessages, hbefore, hafter⟩ :=
    hsum.turns s l hmem
  have hs := (W.lanes hlane).source
  rw [seenOf_get hs] at hc hc'
  obtain rfl := Option.some.inj hc
  obtain rfl := Option.some.inj hc'
  rw [← cursorOf_pollStart hopen] at hdrain
  exact ⟨messages, a, b, frames, rfl, hdrain, hmessages, hbefore.suffix, hafter.suffix,
    fun p hp => hafter.noHead (Wired.covers_apart hlane hp)⟩

/-- A lane that is not configured delivers nothing. -/
theorem Lawful.delivered_none {log : List Event} (h : Lawful W faults log)
    (hnone : W.lane s d = none) : deliveredOf s d log = [] := by
  induction log with
  | nil => rfl
  | cons e rest ih =>
    cases e with
    | polled rank result =>
      cases result with
      | error e => exact ih h.2
      | ok messages =>
        unfold deliveredOf
        split
        · rename_i hrank
          obtain ⟨-, -, messages', lags, hok, hsum⟩ := h.1
          obtain rfl := Except.ok.inj hok
          have hother : ∀ p ∈ W.into rank, p.1 ≠ s := by
            rintro ⟨o, l⟩ hmem rfl
            rw [hrank, W.mem_into, hnone] at hmem
            exact nomatch hmem
          rw [ih h.2, (hsum.others s hother).2, List.append_nil]
        · exact ih h.2
    | _ => exact ih h.2

/-! ### Cursors and deliveries -/

omit [Libraries] in
theorem le_cursorAfter {cursor : Nat} {frames : List Frame}
    (hascending : frames.Pairwise fun a b => a.sequence < b.sequence)
    (hbounds : ∀ f ∈ frames, cursor ≤ f.sequence) :
    cursor ≤ cursorAfter cursor frames ∧ ∀ f ∈ frames, f.sequence ≤ cursorAfter cursor frames := by
  induction frames generalizing cursor with
  | nil => exact ⟨Nat.le_refl _, nofun⟩
  | cons f rest ih =>
    obtain ⟨hfirst, hrest⟩ := List.pairwise_cons.mp hascending
    obtain ⟨hle, hall⟩ := ih hrest fun g hg => Nat.le_of_lt (hfirst g hg)
    rw [cursorAfter_cons]
    refine ⟨Nat.le_trans (hbounds f (by simp)) hle, fun g hg => ?_⟩
    rcases List.mem_cons.mp hg with rfl | hg
    · exact hle
    · exact hall g hg

theorem Lawful.cursor_step {e : Event} {log : List Event} (h : Lawful W faults (e :: log))
    (hlane : W.lane s d = some l) : cursorOf s d log ≤ cursorOf s d (e :: log) := by
  cases e with
  | polled rank result =>
    by_cases hrank : rank = d
    · subst hrank
      obtain ⟨messages, a, b, frames, rfl, hturn⟩ := h.turn hlane
      exact hturn.drain.climb.le
    · cases result with
      | error e => exact Nat.le_refl _
      | ok messages => simp only [cursorOf, deliveredOf, hrank, if_false, Nat.le_refl]
  | _ => exact Nat.le_refl _

theorem Lawful.cursor_mono {log log' : List Event} (h : Lawful W faults log')
    (hlane : W.lane s d = some l) (hs : log <:+ log') : cursorOf s d log ≤ cursorOf s d log' := by
  induction log' with
  | nil => rw [List.suffix_nil.mp hs]
  | cons e rest ih =>
    rcases List.suffix_cons_iff.mp hs with rfl | hs
    · exact Nat.le_refl _
    · exact Nat.le_trans (ih h.2 hs) (h.cursor_step hlane)

/-- A poll of another rank, or an event that is not the end of a poll, delivers nothing. -/
theorem Lawful.delivered_step {e : Event} {log : List Event} (h : Lawful W faults (e :: log)) :
    (∃ messages, e = .polled d (.ok messages)) ∨
      deliveredOf s d (e :: log) = deliveredOf s d log := by
  cases e with
  | polled rank result =>
    cases result with
    | error e => exact .inr rfl
    | ok messages =>
      by_cases hrank : rank = d
      · exact .inl ⟨messages, by rw [hrank]⟩
      · exact .inr (if_neg hrank)
  | _ => exact .inr rfl

/-- The cursor is behind the newest image at every moment. -/
theorem Lawful.cursor_le_top {log : List Event} (h : Lawful W faults log)
    (hlane : W.lane s d = some l) : cursorOf s d log ≤ topOf s d log := by
  suffices hall : ∀ log', log' <:+ log → cursorOf s d log' ≤ topOf s d log' from
    hall log (List.suffix_refl _)
  induction log with
  | nil =>
    intro log' hs
    rw [List.suffix_nil.mp hs]
    exact Nat.le_refl _
  | cons e rest ih =>
    intro log' hs
    rcases List.suffix_cons_iff.mp hs with rfl | hs
    · rcases h.delivered_step (s := s) (d := d) with ⟨messages, rfl⟩ | hsame
      · -- the poll began at an older log, where the bound is known
        obtain ⟨messages', a, b, frames, hok, hturn⟩ := h.turn hlane
        obtain rfl := Except.ok.inj hok
        have hstart := ih h.2 (pollStart d rest) (pollStart_suffix d rest)
        obtain ⟨-, hopen, -⟩ := h.1
        rw [← cursorOf_pollStart hopen] at hstart
        have hlawB := h.2.suffix hturn.stop
        have hlawA := hlawB.suffix hturn.drain.climb.suffix
        have := hturn.drain.cursor_le_top hlawB hlane
          (Nat.le_trans hstart (hlawA.top_mono hturn.start))
        exact Nat.le_trans this (h.2.top_mono hturn.stop)
      · have hcursor : cursorOf s d (e :: rest) = cursorOf s d rest := by
          rw [cursorOf, cursorOf, hsame]
        rw [hcursor]
        exact Nat.le_trans (ih h.2 rest (List.suffix_refl _)) h.top_step
    · exact ih h.2 log' hs

/-- What holds of the messages a lane returned: they ascend up to the cursor, and each was
    copied out of a slot of the lane. -/
structure Returned (s d : Nat) (l : Lane) (log : List Event) : Prop where
  ascending : (deliveredOf s d log).Pairwise fun a b => a.sequence < b.sequence
  bounds : ∀ m ∈ deliveredOf s d log, 0 < m.sequence ∧ m.sequence ≤ cursorOf s d log
  count : (deliveredOf s d log).length ≤ cursorOf s d log
  copied : ∀ m ∈ deliveredOf s d log, m.origin = (s : Int) ∧
    CopyOf d l [] log ⟨m.sequence, m.data⟩

theorem Lawful.returned {log : List Event} (h : Lawful W faults log)
    (hlane : W.lane s d = some l) : Returned s d l log := by
  induction log with
  | nil => exact ⟨.nil, nofun, Nat.le_refl _, nofun⟩
  | cons e rest ih =>
    have hrest := ih h.2
    rcases h.delivered_step (s := s) (d := d) with ⟨messages, rfl⟩ | hsame
    · obtain ⟨messages', a, b, frames, hok, hturn⟩ := h.turn hlane
      obtain rfl := Except.ok.inj hok
      have hclimb := hturn.drain.climb
      have hlast := (le_cursorAfter hclimb.ascending
        fun f hf => Nat.le_of_lt (hclimb.bounds f hf).1).2
      rw [← hclimb.last] at hlast
      refine ⟨?_, fun m hm => ?_, ?_, fun m hm => ?_⟩
      · rw [deliveredOf_polled, hturn.messages]
        refine List.pairwise_append.mpr ⟨hrest.ascending, List.pairwise_map.mpr hclimb.ascending,
          fun m hm m' hm' => ?_⟩
        obtain ⟨f, hf, rfl⟩ := List.mem_map.mp hm'
        exact Nat.lt_of_le_of_lt (hrest.bounds m hm).2 (hclimb.bounds f hf).1
      · rw [deliveredOf_polled, hturn.messages] at hm
        rcases List.mem_append.mp hm with hm | hm
        · obtain ⟨hpos, hle⟩ := hrest.bounds m hm
          exact ⟨hpos, Nat.le_trans hle hclimb.le⟩
        · obtain ⟨f, hf, rfl⟩ := List.mem_map.mp hm
          have hlow := (hclimb.bounds f hf).1
          exact ⟨Nat.lt_of_le_of_lt (Nat.zero_le _) hlow, hlast f hf⟩
      · have := hrest.count
        have := hclimb.count
        rw [deliveredOf_polled, hturn.messages, List.length_append, List.length_map]
        omega
      · rw [deliveredOf_polled, hturn.messages] at hm
        rcases List.mem_append.mp hm with hm | hm
        · obtain ⟨horigin, hcopy⟩ := hrest.copied m hm
          exact ⟨horigin, hcopy.mono (List.suffix_refl _) (List.suffix_cons _ _)⟩
        · obtain ⟨f, hf, rfl⟩ := List.mem_map.mp hm
          refine ⟨rfl, (hturn.drain.copies (W.lanes hlane).depth f hf).mono (List.nil_suffix) ?_⟩
          exact hturn.stop.trans (List.suffix_cons _ _)
    · have hcursor : cursorOf s d (e :: rest) = cursorOf s d rest := by
        rw [cursorOf, cursorOf, hsame]
      refine ⟨?_, ?_, ?_, fun m hm => ?_⟩
      · rw [hsame]
        exact hrest.ascending
      · rw [hsame, hcursor]
        exact hrest.bounds
      · rw [hsame, hcursor]
        exact hrest.count
      · rw [hsame] at hm
        obtain ⟨horigin, hcopy⟩ := hrest.copied m hm
        exact ⟨horigin, hcopy.mono (List.suffix_refl _) (List.suffix_cons _ _)⟩

/-! ### Safe lanes -/

section Safe

variable {ring : Nat → Ring} {W : Wired n true ring} {log : List Event}

/-- A safe lane returns every sequence up to its cursor. -/
theorem Lawful.safe_delivered (h : Lawful W faults log) (hlane : W.lane s d = some l) :
    (deliveredOf s d log).map Message.sequence = List.range' 1 (cursorOf s d log) := by
  induction log with
  | nil => rfl
  | cons e rest ih =>
    have hrest := ih h.2
    rcases h.delivered_step (s := s) (d := d) with ⟨messages, rfl⟩ | hsame
    · obtain ⟨messages', a, b, frames, hok, hturn⟩ := h.turn hlane
      obtain rfl := Except.ok.inj hok
      obtain ⟨hsequences, hlast⟩ := hturn.drain.consecutive
      rw [deliveredOf_polled, hturn.messages, List.map_append, hrest, List.map_map, hlast]
      have hframes : frames.map (Message.sequence ∘ Frame.message s) =
          List.range' (cursorOf s d rest + 1) frames.length := hsequences
      rw [hframes, Nat.add_comm _ 1, List.range'_append_1]
    · rw [cursorOf, hsame]
      exact hrest

/-- A safe lane holds at most a turn of images its polls have not returned. -/
theorem Lawful.safe_room (h : Lawful W faults log) (hlane : W.lane s d = some l) :
    topOf s d log ≤ cursorOf s d log + l.depth := by
  induction log with
  | nil => exact Nat.zero_le _
  | cons e rest ih =>
    have hrest := ih h.2
    have hcursor := h.cursor_step hlane
    cases e with
    | put s' d' q data ok disp len =>
      by_cases hsame : s' = s ∧ d' = d
      · obtain ⟨rfl, rfl⟩ := hsame
        obtain ⟨l', hput, -⟩ := h.1
        obtain rfl : l = l' := Option.some.inj (hlane.symm.trans hput.lane)
        have hroom := hput.room rfl
        simp only [topOf, and_self, if_true]
        exact hroom
      · simp only [topOf, hsame, if_false]
        exact hrest
    | polled => exact Nat.le_trans hrest (Nat.add_le_add_right hcursor _)
    | _ => exact hrest

end Safe

/-! ### Puts that succeed -/

section Puts

variable {log : List Event} (hputs : faults.puts = false)
include hputs

theorem Lawful.sent_eq_top (h : Lawful W faults log) : sentOf s d log = topOf s d log := by
  induction log with
  | nil => rfl
  | cons e rest ih =>
    cases e with
    | put s' d' q data ok disp len =>
      obtain ⟨l, hput, -⟩ := h.1
      have hok : ok = true := by
        rcases hput.fault with hok | hfault
        · exact hok
        · rw [hputs] at hfault
          exact nomatch hfault
      simp only [sentOf, topOf, hok, and_true, ih h.2]
    | _ => exact ih h.2

/-- The puts of a lane are numbered 1, 2, 3, ... -/
theorem Lawful.puts_numbered (h : Lawful W faults log) :
    (putsOf s d log).map Prod.fst = List.range' 1 (topOf s d log) := by
  induction log with
  | nil => rfl
  | cons e rest ih =>
    have hrest := ih h.2
    cases e with
    | put s' d' q data ok disp len =>
      obtain ⟨l, hput, -⟩ := h.1
      have hnext := hput.next
      by_cases hsame : s' = s ∧ d' = d
      · obtain ⟨rfl, rfl⟩ := hsame
        rw [h.2.sent_eq_top hputs] at hnext
        simp only [putsOf, topOf, and_self, if_true, List.map_append, hrest, List.map_cons,
          List.map_nil, hnext]
        rw [List.range'_concat, Nat.one_mul, Nat.add_comm 1]
      · simp only [putsOf, topOf, hsame, if_false, hrest]
    | _ => exact hrest

/-- The payload of a sequence is the one of its only put. -/
theorem Lawful.payload_put (h : Lawful W faults log) {q : Nat} {data : Bytes} :
    payloadOf s d q log = some data ↔ (q, data) ∈ putsOf s d log := by
  induction log with
  | nil => exact ⟨nofun, nofun⟩
  | cons e rest ih =>
    have hrest := ih h.2
    cases e with
    | put s' d' q' data' ok disp len =>
      obtain ⟨l, hput, -⟩ := h.1
      have hnext := hput.next
      by_cases hsame : s' = s ∧ d' = d
      · obtain ⟨rfl, rfl⟩ := hsame
        rw [h.2.sent_eq_top hputs] at hnext
        simp only [payloadOf, putsOf, true_and, and_self, if_true, List.mem_append,
          List.mem_singleton, Prod.mk.injEq]
        by_cases hq : q' = q
        · -- no older put has this number
          have hnot : (q, data) ∉ putsOf s' d' rest := by
            intro hmem
            have := List.mem_map_of_mem (f := Prod.fst) hmem
            rw [h.2.puts_numbered hputs, List.mem_range'_1] at this
            dsimp only at this
            omega
          rw [if_pos hq]
          constructor
          · intro heq
            exact .inr ⟨hq.symm, (Option.some.inj heq).symm⟩
          · rintro (hmem | ⟨-, rfl⟩)
            · exact absurd hmem hnot
            · rfl
        · rw [if_neg hq, hrest]
          constructor
          · exact fun hmem => .inl hmem
          · rintro (hmem | ⟨rfl, -⟩)
            · exact hmem
            · exact absurd rfl hq
      · have hnot : ¬ (s' = s ∧ d' = d ∧ q' = q) := fun h => hsame ⟨h.1, h.2.1⟩
        simp only [payloadOf, putsOf, if_neg hsame, if_neg hnot]
        exact hrest
    | _ => exact hrest

omit [Libraries] hputs in
theorem putsOf_suffix {log log' : List Event} (hs : log <:+ log') :
    putsOf s d log <+: putsOf s d log' := by
  induction log' with
  | nil =>
    obtain rfl := List.suffix_nil.mp hs
    exact List.prefix_refl _
  | cons e rest ih =>
    rcases List.suffix_cons_iff.mp hs with rfl | hs
    · exact List.prefix_refl _
    · refine (ih hs).trans ?_
      cases e with
      | put s' d' q data ok disp len =>
        by_cases hsame : s' = s ∧ d' = d
        · simp only [putsOf, hsame, and_self, if_true]
          exact List.prefix_append _ _
        · simp only [putsOf, hsame, if_false]
          exact List.prefix_refl _
      | _ => exact List.prefix_refl _

/-- What a lane returned was put on it under the sequence it was returned with. -/
theorem Lawful.delivered_put (h : Lawful W faults log) (hlane : W.lane s d = some l)
    {m : Message} (hm : m ∈ deliveredOf s d log) : (m.sequence, m.data) ∈ putsOf s d log := by
  obtain ⟨-, hcopy⟩ := (h.returned hlane).copied m hm
  obtain ⟨older, -, hsuffix, hgenuine⟩ := hcopy.genuine h hlane
  have hmem := ((h.suffix hsuffix).payload_put hputs).mp hgenuine.payload
  exact (putsOf_suffix hsuffix).subset hmem

/-- What a lane returned is a part of what was put on it, in the same order. -/
theorem Lawful.delivered_sublist (h : Lawful W faults log) (hlane : W.lane s d = some l) :
    ((deliveredOf s d log).map fun m => (m.sequence, m.data)).Sublist (putsOf s d log) := by
  have hdelivered : ((deliveredOf s d log).map fun m => (m.sequence, m.data)).Pairwise
      fun a b => a.1 < b.1 := List.pairwise_map.mpr (h.returned hlane).ascending
  have hputsOrdered : (putsOf s d log).Pairwise fun a b => a.1 < b.1 := by
    have hrange : ((putsOf s d log).map Prod.fst).Pairwise (· < ·) := by
      rw [h.puts_numbered hputs]
      exact List.pairwise_lt_range'
    exact List.pairwise_map.mp hrange
  have hantisymm : Std.Antisymm fun a b : Nat × Bytes => a.1 < b.1 :=
    ⟨fun a b hab hba => absurd hba (Nat.lt_asymm hab)⟩
  refine List.sublist_of_subperm_of_pairwise ?_ hdelivered hputsOrdered
  refine List.subperm_of_subset ?_ ?_
  · refine hdelivered.imp ?_
    rintro a b hab rfl
    exact Nat.lt_irrefl _ hab
  · intro p hp
    obtain ⟨m, hm, rfl⟩ := List.mem_map.mp hp
    exact h.delivered_put hputs hlane hm

end Puts

end MpiRma
