/-
  MpiRma/Losses.lean
  ==================
  **What a lane loses.**  While no poll is open, what was added to `lost` of a rank is the
  number of sequences its lanes skipped, each counted once.  A poll on whose lane no image
  lands returns exactly what is left of the puts, and loses what a turn of newer images
  has overwritten.
-/
import MpiRma.History

namespace MpiRma

/-- The sequences up to the cursor of a lane that no poll returned. -/
def skippedOf (s d : Nat) (log : List Event) : List Nat :=
  (List.range' 1 (cursorOf s d log)).filter fun x =>
    ¬ x ∈ (deliveredOf s d log).map Message.sequence

variable [Libraries] {n : Nat} {safe : Bool} {ring : Nat → Ring} {W : Wired n safe ring}
  {faults : Faults} {s d : Nat} {l : Lane}

/-! ### Counting -/

omit [Libraries] in
/-- A repetition-free part of a range and the rest of the range make up the range. -/
theorem append_rest_perm (start len : Nat) {xs : List Nat} (hnodup : xs.Nodup)
    (hxs : ∀ x ∈ xs, x ∈ List.range' start len) :
    (xs ++ (List.range' start len).filter fun x => ¬ x ∈ xs).Perm (List.range' start len) := by
  have hpart : ((List.range' start len).filter fun x => x ∈ xs).Perm xs := by
    refine (List.perm_ext_iff_of_nodup (List.Nodup.filter _ List.nodup_range') hnodup).mpr
      fun x => ?_
    simp only [List.mem_filter, decide_eq_true_eq]
    exact ⟨fun h => h.2, fun h => ⟨hxs x h, h⟩⟩
  have hall := List.filter_append_perm (fun x => decide (x ∈ xs)) (List.range' start len)
  simp only [decide_not]
  exact (hpart.symm.append_right _).trans hall

/-- Up to its cursor, a lane returned each sequence once or skipped it. -/
theorem Lawful.once {log : List Event} (h : Lawful W faults log) (hlane : W.lane s d = some l) :
    ((deliveredOf s d log).map Message.sequence ++ skippedOf s d log).Perm
      (List.range' 1 (cursorOf s d log)) := by
  have hreturned := h.returned hlane
  refine append_rest_perm 1 (cursorOf s d log) ?_ ?_
  · exact (List.pairwise_map.mpr hreturned.ascending).imp Nat.ne_of_lt
  · intro x hx
    obtain ⟨m, hm, rfl⟩ := List.mem_map.mp hx
    obtain ⟨hpos, hle⟩ := hreturned.bounds m hm
    exact List.mem_range'_1.mpr ⟨hpos, by omega⟩

/-- What a lane skipped is what its cursor has passed without returning. -/
theorem Lawful.skipped_count {log : List Event} (h : Lawful W faults log) :
    (skippedOf s d log).length = cursorOf s d log - (deliveredOf s d log).length := by
  cases hlane : W.lane s d with
  | none =>
    rw [skippedOf, cursorOf, h.delivered_none hlane]
    rfl
  | some l =>
    have hcount := (h.once hlane).length_eq
    rw [List.length_append, List.length_map, List.length_range'] at hcount
    omega

/-! ### The total of `lost` -/

def skippedSum (n d : Nat) (log : List Event) : Nat :=
  ((List.range n).map fun s => (skippedOf s d log).length).sum

omit [Libraries] in
theorem skippedSum_congr {log log' : List Event}
    (h : ∀ s, deliveredOf s d log' = deliveredOf s d log) :
    skippedSum n d log' = skippedSum n d log := by
  unfold skippedSum skippedOf cursorOf
  simp only [h]

/-- The number of sequences of a lane the poll that ends a log passed over. -/
def passedOver (s d : Nat) (messages : List Message) (log : List Event) : Nat :=
  cursorOf s d (.polled d (.ok messages) :: log) - cursorOf s d log -
    (fromOrigin s messages).length

section Polled

variable {log : List Event} {messages : List Message}

/-- At a lane that is not configured nothing moves. -/
theorem Lawful.passed_none (h : Lawful W faults (.polled d (.ok messages) :: log))
    (hnone : W.lane s d = none) : passedOver s d messages log = 0 := by
  have hzero : cursorOf s d (.polled d (.ok messages) :: log) = 0 := by
    rw [cursorOf, h.delivered_none hnone]
    rfl
  rw [passedOver, hzero, Nat.zero_sub, Nat.zero_sub]

/-- A lane skips what its polls pass over. -/
theorem Lawful.skipped_polled (h : Lawful W faults (.polled d (.ok messages) :: log)) :
    (skippedOf s d (.polled d (.ok messages) :: log)).length =
      (skippedOf s d log).length + passedOver s d messages log := by
  cases hlane : W.lane s d with
  | none =>
    have hnothing : ∀ log, deliveredOf s d log = [] → skippedOf s d log = [] := by
      intro log hdelivered
      rw [skippedOf, cursorOf, hdelivered]
      rfl
    rw [h.passed_none hlane, hnothing _ (h.delivered_none hlane),
      hnothing _ (h.2.delivered_none hlane)]
    rfl
  | some l =>
    obtain ⟨messages', a, b, frames, hok, hturn⟩ := h.turn hlane
    obtain rfl := Except.ok.inj hok
    have hclimb := hturn.drain.climb.count
    have hreturned := (h.2.returned hlane).count
    rw [h.skipped_count, h.2.skipped_count, passedOver, deliveredOf_polled, List.length_append,
      hturn.messages, List.length_map]
    omega

/-- A poll adds to `lost` what it passes over. -/
theorem Lawful.lost_polled (h : Lawful W faults (.polled d (.ok messages) :: log)) :
    lostSum d log = lostSum d (pollStart d log) +
      ((List.range n).map fun s => passedOver s d messages log).sum := by
  obtain ⟨hd, hopen, messages', lags, hok, hsum⟩ := h.1
  obtain rfl := Except.ok.inj hok
  have hseen : ∀ o < n, ∀ log, (seenOf n d log).getD o 0 = cursorOf o d log := by
    intro o ho log
    rw [List.getD_eq_getElem?_getD, seenOf_get ho]
    rfl
  have hpassed : ∀ p ∈ W.into d, (seenOf n d (.polled d (.ok messages) :: log)).getD p.1 0 -
      (seenOf n d (pollStart d log)).getD p.1 0 - (fromOrigin p.1 messages).length =
      passedOver p.1 d messages log := by
    rintro ⟨o, l⟩ hmem
    have ho := (W.lanes (W.mem_into.mp hmem)).source
    rw [hseen o ho, hseen o ho, ← cursorOf_pollStart hopen, passedOver]
  have hlost := hsum.lost
  rw [List.map_congr_left hpassed, W.sum_into (fun s => passedOver s d messages log)
    fun o _ hnone => h.passed_none hnone] at hlost
  exact hlost

end Polled

/-- **`lost` counts every skipped sequence once.**  While a poll is open this holds of the
    log it began with. -/
theorem Lawful.lost_total {log : List Event} (h : Lawful W faults log) :
    (pollOpen d log = false → lostSum d log = skippedSum n d log) ∧
    (pollOpen d log = true →
      lostSum d (pollStart d log) = skippedSum n d (pollStart d log)) := by
  induction log with
  | nil =>
    have hzero : ∀ s, (skippedOf s d []).length = 0 := fun s => rfl
    refine ⟨fun _ => ?_, fun hopen => ?_⟩
    · simp [skippedSum, hzero, lostSum]
    · contradiction
  | cons e rest ih =>
    obtain ⟨hclosed, hopened⟩ := ih h.2
    cases e with
    | polling rank =>
      by_cases hrank : rank = d
      · subst hrank
        have hwas : pollOpen rank rest = false := h.1
        refine ⟨fun hopen => ?_, fun _ => ?_⟩
        · simp only [pollOpen, if_true] at hopen
          contradiction
        · simp only [pollStart, if_true]
          exact hclosed hwas
      · simp only [pollOpen, pollStart, hrank, if_false]
        exact ⟨hclosed, hopened⟩
    | lost rank count =>
      have hwas : pollOpen rank rest = true := h.1
      by_cases hrank : rank = d
      · subst hrank
        refine ⟨fun hopen => ?_, hopened⟩
        have hopen : pollOpen rank rest = false := hopen
        rw [hwas] at hopen
        contradiction
      · refine ⟨fun hopen => ?_, hopened⟩
        have hsame := hclosed hopen
        rw [lostSum_cons_of_not_owned (e := .lost rank count) hrank]
        exact hsame
    | polled rank result =>
      obtain ⟨-, hwas, messages, -, rfl, -⟩ := h.1
      by_cases hrank : rank = d
      · subst hrank
        refine ⟨fun _ => ?_, fun hopen => ?_⟩
        · have hstart := hopened hwas
          have hsame : skippedSum n rank (pollStart rank rest) = skippedSum n rank rest :=
            skippedSum_congr fun s => (deliveredOf_pollStart hwas).symm
          have hsplit : skippedSum n rank (.polled rank (.ok messages) :: rest) =
              skippedSum n rank rest +
                ((List.range n).map fun s => passedOver s rank messages rest).sum := by
            rw [skippedSum, skippedSum,
              List.map_congr_left fun s _ => h.skipped_polled (s := s), List.sum_map_add]
          rw [hsplit, ← hsame, ← hstart]
          exact h.lost_polled
        · simp only [pollOpen, if_true] at hopen
          contradiction
      · have hsame : ∀ s, deliveredOf s d (.polled rank (.ok messages) :: rest) =
            deliveredOf s d rest := fun s => if_neg hrank
        simp only [pollOpen, hrank, if_false]
        refine ⟨fun hopen => ?_, hopened⟩
        rw [skippedSum_congr hsame]
        exact hclosed hopen
    | _ => exact ⟨hclosed, hopened⟩

/-! ### What a poll skips -/

/-- A sequence a poll skipped was put, and its slot holds it or a newer one; it holds a
    newer one if the put had landed when the poll last looked at the slot. -/
theorem Lawful.skipped_overwritten {log : List Event} {messages : List Message}
    (h : Lawful W faults (.polled d (.ok messages) :: log)) (hlane : W.lane s d = some l) {x : Nat}
    (hlow : cursorOf s d log < x) (hhigh : x ≤ cursorOf s d (.polled d (.ok messages) :: log))
    (hnot : ∀ m ∈ fromOrigin s messages, m.sequence ≠ x) :
    x ≤ Cyclic.newest l.depth (topOf s d log) (l.position x) ∧
      (x ≤ headTop s d (l.slotAt (l.position x)) log →
        x < Cyclic.newest l.depth (topOf s d log) (l.position x)) := by
  have hdepth := (W.lanes hlane).depth
  obtain ⟨messages', a, b, frames, hok, hturn⟩ := h.turn hlane
  obtain rfl := Except.ok.inj hok
  have htop : x ≤ topOf s d log := Nat.le_trans hhigh (h.cursor_le_top hlane)
  refine ⟨Cyclic.le_newest hdepth (by omega) htop, fun hlook => Cyclic.lt_newest hdepth ?_⟩
  have hunread : ∀ f ∈ frames, f.sequence ≠ x := by
    intro f hf
    refine hnot (Frame.message s f) ?_
    rw [hturn.messages]
    exact List.mem_map_of_mem hf
  have hcell := Cyclic.cell_lt hdepth x
  have hlast : headTop s d (l.slotAt (Cyclic.cell l.depth x)) log =
      headTop s d (l.slotAt (Cyclic.cell l.depth x)) b := (hturn.noHead _ hcell).headTop_eq
  rw [Lane.position_eq_cell, hlast] at hlook
  have hover := hturn.drain.skipped (h.2.suffix hturn.stop) hlane x hlow hhigh hunread hlook
  exact Nat.le_trans hover (h.2.top_mono hturn.stop)

/-! ### A poll no put interferes with -/

omit [Libraries] in
/-- Two lists of entries of one table are equal when their keys are. -/
theorem eq_of_keys {α : Type} {table xs ys : List (Nat × α)} (hkeys : (table.map Prod.fst).Nodup)
    (hxs : ∀ x ∈ xs, x ∈ table) (hys : ∀ y ∈ ys, y ∈ table)
    (h : xs.map Prod.fst = ys.map Prod.fst) : xs = ys := by
  induction xs generalizing ys with
  | nil =>
    rw [List.map_nil] at h
    exact (List.map_eq_nil_iff.mp h.symm).symm
  | cons x rest ih =>
    cases ys with
    | nil => exact nomatch h
    | cons y more =>
      rw [List.map_cons, List.map_cons, List.cons.injEq] at h
      have hxy : x = y := List.inj_on_of_nodup_map hkeys (hxs x (by simp)) (hys y (by simp)) h.1
      rw [hxy, ih (fun z hz => hxs z (by simp [hz])) (fun z hz => hys z (by simp [hz])) h.2]

def Message.entry (m : Message) : Nat × Bytes := (m.sequence, m.data)

/-- A part of what was put, by position, is what a list of messages returned says it is,
    when their sequences agree. -/
theorem Lawful.entries_eq {log : List Event} (hputs : faults.puts = false)
    (h : Lawful W faults log) (start len : Nat) {entries : List (Nat × Bytes)}
    (hmem : ∀ e ∈ entries, e ∈ putsOf s d log)
    (hsequences : entries.map Prod.fst = List.range' (start + 1) len)
    (hlen : start + len ≤ topOf s d log) :
    entries = ((putsOf s d log).drop start).take len := by
  have hnumbered := h.puts_numbered hputs (s := s) (d := d)
  have hnodup : ((putsOf s d log).map Prod.fst).Nodup := by
    rw [hnumbered]
    exact List.nodup_range'
  refine eq_of_keys hnodup hmem ?_ ?_
  · intro e he
    exact List.mem_of_mem_drop (List.mem_of_mem_take he)
  · rw [hsequences, List.map_take, List.map_drop, hnumbered, List.drop_range',
      List.take_range'_of_length_ge (by omega)]
    rw [Nat.mul_one, Nat.add_comm 1]

/-- **A poll on whose lane no image lands drains the lane.**  With `r` the cursor and `N`
    the newest sequence put, it returns the puts above `max r (N - depth)`, and its cursor
    ends at `N`. -/
theorem Lawful.quiet_poll {log : List Event} {messages : List Message}
    (hputs : faults.puts = false) (h : Lawful W faults (.polled d (.ok messages) :: log))
    (hlane : W.lane s d = some l) (hquiet : topOf s d (pollStart d log) = topOf s d log) :
    (fromOrigin s messages).map Message.entry =
      (putsOf s d log).drop (max (cursorOf s d log) (topOf s d log - l.depth)) ∧
    cursorOf s d (.polled d (.ok messages) :: log) = topOf s d log ∧
    (skippedOf s d (.polled d (.ok messages) :: log)).length =
      (skippedOf s d log).length + (topOf s d log - cursorOf s d log - l.depth) := by
  obtain ⟨messages', a, b, frames, hok, hturn⟩ := h.turn hlane
  obtain rfl := Except.ok.inj hok
  have hlawB := h.2.suffix hturn.stop
  have hcursor := h.2.cursor_le_top hlane
  have hreturned := h.2.returned hlane
  have ha := (hlawB.suffix hturn.drain.climb.suffix).top_mono (s := s) (d := d) hturn.start
  have hab := hlawB.top_mono (s := s) (d := d) hturn.drain.climb.suffix
  have hb := h.2.top_mono (s := s) (d := d) hturn.stop
  obtain ⟨hsequences, hlast⟩ := hturn.drain.quiet hlawB hlane (N := topOf s d log) (by omega)
    (by omega) hcursor
  have hcount : frames.length = topOf s d log - max (cursorOf s d log)
    (topOf s d log - l.depth) := by
    have := congrArg List.length hsequences
    rwa [List.length_map, List.length_range'] at this
  refine ⟨?_, hlast, ?_⟩
  · have hmem : ∀ e ∈ (fromOrigin s messages).map Message.entry, e ∈ putsOf s d log := by
      intro e he
      obtain ⟨m, hm, rfl⟩ := List.mem_map.mp he
      refine h.delivered_put hputs hlane ?_
      rw [deliveredOf_polled]
      exact List.mem_append_right _ hm
    have hpart := h.2.entries_eq hputs (max (cursorOf s d log) (topOf s d log - l.depth))
      frames.length hmem ?_ (by omega)
    · rw [hpart]
      refine List.take_of_length_le ?_
      have hlength := congrArg List.length (h.2.puts_numbered hputs (s := s) (d := d))
      rw [List.length_map, List.length_range'] at hlength
      rw [List.length_drop, hlength, hcount]
    · rw [hturn.messages, List.map_map, List.map_map, hcount]
      exact hsequences
  · rw [h.skipped_count, h.2.skipped_count, hlast, deliveredOf_polled, hturn.messages,
      List.length_append, List.length_map, hcount]
    have := hreturned.count
    omega

end MpiRma
