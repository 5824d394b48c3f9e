/-
  MpiRma/Deliveries.lean
  ======================
  **What the loop over one lane delivers from a lawful log.**  Every frame was in its slot
  when it was copied, the cursor stays behind the newest image, what is skipped has been
  overwritten if it was there when its slot was last looked at, a safe lane is never found
  lapped, and a lane no image lands on is drained to its end.
-/
import MpiRma.LawFacts

namespace MpiRma

variable [Libraries] {n : Nat} {safe : Bool} {ring : Nat → Ring} {W : Wired n safe ring}
  {faults : Faults}

/-! ### The last look at a slot -/

/-- The newest sequence on the lane from `s` to `d` when the head word at a place was last
    read. -/
def headTop (s d disp : Nat) : List Event → Nat
  | [] => 0
  | .read d' disp' bytes :: log =>
    if d' = d ∧ disp' = disp ∧ bytes.length = WORD then topOf s d log else headTop s d disp log
  | _ :: log => headTop s d disp log

omit [Libraries] in
theorem NoHead.headTop_eq {s d disp : Nat} {before after : List Event}
    (h : NoHead d disp before after) : headTop s d disp after = headTop s d disp before := by
  obtain ⟨added, rfl, hadded⟩ := h
  induction added with
  | nil => rfl
  | cons e rest ih =>
    have hrest := ih fun bytes hmem => hadded bytes (by simp [hmem])
    cases e with
    | read d' disp' bytes =>
      have hnot : ¬ (d' = d ∧ disp' = disp ∧ bytes.length = WORD) := by
        rintro ⟨rfl, rfl, hlen⟩
        exact hadded bytes (by simp) hlen
      rw [List.cons_append, headTop, if_neg hnot, hrest]
    | _ => exact hrest

omit [Libraries] in
theorem headTop_read {s d disp : Nat} {head : Bytes} {log : List Event} (h : head.length = WORD) :
    headTop s d disp (.read d disp head :: log) = topOf s d log :=
  if_pos ⟨rfl, rfl, h⟩

omit [Libraries] in
theorem Lane.position_eq_cell (lane : Lane) (sequence : Nat) :
    lane.position sequence = Cyclic.cell lane.depth sequence := rfl

section Drains

variable {s d : Nat} {l : Lane} {fuel cursor cursor' : Nat} {before after : List Event}
  {frames : List Frame} {stop : Option Nat}

/-! ### What is delivered and what is skipped -/

/-- Every frame a lane delivered was in its slot when it was copied. -/
theorem Drain.genuine (h : Drain d l safe fuel cursor before frames cursor' after stop)
    (hlaw : Lawful W faults after) (hlane : W.lane s d = some l) :
    ∀ f ∈ frames, ∃ older, before <:+ older ∧ older <:+ after ∧ Genuine s d l f older := by
  intro f hf
  exact (h.copies (W.lanes hlane).depth f hf).genuine hlaw hlane

/-- The cursor stays behind the newest image. -/
theorem Drain.cursor_le_top (h : Drain d l safe fuel cursor before frames cursor' after stop)
    (hlaw : Lawful W faults after) (hlane : W.lane s d = some l)
    (hcursor : cursor ≤ topOf s d before) : cursor' ≤ topOf s d after := by
  rw [h.climb.last]
  unfold cursorAfter
  cases hlast : frames.getLast? with
  | none => exact Nat.le_trans hcursor (hlaw.top_mono h.climb.suffix)
  | some f =>
    obtain ⟨older, -, hafter, hgenuine⟩ := h.genuine hlaw hlane f (List.mem_of_getLast? hlast)
    exact Nat.le_trans hgenuine.top (hlaw.top_mono hafter)

/-- What a lane skips has been overwritten, if it had landed when its slot was last looked
    at. -/
theorem Drain.skipped (h : Drain d l safe fuel cursor before frames cursor' after stop)
    (hlaw : Lawful W faults after) (hlane : W.lane s d = some l) :
    ∀ x, cursor < x → x ≤ cursor' → (∀ f ∈ frames, f.sequence ≠ x) →
      x ≤ headTop s d (l.slotAt (Cyclic.cell l.depth x)) after →
      x + l.depth ≤ topOf s d after := by
  have hdepth := (W.lanes hlane).depth
  have hslot : WORD < l.slot := by
    have := (W.lanes hlane).slot_ge
    omega
  induction h with
  | full | exhausted | waits | lapped | unread =>
    intro x hx hx'
    omega
  | @scanned fuel cursor found lost before a b after frames _ hprobe _ hscan hlost hsettle =>
    intro x hx hx' hnone htop
    have hcell := Cyclic.cell_lt hdepth x
    have hlawScan := hlaw.suffix hsettle.suffix
    obtain ⟨m, head, -, hm, hlen, hnoHead, hfound⟩ := hscan.found hlawScan hlane
      (fun p hp => List.mem_range.mp hp) List.nodup_range _ (List.mem_range.mpr hcell)
    have hquiet : ReadsIn d (fun _ => False) b after := hsettle.readsIn
    have hlook := (hnoHead.trans (hquiet.noHead not_false)).headTop_eq (s := s)
    rw [headTop_read hlen] at hlook
    rcases hfound x hx rfl (by omega) with ⟨f, hf, hsame⟩ | hover
    · obtain ⟨g, hg, hsequence⟩ := (survivors_ok frames).2.2 f hf
      exact absurd (hsequence.trans hsame) (hnone g hg)
    · exact Nat.le_trans hover (hlaw.top_mono hsettle.suffix)
  | next _ _ _ hsequence _ ih =>
    intro x hx hx' hnone htop
    have hne : x ≠ _ + 1 := fun heq => hnone _ (List.mem_cons_self ..) (hsequence.trans heq.symm)
    exact ih hlaw x (by omega) hx' (fun f hf => hnone f (List.mem_cons_of_mem _ hf)) htop

theorem Drain.raw_unlapped
    (h : Drain d l false fuel cursor before frames cursor' after stop) : stop = none := by
  generalize hraw : false = safe at h
  induction h with
  | lapped hsafe => exact absurd (hraw.trans hsafe) (by decide)
  | next _ _ _ _ _ ih => exact ih
  | _ => rfl

/-- A safe lane with at most a turn of unread images is not found lapped. -/
theorem Drain.unlapped (h : Drain d l safe fuel cursor before frames cursor' after stop)
    (hlaw : Lawful W faults after) (hlane : W.lane s d = some l)
    (hroom : topOf s d after ≤ cursor + l.depth) : stop = none := by
  have hdepth := (W.lanes hlane).depth
  induction h with
  | full | exhausted | waits | unread => rfl
  | scanned => rfl
  | @lapped fuel cursor found before after _ hprobe hfound =>
    have hcell := Cyclic.cell_lt hdepth (cursor + 1)
    rw [Lane.position_eq_cell] at hprobe
    obtain ⟨a, b, head, htruth⟩ := hprobe.truth hlaw hlane hcell
    obtain ⟨hpos, -, hnewest⟩ := htruth.found found rfl
    have htop := hlaw.top_mono (s := s) (d := d) htruth.tail_after
    have hle := Cyclic.newest_le l.depth (topOf s d b) (Cyclic.cell l.depth (cursor + 1))
    have hplace : Cyclic.cell l.depth (cursor + 1) < topOf s d b := by
      by_contra hlt
      rw [Cyclic.newest_empty (by omega)] at hnewest
      omega
    obtain ⟨-, hcell', -⟩ := Cyclic.newest_written hdepth hcell hplace
    rw [← hnewest] at hcell' hle
    have := Cyclic.turn_le (Nat.succ_pos cursor) hcell'.symm hfound
    omega
  | next _ _ _ _ _ ih => exact ih hlaw (by omega)

/-! ### A lane no image lands on -/

omit [Libraries] in
/-- A strictly ascending list is determined by its members. -/
theorem sequences_eq {frames : List Frame} {start len : Nat}
    (hascending : frames.Pairwise fun a b => a.sequence < b.sequence)
    (hmem : ∀ x, (∃ f ∈ frames, f.sequence = x) ↔ start ≤ x ∧ x < start + len) :
    frames.map Frame.sequence = List.range' start len := by
  have hsorted : (frames.map Frame.sequence).Pairwise (· < ·) := List.pairwise_map.mpr hascending
  have hperm : (frames.map Frame.sequence).Perm (List.range' start len) := by
    refine (List.perm_ext_iff_of_nodup (hsorted.imp Nat.ne_of_lt) List.nodup_range').mpr fun x => ?_
    rw [List.mem_map, hmem x, List.mem_range'_1]
  exact hperm.eq_of_pairwise (fun a b _ _ hab hba => absurd hba (Nat.lt_asymm hab)) hsorted
    List.pairwise_lt_range'

variable {N : Nat}

/-- What a probe finds while the newest sequence stays `N`. -/
theorem Probed.quiet {p : Nat} {probed : Option Nat} (h : Probed d l p before probed after)
    (hlaw : Lawful W faults after) (hlane : W.lane s d = some l) (hp : p < l.depth)
    (hbefore : topOf s d before = N) (hafter : topOf s d after = N) :
    (probed = none ∧ Cyclic.newest l.depth N p = 0) ∨
      (probed = some (Cyclic.newest l.depth N p) ∧ 0 < Cyclic.newest l.depth N p) := by
  obtain ⟨a, b, head, htruth⟩ := h.truth hlaw hlane hp
  have hb := hlaw.top_mono (s := s) (d := d) htruth.tail_after
  have hab := (hlaw.suffix htruth.tail_after).top_mono (s := s) (d := d) htruth.head_tail
  have ha := (hlaw.suffix (htruth.head_tail.trans htruth.tail_after)).top_mono (s := s) (d := d)
    htruth.before_head
  obtain rfl : topOf s d a = N := by omega
  obtain hsame : topOf s d b = topOf s d a := by omega
  cases probed with
  | none =>
    rcases htruth.missed rfl with hzero | hlt
    · exact .inl ⟨rfl, hzero⟩
    · rw [hsame] at hlt
      exact absurd hlt (Nat.lt_irrefl _)
  | some found =>
    obtain ⟨hpos, hfound, -⟩ := htruth.found found rfl
    exact .inr ⟨congrArg some hfound, hfound ▸ hpos⟩

/-- What a copy shows while the newest sequence stays `N`. -/
theorem Copied.quiet {p : Nat} {image : Bytes} (h : Copied d l p before image after)
    (hlaw : Lawful W faults after) (hlane : W.lane s d = some l) (hp : p < l.depth)
    (hbefore : topOf s d before = N) (hafter : topOf s d after = N) :
    Ring.sequenceOf (Ring.frameOf l image) = Cyclic.newest l.depth N p := by
  obtain ⟨a, hbeforeA, haAfter, hframe⟩ := h.truth hlaw hlane hp
  have ha := hlaw.top_mono (s := s) (d := d) haAfter
  have hba := (hlaw.suffix haAfter).top_mono (s := s) (d := d) hbeforeA
  rw [hframe, sequenceOf_contentAt]
  congr 1
  omega

/-- A lane at most a turn behind is read in order to its end. -/
theorem Drain.quiet_near (h : Drain d l safe fuel cursor before frames cursor' after stop)
    (hlaw : Lawful W faults after) (hlane : W.lane s d = some l)
    (hbefore : topOf s d before = N) (hafter : topOf s d after = N) (hcursor : cursor ≤ N)
    (hfuel : N ≤ cursor + fuel) (hturn : fuel ≤ l.depth) :
    frames.map Frame.sequence = List.range' (cursor + 1) (N - cursor) ∧ cursor' = N := by
  have hdepth := (W.lanes hlane).depth
  have hmax : N ≤ u64Max := hafter ▸ hlaw.top_le_max
  -- the slot of the next sequence holds it, as long as there is one
  have hthere : ∀ cursor, cursor < N → N ≤ cursor + l.depth →
      Cyclic.newest l.depth N (l.position (cursor + 1)) = cursor + 1 := fun cursor hlt hle =>
    Cyclic.newest_eq hdepth (Nat.succ_pos cursor) hlt (by omega)
  have hdone : ∀ cursor, cursor = N → ([] : List Frame).map Frame.sequence =
      List.range' (cursor + 1) (N - cursor) ∧ cursor = N := by
    rintro cursor rfl
    exact ⟨by simp, rfl⟩
  have hfinds : ∀ cursor fuel, N ≤ cursor + fuel → fuel ≤ l.depth → ∀ {before after probed},
      Probed d l (l.position (cursor + 1)) before probed after → Lawful W faults after →
      topOf s d before = N → topOf s d after = N → cursor < N → probed = some (cursor + 1) := by
    intro cursor fuel hle hturn before after probed hprobe hlaw hb ha hlt
    have hnewest := hthere cursor hlt (by omega)
    rcases hprobe.quiet hlaw hlane (Nat.mod_lt _ hdepth) hb ha with ⟨-, hzero⟩ | ⟨hsome, -⟩
    · omega
    · rw [hsome, hnewest]
  induction h with
  | full => exact hdone _ (by omega)
  | exhausted => exact hdone _ (by omega)
  | @waits fuel cursor before after probed hprobe hlow =>
    refine hdone _ ?_
    by_contra hne
    have := hlow _ (hfinds cursor _ hfuel hturn hprobe hlaw hbefore hafter (by omega))
    omega
  | @lapped fuel cursor found before after _ hprobe hfound =>
    exfalso
    rcases hprobe.quiet hlaw hlane (Nat.mod_lt _ hdepth) hbefore hafter with ⟨hnone, -⟩ | ⟨hsome, -⟩
    · exact nomatch hnone
    · have hle := Cyclic.newest_le l.depth N (l.position (cursor + 1))
      have := Option.some.inj hsome
      have := hthere cursor (by omega) (by omega)
      omega
  | @scanned fuel cursor found lost before a b after frames _ hprobe hfound hscan _ hsettle =>
    exfalso
    have hrest := hscan.grows.1.trans hsettle.suffix
    have hb := hlaw.top_mono (s := s) (d := d) hrest
    have ha := (hlaw.suffix hrest).top_mono (s := s) (d := d) hprobe.grows.1
    rcases hprobe.quiet (hlaw.suffix hrest) hlane (Nat.mod_lt _ hdepth) hbefore (by omega) with
      ⟨hnone, -⟩ | ⟨hsome, -⟩
    · exact nomatch hnone
    · have hle := Cyclic.newest_le l.depth N (l.position (cursor + 1))
      have := Option.some.inj hsome
      have := hthere cursor (by omega) (by omega)
      omega
  | @unread fuel cursor before a after image hprobe hcopy hother =>
    exfalso
    have ha := hlaw.top_mono (s := s) (d := d) hcopy.grows.1
    have hb := (hlaw.suffix hcopy.grows.1).top_mono (s := s) (d := d) hprobe.grows.1
    have hsequence := hcopy.quiet hlaw hlane (Nat.mod_lt _ hdepth) (N := N) (by omega) hafter
    rcases hprobe.quiet (hlaw.suffix hcopy.grows.1) hlane (Nat.mod_lt _ hdepth) hbefore (by omega)
      with ⟨hnone, -⟩ | ⟨hsome, -⟩
    · exact nomatch hnone
    · rw [← Option.some.inj hsome] at hsequence
      cases hframe : Ring.frameOf l image with
      | none =>
        rw [hframe] at hsequence
        exact nomatch hsequence
      | some frame =>
        rw [hframe] at hsequence
        exact hother frame hframe hsequence
  | @next fuel cursor cursor' before a b after image frame frames stop hprobe hcopy hframe
      hsequence hrest ih =>
    have hc := hlaw.top_mono (s := s) (d := d) hrest.climb.suffix
    have hlawB := hlaw.suffix hrest.climb.suffix
    have hb := hlawB.top_mono (s := s) (d := d) hcopy.grows.1
    have ha := (hlawB.suffix hcopy.grows.1).top_mono (s := s) (d := d) hprobe.grows.1
    have hlt : cursor + 1 ≤ N := by
      rcases hprobe.quiet (hlawB.suffix hcopy.grows.1) hlane (Nat.mod_lt _ hdepth)
        hbefore (by omega)
        with ⟨hnone, -⟩ | ⟨hsome, -⟩
      · exact nomatch hnone
      · rw [Option.some.inj hsome]
        exact Cyclic.newest_le _ _ _
    obtain ⟨hmap, hlast⟩ := ih hlaw (by omega) hafter hlt (by omega) (by omega)
    refine ⟨?_, hlast⟩
    have hcount : N - cursor = (N - (cursor + 1)) + 1 := by omega
    rw [List.map_cons, hsequence, hmap, hcount, List.range'_succ]

/-- A lane more than a turn behind is scanned once, which finds all that is left. -/
theorem Drain.quiet_far (h : Drain d l safe (fuel + 1) cursor before frames cursor' after none)
    (hlaw : Lawful W faults after) (hlane : W.lane s d = some l)
    (hbefore : topOf s d before = N) (hafter : topOf s d after = N)
    (hfar : cursor + l.depth < N) :
    frames.map Frame.sequence = List.range' (N - l.depth + 1) l.depth ∧ cursor' = N := by
  have hdepth := (W.lanes hlane).depth
  have hmax : N ≤ u64Max := hafter ▸ hlaw.top_le_max
  have hgenuine := h.genuine hlaw hlane
  have hlast := h.climb.last
  have hover : cursor + 1 < Cyclic.newest l.depth N (l.position (cursor + 1)) :=
    Cyclic.lt_newest hdepth (by omega)
  have hfinds : ∀ {after' probed}, after' <:+ after →
      Probed d l (l.position (cursor + 1)) before probed after' →
      probed = some (Cyclic.newest l.depth N (l.position (cursor + 1))) := by
    intro after' probed hsuffix hprobe
    have ha := hlaw.top_mono (s := s) (d := d) hsuffix
    have hb := (hlaw.suffix hsuffix).top_mono (s := s) (d := d) hprobe.grows.1
    rcases hprobe.quiet (hlaw.suffix hsuffix) hlane (Nat.mod_lt _ hdepth) hbefore (by omega) with
      ⟨-, hzero⟩ | ⟨hsome, -⟩
    · omega
    · exact hsome
  suffices hmap : frames.map Frame.sequence = List.range' (N - l.depth + 1) l.depth by
    refine ⟨hmap, ?_⟩
    have hcursor : cursorAfter cursor frames =
        ((frames.map Frame.sequence).getLast?).getD cursor := by
      rw [List.getLast?_map]
      rfl
    rw [hlast, hcursor, hmap, List.getLast?_range', if_neg (by omega), Option.getD_some]
    omega
  cases h with
  | exhausted hfull => omega
  | waits hprobe hlow =>
    have := hlow _ (hfinds (List.suffix_refl _) hprobe)
    omega
  | unread hprobe hcopy =>
    have := Option.some.inj (hfinds hcopy.grows.1 hprobe)
    omega
  | next hprobe hcopy _ _ hrest =>
    have := Option.some.inj (hfinds (hcopy.grows.1.trans hrest.climb.suffix) hprobe)
    omega
  | @scanned _ _ found lost _ a b _ collected _ hprobe _ hscan _ hsettle =>
    obtain ⟨hascending, -, hkept⟩ := survivors_ok collected
    refine sequences_eq hascending fun x => ⟨?_, fun hx => ?_⟩
    · rintro ⟨f, hf, rfl⟩
      obtain ⟨older, hold, hnew, hgen⟩ := hgenuine f hf
      have h₁ := hlaw.top_mono (s := s) (d := d) hnew
      have h₂ := (hlaw.suffix hnew).top_mono (s := s) (d := d) hold
      have := hgen.top
      have := hgen.turn
      omega
    · have hcell := Cyclic.cell_lt hdepth x
      obtain ⟨m, head, hm, hm', -, -, hfound⟩ := hscan.found (hlaw.suffix hsettle.suffix) hlane
        (fun p hp => List.mem_range.mp hp) List.nodup_range _ (List.mem_range.mpr hcell)
      have h₁ := (hlaw.suffix (hm'.trans hsettle.suffix)).top_mono (s := s) (d := d)
        (hprobe.grows.1.trans hm)
      have h₂ := hlaw.top_mono (s := s) (d := d) hsettle.suffix
      rcases hfound x (by omega) rfl (by omega) with ⟨f, hf, hsame⟩ | hover
      · obtain ⟨g, hg, hsequence⟩ := hkept f hf
        exact ⟨g, hg, hsequence.trans hsame⟩
      · omega

/-- **A lane no image lands on is drained.**  With newest sequence `N` a whole loop delivers
    what is left of the messages above the cursor, and leaves the cursor at `N`. -/
theorem Drain.quiet (h : Drain d l safe l.depth cursor before frames cursor' after none)
    (hlaw : Lawful W faults after) (hlane : W.lane s d = some l)
    (hbefore : topOf s d before = N) (hafter : topOf s d after = N) (hcursor : cursor ≤ N) :
    frames.map Frame.sequence = List.range' (max cursor (N - l.depth) + 1)
      (N - max cursor (N - l.depth)) ∧ cursor' = N := by
  have hdepth := (W.lanes hlane).depth
  by_cases hnear : N ≤ cursor + l.depth
  · rw [Nat.max_eq_left (by omega)]
    exact h.quiet_near hlaw hlane hbefore hafter hcursor hnear (Nat.le_refl _)
  · rw [Nat.max_eq_right (by omega), Nat.sub_sub_self (by omega)]
    obtain ⟨k, hk⟩ := Nat.exists_eq_add_one_of_ne_zero (Nat.pos_iff_ne_zero.mp hdepth)
    have hloop : Drain d l safe (k + 1) cursor before frames cursor' after none := hk ▸ h
    exact hloop.quiet_far hlaw hlane hbefore hafter (by omega)

end Drains

end MpiRma
