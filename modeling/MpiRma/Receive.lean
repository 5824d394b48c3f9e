/-
  MpiRma/Receive.lean
  ===================
  **What a poll does with what it reads.**  The relations of this file describe a poll by
  the reads it made and the log it left: `Probed` and `Copied` are the reads of one slot,
  `Scanned` a recovery scan, `Drain` the loop over one lane and `PollRun` the loop over
  the incoming lanes.  They follow the code case by case and say nothing about where the
  bytes came from; `pollLanes_runs` proves that every run of a poll is described by them,
  whatever each read returns and whatever other threads do in between.
-/
import MpiRma.Image
import MpiRma.World
import Mathlib.Data.Nat.ModEq

namespace MpiRma

/-! ### The part of the log a poll writes -/

/-- The events only a thread holding `seen` of rank `d` writes. -/
def Event.owned (d : Nat) : Event → Prop
  | .polling rank => rank = d
  | .read rank _ _ => rank = d
  | .lost rank _ => rank = d
  | .polled rank _ => rank = d
  | .put _ _ _ _ _ _ _ => False
  | .returned _ _ _ => False

/-- The total added to `lost` of rank `d`. -/
def lostSum (d : Nat) : List Event → Nat
  | [] => 0
  | .lost rank count :: log => (if rank = d then count else 0) + lostSum d log
  | _ :: log => lostSum d log

def Extends (d : Nat) (before after : List Event) : Prop :=
  ∃ added, after = added ++ before ∧ ∀ e ∈ added, ¬ e.owned d

def Settles (d count : Nat) (before after : List Event) : Prop :=
  ∃ added, after = added ++ before ∧
    (∀ e ∈ added, ¬ e.owned d ∨ ∃ k, e = .lost d k) ∧
    lostSum d after = lostSum d before + count

theorem Extends.refl (d : Nat) (log : List Event) : Extends d log log := ⟨[], rfl, nofun⟩

theorem Extends.trans {d : Nat} {a b c : List Event} (h : Extends d a b) (h' : Extends d b c) :
    Extends d a c := by
  obtain ⟨e, rfl, he⟩ := h
  obtain ⟨e', rfl, he'⟩ := h'
  refine ⟨e' ++ e, by simp, fun x hx => ?_⟩
  rcases List.mem_append.mp hx with hx | hx
  · exact he' x hx
  · exact he x hx

theorem Extends.suffix {d : Nat} {a b : List Event} (h : Extends d a b) : a <:+ b := by
  obtain ⟨e, rfl, -⟩ := h
  exact List.suffix_append e a

theorem lostSum_cons_of_not_owned {d : Nat} {e : Event} {log : List Event} (h : ¬ e.owned d) :
    lostSum d (e :: log) = lostSum d log := by
  cases e with
  | lost rank count =>
    have hne : ¬ rank = d := h
    simp [lostSum, hne]
  | _ => rfl

theorem lostSum_read (d rank disp : Nat) (bytes : Bytes) (log : List Event) :
    lostSum d (.read rank disp bytes :: log) = lostSum d log := rfl

theorem Extends.lostSum {d : Nat} {a b : List Event} (h : Extends d a b) :
    lostSum d b = lostSum d a := by
  obtain ⟨added, rfl, hadded⟩ := h
  induction added with
  | nil => rfl
  | cons e rest ih =>
    rw [List.cons_append, lostSum_cons_of_not_owned (hadded e (by simp))]
    exact ih fun x hx => hadded x (by simp [hx])

theorem Settles.of_extends {d : Nat} {a b : List Event} (h : Extends d a b) : Settles d 0 a b := by
  have hsum := h.lostSum
  obtain ⟨added, rfl, hadded⟩ := h
  exact ⟨added, rfl, fun e he => .inl (hadded e he), by omega⟩

theorem Settles.trans {d j k : Nat} {a b c : List Event} (h : Settles d j a b)
    (h' : Settles d k b c) : Settles d (j + k) a c := by
  obtain ⟨e, rfl, he, hsum⟩ := h
  obtain ⟨e', rfl, he', hsum'⟩ := h'
  refine ⟨e' ++ e, by simp, fun x hx => ?_, by omega⟩
  rcases List.mem_append.mp hx with hx | hx
  · exact he' x hx
  · exact he x hx

theorem Settles.lost (d count : Nat) (log : List Event) :
    Settles d count log (.lost d count :: log) := by
  refine ⟨[.lost d count], rfl, fun e he => .inr ⟨count, by simpa using he⟩, ?_⟩
  simp [MpiRma.lostSum, Nat.add_comm]

theorem Settles.suffix {d k : Nat} {a b : List Event} (h : Settles d k a b) : a <:+ b := by
  obtain ⟨e, rfl, -, -⟩ := h
  exact List.suffix_append e a

/-! ### Runs of the receive side -/

section Runs

variable [Libraries] (d : Nat) (lane : Lane)

/-- What `probe` makes of the two words it reads. -/
def probeOf (head tail : Bytes) : Option Nat :=
  if ofLE head = 0 then none
  else if ofLE tail ≠ Ring.bitNot (ofLE head) then none
  else some (ofLE head)

/-- A probe read the head word and the guard word of a slot, others acting in between. -/
inductive Probed (position : Nat) : List Event → Option Nat → List Event → Prop where
  | mk {before a b after : List Event} {head tail : Bytes} (h : Extends d before a)
      (hhead : head.length = WORD)
      (h' : Extends d (.read d (lane.slotAt position) head :: a) b) (htail : tail.length = WORD)
      (h'' : Extends d (.read d (lane.guardAt position) tail :: b) after) :
      Probed position before (probeOf head tail) after

/-- A slot was copied. -/
inductive Copied (position : Nat) : List Event → Bytes → List Event → Prop where
  | mk {before a after : List Event} {image : Bytes} (h : Extends d before a)
      (himage : image.length = lane.slot)
      (h' : Extends d (.read d (lane.slotAt position) image :: a) after) :
      Copied position before image after

/-- A recovery scan over the positions collected the frames above `seen`. -/
inductive Scanned (seen : Nat) : List Nat → List Event → List Frame → List Event → Prop where
  | nil {log : List Event} : Scanned seen [] log [] log
  | skip {p : Nat} {rest : List Nat} {before a after : List Event} {probed : Option Nat}
      {frames : List Frame} (hprobe : Probed d lane p before probed a)
      (hlow : ∀ found, probed = some found → found ≤ seen)
      (hrest : Scanned seen rest a frames after) : Scanned seen (p :: rest) before frames after
  | pass {p found : Nat} {rest : List Nat} {before a b after : List Event} {image : Bytes}
      {frames : List Frame} (hprobe : Probed d lane p before (some found) a) (hfound : seen < found)
      (hcopy : Copied d lane p a image b)
      (hlow : ∀ frame, Ring.frameOf lane image = some frame → frame.sequence ≤ seen)
      (hrest : Scanned seen rest b frames after) : Scanned seen (p :: rest) before frames after
  | take {p found : Nat} {rest : List Nat} {before a b after : List Event} {image : Bytes}
      {frame : Frame} {frames : List Frame} (hprobe : Probed d lane p before (some found) a)
      (hfound : seen < found) (hcopy : Copied d lane p a image b)
      (hframe : Ring.frameOf lane image = some frame) (hseen : seen < frame.sequence)
      (hrest : Scanned seen rest b frames after) :
      Scanned seen (p :: rest) before (frame :: frames) after

/-- The frames of a scan as `recover` returns them. -/
def survivors (frames : List Frame) : List Frame :=
  Ring.dedupByKey Frame.sequence (Libraries.sortUnstable frames)

def cursorAfter (cursor : Nat) (frames : List Frame) : Nat :=
  (frames.getLast?.map Frame.sequence).getD cursor

/-- The loop over one lane from a cursor: the frames it delivered, the cursor it left, and
    the sequence found in the slot when it stopped because the lane had lapped. -/
inductive Drain (safe : Bool) :
    Nat → Nat → List Event → List Frame → Nat → List Event → Option Nat → Prop where
  | full {cursor : Nat} {log : List Event} : Drain safe 0 cursor log [] cursor log none
  | exhausted {fuel cursor : Nat} {log : List Event} (h : u64Max < cursor + 1) :
      Drain safe (fuel + 1) cursor log [] cursor log none
  | waits {fuel cursor : Nat} {before after : List Event} {probed : Option Nat}
      (hprobe : Probed d lane (lane.position (cursor + 1)) before probed after)
      (hlow : ∀ found, probed = some found → found ≤ cursor) :
      Drain safe (fuel + 1) cursor before [] cursor after none
  | lapped {fuel cursor found : Nat} {before after : List Event} (hsafe : safe = true)
      (hprobe : Probed d lane (lane.position (cursor + 1)) before (some found) after)
      (hfound : cursor + 1 < found) :
      Drain safe (fuel + 1) cursor before [] cursor after (some found)
  | scanned {fuel cursor found lost : Nat} {before a b after : List Event} {frames : List Frame}
      (hsafe : safe = false)
      (hprobe : Probed d lane (lane.position (cursor + 1)) before (some found) a)
      (hfound : cursor + 1 < found)
      (hscan : Scanned d lane cursor (List.range lane.depth) a frames b)
      (hlost : cursorAfter cursor (survivors frames) = cursor + (survivors frames).length + lost)
      (hsettle : Settles d lost b after) :
      Drain safe (fuel + 1) cursor before (survivors frames)
        (cursorAfter cursor (survivors frames)) after none
  | unread {fuel cursor : Nat} {before a after : List Event} {image : Bytes}
      (hprobe : Probed d lane (lane.position (cursor + 1)) before (some (cursor + 1)) a)
      (hcopy : Copied d lane (lane.position (cursor + 1)) a image after)
      (hother : ∀ frame, Ring.frameOf lane image = some frame → frame.sequence ≠ cursor + 1) :
      Drain safe (fuel + 1) cursor before [] cursor after none
  | next {fuel cursor cursor' : Nat} {before a b after : List Event} {image : Bytes}
      {frame : Frame} {frames : List Frame} {stop : Option Nat}
      (hprobe : Probed d lane (lane.position (cursor + 1)) before (some (cursor + 1)) a)
      (hcopy : Copied d lane (lane.position (cursor + 1)) a image b)
      (hframe : Ring.frameOf lane image = some frame) (hsequence : frame.sequence = cursor + 1)
      (hrest : Drain safe fuel (cursor + 1) b frames cursor' after stop) :
      Drain safe (fuel + 1) cursor before (frame :: frames) cursor' after stop

end Runs

def Frame.message (origin : Nat) (frame : Frame) : Message := ⟨origin, frame.sequence, frame.data⟩

/-- The loop over the incoming lanes, from one `seen` vector to the next: the messages, the
    advance of each lane, and the lane, expected and found sequence when one had lapped. -/
inductive PollRun [Libraries] (d : Nat) (safe : Bool) : List (Nat × Lane) → List Nat → List Event →
    List Message → List Nat → List Event → List Nat → Option (Nat × Nat × Nat) → Prop where
  | done {seen : List Nat} {log : List Event} : PollRun d safe [] seen log [] seen log [] none
  | lane {o cursor cursor' : Nat} {l : Lane} {rest : List (Nat × Lane)} {seen seen' : List Nat}
      {before a b after : List Event} {frames : List Frame} {messages : List Message}
      {lags : List Nat} {stop : Option (Nat × Nat × Nat)} (hcursor : seen[o]? = some cursor)
      (hdrain : Drain d l safe l.depth cursor before frames cursor' a none)
      (hother : Extends d a b)
      (hrest : PollRun d safe rest (seen.set o cursor') b messages seen' after lags stop) :
      PollRun d safe ((o, l) :: rest) seen before (frames.map (Frame.message o) ++ messages) seen'
        after ((cursor' - cursor) :: lags) stop
  | lapped {o cursor cursor' found : Nat} {l : Lane} {rest : List (Nat × Lane)} {seen : List Nat}
      {before after : List Event} {frames : List Frame} (hcursor : seen[o]? = some cursor)
      (hdrain : Drain d l safe l.depth cursor before frames cursor' after (some found)) :
      PollRun d safe ((o, l) :: rest) seen before [] (seen.set o cursor') after []
        (some (o, cursor' + 1, found))

/-! ### The frames of a scan -/

section Survivors

theorem mem_dedupFrom {α : Type} {key : α → Nat} {last : Nat} {xs : List α} {x : α}
    (h : x ∈ Ring.dedupFrom key last xs) : x ∈ xs := by
  induction xs generalizing last with
  | nil => exact nomatch h
  | cons a rest ih =>
    unfold Ring.dedupFrom at h
    split at h
    · exact List.mem_cons_of_mem _ (ih h)
    · rcases List.mem_cons.mp h with rfl | h
      · exact List.mem_cons_self ..
      · exact List.mem_cons_of_mem _ (ih h)

/-- Dropping repetitions of a sorted list leaves one element of each key, ascending. -/
theorem dedupFrom_sorted {α : Type} {key : α → Nat} {last : Nat} {xs : List α}
    (hsorted : xs.Pairwise fun a b => key a ≤ key b) (hlast : ∀ x ∈ xs, last ≤ key x) :
    (Ring.dedupFrom key last xs).Pairwise (fun a b => key a < key b) ∧
      (∀ x ∈ Ring.dedupFrom key last xs, last < key x) ∧
      ∀ x ∈ xs, key x = last ∨ ∃ y ∈ Ring.dedupFrom key last xs, key y = key x := by
  induction xs generalizing last with
  | nil => exact ⟨.nil, nofun, nofun⟩
  | cons a rest ih =>
    obtain ⟨hfirst, hrest⟩ := List.pairwise_cons.mp hsorted
    have ha := hlast a (by simp)
    unfold Ring.dedupFrom
    by_cases hkey : key a = last
    · rw [if_pos hkey]
      obtain ⟨h₁, h₂, h₃⟩ := ih hrest fun x hx => hlast x (by simp [hx])
      refine ⟨h₁, h₂, fun x hx => ?_⟩
      rcases List.mem_cons.mp hx with rfl | hx
      · exact .inl hkey
      · exact h₃ x hx
    · rw [if_neg hkey]
      obtain ⟨h₁, h₂, h₃⟩ := ih hrest hfirst
      refine ⟨List.pairwise_cons.mpr ⟨h₂, h₁⟩, fun x hx => ?_, fun x hx => .inr ?_⟩
      · rcases List.mem_cons.mp hx with rfl | hx
        · omega
        · have := h₂ x hx
          omega
      · rcases List.mem_cons.mp hx with rfl | hx
        · exact ⟨x, by simp, rfl⟩
        · rcases h₃ x hx with h | ⟨y, hy, h⟩
          · exact ⟨a, by simp, h.symm⟩
          · exact ⟨y, by simp [hy], h⟩

/-- The frames `recover` returns: one of each sequence that was collected, ascending. -/
theorem survivors_ok [Libraries] (frames : List Frame) :
    (survivors frames).Pairwise (fun a b => a.sequence < b.sequence) ∧
      (∀ f ∈ survivors frames, f ∈ frames) ∧
      ∀ f ∈ frames, ∃ g ∈ survivors frames, g.sequence = f.sequence := by
  have hsorted := Libraries.sorted frames
  have hmem : ∀ f, f ∈ Libraries.sortUnstable frames ↔ f ∈ frames :=
    fun f => (Libraries.perm frames).mem_iff
  unfold survivors
  generalize Libraries.sortUnstable frames = sorted at hsorted hmem
  cases sorted with
  | nil =>
    refine ⟨.nil, nofun, fun f hf => ?_⟩
    exact nomatch (hmem f).mpr hf
  | cons a rest =>
    obtain ⟨hfirst, hrest⟩ := List.pairwise_cons.mp hsorted
    obtain ⟨h₁, h₂, h₃⟩ := dedupFrom_sorted hrest hfirst
    refine ⟨List.pairwise_cons.mpr ⟨h₂, h₁⟩, fun f hf => ?_, fun f hf => ?_⟩
    · rcases List.mem_cons.mp hf with rfl | hf
      · exact (hmem f).mp (by simp)
      · exact (hmem f).mp (by simp [mem_dedupFrom hf])
    · rcases List.mem_cons.mp ((hmem f).mpr hf) with rfl | hf
      · exact ⟨f, List.mem_cons_self .., rfl⟩
      · rcases h₃ f hf with h | ⟨g, hg, h⟩
        · exact ⟨a, List.mem_cons_self .., h.symm⟩
        · exact ⟨g, List.mem_cons_of_mem _ hg, h⟩

end Survivors

theorem frameOf_le [Libraries] {lane : Lane} {image : Bytes} {frame : Frame}
    (h : Ring.frameOf lane image = some frame) : frame.sequence ≤ u64Max := by
  have hlt := ofLE_lt (view image 0 WORD)
  rw [(Ring.frameOf_some h).1] at hlt
  have hlen : (view image 0 WORD).length ≤ 8 := List.length_take_le _ _
  have : 256 ^ (view image 0 WORD).length ≤ 256 ^ 8 := Nat.pow_le_pow_right (by omega) hlen
  unfold u64Max
  omega

theorem Scanned.bounds [Libraries] {d : Nat} {lane : Lane} {seen : Nat} {positions : List Nat}
    {before after : List Event} {frames : List Frame}
    (h : Scanned d lane seen positions before frames after) :
    ∀ f ∈ frames, seen < f.sequence ∧ f.sequence ≤ u64Max := by
  induction h with
  | nil => exact nofun
  | skip _ _ _ ih => exact ih
  | pass _ _ _ _ _ ih => exact ih
  | take _ _ _ hframe hseen _ ih =>
    intro f hf
    rcases List.mem_cons.mp hf with rfl | hf
    · exact ⟨hseen, frameOf_le hframe⟩
    · exact ih f hf

/-! ### What the loop over one lane adds up to -/

theorem cursorAfter_cons (cursor : Nat) (f : Frame) (rest : List Frame) :
    cursorAfter cursor (f :: rest) = cursorAfter f.sequence rest := by
  cases rest with
  | nil => rfl
  | cons g more =>
    obtain ⟨last, hlast⟩ := Option.isSome_iff_exists.mp
      (List.getLast?_isSome.mpr (List.cons_ne_nil g more))
    simp only [cursorAfter, List.getLast?_cons_cons, hlast]
    rfl

section Reads

variable [Libraries] {d : Nat} {lane : Lane}

omit [Libraries] in
theorem Probed.grows {p : Nat} {before after : List Event} {probed : Option Nat}
    (h : Probed d lane p before probed after) :
    before <:+ after ∧ lostSum d after = lostSum d before := by
  obtain ⟨h₁, -, h₂, -, h₃⟩ := h
  refine ⟨h₁.suffix.trans ((List.suffix_cons _ _).trans (h₂.suffix.trans
    ((List.suffix_cons _ _).trans h₃.suffix))), ?_⟩
  rw [h₃.lostSum, lostSum_read, h₂.lostSum, lostSum_read, h₁.lostSum]

omit [Libraries] in
theorem Copied.grows {p : Nat} {before after : List Event} {image : Bytes}
    (h : Copied d lane p before image after) :
    before <:+ after ∧ lostSum d after = lostSum d before := by
  obtain ⟨h₁, -, h₂⟩ := h
  refine ⟨h₁.suffix.trans ((List.suffix_cons _ _).trans h₂.suffix), ?_⟩
  rw [h₂.lostSum, lostSum_read, h₁.lostSum]

theorem Scanned.grows {seen : Nat} {positions : List Nat} {before after : List Event}
    {frames : List Frame} (h : Scanned d lane seen positions before frames after) :
    before <:+ after ∧ lostSum d after = lostSum d before := by
  induction h with
  | nil => exact ⟨List.suffix_refl _, rfl⟩
  | skip hprobe _ _ ih =>
    exact ⟨hprobe.grows.1.trans ih.1, ih.2.trans hprobe.grows.2⟩
  | pass hprobe _ hcopy _ _ ih =>
    exact ⟨hprobe.grows.1.trans (hcopy.grows.1.trans ih.1),
      ih.2.trans (hcopy.grows.2.trans hprobe.grows.2)⟩
  | take hprobe _ hcopy _ _ _ ih =>
    exact ⟨hprobe.grows.1.trans (hcopy.grows.1.trans ih.1),
      ih.2.trans (hcopy.grows.2.trans hprobe.grows.2)⟩

/-- The frames a lane delivered climb from the old cursor to the new one, and what they
    skip is what was added to `lost`. -/
structure Climb (d cursor cursor' : Nat) (before after : List Event) (frames : List Frame) :
    Prop where
  ascending : frames.Pairwise fun a b => a.sequence < b.sequence
  bounds : ∀ f ∈ frames, cursor < f.sequence ∧ f.sequence ≤ u64Max
  last : cursor' = cursorAfter cursor frames
  count : cursor + frames.length ≤ cursor'
  lost : lostSum d after = lostSum d before + (cursor' - cursor - frames.length)
  suffix : before <:+ after

omit [Libraries] in
theorem Climb.stop {cursor : Nat} {before after : List Event}
    (h : before <:+ after ∧ lostSum d after = lostSum d before) :
    Climb d cursor cursor before after [] :=
  ⟨.nil, nofun, rfl, by simp, by simp [h.2], h.1⟩

theorem Drain.climb {safe : Bool} {fuel cursor cursor' : Nat} {before after : List Event}
    {frames : List Frame} {stop : Option Nat}
    (h : Drain d lane safe fuel cursor before frames cursor' after stop) :
    Climb d cursor cursor' before after frames := by
  induction h with
  | full => exact Climb.stop ⟨List.suffix_refl _, rfl⟩
  | exhausted => exact Climb.stop ⟨List.suffix_refl _, rfl⟩
  | waits hprobe => exact Climb.stop hprobe.grows
  | lapped _ hprobe => exact Climb.stop hprobe.grows
  | unread hprobe hcopy =>
    exact Climb.stop ⟨hprobe.grows.1.trans hcopy.grows.1, hcopy.grows.2.trans hprobe.grows.2⟩
  | @scanned fuel cursor found lost before a b after frames _ hprobe _ hscan hlost hsettle =>
    obtain ⟨hascending, hmem, -⟩ := survivors_ok frames
    refine ⟨hascending, fun f hf => hscan.bounds f (hmem f hf), rfl, by omega, ?_,
      hprobe.grows.1.trans (hscan.grows.1.trans hsettle.suffix)⟩
    obtain ⟨-, -, -, hsum⟩ := hsettle
    rw [hsum, hscan.grows.2, hprobe.grows.2, hlost]
    omega
  | @next fuel cursor cursor' before a b after image frame frames stop hprobe hcopy hframe
      hsequence _ ih =>
    have hcount := ih.count
    have hlost := ih.lost
    have hmax := frameOf_le hframe
    refine ⟨List.pairwise_cons.mpr ⟨fun f hf => ?_, ih.ascending⟩, fun f hf => ?_, ?_,
      by rw [List.length_cons]; omega, ?_,
      hprobe.grows.1.trans (hcopy.grows.1.trans ih.suffix)⟩
    · have := (ih.bounds f hf).1
      omega
    · rcases List.mem_cons.mp hf with rfl | hf
      · exact ⟨by omega, hmax⟩
      · have := ih.bounds f hf
        exact ⟨by omega, this.2⟩
    · rw [cursorAfter_cons, hsequence]
      exact ih.last
    · rw [hcopy.grows.2, hprobe.grows.2] at hlost
      rw [List.length_cons]
      omega

omit [Libraries] in
theorem Climb.le {cursor cursor' : Nat} {before after : List Event} {frames : List Frame}
    (h : Climb d cursor cursor' before after frames) : cursor ≤ cursor' := by
  rw [h.last]
  unfold cursorAfter
  cases hlast : frames.getLast? with
  | none => exact le_refl _
  | some f =>
    have := (h.bounds f (List.mem_of_getLast? hlast)).1
    simp only [Option.map_some, Option.getD_some]
    omega

/-- In a safe ring a lane is delivered without gaps. -/
theorem Drain.consecutive {fuel cursor cursor' : Nat} {before after : List Event}
    {frames : List Frame} {stop : Option Nat}
    (h : Drain d lane true fuel cursor before frames cursor' after stop) :
    frames.map Frame.sequence = List.range' (cursor + 1) frames.length ∧
      cursor' = cursor + frames.length := by
  generalize hsafe : true = safe at h
  induction h with
  | full => exact ⟨rfl, rfl⟩
  | exhausted => exact ⟨rfl, rfl⟩
  | waits => exact ⟨rfl, rfl⟩
  | lapped => exact ⟨rfl, rfl⟩
  | unread => exact ⟨rfl, rfl⟩
  | scanned hraw => exact absurd (hsafe.trans hraw) (by decide)
  | next _ _ _ hsequence _ ih =>
    obtain ⟨hseq, hlast⟩ := ih
    refine ⟨?_, ?_⟩
    · rw [List.map_cons, hsequence, hseq, List.length_cons, List.range'_succ]
    · rw [hlast, List.length_cons]
      omega

/-- A slot copy made between two logs parses to the frame. -/
def CopyOf (d : Nat) (lane : Lane) (before after : List Event) (frame : Frame) : Prop :=
  ∃ position image older, position < lane.depth ∧ before <:+ older ∧
    (.read d (lane.slotAt position) image :: older) <:+ after ∧ image.length = lane.slot ∧
    Ring.frameOf lane image = some frame

theorem CopyOf.mono {before before' after after' : List Event} {frame : Frame}
    (hbefore : before' <:+ before) (hafter : after <:+ after')
    (h : CopyOf d lane before after frame) : CopyOf d lane before' after' frame := by
  obtain ⟨p, image, older, hp, hold, hread, himage, hframe⟩ := h
  exact ⟨p, image, older, hp, hbefore.trans hold, hread.trans hafter, himage, hframe⟩

theorem Copied.copyOf {p : Nat} (hp : p < lane.depth) {before after : List Event} {image : Bytes}
    {frame : Frame} (h : Copied d lane p before image after)
    (hframe : Ring.frameOf lane image = some frame) : CopyOf d lane before after frame := by
  obtain ⟨h₁, himage, h₂⟩ := h
  exact ⟨p, image, _, hp, h₁.suffix, h₂.suffix, himage, hframe⟩

theorem Scanned.copies {seen : Nat} {positions : List Nat} {before after : List Event}
    {frames : List Frame} (hpos : ∀ p ∈ positions, p < lane.depth)
    (h : Scanned d lane seen positions before frames after) :
    ∀ f ∈ frames, CopyOf d lane before after f := by
  induction h with
  | nil => exact nofun
  | skip hprobe _ _ ih =>
    intro f hf
    exact (ih (fun q hq => hpos q (by simp [hq])) f hf).mono hprobe.grows.1 (List.suffix_refl _)
  | pass hprobe _ hcopy _ _ ih =>
    intro f hf
    exact (ih (fun q hq => hpos q (by simp [hq])) f hf).mono
      (hprobe.grows.1.trans hcopy.grows.1) (List.suffix_refl _)
  | take hprobe _ hcopy hframe _ hrest ih =>
    intro f hf
    rcases List.mem_cons.mp hf with rfl | hf
    · exact (hcopy.copyOf (hpos _ (by simp)) hframe).mono hprobe.grows.1 hrest.grows.1
    · exact (ih (fun q hq => hpos q (by simp [hq])) f hf).mono
        (hprobe.grows.1.trans hcopy.grows.1) (List.suffix_refl _)

/-- Every frame a lane delivered was copied out of one of its slots. -/
theorem Drain.copies (hdepth : 0 < lane.depth) {safe : Bool} {fuel cursor cursor' : Nat}
    {before after : List Event} {frames : List Frame} {stop : Option Nat}
    (h : Drain d lane safe fuel cursor before frames cursor' after stop) :
    ∀ f ∈ frames, CopyOf d lane before after f := by
  have hpos : ∀ c, lane.position c < lane.depth := fun c => Nat.mod_lt _ hdepth
  induction h with
  | full => exact nofun
  | exhausted => exact nofun
  | waits => exact nofun
  | lapped => exact nofun
  | unread => exact nofun
  | @scanned _ _ _ _ _ _ _ _ frames _ hprobe _ hscan _ hsettle =>
    intro f hf
    have hmem := (survivors_ok frames).2.1 f hf
    exact (hscan.copies (fun p hp => List.mem_range.mp hp) f hmem).mono hprobe.grows.1
      hsettle.suffix
  | next hprobe hcopy hframe _ hrest ih =>
    intro f hf
    rcases List.mem_cons.mp hf with rfl | hf
    · exact (hcopy.copyOf (hpos _) hframe).mono hprobe.grows.1 hrest.climb.suffix
    · exact (ih f hf).mono (hprobe.grows.1.trans hcopy.grows.1) (List.suffix_refl _)

end Reads

/-! ### Where a poll reads -/

def ReadsIn (d : Nat) (P : Nat → Prop) (before after : List Event) : Prop :=
  ∃ added, after = added ++ before ∧ ∀ e ∈ added, e.owned d →
    (∃ count, e = .lost d count) ∨ ∃ disp bytes, e = .read d disp bytes ∧ P disp

theorem ReadsIn.refl (d : Nat) (P : Nat → Prop) (log : List Event) : ReadsIn d P log log :=
  ⟨[], rfl, nofun⟩

theorem ReadsIn.trans {d : Nat} {P : Nat → Prop} {a b c : List Event} (h : ReadsIn d P a b)
    (h' : ReadsIn d P b c) : ReadsIn d P a c := by
  obtain ⟨e, rfl, he⟩ := h
  obtain ⟨e', rfl, he'⟩ := h'
  refine ⟨e' ++ e, by simp, fun x hx => ?_⟩
  rcases List.mem_append.mp hx with hx | hx
  · exact he' x hx
  · exact he x hx

theorem ReadsIn.mono {d : Nat} {P P' : Nat → Prop} {a b : List Event}
    (hP : ∀ disp, P disp → P' disp)
    (h : ReadsIn d P a b) : ReadsIn d P' a b := by
  obtain ⟨e, rfl, he⟩ := h
  refine ⟨e, rfl, fun x hx hown => ?_⟩
  rcases he x hx hown with hlost | ⟨disp, bytes, hread, hdisp⟩
  · exact .inl hlost
  · exact .inr ⟨disp, bytes, hread, hP disp hdisp⟩

theorem ReadsIn.suffix {d : Nat} {P : Nat → Prop} {a b : List Event} (h : ReadsIn d P a b) :
    a <:+ b := by
  obtain ⟨e, rfl, -⟩ := h
  exact List.suffix_append e a

theorem Extends.readsIn {d : Nat} {P : Nat → Prop} {a b : List Event} (h : Extends d a b) :
    ReadsIn d P a b := by
  obtain ⟨e, rfl, he⟩ := h
  exact ⟨e, rfl, fun x hx hown => absurd hown (he x hx)⟩

theorem Settles.readsIn {d k : Nat} {P : Nat → Prop} {a b : List Event} (h : Settles d k a b) :
    ReadsIn d P a b := by
  obtain ⟨e, rfl, he, -⟩ := h
  refine ⟨e, rfl, fun x hx hown => .inl ?_⟩
  rcases he x hx with hnot | hlost
  · exact absurd hown hnot
  · exact hlost

theorem ReadsIn.read {d : Nat} {P : Nat → Prop} {disp : Nat} {bytes : Bytes} {log : List Event}
    (h : P disp) : ReadsIn d P log (.read d disp bytes :: log) :=
  ⟨[.read d disp bytes], rfl, fun x hx _ => .inr ⟨disp, bytes, by simpa using hx, h⟩⟩

def Lane.wordsAt (lane : Lane) (position disp : Nat) : Prop :=
  disp = lane.slotAt position ∨ disp = lane.guardAt position

theorem Probed.readsIn {d p : Nat} {lane : Lane} {before after : List Event} {probed : Option Nat}
    (h : Probed d lane p before probed after) : ReadsIn d (lane.wordsAt p) before after := by
  obtain ⟨h₁, -, h₂, -, h₃⟩ := h
  exact h₁.readsIn.trans ((ReadsIn.read (.inl rfl)).trans
    (h₂.readsIn.trans ((ReadsIn.read (.inr rfl)).trans h₃.readsIn)))

theorem Copied.readsIn {d p : Nat} {lane : Lane} {before after : List Event} {image : Bytes}
    (h : Copied d lane p before image after) : ReadsIn d (lane.wordsAt p) before after := by
  obtain ⟨h₁, -, h₂⟩ := h
  exact h₁.readsIn.trans ((ReadsIn.read (.inl rfl)).trans h₂.readsIn)

theorem Scanned.readsIn [Libraries] {d seen : Nat} {lane : Lane} {positions : List Nat}
    {before after : List Event} {frames : List Frame}
    (h : Scanned d lane seen positions before frames after) :
    ReadsIn d (fun disp => ∃ p ∈ positions, lane.wordsAt p disp) before after := by
  induction h with
  | nil => exact ReadsIn.refl _ _ _
  | skip hprobe _ _ ih =>
    refine (hprobe.readsIn.mono fun disp h => ⟨_, List.mem_cons_self .., h⟩).trans (ih.mono ?_)
    exact fun disp ⟨q, hq, h⟩ => ⟨q, List.mem_cons_of_mem _ hq, h⟩
  | pass hprobe _ hcopy _ _ ih =>
    refine (hprobe.readsIn.mono fun disp h => ⟨_, List.mem_cons_self .., h⟩).trans
      ((hcopy.readsIn.mono fun disp h => ⟨_, List.mem_cons_self .., h⟩).trans (ih.mono ?_))
    exact fun disp ⟨q, hq, h⟩ => ⟨q, List.mem_cons_of_mem _ hq, h⟩
  | take hprobe _ hcopy _ _ _ ih =>
    refine (hprobe.readsIn.mono fun disp h => ⟨_, List.mem_cons_self .., h⟩).trans
      ((hcopy.readsIn.mono fun disp h => ⟨_, List.mem_cons_self .., h⟩).trans (ih.mono ?_))
    exact fun disp ⟨q, hq, h⟩ => ⟨q, List.mem_cons_of_mem _ hq, h⟩

def Lane.covers (lane : Lane) (disp : Nat) : Prop :=
  lane.offset ≤ disp ∧ disp < lane.offset + lane.depth * lane.slot

theorem Lane.covers_words {lane : Lane} (hslot : WORD < lane.slot) {p disp : Nat}
    (hp : p < lane.depth) (h : lane.wordsAt p disp) : lane.covers disp := by
  have hinside := lane.slot_inside hp
  have hword : WORD = 8 := rfl
  unfold Lane.covers
  unfold Lane.wordsAt Lane.guardAt at h
  unfold Lane.slotAt at hinside h
  omega

theorem Drain.readsIn [Libraries] {d : Nat} {lane : Lane} (hslot : WORD < lane.slot)
    (hdepth : 0 < lane.depth) {safe : Bool} {fuel cursor cursor' : Nat}
    {before after : List Event} {frames : List Frame} {stop : Option Nat}
    (h : Drain d lane safe fuel cursor before frames cursor' after stop) :
    ReadsIn d lane.covers before after := by
  have hwords : ∀ c disp, lane.wordsAt (lane.position c) disp → lane.covers disp :=
    fun c disp => Lane.covers_words hslot (Nat.mod_lt _ hdepth)
  induction h with
  | full => exact ReadsIn.refl _ _ _
  | exhausted => exact ReadsIn.refl _ _ _
  | waits hprobe => exact hprobe.readsIn.mono (hwords _)
  | lapped _ hprobe => exact hprobe.readsIn.mono (hwords _)
  | scanned _ hprobe _ hscan _ hsettle =>
    refine (hprobe.readsIn.mono (hwords _)).trans ((hscan.readsIn.mono ?_).trans hsettle.readsIn)
    exact fun disp ⟨p, hp, h⟩ => Lane.covers_words hslot (List.mem_range.mp hp) h
  | unread hprobe hcopy =>
    exact (hprobe.readsIn.mono (hwords _)).trans (hcopy.readsIn.mono (hwords _))
  | next hprobe hcopy _ _ _ ih =>
    exact (hprobe.readsIn.mono (hwords _)).trans ((hcopy.readsIn.mono (hwords _)).trans ih)

/-! ### What a whole poll adds up to -/

def fromOrigin (o : Nat) (messages : List Message) : List Message :=
  messages.filter fun m => m.origin = (o : Int)

theorem fromOrigin_message_self (o : Nat) (frames : List Frame) :
    fromOrigin o (frames.map (Frame.message o)) = frames.map (Frame.message o) := by
  rw [fromOrigin, List.filter_eq_self]
  intro m hm
  obtain ⟨f, -, rfl⟩ := List.mem_map.mp hm
  simp [Frame.message]

theorem fromOrigin_message_ne {o o' : Nat} (h : o' ≠ o) (frames : List Frame) :
    fromOrigin o (frames.map (Frame.message o')) = [] := by
  rw [fromOrigin, List.filter_eq_nil_iff]
  intro m hm
  obtain ⟨f, -, rfl⟩ := List.mem_map.mp hm
  simp [Frame.message, h]

theorem fromOrigin_append (o : Nat) (xs ys : List Message) :
    fromOrigin o (xs ++ ys) = fromOrigin o xs ++ fromOrigin o ys := List.filter_append ..

structure LanesOk (lanes : List (Nat × Lane)) : Prop where
  distinct : lanes.Pairwise fun a b => a.1 ≠ b.1
  slot : ∀ p ∈ lanes, WORD < p.2.slot ∧ 0 < p.2.depth

def coveredByOthers (lanes : List (Nat × Lane)) (o disp : Nat) : Prop :=
  ∃ p ∈ lanes, p.1 ≠ o ∧ p.2.covers disp

/-- The part of a poll at one lane: its loop, what it returned for the lane, and that the
    poll read elsewhere before and after. -/
def TurnOf [Libraries] (d : Nat) (safe : Bool) (lanes : List (Nat × Lane)) (o : Nat) (l : Lane)
    (seen seen' : List Nat) (before after : List Event) (messages : List Message) : Prop :=
  ∃ cursor cursor' a b frames, seen[o]? = some cursor ∧ seen'[o]? = some cursor' ∧
    Drain d l safe l.depth cursor a frames cursor' b none ∧
    fromOrigin o messages = frames.map (Frame.message o) ∧
    ReadsIn d (coveredByOthers lanes o) before a ∧ ReadsIn d (coveredByOthers lanes o) b after

/-- A poll that did not find a lapped lane: its turns at the lanes, what it left alone, and
    the totals. -/
structure PollSum [Libraries] (d : Nat) (safe : Bool) (lanes : List (Nat × Lane))
    (seen seen' : List Nat) (before after : List Event) (messages : List Message)
    (lags : List Nat) : Prop where
  turns : ∀ o l, (o, l) ∈ lanes → TurnOf d safe lanes o l seen seen' before after messages
  others : ∀ o, (∀ p ∈ lanes, p.1 ≠ o) → seen'[o]? = seen[o]? ∧ fromOrigin o messages = []
  length : seen'.length = seen.length
  lags : lags = lanes.map fun p => seen'.getD p.1 0 - seen.getD p.1 0
  lost : lostSum d after = lostSum d before + (lanes.map fun p =>
    seen'.getD p.1 0 - seen.getD p.1 0 - (fromOrigin p.1 messages).length).sum
  suffix : before <:+ after
  origins : ∀ m ∈ messages, ∃ p ∈ lanes, m.origin = (p.1 : Int)

theorem PollRun.readsIn [Libraries] {d : Nat} {safe : Bool} {lanes : List (Nat × Lane)}
    {seen seen' : List Nat} {before after : List Event} {messages : List Message}
    {lags : List Nat} {stop : Option (Nat × Nat × Nat)}
    (h : PollRun d safe lanes seen before messages seen' after lags stop)
    (hlanes : ∀ p ∈ lanes, WORD < p.2.slot ∧ 0 < p.2.depth) :
    ReadsIn d (fun disp => ∃ p ∈ lanes, p.2.covers disp) before after := by
  induction h with
  | done => exact ReadsIn.refl _ _ _
  | lane _ hdrain hother _ ih =>
    obtain ⟨hslot, hdepth⟩ := hlanes _ (List.mem_cons_self ..)
    refine ((hdrain.readsIn hslot hdepth).mono fun disp h => ⟨_, List.mem_cons_self .., h⟩).trans
      (hother.readsIn.trans ((ih fun p hp => hlanes p (by simp [hp])).mono ?_))
    rintro disp ⟨p, hp, hcover⟩
    exact ⟨p, by simp [hp], hcover⟩
  | lapped _ hdrain =>
    obtain ⟨hslot, hdepth⟩ := hlanes _ (List.mem_cons_self ..)
    exact (hdrain.readsIn hslot hdepth).mono fun disp h => ⟨_, List.mem_cons_self .., h⟩

theorem PollRun.sum [Libraries] {d : Nat} {safe : Bool} {lanes : List (Nat × Lane)}
    {seen seen' : List Nat} {before after : List Event} {messages : List Message}
    {lags : List Nat} {stop : Option (Nat × Nat × Nat)}
    (h : PollRun d safe lanes seen before messages seen' after lags stop) (hstop : stop = none)
    (hlanes : LanesOk lanes) :
    PollSum d safe lanes seen seen' before after messages lags := by
  induction h with
  | done =>
    exact ⟨nofun, fun o _ => ⟨rfl, rfl⟩, rfl, rfl, rfl, List.suffix_refl _, nofun⟩
  | lapped => exact nomatch hstop
  | @lane o cursor cursor' l rest seen seen' before a b after frames messages lags stop hcursor
      hdrain hother hrun ih =>
    obtain ⟨hfirst, hrest⟩ := List.pairwise_cons.mp hlanes.distinct
    obtain ⟨hslot, hdepth⟩ := hlanes.slot (o, l) (by simp)
    have hsum := ih hstop ⟨hrest, fun p hp => hlanes.slot p (by simp [hp])⟩
    obtain ⟨ho, hget⟩ := List.getElem?_eq_some_iff.mp hcursor
    have hnot : ∀ p ∈ rest, p.1 ≠ o := fun p hp h => hfirst p hp h.symm
    obtain ⟨hkeep, hnone⟩ := hsum.others o hnot
    have hcursor' : seen'[o]? = some cursor' := by
      rw [hkeep]
      simp [ho]
    have hset : ∀ o' : Nat, o' ≠ o → (seen.set o cursor')[o']? = seen[o']? := fun o' h =>
      List.getElem?_set_ne (Ne.symm h)
    have hsetD : ∀ o' : Nat, o' ≠ o → (seen.set o cursor').getD o' 0 = seen.getD o' 0 := by
      intro o' h
      rw [List.getD_eq_getElem?_getD, List.getD_eq_getElem?_getD, hset o' h]
    have hmono : ∀ o' disp, coveredByOthers rest o' disp →
      coveredByOthers ((o, l) :: rest) o' disp :=
      fun o' disp ⟨p, hp, hpo, hcover⟩ => ⟨p, by simp [hp], hpo, hcover⟩
    have hfilter : ∀ o' : Nat, o' ≠ o →
        fromOrigin o' (frames.map (Frame.message o) ++ messages) = fromOrigin o' messages := by
      intro o' h
      rw [fromOrigin_append, fromOrigin_message_ne (Ne.symm h), List.nil_append]
    have hown : fromOrigin o (frames.map (Frame.message o) ++ messages) =
        frames.map (Frame.message o) := by
      rw [fromOrigin_append, fromOrigin_message_self, hnone, List.append_nil]
    have hD : seen.getD o 0 = cursor ∧ seen'.getD o 0 = cursor' := by
      rw [List.getD_eq_getElem?_getD, List.getD_eq_getElem?_getD, hcursor, hcursor']
      exact ⟨rfl, rfl⟩
    -- the reads of the lanes after this one lie in those lanes
    have hreads : ReadsIn d (coveredByOthers ((o, l) :: rest) o) b after := by
      have := hrun.readsIn fun p hp => hlanes.slot p (by simp [hp])
      refine this.mono fun disp ⟨p, hp, hcover⟩ => ⟨p, by simp [hp], hnot p hp, hcover⟩
    refine ⟨fun o' l' hmem => ?_, fun o' hall => ?_, ?_, ?_, ?_, ?_, ?_⟩
    · rcases List.mem_cons.mp hmem with heq | hmem
      · obtain ⟨rfl, rfl⟩ := Prod.mk.inj heq
        exact ⟨cursor, cursor', before, a, frames, hcursor, hcursor', hdrain, hown,
          ReadsIn.refl _ _ _, hother.readsIn.trans hreads⟩
      · have hne : o' ≠ o := hnot (o', l') hmem
        obtain ⟨c, c', K, K', fs, h₁, h₂, h₃, h₄, h₅, h₆⟩ := hsum.turns o' l' hmem
        refine ⟨c, c', K, K', fs, (hset o' hne).symm.trans h₁, h₂, h₃, (hfilter o' hne).trans h₄,
          ?_, h₆.mono (hmono o')⟩
        refine ReadsIn.trans ?_ (hother.readsIn.trans (h₅.mono (hmono o')))
        exact (hdrain.readsIn hslot hdepth).mono fun disp hcover =>
          ⟨(o, l), by simp, Ne.symm hne, hcover⟩
    · have hne : o' ≠ o := fun h => hall (o, l) (by simp) h.symm
      obtain ⟨h₁, h₂⟩ := hsum.others o' fun p hp => hall p (by simp [hp])
      exact ⟨h₁.trans (hset o' hne), (hfilter o' hne).trans h₂⟩
    · rw [hsum.length, List.length_set]
    · rw [List.map_cons, hD.1, hD.2, hsum.lags]
      congr 1
      refine List.map_congr_left fun p hp => ?_
      rw [hsetD p.1 (hnot p hp)]
    · have hlost := hdrain.climb.lost
      rw [hsum.lost, hother.lostSum, List.map_cons, List.sum_cons, hD.1, hD.2, hown,
        List.length_map]
      have htail : rest.map (fun p => seen'.getD p.1 0 - (seen.set o cursor').getD p.1 0 -
          (fromOrigin p.1 messages).length) = rest.map fun p => seen'.getD p.1 0 -
          seen.getD p.1 0 - (fromOrigin p.1 (frames.map (Frame.message o) ++ messages)).length := by
        refine List.map_congr_left fun p hp => ?_
        rw [hsetD p.1 (hnot p hp), hfilter p.1 (hnot p hp)]
      rw [htail]
      omega
    · exact hdrain.climb.suffix.trans (hother.suffix.trans hsum.suffix)
    · intro m hm
      rcases List.mem_append.mp hm with hm | hm
      · obtain ⟨f, -, rfl⟩ := List.mem_map.mp hm
        exact ⟨(o, l), by simp, rfl⟩
      · obtain ⟨p, hp, horigin⟩ := hsum.origins m hm
        exact ⟨p, by simp [hp], horigin⟩

end MpiRma
