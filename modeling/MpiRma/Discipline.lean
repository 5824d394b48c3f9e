/-
  MpiRma/Discipline.lean
  ======================
  **The invariant of a ring at work, and what its threads rely on.**  The invariant ties the
  state of every rank to the log: the log is lawful, each slot says what the log says it
  holds, each mutex-guarded field agrees with the log while its mutex is free, and in a
  safe ring `acked ≤ counter ≤ cursor` on every lane.  A thread that holds a mutex relies
  on the fields it guards.
-/
import MpiRma.Losses
import MpiRma.Interleaving

namespace MpiRma

variable [Libraries] {n : Nat} {safe : Bool} {ring : Nat → Ring}

/-! ### The invariant -/

/-- The sender state of a lane agrees with the log and the counter. -/
structure Agrees (safe : Bool) (s d : Nat) (l : Lane) (outgoing : Outgoing) (w : World) : Prop where
  sent : outgoing.sent = sentOf s d w.log
  acked : safe = true → outgoing.acked ≤ (w.process s).acks l.ack
  room : safe = true → topOf s d w.log ≤ outgoing.acked + l.depth

structure LaneInv (safe : Bool) (faults : Faults) (s d : Nat) (l : Lane) (w : World) : Prop where
  slots : ∀ p < l.depth, Ring.Says l ((w.process d).slots.read (l.slotAt p) l.slot)
    (contentAt s d l w.log p)
  sent : w.holder (.sent s d) = none → Agrees safe s d l ((w.process s).sent d) w
  counter : safe = true → (w.process s).acks l.ack ≤ cursorOf s d w.log
  mirror : safe = true → faults.adds = false → w.holder (.acked d) = none →
    (w.process d).acked[s]? = some ((w.process s).acks l.ack)

structure RankInv (n d : Nat) (w : World) : Prop where
  closed : w.holder (.seen d) = none → pollOpen d w.log = false
  seen : (w.process d).seen = seenOf n d w.log
  acked : (w.process d).acked.length = n
  lost : (w.process d).lost ≡ lostSum d w.log [MOD u64Max + 1]

structure RingInv (W : Wired n safe ring) (faults : Faults) (w : World) : Prop where
  lawful : Lawful W faults w.log
  clean : ∀ m, w.poisoned m = false
  rank : ∀ d < n, RankInv n d w
  lane : ∀ s d l, W.lane s d = some l → LaneInv safe faults s d l w

structure RingRely (W : Wired n safe ring) (t : Nat) (w w' : World) : Prop where
  log : w.log <:+ w'.log
  held : ∀ m, w'.holder m = some t ↔ w.holder m = some t
  sent : ∀ s d, w.holder (.sent s d) = some t →
    sentOf s d w'.log = sentOf s d w.log ∧ topOf s d w'.log = topOf s d w.log
  seen : ∀ d, w.holder (.seen d) = some t → Apart d w w'
  acked : ∀ d, w.holder (.acked d) = some t → (w'.process d).acked = (w.process d).acked ∧
    ∀ s l, W.lane s d = some l → (w'.process s).acks l.ack = (w.process s).acks l.ack
  counters : ∀ s d l, W.lane s d = some l →
    (w.process s).acks l.ack ≤ (w'.process s).acks l.ack

def Idle (t : Nat) (w : World) : Prop := ∀ m, w.holder m ≠ some t

omit [Libraries] in
theorem Apart.trans {d : Nat} {a b c : World} (h : Apart d a b) (h' : Apart d b c) :
    Apart d a c :=
  ⟨h.log.trans h'.log, h'.lost.trans h.lost, h'.maxLag.trans h.maxLag⟩

omit [Libraries] in
theorem Apart.refl (d : Nat) (w : World) : Apart d w w := ⟨Extends.refl _ _, rfl, rfl⟩

namespace RingRely

variable {W : Wired n safe ring} {t : Nat}

omit [Libraries]

theorem refl (W : Wired n safe ring) (t : Nat) (w : World) : RingRely W t w w where
  log := List.suffix_refl _
  held _ := Iff.rfl
  sent _ _ _ := ⟨rfl, rfl⟩
  seen d _ := Apart.refl d w
  acked _ _ := ⟨rfl, fun _ _ _ => rfl⟩
  counters _ _ _ _ := Nat.le_refl _

theorem trans {a b c : World} (h : RingRely W t a b) (h' : RingRely W t b c) :
    RingRely W t a c where
  log := h.log.trans h'.log
  held m := (h'.held m).trans (h.held m)
  sent s d hm := by
    obtain ⟨h₁, h₂⟩ := h.sent s d hm
    obtain ⟨h₁', h₂'⟩ := h'.sent s d ((h.held _).mpr hm)
    exact ⟨h₁'.trans h₁, h₂'.trans h₂⟩
  seen d hm := (h.seen d hm).trans (h'.seen d ((h.held _).mpr hm))
  acked d hm := by
    obtain ⟨h₁, h₂⟩ := h.acked d hm
    obtain ⟨h₁', h₂'⟩ := h'.acked d ((h.held _).mpr hm)
    exact ⟨h₁'.trans h₁, fun s l hl => (h₂' s l hl).trans (h₂ s l hl)⟩
  counters s d l hl := Nat.le_trans (h.counters s d l hl) (h'.counters s d l hl)

end RingRely

def ringDiscipline (W : Wired n safe ring) (faults : Faults) : Discipline World where
  inv := RingInv W faults
  rely := RingRely W
  idle := Idle
  rely_refl := RingRely.refl W
  rely_trans _ _ _ _ := RingRely.trans
  idle_stable _ _ _ hrely hidle m hm := hidle m ((hrely.held m).mp hm)

/-! ### What a step leaves alone -/

omit [Libraries] in
theorem World.modify_keeps {α : Type} {f : Process → Process} (g : Process → α)
    (h : ∀ p, g (f p) = g p) (w : World) (rank i : Nat) :
    g ((w.modify rank f).process i) = g (w.process i) := by
  by_cases hi : i = rank
  · subst hi
    simp [World.modify, h]
  · simp [World.modify, hi]

omit [Libraries] in
theorem World.modify_other {f : Process → Process} {w : World} {rank i : Nat} (h : i ≠ rank) :
    (w.modify rank f).process i = w.process i := by
  simp [World.modify, h]

omit [Libraries] in
theorem World.modify_self {f : Process → Process} {w : World} {rank : Nat} :
    (w.modify rank f).process rank = f (w.process rank) := by
  simp [World.modify]

structure SamePuts (s d : Nat) (a b : List Event) : Prop where
  sent : sentOf s d b = sentOf s d a
  top : topOf s d b = topOf s d a
  payload : ∀ q, payloadOf s d q b = payloadOf s d q a

section Frames

variable {W : Wired n safe ring} {faults : Faults} {s d : Nat} {l : Lane} {w w' : World}

omit [Libraries]

theorem SamePuts.refl (s d : Nat) (log : List Event) : SamePuts s d log log :=
  ⟨rfl, rfl, fun _ => rfl⟩

theorem SamePuts.cons {e : Event} (h : ∀ q data ok disp len, e ≠ .put s d q data ok disp len)
    (log : List Event) :
    SamePuts s d log (e :: log) := by
  cases e with
  | put s' d' q data ok disp len =>
    have hnot : ¬ (s' = s ∧ d' = d) := by
      rintro ⟨rfl, rfl⟩
      exact h q data ok disp len rfl
    have hnot' : ∀ P, ¬ (s' = s ∧ d' = d ∧ P) := fun P hP => hnot ⟨hP.1, hP.2.1⟩
    refine ⟨?_, ?_, fun q' => ?_⟩
    · simp only [sentOf, if_neg (hnot' _)]
    · simp only [topOf, if_neg hnot]
    · simp only [payloadOf, if_neg (hnot' _)]
  | _ => exact ⟨rfl, rfl, fun _ => rfl⟩

theorem SamePuts.content {a b : List Event} (h : SamePuts s d a b) (p : Nat) :
    contentAt s d l b p = contentAt s d l a p := by
  unfold contentAt
  simp only [h.top, h.payload]

/-- A step that leaves a lane alone. -/
structure Untouched (s d : Nat) (l : Lane) (w w' : World) : Prop where
  puts : SamePuts s d w.log w'.log
  cursor : cursorOf s d w.log ≤ cursorOf s d w'.log
  slots : ∀ p < l.depth, (w'.process d).slots.read (l.slotAt p) l.slot =
    (w.process d).slots.read (l.slotAt p) l.slot
  sent : (w'.process s).sent d = (w.process s).sent d
  counter : (w'.process s).acks l.ack = (w.process s).acks l.ack
  acked : (w'.process d).acked = (w.process d).acked
  sentFree : w'.holder (.sent s d) = none → w.holder (.sent s d) = none
  ackedFree : w'.holder (.acked d) = none → w.holder (.acked d) = none

theorem Agrees.keep {outgoing : Outgoing} (h : Agrees safe s d l outgoing w)
    (hsent : sentOf s d w'.log = sentOf s d w.log) (htop : topOf s d w'.log = topOf s d w.log)
    (hcounter : (w.process s).acks l.ack ≤ (w'.process s).acks l.ack) :
    Agrees safe s d l outgoing w' where
  sent := h.sent.trans hsent.symm
  acked hsafe := Nat.le_trans (h.acked hsafe) hcounter
  room hsafe := by
    rw [htop]
    exact h.room hsafe

end Frames

section Frames

variable {W : Wired n safe ring} {faults : Faults} {s d : Nat} {l : Lane} {w w' : World}

theorem LaneInv.keep (h : LaneInv safe faults s d l w) (hsame : Untouched s d l w w') :
    LaneInv safe faults s d l w' where
  slots p hp := by
    rw [hsame.slots p hp, hsame.puts.content]
    exact h.slots p hp
  sent hfree := by
    rw [hsame.sent]
    exact (h.sent (hsame.sentFree hfree)).keep hsame.puts.sent hsame.puts.top
      (Nat.le_of_eq hsame.counter.symm)
  counter hsafe := by
    rw [hsame.counter]
    exact Nat.le_trans (h.counter hsafe) hsame.cursor
  mirror hsafe hadds hfree := by
    rw [hsame.acked, hsame.counter]
    exact h.mirror hsafe hadds (hsame.ackedFree hfree)

/-- A step that leaves the receive side of a rank alone. -/
structure Unmoved (d : Nat) (w w' : World) : Prop where
  free : w'.holder (.seen d) = none → w.holder (.seen d) = none
  pollOpen : pollOpen d w'.log = pollOpen d w.log
  delivered : ∀ s, deliveredOf s d w'.log = deliveredOf s d w.log
  lostSum : lostSum d w'.log = lostSum d w.log
  seen : (w'.process d).seen = (w.process d).seen
  acked : (w'.process d).acked = (w.process d).acked
  lost : (w'.process d).lost = (w.process d).lost

omit [Libraries] in
theorem seenOf_congr {a b : List Event} (h : ∀ s, deliveredOf s d b = deliveredOf s d a) :
    seenOf n d b = seenOf n d a := by
  simp only [seenOf, cursorOf, h]

omit [Libraries] in
theorem RankInv.keep (h : RankInv n d w) (hsame : Unmoved d w w') : RankInv n d w' where
  closed hfree := hsame.pollOpen.trans (h.closed (hsame.free hfree))
  seen := by
    rw [hsame.seen, seenOf_congr hsame.delivered]
    exact h.seen
  acked := by
    rw [hsame.acked]
    exact h.acked
  lost := by
    rw [hsame.lost, hsame.lostSum]
    exact h.lost

/-- The invariant after a step, from the ranks and lanes it did not leave alone. -/
theorem RingInv.frame (h : RingInv W faults w) (hlawful : Lawful W faults w'.log)
    (hclean : ∀ m, w'.poisoned m = false)
    (hrank : ∀ d < n, Unmoved d w w' ∨ RankInv n d w')
    (hlane : ∀ s d l, W.lane s d = some l →
      Untouched s d l w w' ∨ LaneInv safe faults s d l w') : RingInv W faults w' where
  lawful := hlawful
  clean := hclean
  rank d hd := (hrank d hd).elim (h.rank d hd).keep id
  lane s d l hl := (hlane s d l hl).elim (h.lane s d l hl).keep id

end Frames

end MpiRma
