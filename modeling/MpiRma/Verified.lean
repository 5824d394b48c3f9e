/-
  MpiRma/Verified.lean
  ====================
  **Every run of a ring keeps the invariant.**  The three operations are verified against
  the discipline, and a freshly constructed ring keeps the invariant, so every
  configuration any schedule leads to does: for all numbers of ranks and threads, with
  puts that may fail, and with fetch-and-adds that may fail as long as the mirrors agree.
-/
import MpiRma.Acking

namespace MpiRma

variable [Libraries] {n : Nat} {safe : Bool} {ring : Nat → Ring}

theorem ring_verified (W : Wired n safe ring) (faults : Faults) :
    (ringDiscipline W faults).Verified (mirroredMachine n ring faults) := by
  rintro t ⟨rank, request⟩ w hinv hidle
  have hholding := Idle.holding hidle
  cases request with
  | send destination data => exact send_verified rfl hholding
  | poll => exact poll_verified hholding
  | ack origin sequence => exact ack_verified rfl hholding

/-! ### The fresh ring -/

theorem says_fresh {s d : Nat} {l : Lane} {slotLength ackLength : Nat → Nat}
    (hlane : LaneOk n slotLength ackLength s d l) :
    Ring.Says l (List.replicate l.slot 0) none := by
  have hge := hlane.slot_ge
  have hzero : ∀ start len, ofLE (view (List.replicate l.slot 0) start len) = 0 := by
    intro start len
    rw [view, List.drop_replicate, List.take_replicate, ofLE_replicate_zero]
  refine ⟨List.length_replicate, ?_, fun _ => ⟨hzero _ _, hzero _ _⟩⟩
  exact if_pos (.inl (hzero _ _))

theorem inv_fresh (W : Wired n safe ring) (faults : Faults) : RingInv W faults (World.fresh n) where
  lawful := trivial
  clean _ := rfl
  rank d _ := by
    refine ⟨fun _ => rfl, ?_, List.length_replicate, Nat.ModEq.refl _⟩
    show List.replicate n 0 = (List.range n).map fun _ => 0
    rw [List.map_const', List.length_range]
  lane s d l hlane := by
    have hok := W.lanes hlane
    refine ⟨fun p hp => ?_, fun _ => ⟨rfl, fun _ => Nat.le_refl _, fun _ => Nat.zero_le _⟩,
      fun _ => Nat.le_refl _, fun _ _ _ => ?_⟩
    · have hempty : contentAt s d l [] p = none := by
        rw [contentAt, topOf, Cyclic.newest_empty (Nat.zero_le _)]
        rfl
      have hzero : (Process.fresh n).slots.read (l.slotAt p) l.slot = List.replicate l.slot 0 :=
        Memory.read_const 0 _ _
      show Ring.Says l ((Process.fresh n).slots.read (l.slotAt p) l.slot) (contentAt s d l [] p)
      rw [hzero, hempty]
      exact says_fresh hok
    · show (List.replicate n 0)[s]? = some 0
      rw [List.getElem?_replicate, if_pos hok.source]

/-! ### Reachable configurations -/

/-- **Every reachable configuration keeps the invariant.** -/
theorem mirrored_inv (W : Wired n safe ring) {faults : Faults}
    {c : Config RingCall RingCall.Answer World (Call n) Outcome}
    (h : (mirroredMachine n ring faults).Reach (World.fresh n) c) : RingInv W faults c.shared := by
  refine Discipline.sound_inv (ring_verified W faults) (inv_fresh W faults) (fun t m => ?_) h
  exact nofun

omit [Libraries] in
/-- Fetch-and-adds that do not fail keep the mirrors without being asked to. -/
theorem mirrorAgrees_of_adds {faults : Faults} (hadds : faults.adds = false) (t : Nat)
    (call : Call n) (command : RingCall) (w : World) : mirrorAgrees faults t call command w := by
  cases command with
  | fetchAdd dest disp value =>
    intro hno
    rw [hadds] at hno
    contradiction
  | _ => trivial

theorem reach_mirrored {faults : Faults} (hadds : faults.adds = false)
    {c : Config RingCall RingCall.Answer World (Call n) Outcome}
    (h : (ringMachine n ring faults).Reach (World.fresh n) c) :
    (mirroredMachine n ring faults).Reach (World.fresh n) c :=
  h.restrict (mirrorAgrees_of_adds hadds)

theorem reach_inv (W : Wired n safe ring) {faults : Faults} (hadds : faults.adds = false)
    {c : Config RingCall RingCall.Answer World (Call n) Outcome}
    (h : (ringMachine n ring faults).Reach (World.fresh n) c) : RingInv W faults c.shared :=
  mirrored_inv W (reach_mirrored hadds h)

end MpiRma
