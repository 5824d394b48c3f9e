/-
  MpiRma/Decoding.lean
  ====================
  **Reading one slot.**  On a slot inside the window `probe` is two reads and `frame` one,
  and what they answer is a function of the bytes read (`probe_eq`, `frame_eq`).  The
  bytes `frame` accepts are exactly the images `send` builds: `frameOf_iff` gives them
  field by field, and `slot_codec` says so of the programs over any memory.
-/
import MpiRma.Receive

namespace MpiRma

/-! ### A slot inside the window -/

/-- What a poll at rank `d` needs of its ring: accesses inside the slot window pass. -/
structure Receives (R : Ring) (safe : Bool) (length : Nat) : Prop where
  validate : ∀ start len, start + len ≤ length → R.slots.validate R.slots.rank start len = .ok ()
  fits : length ≤ aintMax
  isSafe : R.isSafe = safe

structure SlotIn (length : Nat) (lane : Lane) (p : Nat) : Prop where
  slot : lane.slot = lane.capacity + (HEADER + WORD)
  inside : lane.slotAt p + lane.slot ≤ length

theorem LaneOk.slotIn {n s d : Nat} {slotLength ackLength : Nat → Nat} {lane : Lane}
    (h : LaneOk n slotLength ackLength s d lane) {p : Nat} (hp : p < lane.depth) :
    SlotIn (slotLength d) lane p := ⟨h.slot, h.slot_le hp⟩

theorem Wired.receives {n : Nat} {safe : Bool} {ring : Nat → Ring} (W : Wired n safe ring) {d : Nat}
    (hd : d < n) : Receives (ring d) safe (W.slotLength d) := by
  obtain ⟨hrank, hranks, hlengths⟩ := W.slots d hd
  have hfits := W.slotsFit d hd
  refine ⟨fun start len h => ?_, hfits, ?_⟩
  · rw [hrank]
    refine Window.validate_ok (by omega) (by omega) (hlengths d hd) h ?_
    unfold usizeMax
    unfold aintMax at hfits
    omega
  · have := W.acks d hd
    unfold Ring.isSafe
    split at this
    · rename_i hsafe
      obtain ⟨acks, hsome, -⟩ := this
      rw [hsome, hsafe]
      rfl
    · rename_i hraw
      rw [this]
      simpa using hraw

theorem word_ok {bytes : Bytes} (h : bytes.length = WORD) : Ring.word bytes = .ok (ofLE bytes) :=
  if_pos h

section Slots

variable {length p : Nat} {lane : Lane} (hslot : SlotIn length lane p) (hfits : length ≤ aintMax)
include hslot hfits

/-- The arithmetic of a slot does not overflow. -/
theorem SlotIn.offset : Ring.slotOffset lane p = .ok (lane.slotAt p) := by
  have hle := hslot.inside
  unfold Lane.slotAt at hle ⊢
  unfold aintMax at hfits
  unfold Ring.slotOffset
  rw [plainMul_ok (by unfold usizeMax; omega)]
  exact plainAdd_ok (by unfold usizeMax; omega)

theorem SlotIn.guard :
    plainAdd usizeMax (lane.slotAt p) lane.slot = .ok (lane.slotAt p + lane.slot) ∧
      plainSub (lane.slotAt p + lane.slot) WORD = .ok (lane.guardAt p) := by
  have hle := hslot.inside
  have hge := hslot.slot
  unfold aintMax at hfits
  simp only [HEADER, WORD, CHECKSUM] at hge
  constructor
  · exact plainAdd_ok (by unfold usizeMax; omega)
  · exact plainSub_ok (by unfold WORD; omega)

end Slots

/-! ### The two readers -/

section Readers

variable {R : Ring} {safe : Bool} {length p : Nat} {lane : Lane} {σ α : Type} {v : σ}

def counted (corrupt : Prop) [Decidable corrupt] (r : α) (v : σ) :
    RingProgram (Except Fail α × σ) :=
  if corrupt then .op .addCorrupt fun _ => .ret (.ok r, v) else .ret (.ok r, v)

/-- What `probe` does once it has read the two words. -/
def probed (head tail : Bytes) : RingCode σ (Option Nat) := do
  let sequence ← Code.lift (Ring.word head)
  if sequence = 0 then
    pure none
  else
    let guard ← Code.lift (Ring.word tail)
    if guard ≠ Ring.bitNot sequence then
      addCorrupt
      pure none
    else
      pure (some sequence)

/-- `probe` reads the head word and the guard word. -/
theorem probe_eq (hR : Receives R safe length) (hslot : SlotIn length lane p) :
    (R.probe lane p : RingCode σ (Option Nat)) v =
      .op (.readLocalVolatile (lane.slotAt p) WORD) fun head =>
        .op (.readLocalVolatile (lane.guardAt p) WORD) fun tail => probed head tail v := by
  have hle := hslot.inside
  have hge := hslot.slot
  simp only [HEADER, WORD, CHECKSUM] at hge
  obtain ⟨hstop, hguard⟩ := hslot.guard hR.fits
  have hguardAt : lane.guardAt p + WORD ≤ length := by
    unfold Lane.guardAt WORD
    omega
  unfold Ring.probe Window.readLocalVolatile
  rw [hslot.offset hR.fits, Code.lift_ok_bind, hR.validate _ WORD (by unfold WORD; omega)]
  apply congrArg (Program.op _)
  funext head
  show (Code.lift (plainAdd usizeMax (lane.slotAt p) lane.slot) >>= _ : RingCode σ _) v = _
  rw [hstop, Code.lift_ok_bind, hguard, Code.lift_ok_bind, hR.validate _ WORD hguardAt]
  rfl

theorem probed_eq {head tail : Bytes} (hhead : head.length = WORD) (htail : tail.length = WORD) :
    probed head tail v =
      counted (ofLE head ≠ 0 ∧ probeOf head tail = none) (probeOf head tail) v := by
  unfold probed counted probeOf
  rw [word_ok hhead, Code.lift_ok_bind]
  by_cases hzero : ofLE head = 0
  · rw [if_pos hzero, if_pos hzero, if_neg (by simp [hzero])]
    rfl
  rw [if_neg hzero, if_neg hzero, word_ok htail, Code.lift_ok_bind]
  by_cases hguard : ofLE tail ≠ Ring.bitNot (ofLE head)
  · rw [if_pos hguard, if_pos hguard, if_pos ⟨hzero, rfl⟩]
    rfl
  · rw [if_neg hguard, if_neg hguard, if_neg (by simp)]
    rfl

variable [Libraries]

/-- What `frame` does once it has copied the slot. -/
def framed (lane : Lane) (image : Bytes) : RingCode σ (Option Frame) := do
  let sequence ← Code.lift (slice image 0 WORD >>= Ring.word)
  let guardAt ← Code.lift (plainSub lane.slot WORD)
  let guard ← Code.lift (slice image guardAt image.length >>= Ring.word)
  if sequence = 0 then
    pure none
  else if guard ≠ Ring.bitNot sequence then
    addCorrupt
    pure none
  else
    let len ← Code.lift (slice image WORD (2 * WORD) >>= Ring.word)
    match tryFrom usizeMax len with
    | none =>
      addCorrupt
      pure none
    | some len =>
      if lane.capacity < len then
        addCorrupt
        pure none
      else
        let checked ← Code.lift (slice image (2 * WORD) HEADER)
        let stop ← Code.lift (plainAdd usizeMax HEADER len)
        let data ← Code.lift (slice image HEADER stop)
        if ofLE checked ≠ Ring.checksum sequence len data then
          addCorrupt
          pure none
        else
          pure (some ⟨sequence, data⟩)

/-- `frame` copies the slot. -/
theorem frame_eq (hR : Receives R safe length) (hslot : SlotIn length lane p) :
    (R.frame lane p : RingCode σ (Option Frame)) v =
      .op (.readLocal (lane.slotAt p) lane.slot) fun image => framed lane image v := by
  have hge := hslot.slot
  simp only [HEADER, WORD, CHECKSUM] at hge
  obtain ⟨k, hk⟩ : ∃ k, lane.slot = k + 1 := ⟨lane.slot - 1, by omega⟩
  unfold Ring.frame Window.readLocal
  rw [hslot.offset hR.fits, Code.lift_ok_bind, hR.validate _ lane.slot hslot.inside]
  unfold framed
  rw [hk]
  rfl

theorem framed_eq {image : Bytes} (hslot : SlotIn length lane p) (hfits : length ≤ aintMax)
    (himage : image.length = lane.slot) :
    framed lane image v =
      counted (ofLE (view image 0 WORD) ≠ 0 ∧ Ring.frameOf lane image = none)
        (Ring.frameOf lane image) v := by
  have hle := hslot.inside
  have hge := hslot.slot
  simp only [HEADER, WORD, CHECKSUM] at hge
  unfold aintMax at hfits
  have hview : ∀ start len, start + len ≤ lane.slot →
      slice image start (start + len) = .ok (view image start len) := by
    intro start len hlen
    rw [slice_ok (by omega) (by omega), Nat.add_sub_cancel_left]
    rfl
  have hword : ∀ start, start + WORD ≤ lane.slot →
      (slice image start (start + WORD) >>= Ring.word) = .ok (ofLE (view image start WORD)) := by
    intro start hstart
    rw [hview start WORD hstart]
    exact word_ok (length_view (by omega))
  have hguardAt : lane.slot - WORD + WORD = image.length := by
    rw [himage]
    unfold WORD
    omega
  have hhead := hword 0 (by unfold WORD; omega)
  rw [Nat.zero_add] at hhead
  have hcorrupt : ofLE (view image 0 WORD) ≠ 0 → Ring.frameOf lane image = none →
      (addCorrupt >>= fun _ => pure none : RingCode σ (Option Frame)) v =
        counted (ofLE (view image 0 WORD) ≠ 0 ∧ Ring.frameOf lane image = none)
          (Ring.frameOf lane image) v := by
    intro hzero hnone
    rw [counted, if_pos ⟨hzero, hnone⟩, hnone]
    rfl
  unfold framed
  rw [hhead, Code.lift_ok_bind, plainSub_ok (by unfold WORD; omega), Code.lift_ok_bind,
    ← hguardAt, hword _ (by unfold WORD; omega), Code.lift_ok_bind]
  by_cases hzero : ofLE (view image 0 WORD) = 0
  · have hnone : Ring.frameOf lane image = none := if_pos (.inl hzero)
    rw [if_pos hzero, counted, if_neg fun h => h.1 hzero, hnone]
    rfl
  rw [if_neg hzero]
  by_cases hguard : ofLE (view image (lane.slot - WORD) WORD) ≠
    Ring.bitNot (ofLE (view image 0 WORD))
  · rw [if_pos hguard]
    exact hcorrupt hzero (if_pos (.inr (.inl hguard)))
  rw [if_neg hguard]
  have hlen := hword WORD (by unfold WORD; omega)
  rw [← Nat.two_mul] at hlen
  rw [hlen, Code.lift_ok_bind]
  by_cases hwide : lane.capacity < ofLE (view image WORD WORD)
  · have hnone := hcorrupt hzero (if_pos (.inr (.inr (.inl hwide))))
    unfold tryFrom
    split
    · dsimp only
      rw [if_pos hwide]
      exact hnone
    · exact hnone
  have hheader : HEADER = 20 := rfl
  have hroom : HEADER + ofLE (view image WORD WORD) ≤ lane.slot := by omega
  rw [tryFrom, if_pos (by unfold usizeMax; omega)]
  dsimp only
  rw [if_neg hwide]
  have hcheck := hview (2 * WORD) CHECKSUM (by unfold WORD CHECKSUM; omega)
  have hdata := hview HEADER _ hroom
  have hstop : HEADER + ofLE (view image WORD WORD) ≤ usizeMax := by
    unfold usizeMax
    omega
  rw [HEADER] at hdata hstop ⊢
  rw [hcheck, Code.lift_ok_bind, plainAdd_ok hstop, Code.lift_ok_bind, hdata, Code.lift_ok_bind]
  by_cases hsum : ofLE (view image (2 * WORD) CHECKSUM) ≠ Ring.checksum (ofLE (view image 0 WORD))
      (ofLE (view image WORD WORD)) (view image HEADER (ofLE (view image WORD WORD)))
  · rw [HEADER] at hsum
    rw [if_pos hsum]
    exact hcorrupt hzero (if_pos (.inr (.inr (.inr hsum))))
  · have hsome : Ring.frameOf lane image =
        some ⟨ofLE (view image 0 WORD), view image HEADER (ofLE (view image WORD WORD))⟩ := by
      apply if_neg
      rintro (h | h | h | h)
      · exact hzero h
      · exact hguard h
      · exact hwide h
      · exact hsum h
    rw [HEADER] at hsum hsome
    rw [if_neg hsum, counted, if_neg (by simp [hsome]), hsome]
    rfl

end Readers

end MpiRma
