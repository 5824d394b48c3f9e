/-
  MpiRma/Codec.lean
  =================
  **The decoder of slots inverts the encoder.**  `slotImage` lays out an image field by
  field.  `send` writes such an image whatever its scratch buffer held, `frame` accepts
  exactly these images and gives back sequence and payload, and `probe` agrees with it.
-/
import MpiRma.Decoding
import MpiRma.Replay

namespace MpiRma

variable [Libraries]

/-! ### The layout of an image -/

/-- The image of a message: sequence, length, checksum, payload, padding, guard. -/
def slotImage (sequence : Nat) (data padding : Bytes) : Bytes :=
  toLE WORD sequence ++ (toLE WORD data.length ++
    (toLE CHECKSUM (Ring.checksum sequence data.length data) ++
      (data ++ (padding ++ toLE WORD (Ring.bitNot sequence)))))

/-- `bytes` is the image of a message that a slot of the lane can hold. -/
structure IsImage (lane : Lane) (bytes : Bytes) (sequence : Nat) (data : Bytes) : Prop where
  positive : sequence ≠ 0
  word : sequence ≤ u64Max
  fits : data.length ≤ lane.capacity
  layout : ∃ padding, bytes = slotImage sequence data padding

section Layout

variable {lane : Lane} {sequence : Nat} {data padding : Bytes}

theorem length_slotImage :
    (slotImage sequence data padding).length = HEADER + data.length + padding.length + WORD := by
  unfold slotImage HEADER
  simp only [List.length_append, length_toLE]
  omega

/-- The fields of an image are where the readers look for them. -/
theorem slotImage_views (hlength : (slotImage sequence data padding).length = lane.slot) :
    view (slotImage sequence data padding) 0 WORD = toLE WORD sequence ∧
    view (slotImage sequence data padding) WORD WORD = toLE WORD data.length ∧
    view (slotImage sequence data padding) (2 * WORD) CHECKSUM =
      toLE CHECKSUM (Ring.checksum sequence data.length data) ∧
    view (slotImage sequence data padding) HEADER data.length = data ∧
    view (slotImage sequence data padding) (lane.slot - WORD) WORD =
      toLE WORD (Ring.bitNot sequence) := by
  rw [length_slotImage] at hlength
  have hguard : lane.slot - WORD = HEADER + data.length + padding.length := by omega
  unfold slotImage
  refine ⟨?_, ?_, ?_, ?_, ?_⟩
  · rw [← List.nil_append (toLE WORD sequence ++ _)]
    apply view_middle
    · rfl
    · rw [length_toLE]
  · apply view_middle
    · rw [length_toLE]
    · rw [length_toLE]
  · rw [← List.append_assoc]
    apply view_middle
    · simp only [List.length_append, length_toLE]
      omega
    · rw [length_toLE]
  · rw [← List.append_assoc, ← List.append_assoc]
    apply view_middle
    · simp only [List.length_append, length_toLE]
      unfold HEADER
      omega
    · rfl
  · rw [← List.append_assoc, ← List.append_assoc, ← List.append_assoc, ← List.append_assoc,
      ← List.append_nil (toLE WORD (Ring.bitNot sequence)), hguard]
    apply view_middle
    · simp only [List.length_append, length_toLE]
      unfold HEADER
      omega
    · rw [length_toLE]

omit [Libraries] in
/-- A byte string is its fields one after the other. -/
theorem eq_fields {bytes : Bytes} {len : Nat} (hroom : HEADER + len + WORD ≤ bytes.length) :
    bytes = view bytes 0 WORD ++ (view bytes WORD WORD ++ (view bytes (2 * WORD) CHECKSUM ++
      (view bytes HEADER len ++ (view bytes (HEADER + len) (bytes.length - WORD - (HEADER + len)) ++
        view bytes (bytes.length - WORD) WORD)))) := by
  have hguard : HEADER + len + (bytes.length - WORD - (HEADER + len)) = bytes.length - WORD := by
    omega
  have hend : bytes.drop (bytes.length - WORD + WORD) = [] := by
    apply List.drop_eq_nil_of_le
    omega
  have h₀ := drop_eq_view_append bytes 0 WORD
  have h₁ := drop_eq_view_append bytes WORD WORD
  have h₂ := drop_eq_view_append bytes (2 * WORD) CHECKSUM
  have h₃ := drop_eq_view_append bytes HEADER len
  have h₄ := drop_eq_view_append bytes (HEADER + len) (bytes.length - WORD - (HEADER + len))
  have h₅ := drop_eq_view_append bytes (bytes.length - WORD) WORD
  rw [List.drop_zero, Nat.zero_add] at h₀
  rw [← Nat.two_mul] at h₁
  rw [hguard] at h₄
  rw [hend, List.append_nil] at h₅
  rw [← h₅, ← h₄, ← h₃]
  show bytes = view bytes 0 WORD ++ (view bytes WORD WORD ++ (view bytes (2 * WORD) CHECKSUM ++
    bytes.drop (2 * WORD + CHECKSUM)))
  rw [← h₂, ← h₁, ← h₀]

/-- **The parse accepts exactly the images.** -/
theorem frameOf_iff {bytes : Bytes} (hslot : lane.slot = lane.capacity + (HEADER + WORD))
    (hmax : lane.slot ≤ usizeMax) (hbytes : bytes.length = lane.slot) :
    Ring.frameOf lane bytes = some ⟨sequence, data⟩ ↔ IsImage lane bytes sequence data := by
  have hwide : lane.capacity < 256 ^ WORD := by
    unfold WORD
    unfold usizeMax at hmax
    omega
  have hword : ∀ start, start + WORD ≤ bytes.length →
      view bytes start WORD = toLE WORD (ofLE (view bytes start WORD)) := by
    intro start hstart
    have hback := toLE_ofLE (view bytes start WORD)
    rw [length_view hstart] at hback
    exact hback.symm
  constructor
  · intro h
    obtain ⟨hhead, hguard, hpos, hdata, hsum⟩ := Ring.frameOf_some h
    dsimp only at hhead hguard hpos hdata hsum
    have hheader : HEADER = 20 := rfl
    -- the payload is as long as the length field says
    have hpayload : data = view bytes HEADER (ofLE (view bytes WORD WORD)) ∧
        ofLE (view bytes WORD WORD) ≤ lane.capacity := by
      unfold Ring.frameOf at h
      dsimp only at h
      split at h
      · contradiction
      · rename_i hok
        simp only [not_or, not_lt] at hok
        exact ⟨(Frame.mk.inj (Option.some.inj h)).2.symm, hok.2.2.1⟩
    obtain ⟨hpayload, hlen⟩ := hpayload
    have hroom : HEADER + ofLE (view bytes WORD WORD) + WORD ≤ bytes.length := by omega
    have hlength : data.length = ofLE (view bytes WORD WORD) := by
      rw [hpayload]
      exact length_view (by omega)
    constructor
    · omega
    · have hlt := ofLE_lt (view bytes 0 WORD)
      rw [length_view (by omega), hhead] at hlt
      unfold WORD at hlt
      unfold u64Max
      omega
    · exact hdata
    · refine ⟨view bytes (HEADER + data.length) (bytes.length - WORD - (HEADER + data.length)), ?_⟩
      have hfields := eq_fields hroom
      have hcheck := toLE_ofLE (view bytes (2 * WORD) CHECKSUM)
      rw [length_view (by unfold WORD CHECKSUM; omega), hsum] at hcheck
      have hview : view bytes HEADER data.length = data := by
        rw [hlength]
        exact hpayload.symm
      rw [← hbytes] at hguard
      rw [← hlength, hview, hword 0 (by omega), hhead, hword WORD (by unfold WORD; omega),
        ← hlength, ← hcheck, ← hlength, hword (bytes.length - WORD) (by omega), hguard] at hfields
      exact hfields
  · rintro ⟨hpos, hle, hfits, padding, rfl⟩
    obtain ⟨hhead, hlen, hsum, hdata, hguard⟩ := slotImage_views hbytes
    unfold Ring.frameOf
    rw [hhead, hlen, hsum, hguard,
      ofLE_toLE_of_lt (by unfold WORD; unfold u64Max at hle; omega),
      ofLE_toLE_of_lt (by omega), ofLE_toLE_of_lt (Ring.checksum_lt _ _ _),
      ofLE_toLE_of_lt (by unfold WORD Ring.bitNot u64Max; omega)]
    dsimp only
    rw [hdata, if_neg]
    rintro (h | h | h | h)
    · exact hpos h
    · exact h rfl
    · omega
    · exact h rfl

end Layout

/-! ### The readers over a memory that stands still -/

omit [Libraries] in
/-- The answers of a slot window whose memory nobody changes. -/
def standing (mem : Memory UInt8) : (c : RingCall) → c.Answer
  | .readLocal disp len => mem.read disp len
  | .readLocalVolatile disp len => mem.read disp len
  | .readCounter _ => (0 : Nat)
  | .lockSent _ => (none : Option Outgoing)
  | .lockSeen => (none : Option (List Nat))
  | .lockAcked => (none : Option (List Nat))
  | .unlockSent _ _ _ => ()
  | .unlockSeen _ _ _ => ()
  | .unlockAcked _ _ => ()
  | .put _ _ _ => (.ok () : Except Int Unit)
  | .fetchAdd _ _ _ => (.ok 0 : Except Int Nat)
  | .addLost _ => ()
  | .addCorrupt => ()
  | .maxLag _ => ()
  | .addFull => ()

omit [Libraries] in
theorem standing_volatile (mem : Memory UInt8) (disp len : Nat) :
    standing mem (.readLocalVolatile disp len) = mem.read disp len := rfl

def Ring.frameIn (R : Ring) (lane : Lane) (position : Nat) (mem : Memory UInt8) :
    Except Fail (Option Frame) :=
  ((R.frame lane position ()).traceWith (standing mem)).2.1

omit [Libraries] in
def Ring.probeIn (R : Ring) (lane : Lane) (position : Nat) (mem : Memory UInt8) :
    Except Fail (Option Nat) :=
  ((R.probe lane position ()).traceWith (standing mem)).2.1

section Standing

variable {R : Ring} {safe : Bool} {length p : Nat} {lane : Lane} {mem : Memory UInt8}

omit [Libraries] in
theorem counted_trace {α σ : Type} {corrupt : Prop} [Decidable corrupt] {r : α} {v : σ} :
    ((counted corrupt r v).traceWith (standing mem)).2 = (.ok r, v) := by
  unfold counted
  split
  · rfl
  · rfl

theorem frameIn_eq (hR : Receives R safe length) (hslot : SlotIn length lane p) :
    R.frameIn lane p mem = .ok (Ring.frameOf lane (mem.read (lane.slotAt p) lane.slot)) := by
  unfold Ring.frameIn
  rw [frame_eq hR hslot, Program.traceWith_op]
  have himage := Memory.length_read mem (lane.slotAt p) lane.slot
  have htrace := congrArg (fun q => (q.traceWith (standing mem)).2.1)
    (framed_eq (v := ()) hslot hR.fits himage)
  rw [counted_trace] at htrace
  exact htrace

omit [Libraries] in
theorem probeIn_eq (hR : Receives R safe length) (hslot : SlotIn length lane p) :
    R.probeIn lane p mem =
      .ok (probeOf (mem.read (lane.slotAt p) WORD) (mem.read (lane.guardAt p) WORD)) := by
  unfold Ring.probeIn
  rw [probe_eq hR hslot, Program.traceWith_op, Program.traceWith_op, standing_volatile,
    standing_volatile]
  have hhead := Memory.length_read mem (lane.slotAt p) WORD
  have htail := Memory.length_read mem (lane.guardAt p) WORD
  have htrace := congrArg (fun q => (q.traceWith (standing mem)).2.1)
    (probed_eq (v := ()) hhead htail)
  rw [counted_trace] at htrace
  exact htrace

omit [Libraries] in
/-- The words `probe` reads are fields of the copy `frame` makes. -/
theorem probe_views (mem : Memory UInt8) (hslot : SlotIn length lane p) :
    mem.read (lane.slotAt p) WORD = view (mem.read (lane.slotAt p) lane.slot) 0 WORD ∧
    mem.read (lane.guardAt p) WORD =
      view (mem.read (lane.slotAt p) lane.slot) (lane.slot - WORD) WORD := by
  have hwide : HEADER + WORD ≤ lane.slot := by
    rw [hslot.slot]
    apply Nat.le_add_left
  have hguard : lane.guardAt p = lane.slotAt p + (lane.slot - WORD) := by
    unfold Lane.guardAt
    omega
  constructor
  · rw [view, List.drop_zero, Memory.take_read _ _ _ _ (by omega)]
  · rw [view, Memory.drop_read, Memory.take_read _ _ _ _ (by omega), hguard]

end Standing

/-! ### The codec -/

structure SlotCodec (R : Ring) (lane : Lane) (p : Nat) : Prop where
  encodes : ∀ scratch sequence data, scratch.length = lane.slot → 1 ≤ sequence →
    sequence ≤ u64Max → data.length ≤ lane.capacity →
    ∃ image, Ring.buildImage lane scratch sequence data = .ok image ∧ image.length = lane.slot ∧
      ∀ mem : Memory UInt8, mem.read (lane.slotAt p) lane.slot = image →
        R.frameIn lane p mem = .ok (some ⟨sequence, data⟩) ∧
        R.probeIn lane p mem = .ok (some sequence)
  accepts : ∀ (mem : Memory UInt8) sequence data,
    R.frameIn lane p mem = .ok (some ⟨sequence, data⟩) ↔
      IsImage lane (mem.read (lane.slotAt p) lane.slot) sequence data
  agrees : ∀ (mem : Memory UInt8) sequence data,
    R.frameIn lane p mem = .ok (some ⟨sequence, data⟩) → R.probeIn lane p mem = .ok (some sequence)
  every : ∀ bytes : Bytes, bytes.length = lane.slot →
    ∃ mem : Memory UInt8, mem.read (lane.slotAt p) lane.slot = bytes

/-- **The slot decoder accepts exactly the images `send` builds, and inverts it**, for every
    capacity, payload and content of the scratch buffer. -/
theorem slot_codec {R : Ring} {safe : Bool} {length p : Nat} {lane : Lane}
    (hR : Receives R safe length) (hslot : SlotIn length lane p) : SlotCodec R lane p := by
  have hmax : lane.slot ≤ usizeMax := by
    have hinside := hslot.inside
    have hfits := hR.fits
    unfold aintMax at hfits
    unfold usizeMax
    omega
  have hagrees : ∀ (mem : Memory UInt8) sequence data,
      R.frameIn lane p mem = .ok (some ⟨sequence, data⟩) →
      R.probeIn lane p mem = .ok (some sequence) := by
    intro mem sequence data h
    rw [frameIn_eq hR hslot] at h
    obtain ⟨hhead, hguard, hpos, -, -⟩ := Ring.frameOf_some (Except.ok.inj h)
    obtain ⟨hfirst, hlast⟩ := probe_views mem hslot
    dsimp only at hhead hguard hpos
    rw [probeIn_eq hR hslot, hfirst, hlast, probeOf, hhead, hguard, if_neg (by omega),
      if_neg (not_not.mpr rfl)]
  constructor
  · intro scratch sequence data _ hpos hword hfits
    obtain ⟨image, hbuild, hsays⟩ := Ring.buildImage_sized hslot.slot hmax scratch hpos hword hfits
    refine ⟨image, hbuild, hsays.length, fun mem hmem => ?_⟩
    have hframe : R.frameIn lane p mem = .ok (some ⟨sequence, data⟩) := by
      rw [frameIn_eq hR hslot, hmem, hsays.frame]
    exact ⟨hframe, hagrees mem sequence data hframe⟩
  · intro mem sequence data
    rw [frameIn_eq hR hslot, ← frameOf_iff hslot.slot hmax (Memory.length_read _ _ _)]
    constructor
    · intro h
      exact Except.ok.inj h
    · intro h
      rw [h]
  · exact hagrees
  · intro bytes hbytes
    refine ⟨Memory.write (fun _ => 0) (lane.slotAt p) bytes, ?_⟩
    rw [← hbytes]
    apply Memory.read_write_self

omit [Libraries] in
/-- The codec of the second slot of the lane from rank 0 to rank 1. -/
theorem slot_codec_pair : @SlotCodec libraries (pairRing true 3 8 1) (pairLane 3 8) 1 := by
  let _ := libraries
  obtain ⟨W⟩ := (pair_three true).wired
  have hlane : W.lane 0 1 = some (pairLane 3 8) := (W.to_iff (by decide)).mp rfl
  apply slot_codec (W.receives (by decide)) ((W.lanes hlane).slotIn _)
  decide

end MpiRma
