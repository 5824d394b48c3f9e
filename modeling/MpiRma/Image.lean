/-
  MpiRma/Image.lean
  =================
  **Slot images.**  `frameOf` is the parse of a whole slot, `Says` what the three reads of a
  slot (head word, guard word, whole copy) tell when it holds a given frame or nothing.
  `send` builds an image that says the frame it was built from (`buildImage_says`), the
  zeroed memory of a fresh window says nothing, and the slots of all lanes into one rank
  are disjoint, so an image landing in one slot leaves the others as they were.
-/
import MpiRma.Ring
import MpiRma.Wiring

namespace MpiRma

/-! ### Where slots lie -/

def Lane.slotAt (lane : Lane) (position : Nat) : Nat := lane.offset + position * lane.slot

def Lane.guardAt (lane : Lane) (position : Nat) : Nat := lane.slotAt position + lane.slot - WORD

def Lane.position (lane : Lane) (sequence : Nat) : Nat := (sequence - 1) % lane.depth

theorem Lane.slot_inside (lane : Lane) {p : Nat} (hp : p < lane.depth) :
    lane.slotAt p + lane.slot ≤ lane.offset + lane.depth * lane.slot := by
  have : (p + 1) * lane.slot ≤ lane.depth * lane.slot := Nat.mul_le_mul_right _ hp
  rw [Nat.succ_mul] at this
  rw [Lane.slotAt]
  omega

theorem Lane.slot_apart (lane : Lane) {p q : Nat} (hpq : p ≠ q) :
    lane.slotAt p + lane.slot ≤ lane.slotAt q ∨ lane.slotAt q + lane.slot ≤ lane.slotAt p := by
  unfold Lane.slotAt
  rcases Nat.lt_or_gt_of_ne hpq with hlt | hgt
  · have : (p + 1) * lane.slot ≤ q * lane.slot := Nat.mul_le_mul_right _ hlt
    rw [Nat.succ_mul] at this
    omega
  · have : (q + 1) * lane.slot ≤ p * lane.slot := Nat.mul_le_mul_right _ hgt
    rw [Nat.succ_mul] at this
    omega

namespace LaneOk

variable {n s d : Nat} {slotLength ackLength : Nat → Nat} {lane : Lane}

theorem slot_ge (h : LaneOk n slotLength ackLength s d lane) : HEADER + WORD < lane.slot := by
  have := h.slot
  have := h.capacity
  omega

theorem slot_le (h : LaneOk n slotLength ackLength s d lane) {p : Nat} (hp : p < lane.depth) :
    lane.slotAt p + lane.slot ≤ slotLength d :=
  Nat.le_trans (lane.slot_inside hp) h.inside

theorem position_lt (h : LaneOk n slotLength ackLength s d lane) (sequence : Nat) :
    lane.position sequence < lane.depth :=
  Nat.mod_lt _ h.depth

end LaneOk

/-! ### The parse of an image -/

namespace Ring

variable [Libraries]

/-- The frame of a slot copy, when its guard, length and checksum agree. -/
def frameOf (lane : Lane) (image : Bytes) : Option Frame :=
  let sequence := ofLE (view image 0 WORD)
  let len := ofLE (view image WORD WORD)
  let data := view image HEADER len
  if sequence = 0 ∨ ofLE (view image (lane.slot - WORD) WORD) ≠ bitNot sequence ∨
      lane.capacity < len ∨ ofLE (view image (2 * WORD) CHECKSUM) ≠ checksum sequence len data then
    none
  else
    some ⟨sequence, data⟩

theorem frameOf_some {lane : Lane} {image : Bytes} {frame : Frame}
    (h : frameOf lane image = some frame) :
    ofLE (view image 0 WORD) = frame.sequence ∧
      ofLE (view image (lane.slot - WORD) WORD) = bitNot frame.sequence ∧
      0 < frame.sequence ∧ frame.data.length ≤ lane.capacity ∧
      ofLE (view image (2 * WORD) CHECKSUM) =
        checksum frame.sequence (ofLE (view image WORD WORD)) frame.data := by
  unfold frameOf at h
  dsimp only at h
  split at h
  · exact nomatch h
  · rename_i hok
    simp only [not_or, not_not, not_lt] at hok
    obtain ⟨hzero, hguard, hlen, hcheck⟩ := hok
    obtain rfl := Option.some.inj h
    refine ⟨rfl, hguard, Nat.pos_of_ne_zero hzero, ?_, hcheck⟩
    exact Nat.le_trans (List.length_take_le _ _) hlen

/-- What the reads of a slot tell when it holds `content`. -/
structure Says (lane : Lane) (image : Bytes) (content : Option Frame) : Prop where
  length : image.length = lane.slot
  frame : frameOf lane image = content
  empty : content = none → ofLE (view image 0 WORD) = 0 ∧
    ofLE (view image (lane.slot - WORD) WORD) = 0

def sequenceOf (content : Option Frame) : Nat := (content.map Frame.sequence).getD 0

theorem Says.head {lane : Lane} {image : Bytes} {content : Option Frame}
    (h : Says lane image content) : ofLE (view image 0 WORD) = sequenceOf content := by
  cases content with
  | none => exact (h.empty rfl).1
  | some frame => exact (frameOf_some h.frame).1

theorem Says.tail {lane : Lane} {image : Bytes} {content : Option Frame}
    (h : Says lane image content) :
    ofLE (view image (lane.slot - WORD) WORD) = 0 ∧ content = none ∨
      ofLE (view image (lane.slot - WORD) WORD) = bitNot (sequenceOf content) ∧
        0 < sequenceOf content := by
  cases content with
  | none => exact .inl ⟨(h.empty rfl).2, rfl⟩
  | some frame => exact .inr ⟨(frameOf_some h.frame).2.1, (frameOf_some h.frame).2.2.1⟩

/-! ### The image of a send -/

def stamp (lane : Lane) (scratch : Bytes) (sequence : Nat) (data : Bytes) : Bytes :=
  let image := splice scratch 0 (toLE WORD sequence)
  let image := splice image WORD (toLE WORD data.length)
  let image := splice image HEADER data
  let image := splice image (2 * WORD) (toLE CHECKSUM (checksum sequence data.length data))
  splice image (lane.slot - WORD) (toLE WORD (bitNot sequence))

theorem checksum_lt (sequence len : Nat) (data : Bytes) :
    checksum sequence len data < 256 ^ CHECKSUM := UInt32.toNat_lt _

omit [Libraries] in
theorem copyFromSlice_splice {dst src : Bytes} {start stop : Nat} (h : stop = start + src.length)
    (hdst : stop ≤ dst.length) : copyFromSlice dst start stop src = .ok (splice dst start src) := by
  rw [copyFromSlice_ok (by omega) hdst (by omega), h]
  rfl

omit [Libraries] in
theorem length_resize (image : Bytes) (slot : Nat) : (resize image slot).length = slot := by
  simp only [resize, List.length_append, List.length_take, List.length_replicate]
  omega

section Stamp

variable {lane : Lane} {scratch : Bytes} {data : Bytes}
  (hlen : scratch.length = lane.slot) (hslot : HEADER + data.length + WORD ≤ lane.slot)
include hlen hslot

/-- The fields of a stamped buffer, and its length. -/
theorem stamp_fields (sequence : Nat) :
    (stamp lane scratch sequence data).length = lane.slot ∧
    view (stamp lane scratch sequence data) 0 WORD = toLE WORD sequence ∧
    view (stamp lane scratch sequence data) WORD WORD = toLE WORD data.length ∧
    view (stamp lane scratch sequence data) HEADER data.length = data ∧
    view (stamp lane scratch sequence data) (2 * WORD) CHECKSUM =
      toLE CHECKSUM (checksum sequence data.length data) ∧
    view (stamp lane scratch sequence data) (lane.slot - WORD) WORD =
      toLE WORD (bitNot sequence) := by
  simp only [HEADER, WORD, CHECKSUM] at hslot
  unfold stamp
  -- each splice keeps the length; a field is read off the splice that stored it
  set image₁ := splice scratch 0 (toLE WORD sequence) with e₁
  set image₂ := splice image₁ WORD (toLE WORD data.length) with e₂
  set image₃ := splice image₂ HEADER data with e₃
  set image₄ := splice image₃ (2 * WORD)
    (toLE CHECKSUM (checksum sequence data.length data)) with e₄
  have b₁ : 0 + (toLE WORD sequence).length ≤ scratch.length := by
    simp only [length_toLE, WORD]
    omega
  have h₁ : image₁.length = lane.slot := (length_splice b₁).trans hlen
  have b₂ : WORD + (toLE WORD data.length).length ≤ image₁.length := by
    simp only [length_toLE, WORD]
    omega
  have h₂ : image₂.length = lane.slot := (length_splice b₂).trans h₁
  have b₃ : HEADER + data.length ≤ image₂.length := by
    simp only [HEADER, WORD, CHECKSUM]
    omega
  have h₃ : image₃.length = lane.slot := (length_splice b₃).trans h₂
  have b₄ : 2 * WORD + (toLE CHECKSUM (checksum sequence data.length data)).length ≤
      image₃.length := by
    simp only [length_toLE, WORD, CHECKSUM]
    omega
  have h₄ : image₄.length = lane.slot := (length_splice b₄).trans h₃
  have b₅ : lane.slot - WORD + (toLE WORD (bitNot sequence)).length ≤ image₄.length := by
    simp only [length_toLE, WORD]
    omega
  simp only [length_toLE] at b₁ b₂ b₄ b₅
  have apart₅ : ∀ a len, a + len ≤ lane.slot - WORD →
      view (splice image₄ (lane.slot - WORD) (toLE WORD (bitNot sequence))) a len =
        view image₄ a len :=
    fun a len h => view_splice_apart (by rwa [length_toLE]) (.inl h)
  have apart₄ : ∀ a len, a + len ≤ 2 * WORD ∨ HEADER ≤ a → view image₄ a len = view image₃ a len :=
    fun a len h => view_splice_apart (by rwa [length_toLE]) (by rwa [length_toLE])
  have apart₃ : ∀ a len, a + len ≤ HEADER → view image₃ a len = view image₂ a len :=
    fun a len h => view_splice_apart b₃ (.inl h)
  have apart₂ : ∀ a len, a + len ≤ WORD → view image₂ a len = view image₁ a len :=
    fun a len h => view_splice_apart (by rwa [length_toLE]) (.inl h)
  have self : ∀ (dst : Bytes) (start w x : Nat), start ≤ dst.length →
      view (splice dst start (toLE w x)) start w = toLE w x := by
    intro dst start w x h
    have : view (splice dst start (toLE w x)) start (toLE w x).length = toLE w x :=
      view_splice_self h
    rwa [length_toLE] at this
  refine ⟨(length_splice (by rwa [length_toLE])).trans h₄, ?_, ?_, ?_, ?_, ?_⟩
  · rw [apart₅ _ _ (by simp only [WORD]; omega), apart₄ _ _ (by simp only [WORD]; omega),
      apart₃ _ _ (by simp only [WORD, HEADER, CHECKSUM]; omega), apart₂ _ _ (by omega)]
    exact self _ _ _ _ (by omega)
  · rw [apart₅ _ _ (by simp only [WORD]; omega), apart₄ _ _ (by simp only [WORD]; omega),
      apart₃ _ _ (by simp only [WORD, HEADER, CHECKSUM]; omega)]
    exact self _ _ _ _ (by omega)
  · rw [apart₅ _ _ (by simp only [WORD, HEADER, CHECKSUM]; omega), apart₄ _ _ (.inr (le_refl _))]
    exact view_splice_self (by omega)
  · rw [apart₅ _ _ (by simp only [WORD, CHECKSUM]; omega)]
    exact self _ _ _ _ (by omega)
  · exact self image₄ _ _ _ (by omega)

end Stamp

/-- The image of a send says the frame that was sent, whatever the scratch buffer held. -/
theorem buildImage_sized {lane : Lane} (hslot : lane.slot = lane.capacity + (HEADER + WORD))
    (hcount : lane.slot ≤ usizeMax) (old : Bytes) {sequence : Nat} {data : Bytes}
    (hzero : 0 < sequence) (hmax : sequence ≤ u64Max) (hdata : data.length ≤ lane.capacity) :
    ∃ image, buildImage lane old sequence data = .ok image ∧
      Says lane image (some ⟨sequence, data⟩) := by
  obtain ⟨scratch, hscratch, hlen⟩ : ∃ scratch,
      (if old.length ≠ lane.slot then resize old lane.slot else old) = scratch ∧
        scratch.length = lane.slot := by
    refine ⟨_, rfl, ?_⟩
    split
    · exact length_resize _ _
    · rename_i h
      simpa using h
  have hroom : HEADER + data.length + WORD ≤ lane.slot := by omega
  obtain ⟨h, hhead, hlength, hpayload, hcheck, hguard⟩ :=
    stamp_fields hlen hroom sequence
  simp only [HEADER, WORD, CHECKSUM] at hroom hslot
  unfold usizeMax at hcount
  refine ⟨stamp lane scratch sequence data, ?_, h, ?_, nofun⟩
  · have hkeep : ∀ (dst : Bytes) (start : Nat) (src : Bytes), dst.length = lane.slot →
        start + src.length ≤ lane.slot → (splice dst start src).length = lane.slot :=
      fun dst start src hdst h => (length_splice (by omega)).trans hdst
    have h₁ := hkeep scratch 0 (toLE WORD sequence) hlen (by rw [length_toLE, WORD]; omega)
    have h₂ := hkeep _ WORD (toLE WORD data.length) h₁ (by rw [length_toLE, WORD]; omega)
    have h₃ := hkeep _ HEADER data h₂ (by rw [HEADER, WORD, CHECKSUM]; omega)
    have h₄ := hkeep _ (2 * WORD) (toLE CHECKSUM (checksum sequence data.length data)) h₃
      (by rw [length_toLE, WORD, CHECKSUM]; omega)
    have hstop : HEADER + data.length ≤ usizeMax := by
      rw [HEADER, WORD, CHECKSUM, usizeMax]
      omega
    unfold buildImage
    dsimp only
    rw [hscratch, copyFromSlice_splice (by rw [length_toLE, Nat.zero_add])
      (by rw [hlen, WORD]; omega)]
    dsimp only [bind, Except.bind]
    rw [copyFromSlice_splice (by rw [length_toLE, WORD]) (by rw [h₁, WORD]; omega)]
    dsimp only
    rw [plainAdd_ok hstop]
    dsimp only
    rw [copyFromSlice_splice rfl (by rw [h₂, HEADER, WORD, CHECKSUM]; omega)]
    dsimp only
    rw [copyFromSlice_splice (by rw [length_toLE, HEADER])
      (by rw [h₃, HEADER, WORD, CHECKSUM]; omega)]
    dsimp only
    rw [plainSub_ok (by rw [WORD]; omega)]
    dsimp only
    rw [copyFromSlice_splice (by rw [h₄, length_toLE, WORD]; omega) (le_refl _)]
    rfl
  · unfold frameOf
    rw [hhead, hlength, hcheck, hguard,
      ofLE_toLE_of_lt (by simp only [WORD]; unfold u64Max at hmax; omega),
      ofLE_toLE_of_lt (by simp only [WORD]; omega), ofLE_toLE_of_lt (checksum_lt _ _ _),
      ofLE_toLE_of_lt (by simp only [WORD, bitNot]; unfold u64Max; omega)]
    dsimp only
    rw [hpayload, if_neg]
    rintro (h | h | h | h)
    · omega
    · exact h rfl
    · omega
    · exact h rfl

/-- So does the image of a send on a configured lane. -/
theorem buildImage_says {n s d : Nat} {slotLength ackLength : Nat → Nat} {lane : Lane}
    (hlane : LaneOk n slotLength ackLength s d lane) (old : Bytes) {sequence : Nat} {data : Bytes}
    (hzero : 0 < sequence) (hmax : sequence ≤ u64Max) (hdata : data.length ≤ lane.capacity) :
    ∃ image, buildImage lane old sequence data = .ok image ∧
      Says lane image (some ⟨sequence, data⟩) := by
  apply buildImage_sized hlane.slot _ old hzero hmax hdata
  exact Nat.le_trans hlane.count (by decide)

end Ring

end MpiRma
