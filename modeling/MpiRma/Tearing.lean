/-
  MpiRma/Tearing.lean
  ===================
  **A slot read while an image lands in it.**  Elsewhere an image lands as a whole.  Here the
  two words `probe` reads may be torn: each byte is the one of the image before or of the one
  landing, and the guard word may be torn at the same places as the sequence.  The mixture
  can then pass for a later sequence, and a safe lane reports itself lapped, exactly when
  some byte of the sequence overwritten is greater than that byte of the new one.
-/
import MpiRma.Codec
import MpiRma.Observed

namespace MpiRma

/-! ### Torn words -/

/-- Each byte of `seen` is the one of `old` or of `new` at its place. -/
structure Torn (old new seen : Bytes) : Prop where
  length : seen.length = new.length
  byte : ∀ i : Nat, seen[i]? = old[i]? ∨ seen[i]? = new[i]?

/-- The guard of a sequence; a slot never written holds zeros. -/
def guardWord (sequence : Nat) : Nat := if sequence = 0 then 0 else Ring.bitNot sequence

theorem getElem_toLE {w n i : Nat} (hi : i < (toLE w n).length) :
    ((toLE w n)[i]).toNat = n / 256 ^ i % 256 := by
  induction w generalizing n i with
  | zero => simp [toLE] at hi
  | succ w ih =>
    cases i with
    | zero => simp [toLE]
    | succ i =>
      have hrest : i < (toLE w (n / 256)).length := by simpa [toLE] using hi
      have hbyte := ih hrest
      rw [Nat.div_div_eq_div_mul, ← pow_succ'] at hbyte
      simpa [toLE] using hbyte

/-- A word with a byte replaced by a greater one denotes a greater number. -/
theorem lt_ofLE_set {xs : Bytes} {i : Nat} {b : UInt8} (hi : i < xs.length) (hb : xs[i] < b) :
    ofLE xs < ofLE (xs.set i b) := by
  induction xs generalizing i with
  | nil => simp at hi
  | cons x xs ih =>
    cases i with
    | zero =>
      have hnat : x.toNat < b.toNat := UInt8.lt_iff_toNat_lt.mp hb
      simp only [List.set_cons_zero, ofLE]
      omega
    | succ i =>
      have hrest := ih (i := i) (by simpa using hi) (by simpa using hb)
      simp only [List.set_cons_succ, ofLE]
      omega

/-- The bytes of the bitwise complement. -/
theorem ofLE_complement {xs ys : Bytes} (hlen : xs.length = ys.length)
    (h : ∀ i (hx : i < xs.length) (hy : i < ys.length), ys[i].toNat = 255 - xs[i].toNat) :
    ofLE xs + ofLE ys + 1 = 256 ^ xs.length := by
  induction xs generalizing ys with
  | nil =>
    cases ys with
    | nil => rfl
    | cons => simp at hlen
  | cons x xs ih =>
    cases ys with
    | nil => simp at hlen
    | cons y ys =>
      have hhead : y.toNat = 255 - x.toNat := h 0 (by simp) (by simp)
      have htail : ofLE xs + ofLE ys + 1 = 256 ^ xs.length := by
        apply ih (by simpa using hlen)
        intro i hx hy
        exact h (i + 1) (by simpa using hx) (by simpa using hy)
      have hx := x.toNat_lt
      simp only [ofLE, List.length_cons, pow_succ']
      omega

theorem ofLE_word {n : Nat} (h : n ≤ u64Max) : ofLE (toLE WORD n) = n := by
  apply ofLE_toLE_of_lt
  unfold u64Max at h
  simp only [WORD]
  omega

def flip (bytes : Bytes) : Bytes := bytes.map fun b => 255 - b

theorem toNat_flip (b : UInt8) : (255 - b).toNat = 255 - b.toNat := by
  have hb := b.toNat_lt
  rw [UInt8.toNat_sub_of_le]
  · rfl
  · apply UInt8.le_iff_toNat_le.mpr
    change b.toNat ≤ 255
    omega

theorem ofLE_flip {bytes : Bytes} (h : bytes.length = WORD) :
    ofLE (flip bytes) = Ring.bitNot (ofLE bytes) := by
  have hsum : ofLE bytes + ofLE (flip bytes) + 1 = 256 ^ bytes.length := by
    apply ofLE_complement
    · simp [flip]
    · intro i hx hy
      simp only [flip, List.getElem_map]
      exact toNat_flip _
  rw [h] at hsum
  unfold Ring.bitNot u64Max
  simp only [WORD] at hsum
  omega

theorem toLE_bitNot {n : Nat} (h : n ≤ u64Max) :
    toLE WORD (Ring.bitNot n) = flip (toLE WORD n) := by
  have hflip : ofLE (flip (toLE WORD n)) = Ring.bitNot n := by
    rw [ofLE_flip (length_toLE _ _), ofLE_word h]
  have hback := toLE_ofLE (flip (toLE WORD n))
  rw [hflip] at hback
  simpa [flip] using hback

theorem Torn.flip {old new seen : Bytes} (h : Torn old new seen) :
    Torn (flip old) (flip new) (flip seen) where
  length := by simp [MpiRma.flip, h.length]
  byte i := by
    rcases h.byte i with hold | hnew
    · simp [MpiRma.flip, hold]
    · simp [MpiRma.flip, hnew]

def byteAt (sequence i : Nat) : Nat := sequence / 256 ^ i % 256

/-- A torn word is no greater than the new one when no byte overwritten is. -/
theorem Torn.le {old new : Nat} {seen : Bytes} (h : Torn (toLE WORD old) (toLE WORD new) seen)
    (hmax : new ≤ u64Max) (hbytes : ∀ i < WORD, byteAt old i ≤ byteAt new i) : ofLE seen ≤ new := by
  calc ofLE seen ≤ ofLE (toLE WORD new) := by
        apply ofLE_le_ofLE h.length
        intro i hx hy
        rcases h.byte i with hold | hnew
        · obtain ⟨hi, hsame⟩ :=
            List.getElem?_eq_some_iff.mp (hold.symm.trans (List.getElem?_eq_getElem hx))
          rw [← hsame]
          apply UInt8.le_iff_toNat_le.mpr
          rw [getElem_toLE hi, getElem_toLE hy]
          exact hbytes i (by simpa using hy)
        · obtain ⟨hi, hsame⟩ :=
            List.getElem?_eq_some_iff.mp (hnew.symm.trans (List.getElem?_eq_getElem hx))
          rw [UInt8.le_iff_toNat_le, hsame]
    _ = new := ofLE_word hmax

/-- The new word with one byte still the old one. -/
theorem torn_set (old new : Bytes) {i : Nat} (hi : i < old.length) :
    Torn old new (new.set i old[i]) where
  length := by simp
  byte j := by
    by_cases hj : i = j
    · subst hj
      by_cases hlen : i < new.length
      · left
        simp [hlen, hi]
      · right
        simp [hlen]
    · right
      simp [hj]

/-- A byte greater than the new one takes the word beyond the new one. -/
theorem torn_beyond {old new : Bytes} {i : Nat} (hold : i < old.length) (hnew : i < new.length)
    (hbyte : new[i].toNat < old[i].toNat) :
    ∃ seen, Torn old new seen ∧ ofLE new < ofLE seen :=
  ⟨_, torn_set old new hold, lt_ofLE_set hnew (UInt8.lt_iff_toNat_lt.mpr hbyte)⟩

/-! ### What a poll makes of them -/

/-- The words of a slot in which `new` lands over `old`. -/
structure TornWords (old new : Nat) (head tail : Bytes) : Prop where
  head : Torn (toLE WORD old) (toLE WORD new) head
  guard : Torn (toLE WORD (guardWord old)) (toLE WORD (guardWord new)) tail

/-- A probe of the two words can find a sequence beyond the new one exactly when some byte of
    the old one is greater. -/
theorem probe_beyond {old new : Nat} (hnew : 0 < new) (hold : old ≤ u64Max) (hmax : new ≤ u64Max) :
    (∃ head tail found, TornWords old new head tail ∧
      probeOf head tail = some found ∧ new < found) ↔
      ∃ i < WORD, byteAt new i < byteAt old i := by
  constructor
  · rintro ⟨head, tail, found, htorn, hprobe, hbeyond⟩
    by_contra hno
    push Not at hno
    have hle := htorn.head.le hmax hno
    have hfound : ofLE head = found := by
      unfold probeOf at hprobe
      split at hprobe
      · contradiction
      · split at hprobe
        · contradiction
        · exact Option.some.inj hprobe
    omega
  · rintro ⟨i, hi, hbyte⟩
    have hzero : old ≠ 0 := by
      rintro rfl
      simp [byteAt] at hbyte
    have hio : i < (toLE WORD old).length := by simpa using hi
    have hin : i < (toLE WORD new).length := by simpa using hi
    have hbeyond : ∃ head, Torn (toLE WORD old) (toLE WORD new) head ∧
        ofLE (toLE WORD new) < ofLE head := by
      apply torn_beyond hio hin
      rw [getElem_toLE, getElem_toLE]
      exact hbyte
    rw [ofLE_word hmax] at hbeyond
    obtain ⟨head, htorn, hbeyond⟩ := hbeyond
    have hlen : head.length = WORD := htorn.length.trans (length_toLE WORD new)
    refine ⟨head, flip head, ofLE head, ⟨htorn, ?_⟩, ?_, hbeyond⟩
    · unfold guardWord
      rw [if_neg hzero, if_neg (by omega), toLE_bitNot hold, toLE_bitNot hmax]
      exact htorn.flip
    · unfold probeOf
      rw [if_neg (by omega), if_neg (not_not_intro (ofLE_flip hlen))]

section Drain

variable [Libraries] {n : Nat} {ring : Nat → Ring} {s d : Nat} {l : Lane} {cursor fuel : Nat}
  {seen : List Nat} {messages : List Message}

def probeReads (l : Lane) (position : Nat) (head tail : Bytes) : List ((c : RingCall) × c.Answer) :=
  [⟨.readLocalVolatile (l.slotAt position) WORD, head⟩,
    ⟨.readLocalVolatile (l.guardAt position) WORD, tail⟩]

/-- The loop of a poll at a safe lane reports the lane lapped right after two reads that show a
    sequence beyond the one expected, and after no other two reads. -/
theorem drain_lapped (W : Wired n true ring) (hlane : W.lane s d = some l) {head tail : Bytes}
    (hhead : head.length = WORD) (htail : tail.length = WORD)
    (hcursor : seen[s]? = some cursor) (hmax : cursor + 1 ≤ u64Max) (found : Nat) :
    ((ring d).drain (s : Int) l (fuel + 1) messages seen).Follows
      (probeReads l (l.position (cursor + 1)) head tail)
      (.error (.error (.lapped s (cursor + 1) found)), seen) ↔
    probeOf head tail = some found ∧ cursor + 1 < found := by
  have hlaneOk := W.lanes hlane
  have hR := W.receives hlaneOk.destination
  have hslot := hlaneOk.slotIn (hlaneOk.position_lt (cursor + 1))
  have hsome : checkedAdd u64Max cursor 1 = some (cursor + 1) := if_pos hmax
  unfold Ring.drain
  show ((Code.lift (index seen (s : Int).toNat) >>= _ : RingCode _ _) seen).Follows _ _ ↔ _
  rw [Int.toNat_natCast, index_ok hcursor, Code.lift_ok_bind, hsome]
  dsimp only
  rw [slotPosition_ok hlaneOk.depth, Code.lift_ok_bind]
  show (((ring d).probe l _ seen).bind _).Follows _ _ ↔ _
  rw [probe_eq hR hslot]
  unfold probeReads
  refine Program.follows_cons.trans (Program.follows_cons.trans ?_)
  show ((probed head tail seen).bind _).Follows _ _ ↔ _
  rw [probed_eq hhead htail]
  unfold counted
  cases hprobe : probeOf head tail with
  | none =>
    simp only [reduceCtorEq, false_and, iff_false]
    split
    · exact Program.follows_op_nil
    · rintro ⟨-, hend⟩
      simp at hend
  | some found' =>
    rw [if_neg (by simp)]
    show ((if found' < cursor + 1 then _ else _ : RingCode _ _) seen).Follows _ _ ↔ _
    by_cases hlow : found' < cursor + 1
    · rw [if_pos hlow]
      constructor
      · rintro ⟨-, hend⟩
        simp at hend
      · rintro ⟨hfound, hbeyond⟩
        obtain rfl := Option.some.inj hfound
        omega
    rw [if_neg hlow]
    by_cases hlap : cursor + 1 < found'
    · rw [if_pos hlap, hR.isSafe, if_pos rfl]
      constructor
      · rintro ⟨-, hend⟩
        simp at hend
        exact ⟨congrArg some hend.symm, hend ▸ hlap⟩
      · rintro ⟨hfound, -⟩
        obtain rfl := Option.some.inj hfound
        exact ⟨rfl, rfl⟩
    · -- the frame is copied next: a third read
      rw [if_neg hlap]
      show (((ring d).frame l _ seen).bind _).Follows _ _ ↔ _
      rw [frame_eq hR hslot]
      constructor
      · intro h
        exact absurd h Program.follows_op_nil
      · rintro ⟨hfound, hbeyond⟩
        obtain rfl := Option.some.inj hfound
        exact absurd hbeyond hlap

/-- The sequence the slot of the next message holds before it lands. -/
def overwrittenBy (l : Lane) (sequence : Nat) : Nat := sequence - l.depth

/-- Some byte of the sequence overwritten is greater than that byte of the one landing. -/
def Borrows (l : Lane) (sequence : Nat) : Prop :=
  ∃ i < WORD, byteAt sequence i < byteAt (overwrittenBy l sequence) i

omit [Libraries] in
/-- A power of 256 beyond the depth borrows from its own byte. -/
theorem borrows_pow {k : Nat} (hk : k ≤ 7) (hdepth : 0 < l.depth) (hlt : l.depth < 256 ^ k) :
    Borrows l (256 ^ k) := by
  by_contra hno
  unfold Borrows overwrittenBy at hno
  push Not at hno
  have hzero : ∀ i < k, byteAt (256 ^ k) i = 0 := by
    intro i hi
    obtain ⟨j, rfl⟩ : ∃ j, k = i + (j + 1) := ⟨k - i - 1, by omega⟩
    unfold byteAt
    rw [pow_add, Nat.mul_div_cancel_left _ (Nat.pow_pos (by decide)), pow_succ, Nat.mul_mod_left]
  have hbytes : ofLE (toLE k (256 ^ k - l.depth)) ≤ ofLE (List.replicate k 0) := by
    apply ofLE_le_ofLE (by simp)
    intro i hx hy
    have hi : i < k := by simpa using hx
    have hle := hno i (by unfold WORD; omega)
    rw [hzero i hi] at hle
    have hbyte := getElem_toLE hx
    unfold byteAt at hle
    apply UInt8.le_iff_toNat_le.mpr
    rw [hbyte]
    exact hle.trans (Nat.zero_le _)
  rw [ofLE_replicate_zero, ofLE_toLE_of_lt (by omega)] at hbytes
  omega

/-- When a poll of a safe ring may take a slot half-written for lapped: `exact` says at which
    sequences, for every poll that expects the one landing, and `occurs` that no depth is safe
    from it. -/
structure TornLane (ring : Nat → Ring) (s d : Nat) (l : Lane) : Prop where
  exact : ∀ (cursor fuel : Nat) (seen : List Nat) (messages : List Message),
    seen[s]? = some cursor → cursor + 1 ≤ u64Max →
    ((∃ head tail found, TornWords (overwrittenBy l (cursor + 1)) (cursor + 1) head tail ∧
      ((ring d).drain (s : Int) l (fuel + 1) messages seen).Follows
        (probeReads l (l.position (cursor + 1)) head tail)
        (.error (.error (.lapped s (cursor + 1) found)), seen)) ↔ Borrows l (cursor + 1))
  occurs : ∀ k ≤ 7, l.depth < 256 ^ k → Borrows l (256 ^ k)

/-- **A slot read while the next message lands in it can pass for lapped** exactly when some
    byte of the sequence it overwrites is greater than that byte of its own. -/
theorem torn_lapped {comm : Fin n → Comm} {lists : Fin n → List LaneSpec}
    (hring : Constructed n comm lists true ring) (hs : s < n)
    (hlane : (ring s).toLanes[d]? = some (some l)) : TornLane ring s d l := by
  obtain ⟨W⟩ := hring.wired
  have hlane := (W.to_iff hs).mp hlane
  constructor
  · intro cursor fuel seen messages hcursor hmax
    have hold : overwrittenBy l (cursor + 1) ≤ u64Max := by
      unfold overwrittenBy
      omega
    unfold Borrows
    rw [← probe_beyond (Nat.succ_pos cursor) hold hmax]
    constructor
    · rintro ⟨head, tail, found, htorn, hfollows⟩
      have hhead : head.length = WORD := htorn.head.length.trans (length_toLE _ _)
      have htail : tail.length = WORD := htorn.guard.length.trans (length_toLE _ _)
      rcases (drain_lapped W hlane hhead htail hcursor hmax found).mp hfollows with
        ⟨hprobe, hbeyond⟩
      exact ⟨head, tail, found, htorn, hprobe, hbeyond⟩
    · rintro ⟨head, tail, found, htorn, hprobe, hbeyond⟩
      have hhead : head.length = WORD := htorn.head.length.trans (length_toLE _ _)
      have htail : tail.length = WORD := htorn.guard.length.trans (length_toLE _ _)
      exact ⟨head, tail, found, htorn,
        (drain_lapped W hlane hhead htail hcursor hmax found).mpr ⟨hprobe, hbeyond⟩⟩
  · intro k hk hlt
    exact borrows_pow hk (W.lanes hlane).depth hlt

omit [Libraries] in
/-- The message 256 landing over the message 253 of a lane with three slots. -/
theorem torn_lapped_pair :
    ∃ head tail found, TornWords 253 256 head tail ∧
      (@Ring.drain libraries (pairRing true 3 8 1) 0 (pairLane 3 8) 3 [] [255, 0]).Follows
        (probeReads (pairLane 3 8) ((pairLane 3 8).position 256) head tail)
        (.error (.error (.lapped 0 256 found)), [255, 0]) := by
  let _ := libraries
  have hlane : TornLane (pairRing true 3 8) 0 1 (pairLane 3 8) :=
    torn_lapped (pair_three true) (by decide) (by decide)
  exact (hlane.exact 255 2 [255, 0] [] (by decide) (by decide)).mpr
    (hlane.occurs 1 (by decide) (by decide))

end Drain

end MpiRma
