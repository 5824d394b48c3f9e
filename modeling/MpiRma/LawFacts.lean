/-
  MpiRma/LawFacts.lean
  ====================
  **What lawful logs have in common.**  The puts of a lane carry consecutive sequences, a
  failed put may repeat one; a probe and a copy tell what the slot held when they were
  made.  From this the runs of `Receive.lean` are read as facts about messages: what a
  lane delivers was put on it, what it skips has been overwritten, and a poll no put
  interferes with drains the lane.
-/
import MpiRma.Log

namespace MpiRma

variable [Libraries] {n : Nat} {safe : Bool} {ring : Nat → Ring} {W : Wired n safe ring}
  {faults : Faults}

theorem Lawful.suffix {log log' : List Event} (h : Lawful W faults log') (hs : log <:+ log') :
    Lawful W faults log := by
  induction log' with
  | nil => rwa [List.suffix_nil.mp hs]
  | cons e rest ih =>
    rcases List.suffix_cons_iff.mp hs with rfl | hs
    · exact h
    · exact ih h.2 hs

/-- The event after a suffix of a lawful log was allowed there. -/
theorem Lawful.event {log log' : List Event} {e : Event} (h : Lawful W faults log')
    (hs : (e :: log) <:+ log') : EventOk W faults log e :=
  (h.suffix hs).1

/-! ### The puts of a lane -/

section Puts

variable {s d : Nat}

/-- Between a put that failed and the next one that succeeds the newest image is ahead. -/
theorem Lawful.top_sent {log : List Event} (h : Lawful W faults log) :
    sentOf s d log ≤ topOf s d log ∧ topOf s d log ≤ sentOf s d log + 1 := by
  induction log with
  | nil => exact ⟨le_refl _, by simp [topOf, sentOf]⟩
  | cons e rest ih =>
    have hrest := ih h.2
    cases e with
    | put s' d' q data ok disp len =>
      obtain ⟨l, hput, -⟩ := h.1
      by_cases hlane : s' = s ∧ d' = d
      · obtain ⟨rfl, rfl⟩ := hlane
        have hnext := hput.next
        cases ok with
        | true => simp [topOf, sentOf]
        | false =>
          simp [topOf, sentOf]
          omega
      · have hnot : ¬ (s' = s ∧ d' = d ∧ ok = true) := fun h => hlane ⟨h.1, h.2.1⟩
        simp only [topOf, sentOf, if_neg hlane, if_neg hnot]
        exact hrest
    | _ => exact hrest

theorem Lawful.top_le_max {log : List Event} (h : Lawful W faults log) :
    topOf s d log ≤ u64Max := by
  induction log with
  | nil => exact Nat.zero_le _
  | cons e rest ih =>
    have hrest := ih h.2
    cases e with
    | put s' d' q data ok disp len =>
      obtain ⟨l, hput, -⟩ := h.1
      unfold topOf
      split
      · exact hput.max
      · exact hrest
    | _ => exact hrest

theorem Lawful.top_step {e : Event} {log : List Event} (h : Lawful W faults (e :: log)) :
    topOf s d log ≤ topOf s d (e :: log) := by
  have hrest := h.2.top_sent (s := s) (d := d)
  cases e with
  | put s' d' q data ok disp len =>
    obtain ⟨l, hput, -⟩ := h.1
    have hnext := hput.next
    by_cases hlane : s' = s ∧ d' = d
    · obtain ⟨rfl, rfl⟩ := hlane
      simp only [topOf, and_self, if_true]
      omega
    · simp only [topOf, if_neg hlane]
      exact le_refl _
  | _ => exact le_refl _

theorem Lawful.top_mono {log log' : List Event} (h : Lawful W faults log') (hs : log <:+ log') :
    topOf s d log ≤ topOf s d log' := by
  induction log' with
  | nil => rw [List.suffix_nil.mp hs]
  | cons e rest ih =>
    rcases List.suffix_cons_iff.mp hs with rfl | hs
    · exact le_refl _
    · exact Nat.le_trans (ih h.2 hs) h.top_step

theorem Lawful.sent_mono {log log' : List Event} (h : Lawful W faults log') (hs : log <:+ log') :
    sentOf s d log ≤ sentOf s d log' := by
  induction log' with
  | nil => rw [List.suffix_nil.mp hs]
  | cons e rest ih =>
    rcases List.suffix_cons_iff.mp hs with rfl | hs
    · exact le_refl _
    · refine Nat.le_trans (ih h.2 hs) ?_
      cases e with
      | put s' d' q data ok disp len =>
        obtain ⟨l, hput, -⟩ := h.1
        have hnext := hput.next
        by_cases hlane : s' = s ∧ d' = d ∧ ok = true
        · obtain ⟨rfl, rfl, rfl⟩ := hlane
          simp only [sentOf, and_self, if_true]
          omega
        · simp only [sentOf, if_neg hlane]
          exact le_refl _
      | _ => exact le_refl _

/-- Every sequence up to the newest has a payload. -/
theorem Lawful.payload {log : List Event} (h : Lawful W faults log) {q : Nat} (h0 : 0 < q)
    (hq : q ≤ topOf s d log) : ∃ data, payloadOf s d q log = some data := by
  induction log with
  | nil =>
    simp only [topOf] at hq
    omega
  | cons e rest ih =>
    have htop := h.2.top_sent (s := s) (d := d)
    cases e with
    | put s' d' q' data ok disp len =>
      obtain ⟨l, hput, -⟩ := h.1
      have hnext := hput.next
      by_cases hlane : s' = s ∧ d' = d
      · obtain ⟨rfl, rfl⟩ := hlane
        simp only [topOf, and_self, if_true] at hq
        by_cases hsame : q' = q
        · exact ⟨data, by simp [payloadOf, hsame]⟩
        · obtain ⟨data', hdata'⟩ := ih h.2 (by omega)
          exact ⟨data', by simp [payloadOf, hsame, hdata']⟩
      · have hnot : ¬ (s' = s ∧ d' = d ∧ q' = q) := fun h => hlane ⟨h.1, h.2.1⟩
        simp only [topOf, if_neg hlane] at hq
        obtain ⟨data', hdata'⟩ := ih h.2 hq
        exact ⟨data', by simp only [payloadOf, if_neg hnot, hdata']⟩
    | _ => exact ih h.2 hq

end Puts

/-! ### What reads tell -/

section Reads

variable {s d : Nat} {l : Lane}

omit [Libraries] in
theorem sequenceOf_contentAt (log : List Event) (p : Nat) :
    Ring.sequenceOf (contentAt s d l log p) = Cyclic.newest l.depth (topOf s d log) p := by
  unfold contentAt
  dsimp only
  split
  · rename_i h
    exact h.symm
  · rfl

/-- The part of an image a read inside the slot shows. -/
theorem Lawful.read_says {log : List Event} {p disp : Nat} {bytes : Bytes}
    (h : Lawful W faults (.read d disp bytes :: log)) (hlane : W.lane s d = some l)
    (hp : p < l.depth) (hstart : l.slotAt p ≤ disp)
    (hend : disp + bytes.length ≤ l.slotAt p + l.slot) :
    ∃ image, Ring.Says l image (contentAt s d l log p) ∧
      bytes = view image (disp - l.slotAt p) bytes.length :=
  h.1 s l hlane p hp hstart hend

theorem Lawful.head {log : List Event} {p : Nat} {head : Bytes}
    (h : Lawful W faults (.read d (l.slotAt p) head :: log)) (hlane : W.lane s d = some l)
    (hp : p < l.depth) (hlen : head.length = WORD) :
    ofLE head = Cyclic.newest l.depth (topOf s d log) p := by
  have hge := (W.lanes hlane).slot_ge
  obtain ⟨image, hsays, hview⟩ := h.read_says hlane hp (le_refl _) (by omega)
  rw [hlen, Nat.sub_self] at hview
  rw [hview, hsays.head, sequenceOf_contentAt]

theorem Lawful.tail {log : List Event} {p : Nat} {tail : Bytes}
    (h : Lawful W faults (.read d (l.guardAt p) tail :: log)) (hlane : W.lane s d = some l)
    (hp : p < l.depth) (hlen : tail.length = WORD)
    (hfull : 0 < Cyclic.newest l.depth (topOf s d log) p) :
    ofLE tail = Ring.bitNot (Cyclic.newest l.depth (topOf s d log) p) := by
  have hge := (W.lanes hlane).slot_ge
  have hguard : l.guardAt p = l.slotAt p + (l.slot - WORD) := by
    unfold Lane.guardAt
    omega
  obtain ⟨image, hsays, hview⟩ := h.read_says hlane hp (by omega) (by omega)
  rw [hlen, hguard, Nat.add_sub_cancel_left] at hview
  rw [hview]
  rcases hsays.tail with ⟨-, hnone⟩ | ⟨htail, -⟩
  · have := sequenceOf_contentAt (s := s) (d := d) (l := l) log p
    rw [hnone] at this
    simp only [Ring.sequenceOf, Option.map_none, Option.getD_none] at this
    omega
  · rw [htail, sequenceOf_contentAt]

theorem Lawful.copy {log : List Event} {p : Nat} {image : Bytes}
    (h : Lawful W faults (.read d (l.slotAt p) image :: log)) (hlane : W.lane s d = some l)
    (hp : p < l.depth) (hlen : image.length = l.slot) :
    Ring.frameOf l image = contentAt s d l log p := by
  obtain ⟨image', hsays, hview⟩ := h.read_says hlane hp (le_refl _) (by omega)
  rw [hlen, Nat.sub_self] at hview
  have hwhole : view image' 0 l.slot = image' := by
    rw [view, List.drop_zero, ← hsays.length, List.take_length]
  rw [hview, hwhole]
  exact hsays.frame

/-- No head word at a place is read between two logs. -/
def NoHead (d disp : Nat) (before after : List Event) : Prop :=
  ∃ added, after = added ++ before ∧
    ∀ bytes, .read d disp bytes ∈ added → bytes.length ≠ WORD

omit [Libraries] in
theorem NoHead.trans {d disp : Nat} {a b c : List Event} (h : NoHead d disp a b)
    (h' : NoHead d disp b c) : NoHead d disp a c := by
  obtain ⟨e, rfl, he⟩ := h
  obtain ⟨e', rfl, he'⟩ := h'
  refine ⟨e' ++ e, by simp, fun bytes hmem => ?_⟩
  rcases List.mem_append.mp hmem with hmem | hmem
  · exact he' bytes hmem
  · exact he bytes hmem

omit [Libraries] in
theorem ReadsIn.noHead {d disp : Nat} {P : Nat → Prop} {a b : List Event} (h : ReadsIn d P a b)
    (hdisp : ¬ P disp) : NoHead d disp a b := by
  obtain ⟨e, rfl, he⟩ := h
  refine ⟨e, rfl, fun bytes hmem => ?_⟩
  rcases he _ hmem rfl with ⟨_, hlost⟩ | ⟨_, _, hread, hP⟩
  · exact nomatch hlost
  · injection hread with _ hd _
    exact absurd (hd ▸ hP) hdisp

omit [Libraries] in
theorem Extends.noHead {d disp : Nat} {a b : List Event} (h : Extends d a b) :
    NoHead d disp a b :=
  (h.readsIn (P := fun _ => False)).noHead not_false

omit [Libraries] in
theorem NoHead.read {d disp disp' : Nat} {bytes : Bytes} {log : List Event}
    (h : disp' ≠ disp ∨ bytes.length ≠ WORD) :
    NoHead d disp log (.read d disp' bytes :: log) := by
  refine ⟨[.read d disp' bytes], rfl, fun bytes' hmem => ?_⟩
  have heq := List.mem_singleton.mp hmem
  injection heq with _ hdisp hbytes
  rcases h with h | h
  · exact absurd hdisp.symm h
  · rwa [hbytes]

structure ProbeTruth (s d : Nat) (l : Lane) (p : Nat) (before : List Event) (probed : Option Nat)
    (after a b : List Event) (head : Bytes) : Prop where
  before_head : before <:+ a
  head_tail : a <:+ b
  tail_after : b <:+ after
  length : head.length = WORD
  noHead : NoHead d (l.slotAt p) (.read d (l.slotAt p) head :: a) after
  found : ∀ h, probed = some h → 0 < h ∧ h = Cyclic.newest l.depth (topOf s d a) p ∧
    h = Cyclic.newest l.depth (topOf s d b) p
  missed : probed = none → Cyclic.newest l.depth (topOf s d a) p = 0 ∨
    Cyclic.newest l.depth (topOf s d a) p < Cyclic.newest l.depth (topOf s d b) p

theorem Probed.truth {p : Nat} {before after : List Event} {probed : Option Nat}
    (h : Probed d l p before probed after) (hlaw : Lawful W faults after)
    (hlane : W.lane s d = some l) (hp : p < l.depth) :
    ∃ a b head, ProbeTruth s d l p before probed after a b head := by
  obtain ⟨h₁, hhead, h₂, htail, h₃⟩ := h
  rename_i a b head tail
  have hge := (W.lanes hlane).slot_ge
  have hb : b <:+ after := (List.suffix_cons _ _).trans h₃.suffix
  have hab : a <:+ b := (List.suffix_cons _ _).trans h₂.suffix
  have hlawTail := hlaw.suffix h₃.suffix
  have hlawHead := hlawTail.2.suffix h₂.suffix
  have heqHead := hlawHead.head hlane hp hhead
  have hmono := Cyclic.newest_mono (W.lanes hlane).depth hp
    (hlawTail.2.top_mono (s := s) (d := d) hab)
  have hmax : Cyclic.newest l.depth (topOf s d b) p ≤ u64Max :=
    Nat.le_trans (Cyclic.newest_le _ _ _) hlawTail.2.top_le_max
  have hguardNe : l.guardAt p ≠ l.slotAt p := by
    unfold Lane.guardAt
    omega
  refine ⟨a, b, head, h₁.suffix, hab, hb, hhead, ?_, fun h hsome => ?_, fun hnone => ?_⟩
  · exact h₂.noHead.trans ((NoHead.read (.inl hguardNe)).trans h₃.noHead)
  · unfold probeOf at hsome
    split at hsome
    · exact nomatch hsome
    rename_i hzero
    split at hsome
    · exact nomatch hsome
    rename_i hmatch
    obtain rfl := Option.some.inj hsome
    have heqTail := hlawTail.tail hlane hp htail (by omega)
    have hguard : ofLE tail = Ring.bitNot (ofLE head) := by simpa using hmatch
    rw [heqTail] at hguard
    unfold Ring.bitNot at hguard
    omega
  · unfold probeOf at hnone
    split at hnone
    · rename_i hzero
      exact .inl (heqHead.symm.trans hzero)
    rename_i hzero
    split at hnone
    · rename_i hmatch
      have heqTail := hlawTail.tail hlane hp htail (by omega)
      rw [heqTail, heqHead] at hmatch
      refine .inr (Nat.lt_of_le_of_ne hmono fun heq => ?_)
      rw [heq] at hmatch
      exact hmatch rfl
    · exact nomatch hnone

/-- What a copy tells: it shows the content of its slot at the moment it was made. -/
theorem Copied.truth {p : Nat} {before after : List Event} {image : Bytes}
    (h : Copied d l p before image after) (hlaw : Lawful W faults after)
    (hlane : W.lane s d = some l) (hp : p < l.depth) :
    ∃ a, before <:+ a ∧ a <:+ after ∧ Ring.frameOf l image = contentAt s d l a p := by
  obtain ⟨h₁, himage, h₂⟩ := h
  exact ⟨_, h₁.suffix, (List.suffix_cons _ _).trans h₂.suffix,
    (hlaw.suffix h₂.suffix).copy hlane hp himage⟩

omit [Libraries] in
theorem Copied.noHead {p disp : Nat} {before after : List Event} {image : Bytes}
    (h : Copied d l p before image after) (hslot : WORD < l.slot) :
    NoHead d disp before after := by
  obtain ⟨h₁, himage, h₂⟩ := h
  exact h₁.noHead.trans ((NoHead.read (.inr (by omega))).trans h₂.noHead)

theorem Lawful.content {log : List Event} {p : Nat} {f : Frame} (h : Lawful W faults log)
    (hf : contentAt s d l log p = some f) :
    0 < f.sequence ∧ f.sequence = Cyclic.newest l.depth (topOf s d log) p ∧
      payloadOf s d f.sequence log = some f.data := by
  have hsequence := sequenceOf_contentAt (s := s) (d := d) (l := l) log p
  rw [hf] at hsequence
  unfold contentAt at hf
  dsimp only at hf
  split at hf
  · exact nomatch hf
  · rename_i hne
    obtain rfl := Option.some.inj hf
    have hle := Cyclic.newest_le l.depth (topOf s d log) p
    obtain ⟨data, hdata⟩ := h.payload (s := s) (d := d) (Nat.pos_of_ne_zero hne) hle
    exact ⟨Nat.pos_of_ne_zero hne, rfl, by rw [hdata]; rfl⟩

/-- A frame copied out of a lane was in its slot at the moment of the copy. -/
structure Genuine (s d : Nat) (l : Lane) (f : Frame) (older : List Event) : Prop where
  positive : 0 < f.sequence
  top : f.sequence ≤ topOf s d older
  turn : topOf s d older < f.sequence + l.depth
  payload : payloadOf s d f.sequence older = some f.data

theorem CopyOf.genuine {before after : List Event} {f : Frame} (h : CopyOf d l before after f)
    (hlaw : Lawful W faults after) (hlane : W.lane s d = some l) :
    ∃ older, before <:+ older ∧ older <:+ after ∧ Genuine s d l f older := by
  obtain ⟨p, image, older, hp, hold, hread, himage, hframe⟩ := h
  have hlawRead := hlaw.suffix hread
  have hcopy := hlawRead.copy hlane hp himage
  rw [hframe] at hcopy
  obtain ⟨hpos, hnewest, hpayload⟩ := hlawRead.2.content hcopy.symm
  have hplace : p < topOf s d older := by
    by_contra hlt
    rw [Cyclic.newest_empty (by omega)] at hnewest
    omega
  obtain ⟨-, -, hturn⟩ := Cyclic.newest_written (W.lanes hlane).depth hp hplace
  have hle := Cyclic.newest_le l.depth (topOf s d older) p
  exact ⟨older, hold, (List.suffix_cons _ _).trans hread, hpos, by omega, by omega, hpayload⟩

end Reads

/-! ### Scans and drains -/

section Drains

variable {s d : Nat} {l : Lane}

/-- A scan that looked at a slot when `sequence` had landed collected it, or it has been
    overwritten since. -/
def ScanFound (s d : Nat) (l : Lane) (seen p : Nat) (before : List Event) (frames : List Frame)
    (after : List Event) : Prop :=
  ∃ a head, before <:+ a ∧ a <:+ after ∧ head.length = WORD ∧
    NoHead d (l.slotAt p) (.read d (l.slotAt p) head :: a) after ∧
    ∀ x, seen < x → Cyclic.cell l.depth x = p → x ≤ topOf s d a →
      (∃ f ∈ frames, f.sequence = x) ∨ x + l.depth ≤ topOf s d after

omit [Libraries] in
/-- The end of a look at a slot: what was put there before and is not there any more has
    been overwritten. -/
theorem overwritten {x p newest' : Nat} {log : List Event} (hdepth : 0 < l.depth) (h0 : 0 < x)
    (hcell : Cyclic.cell l.depth x = p)
    (hnewest : newest' ≤ Cyclic.newest l.depth (topOf s d log) p)
    (hlt : x < newest') (hp : p < l.depth) : x + l.depth ≤ topOf s d log := by
  have hplace : p < topOf s d log := by
    by_contra hle
    rw [Cyclic.newest_empty (by omega)] at hnewest
    omega
  obtain ⟨-, hcell', -⟩ := Cyclic.newest_written hdepth hp hplace
  have := Cyclic.turn_le h0 (hcell.trans hcell'.symm) (by omega)
  have hle := Cyclic.newest_le l.depth (topOf s d log) p
  omega

/-- A scan of other positions reads no head word of this one. -/
theorem Scanned.noHead {seen p : Nat} {positions : List Nat} {before after : List Event}
    {frames : List Frame} (h : Scanned d l seen positions before frames after)
    (hslot : WORD < l.slot) (hnot : p ∉ positions) : NoHead d (l.slotAt p) before after := by
  refine h.readsIn.noHead ?_
  rintro ⟨q, hq, hwords⟩
  have hne : p ≠ q := fun heq => hnot (heq ▸ hq)
  have hword : WORD = 8 := rfl
  unfold Lane.wordsAt Lane.guardAt at hwords
  rcases l.slot_apart hne with h | h <;> omega

theorem Scanned.found {seen : Nat} {positions : List Nat} {before after : List Event}
    {frames : List Frame} (h : Scanned d l seen positions before frames after)
    (hlaw : Lawful W faults after) (hlane : W.lane s d = some l)
    (hpos : ∀ p ∈ positions, p < l.depth) (hdistinct : positions.Nodup) :
    ∀ p ∈ positions, ScanFound s d l seen p before frames after := by
  have hdepth := (W.lanes hlane).depth
  have hslot : WORD < l.slot := by
    have := (W.lanes hlane).slot_ge
    omega
  induction h with
  | nil => exact nofun
  | @skip p rest before a after probed frames hprobe hlow hrest ih =>
    intro q hq
    obtain ⟨hnot, hdistinct'⟩ := List.nodup_cons.mp hdistinct
    rcases List.mem_cons.mp hq with rfl | hq
    · have hp := hpos q (by simp)
      have hafter := hrest.grows.1
      obtain ⟨m, m', head, htruth⟩ := hprobe.truth (hlaw.suffix hafter) hlane hp
      refine ⟨m, head, htruth.before_head,
        htruth.head_tail.trans (htruth.tail_after.trans hafter), htruth.length,
        htruth.noHead.trans (hrest.noHead hslot hnot), fun x hx hcell htop => ?_⟩
      have hthere : x ≤ Cyclic.newest l.depth (topOf s d m) q :=
        hcell ▸ Cyclic.le_newest hdepth (by omega) htop
      cases probed with
      | some found =>
        have := hlow found rfl
        obtain ⟨-, hfound, -⟩ := htruth.found found rfl
        omega
      | none =>
        right
        rcases htruth.missed rfl with hzero | hlt
        · omega
        · refine overwritten hdepth (by omega) hcell ?_ (Nat.lt_of_le_of_lt hthere hlt) hp
          exact Cyclic.newest_mono hdepth hp
            (hlaw.top_mono (htruth.tail_after.trans hafter))
    · obtain ⟨m, head, h₁, h₂, h₃, h₄, h₅⟩ :=
        ih hlaw (fun r hr => hpos r (by simp [hr])) hdistinct' q hq
      exact ⟨m, head, hprobe.grows.1.trans h₁, h₂, h₃, h₄, h₅⟩
  | @pass p found rest before a b after image frames hprobe hfound hcopy hlow hrest ih =>
    intro q hq
    obtain ⟨hnot, hdistinct'⟩ := List.nodup_cons.mp hdistinct
    rcases List.mem_cons.mp hq with rfl | hq
    · have hp := hpos q (by simp)
      have hafter := hcopy.grows.1.trans hrest.grows.1
      obtain ⟨m, m', head, htruth⟩ := hprobe.truth (hlaw.suffix hafter) hlane hp
      obtain ⟨c, hc, hc', hframe⟩ := hcopy.truth (hlaw.suffix hrest.grows.1) hlane hp
      refine ⟨m, head, htruth.before_head,
        htruth.head_tail.trans (htruth.tail_after.trans hafter), htruth.length,
        htruth.noHead.trans ((hcopy.noHead hslot).trans (hrest.noHead hslot hnot)),
        fun x hx hcell htop => ?_⟩
      -- the slot was full when it was probed, so the copy shows a frame above `seen`
      obtain ⟨hpositive, -, hnewest⟩ := htruth.found found rfl
      have hmono := Cyclic.newest_mono hdepth hp
        ((hlaw.suffix (hc'.trans hrest.grows.1)).top_mono (s := s) (d := d)
          (htruth.tail_after.trans hc))
      cases hcontent : contentAt s d l c q with
      | none =>
        have := sequenceOf_contentAt (s := s) (d := d) (l := l) c q
        rw [hcontent] at this
        simp only [Ring.sequenceOf, Option.map_none, Option.getD_none] at this
        omega
      | some frame =>
        obtain ⟨-, hsequence, -⟩ :=
          (hlaw.suffix (hc'.trans hrest.grows.1)).content hcontent
        have := hlow frame (hframe.trans hcontent)
        omega
    · obtain ⟨m, head, h₁, h₂, h₃, h₄, h₅⟩ :=
        ih hlaw (fun r hr => hpos r (by simp [hr])) hdistinct' q hq
      exact ⟨m, head, hprobe.grows.1.trans (hcopy.grows.1.trans h₁), h₂, h₃, h₄, h₅⟩
  | @take p found rest before a b after image frame frames hprobe hfound hcopy hframe hseen hrest
      ih =>
    intro q hq
    obtain ⟨hnot, hdistinct'⟩ := List.nodup_cons.mp hdistinct
    rcases List.mem_cons.mp hq with rfl | hq
    · have hp := hpos q (by simp)
      have hafter := hcopy.grows.1.trans hrest.grows.1
      obtain ⟨m, m', head, htruth⟩ := hprobe.truth (hlaw.suffix hafter) hlane hp
      obtain ⟨c, hc, hc', hcontent⟩ := hcopy.truth (hlaw.suffix hrest.grows.1) hlane hp
      refine ⟨m, head, htruth.before_head,
        htruth.head_tail.trans (htruth.tail_after.trans hafter), htruth.length,
        htruth.noHead.trans ((hcopy.noHead hslot).trans (hrest.noHead hslot hnot)),
        fun x hx hcell htop => ?_⟩
      have hlawCopy := hlaw.suffix (hc'.trans hrest.grows.1)
      rw [hframe] at hcontent
      obtain ⟨-, hsequence, -⟩ := hlawCopy.content hcontent.symm
      have hthere : x ≤ Cyclic.newest l.depth (topOf s d c) q := by
        refine hcell ▸ Cyclic.le_newest hdepth (by omega) ?_
        exact Nat.le_trans htop (hlawCopy.top_mono
          (htruth.head_tail.trans (htruth.tail_after.trans hc)))
      by_cases hsame : frame.sequence = x
      · exact .inl ⟨frame, by simp, hsame⟩
      · right
        refine overwritten hdepth (by omega) hcell ?_ (?_ : x < frame.sequence) hp
        · rw [hsequence]
          exact Cyclic.newest_mono hdepth hp (hlaw.top_mono (hc'.trans hrest.grows.1))
        · omega
    · obtain ⟨m, head, h₁, h₂, h₃, h₄, h₅⟩ :=
        ih hlaw (fun r hr => hpos r (by simp [hr])) hdistinct' q hq
      refine ⟨m, head, hprobe.grows.1.trans (hcopy.grows.1.trans h₁), h₂, h₃, h₄,
        fun x hx hcell htop => ?_⟩
      rcases h₅ x hx hcell htop with ⟨f, hf, h⟩ | h
      · exact .inl ⟨f, by simp [hf], h⟩
      · exact .inr h

end Drains

end MpiRma
