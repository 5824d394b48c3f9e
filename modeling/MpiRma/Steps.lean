/-
  MpiRma/Steps.lean
  =================
  **Each step of a ring operation keeps the invariant.**  One lemma for each kind of step:
  counting a statistic, writing down a read or a return, taking and dropping a mutex,
  an image landing and a counter growing.  Each also keeps what the other threads rely on.
-/
import MpiRma.Discipline

namespace MpiRma

variable [Libraries] {n : Nat} {safe : Bool} {ring : Nat → Ring} {W : Wired n safe ring}
  {faults : Faults} {t : Nat} {w w' : World}

structure Preserved (W : Wired n safe ring) (faults : Faults) (t : Nat) (w w' : World) : Prop where
  inv : RingInv W faults w'
  others : ∀ u, u ≠ t → RingRely W u w w'

theorem Preserved.refl (h : RingInv W faults w) : Preserved W faults t w w :=
  ⟨h, fun u _ => RingRely.refl W u w⟩

theorem Preserved.trans {w'' : World} (h : Preserved W faults t w w')
    (h' : Preserved W faults t w' w'') : Preserved W faults t w w'' :=
  ⟨h'.inv, fun u hu => (h.others u hu).trans (h'.others u hu)⟩

/-! ### Statistics and events -/

structure Statistic (f : Process → Process) : Prop where
  sent : ∀ p, (f p).sent = p.sent
  seen : ∀ p, (f p).seen = p.seen
  acked : ∀ p, (f p).acked = p.acked
  slots : ∀ p, (f p).slots = p.slots
  acks : ∀ p, (f p).acks = p.acks

section Asides

variable {r : Nat} {f : Process → Process}

omit [Libraries] in
theorem Statistic.untouched (hf : Statistic f) {s d : Nat} {l : Lane}
    (hputs : SamePuts s d w.log w'.log) (hcursor : cursorOf s d w.log ≤ cursorOf s d w'.log)
    (hprocess : w'.process = (w.modify r f).process) (hholder : w'.holder = w.holder) :
    Untouched s d l w w' where
  puts := hputs
  cursor := hcursor
  slots p _ := by
    rw [hprocess, World.modify_keeps Process.slots hf.slots w r d]
  sent := by
    rw [hprocess]
    exact World.modify_keeps (fun p => p.sent d) (fun p => congrFun (hf.sent p) d) w r s
  counter := by
    rw [hprocess]
    exact World.modify_keeps (fun p => p.acks l.ack) (fun p => congrFun (hf.acks p) _) w r s
  acked := by
    rw [hprocess]
    exact World.modify_keeps Process.acked hf.acked w r d
  sentFree h := by rwa [hholder] at h
  ackedFree h := by rwa [hholder] at h

omit [Libraries] in
theorem Statistic.rely (hf : Statistic f) {u : Nat} (hlog : w.log <:+ w'.log)
    (hputs : ∀ s d, SamePuts s d w.log w'.log)
    (hprocess : w'.process = (w.modify r f).process) (hholder : w'.holder = w.holder)
    (hseen : ∀ d, w.holder (.seen d) = some u → Apart d w w') : RingRely W u w w' where
  log := hlog
  held m := by rw [hholder]
  sent s d _ := ⟨(hputs s d).sent, (hputs s d).top⟩
  seen := hseen
  acked d _ := by
    rw [hprocess]
    refine ⟨World.modify_keeps Process.acked hf.acked w r d, fun s l _ => ?_⟩
    exact World.modify_keeps (fun p => p.acks l.ack) (fun p => congrFun (hf.acks p) _) w r s
  counters s d l _ := by
    rw [hprocess]
    exact Nat.le_of_eq (World.modify_keeps (fun p => p.acks l.ack)
      (fun p => congrFun (hf.acks p) _) w r s).symm

/-- Counting a statistic.  `maxLag` is guarded by `seen`. -/
theorem RingInv.count (h : RingInv W faults w) (hf : Statistic f)
    (hlost : ∀ p, (f p).lost = p.lost)
    (hlag : (∀ p, (f p).maxLag = p.maxLag) ∨ w.holder (.seen r) = some t) :
    Preserved W faults t w (w.modify r f) where
  inv := by
    refine h.frame h.lawful h.clean (fun d _ => .inl ?_) fun s d l _ => .inl ?_
    · exact ⟨id, rfl, fun _ => rfl, rfl, World.modify_keeps Process.seen hf.seen w r d,
        World.modify_keeps Process.acked hf.acked w r d,
        World.modify_keeps Process.lost hlost w r d⟩
    · exact hf.untouched (SamePuts.refl s d _) (Nat.le_refl _) rfl rfl
  others u hu := by
    refine hf.rely (List.suffix_refl _) (fun s d => SamePuts.refl s d _) rfl rfl fun d hd => ?_
    refine ⟨Extends.refl _ _, World.modify_keeps Process.lost hlost w r d, ?_⟩
    rcases hlag with hlag | hheld
    · exact World.modify_keeps Process.maxLag hlag w r d
    · have hne : d ≠ r := by
        rintro rfl
        rw [hheld] at hd
        exact hu (Option.some.inj hd).symm
      rw [World.modify_other hne]

def Event.aside : Event → Prop
  | .read _ _ _ => True
  | .returned _ _ _ => True
  | .put _ _ _ _ _ _ _ => False
  | .polling _ => False
  | .lost _ _ => False
  | .polled _ _ => False

omit [Libraries] in
theorem Event.aside_same {e : Event} (h : e.aside) (s d : Nat) (log : List Event) :
    SamePuts s d log (e :: log) ∧ deliveredOf s d (e :: log) = deliveredOf s d log ∧
      pollOpen d (e :: log) = pollOpen d log ∧ lostSum d (e :: log) = lostSum d log := by
  cases e with
  | read | returned => exact ⟨SamePuts.cons (by simp) log, rfl, rfl, rfl⟩
  | _ => exact h.elim

/-- Writing down a read or a return. -/
theorem RingInv.note (h : RingInv W faults w) {e : Event} (haside : e.aside)
    (hok : EventOk W faults w.log e)
    (howned : ∀ d, e.owned d → w.holder (.seen d) = some t) :
    Preserved W faults t w (w.record e) where
  inv := by
    refine h.frame ⟨hok, h.lawful⟩ h.clean (fun d _ => .inl ?_) fun s d l _ => .inl ?_
    · obtain ⟨-, -, hopen, hlost⟩ := Event.aside_same haside 0 d w.log
      exact ⟨id, hopen, fun s => (Event.aside_same haside s d w.log).2.1, hlost, rfl, rfl, rfl⟩
    · obtain ⟨hputs, hdelivered, -, -⟩ := Event.aside_same haside s d w.log
      refine ⟨hputs, ?_, fun _ _ => rfl, rfl, rfl, rfl, id, id⟩
      show cursorOf s d w.log ≤ cursorOf s d (e :: w.log)
      rw [cursorOf, cursorOf, hdelivered]
  others u hu := by
    refine ⟨List.suffix_cons _ _, fun _ => Iff.rfl, fun s d _ => ?_, fun d hd => ?_,
      fun d _ => ⟨rfl, fun _ _ _ => rfl⟩, fun _ _ _ _ => Nat.le_refl _⟩
    · obtain ⟨hputs, -⟩ := Event.aside_same haside s d w.log
      exact ⟨hputs.sent, hputs.top⟩
    · refine ⟨⟨[e], rfl, fun x hx hown => ?_⟩, rfl, rfl⟩
      rw [List.mem_singleton.mp hx] at hown
      rw [howned d hown] at hd
      exact hu (Option.some.inj hd).symm

/-- Adding to `lost`. -/
theorem RingInv.addLost (h : RingInv W faults w) (count : Nat)
    (hheld : w.holder (.seen r) = some t) (hopen : pollOpen r w.log = true) :
    Preserved W faults t w ((w.modify r fun p =>
      { p with lost := (p.lost + count) % (u64Max + 1) }).record (.lost r count)) where
  inv := by
    have hf : Statistic fun p => { p with lost := (p.lost + count) % (u64Max + 1) } :=
      ⟨fun _ => rfl, fun _ => rfl, fun _ => rfl, fun _ => rfl, fun _ => rfl⟩
    refine h.frame ⟨hopen, h.lawful⟩ h.clean (fun d hd => ?_) fun s d l _ => .inl ?_
    · by_cases hdr : d = r
      · subst hdr
        right
        have hrank := h.rank d hd
        refine ⟨fun hfree => ?_, ?_, ?_, ?_⟩
        · have hfree : w.holder (.seen d) = none := hfree
          rw [hheld] at hfree
          exact nomatch hfree
        · rw [World.record, World.modify_self]
          exact hrank.seen
        · rw [World.record, World.modify_self]
          exact hrank.acked
        · rw [World.record, World.modify_self]
          have hsum : lostSum d (.lost d count :: w.log) = count + lostSum d w.log := by
            simp [lostSum]
          show (_ + count) % (u64Max + 1) ≡ lostSum d (.lost d count :: w.log) [MOD u64Max + 1]
          rw [hsum, Nat.add_comm count]
          exact (Nat.mod_modEq _ _).trans (hrank.lost.add_right count)
      · left
        refine ⟨id, rfl, fun _ => rfl, ?_, ?_, ?_, ?_⟩
        · exact lostSum_cons_of_not_owned (e := .lost r count) fun h => hdr h.symm
        all_goals
          rw [World.record, World.modify_other hdr]
    · exact hf.untouched (SamePuts.cons (by simp) _) (Nat.le_refl _) rfl rfl
  others u hu := by
    have hf : Statistic fun p => { p with lost := (p.lost + count) % (u64Max + 1) } :=
      ⟨fun _ => rfl, fun _ => rfl, fun _ => rfl, fun _ => rfl, fun _ => rfl⟩
    refine hf.rely (List.suffix_cons _ _) (fun s d => SamePuts.cons (by simp) _)
      rfl rfl fun d hd => ?_
    have hne : d ≠ r := by
      rintro rfl
      rw [hheld] at hd
      exact hu (Option.some.inj hd).symm
    refine ⟨⟨[.lost r count], rfl, fun x hx hown => ?_⟩, ?_, ?_⟩
    · rw [List.mem_singleton.mp hx] at hown
      exact hne (hown : r = d).symm
    all_goals
      rw [World.record, World.modify_other hne]

end Asides

/-! ### Mutexes -/

section Mutexes

variable {r : Nat}

/-- Taking a free mutex. -/
theorem RingInv.take (h : RingInv W faults w) {m : Mutex} (hfree : w.holder m = none) :
    Preserved W faults t w (w.take t m) := by
  have hstill : ∀ m', (w.take t m).holder m' = none → w.holder m' = none := by
    intro m' hm'
    by_cases hsame : m' = m
    · rw [hsame]
      exact hfree
    · simpa [World.take, hsame] using hm'
  refine ⟨h.frame h.lawful h.clean (fun d _ => .inl ?_) fun s d l _ => .inl ?_, fun u hu => ?_⟩
  · exact ⟨hstill _, rfl, fun _ => rfl, rfl, rfl, rfl, rfl⟩
  · exact ⟨SamePuts.refl s d _, Nat.le_refl _, fun _ _ => rfl, rfl, rfl, rfl, hstill _, hstill _⟩
  · refine ⟨List.suffix_refl _, fun m' => ?_, fun _ _ _ => ⟨rfl, rfl⟩, fun _ _ =>
      ⟨Extends.refl _ _, rfl, rfl⟩,
      fun _ _ => ⟨rfl, fun _ _ _ => rfl⟩, fun _ _ _ _ => Nat.le_refl _⟩
    by_cases hsame : m' = m
    · subst hsame
      simp [World.take, hfree, Ne.symm hu]
    · simp [World.take, hsame]

/-- A poll that took `seen` says so. -/
theorem RingInv.polling (h : RingInv W faults w) (hheld : w.holder (.seen r) = some t)
    (hclosed : pollOpen r w.log = false) : Preserved W faults t w (w.record (.polling r)) where
  inv := by
    refine h.frame ⟨hclosed, h.lawful⟩ h.clean (fun d hd => ?_) fun s d l _ => .inl ?_
    · by_cases hdr : r = d
      · subst hdr
        right
        refine { h.rank r hd with closed := fun hfree => ?_ }
        have hfree : w.holder (.seen r) = none := hfree
        rw [hheld] at hfree
        exact nomatch hfree
      · exact .inl ⟨id, if_neg hdr, fun _ => rfl, rfl, rfl, rfl, rfl⟩
    · exact ⟨SamePuts.cons (by simp) _, Nat.le_refl _, fun _ _ => rfl, rfl, rfl, rfl, id, id⟩
  others u hu := by
    refine ⟨List.suffix_cons _ _, fun _ => Iff.rfl, fun _ _ _ => ⟨rfl, rfl⟩, fun d hd => ?_,
      fun d _ => ⟨rfl, fun _ _ _ => rfl⟩, fun _ _ _ _ => Nat.le_refl _⟩
    refine ⟨⟨[.polling r], rfl, fun x hx hown => ?_⟩, rfl, rfl⟩
    rw [List.mem_singleton.mp hx] at hown
    rw [← (hown : r = d), hheld] at hd
    exact hu (Option.some.inj hd).symm

omit [Libraries] in
theorem World.drop_other (poison : Bool) {m m' : Mutex} (h : m' ≠ m) :
    (w.drop m poison).holder m' = w.holder m' := by
  simp [World.drop, h]

omit [Libraries] in
theorem World.drop_held (poison : Bool) {m m' : Mutex} {u : Nat} (hheld : w.holder m = some t)
    (hu : u ≠ t) : (w.drop m poison).holder m' = some u ↔ w.holder m' = some u := by
  by_cases h : m' = m
  · subst h
    simp [World.drop, hheld, Ne.symm hu]
  · rw [World.drop_other _ h]

omit [Libraries] in
theorem World.drop_clean (h : ∀ m, w.poisoned m = false) (m m' : Mutex) :
    (w.drop m false).poisoned m' = false := by
  by_cases hm : m' = m
  · subst hm
    simp [World.drop, h]
  · simp [World.drop, hm, h]

/-- Storing the sender state of a lane and dropping its mutex. -/
theorem RingInv.unlockSent (h : RingInv W faults w) {i : Nat} {l : Lane} {outgoing : Outgoing}
    (hlane : W.lane r i = some l) (hheld : w.holder (.sent r i) = some t)
    (hagrees : Agrees safe r i l outgoing w) :
    Preserved W faults t w ((w.modify r fun p =>
      { p with sent := Function.update p.sent i outgoing }).drop (.sent r i) false) := by
  set f : Process → Process := fun p => { p with sent := Function.update p.sent i outgoing } with hf
  have hsame : ∀ {α : Type} (g : Process → α), (∀ p, g (f p) = g p) → ∀ j,
      g (((w.modify r f).drop (.sent r i) false).process j) = g (w.process j) :=
    fun g hg j => World.modify_keeps g hg w r j
  refine ⟨h.frame h.lawful (World.drop_clean h.clean _) (fun d hd => .inl ?_)
    fun s d l' hl' => ?_, fun u hu => ?_⟩
  · exact ⟨fun hfree => by rwa [World.drop_other _ (by simp)] at hfree, rfl, fun _ => rfl, rfl,
      hsame Process.seen (fun _ => rfl) d, hsame Process.acked (fun _ => rfl) d,
      hsame Process.lost (fun _ => rfl) d⟩
  · by_cases hown : s = r ∧ d = i
    · obtain ⟨rfl, rfl⟩ := hown
      obtain rfl : l = l' := Option.some.inj (hlane.symm.trans hl')
      have hold := h.lane s d l hlane
      have hcounter : (((w.modify s f).drop (.sent s d) false).process s).acks l.ack =
          (w.process s).acks l.ack := hsame (fun p => p.acks l.ack) (fun _ => rfl) s
      right
      refine ⟨fun p hp => ?_, fun _ => ?_, fun hsafe => ?_, fun hsafe hadds hfree => ?_⟩
      · rw [hsame Process.slots (fun _ => rfl) d]
        exact hold.slots p hp
      · have hstored : (((w.modify s f).drop (.sent s d) false).process s).sent d = outgoing := by
          show ((w.modify s f).process s).sent d = outgoing
          rw [World.modify_self, hf]
          exact Function.update_self ..
        rw [hstored]
        exact hagrees.keep rfl rfl (Nat.le_of_eq hcounter.symm)
      · rw [hcounter]
        exact hold.counter hsafe
      · rw [hcounter, hsame Process.acked (fun _ => rfl) d]
        rw [World.drop_other _ (by simp)] at hfree
        exact hold.mirror hsafe hadds hfree
    · left
      have hmutex : Mutex.sent s d ≠ .sent r i := by
        simpa using hown
      refine ⟨SamePuts.refl s d _, Nat.le_refl _, fun p hp => ?_, ?_, ?_, ?_, fun hfree => ?_,
        fun hfree => ?_⟩
      · rw [hsame Process.slots (fun _ => rfl) d]
      · show ((w.modify r f).process s).sent d = _
        by_cases hs : s = r
        · subst hs
          have hd : d ≠ i := fun hd => hown ⟨rfl, hd⟩
          rw [World.modify_self, hf]
          exact Function.update_of_ne hd ..
        · rw [World.modify_other hs]
      · exact hsame (fun p => p.acks l'.ack) (fun _ => rfl) s
      · exact hsame Process.acked (fun _ => rfl) d
      · rwa [World.drop_other _ hmutex] at hfree
      · rwa [World.drop_other _ (by simp)] at hfree
  · refine ⟨List.suffix_refl _, fun m => World.drop_held false hheld hu, fun _ _ _ => ⟨rfl, rfl⟩,
      fun d _ => ⟨Extends.refl _ _, hsame Process.lost (fun _ => rfl) d,
        hsame Process.maxLag (fun _ => rfl) d⟩, fun d _ => ?_, fun s d l' _ => ?_⟩
    · exact ⟨hsame Process.acked (fun _ => rfl) d,
        fun s l' _ => hsame (fun p => p.acks l'.ack) (fun _ => rfl) s⟩
    · exact Nat.le_of_eq (hsame (fun p => p.acks l'.ack) (fun _ => rfl) s).symm

/-- Storing the acknowledgement mirror and dropping its mutex. -/
theorem RingInv.unlockAcked (h : RingInv W faults w) {acked : List Nat}
    (hheld : w.holder (.acked r) = some t) (hlength : acked.length = n)
    (hmirror : safe = true → faults.adds = false → ∀ s l, W.lane s r = some l →
      acked[s]? = some ((w.process s).acks l.ack)) :
    Preserved W faults t w ((w.modify r fun p => { p with acked := acked }).drop
      (.acked r) false) := by
  set f : Process → Process := fun p => { p with acked := acked } with hf
  have hsame : ∀ {α : Type} (g : Process → α), (∀ p, g (f p) = g p) → ∀ j,
      g (((w.modify r f).drop (.acked r) false).process j) = g (w.process j) :=
    fun g hg j => World.modify_keeps g hg w r j
  have hother : ∀ d, d ≠ r → (((w.modify r f).drop (.acked r) false).process d).acked =
      (w.process d).acked := by
    intro d hd
    show ((w.modify r f).process d).acked = _
    rw [World.modify_other hd]
  have hstored : (((w.modify r f).drop (.acked r) false).process r).acked = acked := by
    show ((w.modify r f).process r).acked = acked
    rw [World.modify_self]
  refine ⟨h.frame h.lawful (World.drop_clean h.clean _) (fun d hd => .inr ?_)
    fun s d l hl => .inr ?_, fun u hu => ?_⟩
  · have hold := h.rank d hd
    refine ⟨fun hfree => ?_, ?_, ?_, ?_⟩
    · rw [World.drop_other _ (by simp)] at hfree
      exact hold.closed hfree
    · rw [hsame Process.seen (fun _ => rfl) d]
      exact hold.seen
    · by_cases hd : d = r
      · rw [hd, hstored, hlength]
      · rw [hother d hd]
        exact hold.acked
    · rw [hsame Process.lost (fun _ => rfl) d]
      exact hold.lost
  · have hold := h.lane s d l hl
    have hcounter : (((w.modify r f).drop (.acked r) false).process s).acks l.ack =
        (w.process s).acks l.ack := hsame (fun p => p.acks l.ack) (fun _ => rfl) s
    refine ⟨fun p hp => ?_, fun hfree => ?_, fun hsafe => ?_, fun hsafe hadds hfree => ?_⟩
    · rw [hsame Process.slots (fun _ => rfl) d]
      exact hold.slots p hp
    · rw [World.drop_other _ (by simp)] at hfree
      rw [hsame (fun p => p.sent d) (fun _ => rfl) s]
      exact (hold.sent hfree).keep rfl rfl (Nat.le_of_eq hcounter.symm)
    · rw [hcounter]
      exact hold.counter hsafe
    · rw [hcounter]
      by_cases hd : d = r
      · subst hd
        rw [hstored]
        exact hmirror hsafe hadds s l hl
      · rw [hother d hd]
        rw [World.drop_other _ (by simpa using hd)] at hfree
        exact hold.mirror hsafe hadds hfree
  · refine ⟨List.suffix_refl _, fun m => World.drop_held false hheld hu, fun _ _ _ => ⟨rfl, rfl⟩,
      fun d _ => ⟨Extends.refl _ _, hsame Process.lost (fun _ => rfl) d,
        hsame Process.maxLag (fun _ => rfl) d⟩, fun d hd => ⟨hother d ?_, fun s l _ => ?_⟩,
      fun s d l _ => ?_⟩
    · rintro rfl
      rw [hheld] at hd
      exact hu (Option.some.inj hd).symm
    · exact hsame (fun p => p.acks l.ack) (fun _ => rfl) s
    · exact Nat.le_of_eq (hsame (fun p => p.acks l.ack) (fun _ => rfl) s).symm

/-- Dropping `seen` without a poll. -/
theorem RingInv.dropSeen (h : RingInv W faults w) (hheld : w.holder (.seen r) = some t)
    (hclosed : pollOpen r w.log = false) : Preserved W faults t w (w.drop (.seen r) false) := by
  refine ⟨h.frame h.lawful (World.drop_clean h.clean _) (fun d hd => .inr ?_)
    fun s d l hl => .inl ?_, fun u hu => ?_⟩
  · refine { h.rank d hd with closed := fun hfree => ?_ }
    by_cases hd : d = r
    · rw [hd]
      exact hclosed
    · rw [World.drop_other _ (by simpa using hd)] at hfree
      exact (h.rank d ‹_›).closed hfree
  · refine ⟨SamePuts.refl s d _, Nat.le_refl _, fun _ _ => rfl, rfl, rfl, rfl, fun hfree => ?_,
      fun hfree => ?_⟩
    · rwa [World.drop_other _ (by simp)] at hfree
    · rwa [World.drop_other _ (by simp)] at hfree
  · exact ⟨List.suffix_refl _, fun m => World.drop_held false hheld hu, fun _ _ _ => ⟨rfl, rfl⟩,
      fun d _ => ⟨Extends.refl _ _, rfl, rfl⟩, fun d _ => ⟨rfl, fun _ _ _ => rfl⟩,
      fun s d l' _ => Nat.le_refl _⟩

/-- The end of a poll: the cursors are stored, `seen` dropped and the result written down. -/
theorem RingInv.polled (h : RingInv W faults w) {seen : List Nat} {messages : List Message}
    (hheld : w.holder (.seen r) = some t) (hok : PolledOk W w.log r (.ok messages))
    (hseen : seen = seenOf n r (.polled r (.ok messages) :: w.log)) :
    Preserved W faults t w (((w.modify r fun p => { p with seen := seen }).drop
      (.seen r) false).record (.polled r (.ok messages))) := by
  set f : Process → Process := fun p => { p with seen := seen } with hf
  set w' := ((w.modify r f).drop (.seen r) false).record (.polled r (.ok messages)) with hw'
  have hlawful : Lawful W faults w'.log := ⟨hok, h.lawful⟩
  have hsame : ∀ {α : Type} (g : Process → α), (∀ p, g (f p) = g p) → ∀ j,
      g (w'.process j) = g (w.process j) := fun g hg j => World.modify_keeps g hg w r j
  have hother : ∀ {m}, m ≠ .seen r → w'.holder m = w.holder m := fun hm =>
    World.drop_other (w := w.modify r f) false hm
  refine ⟨h.frame hlawful (World.drop_clean h.clean _) (fun d hd => ?_)
    fun s d l hl => .inl ?_, fun u hu => ?_⟩
  · by_cases hdr : d = r
    · right
      subst hdr
      have hold := h.rank d hd
      refine ⟨fun _ => if_pos rfl, ?_, ?_, ?_⟩
      · show ((w.modify d f).process d).seen = _
        rw [World.modify_self]
        exact hseen
      · rw [hsame Process.acked (fun _ => rfl) d]
        exact hold.acked
      · rw [hsame Process.lost (fun _ => rfl) d]
        exact hold.lost
    · left
      have hrd : ¬ r = d := fun h => hdr h.symm
      refine ⟨fun hfree => ?_, if_neg hrd, fun s => if_neg hrd, rfl, ?_,
        hsame Process.acked (fun _ => rfl) d, hsame Process.lost (fun _ => rfl) d⟩
      · rwa [hother (by simpa using hdr)] at hfree
      · show ((w.modify r f).process d).seen = _
        rw [World.modify_other hdr]
  · refine ⟨SamePuts.cons (by simp) _, hlawful.cursor_step hl, fun p _ => ?_,
      hsame (fun p => p.sent d) (fun _ => rfl) s, hsame (fun p => p.acks l.ack) (fun _ => rfl) s,
      hsame Process.acked (fun _ => rfl) d, fun hfree => ?_, fun hfree => ?_⟩
    · rw [hsame Process.slots (fun _ => rfl) d]
    · rwa [hother (by simp)] at hfree
    · rwa [hother (by simp)] at hfree
  · refine ⟨List.suffix_cons _ _, fun m => World.drop_held false hheld hu,
      fun s d _ => ⟨rfl, rfl⟩, fun d hd => ?_, fun d _ => ⟨hsame Process.acked (fun _ => rfl) d,
        fun s l _ => hsame (fun p => p.acks l.ack) (fun _ => rfl) s⟩,
      fun s d l _ => Nat.le_of_eq (hsame (fun p => p.acks l.ack) (fun _ => rfl) s).symm⟩
    refine ⟨⟨[.polled r (.ok messages)], rfl, fun x hx hown => ?_⟩,
      hsame Process.lost (fun _ => rfl) d, hsame Process.maxLag (fun _ => rfl) d⟩
    rw [List.mem_singleton.mp hx] at hown
    rw [← (hown : r = d), hheld] at hd
    exact hu (Option.some.inj hd).symm

end Mutexes

/-! ### Remote operations -/

section Remote

variable {s d : Nat} {l : Lane}

/-- What the slots of a lane hold after a put. -/
theorem PutOk.content {log : List Event} {q : Nat} {data : Bytes} {ok : Bool} {disp len : Nat}
    (hput : PutOk W faults log s d q data ok l) (h : Lawful W faults log) {p : Nat}
    (hp : p < l.depth) :
    contentAt s d l (.put s d q data ok disp len :: log) p =
      if p = l.position q then some ⟨q, data⟩ else contentAt s d l log p := by
  have hdepth := (W.lanes hput.lane).depth
  have hnext := hput.next
  have htop : topOf s d (.put s d q data ok disp len :: log) = q := if_pos ⟨rfl, rfl⟩
  have hsent := h.top_sent (s := s) (d := d)
  have hnew : payloadOf s d q (.put s d q data ok disp len :: log) = some data :=
    if_pos ⟨rfl, rfl, rfl⟩
  by_cases hplace : p = l.position q
  · have hnewest : Cyclic.newest l.depth q p = q :=
      hplace ▸ Cyclic.newest_eq hdepth (by omega) (Nat.le_refl _) (by omega)
    rw [if_pos hplace, contentAt, htop, hnewest, if_neg (by omega), hnew]
    rfl
  · -- the newest sequence of another slot is as it was, and not the one of this put
    have hnewest : Cyclic.newest l.depth q p = Cyclic.newest l.depth (topOf s d log) p := by
      have hcases : topOf s d log = q ∨ q = topOf s d log + 1 := by omega
      rcases hcases with hsame | hsucc
      · rw [hsame]
      · rw [hsucc, Cyclic.newest_succ hdepth hp]
        refine if_neg fun hcell => hplace ?_
        rw [hsucc]
        exact hcell.symm
    rw [if_neg hplace, contentAt, contentAt, htop, hnewest]
    split
    · rfl
    · rename_i hwritten
      have hne : q ≠ Cyclic.newest l.depth (topOf s d log) p := by
        intro heq
        apply hplace
        have hlt : p < topOf s d log := by
          by_contra hle
          exact hwritten (Cyclic.newest_empty (by omega))
        rw [heq]
        exact (Cyclic.newest_written hdepth hp hlt).2.1.symm
      have hold : payloadOf s d (Cyclic.newest l.depth (topOf s d log) p)
          (.put s d q data ok disp len :: log) =
          payloadOf s d (Cyclic.newest l.depth (topOf s d log) p) log :=
        if_neg fun hcond => hne hcond.2.2
      rw [hold]

omit [Libraries] in
theorem World.land_acks (w : World) (source dest disp : Nat) (image data : Bytes) (ok : Bool)
    (i : Nat) : ((w.land source dest disp image data ok).process i).acks = (w.process i).acks := by
  by_cases hi : i = dest
  · subst hi
    simp [World.land, World.record, World.modify]
  · simp [World.land, World.record, World.modify, hi]

theorem World.land_log (w : World) (source dest disp : Nat) {image data : Bytes} {q : Nat}
    (himage : Ring.Says l image (some ⟨q, data⟩)) (ok : Bool) :
    (w.land source dest disp image data ok).log =
    .put source dest q data ok disp l.slot :: w.log := by
  have hhead : ofLE (image.take WORD) = q := himage.head
  rw [World.land, World.record, hhead, himage.length]
  rfl

/-- An image landing in its slot. -/
theorem RingInv.land (h : RingInv W faults w) {q : Nat} {image data : Bytes} {ok : Bool}
    (hput : PutOk W faults w.log s d q data ok l) (hheld : w.holder (.sent s d) = some t)
    (himage : Ring.Says l image (some ⟨q, data⟩)) :
    Preserved W faults t w (w.land s d (l.slotAt (l.position q)) image data ok) := by
  have hlane := hput.lane
  have hpos := (W.lanes hlane).position_lt q
  set f : Process → Process := fun p =>
    { p with slots := p.slots.write (l.slotAt (l.position q)) image } with hf
  set w' := w.land s d (l.slotAt (l.position q)) image data ok with hw'
  have hlog : w'.log = .put s d q data ok (l.slotAt (l.position q)) l.slot :: w.log :=
    World.land_log _ _ _ _ himage ok
  have hsame : ∀ {α : Type} (g : Process → α), (∀ p, g (f p) = g p) → ∀ j,
      g (w'.process j) = g (w.process j) := fun g hg j => World.modify_keeps g hg w d j
  have hotherSlots : ∀ d', d' ≠ d → w'.process d' = w.process d' := fun d' hd' =>
    World.modify_other (f := f) hd'
  have hslots : (w'.process d).slots = (w.process d).slots.write
    (l.slotAt (l.position q)) image := by
    show ((w.modify d f).process d).slots = _
    rw [World.modify_self]
  have hputs : ∀ s' d', ¬ (s' = s ∧ d' = d) → SamePuts s' d' w.log w'.log := by
    intro s' d' hne
    rw [hlog]
    refine SamePuts.cons (fun q' data' ok' disp' len' heq => hne ?_) _
    injection heq with hs hd
    exact ⟨hs.symm, hd.symm⟩
  have hcursor : ∀ s' d', cursorOf s' d' w'.log = cursorOf s' d' w.log := by
    intro s' d'
    rw [hlog]
    rfl
  have hlawful : Lawful W faults w'.log := by
    rw [hlog]
    exact ⟨⟨l, hput, rfl, rfl⟩, h.lawful⟩
  refine ⟨h.frame hlawful h.clean (fun d' _ => .inl ?_) fun s' d' l' hl' => ?_, fun u hu => ?_⟩
  · refine ⟨id, ?_, fun s' => ?_, ?_, hsame Process.seen (fun _ => rfl) d',
      hsame Process.acked (fun _ => rfl) d', hsame Process.lost (fun _ => rfl) d'⟩
    all_goals
      rw [hlog]
      rfl
  · by_cases hown : s' = s ∧ d' = d
    · obtain ⟨rfl, rfl⟩ := hown
      obtain rfl : l = l' := Option.some.inj (hlane.symm.trans hl')
      have hold := h.lane s' d' l hlane
      right
      refine ⟨fun p hp => ?_, fun hfree => ?_, fun hsafe => ?_, fun hsafe hadds hfree => ?_⟩
      · rw [hslots, hlog, hput.content h.lawful hp]
        by_cases hplace : p = l.position q
        · rw [if_pos hplace, hplace]
          have hself := Memory.read_write_self (w.process d').slots (l.slotAt (l.position q)) image
          rw [himage.length] at hself
          rw [hself]
          exact himage
        · rw [if_neg hplace, Memory.read_write_disjoint]
          · exact hold.slots p hp
          · rw [himage.length]
            exact l.slot_apart hplace
      · have hfree : w.holder (.sent s' d') = none := hfree
        rw [hheld] at hfree
        exact nomatch hfree
      · rw [hcursor, hsame (fun p => p.acks l.ack) (fun _ => rfl) s']
        exact hold.counter hsafe
      · rw [hsame Process.acked (fun _ => rfl) d', hsame (fun p => p.acks l.ack) (fun _ => rfl) s']
        exact hold.mirror hsafe hadds hfree
    · left
      refine ⟨hputs s' d' hown, Nat.le_of_eq (hcursor s' d').symm, fun p hp => ?_,
        hsame (fun p => p.sent d') (fun _ => rfl) s',
        hsame (fun p => p.acks l'.ack) (fun _ => rfl) s',
        hsame Process.acked (fun _ => rfl) d', id, id⟩
      by_cases hd : d' = d
      · subst hd
        have hs : s ≠ s' := fun hs => hown ⟨hs.symm, rfl⟩
        have happart := W.apart hlane hl' hs
        have hin := l.slot_inside hpos
        have hin' := l'.slot_inside hp
        have hge : l.offset ≤ l.slotAt (l.position q) := Nat.le_add_right _ _
        have hge' : l'.offset ≤ l'.slotAt p := Nat.le_add_right _ _
        rw [hslots, Memory.read_write_disjoint]
        rw [himage.length]
        omega
      · rw [hotherSlots d' hd]
  · refine ⟨hlog ▸ List.suffix_cons _ _, fun _ => Iff.rfl, fun s' d' hm => ?_, fun d' hm => ?_,
      fun d' _ => ⟨hsame Process.acked (fun _ => rfl) d',
        fun s' l' _ => hsame (fun p => p.acks l'.ack) (fun _ => rfl) s'⟩,
      fun s' d' l' _ => Nat.le_of_eq (hsame (fun p => p.acks l'.ack) (fun _ => rfl) s').symm⟩
    · have hne : ¬ (s' = s ∧ d' = d) := by
        rintro ⟨rfl, rfl⟩
        rw [hheld] at hm
        exact hu (Option.some.inj hm).symm
      exact ⟨(hputs s' d' hne).sent, (hputs s' d' hne).top⟩
    · refine ⟨⟨[.put s d q data ok (l.slotAt (l.position q)) l.slot], hlog, fun x hx hown => ?_⟩,
        hsame Process.lost (fun _ => rfl) d', hsame Process.maxLag (fun _ => rfl) d'⟩
      rw [List.mem_singleton.mp hx] at hown
      exact hown

omit [Libraries] in
theorem World.add_acked (w : World) (dest disp value i : Nat) :
    ((w.add dest disp value).process i).acked = (w.process i).acked := by
  by_cases hi : i = dest
  · subst hi
    simp [World.add, World.modify]
  · simp [World.add, World.modify, hi]

/-- A counter growing by what a poll has returned. -/
theorem RingInv.add (h : RingInv W faults w) (hlane : W.lane s d = some l) (value : Nat)
    (hheld : w.holder (.acked d) = some t)
    (hroom : (w.process s).acks l.ack + value ≤ cursorOf s d w.log) :
    Preserved W faults t w (w.add s l.ack value) ∧
      ((w.add s l.ack value).process s).acks l.ack = (w.process s).acks l.ack + value ∧
      ∀ s' d' l', W.lane s' d' = some l' → ¬ (s' = s ∧ d' = d) →
        ((w.add s l.ack value).process s').acks l'.ack = (w.process s').acks l'.ack := by
  have hmax : cursorOf s d w.log ≤ u64Max :=
    Nat.le_trans (h.lawful.cursor_le_top hlane) h.lawful.top_le_max
  set f : Process → Process := fun p =>
    { p with acks := Function.update p.acks l.ack ((p.acks l.ack + value) % (u64Max + 1)) } with hf
  set w' := w.add s l.ack value with hw'
  have hsame : ∀ {α : Type} (g : Process → α), (∀ p, g (f p) = g p) → ∀ j,
      g (w'.process j) = g (w.process j) := fun g hg j => World.modify_keeps g hg w s j
  have hself : (w'.process s).acks l.ack = (w.process s).acks l.ack + value := by
    show ((w.modify s f).process s).acks l.ack = _
    rw [World.modify_self, hf]
    simp only [Function.update_self]
    exact Nat.mod_eq_of_lt (by omega)
  have hother : ∀ s' d' l', W.lane s' d' = some l' → ¬ (s' = s ∧ d' = d) →
      (w'.process s').acks l'.ack = (w.process s').acks l'.ack := by
    intro s' d' l' hl' hne
    show ((w.modify s f).process s').acks l'.ack = _
    by_cases hs : s' = s
    · subst hs
      have hd : d' ≠ d := fun hd => hne ⟨rfl, hd⟩
      rw [World.modify_self, hf]
      exact Function.update_of_ne (W.ackApart hl' hlane hd) ..
    · rw [World.modify_other hs]
  refine ⟨⟨h.frame h.lawful h.clean (fun d' _ => .inl ?_) fun s' d' l' hl' => ?_,
    fun u hu => ?_⟩, hself, hother⟩
  · exact ⟨id, rfl, fun _ => rfl, rfl, hsame Process.seen (fun _ => rfl) d',
      hsame Process.acked (fun _ => rfl) d', hsame Process.lost (fun _ => rfl) d'⟩
  · by_cases hown : s' = s ∧ d' = d
    · obtain ⟨rfl, rfl⟩ := hown
      obtain rfl : l = l' := Option.some.inj (hlane.symm.trans hl')
      have hold := h.lane s' d' l hlane
      right
      refine ⟨fun p hp => ?_, fun hfree => ?_, fun hsafe => ?_, fun hsafe hadds hfree => ?_⟩
      · rw [hsame Process.slots (fun _ => rfl) d']
        exact hold.slots p hp
      · rw [hsame (fun p => p.sent d') (fun _ => rfl) s']
        exact (hold.sent hfree).keep rfl rfl (by rw [hself]; exact Nat.le_add_right _ _)
      · rw [hself]
        exact hroom
      · have hfree : w.holder (.acked d') = none := hfree
        rw [hheld] at hfree
        exact nomatch hfree
    · left
      refine ⟨SamePuts.refl s' d' _, Nat.le_refl _, fun p _ => ?_,
        hsame (fun p => p.sent d') (fun _ => rfl) s', hother s' d' l' hl' hown,
        hsame Process.acked (fun _ => rfl) d', id, id⟩
      rw [hsame Process.slots (fun _ => rfl) d']
  · refine ⟨List.suffix_refl _, fun _ => Iff.rfl, fun _ _ _ => ⟨rfl, rfl⟩,
      fun d' _ => ⟨Extends.refl _ _, hsame Process.lost (fun _ => rfl) d',
        hsame Process.maxLag (fun _ => rfl) d'⟩,
      fun d' hm => ⟨hsame Process.acked (fun _ => rfl) d', fun s' l' hl' => ?_⟩,
      fun s' d' l' hl' => ?_⟩
    · refine hother s' d' l' hl' ?_
      rintro ⟨rfl, rfl⟩
      rw [hheld] at hm
      exact hu (Option.some.inj hm).symm
    · by_cases hown : s' = s ∧ d' = d
      · obtain ⟨rfl, rfl⟩ := hown
        obtain rfl : l = l' := Option.some.inj (hlane.symm.trans hl')
        rw [hself]
        exact Nat.le_add_right _ _
      · exact Nat.le_of_eq (hother s' d' l' hl' hown).symm

end Remote

end MpiRma
