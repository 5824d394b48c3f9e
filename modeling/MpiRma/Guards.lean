/-
  MpiRma/Guards.lean
  ==================
  **What the mutexes guard.**  A step of one thread changes guarded data only under a mutex
  the thread holds, takes and drops mutexes only for itself, and touches the slot and
  counter windows only by a put and a fetch-and-add.
-/
import MpiRma.Discipline

namespace MpiRma

def Event.ofReturn : Event → Prop
  | .returned _ _ _ => True
  | _ => False

structure Framed (t : Nat) (c : RingCall) (w w' : World) : Prop where
  sent : ∀ s d, w.holder (.sent s d) ≠ some t → (w'.process s).sent d = (w.process s).sent d
  seen : ∀ d, w.holder (.seen d) ≠ some t → (w'.process d).seen = (w.process d).seen
  acked : ∀ d, w.holder (.acked d) ≠ some t → (w'.process d).acked = (w.process d).acked
  holder : ∀ m u, u ≠ t → (w'.holder m = some u ↔ w.holder m = some u)
  slots : (∀ dest disp image, c ≠ .put dest disp image) →
    ∀ i, (w'.process i).slots = (w.process i).slots
  acks : (∀ dest disp value, c ≠ .fetchAdd dest disp value) →
    ∀ i, (w'.process i).acks = (w.process i).acks
  full : c ≠ .addFull → ∀ i, (w'.process i).full = (w.process i).full
  log : w'.log = w.log ∨ ∃ e, ¬ e.ofReturn ∧ w'.log = e :: w.log

section Frames

variable {t : Nat} {c : RingCall} {w w' : World}

/-- A step that changes no rank's state and no mutex of others. -/
theorem Framed.of_process (hprocess : w'.process = w.process)
    (hholder : ∀ m u, u ≠ t → (w'.holder m = some u ↔ w.holder m = some u))
    (hlog : w'.log = w.log ∨ ∃ e, ¬ e.ofReturn ∧ w'.log = e :: w.log) : Framed t c w w' where
  sent s d _ := by rw [hprocess]
  seen d _ := by rw [hprocess]
  acked d _ := by rw [hprocess]
  holder := hholder
  slots _ i := by rw [hprocess]
  acks _ i := by rw [hprocess]
  full _ i := by rw [hprocess]
  log := hlog

/-- A step that changes statistics, a window, or the data of a mutex its thread holds. -/
theorem Framed.of_modify (r : Nat) (f : Process → Process)
    (hprocess : w'.process = (w.modify r f).process)
    (hholder : ∀ m u, u ≠ t → (w'.holder m = some u ↔ w.holder m = some u))
    (hsent : ∀ d, w.holder (.sent r d) ≠ some t →
      (f (w.process r)).sent d = (w.process r).sent d)
    (hseen : w.holder (.seen r) ≠ some t → (f (w.process r)).seen = (w.process r).seen)
    (hacked : w.holder (.acked r) ≠ some t → (f (w.process r)).acked = (w.process r).acked)
    (hslots : (∀ dest disp image, c ≠ .put dest disp image) →
      (f (w.process r)).slots = (w.process r).slots)
    (hacks : (∀ dest disp value, c ≠ .fetchAdd dest disp value) →
      (f (w.process r)).acks = (w.process r).acks)
    (hfull : c ≠ .addFull → (f (w.process r)).full = (w.process r).full)
    (hlog : w'.log = w.log ∨ ∃ e, ¬ e.ofReturn ∧ w'.log = e :: w.log) : Framed t c w w' := by
  have hother : ∀ i, i ≠ r → w'.process i = w.process i := by
    intro i hi
    rw [hprocess, World.modify_other hi]
  have hself : w'.process r = f (w.process r) := by
    rw [hprocess, World.modify_self]
  refine ⟨fun s d h => ?_, fun d h => ?_, fun d h => ?_, hholder, fun h i => ?_, fun h i => ?_,
    fun h i => ?_, hlog⟩
  · by_cases hs : s = r
    · subst hs
      rw [hself, hsent d h]
    · rw [hother s hs]
  · by_cases hd : d = r
    · subst hd
      rw [hself, hseen h]
    · rw [hother d hd]
  · by_cases hd : d = r
    · subst hd
      rw [hself, hacked h]
    · rw [hother d hd]
  · by_cases hi : i = r
    · subst hi
      rw [hself, hslots h]
    · rw [hother i hi]
  · by_cases hi : i = r
    · subst hi
      rw [hself, hacks h]
    · rw [hother i hi]
  · by_cases hi : i = r
    · subst hi
      rw [hself, hfull h]
    · rw [hother i hi]

theorem World.take_holder {m : Mutex} (hfree : w.holder m = none) (m' : Mutex) {u : Nat}
    (hu : u ≠ t) : (w.take t m).holder m' = some u ↔ w.holder m' = some u := by
  by_cases hm : m' = m
  · subst hm
    simp [World.take, hfree, Ne.symm hu]
  · simp [World.take, hm]

theorem World.drop_holder {m : Mutex} (hheld : w.holder m = some t) (poison : Bool) (m' : Mutex)
    {u : Nat} (hu : u ≠ t) : (w.drop m poison).holder m' = some u ↔ w.holder m' = some u := by
  by_cases hm : m' = m
  · subst hm
    simp [World.drop, hheld, Ne.symm hu]
  · simp [World.drop, hm]

theorem lock_framed {α : Type} {m : Mutex} {data : α} {answer : Option α}
    (h : w.lock t m data = some (answer, w')) : Framed t c w w' := by
  unfold World.lock at h
  split at h
  · rename_i hfree
    split at h
    · obtain ⟨-, rfl⟩ := Prod.mk.inj (Option.some.inj h)
      exact .of_process rfl (fun _ _ _ => Iff.rfl) (.inl rfl)
    · obtain ⟨-, rfl⟩ := Prod.mk.inj (Option.some.inj h)
      exact .of_process rfl (fun m' u hu => World.take_holder hfree m' hu) (.inl rfl)
  · contradiction

/-- **A command leaves alone what its thread does not hold.** -/
theorem exec_framed {n : Nat} {faults : Faults} {call : Call n} {ending : Ending}
    {answer : c.Answer} (h : World.exec faults t call c ending w = some (answer, w')) :
    Framed t c w w' := by
  have hsame : ∀ {w' : World}, w'.holder = w.holder →
      ∀ m u, u ≠ t → (w'.holder m = some u ↔ w.holder m = some u) := by
    intro w' hholder m u _
    rw [hholder]
  unfold World.exec at h
  cases c with
  | lockSent i => exact lock_framed h
  | lockAcked => exact lock_framed h
  | lockSeen =>
    dsimp only at h
    split at h
    · contradiction
    · rename_i x w₁ hlocked
      obtain ⟨-, rfl⟩ := Prod.mk.inj (Option.some.inj h)
      have hframed := lock_framed (c := .lockSeen) hlocked
      split
      · exact { hframed with log := .inr ⟨_, id, by rw [← World.lock_log hlocked]; rfl⟩ }
      · exact hframed
  | unlockSent i outgoing poison =>
    dsimp only at h
    split at h
    · rename_i hheld
      obtain ⟨-, rfl⟩ := Prod.mk.inj (Option.some.inj h)
      have hholder := World.drop_holder (w := w.modify call.rank fun p =>
        { p with sent := Function.update p.sent i outgoing }) hheld poison
      refine .of_modify call.rank
        (fun p => { p with sent := Function.update p.sent i outgoing }) rfl
        (fun m' u hu => hholder m' hu) (fun d hd => ?_) (fun _ => rfl)
        (fun _ => rfl) (fun _ => rfl) (fun _ => rfl) (fun _ => rfl) (.inl rfl)
      have hne : d ≠ i := by
        rintro rfl
        exact hd hheld
      exact Function.update_of_ne hne _ _
    · contradiction
  | unlockAcked acked poison =>
    dsimp only at h
    split at h
    · rename_i hheld
      obtain ⟨-, rfl⟩ := Prod.mk.inj (Option.some.inj h)
      have hholder := World.drop_holder (w := w.modify call.rank fun p => { p with acked := acked })
        hheld poison
      exact .of_modify call.rank (fun p => { p with acked := acked }) rfl
        (fun m' u hu => hholder m' hu) (fun _ _ => rfl) (fun _ => rfl)
        (fun hd => absurd hheld hd) (fun _ => rfl) (fun _ => rfl) (fun _ => rfl) (.inl rfl)
    · contradiction
  | unlockSeen seen poison polled =>
    dsimp only at h
    split at h
    · rename_i hheld
      obtain ⟨-, rfl⟩ := Prod.mk.inj (Option.some.inj h)
      have hholder := World.drop_holder (w := w.modify call.rank fun p => { p with seen := seen })
        hheld poison
      cases polled with
      | none =>
        exact .of_modify call.rank (fun p => { p with seen := seen }) rfl
          (fun m' u hu => hholder m' hu) (fun _ _ => rfl)
          (fun hd => absurd hheld hd) (fun _ => rfl) (fun _ => rfl) (fun _ => rfl) (fun _ => rfl)
          (.inl rfl)
      | some result =>
        exact .of_modify call.rank (fun p => { p with seen := seen }) rfl
          (fun m' u hu => hholder m' hu) (fun _ _ => rfl)
          (fun hd => absurd hheld hd) (fun _ => rfl) (fun _ => rfl) (fun _ => rfl) (fun _ => rfl)
          (.inr ⟨_, id, rfl⟩)
    · contradiction
  | readLocal disp len | readLocalVolatile disp len =>
    obtain ⟨-, rfl⟩ := Prod.mk.inj (Option.some.inj h)
    exact .of_process rfl (hsame rfl) (.inr ⟨_, id, rfl⟩)
  | readCounter disp =>
    obtain ⟨-, rfl⟩ := Prod.mk.inj (Option.some.inj h)
    exact .of_process rfl (hsame rfl) (.inl rfl)
  | put dest disp image =>
    have hland : ∀ data ok, Framed t (.put dest disp image) w
        (w.land call.rank dest.toNat disp image data ok) := fun data ok =>
      .of_modify dest.toNat (fun p => { p with slots := p.slots.write disp image }) rfl (hsame rfl)
        (fun _ _ => rfl) (fun _ => rfl) (fun _ => rfl)
        (fun h => absurd rfl (h dest disp image)) (fun _ => rfl) (fun _ => rfl) (.inr ⟨_, id, rfl⟩)
    dsimp only at h
    split at h
    · obtain ⟨-, rfl⟩ := Prod.mk.inj (Option.some.inj h)
      exact hland _ _
    · split at h
      · obtain ⟨-, rfl⟩ := Prod.mk.inj (Option.some.inj h)
        exact .of_process rfl (hsame rfl) (.inl rfl)
      · contradiction
    · split at h
      · obtain ⟨-, rfl⟩ := Prod.mk.inj (Option.some.inj h)
        exact hland _ _
      · contradiction
  | fetchAdd dest disp value =>
    have hadd : Framed t (.fetchAdd dest disp value) w (w.add dest.toNat disp value) :=
      .of_modify dest.toNat (fun p =>
        { p with acks := Function.update p.acks disp ((p.acks disp + value) % (u64Max + 1)) }) rfl
          (hsame rfl) (fun _ _ => rfl) (fun _ => rfl) (fun _ => rfl)
        (fun _ => rfl) (fun h => absurd rfl (h dest disp value)) (fun _ => rfl) (.inl rfl)
    dsimp only at h
    split at h
    · obtain ⟨-, rfl⟩ := Prod.mk.inj (Option.some.inj h)
      exact hadd
    · split at h
      · obtain ⟨-, rfl⟩ := Prod.mk.inj (Option.some.inj h)
        exact .of_process rfl (hsame rfl) (.inl rfl)
      · contradiction
    · split at h
      · obtain ⟨-, rfl⟩ := Prod.mk.inj (Option.some.inj h)
        exact hadd
      · contradiction
  | addLost count =>
    obtain ⟨-, rfl⟩ := Prod.mk.inj (Option.some.inj h)
    exact .of_modify call.rank (fun p => { p with lost := (p.lost + count) % (u64Max + 1) }) rfl
      (hsame rfl) (fun _ _ => rfl) (fun _ => rfl) (fun _ => rfl)
      (fun _ => rfl) (fun _ => rfl) (fun _ => rfl) (.inr ⟨_, id, rfl⟩)
  | addCorrupt =>
    obtain ⟨-, rfl⟩ := Prod.mk.inj (Option.some.inj h)
    exact .of_modify call.rank (fun p => { p with corrupt := (p.corrupt + 1) % (u64Max + 1) }) rfl
      (hsame rfl) (fun _ _ => rfl) (fun _ => rfl) (fun _ => rfl)
      (fun _ => rfl) (fun _ => rfl) (fun _ => rfl) (.inl rfl)
  | maxLag lag =>
    obtain ⟨-, rfl⟩ := Prod.mk.inj (Option.some.inj h)
    exact .of_modify call.rank (fun p => { p with maxLag := max p.maxLag lag }) rfl
      (hsame rfl) (fun _ _ => rfl) (fun _ => rfl) (fun _ => rfl)
      (fun _ => rfl) (fun _ => rfl) (fun _ => rfl) (.inl rfl)
  | addFull =>
    obtain ⟨-, rfl⟩ := Prod.mk.inj (Option.some.inj h)
    exact .of_modify call.rank (fun p => { p with full := (p.full + 1) % (u64Max + 1) }) rfl
      (hsame rfl) (fun _ _ => rfl) (fun _ => rfl) (fun _ => rfl)
      (fun _ => rfl) (fun _ => rfl) (fun h => absurd rfl h) (.inl rfl)

end Frames

end MpiRma
