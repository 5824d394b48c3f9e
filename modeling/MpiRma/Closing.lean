/-
  MpiRma/Closing.lean
  ===================
  **The life of a ring's windows.**  `Ring::close` closes the two windows of a ring one
  after the other and reports the first error; dropping a ring runs the same steps and
  reports nothing.  Whatever MPI answers, each window a rank is given is brought back
  through the epoch: on every early exit of the construction, and by closing or dropping
  the ring it ended in.  Every window is followed by its handle.
-/
import MpiRma.Typestate
import MpiRma.Wiring

namespace MpiRma

open Construct

/-! ### Closing and dropping -/

namespace Window

/-- `Window::finish` on a window whose `closed` flag is the guarded data. -/
def finishes (window : Window) : Code MpiCall MpiCall.Answer Bool Error Unit := do
  let closed ← Code.get
  if closed then
    pure ()
  else
    let unlocked ← Code.perform (MpiCall.winUnlockAll window.win)
    Code.lift (check unlocked)
    let freed ← Code.perform (MpiCall.winFree window.win)
    Code.lift (check freed)
    Code.set true

/-- `Window::close`.  The window it consumes is dropped at its end, and the destructor
    finishes a window that is not closed. -/
def close (window : Window) : Construct Unit := fun v =>
  (window.finishes false).bind fun
    | (result, closed) =>
      let closed := closed || result.toOption.isNone
      (window.finishes closed).bind fun _ => .ret (result, v)

/-- The destructor of a window that was not closed. -/
def drop (window : Window) : Construct Unit := fun v =>
  (window.finishes false).bind fun _ => .ret (.ok (), v)

end Window

/-- `Result::and`. -/
def resultAnd {ε α β : Type} : Except ε α → Except ε β → Except ε β
  | .ok _, b => b
  | .error e, _ => .error e

namespace Ring

/-- `self.acks.map_or(Ok(()), Window::close)`. -/
def closeAcks (R : Ring) : Construct Unit :=
  match R.acks with
  | some acks => acks.close
  | none => pure ()

/-- `Ring::close`. -/
def close (R : Ring) : Construct Unit := fun v =>
  (R.slots.close v).bind fun slots =>
    (R.closeAcks v).bind fun acks => .ret (resultAnd slots.1 acks.1, v)

/-- The destructor of a ring drops its fields in the order they are declared. -/
def drop (R : Ring) : Construct Unit := do
  R.slots.drop
  match R.acks with
  | some acks => acks.drop
  | none => pure ()

/-- A ring from its construction to its end. -/
def life (comm : Comm) (rings : List LaneSpec) (safe closing : Bool) : Construct Unit := do
  let ring ← new comm rings safe
  if closing then ring.close else ring.drop

end Ring

/-! ### What has become of the windows -/

/-- What has become of a window. -/
inductive Status where
  | absent
  /-- outside an access epoch -/
  | outside
  /-- inside the epoch -/
  | inside
  /-- inside an epoch whose first synchronisation failed -/
  | unsynced
  | freed
  /-- leaving the epoch or the free failed -/
  | stuck
deriving DecidableEq, Repr

/-- MPI may hand out the handle. -/
def Status.vacant (s : Status) : Bool := s = .absent ∨ s = .freed

def Status.held (s : Status) : Bool := s = .outside ∨ s = .inside ∨ s = .unsynced

def Status.ended (s : Status) : Bool := s = .freed ∨ s = .stuck

theorem Status.ended.not_held {s : Status} (h : s.ended = true) : s.held = false := by
  cases s with
  | freed | stuck | absent => rfl
  | outside | inside | unsynced => contradiction

abbrev Windows : Type := Nat → Status

namespace Windows

def none : Windows := fun _ => .absent

/-- What a call needs of its window. -/
def proper (x : Windows) : MpiCall → Bool
  | .winGetAttr win => x win = .outside
  | .winLockAll win => x win = .outside
  | .winSync win => x win = .inside
  | .winUnlockAll win => x win = .inside
  | .winFree win => x win = .outside ∨ x win = .unsynced
  | .allGather _ => true
  | .winAllocate _ _ => true
  | .barrier => true

/-- MPI hands out no handle that is in use. -/
def admits (x : Windows) : (c : MpiCall) → c.Answer → Bool
  | .winAllocate _ _, .ok base => (x base.win).vacant
  | _, _ => true

def after (x : Windows) : (c : MpiCall) → c.Answer → Windows
  | .winAllocate _ _, .ok base => Function.update x base.win .outside
  | .winLockAll win, .ok _ => Function.update x win .inside
  | .winSync win, .error _ => Function.update x win .unsynced
  | .winUnlockAll win, .ok _ => Function.update x win .outside
  | .winUnlockAll win, .error _ => Function.update x win .stuck
  | .winFree win, .ok _ => Function.update x win .freed
  | .winFree win, .error _ => Function.update x win .stuck
  | .winAllocate _ _, .error _ => x
  | .winLockAll _, .error _ => x
  | .winSync _, .ok _ => x
  | .winGetAttr _, _ => x
  | .allGather _, _ => x
  | .barrier, _ => x

def Settled (x : Windows) : Prop := ∀ win, (x win).held = false

/-- From `x` to `x'` no window in use was touched, and none is left over. -/
def Spared (x x' : Windows) : Prop :=
  ∀ win, x' win = x win ∨ (x win).vacant = true ∧ (x' win).ended = true

theorem Spared.refl (x : Windows) : x.Spared x := fun _ => .inl rfl

theorem Spared.update {x : Windows} {win : Nat} {s : Status} (hx : (x win).vacant = true)
    (hs : s.ended = true) : x.Spared (Function.update x win s) := by
  intro win'
  by_cases hwin : win' = win
  · subst hwin
    simp [hx, hs]
  · simp [hwin]

/-- A window in use is spared. -/
theorem Spared.same {x x' : Windows} (h : x.Spared x') {win : Nat} (hwin : (x win).vacant = false) :
    x' win = x win := by
  rcases h win with hsame | ⟨hvacant, -⟩
  · exact hsame
  · rw [hwin] at hvacant
    contradiction

theorem Spared.not_held {x x' : Windows} (h : x.Spared x') {win : Nat}
    (hwin : (x win).held = false) : (x' win).held = false := by
  rcases h win with hsame | ⟨-, hended⟩
  · rw [hsame]
    exact hwin
  · exact Status.ended.not_held hended

end Windows

def windowUse : Typestate MpiCall MpiCall.Answer Windows :=
  ⟨Windows.proper, Windows.admits, Windows.after⟩

/-! ### The protocol is kept -/

section Protocol

variable {α β : Type} {x : Windows}

theorem wp_call {c : MpiCall} {k : c.Answer → Construct β}
    {Q : Except Error β × Unit → Windows → Prop} (hproper : x.proper c = true)
    (h : ∀ a, x.admits c a = true → (k a ()).wp windowUse.contract Q (x.after c a)) :
    ((Code.perform c >>= k : Construct β) ()).wp windowUse.contract Q x := ⟨hproper, h⟩

theorem wp_lift {y : Except Error α} {k : α → Construct β}
    {Q : Except Error β × Unit → Windows → Prop} (herror : ∀ e, Q (.error e, ()) x)
    (hok : ∀ a, (k a ()).wp windowUse.contract Q x) :
    ((Code.lift y >>= k : Construct β) ()).wp windowUse.contract Q x := by
  cases y with
  | error e => exact herror e
  | ok a => exact hok a

theorem wp_orElse {m : Construct α} {cleanup : Construct Unit}
    {Q : Except Error α × Unit → Windows → Prop}
    (h : (m ()).wp windowUse.contract (fun r x =>
      match r with
      | (.ok a, _) => Q (.ok a, ()) x
      | (.error e, _) => (cleanup ()).wp windowUse.contract (fun _ x => Q (.error e, ()) x) x) x) :
    (orElse m cleanup ()).wp windowUse.contract Q x := by
  unfold orElse
  rw [Program.wp_bind]
  apply Program.wp_mono windowUse.contract_monotone _ h
  rintro ⟨e | a, v⟩ x' hx'
  · rw [Program.wp_bind]
    exact hx'
  · exact hx'

namespace Window

/-- The epoch of the window just allocated begins, or fails with the window outside of it or
    with the epoch not synchronised. -/
theorem wp_initEpoch {comm : Comm} {base : Base} {len : Nat}
    {Q : Except Error MemoryModel × Unit → Windows → Prop} (hx : x base.win = .outside)
    (hok : ∀ model, Q (.ok model, ()) (Function.update x base.win .inside))
    (houtside : ∀ e, Q (.error e, ()) x)
    (hunsynced : ∀ e, Q (.error e, ()) (Function.update x base.win .unsynced)) :
    (initEpoch comm base len ()).wp windowUse.contract Q x := by
  unfold initEpoch
  split
  · exact houtside _
  apply wp_call (by simp [Windows.proper, hx])
  rintro (code | flagged) -
  · exact houtside _
  cases flagged with
  | none => exact houtside _
  | some model =>
    apply wp_call (by simp [Windows.proper, Windows.after, hx])
    rintro (code | ⟨⟩) -
    · exact houtside _
    · simp only [check, Code.wp_lift_ok_bind]
      split
      · apply wp_call (by simp [Windows.proper, Windows.after])
        rintro (code | ⟨⟩) -
        · simp only [Windows.after, Function.update_idem]
          exact hunsynced _
        · exact hok model
      · exact hok model

/-- A window that is freed outside of its epoch, or from one that never started well. -/
theorem wp_free {win : Nat} {Q : Except Error Unit × Unit → Windows → Prop}
    (hx : x win = .outside ∨ x win = .unsynced)
    (hend : ∀ s : Status, s.ended = true → Q (.ok (), ()) (Function.update x win s)) :
    ((do let _ ← winFree win; pure () : Construct Unit) ()).wp windowUse.contract Q x := by
  apply wp_call (by simpa [Windows.proper] using hx)
  rintro (code | ⟨⟩) -
  · exact hend .stuck rfl
  · exact hend .freed rfl

/-- **An allocation that fails leaves no window behind.** -/
theorem wp_allocate {comm : Comm} {element : Element} {len : Nat}
    {Q : Except Error Window × Unit → Windows → Prop}
    (hok : ∀ window : Window, (x window.win).vacant = true →
      Q (.ok window, ()) (Function.update x window.win .inside))
    (herror : ∀ e x', x.Spared x' → Q (.error e, ()) x') :
    (allocate comm element len ()).wp windowUse.contract Q x := by
  have hexit : ∀ e, Q (.error e, ()) x := fun e => herror e x (Windows.Spared.refl x)
  unfold allocate
  split
  · exact hexit _
  split
  · exact hexit _
  apply wp_lift hexit
  intro ranks
  apply wp_lift hexit
  intro configsLen
  split
  · exact hexit _
  apply wp_call rfl
  intro configs _
  split
  · exact hexit _
  dsimp only
  split
  · exact hexit _
  apply wp_lift hexit
  intro bytes
  apply wp_lift hexit
  intro aint
  apply wp_lift hexit
  intro width
  apply wp_call rfl
  rintro (code | base) hvacant
  · exact hexit _
  have hvacant : (x base.win).vacant = true := hvacant
  have hended : ∀ e (s : Status), s.ended = true →
    Q (.error e, ()) (Function.update x base.win s) :=
    fun e s hs => herror e _ (Windows.Spared.update hvacant hs)
  simp only [check, Code.wp_bind, Windows.after]
  -- a failing epoch frees the window, from outside or from an epoch that never started well
  apply wp_orElse
  apply wp_initEpoch
  · simp
  · intro model
    apply wp_call rfl
    intro met _
    simp only [Windows.after, Function.update_idem]
    exact hok ⟨base.win, _, _, _, model⟩ hvacant
  · intro e
    apply wp_free (by simp)
    intro s hs
    rw [Function.update_idem]
    exact hended e s hs
  · intro e
    apply wp_free (by simp)
    intro s hs
    simp only [Function.update_idem]
    exact hended e s hs

variable {window : Window}

/-- A window that is finished leaves the epoch and is freed, or is stuck. -/
theorem wp_finishes {Q : Except Error Unit × Bool → Windows → Prop} (hx : x window.win = .inside)
    (hok : Q (.ok (), true) (Function.update x window.win .freed))
    (herror : ∀ e, Q (.error e, false) (Function.update x window.win .stuck)) :
    (window.finishes false).wp windowUse.contract Q x := by
  constructor
  · simp [windowUse, Windows.proper, hx]
  rintro (code | ⟨⟩) -
  · exact herror _
  constructor
  · simp [windowUse, Windows.proper, Windows.after]
  rintro (code | ⟨⟩) -
  · simp only [windowUse, Windows.after, Function.update_idem]
    exact herror _
  · simp only [windowUse, Windows.after, Function.update_idem]
    exact hok

theorem wp_close {Q : Except Error Unit × Unit → Windows → Prop} (hx : x window.win = .inside)
    (hok : Q (.ok (), ()) (Function.update x window.win .freed))
    (herror : ∀ e, Q (.error e, ()) (Function.update x window.win .stuck)) :
    (window.close ()).wp windowUse.contract Q x := by
  unfold close
  rw [Program.wp_bind]
  apply wp_finishes hx
  · exact hok
  · intro e
    exact herror e

theorem wp_drop {Q : Except Error Unit × Unit → Windows → Prop} (hx : x window.win = .inside)
    (hend : ∀ s : Status, s.ended = true → Q (.ok (), ()) (Function.update x window.win s)) :
    (window.drop ()).wp windowUse.contract Q x := by
  unfold drop
  rw [Program.wp_bind]
  apply wp_finishes hx
  · exact hend _ rfl
  · intro e
    exact hend _ rfl

/-- The failure paths of the construction run the destructor. -/
theorem finish_eq : window.finish = window.drop := by
  funext v
  unfold finish drop finishes
  show Program.op _ _ = Program.op _ _
  congr 1
  funext a
  cases a with
  | error code => rfl
  | ok unlocked =>
    show Program.op _ _ = Program.op _ _
    congr 1
    funext b
    cases b with
    | error code => rfl
    | ok freed => rfl

theorem wp_finish_bind {k : Unit → Construct β} {Q : Except Error β × Unit → Windows → Prop}
    (hx : x window.win = .inside)
    (h : ∀ s : Status, s.ended = true →
      (k () ()).wp windowUse.contract Q (Function.update x window.win s)) :
    ((window.finish >>= k : Construct β) ()).wp windowUse.contract Q x := by
  rw [finish_eq, Code.wp_bind]
  exact wp_drop hx h

theorem drop_ret (v : Unit) :
    ((window.drop v).bind fun _ => .ret (.ok (), v)) = window.drop v := by
  unfold drop
  rw [Program.bind_assoc]
  rfl

theorem drop_bind (k : Unit → Construct β) (v : Unit) :
    (window.drop >>= k : Construct β) v = (window.drop v).bind fun _ => k () v := by
  unfold drop
  refine (Program.bind_assoc (window.finishes false) _ _).trans ?_
  rw [Program.bind_assoc]
  rfl

/-- But for the result, closing a window is dropping it. -/
theorem close_bind (v : Unit) {γ : Type} (q : Program MpiCall MpiCall.Answer γ) :
    ((window.close v).bind fun _ => q) = (window.drop v).bind fun _ => q := by
  unfold close drop
  simp only [Program.bind_assoc]
  show Program.op _ _ = Program.op _ _
  congr 1
  funext a
  cases a with
  | error code => rfl
  | ok unlocked =>
    show Program.op _ _ = Program.op _ _
    congr 1
    funext b
    cases b with
    | error code => rfl
    | ok freed => rfl

end Window

namespace Ring

theorem wp_agree {safe : Bool} {config : List LaneSpec}
    {Q : Except Error Unit × Unit → Windows → Prop} (hok : Q (.ok (), ()) x)
    (herror : ∀ e, Q (.error e, ()) x) :
    (agree safe config ()).wp windowUse.contract Q x := by
  unfold agree
  apply wp_call rfl
  intro counts _
  split
  · exact herror _
  apply wp_call rfl
  intro all _
  split
  · exact herror _
  · exact hok

def windows (R : Ring) : Windows :=
  match R.acks with
  | some acks => Function.update (Function.update Windows.none R.slots.win .inside) acks.win .inside
  | none => Function.update Windows.none R.slots.win .inside

def Distinct (R : Ring) : Prop := ∀ acks, R.acks = some acks → R.slots.win ≠ acks.win

theorem settled_none : Windows.none.Settled := fun _ => rfl

theorem settled_update {win : Nat} {s : Status} (hs : s.ended = true)
    (hx : ∀ w, w ≠ win → (x w).held = false) : Windows.Settled (Function.update x win s) := by
  intro w
  by_cases hw : w = win
  · subst hw
    rw [Function.update_self]
    exact Status.ended.not_held hs
  · rw [Function.update_of_ne hw]
    exact hx w hw

theorem wp_new {comm : Comm} {rings : List LaneSpec} {safe : Bool}
    {Q : Except Error Ring × Unit → Windows → Prop}
    (hok : ∀ R : Ring, R.Distinct → Q (.ok R, ()) R.windows)
    (herror : ∀ e x, x.Settled → Q (.error e, ()) x) :
    (new comm rings safe ()).wp windowUse.contract Q Windows.none := by
  have hexit : ∀ e, Q (.error e, ()) Windows.none := fun e => herror e _ settled_none
  unfold new
  split
  · exact hexit _
  apply wp_lift hexit
  intro ranks
  apply wp_lift hexit
  intro me
  dsimp only
  rw [Code.wp_bind]
  apply wp_agree _ hexit
  dsimp only
  split
  · exact hexit _
  apply wp_lift hexit
  intro checked
  apply wp_lift hexit
  intro tables
  rw [Code.wp_bind]
  apply Window.wp_allocate _ fun e x' hspared =>
    herror e x' fun w => hspared.not_held (settled_none w)
  intro slots _
  dsimp only
  rw [Code.wp_bind]
  have hslots : Function.update Windows.none slots.win .inside slots.win = .inside :=
    Function.update_self ..
  have hothers : ∀ w, w ≠ slots.win →
      (Function.update Windows.none slots.win .inside w).held = false := by
    intro w hw
    rw [Function.update_of_ne hw]
    rfl
  apply wp_orElse
  unfold allocateAcks
  cases safe with
  | false =>
    apply wp_call rfl
    intro models _
    split
    · apply Window.wp_finish_bind hslots
      intro s hs
      exact herror _ _ (settled_update hs hothers)
    · exact hok _ fun acks hacks => nomatch hacks
  | true =>
    rw [if_pos rfl, Code.wp_bind]
    apply Window.wp_allocate
    · intro acks hvacant
      have hapart : slots.win ≠ acks.win := by
        intro hsame
        rw [← hsame, hslots] at hvacant
        contradiction
      apply wp_call rfl
      intro models _
      split
      · -- the counter window first, then the slot window
        apply Window.wp_finish_bind (Function.update_self ..)
        intro s hs
        apply Window.wp_finish_bind
        · simp [hapart]
        intro s' hs'
        apply herror
        apply settled_update hs'
        intro w hw
        by_cases hacks : w = acks.win
        · subst hacks
          have hended := @settled_update Windows.none acks.win s hs fun _ _ => rfl
          simpa [Windows.after] using hended acks.win
        · simpa [Windows.after, hacks] using hothers w hw
      · refine hok _ ?_
        rintro acks' hacks
        obtain rfl := Option.some.inj hacks
        exact hapart
    · intro e x' hspared
      rw [Window.finish_eq]
      have hinside : x' slots.win = .inside := by
        rw [hspared.same (by rw [hslots]; rfl), hslots]
      apply Window.wp_drop hinside
      intro s hs
      apply herror
      apply settled_update hs
      exact fun w hw => hspared.not_held (hothers w hw)

theorem wp_close {R : Ring} (hR : R.Distinct) {Q : Except Error Unit × Unit → Windows → Prop}
    (hend : ∀ r x, x.Settled → (r = .ok () → ∀ w, x w ≠ .stuck) → Q (r, ()) x) :
    (R.close ()).wp windowUse.contract Q R.windows := by
  unfold close closeAcks windows
  rw [Program.wp_bind]
  cases hacks : R.acks with
  | none =>
    have hsettled : ∀ s : Status, s.ended = true →
        Windows.Settled (Function.update (Function.update Windows.none R.slots.win .inside)
          R.slots.win s) := by
      intro s hs
      apply settled_update hs
      intro w hw
      rw [Function.update_of_ne hw]
      rfl
    apply Window.wp_close (Function.update_self ..)
    · apply hend _ _ (hsettled _ rfl)
      intro _ w
      by_cases hw : w = R.slots.win <;> simp [hw, Windows.none]
    · intro e
      exact hend _ _ (hsettled _ rfl) (fun h => absurd h (by simp [resultAnd]))
  | some acks =>
    have hapart := hR acks hacks
    have hsettled : ∀ s s' : Status, s.ended = true → s'.ended = true →
        Windows.Settled (Function.update (Function.update (Function.update
          (Function.update Windows.none R.slots.win .inside) acks.win .inside) R.slots.win s)
          acks.win s') := by
      intro s s' hs hs'
      apply settled_update hs'
      intro w hw
      by_cases hslots : w = R.slots.win
      · subst hslots
        have hended := @settled_update Windows.none R.slots.win s hs fun _ _ => rfl
        simpa using hended R.slots.win
      · simp [hw, hslots, Windows.none, Status.held]
    have hinside : ∀ s : Status, Function.update (Function.update
        (Function.update Windows.none R.slots.win .inside) acks.win .inside) R.slots.win s
        acks.win = .inside := by
      intro s
      simp [Ne.symm hapart]
    apply Window.wp_close (by simp [hapart])
    · rw [Program.wp_bind]
      apply Window.wp_close (hinside _)
      · apply hend _ _ (hsettled _ _ rfl rfl)
        intro _ w
        by_cases hw : w = acks.win
        · simp [hw]
        · by_cases hslots : w = R.slots.win
          · subst hslots
            simp [hw]
          · simp [hw, hslots, Windows.none]
      · intro e
        exact hend _ _ (hsettled _ _ rfl rfl) (fun h => absurd h (by simp [resultAnd]))
    · intro e
      rw [Program.wp_bind]
      apply Window.wp_close (hinside _)
      · exact hend _ _ (hsettled _ _ rfl rfl) (fun h => absurd h (by simp [resultAnd]))
      · intro e'
        exact hend _ _ (hsettled _ _ rfl rfl) (fun h => absurd h (by simp [resultAnd]))

/-- But for the result, closing a ring is dropping it. -/
theorem close_bind (R : Ring) :
    ((R.close ()).bind fun _ => .ret (.ok (), ())) = R.drop () := by
  have hacks : ((R.closeAcks ()).bind fun _ => .ret (.ok (), ())) =
      (match R.acks with
        | some acks => acks.drop
        | none => pure () : Construct Unit) () := by
    unfold closeAcks
    cases R.acks with
    | none => rfl
    | some acks => exact (Window.close_bind () _).trans (Window.drop_ret ())
  unfold close drop
  simp only [Program.bind_assoc, Program.bind]
  rw [Window.drop_bind, ← hacks]
  exact Window.close_bind () _

theorem wp_drop {R : Ring} (hR : R.Distinct) {Q : Except Error Unit × Unit → Windows → Prop}
    (hend : ∀ r x, x.Settled → Q (r, ()) x) :
    (R.drop ()).wp windowUse.contract Q R.windows := by
  rw [← close_bind, Program.wp_bind]
  apply wp_close hR
  intro r x hx _
  exact hend _ x hx

theorem wp_life {comm : Comm} {rings : List LaneSpec} {safe closing : Bool}
    {Q : Except Error Unit × Unit → Windows → Prop}
    (hend : ∀ r x, x.Settled → (closing = true → r = .ok () → ∀ w, x w ≠ .stuck) → Q (r, ()) x) :
    (life comm rings safe closing ()).wp windowUse.contract Q Windows.none := by
  unfold life
  rw [Code.wp_bind]
  apply wp_new
  · intro R hR
    cases closing with
    | true =>
      apply wp_close hR
      intro r x hx hr
      exact hend r x hx (fun _ => hr)
    | false =>
      apply wp_drop hR
      intro r x hx
      exact hend r x hx (by simp)
  · intro e x hx
    exact hend _ x hx (by simp)

theorem drop_follows {R : Ring} {τ : List MpiEvent} {r : Except Error Unit × Unit} :
    (R.drop ()).Follows τ r ↔ r = (.ok (), ()) ∧ ∃ r', (R.close ()).Follows τ r' := by
  rw [← close_bind, Program.follows_bind]
  constructor
  · rintro ⟨r', τ₁, τ₂, rfl, hclose, rfl, rfl⟩
    rw [List.append_nil]
    exact ⟨rfl, r', hclose⟩
  · rintro ⟨rfl, r', hclose⟩
    exact ⟨r', τ, [], (List.append_nil τ).symm, hclose, rfl, rfl⟩

/-- A life that ends in `close` and one that ends in a destructor make the same calls. -/
theorem life_alike {comm : Comm} {rings : List LaneSpec} {safe closing : Bool}
    {τ : List MpiEvent} {r : Except Error Unit × Unit}
    (h : (life comm rings safe closing ()).Follows τ r) (closing' : Bool) :
    ∃ r', (life comm rings safe closing' ()).Follows τ r' := by
  rcases Program.follows_bind.mp h with ⟨⟨e | R, v⟩, τ₁, τ₂, rfl, hnew, hend⟩
  · rcases hend with ⟨rfl, rfl⟩
    exact ⟨_, Program.follows_bind.mpr ⟨_, τ₁, [], rfl, hnew, rfl, rfl⟩⟩
  have hclose : ∃ r', (R.close ()).Follows τ₂ r' := by
    cases closing with
    | true => exact ⟨r, hend⟩
    | false => exact (drop_follows.mp hend).2
  rcases hclose with ⟨r', hclose⟩
  cases closing' with
  | true => exact ⟨r', Program.follows_bind.mpr ⟨_, τ₁, τ₂, rfl, hnew, hclose⟩⟩
  | false =>
    exact ⟨_, Program.follows_bind.mpr ⟨_, τ₁, τ₂, rfl, hnew, drop_follows.mpr ⟨rfl, r', hclose⟩⟩⟩

end Ring

end Protocol

/-! ### The windows come back -/

def MpiCall.window : MpiCall → Option Nat
  | .winGetAttr win => some win
  | .winLockAll win => some win
  | .winSync win => some win
  | .winUnlockAll win => some win
  | .winFree win => some win
  | .allGather _ => none
  | .winAllocate _ _ => none
  | .barrier => none

/-- MPI handed out the handle. -/
def allocates (win : Nat) : MpiEvent → Bool
  | ⟨.winAllocate _ _, .ok base⟩ => base.win = win
  | _ => false

def frees (win : Nat) : MpiEvent → Bool
  | ⟨.winFree w, .ok _⟩ => w = win
  | _ => false

/-- Leaving the epoch of the window or freeing it failed. -/
def sticks (win : Nat) : MpiEvent → Bool
  | ⟨.winUnlockAll w, .error _⟩ => w = win
  | ⟨.winFree w, .error _⟩ => w = win
  | _ => false

def ends (win : Nat) (e : MpiEvent) : Bool := frees win e || sticks win e

theorem countP_ends (win : Nat) (τ : List MpiEvent) :
    τ.countP (ends win) = τ.countP (frees win) + τ.countP (sticks win) := by
  induction τ with
  | nil => rfl
  | cons e τ ih =>
    have hone : (if ends win e then 1 else 0) =
        (if frees win e then 1 else 0) + if sticks win e then 1 else 0 := by
      rcases e with ⟨c, a⟩
      cases c with
      | allGather | barrier | winGetAttr => rfl
      | winAllocate | winLockAll | winSync | winUnlockAll | winFree =>
        cases a <;> simp [ends, frees, sticks]
    simp only [List.countP_cons, ih, hone]
    omega

section Balance

variable {x : Windows} {c : MpiCall} {win : Nat}

/-- A command that neither hands the handle out nor acts on the window leaves it. -/
theorem after_other (a : c.Answer) (hcall : c.window ≠ some win)
    (ha : allocates win ⟨c, a⟩ = false) : windowUse.after x c a win = x win := by
  cases c with
  | allGather row => rfl
  | barrier => rfl
  | winGetAttr w => rfl
  | winAllocate bytes width =>
    cases a with
    | error code => rfl
    | ok base =>
      have hne : win ≠ base.win := by
        rintro rfl
        simp [allocates] at ha
      exact Function.update_of_ne hne _ _
  | winLockAll w | winSync w | winUnlockAll w | winFree w =>
    have hne : win ≠ w := by
      rintro rfl
      exact hcall rfl
    cases a with
    | error code => simp [windowUse, Windows.after, hne]
    | ok u => simp [windowUse, Windows.after, hne]

/-- What a command makes of the one window it acts on. -/
theorem held_after (a : c.Answer) (hproper : windowUse.proper x c = true)
    (hadmits : windowUse.admits x c a = true) :
    ((windowUse.after x c a win).held).toNat + (if ends win ⟨c, a⟩ then 1 else 0) =
      ((x win).held).toNat + if allocates win ⟨c, a⟩ then 1 else 0 := by
  cases c with
  | allGather row => rfl
  | barrier => rfl
  | winGetAttr w => rfl
  | winAllocate bytes width =>
    cases a with
    | error code => rfl
    | ok base =>
      by_cases hwin : base.win = win
      · subst hwin
        have hvacant : (x base.win).vacant = true := hadmits
        have hheld : (x base.win).held = false := by
          revert hvacant
          cases x base.win <;> decide
        simp [windowUse, Windows.after, allocates, ends, frees, sticks, hheld]
        rfl
      · simp [windowUse, Windows.after, allocates, ends, frees, sticks, hwin, Ne.symm hwin]
  | winLockAll w | winSync w | winUnlockAll w =>
    simp only [windowUse, Windows.proper, decide_eq_true_eq] at hproper
    by_cases hwin : w = win
    · subst hwin
      cases a <;>
        simp [windowUse, Windows.after, allocates, ends, frees, sticks, hproper, Status.held]
    · cases a <;>
        simp [windowUse, Windows.after, allocates, ends, frees, sticks, hwin, Ne.symm hwin]
  | winFree w =>
    simp only [windowUse, Windows.proper, decide_eq_true_eq] at hproper
    by_cases hwin : w = win
    · subst hwin
      have hheld : (x w).held = true := by simpa [Status.held] using hproper.imp_right .inr
      cases a <;> simp [windowUse, Windows.after, allocates, ends, frees, sticks, hheld] <;> rfl
    · cases a <;>
        simp [windowUse, Windows.after, allocates, ends, frees, sticks, hwin, Ne.symm hwin]

/-- A window that left its epoch badly, or was freed badly, stays so. -/
theorem stuck_after (a : c.Answer) (hproper : windowUse.proper x c = true)
    (hadmits : windowUse.admits x c a = true) :
    (if windowUse.after x c a win = .stuck then 1 else 0) =
      (if x win = .stuck then 1 else 0) + if sticks win ⟨c, a⟩ then 1 else 0 := by
  cases c with
  | allGather row => rfl
  | barrier => rfl
  | winGetAttr w => rfl
  | winAllocate bytes width =>
    cases a with
    | error code => rfl
    | ok base =>
      by_cases hwin : base.win = win
      · subst hwin
        have hvacant : (x base.win).vacant = true := hadmits
        have hstuck : x base.win ≠ .stuck := by
          intro hstuck
          rw [hstuck] at hvacant
          contradiction
        simp [windowUse, Windows.after, sticks, hstuck]
      · simp [windowUse, Windows.after, sticks, Ne.symm hwin]
  | winLockAll w | winSync w | winUnlockAll w =>
    simp only [windowUse, Windows.proper, decide_eq_true_eq] at hproper
    by_cases hwin : w = win
    · subst hwin
      cases a <;> simp [windowUse, Windows.after, sticks, hproper]
    · rw [after_other a (fun h => hwin (Option.some.inj h)) rfl]
      cases a <;> simp [sticks, hwin]
  | winFree w =>
    simp only [windowUse, Windows.proper, decide_eq_true_eq] at hproper
    by_cases hwin : w = win
    · subst hwin
      have hstuck : x w ≠ .stuck := by
        intro hstuck
        simp [hstuck] at hproper
      cases a <;> simp [windowUse, Windows.after, sticks, hstuck]
    · rw [after_other a (fun h => hwin (Option.some.inj h)) rfl]
      cases a <;> simp [sticks, hwin]

theorem ended_after (a : c.Answer) (h : ends win ⟨c, a⟩ = true) :
    (windowUse.after x c a win).ended = true := by
  cases c with
  | allGather | barrier | winGetAttr => contradiction
  | winAllocate | winLockAll | winSync => cases a <;> contradiction
  | winUnlockAll w | winFree w =>
    cases a <;> simp [ends, frees, sticks] at h <;>
      simp [windowUse, Windows.after, h, Status.ended]

/-- No call is proper on a window the rank is done with. -/
theorem proper_ended (hproper : windowUse.proper x c = true) (h : (x win).ended = true) :
    c.window ≠ some win := by
  cases c with
  | allGather | winAllocate | barrier => exact nofun
  | winGetAttr w | winLockAll w | winSync w | winUnlockAll w | winFree w =>
    intro hwin
    obtain rfl := Option.some.inj hwin
    simp only [windowUse, Windows.proper, decide_eq_true_eq] at hproper
    revert hproper h
    cases x w <;> decide

/-- Until its handle is handed out again no call acts on a window the rank is done with. -/
theorem keeps_final {τ τ' : List MpiEvent} {e : MpiEvent}
    (h : windowUse.Keeps x (τ ++ e :: τ')) (hx : (x win).ended = true)
    (hnone : ∀ e' ∈ τ, allocates win e' = false) : e.1.window ≠ some win := by
  rcases windowUse.keeps_append.mp h with ⟨hbefore, hproper, -⟩
  apply proper_ended hproper
  apply windowUse.run_keeps (fun x => (x win).ended = true) (fun e => allocates win e = false) _
    hbefore hnone hx
  intro x c a hproper hother hended
  rw [after_other a (proper_ended hproper hended) hother]
  exact hended

end Balance

/-- What the trace of a ring's whole life says of every window. -/
structure WindowsReturned (comm : Comm) (rings : List LaneSpec) (safe closing : Bool)
    (τ : List MpiEvent) (r : Except Error Unit) : Prop where
  proper : windowUse.Keeps Windows.none τ
  final : ∀ win τ₁ e τ₂ e' τ₃, τ = τ₁ ++ e :: (τ₂ ++ e' :: τ₃) → ends win e = true →
    (∀ e'' ∈ τ₂, allocates win e'' = false) → e'.1.window ≠ some win
  settled : (windowUse.run Windows.none τ).Settled
  balance : ∀ win, τ.countP (allocates win) = τ.countP (frees win) + τ.countP (sticks win)
  closed : closing = true → r = .ok () →
    ∀ win, τ.countP (allocates win) = τ.countP (frees win)
  alike : ∀ closing', ∃ r', (Ring.life comm rings safe closing' ()).Follows τ (r', ())

/-- **No window is lost, used outside its epoch or freed twice**, whatever MPI answers, if it
    hands out no handle of a window in use: on every early exit of the construction, and by
    closing or dropping the ring. -/
theorem windows_returned {comm : Comm} {rings : List LaneSpec} {safe closing : Bool}
    {τ : List MpiEvent} {r : Except Error Unit}
    (h : (Ring.life comm rings safe closing ()).Follows τ (r, ()))
    (hfresh : windowUse.Answered Windows.none τ) : WindowsReturned comm rings safe closing τ r := by
  have hlife : (Ring.life comm rings safe closing ()).wp windowUse.contract (fun r x =>
      x.Settled ∧ (closing = true → r.1 = .ok () → ∀ win, x win ≠ .stuck)) Windows.none := by
    apply Ring.wp_life
    intro r x hx hr
    exact ⟨hx, hr⟩
  rcases windowUse.wp_follows hlife h hfresh with ⟨hkeeps, hsettled, hclosed⟩
  have hbalance : ∀ win, τ.countP (allocates win) =
      τ.countP (frees win) + τ.countP (sticks win) := by
    intro win
    have hheld := windowUse.run_balance (fun x => ((x win).held).toNat) (allocates win) (ends win)
      (fun _ _ a hproper hadmits => held_after a hproper hadmits) hkeeps hfresh
    rw [hsettled win, countP_ends] at hheld
    simpa [Windows.none, Status.held] using hheld.symm
  constructor
  · exact hkeeps
  · rintro win τ₁ e τ₂ e' τ₃ rfl hends hnone
    rcases windowUse.keeps_append.mp hkeeps with ⟨-, -, hafter⟩
    exact keeps_final hafter (ended_after e.2 hends) hnone
  · exact hsettled
  · exact hbalance
  · intro hclosing hr win
    have hstuck := windowUse.run_balance (fun x => if x win = .stuck then 1 else 0) (sticks win)
      (fun _ => false) (fun _ _ a hproper hadmits => stuck_after a hproper hadmits) hkeeps hfresh
    rw [if_neg (hclosed hclosing hr win)] at hstuck
    have hnone : τ.countP (sticks win) = 0 := by
      simpa [Windows.none] using hstuck.symm
    rw [hbalance win, hnone, Nat.add_zero]
  · intro closing'
    rcases Ring.life_alike h closing' with ⟨⟨r', v⟩, hfollows⟩
    exact ⟨r', hfollows⟩

/-- The ring of one lane constructed and closed on rank 0. -/
theorem windows_returned_pair :
    ∃ τ, (Ring.life (pairComm 0) (pairList 3 8) true true ()).Follows τ (.ok (), ()) ∧
      WindowsReturned (pairComm 0) (pairList 3 8) true true τ (.ok ()) ∧
      τ.countP (frees 1) = 1 ∧ τ.countP (frees 8) = 1 := by
  have hresult : ((Ring.life (pairComm 0) (pairList 3 8) true true ()).traceWith
      (pairAnswer 3 8)).2 = (.ok (), ()) := by decide +kernel
  have hfollows := Program.follows_traceWith (pairAnswer 3 8)
    (Ring.life (pairComm 0) (pairList 3 8) true true ())
  rw [hresult] at hfollows
  exact ⟨_, hfollows, windows_returned hfollows (by decide +kernel), by decide +kernel,
    by decide +kernel⟩

end MpiRma
