/-
  MpiRma/Hostile.lean
  ===================
  **The ring over memory that answers anything.**  Every read of the slot and counter windows
  answers an arbitrary value of its type, and MPI calls fail as they like.  What is left is
  what the ring keeps under its own mutexes: a cached counter never passes `sent`, no mirror
  passes its cursor, and neither the caches nor the cursors go back.  That is enough for every
  unchecked operation of `send`, `poll` and `ack` to stay in range.
-/
import MpiRma.Guards
import MpiRma.Stages
import MpiRma.FailingPoll

namespace MpiRma

/-! ### Commands over hostile memory -/

def RingCall.reads : RingCall → Bool
  | .readLocal _ _ => true
  | .readLocalVolatile _ _ => true
  | .readCounter _ => true
  | .fetchAdd _ _ _ => true
  | _ => false

/-- The answers the type of a command provides for: reads have the length asked for, and a
    counter is a `u64`. -/
def RingCall.Typed : (c : RingCall) → c.Answer → Prop
  | .readLocal _ len, bytes => bytes.length = len
  | .readLocalVolatile _ len, bytes => bytes.length = len
  | .readCounter _, value => (show Nat from value) ≤ u64Max
  | .fetchAdd _ _ _, answer => ∀ previous, answer = Except.ok previous → previous ≤ u64Max
  | _, _ => True

/-- Every call of MPI may fail. -/
def Faults.all : Faults := ⟨true, true⟩

/-- A command of thread `t` takes effect as always; one that reads a window is answered
    anything of its type. -/
def hostileExec {n : Nat} (t : Nat) (call : Call n) (c : RingCall) (w : World) (a : c.Answer)
    (w' : World) : Prop :=
  ∃ ending stored, World.exec Faults.all t call c ending w = some (stored, w') ∧ c.Typed a ∧
    (c.reads = false → a = stored)

def hostileMachine [Libraries] (n : Nat) (ring : Nat → Ring) :
    Machine RingCall RingCall.Answer World (Call n) Outcome where
  code := Call.code ring
  exec := hostileExec
  finish _ call outcome w := w.record (.returned call.rank call.request outcome)

/-! ### Outcomes -/

def Outcome.failure : Outcome → Option Fail
  | .sent (.error e) => some e
  | .polled (.error e) => some e
  | .acked (.error e) => some e
  | _ => none

/-- The errors the window layer answers an access with that it does not accept. -/
def Fail.ofWindow : Fail → Bool
  | .error (.rank _) => true
  | .error (.range _ _ _) => true
  | .error .sizeOverflow => true
  | .error .countOverflow => true
  | _ => false

def Request.configured (R : Ring) : Request → Prop
  | .send destination _ =>
    ∃ (i : Nat) (l : Lane), destination = i ∧ R.toLanes[i]? = some (some l)
  | .poll => True
  | .ack origin _ => ∃ (i : Nat) (l : Lane), origin = i ∧ R.fromLanes[i]? = some (some l)

/-- No panic, and on a configured lane no access the window layer refuses. -/
def Unbroken (R : Ring) (request : Request) (outcome : Outcome) : Prop :=
  ∀ e, outcome.failure = some e →
    e ≠ .panic ∧ (request.configured R → e.ofWindow = false)

/-! ### What the mutexes guard -/

def Below (xs ys : List Nat) : Prop := ∀ (i x : Nat), xs[i]? = some x → ∃ y, ys[i]? = some y ∧ x ≤ y

theorem Below.refl (xs : List Nat) : Below xs xs := fun _ x hx => ⟨x, hx, Nat.le_refl x⟩

theorem Below.trans {xs ys zs : List Nat} (h : Below xs ys) (h' : Below ys zs) : Below xs zs := by
  intro i x hx
  obtain ⟨y, hy, hxy⟩ := h i x hx
  obtain ⟨z, hz, hyz⟩ := h' i y hy
  exact ⟨z, hz, Nat.le_trans hxy hyz⟩

/-- Raising an entry. -/
theorem Below.set_right (xs : List Nat) {i x y : Nat} (hx : xs[i]? = some x) (hxy : x ≤ y) :
    Below xs (xs.set i y) := by
  intro j z hz
  by_cases hij : i = j
  · subst hij
    obtain rfl := Option.some.inj (hx.symm.trans hz)
    obtain ⟨hi, -⟩ := List.getElem?_eq_some_iff.mp hx
    exact ⟨y, List.getElem?_set_self hi, hxy⟩
  · exact ⟨z, (List.getElem?_set_ne hij).trans hz, Nat.le_refl z⟩

/-- An entry that stays below the other list. -/
theorem Below.set_left {xs ys : List Nat} (h : Below xs ys) {i x y : Nat} (hy : ys[i]? = some y)
    (hxy : x ≤ y) : Below (xs.set i x) ys := by
  intro j z hz
  by_cases hij : i = j
  · subst hij
    rw [List.getElem?_set] at hz
    split at hz
    · obtain ⟨-, hz⟩ := Option.ite_none_right_eq_some.mp hz
      obtain rfl := Option.some.inj hz
      exact ⟨y, hy, hxy⟩
    · contradiction
  · rw [List.getElem?_set_ne hij] at hz
    exact h j z hz

structure HostileInv (n : Nat) (ring : Nat → Ring) (w : World) : Prop where
  clean : ∀ m, w.poisoned m = false
  cached : ∀ s d, ((w.process s).sent d).acked ≤ ((w.process s).sent d).sent
  cursors : ∀ d < n, (w.process d).seen.length = n
  mirrors : ∀ d < n, (w.process d).acked.length = n
  behind : ∀ d < n, Below (w.process d).acked (w.process d).seen
  returned : ∀ rank request outcome, .returned rank request outcome ∈ w.log →
    Unbroken (ring rank) request outcome

structure HostileRely (t : Nat) (w w' : World) : Prop where
  held : ∀ m, w'.holder m = some t ↔ w.holder m = some t
  sent : ∀ s d, w.holder (.sent s d) = some t → (w'.process s).sent d = (w.process s).sent d
  seen : ∀ d, w.holder (.seen d) = some t → (w'.process d).seen = (w.process d).seen
  acked : ∀ d, w.holder (.acked d) = some t → (w'.process d).acked = (w.process d).acked
  cached : ∀ s d, ((w.process s).sent d).acked ≤ ((w'.process s).sent d).acked
  climbs : ∀ d, Below (w.process d).seen (w'.process d).seen

theorem HostileRely.refl (t : Nat) (w : World) : HostileRely t w w :=
  ⟨fun _ => Iff.rfl, fun _ _ _ => rfl, fun _ _ => rfl, fun _ _ => rfl, fun _ _ => Nat.le_refl _,
    fun _ => Below.refl _⟩

theorem HostileRely.record (t : Nat) (w : World) (e : Event) : HostileRely t w (w.record e) :=
  ⟨fun _ => Iff.rfl, fun _ _ _ => rfl, fun _ _ => rfl, fun _ _ => rfl, fun _ _ => Nat.le_refl _,
    fun _ => Below.refl _⟩

theorem HostileRely.trans {t : Nat} {w w' w'' : World} (h : HostileRely t w w')
    (h' : HostileRely t w' w'') : HostileRely t w w'' where
  held m := (h'.held m).trans (h.held m)
  sent s d hheld := (h'.sent s d ((h.held _).mpr hheld)).trans (h.sent s d hheld)
  seen d hheld := (h'.seen d ((h.held _).mpr hheld)).trans (h.seen d hheld)
  acked d hheld := (h'.acked d ((h.held _).mpr hheld)).trans (h.acked d hheld)
  cached s d := Nat.le_trans (h.cached s d) (h'.cached s d)
  climbs d := (h.climbs d).trans (h'.climbs d)

def hostileDiscipline (n : Nat) (ring : Nat → Ring) : Discipline World where
  inv := HostileInv n ring
  rely := HostileRely
  idle := Idle
  rely_refl := HostileRely.refl
  rely_trans _ _ _ _ := HostileRely.trans
  idle_stable _ _ _ hrely hidle := fun m hm => hidle m ((hrely.held m).mp hm)

/-! ### One step -/

def Fits (n r : Nat) (w : World) : RingCall → Prop
  | .unlockSent d outgoing poison => poison = false ∧ outgoing.acked ≤ outgoing.sent ∧
    ((w.process r).sent d).acked ≤ outgoing.acked
  | .unlockSeen seen poison _ => poison = false ∧ seen.length = n ∧ Below (w.process r).seen seen
  | .unlockAcked acked poison =>
    poison = false ∧ acked.length = n ∧ Below acked (w.process r).seen
  | _ => True

structure Stores (n r : Nat) (c : RingCall) (w w' : World) : Prop where
  poisoned : Fits n r w c → ∀ m, w'.poisoned m = w.poisoned m
  sent : ∀ s d, (w'.process s).sent d = (w.process s).sent d ∨
    ∃ outgoing poison, c = .unlockSent d outgoing poison ∧ s = r ∧
      (w'.process s).sent d = outgoing
  seen : ∀ d, (w'.process d).seen = (w.process d).seen ∨
    ∃ seen poison polled, c = .unlockSeen seen poison polled ∧ d = r ∧ (w'.process d).seen = seen
  acked : ∀ d, (w'.process d).acked = (w.process d).acked ∨
    ∃ acked poison, c = .unlockAcked acked poison ∧ d = r ∧ (w'.process d).acked = acked

section Steps

variable {n : Nat} {ring : Nat → Ring} {faults : Faults} {t : Nat} {call : Call n} {c : RingCall}
  {ending : Ending} {answer : c.Answer} {w w' : World}

/-- A step that changes the state of the rank: what it does to each guarded part is none, or
    what a guard dropped stores. -/
theorem Stores.of_update {i r : Nat} {p : Process}
    (hprocess : w'.process = Function.update w.process i p)
    (hpoisoned : Fits n r w c → ∀ m, w'.poisoned m = w.poisoned m)
    (hsent : ∀ d, p.sent d = (w.process i).sent d ∨
      ∃ outgoing poison, c = .unlockSent d outgoing poison ∧ i = r ∧ p.sent d = outgoing)
    (hseen : p.seen = (w.process i).seen ∨
      ∃ seen poison polled, c = .unlockSeen seen poison polled ∧ i = r ∧ p.seen = seen)
    (hacked : p.acked = (w.process i).acked ∨
      ∃ acked poison, c = .unlockAcked acked poison ∧ i = r ∧ p.acked = acked) :
    Stores n r c w w' := by
  have hother : ∀ j, j ≠ i → w'.process j = w.process j := fun j hj => by
    rw [hprocess, Function.update_of_ne hj]
  have hself : w'.process i = p := by
    rw [hprocess, Function.update_self]
  refine ⟨hpoisoned, fun j d => ?_, fun j => ?_, fun j => ?_⟩
  · by_cases hj : j = i
    · subst hj
      rw [hself]
      exact hsent d
    · exact .inl (by rw [hother j hj])
  · by_cases hj : j = i
    · subst hj
      rw [hself]
      exact hseen
    · exact .inl (by rw [hother j hj])
  · by_cases hj : j = i
    · subst hj
      rw [hself]
      exact hacked
    · exact .inl (by rw [hother j hj])

theorem Stores.of_process {r : Nat} (hprocess : w'.process = w.process)
    (hpoisoned : w'.poisoned = w.poisoned) : Stores n r c w w' where
  poisoned _ m := by rw [hpoisoned]
  sent s d := .inl (by rw [hprocess])
  seen d := .inl (by rw [hprocess])
  acked d := .inl (by rw [hprocess])

theorem lock_stores {α : Type} {m : Mutex} {data : α} {a : Option α}
    (h : w.lock t m data = some (a, w')) :
    w'.process = w.process ∧ w'.poisoned = w.poisoned := by
  unfold World.lock at h
  split at h
  · split at h
    · obtain ⟨-, rfl⟩ := Prod.mk.inj (Option.some.inj h)
      exact ⟨rfl, rfl⟩
    · obtain ⟨-, rfl⟩ := Prod.mk.inj (Option.some.inj h)
      exact ⟨rfl, rfl⟩
  · contradiction

theorem drop_poisoned (w : World) (m m' : Mutex) :
    (w.drop m false).poisoned m' = w.poisoned m' := by
  show Function.update w.poisoned m (w.poisoned m || false) m' = w.poisoned m'
  rw [Bool.or_false, Function.update_eq_self]

theorem exec_stores (h : World.exec faults t call c ending w = some (answer, w')) :
    Stores n call.rank c w w' := by
  unfold World.exec at h
  cases c with
  | lockSent | lockAcked =>
    obtain ⟨hprocess, hpoisoned⟩ := lock_stores h
    exact .of_process hprocess hpoisoned
  | lockSeen =>
    dsimp only at h
    split at h
    · contradiction
    rename_i x w₁ hlocked
    obtain ⟨hprocess, hpoisoned⟩ := lock_stores hlocked
    obtain ⟨-, rfl⟩ := Prod.mk.inj (Option.some.inj h)
    split
    · exact .of_process hprocess hpoisoned
    · exact .of_process hprocess hpoisoned
  | unlockSent d outgoing poison =>
    dsimp only at h
    split at h
    swap
    · contradiction
    obtain ⟨-, rfl⟩ := Prod.mk.inj (Option.some.inj h)
    refine .of_update rfl ?_ (fun d' => ?_) (.inl rfl) (.inl rfl)
    · rintro ⟨rfl, -⟩
      exact drop_poisoned _ _
    · by_cases hd : d' = d
      · subst hd
        exact .inr ⟨outgoing, poison, rfl, rfl, Function.update_self ..⟩
      · exact .inl (Function.update_of_ne hd _ _)
  | unlockSeen seen poison polled =>
    dsimp only at h
    split at h
    swap
    · contradiction
    obtain ⟨-, hw⟩ := Prod.mk.inj (Option.some.inj h)
    have hprocess : w'.process = Function.update w.process call.rank
        { w.process call.rank with seen := seen } := by
      cases polled with
      | none => rw [← hw]; rfl
      | some result => rw [← hw]; rfl
    have hpoisoned : w'.poisoned = (w.drop (.seen call.rank) poison).poisoned := by
      cases polled with
      | none => rw [← hw]; rfl
      | some result => rw [← hw]; rfl
    refine .of_update hprocess ?_ (fun _ => .inl rfl) (.inr ⟨seen, poison, polled, rfl, rfl, rfl⟩)
      (.inl rfl)
    rintro ⟨rfl, -⟩ m
    rw [hpoisoned, drop_poisoned]
  | unlockAcked acked poison =>
    dsimp only at h
    split at h
    swap
    · contradiction
    obtain ⟨-, rfl⟩ := Prod.mk.inj (Option.some.inj h)
    refine .of_update rfl ?_ (fun _ => .inl rfl) (.inl rfl) (.inr ⟨acked, poison, rfl, rfl, rfl⟩)
    rintro ⟨rfl, -⟩
    exact drop_poisoned _ _
  | readLocal | readLocalVolatile | readCounter =>
    obtain ⟨-, rfl⟩ := Prod.mk.inj (Option.some.inj h)
    exact .of_process rfl rfl
  | addLost | addCorrupt | maxLag | addFull =>
    obtain ⟨-, rfl⟩ := Prod.mk.inj (Option.some.inj h)
    exact .of_update rfl (fun _ _ => rfl) (fun _ => .inl rfl) (.inl rfl) (.inl rfl)
  | put dest disp image | fetchAdd dest disp value =>
    cases ending with
    | ok =>
      obtain ⟨-, rfl⟩ := Prod.mk.inj (Option.some.inj h)
      exact .of_update rfl (fun _ _ => rfl) (fun _ => .inl rfl) (.inl rfl) (.inl rfl)
    | before code =>
      dsimp only at h
      split at h
      · obtain ⟨-, rfl⟩ := Prod.mk.inj (Option.some.inj h)
        exact .of_process rfl rfl
      · contradiction
    | after code =>
      dsimp only at h
      split at h
      · obtain ⟨-, rfl⟩ := Prod.mk.inj (Option.some.inj h)
        exact .of_update rfl (fun _ _ => rfl) (fun _ => .inl rfl) (.inl rfl) (.inl rfl)
      · contradiction

def RingCall.guards : RingCall → Bool
  | .lockSent _ => true
  | .unlockSent _ _ _ => true
  | .lockSeen => true
  | .unlockSeen _ _ _ => true
  | .lockAcked => true
  | .unlockAcked _ _ => true
  | _ => false

/-- Any other command leaves the mutexes and what they guard alone. -/
theorem exec_unguarded (hc : c.guards = false)
    (h : World.exec faults t call c ending w = some (answer, w')) :
    w'.holder = w.holder ∧ ∀ i, (w'.process i).sent = (w.process i).sent ∧
      (w'.process i).seen = (w.process i).seen ∧ (w'.process i).acked = (w.process i).acked := by
  have hstores : Stores n call.rank c w w' := exec_stores h
  constructor
  · unfold World.exec at h
    cases c with
    | lockSent | unlockSent | lockSeen | unlockSeen | lockAcked | unlockAcked => contradiction
    | readLocal | readLocalVolatile | readCounter | addLost | addCorrupt | maxLag | addFull =>
      obtain ⟨-, rfl⟩ := Prod.mk.inj (Option.some.inj h)
      rfl
    | put dest disp image | fetchAdd dest disp value =>
      dsimp only at h
      split at h
      · obtain ⟨-, rfl⟩ := Prod.mk.inj (Option.some.inj h)
        rfl
      all_goals
        split at h
        · obtain ⟨-, rfl⟩ := Prod.mk.inj (Option.some.inj h)
          rfl
        · contradiction
  · intro i
    refine ⟨funext fun d => (hstores.sent i d).resolve_right ?_,
      (hstores.seen i).resolve_right ?_, (hstores.acked i).resolve_right ?_⟩
    · rintro ⟨_, _, rfl, -⟩
      contradiction
    · rintro ⟨_, _, _, rfl, -⟩
      contradiction
    · rintro ⟨_, _, rfl, -⟩
      contradiction

/-- What a command that is no unlock stores fits. -/
theorem fits_of_unguarded {r : Nat} (hc : c.guards = false) : Fits n r w c := by
  cases c with
  | unlockSent | unlockSeen | unlockAcked => contradiction
  | _ => trivial

/-- **A step keeps the invariant and what the others rely on**, when what it stores fits. -/
theorem hostile_step (hinv : HostileInv n ring w)
    (h : World.exec faults t call c ending w = some (answer, w')) (hfits : Fits n call.rank w c) :
    HostileInv n ring w' ∧ ∀ u, u ≠ t → HostileRely u w w' := by
  have hframed := exec_framed h
  have hstores : Stores n call.rank c w w' := exec_stores h
  have hclimbs : ∀ d, Below (w.process d).seen (w'.process d).seen := by
    intro d
    rcases hstores.seen d with hsame | ⟨seen, poison, polled, rfl, rfl, hseen⟩
    · exact hsame ▸ Below.refl _
    · exact hseen ▸ hfits.2.2
  have hlengths : ∀ d < n, (w'.process d).seen.length = n := by
    intro d hd
    rcases hstores.seen d with hsame | ⟨seen, poison, polled, rfl, rfl, hseen⟩
    · exact hsame ▸ hinv.cursors d hd
    · exact hseen ▸ hfits.2.1
  constructor
  · refine ⟨fun m => (hstores.poisoned hfits m).trans (hinv.clean m), fun s d => ?_, hlengths,
      fun d hd => ?_, fun d hd => ?_, fun rank request outcome hmem => ?_⟩
    · rcases hstores.sent s d with hsame | ⟨outgoing, poison, rfl, rfl, hsent⟩
      · exact hsame ▸ hinv.cached s d
      · exact hsent ▸ hfits.2.1
    · rcases hstores.acked d with hsame | ⟨acked, poison, rfl, rfl, hacked⟩
      · exact hsame ▸ hinv.mirrors d hd
      · exact hacked ▸ hfits.2.1
    · refine Below.trans ?_ (hclimbs d)
      rcases hstores.acked d with hsame | ⟨acked, poison, rfl, rfl, hacked⟩
      · exact hsame ▸ hinv.behind d hd
      · exact hacked ▸ hfits.2.2
    · rcases hframed.log with hlog | ⟨e, he, hlog⟩
      · exact hinv.returned rank request outcome (hlog ▸ hmem)
      · rw [hlog] at hmem
        rcases List.mem_cons.mp hmem with rfl | hmem
        · exact absurd trivial he
        · exact hinv.returned rank request outcome hmem
  · intro u hu
    have hother : ∀ m, w.holder m = some u → w.holder m ≠ some t := by
      intro m hm ht
      exact hu (Option.some.inj (hm.symm.trans ht))
    refine ⟨fun m => hframed.holder m u hu, fun s d hheld => hframed.sent s d (hother _ hheld),
      fun d hheld => hframed.seen d (hother _ hheld),
      fun d hheld => hframed.acked d (hother _ hheld), fun s d => ?_, hclimbs⟩
    rcases hstores.sent s d with hsame | ⟨outgoing, poison, rfl, rfl, hsent⟩
    · exact Nat.le_of_eq (by rw [hsame])
    · exact hsent ▸ hfits.2.2

end Steps

/-! ### Programs over hostile memory -/

section Programs

variable [Libraries] {n : Nat} {safe : Bool} {ring : Nat → Ring} {W : Wired n safe ring} {t : Nat}
  {call : Call n} {w w' : World} {ms : List Mutex}

abbrev hostileContract (ring : Nat → Ring) (t : Nat) (call : Call n) :
    Program.Contract RingCall RingCall.Answer World :=
  (hostileDiscipline n ring).contract (hostileMachine n ring) t call

abbrev hostileReturns (ring : Nat → Ring) (t : Nat) (call : Call n) : Outcome → World → Prop :=
  (hostileDiscipline n ring).Returns (hostileMachine n ring) t call

theorem hostileContract_intro {c : RingCall} {Q : c.Answer → World → Prop}
    (h : ∀ w₁, HostileRely t w w₁ → HostileInv n ring w₁ → ∀ ending stored a w₂,
      World.exec Faults.all t call c ending w₁ = some (stored, w₂) → c.Typed a →
      (c.reads = false → a = stored) → Fits n call.rank w₁ c ∧ Q a w₂) :
    hostileContract ring t call c Q w := by
  rintro w₁ hrely hinv a w₂ ⟨ending, stored, hexec, htyped, hreads⟩
  obtain ⟨hfits, hQ⟩ := h w₁ hrely hinv ending stored a w₂ hexec htyped hreads
  obtain ⟨hinv', hothers⟩ := hostile_step hinv hexec hfits
  exact ⟨hinv', hothers, hQ⟩

omit [Libraries] in
theorem Holding.hostile (h : Holding t ms w) (hrely : HostileRely t w w') : Holding t ms w' :=
  fun m => (hrely.held m).trans (h m)

theorem returns_hostile {outcome : Outcome} (hidle : Holding t [] w)
    (hunbroken : Unbroken (ring call.rank) call.request outcome) :
    hostileReturns ring t call outcome w := by
  intro w₁ hrely hinv
  refine ⟨{ hinv with returned := ?_ }, fun u _ => HostileRely.record u w₁ _,
    (hidle.hostile hrely).idle⟩
  intro rank request outcome' hmem
  rcases List.mem_cons.mp hmem with heq | hmem
  · injection heq with hrank hrequest houtcome
    subst hrank hrequest houtcome
    exact hunbroken
  · exact hinv.returned rank request outcome' hmem

/-- A result the window layer and the unchecked operations had no part in. -/
def Calm {α : Type} (result : Except Fail α) : Prop :=
  ∀ e, result = .error e → e ≠ .panic ∧ e.ofWindow = false

omit [Libraries] in
theorem Calm.poisons {α : Type} {result : Except Fail α} (h : Calm result) :
    poisons result = false := by
  cases result with
  | ok a => rfl
  | error e =>
    cases e with
    | error e => rfl
    | panic => exact absurd rfl (h .panic rfl).1

omit [Libraries] in
theorem Calm.error {α : Type} {e : Error} (h : (Fail.error e).ofWindow = false) :
    Calm (.error (.error e) : Except Fail α) := by
  intro f hf
  obtain rfl := Except.error.inj hf
  exact ⟨nofun, h⟩

omit [Libraries] in
theorem Calm.ok {α : Type} (a : α) : Calm (.ok a) := nofun

/-! ### Send -/

structure SendHolds (t s d : Nat) (stored : Outgoing) (w : World) : Prop where
  holding : Holding t [.sent s d] w
  stored : (w.process s).sent d = stored

omit [Libraries] in
theorem SendHolds.rely {s d : Nat} {stored : Outgoing} (h : SendHolds t s d stored w)
    (hrely : HostileRely t w w') : SendHolds t s d stored w' :=
  ⟨h.holding.hostile hrely,
    (hrely.sent s d (h.holding.held (List.mem_singleton.mpr rfl))).trans h.stored⟩

theorem sendLeaving_hostile {d : Nat} {stored outgoing : Outgoing} {result : Except Fail Nat}
    (h : SendHolds t call.rank d stored w) (hcached : outgoing.acked ≤ outgoing.sent)
    (hgrows : stored.acked ≤ outgoing.acked) (hcalm : Calm result) :
    (Send.leaving d result outgoing).wp (hostileContract ring t call) (hostileReturns ring t call)
      w := by
  unfold Send.leaving
  apply hostileContract_intro
  intro w₁ hrely hinv ending answer a w₂ hexec _ _
  have h₁ := h.rely hrely
  refine ⟨⟨hcalm.poisons, hcached, by rw [h₁.stored]; exact hgrows⟩, ?_⟩
  unfold World.exec at hexec
  dsimp only at hexec
  rw [if_pos (h₁.holding.held (List.mem_singleton.mpr rfl))] at hexec
  obtain ⟨-, rfl⟩ := Prod.mk.inj (Option.some.inj hexec)
  apply returns_hostile (Holding.drop (w := w₁.modify call.rank _) h₁.holding (by simp) _)
  intro e he
  cases result with
  | ok q => contradiction
  | error f =>
    obtain rfl := Option.some.inj he
    exact ⟨(hcalm f rfl).1, fun _ => (hcalm f rfl).2⟩

omit [Libraries] in
theorem SendHolds.exec {d : Nat} {stored : Outgoing} {c : RingCall} {ending : Ending}
    {answer : c.Answer} (h : SendHolds t call.rank d stored w) (hc : c.guards = false)
    (hexec : World.exec Faults.all t call c ending w = some (answer, w')) :
    SendHolds t call.rank d stored w' := by
  obtain ⟨hholder, hkept⟩ := exec_unguarded hc hexec
  exact ⟨h.holding.congr hholder, (congrFun (hkept call.rank).1 d).trans h.stored⟩

/-- Commands of a send that leave its mutex alone. -/
theorem wp_sendHolds {d : Nat} {stored : Outgoing} {c : RingCall}
    {k : c.Answer → RingProgram Outcome} (hc : c.guards = false)
    (h : SendHolds t call.rank d stored w)
    (hk : ∀ a w', SendHolds t call.rank d stored w' →
      (k a).wp (hostileContract ring t call) (hostileReturns ring t call) w') :
    (Program.op c k).wp (hostileContract ring t call) (hostileReturns ring t call) w := by
  apply hostileContract_intro
  intro w₁ hrely hinv ending answer a w₂ hexec _ _
  exact ⟨fits_of_unguarded hc, hk a w₂ ((h.rely hrely).exec hc hexec)⟩

theorem sendPutting_hostile {d : Nat} {l : Lane} {data : Bytes} {stored outgoing : Outgoing}
    (hlane : W.lane call.rank d = some l) (hdata : data.length ≤ l.capacity)
    (hmax : outgoing.sent + 1 ≤ u64Max) (h : SendHolds t call.rank d stored w)
    (hcached : outgoing.acked ≤ outgoing.sent) (hgrows : stored.acked ≤ outgoing.acked) :
    (Send.putting l d data outgoing).wp (hostileContract ring t call) (hostileReturns ring t call)
      w := by
  obtain ⟨image, himage, -⟩ := Ring.buildImage_says (W.lanes hlane) outgoing.image
    (Nat.succ_pos outgoing.sent) hmax hdata
  unfold Send.putting
  rw [himage]
  refine wp_sendHolds rfl h ?_
  rintro (code | u) w' h'
  · exact sendLeaving_hostile h' hcached hgrows (.error rfl)
  · exact sendLeaving_hostile h' (Nat.le_succ_of_le hcached) hgrows (.ok _)

/-- **A send keeps its counter between the cache and `sent`**, whatever it reads. -/
theorem sendHolding_hostile {d : Nat} {l : Lane} {data : Bytes} {stored : Outgoing}
    (hlane : W.lane call.rank d = some l) (hdata : data.length ≤ l.capacity)
    (hcached : stored.acked ≤ stored.sent) (h : SendHolds t call.rank d stored w) :
    (Send.holding safe l d data stored).wp (hostileContract ring t call)
      (hostileReturns ring t call) w := by
  have hleaving : ∀ {e : Error}, (Fail.error e).ofWindow = false →
      ∀ {w'}, SendHolds t call.rank d stored w' →
      (Send.leaving d (.error (.error e)) stored).wp (hostileContract ring t call)
        (hostileReturns ring t call) w' :=
    fun he _ h' => sendLeaving_hostile h' hcached (Nat.le_refl _) (.error he)
  unfold Send.holding Send.gated
  split
  · exact hleaving rfl h
  rename_i hmax
  have hmax := Nat.le_of_not_lt hmax
  split
  · exact sendPutting_hostile hlane hdata hmax h hcached (Nat.le_refl _)
  -- the cache is at most `sent`, so the subtraction stays in range
  rw [if_neg (Nat.not_lt.mpr (Nat.le_succ_of_le hcached))]
  split
  swap
  · exact sendPutting_hostile hlane hdata hmax h hcached (Nat.le_refl _)
  refine wp_sendHolds rfl h ?_
  intro (value : Nat) w' h'
  show (Send.refreshed l d data stored value).wp _ _ _
  unfold Send.refreshed
  split
  · exact hleaving rfl h'
  rename_i hback
  have hback := Nat.le_of_not_lt hback
  split
  · exact hleaving rfl h'
  rename_i hover
  have hover := Nat.le_of_not_lt hover
  split
  · refine wp_sendHolds rfl h' fun _ w'' h'' => ?_
    exact sendLeaving_hostile h'' hover hback (.error rfl)
  · exact sendPutting_hostile hlane hdata hmax h' hover hback

theorem send_hostile (W : Wired n safe ring) {destination : Int} {data : Bytes}
    (hcall : call.request = .send destination data) (hidle : Idle t w) :
    (Call.code ring call).wp (hostileContract ring t call) (hostileReturns ring t call) w := by
  have hholding := Idle.holding hidle
  have hs := call.rank.isLt
  have hreturns : ∀ {w'} {e : Error}, Holding t [] w' → (Fail.error e).ofWindow = false →
      hostileReturns ring t call (.sent (.error (.error e))) w' := by
    intro w' e hidle he
    apply returns_hostile hidle
    intro f hf
    obtain rfl := Option.some.inj hf
    exact ⟨nofun, fun _ => he⟩
  rw [send_code W hcall]
  unfold Send.code
  split
  · rename_i hpeer
    apply returns_hostile hholding
    intro f hf
    obtain rfl := Option.some.inj hf
    refine ⟨nofun, ?_⟩
    rw [hcall]
    rintro ⟨i, l, rfl, hl⟩
    obtain ⟨hi, -⟩ := List.getElem?_eq_some_iff.mp hl
    have hlength := (W.lengths _ hs).1
    omega
  split
  · exact hreturns hholding rfl
  rename_i l hlane
  split
  · exact hreturns hholding rfl
  rename_i hdata
  have hdata := Nat.le_of_not_lt hdata
  apply hostileContract_intro
  intro w₁ hrely hinv ending answer a w₂ hexec _ hreads
  obtain rfl := hreads rfl
  refine ⟨trivial, ?_⟩
  obtain ⟨hfree, rfl, rfl⟩ := lock_some hinv.clean hexec
  exact sendHolding_hostile hlane hdata (hinv.cached _ _)
    ⟨(hholding.hostile hrely).take, rfl⟩

/-! ### Acknowledge -/

structure AckHolds (n : Nat) (t d : Nat) (ms : List Mutex) (acked : List Nat) (w : World) :
    Prop where
  holding : Holding t ms w
  length : acked.length = n
  below : Below acked (w.process d).seen

omit [Libraries] in
theorem AckHolds.rely {d : Nat} {acked : List Nat} (h : AckHolds n t d ms acked w)
    (hrely : HostileRely t w w') : AckHolds n t d ms acked w' :=
  ⟨h.holding.hostile hrely, h.length, h.below.trans (hrely.climbs d)⟩

theorem ackLeaving_hostile {acked : List Nat} {result : Except Fail Unit}
    (h : AckHolds n t call.rank [.acked call.rank] acked w) (hcalm : Calm result) :
    (Ack.leaving result acked).wp (hostileContract ring t call) (hostileReturns ring t call) w := by
  unfold Ack.leaving
  apply hostileContract_intro
  intro w₁ hrely hinv ending answer a w₂ hexec _ _
  have h₁ := h.rely hrely
  refine ⟨⟨hcalm.poisons, h₁.length, h₁.below⟩, ?_⟩
  unfold World.exec at hexec
  dsimp only at hexec
  rw [if_pos (h₁.holding.held (List.mem_singleton.mpr rfl))] at hexec
  obtain ⟨-, rfl⟩ := Prod.mk.inj (Option.some.inj hexec)
  apply returns_hostile (Holding.drop (w := w₁.modify call.rank _) h₁.holding (by simp) _)
  intro e he
  cases result with
  | ok u => contradiction
  | error f =>
    obtain rfl := Option.some.inj he
    exact ⟨(hcalm f rfl).1, fun _ => (hcalm f rfl).2⟩

theorem ackAdding_hostile {s q mirror cursor : Nat} {l : Lane} {acked : List Nat}
    (h : AckHolds n t call.rank [.acked call.rank] acked w)
    (hcursor : (w.process call.rank).seen[s]? = some cursor) (hpass : q ≤ cursor) :
    (Ack.adding s l q mirror acked).wp (hostileContract ring t call) (hostileReturns ring t call)
      w := by
  unfold Ack.adding
  apply hostileContract_intro
  intro w₁ hrely hinv ending answer a w₂ hexec _ _
  refine ⟨trivial, ?_⟩
  have h₁ := h.rely hrely
  obtain ⟨hholder, hkept⟩ := exec_unguarded rfl hexec
  have h₂ : AckHolds n t call.rank [.acked call.rank] acked w₂ :=
    ⟨h₁.holding.congr hholder, h₁.length, (hkept call.rank).2.1 ▸ h₁.below⟩
  obtain ⟨cursor', hcursor', hmono⟩ := hrely.climbs _ _ _ hcursor
  have hseen : (w₂.process call.rank).seen[s]? = some cursor' := (hkept call.rank).2.1 ▸ hcursor'
  rcases a with code | previous
  · exact ackLeaving_hostile h₂ (.error rfl)
  show (ite (previous ≠ mirror) _ _ : RingProgram Outcome).wp _ _ _
  split
  · exact ackLeaving_hostile h₂ (.error rfl)
  · refine ackLeaving_hostile ⟨h₂.holding, ?_, ?_⟩ (.ok ())
    · rw [List.length_set, h₂.length]
    · exact h₂.below.set_left hseen (Nat.le_trans hpass hmono)

/-- An acknowledgement drops the cursors as it took them. -/
theorem ackCompared_hostile {s q mirror : Nat} {l : Lane} {acked seen : List Nat}
    {verdict : Except Fail Unit}
    (h : AckHolds n t call.rank [.seen call.rank, .acked call.rank] acked w)
    (hstored : (w.process call.rank).seen = seen) (hlength : seen.length = n)
    (hcalm : Calm verdict)
    (hpass : verdict = .ok () → ∃ cursor, seen[s]? = some cursor ∧ q ≤ cursor) :
    (Ack.compared s l q mirror acked seen verdict).wp (hostileContract ring t call)
      (hostileReturns ring t call) w := by
  unfold Ack.compared
  apply hostileContract_intro
  intro w₁ hrely hinv ending answer a w₂ hexec _ _
  have h₁ := h.rely hrely
  have hheld := h₁.holding.held (List.mem_cons_self ..)
  have hsame : (w₁.process call.rank).seen = seen :=
    (hrely.seen _ (h.holding.held (List.mem_cons_self ..))).trans hstored
  refine ⟨⟨hcalm.poisons, hlength, hsame ▸ Below.refl _⟩, ?_⟩
  unfold World.exec at hexec
  dsimp only at hexec
  rw [if_pos hheld] at hexec
  obtain ⟨-, rfl⟩ := Prod.mk.inj (Option.some.inj hexec)
  have hseen : (((w₁.modify call.rank fun p => { p with seen := seen }).drop (.seen call.rank)
      (poisons verdict)).process call.rank).seen = seen := by
    rw [World.drop, World.modify_self]
  have h₂ : AckHolds n t call.rank [.acked call.rank] acked
      ((w₁.modify call.rank fun p => { p with seen := seen }).drop (.seen call.rank)
        (poisons verdict)) := by
    refine ⟨Holding.drop (w := w₁.modify call.rank _) h₁.holding (by simp) _, h₁.length, ?_⟩
    rw [hseen, ← hsame]
    exact h₁.below
  cases verdict with
  | error e => exact ackLeaving_hostile h₂ fun f hf => hcalm f hf
  | ok u =>
    obtain ⟨cursor, hcursor, hq⟩ := hpass rfl
    exact ackAdding_hostile h₂ (hseen.symm ▸ hcursor) hq

theorem ackHolding_hostile {s q : Nat} {l : Lane} {acked : List Nat} (hs : s < n)
    (hcall : call.request ≠ .poll) (h : AckHolds n t call.rank [.acked call.rank] acked w) :
    (Ack.holding s l q acked).wp (hostileContract ring t call) (hostileReturns ring t call) w := by
  obtain ⟨mirror, hmirror⟩ : ∃ mirror, acked[s]? = some mirror :=
    ⟨_, List.getElem?_eq_getElem (by rw [h.length]; exact hs)⟩
  unfold Ack.holding
  rw [hmirror]
  dsimp only
  split
  · exact ackLeaving_hostile h (.ok ())
  unfold Ack.checking
  apply hostileContract_intro
  intro w₁ hrely hinv ending answer a w₂ hexec _ hreads
  obtain rfl := hreads rfl
  refine ⟨trivial, ?_⟩
  unfold World.exec at hexec
  dsimp only at hexec
  split at hexec
  · contradiction
  rename_i answer' w' hlock
  obtain ⟨hfree, rfl, rfl⟩ := lock_some hinv.clean hlock
  rw [if_neg fun h => hcall h.1] at hexec
  obtain ⟨rfl, rfl⟩ := Prod.mk.inj (Option.some.inj hexec)
  have h₁ := h.rely hrely
  have hlength := hinv.cursors _ call.rank.isLt
  obtain ⟨cursor, hcursor⟩ : ∃ cursor, (w₁.process call.rank).seen[s]? = some cursor :=
    ⟨_, List.getElem?_eq_getElem (by rw [hlength]; exact hs)⟩
  have hverdict : Ack.verdict s q (w₁.process call.rank).seen =
      if cursor < q then .error (.error (.ack s q cursor)) else .ok () := by
    unfold Ack.verdict
    rw [hcursor]
  refine ackCompared_hostile ⟨h₁.holding.take, h₁.length, h₁.below⟩ rfl hlength ?_ fun hok => ?_
  · rw [hverdict]
    split
    · exact .error rfl
    · exact .ok ()
  · rw [hverdict] at hok
    split at hok
    · contradiction
    · exact ⟨cursor, hcursor, Nat.le_of_not_lt (by assumption)⟩

theorem ack_hostile (W : Wired n safe ring) {origin : Int} {sequence : Nat}
    (hcall : call.request = .ack origin sequence) (hidle : Idle t w) :
    (Call.code ring call).wp (hostileContract ring t call) (hostileReturns ring t call) w := by
  have hholding := Idle.holding hidle
  have hd := call.rank.isLt
  rw [ack_code W hcall]
  unfold Ack.code
  split
  · rename_i hpeer
    apply returns_hostile hholding
    intro f hf
    obtain rfl := Option.some.inj hf
    refine ⟨nofun, ?_⟩
    rw [hcall]
    rintro ⟨i, l, rfl, hl⟩
    obtain ⟨hi, -⟩ := List.getElem?_eq_some_iff.mp hl
    have hlength := (W.lengths _ hd).2
    omega
  split
  · exact returns_hostile hholding nofun
  split
  · apply returns_hostile hholding
    intro f hf
    obtain rfl := Option.some.inj hf
    exact ⟨nofun, fun _ => rfl⟩
  rename_i l hlane
  apply hostileContract_intro
  intro w₁ hrely hinv ending answer a w₂ hexec _ hreads
  obtain rfl := hreads rfl
  refine ⟨trivial, ?_⟩
  obtain ⟨hfree, rfl, rfl⟩ := lock_some hinv.clean hexec
  refine ackHolding_hostile (W.lanes hlane).source (by rw [hcall]; simp)
    ⟨(hholding.hostile hrely).take, hinv.mirrors _ hd, hinv.behind _ hd⟩

/-! ### Poll -/

/-- The loop of a poll lowers no cursor, and stops at a lane that lapped or not at all. -/
def PollKeeps (n : Nat) (seen : List Nat) (r : Except Fail (List Message) × List Nat) : Prop :=
  Calm r.1 ∧ r.2.length = n ∧ Below seen r.2

omit [Libraries] in
theorem calm_polledLanes (messages : List Message) (seen : List Nat)
    (stop : Option (Nat × Nat × Nat)) : Calm (polledLanes messages seen stop).1 := by
  rcases stop with _ | ⟨o, expected, found⟩
  · exact .ok _
  · exact .error rfl

theorem PollRun.keeps {d : Nat} {lanes : List (Nat × Lane)} {seen seen' : List Nat}
    {before after : List Event} {messages : List Message} {lags : List Nat}
    {stop : Option (Nat × Nat × Nat)}
    (h : PollRun d safe lanes seen before messages seen' after lags stop) :
    seen'.length = seen.length ∧ Below seen seen' := by
  induction h with
  | done => exact ⟨rfl, Below.refl _⟩
  | lane hcursor hdrain _ _ ih =>
    have hcount := hdrain.climb.count
    have hraised := Below.set_right _ hcursor (Nat.le_trans (Nat.le_add_right _ _) hcount)
    exact ⟨ih.1.trans (List.length_set ..), hraised.trans ih.2⟩
  | lapped hcursor hdrain =>
    have hcount := hdrain.climb.count
    exact ⟨List.length_set .., Below.set_right _ hcursor
      (Nat.le_trans (Nat.le_add_right _ _) hcount)⟩

/-- Whatever the slot window answers, the loop keeps to it. -/
theorem pollLanes_keeps (W : Wired n safe ring) {d : Fin n} {seen : List Nat}
    (hseen : seen.length = n) :
    ((ring d).pollLanes (ring d).incoming [] seen).ReturnsFor RingCall.Typed
      (PollKeeps n seen) := by
  have hwp : ((ring d).pollLanes (ring d).incoming [] seen).wp (observed d)
      (fun r _ => PollKeeps n seen r) (World.fresh n) := by
    rw [W.incoming_into d.isLt]
    apply pollLanes_runs (W.receives d.isLt) (W.incomingLanes d.isLt) hseen
    intro polled seen' lags stop w' h _ _
    obtain ⟨hlength, hbelow⟩ := h.keeps
    have hsecond : (polledLanes ([] ++ polled) seen' stop).2 = seen' := by
      cases stop with
      | none => rfl
      | some x => rfl
    exact ⟨calm_polledLanes _ _ _, by rw [hsecond, hlength, hseen], by rw [hsecond]; exact hbelow⟩
  apply Program.returnsFor_of_wp _ hwp
  intro c P w h a ha
  have hapart := Apart.refl d w
  cases c with
  | readLocal | readLocalVolatile => exact ⟨_, h a _ ⟨w, hapart, ha, rfl⟩⟩
  | addLost | addCorrupt | maxLag => exact ⟨_, h a _ ⟨w, hapart, rfl⟩⟩
  | _ => exact ⟨w, h a w trivial⟩

structure PollHolds (t d : Nat) (seen : List Nat) (w : World) : Prop where
  holding : Holding t [.seen d] w
  stored : (w.process d).seen = seen

theorem poll_hostile (W : Wired n safe ring) (hcall : call.request = .poll) (hidle : Idle t w) :
    (Call.code ring call).wp (hostileContract ring t call) (hostileReturns ring t call) w := by
  have hholding := Idle.holding hidle
  have hd := call.rank.isLt
  have hmono := Discipline.contract_monotone (hostileDiscipline n ring)
    (hostileMachine n ring) t call
  unfold Call.code
  rw [hcall]
  dsimp only
  apply hostileContract_intro
  intro w₁ hrely hinv ending answer a w₂ hexec _ hreads
  obtain rfl := hreads rfl
  refine ⟨trivial, ?_⟩
  unfold World.exec at hexec
  dsimp only at hexec
  split at hexec
  · contradiction
  rename_i answer' w' hlock
  obtain ⟨hfree, rfl, rfl⟩ := lock_some hinv.clean hlock
  rw [if_pos ⟨hcall, rfl⟩] at hexec
  obtain ⟨rfl, rfl⟩ := Prod.mk.inj (Option.some.inj hexec)
  generalize hs : (w₁.process call.rank).seen = seen
  have hseen : seen.length = n := hs ▸ hinv.cursors _ hd
  have hstart : PollHolds t call.rank seen
      ((w₁.take t (.seen call.rank)).record (.polling call.rank)) :=
    ⟨(hholding.hostile hrely).take.congr rfl, hs⟩
  -- the loop keeps the mutex and the cursors under it, whatever it reads
  have hstep : ∀ c w, RingCall.receiving c → PollHolds t call.rank seen w →
      hostileContract ring t call c (fun a w' => c.Typed a ∧ PollHolds t call.rank seen w') w := by
    intro c w hc h
    apply hostileContract_intro
    intro w₁ hrely hinv ending answer a w₂ hexec htyped _
    have hguards : c.guards = false := by
      cases c with
      | readLocal | readLocalVolatile | addLost | addCorrupt | maxLag => rfl
      | _ => exact hc.elim
    obtain ⟨hholder, hkept⟩ := exec_unguarded hguards hexec
    refine ⟨fits_of_unguarded hguards, htyped, (h.holding.hostile hrely).congr hholder, ?_⟩
    rw [(hkept _).2.1, hrely.seen _ (h.holding.held (List.mem_singleton.mpr rfl)), h.stored]
  have hloop := Program.wp_of_returnsFor hmono hstep
    ((ring call.rank).only_pollLanes (ring call.rank).incoming [] seen)
    (pollLanes_keeps W hseen) hstart
  show ((((ring call.rank).pollLanes (ring call.rank).incoming [] seen).bind _).bind _).wp _ _ _
  rw [Program.bind_assoc, Program.wp_bind]
  apply Program.wp_mono hmono _ hloop
  rintro ⟨result, seen'⟩ w₂ ⟨⟨hcalm, hlength, hbelow⟩, h⟩
  apply hostileContract_intro
  intro w₃ hrely' hinv' ending' answer' a' w₄ hexec' _ _
  have hheld := (h.holding.hostile hrely').held (List.mem_singleton.mpr rfl)
  have hstored := (hrely'.seen _ (h.holding.held (List.mem_singleton.mpr rfl))).trans h.stored
  refine ⟨⟨hcalm.poisons, hlength, hstored ▸ hbelow⟩, ?_⟩
  unfold World.exec at hexec'
  dsimp only at hexec'
  rw [if_pos hheld] at hexec'
  obtain ⟨-, rfl⟩ := Prod.mk.inj (Option.some.inj hexec')
  have hback := h.holding.hostile hrely'
  have hheld' : Holding t [.seen call.rank]
      (w₃.modify call.rank fun p => { p with seen := seen' }) := hback
  have hleft : Holding t [] (((w₃.modify call.rank fun p => { p with seen := seen' }).drop
      (.seen call.rank) (poisons result)).record (.polled call.rank result)) :=
    hheld'.drop (by simp) (poisons result)
  show hostileReturns ring t call (.polled result) _
  apply returns_hostile hleft
  intro e he
  cases result with
  | ok messages => contradiction
  | error f =>
    obtain rfl := Option.some.inj he
    exact ⟨(hcalm f rfl).1, fun _ => (hcalm f rfl).2⟩

/-- Every call is verified over hostile memory. -/
theorem hostile_verified (W : Wired n safe ring) :
    (hostileDiscipline n ring).Verified (hostileMachine n ring) := by
  intro t call w _ hidle
  obtain ⟨rank, request⟩ := call
  cases request with
  | send destination data => exact send_hostile W rfl hidle
  | poll => exact poll_hostile W rfl hidle
  | ack origin sequence => exact ack_hostile W rfl hidle

omit [Libraries] in
theorem hostileInv_fresh (n : Nat) (ring : Nat → Ring) : HostileInv n ring (World.fresh n) where
  clean _ := rfl
  cached _ _ := Nat.le_refl 0
  cursors _ _ := List.length_replicate ..
  mirrors _ _ := List.length_replicate ..
  behind _ _ := Below.refl _
  returned _ _ _ hmem := nomatch hmem

/-! ### Nothing leaves its range -/

/-- What holds over hostile memory in a configuration. -/
structure InRange (n : Nat) (ring : Nat → Ring)
    (x : Config RingCall RingCall.Answer World (Call n) Outcome) : Prop where
  unbroken : ∀ t call outcome, x.threads t = some ⟨call, .ret outcome⟩ →
    Unbroken (ring call.rank) call.request outcome
  cached : ∀ s d, ((x.shared.process s).sent d).acked ≤ ((x.shared.process s).sent d).sent
  mirrored : ∀ d < n, ∀ (o mirror : Nat), (x.shared.process d).acked[o]? = some mirror →
    ∃ cursor, (x.shared.process d).seen[o]? = some cursor ∧ mirror ≤ cursor
  ascends : ∀ y, (hostileMachine n ring).Step x y →
    (∀ s d, ((x.shared.process s).sent d).acked ≤ ((y.shared.process s).sent d).acked) ∧
    ∀ d (o cursor : Nat), (x.shared.process d).seen[o]? = some cursor →
      ∃ cursor', (y.shared.process d).seen[o]? = some cursor' ∧ cursor ≤ cursor'

/-- **No operation of the ring leaves its range**, whatever the windows answer: no call
    panics, and on configured lanes the window layer refuses no access. -/
theorem nothing_out_of_range {comm : Fin n → Comm} {lists : Fin n → List LaneSpec}
    (hring : Constructed n comm lists safe ring)
    {x : Config RingCall RingCall.Answer World (Call n) Outcome}
    (hreach : (hostileMachine n ring).Reach (World.fresh n) x) : InRange n ring x := by
  obtain ⟨W⟩ := hring.wired
  have hholds := Discipline.sound (hostile_verified W) (hostileInv_fresh n ring)
    (fun _ _ => nofun) hreach
  have hinv : HostileInv n ring x.shared := hholds.inv
  refine ⟨fun t call outcome hat => ?_, hinv.cached, hinv.behind, fun y hstep => ?_⟩
  · obtain ⟨hinv', -, -⟩ := hholds.running t _ hat x.shared (HostileRely.refl t _) hinv
    exact hinv'.returned _ _ _ (List.mem_cons_self ..)
  · obtain ⟨u, hrely⟩ : ∃ u, HostileRely u x.shared y.shared := by
      cases hstep with
      | call => exact ⟨0, HostileRely.refl 0 _⟩
      | @command w threads t call c cont a w' hat hexec =>
        obtain ⟨-, hothers, -⟩ := hholds.running t _ hat w (HostileRely.refl t w) hinv a w' hexec
        exact ⟨t + 1, hothers (t + 1) (Nat.succ_ne_self t)⟩
      | «return» => exact ⟨0, HostileRely.record 0 _ _⟩
    exact ⟨hrely.cached, hrely.climbs⟩

end Programs

/-- Counters read as their greatest value, and as 7 before an addition; probed words are ones. -/
def lyingExec {n : Nat} (t : Nat) (call : Call n) (c : RingCall) (ending : Ending) (w : World) :
    Option (c.Answer × World) :=
  match c with
  | .readCounter _ => some (u64Max, w)
  | .readLocalVolatile disp len =>
    some (List.replicate len 255,
      w.record (.read call.rank disp ((w.process call.rank).slots.read disp len)))
  | .fetchAdd dest disp value => some (.ok 7, w.add dest.toNat disp value)
  | c => World.exec Faults.all t call c ending w

theorem lyingExec_hostile {n : Nat} (t : Nat) (call : Call n) (c : RingCall) (ending : Ending)
    (w : World) (a : c.Answer) (w' : World)
    (h : lyingExec t call c ending w = some (a, w')) : hostileExec t call c w a w' := by
  cases c with
  | readCounter disp =>
    obtain ⟨rfl, rfl⟩ := Prod.mk.inj (Option.some.inj h)
    exact ⟨ending, _, rfl, Nat.le_refl u64Max, nofun⟩
  | readLocalVolatile disp len =>
    obtain ⟨rfl, rfl⟩ := Prod.mk.inj (Option.some.inj h)
    exact ⟨ending, _, rfl, List.length_replicate .., nofun⟩
  | readLocal disp len =>
    obtain ⟨rfl, rfl⟩ := Prod.mk.inj (Option.some.inj h)
    exact ⟨ending, _, rfl, Memory.length_read _ _ _, nofun⟩
  | fetchAdd dest disp value =>
    obtain ⟨rfl, rfl⟩ := Prod.mk.inj (Option.some.inj h)
    refine ⟨.ok, _, rfl, fun previous hprevious => ?_, nofun⟩
    obtain rfl := Except.ok.inj hprevious
    decide
  | _ => exact ⟨ending, a, h, trivial, fun _ => rfl⟩

/-- A full lane, a counter that reads as its greatest value, a poll over ones and an
    acknowledgement of what has not come. -/
def lyingCalls : List (Nat × Call 2) :=
  [(0, ⟨pairSource, .send 1 [1]⟩), (0, ⟨pairSource, .send 1 [2]⟩), (0, ⟨pairSource, .send 1 [3]⟩),
    (0, ⟨pairSource, .send 1 [4]⟩), (1, ⟨pairDestination, .poll⟩), (1, ⟨pairDestination, .ack 0 1⟩)]

theorem nothing_out_of_range_pair : ∃ w,
    (@hostileMachine libraries 2 (pairRing true 3 8)).alone lyingExec .ok lyingCalls
      (World.fresh 2) =
      some w ∧ (w.process 1).corrupt = 1 ∧
    @InRange libraries 2 (pairRing true 3 8) (Machine.idle w) := by
  let _ := libraries
  have hrun : ((hostileMachine 2 (pairRing true 3 8)).alone lyingExec .ok lyingCalls
      (World.fresh 2)).map (fun w => (w.process 1).corrupt) = some 1 := by decide +kernel
  obtain ⟨w, halone, hcorrupt⟩ := Option.map_eq_some_iff.mp hrun
  exact ⟨w, halone, hcorrupt, nothing_out_of_range (pair_three true)
    (Machine.reach_alone lyingExec_hostile .refl halone)⟩

end MpiRma
