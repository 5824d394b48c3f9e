/-
  MpiRma/Tracking.lean
  ====================
  **Where the threads of a machine stand.**  A `Tracking` says of each running thread
  what the rest of its program and the shared state have to do with one another; if its
  own commands, the commands of others and their returns keep this, it holds of every
  thread in every reachable configuration.

  `Machine.Ends` says how the call of a thread may end from a configuration on.  A
  program that yields one result for all answers its commands can get ends with that
  result and no other.
-/
import MpiRma.Interleaving

namespace MpiRma

open Program

variable {C : Type} {A : C → Type} {S K R α : Type}

/-- For all answers `allowed` to its commands, a program returns `r`. -/
def Program.Yields (allowed : (c : C) → A c → Prop) (r : α) : Program C A α → Prop
  | .ret a => a = r
  | .op c k => ∀ a, allowed c a → (k a).Yields allowed r

namespace Machine

/-- Thread `t` in call `k` issues `c`, is answered `a` and goes on with `cont a`. -/
structure Acts (M : Machine C A S K R) (t : Nat) (k : K) (c : C) (cont : A c → Program C A R)
    (a : A c) (x y : Config C A S K R) : Prop where
  before : x.threads t = some ⟨k, .op c cont⟩
  exec : M.exec t k c x.shared a y.shared
  after : y.threads = Function.update x.threads t (some ⟨k, cont a⟩)

def Moves (M : Machine C A S K R) (u : Nat) (s s' : S) : Prop :=
  ∃ k, (∃ c a, M.exec u k c s a s') ∨ ∃ r, s' = M.finish u k r s

def During (M : Machine C A S K R) (t : Nat) : Config C A S K R → Config C A S K R → Prop :=
  Relation.ReflTransGen fun x y => M.Step x y ∧ (y.threads t).isSome

/-- From `x` on, the call of thread `t` can end with `r`. -/
def Ends (M : Machine C A S K R) (t : Nat) (x : Config C A S K R) (r : R) : Prop :=
  ∃ y k, M.During t x y ∧ y.threads t = some ⟨k, .ret r⟩

variable {M : Machine C A S K R} {t : Nat} {k : K} {x y : Config C A S K R}

theorem Acts.step {c : C} {cont : A c → Program C A R} {a : A c} (h : M.Acts t k c cont a x y) :
    M.Step x y := by
  obtain ⟨s, th⟩ := x
  obtain ⟨s', th'⟩ := y
  obtain ⟨hat, hexec, hafter⟩ := h
  dsimp only at hafter
  subst hafter
  exact .command t k c cont a s' hat hexec

theorem Acts.at_after {c : C} {cont : A c → Program C A R} {a : A c}
    (h : M.Acts t k c cont a x y) : y.threads t = some ⟨k, cont a⟩ := by
  rw [h.after, Function.update_self]

theorem During.steps (h : M.During t x y) : Relation.ReflTransGen M.Step x y :=
  Relation.ReflTransGen.mono (fun _ _ hstep => hstep.1) _ _ h

/-- A step that leaves thread `t` in its call is its own command, or does not touch it. -/
theorem Step.lasting {p : Program C A R} (h : M.Step x y) (hx : x.threads t = some ⟨k, p⟩)
    (hy : (y.threads t).isSome) :
    y.threads t = some ⟨k, p⟩ ∨ ∃ c cont a, p = .op c cont ∧ M.Acts t k c cont a x y := by
  cases h with
  | @call s th u k' hfree =>
    have hne : t ≠ u := by
      rintro rfl
      exact absurd (hx.symm.trans hfree) (by simp)
    left
    simpa [hne] using hx
  | @command s th u k' c cont a s' hat hexec =>
    by_cases hut : t = u
    · subst hut
      obtain ⟨rfl, rfl⟩ := Thread.mk.inj (Option.some.inj (hat.symm.trans hx))
      exact .inr ⟨c, cont, a, rfl, hat, hexec, rfl⟩
    · left
      simpa [hut] using hx
  | @«return» s th u k' r hat =>
    by_cases hut : t = u
    · subst hut
      simp at hy
    · left
      simpa [hut] using hx

/-- What a program yields for all answers the machine gives is the only way its call ends. -/
theorem Ends.yields {allowed : (c : C) → A c → Prop} {p : Program C A R} {r r' : R}
    (hallowed : ∀ c s a s', M.exec t k c s a s' → allowed c a)
    (hat : x.threads t = some ⟨k, p⟩) (hp : p.Yields allowed r) (h : M.Ends t x r') : r' = r := by
  obtain ⟨y, k', hduring, hy⟩ := h
  obtain ⟨p', hat', hp'⟩ : ∃ p', y.threads t = some ⟨k, p'⟩ ∧ p'.Yields allowed r := by
    clear hy
    induction hduring with
    | refl => exact ⟨p, hat, hp⟩
    | tail _ hstep ih =>
      obtain ⟨p₁, hat₁, hp₁⟩ := ih
      rcases hstep.1.lasting hat₁ hstep.2 with hsame | ⟨c, cont, a, rfl, hacts⟩
      · exact ⟨p₁, hsame, hp₁⟩
      · exact ⟨cont a, hacts.at_after, hp₁ a (hallowed c _ a _ hacts.exec)⟩
  rw [hy] at hat'
  obtain ⟨-, rfl⟩ := Thread.mk.inj (Option.some.inj hat')
  exact hp'

/-- A condition every step meets rules out no end. -/
theorem Ends.restrict {cond : Nat → K → C → S → Prop} {r : R} (h : M.Ends t x r)
    (hcond : ∀ t k c s, cond t k c s) : (M.restrict cond).Ends t x r := by
  obtain ⟨y, k, hduring, hy⟩ := h
  exact ⟨y, k, Relation.ReflTransGen.mono
    (fun _ _ hstep => ⟨Step.restrict hstep.1 hcond, hstep.2⟩) _ _ hduring, hy⟩

/-- A call can end the way it does when its thread runs alone. -/
theorem Ends.of_runs {p : Program C A R} {r : R} {s' : S} (hat : x.threads t = some ⟨k, p⟩)
    (h : p.Runs (M.exec t k) x.shared r s') : M.Ends t x r := by
  induction p generalizing x with
  | ret a =>
    obtain ⟨rfl, rfl⟩ := h
    exact ⟨x, k, .refl, hat⟩
  | op c cont ih =>
    obtain ⟨a, s₁, hexec, hrest⟩ := h
    let y : Config C A S K R := ⟨s₁, Function.update x.threads t (some ⟨k, cont a⟩)⟩
    have hacts : M.Acts t k c cont a x y := ⟨hat, hexec, rfl⟩
    obtain ⟨z, k', hduring, hz⟩ := ih a (x := y) hacts.at_after hrest
    exact ⟨z, k', .head ⟨hacts.step, by rw [hacts.at_after]; rfl⟩ hduring, hz⟩

end Machine

/-! ### Tracking -/

structure Maintained (D : Discipline S) (M : Machine C A S K R)
    (P : Nat → K → Program C A R → S → Prop) : Prop where
  step : ∀ {t k c cont a s s'}, D.inv s → D.inv s' → P t k (.op c cont) s →
    M.exec t k c s a s' → P t k (cont a) s'
  stable : ∀ {t u k p s s'}, u ≠ t → M.Moves u s s' → D.inv s' → D.rely t s s' →
    P t k p s → P t k p s'

structure Tracking (D : Discipline S) (M : Machine C A S K R)
    (P : Nat → K → Program C A R → S → Prop) : Prop extends Maintained D M P where
  start : ∀ {t k s}, D.inv s → D.idle t s → P t k (M.code k) s

section Tracking

variable {D : Discipline S} {M : Machine C A S K R} {P : Nat → K → Program C A R → S → Prop}
  {x y : Config C A S K R}

/-- While its call lasts, what is kept of a thread holds of it. -/
theorem Maintained.lasting (hP : Maintained D M P) (hV : D.Verified M) (hx : D.Holds M x)
    (hstep : M.Step x y) {t : Nat} {th : Thread C A K R} (hat : x.threads t = some th)
    (h : P t th.call th.program x.shared) (hlasts : (y.threads t).isSome) :
    ∃ p, y.threads t = some ⟨th.call, p⟩ ∧ P t th.call p y.shared := by
  have hy := hx.step hV hstep
  have hsame : ∀ {u : Nat} {th' : Option (Thread C A K R)}, t ≠ u →
      Function.update x.threads u th' t = some ⟨th.call, th.program⟩ := by
    intro u th' hne
    rw [Function.update_of_ne hne]
    exact hat
  cases hstep with
  | @call s threads u k hfree =>
    have hne : t ≠ u := by
      rintro rfl
      exact absurd (hat.symm.trans hfree) (by simp)
    exact ⟨th.program, hsame hne, h⟩
  | @command s threads u k c cont a s' hat' hexec =>
    obtain ⟨-, hothers, -⟩ := hx.running u _ hat' s (D.rely_refl u s) hx.inv a s' hexec
    by_cases hne : t = u
    · subst hne
      obtain rfl := Option.some.inj (hat.symm.trans hat')
      exact ⟨cont a, Function.update_self .., hP.step hx.inv hy.inv h hexec⟩
    · exact ⟨th.program, hsame hne,
        hP.stable (Ne.symm hne) ⟨k, .inl ⟨c, a, hexec⟩⟩ hy.inv (hothers t hne) h⟩
  | @«return» s threads u k r hat' =>
    obtain ⟨-, hothers, -⟩ := hx.running u _ hat' s (D.rely_refl u s) hx.inv
    by_cases hne : t = u
    · subst hne
      simp at hlasts
    · exact ⟨th.program, hsame hne,
        hP.stable (Ne.symm hne) ⟨k, .inr ⟨r, rfl⟩⟩ hy.inv (hothers t hne) h⟩

/-- What is kept of a thread holds when its call ends. -/
theorem Maintained.ends (hP : Maintained D M P) (hV : D.Verified M) (hx : D.Holds M x)
    {t : Nat} {k : K}
    {p : Program C A R} (hat : x.threads t = some ⟨k, p⟩) (h : P t k p x.shared) {r : R}
    (hends : M.Ends t x r) : ∃ s, P t k (.ret r) s := by
  obtain ⟨y, k', hduring, hy⟩ := hends
  obtain ⟨p', hat', h'⟩ : ∃ p', y.threads t = some ⟨k, p'⟩ ∧ P t k p' y.shared := by
    clear hy
    induction hduring with
    | refl => exact ⟨p, hat, h⟩
    | tail hbefore hstep ih =>
      obtain ⟨p₁, hat₁, h₁⟩ := ih
      exact hP.lasting hV (hx.steps hV (Machine.During.steps hbefore)) hstep.1 hat₁ h₁ hstep.2
  obtain ⟨-, rfl⟩ := Thread.mk.inj (Option.some.inj (hy.symm.trans hat'))
  exact ⟨y.shared, h'⟩

theorem Tracking.keeps (hP : Tracking D M P) (hV : D.Verified M) (hx : D.Holds M x)
    (h : ∀ t th, x.threads t = some th → P t th.call th.program x.shared)
    (hstep : M.Step x y) : ∀ t th, y.threads t = some th → P t th.call th.program y.shared := by
  intro t th hth
  cases hxt : x.threads t with
  | some th₀ =>
    obtain ⟨p, hp, hgo⟩ := hP.lasting hV hx hstep hxt (h t th₀ hxt) (by rw [hth]; rfl)
    obtain rfl := Option.some.inj (hth.symm.trans hp)
    exact hgo
  | none =>
    -- the thread has just been called
    cases hstep with
    | @call s threads u k hfree =>
      by_cases hne : t = u
      · subst hne
        obtain rfl : th = ⟨k, M.code k⟩ := by simpa using hth.symm
        exact hP.start hx.inv (hx.idle t hfree)
      · exact absurd (hxt.symm.trans ((Function.update_of_ne hne _ _).symm.trans hth)) (by simp)
    | @command s threads u k c cont a s' hat hexec =>
      have hne : t ≠ u := by
        rintro rfl
        exact absurd (hxt.symm.trans hat) (by simp)
      exact absurd (hxt.symm.trans ((Function.update_of_ne hne _ _).symm.trans hth)) (by simp)
    | @«return» s threads u k r hat =>
      have hne : t ≠ u := by
        rintro rfl
        exact absurd (hxt.symm.trans hat) (by simp)
      exact absurd (hxt.symm.trans ((Function.update_of_ne hne _ _).symm.trans hth)) (by simp)

/-- What is tracked holds of every thread in every reachable configuration. -/
theorem Tracking.reach (hP : Tracking D M P) (hV : D.Verified M) {init : S} (hinv : D.inv init)
    (hidle : ∀ t, D.idle t init) {c : Config C A S K R} (hc : M.Reach init c) :
    ∀ t th, c.threads t = some th → P t th.call th.program c.shared := by
  induction hc with
  | refl => exact fun t th h => by simp [Machine.idle] at h
  | tail hbefore hstep ih => exact hP.keeps hV (Discipline.sound hV hinv hidle hbefore) ih hstep

end Tracking

end MpiRma
