/-
  MpiRma/Program.lean
  ===================
  **Programs as trees of commands.**  A program over a signature (`C`, `A`) either
  returns or issues a command `c : C` and continues with the answer in `A c`.  The
  meaning of the commands is left open: a *contract* gives each command a predicate
  transformer, and `Program.wp` lifts it to whole programs.  One program can then be
  read against a quiet memory, against a memory that answers anything, and against
  a memory other threads are writing, with the same rules.

  `Code` adds what a function holding a lock guard needs: the guarded data it may
  change, and early exits that keep those changes.
-/
import Mathlib.Logic.Function.Basic

namespace MpiRma

/-! ### Programs -/

/-- A program that issues commands `c : C`, each answered in `A c`, and returns an `α`. -/
inductive Program (C : Type) (A : C → Type) (α : Type) where
  | ret (a : α)
  | op (c : C) (k : A c → Program C A α)

namespace Program

variable {C : Type} {A : C → Type} {C' : Type} {A' : C' → Type} {S α β γ : Type}

def bind : Program C A α → (α → Program C A β) → Program C A β
  | .ret a, f => f a
  | .op c k, f => .op c fun a => (k a).bind f

theorem bind_ret (p : Program C A α) : p.bind .ret = p := by
  induction p with
  | ret a => rfl
  | op c k ih => simp only [bind, ih]

theorem bind_assoc (p : Program C A α) (f : α → Program C A β) (g : β → Program C A γ) :
    (p.bind f).bind g = p.bind fun a => (f a).bind g := by
  induction p with
  | ret a => rfl
  | op c k ih => simp only [bind, ih]

/-- Replace every command by a program over another signature. -/
def lower (h : (c : C) → Program C' A' (A c)) : Program C A α → Program C' A' α
  | .ret a => .ret a
  | .op c k => (h c).bind fun a => (k a).lower h

/-! ### Contracts and weakest preconditions -/

/-- A contract says, for each command, from which states it leads to a given
    condition on its answer and the state after it. -/
abbrev Contract (C : Type) (A : C → Type) (S : Type) : Type :=
  (c : C) → (A c → S → Prop) → S → Prop

/-- A weaker condition is reached from every state a stronger one is reached from. -/
def Contract.Monotone (T : Contract C A S) : Prop :=
  ∀ c (P Q : A c → S → Prop) s, (∀ a s', P a s' → Q a s') → T c P s → T c Q s

/-- The states from which every run of a program under contract `T` ends in `Q`. -/
def wp (T : Contract C A S) : Program C A α → (α → S → Prop) → S → Prop
  | .ret a, Q, s => Q a s
  | .op c k, Q, s => T c (fun a s' => (k a).wp T Q s') s

theorem wp_bind (T : Contract C A S) (p : Program C A α) (f : α → Program C A β)
    (Q : β → S → Prop) (s : S) :
    (p.bind f).wp T Q s ↔ p.wp T (fun a s' => (f a).wp T Q s') s := by
  induction p generalizing s with
  | ret a => rfl
  | op c k ih => simp only [bind, wp, ih]

theorem wp_mono {T : Contract C A S} (hT : T.Monotone) {p : Program C A α}
    {P Q : α → S → Prop} {s : S} (hPQ : ∀ a s', P a s' → Q a s') (h : p.wp T P s) :
    p.wp T Q s := by
  induction p generalizing s with
  | ret a => exact hPQ a s h
  | op c k ih => exact hT c _ _ s (fun a s' hk => ih a hk) h

/-- A contract that promises more can stand in for one that promises less. -/
theorem wp_contract {T T' : Contract C A S} (hT' : T'.Monotone)
    (h : ∀ c Q s, T c Q s → T' c Q s) {p : Program C A α} {Q : α → S → Prop} {s : S}
    (hp : p.wp T Q s) : p.wp T' Q s := by
  induction p generalizing s with
  | ret a => exact hp
  | op c k ih => exact hT' c _ _ s (fun a s' hk => ih a hk) (h c _ s hp)

def Only (P : C → Prop) : Program C A α → Prop
  | .ret _ => True
  | .op c k => P c ∧ ∀ a, (k a).Only P

theorem Only.mono {P Q : C → Prop} {p : Program C A α} (h : p.Only P) (hPQ : ∀ c, P c → Q c) :
    p.Only Q := by
  induction p with
  | ret a => trivial
  | op c k ih => exact ⟨hPQ c h.1, fun a => ih a (h.2 a)⟩

theorem only_bind {P : C → Prop} {p : Program C A α} {f : α → Program C A β} (hp : p.Only P)
    (hf : ∀ a, (f a).Only P) : (p.bind f).Only P := by
  induction p with
  | ret a => exact hf a
  | op c k ih => exact ⟨hp.1, fun a => ih a (hp.2 a)⟩

/-- Whatever it is answered, a program returns only values in `Q`. -/
def Returns (Q : α → Prop) : Program C A α → Prop
  | .ret a => Q a
  | .op _ k => ∀ a, (k a).Returns Q

theorem Returns.mono {Q Q' : α → Prop} {p : Program C A α} (h : p.Returns Q)
    (hQ : ∀ a, Q a → Q' a) : p.Returns Q' := by
  induction p with
  | ret a => exact hQ a h
  | op c k ih => exact fun a => ih a (h a)

theorem returns_trivial (p : Program C A α) : p.Returns fun _ => True := by
  induction p with
  | ret a => trivial
  | op c k ih => exact ih

theorem returns_bind {Q : α → Prop} {R : β → Prop} {p : Program C A α} {f : α → Program C A β}
    (hp : p.Returns Q) (hf : ∀ a, Q a → (f a).Returns R) : (p.bind f).Returns R := by
  induction p with
  | ret a => exact hf a hp
  | op c k ih => exact fun a => ih a (hp a)

/-- To move from one contract to another it is enough to compare them on the commands a
    program issues, in states that keep an invariant the second contract preserves. -/
theorem wp_only {T T' : Contract C A S} (hT' : T'.Monotone) {P : C → Prop} {I : S → Prop}
    (hstep : ∀ c Q s, P c → I s → T c Q s → T' c (fun a s' => I s' ∧ Q a s') s)
    {p : Program C A α} {Q : α → S → Prop} {s : S} (hP : p.Only P) (hI : I s)
    (hp : p.wp T Q s) : p.wp T' (fun a s' => I s' ∧ Q a s') s := by
  induction p generalizing s with
  | ret a => exact ⟨hI, hp⟩
  | op c k ih =>
    exact hT' c _ _ s (fun a s' h => ih a (hP.2 a) h.1 h.2) (hstep c _ s hP.1 hI hp)

def ReturnsFor (allowed : (c : C) → A c → Prop) (Q : α → Prop) : Program C A α → Prop
  | .ret a => Q a
  | .op c k => ∀ a, allowed c a → (k a).ReturnsFor allowed Q

/-- What is verified of a returned value holds for all answers the contract provides for. -/
theorem returnsFor_of_wp {T : Contract C A S} {allowed : (c : C) → A c → Prop}
    (hT : ∀ c P s, T c P s → ∀ a, allowed c a → ∃ s', P a s') {p : Program C A α} {Q : α → Prop}
    {s : S} (hp : p.wp T (fun a _ => Q a) s) : p.ReturnsFor allowed Q := by
  induction p generalizing s with
  | ret a => exact hp
  | op c k ih =>
    intro a ha
    obtain ⟨s', hk⟩ := hT c _ s hp a ha
    exact ih a hk

/-- A program whose commands are answered within `allowed` and keep `I` returns in `Q`, with
    `I` kept. -/
theorem wp_of_returnsFor {T : Contract C A S} (hT : T.Monotone)
    {allowed : (c : C) → A c → Prop} {P : C → Prop} {I : S → Prop}
    (hstep : ∀ c s, P c → I s → T c (fun a s' => allowed c a ∧ I s') s) {p : Program C A α}
    {Q : α → Prop} {s : S} (hP : p.Only P) (hp : p.ReturnsFor allowed Q) (hI : I s) :
    p.wp T (fun a s' => Q a ∧ I s') s := by
  induction p generalizing s with
  | ret a => exact ⟨hp, hI⟩
  | op c k ih =>
    apply hT c _ _ s _ (hstep c s hP.1 hI)
    rintro a s' ⟨ha, hI'⟩
    exact ih a (hP.2 a) (hp a ha) hI'

/-! ### Runs of one program -/

def Runs (sem : (c : C) → S → A c → S → Prop) : Program C A α → S → α → S → Prop
  | .ret a, s, b, s' => b = a ∧ s' = s
  | .op c k, s, b, s' => ∃ a s₁, sem c s a s₁ ∧ (k a).Runs sem s₁ b s'

theorem runs_bind {sem : (c : C) → S → A c → S → Prop} {p : Program C A α}
    {f : α → Program C A β} {s s' : S} {b : β} :
    (p.bind f).Runs sem s b s' ↔ ∃ a s₁, p.Runs sem s a s₁ ∧ (f a).Runs sem s₁ b s' := by
  induction p generalizing s with
  | ret a =>
    constructor
    · intro h
      exact ⟨a, s, ⟨rfl, rfl⟩, h⟩
    · rintro ⟨_, _, ⟨rfl, rfl⟩, h⟩
      exact h
  | op c k ih =>
    constructor
    · rintro ⟨x, s₁, hsem, h⟩
      obtain ⟨a, s₂, h₁, h₂⟩ := (ih x).mp h
      exact ⟨a, s₂, ⟨x, s₁, hsem, h₁⟩, h₂⟩
    · rintro ⟨a, s₂, ⟨x, s₁, hsem, h₁⟩, h₂⟩
      exact ⟨x, s₁, hsem, (ih x).mpr ⟨a, s₂, h₁, h₂⟩⟩

/-- A program of commands that keep `I` keeps it. -/
theorem Runs.keeps {sem : (c : C) → S → A c → S → Prop} {P : C → Prop} {I : S → Prop}
    (hstep : ∀ c s a s', P c → sem c s a s' → I s → I s') {p : Program C A α} (hP : p.Only P)
    {s s' : S} {b : α} (h : p.Runs sem s b s') (hI : I s) : I s' := by
  induction p generalizing s with
  | ret a =>
    obtain ⟨-, rfl⟩ := h
    exact hI
  | op c k ih =>
    obtain ⟨a, s₁, hsem, hk⟩ := h
    exact ih a (hP.2 a) hk (hstep c s a s₁ hP.1 hsem hI)

/-- A program of commands that are never refused runs to its end. -/
theorem runs_of_only {sem : (c : C) → S → A c → S → Prop} {P : C → Prop}
    (hstep : ∀ c s, P c → ∃ a s', sem c s a s') {p : Program C A α} (hP : p.Only P) (s : S) :
    ∃ b s', p.Runs sem s b s' := by
  induction p generalizing s with
  | ret a => exact ⟨a, s, rfl, rfl⟩
  | op c k ih =>
    obtain ⟨a, s₁, hsem⟩ := hstep c s hP.1
    obtain ⟨b, s', hk⟩ := ih a (hP.2 a) s₁
    exact ⟨b, s', a, s₁, hsem, hk⟩

def Contract.ofSem (sem : (c : C) → S → A c → S → Prop) : Contract C A S :=
  fun c Q s => ∀ a s', sem c s a s' → Q a s'

theorem Contract.ofSem_monotone (sem : (c : C) → S → A c → S → Prop) :
    (Contract.ofSem sem).Monotone :=
  fun _ _ _ _ hPQ h a s' hsem => hPQ a s' (h a s' hsem)

/-- What is verified against the contract of a semantics holds after every run. -/
theorem wp_runs {sem : (c : C) → S → A c → S → Prop} {p : Program C A α}
    {Q : α → S → Prop} {s s' : S} {b : α}
    (hp : p.wp (Contract.ofSem sem) Q s) (hr : p.Runs sem s b s') : Q b s' := by
  induction p generalizing s with
  | ret a =>
    obtain ⟨rfl, rfl⟩ := hr
    exact hp
  | op c k ih =>
    obtain ⟨a, s₁, hsem, hk⟩ := hr
    exact ih a (hp a s₁ hsem) hk

def eval (h : (c : C) → S → A c × S) : Program C A α → S → α × S
  | .ret a, s => (a, s)
  | .op c k, s => (k (h c s).1).eval h (h c s).2

end Program

/-! ### Code under a lock guard -/

/-- Code that works on guarded data `σ`, may exit early with `ε`, and keeps what it
    did to the data either way. -/
def Code (C : Type) (A : C → Type) (σ ε α : Type) : Type :=
  σ → Program C A (Except ε α × σ)

namespace Code

variable {C : Type} {A : C → Type} {σ τ ε α β S : Type}

instance : Monad (Code C A σ ε) where
  pure a := fun v => .ret (.ok a, v)
  bind m f := fun v => (m v).bind fun
    | (.ok a, v') => f a v'
    | (.error e, v') => .ret (.error e, v')

def throw (e : ε) : Code C A σ ε α := fun v => .ret (.error e, v)

def get : Code C A σ ε σ := fun v => .ret (.ok v, v)

def set (v : σ) : Code C A σ ε Unit := fun _ => .ret (.ok (), v)

/-- Go on with the value of a pure computation, or exit with its error. -/
def lift (x : Except ε α) : Code C A σ ε α := fun v => .ret (x, v)

def perform (c : C) : Code C A σ ε (A c) := fun v => .op c fun a => .ret (.ok a, v)

theorem lift_ok_bind (a : α) (f : α → Code C A σ ε β) (v : σ) :
    ((lift (.ok a) : Code C A σ ε α) >>= f) v = f a v := rfl

theorem lift_error_bind (e : ε) (f : α → Code C A σ ε β) (v : σ) :
    ((lift (.error e) : Code C A σ ε α) >>= f) v = .ret (.error e, v) := rfl

theorem bind_assoc (m : Code C A σ ε α) (f : α → Code C A σ ε β) (g : β → Code C A σ ε τ) :
    m >>= f >>= g = m >>= fun a => f a >>= g := by
  funext v
  refine (Program.bind_assoc (m v) _ _).trans ?_
  show (m v).bind _ = (m v).bind _
  congr 1
  funext r
  rcases r with ⟨_ | a, v'⟩
  · rfl
  · rfl

theorem bind_pure (m : Code C A σ ε α) : m >>= pure = m := by
  funext v
  refine Eq.trans ?_ (Program.bind_ret (m v))
  show (m v).bind _ = (m v).bind _
  congr 1
  funext r
  rcases r with ⟨_ | a, v'⟩
  · rfl
  · rfl

def Only (P : C → Prop) (m : Code C A σ ε α) : Prop := ∀ v, (m v).Only P

section Only

variable {P : C → Prop}

theorem Only.bind {m : Code C A σ ε α} {f : α → Code C A σ ε β} (hm : m.Only P)
    (hf : ∀ a, (f a).Only P) : (m >>= f).Only P := by
  intro v
  refine Program.only_bind (hm v) ?_
  rintro ⟨_ | a, v'⟩
  · trivial
  · exact hf a v'

theorem Only.pure (a : α) : (Pure.pure a : Code C A σ ε α).Only P := fun _ => trivial
theorem Only.throw (e : ε) : (Code.throw e : Code C A σ ε α).Only P := fun _ => trivial
theorem Only.get : (Code.get : Code C A σ ε σ).Only P := fun _ => trivial
theorem Only.set (v : σ) : (Code.set v : Code C A σ ε Unit).Only P := fun _ => trivial
theorem Only.lift (x : Except ε α) : (Code.lift x : Code C A σ ε α).Only P := fun _ => trivial

theorem Only.perform {c : C} (h : P c) : (Code.perform c : Code C A σ ε (A c)).Only P :=
  fun _ => ⟨h, fun _ => trivial⟩

end Only

section Rules

variable (T : Program.Contract C A S) (Q : Except ε β × σ → S → Prop) (v : σ) (s : S)

@[simp] theorem wp_pure (b : β) :
    ((pure b : Code C A σ ε β) v).wp T Q s ↔ Q (.ok b, v) s := Iff.rfl

@[simp] theorem wp_throw (e : ε) :
    ((throw e : Code C A σ ε β) v).wp T Q s ↔ Q (.error e, v) s := Iff.rfl

theorem wp_bind (m : Code C A σ ε α) (f : α → Code C A σ ε β) :
    ((m >>= f) v).wp T Q s ↔ (m v).wp T (fun r s' =>
      match r with
      | (.ok a, v') => (f a v').wp T Q s'
      | (.error e, v') => Q (.error e, v') s') s := by
  refine (Program.wp_bind T (m v) _ Q s).trans (Iff.of_eq ?_)
  congr 1
  funext r s'
  rcases r with ⟨_ | a, v'⟩ <;> rfl

@[simp] theorem wp_get_bind (f : σ → Code C A σ ε β) :
    ((get >>= f) v).wp T Q s ↔ (f v v).wp T Q s := Iff.rfl

@[simp] theorem wp_set_bind (v' : σ) (f : Unit → Code C A σ ε β) :
    ((set v' >>= f) v).wp T Q s ↔ (f () v').wp T Q s := Iff.rfl

@[simp] theorem wp_pure_bind (a : α) (f : α → Code C A σ ε β) :
    (((pure a : Code C A σ ε α) >>= f) v).wp T Q s ↔ (f a v).wp T Q s := Iff.rfl

@[simp] theorem wp_throw_bind (e : ε) (f : α → Code C A σ ε β) :
    (((throw e : Code C A σ ε α) >>= f) v).wp T Q s ↔ Q (.error e, v) s := Iff.rfl

@[simp] theorem wp_lift_ok_bind (a : α) (f : α → Code C A σ ε β) :
    (((lift (.ok a) : Code C A σ ε α) >>= f) v).wp T Q s ↔ (f a v).wp T Q s := Iff.rfl

@[simp] theorem wp_lift_error_bind (e : ε) (f : α → Code C A σ ε β) :
    (((lift (.error e) : Code C A σ ε α) >>= f) v).wp T Q s ↔ Q (.error e, v) s := Iff.rfl

@[simp] theorem wp_perform_bind (c : C) (f : A c → Code C A σ ε β) :
    ((perform c >>= f) v).wp T Q s ↔ T c (fun a s' => (f a v).wp T Q s') s := Iff.rfl

end Rules

end Code

end MpiRma
