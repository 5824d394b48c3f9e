/-
  MpiRma/Collective.lean
  ======================
  **Ranks running the same kind of program, meeting in collective commands.**  A
  finished run of one rank is described by its trace, the commands it issued with
  their answers.  Some commands are collective: every rank has to issue its own at the
  same time, and the answers depend on what all of them passed.  `CollectiveRun`
  says that the ranks' traces, read through their collective commands, are the
  columns of one table of collective operations.
-/
import MpiRma.Program

namespace MpiRma

namespace Program

variable {C : Type} {A : C → Type} {α β : Type}

/-- `p` issues the commands of `τ` in order, gets its answers, and returns `b`. -/
def Follows : Program C A α → List ((c : C) × A c) → α → Prop
  | .ret a, τ, b => τ = [] ∧ b = a
  | .op c k, τ, b => ∃ a τ', τ = ⟨c, a⟩ :: τ' ∧ (k a).Follows τ' b

theorem follows_bind {p : Program C A α} {f : α → Program C A β} {τ : List ((c : C) × A c)}
    {b : β} : (p.bind f).Follows τ b ↔
      ∃ a τ₁ τ₂, τ = τ₁ ++ τ₂ ∧ p.Follows τ₁ a ∧ (f a).Follows τ₂ b := by
  induction p generalizing τ with
  | ret a =>
    constructor
    · intro h
      exact ⟨a, [], τ, rfl, ⟨rfl, rfl⟩, h⟩
    · rintro ⟨_, _, τ₂, rfl, ⟨rfl, rfl⟩, h⟩
      exact h
  | op c k ih =>
    constructor
    · rintro ⟨x, τ', rfl, h⟩
      obtain ⟨a, τ₁, τ₂, rfl, h₁, h₂⟩ := (ih x).mp h
      exact ⟨a, ⟨c, x⟩ :: τ₁, τ₂, rfl, ⟨x, τ₁, rfl, h₁⟩, h₂⟩
    · rintro ⟨a, _, τ₂, rfl, ⟨x, τ₁, rfl, h₁⟩, h₂⟩
      exact ⟨x, τ₁ ++ τ₂, rfl, (ih x).mpr ⟨a, τ₁, τ₂, rfl, h₁, h₂⟩⟩

theorem follows_cons {c : C} {k : A c → Program C A α} {a : A c}
    {τ : List ((c : C) × A c)} {b : α} :
    (Program.op c k).Follows (⟨c, a⟩ :: τ) b ↔ (k a).Follows τ b := by
  constructor
  · rintro ⟨a', τ', heq, h⟩
    cases heq
    exact h
  · intro h
    exact ⟨a, τ, rfl, h⟩

theorem follows_op_nil {c : C} {k : A c → Program C A α} {b : α} :
    ¬ (Program.op c k).Follows [] b := by
  rintro ⟨a, τ, heq, -⟩
  simp at heq

def traceWith (h : (c : C) → A c) : Program C A α → List ((c : C) × A c) × α
  | .ret a => ([], a)
  | .op c k => (⟨c, h c⟩ :: ((k (h c)).traceWith h).1, ((k (h c)).traceWith h).2)

theorem traceWith_op (h : (c : C) → A c) (c : C) (k : A c → Program C A α) :
    ((Program.op c k).traceWith h).2 = ((k (h c)).traceWith h).2 := rfl

theorem traceWith_cons (h : (c : C) → A c) (c : C) (k : A c → Program C A α) :
    (Program.op c k).traceWith h =
      (⟨c, h c⟩ :: ((k (h c)).traceWith h).1, ((k (h c)).traceWith h).2) := rfl

theorem follows_traceWith (h : (c : C) → A c) (p : Program C A α) :
    p.Follows (p.traceWith h).1 (p.traceWith h).2 := by
  induction p with
  | ret a => exact ⟨rfl, rfl⟩
  | op c k ih => exact ⟨h c, _, rfl, ih (h c)⟩

end Program

namespace Code

variable {C : Type} {A : C → Type} {σ ε α β : Type} {v v' : σ}
  {τ : List ((c : C) × A c)} {b : β}

/-- A run that ends well went well through both halves. -/
theorem follows_bind_ok {m : Code C A σ ε α} {f : α → Code C A σ ε β} :
    ((m >>= f) v).Follows τ (.ok b, v') ↔
      ∃ a v₁ τ₁ τ₂, τ = τ₁ ++ τ₂ ∧ (m v).Follows τ₁ (.ok a, v₁) ∧
        (f a v₁).Follows τ₂ (.ok b, v') := by
  constructor
  · intro h
    obtain ⟨⟨r, v₁⟩, τ₁, τ₂, rfl, h₁, h₂⟩ := Program.follows_bind.mp h
    cases r with
    | ok a => exact ⟨a, v₁, τ₁, τ₂, rfl, h₁, h₂⟩
    | error e =>
      obtain ⟨-, hend⟩ := h₂
      simp at hend
  · rintro ⟨a, v₁, τ₁, τ₂, rfl, h₁, h₂⟩
    exact Program.follows_bind.mpr ⟨(.ok a, v₁), τ₁, τ₂, rfl, h₁, h₂⟩

theorem follows_perform {c : C} {f : A c → Code C A σ ε β} {r : Except ε β × σ} :
    ((perform c >>= f) v).Follows τ r ↔
      ∃ a τ', τ = ⟨c, a⟩ :: τ' ∧ (f a v).Follows τ' r := Iff.rfl

theorem follows_lift_ok {x : Except ε α} {f : α → Code C A σ ε β} :
    ((lift x >>= f) v).Follows τ (.ok b, v') ↔ ∃ a, x = .ok a ∧ (f a v).Follows τ (.ok b, v') := by
  cases x with
  | ok a =>
    constructor
    · intro h
      exact ⟨a, rfl, h⟩
    · rintro ⟨_, hx, h⟩
      obtain rfl := Except.ok.inj hx
      exact h
  | error e =>
    constructor
    · rintro ⟨-, hend⟩
      simp at hend
    · rintro ⟨a, hx, -⟩
      exact nomatch hx

theorem follows_throw {e : ε} : ¬ ((throw e : Code C A σ ε β) v).Follows τ (.ok b, v') := by
  rintro ⟨-, hend⟩
  simp at hend

theorem follows_pure {b' : β} :
    ((pure b' : Code C A σ ε β) v).Follows τ (.ok b, v') ↔ τ = [] ∧ b = b' ∧ v' = v := by
  constructor
  · rintro ⟨rfl, hend⟩
    simp only [Prod.mk.injEq, Except.ok.injEq] at hend
    exact ⟨rfl, hend.1, hend.2⟩
  · rintro ⟨rfl, rfl, rfl⟩
    exact ⟨rfl, rfl⟩

end Code

/-! ### Collective runs -/

section

variable {C : Type} {A : C → Type} {α : Type} {n : Nat}

/-- The ranks' programs ran to the results `r`: each rank followed a trace, and the
    collective commands of the traces line up, row by row, as operations that `joint`
    allows together. -/
def CollectiveRun (collective : C → Bool) (joint : (Fin n → (c : C) × A c) → Prop)
    (p : Fin n → Program C A α) (r : Fin n → α) : Prop :=
  ∃ (τ : Fin n → List ((c : C) × A c)) (rows : List (Fin n → (c : C) × A c)),
    (∀ i, (p i).Follows (τ i) (r i)) ∧
    (∀ i, (τ i).filter (fun e => collective e.1) = rows.map (· i)) ∧
    ∀ row ∈ rows, joint row

end

end MpiRma
