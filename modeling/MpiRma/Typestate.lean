/-
  MpiRma/Typestate.lean
  =====================
  **Resources that commands may use only in some states.**  A typestate watches the
  commands of a program: it says which commands are proper in a state, which answers may
  come there, and which state an answered command leads to.  Read as a contract it verifies
  a program for every such answer, and what is verified holds of every trace the program
  follows and of each part of it.
-/
import MpiRma.Collective

namespace MpiRma

open Program

/-- The commands proper in a state, the answers that may come, and the state after a command
    and its answer. -/
structure Typestate (C : Type) (A : C → Type) (S : Type) where
  proper : S → C → Bool
  admits : S → (c : C) → A c → Bool
  after : S → (c : C) → A c → S

namespace Typestate

variable {C : Type} {A : C → Type} {S α : Type} (P : Typestate C A S)

def contract : Contract C A S := fun c Q s =>
  P.proper s c = true ∧ ∀ a, P.admits s c a = true → Q a (P.after s c a)

theorem contract_monotone : P.contract.Monotone := by
  intro c Q R s hQR h
  constructor
  · exact h.1
  · intro a ha
    exact hQR a _ (h.2 a ha)

def run (s : S) (τ : List ((c : C) × A c)) : S := τ.foldl (fun s e => P.after s e.1 e.2) s

/-- Every command of a trace is proper in the state the commands before it led to. -/
def Keeps : S → List ((c : C) × A c) → Prop
  | _, [] => True
  | s, e :: τ => P.proper s e.1 = true ∧ Keeps (P.after s e.1 e.2) τ

/-- Every answer of a trace is admitted in the state the commands before it led to. -/
def Answered : S → List ((c : C) × A c) → Prop
  | _, [] => True
  | s, e :: τ => P.admits s e.1 e.2 = true ∧ Answered (P.after s e.1 e.2) τ

instance decidableAnswered : (s : S) → (τ : List ((c : C) × A c)) → Decidable (P.Answered s τ)
  | _, [] => .isTrue trivial
  | s, e :: τ =>
    have := decidableAnswered (P.after s e.1 e.2) τ
    inferInstanceAs (Decidable (P.admits s e.1 e.2 = true ∧ P.Answered (P.after s e.1 e.2) τ))

@[simp] theorem run_nil (s : S) : P.run s [] = s := rfl

@[simp] theorem run_cons (s : S) (e : (c : C) × A c) (τ : List ((c : C) × A c)) :
    P.run s (e :: τ) = P.run (P.after s e.1 e.2) τ := rfl

theorem keeps_append {s : S} {τ τ' : List ((c : C) × A c)} :
    P.Keeps s (τ ++ τ') ↔ P.Keeps s τ ∧ P.Keeps (P.run s τ) τ' := by
  induction τ generalizing s with
  | nil => simp [Keeps]
  | cons e τ ih => simp [Keeps, ih, and_assoc]

/-- **What is verified against a typestate holds of every trace.** -/
theorem wp_follows {p : Program C A α} {Q : α → S → Prop} {s : S} {τ : List ((c : C) × A c)}
    {r : α} (hp : p.wp P.contract Q s) (h : p.Follows τ r) (ha : P.Answered s τ) :
    P.Keeps s τ ∧ Q r (P.run s τ) := by
  induction p generalizing s τ with
  | ret a =>
    rcases h with ⟨rfl, rfl⟩
    exact ⟨trivial, hp⟩
  | op c k ih =>
    rcases h with ⟨a, τ', rfl, h⟩
    rcases ha with ⟨hadmits, ha⟩
    rcases ih a (hp.2 a hadmits) h ha with ⟨hkeeps, hQ⟩
    constructor
    · exact ⟨hp.1, hkeeps⟩
    · exact hQ

/-- A quantity that commands raise by what they give and lower by what they take is the
    balance over a trace. -/
theorem run_balance (m : S → Nat) (gives takes : ((c : C) × A c) → Bool)
    (hstep : ∀ s c a, P.proper s c = true → P.admits s c a = true →
      m (P.after s c a) + (if takes ⟨c, a⟩ then 1 else 0) = m s + if gives ⟨c, a⟩ then 1 else 0)
    {s : S} {τ : List ((c : C) × A c)} (h : P.Keeps s τ) (ha : P.Answered s τ) :
    m (P.run s τ) + τ.countP takes = m s + τ.countP gives := by
  induction τ generalizing s with
  | nil => simp
  | cons e τ ih =>
    rcases h with ⟨hproper, h⟩
    rcases ha with ⟨hadmits, ha⟩
    have hrest := ih h ha
    have hfirst : m (P.after s e.1 e.2) + (if takes e then 1 else 0) =
        m s + if gives e then 1 else 0 := hstep s e.1 e.2 hproper hadmits
    rw [run_cons, List.countP_cons, List.countP_cons]
    omega

/-- What no command of a trace changes. -/
theorem run_keeps (I : S → Prop) (quiet : ((c : C) × A c) → Prop)
    (hstep : ∀ s c a, P.proper s c = true → quiet ⟨c, a⟩ → I s → I (P.after s c a))
    {s : S} {τ : List ((c : C) × A c)} (h : P.Keeps s τ) (hquiet : ∀ e ∈ τ, quiet e) (hs : I s) :
    I (P.run s τ) := by
  induction τ generalizing s with
  | nil => exact hs
  | cons e τ ih =>
    rcases h with ⟨hproper, h⟩
    apply ih h
    · intro e' he'
      exact hquiet e' (List.mem_cons_of_mem _ he')
    · exact hstep s e.1 e.2 hproper (hquiet e (List.mem_cons_self ..)) hs

end Typestate

end MpiRma
