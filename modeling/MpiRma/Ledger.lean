/-
  MpiRma/Ledger.lean
  ==================
  **What calls have done and what they report.**  A ledger values the commands of a call and
  the result it returns in a commutative monoid.  When every path through the code of a call
  does exactly what the result on that path reports, what was done and what was reported
  differ by what the calls under way have done, and agree when no call is under way:
  `Ledger.Sound.settled`.
-/
import MpiRma.Interleaving
import Mathlib.Algebra.BigOperators.Finsupp.Basic

namespace MpiRma

open Program

variable {C : Type} {A : C → Type} {S K R V α : Type}

/-- The value of a command with its answer and of a result, what a shared state shows as
    done, and what it shows as reported. -/
structure Ledger (C : Type) (A : C → Type) (S K R V : Type) where
  price : K → (c : C) → A c → V
  worth : K → R → V
  done : S → V
  reported : S → V

namespace Ledger

variable [AddCommMonoid V] (Λ : Ledger C A S K R V)

/-! ### Programs -/

def paying (k : K) : Contract C A V := fun c Q paid => ∀ a, Q a (paid + Λ.price k c a)

/-- After `paid`, whatever the commands are answered, the call will have done what its result
    reports. -/
def Pays (k : K) (p : Program C A R) (paid : V) : Prop :=
  p.wp (Λ.paying k) (fun r total => total = Λ.worth k r) paid

variable {Λ} {k : K} {paid : V}

/-- Commands without a price change nothing. -/
theorem wp_free {p : Program C A α} {Q : α → V → Prop}
    (hp : p.Only fun c => ∀ a, Λ.price k c a = 0) (hQ : ∀ r, Q r paid) :
    p.wp (Λ.paying k) Q paid := by
  induction p with
  | ret r => exact hQ r
  | op c cont ih =>
    intro a
    rw [hp.1 a, add_zero]
    exact ih a (hp.2 a)

/-! ### Machines -/

variable (Λ) in
structure Sound (M : Machine C A S K R) (init : S) : Prop where
  start : Λ.done init = Λ.reported init
  code : ∀ k, Λ.Pays k (M.code k) 0
  exec : ∀ {t k c s a s'}, M.exec t k c s a s' →
    Λ.done s' = Λ.done s + Λ.price k c a ∧ Λ.reported s' = Λ.reported s
  finish : ∀ t k r s, Λ.done (M.finish t k r s) = Λ.done s ∧
    Λ.reported (M.finish t k r s) = Λ.reported s + Λ.worth k r

variable (Λ) in
structure Open (x : Config C A S K R) (paid : Nat →₀ V) : Prop where
  idle : ∀ t, x.threads t = none → paid t = 0
  running : ∀ t k p, x.threads t = some ⟨k, p⟩ → Λ.Pays k p (paid t)
  balance : Λ.done x.shared = Λ.reported x.shared + paid.sum fun _ v => v

variable {M : Machine C A S K R} {init s : S} {x y : Config C A S K R}

theorem sum_add_single (paid : Nat →₀ V) (t : Nat) (v : V) :
    ((paid + Finsupp.single t v).sum fun _ v => v) = (paid.sum fun _ v => v) + v := by
  rw [Finsupp.sum_add_index' (fun _ => rfl) fun _ _ _ => rfl, Finsupp.sum_single_index rfl]

theorem sum_erase (paid : Nat →₀ V) (t : Nat) :
    (paid t + (paid.erase t).sum fun _ v => v) = paid.sum fun _ v => v :=
  Finsupp.add_sum_erase' paid t (fun _ v => v) fun _ => rfl

theorem Sound.step (h : Λ.Sound M init) {paid : Nat →₀ V} (hopen : Λ.Open x paid)
    (hs : M.Step x y) : ∃ paid', Λ.Open y paid' := by
  obtain ⟨hidle, hrunning, hbalance⟩ := hopen
  cases hs with
  | @call s th t k hfree =>
    refine ⟨paid, ?_, ?_, hbalance⟩
    · intro u hu
      apply hidle
      by_cases hut : u = t
      · simp [hut] at hu
      · simpa [hut] using hu
    · intro u k' p hu
      by_cases hut : u = t
      · subst hut
        obtain ⟨rfl, rfl⟩ : k = k' ∧ M.code k = p := by simpa using hu
        rw [hidle u hfree]
        exact h.code k
      · exact hrunning u k' p (by simpa [hut] using hu)
  | @command s th t k c cont a s' hat hexec =>
    obtain ⟨hdone, hreported⟩ := h.exec hexec
    refine ⟨paid + Finsupp.single t (Λ.price k c a), ?_, ?_, ?_⟩
    · intro u hu
      by_cases hut : u = t
      · simp [hut] at hu
      · have hnone : th u = none := by simpa [hut] using hu
        simp [hidle u hnone, Ne.symm hut]
    · intro u k' p hu
      by_cases hut : u = t
      · subst hut
        obtain ⟨rfl, rfl⟩ : k = k' ∧ cont a = p := by simpa using hu
        have hnext : Λ.Pays k (cont a) (paid u + Λ.price k c a) := hrunning u k _ hat a
        simpa using hnext
      · have hsome : th u = some ⟨k', p⟩ := by simpa [hut] using hu
        have hsame := hrunning u k' p hsome
        simpa [Ne.symm hut] using hsame
    · dsimp only at hbalance ⊢
      rw [hdone, hreported, hbalance, sum_add_single, add_assoc]
  | @«return» s th t k r hat =>
    obtain ⟨hdone, hreported⟩ := h.finish t k r s
    have hpaid : paid t = Λ.worth k r := hrunning t k _ hat
    refine ⟨paid.erase t, ?_, ?_, ?_⟩
    · intro u hu
      by_cases hut : u = t
      · simp [hut]
      · rw [Finsupp.erase_ne hut]
        exact hidle u (by simpa [hut] using hu)
    · intro u k' p hu
      by_cases hut : u = t
      · simp [hut] at hu
      · rw [Finsupp.erase_ne hut]
        exact hrunning u k' p (by simpa [hut] using hu)
    · dsimp only at hbalance ⊢
      rw [hdone, hreported, hbalance, add_assoc, ← hpaid, sum_erase]

/-- **The books of a run**: what was done is what was reported and what the calls under way have
    done. -/
theorem Sound.reach (h : Λ.Sound M init) (hx : M.Reach init x) : ∃ paid, Λ.Open x paid := by
  induction hx with
  | refl =>
    refine ⟨0, fun _ _ => rfl, ?_, ?_⟩
    · intro t k p hp
      simp [Machine.idle] at hp
    · simpa [Machine.idle] using h.start
  | tail _ hstep ih =>
    obtain ⟨paid, hopen⟩ := ih
    exact h.step hopen hstep

/-- **With no call under way everything that was done was reported.** -/
theorem Sound.settled (h : Λ.Sound M init) (hx : M.Reach init (Machine.idle s)) :
    Λ.done s = Λ.reported s := by
  obtain ⟨paid, hidle, -, hbalance⟩ := h.reach hx
  have hzero : paid = 0 := by
    ext t
    exact hidle t rfl
  simpa [hzero, Machine.idle] using hbalance

end Ledger

end MpiRma
