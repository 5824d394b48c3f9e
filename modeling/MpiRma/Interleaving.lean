/-
  MpiRma/Interleaving.lean
  ========================
  **Threads running programs over shared state.**  Any number of threads may be
  called at any time; each step runs one command of one thread, starts a call or lets
  a finished call return.  `Machine.Reach` is the set of configurations some schedule
  leads to.

  **Rely and guarantee.**  A `Discipline` fixes an invariant of the shared state, what
  each thread may rely on while others step, and what a thread holds between calls.
  A thread's program is verified once, against the contract `Discipline.contract`
  in which other threads step before each command; `Discipline.sound` turns the
  verified programs into an invariant of every reachable configuration.
-/
import MpiRma.Program
import Mathlib.Logic.Relation

namespace MpiRma

open Program

/-- What runs: the program of each call, the effect of a thread's commands on the
    shared state, and what a returning call leaves behind. -/
structure Machine (C : Type) (A : C → Type) (S K R : Type) where
  code : K → Program C A R
  exec : Nat → K → (c : C) → S → A c → S → Prop
  finish : Nat → K → R → S → S

structure Thread (C : Type) (A : C → Type) (K R : Type) where
  call : K
  program : Program C A R

structure Config (C : Type) (A : C → Type) (S K R : Type) where
  shared : S
  threads : Nat → Option (Thread C A K R)

namespace Machine

variable {C : Type} {A : C → Type} {S K R : Type}

/-- One step of one thread. -/
inductive Step (M : Machine C A S K R) : Config C A S K R → Config C A S K R → Prop where
  | call {s th} (t : Nat) (k : K) (hfree : th t = none) :
      Step M ⟨s, th⟩ ⟨s, Function.update th t (some ⟨k, M.code k⟩)⟩
  | command {s th} (t : Nat) (k : K) (c : C) (cont : A c → Program C A R) (a : A c) (s' : S)
      (hat : th t = some ⟨k, .op c cont⟩) (hexec : M.exec t k c s a s') :
      Step M ⟨s, th⟩ ⟨s', Function.update th t (some ⟨k, cont a⟩)⟩
  | return {s th} (t : Nat) (k : K) (r : R) (hat : th t = some ⟨k, .ret r⟩) :
      Step M ⟨s, th⟩ ⟨M.finish t k r s, Function.update th t none⟩

def idle (s : S) : Config C A S K R := ⟨s, fun _ => none⟩

def Reach (M : Machine C A S K R) (init : S) (c : Config C A S K R) : Prop :=
  Relation.ReflTransGen M.Step (idle init) c

theorem Reach.step {M : Machine C A S K R} {init : S} {c c' : Config C A S K R}
    (h : M.Reach init c) (hs : M.Step c c') : M.Reach init c' :=
  Relation.ReflTransGen.tail h hs

theorem Reach.steps {M : Machine C A S K R} {init : S} {c c' : Config C A S K R}
    (h : M.Reach init c) (hs : Relation.ReflTransGen M.Step c c') : M.Reach init c' :=
  Relation.ReflTransGen.trans h hs

def restrict (M : Machine C A S K R) (cond : Nat → K → C → S → Prop) : Machine C A S K R :=
  { M with exec := fun t k c s a s' => cond t k c s ∧ M.exec t k c s a s' }

theorem Step.restrict {M : Machine C A S K R} {cond : Nat → K → C → S → Prop}
    {x y : Config C A S K R} (h : M.Step x y) (hcond : ∀ t k c s, cond t k c s) :
    (M.restrict cond).Step x y := by
  cases h with
  | call t k hfree => exact Step.call (M := M.restrict cond) t k hfree
  | command t k c cont a s' hat hexec => exact .command t k c cont a s' hat ⟨hcond t k c _, hexec⟩
  | «return» t k r hat => exact Step.return (M := M.restrict cond) t k r hat

theorem Step.unrestrict {M : Machine C A S K R} {cond : Nat → K → C → S → Prop}
    {x y : Config C A S K R} (h : (M.restrict cond).Step x y) : M.Step x y := by
  cases h with
  | call t k hfree => exact Step.call (M := M) t k hfree
  | command t k c cont a s' hat hexec => exact .command t k c cont a s' hat hexec.2
  | «return» t k r hat => exact Step.return (M := M) t k r hat

/-- A condition every step meets restricts nothing. -/
theorem Reach.restrict {M : Machine C A S K R} {cond : Nat → K → C → S → Prop} {init : S}
    {c : Config C A S K R} (h : M.Reach init c) (hcond : ∀ t k c s, cond t k c s) :
    (M.restrict cond).Reach init c :=
  Relation.ReflTransGen.mono (fun _ _ hstep => Step.restrict hstep hcond) _ _ h

theorem Reach.unrestrict {M : Machine C A S K R} {cond : Nat → K → C → S → Prop} {init : S}
    {c : Config C A S K R} (h : (M.restrict cond).Reach init c) : M.Reach init c :=
  Relation.ReflTransGen.mono (fun _ _ hstep => Step.unrestrict hstep) _ _ h

/-- A call that runs without interruption is a sequence of steps. -/
theorem steps_of_runs {M : Machine C A S K R} {t : Nat} {k : K} {p : Program C A R}
    {s s' : S} {r : R} {th : Nat → Option (Thread C A K R)} (hat : th t = some ⟨k, p⟩)
    (hr : p.Runs (M.exec t k) s r s') :
    Relation.ReflTransGen M.Step ⟨s, th⟩
      ⟨M.finish t k r s', Function.update th t none⟩ := by
  induction p generalizing s th with
  | ret a =>
    obtain ⟨rfl, rfl⟩ := hr
    exact .single (.return t k r hat)
  | op c cont ih =>
    obtain ⟨a, s₁, hexec, hk⟩ := hr
    refine .head (.command t k c cont a s₁ hat hexec) ?_
    have hcont : Function.update th t (some ⟨k, cont a⟩) t = some ⟨k, cont a⟩ := by simp
    have := ih a hcont hk
    simpa using this

/-- A whole call without interruption, from an idle thread number. -/
theorem steps_of_call {M : Machine C A S K R} {t : Nat} {k : K} {s s' : S} {r : R}
    {th : Nat → Option (Thread C A K R)} (hfree : th t = none)
    (hr : (M.code k).Runs (M.exec t k) s r s') :
    Relation.ReflTransGen M.Step ⟨s, th⟩ ⟨M.finish t k r s', th⟩ := by
  refine .head (.call t k hfree) ?_
  have hcalled : Function.update th t (some ⟨k, M.code k⟩) t = some ⟨k, M.code k⟩ := by simp
  have := steps_of_runs hcalled hr
  have hback : Function.update (Function.update th t (some ⟨k, M.code k⟩)) t none = th := by
    rw [Function.update_idem, ← hfree, Function.update_eq_self]
  rwa [hback] at this

/-- A whole call while no other is under way. -/
theorem steps_of_alone {M : Machine C A S K R} {t : Nat} {k : K} {s s' : S} {r : R}
    (hr : (M.code k).Runs (M.exec t k) s r s') :
    Relation.ReflTransGen M.Step (idle s) (idle (M.finish t k r s')) := by
  have hfree : (idle s : Config C A S K R).threads t = none := rfl
  exact steps_of_call hfree hr

/-- Exactly these calls are made, one after the other, each while no other is under way, and
    return these results. -/
def InTurn (M : Machine C A S K R) : List (K × R) → S → S → Prop
  | [], s, s' => s' = s
  | (k, r) :: calls, s, s' => ∃ t s₁, (M.code k).Runs (M.exec t k) s r s₁ ∧
      M.InTurn calls (M.finish t k r s₁) s'

theorem inTurn_one {M : Machine C A S K R} {t : Nat} {k : K} {s s' : S} {r : R}
    (hr : (M.code k).Runs (M.exec t k) s r s') : M.InTurn [(k, r)] s (M.finish t k r s') :=
  ⟨t, s', hr, rfl⟩

theorem InTurn.append {M : Machine C A S K R} {calls calls' : List (K × R)} {s s₁ s' : S}
    (h : M.InTurn calls s s₁) (h' : M.InTurn calls' s₁ s') : M.InTurn (calls ++ calls') s s' := by
  induction calls generalizing s with
  | nil =>
    obtain rfl : s₁ = s := h
    exact h'
  | cons call rest ih =>
    obtain ⟨t, s₂, hr, hrest⟩ := h
    exact ⟨t, s₂, hr, ih hrest⟩

theorem InTurn.steps {M : Machine C A S K R} {calls : List (K × R)} {s s' : S}
    (h : M.InTurn calls s s') : Relation.ReflTransGen M.Step (idle s) (idle s') := by
  induction calls generalizing s with
  | nil =>
    obtain rfl : s' = s := h
    exact .refl
  | cons call rest ih =>
    obtain ⟨t, s₁, hr, hrest⟩ := h
    exact (steps_of_alone hr).trans (ih hrest)

end Machine

/-! ### Rely and guarantee -/

/-- An invariant of the shared state, what thread `t` may rely on, and what holds of a
    thread between its calls. -/
structure Discipline (S : Type) where
  inv : S → Prop
  rely : Nat → S → S → Prop
  idle : Nat → S → Prop
  rely_refl : ∀ t s, rely t s s
  rely_trans : ∀ t s₁ s₂ s₃, rely t s₁ s₂ → rely t s₂ s₃ → rely t s₁ s₃
  idle_stable : ∀ t s s', rely t s s' → idle t s → idle t s'

namespace Discipline

variable {C : Type} {A : C → Type} {S K R : Type}

/-- The contract of thread `t`'s commands: others step first, then the command keeps the
    invariant and what every other thread relies on. -/
def contract (D : Discipline S) (M : Machine C A S K R) (t : Nat) (k : K) : Contract C A S :=
  fun c Q s => ∀ s₁, D.rely t s s₁ → D.inv s₁ → ∀ a s₂, M.exec t k c s₁ a s₂ →
    D.inv s₂ ∧ (∀ u, u ≠ t → D.rely u s₁ s₂) ∧ Q a s₂

theorem contract_monotone (D : Discipline S) (M : Machine C A S K R) (t : Nat) (k : K) :
    (D.contract M t k).Monotone := by
  intro c P Q s hPQ h s₁ hrely hinv a s₂ hexec
  obtain ⟨hinv₂, hothers, hP⟩ := h s₁ hrely hinv a s₂ hexec
  exact ⟨hinv₂, hothers, hPQ a s₂ hP⟩

/-- When thread `t` may return `r` from call `k`: in every state others can leave, the
    return keeps the invariant and the other threads' rely, and `t` ends idle. -/
def Returns (D : Discipline S) (M : Machine C A S K R) (t : Nat) (k : K) (r : R) (s : S) : Prop :=
  ∀ s₁, D.rely t s s₁ → D.inv s₁ →
    D.inv (M.finish t k r s₁) ∧ (∀ u, u ≠ t → D.rely u s₁ (M.finish t k r s₁)) ∧
      D.idle t (M.finish t k r s₁)

/-- What is verified of a thread survives the steps of the others. -/
theorem wp_stable (D : Discipline S) (M : Machine C A S K R) {t : Nat} {k : K}
    {p : Program C A R} {s s' : S} (hrely : D.rely t s s')
    (h : p.wp (D.contract M t k) (D.Returns M t k) s) :
    p.wp (D.contract M t k) (D.Returns M t k) s' := by
  cases p with
  | ret r => exact fun s₁ h₁ => h s₁ (D.rely_trans t _ _ _ hrely h₁)
  | op c cont => exact fun s₁ h₁ => h s₁ (D.rely_trans t _ _ _ hrely h₁)

def Verified (D : Discipline S) (M : Machine C A S K R) : Prop :=
  ∀ t k s, D.inv s → D.idle t s → (M.code k).wp (D.contract M t k) (D.Returns M t k) s

/-- The shared state keeps the invariant, idle threads are idle, and running threads
    have a verified rest. -/
structure Holds (D : Discipline S) (M : Machine C A S K R) (c : Config C A S K R) : Prop where
  inv : D.inv c.shared
  idle : ∀ t, c.threads t = none → D.idle t c.shared
  running : ∀ t th, c.threads t = some th →
    th.program.wp (D.contract M t th.call) (D.Returns M t th.call) c.shared

theorem Holds.step {D : Discipline S} {M : Machine C A S K R} (hV : D.Verified M)
    {c c' : Config C A S K R} (h : D.Holds M c) (hs : M.Step c c') : D.Holds M c' := by
  cases hs with
  | @call s th t k hfree =>
    refine ⟨h.inv, fun u hu => ?_, fun u tu hu => ?_⟩
    · by_cases hut : u = t
      · subst hut; simp at hu
      · exact h.idle u (by simpa [hut] using hu)
    · by_cases hut : u = t
      · subst hut
        obtain rfl : tu = ⟨k, M.code k⟩ := by simpa using hu.symm
        exact hV u k s h.inv (h.idle u hfree)
      · exact h.running u tu (by simpa [hut] using hu)
  | @command s th t k c cont a s' hat hexec =>
    have hrun := h.running t _ hat
    obtain ⟨hinv, hothers, hk⟩ := hrun s (D.rely_refl t s) h.inv a s' hexec
    refine ⟨hinv, fun u hu => ?_, fun u tu hu => ?_⟩
    · by_cases hut : u = t
      · subst hut; simp at hu
      · exact D.idle_stable u s s' (hothers u hut) (h.idle u (by simpa [hut] using hu))
    · by_cases hut : u = t
      · subst hut
        obtain rfl : tu = ⟨k, cont a⟩ := by simpa using hu.symm
        exact hk
      · exact D.wp_stable M (hothers u hut) (h.running u tu (by simpa [hut] using hu))
  | @«return» s th t k r hat =>
    obtain ⟨hinv, hothers, hidle⟩ := h.running t _ hat s (D.rely_refl t s) h.inv
    refine ⟨hinv, fun u hu => ?_, fun u tu hu => ?_⟩
    · by_cases hut : u = t
      · subst hut; exact hidle
      · exact D.idle_stable u s _ (hothers u hut) (h.idle u (by simpa [hut] using hu))
    · by_cases hut : u = t
      · subst hut; simp at hu
      · exact D.wp_stable M (hothers u hut) (h.running u tu (by simpa [hut] using hu))

theorem Holds.steps {D : Discipline S} {M : Machine C A S K R} (hV : D.Verified M)
    {c c' : Config C A S K R} (h : D.Holds M c) (hs : Relation.ReflTransGen M.Step c c') :
    D.Holds M c' := by
  induction hs with
  | refl => exact h
  | tail _ hstep ih => exact ih.step hV hstep

/-- **Soundness of the discipline.**  If every call is verified and the initial state
    keeps the invariant with all threads idle, every reachable configuration does. -/
theorem sound {D : Discipline S} {M : Machine C A S K R} (hV : D.Verified M) {init : S}
    (hinv : D.inv init) (hidle : ∀ t, D.idle t init) {c : Config C A S K R}
    (hc : M.Reach init c) : D.Holds M c :=
  Holds.steps hV ⟨hinv, fun t _ => hidle t, fun _ _ h => by simp [Machine.idle] at h⟩ hc

/-- The steps before one point of a reachable run already keep the invariant there. -/
theorem sound_inv {D : Discipline S} {M : Machine C A S K R} (hV : D.Verified M) {init : S}
    (hinv : D.inv init) (hidle : ∀ t, D.idle t init) {c : Config C A S K R}
    (hc : M.Reach init c) : D.inv c.shared :=
  (sound hV hinv hidle hc).inv

end Discipline

end MpiRma
