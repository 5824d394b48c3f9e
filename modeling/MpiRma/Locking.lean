/-
  MpiRma/Locking.lean
  ===================
  **Lock order.**  Threads take locks and give them back.  When every program takes a lock only
  below all the locks it holds, and holds none when it returns, no set of threads can wait for
  each other for ever: from every reachable configuration the calls under way can all be
  completed (`Respects.drains`).

  The order is checked on the programs alone, as a weakest precondition whose state is the
  set of locks held (`Locking.order`); the locks of a configuration then agree with it
  along every run (`Locking.Held`).
-/
import MpiRma.Interleaving
import Mathlib.Order.BooleanAlgebra.Set

namespace MpiRma

open Program

namespace Machine

variable {C : Type} {A : C → Type} {S K R : Type}

/-- A step of a thread that is in a call: no call starts. -/
def Advance (M : Machine C A S K R) (x y : Config C A S K R) : Prop :=
  M.Step x y ∧ ∀ t, x.threads t = none → y.threads t = none

variable {M : Machine C A S K R} {x y : Config C A S K R}

theorem Advance.command {t : Nat} {k : K} {c : C} {cont : A c → Program C A R} {a : A c} {s' : S}
    (hat : x.threads t = some ⟨k, .op c cont⟩) (hexec : M.exec t k c x.shared a s') :
    M.Advance x ⟨s', Function.update x.threads t (some ⟨k, cont a⟩)⟩ := by
  constructor
  · exact .command t k c cont a s' hat hexec
  · intro u hu
    have hut : u ≠ t := by
      rintro rfl
      simp [hat] at hu
    simpa [hut] using hu

theorem Advance.return {t : Nat} {k : K} {r : R} (hat : x.threads t = some ⟨k, .ret r⟩) :
    M.Advance x ⟨M.finish t k r x.shared, Function.update x.threads t none⟩ := by
  constructor
  · exact .return t k r hat
  · intro u hu
    by_cases hut : u = t
    · simp [hut]
    · simpa [hut] using hu

theorem none_of_advances (h : Relation.ReflTransGen M.Advance x y) {t : Nat}
    (hnone : x.threads t = none) : y.threads t = none := by
  induction h with
  | refl => exact hnone
  | tail _ hstep ih => exact hstep.2 t ih

/-- Only so many threads have been called. -/
theorem Reach.bounded {init : S} (h : M.Reach init x) :
    ∃ bound, ∀ t, bound ≤ t → x.threads t = none := by
  induction h with
  | refl => exact ⟨0, fun t _ => rfl⟩
  | tail _ hstep ih =>
    obtain ⟨bound, hbound⟩ := ih
    cases hstep with
    | call t k hfree | command t k c cont a s' hat hexec | «return» t k r hat =>
      refine ⟨max bound (t + 1), fun u hu => ?_⟩
      have hut : u ≠ t := by omega
      simpa [hut] using hbound u (by omega)

end Machine

/-! ### The order -/

/-- What a command does with the locks. -/
inductive LockUse (L : Type) where
  | acquire (m : L)
  | release (m : L)
  | none

namespace LockUse

variable {L : Type}

def Ready (t : Nat) (holder : L → Option Nat) : LockUse L → Prop
  | .acquire m => holder m = Option.none
  | .release m => holder m = some t
  | .none => True

/-- The holders after a command of thread `t` whose answer grants the lock or does not. -/
def after [DecidableEq L] (t : Nat) (granted : Bool) (holder : L → Option Nat) :
    LockUse L → L → Option Nat
  | .acquire m => if granted then Function.update holder m (some t) else holder
  | .release m => Function.update holder m Option.none
  | .none => holder

end LockUse

/-- How the commands of a machine use locks: what each does with them, whether an answer grants
    the lock asked for, the holders in a state, and a level for each lock. -/
structure Locking (C : Type) (A : C → Type) (S K L : Type) where
  use : K → C → LockUse L
  granted : (c : C) → A c → Bool
  holder : S → L → Option Nat
  level : L → Nat

namespace Locking

variable {C : Type} {A : C → Type} {S K R L α : Type} (Λ : Locking C A S K L)

def held (s : S) (t : Nat) : Set L := {m | Λ.holder s m = some t}

/-- The contract of the lock order, on the set of locks held: a lock is taken below all of them,
    and one of them is given back. -/
def order (k : K) : Contract C A (Set L) := fun c Q held =>
  match Λ.use k c with
  | .acquire m => (∀ m' ∈ held, Λ.level m < Λ.level m') ∧
      ∀ a, Q a (if Λ.granted c a then insert m held else held)
  | .release m => m ∈ held ∧ ∀ a, Q a (held \ {m})
  | .none => ∀ a, Q a held

variable {Λ} in
theorem held_congr {s s' : S} (h : Λ.holder s' = Λ.holder s) (u : Nat) :
    Λ.held s' u = Λ.held s u := by
  simp only [held, h]

def Ordered (k : K) (p : Program C A R) (held : Set L) : Prop :=
  p.wp (Λ.order k) (fun _ rest => rest = ∅) held

def Balanced (k : K) (level : Nat) (p : Program C A α) : Prop :=
  ∀ (Q : α → Set L → Prop) held, (∀ m ∈ held, level ≤ Λ.level m) → (∀ a, Q a held) →
    p.wp (Λ.order k) Q held

section Balanced

variable {Λ} {k : K} {level : Nat} {β : Type}

theorem Balanced.ordered {p : Program C A α} (h : Λ.Balanced k level p) : Λ.Ordered k p ∅ := by
  apply h
  · intro m hm
    exact hm.elim
  · intro _
    rfl

theorem Balanced.ret (a : α) : Λ.Balanced k level (.ret a : Program C A α) :=
  fun _ _ _ hQ => hQ a

theorem Balanced.mono {level' : Nat} {p : Program C A α} (h : Λ.Balanced k level p)
    (hle : level ≤ level') : Λ.Balanced k level' p :=
  fun Q held hheld => h Q held fun m hm => hle.trans (hheld m hm)

/-- A program that leaves the locks alone is balanced. -/
theorem Balanced.of_only {p : Program C A α} (hp : p.Only fun c => Λ.use k c = .none) :
    Λ.Balanced k level p := by
  intro Q held _ hQ
  induction p with
  | ret a => exact hQ a
  | op c cont ih =>
    simp only [wp, order, hp.1]
    exact fun a => ih a (hp.2 a)

theorem Balanced.bind {p : Program C A α} {f : α → Program C A β} (hp : Λ.Balanced k level p)
    (hf : ∀ a, Λ.Balanced k level (f a)) : Λ.Balanced k level (p.bind f) := by
  intro Q held hheld hQ
  rw [wp_bind]
  exact hp _ held hheld fun a => hf a Q held hheld hQ

/-- A lock held around a program that takes only locks below it; where it is refused, the
    program ends. -/
theorem Balanced.guarded {c : C} {m : L} {cont : A c → Program C A α} {u : β → C}
    {f : β → α} (hlock : Λ.use k c = .acquire m)
    (hunlock : ∀ r, Λ.use k (u r) = .release m)
    (hcont : ∀ a, if Λ.granted c a then
      ∃ p, Λ.Balanced k (Λ.level m) p ∧ cont a = p.bind fun r => .op (u r) fun _ => .ret (f r)
      else ∃ r, cont a = .ret r) :
    Λ.Balanced k (Λ.level m + 1) (.op c cont) := by
  intro Q held hheld hQ
  have hnot : m ∉ held := fun hm => absurd (hheld m hm) (by omega)
  simp only [wp, order, hlock]
  refine ⟨fun m' hm' => hheld m' hm', fun a => ?_⟩
  specialize hcont a
  split at hcont
  · rename_i hgranted
    obtain ⟨p, hp, hbind⟩ := hcont
    rw [hbind, if_pos hgranted, wp_bind]
    apply hp
    · intro m' hm'
      rcases hm' with rfl | hm'
      · exact le_rfl
      · exact (Nat.le_succ _).trans (hheld m' hm')
    · intro r
      simp only [wp, order, hunlock]
      refine ⟨Set.mem_insert m held, fun _ => ?_⟩
      rw [Set.insert_sdiff_self_of_notMem hnot]
      exact hQ _
  · rename_i hrefused
    obtain ⟨r, hret⟩ := hcont
    rw [hret, if_neg hrefused]
    exact hQ r

end Balanced

def CodeBalanced {σ ε : Type} (k : K) (level : Nat) (m : Code C A σ ε α) : Prop :=
  ∀ v, Λ.Balanced k level (m v)

variable {Λ} in
theorem CodeBalanced.bind {σ ε β : Type} {k : K} {level : Nat} {m : Code C A σ ε α}
    {f : α → Code C A σ ε β} (hm : Λ.CodeBalanced k level m)
    (hf : ∀ a, Λ.CodeBalanced k level (f a)) : Λ.CodeBalanced k level (m >>= f) := by
  intro v
  apply (hm v).bind
  rintro ⟨_ | a, v'⟩
  · exact Balanced.ret _
  · exact hf a v'

/-! ### Machines that respect it -/

variable [DecidableEq L]

/-- The programs keep the order, a command happens exactly when it need not wait, and it changes
    the holders as it says. -/
structure Respects (M : Machine C A S K R) : Prop where
  ordered : ∀ k, Λ.Ordered k (M.code k) ∅
  exec : ∀ {t k c s a s'}, M.exec t k c s a s' → (Λ.use k c).Ready t (Λ.holder s) ∧
    Λ.holder s' = (Λ.use k c).after t (Λ.granted c a) (Λ.holder s)
  ready : ∀ {t k c s}, (Λ.use k c).Ready t (Λ.holder s) → ∃ a s', M.exec t k c s a s'
  finish : ∀ t k r s, Λ.holder (M.finish t k r s) = Λ.holder s

structure Held (x : Config C A S K R) : Prop where
  idle : ∀ t, x.threads t = none → Λ.held x.shared t = ∅
  running : ∀ t k p, x.threads t = some ⟨k, p⟩ → Λ.Ordered k p (Λ.held x.shared t)

variable {Λ} {M : Machine C A S K R} {x y z : Config C A S K R}

section Steps

variable {t : Nat} {k : K} {c : C} {cont : A c → Program C A R} {a : A c} {s s' : S}

/-- A command changes nothing for the other threads. -/
theorem Respects.held_other (hM : Λ.Respects M) (h : M.exec t k c s a s') {u : Nat}
    (hut : u ≠ t) : Λ.held s' u = Λ.held s u := by
  obtain ⟨hready, hafter⟩ := hM.exec h
  ext m
  simp only [held, Set.mem_ofPred_eq, hafter, LockUse.after]
  cases huse : Λ.use k c with
  | acquire m' =>
    simp only [huse, LockUse.Ready] at hready
    split
    · by_cases hm : m = m'
      · simp [hm, hready, hut.symm]
      · simp [hm]
    · exact Iff.rfl
  | release m' =>
    simp only [huse, LockUse.Ready] at hready
    by_cases hm : m = m'
    · simp [hm, hready, hut.symm]
    · simp [hm]
  | none => exact Iff.rfl

/-- The rest of a program holds what it thinks it holds. -/
theorem Respects.ordered_next (hM : Λ.Respects M) (h : M.exec t k c s a s')
    (hp : Λ.Ordered k (.op c cont) (Λ.held s t)) : Λ.Ordered k (cont a) (Λ.held s' t) := by
  obtain ⟨-, hafter⟩ := hM.exec h
  simp only [Ordered, wp, order] at hp
  cases huse : Λ.use k c with
  | acquire m =>
    simp only [huse] at hp hafter
    have hheld : Λ.held s' t = if Λ.granted c a then insert m (Λ.held s t) else Λ.held s t := by
      ext m'
      simp only [held, Set.mem_ofPred_eq, hafter, LockUse.after]
      split
      · by_cases hm : m' = m
        · simp [hm]
        · simp [hm]
      · exact Iff.rfl
    rw [hheld]
    exact hp.2 a
  | release m =>
    simp only [huse] at hp hafter
    have hheld : Λ.held s' t = Λ.held s t \ {m} := by
      ext m'
      simp only [held, Set.mem_ofPred_eq, hafter, LockUse.after]
      by_cases hm : m' = m
      · simp [hm]
      · simp [hm]
    rw [hheld]
    exact hp.2 a
  | none =>
    simp only [huse] at hp hafter
    rw [held_congr hafter]
    exact hp a

end Steps

theorem Held.step (hM : Λ.Respects M) (h : Λ.Held x) (hs : M.Step x y) : Λ.Held y := by
  cases hs with
  | @call s th t k hfree =>
    constructor
    · intro u hu
      by_cases hut : u = t
      · simp [hut] at hu
      · exact h.idle u (by simpa [hut] using hu)
    · intro u k' p hu
      by_cases hut : u = t
      · subst hut
        obtain ⟨rfl, rfl⟩ : k = k' ∧ M.code k = p := by simpa using hu
        have hnone : Λ.held s u = ∅ := h.idle u hfree
        show Λ.Ordered k (M.code k) (Λ.held s u)
        rw [hnone]
        exact hM.ordered k
      · exact h.running u k' p (by simpa [hut] using hu)
  | @command s th t k c cont a s' hat hexec =>
    constructor
    · intro u hu
      by_cases hut : u = t
      · simp [hut] at hu
      · exact (hM.held_other hexec hut).trans (h.idle u (by simpa [hut] using hu))
    · intro u k' p hu
      by_cases hut : u = t
      · subst hut
        obtain ⟨rfl, rfl⟩ : k = k' ∧ cont a = p := by simpa using hu
        exact hM.ordered_next hexec (h.running u k _ hat)
      · show Λ.Ordered k' p (Λ.held s' u)
        rw [hM.held_other hexec hut]
        exact h.running u k' p (by simpa [hut] using hu)
  | @«return» s th t k r hat =>
    have hsame := held_congr (Λ := Λ) (hM.finish t k r s)
    constructor
    · intro u hu
      refine (hsame u).trans ?_
      by_cases hut : u = t
      · subst hut
        exact h.running u k _ hat
      · exact h.idle u (by simpa [hut] using hu)
    · intro u k' p hu
      by_cases hut : u = t
      · simp [hut] at hu
      · show Λ.Ordered k' p (Λ.held (M.finish t k r s) u)
        rw [hsame u]
        exact h.running u k' p (by simpa [hut] using hu)

/-- **The locks of a run**: they are those the programs think they hold. -/
theorem Held.reach (hM : Λ.Respects M) {init : S} (hinit : ∀ m, Λ.holder init m = none)
    (h : M.Reach init x) : Λ.Held x := by
  induction h with
  | refl =>
    constructor
    · intro t _
      simp [held, Machine.idle, hinit]
    · intro t k p hp
      simp [Machine.idle] at hp
  | tail _ hstep ih => exact ih.step hM hstep

theorem Held.advances (hM : Λ.Respects M) (h : Λ.Held x)
    (hs : Relation.ReflTransGen M.Advance x y) : Λ.Held y := by
  induction hs with
  | refl => exact h
  | tail _ hstep ih => exact ih.step hM hstep.1

/-! ### No thread waits for ever -/

variable (Λ) in
def Spares (level : Nat) (x y : Config C A S K R) : Prop :=
  ∀ t, (∀ m ∈ Λ.held x.shared t, level < Λ.level m) →
    y.threads t = x.threads t ∧ Λ.held y.shared t = Λ.held x.shared t

omit [DecidableEq L] in
theorem Spares.refl (level : Nat) (x : Config C A S K R) : Λ.Spares level x x :=
  fun _ _ => ⟨rfl, rfl⟩

omit [DecidableEq L] in
theorem Spares.trans {level : Nat} (h : Λ.Spares level x y) (h' : Λ.Spares level y z) :
    Λ.Spares level x z := by
  intro t ht
  obtain ⟨hthread, hheld⟩ := h t ht
  obtain ⟨hthread', hheld'⟩ := h' t (hheld ▸ ht)
  exact ⟨hthread'.trans hthread, hheld'.trans hheld⟩

omit [DecidableEq L] in
theorem Spares.mono {level level' : Nat} (h : Λ.Spares level x y) (hle : level ≤ level') :
    Λ.Spares level' x y :=
  fun t ht => h t fun m hm => hle.trans_lt (ht m hm)

variable (Λ M) in
/-- The holder of a lock of this level can go on until it gives the lock back, and what it has
    to wait for meanwhile is below. -/
def Frees (level : Nat) : Prop :=
  ∀ x, Λ.Held x → ∀ m u, Λ.level m = level → Λ.holder x.shared m = some u →
    ∃ y, Relation.ReflTransGen M.Advance x y ∧ Λ.holder y.shared m = none ∧ Λ.Spares level x y

section Waiting

variable {t : Nat} {k : K} {c : C} {cont : A c → Program C A R}

omit [DecidableEq L] in
/-- A lock that is about to be given back is held. -/
theorem Held.releases (h : Λ.Held x) (hat : x.threads t = some ⟨k, .op c cont⟩) {m : L}
    (huse : Λ.use k c = .release m) : Λ.holder x.shared m = some t := by
  have horder := h.running t k _ hat
  simp only [Ordered, wp, order, huse] at horder
  exact horder.1

omit [DecidableEq L] in
/-- A thread that has to wait for a lock gets to where it need not. -/
theorem Held.ready (h : Λ.Held x) (hat : x.threads t = some ⟨k, .op c cont⟩)
    (hfrees : ∀ m, Λ.use k c = .acquire m → Λ.Frees M (Λ.level m)) :
    ∃ y, Relation.ReflTransGen M.Advance x y ∧ (Λ.use k c).Ready t (Λ.holder y.shared) ∧
      y.threads t = x.threads t ∧ Λ.held y.shared t = Λ.held x.shared t ∧
      ∀ level, (∀ m, Λ.use k c = .acquire m → Λ.level m ≤ level) → Λ.Spares level x y := by
  have horder := h.running t k _ hat
  simp only [Ordered, wp, order] at horder
  cases huse : Λ.use k c with
  | none => exact ⟨x, .refl, trivial, rfl, rfl, fun level _ => Spares.refl level x⟩
  | release m =>
    exact ⟨x, .refl, h.releases hat huse, rfl, rfl, fun level _ => Spares.refl level x⟩
  | acquire m =>
    simp only [huse] at horder
    cases hholder : Λ.holder x.shared m with
    | none => exact ⟨x, .refl, hholder, rfl, rfl, fun level _ => Spares.refl level x⟩
    | some u =>
      obtain ⟨y, hsteps, hfree, hspares⟩ := hfrees m huse x h m u rfl hholder
      obtain ⟨hthread, hheld⟩ := hspares t horder.1
      exact ⟨y, hsteps, hfree, hthread, hheld, fun level hle => hspares.mono (hle m rfl)⟩

/-- A command of a thread that holds a lock of a level spares the threads above it. -/
theorem Spares.command (hM : Λ.Respects M) {a : A c} {s' : S} {level : Nat}
    (hexec : M.exec t k c x.shared a s') {m : L} (hm : Λ.holder x.shared m = some t)
    (hlevel : Λ.level m = level) :
    Λ.Spares level x ⟨s', Function.update x.threads t (some ⟨k, cont a⟩)⟩ := by
  intro u hu
  have hut : u ≠ t := by
    rintro rfl
    exact absurd (hu m hm) (by omega)
  exact ⟨by simp [hut], hM.held_other hexec hut⟩

/-- The holder of a lock goes on until it has given it back. -/
theorem Respects.gives_back (hM : Λ.Respects M) {level : Nat}
    (hbelow : ∀ level' < level, Λ.Frees M level') {m : L} (hlevel : Λ.level m = level)
    (p : Program C A R) (x : Config C A S K R) (h : Λ.Held x) (hat : x.threads t = some ⟨k, p⟩)
    (hm : Λ.holder x.shared m = some t) :
    ∃ y, Relation.ReflTransGen M.Advance x y ∧ Λ.holder y.shared m = none ∧
      Λ.Spares level x y := by
  induction p generalizing x with
  | ret r =>
    have hempty : Λ.held x.shared t = ∅ := h.running t k _ hat
    exact absurd (show m ∈ Λ.held x.shared t from hm) (by simp [hempty])
  | op c cont ih =>
    have horder := h.running t k _ hat
    have hwanted : ∀ m', Λ.use k c = .acquire m' → Λ.level m' < level := by
      intro m' huse
      simp only [Ordered, wp, order, huse] at horder
      exact hlevel ▸ horder.1 m hm
    obtain ⟨y, hsteps, hready, hthread, hheld, hspares⟩ :=
      h.ready hat fun m' huse => hbelow _ (hwanted m' huse)
    have hspares := hspares level fun m' huse => (hwanted m' huse).le
    have hat' := hthread.trans hat
    have hm' : Λ.holder y.shared m = some t := (Set.ext_iff.mp hheld m).mpr hm
    obtain ⟨a, s', hexec⟩ := hM.ready hready
    have hstep := Machine.Advance.command hat' hexec
    have hspared : Λ.Spares level y ⟨s', Function.update y.threads t (some ⟨k, cont a⟩)⟩ :=
      Spares.command hM hexec hm' hlevel
    have hspares' := hspares.trans hspared
    have hafter := (hM.exec hexec).2
    by_cases hback : Λ.use k c = .release m
    · refine ⟨_, hsteps.tail hstep, ?_, hspares'⟩
      simp [hafter, hback, LockUse.after]
    · have hm'' : Λ.holder s' m = some t := by
        rw [hafter]
        cases huse : Λ.use k c with
        | acquire m' =>
          have hne : m ≠ m' := by
            rintro rfl
            exact absurd (hwanted m huse) (by omega)
          simp only [LockUse.after]
          split
          · simpa [hne] using hm'
          · exact hm'
        | release m' =>
          have hne : m ≠ m' := by
            rintro rfl
            exact hback huse
          simpa [LockUse.after, hne] using hm'
        | none => exact hm'
      obtain ⟨z, hsteps', hfree, hspares''⟩ := ih a _
        ((h.advances hM hsteps).step hM hstep.1) (by simp) hm''
      exact ⟨z, (hsteps.tail hstep).trans hsteps', hfree, hspares'.trans hspares''⟩

/-- Every lock can be had: induction on its level, and on the rest of its holder's program. -/
theorem Respects.frees (hM : Λ.Respects M) (level : Nat) : Λ.Frees M level := by
  induction level using Nat.strong_induction_on with
  | _ level ih =>
    intro x h m u hlevel hheld
    cases hat : x.threads u with
    | none =>
      have hempty := h.idle u hat
      exact absurd (show m ∈ Λ.held x.shared u from hheld) (by simp [hempty])
    | some th =>
      obtain ⟨k, p⟩ := th
      exact hM.gives_back ih hlevel p x h hat hheld

/-- A call under way can be completed. -/
theorem Respects.completes (hM : Λ.Respects M) (p : Program C A R) (x : Config C A S K R)
    (h : Λ.Held x) (hat : x.threads t = some ⟨k, p⟩) :
    ∃ y, Relation.ReflTransGen M.Advance x y ∧ y.threads t = none := by
  induction p generalizing x with
  | ret r => exact ⟨_, .single (.return hat), by simp⟩
  | op c cont ih =>
    obtain ⟨y, hsteps, hready, hthread, -⟩ := h.ready hat fun m _ => hM.frees (Λ.level m)
    obtain ⟨a, s', hexec⟩ := hM.ready hready
    have hstep := Machine.Advance.command (hthread.trans hat) hexec
    obtain ⟨z, hsteps', hdone⟩ := ih a _ ((h.advances hM hsteps).step hM hstep.1) (by simp)
    exact ⟨z, (hsteps.tail hstep).trans hsteps', hdone⟩

end Waiting

theorem Respects.drains_below (hM : Λ.Respects M) (bound : Nat) (x : Config C A S K R)
    (h : Λ.Held x) (hbound : ∀ t, bound ≤ t → x.threads t = none) :
    ∃ s, Relation.ReflTransGen M.Advance x (Machine.idle s) := by
  induction bound generalizing x with
  | zero =>
    obtain ⟨s, th⟩ := x
    obtain rfl : th = fun _ => none := funext fun t => hbound t (Nat.zero_le t)
    exact ⟨s, .refl⟩
  | succ bound ih =>
    have hlast : ∃ y, Relation.ReflTransGen M.Advance x y ∧ y.threads bound = none := by
      cases hat : x.threads bound with
      | none => exact ⟨x, .refl, hat⟩
      | some th => exact hM.completes th.program x h hat
    obtain ⟨y, hsteps, hdone⟩ := hlast
    have hbound' : ∀ t, bound ≤ t → y.threads t = none := by
      intro t ht
      rcases Nat.eq_or_lt_of_le ht with rfl | hlt
      · exact hdone
      · exact Machine.none_of_advances hsteps (hbound t hlt)
    obtain ⟨s, hsteps'⟩ := ih y (h.advances hM hsteps) hbound'
    exact ⟨s, hsteps.trans hsteps'⟩

/-- **No run is stuck**: from every reachable configuration the calls under way can all be
    completed, without any further call. -/
theorem Respects.drains (hM : Λ.Respects M) {init : S} (hinit : ∀ m, Λ.holder init m = none)
    (h : M.Reach init x) : ∃ s, Relation.ReflTransGen M.Advance x (Machine.idle s) := by
  obtain ⟨bound, hbound⟩ := h.bounded
  exact hM.drains_below bound x (Held.reach hM hinit h) hbound

end Locking

end MpiRma
