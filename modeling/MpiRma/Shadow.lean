/-
  MpiRma/Shadow.lean
  ==================
  **A machine that follows another.**  A `Matching` says which commands of a program its
  shadow issues too, with which relation of the answers, which it passes over, and which
  never happen; `Program.Shadowed` relates a program to its shadow, command by command.

  A `Shadow` lifts this to machines: some calls are followed, the others are left out, and
  a relation of the shared states holds throughout.  `Shadow.Sound.run` turns the
  obligations on single commands into a statement about runs: every run has a shadow
  that is beside it at every moment.
-/
import MpiRma.Interleaving
import Mathlib.Tactic.Choose

namespace MpiRma

open Program

/-! ### Programs and their shadows -/

section Programs

variable {C C' : Type} {A : C → Type} {A' : C' → Type} {α α' β β' : Type}

/-- How the commands of a program are followed by those of its shadow: by one command, with
    the answers related, or by none; some are never executed. -/
structure Matching (C : Type) (A : C → Type) (C' : Type) (A' : C' → Type) where
  paired : (c : C) → (c' : C') → (A c → A' c' → Prop) → Prop
  silent : C → Prop
  never : C → Prop

def Matching.restrict (T : Matching C A C' A') (G : C → Prop) : Matching C A C' A' where
  paired c c' rel := T.paired c c' rel ∧ G c
  silent c := T.silent c ∧ G c
  never c := T.never c ∧ G c

/-- `p'` follows `p`: their results are related by `Q`, where `p` does not give up with a
    result in `B`. -/
inductive Program.Shadowed (T : Matching C A C' A') (B : α → Prop) (Q : α → α' → Prop) :
    Program C A α → Program C' A' α' → Prop where
  | ret {a : α} {a' : α'} (h : Q a a') : Shadowed T B Q (.ret a) (.ret a')
  | gaveUp {a : α} {p' : Program C' A' α'} (h : B a) : Shadowed T B Q (.ret a) p'
  | paired {c : C} {c' : C'} {rel : A c → A' c' → Prop} {k : A c → Program C A α}
      {k' : A' c' → Program C' A' α'} (h : T.paired c c' rel)
      (hk : ∀ a a', rel a a' → Shadowed T B Q (k a) (k' a')) :
      Shadowed T B Q (.op c k) (.op c' k')
  | silent {c : C} {k : A c → Program C A α} {p' : Program C' A' α'} (h : T.silent c)
      (hk : ∀ a, Shadowed T B Q (k a) p') : Shadowed T B Q (.op c k) p'
  | never {c : C} {k : A c → Program C A α} {p' : Program C' A' α'} (h : T.never c) :
      Shadowed T B Q (.op c k) p'

namespace Program

variable {T : Matching C A C' A'} {B : α → Prop} {Q : α → α' → Prop} {D : β → Prop}
  {P : β → β' → Prop}

theorem Shadowed.bind {p : Program C A α} {p' : Program C' A' α'} {f : α → Program C A β}
    {f' : α' → Program C' A' β'} (h : p.Shadowed T B Q p')
    (hf : ∀ a a', Q a a' → (f a).Shadowed T D P (f' a'))
    (hB : ∀ a q', B a → (f a).Shadowed T D P q') :
    (p.bind f).Shadowed T D P (p'.bind f') := by
  induction h with
  | ret h => exact hf _ _ h
  | gaveUp h => exact hB _ _ h
  | paired h _ ih => exact .paired h ih
  | silent h _ ih => exact .silent h ih
  | never h => exact .never h

/-- The shadow waits while a program of silent commands runs. -/
theorem Shadowed.silent_bind {p : Program C A α} {q' : Program C' A' β'} {f : α → Program C A β}
    {R : α → Prop} (hp : p.Only T.silent) (hR : p.Returns R)
    (hf : ∀ a, R a → (f a).Shadowed T D P q') : (p.bind f).Shadowed T D P q' := by
  induction p with
  | ret a => exact hf a hR
  | op c k ih => exact .silent hp.1 fun a => ih a (hp.2 a) (hR a)

/-- What is known of all commands of a program is known where they are followed. -/
theorem Shadowed.restrict {G : C → Prop} {p : Program C A α} {p' : Program C' A' α'}
    (h : p.Shadowed T B Q p') (hp : p.Only G) : p.Shadowed (T.restrict G) B Q p' := by
  induction h with
  | ret h => exact .ret h
  | gaveUp h => exact .gaveUp h
  | paired h _ ih => exact .paired ⟨h, hp.1⟩ fun a a' hrel => ih a a' hrel (hp.2 a)
  | silent h _ ih => exact .silent ⟨h, hp.1⟩ fun a => ih a (hp.2 a)
  | never h => exact .never ⟨h, hp.1⟩

end Program

/-! ### Code and its shadow -/

section Coded

variable {σ σ' ε ε' : Type}

/-- Whatever it is answered, the code ends with an error or leaves a result and data in `R`. -/
def Code.Leaves (R : α → σ → Prop) (m : Code C A σ ε α) (v : σ) : Prop :=
  (m v).Returns fun r => ∀ a, r.1 = .ok a → R a r.2

/-- The code gives up with an error; its shadow ends well when it does. -/
def Code.Shadowed (T : Matching C A C' A') (Q : α → σ → α' → σ' → Prop) (m : Code C A σ ε α)
    (v : σ) (m' : Code C' A' σ' ε' α') (v' : σ') : Prop :=
  (m v).Shadowed T (fun r => ∃ e, r.1 = .error e)
    (fun r r' => ∃ a a', r.1 = .ok a ∧ r'.1 = .ok a' ∧ Q a r.2 a' r'.2) (m' v')

namespace Code

variable {T : Matching C A C' A'} {Q : α → σ → α' → σ' → Prop} {P : β → σ → β' → σ' → Prop}
  {m : Code C A σ ε α} {m' : Code C' A' σ' ε' α'} {f : α → Code C A σ ε β}
  {f' : α' → Code C' A' σ' ε' β'} {v : σ} {v' : σ'}

section Leaves

variable {R : α → σ → Prop} {R' : β → σ → Prop}

theorem Leaves.pure {a : α} (h : R a v) : (Pure.pure a : Code C A σ ε α).Leaves R v := by
  rintro _ ⟨⟩
  exact h

theorem Leaves.throw (e : ε) : (Code.throw e : Code C A σ ε α).Leaves R v := nofun

theorem Leaves.bind (hm : m.Leaves R v) (hf : ∀ a w, R a w → (f a).Leaves R' w) :
    (m >>= f).Leaves R' v := by
  apply Program.returns_bind hm
  rintro ⟨e | a, w⟩ hr
  · exact nofun
  · exact hf a w (hr a rfl)

/-- A step that leaves the data alone. -/
theorem Leaves.step (hm : m.Leaves (fun _ w => w = v) v) (hf : ∀ a, (f a).Leaves R' v) :
    (m >>= f).Leaves R' v := by
  refine .bind hm fun a w hw => ?_
  subst hw
  exact hf a

theorem Leaves.get_bind {f : σ → Code C A σ ε β} (h : (f v).Leaves R' v) :
    (Code.get >>= f).Leaves R' v := h

theorem Leaves.lift (x : Except ε α) :
    (Code.lift x : Code C A σ ε α).Leaves (fun _ w => w = v) v := fun _ _ => rfl

theorem Leaves.perform (c : C) :
    (Code.perform c : Code C A σ ε (A c)).Leaves (fun _ w => w = v) v := fun _ _ _ => rfl

end Leaves

theorem Shadowed.pure {a : α} {a' : α'} (h : Q a v a' v') :
    Code.Shadowed T Q (Pure.pure a : Code C A σ ε α) v (Pure.pure a' : Code C' A' σ' ε' α') v' :=
  .ret ⟨a, a', rfl, rfl, h⟩

theorem Shadowed.throw (e : ε) : Code.Shadowed T Q (Code.throw e : Code C A σ ε α) v m' v' :=
  .gaveUp ⟨e, rfl⟩

theorem Shadowed.bind (h : Code.Shadowed T Q m v m' v')
    (hf : ∀ a w a' w', Q a w a' w' → Code.Shadowed T P (f a) w (f' a') w') :
    Code.Shadowed T P (m >>= f) v (m' >>= f') v' := by
  apply Program.Shadowed.bind h
  · rintro ⟨_, w⟩ ⟨_, w'⟩ ⟨a, a', rfl, rfl, hQ⟩
    exact hf a w a' w' hQ
  · rintro ⟨_, w⟩ q' ⟨e, rfl⟩
    exact .gaveUp ⟨e, rfl⟩

/-- The shadow waits while code of silent commands runs. -/
theorem Shadowed.silent_bind {R : α → σ → Prop} {q' : Code C' A' σ' ε' β'}
    (hm : m.Only T.silent) (hR : m.Leaves R v)
    (hf : ∀ a w, R a w → Code.Shadowed T P (f a) w q' v') :
    Code.Shadowed T P (m >>= f) v q' v' := by
  apply Program.Shadowed.silent_bind (hm v) hR
  rintro ⟨e | a, w⟩ hr
  · exact .gaveUp ⟨e, rfl⟩
  · exact hf a w (hr a rfl)

/-- Also at the end of the shadow. -/
theorem Shadowed.silent_end {R : α → σ → Prop} {a' : α'} (hm : m.Only T.silent)
    (hR : m.Leaves R v) (hQ : ∀ a w, R a w → Q a w a' v') :
    Code.Shadowed T Q m v (Pure.pure a' : Code C' A' σ' ε' α') v' := by
  rw [← bind_pure m]
  exact .silent_bind hm hR fun a w hr => .pure (hQ a w hr)

theorem Shadowed.paired {c : C} {c' : C'} {rel : A c → A' c' → Prop} {g : A c → Code C A σ ε β}
    {g' : A' c' → Code C' A' σ' ε' β'} (h : T.paired c c' rel)
    (hg : ∀ a a', rel a a' → Code.Shadowed T P (g a) v (g' a') v') :
    Code.Shadowed T P (Code.perform c >>= g) v (Code.perform c' >>= g') v' :=
  Program.Shadowed.paired h hg

end Code

end Coded

end Programs

/-! ### Runs -/

namespace Machine

variable {C : Type} {A : C → Type} {S K R : Type}

/-- A run that may pause at any moment, and for ever. -/
def Run (M : Machine C A S K R) (x : Nat → Config C A S K R) : Prop :=
  ∀ i, x (i + 1) = x i ∨ M.Step (x i) (x (i + 1))

theorem Run.reach {M : Machine C A S K R} {x : Nat → Config C A S K R} (h : M.Run x) {init : S}
    (hinit : x 0 = idle init) (i : Nat) : M.Reach init (x i) := by
  induction i with
  | zero =>
    rw [hinit]
    exact Relation.ReflTransGen.refl
  | succ i ih =>
    rcases h i with hsame | hstep
    · rw [hsame]
      exact ih
    · exact ih.step hstep

/-- Steps of one configuration after another, with a choice at every step, make a run. -/
theorem Run.of_steps {M : Machine C A S K R} {P : Nat → Config C A S K R → Prop}
    {y₀ : Config C A S K R} (hzero : P 0 y₀)
    (hstep : ∀ i y, P i y → ∃ y', (y' = y ∨ M.Step y y') ∧ P (i + 1) y') :
    ∃ y, M.Run y ∧ y 0 = y₀ ∧ ∀ i, P i (y i) := by
  choose next hnext hP using hstep
  let ys : (i : Nat) → {y // P i y} := fun i =>
    Nat.rec ⟨y₀, hzero⟩ (fun i y => ⟨next i y.1 y.2, hP i y.1 y.2⟩) i
  exact ⟨fun i => (ys i).1, fun i => hnext i (ys i).1 (ys i).2, rfl, fun i => (ys i).2⟩

end Machine

/-! ### Machines and their shadows -/

section Machines

variable {C C' : Type} {A : C → Type} {A' : C' → Type} {S S' K K' R R' : Type}

/-- How a machine is followed by another: which calls are, how their commands and results are,
    which commands the other calls may issue, and the relation of the shared states. -/
structure Shadow (C : Type) (A : C → Type) (C' : Type) (A' : C' → Type)
    (S S' K K' R R' : Type) where
  call : K → Option K'
  matching : K → Matching C A C' A'
  result : K → R → R' → Prop
  aside : K → C → Prop
  same : S → S' → Prop

namespace Shadow

variable (Γ : Shadow C A C' A' S S' K K' R R')

/-- The thread of one number in the two machines. -/
inductive Threads : Option (Thread C A K R) → Option (Thread C' A' K' R') → Prop where
  | idle : Threads none none
  | alone {k : K} {p : Program C A R} (hcall : Γ.call k = none) (hp : p.Only (Γ.aside k)) :
      Threads (some ⟨k, p⟩) none
  | both {k : K} {k' : K'} {p : Program C A R} {p' : Program C' A' R'}
      (hcall : Γ.call k = some k')
      (hp : p.Shadowed (Γ.matching k) (fun _ => False) (Γ.result k) p') :
      Threads (some ⟨k, p⟩) (some ⟨k', p'⟩)

structure Beside (x : Config C A S K R) (y : Config C' A' S' K' R') : Prop where
  shared : Γ.same x.shared y.shared
  threads : ∀ t, Γ.Threads (x.threads t) (y.threads t)

structure Sound (M : Machine C A S K R) (M' : Machine C' A' S' K' R') (init : S) (init' : S') :
    Prop where
  start : Γ.same init init'
  code : ∀ {k k'}, Γ.call k = some k' →
    (M.code k).Shadowed (Γ.matching k) (fun _ => False) (Γ.result k) (M'.code k')
  alone : ∀ {k}, Γ.call k = none → (M.code k).Only (Γ.aside k)
  paired : ∀ {x y t k k' c c' cont cont' rel a s}, M.Reach init x → M'.Reach init' y →
    x.threads t = some ⟨k, .op c cont⟩ → y.threads t = some ⟨k', .op c' cont'⟩ →
    Γ.call k = some k' → (Γ.matching k).paired c c' rel → Γ.same x.shared y.shared →
    M.exec t k c x.shared a s → ∃ a' s', M'.exec t k' c' y.shared a' s' ∧ rel a a' ∧ Γ.same s s'
  silent : ∀ {x y t k k' c cont a s}, M.Reach init x → M'.Reach init' y →
    x.threads t = some ⟨k, .op c cont⟩ → Γ.call k = some k' → (Γ.matching k).silent c →
    Γ.same x.shared y.shared → M.exec t k c x.shared a s → Γ.same s y.shared
  never : ∀ {x t k c cont a s}, M.Reach init x → x.threads t = some ⟨k, .op c cont⟩ →
    (Γ.matching k).never c → ¬ M.exec t k c x.shared a s
  aside : ∀ {x y t k c cont a s}, M.Reach init x → M'.Reach init' y →
    x.threads t = some ⟨k, .op c cont⟩ → y.threads t = none → Γ.call k = none → Γ.aside k c →
    Γ.same x.shared y.shared → M.exec t k c x.shared a s → Γ.same s y.shared
  finish : ∀ {t k k' r r' s s'}, Γ.call k = some k' → Γ.result k r r' → Γ.same s s' →
    Γ.same (M.finish t k r s) (M'.finish t k' r' s')
  skip : ∀ {t k r s s'}, Γ.call k = none → Γ.same s s' → Γ.same (M.finish t k r s) s'

variable {Γ} {M : Machine C A S K R} {M' : Machine C' A' S' K' R'} {init : S} {init' : S'}
  {x x' : Config C A S K R} {y : Config C' A' S' K' R'}

/-- The threads other than the one that stepped stay beside each other. -/
theorem threads_update {th : Nat → Option (Thread C A K R)}
    {th' : Nat → Option (Thread C' A' K' R')} (h : ∀ t, Γ.Threads (th t) (th' t)) (t : Nat)
    {b : Option (Thread C A K R)} {b' : Option (Thread C' A' K' R')} (hb : Γ.Threads b b')
    (u : Nat) : Γ.Threads (Function.update th t b u) (Function.update th' t b' u) := by
  by_cases hut : u = t
  · subst hut
    simpa using hb
  · simpa [hut] using h u

/-- Also when the shadow did not step. -/
theorem threads_update_left {th : Nat → Option (Thread C A K R)}
    {th' : Nat → Option (Thread C' A' K' R')} (h : ∀ t, Γ.Threads (th t) (th' t)) (t : Nat)
    {b : Option (Thread C A K R)} (hb : Γ.Threads b (th' t)) (u : Nat) :
    Γ.Threads (Function.update th t b u) (th' u) := by
  have hsame := threads_update h t hb u
  rwa [Function.update_eq_self] at hsame

/-- **One step** is followed by one step of the shadow or by none. -/
theorem Sound.step (h : Γ.Sound M M' init init') (hx : M.Reach init x) (hy : M'.Reach init' y)
    (hbeside : Γ.Beside x y) (hs : M.Step x x') :
    ∃ y', (y' = y ∨ M'.Step y y') ∧ Γ.Beside x' y' := by
  obtain ⟨hsame, hthreads⟩ := hbeside
  obtain ⟨s', th'⟩ := y
  cases hs with
  | @call s th t k hfree =>
    have hidle : th' t = none := by
      have ht := hthreads t
      simp only [hfree] at ht
      generalize hat : th' t = b at ht
      cases ht
      rfl
    cases hcall : Γ.call k with
    | none =>
      refine ⟨_, .inl rfl, hsame, threads_update_left hthreads t ?_⟩
      simp only [hidle]
      exact .alone hcall (h.alone hcall)
    | some k' =>
      refine ⟨_, .inr (.call t k' hidle), hsame, threads_update hthreads t ?_⟩
      exact .both hcall (h.code hcall)
  | @command s th t k c cont a s₁ hat hexec =>
    have ht := hthreads t
    simp only [hat] at ht
    generalize hat' : th' t = b at ht
    cases ht with
    | alone hcall hp =>
      refine ⟨_, .inl rfl, ?_, threads_update_left hthreads t ?_⟩
      · exact h.aside hx hy hat hat' hcall hp.1 hsame hexec
      · simp only [hat']
        exact .alone hcall (hp.2 a)
    | @both _ k' _ p' hcall hp =>
      cases hp with
      | paired hpair hk =>
        obtain ⟨a', s₁', hexec', hrel, hsame'⟩ :=
          h.paired hx hy hat hat' hcall hpair hsame hexec
        refine ⟨_, .inr (.command t k' _ _ a' s₁' hat' hexec'), hsame',
          threads_update hthreads t ?_⟩
        exact .both hcall (hk a a' hrel)
      | silent hsilent hk =>
        refine ⟨_, .inl rfl, h.silent hx hy hat hcall hsilent hsame hexec,
          threads_update_left hthreads t ?_⟩
        simp only [hat']
        exact .both hcall (hk a)
      | never hnever => exact absurd hexec (h.never hx hat hnever)
  | @«return» s th t k r hat =>
    have ht := hthreads t
    simp only [hat] at ht
    generalize hat' : th' t = b at ht
    cases ht with
    | alone hcall hp =>
      refine ⟨_, .inl rfl, h.skip hcall hsame, threads_update_left hthreads t ?_⟩
      simp only [hat']
      exact .idle
    | @both _ k' _ p' hcall hp =>
      cases hp with
      | ret hr =>
        refine ⟨_, .inr (.return t k' _ hat'), h.finish hcall hr hsame,
          threads_update hthreads t .idle⟩
      | gaveUp hno => exact hno.elim

/-- Where a machine gets, its shadow gets. -/
theorem Sound.reach (h : Γ.Sound M M' init init') (hx : M.Reach init x) :
    ∃ y, M'.Reach init' y ∧ Γ.Beside x y := by
  induction hx with
  | refl => exact ⟨_, .refl, h.start, fun t => .idle⟩
  | tail hx hstep ih =>
    obtain ⟨y, hy, hbeside⟩ := ih
    obtain ⟨y', hmove, hbeside'⟩ := h.step hx hy hbeside hstep
    refine ⟨y', ?_, hbeside'⟩
    rcases hmove with rfl | hstep'
    · exact hy
    · exact hy.step hstep'

/-- **Every run has a shadow** that is beside it at every moment. -/
theorem Sound.run (h : Γ.Sound M M' init init') {xs : Nat → Config C A S K R} (hrun : M.Run xs)
    (hinit : xs 0 = Machine.idle init) :
    ∃ ys, M'.Run ys ∧ ys 0 = Machine.idle init' ∧ ∀ i, Γ.Beside (xs i) (ys i) := by
  have hzero : M'.Reach init' (Machine.idle init') ∧ Γ.Beside (xs 0) (Machine.idle init') := by
    rw [hinit]
    exact ⟨.refl, h.start, fun t => .idle⟩
  obtain ⟨ys, hys, hstart, hbeside⟩ := Machine.Run.of_steps (M := M')
      (P := fun i y => M'.Reach init' y ∧ Γ.Beside (xs i) y) hzero (by
    rintro i y ⟨hy, hbeside⟩
    rcases hrun i with hsame | hstep
    · rw [hsame]
      exact ⟨y, .inl rfl, hy, hbeside⟩
    · obtain ⟨y', hmove, hbeside'⟩ := h.step (hrun.reach hinit i) hy hbeside hstep
      refine ⟨y', hmove, ?_, hbeside'⟩
      rcases hmove with rfl | hstep'
      · exact hy
      · exact hy.step hstep')
  exact ⟨ys, hys, hstart, fun i => (hbeside i).2⟩

end Shadow

end Machines

end MpiRma
