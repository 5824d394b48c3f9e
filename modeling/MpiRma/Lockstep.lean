/-
  MpiRma/Lockstep.lean
  ====================
  **Parties that meet in collective commands, step by step.**  `CollectiveRun` speaks of
  runs in which everyone finished; here the parties may also come to different ends.  Each
  runs on its own, its private commands answered by its own conditions, up to the next
  collective command (`Party.ahead`); a meeting is one collective command of all of them
  (`Meets`).  A state is in step when all have returned or all wait for one another.
-/
import MpiRma.Collective
import Mathlib.Logic.Relation

namespace MpiRma

section Lockstep

variable {C : Type} {A : C → Type} {α ι κ : Type}

structure Party (C : Type) (A : C → Type) (α : Type) where
  trace : List ((c : C) × A c)
  rest : Program C A α

def Program.ahead (collective : C → Bool) (own : (c : C) → A c) :
    Program C A α → List ((c : C) × A c) × Program C A α
  | .ret a => ([], .ret a)
  | .op c k =>
    if collective c then ([], .op c k)
    else (⟨c, own c⟩ :: ((k (own c)).ahead collective own).1, ((k (own c)).ahead collective own).2)

def Party.ahead (collective : C → Bool) (own : (c : C) → A c) (p : Party C A α) : Party C A α :=
  ⟨p.trace ++ (p.rest.ahead collective own).1, (p.rest.ahead collective own).2⟩

/-- The parties make a collective command together. -/
inductive Meets (collective : C → Bool) (own : ι → (c : C) → A c)
    (joint : (ι → (c : C) × A c) → Prop) (P : ι → Party C A α) : (ι → Party C A α) → Prop where
  | mk (c : ι → C) (k : ∀ i, A (c i) → Program C A α) (a : ∀ i, A (c i))
      (hat : ∀ i, ((P i).ahead collective (own i)).rest = .op (c i) (k i))
      (hjoint : joint fun i => ⟨c i, a i⟩) :
      Meets collective own joint P fun i =>
        ⟨((P i).ahead collective (own i)).trace ++ [⟨c i, a i⟩], k i (a i)⟩

def Together (collective : C → Bool) (own : ι → (c : C) → A c)
    (joint : (ι → (c : C) × A c) → Prop) (P P' : ι → Party C A α) : Prop :=
  Relation.ReflTransGen (Meets collective own joint) P P'

/-- All parties have returned, or all are at a collective command of one kind. -/
def InStep (collective : C → Bool) (own : ι → (c : C) → A c) (kind : C → κ)
    (P : ι → Party C A α) : Prop :=
  (∀ i, ∃ r, ((P i).ahead collective (own i)).rest = .ret r) ∨
    ∃ k, ∀ i, ∃ c cont, ((P i).ahead collective (own i)).rest = .op c cont ∧ kind c = k

/-- Every run from `P` comes to `G`, and the parties are in step until they are there. -/
structure ComesTo (collective : C → Bool) (own : ι → (c : C) → A c)
    (joint : (ι → (c : C) × A c) → Prop) (kind : C → κ) (P G : ι → Party C A α) : Prop where
  reached : Together collective own joint P G
  inevitable : ∀ Q, Together collective own joint P Q →
    Together collective own joint Q G ∨ Together collective own joint G Q
  inStep : ∀ Q, Together collective own joint P Q → Together collective own joint Q G →
    InStep collective own kind Q

def Party.calls (collective : C → Bool) (kind : C → κ) (p : Party C A α) : List κ :=
  (p.trace.filter fun e => collective e.1).map fun e => kind e.1

variable {collective : C → Bool} {own : ι → (c : C) → A c}
  {joint : (ι → (c : C) × A c) → Prop} {P P' : ι → Party C A α}

section Ahead

variable {mine : (c : C) → A c}

theorem Program.ahead_op {c : C} {k : A c → Program C A α} (h : collective c = true) :
    (Program.op c k).ahead collective mine = ([], .op c k) := by
  unfold Program.ahead
  rw [if_pos h]

theorem Program.ahead_own {c : C} {k : A c → Program C A α} (h : collective c = false) :
    (Program.op c k).ahead collective mine =
      (⟨c, mine c⟩ :: ((k (mine c)).ahead collective mine).1,
        ((k (mine c)).ahead collective mine).2) := by
  rw [Program.ahead, if_neg (by rw [h]; decide)]

/-- Private commands are made without waiting for anyone. -/
theorem Program.ahead_bind {β : Type} {p : Program C A α} {f : α → Program C A β}
    (hp : p.Only fun c => collective c = false) :
    (p.bind f).ahead collective mine =
      ((p.traceWith mine).1 ++ ((f (p.traceWith mine).2).ahead collective mine).1,
        ((f (p.traceWith mine).2).ahead collective mine).2) := by
  induction p with
  | ret a => rfl
  | op c k ih =>
    obtain ⟨hc, hk⟩ := hp
    rw [Program.bind, Program.ahead_own hc, ih _ (hk _)]
    rfl

/-- A party at a collective command stays there. -/
theorem Party.ahead_op {p : Party C A α} {c : C} {k : A c → Program C A α}
    (hat : p.rest = .op c k) (h : collective c = true) : p.ahead collective mine = p := by
  obtain ⟨trace, rest⟩ := p
  dsimp only at hat
  subst hat
  unfold Party.ahead
  rw [Program.ahead_op h, List.append_nil]

theorem Party.ahead_ret {p : Party C A α} {r : α} (hat : p.rest = .ret r) :
    p.ahead collective mine = p := by
  obtain ⟨trace, rest⟩ := p
  dsimp only at hat
  subst hat
  unfold Party.ahead Program.ahead
  rw [List.append_nil]

theorem Program.ahead_private (p : Program C A α) :
    ∀ e ∈ (p.ahead collective mine).1, collective e.1 = false := by
  induction p with
  | ret a =>
    intro e he
    contradiction
  | op c k ih =>
    cases hc : collective c with
    | true =>
      rw [Program.ahead_op hc]
      intro e he
      contradiction
    | false =>
      rw [Program.ahead_own hc]
      intro e he
      rcases List.mem_cons.mp he with rfl | he
      · exact hc
      · exact ih _ e he

/-- A party waits in collective commands only. -/
theorem Program.ahead_waits (p : Program C A α) {c : C} {k : A c → Program C A α}
    (h : (p.ahead collective mine).2 = .op c k) : collective c = true := by
  induction p with
  | ret a => contradiction
  | op c' k' ih =>
    cases hc : collective c' with
    | true =>
      rw [Program.ahead_op hc] at h
      injection h with hsame
      rw [← hsame]
      exact hc
    | false =>
      rw [Program.ahead_own hc] at h
      exact ih _ h

theorem Party.calls_ahead {kind : C → κ} (p : Party C A α) :
    (p.ahead collective mine).calls collective kind = p.calls collective kind := by
  unfold Party.calls Party.ahead
  have hnone : (p.rest.ahead collective mine).1.filter (fun e => collective e.1) = [] := by
    apply List.filter_eq_nil_iff.mpr
    intro e he
    rw [p.rest.ahead_private e he]
    decide
  rw [List.filter_append, hnone, List.append_nil]

end Ahead

/-- The next meeting is the one all parties wait for. -/
theorem Meets.inv {c : ι → C} {k : ∀ i, A (c i) → Program C A α}
    (hat : ∀ i, ((P i).ahead collective (own i)).rest = .op (c i) (k i))
    (h : Meets collective own joint P P') :
    ∃ a : ∀ i, A (c i), joint (fun i => ⟨c i, a i⟩) ∧
      P' = fun i => ⟨((P i).ahead collective (own i)).trace ++ [⟨c i, a i⟩], k i (a i)⟩ := by
  cases h with
  | mk c' k' a' hat' hjoint =>
    obtain rfl : c' = c := by
      funext i
      have hsame := (hat' i).symm.trans (hat i)
      injection hsame
    have hk : ∀ i, k' i = k i := by
      intro i
      have hsame := (hat' i).symm.trans (hat i)
      injection hsame
    refine ⟨a', hjoint, ?_⟩
    funext i
    rw [hk i]

/-- A party that has returned meets nobody any more. -/
theorem Meets.returned {i : ι} {r : α} (hat : ((P i).ahead collective (own i)).rest = .ret r) :
    ¬ Meets collective own joint P P' := by
  rintro ⟨c, k, a, hat', -⟩
  have hsame := (hat' i).symm.trans hat
  contradiction

/-- Where nobody can meet, the run ends. -/
theorem Together.final (h : Together collective own joint P P')
    (hfinal : ∀ P', ¬ Meets collective own joint P P') : P' = P := by
  rcases Relation.ReflTransGen.cases_head h with heq | ⟨Q, hstep, -⟩
  · exact heq.symm
  · exact absurd hstep (hfinal Q)

/-- A run goes on through the next meeting or is still before it. -/
theorem Together.cases {S : (ι → Party C A α) → Prop}
    (h : Together collective own joint P P')
    (hmeets : ∀ Q, Meets collective own joint P Q → S Q) :
    P' = P ∨ ∃ Q, S Q ∧ Together collective own joint Q P' := by
  rcases Relation.ReflTransGen.cases_head h with heq | ⟨Q, hstep, hrest⟩
  · exact .inl heq.symm
  · exact .inr ⟨Q, hmeets Q hstep, hrest⟩

/-- Parties that meet in commands of one kind make the same sequence of them. -/
theorem Together.calls {kind : C → κ}
    (hkind : ∀ row : ι → (c : C) × A c, joint row → ∀ i j, kind (row i).1 = kind (row j).1)
    (h : Together collective own joint P P')
    (hstart : ∀ i j, (P i).calls collective kind = (P j).calls collective kind) (i j : ι) :
    (P' i).calls collective kind = (P' j).calls collective kind := by
  induction h with
  | refl => exact hstart i j
  | tail _ hmeets ih =>
    cases hmeets with
    | mk c k a hat hjoint =>
      have hsingle : ∀ (p : Party C A α) (i : ι) (rest : Program C A α),
          collective (c i) = true → Party.calls collective kind ⟨p.trace ++ [⟨c i, a i⟩], rest⟩ =
            p.calls collective kind ++ [kind (c i)] := by
        intro p i rest hc
        unfold Party.calls
        simp [List.filter_append, hc]
      rw [hsingle _ i _ (Program.ahead_waits _ (hat i)),
        hsingle _ j _ (Program.ahead_waits _ (hat j)),
        Party.calls_ahead, Party.calls_ahead, ih]
      have hsame := hkind _ hjoint i j
      dsimp only at hsame
      rw [hsame]

/-! ### Where every run comes to -/

section ComesTo

variable {kind : C → κ} {G : ι → Party C A α}

theorem Meets.longer (h : Meets collective own joint P P') (i : ι) :
    (P i).trace.length < (P' i).trace.length := by
  cases h with
  | mk c k a hat hjoint =>
    dsimp only [Party.ahead]
    rw [List.length_append, List.length_append, List.length_singleton]
    omega

theorem Together.longer (h : Together collective own joint P P') (i : ι) :
    (P i).trace.length ≤ (P' i).trace.length := by
  induction h with
  | refl => exact Nat.le_refl _
  | tail _ hmeets ih => exact Nat.le_trans ih (Nat.le_of_lt (hmeets.longer i))

/-- No run comes back to where it was. -/
theorem Together.antisymm (h : Together collective own joint P P')
    (hback : Together collective own joint P' P) : P' = P := by
  rcases Relation.ReflTransGen.cases_head h with heq | ⟨R, hmeets, hrest⟩
  · exact heq.symm
  · funext i
    have hlonger := hmeets.longer i
    have hrest' := Together.longer hrest i
    have hback' := Together.longer hback i
    omega

theorem ComesTo.here (hstep : InStep collective own kind P) :
    ComesTo collective own joint kind P P := by
  refine ⟨.refl, fun Q hQ => .inr hQ, ?_⟩
  intro Q hQ hback
  rw [Together.antisymm hQ hback]
  exact hstep

/-- The parties have one meeting before them. -/
theorem ComesTo.meets (hstep : InStep collective own kind P)
    (hnext : ∀ Q, Meets collective own joint P Q ↔ Q = P')
    (h : ComesTo collective own joint kind P' G) : ComesTo collective own joint kind P G := by
  refine ⟨.head ((hnext P').mpr rfl) h.reached, ?_, ?_⟩
  · intro Q hQ
    rcases hQ.cases fun Q => (hnext Q).mp with rfl | ⟨R, rfl, hrest⟩
    · exact .inl (.head ((hnext P').mpr rfl) h.reached)
    · exact h.inevitable Q hrest
  · intro Q hQ hback
    rcases hQ.cases fun Q => (hnext Q).mp with rfl | ⟨R, rfl, hrest⟩
    · exact hstep
    · exact h.inStep Q hrest hback

end ComesTo

/-! ### What programs return -/

section Returns

variable {Q : α → Prop}

theorem Program.Returns.ahead {mine : (c : C) → A c} {p : Program C A α} (h : p.Returns Q) :
    (p.ahead collective mine).2.Returns Q := by
  induction p with
  | ret a => exact h
  | op c k ih =>
    cases hc : collective c with
    | true =>
      rw [Program.ahead_op hc]
      exact h
    | false =>
      rw [Program.ahead_own hc]
      exact ih _ (h _)

/-- Meetings change nothing about what a party may return. -/
theorem Together.returns {R : ι → α → Prop} (h : Together collective own joint P P')
    (hreturns : ∀ i, (P i).rest.Returns (R i)) (i : ι) : (P' i).rest.Returns (R i) := by
  induction h with
  | refl => exact hreturns i
  | tail _ hmeets ih =>
    cases hmeets with
    | mk c k a hat hjoint =>
      have hrest : (Program.ahead collective (own i) _).2.Returns (R i) := Program.Returns.ahead ih
      have hop := hat i
      unfold Party.ahead at hop
      dsimp only at hop
      rw [hop] at hrest
      exact hrest (a i)

end Returns

end Lockstep

end MpiRma
