/-
  MpiRma/Replay.lean
  ==================
  **Replaying schedules.**  A schedule is a list of moves: a thread starts a call, runs some
  commands, or runs its call to the end.  `Machine.replay` computes where a schedule leads,
  and what it computes is reachable.  A move names how each command ends, so the schedules
  of a ring decide the faults as well as the order of the steps.
-/
import MpiRma.World

namespace MpiRma

/-! ### Schedules -/

/-- A move of a schedule whose commands end as `E` says. -/
inductive Move (K E : Type) where
  | call (t : Nat) (k : K)
  | commands (t : Nat) (endings : List E)
  | finish (t : Nat) (ending : E)

def Move.thread {K E : Type} : Move K E → Nat
  | .call t _ => t
  | .commands t _ => t
  | .finish t _ => t

section Replay

variable {C : Type} {A : C → Type} {S K R E : Type}

def Program.advance (run : (c : C) → E → S → Option (A c × S)) :
    List E → Program C A R → S → Option (Program C A R × S)
  | [], p, s => some (p, s)
  | _ :: _, .ret _, _ => none
  | e :: endings, .op c k, s =>
    match run c e s with
    | none => none
    | some (a, s') => advance run endings (k a) s'

def Program.complete (run : (c : C) → S → Option (A c × S)) : Program C A R → S → Option (R × S)
  | .ret r, s => some (r, s)
  | .op c k, s =>
    match run c s with
    | none => none
    | some (a, s') => (k a).complete run s'

theorem Program.complete_runs {run : (c : C) → S → Option (A c × S)}
    {sem : (c : C) → S → A c → S → Prop} (hrun : ∀ c s a s', run c s = some (a, s') → sem c s a s')
    {p : Program C A R} {s s' : S} {r : R} (h : p.complete run s = some (r, s')) :
    p.Runs sem s r s' := by
  induction p generalizing s with
  | ret a =>
    obtain ⟨rfl, rfl⟩ := Prod.mk.inj (Option.some.inj h)
    exact ⟨rfl, rfl⟩
  | op c k ih =>
    unfold complete at h
    split at h
    · exact nomatch h
    · rename_i a s₁ hstep
      exact ⟨a, s₁, hrun c s a s₁ hstep, ih a h⟩

namespace Machine

/-- Where one move leads; `none` when it is not a move of the machine. -/
def play (M : Machine C A S K R) (run : Nat → K → (c : C) → E → S → Option (A c × S))
    (move : Move K E) (c : Config C A S K R) : Option (Config C A S K R) :=
  match move with
  | .call t k =>
    match c.threads t with
    | some _ => none
    | none => some ⟨c.shared, Function.update c.threads t (some ⟨k, M.code k⟩)⟩
  | .commands t endings =>
    match c.threads t with
    | none => none
    | some th =>
      match th.program.advance (run t th.call) endings c.shared with
      | none => none
      | some (p, s) => some ⟨s, Function.update c.threads t (some ⟨th.call, p⟩)⟩
  | .finish t ending =>
    match c.threads t with
    | none => none
    | some th =>
      match th.program.complete (fun command => run t th.call command ending) c.shared with
      | none => none
      | some (r, s) => some ⟨M.finish t th.call r s, Function.update c.threads t none⟩

def replay (M : Machine C A S K R) (run : Nat → K → (c : C) → E → S → Option (A c × S)) :
    List (Move K E) → Config C A S K R → Option (Config C A S K R)
  | [], c => some c
  | move :: moves, c =>
    match M.play run move c with
    | none => none
    | some c' => replay M run moves c'

variable {M : Machine C A S K R} {run : Nat → K → (c : C) → E → S → Option (A c × S)}
  (hrun : ∀ t k c e s a s', run t k c e s = some (a, s') → M.exec t k c s a s')

include hrun

theorem steps_of_advance {t : Nat} {k : K} {endings : List E} {p p' : Program C A R} {s s' : S}
    {th : Nat → Option (Thread C A K R)} (hat : th t = some ⟨k, p⟩)
    (h : p.advance (run t k) endings s = some (p', s')) :
    Relation.ReflTransGen M.Step ⟨s, th⟩ ⟨s', Function.update th t (some ⟨k, p'⟩)⟩ := by
  induction endings generalizing p s th with
  | nil =>
    obtain ⟨rfl, rfl⟩ := Prod.mk.inj (Option.some.inj h)
    rw [← hat, Function.update_eq_self]
  | cons e endings ih =>
    cases p with
    | ret r => exact nomatch h
    | op c cont =>
      unfold Program.advance at h
      split at h
      · exact nomatch h
      · rename_i a s₁ hstep
        refine .head (.command t k c cont a s₁ hat (hrun t k c e s a s₁ hstep)) ?_
        have hat' : Function.update th t (some ⟨k, cont a⟩) t = some ⟨k, cont a⟩ := by simp
        have hrest := ih hat' h
        rwa [Function.update_idem] at hrest

theorem steps_of_play {move : Move K E} {c c' : Config C A S K R}
    (h : M.play run move c = some c') :
    Relation.ReflTransGen M.Step c c' := by
  obtain ⟨s, th⟩ := c
  cases move with
  | call t k =>
    unfold play at h
    dsimp only at h
    split at h
    · exact nomatch h
    · rename_i hfree
      obtain rfl := Option.some.inj h
      exact .single (.call t k hfree)
  | commands t endings =>
    unfold play at h
    dsimp only at h
    split at h
    · exact nomatch h
    · rename_i running hat
      split at h
      · exact nomatch h
      · rename_i p s₁ hadvance
        obtain rfl := Option.some.inj h
        exact steps_of_advance hrun hat hadvance
  | finish t ending =>
    unfold play at h
    dsimp only at h
    split at h
    · exact nomatch h
    · rename_i running hat
      split at h
      · exact nomatch h
      · rename_i r s₁ hcomplete
        obtain rfl := Option.some.inj h
        exact steps_of_runs hat (Program.complete_runs
          (fun c s a s' hstep => hrun t running.call c ending s a s' hstep) hcomplete)

/-- A single command is a step. -/
theorem step_of_play {t : Nat} {e : E} {c c' : Config C A S K R}
    (h : M.play run (.commands t [e]) c = some c') : M.Step c c' := by
  obtain ⟨s, th⟩ := c
  unfold play at h
  dsimp only at h
  split at h
  · contradiction
  · rename_i running hat
    obtain ⟨k, p⟩ := running
    cases p with
    | ret r => contradiction
    | op c cont =>
      simp only [Program.advance] at h
      split at h
      · contradiction
      · rename_i p' s' hadvance
        split at hadvance
        · contradiction
        · rename_i a s₁ hstep
          obtain ⟨rfl, rfl⟩ := Prod.mk.inj (Option.some.inj hadvance)
          obtain rfl := Option.some.inj h
          exact .command t k c cont a s₁ hat (hrun t k c e s a s₁ hstep)

/-- What a schedule leads to is reachable. -/
theorem reach_of_replay {moves : List (Move K E)} {init : S} {c c' : Config C A S K R}
    (hc : M.Reach init c) (h : M.replay run moves c = some c') : M.Reach init c' := by
  induction moves generalizing c with
  | nil =>
    obtain rfl := Option.some.inj h
    exact hc
  | cons move moves ih =>
    unfold replay at h
    split at h
    · exact nomatch h
    · rename_i c₁ hplay
      exact ih (hc.steps (steps_of_play hrun hplay)) h

omit hrun in
/-- A move touches no other thread. -/
theorem threads_play {move : Move K E} {c c' : Config C A S K R} (h : M.play run move c = some c')
    {u : Nat} (hu : move.thread ≠ u) : c'.threads u = c.threads u := by
  cases move with
  | call t k =>
    unfold play at h
    dsimp only at h
    split at h
    · contradiction
    · obtain rfl := Option.some.inj h
      exact Function.update_of_ne (Ne.symm hu) _ _
  | commands t endings =>
    unfold play at h
    dsimp only at h
    split at h
    · contradiction
    · split at h
      · contradiction
      · obtain rfl := Option.some.inj h
        exact Function.update_of_ne (Ne.symm hu) _ _
  | finish t ending =>
    unfold play at h
    dsimp only at h
    split at h
    · contradiction
    · split at h
      · contradiction
      · obtain rfl := Option.some.inj h
        exact Function.update_of_ne (Ne.symm hu) _ _

omit hrun in
theorem threads_replay {moves : List (Move K E)} {c c' : Config C A S K R}
    (h : M.replay run moves c = some c') {u : Nat} (hu : ∀ move ∈ moves, move.thread ≠ u) :
    c'.threads u = c.threads u := by
  induction moves generalizing c with
  | nil =>
    obtain rfl := Option.some.inj h
    rfl
  | cons move moves ih =>
    unfold replay at h
    split at h
    · contradiction
    · rename_i c₁ hplay
      rw [ih h fun m hm => hu m (List.mem_cons_of_mem _ hm)]
      exact threads_play hplay (hu move (List.mem_cons_self ..))

/-- Calls one after the other, each alone, with every command ending alike. -/
def alone (M : Machine C A S K R)
    (run : Nat → K → (c : C) → E → S → Option (A c × S)) (ending : E) :
    List (Nat × K) → S → Option S
  | [], s => some s
  | (t, k) :: calls, s =>
    match (M.code k).complete (fun c => run t k c ending) s with
    | none => none
    | some (r, s') => alone M run ending calls (M.finish t k r s')

theorem reach_alone {ending : E} {calls : List (Nat × K)} {init s s' : S}
    (hs : M.Reach init (idle s)) (h : M.alone run ending calls s = some s') :
    M.Reach init (idle s') := by
  induction calls generalizing s with
  | nil =>
    obtain rfl := Option.some.inj h
    exact hs
  | cons call calls ih =>
    obtain ⟨t, k⟩ := call
    unfold alone at h
    split at h
    · contradiction
    · rename_i r s₁ hcomplete
      refine ih (hs.steps (steps_of_alone ?_)) h
      exact Program.complete_runs (fun c s a s' hstep => hrun t k c ending s a s' hstep) hcomplete

end Machine

end Replay

/-! ### Schedules of a ring -/

def Outcome.messages : Outcome → Option (List Message)
  | .polled (.ok messages) => some messages
  | _ => none

theorem Outcome.messages_eq_some {o : Outcome} {messages : List Message}
    (h : o.messages = some messages) : o = .polled (.ok messages) := by
  unfold Outcome.messages at h
  split at h
  · rw [Option.some.inj h]
  · exact nomatch h

variable [Libraries] {n : Nat}

def ringReplay (n : Nat) (ring : Nat → Ring) (faults : Faults)
    (moves : List (Move (Call n) Ending)) :
    Option (Config RingCall RingCall.Answer World (Call n) Outcome) :=
  (ringMachine n ring faults).replay (World.exec faults) moves (Machine.idle (World.fresh n))

theorem exec_of_exec {ring : Nat → Ring} {faults : Faults} (t : Nat) (call : Call n) (c : RingCall)
    (ending : Ending) (w : World) (a : c.Answer) (w' : World)
    (h : World.exec faults t call c ending w = some (a, w')) :
    (ringMachine n ring faults).exec t call c w a w' := ⟨ending, h⟩

theorem reach_replay {ring : Nat → Ring} {faults : Faults} {moves : List (Move (Call n) Ending)}
    {c : Config RingCall RingCall.Answer World (Call n) Outcome}
    (h : ringReplay n ring faults moves = some c) :
    (ringMachine n ring faults).Reach (World.fresh n) c :=
  Machine.reach_of_replay exec_of_exec .refl h

/-- A thread makes a call and runs it to its end, with no command failing. -/
def whole (t : Nat) (rank : Fin n) (request : Request) : List (Move (Call n) Ending) :=
  [.call t ⟨rank, request⟩, .finish t .ok]

/-! ### The libraries -/

def crcBit (crc : Nat) : Nat :=
  if crc % 2 = 1 then (crc >>> 1) ^^^ 0xEDB88320 else crc >>> 1

def crcByte (crc : Nat) (byte : UInt8) : Nat := Nat.repeat crcBit 8 (crc ^^^ byte.toNat)

instance : Std.Total fun a b : Frame => a.sequence ≤ b.sequence := ⟨fun a b => by omega⟩

instance : IsTrans Frame fun a b => a.sequence ≤ b.sequence := ⟨fun a b c => by omega⟩

@[reducible] def libraries : Libraries where
  hash bytes := UInt32.ofNat (bytes.foldl crcByte 0xFFFFFFFF ^^^ 0xFFFFFFFF)
  sortUnstable frames := frames.insertionSort fun a b => a.sequence ≤ b.sequence
  perm frames := List.perm_insertionSort _ frames
  sorted frames := List.pairwise_insertionSort _ frames

end MpiRma
