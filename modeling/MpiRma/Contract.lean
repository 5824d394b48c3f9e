/-
  MpiRma/Contract.lean
  ====================
  **What the commands of a thread do under the discipline.**  `ringContract` is the contract
  each call is verified against.  A thread holds a list of mutexes; taking and dropping
  one, and returning while it holds none, are verified here for all three operations.
-/
import MpiRma.Steps

namespace MpiRma

/-! ### The machine -/

/-- What a run with failing fetch-and-adds is asked to keep: an acknowledgement adds to the
    counter only while its mirror agrees with it. -/
def mirrorAgrees {n : Nat} (faults : Faults) (_ : Nat) (call : Call n) : RingCall → World → Prop
  | .fetchAdd dest disp _, w => faults.adds = true →
    (w.process call.rank).acked[dest.toNat]? = some ((w.process dest.toNat).acks disp)
  | _, _ => True

section

variable [Libraries] {n : Nat} {safe : Bool} {ring : Nat → Ring}

/-- The machine of a ring whose acknowledgements agree with their mirrors. -/
def mirroredMachine (n : Nat) (ring : Nat → Ring) (faults : Faults) :
    Machine RingCall RingCall.Answer World (Call n) Outcome :=
  (ringMachine n ring faults).restrict (mirrorAgrees faults)

def ringContract (W : Wired n safe ring) (faults : Faults) (t : Nat) (call : Call n) :
    Program.Contract RingCall RingCall.Answer World :=
  (ringDiscipline W faults).contract (mirroredMachine n ring faults) t call

variable {W : Wired n safe ring} {faults : Faults} {t : Nat} {call : Call n} {w : World}

theorem ringContract_monotone : (ringContract W faults t call).Monotone :=
  Discipline.contract_monotone _ _ _ _

/-- A command is verified by what it does in every state the others can leave. -/
theorem ringContract_intro {c : RingCall} {Q : c.Answer → World → Prop}
    (h : ∀ w₁, RingRely W t w w₁ → RingInv W faults w₁ → ∀ ending a w₂,
      mirrorAgrees faults t call c w₁ → World.exec faults t call c ending w₁ = some (a, w₂) →
      Preserved W faults t w₁ w₂ ∧ Q a w₂) : ringContract W faults t call c Q w := by
  rintro w₁ hrely hinv a w₂ ⟨hmirror, ending, hexec⟩
  obtain ⟨hkept, hQ⟩ := h w₁ hrely hinv ending a w₂ hmirror hexec
  exact ⟨hkept.inv, hkept.others, hQ⟩

end

/-! ### Mutexes a thread holds -/

def Holding (t : Nat) (ms : List Mutex) (w : World) : Prop := ∀ m, w.holder m = some t ↔ m ∈ ms

section Holding

variable {n : Nat} {safe : Bool} {ring : Nat → Ring} {W : Wired n safe ring} {t : Nat}
  {w w' : World} {ms : List Mutex} {m : Mutex}

theorem Idle.holding (h : Idle t w) : Holding t [] w := fun m =>
  ⟨fun hm => absurd hm (h m), nofun⟩

theorem Holding.idle (h : Holding t [] w) : Idle t w := fun m hm => nomatch (h m).mp hm

theorem Holding.rely (h : Holding t ms w) (hrely : RingRely W t w w') : Holding t ms w' :=
  fun m => (hrely.held m).trans (h m)

theorem Holding.held (h : Holding t ms w) (hm : m ∈ ms) : w.holder m = some t := (h m).mpr hm

theorem Holding.take (h : Holding t ms w) : Holding t (m :: ms) (w.take t m) := by
  intro m'
  by_cases hm : m' = m
  · subst hm
    simp [World.take]
  · simp [World.take, hm, h m']

theorem Holding.drop (h : Holding t (m :: ms) w) (hm : m ∉ ms) (poison : Bool) :
    Holding t ms (w.drop m poison) := by
  intro m'
  by_cases hsame : m' = m
  · subst hsame
    simp [World.drop, hm]
  · rw [World.drop_other poison hsame, h m']
    simp [hsame]

theorem Holding.congr (h : Holding t ms w) (hholder : w'.holder = w.holder) : Holding t ms w' := by
  intro m
  rw [hholder]
  exact h m

theorem lock_some {α : Type} {data : α} {answer : Option α} (hclean : ∀ m, w.poisoned m = false)
    (h : w.lock t m data = some (answer, w')) :
    w.holder m = none ∧ answer = some data ∧ w' = w.take t m := by
  unfold World.lock at h
  split at h
  · rename_i hfree
    rw [hclean m] at h
    obtain ⟨hanswer, hw⟩ := Prod.mk.inj (Option.some.inj h)
    exact ⟨hfree, hanswer.symm, hw.symm⟩
  · exact nomatch h

end Holding

/-! ### Returning -/

section Returning

variable [Libraries] {n : Nat} {safe : Bool} {ring : Nat → Ring} {W : Wired n safe ring}
  {faults : Faults} {t : Nat} {call : Call n} {w : World}

/-- A thread that holds nothing may return an outcome the law allows from now on. -/
theorem returns_ok {outcome : Outcome} (hidle : Holding t [] w)
    (h : ∀ log, Lawful W faults log → w.log <:+ log →
      ReturnedOk W faults log call.rank call.request outcome) :
    (ringDiscipline W faults).Returns (mirroredMachine n ring faults) t call outcome w := by
  intro w₁ hrely hinv
  have hkept : Preserved W faults t w₁ (w₁.record (.returned call.rank call.request outcome)) :=
    hinv.note trivial ⟨call.rank.isLt, h w₁.log hinv.lawful hrely.log⟩ fun d hown => hown.elim
  exact ⟨hkept.inv, hkept.others, (hidle.rely hrely).idle⟩

theorem SentOk.mono {log log' : List Event} {s : Nat} {destination : Int} {data : Bytes}
    {result : Except Fail Nat} (hlaw : Lawful W faults log') (hs : log <:+ log')
    (h : SentOk W faults log s destination data result) :
    SentOk W faults log' s destination data result := by
  rcases result with (e | _) | sequence
  · rcases h with hrank | ⟨d, hd, hlt, hnone | ⟨l, hlane, hpayload | hfull | ⟨he, hmax⟩ | hfault⟩⟩
    · exact .inl hrank
    · exact .inr ⟨d, hd, hlt, .inl hnone⟩
    · exact .inr ⟨d, hd, hlt, .inr ⟨l, hlane, .inl hpayload⟩⟩
    · exact .inr ⟨d, hd, hlt, .inr ⟨l, hlane, .inr (.inl hfull)⟩⟩
    · exact .inr ⟨d, hd, hlt, .inr ⟨l, hlane,
        .inr (.inr (.inl ⟨he, Nat.le_trans hmax (hlaw.sent_mono hs)⟩))⟩⟩
    · exact .inr ⟨d, hd, hlt, .inr ⟨l, hlane, .inr (.inr (.inr hfault))⟩⟩
  · exact h
  · obtain ⟨d, disp, len, hd, hmem⟩ := h
    exact ⟨d, disp, len, hd, hs.subset hmem⟩

end Returning

end MpiRma
