/-
  MpiRma/Acknowledged.lean
  ========================
  **The counter of a lane is the greatest sequence acknowledged.**  When an acknowledgement
  compares its sequence with the cursor it is decided; one that is refused, or comes behind
  the mirror, changes nothing; and the counter is a bound of the sequences whose
  acknowledgement returned `Ok`, reached by one that did or can do nothing else.
-/
import MpiRma.Cumulative
import MpiRma.Refusals
import Mathlib.Data.List.MinMax

namespace MpiRma

/-! ### The moment of the check -/

def Compares : RingProgram Outcome → Prop
  | .op .lockSeen _ => True
  | _ => False

/-- The command by which an acknowledgement finds out whether its sequence has been returned:
    taking the cursors' mutex, or the mirror's when that has the sequence already. -/
def ChecksCursor (rest : RingProgram Outcome) : RingCall → Prop
  | .lockAcked => ¬ Compares rest
  | .lockSeen => True
  | _ => False

section Deciding

variable [Libraries] {n : Nat} {ring : Nat → Ring} {W : Wired n true ring}
  {t s d q : Nat} {l : Lane}
  {w w' : World} {call : Call n} {c : RingCall} {cont : c.Answer → RingProgram Outcome}
  {a : c.Answer} {x y : Config RingCall RingCall.Answer World (Call n) Outcome}

/-- What an acknowledgement decides by a cursor. -/
structure AckDecides (n : Nat) (ring : Nat → Ring) (t s q cursor : Nat)
    (y : Config RingCall RingCall.Answer World (Call n) Outcome) : Prop where
  acknowledges : q ≤ cursor →
    ∀ r, (ringMachine n ring Faults.none).Ends t y r ↔ r = .acked (.ok ())
  refuses : cursor < q → ∀ r, (ringMachine n ring Faults.none).Ends t y r ↔
    r = .acked (.error (.error (.ack s q cursor)))

/-- The cursor of a lane in the state of its receiver. -/
theorem RingInv.seen_get (h : RingInv W Faults.none w) (hlane : W.lane s d = some l) :
    (w.process d).seen[s]? = some (cursorOf s d w.log) := by
  rw [(h.rank d (W.lanes hlane).destination).seen, seenOf_get (W.lanes hlane).source]

/-- **An acknowledgement decides by the cursor at the moment of the check.** -/
theorem ack_decides (W : Wired n true ring)
    (hreach : (ringMachine n ring Faults.none).Reach (World.fresh n) x)
    (hacts : (ringMachine n ring Faults.none).Acts t call c cont a x y)
    (hchecks : ChecksCursor (cont a) c) (hcall : call.request = .ack s q)
    (hlane : W.lane s call.rank = some l) :
    AckDecides n ring t s q (cursorOf s call.rank x.shared.log) y := by
  have hinv := reach_inv W rfl hreach
  have hreach' := hreach.step hacts.step
  have hpoll : call.request ≠ .poll := by
    rw [hcall]
    simp
  obtain ⟨o, hstand⟩ := reach_ackAt W hreach hacts.before hcall hlane
  obtain ⟨ending, hexec⟩ := hacts.exec
  have hdone : ∀ r, AckAt W t call.rank s l q y.shared (some r) (cont a) → ∀ r',
      (ringMachine n ring Faults.none).Ends t y r' ↔ r' = .acked r := fun r h =>
    h.ends W hreach' hacts.at_after hpoll hlane
  generalize hp : Program.op c cont = p at hstand
  cases hstand with
  | starting hidle =>
    cases hp
    obtain ⟨acked, rfl, htaken, hmine⟩ := lockAcked_acking hidle hinv hexec
    have hmirror := hmine.mirrors rfl rfl s l hlane
    have hcursor := (hmine.inv.lane s call.rank l hlane).counter rfl
    have hlog : y.shared.log = x.shared.log := by rw [htaken]; rfl
    rw [hlog] at hcursor
    have hrest : Ack.holding s l q acked =
        if q ≤ (y.shared.process s).acks l.ack then Ack.leaving (.ok ()) acked
        else Ack.checking s l q ((y.shared.process s).acks l.ack) acked := by
      unfold Ack.holding
      rw [hmirror]
    by_cases hfew : q ≤ (y.shared.process s).acks l.ack
    · rw [if_pos hfew] at hrest
      refine ⟨fun _ => hdone (.ok ()) ?_, fun hlow => by omega⟩
      show AckAt W t call.rank s l q y.shared _ (Ack.holding s l q acked)
      rw [hrest]
      exact .leaving hmine.holding (fun _ => hfew) (.inl hmine.stored) (hmine.others s) (.inl rfl)
    · rw [if_neg hfew] at hrest
      have hcompares : Compares (Ack.holding s l q acked) := hrest ▸ trivial
      exact absurd hcompares hchecks
  | @checking acked mirror hmine hmirror hlow =>
    cases hp
    obtain ⟨rfl, hat⟩ := AckAt.checked hlane hpoll hmine hmirror hlow hexec
    have hends := hdone _ hat
    rw [verdict_seenOf (W.lanes hlane).source] at hends
    constructor
    · intro hpass r
      rw [hends r, if_neg (Nat.not_lt.mpr hpass)]
    · intro hback r
      rw [hends r, if_pos hback]
  | comparing | adding | leaving =>
    cases hp
    exact hchecks.elim
  | returning => exact nomatch hp

structure AcksKept (w w' : World) : Prop where
  acks : ∀ i, (w'.process i).acks = (w.process i).acks
  acked : ∀ i, (w'.process i).acked = (w.process i).acked
  seen : ∀ i, (w'.process i).seen = (w.process i).seen

/-- **An acknowledgement that is refused, or comes behind the mirror, changes nothing.** -/
theorem ack_keeps (W : Wired n true ring)
    (hreach : (ringMachine n ring Faults.none).Reach (World.fresh n) x)
    (hacts : (ringMachine n ring Faults.none).Acts t call c cont a x y)
    (hcall : call.request = .ack s q) (hlane : W.lane s call.rank = some l)
    (hvain : (∃ e, (ringMachine n ring Faults.none).Ends t x (.acked (.error e))) ∨
      ∃ mirror, (x.shared.process call.rank).acked[s]? = some mirror ∧ q ≤ mirror) :
    AcksKept x.shared y.shared := by
  have hpoll : call.request ≠ .poll := by
    rw [hcall]
    simp
  have hinv := reach_inv W rfl hreach
  have hbefore := hacts.before
  obtain ⟨o, hstand⟩ := reach_ackAt W hreach hbefore hcall hlane
  obtain ⟨ending, hexec⟩ := hacts.exec
  have hframed := exec_framed hexec
  -- an acknowledgement decided well past the mirror is neither refused nor behind it
  have hreal : ∀ mirror, AckAt W t call.rank s l q x.shared (some (.ok ())) (.op c cont) →
      (x.shared.process call.rank).acked[s]? = some mirror → mirror < q → False := by
    intro mirror hat hmirror hlow
    rcases hvain with ⟨e, hends⟩ | ⟨mirror', hmirror', hfew⟩
    · have := (hat.ends W hreach hbefore hpoll hlane _).mp hends
      simp at this
    · have := Option.some.inj (hmirror.symm.trans hmirror')
      omega
  generalize hp : Program.op c cont = p at hstand
  cases hstand with
  | starting hidle =>
    cases hp
    obtain ⟨acked, -, htaken, -⟩ := lockAcked_acking hidle hinv hexec
    rw [htaken]
    exact ⟨fun _ => rfl, fun _ => rfl, fun _ => rfl⟩
  | checking hmine hmirror hlow =>
    cases hp
    obtain ⟨-, htaken, -⟩ := lockSeen_acking hpoll hmine hexec
    rw [htaken]
    exact ⟨fun _ => rfl, fun _ => rfl, fun _ => rfl⟩
  | @comparing acked seen mirror verdict hmine hmirror hlow hseen hfair hpass =>
    cases hp
    have hheld := hmine.holding.held (List.mem_cons_self ..)
    unfold World.exec at hexec
    dsimp only at hexec
    rw [if_pos hheld] at hexec
    obtain ⟨-, hsame⟩ := Prod.mk.inj (Option.some.inj hexec)
    have hself : ∀ i, (y.shared.process i) = x.shared.process i := by
      intro i
      rw [← hsame]
      show ((x.shared.modify call.rank fun p => { p with seen := seen }).process i) = _
      by_cases hi : i = call.rank
      · subst hi
        rw [World.modify_self, ← hseen]
      · rw [World.modify_other hi]
    exact ⟨fun i => congrArg Process.acks (hself i), fun i => congrArg Process.acked (hself i),
      fun i => congrArg Process.seen (hself i)⟩
  | @adding acked mirror hmine hmirror hlow hpass =>
    cases hp
    exact (hreal mirror (.adding hmine hmirror hlow hpass) (hmine.stored ▸ hmirror) hlow).elim
  | @leaving acked result hholding hreached hkept hothers hfair =>
    cases hp
    rcases hkept with hstored | ⟨rfl, mirror, hmirror, hlow⟩
    swap
    · exact (hreal mirror (.leaving hholding hreached (.inr ⟨rfl, mirror, hmirror, hlow⟩) hothers
        hfair) hmirror hlow).elim
    unfold World.exec at hexec
    dsimp only at hexec
    rw [if_pos (hholding.held (List.mem_singleton.mpr rfl))] at hexec
    obtain ⟨-, hsame⟩ := Prod.mk.inj (Option.some.inj hexec)
    have hself : ∀ i, (y.shared.process i) = x.shared.process i := by
      intro i
      rw [← hsame]
      show ((x.shared.modify call.rank fun p => { p with acked := acked }).process i) = _
      by_cases hi : i = call.rank
      · subst hi
        rw [World.modify_self, ← hstored]
      · rw [World.modify_other hi]
    exact ⟨fun i => congrArg Process.acks (hself i), fun i => congrArg Process.acked (hself i),
      fun i => congrArg Process.seen (hself i)⟩
  | returning => exact nomatch hp

end Deciding

/-! ### Other calls -/

def RingCall.acking : RingCall → Bool
  | .lockAcked => true
  | .unlockAcked _ _ => true
  | .fetchAdd _ _ _ => true
  | _ => false

section Away

variable [Libraries] {n : Nat} {ring : Nat → Ring} {W : Wired n true ring} {t : Nat} {w w' : World}
  {call : Call n}

def Acknowledges (W : Wired n true ring) (call : Call n) : Prop :=
  ∃ (s : Nat) (q : Nat) (l : Lane), call.request = .ack s q ∧ W.lane s call.rank = some l

def AwayAt (W : Wired n true ring) (t : Nat) (call : Call n) (p : RingProgram Outcome) (w : World) :
    Prop :=
  ¬ Acknowledges W call → p.Only (fun c => c.acking = false) ∧ ∀ d, w.holder (.acked d) ≠ some t

/-- A call that acknowledges on no lane issues no command of an acknowledgement. -/
theorem away_code (W : Wired n true ring) (hcall : ¬ Acknowledges W call) :
    (Call.code ring call).Only fun c => c.acking = false := by
  obtain ⟨rank, request⟩ := call
  cases request with
  | send destination data =>
    rw [send_code W rfl]
    refine (send_only W rank destination data).mono fun c hc => ?_
    cases c with
    | lockAcked | unlockAcked | fetchAdd => exact hc.elim
    | _ => rfl
  | poll =>
    refine Program.only_bind ⟨rfl, ?_⟩ fun _ => trivial
    rintro (_ | seen)
    · trivial
    · refine Program.only_bind ?_ fun _ => ⟨rfl, fun _ => trivial⟩
      refine (Ring.only_pollLanes (ring rank) (ring rank).incoming [] seen).mono fun c hc => ?_
      cases c with
      | lockAcked | unlockAcked | fetchAdd => exact hc.elim
      | _ => rfl
  | ack origin sequence =>
    rw [ack_code W rfl]
    unfold Ack.code
    split
    · trivial
    split
    · trivial
    split
    · trivial
    · rename_i hpeer _ l hlane
      refine absurd ⟨origin.toNat, sequence, l, ?_, hlane⟩ hcall
      show Request.ack origin sequence = _
      rw [Int.toNat_of_nonneg (by omega)]

omit [Libraries] in
/-- A command that works on no mirror takes no mirror's mutex. -/
theorem exec_acked_holder {faults : Faults} {c : RingCall} {ending : Ending} {a : c.Answer}
    (hc : c.acking = false) (h : World.exec faults t call c ending w = some (a, w')) (d : Nat) :
    w'.holder (.acked d) = w.holder (.acked d) := by
  have hlock : ∀ {α : Type} {m : Mutex} {data : α} {answer : Option α} {w₁ : World},
      m ≠ .acked d → w.lock t m data = some (answer, w₁) →
      w₁.holder (.acked d) = w.holder (.acked d) := by
    intro α m data answer w₁ hm hlock
    unfold World.lock at hlock
    split at hlock
    · split at hlock
      · obtain ⟨-, rfl⟩ := Prod.mk.inj (Option.some.inj hlock)
        rfl
      · obtain ⟨-, rfl⟩ := Prod.mk.inj (Option.some.inj hlock)
        exact Function.update_of_ne (Ne.symm hm) _ _
    · contradiction
  unfold World.exec at h
  cases c with
  | lockSent i => exact hlock (by simp) h
  | lockSeen =>
    dsimp only at h
    split at h
    · contradiction
    · rename_i answer w₁ hlocked
      obtain ⟨-, rfl⟩ := Prod.mk.inj (Option.some.inj h)
      have hsame := hlock (by simp) hlocked
      split
      · exact hsame
      · exact hsame
  | unlockSent i outgoing poison =>
    dsimp only at h
    split at h
    · obtain ⟨-, rfl⟩ := Prod.mk.inj (Option.some.inj h)
      exact World.drop_other poison (by simp)
    · contradiction
  | unlockSeen seen poison polled =>
    dsimp only at h
    split at h
    · obtain ⟨-, rfl⟩ := Prod.mk.inj (Option.some.inj h)
      have hdrop : ((w.modify call.rank fun p => { p with seen := seen }).drop
          (.seen call.rank) poison).holder (.acked d) = w.holder (.acked d) :=
        World.drop_other poison (by simp)
      cases polled with
      | none => exact hdrop
      | some result => exact hdrop
    · contradiction
  | lockAcked | unlockAcked | fetchAdd => contradiction
  | readLocal | readLocalVolatile | readCounter | addLost | addCorrupt | maxLag | addFull =>
    obtain ⟨-, rfl⟩ := Prod.mk.inj (Option.some.inj h)
    rfl
  | put dest disp image =>
    dsimp only at h
    split at h
    · obtain ⟨-, rfl⟩ := Prod.mk.inj (Option.some.inj h)
      rfl
    all_goals
      split at h
      · obtain ⟨-, rfl⟩ := Prod.mk.inj (Option.some.inj h)
        rfl
      · contradiction

theorem away_tracked : Tracking (ringDiscipline W Faults.none)
    (mirroredMachine n ring Faults.none) (AwayAt W) where
  start {t call w} _ hidle hcall := ⟨away_code W hcall, fun d => hidle (.acked d)⟩
  step {t call c cont a w w'} hinv hinv' h := by
    rintro ⟨-, ending, hexec⟩ hcall
    obtain ⟨honly, hfree⟩ := h hcall
    refine ⟨honly.2 a, fun d => ?_⟩
    rw [exec_acked_holder honly.1 hexec d]
    exact hfree d
  stable {t u call p w w'} _ _ _ hrely h := by
    intro hcall
    obtain ⟨honly, hfree⟩ := h hcall
    exact ⟨honly, fun d hheld => hfree d ((hrely.held _).mp hheld)⟩

end Away

/-! ### The greatest sequence acknowledged -/

/-- The sequences whose acknowledgement on the lane from `s` to `d` returned `Ok`. -/
def ackedOf (s d : Nat) : List Event → List Nat
  | [] => []
  | .returned rank (.ack origin sequence) (.acked (.ok ())) :: log =>
    if rank = d ∧ origin = s then sequence :: ackedOf s d log else ackedOf s d log
  | _ :: log => ackedOf s d log

section Greatest

variable [Libraries] {n : Nat} {ring : Nat → Ring} {W : Wired n true ring} {s d : Nat} {l : Lane}
  {x y : Config RingCall RingCall.Answer World (Call n) Outcome}

def Granted (W : Wired n true ring) (s d : Nat) (l : Lane) (q t : Nat)
    (x : Config RingCall RingCall.Answer World (Call n) Outcome) : Prop :=
  ∃ (call : Call n) (p : _), x.threads t = some ⟨call, p⟩ ∧ call.rank.val = d ∧
    call.request = .ack s q ∧ AckAt W t d s l q x.shared (some (.ok ())) p

/-- The counter bounds the sequences acknowledged, and one of them, or one about to be,
    reaches it. -/
structure Reached (W : Wired n true ring) (s d : Nat) (l : Lane)
    (x : Config RingCall RingCall.Answer World (Call n) Outcome) : Prop where
  bound : ∀ q ∈ ackedOf s d x.shared.log, q ≤ (x.shared.process s).acks l.ack
  attained : (x.shared.process s).acks l.ack = 0 ∨
    (x.shared.process s).acks l.ack ∈ ackedOf s d x.shared.log ∨
    ∃ t, Granted W s d l ((x.shared.process s).acks l.ack) t x

omit [Libraries] in
theorem ackedOf_command {e : Event} {log : List Event} (h : ¬ e.ofReturn) :
    ackedOf s d (e :: log) = ackedOf s d log := by
  cases e with
  | returned => exact absurd trivial h
  | _ => rfl

/-- A step that changes a counter leaves a thread that acknowledges its new value. -/
theorem counter_changed
    (hreach : (ringMachine n ring Faults.none).Reach (World.fresh n) x)
    (hstep : (ringMachine n ring Faults.none).Step x y) (hlane : W.lane s d = some l)
    (hchanged : (y.shared.process s).acks l.ack ≠ (x.shared.process s).acks l.ack) :
    ∃ t, Granted W s d l ((y.shared.process s).acks l.ack) t y := by
  cases hstep with
  | call => exact absurd rfl hchanged
  | «return» => exact absurd rfl hchanged
  | @command w threads t call c cont a w' hat hexec =>
    have hverified := ring_verified W Faults.none
    have hmirrored := reach_mirrored rfl hreach
    obtain ⟨ending, hexec⟩ := hexec
    have hframed := exec_framed hexec
    obtain ⟨dest, disp, value, rfl⟩ : ∃ dest disp value, c = .fetchAdd dest disp value := by
      by_contra hno
      push Not at hno
      exact hchanged (congrFun (hframed.acks (fun dest disp value => hno dest disp value) s) l.ack)
    -- only an acknowledgement on a configured lane adds to a counter
    have hacknowledges : Acknowledges W call := by
      by_contra haway
      have := (away_tracked.reach hverified (inv_fresh W Faults.none) (fun _ _ => nofun) hmirrored
        t _ hat haway).1.1
      contradiction
    obtain ⟨s', q, l', hcall, hlane'⟩ := hacknowledges
    obtain ⟨o, hstand⟩ := reach_ackAt W hreach hat hcall hlane'
    have hinv := reach_inv W rfl hreach
    have hinv' := reach_inv W rfl (hreach.step (.command t call _ cont a w' hat ⟨ending, hexec⟩))
    have hpoll : call.request ≠ .poll := by
      rw [hcall]
      simp
    obtain ⟨o', hstand', hdecided⟩ := hstand.step hlane' hpoll hinv hinv' hexec
    generalize hp : Program.op (RingCall.fetchAdd dest disp value) cont = p at hstand
    cases hstand with
    | starting | checking | comparing | leaving => cases hp
    | returning => cases hp
    | @adding acked mirror hmine hmirror hlow hpass =>
      cases hp
      have hmirrorEq := hmine.mirror_eq hlane' hmirror
      have hheld := hmine.holding.held hmine.mem
      obtain ⟨-, -, hother⟩ := hmine.inv.add hlane' (q - mirror) hheld (by omega)
      obtain ⟨-, -, -, hcounter, -⟩ := fetchAdd_acking hlane' hmine hmirror hlow hpass hexec
      have hsame : s = s' ∧ d = call.rank := by
        by_contra hne
        cases ending with
        | ok =>
          obtain ⟨-, rfl⟩ := Prod.mk.inj (Option.some.inj hexec)
          exact hchanged (hother s d l hlane hne)
        | before | after => contradiction
      obtain ⟨rfl, rfl⟩ := hsame
      obtain rfl : l = l' := Option.some.inj (hlane.symm.trans hlane')
      refine ⟨t, call, _, Function.update_self .., rfl, ?_, ?_⟩
      · rw [hcall]
        exact congrArg (Request.ack _) hcounter.symm
      · show AckAt W t call.rank s l ((w'.process s).acks l.ack) w' _ _
        rw [hcounter]
        exact hdecided _ rfl ▸ hstand'

/-- Whoever can only return `Ok` has returned it, or still can do nothing else. -/
theorem Granted.step {q t : Nat} (h : Granted W s d l q t x)
    (hreach : (ringMachine n ring Faults.none).Reach (World.fresh n) x)
    (hstep : (ringMachine n ring Faults.none).Step x y) (hlane : W.lane s d = some l) :
    Granted W s d l q t y ∨ q ∈ ackedOf s d y.shared.log := by
  obtain ⟨call, p, hat, rfl, hcall, hstand⟩ := h
  have hverified := ring_verified W Faults.none
  have hpoll : call.request ≠ .poll := by
    rw [hcall]
    simp
  have hholds := Discipline.sound hverified (inv_fresh W Faults.none) (fun _ _ => nofun)
    (reach_mirrored rfl hreach)
  cases hlasts : y.threads t with
  | some th =>
    left
    have hkept : Maintained (ringDiscipline W Faults.none) (mirroredMachine n ring Faults.none)
        fun t' call' p w => t' = t → call' = call →
          AckAt W t call.rank s l q w (some (.ok ())) p := decided_maintained hlane hpoll
    obtain ⟨p', hat', hstand'⟩ := hkept.lasting hverified hholds
      (hstep.restrict (mirrorAgrees_of_adds rfl)) hat (fun _ _ => hstand) (by rw [hlasts]; rfl)
    exact ⟨call, p', hat', rfl, hcall, hstand' rfl rfl⟩
  | none =>
    right
    cases hstep with
    | @call w threads u call' hfree =>
      have hne : t ≠ u := by
        rintro rfl
        exact absurd (hat.symm.trans hfree) (by simp)
      exact absurd (hat.symm.trans ((Function.update_of_ne hne _ _).symm.trans hlasts)) (by simp)
    | @command w threads u call' c cont a w' hat' hexec =>
      by_cases hne : t = u
      · subst hne
        exact absurd ((Function.update_self ..).symm.trans hlasts) (by simp)
      · exact absurd (hat.symm.trans ((Function.update_of_ne hne _ _).symm.trans hlasts)) (by simp)
    | @«return» w threads u call' r hat' =>
      by_cases hne : t = u
      swap
      · exact absurd (hat.symm.trans ((Function.update_of_ne hne _ _).symm.trans hlasts)) (by simp)
      subst hne
      obtain ⟨rfl, rfl⟩ := Thread.mk.inj (Option.some.inj (hat.symm.trans hat'))
      generalize hp : Program.ret r = p at hstand
      cases hstand with
      | comparing | adding | leaving => contradiction
      | returning =>
        obtain rfl := Program.ret.inj hp
        show q ∈ ackedOf s call.rank (.returned call.rank call.request (.acked (.ok ())) :: w.log)
        rw [hcall, ackedOf, if_pos ⟨rfl, rfl⟩]
        exact List.mem_cons_self ..

omit [Libraries] in
theorem mem_ackedOf {e : Event} {log : List Event} {q : Nat} :
    q ∈ ackedOf s d (e :: log) ↔
      e = .returned d (.ack s q) (.acked (.ok ())) ∨ q ∈ ackedOf s d log := by
  rw [ackedOf.eq_def s d (e :: log)]
  split
  · contradiction
  · rename_i rank origin sequence log' heq
    obtain ⟨rfl, rfl⟩ := List.cons.inj heq
    split
    · rename_i hon
      obtain ⟨rfl, rfl⟩ := hon
      simp [eq_comm]
    · rename_i hoff
      refine ⟨.inr, fun h => h.resolve_left fun hevent => hoff ?_⟩
      injection hevent with hrank hrequest
      injection hrequest with horigin
      exact ⟨hrank, horigin⟩
  · rename_i hno heq
    obtain ⟨rfl, rfl⟩ := List.cons.inj heq
    exact ⟨.inr, fun h => h.resolve_left fun hevent => hno _ _ _ hevent⟩

/-- No step lowers a counter. -/
theorem counter_mono
    (hreach : (ringMachine n ring Faults.none).Reach (World.fresh n) x)
    (hstep : (ringMachine n ring Faults.none).Step x y) (hlane : W.lane s d = some l) :
    (x.shared.process s).acks l.ack ≤ (y.shared.process s).acks l.ack := by
  have hholds := Discipline.sound (ring_verified W Faults.none) (inv_fresh W Faults.none)
    (fun _ _ => nofun) (reach_mirrored rfl hreach)
  cases hstep with
  | call => exact Nat.le_refl _
  | «return» => exact Nat.le_refl _
  | @command w threads t call c cont a w' hat hexec =>
    obtain ⟨-, hothers, -⟩ :=
      hholds.running t _ hat w ((ringDiscipline W Faults.none).rely_refl t w)
      hholds.inv a w' ⟨mirrorAgrees_of_adds rfl t call c w, hexec⟩
    exact (hothers (t + 1) (Nat.succ_ne_self t)).counters s d l hlane

theorem Reached.step (h : Reached W s d l x)
    (hreach : (ringMachine n ring Faults.none).Reach (World.fresh n) x)
    (hstep : (ringMachine n ring Faults.none).Step x y) (hlane : W.lane s d = some l) :
    Reached W s d l y := by
  have hmono := counter_mono hreach hstep hlane
  -- what has returned is in the log, which only grows, and a call that returns has reached its
  -- sequence
  have hlog : (∀ q ∈ ackedOf s d x.shared.log, q ∈ ackedOf s d y.shared.log) ∧
      ∀ q ∈ ackedOf s d y.shared.log, q ≤ (y.shared.process s).acks l.ack := by
    cases hstep with
    | call => exact ⟨fun _ => id, h.bound⟩
    | @command w threads t call c cont a w' hat hexec =>
      obtain ⟨ending, hexec⟩ := hexec
      have hsame : ackedOf s d w'.log = ackedOf s d w.log := by
        rcases (exec_framed hexec).log with heq | ⟨e, he, heq⟩
        · rw [heq]
        · rw [heq, ackedOf_command he]
      refine ⟨fun q hq => hsame ▸ hq, fun q hq => Nat.le_trans (h.bound q ?_) hmono⟩
      exact hsame ▸ hq
    | @«return» w threads t call r hat =>
      refine ⟨fun q hq => mem_ackedOf.mpr (.inr hq), fun q hq => ?_⟩
      rcases mem_ackedOf.mp hq with hevent | hold
      swap
      · exact h.bound q hold
      injection hevent with hrank hrequest hr
      subst hrank hr
      obtain ⟨o, hstand⟩ := reach_ackAt W hreach hat hrequest hlane
      generalize hp : Program.ret (Outcome.acked (.ok ())) = p at hstand
      cases hstand with
      | starting | checking | comparing | adding | leaving => contradiction
      | returning hidle hfair hreached =>
        obtain rfl := Outcome.acked.inj (Program.ret.inj hp)
        exact hreached rfl
  refine ⟨hlog.2, ?_⟩
  by_cases hchanged : (y.shared.process s).acks l.ack = (x.shared.process s).acks l.ack
  swap
  · exact .inr (.inr (counter_changed hreach hstep hlane hchanged))
  rw [hchanged]
  rcases h.attained with hzero | hdone | ⟨t, hgranted⟩
  · exact .inl hzero
  · exact .inr (.inl (hlog.1 _ hdone))
  · rcases hgranted.step hreach hstep hlane with hstill | hdone
    · exact .inr (.inr ⟨t, hstill⟩)
    · exact .inr (.inl hdone)

theorem reach_reached (hlane : W.lane s d = some l)
    (hreach : (ringMachine n ring Faults.none).Reach (World.fresh n) x) : Reached W s d l x := by
  induction hreach with
  | refl => exact ⟨fun q hq => absurd hq (by simp [Machine.idle, World.fresh, ackedOf]), .inl rfl⟩
  | tail hbefore hstep ih => exact ih.step hbefore hstep hlane

def Unacknowledging (s d : Nat)
    (x : Config RingCall RingCall.Answer World (Call n) Outcome) : Prop :=
  ∀ t th, x.threads t = some th → th.call.rank.val = d → ∀ q, th.call.request ≠ .ack s q

/-- With no acknowledgement on the lane under way, its mirror is the counter. -/
theorem lane_mirror
    (hreach : (ringMachine n ring Faults.none).Reach (World.fresh n) x)
    (hlane : W.lane s d = some l)
    (hno : Unacknowledging s d x) :
    (x.shared.process d).acked[s]? = some ((x.shared.process s).acks l.ack) := by
  have hverified := ring_verified W Faults.none
  have hmirrored := reach_mirrored rfl hreach
  have hholds := Discipline.sound hverified (inv_fresh W Faults.none) (fun _ _ => nofun) hmirrored
  have hinv : RingInv W Faults.none x.shared := hholds.inv
  cases hheld : x.shared.holder (.acked d) with
  | none => exact (hinv.lane s d l hlane).mirror rfl rfl hheld
  | some t =>
    -- whoever has the mirror acknowledges on another lane into the rank
    cases hat : x.threads t with
    | none => exact absurd hheld (hholds.idle t hat _)
    | some th =>
      obtain ⟨call, p⟩ := th
      by_cases hacks : Acknowledges W call
      swap
      · exact absurd hheld ((away_tracked.reach hverified (inv_fresh W Faults.none)
          (fun _ _ => nofun) hmirrored t _ hat hacks).2 d)
      obtain ⟨s', q, l', hcall, hlane'⟩ := hacks
      obtain ⟨o, hstand⟩ := reach_ackAt W hreach hat hcall hlane'
      have hmirrors : ∀ {ms : List Mutex} {acked : List Nat},
          Acking W Faults.none t call.rank ms acked x.shared → d = call.rank →
          (x.shared.process d).acked[s]? = some ((x.shared.process s).acks l.ack) := by
        rintro ms acked hmine rfl
        rw [hmine.stored]
        exact hmine.mirrors rfl rfl s l hlane
      cases hstand with
      | starting hidle => exact absurd ((hidle _).mp hheld) (by simp)
      | returning hidle => exact absurd ((hidle _).mp hheld) (by simp)
      | checking hmine => exact hmirrors hmine (by simpa using (hmine.holding _).mp hheld)
      | comparing hmine => exact hmirrors hmine (by simpa using (hmine.holding _).mp hheld)
      | adding hmine => exact hmirrors hmine (by simpa using (hmine.holding _).mp hheld)
      | leaving hholding _ _ hothers =>
        obtain rfl : d = call.rank := by simpa using (hholding _).mp hheld
        refine hothers s l hlane ?_
        rintro rfl
        exact hno t _ hat rfl q hcall

/-- With no acknowledgement on the lane under way, its counter is the greatest sequence
    acknowledged. -/
theorem Reached.greatest (h : Reached W s d l x) (hno : Unacknowledging s d x) :
    (x.shared.process s).acks l.ack = (ackedOf s d x.shared.log).foldr max 0 := by
  apply Nat.le_antisymm
  · rcases h.attained with hzero | hdone | ⟨t, call, p, hat, hd, hcall, -⟩
    · omega
    · exact List.le_max_of_le' 0 hdone (Nat.le_refl _)
    · exact absurd hcall (hno t _ hat hd _)
  · exact List.max_le_of_forall_le _ _ h.bound

structure CumulativeAcks (n : Nat) (ring : Nat → Ring) (d : Fin n) (s : Nat) (l : Lane)
    (x : Config RingCall RingCall.Answer World (Call n) Outcome) : Prop where
  decides : ∀ t q c cont a y, (ringMachine n ring Faults.none).Acts t ⟨d, .ack s q⟩ c cont a x y →
    ChecksCursor (cont a) c →
    ∃ cursor, (x.shared.process d).seen[s]? = some cursor ∧ AckDecides n ring t s q cursor y
  answers : ∀ t q p r, x.threads t = some ⟨⟨d, .ack s q⟩, p⟩ →
    (ringMachine n ring Faults.none).Ends t x r → ∃ result, r = .acked result ∧ Answered s q result
  keeps : ∀ t q c cont a y, (ringMachine n ring Faults.none).Acts t ⟨d, .ack s q⟩ c cont a x y →
    ((∃ e, (ringMachine n ring Faults.none).Ends t x (.acked (.error e))) ∨
      ∃ mirror, (x.shared.process d).acked[s]? = some mirror ∧ q ≤ mirror) →
    AcksKept x.shared y.shared
  mono : ∀ y, (ringMachine n ring Faults.none).Step x y →
    (x.shared.process s).acks l.ack ≤ (y.shared.process s).acks l.ack
  behind : ∃ cursor, (x.shared.process d).seen[s]? = some cursor ∧
    (x.shared.process s).acks l.ack ≤ cursor
  bound : ∀ q ∈ ackedOf s d x.shared.log, q ≤ (x.shared.process s).acks l.ack
  attained : (x.shared.process s).acks l.ack = 0 ∨
    (x.shared.process s).acks l.ack ∈ ackedOf s d x.shared.log ∨
    ∃ t p, x.threads t = some ⟨⟨d, .ack s ((x.shared.process s).acks l.ack)⟩, p⟩ ∧
      ∀ r, (ringMachine n ring Faults.none).Ends t x r ↔ r = .acked (.ok ())
  settled : Unacknowledging s d x →
    (x.shared.process d).acked[s]? = some ((x.shared.process s).acks l.ack) ∧
      (x.shared.process s).acks l.ack = (ackedOf s d x.shared.log).foldr max 0

/-- **Acknowledgements are cumulative**, and runs that acknowledge the same sequences leave
    the same counter. -/
theorem acks_cumulative {comm : Fin n → Comm} {lists : Fin n → List LaneSpec}
    (hring : Constructed n comm lists true ring) {d : Fin n}
    (hlane : (ring d).fromLanes[s]? = some (some l))
    (hx : (ringMachine n ring Faults.none).Reach (World.fresh n) x)
    (hy : (ringMachine n ring Faults.none).Reach (World.fresh n) y) :
    CumulativeAcks n ring d s l x ∧
      (Unacknowledging s d x → Unacknowledging s d y →
        (∀ q, q ∈ ackedOf s d x.shared.log ↔ q ∈ ackedOf s d y.shared.log) →
        (x.shared.process s).acks l.ack = (y.shared.process s).acks l.ack) := by
  obtain ⟨W⟩ := hring.wired
  have hlane := (W.from_iff d.isLt).mp hlane
  have hinv := reach_inv W rfl hx
  have hreached := reach_reached hlane hx
  constructor
  · refine ⟨fun t q c cont a y hacts hchecks => ?_, fun t q p r hat hends => ?_,
      fun t q c cont a y hacts hvain => ?_, fun y hstep => counter_mono hx hstep hlane, ?_,
      hreached.bound, ?_, fun hno => ⟨lane_mirror hx hlane hno, hreached.greatest hno⟩⟩
    · exact ⟨_, hinv.seen_get hlane, ack_decides W hx hacts hchecks rfl hlane⟩
    · have hholds := Discipline.sound (ring_verified W Faults.none) (inv_fresh W Faults.none)
        (fun _ _ => nofun) (reach_mirrored rfl hx)
      have hstand := acks_tracked.reach (ring_verified W Faults.none) (inv_fresh W Faults.none)
        (fun _ _ => nofun) (reach_mirrored rfl hx) t _ hat
      obtain ⟨w, hend⟩ := acks_tracked.toMaintained.ends (ring_verified W Faults.none) hholds hat
        hstand (hends.restrict (mirrorAgrees_of_adds rfl))
      obtain ⟨o, hend⟩ := hend s q l rfl hlane
      generalize hp : Program.ret r = p' at hend
      cases hend with
      | starting | checking | comparing | adding | leaving => contradiction
      | returning _ hfair => exact ⟨_, Program.ret.inj hp, hfair⟩
    · exact ack_keeps W hx hacts rfl hlane hvain
    · exact ⟨_, hinv.seen_get hlane, (hinv.lane s d l hlane).counter rfl⟩
    · rcases hreached.attained with hzero | hdone | ⟨t, ⟨r, request⟩, p, hat, hd, hcall, hstand⟩
      · exact .inl hzero
      · exact .inr (.inl hdone)
      · obtain rfl : r = d := Fin.ext hd
        obtain rfl : request = .ack s _ := hcall
        exact .inr (.inr ⟨t, p, hat, hstand.ends W hx hat nofun hlane⟩)
  · intro hnox hnoy hsame
    rw [hreached.greatest hnox, (reach_reached hlane hy).greatest hnoy]
    apply Nat.le_antisymm
    · exact List.max_le_of_forall_le _ _ fun q hq =>
        List.le_max_of_le' 0 ((hsame q).mp hq) (Nat.le_refl _)
    · exact List.max_le_of_forall_le _ _ fun q hq =>
        List.le_max_of_le' 0 ((hsame q).mpr hq) (Nat.le_refl _)

def ackedInOrder (sequences : List Nat) : List (Move (Call 2) Ending) :=
  whole 0 pairSource (.send 1 [1]) ++ whole 0 pairSource (.send 1 [2]) ++
    whole 0 pairSource (.send 1 [3]) ++ whole 1 pairDestination .poll ++
    sequences.flatMap fun q => whole 1 pairDestination (.ack 0 q)

omit [Libraries] in
theorem acks_cumulative_pair : ∃ x y,
    @ringReplay libraries 2 (pairRing true 3 8) Faults.none (ackedInOrder [2, 3, 1, 4]) = some x ∧
    @ringReplay libraries 2 (pairRing true 3 8) Faults.none (ackedInOrder [1, 2, 3]) = some y ∧
    ackedOf 0 1 x.shared.log = [1, 3, 2] ∧
    @CumulativeAcks libraries 2 (pairRing true 3 8) pairDestination 0 (pairLane 3 8) x := by
  let _ := libraries
  have hx : (ringReplay 2 (pairRing true 3 8) Faults.none (ackedInOrder [2, 3, 1, 4])).map
      (fun c => ackedOf 0 1 c.shared.log) = some [1, 3, 2] := by decide +kernel
  have hy : (ringReplay 2 (pairRing true 3 8) Faults.none (ackedInOrder [1, 2, 3])).map
      (fun c => ackedOf 0 1 c.shared.log) = some [3, 2, 1] := by decide +kernel
  obtain ⟨x, hx, hacked⟩ := Option.map_eq_some_iff.mp hx
  obtain ⟨y, hy, -⟩ := Option.map_eq_some_iff.mp hy
  exact ⟨x, y, hx, hy, hacked,
    (acks_cumulative (pair_three true) rfl (reach_replay hx) (reach_replay hy)).1⟩

end Greatest

end MpiRma
