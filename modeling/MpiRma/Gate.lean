/-
  MpiRma/Gate.lean
  ================
  **The lazily refreshed gate is exact.**  A send of a safe ring decides by a cached counter
  when that lets it pass, and otherwise by the counter itself.  `SendAt` follows a send
  through its stages with what the shared state has to do with each; from it the decision
  is that of a gate which reads the counter every time, and a refused send leaves the lane
  as it was.  The refusals a rank has counted are the ones it has returned and those about
  to return.
-/
import MpiRma.Guards
import MpiRma.Replay
import MpiRma.SafeMode
import MpiRma.Stages
import MpiRma.Tracking

namespace MpiRma

/-! ### The moment of the check -/

def Refreshes : RingProgram Outcome → Prop
  | .op (.readCounter _) _ => True
  | _ => False

/-- The command after which a send does no more to find out whether it may pass: the read of
    the counter, or taking the mutex when the cached counter is good enough. -/
def ChecksGate (rest : RingProgram Outcome) : RingCall → Prop
  | .lockSent _ => ¬ Refreshes rest
  | .readCounter _ => True
  | _ => False

def RingCall.afterGate : RingCall → Prop
  | .lockSent _ => False
  | .readCounter _ => False
  | _ => True

theorem ChecksGate.before {rest : RingProgram Outcome} {c : RingCall} (h : ChecksGate rest c) :
    ¬ c.afterGate := by
  cases c with
  | lockSent | readCounter => exact id
  | _ => exact h.elim

/-- The call to MPI succeeded. -/
def Succeeds : (c : RingCall) → c.Answer → Prop
  | .put _ _ _, answer => answer = Except.ok ()
  | .fetchAdd _ _ _, answer => ∃ previous, answer = Except.ok previous
  | _, _ => True

theorem exec_succeeds {n : Nat} {t : Nat} {call : Call n} {c : RingCall} {ending : Ending}
    {w w' : World} {a : c.Answer} (h : World.exec Faults.none t call c ending w = some (a, w')) :
    Succeeds c a := by
  cases c with
  | put dest disp image =>
    cases ending with
    | ok => exact (Prod.mk.inj (Option.some.inj h)).1.symm
    | before | after => contradiction
  | fetchAdd dest disp value =>
    cases ending with
    | ok => exact ⟨_, (Prod.mk.inj (Option.some.inj h)).1.symm⟩
    | before | after => contradiction
  | _ => trivial

/-- A send returned `Err(Error::Full)`. -/
def refusal : Outcome := .sent (.error (.error .full))

/-! ### Where a send stands -/

section Tracked

variable [Libraries] {n : Nat} {ring : Nat → Ring} {W : Wired n true ring} {t s d : Nat} {l : Lane}
  {data : Bytes} {w w' : World}

/-- Where a send of a safe ring stands, and what the shared state has to do with it. -/
inductive SendAt (W : Wired n true ring) (t s d : Nat) (l : Lane) (data : Bytes) (w : World) :
    RingProgram Outcome → Prop where
  | starting (hidle : Holding t [] w) : SendAt W t s d l data w (Send.starting true l d data)
  | refreshing {outgoing : Outgoing} (hsending : Sending W Faults.none t s d l outgoing w)
      (hstored : (w.process s).sent d = outgoing) (hmax : outgoing.sent + 1 ≤ u64Max)
      (hahead : l.depth < outgoing.sent + 1 - outgoing.acked) :
      SendAt W t s d l data w (Send.refreshing l d data outgoing)
  | refusing {outgoing : Outgoing} (hheld : w.holder (.sent s d) = some t)
      (hstored : ((w.process s).sent d).sent = outgoing.sent) :
      SendAt W t s d l data w (Send.refusing d outgoing)
  | refused {outgoing : Outgoing} (hheld : w.holder (.sent s d) = some t)
      (hstored : ((w.process s).sent d).sent = outgoing.sent) :
      SendAt W t s d l data w (Send.leaving d (.error (.error .full)) outgoing)
  | returning : SendAt W t s d l data w (.ret refusal)
  | passed {p : RingProgram Outcome} {r : Outcome} (honly : p.Only RingCall.afterGate)
      (hyields : p.Yields Succeeds r) (hr : r ≠ refusal) : SendAt W t s d l data w p

/-- What another thread does leaves a send where it stands. -/
theorem SendAt.stable {p : RingProgram Outcome} (h : SendAt W t s d l data w p)
    (hlane : W.lane s d = some l) (hrely : RingRely W t w w') (hinv : RingInv W Faults.none w')
    (hstored : w.holder (.sent s d) = some t → (w'.process s).sent d = (w.process s).sent d) :
    SendAt W t s d l data w' p := by
  cases h with
  | starting hidle => exact .starting (hidle.rely hrely)
  | refreshing hsending hsame hmax hahead =>
    have hheld := hsending.holding.held (List.mem_singleton.mpr rfl)
    exact .refreshing (hsending.rely hlane hrely hinv) ((hstored hheld).trans hsame) hmax hahead
  | refusing hheld hsame =>
    refine .refusing ((hrely.held _).mpr hheld) ?_
    rw [hstored hheld]
    exact hsame
  | refused hheld hsame =>
    refine .refused ((hrely.held _).mpr hheld) ?_
    rw [hstored hheld]
    exact hsame
  | returning => exact .returning
  | passed honly hyields hr => exact .passed honly hyields hr

omit [Libraries] in
/-- Leaving the lane issues no command of the gate and returns its result. -/
theorem leaving_yields (d : Nat) (result : Except Fail Nat) (outgoing : Outgoing) :
    (Send.leaving d result outgoing).Only RingCall.afterGate ∧
      (Send.leaving d result outgoing).Yields Succeeds (.sent result) :=
  ⟨⟨trivial, fun _ => trivial⟩, fun _ _ => rfl⟩

/-- A send the gate let pass puts the next message. -/
theorem putting_yields (hlane : W.lane s d = some l) (hdata : data.length ≤ l.capacity)
    (outgoing : Outgoing) (hmax : outgoing.sent + 1 ≤ u64Max) :
    (Send.putting l d data outgoing).Only RingCall.afterGate ∧
      (Send.putting l d data outgoing).Yields Succeeds (.sent (.ok (outgoing.sent + 1))) := by
  obtain ⟨image, himage, -⟩ := Ring.buildImage_says (W.lanes hlane) outgoing.image
    (Nat.succ_pos outgoing.sent) hmax hdata
  unfold Send.putting
  rw [himage]
  refine ⟨⟨trivial, fun answer => ?_⟩, fun answer hok => ?_⟩
  · cases answer with
    | ok u => exact (leaving_yields _ _ _).1
    | error code => exact (leaving_yields _ _ _).1
  · obtain rfl : answer = Except.ok () := hok
    exact (leaving_yields _ _ _).2

/-- The sender state and the counter of a lane whose mutex a thread holds. -/
theorem Sending.counter_le {outgoing : Outgoing}
    (h : Sending W Faults.none t s d l outgoing w) (hlane : W.lane s d = some l) :
    outgoing.acked ≤ (w.process s).acks l.ack ∧ (w.process s).acks l.ack ≤ outgoing.sent := by
  have hcounter := (h.inv.lane s d l hlane).counter rfl
  have hcursor := h.inv.lawful.cursor_le_top hlane
  have hsent := h.agrees.sent
  rw [h.inv.lawful.sent_eq_top rfl] at hsent
  exact ⟨h.agrees.acked rfl, by omega⟩

/-- With the mutex taken, a send passes or reads the counter. -/
theorem Sending.holding_stage {outgoing : Outgoing} (data : Bytes)
    (h : Sending W Faults.none t s d l outgoing w) (hlane : W.lane s d = some l)
    (hmax : outgoing.sent + 1 ≤ u64Max) : Send.holding true l d data outgoing =
      if l.depth < outgoing.sent + 1 - outgoing.acked then Send.refreshing l d data outgoing
      else Send.putting l d data outgoing := by
  obtain ⟨hlow, hhigh⟩ := h.counter_le hlane
  unfold Send.holding Send.gated
  rw [if_neg (Nat.not_lt.mpr hmax), if_neg (by decide), if_neg (by omega)]

/-- With the counter read, a send passes or is refused. -/
theorem Sending.refreshed_stage {outgoing : Outgoing} (data : Bytes)
    (h : Sending W Faults.none t s d l outgoing w) (hlane : W.lane s d = some l) :
    Send.refreshed l d data outgoing ((w.process s).acks l.ack) =
      if l.depth < outgoing.sent + 1 - (w.process s).acks l.ack then
        Send.refusing d { outgoing with acked := (w.process s).acks l.ack }
      else Send.putting l d data { outgoing with acked := (w.process s).acks l.ack } := by
  obtain ⟨hlow, hhigh⟩ := h.counter_le hlane
  unfold Send.refreshed
  rw [if_neg (Nat.not_lt.mpr hlow), if_neg (Nat.not_lt.mpr hhigh)]

variable {call : Call n} {c : RingCall} {cont : c.Answer → RingProgram Outcome} {a : c.Answer}
  {ending : Ending}

/-- Taking the mutex of a lane gives the sender state stored under it. -/
theorem lockSent_sending {answer : Option Outgoing} (hlane : W.lane call.rank d = some l)
    (hidle : Holding t [] w) (hinv : RingInv W Faults.none w)
    (hexec : World.exec Faults.none t call (.lockSent d) ending w = some (answer, w')) :
    ∃ outgoing, answer = some outgoing ∧ (w.process call.rank).sent d = outgoing ∧
      w' = w.take t (.sent call.rank d) ∧ Sending W Faults.none t call.rank d l outgoing w' := by
  obtain ⟨hfree, rfl, rfl⟩ := lock_some hinv.clean hexec
  refine ⟨_, rfl, rfl, rfl, (hinv.take hfree).inv, hidle.take, ?_⟩
  exact ((hinv.lane call.rank d l hlane).sent hfree).keep rfl rfl (Nat.le_refl _)

/-- **Each command of a send takes it to its next stage.** -/
theorem SendAt.step (hlane : W.lane call.rank d = some l) (hdata : data.length ≤ l.capacity)
    (hinv : RingInv W Faults.none w) (h : SendAt W t call.rank d l data w (.op c cont))
    (hexec : World.exec Faults.none t call c ending w = some (a, w')) :
    SendAt W t call.rank d l data w' (cont a) := by
  have hframed := exec_framed hexec
  generalize hp : Program.op c cont = p at h
  cases h with
  | starting hidle =>
    cases hp
    obtain ⟨outgoing, rfl, hstored, rfl, hsending⟩ := lockSent_sending hlane hidle hinv hexec
    show SendAt W t call.rank d l data _ (Send.holding true l d data outgoing)
    by_cases hmax : outgoing.sent + 1 ≤ u64Max
    · rw [hsending.holding_stage data hlane hmax]
      split
      · rename_i hahead
        exact .refreshing hsending hstored hmax hahead
      · obtain ⟨honly, hyields⟩ := putting_yields hlane hdata outgoing hmax
        exact .passed honly hyields (by simp [refusal])
    · unfold Send.holding
      rw [if_pos (by omega)]
      obtain ⟨honly, hyields⟩ := leaving_yields d
        (.error (.error (.ring "sequence number exhausted"))) outgoing
      exact .passed honly hyields (by simp [refusal])
  | @refreshing outgoing hsending hstored hmax hahead =>
    cases hp
    obtain ⟨rfl, rfl⟩ := Prod.mk.inj (Option.some.inj hexec)
    have hheld := hsending.holding.held (List.mem_singleton.mpr rfl)
    show SendAt W t call.rank d l data w
      (Send.refreshed l d data outgoing ((w.process call.rank).acks l.ack))
    rw [hsending.refreshed_stage data hlane]
    split
    · exact .refusing hheld (by rw [hstored])
    · obtain ⟨honly, hyields⟩ := putting_yields hlane hdata
        { outgoing with acked := (w.process call.rank).acks l.ack } hmax
      exact .passed honly hyields (by simp [refusal])
  | @refusing outgoing hheld hstored =>
    cases hp
    obtain ⟨rfl, rfl⟩ := Prod.mk.inj (Option.some.inj hexec)
    refine .refused hheld ?_
    rw [World.modify_self]
    exact hstored
  | refused hheld hstored =>
    cases hp
    exact .returning
  | returning => exact nomatch hp
  | passed honly hyields hr =>
    subst hp
    exact .passed (honly.2 a) (hyields a (exec_succeeds hexec)) hr

def SendsAt (W : Wired n true ring) (t : Nat) (call : Call n)
    (p : RingProgram Outcome) (w : World) :
    Prop :=
  ∀ (d : Nat) data l, call.request = .send d data → W.lane call.rank d = some l →
    data.length ≤ l.capacity → SendAt W t call.rank d l data w p

theorem sends_tracked : Tracking (ringDiscipline W Faults.none)
    (mirroredMachine n ring Faults.none) (SendsAt W) where
  start {t call w} hinv hidle := by
    intro d data l hcall hlane hdata
    have hd := (W.lanes hlane).destination
    have hcode : Call.code ring call = Send.starting true l d data := by
      rw [send_code W hcall, Send.code, if_neg (by omega), Int.toNat_natCast, hlane]
      exact if_neg (Nat.not_lt.mpr hdata)
    show SendAt W t call.rank d l data w (Call.code ring call)
    rw [hcode]
    exact .starting (Idle.holding hidle)
  step {t call c cont a w w'} hinv hinv' h := by
    rintro ⟨-, ending, hexec⟩ d data l hcall hlane hdata
    exact (h d data l hcall hlane hdata).step hlane hdata hinv hexec
  stable {t u call p w w'} hu hmoves hinv hrely h := by
    intro d data l hcall hlane hdata
    refine (h d data l hcall hlane hdata).stable hlane hrely hinv fun hheld => ?_
    rcases hmoves with ⟨other, ⟨c, a, -, ending, hexec⟩ | ⟨r, rfl⟩⟩
    · exact (exec_framed hexec).sent _ _ (by simpa [hheld] using Ne.symm hu)
    · rfl

/-- A thread's send in a reachable configuration. -/
theorem reach_sendAt (W : Wired n true ring)
    {x : Config RingCall RingCall.Answer World (Call n) Outcome}
    (hreach : (ringMachine n ring Faults.none).Reach (World.fresh n) x)
    (hat : x.threads t = some ⟨call, .op c cont⟩) (hcall : call.request = .send d data)
    (hlane : W.lane call.rank d = some l) (hdata : data.length ≤ l.capacity) :
    SendAt W t call.rank d l data x.shared (.op c cont) :=
  sends_tracked.reach (ring_verified W Faults.none) (inv_fresh W Faults.none) (fun _ _ => nofun)
    (reach_mirrored rfl hreach) t _ hat d data l hcall hlane hdata

/-! ### How a send ends -/

variable {outgoing : Outgoing}

/-- A thread that holds the mutex of its lane can leave it. -/
theorem leaving_runs (ring : Nat → Ring) (call : Call n) (w : World) (outgoing : Outgoing)
    (result : Except Fail Nat) (hheld : w.holder (.sent call.rank d) = some t) :
    ∃ w', (Send.leaving d result outgoing).Runs ((ringMachine n ring Faults.none).exec t call) w
      (.sent result) w' :=
  ⟨_, (), _, ⟨.ok, if_pos hheld⟩, rfl, rfl⟩

theorem refusing_runs (ring : Nat → Ring) (outgoing : Outgoing)
    (hheld : w.holder (.sent call.rank d) = some t) :
    ∃ w', (Send.refusing d outgoing).Runs ((ringMachine n ring Faults.none).exec t call) w
      refusal w' := by
  obtain ⟨w', hruns⟩ := leaving_runs ring call
    (w.modify call.rank fun p => { p with full := (p.full + 1) % (u64Max + 1) }) outgoing
    (.error (.error .full)) hheld
  exact ⟨w', (), _, ⟨.ok, rfl⟩, hruns⟩

theorem putting_runs (hlane : W.lane call.rank d = some l) (hdata : data.length ≤ l.capacity)
    (hmax : outgoing.sent + 1 ≤ u64Max) (hheld : w.holder (.sent call.rank d) = some t) :
    ∃ w', (Send.putting l d data outgoing).Runs ((ringMachine n ring Faults.none).exec t call) w
      (.sent (.ok (outgoing.sent + 1))) w' := by
  obtain ⟨image, himage, -⟩ := Ring.buildImage_says (W.lanes hlane) outgoing.image
    (Nat.succ_pos outgoing.sent) hmax hdata
  unfold Send.putting
  rw [himage]
  obtain ⟨w', hruns⟩ := leaving_runs ring call
    (w.land call.rank (d : Int).toNat (l.slotAt (l.position (outgoing.sent + 1))) image
      call.request.payload true) ⟨outgoing.sent + 1, outgoing.acked, image⟩
    (.ok (outgoing.sent + 1)) hheld
  exact ⟨w', Except.ok (), _, ⟨.ok, rfl⟩, hruns⟩

/-- A call whose program yields one result, and can run to it, ends with it and only with it. -/
theorem ends_iff {x : Config RingCall RingCall.Answer World (Call n) Outcome}
    {p : RingProgram Outcome} {o : Outcome} (hat : x.threads t = some ⟨call, p⟩)
    (hyields : p.Yields Succeeds o)
    (hruns : ∃ w', p.Runs ((ringMachine n ring Faults.none).exec t call) x.shared o w')
    (r : Outcome) : (ringMachine n ring Faults.none).Ends t x r ↔ r = o := by
  constructor
  · refine fun h => h.yields (fun c s a s' hexec => ?_) hat hyields
    obtain ⟨ending, hexec⟩ := hexec
    exact exec_succeeds hexec
  · rintro rfl
    obtain ⟨w', hruns⟩ := hruns
    exact .of_runs hat hruns

/-- What the gate decides when it is checked between `x` and `y`: with the counter as it is
    in `x`, the send is refused when a turn or more is not acknowledged, and otherwise
    it returns the next sequence. -/
structure GateDecides (n : Nat) (ring : Nat → Ring) (t : Nat) (l : Lane) (sent counter : Nat)
    (y : Config RingCall RingCall.Answer World (Call n) Outcome) : Prop where
  counted : counter ≤ sent
  refuses : l.depth ≤ sent - counter →
    ∀ r, (ringMachine n ring Faults.none).Ends t y r ↔ r = refusal
  admits : sent - counter < l.depth →
    ∀ r, (ringMachine n ring Faults.none).Ends t y r ↔ r = .sent (.ok (sent + 1))

/-- A gate that admits a sequence exactly when the previous occupant of its slot has been
    acknowledged. -/
theorem GateDecides.occupant {sent counter : Nat}
    {y : Config RingCall RingCall.Answer World (Call n) Outcome}
    (h : GateDecides n ring t l sent counter y) :
    (∃ q, (ringMachine n ring Faults.none).Ends t y (.sent (.ok q))) ↔
      sent + 1 - l.depth ≤ counter := by
  have hcounted := h.counted
  by_cases hfull : l.depth ≤ sent - counter
  · constructor
    · rintro ⟨q, hq⟩
      have := (h.refuses hfull _).mp hq
      simp [refusal] at this
    · omega
  · constructor
    · omega
    · exact fun _ => ⟨_, (h.admits (by omega) _).mpr rfl⟩

/-- **The gate decides by the counter at the moment of the check.** -/
theorem gate_decides (W : Wired n true ring)
    {x y : Config RingCall RingCall.Answer World (Call n) Outcome}
    (hreach : (ringMachine n ring Faults.none).Reach (World.fresh n) x)
    (hacts : (ringMachine n ring Faults.none).Acts t call c cont a x y)
    (hchecks : ChecksGate (cont a) c) (hcall : call.request = .send d data)
    (hlane : W.lane call.rank d = some l) (hdata : data.length ≤ l.capacity)
    (hmax : ((x.shared.process call.rank).sent d).sent < u64Max) :
    GateDecides n ring t l ((x.shared.process call.rank).sent d).sent
      ((x.shared.process call.rank).acks l.ack) y := by
  have hinv := reach_inv W rfl hreach
  have hinv' := reach_inv W rfl (hreach.step hacts.step)
  have hat := hacts.at_after
  obtain ⟨ending, hexec⟩ := hacts.exec
  have hstand := reach_sendAt W hreach hacts.before hcall hlane hdata
  -- the two ways a send goes on from here
  have hpass : ∀ outgoing, cont a = Send.putting l d data outgoing → outgoing.sent + 1 ≤ u64Max →
      y.shared.holder (.sent call.rank d) = some t → ∀ r,
      (ringMachine n ring Faults.none).Ends t y r ↔ r = .sent (.ok (outgoing.sent + 1)) := by
    intro outgoing hrest hmax hheld r
    rw [hrest] at hat
    exact ends_iff hat (putting_yields hlane hdata outgoing hmax).2
      (putting_runs hlane hdata hmax hheld) r
  have hrefuse : ∀ outgoing, cont a = Send.refusing d outgoing →
      y.shared.holder (.sent call.rank d) = some t → ∀ r,
      (ringMachine n ring Faults.none).Ends t y r ↔ r = refusal := by
    intro outgoing hrest hheld r
    rw [hrest] at hat
    exact ends_iff hat (fun _ _ _ _ => rfl) (refusing_runs ring outgoing hheld) r
  clear hat
  generalize hp : Program.op c cont = p at hstand
  cases hstand with
  | starting hidle =>
    cases hp
    obtain ⟨outgoing, rfl, rfl, htaken, hsending⟩ := lockSent_sending hlane hidle hinv hexec
    set outgoing := (x.shared.process call.rank).sent d
    have hsame : (y.shared.process call.rank).acks l.ack =
        (x.shared.process call.rank).acks l.ack := by
      rw [htaken]
      rfl
    obtain ⟨hlow, hhigh⟩ := hsending.counter_le hlane
    rw [hsame] at hlow hhigh
    have hrest := hsending.holding_stage data hlane hmax
    by_cases hahead : l.depth < outgoing.sent + 1 - outgoing.acked
    · rw [if_pos hahead] at hrest
      have hrefreshes : Refreshes (Send.holding true l d data outgoing) := hrest ▸ trivial
      exact absurd hrefreshes hchecks
    · rw [if_neg hahead] at hrest
      have hheld := hsending.holding.held (List.mem_singleton.mpr rfl)
      exact ⟨hhigh, fun hfull => by omega, fun _ => hpass outgoing hrest hmax hheld⟩
  | @refreshing outgoing hsending hstored _ _ =>
    cases hp
    obtain ⟨rfl, hsame⟩ := Prod.mk.inj (Option.some.inj hexec)
    rw [hstored] at hmax ⊢
    obtain ⟨hlow, hhigh⟩ := hsending.counter_le hlane
    have hrest := hsending.refreshed_stage data hlane
    have hheld : y.shared.holder (.sent call.rank d) = some t := by
      rw [← hsame]
      exact hsending.holding.held (List.mem_singleton.mpr rfl)
    by_cases hahead : l.depth < outgoing.sent + 1 - (x.shared.process call.rank).acks l.ack
    · rw [if_pos hahead] at hrest
      exact ⟨hhigh, fun _ => hrefuse _ hrest hheld, fun hroom => by omega⟩
    · rw [if_neg hahead] at hrest
      have hends := hpass { outgoing with acked := (x.shared.process call.rank).acks l.ack }
        hrest hmax hheld
      exact ⟨hhigh, fun hfull => by omega, fun _ => hends⟩
  | refusing | refused =>
    cases hp
    exact hchecks.elim
  | returning => exact nomatch hp
  | passed honly hyields hr =>
    subst hp
    exact absurd honly.1 hchecks.before

/-- What was sent on each lane, the slot windows and the counters are the same. -/
structure LanesKept (w w' : World) : Prop where
  sent : ∀ i e, ((w'.process i).sent e).sent = ((w.process i).sent e).sent
  slots : ∀ i, (w'.process i).slots = (w.process i).slots
  acks : ∀ i, (w'.process i).acks = (w.process i).acks

/-- **A send that is refused leaves the lanes as they were**: none of the commands of a call
    that can still end with `Err(Error::Full)` changes them. -/
theorem refused_keeps (W : Wired n true ring)
    {x y : Config RingCall RingCall.Answer World (Call n) Outcome}
    (hreach : (ringMachine n ring Faults.none).Reach (World.fresh n) x)
    (hacts : (ringMachine n ring Faults.none).Acts t call c cont a x y)
    (hcall : call.request = .send d data) (hlane : W.lane call.rank d = some l)
    (hdata : data.length ≤ l.capacity)
    (hends : (ringMachine n ring Faults.none).Ends t x refusal) :
    LanesKept x.shared y.shared := by
  have hinv := reach_inv W rfl hreach
  have hbefore := hacts.before
  obtain ⟨ending, hexec⟩ := hacts.exec
  have hframed := exec_framed hexec
  have hstand := reach_sendAt W hreach hbefore hcall hlane hdata
  generalize hp : Program.op c cont = p at hstand hbefore
  cases hstand with
  | starting hidle =>
    cases hp
    obtain ⟨outgoing, -, -, htaken, -⟩ := lockSent_sending hlane hidle hinv hexec
    refine ⟨fun i e => ?_, hframed.slots nofun, hframed.acks nofun⟩
    rw [htaken]
    rfl
  | refreshing =>
    cases hp
    obtain ⟨-, hsame⟩ := Prod.mk.inj (Option.some.inj hexec)
    refine ⟨fun i e => ?_, hframed.slots nofun, hframed.acks nofun⟩
    rw [hsame]
  | refusing =>
    cases hp
    obtain ⟨-, hsame⟩ := Prod.mk.inj (Option.some.inj hexec)
    refine ⟨fun i e => ?_, hframed.slots nofun, hframed.acks nofun⟩
    rw [← hsame]
    have hkeeps := World.modify_keeps (f := fun p => { p with full := (p.full + 1) % (u64Max + 1) })
      Process.sent (fun _ => rfl) x.shared call.rank i
    exact congrArg (fun sent => (sent e).sent) hkeeps
  | @refused outgoing hheld hstored =>
    cases hp
    refine ⟨fun i e => ?_, hframed.slots nofun, hframed.acks nofun⟩
    by_cases hmine : x.shared.holder (.sent i e) = some t
    swap
    · rw [hframed.sent i e hmine]
    unfold World.exec at hexec
    dsimp only at hexec
    rw [if_pos hheld] at hexec
    obtain ⟨-, hsame⟩ := Prod.mk.inj (Option.some.inj hexec)
    rw [← hsame]
    show (((x.shared.modify call.rank fun p =>
      { p with sent := Function.update p.sent d outgoing }).process i).sent e).sent = _
    by_cases hi : i = call.rank
    swap
    · rw [World.modify_other hi]
    subst hi
    rw [World.modify_self]
    by_cases he : e = d
    · subst he
      simp [hstored]
    · simp [he]
  | returning => exact nomatch hp
  | passed honly hyields hr =>
    refine absurd (hends.yields (fun c s a s' hexec => ?_) hbefore hyields) (Ne.symm hr)
    obtain ⟨ending, hexec⟩ := hexec
    exact exec_succeeds hexec

end Tracked

end MpiRma
