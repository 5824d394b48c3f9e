/-
  MpiRma/Reports.lean
  ===================
  **What the calls report is what the ring did.**  Every path through the code of a send puts
  one image if it returns `Ok` and none otherwise, and a poll returns exactly the messages the
  log shows for it.  So `putsOf` and `deliveredOf`, which read the log, say what the sends and
  polls that have returned `Ok` said: `sends_puts` and `polls_delivered`.
-/
import MpiRma.Guards
import MpiRma.Ledger
import MpiRma.Polling
import MpiRma.Stages

namespace MpiRma

/-! ### Deeds and reports -/

/-- An image on a lane, or the messages of a poll. -/
inductive Receipt where
  | sent (source destination sequence : Nat) (data : Bytes)
  | polled (rank : Nat) (messages : List Message)

/-- What an event shows as done. -/
def Event.deed : Event → Multiset Receipt
  | .put source destination sequence data _ _ _ => {.sent source destination sequence data}
  | .polled rank (.ok messages) => {.polled rank messages}
  | _ => 0

/-- What a call reports to its caller. -/
def Event.report : Event → Multiset Receipt
  | .returned rank (.send (.ofNat destination) data) (.sent (.ok sequence)) =>
    {.sent rank destination sequence data}
  | .returned rank .poll (.polled (.ok messages)) => {.polled rank messages}
  | _ => 0

def RingCall.price {n : Nat} (call : Call n) : (c : RingCall) → c.Answer → Multiset Receipt
  | .put dest _ image, (answer : Except Int Unit) =>
    match answer with
    | .ok () => {.sent call.rank dest.toNat (ofLE (image.take WORD)) call.request.payload}
    | .error _ => 0
  | .unlockSeen _ _ (some (.ok messages)), _ => {.polled call.rank messages}
  | _, _ => 0

def ringLedger (n : Nat) :
    Ledger RingCall RingCall.Answer World (Call n) Outcome (Multiset Receipt) where
  price := RingCall.price
  worth call outcome := (Event.returned call.rank call.request outcome).report
  done w := (w.log.map Event.deed).sum
  reported w := (w.log.map Event.report).sum

/-! ### Commands -/

section Commands

variable {n : Nat} {w w' : World} {t : Nat} {call : Call n} {c : RingCall} {ending : Ending}
  {a : c.Answer}

theorem deeds_cons (e : Event) (log : List Event) :
    ((e :: log).map Event.deed).sum = (log.map Event.deed).sum + e.deed := by
  simp [add_comm]

theorem mem_receipts {r : Receipt} {f : Event → Multiset Receipt} {log : List Event} :
    r ∈ (log.map f).sum ↔ ∃ e ∈ log, r ∈ f e := by
  induction log with
  | nil => simp
  | cons e rest ih => simp [ih]

/-- What a command writes down is what it does. -/
theorem exec_deeds (hexec : World.exec Faults.none t call c ending w = some (a, w')) :
    (w'.log.map Event.deed).sum = (w.log.map Event.deed).sum + RingCall.price call c a := by
  cases c with
  | lockSent i | lockAcked =>
    rw [World.lock_log hexec]
    exact (add_zero _).symm
  | lockSeen =>
    unfold World.exec at hexec
    dsimp only at hexec
    split at hexec
    · contradiction
    rename_i answer w₁ hlock
    obtain ⟨-, rfl⟩ := Prod.mk.inj (Option.some.inj hexec)
    split
    · show (((Event.polling call.rank) :: w₁.log).map Event.deed).sum = _
      rw [deeds_cons, World.lock_log hlock]
      rfl
    · rw [World.lock_log hlock]
      exact (add_zero _).symm
  | unlockSent i outgoing poison | unlockAcked acked poison =>
    unfold World.exec at hexec
    dsimp only at hexec
    split at hexec
    · obtain ⟨-, rfl⟩ := Prod.mk.inj (Option.some.inj hexec)
      exact (add_zero _).symm
    · contradiction
  | unlockSeen seen poison polled =>
    unfold World.exec at hexec
    dsimp only at hexec
    split at hexec
    swap
    · contradiction
    obtain ⟨-, rfl⟩ := Prod.mk.inj (Option.some.inj hexec)
    cases polled with
    | none => exact (add_zero _).symm
    | some result =>
      cases result with
      | error e => exact deeds_cons (.polled call.rank (.error e)) w.log
      | ok messages => exact deeds_cons (.polled call.rank (.ok messages)) w.log
  | readLocal disp len | readLocalVolatile disp len | addLost count =>
    obtain ⟨-, rfl⟩ := Prod.mk.inj (Option.some.inj hexec)
    exact deeds_cons _ w.log
  | readCounter disp | addCorrupt | maxLag lag | addFull =>
    obtain ⟨-, rfl⟩ := Prod.mk.inj (Option.some.inj hexec)
    exact (add_zero _).symm
  | put dest disp image =>
    unfold World.exec at hexec
    dsimp only at hexec
    cases ending with
    | ok =>
      obtain ⟨rfl, rfl⟩ := Prod.mk.inj (Option.some.inj hexec)
      exact deeds_cons _ w.log
    | before code => contradiction
    | after code => contradiction
  | fetchAdd dest disp value =>
    unfold World.exec at hexec
    dsimp only at hexec
    cases ending with
    | ok =>
      obtain ⟨-, rfl⟩ := Prod.mk.inj (Option.some.inj hexec)
      exact (add_zero _).symm
    | before code => contradiction
    | after code => contradiction

/-- Only returns report. -/
theorem exec_reported (hexec : World.exec Faults.none t call c ending w = some (a, w')) :
    (w'.log.map Event.report).sum = (w.log.map Event.report).sum := by
  rcases (exec_framed hexec).log with hsame | ⟨e, hreturn, hlog⟩
  · rw [hsame]
  · have hnone : e.report = 0 := by
      cases e with
      | returned => exact absurd trivial hreturn
      | _ => rfl
    rw [hlog, List.map_cons, List.sum_cons, hnone, zero_add]

end Commands

/-! ### Calls -/

abbrev worthOf {n : Nat} (call : Call n) (outcome : Outcome) : Multiset Receipt :=
  (Event.returned call.rank call.request outcome).report

section Sends

variable {n s d : Nat} {call : Call n} {destination : Int} {data : Bytes}
  (hrequest : call.request = .send destination data)
include hrequest

/-- An error reports nothing. -/
theorem worth_error (e : Fail) : worthOf call (.sent (.error e)) = 0 := by
  simp [Event.report, hrequest]

theorem worth_sent (hd : destination = (d : Int)) (sequence : Nat) :
    worthOf call (.sent (.ok sequence)) = {.sent call.rank d sequence data} := by
  subst hd
  rw [worthOf, hrequest]
  rfl

omit hrequest in
theorem leaving_pays (result : Except Fail Nat) (outgoing : Outgoing) :
    (ringLedger n).Pays call (Send.leaving d result outgoing) (worthOf call (.sent result)) := by
  intro u
  exact add_zero _

theorem failing_pays (e : Fail) (outgoing : Outgoing) :
    (ringLedger n).Pays call (Send.leaving d (.error e) outgoing) 0 :=
  worth_error hrequest e ▸ leaving_pays (.error e) outgoing

variable [Libraries] {slotLength ackLength : Nat → Nat} {l : Lane} (hd : destination = (d : Int))
  (hlane : LaneOk n slotLength ackLength s d l) (hdata : data.length ≤ l.capacity)
include hd hlane hdata

/-- A put does what the result of its send reports. -/
theorem putting_pays {outgoing : Outgoing} (hmax : outgoing.sent + 1 ≤ u64Max) :
    (ringLedger n).Pays call (Send.putting l d data outgoing) 0 := by
  obtain ⟨image, himage, hsays⟩ := Ring.buildImage_says hlane outgoing.image
    (Nat.succ_pos outgoing.sent) hmax hdata
  have hhead : ofLE (image.take WORD) = outgoing.sent + 1 := hsays.head
  unfold Send.putting
  rw [himage]
  rintro (code | u)
  · rw [zero_add]
    exact failing_pays hrequest _ _
  · have hprice : (ringLedger n).price call
        (.put (d : Int) (l.slotAt (l.position (outgoing.sent + 1))) image) (Except.ok ()) =
        worthOf call (.sent (.ok (outgoing.sent + 1))) := by
      rw [worth_sent hrequest hd]
      simp [ringLedger, RingCall.price, hrequest, Request.payload, hhead]
    rw [zero_add, hprice]
    exact leaving_pays (.ok (outgoing.sent + 1)) _

/-- A send on a lane. -/
theorem starting_pays (safe : Bool) : (ringLedger n).Pays call (Send.starting safe l d data) 0 := by
  rintro (_ | outgoing)
  · rw [zero_add]
    exact (worth_error hrequest _).symm
  rw [zero_add]
  show (ringLedger n).Pays call (Send.holding safe l d data outgoing) 0
  unfold Send.holding Send.gated
  by_cases hmax : u64Max < outgoing.sent + 1
  · rw [if_pos hmax]
    exact failing_pays hrequest _ _
  rw [if_neg hmax]
  have hput : ∀ acked, (ringLedger n).Pays call
      (Send.putting l d data { outgoing with acked := acked }) 0 :=
    fun acked => putting_pays hrequest hd hlane hdata (Nat.le_of_not_lt hmax)
  split
  · exact hput outgoing.acked
  split
  · exact failing_pays hrequest _ _
  split
  swap
  · exact hput outgoing.acked
  intro value
  rw [zero_add]
  show (ringLedger n).Pays call (Send.refreshed l d data outgoing value) 0
  unfold Send.refreshed
  split
  · exact failing_pays hrequest _ _
  split
  · exact failing_pays hrequest _ _
  split
  · intro u
    rw [zero_add]
    exact failing_pays hrequest _ _
  · exact hput value

end Sends

section Code

variable [Libraries] {n : Nat} {safe : Bool} {ring : Nat → Ring}

omit [Libraries] in
theorem receiving_free (call : Call n) {c : RingCall} (h : c.receiving) (a : c.Answer) :
    RingCall.price call c a = 0 := by
  cases c with
  | readLocal | readLocalVolatile | addLost | addCorrupt | maxLag => rfl
  | _ => exact h.elim

omit [Libraries] in
theorem acknowledging_free (call : Call n) {c : RingCall} (h : c.acknowledging) (a : c.Answer) :
    RingCall.price call c a = 0 := by
  cases c with
  | unlockSeen seen poison polled =>
    obtain rfl : polled = none := h
    rfl
  | lockAcked | unlockAcked | lockSeen | fetchAdd => rfl
  | _ => exact h.elim

/-- **Every call does what it reports.** -/
theorem code_pays (W : Wired n safe ring) (call : Call n) :
    (ringLedger n).Pays call (Call.code ring call) 0 := by
  cases hrequest : call.request with
  | send destination data =>
    rw [send_code W hrequest]
    unfold Send.code
    split
    · exact (worth_error hrequest _).symm
    rename_i hpeer
    split
    · exact (worth_error hrequest _).symm
    rename_i l hlane
    split
    · exact (worth_error hrequest _).symm
    rename_i hdata
    have hd : destination = (destination.toNat : Int) := by omega
    exact starting_pays hrequest hd (W.lanes hlane) (Nat.le_of_not_lt hdata) safe
  | poll =>
    have hworth : ∀ result seen poison, worthOf call (.polled result) =
        RingCall.price call (.unlockSeen seen poison (some result)) () := by
      intro result seen poison
      unfold worthOf
      rw [hrequest]
      cases result with
      | error e => rfl
      | ok messages => rfl
    unfold Call.code
    rw [hrequest]
    rintro (_ | seen)
    · rw [zero_add]
      exact (hworth (.error _) [] false).symm
    rw [zero_add]
    show Program.wp _ (((Ring.pollLanes _ _ _ seen).bind _).bind _) _ (0 : Multiset Receipt)
    rw [Program.bind_assoc, Program.wp_bind]
    apply Ledger.wp_free
    · exact (Ring.only_pollLanes _ _ _ seen).mono fun c hc => receiving_free call hc
    · intro r u
      rw [zero_add]
      exact (hworth r.1 r.2 _).symm
  | ack origin sequence =>
    have hworth : ∀ outcome, (0 : Multiset Receipt) = worthOf call outcome := by
      intro outcome
      unfold worthOf
      rw [hrequest]
      rfl
    rw [ack_code W hrequest]
    apply Ledger.wp_free _ hworth
    exact (ack_only W _ _ _).mono fun c hc => acknowledging_free call hc

/-- **The books of a ring are sound.** -/
theorem ring_sound (W : Wired n safe ring) :
    (ringLedger n).Sound (ringMachine n ring Faults.none) (World.fresh n) where
  start := rfl
  code := code_pays W
  exec := by
    rintro t call c w a w' ⟨ending, hexec⟩
    exact ⟨exec_deeds hexec, exec_reported hexec⟩
  finish := by
    intro t call outcome w
    constructor
    · simp [ringLedger, ringMachine, World.record, Event.deed]
    · simp [ringLedger, ringMachine, World.record, add_comm]

end Code

/-! ### The lanes -/

def Receipt.entries (s d : Nat) : Receipt → Multiset (Nat × Bytes)
  | .sent source destination sequence data =>
    if source = s ∧ destination = d then {(sequence, data)} else 0
  | .polled _ _ => 0

def Receipt.messages (s d : Nat) : Receipt → Multiset Message
  | .sent _ _ _ _ => 0
  | .polled rank messages => if rank = d then ↑(fromOrigin s messages) else 0

/-- What the sends on a lane that returned `Ok` have reported. -/
def sendsOf (s d : Nat) (log : List Event) : Multiset (Nat × Bytes) :=
  (log.map Event.report).sum.bind (Receipt.entries s d)

/-- The messages of a lane that polls have returned. -/
def pollsOf (s d : Nat) (log : List Event) : Multiset Message :=
  (log.map Event.report).sum.bind (Receipt.messages s d)

theorem deeds_entries (s d : Nat) (log : List Event) :
    (log.map Event.deed).sum.bind (Receipt.entries s d) = ↑(putsOf s d log) := by
  induction log with
  | nil => rfl
  | cons e rest ih =>
    rw [deeds_cons, Multiset.add_bind, ih]
    cases e with
    | put s' d' sequence data ok disp len =>
      by_cases hlane : s' = s ∧ d' = d
      · simp [Event.deed, Receipt.entries, putsOf, hlane, ← Multiset.coe_add]
      · simp [Event.deed, Receipt.entries, putsOf, hlane]
    | polled rank result =>
      cases result with
      | error e => simp [Event.deed, putsOf]
      | ok messages => simp [Event.deed, Receipt.entries, putsOf]
    | _ => simp [Event.deed, putsOf]

theorem deeds_messages (s d : Nat) (log : List Event) :
    (log.map Event.deed).sum.bind (Receipt.messages s d) = ↑(deliveredOf s d log) := by
  induction log with
  | nil => rfl
  | cons e rest ih =>
    rw [deeds_cons, Multiset.add_bind, ih]
    cases e with
    | put s' d' sequence data ok disp len => simp [Event.deed, Receipt.messages, deliveredOf]
    | polled rank result =>
      cases result with
      | error e => simp [Event.deed, deliveredOf]
      | ok messages =>
        by_cases hrank : rank = d
        · simp [Event.deed, Receipt.messages, deliveredOf, hrank, ← Multiset.coe_add]
        · simp [Event.deed, Receipt.messages, deliveredOf, hrank]
    | _ => simp [Event.deed, deliveredOf]

section Lanes

variable [Libraries] {n : Nat} {safe : Bool} {ring : Nat → Ring} {w : World} {s d : Nat}
  {x : Config RingCall RingCall.Answer World (Call n) Outcome}

/-- Calls under way may have done more than was reported, never less. -/
theorem reported_le (W : Wired n safe ring)
    (hreach : (ringMachine n ring Faults.none).Reach (World.fresh n) x) :
    (x.shared.log.map Event.report).sum ≤ (x.shared.log.map Event.deed).sum := by
  obtain ⟨paid, hopen⟩ := (ring_sound W).reach hreach
  have hbalance : (x.shared.log.map Event.deed).sum =
      (x.shared.log.map Event.report).sum + paid.sum fun _ v => v := hopen.balance
  rw [hbalance]
  exact Multiset.le_add_right _ _

/-- **What a poll returned is what it logged**: the result of a `.polled` event. -/
theorem returned_polled (W : Wired n safe ring)
    (hreach : (ringMachine n ring Faults.none).Reach (World.fresh n) x) {messages : List Message}
    (h : .returned d .poll (.polled (.ok messages)) ∈ x.shared.log) :
    .polled d (.ok messages) ∈ x.shared.log := by
  have hreport : Receipt.polled d messages ∈ (x.shared.log.map Event.report).sum :=
    mem_receipts.mpr ⟨_, h, Multiset.mem_singleton_self _⟩
  obtain ⟨e, he, hdeed⟩ := mem_receipts.mp (Multiset.mem_of_le (reported_le W hreach) hreport)
  cases e with
  | put s' d' sequence data ok disp len => simp [Event.deed] at hdeed
  | polled rank result =>
    cases result with
    | error e => simp [Event.deed] at hdeed
    | ok messages' =>
      obtain ⟨rfl, rfl⟩ : d = rank ∧ messages = messages' := by simpa [Event.deed] using hdeed
      exact he
  | _ => simp [Event.deed] at hdeed

/-- Every message a poll returned is one that was delivered, and each was returned once. -/
theorem polls_le_delivered (W : Wired n safe ring)
    (hreach : (ringMachine n ring Faults.none).Reach (World.fresh n) x) :
    pollsOf s d x.shared.log ≤ ↑(deliveredOf s d x.shared.log) := by
  obtain ⟨rest, hrest⟩ := Multiset.le_iff_exists_add.mp (reported_le W hreach)
  rw [← deeds_messages, hrest, Multiset.add_bind]
  exact Multiset.le_add_right _ _

theorem deeds_reported (W : Wired n safe ring)
    (hreach : (ringMachine n ring Faults.none).Reach (World.fresh n) (Machine.idle w)) :
    (w.log.map Event.deed).sum = (w.log.map Event.report).sum := (ring_sound W).settled hreach

theorem sends_puts (W : Wired n safe ring)
    (hreach : (ringMachine n ring Faults.none).Reach (World.fresh n) (Machine.idle w)) :
    sendsOf s d w.log = ↑(putsOf s d w.log) := by
  rw [← deeds_entries, deeds_reported W hreach]
  rfl

theorem polls_delivered (W : Wired n safe ring)
    (hreach : (ringMachine n ring Faults.none).Reach (World.fresh n) (Machine.idle w)) :
    pollsOf s d w.log = ↑(deliveredOf s d w.log) := by
  rw [← deeds_messages, deeds_reported W hreach]
  rfl

end Lanes

end MpiRma
