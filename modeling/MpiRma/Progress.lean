/-
  MpiRma/Progress.lean
  ====================
  **A safe ring is never wedged.**  From whatever an interleaving has led to, the calls under
  way can be completed, and then one poll, one acknowledgement and one send put the next
  message on a lane that may have been full, and one more poll returns it.  The four calls
  are run one by one while nothing else is under way.  A put lands as a whole image.
-/
import MpiRma.Acknowledged
import MpiRma.LockOrder
import MpiRma.Refinement

namespace MpiRma

section Alone

variable [Libraries] {n : Nat} {safe : Bool} {ring : Nat → Ring} {t s d q : Nat} {l : Lane}
  {call : Call n} {w w' : World}

/-- With no call under way all mutexes are free. -/
theorem rest_free (hreach : (ringMachine n ring Faults.none).Reach (World.fresh n) (Machine.idle w))
    (m : Mutex) : w.holder m = none := by
  have hheld := Locking.Held.reach (ring_respects ring Faults.none) (fun _ => rfl) hreach
  cases hholder : w.holder m with
  | none => rfl
  | some u =>
    have hmem : m ∈ (ringLocking n).held w u := hholder
    have hempty : (ringLocking n).held w u = ∅ := hheld.idle u rfl
    simp [hempty] at hmem

theorem rest_holding
    (hreach : (ringMachine n ring Faults.none).Reach (World.fresh n) (Machine.idle w)) (t : Nat) :
    Holding t [] w := by
  intro m
  simp [rest_free hreach m]

omit [Libraries] in
/-- A command that is no put leaves what was put on the lanes. -/
theorem exec_putless {c : RingCall} {ending : Ending} {a : c.Answer}
    (hno : ∀ dest disp image, c ≠ .put dest disp image)
    (hexec : World.exec Faults.none t call c ending w = some (a, w')) :
    putsOf s d w'.log = putsOf s d w.log := by
  rcases (exec_framed hexec).log with hsame | ⟨e, -, hlog⟩
  · rw [hsame]
  · rw [hlog]
    apply putsOf_cons
    rintro q data ok disp len rfl
    rcases exec_put hexec hlog with ⟨dest, disp', image, hput, -⟩
    exact hno _ _ _ hput

/-! ### A poll -/

structure Watched (d : Nat) (w w' : World) : Prop where
  holder : w'.holder = w.holder
  start : pollStart d w'.log = pollStart d w.log
  puts : ∀ s d', putsOf s d' w'.log = putsOf s d' w.log

omit [Libraries] in
theorem Watched.step {w₀ : World} {c : RingCall} {ending : Ending} {a : c.Answer}
    (hc : c.receiving) (hexec : World.exec Faults.none t call c ending w = some (a, w'))
    (h : Watched d w₀ w) : Watched d w₀ w' := by
  have hputs : ∀ s d', putsOf s d' w'.log = putsOf s d' w.log := by
    intro s d'
    apply exec_putless _ hexec
    rintro dest disp image rfl
    exact hc
  unfold World.exec at hexec
  cases c with
  | readLocal disp len | readLocalVolatile disp len | addLost count | addCorrupt | maxLag lag =>
    obtain ⟨-, rfl⟩ := Prod.mk.inj (Option.some.inj hexec)
    constructor
    · exact h.holder
    · exact h.start
    · intro s d'
      exact (hputs s d').trans (h.puts s d')
  | _ => exact hc.elim

omit [Libraries] in
theorem receiving_ready {c : RingCall} (hc : c.receiving) (w : World) :
    ∃ a w', World.exec Faults.none t call c .ok w = some (a, w') := by
  apply exec_ready
  cases c with
  | readLocal _ _ | readLocalVolatile _ _ | addLost _ | addCorrupt | maxLag _ => trivial
  | _ => exact hc.elim

/-- A poll with nothing else under way returns messages, and nothing is put meanwhile. -/
theorem poll_at_rest (W : Wired n safe ring) (hd : d < n)
    (hreach : (ringMachine n ring Faults.none).Reach (World.fresh n) (Machine.idle w)) :
    ∃ w' messages log,
      (ringMachine n ring Faults.none).InTurn [(⟨⟨d, hd⟩, .poll⟩, .polled (.ok messages))] w w' ∧
      w'.log = .returned d .poll (.polled (.ok messages)) :: .polled d (.ok messages) :: log ∧
      pollStart d log = .polling d :: w.log ∧
      ∀ s d', putsOf s d' log = putsOf s d' w.log := by
  have hclean : ∀ m, w.poisoned m = false := (reach_inv W rfl hreach).clean
  have hfree := rest_free hreach (.seen d)
  let call : Call n := ⟨⟨d, hd⟩, .poll⟩
  let w₁ := (w.take 0 (.seen d)).record (.polling d)
  have hlock : World.exec Faults.none 0 call .lockSeen .ok w =
      some (some (w.process d).seen, w₁) := by
    simp [World.exec, World.lock, call, w₁, hfree, hclean]
    rfl
  -- the body of the poll runs to its end and keeps the lock
  have honly := (ring d).only_pollLanes (ring d).incoming [] (w.process d).seen
  have hbody : ∃ r w₂, ((ring d).pollLanes (ring d).incoming [] (w.process d).seen).Runs
      ((ringMachine n ring Faults.none).exec 0 call) w₁ r w₂ := by
    apply Program.runs_of_only _ honly
    intro c w hc
    have hexec : ∃ a w', World.exec Faults.none 0 call c .ok w = some (a, w') :=
      receiving_ready hc w
    rcases hexec with ⟨a, w', hexec⟩
    exact ⟨a, w', .ok, hexec⟩
  obtain ⟨⟨result, seen⟩, w₂, hbody⟩ := hbody
  have hwatched : Watched d w₁ w₂ := by
    apply Program.Runs.keeps (I := Watched d w₁) _ honly hbody
    · exact ⟨rfl, rfl, fun _ _ => rfl⟩
    · rintro c w a w' hc ⟨ending, hexec⟩ h
      exact h.step hc hexec
  have hheld : w₂.holder (.seen d) = some 0 := by
    simp [hwatched.holder, w₁, World.take, World.record]
  let w₃ := ((w₂.modify d fun p => { p with seen := seen }).drop (.seen d) (poisons result)).record
    (.polled d result)
  have hunlock : World.exec Faults.none 0 call (.unlockSeen seen (poisons result) (some result)) .ok
      w₂ = some ((), w₃) := if_pos hheld
  have hruns : (Call.code ring call).Runs ((ringMachine n ring Faults.none).exec 0 call) w
      (.polled result) w₃ := by
    refine ⟨_, _, ⟨.ok, hlock⟩, ?_⟩
    apply Program.runs_bind.mpr
    refine ⟨(result, ()), _, ?_, rfl, rfl⟩
    apply Program.runs_bind.mpr
    exact ⟨(result, seen), w₂, hbody, (), _, ⟨.ok, hunlock⟩, rfl, rfl⟩
  have hlawful := (reach_inv W rfl (hreach.steps (Machine.steps_of_alone hruns))).lawful
  obtain ⟨messages, rfl, -⟩ := hlawful.1.2
  refine ⟨_, messages, w₂.log, Machine.inTurn_one hruns, rfl, ?_, hwatched.puts⟩
  rw [hwatched.start]
  exact if_pos rfl

/-- After a poll with nothing else under way every cursor is at the newest put. -/
theorem poll_catches_up (W : Wired n safe ring) (hlane : W.lane s d = some l) (hd : d < n)
    (hreach : (ringMachine n ring Faults.none).Reach (World.fresh n) (Machine.idle w)) :
    ∃ w' messages,
      (ringMachine n ring Faults.none).InTurn [(⟨⟨d, hd⟩, .poll⟩, .polled (.ok messages))] w w' ∧
      cursorOf s d w'.log = topOf s d w.log ∧ putsOf s d w'.log = putsOf s d w.log ∧
      deliveredOf s d w'.log = deliveredOf s d w.log ++ fromOrigin s messages := by
  obtain ⟨w', messages, log, hcall, hlog, hstart, hputs⟩ := poll_at_rest W hd hreach
  have hlawful : Lawful W Faults.none w'.log := (reach_inv W rfl (hreach.steps hcall.steps)).lawful
  rw [hlog] at hlawful
  have hlog' : w.log <:+ log := by
    have hsuffix := pollStart_suffix d log
    rw [hstart] at hsuffix
    exact (List.suffix_cons _ _).trans hsuffix
  have hbefore := (hlawful.2.2.suffix hlog').length_puts rfl (s := s) (d := d)
  have hafter := hlawful.2.2.length_puts rfl (s := s) (d := d)
  have htop : topOf s d log = topOf s d w.log := by
    rw [← hafter, ← hbefore, hputs]
  have hquiet : topOf s d (pollStart d log) = topOf s d log := by
    rw [hstart, htop]
    rfl
  obtain ⟨-, hcursor, -⟩ := hlawful.2.quiet_poll rfl hlane hquiet
  have hopen : pollOpen d log = true := hlawful.2.1.2.1
  refine ⟨w', messages, hcall, ?_, ?_, ?_⟩
  · rw [hlog]
    exact hcursor.trans htop
  · rw [hlog]
    exact hputs s d
  · rw [hlog]
    refine (deliveredOf_polled s).trans ?_
    rw [deliveredOf_pollStart hopen, hstart]
    rfl

/-! ### An acknowledgement -/

omit [Libraries] in
/-- The commands of an acknowledgement write nothing down. -/
theorem acknowledging_log {origin : Int} {c : RingCall} {ending : Ending} {a : c.Answer}
    (hc : c.acknowledging) (hcall : call.request = .ack origin q)
    (hexec : World.exec Faults.none t call c ending w = some (a, w')) : w'.log = w.log := by
  unfold World.exec at hexec
  cases c with
  | lockAcked => exact World.lock_log hexec
  | lockSeen =>
    dsimp only at hexec
    split at hexec
    · contradiction
    · rename_i answer w₁ hlocked
      obtain ⟨-, rfl⟩ := Prod.mk.inj (Option.some.inj hexec)
      simp [hcall, World.lock_log hlocked]
  | unlockSeen seen poison polled =>
    obtain rfl : polled = none := hc
    dsimp only at hexec
    split at hexec
    · obtain ⟨-, rfl⟩ := Prod.mk.inj (Option.some.inj hexec)
      rfl
    · contradiction
  | unlockAcked acked poison =>
    dsimp only at hexec
    split at hexec
    · obtain ⟨-, rfl⟩ := Prod.mk.inj (Option.some.inj hexec)
      rfl
    · contradiction
  | fetchAdd dest disp value =>
    dsimp only at hexec
    cases ending with
    | ok =>
      obtain ⟨-, rfl⟩ := Prod.mk.inj (Option.some.inj hexec)
      rfl
    | before code => contradiction
    | after code => contradiction
  | _ => exact hc.elim

/-- An acknowledgement of what has been returned, with nothing else under way, takes the
    counter to it. -/
theorem ack_at_rest {W : Wired n true ring} (hlane : W.lane s d = some l) (hd : d < n)
    (hreach : (ringMachine n ring Faults.none).Reach (World.fresh n) (Machine.idle w))
    (hpass : q ≤ cursorOf s d w.log) :
    ∃ w', (ringMachine n ring Faults.none).InTurn [(⟨⟨d, hd⟩, .ack s q⟩, .acked (.ok ()))] w w' ∧
      q ≤ (w'.process s).acks l.ack ∧
      w'.log = .returned d (.ack s q) (.acked (.ok ())) :: w.log := by
  have hs := (W.lanes hlane).source
  have hinv : RingInv W Faults.none w := reach_inv W rfl hreach
  let call : Call n := ⟨⟨d, hd⟩, .ack s q⟩
  have hcode : Call.code ring call = Ack.starting s l q := by
    have hrequest : call.request = .ack s q := rfl
    rw [ack_code W hrequest, Ack.code, if_neg (by omega), if_neg (by decide)]
    simp only [Int.toNat_natCast]
    rw [hlane]
  have hlock : ∃ answer w₁, World.exec Faults.none 0 call .lockAcked .ok w = some (answer, w₁) :=
    exec_ready (rest_free hreach (.acked d))
  obtain ⟨answer, w₁, hexec⟩ := hlock
  obtain ⟨acked, rfl, hw₁, hmine⟩ := lockAcked_acking (rest_holding hreach 0) hinv hexec
  have hmirror := hmine.mirrors rfl rfl s l hlane
  have hholding : ∃ w₂, (Ack.holding s l q acked).Runs
    ((ringMachine n ring Faults.none).exec 0 call)
      w₁ (.acked (.ok ())) w₂ := by
    unfold Ack.holding
    rw [hmirror]
    dsimp only
    split
    · exact ackLeaving_runs ring call w₁ (.ok ()) acked
        (hmine.holding.held (List.mem_singleton.mpr rfl))
    · rename_i hlow
      have hseen : w₁.holder (.seen d) = none := by
        rw [hw₁]
        simp [World.take, rest_free hreach]
      have hlock : ∃ answer w₂, World.exec Faults.none 0 call .lockSeen .ok w₁ =
        some (answer, w₂) :=
        exec_ready hseen
      obtain ⟨answer, w₂, hexec'⟩ := hlock
      obtain ⟨rfl, hat⟩ := AckAt.checked hlane (by simp [call]) hmine hmirror
        (Nat.lt_of_not_le hlow) hexec'
      obtain ⟨w₃, hruns⟩ := hat.runs hlane
      have hlog : w₁.log = w.log := by
        rw [hw₁]
        rfl
      have hverdict : Ack.verdict s q (seenOf n d w₁.log) = .ok () := by
        rw [verdict_seenOf hs, hlog, if_neg (Nat.not_lt.mpr hpass)]
      refine ⟨w₃, _, w₂, ⟨.ok, hexec'⟩, ?_⟩
      rw [← hverdict]
      exact hruns
  obtain ⟨w₂, hruns⟩ := hholding
  have hruns : (Call.code ring call).Runs ((ringMachine n ring Faults.none).exec 0 call) w
      (.acked (.ok ())) w₂ := by
    rw [hcode]
    exact ⟨_, w₁, ⟨.ok, hexec⟩, hruns⟩
  have hlog : w₂.log = w.log := by
    have honly : (Call.code ring call).Only RingCall.acknowledging := by
      have hrequest : call.request = .ack s q := rfl
      rw [ack_code W hrequest]
      exact ack_only W _ _ _
    apply Program.Runs.keeps (I := fun w' : World => w'.log = w.log) _ honly hruns rfl
    rintro c w a w' hc ⟨ending, hexec⟩ hsame
    exact (acknowledging_log hc rfl hexec).trans hsame
  refine ⟨_, Machine.inTurn_one hruns, ?_, congrArg (List.cons _) hlog⟩
  apply (reach_reached hlane (hreach.steps (Machine.steps_of_alone hruns))).bound
  exact mem_ackedOf.mpr (.inl rfl)

/-! ### A send -/

theorem leaving_keeps (ring : Nat → Ring) (call : Call n) (w : World) (outgoing : Outgoing)
    (result : Except Fail Nat) (hheld : w.holder (.sent call.rank d) = some t) :
    ∃ w', (Send.leaving d result outgoing).Runs ((ringMachine n ring Faults.none).exec t call) w
      (.sent result) w' ∧ w'.log = w.log :=
  ⟨_, ⟨(), _, ⟨.ok, if_pos hheld⟩, rfl, rfl⟩, rfl⟩

/-- A send the gate lets pass puts its message and nothing else. -/
theorem putting_lands {W : Wired n safe ring} {outgoing : Outgoing} {data : Bytes}
    (hlane : W.lane call.rank d = some l) (hdata : data.length ≤ l.capacity)
    (hmax : outgoing.sent + 1 ≤ u64Max) (hheld : w.holder (.sent call.rank d) = some t)
    (hcall : call.request.payload = data) :
    ∃ w' disp, (Send.putting l d data outgoing).Runs
      ((ringMachine n ring Faults.none).exec t call) w
      (.sent (.ok (outgoing.sent + 1))) w' ∧
      w'.log = .put call.rank d (outgoing.sent + 1) data true disp l.slot :: w.log := by
  obtain ⟨image, himage, hsays⟩ := Ring.buildImage_says (W.lanes hlane) outgoing.image
    (Nat.succ_pos outgoing.sent) hmax hdata
  unfold Send.putting
  rw [himage]
  let disp := l.slotAt (l.position (outgoing.sent + 1))
  obtain ⟨w', hruns, hlog⟩ := leaving_keeps ring call
    (w.land call.rank (d : Int).toNat disp image call.request.payload true)
    ⟨outgoing.sent + 1, outgoing.acked, image⟩ (.ok (outgoing.sent + 1)) hheld
  refine ⟨w', disp, ⟨Except.ok (), _, ⟨.ok, rfl⟩, hruns⟩, ?_⟩
  rw [hlog, hcall]
  exact World.land_log w _ _ _ hsays true

/-- A send on a lane whose counter has caught up, with nothing else under way. -/
theorem send_at_rest {W : Wired n true ring} {data : Bytes} (hlane : W.lane s d = some l)
    (hs : s < n) (hdata : data.length ≤ l.capacity)
    (hreach : (ringMachine n ring Faults.none).Reach (World.fresh n) (Machine.idle w))
    (hmax : sentOf s d w.log < u64Max) (hroom : sentOf s d w.log ≤ (w.process s).acks l.ack) :
    ∃ w' disp, (ringMachine n ring Faults.none).InTurn
        [(⟨⟨s, hs⟩, .send d data⟩, .sent (.ok (sentOf s d w.log + 1)))] w w' ∧
      w'.log = .returned s (.send d data) (.sent (.ok (sentOf s d w.log + 1))) ::
        .put s d (sentOf s d w.log + 1) data true disp l.slot :: w.log := by
  have hd := (W.lanes hlane).destination
  have hinv : RingInv W Faults.none w := reach_inv W rfl hreach
  let call : Call n := ⟨⟨s, hs⟩, .send d data⟩
  have hcode : Call.code ring call = Send.starting true l d data := by
    have hrequest : call.request = .send d data := rfl
    rw [send_code W hrequest, Send.code, if_neg (by omega), Int.toNat_natCast, hlane]
    exact if_neg (Nat.not_lt.mpr hdata)
  have hlock : ∃ answer w₁, World.exec Faults.none 0 call (.lockSent d) .ok w = some (answer, w₁) :=
    exec_ready (rest_free hreach (.sent s d))
  obtain ⟨answer, w₁, hexec⟩ := hlock
  obtain ⟨outgoing, rfl, hstored, hw₁, hsending⟩ := lockSent_sending hlane (rest_holding hreach 0)
    hinv hexec
  have hsending : Sending W Faults.none 0 s d l outgoing w₁ := hsending
  have hlog : w₁.log = w.log := by
    rw [hw₁]
    rfl
  have hcounter : (w₁.process s).acks l.ack = (w.process s).acks l.ack := by
    rw [hw₁]
    rfl
  have hsent : outgoing.sent = sentOf s d w.log := hlog ▸ hsending.agrees.sent
  have hheld : w₁.holder (.sent s d) = some 0 := hsending.holding.held (List.mem_singleton.mpr rfl)
  have hdepth := (W.lanes hlane).depth
  have hputting : ∀ acked, ∃ w₂ disp, (Send.putting l d data { outgoing with acked := acked }).Runs
      ((ringMachine n ring Faults.none).exec 0 call) w₁ (.sent (.ok (outgoing.sent + 1))) w₂ ∧
      w₂.log = .put s d (outgoing.sent + 1) data true disp l.slot :: w₁.log := by
    intro acked
    have hnext : ({ outgoing with acked := acked } : Outgoing).sent + 1 ≤ u64Max := by
      dsimp only
      omega
    exact putting_lands hlane hdata hnext hheld rfl
  have hruns : ∃ w₂ disp, (Send.holding true l d data outgoing).Runs
      ((ringMachine n ring Faults.none).exec 0 call) w₁ (.sent (.ok (outgoing.sent + 1))) w₂ ∧
      w₂.log = .put s d (outgoing.sent + 1) data true disp l.slot :: w₁.log := by
    rw [hsending.holding_stage data hlane (by omega)]
    split
    · -- the cached counter is behind: the send reads the counter and passes
      obtain ⟨w₂, disp, hruns, hput⟩ := hputting ((w₁.process s).acks l.ack)
      refine ⟨w₂, disp, ⟨(w₁.process s).acks l.ack, w₁, ⟨.ok, rfl⟩, ?_⟩, hput⟩
      have hpass : ¬ l.depth < outgoing.sent + 1 - (w₁.process s).acks l.ack := by omega
      have hrest := hsending.refreshed_stage data hlane
      rw [if_neg hpass] at hrest
      rw [← hrest] at hruns
      exact hruns
    · exact hputting outgoing.acked
  obtain ⟨w₂, disp, hruns, hput⟩ := hruns
  have hruns : (Call.code ring call).Runs ((ringMachine n ring Faults.none).exec 0 call) w
      (.sent (.ok (outgoing.sent + 1))) w₂ := by
    rw [hcode]
    exact ⟨_, w₁, ⟨.ok, hexec⟩, hruns⟩
  rw [hsent] at hruns hput
  rw [hlog] at hput
  refine ⟨_, disp, Machine.inTurn_one hruns, ?_⟩
  rw [← hput]
  rfl

/-! ### Progress -/

/-- From `w` on, exactly four calls are made, one after the other: a poll, an acknowledgement of
    what was sent, a send of `data` and a poll.  All succeed, the last poll returns the message
    from this lane alone, and the polls have then returned all that was ever put on it. -/
structure Delivers (ring : Nat → Ring) (n s d : Nat) (data : Bytes) (w w' : World) : Prop where
  calls : ∃ (hs : s < n) (hd : d < n) (before after : List Message),
    (ringMachine n ring Faults.none).InTurn
      [(⟨⟨d, hd⟩, .poll⟩, .polled (.ok before)),
        (⟨⟨d, hd⟩, .ack s (sentOf s d w.log)⟩, .acked (.ok ())),
        (⟨⟨s, hs⟩, .send d data⟩, .sent (.ok (sentOf s d w.log + 1))),
        (⟨⟨d, hd⟩, .poll⟩, .polled (.ok after))] w w' ∧
      (fromOrigin s after).map Message.entry = [(sentOf s d w.log + 1, data)]
  put : putsOf s d w'.log = putsOf s d w.log ++ [(sentOf s d w.log + 1, data)]
  delivered : (deliveredOf s d w'.log).map Message.entry = putsOf s d w'.log

theorem length_at_rest (W : Wired n safe ring)
    (hreach : (ringMachine n ring Faults.none).Reach (World.fresh n) (Machine.idle w)) :
    (putsOf s d w.log).length = topOf s d w.log ∧ sentOf s d w.log = topOf s d w.log := by
  have hlawful : Lawful W Faults.none w.log := (reach_inv W rfl hreach).lawful
  exact ⟨hlawful.length_puts rfl, hlawful.sent_eq_top rfl⟩

/-- A lane whose cursor is at the newest put has returned all of them. -/
theorem caught_up {W : Wired n true ring} (hlane : W.lane s d = some l)
    (hreach : (ringMachine n ring Faults.none).Reach (World.fresh n) (Machine.idle w))
    (hcursor : cursorOf s d w.log = topOf s d w.log) :
    (deliveredOf s d w.log).map Message.entry = putsOf s d w.log := by
  have hlawful : Lawful W Faults.none w.log := (reach_inv W rfl hreach).lawful
  apply (hlawful.fifo rfl hlane).returned.eq_of_length
  have hcount := congrArg List.length (hlawful.safe_delivered hlane)
  rw [List.length_map, List.length_range'] at hcount
  rw [List.length_map, hcount, hcursor]
  exact (length_at_rest W hreach).1.symm

/-- **The next message always gets through**: poll, acknowledge, send, poll. -/
theorem delivers_at_rest {W : Wired n true ring} {data : Bytes} (hlane : W.lane s d = some l)
    (hdata : data.length ≤ l.capacity)
    (hreach : (ringMachine n ring Faults.none).Reach (World.fresh n) (Machine.idle w))
    (hmax : sentOf s d w.log < u64Max) : ∃ w', Delivers ring n s d data w w' := by
  have hs := (W.lanes hlane).source
  have hd := (W.lanes hlane).destination
  have htop := length_at_rest W hreach (s := s) (d := d)
  obtain ⟨w₁, before, hpoll, hcursor, hputs₁, -⟩ := poll_catches_up W hlane hd hreach
  have hreach₁ := hreach.steps hpoll.steps
  rw [← htop.2] at hcursor
  obtain ⟨w₂, hack, hcounter, hlog₂⟩ := ack_at_rest hlane hd hreach₁ (Nat.le_of_eq hcursor.symm)
  have hreach₂ := hreach₁.steps hack.steps
  have hputs : putsOf s d w₂.log = putsOf s d w.log := by
    rw [hlog₂]
    exact hputs₁
  have htop₂ := length_at_rest W hreach₂ (s := s) (d := d)
  have hsent : sentOf s d w₂.log = sentOf s d w.log := by
    rw [htop₂.2, htop.2, ← htop₂.1, ← htop.1, hputs]
  obtain ⟨w₃, disp, hsend, hlog⟩ := send_at_rest hlane hs hdata hreach₂ (by omega) (by omega)
  rw [hsent] at hsend hlog
  have hreach₃ := hreach₂.steps hsend.steps
  have hput : putsOf s d w₃.log = putsOf s d w.log ++ [(sentOf s d w.log + 1, data)] := by
    rw [hlog, ← hputs]
    exact if_pos ⟨rfl, rfl⟩
  have hdelivered₃ : deliveredOf s d w₃.log = deliveredOf s d w₂.log := by
    rw [hlog]
    rfl
  obtain ⟨w₄, after, hpoll', hcursor', hputs₄, hdelivered₄⟩ := poll_catches_up W hlane hd hreach₃
  have hreach₄ := hreach₃.steps hpoll'.steps
  -- what the polls have returned is all of the puts, after the first poll and after the last
  have hcursor₂ : cursorOf s d w₂.log = topOf s d w₂.log := by
    rw [← htop₂.2, hsent, hlog₂]
    exact hcursor
  have hall₂ := caught_up hlane hreach₂ hcursor₂
  have hcursor₄ : cursorOf s d w₄.log = topOf s d w₄.log := by
    rw [hcursor', ← (length_at_rest W hreach₃).1, ← (length_at_rest W hreach₄).1, hputs₄]
  have hall₄ := caught_up hlane hreach₄ hcursor₄
  refine ⟨w₄, ⟨hs, hd, before, after, ((hpoll.append hack).append hsend).append hpoll', ?_⟩,
    hputs₄.trans hput, hall₄⟩
  rw [hdelivered₄, List.map_append, hdelivered₃, hall₂, hputs₄, hput, hputs] at hall₄
  exact List.append_cancel_left hall₄

/-- **A safe ring is never wedged.**  Whatever an interleaving has led to, the calls under way
    can be completed, and then every lane that has a sequence number left delivers any
    payload that fits it, with all that was put before.  A put lands as a whole image. -/
theorem never_wedged {comm : Fin n → Comm} {lists : Fin n → List LaneSpec}
    (hring : Constructed n comm lists true ring)
    {x : Config RingCall RingCall.Answer World (Call n) Outcome}
    (hreach : (ringMachine n ring Faults.none).Reach (World.fresh n) x) :
    (∃ w, Relation.ReflTransGen (ringMachine n ring Faults.none).Advance x (Machine.idle w)) ∧
    ∀ w, Relation.ReflTransGen (ringMachine n ring Faults.none).Step x (Machine.idle w) →
      ∀ s d l data, s < n → (ring s).toLanes[d]? = some (some l) → data.length ≤ l.capacity →
        sentOf s d w.log < u64Max → ∃ w', Delivers ring n s d data w w' := by
  obtain ⟨W⟩ := hring.wired
  constructor
  · exact calls_complete hreach
  · intro w hsteps s d l data hs hlane hdata hmax
    exact delivers_at_rest ((W.to_iff hs).mp hlane) hdata (hreach.steps hsteps) hmax

/-- A full lane, and a send that has read the counter and will be refused. -/
def crowdedSchedule : List (Move (Call 2) Ending) :=
  [[1], [2], [3]].flatMap (fun data => whole 0 pairSource (.send 1 data)) ++
    [.call 0 ⟨pairSource, .send 1 [4]⟩, .commands 0 [.ok, .ok]]

omit [Libraries] in
theorem never_wedged_full : ∃ x w,
    @ringReplay libraries 2 (pairRing true 3 8) Faults.none crowdedSchedule = some x ∧
    x.shared.holder (.sent 0 1) = some 0 ∧
    Relation.ReflTransGen (@ringMachine libraries 2 (pairRing true 3 8) Faults.none).Step x
      (Machine.idle w) ∧ sentOf 0 1 w.log = 3 ∧
    ∃ w', @Delivers libraries (pairRing true 3 8) 2 0 1 [4] w w' := by
  let _ := libraries
  let M := ringMachine 2 (pairRing true 3 8) Faults.none
  have hrun : (ringReplay 2 (pairRing true 3 8) Faults.none crowdedSchedule).map
      (fun x => (x.shared.holder (.sent 0 1),
        (M.play (World.exec Faults.none) (.finish 0 .ok) x).map fun y =>
          ((y.threads 0).isNone, sentOf 0 1 y.shared.log))) = some (some 0, some (true, 3)) := by
    decide +kernel
  obtain ⟨x, hx, hstate⟩ := Option.map_eq_some_iff.mp hrun
  obtain ⟨hheld, hplayed⟩ := Prod.mk.inj hstate
  obtain ⟨y, hplay, hafter⟩ := Option.map_eq_some_iff.mp hplayed
  obtain ⟨hnone, hsent⟩ := Prod.mk.inj hafter
  have hidle : y = Machine.idle y.shared := by
    have hthreads : y.threads = fun _ => none := by
      funext u
      by_cases hu : u = 0
      · rw [hu]
        exact Option.isNone_iff_eq_none.mp hnone
      · rw [Machine.threads_play hplay (Ne.symm hu)]
        refine (Machine.threads_replay hx fun move hmove => ?_).trans rfl
        have hzero : ∀ move ∈ crowdedSchedule, move.thread = 0 := by decide
        rw [hzero move hmove]
        exact Ne.symm hu
    unfold Machine.idle
    rw [← hthreads]
  have hsteps : Relation.ReflTransGen M.Step x (Machine.idle y.shared) := by
    rw [← hidle]
    exact Machine.steps_of_play exec_of_exec hplay
  obtain ⟨-, hdelivers⟩ := never_wedged (pair_three true) (reach_replay hx)
  refine ⟨x, y.shared, hx, hheld, hsteps, hsent, ?_⟩
  apply hdelivers _ hsteps 0 1 (pairLane 3 8) [4] (by decide) (by decide) (by decide)
  rw [hsent]
  decide

end Alone

end MpiRma
