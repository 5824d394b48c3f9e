/-
  MpiRma/Refusals.lean
  ====================
  **`full` counts the refusals.**  A call adds to `full` exactly when it will return
  `Err(Error::Full)`, before it does.  So in every reachable configuration `full` is, modulo
  the range of its type, the number of refusals returned and of those about to be.
-/
import MpiRma.Gate

namespace MpiRma

/-! ### Programs that count -/

def RingCall.countsFull : RingCall → Bool
  | .addFull => true
  | _ => false

def RefusalCounted : RingProgram Outcome → Prop
  | .ret o => o = refusal
  | .op c k => c.countsFull = false ∧ ∀ a, RefusalCounted (k a)

/-- No refusal is counted yet: the program counts one before it returns it, and only then. -/
def RefusalOpen : RingProgram Outcome → Prop
  | .ret o => o ≠ refusal
  | .op c k => if c.countsFull then ∀ a, RefusalCounted (k a) else ∀ a, RefusalOpen (k a)

def NeverRefuses (p : RingProgram Outcome) : Prop :=
  p.Only (fun c => c.countsFull = false) ∧ p.Returns (· ≠ refusal)

def Counting (request : Request) (counted : Bool) (p : RingProgram Outcome) : Prop :=
  match request, counted with
  | .send _ _, true => RefusalCounted p
  | .send _ _, false => RefusalOpen p
  | _, true => False
  | _, false => NeverRefuses p

section Programs

variable [Libraries] {n : Nat} {ring : Nat → Ring} {W : Wired n true ring}
  {s d : Nat} {l : Lane} {data : Bytes}

omit [Libraries] in
theorem refusalOpen_leaving (outgoing : Outgoing) {result : Except Fail Nat}
    (h : result ≠ .error (.error .full)) : RefusalOpen (Send.leaving d result outgoing) := by
  show ∀ _, Outcome.sent result ≠ refusal
  rintro - heq
  exact h (Outcome.sent.inj heq)

theorem refusalOpen_putting (hlane : W.lane s d = some l) (hdata : data.length ≤ l.capacity)
    (outgoing : Outgoing) (hmax : outgoing.sent + 1 ≤ u64Max) :
    RefusalOpen (Send.putting l d data outgoing) := by
  obtain ⟨image, himage, -⟩ := Ring.buildImage_says (W.lanes hlane) outgoing.image
    (Nat.succ_pos outgoing.sent) hmax hdata
  unfold Send.putting
  rw [himage]
  show ∀ answer : Except Int Unit, RefusalOpen _
  rintro (code | u)
  · exact refusalOpen_leaving _ (by simp)
  · exact refusalOpen_leaving _ (by simp)

theorem refusalOpen_holding (hlane : W.lane s d = some l) (hdata : data.length ≤ l.capacity)
    (outgoing : Outgoing) : RefusalOpen (Send.holding true l d data outgoing) := by
  unfold Send.holding Send.gated
  split
  · exact refusalOpen_leaving _ (by simp)
  rename_i hmax
  have hmax := Nat.le_of_not_lt hmax
  rw [if_neg (by decide)]
  split
  · exact refusalOpen_leaving _ (by simp)
  split
  swap
  · exact refusalOpen_putting hlane hdata outgoing hmax
  show ∀ value, RefusalOpen (Send.refreshed l d data outgoing value)
  intro value
  unfold Send.refreshed
  split
  · exact refusalOpen_leaving _ (by simp)
  split
  · exact refusalOpen_leaving _ (by simp)
  split
  · show ∀ _, RefusalCounted (Send.leaving d (.error (.error .full)) _)
    exact fun _ => ⟨rfl, fun _ => rfl⟩
  · exact refusalOpen_putting hlane hdata { outgoing with acked := value } hmax

theorem refusalOpen_send (destination : Int) :
    RefusalOpen (Send.code W s destination data) := by
  unfold Send.code
  split
  · simp [RefusalOpen, refusal]
  split
  · simp [RefusalOpen, refusal]
  rename_i l hlane
  split
  · simp [RefusalOpen, refusal]
  rename_i hdata
  show ∀ answer, RefusalOpen _
  rintro (_ | outgoing)
  · simp [RefusalOpen, refusal]
  · exact refusalOpen_holding hlane (Nat.le_of_not_lt hdata) outgoing

theorem neverRefuses_ack (W : Wired n true ring) {call : Call n} {origin : Int} {sequence : Nat}
    (hcall : call.request = .ack origin sequence) : NeverRefuses (Call.code ring call) := by
  have hcalm : ∀ c : RingCall, c.acknowledging → c.countsFull = false := by
    intro c hc
    cases c with
    | addFull => exact hc.elim
    | _ => rfl
  constructor
  · rw [ack_code W hcall]
    exact (ack_only W call.rank origin sequence).mono hcalm
  · unfold Call.code
    rw [hcall]
    exact Program.returns_bind (Program.returns_trivial _) fun _ _ => nofun

theorem neverRefuses_poll (R : Ring) :
    NeverRefuses ((R.poll ()).bind fun r => .ret (.polled r.1)) := by
  have hcalm : ∀ c : RingCall, c.receiving → c.countsFull = false := by
    intro c hc
    cases c with
    | addFull => exact hc.elim
    | _ => rfl
  refine ⟨?_, Program.returns_bind (Program.returns_trivial _) fun _ _ => nofun⟩
  refine Program.only_bind ⟨rfl, ?_⟩ fun _ => trivial
  rintro (_ | seen)
  · trivial
  · refine Program.only_bind ?_ fun _ => ⟨rfl, fun _ => trivial⟩
    exact (Ring.only_pollLanes R R.incoming [] seen).mono hcalm

/-- No call has counted a refusal when it starts. -/
theorem counting_code (W : Wired n true ring) (call : Call n) :
    Counting call.request false (Call.code ring call) := by
  obtain ⟨rank, request⟩ := call
  cases request with
  | send destination data =>
    rw [send_code W rfl]
    exact refusalOpen_send destination
  | poll => exact neverRefuses_poll (ring rank)
  | ack origin sequence =>
    exact neverRefuses_ack W rfl

omit [Libraries] in
/-- A command of a call counts a refusal, or leaves what is left to count. -/
theorem Counting.step {request : Request} {counted : Bool} {c : RingCall}
    {k : c.Answer → RingProgram Outcome} (h : Counting request counted (.op c k)) (a : c.Answer) :
    (c.countsFull = true → counted = false) ∧
      Counting request (counted || c.countsFull) (k a) := by
  cases request with
  | send destination data =>
    cases counted with
    | true => exact ⟨fun hc => absurd (h.1.symm.trans hc) (by decide), h.2 a⟩
    | false =>
      refine ⟨fun _ => rfl, ?_⟩
      change if c.countsFull then ∀ a, RefusalCounted (k a) else ∀ a, RefusalOpen (k a) at h
      cases hc : c.countsFull with
      | true =>
        rw [hc, if_pos rfl] at h
        exact h a
      | false =>
        rw [hc, if_neg (by decide)] at h
        exact h a
  | poll | ack =>
    cases counted with
    | true => exact h.elim
    | false =>
      refine ⟨fun _ => rfl, ?_⟩
      rw [show c.countsFull = false from h.1.1]
      exact ⟨h.1.2 a, h.2 a⟩

end Programs

/-! ### The tally of a rank -/

/-- The refusals the calls at rank `r` have returned. -/
def refusalsOf (r : Nat) : List Event → Nat
  | [] => 0
  | .returned rank _ outcome :: log =>
    if rank = r ∧ outcome = refusal then refusalsOf r log + 1 else refusalsOf r log
  | _ :: log => refusalsOf r log

def Tally {n : Nat} (r : Nat) (x : Config RingCall RingCall.Answer World (Call n) Outcome) :
    Prop :=
  ∃ counted : List Nat, counted.Nodup ∧
    (∀ t ∈ counted, ∃ th, x.threads t = some th ∧ th.call.rank.val = r) ∧
    (∀ t th, x.threads t = some th → th.call.rank.val = r →
      Counting th.call.request (decide (t ∈ counted)) th.program) ∧
    (x.shared.process r).full = (refusalsOf r x.shared.log + counted.length) % (u64Max + 1)

section Tallies

variable {n : Nat} {faults : Faults} {t : Nat} {w w' : World} {call : Call n} {c : RingCall}

/-- A command returns nothing, and adds one to `full` of its rank or leaves it. -/
theorem exec_full {ending : Ending} {answer : c.Answer}
    (h : World.exec faults t call c ending w = some (answer, w')) (r : Nat) :
    refusalsOf r w'.log = refusalsOf r w.log ∧
      (w'.process r).full = if c.countsFull = true ∧ call.rank.val = r
        then ((w.process r).full + 1) % (u64Max + 1) else (w.process r).full := by
  have hframed := exec_framed h
  constructor
  · rcases hframed.log with hlog | ⟨e, he, hlog⟩
    · rw [hlog]
    · rw [hlog]
      cases e with
      | returned => exact absurd trivial he
      | _ => rfl
  · cases c with
    | addFull =>
      obtain ⟨-, rfl⟩ := Prod.mk.inj (Option.some.inj h)
      by_cases hr : call.rank.val = r
      · subst hr
        rw [World.modify_self, if_pos ⟨rfl, rfl⟩]
      · rw [World.modify_other (Ne.symm hr), if_neg fun h => hr h.2]
    | _ => exact hframed.full nofun r

variable [Libraries] {ring : Nat → Ring} {W : Wired n true ring} {r : Nat}
  {x y : Config RingCall RingCall.Answer World (Call n) Outcome}

theorem Tally.step (W : Wired n true ring) (h : Tally r x)
    (hstep : (ringMachine n ring faults).Step x y) : Tally r y := by
  obtain ⟨counted, hnodup, hrunning, hcounting, hfull⟩ := h
  cases hstep with
  | @call w threads u call hfree =>
    have hnew : u ∉ counted := by
      intro hmem
      obtain ⟨th, hth, -⟩ := hrunning u hmem
      exact nomatch hfree.symm.trans hth
    refine ⟨counted, hnodup, fun t ht => ?_, fun t th hth hrank => ?_, hfull⟩
    · have hne : t ≠ u := fun heq => hnew (heq ▸ ht)
      simpa [hne] using hrunning t ht
    · by_cases hut : t = u
      · subst hut
        obtain rfl : th = ⟨call, (ringMachine n ring faults).code call⟩ := by simpa using hth.symm
        rw [decide_eq_false hnew]
        exact counting_code W call
      · exact hcounting t th (by simpa [hut] using hth) hrank
  | @command w threads u call c cont a w' hat hexec =>
    obtain ⟨ending, hexec⟩ := hexec
    obtain ⟨hrefusals, hadd⟩ := exec_full hexec r
    have hother : ∀ t, t ≠ u → Function.update threads u (some ⟨call, cont a⟩) t = threads t :=
      fun t ht => Function.update_of_ne ht _ _
    have hself : Function.update threads u (some ⟨call, cont a⟩) u = some ⟨call, cont a⟩ :=
      Function.update_self ..
    by_cases hcount : c.countsFull = true ∧ call.rank.val = r
    · -- the thread counts its refusal
      obtain ⟨hc, hrank⟩ := hcount
      have hnew := (Counting.step (hcounting u _ hat hrank) a).1 hc
      refine ⟨u :: counted, List.nodup_cons.mpr ⟨of_decide_eq_false hnew, hnodup⟩,
        fun t ht => ?_, fun t th hth hr => ?_, ?_⟩
      · by_cases hut : t = u
        · subst hut
          exact ⟨_, hself, hrank⟩
        · dsimp only
          rw [hother t hut]
          exact hrunning t ((List.mem_cons.mp ht).resolve_left hut)
      · by_cases hut : t = u
        · subst hut
          obtain rfl := Option.some.inj (hself.symm.trans hth)
          have hgo := (Counting.step (hcounting t _ hat hrank) a).2
          rw [hc, Bool.or_true] at hgo
          simpa using hgo
        · have hgo := hcounting t th ((hother t hut).symm.trans hth) hr
          simpa [hut] using hgo
      · rw [hadd, if_pos ⟨hc, hrank⟩, hrefusals]
        show (((w.process r).full + 1) % _) = _
        rw [hfull, List.length_cons]
        simp [Nat.add_assoc]
    · rw [if_neg hcount] at hadd
      refine ⟨counted, hnodup, fun t ht => ?_, fun t th hth hr => ?_, ?_⟩
      · obtain ⟨th, hth, hr⟩ := hrunning t ht
        by_cases hut : t = u
        · subst hut
          obtain rfl := Option.some.inj (hat.symm.trans hth)
          exact ⟨_, hself, hr⟩
        · dsimp only
          rw [hother t hut]
          exact ⟨th, hth, hr⟩
      · by_cases hut : t = u
        · subst hut
          obtain rfl := Option.some.inj (hself.symm.trans hth)
          have hgo := (Counting.step (hcounting t _ hat hr) a).2
          have hc : c.countsFull = false := by
            simpa using fun hc => hcount ⟨hc, hr⟩
          rwa [hc, Bool.or_false] at hgo
        · exact hcounting t th ((hother t hut).symm.trans hth) hr
      · rw [hadd, hrefusals]
        exact hfull
  | @«return» w threads u call outcome hat =>
    have hother : ∀ t, t ≠ u → Function.update threads u none t = threads t :=
      fun t ht => Function.update_of_ne ht _ _
    have hgone : Function.update threads u none u = none := Function.update_self ..
    have hkept : ∀ t th, Function.update threads u none t = some th →
        t ≠ u ∧ threads t = some th := by
      intro t th hth
      have hut : t ≠ u := by
        rintro rfl
        exact nomatch hgone.symm.trans hth
      exact ⟨hut, (hother t hut).symm.trans hth⟩
    have hfull : (w.process r).full =
        (refusalsOf r w.log + counted.length) % (u64Max + 1) := hfull
    have hlog : refusalsOf r (w.record (.returned call.rank call.request outcome)).log =
        if call.rank.val = r ∧ outcome = refusal then refusalsOf r w.log + 1
        else refusalsOf r w.log := rfl
    by_cases hmem : u ∈ counted
    · obtain ⟨th, hth, hr⟩ := hrunning u hmem
      obtain rfl := Option.some.inj (hat.symm.trans hth)
      have hrefusal : outcome = refusal := by
        have hgo := hcounting u _ hat hr
        rw [decide_eq_true hmem] at hgo
        unfold Counting at hgo
        split at hgo
        · exact hgo
        · contradiction
        · contradiction
        · contradiction
      refine ⟨counted.erase u, hnodup.erase u, fun t ht => ?_, fun t th hth hr => ?_, ?_⟩
      · obtain ⟨hut, ht⟩ := (List.Nodup.mem_erase_iff hnodup).mp ht
        dsimp only
        rw [hother t hut]
        exact hrunning t ht
      · obtain ⟨hut, hth⟩ := hkept t th hth
        have hgo := hcounting t th hth hr
        simpa [List.Nodup.mem_erase_iff hnodup, hut] using hgo
      · have hlength := List.length_erase_of_mem hmem
        have hpos := List.length_pos_of_mem hmem
        show (w.process r).full = (refusalsOf r (w.record _).log + _) % _
        rw [hlog, if_pos ⟨hr, hrefusal⟩, hlength, hfull]
        congr 1
        omega
    · refine ⟨counted, hnodup, fun t ht => ?_, fun t th hth hr => ?_, ?_⟩
      · have hut : t ≠ u := fun heq => hmem (heq ▸ ht)
        dsimp only
        rw [hother t hut]
        exact hrunning t ht
      · obtain ⟨hut, hth⟩ := hkept t th hth
        exact hcounting t th hth hr
      · show (w.process r).full = (refusalsOf r (w.record _).log + _) % _
        rw [hlog, if_neg, hfull]
        rintro ⟨hr, hrefusal⟩
        have hgo := hcounting u _ hat hr
        rw [decide_eq_false hmem] at hgo
        unfold Counting at hgo
        split at hgo
        · contradiction
        · exact hgo hrefusal
        · contradiction
        · exact hgo.2 hrefusal

/-- **Every reachable configuration tallies.** -/
theorem reach_tally (W : Wired n true ring)
    (hreach : (ringMachine n ring faults).Reach (World.fresh n) x) (r : Nat) : Tally r x := by
  induction hreach with
  | refl => exact ⟨[], List.nodup_nil, nofun, nofun, rfl⟩
  | tail _ hstep ih => exact ih.step W hstep

omit [Libraries] in
/-- With no send of the rank under way, `full` is the number of refusals returned. -/
theorem Tally.quiet (h : Tally r x)
    (hquiet : ∀ t th, x.threads t = some th → th.call.rank.val = r → ∀ destination data,
      th.call.request ≠ .send destination data) :
    (x.shared.process r).full = refusalsOf r x.shared.log % (u64Max + 1) := by
  obtain ⟨counted, -, hrunning, hcounting, hfull⟩ := h
  suffices hnone : counted = [] by
    rw [hnone] at hfull
    exact hfull
  refine List.eq_nil_iff_forall_not_mem.mpr fun t ht => ?_
  obtain ⟨th, hth, hr⟩ := hrunning t ht
  have hgo := hcounting t th hth hr
  rw [decide_eq_true ht] at hgo
  unfold Counting at hgo
  split at hgo
  · exact hquiet t th hth hr _ _ (by assumption)
  all_goals contradiction

end Tallies

/-! ### The exact gate -/

section Exact

variable [Libraries] {n : Nat} {ring : Nat → Ring}

/-- What the gate of a safe ring does in a configuration: every check decides by the counter,
    admits a sequence exactly when the previous occupant of its slot is acknowledged, and
    a refused send changes nothing but the count of refusals. -/
structure ExactGate (n : Nat) (ring : Nat → Ring)
    (x : Config RingCall RingCall.Answer World (Call n) Outcome) : Prop where
  decides : ∀ (s : Fin n) (d : Nat) l, (ring s).toLanes[d]? = some (some l) →
    ∀ t data c cont a y, (ringMachine n ring Faults.none).Acts t ⟨s, .send d data⟩ c cont a x y →
      ChecksGate (cont a) c → data.length ≤ l.capacity →
      ((x.shared.process s).sent d).sent < u64Max →
      GateDecides n ring t l ((x.shared.process s).sent d).sent
        ((x.shared.process s).acks l.ack) y ∧
      ((∃ q, (ringMachine n ring Faults.none).Ends t y (.sent (.ok q))) ↔
        ((x.shared.process s).sent d).sent + 1 - l.depth ≤ (x.shared.process s).acks l.ack)
  keeps : ∀ (s : Fin n) (d : Nat) l, (ring s).toLanes[d]? = some (some l) →
    ∀ t data c cont a y, (ringMachine n ring Faults.none).Acts t ⟨s, .send d data⟩ c cont a x y →
      data.length ≤ l.capacity → (ringMachine n ring Faults.none).Ends t x refusal →
      LanesKept x.shared y.shared
  counts : ∀ r, Tally r x
  quiet : ∀ r, (∀ t th, x.threads t = some th → th.call.rank.val = r → ∀ destination data,
      th.call.request ≠ .send destination data) →
    (x.shared.process r).full = refusalsOf r x.shared.log % (u64Max + 1)

/-- **The cached gate decides exactly like a gate that reads the counter on every send.** -/
theorem gate_exact {comm : Fin n → Comm} {lists : Fin n → List LaneSpec}
    (hring : Constructed n comm lists true ring)
    {x : Config RingCall RingCall.Answer World (Call n) Outcome}
    (hreach : (ringMachine n ring Faults.none).Reach (World.fresh n) x) : ExactGate n ring x := by
  obtain ⟨W⟩ := hring.wired
  refine ⟨fun s d l hlane t data c cont a y hacts hchecks hdata hmax => ?_,
    fun s d l hlane t data c cont a y hacts hdata hends => ?_,
    reach_tally W hreach, fun r => (reach_tally W hreach r).quiet⟩
  · have hlane := (W.to_iff s.isLt).mp hlane
    have hdecides := gate_decides W hreach hacts hchecks rfl hlane hdata hmax
    exact ⟨hdecides, hdecides.occupant⟩
  · exact refused_keeps W hreach hacts rfl ((W.to_iff s.isLt).mp hlane) hdata hends

def fullSchedule : List (Move (Call 2) Ending) :=
  whole 0 pairSource (.send 1 [1]) ++ whole 0 pairSource (.send 1 [2]) ++
    whole 0 pairSource (.send 1 [3]) ++ whole 0 pairSource (.send 1 [4])

omit [Libraries] in
theorem gate_exact_pair : ∃ c,
    @ringReplay libraries 2 (pairRing true 3 8) Faults.none fullSchedule = some c ∧
    refusalsOf 0 c.shared.log = 1 ∧ @ExactGate libraries 2 (pairRing true 3 8) c := by
  let _ := libraries
  have hrun : (ringReplay 2 (pairRing true 3 8) Faults.none fullSchedule).map
      (fun c => refusalsOf 0 c.shared.log) = some 1 := by decide +kernel
  obtain ⟨c, hreplay, hrefusals⟩ := Option.map_eq_some_iff.mp hrun
  exact ⟨c, hreplay, hrefusals, gate_exact (pair_three true) (reach_replay hreplay)⟩

/-! ### The count wraps around -/

/-- Between calls, a rank has sent a turn of a lane and none of it is acknowledged. -/
structure Filled (W : Wired n true ring) (s d : Nat) (l : Lane) (w : World) : Prop where
  reach : (ringMachine n ring Faults.none).Reach (World.fresh n) (Machine.idle w)
  more : ((w.process s).sent d).sent + 1 ≤ u64Max
  turn : l.depth ≤ ((w.process s).sent d).sent
  counter : (w.process s).acks l.ack = 0

/-- A send on a filled lane is refused, and leaves it filled. -/
theorem Filled.refuses {W : Wired n true ring} {s : Fin n} {d : Nat} {l : Lane} {w : World}
    (hlane : W.lane s d = some l) (h : Filled W s d l w) :
    ∃ w', Filled W s d l w' ∧ refusalsOf s w'.log = refusalsOf s w.log + 1 := by
  have hholds := Discipline.sound (ring_verified W Faults.none) (inv_fresh W Faults.none)
    (fun _ _ => nofun) (reach_mirrored rfl h.reach)
  have hinv : RingInv W Faults.none w := hholds.inv
  have hidle : Holding 0 [] w := Idle.holding (hholds.idle 0 rfl)
  have hfree : w.holder (.sent s d) = none := by
    cases hheld : w.holder (.sent s d) with
    | none => rfl
    | some t => exact absurd hheld (hholds.idle t rfl _)
  let call : Call n := ⟨s, .send d []⟩
  have hlocks : World.exec Faults.none 0 call (.lockSent d) .ok w =
      some (some ((w.process s).sent d), w.take 0 (.sent s d)) := by
    show w.lock 0 (.sent s d) _ = _
    rw [World.lock, if_pos hfree, hinv.clean]
    rfl
  obtain ⟨outgoing, hsome, hstored, -, hsending⟩ := lockSent_sending hlane hidle hinv hlocks
  obtain rfl := Option.some.inj hsome
  set outgoing := (w.process s).sent d
  have hcounter : ((w.take 0 (.sent s d)).process s).acks l.ack = 0 := h.counter
  have hlow := (hsending.counter_le hlane).1
  have hturn : l.depth ≤ outgoing.sent := h.turn
  rw [hcounter] at hlow
  -- the cache is no newer than the counter, so the gate reads it, and refuses
  have hhold := hsending.holding_stage [] hlane h.more
  rw [if_pos (by omega)] at hhold
  have hrefreshed := hsending.refreshed_stage [] hlane
  rw [hcounter, if_pos (by omega)] at hrefreshed
  let counted := (w.take 0 (.sent s d)).modify s fun p =>
    { p with full := (p.full + 1) % (u64Max + 1) }
  let store : Process → Process := fun p =>
    { p with sent := Function.update p.sent d { outgoing with acked := 0 } }
  let left := (counted.modify s store).drop (.sent s d) false
  have hheld : counted.holder (.sent s d) = some 0 := Function.update_self ..
  have hcode : Call.code ring call = Send.starting true l d [] := by
    have hd := (W.lanes hlane).destination
    have hrequest : call.request = .send d [] := rfl
    rw [send_code W hrequest, Send.code, if_neg (by omega), Int.toNat_natCast, hlane]
    rfl
  have hruns : ((ringMachine n ring Faults.none).code call).Runs
      ((ringMachine n ring Faults.none).exec 0 call) w refusal left := by
    show (Call.code ring call).Runs _ _ _ _
    rw [hcode]
    refine ⟨_, _, ⟨.ok, hlocks⟩, ?_⟩
    show (Send.holding true l d [] outgoing).Runs _ _ _ _
    rw [hhold]
    refine ⟨(0 : Nat), _,
      ⟨.ok, congrArg (fun value => some (value, w.take 0 (.sent s d))) hcounter⟩, ?_⟩
    show (Send.refreshed l d [] outgoing 0).Runs _ _ _ _
    rw [hrefreshed]
    exact ⟨(), counted, ⟨.ok, rfl⟩, (), left, ⟨.ok, if_pos hheld⟩, rfl, rfl⟩
  have hleft : left.process s = store (counted.process s) :=
    World.modify_self (w := counted) (f := store)
  have hcounted : (counted.process s).acks = (w.process s).acks :=
    World.modify_keeps (f := fun p => { p with full := (p.full + 1) % (u64Max + 1) })
      Process.acks (fun _ => rfl) w s s
  have hsent : ((left.process s).sent d).sent = outgoing.sent := by
    rw [hleft]
    show (Function.update (counted.process s).sent d { outgoing with acked := 0 } d).sent = _
    rw [Function.update_self]
  refine ⟨left.record (.returned s call.request refusal), ⟨?_, ?_, ?_, ?_⟩, if_pos ⟨rfl, rfl⟩⟩
  · exact h.reach.steps (Machine.steps_of_alone hruns)
  · exact Nat.le_trans (Nat.le_of_eq (congrArg (· + 1) hsent)) h.more
  · exact Nat.le_trans h.turn (Nat.le_of_eq hsent.symm)
  · show (left.process s).acks l.ack = 0
    rw [hleft]
    exact (congrFun hcounted _).trans h.counter

/-- Any number of refusals can be returned on a filled lane. -/
theorem Filled.refusals {W : Wired n true ring} {s : Fin n} {d : Nat} {l : Lane} {w : World}
    (hlane : W.lane s d = some l) (h : Filled W s d l w) (k : Nat) :
    ∃ w', Filled W s d l w' ∧ refusalsOf s w'.log = refusalsOf s w.log + k := by
  induction k with
  | zero => exact ⟨w, h, rfl⟩
  | succ k ih =>
    obtain ⟨w₁, hfilled, hcount⟩ := ih
    obtain ⟨w₂, hfilled₂, hcount₂⟩ := hfilled.refuses hlane
    exact ⟨w₂, hfilled₂, by rw [hcount₂, hcount, Nat.add_assoc]⟩

omit [Libraries] in
/-- After as many refusals as its type has values, `full` is back at zero. -/
theorem full_wraps : ¬ ∀ w, (@ringMachine libraries 2 (pairRing true 3 8) Faults.none).Reach
    (World.fresh 2) (Machine.idle w) →
    (w.process pairSource).full = refusalsOf pairSource w.log := by
  let _ := libraries
  intro hall
  obtain ⟨W⟩ := (pair_three true).wired
  have hlane : W.lane pairSource 1 = some (pairLane 3 8) :=
    (W.to_iff pairSource.isLt).mp rfl
  have hrun : ((ringMachine 2 (pairRing true 3 8) Faults.none).alone (World.exec Faults.none) .ok
      (List.replicate 3 (0, ⟨pairSource, .send 1 []⟩)) (World.fresh 2)).map
      (fun w => (((w.process 0).sent 1).sent, (w.process 0).acks 0)) = some (3, 0) := by
    decide +kernel
  obtain ⟨w, halone, hobserved⟩ := Option.map_eq_some_iff.mp hrun
  obtain ⟨hsent, hcounter⟩ := Prod.mk.inj hobserved
  have hfilled : Filled W pairSource 1 (pairLane 3 8) w :=
    ⟨Machine.reach_alone exec_of_exec .refl halone,
      Nat.le_trans (Nat.le_of_eq (congrArg (· + 1) hsent)) (by decide),
      Nat.le_of_eq hsent.symm, hcounter⟩
  obtain ⟨w', hfilled', hcount⟩ := hfilled.refusals hlane (u64Max + 1)
  have htally := (reach_tally W hfilled'.reach pairSource).quiet (fun t th h => by
    simp [Machine.idle] at h)
  have hequal := hall w' hfilled'.reach
  have hbound : (w'.process pairSource).full < u64Max + 1 :=
    Nat.lt_of_le_of_lt (Nat.le_of_eq htally) (Nat.mod_lt _ (Nat.succ_pos _))
  omega

end Exact

end MpiRma
