/-
  MpiRma/Cumulative.lean
  ======================
  **Acknowledgements are cumulative.**  `AckAt` follows an acknowledgement of a safe ring
  through its stages, with the outcome once it is decided.  The counter of a lane is raised
  only to a sequence whose acknowledgement can end in no other way than `Ok`, so it is the
  greatest sequence acknowledged, in whatever order the calls came.
-/
import MpiRma.Gate

namespace MpiRma

/-! ### Where an acknowledgement stands -/

section Tracked

variable [Libraries] {n : Nat} {ring : Nat → Ring} {W : Wired n true ring}
  {t s d q : Nat} {l : Lane}
  {w w' : World}

def Answered (s q : Nat) (r : Except Fail Unit) : Prop :=
  r = .ok () ∨ ∃ cursor < q, r = .error (.error (.ack s q cursor))

def OthersMirrored (W : Wired n true ring) (d s : Nat) (w : World) : Prop :=
  ∀ s' l', W.lane s' d = some l' → s' ≠ s →
    (w.process d).acked[s']? = some ((w.process s').acks l'.ack)

/-- Where an acknowledgement of a safe ring stands, with its outcome once that is decided. -/
inductive AckAt (W : Wired n true ring) (t d s : Nat) (l : Lane) (q : Nat) (w : World) :
    Option (Except Fail Unit) → RingProgram Outcome → Prop where
  | starting (hidle : Holding t [] w) : AckAt W t d s l q w none (Ack.starting s l q)
  | checking {acked : List Nat} {mirror : Nat}
      (hmine : Acking W Faults.none t d [.acked d] acked w) (hmirror : acked[s]? = some mirror)
      (hlow : mirror < q) : AckAt W t d s l q w none (Ack.checking s l q mirror acked)
  | comparing {acked seen : List Nat} {mirror : Nat} {verdict : Except Fail Unit}
      (hmine : Acking W Faults.none t d [.seen d, .acked d] acked w)
      (hmirror : acked[s]? = some mirror) (hlow : mirror < q)
      (hseen : (w.process d).seen = seen) (hfair : Answered s q verdict)
      (hpass : verdict = .ok () → q ≤ cursorOf s d w.log) :
      AckAt W t d s l q w (some verdict) (Ack.compared s l q mirror acked seen verdict)
  | adding {acked : List Nat} {mirror : Nat}
      (hmine : Acking W Faults.none t d [.acked d] acked w) (hmirror : acked[s]? = some mirror)
      (hlow : mirror < q) (hpass : q ≤ cursorOf s d w.log) :
      AckAt W t d s l q w (some (.ok ())) (Ack.adding s l q mirror acked)
  | leaving {acked : List Nat} {result : Except Fail Unit}
      (hholding : Holding t [.acked d] w)
      (hreached : result = .ok () → q ≤ (w.process s).acks l.ack)
      (hkept : (w.process d).acked = acked ∨ result = .ok () ∧
        ∃ mirror, (w.process d).acked[s]? = some mirror ∧ mirror < q)
      (hothers : OthersMirrored W d s w) (hfair : Answered s q result) :
      AckAt W t d s l q w (some result) (Ack.leaving result acked)
  | returning {result : Except Fail Unit} (hidle : Holding t [] w) (hfair : Answered s q result)
      (hreached : result = .ok () → q ≤ (w.process s).acks l.ack) :
      AckAt W t d s l q w (some result) (.ret (.acked result))

/-- What another thread does leaves an acknowledgement where it stands. -/
theorem AckAt.stable {o : Option (Except Fail Unit)} {p : RingProgram Outcome}
    (h : AckAt W t d s l q w o p) (hlane : W.lane s d = some l) (hrely : RingRely W t w w')
    (hinv : RingInv W Faults.none w')
    (hseen : w.holder (.seen d) = some t → (w'.process d).seen = (w.process d).seen) :
    AckAt W t d s l q w' o p := by
  have hcounter := hrely.counters s d l hlane
  have hcursor := hinv.lawful.cursor_mono hlane hrely.log
  cases h with
  | starting hidle => exact .starting (hidle.rely hrely)
  | checking hmine hmirror hlow => exact .checking (hmine.rely hrely hinv) hmirror hlow
  | comparing hmine hmirror hlow hsame hfair hpass =>
    have hheld := hmine.holding.held (List.mem_cons_self ..)
    exact .comparing (hmine.rely hrely hinv) hmirror hlow ((hseen hheld).trans hsame) hfair
      fun hok => Nat.le_trans (hpass hok) hcursor
  | adding hmine hmirror hlow hpass =>
    exact .adding (hmine.rely hrely hinv) hmirror hlow (Nat.le_trans hpass hcursor)
  | leaving hholding hreached hkept hothers hfair =>
    obtain ⟨hstored, hcounters⟩ := hrely.acked d (hholding.held (List.mem_singleton.mpr rfl))
    refine .leaving (hholding.rely hrely) (fun hok => Nat.le_trans (hreached hok) hcounter) ?_
      (fun s' l' hlane' hne => ?_) hfair
    · rwa [hstored]
    · rw [hstored, hcounters s' l' hlane']
      exact hothers s' l' hlane' hne
  | returning hidle hfair hreached =>
    exact .returning (hidle.rely hrely) hfair fun hok => Nat.le_trans (hreached hok) hcounter

/-- The mirrors a thread holds are the counters. -/
theorem Acking.others {ms : List Mutex} {acked : List Nat}
    (h : Acking W Faults.none t d ms acked w) (s : Nat) : OthersMirrored W d s w := by
  intro s' l' hlane' _
  rw [h.stored]
  exact h.mirrors rfl rfl s' l' hlane'

/-- The mirror a thread holds is the counter. -/
theorem Acking.mirror_eq {ms : List Mutex} {acked : List Nat} {mirror : Nat}
    (h : Acking W Faults.none t d ms acked w) (hlane : W.lane s d = some l)
    (hmirror : acked[s]? = some mirror) : (w.process s).acks l.ack = mirror :=
  Option.some.inj (((h.mirrors rfl rfl s l hlane).symm).trans hmirror)

variable {call : Call n} {c : RingCall} {cont : c.Answer → RingProgram Outcome} {a : c.Answer}
  {ending : Ending}

/-- Taking the mirror's mutex gives the mirror stored under it. -/
theorem lockAcked_acking {answer : Option (List Nat)} (hidle : Holding t [] w)
    (hinv : RingInv W Faults.none w)
    (hexec : World.exec Faults.none t call .lockAcked ending w = some (answer, w')) :
    ∃ acked, answer = some acked ∧ w' = w.take t (.acked call.rank) ∧
      Acking W Faults.none t call.rank [.acked call.rank] acked w' := by
  obtain ⟨hfree, rfl, rfl⟩ := lock_some hinv.clean hexec
  refine ⟨_, rfl, rfl, (hinv.take hfree).inv, hidle.take, List.mem_singleton.mpr rfl, rfl, ?_⟩
  exact fun _ hadds s l hl => (hinv.lane s call.rank l hl).mirror rfl hadds hfree

/-- Taking the cursors' mutex gives the cursors stored under it. -/
theorem lockSeen_acking {answer : Option (List Nat)} {acked : List Nat}
    (hcall : call.request ≠ .poll)
    (hmine : Acking W Faults.none t call.rank [.acked call.rank] acked w)
    (hexec : World.exec Faults.none t call .lockSeen ending w = some (answer, w')) :
    answer = some (seenOf n call.rank w.log) ∧ w' = w.take t (.seen call.rank) ∧
      (w'.process call.rank).seen = seenOf n call.rank w.log ∧
      Acking W Faults.none t call.rank [.seen call.rank, .acked call.rank] acked w' := by
  have hinv := hmine.inv
  unfold World.exec at hexec
  dsimp only at hexec
  split at hexec
  · contradiction
  rename_i answer' w₁ hlock
  obtain ⟨hfree, rfl, rfl⟩ := lock_some hinv.clean hlock
  rw [if_neg fun h => hcall h.1] at hexec
  obtain ⟨rfl, rfl⟩ := Prod.mk.inj (Option.some.inj hexec)
  have hseen := (hinv.rank call.rank call.rank.isLt).seen
  refine ⟨congrArg some hseen, rfl, hseen, (hinv.take hfree).inv, hmine.holding.take, ?_, ?_, ?_⟩
  · exact List.mem_cons_of_mem _ hmine.mem
  · exact hmine.stored
  · exact hmine.mirrors

/-- The fetch-and-add of an acknowledgement finds the counter at the mirror and takes it to
    the sequence. -/
theorem fetchAdd_acking {answer : Except Int Nat} {acked : List Nat} {mirror : Nat}
    (hlane : W.lane s call.rank = some l)
    (hmine : Acking W Faults.none t call.rank [.acked call.rank] acked w)
    (hmirror : acked[s]? = some mirror) (hlow : mirror < q)
    (hpass : q ≤ cursorOf s call.rank w.log)
    (hexec : World.exec Faults.none t call (.fetchAdd (s : Int) l.ack (q - mirror)) ending w =
      some (answer, w')) :
    answer = .ok mirror ∧ Holding t [.acked call.rank] w' ∧
      (w'.process call.rank).acked = acked ∧ (w'.process s).acks l.ack = q ∧
      OthersMirrored W call.rank s w' := by
  have hheld := hmine.holding.held hmine.mem
  have hcounter := hmine.mirror_eq hlane hmirror
  obtain ⟨-, hself, hother⟩ := hmine.inv.add hlane (q - mirror) hheld (by omega)
  cases ending with
  | ok =>
    obtain ⟨rfl, rfl⟩ := Prod.mk.inj (Option.some.inj hexec)
    have hstored := (World.add_acked w s l.ack (q - mirror) call.rank).trans hmine.stored
    refine ⟨congrArg Except.ok hcounter, hmine.holding, hstored, ?_, fun s' l' hlane' hne => ?_⟩
    · refine hself.trans ?_
      omega
    · have hmirrors := hmine.mirrors rfl rfl s' l' hlane'
      exact (congrArg (·[s']?) hstored).trans
        (hmirrors.trans (congrArg some (hother s' _ l' hlane' fun h => hne h.1).symm))
  | before | after => contradiction

omit [Libraries] in
/-- The comparison with the cursor of a lane. -/
theorem verdict_seenOf (hs : s < n) (q : Nat) (log : List Event) :
    Ack.verdict s q (seenOf n d log) =
      if cursorOf s d log < q then .error (.error (.ack s q (cursorOf s d log))) else .ok () := by
  unfold Ack.verdict
  rw [seenOf_get hs]

/-- Taking the cursors' mutex decides an acknowledgement. -/
theorem AckAt.checked {answer : Option (List Nat)} {acked : List Nat} {mirror : Nat}
    (hlane : W.lane s call.rank = some l) (hcall : call.request ≠ .poll)
    (hmine : Acking W Faults.none t call.rank [.acked call.rank] acked w)
    (hmirror : acked[s]? = some mirror) (hlow : mirror < q)
    (hexec : World.exec Faults.none t call .lockSeen ending w = some (answer, w')) :
    answer = some (seenOf n call.rank w.log) ∧
      AckAt W t call.rank s l q w' (some (Ack.verdict s q (seenOf n call.rank w.log)))
        (Ack.compared s l q mirror acked (seenOf n call.rank w.log)
          (Ack.verdict s q (seenOf n call.rank w.log))) := by
  obtain ⟨rfl, rfl, hseen, hmine'⟩ := lockSeen_acking hcall hmine hexec
  refine ⟨rfl, .comparing hmine' hmirror hlow hseen ?_ fun hok => ?_⟩
  · rw [verdict_seenOf (W.lanes hlane).source]
    split
    · exact .inr ⟨_, by assumption, rfl⟩
    · exact .inl rfl
  · rw [verdict_seenOf (W.lanes hlane).source] at hok
    split at hok
    · contradiction
    · exact Nat.le_of_not_lt (by assumption)

/-- **Each command of an acknowledgement takes it to its next stage**, and one that is decided
    stays so. -/
theorem AckAt.step {o : Option (Except Fail Unit)} (hlane : W.lane s call.rank = some l)
    (hcall : call.request ≠ .poll) (hinv : RingInv W Faults.none w)
    (hinv' : RingInv W Faults.none w') (h : AckAt W t call.rank s l q w o (.op c cont))
    (hexec : World.exec Faults.none t call c ending w = some (a, w')) :
    ∃ o', AckAt W t call.rank s l q w' o' (cont a) ∧ ∀ r, o = some r → o' = some r := by
  have hframed := exec_framed hexec
  generalize hp : Program.op c cont = p at h
  cases h with
  | starting hidle =>
    cases hp
    obtain ⟨acked, rfl, rfl, hmine⟩ := lockAcked_acking hidle hinv hexec
    have hmirror := hmine.mirrors rfl rfl s l hlane
    show ∃ o', AckAt W t call.rank s l q _ o' (Ack.holding s l q acked) ∧ _
    unfold Ack.holding
    rw [hmirror]
    dsimp only
    split
    · rename_i hdone
      exact ⟨_, .leaving hmine.holding (fun _ => hdone) (.inl hmine.stored)
        (hmine.others s) (.inl rfl),
        nofun⟩
    · rename_i hlow
      exact ⟨_, .checking hmine hmirror (Nat.lt_of_not_le hlow), nofun⟩
  | @checking acked mirror hmine hmirror hlow =>
    cases hp
    obtain ⟨rfl, hat⟩ := AckAt.checked hlane hcall hmine hmirror hlow hexec
    exact ⟨_, hat, nofun⟩
  | @comparing acked seen mirror verdict hmine hmirror hlow hseen hfair hpass =>
    cases hp
    have hheld := hmine.holding.held (List.mem_cons_self ..)
    unfold World.exec at hexec
    dsimp only at hexec
    rw [if_pos hheld] at hexec
    obtain ⟨-, rfl⟩ := Prod.mk.inj (Option.some.inj hexec)
    have hkeep : ∀ {α : Type} (g : Process → α), (∀ p : Process, g { p with seen := seen } = g p) →
        ∀ i, g ((w.modify call.rank fun p => { p with seen := seen }).process i) =
          g (w.process i) := fun g hg i => World.modify_keeps g hg w call.rank i
    have hleft : Holding t [.acked call.rank]
        ((w.modify call.rank fun p => { p with seen := seen }).drop (.seen call.rank)
          (poisons verdict)) := by
      have hsame : Holding t [.seen call.rank, .acked call.rank]
        (w.modify call.rank fun p => { p with seen := seen }) := hmine.holding
      exact hsame.drop (by simp) _
    have hmine' : Acking W Faults.none t call.rank [.acked call.rank] acked
        ((w.modify call.rank fun p => { p with seen := seen }).drop (.seen call.rank)
          (poisons verdict)) := by
      refine ⟨hinv', hleft, List.mem_singleton.mpr rfl, ?_, fun hsafe hadds s' l' hl' => ?_⟩
      · exact (hkeep Process.acked (fun _ => rfl) _).trans hmine.stored
      · refine (hmine.mirrors hsafe hadds s' l' hl').trans ?_
        exact congrArg some (hkeep (fun p => p.acks l'.ack) (fun _ => rfl) s').symm
    cases verdict with
    | error e =>
      exact ⟨_, .leaving hmine'.holding nofun (.inl hmine'.stored) (hmine'.others s) hfair,
        fun _ => id⟩
    | ok u => exact ⟨_, .adding hmine' hmirror hlow (hpass rfl), fun _ => id⟩
  | @adding acked mirror hmine hmirror hlow hpass =>
    cases hp
    obtain ⟨rfl, hholding, hstored, hcounter, hothers⟩ :=
      fetchAdd_acking hlane hmine hmirror hlow hpass hexec
    have hrest : Ack.leaving (.ok ()) (acked.set s q) =
        if mirror ≠ mirror then Ack.leaving (.error (.error (.ring
          "acknowledgement counter diverged"))) acked else Ack.leaving (.ok ())
            (acked.set s q) := by
      rw [if_neg (not_not_intro rfl)]
    refine ⟨some (.ok ()), ?_, fun _ => id⟩
    show AckAt W t call.rank s l q w' _ (ite (mirror ≠ mirror) _ _)
    rw [← hrest]
    exact .leaving hholding (fun _ => Nat.le_of_eq hcounter.symm)
      (.inr ⟨rfl, mirror, by rw [hstored]; exact hmirror, hlow⟩) hothers (.inl rfl)
  | leaving hholding hreached hkept hothers hfair =>
    cases hp
    have hcounter := congrFun (hframed.acks nofun s) l.ack
    refine ⟨_, .returning ?_ hfair fun hok => hcounter ▸ hreached hok, fun _ => id⟩
    unfold World.exec at hexec
    dsimp only at hexec
    rw [if_pos (hholding.held (List.mem_singleton.mpr rfl))] at hexec
    obtain ⟨-, rfl⟩ := Prod.mk.inj (Option.some.inj hexec)
    exact Holding.drop (w := w.modify call.rank _) hholding (by simp) _
  | returning => exact nomatch hp

def AcksAt (W : Wired n true ring) (t : Nat) (call : Call n) (p : RingProgram Outcome) (w : World) :
    Prop :=
  ∀ (s : Nat) q l, call.request = .ack s q → W.lane s call.rank = some l →
    ∃ o, AckAt W t call.rank s l q w o p

omit [Libraries] in
/-- A mutex one thread holds is not held by another. -/
theorem held_other {u : Nat} {m : Mutex} (hu : u ≠ t) (hheld : w.holder m = some t) :
    w.holder m ≠ some u := by
  rw [hheld]
  exact fun h => hu (Option.some.inj h).symm

theorem AckAt.moved {u : Nat} {o : Option (Except Fail Unit)} {p : RingProgram Outcome}
    (hlane : W.lane s d = some l) (hu : u ≠ t)
    (hmoves : (mirroredMachine n ring Faults.none).Moves u w w') (hinv : RingInv W Faults.none w')
    (hrely : RingRely W t w w') (h : AckAt W t d s l q w o p) : AckAt W t d s l q w' o p := by
  refine h.stable hlane hrely hinv fun hheld => ?_
  rcases hmoves with ⟨other, ⟨c, a, -, ending, hexec⟩ | ⟨r, rfl⟩⟩
  · exact (exec_framed hexec).seen d (held_other hu hheld)
  · rfl

theorem acks_tracked : Tracking (ringDiscipline W Faults.none)
    (mirroredMachine n ring Faults.none) (AcksAt W) where
  start {t call w} hinv hidle := by
    intro s q l hcall hlane
    have hs := (W.lanes hlane).source
    have hcode : Call.code ring call = Ack.starting s l q := by
      rw [ack_code W hcall, Ack.code, if_neg (by omega), if_neg (by decide),
        Int.toNat_natCast, hlane]
    show ∃ o, AckAt W t call.rank s l q w o (Call.code ring call)
    rw [hcode]
    exact ⟨none, .starting (Idle.holding hidle)⟩
  step {t call c cont a w w'} hinv hinv' h := by
    rintro ⟨-, ending, hexec⟩ s q l hcall hlane
    obtain ⟨o, hat⟩ := h s q l hcall hlane
    obtain ⟨o', hat', -⟩ := hat.step hlane (by rw [hcall]; simp) hinv hinv' hexec
    exact ⟨o', hat'⟩
  stable {t u call p w w'} hu hmoves hinv hrely h := by
    intro s q l hcall hlane
    obtain ⟨o, hat⟩ := h s q l hcall hlane
    exact ⟨o, hat.moved hlane hu hmoves hinv hrely⟩

/-- A thread's acknowledgement in a reachable configuration. -/
theorem reach_ackAt (W : Wired n true ring)
    {x : Config RingCall RingCall.Answer World (Call n) Outcome} {p : RingProgram Outcome}
    (hreach : (ringMachine n ring Faults.none).Reach (World.fresh n) x)
    (hat : x.threads t = some ⟨call, p⟩) (hcall : call.request = .ack s q)
    (hlane : W.lane s call.rank = some l) : ∃ o, AckAt W t call.rank s l q x.shared o p :=
  acks_tracked.reach (ring_verified W Faults.none) (inv_fresh W Faults.none) (fun _ _ => nofun)
    (reach_mirrored rfl hreach) t _ hat s q l hcall hlane

/-! ### How an acknowledgement ends -/

theorem ackLeaving_runs (ring : Nat → Ring) (call : Call n) (w : World) (result : Except Fail Unit)
    (acked : List Nat) (hheld : w.holder (.acked call.rank) = some t) :
    ∃ w', (Ack.leaving result acked).Runs ((ringMachine n ring Faults.none).exec t call) w
      (.acked result) w' :=
  ⟨_, (), _, ⟨.ok, if_pos hheld⟩, rfl, rfl⟩

theorem ackAdding_runs (ring : Nat → Ring) (call : Call n) (w : World) {mirror : Nat}
    (acked : List Nat) (hheld : w.holder (.acked call.rank) = some t)
    (hmirror : (w.process s).acks l.ack = mirror) :
    ∃ w', (Ack.adding s l q mirror acked).Runs ((ringMachine n ring Faults.none).exec t call) w
      (.acked (.ok ())) w' := by
  subst hmirror
  obtain ⟨w', hruns⟩ := ackLeaving_runs ring call
    (w.add s l.ack (q - (w.process s).acks l.ack)) (.ok ()) (acked.set s q) hheld
  refine ⟨w', Except.ok ((w.process s).acks l.ack), _, ⟨.ok, rfl⟩, ?_⟩
  show (ite ((w.process s).acks l.ack ≠ (w.process s).acks l.ack) _ _ :
    RingProgram Outcome).Runs _ _ _ _
  rw [if_neg (not_not_intro rfl)]
  exact hruns

/-- An acknowledgement that is decided can end that way. -/
theorem AckAt.runs {r : Except Fail Unit} {p : RingProgram Outcome}
    (hlane : W.lane s call.rank = some l) (h : AckAt W t call.rank s l q w (some r) p) :
    ∃ w', p.Runs ((ringMachine n ring Faults.none).exec t call) w (.acked r) w' := by
  cases h with
  | @comparing acked seen mirror _ hmine hmirror hlow hseen hfair hpass =>
    have hheld := hmine.holding.held (List.mem_cons_self ..)
    have hheld' := hmine.holding.held hmine.mem
    let dropped := (w.modify call.rank fun p => { p with seen := seen }).drop (.seen call.rank)
      (poisons r)
    have hcounter : (dropped.process s).acks l.ack = mirror := by
      refine Eq.trans ?_ (hmine.mirror_eq hlane hmirror)
      exact World.modify_keeps (f := fun p => { p with seen := seen }) (fun p => p.acks l.ack)
        (fun _ => rfl) w call.rank s
    have hstill : dropped.holder (.acked call.rank) = some t :=
      (World.drop_other (poisons r) (by simp)).trans hheld'
    cases r with
    | error e =>
      obtain ⟨w', hruns⟩ := ackLeaving_runs ring call dropped (.error e) acked hstill
      exact ⟨w', (), dropped, ⟨.ok, if_pos hheld⟩, hruns⟩
    | ok u =>
      obtain ⟨w', hruns⟩ := ackAdding_runs (q := q) ring call dropped acked hstill hcounter
      exact ⟨w', (), dropped, ⟨.ok, if_pos hheld⟩, hruns⟩
  | adding hmine hmirror hlow hpass =>
    exact ackAdding_runs ring call w _ (hmine.holding.held hmine.mem)
      (hmine.mirror_eq hlane hmirror)
  | leaving hholding hreached hkept hothers hfair =>
    exact ackLeaving_runs ring call w r _ (hholding.held (List.mem_singleton.mpr rfl))
  | returning => exact ⟨w, rfl, rfl⟩

/-- What is decided of an acknowledgement stays decided. -/
theorem decided_maintained {r : Except Fail Unit} (hlane : W.lane s call.rank = some l)
    (hcall : call.request ≠ .poll) :
    Maintained (ringDiscipline W Faults.none) (mirroredMachine n ring Faults.none)
      fun t' call' p w => t' = t → call' = call → AckAt W t call.rank s l q w (some r) p := by
  refine ⟨?_, ?_⟩
  · rintro t' call' c cont a w w' hinv hinv' h ⟨-, ending, hexec⟩ rfl rfl
    obtain ⟨o', hat', hsame⟩ := (h rfl rfl).step hlane hcall hinv hinv' hexec
    rwa [hsame r rfl] at hat'
  · rintro t' u call' p w w' hu hmoves hinv hrely h rfl rfl
    exact (h rfl rfl).moved hlane hu hmoves hinv hrely

/-- **A decided acknowledgement ends with its outcome and no other.** -/
theorem AckAt.ends (W : Wired n true ring)
    {x : Config RingCall RingCall.Answer World (Call n) Outcome} {p : RingProgram Outcome}
    {r : Except Fail Unit} (hreach : (ringMachine n ring Faults.none).Reach (World.fresh n) x)
    (hat : x.threads t = some ⟨call, p⟩) (hcall : call.request ≠ .poll)
    (hlane : W.lane s call.rank = some l) (h : AckAt W t call.rank s l q x.shared (some r) p)
    (r' : Outcome) : (ringMachine n ring Faults.none).Ends t x r' ↔ r' = .acked r := by
  have hmirrored : ∀ t (call : Call n) c w, mirrorAgrees Faults.none t call c w :=
    mirrorAgrees_of_adds rfl
  constructor
  · intro hends
    have hkept : Maintained (ringDiscipline W Faults.none) (mirroredMachine n ring Faults.none)
        fun t' call' p w => t' = t → call' = call → AckAt W t call.rank s l q w (some r) p :=
      decided_maintained hlane hcall
    have hholds := Discipline.sound (ring_verified W Faults.none) (inv_fresh W Faults.none)
      (fun _ _ => nofun) (reach_mirrored rfl hreach)
    obtain ⟨w, hend⟩ := hkept.ends (ring_verified W Faults.none) hholds hat (fun _ _ => h)
      (hends.restrict hmirrored)
    have hend := hend rfl rfl
    generalize hp : Program.ret r' = p' at hend
    cases hend with
    | comparing | adding | leaving => contradiction
    | returning => exact Program.ret.inj hp
  · rintro rfl
    obtain ⟨w', hruns⟩ := h.runs hlane
    exact .of_runs hat hruns

end Tracked

end MpiRma
