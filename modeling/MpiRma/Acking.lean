/-
  MpiRma/Acking.lean
  ==================
  **`ack` is verified.**  It adds to the counter the distance from its mirror to a sequence
  it has checked against the receive cursor.  While the mirror agrees with the counter the
  counter ends at that sequence, so it never passes what the polls have returned.
-/
import MpiRma.Polling
import MpiRma.Sending

namespace MpiRma

variable [Libraries] {n : Nat} {safe : Bool} {ring : Nat → Ring} {W : Wired n safe ring}
  {faults : Faults} {t : Nat} {s d : Nat} {l : Lane} {w w' : World} {acked : List Nat}

/-! ### Holding the mirror -/

def Mirrors (W : Wired n safe ring) (faults : Faults) (d : Nat) (acked : List Nat) (w : World) :
    Prop :=
  faults.adds = false → ∀ s l, W.lane s d = some l → acked[s]? = some ((w.process s).acks l.ack)

structure Acking (W : Wired n safe ring) (faults : Faults) (t d : Nat) (ms : List Mutex)
    (acked : List Nat) (w : World) : Prop where
  inv : RingInv W faults w
  holding : Holding t ms w
  mem : Mutex.acked d ∈ ms
  stored : (w.process d).acked = acked
  mirrors : safe = true → Mirrors W faults d acked w

theorem Acking.rely {ms : List Mutex} (h : Acking W faults t d ms acked w)
    (hrely : RingRely W t w w') (hinv : RingInv W faults w') : Acking W faults t d ms acked w' := by
  obtain ⟨hstored, hcounters⟩ := hrely.acked d (h.holding.held h.mem)
  refine ⟨hinv, h.holding.rely hrely, h.mem, hstored.trans h.stored, fun hsafe hadds s l hl => ?_⟩
  rw [hcounters s l hl]
  exact h.mirrors hsafe hadds s l hl

section Calls

variable {call : Call n}

theorem wp_lockAcked {Q : Option (List Nat) → World → Prop} (hidle : Holding t [] w)
    (h : ∀ acked w', Acking W faults t call.rank [.acked call.rank] acked w' →
      Q (some acked) w') : ringContract W faults t call .lockAcked Q w := by
  refine ringContract_intro fun w₁ hrely hinv ending a w₂ _ hexec => ?_
  obtain ⟨hfree, rfl, rfl⟩ := lock_some hinv.clean hexec
  have hkept := hinv.take (t := t) hfree
  refine ⟨hkept, h _ _ ⟨hkept.inv, (hidle.rely hrely).take, by simp, rfl, ?_⟩⟩
  exact fun hsafe hadds s l hl => (hinv.lane s call.rank l hl).mirror hsafe hadds hfree

theorem wp_unlockAcked {Q : Unit → World → Prop}
    (hholding : Holding t [.acked call.rank] w)
    (hlength : acked.length = n) (hmirrors : safe = true → Mirrors W faults call.rank acked w)
    (h : ∀ w', Holding t [] w' → Q () w') :
    ringContract W faults t call (.unlockAcked acked false) Q w := by
  refine ringContract_intro fun w₁ hrely hinv₁ ending a w₂ _ hexec => ?_
  have hheld := hholding.held (List.mem_singleton.mpr rfl)
  have hheld₁ := (hrely.held _).mpr hheld
  obtain ⟨-, hcounters⟩ := hrely.acked call.rank hheld
  unfold World.exec at hexec
  dsimp only at hexec
  rw [if_pos hheld₁] at hexec
  obtain ⟨rfl, rfl⟩ := Prod.mk.inj (Option.some.inj hexec)
  refine ⟨hinv₁.unlockAcked hheld₁ hlength fun hsafe hadds s l hl => ?_, h _ ?_⟩
  · rw [hcounters s l hl]
    exact hmirrors hsafe hadds s l hl
  · have hholding₁ := hholding.rely hrely
    have hsame : Holding t [.acked call.rank] (w₁.modify call.rank fun p =>
        { p with acked := acked }) := hholding₁
    exact hsame.drop (by simp) false

/-! ### The check against the receive cursor -/

/-- `ack` looks at the receive cursor under `seen`: it goes on only with a sequence the
    polls have returned. -/
theorem received_ok {sequence : Nat} (hs : s < n) {m : Mutex} (hm : m ≠ .seen call.rank)
    (hcall : call.request ≠ .poll)
    (hmine : Acking W faults t call.rank [m] acked w)
    {Q : Except Fail Unit × List Nat → World → Prop}
    (hpass : ∀ w', Acking W faults t call.rank [m] acked w' →
      sequence ≤ cursorOf s call.rank w'.log → Q (.ok (), acked) w')
    (hfail : ∀ cursor w', Acking W faults t call.rank [m] acked w' → cursor < sequence →
      Q (.error (.error (.ack s sequence cursor)), acked) w') :
    ((withSeen (fun _ => none) (Ring.received (s : Int) sequence) :
      RingCode (List Nat) Unit) acked).wp (ringContract W faults t call) Q w := by
  unfold withSeen
  refine ringContract_intro fun w₁ hrely hinv ending a w₂ _ hexec => ?_
  unfold World.exec at hexec
  dsimp only at hexec
  split at hexec
  · exact nomatch hexec
  rename_i answer w' hlock
  obtain ⟨hfree, rfl, rfl⟩ := lock_some hinv.clean hlock
  rw [if_neg (fun h => hcall h.1)] at hexec
  obtain ⟨rfl, rfl⟩ := Prod.mk.inj (Option.some.inj hexec)
  have hmine₁ := hmine.rely hrely hinv
  have hrank := hinv.rank call.rank call.rank.isLt
  have htake := hinv.take (t := t) hfree
  have hheld : Holding t [.seen call.rank, m] (w₁.take t (.seen call.rank)) := hmine₁.holding.take
  have hlocked : Acking W faults t call.rank [.seen call.rank, m] acked
      (w₁.take t (.seen call.rank)) :=
    ⟨htake.inv, hheld, List.mem_cons_of_mem _ hmine₁.mem, hmine₁.stored, hmine₁.mirrors⟩
  have hclosed : pollOpen call.rank w₁.log = false := hrank.closed hfree
  refine ⟨htake, ?_⟩
  dsimp only
  rw [hrank.seen, Program.wp_bind]
  -- dropping `seen` stores the vector it holds already
  have hdrop : ∀ r, poisons r = false → (∀ w', Acking W faults t call.rank [m] acked w' →
      cursorOf s call.rank w₁.log ≤ cursorOf s call.rank w'.log → Q (r, acked) w') →
      ringContract W faults t call
        (.unlockSeen (seenOf n call.rank w₁.log) (poisons r) none) (fun _ w' => Q (r, acked) w')
        (w₁.take t (.seen call.rank)) := by
    intro r hcalm hQ
    rw [hcalm]
    refine ringContract_intro fun w₂ hrely₂ hinv₂ ending a w₃ _ hexec => ?_
    have hmine₂ := hlocked.rely hrely₂ hinv₂
    have hheld₁ := hlocked.holding.held (List.mem_cons_self ..)
    have hheld₂ := hmine₂.holding.held (List.mem_cons_self ..)
    obtain ⟨hopen, -, hdelivered⟩ := (hrely₂.seen call.rank hheld₁).log.still
    have hseen : (w₂.process call.rank).seen = seenOf n call.rank w₁.log := by
      rw [(hinv₂.rank call.rank call.rank.isLt).seen, seenOf_congr hdelivered]
      rfl
    have hcursor : cursorOf s call.rank w₂.log = cursorOf s call.rank w₁.log := by
      rw [cursorOf, hdelivered]
      rfl
    unfold World.exec at hexec
    dsimp only at hexec
    rw [if_pos hheld₂, ← hseen] at hexec
    have hsame : (w₂.modify call.rank fun p =>
        { p with seen := (w₂.process call.rank).seen }) = w₂ := by
      simp [World.modify]
    rw [hsame] at hexec
    obtain ⟨rfl, rfl⟩ := Prod.mk.inj (Option.some.inj hexec)
    have hkept := hinv₂.dropSeen hheld₂ (hopen.trans hclosed)
    refine ⟨hkept, hQ _ ⟨hkept.inv, hmine₂.holding.drop (by simpa using Ne.symm hm) false,
      hmine₁.mem, hmine₂.stored, hmine₂.mirrors⟩ (Nat.le_of_eq hcursor.symm)⟩
  unfold Ring.received
  rw [Code.wp_get_bind, Int.toNat_natCast, index_ok (seenOf_get hs w₁.log), Code.wp_lift_ok_bind]
  by_cases hlow : cursorOf s call.rank w₁.log < sequence
  · rw [if_pos hlow]
    exact hdrop (.error (.error (.ack s sequence (cursorOf s call.rank w₁.log)))) rfl
      fun w' hmine' _ => hfail _ w' hmine' hlow
  · rw [if_neg hlow, Code.wp_pure]
    exact hdrop (.ok ()) rfl fun w' hmine' hle => hpass w' hmine' (by omega)

/-! ### The addition -/

/-- The fetch-and-add of an acknowledgement finds the counter at the mirror. -/
theorem wp_fetchAdd {ring : Nat → Ring} {W : Wired n true ring} {acks : Window}
    {sequence mirror : Nat} (hlane : W.lane s call.rank = some l)
    (hvalid : acks.validate (s : Int) l.ack 1 = .ok ())
    (hmine : Acking W faults t call.rank [.acked call.rank] acked w)
    (hmirror : acked[s]? = some mirror) (hlow : mirror < sequence)
    (hseen : sequence ≤ cursorOf s call.rank w.log)
    {f : Nat → RingCode (List Nat) Unit} {Q : Except Fail Unit × List Nat → World → Prop}
    (hok : ∀ w', RingInv W faults w' → Holding t [.acked call.rank] w' →
      (w'.process call.rank).acked = acked → Mirrors W faults call.rank (acked.set s sequence) w' →
      (f mirror acked).wp (ringContract W faults t call) Q w')
    (hfault : ∀ code w', faults.adds = true → RingInv W faults w' →
      Holding t [.acked call.rank] w' → (w'.process call.rank).acked = acked →
      Q (.error (.error (.mpi code)), acked) w') :
    ((acks.fetchAdd (s : Int) l.ack (sequence - mirror) >>= f) acked).wp
      (ringContract W faults t call) Q w := by
  unfold Window.fetchAdd
  rw [hvalid]
  refine ringContract_intro (c := .fetchAdd (s : Int) l.ack (sequence - mirror))
    fun w₁ hrely hinv ending a w₂ hagrees hexec => ?_
  have hmine₁ := hmine.rely hrely hinv
  have hheld := hmine₁.holding.held hmine₁.mem
  -- without faults the mirror agrees by the invariant, with faults by what the run keeps
  have hcounter : (w₁.process s).acks l.ack = mirror := by
    have hsame : acked[s]? = some ((w₁.process s).acks l.ack) := by
      cases hadds : faults.adds with
      | false => exact hmine₁.mirrors rfl hadds s l hlane
      | true =>
        have hkeep := hagrees hadds
        rwa [hmine₁.stored, Int.toNat_natCast] at hkeep
    rw [hmirror] at hsame
    exact (Option.some.inj hsame).symm
  have hcursor := hinv.lawful.cursor_mono hlane hrely.log
  obtain ⟨hkept, hself, hother⟩ := hinv.add hlane (sequence - mirror) hheld (by omega)
  have hadded : Mirrors W faults call.rank (acked.set s sequence)
      (w₁.add s l.ack (sequence - mirror)) := by
    intro hadds s' l' hl'
    by_cases hs : s' = s
    · subst hs
      obtain rfl : l = l' := Option.some.inj (hlane.symm.trans hl')
      obtain ⟨hlt, -⟩ := List.getElem?_eq_some_iff.mp hmirror
      rw [List.getElem?_set_self hlt, hself, hcounter]
      congr 1
      omega
    · rw [List.getElem?_set_ne (Ne.symm hs), hother s' call.rank l' hl' fun h => hs h.1]
      exact hmine₁.mirrors rfl hadds s' l' hl'
  have hstored : ((w₁.add s l.ack (sequence - mirror)).process call.rank).acked = acked :=
    (World.add_acked w₁ s l.ack _ call.rank).trans hmine₁.stored
  unfold World.exec at hexec
  cases ending with
  | ok =>
    obtain ⟨rfl, rfl⟩ := Prod.mk.inj (Option.some.inj hexec)
    have hgo := hok _ hkept.inv hmine₁.holding hstored hadded
    refine ⟨hkept, ?_⟩
    show (f ((w₁.process s).acks l.ack) acked).wp (ringContract W faults t call) Q _
    rw [hcounter]
    exact hgo
  | before code =>
    dsimp only at hexec
    split at hexec
    · rename_i hadds
      obtain ⟨rfl, rfl⟩ := Prod.mk.inj (Option.some.inj hexec)
      exact ⟨Preserved.refl hinv, hfault code _ hadds hinv hmine₁.holding hmine₁.stored⟩
    · exact nomatch hexec
  | after code =>
    dsimp only at hexec
    split at hexec
    · rename_i hadds
      obtain ⟨rfl, rfl⟩ := Prod.mk.inj (Option.some.inj hexec)
      exact ⟨hkept, hfault code _ hadds hkept.inv hmine₁.holding hstored⟩
    · exact nomatch hexec

/-! ### The whole acknowledgement -/

theorem ackLocked_ok {ring : Nat → Ring} {W : Wired n true ring} {acks : Window}
    {sequence : Nat} (hcall : call.request ≠ .poll) (hlane : W.lane s call.rank = some l)
    (hvalid : acks.validate (s : Int) l.ack 1 = .ok ())
    (hmine : Acking W faults t call.rank [.acked call.rank] acked w)
    {Q : Except Fail Unit × List Nat → World → Prop}
    (h : ∀ r acked' w', RingInv W faults w' → Holding t [.acked call.rank] w' →
      acked'.length = n → Mirrors W faults call.rank acked' w' →
      AckedOk W faults call.rank (s : Int) sequence r → Q (r, acked') w') :
    ((Ring.ackLocked acks (s : Int) l sequence) acked).wp (ringContract W faults t call) Q w := by
  have hlaneOk := W.lanes hlane
  have hlength : ∀ {w'}, RingInv W faults w' → (w'.process call.rank).acked = acked →
      acked.length = n := fun hinv hstored =>
    hstored ▸ (hinv.rank call.rank call.rank.isLt).acked
  have hacked := hlength hmine.inv hmine.stored
  obtain ⟨mirror, hmirror⟩ : ∃ mirror, acked[s]? = some mirror :=
    ⟨_, List.getElem?_eq_getElem (by have := hlaneOk.source; omega)⟩
  unfold Ring.ackLocked
  rw [Code.wp_get_bind, Int.toNat_natCast, index_ok hmirror, Code.wp_lift_ok_bind]
  by_cases hdone : sequence ≤ mirror
  · rw [if_pos hdone]
    exact h _ _ _ hmine.inv hmine.holding hacked (hmine.mirrors rfl) trivial
  rw [if_neg hdone, Code.wp_bind]
  refine received_ok hlaneOk.source (by simp) hcall hmine (fun w₁ hmine₁ hseen => ?_)
    fun cursor w₁ hmine₁ hlow => ?_
  · dsimp only
    rw [plainSub_ok (by omega), Code.wp_lift_ok_bind]
    refine wp_fetchAdd hlane hvalid hmine₁ hmirror (by omega) hseen
      (fun w₂ hinv hholding hstored hadded => ?_) fun code w₂ hadds hinv hholding hstored => ?_
    · rw [if_neg (by simp)]
      exact h _ _ _ hinv hholding (by rw [List.length_set]; exact hacked) hadded trivial
    · refine h _ _ _ hinv hholding hacked (fun hno => ?_) ?_
      · rw [hadds] at hno
        exact nomatch hno
      · exact .inr ⟨s, rfl, hlaneOk.source, rfl, .inr ⟨l, hlane, .inr ⟨⟨code, rfl⟩, hadds⟩⟩⟩
  · exact h _ _ _ hmine₁.inv hmine₁.holding hacked (hmine₁.mirrors rfl)
      (.inr ⟨s, rfl, hlaneOk.source, rfl, .inr ⟨l, hlane, .inl ⟨cursor, rfl, hlow⟩⟩⟩)

/-- Every run of `ack` keeps the discipline and returns what the law allows. -/
theorem ack_verified {origin : Int} {sequence : Nat} (hcall : call.request = .ack origin sequence)
    (hidle : Holding t [] w) :
    (Call.code ring call).wp (ringContract W faults t call)
      ((ringDiscipline W faults).Returns (mirroredMachine n ring faults) t call) w := by
  have hd := call.rank.isLt
  have hreturn : ∀ r w', Holding t [] w' → AckedOk W faults call.rank origin sequence r →
      (ringDiscipline W faults).Returns (mirroredMachine n ring faults) t call (.acked r) w' := by
    intro r w' hidle hok
    refine returns_ok hidle fun log _ _ => ?_
    rw [hcall]
    exact hok
  unfold Call.code
  rw [hcall]
  dsimp only
  rw [Program.wp_bind]
  unfold Ring.ack Ring.peer
  rw [W.ranks _ hd]
  by_cases hpeer : origin < 0 ∨ n ≤ origin.toNat
  · rw [if_pos hpeer, Code.wp_lift_error_bind]
    refine hreturn _ _ hidle (.inl ⟨rfl, ?_⟩)
    omega
  rw [if_neg hpeer, Code.wp_lift_ok_bind]
  obtain ⟨s, rfl⟩ := Int.eq_ofNat_of_zero_le (a := origin) (by omega)
  rw [Int.toNat_natCast] at hpeer ⊢
  have hs : s < n := by omega
  have hacks := W.acks call.rank hd
  cases safe with
  | false =>
    rw [if_neg (by simp)] at hacks
    rw [hacks]
    exact hreturn _ _ hidle trivial
  | true =>
    rw [if_pos rfl] at hacks
    obtain ⟨acks, hsome, -⟩ := hacks
    rw [hsome]
    dsimp only
    rw [index_ok (W.fromLanes _ hd s hs), Code.wp_lift_ok_bind]
    unfold orFail
    cases hlane : W.lane s call.rank with
    | none =>
      rw [okOr, Code.wp_lift_error_bind]
      exact hreturn _ _ hidle (.inr ⟨s, rfl, hs, rfl, .inl ⟨rfl, hlane⟩⟩)
    | some l =>
      rw [okOr, Code.wp_lift_ok_bind]
      obtain ⟨acks', hsome', -, hvalid⟩ := Wired.counter_fits hlane hd
      obtain rfl : acks = acks' := Option.some.inj (hsome.symm.trans hsome')
      unfold withAcked
      refine wp_lockAcked hidle fun acked w₁ hmine => ?_
      dsimp only
      rw [Program.wp_bind]
      refine ackLocked_ok (by rw [hcall]; simp) hlane hvalid hmine
        fun r acked' w₂ hinv hholding hlength hmirrors hok => ?_
      have hcalm : poisons r = false := by
        rcases r with (e | _) | u
        · rfl
        · exact hok.elim
        · rfl
      rw [hcalm]
      exact wp_unlockAcked hholding hlength (fun _ => hmirrors)
        fun w₃ hidle₃ => hreturn _ _ hidle₃ hok

end Calls

end MpiRma
