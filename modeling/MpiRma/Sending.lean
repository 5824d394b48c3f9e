/-
  MpiRma/Sending.lean
  ===================
  **`send` is verified.**  While it holds the mutex of its lane the sender state agrees with
  the log and the counter.  The gate lets a sequence through only when it is at most a turn
  ahead of the cached counter, so the image that lands keeps the law of puts, and the
  counter it reads is never behind the cache nor ahead of what was sent.
-/
import MpiRma.Contract

namespace MpiRma

variable [Libraries] {n : Nat} {safe : Bool} {ring : Nat → Ring} {W : Wired n safe ring}
  {faults : Faults} {t : Nat} {s d : Nat} {l : Lane} {w w' : World}

/-! ### What the ring of a sender knows -/

omit [Libraries] in
theorem Wired.isSafe (W : Wired n safe ring) {i : Nat} (hi : i < n) : (ring i).isSafe = safe :=
  (W.receives hi).isSafe

omit [Libraries] in
theorem Wired.put_fits (hlane : W.lane s d = some l) {p : Nat} (hp : p < l.depth) :
    (ring s).slots.validate (d : Int) (l.slotAt p) l.slot = .ok () := by
  have hok := W.lanes hlane
  obtain ⟨-, hranks, hlengths⟩ := W.slots s hok.source
  have hd := hok.destination
  have hfits := W.slotsFit d hd
  have hlength : (ring s).slots.lengths[((d : Nat) : Int).toNat]? = some (W.slotLength d) := by
    rw [Int.toNat_natCast]
    exact hlengths d hd
  refine Window.validate_ok (by omega) (by omega) hlength (hok.slot_le hp) ?_
  unfold usizeMax
  unfold aintMax at hfits
  omega

omit [Libraries] in
theorem Wired.counter_fits {ring : Nat → Ring} {W : Wired n true ring}
    (hlane : W.lane s d = some l) {i : Nat} (hi : i < n) :
    ∃ acks, (ring i).acks = some acks ∧ acks.rank = (i : Int) ∧
      acks.validate (s : Int) l.ack 1 = .ok () := by
  have hok := W.lanes hlane
  obtain ⟨acks, hacks, hrank, hranks, hlengths⟩ := W.acks i hi
  refine ⟨acks, hacks, hrank, ?_⟩
  have hs := hok.source
  have hack := hok.ack
  have hfits := W.acksFit rfl s hs
  refine Window.validate_ok (by omega) (by omega) ?_ hack ?_
  · rw [Int.toNat_natCast]
    exact hlengths s hs
  · unfold usizeMax
    unfold aintMax at hfits
    omega

/-! ### Holding a lane -/

/-- Thread `t` holds the mutex of a lane, and its copy of the sender state agrees. -/
structure Sending (W : Wired n safe ring) (faults : Faults) (t s d : Nat) (l : Lane)
    (outgoing : Outgoing) (w : World) : Prop where
  inv : RingInv W faults w
  holding : Holding t [.sent s d] w
  agrees : Agrees safe s d l outgoing w

theorem Sending.rely {outgoing : Outgoing} (h : Sending W faults t s d l outgoing w)
    (hlane : W.lane s d = some l) (hrely : RingRely W t w w') (hinv : RingInv W faults w') :
    Sending W faults t s d l outgoing w' := by
  obtain ⟨hsent, htop⟩ := hrely.sent s d (h.holding.held (by simp))
  exact ⟨hinv, h.holding.rely hrely, h.agrees.keep hsent htop (hrely.counters s d l hlane)⟩

/-- The cached counter is not ahead of the sequence to be sent. -/
theorem Sending.acked_le {outgoing : Outgoing} (h : Sending W faults t s d l outgoing w)
    (hlane : W.lane s d = some l) (hsafe : safe = true) : outgoing.acked ≤ outgoing.sent + 1 := by
  have h₁ := h.agrees.acked hsafe
  have h₂ := (h.inv.lane s d l hlane).counter hsafe
  have h₃ := h.inv.lawful.cursor_le_top hlane
  have h₄ := h.inv.lawful.top_sent (s := s) (d := d)
  have h₅ := h.agrees.sent
  omega

section Calls

variable {call : Call n}

theorem wp_lockSent {Q : Option Outgoing → World → Prop} (hlane : W.lane call.rank d = some l)
    (hidle : Holding t [] w)
    (h : ∀ outgoing w', Sending W faults t call.rank d l outgoing w' → Q (some outgoing) w') :
    ringContract W faults t call (.lockSent d) Q w := by
  refine ringContract_intro fun w₁ hrely hinv ending a w₂ _ hexec => ?_
  obtain ⟨hfree, rfl, rfl⟩ := lock_some hinv.clean hexec
  have hkept := hinv.take (t := t) hfree
  have hagrees := (hinv.lane call.rank d l hlane).sent hfree
  refine ⟨hkept, h _ _ ⟨hkept.inv, (hidle.rely hrely).take, hagrees.keep rfl rfl (Nat.le_refl _)⟩⟩

theorem wp_unlockSent {Q : Unit → World → Prop} {outgoing : Outgoing}
    (hlane : W.lane call.rank d = some l)
    (hsending : Sending W faults t call.rank d l outgoing w)
    (h : ∀ w', Holding t [] w' → Lawful W faults w'.log → w.log <:+ w'.log → Q () w') :
    ringContract W faults t call (.unlockSent d outgoing false) Q w := by
  refine ringContract_intro fun w₁ hrely hinv ending a w₂ _ hexec => ?_
  have hmine := hsending.rely hlane hrely hinv
  have hheld := hmine.holding.held (List.mem_singleton.mpr rfl)
  unfold World.exec at hexec
  dsimp only at hexec
  rw [if_pos hheld] at hexec
  obtain ⟨rfl, rfl⟩ := Prod.mk.inj (Option.some.inj hexec)
  refine ⟨hinv.unlockSent hlane hheld hmine.agrees, h _ ?_ hinv.lawful hrely.log⟩
  have hsame : Holding t [.sent call.rank d] (w₁.modify call.rank fun p =>
      { p with sent := Function.update p.sent d outgoing }) := hmine.holding
  exact hsame.drop (by simp) false

/-- Reading a counter of the own rank. -/
theorem wp_readCounter {σ β : Type} {v : σ} {acks : Window} {disp : Nat}
    {f : Nat → RingCode σ β} {Q : Except Fail β × σ → World → Prop}
    (hvalid : acks.validate acks.rank disp 1 = .ok ())
    (h : ∀ w₁, RingRely W t w w₁ → RingInv W faults w₁ →
      (f ((w₁.process call.rank).acks disp) v).wp (ringContract W faults t call) Q w₁) :
    ((acks.readCounter disp >>= f) v).wp (ringContract W faults t call) Q w := by
  unfold Window.readCounter
  rw [hvalid]
  refine ringContract_intro (c := .readCounter disp) fun w₁ hrely hinv ending value w₂ _ hexec => ?_
  obtain ⟨rfl, rfl⟩ := Prod.mk.inj (Option.some.inj hexec)
  exact ⟨Preserved.refl hinv, h w₁ hrely hinv⟩

/-! ### The gate -/

/-- What the gate leaves: it passes when the sequence is at most a turn ahead of the
    counter, and refuses only in a safe ring. -/
theorem gate_ok {outgoing : Outgoing} (hlane : W.lane call.rank d = some l)
    (hsending : Sending W faults t call.rank d l outgoing w)
    {Q : Except Fail Unit × Outgoing → World → Prop}
    (hpass : ∀ outgoing' w', Sending W faults t call.rank d l outgoing' w' →
      outgoing'.sent = outgoing.sent →
      (safe = true → outgoing.sent + 1 ≤ outgoing'.acked + l.depth) → Q (.ok (), outgoing') w')
    (hfull : ∀ outgoing' w', safe = true → Sending W faults t call.rank d l outgoing' w' →
      Q (.error (.error .full), outgoing') w') :
    ((ring call.rank).gate l (outgoing.sent + 1) outgoing).wp
    (ringContract W faults t call) Q w := by
  have hs := call.rank.isLt
  unfold Ring.gate
  rw [W.isSafe hs]
  cases safe with
  | false =>
    rw [if_neg (by simp), Code.wp_pure]
    exact hpass outgoing w hsending rfl nofun
  | true =>
    rw [if_pos rfl, Code.wp_get_bind, plainSub_ok (hsending.acked_le hlane rfl),
      Code.wp_lift_ok_bind]
    by_cases hahead : l.depth < outgoing.sent + 1 - outgoing.acked
    swap
    · rw [if_neg hahead, Code.wp_pure]
      exact hpass outgoing w hsending rfl fun _ => by omega
    rw [if_pos hahead]
    -- the cache is too old: read the counter
    obtain ⟨acks, hacks, hrank, hvalid⟩ := Wired.counter_fits hlane hs
    unfold Ring.acknowledged
    rw [hacks, Code.wp_bind]
    refine wp_readCounter (hrank ▸ hvalid) fun w₁ hrely hinv => ?_
    have hmine := hsending.rely hlane hrely hinv
    -- the counter is between the cache and what was sent
    have hcache := hmine.agrees.acked rfl
    have hcounter := (hinv.lane call.rank d l hlane).counter rfl
    have hcursor := hinv.lawful.cursor_le_top hlane
    have hroom := hmine.agrees.room rfl
    have hsent := hinv.lawful.top_sent (s := call.rank) (d := d)
    have hmatch := hmine.agrees.sent
    rw [if_neg (by omega), if_neg (by omega), Code.wp_pure]
    dsimp only
    rw [Code.wp_set_bind, plainSub_ok (by omega), Code.wp_lift_ok_bind]
    set acked := (w₁.process call.rank).acks l.ack with hacked
    have hfresh : Sending W faults t call.rank d l { outgoing with acked := acked } w₁ := by
      refine ⟨hinv, hmine.holding, hmatch, fun _ => Nat.le_refl _, fun _ => ?_⟩
      exact Nat.le_trans hroom (Nat.add_le_add_right hcache _)
    by_cases hstill : l.depth < outgoing.sent + 1 - acked
    · rw [if_pos hstill]
      refine ringContract_intro fun w₂ hrely₂ hinv₂ ending a w₃ _ hexec => ?_
      obtain ⟨rfl, rfl⟩ := Prod.mk.inj (Option.some.inj hexec)
      have hmine₂ := hfresh.rely hlane hrely₂ hinv₂
      have hkept : Preserved W faults t w₂ (w₂.modify call.rank fun p =>
          { p with full := (p.full + 1) % (u64Max + 1) }) :=
        hinv₂.count ⟨fun _ => rfl, fun _ => rfl, fun _ => rfl, fun _ => rfl, fun _ => rfl⟩
          (fun _ => rfl) (.inl fun _ => rfl)
      refine ⟨hkept, hfull _ _ rfl ⟨hkept.inv, hmine₂.holding, ?_⟩⟩
      refine hmine₂.agrees.keep rfl rfl (Nat.le_of_eq ?_)
      rw [World.modify_self]
    · rw [if_neg hstill, Code.wp_pure]
      exact hpass _ _ hfresh rfl fun _ => by
        show outgoing.sent + 1 ≤ acked + l.depth
        omega

/-! ### The put -/

/-- A put of an image that says the next message: it lands, or the faults allow an error
    before or after it lands. -/
theorem wp_put {outgoing : Outgoing} {data image : Bytes} {destination : Int}
    (hcall : call.request = .send destination data) (hlane : W.lane call.rank d = some l)
    (hsending : Sending W faults t call.rank d l outgoing w)
    (himage : Ring.Says l image (some ⟨outgoing.sent + 1, data⟩))
    (hdata : data.length ≤ l.capacity) (hmax : outgoing.sent + 1 ≤ u64Max)
    (hroom : safe = true → outgoing.sent + 1 ≤ outgoing.acked + l.depth)
    {f : Unit → RingCode Outgoing Nat} {Q : Except Fail Nat × Outgoing → World → Prop}
    (hok : ∀ w' disp len, .put call.rank d (outgoing.sent + 1) data true disp len ∈ w'.log →
      Sending W faults t call.rank d l { outgoing with sent := outgoing.sent + 1 } w' →
      (f () outgoing).wp (ringContract W faults t call) Q w')
    (hfault : ∀ code w', faults.puts = true → Sending W faults t call.rank d l outgoing w' →
      Q (.error (.error (.mpi code)), outgoing) w') :
    (((ring call.rank).slots.put (d : Int) (l.slotAt (l.position (outgoing.sent + 1))) image >>= f)
      outgoing).wp (ringContract W faults t call) Q w := by
  have hlaneOk := W.lanes hlane
  have hfits := Wired.put_fits hlane (hlaneOk.position_lt (outgoing.sent + 1))
  have hcount : tryFrom i32Max image.length = some image.length := by
    refine if_pos ?_
    rw [himage.length]
    exact hlaneOk.count
  unfold Window.put
  rw [himage.length, hfits, ← himage.length]
  unfold orFail
  rw [hcount]
  refine ringContract_intro (c := .put (d : Int) _ image)
    fun w₁ hrely hinv ending a w₂ _ hexec => ?_
  have hmine := hsending.rely hlane hrely hinv
  have hheld := hmine.holding.held (List.mem_singleton.mpr rfl)
  have hsent := hmine.agrees.sent
  have hput : ∀ ok, ok = true ∨ faults.puts = true →
      PutOk W faults w₁.log call.rank d (outgoing.sent + 1) data ok l := by
    intro ok hfault
    refine ⟨hlane, hdata, by omega, hmax, fun hsafe => ?_, hfault⟩
    have h₁ := hmine.agrees.acked hsafe
    have h₂ := (hinv.lane call.rank d l hlane).counter hsafe
    have h₃ := hroom hsafe
    omega
  -- where the image lands, the state left is the one of a put that did or did not succeed
  have hlands : ∀ ok, ok = true ∨ faults.puts = true →
      let w₂ := w₁.land call.rank d (l.slotAt (l.position (outgoing.sent + 1))) image data ok
      Preserved W faults t w₁ w₂ ∧
        .put call.rank d (outgoing.sent + 1) data ok
          (l.slotAt (l.position (outgoing.sent + 1))) l.slot ∈ w₂.log ∧
        Sending W faults t call.rank d l
          { outgoing with sent := if ok then outgoing.sent + 1 else outgoing.sent } w₂ := by
    intro ok hfault
    have hkept := hinv.land (hput ok hfault) hheld himage
    have hlog := World.land_log w₁ call.rank d (l.slotAt (l.position (outgoing.sent + 1))) himage ok
    dsimp only
    refine ⟨hkept, hlog ▸ List.mem_cons_self .., hkept.inv, hmine.holding, ?_, fun hsafe => ?_,
      fun hsafe => ?_⟩
    · rw [hlog]
      cases ok with
      | true => simp [sentOf]
      | false => simp [sentOf, hsent]
    · rw [World.land_acks]
      exact hmine.agrees.acked hsafe
    · rw [hlog]
      have htop : topOf call.rank d (.put call.rank d (outgoing.sent + 1) data ok
          (l.slotAt (l.position (outgoing.sent + 1))) l.slot :: w₁.log) = outgoing.sent + 1 :=
        if_pos ⟨rfl, rfl⟩
      rw [htop]
      exact hroom hsafe
  unfold World.exec at hexec
  rw [hcall] at hexec
  cases ending with
  | ok =>
    obtain ⟨rfl, rfl⟩ := Prod.mk.inj (Option.some.inj hexec)
    obtain ⟨hkept, hmem, hdone⟩ := hlands true (.inl rfl)
    exact ⟨hkept, hok _ _ _ hmem hdone⟩
  | before code =>
    dsimp only at hexec
    split at hexec
    · rename_i hputs
      obtain ⟨rfl, rfl⟩ := Prod.mk.inj (Option.some.inj hexec)
      exact ⟨Preserved.refl hinv, hfault code _ hputs hmine⟩
    · contradiction
  | after code =>
    dsimp only at hexec
    split at hexec
    · rename_i hputs
      obtain ⟨rfl, rfl⟩ := Prod.mk.inj (Option.some.inj hexec)
      obtain ⟨hkept, -, hdone⟩ := hlands false (.inr hputs)
      exact ⟨hkept, hfault code _ hputs hdone⟩
    · contradiction

/-! ### The whole send -/

theorem sendLocked_ok {outgoing : Outgoing} {data : Bytes}
    (hcall : call.request = .send (d : Int) data) (hlane : W.lane call.rank d = some l)
    (hdata : data.length ≤ l.capacity) (hsending : Sending W faults t call.rank d l outgoing w)
    {Q : Except Fail Nat × Outgoing → World → Prop}
    (h : ∀ r outgoing' w', Sending W faults t call.rank d l outgoing' w' →
      SentOk W faults w'.log call.rank (d : Int) data r → Q (r, outgoing') w') :
    ((ring call.rank).sendLocked (d : Int) l data outgoing).wp
    (ringContract W faults t call) Q w := by
  have hlaneOk := W.lanes hlane
  have hfits := W.slotsFit d hlaneOk.destination
  have herror : ∀ e outgoing' w', Sending W faults t call.rank d l outgoing' w' →
      ((e = .full ∧ safe = true) ∨
        (e = .ring "sequence number exhausted" ∧ u64Max ≤ sentOf call.rank d w'.log) ∨
        ((∃ code, e = .mpi code) ∧ faults.puts = true)) → Q (.error (.error e), outgoing') w' := by
    intro e outgoing' w' hmine he
    refine h _ _ _ hmine (.inr ⟨d, rfl, hlaneOk.destination, .inr ⟨l, hlane, .inr he⟩⟩)
  unfold Ring.sendLocked
  rw [Code.wp_get_bind]
  unfold orFail
  by_cases hmax : outgoing.sent + 1 ≤ u64Max
  swap
  · have hnone : checkedAdd u64Max outgoing.sent 1 = none := if_neg hmax
    rw [hnone, okOr, Code.wp_lift_error_bind]
    refine herror _ _ _ hsending (.inr (.inl ⟨rfl, ?_⟩))
    have := hsending.agrees.sent
    omega
  have hsome : checkedAdd u64Max outgoing.sent 1 = some (outgoing.sent + 1) := if_pos hmax
  rw [hsome, okOr, Code.wp_lift_ok_bind, Code.wp_bind]
  refine gate_ok hlane hsending (fun outgoing' w₁ hmine hsent hroom => ?_)
    fun outgoing' w₁ hsafe hmine => herror _ _ _ hmine (.inl ⟨rfl, hsafe⟩)
  dsimp only
  rw [Code.wp_get_bind]
  obtain ⟨image, himage, hsays⟩ := Ring.buildImage_says hlaneOk outgoing'.image
    (Nat.succ_pos outgoing.sent) hmax hdata
  rw [himage, Code.wp_lift_ok_bind, Code.wp_set_bind, slotPosition_ok hlaneOk.depth,
    Code.wp_lift_ok_bind, (hlaneOk.slotIn (hlaneOk.position_lt _)).offset hfits,
      Code.wp_lift_ok_bind]
  have hstored : Sending W faults t call.rank d l { outgoing' with image := image } w₁ :=
    ⟨hmine.inv, hmine.holding, hmine.agrees.sent, hmine.agrees.acked, hmine.agrees.room⟩
  rw [← hsent] at hsays hmax hroom ⊢
  refine wp_put hcall hlane hstored hsays hdata hmax hroom (fun w₂ disp len hput hdone => ?_)
    fun code w₂ hputs hdone => ?_
  · rw [Code.wp_set_bind, Code.wp_pure]
    exact h _ _ _ hdone ⟨d, disp, len, rfl, hput⟩
  · exact herror _ _ _ hdone (.inr (.inr ⟨⟨code, rfl⟩, hputs⟩))

/-- Every run of `send` keeps the discipline and returns what the law allows. -/
theorem send_verified {destination : Int} {data : Bytes}
    (hcall : call.request = .send destination data) (hidle : Holding t [] w) :
    (Call.code ring call).wp (ringContract W faults t call)
      ((ringDiscipline W faults).Returns (mirroredMachine n ring faults) t call) w := by
  have hs := call.rank.isLt
  have hreturn : ∀ r w', Holding t [] w' → SentOk W faults w'.log call.rank destination data r →
      (ringDiscipline W faults).Returns (mirroredMachine n ring faults) t call (.sent r) w' := by
    intro r w' hidle hok
    refine returns_ok hidle fun log hlaw hlog => ?_
    rw [hcall]
    exact hok.mono hlaw hlog
  unfold Call.code
  rw [hcall]
  dsimp only
  rw [Program.wp_bind]
  unfold Ring.send Ring.peer
  rw [W.ranks _ hs]
  by_cases hpeer : destination < 0 ∨ n ≤ destination.toNat
  · rw [if_pos hpeer, Code.wp_lift_error_bind]
    refine hreturn _ _ hidle (.inl ⟨rfl, ?_⟩)
    omega
  rw [if_neg hpeer, Code.wp_lift_ok_bind]
  obtain ⟨d, rfl⟩ := Int.eq_ofNat_of_zero_le (a := destination) (by omega)
  rw [Int.toNat_natCast] at hpeer ⊢
  have hd : d < n := by omega
  rw [index_ok (W.toLanes _ hs d hd), Code.wp_lift_ok_bind]
  unfold orFail
  cases hlane : W.lane call.rank d with
  | none =>
    rw [okOr, Code.wp_lift_error_bind]
    exact hreturn _ _ hidle (.inr ⟨d, rfl, hd, .inl ⟨rfl, hlane⟩⟩)
  | some l =>
    rw [okOr, Code.wp_lift_ok_bind]
    by_cases hdata : l.capacity < data.length
    · rw [if_pos hdata]
      exact hreturn _ _ hidle (.inr ⟨d, rfl, hd, .inr ⟨l, hlane, .inl ⟨rfl, hdata⟩⟩⟩)
    rw [if_neg hdata]
    unfold Ring.perRank
    rw [W.ranks _ hs, if_pos hd, Code.wp_lift_ok_bind]
    unfold withSent
    refine wp_lockSent hlane hidle fun outgoing w₁ hsending => ?_
    dsimp only
    rw [Program.wp_bind]
    refine sendLocked_ok hcall hlane (by omega) hsending fun r outgoing' w₂ hmine hok => ?_
    have hcalm : poisons r = false := by
      rcases r with (e | _) | sequence
      · rfl
      · exact hok.elim
      · rfl
    rw [hcalm]
    exact wp_unlockSent hlane hmine fun w₃ hidle₃ hlaw hlog =>
      hreturn _ _ hidle₃ (hok.mono hlaw hlog)

end Calls

end MpiRma
