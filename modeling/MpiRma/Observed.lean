/-
  MpiRma/Observed.lean
  ====================
  **Every poll runs as `Receive.lean` says.**  `Observes` lets a poll meet anything: every
  read answers arbitrary bytes of the right length, and other threads act between any two
  of its steps.  Under it the programs of `ring.rs` that receive are verified once, from
  the probe of a slot up to the loop over the lanes (`pollLanes_runs`).
-/
import MpiRma.Decoding

namespace MpiRma

/-! ### A poll against reads of anything -/

structure Apart (d : Nat) (w w' : World) : Prop where
  log : Extends d w.log w'.log
  lost : (w'.process d).lost = (w.process d).lost
  maxLag : (w'.process d).maxLag = (w.process d).maxLag

/-- The commands of a poll at rank `d`: others act first, reads answer any bytes of the
    right length, and the statistics are counted.  Nothing is said of other commands. -/
def Observes (d : Nat) : (c : RingCall) → World → c.Answer → World → Prop
  | .readLocal disp len, w, bytes, w' =>
    ∃ w₁, Apart d w w₁ ∧ bytes.length = len ∧ w' = w₁.record (.read d disp bytes)
  | .readLocalVolatile disp len, w, bytes, w' =>
    ∃ w₁, Apart d w w₁ ∧ bytes.length = len ∧ w' = w₁.record (.read d disp bytes)
  | .addLost count, w, _, w' =>
    ∃ w₁, Apart d w w₁ ∧ w' = (w₁.modify d fun p =>
      { p with lost := (p.lost + count) % (u64Max + 1) }).record (.lost d count)
  | .addCorrupt, w, _, w' =>
    ∃ w₁, Apart d w w₁ ∧ w' = w₁.modify d fun p =>
      { p with corrupt := (p.corrupt + 1) % (u64Max + 1) }
  | .maxLag lag, w, _, w' =>
    ∃ w₁, Apart d w w₁ ∧ w' = w₁.modify d fun p => { p with maxLag := max p.maxLag lag }
  | .lockSent _, _, _, _ => True
  | .unlockSent _ _ _, _, _, _ => True
  | .lockSeen, _, _, _ => True
  | .unlockSeen _ _ _, _, _, _ => True
  | .lockAcked, _, _, _ => True
  | .unlockAcked _ _, _, _, _ => True
  | .readCounter _, _, _, _ => True
  | .put _ _ _, _, _, _ => True
  | .fetchAdd _ _ _, _, _, _ => True
  | .addFull, _, _, _ => True

def Counted (d : Nat) (w w' : World) : Prop :=
  (w'.process d).lost + lostSum d w.log ≡ (w.process d).lost + lostSum d w'.log [MOD u64Max + 1]

theorem Counted.trans {d : Nat} {a b c : World} (h : Counted d a b) (h' : Counted d b c) :
    Counted d a c := by
  have := Nat.ModEq.add h h'
  have hsum : (c.process d).lost + lostSum d a.log + ((b.process d).lost + lostSum d b.log) ≡
      (a.process d).lost + lostSum d c.log + ((b.process d).lost + lostSum d b.log)
      [MOD u64Max + 1] := by
    convert this using 1 <;> ring
  exact Nat.ModEq.add_right_cancel' _ hsum

structure Kept (d : Nat) (w w' : World) : Prop where
  counted : Counted d w w'
  maxLag : (w'.process d).maxLag = (w.process d).maxLag

theorem Kept.refl (d : Nat) (w : World) : Kept d w w := ⟨Nat.ModEq.refl _, rfl⟩

theorem Kept.trans {d : Nat} {a b c : World} (h : Kept d a b) (h' : Kept d b c) : Kept d a c :=
  ⟨h.counted.trans h'.counted, h'.maxLag.trans h.maxLag⟩

theorem Apart.kept {d : Nat} {w w' : World} (h : Apart d w w') : Kept d w w' := by
  refine ⟨?_, h.maxLag⟩
  unfold Counted
  rw [h.lost, h.log.lostSum]

theorem Kept.read {d : Nat} {w : World} {disp : Nat} {bytes : Bytes} :
    Kept d w (w.record (.read d disp bytes)) := ⟨Nat.ModEq.refl _, rfl⟩

/-! ### Every poll runs so -/

abbrev observed (d : Nat) : Program.Contract RingCall RingCall.Answer World :=
  Program.Contract.ofSem (Observes d)

section Rules

variable {R : Ring} {safe : Bool} {d length : Nat} {σ β : Type} {v : σ} {w : World}
  {Q : Except Fail β × σ → World → Prop}

/-- Answering, with a corrupt read counted or not. -/
theorem wp_counted {corrupt : Prop} [Decidable corrupt] {r : β} (hsame : Q (.ok r, v) w)
    (h : ∀ w', Extends d w.log w'.log → Kept d w w' → Q (.ok r, v) w') :
    (counted corrupt r v).wp (observed d) Q w := by
  unfold counted
  split
  · rintro ⟨⟩ w' ⟨w₁, hapart, rfl⟩
    refine h _ hapart.log (hapart.kept.trans ⟨?_, ?_⟩)
    · simp [Counted, World.modify, Nat.ModEq.refl]
    · simp [World.modify]
  · exact hsame

theorem wp_addLost {count : Nat} {f : Unit → RingCode σ β}
    (h : ∀ w', Settles d count w.log w'.log → Kept d w w' → (f () v).wp (observed d) Q w') :
    ((addLost count >>= f) v).wp (observed d) Q w := by
  rintro ⟨⟩ w' ⟨w₁, hapart, rfl⟩
  refine h _ ?_ (hapart.kept.trans ⟨?_, ?_⟩)
  · have := (Settles.of_extends hapart.log).trans (Settles.lost d count w₁.log)
    rwa [Nat.zero_add] at this
  · have hsum : lostSum d (.lost d count :: w₁.log) = count + lostSum d w₁.log := by
      simp [lostSum]
    simp only [Counted, World.record, World.modify, Function.update_self, hsum]
    have := Nat.ModEq.add_right (lostSum d w₁.log)
      (Nat.mod_modEq ((w₁.process d).lost + count) (u64Max + 1))
    rwa [Nat.add_assoc] at this
  · simp [World.record, World.modify]

theorem wp_maxLag {lag : Nat} {f : Unit → RingCode σ β}
    (h : ∀ w₁, Apart d w w₁ → (f () v).wp (observed d) Q
      (w₁.modify d fun p => { p with maxLag := max p.maxLag lag })) :
    ((maxLag lag >>= f) v).wp (observed d) Q w := by
  rintro ⟨⟩ w' ⟨w₁, hapart, rfl⟩
  exact h w₁ hapart

end Rules

section Poll

variable [Libraries] {R : Ring} {safe : Bool} {n s d : Nat} {slotLength ackLength : Nat → Nat}
  {lane : Lane} (hR : Receives R safe (slotLength d))
  (hlane : LaneOk n slotLength ackLength s d lane) {σ : Type} {v : σ} {w : World}
include hR hlane

omit [Libraries] in
theorem probe_runs {p : Nat} (hp : p < lane.depth)
    {Q : Except Fail (Option Nat) × σ → World → Prop}
    (h : ∀ probed w', Probed d lane p w.log probed w'.log → Kept d w w' → Q (.ok probed, v) w') :
    (R.probe lane p v).wp (observed d) Q w := by
  rw [probe_eq hR (hlane.slotIn hp)]
  rintro (head : Bytes) w₁' ⟨w₁, h₁, hhead, rfl⟩ (tail : Bytes) w₂' ⟨w₂, h₂, htail, rfl⟩
  have hkept : Kept d w (w₂.record (.read d (lane.guardAt p) tail)) :=
    h₁.kept.trans (Kept.read.trans (h₂.kept.trans Kept.read))
  show (probed head tail v).wp (observed d) Q _
  rw [probed_eq hhead htail]
  apply wp_counted
  · exact h _ _ (.mk h₁.log hhead h₂.log htail (Extends.refl _ _)) hkept
  · intro w₃ h₃ hkept₃
    exact h _ _ (.mk h₁.log hhead h₂.log htail h₃) (hkept.trans hkept₃)

theorem frame_runs {p : Nat} (hp : p < lane.depth)
    {Q : Except Fail (Option Frame) × σ → World → Prop}
    (h : ∀ image w', Copied d lane p w.log image w'.log → Kept d w w' →
      Q (.ok (Ring.frameOf lane image), v) w') :
    (R.frame lane p v).wp (observed d) Q w := by
  have hslot := hlane.slotIn hp
  rw [frame_eq hR hslot]
  rintro (image : Bytes) w₁' ⟨w₁, h₁, himage, rfl⟩
  have hkept : Kept d w (w₁.record (.read d (lane.slotAt p) image)) := h₁.kept.trans Kept.read
  show (framed lane image v).wp (observed d) Q _
  rw [framed_eq hslot hR.fits himage]
  apply wp_counted
  · exact h _ _ (.mk h₁.log himage (Extends.refl _ _)) hkept
  · intro w₂ h₂ hkept₂
    exact h _ _ (.mk h₁.log himage h₂) (hkept.trans hkept₂)

theorem scan_runs {seen : Nat} {positions : List Nat} (hpos : ∀ p ∈ positions, p < lane.depth)
    {acc : List Frame} {Q : Except Fail (List Frame) × σ → World → Prop}
    (h : ∀ frames w', Scanned d lane seen positions w.log frames w'.log → Kept d w w' →
      Q (.ok (acc ++ frames), v) w') :
    (R.scan lane seen positions acc v).wp (observed d) Q w := by
  induction positions generalizing acc w with
  | nil => exact (List.append_nil acc ▸ h [] w .nil (Kept.refl d w) :)
  | cons p rest ih =>
    have hrest : ∀ q ∈ rest, q < lane.depth := fun q hq => hpos q (by simp [hq])
    unfold Ring.scan
    rw [Code.wp_bind]
    refine probe_runs hR hlane (hpos p (by simp)) fun probed w₁ hprobed hkept₁ => ?_
    dsimp only
    by_cases hany : probed.any (fun sequence => seen < sequence) = true
    · rw [if_pos hany]
      obtain ⟨found, rfl, hfound⟩ : ∃ found, probed = some found ∧ seen < found := by
        cases probed with
        | none => exact nomatch hany
        | some found => exact ⟨found, rfl, by simpa using hany⟩
      rw [Code.wp_bind]
      refine frame_runs hR hlane (hpos p (by simp)) fun image w₂ hcopied hkept₂ => ?_
      dsimp only
      cases hframe : Ring.frameOf lane image with
      | none =>
        refine ih hrest fun frames w' hscan hkept => ?_
        refine h frames w' (.pass hprobed hfound hcopied ?_ hscan)
          (hkept₁.trans (hkept₂.trans hkept))
        intro frame hsome
        rw [hframe] at hsome
        exact nomatch hsome
      | some frame =>
        dsimp only
        by_cases hseen : seen < frame.sequence
        · rw [if_pos hseen]
          refine ih hrest fun frames w' hscan hkept => ?_
          have := h (frame :: frames) w' (.take hprobed hfound hcopied hframe hseen hscan)
            (hkept₁.trans (hkept₂.trans hkept))
          rwa [List.append_assoc]
        · rw [if_neg hseen]
          refine ih hrest fun frames w' hscan hkept => ?_
          refine h frames w' (.pass hprobed hfound hcopied ?_ hscan)
            (hkept₁.trans (hkept₂.trans hkept))
          intro frame' hsome
          obtain rfl : frame = frame' := by
            rw [hframe] at hsome
            exact Option.some.inj hsome
          omega
    · rw [if_neg hany]
      refine ih hrest fun frames w' hscan hkept => ?_
      refine h frames w' (.skip hprobed ?_ hscan) (hkept₁.trans hkept)
      rintro found rfl
      simpa using hany

end Poll

/-! ### The loops of a poll -/

/-- The loop over recovered frames delivers all of them and counts the gaps. -/
theorem deliver_runs {d o : Nat} {frames : List Frame} {seen : List Nat} {cursor next : Nat}
    {messages : List Message} {w : World} {Q : Except Fail (List Message) × List Nat → World → Prop}
    (hcursor : seen[o]? = some cursor) (hnext : next = min (cursor + 1) u64Max)
    (hascending : frames.Pairwise fun a b => a.sequence < b.sequence)
    (hbounds : ∀ f ∈ frames, cursor < f.sequence ∧ f.sequence ≤ u64Max)
    (h : ∀ lost w', cursorAfter cursor frames = cursor + frames.length + lost →
      Settles d lost w.log w'.log → Kept d w w' →
      Q (.ok (messages ++ frames.map (Frame.message o)), seen.set o (cursorAfter cursor frames))
        w') :
    (Ring.deliver (o : Int) frames next messages seen).wp (observed d) Q w := by
  induction frames generalizing seen cursor next messages w with
  | nil =>
    have hsame : seen.set o cursor = seen := by
      obtain ⟨ho, rfl⟩ := List.getElem?_eq_some_iff.mp hcursor
      exact List.set_getElem_self ho
    have := h 0 w rfl (Settles.of_extends (Extends.refl _ _)) (Kept.refl d w)
    simp only [cursorAfter, List.getLast?_nil, Option.map_none, Option.getD_none, hsame,
      List.map_nil, List.append_nil] at this
    exact this
  | cons f rest ih =>
    obtain ⟨hfirst, hrest⟩ := List.pairwise_cons.mp hascending
    obtain ⟨hlow, hhigh⟩ := hbounds f (by simp)
    have hle : next ≤ f.sequence := by omega
    unfold Ring.deliver
    rw [if_neg (by omega), plainSub_ok hle, Code.wp_lift_ok_bind]
    refine wp_addLost fun w₁ hsettle₁ hkept₁ => ?_
    rw [Code.wp_get_bind, Code.wp_set_bind, Int.toNat_natCast]
    have hset : (seen.set o f.sequence)[o]? = some f.sequence := by
      obtain ⟨ho, -⟩ := List.getElem?_eq_some_iff.mp hcursor
      simp [ho]
    refine ih hset rfl hrest (fun g hg => ⟨hfirst g hg, (hbounds g (by simp [hg])).2⟩)
      fun lost w' hlost hsettle hkept => ?_
    have hcount : cursorAfter cursor (f :: rest) =
        cursor + (f :: rest).length + ((f.sequence - next) + lost) := by
      rw [cursorAfter_cons, hlost, List.length_cons]
      omega
    have := h _ w' hcount (hsettle₁.trans hsettle) (hkept₁.trans hkept)
    rw [cursorAfter_cons] at this
    simpa [Frame.message, List.set_set] using this

section Loops

variable [Libraries] {R : Ring} {safe : Bool} {n s d : Nat} {slotLength ackLength : Nat → Nat}
  {lane : Lane}

omit [Libraries] in
theorem slotPosition_ok (hdepth : 0 < lane.depth) (cursor : Nat) :
    Ring.slotPosition lane (cursor + 1) = .ok (lane.position (cursor + 1)) := by
  unfold Ring.slotPosition
  rw [plainSub_ok (by omega)]
  exact plainRem_ok hdepth

def drained (o : Nat) (messages : List Message) (frames : List Frame) (cursor : Nat)
    (seen : List Nat) : Option Nat → Except Fail (List Message) × List Nat
  | none => (.ok (messages ++ frames.map (Frame.message o)), seen.set o cursor)
  | some found => (.error (.error (.lapped (o : Int) (cursor + 1) found)), seen.set o cursor)

theorem drain_runs (hR : Receives R safe (slotLength d))
    (hlane : LaneOk n slotLength ackLength s d lane) {o fuel cursor : Nat} {seen : List Nat}
    {messages : List Message} {w : World}
    {Q : Except Fail (List Message) × List Nat → World → Prop}
    (hcursor : seen[o]? = some cursor)
    (h : ∀ frames cursor' stop w', Drain d lane safe fuel cursor w.log frames cursor' w'.log stop →
      Kept d w w' → Q (drained o messages frames cursor' seen stop) w') :
    (R.drain (o : Int) lane fuel messages seen).wp (observed d) Q w := by
  have hsame : seen.set o cursor = seen := by
    obtain ⟨ho, rfl⟩ := List.getElem?_eq_some_iff.mp hcursor
    exact List.set_getElem_self ho
  induction fuel generalizing seen cursor messages w with
  | zero =>
    have := h [] cursor none w .full (Kept.refl d w)
    simp only [drained, hsame, List.map_nil, List.append_nil] at this
    exact this
  | succ fuel ih =>
    have hstop : ∀ w', Drain d lane safe (fuel + 1) cursor w.log [] cursor w'.log none →
        Kept d w w' → Q (.ok messages, seen) w' := by
      intro w' hdrain hkept
      have := h [] cursor none w' hdrain hkept
      simpa [drained, hsame] using this
    unfold Ring.drain
    rw [Code.wp_get_bind, Int.toNat_natCast, index_ok hcursor, Code.wp_lift_ok_bind]
    by_cases hmax : cursor + 1 ≤ u64Max
    swap
    · have hnone : checkedAdd u64Max cursor 1 = none := if_neg hmax
      rw [hnone]
      exact hstop w (.exhausted (by omega)) (Kept.refl d w)
    have hsome : checkedAdd u64Max cursor 1 = some (cursor + 1) := if_pos hmax
    rw [hsome]
    dsimp only
    rw [slotPosition_ok hlane.depth, Code.wp_lift_ok_bind, Code.wp_bind]
    refine probe_runs hR hlane (hlane.position_lt _) fun probed w₁ hprobed hkept₁ => ?_
    dsimp only
    cases probed with
    | none => exact hstop w₁ (.waits hprobed nofun) hkept₁
    | some found =>
      dsimp only
      by_cases hlow : found < cursor + 1
      · rw [if_pos hlow]
        refine hstop w₁ (.waits hprobed ?_) hkept₁
        intro found' hfound'
        obtain rfl := Option.some.inj hfound'
        omega
      rw [if_neg hlow]
      by_cases hlap : cursor + 1 < found
      · rw [if_pos hlap, hR.isSafe]
        cases safe with
        | true =>
          have := h [] cursor (some found) w₁ (.lapped rfl hprobed hlap) hkept₁
          simpa [drained, hsame, fail] using this
        | false =>
          rw [if_neg (by simp), Code.wp_bind]
          unfold Ring.recover
          rw [Code.wp_bind]
          refine scan_runs hR hlane (fun p hp => List.mem_range.mp hp)
            fun frames w₂ hscan hkept₂ => ?_
          dsimp only
          obtain ⟨hascending, hmem, -⟩ := survivors_ok frames
          refine deliver_runs hcursor (by omega) hascending
            (fun f hf => hscan.bounds f (hmem f hf)) fun lost w₃ hlost hsettle hkept₃ => ?_
          exact h (survivors frames) _ none w₃
            (.scanned rfl hprobed hlap hscan hlost hsettle) (hkept₁.trans (hkept₂.trans hkept₃))
      · rw [if_neg hlap]
        obtain rfl : found = cursor + 1 := by omega
        rw [Code.wp_bind]
        refine frame_runs hR hlane (hlane.position_lt _) fun image w₂ hcopied hkept₂ => ?_
        dsimp only
        cases hframe : Ring.frameOf lane image with
        | none =>
          refine hstop w₂ (.unread hprobed hcopied ?_) (hkept₁.trans hkept₂)
          intro frame hsome
          rw [hframe] at hsome
          exact nomatch hsome
        | some frame =>
          dsimp only
          by_cases hother : frame.sequence ≠ cursor + 1
          · rw [if_pos hother]
            refine hstop w₂ (.unread hprobed hcopied ?_) (hkept₁.trans hkept₂)
            intro frame' hsome
            obtain rfl : frame = frame' := by
              rw [hframe] at hsome
              exact Option.some.inj hsome
            exact hother
          · rw [if_neg hother, Code.wp_set_bind]
            have hequal : frame.sequence = cursor + 1 := by simpa using hother
            have hset : (seen.set o (cursor + 1))[o]? = some (cursor + 1) := by
              obtain ⟨ho, -⟩ := List.getElem?_eq_some_iff.mp hcursor
              simp [ho]
            refine ih hset (fun frames cursor' stop w' hdrain hkept => ?_) (by simp)
            have := h (frame :: frames) cursor' stop w'
              (.next hprobed hcopied hframe hequal hdrain) (hkept₁.trans (hkept₂.trans hkept))
            cases stop with
            | none => simpa [drained, Frame.message, hequal, List.set_set] using this
            | some found => simpa [drained, List.set_set] using this

def polledLanes (messages : List Message) (seen : List Nat) :
    Option (Nat × Nat × Nat) → Except Fail (List Message) × List Nat
  | none => (.ok messages, seen)
  | some (o, expected, found) => (.error (.error (.lapped (o : Int) expected found)), seen)

structure Incoming (R : Ring) (n d : Nat) (slotLength ackLength : Nat → Nat)
    (lanes : List (Nat × Lane)) : Prop where
  kept : ∀ o l, (o, l) ∈ lanes → R.fromLanes[o]? = some (some l)
  ok : ∀ o l, (o, l) ∈ lanes → LaneOk n slotLength ackLength o d l

theorem pollLanes_runs (hR : Receives R safe (slotLength d)) {lanes : List (Nat × Lane)}
    (hlanes : Incoming R n d slotLength ackLength lanes) {seen : List Nat} (hseen : seen.length = n)
    {messages : List Message} {w : World}
    {Q : Except Fail (List Message) × List Nat → World → Prop}
    (h : ∀ polled seen' lags stop w', PollRun d safe lanes seen w.log polled seen'
      w'.log lags stop →
      Counted d w w' → (w'.process d).maxLag = lags.foldl max (w.process d).maxLag →
      Q (polledLanes (messages ++ polled) seen' stop) w') :
    (R.pollLanes (lanes.map fun p => (p.1 : Int)) messages seen).wp (observed d) Q w := by
  induction lanes generalizing seen messages w with
  | nil =>
    have := h [] seen [] none w .done (Kept.refl d w).counted rfl
    rwa [List.append_nil] at this
  | cons entry rest ih =>
    obtain ⟨o, l⟩ := entry
    have hlane := hlanes.ok o l (by simp)
    obtain ⟨cursor, hcursor⟩ : ∃ cursor, seen[o]? = some cursor :=
      ⟨_, List.getElem?_eq_getElem (by have := hlane.source; omega)⟩
    have hrest : Incoming R n d slotLength ackLength rest :=
      ⟨fun o l hmem => hlanes.kept o l (by simp [hmem]), fun o l hmem =>
        hlanes.ok o l (by simp [hmem])⟩
    rw [List.map_cons]
    unfold Ring.pollLanes
    rw [Int.toNat_natCast, index_ok (hlanes.kept o l (by simp)), Code.wp_lift_ok_bind]
    unfold orFail
    rw [okOr, Code.wp_lift_ok_bind, Code.wp_get_bind, index_ok hcursor, Code.wp_lift_ok_bind,
      Code.wp_bind]
    refine drain_runs hR hlane hcursor fun frames cursor' stop w₁ hdrain hkept => ?_
    cases stop with
    | some found =>
      have := h [] _ [] (some (o, cursor' + 1, found)) w₁ (.lapped hcursor hdrain) hkept.counted
        hkept.maxLag
      exact this
    | none =>
      have ho : o < seen.length := by
        have := hlane.source
        omega
      have hset : (seen.set o cursor')[o]? = some cursor' := by simp [ho]
      dsimp only [drained]
      rw [Code.wp_get_bind, index_ok hset, Code.wp_lift_ok_bind, plainSub_ok hdrain.climb.le,
        Code.wp_lift_ok_bind]
      refine wp_maxLag fun w₂ hapart => ?_
      refine ih hrest (by rw [List.length_set, hseen])
        fun polled seen' lags stop w' hrun hlost hlag => ?_
      have hkept₂ := hkept.trans hapart.kept
      have hmax : (w₂.process d).maxLag = (w.process d).maxLag := hkept₂.maxLag
      have := h (frames.map (Frame.message o) ++ polled) seen' ((cursor' - cursor) :: lags) stop w'
        (.lane hcursor hdrain hapart.log hrun) ?_ ?_
      · rwa [← List.append_assoc] at this
      · refine hkept₂.counted.trans (Counted.trans ?_ hlost)
        simp [Counted, World.modify, Nat.ModEq.refl]
      · rw [hlag, List.foldl_cons]
        simp [World.modify, hmax]

end Loops

end MpiRma
