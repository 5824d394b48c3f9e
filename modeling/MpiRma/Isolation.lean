/-
  MpiRma/Isolation.lean
  =====================
  **Lanes do not interfere.**  Erasing everything of the other lanes from a run of a ring
  leaves a run of a ring configured with one lane alone, and at every moment the two show the
  same `laneView`.
-/
import MpiRma.Constructible
import MpiRma.Solo
import MpiRma.Verified

namespace MpiRma

/-! ### The commands of a call -/

def RingCall.sendsTo (d : Nat) : RingCall → Prop
  | .lockSent i => i = d
  | .unlockSent i _ _ => i = d
  | .readCounter _ => True
  | .put dest _ _ => dest = (d : Int)
  | .addFull => True
  | _ => False

def RingCall.polls : RingCall → Prop
  | .lockSeen => True
  | .unlockSeen _ _ _ => True
  | c => c.receiving

theorem RingCall.receiving.polls {c : RingCall} (h : c.receiving) : c.polls := by
  cases c with
  | lockSeen | unlockSeen => exact h.elim
  | _ => exact h

section Commands

variable [Libraries] {s d : Nat} {l : Lane}

omit [Libraries] in
theorem leaving_sendsTo (result : Except Fail Nat) (outgoing : Outgoing) :
    (Send.leaving d result outgoing).Only (RingCall.sendsTo d) := ⟨rfl, fun _ => trivial⟩

theorem putting_sendsTo (data : Bytes) (outgoing : Outgoing) :
    (Send.putting l d data outgoing).Only (RingCall.sendsTo d) := by
  unfold Send.putting
  split
  · exact leaving_sendsTo _ _
  · refine ⟨rfl, ?_⟩
    rintro (code | u)
    · exact leaving_sendsTo _ _
    · exact leaving_sendsTo _ _

theorem starting_sendsTo (safe : Bool) (data : Bytes) :
    (Send.starting safe l d data).Only (RingCall.sendsTo d) := by
  refine ⟨rfl, ?_⟩
  rintro (_ | outgoing)
  · trivial
  show (Send.holding _ _ _ _ outgoing).Only _
  unfold Send.holding Send.gated
  split
  · exact leaving_sendsTo _ _
  split
  · exact putting_sendsTo _ _
  split
  · exact leaving_sendsTo _ _
  split
  swap
  · exact putting_sendsTo _ _
  refine ⟨trivial, fun (value : Nat) => ?_⟩
  show (Send.refreshed _ _ _ _ value).Only _
  unfold Send.refreshed
  split
  · exact leaving_sendsTo _ _
  split
  · exact leaving_sendsTo _ _
  split
  · exact ⟨trivial, fun _ => leaving_sendsTo _ _⟩
  · exact putting_sendsTo _ _

theorem poll_polls (R : Ring) : ((R.poll ()).bind fun r => .ret (Outcome.polled r.1)).Only
    RingCall.polls := by
  refine Program.only_bind ?_ fun _ => trivial
  refine ⟨trivial, ?_⟩
  rintro (_ | seen)
  · trivial
  refine Program.only_bind ((R.only_pollLanes _ _ seen).mono fun c hc => hc.polls) fun r => ?_
  exact ⟨trivial, fun _ => trivial⟩

end Commands

/-! ### The calls on the lane, and the others -/

def RingCall.side (s d : Nat) : RingCall → Nat
  | .lockSent _ => s
  | .unlockSent _ _ _ => s
  | .readCounter _ => s
  | .put _ _ _ => s
  | .addFull => s
  | _ => d

def RingCall.offLane (safe : Bool) (s d : Nat) (l : Lane) (rank : Nat) : RingCall → Prop
  | .unlockSent i _ _ => ¬ (rank = s ∧ i = d)
  | .unlockSeen _ _ polled => rank = d → polled = none
  | .unlockAcked _ _ => safe = true
  | .put dest _ _ => ¬ (rank = s ∧ dest.toNat = d)
  | .fetchAdd dest disp _ => ¬ (dest.toNat = s ∧ disp = l.ack)
  | _ => True

section Calls

variable [Libraries] {n : Nat} {safe : Bool} {ring ring' : Nat → Ring} {s d offset ack : Nat}
  {l : Lane} {call : Call n}

def callMatching (s d : Nat) (l l' : Lane) (call : Call n) :
    Matching RingCall RingCall.Answer RingCall RingCall.Answer :=
  (laneMatching s d l l').restrict fun c => c.side s d = call.rank

omit [Libraries] in
theorem onLane_send {destination : Int} {data : Bytes} (h : call.request = .send destination data) :
    call.onLane s d = true ↔ call.rank.val = s ∧ destination = (d : Int) := by
  simp [Call.onLane, Request.onLane, h]

omit [Libraries] in
theorem onLane_poll (h : call.request = .poll) : call.onLane s d = true ↔ call.rank.val = d := by
  simp [Call.onLane, Request.onLane, h]

omit [Libraries] in
theorem onLane_ack {origin : Int} {sequence : Nat} (h : call.request = .ack origin sequence) :
    call.onLane s d = true ↔ call.rank.val = d ∧ origin = (s : Int) := by
  simp [Call.onLane, Request.onLane, h]

/-- A call that is not on the lane. -/
theorem code_offLane (W : Wired n safe ring) (hlane : W.lane s d = some l)
    (hcall : ¬ call.onLane s d = true) :
    (Call.code ring call).Only (RingCall.offLane safe s d l call.rank) := by
  cases hrequest : call.request with
  | send destination data =>
    rw [onLane_send hrequest] at hcall
    rw [send_code W hrequest]
    unfold Send.code
    split
    · trivial
    rename_i hpeer
    split
    · trivial
    split
    · trivial
    obtain ⟨i, rfl⟩ := Int.eq_ofNat_of_zero_le (a := destination) (by omega)
    rw [Int.toNat_natCast]
    have hother : ¬ (call.rank.val = s ∧ i = d) := by simpa using hcall
    apply (starting_sendsTo safe data).mono
    intro c hc
    cases c with
    | unlockSent j outgoing poison =>
      obtain rfl : j = i := hc
      exact hother
    | put dest disp image =>
      obtain rfl : dest = (i : Int) := hc
      exact hother
    | lockSent | readCounter | addFull => trivial
    | _ => exact hc.elim
  | poll =>
    rw [onLane_poll hrequest] at hcall
    unfold Call.code
    rw [hrequest]
    apply (poll_polls (ring call.rank)).mono
    intro c hc
    cases c with
    | unlockSeen seen poison polled => exact fun hrank => absurd hrank hcall
    | unlockSent | unlockAcked | put | fetchAdd => exact hc.elim
    | _ => trivial
  | ack origin sequence =>
    rw [onLane_ack hrequest] at hcall
    rw [ack_code W hrequest]
    unfold Ack.code
    split
    · trivial
    rename_i hpeer
    split
    · trivial
    rename_i hsafe
    split
    · trivial
    rename_i l' hlane'
    obtain ⟨i, rfl⟩ := Int.eq_ofNat_of_zero_le (a := origin) (by omega)
    rw [Int.toNat_natCast] at hlane' ⊢
    apply (starting_acksTo sequence).mono
    intro c hc
    cases c with
    | unlockAcked => exact Bool.eq_true_of_not_eq_false hsafe
    | unlockSeen seen poison polled => exact fun _ => hc
    | fetchAdd dest disp value =>
      obtain ⟨rfl, rfl⟩ := hc
      rintro ⟨hi, hack⟩
      obtain rfl : i = s := hi
      have hrank : d ≠ call.rank.val := by
        rintro rfl
        exact hcall ⟨rfl, rfl⟩
      exact W.ackApart hlane hlane' hrank hack.symm
    | lockSeen | lockAcked => trivial
    | _ => exact hc.elim

omit [Libraries] in
/-- A poll turns to the lane once. -/
theorem incoming_split (W : Wired n safe ring) (hlane : W.lane s d = some l) :
    ∃ pre post, (ring d).incoming = (pre ++ s :: post).map (fun o : Nat => (o : Int)) ∧
      s ∉ pre ∧ s ∉ post ∧ ∀ o, o ∈ pre ∨ o ∈ post → W.lane o d ≠ none := by
  have hok := W.lanes hlane
  have hmem : s ∈ (List.range n).filter fun o => (W.lane o d).isSome := by
    simp [hok.source, hlane]
  have hnodup : ((List.range n).filter fun o => (W.lane o d).isSome).Nodup :=
    List.nodup_range.filter _
  have hsome : ∀ o ∈ (List.range n).filter fun o => (W.lane o d).isSome, W.lane o d ≠ none := by
    intro o ho
    exact Option.isSome_iff_ne_none.mp (List.mem_filter.mp ho).2
  rw [W.incoming d hok.destination]
  generalize ((List.range n).filter fun o => (W.lane o d).isSome) = origins at hmem hnodup hsome
  obtain ⟨pre, post, rfl⟩ := List.append_of_mem hmem
  obtain ⟨-, hpost, hapart⟩ := List.nodup_append.mp hnodup
  refine ⟨pre, post, rfl, ?_, (List.nodup_cons.mp hpost).1, ?_⟩
  · intro hpre
    exact hapart s hpre s (List.mem_cons_self ..) rfl
  · rintro o (ho | ho)
    · exact hsome o (by simp [ho])
    · exact hsome o (by simp [ho])

omit [Libraries] in
/-- In the ring of the lane alone, to nothing else. -/
theorem incoming_solo (W' : Wired n safe ring') (hlane : W'.lane s d = some l)
    (hsolo : ∀ o, W'.lane o d ≠ none → o = s) : (ring' d).incoming = [(s : Int)] := by
  obtain ⟨pre, post, hincoming, hpre, hpost, hsome⟩ := incoming_split W' hlane
  have hnone : ∀ o, ¬ (o ∈ pre ∨ o ∈ post) := by
    intro o ho
    obtain rfl := hsolo o (hsome o ho)
    rcases ho with ho | ho
    · exact hpre ho
    · exact hpost ho
  obtain rfl : pre = [] := List.eq_nil_iff_forall_not_mem.mpr fun o ho => hnone o (.inl ho)
  obtain rfl : post = [] := List.eq_nil_iff_forall_not_mem.mpr fun o ho => hnone o (.inr ho)
  exact hincoming

/-- **A call on the lane runs alike in the ring of the lane alone.** -/
theorem code_onLane (W : Wired n safe ring) (W' : Wired n safe ring') (hlane : W.lane s d = some l)
    (hlane' : W'.lane s d = some (l.moved offset ack))
    (hsolo : ∀ o, W'.lane o d ≠ none → o = s) (hcall : call.onLane s d = true) :
    (Call.code ring call).Shadowed (callMatching s d l (l.moved offset ack) call) (fun _ => False)
      (fun r r' => r' = r.onLane s) (Call.code ring' call) := by
  have hok := W.lanes hlane
  cases hrequest : call.request with
  | send destination data =>
    obtain ⟨hrank, rfl⟩ := (onLane_send hrequest).mp hcall
    have hside : ∀ c : RingCall, c.sendsTo d → c.side s d = call.rank := by
      intro c hc
      cases c with
      | lockSent | unlockSent | readCounter | put | addFull => exact hrank.symm
      | _ => exact hc.elim
    rw [send_code W hrequest, send_code W' hrequest]
    unfold Send.code
    rw [Int.toNat_natCast, hrank, hlane, hlane']
    have hcapacity : (l.moved offset ack).capacity = l.capacity := rfl
    simp only [hcapacity]
    split
    · exact .ret rfl
    split
    · exact .ret rfl
    rename_i hdata
    apply Program.Shadowed.restrict
    · exact Twins.starting safe hok (Nat.le_of_not_lt hdata)
    · exact (starting_sendsTo safe data).mono hside
  | poll =>
    have hrank := (onLane_poll hrequest).mp hcall
    have hd := hok.destination
    have hside : ∀ c : RingCall, c.polls → c.side s d = call.rank := by
      intro c hc
      cases c with
      | lockSent | unlockSent | readCounter | put | addFull => exact hc.elim
      | _ => exact hrank.symm
    unfold Call.code
    rw [hrequest]
    apply Program.Shadowed.restrict _ ((poll_polls (ring call.rank)).mono hside)
    rw [hrank]
    have hok' := W'.lanes hlane'
    obtain ⟨pre, post, hincoming, hpre, hpost, -⟩ := incoming_split W hlane
    exact Twins.polling (W.receives hd) (W'.receives hd) hok.depth (fun p hp => hok.slotIn hp)
      (fun p hp => hok'.slotIn hp) ((W.from_iff hd).mpr hlane) ((W'.from_iff hd).mpr hlane')
      hpre hpost hincoming (incoming_solo W' hlane' hsolo)
  | ack origin sequence =>
    obtain ⟨hrank, rfl⟩ := (onLane_ack hrequest).mp hcall
    have hside : ∀ c : RingCall, c.acksTo s l → c.side s d = call.rank := by
      intro c hc
      cases c with
      | lockSent | unlockSent | readCounter | put | addFull => exact hc.elim
      | _ => exact hrank.symm
    rw [ack_code W hrequest, ack_code W' hrequest]
    unfold Ack.code
    rw [Int.toNat_natCast, hrank, hlane, hlane']
    split
    · exact .ret rfl
    split
    · exact .ret rfl
    apply Program.Shadowed.restrict
    · exact Twins.acking sequence
    · exact (starting_acksTo sequence).mono hside

end Calls

/-! ### What a step changes in the view -/

section Views

variable {s d : Nat} {l : Lane} {w : World}

@[simp] theorem laneView_take (t : Nat) (m : Mutex) :
    laneView s d l (w.take t m) = laneView s d l w := rfl

@[simp] theorem laneView_drop (m : Mutex) (poison : Bool) :
    laneView s d l (w.drop m poison) = laneView s d l w := rfl

theorem laneView_record {e e' : Event} (h : e.onLane s d l = some e') :
    laneView s d l (w.record e) =
      { laneView s d l w with log := e' :: (laneView s d l w).log } := by
  simp [laneView, World.record, h]

theorem laneView_record_none {e : Event} (h : e.onLane s d l = none) :
    laneView s d l (w.record e) = laneView s d l w := by
  simp [laneView, World.record, h]

theorem laneView_count {r : Nat} {f : Process → Process} (hf : Statistic f) :
    laneView s d l (w.modify r f) = laneView s d l w := by
  have hslots := World.modify_keeps Process.slots hf.slots w r
  have hacks := World.modify_keeps Process.acks hf.acks w r
  have hsent := World.modify_keeps Process.sent hf.sent w r
  have hseen := World.modify_keeps Process.seen hf.seen w r
  have hacked := World.modify_keeps Process.acked hf.acked w r
  simp only [laneView, hslots, hacks, hsent, hseen, hacked]
  rfl

/-- An image stored in a slot of the lane. -/
theorem slots_write (m : Memory UInt8) {p : Nat} {image : Bytes} (himage : image.length = l.slot) :
    (List.range l.depth).map (fun q => (m.write (l.slotAt p) image).read (l.slotAt q) l.slot) =
      ((List.range l.depth).map fun q => m.read (l.slotAt q) l.slot).set p image := by
  apply List.ext_getElem
  · simp
  intro q hq _
  rw [List.getElem_set]
  simp only [List.getElem_map, List.getElem_range]
  split
  · rename_i hpq
    rw [← hpq, ← himage]
    exact Memory.read_write_self m _ image
  · rename_i hpq
    apply Memory.read_write_disjoint
    rw [himage]
    exact l.slot_apart (Ne.symm hpq)

section Apart

variable (hne : s ≠ d)
include hne

theorem laneView_seen (r : Nat) (seen : List Nat) :
    laneView s d l (w.modify r fun p => { p with seen := seen }) =
      if r = d then { laneView s d l w with seen := seen[s]? } else laneView s d l w := by
  rcases eq_or_ne r d with rfl | hr
  · simp [laneView, World.modify, hne]
  · rcases eq_or_ne r s with rfl | hs
    · simp [laneView, World.modify, hne, hne.symm]
    · simp [laneView, World.modify, hr, hr.symm, hs.symm]

theorem laneView_acked (r : Nat) (acked : List Nat) :
    laneView s d l (w.modify r fun p => { p with acked := acked }) =
      if r = d then { laneView s d l w with acked := acked[s]? } else laneView s d l w := by
  rcases eq_or_ne r d with rfl | hr
  · simp [laneView, World.modify, hne]
  · rcases eq_or_ne r s with rfl | hs
    · simp [laneView, World.modify, hne, hne.symm]
    · simp [laneView, World.modify, hr, hr.symm, hs.symm]

theorem laneView_sent (r i : Nat) (outgoing : Outgoing) :
    laneView s d l (w.modify r fun p => { p with sent := Function.update p.sent i outgoing }) =
      if r = s ∧ i = d then { laneView s d l w with outgoing := outgoing }
      else laneView s d l w := by
  rcases eq_or_ne r s with rfl | hr
  · rcases eq_or_ne i d with rfl | hi
    · simp [laneView, World.modify, hne.symm]
    · simp [laneView, World.modify, hne.symm, hi, hi.symm]
  · rcases eq_or_ne r d with rfl | hd
    · simp [laneView, World.modify, hne, hne.symm]
    · simp [laneView, World.modify, hr, hr.symm, hd.symm]

theorem laneView_add (dest disp value : Nat) :
    laneView s d l (w.add dest disp value) =
      if dest = s ∧ disp = l.ack then
        { laneView s d l w with
          counter := ((laneView s d l w).counter + value) % (u64Max + 1) }
      else laneView s d l w := by
  rcases eq_or_ne dest s with rfl | hs
  · rcases eq_or_ne disp l.ack with rfl | hack
    · simp [laneView, World.add, World.modify, hne.symm]
    · simp [laneView, World.add, World.modify, hne.symm, hack, hack.symm]
  · rcases eq_or_ne dest d with rfl | hd
    · simp [laneView, World.add, World.modify, hne, hne.symm]
    · simp [laneView, World.add, World.modify, hs, hs.symm, hd.symm]

theorem laneView_land {p : Nat} {image : Bytes} (himage : image.length = l.slot) (data : Bytes)
    (ok : Bool) :
    laneView s d l (w.land s d (l.slotAt p) image data ok) =
      { laneView s d l w with
        slots := (laneView s d l w).slots.set p image
        log := .put s d (ofLE (image.take WORD)) data ok (p * l.slot) image.length ::
          (laneView s d l w).log } := by
  have hplace : l.slotAt p - l.offset = p * l.slot := Nat.add_sub_cancel_left ..
  have hpart : Event.onLane s d l
      (.put s d (ofLE (image.take WORD)) data ok (l.slotAt p) image.length) =
      some (.put s d (ofLE (image.take WORD)) data ok (p * l.slot) image.length) := by
    simp [Event.onLane, hplace]
  unfold World.land
  rw [laneView_record hpart]
  simp [laneView, World.modify, hne, slots_write _ himage]

/-- An image stored elsewhere. -/
theorem laneView_land_other {source dest disp : Nat} {image : Bytes} (data : Bytes) (ok : Bool)
    (hother : ¬ (source = s ∧ dest = d))
    (hapart : dest = d → ∀ p < l.depth,
      l.slotAt p + l.slot ≤ disp ∨ disp + image.length ≤ l.slotAt p) :
    laneView s d l (w.land source dest disp image data ok) = laneView s d l w := by
  unfold World.land
  rw [laneView_record_none (by simp [Event.onLane, hother])]
  rcases eq_or_ne dest d with rfl | hd
  · have hslots : ∀ p < l.depth, ((w.process dest).slots.write disp image).read
      (l.slotAt p) l.slot =
        (w.process dest).slots.read (l.slotAt p) l.slot :=
      fun p hp => Memory.read_write_disjoint (hapart rfl p hp)
    simpa [laneView, World.modify, hne] using hslots
  · rcases eq_or_ne dest s with rfl | hs
    · simp [laneView, World.modify, hd.symm]
    · simp [laneView, World.modify, hs.symm, hd.symm]

end Apart

end Views

/-! ### Two worlds with one view -/

/-- The ring and the ring of the lane alone: they show the same view, and a mutex taken in the
    second is taken in the first. -/
structure SameLane (s d : Nat) (l l' : Lane) (x y : World) : Prop where
  view : laneView s d l x = laneView s d l' y
  held : ∀ m t, y.holder m = some t → x.holder m = some t

section Same

variable {n : Nat} {s d offset ack t : Nat} {l l' : Lane} {x y x' y' : World} {m : Mutex}

theorem SameLane.free (h : SameLane s d l l' x y) (hfree : x.holder m = none) :
    y.holder m = none := by
  cases hm : y.holder m with
  | none => rfl
  | some t =>
    rw [h.held m t hm] at hfree
    contradiction

theorem held_take (h : ∀ m t, y.holder m = some t → x.holder m = some t) (m : Mutex) (t : Nat) :
    ∀ m' u, (y.take t m).holder m' = some u → (x.take t m).holder m' = some u := by
  intro m' u hu
  by_cases hm : m' = m
  · simpa [World.take, hm] using hu
  · simp only [World.take, Function.update_of_ne hm] at hu ⊢
    exact h m' u hu

theorem held_drop (h : ∀ m t, y.holder m = some t → x.holder m = some t) (m : Mutex)
    (poison : Bool) :
    ∀ m' u, (y.drop m poison).holder m' = some u → (x.drop m poison).holder m' = some u := by
  intro m' u hu
  by_cases hm : m' = m
  · simp [World.drop, hm] at hu
  · simp only [World.drop, Function.update_of_ne hm] at hu ⊢
    exact h m' u hu

theorem lock_clean {α : Type} {data : α} (hfree : y.holder m = none)
    (hclean : ∀ m, y.poisoned m = false) : y.lock t m data = some (some data, y.take t m) := by
  unfold World.lock
  rw [if_pos hfree, hclean m]
  rfl

/-- The slots of the lane hold the same bytes. -/
theorem SameLane.slot (h : SameLane s d l (l.moved offset ack) x y) {p : Nat} (hp : p < l.depth) :
    (x.process d).slots.read (l.slotAt p) l.slot =
      (y.process d).slots.read ((l.moved offset ack).slotAt p) l.slot := by
  have hslots := congrArg (fun v => v.slots[p]?) h.view
  have hp' : p < (l.moved offset ack).depth := hp
  simp only [laneView, List.getElem?_map, List.getElem?_range hp, List.getElem?_range hp',
    Option.map_some, Option.some.injEq] at hslots
  exact hslots

theorem SameLane.head (h : SameLane s d l (l.moved offset ack) x y) (hword : WORD ≤ l.slot)
    {p : Nat} (hp : p < l.depth) :
    (x.process d).slots.read (l.slotAt p) WORD =
      (y.process d).slots.read ((l.moved offset ack).slotAt p) WORD := by
  have hslot := congrArg (List.take WORD) (h.slot hp)
  rwa [Memory.take_read _ _ _ _ hword, Memory.take_read _ _ _ _ hword] at hslot

theorem SameLane.guard (h : SameLane s d l (l.moved offset ack) x y) (hword : WORD ≤ l.slot)
    {p : Nat} (hp : p < l.depth) :
    (x.process d).slots.read (l.guardAt p) WORD =
      (y.process d).slots.read ((l.moved offset ack).guardAt p) WORD := by
  have hslot := congrArg (List.drop (l.slot - WORD)) (h.slot hp)
  have hrest : l.slot - (l.slot - WORD) = WORD := by omega
  have hplace : ∀ l' : Lane, l'.slot = l.slot → l'.slotAt p + (l.slot - WORD) = l'.guardAt p := by
    intro l' hsame
    unfold Lane.guardAt
    omega
  rwa [Memory.drop_read, Memory.drop_read, hrest, hplace l rfl,
    hplace (l.moved offset ack) rfl] at hslot

variable {call : Call n} {c c' : RingCall} {rel : c.Answer → c'.Answer → Prop} {a : c.Answer}
  {ending : Ending}

theorem map_fromOrigin (s : Nat) (result : Except Fail (List Message)) :
    (result.map (fromOrigin s)).map (fromOrigin s) = result.map (fromOrigin s) := by
  cases result with
  | error e => rfl
  | ok messages => simp [Except.map, fromOrigin]

theorem Outcome.onLane_twice (s : Nat) (outcome : Outcome) :
    (outcome.onLane s).onLane s = outcome.onLane s := by
  cases outcome with
  | polled result => exact congrArg Outcome.polled (map_fromOrigin s result)
  | sent | acked => rfl

/-- **A command of the lane** has the same answer and the same effect on the view in the ring of
    the lane alone. -/
theorem SameLane.paired (h : SameLane s d l (l.moved offset ack) x y) (hne : s ≠ d)
    (hword : WORD ≤ l.slot) (hclean : ∀ m, x.poisoned m = false)
    (hclean' : ∀ m, y.poisoned m = false) (hpair : OnLane s d l (l.moved offset ack) c c' rel)
    (hside : c.side s d = call.rank)
    (hready : (c'.lockUse call.rank).Ready t y.holder)
    (hexec : World.exec Faults.none t call c ending x = some (a, x')) :
    ∃ a' y', World.exec Faults.none t call c' .ok y = some (a', y') ∧ rel a a' ∧
      SameLane s d l (l.moved offset ack) x' y' := by
  have hview := h.view
  cases hpair with
  | lockSent =>
    have hrank : s = call.rank.val := hside
    obtain ⟨hfree, rfl, rfl⟩ := lock_some hclean hexec
    refine ⟨_, _, lock_clean hready hclean', ?_, ?_, held_take h.held _ t⟩
    · rw [← hrank]
      exact congrArg (fun v => some v.outgoing) hview
    · simpa using hview
  | unlockSent outgoing poison =>
    have hrank : s = call.rank.val := hside
    unfold World.exec at hexec
    dsimp only at hexec
    split at hexec
    swap
    · contradiction
    obtain ⟨-, rfl⟩ := Prod.mk.inj (Option.some.inj hexec)
    refine ⟨(), _, if_pos hready, trivial, ?_, held_drop h.held _ poison⟩
    simp only [laneView_drop, laneView_sent hne, hview]
  | lockSeen =>
    have hrank : d = call.rank.val := hside
    unfold World.exec at hexec
    dsimp only at hexec
    split at hexec
    · contradiction
    rename_i answer w hlock
    obtain ⟨hfree, rfl, rfl⟩ := lock_some hclean hlock
    obtain ⟨rfl, rfl⟩ := Prod.mk.inj (Option.some.inj hexec)
    have hexec' : World.exec Faults.none t call .lockSeen .ok y =
        some (some (y.process call.rank).seen,
          if call.request = .poll ∧ (some (y.process call.rank).seen).isSome then
            (y.take t (.seen call.rank)).record (.polling call.rank)
          else y.take t (.seen call.rank)) := by
      unfold World.exec
      dsimp only
      rw [lock_clean hready hclean']
      rfl
    refine ⟨_, _, hexec', ⟨_, _, rfl, rfl, ?_⟩, ?_, ?_⟩
    · rw [← hrank]
      exact congrArg LaneView.seen hview
    · have hpart : ∀ place, Event.onLane s d place (.polling call.rank) =
          some (.polling call.rank) := by
        intro place
        simp [Event.onLane, hrank]
      simp only [Option.isSome_some, and_true]
      split
      · rw [laneView_record (hpart _), laneView_record (hpart _)]
        simp only [laneView_take, hview]
      · exact hview
    · simp only [Option.isSome_some, and_true]
      split
      · exact held_take h.held _ t
      · exact held_take h.held _ t
  | @unlockSeen v v' poison polled hagree =>
    have hrank : d = call.rank.val := hside
    unfold World.exec at hexec
    dsimp only at hexec
    split at hexec
    swap
    · contradiction
    obtain ⟨-, rfl⟩ := Prod.mk.inj (Option.some.inj hexec)
    have hseen : laneView s d l (x.modify call.rank fun p => { p with seen := v }) =
        laneView s d (l.moved offset ack) (y.modify call.rank fun p => { p with seen := v' }) := by
      rw [laneView_seen hne, laneView_seen hne, hview, hagree]
    refine ⟨(), _, if_pos hready, trivial, ?_, ?_⟩
    · cases polled with
      | none => exact hseen
      | some result =>
        have hpart : ∀ place result, Event.onLane s d place (.polled call.rank result) =
            some (.polled call.rank (result.map (fromOrigin s))) := by
          intro place result
          simp [Event.onLane, hrank]
        dsimp only [Option.map_some]
        rw [laneView_record (hpart _ _), laneView_record (hpart _ _), map_fromOrigin]
        simp only [laneView_drop, hseen]
    · cases polled with
      | none => exact held_drop h.held _ poison
      | some result => exact held_drop h.held _ poison
  | lockAcked =>
    have hrank : d = call.rank.val := hside
    obtain ⟨hfree, rfl, rfl⟩ := lock_some hclean hexec
    refine ⟨_, _, lock_clean hready hclean', ⟨_, _, rfl, rfl, ?_⟩, ?_, held_take h.held _ t⟩
    · rw [← hrank]
      exact congrArg LaneView.acked hview
    · simpa using hview
  | unlockAcked poison hagree =>
    unfold World.exec at hexec
    dsimp only at hexec
    split at hexec
    swap
    · contradiction
    obtain ⟨-, rfl⟩ := Prod.mk.inj (Option.some.inj hexec)
    refine ⟨(), _, if_pos hready, trivial, ?_, held_drop h.held _ poison⟩
    rw [laneView_drop, laneView_drop, laneView_acked hne, laneView_acked hne, hview, hagree]
  | readLocal hp =>
    have hrank : d = call.rank.val := hside
    obtain ⟨rfl, rfl⟩ := Prod.mk.inj (Option.some.inj hexec)
    refine ⟨_, _, rfl, ⟨?_, Memory.length_read _ _ _⟩, ?_, h.held⟩
    · rw [← hrank]
      exact h.slot hp
    · rw [laneView_record_none rfl, laneView_record_none rfl, hview]
  | readHead hp =>
    have hrank : d = call.rank.val := hside
    obtain ⟨rfl, rfl⟩ := Prod.mk.inj (Option.some.inj hexec)
    refine ⟨_, _, rfl, ⟨?_, Memory.length_read _ _ _⟩, ?_, h.held⟩
    · rw [← hrank]
      exact h.head hword hp
    · rw [laneView_record_none rfl, laneView_record_none rfl, hview]
  | readGuard hp =>
    have hrank : d = call.rank.val := hside
    obtain ⟨rfl, rfl⟩ := Prod.mk.inj (Option.some.inj hexec)
    refine ⟨_, _, rfl, ⟨?_, Memory.length_read _ _ _⟩, ?_, h.held⟩
    · rw [← hrank]
      exact h.guard hword hp
    · rw [laneView_record_none rfl, laneView_record_none rfl, hview]
  | readCounter =>
    have hrank : s = call.rank.val := hside
    obtain ⟨rfl, rfl⟩ := Prod.mk.inj (Option.some.inj hexec)
    refine ⟨_, _, rfl, ?_, hview, h.held⟩
    rw [← hrank]
    exact congrArg LaneView.counter hview
  | put hp himage =>
    have hrank : s = call.rank.val := hside
    unfold World.exec at hexec
    dsimp only at hexec
    cases ending with
    | ok =>
      obtain ⟨rfl, rfl⟩ := Prod.mk.inj (Option.some.inj hexec)
      have himage' : _ = (l.moved offset ack).slot := himage
      refine ⟨_, _, rfl, rfl, ?_, h.held⟩
      rw [← hrank, Int.toNat_natCast, laneView_land hne himage, laneView_land hne himage', hview]
      rfl
    | before code => contradiction
    | after code => contradiction
  | fetchAdd value =>
    unfold World.exec at hexec
    dsimp only at hexec
    cases ending with
    | ok =>
      obtain ⟨rfl, rfl⟩ := Prod.mk.inj (Option.some.inj hexec)
      refine ⟨_, _, rfl, ?_, ?_, h.held⟩
      · rw [Int.toNat_natCast]
        exact congrArg (fun v => Except.ok v.counter) hview
      · rw [laneView_add hne, laneView_add hne, hview]
        simp
    | before code => contradiction
    | after code => contradiction
  | addLost count =>
    obtain ⟨rfl, rfl⟩ := Prod.mk.inj (Option.some.inj hexec)
    refine ⟨_, _, rfl, trivial, ?_, h.held⟩
    rw [laneView_record_none rfl, laneView_record_none rfl, laneView_count, laneView_count, hview]
    · exact ⟨fun _ => rfl, fun _ => rfl, fun _ => rfl, fun _ => rfl, fun _ => rfl⟩
    · exact ⟨fun _ => rfl, fun _ => rfl, fun _ => rfl, fun _ => rfl, fun _ => rfl⟩
  | addCorrupt | maxLag lag | addFull =>
    obtain ⟨rfl, rfl⟩ := Prod.mk.inj (Option.some.inj hexec)
    refine ⟨_, _, rfl, trivial, ?_, h.held⟩
    rw [laneView_count, laneView_count, hview]
    · exact ⟨fun _ => rfl, fun _ => rfl, fun _ => rfl, fun _ => rfl, fun _ => rfl⟩
    · exact ⟨fun _ => rfl, fun _ => rfl, fun _ => rfl, fun _ => rfl, fun _ => rfl⟩

/-- A command of a thread that holds nothing in the second world. -/
theorem held_alone (h : ∀ m u, y.holder m = some u → x.holder m = some u)
    (hidle : ∀ m, y.holder m ≠ some t)
    (hexec : World.exec Faults.none t call c ending x = some (a, x')) :
    ∀ m u, y.holder m = some u → x'.holder m = some u := by
  obtain ⟨hready, hafter⟩ := exec_after hexec
  intro m u hu
  have hx := h m u hu
  rw [hafter]
  cases huse : c.lockUse call.rank with
  | acquire m' =>
    rw [huse] at hready
    have hfree : x.holder m' = none := hready
    have hne : m ≠ m' := by
      rintro rfl
      rw [hfree] at hx
      contradiction
    simp only [LockUse.after]
    split
    · rwa [Function.update_of_ne hne]
    · exact hx
  | release m' =>
    rw [huse] at hready
    have hmine : x.holder m' = some t := hready
    have hne : m ≠ m' := by
      rintro rfl
      rw [hmine] at hx
      obtain rfl := Option.some.inj hx
      exact hidle m hu
    simp only [LockUse.after]
    rwa [Function.update_of_ne hne]
  | none => exact hx

/-- While a poll turns to other lanes the view stays. -/
theorem SameLane.receiving (h : SameLane s d l l' x y) (hc : c.receiving)
    (hexec : World.exec Faults.none t call c ending x = some (a, x')) : SameLane s d l l' x' y := by
  have hview := h.view
  cases c with
  | readLocal disp len | readLocalVolatile disp len =>
    obtain ⟨-, rfl⟩ := Prod.mk.inj (Option.some.inj hexec)
    refine ⟨?_, h.held⟩
    rw [laneView_record_none rfl, hview]
  | addLost count =>
    obtain ⟨-, rfl⟩ := Prod.mk.inj (Option.some.inj hexec)
    refine ⟨?_, h.held⟩
    rw [laneView_record_none rfl, laneView_count, hview]
    exact ⟨fun _ => rfl, fun _ => rfl, fun _ => rfl, fun _ => rfl, fun _ => rfl⟩
  | addCorrupt | maxLag lag =>
    obtain ⟨-, rfl⟩ := Prod.mk.inj (Option.some.inj hexec)
    refine ⟨?_, h.held⟩
    rw [laneView_count, hview]
    exact ⟨fun _ => rfl, fun _ => rfl, fun _ => rfl, fun _ => rfl, fun _ => rfl⟩
  | _ => exact hc.elim

end Same

/-! ### Calls that are not on the lane -/

section OffLane

variable [Libraries] {n : Nat} {safe : Bool} {ring ring' : Nat → Ring} {W : Wired n safe ring}
  {W' : Wired n safe ring'} {s d offset ack t : Nat} {l : Lane} {x y x' : World} {call : Call n}
  {c : RingCall} {a : c.Answer} {ending : Ending}

/-- **A command of a call that is not on the lane leaves the view alone.** -/
theorem SameLane.offLane (h : SameLane s d l (l.moved offset ack) x y)
    (hlane : W.lane s d = some l) (hlane' : W'.lane s d = some (l.moved offset ack))
    (hinv : RingInv W Faults.none x) (hinv' : RingInv W Faults.none x')
    (hsolo : RingInv W' Faults.none y) (hidle : ∀ m, y.holder m ≠ some t)
    (hcall : ¬ call.onLane s d = true) (hoff : c.offLane safe s d l call.rank)
    (hexec : World.exec Faults.none t call c ending x = some (a, x')) :
    SameLane s d l (l.moved offset ack) x' y := by
  have hok := W.lanes hlane
  have hne := hok.noSelf
  refine ⟨?_, held_alone h.held hidle hexec⟩
  have hview := h.view
  cases c with
  | lockSent i | lockAcked =>
    obtain ⟨-, -, rfl⟩ := lock_some hinv.clean hexec
    exact hview
  | lockSeen =>
    unfold World.exec at hexec
    dsimp only at hexec
    split at hexec
    · contradiction
    rename_i answer w hlock
    obtain ⟨-, rfl, rfl⟩ := lock_some hinv.clean hlock
    obtain ⟨-, rfl⟩ := Prod.mk.inj (Option.some.inj hexec)
    split
    · rename_i hpoll
      rw [onLane_poll hpoll.1] at hcall
      rw [laneView_record_none (by simp [Event.onLane, hcall])]
      exact hview
    · exact hview
  | unlockSent i outgoing poison =>
    unfold World.exec at hexec
    dsimp only at hexec
    split at hexec
    swap
    · contradiction
    obtain ⟨-, rfl⟩ := Prod.mk.inj (Option.some.inj hexec)
    rw [laneView_drop, laneView_sent hne, if_neg hoff, hview]
  | unlockSeen seen poison polled =>
    unfold World.exec at hexec
    dsimp only at hexec
    split at hexec
    swap
    · contradiction
    obtain ⟨-, rfl⟩ := Prod.mk.inj (Option.some.inj hexec)
    by_cases hrank : call.rank.val = d
    · obtain rfl : polled = none := hoff hrank
      have hseen : seen = (x.process d).seen := by
        have hnow := (hinv'.rank d hok.destination).seen
        have hbefore := (hinv.rank d hok.destination).seen
        rw [← hrank] at hnow hbefore ⊢
        rw [hbefore]
        simpa [World.drop, World.modify] using hnow
      rw [laneView_drop, laneView_seen hne, if_pos hrank, hseen, ← hview]
      rfl
    · have hsame : laneView s d l (x.modify call.rank fun p => { p with seen := seen }) =
          laneView s d (l.moved offset ack) y := by
        rw [laneView_seen hne, if_neg hrank, hview]
      cases polled with
      | none => exact hsame
      | some result =>
        dsimp only
        rw [laneView_record_none (by simp [Event.onLane, hrank])]
        exact hsame
  | unlockAcked acked poison =>
    unfold World.exec at hexec
    dsimp only at hexec
    split at hexec
    swap
    · contradiction
    rename_i hmine
    obtain ⟨-, rfl⟩ := Prod.mk.inj (Option.some.inj hexec)
    rw [laneView_drop, laneView_acked hne, hview]
    split
    swap
    · rfl
    rename_i hrank
    -- The mirror of the lane is its counter, in this ring and in the ring of the lane alone.
    have hidleMutex : y.holder (.acked d) = none := by
      cases hu : y.holder (.acked d) with
      | none => rfl
      | some u =>
        rw [← hrank] at hu
        have hholds := h.held _ u hu
        rw [hmine] at hholds
        obtain rfl := Option.some.inj hholds
        exact absurd hu (hidle _)
    have hmirror : acked[s]? = some ((x.process s).acks l.ack) := by
      have hnow := (hinv'.lane s d l hlane).mirror hoff rfl (by simp [World.drop, hrank])
      simpa [World.drop, World.modify, hrank, hne] using hnow
    have hmirror' := (hsolo.lane s d _ hlane').mirror hoff rfl hidleMutex
    have hcounter : (x.process s).acks l.ack = (y.process s).acks (l.moved offset ack).ack :=
      congrArg LaneView.counter hview
    rw [hmirror, hcounter, ← hmirror']
    rfl
  | readLocal disp len | readLocalVolatile disp len =>
    obtain ⟨-, rfl⟩ := Prod.mk.inj (Option.some.inj hexec)
    rw [laneView_record_none rfl, hview]
  | readCounter disp =>
    obtain ⟨-, rfl⟩ := Prod.mk.inj (Option.some.inj hexec)
    exact hview
  | put dest disp image =>
    unfold World.exec at hexec
    dsimp only at hexec
    cases ending with
    | ok =>
      obtain ⟨-, rfl⟩ := Prod.mk.inj (Option.some.inj hexec)
      obtain ⟨l₂, hput, rfl, hlength⟩ := hinv'.lawful.1
      rw [laneView_land_other hne _ _ hoff, hview]
      intro hdest p hp
      have hother : call.rank.val ≠ s := fun hrank => hoff ⟨hrank, hdest⟩
      have hlane₂ : W.lane call.rank d = some l₂ := hdest ▸ hput.lane
      have hin := l.slot_inside hp
      have hin₂ := l₂.slot_inside ((W.lanes hlane₂).position_lt (ofLE (image.take WORD)))
      rw [hlength]
      rcases W.apart hlane₂ hlane hother with happ | happ
      · right
        unfold Lane.slotAt at *
        omega
      · left
        unfold Lane.slotAt at *
        omega
    | before code => contradiction
    | after code => contradiction
  | fetchAdd dest disp value =>
    unfold World.exec at hexec
    dsimp only at hexec
    cases ending with
    | ok =>
      obtain ⟨-, rfl⟩ := Prod.mk.inj (Option.some.inj hexec)
      rw [laneView_add hne, if_neg hoff, hview]
    | before code => contradiction
    | after code => contradiction
  | addLost count =>
    obtain ⟨-, rfl⟩ := Prod.mk.inj (Option.some.inj hexec)
    rw [laneView_record_none rfl, laneView_count, hview]
    exact ⟨fun _ => rfl, fun _ => rfl, fun _ => rfl, fun _ => rfl, fun _ => rfl⟩
  | addCorrupt | maxLag lag | addFull =>
    obtain ⟨-, rfl⟩ := Prod.mk.inj (Option.some.inj hexec)
    rw [laneView_count, hview]
    exact ⟨fun _ => rfl, fun _ => rfl, fun _ => rfl, fun _ => rfl, fun _ => rfl⟩

end OffLane

/-! ### The ring and the ring of the lane alone -/

/-- The ring of the lane alone follows the calls on the lane and leaves the others out. -/
def laneShadow (n : Nat) (safe : Bool) (s d : Nat) (l l' : Lane) :
    Shadow RingCall RingCall.Answer RingCall RingCall.Answer World World (Call n) (Call n) Outcome
      Outcome where
  call k := if k.onLane s d then some k else none
  matching := callMatching s d l l'
  result _ r r' := r' = r.onLane s
  aside k := RingCall.offLane safe s d l k.rank
  same := SameLane s d l l'

section Following

variable {n : Nat} {safe : Bool} {s d : Nat} {l l' : Lane} {k k' : Call n}

theorem laneShadow_some (h : (laneShadow n safe s d l l').call k = some k') :
    k' = k ∧ k.onLane s d = true := by
  simp only [laneShadow] at h
  split at h
  · rename_i hon
    exact ⟨(Option.some.inj h).symm, hon⟩
  · contradiction

theorem laneShadow_none (h : (laneShadow n safe s d l l').call k = none) :
    ¬ k.onLane s d = true := by
  simp only [laneShadow] at h
  split at h
  · contradiction
  · assumption

/-- Commands that are followed use the same mutexes. -/
theorem OnLane.lockUse {c c' : RingCall} {rel : c.Answer → c'.Answer → Prop}
    (h : OnLane s d l l' c c' rel) (rank : Nat) : c'.lockUse rank = c.lockUse rank := by
  cases h with
  | _ => rfl

theorem sameLane_fresh (n : Nat) (s d : Nat) (l : Lane) (offset ack : Nat) :
    SameLane s d l (l.moved offset ack) (World.fresh n) (World.fresh n) := by
  refine ⟨?_, fun m t h => h⟩
  have hslots : ∀ l' : Lane, ∀ p, ((World.fresh n).process d).slots.read (l'.slotAt p) l'.slot =
      List.replicate l'.slot 0 := fun l' p => Memory.read_const 0 _ _
  simp only [laneView, hslots]
  rfl

end Following

section Sound

variable [Libraries] {n : Nat} {safe : Bool} {ring ring' : Nat → Ring}
  {s d offset ack : Nat} {l : Lane}

/-- **The ring of one lane alone is a shadow of the ring.** -/
theorem lane_sound (W : Wired n safe ring) (W' : Wired n safe ring') (hlane : W.lane s d = some l)
    (hlane' : W'.lane s d = some (l.moved offset ack)) (hsolo : ∀ o, W'.lane o d ≠ none → o = s) :
    (laneShadow n safe s d l (l.moved offset ack)).Sound (ringMachine n ring Faults.none)
      (ringMachine n ring' Faults.none) (World.fresh n) (World.fresh n) := by
  have hok := W.lanes hlane
  have hword : WORD ≤ l.slot := by
    have := hok.slot_ge
    omega
  constructor
  case start => exact sameLane_fresh n s d l offset ack
  case code =>
    intro k k' hcall
    obtain ⟨rfl, hon⟩ := laneShadow_some hcall
    exact code_onLane W W' hlane hlane' hsolo hon
  case alone =>
    intro k hcall
    exact code_offLane W hlane (laneShadow_none hcall)
  case paired =>
    rintro x y t k k' c c' cont cont' rel a x' hx hy hat hat' hcall ⟨hpair, hside⟩ hsame
      ⟨ending, hexec⟩
    obtain ⟨rfl, hon⟩ := laneShadow_some hcall
    have hready : (c'.lockUse k'.rank).Ready t y.shared.holder := by
      have hheld := Locking.Held.reach (ring_respects ring' Faults.none) (fun _ => rfl) hy
      have hfree := (exec_after hexec).1
      rw [hpair.lockUse]
      cases huse : c.lockUse k'.rank with
      | acquire m =>
        rw [huse] at hfree
        exact SameLane.free hsame hfree
      | release m => exact hheld.releases hat' ((hpair.lockUse _).trans huse)
      | none => trivial
    obtain ⟨a', y', hexec', hrel, hsame'⟩ := SameLane.paired hsame hok.noSelf hword
      (reach_inv W rfl hx).clean (reach_inv W' rfl hy).clean hpair hside hready hexec
    exact ⟨a', y', ⟨.ok, hexec'⟩, hrel, hsame'⟩
  case silent =>
    rintro x y t k k' c cont a x' hx hy hat hcall ⟨hsilent, -⟩ hsame ⟨ending, hexec⟩
    exact SameLane.receiving hsame hsilent hexec
  case never =>
    rintro x t k c cont a x' hx hat ⟨hnever, -⟩ ⟨ending, hexec⟩
    -- The invariant allows no poll that ends with an error.
    have hinv := reach_inv W rfl (hx.step (.command t k c cont a x' hat ⟨ending, hexec⟩))
    cases c with
    | unlockSeen seen poison polled =>
      cases polled with
      | some result =>
        cases result with
        | error e =>
          unfold World.exec at hexec
          dsimp only at hexec
          split at hexec
          · obtain ⟨-, rfl⟩ := Prod.mk.inj (Option.some.inj hexec)
            obtain ⟨-, -, messages, lags, hno, -⟩ := hinv.lawful.1
            contradiction
          · contradiction
        | ok messages => exact hnever
      | none => exact hnever
    | _ => exact hnever
  case aside =>
    rintro x y t k c cont a x' hx hy hat hat' hcall hoff hsame ⟨ending, hexec⟩
    have hheld := Locking.Held.reach (ring_respects ring' Faults.none) (fun _ => rfl) hy
    have hidle : ∀ m, y.shared.holder m ≠ some t := by
      intro m hm
      have hempty : (ringLocking n).held y.shared t = ∅ := hheld.idle t hat'
      have hmem : m ∈ (ringLocking n).held y.shared t := hm
      simp [hempty] at hmem
    exact SameLane.offLane hsame hlane hlane' (reach_inv W rfl hx)
      (reach_inv W rfl (hx.step (.command t k c cont a x' hat ⟨ending, hexec⟩)))
      (reach_inv W' rfl hy) hidle (laneShadow_none hcall) hoff hexec
  case finish =>
    rintro t k k' r r' w w' hcall rfl ⟨hview, hheld⟩
    obtain ⟨rfl, hon⟩ := laneShadow_some hcall
    refine ⟨?_, hheld⟩
    have hpart : ∀ place outcome, Event.onLane s d place (.returned k'.rank k'.request outcome) =
        some (.returned k'.rank k'.request (outcome.onLane s)) := fun _ _ => if_pos hon
    show laneView s d l (w.record (.returned k'.rank k'.request r)) =
      laneView s d (l.moved offset ack) (w'.record (.returned k'.rank k'.request (r.onLane s)))
    rw [laneView_record (hpart _ _), laneView_record (hpart _ _), Outcome.onLane_twice, hview]
  case skip =>
    rintro t k r w w' hcall ⟨hview, hheld⟩
    have hoff : ¬ k.request.onLane s d k.rank = true := laneShadow_none hcall
    refine ⟨?_, hheld⟩
    show laneView s d l (w.record (.returned k.rank k.request r)) = _
    rw [laneView_record_none (by simp [Event.onLane, hoff]), hview]

end Sound

/-! ### Lanes do not interfere -/

section Lanes

variable [Libraries] {n : Nat} {safe : Bool} {ring ring' : Nat → Ring} {s d : Nat} {l : Lane}
  {comm comm' : Fin n → Comm} {lists : Fin n → List LaneSpec}

/-- A moment of a ring without the other lanes is this moment of the ring of the lane alone: the
    same calls on the lane are under way, and the lane shows the same view. -/
structure Erased (s d : Nat) (l : Lane)
    (x y : Config RingCall RingCall.Answer World (Call n) Outcome) : Prop where
  view : laneView s d l x.shared = laneView s d (l.moved 0 0) y.shared
  calls : ∀ t, (y.threads t).map Thread.call =
    ((x.threads t).map Thread.call).filter (Call.onLane s d)

/-- What holds of a lane of `ring` and of `ring'`, the ring of this lane alone. -/
structure Isolated (n : Nat) (ring ring' : Nat → Ring) (s d : Nat) (l : Lane) : Prop where
  alone : (ring' s).toLanes[d]? = some (some (l.moved 0 0))
  run : ∀ xs, (ringMachine n ring Faults.none).Run xs → xs 0 = Machine.idle (World.fresh n) →
    ∃ ys, (ringMachine n ring' Faults.none).Run ys ∧ ys 0 = Machine.idle (World.fresh n) ∧
      ∀ i, Erased s d l (xs i) (ys i)
  still : ∀ {x t k c cont a w'}, (ringMachine n ring Faults.none).Reach (World.fresh n) x →
    x.threads t = some ⟨k, .op c cont⟩ → k.onLane s d = false →
    (ringMachine n ring Faults.none).exec t k c x.shared a w' →
    laneView s d l w' = laneView s d l x.shared

omit [Libraries] in
/-- The lane of a list of one lane. -/
theorem isLane_single {spec : LaneSpec} {source destination : Int}
    (h : Ring.IsLane [spec] source destination l) :
    spec.source = source ∧ spec.destination = destination ∧ l = Ring.laneOf [] spec := by
  obtain ⟨pre, spec', post, hlist, hsource, hdestination, rfl⟩ := h
  cases pre with
  | nil =>
    obtain ⟨rfl, -⟩ := List.cons.inj hlist
    exact ⟨hsource, hdestination, rfl⟩
  | cons first rest =>
    have hlength := congrArg List.length hlist
    simp at hlength

omit [Libraries] in
theorem laneShadow_calls {l' : Lane} {x : Config RingCall RingCall.Answer World (Call n) Outcome}
    {y : Config RingCall RingCall.Answer World (Call n) Outcome}
    (h : (laneShadow n safe s d l l').Beside x y) (t : Nat) :
    (y.threads t).map Thread.call = ((x.threads t).map Thread.call).filter (Call.onLane s d) := by
  have hthreads := h.threads t
  generalize x.threads t = b at hthreads
  generalize y.threads t = b' at hthreads
  cases hthreads with
  | idle => rfl
  | alone hcall hp => simp [Option.filter_some, laneShadow_none hcall]
  | both hcall hp =>
    obtain ⟨rfl, hon⟩ := laneShadow_some hcall
    simp [Option.filter_some, hon]

def soloList (s d : Nat) (l : Lane) : List LaneSpec := [⟨s, d, l.depth, l.capacity⟩]

omit [Libraries] in
theorem soloList_accepted (W : Wired n safe ring) (hlane : W.lane s d = some l) :
    ListAccepted n (soloList s d l) := by
  have hok := W.lanes hlane
  refine ⟨List.nodup_singleton _, ?_, ?_, ?_⟩
  · intro spec hspec
    obtain rfl := List.mem_singleton.mp hspec
    have hs := hok.source
    have hd := hok.destination
    have hne := hok.noSelf
    exact ⟨by simpa using hs, by simpa using hd, by simpa using hne, hok.depth, hok.capacity⟩
  · intro spec hspec
    obtain rfl := List.mem_singleton.mp hspec
    exact hok.slot ▸ hok.count
  · intro i _
    have hinside := hok.inside
    have hfit := W.slotsFit d hok.destination
    have hbytes : Ring.bytesInto i (soloList s d l) ≤ l.depth * l.slot := by
      rw [hok.slot]
      simp only [soloList, Ring.bytesInto, Ring.bytesAt, Placement.total_singleton]
      split
      · exact Nat.le_refl _
      · exact Nat.zero_le _
    omega

theorem solo_isolated (W : Wired n safe ring) (hlane : W.lane s d = some l)
    (hsolo : Constructed n comm' (fun _ => soloList s d l) safe ring') :
    Isolated n ring ring' s d l := by
  have hok := W.lanes hlane
  have hs := hok.source
  have hlaid : Laid n safe (soloList s d l) ring' := hsolo.laid ⟨s, hs⟩
  have hmoved : Ring.laneOf [] ⟨s, d, l.depth, l.capacity⟩ = l.moved 0 0 := by
    simp only [Ring.laneOf, Lane.moved, Ring.bytesInto, Ring.lanesFrom,
      Placement.total_nil, hok.slot]
  have hlane' : (hlaid.wired hsolo.small).lane s d = some (l.moved 0 0) :=
    hlaid.lane_iff.mpr ⟨[], _, [], rfl, rfl, rfl, hmoved.symm⟩
  have honly : ∀ o, (hlaid.wired hsolo.small).lane o d ≠ none → o = s := by
    intro o ho
    obtain ⟨l', hl'⟩ := Option.ne_none_iff_exists'.mp ho
    obtain ⟨hsource, -, -⟩ := isLane_single (hlaid.lane_iff.mp hl')
    exact Int.ofNat.inj hsource.symm
  have hsound := lane_sound W _ hlane hlane' honly
  constructor
  · exact ((hlaid.wired hsolo.small).to_iff hs).mpr hlane'
  · intro xs hrun hinit
    obtain ⟨ys, hrun', hinit', hbeside⟩ := hsound.run hrun hinit
    exact ⟨ys, hrun', hinit', fun i => ⟨(hbeside i).shared.view, laneShadow_calls (hbeside i)⟩⟩
  · intro x t k c cont a w' hreach hthread hoff hexec
    obtain ⟨y, hy, hsame, hthreads⟩ := hsound.reach hreach
    have ht := hthreads t
    rw [hthread] at ht
    generalize hat' : y.threads t = b at ht
    cases ht with
    | alone hcall hp =>
      have hafter := hsound.aside hreach hy hthread hat' hcall hp.1 hsame hexec
      exact hafter.view.trans hsame.view.symm
    | both hcall hp =>
      obtain ⟨-, hon⟩ := laneShadow_some hcall
      rw [hoff] at hon
      contradiction

/-- **Lanes do not interfere.**  A lane of a ring can be configured alone.  Erase from any run of
    the ring the calls on all other lanes: what is left is a run of the ring of this lane alone,
    and at every moment the lane has the same slots, the same counter, the same sender state,
    cursor and mirror, and its calls have returned the same results. -/
theorem lanes_isolated (hring : Constructed n comm lists safe ring) (hs : s < n)
    (hat : (ring s).toLanes[d]? = some (some l)) :
    (∃ ring', Constructed n comm (fun _ => soloList s d l) safe ring') ∧
      ∀ comm' ring', Constructed n comm' (fun _ => soloList s d l) safe ring' →
        Isolated n ring ring' s d l := by
  obtain ⟨W⟩ := hring.wired
  have hlane := (W.to_iff hs).mp hat
  constructor
  · apply (constructed_iff hring.size hring.rank hring.admitted).mpr
    exact ⟨fun _ _ => .refl _, fun _ => soloList_accepted W hlane⟩
  · exact fun comm' ring' hsolo => solo_isolated W hlane hsolo

omit [Libraries] in
/-- The second of two lanes into rank 1, the first of which takes up 108 bytes. -/
theorem lanes_isolated_mesh : ∃ ring',
    Constructed 3 meshComm (fun _ => [⟨2, 1, 2, 16⟩]) true ring' ∧
      @Isolated libraries 3 (meshRing true) ring' 2 1 ⟨108, 2, 16, 44, 0⟩ := by
  let _ := libraries
  have hat : (meshRing true 2).toLanes[1]? = some (some ⟨108, 2, 16, 44, 0⟩) := rfl
  obtain ⟨⟨ring', hsolo⟩, hisolated⟩ := lanes_isolated (mesh_constructed true) (by decide) hat
  exact ⟨ring', hsolo, hisolated meshComm ring' hsolo⟩

end Lanes

end MpiRma
