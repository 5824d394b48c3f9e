/-
  MpiRma/Accounting.lean
  ======================
  **The accounting of a poll holds for any memory.**  One poll runs alone while every read
  of the slot window answers arbitrary bytes, reads of one slot may disagree.  Whatever it
  is shown, a poll that returns messages has advanced each lane's cursor by exactly the
  messages it returned for the lane and what it added to `lost`.
-/
import MpiRma.Observed
import MpiRma.Replay

namespace MpiRma

/-! ### The lanes a rank polls -/

/-- The lanes into rank `d`, by ascending origin. -/
def Wired.into {n : Nat} {safe : Bool} {ring : Nat → Ring} (W : Wired n safe ring) (d : Nat) :
    List (Nat × Lane) :=
  (List.range n).filterMap fun s => (W.lane s d).map fun l => (s, l)

namespace Wired

variable {n : Nat} {safe : Bool} {ring : Nat → Ring} (W : Wired n safe ring) {d : Nat}

theorem mem_into {o : Nat} {l : Lane} : (o, l) ∈ W.into d ↔ W.lane o d = some l := by
  simp only [into, List.mem_filterMap, List.mem_range, Option.map_eq_some_iff, Prod.mk.injEq]
  constructor
  · rintro ⟨s, -, l', hl', rfl, rfl⟩
    exact hl'
  · intro h
    exact ⟨o, (W.lanes h).source, l, h, rfl, rfl⟩

theorem into_sorted : (W.into d).Pairwise fun a b => a.1 < b.1 := by
  unfold into
  rw [List.pairwise_filterMap]
  refine List.pairwise_lt_range.imp fun {a b} hab x hx y hy => ?_
  obtain ⟨l, -, rfl⟩ := Option.map_eq_some_iff.mp hx
  obtain ⟨l', -, rfl⟩ := Option.map_eq_some_iff.mp hy
  exact hab

theorem lanesOk : LanesOk (W.into d) where
  distinct := W.into_sorted.imp Nat.ne_of_lt
  slot := by
    rintro ⟨o, l⟩ hmem
    have hok := W.lanes (W.mem_into.mp hmem)
    have hge := hok.slot_ge
    refine ⟨?_, hok.depth⟩
    show WORD < l.slot
    omega

theorem incomingLanes (hd : d < n) : Incoming (ring d) n d W.slotLength W.ackLength (W.into d) where
  kept o l hmem := by
    have h := W.mem_into.mp hmem
    rw [W.fromLanes d hd o (W.lanes h).source, h]
  ok o l hmem := W.lanes (W.mem_into.mp hmem)

theorem incoming_into (hd : d < n) :
    (ring d).incoming = (W.into d).map fun p => (p.1 : Int) := by
  rw [W.incoming d hd, into]
  induction List.range n with
  | nil => rfl
  | cons s rest ih =>
    cases h : W.lane s d with
    | none =>
      rw [List.filter_cons_of_neg (by simp [h]), List.filterMap_cons_none (by simp [h]), ih]
    | some l =>
      rw [List.filter_cons_of_pos (by simp [h]),
        List.filterMap_cons_some (b := (s, l)) (by simp [h]),
        List.map_cons, List.map_cons, ih]

/-- Sums over the lanes of a rank are sums over all ranks, where the others count nothing. -/
theorem sum_into (f : Nat → Nat) (hf : ∀ o < n, W.lane o d = none → f o = 0) :
    ((W.into d).map fun p => f p.1).sum = ((List.range n).map f).sum := by
  have hmem : ∀ o ∈ List.range n, W.lane o d = none → f o = 0 := fun o ho =>
    hf o (List.mem_range.mp ho)
  unfold into
  generalize List.range n = ranks at hmem
  induction ranks with
  | nil => rfl
  | cons s rest ih =>
    have hrest := ih fun o ho => hmem o (by simp [ho])
    cases h : W.lane s d with
    | none =>
      rw [List.filterMap_cons_none (by simp [h]), List.map_cons, List.sum_cons,
        hmem s (by simp) h, Nat.zero_add, hrest]
    | some l =>
      rw [List.filterMap_cons_some (b := (s, l)) (by simp [h]), List.map_cons, List.map_cons,
        List.sum_cons, List.sum_cons, hrest]

theorem max_into (f : Nat → Nat) (hf : ∀ o < n, W.lane o d = none → f o = 0) (m : Nat) :
    ((W.into d).map fun p => f p.1).foldl max m = ((List.range n).map f).foldl max m := by
  have hmem : ∀ o ∈ List.range n, W.lane o d = none → f o = 0 := fun o ho =>
    hf o (List.mem_range.mp ho)
  unfold into
  generalize List.range n = ranks at hmem
  induction ranks generalizing m with
  | nil => rfl
  | cons s rest ih =>
    have hrest := fun m => ih m fun o ho => hmem o (by simp [ho])
    cases h : W.lane s d with
    | none =>
      rw [List.filterMap_cons_none (by simp [h]), List.map_cons, List.foldl_cons,
        hmem s (by simp) h, Nat.max_zero, hrest]
    | some l =>
      rw [List.filterMap_cons_some (b := (s, l)) (by simp [h]), List.map_cons, List.map_cons,
        List.foldl_cons, List.foldl_cons, hrest]

end Wired

/-! ### A poll against arbitrary memory -/

/-- The commands of thread `t` running `call` alone, where reads of the slot window answer
    arbitrary bytes of the right length. -/
def arbitraryReads {n : Nat} (t : Nat) (call : Call n) :
    (c : RingCall) → World → c.Answer → World → Prop
  | .readLocal disp len, w, bytes, w' =>
    bytes.length = len ∧ w' = w.record (.read call.rank disp bytes)
  | .readLocalVolatile disp len, w, bytes, w' =>
    bytes.length = len ∧ w' = w.record (.read call.rank disp bytes)
  | c, w, answer, w' => ∃ ending, World.exec Faults.none t call c ending w = some (answer, w')

theorem observes_arbitrary {n : Nat} {t : Nat} {call : Call n} {c : RingCall} {w w' : World}
    {answer : c.Answer} (h : arbitraryReads t call c w answer w') :
    Observes call.rank c w answer w' := by
  have hapart : Apart call.rank w w := ⟨Extends.refl _ _, rfl, rfl⟩
  cases c with
  | readLocal disp len => exact ⟨w, hapart, h.1, h.2⟩
  | readLocalVolatile disp len => exact ⟨w, hapart, h.1, h.2⟩
  | addLost count =>
    obtain ⟨_, hexec⟩ := h
    exact ⟨w, hapart, (Prod.mk.inj (Option.some.inj hexec)).2.symm⟩
  | addCorrupt =>
    obtain ⟨_, hexec⟩ := h
    exact ⟨w, hapart, (Prod.mk.inj (Option.some.inj hexec)).2.symm⟩
  | maxLag lag =>
    obtain ⟨_, hexec⟩ := h
    exact ⟨w, hapart, (Prod.mk.inj (Option.some.inj hexec)).2.symm⟩
  | _ => trivial

/-- What a poll did at one lane: `amount` is what it added to `lost` for the lane, and the
    copies lie between the logs `before` and `after`. -/
structure LaneAccount [Libraries] (d : Nat) (safe : Bool) (l : Lane) (cursor cursor' amount : Nat)
    (before after : List Event) (messages : List Message) : Prop where
  ascending : messages.Pairwise fun a b => a.sequence < b.sequence
  above : ∀ m ∈ messages, cursor < m.sequence
  last : cursor' = (messages.getLast?.map Message.sequence).getD cursor
  count : cursor' = cursor + messages.length + amount
  copied : ∀ m ∈ messages, m.data.length ≤ l.capacity ∧ CopyOf d l before after ⟨m.sequence, m.data⟩
  consecutive : safe = true → amount = 0 ∧
    messages.map Message.sequence = List.range' (cursor + 1) messages.length

theorem TurnOf.account [Libraries] {d : Nat} {safe : Bool} {lanes : List (Nat × Lane)} {o : Nat}
    {l : Lane} {seen seen' : List Nat} {before after : List Event} {messages : List Message}
    (hdepth : 0 < l.depth) (h : TurnOf d safe lanes o l seen seen' before after messages) :
    ∃ cursor cursor', seen[o]? = some cursor ∧ seen'[o]? = some cursor' ∧
      LaneAccount d safe l cursor cursor'
        (seen'.getD o 0 - seen.getD o 0 - (fromOrigin o messages).length) before after
        (fromOrigin o messages) := by
  obtain ⟨cursor, cursor', a, b, frames, hc, hc', hdrain, hmessages, hbefore, hafter⟩ := h
  have hclimb := hdrain.climb
  have hcount := hclimb.count
  have hD : seen.getD o 0 = cursor ∧ seen'.getD o 0 = cursor' := by
    rw [List.getD_eq_getElem?_getD, List.getD_eq_getElem?_getD, hc, hc']
    exact ⟨rfl, rfl⟩
  refine ⟨cursor, cursor', hc, hc', ?_⟩
  rw [hmessages, hD.1, hD.2, List.length_map]
  refine ⟨?_, fun m hm => ?_, ?_, ?_, fun m hm => ?_, fun hsafe => ?_⟩
  · exact List.pairwise_map.mpr hclimb.ascending
  · obtain ⟨f, hf, rfl⟩ := List.mem_map.mp hm
    exact (hclimb.bounds f hf).1
  · rw [hclimb.last, cursorAfter, List.getLast?_map, Option.map_map]
    rfl
  · rw [List.length_map]
    omega
  · obtain ⟨f, hf, rfl⟩ := List.mem_map.mp hm
    have hcopy := hdrain.copies hdepth f hf
    obtain ⟨_, _, _, _, _, _, _, hframe⟩ := hdrain.copies hdepth f hf
    exact ⟨(Ring.frameOf_some hframe).2.2.2.1, hcopy.mono hbefore.suffix hafter.suffix⟩
  · subst hsafe
    obtain ⟨hsequences, hlast⟩ := hdrain.consecutive
    refine ⟨by omega, ?_⟩
    rw [List.map_map, List.length_map]
    exact hsequences

structure PollAccounts [Libraries] (n d : Nat) (safe : Bool) (ring : Nat → Ring)
    (amount : Nat → Nat)
    (w w' : World) (messages : List Message) : Prop where
  lanes : ∀ o l, (ring d).fromLanes[o]? = some (some l) →
    ∃ cursor cursor', (w.process d).seen[o]? = some cursor ∧
      (w'.process d).seen[o]? = some cursor' ∧
      LaneAccount d safe l cursor cursor' (amount o) w.log w'.log (fromOrigin o messages)
  origins : ∀ m ∈ messages, ∃ o l, m.origin = ((o : Nat) : Int) ∧
    (ring d).fromLanes[o]? = some (some l)
  others : ∀ o, (∀ l, (ring d).fromLanes[o]? ≠ some (some l)) →
    (w'.process d).seen[o]? = (w.process d).seen[o]? ∧ amount o = 0
  lost : (w'.process d).lost ≡ (w.process d).lost + ((List.range n).map amount).sum
    [MOD u64Max + 1]
  maxLag : (w'.process d).maxLag = ((List.range n).map fun o =>
    (w'.process d).seen.getD o 0 - (w.process d).seen.getD o 0).foldl max (w.process d).maxLag

/-- A poll that takes the `seen` lock works on the stored vector. -/
theorem lockSeen_poll {n : Nat} {faults : Faults} {t : Nat} {d : Fin n} {ending : Ending}
    {w w' : World} {seen : List Nat}
    (h : World.exec faults t ⟨d, .poll⟩ .lockSeen ending w = some (some seen, w')) :
    seen = (w.process d).seen ∧ w.holder (.seen d) = none ∧ w.poisoned (.seen d) = false ∧
      w' = (w.take t (.seen d)).record (.polling d) := by
  unfold World.exec World.lock at h
  dsimp only at h
  split at h
  · exact nomatch h
  · rename_i answer w₁ hlock
    split at hlock
    · rename_i hfree
      split at hlock
      · obtain ⟨rfl, rfl⟩ := Prod.mk.inj (Option.some.inj hlock)
        exact nomatch (Prod.mk.inj (Option.some.inj h)).1
      · rename_i hpoison
        obtain ⟨rfl, rfl⟩ := Prod.mk.inj (Option.some.inj hlock)
        obtain ⟨hseen, rfl⟩ := Prod.mk.inj (Option.some.inj h)
        exact ⟨(Option.some.inj hseen).symm, hfree, by simpa using hpoison, by simp⟩
    · exact nomatch hlock

/-- The end of a poll: the vector is stored, the lock dropped, and the result written down. -/
theorem unlockSeen_poll {n : Nat} {faults : Faults} {t : Nat} {call : Call n} {ending : Ending}
    {w w' : World} {seen : List Nat} {poison : Bool} {result : Except Fail (List Message)}
    {u : Unit}
    (h : World.exec faults t call (.unlockSeen seen poison (some result)) ending w =
      some (u, w')) :
    w.holder (.seen call.rank) = some t ∧
      w' = ((w.modify call.rank fun p => { p with seen := seen }).drop (.seen call.rank)
        poison).record (.polled call.rank result) := by
  unfold World.exec at h
  dsimp only at h
  split at h
  · rename_i hheld
    exact ⟨hheld, ((Prod.mk.inj (Option.some.inj h)).2).symm⟩
  · exact nomatch h

/-- **A poll keeps its accounting for arbitrary memory.**  Whatever each read of the slot
    window answers, when a poll returns messages every lane's cursor has advanced by the
    number of its messages plus what was added to `lost` for it. -/
theorem poll_accounts [Libraries] {n : Nat} {comm : Fin n → Comm} {lists : Fin n → List LaneSpec}
    {safe : Bool} {ring : Nat → Ring} (hring : Constructed n comm lists safe ring) (d : Fin n)
    (t : Nat) {w w' : World} {messages : List Message} (hseen : (w.process d).seen.length = n)
    (hrun : (Call.code ring ⟨d, .poll⟩).Runs (arbitraryReads t ⟨d, .poll⟩) w
      (.polled (.ok messages)) w') :
    ∃ amount, PollAccounts n d safe ring amount w w' messages := by
  obtain ⟨W⟩ := hring.wired
  obtain ⟨r, w₁, hpoll, hret, rfl⟩ := Program.runs_bind.mp hrun
  obtain ⟨answer, w₂, ⟨_, hlock⟩, hpoll⟩ := hpoll
  cases answer with
  | none =>
    obtain ⟨rfl, rfl⟩ := hpoll
    exact nomatch hret
  | some seen =>
    obtain ⟨result, w₃, hbody, hunlock⟩ := Program.runs_bind.mp hpoll
    obtain ⟨_, w₄, ⟨_, hunlock⟩, rfl, rfl⟩ := hunlock
    obtain ⟨rfl, -, -, rfl⟩ := lockSeen_poll hlock
    have hunlock := unlockSeen_poll hunlock
    have hcontract : ∀ (c : RingCall) (Q : c.Answer → World → Prop) w, observed d c Q w →
        Program.Contract.ofSem (arbitraryReads t ⟨d, .poll⟩) c Q w :=
      fun c Q w h a w' hsem => h a w' (observes_arbitrary hsem)
    have hwp : ((ring d).pollLanes (ring d).incoming [] (w.process d).seen).wp (observed d)
        (fun r w' => ∃ polled seen' lags stop,
          PollRun d safe (W.into d) (w.process d).seen (.polling d :: w.log)
            polled seen' w'.log lags
            stop ∧
          Counted d ((w.take t (.seen d)).record (.polling d)) w' ∧
          (w'.process d).maxLag = lags.foldl max (w.process d).maxLag ∧
          r = polledLanes polled seen' stop)
        ((w.take t (.seen d)).record (.polling d)) := by
      rw [W.incoming_into d.isLt]
      exact pollLanes_runs (W.receives d.isLt) (W.incomingLanes d.isLt) hseen
        fun polled seen' lags stop w' h₁ h₂ h₃ => ⟨polled, seen', lags, stop, h₁, h₂, h₃, rfl⟩
    obtain ⟨polled, seen', lags, stop, hrun, hcounted, hlag, rfl⟩ :=
      Program.wp_runs (Program.wp_contract (Program.Contract.ofSem_monotone _) hcontract hwp) hbody
    cases stop with
    | some lap => exact nomatch hret
    | none =>
      obtain rfl : messages = polled := by
        injection hret with hret
        exact Except.ok.inj hret
      have hsum := hrun.sum rfl W.lanesOk
      obtain ⟨-, rfl⟩ := hunlock
      have hempty : ∀ o, (∀ l, (ring d).fromLanes[o]? ≠ some (some l)) →
        ∀ p ∈ W.into d, p.1 ≠ o := by
        rintro o hnone ⟨o', l⟩ hmem rfl
        exact hnone l ((W.from_iff d.isLt).mpr (W.mem_into.mp hmem))
      have hnothing : ∀ o < n, W.lane o d = none → ∀ p ∈ W.into d, p.1 ≠ o := by
        rintro o - hnone ⟨o', l⟩ hmem rfl
        rw [W.mem_into.mp hmem] at hnone
        exact nomatch hnone
      have hstill : ∀ o, (∀ p ∈ W.into d, p.1 ≠ o) →
          seen'.getD o 0 - (w.process d).seen.getD o 0 = 0 := by
        intro o hno
        rw [List.getD_eq_getElem?_getD, List.getD_eq_getElem?_getD, (hsum.others o hno).1,
          Nat.sub_self]
      refine ⟨fun o => seen'.getD o 0 - (w.process d).seen.getD o 0 -
        (fromOrigin o messages).length, fun o l hat => ?_, fun m hm => ?_,
          fun o hnone => ?_, ?_, ?_⟩
      · have hmem := W.mem_into.mpr ((W.from_iff d.isLt).mp hat)
        have hturn := hsum.turns o l hmem
        obtain ⟨cursor, cursor', hc, hc', haccount⟩ := hturn.account (W.lanesOk.slot _ hmem).2
        refine ⟨cursor, cursor', hc, ?_, { haccount with copied := fun m hm => ?_ }⟩
        · simpa [World.modify, World.drop, World.record, polledLanes] using hc'
        · obtain ⟨hlen, hcopy⟩ := haccount.copied m hm
          exact ⟨hlen, hcopy.mono (List.suffix_cons _ _) (List.suffix_cons _ _)⟩
      · obtain ⟨⟨o, l⟩, hmem, horigin⟩ := hsum.origins m hm
        exact ⟨o, l, horigin, (W.from_iff d.isLt).mpr (W.mem_into.mp hmem)⟩
      · obtain ⟨hsame, hmessages⟩ := hsum.others o (hempty o hnone)
        refine ⟨?_, ?_⟩
        · simpa [World.modify, World.drop, World.record, polledLanes] using hsame
        · rw [hstill o (hempty o hnone), Nat.zero_sub]
      · have hlost := hsum.lost
        rw [W.sum_into (fun o => seen'.getD o 0 - (w.process d).seen.getD o 0 -
          (fromOrigin o messages).length) fun o ho hnone => by
            rw [hstill o (hnothing o ho hnone), Nat.zero_sub]] at hlost
        have hcongr : (w₃.process d).lost + lostSum d (.polling d :: w.log) ≡
            (w.process d).lost + lostSum d w₃.log [MOD u64Max + 1] := hcounted
        rw [hlost, Nat.add_left_comm, Nat.add_comm (w₃.process d).lost] at hcongr
        have := Nat.ModEq.add_left_cancel' _ hcongr
        simpa [World.modify, World.drop, World.record] using this
      · rw [hsum.lags, W.max_into (fun o => seen'.getD o 0 - (w.process d).seen.getD o 0)
          fun o ho hnone => hstill o (hnothing o ho hnone)] at hlag
        simpa [World.modify, World.drop, World.record, polledLanes] using hlag

/-! ### A memory that contradicts itself -/

def imageMemory [Libraries] (sequence : Nat) (data : Bytes) : Memory UInt8 :=
  Memory.write (fun _ => 0) 0
    (((Ring.buildImage (pairLane 3 8) [] sequence data).toOption).getD [])

/-- Probes are shown sequence 4 in the first slot, and copies of it sequence 7. -/
def twoFaced [Libraries] (c : RingCall) (w : World) : Option (c.Answer × World) :=
  match c with
  | .readLocalVolatile disp len =>
    some ((imageMemory 4 [1, 2]).read disp len,
      w.record (.read 1 disp ((imageMemory 4 [1, 2]).read disp len)))
  | .readLocal disp len =>
    some ((imageMemory 7 [3]).read disp len,
      w.record (.read 1 disp ((imageMemory 7 [3]).read disp len)))
  | c => World.exec Faults.none 0 ⟨pairDestination, .poll⟩ c .ok w

theorem twoFaced_arbitrary [Libraries] (c : RingCall) (w : World) (answer : c.Answer) (w' : World)
    (h : twoFaced c w = some (answer, w')) :
    arbitraryReads 0 ⟨pairDestination, .poll⟩ c w answer w' := by
  cases c with
  | readLocal disp len | readLocalVolatile disp len =>
    obtain ⟨rfl, rfl⟩ := Prod.mk.inj (Option.some.inj h)
    exact ⟨Memory.length_read _ _ _, rfl⟩
  | _ => exact ⟨.ok, h⟩

theorem poll_accounts_twoFaced : ∃ w' amount,
    @PollAccounts libraries 2 1 false (pairRing false 3 8) amount (World.fresh 2) w'
      [⟨0, 7, [3]⟩] := by
  let _ := libraries
  have hrun : ((Call.code (pairRing false 3 8) ⟨pairDestination, .poll⟩).complete twoFaced
      (World.fresh 2)).map (fun r => r.1.messages) = some (some [⟨0, 7, [3]⟩]) := by decide +kernel
  obtain ⟨⟨outcome, w'⟩, hcomplete, hmessages⟩ := Option.map_eq_some_iff.mp hrun
  have houtcome : outcome = .polled (.ok [⟨0, 7, [3]⟩]) := Outcome.messages_eq_some hmessages
  have hruns := Program.complete_runs twoFaced_arbitrary hcomplete
  rw [houtcome] at hruns
  exact ⟨w', poll_accounts (pair_three false) pairDestination 0 rfl hruns⟩

end MpiRma
