/-
  MpiRma/Receipts.lean
  ====================
  **The results of the calls tell everything.**  When no call is under way, the results of all
  calls ever made say what was put on a lane, what was taken from it, and what the counters of
  its ranks hold.  A put lands as a whole image.
-/
import MpiRma.Progress
import Mathlib.Order.Lattice.Nat

namespace MpiRma

def newestOf (messages : Multiset Message) : Nat := (messages.map Message.sequence).sup

/-- What the results of the calls on a lane say of it. -/
structure LaneTold (safe : Bool) (s d : Nat) (w : World) : Prop where
  sent : ((w.process s).sent d).sent = (sendsOf s d w.log).card
  numbered : (sendsOf s d w.log).map Prod.fst = ↑(List.range' 1 (sendsOf s d w.log).card)
  seen : (w.process d).seen[s]? = some (newestOf (pollsOf s d w.log))
  once : (pollsOf s d w.log).map Message.entry ≤ sendsOf s d w.log
  lossless : safe = true → (pollsOf s d w.log).map Message.entry =
    (sendsOf s d w.log).filter fun e => e.1 ≤ newestOf (pollsOf s d w.log)

section Lanes

variable [Libraries] {n : Nat} {safe : Bool} {comm : Fin n → Comm} {lists : Fin n → List LaneSpec}
  {ring : Nat → Ring} {w : World} {s d : Nat} {l : Lane}

/-- The cursor is the newest sequence returned. -/
theorem Lawful.newest {W : Wired n safe ring} {faults : Faults} {log : List Event}
    (h : Lawful W faults log) :
    newestOf ↑(deliveredOf s d log) = cursorOf s d log := by
  cases hlane : W.lane s d with
  | none =>
    rw [cursorOf, h.delivered_none hlane]
    rfl
  | some l =>
    apply Nat.le_antisymm
    · apply Multiset.sup_le.mpr
      simp only [Multiset.map_coe, Multiset.mem_coe, List.mem_map]
      rintro q ⟨m, hm, rfl⟩
      exact ((h.returned hlane).bounds m hm).2
    · unfold cursorOf
      cases hlast : (deliveredOf s d log).getLast? with
      | none => exact Nat.zero_le _
      | some m =>
        apply Multiset.le_sup
        simp only [Multiset.map_coe, Multiset.mem_coe, List.mem_map]
        exact ⟨m, List.mem_of_getLast? hlast, rfl⟩

/-- What a safe lane returned is what was put on it, up to its cursor. -/
theorem Lawful.delivered_filter {W : Wired n true ring} {log : List Event}
    (h : Lawful W Faults.none log) (hlane : W.lane s d = some l) :
    ((deliveredOf s d log).map Message.entry).Perm
      ((putsOf s d log).filter fun e => e.1 ≤ cursorOf s d log) := by
  have hkeys : ((putsOf s d log).map Prod.fst).Nodup := by
    rw [h.puts_numbered rfl]
    exact List.nodup_range'
  have hnodup : ((deliveredOf s d log).map Message.entry).Nodup :=
    hkeys.of_map.sublist (h.delivered_sublist rfl hlane)
  refine (List.perm_ext_iff_of_nodup hnodup (hkeys.of_map.filter _)).mpr fun e => ?_
  simp only [List.mem_filter, decide_eq_true_eq]
  constructor
  · intro he
    obtain ⟨m, hm, rfl⟩ := List.mem_map.mp he
    exact ⟨h.delivered_put rfl hlane hm, ((h.returned hlane).bounds m hm).2⟩
  · rintro ⟨hput, hle⟩
    have hpos : 1 ≤ e.1 := by
      have hmem : e.1 ∈ (putsOf s d log).map Prod.fst := List.mem_map_of_mem hput
      rw [h.puts_numbered rfl] at hmem
      exact (List.mem_range'_1.mp hmem).1
    have hmem : e.1 ∈ (deliveredOf s d log).map Message.sequence := by
      rw [h.safe_delivered hlane]
      exact List.mem_range'_1.mpr ⟨hpos, by omega⟩
    obtain ⟨m, hm, hsequence⟩ := List.mem_map.mp hmem
    have hsame : m.entry = e :=
      List.inj_on_of_nodup_map hkeys (h.delivered_put rfl hlane hm) hput hsequence
    exact hsame ▸ List.mem_map_of_mem hm

theorem lane_told (W : Wired n safe ring)
    (hreach : (ringMachine n ring Faults.none).Reach (World.fresh n) (Machine.idle w))
    (hlane : W.lane s d = some l) : LaneTold safe s d w := by
  have hinv : RingInv W Faults.none w := reach_inv W rfl hreach
  have hok := W.lanes hlane
  have hnumbered := hinv.lawful.puts_numbered rfl (s := s) (d := d)
  have hcount : (putsOf s d w.log).length = topOf s d w.log := by
    simpa using congrArg List.length hnumbered
  have hnewest := hinv.lawful.newest (s := s) (d := d)
  constructor
  · rw [sends_puts W hreach, Multiset.coe_card, hcount, ← hinv.lawful.sent_eq_top rfl]
    exact ((hinv.lane s d l hlane).sent (rest_free hreach _)).sent
  · rw [sends_puts W hreach, Multiset.coe_card, hcount, Multiset.map_coe, hnumbered]
  · rw [polls_delivered W hreach, hnewest, (hinv.rank d hok.destination).seen]
    exact seenOf_get hok.source w.log
  · rw [sends_puts W hreach, polls_delivered W hreach]
    exact (hinv.lawful.delivered_sublist rfl hlane).subperm
  · rintro rfl
    rw [sends_puts W hreach, polls_delivered W hreach, hnewest, Multiset.map_coe,
      Multiset.filter_coe]
    exact Multiset.coe_eq_coe.mpr (hinv.lawful.delivered_filter hlane)

/-- `lost` is what the polls have passed over. -/
theorem lost_told (W : Wired n safe ring)
    (hreach : (ringMachine n ring Faults.none).Reach (World.fresh n) (Machine.idle w))
    (hd : d < n) : (w.process d).lost ≡
      ((List.range n).map fun s => newestOf (pollsOf s d w.log) - (pollsOf s d w.log).card).sum
      [MOD u64Max + 1] := by
  have hinv : RingInv W Faults.none w := reach_inv W rfl hreach
  have hrank := hinv.rank d hd
  have hlost := hrank.lost
  rw [hinv.lawful.lost_total.1 (hrank.closed (rest_free hreach _))] at hlost
  have hskipped : skippedSum n d w.log = ((List.range n).map fun s =>
      newestOf (pollsOf s d w.log) - (pollsOf s d w.log).card).sum := by
    apply congrArg List.sum
    apply List.map_congr_left
    intro s _
    rw [polls_delivered W hreach, hinv.lawful.newest, Multiset.coe_card]
    exact hinv.lawful.skipped_count
  exact hskipped ▸ hlost

/-- **With no call under way, the results of all calls tell what the ring did**: what was sent and
    received on each lane, the state of both its ranks, and what was lost.  A put lands as a whole
    image. -/
theorem results_tell_all (hring : Constructed n comm lists safe ring)
    (hreach : (ringMachine n ring Faults.none).Reach (World.fresh n) (Machine.idle w)) :
    (∀ s d l, s < n → (ring s).toLanes[d]? = some (some l) → LaneTold safe s d w) ∧
    ∀ d < n, (w.process d).lost ≡
      ((List.range n).map fun s => newestOf (pollsOf s d w.log) - (pollsOf s d w.log).card).sum
      [MOD u64Max + 1] := by
  obtain ⟨W⟩ := hring.wired
  constructor
  · intro s d l hs hat
    exact lane_told W hreach ((W.to_iff hs).mp hat)
  · intro d hd
    exact lost_told W hreach hd

omit [Libraries] in
theorem results_tell_all_queue : ∃ x w,
    @ringReplay libraries 2 (pairRing true 3 8) Faults.none queueSchedule = some x ∧
    (deliveredOf 0 1 x.shared.log).map Message.sequence = [1, 2, 3, 4] ∧
    Relation.ReflTransGen (@ringMachine libraries 2 (pairRing true 3 8) Faults.none).Advance x
      (Machine.idle w) ∧
    LaneTold true 0 1 w ∧
    (w.process 1).lost ≡ ((List.range 2).map fun s =>
      newestOf (pollsOf s 1 w.log) - (pollsOf s 1 w.log).card).sum [MOD u64Max + 1] := by
  let _ := libraries
  have hrun : (ringReplay 2 (pairRing true 3 8) Faults.none queueSchedule).map
      (fun c => (deliveredOf 0 1 c.shared.log).map Message.sequence) = some [1, 2, 3, 4] := by
    decide +kernel
  obtain ⟨x, hx, hdelivered⟩ := Option.map_eq_some_iff.mp hrun
  obtain ⟨w, hadvance⟩ := calls_complete (reach_replay hx)
  have hsteps : Relation.ReflTransGen (ringMachine 2 (pairRing true 3 8) Faults.none).Step x
      (Machine.idle w) := Relation.ReflTransGen.mono (fun _ _ h => h.1) _ _ hadvance
  obtain ⟨hlanes, hlost⟩ := results_tell_all (pair_three true) ((reach_replay hx).steps hsteps)
  exact ⟨x, w, hx, hdelivered, hadvance, hlanes 0 1 (pairLane 3 8) (by decide) rfl,
    hlost 1 (by decide)⟩

end Lanes

end MpiRma
