/-
  MpiRma/Lifecycle.lean
  =====================
  **Whole lives of segments.**  Any number of processes create, open, read, detach, retire and
  drop segments, their steps interleaved in any way, with any call into the system failing.
  What a reader has opened is a published segment, whose bytes it reads until it detaches;
  and each handle hands back what it has, once, and nothing else.
-/
import MpiRma.Release
import MpiRma.Replay

namespace MpiRma

/-! ### Every run -/

theorem unborn_fresh (t : Nat) : Local.unborn.Of t Node.fresh := by
  refine ⟨rfl, rfl, rfl, rfl, rfl, rfl, ?_, ?_, ?_, rfl⟩
  · exact fun _ _ => ⟨nofun, nofun⟩
  · exact fun _ _ _ _ => ⟨nofun, nofun⟩
  · exact fun _ => ⟨nofun, nofun⟩

theorem segmentInv_fresh : SegmentInv Node.fresh where
  strays := rfl
  handles t := ⟨Local.unborn, unborn_fresh t, nofun, nofun, nofun, nofun⟩
  log := nofun

/-! ### A run -/

def revisionSeven : NonZeroU64 := ⟨7, by decide, by decide⟩

/-- A name is created, opened too early, opened, retired and created again. -/
def segmentSchedule : List (Move SegmentRequest OsEnding) :=
  [.call 0 (.create [47] revisionSeven [9, 8]), .commands 0 (List.replicate 4 (.ok 5)),
    .call 1 (.open [47] revisionSeven 2), .finish 1 (.ok 6), .finish 0 (.ok 5),
    .call 2 (.open [47] revisionSeven 2), .finish 2 (.ok 6), .call 0 .retire, .finish 0 (.ok 0),
    .call 3 (.create [47] revisionSeven []), .finish 3 (.ok 5), .call 2 .payload, .finish 2 (.ok 0),
    .call 2 .detach, .finish 2 (.ok 0), .call 2 .payload, .finish 2 (.ok 0),
    .call 3 .drop, .commands 3 [.ok 0]]

def segmentReplay (moves : List (Move SegmentRequest OsEnding)) :
    Option (Config OsCall OsCall.Answer Node SegmentRequest SegmentOutcome) :=
  segmentMachine.replay Node.exec moves (Machine.idle Node.fresh)

def segmentRun : Option (Config OsCall OsCall.Answer Node SegmentRequest SegmentOutcome) :=
  segmentReplay segmentSchedule

theorem node_exec (t : Nat) (call : SegmentRequest) (c : OsCall) (ending : OsEnding) (w : Node)
    (a : c.Answer) (w' : Node) (h : Node.exec t call c ending w = some (a, w')) :
    segmentMachine.exec t call c w a w' := ⟨ending, h⟩

theorem reach_segmentReplay {moves : List (Move SegmentRequest OsEnding)}
    {c : Config OsCall OsCall.Answer Node SegmentRequest SegmentOutcome}
    (h : segmentReplay moves = some c) : segmentMachine.Reach Node.fresh c :=
  Machine.reach_of_replay node_exec .refl h

section Runs

variable {x : Config OsCall OsCall.Answer Node SegmentRequest SegmentOutcome}

theorem reach_holds (hreach : segmentMachine.Reach Node.fresh x) :
    segmentDiscipline.Holds segmentMachine x :=
  Discipline.sound segment_verified segmentInv_fresh unborn_fresh hreach

theorem reach_segmentInv (hreach : segmentMachine.Reach Node.fresh x) : SegmentInv x.shared :=
  (reach_holds hreach).inv

/-! ### Readers -/

/-- **A reader opens completely published segments only**, and reads their bytes until it
    detaches. -/
theorem opens_published (hreach : segmentMachine.Reach Node.fresh x) {t : Nat} {name : Name}
    {revision : NonZeroU64} {length : Nat} {s : Segment}
    (hopened : (t, .open name revision length, .opened (.ok s)) ∈ x.shared.log) :
    ∃ o obj payload, x.shared.target t = some o ∧
      x.shared.origin o = some (.create name revision payload) ∧ payload.length = length ∧
      x.shared.objects o = some obj ∧ obj.Published revision payload ∧
      (∀ base m, x.shared.mappings base = some m → m.holder = t → m.object = o) ∧
      (∀ bytes, (t, .payload, .payload bytes) ∈ x.shared.log → bytes = payload) ∧
      ((t, .payload, .panicked) ∈ x.shared.log → x.shared.detached t = true) := by
  have hinv := reach_segmentInv hreach
  obtain ⟨o, obj, payload, htarget, hby, hlength⟩ := hinv.log _ _ _ hopened
  obtain ⟨-, horigin⟩ := hinv.objects hby.object
  refine ⟨o, obj, payload, htarget, horigin.trans (congrArg some hby.made), hlength, hby.object,
    hby.published, ?_, ?_, hinv.log t .payload .panicked⟩
  · rintro base ⟨holder, o', size, writable⟩ hbase rfl
    obtain ⟨v, hv, hsound⟩ := hinv.handles holder
    obtain ⟨htarget', -⟩ := hsound.mapping base o' size writable ((hv.mapping ..).mp hbase)
    rw [← hv.target, htarget] at htarget'
    exact (Option.some.inj htarget').symm
  · intro bytes hread
    obtain ⟨o', obj', name', revision', htarget', hby'⟩ := hinv.log _ _ _ hread
    obtain rfl := Option.some.inj (htarget.symm.trans htarget')
    obtain rfl := Option.some.inj (hby.object.symm.trans hby'.object)
    obtain ⟨-, -, rfl⟩ := SegmentRequest.create.inj (hby.made.symm.trans hby'.made)
    rfl

theorem opens_published_again : ∃ c, segmentRun = some c ∧
    (2, .payload, .payload [9, 8]) ∈ c.shared.log ∧
    ∃ o obj payload, c.shared.target 2 = some o ∧
      c.shared.origin o = some (.create [47] revisionSeven payload) ∧ payload.length = 2 ∧
      c.shared.objects o = some obj ∧ obj.Published revisionSeven payload ∧
      (∀ base m, c.shared.mappings base = some m → m.holder = 2 → m.object = o) ∧
      (∀ bytes, (2, .payload, .payload bytes) ∈ c.shared.log → bytes = payload) ∧
      ((2, .payload, .panicked) ∈ c.shared.log → c.shared.detached 2 = true) := by
  have hrun : segmentRun.map (fun c => decide ((2, .payload, .payload [9, 8]) ∈ c.shared.log ∧
      (2, .open [47] revisionSeven 2, .opened (.ok ⟨some 6, 66, [47], false, none⟩)) ∈
        c.shared.log)) =
      some true := by decide +kernel
  obtain ⟨c, hc, hmem⟩ := Option.map_eq_some_iff.mp hrun
  obtain ⟨hread, hopened⟩ := of_decide_eq_true hmem
  exact ⟨c, hc, hread, opens_published (reach_segmentReplay hc) hopened⟩

/-! ### Handing back -/

/-- What is true of a command `c` of handle `t` that takes the node from `w` to `w'`. -/
structure Careful (t : Nat) (c : OsCall) (w w' : Node) : Prop where
  refused : w.refused t = true → c.isOs = false
  unmaps : ∀ base size, c = .munmap base size → w.detached t = false ∧
    ∃ o writable, w.mappings base = some ⟨t, o, size, writable⟩
  unlinks : ∀ name, c = .shmUnlink name → w.unlinked t = false ∧ w.names name = some t ∧
    ∃ revision payload, w.origin t = some (.create name revision payload)
  loads : ∀ base offset, c = .load base offset →
    ∃ o size writable, w.mappings base = some ⟨t, o, size, writable⟩ ∧ offset < size
  others : ∀ u, u ≠ t → SegmentRely u w w'

structure Node.Clear (w : Node) (t : Nat) : Prop where
  descriptors : ∀ fd d, w.descriptors fd = some d → d.holder ≠ t
  mappings : ∀ base m, w.mappings base = some m → m.holder ≠ t
  names : ∀ name, w.names name ≠ some t

def SegmentOutcome.over : SegmentOutcome → Bool
  | .created (.error _) => true
  | .opened (.error _) => true
  | .dropped => true
  | _ => false

/-- Every next command is careful, and a handle is clear when it is over. -/
structure Released (x : Config OsCall OsCall.Answer Node SegmentRequest SegmentOutcome) : Prop where
  careful : ∀ t call c cont a w', x.threads t = some ⟨call, .op c cont⟩ →
    segmentMachine.exec t call c x.shared a w' → Careful t c x.shared w'
  clear : ∀ t call outcome, x.threads t = some ⟨call, .ret outcome⟩ → outcome.over = true →
    (Node.finish t call outcome x.shared).Clear t

/-- A command that was not written down is proper. -/
theorem proper_of_exec {t : Nat} {call : SegmentRequest} {c : OsCall} {ending : OsEnding}
    {w w' : Node} {a : c.Answer} (h : Node.exec t call c ending w = some (a, w'))
    (hstrays : w'.strays = []) : w.proper t c = true := by
  obtain ⟨⟨a', w₁⟩, -, hresult⟩ := Option.map_eq_some_iff.mp h
  by_contra hnot
  rw [if_neg hnot] at hresult
  obtain ⟨-, rfl⟩ := Prod.mk.inj hresult
  contradiction

theorem life_over {outcome : SegmentOutcome} (t : Nat) (call : SegmentRequest) (w : Node)
    (hover : outcome.over = true) :
    (Node.finish t call outcome w).life t = .failed ∨
    (Node.finish t call outcome w).life t = .dropped := by
  cases outcome with
  | created result | opened result =>
    cases result with
    | ok segment => cases hover
    | error e => exact .inl (Function.update_self ..)
  | dropped => exact .inr (Function.update_self ..)
  | _ => cases hover

/-- A handle that has nothing is clear. -/
theorem Local.Empty.clear {v : Local} {t : Nat} {w : Node} (h : v.Empty) (hv : v.Of t w) :
    w.Clear t where
  descriptors := by
    rintro fd ⟨holder, o⟩ hfd rfl
    have hfd := (hv.descriptor fd o).mp hfd
    rw [h.descriptor] at hfd
    contradiction
  mappings := by
    rintro base ⟨holder, o, size, writable⟩ hbase rfl
    have hbase := (hv.mapping base o size writable).mp hbase
    rw [h.mapping] at hbase
    contradiction
  names name hname := by
    have hname := (hv.link name).mp hname
    rw [h.link] at hname
    contradiction

theorem careful_of_proper {t : Nat} {c : OsCall} {w w' : Node} (hinv : SegmentInv w)
    (hproper : w.proper t c = true) (hothers : ∀ u, u ≠ t → SegmentRely u w w') :
    Careful t c w w' := by
  unfold Node.proper at hproper
  rw [Bool.and_eq_true] at hproper
  obtain ⟨hrefused, hown⟩ := hproper
  refine ⟨fun hr => ?_, ?_, ?_, ?_, hothers⟩
  · simpa [hr] using hrefused
  · rintro base size rfl
    obtain ⟨hdetached, hmapped⟩ := Bool.and_eq_true_iff.mp hown
    obtain ⟨⟨holder, o, size', writable⟩, hbase, hmine⟩ := (Option.any_eq_true _ _).mp hmapped
    obtain ⟨rfl, rfl⟩ : holder = t ∧ size' = size := by simpa using hmine
    exact ⟨by simpa using hdetached, o, writable, hbase⟩
  · rintro name rfl
    obtain ⟨hunlinked, hlinked⟩ := Bool.and_eq_true_iff.mp hown
    have hname : w.names name = some t := by simpa using hlinked
    obtain ⟨obj, revision, payload, hobj, hmade⟩ := hinv.names hname
    obtain ⟨-, horigin⟩ := hinv.objects hobj
    exact ⟨by simpa using hunlinked, hname, revision, payload, horigin.trans (congrArg some hmade)⟩
  · rintro base offset rfl
    obtain ⟨⟨holder, o, size, writable⟩, hbase, hmine⟩ := (Option.any_eq_true _ _).mp hown
    simp only [Bool.and_eq_true, beq_iff_eq, decide_eq_true_eq] at hmine
    obtain ⟨⟨⟨rfl, -⟩, hsize⟩, -⟩ := hmine
    exact ⟨o, size, writable, hbase, hsize⟩

/-- **Segments are released exactly once.** -/
theorem released_once (hreach : segmentMachine.Reach Node.fresh x) : Released x := by
  have hholds := reach_holds hreach
  have hinv := hholds.inv
  refine ⟨fun t call c cont a w' hat hexec => ?_, fun t call outcome hat hover => ?_⟩
  · obtain ⟨hinv', hothers, -⟩ := hholds.running t _ hat x.shared (.refl t _) hinv a w' hexec
    obtain ⟨ending, hexec⟩ := hexec
    exact careful_of_proper hinv (proper_of_exec hexec hinv'.strays) hothers
  · obtain ⟨-, -, hrest⟩ := hholds.running t _ hat x.shared (.refl t _) hinv
    -- Which of the two ways a handle is over is read off its life.
    have hrest : AtRest t (Node.finish t call outcome x.shared) := hrest
    unfold AtRest at hrest
    have hlife := life_over t call x.shared hover
    rcases hlife with hfailed | hdropped
    · rw [hfailed] at hrest
      obtain ⟨v, hv, hempty⟩ := hrest
      exact hempty.clear hv
    · rw [hdropped] at hrest
      obtain ⟨v, hv, hempty⟩ := hrest
      exact hempty.clear hv

end Runs

theorem released_once_again : ∃ c, segmentRun = some c ∧ (c.threads 3).isSome ∧ Released c := by
  have hrun : segmentRun.map (fun c => (c.threads 3).isSome) = some true := by decide +kernel
  obtain ⟨c, hc, hbusy⟩ := Option.map_eq_some_iff.mp hrun
  exact ⟨c, hc, hbusy, released_once (reach_segmentReplay hc)⟩

/-! ### Names and bytes -/

section Runs

variable {x : Config OsCall OsCall.Answer Node SegmentRequest SegmentOutcome}

/-- **What is published is what is read**: by the handle that created the segment, and by every
    handle that has opened it. -/
theorem published_read_back (hreach : segmentMachine.Reach Node.fresh x) {t : Nat} {name : Name}
    {revision : NonZeroU64} {payload : Bytes} {s : Segment}
    (hcreated : (t, .create name revision payload, .created (.ok s)) ∈ x.shared.log) :
    (∀ bytes, (t, .payload, .payload bytes) ∈ x.shared.log → bytes = payload) ∧
    ∀ u name' revision' length s',
      (u, .open name' revision' length, .opened (.ok s')) ∈ x.shared.log →
      x.shared.target u = some t → name' = name ∧ revision' = revision ∧ length = payload.length ∧
      ∀ bytes, (u, .payload, .payload bytes) ∈ x.shared.log → bytes = payload := by
  have hinv := reach_segmentInv hreach
  obtain ⟨obj, htarget, hby⟩ := hinv.log _ _ _ hcreated
  have hread : ∀ u, x.shared.target u = some t → ∀ bytes,
      (u, .payload, .payload bytes) ∈ x.shared.log → bytes = payload := by
    intro u hu bytes hmem
    obtain ⟨o, obj', name', revision', ho, hby'⟩ := hinv.log _ _ _ hmem
    obtain rfl := Option.some.inj (hu.symm.trans ho)
    obtain rfl := Option.some.inj (hby.object.symm.trans hby'.object)
    obtain ⟨-, -, rfl⟩ := SegmentRequest.create.inj (hby.made.symm.trans hby'.made)
    rfl
  refine ⟨hread t htarget, fun u name' revision' length s' hopened hu => ?_⟩
  obtain ⟨o, obj', payload', ho, hby', hlength⟩ := hinv.log _ _ _ hopened
  obtain rfl := Option.some.inj (hu.symm.trans ho)
  obtain rfl := Option.some.inj (hby.object.symm.trans hby'.object)
  obtain ⟨rfl, rfl, rfl⟩ := SegmentRequest.create.inj (hby.made.symm.trans hby'.made)
  exact ⟨rfl, rfl, hlength.symm, hread u hu⟩

theorem published_read_back_again : ∃ c, segmentRun = some c ∧
    (2, .payload, .payload [9, 8]) ∈ c.shared.log ∧
    (∀ bytes, (0, .payload, .payload bytes) ∈ c.shared.log → bytes = [9, 8]) ∧
    ∀ u name' revision' length s',
      (u, .open name' revision' length, .opened (.ok s')) ∈ c.shared.log →
      c.shared.target u = some 0 → name' = [47] ∧ revision' = revisionSeven ∧ length = 2 ∧
      ∀ bytes, (u, .payload, .payload bytes) ∈ c.shared.log → bytes = [9, 8] := by
  have hrun : segmentRun.map (fun c => decide ((2, .payload, .payload [9, 8]) ∈ c.shared.log ∧
      (0, .create [47] revisionSeven [9, 8], .created (.ok ⟨some 5, 66, [47], true, none⟩)) ∈
        c.shared.log)) = some true := by decide +kernel
  obtain ⟨c, hc, hmem⟩ := Option.map_eq_some_iff.mp hrun
  obtain ⟨hread, hcreated⟩ := of_decide_eq_true hmem
  exact ⟨c, hc, hread, published_read_back (reach_segmentReplay hc) hcreated⟩

/-- A handle between two calls has what its fields say. -/
theorem handle_at_rest (hreach : segmentMachine.Reach Node.fresh x) {t : Nat} {s : Segment}
    (hfree : x.threads t = none) (hheld : x.shared.life t = .held s) :
    ∃ v, Handle t s v x.shared := by
  have hrest : AtRest t x.shared := (reach_holds hreach).idle t hfree
  unfold AtRest at hrest
  rwa [hheld] at hrest

/-- **A name has one owner**: between its calls an owner's name leads to its own published
    object, so no two owners have one name. -/
theorem owner_of_name (hreach : segmentMachine.Reach Node.fresh x) {t : Nat} {s : Segment}
    (hfree : x.threads t = none) (hheld : x.shared.life t = .held s) (howner : s.owner = true) :
    x.shared.names s.name = some t ∧
    (∃ revision payload obj, PublishedBy x.shared t s.name revision payload obj) ∧
    ∀ u s', x.threads u = none → x.shared.life u = .held s' → s'.owner = true →
      s'.name = s.name → u = t := by
  have hnamed : ∀ u s', x.threads u = none → x.shared.life u = .held s' → s'.owner = true →
      x.shared.names s'.name = some u := by
    intro u s' hfree' hheld' howner'
    obtain ⟨v, h⟩ := handle_at_rest hreach hfree' hheld'
    apply (h.view.link s'.name).mpr
    rw [h.link, if_pos howner']
  have hmine := hnamed t s hfree hheld howner
  refine ⟨hmine, ?_, fun u s' hfree' hheld' howner' hname => ?_⟩
  · obtain ⟨v, h⟩ := handle_at_rest hreach hfree hheld
    obtain ⟨o, htarget, ⟨name, revision, payload, obj, hby, -⟩, -⟩ := h.mapping
    have hlink : v.link = some s.name := by
      rw [h.link, if_pos howner]
    have hsound := (reach_segmentInv hreach).sound h.view
    obtain ⟨-, obj', revision', payload', hobj', hmade⟩ := hsound.link s.name hlink
    obtain ⟨-, -, htarget'⟩ := hsound.object obj' hobj'
    obtain rfl := Option.some.inj (htarget.symm.trans htarget')
    obtain rfl := Option.some.inj (hby.object.symm.trans (h.view.object.trans hobj'))
    obtain ⟨rfl, rfl, rfl⟩ := SegmentRequest.create.inj (hby.made.symm.trans hmade)
    exact ⟨revision, payload, obj, hby⟩
  · have hother := hnamed u s' hfree' hheld' howner'
    rw [hname, hmine] at hother
    exact (Option.some.inj hother).symm

/-- After the first retirement the name has a second owner. -/
theorem owner_of_name_again : ∃ c, segmentReplay (segmentSchedule.take 17) = some c ∧
    c.shared.names [47] = some 3 ∧
    (∃ revision payload obj, PublishedBy c.shared 3 [47] revision payload obj) ∧
    ∀ u s', c.threads u = none → c.shared.life u = .held s' → s'.owner = true →
      s'.name = [47] → u = 3 := by
  have hrun : (segmentReplay (segmentSchedule.take 17)).map (fun c =>
      decide ((c.threads 3).isNone = true ∧
        c.shared.life 3 = .held ⟨some 5, 64, [47], true, none⟩)) = some true := by decide +kernel
  obtain ⟨c, hc, hmem⟩ := Option.map_eq_some_iff.mp hrun
  obtain ⟨hfree, hheld⟩ := of_decide_eq_true hmem
  exact ⟨c, hc, owner_of_name (reach_segmentReplay hc)
    (Option.isNone_iff_eq_none.mp hfree) hheld rfl⟩

/-- What a handle that is not in a call may have: what the fields it is held by say, or what its
    process left when it aborted. -/
def Accounted (w : Node) (t : Nat) (P : Segment → Prop) : Prop :=
  w.life t = .aborted ∨ ∃ s, w.life t = .held s ∧ P s

structure Accounts (w : Node) (t : Nat) : Prop where
  descriptors : ∀ fd o, w.descriptors fd = some ⟨t, o⟩ → Accounted w t fun _ => False
  mappings : ∀ base o size writable, w.mappings base = some ⟨t, o, size, writable⟩ →
    Accounted w t fun s => s.base = some base ∧ s.size = size
  names : ∀ name, w.names name = some t → Accounted w t fun s => s.owner = true ∧ s.name = name

theorem Node.Clear.accounts {w : Node} {t : Nat} (h : w.Clear t) : Accounts w t where
  descriptors fd o hfd := absurd rfl (h.descriptors fd ⟨t, o⟩ hfd)
  mappings base o size writable hbase := absurd rfl (h.mappings base ⟨t, o, size, writable⟩ hbase)
  names name hname := absurd hname (h.names name)

/-- **Everything on the node is accounted for**: a descriptor belongs to a call, a mapping and a
    name to a call or to the handle whose fields have it, or an abort left them. -/
theorem everything_accounted (hreach : segmentMachine.Reach Node.fresh x) {t : Nat}
    (hfree : x.threads t = none) : Accounts x.shared t := by
  have hrest : AtRest t x.shared := (reach_holds hreach).idle t hfree
  unfold AtRest at hrest
  split at hrest
  · exact (Local.Empty.clear ⟨rfl, rfl, rfl⟩ hrest).accounts
  · exact hrest.elim
  · rename_i s hlife
    obtain ⟨v, h⟩ := hrest
    refine ⟨fun fd o hfd => ?_, fun base o size writable hbase => .inr ⟨s, hlife, ?_⟩,
      fun name hname => .inr ⟨s, hlife, ?_⟩⟩
    · have hfd := (h.view.descriptor fd o).mp hfd
      rw [h.descriptor] at hfd
      contradiction
    · obtain ⟨o', -, -, writable', hmapping⟩ := h.mapping
      have hbase := (h.view.mapping base o size writable).mp hbase
      rw [hmapping] at hbase
      obtain ⟨base', hsome, heq⟩ := Option.map_eq_some_iff.mp hbase
      obtain ⟨rfl, -, rfl, -⟩ : base' = base ∧ o' = o ∧ s.size = size ∧ writable' = writable := by
        simpa using heq
      exact ⟨hsome, rfl⟩
    · have hname := (h.view.link name).mp hname
      rw [h.link] at hname
      split at hname
      · rename_i howner
        exact ⟨howner, Option.some.inj hname⟩
      · contradiction
  · obtain ⟨v, hv, hempty⟩ := hrest
    exact (hempty.clear hv).accounts
  · obtain ⟨v, hv, hempty⟩ := hrest
    exact (hempty.clear hv).accounts
  · rename_i hlife
    exact ⟨fun _ _ _ => .inl hlife, fun _ _ _ _ _ => .inl hlife, fun _ _ => .inl hlife⟩

theorem everything_accounted_again : ∃ c, segmentReplay (segmentSchedule.take 17) = some c ∧
    Accounts c.shared 3 := by
  have hrun : (segmentReplay (segmentSchedule.take 17)).map (fun c => (c.threads 3).isNone) =
      some true := by decide +kernel
  obtain ⟨c, hc, hfree⟩ := Option.map_eq_some_iff.mp hrun
  exact ⟨c, hc, everything_accounted (reach_segmentReplay hc) (Option.isNone_iff_eq_none.mp hfree)⟩

end Runs

end MpiRma
