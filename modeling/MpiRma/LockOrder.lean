/-
  MpiRma/LockOrder.lean
  =====================
  **The mutexes of the ring.**  `ack` takes `seen` while it holds `acked`; nothing else
  is taken under another mutex.  So the ring keeps the lock order in which every
  `sent` and `seen` is below every `acked`, and no interleaving of its calls is stuck.
-/
import MpiRma.Locking
import MpiRma.Polling
import MpiRma.Replay

namespace MpiRma

open Code

/-! ### What the commands do with the mutexes -/

def RingCall.lockUse (rank : Nat) : RingCall → LockUse Mutex
  | .lockSent i => .acquire (.sent rank i)
  | .unlockSent i _ _ => .release (.sent rank i)
  | .lockSeen => .acquire (.seen rank)
  | .unlockSeen _ _ _ => .release (.seen rank)
  | .lockAcked => .acquire (.acked rank)
  | .unlockAcked _ _ => .release (.acked rank)
  | _ => .none

/-- Whether the answer to a `lock` is its guard: a poisoned mutex answers `none`. -/
def RingCall.grants : (c : RingCall) → c.Answer → Bool
  | .lockSent _, answer => Option.isSome answer
  | .lockSeen, answer => Option.isSome answer
  | .lockAcked, answer => Option.isSome answer
  | _, _ => false

/-- `seen` is taken under `acked`. -/
def Mutex.level : Mutex → Nat
  | .sent _ _ => 0
  | .seen _ => 0
  | .acked _ => 1

def ringLocking (n : Nat) : Locking RingCall RingCall.Answer World (Call n) Mutex where
  use call := RingCall.lockUse call.rank
  granted := RingCall.grants
  holder := World.holder
  level := Mutex.level

/-! ### The order of the code -/

section Order

variable [Libraries] {n : Nat} {call : Call n} {σ α : Type}

def LockFree (m : RingCode σ α) : Prop := m.Only fun c => ∀ rank, c.lockUse rank = .none

omit [Libraries] in
theorem LockFree.balanced {m : RingCode σ α} (h : LockFree m) (level : Nat) :
    (ringLocking n).CodeBalanced call level m :=
  fun v => .of_only ((h v).mono fun _ hc => hc call.rank)

omit [Libraries] in
theorem lockFree_of_receiving {m : RingCode σ α} (h : m.Only RingCall.receiving) : LockFree m := by
  intro v
  apply (h v).mono
  intro c hc rank
  cases c with
  | readLocal _ _ | readLocalVolatile _ _ | addLost _ | addCorrupt | maxLag _ => rfl
  | _ => exact hc.elim

omit [Libraries] in
theorem Window.lockFree_put (window : Window) (dest : Int) (disp : Nat) (data : Bytes) :
    LockFree (window.put dest disp data : RingCode σ Unit) := by
  refine Only.bind (Only.lift _) fun _ => Only.bind (Only.lift _) fun _ => ?_
  refine Only.bind (Only.perform (c := RingCall.put dest disp data) fun _ => rfl) fun _ => ?_
  exact Only.lift _

omit [Libraries] in
theorem Window.lockFree_fetchAdd (window : Window) (dest : Int) (disp value : Nat) :
    LockFree (window.fetchAdd dest disp value : RingCode σ Nat) := by
  refine Only.bind (Only.lift _) fun _ => ?_
  refine Only.bind (Only.perform (c := RingCall.fetchAdd dest disp value) fun _ => rfl) fun _ => ?_
  exact Only.lift _

omit [Libraries] in
theorem Ring.lockFree_acknowledged (R : Ring) (lane : Lane) (sent acked : Nat) :
    LockFree (R.acknowledged lane sent acked : RingCode σ Nat) := by
  unfold Ring.acknowledged
  split
  · exact Only.throw _
  · refine Only.bind (Only.bind (Only.lift _) fun _ =>
      Only.perform (c := RingCall.readCounter lane.ack) fun _ => rfl) fun value => ?_
    split
    · exact Only.throw _
    · split
      · exact Only.throw _
      · exact Only.pure _

omit [Libraries] in
theorem Ring.lockFree_gate (R : Ring) (lane : Lane) (sequence : Nat) :
    LockFree (R.gate lane sequence) := by
  unfold Ring.gate
  split
  · refine Only.bind Only.get fun outgoing => Only.bind (Only.lift _) fun ahead => ?_
    split
    · refine Only.bind (R.lockFree_acknowledged lane _ _) fun acked => ?_
      refine Only.bind (Only.set _) fun _ => Only.bind (Only.lift _) fun ahead => ?_
      split
      · exact Only.bind (Only.perform (c := RingCall.addFull) fun _ => rfl) fun _ => Only.throw _
      · exact Only.pure _
    · exact Only.pure _
  · exact Only.pure _

theorem Ring.lockFree_sendLocked (R : Ring) (destination : Int) (lane : Lane) (data : Bytes) :
    LockFree (R.sendLocked destination lane data) := by
  refine Only.bind Only.get fun outgoing => Only.bind (Only.lift _) fun sequence => ?_
  refine Only.bind (R.lockFree_gate lane sequence) fun _ => Only.bind Only.get fun outgoing => ?_
  refine Only.bind (Only.lift _) fun image => Only.bind (Only.set _) fun _ => ?_
  refine Only.bind (Only.lift _) fun position => Only.bind (Only.lift _) fun offset => ?_
  refine Only.bind (R.slots.lockFree_put destination offset image) fun _ => ?_
  exact Only.bind (Only.set _) fun _ => Only.pure _

omit [Libraries] in
/-- A mutex around code that leaves the mutexes alone. -/
theorem withSent_balanced {i : Nat} {body : RingCode Outgoing α} (h : LockFree body) :
    (ringLocking n).CodeBalanced call 1 (withSent i body : RingCode σ α) := by
  intro v
  unfold withSent
  apply Locking.Balanced.guarded (Λ := ringLocking n) (c := RingCall.lockSent i)
    (m := .sent call.rank i) rfl
    (u := fun r : Except Fail α × Outgoing => RingCall.unlockSent i r.2 (poisons r.1))
    (fun _ => rfl)
  intro answer
  cases answer with
  | none => exact ⟨_, rfl⟩
  | some outgoing => exact ⟨body outgoing, h.balanced 0 outgoing, rfl⟩

omit [Libraries] in
theorem withSeen_balanced {polled : Except Fail α → Option (Except Fail (List Message))}
    {body : RingCode (List Nat) α} (h : LockFree body) :
    (ringLocking n).CodeBalanced call 1 (withSeen polled body : RingCode σ α) := by
  intro v
  unfold withSeen
  apply Locking.Balanced.guarded (Λ := ringLocking n) (c := RingCall.lockSeen)
    (m := .seen call.rank) rfl
    (u := fun r : Except Fail α × List Nat =>
      RingCall.unlockSeen r.2 (poisons r.1) (polled r.1)) (fun _ => rfl)
  intro answer
  cases answer with
  | none => exact ⟨_, rfl⟩
  | some seen => exact ⟨body seen, h.balanced 0 seen, rfl⟩

omit [Libraries] in
/-- `acked` around code that may take `seen`. -/
theorem withAcked_balanced {body : RingCode (List Nat) α}
    (h : (ringLocking n).CodeBalanced call 1 body) :
    (ringLocking n).CodeBalanced call 2 (withAcked body : RingCode σ α) := by
  intro v
  unfold withAcked
  apply Locking.Balanced.guarded (Λ := ringLocking n) (c := RingCall.lockAcked)
    (m := .acked call.rank) rfl
    (u := fun r : Except Fail α × List Nat => RingCall.unlockAcked r.2 (poisons r.1))
    (fun _ => rfl)
  intro answer
  cases answer with
  | none => exact ⟨_, rfl⟩
  | some acked => exact ⟨body acked, h acked, rfl⟩

omit [Libraries] in
theorem lockFree_lift (x : Except Fail α) : LockFree (Code.lift x : RingCode σ α) := Only.lift x

theorem Ring.send_balanced (R : Ring) (destination : Int) (data : Bytes) :
    (ringLocking n).CodeBalanced call 1 (R.send destination data) := by
  refine .bind ((lockFree_lift _).balanced 1) fun i => ?_
  refine .bind ((lockFree_lift _).balanced 1) fun entry => ?_
  refine .bind ((lockFree_lift _).balanced 1) fun lane => ?_
  split
  · exact LockFree.balanced (Only.throw _) 1
  · refine .bind ((lockFree_lift _).balanced 1) fun _ => ?_
    exact withSent_balanced (R.lockFree_sendLocked destination lane data)

theorem Ring.poll_balanced (R : Ring) : (ringLocking n).CodeBalanced call 1 R.poll :=
  withSeen_balanced (lockFree_of_receiving (R.only_pollLanes _ _))

omit [Libraries] in
theorem Ring.ackLocked_balanced (acks : Window) (origin : Int) (lane : Lane) (sequence : Nat) :
    (ringLocking n).CodeBalanced call 1 (Ring.ackLocked acks origin lane sequence) := by
  refine .bind (LockFree.balanced Only.get 1) fun acked => ?_
  refine .bind ((lockFree_lift _).balanced 1) fun mirror => ?_
  split
  · exact LockFree.balanced (Only.pure _) 1
  · refine .bind (withSeen_balanced ?_) fun _ => ?_
    · refine Only.bind Only.get fun seen => Only.bind (Only.lift _) fun cursor => ?_
      split
      · exact Only.throw _
      · exact Only.pure _
    · refine .bind ((lockFree_lift _).balanced 1) fun delta => ?_
      refine .bind ((acks.lockFree_fetchAdd _ _ _).balanced 1) fun previous => ?_
      split
      · exact LockFree.balanced (Only.throw _) 1
      · exact LockFree.balanced (Only.set _) 1

omit [Libraries] in
theorem Ring.ack_balanced (R : Ring) (origin : Int) (sequence : Nat) :
    (ringLocking n).CodeBalanced call 2 (R.ack origin sequence) := by
  refine .bind ((lockFree_lift _).balanced 2) fun i => ?_
  split
  · exact LockFree.balanced (Only.pure _) 2
  · rename_i acks _
    refine .bind ((lockFree_lift _).balanced 2) fun entry => ?_
    refine .bind ((lockFree_lift _).balanced 2) fun lane => ?_
    exact withAcked_balanced (Ring.ackLocked_balanced acks origin lane sequence)

/-- Every call keeps the order. -/
theorem code_ordered (ring : Nat → Ring) (call : Call n) :
    (ringLocking n).Ordered call (Call.code ring call) ∅ := by
  have hbalanced : (ringLocking n).Balanced call 2 (Call.code ring call) := by
    unfold Call.code
    split
    · exact ((Ring.send_balanced _ _ _ ()).mono (by omega)).bind fun r => .ret _
    · exact ((Ring.poll_balanced _ ()).mono (by omega)).bind fun r => .ret _
    · exact (Ring.ack_balanced _ _ _ ()).bind fun r => .ret _
  exact hbalanced.ordered

end Order

/-! ### The machine -/

section Machine

variable {n : Nat} {faults : Faults} {t : Nat} {call : Call n} {w w' : World}

theorem World.lock_after {α : Type} {m : Mutex} {data : α} {answer : Option α}
    (h : w.lock t m data = some (answer, w')) : w.holder m = none ∧
      w'.holder = if answer.isSome then Function.update w.holder m (some t) else w.holder := by
  unfold World.lock at h
  split at h
  · rename_i hfree
    split at h
    · obtain ⟨rfl, rfl⟩ := Prod.mk.inj (Option.some.inj h)
      exact ⟨hfree, rfl⟩
    · obtain ⟨rfl, rfl⟩ := Prod.mk.inj (Option.some.inj h)
      exact ⟨hfree, rfl⟩
  · contradiction

theorem World.lock_free {α : Type} {m : Mutex} (data : α) (h : w.holder m = none) :
    ∃ answer w', w.lock t m data = some (answer, w') := by
  unfold World.lock
  rw [if_pos h]
  split
  · exact ⟨_, _, rfl⟩
  · exact ⟨_, _, rfl⟩

/-- A command changes the holders as its use of the mutexes says. -/
theorem exec_after {c : RingCall} {ending : Ending} {answer : c.Answer}
    (h : World.exec faults t call c ending w = some (answer, w')) :
    (c.lockUse call.rank).Ready t w.holder ∧
      w'.holder = (c.lockUse call.rank).after t (c.grants answer) w.holder := by
  unfold World.exec at h
  cases c with
  | lockSent i | lockAcked => exact World.lock_after h
  | lockSeen =>
    dsimp only at h
    split at h
    · contradiction
    · rename_i x w₁ hlocked
      obtain ⟨rfl, rfl⟩ := Prod.mk.inj (Option.some.inj h)
      obtain ⟨hfree, hafter⟩ := World.lock_after hlocked
      refine ⟨hfree, Eq.trans ?_ hafter⟩
      split
      · rfl
      · rfl
  | unlockSent i outgoing poison | unlockAcked acked poison =>
    dsimp only at h
    split at h
    · rename_i hmine
      obtain ⟨-, rfl⟩ := Prod.mk.inj (Option.some.inj h)
      exact ⟨hmine, rfl⟩
    · contradiction
  | unlockSeen seen poison polled =>
    dsimp only at h
    split at h
    · rename_i hmine
      obtain ⟨-, rfl⟩ := Prod.mk.inj (Option.some.inj h)
      cases polled with
      | none => exact ⟨hmine, rfl⟩
      | some result => exact ⟨hmine, rfl⟩
    · contradiction
  | readLocal disp len | readLocalVolatile disp len | readCounter disp | addLost count | addCorrupt
  | maxLag lag | addFull =>
    obtain ⟨-, rfl⟩ := Prod.mk.inj (Option.some.inj h)
    exact ⟨trivial, rfl⟩
  | put dest disp image | fetchAdd dest disp value =>
    dsimp only at h
    split at h
    · obtain ⟨-, rfl⟩ := Prod.mk.inj (Option.some.inj h)
      exact ⟨trivial, rfl⟩
    · split at h
      · obtain ⟨-, rfl⟩ := Prod.mk.inj (Option.some.inj h)
        exact ⟨trivial, rfl⟩
      · contradiction
    · split at h
      · obtain ⟨-, rfl⟩ := Prod.mk.inj (Option.some.inj h)
        exact ⟨trivial, rfl⟩
      · contradiction

/-- A command that need not wait for a mutex can happen. -/
theorem exec_ready {c : RingCall} (h : (c.lockUse call.rank).Ready t w.holder) :
    ∃ answer w', World.exec faults t call c .ok w = some (answer, w') := by
  unfold World.exec
  cases c with
  | lockSent i | lockAcked => exact World.lock_free _ h
  | lockSeen =>
    obtain ⟨answer, w', hlocked⟩ := World.lock_free (t := t) (w.process call.rank).seen h
    dsimp only
    rw [hlocked]
    exact ⟨_, _, rfl⟩
  | unlockSent i outgoing poison | unlockSeen seen poison polled | unlockAcked acked poison =>
    exact ⟨(), _, if_pos h⟩
  | readLocal disp len | readLocalVolatile disp len | readCounter disp | put dest disp image
  | fetchAdd dest disp value | addLost count | addCorrupt | maxLag lag | addFull =>
      exact ⟨_, _, rfl⟩

theorem ring_respects [Libraries] (ring : Nat → Ring) (faults : Faults) :
    (ringLocking n).Respects (ringMachine n ring faults) where
  ordered := code_ordered ring
  exec := by
    rintro t call c w answer w' ⟨ending, hexec⟩
    exact exec_after hexec
  ready := by
    intro t call c w hready
    have hexec : ∃ answer w', World.exec faults t call c .ok w = some (answer, w') :=
      exec_ready hready
    obtain ⟨answer, w', hexec⟩ := hexec
    exact ⟨answer, w', .ok, hexec⟩
  finish := fun _ _ _ _ => rfl

/-- **No interleaving of the calls is stuck**: whatever the rings and the faults, the calls under
    way in a reachable configuration can all be completed without any further call. -/
theorem calls_complete [Libraries] {ring : Nat → Ring}
    {x : Config RingCall RingCall.Answer World (Call n) Outcome}
    (h : (ringMachine n ring faults).Reach (World.fresh n) x) :
    ∃ w, Relation.ReflTransGen (ringMachine n ring faults).Advance x (Machine.idle w) :=
  (ring_respects ring faults).drains (fun _ => rfl) h

/-- A poll holds `seen`; an acknowledgement holds `acked` and waits for it, and another waits for
    that one. -/
def waitingSchedule : List (Move (Call 2) Ending) :=
  whole 0 pairSource (.send 1 [1]) ++ whole 1 pairDestination .poll ++
    [.call 1 ⟨pairDestination, .ack 0 1⟩, .commands 1 [.ok], .call 2 ⟨pairDestination, .poll⟩,
      .commands 2 [.ok, .ok], .call 3 ⟨pairDestination, .ack 0 1⟩]

theorem calls_complete_waiting : ∃ x,
    @ringReplay libraries 2 (pairRing true 3 8) Faults.none waitingSchedule = some x ∧
    x.shared.holder (.acked 1) = some 1 ∧ x.shared.holder (.seen 1) = some 2 ∧
    ∃ w, Relation.ReflTransGen (@ringMachine libraries 2 (pairRing true 3 8) Faults.none).Advance x
      (Machine.idle w) := by
  let _ := libraries
  have hrun : (ringReplay 2 (pairRing true 3 8) Faults.none waitingSchedule).map
      (fun x => (x.shared.holder (.acked 1), x.shared.holder (.seen 1))) =
      some (some 1, some 2) := by decide +kernel
  obtain ⟨x, hx, hholders⟩ := Option.map_eq_some_iff.mp hrun
  obtain ⟨hacked, hseen⟩ := Prod.mk.inj hholders
  exact ⟨x, hx, hacked, hseen, calls_complete (reach_replay hx)⟩

end Machine

end MpiRma
