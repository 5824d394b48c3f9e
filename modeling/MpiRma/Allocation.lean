/-
  MpiRma/Allocation.lean
  ======================
  **An allocation stage by stage.**  `allocate` is a gather of the ranks' configurations,
  the collective allocation, the local epoch, and a barrier; a rank whose epoch fails frees
  the window instead of meeting the barrier.  Each stage gets its normal form here, and the
  meetings of the ranks between two stages are determined.
-/
import MpiRma.Construction
import MpiRma.Lockstep

namespace MpiRma

open Construct

/-! ### The element types -/

def elements : List Element :=
  [⟨1, 1⟩, ⟨2, 2⟩, ⟨4, 3⟩, ⟨8, 4⟩, ⟨8, 5⟩, ⟨1, 6⟩, ⟨2, 7⟩, ⟨4, 8⟩, ⟨8, 9⟩, ⟨8, 10⟩,
    ⟨4, 11⟩, ⟨8, 12⟩]

theorem width_le {element : Element} (h : element ∈ elements) : element.width ≤ 8 := by
  revert element
  decide

theorem width_pos {element : Element} (h : element ∈ elements) : 0 < element.width := by
  revert element
  decide

/-! ### The stages of an allocation -/

/-- The rank exits before its first collective call. -/
def Refused (n : Nat) (comm : Comm) : Prop :=
  comm.inter = true ∨ comm.threading ≠ .multiple ∨ i32Max < 3 * n

theorem not_refused {n : Nat} {comm : Comm} (h : ¬ Refused n comm) :
    comm.inter = false ∧ comm.threading = .multiple ∧ 3 * n ≤ i32Max := by
  unfold Refused at h
  simp only [not_or, not_not, Nat.not_lt, Bool.not_eq_true] at h
  exact h

namespace Window

/-- What `allocate` does after the epoch was opened or not. -/
def allocatedWith (comm : Comm) (len : Nat) (lengths : List Nat) (answer : Except Int Base) :
    Construct Window := do
  let base ← Code.lift (check answer)
  let model ← orElse (initEpoch comm base len) (do let _ ← winFree base.win; pure ())
  barrier
  pure ⟨base.win, lengths, comm.rank, comm.size, model⟩

/-- What `allocate` does with the configurations of all ranks. -/
def allocateWith (comm : Comm) (element : Element) (len : Nat) (configs : List (List Nat)) :
    Construct Window :=
  let config := [len, element.width, element.typeId]
  if configs.any (fun c => c.drop 1 ≠ config.drop 1) then
    Code.throw (.window "element type differs between ranks")
  else
    let lengths := configs.map fun c => c.headD 0
    if lengths.any (fun len =>
        ((checkedMul usizeMax len element.width).bind (tryFrom aintMax)).isNone) then
      Code.throw .sizeOverflow
    else do
      let bytes ← Code.lift (okOr (checkedMul usizeMax len element.width) .sizeOverflow)
      let bytes ← Code.lift (okOr (tryFrom aintMax bytes) .sizeOverflow)
      let width ← Code.lift (okOr (tryFrom i32Max element.width) .sizeOverflow)
      let answer ← winAllocate bytes width
      allocatedWith comm len lengths answer

/-- An allocation begins with the gather of the configurations. -/
theorem allocate_eq {comm : Comm} {n : Nat} (element : Element) (len : Nat)
    (hsize : comm.size = n) (h : ¬ Refused n comm) :
    allocate comm element len () =
      .op (.allGather [len, element.width, element.typeId]) fun configs =>
        allocateWith comm element len (chunksExact 3 configs) () := by
  obtain ⟨hinter, hmultiple, hn⟩ := not_refused h
  unfold i32Max at hn
  have hthreading : ¬ comm.threading ≠ .multiple := not_not.mpr hmultiple
  have hpos : ¬ comm.size < 0 := by omega
  have hmul : checkedMul usizeMax comm.size.toNat 3 = some (comm.size.toNat * 3) :=
    checkedMul_eq_some.mpr ⟨by unfold usizeMax; omega, rfl⟩
  have hcount : ¬ i32Max < comm.size.toNat * 3 := by
    unfold i32Max
    omega
  unfold allocate
  rw [if_neg (by rw [hinter]; decide), if_neg hthreading]
  dsimp only [List.length_cons, List.length_nil]
  rw [if_neg hpos, Code.lift_ok_bind, hmul]
  dsimp only [okOr]
  rw [Code.lift_ok_bind, if_neg hcount]
  rfl

/-- Before any collective call an allocation fails where the communicator, the thread level
    or the number of ranks does not do. -/
theorem allocate_refused {comm : Comm} {n : Nat} (element : Element) (len : Nat)
    (hsize : comm.size = n) (h : Refused n comm) :
    ∃ e, allocate comm element len () = .ret (.error e, ()) := by
  unfold allocate
  by_cases hinter : comm.inter = true
  · rw [if_pos hinter]
    exact ⟨_, rfl⟩
  rw [if_neg hinter]
  by_cases hthreading : comm.threading ≠ .multiple
  · rw [if_pos hthreading]
    exact ⟨_, rfl⟩
  rw [if_neg hthreading]
  have hcount : i32Max < 3 * n := by
    rcases h with h | h | h
    · exact absurd h hinter
    · exact absurd h hthreading
    · exact h
  have hpos : ¬ comm.size < 0 := by omega
  dsimp only [List.length_cons, List.length_nil]
  rw [if_neg hpos, Code.lift_ok_bind]
  cases hmul : checkedMul usizeMax comm.size.toNat 3 with
  | none => exact ⟨_, rfl⟩
  | some configsLen =>
    obtain ⟨-, rfl⟩ := checkedMul_eq_some.mp hmul
    dsimp only [okOr]
    rw [Code.lift_ok_bind, if_pos (by omega)]
    exact ⟨_, rfl⟩

/-- The communicator or the thread level stops every rank at once. -/
theorem allocate_excluded {c : Comm} (element : Element) (len : Nat)
    (h : c.inter = true ∨ c.threading ≠ .multiple) :
    allocate c element len () = .ret (.error
      (if c.inter then .intercommunicator else .threading c.threading), ()) := by
  unfold allocate
  by_cases hinter : c.inter = true
  · rw [if_pos hinter, if_pos hinter]
    rfl
  · have hthreading : c.threading ≠ .multiple := by
      rcases h with h | h
      · exact absurd h hinter
      · exact h
    rw [if_neg hinter, if_neg hinter, if_pos hthreading]
    rfl

/-! ### The gathered configurations -/

section Gathered

variable {n : Nat} {element : Fin n → Element} {len : Fin n → Nat}

def configsOf (element : Fin n → Element) (len : Fin n → Nat) : List (List Nat) :=
  List.ofFn fun i => [len i, (element i).width, (element i).typeId]

theorem chunks_configsOf :
    chunksExact 3 (configsOf element len).flatten = configsOf element len := by
  apply chunksExact_flatten (by decide)
  intro row hrow
  obtain ⟨i, rfl⟩ := (List.mem_ofFn' _ _).mp hrow
  rfl

/-- A size does not fit. -/
theorem oversize_iff {len width : Nat} :
    ((checkedMul usizeMax len width).bind (tryFrom aintMax)).isNone = true ↔
      aintMax < len * width := by
  unfold checkedMul tryFrom
  by_cases husize : len * width ≤ usizeMax
  · rw [if_pos husize, Option.bind_some]
    by_cases haint : len * width ≤ aintMax
    · rw [if_pos haint]
      simp [haint]
    · rw [if_neg haint]
      simp only [Option.isNone_none, true_iff]
      omega
  · rw [if_neg husize]
    unfold usizeMax at husize
    unfold aintMax
    simp only [Option.bind_none, Option.isNone_none, true_iff]
    omega

variable {comm : Comm} {i : Fin n}

/-- Every rank notices when the types differ, whichever rank is the odd one out. -/
theorem allocateWith_differs {j k : Fin n} (h : element j ≠ element k) :
    allocateWith comm (element i) (len i) (configsOf element len) () =
      .ret (.error (.window "element type differs between ranks"), ()) := by
  have hother : ∃ j, element j ≠ element i := by
    by_cases hj : element j = element i
    · refine ⟨k, fun hk => h (hj.trans hk.symm)⟩
    · exact ⟨j, hj⟩
  obtain ⟨j, hj⟩ := hother
  unfold allocateWith
  dsimp only
  rw [if_pos]
  · rfl
  · rw [List.any_eq_true]
    refine ⟨_, (List.mem_ofFn' _ _).mpr ⟨j, rfl⟩, ?_⟩
    apply decide_eq_true
    intro hsame
    apply hj
    obtain ⟨hwidth, hid⟩ := List.cons.inj hsame
    cases hvalue : element j with
    | mk width typeId =>
      rw [hvalue] at hwidth hid
      cases hmine : element i with
      | mk width' typeId' =>
        rw [hmine] at hwidth hid
        exact congrArg₂ Element.mk hwidth (List.cons.inj hid).1

/-- The tables of a group with one element type. -/
theorem allocateWith_same (hsame : ∀ j, element j = element i) :
    allocateWith comm (element i) (len i) (configsOf element len) () =
      (if (List.ofFn len).any (fun len =>
          ((checkedMul usizeMax len (element i).width).bind (tryFrom aintMax)).isNone) then
        Code.throw .sizeOverflow
      else do
        let bytes ← Code.lift (okOr (checkedMul usizeMax (len i) (element i).width) .sizeOverflow)
        let bytes ← Code.lift (okOr (tryFrom aintMax bytes) .sizeOverflow)
        let width ← Code.lift (okOr (tryFrom i32Max (element i).width) .sizeOverflow)
        let answer ← winAllocate bytes width
        allocatedWith comm (len i) (List.ofFn len) answer : Construct Window) () := by
  have hlengths : (configsOf element len).map (fun c => c.headD 0) = List.ofFn len := by
    rw [configsOf, List.map_ofFn]
    rfl
  unfold allocateWith
  dsimp only
  rw [if_neg]
  · rw [hlengths]
  · rw [List.any_eq_true]
    rintro ⟨row, hrow, hdiffers⟩
    obtain ⟨j, rfl⟩ := (List.mem_ofFn' _ _).mp hrow
    apply of_decide_eq_true hdiffers
    show List.drop 1 [len j, (element j).width, (element j).typeId] = _
    rw [hsame j]
    rfl

/-- Every rank notices a length that does not fit, whichever rank passed it. -/
theorem allocateWith_oversize (hsame : ∀ j, element j = element i) {j : Fin n}
    (h : aintMax < len j * (element i).width) :
    allocateWith comm (element i) (len i) (configsOf element len) () =
      .ret (.error .sizeOverflow, ()) := by
  rw [allocateWith_same hsame, if_pos]
  · rfl
  · rw [List.any_eq_true]
    exact ⟨len j, (List.mem_ofFn' _ _).mpr ⟨j, rfl⟩, oversize_iff.mpr h⟩

/-- Otherwise every rank goes on to allocate. -/
theorem allocateWith_fits (hsame : ∀ j, element j = element i)
    (hwidth : (element i).width ≤ i32Max) (h : ∀ j, len j * (element i).width ≤ aintMax) :
    allocateWith comm (element i) (len i) (configsOf element len) () =
      .op (.winAllocate (len i * (element i).width) (element i).width) fun answer =>
        allocatedWith comm (len i) (List.ofFn len) answer () := by
  have hmine := h i
  have hmul : checkedMul usizeMax (len i) (element i).width = some (len i * (element i).width) := by
    apply checkedMul_eq_some.mpr
    refine ⟨?_, rfl⟩
    unfold aintMax at hmine
    unfold usizeMax
    omega
  rw [allocateWith_same hsame, if_neg]
  · rw [hmul]
    dsimp only [okOr]
    rw [Code.lift_ok_bind, tryFrom, if_pos hmine]
    dsimp only
    rw [Code.lift_ok_bind, tryFrom, if_pos hwidth]
    rfl
  · rw [List.any_eq_true]
    rintro ⟨length, hlength, hover⟩
    obtain ⟨j, rfl⟩ := (List.mem_ofFn' _ _).mp hlength
    have hfits := h j
    have hlarge := oversize_iff.mp hover
    omega

end Gathered

end Window

/-! ### The epoch of one rank -/

abbrev Own := (c : MpiCall) → c.Answer

def fine : Own
  | .allGather _ => ([] : List Nat)
  | .winAllocate _ _ => (.ok ⟨0, false⟩ : Except Int Base)
  | .winGetAttr _ => (.ok (some .unified) : Except Int (Option MemoryModel))
  | .winLockAll _ => (.ok () : Except Int Unit)
  | .winSync _ => (.ok () : Except Int Unit)
  | .winUnlockAll _ => (.ok () : Except Int Unit)
  | .winFree _ => (.ok () : Except Int Unit)
  | .barrier => ()

/-- Opening the epoch fails: a null base, no memory model, or a failing call. -/
def EpochFails (own : Own) (base : Base) (len : Nat) : Prop :=
  0 < len ∧ base.null = true ∨ (∀ model, own (.winGetAttr base.win) ≠ .ok (some model)) ∨
    (∃ code, own (.winLockAll base.win) = .error code) ∨
    own (.winGetAttr base.win) = .ok (some .separate) ∧
      ∃ code, own (.winSync base.win) = .error code

def FailsLocked (own : Own) (base : Base) (len : Nat) : Prop :=
  ¬ (0 < len ∧ base.null = true) ∧ own (.winGetAttr base.win) = .ok (some .separate) ∧
    own (.winLockAll base.win) = .ok () ∧ ∃ code, own (.winSync base.win) = .error code

/-- Whether the calls of a rank leave its access epoch open. -/
def epochOpen (trace : List MpiEvent) : Bool :=
  trace.foldl (fun isOpen e =>
    match e with
    | ⟨.winLockAll _, .ok _⟩ => true
    | ⟨.winUnlockAll _, .ok _⟩ => false
    | _ => isOpen) false

namespace Window

theorem only_initEpoch (comm : Comm) (base : Base) (len : Nat) :
    (initEpoch comm base len).Only fun c => c.collective = false := by
  unfold initEpoch
  split
  · apply Code.Only.throw
  · refine Code.Only.bind (Code.Only.perform (c := MpiCall.winGetAttr base.win) rfl) fun value => ?_
    refine Code.Only.bind (Code.Only.lift _) fun flagged => ?_
    refine Code.Only.bind (Code.Only.lift _) fun model => ?_
    refine Code.Only.bind (Code.Only.perform (c := MpiCall.winLockAll base.win) rfl)
      fun locked => ?_
    refine Code.Only.bind (Code.Only.lift _) fun _ => ?_
    split
    · refine Code.Only.bind (Code.Only.perform (c := MpiCall.winSync base.win) rfl) fun synced => ?_
      exact Code.Only.bind (Code.Only.lift _) fun _ => Code.Only.pure _
    · apply Code.Only.pure

/-- The end of `init_epoch`, after the synchronisation of a separate window. -/
def syncedWith (model : MemoryModel) (synced : Except Int Unit) : Construct MemoryModel := do
  Code.lift (check synced)
  pure model

/-- `init_epoch` after the lock. -/
def lockedWith (win : Nat) (model : MemoryModel) (locked : Except Int Unit) :
    Construct MemoryModel := do
  Code.lift (check locked)
  if model = .separate then
    let synced ← winSync win
    syncedWith model synced
  else
    pure model

/-- `init_epoch` after the attribute was read. -/
def epochWith (comm : Comm) (win : Nat) (value : Except Int (Option MemoryModel)) :
    Construct MemoryModel := do
  let flagged ← Code.lift (check value)
  let model ← Code.lift (okOr flagged (.mpi comm.errWin))
  let locked ← winLockAll win
  lockedWith win model locked

theorem initEpoch_eq {comm : Comm} {base : Base} {len : Nat}
    (h : ¬ (0 < len ∧ base.null = true)) :
    initEpoch comm base len () = .op (.winGetAttr base.win) fun value =>
      epochWith comm base.win value () := by
  unfold initEpoch
  rw [if_neg h]
  rfl

theorem epochWith_eq (comm : Comm) (win : Nat) (model : MemoryModel) :
    epochWith comm win (.ok (some model)) () =
      .op (.winLockAll win) fun locked => lockedWith win model locked () :=
  rfl

theorem lockedWith_separate (win : Nat) :
    lockedWith win .separate (.ok ()) () = .op (.winSync win) fun synced =>
      syncedWith .separate synced () :=
  rfl

/-- What a rank's own answers make of the epoch. -/
theorem initEpoch_trace (comm : Comm) (own : Own) (base : Base) (len : Nat) :
    (¬ EpochFails own base len ∧
        ∃ model, ((initEpoch comm base len ()).traceWith own).2 = (.ok model, ())) ∨
      EpochFails own base len ∧
        (∃ e, ((initEpoch comm base len ()).traceWith own).2 = (.error e, ())) ∧
        (epochOpen ((initEpoch comm base len ()).traceWith own).1 = true ↔
          FailsLocked own base len) := by
  by_cases hnull : 0 < len ∧ base.null = true
  · refine .inr ⟨.inl hnull, ?_, ?_⟩
    · unfold initEpoch
      rw [if_pos hnull]
      exact ⟨_, rfl⟩
    · unfold initEpoch
      rw [if_pos hnull]
      exact ⟨nofun, fun h => absurd hnull h.1⟩
  rw [initEpoch_eq hnull, Program.traceWith_cons]
  have hunlocked : ∀ trace : List MpiEvent, epochOpen trace = false →
      (∀ model, own (.winGetAttr base.win) = .ok (some model) →
        ∃ code, own (.winLockAll base.win) = .error code) →
      (epochOpen trace = true ↔ FailsLocked own base len) := by
    intro trace hclosed hfails
    constructor
    · intro hopen
      exact absurd (hopen.symm.trans hclosed) (by decide)
    · rintro ⟨-, hattr, hlock, -⟩
      obtain ⟨code, hcode⟩ := hfails _ hattr
      exact absurd (hlock.symm.trans hcode) (by simp)
  cases hattr : own (.winGetAttr base.win) with
  | error code =>
    have hnone : ∀ model, own (.winGetAttr base.win) ≠ .ok (some model) := by
      intro model h
      exact absurd (hattr.symm.trans h) (by simp)
    exact .inr ⟨.inr (.inl hnone), ⟨_, rfl⟩,
      hunlocked _ rfl fun model h => absurd h (hnone model)⟩
  | ok flagged =>
    cases flagged with
    | none =>
      have hnone : ∀ model, own (.winGetAttr base.win) ≠ .ok (some model) := by
        intro model h
        exact absurd (Except.ok.inj (hattr.symm.trans h)) (by simp)
      exact .inr ⟨.inr (.inl hnone), ⟨_, rfl⟩,
        hunlocked _ rfl fun model h => absurd h (hnone model)⟩
    | some model =>
      rw [epochWith_eq, Program.traceWith_cons]
      cases hlock : own (.winLockAll base.win) with
      | error code =>
        exact .inr ⟨.inr (.inr (.inl ⟨code, hlock⟩)), ⟨_, rfl⟩,
          hunlocked _ rfl fun _ _ => ⟨code, hlock⟩⟩
      | ok _ =>
        have hgood : ¬ EpochFails own base len ∨
            own (.winGetAttr base.win) = .ok (some .separate) ∧
              ∃ code, own (.winSync base.win) = .error code := by
          by_cases hsync : own (.winGetAttr base.win) = .ok (some .separate) ∧
            ∃ code, own (.winSync base.win) = .error code
          · exact .inr hsync
          · left
            rintro (h | h | ⟨code, h⟩ | h)
            · exact hnull h
            · exact h model hattr
            · exact absurd (hlock.symm.trans h) (by simp)
            · exact hsync h
        cases model with
        | unified =>
          rcases hgood with hgood | ⟨hseparate, -⟩
          · exact .inl ⟨hgood, _, rfl⟩
          · exact absurd (Option.some.inj (Except.ok.inj (hattr.symm.trans hseparate))) (by decide)
        | separate =>
          rw [lockedWith_separate, Program.traceWith_cons]
          cases hsync : own (.winSync base.win) with
          | error code =>
            refine .inr ⟨.inr (.inr (.inr ⟨hattr, code, hsync⟩)), ⟨_, rfl⟩, ?_⟩
            constructor
            · intro _
              exact ⟨hnull, hattr, hlock, code, hsync⟩
            · intro _
              rfl
          | ok _ =>
            rcases hgood with hgood | ⟨-, code, hcode⟩
            · exact .inl ⟨hgood, _, rfl⟩
            · exact absurd (hsync.symm.trans hcode) (by simp)

/-- A rank whose allocation succeeded goes on to the barrier, or frees the window. -/
theorem allocatedWith_ahead (comm : Comm) (own : Own) (base : Base) (len : Nat)
    (lengths : List Nat) :
    (¬ EpochFails own base len ∧ ∃ model trace,
        (allocatedWith comm len lengths (.ok base) ()).ahead MpiCall.collective own =
          (trace, .op .barrier fun _ =>
            .ret (.ok ⟨base.win, lengths, comm.rank, comm.size, model⟩, ()))) ∨
      EpochFails own base len ∧ ∃ e trace,
        (allocatedWith comm len lengths (.ok base) ()).ahead MpiCall.collective own =
          (trace, .op (.winFree base.win) fun _ => .ret (.error e, ())) ∧
        (epochOpen trace = true ↔ FailsLocked own base len) := by
  let rest : Except Error MemoryModel × Unit →
      Program MpiCall MpiCall.Answer (Except Error Window × Unit) := fun r =>
    match r with
    | (.ok model, _) => .op .barrier fun _ =>
        .ret (.ok ⟨base.win, lengths, comm.rank, comm.size, model⟩, ())
    | (.error e, _) => .op (.winFree base.win) fun _ => .ret (.error e, ())
  have hsplit : allocatedWith comm len lengths (.ok base) () =
      (initEpoch comm base len ()).bind rest := by
    unfold allocatedWith check
    rw [Code.lift_ok_bind]
    refine (Program.bind_assoc _ _ _).trans ?_
    apply congrArg
    funext r
    obtain ⟨_ | _, _⟩ := r
    · rfl
    · rfl
  rw [hsplit, Program.ahead_bind (only_initEpoch comm base len ())]
  rcases initEpoch_trace comm own base len with
    ⟨hok, model, hresult⟩ | ⟨hfails, ⟨e, hresult⟩, hopen⟩
  · refine .inl ⟨hok, model, ((initEpoch comm base len ()).traceWith own).1 ++ [], ?_⟩
    rw [hresult]
    rfl
  · refine .inr ⟨hfails, e, ((initEpoch comm base len ()).traceWith own).1, ?_, hopen⟩
    rw [hresult]
    show (_ ++ [], _) = _
    rw [List.append_nil]
    rfl

end Window

/-! ### Meetings of the ranks -/

/-- The collective operation a call is part of. -/
inductive Operation where
  | gather
  | allocate
  | free
  | barrier
  | own
deriving DecidableEq, Repr

def MpiCall.operation : MpiCall → Operation
  | .allGather _ => .gather
  | .winAllocate _ _ => .allocate
  | .winFree _ => .free
  | .barrier => .barrier
  | .winGetAttr _ => .own
  | .winLockAll _ => .own
  | .winSync _ => .own
  | .winUnlockAll _ => .own

abbrev Rank (α : Type) := Party MpiCall MpiCall.Answer (Except Error α × Unit)

abbrev Party.next {α : Type} (own : Own) (p : Rank α) : Rank α := p.ahead MpiCall.collective own

section Meetings

variable {n : Nat} {α : Type} {own : Fin n → Own} {joint : (Fin n → MpiEvent) → Prop}
  {P P' : Fin n → Rank α}

/-- Ranks at a collective call stay there. -/
theorem waiting {p : Rank α} {c : MpiCall}
    {k : c.Answer → Program MpiCall MpiCall.Answer (Except Error α × Unit)} (own : Own)
    (hat : p.rest = .op c k) (h : c.collective = true) : p.next own = p :=
  Party.ahead_op hat h

/-- Ranks that wait in a gather can only get the rows of all ranks. -/
theorem meets_gather (hjoint : ∀ row, joint row → MpiCall.Joint row) {rows : Fin n → List Nat}
    {k : Fin n → List Nat → Construct α}
    (hat : ∀ i, (P i).rest = .op (.allGather (rows i)) fun answer => k i answer ())
    (hrow : joint fun i => ⟨.allGather (rows i), (List.ofFn rows).flatten⟩) :
    Meets MpiCall.collective own joint P P' ↔ P' = fun i =>
      ⟨(P i).trace ++ [⟨.allGather (rows i), (List.ofFn rows).flatten⟩],
        k i (List.ofFn rows).flatten ()⟩ := by
  have hstay : ∀ i, (P i).ahead MpiCall.collective (own i) = P i :=
    fun i => waiting (own i) (hat i) rfl
  have hrest : ∀ i, ((P i).ahead MpiCall.collective (own i)).rest =
      .op (.allGather (rows i)) fun answer => k i answer () := by
    intro i
    rw [hstay i]
    exact hat i
  constructor
  · intro h
    obtain ⟨a, hgather, rfl⟩ := h.inv hrest
    obtain ⟨-, hanswer⟩ := (hjoint _ hgather).gathered fun i => rfl
    funext i
    rw [hstay i, hanswer i]
  · rintro rfl
    have hmeets : Meets MpiCall.collective own joint P _ :=
      .mk (fun i => MpiCall.allGather (rows i)) (fun i answer => k i answer ())
        (fun _ => (List.ofFn rows).flatten) hrest hrow
    simp only [hstay] at hmeets
    exact hmeets

/-- Ranks that wait in an allocation are answered one by one. -/
theorem meets_allocate {bytes width : Fin n → Nat} {k : Fin n → Except Int Base → Construct α}
    (hat : ∀ i, (P i).rest = .op (.winAllocate (bytes i) (width i)) fun answer => k i answer ()) :
    Meets MpiCall.collective own joint P P' ↔ ∃ answer : Fin n → Except Int Base,
      joint (fun i => ⟨.winAllocate (bytes i) (width i), answer i⟩) ∧
      P' = fun i => ⟨(P i).trace ++ [⟨.winAllocate (bytes i) (width i), answer i⟩],
        k i (answer i) ()⟩ := by
  have hstay : ∀ i, (P i).ahead MpiCall.collective (own i) = P i :=
    fun i => waiting (own i) (hat i) rfl
  have hrest : ∀ i, ((P i).ahead MpiCall.collective (own i)).rest =
      .op (.winAllocate (bytes i) (width i)) fun answer => k i answer () := by
    intro i
    rw [hstay i]
    exact hat i
  constructor
  · intro h
    obtain ⟨answer, hrow, rfl⟩ := h.inv hrest
    refine ⟨answer, hrow, ?_⟩
    funext i
    rw [hstay i]
  · rintro ⟨answer, hrow, rfl⟩
    have hmeets : Meets MpiCall.collective own joint P _ :=
      .mk (fun i => MpiCall.winAllocate (bytes i) (width i)) (fun i answer => k i answer ())
        answer hrest hrow
    simp only [hstay] at hmeets
    exact hmeets

/-- The ranks are at the end of a run on which all of them failed alike. -/
theorem inStep_returned {r : Except Error α × Unit}
    (h : ∀ i, (P i).rest = .ret r) : InStep MpiCall.collective own MpiCall.operation P := by
  left
  intro i
  refine ⟨r, ?_⟩
  rw [Party.ahead_ret (h i)]
  exact h i

/-- All ranks wait in collective calls of one kind. -/
theorem inStep_waiting {c : Fin n → MpiCall} (kind : Operation)
    {k : ∀ i, (c i).Answer → Program MpiCall MpiCall.Answer (Except Error α × Unit)}
    (h : ∀ i, (P i).rest = .op (c i) (k i)) (hc : ∀ i, (c i).collective = true)
    (hkind : ∀ i, (c i).operation = kind) :
    InStep MpiCall.collective own MpiCall.operation P := by
  right
  refine ⟨kind, ?_⟩
  intro i
  refine ⟨c i, k i, ?_, hkind i⟩
  rw [Party.ahead_op (h i) (hc i)]
  exact h i

end Meetings

/-! ### The group up to the allocation -/

def allocating {n : Nat} (comm : Fin n → Comm) (element : Fin n → Element) (len : Fin n → Nat)
    (i : Fin n) : Rank Window :=
  ⟨[], Window.allocate (comm i) (element i) (len i) ()⟩

def gathered {n : Nat} (comm : Fin n → Comm) (element : Fin n → Element) (len : Fin n → Nat)
    (i : Fin n) : Rank Window :=
  ⟨[⟨.allGather [len i, (element i).width, (element i).typeId],
      (Window.configsOf element len).flatten⟩],
    Window.allocateWith (comm i) (element i) (len i) (Window.configsOf element len) ()⟩

section Group

variable {n : Nat} {comm : Fin n → Comm} {own : Fin n → Own} {joint : (Fin n → MpiEvent) → Prop}
  {P : Fin n → Rank Window}

theorem allocating_rest (element : Fin n → Element) (len : Fin n → Nat)
    (hsize : ∀ i, (comm i).size = n) {i : Fin n} (h : ¬ Refused n (comm i)) :
    (allocating comm element len i).rest =
      .op (.allGather [len i, (element i).width, (element i).typeId]) fun configs =>
        Window.allocateWith (comm i) (element i) (len i) (chunksExact 3 configs) () :=
  Window.allocate_eq (element i) (len i) (hsize i) h

/-- From the start the ranks can only meet in the gather. -/
theorem allocating_meets (element : Fin n → Element) (len : Fin n → Nat)
    (hjoint : ∀ row, joint row → MpiCall.Joint row)
    (hrow : joint fun i => ⟨.allGather [len i, (element i).width, (element i).typeId],
      (Window.configsOf element len).flatten⟩)
    (hsize : ∀ i, (comm i).size = n) (h : ∀ i, ¬ Refused n (comm i)) :
    Meets MpiCall.collective own joint (allocating comm element len) P ↔
      P = gathered comm element len := by
  have hat : ∀ i, (allocating comm element len i).rest =
      .op (.allGather [len i, (element i).width, (element i).typeId]) fun configs =>
        Window.allocateWith (comm i) (element i) (len i) (chunksExact 3 configs) () :=
    fun i => allocating_rest element len hsize (h i)
  rw [meets_gather hjoint hat hrow]
  have hgathered : gathered comm element len = fun i =>
      ⟨(allocating comm element len i).trace ++
        [⟨.allGather [len i, (element i).width, (element i).typeId],
          (Window.configsOf element len).flatten⟩],
        Window.allocateWith (comm i) (element i) (len i)
          (chunksExact 3 (Window.configsOf element len).flatten) ()⟩ := by
    funext i
    unfold gathered
    rw [Window.chunks_configsOf]
    rfl
  rw [hgathered]
  rfl

end Group

end MpiRma
