/-
  MpiRma/Access.lean
  ==================
  **Window accesses of any element type (`window.rs`).**  Every access validates its range
  against the length of the rank it targets; what it does then is a command.  The ranks of
  an allocation come together to one of two ends: all return one error, or all allocate
  with the same table of lengths, and an access through that table is admitted exactly
  when it stays inside the allocation of its target.
-/
import MpiRma.Allocation
import MpiRma.Ring

namespace MpiRma

/-! ### Accesses as programs -/

/-- What an access does once it is admitted. -/
inductive WindowCall (α : Type) where
  | copyNonoverlapping (disp len : Nat)
  | readVolatile (disp : Nat)
  | mpiPut (dest disp : Int) (count : Nat) (data : List α)
  | mpiGet (source disp : Int) (count : Nat)
  | mpiFetchAndOp (dest disp : Int) (value : α)
  | winFlush (rank : Int)
deriving DecidableEq, Repr

/-- Local reads answer elements, MPI calls an error code or what they transferred. -/
def WindowCall.Answer {α : Type} : WindowCall α → Type
  | .copyNonoverlapping _ _ => List α
  | .readVolatile _ => α
  | .mpiPut _ _ _ _ => Except Int Unit
  | .mpiGet _ _ _ => Except Int (List α)
  | .mpiFetchAndOp _ _ _ => Except Int α
  | .winFlush _ => Except Int Unit

/-- `as MPI_Aint`. -/
def asAint (a : Nat) : Int := (a : Int).bmod 18446744073709551616

namespace Access

variable {α σ : Type}

abbrev Accessing (α σ β : Type) := Code (WindowCall α) WindowCall.Answer σ Fail β

def copyNonoverlapping (disp len : Nat) : Accessing α σ (List α) :=
  Code.perform (WindowCall.copyNonoverlapping disp len)
def readVolatile (disp : Nat) : Accessing α σ α := Code.perform (WindowCall.readVolatile disp)
def mpiPut (dest disp : Int) (count : Nat) (data : List α) : Accessing α σ (Except Int Unit) :=
  Code.perform (WindowCall.mpiPut dest disp count data)
def mpiGet (source disp : Int) (count : Nat) : Accessing α σ (Except Int (List α)) :=
  Code.perform (WindowCall.mpiGet source disp count)
def mpiFetchAndOp (dest disp : Int) (value : α) : Accessing α σ (Except Int α) :=
  Code.perform (WindowCall.mpiFetchAndOp dest disp value)
def winFlush (rank : Int) : Accessing α σ (Except Int Unit) :=
  Code.perform (WindowCall.winFlush rank)

/-- `Window::read_local`. -/
def readLocal (window : Window) (disp len : Nat) : Accessing α σ (List α) := do
  Code.lift (window.validate window.rank disp len)
  if len = 0 then
    pure []
  else
    copyNonoverlapping disp len

/-- The loop of `read_local_volatile`, from element `i` on. -/
def readEach (disp i : Nat) : Nat → Accessing α σ (List α)
  | 0 => pure []
  | len + 1 => do
    let value ← readVolatile (disp + i)
    let values ← readEach disp (i + 1) len
    pure (value :: values)

/-- `Window::read_local_volatile`. -/
def readLocalVolatile (window : Window) (disp len : Nat) : Accessing α σ (List α) := do
  Code.lift (window.validate window.rank disp len)
  readEach disp 0 len

/-- `Window::put`. -/
def put (window : Window) (dest : Int) (disp : Nat) (data : List α) : Accessing α σ Unit := do
  Code.lift (window.validate dest disp data.length)
  let count ← Code.lift (okOr (tryFrom i32Max data.length) (.error .countOverflow))
  let sent ← mpiPut dest (asAint disp) count data
  Code.lift (Window.mpiResult sent)
  let flushed ← winFlush dest
  Code.lift (Window.mpiResult flushed)

/-- `Window::get`. -/
def get (window : Window) (source : Int) (disp len : Nat) : Accessing α σ (List α) := do
  Code.lift (window.validate source disp len)
  let count ← Code.lift (okOr (tryFrom i32Max len) (.error .countOverflow))
  let received ← mpiGet source (asAint disp) count
  let data ← Code.lift (Window.mpiResult received)
  let flushed ← winFlush source
  Code.lift (Window.mpiResult flushed)
  pure data

/-- `Window::fetch_add`. -/
def fetchAdd (window : Window) (dest : Int) (disp : Nat) (value : α) : Accessing α σ α := do
  Code.lift (window.validate dest disp 1)
  let fetched ← mpiFetchAndOp dest (asAint disp) value
  let previous ← Code.lift (Window.mpiResult fetched)
  let flushed ← winFlush dest
  Code.lift (Window.mpiResult flushed)
  pure previous

end Access

/-! ### The accesses of a ring -/

section Lowered

variable {σ : Type} {v : σ} {window : Window}

/-- A put of the ring is a put on a window of bytes. -/
theorem put_lowered {h : (c : RingCall) → Program (WindowCall UInt8) WindowCall.Answer c.Answer}
    (hput : ∀ dest disp data, h (.put dest disp data) =
      .op (.mpiPut dest (asAint disp) data.length data) fun (sent : Except Int Unit) =>
        match sent with
        | .ok _ => .op (.winFlush dest) .ret
        | .error code => .ret (.error code)) (dest : Int) (disp : Nat) (data : Bytes) :
    (Window.put window dest disp data v).lower h = Access.put window dest disp data v := by
  unfold Window.put Access.put
  cases window.validate dest disp data.length with
  | error e => rfl
  | ok _ =>
    rw [Code.lift_ok_bind, Code.lift_ok_bind]
    cases hcount : tryFrom i32Max data.length with
    | none => rfl
    | some count =>
      have hlength : count = data.length := by
        unfold tryFrom at hcount
        split at hcount
        · exact (Option.some.inj hcount).symm
        · contradiction
      subst hlength
      show (h (.put dest disp data)).bind _ = _
      rw [hput]
      apply congrArg (Program.op _)
      funext sent
      cases sent with
      | error code => rfl
      | ok _ =>
        apply congrArg (Program.op _)
        funext flushed
        cases flushed with
        | error code => rfl
        | ok _ => rfl

/-- A read of the ring is a read of a window of bytes. -/
theorem readLocal_lowered
    {h : (c : RingCall) → Program (WindowCall UInt8) WindowCall.Answer c.Answer}
    (hread : ∀ disp len, h (.readLocal disp len) = .op (.copyNonoverlapping disp len) .ret)
    (disp len : Nat) :
    (window.readLocal disp len v).lower h = Access.readLocal window disp len v := by
  unfold Window.readLocal Access.readLocal
  cases window.validate window.rank disp len with
  | error e => rfl
  | ok _ =>
    rw [Code.lift_ok_bind, Code.lift_ok_bind]
    cases len with
    | zero => rfl
    | succ len =>
      show (h (.readLocal disp (len + 1))).bind _ = _
      rw [hread]
      rfl

/-- A fetch-and-add of the ring is one on a window of counters. -/
theorem fetchAdd_lowered {h : (c : RingCall) → Program (WindowCall Nat) WindowCall.Answer c.Answer}
    (hfetch : ∀ dest disp value, h (.fetchAdd dest disp value) =
      .op (.mpiFetchAndOp dest (asAint disp) value) fun (fetched : Except Int Nat) =>
        match fetched with
        | .ok previous => .op (.winFlush dest) fun (flushed : Except Int Unit) =>
          match flushed with
          | .ok _ => .ret (.ok previous)
          | .error code => .ret (.error code)
        | .error code => .ret (.error code)) (dest : Int) (disp value : Nat) :
    (window.fetchAdd dest disp value v).lower h = Access.fetchAdd window dest disp value v := by
  unfold Window.fetchAdd Access.fetchAdd
  cases window.validate dest disp 1 with
  | error e => rfl
  | ok _ =>
    rw [Code.lift_ok_bind, Code.lift_ok_bind]
    show (h (.fetchAdd dest disp value)).bind _ = _
    rw [hfetch]
    apply congrArg (Program.op _)
    funext fetched
    cases fetched with
    | error code => rfl
    | ok previous =>
      apply congrArg (Program.op _)
      funext flushed
      cases flushed with
      | error code => rfl
      | ok _ => rfl

end Lowered

/-! ### Which accesses are admitted -/

/-- The range lies in the allocation of the rank. -/
def Inside {n : Nat} (len : Fin n → Nat) (rank : Int) (disp count : Nat) : Prop :=
  ∃ i : Fin n, (i.val : Int) = rank ∧ disp + count ≤ len i

/-- The access returns an error and does nothing. -/
def Rejected {α β : Type} (access : Access.Accessing α Unit β) : Prop :=
  ∃ e, access () = .ret (.error (.error e), ())

/-- The access goes on to MPI with this command. -/
def Issues {α β : Type} (access : Access.Accessing α Unit β) (c : WindowCall α) : Prop :=
  ∃ k, access () = .op c k

def WindowCall.ReadsBelow {α : Type} (len : Nat) : WindowCall α → Prop
  | .copyNonoverlapping disp count => disp + count ≤ len
  | .readVolatile disp => disp < len
  | _ => False

/-- The volatile reads of the elements from `disp` on, answered one by one. -/
def volatileReads {α : Type} (disp : Nat) : List α → List ((c : WindowCall α) × c.Answer)
  | [] => []
  | value :: values => ⟨.readVolatile disp, value⟩ :: volatileReads (disp + 1) values

/-- The window of rank `me` admits exactly the accesses that stay inside their target, and an
    admitted access goes to exactly the range it names. -/
structure AdmitsInside {n : Nat} (len : Fin n → Nat) (me : Fin n) (width : Nat)
    (window : Window) : Prop where
  put : ∀ {α : Type} (dest : Int) (disp : Nat) (data : List α),
    (Rejected (Access.put window dest disp data) ↔
      ¬ (Inside len dest disp data.length ∧ data.length ≤ i32Max)) ∧
    (Inside len dest disp data.length ∧ data.length ≤ i32Max →
      Issues (Access.put window dest disp data) (.mpiPut dest disp data.length data))
  get : ∀ {α : Type} (source : Int) (disp count : Nat),
    (Rejected (Access.get window source disp count : Access.Accessing α Unit (List α)) ↔
      ¬ (Inside len source disp count ∧ count ≤ i32Max)) ∧
    (Inside len source disp count ∧ count ≤ i32Max →
      Issues (Access.get window source disp count : Access.Accessing α Unit (List α))
        (.mpiGet source disp count))
  fetchAdd : ∀ {α : Type} (dest : Int) (disp : Nat) (value : α),
    (Rejected (Access.fetchAdd window dest disp value) ↔ ¬ Inside len dest disp 1) ∧
    (Inside len dest disp 1 →
      Issues (Access.fetchAdd window dest disp value) (.mpiFetchAndOp dest disp value))
  readLocal : ∀ {α : Type} (disp count : Nat),
    (Rejected (Access.readLocal window disp count : Access.Accessing α Unit (List α)) ↔
      ¬ Inside len me disp count) ∧
    (Access.readLocal window disp count : Access.Accessing α Unit (List α)).Only
      (WindowCall.ReadsBelow (len me)) ∧
    (Inside len me disp count →
      (Access.readLocal window disp count : Access.Accessing α Unit (List α)) () =
        if count = 0 then .ret (.ok [], ())
        else .op (.copyNonoverlapping disp count) fun values => .ret (.ok values, ()))
  readLocalVolatile : ∀ {α : Type} (disp count : Nat),
    (Rejected (Access.readLocalVolatile window disp count : Access.Accessing α Unit (List α)) ↔
      ¬ Inside len me disp count) ∧
    (Access.readLocalVolatile window disp count : Access.Accessing α Unit (List α)).Only
      (WindowCall.ReadsBelow (len me)) ∧
    (Inside len me disp count → ∀ τ r,
      ((Access.readLocalVolatile window disp count : Access.Accessing α Unit (List α)) ()).Follows
        τ r ↔ ∃ values, values.length = count ∧ τ = volatileReads disp values ∧
          r = (.ok values, ()))
  aint : ∀ rank disp count, Inside len rank disp count →
    asAint disp = disp ∧ asAint (disp * width) = (disp * width : Nat)

section Admission

variable {n : Nat} {len : Fin n → Nat} {me : Fin n} {window : Window}

/-- Validation looks up the length of the target and compares without wrapping. -/
theorem validate_inside (hlengths : window.lengths = List.ofFn len) (hranks : window.ranks = n)
    (hlen : ∀ i, len i ≤ usizeMax) {rank : Int} {disp count : Nat}
    (h : Inside len rank disp count) :
    window.validate rank disp count = .ok () := by
  obtain ⟨i, rfl, hfits⟩ := h
  apply Window.validate_ok (Int.natCast_nonneg _) _ _ hfits (hlen i)
  · rw [hranks]
    exact Int.ofNat_lt.mpr i.isLt
  · rw [hlengths, Int.toNat_natCast, List.getElem?_ofFn, dif_pos i.isLt]

theorem validate_outside (hlengths : window.lengths = List.ofFn len) (hranks : window.ranks = n)
    {rank : Int} {disp count : Nat} (h : ¬ Inside len rank disp count) :
    ∃ e, window.validate rank disp count = .error (.error e) := by
  unfold Window.validate
  by_cases hrank : rank < 0 ∨ window.ranks ≤ rank
  · rw [if_pos hrank]
    exact ⟨_, rfl⟩
  rw [if_neg hrank]
  cases hadd : checkedAdd usizeMax disp count with
  | none => exact ⟨_, rfl⟩
  | some stop =>
    obtain ⟨-, rfl⟩ := checkedAdd_eq_some.mp hadd
    rw [not_or, hranks] at hrank
    have hlt : rank.toNat < n := by omega
    have hlength : window.lengths[rank.toNat]? = some (len ⟨rank.toNat, hlt⟩) := by
      rw [hlengths, List.getElem?_ofFn, dif_pos hlt]
    dsimp only
    rw [index_ok hlength]
    dsimp only
    rw [if_pos]
    · exact ⟨_, rfl⟩
    · apply Nat.lt_of_not_le
      intro hle
      apply h
      refine ⟨⟨rank.toNat, hlt⟩, ?_, hle⟩
      exact Int.toNat_of_nonneg (by omega)

theorem asAint_small {a : Nat} (h : a ≤ aintMax) : asAint a = a := by
  unfold aintMax at h
  unfold asAint
  apply Int.bmod_eq_of_le
  · omega
  · omega

/-- An access that is rejected outside, and starts with a command inside. -/
theorem admission {α β : Type} {access : Access.Accessing α Unit β} {c : WindowCall α} {P : Prop}
    (hinside : P → Issues access c) (houtside : ¬ P → Rejected access) :
    (Rejected access ↔ ¬ P) ∧ (P → Issues access c) := by
  refine ⟨⟨?_, houtside⟩, hinside⟩
  rintro ⟨e, he⟩ hP
  obtain ⟨k, hk⟩ := hinside hP
  have hsame := he.symm.trans hk
  contradiction

/-- Validation comes first. -/
theorem rejected_of_validate {α β : Type} {rank : Int} {disp count : Nat}
    {f : Unit → Access.Accessing α Unit β} {e : Error}
    (h : window.validate rank disp count = .error (.error e)) :
    Rejected (Code.lift (window.validate rank disp count) >>= f : Access.Accessing α Unit β) := by
  rw [h]
  exact ⟨e, rfl⟩

theorem only_of_validate {α β : Type} {rank : Int} {disp count : Nat}
    {f : Unit → Access.Accessing α Unit β} {e : Error} {P : WindowCall α → Prop}
    (h : window.validate rank disp count = .error (.error e)) :
    (Code.lift (window.validate rank disp count) >>= f : Access.Accessing α Unit β).Only P := by
  rw [h]
  intro v
  trivial

theorem readEach_only {α : Type} {disp bound : Nat} (i count : Nat)
    (h : disp + (i + count) ≤ bound) :
    (Access.readEach disp i count : Access.Accessing α Unit (List α)).Only
      (WindowCall.ReadsBelow bound) := by
  induction count generalizing i with
  | zero => exact Code.Only.pure _
  | succ count ih =>
    unfold Access.readEach
    apply Code.Only.bind
    · apply Code.Only.perform
      show disp + i < bound
      omega
    · intro value
      apply Code.Only.bind
      · apply ih
        omega
      · intro values
        apply Code.Only.pure

theorem readEach_not_rejected {α : Type} (disp i count : Nat) :
    ¬ Rejected (Access.readEach disp i count : Access.Accessing α Unit (List α)) := by
  rintro ⟨e, he⟩
  cases count with
  | zero =>
    injection he with hresult
    injection hresult with hresult
    contradiction
  | succ count => contradiction

/-- The loop reads every element once, in order, and returns what it read. -/
theorem readEach_follows {α : Type} (disp i count : Nat)
    {τ : List ((c : WindowCall α) × c.Answer)} {r : Except Fail (List α) × Unit} :
    ((Access.readEach disp i count : Access.Accessing α Unit (List α)) ()).Follows τ r ↔
      ∃ values, values.length = count ∧ τ = volatileReads (disp + i) values ∧
        r = (.ok values, ()) := by
  induction count generalizing i τ r with
  | zero =>
    constructor
    · rintro ⟨rfl, rfl⟩
      exact ⟨[], rfl, rfl, rfl⟩
    · rintro ⟨values, hlength, rfl, rfl⟩
      obtain rfl := List.length_eq_zero_iff.mp hlength
      exact ⟨rfl, rfl⟩
  | succ count ih =>
    constructor
    · rintro ⟨value, τ', rfl, h⟩
      have h : ((Access.readEach disp (i + 1) count >>= fun values => pure (value :: values) :
        Access.Accessing α Unit (List α)) ()).Follows τ' r := h
      rcases Program.follows_bind.mp h with ⟨_, τ₁, τ₂, rfl, hrest, hend⟩
      rcases (ih (i + 1)).mp hrest with ⟨values, hlength, rfl, rfl⟩
      rcases hend with ⟨rfl, rfl⟩
      rw [List.append_nil, ← Nat.add_assoc]
      exact ⟨value :: values, congrArg Nat.succ hlength, rfl, rfl⟩
    · rintro ⟨values, hlength, rfl, rfl⟩
      cases values with
      | nil => simp at hlength
      | cons value values =>
        have hrest :
            ((Access.readEach disp (i + 1) count : Access.Accessing α Unit (List α)) ()).Follows
            (volatileReads (disp + i + 1) values) (.ok values, ()) :=
          (ih (i + 1)).mpr ⟨values, by simpa using hlength, rfl, rfl⟩
        refine ⟨value, _, rfl, ?_⟩
        show ((Access.readEach disp (i + 1) count >>= fun values => pure (value :: values) :
          Access.Accessing α Unit (List α)) ()).Follows _ _
        apply Program.follows_bind.mpr
        exact ⟨_, _, [], (List.append_nil _).symm, hrest, rfl, rfl⟩

/-- What a table with the right lengths admits. -/
theorem admitsInside (hlengths : window.lengths = List.ofFn len) (hranks : window.ranks = n)
    (hrank : window.rank = me.val) {width : Nat} (hwidth : 0 < width)
    (hfits : ∀ i, len i * width ≤ aintMax) : AdmitsInside len me width window := by
  have hlen : ∀ i, len i ≤ aintMax :=
    fun i => Nat.le_trans (Nat.le_mul_of_pos_right _ hwidth) (hfits i)
  have husize : ∀ i, len i ≤ usizeMax :=
    fun i => Nat.le_trans (hlen i) (by decide)
  have hvalid : ∀ {rank : Int} {disp count : Nat}, Inside len rank disp count →
      window.validate rank disp count = .ok () := validate_inside hlengths hranks husize
  have hinvalid : ∀ {α β : Type} {rank : Int} {disp count : Nat}
      {f : Unit → Access.Accessing α Unit β}, ¬ Inside len rank disp count →
      Rejected (Code.lift (window.validate rank disp count) >>= f : Access.Accessing α Unit β) := by
    intro α β rank disp count f h
    obtain ⟨e, he⟩ := validate_outside hlengths hranks h
    exact rejected_of_validate he
  have hbase : ∀ {rank : Int} {disp count : Nat}, Inside len rank disp count →
      disp * width ≤ aintMax := by
    rintro rank disp count ⟨i, -, hi⟩
    refine Nat.le_trans (Nat.mul_le_mul_right width ?_) (hfits i)
    omega
  have haint : ∀ {rank : Int} {disp count : Nat}, Inside len rank disp count →
      asAint disp = disp := by
    intro rank disp count h
    exact asAint_small (Nat.le_trans (Nat.le_mul_of_pos_right _ hwidth) (hbase h))
  have hcounted : ∀ {α β : Type} {count : Nat} {f : Nat → Access.Accessing α Unit β},
      ¬ count ≤ i32Max →
      Rejected (Code.lift (okOr (tryFrom i32Max count) (.error .countOverflow)) >>= f) := by
    intro α β count f h
    rw [tryFrom, if_neg h]
    exact ⟨_, rfl⟩
  refine ⟨?_, ?_, ?_, ?_, ?_, ?_⟩
  · intro α dest disp data
    apply admission
    · rintro ⟨hinside, hcount⟩
      unfold Access.put
      rw [hvalid hinside, tryFrom, if_pos hcount, haint hinside]
      exact ⟨_, rfl⟩
    · intro h
      by_cases hinside : Inside len dest disp data.length
      · unfold Access.put
        rw [hvalid hinside]
        exact hcounted fun hcount => h ⟨hinside, hcount⟩
      · exact hinvalid hinside
  · intro α source disp count
    apply admission
    · rintro ⟨hinside, hcount⟩
      unfold Access.get
      rw [hvalid hinside, tryFrom, if_pos hcount, haint hinside]
      exact ⟨_, rfl⟩
    · intro h
      by_cases hinside : Inside len source disp count
      · unfold Access.get
        rw [hvalid hinside]
        exact hcounted fun hcount => h ⟨hinside, hcount⟩
      · exact hinvalid hinside
  · intro α dest disp value
    apply admission
    · intro hinside
      unfold Access.fetchAdd
      rw [hvalid hinside, haint hinside]
      exact ⟨_, rfl⟩
    · exact hinvalid
  · intro α disp count
    unfold Access.readLocal
    rw [hrank]
    by_cases hinside : Inside len me.val disp count
    · rw [hvalid hinside]
      refine ⟨?_, ?_, ?_⟩
      · refine ⟨?_, fun h => absurd hinside h⟩
        rintro ⟨e, he⟩
        rw [Code.lift_ok_bind] at he
        by_cases hzero : count = 0
        · rw [if_pos hzero] at he
          injection he with hresult
          injection hresult with hresult
          contradiction
        · rw [if_neg hzero] at he
          contradiction
      · apply Code.Only.bind (Code.Only.lift _)
        intro _
        by_cases hzero : count = 0
        · rw [if_pos hzero]
          apply Code.Only.pure
        · rw [if_neg hzero]
          apply Code.Only.perform
          obtain ⟨i, hi, hle⟩ := hinside
          rw [Fin.ext (Int.ofNat_inj.mp hi)] at hle
          exact hle
      · intro _
        rw [Code.lift_ok_bind]
        by_cases hzero : count = 0
        · rw [if_pos hzero, if_pos hzero]
          rfl
        · rw [if_neg hzero, if_neg hzero]
          rfl
    · refine ⟨iff_of_true (hinvalid hinside) hinside, ?_, fun h => absurd h hinside⟩
      obtain ⟨e, he⟩ := validate_outside hlengths hranks hinside
      exact only_of_validate he
  · intro α disp count
    unfold Access.readLocalVolatile
    rw [hrank]
    by_cases hinside : Inside len me.val disp count
    · rw [hvalid hinside]
      refine ⟨?_, ?_, ?_⟩
      · exact iff_of_false (readEach_not_rejected disp 0 count) (fun h => h hinside)
      · apply Code.Only.bind (Code.Only.lift _)
        intro _
        apply readEach_only
        obtain ⟨i, hi, hle⟩ := hinside
        rw [Fin.ext (Int.ofNat_inj.mp hi)] at hle
        omega
      · intro _ τ r
        rw [Code.lift_ok_bind]
        exact readEach_follows disp 0 count
    · refine ⟨iff_of_true (hinvalid hinside) hinside, ?_, fun h => absurd h hinside⟩
      obtain ⟨e, he⟩ := validate_outside hlengths hranks hinside
      exact only_of_validate he
  · intro rank disp count h
    exact ⟨haint h, asAint_small (hbase h)⟩

end Admission

/-! ### Tables of a group -/

def Tabled {n : Nat} (len : Fin n → Nat) (me : Fin n) (r : Except Error Window × Unit) : Prop :=
  ∀ w, r.1 = .ok w → w.lengths = List.ofFn len ∧ w.ranks = n ∧ w.rank = me.val

/-- The ranks cannot allocate these lengths of these types. -/
def Unallocatable {n : Nat} (comm : Fin n → Comm) (element : Fin n → Element)
    (len : Fin n → Nat) : Prop :=
  (∃ i, (comm i).inter = true ∨ (comm i).threading ≠ .multiple) ∨
    (∃ i j, element i ≠ element j) ∨ ∃ i, aintMax < len i * (element i).width

section Tables

variable {n : Nat} {comm : Fin n → Comm} {element : Fin n → Element} {len : Fin n → Nat}
  {own : Fin n → Own}

/-- After the allocation only the table of lengths can come out. -/
theorem allocatedWith_returns {c : Comm} {me : Fin n} (hsize : c.size = n) (hrank : c.rank = me.val)
    (mine : Nat) (base : Except Int Base) :
    (Window.allocatedWith c mine (List.ofFn len) base ()).Returns (Tabled len me) := by
  have hanything : ∀ p : Program MpiCall MpiCall.Answer (Except Error MemoryModel × Unit),
      p.Returns fun _ => True := by
    intro p
    induction p with
    | ret a => trivial
    | op c k ih => exact ih
  have herror : ∀ e, Tabled len me (.error e, ()) := by
    intro e w h
    contradiction
  cases base with
  | error code => exact herror _
  | ok base =>
    unfold Window.allocatedWith check
    rw [Code.lift_ok_bind]
    apply Program.returns_bind (hanything _)
    rintro ⟨e | model, v⟩ -
    · exact herror e
    · intro _ w h
      obtain rfl := Except.ok.inj h
      exact ⟨rfl, hsize, hrank⟩

end Tables

/-- Ranks of one thread level that allocate together either all return one error before the
    collective allocation, exactly when they cannot allocate, or every table is the list of
    the lengths they passed, and admits exactly the accesses inside their targets. -/
theorem window_admission {n : Nat} (comm : Fin n → Comm) (element : Fin n → Element)
    (len : Fin n → Nat) (own : Fin n → Own) (helement : ∀ i, element i ∈ elements)
    (hsize : ∀ i, (comm i).size = n) (hrank : ∀ i, (comm i).rank = i.val)
    (hinter : ∀ i j, (comm i).inter = (comm j).inter)
    (hthreading : ∀ i j, (comm i).threading = (comm j).threading) (hn : 3 * n ≤ i32Max) :
    ∃ G, ComesTo MpiCall.collective own MpiCall.Joint MpiCall.operation
        (allocating comm element len) G ∧
      (∀ i, ∀ e ∈ (G i).trace, e.1.operation ≠ .allocate) ∧
      (Unallocatable comm element len ∧ (∃ e, ∀ i, (G i).rest = .ret (.error e, ())) ∨
        ¬ Unallocatable comm element len ∧
          (∀ i, ∃ k, (G i).rest =
            .op (.winAllocate (len i * (element i).width) (element i).width) k) ∧
          ∀ Q, Together MpiCall.collective own MpiCall.Joint (allocating comm element len) Q →
            ∀ i w, ((Q i).next (own i)).rest = .ret (.ok w, ()) →
              w.lengths = List.ofFn len ∧ AdmitsInside len i (element i).width w) := by
  by_cases hexcluded : ∃ i, (comm i).inter = true ∨ (comm i).threading ≠ .multiple
  · obtain ⟨i₀, hi₀⟩ := hexcluded
    have hreturned : ∀ i, (allocating comm element len i).rest = .ret (.error
        (if (comm i₀).inter then .intercommunicator else .threading (comm i₀).threading), ()) := by
      intro i
      have hi : (comm i).inter = true ∨ (comm i).threading ≠ .multiple := by
        rw [hinter i i₀, hthreading i i₀]
        exact hi₀
      have hexit := Window.allocate_excluded (element i) (len i) hi
      rw [hinter i i₀, hthreading i i₀] at hexit
      exact hexit
    refine ⟨_, .here (inStep_returned hreturned), ?_, .inl ⟨.inl ⟨i₀, hi₀⟩, _, hreturned⟩⟩
    intro i e he
    contradiction
  have haccepted : ∀ i, ¬ Refused n (comm i) := by
    intro i hrefused
    rcases hrefused with h | h | h
    · exact hexcluded ⟨i, .inl h⟩
    · exact hexcluded ⟨i, .inr h⟩
    · omega
  have hgathers : ∀ P, Meets MpiCall.collective own MpiCall.Joint (allocating comm element len) P ↔
      P = gathered comm element len := fun P =>
    allocating_meets element len (fun _ hrow => hrow) (.allGather _ 3 fun _ => rfl) hsize haccepted
  have hstart : InStep MpiCall.collective own MpiCall.operation (allocating comm element len) :=
    inStep_waiting .gather
    (fun i => allocating_rest element len hsize (haccepted i)) (fun _ => rfl) fun _ => rfl
  have htrace : ∀ i, ∀ e ∈ (gathered comm element len i).trace, e.1.operation ≠ .allocate := by
    intro i e he
    obtain rfl := List.mem_singleton.mp he
    intro hkind
    contradiction
  by_cases hdiffer : ∃ j k, element j ≠ element k
  · obtain ⟨j, k, hjk⟩ := hdiffer
    have hreturned : ∀ i, (gathered comm element len i).rest =
        .ret (.error (.window "element type differs between ranks"), ()) :=
      fun i => Window.allocateWith_differs hjk
    exact ⟨_, .meets hstart hgathers (.here (inStep_returned hreturned)), htrace,
      .inl ⟨.inr (.inl ⟨j, k, hjk⟩), _, hreturned⟩⟩
  have hsame : ∀ i j, element j = element i := by
    intro i j
    by_contra h
    exact hdiffer ⟨j, i, h⟩
  by_cases hover : ∃ j, aintMax < len j * (element j).width
  · obtain ⟨j, hj⟩ := hover
    have hreturned : ∀ i, (gathered comm element len i).rest = .ret (.error .sizeOverflow, ()) := by
      intro i
      apply Window.allocateWith_oversize (hsame i)
      rw [hsame j i]
      exact hj
    exact ⟨_, .meets hstart hgathers (.here (inStep_returned hreturned)), htrace,
      .inl ⟨.inr (.inr ⟨j, hj⟩), _, hreturned⟩⟩
  have hfits : ∀ i j, len j * (element i).width ≤ aintMax := by
    intro i j
    rw [← hsame i j]
    apply Nat.le_of_not_lt
    exact fun h => hover ⟨j, h⟩
  have hallocate : ∀ i, (gathered comm element len i).rest =
      .op (.winAllocate (len i * (element i).width) (element i).width) fun base =>
        Window.allocatedWith (comm i) (len i) (List.ofFn len) base () := by
    intro i
    apply Window.allocateWith_fits (hsame i) _ (hfits i)
    exact Nat.le_trans (width_le (helement i)) (by decide)
  refine ⟨_, .meets hstart hgathers (.here (inStep_waiting .allocate hallocate (fun _ => rfl)
    fun _ => rfl)), htrace, .inr ⟨?_, fun i => ⟨_, hallocate i⟩, ?_⟩⟩
  · rintro (h | h | h)
    · exact hexcluded h
    · exact hdiffer h
    · exact hover h
  · intro Q hQ i w hw
    rcases hQ.cases fun P => (hgathers P).mp with rfl | ⟨P, rfl, hrest⟩
    · rw [waiting (own i) (allocating_rest element len hsize (haccepted i)) rfl,
        allocating_rest element len hsize (haccepted i)] at hw
      contradiction
    · have hreturns : (Q i).rest.Returns (Tabled len i) := by
        apply Together.returns hrest
        intro j
        rw [hallocate j]
        exact allocatedWith_returns (hsize j) (hrank j) _
      have htabled : ((Q i).next (own i)).rest.Returns (Tabled len i) := hreturns.ahead
      rw [hw] at htabled
      obtain ⟨hlengths, hranks, hrank⟩ := htabled w rfl
      exact ⟨hlengths, admitsInside hlengths hranks hrank (width_pos (helement i)) (hfits i)⟩

/-- Two ranks that pass one length of one type come to the allocation together. -/
theorem window_admission_pair :
    ∃ G, ComesTo MpiCall.collective (fun _ => fine) MpiCall.Joint MpiCall.operation
        (allocating pairComm (fun _ => .u64) fun _ => 1) G ∧
      ∀ i, ∃ k, (G i).rest = .op (.winAllocate 8 8) k := by
  obtain ⟨G, hcomes, -, ⟨hnot, -⟩ | ⟨-, hallocate, -⟩⟩ :=
    window_admission pairComm (fun _ => .u64) (fun _ => 1) (fun _ => fine) (by decide)
      (fun _ => rfl) (fun _ => rfl) (fun _ _ => rfl) (fun _ _ => rfl) (by decide)
  · rcases hnot with ⟨i, h | h⟩ | ⟨i, j, h⟩ | ⟨i, h⟩
    · contradiction
    · exact absurd rfl h
    · exact absurd rfl h
    · have hfits : ¬ aintMax < 1 * 8 := by decide
      exact absurd h hfits
  · exact ⟨G, hcomes, hallocate⟩

/-- The types agree and the size fits, and yet a rank below `Multiple` gets an error. -/
theorem admission_below_multiple :
    ¬ ((∃ i j : Fin 1, (fun _ => Element.u64) i ≠ (fun _ => Element.u64) j) ∨
      ∃ i : Fin 1, aintMax < (fun _ => 1) i * Element.u64.width) ∧
    ∀ i : Fin 1,
      (allocating (fun _ => ⟨1, 0, false, .single, 45⟩) (fun _ => .u64) (fun _ => 1) i).rest =
        .ret (.error (.threading .single), ()) := by
  refine ⟨?_, fun _ => rfl⟩
  rintro (⟨i, j, h⟩ | ⟨i, h⟩)
  · exact h rfl
  · revert h
    show ¬ aintMax < 1 * 8
    decide

end MpiRma
