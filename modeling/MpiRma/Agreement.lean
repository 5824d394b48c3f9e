/-
  MpiRma/Agreement.lean
  =====================
  **All ranks go on to allocate, or all fail with one error.**  Up to the first allocation
  `Ring::new` is three gathers with checks between them.  The first two compare the lists
  of all ranks, so what follows them is computed from one list on every rank; the third,
  inside the allocation, compares the sizes.  `construction_symmetric` says exactly which
  modes and lists take all ranks to the allocation.
-/
import MpiRma.Allocation

namespace MpiRma

open Construct

/-! ### Lists that are accepted -/

/-- What a list has to say for its ring to be allocated on `n` ranks. -/
structure ListAccepted (n : Nat) (list : List LaneSpec) : Prop where
  distinct : (list.map fun spec => (spec.source, spec.destination)).Nodup
  specs : ∀ spec ∈ list, Ring.SpecOk n spec
  slots : ∀ spec ∈ list, spec.capacity + (HEADER + WORD) ≤ i32Max
  bytes : ∀ d < n, Ring.bytesInto d list ≤ aintMax

theorem ListAccepted.perm {n : Nat} {list list' : List LaneSpec} (h : ListAccepted n list)
    (hperm : list.Perm list') : ListAccepted n list' where
  distinct := (hperm.map _).nodup_iff.mp h.distinct
  specs spec hspec := h.specs spec (hperm.mem_iff.mpr hspec)
  slots spec hspec := h.slots spec (hperm.mem_iff.mpr hspec)
  bytes d hd := by
    have hbytes := h.bytes d hd
    rw [Ring.bytesInto, Placement.total_perm _ hperm] at hbytes
    exact hbytes

/-- The values of a list a rank can pass: ranks are `i32`, the rest is `usize`. -/
structure ListTyped (list : List LaneSpec) : Prop where
  length : list.length ≤ usizeMax
  ranks : ∀ spec ∈ list, Ring.RankTyped spec

namespace Ring

/-- Neighbours of a sorted list tell whether a pair of ranks occurs twice. -/
theorem repeated_iff {config : List LaneSpec} (hsorted : config.Pairwise LaneSpec.le) :
    repeated config = false ↔
      (config.map fun spec => (spec.source, spec.destination)).Nodup := by
  constructor
  · intro h
    apply List.pairwise_map.mpr
    apply (strict_of_sorted hsorted h).imp
    intro a b hab heq
    unfold before at hab
    simp only [Prod.mk.injEq] at heq
    omega
  · intro hnodup
    induction config with
    | nil => rfl
    | cons a rest ih =>
      cases rest with
      | nil => rfl
      | cons b more =>
        have hneighbours : repeated (a :: b :: more) =
            (decide (a.source = b.source ∧ a.destination = b.destination) ||
              repeated (b :: more)) := rfl
        obtain ⟨hfirst, hrest⟩ := List.nodup_cons.mp hnodup
        rw [hneighbours, Bool.or_eq_false_iff, decide_eq_false_iff_not]
        refine ⟨?_, ih (List.pairwise_cons.mp hsorted).2 hrest⟩
        rintro ⟨hsource, hdestination⟩
        apply hfirst
        apply List.mem_map.mpr
        exact ⟨b, List.mem_cons_self, Prod.ext hsource.symm hdestination.symm⟩

theorem checkSpec_iff {ranks : Nat} {spec : LaneSpec} :
    checkSpec ranks spec = .ok () ↔ SpecOk ranks spec := by
  refine ⟨checkSpec_ok, ?_⟩
  intro h
  have hsource := h.source
  have hdestination := h.destination
  have hdepth := h.depth
  have hcapacity := h.capacity
  unfold checkSpec
  rw [if_neg (by omega), if_neg h.noSelf, if_neg (by omega), if_neg (by omega)]

theorem checkSpecs_iff {ranks : Nat} {config : List LaneSpec} :
    checkSpecs ranks config = .ok () ↔ ∀ spec ∈ config, SpecOk ranks spec := by
  refine ⟨checkSpecs_ok, ?_⟩
  intro h
  induction config with
  | nil => rfl
  | cons spec rest ih =>
    unfold checkSpecs
    rw [checkSpec_iff.mpr (h spec List.mem_cons_self)]
    apply ih
    intro other hother
    exact h other (List.mem_cons_of_mem _ hother)

/-! ### One list on every rank -/

def SameSums (tables tables' : Tables) : Prop :=
  tables.lengths = tables'.lengths ∧ tables.ackLengths = tables'.ackLengths

/-- Two results of a computation: the same error, or values in a relation. -/
def Alike {α : Type} (related : α → α → Prop) : Except Error α → Except Error α → Prop
  | .ok a, .ok b => related a b
  | .error e, .error e' => e = e'
  | _, _ => False

theorem Alike.bind {α β : Type} {related : α → α → Prop} {related' : β → β → Prop}
    {x y : Except Error α} {f g : α → Except Error β} (h : Alike related x y)
    (hf : ∀ a b, related a b → Alike related' (f a) (g b)) :
    Alike related' (x >>= f) (y >>= g) := by
  cases x with
  | error e =>
    cases y with
    | error e' => exact h
    | ok b => exact h.elim
  | ok a =>
    cases y with
    | error e' => exact h.elim
    | ok b => exact hf a b h

theorem Alike.rfl {α : Type} (x : Except Error α) : Alike Eq x x := by
  cases x with
  | error e => exact Eq.refl e
  | ok a => exact Eq.refl a

theorem place_alike {me me' : Nat} {tables tables' : Tables} (h : SameSums tables tables')
    (spec : LaneSpec) : Alike SameSums (place me tables spec) (place me' tables' spec) := by
  obtain ⟨hlengths, hacks⟩ := h
  unfold place
  rw [hlengths, hacks]
  apply Alike.bind (Alike.rfl _)
  rintro slot _ rfl
  split
  · exact Eq.refl _
  apply Alike.bind (Alike.rfl _)
  rintro bytes _ rfl
  apply Alike.bind (Alike.rfl _)
  rintro length _ rfl
  apply Alike.bind (Alike.rfl _)
  rintro acks _ rfl
  exact ⟨Eq.refl _, Eq.refl _⟩

/-- Every rank lays out one list to the same sums, or fails with the same error. -/
theorem layout_alike {me me' : Nat} (config : List LaneSpec) {tables tables' : Tables}
    (h : SameSums tables tables') :
    Alike SameSums (layout me tables config) (layout me' tables' config) := by
  induction config generalizing tables tables' with
  | nil => exact h
  | cons spec rest ih =>
    apply Alike.bind (place_alike h spec)
    intro placed placed' hplaced
    exact ih hplaced

/-- A lane is placed when its slot fits a count and the sums fit. -/
theorem place_fits {ranks me : Nat} {pre : List LaneSpec} {spec : LaneSpec} {tables : Tables}
    (hspec : SpecOk ranks spec) (h : TablesOk ranks me pre tables)
    (hslot : spec.capacity + (HEADER + WORD) ≤ i32Max)
    (hbytes : bytesInto spec.destination (pre ++ [spec]) ≤ aintMax)
    (hacks : lanesFrom spec.source (pre ++ [spec]) ≤ usizeMax) :
    ∃ tables', place me tables spec = .ok tables' := by
  obtain ⟨hs0, hs1⟩ := hspec.source
  obtain ⟨hd0, hd1⟩ := hspec.destination
  have hsource : ((spec.source.toNat : Nat) : Int) = spec.source := Int.toNat_of_nonneg hs0
  have hdest : ((spec.destination.toNat : Nat) : Int) = spec.destination := Int.toNat_of_nonneg hd0
  have hoffset : tables.lengths.getD spec.destination.toNat 0 = bytesInto spec.destination pre := by
    rw [List.getD_eq_getElem?_getD, h.lengths _ hd1, hdest]
    rfl
  have hack : tables.ackLengths.getD spec.source.toNat 0 = lanesFrom spec.source pre := by
    rw [List.getD_eq_getElem?_getD, h.ackLengths _ hs1, hsource]
    rfl
  rw [bytesInto_concat, if_pos rfl] at hbytes
  rw [lanesFrom_concat, if_pos rfl] at hacks
  have hadd : checkedAdd usizeMax spec.capacity (HEADER + WORD) =
      some (spec.capacity + (HEADER + WORD)) :=
    checkedAdd_eq_some.mpr ⟨Nat.le_trans hslot (by decide), rfl⟩
  have hmul : checkedMul usizeMax spec.depth (spec.capacity + (HEADER + WORD)) =
      some (laneBytes spec) := by
    apply checkedMul_eq_some.mpr
    refine ⟨?_, rfl⟩
    exact Nat.le_trans (Nat.le_trans (Nat.le_add_left _ _) hbytes) (by decide)
  have hlength : checkedAdd usizeMax (bytesInto spec.destination pre) (laneBytes spec) =
      some (bytesInto spec.destination pre + laneBytes spec) :=
    checkedAdd_eq_some.mpr ⟨Nat.le_trans hbytes (by decide), rfl⟩
  have hcount : checkedAdd usizeMax (lanesFrom spec.source pre) 1 =
      some (lanesFrom spec.source pre + 1) := checkedAdd_eq_some.mpr ⟨hacks, rfl⟩
  unfold place
  rw [hadd]
  dsimp only [okOr]
  show ∃ tables', (if i32Max < spec.capacity + (HEADER + WORD) then _ else _) = Except.ok tables'
  rw [if_neg (Nat.not_lt.mpr hslot), hmul, hoffset]
  dsimp only
  show ∃ tables', (okOr (checkedAdd usizeMax (bytesInto spec.destination pre) (laneBytes spec))
    Error.sizeOverflow >>= _) = Except.ok tables'
  rw [hlength, hack, hcount]
  exact ⟨_, rfl⟩

/-- An accepted list is laid out on every rank. -/
theorem layout_fits {ranks me : Nat} {config : List LaneSpec} :
    ∀ {pre : List LaneSpec} {tables : Tables}, ListAccepted ranks (pre ++ config) →
      (pre ++ config).length ≤ usizeMax → TablesOk ranks me pre tables →
      ∃ tables', layout me tables config = .ok tables' := by
  induction config with
  | nil =>
    intro pre tables _ _ _
    exact ⟨tables, rfl⟩
  | cons spec rest ih =>
    intro pre tables h hlength htables
    have hsplit : pre ++ spec :: rest = (pre ++ [spec]) ++ rest := by
      rw [List.append_assoc, List.singleton_append]
    have hmem : spec ∈ pre ++ spec :: rest := by simp
    have hspec := h.specs spec hmem
    have hbytes : bytesInto spec.destination (pre ++ [spec]) ≤ aintMax := by
      have hdest : ((spec.destination.toNat : Nat) : Int) = spec.destination :=
        Int.toNat_of_nonneg hspec.destination.1
      have hall := h.bytes _ hspec.destination.2
      rw [hdest, hsplit, bytesInto, Placement.total_append] at hall
      exact Nat.le_trans (Nat.le_add_right _ _) hall
    have hacks : lanesFrom spec.source (pre ++ [spec]) ≤ usizeMax := by
      have hcount : ∀ list : List LaneSpec, lanesFrom spec.source list ≤ list.length := by
        intro list
        induction list with
        | nil => exact Nat.le_refl _
        | cons other more ih =>
          have hone : countersAt spec.source other ≤ 1 := by
            unfold countersAt
            split
            · exact Nat.le_refl _
            · exact Nat.zero_le _
          have hcons : lanesFrom spec.source (other :: more) =
              countersAt spec.source other + lanesFrom spec.source more := by
            simp [lanesFrom, Placement.total]
          rw [hcons, List.length_cons]
          omega
      have hpre := hcount (pre ++ [spec])
      rw [hsplit, List.length_append] at hlength
      omega
    obtain ⟨placed, hplaced⟩ := place_fits hspec htables (h.slots spec hmem) hbytes hacks
    unfold layout
    rw [hplaced]
    rw [hsplit] at h hlength
    exact ih h hlength (place_ok hspec htables hplaced)

/-! ### The stages of a construction -/

/-- `Ring::new` once the slot window is allocated. -/
def slotted (comm : Comm) (safe : Bool) (ranks me : Nat) (config : List LaneSpec)
    (tables : Tables) (slots : Window) : Construct Ring := do
  let acks ← orElse (allocateAcks comm safe (tables.ackLengths.getD me 0)) slots.finish
  let unified := decide (slots.model = .unified) && acks.all fun w => w.model = .unified
  let models ← allGatherInto [unified.toNat]
  if models.contains 0 then
    match acks with
    | some window => window.finish
    | none => pure ()
    slots.finish
    Code.throw (.window "local ring access requires unified memory")
  else
    pure
      { slots := slots
        acks := acks
        ranks := ranks
        toLanes := tables.toLanes
        fromLanes := tables.fromLanes
        incoming := incomingOf comm.rank config }

/-- `Ring::new` once the layout is known. -/
def laidWith (comm : Comm) (safe : Bool) (ranks me : Nat) (config : List LaneSpec)
    (tables : Tables) : Construct Ring := do
  let slots ← Window.allocate comm .u8 (tables.lengths.getD me 0)
  slotted comm safe ranks me config tables slots

def verdict (ranks me : Nat) (config : List LaneSpec) : Except Error Tables :=
  if repeated config then
    .error (.ring "a lane is configured twice")
  else do
    checkSpecs ranks config
    layout me (Tables.empty ranks) config

/-- `Ring::new` once the lists were compared. -/
def agreedWith (comm : Comm) (safe : Bool) (ranks me : Nat) (config : List LaneSpec) :
    Construct Ring := do
  let tables ← Code.lift (verdict ranks me config)
  laidWith comm safe ranks me config tables

/-- `Ring::agree` with the rows of all ranks, and what follows it. -/
def comparedWith {α : Type} (safe : Bool) (config : List LaneSpec) (next : Construct α)
    (all : List Nat) : Construct α :=
  if (chunksExact (encode safe config).length all).any
    (fun other => other ≠ encode safe config) then
    Code.throw (.ring "configuration differs between ranks")
  else
    next

/-- `Ring::agree` with the lengths of the lists of all ranks, and what follows it. -/
def countedWith {α : Type} (safe : Bool) (config : List LaneSpec) (next : Construct α)
    (counts : List Nat) : Construct α :=
  if counts.any (fun count => count ≠ config.length) then
    Code.throw (.ring "configuration differs between ranks")
  else do
    let all ← allGatherInto (encode safe config)
    comparedWith safe config next all

theorem comparedWith_bind {safe : Bool} {config : List LaneSpec} {f : Unit → Construct Ring}
    (all : List Nat) : (comparedWith safe config (pure ()) all >>= f) () =
      comparedWith safe config (f ()) all () := by
  unfold comparedWith
  by_cases hall : (chunksExact (encode safe config).length all).any
      (fun other => other ≠ encode safe config) = true
  · rw [if_pos hall, if_pos hall]
    rfl
  · rw [if_neg hall, if_neg hall]
    rfl

theorem countedWith_bind {safe : Bool} {config : List LaneSpec} {f : Unit → Construct Ring}
    (counts : List Nat) : (countedWith safe config (pure ()) counts >>= f) () =
      countedWith safe config (f ()) counts () := by
  unfold countedWith
  by_cases hcounts : counts.any (fun count => count ≠ config.length) = true
  · rw [if_pos hcounts, if_pos hcounts]
    rfl
  · rw [if_neg hcounts, if_neg hcounts]
    apply congrArg (Program.op _)
    funext all
    exact comparedWith_bind all

theorem agree_bind {safe : Bool} {config : List LaneSpec} {f : Unit → Construct Ring} :
    (agree safe config >>= f) () = .op (.allGather [config.length]) fun counts =>
      countedWith safe config (f ()) counts () := by
  apply congrArg (Program.op _)
  funext counts
  exact countedWith_bind counts

theorem agreedWith_eq {comm : Comm} {safe : Bool} {ranks me : Nat} {config : List LaneSpec} :
    (if repeated config then
        Code.throw (.ring "a lane is configured twice")
      else do
        Code.lift (checkSpecs ranks config)
        let tables ← Code.lift (layout me (Tables.empty ranks) config)
        laidWith comm safe ranks me config tables : Construct Ring) () =
      agreedWith comm safe ranks me config () := by
  unfold agreedWith verdict
  by_cases hrepeated : repeated config = true
  · rw [if_pos hrepeated, if_pos hrepeated]
    rfl
  · rw [if_neg hrepeated, if_neg hrepeated]
    cases checkSpecs ranks config with
    | error e => rfl
    | ok _ => rfl

/-- A construction begins with the gather of the lengths of the lists. -/
theorem new_eq {comm : Comm} {rings : List LaneSpec} {safe : Bool} {ranks me : Nat}
    (hinter : comm.inter = false) (hsize : comm.size = ranks) (hrank : comm.rank = me) :
    new comm rings safe () =
      .op (.allGather [(rings.insertionSort LaneSpec.le).length]) fun counts =>
      countedWith safe (rings.insertionSort LaneSpec.le)
        (agreedWith comm safe ranks me (rings.insertionSort LaneSpec.le)) counts () := by
  have hranks : tryRank comm.size = .ok ranks := by
    rw [tryRank, if_neg (by omega), hsize]
    rfl
  have hme : tryRank comm.rank = .ok me := by
    rw [tryRank, if_neg (by omega), hrank]
    rfl
  unfold new
  rw [if_neg (by rw [hinter]; decide), hranks, Code.lift_ok_bind, hme, Code.lift_ok_bind]
  refine agree_bind.trans ?_
  apply congrArg (Program.op _)
  funext counts
  apply congrFun
  refine congrArg (fun next => countedWith safe (rings.insertionSort LaneSpec.le) next counts) ?_
  funext v
  exact agreedWith_eq

/-! ### What the checks decide -/

section Verdict

variable {ranks me me' : Nat} {config : List LaneSpec}

theorem verdict_alike (ranks me me' : Nat) (config : List LaneSpec) :
    Alike SameSums (verdict ranks me config) (verdict ranks me' config) := by
  unfold verdict
  split
  · exact Eq.refl _
  · apply Alike.bind (Alike.rfl _)
    intro _ _ _
    exact layout_alike config ⟨rfl, rfl⟩

/-- The checks of one list end in one error on every rank, or succeed on every rank. -/
theorem verdict_cases (ranks : Nat) (config : List LaneSpec) (me : Nat) :
    (∃ e, ∀ me', verdict ranks me' config = .error e) ∨
      ∀ me', ∃ tables, verdict ranks me' config = .ok tables := by
  cases h : verdict ranks me config with
  | error e =>
    left
    refine ⟨e, ?_⟩
    intro me'
    have halike := verdict_alike ranks me me' config
    rw [h] at halike
    cases h' : verdict ranks me' config with
    | error e' =>
      rw [h'] at halike
      rw [halike]
    | ok tables =>
      rw [h'] at halike
      exact halike.elim
  | ok tables =>
    right
    intro me'
    have halike := verdict_alike ranks me me' config
    rw [h] at halike
    cases h' : verdict ranks me' config with
    | error e' =>
      rw [h'] at halike
      exact halike.elim
    | ok tables' => exact ⟨tables', rfl⟩

/-- A list that got through has everything but the bounds on the bytes. -/
theorem verdict_ok {tables : Tables} (hsorted : config.Pairwise LaneSpec.le)
    (h : verdict ranks me config = .ok tables)
    (hbytes : ∀ d < ranks, bytesInto d config ≤ aintMax) : ListAccepted ranks config := by
  unfold verdict at h
  split at h
  · contradiction
  rename_i hrepeated
  obtain ⟨_, hchecked, hlaid⟩ := except_bind_ok.mp h
  have hspecs := checkSpecs_iff.mp hchecked
  have htables := layout_ok hspecs (TablesOk.empty ranks me) hlaid
  rw [List.nil_append] at htables
  exact ⟨(repeated_iff hsorted).mp (Bool.eq_false_iff.mpr hrepeated), hspecs, htables.slots, hbytes⟩

theorem verdict_lengths {tables : Tables} (h : verdict ranks me config = .ok tables) {d : Nat}
    (hd : d < ranks) : tables.lengths.getD d 0 = bytesInto d config := by
  unfold verdict at h
  split at h
  · contradiction
  obtain ⟨_, hchecked, hlaid⟩ := except_bind_ok.mp h
  have htables := layout_ok (checkSpecs_iff.mp hchecked) (TablesOk.empty ranks me) hlaid
  rw [List.nil_append] at htables
  rw [List.getD_eq_getElem?_getD, htables.lengths d hd]
  rfl

/-- An accepted list gets through. -/
theorem verdict_fits (me : Nat) (hsorted : config.Pairwise LaneSpec.le)
    (h : ListAccepted ranks config)
    (hlength : config.length ≤ usizeMax) : ∃ tables, verdict ranks me config = .ok tables := by
  unfold verdict
  rw [if_neg (Bool.eq_false_iff.mp ((repeated_iff hsorted).mpr h.distinct)),
    checkSpecs_iff.mpr h.specs]
  rw [← List.nil_append config] at h hlength
  exact layout_fits h hlength (TablesOk.empty ranks me)

end Verdict

end Ring

/-! ### The group of ranks -/

def Unallocated {α : Type} (p : Rank α) : Prop := ∀ e ∈ p.trace, e.1.operation ≠ .allocate

/-- Every run comes to a point before the first allocation at which all ranks wait to
    allocate, exactly when `good` holds, or have returned one error. -/
def Resolves {n : Nat} {α : Type} (own : Fin n → Own) (P : Fin n → Rank α) (good : Prop) : Prop :=
  ∃ G, ComesTo MpiCall.collective own MpiCall.Joint MpiCall.operation P G ∧
    (∀ i, Unallocated (G i)) ∧
    (¬ good ∧ (∃ e, ∀ i, (G i).rest = .ret (.error e, ())) ∨
      good ∧ ∀ i, ∃ bytes width k, (G i).rest = .op (.winAllocate bytes width) k)

section Resolving

variable {n : Nat} {α : Type} {own : Fin n → Own} {P : Fin n → Rank α} {good : Prop}

theorem Resolves.fails (hquiet : ∀ i, Unallocated (P i)) {e : Error}
    (h : ∀ i, (P i).rest = .ret (.error e, ())) (hbad : ¬ good) : Resolves own P good :=
  ⟨P, .here (inStep_returned h), hquiet, .inl ⟨hbad, e, h⟩⟩

theorem Resolves.allocates (hquiet : ∀ i, Unallocated (P i))
    (h : ∀ i, ∃ bytes width k, (P i).rest = .op (.winAllocate bytes width) k) (hgood : good) :
    Resolves own P good := by
  have hstep := h
  choose bytes width k hat using hstep
  exact ⟨P, .here (inStep_waiting .allocate hat (fun _ => rfl) fun _ => rfl), hquiet,
    .inr ⟨hgood, h⟩⟩

theorem Resolves.iff {good' : Prop} (h : good ↔ good') (hP : Resolves own P good) :
    Resolves own P good' := by
  obtain ⟨G, hcomes, hquiet, ⟨hbad, hend⟩ | ⟨hgood, hend⟩⟩ := hP
  · exact ⟨G, hcomes, hquiet, .inl ⟨fun hgood => hbad (h.mpr hgood), hend⟩⟩
  · exact ⟨G, hcomes, hquiet, .inr ⟨h.mp hgood, hend⟩⟩

/-- One more gather before it. -/
theorem Resolves.gathers {rows : Fin n → List Nat} {width : Nat} {k : Fin n →
    List Nat → Construct α}
    (hat : ∀ i, (P i).rest = .op (.allGather (rows i)) fun answer => k i answer ())
    (hwidth : ∀ i, (rows i).length = width)
    (h : Resolves own (fun i => ⟨(P i).trace ++ [⟨.allGather (rows i), (List.ofFn rows).flatten⟩],
      k i (List.ofFn rows).flatten ()⟩) good) : Resolves own P good := by
  obtain ⟨G, hcomes, hquiet, hend⟩ := h
  refine ⟨G, hcomes.meets ?_ ?_, hquiet, hend⟩
  · exact inStep_waiting .gather hat (fun _ => rfl) fun _ => rfl
  · intro Q
    exact meets_gather (fun _ hrow => hrow) hat (.allGather rows width hwidth)

theorem Unallocated.gather {p : Rank α} (h : Unallocated p) (row : List Nat) (answer : List Nat)
    (rest : Program MpiCall MpiCall.Answer (Except Error α × Unit)) :
    Unallocated ⟨p.trace ++ [⟨.allGather row, answer⟩], rest⟩ := by
  intro e he
  rcases List.mem_append.mp he with he | he
  · exact h e he
  · obtain rfl := List.mem_singleton.mp he
    intro hkind
    contradiction

end Resolving

/-! ### Construction by all ranks -/

def constructing {n : Nat} (comm : Fin n → Comm) (lists : Fin n → List LaneSpec)
    (safe : Fin n → Bool) (i : Fin n) : Rank Ring :=
  ⟨[], Ring.new (comm i) (lists i) (safe i) ()⟩

/-- What takes all ranks to the allocation: a library that supports it, one mode, lists that
    are permutations of one another, and a list that is accepted. -/
structure Acceptable {n : Nat} (comm : Fin n → Comm) (lists : Fin n → List LaneSpec)
    (safe : Fin n → Bool) : Prop where
  threading : ∀ i, (comm i).threading = .multiple
  mode : ∀ i j, safe i = safe j
  same : ∀ i j, (lists i).Perm (lists j)
  accepted : ∀ i, ListAccepted n (lists i)

section Construction

variable {n : Nat} {comm : Fin n → Comm} {own : Fin n → Own} {P : Fin n → Rank Ring}

/-- Ranks that hold the results of the layout of one list. -/
theorem laid_resolves (hsize : ∀ i, (comm i).size = n) (hinter : ∀ i, (comm i).inter = false)
    (hthreading : ∀ i j, (comm i).threading = (comm j).threading) (hn : 3 * n ≤ i32Max)
    (i₀ : Fin n) {config : List LaneSpec} {safe : Bool} {tables : Fin n → Ring.Tables}
    (htables : ∀ i : Fin n, Ring.verdict n i config = .ok (tables i))
    (hquiet : ∀ i, Unallocated (P i))
    (hat : ∀ i : Fin n, (P i).rest = Ring.laidWith (comm i) safe n i config (tables i) ()) :
    Resolves own P ((∀ i, (comm i).threading = .multiple) ∧
      ∀ d < n, Ring.bytesInto d config ≤ aintMax) := by
  by_cases hmultiple : (comm i₀).threading = .multiple
  swap
  · have hreturned : ∀ i, (P i).rest = .ret (.error (.threading (comm i₀).threading), ()) := by
      intro i
      have hexit := Window.allocate_excluded .u8 ((tables i).lengths.getD i 0)
        (.inr (by rw [hthreading i i₀]; exact hmultiple) : (comm i).inter = true ∨ _)
      rw [hinter i, hthreading i i₀] at hexit
      rw [hat i]
      show (Window.allocate (comm i) .u8 ((tables i).lengths.getD i 0) ()).bind _ = _
      rw [hexit]
      rfl
    exact .fails hquiet hreturned fun h => hmultiple (h.1 i₀)
  have hall : ∀ i, (comm i).threading = .multiple := by
    intro i
    rw [hthreading i i₀]
    exact hmultiple
  have haccepted : ∀ i, ¬ Refused n (comm i) := by
    rintro i (h | h | h)
    · rw [hinter i] at h
      contradiction
    · exact h (hall i)
    · omega
  let len : Fin n → Nat := fun i => (tables i).lengths.getD i 0
  have hlen : ∀ i : Fin n, len i = Ring.bytesInto (i.val : Int) config :=
    fun i => Ring.verdict_lengths (htables i) i.isLt
  have hgather : ∀ i, (P i).rest = .op (.allGather [len i, 1, 1]) fun configs =>
      (Window.allocateWith (comm i) .u8 (len i) (chunksExact 3 configs) >>= fun slots =>
        Ring.slotted (comm i) safe n i config (tables i) slots) () := by
    intro i
    rw [hat i]
    show (Window.allocate (comm i) .u8 (len i) ()).bind _ = _
    rw [Window.allocate_eq .u8 (len i) (hsize i) (haccepted i)]
    rfl
  refine .gathers hgather (fun _ => rfl) ?_
  have hrows : (List.ofFn fun i => [len i, 1, 1]) = Window.configsOf (fun _ => .u8) len := rfl
  have hconfigs : chunksExact 3 (Window.configsOf (fun _ => .u8) len).flatten =
      Window.configsOf (fun _ => .u8) len := Window.chunks_configsOf
  rw [hrows, hconfigs]
  by_cases hover : ∃ j, aintMax < len j * Element.u8.width
  · obtain ⟨j, hj⟩ := hover
    refine .fails (fun i => (hquiet i).gather _ _ _) (e := .sizeOverflow) ?_ ?_
    · intro i
      have hexit : Window.allocateWith (comm i) .u8 (len i)
        (Window.configsOf (fun _ => .u8) len) () =
          .ret (.error .sizeOverflow, ()) := Window.allocateWith_oversize (fun _ => rfl) hj
      show (Window.allocateWith (comm i) .u8 (len i)
        (Window.configsOf (fun _ => .u8) len) ()).bind _ = _
      rw [hexit]
      rfl
    · rintro ⟨-, hbytes⟩
      have hfits := hbytes j j.isLt
      have hone : len j * Element.u8.width = len j := Nat.mul_one _
      rw [← hlen j] at hfits
      omega
  · have hfits : ∀ j, len j * Element.u8.width ≤ aintMax := by
      intro j
      apply Nat.le_of_not_lt
      exact fun h => hover ⟨j, h⟩
    refine .allocates (fun i => (hquiet i).gather _ _ _) ?_ ⟨hall, ?_⟩
    · intro i
      have hnext : Window.allocateWith (comm i) .u8 (len i)
        (Window.configsOf (fun _ => .u8) len) () =
          .op (.winAllocate (len i * Element.u8.width) Element.u8.width) fun base =>
            Window.allocatedWith (comm i) (len i) (List.ofFn len) base () :=
        Window.allocateWith_fits (fun _ => rfl) (by decide) hfits
      show ∃ bytes width k, (Window.allocateWith (comm i) .u8 (len i)
        (Window.configsOf (fun _ => .u8) len) ()).bind _ = _
      rw [hnext]
      exact ⟨_, _, _, rfl⟩
    · intro d hd
      have hbytes := hfits ⟨d, hd⟩
      have hone : len ⟨d, hd⟩ * Element.u8.width = len ⟨d, hd⟩ := Nat.mul_one _
      rw [hone, hlen ⟨d, hd⟩] at hbytes
      exact hbytes

/-- Ranks that agreed on one list. -/
theorem agreed_resolves (hsize : ∀ i, (comm i).size = n) (hinter : ∀ i, (comm i).inter = false)
    (hthreading : ∀ i j, (comm i).threading = (comm j).threading) (hn : 3 * n ≤ i32Max)
    (i₀ : Fin n) {config : List LaneSpec} {safe : Bool} (hsorted : config.Pairwise LaneSpec.le)
    (hlength : config.length ≤ usizeMax) (hquiet : ∀ i, Unallocated (P i))
    (hat : ∀ i : Fin n, (P i).rest = Ring.agreedWith (comm i) safe n i config ()) :
    Resolves own P ((∀ i, (comm i).threading = .multiple) ∧ ListAccepted n config) := by
  rcases Ring.verdict_cases n config i₀ with ⟨e, he⟩ | hok
  · refine .fails hquiet (e := e) ?_ ?_
    · intro i
      rw [hat i, Ring.agreedWith, he i]
      rfl
    · rintro ⟨-, haccepted⟩
      obtain ⟨tables, htables⟩ := Ring.verdict_fits i₀ hsorted haccepted hlength
      have hsame := (he i₀).symm.trans htables
      contradiction
  · choose tables htables using hok
    have hlaid : ∀ i : Fin n, (P i).rest = Ring.laidWith (comm i) safe n i config
      (tables i) () := by
      intro i
      rw [hat i, Ring.agreedWith, htables i]
      rfl
    have hgood : ((∀ i, (comm i).threading = .multiple) ∧
        ∀ d < n, Ring.bytesInto d config ≤ aintMax) ↔
        (∀ i, (comm i).threading = .multiple) ∧ ListAccepted n config := by
      constructor
      · rintro ⟨hmultiple, hbytes⟩
        exact ⟨hmultiple, Ring.verdict_ok hsorted (htables i₀) hbytes⟩
      · rintro ⟨hmultiple, haccepted⟩
        exact ⟨hmultiple, haccepted.bytes⟩
    apply Resolves.iff hgood
    exact laid_resolves hsize hinter hthreading hn i₀ (fun i => htables i) hquiet hlaid

end Construction

namespace Ring

section Compared

variable {n : Nat} {config : Fin n → List LaneSpec} {safe : Fin n → Bool} {next : Construct Ring}
  {i : Fin n}

/-- Every rank notices when the lengths of the lists differ. -/
theorem countedWith_differs {j k : Fin n} (h : (config j).length ≠ (config k).length) :
    countedWith (safe i) (config i) next (List.ofFn fun i => [(config i).length]).flatten () =
      .ret (.error (.ring "configuration differs between ranks"), ()) := by
  have hother : ∃ j, (config j).length ≠ (config i).length := by
    by_cases hj : (config j).length = (config i).length
    · exact ⟨k, fun hk => h (hj.trans hk.symm)⟩
    · exact ⟨j, hj⟩
  obtain ⟨j, hj⟩ := hother
  unfold countedWith
  rw [if_pos]
  · rfl
  · apply List.any_eq_true.mpr
    refine ⟨(config j).length, ?_, decide_eq_true hj⟩
    apply List.mem_flatten.mpr
    exact ⟨_, (List.mem_ofFn' _ _).mpr ⟨j, rfl⟩, List.mem_singleton.mpr rfl⟩

theorem countedWith_same (h : ∀ j, (config j).length = (config i).length) :
    countedWith (safe i) (config i) next (List.ofFn fun i => [(config i).length]).flatten () =
      .op (.allGather (encode (safe i) (config i))) fun all =>
        comparedWith (safe i) (config i) next all () := by
  unfold countedWith
  rw [if_neg]
  · rfl
  · rw [List.any_eq_true]
    rintro ⟨count, hcount, hdiffers⟩
    obtain ⟨row, hrow, hmem⟩ := List.mem_flatten.mp hcount
    obtain ⟨j, rfl⟩ := (List.mem_ofFn' _ _).mp hrow
    apply of_decide_eq_true hdiffers
    rw [List.mem_singleton.mp hmem]
    exact h j

theorem length_encode (safe : Bool) (config : List LaneSpec) :
    (encode safe config).length = 4 * config.length + 1 := by
  induction config with
  | nil => rfl
  | cons spec rest ih =>
    unfold encode at ih ⊢
    rw [List.length_cons] at ih ⊢
    rw [List.flatMap_cons, List.length_append, List.length_cons (a := spec)]
    show 4 + _ + 1 = _
    omega

/-- The rows the ranks compare. -/
theorem rows_encode (h : ∀ j, (config j).length = (config i).length) :
    chunksExact (encode (safe i) (config i)).length
        (List.ofFn fun i => encode (safe i) (config i)).flatten =
      List.ofFn fun i => encode (safe i) (config i) := by
  apply chunksExact_flatten
  · rw [length_encode]
    exact Nat.succ_pos _
  · intro row hrow
    obtain ⟨j, rfl⟩ := (List.mem_ofFn' _ _).mp hrow
    rw [length_encode, length_encode, h j]

/-- Every rank notices when the rows differ. -/
theorem comparedWith_differs (hlength : ∀ j, (config j).length = (config i).length) {j k : Fin n}
    (h : encode (safe j) (config j) ≠ encode (safe k) (config k)) :
    comparedWith (safe i) (config i) next
      (List.ofFn fun i => encode (safe i) (config i)).flatten () =
      .ret (.error (.ring "configuration differs between ranks"), ()) := by
  have hother : ∃ j, encode (safe j) (config j) ≠ encode (safe i) (config i) := by
    by_cases hj : encode (safe j) (config j) = encode (safe i) (config i)
    · exact ⟨k, fun hk => h (hj.trans hk.symm)⟩
    · exact ⟨j, hj⟩
  obtain ⟨j, hj⟩ := hother
  unfold comparedWith
  rw [rows_encode hlength, if_pos]
  · rfl
  · apply List.any_eq_true.mpr
    exact ⟨_, (List.mem_ofFn' _ _).mpr ⟨j, rfl⟩, decide_eq_true hj⟩

theorem comparedWith_same (hlength : ∀ j, (config j).length = (config i).length)
    (h : ∀ j, encode (safe j) (config j) = encode (safe i) (config i)) :
    comparedWith (safe i) (config i) next
      (List.ofFn fun i => encode (safe i) (config i)).flatten () =
      next () := by
  unfold comparedWith
  rw [rows_encode hlength, if_neg]
  rw [List.any_eq_true]
  rintro ⟨row, hrow, hdiffers⟩
  obtain ⟨j, rfl⟩ := (List.mem_ofFn' _ _).mp hrow
  exact of_decide_eq_true hdiffers (h j)

end Compared

end Ring

/-- Up to the first allocation all ranks make the same collective calls, and they come to it
    together exactly when their modes and lists are acceptable; otherwise all return one
    error before it. -/
theorem construction_symmetric {n : Nat} (comm : Fin n → Comm) (lists : Fin n → List LaneSpec)
    (safe : Fin n → Bool) (own : Fin n → Own) (hsize : ∀ i, (comm i).size = n)
    (hrank : ∀ i, (comm i).rank = i.val) (hinter : ∀ i, (comm i).inter = false)
    (hthreading : ∀ i j, (comm i).threading = (comm j).threading) (hn : 3 * n ≤ i32Max)
    (htyped : ∀ i, ListTyped (lists i)) :
    Resolves own (constructing comm lists safe) (Acceptable comm lists safe) := by
  by_cases hempty : n = 0
  · subst hempty
    have hnone : ∀ i : Fin 0, False := fun i => i.elim0
    exact ⟨_, .here (.inl fun i => (hnone i).elim), fun i => (hnone i).elim,
      .inr ⟨⟨fun i => (hnone i).elim, fun i => (hnone i).elim, fun i => (hnone i).elim,
        fun i => (hnone i).elim⟩, fun i => (hnone i).elim⟩⟩
  let i₀ : Fin n := ⟨0, Nat.pos_of_ne_zero hempty⟩
  let config : Fin n → List LaneSpec := fun i => (lists i).insertionSort LaneSpec.le
  have hperm : ∀ i, (config i).Perm (lists i) := fun i => List.perm_insertionSort _ _
  have hsorted : ∀ i, (config i).Pairwise LaneSpec.le := fun i => List.pairwise_insertionSort _ _
  have hranks : ∀ i, ∀ spec ∈ config i, Ring.RankTyped spec :=
    fun i spec hspec => (htyped i).ranks spec ((hperm i).mem_iff.mp hspec)
  have hsame : ∀ i j, (lists i).Perm (lists j) → config i = config j := by
    intro i j h
    exact ((hperm i).trans (h.trans (hperm j).symm)).eq_of_pairwise
      (fun a b _ _ hab hba => antisymm hab hba) (hsorted i) (hsorted j)
  have hstart : ∀ i, (constructing comm lists safe i).rest =
      .op (.allGather [(config i).length]) fun counts =>
        Ring.countedWith (safe i) (config i) (Ring.agreedWith (comm i) (safe i) n i (config i))
          counts () :=
    fun i => Ring.new_eq (hinter i) (hsize i) (hrank i)
  have hquiet : ∀ i, Unallocated (constructing comm lists safe i) := by
    intro i e he
    contradiction
  refine .gathers hstart (fun _ => rfl) ?_
  by_cases hcounts : ∃ j k, (config j).length ≠ (config k).length
  · obtain ⟨j, k, hjk⟩ := hcounts
    refine .fails (fun i => (hquiet i).gather _ _ _) (fun i => Ring.countedWith_differs hjk) ?_
    intro h
    exact hjk (congrArg List.length (hsame j k (h.same j k)))
  have hlength : ∀ i j, (config j).length = (config i).length := by
    intro i j
    by_contra h
    exact hcounts ⟨j, i, h⟩
  have hwidth : ∀ i, (Ring.encode (safe i) (config i)).length = 4 * (config i₀).length + 1 := by
    intro i
    rw [Ring.length_encode, hlength i₀ i]
  refine .gathers (fun i => Ring.countedWith_same (hlength i)) hwidth ?_
  by_cases hrows : ∃ j k, Ring.encode (safe j) (config j) ≠ Ring.encode (safe k) (config k)
  · obtain ⟨j, k, hjk⟩ := hrows
    refine .fails (fun i => ((hquiet i).gather _ _ _).gather _ _ _)
      (fun i => Ring.comparedWith_differs (hlength i) hjk) ?_
    intro h
    apply hjk
    rw [h.mode j k, hsame j k (h.same j k)]
  have hencode : ∀ i j, Ring.encode (safe j) (config j) = Ring.encode (safe i) (config i) := by
    intro i j
    by_contra h
    exact hrows ⟨j, i, h⟩
  have hagree : ∀ i j, safe i = safe j ∧ config i = config j :=
    fun i j => Ring.encode_injective (hranks i) (hranks j) (hencode j i)
  have hbound : (config i₀).length ≤ usizeMax := by
    rw [(hperm i₀).length_eq]
    exact (htyped i₀).length
  have hnext : ∀ i : Fin n, Ring.comparedWith (safe i) (config i)
      (Ring.agreedWith (comm i) (safe i) n i (config i))
      (List.ofFn fun i => Ring.encode (safe i) (config i)).flatten () =
        Ring.agreedWith (comm i) (safe i₀) n i (config i₀) () := by
    intro i
    rw [Ring.comparedWith_same (hlength i) (hencode i), (hagree i i₀).1, (hagree i i₀).2]
  have hgood : (∀ i, (comm i).threading = .multiple) ∧ ListAccepted n (config i₀) ↔
      Acceptable comm lists safe := by
    constructor
    · rintro ⟨hmultiple, haccepted⟩
      refine ⟨hmultiple, fun i j => (hagree i j).1, ?_, ?_⟩
      · intro i j
        apply (hperm i).symm.trans
        rw [(hagree i j).2]
        exact hperm j
      · intro i
        apply haccepted.perm
        rw [← (hagree i i₀).2]
        exact hperm i
    · intro h
      exact ⟨h.threading, (h.accepted i₀).perm (hperm i₀).symm⟩
  apply Resolves.iff hgood
  exact agreed_resolves hsize hinter hthreading hn i₀ (hsorted i₀) hbound
    (fun i => ((hquiet i).gather _ _ _).gather _ _ _) hnext

def oneLane : LaneSpec := ⟨0, 1, 3, 8⟩

theorem oneLane_accepted : ListAccepted 2 [oneLane] := by
  refine ⟨by decide, ?_, ?_, ?_⟩
  · intro spec hspec
    obtain rfl := List.mem_singleton.mp hspec
    exact ⟨by decide, by decide, by decide, by decide, by decide⟩
  · intro spec hspec
    obtain rfl := List.mem_singleton.mp hspec
    decide
  · decide

/-- Two ranks that pass that lane come to the allocation. -/
theorem construction_symmetric_pair :
    ∃ G, ComesTo MpiCall.collective (fun _ => fine) MpiCall.Joint MpiCall.operation
        (constructing pairComm (fun _ => [oneLane]) fun _ => true) G ∧
      ∀ i, ∃ bytes width k, (G i).rest = .op (.winAllocate bytes width) k := by
  have htyped : ListTyped [oneLane] := by
    refine ⟨by decide, ?_⟩
    intro spec hspec
    exact (oneLane_accepted.specs spec hspec).rankTyped (by decide)
  obtain ⟨G, hcomes, -, ⟨hbad, -⟩ | ⟨-, hallocate⟩⟩ :=
    construction_symmetric pairComm (fun _ => [oneLane]) (fun _ => true) (fun _ => fine)
      (fun _ => rfl) (fun _ => rfl) (fun _ => rfl) (fun _ _ => rfl) (by decide) fun _ => htyped
  · apply absurd _ hbad
    exact ⟨fun _ => rfl, fun _ _ => rfl, fun _ _ => .refl _, fun _ => oneLane_accepted⟩
  · exact ⟨G, hcomes, hallocate⟩

/-- A communicator of one rank whose library supports one thread only. -/
def singleComm (i : Fin 1) : Comm := ⟨1, i.val, false, .single, 45⟩

/-- One mode, one list and an accepted one, and yet the construction fails. -/
theorem construction_below_multiple :
    ListAccepted 1 [] ∧ ∃ G, Together MpiCall.collective (fun _ => fine) MpiCall.Joint
        (constructing singleComm (fun _ => []) fun _ => true) G ∧
      ∀ i, (G i).rest = .ret (.error (.threading .single), ()) := by
  have hempty : ∀ spec : LaneSpec, spec ∉ [] := fun spec => List.not_mem_nil
  refine ⟨⟨by decide, fun spec h => absurd h (hempty spec), fun spec h => absurd h (hempty spec),
    by decide⟩, ?_⟩
  have hstart : ∀ i, (constructing singleComm (fun _ => []) (fun _ => true) i).rest =
      .op (.allGather [0]) fun counts =>
        Ring.countedWith true [] (Ring.agreedWith (singleComm i) true 1 i []) counts () :=
    fun i => @Ring.new_eq (singleComm i) [] true 1 i rfl rfl rfl
  have hcounted : ∀ i, Ring.countedWith true [] (Ring.agreedWith (singleComm i) true 1 i [])
      (List.ofFn fun _ : Fin 1 => [0]).flatten () = .op (.allGather [1]) fun all =>
        Ring.comparedWith true [] (Ring.agreedWith (singleComm i) true 1 i []) all () :=
    fun i => rfl
  refine ⟨_, .tail (.single ((meets_gather (fun _ hrow => hrow) hstart
    (.allGather _ 1 fun _ => rfl)).mpr rfl)) ((meets_gather (fun _ hrow => hrow) hcounted
    (.allGather _ 1 fun _ => rfl)).mpr rfl), ?_⟩
  intro i
  rfl

end MpiRma
