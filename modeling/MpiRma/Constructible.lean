/-
  MpiRma/Constructible.lean
  =========================
  **Which lists become rings.**  Where every MPI call succeeds, all ranks construct a ring
  exactly when they pass permutations of one accepted list.  A successful construction is
  written down call by call, and the collective calls of the ranks are the columns of one
  table.
-/
import MpiRma.Agreement
import MpiRma.Wiring
import Mathlib.Data.List.ProdSigma
import Mathlib.Data.List.Rotate

namespace MpiRma

open Construct

/-! ### The rows of the table -/

section Rows

variable {n : Nat}

def gatherOf (rows : Fin n → List Nat) (i : Fin n) : MpiEvent :=
  ⟨.allGather (rows i), (List.ofFn rows).flatten⟩

def allocationOf (element : Element) (len : Fin n → Nat) (i : Fin n) : MpiEvent :=
  ⟨.winAllocate (len i * element.width) element.width, .ok ⟨element.width, false⟩⟩

def barrierOf (_ : Fin n) : MpiEvent := ⟨.barrier, ()⟩

theorem joint_gatherOf {rows : Fin n → List Nat} {width : Nat} (h : ∀ i, (rows i).length = width) :
    MpiCall.Joint (gatherOf rows) :=
  MpiCall.Joint.allGather rows width h

theorem joint_allocationOf (element : Element) (len : Fin n → Nat) :
    MpiCall.Joint (allocationOf element len) :=
  MpiCall.Joint.winAllocate _ _ _

theorem joint_barrierOf : MpiCall.Joint (barrierOf (n := n)) := MpiCall.Joint.barrier

end Rows

/-! ### How many lanes there are -/

namespace ListAccepted

variable {n : Nat} {list : List LaneSpec}

/-- No more lanes than pairs of ranks. -/
theorem length_le (h : ListAccepted n list) : list.length ≤ n * n := by
  have hsubset : (list.map fun spec => (spec.source, spec.destination)) ⊆
      (List.range n ×ˢ List.range n).map fun pair => ((pair.1 : Int), (pair.2 : Int)) := by
    intro pair hpair
    obtain ⟨spec, hspec, rfl⟩ := List.mem_map.mp hpair
    have hok := h.specs spec hspec
    have hsource := hok.source
    have hdestination := hok.destination
    apply List.mem_map.mpr
    refine ⟨(spec.source.toNat, spec.destination.toNat), ?_, ?_⟩
    · simp [hsource, hdestination]
    · simp [hsource, hdestination]
  have hcount := (List.subperm_of_subset h.distinct hsubset).length_le
  simpa [List.length_product] using hcount

/-- No more lanes from one rank than ranks. -/
theorem lanesFrom_le (h : ListAccepted n list) (s : Int) : Ring.lanesFrom s list ≤ n := by
  have hcount : ∀ more : List LaneSpec, Ring.lanesFrom s more =
      (more.filter fun spec => spec.source = s).length := by
    intro more
    induction more with
    | nil => rfl
    | cons spec rest ih =>
      have hcons : Ring.lanesFrom s (spec :: rest) = Ring.countersAt s spec +
        Ring.lanesFrom s rest := by
        simp [Ring.lanesFrom, Placement.total]
      rw [hcons, ih, Ring.countersAt, List.filter_cons]
      split
      · simp_all [Nat.add_comm]
      · simp_all
  have hnodup : ((list.filter fun spec => spec.source = s).map LaneSpec.destination).Nodup := by
    apply List.pairwise_map.mpr
    apply ((List.pairwise_map.mp h.distinct).filter _).imp_of_mem
    intro a b ha hb hne heq
    have hsa := of_decide_eq_true (List.mem_filter.mp ha).2
    have hsb := of_decide_eq_true (List.mem_filter.mp hb).2
    exact hne (Prod.ext (hsa.trans hsb.symm) heq)
  have hsubset : ((list.filter fun spec => spec.source = s).map LaneSpec.destination) ⊆
      (List.range n).map fun d : Nat => (d : Int) := by
    intro d hd
    obtain ⟨spec, hspec, rfl⟩ := List.mem_map.mp hd
    have hdestination := (h.specs spec (List.mem_filter.mp hspec).1).destination
    apply List.mem_map.mpr
    exact ⟨spec.destination.toNat, by simp [hdestination], by simp [hdestination]⟩
  have hle := (List.subperm_of_subset hnodup hsubset).length_le
  rw [hcount]
  simpa using hle

end ListAccepted

/-! ### One allocation -/

namespace Window

variable {n : Nat} {comm : Comm} {element : Element} {len : Fin n → Nat} {i : Fin n}

def configOf (element : Element) (len : Fin n → Nat) (i : Fin n) : List Nat :=
  [len i, element.width, element.typeId]

def allocationRows (element : Element) (len : Fin n → Nat) : List (Fin n → MpiEvent) :=
  [gatherOf (configOf element len), allocationOf element len, barrierOf]

def allocationTrace (element : Element) (len : Fin n → Nat) (i : Fin n) : List MpiEvent :=
  [gatherOf (configOf element len) i, allocationOf element len i,
    ⟨.winGetAttr element.width, .ok (some .unified)⟩,
      ⟨.winLockAll element.width, .ok ()⟩, barrierOf i]

theorem joint_allocationRows {row : Fin n → MpiEvent} (h : row ∈ allocationRows element len) :
    MpiCall.Joint row := by
  simp only [allocationRows, List.mem_cons, List.not_mem_nil, or_false] at h
  rcases h with rfl | rfl | rfl
  · exact joint_gatherOf fun _ => rfl
  · exact joint_allocationOf element len
  · exact joint_barrierOf

theorem allocatedWith_runs (win length : Nat) (lengths : List Nat) :
    (allocatedWith comm length lengths (.ok ⟨win, false⟩) ()).Follows
      [⟨.winGetAttr win, .ok (some .unified)⟩, ⟨.winLockAll win, .ok ()⟩, ⟨.barrier, ()⟩]
      (.ok ⟨win, lengths, comm.rank, comm.size, .unified⟩, ()) := by
  have hepoch : initEpoch comm ⟨win, false⟩ length () =
      .op (.winGetAttr win) fun value => epochWith comm win value () := initEpoch_eq (by simp)
  have hopened : (orElse (initEpoch comm ⟨win, false⟩ length)
      (do let _ ← winFree win; pure ()) ()).Follows
      [⟨.winGetAttr win, .ok (some .unified)⟩, ⟨.winLockAll win, .ok ()⟩] (.ok .unified, ()) := by
    unfold orElse
    rw [hepoch]
    exact ⟨_, _, rfl, _, _, rfl, rfl, rfl⟩
  apply Code.follows_lift_ok.mpr
  refine ⟨⟨win, false⟩, rfl, ?_⟩
  apply Code.follows_bind_ok.mpr
  refine ⟨.unified, (), _, [⟨.barrier, ()⟩], rfl, hopened, ?_⟩
  exact ⟨_, _, rfl, rfl, rfl⟩

/-- **An allocation of sizes that fit succeeds.** -/
theorem allocate_runs (hsize : comm.size = n) (hcomm : ¬ Refused n comm)
    (helement : element ∈ elements) (hfits : ∀ j, len j * element.width ≤ aintMax) (i : Fin n) :
    (allocate comm element (len i) ()).Follows (allocationTrace element len i)
      (.ok ⟨element.width, List.ofFn len, comm.rank, comm.size, .unified⟩, ()) := by
  have hwidth : element.width ≤ i32Max := Nat.le_trans (width_le helement) (by decide)
  have hchunks : chunksExact 3 (List.ofFn (configOf element len)).flatten =
      configsOf (fun _ => element) len := chunks_configsOf
  have hgathered : allocateWith comm element (len i) (configsOf (fun _ => element) len) () =
      .op (.winAllocate (len i * element.width) element.width) fun answer =>
        allocatedWith comm (len i) (List.ofFn len) answer () :=
    allocateWith_fits (fun _ => rfl) hwidth hfits
  rw [allocate_eq element _ hsize hcomm]
  apply Program.follows_cons.mpr
  rw [hchunks, hgathered]
  apply Program.follows_cons.mpr
  exact allocatedWith_runs _ _ _

end Window

/-! ### The whole construction -/

namespace Ring

section Building

variable {n : Nat} {comm : Comm} {safe : Bool} {config : List LaneSpec}
  {tables : Tables} {i : Fin n}

def bytesOf (config : List LaneSpec) (i : Fin n) : Nat := bytesInto (i : Nat) config

def countersOf (config : List LaneSpec) (i : Fin n) : Nat := lanesFrom (i : Nat) config

/-- The collective calls of a construction. -/
def constructionRows (n : Nat) (safe : Bool) (config : List LaneSpec) : List (Fin n → MpiEvent) :=
  [gatherOf fun _ => [config.length], gatherOf fun _ => encode safe config] ++
    (Window.allocationRows .u8 (bytesOf config) ++
      ((if safe then Window.allocationRows .u64 (countersOf config) else []) ++
        [gatherOf fun _ => [1]]))

def constructionTrace (safe : Bool) (config : List LaneSpec) (i : Fin n) : List MpiEvent :=
  [gatherOf (fun _ => [config.length]) i, gatherOf (fun _ => encode safe config) i] ++
    (Window.allocationTrace .u8 (bytesOf config) i ++
      ((if safe then Window.allocationTrace .u64 (countersOf config) i else []) ++
        [gatherOf (fun _ => [1]) i]))

theorem joint_constructionRows {row : Fin n → MpiEvent} (h : row ∈ constructionRows n safe config) :
    MpiCall.Joint row := by
  simp only [constructionRows, List.mem_append, List.mem_cons, List.not_mem_nil, or_false] at h
  rcases h with (rfl | rfl) | h | h | rfl
  · exact joint_gatherOf fun _ => rfl
  · exact joint_gatherOf fun _ => rfl
  · exact Window.joint_allocationRows h
  · split at h
    · exact Window.joint_allocationRows h
    · contradiction
  · exact joint_gatherOf fun _ => rfl

theorem constructionTrace_calls :
    collectiveCalls (constructionTrace safe config i) =
      (constructionRows n safe config).map (· i) := by
  cases safe with
  | true => rfl
  | false => rfl

theorem verdict_tables {ranks me : Nat} (h : verdict ranks me config = .ok tables) :
    TablesOk ranks me config tables := by
  unfold verdict at h
  split at h
  · contradiction
  obtain ⟨_, hchecked, hlaid⟩ := except_bind_ok.mp h
  exact layout_ok (checkSpecs_iff.mp hchecked) (TablesOk.empty ranks me) hlaid

def builtRing (comm : Comm) (n : Nat) (safe : Bool) (config : List LaneSpec) (tables : Tables) :
    Ring where
  slots := ⟨1, List.ofFn (bytesOf (n := n) config), comm.rank, comm.size, .unified⟩
  acks := if safe then some ⟨8, List.ofFn (countersOf (n := n) config), comm.rank,
    comm.size, .unified⟩
    else none
  ranks := n
  toLanes := tables.toLanes
  fromLanes := tables.fromLanes
  incoming := incomingOf comm.rank config

variable (hsize : comm.size = n) (hcomm : ¬ Refused n comm)
include hsize hcomm

theorem allocateAcks_runs (slots : Window)
    (hcounters : ∀ j : Fin n, countersOf config j * 8 ≤ aintMax) :
    (orElse (allocateAcks comm safe (countersOf config i)) slots.finish ()).Follows
      (if safe then Window.allocationTrace .u64 (countersOf config) i else [])
      (.ok (builtRing comm n safe config tables).acks, ()) := by
  have hacks : (allocateAcks comm safe (countersOf config i) ()).Follows
      (if safe then Window.allocationTrace .u64 (countersOf config) i else [])
      (.ok (builtRing comm n safe config tables).acks, ()) := by
    unfold allocateAcks
    cases safe with
    | true =>
      apply Code.follows_bind_ok.mpr
      refine ⟨_, (), _, [], (List.append_nil _).symm, ?_, rfl, rfl⟩
      exact Window.allocate_runs hsize hcomm (by decide) hcounters i
    | false => exact ⟨rfl, rfl⟩
  unfold orElse
  apply Program.follows_bind.mpr
  exact ⟨_, _, [], (List.append_nil _).symm, hacks, rfl, rfl⟩

theorem slotted_runs (hcounters : ∀ j : Fin n, countersOf config j * 8 ≤ aintMax)
    (hat : tables.ackLengths.getD i 0 = countersOf config i) :
    (slotted comm safe n i config tables
        ⟨1, List.ofFn (bytesOf (n := n) config), comm.rank, comm.size, .unified⟩ ()).Follows
      ((if safe then Window.allocationTrace .u64 (countersOf config) i else []) ++
        [gatherOf (fun _ => [1]) i])
      (.ok (builtRing comm n safe config tables), ()) := by
  let slots : Window := ⟨1, List.ofFn (bytesOf (n := n) config), comm.rank, comm.size, .unified⟩
  have hacks : (orElse (allocateAcks comm safe (countersOf config i)) slots.finish ()).Follows
      (if safe then Window.allocationTrace .u64 (countersOf config) i else [])
      (.ok (builtRing comm n safe config tables).acks, ()) :=
    allocateAcks_runs hsize hcomm slots hcounters
  have hunified : (decide (MemoryModel.unified = .unified) &&
      (builtRing comm n safe config tables).acks.all fun w => w.model = .unified) = true := by
    cases safe with
    | true => rfl
    | false => rfl
  have hmodels : (List.ofFn fun _ : Fin n => [1]).flatten.contains 0 = false := by
    simp
  unfold slotted
  rw [hat]
  apply Code.follows_bind_ok.mpr
  refine ⟨_, (), _, _, rfl, hacks, ?_⟩
  dsimp only
  rw [hunified]
  apply Code.follows_perform.mpr
  refine ⟨_, [], rfl, ?_⟩
  rw [if_neg (Bool.eq_false_iff.mp hmodels)]
  exact ⟨rfl, rfl⟩

omit hsize hcomm in
/-- A sorted list that is accepted gets through the checks. -/
theorem sorted_verdict {list : List LaneSpec} (hlist : ListAccepted n list) (hn : 3 * n ≤ i32Max)
    (me : Nat) : ∃ tables, verdict n me (list.insertionSort LaneSpec.le) = .ok tables := by
  have hperm : (list.insertionSort LaneSpec.le).Perm list := List.perm_insertionSort _ _
  have hle := (hlist.perm hperm.symm).length_le
  have hsquare : n * n ≤ i32Max * i32Max := Nat.mul_le_mul (by omega) (by omega)
  apply verdict_fits me (List.pairwise_insertionSort _ _) (hlist.perm hperm.symm)
  unfold i32Max at hsquare
  unfold usizeMax
  omega

omit hsize hcomm in
/-- **An accepted list is constructed.** -/
theorem new_runs {list : List LaneSpec} (hsize : comm.size = n) (hcomm : ¬ Refused n comm)
    (hrank : comm.rank = i.val) (hlist : ListAccepted n list)
    (htables : verdict n i (list.insertionSort LaneSpec.le) = .ok tables) :
    (new comm list safe ()).Follows (constructionTrace safe (list.insertionSort LaneSpec.le) i)
      (.ok (builtRing comm n safe (list.insertionSort LaneSpec.le) tables), ()) := by
  have hperm : (list.insertionSort LaneSpec.le).Perm list := List.perm_insertionSort _ _
  generalize hconfig : list.insertionSort LaneSpec.le = config at hperm htables
  have haccepted : ListAccepted n config := hlist.perm hperm.symm
  obtain ⟨hinter, -, hn⟩ := not_refused hcomm
  have hbytes : tables.lengths.getD i.val 0 = bytesOf config i := verdict_lengths htables i.isLt
  have hcounters : tables.ackLengths.getD i.val 0 = countersOf config i := by
    rw [List.getD_eq_getElem?_getD, (verdict_tables htables).ackLengths i i.isLt]
    rfl
  have hbytesFit : ∀ j : Fin n, bytesOf config j * Element.u8.width ≤ aintMax := by
    intro j
    have hfits := haccepted.bytes j j.isLt
    simpa [bytesOf, Element.u8] using hfits
  have hcountersFit : ∀ j : Fin n, countersOf config j * 8 ≤ aintMax := by
    intro j
    have hle : countersOf config j ≤ n := haccepted.lanesFrom_le _
    unfold i32Max at hn
    unfold aintMax
    omega
  have hcounted : countedWith safe config (agreedWith comm safe n i config)
      (List.ofFn fun _ : Fin n => [config.length]).flatten () =
      .op (.allGather (encode safe config)) fun all =>
        comparedWith safe config (agreedWith comm safe n i config) all () :=
    @countedWith_same n (fun _ => config) (fun _ => safe) _ i fun _ => rfl
  have hcompared : comparedWith safe config (agreedWith comm safe n i config)
      (List.ofFn fun _ : Fin n => encode safe config).flatten () =
      agreedWith comm safe n i config () :=
    @comparedWith_same n (fun _ => config) (fun _ => safe) _ i (fun _ => rfl) fun _ => rfl
  rw [new_eq hinter hsize hrank, hconfig]
  apply Program.follows_cons.mpr
  rw [hcounted]
  apply Program.follows_cons.mpr
  rw [hcompared]
  unfold agreedWith
  apply Code.follows_lift_ok.mpr
  refine ⟨tables, htables, ?_⟩
  unfold laidWith
  rw [hbytes]
  apply Code.follows_bind_ok.mpr
  refine ⟨_, (), Window.allocationTrace .u8 (bytesOf config) i, _, rfl,
    Window.allocate_runs hsize hcomm (by decide) hbytesFit i, ?_⟩
  exact slotted_runs hsize hcomm hcountersFit hcounters

end Building

end Ring

/-! ### All ranks together -/

section Group

variable {n : Nat} {comm : Fin n → Comm} {lists : Fin n → List LaneSpec} {safe : Bool}
  {ring : Nat → Ring}

/-- A rank that constructed a ring passed the checks of its communicator. -/
theorem Constructed.admitted (h : Constructed n comm lists safe ring) (i : Fin n) :
    ¬ Refused n (comm i) := by
  intro hrefused
  obtain ⟨τ, rows, hfollows, -, -⟩ := h.run
  have hrun := hfollows i
  dsimp only at hrun
  unfold Ring.new at hrun
  split at hrun
  · exact absurd hrun Code.follows_throw
  obtain ⟨ranks, -, hrun⟩ := Code.follows_lift_ok.mp hrun
  obtain ⟨me, -, hrun⟩ := Code.follows_lift_ok.mp hrun
  obtain ⟨⟨⟩, ⟨⟩, τ₁, τ₂, -, -, hrun⟩ := Code.follows_bind_ok.mp hrun
  split at hrun
  · exact absurd hrun Code.follows_throw
  obtain ⟨⟨⟩, -, hrun⟩ := Code.follows_lift_ok.mp hrun
  obtain ⟨tables, -, hrun⟩ := Code.follows_lift_ok.mp hrun
  obtain ⟨slots, ⟨⟩, τ₃, τ₄, -, hslots, -⟩ := Code.follows_bind_ok.mp hrun
  obtain ⟨e, he⟩ := Window.allocate_refused .u8 (tables.lengths.getD me 0) (h.size i) hrefused
  rw [he] at hslots
  obtain ⟨-, hno⟩ := hslots
  simp at hno

/-- The list of a constructed ring is accepted. -/
theorem Constructed.accepted (h : Constructed n comm lists safe ring) (i : Fin n) :
    ListAccepted n (lists i) := by
  have hlaid := h.laid i
  have hperm : ((lists i).insertionSort LaneSpec.le).Perm (lists i) := List.perm_insertionSort _ _
  apply ListAccepted.perm _ hperm
  refine ⟨?_, hlaid.specs, hlaid.counts, hlaid.slotsFit⟩
  apply List.pairwise_map.mpr
  apply hlaid.strict.imp
  intro a b hab heq
  unfold Ring.before at hab
  simp only [Prod.mk.injEq] at heq
  omega

/-- Permutations of one list are sorted into one list. -/
theorem sorted_alike (h : ∀ i j, (lists i).Perm (lists j)) :
    ∃ config, ∀ i, (lists i).insertionSort LaneSpec.le = config := by
  cases n with
  | zero => exact ⟨[], fun i => i.elim0⟩
  | succ m =>
    refine ⟨(lists 0).insertionSort LaneSpec.le, fun i => ?_⟩
    have hperm : ((lists i).insertionSort LaneSpec.le).Perm ((lists 0).insertionSort LaneSpec.le) :=
      (List.perm_insertionSort _ _).trans ((h i 0).trans (List.perm_insertionSort _ _).symm)
    exact hperm.eq_of_pairwise (fun a b _ _ hab hba => antisymm hab hba)
      (List.pairwise_insertionSort _ _) (List.pairwise_insertionSort _ _)

section Admitted

variable (hsize : ∀ i, (comm i).size = n) (hrank : ∀ i, (comm i).rank = i.val)
  (hcomm : ∀ i, ¬ Refused n (comm i))
include hsize hrank hcomm

/-- Ranks that pass permutations of an accepted list get the rings of its layout. -/
theorem constructed_built (hperm : ∀ i j, (lists i).Perm (lists j))
    (haccepted : ∀ i, ListAccepted n (lists i))
    (hring : ∀ i : Fin n, ∃ tables,
      Ring.verdict n i ((lists i).insertionSort LaneSpec.le) = .ok tables ∧
      ring i = Ring.builtRing (comm i) n safe ((lists i).insertionSort LaneSpec.le) tables) :
    Constructed n comm lists safe ring := by
  obtain ⟨config, hconfig⟩ := sorted_alike hperm
  have hsmall : n ≤ i32Max := by
    cases n with
    | zero => exact Nat.zero_le _
    | succ m =>
      obtain ⟨-, -, hn⟩ := not_refused (hcomm 0)
      omega
  refine ⟨hsmall, hsize, hrank, fun i => Ring.constructionTrace safe config i,
    Ring.constructionRows n safe config, ?_, fun i => Ring.constructionTrace_calls,
    fun row hrow => Ring.joint_constructionRows hrow⟩
  intro i
  obtain ⟨tables, htables, hi⟩ := hring i
  dsimp only
  rw [hi, ← hconfig i]
  exact Ring.new_runs (hsize i) (hcomm i) (hrank i) (haccepted i) htables

/-- **All ranks construct a ring exactly when they pass permutations of an accepted list**, where
    the library lets every rank call from several threads and no MPI call fails. -/
theorem constructed_iff :
    (∃ ring, Constructed n comm lists safe ring) ↔
      (∀ i j, (lists i).Perm (lists j)) ∧ ∀ i, ListAccepted n (lists i) := by
  constructor
  · rintro ⟨ring, hring⟩
    refine ⟨fun i j => ?_, hring.accepted⟩
    have hi : ((lists i).insertionSort LaneSpec.le).Perm (lists i) := List.perm_insertionSort _ _
    rw [hring.same i j] at hi
    exact hi.symm.trans (List.perm_insertionSort _ _)
  · rintro ⟨hperm, haccepted⟩
    choose tables htables using fun i : Fin n =>
      Ring.sorted_verdict (haccepted i) (not_refused (hcomm i)).2.2 i
    let rings : Fin n → Ring := fun i =>
      Ring.builtRing (comm i) n safe ((lists i).insertionSort LaneSpec.le) (tables i)
    let unused : Ring := Ring.builtRing ⟨0, 0, false, .multiple, 0⟩ 0 false [] (Ring.Tables.empty 0)
    refine ⟨Function.extend Fin.val rings fun _ => unused,
      constructed_built hsize hrank hcomm hperm haccepted fun i => ?_⟩
    rw [Fin.val_injective.extend_apply]
    exact ⟨tables i, htables i, rfl⟩

end Admitted

end Group

/-! ### A ring of three ranks -/

def meshComm (i : Fin 3) : Comm := ⟨3, i.val, false, .multiple, 45⟩

def meshList : List LaneSpec := [⟨0, 1, 3, 8⟩, ⟨1, 0, 1, 4⟩, ⟨2, 1, 2, 16⟩]

def meshLists (i : Fin 3) : List LaneSpec := meshList.rotate i

theorem meshComm_accepted (i : Fin 3) : ¬ Refused 3 (meshComm i) := by
  rintro (h | h | h)
  · contradiction
  · exact h rfl
  · revert h
    decide

theorem meshList_accepted : ListAccepted 3 meshList := by
  refine ⟨by decide, ?_, ?_, by decide⟩
  · intro spec hspec
    simp only [meshList, List.mem_cons, List.not_mem_nil, or_false] at hspec
    rcases hspec with rfl | rfl | rfl
    · exact ⟨by decide, by decide, by decide, by decide, by decide⟩
    · exact ⟨by decide, by decide, by decide, by decide, by decide⟩
    · exact ⟨by decide, by decide, by decide, by decide, by decide⟩
  · decide

theorem meshLists_perm (i : Fin 3) : meshList.Perm (meshLists i) := (List.rotate_perm _ _).symm

/-- The ranks pass the list in three orders. -/
theorem constructed_iff_mesh : ∃ ring, Constructed 3 meshComm meshLists true ring := by
  apply (constructed_iff (fun _ => rfl) (fun _ => rfl) meshComm_accepted).mpr
  exact ⟨fun i j => (meshLists_perm i).symm.trans (meshLists_perm j),
    fun i => meshList_accepted.perm (meshLists_perm i)⟩

def meshRing (safe : Bool) (i : Nat) : Ring :=
  match Ring.verdict 3 i meshList with
  | .ok tables => Ring.builtRing ⟨3, i, false, .multiple, 45⟩ 3 safe meshList tables
  | .error _ => Ring.builtRing ⟨3, i, false, .multiple, 45⟩ 3 safe [] (Ring.Tables.empty 3)

theorem mesh_constructed (safe : Bool) : Constructed 3 meshComm meshLists safe (meshRing safe) := by
  apply constructed_built (fun _ => rfl) (fun _ => rfl) meshComm_accepted
  · exact fun i j => (meshLists_perm i).symm.trans (meshLists_perm j)
  · exact fun i => meshList_accepted.perm (meshLists_perm i)
  · intro i
    match i with
    | 0 => exact ⟨_, rfl, rfl⟩
    | 1 => exact ⟨_, rfl, rfl⟩
    | 2 => exact ⟨_, rfl, rfl⟩

end MpiRma
