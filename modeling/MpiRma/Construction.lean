/-
  MpiRma/Construction.lean
  ========================
  **All ranks construct the same ring.**  Construction is collective: every rank runs
  `Ring::new` on its own copy of the lane list, and the ranks only meet in gathers,
  allocations and barriers.  When all of them succeed (`Constructed`), the gathers have
  compared the sorted lists, so every rank laid out the same list, and the window
  lengths each rank keeps are the lengths all ranks allocated.  `Wired` is the outcome
  the operations rely on: one record for each pair of ranks, known to both endpoints.
-/
import MpiRma.LayoutFacts

namespace MpiRma

/-! ### What one rank's trace shows -/

abbrev collectiveCalls (τ : List MpiEvent) : List MpiEvent := τ.filter fun e => e.1.collective

theorem orElse_ok {α : Type} {m : Construct α} {cleanup : Construct Unit} {τ : List MpiEvent}
    {a : α} (h : (Construct.orElse m cleanup ()).Follows τ (.ok a, ())) :
    (m ()).Follows τ (.ok a, ()) := by
  obtain ⟨⟨r, v⟩, τ₁, τ₂, rfl, h₁, h₂⟩ := Program.follows_bind.mp h
  cases r with
  | ok b =>
    obtain ⟨rfl, hend⟩ := h₂
    simp only [Prod.mk.injEq, Except.ok.injEq, and_true] at hend
    subst hend
    simpa using h₁
  | error e =>
    obtain ⟨_, _, _, _, _, -, hend⟩ := Program.follows_bind.mp h₂
    simp at hend

namespace Window

/-- The epoch is opened without any collective call. -/
theorem initEpoch_follows {comm : Comm} {base : Base} {len : Nat} {τ : List MpiEvent}
    {model : MemoryModel} (h : (initEpoch comm base len ()).Follows τ (.ok model, ())) :
    collectiveCalls τ = [] := by
  unfold initEpoch at h
  split at h
  · exact absurd h Code.follows_throw
  · obtain ⟨value, τ₁, hτ, h⟩ := Code.follows_perform.mp h
    obtain ⟨flagged, -, h⟩ := Code.follows_lift_ok.mp h
    obtain ⟨found, -, h⟩ := Code.follows_lift_ok.mp h
    obtain ⟨locked, τ₂, hτ₁, h⟩ := Code.follows_perform.mp h
    obtain ⟨-, -, h⟩ := Code.follows_lift_ok.mp h
    split at h
    · obtain ⟨synced, τ₃, hτ₂, h⟩ := Code.follows_perform.mp h
      obtain ⟨-, -, h⟩ := Code.follows_lift_ok.mp h
      obtain ⟨hτ₃, -, -⟩ := Code.follows_pure.mp h
      subst hτ hτ₁ hτ₂ hτ₃
      rfl
    · obtain ⟨hτ₂, -, -⟩ := Code.follows_pure.mp h
      subst hτ hτ₁ hτ₂
      rfl

structure Allocated (comm : Comm) (element : Element) (configs : List Nat) (window : Window) :
    Prop where
  lengths : window.lengths = (chunksExact 3 configs).map fun c => c.headD 0
  rank : window.rank = comm.rank
  ranks : window.ranks = comm.size
  fits : ∀ length ∈ window.lengths, length * element.width ≤ aintMax

/-- A successful allocation is a gather, an allocation and a barrier. -/
theorem allocate_follows {comm : Comm} {element : Element} {len : Nat} {τ : List MpiEvent}
    {window : Window} (h : (allocate comm element len ()).Follows τ (.ok window, ())) :
    ∃ (configs : List Nat) (bytes width : Nat) (answer : Except Int Base),
      collectiveCalls τ = [⟨.allGather [len, element.width, element.typeId], configs⟩,
        ⟨.winAllocate bytes width, answer⟩, ⟨.barrier, ()⟩] ∧
      Allocated comm element configs window := by
  unfold allocate at h
  split at h
  · exact absurd h Code.follows_throw
  split at h
  · exact absurd h Code.follows_throw
  obtain ⟨ranks, -, h⟩ := Code.follows_lift_ok.mp h
  obtain ⟨configsLen, -, h⟩ := Code.follows_lift_ok.mp h
  split at h
  · exact absurd h Code.follows_throw
  obtain ⟨configs, τ₁, hτ, h⟩ := Code.follows_perform.mp h
  split at h
  · exact absurd h Code.follows_throw
  dsimp only at h
  split at h
  · exact absurd h Code.follows_throw
  rename_i hsizes
  obtain ⟨bytes, -, h⟩ := Code.follows_lift_ok.mp h
  obtain ⟨aint, -, h⟩ := Code.follows_lift_ok.mp h
  obtain ⟨width, -, h⟩ := Code.follows_lift_ok.mp h
  obtain ⟨answer, τ₂, hτ₁, h⟩ := Code.follows_perform.mp h
  obtain ⟨base, -, h⟩ := Code.follows_lift_ok.mp h
  obtain ⟨model, ⟨⟩, τ₃, τ₄, hτ₂, hepoch, h⟩ := Code.follows_bind_ok.mp h
  obtain ⟨⟨⟩, τ₅, hτ₄, h⟩ := Code.follows_perform.mp h
  obtain ⟨hτ₅, rfl, -⟩ := Code.follows_pure.mp h
  subst hτ hτ₁ hτ₂ hτ₄ hτ₅
  refine ⟨configs, aint, width, answer, ?_, ⟨rfl, rfl, rfl, fun length hlength => ?_⟩⟩
  · have hnone := initEpoch_follows (orElse_ok hepoch)
    unfold collectiveCalls at hnone ⊢
    rw [List.filter_cons_of_pos rfl, List.filter_cons_of_pos rfl, List.filter_append, hnone,
      List.nil_append, List.filter_cons_of_pos rfl, List.filter_nil]
  · have hfits := hsizes
    simp only [List.any_eq_true, not_exists, not_and] at hfits
    have := hfits length hlength
    simp only [Bool.not_eq_true, Option.isNone_eq_false_iff, Option.isSome_bind] at this
    unfold checkedMul tryFrom at this
    split at this
    · simp only [Option.any_some] at this
      split at this <;> simp_all
    · simp at this

end Window

namespace Ring

theorem agree_follows {safe : Bool} {config : List LaneSpec} {τ : List MpiEvent}
    (h : (agree safe config ()).Follows τ (.ok (), ())) :
    ∃ counts all : List Nat, τ =
      [⟨.allGather [config.length], counts⟩, ⟨.allGather (encode safe config), all⟩] ∧
      (∀ count ∈ counts, count = config.length) ∧
      ∀ other ∈ chunksExact (encode safe config).length all, other = encode safe config := by
  unfold agree at h
  obtain ⟨(counts : List Nat), τ₁, hτ, h⟩ := Code.follows_perform.mp h
  split at h
  · exact absurd h Code.follows_throw
  rename_i hcounts
  obtain ⟨(all : List Nat), τ₂, hτ₁, h⟩ := Code.follows_perform.mp h
  split at h
  · exact absurd h Code.follows_throw
  rename_i hall
  obtain ⟨hτ₂, -, -⟩ := Code.follows_pure.mp h
  subst hτ hτ₁ hτ₂
  exact ⟨counts, all, rfl, by simpa using hcounts, by simpa using hall⟩

/-- What one rank's successful run of `Ring::new` shows: its collective calls in order,
    the checks it made, and the ring it stored. -/
structure Built (comm : Comm) (config : List LaneSpec) (safe : Bool) (ring : Ring)
    (calls : List MpiEvent) : Prop where
  rank : 0 ≤ comm.rank
  counts : ∃ counts : List Nat, calls[0]? = some ⟨.allGather [config.length], counts⟩ ∧
    ∀ count ∈ counts, count = config.length
  rows : ∃ all : List Nat, calls[1]? = some ⟨.allGather (encode safe config), all⟩ ∧
    ∀ other ∈ chunksExact (encode safe config).length all, other = encode safe config
  distinct : repeated config = false
  specs : ∀ spec ∈ config, SpecOk comm.size.toNat spec
  tables : ∃ tables,
    layout comm.rank.toNat (Tables.empty comm.size.toNat) config = .ok tables ∧
    ring.toLanes = tables.toLanes ∧ ring.fromLanes = tables.fromLanes ∧
    (∃ configs : List Nat,
      calls[2]? = some ⟨.allGather [tables.lengths.getD comm.rank.toNat 0, 1, 1], configs⟩ ∧
      Window.Allocated comm .u8 configs ring.slots) ∧
    if safe then
      ∃ (configs : List Nat) (acks : Window), ring.acks = some acks ∧
        calls[5]? = some ⟨.allGather [tables.ackLengths.getD comm.rank.toNat 0, 8, 4], configs⟩ ∧
        Window.Allocated comm .u64 configs acks
    else ring.acks = none
  ranks : ring.ranks = comm.size.toNat
  incoming : ring.incoming = incomingOf comm.rank config

theorem tryRank_ok {value : Int} {n : Nat} (h : tryRank value = .ok n) :
    0 ≤ value ∧ n = value.toNat := by
  unfold tryRank at h
  split at h
  · exact nomatch h
  · exact ⟨by omega, (Except.ok.inj h).symm⟩

theorem new_follows {comm : Comm} {rings : List LaneSpec} {safe : Bool} {ring : Ring}
    {τ : List MpiEvent} (h : (new comm rings safe ()).Follows τ (.ok ring, ())) :
    Built comm (rings.insertionSort LaneSpec.le) safe ring (collectiveCalls τ) := by
  unfold new at h
  split at h
  · exact absurd h Code.follows_throw
  obtain ⟨ranks, hranks, h⟩ := Code.follows_lift_ok.mp h
  obtain ⟨-, rfl⟩ := tryRank_ok hranks
  obtain ⟨me, hme, h⟩ := Code.follows_lift_ok.mp h
  obtain ⟨hrank, rfl⟩ := tryRank_ok hme
  dsimp only at h
  obtain ⟨⟨⟩, ⟨⟩, τ₁, τ₂, hτ, hagree, h⟩ := Code.follows_bind_ok.mp h
  obtain ⟨counts, all, hτ₁, hcounts, hall⟩ := agree_follows hagree
  split at h
  · exact absurd h Code.follows_throw
  rename_i hdistinct
  obtain ⟨⟨⟩, hspecs, h⟩ := Code.follows_lift_ok.mp h
  obtain ⟨tables, htables, h⟩ := Code.follows_lift_ok.mp h
  obtain ⟨slots, ⟨⟩, τ₃, τ₄, hτ₂, hslots, h⟩ := Code.follows_bind_ok.mp h
  obtain ⟨configs, bytes, width, answer, hcalls, hallocated⟩ := Window.allocate_follows hslots
  obtain ⟨acks, ⟨⟩, τ₅, τ₆, hτ₄, hacks, h⟩ := Code.follows_bind_ok.mp h
  obtain ⟨models, τ₇, hτ₆, h⟩ := Code.follows_perform.mp h
  split at h
  · split at h
    · obtain ⟨_, _, _, _, _, _, h'⟩ := Code.follows_bind_ok.mp h
      obtain ⟨_, _, _, _, _, _, h''⟩ := Code.follows_bind_ok.mp h'
      exact absurd h'' Code.follows_throw
    · obtain ⟨_, _, _, _, _, _, h'⟩ := Code.follows_bind_ok.mp h
      exact absurd h' Code.follows_throw
  obtain ⟨hτ₇, rfl, -⟩ := Code.follows_pure.mp h
  subst hτ₁ hτ₇ hτ₆ hτ₄ hτ₂ hτ
  have hsplit : ∀ more : List MpiEvent, collectiveCalls
      ([⟨.allGather [(rings.insertionSort LaneSpec.le).length], counts⟩,
        ⟨.allGather (encode safe (rings.insertionSort LaneSpec.le)), all⟩] ++ (τ₃ ++ more)) =
      [⟨.allGather [(rings.insertionSort LaneSpec.le).length], counts⟩,
        ⟨.allGather (encode safe (rings.insertionSort LaneSpec.le)), all⟩,
        ⟨.allGather [tables.lengths.getD comm.rank.toNat 0, Element.u8.width, Element.u8.typeId],
          configs⟩, ⟨.winAllocate bytes width, answer⟩, ⟨.barrier, ()⟩] ++
            collectiveCalls more := by
    intro more
    unfold collectiveCalls at hcalls ⊢
    rw [List.filter_append, List.filter_append, hcalls]
    rfl
  rw [hsplit]
  refine ⟨hrank, ⟨counts, rfl, hcounts⟩, ⟨all, rfl, hall⟩, by simpa using hdistinct,
    checkSpecs_ok hspecs, ⟨tables, htables, rfl, rfl, ⟨configs, rfl, hallocated⟩, ?_⟩, rfl, rfl⟩
  have hacks := orElse_ok hacks
  unfold allocateAcks at hacks
  split at hacks
  · rename_i hsafe
    obtain ⟨window, ⟨⟩, τ₈, τ₉, hτ₅, hwindow, hacks⟩ := Code.follows_bind_ok.mp hacks
    obtain ⟨rfl, rfl, -⟩ := Code.follows_pure.mp hacks
    obtain ⟨ackConfigs, ackBytes, ackWidth, ackAnswer, hackCalls, hackAllocated⟩ :=
      Window.allocate_follows hwindow
    rw [if_pos hsafe]
    refine ⟨ackConfigs, window, rfl, ?_, hackAllocated⟩
    subst hτ₅
    unfold collectiveCalls at hackCalls ⊢
    rw [List.append_nil, List.filter_append, hackCalls]
    rfl
  · rename_i hraw
    obtain ⟨-, rfl, -⟩ := Code.follows_pure.mp hacks
    rw [if_neg hraw]

end Ring

/-! ### All ranks together -/

/-- All `n` ranks ran `Ring::new` in one mode, each on its own copy of the lane list, and
    rank `i` got `ring i`. -/
structure Constructed (n : Nat) (comm : Fin n → Comm) (lists : Fin n → List LaneSpec)
    (safe : Bool) (ring : Nat → Ring) : Prop where
  small : n ≤ i32Max
  size : ∀ i, (comm i).size = (n : Int)
  rank : ∀ i, (comm i).rank = ((i : Nat) : Int)
  run : CollectiveRun MpiCall.collective MpiCall.Joint
    (fun i => Ring.new (comm i) (lists i) safe ()) (fun i => (.ok (ring i), ()))

/-- In a gather every rank is answered the rows of all ranks. -/
theorem MpiCall.Joint.gathered {n : Nat} {row : Fin n → MpiEvent} (h : MpiCall.Joint row)
    {rows answer : Fin n → List Nat} (hrow : ∀ i, row i = ⟨.allGather (rows i), answer i⟩) :
    (∀ i j, (rows i).length = (rows j).length) ∧ ∀ i, answer i = (List.ofFn rows).flatten := by
  cases h with
  | allGather rows' width hwidth =>
    have hrows : rows' = rows := by
      funext i
      have := congrArg Sigma.fst (hrow i)
      simpa using this
    subst hrows
    refine ⟨fun i j => by rw [hwidth, hwidth], fun i => ?_⟩
    exact (eq_of_heq (Sigma.mk.inj (hrow i)).2).symm
  | winAllocate bytes width answers =>
    have hno : ∀ i : Fin n, False := fun i => nomatch congrArg Sigma.fst (hrow i)
    exact ⟨fun i => (hno i).elim, fun i => (hno i).elim⟩
  | winFree wins answers =>
    have hno : ∀ i : Fin n, False := fun i => nomatch congrArg Sigma.fst (hrow i)
    exact ⟨fun i => (hno i).elim, fun i => (hno i).elim⟩
  | barrier =>
    have hno : ∀ i : Fin n, False := fun i => nomatch congrArg Sigma.fst (hrow i)
    exact ⟨fun i => (hno i).elim, fun i => (hno i).elim⟩

/-- The calls at one place of all ranks' traces are a row of the collective run. -/
theorem joint_at {n : Nat} {τ : Fin n → List MpiEvent} {rows : List (Fin n → MpiEvent)}
    (hcolumns : ∀ i, collectiveCalls (τ i) = rows.map (· i))
    (hjoint : ∀ row ∈ rows, MpiCall.Joint row) {k : Nat} {call : Fin n → MpiEvent}
    (hcall : ∀ i, (collectiveCalls (τ i))[k]? = some (call i)) (i : Fin n) :
    MpiCall.Joint call := by
  have hat := hcall i
  rw [hcolumns i, List.getElem?_map, Option.map_eq_some_iff] at hat
  obtain ⟨row, hrow, -⟩ := hat
  have heq : row = call := by
    funext j
    have := hcall j
    rw [hcolumns j, List.getElem?_map, hrow] at this
    simpa using this
  exact heq ▸ hjoint row (List.mem_of_getElem? hrow)

/-- Cutting the concatenation of rows of one width gives the rows back. -/
theorem chunksExact_flatten {α : Type} {width : Nat} (hwidth : 0 < width) {rows : List (List α)}
    (h : ∀ row ∈ rows, row.length = width) : chunksExact width rows.flatten = rows := by
  induction rows with
  | nil => simp [chunksExact]
  | cons row rest ih =>
    have hrow : row.length = width := h row (by simp)
    have hlength : (row ++ rest.flatten).length / width = rest.flatten.length / width + 1 := by
      rw [List.length_append, hrow, Nat.add_comm, Nat.add_div_right _ hwidth]
    have htail : ∀ i, (row ++ rest.flatten).drop ((i + 1) * width) =
        rest.flatten.drop (i * width) := by
      intro i
      rw [Nat.succ_mul, Nat.add_comm, ← List.drop_drop, ← hrow, List.drop_left]
    have hrest := ih fun other hother => h other (by simp [hother])
    unfold chunksExact at hrest ⊢
    rw [List.flatten_cons, hlength, List.range_succ_eq_map, List.map_cons, List.map_map]
    simp only [Nat.zero_mul, List.drop_zero, Function.comp_def, Nat.succ_eq_add_one, htail]
    rw [hrest, ← hrow, List.take_left]

namespace Ring

structure RankTyped (spec : LaneSpec) : Prop where
  source : -2147483648 ≤ spec.source ∧ spec.source ≤ 2147483647
  destination : -2147483648 ≤ spec.destination ∧ spec.destination ≤ 2147483647

theorem SpecOk.rankTyped {ranks : Nat} {spec : LaneSpec} (h : SpecOk ranks spec)
    (hranks : ranks ≤ i32Max) : RankTyped spec := by
  unfold i32Max at hranks
  have hsource := h.source
  have hdestination := h.destination
  constructor
  · omega
  · omega

theorem rankWord_injective {a b : Int} (ha : -2147483648 ≤ a ∧ a ≤ 2147483647)
    (hb : -2147483648 ≤ b ∧ b ≤ 2147483647) (h : rankWord a = rankWord b) : a = b := by
  have hmod : ∀ c : Int, c.emod 18446744073709551616 = c % 18446744073709551616 := fun _ => rfl
  unfold rankWord at h
  rw [hmod, hmod] at h
  omega

/-- Lists of tuples are told apart by the words the ranks gather. -/
theorem encode_injective {safe safe' : Bool} {config config' : List LaneSpec}
    (h : ∀ spec ∈ config, RankTyped spec) (h' : ∀ spec ∈ config', RankTyped spec)
    (heq : encode safe config = encode safe' config') : safe = safe' ∧ config = config' := by
  simp only [encode, List.cons.injEq] at heq
  obtain ⟨hmode, heq⟩ := heq
  have hsame : ∀ a b : Bool, a.toNat = b.toNat → a = b := by decide
  refine ⟨hsame safe safe' hmode, ?_⟩
  induction config generalizing config' with
  | nil =>
    cases config' with
    | nil => rfl
    | cons => simp at heq
  | cons a rest ih =>
    cases config' with
    | nil => simp at heq
    | cons b rest' =>
      simp only [List.flatMap_cons, List.cons_append, List.nil_append, List.cons.injEq] at heq
      obtain ⟨hsource, hdest, hdepth, hcapacity, hrest⟩ := heq
      have ha := h a (by simp)
      have hb := h' b (by simp)
      obtain ⟨sa, da, pa, ca⟩ := a
      obtain ⟨sb, db, pb, cb⟩ := b
      have hs : sa = sb := rankWord_injective ha.source hb.source hsource
      have hd : da = db := rankWord_injective ha.destination hb.destination hdest
      simp only at hdepth hcapacity
      subst hs hd hdepth hcapacity
      rw [ih (fun spec hspec => h spec (by simp [hspec]))
        (fun spec hspec => h' spec (by simp [hspec])) hrest]

end Ring

def pairComm (i : Fin 2) : Comm := ⟨2, i.val, false, .multiple, 45⟩

end MpiRma
