/-
  MpiRma/Wiring.lean
  ==================
  **One layout known to all ranks.**  The sorted lists are equal on all ranks
  (`Constructed.same`), so both endpoints of a lane hold one record.  `Wired` collects
  what the operations of a constructed ring rely on: the record of every pair of ranks,
  the window lengths, and that lanes and counters do not overlap.
-/
import MpiRma.Construction

namespace MpiRma

open MpiRma.Ring

/-! ### The common list -/

structure Laid (n : Nat) (safe : Bool) (config : List LaneSpec) (ring : Nat → Ring) : Prop where
  strict : config.Pairwise before
  specs : ∀ spec ∈ config, SpecOk n spec
  counts : ∀ spec ∈ config, spec.capacity + (HEADER + WORD) ≤ i32Max
  ranks : ∀ i < n, (ring i).ranks = n
  toLength : ∀ i < n, (ring i).toLanes.length = n
  fromLength : ∀ i < n, (ring i).fromLanes.length = n
  toLanes : ∀ s < n, ∀ d < n, ∃ entry, (ring s).toLanes[d]? = some entry ∧ EntryOk config s d entry
  fromLanes : ∀ d < n, ∀ s < n,
    ∃ entry, (ring d).fromLanes[s]? = some entry ∧ EntryOk config s d entry
  incoming : ∀ i < n, (ring i).incoming = incomingOf i config
  slots : ∀ i < n, (ring i).slots.rank = (i : Int) ∧ (ring i).slots.ranks = (n : Int) ∧
    (ring i).slots.lengths = List.ofFn (fun d : Fin n => bytesInto (d : Nat) config)
  slotsFit : ∀ i < n, bytesInto i config ≤ aintMax
  acks : ∀ i < n, if safe then ∃ acks, (ring i).acks = some acks ∧ acks.rank = (i : Int) ∧
      acks.ranks = (n : Int) ∧
      acks.lengths = List.ofFn (fun s : Fin n => lanesFrom (s : Nat) config)
    else (ring i).acks = none
  acksFit : safe → ∀ i < n, lanesFrom i config ≤ aintMax

/-- The lengths a gather hands to every rank. -/
theorem gathered_lengths {n : Nat} {call : Fin n → MpiEvent} (h : MpiCall.Joint call)
    {len : Fin n → Nat} {width typeId : Nat} {configs : Fin n → List Nat}
    (hcall : ∀ i, call i = ⟨.allGather [len i, width, typeId], configs i⟩) (i : Fin n) :
    (chunksExact 3 (configs i)).map (fun c => c.headD 0) = List.ofFn len := by
  obtain ⟨-, hanswer⟩ := h.gathered hcall
  rw [hanswer i, chunksExact_flatten (by omega) (by simp [List.mem_ofFn]), List.map_ofFn]
  rfl

section

variable {n : Nat} {comm : Fin n → Comm} {lists : Fin n → List LaneSpec} {safe : Bool}
  {ring : Nat → Ring}

/-- Any two ranks sorted their lists into the same list. -/
theorem Constructed.same (h : Constructed n comm lists safe ring) (i j : Fin n) :
    (lists i).insertionSort LaneSpec.le = (lists j).insertionSort LaneSpec.le := by
  obtain ⟨τ, rows, hfollows, hcolumns, hjoint⟩ := h.run
  have hbuilt := fun k => new_follows (hfollows k)
  choose all hat hall using fun k => (hbuilt k).rows
  obtain ⟨hlen, hanswer⟩ := (joint_at hcolumns hjoint hat i).gathered (fun _ => rfl)
  have hwidth : 0 < (encode safe ((lists i).insertionSort LaneSpec.le)).length := by
    simp [encode]
  have hrow : encode safe ((lists j).insertionSort LaneSpec.le) =
      encode safe ((lists i).insertionSort LaneSpec.le) := by
    refine hall i _ ?_
    rw [hanswer i, chunksExact_flatten hwidth]
    · exact List.mem_ofFn.mpr ⟨j, rfl⟩
    · intro row hrow
      obtain ⟨k, rfl⟩ := List.mem_ofFn.mp hrow
      exact hlen k i
  have hspecs : ∀ k, ∀ spec ∈ (lists k).insertionSort LaneSpec.le, SpecOk n spec := by
    intro k
    have := (hbuilt k).specs
    rwa [h.size k, Int.toNat_natCast] at this
  exact (encode_injective (fun spec hspec => (hspecs i spec hspec).rankTyped h.small)
    (fun spec hspec => (hspecs j spec hspec).rankTyped h.small) hrow.symm).2

/-- A constructed ring is laid out from the list any rank passed. -/
theorem Constructed.laid (h : Constructed n comm lists safe ring) (i₀ : Fin n) :
    Laid n safe ((lists i₀).insertionSort LaneSpec.le) ring := by
  have hsame := h.same i₀
  obtain ⟨τ, rows, hfollows, hcolumns, hjoint⟩ := h.run
  have hbuilt : ∀ k : Fin n, Built (comm k) ((lists i₀).insertionSort LaneSpec.le) safe (ring k)
      (collectiveCalls (τ k)) := fun k => hsame k ▸ new_follows (hfollows k)
  generalize hconfig : (lists i₀).insertionSort LaneSpec.le = config at hbuilt
  have hsorted : config.Pairwise LaneSpec.le := hconfig ▸ List.pairwise_insertionSort _ _
  have hsize : ∀ k, (comm k).size.toNat = n := fun k => by rw [h.size k, Int.toNat_natCast]
  have hrank : ∀ k, (comm k).rank.toNat = k := fun k => by rw [h.rank k, Int.toNat_natCast]
  have hspecs : ∀ spec ∈ config, SpecOk n spec := hsize i₀ ▸ (hbuilt i₀).specs
  choose tables hlayout hto hfrom hslots hacks using fun k => (hbuilt k).tables
  have htables : ∀ k : Fin n, TablesOk n k config (tables k) := fun k => by
    have := layout_ok (hsize k ▸ (hbuilt k).specs)
      (TablesOk.empty (comm k).size.toNat _) (hlayout k)
    rwa [hsize k, hrank k] at this
  have hbytes : ∀ k : Fin n, (tables k).lengths.getD k 0 = bytesInto k config := fun k => by
    rw [List.getD_eq_getElem?_getD, (htables k).lengths k k.isLt]
    rfl
  have hcounters : ∀ k : Fin n, (tables k).ackLengths.getD k 0 = lanesFrom k config := fun k => by
    rw [List.getD_eq_getElem?_getD, (htables k).ackLengths k k.isLt]
    rfl
  choose slotConfigs hslotCall hslotWindow using hslots
  have hslotLengths : ∀ k : Fin n,
      (ring k).slots.lengths = List.ofFn (fun d : Fin n => bytesInto (d : Nat) config) := by
    intro k
    rw [(hslotWindow k).lengths]
    have hcall : ∀ j : Fin n, (⟨.allGather [(tables j).lengths.getD (comm j).rank.toNat 0, 1, 1],
        slotConfigs j⟩ : MpiEvent) = ⟨.allGather [bytesInto j config, 1, 1], slotConfigs j⟩ :=
      fun j => by rw [hrank j, hbytes j]
    exact gathered_lengths (joint_at hcolumns hjoint hslotCall k) hcall k
  have hackWindow : safe = true → ∀ k : Fin n, ∃ acks, (ring k).acks = some acks ∧
      acks.rank = ((k : Nat) : Int) ∧ acks.ranks = (n : Int) ∧
      acks.lengths = List.ofFn (fun s : Fin n => lanesFrom (s : Nat) config) ∧
      ∀ length ∈ acks.lengths, length * 8 ≤ aintMax := by
    intro hsafe k
    simp only [hsafe, if_true] at hacks
    choose configs acks hsome hcall hwindow using hacks
    have hgather : ∀ j : Fin n,
      (⟨.allGather [(tables j).ackLengths.getD (comm j).rank.toNat 0, 8, 4],
        configs j⟩ : MpiEvent) = ⟨.allGather [lanesFrom j config, 8, 4], configs j⟩ :=
      fun j => by rw [hrank j, hcounters j]
    refine ⟨acks k, hsome k, by rw [(hwindow k).rank, h.rank], by rw [(hwindow k).ranks, h.size],
      ?_, (hwindow k).fits⟩
    rw [(hwindow k).lengths]
    exact gathered_lengths (joint_at hcolumns hjoint hcall k) hgather k
  refine
    { strict := strict_of_sorted hsorted (hbuilt i₀).distinct
      specs := hspecs
      counts := (htables i₀).slots
      ranks := fun i hi => (hbuilt ⟨i, hi⟩).ranks.trans (hsize ⟨i, hi⟩)
      toLength := fun i hi => hto ⟨i, hi⟩ ▸ (htables ⟨i, hi⟩).toLength
      fromLength := fun i hi => hfrom ⟨i, hi⟩ ▸ (htables ⟨i, hi⟩).fromLength
      toLanes := fun s hs d hd => hto ⟨s, hs⟩ ▸ (htables ⟨s, hs⟩).toLanes d hd
      fromLanes := fun d hd s hs => hfrom ⟨d, hd⟩ ▸ (htables ⟨d, hd⟩).fromLanes s hs
      incoming := fun i hi => by rw [(hbuilt ⟨i, hi⟩).incoming, h.rank]
      slots := fun i hi => ⟨by rw [(hslotWindow ⟨i, hi⟩).rank, h.rank],
        by rw [(hslotWindow ⟨i, hi⟩).ranks, h.size], hslotLengths ⟨i, hi⟩⟩
      slotsFit := fun i hi => ?_
      acks := fun i hi => ?_
      acksFit := fun hsafe i hi => ?_ }
  · have := (hslotWindow i₀).fits (bytesInto i config)
      (by rw [hslotLengths]; exact List.mem_ofFn.mpr ⟨⟨i, hi⟩, rfl⟩)
    simpa [Element.u8] using this
  · split
    · rename_i hsafe
      obtain ⟨acks, hsome, hr, hn, hl, -⟩ := hackWindow hsafe ⟨i, hi⟩
      exact ⟨acks, hsome, hr, hn, hl⟩
    · rename_i hraw
      have := hacks ⟨i, hi⟩
      rwa [if_neg hraw] at this
  · obtain ⟨acks, -, -, -, hl, hfits⟩ := hackWindow hsafe i₀
    have := hfits (lanesFrom i config) (by rw [hl]; exact List.mem_ofFn.mpr ⟨⟨i, hi⟩, rfl⟩)
    omega

end

/-- The list decides the entry of a pair of ranks. -/
theorem EntryOk.unique {config : List LaneSpec} (hstrict : config.Pairwise before) {s d : Int}
    {entry entry' : Option Lane} (h : EntryOk config s d entry) (h' : EntryOk config s d entry') :
    entry = entry' := by
  have habsent : ∀ {lane}, IsLane config s d lane →
      ¬ ∀ spec ∈ config, ¬ (spec.source = s ∧ spec.destination = d) := by
    rintro lane ⟨pre, spec, post, rfl, hs, hd, -⟩ hnone
    exact hnone spec (by simp) ⟨hs, hd⟩
  cases entry with
  | some lane =>
    cases entry' with
    | some lane' => rw [IsLane.unique hstrict h h']
    | none => exact absurd h' (habsent h)
  | none =>
    cases entry' with
    | some lane' => exact absurd h (habsent h')
    | none => rfl

/-! ### Both endpoints agree -/

/-- The layout all ranks of a ring of `n` ranks derived from the list `config`. -/
structure LayoutAgrees (n : Nat) (safe : Bool) (config : List LaneSpec) (ring : Nat → Ring) :
    Prop where
  /-- Both endpoints of a configured lane hold one record, with the configured sizes. -/
  endpoints : ∀ spec ∈ config, ∃ (s d : Nat) (lane : Lane), s < n ∧ d < n ∧ spec.source = s ∧
    spec.destination = d ∧ (ring s).toLanes[d]? = some (some lane) ∧
    (ring d).fromLanes[s]? = some (some lane) ∧
    lane.depth = spec.depth ∧ lane.capacity = spec.capacity ∧
    lane.slot = spec.capacity + (HEADER + WORD)
  /-- Every other entry of the two tables is empty. -/
  absent : ∀ s < n, ∀ d < n,
    (∀ spec ∈ config, ¬ (spec.source = (s : Int) ∧ spec.destination = (d : Int))) →
    (ring s).toLanes[d]? = some none ∧ (ring d).fromLanes[s]? = some none
  /-- The tables have one entry for each rank. -/
  tables : ∀ i < n, (ring i).toLanes.length = n ∧ (ring i).fromLanes.length = n
  /-- The lanes into one rank take up disjoint ranges of its slot window. -/
  disjoint : ∀ d < n, ∀ s s' : Nat, ∀ lane lane', s ≠ s' →
    (ring d).fromLanes[s]? = some (some lane) → (ring d).fromLanes[s']? = some (some lane') →
    lane.offset + lane.depth * lane.slot ≤ lane'.offset ∨
      lane'.offset + lane'.depth * lane'.slot ≤ lane.offset
  /-- They cover exactly the bytes of that window. -/
  tile : ∀ d < n, ∃ length, (∀ i < n, (ring i).slots.lengths[d]? = some length) ∧
    ∀ x, x < length ↔ ∃ (s : Nat) (lane : Lane), (ring d).fromLanes[s]? = some (some lane) ∧
      lane.offset ≤ x ∧ x < lane.offset + lane.depth * lane.slot
  /-- The slots of a lane follow one another inside its range. -/
  slots : ∀ s < n, ∀ d < n, ∀ lane, (ring d).fromLanes[s]? = some (some lane) →
    ∀ p < lane.depth, lane.offset + p * lane.slot + lane.slot ≤
        lane.offset + lane.depth * lane.slot ∧
      ∀ q, p < q → lane.offset + p * lane.slot + lane.slot ≤ lane.offset + q * lane.slot
  /-- The counters of the lanes out of one rank are different. -/
  counters : ∀ s < n, ∀ d d' : Nat, ∀ lane lane', d ≠ d' →
    (ring s).toLanes[d]? = some (some lane) → (ring s).toLanes[d']? = some (some lane') →
    lane.ack ≠ lane'.ack
  /-- They are exactly the elements of its counter window. -/
  cover : safe = true → ∀ s < n, ∃ length,
    (∀ i < n, ∃ acks, (ring i).acks = some acks ∧ acks.lengths[s]? = some length) ∧
    ∀ k, k < length ↔ ∃ (d : Nat) (lane : Lane),
      (ring s).toLanes[d]? = some (some lane) ∧ lane.ack = k
  /-- `incoming` lists the ranks with an entry in `fromLanes`, strictly ascending. -/
  incoming : ∀ d < n, (ring d).incoming.Pairwise (· < ·) ∧ ∀ o, o ∈ (ring d).incoming ↔
    ∃ (s : Nat) (lane : Lane), o = (s : Int) ∧ (ring d).fromLanes[s]? = some (some lane)

namespace Laid

variable {n : Nat} {safe : Bool} {config : List LaneSpec} {ring : Nat → Ring}

/-- The entry of a destination's table is the record of the lane. -/
theorem from_iff (h : Laid n safe config ring) {d : Nat} (hd : d < n) {s : Nat} {lane : Lane} :
    (ring d).fromLanes[s]? = some (some lane) ↔ IsLane config s d lane := by
  constructor
  · intro hat
    have hs : s < n := h.fromLength d hd ▸ (List.getElem?_eq_some_iff.mp hat).1
    obtain ⟨entry, hentry, hok⟩ := h.fromLanes d hd s hs
    obtain rfl : entry = some lane := by simpa [hentry] using hat
    exact hok
  · intro hlane
    obtain ⟨i, hi, hsource, -, -⟩ := hlane.index
    have hs := (h.specs _ (List.getElem_mem hi)).source
    obtain ⟨entry, hentry, hok⟩ := h.fromLanes d hd s (by omega)
    have hrecord : EntryOk config s d (some lane) := hlane
    rw [hentry, EntryOk.unique h.strict hok hrecord]

/-- The entry of a source's table is the record of the lane. -/
theorem to_iff (h : Laid n safe config ring) {s : Nat} (hs : s < n) {d : Nat} {lane : Lane} :
    (ring s).toLanes[d]? = some (some lane) ↔ IsLane config s d lane := by
  constructor
  · intro hat
    have hd : d < n := h.toLength s hs ▸ (List.getElem?_eq_some_iff.mp hat).1
    obtain ⟨entry, hentry, hok⟩ := h.toLanes s hs d hd
    obtain rfl : entry = some lane := by simpa [hentry] using hat
    exact hok
  · intro hlane
    obtain ⟨i, hi, -, hdest, -⟩ := hlane.index
    have hd := (h.specs _ (List.getElem_mem hi)).destination
    obtain ⟨entry, hentry, hok⟩ := h.toLanes s hs d (by omega)
    have hrecord : EntryOk config s d (some lane) := hlane
    rw [hentry, EntryOk.unique h.strict hok hrecord]

/-- A lane joins two ranks of the ring. -/
theorem ranks_of (h : Laid n safe config ring) {s d : Int} {lane : Lane}
    (hlane : IsLane config s d lane) :
    ∃ s' d' : Nat, s = s' ∧ d = d' ∧ s' < n ∧ d' < n ∧ s' ≠ d' := by
  obtain ⟨i, hi, hs, hd, -⟩ := hlane.index
  have hspec := h.specs _ (List.getElem_mem hi)
  have h1 := hspec.source
  have h2 := hspec.destination
  have h3 := hspec.noSelf
  exact ⟨s.toNat, d.toNat, by omega, by omega, by omega, by omega, by omega⟩

theorem agrees (h : Laid n safe config ring) : LayoutAgrees n safe config ring where
  endpoints spec hspec := by
    obtain ⟨i, hi, rfl⟩ := List.mem_iff_getElem.mp hspec
    have hlane := IsLane.of_index hi
    obtain ⟨s, d, hs, hd, hsn, hdn, -⟩ := h.ranks_of hlane
    rw [hs, hd] at hlane
    exact ⟨s, d, _, hsn, hdn, hs, hd, (h.to_iff hsn).mpr hlane, (h.from_iff hdn).mpr hlane,
      rfl, rfl, rfl⟩
  absent s hs d hd hnone := by
    obtain ⟨entry, hto, hok⟩ := h.toLanes s hs d hd
    obtain ⟨entry', hfrom, hok'⟩ := h.fromLanes d hd s hs
    have hempty : EntryOk config s d none := hnone
    rw [hto, hfrom, EntryOk.unique h.strict hok hempty, EntryOk.unique h.strict hok' hempty]
    exact ⟨rfl, rfl⟩
  tables i hi := ⟨h.toLength i hi, h.fromLength i hi⟩
  disjoint d hd s s' lane lane' hne hat hat' :=
    ((h.from_iff hd).mp hat).apart ((h.from_iff hd).mp hat') (by omega)
  tile d hd := by
    refine ⟨bytesInto d config, fun i hi => ?_, fun x => ⟨fun hx => ?_, ?_⟩⟩
    · rw [(h.slots i hi).2.2, List.getElem?_ofFn, dif_pos hd]
    · obtain ⟨s, lane, hlane, hstart, hend⟩ := lanes_tile hx
      obtain ⟨s', -, rfl, -, -, -, -⟩ := h.ranks_of hlane
      exact ⟨s', lane, (h.from_iff hd).mpr hlane, hstart, hend⟩
    · rintro ⟨s, lane, hat, -, hend⟩
      have := ((h.from_iff hd).mp hat).inside.1
      omega
  slots s hs d hd lane hat p hp := by
    have hnext : ∀ q, p < q →
        lane.offset + p * lane.slot + lane.slot ≤ lane.offset + q * lane.slot := by
      intro q hq
      have : (p + 1) * lane.slot ≤ q * lane.slot := Nat.mul_le_mul_right _ hq
      rw [Nat.succ_mul] at this
      omega
    exact ⟨hnext _ hp, hnext⟩
  counters s hs d d' lane lane' hne hat hat' :=
    ((h.to_iff hs).mp hat).ack_ne ((h.to_iff hs).mp hat') (by omega)
  cover hsafe s hs := by
    refine ⟨lanesFrom s config, fun i hi => ?_, fun k => ⟨fun hk => ?_, ?_⟩⟩
    · have hacks := h.acks i hi
      rw [if_pos hsafe] at hacks
      obtain ⟨acks, hsome, -, -, hlengths⟩ := hacks
      exact ⟨acks, hsome, by rw [hlengths, List.getElem?_ofFn, dif_pos hs]⟩
    · obtain ⟨d, lane, hlane, hack⟩ := acks_cover hk
      obtain ⟨-, d', -, rfl, -, -, -⟩ := h.ranks_of hlane
      exact ⟨d', lane, (h.to_iff hs).mpr hlane, hack⟩
    · rintro ⟨d, lane, hat, rfl⟩
      exact ((h.to_iff hs).mp hat).inside.2
  incoming d hd := by
    rw [h.incoming d hd]
    refine ⟨incomingOf_strict h.strict d, fun o => ?_⟩
    rw [mem_incomingOf]
    constructor
    · rintro ⟨lane, hlane⟩
      obtain ⟨s, -, rfl, -, -, -, -⟩ := h.ranks_of hlane
      exact ⟨s, lane, rfl, (h.from_iff hd).mpr hlane⟩
    · rintro ⟨s, lane, rfl, hat⟩
      exact ⟨lane, (h.from_iff hd).mp hat⟩

end Laid

/-- **All ranks and both endpoints derive one layout.**  Whatever order each rank passed
    the list in, the rings of a successful collective construction agree on the record of
    every lane, the lanes into a rank tile its slot window, the counters of a rank cover
    its counter window, and `incoming` lists the configured origins. -/
theorem layout_agrees {n : Nat} {comm : Fin n → Comm} {lists : Fin n → List LaneSpec}
    {safe : Bool} {ring : Nat → Ring} (h : Constructed n comm lists safe ring) (i : Fin n) :
    LayoutAgrees n safe (lists i) ring := by
  have hagrees := (h.laid i).agrees
  exact
    { hagrees with
      endpoints := fun spec hspec =>
        hagrees.endpoints spec ((List.mem_insertionSort _).mpr hspec)
      absent := fun s hs d hd hnone =>
        hagrees.absent s hs d hd fun spec hspec =>
          hnone spec ((List.mem_insertionSort _).mp hspec) }

/-! ### A ring of two ranks with one lane -/

section Pair

variable (safe : Bool) (depth capacity : Nat)

def pairSource : Fin 2 := 0

def pairDestination : Fin 2 := 1

def pairList : List LaneSpec := [⟨0, 1, depth, capacity⟩]

def pairLane : Lane := ⟨0, depth, capacity, capacity + (HEADER + WORD), 0⟩

def pairRing (i : Nat) : Ring where
  slots := ⟨1, [0, depth * (capacity + (HEADER + WORD))], i, 2, .unified⟩
  acks := if safe then some ⟨8, [1, 0], i, 2, .unified⟩ else none
  ranks := 2
  toLanes := if i = 0 then [none, some (pairLane depth capacity)] else [none, none]
  fromLanes := if i = 1 then [some (pairLane depth capacity), none] else [none, none]
  incoming := if i = 1 then [0] else []

/-- What MPI answers the two ranks: gathers of rows both pass alike, and of the lengths. -/
def pairAnswer : (c : MpiCall) → c.Answer
  | .allGather [_, 1, 1] => [0, 1, 1, depth * (capacity + (HEADER + WORD)), 1, 1]
  | .allGather [_, 8, 4] => [1, 8, 4, 0, 8, 4]
  | .allGather row => row ++ row
  | .winAllocate _ width => .ok ⟨width, false⟩
  | .winGetAttr _ => .ok (some .unified)
  | .winLockAll _ => .ok ()
  | .winSync _ => .ok ()
  | .winUnlockAll _ => .ok ()
  | .winFree _ => .ok ()
  | .barrier => ()

def gatherRow (rows : Fin 2 → List Nat) (i : Fin 2) : MpiEvent :=
  ⟨.allGather (rows i), (List.ofFn rows).flatten⟩

def allocateRows (len : Fin 2 → Nat) (element : Element) : List (Fin 2 → MpiEvent) :=
  [gatherRow fun i => [len i, element.width, element.typeId],
    fun i => ⟨.winAllocate (len i * element.width) element.width, .ok ⟨element.width, false⟩⟩,
    fun _ => ⟨.barrier, ()⟩]

def pairRows : List (Fin 2 → MpiEvent) :=
  [gatherRow fun _ => [1], gatherRow fun _ => encode safe (pairList depth capacity)] ++
    allocateRows (fun i => i.val * (depth * (capacity + (HEADER + WORD)))) .u8 ++
    (if safe then allocateRows (fun i => 1 - i.val) .u64 else []) ++
    [gatherRow fun _ => [1]]

theorem joint_gatherRow {rows : Fin 2 → List Nat} (h : (rows 0).length = (rows 1).length) :
    MpiCall.Joint (gatherRow rows) :=
  MpiCall.Joint.allGather rows (rows 1).length fun i => by
    match i with
    | 0 => exact h
    | 1 => rfl

theorem joint_allocateRows {len : Fin 2 → Nat} {element : Element} :
    ∀ row ∈ allocateRows len element, MpiCall.Joint row := by
  intro row hrow
  simp only [allocateRows, List.mem_cons, List.not_mem_nil, or_false] at hrow
  rcases hrow with rfl | rfl | rfl
  · exact joint_gatherRow rfl
  · exact MpiCall.Joint.winAllocate _ _ _
  · exact MpiCall.Joint.barrier

/-- Two ranks construct the ring of one lane when their runs against `pairAnswer` end well. -/
theorem pair_constructed
    (hresult : ∀ i : Fin 2, ((Ring.new (pairComm i) (pairList depth capacity) safe ()).traceWith
      (pairAnswer depth capacity)).2 = (.ok (pairRing safe depth capacity i), ()))
    (hcalls : ∀ i : Fin 2, collectiveCalls ((Ring.new (pairComm i) (pairList depth capacity) safe
      ()).traceWith (pairAnswer depth capacity)).1 = (pairRows safe depth capacity).map (· i)) :
    Constructed 2 pairComm (fun _ => pairList depth capacity) safe
      (pairRing safe depth capacity) where
  small := by decide
  size _ := rfl
  rank _ := rfl
  run := by
    refine ⟨fun i => ((Ring.new (pairComm i) (pairList depth capacity) safe ()).traceWith
      (pairAnswer depth capacity)).1, pairRows safe depth capacity, fun i => ?_, hcalls, ?_⟩
    · have := Program.follows_traceWith (pairAnswer depth capacity)
        (Ring.new (pairComm i) (pairList depth capacity) safe ())
      rwa [hresult i] at this
    · intro row hrow
      simp only [pairRows, List.cons_append, List.nil_append, List.mem_append, List.mem_cons,
        List.not_mem_nil, or_false] at hrow
      rcases hrow with rfl | rfl | (hrow | hrow) | rfl
      · exact joint_gatherRow rfl
      · exact joint_gatherRow rfl
      · exact joint_allocateRows row hrow
      · split at hrow
        · exact joint_allocateRows row hrow
        · exact nomatch hrow
      · exact joint_gatherRow rfl

end Pair

/-- The ring of one lane with three slots of eight bytes, safe or raw. -/
theorem pair_three (safe : Bool) :
    Constructed 2 pairComm (fun _ => pairList 3 8) safe (pairRing safe 3 8) := by
  cases safe
  all_goals
    refine pair_constructed _ 3 8 (fun i => ?_) (fun i => ?_)
    · match i with
      | 0 => rfl
      | 1 => rfl
    · match i with
      | 0 => rfl
      | 1 => rfl

theorem layout_agrees_pair : LayoutAgrees 2 true (pairList 3 8) (pairRing true 3 8) :=
  layout_agrees (pair_three true) 0

/-! ### The wiring -/

structure LaneOk (n : Nat) (slotLength ackLength : Nat → Nat) (s d : Nat) (lane : Lane) :
    Prop where
  source : s < n
  destination : d < n
  noSelf : s ≠ d
  depth : 0 < lane.depth
  capacity : 0 < lane.capacity
  slot : lane.slot = lane.capacity + (HEADER + WORD)
  count : lane.slot ≤ i32Max
  inside : lane.offset + lane.depth * lane.slot ≤ slotLength d
  ack : lane.ack < ackLength s

/-- What the operations of a ring of `n` ranks rely on: one record for each ordered pair
    of ranks, known to both, with lanes and counters that do not overlap. -/
structure Wired (n : Nat) (safe : Bool) (ring : Nat → Ring) where
  lane : Nat → Nat → Option Lane
  slotLength : Nat → Nat
  ackLength : Nat → Nat
  small : n ≤ i32Max
  lanes : ∀ {s d l}, lane s d = some l → LaneOk n slotLength ackLength s d l
  apart : ∀ {s s' d l l'}, lane s d = some l → lane s' d = some l' → s ≠ s' →
    l.offset + l.depth * l.slot ≤ l'.offset ∨ l'.offset + l'.depth * l'.slot ≤ l.offset
  ackApart : ∀ {s d d' l l'}, lane s d = some l → lane s d' = some l' → d ≠ d' → l.ack ≠ l'.ack
  slotsFit : ∀ i < n, slotLength i ≤ aintMax
  acksFit : safe = true → ∀ i < n, ackLength i ≤ aintMax
  ranks : ∀ i < n, (ring i).ranks = n
  toLanes : ∀ s < n, ∀ d < n, (ring s).toLanes[d]? = some (lane s d)
  fromLanes : ∀ d < n, ∀ s < n, (ring d).fromLanes[s]? = some (lane s d)
  lengths : ∀ i < n, (ring i).toLanes.length = n ∧ (ring i).fromLanes.length = n
  incoming : ∀ d < n, (ring d).incoming =
    ((List.range n).filter fun s => (lane s d).isSome).map fun s : Nat => (s : Int)
  slots : ∀ i < n, (ring i).slots.rank = (i : Int) ∧ (ring i).slots.ranks = (n : Int) ∧
    ∀ d < n, (ring i).slots.lengths[d]? = some (slotLength d)
  acks : ∀ i < n, if safe then ∃ acks, (ring i).acks = some acks ∧ acks.rank = (i : Int) ∧
      acks.ranks = (n : Int) ∧ ∀ s < n, acks.lengths[s]? = some (ackLength s)
    else (ring i).acks = none

namespace Laid

variable {n : Nat} {safe : Bool} {config : List LaneSpec} {ring : Nat → Ring}

def lane (n : Nat) (ring : Nat → Ring) (s d : Nat) : Option Lane :=
  if s < n ∧ d < n then (ring s).toLanes.getD d none else none

theorem lane_iff (h : Laid n safe config ring) {s d : Nat} {l : Lane} :
    lane n ring s d = some l ↔ IsLane config s d l := by
  constructor
  · intro hl
    unfold lane at hl
    split at hl
    · rename_i hlt
      refine (h.to_iff hlt.1).mp ?_
      obtain ⟨entry, hentry, -⟩ := h.toLanes s hlt.1 d hlt.2
      rw [List.getD_eq_getElem?_getD, hentry] at hl
      exact hentry.trans (congrArg some hl)
    · exact nomatch hl
  · intro hl
    obtain ⟨s', d', hs, hd, hsn, hdn, -⟩ := h.ranks_of hl
    obtain rfl : s = s' := by omega
    obtain rfl : d = d' := by omega
    rw [lane, if_pos ⟨hsn, hdn⟩, List.getD_eq_getElem?_getD, (h.to_iff hsn).mpr hl]
    rfl

/-- A strictly ascending list is known from its members. -/
theorem eq_of_strict {xs ys : List Int} (hxs : xs.Pairwise (· < ·)) (hys : ys.Pairwise (· < ·))
    (hmem : ∀ o, o ∈ xs ↔ o ∈ ys) : xs = ys := by
  have hperm : xs.Perm ys := (List.perm_ext_iff_of_nodup
    (hxs.imp fun h => Int.ne_of_lt h) (hys.imp fun h => Int.ne_of_lt h)).mpr hmem
  exact hperm.eq_of_pairwise (fun a b _ _ hab hba => absurd hab (by omega)) hxs hys

def wired (h : Laid n safe config ring) (hn : n ≤ i32Max) : Wired n safe ring where
  lane := lane n ring
  slotLength d := bytesInto d config
  ackLength s := lanesFrom s config
  small := hn
  lanes {s d l} hl := by
    have hlane := h.lane_iff.mp hl
    obtain ⟨hinside, hack⟩ := hlane.inside
    obtain ⟨i, hi, hs, hd, rfl⟩ := hlane.index
    have hspec := h.specs _ (List.getElem_mem hi)
    have h1 := hspec.source
    have h2 := hspec.destination
    have h3 := hspec.noSelf
    exact ⟨by omega, by omega, by omega, hspec.depth, hspec.capacity, rfl,
      h.counts _ (List.getElem_mem hi), hinside, hack⟩
  apart hl hl' hne := (h.lane_iff.mp hl).apart (h.lane_iff.mp hl') (by omega)
  ackApart hl hl' hne := (h.lane_iff.mp hl).ack_ne (h.lane_iff.mp hl') (by omega)
  slotsFit := h.slotsFit
  acksFit := h.acksFit
  ranks := h.ranks
  toLanes s hs d hd := by
    obtain ⟨entry, hentry, -⟩ := h.toLanes s hs d hd
    rw [lane, if_pos ⟨hs, hd⟩, List.getD_eq_getElem?_getD, hentry]
    rfl
  fromLanes d hd s hs := by
    obtain ⟨entry, hentry, hok⟩ := h.fromLanes d hd s hs
    obtain ⟨entry', hentry', hok'⟩ := h.toLanes s hs d hd
    rw [hentry, EntryOk.unique h.strict hok hok', lane, if_pos ⟨hs, hd⟩,
      List.getD_eq_getElem?_getD, hentry']
    rfl
  lengths i hi := ⟨h.toLength i hi, h.fromLength i hi⟩
  incoming d hd := by
    rw [h.incoming d hd]
    refine eq_of_strict (incomingOf_strict h.strict d) ?_ fun o => ?_
    · rw [List.pairwise_map]
      exact (List.pairwise_lt_range.filter _).imp fun hab => by omega
    · rw [mem_incomingOf]
      simp only [List.mem_map, List.mem_filter, List.mem_range, Option.isSome_iff_exists]
      constructor
      · rintro ⟨l, hl⟩
        obtain ⟨s, -, rfl, -, hs, -, -⟩ := h.ranks_of hl
        exact ⟨s, ⟨hs, l, h.lane_iff.mpr hl⟩, rfl⟩
      · rintro ⟨s, ⟨-, l, hl⟩, rfl⟩
        exact ⟨l, h.lane_iff.mp hl⟩
  slots i hi := by
    obtain ⟨hrank, hranks, hlengths⟩ := h.slots i hi
    exact ⟨hrank, hranks, fun d hd => by rw [hlengths, List.getElem?_ofFn, dif_pos hd]⟩
  acks i hi := by
    have hacks := h.acks i hi
    split
    · rename_i hsafe
      rw [if_pos hsafe] at hacks
      obtain ⟨acks, hsome, hrank, hranks, hlengths⟩ := hacks
      exact ⟨acks, hsome, hrank, hranks,
        fun s hs => by rw [hlengths, List.getElem?_ofFn, dif_pos hs]⟩
    · rename_i hraw
      rwa [if_neg hraw] at hacks

end Laid

namespace Wired

variable {n : Nat} {safe : Bool} {ring : Nat → Ring} (W : Wired n safe ring)

theorem from_iff {d : Nat} (hd : d < n) {s : Nat} {l : Lane} :
    (ring d).fromLanes[s]? = some (some l) ↔ W.lane s d = some l := by
  constructor
  · intro h
    have hs : s < n := (W.lengths d hd).2 ▸ (List.getElem?_eq_some_iff.mp h).1
    rw [W.fromLanes d hd s hs] at h
    exact Option.some.inj h
  · intro h
    rw [W.fromLanes d hd s (W.lanes h).source, h]

theorem to_iff {s : Nat} (hs : s < n) {d : Nat} {l : Lane} :
    (ring s).toLanes[d]? = some (some l) ↔ W.lane s d = some l := by
  constructor
  · intro h
    have hd : d < n := (W.lengths s hs).1 ▸ (List.getElem?_eq_some_iff.mp h).1
    rw [W.toLanes s hs d hd] at h
    exact Option.some.inj h
  · intro h
    rw [W.toLanes s hs d (W.lanes h).destination, h]

end Wired

/-- A constructed ring is wired. -/
theorem Constructed.wired {n : Nat} {comm : Fin n → Comm} {lists : Fin n → List LaneSpec}
    {safe : Bool} {ring : Nat → Ring} (h : Constructed n comm lists safe ring) :
    Nonempty (Wired n safe ring) := by
  rcases Nat.eq_zero_or_pos n with rfl | hn
  · have hnone : ∀ i, ¬ i < 0 := fun i => Nat.not_lt_zero i
    have hlaid : Laid 0 safe [] ring := by
      constructor <;> simp
    exact ⟨hlaid.wired h.small⟩
  · exact ⟨(h.laid ⟨0, hn⟩).wired h.small⟩

end MpiRma
