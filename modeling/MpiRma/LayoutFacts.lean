/-
  MpiRma/LayoutFacts.lean
  =======================
  **What the layout loop computes.**  After the lanes `pre`, the length of a
  destination is the sum of the bytes of its lanes in `pre`, and the next index of a
  source is the number of its lanes in `pre` (`TablesOk`); so the record of a lane
  depends only on the lanes before it in the sorted list (`laneOf`), not on the rank
  that runs the loop.  The offsets of the lanes of a destination then tile its window.
-/
import MpiRma.Layout
import MpiRma.Placement

namespace MpiRma

theorem except_bind_ok {ε α β : Type} {x : Except ε α} {f : α → Except ε β} {b : β} :
    (x >>= f) = .ok b ↔ ∃ a, x = .ok a ∧ f a = .ok b := by
  cases x with
  | ok a =>
    constructor
    · intro h
      exact ⟨a, rfl, h⟩
    · rintro ⟨_, hx, h⟩
      obtain rfl := Except.ok.inj hx
      exact h
  | error e =>
    constructor
    · intro h
      exact nomatch h
    · rintro ⟨a, hx, -⟩
      exact nomatch hx

theorem okOr_ok {ε α : Type} {x : Option α} {e : ε} {a : α} :
    okOr x e = .ok a ↔ x = some a := by
  cases x <;> simp [okOr]

namespace Ring

/-! ### The record of a lane -/

def laneBytes (spec : LaneSpec) : Nat := spec.depth * (spec.capacity + (HEADER + WORD))

def bytesAt (destination : Int) (spec : LaneSpec) : Nat :=
  if spec.destination = destination then laneBytes spec else 0

def countersAt (source : Int) (spec : LaneSpec) : Nat := if spec.source = source then 1 else 0

def bytesInto (destination : Int) (config : List LaneSpec) : Nat :=
  Placement.total (bytesAt destination) config

def lanesFrom (source : Int) (config : List LaneSpec) : Nat :=
  Placement.total (countersAt source) config

/-- The record of `spec` when the lanes `pre` come before it. -/
def laneOf (pre : List LaneSpec) (spec : LaneSpec) : Lane where
  offset := bytesInto spec.destination pre
  depth := spec.depth
  capacity := spec.capacity
  slot := spec.capacity + (HEADER + WORD)
  ack := lanesFrom spec.source pre

/-- `lane` is the record of the lane from `source` to `destination` in `config`. -/
def IsLane (config : List LaneSpec) (source destination : Int) (lane : Lane) : Prop :=
  ∃ pre spec post, config = pre ++ spec :: post ∧ spec.source = source ∧
    spec.destination = destination ∧ lane = laneOf pre spec

theorem bytesInto_concat (d : Int) (pre : List LaneSpec) (spec : LaneSpec) :
    bytesInto d (pre ++ [spec]) =
      bytesInto d pre + if spec.destination = d then laneBytes spec else 0 := by
  rw [bytesInto, Placement.total_append, Placement.total_singleton]
  rfl

theorem lanesFrom_concat (s : Int) (pre : List LaneSpec) (spec : LaneSpec) :
    lanesFrom s (pre ++ [spec]) = lanesFrom s pre + if spec.source = s then 1 else 0 := by
  rw [lanesFrom, Placement.total_append, Placement.total_singleton]
  rfl

theorem IsLane.append {config : List LaneSpec} {s d : Int} {lane : Lane}
    (h : IsLane config s d lane) (more : List LaneSpec) : IsLane (config ++ more) s d lane := by
  obtain ⟨pre, spec, post, rfl, hs, hd, rfl⟩ := h
  exact ⟨pre, spec, post ++ more, by simp, hs, hd, rfl⟩

theorem IsLane.last (pre : List LaneSpec) (spec : LaneSpec) :
    IsLane (pre ++ [spec]) spec.source spec.destination (laneOf pre spec) :=
  ⟨pre, spec, [], rfl, rfl, rfl, rfl⟩

/-! ### The loop -/

structure SpecOk (ranks : Nat) (spec : LaneSpec) : Prop where
  source : 0 ≤ spec.source ∧ spec.source.toNat < ranks
  destination : 0 ≤ spec.destination ∧ spec.destination.toNat < ranks
  noSelf : spec.source ≠ spec.destination
  depth : 0 < spec.depth
  capacity : 0 < spec.capacity

theorem checkSpec_ok {ranks : Nat} {spec : LaneSpec} (h : checkSpec ranks spec = .ok ()) :
    SpecOk ranks spec := by
  unfold checkSpec at h
  split at h
  · exact nomatch h
  · split at h
    · exact nomatch h
    · split at h
      · exact nomatch h
      · split at h
        · exact nomatch h
        · constructor <;> omega

theorem checkSpecs_ok {ranks : Nat} {config : List LaneSpec}
    (h : checkSpecs ranks config = .ok ()) : ∀ spec ∈ config, SpecOk ranks spec := by
  induction config with
  | nil => simp
  | cons spec rest ih =>
    obtain ⟨⟨⟩, hspec, hrest⟩ := except_bind_ok.mp h
    intro x hx
    rcases List.mem_cons.mp hx with rfl | hx
    · exact checkSpec_ok hspec
    · exact ih hrest x hx

/-- An entry of a lane table is right: present with the right record, or absent when no
    lane of `pre` joins the two ranks. -/
def EntryOk (pre : List LaneSpec) (s d : Int) : Option Lane → Prop
  | some lane => IsLane pre s d lane
  | none => ∀ spec ∈ pre, ¬ (spec.source = s ∧ spec.destination = d)

structure TablesOk (ranks me : Nat) (pre : List LaneSpec) (tables : Tables) : Prop where
  lengths : ∀ d < ranks, tables.lengths[d]? = some (bytesInto d pre)
  ackLengths : ∀ s < ranks, tables.ackLengths[s]? = some (lanesFrom s pre)
  toLanes : ∀ d < ranks, ∃ entry, tables.toLanes[d]? = some entry ∧ EntryOk pre me d entry
  fromLanes : ∀ s < ranks, ∃ entry, tables.fromLanes[s]? = some entry ∧ EntryOk pre s me entry
  slots : ∀ spec ∈ pre, spec.capacity + (HEADER + WORD) ≤ i32Max
  toLength : tables.toLanes.length = ranks
  fromLength : tables.fromLanes.length = ranks

theorem TablesOk.empty (ranks me : Nat) : TablesOk ranks me [] (Tables.empty ranks) where
  lengths d hd := by simp [Tables.empty, hd, bytesInto]
  ackLengths s hs := by simp [Tables.empty, hs, lanesFrom]
  toLanes d hd := ⟨none, by simp [Tables.empty, hd], by simp [EntryOk]⟩
  fromLanes s hs := ⟨none, by simp [Tables.empty, hs], by simp [EntryOk]⟩
  slots := by simp
  toLength := by simp [Tables.empty]
  fromLength := by simp [Tables.empty]

/-- An entry stays right when a lane between other ranks is appended. -/
theorem EntryOk.append {pre : List LaneSpec} {s d : Int} {entry : Option Lane}
    (h : EntryOk pre s d entry) {spec : LaneSpec}
    (hother : ¬ (spec.source = s ∧ spec.destination = d)) : EntryOk (pre ++ [spec]) s d entry := by
  cases entry with
  | some lane => exact IsLane.append h [spec]
  | none =>
    intro x hx
    rcases List.mem_append.mp hx with hx | hx
    · exact h x hx
    · obtain rfl := List.mem_singleton.mp hx
      exact hother

/-- Setting one entry of a table to the record of the appended lane. -/
theorem table_set {ranks : Nat} {pre : List LaneSpec} {spec : LaneSpec} (key : Nat → Int × Int)
    {table : List (Option Lane)} {i : Nat} (hlen : table.length = ranks)
    (hkey : ∀ j < ranks, key j = (spec.source, spec.destination) ↔ j = i)
    (h : ∀ j < ranks, ∃ entry, table[j]? = some entry ∧ EntryOk pre (key j).1 (key j).2 entry) :
    ∀ j < ranks, ∃ entry, (table.set i (some (laneOf pre spec)))[j]? = some entry ∧
      EntryOk (pre ++ [spec]) (key j).1 (key j).2 entry := by
  intro j hj
  by_cases hji : j = i
  · subst hji
    refine ⟨some (laneOf pre spec), by simp [hlen, hj], ?_⟩
    rw [(hkey j hj).mpr rfl]
    exact IsLane.last pre spec
  · obtain ⟨entry, hentry, hok⟩ := h j hj
    refine ⟨entry, by rw [List.getElem?_set_ne (Ne.symm hji), hentry], hok.append ?_⟩
    rintro ⟨hs, hd⟩
    exact hji ((hkey j hj).mp (Prod.ext hs.symm hd.symm))

theorem table_keep {ranks : Nat} {pre : List LaneSpec} {spec : LaneSpec} (key : Nat → Int × Int)
    {table : List (Option Lane)}
    (hkey : ∀ j < ranks, key j ≠ (spec.source, spec.destination))
    (h : ∀ j < ranks, ∃ entry, table[j]? = some entry ∧ EntryOk pre (key j).1 (key j).2 entry) :
    ∀ j < ranks, ∃ entry, table[j]? = some entry ∧
      EntryOk (pre ++ [spec]) (key j).1 (key j).2 entry := by
  intro j hj
  obtain ⟨entry, hentry, hok⟩ := h j hj
  refine ⟨entry, hentry, hok.append ?_⟩
  rintro ⟨hs, hd⟩
  exact hkey j hj (Prod.ext hs.symm hd.symm)

theorem place_ok {ranks me : Nat} {pre : List LaneSpec} {spec : LaneSpec} {tables tables' : Tables}
    (hspec : SpecOk ranks spec) (h : TablesOk ranks me pre tables)
    (hplace : place me tables spec = .ok tables') : TablesOk ranks me (pre ++ [spec]) tables' := by
  obtain ⟨hs0, hs1⟩ := hspec.source
  obtain ⟨hd0, hd1⟩ := hspec.destination
  have hsource : ((spec.source.toNat : Nat) : Int) = spec.source := Int.toNat_of_nonneg hs0
  have hdest : ((spec.destination.toNat : Nat) : Int) = spec.destination := Int.toNat_of_nonneg hd0
  obtain ⟨slot, hslot, hplace⟩ := except_bind_ok.mp hplace
  obtain ⟨-, rfl⟩ := checkedAdd_eq_some.mp (okOr_ok.mp hslot)
  split at hplace
  · exact nomatch hplace
  rename_i hfits
  obtain ⟨bytes, hbytes, hplace⟩ := except_bind_ok.mp hplace
  obtain ⟨-, rfl⟩ := checkedMul_eq_some.mp (okOr_ok.mp hbytes)
  obtain ⟨length, hlength, hplace⟩ := except_bind_ok.mp hplace
  obtain ⟨-, rfl⟩ := checkedAdd_eq_some.mp (okOr_ok.mp hlength)
  obtain ⟨acks, hacks, hplace⟩ := except_bind_ok.mp hplace
  obtain ⟨-, rfl⟩ := checkedAdd_eq_some.mp (okOr_ok.mp hacks)
  have hoffset : tables.lengths.getD spec.destination.toNat 0 = bytesInto spec.destination pre := by
    rw [List.getD_eq_getElem?_getD, h.lengths _ hd1, hdest]
    rfl
  have hack : tables.ackLengths.getD spec.source.toNat 0 = lanesFrom spec.source pre := by
    rw [List.getD_eq_getElem?_getD, h.ackLengths _ hs1, hsource]
    rfl
  rw [hoffset, hack] at hplace
  have hlen : tables.lengths.length > spec.destination.toNat :=
    (List.getElem?_eq_some_iff.mp (h.lengths _ hd1)).1
  have hacklen : tables.ackLengths.length > spec.source.toNat :=
    (List.getElem?_eq_some_iff.mp (h.ackLengths _ hs1)).1
  obtain rfl := Except.ok.inj hplace
  constructor
  · intro d hd
    rw [bytesInto_concat]
    by_cases hdd : d = spec.destination.toNat
    · subst hdd
      simp [hlen, hdest, laneBytes]
    · have hne : spec.destination ≠ (d : Int) := by omega
      rw [List.getElem?_set_ne (Ne.symm hdd), h.lengths d hd, if_neg hne, Nat.add_zero]
  · intro s hs
    rw [lanesFrom_concat]
    by_cases hss : s = spec.source.toNat
    · subst hss
      simp [hacklen, hsource]
    · have hne : spec.source ≠ (s : Int) := by omega
      rw [List.getElem?_set_ne (Ne.symm hss), h.ackLengths s hs, if_neg hne, Nat.add_zero]
  · show ∀ d < ranks, _
    have hto := h.toLanes
    by_cases hme : spec.source.toNat = me
    · rw [if_pos hme]
      refine table_set (fun d => ((me : Int), (d : Int))) h.toLength (fun j hj => ?_) hto
      simp only [Prod.mk.injEq]
      omega
    · rw [if_neg hme]
      refine table_keep (fun d => ((me : Int), (d : Int))) (fun j hj => ?_) hto
      simp only [ne_eq, Prod.mk.injEq]
      omega
  · show ∀ s < ranks, _
    have hfrom := h.fromLanes
    by_cases hme : spec.destination.toNat = me
    · rw [if_pos hme]
      refine table_set (fun s => ((s : Int), (me : Int))) h.fromLength (fun j hj => ?_) hfrom
      simp only [Prod.mk.injEq]
      omega
    · rw [if_neg hme]
      refine table_keep (fun s => ((s : Int), (me : Int))) (fun j hj => ?_) hfrom
      simp only [ne_eq, Prod.mk.injEq]
      omega
  · intro x hx
    rcases List.mem_append.mp hx with hx | hx
    · exact h.slots x hx
    · obtain rfl := List.mem_singleton.mp hx
      omega
  · show (ite _ _ _ : List (Option Lane)).length = ranks
    split <;> simp [h.toLength]
  · show (ite _ _ _ : List (Option Lane)).length = ranks
    split <;> simp [h.fromLength]

theorem layout_ok {ranks me : Nat} {config : List LaneSpec} :
    ∀ {pre : List LaneSpec} {tables tables' : Tables},
      (∀ spec ∈ config, SpecOk ranks spec) → TablesOk ranks me pre tables →
      layout me tables config = .ok tables' → TablesOk ranks me (pre ++ config) tables' := by
  induction config with
  | nil =>
    intro pre tables tables' _ h hlayout
    obtain rfl := Except.ok.inj hlayout
    simpa using h
  | cons spec rest ih =>
    intro pre tables tables' hspecs h hlayout
    obtain ⟨placed, hplaced, hrest⟩ := except_bind_ok.mp hlayout
    have := ih (fun x hx => hspecs x (by simp [hx]))
      (place_ok (hspecs spec (by simp)) h hplaced) hrest
    simpa using this

/-! ### Strictly sorted lists -/

def before (a b : LaneSpec) : Prop :=
  a.source < b.source ∨ a.source = b.source ∧ a.destination < b.destination

/-- A sorted list without equal neighbours names every pair of ranks once. -/
theorem strict_of_sorted {config : List LaneSpec} (hsorted : config.Pairwise LaneSpec.le)
    (h : repeated config = false) : config.Pairwise before := by
  induction config with
  | nil => exact .nil
  | cons a rest ih =>
    obtain ⟨hfirst, hrest⟩ := List.pairwise_cons.mp hsorted
    cases rest with
    | nil => exact List.pairwise_singleton _ _
    | cons b more =>
      have hneighbours : repeated (a :: b :: more) =
          (decide (a.source = b.source ∧ a.destination = b.destination) ||
            repeated (b :: more)) := rfl
      rw [hneighbours, Bool.or_eq_false_iff, decide_eq_false_iff_not] at h
      obtain ⟨hne, hmore⟩ := h
      have hstrict := ih hrest hmore
      have hab : before a b := by
        have := hfirst b (by simp)
        unfold LaneSpec.le at this
        unfold before
        omega
      refine List.pairwise_cons.mpr ⟨fun c hc => ?_, hstrict⟩
      rcases List.mem_cons.mp hc with rfl | hc
      · exact hab
      · have hbc := (List.pairwise_cons.mp hstrict).1 c hc
        unfold before at hab hbc ⊢
        omega

theorem IsLane.index {config : List LaneSpec} {s d : Int} {lane : Lane}
    (h : IsLane config s d lane) : ∃ i, ∃ hi : i < config.length,
      config[i].source = s ∧ config[i].destination = d ∧
        lane = laneOf (config.take i) config[i] := by
  obtain ⟨pre, spec, post, rfl, hs, hd, rfl⟩ := h
  exact ⟨pre.length, by simp, by simp [hs], by simp [hd], by simp⟩

theorem IsLane.of_index {config : List LaneSpec} {i : Nat} (hi : i < config.length) :
    IsLane config config[i].source config[i].destination
      (laneOf (config.take i) config[i]) := by
  refine ⟨config.take i, config[i], config.drop (i + 1), ?_, rfl, rfl, rfl⟩
  rw [List.getElem_cons_drop, List.take_append_drop]

section Strict

variable {config : List LaneSpec} (hstrict : config.Pairwise before)
include hstrict

theorem index_unique {i j : Nat} (hi : i < config.length) (hj : j < config.length)
    (hs : config[i].source = config[j].source)
    (hd : config[i].destination = config[j].destination) : i = j := by
  have hpair := List.pairwise_iff_getElem.mp hstrict
  rcases Nat.lt_trichotomy i j with hij | hij | hij
  · have := hpair i j hi hj hij
    unfold before at this
    omega
  · exact hij
  · have := hpair j i hj hi hij
    unfold before at this
    omega

/-- The pair of ranks decides the record. -/
theorem IsLane.unique {s d : Int} {lane lane' : Lane} (h : IsLane config s d lane)
    (h' : IsLane config s d lane') : lane = lane' := by
  obtain ⟨i, hi, hsi, hdi, rfl⟩ := h.index
  obtain ⟨j, hj, hsj, hdj, rfl⟩ := h'.index
  obtain rfl := index_unique hstrict hi hj (by omega) (by omega)
  rfl

/-- The ranks with a lane into `rank` come out strictly ascending. -/
theorem incomingOf_strict (rank : Int) : (incomingOf rank config).Pairwise (· < ·) := by
  have hsources : (config.filterMap fun spec =>
      if spec.destination = rank then some spec.source else none).Pairwise (· < ·) := by
    rw [List.pairwise_filterMap]
    refine hstrict.imp fun {a b} hab x hx y hy => ?_
    simp only [Option.ite_none_right_eq_some, Option.some.injEq] at hx hy
    unfold before at hab
    omega
  have hle := hsources.imp fun {a b : Int} hab => Int.le_of_lt hab
  rw [incomingOf, hle.insertionSort_eq]
  exact hsources

end Strict

/-- Two lanes into one destination take up disjoint ranges. -/
theorem IsLane.apart {config : List LaneSpec} {s s' d : Int} {lane lane' : Lane}
    (h : IsLane config s d lane) (h' : IsLane config s' d lane') (hne : s ≠ s') :
    lane.offset + lane.depth * lane.slot ≤ lane'.offset ∨
      lane'.offset + lane'.depth * lane'.slot ≤ lane.offset := by
  obtain ⟨i, hi, hsi, hdi, rfl⟩ := h.index
  obtain ⟨j, hj, hsj, hdj, rfl⟩ := h'.index
  have hij : i ≠ j := by
    rintro rfl
    omega
  have hbytes : ∀ k (hk : k < config.length), config[k].destination = d →
      bytesAt d config[k] = laneBytes config[k] := fun k hk h => if_pos h
  rcases Nat.lt_or_gt_of_ne hij with hlt | hgt
  · left
    have := Placement.apart (bytesAt d) hlt hi
    rw [hbytes i hi hdi] at this
    simpa only [laneOf, bytesInto, laneBytes, hdi, hdj] using this
  · right
    have := Placement.apart (bytesAt d) hgt hj
    rw [hbytes j hj hdj] at this
    simpa only [laneOf, bytesInto, laneBytes, hdi, hdj] using this

/-- Two lanes out of one source have different acknowledgement counters. -/
theorem IsLane.ack_ne {config : List LaneSpec} {s d d' : Int} {lane lane' : Lane}
    (h : IsLane config s d lane) (h' : IsLane config s d' lane') (hne : d ≠ d') :
    lane.ack ≠ lane'.ack := by
  obtain ⟨i, hi, hsi, hdi, rfl⟩ := h.index
  obtain ⟨j, hj, hsj, hdj, rfl⟩ := h'.index
  have hij : i ≠ j := by
    rintro rfl
    omega
  have hcounters : ∀ k (hk : k < config.length), config[k].source = s →
      countersAt s config[k] = 1 := fun k hk h => if_pos h
  simp only [laneOf, lanesFrom, hsi, hsj]
  rcases Nat.lt_or_gt_of_ne hij with hlt | hgt
  · have := Placement.apart (countersAt s) hlt hi
    rw [hcounters i hi hsi] at this
    omega
  · have := Placement.apart (countersAt s) hgt hj
    rw [hcounters j hj hsj] at this
    omega

theorem mem_incomingOf {rank o : Int} {config : List LaneSpec} :
    o ∈ incomingOf rank config ↔ ∃ lane, IsLane config o rank lane := by
  rw [incomingOf, List.mem_insertionSort, List.mem_filterMap]
  constructor
  · rintro ⟨spec, hspec, ho⟩
    simp only [Option.ite_none_right_eq_some, Option.some.injEq] at ho
    obtain ⟨hdest, rfl⟩ := ho
    obtain ⟨i, hi, rfl⟩ := List.mem_iff_getElem.mp hspec
    exact ⟨_, hdest ▸ IsLane.of_index hi⟩
  · rintro ⟨lane, hlane⟩
    obtain ⟨i, hi, hs, hd, -⟩ := hlane.index
    exact ⟨config[i], List.getElem_mem hi, by rw [if_pos hd, hs]⟩

/-- Every byte of a destination's window belongs to a lane. -/
theorem lanes_tile {config : List LaneSpec} {d : Int} {x : Nat} (hx : x < bytesInto d config) :
    ∃ s lane, IsLane config s d lane ∧ lane.offset ≤ x ∧
      x < lane.offset + lane.depth * lane.slot := by
  obtain ⟨i, hi, hstart, hend⟩ := Placement.tiles (bytesAt d) hx
  have hdest : config[i].destination = d := by
    by_contra hne
    rw [bytesAt, if_neg hne] at hend
    omega
  refine ⟨_, _, hdest ▸ IsLane.of_index hi, ?_, ?_⟩
  · simpa only [laneOf, bytesInto, hdest] using hstart
  · rw [bytesAt, if_pos hdest] at hend
    simpa only [laneOf, bytesInto, hdest, laneBytes] using hend

/-- Every counter of a source belongs to a lane. -/
theorem acks_cover {config : List LaneSpec} {s : Int} {k : Nat} (hk : k < lanesFrom s config) :
    ∃ d lane, IsLane config s d lane ∧ lane.ack = k := by
  obtain ⟨i, hi, hstart, hend⟩ := Placement.tiles (countersAt s) hk
  have hsource : config[i].source = s := by
    by_contra hne
    rw [countersAt, if_neg hne] at hend
    omega
  refine ⟨_, _, hsource ▸ IsLane.of_index hi, ?_⟩
  rw [countersAt, if_pos hsource] at hend
  simp only [laneOf, lanesFrom, hsource]
  omega

theorem IsLane.inside {config : List LaneSpec} {s d : Int} {lane : Lane}
    (h : IsLane config s d lane) :
    lane.offset + lane.depth * lane.slot ≤ bytesInto d config ∧
      lane.ack < lanesFrom s config := by
  obtain ⟨i, hi, hs, hd, rfl⟩ := h.index
  have hbytes := Placement.inside (bytesAt d) hi
  have hcounters := Placement.inside (countersAt s) hi
  rw [bytesAt, if_pos hd] at hbytes
  rw [countersAt, if_pos hs] at hcounters
  constructor
  · simpa only [laneOf, bytesInto, hd, laneBytes] using hbytes
  · simp only [laneOf, lanesFrom, hs]
    omega

end Ring

end MpiRma
