/-
  MpiRma/Abreast.lean
  ===================
  **The ranks of an allocation stay abreast, or not.**  `allocation_in_step` says exactly
  for which conditions of the ranks all of them make the same collective calls, end alike
  and free no locked window.  A rank that cannot open its epoch while another can frees the
  window when the other waits in the barrier.
-/
import MpiRma.Allocation

namespace MpiRma

/-! ### The group in step -/

/-- Every allocation succeeds, and hands out `base`. -/
def Allocates {n : Nat} (base : Fin n → Base) (row : Fin n → MpiEvent) : Prop :=
  MpiCall.Joint row ∧ ∀ bytes width : Fin n → Nat, ∀ answer : Fin n → Except Int Base,
    row = (fun i => ⟨.winAllocate (bytes i) (width i), answer i⟩) → ∀ i, answer i = .ok (base i)

/-- The ranks have made the same sequence of collective operations, all have returned or
    all can go on with the next one together, they end alike, and none frees its window
    while it is locked. -/
structure Abreast {n : Nat} (own : Fin n → Own) (joint : (Fin n → MpiEvent) → Prop)
    (P : Fin n → Rank Window) : Prop where
  sameCalls : ∀ i j, (P i).calls MpiCall.collective MpiCall.operation =
    (P j).calls MpiCall.collective MpiCall.operation
  inStep : InStep MpiCall.collective own MpiCall.operation P
  goesOn : (∀ i, ∃ r, ((P i).next (own i)).rest = .ret r) ∨
    ∃ P', Meets MpiCall.collective own joint P P'
  alike : (∀ i, ∃ r, ((P i).next (own i)).rest = .ret r) →
    (∀ i, ∃ w, ((P i).next (own i)).rest = .ret (.ok w, ())) ∨
      ∀ i, ∃ e, ((P i).next (own i)).rest = .ret (.error e, ())
  unlocked : ∀ i win k, ((P i).next (own i)).rest = .op (.winFree win) k →
    epochOpen ((P i).next (own i)).trace = false

def AllocatesInStep {n : Nat} (comm : Fin n → Comm) (element : Element) (len : Fin n → Nat)
    (base : Fin n → Base) (own : Fin n → Own) : Prop :=
  ∀ P, Together MpiCall.collective own (Allocates base) (allocating comm (fun _ => element) len) P →
    Abreast own (Allocates base) P

/-- The conditions of the ranks are such that all of them make the same collective calls. -/
def Uniform {n : Nat} (comm : Fin n → Comm) (element : Element) (len : Fin n → Nat)
    (base : Fin n → Base) (own : Fin n → Own) : Prop :=
  (∀ i, Refused n (comm i)) ∨ (∀ i, ¬ Refused n (comm i)) ∧
    ((∃ i, aintMax < len i * element.width) ∨ (∀ i, ¬ EpochFails (own i) (base i) (len i)) ∨
      ∀ i, EpochFails (own i) (base i) (len i) ∧ ¬ FailsLocked (own i) (base i) (len i))

section Group

variable {n : Nat} {comm : Fin n → Comm} {element : Element} {len : Fin n → Nat}
  {base : Fin n → Base} {own : Fin n → Own} {P : Fin n → Rank Window}

def allocated (comm : Fin n → Comm) (element : Element) (len : Fin n → Nat)
    (base : Fin n → Base) (i : Fin n) : Rank Window :=
  ⟨[⟨.allGather [len i, element.width, element.typeId],
      (Window.configsOf (fun _ => element) len).flatten⟩,
      ⟨.winAllocate (len i * element.width) element.width, .ok (base i)⟩],
    Window.allocatedWith (comm i) (len i) (List.ofFn len) (.ok (base i)) ()⟩

theorem gathers (hsize : ∀ i, (comm i).size = n) (h : ∀ i, ¬ Refused n (comm i)) :
    Meets MpiCall.collective own (Allocates base) (allocating comm (fun _ => element) len) P ↔
      P = gathered comm (fun _ => element) len := by
  apply allocating_meets (fun _ => element) len (fun _ hrow => hrow.1) _ hsize h
  refine ⟨MpiCall.Joint.allGather (fun i => [len i, element.width, element.typeId]) 3
    fun _ => rfl, ?_⟩
  intro bytes width answer hrow i
  have hcall := congrArg Sigma.fst (congrFun hrow i)
  contradiction

/-- After it they either all fail on a size, or can only meet in the allocation. -/
theorem gathered_oversize {j : Fin n} (h : aintMax < len j * element.width) (i : Fin n) :
    (gathered comm (fun _ => element) len i).rest = .ret (.error .sizeOverflow, ()) :=
  Window.allocateWith_oversize (fun _ => rfl) h

theorem gathered_rest (comm : Fin n → Comm) (helement : element ∈ elements)
    (h : ∀ i, len i * element.width ≤ aintMax) (i : Fin n) :
    (gathered comm (fun _ => element) len i).rest =
      .op (.winAllocate (len i * element.width) element.width) fun answer =>
        Window.allocatedWith (comm i) (len i) (List.ofFn len) answer () := by
  apply Window.allocateWith_fits (fun _ => rfl) _ h
  have hwidth := width_le helement
  unfold i32Max
  omega

theorem gathered_meets (helement : element ∈ elements)
    (h : ∀ i, len i * element.width ≤ aintMax) :
    Meets MpiCall.collective own (Allocates base) (gathered comm (fun _ => element) len) P ↔
      P = allocated comm element len base := by
  rw [meets_allocate (gathered_rest comm helement h)]
  constructor
  · rintro ⟨answer, hrow, rfl⟩
    have hanswer := hrow.2 _ _ _ rfl
    funext i
    rw [hanswer i]
    rfl
  · rintro rfl
    refine ⟨fun i => .ok (base i), ⟨MpiCall.Joint.winAllocate (fun i => len i * element.width)
      (fun _ => element.width) fun i => .ok (base i), ?_⟩, rfl⟩
    intro bytes width answer hrow i
    have hevent := congrFun hrow i
    injection hevent with _ hanswer
    exact hanswer.symm

/-- Where the epoch of every rank opens they meet in the barrier, where none does in the
    free. -/
theorem allocated_next (comm : Fin n → Comm) (element : Element) (len : Fin n → Nat)
    (base : Fin n → Base) (own : Fin n → Own) (i : Fin n) :
    (¬ EpochFails (own i) (base i) (len i) ∧ ∃ w,
        ((allocated comm element len base i).next (own i)).rest =
          .op .barrier fun _ => .ret (.ok w, ())) ∨
      EpochFails (own i) (base i) (len i) ∧ (∃ e,
        ((allocated comm element len base i).next (own i)).rest =
          .op (.winFree (base i).win) fun _ => .ret (.error e, ())) ∧
        (epochOpen ((allocated comm element len base i).next (own i)).trace = true ↔
          FailsLocked (own i) (base i) (len i)) := by
  rcases Window.allocatedWith_ahead (comm i) (own i) (base i) (len i) (List.ofFn len) with
    ⟨hok, model, trace, hahead⟩ | ⟨hfails, e, trace, hahead, hopen⟩
  · refine .inl ⟨hok, ⟨(base i).win, List.ofFn len, (comm i).rank, (comm i).size, model⟩, ?_⟩
    exact congrArg Prod.snd hahead
  · refine .inr ⟨hfails, ⟨e, congrArg Prod.snd hahead⟩, ?_⟩
    have htrace : ((allocated comm element len base i).next (own i)).trace =
        (allocated comm element len base i).trace ++ trace :=
      congrArg (_ ++ ·) (congrArg Prod.fst hahead)
    rw [htrace]
    unfold epochOpen at hopen ⊢
    rw [List.foldl_append]
    exact hopen

/-! ### Runs of the group -/

theorem Allocates.kind {row : Fin n → MpiEvent} (h : Allocates base row) (i j : Fin n) :
    (row i).1.operation = (row j).1.operation := by
  obtain ⟨hjoint, -⟩ := h
  cases hjoint with
  | allGather rows width hwidth => rfl
  | winAllocate bytes width answer => rfl
  | winFree answer => rfl
  | barrier => rfl

/-- Every state of a run has the same calls on all ranks. -/
theorem together_sameCalls
    (h : Together MpiCall.collective own (Allocates base)
      (allocating comm (fun _ => element) len) P)
    (i j : Fin n) : (P i).calls MpiCall.collective MpiCall.operation =
      (P j).calls MpiCall.collective MpiCall.operation :=
  Together.calls (fun _ hrow => hrow.kind) h (fun _ _ => rfl) i j

theorem abreast_returned {joint : (Fin n → MpiEvent) → Prop}
    (hcalls : ∀ i j, (P i).calls MpiCall.collective MpiCall.operation =
      (P j).calls MpiCall.collective MpiCall.operation)
    (h : (∀ i, ∃ w, ((P i).next (own i)).rest = .ret (.ok w, ())) ∨
      ∀ i, ∃ e, ((P i).next (own i)).rest = .ret (.error e, ())) : Abreast own joint P := by
  have hreturned : ∀ i, ∃ r, ((P i).next (own i)).rest = .ret r := by
    intro i
    rcases h with h | h
    · exact ⟨_, (h i).choose_spec⟩
    · exact ⟨_, (h i).choose_spec⟩
  refine ⟨hcalls, .inl hreturned, .inl hreturned, fun _ => h, ?_⟩
  intro i win k hfree
  obtain ⟨r, hr⟩ := hreturned i
  have hsame := hr.symm.trans hfree
  contradiction

theorem abreast_waits {joint : (Fin n → MpiEvent) → Prop} (hi : 0 < n) {P' : Fin n → Rank Window}
    (hcalls : ∀ i j, (P i).calls MpiCall.collective MpiCall.operation =
      (P j).calls MpiCall.collective MpiCall.operation)
    (hmeets : Meets MpiCall.collective own joint P P') {kind : Operation}
    (hat : ∀ i, ∃ c k, ((P i).next (own i)).rest = .op c k ∧ c.operation = kind)
    (hfree : kind = .free → ∀ i, epochOpen ((P i).next (own i)).trace = false) :
    Abreast own joint P := by
  refine ⟨hcalls, .inr ⟨kind, hat⟩, .inr ⟨P', hmeets⟩, ?_, ?_⟩
  · intro hreturned
    obtain ⟨r, hr⟩ := hreturned ⟨0, hi⟩
    obtain ⟨c, k, hop, -⟩ := hat ⟨0, hi⟩
    have hsame := hr.symm.trans hop
    contradiction
  · intro i win k hop
    obtain ⟨c, k', hop', hkind⟩ := hat i
    have hsame := hop'.symm.trans hop
    injection hsame with hcall
    apply hfree _ i
    rw [← hkind, hcall]
    rfl

/-- Ranks that all wait for one collective operation and return after it. -/
theorem returns_after (c : Fin n → MpiCall) {answer : ∀ i, (c i).Answer}
    {r : Fin n → Except Error Window} (hrow : Allocates base fun i => ⟨c i, answer i⟩)
    (hat : ∀ i, ((P i).next (own i)).rest = .op (c i) fun _ => .ret (r i, ())) :
    (∃ P', Meets MpiCall.collective own (Allocates base) P P') ∧
      ∀ P', Meets MpiCall.collective own (Allocates base) P P' →
        ∀ i, ((P' i).next (own i)).rest = .ret (r i, ()) := by
  constructor
  · exact ⟨_, Meets.mk c (fun i _ => .ret (r i, ())) answer hat hrow⟩
  · intro P' hmeets i
    obtain ⟨a, -, rfl⟩ := hmeets.inv hat
    rfl

/-- A run of ranks that have returned is over. -/
theorem Together.returned (hi : 0 < n) {P' : Fin n → Rank Window}
    {joint : (Fin n → MpiEvent) → Prop}
    (h : Together MpiCall.collective own joint P P')
    (hreturned : ∀ i, ∃ r, ((P i).next (own i)).rest = .ret r) : P' = P := by
  apply h.final
  intro Q hmeets
  obtain ⟨r, hr⟩ := hreturned ⟨0, hi⟩
  exact Meets.returned hr hmeets

/-- From the last collective operation on, the ranks stay abreast. -/
theorem abreast_last (hi : 0 < n) {Q : Fin n → Rank Window} (c : Fin n → MpiCall)
    (answer : ∀ i, (c i).Answer) (r : Fin n → Except Error Window) {kind : Operation}
    (hkind : ∀ i, (c i).operation = kind) (hrow : Allocates base fun i => ⟨c i, answer i⟩)
    (hat : ∀ i, ((P i).next (own i)).rest = .op (c i) fun _ => .ret (r i, ()))
    (hfree : kind = .free → ∀ i, epochOpen ((P i).next (own i)).trace = false)
    (halike : (∀ i, ∃ w, r i = .ok w) ∨ ∀ i, ∃ e, r i = .error e)
    (hcalls : ∀ i j, (Q i).calls MpiCall.collective MpiCall.operation =
      (Q j).calls MpiCall.collective MpiCall.operation)
    (h : Together MpiCall.collective own (Allocates base) P Q) :
    Abreast own (Allocates base) Q := by
  obtain ⟨⟨P', hmeets⟩, hreturns⟩ := returns_after c hrow hat
  rcases h.cases hreturns with rfl | ⟨R, hreturned, hrest⟩
  · exact abreast_waits hi hcalls hmeets (fun i => ⟨c i, _, hat i, hkind i⟩) hfree
  · obtain rfl := Together.returned hi hrest fun i => ⟨_, hreturned i⟩
    apply abreast_returned hcalls
    rcases halike with halike | halike
    · left
      intro i
      obtain ⟨w, hw⟩ := halike i
      exact ⟨w, by rw [hreturned i, hw]⟩
    · right
      intro i
      obtain ⟨e, he⟩ := halike i
      exact ⟨e, by rw [hreturned i, he]⟩

theorem abreast_empty {n : Nat} {own : Fin n → Own} {joint : (Fin n → MpiEvent) → Prop}
    {P : Fin n → Rank Window} (h : ¬ 0 < n) : Abreast own joint P := by
  have hnone : ∀ i : Fin n, False := fun i => h (Nat.zero_lt_of_lt i.isLt)
  exact ⟨fun i => (hnone i).elim, .inl fun i => (hnone i).elim, .inl fun i => (hnone i).elim,
    fun _ => .inl fun i => (hnone i).elim, fun i => (hnone i).elim⟩

/-- Uniform conditions keep the ranks abreast through every stage. -/
theorem abreast_of_uniform (helement : element ∈ elements) (hsize : ∀ i, (comm i).size = n)
    (h : Uniform comm element len base own) : AllocatesInStep comm element len base own := by
  intro P hP
  by_cases hi : 0 < n
  swap
  · exact abreast_empty hi
  have hcalls := together_sameCalls hP
  rcases h with hrefused | ⟨haccepted, h⟩
  · have hreturned : ∀ i, ∃ e,
        ((allocating comm (fun _ => element) len i).next (own i)).rest = .ret (.error e, ()) := by
      intro i
      obtain ⟨e, he⟩ := Window.allocate_refused element (len i) (hsize i) (hrefused i)
      refine ⟨e, ?_⟩
      rw [Party.next, Party.ahead_ret he]
      exact he
    obtain rfl := Together.returned hi hP fun i => ⟨_, (hreturned i).choose_spec⟩
    exact abreast_returned hcalls (.inr hreturned)
  have hgather := fun i => allocating_rest (fun _ => element) len hsize (haccepted i)
  have hstart : ∀ i, ((allocating comm (fun _ => element) len i).next (own i)).rest =
      .op (.allGather [len i, element.width, element.typeId]) fun configs =>
        Window.allocateWith (comm i) element (len i) (chunksExact 3 configs) () := by
    intro i
    rw [waiting (own i) (hgather i) rfl]
    exact hgather i
  rcases hP.cases fun Q => (gathers hsize haccepted).mp with rfl | ⟨Q, rfl, hP⟩
  · apply abreast_waits hi hcalls ((gathers hsize haccepted).mpr rfl)
      (fun i => ⟨_, _, hstart i, rfl⟩)
    intro hfree
    contradiction
  by_cases hover : ∃ i, aintMax < len i * element.width
  · obtain ⟨j, hj⟩ := hover
    have hreturned : ∀ i, ((gathered comm (fun _ => element) len i).next (own i)).rest =
        .ret (.error .sizeOverflow, ()) := by
      intro i
      rw [Party.next, Party.ahead_ret (gathered_oversize hj i)]
      exact gathered_oversize hj i
    obtain rfl := Together.returned hi hP fun i => ⟨_, hreturned i⟩
    exact abreast_returned hcalls (.inr fun i => ⟨_, hreturned i⟩)
  have hfits : ∀ i, len i * element.width ≤ aintMax := by
    intro i
    apply Nat.le_of_not_lt
    exact fun h => hover ⟨i, h⟩
  have hallocate := gathered_rest comm helement hfits
  have hwaits : ∀ i, ((gathered comm (fun _ => element) len i).next (own i)).rest =
      .op (.winAllocate (len i * element.width) element.width) fun answer =>
        Window.allocatedWith (comm i) (len i) (List.ofFn len) answer () := by
    intro i
    rw [waiting (own i) (hallocate i) rfl]
    exact hallocate i
  rcases hP.cases fun Q => (gathered_meets helement hfits).mp with rfl | ⟨Q, rfl, hP⟩
  · apply abreast_waits hi hcalls ((gathered_meets helement hfits).mpr rfl)
      (fun i => ⟨_, _, hwaits i, rfl⟩)
    intro hfree
    contradiction
  rcases h with ⟨i, hi⟩ | hopened | hfailed
  · exact absurd hi (Nat.not_lt.mpr (hfits i))
  · have hbarrier : ∀ i, ∃ w, ((allocated comm element len base i).next (own i)).rest =
        .op .barrier fun _ => .ret (.ok w, ()) := by
      intro i
      rcases allocated_next comm element len base own i with
        ⟨-, hnext⟩ | ⟨hfails, -⟩
      · exact hnext
      · exact absurd hfails (hopened i)
    choose w hw using hbarrier
    refine abreast_last hi (fun _ => .barrier) (fun _ => ()) (fun i => .ok (w i)) (fun _ => rfl) ?_
      hw ?_ (.inl fun i => ⟨w i, rfl⟩) hcalls hP
    · refine ⟨MpiCall.Joint.barrier, ?_⟩
      intro bytes width answer hrow i
      have hcall := congrArg Sigma.fst (congrFun hrow i)
      contradiction
    · intro hfree
      contradiction
  · have hclean : ∀ i, ∃ e, ((allocated comm element len base i).next (own i)).rest =
        .op (.winFree (base i).win) fun _ => .ret (.error e, ()) := by
      intro i
      rcases allocated_next comm element len base own i with
        ⟨hopened, -⟩ | ⟨-, hnext, -⟩
      · exact absurd (hfailed i).1 hopened
      · exact hnext
    have hclosed : ∀ i,
        epochOpen ((allocated comm element len base i).next (own i)).trace = false := by
      intro i
      rcases allocated_next comm element len base own i with
        ⟨hopened, -⟩ | ⟨-, -, hopen⟩
      · exact absurd (hfailed i).1 hopened
      · exact Bool.eq_false_iff.mpr fun h => (hfailed i).2 (hopen.mp h)
    choose e he using hclean
    refine abreast_last hi (fun i => .winFree (base i).win) (fun _ => .ok ())
      (fun i => .error (e i)) (fun _ => rfl) ?_ he (fun _ => hclosed)
        (.inr fun i => ⟨e i, rfl⟩) hcalls hP
    refine ⟨MpiCall.Joint.winFree _ fun _ => .ok (), ?_⟩
    intro bytes width answer hrow i
    have hcall := congrArg Sigma.fst (congrFun hrow i)
    contradiction

/-- Ranks of which one has returned and one waits are not abreast, nor are ranks that wait
    in different operations. -/
theorem InStep.waits {i j : Fin n} {c : MpiCall} {k : c.Answer → Program MpiCall MpiCall.Answer
    (Except Error Window × Unit)} (h : InStep MpiCall.collective own MpiCall.operation P)
    (hat : ((P i).next (own i)).rest = .op c k) :
    ∃ c' k', ((P j).next (own j)).rest = .op c' k' ∧ c'.operation = c.operation := by
  rcases h with hreturned | ⟨kind, hwaits⟩
  · obtain ⟨r, hr⟩ := hreturned i
    have hsame := hr.symm.trans hat
    contradiction
  · obtain ⟨c', k', hop, hkind⟩ := hwaits i
    have hsame := hop.symm.trans hat
    injection hsame with hcall
    obtain ⟨c'', k'', hop', hkind'⟩ := hwaits j
    refine ⟨c'', k'', hop', ?_⟩
    rw [hkind', ← hkind, hcall]

/-- Conditions that are not uniform drive the ranks apart, or free a locked window. -/
theorem uniform_of_abreast (helement : element ∈ elements) (hsize : ∀ i, (comm i).size = n)
    (h : AllocatesInStep comm element len base own) : Uniform comm element len base own := by
  by_cases hrefused : ∀ i, Refused n (comm i)
  · exact .inl hrefused
  right
  obtain ⟨i, hi⟩ := not_forall.mp hrefused
  have hstart := h _ .refl
  have haccepted : ∀ j, ¬ Refused n (comm j) := by
    intro j hj
    obtain ⟨e, he⟩ := Window.allocate_refused element (len j) (hsize j) hj
    have hreturned : ((allocating comm (fun _ => element) len j).next (own j)).rest =
        .ret (.error e, ()) := by
      rw [Party.next, Party.ahead_ret he]
      exact he
    have hat : (allocating comm (fun _ => element) len i).rest = _ :=
      allocating_rest (fun _ => element) len hsize hi
    have hstay : (allocating comm (fun _ => element) len i).next (own i) =
        allocating comm (fun _ => element) len i := waiting (own i) hat rfl
    obtain ⟨c, k, hwaits, -⟩ := hstart.inStep.waits (j := j) ((congrArg Party.rest hstay).trans hat)
    have hsame := hwaits.symm.trans hreturned
    contradiction
  refine ⟨haccepted, ?_⟩
  by_cases hover : ∃ i, aintMax < len i * element.width
  · exact .inl hover
  right
  have hfits : ∀ i, len i * element.width ≤ aintMax := by
    intro i
    apply Nat.le_of_not_lt
    exact fun h => hover ⟨i, h⟩
  have hreached : Together MpiCall.collective own (Allocates base)
      (allocating comm (fun _ => element) len) (allocated comm element len base) :=
    .tail (.single ((gathers hsize haccepted).mpr rfl))
      ((gathered_meets helement hfits).mpr rfl)
  have habreast := h _ hreached
  by_cases hopened : ∀ i, ¬ EpochFails (own i) (base i) (len i)
  · exact .inl hopened
  right
  obtain ⟨i, hi⟩ := not_forall_not.mp hopened
  intro j
  rcases allocated_next comm element len base own i with
    ⟨hok, -⟩ | ⟨-, ⟨e, hfree⟩, -⟩
  · exact absurd hi hok
  rcases allocated_next comm element len base own j with
    ⟨-, w, hbarrier⟩ | ⟨hfails, ⟨e', hfree'⟩, hopen⟩
  · obtain ⟨c, k, hop, hkind⟩ := habreast.inStep.waits (j := j) hfree
    have hsame := hop.symm.trans hbarrier
    injection hsame with hcall
    rw [hcall] at hkind
    contradiction
  · refine ⟨hfails, ?_⟩
    intro hlocked
    have hclosed := habreast.unlocked j _ _ hfree'
    rw [hopen.mpr hlocked] at hclosed
    contradiction

end Group

/-- The ranks that allocate a window together stay abreast, end alike and free no locked
    window exactly when their conditions are uniform. -/
theorem allocation_in_step {n : Nat} (comm : Fin n → Comm) (element : Element)
    (len : Fin n → Nat) (base : Fin n → Base) (own : Fin n → Own)
    (helement : element ∈ elements) (hsize : ∀ i, (comm i).size = n) :
    AllocatesInStep comm element len base own ↔ Uniform comm element len base own :=
  ⟨uniform_of_abreast helement hsize, abreast_of_uniform helement hsize⟩

def lockless : Own
  | .winLockAll _ => (.error 1 : Except Int Unit)
  | c => fine c

/-- Nothing fails on a rank that answers so. -/
theorem fine_opens (len : Nat) : ¬ EpochFails fine ⟨0, false⟩ len := by
  rintro (h | h | ⟨code, h⟩ | ⟨h, -⟩)
  · exact absurd h.2 (by decide)
  · exact h .unified rfl
  · contradiction
  · have hmodel := Option.some.inj (Except.ok.inj h)
    contradiction

theorem pairComm_accepted (i : Fin 2) : ¬ Refused 2 (pairComm i) := by
  rintro (h | h | h)
  · contradiction
  · exact h rfl
  · revert h
    decide

theorem allocation_in_step_pair :
    AllocatesInStep pairComm .u64 (fun _ => 1) (fun _ => ⟨0, false⟩) (fun _ => fine) :=
  (allocation_in_step pairComm .u64 (fun _ => 1) (fun _ => ⟨0, false⟩) (fun _ => fine) (by decide)
    fun _ => rfl).mpr (.inr ⟨pairComm_accepted, .inr (.inl fun _ => fine_opens 1)⟩)

/-- One of two ranks cannot lock its window: it frees while the other waits in the barrier. -/
theorem allocation_apart :
    ¬ AllocatesInStep pairComm .u64 (fun _ => 1) (fun _ => ⟨0, false⟩)
      (fun i => if i.val = 0 then fine else lockless) := by
  intro h
  have huniform := uniform_of_abreast (by decide) (fun _ => rfl) h
  have hone : EpochFails lockless ⟨0, false⟩ 1 := .inr (.inr (.inl ⟨1, rfl⟩))
  rcases huniform with hrefused | ⟨-, ⟨i, hi⟩ | hopened | hfailed⟩
  · exact pairComm_accepted ⟨0, by decide⟩ (hrefused _)
  · revert hi
    show ¬ aintMax < 1 * 8
    decide
  · exact hopened ⟨1, by decide⟩ hone
  · exact fine_opens 1 (hfailed ⟨0, by decide⟩).1

end MpiRma
