/-
  MpiRma/Channel.lean
  ===================
  **Bounded channels.**  A channel accepts values from a sender and hands them, by position,
  to a receiver, who gives room back.  A gated channel accepts only what there is room for; any
  other accepts everything, and its receiver, once overrun, may jump ahead.

  A receiver jumps only when it has been overrun, and a gate keeps it from being overrun, so
  a gated channel loses nothing: what is received is a prefix of what was accepted
  (`Sound.received_gated`).  Without the gate it is a part of it, in the same order
  (`Sound.received_sublist`), and no position is passed over as long as the receiver keeps up
  (`taken_of_keeping_up`).
-/
import Mathlib.Logic.Relation
import Mathlib.Data.List.Range

namespace MpiRma

/-- What was accepted, oldest first; the positions, counted from 1, that were taken; and the
    position up to which room has been given back. -/
structure Channel (α : Type) where
  accepted : List α
  taken : List Nat
  released : Nat

namespace Channel

variable {α : Type}

def empty : Channel α := ⟨[], [], 0⟩

def cursor (c : Channel α) : Nat := c.taken.getLast?.getD 0

def received (c : Channel α) : List α := c.taken.filterMap fun p => c.accepted[p - 1]?

/-- One step of a channel of some depth: it accepts a value, the receiver takes the next positions
    and then perhaps, overrun, some further on, or it gives room back. -/
inductive Step (gated : Bool) (depth : Nat) : Channel α → Channel α → Prop where
  | accept (c : Channel α) (a : α)
      (hroom : gated = true → c.accepted.length < c.released + depth) :
      Step gated depth c { c with accepted := c.accepted ++ [a] }
  | take (c : Channel α) (count : Nat) (jump : List Nat)
      (hnext : c.cursor + count ≤ c.accepted.length) (hascending : jump.Pairwise (· < ·))
      (hahead : ∀ p ∈ jump, c.cursor + count < p ∧ p ≤ c.accepted.length)
      (hoverrun : jump ≠ [] → c.cursor + count + depth < c.accepted.length) :
      Step gated depth c
        { c with taken := c.taken ++ (List.range' (c.cursor + 1) count ++ jump) }
  | release (c : Channel α) (q : Nat) (hq : c.released < q) (hcursor : q ≤ c.cursor) :
      Step gated depth c { c with released := q }

/-! ### Cursors -/

section Cursor

variable {c : Channel α} {count : Nat} {jump : List Nat}

theorem cursor_append {taken more : List Nat} :
    ((taken ++ more).getLast?.getD 0) = more.getLast?.getD (taken.getLast?.getD 0) := by
  rw [List.getLast?_append]
  cases more.getLast? with
  | none => rfl
  | some p => rfl

theorem getLast?_range' (start count : Nat) :
    (List.range' (start + 1) count).getLast?.getD start = start + count := by
  cases count with
  | zero => rfl
  | succ count =>
    rw [List.range'_concat, List.getLast?_append, List.getLast?_singleton]
    simp only [Option.some_or, Option.getD_some]
    omega

/-- The cursor after a take. -/
theorem cursor_take :
    ({ c with taken := c.taken ++ (List.range' (c.cursor + 1) count ++ jump) } : Channel α).cursor =
      jump.getLast?.getD (c.cursor + count) := by
  show ((c.taken ++ _).getLast?.getD 0) = _
  rw [← List.append_assoc, cursor_append, cursor_append]
  congr 1
  exact getLast?_range' c.cursor count

/-- The last of an ascending list is its greatest. -/
theorem le_getLast? {xs : List Nat} {low : Nat} (hascending : xs.Pairwise (· < ·))
    (hlow : ∀ p ∈ xs, low < p) :
    low ≤ xs.getLast?.getD low ∧ ∀ p ∈ xs, p ≤ xs.getLast?.getD low := by
  induction xs generalizing low with
  | nil =>
    constructor
    · exact le_rfl
    · simp
  | cons x rest ih =>
    obtain ⟨hfirst, hrest⟩ := List.pairwise_cons.mp hascending
    obtain ⟨hle, hall⟩ := ih hrest hfirst
    have hlast : (x :: rest).getLast?.getD low = rest.getLast?.getD x := by
      simp [List.getLast?_cons]
    rw [hlast]
    constructor
    · exact (hlow x (List.mem_cons_self ..)).le.trans hle
    · intro p hp
      rcases List.mem_cons.mp hp with rfl | hp
      · exact hle
      · exact hall p hp

end Cursor

/-! ### What every run keeps -/

structure Sound (gated : Bool) (depth : Nat) (c : Channel α) : Prop where
  ascending : c.taken.Pairwise (· < ·)
  within : ∀ p ∈ c.taken, 0 < p ∧ p ≤ c.cursor
  cursor_le : c.cursor ≤ c.accepted.length
  released_le : c.released ≤ c.cursor
  room : gated = true → c.accepted.length ≤ c.released + depth
  lossless : gated = true → c.taken = List.range' 1 c.cursor

variable {gated : Bool} {depth : Nat} {c c' : Channel α}

theorem sound_empty : Sound gated depth (empty : Channel α) where
  ascending := .nil
  within := nofun
  cursor_le := le_rfl
  released_le := le_rfl
  room _ := Nat.zero_le _
  lossless _ := rfl

/-- A receiver that has not been overrun takes the next positions only. -/
theorem range'_take (hall : c.taken = List.range' 1 c.cursor) (count : Nat) :
    c.taken ++ List.range' (c.cursor + 1) count = List.range' 1 (c.cursor + count) := by
  nth_rewrite 1 [hall]
  rw [Nat.add_comm c.cursor 1, List.range'_append_1]

/-- **Every step keeps a channel sound**; a gate leaves no room to overrun the receiver. -/
theorem Sound.step (h : Sound gated depth c) (hs : Step gated depth c c') :
    Sound gated depth c' := by
  cases hs with
  | accept a hroom =>
    have hlength : (c.accepted ++ [a]).length = c.accepted.length + 1 := by simp
    constructor
    · exact h.ascending
    · exact h.within
    · show c.cursor ≤ (c.accepted ++ [a]).length
      have := h.cursor_le
      omega
    · exact h.released_le
    · intro hgated
      show (c.accepted ++ [a]).length ≤ c.released + depth
      have := hroom hgated
      omega
    · exact h.lossless
  | take count jump hnext hascending hahead hoverrun =>
    have hcursor : ({ c with taken := c.taken ++ (List.range' (c.cursor + 1) count ++ jump) } :
        Channel α).cursor = jump.getLast?.getD (c.cursor + count) := cursor_take
    obtain ⟨hle, hlast⟩ := le_getLast? hascending fun p hp => (hahead p hp).1
    have hmem : ∀ p ∈ List.range' (c.cursor + 1) count ++ jump,
        c.cursor < p ∧ p ≤ jump.getLast?.getD (c.cursor + count) := by
      intro p hp
      rcases List.mem_append.mp hp with hp | hp
      · have := List.mem_range'_1.mp hp
        omega
      · have := hahead p hp
        have := hlast p hp
        omega
    constructor
    · apply List.pairwise_append.mpr
      refine ⟨h.ascending, List.pairwise_append.mpr ⟨List.pairwise_lt_range', hascending, ?_⟩, ?_⟩
      · intro p hp q hq
        have := List.mem_range'_1.mp hp
        have := hahead q hq
        omega
      · intro p hp q hq
        have := h.within p hp
        have := hmem q hq
        omega
    · intro p hp
      rw [hcursor]
      rcases List.mem_append.mp hp with hp | hp
      · have := h.within p hp
        omega
      · have := hmem p hp
        omega
    · rw [hcursor]
      cases hend : jump.getLast? with
      | none => exact hnext
      | some p => exact (hahead p (List.mem_of_getLast? hend)).2
    · rw [hcursor]
      have := h.released_le
      show c.released ≤ _
      omega
    · exact h.room
    · intro hgated
      have hroom := h.room hgated
      have hback := h.released_le
      have hnone : jump = [] := by
        by_contra hjump
        have := hoverrun hjump
        omega
      subst hnone
      rw [hcursor, List.append_nil]
      exact range'_take (h.lossless hgated) count
  | release q hq hcursor =>
    constructor
    · exact h.ascending
    · exact h.within
    · exact h.cursor_le
    · exact hcursor
    · intro hgated
      have := h.room hgated
      show c.accepted.length ≤ q + depth
      omega
    · exact h.lossless

abbrev Run (gated : Bool) (depth : Nat) (c : Channel α) : Prop :=
  Relation.ReflTransGen (Step gated depth) empty c

theorem Run.sound (h : Run gated depth c) : Sound gated depth c := by
  induction h with
  | refl => exact sound_empty
  | tail _ hstep ih => exact ih.step hstep

/-! ### What is received -/

/-- The values at consecutive positions are those accepted there. -/
theorem filterMap_range' (accepted : List α) {count : Nat} (hcount : count ≤ accepted.length) :
    (List.range' 1 count).filterMap (fun p => accepted[p - 1]?) = accepted.take count := by
  induction count with
  | zero => rfl
  | succ count ih =>
    have hlt : count < accepted.length := hcount
    rw [List.range'_concat, List.filterMap_append, ih hlt.le, List.take_add_one]
    simp [List.getElem?_eq_getElem hlt]

/-- **Nothing is lost through a gate**: what is received is a prefix of what was accepted. -/
theorem Sound.received_gated (h : Sound true depth c) : c.received = c.accepted.take c.cursor := by
  unfold received
  nth_rewrite 1 [h.lossless rfl]
  exact filterMap_range' c.accepted h.cursor_le

/-- Ascending positions pick a sublist. -/
theorem filterMap_sublist (accepted : List α) {positions : List Nat} {low : Nat}
    (hascending : positions.Pairwise (· < ·)) (hlow : ∀ p ∈ positions, low < p) :
    (positions.filterMap fun p => accepted[p - 1]?).Sublist (accepted.drop low) := by
  induction positions generalizing low with
  | nil => exact List.nil_sublist _
  | cons p rest ih =>
    obtain ⟨hfirst, hrest⟩ := List.pairwise_cons.mp hascending
    have hp := hlow p (List.mem_cons_self ..)
    have htail := ih hrest hfirst
    have hdrop : (accepted.drop (p - 1)).Sublist (accepted.drop low) :=
      List.drop_sublist_drop_left accepted (by omega)
    refine List.Sublist.trans ?_ hdrop
    rw [List.filterMap_cons]
    cases hget : accepted[p - 1]? with
    | none => exact htail.trans (List.drop_sublist_drop_left accepted (by omega))
    | some a =>
      obtain ⟨hlt, rfl⟩ := List.getElem?_eq_some_iff.mp hget
      rw [List.drop_eq_getElem_cons hlt, Nat.sub_add_cancel (by omega)]
      exact htail.cons_cons _

theorem Sound.received_sublist (h : Sound gated depth c) : c.received.Sublist c.accepted := by
  have hpart := filterMap_sublist c.accepted h.ascending fun p hp => (h.within p hp).1
  rwa [List.drop_zero] at hpart

/-- **A receiver that keeps up takes every position**, with or without a gate: as long as no more
    than `depth` values wait for it, nothing is passed over. -/
theorem taken_of_keeping_up (h : Relation.ReflTransGen
      (fun a b => Step gated depth a b ∧ a.accepted.length ≤ a.cursor + depth) empty c) :
    c.taken = List.range' 1 c.cursor := by
  induction h with
  | refl => rfl
  | @tail b c hsteps hstep ih =>
    obtain ⟨hs, hkeeps⟩ := hstep
    cases hs with
    | accept a hroom => exact ih
    | release q hq hcursor => exact ih
    | take count jump hnext hascending hahead hoverrun =>
      have hnone : jump = [] := by
        by_contra hjump
        have := hoverrun hjump
        omega
      subst hnone
      rw [cursor_take, List.append_nil]
      exact range'_take ih count

end Channel

end MpiRma
