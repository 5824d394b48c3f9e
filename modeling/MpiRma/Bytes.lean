/-
  MpiRma/Bytes.lean
  =================
  **Bytes, little-endian words and flat memory.**  `toLE` and `ofLE` translate
  between numbers and byte strings of a fixed width and are inverse to each other;
  `Memory` is a flat memory whose reads and writes are compared through the ranges
  they touch.
-/
import Mathlib.Data.List.Basic
import Mathlib.Algebra.Order.Ring.Nat
import Mathlib.Tactic.Ring

namespace MpiRma

abbrev Bytes := List UInt8

/-! ### Little-endian numbers -/

def toLE : Nat → Nat → Bytes
  | 0, _ => []
  | w + 1, n => UInt8.ofNat n :: toLE w (n / 256)

/-- The number a byte string denotes, lowest byte first. -/
def ofLE : Bytes → Nat
  | [] => 0
  | b :: bs => b.toNat + 256 * ofLE bs

@[simp] theorem length_toLE (w n : Nat) : (toLE w n).length = w := by
  induction w generalizing n with
  | zero => rfl
  | succ w ih => simp [toLE, ih]

theorem ofLE_toLE (w n : Nat) : ofLE (toLE w n) = n % 256 ^ w := by
  induction w generalizing n with
  | zero => simp [toLE, ofLE, Nat.mod_one]
  | succ w ih =>
    have hbyte : (UInt8.ofNat n).toNat = n % 256 := UInt8.toNat_ofNat'
    rw [toLE, ofLE, ih, hbyte, pow_succ' 256 w, Nat.mod_mul]

theorem ofLE_toLE_of_lt {w n : Nat} (h : n < 256 ^ w) : ofLE (toLE w n) = n := by
  rw [ofLE_toLE, Nat.mod_eq_of_lt h]

theorem toLE_ofLE (bs : Bytes) : toLE bs.length (ofLE bs) = bs := by
  induction bs with
  | nil => rfl
  | cons b bs ih =>
    have hb : b.toNat < 256 := b.toNat_lt
    have hmod : (b.toNat + 256 * ofLE bs) % 256 = b.toNat := by omega
    have hdiv : (b.toNat + 256 * ofLE bs) / 256 = ofLE bs := by omega
    simp only [List.length_cons, toLE, ofLE, hdiv, ih, List.cons.injEq, and_true]
    apply UInt8.toNat.inj
    rw [UInt8.toNat_ofNat']
    exact hmod

theorem ofLE_lt (bs : Bytes) : ofLE bs < 256 ^ bs.length := by
  induction bs with
  | nil => simp [ofLE]
  | cons b bs ih =>
    have hb : b.toNat < 256 := b.toNat_lt
    simp only [ofLE, List.length_cons, pow_succ']
    omega

theorem ofLE_replicate_zero (n : Nat) : ofLE (List.replicate n 0) = 0 := by
  induction n with
  | zero => rfl
  | succ n ih => simp [List.replicate_succ, ofLE, ih]

/-- A word whose bytes are all below another word's bytes denotes a smaller number. -/
theorem ofLE_le_ofLE {xs ys : Bytes} (hlen : xs.length = ys.length)
    (h : ∀ i (hx : i < xs.length) (hy : i < ys.length), xs[i] ≤ ys[i]) : ofLE xs ≤ ofLE ys := by
  induction xs generalizing ys with
  | nil =>
    cases ys with
    | nil => exact le_refl _
    | cons => simp at hlen
  | cons x xs ih =>
    cases ys with
    | nil => simp at hlen
    | cons y ys =>
      have hhead : x ≤ y := h 0 (by simp) (by simp)
      have htail : ofLE xs ≤ ofLE ys := by
        refine ih (by simpa using hlen) fun i hx hy => ?_
        exact h (i + 1) (by simpa using hx) (by simpa using hy)
      have hnat : x.toNat ≤ y.toNat := UInt8.le_iff_toNat_le.mp hhead
      simp only [ofLE]
      omega

/-! ### Views and splices -/

def view (bytes : Bytes) (start len : Nat) : Bytes := (bytes.drop start).take len

def splice (dst : Bytes) (start : Nat) (src : Bytes) : Bytes :=
  dst.take start ++ src ++ dst.drop (start + src.length)

theorem length_view {bytes : Bytes} {start len : Nat} (h : start + len ≤ bytes.length) :
    (view bytes start len).length = len := by
  rw [view, List.length_take, List.length_drop]
  omega

theorem length_splice {dst src : Bytes} {start : Nat} (h : start + src.length ≤ dst.length) :
    (splice dst start src).length = dst.length := by
  simp only [splice, List.length_append, List.length_take, List.length_drop]
  omega

theorem view_splice_self {dst src : Bytes} {start : Nat} (h : start ≤ dst.length) :
    view (splice dst start src) start src.length = src := by
  have hstart : (dst.take start).length = start := by
    rw [List.length_take]
    omega
  rw [view, splice, List.append_assoc]
  nth_rewrite 1 [← hstart]
  rw [List.drop_left, List.take_left]

/-- A splice leaves the views outside of it alone. -/
theorem view_splice_apart {dst src : Bytes} {start a len : Nat}
    (hsrc : start + src.length ≤ dst.length) (h : a + len ≤ start ∨ start + src.length ≤ a) :
    view (splice dst start src) a len = view dst a len := by
  apply List.ext_getElem?
  intro i
  simp only [view, splice, List.getElem?_take, List.getElem?_drop]
  split
  · rename_i hi
    rcases h with hbefore | hafter
    · rw [List.append_assoc, List.getElem?_append_left (by rw [List.length_take]; omega),
        List.getElem?_take, if_pos (by omega)]
    · have hhead : (dst.take start ++ src).length = start + src.length := by
        rw [List.length_append, List.length_take]
        omega
      rw [List.getElem?_append_right (by omega), hhead, List.getElem?_drop]
      congr 1
      omega
  · rfl

/-- The view of a middle part. -/
theorem view_middle {before part after : Bytes} {start len : Nat} (hstart : start = before.length)
    (hlen : len = part.length) : view (before ++ (part ++ after)) start len = part := by
  rw [view, hstart, hlen, List.drop_left, List.take_left]

/-- A byte string from some place on is the view there and what comes after it. -/
theorem drop_eq_view_append (bytes : Bytes) (start len : Nat) :
    bytes.drop start = view bytes start len ++ bytes.drop (start + len) := by
  rw [view, ← List.drop_drop, List.take_append_drop]

/-! ### Flat memory -/

abbrev Memory (α : Type) := Nat → α

namespace Memory

variable {α : Type}

def read (m : Memory α) (disp len : Nat) : List α :=
  (List.range len).map fun i => m (disp + i)

def write (m : Memory α) (disp : Nat) (data : List α) : Memory α := fun i =>
  if disp ≤ i then (data[i - disp]?).getD (m i) else m i

@[simp] theorem length_read (m : Memory α) (disp len : Nat) : (m.read disp len).length = len := by
  simp [read]

theorem getElem_read (m : Memory α) (disp len i : Nat) (h : i < (m.read disp len).length) :
    (m.read disp len)[i] = m (disp + i) := by
  simp [read]

theorem read_congr {m m' : Memory α} {disp len : Nat}
    (h : ∀ i, disp ≤ i → i < disp + len → m i = m' i) : m.read disp len = m'.read disp len := by
  unfold read
  refine List.map_congr_left fun i hi => ?_
  have := List.mem_range.mp hi
  exact h _ (by omega) (by omega)

theorem take_read (m : Memory α) (disp len k : Nat) (hk : k ≤ len) :
    (m.read disp len).take k = m.read disp k := by
  simp [read, ← List.map_take, List.take_range, Nat.min_eq_left hk]

theorem drop_read (m : Memory α) (disp len k : Nat) :
    (m.read disp len).drop k = m.read (disp + k) (len - k) := by
  apply List.ext_getElem
  · simp
  · intro i h₁ h₂
    simp [read, Nat.add_assoc]

theorem write_outside {m : Memory α} {disp : Nat} {data : List α} {i : Nat}
    (h : i < disp ∨ disp + data.length ≤ i) : m.write disp data i = m i := by
  unfold write
  by_cases hle : disp ≤ i
  · have hout : data.length ≤ i - disp := by omega
    simp [hle, List.getElem?_eq_none hout]
  · simp [hle]

theorem write_inside {m : Memory α} {disp : Nat} {data : List α} {i : Nat}
    (h : i < data.length) : m.write disp data (disp + i) = data[i] := by
  simp [write, List.getElem?_eq_getElem h]

theorem read_write_self (m : Memory α) (disp : Nat) (data : List α) :
    (m.write disp data).read disp data.length = data := by
  apply List.ext_getElem
  · simp
  · intro i h₁ h₂
    rw [getElem_read, write_inside h₂]

theorem read_write_disjoint {m : Memory α} {disp start len : Nat} {data : List α}
    (h : start + len ≤ disp ∨ disp + data.length ≤ start) :
    (m.write disp data).read start len = m.read start len :=
  read_congr fun i _ _ => write_outside (by omega)

/-- A read of one element more starts with it. -/
theorem read_succ (m : Memory α) (disp len : Nat) :
    m.read disp (len + 1) = m disp :: m.read (disp + 1) len := by
  unfold read
  rw [List.range_succ_eq_map, List.map_cons, List.map_map]
  refine List.cons_eq_cons.mpr ⟨rfl, List.map_congr_left fun i _ => ?_⟩
  show m (disp + (i + 1)) = m (disp + 1 + i)
  rw [Nat.add_assoc, Nat.add_comm 1 i]

/-- A write is the write of its first element and then of the rest. -/
theorem write_cons (m : Memory α) (disp : Nat) (a : α) (rest : List α) :
    (m.write disp [a]).write (disp + 1) rest = m.write disp (a :: rest) := by
  funext i
  unfold write
  rcases Nat.lt_trichotomy i disp with hlt | rfl | hgt
  · rw [if_neg (by omega), if_neg (by omega), if_neg (by omega)]
  · simp
  · have hstep : i - disp = i - (disp + 1) + 1 := by omega
    rw [if_pos (by omega), if_pos (by omega), if_pos (by omega), hstep]
    simp

theorem read_const (a : α) (disp len : Nat) :
    (Memory.read (fun _ => a) disp len) = List.replicate len a := by
  simp [read]

end Memory

end MpiRma
