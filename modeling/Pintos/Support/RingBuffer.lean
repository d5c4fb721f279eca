import Mathlib.Data.List.Basic
import Mathlib.Logic.Function.Basic

/-!
# Support — Ring buffers

A circular buffer of `n` slots with two positions: data is written at `head` and read at `tail`.
One slot stays unused, so that a buffer with `head = tail` is empty and one whose next `head` is
`tail` is full.

`contents` is the queue that the buffer stands for.  `contents_push` and `contents_pop` are its two
operations; `length_contents_lt` bounds it.
-/

namespace Support
open Function List

/-- A circular buffer of `n` slots. -/
structure RingBuffer (α : Type) (n : Nat) where
  buf : Fin n → α
  head : Fin n
  tail : Fin n

namespace RingBuffer

variable {α : Type} {n : Nat} {r : RingBuffer α n} {i : Nat}

/-- The position after `pos`. -/
def next (pos : Fin n) : Fin n := ⟨(pos.val + 1) % n, Nat.mod_lt _ (by have := pos.isLt; omega)⟩

def Empty (r : RingBuffer α n) : Prop := r.head = r.tail

def Full (r : RingBuffer α n) : Prop := next r.head = r.tail

instance (r : RingBuffer α n) : Decidable r.Empty := inferInstanceAs (Decidable (_ = _))
instance (r : RingBuffer α n) : Decidable r.Full := inferInstanceAs (Decidable (_ = _))

/-- The element that is read next. -/
def first (r : RingBuffer α n) : α := r.buf r.tail

def pop (r : RingBuffer α n) : RingBuffer α n := { r with tail := next r.tail }

def push (r : RingBuffer α n) (a : α) : RingBuffer α n :=
  { r with buf := update r.buf r.head a, head := next r.head }

/-! ### The queue -/

/-- How many elements there are. -/
def count (r : RingBuffer α n) : Nat := (r.head.val + n - r.tail.val) % n

/-- The slot `i` places after `pos`. -/
def slot (pos : Fin n) (i : Nat) : Fin n :=
  ⟨(pos.val + i) % n, Nat.mod_lt _ (by have := pos.isLt; omega)⟩

/-- The elements in the order in which they will be read. -/
def contents (r : RingBuffer α n) : List α :=
  (List.range r.count).map fun i => r.buf (slot r.tail i)

theorem count_eq (r : RingBuffer α n) :
    r.count = if r.tail.val ≤ r.head.val then r.head.val - r.tail.val
      else r.head.val + n - r.tail.val := by
  have hh := r.head.isLt; have ht := r.tail.isLt
  rw [count]
  split
  · rw [show r.head.val + n - r.tail.val = r.head.val - r.tail.val + n by omega, Nat.add_mod_right]
    exact Nat.mod_eq_of_lt (by omega)
  · exact Nat.mod_eq_of_lt (by omega)

theorem next_val (pos : Fin n) : (next pos).val = if pos.val + 1 = n then 0 else pos.val + 1 := by
  have := pos.isLt
  simp only [next]
  split
  · rename_i h
    rw [h, Nat.mod_self]
  · exact Nat.mod_eq_of_lt (by omega)

theorem slot_val {pos : Fin n} (hi : i < n) :
    (slot pos i).val = if pos.val + i < n then pos.val + i else pos.val + i - n := by
  have := pos.isLt
  simp only [slot]
  split
  · exact Nat.mod_eq_of_lt ‹_›
  · rw [Nat.mod_eq_sub_mod (by omega)]
    exact Nat.mod_eq_of_lt (by omega)

theorem count_lt (r : RingBuffer α n) : r.count < n :=
  Nat.mod_lt _ (by have := r.head.isLt; omega)

theorem length_contents (r : RingBuffer α n) : r.contents.length = r.count := by
  rw [contents, length_map, length_range]

/-- One slot stays unused. -/
theorem length_contents_lt (r : RingBuffer α n) : r.contents.length < n := by
  rw [length_contents]
  exact r.count_lt

theorem empty_iff_count (r : RingBuffer α n) : r.Empty ↔ r.count = 0 := by
  have hh := r.head.isLt; have ht := r.tail.isLt
  rw [Empty, Fin.ext_iff, count_eq]
  split <;> omega

theorem empty_iff (r : RingBuffer α n) : r.Empty ↔ r.contents = [] := by
  rw [empty_iff_count, ← length_contents, length_eq_zero_iff]

theorem full_iff_count (r : RingBuffer α n) : r.Full ↔ r.count + 1 = n := by
  have hh := r.head.isLt; have ht := r.tail.isLt
  rw [Full, Fin.ext_iff, next_val, count_eq]
  split <;> split <;> omega

theorem count_push (h : ¬ r.Full) (a : α) : (r.push a).count = r.count + 1 := by
  have hh := r.head.isLt; have ht := r.tail.isLt
  rw [full_iff_count, count_eq] at h
  rw [count_eq, count_eq]
  simp only [push, next_val]
  split_ifs at h ⊢ <;> omega

theorem count_pop (h : ¬ r.Empty) : r.count = r.pop.count + 1 := by
  have hh := r.head.isLt; have ht := r.tail.isLt
  rw [Empty, Fin.ext_iff] at h
  rw [count_eq, count_eq]
  simp only [pop, next_val]
  split_ifs <;> omega

/-- The head is the slot after the last element, and no slot of an element. -/
theorem slot_count (r : RingBuffer α n) : slot r.tail r.count = r.head := by
  have hh := r.head.isLt; have ht := r.tail.isLt; have hc := r.count_lt
  rw [Fin.ext_iff, slot_val hc, count_eq]
  split_ifs <;> omega

theorem slot_ne_head (hi : i < r.count) : slot r.tail i ≠ r.head := by
  have ht := r.tail.isLt; have hc := r.count_lt
  rw [← slot_count r, Ne, Fin.ext_iff, slot_val (by omega), slot_val hc]
  split_ifs <;> omega

theorem slot_next {pos : Fin n} (hi : i + 1 < n) : slot (next pos) i = slot pos (i + 1) := by
  have := pos.isLt
  rw [Fin.ext_iff, slot_val (by omega), slot_val hi, next_val]
  split_ifs <;> omega

theorem slot_zero (pos : Fin n) : slot pos 0 = pos := by
  have := pos.isLt
  rw [Fin.ext_iff, slot_val (by omega), if_pos (by omega)]
  rfl

/-- A written element comes last. -/
theorem contents_push (h : ¬ r.Full) (a : α) : (r.push a).contents = r.contents ++ [a] := by
  rw [contents, count_push h, range_succ, map_append, List.map_singleton, contents]
  congr 1
  · refine map_congr_left fun i hi => ?_
    exact update_of_ne (slot_ne_head (List.mem_range.mp hi)) _ _
  · change [update r.buf r.head a (slot r.tail r.count)] = [a]
    rw [slot_count, update_self]

/-- The element that is read was the first. -/
theorem contents_pop (h : ¬ r.Empty) : r.contents = r.first :: r.pop.contents := by
  have hc := r.count_lt
  rw [count_pop h] at hc
  rw [contents, count_pop h, range_succ_eq_map, List.map_cons, List.map_map, slot_zero]
  congr 1
  refine map_congr_left fun i hi => ?_
  rw [List.mem_range] at hi
  exact congrArg r.buf (slot_next (by omega)).symm

theorem not_empty_push (h : ¬ r.Full) (a : α) : ¬ (r.push a).Empty := by
  rw [empty_iff_count, count_push h]
  omega

theorem not_full_pop (h : ¬ r.Empty) : ¬ r.pop.Full := by
  have hc := r.count_lt
  rw [full_iff_count]
  rw [count_pop h] at hc
  omega

end RingBuffer
end Support
