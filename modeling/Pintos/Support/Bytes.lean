import Mathlib.Data.List.GetD
import Mathlib.Tactic

/-!
# Support — Bytes

Arrays of `n` bytes, as a C program sees a buffer: single bytes, `memcpy` out of and into the
buffer (`read`, `write`), and little-endian 32-bit words (`u32`, `setU32`).  `ofWords` lays a
sequence of words out over a buffer.
-/

namespace Support
open List

/-- A buffer of `n` bytes. -/
def Bytes (n : Nat) : Type := Fin n → UInt8

namespace Bytes

variable {n ofs : Nat} {b : Bytes n} {src : List UInt8} {l : List UInt8} {k : Nat} {w : Nat → Nat}

/-- Byte `k`; `0` off the end. -/
def get (b : Bytes n) (k : Nat) : UInt8 := if h : k < n then b ⟨k, h⟩ else 0

/-- All bytes zero. -/
def zero : Bytes n := fun _ => 0

/-- `memcpy` out of `b`: the `size` bytes from `ofs`. -/
def read (b : Bytes n) (ofs size : Nat) : List UInt8 :=
  (List.range size).map fun k => b.get (ofs + k)

/-- `memcpy` into `b`: the bytes `src` at `ofs`. -/
def write (b : Bytes n) (ofs : Nat) (src : List UInt8) : Bytes n := fun i =>
  if ofs ≤ i.val ∧ i.val < ofs + src.length then src.getD (i.val - ofs) 0 else b i

/-- Byte `j` of the little-endian word `v`. -/
def leByte (v j : Nat) : UInt8 := UInt8.ofNat (v / 256 ^ j)

/-- The four bytes of the word `v`. -/
def le32 (v : Nat) : List UInt8 := [leByte v 0, leByte v 1, leByte v 2, leByte v 3]

/-- The word of four bytes. -/
def word (b₀ b₁ b₂ b₃ : UInt8) : Nat :=
  b₀.toNat + 256 * b₁.toNat + 65536 * b₂.toNat + 16777216 * b₃.toNat

/-- The word at byte `ofs`. -/
def u32 (b : Bytes n) (ofs : Nat) : Nat :=
  word (b.get ofs) (b.get (ofs + 1)) (b.get (ofs + 2)) (b.get (ofs + 3))

/-- Store the word `v` at byte `ofs`. -/
def setU32 (b : Bytes n) (ofs v : Nat) : Bytes n := b.write ofs (le32 v)

/-- The buffer whose word at byte `4 k` is `w k`. -/
def ofWords (w : Nat → Nat) : Bytes n := fun i => leByte (w (i.val / 4)) (i.val % 4)

@[simp] theorem get_zero (k : Nat) : (zero : Bytes n).get k = 0 := by
  unfold get zero; split <;> rfl

@[simp] theorem length_read (b : Bytes n) (ofs size : Nat) : (b.read ofs size).length = size := by
  simp [read]

@[simp] theorem length_le32 (v : Nat) : (le32 v).length = 4 := rfl

theorem getD_read {size k : Nat} (h : k < size) :
    (b.read ofs size).getD k 0 = b.get (ofs + k) := by
  simp [read, List.getD, h]

theorem get_ofWords (h : k < n) :
    (ofWords w : Bytes n).get k = leByte (w (k / 4)) (k % 4) := by
  simp only [get, h, dite_true, ofWords]

/-- A buffer is its bytes. -/
theorem ext_get {a b : Bytes n} (h : ∀ k < n, a.get k = b.get k) : a = b := by
  funext i
  have := h i.val i.isLt
  simpa only [get, i.isLt, dite_true] using this

theorem get_write {k : Nat} (hk : k < n) : (b.write ofs src).get k =
      if ofs ≤ k ∧ k < ofs + src.length then src.getD (k - ofs) 0 else b.get k := by
  simp only [get, hk, dite_true, write]

theorem get_write_of_outside {k : Nat} (h : k < ofs ∨ ofs + src.length ≤ k) :
    (b.write ofs src).get k = b.get k := by
  by_cases hk : k < n
  · rw [get_write hk, if_neg (by omega)]
  · simp only [get, hk, dite_false]

/-- What was written reads back. -/
theorem read_write_self (h : ofs + src.length ≤ n) :
    (b.write ofs src).read ofs src.length = src := by
  refine ext_getElem (length_read ..) fun k hk hk' => ?_
  rw [← getD_eq_getElem _ 0 hk, getD_read hk', get_write (by omega), if_pos (by omega),
    Nat.add_sub_cancel_left, getD_eq_getElem _ _ hk']

/-- Bytes apart from those written. -/
theorem read_write_of_apart {ofs' size : Nat} (h : ofs' + size ≤ ofs ∨ ofs + src.length ≤ ofs') :
    (b.write ofs src).read ofs' size = b.read ofs' size := by
  refine map_congr_left fun k hk => get_write_of_outside ?_
  rw [List.mem_range] at hk
  omega

theorem read_append (b : Bytes n) (ofs size size' : Nat) :
    b.read ofs (size + size') = b.read ofs size ++ b.read (ofs + size) size' := by
  simp [read, List.range_add, Nat.add_assoc]

/-- The buffer that starts with the bytes `l`, and is zero from there on. -/
def ofList (l : List UInt8) : Bytes n := fun i => l.getD i.val 0

theorem get_ofList (h : k < n) : (ofList l : Bytes n).get k = l.getD k 0 := by
  simp only [get, h, dite_true, ofList]

/-- A buffer that is overwritten by bytes and zeros. -/
theorem write_fill (b : Bytes n) (h : l.length ≤ n) :
    (b.write 0 l).write l.length (List.replicate (n - l.length) 0) = ofList l := by
  refine ext_get fun k hk => ?_
  rw [get_write hk, get_ofList hk, length_replicate]
  split
  · rename_i hin
    rw [getD_eq_getElem _ _ (by rw [length_replicate]; omega), List.getElem_replicate,
      getD_eq_default _ _ hin.1]
  · rw [get_write hk, if_pos (by omega), Nat.sub_zero]

theorem read_ofList (h : l.length ≤ n) : (ofList l : Bytes n).read 0 l.length = l := by
  refine ext_getElem (length_read ..) fun k hk hk' => ?_
  rw [← getD_eq_getElem _ 0 hk, getD_read hk', Nat.zero_add, get_ofList (by omega),
    getD_eq_getElem _ _ hk']

/-! ### Words -/

theorem leByte_toNat (v j : Nat) : (leByte v j).toNat = v / 256 ^ j % 256 := by
  simp [leByte]

theorem word_le32 (v : Nat) :
    word (leByte v 0) (leByte v 1) (leByte v 2) (leByte v 3) = v % 2 ^ 32 := by
  simp only [word, leByte_toNat]
  omega

theorem word_lt (a b c d : UInt8) : word a b c d < 2 ^ 32 := by
  have h₀ := a.toNat_lt; have h₁ := b.toNat_lt; have h₂ := c.toNat_lt; have h₃ := d.toNat_lt
  simp only [word]
  omega

theorem u32_lt (b : Bytes n) (ofs : Nat) : b.u32 ofs < 2 ^ 32 := word_lt _ _ _ _

theorem u32_congr {a b : Bytes n} (h : ∀ k, k < 4 → a.get (ofs + k) = b.get (ofs + k)) :
    a.u32 ofs = b.u32 ofs := by
  have h₀ := h 0 (by omega); have h₁ := h 1 (by omega)
  have h₂ := h 2 (by omega); have h₃ := h 3 (by omega)
  simp only [Nat.add_zero] at h₀
  simp only [u32, h₀, h₁, h₂, h₃]

/-- A stored word reads back. -/
theorem u32_setU32_self {v : Nat} (h : ofs + 4 ≤ n) :
    (b.setU32 ofs v).u32 ofs = v % 2 ^ 32 := by
  have hb : ∀ j, j < 4 → (b.setU32 ofs v).get (ofs + j) = (le32 v).getD j 0 := fun j hj => by
    rw [setU32, get_write (by omega), if_pos ⟨by omega, by simp; omega⟩, Nat.add_sub_cancel_left]
  have h₀ := hb 0 (by omega)
  simp only [Nat.add_zero] at h₀
  simp only [u32, h₀, hb 1 (by omega), hb 2 (by omega), hb 3 (by omega)]
  exact word_le32 v

/-- A word apart from the stored one is unchanged. -/
theorem u32_setU32_of_apart {ofs' v : Nat} (h : ofs' + 4 ≤ ofs ∨ ofs + 4 ≤ ofs') :
    (b.setU32 ofs v).u32 ofs' = b.u32 ofs' :=
  u32_congr fun k hk => get_write_of_outside (by rw [length_le32]; omega)

/-- An array of words: entry `j` after storing `v` at entry `i`. -/
theorem u32_setU32_entry {i j v : Nat} (hi : 4 * i + 4 ≤ n) (hv : v < 2 ^ 32) :
    (b.setU32 (4 * i) v).u32 (4 * j) = if j = i then v else b.u32 (4 * j) := by
  split
  · rename_i h
    rw [h, u32_setU32_self hi, Nat.mod_eq_of_lt hv]
  · exact u32_setU32_of_apart (by omega)

theorem u32_ofWords (h : 4 * k + 4 ≤ n) :
    (ofWords w : Bytes n).u32 (4 * k) = w k % 2 ^ 32 := by
  have hb : ∀ j, j < 4 → (ofWords w : Bytes n).get (4 * k + j) = leByte (w k) j := fun j hj => by
    rw [get_ofWords (by omega), show (4 * k + j) / 4 = k by omega,
      show (4 * k + j) % 4 = j by omega]
  have h₀ := hb 0 (by omega)
  simp only [Nat.add_zero] at h₀
  simp only [u32, h₀, hb 1 (by omega), hb 2 (by omega), hb 3 (by omega)]
  exact word_le32 (w k)

end Bytes

end Support
