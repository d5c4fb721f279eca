import Mathlib.Tactic

/-!
# Lib — Bitmap

`lib/kernel/bitmap.c`: a fixed number of bits, scanned for groups of equal ones.  `b.Free t` says
that `t` is a bit of the map and clear.

`bitmap_bytes` and `bitmap_of_bytes` are the image of the bits in a file, 32 bits to an element;
`bits_bitmap_of_bytes` is the round trip.
-/

namespace Pintos
open List

/-- `struct bitmap`. -/
structure Bitmap where
  bit_cnt : Nat
  bits : Nat → Bool

/-- `bitmap_create`. -/
def bitmap_create (bit_cnt : Nat) : Bitmap := ⟨bit_cnt, fun _ => false⟩

/-- `bitmap_mark`. -/
def bitmap_mark (b : Bitmap) (idx : Nat) : Bitmap :=
  { b with bits := Function.update b.bits idx true }

/-- `bitmap_contains`: some of the `cnt` bits from `start` is `value`. -/
def bitmap_contains (b : Bitmap) (start cnt : Nat) (value : Bool) : Bool :=
  (List.range cnt).any fun i => b.bits (start + i) == value

/-- `bitmap_count`: how many of the `cnt` bits from `start` are `value`. -/
def bitmap_count (b : Bitmap) (start cnt : Nat) (value : Bool) : Nat :=
  (List.range cnt).countP fun i => b.bits (start + i) == value

/-- `bitmap_all`. -/
def bitmap_all (b : Bitmap) (start cnt : Nat) : Bool := !bitmap_contains b start cnt false

/-- `bitmap_set_multiple`. -/
def bitmap_set_multiple (b : Bitmap) (start cnt : Nat) (value : Bool) : Bitmap :=
  { b with bits := fun i => if start ≤ i ∧ i < start + cnt then value else b.bits i }

/-- `bitmap_scan`; `none` is `BITMAP_ERROR`. -/
def bitmap_scan (b : Bitmap) (start cnt : Nat) (value : Bool) : Option Nat :=
  if cnt ≤ b.bit_cnt then
    (range' start (b.bit_cnt - cnt + 1 - start)).find? fun i =>
      !bitmap_contains b i cnt (!value)
  else none

/-- `byte_cnt`: elements of 32 bits. -/
def byte_cnt (bit_cnt : Nat) : Nat := 4 * ((bit_cnt + 31) / 32)

/-- `bitmap_file_size`. -/
def bitmap_file_size (b : Bitmap) : Nat := byte_cnt b.bit_cnt

/-- The elements of `b` as bytes; the bits after the last are clear. -/
def bitmap_bytes (b : Bitmap) : List UInt8 :=
  (List.range (byte_cnt b.bit_cnt)).map fun k =>
    UInt8.ofNat (((List.range 8).map fun j =>
      if 8 * k + j < b.bit_cnt ∧ b.bits (8 * k + j) = true then 2 ^ j else 0).sum)

/-- The bitmap of `bit_cnt` bits whose elements are `bytes`. -/
def bitmap_of_bytes (bit_cnt : Nat) (bytes : List UInt8) : Bitmap :=
  ⟨bit_cnt, fun i => (bytes.getD (i / 8) 0).toNat.testBit (i % 8)⟩

/-- The map after `file_read_at` has put `bytes` over its elements; `last_mask` clears what follows
the last bit. -/
def bitmap_load (b : Bitmap) (bytes : List UInt8) : Bitmap :=
  { b with bits := fun i => decide (i < b.bit_cnt) &&
      if i / 8 < bytes.length then (bitmap_of_bytes b.bit_cnt bytes).bits i else b.bits i }

namespace Bitmap

/-- `t` is a clear bit of the map. -/
def Free (b : Bitmap) (t : Nat) : Prop := t < b.bit_cnt ∧ b.bits t = false

instance (b : Bitmap) (t : Nat) : Decidable (b.Free t) := inferInstanceAs (Decidable (_ ∧ _))

/-- Scanning for one clear bit and setting it, `A.length` times over, takes the bits `A` in turn
and leaves `b'`. -/
def Takes (b : Bitmap) : List Nat → Bitmap → Prop
  | [], b' => b' = b
  | t :: A, b' => bitmap_scan b 0 1 false = some t ∧ Takes (bitmap_set_multiple b t 1 true) A b'

/-- The bits taken by at most `n` such scans, and the map they leave. -/
def take : Nat → Bitmap → List Nat × Bitmap
  | 0, b => ([], b)
  | n + 1, b =>
    match bitmap_scan b 0 1 false with
    | none => ([], b)
    | some t =>
      let r := take n (bitmap_set_multiple b t 1 true)
      (t :: r.1, r.2)

/-- The map with the bits `R` clear. -/
def clear (b : Bitmap) (R : List Nat) : Bitmap :=
  { b with bits := fun t => b.bits t && !R.contains t }

end Bitmap

@[simp] theorem length_bitmap_bytes (b : Bitmap) :
    (bitmap_bytes b).length = bitmap_file_size b := by
  simp [bitmap_bytes, bitmap_file_size]

theorem bitmap_contains_one (b : Bitmap) (i : Nat) (v : Bool) :
    bitmap_contains b i 1 v = (b.bits i == v) := by
  simp [bitmap_contains]

theorem bitmap_all_one (b : Bitmap) (i : Nat) : bitmap_all b i 1 = b.bits i := by
  simp [bitmap_all, bitmap_contains_one]

theorem bits_set_one (b : Bitmap) (i t : Nat) (v : Bool) :
    (bitmap_set_multiple b i 1 v).bits t = if t = i then v else b.bits t := by
  simp only [bitmap_set_multiple]
  split <;> split <;> first | rfl | omega

variable {b : Bitmap} {t : Nat}

/-- A scan for one clear bit finds a free one. -/
theorem bitmap_scan_free (h : bitmap_scan b 0 1 false = some t) : b.Free t := by
  unfold bitmap_scan at h
  split at h
  · have hm := mem_of_find?_eq_some h
    have hp := find?_some h
    rw [bitmap_contains_one] at hp
    rw [mem_range'_1] at hm
    exact ⟨by omega, by simpa using hp⟩
  · cases h

/-- A scan for one clear bit fails only on a full map. -/
theorem bitmap_scan_none (h : bitmap_scan b 0 1 false = none) (t : Nat) : ¬ b.Free t := by
  rintro ⟨ht, hb⟩
  unfold bitmap_scan at h
  rw [if_pos (by omega), find?_eq_none] at h
  have := h t (by rw [mem_range'_1]; omega)
  rw [bitmap_contains_one] at this
  simp [hb] at this

theorem free_set_true {i t : Nat} : (bitmap_set_multiple b i 1 true).Free t ↔ b.Free t ∧ t ≠ i := by
  simp only [Bitmap.Free, bits_set_one]
  constructor
  · rintro ⟨ht, hb⟩
    split at hb
    · cases hb
    · exact ⟨⟨ht, hb⟩, ‹_›⟩
  · rintro ⟨⟨ht, hb⟩, hne⟩
    exact ⟨ht, by rw [if_neg hne]; exact hb⟩

/-- What is free with a group set was free before. -/
theorem free_of_set_true {i cnt t : Nat} (h : (bitmap_set_multiple b i cnt true).Free t) :
    b.Free t := by
  obtain ⟨ht, hb⟩ := h
  simp only [bitmap_set_multiple] at hb
  split at hb
  · cases hb
  · exact ⟨ht, hb⟩

/-! ### The image of a map -/

/-- A sum of distinct powers of two below `2 ^ n`. -/
theorem sum_bits_lt (p : Nat → Prop) [DecidablePred p] (n : Nat) :
    ((List.range n).map fun j => if p j then 2 ^ j else 0).sum < 2 ^ n := by
  induction n with
  | zero => simp
  | succ n ih =>
    rw [range_succ, map_append, List.sum_append, Nat.pow_succ]
    simp only [List.map_cons, map_nil, List.sum_singleton]
    split <;> omega

/-- Its bits are the powers it was summed from. -/
theorem testBit_sum_bits (p : Nat → Prop) [DecidablePred p] {n m : Nat} (hm : m < n) :
    ((List.range n).map fun j => if p j then 2 ^ j else 0).sum.testBit m = decide (p m) := by
  induction n with
  | zero => omega
  | succ n ih =>
    rw [range_succ, map_append, List.sum_append]
    simp only [List.map_cons, map_nil, List.sum_singleton]
    rcases Nat.lt_succ_iff_lt_or_eq.mp hm with hlt | rfl
    · rw [← ih hlt]
      split
      · rw [Nat.add_comm, Nat.testBit_two_pow_add_gt hlt]
      · rw [Nat.add_zero]
    · have hz := Nat.testBit_lt_two_pow (sum_bits_lt p m)
      split
      · rw [Nat.add_comm, Nat.testBit_two_pow_add_eq, hz]
        simp [*]
      · rw [Nat.add_zero, hz]
        simp [*]

/-- The image of a map gives back its bits. -/
theorem bits_bitmap_of_bytes (b : Bitmap) (n : Nat) (ht : t < b.bit_cnt) :
    (bitmap_of_bytes n (bitmap_bytes b)).bits t = b.bits t := by
  have hk : t / 8 < byte_cnt b.bit_cnt := by
    simp only [byte_cnt]
    omega
  have hlt : ((List.range 8).map fun j =>
      if 8 * (t / 8) + j < b.bit_cnt ∧ b.bits (8 * (t / 8) + j) = true then 2 ^ j else 0).sum <
      2 ^ 8 := sum_bits_lt _ 8
  show ((bitmap_bytes b).getD (t / 8) 0).toNat.testBit (t % 8) = b.bits t
  rw [getD_eq_getElem?_getD, bitmap_bytes, getElem?_map, getElem?_range hk]
  show (UInt8.ofNat _).toNat.testBit (t % 8) = b.bits t
  rw [UInt8.toNat_ofNat', Nat.mod_eq_of_lt hlt, testBit_sum_bits _ (Nat.mod_lt t (by omega)),
    show 8 * (t / 8) + t % 8 = t by omega]
  simp [ht]

/-- Loading the image of a map gives its bits, whatever the map held that it is loaded into. -/
theorem bits_bitmap_load {b' : Bitmap} (b : Bitmap) (hb : b'.bit_cnt = b.bit_cnt)
    (ht : t < b.bit_cnt) : (bitmap_load b' (bitmap_bytes b)).bits t = b.bits t := by
  have hk : t / 8 < (bitmap_bytes b).length := by
    rw [length_bitmap_bytes, bitmap_file_size, byte_cnt]
    omega
  simp only [bitmap_load, hb, ht, decide_true, Bool.true_and, if_pos hk, bits_bitmap_of_bytes b _ ht]

/-! ### Taking several bits -/

namespace Bitmap

theorem Takes.append {b b' b'' : Bitmap} {A A' : List Nat} (h : b.Takes A b')
    (h' : b'.Takes A' b'') : b.Takes (A ++ A') b'' := by
  induction A generalizing b with
  | nil =>
    obtain rfl : b' = b := h
    exact h'
  | cons t A ih => exact ⟨h.1, ih h.2⟩

variable {b b' : Bitmap} {A : List Nat}

theorem Takes.bit_cnt (h : b.Takes A b') : b'.bit_cnt = b.bit_cnt := by
  induction A generalizing b with
  | nil => rw [show b' = b from h]
  | cons t A ih => exact (ih h.2).trans rfl

theorem Takes.free (h : b.Takes A b') (t : Nat) : b'.Free t ↔ b.Free t ∧ t ∉ A := by
  induction A generalizing b with
  | nil => rw [show b' = b from h]; simp
  | cons u A ih =>
    rw [ih h.2, free_set_true, List.mem_cons, not_or, and_assoc]

theorem Takes.bits (h : b.Takes A b') (t : Nat) : b'.bits t = true ↔ b.bits t = true ∨ t ∈ A := by
  induction A generalizing b with
  | nil => rw [show b' = b from h]; simp
  | cons u A ih =>
    rw [ih h.2, bits_set_one, List.mem_cons]
    split
    · simp [*]
    · simp [*]

theorem Takes.mem_free (h : b.Takes A b') {t : Nat} (ht : t ∈ A) : b.Free t := by
  induction A generalizing b with
  | nil => cases ht
  | cons u A ih =>
    rcases List.mem_cons.mp ht with rfl | ht
    · exact bitmap_scan_free h.1
    · exact (free_set_true.mp (ih h.2 ht)).1

theorem Takes.nodup (h : b.Takes A b') : A.Nodup := by
  induction A generalizing b with
  | nil => exact nodup_nil
  | cons u A ih =>
    exact List.nodup_cons.mpr ⟨fun hu => (free_set_true.mp (h.2.mem_free hu)).2 rfl, ih h.2⟩

/-- The number of clear bits. -/
def room (b : Bitmap) : Nat := bitmap_count b 0 b.bit_cnt false

theorem room_eq (b : Bitmap) : b.room = (List.range b.bit_cnt).countP fun t => !b.bits t := by
  refine countP_congr fun t _ => ?_
  simp

/-- A map whose first `used` bits are set. -/
theorem room_init {size used : Nat} (h : used ≤ size) :
    room ⟨size, fun t => decide (t < used)⟩ = size - used := by
  obtain ⟨m, rfl⟩ := Nat.exists_eq_add_of_le h
  rw [room_eq, List.range_add, countP_append, countP_map]
  rw [List.countP_eq_zero.mpr fun t ht => by simpa using List.mem_range.mp ht,
    List.countP_eq_length.mpr fun t _ => by simp]
  simp

theorem room_pos {b : Bitmap} (h : 0 < b.room) : ∃ t, bitmap_scan b 0 1 false = some t := by
  rw [room_eq, countP_pos_iff] at h
  obtain ⟨t, ht, hb⟩ := h
  cases hs : bitmap_scan b 0 1 false with
  | none => exact absurd ⟨List.mem_range.mp ht, by simpa using hb⟩ (bitmap_scan_none hs t)
  | some u => exact ⟨u, rfl⟩

/-- The bits taken are those of as many scans. -/
theorem Takes.eq_take (h : b.Takes A b') : (b.take A.length).1 = A := by
  induction A generalizing b with
  | nil => rfl
  | cons t A ih => simp [take, h.1, ih h.2]

/-- Taking bits uses up room. -/
theorem Takes.room (h : b.Takes A b') : b.room = b'.room + A.length := by
  induction A generalizing b with
  | nil => rw [show b' = b from h]; rfl
  | cons t A ih =>
    have hone : b.room = (bitmap_set_multiple b t 1 true).room + 1 := by
      have hf := bitmap_scan_free h.1
      have hmem : t ∈ List.range b.bit_cnt := List.mem_range.mpr hf.1
      rw [room_eq, room_eq, (perm_cons_erase hmem).countP_eq, countP_cons_of_pos (by
        simp [hf.2]), show (bitmap_set_multiple b t 1 true).bit_cnt = b.bit_cnt from rfl,
        (perm_cons_erase hmem).countP_eq, countP_cons_of_neg (by simp [bits_set_one])]
      congr 1
      refine countP_congr fun u hu => ?_
      have hne : u ≠ t := ((List.nodup_range.mem_erase_iff).mp hu).1
      rw [bits_set_one, if_neg hne]
    rw [hone, ih h.2, length_cons]
    omega

end Bitmap

end Pintos
