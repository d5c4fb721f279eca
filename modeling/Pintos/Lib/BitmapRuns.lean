import Pintos.Lib.Bitmap

/-!
# Lib — Runs of bits

A bitmap from which groups of consecutive bits are taken and given back.  `b.Covers runs` says that
the set bits of `b` are those of the runs `runs`, each a first bit and a number of bits, and that no
two runs meet.

`Covers.scan_and_flip` and `Covers.set_false` are the two operations; `Covers.scan_none` says what
a failed scan means.
-/

namespace Pintos
open List

/-- `bitmap_size`. -/
def bitmap_size (b : Bitmap) : Nat := b.bit_cnt

/-- `bitmap_scan_and_flip`. -/
def bitmap_scan_and_flip (b : Bitmap) (start cnt : Nat) (value : Bool) : Option Nat × Bitmap :=
  match bitmap_scan b start cnt value with
  | some idx => (some idx, bitmap_set_multiple b idx cnt (!value))
  | none => (none, b)

/-- The assertions that `bitmap_contains` and `bitmap_set_multiple` make of their bounds. -/
def Bitmap.InBounds (b : Bitmap) (start cnt : Nat) : Prop :=
  start ≤ b.bit_cnt ∧ start + cnt ≤ b.bit_cnt

instance (b : Bitmap) (start cnt : Nat) : Decidable (b.InBounds start cnt) :=
  inferInstanceAs (Decidable (_ ∧ _))

/-- `bitmap_buf_size`: the `struct bitmap` and its bits. -/
def bitmap_buf_size (bit_cnt : Nat) : Nat := 8 + byte_cnt bit_cnt

/-- `bitmap_create_in_buf`, with its assertion. -/
def bitmap_create_in_buf (bit_cnt block_size : Nat) : Option Bitmap :=
  if bitmap_buf_size bit_cnt ≤ block_size then some (bitmap_create bit_cnt) else none

theorem bitmap_contains_eq_false {b : Bitmap} {start cnt : Nat} {v : Bool} :
    bitmap_contains b start cnt v = false ↔ ∀ i, start ≤ i → i < start + cnt → b.bits i = !v := by
  simp only [bitmap_contains, List.any_eq_false, List.mem_range, beq_iff_eq]
  constructor
  · intro h i hi hlt
    have hne := h (i - start) (by omega)
    rw [show start + (i - start) = i by omega] at hne
    exact Bool.eq_not.mpr hne
  · intro h i hi
    exact Bool.eq_not.mp (h (start + i) (by omega) (by omega))

/-- A scan that succeeds finds a group of `value`. -/
theorem bitmap_scan_some {b : Bitmap} {start cnt idx : Nat} {v : Bool}
    (h : bitmap_scan b start cnt v = some idx) :
    idx + cnt ≤ b.bit_cnt ∧ ∀ i, idx ≤ i → i < idx + cnt → b.bits i = v := by
  unfold bitmap_scan at h
  split at h
  · have hm := List.mem_range'_1.mp (mem_of_find?_eq_some h)
    have hp := find?_some h
    rw [Bool.not_eq_true', bitmap_contains_eq_false] at hp
    exact ⟨by omega, fun i hi hlt => by rw [hp i hi hlt, Bool.not_not]⟩
  · cases h

/-- A scan from the first bit that fails has met no group of `value`. -/
theorem bitmap_scan_eq_none {b : Bitmap} {cnt idx : Nat} {v : Bool}
    (h : bitmap_scan b 0 cnt v = none) (hidx : idx + cnt ≤ b.bit_cnt) :
    ∃ i, idx ≤ i ∧ i < idx + cnt ∧ b.bits i = !v := by
  unfold bitmap_scan at h
  rw [if_pos (by omega), find?_eq_none] at h
  have hp := h idx (by rw [mem_range'_1]; omega)
  rw [Bool.not_eq_true', bitmap_contains_eq_false] at hp
  push Not at hp
  obtain ⟨i, hi, hlt, hb⟩ := hp
  exact ⟨i, hi, hlt, Bool.eq_not.mpr (by simpa using hb)⟩

namespace Bitmap

/-- The runs `r` and `r'` have no bit in common. -/
def RunsApart (r r' : Nat × Nat) : Prop := r.1 + r.2 ≤ r'.1 ∨ r'.1 + r'.2 ≤ r.1

theorem RunsApart.symm {r r' : Nat × Nat} (h : RunsApart r r') : RunsApart r' r := Or.symm h

/-- The set bits are those of `runs`, which lie in the map and apart from one another. -/
structure Covers (b : Bitmap) (runs : List (Nat × Nat)) : Prop where
  bits : ∀ i < b.bit_cnt, b.bits i = true ↔ ∃ r ∈ runs, r.1 ≤ i ∧ i < r.1 + r.2
  bound : ∀ r ∈ runs, 0 < r.2 ∧ r.1 + r.2 ≤ b.bit_cnt
  apart : runs.Pairwise RunsApart

variable {b : Bitmap} {runs runs' : List (Nat × Nat)} {r : Nat × Nat} {idx cnt : Nat}

theorem covers_create (bit_cnt : Nat) : (bitmap_create bit_cnt).Covers [] :=
  ⟨by simp [bitmap_create], by simp, .nil⟩

section

variable (h : b.Covers runs)
include h

theorem Covers.perm (hp : runs.Perm runs') : b.Covers runs' where
  bits i hi := by simp only [h.bits i hi, hp.mem_iff]
  bound r hr := h.bound r (hp.mem_iff.mpr hr)
  apart := (hp.pairwise_iff RunsApart.symm).mp h.apart

/-- A group that is found clear is taken. -/
theorem Covers.set_true (hpos : 0 < cnt) (hb : idx + cnt ≤ b.bit_cnt)
    (hclear : ∀ i, idx ≤ i → i < idx + cnt → b.bits i = false) :
    (bitmap_set_multiple b idx cnt true).Covers ((idx, cnt) :: runs) where
  bits i hi := by
    simp only [bitmap_set_multiple, exists_mem_cons_iff, ← h.bits i hi]
    split
    · simp [*]
    · simp [*]
  bound r hr := by
    rcases List.mem_cons.mp hr with rfl | hr
    · exact ⟨hpos, hb⟩
    · exact h.bound r hr
  apart := by
    refine List.pairwise_cons.mpr ⟨fun r hr => ?_, h.apart⟩
    obtain ⟨hpos', hb'⟩ := h.bound r hr
    by_contra hmeet
    -- the larger of the two first bits is in both runs
    obtain ⟨h₁, h₂⟩ := not_or.mp hmeet
    dsimp only at h₁ h₂
    have hset := (h.bits (max idx r.1) (by omega)).mpr ⟨r, hr, by omega, by omega⟩
    rw [hclear _ (by omega) (by omega)] at hset
    cases hset

theorem Covers.scan_and_flip (hpos : 0 < cnt) (hscan : bitmap_scan b 0 cnt false = some idx) :
    (bitmap_set_multiple b idx cnt true).Covers ((idx, cnt) :: runs) :=
  h.set_true hpos (bitmap_scan_some hscan).1 (bitmap_scan_some hscan).2

/-- Where a scan fails, every group of that size meets a run. -/
theorem Covers.scan_none (hscan : bitmap_scan b 0 cnt false = none) (hidx : idx + cnt ≤ b.bit_cnt) :
    ∃ r ∈ runs, ¬ RunsApart r (idx, cnt) := by
  obtain ⟨i, hi, hlt, hb⟩ := bitmap_scan_eq_none hscan hidx
  obtain ⟨r, hr, h₁, h₂⟩ := (h.bits i (by omega)).mp hb
  refine ⟨r, hr, ?_⟩
  rw [RunsApart]
  omega

/-- All bits of a run are set. -/
theorem Covers.all (hr : r ∈ runs) : bitmap_all b r.1 r.2 = true := by
  rw [bitmap_all, bitmap_contains_eq_false.mpr, Bool.not_false]
  intro i hi hlt
  exact (h.bits i (lt_of_lt_of_le hlt (h.bound r hr).2)).mpr ⟨r, hr, hi, hlt⟩

/-- A run is given back. -/
theorem Covers.set_false (hr : r ∈ runs) :
    (bitmap_set_multiple b r.1 r.2 false).Covers (runs.erase r) := by
  have hc := h.perm (perm_cons_erase hr)
  obtain ⟨hapart, hrest⟩ := List.pairwise_cons.mp hc.apart
  refine ⟨fun i hi => ?_, fun r' hr' => hc.bound r' (List.mem_cons_of_mem _ hr'), hrest⟩
  simp only [bitmap_set_multiple]
  split
  · rename_i hin
    refine iff_of_false Bool.false_ne_true ?_
    rintro ⟨r', hr', hi'⟩
    rcases hapart r' hr' with hd | hd <;> omega
  · rename_i hout
    rw [hc.bits i hi, exists_mem_cons_iff, or_iff_right hout]

end

end Bitmap

end Pintos
