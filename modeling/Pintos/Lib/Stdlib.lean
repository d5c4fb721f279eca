import Pintos.Support.Bytes
import Pintos.Support.Heap

/-!
# Lib — Sorting and searching

`lib/stdlib.c`: `qsort`, `sort`, `bsearch` and `binary_search` on an array of `cnt` elements of
`size` bytes at the address `array`.  Addresses and `size_t` values are taken modulo `2 ^ 32`; an
access outside the array and a failed assertion are `none`, and so is a loop that has used up its
`fuel`.  `elems` reads the bytes as elements with indices from 1.

* `do_swap_returns`, `do_compare_returns`: what the accesses do to the elements.
* `heapify_returns`: below `2 ^ 31` elements, `heapify` makes a heap of a heap but for one element.
-/

namespace Pintos
open Support List Option

/-! ### The source -/

section Source

variable {n : Nat} {A : Type}

/-- The byte at address `p`, of the array at `array`. -/
def loadByte (array : Nat) (mem : Bytes n) (p : Nat) : Option UInt8 :=
  if array ≤ p ∧ p < array + n then some (mem.get (p - array)) else none

/-- Store a byte at address `p`. -/
def storeByte (array : Nat) (mem : Bytes n) (p : Nat) (v : UInt8) : Option (Bytes n) :=
  if array ≤ p ∧ p < array + n then some (mem.write (p - array) [v]) else none

/-- The `size` bytes at address `p`. -/
def loadElem (array : Nat) (mem : Bytes n) (size p : Nat) : Option (Bytes size) :=
  if array ≤ p ∧ p + size ≤ array + n then some fun j => mem.get (p - array + j) else none

/-- The address `array + (idx - 1) * size`. -/
def elemAddr (array idx size : Nat) : Nat := (array + (idx + (2 ^ 32 - 1)) * size) % 2 ^ 32

/-- Swap the elements with 1-based indexes `a_idx` and `b_idx`, byte by byte. -/
def do_swap (array : Nat) (mem : Bytes n) (a_idx b_idx size : Nat) : Option (Bytes n) :=
  let a := elemAddr array a_idx size
  let b := elemAddr array b_idx size
  (List.range size).foldlM (fun mem i => do
    let t ← loadByte array mem ((a + i) % 2 ^ 32)
    let u ← loadByte array mem ((b + i) % 2 ^ 32)
    let mem ← storeByte array mem ((a + i) % 2 ^ 32) u
    storeByte array mem ((b + i) % 2 ^ 32) t) mem

variable (size : Nat) (compare : Bytes size → Bytes size → A → Int) (aux : A)

/-- Compare the elements with 1-based indexes `a_idx` and `b_idx`. -/
def do_compare (array : Nat) (mem : Bytes n) (a_idx b_idx : Nat) : Option Int := do
  let a ← loadElem array mem size (elemAddr array a_idx size)
  let b ← loadElem array mem size (elemAddr array b_idx size)
  return compare a b aux

/-- The larger of the elements `max` and `child`, if there is a `child`. -/
def larger (array : Nat) (mem : Bytes n) (cnt child max : Nat) : Option Nat :=
  if child ≤ cnt then do
    let cmp ← do_compare size compare aux array mem child max
    return if cmp > 0 then child else max
  else some max

/-- Float down the element with 1-based index `i`. -/
def heapify (array cnt : Nat) : Nat → Bytes n → Nat → Option (Bytes n)
  | 0, _, _ => none
  | fuel + 1, mem, i => do
    let left := 2 * i % 2 ^ 32
    let right := (2 * i + 1) % 2 ^ 32
    let max ← larger size compare aux array mem cnt left i
    let max ← larger size compare aux array mem cnt right max
    if max = i then return mem
    else do
      let mem ← do_swap array mem i max size
      heapify array cnt fuel mem max

/-- `for (i = cnt / 2; i > 0; i--)`: build a heap. -/
def build_heap (fuel array cnt : Nat) : Nat → Bytes n → Option (Bytes n)
  | 0, mem => some mem
  | i + 1, mem => do
    let mem ← heapify size compare aux array cnt fuel mem (i + 1)
    build_heap fuel array cnt i mem

/-- `for (i = cnt; i > 1; i--)`: sort the heap. -/
def sort_heap (fuel array : Nat) : Nat → Bytes n → Option (Bytes n)
  | 0, mem => some mem
  | i + 1, mem =>
    if i = 0 then some mem
    else do
      let mem ← do_swap array mem 1 (i + 1) size
      let mem ← heapify size compare aux array i fuel mem 1
      sort_heap fuel array i mem

/-- Sort the array. -/
def sort (fuel array : Nat) (mem : Bytes n) (cnt : Nat) : Option (Bytes n) := do
  -- ASSERT (array != NULL || cnt == 0) and ASSERT (size > 0)
  if (array = 0 ∧ cnt ≠ 0) ∨ size = 0 then none
  else do
    let mem ← build_heap size compare aux fuel array cnt (cnt / 2) mem
    sort_heap size compare aux fuel array cnt mem

/-- The loop of `binary_search` between the addresses `first` and `last`. -/
def search_loop (array : Nat) (mem : Bytes n) (key : Bytes size) :
    Nat → Nat → Nat → Option (Option Nat)
  | 0, _, _ => none
  | fuel + 1, first, last =>
    if first < last then do
      let range := (last - first) / size
      let middle := (first + range / 2 * size) % 2 ^ 32
      let elem ← loadElem array mem size middle
      let cmp := compare key elem aux
      if cmp < 0 then search_loop array mem key fuel first middle
      else if cmp > 0 then search_loop array mem key fuel ((middle + size) % 2 ^ 32) last
      else return some middle
    else return none

/-- Search the sorted array for `key`: the address of a match, or a null pointer. -/
def binary_search (fuel array : Nat) (mem : Bytes n) (key : Bytes size) (cnt : Nat) :
    Option (Option Nat) :=
  search_loop size compare aux array mem key fuel array ((array + size * cnt) % 2 ^ 32)

end Source

/-- Call the comparison function that `aux` points to. -/
def compare_thunk {size : Nat} (a b : Bytes size) (aux : Bytes size → Bytes size → Int) : Int :=
  aux a b

/-- Sort the array by a comparison function without auxiliary data. -/
def qsort {n : Nat} (fuel array : Nat) (mem : Bytes n) (cnt size : Nat)
    (compare : Bytes size → Bytes size → Int) : Option (Bytes n) :=
  sort size compare_thunk compare fuel array mem cnt

/-- Search the array by a comparison function without auxiliary data. -/
def bsearch {n : Nat} (fuel array : Nat) (mem : Bytes n) (cnt size : Nat) (key : Bytes size)
    (compare : Bytes size → Bytes size → Int) : Option (Option Nat) :=
  binary_search size compare_thunk compare fuel array mem key cnt

/-! ### The array as elements -/

/-- The elements, with indices from 1. -/
def elems (size : Nat) {n : Nat} (mem : Bytes n) : Nat → Bytes size
  | 0 => Bytes.zero
  | k + 1 => fun j => mem.get (k * size + j)

/-- The elements `1 … cnt`. -/
def elemList (size cnt : Nat) {n : Nat} (mem : Bytes n) : List (Bytes size) :=
  (range' 1 cnt).map (elems size mem)

/-- `n` bytes at `array` are `cnt` elements of `size` bytes, within the address space. -/
structure Placed (array n cnt size : Nat) : Prop where
  bytes : n = cnt * size
  pos : 0 < size
  fits : array + n < 2 ^ 32

variable {array n cnt size : Nat} {mem : Bytes n} {a b : Nat}

/-- Different elements do not overlap. -/
theorem elems_apart (size : Nat) {k a : Nat} (h : k ≠ a) :
    k * size + size ≤ a * size ∨ a * size + size ≤ k * size := by
  rw [← Nat.succ_mul, ← Nat.succ_mul]
  obtain hlt | hlt := Nat.lt_or_gt_of_ne h
  · exact .inl (Nat.mul_le_mul_right _ hlt)
  · exact .inr (Nat.mul_le_mul_right _ hlt)

namespace Placed

theorem within (h : Placed array n cnt size) {k : Nat} (hk : k + 1 ≤ cnt) :
    k * size + size ≤ n := by
  rw [h.bytes, ← Nat.succ_mul]
  exact Nat.mul_le_mul_right _ hk

theorem elemAddr_eq (h : Placed array n cnt size) {k : Nat} (hk : k + 1 ≤ cnt) :
    elemAddr array (k + 1) size = array + k * size := by
  have hin := h.within hk
  have hfits := h.fits
  have hwrap : (k + 1 + (2 ^ 32 - 1)) * size = k * size + 2 ^ 32 * size := by
    have hcancel : k + 1 + (2 ^ 32 - 1) = k + 2 ^ 32 := by omega
    rw [hcancel, Nat.add_mul]
  rw [elemAddr, hwrap, ← Nat.add_assoc, Nat.add_mul_mod_self_left]
  exact Nat.mod_eq_of_lt (by have := h.pos; omega)

theorem loadElem_eq (h : Placed array n cnt size) (mem : Bytes n) {k : Nat} (hk : k + 1 ≤ cnt) :
    loadElem array mem size (array + k * size) = some (elems size mem (k + 1)) := by
  have hin := h.within hk
  rw [loadElem, if_pos (by omega), Nat.add_sub_cancel_left]
  rfl

end Placed

/-- The bytes once `m` bytes of the elements at the offsets `a` and `b` are exchanged. -/
def bytesSwapped (mem : Bytes n) (a b m : Nat) : Bytes n := fun p =>
  if a ≤ p.val ∧ p.val < a + m then mem.get (b + (p.val - a))
  else if b ≤ p.val ∧ p.val < b + m then mem.get (a + (p.val - b))
  else mem p

theorem get_bytesSwapped {a b m p : Nat} (hp : p < n) : (bytesSwapped mem a b m).get p =
      if a ≤ p ∧ p < a + m then mem.get (b + (p - a))
      else if b ≤ p ∧ p < b + m then mem.get (a + (p - b))
      else mem.get p := by
  simp only [Bytes.get, hp, dite_true, bytesSwapped]

/-- One pass of the loop of `do_swap` exchanges one more byte. -/
theorem bytesSwapped_succ {a b m : Nat} (hap : a + m < b ∨ b + m < a) :
    ((bytesSwapped mem a b m).write (a + m) [mem.get (b + m)]).write (b + m) [mem.get (a + m)]
      = bytesSwapped mem a b (m + 1) := by
  refine Bytes.ext_get fun p hp => ?_
  rw [Bytes.get_write hp, Bytes.get_write hp, get_bytesSwapped hp, get_bytesSwapped hp]
  simp only [length_singleton]
  by_cases h₁ : p = b + m
  · rw [if_pos (by omega), if_neg (by omega), if_pos (by omega), h₁, Nat.sub_self,
      Nat.add_sub_cancel_left]
    rfl
  by_cases h₂ : p = a + m
  · rw [if_neg (by omega), if_pos (by omega), if_pos (by omega), h₂, Nat.sub_self,
      Nat.add_sub_cancel_left]
    rfl
  rw [if_neg (by omega), if_neg (by omega)]
  have ha : p < a + (m + 1) ↔ p < a + m := by omega
  have hb : p < b + (m + 1) ↔ p < b + m := by omega
  simp only [ha, hb]

/-- The loop of `do_swap`. -/
theorem swap_loop (hfits : array + n < 2 ^ 32) (hap : a + size ≤ b ∨ b + size ≤ a)
    (ha : a + size ≤ n) (hb : b + size ≤ n) :
    ∀ m ≤ size, (List.range m).foldlM (fun mem i => do
        let t ← loadByte array mem ((array + a + i) % 2 ^ 32)
        let u ← loadByte array mem ((array + b + i) % 2 ^ 32)
        let mem ← storeByte array mem ((array + a + i) % 2 ^ 32) u
        storeByte array mem ((array + b + i) % 2 ^ 32) t) mem = some (bytesSwapped mem a b m) := by
  intro m
  induction m with
  | zero =>
    intro _
    refine congrArg some (Bytes.ext_get fun p hp => ?_)
    rw [get_bytesSwapped hp, if_neg (by omega), if_neg (by omega)]
  | succ m ih =>
    intro hm
    rw [range_succ, foldlM_append, ih (by omega)]
    have hga : (bytesSwapped mem a b m).get (a + m) = mem.get (a + m) := by
      rw [get_bytesSwapped (by omega), if_neg (by omega), if_neg (by omega)]
    have hgb : (bytesSwapped mem a b m).get (b + m) = mem.get (b + m) := by
      rw [get_bytesSwapped (by omega), if_neg (by omega), if_neg (by omega)]
    have hma : (array + a + m) % 2 ^ 32 = array + (a + m) := by omega
    have hmb : (array + b + m) % 2 ^ 32 = array + (b + m) := by omega
    have hina : array ≤ array + (a + m) ∧ array + (a + m) < array + n := by omega
    have hinb : array ≤ array + (b + m) ∧ array + (b + m) < array + n := by omega
    simp only [foldlM_cons, foldlM_nil, hma, hmb, loadByte, storeByte, if_pos hina,
      if_pos hinb, Nat.add_sub_cancel_left, hga, hgb, bind_eq_bind, bind_some]
    exact congrArg some (bytesSwapped_succ (by omega))

/-- `do_swap` exchanges two elements. -/
theorem do_swap_returns (h : Placed array n cnt size) (mem : Bytes n) (ha : 1 ≤ a ∧ a ≤ cnt)
    (hb : 1 ≤ b ∧ b ≤ cnt) (hab : a ≠ b) :
    ∃ mem', do_swap array mem a b size = some mem' ∧
      elems size mem' = exchange (elems size mem) a b := by
  obtain ⟨a, rfl⟩ : ∃ k, a = k + 1 := ⟨a - 1, by omega⟩
  obtain ⟨b, rfl⟩ : ∃ k, b = k + 1 := ⟨b - 1, by omega⟩
  have hina := h.within ha.2
  have hinb := h.within hb.2
  have hap := elems_apart size (k := a) (a := b) (by omega)
  refine ⟨bytesSwapped mem (a * size) (b * size) size, ?_, ?_⟩
  · rw [do_swap, h.elemAddr_eq ha.2, h.elemAddr_eq hb.2]
    exact swap_loop h.fits hap hina hinb size le_rfl
  · funext k
    cases k with
    | zero =>
      rw [exchange_of_ne (by omega) (by omega)]
      rfl
    | succ k =>
      funext j
      have hj := j.isLt
      change (bytesSwapped mem (a * size) (b * size) size).get (k * size + j) = _
      by_cases hka : k = a
      · rw [hka, exchange_left, get_bytesSwapped (by omega), if_pos (by omega),
          Nat.add_sub_cancel_left]
        rfl
      by_cases hkb : k = b
      · rw [hkb, exchange_right, get_bytesSwapped (by omega), if_neg (by omega),
          if_pos (by omega), Nat.add_sub_cancel_left]
        rfl
      rw [exchange_of_ne (by omega) (by omega)]
      change _ = mem.get (k * size + j)
      have hapa := elems_apart size hka
      have hapb := elems_apart size hkb
      by_cases hp : k * size + j < n
      · rw [get_bytesSwapped hp, if_neg (by omega), if_neg (by omega)]
      · simp only [Bytes.get, hp, dite_false]

/-! ### Comparisons -/

/-- `compare` returns strcmp-type results of a total preorder. -/
structure Comparison {α : Type*} (compare : α → α → Int) : Prop where
  swap : ∀ a b, 0 < compare a b ↔ compare b a < 0
  trans : ∀ a b c, compare a b ≤ 0 → compare b c ≤ 0 → compare a c ≤ 0

theorem Comparison.totalPreorder {α : Type*} {compare : α → α → Int} (h : Comparison compare) :
    TotalPreorder fun a b => compare a b ≤ 0 where
  total a b := by
    have := h.swap a b
    omega
  trans := h.trans

variable {A : Type} {compare : Bytes size → Bytes size → A → Int} {aux : A}

theorem do_compare_returns (h : Placed array n cnt size) (mem : Bytes n) (ha : 1 ≤ a ∧ a ≤ cnt)
    (hb : 1 ≤ b ∧ b ≤ cnt) :
    do_compare size compare aux array mem a b
      = some (compare (elems size mem a) (elems size mem b) aux) := by
  obtain ⟨a, rfl⟩ : ∃ k, a = k + 1 := ⟨a - 1, by omega⟩
  obtain ⟨b, rfl⟩ : ∃ k, b = k + 1 := ⟨b - 1, by omega⟩
  rw [do_compare, h.elemAddr_eq ha.2, h.elemAddr_eq hb.2, h.loadElem_eq mem ha.2,
    h.loadElem_eq mem hb.2]
  rfl

/-- `larger` chooses an element that is not below either. -/
theorem larger_returns (h : Placed array n cnt size) (hc : Comparison fun a b => compare a b aux)
    (mem : Bytes n) (i child max : Nat) (hi : i ≤ cnt) (hchild : 1 ≤ child)
    (hmax : 1 ≤ max ∧ max ≤ i) :
    ∃ m, larger size compare aux array mem i child max = some m ∧
      (m = max ∨ m = child ∧ child ≤ i) ∧
      compare (elems size mem max) (elems size mem m) aux ≤ 0 ∧
      (child ≤ i → compare (elems size mem child) (elems size mem m) aux ≤ 0) := by
  by_cases hle : child ≤ i
  · rw [larger, if_pos hle, do_compare_returns h mem (by omega) (by omega)]
    have hswap := hc.swap (elems size mem child) (elems size mem max)
    by_cases hgt : compare (elems size mem child) (elems size mem max) aux > 0
    · refine ⟨child, by simp [hgt], .inr ⟨rfl, hle⟩, by omega, fun _ => ?_⟩
      exact hc.totalPreorder.refl _
    · exact ⟨max, by simp [hgt], .inl rfl, hc.totalPreorder.refl _, fun _ => by omega⟩
  · exact ⟨max, if_neg hle, .inl rfl, hc.totalPreorder.refl _, fun h => absurd h hle⟩

/-! ### `heapify` -/

/-- `heapify` ends at a heap: the element at `i` is moved down to where it belongs. -/
theorem heapify_returns (h : Placed array n cnt size) (hsmall : cnt < 2 ^ 31)
    (hc : Comparison fun a b => compare a b aux) {lo last : Nat} (hlo : 1 ≤ lo)
    (hlast : last ≤ cnt) :
    ∀ (fuel : Nat) (mem : Bytes n) (i : Nat), lo ≤ i → i ≤ last → last < i + fuel →
      Sifting (fun a b => compare a b aux ≤ 0) (elems size mem) lo i last →
      ∃ mem', heapify size compare aux array last fuel mem i = some mem' ∧
        HeapOrdered (fun a b => compare a b aux ≤ 0) (elems size mem') lo last ∧
        Shuffles last (elems size mem) (elems size mem') := by
  intro fuel
  induction fuel with
  | zero =>
    intro mem i _ hil hfuel
    omega
  | succ fuel ih =>
    intro mem i hloi hil hfuel hsift
    -- No index wraps, since `i` is below `2 ^ 31`.
    have hleft : 2 * i % 2 ^ 32 = 2 * i := by omega
    have hright : (2 * i + 1) % 2 ^ 32 = 2 * i + 1 := by omega
    obtain ⟨m₁, hm₁, hor₁, hle₁, hc₁⟩ := larger_returns h hc mem last (2 * i) i hlast
      (by omega) (by omega)
    obtain ⟨m₂, hm₂, hor₂, hle₂, hc₂⟩ := larger_returns h hc mem last (2 * i + 1) m₁ hlast
      (by omega) (by omega)
    have hstep : heapify size compare aux array last (fuel + 1) mem i = if m₂ = i then some mem
        else (do_swap array mem i m₂ size).bind fun mem =>
          heapify size compare aux array last fuel mem m₂ := by
      simp only [heapify, hleft, hright, hm₁, hm₂, bind_eq_bind, bind_some]
      rfl
    have htrans := hc.trans
    have htop : ∀ j, j / 2 = i → j ≤ last →
        compare (elems size mem j) (elems size mem m₂) aux ≤ 0 := by
      intro j hj hjl
      obtain rfl | rfl : j = 2 * i ∨ j = 2 * i + 1 := by omega
      · exact htrans _ _ _ (hc₁ hjl) hle₂
      · exact hc₂ hjl
    rw [hstep]
    by_cases hstop : m₂ = i
    · rw [if_pos hstop]
      exact ⟨mem, rfl, hsift.stop fun j hj hjl => hstop ▸ htop j hj hjl, Shuffles.refl _ _⟩
    · rw [if_neg hstop]
      obtain ⟨mem₁, hswap, helems⟩ := do_swap_returns h mem (a := i) (b := m₂) (by omega)
        (by omega) (Ne.symm hstop)
      have hsift₁ := hsift.exchange hlo hloi (m := m₂) (by omega) (by omega)
        (htrans _ _ _ hle₁ hle₂) htop
      rw [← helems] at hsift₁
      obtain ⟨mem', hrun, hheap, hshuf⟩ := ih mem₁ m₂ (by omega) (by omega) (by omega) hsift₁
      refine ⟨mem', by rw [hswap]; exact hrun, hheap, Shuffles.trans ?_ hshuf⟩
      rw [helems]
      exact Shuffles.exchange (by omega) (by omega)

end Pintos
