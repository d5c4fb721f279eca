import Pintos.Lib.Stdlib

/-!
# Lib — Heapsort and binary search are correct

* `sort_returns`: below `2 ^ 31` elements, `sort` ends with a sorted permutation.  `build_heap`
  keeps a heap from the index on; `sort_heap` keeps a heap up to the index, with every element that
  stands after it not below those before (`Settled`).
* `binary_search_returns`: on a sorted array the search ends, with a match if there is one.
* `sort_strays`: from `2 ^ 31` elements on the child index `2 * i` wraps, and `heapify` reads the
  element before the array.
* `bsearch_after_qsort`: the two together.
-/

namespace Pintos
open Support List Option

section Runs

variable {array n cnt size : Nat} {A : Type} {compare : Bytes size → Bytes size → A → Int} {aux : A}
  {α : Type*}

/-! ### Sorting -/

/-- The first loop of `sort` makes a heap of the whole array. -/
theorem build_heap_returns (h : Placed array n cnt size) (hsmall : cnt < 2 ^ 31)
    (hc : Comparison fun a b => compare a b aux) {fuel : Nat} (hfuel : cnt ≤ fuel) :
    ∀ (i : Nat) (mem : Bytes n), i ≤ cnt →
      HeapOrdered (fun a b => compare a b aux ≤ 0) (elems size mem) (i + 1) cnt →
      ∃ mem', build_heap size compare aux fuel array cnt i mem = some mem' ∧
        HeapOrdered (fun a b => compare a b aux ≤ 0) (elems size mem') 1 cnt ∧
        Shuffles cnt (elems size mem) (elems size mem') := by
  intro i
  induction i with
  | zero =>
    intro mem _ hheap
    exact ⟨mem, rfl, hheap, Shuffles.refl _ _⟩
  | succ i ih =>
    intro mem hi hheap
    obtain ⟨mem₁, hrun₁, hheap₁, hshuf₁⟩ := heapify_returns h hsmall hc (show 1 ≤ i + 1 by omega)
      le_rfl fuel mem (i + 1) le_rfl hi (by omega) (hheap.sifting (by omega))
    obtain ⟨mem', hrun, hheap', hshuf⟩ := ih mem₁ (by omega) hheap₁
    exact ⟨mem', by rw [build_heap, hrun₁]; exact hrun, hheap', hshuf₁.trans hshuf⟩

/-- The elements after `i` stand where they belong. -/
def Settled {α : Type*} (le : α → α → Prop) (f : Nat → α) (i cnt : Nat) : Prop :=
  ∀ a b, 1 ≤ a → a ≤ b → b ≤ cnt → i < b → le (f a) (f b)

/-- The largest element of the heap goes to its end and the rest is shuffled. -/
theorem Settled.step {le : α → α → Prop} (hle : TotalPreorder le) {f g : Nat → α} {i : Nat}
    (hi : 1 ≤ i) (hheap : HeapOrdered le f 1 (i + 1)) (hset : Settled le f (i + 1) cnt)
    (hg : Shuffles i (exchange f 1 (i + 1)) g) : Settled le g i cnt := by
  have hall : Shuffles (i + 1) f g :=
    (Shuffles.exchange (by omega) (by omega)).trans (hg.mono (by omega))
  intro a b ha hab hb hib
  obtain rfl | hlt : b = i + 1 ∨ i + 1 < b := by omega
  · obtain ⟨j, hj, hgj⟩ := hall.source (k := a) (by omega)
    rw [hgj, hg.outside (by omega), exchange_right]
    exact hheap.le_root hle j hj.1 hj.2
  · rw [hall.outside hlt]
    obtain hout | hin := Nat.lt_or_ge (i + 1) a
    · rw [hall.outside hout]
      exact hset a b ha hab hb hlt
    · obtain ⟨j, hj, hgj⟩ := hall.source (k := a) (by omega)
      rw [hgj]
      exact hset j b hj.1 (by omega) hb hlt

/-- The second loop of `sort` settles every element. -/
theorem sort_heap_returns (h : Placed array n cnt size) (hsmall : cnt < 2 ^ 31)
    (hc : Comparison fun a b => compare a b aux) {fuel : Nat} (hfuel : cnt ≤ fuel) :
    ∀ (i : Nat) (mem : Bytes n), i ≤ cnt →
      HeapOrdered (fun a b => compare a b aux ≤ 0) (elems size mem) 1 i →
      Settled (fun a b => compare a b aux ≤ 0) (elems size mem) i cnt →
      ∃ mem', sort_heap size compare aux fuel array i mem = some mem' ∧
        Settled (fun a b => compare a b aux ≤ 0) (elems size mem') 1 cnt ∧
        Shuffles cnt (elems size mem) (elems size mem') := by
  intro i
  induction i with
  | zero =>
    intro mem _ _ hset
    exact ⟨mem, rfl, fun a b ha hab hb hib => hset a b ha hab hb (by omega), Shuffles.refl _ _⟩
  | succ i ih =>
    intro mem hi hheap hset
    obtain rfl | hpos : i = 0 ∨ 1 ≤ i := by omega
    · exact ⟨mem, rfl, hset, Shuffles.refl _ _⟩
    obtain ⟨mem₁, hswap, helems⟩ := do_swap_returns h mem (a := 1) (b := i + 1) (by omega)
      (by omega) (by omega)
    have hsift := hheap.sifting_last
    rw [← helems] at hsift
    obtain ⟨mem₂, hrun₂, hheap₂, hshuf₂⟩ := heapify_returns h hsmall hc le_rfl
      (show i ≤ cnt by omega) fuel mem₁ 1 le_rfl hpos (by omega) hsift
    have hset₂ := Settled.step hc.totalPreorder hpos hheap hset (helems ▸ hshuf₂)
    obtain ⟨mem', hrun, hset', hshuf⟩ := ih mem₂ (by omega) hheap₂ hset₂
    refine ⟨mem', ?_, hset', ?_⟩
    · rw [sort_heap, if_neg (by omega), hswap]
      simp only [bind_eq_bind, bind_some, hrun₂]
      exact hrun
    · refine Shuffles.trans ?_ ((hshuf₂.mono (by omega)).trans hshuf)
      rw [helems]
      exact Shuffles.exchange (by omega) (by omega)

/-- `sort` ends, with a permutation of the elements in nondecreasing order. -/
theorem sort_returns (h : Placed array n cnt size) (harray : array ≠ 0 ∨ cnt = 0)
    (hsmall : cnt < 2 ^ 31) (hc : Comparison fun a b => compare a b aux) (mem : Bytes n) :
    ∃ mem', sort size compare aux cnt array mem cnt = some mem' ∧
      (elemList size cnt mem').Perm (elemList size cnt mem) ∧
      (elemList size cnt mem').Pairwise fun a b => compare a b aux ≤ 0 := by
  obtain ⟨mem₁, hrun₁, hheap₁, hshuf₁⟩ := build_heap_returns h hsmall hc le_rfl (cnt / 2) mem
    (by omega) (fun i hi hn => by omega)
  obtain ⟨mem', hrun, hset, hshuf⟩ := sort_heap_returns h hsmall hc le_rfl cnt mem₁ le_rfl hheap₁
    (fun a b _ _ hb hlt => by omega)
  refine ⟨mem', ?_, (hshuf₁.trans hshuf).perm, ?_⟩
  · have hpos := h.pos
    rw [sort, if_neg (by omega), hrun₁]
    exact hrun
  · rw [elemList, pairwise_map]
    refine (pairwise_lt_range' (s := 1) (n := cnt)).imp_of_mem ?_
    intro a b ha hb hab
    rw [mem_range'_1] at ha hb
    exact hset a b (by omega) (by omega) (by omega) (by omega)

/-! ### Searching -/

/-- What a search for `key` is to return: the address of an element that compares equal to the key,
or a null pointer if there is none. -/
def Match (size : Nat) (compare : Bytes size → Bytes size → A → Int) (aux : A) (array cnt : Nat)
    {n : Nat} (mem : Bytes n) (key : Bytes size) : Option Nat → Prop
  | some p => p ≠ 0 ∧ ∃ k, (1 ≤ k ∧ k ≤ cnt) ∧ p = array + (k - 1) * size ∧
      compare key (elems size mem k) aux = 0
  | none => ∀ k, 1 ≤ k → k ≤ cnt → compare key (elems size mem k) aux ≠ 0

/-- The elements of a sorted array in order. -/
theorem elems_sorted {mem : Bytes n} (hc : Comparison fun a b => compare a b aux)
    (hsorted : (elemList size cnt mem).Pairwise fun a b => compare a b aux ≤ 0) {a b : Nat}
    (ha : 1 ≤ a) (hab : a ≤ b) (hb : b ≤ cnt) :
    compare (elems size mem a) (elems size mem b) aux ≤ 0 := by
  obtain rfl | hlt := Nat.eq_or_lt_of_le hab
  · exact hc.totalPreorder.refl _
  · rw [elemList, pairwise_map, pairwise_iff_getElem] at hsorted
    have := hsorted (a - 1) (b - 1) (by simp; omega) (by simp; omega) (by omega)
    simpa [Nat.add_sub_cancel' ha, Nat.add_sub_cancel' (show 1 ≤ b by omega)] using this

/-- A key below an element is below what follows it. -/
theorem Comparison.lt_of_lt_of_le {compare : α → α → Int} (h : Comparison compare) {x y z : α}
    (hxy : compare x y < 0) (hyz : compare y z ≤ 0) : compare x z < 0 := by
  by_contra hge
  have hzx : compare z x ≤ 0 := by
    have := h.swap z x
    omega
  have hyx := h.trans _ _ _ hyz hzx
  have := h.swap y x
  omega

/-- A key above an element is above what precedes it. -/
theorem Comparison.gt_of_gt_of_le {compare : α → α → Int} (h : Comparison compare) {x y z : α}
    (hxy : 0 < compare x y) (hzy : compare z y ≤ 0) : 0 < compare x z := by
  by_contra hle
  have := h.trans x z y (by omega) hzy
  omega

/-- The loop of `binary_search`: what lies before `lo` is below the key, what lies from `hi` on is
above it. -/
theorem search_loop_returns (h : Placed array n cnt size) (harray : array ≠ 0 ∨ cnt = 0)
    (hc : Comparison fun a b => compare a b aux) (mem : Bytes n) (key : Bytes size)
    (hsorted : (elemList size cnt mem).Pairwise fun a b => compare a b aux ≤ 0) :
    ∀ (fuel lo hi : Nat), lo ≤ hi → hi ≤ cnt → hi < lo + fuel →
      (∀ k, 1 ≤ k → k ≤ lo → 0 < compare key (elems size mem k) aux) →
      (∀ k, hi < k → k ≤ cnt → compare key (elems size mem k) aux < 0) →
      ∃ r, search_loop size compare aux array mem key fuel (array + lo * size) (array + hi * size)
          = some r ∧ Match size compare aux array cnt mem key r := by
  intro fuel
  induction fuel with
  | zero =>
    intro lo hi hle _ hfuel
    omega
  | succ fuel ih =>
    intro lo hi hle hcnt hfuel hbelow habove
    have hpos := h.pos
    obtain rfl | hlt : lo = hi ∨ lo < hi := by omega
    · refine ⟨none, by rw [search_loop, if_neg (lt_irrefl _)]; rfl, fun k hk hkc => ?_⟩
      obtain hk' | hk' := Nat.lt_or_ge lo k
      · exact (habove k hk' hkc).ne
      · exact (hbelow k hk hk').ne'
    -- The middle element.
    generalize hmid : lo + (hi - lo) / 2 = m
    have hmc : m + 1 ≤ cnt := by omega
    have hrange : (array + hi * size - (array + lo * size)) / size = hi - lo := by
      rw [Nat.add_sub_add_left, ← Nat.sub_mul, Nat.mul_div_cancel _ hpos]
    have hin := h.within hmc
    have hfits := h.fits
    have hmiddle : (array + lo * size + (hi - lo) / 2 * size) % 2 ^ 32 = array + m * size := by
      rw [Nat.add_assoc, ← Nat.add_mul, hmid]
      exact Nat.mod_eq_of_lt (by omega)
    have hnext : (array + m * size + size) % 2 ^ 32 = array + (m + 1) * size := by
      rw [Nat.add_assoc, ← Nat.succ_mul]
      rw [← Nat.succ_mul] at hin
      exact Nat.mod_eq_of_lt (by omega)
    have hfirst : array + lo * size < array + hi * size :=
      Nat.add_lt_add_left (Nat.mul_lt_mul_of_pos_right hlt hpos) _
    have hstep : search_loop size compare aux array mem key (fuel + 1) (array + lo * size)
        (array + hi * size) =
        if compare key (elems size mem (m + 1)) aux < 0 then
          search_loop size compare aux array mem key fuel (array + lo * size) (array + m * size)
        else if compare key (elems size mem (m + 1)) aux > 0 then
          search_loop size compare aux array mem key fuel (array + (m + 1) * size)
            (array + hi * size)
        else some (some (array + m * size)) := by
      rw [search_loop, if_pos hfirst]
      simp only [hrange, hmiddle, hnext, h.loadElem_eq mem hmc, bind_eq_bind,
        bind_some]
      rfl
    rw [hstep]
    split_ifs with hneg hgt
    · refine ih lo m (by omega) (by omega) (by omega) hbelow fun k hk hkc => ?_
      exact hc.lt_of_lt_of_le hneg (elems_sorted hc hsorted (by omega) (by omega) hkc)
    · refine ih (m + 1) hi (by omega) hcnt (by omega) (fun k hk hkm => ?_) habove
      exact hc.gt_of_gt_of_le hgt (elems_sorted hc hsorted hk hkm hmc)
    · exact ⟨_, rfl, by omega, m + 1, by omega, rfl, by omega⟩

/-- `binary_search` ends, with a match if there is one. -/
theorem binary_search_returns (h : Placed array n cnt size) (harray : array ≠ 0 ∨ cnt = 0)
    (hc : Comparison fun a b => compare a b aux) (mem : Bytes n) (key : Bytes size)
    (hsorted : (elemList size cnt mem).Pairwise fun a b => compare a b aux ≤ 0) :
    ∃ r, binary_search size compare aux (cnt + 1) array mem key cnt = some r ∧
      Match size compare aux array cnt mem key r := by
  have hlast : (array + size * cnt) % 2 ^ 32 = array + cnt * size := by
    have hfits := h.fits
    rw [h.bytes] at hfits
    rw [Nat.mul_comm]
    exact Nat.mod_eq_of_lt hfits
  have hrun := search_loop_returns h harray hc mem key hsorted (cnt + 1) 0 cnt (by omega) le_rfl
    (by omega) (fun k hk hk0 => by omega) (fun k hk hkc => by omega)
  rw [Nat.zero_mul, Nat.add_zero] at hrun
  rw [binary_search, hlast]
  exact hrun

end Runs

/-! ### The child index wraps -/

/-- Compare single bytes. -/
def compareByte (a b : Bytes 1) (_ : Unit) : Int := (a.get 0).toNat - (b.get 0).toNat

theorem comparison_compareByte : Comparison fun a b => compareByte a b () where
  swap a b := by
    simp only [compareByte]
    omega
  trans a b c := by
    simp only [compareByte]
    omega

/-- Bytes that are zero but for the one with index `top`. -/
def lone (top cnt : Nat) : Bytes (cnt * 1) := fun p => if p.val + 1 = top then 1 else 0

section Stray

variable {array cnt top : Nat}

/-- The lone byte is the only one that compares unequal to another. -/
theorem compareByte_lone {a b : Nat} (ha : 1 ≤ a ∧ a ≤ cnt) (hb : 1 ≤ b ∧ b ≤ cnt) :
    compareByte (elems 1 (lone top cnt) a) (elems 1 (lone top cnt) b) ()
      = (if a = top then 1 else 0) - (if b = top then 1 else 0) := by
  have hbyte : ∀ k, 1 ≤ k ∧ k ≤ cnt → ((elems 1 (lone top cnt) k).get 0).toNat
      = if k = top then 1 else 0 := by
    rintro (_ | k) hk
    · omega
    · change ((lone top cnt).get (k * 1 + 0)).toNat = _
      rw [Bytes.get, dif_pos (by omega)]
      simp only [lone, Nat.mul_one, Nat.add_zero]
      split <;> rfl
  simp only [compareByte, hbyte a ha, hbyte b hb]
  push_cast
  rfl

/-- Among lone bytes, the child is the larger one only if it is the lone one. -/
theorem larger_lone (h : Placed array (cnt * 1) cnt 1) {child max : Nat} (hchild : 1 ≤ child)
    (hmax : 1 ≤ max ∧ max ≤ cnt) :
    larger 1 compareByte () array (lone top cnt) cnt child max
      = some (if child = top ∧ child ≤ cnt then child else max) := by
  by_cases hle : child ≤ cnt
  · rw [larger, if_pos hle, do_compare_returns h _ ⟨hchild, hle⟩ hmax,
      compareByte_lone ⟨hchild, hle⟩ hmax]
    by_cases h₁ : child = top
    · subst h₁
      by_cases h₂ : max = child <;> simp [h₂, hle]
    · by_cases h₂ : max = top <;> simp [h₁, h₂]
  · rw [larger, if_neg hle, if_neg (by tauto)]

/-- At the index `2 ^ 31` the left child is the element before the array. -/
theorem heapify_strays (harray : array ≠ 0) (hfits : array + cnt < 2 ^ 32) (fuel : Nat)
    (mem : Bytes (cnt * 1)) : heapify 1 compareByte () array cnt fuel mem (2 ^ 31) = none := by
  cases fuel with
  | zero => rfl
  | succ fuel =>
    have hload : loadElem array mem 1 (elemAddr array 0 1) = none := by
      have haddr : elemAddr array 0 1 = array - 1 := by
        rw [elemAddr]
        omega
      rw [haddr, loadElem, if_neg (by omega)]
    have hwrap : 2 * 2 ^ 31 % 2 ^ 32 = 0 := rfl
    have hlarger : larger 1 compareByte () array mem cnt (2 * 2 ^ 31 % 2 ^ 32) (2 ^ 31) = none := by
      rw [hwrap, larger, if_pos (Nat.zero_le _), do_compare, hload]
      rfl
    rw [heapify, hlarger]
    rfl

section

variable (h : Placed array (cnt * 1) cnt 1)
include h

/-- The parents after that of the lone byte stay where they are. -/
theorem heapify_lone_idle {i : Nat} (hi : 1 ≤ i ∧ i ≤ cnt) (hhalf : i < 2 ^ 31)
    (hafter : top < 2 * i) (fuel : Nat) :
    heapify 1 compareByte () array cnt (fuel + 1) (lone top cnt) i = some (lone top cnt) := by
  have hleft : 2 * i % 2 ^ 32 = 2 * i := by omega
  have hright : (2 * i + 1) % 2 ^ 32 = 2 * i + 1 := by omega
  rw [heapify, hleft, hright, larger_lone h (by omega) hi, if_neg (by omega)]
  simp only [bind_eq_bind, bind_some]
  rw [larger_lone h (by omega) hi, if_neg (by omega)]
  simp only [bind_some, if_true]
  rfl

/-- The parent of the lone byte at the index `2 ^ 31` goes there, and on from there. -/
theorem heapify_lone_strays (harray : array ≠ 0) (hlarge : 2 ^ 31 ≤ cnt) (fuel : Nat) :
    heapify 1 compareByte () array cnt fuel (lone (2 ^ 31) cnt) (2 ^ 30) = none := by
  cases fuel with
  | zero => rfl
  | succ fuel =>
    have hleft : 2 * 2 ^ 30 % 2 ^ 32 = 2 ^ 31 := rfl
    have hright : (2 * 2 ^ 30 + 1) % 2 ^ 32 = 2 ^ 31 + 1 := rfl
    obtain ⟨mem', hswap, -⟩ := do_swap_returns h (lone (2 ^ 31) cnt) (a := 2 ^ 30) (b := 2 ^ 31)
      (by omega) (by omega) (by omega)
    have hfits := h.fits
    rw [heapify, hleft, hright, larger_lone h (by omega) (by omega), if_pos ⟨rfl, hlarge⟩]
    simp only [bind_eq_bind, bind_some]
    rw [larger_lone h (by omega) (by omega), if_neg (by omega)]
    simp only [bind_some]
    rw [if_neg (by omega), hswap]
    exact heapify_strays harray (by omega) fuel mem'

/-- Building the heap of a lone byte at the index `2 ^ 31` reads before the array. -/
theorem build_heap_strays (harray : array ≠ 0) (hlarge : 2 ^ 31 ≤ cnt) (fuel : Nat) :
    ∀ k, 2 ^ 30 + k < 2 ^ 31 →
      build_heap 1 compareByte () fuel array cnt (2 ^ 30 + k) (lone (2 ^ 31) cnt) = none := by
  intro k
  induction k with
  | zero =>
    intro _
    rw [Nat.add_zero, ← Nat.sub_add_cancel (Nat.two_pow_pos 30), build_heap,
      Nat.sub_add_cancel (Nat.two_pow_pos 30), heapify_lone_strays h harray hlarge]
    rfl
  | succ k ih =>
    intro hk
    rw [← Nat.add_assoc, build_heap]
    cases fuel with
    | zero => rfl
    | succ fuel =>
      rw [heapify_lone_idle h (by omega) (by omega) (by omega)]
      exact ih (by omega)

/-- With `2 ^ 31` bytes or more, there is an array that `sort` does not get through. -/
theorem sort_strays (harray : array ≠ 0) (hlarge : 2 ^ 31 ≤ cnt) (fuel : Nat) :
    sort 1 compareByte () fuel array (lone (2 ^ 31) cnt) cnt = none := by
  have hfits := h.fits
  obtain ⟨k, hk⟩ : ∃ k, cnt / 2 = 2 ^ 30 + k := ⟨cnt / 2 - 2 ^ 30, by omega⟩
  rw [sort, if_neg (by omega), hk, build_heap_strays h harray hlarge fuel k (by omega)]
  rfl

end

end Stray

/-! ### Where sorting and searching are correct -/

/-- `sort` ends with a sorted permutation, for every array of `cnt` elements of `size` bytes and
every comparison. -/
def Sorts (cnt size : Nat) : Prop :=
  ∀ (A : Type) (compare : Bytes size → Bytes size → A → Int) (aux : A) (array : Nat)
    (mem : Bytes (cnt * size)), Comparison (fun a b => compare a b aux) →
    array ≠ 0 ∨ cnt = 0 → array + cnt * size < 2 ^ 32 →
    ∃ fuel mem', sort size compare aux fuel array mem cnt = some mem' ∧
      (elemList size cnt mem').Perm (elemList size cnt mem) ∧
      (elemList size cnt mem').Pairwise fun a b => compare a b aux ≤ 0

/-- `binary_search` ends with a match or a null pointer, for every sorted array of `cnt` elements of
`size` bytes and every comparison. -/
def Searches (cnt size : Nat) : Prop :=
  ∀ (A : Type) (compare : Bytes size → Bytes size → A → Int) (aux : A) (array : Nat)
    (mem : Bytes (cnt * size)) (key : Bytes size), Comparison (fun a b => compare a b aux) →
    array ≠ 0 ∨ cnt = 0 → array + cnt * size < 2 ^ 32 →
    ((elemList size cnt mem).Pairwise fun a b => compare a b aux ≤ 0) →
    ∃ fuel r, binary_search size compare aux fuel array mem key cnt = some r ∧
      Match size compare aux array cnt mem key r

/-- Sorting is correct for every array of `cnt` elements exactly when there are less than `2 ^ 31`
of them; searching always is. -/
theorem sort_and_search_iff (cnt size : Nat) (hsize : 0 < size) (hfits : cnt * size + 1 < 2 ^ 32) :
    (Sorts cnt size ↔ cnt < 2 ^ 31) ∧ Searches cnt size := by
  refine ⟨⟨fun hsorts => ?_, fun hsmall A compare aux array mem hc harray hin => ?_⟩,
    fun A compare aux array mem key hc harray hin hsorted => ?_⟩
  · by_contra hlarge
    -- Elements of two bytes would not fit, so the elements are bytes.
    obtain rfl : size = 1 := by
      by_contra hne
      have : cnt * 2 ≤ cnt * size := Nat.mul_le_mul_left _ (by omega)
      omega
    obtain ⟨fuel, mem', hrun, -⟩ := hsorts Unit compareByte () 1 (lone (2 ^ 31) cnt)
      comparison_compareByte (.inl (by decide)) (by omega)
    rw [sort_strays ⟨rfl, hsize, by omega⟩ (by decide) (by omega)] at hrun
    cases hrun
  · exact ⟨cnt, sort_returns ⟨rfl, hsize, hin⟩ harray hsmall hc mem⟩
  · exact ⟨cnt + 1, binary_search_returns ⟨rfl, hsize, hin⟩ harray hc mem key hsorted⟩

/-- Arrays of a thousand elements of 16 bytes are sorted and searched. -/
theorem sort_and_search_thousand : Sorts 1000 16 ∧ Searches 1000 16 :=
  have h := sort_and_search_iff 1000 16 (by decide) (by decide)
  ⟨h.1.mpr (by decide), h.2⟩

/-- `2 ^ 31` bytes at the address 1, all zero but the last. -/
theorem sort_reads_before_array :
    Comparison (fun a b => compareByte a b ()) ∧ 1 + 2 ^ 31 * 1 < 2 ^ 32 ∧
      ¬ ∃ fuel mem', sort 1 compareByte () fuel 1 (lone (2 ^ 31) (2 ^ 31)) (2 ^ 31)
        = some mem' := by
  refine ⟨comparison_compareByte, by norm_num, ?_⟩
  rintro ⟨fuel, mem', hrun⟩
  rw [sort_strays ⟨rfl, by decide, by norm_num⟩ (by decide) le_rfl] at hrun
  cases hrun

/-! ### `qsort` and `bsearch` -/

/-- A search by `bsearch` in what `qsort` has sorted finds a match, and finds one exactly if there
was one in the array before. -/
theorem bsearch_after_qsort {array n cnt size : Nat} {compare : Bytes size → Bytes size → Int}
    (h : Placed array n cnt size) (harray : array ≠ 0 ∨ cnt = 0) (hsmall : cnt < 2 ^ 31)
    (hc : Comparison compare) (mem : Bytes n) (key : Bytes size) :
    ∃ mem' r, qsort cnt array mem cnt size compare = some mem' ∧
      bsearch (cnt + 1) array mem' cnt size key compare = some r ∧
      Match size compare_thunk compare array cnt mem' key r ∧
      (r.isSome ↔ ∃ a ∈ elemList size cnt mem, compare key a = 0) := by
  obtain ⟨mem', hsort, hperm, hsorted⟩ :=
    @sort_returns array n cnt size _ compare_thunk compare h harray hsmall hc mem
  obtain ⟨r, hsearch, hmatch⟩ :=
    @binary_search_returns array n cnt size _ compare_thunk compare h harray hc mem' key hsorted
  refine ⟨mem', r, hsort, hsearch, hmatch, ?_⟩
  simp only [← hperm.mem_iff]
  simp only [elemList, List.mem_map, mem_range'_1, exists_exists_and_eq_and]
  cases r with
  | none =>
    refine iff_of_false Bool.false_ne_true ?_
    rintro ⟨k, hk, heq⟩
    exact hmatch k hk.1 (by omega) heq
  | some p =>
    obtain ⟨-, k, hk, -, heq⟩ := hmatch
    exact iff_of_true rfl ⟨k, by omega, heq⟩

/-- A zero byte among nine bytes is found. -/
theorem bsearch_after_qsort_nine :
    ∃ mem' r, qsort 9 1 (lone 3 9) 9 1 (compareByte · · ()) = some mem' ∧
      bsearch 10 1 mem' 9 1 Bytes.zero (compareByte · · ()) = some r ∧ r.isSome := by
  obtain ⟨mem', r, hsort, hsearch, -, hfound⟩ := bsearch_after_qsort ⟨rfl, one_pos, by decide⟩
    (.inl one_ne_zero) (by decide) comparison_compareByte (lone 3 9) Bytes.zero
  exact ⟨mem', r, hsort, hsearch, hfound.mpr ⟨_, mem_map_of_mem (a := 1) (by decide), by decide⟩⟩

end Pintos
