import Mathlib.Logic.Equiv.Basic
import Mathlib.Data.List.Nodup
import Mathlib.Data.List.Range
import Mathlib.Tactic.Common

/-!
# Support — Heaps in an array

An array is a function on indices from 1; the children of `i` are `2 * i` and `2 * i + 1`.

* `Shuffles n f g`: `g` is `f` with its first `n` elements permuted.
* `HeapOrdered le f lo n`: no element of `f` up to `n` is above its parent, for parents from `lo` on.
  `HeapOrdered.le_root`: the root is the largest.
* `Sifting le f lo hole n`: a heap but for the element at `hole`, which may be too small.
  `Sifting.exchange` moves it one level down, `Sifting.stop` ends at a heap.
-/

namespace Support
open List

variable {α : Type*}

/-- A total preorder, as a comparison function gives one. -/
structure TotalPreorder (le : α → α → Prop) : Prop where
  total : ∀ a b, le a b ∨ le b a
  trans : ∀ a b c, le a b → le b c → le a c

theorem TotalPreorder.refl {le : α → α → Prop} (h : TotalPreorder le) (a : α) : le a a :=
  (h.total a a).elim id id

/-! ### Permuting the first elements -/

/-- `f` with the elements at `a` and `b` exchanged. -/
def exchange (f : Nat → α) (a b : Nat) : Nat → α := f ∘ Equiv.swap a b

@[simp] theorem exchange_left (f : Nat → α) (a b : Nat) : exchange f a b a = f b := by
  simp [exchange]

@[simp] theorem exchange_right (f : Nat → α) (a b : Nat) : exchange f a b b = f a := by
  simp [exchange]

theorem exchange_of_ne {f : Nat → α} {a b k : Nat} (ha : k ≠ a) (hb : k ≠ b) :
    exchange f a b k = f k := by
  simp [exchange, Equiv.swap_apply_of_ne_of_ne ha hb]

/-- `g` is `f` with the elements `1 … n` permuted. -/
def Shuffles (n : Nat) (f g : Nat → α) : Prop :=
  ∃ σ : Equiv.Perm Nat, (∀ k, k = 0 ∨ n < k → σ k = k) ∧ g = f ∘ σ

namespace Shuffles

variable {n : Nat} {f g h : Nat → α}

theorem refl (n : Nat) (f : Nat → α) : Shuffles n f f := ⟨Equiv.refl _, fun _ _ => rfl, rfl⟩

theorem trans (hfg : Shuffles n f g) (hgh : Shuffles n g h) : Shuffles n f h := by
  obtain ⟨σ, hσ, rfl⟩ := hfg
  obtain ⟨τ, hτ, rfl⟩ := hgh
  refine ⟨τ.trans σ, fun k hk => ?_, rfl⟩
  rw [Equiv.trans_apply, hτ k hk, hσ k hk]

theorem mono {m : Nat} (hfg : Shuffles n f g) (hnm : n ≤ m) : Shuffles m f g := by
  obtain ⟨σ, hσ, rfl⟩ := hfg
  exact ⟨σ, fun k hk => hσ k (by omega), rfl⟩

theorem exchange {a b : Nat} (ha : 1 ≤ a ∧ a ≤ n) (hb : 1 ≤ b ∧ b ≤ n) :
    Shuffles n f (exchange f a b) :=
  ⟨Equiv.swap a b, fun _ _ => Equiv.swap_apply_of_ne_of_ne (by omega) (by omega), rfl⟩

theorem outside (hfg : Shuffles n f g) {k : Nat} (hk : n < k) : g k = f k := by
  obtain ⟨σ, hσ, rfl⟩ := hfg
  exact congrArg f (hσ k (.inr hk))

/-- An element of the shuffled part comes from there. -/
theorem source (hfg : Shuffles n f g) {k : Nat} (hk : 1 ≤ k ∧ k ≤ n) :
    ∃ j, (1 ≤ j ∧ j ≤ n) ∧ g k = f j := by
  obtain ⟨σ, hσ, rfl⟩ := hfg
  refine ⟨σ k, ?_, rfl⟩
  by_contra hout
  have hfix : σ k = k := σ.injective (hσ (σ k) (by omega))
  omega

/-- The shuffled part as lists. -/
theorem perm (hfg : Shuffles n f g) : ((range' 1 n).map g).Perm ((range' 1 n).map f) := by
  obtain ⟨σ, hσ, rfl⟩ := hfg
  rw [← List.map_map]
  refine Perm.map f ?_
  rw [perm_ext_iff_of_nodup ((nodup_range' ..).map σ.injective) (nodup_range' ..)]
  have hin : ∀ k, σ k = 0 ∨ n < σ k → k = 0 ∨ n < k := fun k hk =>
    σ.injective (hσ (σ k) hk) ▸ hk
  intro k
  simp only [List.mem_map, mem_range'_1]
  constructor
  · rintro ⟨j, hj, rfl⟩
    by_contra hout
    have := hin j (by omega)
    omega
  · intro hk
    obtain ⟨j, rfl⟩ := σ.surjective k
    refine ⟨j, ?_, rfl⟩
    by_contra hout
    have := hσ j (by omega)
    omega

end Shuffles

/-! ### Heaps -/

/-- No element is above its parent, for the parents from `lo` on. -/
def HeapOrdered (le : α → α → Prop) (f : Nat → α) (lo n : Nat) : Prop :=
  ∀ i, lo ≤ i / 2 → i ≤ n → le (f i) (f (i / 2))

/-- A heap but for the element at `hole`, which may be below its children. -/
structure Sifting (le : α → α → Prop) (f : Nat → α) (lo hole n : Nat) : Prop where
  others : ∀ i, lo ≤ i / 2 → i ≤ n → i / 2 ≠ hole → le (f i) (f (i / 2))
  grand : lo ≤ hole / 2 → ∀ i, i / 2 = hole → i ≤ n → le (f i) (f (hole / 2))

variable {le : α → α → Prop} {f : Nat → α} {lo hole n : Nat}

/-- The root of a heap is the largest element. -/
theorem HeapOrdered.le_root (hle : TotalPreorder le) (h : HeapOrdered le f 1 n) :
    ∀ i, 1 ≤ i → i ≤ n → le (f i) (f 1) := by
  intro i
  induction i using Nat.strongRecOn with
  | ind i ih =>
    intro h1 hn
    obtain rfl | hgt : i = 1 ∨ 1 < i := by omega
    · exact hle.refl _
    · exact hle.trans _ _ _ (h i (by omega) hn) (ih (i / 2) (by omega) (by omega) (by omega))

/-- A heap gets one more parent. -/
theorem HeapOrdered.sifting (hlo : 1 ≤ lo) (h : HeapOrdered le f (lo + 1) n) : Sifting le f lo lo n where
  others i hi hn hne := h i (by omega) hn
  grand hlt := by omega

/-- The last element goes to the root. -/
theorem HeapOrdered.sifting_last (h : HeapOrdered le f 1 (n + 1)) :
    Sifting le (exchange f 1 (n + 1)) 1 1 n where
  others i hi hn hne := by
    rw [exchange_of_ne (by omega) (by omega), exchange_of_ne hne (by omega)]
    exact h i hi (by omega)
  grand hlt := by omega

/-- The element in the hole is not below its children. -/
theorem Sifting.stop (h : Sifting le f lo hole n)
    (hole_top : ∀ i, i / 2 = hole → i ≤ n → le (f i) (f hole)) : HeapOrdered le f lo n := by
  intro i hi hn
  by_cases heq : i / 2 = hole
  · rw [heq]
    exact hole_top i heq hn
  · exact h.others i hi hn heq

/-- The element in the hole is exchanged with its larger child. -/
theorem Sifting.exchange {m : Nat} (h : Sifting le f lo hole n) (hpos : 1 ≤ lo) (hlo : lo ≤ hole)
    (hm : m / 2 = hole) (hmn : m ≤ n) (hlt : le (f hole) (f m))
    (htop : ∀ i, i / 2 = hole → i ≤ n → le (f i) (f m)) :
    Sifting le (exchange f hole m) lo m n where
  others i hi hn hne := by
    by_cases heq : i / 2 = hole
    · rw [heq, exchange_left]
      by_cases him : i = m
      · rw [him, exchange_right]
        exact hlt
      · rw [exchange_of_ne (by omega) him]
        exact htop i heq hn
    · rw [exchange_of_ne heq hne]
      by_cases hih : i = hole
      · rw [hih, exchange_left]
        exact h.grand (by omega) m hm hmn
      · rw [exchange_of_ne hih (by omega)]
        exact h.others i hi hn heq
  grand _ i hi hn := by
    rw [exchange_of_ne (by omega) (by omega), hm, exchange_left, ← hi]
    exact h.others i (by omega) hn (by omega)

end Support
