import Pintos.Threads.Vaddr

/-!
# Threads — Page table entries

`threads/pte.h`.  An entry is a 32-bit word: the address of a frame in its upper 20 bits, flags in
the lower 12.  What an entry says is read off its bits, and each way of changing one is a lemma
about bits.
-/

namespace Pintos
open Option

/-- `PTMASK`. -/
abbrev PTMASK : Nat := 0x3ff000

/-- `PTSHIFT`. -/
abbrev PTSHIFT : Nat := 12

/-- `PDSHIFT`. -/
abbrev PDSHIFT : Nat := 22

/-- `PTE_ADDR`. -/
abbrev PTE_ADDR : Nat := 0xfffff000

/-- `PTE_P`, present. -/
abbrev PTE_P : Nat := 0x1

/-- `PTE_W`, writable. -/
abbrev PTE_W : Nat := 0x2

/-- `PTE_U`, for the user. -/
abbrev PTE_U : Nat := 0x4

/-- `PTE_A`, accessed. -/
abbrev PTE_A : Nat := 0x20

/-- `PTE_D`, dirty. -/
abbrev PTE_D : Nat := 0x40

/-- `~flag`. -/
def complement (flag : Nat) : Nat := 0xffffffff ^^^ flag

/-- `pt_no`. -/
def pt_no (va : Nat) : Nat := (va &&& PTMASK) >>> PTSHIFT

/-- `pd_no`. -/
def pd_no (va : Nat) : Nat := va >>> PDSHIFT

/-- `pde_create`, with its assertions. -/
def pde_create (pt : Nat) : Option Nat :=
  if pg_ofs pt = 0 then (vtop pt).map (· ||| PTE_U ||| PTE_P ||| PTE_W) else none

/-- `pde_get_pt`, with its assertions. -/
def pde_get_pt (pde : Nat) : Option Nat :=
  if pde &&& PTE_P ≠ 0 then ptov (pde &&& PTE_ADDR) else none

/-- `pte_create_kernel`, with its assertions. -/
def pte_create_kernel (page : Nat) (writable : Bool) : Option Nat :=
  if pg_ofs page = 0 then
    (vtop page).map (· ||| PTE_P ||| (if writable then PTE_W else 0))
  else none

/-- `pte_create_user`. -/
def pte_create_user (page : Nat) (writable : Bool) : Option Nat :=
  (pte_create_kernel page writable).map (· ||| PTE_U)

/-- `pte_get_page`. -/
def pte_get_page (pte : Nat) : Option Nat := ptov (pte &&& PTE_ADDR)

/-! ### Addresses -/

theorem pd_no_eq (va : Nat) : pd_no va = va / 4194304 := Nat.shiftRight_eq_div_pow va 22

theorem pt_no_eq (va : Nat) : pt_no va = va / PGSIZE % 1024 := by
  have hmask : (va &&& PTMASK) >>> PTSHIFT = (va >>> 12) &&& (2 ^ 10 - 1) := by
    rw [Nat.shiftRight_and_distrib]
    rfl
  rw [pt_no, hmask, Nat.and_two_pow_sub_one_eq_mod, Nat.shiftRight_eq_div_pow]

/-- The two indices of a page make up its number. -/
theorem page_no_eq (va : Nat) : va / PGSIZE = 1024 * pd_no va + pt_no va := by
  rw [pd_no_eq, pt_no_eq]
  simp only [PGSIZE]
  omega

/-! ### Bits -/

theorem flag_ne_zero {e i : Nat} : e &&& 2 ^ i ≠ 0 ↔ e.testBit i = true := by
  have hbit : ∀ j, (e &&& 2 ^ i).testBit j = (e.testBit j && decide (i = j)) := fun j => by
    rw [Nat.testBit_and, Nat.testBit_two_pow]
  constructor
  · intro h
    by_contra hb
    refine h (Nat.eq_of_testBit_eq fun j => ?_)
    rw [hbit, Nat.zero_testBit]
    by_cases hj : i = j
    · rw [← hj, Bool.eq_false_iff.mpr hb, Bool.false_and]
    · rw [decide_eq_false hj, Bool.and_false]
  · intro h he
    have := hbit i
    rw [he, h, Nat.zero_testBit] at this
    simp at this

theorem testBit_set {e i j : Nat} : (e ||| 2 ^ j).testBit i = (e.testBit i || decide (j = i)) := by
  rw [Nat.testBit_or, Nat.testBit_two_pow]

theorem testBit_clear {e i j : Nat} (hi : i < 32) :
    (e &&& complement (2 ^ j)).testBit i = (e.testBit i && !decide (j = i)) := by
  rw [complement, Nat.testBit_and, Nat.testBit_xor, Nat.testBit_two_pow,
    show 0xffffffff = 2 ^ 32 - 1 from rfl, Nat.testBit_two_pow_sub_one]
  simp [hi]

theorem testBit_addr {i : Nat} : PTE_ADDR.testBit i = decide (12 ≤ i ∧ i < 32) := by
  rw [show PTE_ADDR = 2 ^ 12 * (2 ^ 20 - 1) from rfl, Nat.testBit_two_pow_mul,
    Nat.testBit_two_pow_sub_one, ← Bool.decide_and]
  exact decide_eq_decide.mpr (by omega)

/-- Entries that differ in flags only have the same frame. -/
theorem addr_congr {e e' : Nat} (h : ∀ i, 12 ≤ i → i < 32 → e'.testBit i = e.testBit i) :
    e' &&& PTE_ADDR = e &&& PTE_ADDR := by
  refine Nat.eq_of_testBit_eq fun i => ?_
  rw [Nat.testBit_and, Nat.testBit_and, testBit_addr]
  by_cases hi : 12 ≤ i ∧ i < 32
  · rw [h i hi.1 hi.2]
  · simp [hi]

/-! ### Frames -/

/-- The address of a page in the mapping of physical memory. -/
structure KernelPage (k : Nat) : Prop where
  aligned : pg_ofs k = 0
  le : PHYS_BASE ≤ k
  lt : k < PHYS_BASE + 0x40000000

variable {k : Nat}

theorem KernelPage.vtop_eq (h : KernelPage k) : vtop k = some (k - PHYS_BASE) := by
  rw [vtop, if_neg]
  simpa [is_user_vaddr] using h.le

/-- A frame and flags in one word. -/
theorem KernelPage.addr_or (h : KernelPage k) {f : Nat} (hf : f < 2 ^ 12) :
    ptov ((k - PHYS_BASE ||| f) &&& PTE_ADDR) = some k ∧
      ∀ i < 12, (k - PHYS_BASE ||| f).testBit i = f.testBit i := by
  have hofs := h.aligned
  have hle := h.le
  have hlt := h.lt
  rw [pg_ofs_eq] at hofs
  obtain ⟨q, hq⟩ : ∃ q, k - PHYS_BASE = 2 ^ 12 * q := ⟨k / PGSIZE - PHYS_BASE / PGSIZE, by
    simp only [PGSIZE, PHYS_BASE] at *
    omega⟩
  have hbits : ∀ i, (k - PHYS_BASE ||| f).testBit i =
      if i < 12 then f.testBit i else q.testBit (i - 12) := by
    intro i
    rw [hq, Nat.testBit_or, Nat.testBit_two_pow_mul]
    split
    · rename_i hi
      simp [Nat.not_le.mpr hi]
    · rename_i hi
      rw [Nat.testBit_lt_two_pow (hf.trans_le (Nat.pow_le_pow_right (by norm_num) (by omega)))]
      simp [Nat.not_lt.mp hi]
  have haddr : (k - PHYS_BASE ||| f) &&& PTE_ADDR = k - PHYS_BASE := by
    refine Nat.eq_of_testBit_eq fun i => ?_
    rw [Nat.testBit_and, hbits, testBit_addr, hq, Nat.testBit_two_pow_mul]
    by_cases h₁ : i < 12
    · simp [h₁, Nat.not_le.mpr h₁]
    · by_cases h₂ : i < 32
      · simp [h₁, h₂, Nat.not_lt.mp h₁]
      · have hz : q.testBit (i - 12) = false := by
          refine Nat.testBit_lt_two_pow (lt_of_lt_of_le (show q < 2 ^ 20 by
            simp only [PHYS_BASE] at *
            omega) (Nat.pow_le_pow_right (by norm_num) (by omega)))
        simp [h₁, hz]
  refine ⟨?_, fun i hi => by rw [hbits, if_pos hi]⟩
  rw [haddr, ptov_eq (by omega), Nat.sub_add_cancel hle]

theorem pde_create_eq (h : KernelPage k) : ∃ e, pde_create k = some e ∧ e ≠ 0 ∧
    e &&& PTE_P ≠ 0 ∧ pde_get_pt e = some k := by
  have hv : ∀ v, v ||| PTE_U ||| PTE_P ||| PTE_W = v ||| 7 := fun v => by
    rw [Nat.or_assoc, Nat.or_assoc]
    rfl
  obtain ⟨haddr, hbits⟩ := h.addr_or (show 7 < 2 ^ 12 by norm_num)
  have hp : (k - PHYS_BASE ||| 7) &&& PTE_P ≠ 0 := (flag_ne_zero (i := 0)).mpr (by
    rw [hbits 0 (by norm_num)]
    rfl)
  refine ⟨k - PHYS_BASE ||| 7, ?_, fun he => hp (by rw [he]; rfl), hp, ?_⟩
  · rw [pde_create, if_pos h.aligned, h.vtop_eq, map_some, hv]
  · rw [pde_get_pt, if_pos hp, haddr]

/-- What a new entry says. -/
theorem pte_create_user_eq (h : KernelPage k) (writable : Bool) : ∃ e,
    pte_create_user k writable = some e ∧ pte_get_page e = some k ∧ e.testBit 0 = true ∧
      e.testBit 1 = writable ∧ e.testBit 5 = false ∧ e.testBit 6 = false := by
  obtain ⟨f, hf, hv, hbits⟩ : ∃ f < 2 ^ 12,
      (∀ v, v ||| PTE_P ||| (if writable then PTE_W else 0) ||| PTE_U = v ||| f) ∧
        (f.testBit 0 = true ∧ f.testBit 1 = writable ∧ f.testBit 5 = false ∧
          f.testBit 6 = false) := by
    cases writable with
    | false =>
      refine ⟨5, by norm_num, fun v => ?_, rfl, rfl, rfl, rfl⟩
      rw [Nat.or_assoc, Nat.or_assoc]
      rfl
    | true =>
      refine ⟨7, by norm_num, fun v => ?_, rfl, rfl, rfl, rfl⟩
      rw [Nat.or_assoc, Nat.or_assoc]
      rfl
  obtain ⟨haddr, hlow⟩ := h.addr_or hf
  refine ⟨k - PHYS_BASE ||| f, ?_, haddr, ?_⟩
  · rw [pte_create_user, pte_create_kernel, if_pos h.aligned, h.vtop_eq, map_some,
      map_some, hv]
  · rw [hlow 0 (by norm_num), hlow 1 (by norm_num), hlow 5 (by norm_num), hlow 6 (by norm_num)]
    exact hbits

end Pintos
