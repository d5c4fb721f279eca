import Mathlib.Tactic

/-!
# Threads — Virtual addresses

`threads/vaddr.h`.  An address is a number below 2^32; physical memory is mapped from `PHYS_BASE`
on.
-/

namespace Pintos

/-- `PHYS_BASE`. -/
abbrev PHYS_BASE : Nat := 0xc0000000

/-- `PGBITS`. -/
abbrev PGBITS : Nat := 12

/-- `PGSIZE`. -/
abbrev PGSIZE : Nat := 4096

/-- `PGMASK`. -/
abbrev PGMASK : Nat := 0xfff

/-- `pg_ofs`. -/
def pg_ofs (va : Nat) : Nat := va &&& PGMASK

/-- `pg_no`. -/
def pg_no (va : Nat) : Nat := va >>> PGBITS

/-- `pg_round_down`. -/
def pg_round_down (va : Nat) : Nat := va &&& 0xfffff000

/-- `is_user_vaddr`. -/
def is_user_vaddr (address : Nat) : Bool := address < PHYS_BASE

/-- `ptov`, with its assertion. -/
def ptov (paddr : Nat) : Option Nat :=
  if paddr < PHYS_BASE then some ((paddr + PHYS_BASE) % 2 ^ 32) else none

/-- `vtop`, with its assertion. -/
def vtop (vaddr : Nat) : Option Nat :=
  if is_user_vaddr vaddr then none else some (vaddr - PHYS_BASE)

theorem pg_ofs_eq (va : Nat) : pg_ofs va = va % PGSIZE := Nat.and_two_pow_sub_one_eq_mod va 12

theorem pg_no_eq (va : Nat) : pg_no va = va / PGSIZE := Nat.shiftRight_eq_div_pow va 12

theorem pg_round_down_eq {va : Nat} (h : va < 2 ^ 32) : pg_round_down va = va / PGSIZE * PGSIZE := by
  have hbits : va / PGSIZE * PGSIZE = (va / 2 ^ 12) <<< 12 := (Nat.shiftLeft_eq _ 12).symm
  rw [hbits]
  refine Nat.eq_of_testBit_eq fun i => ?_
  rw [pg_round_down, Nat.testBit_and, show 0xfffff000 = 2 ^ 12 * (2 ^ 20 - 1) from rfl,
    Nat.testBit_two_pow_mul, Nat.testBit_two_pow_sub_one, Nat.testBit_shiftLeft,
    ← Nat.shiftRight_eq_div_pow, Nat.testBit_shiftRight]
  by_cases hi : 12 ≤ i
  · by_cases hi' : i < 32
    · simp [hi, show i - 12 < 20 by omega]
    · have hz : va.testBit i = false :=
        Nat.testBit_lt_two_pow (h.trans_le (Nat.pow_le_pow_right (by norm_num) (by omega)))
      simp [hi, hz]
  · simp [hi]

/-- Physical memory up to 1 GB is mapped without wrapping. -/
theorem ptov_eq {paddr : Nat} (h : paddr < 0x40000000) : ptov paddr = some (paddr + PHYS_BASE) := by
  have hbase : PHYS_BASE = 0xc0000000 := rfl
  rw [ptov, if_pos (by omega), Nat.mod_eq_of_lt (by omega)]

end Pintos
