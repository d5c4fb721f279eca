import Mathlib.Algebra.Order.Ring.Nat
import Mathlib.Tactic.Ring
import Mathlib.Tactic.Linarith
import Mathlib.Tactic.NormNum
import Mathlib.Tactic.GCongr
import Mathlib.Tactic.IntervalCases

/-!
# Lib — 64-bit division

`lib/arithmetic.c`, the routines that stand in for libgcc's.  A `uint64_t` and an `int64_t` are the
same 64 bits, read by `toNat` and by `toInt`; a divide error is `none`.

* `udiv64_returns`: the quotient is exact and no `divl` on the way traps.  For a divisor of more
  than 32 bits the quotient is estimated from the high word of the normalised divisor;
  `estimate_close` bounds the estimate by one.
* `sdiv64_returns`: the signed quotient is the truncated one, modulo `2 ^ 64`.
* `umoddi3_exact_iff`, `moddi3_exact_iff`: `umod64` and `smod64` return 32 bits, so the remainder is
  right exactly when it fits in them.
-/

namespace Pintos
open Nat (div_add_mod mod_eq_of_lt mod_lt)
open BitVec (allOnes eq_of_toNat_eq intMin lt_def msb_eq_toInt toNat_mul toNat_setWidth
  toNat_sub_of_le toNat_umod toNat_ushiftRight)

/-! ### The source -/

/-- The x86 DIVL instruction: the quotient of a 64-bit `n` by a 32-bit `d`, or a divide error if
`d` is zero or the quotient does not fit in 32 bits. -/
def divl (n : BitVec 64) (d : BitVec 32) : Option (BitVec 32) :=
  if d.toNat = 0 ∨ 2 ^ 32 ≤ n.toNat / d.toNat then none
  else some (BitVec.ofNat 32 (n.toNat / d.toNat))

/-- One test of `nlz`: below `bound`, count `k` zero bits and shift them out. -/
def nlz_shift (bound : BitVec 32) (k : Nat) : Nat × BitVec 32 → Nat × BitVec 32
  | (n, x) => if x ≤ bound then (n + k, x <<< k) else (n, x)

/-- The number of leading zero bits of `x`, which must be nonzero. -/
def nlz (x : BitVec 32) : Nat :=
  let (n, x) := nlz_shift 0x0000FFFF 16 (0, x)
  let (n, x) := nlz_shift 0x00FFFFFF 8 (n, x)
  let (n, x) := nlz_shift 0x0FFFFFFF 4 (n, x)
  let (n, x) := nlz_shift 0x3FFFFFFF 2 (n, x)
  if x ≤ 0x7FFFFFFF then n + 1 else n

/-- Unsigned division. -/
def udiv64 (n d : BitVec 64) : Option (BitVec 64) :=
  if d >>> 32 = 0 then do
    let b : BitVec 64 := 1 <<< 32
    let n1 := (n >>> 32).setWidth 32
    let n0 := n.setWidth 32
    let d0 := d.setWidth 32
    -- `n1 % d0` and `n1 / d0` trap for `d0 = 0` in the source; `divl` does so here.
    let q ← divl (b * (n1 % d0).setWidth 64 + n0.setWidth 64) d0
    return q.setWidth 64 + b * (n1 / d0).setWidth 64
  else if n < d then return 0
  else do
    let d1 := (d >>> 32).setWidth 32
    let s := nlz d1
    let q ← divl (n >>> 1) (((d <<< s) >>> 32).setWidth 32)
    let q : BitVec 64 := (q >>> (31 - s)).setWidth 64
    return if n - (q - 1) * d < d then q - 1 else q

/-- Unsigned remainder, returned as a `uint32_t`. -/
def umod64 (n d : BitVec 64) : Option (BitVec 32) := do
  let q ← udiv64 n d
  return (n - d * q).setWidth 32

/-- Signed division. -/
def sdiv64 (n d : BitVec 64) : Option (BitVec 64) := do
  let n_abs := if 0 ≤ n.toInt then n else -n
  let d_abs := if 0 ≤ d.toInt then d else -d
  let q_abs ← udiv64 n_abs d_abs
  return if (n.toInt < 0) = (d.toInt < 0) then q_abs else -q_abs

/-- Signed remainder, returned as an `int32_t`. -/
def smod64 (n d : BitVec 64) : Option (BitVec 32) := do
  let q ← sdiv64 n d
  return (n - d * q).setWidth 32

/-- Signed 64-bit division. -/
def __divdi3 (n d : BitVec 64) : Option (BitVec 64) := sdiv64 n d

/-- Signed 64-bit remainder: the `int32_t` is sign-extended. -/
def __moddi3 (n d : BitVec 64) : Option (BitVec 64) := (smod64 n d).map (·.signExtend 64)

/-- Unsigned 64-bit division. -/
def __udivdi3 (n d : BitVec 64) : Option (BitVec 64) := udiv64 n d

/-- Unsigned 64-bit remainder: the `uint32_t` is zero-extended. -/
def __umoddi3 (n d : BitVec 64) : Option (BitVec 64) := (umod64 n d).map (·.setWidth 64)

/-! ### The pieces -/

/-- A quotient that fits is what `divl` returns. -/
theorem divl_returns {n : BitVec 64} {d : BitVec 32} (hd : 0 < d.toNat)
    (hq : n.toNat / d.toNat < 2 ^ 32) :
    ∃ q, divl n d = some q ∧ q.toNat = n.toNat / d.toNat := by
  refine ⟨_, if_neg (by omega), ?_⟩
  rw [BitVec.toNat_ofNat]
  exact mod_eq_of_lt hq

/-- One test of `nlz` on a word with at most `2 * k` leading zeros leaves at most `k` of them, and
counts those that it shifts out. -/
theorem nlz_shift_spec (x₀ : Nat) (bound : BitVec 32) (k : Nat) (p : Nat × BitVec 32)
    (hk : 2 * k ≤ 32) (hb : bound.toNat = 2 ^ (32 - k) - 1) (hp : p.2.toNat = x₀ * 2 ^ p.1)
    (hlow : 2 ^ (32 - 2 * k) ≤ p.2.toNat) :
    (nlz_shift bound k p).2.toNat = x₀ * 2 ^ (nlz_shift bound k p).1 ∧
      2 ^ (32 - k) ≤ (nlz_shift bound k p).2.toNat := by
  obtain ⟨n, x⟩ := p
  have hpos : 0 < 2 ^ (32 - k) := Nat.two_pow_pos _
  by_cases hle : x ≤ bound
  · have hlt : x.toNat < 2 ^ (32 - k) := by
      have := BitVec.le_def.mp hle
      omega
    have hshift : (x <<< k).toNat = x.toNat * 2 ^ k := by
      rw [BitVec.toNat_shiftLeft, Nat.shiftLeft_eq]
      refine mod_eq_of_lt ?_
      calc x.toNat * 2 ^ k < 2 ^ (32 - k) * 2 ^ k := by gcongr
        _ = 2 ^ 32 := by rw [← Nat.pow_add]; congr 1; omega
    simp only [nlz_shift, if_pos hle, hshift]
    refine ⟨by rw [hp, Nat.pow_add, Nat.mul_assoc], ?_⟩
    calc 2 ^ (32 - k) = 2 ^ (32 - 2 * k) * 2 ^ k := by rw [← Nat.pow_add]; congr 1; omega
      _ ≤ x.toNat * 2 ^ k := by gcongr
  · have hge : bound.toNat < x.toNat := by
      by_contra h
      exact hle (BitVec.le_def.mpr (by omega))
    simp only [nlz_shift, if_neg hle]
    exact ⟨hp, by omega⟩

/-- Shifting a nonzero word left by `nlz` brings its highest set bit to the top. -/
theorem nlz_spec {x : BitVec 32} (hx : 0 < x.toNat) :
    2 ^ 31 ≤ x.toNat * 2 ^ nlz x ∧ x.toNat * 2 ^ nlz x < 2 ^ 32 := by
  obtain ⟨a₁, b₁⟩ := nlz_shift_spec x.toNat 0x0000FFFF 16 (0, x) (by omega) rfl (by simp) hx
  obtain ⟨a₂, b₂⟩ := nlz_shift_spec x.toNat 0x00FFFFFF 8 _ (by omega) rfl a₁ b₁
  obtain ⟨a₃, b₃⟩ := nlz_shift_spec x.toNat 0x0FFFFFFF 4 _ (by omega) rfl a₂ b₂
  obtain ⟨a₄, b₄⟩ := nlz_shift_spec x.toNat 0x3FFFFFFF 2 _ (by omega) rfl a₃ b₃
  unfold nlz
  dsimp only
  generalize nlz_shift 0x3FFFFFFF 2 _ = p at a₄ b₄ ⊢
  have hlt := p.2.isLt
  by_cases hle : p.2 ≤ 0x7FFFFFFF
  · have hle' : p.2.toNat ≤ 0x7FFFFFFF := BitVec.le_def.mp hle
    have hdouble : x.toNat * 2 ^ (p.1 + 1) = p.2.toNat * 2 := by
      rw [a₄, Nat.pow_succ, Nat.mul_assoc]
    rw [if_pos hle, hdouble]
    omega
  · have hgt : ¬ p.2.toNat ≤ 0x7FFFFFFF := fun h => hle (BitVec.le_def.mpr h)
    rw [if_neg hle, ← a₄]
    omega

/-- The count is below the width. -/
theorem nlz_le {x : BitVec 32} (hx : 0 < x.toNat) : nlz x ≤ 31 := by
  by_contra h
  have hpow : 2 ^ 32 ≤ 2 ^ nlz x := Nat.pow_le_pow_right (by omega) (by omega)
  have := Nat.le_mul_of_pos_left (2 ^ nlz x) hx
  have := (nlz_spec hx).2
  omega

/-! ### The estimate

`e` stands for the divisor with all but the top 32 of its significant bits cleared. -/

/-- Clearing low bits of the divisor overestimates the quotient by at most one. -/
theorem estimate_close {n d e s : Nat} (hs : s ≤ 31) (hn : n < 2 ^ 64) (hle : e ≤ d)
    (hlt : d < e + 2 ^ (32 - s)) (htop : 2 ^ (63 - s) ≤ e) :
    n / d ≤ n / e ∧ n / e ≤ n / d + 1 := by
  have he : 0 < e := Nat.lt_of_lt_of_le (Nat.two_pow_pos _) htop
  refine ⟨Nat.div_le_div_left hle he, ?_⟩
  -- `q - 1` more copies of the cleared bits still fit under one `e`.
  obtain hq | ⟨q, hq⟩ : n / e = 0 ∨ ∃ q, n / e = q + 1 := by
    cases n / e with
    | zero => exact .inl rfl
    | succ q => exact .inr ⟨q, rfl⟩
  · rw [hq]
    exact Nat.zero_le _
  have hqe : (q + 1) * e ≤ n := hq ▸ Nat.div_mul_le_self n e
  have hqs : q < 2 ^ (s + 1) := by
    have : n / e < 2 ^ (s + 1) := by
      rw [Nat.div_lt_iff_lt_mul he]
      calc n < 2 ^ 64 := hn
        _ = 2 ^ (s + 1) * 2 ^ (63 - s) := by rw [← Nat.pow_add]; congr 1; omega
        _ ≤ 2 ^ (s + 1) * e := by gcongr
    omega
  have hcleared : q * (d - e) ≤ e := by
    calc q * (d - e) ≤ 2 ^ (s + 1) * (2 ^ (32 - s) - 1) := by
          refine Nat.mul_le_mul hqs.le ?_
          omega
      _ ≤ 2 ^ (63 - s) := by interval_cases s <;> norm_num
      _ ≤ e := htop
  rw [hq, Nat.add_le_add_iff_right, Nat.le_div_iff_mul_le (by omega)]
  calc q * d = q * e + q * (d - e) := by rw [← Nat.mul_add]; congr 1; omega
    _ ≤ q * e + e := by omega
    _ = (q + 1) * e := by ring
    _ ≤ n := hqe

/-- The normalised divisor: it fits in 64 bits, its high word has its top bit set, and that word
shifted back is the divisor with its low bits cleared. -/
theorem normalised_bounds {d s : Nat} (hs : s ≤ 31) (hlow : 2 ^ 31 ≤ d / 2 ^ 32 * 2 ^ s)
    (hhigh : d / 2 ^ 32 * 2 ^ s < 2 ^ 32) :
    d * 2 ^ s < 2 ^ 64 ∧ 2 ^ 31 ≤ d * 2 ^ s / 2 ^ 32 ∧ d * 2 ^ s / 2 ^ 32 * 2 ^ (32 - s) ≤ d ∧
      d < d * 2 ^ s / 2 ^ 32 * 2 ^ (32 - s) + 2 ^ (32 - s) := by
  have hpow : 2 ^ (32 - s) * 2 ^ s = 2 ^ 32 := by rw [← Nat.pow_add]; congr 1; omega
  have hpos : 0 < 2 ^ s := Nat.two_pow_pos s
  have hdm := div_add_mod d (2 ^ 32)
  have hmod : d % 2 ^ 32 < 2 ^ 32 := mod_lt _ (by decide)
  refine ⟨?_, ?_, ?_, ?_⟩
  · have hd1 : d / 2 ^ 32 < 2 ^ (32 - s) :=
      Nat.lt_of_mul_lt_mul_right (hhigh.trans_eq hpow.symm)
    calc d * 2 ^ s < 2 ^ 32 * 2 ^ (32 - s) * 2 ^ s := by gcongr; omega
      _ = 2 ^ 64 := by rw [Nat.mul_assoc, hpow]; norm_num
  · rw [Nat.le_div_iff_mul_le (by decide)]
    calc 2 ^ 31 * 2 ^ 32 ≤ d / 2 ^ 32 * 2 ^ s * 2 ^ 32 := by gcongr
      _ = 2 ^ 32 * (d / 2 ^ 32) * 2 ^ s := by ring
      _ ≤ d * 2 ^ s := by gcongr; omega
  · refine Nat.le_of_mul_le_mul_right ?_ hpos
    rw [Nat.mul_assoc, hpow]
    exact Nat.div_mul_le_self _ _
  · refine Nat.lt_of_mul_lt_mul_right (a := 2 ^ s) ?_
    rw [← Nat.succ_mul, Nat.mul_assoc, hpow]
    omega

/-! ### Unsigned division -/

/-- `[n/d] = [(b[n1 % d] + n0)/d] + b[n1/d]`, the identity the source proves in its comment. -/
theorem div_split {b n d : Nat} (hd : 0 < d) :
    n / d = (b * (n / b % d) + n % b) / d + b * (n / b / d) := by
  have hn : n = b * (n / b % d) + n % b + d * (b * (n / b / d)) := by
    calc n = b * (n / b) + n % b := (div_add_mod n b).symm
      _ = b * (d * (n / b / d) + n / b % d) + n % b := by rw [div_add_mod (n / b) d]
      _ = b * (n / b % d) + n % b + d * (b * (n / b / d)) := by ring
  conv_lhs => rw [hn, Nat.add_mul_div_left _ _ hd]

/-- The first part of the split quotient is one digit in base `b`. -/
theorem div_split_lt {b n d : Nat} (hd : 0 < d) (hb : 0 < b) :
    (b * (n / b % d) + n % b) / d < b := by
  rw [Nat.div_lt_iff_lt_mul hd]
  have hr : n / b % d < d := mod_lt _ hd
  have hn0 : n % b < b := mod_lt _ hb
  calc b * (n / b % d) + n % b < b * (n / b % d) + b := by omega
    _ = b * (n / b % d + 1) := by ring
    _ ≤ b * d := by gcongr; omega

/-- The high word of a 64-bit value. -/
theorem toNat_high (n : BitVec 64) : ((n >>> 32).setWidth 32).toNat = n.toNat / 2 ^ 32 := by
  rw [toNat_setWidth, toNat_ushiftRight, Nat.shiftRight_eq_div_pow]
  have := n.isLt
  omega

/-- Two words put together do not overflow. -/
theorem toNat_join (x y : BitVec 32) :
    ((1 <<< 32 : BitVec 64) * x.setWidth 64 + y.setWidth 64).toNat
      = 2 ^ 32 * x.toNat + y.toNat := by
  have hx := x.isLt
  have hy := y.isLt
  have hb : (1 <<< 32 : BitVec 64).toNat = 2 ^ 32 := rfl
  rw [BitVec.toNat_add, toNat_mul, toNat_setWidth, toNat_setWidth, hb]
  omega

variable {n d : BitVec 64}

/-- Division by a divisor of 32 bits. -/
theorem udiv64_narrow (hd : 0 < d.toNat) (h32 : d.toNat < 2 ^ 32) :
    ∃ q, udiv64 n d = some q ∧ q.toNat = n.toNat / d.toNat := by
  have hhigh : d >>> 32 = 0 := by
    apply eq_of_toNat_eq
    rw [toNat_ushiftRight, Nat.shiftRight_eq_div_pow]
    exact Nat.div_eq_of_lt h32
  have hd0 : (d.setWidth 32).toNat = d.toNat := by
    rw [toNat_setWidth]
    exact mod_eq_of_lt h32
  have hn0 : (n.setWidth 32).toNat = n.toNat % 2 ^ 32 := toNat_setWidth ..
  obtain ⟨q, hq, hqv⟩ := divl_returns (n := (1 <<< 32 : BitVec 64) *
      ((n >>> 32).setWidth 32 % d.setWidth 32).setWidth 64 + (n.setWidth 32).setWidth 64)
      (d := d.setWidth 32) (by rw [hd0]; exact hd) (by
    rw [toNat_join, toNat_umod, toNat_high, hd0, hn0]
    exact div_split_lt hd (by decide))
  refine ⟨_, by rw [udiv64, if_pos hhigh]; dsimp only; rw [hq]; rfl, ?_⟩
  rw [BitVec.add_comm, toNat_join, hqv, toNat_join, toNat_umod, BitVec.toNat_udiv,
    toNat_high, hd0, hn0, Nat.add_comm]
  exact (div_split hd).symm

/-- The last line of `udiv64`: an estimate that is right or one too large is corrected. -/
theorem correct_estimate {n d q : BitVec 64} (hd : 0 < d.toNat) (hle : d.toNat ≤ n.toNat)
    (hlow : n.toNat / d.toNat ≤ q.toNat) (hhigh : q.toNat ≤ n.toNat / d.toNat + 1) :
    (if n - (q - 1) * d < d then q - 1 else q).toNat = n.toNat / d.toNat := by
  have hone : 1 ≤ n.toNat / d.toNat := (Nat.one_le_div_iff hd).mpr hle
  have hdm := div_add_mod n.toNat d.toNat
  have hmod : n.toNat % d.toNat < d.toNat := mod_lt _ hd
  have hn := n.isLt
  have hq1 : (q - 1).toNat = q.toNat - 1 :=
    toNat_sub_of_le (BitVec.le_def.mpr (by change 1 ≤ q.toNat; omega))
  have hfit : (q.toNat - 1) * d.toNat ≤ n.toNat := by
    calc (q.toNat - 1) * d.toNat ≤ n.toNat / d.toNat * d.toNat := by gcongr; omega
      _ ≤ n.toNat := Nat.div_mul_le_self _ _
  have hprod : ((q - 1) * d).toNat = (q.toNat - 1) * d.toNat := by
    rw [toNat_mul, hq1]
    exact mod_eq_of_lt (by omega)
  have hrest : (n - (q - 1) * d).toNat = n.toNat - (q.toNat - 1) * d.toNat := by
    rw [toNat_sub_of_le (BitVec.le_def.mpr (by omega)), hprod]
  obtain heq | heq : q.toNat = n.toNat / d.toNat ∨ q.toNat = n.toNat / d.toNat + 1 := by omega
  · have hge : ¬ n - (q - 1) * d < d := by
      rw [lt_def, hrest, heq, Nat.sub_mul, Nat.one_mul, Nat.mul_comm]
      omega
    rw [if_neg hge, heq]
  · have hlt : n - (q - 1) * d < d := by
      rw [lt_def, hrest, heq, Nat.add_sub_cancel, Nat.mul_comm]
      omega
    rw [if_pos hlt, hq1, heq, Nat.add_sub_cancel]

/-- Division by a divisor of more than 32 bits. -/
theorem udiv64_wide (h32 : 2 ^ 32 ≤ d.toNat) :
    ∃ q, udiv64 n d = some q ∧ q.toNat = n.toNat / d.toNat := by
  have hhigh : ¬ d >>> 32 = 0 := by
    intro h
    have hz : (d >>> 32).toNat = 0 := congrArg BitVec.toNat h
    rw [toNat_ushiftRight, Nat.shiftRight_eq_div_pow] at hz
    omega
  by_cases hlt : n < d
  · refine ⟨0, by rw [udiv64, if_neg hhigh, if_pos hlt]; rfl, ?_⟩
    exact (Nat.div_eq_of_lt (BitVec.lt_def.mp hlt)).symm
  have hle : d.toNat ≤ n.toNat := Nat.le_of_not_lt fun h => hlt (BitVec.lt_def.mpr h)
  have hd1 : 0 < ((d >>> 32).setWidth 32).toNat := by rw [toNat_high]; omega
  have hs := nlz_le hd1
  obtain ⟨htop, hbelow⟩ := nlz_spec hd1
  rw [toNat_high] at htop hbelow
  obtain ⟨hfit, hbit, hcut, hcut'⟩ := normalised_bounds hs htop hbelow
  have hnorm : (((d <<< nlz ((d >>> 32).setWidth 32)) >>> 32).setWidth 32).toNat
      = d.toNat * 2 ^ nlz ((d >>> 32).setWidth 32) / 2 ^ 32 := by
    rw [toNat_high, BitVec.toNat_shiftLeft, Nat.shiftLeft_eq, mod_eq_of_lt hfit]
  generalize hsv : nlz ((d >>> 32).setWidth 32) = s at *
  have hhalf : (n >>> 1).toNat = n.toNat / 2 := by
    rw [toNat_ushiftRight, Nat.shiftRight_eq_div_pow, Nat.pow_one]
  have hn := n.isLt
  obtain ⟨q, hq, hqv⟩ := divl_returns (n := n >>> 1) (d := ((d <<< s) >>> 32).setWidth 32)
    (by rw [hnorm]; omega) (by
      rw [hhalf, hnorm, Nat.div_lt_iff_lt_mul (by omega)]
      calc n.toNat / 2 < 2 ^ 32 * 2 ^ 31 := by omega
        _ ≤ _ := by gcongr)
  have hest : ((q >>> (31 - s)).setWidth 64).toNat
      = n.toNat / (d.toNat * 2 ^ s / 2 ^ 32 * 2 ^ (32 - s)) := by
    have hsmall := (q >>> (31 - s)).isLt
    rw [toNat_setWidth, mod_eq_of_lt (by omega), toNat_ushiftRight,
      Nat.shiftRight_eq_div_pow, hqv, hhalf, hnorm, Nat.div_div_eq_div_mul,
      Nat.div_div_eq_div_mul]
    congr 1
    rw [show 32 - s = 31 - s + 1 by omega, Nat.pow_succ]
    ring
  obtain ⟨hge, hone⟩ := estimate_close hs hn hcut hcut' (by
    calc 2 ^ (63 - s) = 2 ^ 31 * 2 ^ (32 - s) := by rw [← Nat.pow_add]; congr 1; omega
      _ ≤ _ := by gcongr)
  refine ⟨_, by rw [udiv64, if_neg hhigh, if_neg hlt]; dsimp only; rw [hsv, hq]; rfl, ?_⟩
  exact correct_estimate (by omega) hle (hest ▸ hge) (hest ▸ hone)

/-- The quotient is exact, and no `divl` traps. -/
theorem udiv64_returns (hd : d ≠ 0) : ∃ q, udiv64 n d = some q ∧ q.toNat = n.toNat / d.toNat := by
  have hpos : 0 < d.toNat := Nat.pos_of_ne_zero fun h => hd (eq_of_toNat_eq h)
  obtain h | h := Nat.lt_or_ge d.toNat (2 ^ 32)
  · exact udiv64_narrow hpos h
  · exact udiv64_wide h

/-! ### Signed division -/

/-- The signed quotient is `BitVec.sdiv`. -/
theorem sdiv64_eq_sdiv (hd : d ≠ 0) : sdiv64 n d = some (n.sdiv d) := by
  have hmsb : ∀ x : BitVec 64, 0 ≤ x.toInt ↔ x.msb = false := fun x => by
    rw [msb_eq_toInt]
    simp
  have hneg : ∀ x : BitVec 64, x.toInt < 0 ↔ x.msb = true := fun x => by
    rw [msb_eq_toInt]
    simp
  have hquot : ∀ {x y : BitVec 64}, y ≠ 0 → udiv64 x y = some (x.udiv y) := fun {x y} hy => by
    obtain ⟨q, hq, hqv⟩ := udiv64_returns (n := x) hy
    rw [hq]
    exact congrArg some (eq_of_toNat_eq hqv)
  have hd' : -d ≠ 0 := fun h => hd (by simpa using h)
  rw [sdiv64, BitVec.sdiv_eq]
  simp only [hmsb, hneg]
  cases hn : n.msb <;> cases hdm : d.msb <;> simp [hquot hd, hquot hd']

/-- The quotient is the truncated one, modulo `2 ^ 64`; it wraps for `INT64_MIN / -1` alone. -/
theorem sdiv64_returns (hd : d ≠ 0) :
    ∃ q, sdiv64 n d = some q ∧ q.toInt = (n.toInt.tdiv d.toInt).bmod (2 ^ 64) ∧
      (q.toInt = n.toInt.tdiv d.toInt ↔ ¬ (n = intMin 64 ∧ d = -1)) := by
  refine ⟨_, sdiv64_eq_sdiv hd, BitVec.toInt_sdiv n d, fun h => ?_, fun h => ?_⟩
  · rintro ⟨rfl, rfl⟩
    revert h
    decide
  · exact BitVec.toInt_sdiv_of_ne_or_ne n d (by tauto)

/-- 64-bit division is exact: for a nonzero divisor no `divl` traps, the unsigned quotient is the
floor, and the signed one is the truncated quotient modulo `2 ^ 64`. -/
theorem division_exact (n d : BitVec 64) (hd : d ≠ 0) :
    (∃ q, udiv64 n d = some q ∧ q.toNat = n.toNat / d.toNat) ∧
      (∃ q, sdiv64 n d = some q ∧ q.toInt = (n.toInt.tdiv d.toInt).bmod (2 ^ 64) ∧
        (q.toInt = n.toInt.tdiv d.toInt ↔ ¬ (n = intMin 64 ∧ d = -1))) :=
  ⟨udiv64_returns hd, sdiv64_returns hd⟩

/-- The largest dividend by a divisor of 33 bits. -/
theorem division_exact_wide : (4294967297 : BitVec 64) ≠ 0 ∧
      ∃ q, udiv64 (allOnes 64) 4294967297 = some q ∧ q.toNat = 4294967295 :=
  ⟨by decide, (division_exact (allOnes 64) 4294967297 (by decide)).1⟩

/-! ### Remainders -/

/-- The unsigned remainder is the true one modulo `2 ^ 32`. -/
theorem umoddi3_returns (hd : d ≠ 0) :
    ∃ r, __umoddi3 n d = some r ∧ r.toNat = n.toNat % d.toNat % 2 ^ 32 := by
  obtain ⟨q, hq, hqv⟩ := udiv64_returns (n := n) hd
  have hle : d.toNat * (n.toNat / d.toNat) ≤ n.toNat := Nat.mul_div_le _ _
  have hn := n.isLt
  have hprod : (d * q).toNat = d.toNat * (n.toNat / d.toNat) := by
    rw [toNat_mul, hqv]
    exact mod_eq_of_lt (by omega)
  refine ⟨_, by rw [__umoddi3, umod64, hq]; rfl, ?_⟩
  rw [toNat_setWidth, toNat_setWidth,
    toNat_sub_of_le (BitVec.le_def.mpr (by omega)), hprod, ← Nat.mod_def]
  exact mod_eq_of_lt (by omega)

/-- The signed remainder is the true one wrapped into 32 bits. -/
theorem moddi3_returns (hd : d ≠ 0) (hmin : ¬ (n = intMin 64 ∧ d = -1)) :
    ∃ r, __moddi3 n d = some r ∧ r.toInt = (n.toInt.tmod d.toInt).bmod (2 ^ 32) := by
  obtain ⟨q, hq, -, hexact⟩ := sdiv64_returns (n := n) hd
  have hrem : (n - d * q).toInt = n.toInt.tmod d.toInt := by
    rw [BitVec.toInt_sub, BitVec.toInt_mul, Int.sub_bmod_bmod, hexact.mpr hmin, ← Int.tmod_def,
      ← BitVec.toInt_srem, BitVec.toInt_bmod_cancel]
  refine ⟨_, by rw [__moddi3, smod64, hq]; rfl, ?_⟩
  rw [BitVec.toInt_signExtend_of_le (by omega), BitVec.toInt_setWidth, ← hrem,
    BitVec.toInt_eq_toNat_bmod, Int.bmod_bmod_of_dvd (by decide)]

/-- The unsigned remainder is exact exactly when it fits in 32 bits. -/
theorem umoddi3_exact_iff (hd : d ≠ 0) :
    (∃ r, __umoddi3 n d = some r ∧ r.toNat = n.toNat - d.toNat * (n.toNat / d.toNat)) ↔
      n.toNat % d.toNat < 2 ^ 32 := by
  obtain ⟨r, hr, hrv⟩ := umoddi3_returns (n := n) hd
  rw [← Nat.mod_def]
  refine ⟨?_, fun h => ⟨r, hr, by omega⟩⟩
  rintro ⟨r', hr', hv⟩
  obtain rfl : r = r' := Option.some.inj (hr.symm.trans hr')
  omega

/-- The signed remainder is exact exactly when it fits in 32 bits. -/
theorem moddi3_exact_iff (hd : d ≠ 0) (hmin : ¬ (n = intMin 64 ∧ d = -1)) :
    (∃ r, __moddi3 n d = some r ∧ r.toInt = n.toInt - d.toInt * n.toInt.tdiv d.toInt) ↔
      -2 ^ 31 ≤ n.toInt.tmod d.toInt ∧ n.toInt.tmod d.toInt < 2 ^ 31 := by
  obtain ⟨r, hr, hrv⟩ := moddi3_returns hd hmin
  rw [← Int.tmod_def]
  refine ⟨?_, fun h => ⟨r, hr, hrv.trans ?_⟩⟩
  · rintro ⟨r', hr', hv⟩
    obtain rfl : r = r' := Option.some.inj (hr.symm.trans hr')
    rw [← hv, hrv]
    exact ⟨Int.le_bmod (by decide), Int.bmod_lt (by decide)⟩
  · exact Int.bmod_eq_of_le h.1 h.2

/-- `2 ^ 32 % 2 ^ 33` is `2 ^ 32`, whose low word is zero. -/
theorem remainder_truncated :
    __umoddi3 4294967296 8589934592 = some 0 ∧ __moddi3 4294967296 8589934592 = some 0 ∧
      4294967296 - 8589934592 * (4294967296 / 8589934592) = 4294967296 := by
  decide

/-- Remainders match division exactly when they fit in the 32 bits that `umod64` and `smod64`
return. -/
theorem remainder_exact_iff (n d : BitVec 64) (hd : d ≠ 0) :
    ((∃ r, __umoddi3 n d = some r ∧ r.toNat = n.toNat - d.toNat * (n.toNat / d.toNat)) ↔
        n.toNat % d.toNat < 2 ^ 32) ∧
      (¬ (n = intMin 64 ∧ d = -1) →
        ((∃ r, __moddi3 n d = some r ∧ r.toInt = n.toInt - d.toInt * n.toInt.tdiv d.toInt) ↔
          -2 ^ 31 ≤ n.toInt.tmod d.toInt ∧ n.toInt.tmod d.toInt < 2 ^ 31)) :=
  ⟨umoddi3_exact_iff hd, moddi3_exact_iff hd⟩

/-- The remainder by a divisor of 33 bits, where it fits. -/
theorem remainder_exact_seven : (∃ r, __umoddi3 4294967304 4294967297 = some r ∧ r.toNat = 7) ∧
      ∃ r, __moddi3 (-4294967304) 4294967297 = some r ∧ r.toInt = -7 :=
  ⟨(remainder_exact_iff 4294967304 4294967297 (by decide)).1.mpr (by decide),
    ((remainder_exact_iff (-4294967304) 4294967297 (by decide)).2 (by decide)).mpr (by decide)⟩

end Pintos
