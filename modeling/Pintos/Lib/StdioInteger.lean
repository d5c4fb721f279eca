import Pintos.Lib.Stdio
import Mathlib.Data.Nat.Digits.Lemmas
import Mathlib.Tactic.NormNum

/-!
# Lib — Formatted integers keep their value

`format_integer` of `lib/stdio.c`.  `numeral b value` is the numeral of the value in the base, most
significant digit first and empty for zero.

* `integer_digits_eq`: the buffer of 64 characters holds the numeral, with its commas and leading
  zeros, and does not overflow.
* `format_integer_numeral`: stripped of padding, sign, `0x`, leading zeros and commas, the output is
  the numeral, and the commas separate its groups.
-/

namespace Pintos
open List Option

/-! ### Numerals -/

/-- The numeral of `value`, as characters. -/
def numeral (b : IntegerBase) (value : Nat) : List UInt8 :=
  ((Nat.digits b.base value).map fun d => b.digits.getD d 0).reverse

/-- The text of a numeral read from the right: groups of `g` digits with commas between them. -/
inductive Grouped (g : Nat) : List UInt8 → List UInt8 → Prop where
  | last (ds : List UInt8) : ds.length ≤ g → Grouped g ds ds
  | more {ds rest text : List UInt8} : ds.length = g → rest ≠ [] → Grouped g rest text →
      Grouped g (ds ++ rest) (ds ++ ascii ',' :: text)

/-- The text without a sign. -/
def drop_sign (s : List UInt8) : List UInt8 :=
  if s.head? = some (ascii '+') ∨ s.head? = some (ascii '-') then s.tail else s

/-- The text without `0x` or `0X`. -/
def drop_x (s : List UInt8) : List UInt8 :=
  if s.take 2 = [ascii '0', ascii 'x'] ∨ s.take 2 = [ascii '0', ascii 'X'] then s.drop 2 else s

/-- The text without spaces, sign, `0x`, leading zeros and commas. -/
def strip (out : List UInt8) : List UInt8 :=
  ((drop_x (drop_sign (out.filter (· ≠ ascii ' ')))).dropWhile (· = ascii '0')).filter
    (· ≠ ascii ',')

/-- The bases that `__vprintf` uses. -/
def bases : List IntegerBase := [base_d, base_o, base_x, base_X]

section Digits

variable {b : IntegerBase}

section

variable (hb : b ∈ bases)
include hb

theorem base_ge : 8 ≤ b.base := by
  simp only [bases, List.mem_cons, not_mem_nil, or_false] at hb
  rcases hb with rfl | rfl | rfl | rfl <;> decide

theorem group_pos : 0 < b.group := by
  simp only [bases, List.mem_cons, not_mem_nil, or_false] at hb
  rcases hb with rfl | rfl | rfl | rfl <;> decide

/-- The character of a digit is none of those around it, and only zero is `0`. -/
theorem digit_char {d : Nat} (hd : d < b.base) :
    b.digits.getD d 0 ∉ [' ', ',', '+', '-', 'x', 'X'].map ascii ∧
      (b.digits.getD d 0 = ascii '0' → d = 0) := by
  simp only [bases, List.mem_cons, not_mem_nil, or_false] at hb
  rcases hb with rfl | rfl | rfl | rfl <;> revert d <;> decide

theorem mem_numeral {value : Nat} {c : UInt8} (hc : c ∈ numeral b value) :
    c ∉ [' ', ',', '+', '-', 'x', 'X'].map ascii := by
  rw [numeral, mem_reverse, List.mem_map] at hc
  obtain ⟨d, hd, rfl⟩ := hc
  have h8 := base_ge hb
  exact (digit_char hb (Nat.digits_lt_base (by omega) hd)).1

theorem comma_not_mem (value : Nat) : ascii ',' ∉ (numeral b value).reverse := by
  intro h
  have := mem_numeral hb (List.mem_reverse.mp h)
  simp at this

/-- A numeral does not start with a zero. -/
theorem head_numeral (value : Nat) : (numeral b value).head? ≠ some (ascii '0') := by
  rw [numeral, head?_reverse, getLast?_map]
  intro h
  obtain ⟨d, hlast, hd⟩ := Option.map_eq_some_iff.mp h
  have h8 := base_ge hb
  obtain ⟨hne, rfl⟩ := mem_getLast?_eq_getLast hlast
  have hval : value ≠ 0 := fun h0 => hne (by rw [h0, Nat.digits_zero])
  have hlt := Nat.digits_lt_base (b := b.base) (m := value) (by omega) (getLast_mem hne)
  exact Nat.getLast_digit_ne_zero b.base hval ((digit_char hb hlt).2 hd)

/-- A 64-bit value has at most 22 digits. -/
theorem length_digits_le {value : Nat} (hv : value < 2 ^ 64) :
    (Nat.digits b.base value).length ≤ 22 := by
  have h8 := base_ge hb
  rw [Nat.digits_length_le_iff (by omega)]
  calc value < 8 ^ 22 := by omega
    _ ≤ b.base ^ 22 := Nat.pow_le_pow_left h8 22

end

end Digits

/-! ### The buffer -/

/-- The digits from number `cnt` on, the least significant one first, each after its comma. -/
def stamp (group : Bool) (g : Nat) : Nat → List UInt8 → List UInt8
  | _, [] => []
  | cnt, d :: ds =>
    (if group ∧ cnt > 0 ∧ cnt % g = 0 then [ascii ','] else []) ++ d :: stamp group g (cnt + 1) ds

section Stamp

variable {group : Bool} {g : Nat} {cnt : Nat}

theorem length_stamp_le (group : Bool) (g cnt : Nat) (ds : List UInt8) :
    (stamp group g cnt ds).length ≤ 2 * ds.length := by
  induction ds generalizing cnt with
  | nil => exact le_rfl
  | cons d ds ih =>
    have := ih (cnt + 1)
    rw [stamp, length_append, length_cons, length_cons]
    split_ifs <;> simp <;> omega

/-- Without the flag there are no commas. -/
theorem stamp_false (cnt : Nat) (ds : List UInt8) : stamp false g cnt ds = ds := by
  induction ds generalizing cnt with
  | nil => rfl
  | cons d ds ih => simp [stamp, ih]

/-- Without its commas, the text is the digits. -/
theorem filter_stamp {ds : List UInt8} (hds : ascii ',' ∉ ds) :
    (stamp group g cnt ds).filter (· ≠ ascii ',') = ds := by
  induction ds generalizing cnt with
  | nil => rfl
  | cons d ds ih =>
    rw [List.mem_cons, not_or] at hds
    have hd : d ≠ ascii ',' := Ne.symm hds.1
    rw [stamp, filter_append, List.filter_cons_of_pos (by simpa using hd), ih hds.2]
    split_ifs <;> simp

theorem mem_stamp {ds : List UInt8} {c : UInt8} (hc : c ∈ stamp group g cnt ds) :
    c = ascii ',' ∨ c ∈ ds := by
  induction ds generalizing cnt with
  | nil => cases hc
  | cons d ds ih =>
    rw [stamp, mem_append, List.mem_cons] at hc
    rcases hc with hc | rfl | hc
    · split_ifs at hc
      · exact .inl (List.mem_singleton.mp hc)
      · cases hc
    · exact .inr List.mem_cons_self
    · exact (ih hc).imp id (List.mem_cons_of_mem _)

/-- The last character is a digit. -/
theorem getLast?_stamp (cnt : Nat) (ds : List UInt8) :
    (stamp group g cnt ds).getLast? = ds.getLast? := by
  induction ds generalizing cnt with
  | nil => rfl
  | cons d ds ih =>
    rw [stamp, getLast?_append_cons, getLast?_cons, getLast?_cons, ih]

/-- A group later, the commas stand at the same places. -/
theorem stamp_add (g : Nat) (hcnt : 0 < cnt) (ds : List UInt8) :
    stamp true g (cnt + g) ds = stamp true g cnt ds := by
  induction ds generalizing cnt with
  | nil => rfl
  | cons d ds ih =>
    have hmod : (cnt + g) % g = cnt % g := Nat.add_mod_right cnt g
    have hpos : cnt + g > 0 ↔ cnt > 0 := by omega
    rw [stamp, stamp, hmod, Nat.add_right_comm, ih (by omega)]
    simp only [hpos]

/-- The digits of the first group have no commas. -/
theorem stamp_first (cnt : Nat) (ds rest : List UInt8) (h : cnt + ds.length ≤ g) :
    stamp true g cnt (ds ++ rest) = ds ++ stamp true g (cnt + ds.length) rest := by
  induction ds generalizing cnt with
  | nil => rfl
  | cons d ds ih =>
    rw [length_cons] at h
    have hmod : ¬ (cnt > 0 ∧ cnt % g = 0) := by
      rintro ⟨hpos, h0⟩
      rw [Nat.mod_eq_of_lt (by omega)] at h0
      omega
    rw [List.cons_append, stamp, if_neg (by tauto), ih (cnt + 1) (by omega), length_cons,
      nil_append, List.cons_append, Nat.add_assoc, Nat.add_comm 1]

/-- The commas separate groups of `g` digits. -/
theorem grouped_stamp (hg : 0 < g) (ds : List UInt8) : Grouped g ds (stamp true g 0 ds) := by
  induction hn : ds.length using Nat.strongRecOn generalizing ds with
  | ind n ih =>
    subst hn
    obtain hle | hgt : ds.length ≤ g ∨ g < ds.length := by omega
    · have h := stamp_first (g := g) 0 ds [] (by omega)
      rw [append_nil, stamp, append_nil] at h
      rw [h]
      exact .last ds hle
    · -- The first group, and a comma before the next digit.
      have hlen : (ds.take g).length = g := by rw [length_take]; omega
      obtain ⟨d, rest, hdrop⟩ : ∃ d rest, ds.drop g = d :: rest := by
        cases h : ds.drop g with
        | nil =>
          have := congrArg length h
          rw [length_drop] at this
          simp at this
          omega
        | cons d rest => exact ⟨d, rest, rfl⟩
      have hnext : stamp true g g (ds.drop g) = ascii ',' :: stamp true g 0 (ds.drop g) := by
        rw [hdrop, stamp, stamp, if_pos ⟨rfl, hg, Nat.mod_self g⟩, if_neg (by simp)]
        have := stamp_add g Nat.one_pos rest
        rw [Nat.zero_add, Nat.add_comm g 1, this]
        rfl
      have hsplit := stamp_first (g := g) 0 (ds.take g) (ds.drop g) (by omega)
      rw [take_append_drop, hlen, Nat.zero_add, hnext] at hsplit
      have hrest := ih (ds.drop g).length (by rw [length_drop]; omega) (ds.drop g) rfl
      have hmore := Grouped.more hlen (by rw [hdrop]; simp) hrest
      rw [take_append_drop] at hmore
      rw [hsplit]
      exact hmore

end Stamp

section Buffer

variable {b : IntegerBase} {buf : List UInt8}

theorem put_of_lt {c : UInt8} (h : buf.length < 64) : put c buf = some (c :: buf) := if_pos h

/-- The loop over the digits. -/
theorem put_digits_eq (flags : PrintfFlags) (hb : 2 ≤ b.base) :
    ∀ (turns value cnt : Nat) (buf : List UInt8), (Nat.digits b.base value).length ≤ turns →
      buf.length + 2 * (Nat.digits b.base value).length ≤ 64 →
      put_digits b flags turns value cnt buf = some ((stamp flags.group b.group cnt
        ((Nat.digits b.base value).map fun d => b.digits.getD d 0)).reverse ++ buf) := by
  intro turns
  induction turns with
  | zero =>
    intro value cnt buf hturns _
    have hnil := eq_nil_of_length_eq_zero (Nat.le_zero.mp hturns)
    rw [put_digits, if_neg (by rw [Nat.digits_eq_nil_iff_eq_zero.mp hnil]; omega), hnil]
    rfl
  | succ turns ih =>
    intro value cnt buf hturns hroom
    by_cases hv : value > 0
    · rw [Nat.digits_def' (by omega) hv] at hturns hroom ⊢
      rw [length_cons] at hturns hroom
      rw [put_digits, if_pos hv, List.map_cons, stamp]
      split_ifs with hcomma
      · rw [put_of_lt (by omega)]
        simp only [bind_eq_bind, bind_some]
        rw [put_of_lt (by rw [length_cons]; omega)]
        simp only [bind_some]
        rw [ih _ _ _ (by omega) (by simp only [length_cons]; omega)]
        simp
      · simp only [bind_eq_bind, bind_some]
        rw [put_of_lt (by omega)]
        simp only [bind_some]
        rw [ih _ _ _ (by omega) (by simp only [length_cons]; omega)]
        simp
    · obtain rfl : value = 0 := by omega
      rw [put_digits, if_neg hv, Nat.digits_zero]
      rfl

/-- The loop for the precision. -/
theorem put_zeros_eq (precision : Int) : ∀ (turns : Nat) (buf : List UInt8), buf.length ≤ 63 →
      ∃ k, put_zeros precision turns buf = some (List.replicate k (ascii '0') ++ buf) ∧
        k + buf.length ≤ 63 ∧ (k = 0 ∨ (k + buf.length : Nat) ≤ precision) := by
  intro turns
  induction turns with
  | zero => exact fun buf h => ⟨0, rfl, by omega, .inl rfl⟩
  | succ turns ih =>
    intro buf h
    by_cases hcond : buf.length < precision ∧ buf.length < 63
    · obtain ⟨k, hk, hlen, hprec⟩ := ih (ascii '0' :: buf) hcond.2
      rw [length_cons] at hlen hprec
      refine ⟨k + 1, ?_, by omega, .inr (by omega)⟩
      rw [put_zeros, if_pos hcond, put_of_lt (by omega)]
      simp only [bind_eq_bind, bind_some, hk]
      rw [List.replicate_succ', List.append_assoc]
      rfl
    · exact ⟨0, if_neg hcond, by omega, .inl rfl⟩

/-- The buffer holds the numeral with its commas, after zeros, and does not overflow. -/
theorem integer_digits_eq (hb : b ∈ bases) {value : Nat} (hv : value < 2 ^ 64)
    (c : PrintfConversion) :
    ∃ k, integer_digits value b c = some (List.replicate k (ascii '0') ++
        (stamp c.flags.group b.group 0 (numeral b value).reverse).reverse) ∧
      k + (stamp c.flags.group b.group 0 (numeral b value).reverse).length ≤ 64 ∧
      (c.flags.pound = false → c.precision < 0 → k ≤ 1 - (numeral b value).length) := by
  have h8 := base_ge hb
  have h22 := length_digits_le hb hv
  have hrev : (numeral b value).reverse
      = (Nat.digits b.base value).map fun d => b.digits.getD d 0 := reverse_reverse _
  have hstamp := length_stamp_le c.flags.group b.group 0 (numeral b value).reverse
  have hlen : (numeral b value).reverse.length = (Nat.digits b.base value).length := by
    rw [hrev, length_map]
  have hput := put_digits_eq c.flags (show 2 ≤ b.base by omega) 64 value 0 [] (by omega)
    (by rw [length_nil]; omega)
  rw [← hrev, append_nil] at hput
  have hdigits := (length_filter_le (· ≠ ascii ',')
    (stamp c.flags.group b.group 0 (numeral b value).reverse))
  rw [filter_stamp (comma_not_mem hb value), length_reverse] at hdigits
  generalize stamp c.flags.group b.group 0 (numeral b value).reverse = ds at *
  obtain ⟨k, hk, hroom, hprec⟩ := put_zeros_eq (if c.precision < 0 then 1 else c.precision) 64
    ds.reverse (by rw [length_reverse]; omega)
  rw [length_reverse] at hroom hprec
  simp only [integer_digits, hput, hk, bind_eq_bind, bind_some]
  split_ifs with hpound
  · refine ⟨k + 1, ?_, by omega, fun h => ?_⟩
    · rw [put_of_lt (by simp; omega), List.replicate_succ, List.cons_append]
    · rw [h] at hpound
      exact absurd hpound.1 Bool.false_ne_true
  · refine ⟨k, rfl, by omega, fun _ hneg => ?_⟩
    rw [if_pos hneg] at hprec
    omega

end Buffer

/-! ### The output -/

section Output

variable {b : IntegerBase} {value : Nat} {c : PrintfConversion} {is_signed negative : Bool}

theorem integer_sign_cases (is_signed negative : Bool) (flags : PrintfFlags) :
    integer_sign is_signed negative flags ∈ [[], [ascii '+'], [ascii '-'], [ascii ' ']] := by
  rw [integer_sign]
  cases negative <;> split_ifs <;> simp

theorem integer_x_cases (hb : b ∈ bases) (value : Nat) (flags : PrintfFlags) :
    integer_x value b flags ∈ [[], [ascii '0', ascii 'x'], [ascii '0', ascii 'X']] := by
  rw [integer_x]
  simp only [bases, List.mem_cons, not_mem_nil, or_false] at hb
  rcases hb with rfl | rfl | rfl | rfl <;> split_ifs <;> simp_all [base_d, base_o, base_x, base_X]

/-- Leading zeros are dropped. -/
theorem strip_zeros {body : List UInt8} {m : Nat} (hhead : body.head? ≠ some (ascii '0')) :
    (List.replicate m (ascii '0') ++ body).dropWhile (· = ascii '0') = body := by
  rw [dropWhile_append_of_pos (by simp)]
  cases body with
  | nil => rfl
  | cons d body =>
    rw [dropWhile_cons_of_neg]
    simpa using hhead

theorem drop_sign_append {sign s : List UInt8} (hsign : sign ∈ [[], [ascii '+'], [ascii '-']])
    (hs : ∀ d ∈ s, d ≠ ascii '+' ∧ d ≠ ascii '-') : drop_sign (sign ++ s) = s := by
  simp only [List.mem_cons, not_mem_nil, or_false] at hsign
  rcases hsign with rfl | rfl | rfl
  · refine if_neg ?_
    rintro (h | h)
    · exact (hs _ (mem_of_mem_head? h)).1 rfl
    · exact (hs _ (mem_of_mem_head? h)).2 rfl
  · exact if_pos (.inl rfl)
  · exact if_pos (.inr rfl)

theorem drop_x_append {x s : List UInt8}
    (hx : x ∈ [[], [ascii '0', ascii 'x'], [ascii '0', ascii 'X']])
    (hs : ∀ d ∈ s, d ≠ ascii 'x' ∧ d ≠ ascii 'X') : drop_x (x ++ s) = s := by
  have hmem : ∀ d, s.take 2 = [ascii '0', d] → d ∈ s := fun d h =>
    mem_of_mem_take (h ▸ List.mem_cons_of_mem _ List.mem_cons_self)
  simp only [List.mem_cons, not_mem_nil, or_false] at hx
  rcases hx with rfl | rfl | rfl
  · refine if_neg ?_
    rintro (h | h)
    · exact (hs _ (hmem _ h)).1 rfl
    · exact (hs _ (hmem _ h)).2 rfl
  · exact if_pos (.inl rfl)
  · exact if_pos (.inr rfl)

/-- The text of an integer is stripped to what follows its zeros, less the commas. -/
theorem strip_text {sign x body : List UInt8} {left right m : Nat}
    (hsign : sign ∈ [[], [ascii '+'], [ascii '-'], [ascii ' ']])
    (hx : x ∈ [[], [ascii '0', ascii 'x'], [ascii '0', ascii 'X']])
    (hbody : ∀ d ∈ body, d ∉ [' ', '+', '-', 'x', 'X'].map ascii)
    (hhead : body.head? ≠ some (ascii '0')) :
    strip (List.replicate left (ascii ' ') ++ sign ++ x ++ List.replicate m (ascii '0') ++ body ++
      List.replicate right (ascii ' ')) = body.filter (· ≠ ascii ',') := by
  -- The spaces are the padding, and perhaps the sign.
  have hspaces : ∀ k, (List.replicate k (ascii ' ')).filter (· ≠ ascii ' ') = [] := by simp
  have hzeros : (List.replicate m (ascii '0')).filter (· ≠ ascii ' ')
      = List.replicate m (ascii '0') := by
    rw [filter_replicate_of_pos (by decide)]
  have hx' : x.filter (· ≠ ascii ' ') = x := by
    simp only [List.mem_cons, not_mem_nil, or_false] at hx
    rcases hx with rfl | rfl | rfl <;> decide
  have hbody' : body.filter (· ≠ ascii ' ') = body := List.filter_eq_self.mpr fun d hd => by
    have := hbody d hd
    simp_all
  have hsign' : sign.filter (· ≠ ascii ' ') ∈ [[], [ascii '+'], [ascii '-']] := by
    simp only [List.mem_cons, not_mem_nil, or_false] at hsign
    rcases hsign with rfl | rfl | rfl | rfl <;> decide
  have hrest : ∀ d ∈ List.replicate m (ascii '0') ++ body, d ∉ ['+', '-', 'x', 'X'].map ascii := by
    intro d hd
    rcases List.mem_append.mp hd with hd | hd
    · rw [eq_of_mem_replicate hd]
      decide
    · have := hbody d hd
      simp_all
  have hxs : ∀ d ∈ x ++ (List.replicate m (ascii '0') ++ body), d ≠ ascii '+' ∧ d ≠ ascii '-' := by
    intro d hd
    rcases List.mem_append.mp hd with hd | hd
    · simp only [List.mem_cons, not_mem_nil, or_false] at hx
      rcases hx with rfl | rfl | rfl
      · cases hd
      all_goals
        simp only [List.mem_cons, not_mem_nil, or_false] at hd
        rcases hd with rfl | rfl <;> decide
    · have := hrest d hd
      simp_all
  have hfilter : (List.replicate left (ascii ' ') ++ sign ++ x ++ List.replicate m (ascii '0') ++
      body ++ List.replicate right (ascii ' ')).filter (· ≠ ascii ' ')
      = sign.filter (· ≠ ascii ' ') ++ (x ++ (List.replicate m (ascii '0') ++ body)) := by
    simp only [filter_append, hspaces, hzeros, hx', hbody', nil_append, append_nil,
      List.append_assoc]
  rw [strip, hfilter, drop_sign_append hsign' hxs, drop_x_append hx fun d hd => by
    have := hrest d hd
    simp_all, strip_zeros hhead]

/-- The numeral with its commas has the characters of digits and commas, and no leading zero. -/
theorem stamped_numeral (hb : b ∈ bases) (group : Bool) (value : Nat) :
    (∀ d ∈ (stamp group b.group 0 (numeral b value).reverse).reverse,
        d ∉ [' ', '+', '-', 'x', 'X'].map ascii) ∧
      (stamp group b.group 0 (numeral b value).reverse).reverse.head? ≠ some (ascii '0') ∧
      (stamp group b.group 0 (numeral b value).reverse).reverse.filter (· ≠ ascii ',')
        = numeral b value := by
  refine ⟨fun d hd => ?_, ?_, ?_⟩
  · rcases mem_stamp (List.mem_reverse.mp hd) with rfl | hd
    · decide
    · have := mem_numeral hb (List.mem_reverse.mp hd)
      simp_all
  · rw [head?_reverse, getLast?_stamp, getLast?_reverse]
    exact head_numeral hb value
  · rw [filter_reverse, filter_stamp (comma_not_mem hb value), reverse_reverse]

/-- Formatting an integer keeps its value: the buffer of 64 characters does not overflow; without
padding, sign, `0x`, leading zeros and commas the output is the numeral of the value; and with the
grouping flag the commas separate the groups of its digits from the right. -/
theorem format_integer_numeral (value : Nat) (hv : value < 2 ^ 64) (is_signed negative : Bool)
    (b : IntegerBase) (hb : b ∈ bases) (c : PrintfConversion) :
    ∃ buf out, integer_digits value b c = some buf ∧ buf.length ≤ 64 ∧
      format_integer value is_signed negative b c = some out ∧
      strip out = numeral b value ∧
      (c.flags.group → ∃ before text after, out = before ++ text ++ after ∧
        ascii ',' ∉ before ∧ ascii ',' ∉ after ∧
        Grouped b.group (numeral b value).reverse text.reverse) := by
  obtain ⟨k, hk, hlen, -⟩ := integer_digits_eq hb hv c
  have hsign := integer_sign_cases is_signed negative c.flags
  have hx := integer_x_cases hb value c.flags
  obtain ⟨hchars, hhead, hfilter⟩ := stamped_numeral hb c.flags.group value
  have hgroup : c.flags.group → Grouped b.group (numeral b value).reverse
      (stamp c.flags.group b.group 0 (numeral b value).reverse).reverse.reverse := fun h => by
    rw [reverse_reverse, h]
    exact grouped_stamp (group_pos hb) _
  generalize (stamp c.flags.group b.group 0 (numeral b value).reverse) = ds at *
  generalize hs : integer_sign is_signed negative c.flags = sign at *
  generalize hxs : integer_x value b c.flags = x at *
  have htext : ∀ left z right, Field.text ⟨left, sign, x, z, List.replicate k (ascii '0') ++
      ds.reverse, right⟩ = List.replicate left (ascii ' ') ++ sign ++ x ++
        List.replicate (z + k) (ascii '0') ++ ds.reverse ++ List.replicate right (ascii ' ') := by
    intro left z right
    simp only [Field.text, replicate_add, List.append_assoc]
  refine ⟨_, _, hk, by simpa using hlen, by rw [format_integer, integer_field, hk, hs, hxs]; rfl,
    ?_, fun h => ?_⟩
  · rw [padded, htext, strip_text hsign hx hchars hhead, hfilter]
  · refine ⟨_, ds.reverse, _, by rw [padded, htext], ?_, ?_, hgroup h⟩
    · have hcomma : ∀ (c : Char) (k : Nat), ascii ',' ≠ ascii c →
          ascii ',' ∉ List.replicate k (ascii c) := fun c k hne hmem =>
        hne (eq_of_mem_replicate hmem)
      simp only [mem_append, not_or]
      refine ⟨⟨⟨hcomma _ _ (by decide), ?_⟩, ?_⟩, hcomma _ _ (by decide)⟩
      · simp only [List.mem_cons, not_mem_nil, or_false] at hsign
        rcases hsign with rfl | rfl | rfl | rfl <;> decide
      · simp only [List.mem_cons, not_mem_nil, or_false] at hx
        rcases hx with rfl | rfl | rfl <;> decide
    · exact fun hmem => absurd (eq_of_mem_replicate hmem) (by decide)

/-- A value with two commas, a sign and a width. -/
theorem format_integer_million :
    ∃ buf out, integer_digits 1234567 base_d ⟨{ group := true, plus := true }, 12, -1, .int⟩
        = some buf ∧ buf.length ≤ 64 ∧
      format_integer 1234567 true false base_d ⟨{ group := true, plus := true }, 12, -1, .int⟩
        = some out ∧
      strip out = numeral base_d 1234567 := by
  obtain ⟨buf, out, hbuf, hlen, hout, hstrip, -⟩ := format_integer_numeral 1234567 (by norm_num)
    true false base_d (by simp [bases]) ⟨{ group := true, plus := true }, 12, -1, .int⟩
  exact ⟨buf, out, hbuf, hlen, hout, hstrip⟩

end Output

end Pintos
