import Pintos.Lib.Stdint
import Mathlib.Data.BitVec
import Mathlib.Tactic.Common

/-!
# Lib — `printf`

`__vprintf` of `lib/stdio.c` and what it calls.  A format is a list of bytes without its null byte,
the variable arguments are the 32-bit words on the stack, a 64-bit argument being two of them; the
output is the list of characters that `output` is given.  `none` is a run that leaves its format,
its arguments or its buffer.

`vprintf_percent`: a conversion emits its characters and the rest of the format is handled from
there.
-/

namespace Pintos

/-! ### Conversions -/

/-- The ASCII code of a character. -/
def ascii (c : Char) : UInt8 := UInt8.ofNat c.toNat

/-- The flags of a conversion. -/
structure PrintfFlags where
  minus : Bool := false
  plus : Bool := false
  space : Bool := false
  pound : Bool := false
  zero : Bool := false
  group : Bool := false
  deriving DecidableEq

/-- The type of the argument to format. -/
inductive ArgType where
  /-- `hh` -/
  | char
  /-- `h` -/
  | short
  /-- no modifier -/
  | int
  /-- `j` -/
  | intmax
  /-- `l` -/
  | long
  /-- `ll` -/
  | longlong
  /-- `t` -/
  | ptrdifft
  /-- `z` -/
  | sizet
  deriving DecidableEq

/-- `struct printf_conversion`; a precision of -1 is none. -/
structure PrintfConversion where
  flags : PrintfFlags
  width : Int
  precision : Int
  type : ArgType
  deriving DecidableEq

/-- `struct integer_base`; `x` is 0 but for base 16. -/
structure IntegerBase where
  base : Nat
  digits : List UInt8
  x : UInt8
  group : Nat

/-- The decimal digits, with which the digits of all bases begin. -/
def decimals : List UInt8 := ['0', '1', '2', '3', '4', '5', '6', '7', '8', '9'].map ascii

def base_d : IntegerBase := ⟨10, decimals, 0, 3⟩
def base_o : IntegerBase := ⟨8, decimals.take 8, 0, 3⟩
def base_x : IntegerBase :=
  ⟨16, decimals ++ ['a', 'b', 'c', 'd', 'e', 'f'].map ascii, ascii 'x', 4⟩
def base_X : IntegerBase :=
  ⟨16, decimals ++ ['A', 'B', 'C', 'D', 'E', 'F'].map ascii, ascii 'X', 4⟩

/-! ### Variable arguments -/

/-- `va_arg` of a type of 32 bits. -/
def va_arg : List (BitVec 32) → Option (BitVec 32 × List (BitVec 32))
  | [] => none
  | w :: args => some (w, args)

/-- `va_arg` of a type of 64 bits: the low word comes first. -/
def va_arg_wide : List (BitVec 32) → Option (BitVec 64 × List (BitVec 32))
  | low :: high :: args => some (high ++ low, args)
  | _ => none

/-- The argument of a signed conversion. -/
def signed_value (type : ArgType) (args : List (BitVec 32)) :
    Option (Int × List (BitVec 32)) :=
  match type with
  | .char => (va_arg args).map fun (w, args) => ((w.setWidth 8).toInt, args)
  | .short => (va_arg args).map fun (w, args) => ((w.setWidth 16).toInt, args)
  | .int | .long | .ptrdifft => (va_arg args).map fun (w, args) => (w.toInt, args)
  | .intmax | .longlong => (va_arg_wide args).map fun (w, args) => (w.toInt, args)
  | .sizet => (va_arg args).map fun (w, args) =>
    let value : Int := w.toNat
    (if value > (2 ^ 32 - 1) / 2 then value - (2 ^ 32 - 1) - 1 else value, args)

/-- The argument of an unsigned conversion. -/
def unsigned_value (type : ArgType) (args : List (BitVec 32)) :
    Option (Nat × List (BitVec 32)) :=
  match type with
  | .char => (va_arg args).map fun (w, args) => ((w.setWidth 8).toNat, args)
  | .short => (va_arg args).map fun (w, args) => ((w.setWidth 16).toNat, args)
  | .int | .long | .sizet => (va_arg args).map fun (w, args) => (w.toNat, args)
  | .intmax | .longlong => (va_arg_wide args).map fun (w, args) => (w.toNat, args)
  | .ptrdifft => (va_arg args).map fun (w, args) =>
    ((w.signExtend 64 &&& (((2 ^ 31 - 1) <<< 1) ||| 1)).toNat, args)

/-! ### `parse_conversion` -/

/-- One flag character. -/
def parse_flag (c : UInt8) (flags : PrintfFlags) : Option PrintfFlags :=
  if c = ascii '-' then some { flags with minus := true }
  else if c = ascii '+' then some { flags with plus := true }
  else if c = ascii ' ' then some { flags with space := true }
  else if c = ascii '#' then some { flags with pound := true }
  else if c = ascii '0' then some { flags with zero := true }
  -- the apostrophe
  else if c = 39 then some { flags with group := true }
  else none

/-- The loop over the flag characters. -/
def parse_flags : List UInt8 → PrintfFlags → PrintfFlags × List UInt8
  | [], flags => (flags, [])
  | c :: format, flags =>
    match parse_flag c flags with
    | some flags => parse_flags format flags
    | none => (flags, c :: format)

def isdigit (c : UInt8) : Bool := 48 ≤ c.toNat && c.toNat ≤ 57

/-- The loop over the digits of a width or a precision. -/
def parse_digits : List UInt8 → Int → Int × List UInt8
  | [], n => (n, [])
  | c :: format, n =>
    if isdigit c then parse_digits format (wrap32 (n * 10 + c.toNat - 48)) else (n, c :: format)

/-- A number in the format, or an argument for `*`. -/
def parse_number (format : List UInt8) (args : List (BitVec 32)) :
    Option (Int × List UInt8 × List (BitVec 32)) :=
  if format.head? = some (ascii '*') then
    (va_arg args).map fun (w, args) => (w.toInt, format.tail, args)
  else
    let (n, format) := parse_digits format 0
    some (n, format, args)

/-- The precision, if there is one. -/
def parse_precision (format : List UInt8) (args : List (BitVec 32)) :
    Option (Int × List UInt8 × List (BitVec 32)) :=
  if format.head? = some (ascii '.') then
    (parse_number format.tail args).map fun (precision, format, args) =>
      (if precision < 0 then -1 else precision, format, args)
  else some (-1, format, args)

/-- The length modifier. -/
def parse_type : List UInt8 → ArgType × List UInt8
  | [] => (.int, [])
  | c :: format =>
    if c = ascii 'h' then
      if format.head? = some (ascii 'h') then (.char, format.tail) else (.short, format)
    else if c = ascii 'j' then (.intmax, format)
    else if c = ascii 'l' then
      if format.head? = some (ascii 'l') then (.longlong, format.tail) else (.long, format)
    else if c = ascii 't' then (.ptrdifft, format)
    else if c = ascii 'z' then (.sizet, format)
    else (.int, c :: format)

/-- `-` cancels `0`, and `+` cancels a space. -/
def cancel_flags (flags : PrintfFlags) : PrintfFlags :=
  let flags := if flags.minus then { flags with zero := false } else flags
  if flags.plus then { flags with space := false } else flags

/-- A negative width is a width with the flag `-`. -/
def sign_width (width : Int) (flags : PrintfFlags) : Int × PrintfFlags :=
  if width < 0 then (wrap32 (-width), { flags with minus := true }) else (width, flags)

/-- A precision cancels `0`. -/
def precision_flags (precision : Int) (flags : PrintfFlags) : PrintfFlags :=
  if precision ≥ 0 then { flags with zero := false } else flags

/-- Parse the conversion options: the conversion, the format from its character on, and the
arguments that are left. -/
def parse_conversion (format : List UInt8) (args : List (BitVec 32)) :
    Option (PrintfConversion × List UInt8 × List (BitVec 32)) := do
  let (flags, format) := parse_flags format {}
  let flags := cancel_flags flags
  let (width, format, args) ← parse_number format args
  let (width, flags) := sign_width width flags
  let (precision, format, args) ← parse_precision format args
  let flags := precision_flags precision flags
  let (type, format) := parse_type format
  return (⟨flags, width, precision, type⟩, format, args)

/-! ### `format_integer` -/

/-- Store a character in the buffer of 64 characters.  The last one stored comes first, as it is
output. -/
def put (c : UInt8) (buf : List UInt8) : Option (List UInt8) :=
  if buf.length < 64 then some (c :: buf) else none

/-- The digits of `value`, the last one first.  A 64-bit value has at most 64 of them. -/
def put_digits (b : IntegerBase) (flags : PrintfFlags) :
    (turns value digit_cnt : Nat) → List UInt8 → Option (List UInt8)
  | 0, value, _, buf => if value > 0 then none else some buf
  | turns + 1, value, digit_cnt, buf =>
    if value > 0 then do
      let buf ← if flags.group ∧ digit_cnt > 0 ∧ digit_cnt % b.group = 0 then put (ascii ',') buf
        else some buf
      let buf ← put (b.digits.getD (value % b.base) 0) buf
      put_digits b flags turns (value / b.base) (digit_cnt + 1) buf
    else some buf

/-- Zeros to match the precision, as far as there is room: at most 63. -/
def put_zeros (precision : Int) : (turns : Nat) → List UInt8 → Option (List UInt8)
  | 0, buf => some buf
  | turns + 1, buf =>
    if buf.length < precision ∧ buf.length < 63 then do
      let buf ← put (ascii '0') buf
      put_zeros precision turns buf
    else some buf

/-- The contents of the buffer. -/
def integer_digits (value : Nat) (b : IntegerBase) (c : PrintfConversion) :
    Option (List UInt8) := do
  let buf ← put_digits b c.flags 64 value 0 []
  let precision := if c.precision < 0 then 1 else c.precision
  let buf ← put_zeros precision 64 buf
  if c.flags.pound ∧ b.base = 8 ∧ buf.head? ≠ some (ascii '0') then put (ascii '0') buf
  else some buf

/-- The sign character, if any. -/
def integer_sign (is_signed negative : Bool) (flags : PrintfFlags) : List UInt8 :=
  if is_signed then
    if flags.plus then [ascii (if negative then '-' else '+')]
    else if flags.space then [ascii (if negative then '-' else ' ')]
    else if negative then [ascii '-']
    else []
  else []

/-- `0x` or `0X`, if it is included. -/
def integer_x (value : Nat) (b : IntegerBase) (flags : PrintfFlags) : List UInt8 :=
  if flags.pound ∧ value ≠ 0 ∧ b.x ≠ 0 then [ascii '0', b.x] else []

/-- What a conversion outputs, in this order. -/
structure Field where
  left : Nat
  sign : List UInt8
  hex : List UInt8
  zeros : Nat
  digits : List UInt8
  right : Nat

/-- The characters of a field. -/
def Field.text (f : Field) : List UInt8 :=
  List.replicate f.left (ascii ' ') ++ f.sign ++ f.hex ++ List.replicate f.zeros (ascii '0') ++
    f.digits ++ List.replicate f.right (ascii ' ')

/-- Fill the field width with pad characters. -/
def padded (c : PrintfConversion) (sign x digits : List UInt8) : Field :=
  let pad_cnt := (wrap32 (c.width - digits.length - x.length - sign.length)).toNat
  { left := if !c.flags.minus && !c.flags.zero then pad_cnt else 0
    sign := sign
    hex := x
    zeros := if c.flags.zero then pad_cnt else 0
    digits := digits
    right := if c.flags.minus then pad_cnt else 0 }

/-- The field of an integer. -/
def integer_field (value : Nat) (is_signed negative : Bool) (b : IntegerBase)
    (c : PrintfConversion) : Option Field :=
  (integer_digits value b c).map
    (padded c (integer_sign is_signed negative c.flags) (integer_x value b c.flags))

/-- An integer conversion of the absolute value `value`. -/
def format_integer (value : Nat) (is_signed negative : Bool) (b : IntegerBase)
    (c : PrintfConversion) : Option (List UInt8) :=
  (integer_field value is_signed negative b c).map Field.text

/-! ### `__vprintf` -/

/-- The characters of a string, padded to the width. -/
def format_string (string : List UInt8) (c : PrintfConversion) : List UInt8 :=
  let pad := List.replicate (c.width - string.length).toNat (ascii ' ')
  (if !c.flags.minus then pad else []) ++ string ++ if c.flags.minus then pad else []

/-- The base of an unsigned conversion. -/
def unsigned_base (conv : UInt8) : IntegerBase :=
  if conv = ascii 'o' then base_o
  else if conv = ascii 'u' then base_d
  else if conv = ascii 'x' then base_x
  else base_X

/-- The field of an integer conversion with the character `conv`, and the arguments left. -/
def convert_integer (conv : UInt8) (c : PrintfConversion) (args : List (BitVec 32)) :
    Option (Field × List (BitVec 32)) :=
  if conv = ascii 'd' ∨ conv = ascii 'i' then do
    let (value, args) ← signed_value c.type args
    let abs := ((if value < 0 then -value else value) % 2 ^ 64).toNat
    let field ← integer_field abs true (value < 0) base_d c
    return (field, args)
  else do
    let (value, args) ← unsigned_value c.type args
    let field ← integer_field value false false (unsigned_base conv) c
    return (field, args)

/-- The message for a conversion that is not done. -/
def no_conversion (conv : UInt8) (what : List Char) : List UInt8 :=
  ['<', '<', 'n', 'o', ' ', '%'].map ascii ++ conv :: what.map ascii ++ ['>', '>'].map ascii

/-- Do the conversion with the character `conv`.  `string` gives the string at an address. -/
def convert (string : BitVec 32 → List UInt8) (conv : UInt8) (c : PrintfConversion)
    (args : List (BitVec 32)) : Option (List UInt8 × List (BitVec 32)) :=
  if conv ∈ ['d', 'i', 'o', 'u', 'x', 'X'].map ascii then
    (convert_integer conv c args).map fun (field, args) => (field.text, args)
  else if conv = ascii 'c' then
    (va_arg args).map fun (w, args) => (format_string [UInt8.ofNat w.toNat] c, args)
  else if conv = ascii 's' then
    (va_arg args).map fun (w, args) =>
      let s := if w = 0 then ['(', 'n', 'u', 'l', 'l', ')'].map ascii else string w
      -- a precision of -1 is `SIZE_MAX` for `strnlen`
      (format_string (s.take (c.precision % 2 ^ 32).toNat) c, args)
  else if conv = ascii 'p' then do
    let (w, args) ← va_arg args
    let out ← format_integer w.toNat false false base_x { c with flags := { pound := true } }
    return (out, args)
  else if conv ∈ ['f', 'e', 'E', 'g', 'G', 'n'].map ascii then
    some (no_conversion conv [' ', 'i', 'n', ' ', 'k', 'e', 'r', 'n', 'e', 'l'], args)
  else some (no_conversion conv [' ', 'c', 'o', 'n', 'v', 'e', 'r', 's', 'i', 'o', 'n'], args)

/-- The loop of `__vprintf`; each turn takes at least one character of the format. -/
def vprintf_loop (string : BitVec 32 → List UInt8) :
    (turns : Nat) → List UInt8 → List (BitVec 32) → Option (List UInt8)
  | _, [], _ => some []
  | 0, _ :: _, _ => none
  | turns + 1, c :: format, args =>
    if c ≠ ascii '%' then (vprintf_loop string turns format args).map (c :: ·)
    else if format.head? = some (ascii '%') then
      (vprintf_loop string turns format.tail args).map (ascii '%' :: ·)
    else do
      let (c, format, args) ← parse_conversion format args
      -- A conversion character that is missing is the null byte, and the loop passes it.
      let conv ← format.head?
      let (out, args) ← convert string conv c args
      let rest ← vprintf_loop string turns format.tail args
      return out ++ rest

/-- The output of `__vprintf`. -/
def __vprintf (string : BitVec 32 → List UInt8) (format : List UInt8) (args : List (BitVec 32)) :
    Option (List UInt8) :=
  vprintf_loop string format.length format args

/-! ### One conversion of a format -/

section Loop

variable {string : BitVec 32 → List UInt8} {format rest : List UInt8}
  {args args' : List (BitVec 32)} {c : PrintfConversion}

theorem length_parse_flags (format : List UInt8) (flags : PrintfFlags) :
    (parse_flags format flags).2.length ≤ format.length := by
  induction format generalizing flags with
  | nil => exact le_rfl
  | cons c format ih =>
    rw [parse_flags]
    split
    · exact (ih _).trans (Nat.le_succ _)
    · exact le_rfl

theorem length_parse_digits (format : List UInt8) (n : Int) :
    (parse_digits format n).2.length ≤ format.length := by
  induction format generalizing n with
  | nil => exact le_rfl
  | cons c format ih =>
    rw [parse_digits]
    split
    · exact (ih _).trans (Nat.le_succ _)
    · exact le_rfl

theorem length_parse_number {n : Int} (h : parse_number format args = some (n, rest, args')) :
    rest.length ≤ format.length := by
  rw [parse_number] at h
  split at h
  · obtain ⟨⟨w, args₁⟩, -, heq⟩ := Option.map_eq_some_iff.mp h
    obtain ⟨-, rfl, -⟩ := by simpa using heq
    rw [List.length_tail]
    omega
  · obtain ⟨-, rfl, -⟩ := by simpa using h
    exact length_parse_digits ..

theorem length_parse_precision {n : Int}
    (h : parse_precision format args = some (n, rest, args')) : rest.length ≤ format.length := by
  rw [parse_precision] at h
  split at h
  · obtain ⟨⟨m, rest₁, args₁⟩, hnum, heq⟩ := Option.map_eq_some_iff.mp h
    obtain ⟨-, rfl, -⟩ := by simpa using heq
    have := length_parse_number hnum
    rw [List.length_tail] at this
    omega
  · obtain ⟨-, rfl, -⟩ := by simpa using h
    exact le_rfl

theorem length_parse_type (format : List UInt8) : (parse_type format).2.length ≤ format.length := by
  cases format with
  | nil => exact le_rfl
  | cons c format =>
    rw [parse_type]
    split_ifs <;> simp only [List.length_tail, List.length_cons] <;> omega

/-- Parsing goes forward in the format. -/
theorem length_parse_conversion (h : parse_conversion format args = some (c, rest, args')) :
    rest.length ≤ format.length := by
  simp only [parse_conversion, Option.bind_eq_bind, Option.bind_eq_some_iff, Prod.exists] at h
  obtain ⟨width, format₁, args₁, hwidth, precision, format₂, args₂, hprec, hret⟩ := h
  obtain ⟨-, rfl, -⟩ := by simpa using hret
  have h₁ := length_parse_flags format {}
  have h₂ := length_parse_number hwidth
  have h₃ := length_parse_precision hprec
  have h₄ := length_parse_type format₂
  omega

/-- As many turns as the format has characters are enough. -/
theorem vprintf_loop_turns (turns turns' : Nat) (h : format.length ≤ turns)
    (h' : format.length ≤ turns') :
    vprintf_loop string turns format args = vprintf_loop string turns' format args := by
  induction turns generalizing turns' format args with
  | zero =>
    obtain rfl : format = [] := List.eq_nil_of_length_eq_zero (Nat.le_zero.mp h)
    rw [vprintf_loop, vprintf_loop]
  | succ turns ih =>
    cases format with
    | nil => rw [vprintf_loop, vprintf_loop]
    | cons c format =>
      obtain ⟨turns', rfl⟩ : ∃ n, turns' = n + 1 := ⟨turns' - 1, by simp at h'; omega⟩
      simp only [List.length_cons, Nat.add_le_add_iff_right] at h h'
      have htail : format.tail.length ≤ format.length := by simp
      rw [vprintf_loop, vprintf_loop, ih turns' h h', ih turns' (htail.trans h) (htail.trans h')]
      split_ifs
      · rfl
      · rfl
      · cases hparse : parse_conversion format args with
        | none => rfl
        | some p =>
          obtain ⟨c', rest, args'⟩ := p
          have hlen := length_parse_conversion hparse
          have hrest : rest.tail.length ≤ rest.length := by simp
          simp only [Option.bind_eq_bind, Option.bind_some]
          refine Option.bind_congr fun conv _ => Option.bind_congr fun q _ => ?_
          rw [ih turns' (by omega) (by omega)]

/-- A conversion emits its characters, and the rest of the format is handled from there. -/
theorem vprintf_percent {conv : UInt8} {args₁ args₂ : List (BitVec 32)} {out : List UInt8}
    (hpercent : format.head? ≠ some (ascii '%'))
    (hparse : parse_conversion format args = some (c, conv :: rest, args₁))
    (hconvert : convert string conv c args₁ = some (out, args₂)) :
    __vprintf string (ascii '%' :: format) args = (__vprintf string rest args₂).map (out ++ ·) := by
  have hlen := length_parse_conversion hparse
  rw [List.length_cons] at hlen
  rw [__vprintf, __vprintf, List.length_cons, vprintf_loop, if_neg (not_not.mpr rfl),
    if_neg hpercent, hparse]
  simp only [Option.bind_eq_bind, Option.bind_some, List.head?_cons, List.tail_cons, hconvert]
  rw [vprintf_loop_turns format.length rest.length (by omega) le_rfl]
  cases vprintf_loop string rest.length rest args₂ <;> rfl

end Loop

end Pintos
