import Pintos.Lib.StdioInteger

/-!
# Lib — Field widths

Where an integer conversion of `__vprintf` honours its field width.  An `IntSpec` is a conversion
specification: flags, a width, a precision, a length modifier and one of `d i o u x X`.

* `parse_conversion_text`: what `parse_conversion` makes of a specification.
* `Honours`: the field has the width, or is as long as its characters are, padded on one side.
* `width_honoured_iff`: it is so but for a negative `*` width with the flag `0`, where `MINUS` is
  set after `ZERO` has been kept, and but for literal widths that are no `int`.
-/

namespace Pintos
open List

/-! ### Specifications -/

/-- A flag of a specification. -/
inductive SpecFlag where
  | minus | plus | space | pound | zero | group
  deriving DecidableEq

def SpecFlag.char : SpecFlag → UInt8
  | .minus => ascii '-'
  | .plus => ascii '+'
  | .space => ascii ' '
  | .pound => ascii '#'
  | .zero => ascii '0'
  | .group => 39

def SpecFlag.set (flags : PrintfFlags) : SpecFlag → PrintfFlags
  | .minus => { flags with minus := true }
  | .plus => { flags with plus := true }
  | .space => { flags with space := true }
  | .pound => { flags with pound := true }
  | .zero => { flags with zero := true }
  | .group => { flags with group := true }

/-- A number in a specification: its digits, or `*`. -/
inductive Number where
  | literal (ds : List (Fin 10))
  | star

/-- The characters of digits. -/
def digitText (ds : List (Fin 10)) : List UInt8 := ds.map fun d => UInt8.ofNat (48 + d.val)

/-- The number that digits stand for. -/
def decimal (ds : List (Fin 10)) : Nat := ds.foldl (fun n d => n * 10 + d.val) 0

def Number.text : Number → List UInt8
  | .literal ds => digitText ds
  | .star => [ascii '*']

/-- The number as an `int`: the digits modulo `2 ^ 32`, or the next argument. -/
def Number.read (args : List (BitVec 32)) : Number → Int
  | .literal ds => wrap32 (decimal ds)
  | .star => (args.headD 0).toInt

/-- The arguments after the number. -/
def Number.after (args : List (BitVec 32)) : Number → List (BitVec 32)
  | .literal _ => args
  | .star => args.tail

/-- The words of the number. -/
def Number.words : Number → Nat
  | .literal _ => 0
  | .star => 1

def ArgType.text : ArgType → List UInt8
  | .char => [ascii 'h', ascii 'h']
  | .short => [ascii 'h']
  | .int => []
  | .intmax => [ascii 'j']
  | .long => [ascii 'l']
  | .longlong => [ascii 'l', ascii 'l']
  | .ptrdifft => [ascii 't']
  | .sizet => [ascii 'z']

/-- The characters of the integer conversions. -/
inductive IntConv where
  | d | i | o | u | x | X

def IntConv.char : IntConv → UInt8
  | .d => ascii 'd'
  | .i => ascii 'i'
  | .o => ascii 'o'
  | .u => ascii 'u'
  | .x => ascii 'x'
  | .X => ascii 'X'

instance neZero_digits : NeZero 10 := ⟨by decide⟩

/-- An integer conversion specification.  A literal width does not start with a zero, which would be
a flag; no digits are no width. -/
structure IntSpec where
  flags : List SpecFlag
  width : Number
  leading : ∀ ds, width = .literal ds → ds.head? ≠ some 0
  precision : Option Number
  type : ArgType
  conv : IntConv

namespace IntSpec

variable (s : IntSpec)

/-- The characters of the precision. -/
def precisionText : List UInt8 :=
  match s.precision with
  | none => []
  | some n => ascii '.' :: n.text

/-- The specification, after its `%`. -/
def text : List UInt8 :=
  s.flags.map SpecFlag.char ++ s.width.text ++ s.precisionText ++ s.type.text ++ [s.conv.char]

/-- The width that is asked for. -/
def widthValue (args : List (BitVec 32)) : Int :=
  match s.width with
  | .literal ds => decimal ds
  | .star => (args.headD 0).toInt

/-- The precision that is read; a negative one is none. -/
def precisionValue (args : List (BitVec 32)) : Int :=
  match s.precision with
  | none => -1
  | some n => n.read (s.width.after args)

/-- The arguments after width and precision. -/
def values (args : List (BitVec 32)) : List (BitVec 32) :=
  match s.precision with
  | none => s.width.after args
  | some n => n.after (s.width.after args)

/-- The words of the value. -/
def valueWords : Nat :=
  match s.type with
  | .intmax | .longlong => 2
  | _ => 1

/-- The words on the stack that the specification needs. -/
def words : Nat := s.width.words + (s.precision.elim 0 Number.words) + s.valueWords

/-- The conversion that the specification is to be parsed as. -/
def conversion (args : List (BitVec 32)) : PrintfConversion :=
  let signed := sign_width (s.width.read args) (cancel_flags (s.flags.foldl SpecFlag.set {}))
  let precision := if s.precisionValue args < 0 then -1 else s.precisionValue args
  ⟨precision_flags precision signed.2, signed.1, precision, s.type⟩

/-- Padding is to stand on the right. -/
def LeftJustified (args : List (BitVec 32)) : Prop :=
  .minus ∈ s.flags ∨ s.width = .star ∧ s.widthValue args < 0

/-- Where a field with `n` characters besides its padding gets its width: a literal one is an `int`
(or its negative, left-justified), and a negative `*` comes without `0`, with `-`, with a precision
or with nothing to pad. -/
def Fits (args : List (BitVec 32)) (n : Nat) : Prop :=
  match s.width with
  | .literal ds => decimal ds < 2 ^ 31 ∨ decimal ds = 2 ^ 31 ∧ .minus ∈ s.flags ∧ 0 < n
  | .star => ¬ (s.widthValue args < 0 ∧ .zero ∈ s.flags ∧ .minus ∉ s.flags ∧
      s.precisionValue args < 0 ∧ n < (s.widthValue args).natAbs)

end IntSpec

/-- The sign, prefix, digit and comma characters of a field. -/
def Field.bare (f : Field) : Nat := f.sign.length + f.hex.length + f.digits.length

/-- The field is as long as the width asks, or as its characters are, with padding on one side only:
on the right if it is left-justified, else spaces on the left or zeros before the digits. -/
def Honours (width : Int) (left_justified : Prop) (f : Field) : Prop :=
  f.text.length = max width.natAbs f.bare ∧
    (left_justified → f.left = 0 ∧ f.zeros = 0) ∧
    (¬ left_justified → f.right = 0 ∧ (f.left = 0 ∨ f.zeros = 0))

/-! ### Parsing a specification -/

/-- What follows flags and a width: a point or a letter. -/
def Follows (s : List UInt8) : Prop := ∀ c, s.head? = some c → c = ascii '.' ∨ 65 ≤ c.toNat

section Parse

variable {rest : List UInt8} {args : List (BitVec 32)}

theorem parse_flag_char (f : SpecFlag) (flags : PrintfFlags) :
    parse_flag f.char flags = some (f.set flags) := by
  cases f <;> rfl

/-- The flag characters are taken one by one. -/
theorem parse_flags_text (fs : List SpecFlag) (flags : PrintfFlags)
    (h : ∀ c, rest.head? = some c → ∀ flags, parse_flag c flags = none) :
    parse_flags (fs.map SpecFlag.char ++ rest) flags = (fs.foldl SpecFlag.set flags, rest) := by
  induction fs generalizing flags with
  | nil =>
    cases rest with
    | nil => rfl
    | cons c rest => simp [parse_flags, h c rfl]
  | cons f fs ih =>
    rw [List.map_cons, List.cons_append, parse_flags, parse_flag_char]
    exact ih _

theorem isdigit_digit (d : Fin 10) : isdigit (UInt8.ofNat (48 + d.val)) = true := by
  revert d
  decide

theorem toNat_digit (d : Fin 10) : (UInt8.ofNat (48 + d.val)).toNat = 48 + d.val := by
  revert d
  decide

/-- The digits are read as a number, modulo `2 ^ 32`. -/
theorem parse_digits_text (ds : List (Fin 10)) (n : Nat)
    (h : ∀ c, rest.head? = some c → isdigit c = false) :
    parse_digits (digitText ds ++ rest) (wrap32 n)
      = (wrap32 (ds.foldl (fun n d => n * 10 + d.val) n : Nat), rest) := by
  induction ds generalizing n with
  | nil =>
    cases rest with
    | nil => rfl
    | cons c rest => simp [digitText, parse_digits, h c rfl]
  | cons d ds ih =>
    have hstep : wrap32 (wrap32 n * 10 + (UInt8.ofNat (48 + d.val)).toNat - 48)
        = wrap32 (n * 10 + d.val : Nat) := by
      rw [toNat_digit]
      simp only [wrap32, Int.bmod_def]
      omega
    rw [digitText, List.map_cons, List.cons_append, parse_digits, if_pos (isdigit_digit d), hstep]
    exact ih _

/-- A literal number, or the argument for `*`. -/
theorem parse_number_text (n : Number) (h : Follows rest) (hargs : n.words ≤ args.length) :
    parse_number (n.text ++ rest) args = some (n.read args, rest, n.after args) := by
  cases n with
  | literal ds =>
    have hstar : (digitText ds ++ rest).head? ≠ some (ascii '*') := by
      cases ds with
      | nil =>
        intro heq
        rcases h _ heq with h | h
        · exact absurd h (by decide)
        · exact absurd h (by decide)
      | cons d ds =>
        intro heq
        have hd : UInt8.ofNat (48 + d.val) = ascii '*' := Option.some.inj heq
        have := congrArg UInt8.toNat hd
        rw [toNat_digit] at this
        exact absurd this (by simp [ascii]; omega)
    have hzero : (0 : Int) = wrap32 (0 : Nat) := rfl
    rw [Number.text, parse_number, if_neg hstar, hzero, parse_digits_text ds 0 fun c hc => ?_]
    · rfl
    · rcases h c hc with rfl | h
      · decide
      · simp [isdigit]
        omega
  | star =>
    obtain ⟨w, args, rfl⟩ := exists_cons_of_length_pos hargs
    rfl

/-- The length modifier, before a conversion character. -/
theorem parse_type_text (type : ArgType) (conv : IntConv) :
    parse_type (type.text ++ conv.char :: rest) = (type, conv.char :: rest) := by
  cases type <;> cases conv <;> rfl

/-- A length modifier and a conversion character are letters. -/
theorem letter_type (type : ArgType) (conv : IntConv) (rest : List UInt8) (c : UInt8)
    (hc : (type.text ++ conv.char :: rest).head? = some c) : 65 ≤ c.toNat := by
  cases type <;> cases conv <;> (obtain rfl := Option.some.inj hc; decide)

theorem parse_precision_text (s : IntSpec) (rest : List UInt8) (args : List (BitVec 32))
    (hargs : s.precision.elim 0 Number.words ≤ (s.width.after args).length) :
    parse_precision (s.precisionText ++ (s.type.text ++ s.conv.char :: rest)) (s.width.after args)
      = some (if s.precisionValue args < 0 then -1 else s.precisionValue args,
        s.type.text ++ s.conv.char :: rest, s.values args) := by
  obtain ⟨flags, width, leading, precision, type, conv⟩ := s
  cases precision with
  | none =>
    rw [IntSpec.precisionText, nil_append, parse_precision, if_neg]
    · rfl
    · exact fun h => absurd (letter_type type conv rest _ h) (by decide)
  | some n =>
    have hfollows : Follows (type.text ++ conv.char :: rest) := fun c hc =>
      .inr (letter_type type conv rest c hc)
    rw [IntSpec.precisionText, List.cons_append, parse_precision, if_pos (head?_cons ..),
      tail_cons, parse_number_text n hfollows hargs]
    rfl

theorem minus_foldl (fs : List SpecFlag) (flags : PrintfFlags) :
    (fs.foldl SpecFlag.set flags).minus = (flags.minus || decide (.minus ∈ fs)) := by
  induction fs generalizing flags with
  | nil => simp
  | cons f fs ih =>
    rw [foldl_cons, ih]
    cases f <;> simp [SpecFlag.set]

theorem zero_foldl (fs : List SpecFlag) (flags : PrintfFlags) :
    (fs.foldl SpecFlag.set flags).zero = (flags.zero || decide (.zero ∈ fs)) := by
  induction fs generalizing flags with
  | nil => simp
  | cons f fs ih =>
    rw [foldl_cons, ih]
    cases f <;> simp [SpecFlag.set]

/-- No flag has the code of `*`, of a point, or a code above that of `0`. -/
theorem not_flag {c : UInt8} (h : c.toNat = 42 ∨ c.toNat = 46 ∨ 49 ≤ c.toNat) :
    c ≠ ascii '%' ∧ ∀ flags, parse_flag c flags = none := by
  have hne : ∀ d : UInt8, d.toNat ≠ 42 → d.toNat ≠ 46 → d.toNat < 49 → c ≠ d := by
    rintro d h₁ h₂ h₃ rfl
    omega
  refine ⟨hne _ (by decide) (by decide) (by decide), fun flags => ?_⟩
  simp only [parse_flag]
  iterate 6 rw [if_neg (hne _ (by decide) (by decide) (by decide))]

theorem follows_precision (s : IntSpec) (rest : List UInt8) :
    Follows (s.precisionText ++ (s.type.text ++ s.conv.char :: rest)) := by
  rw [IntSpec.precisionText]
  cases s.precision with
  | none => exact fun c hc => .inr (letter_type s.type s.conv rest c hc)
  | some n => exact fun c hc => .inl (Option.some.inj hc).symm

/-- The first character after the flags is no flag, nor a `%`. -/
theorem after_flags (s : IntSpec) (rest : List UInt8) (c : UInt8)
    (hc : (s.width.text ++ (s.precisionText ++ (s.type.text ++ s.conv.char :: rest))).head?
      = some c) :
    c ≠ ascii '%' ∧ ∀ flags, parse_flag c flags = none := by
  refine not_flag ?_
  have hlead := s.leading
  cases hw : s.width with
  | star =>
    rw [hw] at hc
    obtain rfl := Option.some.inj hc
    exact .inl rfl
  | literal ds =>
    rw [hw] at hc
    cases ds with
    | nil =>
      rcases follows_precision s rest c hc with rfl | h
      · exact .inr (.inl rfl)
      · omega
    | cons d ds =>
      obtain rfl := Option.some.inj hc
      have hd : d ≠ 0 := fun h => hlead _ hw (by rw [h]; rfl)
      rw [toNat_digit]
      omega

theorem length_after (n : Number) : (n.after args).length = args.length - n.words := by
  cases n with
  | literal _ => rfl
  | star => exact length_tail

theorem text_append (s : IntSpec) (rest : List UInt8) :
    s.text ++ rest = s.flags.map SpecFlag.char ++ (s.width.text ++ (s.precisionText ++
      (s.type.text ++ s.conv.char :: rest))) := by
  simp [IntSpec.text]

/-- A specification does not start with a `%`. -/
theorem text_head (s : IntSpec) (rest : List UInt8) :
    (s.text ++ rest).head? ≠ some (ascii '%') := by
  intro h
  rw [text_append] at h
  cases hf : s.flags with
  | nil =>
    rw [hf] at h
    exact (after_flags s rest _ h).1 rfl
  | cons f fs =>
    rw [hf] at h
    have hchar : f.char = ascii '%' := Option.some.inj h
    revert hchar
    cases f <;> decide

theorem cancel_flags_eq (flags : PrintfFlags) : (cancel_flags flags).minus = flags.minus ∧
      (cancel_flags flags).zero = (flags.zero && !flags.minus) := by
  simp only [cancel_flags]
  split_ifs <;> simp_all

theorem sign_width_eq (width : Int) (flags : PrintfFlags) :
    (sign_width width flags).1 = (if width < 0 then wrap32 (-width) else width) ∧
      (sign_width width flags).2.minus = (flags.minus || decide (width < 0)) ∧
      (sign_width width flags).2.zero = flags.zero := by
  rw [sign_width]
  split_ifs <;> simp_all

theorem precision_flags_eq (precision : Int) (flags : PrintfFlags) :
    (precision_flags precision flags).minus = flags.minus ∧
      (precision_flags precision flags).zero = (flags.zero && decide (precision < 0)) := by
  rw [precision_flags]
  split_ifs <;> simp_all

/-- What `parse_conversion` makes of a specification. -/
theorem parse_conversion_text (s : IntSpec) (rest : List UInt8) (hargs : s.words ≤ args.length) :
    parse_conversion (s.text ++ rest) args
      = some (s.conversion args, s.conv.char :: rest, s.values args) := by
  rw [IntSpec.words] at hargs
  have hflags := parse_flags_text s.flags {} fun c hc => (after_flags s rest c hc).2
  have hwidth := parse_number_text s.width (follows_precision s rest)
    (show s.width.words ≤ args.length by omega)
  have hprecision := parse_precision_text s rest args (by rw [length_after]; omega)
  rw [text_append, parse_conversion, hflags]
  dsimp only
  rw [hwidth]
  simp only [Option.bind_eq_bind, Option.bind_some, hprecision, parse_type_text]
  rfl

end Parse

/-! ### The field of a specification -/

section Fields

variable {args : List (BitVec 32)} {c : PrintfConversion}

/-- Enough words give a signed value. -/
theorem signed_value_returns (s : IntSpec) (h : s.valueWords ≤ args.length) :
    ∃ v args', signed_value s.type args = some (v, args') := by
  rw [IntSpec.valueWords] at h
  rcases args with _ | ⟨w, _ | ⟨w', args⟩⟩ <;> cases hs : s.type <;> rw [hs] at h <;>
    first | exact ⟨_, _, rfl⟩ | exact absurd h (by simp)

/-- Enough words give an unsigned value of 64 bits. -/
theorem unsigned_value_returns (s : IntSpec) (h : s.valueWords ≤ args.length) :
    ∃ v args', unsigned_value s.type args = some (v, args') ∧ v < 2 ^ 64 := by
  have hwide : ∀ {k} (w : BitVec k), k ≤ 64 → w.toNat < 2 ^ 64 := fun w hk =>
    w.isLt.trans_le (Nat.pow_le_pow_right (by omega) hk)
  rw [IntSpec.valueWords] at h
  rcases args with _ | ⟨w, _ | ⟨w', args⟩⟩ <;> cases hs : s.type <;> rw [hs] at h <;>
    first | exact ⟨_, _, rfl, hwide _ (by omega)⟩ | exact absurd h (by simp)

theorem integer_field_returns {b : IntegerBase} (hb : b ∈ bases) {value : Nat}
    (hv : value < 2 ^ 64) (is_signed negative : Bool) (c : PrintfConversion) :
    ∃ sign x digits, integer_field value is_signed negative b c = some (padded c sign x digits) ∧
      sign.length + x.length + digits.length ≤ 67 := by
  obtain ⟨k, hk, hlen, -⟩ := integer_digits_eq hb hv c
  have hsign : (integer_sign is_signed negative c.flags).length ≤ 1 := by
    have := integer_sign_cases is_signed negative c.flags
    simp only [List.mem_cons, not_mem_nil, or_false] at this
    rcases this with h | h | h | h <;> simp [h]
  have hx : (integer_x value b c.flags).length ≤ 2 := by
    have := integer_x_cases hb value c.flags
    simp only [List.mem_cons, not_mem_nil, or_false] at this
    rcases this with h | h | h <;> simp [h]
  refine ⟨_, _, _, by rw [integer_field, hk]; rfl, ?_⟩
  rw [length_append, length_replicate, length_reverse]
  omega

/-- An integer conversion makes a padded field of at most 67 characters. -/
theorem convert_integer_returns (s : IntSpec) (h : s.valueWords ≤ args.length)
    (hc : c.type = s.type) :
    ∃ sign x digits args', convert_integer s.conv.char c args
        = some (padded c sign x digits, args') ∧
      sign.length + x.length + digits.length ≤ 67 := by
  rw [convert_integer, hc]
  split
  · obtain ⟨v, args', hv⟩ := signed_value_returns s h
    have h64 : ((if v < 0 then -v else v) % 2 ^ 64).toNat < 2 ^ 64 := by omega
    obtain ⟨sign, x, digits, hf, hlen⟩ := integer_field_returns (b := base_d) (by simp [bases])
      h64 true (v < 0) c
    refine ⟨sign, x, digits, args', ?_, hlen⟩
    rw [hv]
    simp only [Option.bind_eq_bind, Option.bind_some, hf]
    rfl
  · obtain ⟨v, args', hv, hlt⟩ := unsigned_value_returns s h
    have hb : unsigned_base s.conv.char ∈ bases := by
      rw [unsigned_base]
      split_ifs <;> simp [bases]
    obtain ⟨sign, x, digits, hf, hlen⟩ := integer_field_returns hb hlt false false c
    refine ⟨sign, x, digits, args', ?_, hlen⟩
    rw [hv]
    simp only [Option.bind_eq_bind, Option.bind_some, hf]
    rfl

theorem length_text (f : Field) : f.text.length = f.bare + f.left + f.zeros + f.right := by
  simp only [Field.text, Field.bare, length_append, length_replicate]
  omega

/-- The number of pad characters for a width that is an `int`. -/
theorem pad_cnt_of_nonneg {width : Int} {n : Nat} (h : 0 ≤ width) (h' : width < 2 ^ 31)
    (hn : n ≤ 67) : (wrap32 (width - n)).toNat = width.toNat - n := by
  rw [wrap32_eq (by omega) (by omega)]
  omega

/-- For `INT_MIN` the subtraction wraps around. -/
theorem pad_cnt_of_min {n : Nat} (hn : n ≤ 67) :
    (wrap32 (-2 ^ 31 - n)).toNat = if n = 0 then 0 else 2 ^ 31 - n := by
  split
  · subst n
    rfl
  · simp only [wrap32, Int.bmod_def]
    omega

/-- A padded field honours a width exactly if its pad characters fill it, on one side. -/
theorem honours_padded_iff {sign x digits : List UInt8} {width : Int} {left_justified : Prop}
    {n pad : Nat} (hn : sign.length + x.length + digits.length = n)
    (hpad : (wrap32 (c.width - n)).toNat = pad) :
    Honours width left_justified (padded c sign x digits) ↔
      (n + (if !c.flags.minus && !c.flags.zero then pad else 0) +
          (if c.flags.zero then pad else 0) + (if c.flags.minus then pad else 0)
        = max width.natAbs n) ∧
      (left_justified → c.flags.minus ∧ ¬ c.flags.zero ∨ pad = 0) ∧
      (¬ left_justified → ¬ c.flags.minus ∨ pad = 0) := by
  have hwrap : c.width - digits.length - x.length - sign.length = c.width - (n : Int) := by omega
  rw [Honours, length_text]
  simp only [padded, Field.bare, hwrap, hpad, hn]
  cases c.flags.minus <;> cases c.flags.zero <;> simp

end Fields

/-! ### Where the width is honoured -/

section Widths

variable {args : List (BitVec 32)} {c : PrintfConversion} {sign x digits : List UInt8}
  {s : IntSpec}

/-- A conversion with the flags and the width of a specification: `MINUS` is set by the flag or by
a negative width, `ZERO` by the flag without the flag `-` and without a precision. -/
structure Parsed (s : IntSpec) (args : List (BitVec 32)) (c : PrintfConversion) : Prop where
  width : c.width = if s.width.read args < 0 then wrap32 (-s.width.read args)
    else s.width.read args
  minus : c.flags.minus = decide (.minus ∈ s.flags ∨ s.width.read args < 0)
  zero : c.flags.zero
    = decide (.zero ∈ s.flags ∧ .minus ∉ s.flags ∧ s.precisionValue args < 0)

theorem parsed_conversion (s : IntSpec) (args : List (BitVec 32)) :
    Parsed s args (s.conversion args) := by
  have hsigned := sign_width_eq (s.width.read args) (cancel_flags (s.flags.foldl SpecFlag.set {}))
  have hcancel := cancel_flags_eq (s.flags.foldl SpecFlag.set {})
  have hneg : decide ((if s.precisionValue args < 0 then -1 else s.precisionValue args) < 0)
      = decide (s.precisionValue args < 0) := by
    rw [decide_eq_decide]
    split <;> omega
  refine ⟨hsigned.1, ?_, ?_⟩
  · simp only [IntSpec.conversion, (precision_flags_eq _ _).1, hsigned.2.1, hcancel.1, minus_foldl]
    simp
  · simp only [IntSpec.conversion, (precision_flags_eq _ _).2, hsigned.2.2, hcancel.2, minus_foldl,
      zero_foldl, hneg]
    simp [Bool.and_assoc]

/-- A width that is read as nonnegative: the field fills it, on the side that the flags say. -/
theorem Parsed.honours_nonneg (h : Parsed s args c)
    (hlen : sign.length + x.length + digits.length ≤ 67) (hread : 0 ≤ s.width.read args)
    (hlt : s.width.read args < 2 ^ 31) {V : Int} {J : Prop} (hj : J ↔ .minus ∈ s.flags) :
    Honours V J (padded c sign x digits) ↔
      max (s.width.read args).natAbs (sign.length + x.length + digits.length)
        = max V.natAbs (sign.length + x.length + digits.length) := by
  have hneg : ¬ s.width.read args < 0 := by omega
  have hwidth := h.width
  rw [if_neg hneg] at hwidth
  have hpad := pad_cnt_of_nonneg hread hlt hlen
  rw [← hwidth] at hpad
  rw [honours_padded_iff rfl hpad, h.minus, h.zero, hj]
  generalize sign.length + x.length + digits.length = n at *
  by_cases hM : .minus ∈ s.flags
  · simp [hM]
    omega
  · by_cases hZ : .zero ∈ s.flags ∧ s.precisionValue args < 0
    · simp [hM, hZ, hneg]
      omega
    · simp [hM, hZ, hneg]
      omega

/-- A width that is read as negative: the padding is on the right, and before the digits too if
`ZERO` is left. -/
theorem Parsed.honours_neg (h : Parsed s args c) (hread : s.width.read args < 0) {V : Int}
    {J : Prop} {n pad : Nat} (hn : sign.length + x.length + digits.length = n)
    (hpad : (wrap32 (c.width - n)).toNat = pad) :
    Honours V J (padded c sign x digits) ↔
      n + (if .zero ∈ s.flags ∧ .minus ∉ s.flags ∧ s.precisionValue args < 0 then pad else 0) + pad
        = max V.natAbs n ∧
      (J → ¬ (.zero ∈ s.flags ∧ .minus ∉ s.flags ∧ s.precisionValue args < 0) ∨ pad = 0) ∧
      (¬ J → pad = 0) := by
  rw [honours_padded_iff hn hpad, h.minus, h.zero]
  simp [hread]

/-- A `*` width that is not `INT_MIN`. -/
theorem Parsed.honours_star (h : Parsed s args c)
    (hlen : sign.length + x.length + digits.length ≤ 67) (hs : s.width = .star)
    (hmin : s.widthValue args ≠ -2 ^ 31) :
    Honours (s.widthValue args) (s.LeftJustified args) (padded c sign x digits) ↔
      s.Fits args (sign.length + x.length + digits.length) := by
  have hval : s.widthValue args = s.width.read args := by
    simp only [IntSpec.widthValue, Number.read, hs]
  have hrange : -2 ^ 31 ≤ s.widthValue args ∧ s.widthValue args < 2 ^ 31 := by
    rw [IntSpec.widthValue, hs]
    exact ⟨BitVec.le_toInt _, BitVec.toInt_lt⟩
  have hfits : s.Fits args (sign.length + x.length + digits.length) ↔
      ¬ (s.widthValue args < 0 ∧ .zero ∈ s.flags ∧ .minus ∉ s.flags ∧ s.precisionValue args < 0 ∧
        sign.length + x.length + digits.length < (s.widthValue args).natAbs) := by
    rw [IntSpec.Fits, hs]
  rw [hfits]
  by_cases hneg : s.widthValue args < 0
  · have hj : s.LeftJustified args := .inr ⟨hs, hneg⟩
    have hwidth := h.width
    rw [← hval, if_pos hneg, wrap32_eq (by omega) (by omega)] at hwidth
    have hpad := pad_cnt_of_nonneg (show 0 ≤ -s.widthValue args by omega) (by omega) hlen
    rw [← hwidth] at hpad
    rw [h.honours_neg (by omega) rfl hpad, hwidth]
    generalize sign.length + x.length + digits.length = n at *
    simp only [hj, hneg, true_and, not_true_eq_false, false_implies, and_true, true_implies]
    by_cases hZ : .zero ∈ s.flags ∧ .minus ∉ s.flags ∧ s.precisionValue args < 0
    · simp only [hZ, not_false_eq_true, and_self, if_true, not_true_eq_false, false_or, true_and]
      omega
    · rw [if_neg hZ]
      refine iff_of_true ⟨by omega, .inl hZ⟩ fun hbad => hZ ⟨hbad.1, hbad.2.1, hbad.2.2.1⟩
  · have hj : s.LeftJustified args ↔ .minus ∈ s.flags := by
      rw [IntSpec.LeftJustified]
      tauto
    rw [h.honours_nonneg hlen (by omega) (by omega) hj, hval]
    exact iff_of_true rfl fun hbad => hneg (hval ▸ hbad.1)

/-- A literal width, which is read modulo `2 ^ 32`. -/
theorem Parsed.honours_literal (h : Parsed s args c)
    (hlen : sign.length + x.length + digits.length ≤ 67) {ds : List (Fin 10)}
    (hs : s.width = .literal ds) :
    Honours (s.widthValue args) (s.LeftJustified args) (padded c sign x digits) ↔
      s.Fits args (sign.length + x.length + digits.length) := by
  have hval : s.widthValue args = decimal ds := by simp only [IntSpec.widthValue, hs]
  have hread : s.width.read args = wrap32 (decimal ds) := by rw [hs, Number.read]
  have hrange := wrap32_range (decimal ds)
  have hj : s.LeftJustified args ↔ .minus ∈ s.flags := by
    simp only [IntSpec.LeftJustified, hs, reduceCtorEq, false_and, or_false]
  have hfits : s.Fits args (sign.length + x.length + digits.length) ↔ decimal ds < 2 ^ 31 ∨
      decimal ds = 2 ^ 31 ∧ .minus ∈ s.flags ∧ 0 < sign.length + x.length + digits.length := by
    rw [IntSpec.Fits, hs]
  rw [hfits, hval]
  by_cases hneg : wrap32 (decimal ds) < 0
  · have hlarge : 2 ^ 31 ≤ decimal ds := by
      by_contra hlt
      rw [wrap32_of_lt (by omega)] at hneg
      omega
    have hwidth := h.width
    rw [hread, if_pos hneg] at hwidth
    rw [h.honours_neg (by rw [hread]; exact hneg) rfl rfl, hj, hwidth]
    generalize sign.length + x.length + digits.length = n at *
    by_cases hM : .minus ∈ s.flags
    · simp only [hM, not_true_eq_false, false_and, and_false, if_false, not_false_eq_true, true_or,
        implies_true, false_implies, and_true, true_and, Nat.add_zero]
      by_cases hmin : wrap32 (decimal ds) = -2 ^ 31
      · have hwrap : wrap32 (- -2 ^ 31) = -2 ^ 31 := by decide
        rw [hmin, hwrap, pad_cnt_of_min hlen]
        split <;> omega
      · have hne : decimal ds ≠ 2 ^ 31 := fun heq => hmin (by rw [heq]; decide)
        rw [wrap32_eq (i := -wrap32 (decimal ds)) (by omega) (by omega),
          pad_cnt_of_nonneg (by omega) (by omega) hlen]
        refine iff_of_false (fun hlength => ?_) (by omega)
        rw [Int.natAbs_natCast, max_eq_left (by omega)] at hlength
        omega
    · -- The padding is on the right, where it should not be.
      simp only [hM, not_false_eq_true, true_implies, false_implies, true_and, false_and, and_false,
        or_false]
      refine iff_of_false ?_ (by omega)
      rintro ⟨hlength, hpad⟩
      rw [hpad] at hlength
      simp only [ite_self] at hlength
      omega
  · rw [h.honours_nonneg hlen (by omega) (by omega) hj, hread]
    generalize sign.length + x.length + digits.length = n at *
    by_cases hlt : decimal ds < 2 ^ 31
    · rw [wrap32_of_lt hlt]
      exact iff_of_true rfl (.inl hlt)
    · have hhuge : 2 ^ 32 ≤ decimal ds := by
        by_contra hle
        exact hneg (wrap32_neg (by omega) (by omega))
      exact iff_of_false (by omega) (by omega)

end Widths

/-- An integer conversion honours its field width exactly where `Fits` says. -/
theorem width_honoured_iff (s : IntSpec) (string : BitVec 32 → List UInt8) (rest : List UInt8)
    (args : List (BitVec 32)) (hargs : s.words ≤ args.length)
    (hmin : s.width = .star → s.widthValue args ≠ -2 ^ 31) :
    ∃ c f args',
      parse_conversion (s.text ++ rest) args = some (c, s.conv.char :: rest, s.values args) ∧
      convert_integer s.conv.char c (s.values args) = some (f, args') ∧
      __vprintf string (ascii '%' :: (s.text ++ rest)) args
        = (__vprintf string rest args').map (f.text ++ ·) ∧
      (Honours (s.widthValue args) (s.LeftJustified args) f ↔ s.Fits args f.bare) := by
  have hvalues : s.valueWords ≤ (s.values args).length := by
    rw [IntSpec.words] at hargs
    rw [IntSpec.values]
    cases hp : s.precision with
    | none =>
      rw [length_after]
      omega
    | some n =>
      rw [hp, Option.elim_some] at hargs
      rw [length_after, length_after]
      omega
  have hparse := parse_conversion_text s rest hargs
  obtain ⟨sign, x, digits, args', hconv, hlen⟩ := convert_integer_returns
    (c := s.conversion args) s hvalues rfl
  have hp := parsed_conversion s args
  refine ⟨_, _, args', hparse, hconv, vprintf_percent ?_ hparse ?_, ?_⟩
  · exact text_head s rest
  · rw [convert, if_pos (by cases s.conv <;> simp [IntConv.char]), hconv]
    rfl
  · cases hs : s.width with
    | literal ds => exact hp.honours_literal hlen hs
    | star => exact hp.honours_star hlen hs (hmin hs)

/-- `%0*d`. -/
def zeroStar : IntSpec := ⟨[.zero], .star, by simp, none, .int, .d⟩

/-- `%0*d` of 3 with the width 5. -/
theorem width_honoured_five :
    ∃ f args', __vprintf (fun _ => []) (ascii '%' :: (zeroStar.text ++ [])) [5, 3]
        = (__vprintf (fun _ => []) [] args').map (f.text ++ ·) ∧
      Honours (zeroStar.widthValue [5, 3]) (zeroStar.LeftJustified [5, 3]) f := by
  have hfive : zeroStar.widthValue [5, 3] = 5 := by decide
  obtain ⟨c, f, args', -, -, hprint, hiff⟩ := width_honoured_iff zeroStar (fun _ => []) [] [5, 3]
    (by decide) (fun _ => by rw [hfive]; decide)
  refine ⟨f, args', hprint, hiff.mpr fun hbad => ?_⟩
  rw [hfive] at hbad
  exact absurd hbad.1 (by decide)

/-- `%0*d` of 3 with the width -5 makes nine characters, not five: zeros before the digit, and
spaces after it. -/
theorem width_padded_twice : ∃ c f,
    parse_conversion zeroStar.text [-5, 3] = some (c, [zeroStar.conv.char], [3]) ∧
    convert_integer zeroStar.conv.char c [3] = some (f, []) ∧
    __vprintf (fun _ => []) (ascii '%' :: zeroStar.text) [-5, 3] = some f.text ∧
    f.text = List.replicate 4 (ascii '0') ++ [ascii '3'] ++ List.replicate 4 (ascii ' ') ∧
    ¬ Honours (zeroStar.widthValue [-5, 3]) (zeroStar.LeftJustified [-5, 3]) f :=
  ⟨_, _, rfl, rfl, by decide, by decide, fun h => absurd h.1 (by decide)⟩

end Pintos
