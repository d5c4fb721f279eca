import Pintos.Lib.Ustar
import Pintos.Lib.StdioWidth

/-!
# Lib — Archive headers are printed and parsed

The octal fields of a `ustar` header are printed by `snprintf` and parsed again by
`parse_octal_field`.

* `vprintf_octal`: what `__vprintf` makes of `%0<width>o` are the characters that the model of the
  header stores.
* `ustar_round_trip`: a header that `ustar_make_header` composes is parsed as the stripped name, the
  type and the size.
-/

namespace Pintos
open List Option

/-! ### Printing in octal -/

/-- `%0<width>o`. -/
def octalSpec (ds : List (Fin 10)) (h : ds.head? ≠ some 0) : IntSpec :=
  ⟨[.zero], .literal ds, fun _ he => by cases he; exact h, none, .int, .o⟩

/-- The octal digits with zeros before them are the numeral with zeros before it. -/
theorem octal_eq (width value : Nat) :
    octal width value = List.replicate (width - (numeral base_o value).length) (ascii '0') ++
      numeral base_o value := by
  have hchar : ∀ d ∈ Nat.digits 8 value, UInt8.ofNat (48 + d) = base_o.digits.getD d 0 := by
    have hall : ∀ d < 8, UInt8.ofNat (48 + d) = base_o.digits.getD d 0 := by decide
    exact fun d hd => hall d (Nat.digits_lt_base (by norm_num) hd)
  have hlen : (numeral base_o value).length = (Nat.digits 8 value).length := by
    rw [numeral, length_reverse, length_map]
    rfl
  rw [octal, Nat.digitsAppend, List.reverse_append, map_append, hlen]
  congr 1
  · rw [List.reverse_replicate, map_replicate]
    rfl
  · rw [numeral, ← map_reverse]
    exact map_congr_left fun d hd => hchar d (List.mem_reverse.mp hd)

/-- The field of a value in octal. -/
theorem integer_field_octal {width : Nat} (hpos : 0 < width) (hlt : width < 2 ^ 31) {value : Nat}
    (hv : value < 2 ^ 32) :
    (integer_field value false false base_o ⟨{ zero := true }, width, -1, .int⟩).map Field.text
      = some (octal width value) := by
  have hb : base_o ∈ bases := by simp [bases]
  obtain ⟨k, hk, hlen, hzeros⟩ := integer_digits_eq hb (show value < 2 ^ 64 by omega)
    ⟨{ zero := true }, width, -1, .int⟩
  rw [stamp_false, reverse_reverse] at hk
  rw [stamp_false, length_reverse] at hlen
  have hk1 := hzeros rfl (show (-1 : Int) < 0 by decide)
  have hx : integer_x value base_o { zero := true } = [] := if_neg (by simp)
  have hpad := pad_cnt_of_nonneg (show (0 : Int) ≤ width by omega) (by omega)
    (show k + (numeral base_o value).length ≤ 67 by omega)
  have hfield : padded ⟨{ zero := true }, width, -1, .int⟩ [] []
      (List.replicate k (ascii '0') ++ numeral base_o value)
      = ⟨0, [], [], width - (k + (numeral base_o value).length),
        List.replicate k (ascii '0') ++ numeral base_o value, 0⟩ := by
    simp only [padded, length_append, length_replicate, length_nil, Nat.cast_zero,
      Int.sub_zero, hpad]
    rfl
  have hsum : width - (numeral base_o value).length
      = width - (k + (numeral base_o value).length) + k := by omega
  rw [integer_field, hk, hx]
  simp only [map_some, integer_sign, Bool.false_eq_true, if_false, hfield, Field.text]
  rw [octal_eq, hsum, replicate_add]
  simp only [List.replicate_zero, nil_append, append_nil, List.append_assoc]

/-- `__vprintf` prints a value in octal, with zeros up to the width. -/
theorem vprintf_octal (string : BitVec 32 → List UInt8) {ds : List (Fin 10)}
    (hds : ds.head? ≠ some 0) (hpos : 0 < decimal ds) (hlt : decimal ds < 2 ^ 31)
    (value : BitVec 32) :
    __vprintf string (ascii '%' :: ascii '0' :: (digitText ds ++ [ascii 'o'])) [value]
      = some (octal (decimal ds) value.toNat) := by
  have htext : ascii '0' :: (digitText ds ++ [ascii 'o']) = (octalSpec ds hds).text ++ [] := by
    simp [IntSpec.text, octalSpec, SpecFlag.char, Number.text, IntSpec.precisionText, ArgType.text,
      IntConv.char]
  have hparse := parse_conversion_text (octalSpec ds hds) []
    (show (octalSpec ds hds).words ≤ [value].length from Nat.le_refl 1)
  have hconv : (octalSpec ds hds).conversion [value]
      = ⟨{ zero := true }, decimal ds, -1, .int⟩ := by
    have hread : (octalSpec ds hds).width.read [value] = decimal ds := by
      rw [octalSpec, Number.read, wrap32_of_lt hlt]
    have hsign : ∀ flags, sign_width (decimal ds) flags = ((decimal ds : Int), flags) :=
      fun flags => if_neg (by omega)
    rw [IntSpec.conversion, hread, hsign]
    rfl
  have hconvert : convert string (ascii 'o') ⟨{ zero := true }, decimal ds, -1, .int⟩ [value]
      = some (octal (decimal ds) value.toNat, []) := by
    obtain ⟨f, hf, htext⟩ := Option.map_eq_some_iff.mp (integer_field_octal hpos hlt value.isLt)
    have hbase : unsigned_base (ascii 'o') = base_o := rfl
    have hvalue : unsigned_value .int [value] = some (value.toNat, []) := rfl
    rw [convert, if_pos (by simp), convert_integer, if_neg (by decide), hvalue, hbase]
    simp only [bind_eq_bind, bind_some, hf]
    rw [← htext]
    rfl
  rw [hconv] at hparse
  rw [htext, vprintf_percent (text_head _ _) hparse hconvert, __vprintf, vprintf_loop]
  simp

/-! ### The round trip -/

/-- What `ustar_parse_header` stores for an entry: the name, the type and the size. -/
def UstarEntry.stored : UstarEntry → Option (List UInt8) × UstarType × Nat
  | .eof => (none, .eof, 0)
  | .directory file_name => (some file_name, .directory, 0)
  | .regular file_name size => (some file_name, .regular, size)

/-- Headers round-trip: what `ustar_make_header` composes for a file name, a type and a size is
parsed as the stripped name, the type and the size, which is 0 for a directory.  The octal fields
are the characters that `__vprintf` prints. -/
theorem ustar_round_trip (file_name : List UInt8) (hname : 0 ∉ file_name) (type : UstarType)
    (htype : type = .regular ∨ type = .directory) (size : Nat) (hsize : size < 2 ^ 31)
    (h : UstarHeader) (hmake : ustar_make_header file_name type size = some h) :
    (∃ entry, ustar_parse_header h = .ok entry ∧
        entry.stored = (some (strip_antisocial_prefixes file_name), type,
          if type = .directory then 0 else size)) ∧
      strip_antisocial_prefixes file_name ≠ [] ∧
      strip_antisocial_prefixes file_name ≠ ['.', '.'].map ascii ∧
      (∀ start ∈ [['/'], ['.', '/'], ['.', '.', '/']],
        ¬ start.map ascii <+: strip_antisocial_prefixes file_name) ∧
      (∀ string (value : BitVec 32),
        __vprintf string (['%', '0', '7', 'o'].map ascii) [value] = some (octal 7 value.toNat) ∧
        __vprintf string (['%', '0', '1', '1', 'o'].map ascii) [value]
          = some (octal 11 value.toNat)) := by
  have hlen : (strip_antisocial_prefixes file_name).length ≤ 99 := by
    rw [ustar_make_header] at hmake
    split at hmake
    · cases hmake
    · omega
  have hneof : type ≠ .eof := by rcases htype with rfl | rfl <;> decide
  obtain ⟨h', hmake', hparse⟩ := ustar_parse_make_header_entry hname hneof hlen hsize
  obtain rfl : h' = h := Option.some.inj (hmake'.symm.trans hmake)
  obtain ⟨hsocial, hne, hdots⟩ := strip_clean file_name
  refine ⟨⟨_, hparse, ?_⟩, hne, hdots, ?_, fun string value => ⟨?_, ?_⟩⟩
  · rcases htype with rfl | rfl <;> rfl
  · simp only [antisocial, Bool.or_eq_false_iff, decide_eq_false_iff_not] at hsocial
    obtain ⟨⟨hslash, hdot⟩, hdotdot⟩ := hsocial
    intro start hstart hpre
    have htake := List.prefix_iff_eq_take.mp hpre
    simp only [List.mem_cons, not_mem_nil, or_false] at hstart
    rcases hstart with rfl | rfl | rfl
    · obtain ⟨rest, hrest⟩ := hpre
      exact hslash (by rw [← hrest]; rfl)
    · exact hdot htake.symm
    · exact hdotdot htake.symm
  · exact vprintf_octal string (show ([7] : List (Fin 10)).head? ≠ some 0 by decide) (by decide)
      (by decide) value
  · exact vprintf_octal string (show ([1, 1] : List (Fin 10)).head? ≠ some 0 by decide)
      (by decide) (by decide) value

/-- A directory below the root. -/
theorem ustar_round_trip_directory :
    ∃ h entry, ustar_make_header (['/', 'a', '/', 'b'].map ascii) .directory 7 = some h ∧
      ustar_parse_header h = .ok entry ∧
      entry.stored = (some (['a', '/', 'b'].map ascii), .directory, 0) := by
  have hname : 0 ∉ ['/', 'a', '/', 'b'].map ascii := by decide
  obtain ⟨h, hmake, -⟩ := ustar_parse_make_header_entry hname
    (show UstarType.directory ≠ .eof by decide) (by decide) (show 7 < 2 ^ 31 by decide)
  obtain ⟨⟨entry, hparse, hstored⟩, -⟩ := ustar_round_trip (['/', 'a', '/', 'b'].map ascii)
    hname .directory (.inr rfl) 7 (by decide) h hmake
  exact ⟨h, entry, hmake, hparse, hstored⟩

end Pintos
