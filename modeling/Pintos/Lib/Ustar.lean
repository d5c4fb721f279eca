import Pintos.Lib.String
import Pintos.Support.Bytes
import Mathlib.Data.Nat.Digits.Lemmas

/-!
# Lib — The ustar archive format

`lib/ustar.c`: a header is composed and parsed.  Strings are lists of bytes without the null byte;
a header is 512 bytes, with the fields of `struct ustar_header` at their offsets.

`ustar_parse_make_header`: what is composed for a regular file is parsed as the same name, stripped
of antisocial prefixes, and the same size.  `ustar_refuses_changed_byte`: an accepted header with
one byte changed, other than in its checksum, is refused.
-/

namespace Pintos
open Support List

/-! ### The source -/

/-- `USTAR_HEADER_SIZE` bytes. -/
abbrev UstarHeader : Type := Bytes 512

/-- A member of `struct ustar_header`. -/
structure UstarField where
  ofs : Nat
  size : Nat

namespace UstarField

def name : UstarField := ⟨0, 100⟩
def mode : UstarField := ⟨100, 8⟩
def uid : UstarField := ⟨108, 8⟩
def gid : UstarField := ⟨116, 8⟩
def fileSize : UstarField := ⟨124, 12⟩
def mtime : UstarField := ⟨136, 12⟩
def chksum : UstarField := ⟨148, 8⟩
def typeflag : UstarField := ⟨156, 1⟩
def magic : UstarField := ⟨257, 6⟩
def version : UstarField := ⟨263, 2⟩
def uname : UstarField := ⟨265, 32⟩
def gname : UstarField := ⟨297, 32⟩
def namePrefix : UstarField := ⟨345, 155⟩

/-- The bytes of the member. -/
def read (f : UstarField) (h : UstarHeader) : List UInt8 := Bytes.read h f.ofs f.size

/-- Store bytes at the start of the member. -/
def write (f : UstarField) (src : List UInt8) (h : UstarHeader) : UstarHeader :=
  Bytes.write h f.ofs src

/-- `strlcpy` into the member. -/
def strlcpy (f : UstarField) (src : List UInt8) (h : UstarHeader) : UstarHeader :=
  f.write (src.take (f.size - 1) ++ [0]) h

end UstarField

open UstarField hiding read write strlcpy

/-- `enum ustar_type`. -/
inductive UstarType where
  | regular
  | directory
  | eof
  deriving DecidableEq

/-- The byte that stands for the type. -/
def UstarType.flag : UstarType → UInt8
  | .regular => 48
  | .directory => 53
  | .eof => 255

/-- What `printf` makes of `value` for `%0<width>o`. -/
def octal (width value : Nat) : List UInt8 :=
  (Nat.digitsAppend 8 width value).reverse.map fun d => UInt8.ofNat (48 + d)

/-- `snprintf` of `%0<width>o` into the member. -/
def UstarField.snprintf (f : UstarField) (width value : Nat) (h : UstarHeader) : UstarHeader :=
  f.strlcpy (octal width value) h

/-- `calculate_chksum`. -/
def calculate_chksum (h : UstarHeader) : Nat :=
  (List.range 512).foldl (fun chksum i =>
    (chksum + if UstarField.chksum.ofs ≤ i ∧ i < UstarField.chksum.ofs + UstarField.chksum.size
      then 32 else (h.get i).toNat) % 2 ^ 32) 0

/-- The name begins with `/`, `./` or `../`. -/
def antisocial (file_name : List UInt8) : Bool :=
  file_name.head? = some 47 || file_name.take 2 = [46, 47] || file_name.take 3 = [46, 46, 47]

/-- The loop of `strip_antisocial_prefixes`, at most `turns` times. -/
def strip_loop : (turns : Nat) → List UInt8 → List UInt8
  | 0, file_name => file_name
  | turns + 1, file_name =>
    if antisocial file_name then strip_loop turns ((file_name.dropWhile (· != 47)).drop 1)
    else file_name

/-- `strip_antisocial_prefixes`.  Each turn makes the name shorter. -/
def strip_antisocial_prefixes (file_name : List UInt8) : List UInt8 :=
  let file_name := strip_loop file_name.length file_name
  if file_name = [] ∨ file_name = [46, 46] then [46] else file_name

/-- The header but for the checksum, as `ustar_make_header` fills it in. -/
def fill_header (file_name : List UInt8) (type : UstarType) (size : Int) : UstarHeader :=
  let h := name.strlcpy file_name Bytes.zero
  let h := mode.snprintf 7 (if type = .regular then 420 else 493) h
  let h := uid.strlcpy (List.replicate 7 48) h
  let h := gid.strlcpy (List.replicate 7 48) h
  let h := fileSize.snprintf 11 (size % 2 ^ 32).toNat h
  let h := mtime.snprintf 11 1136102400 h
  let h := typeflag.write [type.flag] h
  let h := magic.strlcpy [117, 115, 116, 97, 114] h
  let h := version.write [48, 48] h
  let h := gname.strlcpy [114, 111, 111, 116] h
  uname.strlcpy [114, 111, 111, 116] h

/-- `ustar_make_header`, `none` if the name is too long.  The caller passes a type that the
assertion allows. -/
def ustar_make_header (file_name : List UInt8) (type : UstarType) (size : Int) :
    Option UstarHeader :=
  let file_name := strip_antisocial_prefixes file_name
  if file_name.length > 99 then none
  else
    let h := fill_header file_name type size
    some (chksum.snprintf 7 (calculate_chksum h) h)

/-- The loop of `parse_octal_field`: the bytes that are left, `ofs` and `*value`. -/
def parse_octal_loop : List UInt8 → (ofs value : Nat) → Option Nat
  | [], _, _ => none
  | c :: s, ofs, value =>
    if 48 ≤ c ∧ c ≤ 55 then
      if value > (2 ^ 32 - 1) / 8 then none
      else parse_octal_loop s (ofs + 1) (c.toNat - 48 + value * 8)
    else if c = 32 ∨ c = 0 then if ofs > 0 then some value else none
    else none

/-- `parse_octal_field`. -/
def parse_octal_field (s : List UInt8) : Option Nat := parse_octal_loop s 0 0

/-- `is_all_zeros`. -/
def is_all_zeros (h : UstarHeader) : Bool := (List.range 512).all fun i => h.get i == 0

/-- What `ustar_parse_header` stores: the type, with the name and the size where there are. -/
inductive UstarEntry where
  | eof
  | directory (file_name : List UInt8)
  | regular (file_name : List UInt8) (size : Nat)

/-- `ustar_parse_header`: the entry, or a message. -/
def ustar_parse_header (h : UstarHeader) : Except String UstarEntry :=
  if is_all_zeros h then .ok .eof
  else if magic.read h ≠ [117, 115, 116, 97, 114, 0] then .error "not a ustar archive"
  else if version.read h ≠ [48, 48] then .error "invalid ustar version"
  else match parse_octal_field (chksum.read h) with
    | none => .error "corrupt chksum field"
    | some chksum =>
      if chksum ≠ calculate_chksum h then .error "checksum mismatch"
      else if h.get 99 ≠ 0 ∨ h.get namePrefix.ofs ≠ 0 then
        .error "file name too long"
      else
        let file_name := strip_antisocial_prefixes (c_string (name.read h))
        if h.get typeflag.ofs = UstarType.regular.flag then
          match parse_octal_field (fileSize.read h) with
          | none => .error "corrupt file size field"
          | some size_ul =>
            if size_ul > 2 ^ 31 - 1 then .error "file too large"
            else .ok (.regular file_name size_ul)
        else if h.get typeflag.ofs = UstarType.directory.flag then
          .ok (.directory file_name)
        else .error "unimplemented file type"

/-! ### Octal numbers -/

theorem le_foldl_digits (ds : List Nat) (value : Nat) :
    value ≤ ds.foldl (fun v d => d + v * 8) value := by
  induction ds generalizing value with
  | nil => exact le_rfl
  | cons d ds ih => exact (show value ≤ d + value * 8 by omega).trans (ih _)

/-- Octal digits, a null byte and anything. -/
theorem parse_octal_loop_digits {ds : List Nat} (hds : ∀ d ∈ ds, d < 8) {ofs value : Nat}
    (hv : ds.foldl (fun v d => d + v * 8) value < 2 ^ 32) (hlen : 0 < ofs + ds.length)
    (rest : List UInt8) :
    parse_octal_loop ((ds.map fun d => UInt8.ofNat (48 + d)) ++ 0 :: rest) ofs value =
      some (ds.foldl (fun v d => d + v * 8) value) := by
  induction ds generalizing ofs value with
  | nil =>
    rw [length_nil, Nat.add_zero] at hlen
    simp [parse_octal_loop, hlen]
  | cons d ds ih =>
    have hd := hds d List.mem_cons_self
    have hnat : (UInt8.ofNat (48 + d)).toNat = 48 + d := UInt8.toNat_ofNat_of_lt' (by
      show _ < 256
      omega)
    have hdigit : 48 ≤ UInt8.ofNat (48 + d) ∧ UInt8.ofNat (48 + d) ≤ 55 := by
      rw [UInt8.le_iff_toNat_le, UInt8.le_iff_toNat_le, hnat]
      exact ⟨by show 48 ≤ _; omega, by show _ ≤ 55; omega⟩
    have hle := le_foldl_digits ds (d + value * 8)
    rw [foldl_cons] at hv
    rw [List.map_cons, List.cons_append, parse_octal_loop, if_pos hdigit, if_neg (by omega), hnat,
      Nat.add_sub_cancel_left]
    exact ih (fun d' h => hds d' (List.mem_cons_of_mem _ h)) hv (by omega)

variable {file_name : List UInt8} {width value : Nat} {size : Nat}

/-- A number that has been printed is parsed again. -/
theorem parse_octal_field_octal (hw : 0 < width) (hv : value < 8 ^ width) (hv' : value < 2 ^ 32)
    (rest : List UInt8) :
    parse_octal_field (octal width value ++ 0 :: rest) = some value := by
  have hfold : (Nat.digitsAppend 8 width value).reverse.foldl (fun v d => d + v * 8) 0 = value := by
    have hdigits := Nat.ofDigits_eq_foldr 8 (Nat.digitsAppend 8 width value)
    rw [Nat.digitsAppend, Nat.ofDigits_append_replicate_zero, Nat.ofDigits_digits] at hdigits
    rw [foldl_reverse, Nat.digitsAppend]
    conv_rhs => rw [hdigits]
    simp only [Nat.cast_id, Nat.mul_comm]
  have hdigits : ∀ d ∈ (Nat.digitsAppend 8 width value).reverse, d < 8 := fun d hd =>
    Nat.lt_of_mem_digitsAppend (by norm_num) width d (List.mem_reverse.mp hd)
  have hlen : (Nat.digitsAppend 8 width value).reverse.length = width := by
    rw [length_reverse, Nat.length_digitsAppend (by norm_num) width hv]
  rw [parse_octal_field, octal, parse_octal_loop_digits hdigits (by rwa [hfold]) (by omega), hfold]

theorem length_octal (hv : value < 8 ^ width) : (octal width value).length = width := by
  rw [octal, length_map, length_reverse, Nat.length_digitsAppend (by norm_num) width hv]

/-! ### Members of a header -/

namespace UstarField

variable {f g : UstarField} {src : List UInt8} {h : UstarHeader}

/-- The members do not overlap. -/
def Apart (f g : UstarField) : Prop := f.ofs + f.size ≤ g.ofs ∨ g.ofs + g.size ≤ f.ofs

instance : Decidable (f.Apart g) := inferInstanceAs (Decidable (_ ∨ _))

theorem read_write (hapart : f.Apart g) (hlen : src.length ≤ g.size) :
    f.read (g.write src h) = f.read h := by
  refine Bytes.read_write_of_apart ?_
  rcases hapart with ha | ha
  · exact .inl ha
  · exact .inr (by omega)

theorem length_strlcpy (hg : 0 < g.size) : (src.take (g.size - 1) ++ [0]).length ≤ g.size := by
  rw [length_append, length_take, length_singleton]
  omega

theorem read_strlcpy (hapart : f.Apart g) (hg : 0 < g.size) : f.read (g.strlcpy src h) = f.read h :=
  read_write hapart (length_strlcpy hg)

theorem read_snprintf {width value : Nat} (hapart : f.Apart g) (hg : 0 < g.size) :
    f.read (g.snprintf width value h) = f.read h := read_strlcpy hapart hg

/-- A string that fits is there, with its null byte. -/
theorem read_strlcpy_self (hlen : src.length < f.size) (hf : f.ofs + f.size ≤ 512) :
    ∃ rest, f.read (f.strlcpy src h) = src ++ 0 :: rest := by
  have htake : src.take (f.size - 1) = src := take_of_length_le (by omega)
  refine ⟨Bytes.read (f.strlcpy src h) (f.ofs + (src.length + 1)) (f.size - (src.length + 1)), ?_⟩
  have hsplit : f.size = src.length + 1 + (f.size - (src.length + 1)) := by omega
  have hself : (Bytes.write h f.ofs (src ++ [0])).read f.ofs (src ++ [0]).length = src ++ [0] :=
    Bytes.read_write_self (by
      rw [length_append, length_singleton]
      omega)
  rw [length_append, length_singleton] at hself
  rw [read]
  nth_rewrite 1 [hsplit]
  rw [Bytes.read_append]
  unfold strlcpy write
  rw [htake, hself, List.append_assoc]
  rfl

/-- The whole member is overwritten. -/
theorem read_write_self (hf : f.ofs + f.size ≤ 512) (hlen : src.length = f.size) :
    f.read (f.write src h) = src := by
  rw [read, ← hlen]
  exact Bytes.read_write_self (by omega)

theorem read_byte (k : Nat) : read ⟨k, 1⟩ h = [h.get k] := rfl

end UstarField

/-! ### Names -/

/-- A name that has been stripped enough is not antisocial. -/
theorem strip_loop_social (turns : Nat) (s : List UInt8) (h : s.length ≤ turns) :
    antisocial (strip_loop turns s) = false := by
  induction turns generalizing s with
  | zero =>
    rw [eq_nil_of_length_eq_zero (Nat.le_zero.mp h)]
    rfl
  | succ turns ih =>
    rw [strip_loop]
    split
    · refine ih _ ?_
      have := (dropWhile_sublist (l := s) (· != 47)).length_le
      rw [length_drop]
      omega
    · rename_i hs
      exact Bool.eq_false_iff.mpr hs

theorem strip_loop_sublist (turns : Nat) (s : List UInt8) : (strip_loop turns s).Sublist s := by
  induction turns generalizing s with
  | zero => exact .refl s
  | succ turns ih =>
    rw [strip_loop]
    split
    · exact (ih _).trans ((drop_sublist _ _).trans (dropWhile_sublist _))
    · exact .refl s

theorem strip_of_social {s : List UInt8} (h : antisocial s = false) (hne : s ≠ [])
    (hdots : s ≠ [46, 46]) : strip_antisocial_prefixes s = s := by
  have hloop : strip_loop s.length s = s := by
    cases hs : s.length with
    | zero => rfl
    | succ n => rw [strip_loop, if_neg (by rw [h]; exact Bool.false_ne_true)]
  rw [strip_antisocial_prefixes, hloop]
  exact if_neg (by tauto)

/-- A stripped name is not empty, not `..`, and has no antisocial start. -/
theorem strip_clean (s : List UInt8) :
    antisocial (strip_antisocial_prefixes s) = false ∧ strip_antisocial_prefixes s ≠ [] ∧
      strip_antisocial_prefixes s ≠ [46, 46] := by
  have hsocial := strip_loop_social s.length s le_rfl
  by_cases hdots : strip_loop s.length s = [] ∨ strip_loop s.length s = [46, 46]
  · have hs : strip_antisocial_prefixes s = [46] := if_pos hdots
    rw [hs]
    decide
  · have hs : strip_antisocial_prefixes s = strip_loop s.length s := if_neg hdots
    rw [hs]
    exact ⟨hsocial, fun h => hdots (.inl h), fun h => hdots (.inr h)⟩

/-- The stripped name is left alone. -/
theorem strip_strip (s : List UInt8) : strip_antisocial_prefixes (strip_antisocial_prefixes s) =
    strip_antisocial_prefixes s := by
  obtain ⟨hsocial, hne, hdots⟩ := strip_clean s
  exact strip_of_social hsocial hne hdots

theorem not_mem_strip {s : List UInt8} (h : 0 ∉ s) : 0 ∉ strip_antisocial_prefixes s := by
  by_cases hdots : strip_loop s.length s = [] ∨ strip_loop s.length s = [46, 46]
  · rw [show strip_antisocial_prefixes s = [46] from if_pos hdots]
    decide
  · rw [show strip_antisocial_prefixes s = strip_loop s.length s from if_neg hdots]
    exact fun hmem => h ((strip_loop_sublist _ _).mem hmem)

/-! ### Headers -/

theorem calculate_chksum_le (h : UstarHeader) : calculate_chksum h ≤ 255 * 512 := by
  have hloop : ∀ n, (List.range n).foldl (fun chksum i =>
      (chksum + if UstarField.chksum.ofs ≤ i ∧ i < UstarField.chksum.ofs + UstarField.chksum.size
        then 32 else (h.get i).toNat) % 2 ^ 32) 0 ≤ 255 * n := by
    intro n
    induction n with
    | zero => exact le_rfl
    | succ n ih =>
      rw [range_succ, foldl_append, foldl_cons, foldl_nil]
      refine (Nat.mod_le _ _).trans ?_
      have hbyte := (h.get n).toNat_lt
      split <;> omega
  exact hloop 512

theorem calculate_chksum_snprintf {h : UstarHeader} :
    calculate_chksum (chksum.snprintf width value h) = calculate_chksum h := by
  refine foldl_ext _ _ _ fun chksum i _ => ?_
  split
  · rfl
  · rename_i hi
    have hlen : ((octal width value).take (UstarField.chksum.size - 1) ++ [0]).length ≤
        UstarField.chksum.size := length_strlcpy (by decide)
    rw [UstarField.snprintf, UstarField.strlcpy, UstarField.write,
      Bytes.get_write_of_outside (by omega)]

/-- What is read of the header that is filled in. -/
theorem read_fill_header (type : UstarType) (hlen : file_name.length ≤ 99) (hsize : size < 2 ^ 31) :
    magic.read (fill_header file_name type size) = [117, 115, 116, 97, 114, 0] ∧
    version.read (fill_header file_name type size) = [48, 48] ∧
    typeflag.read (fill_header file_name type size) = [type.flag] ∧
    UstarField.read ⟨99, 1⟩ (fill_header file_name type size) = [0] ∧
    UstarField.read ⟨345, 1⟩ (fill_header file_name type size) = [0] ∧
    (∃ rest, name.read (fill_header file_name type size) = file_name ++ 0 :: rest) ∧
    ∃ rest, fileSize.read (fill_header file_name type size) = octal 11 size ++ 0 :: rest := by
  have hmod : ((size : Int) % 2 ^ 32).toNat = size := by omega
  have hflag : ∀ {f : UstarField} {h : UstarHeader}, f.Apart .typeflag →
      f.read (typeflag.write [type.flag] h) = f.read h := fun hf => read_write hf le_rfl
  simp (disch := decide) only [fill_header, read_strlcpy, read_snprintf, read_write, hflag, hmod]
  refine ⟨?_, ?_, ?_, ?_, rfl, ?_, ?_⟩
  · exact read_write_self (by decide) rfl
  · exact read_write_self (by decide) rfl
  · exact read_write_self (by decide) rfl
  · -- the null byte of a name of 99 bytes, or a byte that has been cleared
    rw [read_byte, UstarField.strlcpy, UstarField.write, Bytes.get_write (by norm_num),
      take_of_length_le (by simpa [name] using hlen)]
    split
    · rename_i hin
      rw [length_append, length_singleton] at hin
      have h99 : file_name.length = 99 := by
        simp only [name] at hin
        omega
      simp [name, h99]
    · rw [Bytes.get_zero]
  · exact read_strlcpy_self (by simp only [name]; omega) (by decide)
  · refine read_strlcpy_self ?_ (by decide)
    rw [length_octal (by omega)]
    decide

/-- The entry of a file: a directory has no size. -/
def UstarType.entry (type : UstarType) (file_name : List UInt8) (size : Nat) : UstarEntry :=
  match type with
  | .regular => .regular file_name size
  | .directory => .directory file_name
  | .eof => .eof

/-- What is composed is parsed as such. -/
theorem ustar_parse_make_header_entry {type : UstarType} (hname : 0 ∉ file_name)
    (htype : type ≠ .eof) (hlen : (strip_antisocial_prefixes file_name).length ≤ 99)
    (hsize : size < 2 ^ 31) :
    ∃ h, ustar_make_header file_name type size = some h ∧
      ustar_parse_header h = .ok (type.entry (strip_antisocial_prefixes file_name) size) := by
  obtain ⟨hmagic, hversion, htypeflag, h99, h345, ⟨rest, hn⟩, rest', hs⟩ :=
    read_fill_header type hlen hsize
  refine ⟨_, by rw [ustar_make_header, if_neg (by omega)], ?_⟩
  generalize fill_header (strip_antisocial_prefixes file_name) type size = h at *
  have hchk := calculate_chksum_le h
  obtain ⟨rest'', hc⟩ : ∃ rest'', chksum.read (chksum.snprintf 7 (calculate_chksum h) h) =
      octal 7 (calculate_chksum h) ++ 0 :: rest'' :=
    read_strlcpy_self (by rw [length_octal (by omega)]; decide) (by decide)
  have hapart : ∀ f : UstarField, f.Apart .chksum →
      f.read (chksum.snprintf 7 (calculate_chksum h) h) = f.read h := fun f hf =>
    read_snprintf hf (by decide)
  rw [← hapart _ (by decide)] at hmagic hversion htypeflag h99 h345 hn hs
  have hsum : calculate_chksum (chksum.snprintf 7 (calculate_chksum h) h) = calculate_chksum h :=
    calculate_chksum_snprintf
  generalize chksum.snprintf 7 (calculate_chksum h) h = h' at *
  have hzeros : is_all_zeros h' = false := by
    rw [is_all_zeros, List.all_eq_false]
    have h257 : h'.get 257 = 117 := congrArg (fun l => l.getD 0 0) hmagic
    exact ⟨257, by simp, by rw [h257]; decide⟩
  have hstring : c_string (name.read h') = strip_antisocial_prefixes file_name := by
    rw [hn, c_string, takeWhile_append_of_pos fun c hc => ?_]
    · simp
    · exact bne_iff_ne.mpr fun he => not_mem_strip hname (he ▸ hc)
  have hget99 : h'.get 99 = 0 := List.singleton_inj.mp h99
  have hget345 : h'.get namePrefix.ofs = 0 := List.singleton_inj.mp h345
  have hgettype : h'.get typeflag.ofs = type.flag := List.singleton_inj.mp htypeflag
  rw [ustar_parse_header, hzeros, if_neg Bool.false_ne_true, if_neg (not_not.mpr hmagic),
    if_neg (not_not.mpr hversion), hc, parse_octal_field_octal (by norm_num) (by omega) (by omega)]
  simp only [hsum, ne_eq, not_true_eq_false, if_false, hget99, hget345, or_self, hgettype, hs,
    hstring, strip_strip]
  cases type with
  | regular =>
    rw [if_pos rfl, parse_octal_field_octal (by norm_num) (by omega) (by omega)]
    exact if_neg (by omega)
  | directory => rw [if_neg (by decide), if_pos rfl, UstarType.entry]
  | eof => exact absurd rfl htype

/-- What is composed for a regular file is parsed as such. -/
theorem ustar_parse_make_header (hname : 0 ∉ file_name)
    (hlen : (strip_antisocial_prefixes file_name).length ≤ 99) (hsize : size < 2 ^ 31) :
    ∃ h, ustar_make_header file_name .regular size = some h ∧
      ustar_parse_header h = .ok (.regular (strip_antisocial_prefixes file_name) size) :=
  ustar_parse_make_header_entry hname (by decide) hlen hsize

/-- A sector of zeros is the end of an archive. -/
theorem ustar_parse_zero : ustar_parse_header Bytes.zero = .ok .eof := by
  refine if_pos (List.all_eq_true.mpr fun i _ => ?_)
  rw [Bytes.get_zero]
  rfl

/-! ### Corruption -/

variable {h : UstarHeader} {e : UstarEntry} {i : Nat} {c : UInt8}

theorem foldl_chksum (w : Nat → Nat) (n : Nat) :
    (range n).foldl (fun s k => (s + w k) % 2 ^ 32) 0 = (∑ k ∈ Finset.range n, w k) % 2 ^ 32 := by
  induction n with
  | zero => rfl
  | succ n ih =>
    rw [range_succ, foldl_append, foldl_cons, foldl_nil, ih, Finset.sum_range_succ, Nat.mod_add_mod]

/-- A byte outside the checksum itself tells in the checksum. -/
theorem calculate_chksum_write (hi : i < 512) (hout : i < 148 ∨ 156 ≤ i)
    (hsum : calculate_chksum (Bytes.write h i [c]) = calculate_chksum h) : c = h.get i := by
  have hin : ¬(chksum.ofs ≤ i ∧ i < chksum.ofs + chksum.size) :=
    not_and_or.mpr (hout.imp not_le_of_gt not_lt_of_ge)
  have hmem := Finset.mem_range.mpr hi
  have hrest : ∀ k ∈ (Finset.range 512).erase i, (Bytes.write h i [c]).get k = h.get k := fun k hk =>
    Bytes.get_write_of_outside (by have := Finset.ne_of_mem_erase hk; rw [length_singleton]; omega)
  rw [calculate_chksum, foldl_chksum, calculate_chksum, foldl_chksum, ← Finset.add_sum_erase _ _ hmem,
    ← Finset.add_sum_erase _ _ hmem, if_neg hin, if_neg hin, Bytes.get_write hi, if_pos (by simp),
    Nat.sub_self, Finset.sum_congr rfl fun k hk => by rw [hrest k hk]] at hsum
  have hold := (h.get i).toNat_lt
  have hnew := c.toNat_lt
  exact UInt8.toNat_inj.mp (by simp at hsum; omega)

/-- What an accepted header holds. -/
theorem ustar_parse_header_ok (hok : ustar_parse_header h = .ok e) :
    is_all_zeros h ∧ e = .eof ∨ magic.read h = [117, 115, 116, 97, 114, 0] ∧
      parse_octal_field (chksum.read h) = some (calculate_chksum h) := by
  unfold ustar_parse_header at hok
  cases hchk : parse_octal_field (chksum.read h) <;> rw [hchk] at hok <;>
    dsimp only at hok <;> split_ifs at hok with hzeros hmagic _ hsum
  all_goals first
  | exact .inl ⟨hzeros, (Except.ok.inj hok).symm⟩
  | exact .inr ⟨not_not.mp hmagic, congrArg some (not_not.mp hsum)⟩

/-- A header with one byte changed, other than in its checksum, is refused. -/
theorem ustar_refuses_changed_byte (hok : ustar_parse_header h = .ok e) (he : e ≠ .eof)
    (hi : i < 512) (hout : i < 148 ∨ 156 ≤ i) (hc : c ≠ h.get i) :
    ∃ message, ustar_parse_header (Bytes.write h i [c]) = .error message := by
  cases hok' : ustar_parse_header (Bytes.write h i [c]) with
  | error message => exact ⟨message, rfl⟩
  | ok e' =>
    obtain ⟨-, heof⟩ | ⟨hmagic, hchk⟩ := ustar_parse_header_ok hok
    · exact absurd heof he
    obtain ⟨hzeros, -⟩ | ⟨-, hchk'⟩ := ustar_parse_header_ok hok'
    · -- one of the first two bytes of the magic is still there
      have hu : h.get 257 = 117 := congrArg (·.getD 0 0) hmagic
      have hs : h.get 258 = 115 := congrArg (·.getD 1 0) hmagic
      have hzero := List.all_eq_true.mp hzeros
      have h257 := beq_iff_eq.mp (hzero 257 (by simp))
      have h258 := beq_iff_eq.mp (hzero 258 (by simp))
      rw [Bytes.get_write (by decide)] at h257 h258
      grind
    · have hread : chksum.read (Bytes.write h i [c]) = chksum.read h :=
        Bytes.read_write_of_apart hout.symm
      rw [hread, hchk] at hchk'
      exact absurd (calculate_chksum_write hi hout (Option.some.inj hchk').symm) hc

/-- The name of a file is changed. -/
theorem ustar_refuses_changed_name : ∃ h e, ustar_parse_header h = .ok e ∧
    ∃ message, ustar_parse_header (Bytes.write h 0 [h.get 0 + 1]) = .error message := by
  obtain ⟨h, -, hok⟩ := @ustar_parse_make_header [97] 5 (by decide) (by decide) (by decide)
  exact ⟨h, _, hok, ustar_refuses_changed_byte hok nofun (by decide) (by decide) (by simp)⟩

end Pintos
