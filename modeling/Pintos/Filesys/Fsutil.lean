import Pintos.Filesys.Device
import Pintos.Lib.Ustar

/-!
# Filesys — Archives on the scratch device

`fsutil_append` and `fsutil_extract` of `filesys/fsutil.c`.  A file to be appended is its name and
its bytes; where extracted files go is a `Target`, and `recorder` is one that takes everything.  The
heap byte that follows the buffer of `fsutil_append` is an argument.

`HeldFrom disk s bs` says that the sectors from `s` on hold the blocks `bs`.  What is appended is held
as `archive` lays it out (`fsutil_appends_runs`), and what is held so is extracted
(`extract_loop_runs`).  The end marker is the exception: the second of its sectors is written over the
first, from one byte further on, so that the archive ends as it should only by chance
(`archive_round_trip_iff`).
-/

namespace Pintos
open Prod (fst)
open Support Function List

/-! ### The source -/

/-- Why the kernel stops. -/
inductive FsutilPanic where
  | name_too_long (file_name : List UInt8)
  | out_of_space (file_name : List UInt8)
  | read_failed (file_name : List UInt8) (unread : Nat)
  | bad_header (sector : Nat) (error : String)
  | create_failed (file_name : List UInt8)
  | open_failed (file_name : List UInt8)
  | write_failed (file_name : List UInt8) (unwritten : Nat)
  /-- Of `check_sector`. -/
  | bad_sector (sector : Nat)

/-- The scratch device. -/
structure Scratch where
  /-- `block_size`. -/
  size : Nat
  disk : Nat → Block

namespace Scratch

/-- `block_read`. -/
def block_read (d : Scratch) (sector : Nat) : Except FsutilPanic Block :=
  if sector < d.size then .ok (d.disk sector) else .error (.bad_sector sector)

/-- `block_write`. -/
def block_write (d : Scratch) (sector : Nat) (b : Block) : Except FsutilPanic Scratch :=
  if sector < d.size then .ok { d with disk := update d.disk sector b }
  else .error (.bad_sector sector)

end Scratch

/-- A file: its name and its bytes. -/
structure SourceFile where
  name : List UInt8
  contents : List UInt8

/-- The scratch device and the static `sector` of `fsutil_append`. -/
structure Archive where
  dev : Scratch
  sector : Nat

/-- The loop of `fsutil_append`: `size` bytes are left, those of `src` from its position on. -/
def append_loop (file_name : List UInt8) :
    (turns size : Nat) → (src : List UInt8) → Block → Archive → Except FsutilPanic Archive
  | 0, _, _, _, a => .ok a
  | turns + 1, size, src, buffer, a =>
    if size > 0 then
      let chunk_size := if size > 512 then 512 else size
      if a.sector ≥ a.dev.size then .error (.out_of_space file_name)
      else if (src.take chunk_size).length ≠ chunk_size then .error (.read_failed file_name size)
      else do
        let buffer := (buffer.write 0 (src.take chunk_size)).write chunk_size
          (List.replicate (512 - chunk_size) 0)
        let dev ← a.dev.block_write a.sector buffer
        append_loop file_name turns (size - chunk_size) (src.drop chunk_size) buffer
          ⟨dev, a.sector + 1⟩
    else .ok a

/-- `fsutil_append`; `heap` is the byte after the buffer. -/
def fsutil_append (file : SourceFile) (heap : UInt8) (a : Archive) : Except FsutilPanic Archive :=
  match ustar_make_header file.name .regular file.contents.length with
  | none => .error (.name_too_long file.name)
  | some header => do
    let dev ← a.dev.block_write a.sector header
    let a ← append_loop file.name file.contents.length file.contents.length file.contents header
      ⟨dev, a.sector + 1⟩
    let dev ← a.dev.block_write a.sector Bytes.zero
    -- `buffer + 1`: its last byte is the one after the buffer
    let dev ← dev.block_write a.sector (Bytes.zero.write 511 [heap])
    .ok { a with dev }

/-- Files appended one after another, each with its heap byte. -/
def fsutil_appends : List (SourceFile × UInt8) → Archive → Except FsutilPanic Archive
  | [], a => .ok a
  | f :: files, a => do
    let a ← fsutil_append f.1 f.2 a
    fsutil_appends files a

/-- The file system as `fsutil_extract` uses it: one file is open at a time. -/
structure Target (σ : Type) where
  filesys_create : List UInt8 → Nat → σ → Option σ
  filesys_open : List UInt8 → σ → Option σ
  file_write : List UInt8 → σ → σ × Nat
  file_close : σ → σ

/-- The inner loop of `fsutil_extract`: the next sector, and the target. -/
def extract_copy {σ : Type} (t : Target σ) (dev : Scratch) (file_name : List UInt8) :
    (turns size : Nat) → Nat → σ → Except FsutilPanic (Nat × σ)
  | 0, _, sector, s => .ok (sector, s)
  | turns + 1, size, sector, s =>
    if size > 0 then do
      let chunk_size := if size > 512 then 512 else size
      let data ← dev.block_read sector
      let r := t.file_write (data.read 0 chunk_size) s
      if r.2 ≠ chunk_size then .error (.write_failed file_name size)
      else extract_copy t dev file_name turns (size - chunk_size) (sector + 1) r.1
    else .ok (sector, s)

/-- The body of the loop of `fsutil_extract`: where it goes on, if not at the end of the archive. -/
def extract_entry {σ : Type} (t : Target σ) (dev : Scratch) (sector : Nat) (s : σ) :
    Except FsutilPanic (Option (Nat × σ)) := do
  let header ← dev.block_read sector
  match ustar_parse_header header with
  | .error error => .error (.bad_header sector error)
  | .ok .eof => .ok none
  | .ok (.directory _) => .ok (some (sector + 1, s))
  | .ok (.regular file_name size) =>
    match t.filesys_create file_name size s with
    | none => .error (.create_failed file_name)
    | some s =>
      match t.filesys_open file_name s with
      | none => .error (.open_failed file_name)
      | some s => do
        let r ← extract_copy t dev file_name size size (sector + 1) s
        .ok (some (r.1, t.file_close r.2))

/-- The loop of `fsutil_extract`.  It reads a sector in each turn, and stops at the end of the device
if not before. -/
def extract_loop {σ : Type} (t : Target σ) (dev : Scratch) :
    (turns : Nat) → (sector : Nat) → σ → Except FsutilPanic (Nat × σ)
  | 0, sector, _ => .error (.bad_sector sector)
  | turns + 1, sector, s => do
    match ← extract_entry t dev sector s with
    | none => .ok (sector + 1, s)
    | some r => extract_loop t dev turns r.1 r.2

/-- `fsutil_extract`, from the static `sector` on; then the archive is erased. -/
def fsutil_extract {σ : Type} (t : Target σ) (dev : Scratch) (sector : Nat) (s : σ) :
    Except FsutilPanic (Scratch × Nat × σ) := do
  let r ← extract_loop t dev (dev.size + 1 - sector) sector s
  let dev ← dev.block_write 0 Bytes.zero
  let dev ← dev.block_write 1 Bytes.zero
  .ok (dev, r.1, r.2)

/-! ### The layout -/

/-- The files that have been put, and the one that is open. -/
structure Record where
  files : List SourceFile
  opened : SourceFile

/-- A target where nothing fails. -/
def recorder : Target Record where
  filesys_create _ _ s := some s
  filesys_open file_name s := some { s with opened := ⟨file_name, []⟩ }
  file_write data s :=
    ({ s with opened := ⟨s.opened.name, s.opened.contents ++ data⟩ }, data.length)
  file_close s := { s with files := s.files ++ [s.opened] }

/-- `n` sectors of data. -/
def dataBlocks : Nat → List UInt8 → List Block
  | 0, _ => []
  | n + 1, l => Bytes.ofList (l.take 512) :: dataBlocks n (l.drop 512)

namespace SourceFile

/-- The name and the size can be archived. -/
structure Ok (f : SourceFile) : Prop where
  string : 0 ∉ f.name
  short : (strip_antisocial_prefixes f.name).length ≤ 99
  size : f.contents.length < 2 ^ 31

/-- The header. -/
def header (f : SourceFile) : Block :=
  (ustar_make_header f.name .regular f.contents.length).getD Bytes.zero

/-- The sectors that the file takes. -/
def blocks (f : SourceFile) : List Block :=
  f.header :: dataBlocks ((f.contents.length + 511) / 512) f.contents

/-- The file under the name that is stored. -/
def stripped (f : SourceFile) : SourceFile := ⟨strip_antisocial_prefixes f.name, f.contents⟩

end SourceFile

/-- The sectors of an archive, without its end. -/
def archive (files : List SourceFile) : List Block := files.flatMap SourceFile.blocks

/-- The sectors from `s` on hold the blocks. -/
def HeldFrom (disk : Nat → Block) : Nat → List Block → Prop
  | _, [] => True
  | s, b :: bs => disk s = b ∧ HeldFrom disk (s + 1) bs

namespace HeldFrom

variable {disk disk' : Nat → Block} {s : Nat} {bs bs' : List Block}

theorem congr (h : HeldFrom disk s bs)
    (he : ∀ k, s ≤ k → k < s + bs.length → disk' k = disk k) : HeldFrom disk' s bs := by
  induction bs generalizing s with
  | nil => trivial
  | cons b bs ih =>
    rw [length_cons] at he
    refine ⟨(he s le_rfl (by omega)).trans h.1, ih h.2 fun k hk hlt => he k (by omega) ?_⟩
    omega

theorem append : HeldFrom disk s (bs ++ bs') ↔
    HeldFrom disk s bs ∧ HeldFrom disk (s + bs.length) bs' := by
  induction bs generalizing s with
  | nil => exact (and_iff_right trivial).symm
  | cons b bs ih =>
    rw [List.cons_append, length_cons, HeldFrom, HeldFrom, ih, and_assoc,
      show s + 1 + bs.length = s + (bs.length + 1) by omega]

end HeldFrom

theorem length_dataBlocks (n : Nat) (l : List UInt8) : (dataBlocks n l).length = n := by
  induction n generalizing l with
  | zero => rfl
  | succ n ih => rw [dataBlocks, length_cons, ih]

theorem SourceFile.length_blocks (f : SourceFile) :
    f.blocks.length = 1 + (f.contents.length + 511) / 512 := by
  rw [blocks, length_cons, length_dataBlocks, Nat.add_comm]

/-! ### Appending -/

section Append

theorem Scratch.block_write_ok {d : Scratch} {sector : Nat} (h : sector < d.size) (b : Block) :
    d.block_write sector b = .ok { d with disk := update d.disk sector b } := if_pos h

/-- The bytes that are left are written, and nothing else. -/
theorem append_loop_runs (file_name : List UInt8) {turns : Nat} (src : List UInt8) (buffer : Block) (a : Archive)
    (hturns : src.length ≤ turns) (hfit : a.sector + (src.length + 511) / 512 ≤ a.dev.size) :
    ∃ a', append_loop file_name turns src.length src buffer a = .ok a' ∧
      a'.dev.size = a.dev.size ∧ a'.sector = a.sector + (src.length + 511) / 512 ∧
      HeldFrom a'.dev.disk a.sector (dataBlocks ((src.length + 511) / 512) src) ∧
      ∀ k, k < a.sector ∨ a'.sector ≤ k → a'.dev.disk k = a.dev.disk k := by
  induction turns generalizing src buffer a with
  | zero =>
    have hnil : src.length = 0 := Nat.le_zero.mp hturns
    rw [hnil]
    exact ⟨a, rfl, rfl, rfl, trivial, fun _ _ => rfl⟩
  | succ turns ih =>
    rw [append_loop]
    by_cases hpos : src.length > 0
    · have hchunk : (if src.length > 512 then 512 else src.length) = (src.take 512).length := by
        rw [length_take]
        split <;> omega
      have hlen : (src.take 512).length = min 512 src.length := length_take ..
      have hdrop : (src.drop 512).length = src.length - 512 := length_drop ..
      have htake : src.take (src.take 512).length = src.take 512 := by
        rcases Nat.le_total 512 src.length with h | h <;> simp [hlen, h, take_of_length_le]
      have hrest : src.drop (src.take 512).length = src.drop 512 := by
        rcases Nat.le_total 512 src.length with h | h <;> simp [hlen, h, drop_of_length_le]
      have hleft : src.length - (src.take 512).length = (src.drop 512).length := by omega
      have hn : (src.length + 511) / 512 = ((src.drop 512).length + 511) / 512 + 1 := by omega
      rw [if_pos hpos, hchunk, if_neg (by omega), if_neg (by rw [htake]; simp), htake, hrest,
        hleft, Bytes.write_fill _ (by omega)]
      dsimp only
      rw [Scratch.block_write_ok (by omega)]
      obtain ⟨a', hrun, hsize, hsector, hheld, hframe⟩ := ih (src.drop 512)
        (Bytes.ofList (src.take 512)) ⟨⟨a.dev.size, update a.dev.disk a.sector
          (Bytes.ofList (src.take 512))⟩, a.sector + 1⟩ (by omega) (by
            dsimp only
            omega)
      dsimp only at hsize hsector hheld hframe
      refine ⟨a', hrun, hsize, by omega, ?_, fun k hk => ?_⟩
      · rw [hn, dataBlocks]
        refine ⟨?_, hheld⟩
        rw [hframe a.sector (by omega), update_self]
      · rw [hframe k (by omega), update_of_ne (by omega)]
    · rw [if_neg hpos, show (src.length + 511) / 512 = 0 by omega]
      exact ⟨a, rfl, rfl, rfl, trivial, fun _ _ => rfl⟩

/-- The end of an archive, as it is written. -/
def endMarker (heap : UInt8) : Block := Bytes.zero.write 511 [heap]

theorem endMarker_eq_zero {heap : UInt8} : endMarker heap = Bytes.zero ↔ heap = 0 := by
  constructor
  · intro h
    have hget : (endMarker heap).get 511 = Bytes.get (Bytes.zero : Block) 511 := by rw [h]
    rwa [endMarker, Bytes.get_write (by norm_num), if_pos (by simp), Bytes.get_zero] at hget
  · rintro rfl
    refine Bytes.ext_get fun k hk => ?_
    rw [endMarker, Bytes.get_write hk]
    split
    · rename_i hin
      rw [show k - 511 = 0 by simp at hin; omega, Bytes.get_zero]
      rfl
    · rfl

theorem SourceFile.Ok.make_header {f : SourceFile} (h : f.Ok) :
    ustar_make_header f.name .regular f.contents.length = some f.header ∧
      ustar_parse_header f.header =
        .ok (.regular (strip_antisocial_prefixes f.name) f.contents.length) := by
  obtain ⟨b, hmake, hparse⟩ := ustar_parse_make_header h.string h.short h.size
  rw [SourceFile.header, hmake]
  exact ⟨rfl, hparse⟩

/-- One file is appended. -/
theorem fsutil_append_runs {f : SourceFile} (hf : f.Ok) (heap : UInt8) (a : Archive)
    (hfit : a.sector + f.blocks.length < a.dev.size) :
    ∃ a', fsutil_append f heap a = .ok a' ∧ a'.dev.size = a.dev.size ∧
      a'.sector = a.sector + f.blocks.length ∧ HeldFrom a'.dev.disk a.sector f.blocks ∧
      a'.dev.disk a'.sector = endMarker heap ∧
      ∀ k, k < a.sector ∨ a'.sector < k → a'.dev.disk k = a.dev.disk k := by
  rw [f.length_blocks] at hfit ⊢
  obtain ⟨a₁, hloop, hsize, hsector, hheld, hframe⟩ := append_loop_runs f.name f.contents
    f.header ⟨⟨a.dev.size, update a.dev.disk a.sector f.header⟩, a.sector + 1⟩
    le_rfl (by dsimp only; omega)
  dsimp only at hsize hsector hheld hframe
  refine ⟨⟨⟨a₁.dev.size, update (update a₁.dev.disk a₁.sector Bytes.zero)
    a₁.sector (endMarker heap)⟩, a₁.sector⟩, ?_, hsize, by dsimp only; omega, ?_, ?_, ?_⟩
  · have hlt : a₁.sector < a₁.dev.size := by omega
    rw [fsutil_append, hf.make_header.1]
    simp only [bind, Except.bind, Scratch.block_write_ok (show a.sector < a.dev.size by omega),
      hloop, Scratch.block_write_ok hlt]
    rw [Scratch.block_write_ok (by exact hlt)]
    rfl
  · have hcopied : ∀ k, k < a₁.sector → update (update a₁.dev.disk a₁.sector
        Bytes.zero) a₁.sector (endMarker heap) k = a₁.dev.disk k := fun k hk => by
      rw [update_of_ne (by omega), update_of_ne (by omega)]
    refine ⟨?_, hheld.congr fun k hk hlt => hcopied k ?_⟩
    · dsimp only
      rw [hcopied _ (by omega), hframe _ (by omega), update_self]
    · rw [length_dataBlocks] at hlt
      omega
  · exact update_self _ _ _
  · intro k hk
    dsimp only at hk ⊢
    rw [update_of_ne (by omega), update_of_ne (by omega), hframe k (by omega),
      update_of_ne (by omega)]

/-- How many sectors an archive takes, without its end. -/
def archiveLength (files : List SourceFile) : Nat := (archive files).length

theorem archiveLength_cons (f : SourceFile) (files : List SourceFile) :
    archiveLength (f :: files) = f.blocks.length + archiveLength files := by
  rw [archiveLength, archive, flatMap_cons, length_append]
  rfl

theorem length_le_archiveLength (files : List SourceFile) : files.length ≤ archiveLength files := by
  induction files with
  | nil => exact le_rfl
  | cons f files ih =>
    rw [archiveLength_cons, f.length_blocks, length_cons]
    omega

/-- The sector after the archive: the end marker, once a file has been appended. -/
def endBlock : List (SourceFile × UInt8) → Block → Block
  | [], old => old
  | f :: files, _ => endBlock files (endMarker f.2)

/-- Files are appended. -/
theorem fsutil_appends_runs (files : List (SourceFile × UInt8)) (a : Archive)
    (hfiles : ∀ f ∈ files, f.1.Ok)
    (hfit : a.sector + archiveLength (files.map fst) < a.dev.size) :
    ∃ a', fsutil_appends files a = .ok a' ∧ a'.dev.size = a.dev.size ∧
      a'.sector = a.sector + archiveLength (files.map fst) ∧
      HeldFrom a'.dev.disk a.sector (archive (files.map fst)) ∧
      a'.dev.disk a'.sector = endBlock files (a.dev.disk a.sector) ∧
      ∀ k, k < a.sector ∨ a'.sector < k → a'.dev.disk k = a.dev.disk k := by
  induction files generalizing a with
  | nil => exact ⟨a, rfl, rfl, rfl, trivial, rfl, fun _ _ => rfl⟩
  | cons f files ih =>
    rw [List.map_cons, archiveLength_cons] at hfit ⊢
    obtain ⟨a₁, hrun₁, hsize₁, hsector₁, hheld₁, hend₁, hframe₁⟩ :=
      fsutil_append_runs (hfiles f List.mem_cons_self) f.2 a (by omega)
    obtain ⟨a₂, hrun₂, hsize₂, hsector₂, hheld₂, hend₂, hframe₂⟩ :=
      ih a₁ (fun g hg => hfiles g (List.mem_cons_of_mem _ hg)) (by omega)
    refine ⟨a₂, ?_, hsize₂.trans hsize₁, by omega, ?_, ?_, fun k hk => ?_⟩
    · simp only [fsutil_appends, hrun₁, bind, Except.bind]
      exact hrun₂
    · rw [archive, flatMap_cons, HeldFrom.append]
      exact ⟨hheld₁.congr fun k hk hlt => hframe₂ k (by omega), hsector₁ ▸ hheld₂⟩
    · rw [hend₂, hend₁, endBlock]
    · rw [hframe₂ k (by omega), hframe₁ k (by omega)]

theorem endBlock_eq_zero {files : List (SourceFile × UInt8)} {old : Block} :
    endBlock files old = Bytes.zero ↔ files.getLast?.elim (old = Bytes.zero) fun f => f.2 = 0 := by
  induction files generalizing old with
  | nil => exact Iff.rfl
  | cons f files ih =>
    rw [endBlock, ih]
    cases files with
    | nil => exact endMarker_eq_zero
    | cons g files =>
      rw [getLast?_cons_cons, getLast?_cons]
      rfl

end Append

/-! ### Extracting -/

variable {sector turns : Nat} {dev : Scratch}

theorem Scratch.block_read_ok {d : Scratch} (h : sector < d.size) :
    d.block_read sector = .ok (d.disk sector) := if_pos h

/-- Data that is held is copied. -/
theorem extract_copy_runs (dev : Scratch) (file_name : List UInt8) (contents : List UInt8)
    (sector : Nat) (s : Record) (hturns : contents.length ≤ turns)
    (hheld : HeldFrom dev.disk sector (dataBlocks ((contents.length + 511) / 512) contents))
    (hfit : sector + (contents.length + 511) / 512 ≤ dev.size) :
    extract_copy recorder dev file_name turns contents.length sector s =
      .ok (sector + (contents.length + 511) / 512,
        { s with opened := ⟨s.opened.name, s.opened.contents ++ contents⟩ }) := by
  induction turns generalizing contents sector s with
  | zero =>
    obtain rfl : contents = [] := eq_nil_of_length_eq_zero (Nat.le_zero.mp hturns)
    simp [extract_copy]
  | succ turns ih =>
    rw [extract_copy]
    by_cases hpos : contents.length > 0
    · have hchunk : (if contents.length > 512 then 512 else contents.length) =
          (contents.take 512).length := by
        rw [length_take]
        split <;> omega
      have hlen : (contents.take 512).length = min 512 contents.length := length_take ..
      have hdrop : (contents.drop 512).length = contents.length - 512 := length_drop ..
      have hleft : contents.length - (contents.take 512).length = (contents.drop 512).length := by
        omega
      have hn : (contents.length + 511) / 512 = ((contents.drop 512).length + 511) / 512 + 1 := by
        omega
      rw [hn, dataBlocks] at hheld
      rw [if_pos hpos, hchunk, Scratch.block_read_ok (by omega), hheld.1]
      simp only [bind, Except.bind,
        Bytes.read_ofList (show (contents.take 512).length ≤ 512 by omega)]
      have hwrite : recorder.file_write (contents.take 512) s = (⟨s.files, s.opened.name,
        s.opened.contents ++ contents.take 512⟩, (contents.take 512).length) := rfl
      rw [hwrite, if_neg (not_not.mpr rfl), hleft, ih _ _ _ (by omega) hheld.2 (by omega), hn]
      simp [Nat.add_assoc, Nat.add_comm 1]
    · obtain rfl : contents = [] := eq_nil_of_length_eq_zero (by omega)
      simp


/-- A file that is held is extracted. -/
theorem extract_entry_file {f : SourceFile} (s : Record) (hf : f.Ok)
    (hheld : HeldFrom dev.disk sector f.blocks) (hfit : sector + f.blocks.length ≤ dev.size) :
    extract_entry recorder dev sector s =
      .ok (some (sector + f.blocks.length, ⟨s.files ++ [f.stripped], f.stripped⟩)) := by
  rw [f.length_blocks] at hfit ⊢
  rw [extract_entry, Scratch.block_read_ok (by omega), hheld.1]
  simp only [bind, Except.bind, hf.make_header.2]
  have hcopy := extract_copy_runs dev (strip_antisocial_prefixes f.name) f.contents (sector + 1)
    ⟨s.files, ⟨strip_antisocial_prefixes f.name, []⟩⟩ le_rfl hheld.2 (by omega)
  simp only [recorder] at hcopy ⊢
  simp only [hcopy, nil_append, Nat.add_assoc]
  rfl

theorem extract_entry_end (s : Record) (hlt : sector < dev.size)
    (hend : dev.disk sector = Bytes.zero) : extract_entry recorder dev sector s = .ok none := by
  rw [extract_entry, Scratch.block_read_ok hlt, hend]
  simp only [bind, Except.bind, ustar_parse_zero]

/-- An archive that is held is extracted, up to a sector of zeros. -/
theorem extract_loop_runs (dev : Scratch) (files : List SourceFile) (sector : Nat) (s : Record)
    (hfiles : ∀ f ∈ files, f.Ok) (hturns : files.length < turns)
    (hheld : HeldFrom dev.disk sector (archive files))
    (hend : dev.disk (sector + archiveLength files) = Bytes.zero)
    (hfit : sector + archiveLength files < dev.size) :
    ∃ opened, extract_loop recorder dev turns sector s =
      .ok (sector + archiveLength files + 1, ⟨s.files ++ files.map SourceFile.stripped, opened⟩) := by
  induction files generalizing turns sector s with
  | nil =>
    obtain ⟨turns, rfl⟩ : ∃ n, turns = n + 1 := ⟨turns - 1, by simp at hturns; omega⟩
    refine ⟨s.opened, ?_⟩
    have hentry : extract_entry recorder dev sector s = .ok none := extract_entry_end s hfit hend
    rw [extract_loop, hentry]
    simp only [bind, Except.bind, map_nil, append_nil]
    rfl
  | cons f files ih =>
    obtain ⟨turns, rfl⟩ : ∃ n, turns = n + 1 := ⟨turns - 1, by simp at hturns; omega⟩
    rw [archiveLength_cons] at hend hfit ⊢
    rw [archive, flatMap_cons, HeldFrom.append] at hheld
    obtain ⟨opened, hloop⟩ := ih (sector + f.blocks.length) ⟨s.files ++ [f.stripped], f.stripped⟩
      (fun g hg => hfiles g (List.mem_cons_of_mem _ hg))
      (show files.length < turns by simpa using hturns) hheld.2
      (by rw [← hend, Nat.add_assoc]) (by omega)
    refine ⟨opened, ?_⟩
    rw [extract_loop, extract_entry_file s (hfiles f List.mem_cons_self) hheld.1 (by omega)]
    simp only [bind, Except.bind]
    rw [hloop]
    simp [Nat.add_assoc]

/-! ### The round trip -/

/-- The files are appended, the archive ends with two sectors of zeros, and what is extracted from
its start on is the files, under their stripped names. -/
def RoundTrip (files : List (SourceFile × UInt8)) (a : Archive) : Prop :=
  ∃ a', fsutil_appends files a = .ok a' ∧
    HeldFrom a'.dev.disk 0 (archive (files.map fst)) ∧
    a'.sector = archiveLength (files.map fst) ∧
    a'.dev.disk a'.sector = Bytes.zero ∧ a'.dev.disk (a'.sector + 1) = Bytes.zero ∧
    ∀ s : Record, ∃ r, extract_loop recorder a'.dev (a'.dev.size + 1) 0 s = .ok r ∧
      r.1 = a'.sector + 1 ∧ r.2.files = s.files ++ files.map fun f => f.1.stripped

/-- Files are appended to a device that is large enough and extracted again: that goes well exactly
if the byte after the buffer was zero at the last append and the sector after the one that the end
marker is written to was zero before.  (If no file is appended, no end marker is written at all.) -/
theorem archive_round_trip_iff {files : List (SourceFile × UInt8)} {a : Archive}
    (hsector : a.sector = 0) (hfit : archiveLength (files.map fst) + 2 ≤ a.dev.size)
    (hfiles : ∀ f ∈ files, f.1.Ok) :
    RoundTrip files a ↔ (files.getLast?.elim (a.dev.disk 0 = Bytes.zero) fun f => f.2 = 0) ∧
      a.dev.disk (archiveLength (files.map fst) + 1) = Bytes.zero := by
  obtain ⟨a', hrun, hsize, hpos, hheld, hend, hframe⟩ :=
    fsutil_appends_runs files a hfiles (by omega)
  rw [hsector, Nat.zero_add] at hpos
  rw [hsector] at hheld hend
  rw [← endBlock_eq_zero, ← hend, ← hpos, ← hframe _ (.inr (Nat.lt_succ_self _))]
  constructor
  · rintro ⟨a'', hrun', -, -, hzero, hzero', -⟩
    obtain rfl : a' = a'' := Except.ok.inj (hrun.symm.trans hrun')
    exact ⟨hzero, hzero'⟩
  · rintro ⟨hzero, hzero'⟩
    refine ⟨a', hrun, hheld, hpos, hzero, hzero', fun s => ?_⟩
    have hok : ∀ f ∈ files.map fst, f.Ok := fun f hf => by
      obtain ⟨g, hg, rfl⟩ := List.mem_map.mp hf
      exact hfiles g hg
    have hturns : (files.map fst).length < a'.dev.size + 1 := by
      have := length_le_archiveLength (files.map fst)
      omega
    obtain ⟨opened, hloop⟩ := extract_loop_runs a'.dev (files.map fst) 0 s hok hturns hheld
      (by rwa [Nat.zero_add, ← hpos]) (by omega)
    refine ⟨_, hloop, by rw [Nat.zero_add, hpos], ?_⟩
    rw [List.map_map]
    rfl

/-- A device of `size` sectors of zeros. -/
def blankArchive (size : Nat) : Archive := ⟨⟨size, fun _ => Bytes.zero⟩, 0⟩

/-- An empty file of one letter's name. -/
def emptyFile : SourceFile := ⟨[97], []⟩

theorem emptyFile_ok : emptyFile.Ok := ⟨by decide, by decide, by decide⟩

/-- Two files on a blank device, where the byte after the buffer is zero. -/
theorem archive_round_trip_two : RoundTrip [(⟨[98], [1, 2, 3]⟩, 7), (emptyFile, 0)] (blankArchive 5) :=
  (archive_round_trip_iff rfl (by decide) fun f hf => by
    rcases List.mem_pair.mp hf with rfl | rfl
    · exact ⟨by decide, by decide, by decide⟩
    · exact emptyFile_ok).mpr ⟨rfl, rfl⟩

/-- Where that byte is not zero, the archive does not end as it should. -/
theorem archive_end_spoiled : ¬ ∀ (files : List (SourceFile × UInt8)) (a : Archive),
    a.sector = 0 → archiveLength (files.map fst) + 2 ≤ a.dev.size →
      (∀ f ∈ files, f.1.Ok) → RoundTrip files a := by
  intro h
  have hok : ∀ f ∈ [(emptyFile, (1 : UInt8))], f.1.Ok := fun f hf => by
    obtain rfl := List.mem_singleton.mp hf
    exact emptyFile_ok
  obtain ⟨a', hrun, -, -, hzero, -⟩ := h [(emptyFile, 1)] (blankArchive 3) rfl (by decide) hok
  obtain ⟨a'', hrun', -, -, -, hend, -⟩ :=
    fsutil_appends_runs [(emptyFile, 1)] (blankArchive 3) hok (by decide)
  obtain rfl : a' = a'' := Except.ok.inj (hrun.symm.trans hrun')
  exact absurd (endMarker_eq_zero.mp (hend.symm.trans hzero)) (by decide)

end Pintos
