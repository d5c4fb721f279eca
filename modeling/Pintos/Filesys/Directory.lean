import Pintos.Support.Program
import Pintos.Filesys.OpenInodes
import Pintos.Lib.String

/-!
# Filesys — directories

`directory.c`, and of `file.c` what opens and closes files, as programs over the interface of
`inode.h` and `free-map.h`.  They have no state of their own but the handles they pass around, so
that they run over any implementation of the interface.

A `struct dir_entry` is 20 bytes: the sector, little-endian, a name of at most 14 characters with
its null byte, and the flag `in_use`.  The loops over the entries of a directory end at the end of
the file, whose length bounds the turns.
-/

namespace Pintos
open Support

/-! ### The interface of `inode.h` and `free-map.h` -/

/-- What the inode at an address says of itself. -/
structure Stat where
  sector : Sector
  open_cnt : Int
  is_dir : Bool
  dir_parent : Sector
  length : Nat

/-- The operations. -/
inductive FsOp where
  | inode_open (sector : Sector)
  | inode_reopen (p : Addr)
  | inode_close (p : Option Addr)
  | inode_remove (p : Addr)
  /-- `inode_get_inumber`, `inode_get_open_cnt`, `inode_is_dir`, `inode_get_dir_parent` and
  `inode_length`. -/
  | inode_stat (p : Addr)
  /-- `inode->data.dir_parent = parent`. -/
  | set_dir_parent (p : Addr) (parent : Sector)
  | inode_read_at (p : Addr) (size offset : Nat)
  | inode_write_at (p : Addr) (buffer : List UInt8) (offset : Nat)
  | inode_create (sector : Sector) (length : Int) (is_dir : Bool)
  | inode_lock_acquire (p : Addr)
  | inode_lock_release (p : Addr)
  | inode_deny_write (p : Addr)
  | inode_allow_write (p : Addr)
  /-- `free_map_allocate (1, &sector)`. -/
  | free_map_allocate
  /-- `free_map_release (sector, 1)`. -/
  | free_map_release (sector : Sector)
  /-- An assertion fails. -/
  | panic

/-- The answers. -/
abbrev FsOp.Res : FsOp → Type
  | .inode_open _ | .inode_reopen _ => Addr
  | .inode_stat _ => Stat
  | .inode_read_at _ _ _ => List UInt8
  | .inode_write_at _ _ _ => Nat
  | .inode_create _ _ _ => Bool
  | .free_map_allocate => Option Sector
  | .panic => Empty
  | _ => Unit

/-- A program over the interface. -/
abbrev FsProg : Type → Type := Prog FsOp FsOp.Res

/-- An implementation of the interface. -/
abbrev FsApi (K : Type) : Type := ∀ o : FsOp, Machine Event K o.Res

/-- The program that calls `o`. -/
abbrev call (o : FsOp) : FsProg o.Res := Prog.op o

/-- `ASSERT (false)`. -/
def assert_failed {α : Type} : FsProg α := .call .panic fun e => nomatch e

/-- `inode_get_inumber`. -/
def inode_get_inumber (p : Addr) : FsProg Sector := do
  let stat ← call (.inode_stat p)
  pure stat.sector

/-- `inode_is_dir`. -/
def inode_is_dir (p : Addr) : FsProg Bool := do
  let stat ← call (.inode_stat p)
  pure stat.is_dir

/-- `inode_get_open_cnt`. -/
def inode_get_open_cnt (p : Addr) : FsProg Int := do
  let stat ← call (.inode_stat p)
  pure stat.open_cnt

/-- `inode_get_dir_parent`. -/
def inode_get_dir_parent (p : Addr) : FsProg Sector := do
  let stat ← call (.inode_stat p)
  pure stat.dir_parent

/-- `inode_length`. -/
def inode_length (p : Addr) : FsProg Nat := do
  let stat ← call (.inode_stat p)
  pure stat.length

/-- `inode_set_dir_parent`. -/
def inode_set_dir_parent (parent child : Sector) : FsProg Bool := do
  let inode ← call (.inode_open child)
  call (.set_dir_parent inode parent)
  call (.inode_close (some inode))
  pure true

/-! ### Entries -/

/-- `NAME_MAX`. -/
abbrev NAME_MAX : Nat := 14

/-- `sizeof (struct dir_entry)`. -/
abbrev ENTRY_SIZE : Nat := 20

namespace DirEntry

/-- `e.inode_sector`. -/
def inode_sector (e : List UInt8) : Sector :=
  Bytes.word (e.getD 0 0) (e.getD 1 0) (e.getD 2 0) (e.getD 3 0)

/-- The string at `e.name`.  A name without a null byte runs on into the flag. -/
def name (e : List UInt8) : List UInt8 := c_string (e.drop 4)

/-- `e.in_use`. -/
def in_use (e : List UInt8) : Bool := e.getD 19 0 != 0

/-- `e.in_use = b`. -/
def set_in_use (e : List UInt8) (b : Bool) : List UInt8 := e.set 19 (if b then 1 else 0)

/-- `strlcpy (e.name, name, sizeof e.name)`. -/
def set_name (e name : List UInt8) : List UInt8 :=
  e.take 4 ++ name.take NAME_MAX ++ 0 :: e.drop (4 + min name.length NAME_MAX + 1)

/-- `e.inode_sector = sector`. -/
def set_inode_sector (e : List UInt8) (sector : Sector) : List UInt8 :=
  Bytes.le32 sector ++ e.drop 4

end DirEntry

/-! ### `struct dir` -/

/-- `struct dir`. -/
structure Dir where
  inode : Addr
  pos : Nat
  deriving DecidableEq

/-- `dir_create`. -/
def dir_create (sector : Sector) (entry_cnt : Nat) : FsProg Bool :=
  call (.inode_create sector ((entry_cnt * ENTRY_SIZE : Nat) : Int) true)

/-- `dir_open`, with memory to spare. -/
def dir_open : Option Addr → FsProg (Option Dir)
  | some inode => pure (some ⟨inode, 0⟩)
  | none => do
    call (.inode_close none)
    pure none

/-- `dir_open_root`. -/
def dir_open_root : FsProg (Option Dir) := do
  let inode ← call (.inode_open ROOT_DIR_SECTOR)
  dir_open (some inode)

/-- `dir_reopen`. -/
def dir_reopen (dir : Dir) : FsProg (Option Dir) := do
  let inode ← call (.inode_reopen dir.inode)
  dir_open (some inode)

/-- `dir_close`. -/
def dir_close : Option Dir → FsProg Unit
  | some dir => call (.inode_close (some dir.inode))
  | none => pure ()

/-- The loop of `lookup`: the entry and its offset. -/
def lookup_loop (p : Addr) (name : List UInt8) : Nat → Nat → FsProg (Option (List UInt8 × Nat))
  | 0, _ => pure none
  | turns + 1, ofs => do
    let e ← call (.inode_read_at p ENTRY_SIZE ofs)
    if e.length = ENTRY_SIZE then
      if DirEntry.in_use e && DirEntry.name e == name then pure (some (e, ofs))
      else lookup_loop p name turns (ofs + ENTRY_SIZE)
    else pure none

/-- `lookup`. -/
def lookup (dir : Dir) (name : List UInt8) : FsProg (Option (List UInt8 × Nat)) := do
  let length ← inode_length dir.inode
  lookup_loop dir.inode name (length / ENTRY_SIZE + 1) 0

/-- `dir_lookup`: the inode, or null. -/
def dir_lookup (dir : Option Dir) (name : List UInt8) : FsProg (Option Addr) :=
  match dir with
  | none => assert_failed
  | some dir => do
    call (.inode_lock_acquire dir.inode)
    match ← lookup dir name with
    | some (e, _) => do
      let inode ← call (.inode_open (DirEntry.inode_sector e))
      call (.inode_lock_release dir.inode)
      pure (some inode)
    | none => do
      call (.inode_lock_release dir.inode)
      pure none

/-- The loop of `dir_add`: the offset of a free slot, or of the end, and what `e` holds there. -/
def free_slot_loop (p : Addr) : Nat → Nat → List UInt8 → FsProg (Nat × List UInt8)
  | 0, ofs, e => pure (ofs, e)
  | turns + 1, ofs, e => do
    let bytes ← call (.inode_read_at p ENTRY_SIZE ofs)
    let e := bytes ++ e.drop bytes.length
    if bytes.length = ENTRY_SIZE then
      if DirEntry.in_use e then free_slot_loop p turns (ofs + ENTRY_SIZE) e
      else pure (ofs, e)
    else pure (ofs, e)

/-- The part of `dir_add` that runs for a valid new name; `e` is not initialised. -/
def dir_add_entry (dir : Dir) (name : List UInt8) (inode_sector : Sector) (e : List UInt8) :
    FsProg Bool := do
  let parent ← inode_get_inumber dir.inode
  let _ ← inode_set_dir_parent parent inode_sector
  let length ← inode_length dir.inode
  let slot ← free_slot_loop dir.inode (length / ENTRY_SIZE + 1) 0 e
  let e := DirEntry.set_inode_sector (DirEntry.set_name (DirEntry.set_in_use slot.2 true) name)
    inode_sector
  let written ← call (.inode_write_at dir.inode e slot.1)
  pure (written == ENTRY_SIZE)

/-- `dir_add`. -/
def dir_add (dir : Option Dir) (name : List UInt8) (inode_sector : Sector) (e : List UInt8) :
    FsProg Bool :=
  match dir with
  | none => assert_failed
  | some dir => do
    call (.inode_lock_acquire dir.inode)
    if name = [] ∨ NAME_MAX < name.length then do
      call (.inode_lock_release dir.inode)
      pure false
    else
      match ← lookup dir name with
      | some _ => do
        call (.inode_lock_release dir.inode)
        pure false
      | none => do
        let success ← dir_add_entry dir name inode_sector e
        call (.inode_lock_release dir.inode)
        pure success

/-- The loop of `dir_is_empty`. -/
def dir_is_empty_loop (p : Addr) : Nat → Nat → FsProg Bool
  | 0, _ => pure true
  | turns + 1, ofs => do
    let e ← call (.inode_read_at p ENTRY_SIZE ofs)
    if e.length = ENTRY_SIZE then
      if DirEntry.in_use e then pure false else dir_is_empty_loop p turns (ofs + ENTRY_SIZE)
    else pure true

/-- `dir_is_empty`. -/
def dir_is_empty (inode : Addr) : FsProg Bool := do
  let length ← inode_length inode
  dir_is_empty_loop inode (length / ENTRY_SIZE + 1) 0

/-- The checks of `dir_remove` on the open inode: a directory has no other handle and is empty. -/
def dir_removable (inode : Addr) : FsProg Bool := do
  let is_dir ← inode_is_dir inode
  let open_cnt ← inode_get_open_cnt inode
  if is_dir ∧ 1 < open_cnt then pure false
  else if is_dir then dir_is_empty inode
  else pure true

/-- The part of `dir_remove` from the checks on up to `done`. -/
def dir_remove_entry (dir : Dir) (inode : Addr) (e : List UInt8) (ofs : Nat) : FsProg Bool := do
  let removable ← dir_removable inode
  if removable then do
    let written ← call (.inode_write_at dir.inode (DirEntry.set_in_use e false) ofs)
    if written = ENTRY_SIZE then do
      call (.inode_remove inode)
      pure true
    else pure false
  else pure false

/-- `dir_remove`. -/
def dir_remove (dir : Option Dir) (name : List UInt8) : FsProg Bool :=
  match dir with
  | none => assert_failed
  | some dir => do
    call (.inode_lock_acquire dir.inode)
    match ← lookup dir name with
    | none => do
      call (.inode_close none)
      call (.inode_lock_release dir.inode)
      pure false
    | some (e, ofs) => do
      let inode ← call (.inode_open (DirEntry.inode_sector e))
      let success ← dir_remove_entry dir inode e ofs
      call (.inode_close (some inode))
      call (.inode_lock_release dir.inode)
      pure success

/-- The loop of `dir_readdir`, from the position `pos`: the name it copies, and the position it
leaves. -/
def dir_readdir_loop (p : Addr) : Nat → Nat → FsProg (Option (List UInt8) × Nat)
  | 0, pos => pure (none, pos)
  | turns + 1, pos => do
    let e ← call (.inode_read_at p ENTRY_SIZE pos)
    if e.length = ENTRY_SIZE then
      if DirEntry.in_use e then pure (some ((DirEntry.name e).take NAME_MAX), pos + ENTRY_SIZE)
      else dir_readdir_loop p turns (pos + ENTRY_SIZE)
    else pure (none, pos)

/-- `dir_readdir`: the name it copies, or nothing, and the position it leaves. -/
def dir_readdir (dir : Dir) : FsProg (Option (List UInt8) × Nat) := do
  call (.inode_lock_acquire dir.inode)
  let length ← inode_length dir.inode
  let r ← dir_readdir_loop dir.inode (length / ENTRY_SIZE + 1) dir.pos
  call (.inode_lock_release dir.inode)
  pure r

/-- `dir_is_root`. -/
def dir_is_root : Option Dir → FsProg Bool
  | some dir => do
    let sector ← inode_get_inumber dir.inode
    pure (sector == ROOT_DIR_SECTOR)
  | none => pure false

/-- `get_dir_parent_inode`. -/
def get_dir_parent_inode : Option Dir → FsProg (Option Addr)
  | none => pure none
  | some dir => do
    let sector ← inode_get_dir_parent dir.inode
    let inode ← call (.inode_open sector)
    pure (some inode)

end Pintos
