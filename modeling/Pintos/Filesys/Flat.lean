import Pintos.Lib.Bitmap
import Pintos.Filesys.Directory

/-!
# Filesys — files as byte arrays

What `inode.c` and `free-map.c` are for: the inode of a sector is a byte array that grows, with the
flags and links of the file, and the free map hands out sectors.  The state below the table of open
inodes is then one `Node` for each sector, whether its inode is open or not; there is no cache, no
index and no second copy.

The sectors that hold a file are kept, as a set, so that growing and freeing a file takes and
returns the sectors it does on the disk.  A node is `live` from its creation to the release of its
sector.  An operation on a sector that it is not meant for goes on, and leaves a `stray` event.
-/

namespace Pintos
open Support Function List
open Machine (emit)

/-- A file. -/
structure Node where
  is_dir : Bool
  dir_parent : Sector
  bytes : List UInt8
  /-- The sectors that hold it, other than the inode's own. -/
  owned : List Sector

/-- The files and the free map. -/
structure FlatDisk where
  free_map : Bitmap
  nodes : Sector → Node
  live : Sector → Bool
  /-- The sectors allocated for inodes that have not been created. -/
  pending : List Sector

/-- The state of the file system, with files as byte arrays. -/
abbrev Flat : Type := Kernel Unit FlatDisk

/-- The number of sectors that hold a file of `n` data sectors. -/
def ownedCount (n : Nat) : Nat :=
  n + (if 13 < n then 1 else 0) + (if 141 < n then 1 else 0) + (n - 141 + 127) / 128

namespace Kernel

/-- `f` with the file `n` at `s`. -/
def setNode (f : Flat) (s : Sector) (n : Node) : Flat :=
  { f with dev := { f.dev with nodes := update f.dev.nodes s n } }

/-- `f` with the file of `s` gone. -/
def discard (f : Flat) (s : Sector) : Flat :=
  { f with dev := { f.dev with
    free_map := f.dev.free_map.clear (s :: (f.dev.nodes s).owned)
    live := update f.dev.live s false } }

/-- The file of the inode `i`. -/
def node (f : Flat) (i : Inode Unit) : Node := f.dev.nodes i.sector

end Kernel

/-- The sector is what the operation needs, or the event says that it is not. -/
def expect (sector : Sector) (fits : Flat → Bool) : Machine Event Flat Unit := do
  let f ← Machine.get
  if fits f then pure () else emit (.stray sector)

/-- The table over the files. -/
def flat_backend : Backend Unit FlatDisk where
  load sector := expect sector fun f => f.dev.live sector
  store _ _ := pure ()
  discard sector _ := Machine.modify fun f => f.discard sector

/-- Take `n` sectors. -/
def flat_take (n : Nat) : Machine Event Flat (List Sector) := do
  let f ← Machine.get
  let r := f.dev.free_map.take n
  Machine.modify fun f => { f with dev := { f.dev with free_map := r.2 } }
  if r.1.length = n then pure r.1
  else do
    emit (.allocate none false)
    pure r.1

/-- Overwrite `bytes` at `offset` with `src`. -/
def overwrite (bytes : List UInt8) (offset : Nat) (src : List UInt8) : List UInt8 :=
  bytes.take offset ++ src ++ bytes.drop (offset + src.length)

theorem length_overwrite {bytes src : List UInt8} {offset : Nat} (h : offset ≤ bytes.length) :
    (overwrite bytes offset src).length = max bytes.length (offset + src.length) := by
  simp only [overwrite, length_append, length_take, length_drop]
  omega

theorem getElem?_overwrite {bytes src : List UInt8} {offset : Nat} (h : offset ≤ bytes.length)
    (j : Nat) : (overwrite bytes offset src)[j]? = if j < offset then bytes[j]?
      else if j < offset + src.length then src[j - offset]? else bytes[j]? := by
  have htake : (bytes.take offset).length = offset := length_take_of_le h
  rw [overwrite, List.append_assoc]
  split
  · rw [getElem?_append_left (by rwa [htake]), getElem?_take_of_lt ‹_›]
  · rw [getElem?_append_right (by rw [htake]; omega), htake]
    split
    · rw [getElem?_append_left (by omega)]
    · rw [getElem?_append_right (by omega), getElem?_drop]
      congr 1
      omega

/-- `n` grown to `stop` bytes, if it is shorter. -/
def flat_extend (inode : Inode Unit) (n : Node) (stop : Int) : Machine Event Flat Node :=
  if (n.bytes.length : Int) < stop then
    if inode.inode_lock && !n.is_dir then do
      emit .relock
      Machine.panic
    else do
      let new ← flat_take (ownedCount ((stop.toNat + 511) / 512) -
        ownedCount ((n.bytes.length + 511) / 512))
      pure { n with
        bytes := n.bytes ++ List.replicate (stop.toNat - n.bytes.length) 0
        owned := n.owned ++ new }
  else pure n

/-- `inode_write_at`. -/
def flat_write_at (p : Addr) (buffer : List UInt8) (offset : Nat) : Machine Event Flat Nat := do
  let inode ← deref p
  let f ← Machine.get
  if inode.deny_write_cnt ≠ 0 then pure 0
  else do
    let n ← flat_extend inode (f.node inode) (wrap32 (offset + buffer.length))
    let src := buffer.take (n.bytes.length - offset)
    Machine.modify fun f =>
      f.setNode inode.sector { n with bytes := overwrite n.bytes offset src }
    pure src.length

/-- `inode_create`. -/
def flat_create (sector : Sector) (length : Nat) (is_dir : Bool) : Machine Event Flat Bool := do
  expect sector fun f => f.dev.pending.contains sector
  let owned ← flat_take (ownedCount ((length + 511) / 512))
  Machine.modify fun f => { f with dev := { f.dev with
    nodes := update f.dev.nodes sector
      ⟨is_dir, ROOT_DIR_SECTOR, List.replicate length 0, owned⟩
    live := update f.dev.live sector true
    pending := f.dev.pending.erase sector } }
  pure true

/-- `free_map_allocate (1)`. -/
def flat_allocate : Machine Event Flat (Option Sector) := do
  let f ← Machine.get
  match bitmap_scan f.dev.free_map 0 1 false with
  | none => do
    emit (.allocate none false)
    pure none
  | some sector => do
    Machine.modify fun f => { f with dev := { f.dev with
      free_map := bitmap_set_multiple f.dev.free_map sector 1 true
      pending := sector :: f.dev.pending } }
    pure (some sector)

/-- `free_map_release (sector, 1)`: the inode that was or would have been there is gone, and the
sectors of its file stay taken. -/
def flat_release (sector : Sector) : Machine Event Flat Unit := do
  let f ← Machine.get
  if f.dev.free_map.bits sector then do
    expect sector fun f => f.dev.pending.contains sector ||
      f.dev.live sector && (f.opened sector).isNone
    Machine.modify fun f => { f with dev := { f.dev with
      free_map := f.dev.free_map.clear [sector]
      live := update f.dev.live sector false
      pending := f.dev.pending.erase sector } }
  else Machine.panic

/-- The interface over byte arrays. -/
def flat_api : FsApi Flat
  | .inode_open sector => inode_open flat_backend sector
  | .inode_reopen p => inode_reopen p
  | .inode_close p => inode_close flat_backend p
  | .inode_remove p => inode_remove p
  | .inode_stat p => do
    let inode ← deref p
    let f ← Machine.get
    let n := f.node inode
    pure ⟨inode.sector, inode.open_cnt, n.is_dir, n.dir_parent, n.bytes.length⟩
  | .set_dir_parent p parent => do
    let inode ← deref p
    Machine.modify fun f => f.setNode inode.sector { f.node inode with dir_parent := parent }
  | .inode_read_at p size offset => do
    let inode ← deref p
    let f ← Machine.get
    pure (((f.node inode).bytes.drop offset).take size)
  | .inode_write_at p buffer offset => flat_write_at p buffer offset
  | .inode_create sector length is_dir =>
    -- `ASSERT (length >= 0)`
    if 0 ≤ length then flat_create sector length.toNat is_dir else Machine.panic
  | .inode_lock_acquire p => inode_lock_acquire p
  | .inode_lock_release p => inode_lock_release p
  | .inode_deny_write p => inode_deny_write p
  | .inode_allow_write p => inode_allow_write p
  | .free_map_allocate => flat_allocate
  | .free_map_release sector => flat_release sector
  | .panic => Machine.panic

end Pintos
