import Pintos.Filesys.FreeMap

/-!
# Filesys — growing an inode

`inode_grow` takes the sectors a longer file needs from the free map, level by level.  The three
loops that fill an array of sector numbers (the direct pointers, the index block, a second-level
block) are one loop, `grow_loop`, over the array.
-/

namespace Pintos
open Support

/-- `free_map_allocate (1, &arr[i])`: a failure leaves the array as it is. -/
def allocate_into {τ : Type} (set : τ → Nat → Sector → τ) (arr : τ) (i : Nat) :
    Machine Event Fs τ := do
  match ← free_map_allocate 1 with
  | some t => pure (set arr i t)
  | none => pure arr

/-- The loop that fills `arr` from `cnt` up to `limit` with `grow_sectors` zeroed sectors: the
array, the count and the sectors still to grow. -/
def grow_loop {τ : Type} (get : τ → Nat → Sector) (set : τ → Nat → Sector → τ) (limit : Nat) :
    Nat → τ → Nat → Machine Event Fs (τ × Nat × Nat)
  | 0, arr, cnt => pure (arr, cnt, 0)
  | grow_sectors + 1, arr, cnt =>
    if cnt < limit then do
      let arr ← allocate_into set arr cnt
      onDevice (block_write .inode (get arr cnt) Bytes.zero)
      grow_loop get set limit grow_sectors arr (cnt + 1)
    else pure (arr, cnt, grow_sectors + 1)

/-- `blocks[i]` of the array of pointers. -/
def pointer (blocks : Fin 15 → Sector) (i : Nat) : Sector := blocks (Fin.ofNat 15 i)

/-- `blocks[i] = s`. -/
def setPointer (blocks : Fin 15 → Sector) (i : Nat) (s : Sector) : Fin 15 → Sector :=
  Function.update blocks (Fin.ofNat 15 i) s

/-- The direct blocks. -/
def grow_direct (inode : InodeDisk) (grow_sectors : Nat) :
    Machine Event Fs (InodeDisk × Nat) := do
  let r ← grow_loop pointer setPointer DIRECT_BLOCKS grow_sectors inode.blocks inode.direct_count
  pure ({ inode with blocks := r.1, direct_count := r.2.1 }, r.2.2)

/-- The index block that pointer `i` names: allocated if it is `fresh`, read otherwise. -/
def index_block (i : Nat) (inode : InodeDisk) (fresh : Bool) :
    Machine Event Fs (InodeDisk × Block) := do
  let blocks ← uninit
  if fresh then do
    let inode ← allocate_into InodeDisk.setBlock inode i
    pure (inode, blocks)
  else do
    let blocks ← onDevice (block_read (inode.block i))
    pure (inode, blocks)

/-- The indirect blocks. -/
def grow_indirect (inode : InodeDisk) (grow_sectors : Nat) :
    Machine Event Fs (InodeDisk × Nat) :=
  if grow_sectors = 0 then pure (inode, grow_sectors)
  else do
    let r ← index_block 13 inode (inode.indirect_count == 0)
    let s ← grow_loop entry setEntry INDIRECT_BLOCK_ENTRIES grow_sectors r.2 r.1.indirect_count
    onDevice (block_write .inode (r.1.block 13) s.1)
    pure ({ r.1 with indirect_count := s.2.1 }, s.2.2)

/-- The second-level block of a turn: allocated at every 128th sector, read otherwise. -/
def level_two_block (level_one level_two : Block) (count : Nat) :
    Machine Event Fs (Block × Block) :=
  if count % 128 = 0 then do
    let level_one ← allocate_into setEntry level_one (count / 128)
    pure (level_one, level_two)
  else do
    let level_two ← onDevice (block_read (entry level_one (count / 128)))
    pure (level_one, level_two)

/-- The loop over the second-level blocks.  Every turn takes a sector at least, so
`grow_sectors` turns are enough. -/
def grow_level_two : Nat → Block → Block → Nat → Nat → Machine Event Fs (Block × Nat × Nat)
  | 0, level_one, _, count, grow_sectors => pure (level_one, count, grow_sectors)
  | fuel + 1, level_one, level_two, count, grow_sectors =>
    if count < DOUBLE_INDIRECT_BLOCK_ENTRIES ∧ grow_sectors ≠ 0 then do
      let r ← level_two_block level_one level_two count
      -- `level_two_idx` starts at 0, whatever the block already holds
      let s ← grow_loop entry setEntry 128 grow_sectors r.2 0
      onDevice (block_write .inode (entry r.1 (count / 128)) s.1)
      grow_level_two fuel r.1 s.1 (count + s.2.1) s.2.2
    else pure (level_one, count, grow_sectors)

/-- The double indirect blocks. -/
def grow_double (inode : InodeDisk) (grow_sectors : Nat) :
    Machine Event Fs (InodeDisk × Nat) :=
  if grow_sectors = 0 then pure (inode, grow_sectors)
  else do
    let r ← index_block 14 inode (inode.double_indirect_count == 0)
    let level_two ← uninit
    let s ← grow_level_two grow_sectors r.2 level_two r.1.double_indirect_count grow_sectors
    onDevice (block_write .inode (r.1.block 14) s.1)
    pure ({ r.1 with double_indirect_count := s.2.1 }, s.2.2)

/-- `grow_sectors`, a `size_t`. -/
def grow_sectors (old length : Nat) : Nat :=
  (bytes_to_sectors length + (4294967296 - bytes_to_sectors old)) % 4294967296

/-- `inode_grow`: whether it succeeds, and the inode it leaves. -/
def inode_grow (inode : InodeDisk) (length : Nat) : Machine Event Fs (Bool × InodeDisk) := do
  Machine.emit (.grow inode.length length)
  let grow := grow_sectors inode.length length
  let inode := { inode with length := length }
  if grow = 0 then pure (true, inode)
  else do
    let r ← grow_direct inode grow
    let r ← grow_indirect r.1 r.2
    let r ← grow_double r.1 r.2
    pure (true, r.1)

/-- `inode_create`. -/
def inode_create (sector : Sector) (length : Nat) (is_dir : Bool) : Machine Event Fs Bool := do
  let disk_inode : InodeDisk := { InodeDisk.zero with
    length := 0, is_dir := is_dir, dir_parent := ROOT_DIR_SECTOR, magic := INODE_MAGIC }
  let r ← inode_grow disk_inode length
  if r.1 then do
    onDevice (block_write .inode sector r.2.toBlock)
    pure true
  else pure false

/-- The part of `inode_write_at` that grows the file if the write ends beyond it; the result of
`inode_grow` is not looked at. -/
def inode_extend (inode : Inode InodeDisk) (stop : Int) : Machine Event Fs InodeDisk :=
  if (inode.data.length : Int) < stop then
    -- a regular file is locked meanwhile; `lock_acquire` panics if the thread holds the lock
    if inode.inode_lock && !inode.data.is_dir then do
      Machine.emit .relock
      Machine.panic
    else do
      let r ← inode_grow inode.data stop.toNat
      pure r.2
  else pure inode.data

/-- `inode_write_at`: the number of bytes written. -/
def inode_write_at (p : Addr) (buffer : List UInt8) (offset : Nat) : Machine Event Fs Nat := do
  let inode ← deref p
  if inode.deny_write_cnt ≠ 0 then pure 0
  else do
    let data ← inode_extend inode (wrap32 (offset + buffer.length))
    Machine.modify fun k => k.setInode p { inode with data := data }
    onDevice (inode_write_loop data buffer.length buffer offset)

/-- `inode_read_at`: the bytes read. -/
def inode_read_at (p : Addr) (size offset : Nat) : Machine Event Fs (List UInt8) := do
  let inode ← deref p
  onDevice (inode_read_loop inode.data size size offset)

end Pintos
