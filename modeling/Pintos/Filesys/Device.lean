import Pintos.Support.Machine
import Pintos.Support.Bytes

/-!
# Filesys — the block device and the state of the buffer cache

`fs_device` is an array of sectors of 512 bytes; `block_read` and `block_write` panic past its
end (`check_sector`).  Beside it stands the static state of `buffer-cache.c`, a table of 64 slots
and the round-robin index.

The events record what the disk and the free map are put through: which sectors are written, and
by whom; what enters the cache and when; the sectors allocated and released.  No function reads
them.
-/

namespace Pintos
open Support Function

/-- `block_sector_t`. -/
abbrev Sector : Type := Nat

/-- `BLOCK_SECTOR_SIZE` bytes. -/
abbrev Block : Type := Bytes 512

/-- `CACHE_SIZE`. -/
abbrev CACHE_SIZE : Nat := 64

/-- The two callers of `block_write` on the file system device: `inode.c`, for inodes, index
blocks and zero fill, and `buffer-cache.c`, for the slots it flushes. -/
inductive Writer where
  | inode
  | cache
  deriving DecidableEq

inductive Event where
  /-- `block_write` of a sector. -/
  | write (w : Writer) (s : Sector)
  /-- A slot is loaded with a sector. -/
  | fill (s : Sector)
  /-- `memcpy` of `size` bytes at `ofs` into the slot of a sector. -/
  | put (s : Sector) (ofs size : Nat)
  /-- An eviction, with the round-robin index it reached. -/
  | evict (idx : Int)
  /-- `free_map_allocate (1)`: the sector, if any, and whether a slot of the cache holds it. -/
  | allocate (r : Option Sector) (cached : Bool)
  /-- `free_map_release` of a sector. -/
  | release (s : Sector)
  /-- `inode_grow` from `old` to `new` bytes. -/
  | grow (old new : Nat)
  /-- `lock_acquire` of a lock that the running thread holds. -/
  | relock
  /-- A sector is used as an inode that is none, or is not free to become one. -/
  | stray (s : Sector)
  deriving DecidableEq

/-- `struct cache_table_entry`. -/
structure CacheEntry where
  occupied : Bool
  open_cnt : Nat
  accessed : Bool
  dirty : Bool
  block : Block
  disk_sector : Sector

/-- The device and the static variables of `buffer-cache.c`. -/
structure Device where
  /-- `block_size (fs_device)`. -/
  size : Nat
  disk : Sector → Block
  cache_table : Fin CACHE_SIZE → CacheEntry
  round_robin_idx : Int

/-- `block_read`. -/
def block_read (s : Sector) : Machine Event Device Block := do
  let d ← Machine.get
  if s < d.size then pure (d.disk s) else Machine.panic

/-- `block_write`. -/
def block_write (w : Writer) (s : Sector) (b : Block) : Machine Event Device Unit := do
  let d ← Machine.get
  if s < d.size then do
    Machine.emit (.write w s)
    Machine.modify fun d => { d with disk := update d.disk s b }
  else Machine.panic

namespace Device

/-- `d` with slot `i` replaced. -/
def setSlot (d : Device) (i : Fin CACHE_SIZE) (e : CacheEntry) : Device :=
  { d with cache_table := update d.cache_table i e }

/-- Slot `i` holds `s`. -/
def Holds (d : Device) (i : Fin CACHE_SIZE) (s : Sector) : Prop :=
  (d.cache_table i).occupied = true ∧ (d.cache_table i).disk_sector = s

instance (d : Device) (i : Fin CACHE_SIZE) (s : Sector) : Decidable (d.Holds i s) :=
  inferInstanceAs (Decidable (_ ∧ _))

/-- Some slot holds `s`. -/
def Resident (d : Device) (s : Sector) : Prop := ∃ i, d.Holds i s

/-- Some slot holds `s` and is dirty. -/
def Dirty (d : Device) (s : Sector) : Prop :=
  ∃ i, d.Holds i s ∧ (d.cache_table i).dirty = true

theorem Dirty.resident {d : Device} {s : Sector} (h : d.Dirty s) : d.Resident s :=
  h.imp fun _ h => h.1

@[simp] theorem setSlot_size (d : Device) (i : Fin CACHE_SIZE) (e : CacheEntry) :
    (d.setSlot i e).size = d.size := rfl

@[simp] theorem setSlot_disk (d : Device) (i : Fin CACHE_SIZE) (e : CacheEntry) :
    (d.setSlot i e).disk = d.disk := rfl

@[simp] theorem setSlot_self (d : Device) (i : Fin CACHE_SIZE) (e : CacheEntry) :
    (d.setSlot i e).cache_table i = e := update_self ..

theorem setSlot_other {d : Device} {i j : Fin CACHE_SIZE} {e : CacheEntry} (h : j ≠ i) :
    (d.setSlot i e).cache_table j = d.cache_table j := update_of_ne h ..

end Device

section Runs

variable {ok : Event → Prop} {d : Device} {s : Sector}

theorem block_read_run (hs : s < d.size) : block_read s d = ([], .done (d.disk s) d) := by
  simp [block_read, Machine.bind_run, hs]

theorem block_read_bind {α : Type} {k : Block → Machine Event Device α}
    {P : List Event → α → Device → Prop} (hs : s < d.size) (h : (k (d.disk s)).Runs ok d P) :
    (block_read s >>= k).Runs ok d P := Machine.Runs.silent_bind (block_read_run hs) h

theorem block_write_run {w : Writer} {b : Block} (hs : s < d.size) : block_write w s b d =
      ([.write w s], .done () { d with disk := update d.disk s b }) := by
  simp [block_write, Machine.bind_run, hs]

end Runs

end Pintos
