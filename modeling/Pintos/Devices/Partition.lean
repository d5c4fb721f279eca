import Pintos.Support.Depth
import Pintos.Filesys.Device

/-!
# Devices — partitions

`partition.c` over the block layer of `block.c`.  `partition_scan` reads the partition table of a
disk and registers a block device for every partition that lies inside the disk; a registered
partition passes its reads and writes on to the disk, `start` sectors further.

* `read_partition_table` calls itself on extended partitions, so it is a family of machines, one
  for each bound on the depth of its recursion (`Support.Depth`).  It reads the table of **sector
  0** at every level (`block_read (block, 0, pt)`), whatever sector it was called for.
* Sector numbers are `block_sector_t`, thirty-two bits: every sum of two of them is taken by
  `sum32`.
* The events are what is printed and which sectors of the disk are read and written.
  `extra_info`, printed by `block_register`, and the counters of reads and writes are left out, and
  the allocations of `malloc` are taken to succeed.

`partition_scan_inside` is the safety of the registered partitions: whatever the disk holds, each
of them ends inside the disk, without wrap-around, and an access to a sector that `check_sector`
accepts on the partition is an access to a sector of the partition, which the disk accepts too.
-/

namespace Pintos
open Support Function List
open Machine (bind_run_panic emit)

/-- The sum of two sector numbers, as `uint32_t` has it. -/
def sum32 (a b : Nat) : Nat := (a + b) % 2 ^ 32

/-- `enum block_type`. -/
inductive BlockType where
  | BLOCK_KERNEL
  | BLOCK_FILESYS
  | BLOCK_SCRATCH
  | BLOCK_SWAP
  | BLOCK_RAW
  | BLOCK_FOREIGN
  deriving DecidableEq

/-- The `struct block` of a whole disk; its size is a `block_sector_t`. -/
structure Disk where
  name : List Char
  size : Nat
  size_lt : size < 2 ^ 32

/-- The type `ide.c` registers its disks with. -/
def Disk.type (_ : Disk) : BlockType := .BLOCK_RAW

/-- The `struct block` of a partition, with the `start` of its `struct partition`. -/
structure Partition where
  name : List Char
  type : BlockType
  size : Nat
  start : Nat
  deriving DecidableEq

/-- The sectors of the disk, and the partitions on `all_blocks`. -/
structure Disks where
  sectors : Nat → Block
  all_blocks : List Partition

/-- What the scan prints. -/
inductive DiskMessage where
  /-- `%s: Device contains no partitions` -/
  | no_partitions (name : List Char)
  /-- `%s: Partition table at sector %u past end of device.` -/
  | table_past_end (name : List Char) (sector : Nat)
  /-- `%s: Invalid partition table signature` -/
  | invalid_signature (name : List Char)
  /-- `%s: Invalid extended partition table in sector %u` -/
  | invalid_extended (name : List Char) (sector : Nat)
  /-- `%s: Extended partition in sector %u` -/
  | extended (name : List Char) (sector : Nat)
  /-- `%s%d: Partition starts past end of device (sector %u)` -/
  | starts_past_end (name : List Char) (part_nr start : Nat)
  /-- `%s%d: Partition end (%u) past end of device (%u)` -/
  | ends_past_end (name : List Char) (part_nr finish size : Nat)
  /-- `Access past end of device %s (sector=%u, size=%u)`, of the panic in `check_sector` -/
  | access_past_end (name : List Char) (sector size : Nat)
  /-- `%s: %u sectors`, of `block_register` -/
  | sectors (name : List Char) (size : Nat)
  deriving DecidableEq

inductive DiskEvent where
  | printf (m : DiskMessage)
  | read (sector : Nat)
  | write (sector : Nat)
  deriving DecidableEq

abbrev DiskM : Type → Type := Machine DiskEvent Disks

/-! ### The block layer -/

/-- `check_sector`. -/
def check_sector (name : List Char) (size sector : Nat) : DiskM Unit :=
  if size ≤ sector then do
    emit (.printf (.access_past_end name sector size))
    Machine.panic
  else pure ()

/-- `block_read` of a disk. -/
def Disk.block_read (disk : Disk) (sector : Nat) : DiskM Block := do
  check_sector disk.name disk.size sector
  emit (.read sector)
  let d ← Machine.get
  pure (d.sectors sector)

/-- `block_write` of a disk. -/
def Disk.block_write (disk : Disk) (sector : Nat) (buffer : Block) : DiskM Unit := do
  check_sector disk.name disk.size sector
  if disk.type = .BLOCK_FOREIGN then Machine.panic
  else do
    emit (.write sector)
    Machine.modify fun d => { d with sectors := update d.sectors sector buffer }

/-- `partition_read`. -/
def partition_read (disk : Disk) (p : Partition) (sector : Nat) : DiskM Block :=
  disk.block_read (sum32 p.start sector)

/-- `partition_write`. -/
def partition_write (disk : Disk) (p : Partition) (sector : Nat) (buffer : Block) : DiskM Unit :=
  disk.block_write (sum32 p.start sector) buffer

/-- `block_read` of a partition. -/
def Partition.block_read (disk : Disk) (p : Partition) (sector : Nat) : DiskM Block := do
  check_sector p.name p.size sector
  partition_read disk p sector

/-- `block_write` of a partition. -/
def Partition.block_write (disk : Disk) (p : Partition) (sector : Nat) (buffer : Block) :
    DiskM Unit := do
  check_sector p.name p.size sector
  if p.type = .BLOCK_FOREIGN then Machine.panic
  else partition_write disk p sector buffer

/-- `block_register` of a partition: `name` is a `char[16]`. -/
def block_register (name : List Char) (type : BlockType) (size start : Nat) : DiskM Unit := do
  Machine.modify fun d =>
    { d with all_blocks := d.all_blocks ++ [⟨name.take 15, type, size, start⟩] }
  emit (.printf (.sectors (name.take 15) size))

/-! ### Scanning for partitions -/

/-- `struct partition_table_entry`: the fields that are read. -/
structure PartitionTableEntry where
  type : UInt8
  offset : Nat
  size : Nat
  deriving DecidableEq

/-- `pt->partitions[i]`. -/
def partitions (pt : Block) (i : Nat) : PartitionTableEntry where
  type := pt.get (446 + 16 * i + 4)
  offset := pt.u32 (446 + 16 * i + 8)
  size := pt.u32 (446 + 16 * i + 12)

/-- `pt->signature`. -/
def signature (pt : Block) : Nat := (pt.get 510).toNat + 256 * (pt.get 511).toNat

namespace PartitionTableEntry

/-- The entries the scan ignores. -/
def Empty (e : PartitionTableEntry) : Prop := e.size = 0 ∨ e.type = 0

/-- The types of extended partitions. -/
def Extended (e : PartitionTableEntry) : Prop :=
  e.type = 0x05 ∨ e.type = 0x0f ∨ e.type = 0x85 ∨ e.type = 0xc5

instance (e : PartitionTableEntry) : Decidable e.Empty := inferInstanceAs (Decidable (_ ∨ _))
instance (e : PartitionTableEntry) : Decidable e.Extended := inferInstanceAs (Decidable (_ ∨ _))

end PartitionTableEntry

/-- The block type of a partition type, in `found_partition`. -/
def blockType (part_type : UInt8) : BlockType :=
  if part_type = 0x20 then .BLOCK_KERNEL
  else if part_type = 0x21 then .BLOCK_FILESYS
  else if part_type = 0x22 then .BLOCK_SCRATCH
  else if part_type = 0x23 then .BLOCK_SWAP
  else .BLOCK_FOREIGN

/-- The name of a partition: `snprintf (name, 16, "%s%d", ...)`. -/
def partName (disk : Disk) (part_nr : Nat) : List Char :=
  (disk.name ++ Nat.toDigits 10 part_nr).take 15

/-- `found_partition`. -/
def found_partition (disk : Disk) (part_type : UInt8) (start size part_nr : Nat) : DiskM Unit :=
  if disk.size ≤ start then emit (.printf (.starts_past_end disk.name part_nr start))
  else if sum32 start size < start ∨ disk.size < sum32 start size then
    emit (.printf (.ends_past_end disk.name part_nr (sum32 start size) disk.size))
  else block_register (partName disk part_nr) (blockType part_type) size start

/-- One entry of the table that is read for `sector`; `again` is the recursive call. -/
def scan_entry (disk : Disk) (again : Nat → Nat → Nat → DiskM Nat)
    (sector primary_extended_sector part_nr : Nat) (e : PartitionTableEntry) : DiskM Nat :=
  if e.Empty then pure part_nr
  else if e.Extended then do
    emit (.printf (.extended disk.name sector))
    if sector = 0 then again e.offset e.offset part_nr
    else again (sum32 e.offset primary_extended_sector) primary_extended_sector part_nr
  else do
    found_partition disk e.type (sum32 e.offset sector) e.size (part_nr + 1)
    pure (part_nr + 1)

/-- The four entries of a table. -/
def entries (pt : Block) : List PartitionTableEntry := (List.range 4).map (partitions pt)

/-- `read_partition_table`, down to a depth of its recursion; `*part_nr` is passed along and
returned. -/
def read_partition_table (disk : Disk) : Nat → Nat → Nat → Nat → DiskM Nat
  | 0, _, _, _ => Machine.panic
  | depth + 1, sector, primary_extended_sector, part_nr =>
    if disk.size ≤ sector then do
      emit (.printf (.table_past_end disk.name sector))
      pure part_nr
    else do
      let pt ← disk.block_read 0
      if signature pt ≠ 0xaa55 then do
        emit (.printf (if primary_extended_sector = 0 then .invalid_signature disk.name
          else .invalid_extended disk.name sector))
        pure part_nr
      else
        (entries pt).foldlM
          (scan_entry disk (read_partition_table disk depth) sector primary_extended_sector)
          part_nr

/-- `partition_scan`. -/
def partition_scan (disk : Disk) (depth : Nat) : DiskM Unit := do
  let part_nr ← read_partition_table disk depth 0 0 0
  if part_nr = 0 then emit (.printf (.no_partitions disk.name)) else pure ()

/-! ### What the scan does to the state -/

section Keeps

variable {disk : Disk} {P : Disks → Prop}

theorem keeps_check_sector (name : List Char) (size sector : Nat) :
    Machine.Keeps P (check_sector name size sector) := by
  rw [check_sector]
  split
  · exact .bind (.emit _) fun _ => .panic
  · exact .pure ()

theorem keeps_block_read (sector : Nat) : Machine.Keeps P (disk.block_read sector) := by
  refine .bind (keeps_check_sector ..) fun _ => ?_
  refine .bind (.emit _) fun _ => ?_
  exact .get_bind fun s => .pure _

theorem keeps_scan_entry {again : Nat → Nat → Nat → DiskM Nat}
    (hagain : ∀ sector primary part_nr, Machine.Keeps P (again sector primary part_nr))
    {sector primary : Nat} {e : PartitionTableEntry}
    (hfound : ∀ start part_nr, Machine.Keeps P (found_partition disk e.type start e.size part_nr))
    (part_nr : Nat) : Machine.Keeps P (scan_entry disk again sector primary part_nr e) := by
  rw [scan_entry]
  split_ifs
  · exact .pure _
  · exact .bind (.emit _) fun _ => hagain ..
  · exact .bind (.emit _) fun _ => hagain ..
  · exact .bind (hfound ..) fun _ => .pure _

/-- The scan keeps what registering a partition of a thirty-two bit size keeps. -/
theorem keeps_read_partition_table (hfound : ∀ part_type start size part_nr, size < 2 ^ 32 →
      Machine.Keeps P (found_partition disk part_type start size part_nr)) :
    ∀ depth sector primary part_nr,
      Machine.Keeps P (read_partition_table disk depth sector primary part_nr) := by
  intro depth
  induction depth with
  | zero => exact fun _ _ _ => .panic
  | succ depth ih =>
    intro sector primary part_nr
    rw [read_partition_table]
    split
    · exact .bind (.emit _) fun _ => .pure _
    refine .bind (keeps_block_read 0) fun pt => ?_
    split
    · exact .bind (.emit _) fun _ => .pure _
    -- the entries of the table are folded over as they stand in `entries pt`
    rw [entries, foldlM_map]
    refine .foldlM (fun part_nr i => ?_) part_nr
    exact keeps_scan_entry ih (fun start part_nr => hfound _ start _ part_nr (Bytes.u32_lt ..)) _

end Keeps

/-! ### Registered partitions -/

namespace Partition

/-- The partition ends inside the disk. -/
def Inside (p : Partition) (disk : Disk) : Prop := p.start + p.size ≤ disk.size

variable {disk : Disk} {p : Partition} {sector : Nat}

theorem Inside.sum32_start (h : p.Inside disk) (hs : sector < p.size) :
    sum32 p.start sector = p.start + sector := by
  have := disk.size_lt
  rw [Inside] at h
  exact Nat.mod_eq_of_lt (by omega)

theorem Inside.lt_size (h : p.Inside disk) (hs : sector < p.size) :
    p.start + sector < disk.size := by
  rw [Inside] at h
  omega

end Partition

/-- The guards of `found_partition` exclude every sum that wraps. -/
theorem add_le_of_guards {n start size : Nat} (hn : n < 2 ^ 32) (hsize : size < 2 ^ 32)
    (hstart : start < n) (hwrap : start ≤ sum32 start size) (hle : sum32 start size ≤ n) :
    start + size ≤ n := by
  rw [sum32] at hwrap hle
  rcases Nat.lt_or_ge (start + size) (2 ^ 32) with h | h
  · rwa [Nat.mod_eq_of_lt h] at hle
  -- a wrapped sum is smaller than `start`
  · rw [Nat.mod_eq_sub_mod h, Nat.mod_eq_of_lt (by omega)] at hwrap
    omega

/-- The partitions registered after those of `old` all lie inside the disk. -/
def NewInside (disk : Disk) (old : List Partition) (d : Disks) : Prop :=
  ∃ new, d.all_blocks = old ++ new ∧ ∀ p ∈ new, p.Inside disk

theorem keeps_found_partition {disk : Disk} {old : List Partition} (part_type : UInt8)
    (start size part_nr : Nat) (hsize : size < 2 ^ 32) :
    Machine.Keeps (NewInside disk old) (found_partition disk part_type start size part_nr) := by
  rw [found_partition]
  split_ifs with h₁ h₂
  · exact .emit _
  · exact .emit _
  · push Not at h₁ h₂
    refine .bind (.modify ?_) fun _ => .emit _
    rintro d ⟨new, hd, hnew⟩
    refine ⟨new ++ [_], by rw [hd, List.append_assoc], fun p hp => ?_⟩
    rcases List.mem_append.mp hp with hp | hp
    · exact hnew p hp
    · rw [List.mem_singleton.mp hp]
      exact add_le_of_guards disk.size_lt hsize h₁ h₂.1 h₂.2

theorem partition_scan_newInside (disk : Disk) (depth : Nat) (d : Disks) :
    NewInside disk d.all_blocks (partition_scan disk depth d).2.state := by
  have hkeeps : Machine.Keeps (NewInside disk d.all_blocks) (partition_scan disk depth) := by
    refine .bind ?_ fun part_nr => ?_
    · exact keeps_read_partition_table keeps_found_partition depth 0 0 0
    · split
      · exact .emit _
      · exact .pure _
  exact hkeeps ⟨[], (append_nil _).symm, fun p hp => absurd hp not_mem_nil⟩

/-! ### Accesses through a partition -/

section Access

variable {disk : Disk} {p : Partition} {sector : Nat}

theorem check_sector_run {name : List Char} {size sector : Nat} (h : sector < size) :
    check_sector name size sector = pure () := if_neg (by omega)

theorem check_sector_panic {name : List Char} {size sector : Nat} (h : size ≤ sector) (d : Disks) :
    check_sector name size sector d =
      ([.printf (.access_past_end name sector size)], .panic d) := by
  rw [check_sector, if_pos h]
  rfl

theorem Disk.block_read_run (h : sector < disk.size) (d : Disks) :
    disk.block_read sector d = ([.read sector], .done (d.sectors sector) d) := by
  rw [Disk.block_read, check_sector_run h]
  rfl

theorem Disk.block_write_run (h : sector < disk.size) (buffer : Block) (d : Disks) :
    disk.block_write sector buffer d = ([.write sector],
      .done () { d with sectors := update d.sectors sector buffer }) := by
  rw [Disk.block_write, check_sector_run h, if_neg (by rw [Disk.type]; decide)]
  rfl

theorem Partition.Inside.read_run (h : p.Inside disk) (hs : sector < p.size) (d : Disks) :
    partition_read disk p sector d =
      ([.read (p.start + sector)], .done (d.sectors (p.start + sector)) d) := by
  rw [partition_read, h.sum32_start hs]
  exact Disk.block_read_run (h.lt_size hs) d

theorem Partition.Inside.write_run (h : p.Inside disk) (hs : sector < p.size) (buffer : Block)
    (d : Disks) : partition_write disk p sector buffer d = ([.write (p.start + sector)],
      .done () { d with sectors := update d.sectors (p.start + sector) buffer }) := by
  rw [partition_write, h.sum32_start hs]
  exact Disk.block_write_run (h.lt_size hs) buffer d

end Access

/-- Whatever the disk holds and however deep the scan has come, returned or not: the partitions it
registers end inside the disk.  An access to one of their sectors touches that sector of the
partition and returns; an access past their end stops in `check_sector` and touches none. -/
theorem partition_scan_inside (disk : Disk) (depth : Nat) (d : Disks) :
    ∃ new, (partition_scan disk depth d).2.state.all_blocks = d.all_blocks ++ new ∧
      ∀ p ∈ new, p.start + p.size ≤ disk.size ∧ p.start + p.size < 2 ^ 32 ∧
        (∀ sector < p.size, p.start ≤ p.start + sector ∧ p.start + sector < p.start + p.size ∧
          p.start + sector < disk.size ∧ ∀ (buffer : Block) (t : Disks),
            partition_read disk p sector t =
              ([.read (p.start + sector)], .done (t.sectors (p.start + sector)) t) ∧
            partition_write disk p sector buffer t = ([.write (p.start + sector)], .done () { t with
                sectors := update t.sectors (p.start + sector) buffer })) ∧
        ∀ sector, p.size ≤ sector → ∀ (buffer : Block) (t : Disks), p.block_read disk sector t =
            ([.printf (.access_past_end p.name sector p.size)], .panic t) ∧
          p.block_write disk sector buffer t =
            ([.printf (.access_past_end p.name sector p.size)], .panic t) := by
  obtain ⟨new, hnew, hin⟩ := partition_scan_newInside disk depth d
  refine ⟨new, hnew, fun p hp => ?_⟩
  have hp : p.Inside disk := hin p hp
  refine ⟨hp, Nat.lt_of_le_of_lt hp disk.size_lt, fun sector hs => ?_, fun sector hs => ?_⟩
  · refine ⟨Nat.le_add_right .., by omega, hp.lt_size hs, fun buffer t => ?_⟩
    exact ⟨hp.read_run hs t, hp.write_run hs buffer t⟩
  · intro buffer t
    exact ⟨bind_run_panic (check_sector_panic hs t),
      bind_run_panic (check_sector_panic hs t)⟩

end Pintos
