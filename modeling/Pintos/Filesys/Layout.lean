import Pintos.Filesys.BufferCache

/-!
# Filesys — the on-disk inode and its block index

`struct inode_disk` and its image in a sector.  A file of `n` sectors is laid out over three
levels: 13 direct pointers, an index block of 128 entries, and an index block of 128 entries that
each name a further index block.  `sectorAt disk d i` is the sector of position `i`;
`indexSectors` and `dataSectors` list what a file of `n` sectors uses.

`Laid size disk d n` is the invariant of an inode of `n` sectors: its counts are those of `n`, and
the sectors it uses are distinct sectors of the device.  `Agree` says that two inodes on two disks
name the same sectors up to position `n`; it asks for the used entries of the index blocks only,
since the entries after them are whatever the stack held.
-/

namespace Pintos
open Support List Function

/-! ### The functions -/

/-- `bytes_to_sectors`, in the arithmetic of `off_t` and `size_t`. -/
def bytes_to_sectors (size : Nat) : Nat := ((wrap32 (size + 511)).tdiv 512 % 4294967296).toNat

/-- `DIRECT_BLOCKS`. -/
abbrev DIRECT_BLOCKS : Nat := 13

/-- `INDIRECT_BLOCK_ENTRIES`. -/
abbrev INDIRECT_BLOCK_ENTRIES : Nat := 128

/-- `DOUBLE_INDIRECT_BLOCK_ENTRIES`. -/
abbrev DOUBLE_INDIRECT_BLOCK_ENTRIES : Nat := 16384

/-- `FREE_MAP_SECTOR`. -/
abbrev FREE_MAP_SECTOR : Sector := 0

/-- `ROOT_DIR_SECTOR`. -/
abbrev ROOT_DIR_SECTOR : Sector := 1

/-- `INODE_MAGIC`. -/
abbrev INODE_MAGIC : Nat := 0x494e4f44

/-- `struct inode_disk`, less `unused`, which stays zero.  Lengths and counts are those of a
file, so not negative. -/
@[ext]
structure InodeDisk where
  blocks : Fin 15 → Sector
  dir_parent : Sector
  is_dir : Bool
  direct_count : Nat
  indirect_count : Nat
  double_indirect_count : Nat
  start : Sector
  length : Nat
  magic : Nat

namespace InodeDisk

/-- What `calloc` gives. -/
def zero : InodeDisk := ⟨fun _ => 0, 0, false, 0, 0, 0, 0, 0, 0⟩

instance neZero_blocks : NeZero 15 := ⟨by decide⟩

/-- `blocks[i]`. -/
def block (d : InodeDisk) (i : Nat) : Sector := d.blocks (Fin.ofNat 15 i)

/-- `blocks[i] = s`. -/
def setBlock (d : InodeDisk) (i : Nat) (s : Sector) : InodeDisk :=
  { d with blocks := update d.blocks (Fin.ofNat 15 i) s }

/-- The 32-bit words of the struct; `is_dir` is a byte, padded to a word. -/
def words (d : InodeDisk) (k : Nat) : Nat :=
  if k < 15 then d.block k else
    match k with
    | 15 => d.dir_parent
    | 16 => if d.is_dir then 1 else 0
    | 17 => d.direct_count
    | 18 => d.indirect_count
    | 19 => d.double_indirect_count
    | 20 => d.start
    | 21 => d.length
    | 22 => d.magic
    | _ => 0

/-- The struct as a sector. -/
def toBlock (d : InodeDisk) : Block := Bytes.ofWords d.words

/-- A sector read as the struct. -/
def ofBlock (b : Block) : InodeDisk where
  blocks i := b.u32 (4 * i.val)
  dir_parent := b.u32 60
  is_dir := b.get 64 != 0
  direct_count := b.u32 68
  indirect_count := b.u32 72
  double_indirect_count := b.u32 76
  start := b.u32 80
  length := b.u32 84
  magic := b.u32 88

/-- Every word fits its field. -/
def InRange (d : InodeDisk) : Prop := ∀ k, d.words k < 2 ^ 32

variable {d : InodeDisk}

/-- The words past the fields are zero. -/
theorem inRange_of_lt (h : ∀ k < 23, d.words k < 2 ^ 32) : d.InRange := by
  intro k
  by_cases hk : k < 23
  · exact h k hk
  · have hz : d.words k = 0 := by
      unfold words
      rw [if_neg (by omega)]
      split <;> omega
    rw [hz]
    decide

theorem block_setBlock {i j : Nat} {s : Sector} (hi : i < 15) (hj : j < 15) :
    (d.setBlock i s).block j = if j = i then s else d.block j := by
  have h : Fin.ofNat 15 j = Fin.ofNat 15 i ↔ j = i := by
    simp only [Fin.ext_iff, Fin.val_ofNat]
    omega
  simp only [setBlock, block, update_apply, h]

/-- An inode reads back from its sector. -/
theorem ofBlock_toBlock (h : d.InRange) : ofBlock d.toBlock = d := by
  have hw : ∀ k, 4 * k + 4 ≤ 512 → d.toBlock.u32 (4 * k) = d.words k := fun k hk => by
    rw [toBlock, Bytes.u32_ofWords hk, Nat.mod_eq_of_lt (h k)]
  ext1
  · funext i
    show d.toBlock.u32 (4 * i.val) = _
    have hd : d.words i.val = d.block i.val := if_pos i.isLt
    rw [hw i.val (by omega), hd, block]
    congr 1
    exact Fin.ext (Nat.mod_eq_of_lt i.isLt)
  · exact hw 15 (by omega)
  · show (d.toBlock.get 64 != 0) = d.is_dir
    rw [toBlock, Bytes.get_ofWords (by omega)]
    cases hd : d.is_dir <;> simp [words, hd, Bytes.leByte]
  · exact hw 17 (by omega)
  · exact hw 18 (by omega)
  · exact hw 19 (by omega)
  · exact hw 20 (by omega)
  · exact hw 21 (by omega)
  · exact hw 22 (by omega)

end InodeDisk

/-- Entry `i` of an index block. -/
def entry (b : Block) (i : Nat) : Sector := b.u32 (4 * i)

/-- Store entry `i` of an index block. -/
def setEntry (b : Block) (i : Nat) (s : Sector) : Block := b.setU32 (4 * i) s

theorem entry_setEntry {b : Block} {i j : Nat} {s : Sector} (hi : i < 128) (hs : s < 2 ^ 32) :
    entry (setEntry b i s) j = if j = i then s else entry b j :=
  Bytes.u32_setU32_entry (by omega) hs

theorem bytes_to_sectors_eq {size : Nat} (h : size ≤ 2 ^ 31 - 512) :
    bytes_to_sectors size = (size + 511) / 512 := by
  have hw : wrap32 ((size : Int) + 511) = ((size + 511 : Nat) : Int) := by
    simp only [wrap32, Int.bmod_def]
    omega
  rw [bytes_to_sectors, hw, Int.tdiv_eq_ediv_of_nonneg (by omega)]
  omega

/-! ### The sectors of a file -/

section Layout

variable {disk disk' : Sector → Block} {d d' : InodeDisk} {n : Nat}

/-- The second-level index block `k`. -/
def levelTwo (disk : Sector → Block) (d : InodeDisk) (k : Nat) : Sector :=
  entry (disk (d.block 14)) k

/-- The sector of position `i`. -/
def sectorAt (disk : Sector → Block) (d : InodeDisk) (i : Nat) : Sector :=
  if i < 13 then d.block i
  else if i < 141 then entry (disk (d.block 13)) (i - 13)
  else entry (disk (levelTwo disk d ((i - 141) / 128))) ((i - 141) % 128)

/-- The index blocks of a file of `n` sectors. -/
def indexSectors (disk : Sector → Block) (d : InodeDisk) (n : Nat) : List Sector :=
  (if 13 < n then [d.block 13] else []) ++ (if 141 < n then [d.block 14] else []) ++
    (List.range ((n - 141 + 127) / 128)).map (levelTwo disk d)

/-- The data sectors of a file of `n` sectors. -/
def dataSectors (disk : Sector → Block) (d : InodeDisk) (n : Nat) : List Sector :=
  (List.range n).map (sectorAt disk d)

/-- All sectors of a file of `n` sectors but the inode's own. -/
def ownedSectors (disk : Sector → Block) (d : InodeDisk) (n : Nat) : List Sector :=
  indexSectors disk d n ++ dataSectors disk d n

/-- The invariant of the block index of a file of `n` sectors. -/
structure Laid (size : Nat) (disk : Sector → Block) (d : InodeDisk) (n : Nat) : Prop where
  cap : n ≤ 16525
  direct : d.direct_count = min n 13
  indirect : d.indirect_count = min (n - 13) 128
  double : d.double_indirect_count = n - 141
  nodup : (ownedSectors disk d n).Nodup
  valid : ∀ t ∈ ownedSectors disk d n, t < size

/-- `d'` on `disk'` names the sectors that `d` on `disk` does, up to position `n`. -/
structure Agree (disk : Sector → Block) (d : InodeDisk) (disk' : Sector → Block) (d' : InodeDisk)
    (n : Nat) : Prop where
  direct : ∀ i < min n 13, d'.block i = d.block i
  one : 13 < n → d'.block 13 = d.block 13
  one_entries : ∀ i, i + 13 < min n 141 →
    entry (disk' (d.block 13)) i = entry (disk (d.block 13)) i
  two : 141 < n → d'.block 14 = d.block 14
  two_entries : ∀ k, 141 + 128 * k < n → levelTwo disk' d k = levelTwo disk d k
  entries : ∀ k j, j < 128 → 141 + 128 * k + j < n →
    entry (disk' (levelTwo disk d k)) j = entry (disk (levelTwo disk d k)) j

theorem mem_dataSectors {t : Sector} :
    t ∈ dataSectors disk d n ↔ ∃ i < n, sectorAt disk d i = t := by
  simp [dataSectors]

theorem mem_indexSectors {t : Sector} :
    t ∈ indexSectors disk d n ↔ (13 < n ∧ t = d.block 13) ∨ (141 < n ∧ t = d.block 14) ∨
      ∃ k, 141 + 128 * k < n ∧ t = levelTwo disk d k := by
  have hk : ∀ k, k < (n - 141 + 127) / 128 ↔ 141 + 128 * k < n := fun k => by omega
  simp only [indexSectors, mem_append, List.mem_map, List.mem_range, hk, or_assoc]
  refine or_congr ?_ (or_congr ?_ ?_)
  · split <;> simp [*]
  · split <;> simp [*]
  · exact exists_congr fun k => and_congr_right fun _ => eq_comm

theorem indexSectors_one (disk : Sector → Block) (d : InodeDisk) (h : 13 < n) (h' : n ≤ 141) :
    indexSectors disk d n = [d.block 13] := by
  simp [indexSectors, h, show ¬ 141 < n by omega, show (n - 141 + 127) / 128 = 0 by omega]

theorem indexSectors_none (disk : Sector → Block) (d : InodeDisk) (h : n ≤ 13) :
    indexSectors disk d n = [] := by
  simp [indexSectors, show ¬ 13 < n by omega, show ¬ 141 < n by omega,
    show (n - 141 + 127) / 128 = 0 by omega]

theorem Agree.sectorAt_eq (h : Agree disk d disk' d' n) {i : Nat} (hi : i < n) :
    sectorAt disk' d' i = sectorAt disk d i := by
  unfold sectorAt
  split
  · exact h.direct i (by omega)
  · split
    · rw [h.one (by omega)]
      exact h.one_entries (i - 13) (by omega)
    · have h₂ : levelTwo disk' d' ((i - 141) / 128) = levelTwo disk d ((i - 141) / 128) := by
        rw [levelTwo, h.two (by omega)]
        exact h.two_entries _ (by omega)
      rw [h₂]
      exact h.entries _ _ (Nat.mod_lt _ (by omega)) (by omega)

theorem Agree.dataSectors_eq (h : Agree disk d disk' d' n) :
    dataSectors disk' d' n = dataSectors disk d n :=
  map_congr_left fun _ hi => h.sectorAt_eq (List.mem_range.mp hi)

theorem Agree.indexSectors_eq (h : Agree disk d disk' d' n) :
    indexSectors disk' d' n = indexSectors disk d n := by
  have hl : (List.range ((n - 141 + 127) / 128)).map (levelTwo disk' d') =
      (List.range ((n - 141 + 127) / 128)).map (levelTwo disk d) := by
    refine map_congr_left fun k hk => ?_
    have hk' := List.mem_range.mp hk
    rw [levelTwo, h.two (by omega)]
    exact h.two_entries k (by omega)
  unfold indexSectors
  rw [hl]
  congr 2
  · split
    · rw [h.one ‹_›]
    · rfl
  · split
    · rw [h.two ‹_›]
    · rfl

theorem Agree.ownedSectors_eq (h : Agree disk d disk' d' n) :
    ownedSectors disk' d' n = ownedSectors disk d n := by
  rw [ownedSectors, h.indexSectors_eq, h.dataSectors_eq, ownedSectors]

/-- Disks that agree on the index blocks. -/
theorem Agree.of_index (hb : ∀ i < 15, d'.block i = d.block i)
    (h : ∀ t ∈ indexSectors disk d n, disk' t = disk t) : Agree disk d disk' d' n where
  direct i hi := hb i (by omega)
  one _ := hb 13 (by omega)
  one_entries i hi := by rw [h _ (mem_indexSectors.mpr (.inl ⟨by omega, rfl⟩))]
  two _ := hb 14 (by omega)
  two_entries k hk := by
    rw [levelTwo, h _ (mem_indexSectors.mpr (.inr (.inl ⟨by omega, rfl⟩))), levelTwo]
  entries k j _ hj := by rw [h _ (mem_indexSectors.mpr (.inr (.inr ⟨k, by omega, rfl⟩)))]

theorem Agree.trans {disk'' : Sector → Block} {d'' : InodeDisk} (h : Agree disk d disk' d' n)
    (h' : Agree disk' d' disk'' d'' n) : Agree disk d disk'' d'' n where
  direct i hi := (h'.direct i hi).trans (h.direct i hi)
  one hn := (h'.one hn).trans (h.one hn)
  one_entries i hi := by
    rw [← h.one (by omega), h'.one_entries i hi, h.one (by omega), h.one_entries i hi]
  two hn := (h'.two hn).trans (h.two hn)
  two_entries k hk := by
    rw [levelTwo, ← h.two (by omega), ← levelTwo, h'.two_entries k hk, levelTwo, h.two (by omega),
      ← levelTwo, h.two_entries k hk]
  entries k j hj hk := by
    have h₂ : levelTwo disk' d' k = levelTwo disk d k := by
      rw [levelTwo, h.two (by omega), ← levelTwo, h.two_entries k (by omega)]
    have he := h'.entries k j hj hk
    rw [h₂] at he
    exact he.trans (h.entries k j hj hk)

theorem Agree.mono {m : Nat} (h : Agree disk d disk' d' n) (hm : m ≤ n) :
    Agree disk d disk' d' m where
  direct i hi := h.direct i (by omega)
  one hn := h.one (by omega)
  one_entries i hi := h.one_entries i (by omega)
  two hn := h.two (by omega)
  two_entries k hk := h.two_entries k (by omega)
  entries k j hj hk := h.entries k j hj (by omega)

/-- A longer file: the data sectors it had, then the new ones. -/
theorem Agree.dataSectors_extend (h : Agree disk d disk' d' n) {D : List Sector}
    (hD : ∀ j < D.length, sectorAt disk' d' (n + j) = D.getD j 0) :
    dataSectors disk' d' (n + D.length) = dataSectors disk d n ++ D := by
  have hmap : (List.range D.length).map (fun j => sectorAt disk' d' (n + j)) = D := by
    refine ext_getElem (by simp) fun j h₁ h₂ => ?_
    rw [getElem_map, getElem_range, hD j h₂]
    simp [List.getD, h₂]
  rw [dataSectors, List.range_add, map_append, List.map_map, ← h.dataSectors_eq]
  exact congrArg _ hmap

/-- The layout looks at the index blocks and the pointers only. -/
theorem Laid.congr {size : Nat} (hl : Laid size disk d n) (h : Agree disk d disk' d' n)
    (h₁ : d'.direct_count = d.direct_count) (h₂ : d'.indirect_count = d.indirect_count)
    (h₃ : d'.double_indirect_count = d.double_indirect_count) : Laid size disk' d' n where
  cap := hl.cap
  direct := h₁.trans hl.direct
  indirect := h₂.trans hl.indirect
  double := h₃.trans hl.double
  nodup := by rw [h.ownedSectors_eq]; exact hl.nodup
  valid := by rw [h.ownedSectors_eq]; exact hl.valid

end Layout

end Pintos
