import Pintos.Devices.Partition
import Mathlib.Data.Finset.Card

/-!
# Devices — following extended partitions

`read_partition_table` is called for a sector but reads sector 0, so the tables it follows are
copies of the master boot record.  Two things follow.

* **Termination.**  The recursion is finite exactly for those master boot records that lead
  nowhere: the disk or the signature stops the scan at once, or every extended entry that points
  into the disk points past sector 0 to a place from which no extended entry points into the disk
  (`scan_terminates_iff`).  An extended entry in the middle of a disk that has room for it twice
  is enough for an endless recursion.
* **What is registered.**  `listed` is the traversal that reads each table where it is, with nested
  tables found relative to the extended partition of the master boot record; `registered` numbers
  its entries and keeps those inside the disk.  For a master boot record that some well-formed disk
  has, the scan registers these on every such disk exactly if no entry is extended
  (`scan_exact_iff`): the scan does not see the logical partitions.
-/

namespace Pintos
open Support List
open Machine (Keeps bind_run_done emit emit_run)
open PartitionTableEntry (Extended)

variable {disk : Disk} {T pt : Block} {d : Disks} {e : PartitionTableEntry} {S : Nat → Block}
  {depth sector primary part_nr size start : Nat} {again : Nat → Nat → Nat → DiskM Nat}
  {part_type : UInt8}

/-- A non-empty extended entry of a table. -/
def Nested (pt : Block) (e : PartitionTableEntry) : Prop :=
  e ∈ entries pt ∧ ¬ e.Empty ∧ e.Extended

/-- The scan from `d` returns, in a state of `Q`. -/
def ScanReturns (disk : Disk) (d : Disks) (Q : Disks → Prop) : Prop :=
  ∃ depth, (partition_scan disk depth).Returns d fun _ => Q

/-! ### The bound on the depth -/

theorem read_partition_table_below : ∀ depth sector primary part_nr,
    Machine.Below (read_partition_table disk depth sector primary part_nr)
      (read_partition_table disk (depth + 1) sector primary part_nr) := by
  intro depth
  induction depth with
  | zero => exact fun _ _ _ => .panic _
  | succ depth ih =>
    intro sector primary part_nr
    rw [read_partition_table, read_partition_table]
    split
    · exact .refl _
    refine .bind (.refl _) fun pt => ?_
    split
    · exact .refl _
    refine .foldlM (fun part_nr e => ?_) _ part_nr
    rw [scan_entry, scan_entry]
    split_ifs
    · exact .refl _
    · exact .bind (.refl _) fun _ => ih ..
    · exact .bind (.refl _) fun _ => ih ..
    · exact .refl _

theorem partition_scan_below (depth : Nat) :
    Machine.Below (partition_scan disk depth) (partition_scan disk (depth + 1)) :=
  Machine.Below.bind (read_partition_table_below ..) fun _ => .refl _

/-- What the scan returns does not depend on the bound. -/
theorem ScanReturns.and {Q Q' : Disks → Prop} (h : ScanReturns disk d Q)
    (h' : ScanReturns disk d Q') : ScanReturns disk d fun d' => Q d' ∧ Q' d' := by
  obtain ⟨depth, h⟩ := h
  obtain ⟨depth', h'⟩ := h'
  exact ⟨depth, Machine.Below.unique partition_scan_below h h'⟩

/-! ### One entry -/

/-- `d` with more partitions on `all_blocks`. -/
def Disks.register (d : Disks) (ps : List Partition) : Disks :=
  { d with all_blocks := d.all_blocks ++ ps }

theorem Disks.register_nil (d : Disks) : d.register [] = d := by
  rw [Disks.register, append_nil]

theorem Disks.register_append (d : Disks) (ps qs : List Partition) :
    d.register (ps ++ qs) = (d.register ps).register qs := by
  rw [Disks.register, Disks.register, Disks.register, List.append_assoc]

/-- What an entry that says `start` adds to the partitions, as number `part_nr`. -/
def partitionOf (disk : Disk) (part_nr start : Nat) (e : PartitionTableEntry) : List Partition :=
  if start < disk.size ∧ start + e.size ≤ disk.size then
    [⟨partName disk part_nr, blockType e.type, e.size, start⟩]
  else []

theorem size_lt_of_mem (he : e ∈ entries pt) : e.size < 2 ^ 32 := by
  obtain ⟨i, -, rfl⟩ := List.mem_map.mp he
  exact Bytes.u32_lt ..

theorem offset_lt_of_mem (he : e ∈ entries pt) : e.offset < 2 ^ 32 := by
  obtain ⟨i, -, rfl⟩ := List.mem_map.mp he
  exact Bytes.u32_lt ..

/-- `found_partition` registers the partition if it lies inside the disk. -/
theorem found_partition_returns {part_nr : Nat} (hsize : e.size < 2 ^ 32) :
    (found_partition disk e.type start e.size part_nr).Returns d fun _ d' =>
      d' = d.register (partitionOf disk part_nr start e) := by
  have hn := disk.size_lt
  have hsame : d = d.register [] := d.register_nil.symm
  rw [found_partition, partitionOf]
  split_ifs with h₁ h₂ h₃ h₄ h₅
  · exact absurd h₂.1 (by omega)
  · exact ⟨_, _, _, emit_run _ _, hsame⟩
  · rw [sum32, Nat.mod_eq_of_lt (by omega)] at h₃
    omega
  · exact ⟨_, _, _, emit_run _ _, hsame⟩
  · refine ⟨_, _, _, rfl, ?_⟩
    rw [Disks.register, partName, take_take, Nat.min_self]
  · push Not at h₁ h₃ h₅
    exact absurd (add_le_of_guards hn hsize h₁ h₃.1 h₃.2) (Nat.not_le.mpr (h₅ h₁))

/-! ### One table -/

/-- The scan leaves the sectors alone. -/
theorem keeps_found_sectors (part_type : UInt8) (start size part_nr : Nat) :
    Keeps (fun d => d.sectors = S) (found_partition disk part_type start size part_nr) := by
  rw [found_partition]
  split_ifs
  · exact .emit _
  · exact .emit _
  · exact .bind (.modify fun _ h => h) fun _ => .emit _

theorem keeps_sectors (depth sector primary part_nr : Nat) (e : PartitionTableEntry) :
    Keeps (fun d => d.sectors = S)
      (scan_entry disk (read_partition_table disk depth) sector primary part_nr e) := by
  refine keeps_scan_entry ?_ (fun start part_nr => keeps_found_sectors ..) part_nr
  exact keeps_read_partition_table (fun _ _ _ _ _ => keeps_found_sectors ..) depth

/-- The fold over the entries of sector 0, as it runs for `sector`. -/
def scan_entries (disk : Disk) (T : Block) (depth sector primary part_nr : Nat) : DiskM Nat :=
  (entries T).foldlM (scan_entry disk (read_partition_table disk depth) sector primary) part_nr

/-- For a sector of the disk the scan reads sector 0, and goes through its entries. -/
theorem read_partition_table_run (hsector : sector < disk.size)
    (hsig : signature (d.sectors 0) = 0xaa55) :
    read_partition_table disk (depth + 1) sector primary part_nr d =
      (.read 0 :: (scan_entries disk (d.sectors 0) depth sector primary part_nr d).1,
        (scan_entries disk (d.sectors 0) depth sector primary part_nr d).2) := by
  rw [read_partition_table, if_neg (by omega),
    bind_run_done (Disk.block_read_run (by omega) d), if_neg (not_not.mpr hsig)]
  rfl

theorem read_partition_table_past_end (hsector : disk.size ≤ sector) :
    read_partition_table disk (depth + 1) sector primary part_nr d =
      ([.printf (.table_past_end disk.name sector)], .done part_nr d) := by
  rw [read_partition_table, if_pos hsector]
  rfl

/-! ### Termination -/

/-- The sector that an extended entry sends the scan to. -/
def next_sector (sector primary : Nat) (e : PartitionTableEntry) : Nat :=
  if sector = 0 then e.offset else sum32 e.offset primary

/-- The extended partition the next tables are relative to. -/
def next_primary (sector primary : Nat) (e : PartitionTableEntry) : Nat :=
  if sector = 0 then e.offset else primary

theorem scan_entry_nested {sector primary part_nr : Nat} (hne : ¬ e.Empty) (he : e.Extended) :
    scan_entry disk again sector primary part_nr e = (do
      emit (.printf (.extended disk.name sector))
      again (next_sector sector primary e) (next_primary sector primary e) part_nr) := by
  rw [scan_entry, if_neg hne, if_pos he, next_sector, next_primary]
  split <;> rfl

/-- The extended entries of sector 0 that a scan does not come back from: one that points to
sector 0 itself, or to a place from which another points into the disk. -/
def Endless (disk : Disk) (T : Block) (e : PartitionTableEntry) : Prop :=
  Nested T e ∧ e.offset < disk.size ∧
    (e.offset = 0 ∨ ∃ e', Nested T e' ∧ sum32 e'.offset e.offset < disk.size)

/-- The places an endless scan comes to. -/
def Caught (disk : Disk) (e : PartitionTableEntry) (sector primary : Nat) : Prop :=
  sector < disk.size ∧ (sector = 0 ∨ primary = e.offset ∧ e.offset ≠ 0)

/-- From such a place an extended entry leads to another. -/
theorem Endless.next (he : Endless disk T e) {sector primary : Nat}
    (h : Caught disk e sector primary) : ∃ x, Nested T x ∧
      Caught disk e (next_sector sector primary x) (next_primary sector primary x) := by
  obtain ⟨hnest, hlt, hnext⟩ := he
  simp only [next_sector, next_primary]
  by_cases h0 : sector = 0
  · refine ⟨e, hnest, ?_⟩
    rw [if_pos h0, if_pos h0]
    refine ⟨hlt, ?_⟩
    by_cases hz : e.offset = 0
    · exact .inl hz
    · exact .inr ⟨rfl, hz⟩
  · obtain ⟨rfl, hne⟩ := h.2.resolve_left h0
    obtain ⟨e', he', hlt'⟩ := hnext.resolve_left hne
    refine ⟨e', he', ?_⟩
    rw [if_neg h0, if_neg h0]
    exact ⟨hlt', .inr ⟨rfl, hne⟩⟩

/-- With such an entry the scan of sector 0, and of every place it leads to, goes on for ever. -/
theorem Endless.never (he : Endless disk T e) (hS : S 0 = T) (hsig : signature T = 0xaa55) :
    ∀ depth {sector primary part_nr d}, d.sectors = S → Caught disk e sector primary →
      (read_partition_table disk depth sector primary part_nr).Ends d fun _ _ => False := by
  intro depth
  induction depth with
  | zero => exact fun _ _ => .panic
  | succ depth ih =>
    intro sector primary part_nr d hd hcaught
    obtain ⟨x, hx, hnext⟩ := he.next hcaught
    have hfold : (scan_entries disk T depth sector primary part_nr).Ends d fun _ _ => False := by
      refine .foldlM_never (P := fun d => d.sectors = S)
        (fun part_nr e d hd => (keeps_sectors ..).ends hd) hx.1 (fun part_nr d hd => ?_) hd
      rw [scan_entry_nested hx.2.1 hx.2.2]
      refine .bind (.emit (Q := fun _ d' => d'.sectors = S) hd) ?_
      exact fun _ d' hd' => ih hd' hnext
    intro es a d' hr
    rw [read_partition_table_run hcaught.1 (by rw [hd, hS, hsig]), hd, hS] at hr
    have hdone : (scan_entries disk T depth sector primary part_nr d).2 = .done a d' :=
      congrArg Prod.snd hr
    exact hfold (Prod.ext rfl hdone)

theorem read_partition_table_run_invalid (hsector : sector < disk.size)
    (hsig : signature (d.sectors 0) ≠ 0xaa55) :
    (read_partition_table disk (depth + 1) sector primary part_nr).Returns d
      fun _ d' => d' = d := by
  rw [read_partition_table, if_neg (by omega)]
  exact ⟨_, _, _, by
    rw [bind_run_done (Disk.block_read_run (by omega) d), if_pos hsig]; rfl, rfl⟩

/-- A scan returns if it does from every place an extended entry leads to. -/
theorem read_partition_table_returns (hd : d.sectors = S)
    (hnext : sector < disk.size → signature (S 0) = 0xaa55 → ∀ e, Nested (S 0) e →
      ∀ part_nr d', d'.sectors = S → (read_partition_table disk depth (next_sector sector primary e)
          (next_primary sector primary e) part_nr).Returns d' fun _ d'' => d''.sectors = S) :
    (read_partition_table disk (depth + 1) sector primary part_nr).Returns d
      fun _ d' => d'.sectors = S := by
  rcases Nat.lt_or_ge sector disk.size with hsector | hsector
  · by_cases hsig : signature (S 0) = 0xaa55
    · have hfold : (scan_entries disk (S 0) depth sector primary part_nr).Returns d
          fun _ d' => d'.sectors = S := by
        refine .foldlM (P := fun d : Disks => d.sectors = S) (fun part_nr e he d' hd' => ?_) hd
        by_cases hne : e.Empty
        · rw [scan_entry, if_pos hne]
          exact .pure hd'
        by_cases hext : e.Extended
        · rw [scan_entry_nested hne hext]
          exact .bind ⟨_, _, _, emit_run _ _, hd'⟩
            fun _ d'' => hnext hsector hsig e ⟨he, hne, hext⟩ part_nr d''
        · rw [scan_entry, if_neg hne, if_neg hext]
          refine .bind (found_partition_returns (size_lt_of_mem he)) ?_
          rintro _ _ rfl
          exact .pure hd'
      obtain ⟨es, a, d', hr, hd'⟩ := hfold
      subst hd
      exact ⟨_, a, d', by rw [read_partition_table_run hsector hsig, hr], hd'⟩
    · refine (read_partition_table_run_invalid hsector (by rwa [hd])).mono ?_
      rintro _ _ rfl
      exact hd
  · exact ⟨_, _, _, read_partition_table_past_end hsector, hd⟩

/-- The scan of a disk is finite exactly if the disk is empty, its sector 0 is no partition table,
or no extended entry of sector 0 leads back into the disk. -/
theorem scan_terminates_iff (disk : Disk) (d : Disks) :
    (∃ depth, (read_partition_table disk depth 0 0 0).Returns d fun _ _ => True) ↔
      disk.size = 0 ∨ signature (d.sectors 0) ≠ 0xaa55 ∨
        ∀ e, Nested (d.sectors 0) e → e.offset < disk.size → e.offset ≠ 0 ∧
          ∀ e', Nested (d.sectors 0) e' → disk.size ≤ sum32 e'.offset e.offset := by
  constructor
  · rintro ⟨depth, es, a, d', hr, -⟩
    by_contra hnot
    push Not at hnot
    obtain ⟨hsize, hsig, e, he, hlt, hnext⟩ := hnot
    have hend : Endless disk (d.sectors 0) e := by
      refine ⟨he, hlt, ?_⟩
      by_cases hz : e.offset = 0
      · exact .inl hz
      · exact .inr (hnext hz)
    exact hend.never rfl hsig depth rfl ⟨Nat.pos_of_ne_zero hsize, .inl rfl⟩ hr
  · intro h
    -- three levels: sector 0, the tables it points to, and the places those point to
    refine ⟨3, (read_partition_table_returns rfl fun hsize hsig e he part_nr d₁ hd₁ => ?_).mono
      fun _ _ _ => trivial⟩
    refine read_partition_table_returns hd₁ fun hlt _ e' he' part_nr d₂ hd₂ => ?_
    refine read_partition_table_returns hd₂ fun hlt' _ => absurd hlt' ?_
    obtain ⟨hne, hpast⟩ := (h.resolve_left (by omega)).resolve_left (not_not.mpr hsig) e he
      (by rwa [next_sector, if_pos rfl] at hlt)
    have := hpast e' he'
    simp only [next_sector, next_primary, if_true, if_neg hne]
    omega

/-! ### Tables with one entry -/

/-- A partition table with one entry. -/
def oneEntry (e : PartitionTableEntry) : Block := fun i =>
  if i.val = 450 then e.type
  else if 454 ≤ i.val ∧ i.val < 458 then Bytes.leByte e.offset (i.val - 454)
  else if 458 ≤ i.val ∧ i.val < 462 then Bytes.leByte e.size (i.val - 458)
  else if i.val = 510 then 0x55
  else if i.val = 511 then 0xaa
  else 0

theorem signature_oneEntry (e : PartitionTableEntry) : signature (oneEntry e) = 0xaa55 := by
  have h₁ : (oneEntry e).get 510 = 0x55 := rfl
  have h₂ : (oneEntry e).get 511 = 0xaa := rfl
  rw [signature, h₁, h₂]
  decide

theorem entries_oneEntry (hoffset : e.offset < 2 ^ 32) (hsize : e.size < 2 ^ 32) :
    entries (oneEntry e) = [e, ⟨0, 0, 0⟩, ⟨0, 0, 0⟩, ⟨0, 0, 0⟩] := by
  have h₁ : (oneEntry e).u32 454 = e.offset :=
    (Bytes.word_le32 e.offset).trans (Nat.mod_eq_of_lt hoffset)
  have h₂ : (oneEntry e).u32 458 = e.size :=
    (Bytes.word_le32 e.size).trans (Nat.mod_eq_of_lt hsize)
  have h₀ : partitions (oneEntry e) 0 = e := by
    rw [partitions, h₁, h₂]
    rfl
  rw [entries, show List.range 4 = [0, 1, 2, 3] from rfl, List.map_cons, h₀]
  rfl

theorem eq_of_nested_oneEntry {e x : PartitionTableEntry} (hoffset : e.offset < 2 ^ 32)
    (hsize : e.size < 2 ^ 32) (hx : Nested (oneEntry e) x) : x = e := by
  obtain ⟨he, hne, -⟩ := hx
  rw [entries_oneEntry hoffset hsize] at he
  rcases List.mem_cons.mp he with rfl | he
  · rfl
  · have hblank : x = ⟨0, 0, 0⟩ := by simpa using he
    exact absurd (.inl (by rw [hblank])) hne

theorem not_nested_oneEntry (hoffset : e.offset < 2 ^ 32) (hsize : e.size < 2 ^ 32)
    (hplain : ¬ e.Extended) (x : PartitionTableEntry) :
    ¬ Nested (oneEntry e) x := by
  intro hx
  have hext := hx.2.2
  rw [eq_of_nested_oneEntry hoffset hsize hx] at hext
  exact hplain hext

theorem nested_oneEntry (hoffset : e.offset < 2 ^ 32) (hsize : e.size < 2 ^ 32) (hne : ¬ e.Empty)
    (hext : e.Extended) : Nested (oneEntry e) e := by
  refine ⟨?_, hne, hext⟩
  rw [entries_oneEntry hoffset hsize]
  exact List.mem_cons_self

/-- A disk of three sectors whose sector 0 has an extended partition in sector 1: the scan follows
it to sector 1 and, reading sector 0 again, from there to sector 2, and again and again. -/
theorem scan_endless : ¬ ∃ depth, (read_partition_table ⟨[], 3, by decide⟩ depth 0 0 0).Returns
    ⟨fun _ => oneEntry ⟨0x05, 1, 1⟩, []⟩ fun _ _ => True := by
  rintro ⟨depth, es, a, d', hr, -⟩
  have hnest : Nested (oneEntry ⟨0x05, 1, 1⟩) ⟨0x05, 1, 1⟩ :=
    nested_oneEntry (by decide) (by decide) (by decide) (by decide)
  have hend : Endless ⟨[], 3, by decide⟩ (oneEntry ⟨0x05, 1, 1⟩) ⟨0x05, 1, 1⟩ :=
    ⟨hnest, by decide, .inr ⟨_, hnest, by decide⟩⟩
  exact hend.never (S := fun _ => oneEntry ⟨0x05, 1, 1⟩) rfl (signature_oneEntry _) depth rfl
    ⟨by decide, .inl rfl⟩ hr

/-! ### The tables where they are -/

/-- Where a well-formed chain has the next table: absolute in the master boot record, and relative
to the extended partition that it points to in every other table. -/
def table_at (sector primary : Nat) (e : PartitionTableEntry) : Nat :=
  if sector = 0 then e.offset else e.offset + primary

/-- The tables from `sector` on are in range and valid, and their nesting is finite. -/
def ValidTables (S : Nat → Block) (size : Nat) : Nat → Nat → Nat → Prop
  | 0, _, _ => False
  | depth + 1, sector, primary => sector < size ∧ signature (S sector) = 0xaa55 ∧
      ∀ e, Nested (S sector) e →
        ValidTables S size depth (table_at sector primary e) (next_primary sector primary e)

/-- What a table lists for one entry, `nest` being the table it points to if it is extended. -/
def items (nest : PartitionTableEntry → List (Nat × PartitionTableEntry)) (sector : Nat)
    (e : PartitionTableEntry) : List (Nat × PartitionTableEntry) :=
  if e.Empty then [] else if e.Extended then nest e else [(sector + e.offset, e)]

/-- The partitions of the tables from `sector` on, in the order of the traversal, with the sector
each entry says its partition starts at. -/
def listed (S : Nat → Block) : Nat → Nat → Nat → List (Nat × PartitionTableEntry)
  | 0, _, _ => []
  | depth + 1, sector, primary => (entries (S sector)).flatMap (items
      (fun e => listed S depth (table_at sector primary e) (next_primary sector primary e)) sector)

/-- The partitions to register: the listed ones numbered from `part_nr`, of which those outside the
disk are left out. -/
def registered (disk : Disk) (part_nr : Nat) (l : List (Nat × PartitionTableEntry)) :
    List Partition :=
  (l.zipIdx part_nr).flatMap fun x => partitionOf disk x.2 x.1.1 x.1.2

/-- The scan returns, and has registered what the tables list. -/
def ScanExact (disk : Disk) (d : Disks) (depth : Nat) : Prop :=
  ScanReturns disk d fun d' => d'.sectors = d.sectors ∧
    d'.all_blocks = d.all_blocks ++ registered disk 1 (listed d.sectors depth 0 0)

theorem registered_nil (part_nr : Nat) : registered disk part_nr [] = [] := rfl

theorem registered_append (part_nr : Nat) (l l' : List (Nat × PartitionTableEntry)) :
    registered disk part_nr (l ++ l') =
      registered disk part_nr l ++ registered disk (part_nr + l.length) l' := by
  rw [registered, zipIdx_append, flatMap_append]
  rfl

theorem registered_cons (part_nr start : Nat) (e : PartitionTableEntry)
    (l : List (Nat × PartitionTableEntry)) : registered disk part_nr ((start, e) :: l) =
      partitionOf disk part_nr start e ++ registered disk (part_nr + 1) l := by
  simp [registered, zipIdx_cons]

/-- A listed partition inside the disk is registered, with its type. -/
theorem exists_registered (hstart : start < disk.size) (hend : start + e.size ≤ disk.size)
    {l : List (Nat × PartitionTableEntry)} (hl : (start, e) ∈ l) :
    ∀ part_nr, ∃ p ∈ registered disk part_nr l, p.type = blockType e.type := by
  induction l with
  | nil => exact absurd hl not_mem_nil
  | cons x l ih =>
    intro part_nr
    rw [registered_cons]
    rcases List.mem_cons.mp hl with rfl | hl
    · rw [partitionOf, if_pos ⟨hstart, hend⟩]
      exact ⟨_, mem_append_left _ (List.mem_singleton_self _), rfl⟩
    · obtain ⟨p, hp, htype⟩ := ih hl (part_nr + 1)
      exact ⟨p, mem_append_right _ hp, htype⟩

/-- An extended entry of a well-formed master boot record does not point back to it. -/
theorem ValidTables.offset_ne_zero (he : Nested (S 0) e) :
    ∀ {depth}, ValidTables S size depth 0 0 → e.offset ≠ 0 := by
  intro depth
  induction depth with
  | zero => exact fun h => h.elim
  | succ depth ih =>
    intro h hz
    have hnext := h.2.2 e he
    rw [table_at, next_primary, if_pos rfl, if_pos rfl, hz] at hnext
    exact ih hnext hz

theorem ValidTables.offset_lt {depth : Nat} (he : Nested (S 0) e)
    (h : ValidTables S size depth 0 0) : e.offset < size := by
  cases depth with
  | zero => exact h.elim
  | succ depth =>
    have hnext := h.2.2 e he
    rw [table_at, if_pos rfl] at hnext
    cases depth with
    | zero => exact hnext.elim
    | succ depth => exact hnext.1

/-! ### A scan without extended entries -/

/-- An entry of sector 0 that is not extended is registered as it is listed. -/
theorem scan_plain_entry (nest : PartitionTableEntry → List (Nat × PartitionTableEntry))
    (he : e ∈ entries T) (hplain : ¬ Nested T e) (part_nr : Nat) (d : Disks) :
    (scan_entry disk again 0 0 part_nr e).Returns d fun part_nr' d' =>
      part_nr' = part_nr + (items nest 0 e).length ∧
        d' = d.register (registered disk (part_nr + 1) (items nest 0 e)) := by
  rw [scan_entry, items]
  by_cases hne : e.Empty
  · rw [if_pos hne, if_pos hne]
    exact .pure ⟨rfl, (Disks.register_nil d).symm⟩
  · have hext : ¬ e.Extended := fun hext => hplain ⟨he, hne, hext⟩
    have hstart : sum32 e.offset 0 = 0 + e.offset := by
      rw [sum32, Nat.add_comm]
      exact Nat.mod_eq_of_lt (by have := offset_lt_of_mem he; omega)
    rw [if_neg hne, if_neg hne, if_neg hext, if_neg hext, hstart]
    refine .bind (found_partition_returns (size_lt_of_mem he)) fun _ d' hd' => ?_
    refine .pure ⟨rfl, ?_⟩
    rw [hd', registered_cons, registered_nil, append_nil]

theorem scan_plain_entries {nest : PartitionTableEntry → List (Nat × PartitionTableEntry)}
    {l : List PartitionTableEntry} (hl : ∀ e ∈ l, e ∈ entries T ∧ ¬ Nested T e) :
    ∀ {part_nr : Nat} {d : Disks},
      (l.foldlM (scan_entry disk again 0 0) part_nr).Returns d fun _ d' =>
        d' = d.register (registered disk (part_nr + 1) (l.flatMap (items nest 0))) := by
  induction l with
  | nil => exact .pure (Disks.register_nil _).symm
  | cons e l ih =>
    intro part_nr d
    obtain ⟨he, hplain⟩ := hl e List.mem_cons_self
    rw [foldlM_cons, flatMap_cons]
    refine .bind (scan_plain_entry nest he hplain part_nr d) ?_
    rintro _ _ ⟨rfl, rfl⟩
    refine (ih fun e he => hl e (List.mem_cons_of_mem _ he)).mono fun _ d' hd' => ?_
    rw [hd', registered_append, Disks.register_append, Nat.add_right_comm]

/-- Without extended entries the scan registers what the master boot record lists. -/
theorem scan_exact_of_plain {depth : Nat} (hvalid : ValidTables d.sectors disk.size depth 0 0)
    (hplain : ∀ e, ¬ Nested (d.sectors 0) e) : ScanExact disk d depth := by
  cases depth with
  | zero => exact hvalid.elim
  | succ depth =>
    obtain ⟨hsize, hsig, -⟩ := hvalid
    have hfold : (scan_entries disk (d.sectors 0) 0 0 0 0).Returns d fun _ d' =>
        d' = d.register (registered disk 1 (listed d.sectors (depth + 1) 0 0)) :=
      scan_plain_entries fun e he => ⟨he, hplain e⟩
    obtain ⟨es, part_nr, d', hr, rfl⟩ := hfold
    refine ⟨1, .bind (Q := fun _ d' => d' = d.register _)
      ⟨_, part_nr, _, by rw [read_partition_table_run hsize hsig, hr], rfl⟩ ?_⟩
    rintro _ _ rfl
    split
    · exact ⟨_, _, _, emit_run _ _, rfl, rfl⟩
    · exact .pure ⟨rfl, rfl⟩

/-! ### A scan with extended entries -/

/-- A property of the state, which holds sector 0 fixed, that registering the entries of sector 0
keeps is kept by a scan that returns. -/
theorem read_partition_table_ends {P : Disks → Prop} (hT : ∀ d, P d → d.sectors 0 = T)
    (hfound : ∀ e ∈ entries T, ∀ start part_nr d, P d →
      P (d.register (partitionOf disk part_nr start e))) :
    ∀ depth {sector primary part_nr d}, P d →
      (read_partition_table disk depth sector primary part_nr).Ends d fun _ => P := by
  intro depth
  induction depth with
  | zero => exact fun _ => .panic
  | succ depth ih =>
    intro sector primary part_nr d hd
    rw [read_partition_table]
    split
    · exact .bind (.emit hd) fun _ _ hd' => .pure hd'
    rename_i hsector
    refine .bind (Q := fun pt d' => pt = T ∧ d' = d) ?_ ?_
    · intro es a d' hr
      rw [Disk.block_read_run (by omega)] at hr
      cases hr
      exact ⟨hT d hd, rfl⟩
    rintro _ _ ⟨rfl, rfl⟩
    split
    · exact .bind (.emit hd) fun _ _ hd' => .pure hd'
    refine .foldlM (fun part_nr e he d' hd' => ?_) hd
    rw [scan_entry]
    split_ifs
    · exact .pure hd'
    · exact .bind (.emit hd') fun _ _ hd'' => ih hd''
    · exact .bind (.emit hd') fun _ _ hd'' => ih hd''
    · refine .bind (Q := fun _ => P) ?_ fun _ _ hd'' => .pure hd''
      intro es a d'' hr
      rw [(found_partition_returns (size_lt_of_mem he)).of_done hr]
      exact hfound e he _ _ d' hd'

/-- Some type of partitions is missing from the four entries of a table. -/
theorem exists_missing_type (T : Block) : ∃ part_type : UInt8, part_type ≠ 0 ∧
    ¬ Extended ⟨part_type, 0, 1⟩ ∧
    ∀ e ∈ entries T, blockType e.type ≠ blockType part_type := by
  have hcard : ((entries T).map fun e => blockType e.type).toFinset.card <
      (([0x20, 0x21, 0x22, 0x23, 0x83] : List UInt8).map blockType).toFinset.card := by
    refine Nat.lt_of_le_of_lt (toFinset_card_le _) ?_
    rw [length_map, entries, length_map, length_range]
    decide
  obtain ⟨t, ht, hmissing⟩ := Finset.exists_mem_notMem_of_card_lt_card hcard
  obtain ⟨part_type, hmem, rfl⟩ := List.mem_map.mp (List.mem_toFinset.mp ht)
  have hgood : ∀ x ∈ ([0x20, 0x21, 0x22, 0x23, 0x83] : List UInt8), x ≠ 0 ∧
      ¬ Extended ⟨x, 0, 1⟩ := by
    simp only [List.forall_mem_cons]
    exact ⟨by decide, by decide, by decide, by decide, by decide, forall_mem_nil _⟩
  refine ⟨part_type, (hgood _ hmem).1, (hgood _ hmem).2, fun e he heq => hmissing ?_⟩
  exact List.mem_toFinset.mpr (List.mem_map.mpr ⟨e, he, heq⟩)

/-- The tables of a disk whose sectors other than the master boot record are all tables with a
single partition of one sector at their own place. -/
def logicalDisk (T : Block) (part_type : UInt8) (k : Nat) : Block :=
  if k = 0 then T else oneEntry ⟨part_type, 0, 1⟩

theorem validTables_logicalDisk {depth : Nat} (hplain : ¬ Extended ⟨part_type, 0, 1⟩)
    (h : ValidTables S size depth 0 0) :
    ValidTables (logicalDisk (S 0) part_type) size 2 0 0 := by
  have htop : 0 < size ∧ signature (S 0) = 0xaa55 := by
    cases depth with
    | zero => exact h.elim
    | succ depth => exact ⟨h.1, h.2.1⟩
  refine ⟨htop.1, htop.2, fun e (he : Nested (S 0) e) => ?_⟩
  have hne := h.offset_ne_zero he
  rw [table_at, next_primary, if_pos rfl, if_pos rfl, ValidTables, logicalDisk, if_neg hne]
  refine ⟨h.offset_lt he, signature_oneEntry _, fun x hx => ?_⟩
  exact absurd hx (not_nested_oneEntry (by simp) (by simp) hplain x)

theorem mem_listed_logicalDisk (he : Nested T e) (hne : e.offset ≠ 0) (hzero : part_type ≠ 0)
    (hplain : ¬ Extended ⟨part_type, 0, 1⟩) :
    (e.offset, ⟨part_type, 0, 1⟩) ∈ listed (logicalDisk T part_type) 2 0 0 := by
  have hentry : ¬ PartitionTableEntry.Empty ⟨part_type, 0, 1⟩ := by
    rintro (h | h)
    · exact absurd h Nat.one_ne_zero
    · exact hzero h
  refine List.mem_flatMap.mpr ⟨e, he.1, ?_⟩
  rw [items, if_neg he.2.1, if_pos he.2.2, table_at, next_primary, if_pos rfl, if_pos rfl, listed,
    logicalDisk, if_neg hne, entries_oneEntry (by simp) (by simp)]
  refine List.mem_flatMap.mpr ⟨_, List.mem_cons_self, ?_⟩
  rw [items, if_neg hentry, if_neg hplain]
  exact List.mem_singleton_self _

/-- The partitions of a scan have the types of the entries of sector 0. -/
theorem partition_scan_types {t : Disks} (depth : Nat)
    (ht : ∀ p ∈ t.all_blocks, ∃ e ∈ entries (t.sectors 0), p.type = blockType e.type) :
    (partition_scan disk depth).Ends t fun _ t' =>
      ∀ p ∈ t'.all_blocks, ∃ e ∈ entries (t.sectors 0), p.type = blockType e.type := by
  have hread : (read_partition_table disk depth 0 0 0).Ends t fun _ t' =>
      t'.sectors 0 = t.sectors 0 ∧
        ∀ p ∈ t'.all_blocks, ∃ e ∈ entries (t.sectors 0), p.type = blockType e.type := by
    refine read_partition_table_ends (fun _ h => h.1) ?_ depth ⟨rfl, ht⟩
    rintro e he start part_nr t' ⟨h0, htypes⟩
    refine ⟨h0, fun p hp => ?_⟩
    rcases List.mem_append.mp hp with hp | hp
    · exact htypes p hp
    · rw [partitionOf] at hp
      split at hp
      · rw [List.mem_singleton.mp hp]
        exact ⟨e, he, rfl⟩
      · exact absurd hp not_mem_nil
  refine .bind hread fun part_nr t' h => ?_
  split
  · exact .emit h.2
  · exact .pure h.2

/-- For a master boot record that some well-formed disk of the size has: the scan registers what
the tables of the disk list, on every well-formed disk with that record, exactly if the record has
no extended partition. -/
theorem scan_exact_iff (T : Block) (size : Nat) (hsize : size < 2 ^ 32)
    (hT : ∃ S depth, S 0 = T ∧ ValidTables S size depth 0 0) :
    (∀ (disk : Disk) (d : Disks) (depth : Nat), disk.size = size → d.sectors 0 = T →
      ValidTables d.sectors size depth 0 0 → ScanExact disk d depth) ↔ ∀ e, ¬ Nested T e := by
  constructor
  · intro h e he
    obtain ⟨S, depth, rfl, hS⟩ := hT
    obtain ⟨part_type, hzero, hplain, hmissing⟩ := exists_missing_type (S 0)
    obtain ⟨bound, es, a, d', hr, -, hblocks⟩ :=
      h ⟨[], size, hsize⟩ ⟨logicalDisk (S 0) part_type, []⟩ 2 rfl rfl
        (validTables_logicalDisk hplain hS)
    -- the tables list a logical partition of the missing type
    have hlisted := mem_listed_logicalDisk he (hS.offset_ne_zero he) hzero hplain
    obtain ⟨p, hp, htype⟩ : ∃ p ∈ registered ⟨[], size, hsize⟩ 1
        (listed (logicalDisk (S 0) part_type) 2 0 0), p.type = blockType part_type := by
      refine exists_registered ?_ ?_ hlisted 1
      · exact hS.offset_lt he
      · exact hS.offset_lt he
    -- the scan registers no partition of that type
    obtain ⟨x, hx, heq⟩ := partition_scan_types bound
      (fun p hp => absurd hp not_mem_nil) hr p (by rw [hblocks]; exact hp)
    exact hmissing x hx (heq.symm.trans htype)
  · intro hplain disk d depth hdisk hd hvalid
    subst hdisk hd
    exact scan_exact_of_plain hvalid hplain

/-- A disk of ten sectors whose only partition is a file system in sectors 1 and 2. -/
theorem scan_exact_file_system : ScanExact ⟨['h', 'd', 'a'], 10, by decide⟩
    ⟨fun _ => oneEntry ⟨0x21, 1, 2⟩, []⟩ 1 := by
  have hplain : ∀ e, ¬ Nested (oneEntry ⟨0x21, 1, 2⟩) e :=
    not_nested_oneEntry (by decide) (by decide) (by decide)
  have hvalid : ValidTables (fun _ => oneEntry ⟨0x21, 1, 2⟩) 10 1 0 0 :=
    ⟨by decide, signature_oneEntry _, fun e he => absurd he (hplain e)⟩
  exact (scan_exact_iff _ 10 (by decide) ⟨_, 1, rfl, hvalid⟩).mpr hplain _ _ 1 rfl rfl hvalid

/-- A disk of 100 sectors with an extended partition in sector 60, where a valid table lists a file
system of ten sectors. -/
def logicalTables (k : Nat) : Block :=
  if k = 0 then oneEntry ⟨0x05, 60, 40⟩ else oneEntry ⟨0x21, 1, 10⟩

def logicalHda : Disk := ⟨['h', 'd', 'a'], 100, by decide⟩

/-- The tables list a file system in sectors 61 to 70; the scan of the disk registers nothing. -/
theorem scan_misses_logical : ValidTables logicalTables 100 2 0 0 ∧
    registered logicalHda 1 (listed logicalTables 2 0 0) =
      [⟨['h', 'd', 'a', '1'], .BLOCK_FILESYS, 10, 61⟩] ∧
    ScanReturns logicalHda ⟨logicalTables, []⟩ (fun d' => d'.all_blocks = []) ∧
    ¬ ScanExact logicalHda ⟨logicalTables, []⟩ 2 := by
  have hnest : ∀ {e}, Nested (logicalTables 0) e → e = ⟨0x05, 60, 40⟩ :=
    eq_of_nested_oneEntry (by decide) (by decide)
  have hvalid : ValidTables logicalTables 100 2 0 0 := by
    refine ⟨by decide, signature_oneEntry _, fun e he => ?_⟩
    rw [hnest he]
    refine ⟨by decide, signature_oneEntry _, fun x hx => ?_⟩
    exact absurd hx (not_nested_oneEntry (by decide) (by decide) (by decide) x)
  have hlisted : registered logicalHda 1 (listed logicalTables 2 0 0) =
      [⟨['h', 'd', 'a', '1'], .BLOCK_FILESYS, 10, 61⟩] := by decide +kernel
  have hscan : ScanReturns logicalHda ⟨logicalTables, []⟩ (fun d' => d'.all_blocks = []) :=
    ⟨3, _, (), ⟨logicalTables, []⟩, rfl, rfl⟩
  refine ⟨hvalid, hlisted, hscan, fun hexact => ?_⟩
  obtain ⟨_, _, _, _, _, hnil, -, hblocks⟩ := hscan.and hexact
  rw [hnil, hlisted] at hblocks
  exact absurd hblocks (by simp)

end Pintos
