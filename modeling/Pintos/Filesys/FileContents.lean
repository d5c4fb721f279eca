import Pintos.Filesys.DiskApi
import Pintos.Filesys.Evictions
import Pintos.Filesys.Flat
import Pintos.Filesys.Replacement

/-!
# Filesys — files as byte arrays, in place

`inode_read_at` and `inode_write_at` of a range within a file read and splice a byte array.  All
they need of the inode is that `byte_to_sector` leads every block to a sector of its own and that
the index blocks are no data and have not been cached (`FilePlaced`); the counts of the inode play
no part.

`in_place_io_iff`: a call does what it should exactly if the evictions it makes stay in the table of
the cache, which is a matter of the round-robin index, of the free slots and of the sectors that the
other slots hold (`SlotTable.Sound`).  The other way out is `cache_evict` with an index that has
wrapped.
-/

namespace Pintos
open Support List

/-! ### Placed files -/

/-- `byte_to_sector` is defined up to the end of the file and injective on blocks; the index blocks
are no data and are not cached. -/
structure FilePlaced (dev : Device) (d : InodeDisk) : Prop where
  maps : ∀ pos < d.length, ∃ s < dev.size, byte_to_sector d pos dev = ([], .done s dev)
  injective : ∀ pos pos' s, pos < d.length → pos' < d.length →
    byte_to_sector d pos dev = ([], .done s dev) → byte_to_sector d pos' dev = ([], .done s dev) →
    pos / 512 = pos' / 512
  apart : ∀ t ∈ indexSectors dev.disk d d.sectors, ∀ pos < d.length,
    byte_to_sector d pos dev ≠ ([], .done t dev)
  uncached : ∀ t ∈ indexSectors dev.disk d d.sectors, ¬ dev.Resident t

/-- The inode with the counts that belong to its length. -/
def InodeDisk.recount (d : InodeDisk) : InodeDisk :=
  { d with
    direct_count := min d.sectors 13
    indirect_count := min (d.sectors - 13) 128
    double_indirect_count := d.sectors - 141 }

section Recount

variable (d : InodeDisk)

theorem inode_read_loop_recount (fuel : Nat) : ∀ size offset,
    inode_read_loop d.recount fuel size offset = inode_read_loop d fuel size offset := by
  induction fuel with
  | zero => exact fun _ _ => rfl
  | succ fuel ih =>
    intro size offset
    unfold inode_read_loop
    simp only [ih]
    rfl

theorem inode_write_loop_recount (fuel : Nat) : ∀ buffer offset,
    inode_write_loop d.recount fuel buffer offset = inode_write_loop d fuel buffer offset := by
  induction fuel with
  | zero => exact fun _ _ => rfl
  | succ fuel ih =>
    intro buffer offset
    unfold inode_write_loop
    simp only [ih]
    rfl

end Recount

section Placed

variable {dev dev' : Device} {d d' : InodeDisk} {es : List Event} {s t : Sector} {pos i : Nat}
  {α : Type}

theorem block_read_done {next : Block → Machine Event Device α} {a : α}
    (h : (block_read s >>= next) dev = (es, .done a dev')) :
    s < dev.size ∧ next (dev.disk s) dev = (es, .done a dev') := by
  by_cases hs : s < dev.size
  · exact ⟨hs, (Machine.bind_run_silent (block_read_run hs) rfl).symm.trans h⟩
  · have hpanic : block_read s dev = ([], .panic dev) := by
      simp [block_read, Machine.bind_run, hs]
    rw [Machine.bind_run_panic hpanic] at h
    cases h

theorem pure_done {a b : α} (h : (pure a : Machine Event Device α) dev = (es, .done b dev')) :
    b = a :=
  (Outcome.done.inj (Prod.mk.inj h).2).1.symm

/-- What a call of `byte_to_sector` that returns says of the index. -/
theorem byte_to_sector_done (hpos : pos < d.length)
    (h : byte_to_sector d pos dev = ([], .done s dev)) :
    s = sectorAt dev.disk d (pos / 512) ∧ pos / 512 < 16525 ∧
      (13 ≤ pos / 512 → pos / 512 < 141 → d.block 13 < dev.size) ∧
      (141 ≤ pos / 512 → d.block 14 < dev.size ∧
        levelTwo dev.disk d ((pos / 512 - 141) / 128) < dev.size) := by
  unfold byte_to_sector at h
  rw [if_pos hpos] at h
  unfold sectorAt
  by_cases h₁ : pos < 13 * 512
  · rw [if_pos h₁] at h
    rw [if_pos (show pos / 512 < 13 by omega)]
    exact ⟨pure_done h, by omega, by omega, by omega⟩
  rw [if_neg h₁] at h
  rw [if_neg (show ¬ pos / 512 < 13 by omega)]
  by_cases h₂ : pos < (13 + 128) * 512
  · rw [if_pos h₂, show (pos - 13 * 512) / (128 * 512) + 13 = 13 by omega] at h
    obtain ⟨hlt, h⟩ := block_read_done h
    rw [show (pos - 13 * 512) % (128 * 512) / 512 = pos / 512 - 13 by omega] at h
    rw [if_pos (show pos / 512 < 141 by omega)]
    exact ⟨pure_done h, by omega, fun _ _ => hlt, by omega⟩
  · rw [if_neg h₂] at h
    obtain ⟨hlt, h⟩ := block_read_done h
    rw [show (pos - (13 + 128) * 512) / (128 * 512) = (pos / 512 - 141) / 128 by omega,
      show (pos - (13 + 128) * 512) % (128 * 512) / 512 = (pos / 512 - 141) % 128 by omega] at h
    rw [if_neg (show ¬ pos / 512 < 141 by omega)]
    by_cases hidx : 128 ≤ (pos / 512 - 141) / 128
    · rw [if_pos hidx] at h
      cases h
    rw [if_neg hidx] at h
    obtain ⟨hlt', h⟩ := block_read_done h
    exact ⟨pure_done h, by omega, by omega, fun _ => ⟨hlt, hlt'⟩⟩

namespace FilePlaced

/-- Block `i` of the file. -/
theorem block (h : FilePlaced dev d) (hi : i < d.sectors) : 512 * i < d.length ∧
    sectorAt dev.disk d i < dev.size ∧
    byte_to_sector d (512 * i) dev = ([], .done (sectorAt dev.disk d i) dev) := by
  have hpos : 512 * i < d.length := by
    have : i < (d.length + 511) / 512 := hi
    omega
  obtain ⟨s, hs, hrun⟩ := h.maps (512 * i) hpos
  obtain ⟨rfl, -⟩ := byte_to_sector_done hpos hrun
  rw [Nat.mul_div_cancel_left i (by omega)] at hs hrun
  exact ⟨hpos, hs, hrun⟩

theorem cap (h : FilePlaced dev d) : d.sectors ≤ 16525 := by
  by_cases hz : d.sectors = 0
  · omega
  obtain ⟨hpos, -, hrun⟩ := h.block (i := d.sectors - 1) (by omega)
  have hlt := (byte_to_sector_done hpos hrun).2.1
  rw [Nat.mul_div_cancel_left _ (by omega)] at hlt
  omega

theorem sectorAt_inj (h : FilePlaced dev d) {j : Nat} (hi : i < d.sectors) (hj : j < d.sectors)
    (he : sectorAt dev.disk d i = sectorAt dev.disk d j) : i = j := by
  obtain ⟨hpos, -, hrun⟩ := h.block hi
  obtain ⟨hpos', -, hrun'⟩ := h.block hj
  have hdiv := h.injective _ _ _ hpos hpos' hrun (he ▸ hrun')
  rwa [Nat.mul_div_cancel_left i (by omega), Nat.mul_div_cancel_left j (by omega)] at hdiv

theorem index_ne (h : FilePlaced dev d) (ht : t ∈ indexSectors dev.disk d d.sectors)
    (hi : i < d.sectors) :
    t ≠ sectorAt dev.disk d i := by
  rintro rfl
  obtain ⟨hpos, -, hrun⟩ := h.block hi
  exact h.apart _ ht _ hpos hrun

theorem index_lt (h : FilePlaced dev d) (ht : t ∈ indexSectors dev.disk d d.sectors) :
    t < dev.size := by
  rcases mem_indexSectors.mp ht with ⟨hn, rfl⟩ | ⟨hn, rfl⟩ | ⟨k, hk, rfl⟩
  · obtain ⟨hpos, -, hrun⟩ := h.block hn
    exact (byte_to_sector_done hpos hrun).2.2.1 (by omega) (by omega)
  · obtain ⟨hpos, -, hrun⟩ := h.block hn
    exact ((byte_to_sector_done hpos hrun).2.2.2 (by omega)).1
  · obtain ⟨hpos, -, hrun⟩ := h.block hk
    have hlt := ((byte_to_sector_done hpos hrun).2.2.2 (by omega)).2
    rwa [show (512 * (141 + 128 * k) / 512 - 141) / 128 = k by omega] at hlt

theorem sectorAt_one (disk : Sector → Block) (d : InodeDisk) :
    sectorAt disk d 13 = entry (disk (d.block 13)) 0 := rfl

theorem sectorAt_two (disk : Sector → Block) (d : InodeDisk) (k : Nat) :
    sectorAt disk d (141 + 128 * k) = entry (disk (levelTwo disk d k)) 0 := by
  rw [sectorAt, if_neg (by omega), if_neg (by omega), show (141 + 128 * k - 141) / 128 = k by omega,
    show (141 + 128 * k - 141) % 128 = 0 by omega]

/-- Index blocks that coincide would share their first entry. -/
theorem nodup_index (h : FilePlaced dev d) : (indexSectors dev.disk d d.sectors).Nodup := by
  have hone : 141 < d.sectors → d.block 13 ≠ d.block 14 := by
    intro hn he
    refine h.index_ne (mem_indexSectors.mpr (.inr (.inr ⟨0, hn, rfl⟩))) (i := 13) (by omega) ?_
    rw [sectorAt_one, he]
    rfl
  have htwo : ∀ k, 141 + 128 * k < d.sectors → d.block 13 ≠ levelTwo dev.disk d k := by
    intro k hk he
    have := h.sectorAt_inj (i := 13) (by omega) hk (by rw [sectorAt_one, sectorAt_two, he])
    omega
  have hself : ∀ k, 141 + 128 * k < d.sectors → d.block 14 ≠ levelTwo dev.disk d k := by
    intro k hk he
    refine h.index_ne (mem_indexSectors.mpr (.inr (.inr ⟨0, by omega, rfl⟩))) hk ?_
    rw [sectorAt_two, ← he]
    rfl
  have hsame : ∀ k l, 141 + 128 * k < d.sectors → 141 + 128 * l < d.sectors →
      levelTwo dev.disk d k = levelTwo dev.disk d l → k = l := by
    intro k l hk hl he
    have := h.sectorAt_inj hk hl (by rw [sectorAt_two, sectorAt_two, he])
    omega
  have hcount : ∀ k, k < (d.sectors - 141 + 127) / 128 ↔ 141 + 128 * k < d.sectors :=
    fun k => by omega
  rw [indexSectors, List.append_assoc, nodup_append', nodup_append']
  refine ⟨by split <;> simp, ⟨by split <;> simp, ?_, ?_⟩, ?_⟩
  · refine Nodup.map_on (fun k hk l hl he => ?_) nodup_range
    rw [List.mem_range, hcount] at hk hl
    exact hsame k l hk hl he
  · intro t ht ht'
    obtain ⟨k, hk, rfl⟩ := List.mem_map.mp ht'
    rw [List.mem_range, hcount] at hk
    rw [if_pos (by omega), List.mem_singleton] at ht
    exact hself k hk ht.symm
  · intro t ht ht'
    split at ht
    · rw [List.mem_singleton.mp ht] at ht'
      rcases List.mem_append.mp ht' with h₁ | h₂
      · split at h₁
        · exact hone ‹_› (List.mem_singleton.mp h₁)
        · cases h₁
      · obtain ⟨k, hk, he⟩ := List.mem_map.mp h₂
        rw [List.mem_range, hcount] at hk
        exact htwo k hk he.symm
    · cases ht

/-- A placed file is laid out, but for its counts. -/
theorem onDisk (h : FilePlaced dev d) (hcache : CacheOk dev) : OnDisk dev d.recount := by
  refine ⟨hcache, ⟨h.cap, rfl, rfl, rfl, ?_, ?_⟩, fun t ht hdirty => ?_⟩
  · refine List.nodup_append'.mpr ⟨h.nodup_index, ?_, fun t ht ht' => ?_⟩
    · refine Nodup.map_on (fun i hi j hj he => ?_) nodup_range
      exact h.sectorAt_inj (List.mem_range.mp hi) (List.mem_range.mp hj) he
    · obtain ⟨i, hi, rfl⟩ := mem_dataSectors.mp ht'
      exact h.index_ne ht hi rfl
  · intro t ht
    rcases List.mem_append.mp ht with hindex | hdata
    · exact h.index_lt hindex
    · obtain ⟨i, hi, rfl⟩ := mem_dataSectors.mp hdata
      exact (h.block hi).2.1
  · exact h.uncached t ht hdirty.resident

theorem of_onDisk (h : OnDisk dev d.recount)
    (hun : ∀ t ∈ indexSectors dev.disk d d.sectors, ¬ dev.Resident t) : FilePlaced dev d := by
  have hrun : ∀ pos < d.length, byte_to_sector d pos dev =
      ([], .done (sectorAt dev.disk d (pos / 512)) dev) := fun pos hpos =>
    byte_to_sector_run (d := d.recount) h.laid hpos
  have hdone : ∀ {pos s}, pos < d.length → byte_to_sector d pos dev = ([], .done s dev) →
      s = sectorAt dev.disk d (pos / 512) := fun hpos hs => (byte_to_sector_done hpos hs).1
  have hblock : ∀ {pos}, pos < d.length → pos / 512 < (d.length + 511) / 512 := fun _ => by omega
  refine ⟨fun pos hpos => ⟨_, h.laid.sectorAt_lt (hblock hpos), hrun pos hpos⟩, ?_, ?_, hun⟩
  · intro pos pos' s hpos hpos' hs hs'
    exact h.laid.sectorAt_inj (hblock hpos) (hblock hpos')
      ((hdone hpos hs).symm.trans (hdone hpos' hs'))
  · intro t ht pos hpos hs
    exact h.laid.index_not_data ht (mem_dataSectors.mpr ⟨_, hblock hpos, (hdone hpos hs).symm⟩)

/-- Accesses that spare the index blocks keep a file placed, where it was. -/
theorem access {R W : Sector → Prop} (h : FilePlaced dev d) (hcache : CacheOk dev)
    (ha : Access R W es dev dev') (hR : ∀ t ∈ indexSectors dev.disk d d.sectors, ¬ R t)
    (hW : ∀ t ∈ indexSectors dev.disk d d.sectors, ¬ W t) :
    FilePlaced dev' d ∧ Agree dev.disk d dev'.disk d d.sectors := by
  obtain ⟨hag, hd⟩ := (h.onDisk hcache).access ha fun t hw ht => hW t ht hw
  have hag' : Agree dev.disk d dev'.disk d d.sectors :=
    ⟨hag.direct, hag.one, hag.one_entries, hag.two, hag.two_entries, hag.entries⟩
  refine ⟨of_onDisk hd fun t ht hres => ?_, hag'⟩
  rw [hag'.indexSectors_eq] at ht
  rcases ha.resident t hres with hres | hread
  · exact h.uncached t ht hres
  · exact hR t ht hread

/-- Accesses that write no sector of the file keep its bytes. -/
theorem bytes_eq {R W : Sector → Prop} (h : FilePlaced dev d) (hcache : CacheOk dev)
    (ha : Access R W es dev dev') (hR : ∀ t ∈ indexSectors dev.disk d d.sectors, ¬ R t)
    (hW : ∀ t ∈ ownedSectors dev.disk d d.sectors, ¬ W t) (hpos : pos < d.length) :
    byteAt dev' d pos = byteAt dev d pos := by
  obtain ⟨-, hag⟩ := h.access hcache ha hR fun t ht => hW t (mem_append_left _ ht)
  have hblock : pos / 512 < d.sectors := by
    show pos / 512 < (d.length + 511) / 512
    omega
  rw [byteAt, hag.sectorAt_eq hblock, ha.logical_eq, byteAt]
  exact hW _ (mem_append_right _ (mem_dataSectors.mpr ⟨_, hblock, rfl⟩))

end FilePlaced

end Placed

/-! ### Reads and writes -/

/-- The bytes of a file. -/
def contents (dev : Device) (d : InodeDisk) : List UInt8 := fileRead dev d 0 d.length

section Contents

variable {dev dev' : Device} {d : InodeDisk}

@[simp] theorem length_contents : (contents dev d).length = d.length := by
  simp [contents, fileRead]

theorem getElem?_contents {pos : Nat} (h : pos < d.length) :
    (contents dev d)[pos]? = some (byteAt dev d pos) := by
  simp [contents, fileRead, h]

theorem fileRead_eq_contents (offset size : Nat) :
    fileRead dev d offset (min size (d.length - offset)) =
      ((contents dev d).drop offset).take size := by
  refine ext_getElem ?_ fun j h₁ h₂ => ?_
  · simp [fileRead]
  · simp [fileRead, contents]

theorem contents_congr (h : ∀ pos < d.length, byteAt dev' d pos = byteAt dev d pos) :
    contents dev' d = contents dev d :=
  fileRead_congr fun pos _ hpos => h pos (by omega)

end Contents

/-- The data of `d` shares no sector with `d'`. -/
def DataApart (dev : Device) (d d' : InodeDisk) : Prop :=
  ∀ t ∈ dataSectors dev.disk d d.sectors, t ∉ ownedSectors dev.disk d' d'.sectors

/-- The files that share no sector with `d` are as they were. -/
def OthersKept (d : InodeDisk) (dev dev' : Device) : Prop :=
  ∀ d', FilePlaced dev d' → DataApart dev d d' →
    FilePlaced dev' d' ∧ contents dev' d' = contents dev d'

section Calls

variable {k : Fs} {p : Addr} {i : Inode InodeDisk} {size offset : Nat} {buffer : List UInt8}
  {d : InodeDisk} {dev dev' : Device}

/-- Accesses to the data of a file. -/
theorem Access.others_kept {W : Sector → Prop} {es : List Event} (hcache : CacheOk dev)
    (ha : Access (· ∈ dataSectors dev.disk d d.sectors) W es dev dev')
    (hW : ∀ t, W t → t ∈ dataSectors dev.disk d d.sectors) : OthersKept d dev dev' := by
  intro d' hd' hapart
  have hR : ∀ t ∈ indexSectors dev.disk d' d'.sectors, t ∉ dataSectors dev.disk d d.sectors :=
    fun t ht hdata => hapart t hdata (mem_append_left _ ht)
  refine ⟨(hd'.access hcache ha hR fun t ht hw => hR t ht (hW t hw)).1, ?_⟩
  exact contents_congr fun pos hpos =>
    hd'.bytes_eq hcache ha hR (fun t ht hw => hapart t (hW t hw) ht) hpos

/-- `inode_read_at` returns the bytes of the file up to its end. -/
theorem inode_read_at_runs (hp : k.mem p = some i) (hcache : CacheOk k.device)
    (hfile : FilePlaced k.device i.data) :
    (inode_read_at p size offset).Runs Event.InTable k fun es bytes k' =>
      bytes = ((contents k.device i.data).drop offset).take size ∧ ∃ dev, k' = k.setDevice dev ∧
        Access (· ∈ dataSectors k.device.disk i.data i.data.sectors) (fun _ => False) es
          k.device dev := by
  refine Machine.Runs.silent_bind (deref_run hp) ?_
  rw [← inode_read_loop_recount]
  refine Machine.Runs.mono (onDevice_runs
    (inode_read_loop_runs (fun _ h => h) _ (hfile.onDisk hcache) le_rfl)) ?_
  rintro es bytes k' - ⟨dev, rfl, hbytes, ha⟩
  exact ⟨hbytes.trans (fileRead_eq_contents offset size), dev, rfl, ha⟩

theorem emits_inode_read_at (p : Addr) (size offset : Nat) :
    Machine.Emits Event.InTable (inode_read_at p size offset) :=
  Machine.Emits.bind (emits_deref p) fun _ => Machine.Emits.zoom (emits_inode_read_loop _ _ _ _)

/-- The index blocks of a placed file are none of its data. -/
theorem FilePlaced.index_not_data {dev : Device} (h : FilePlaced dev d) :
    ∀ t ∈ indexSectors dev.disk d d.sectors, t ∉ dataSectors dev.disk d d.sectors := by
  intro t ht hdata
  obtain ⟨j, hj, rfl⟩ := mem_dataSectors.mp hdata
  exact h.index_ne ht hj rfl

/-- A read that returns leaves the file as it was. -/
theorem inode_read_at_keeps (hp : k.mem p = some i) (hcache : CacheOk k.device)
    (hfile : FilePlaced k.device i.data) :
    (inode_read_at p size offset).Runs Event.InTable k fun _ bytes k' =>
      bytes = ((contents k.device i.data).drop offset).take size ∧
      k'.mem = k.mem ∧ CacheOk k'.device ∧ FilePlaced k'.device i.data ∧
      contents k'.device i.data = contents k.device i.data ∧
      OthersKept i.data k.device k'.device := by
  refine Machine.Runs.mono (inode_read_at_runs hp hcache hfile) ?_
  rintro es bytes k' - ⟨hbytes, dev, rfl, ha⟩
  refine ⟨hbytes, rfl, ha.ok, ?_, ?_, ?_⟩
  · exact (hfile.access hcache ha hfile.index_not_data fun _ _ => id).1
  · exact contents_congr fun pos hpos =>
      hfile.bytes_eq hcache ha hfile.index_not_data (fun _ _ => id) hpos
  · exact ha.others_kept hcache fun _ => False.elim

theorem contents_overwrite (hle : offset + buffer.length ≤ d.length)
    (h : ∀ pos < d.length, byteAt dev' d pos =
      if offset ≤ pos ∧ pos < offset + buffer.length then buffer.getD (pos - offset) 0
      else byteAt dev d pos) :
    contents dev' d = overwrite (contents dev d) offset buffer := by
  refine ext_getElem? fun j => ?_
  rw [getElem?_overwrite (by rw [length_contents]; omega)]
  by_cases hj : j < d.length
  · rw [getElem?_contents hj, getElem?_contents hj, h j hj]
    by_cases hin : offset ≤ j ∧ j < offset + buffer.length
    · have hlt : j - offset < buffer.length := by omega
      rw [if_pos hin, if_neg (by omega), if_pos hin.2, getD_eq_getElem?_getD,
        List.getElem?_eq_getElem hlt]
      rfl
    · rw [if_neg hin]
      split
      · rfl
      · rw [if_neg (by omega)]
  · have hnone : ∀ dev, (contents dev d)[j]? = none := fun dev =>
      List.getElem?_eq_none (by rw [length_contents]; omega)
    rw [hnone, hnone, if_neg (by omega), if_neg (by omega)]

/-- A write within the file does not grow it. -/
theorem inode_write_at_in_place (hp : k.mem p = some i) (hdeny : i.deny_write_cnt = 0)
    (hfile : FilePlaced k.device i.data) (hle : offset + buffer.length ≤ i.data.length) :
    inode_write_at p buffer offset k =
      onDevice (inode_write_loop i.data buffer.length buffer offset) k := by
  have hlen : i.data.length ≤ 16525 * 512 := by
    have hcap : (i.data.length + 511) / 512 ≤ 16525 := hfile.cap
    omega
  have hext : inode_extend i (wrap32 (offset + buffer.length)) = pure i.data := by
    have hwrap : wrap32 (offset + buffer.length) = offset + buffer.length :=
      Int.bmod_eq_of_le (by omega) (by omega)
    exact if_neg (by omega)
  have hself : k.setInode p i = k := by
    rw [Kernel.setInode, ← hp, Function.update_eq_self]
  refine Machine.bind_run_silent (deref_run hp) ?_
  rw [if_neg (by simpa using hdeny), hext]
  refine Machine.bind_run_silent (Machine.pure_run _ _) ?_
  refine Machine.bind_run_silent (Machine.modify_run _ _) ?_
  show onDevice _ (k.setInode p i) = _
  rw [hself]

/-- `inode_write_at` within the file splices its bytes. -/
theorem inode_write_at_runs (hp : k.mem p = some i) (hdeny : i.deny_write_cnt = 0)
    (hcache : CacheOk k.device) (hfile : FilePlaced k.device i.data)
    (hle : offset + buffer.length ≤ i.data.length) :
    (inode_write_at p buffer offset).Runs Event.InTable k fun es m k' =>
      m = buffer.length ∧ ∃ dev, k' = k.setDevice dev ∧
        contents dev i.data = overwrite (contents k.device i.data) offset buffer ∧
        Access (· ∈ dataSectors k.device.disk i.data i.data.sectors)
          (· ∈ dataSectors k.device.disk i.data i.data.sectors) es k.device dev := by
  refine Machine.Runs.of_eq (inode_write_at_in_place hp hdeny hfile hle) ?_
  rw [← inode_write_loop_recount]
  refine Machine.Runs.mono (onDevice_runs
    (inode_write_loop_runs (fun _ h => h) _ (hfile.onDisk hcache) le_rfl)) ?_
  rintro es m k' - ⟨dev, rfl, hm, -, hbytes, ha⟩
  have hm : m = buffer.length := by
    have : m = min buffer.length (i.data.length - offset) := hm
    omega
  subst hm
  refine ⟨rfl, dev, rfl, contents_overwrite hle fun pos hpos => hbytes pos ?_, ha⟩
  show pos < 512 * ((i.data.length + 511) / 512)
  omega

theorem inode_read_at_eq (hp : k.mem p = some i) : inode_read_at p size offset k =
    onDevice (inode_read_loop i.data size size offset) k :=
  Machine.bind_run_silent (deref_run hp) rfl

/-- The accesses of a placed file to the cache. -/
theorem FilePlaced.read_accesses (h : FilePlaced dev d) (hcache : CacheOk dev) :
    Accesses false (rangeSectors dev.disk d offset (min size (d.length - offset)))
      (inode_read_loop d size size offset) dev fun _ => True := by
  rw [← inode_read_loop_recount]
  refine inode_read_loop_accesses (d := d.recount) size ?_ le_rfl
  exact (h.onDisk hcache).reachable (Nat.min_le_right ..)

theorem FilePlaced.write_accesses (h : FilePlaced dev d) (hcache : CacheOk dev)
    (hle : offset + buffer.length ≤ d.length) :
    Accesses true (rangeSectors dev.disk d offset buffer.length)
      (inode_write_loop d buffer.length buffer offset) dev (· = buffer.length) := by
  have hm : min buffer.length (d.recount.length - offset) = buffer.length :=
    Nat.min_eq_left (Nat.le_sub_of_add_le' hle)
  have hr : Reachable true dev d.recount offset _ :=
    (h.onDisk hcache).reachable (Nat.min_le_right buffer.length _)
  have hf := inode_write_loop_accesses buffer.length hr le_rfl
  rwa [hm, inode_write_loop_recount] at hf

/-- **In-place file I/O is access to a byte array**, exactly as long as the indices name slots that
the accesses to the sectors of the range reach from the cache before the call. -/
theorem in_place_io_iff (hp : k.mem p = some i) (hdeny : i.deny_write_cnt = 0)
    (hcache : CacheOk k.device) (hfile : FilePlaced k.device i.data) :
    (∀ size offset, (∃ es bytes k', inode_read_at p size offset k = (es, .done bytes k') ∧
        bytes.length = min size (i.data.length - offset) ∧
        bytes = ((contents k.device i.data).drop offset).take size ∧
        k'.mem = k.mem ∧ CacheOk k'.device ∧ FilePlaced k'.device i.data ∧
        contents k'.device i.data = contents k.device i.data ∧
        OthersKept i.data k.device k'.device) ↔
      k.device.table.Sound false (rangeSectors k.device.disk i.data offset
        (min size (i.data.length - offset)))) ∧
    ∀ buffer offset, offset + buffer.length ≤ i.data.length →
      ((∃ es k', inode_write_at p buffer offset k = (es, .done buffer.length k') ∧
        k'.mem = k.mem ∧ CacheOk k'.device ∧ FilePlaced k'.device i.data ∧
        (∀ size offset' es' bytes k'', inode_read_at p size offset' k' = (es', .done bytes k'') →
          bytes = ((overwrite (contents k.device i.data) offset buffer).drop offset').take size) ∧
        OthersKept i.data k.device k'.device) ↔
      k.device.table.Sound true (rangeSectors k.device.disk i.data offset buffer.length)) := by
  refine ⟨fun size offset => ⟨?_, fun hs => ?_⟩, fun buffer offset hle => ⟨?_, fun hs => ?_⟩⟩
  · rintro ⟨es, bytes, k', hrun, -⟩
    rw [inode_read_at_eq hp] at hrun
    obtain ⟨dev, hdev, -⟩ := onDevice_done hrun
    exact ((hfile.read_accesses hcache).of_done hdev).2.1
  · obtain ⟨es, bytes, dev, hdev, -⟩ := (hfile.read_accesses hcache).returns hs
    have hrun := (inode_read_at_eq hp).trans (onDevice_run hdev)
    obtain ⟨hbytes, hkept⟩ := (inode_read_at_keeps hp hcache hfile).of_done hrun
      (emits_inode_read_at _ _ _ hrun)
    refine ⟨es, bytes, _, hrun, ?_, hbytes, hkept⟩
    rw [hbytes, length_take, length_drop, length_contents]
  · rintro ⟨es, k', hrun, -⟩
    rw [inode_write_at_in_place hp hdeny hfile hle] at hrun
    obtain ⟨dev, hdev, -⟩ := onDevice_done hrun
    exact ((hfile.write_accesses hcache hle).of_done hdev).2.1
  · obtain ⟨es, m, dev, hdev, -⟩ := (hfile.write_accesses hcache hle).returns hs
    have hrun := (inode_write_at_in_place hp hdeny hfile hle).trans (onDevice_run hdev)
    obtain ⟨rfl, dev', hk', hcontents, ha⟩ := (inode_write_at_runs hp hdeny hcache hfile hle).of_done
      hrun (emits_inode_write_loop _ _ _ _ hdev)
    have hfile' : FilePlaced dev' i.data :=
      (hfile.access hcache ha hfile.index_not_data hfile.index_not_data).1
    rw [hk'] at hrun
    refine ⟨_, _, hrun, rfl, ha.ok, hfile', ?_, ha.others_kept hcache fun _ => id⟩
    intro size offset' es' bytes k'' hread
    have hq := (inode_read_at_runs (k := k.setDevice dev') hp ha.ok hfile').of_done hread
      (emits_inode_read_at _ _ _ hread)
    rw [hq.1]
    exact congrArg (fun l => (l.drop offset').take size) hcontents

end Calls

/-- The inode of a file of three bytes, in sector 64. -/
def byteInode : InodeDisk :=
  { InodeDisk.zero with blocks := fun _ => 64, direct_count := 1, length := 3 }

/-- A device of 65 sectors, with the first 64 in the cache, and a file of the bytes 1, 2 and 3, in
the last sector. -/
def byteFs (round_robin_idx : Int) : Fs where
  mem p := if p = 0 then some ⟨4, 1, false, 0, false, byteInode⟩ else none
  next := 1
  open_inodes := [0]
  dev := {
    device := {
      size := 65
      disk := fun s => if s = 64 then setEntry Bytes.zero 0 0x030201 else Bytes.zero
      cache_table := fun j => ⟨true, 0, true, false, Bytes.zero, j.val⟩
      round_robin_idx := round_robin_idx }
    free_map := ⟨65, fun _ => true⟩
    free_map_file := none
    stack := fun _ => Bytes.zero
    frame := 0 }

theorem cacheOk_byteFs (r : Int) : CacheOk (byteFs r).device := by
  refine ⟨fun hi hj => Fin.ext (hi.2.trans hj.2.symm), fun {j s} hj _ => ?_, fun _ => rfl, ?_⟩
  · obtain rfl : j.val = s := hj.2
    exact (if_neg (Nat.ne_of_lt j.isLt)).symm
  · rintro s ⟨j, -, rfl⟩
    exact Nat.lt_succ_of_lt j.isLt

theorem filePlaced_byteFs (r : Int) : FilePlaced (byteFs r).device byteInode := by
  have hlen : byteInode.length = 3 := rfl
  refine ⟨fun pos hpos => ⟨64, Nat.lt_succ_self 64, ?_⟩, fun pos pos' _ hpos hpos' _ _ => by omega,
    nofun, nofun⟩
  obtain rfl | rfl | rfl : pos = 0 ∨ pos = 1 ∨ pos = 2 := by omega
  all_goals rfl

/-- Two of the bytes are written. -/
theorem in_place_io_byteFs : ∃ es k', inode_write_at 0 [7, 8] 1 (byteFs 0) = (es, .done 2 k') ∧
    FilePlaced k'.device byteInode ∧ ∀ es' bytes k'',
      inode_read_at 0 3 0 k' = (es', .done bytes k'') → bytes = [1, 7, 8] := by
  have hio := in_place_io_iff (k := byteFs 0) (p := 0) rfl rfl (cacheOk_byteFs 0)
    (filePlaced_byteFs 0)
  obtain ⟨es, k', hrun, -, -, hfile, hread, -⟩ :=
    (hio.2 [7, 8] 1 (by decide)).mpr (by decide +kernel)
  refine ⟨es, k', hrun, hfile, fun es' bytes k'' h => (hread 3 0 es' bytes k'' h).trans ?_⟩
  decide +kernel

/-- With an index that has wrapped, neither a read nor a write of a byte returns. -/
theorem in_place_io_fails : CacheOk (byteFs (-2147483648)).device ∧
    (∃ i, (byteFs (-2147483648)).mem 0 = some i ∧ i.deny_write_cnt = 0 ∧ i.data.length = 3 ∧
      FilePlaced (byteFs (-2147483648)).device i.data) ∧
    (returned (inode_read_at 0 1 0 (byteFs (-2147483648)))).isNone = true ∧
    (returned (inode_write_at 0 [7] 0 (byteFs (-2147483648)))).isNone = true :=
  ⟨cacheOk_byteFs _, ⟨_, rfl, rfl, rfl, filePlaced_byteFs _⟩, by decide +kernel, by decide +kernel⟩

end Pintos
