import Pintos.Filesys.OpenInodes
import Pintos.Filesys.FreeInode

/-!
# Filesys — a sound volume

`VolOk L D k`: the inodes in use are those of the sectors `L`, and `D s` is what the inode of `s`
says now, in memory while it is open and on the disk otherwise.  Each is laid out on sectors of
its own, all in use; the cache holds no inode and no index block; the file of the free map is one
of them and is open.

`inode_open_runs` and `inode_retire_runs` say what the first open and the last close of an inode do
to a sound volume.
-/

namespace Pintos
open Support Function List
open InodeDisk (ofBlock)

/-- The number of sectors of the file. -/
abbrev InodeDisk.sectors (d : InodeDisk) : Nat := (d.length + 511) / 512

namespace Kernel

/-- The sectors of the file that `d` describes. -/
abbrev owned (k : Fs) (d : InodeDisk) : List Sector :=
  ownedSectors k.dev.device.disk d d.sectors

/-- Its index blocks. -/
abbrev index (k : Fs) (d : InodeDisk) : List Sector :=
  indexSectors k.dev.device.disk d d.sectors

/-- Its data sectors. -/
abbrev data (k : Fs) (d : InodeDisk) : List Sector :=
  dataSectors k.dev.device.disk d d.sectors

end Kernel

structure VolOk (L : Sector → Prop) (D : Sector → InodeDisk) (k : Fs) : Prop where
  cache : CacheOk k.dev.device
  width : k.dev.free_map.bit_cnt = k.dev.device.size
  small : k.dev.device.size ≤ 2 ^ 32
  valid : ∀ {s}, L s → s < k.dev.device.size
  marked : ∀ {s}, L s → k.dev.free_map.bits s = true
  unheld : ∀ {s}, L s → ¬ k.dev.device.Resident s
  inRange : ∀ {s}, L s → (D s).InRange
  laid : ∀ {s}, L s → Laid k.dev.device.size k.dev.device.disk (D s) (D s).sectors
  index_unheld : ∀ {s t}, L s → t ∈ k.index (D s) → ¬ k.dev.device.Resident t
  used : ∀ {s t}, L s → t ∈ k.owned (D s) → k.dev.free_map.bits t = true
  apart : ∀ {s t}, L s → L t → t ∉ k.owned (D s)
  disjoint : ∀ {s s' t}, L s → L s' → t ∈ k.owned (D s) → t ∈ k.owned (D s') → s = s'
  loaded : ∀ {p i}, k.mem p = some i → L i.sector ∧ i.data = D i.sector
  stored : ∀ {s}, L s → (∀ p i, k.mem p = some i → i.sector ≠ s) →
    ofBlock (k.dev.device.disk s) = D s
  map_live : L FREE_MAP_SECTOR
  map_length : bitmap_file_size k.dev.free_map ≤ (D FREE_MAP_SECTOR).length
  map_file : ∃ p i, k.dev.free_map_file = some p ∧ k.mem p = some i ∧
    i.sector = FREE_MAP_SECTOR ∧ i.deny_write_cnt = 0

section Volume

variable {L L' : Sector → Prop} {D : Sector → InodeDisk} {k k' : Fs} {s t : Sector}

/-- The data sectors of the free map's file. -/
abbrev MapData (D : Sector → InodeDisk) (k : Fs) (t : Sector) : Prop :=
  t ∈ k.data (D FREE_MAP_SECTOR)

/-- Its index blocks. -/
abbrev MapIndex (D : Sector → InodeDisk) (k : Fs) (t : Sector) : Prop :=
  t ∈ k.index (D FREE_MAP_SECTOR)

theorem VolOk.onDisk (h : VolOk L D k) (hs : L s) : OnDisk k.dev.device (D s) :=
  ⟨h.cache, h.laid hs, fun _ ht hd => h.index_unheld hs ht hd.resident⟩

theorem VolOk.freeMapOk (h : VolOk L D k) : FreeMapOk (MapData D k) (MapIndex D k) k where
  cache := h.cache
  width := h.width
  small := h.small
  file p hp := by
    obtain ⟨q, i, hq, hi, hs, hdeny⟩ := h.map_file
    obtain rfl : q = p := Option.some.inj (hq.symm.trans hp)
    have hd : i.data = D FREE_MAP_SECTOR := hs ▸ (h.loaded hi).2
    rw [← hs] at hd
    refine ⟨i, hi, hdeny, ?_, ?_, fun t => ?_, fun t => ?_⟩
    · rw [hd, hs]; exact h.map_length
    · rw [hd, hs]; exact h.onDisk h.map_live
    · rw [hd, hs]
    · rw [hd, hs]
  used t ht hf := by
    have hb : k.dev.free_map.bits t = true := ht.elim
      (fun ht => h.used h.map_live (mem_append_right _ ht))
      fun ht => h.used h.map_live (mem_append_left _ ht)
    rw [hf.2] at hb
    cases hb

/-- The free map's file has no inode. -/
theorem VolOk.not_map_inode (h : VolOk L D k) (hs : L s) : ¬ MapData D k s ∧ ¬ MapIndex D k s :=
  ⟨fun hd => h.apart h.map_live hs (mem_append_right _ hd),
    fun hd => h.apart h.map_live hs (mem_append_left _ hd)⟩

/-- An index block is no data of a file. -/
theorem VolOk.index_not_data {u : Sector} (h : VolOk L D k) (hs : L s) (hu : L u)
    (ht : t ∈ k.index (D s)) : t ∉ k.data (D u) := fun hd => by
  by_cases hne : s = u
  · subst hne
    exact (h.laid hs).index_not_data ht hd
  · exact hne (h.disjoint hs hu (mem_append_left _ ht) (mem_append_right _ hd))

theorem VolOk.index_not_map (h : VolOk L D k) (hs : L s) (ht : t ∈ k.index (D s)) :
    ¬ MapData D k t := h.index_not_data hs h.map_live ht

/-- What keeps a volume sound: the index blocks of the inodes left are spared, their sectors stay
in use, and the cache loads data of files only. -/
theorem VolOk.frame (h : VolOk L D k) (hL : ∀ {s}, L' s → L s)
    (size : k'.dev.device.size = k.dev.device.size) (cache : CacheOk k'.dev.device)
    (width : k'.dev.free_map.bit_cnt = k.dev.free_map.bit_cnt)
    (disk : ∀ {s t}, L' s → t ∈ k.index (D s) → k'.dev.device.disk t = k.dev.device.disk t)
    (resident : ∀ t, k'.dev.device.Resident t →
      k.dev.device.Resident t ∨ ∃ s, L s ∧ t ∈ k.data (D s))
    (bits : ∀ {s t}, L' s → t = s ∨ t ∈ k.owned (D s) → k.dev.free_map.bits t = true →
      k'.dev.free_map.bits t = true)
    (loaded : ∀ {p i}, k'.mem p = some i → L' i.sector ∧ i.data = D i.sector)
    (stored : ∀ {s}, L' s → (∀ p i, k'.mem p = some i → i.sector ≠ s) →
      ofBlock (k'.dev.device.disk s) = D s)
    (live : L' FREE_MAP_SECTOR)
    (file : ∃ p i, k'.dev.free_map_file = some p ∧ k'.mem p = some i ∧
      i.sector = FREE_MAP_SECTOR ∧ i.deny_write_cnt = 0) : VolOk L' D k' := by
  have hag : ∀ {s}, L' s →
      Agree k.dev.device.disk (D s) k'.dev.device.disk (D s) (D s).sectors := fun hs =>
    Agree.of_index (fun _ _ => rfl) fun t ht => disk hs ht
  have hown : ∀ {s}, L' s → k'.owned (D s) = k.owned (D s) := fun hs => (hag hs).ownedSectors_eq
  have hidx : ∀ {s}, L' s → k'.index (D s) = k.index (D s) := fun hs => (hag hs).indexSectors_eq
  refine ⟨cache, width.trans (h.width.trans size.symm), le_of_eq_of_le size h.small, fun hs => ?_,
    fun hs => bits hs (.inl rfl) (h.marked (hL hs)), fun {s} hs hr => ?_,
    fun hs => h.inRange (hL hs), fun hs => ?_, fun {s t} hs ht hr => ?_, fun {s t} hs ht => ?_,
    fun {s t} hs ht hm => ?_, fun {s s' t} hs hs' ht ht' => ?_, loaded, stored, live, ?_, file⟩
  · rw [size]; exact h.valid (hL hs)
  · rcases resident s hr with hr | ⟨u, hu, hm⟩
    · exact h.unheld (hL hs) hr
    · exact h.apart hu (hL hs) (mem_append_right _ hm)
  · rw [size]
    exact (h.laid (hL hs)).congr (hag hs) rfl rfl rfl
  · rw [hidx hs] at ht
    rcases resident t hr with hr | ⟨u, hu, hm⟩
    · exact h.index_unheld (hL hs) ht hr
    · exact h.index_not_data (hL hs) hu ht hm
  · rw [hown hs] at ht
    exact bits hs (.inr ht) (h.used (hL hs) ht)
  · rw [hown hs] at hm
    exact h.apart (hL hs) (hL ht) hm
  · rw [hown hs] at ht
    rw [hown hs'] at ht'
    exact h.disjoint (hL hs) (hL hs') ht ht'
  · rw [bitmap_file_size, width]
    exact h.map_length

end Volume

/-! ### The inodes on the disk -/

/-- The table over the device and the free map. -/
def disk_backend : Backend InodeDisk Volume where
  load sector := do
    let b ← onDevice (block_read sector)
    pure (ofBlock b)
  store sector data := onDevice (block_write .inode sector data.toBlock)
  discard sector data := do
    free_map_release sector 1
    free_inode data

section Backend

variable {ok : Event → Prop} {F X : Sector → Prop} {k k' : Fs} {s : Sector} {d : InodeDisk}
  {p : Addr}

theorem disk_load_run (hs : s < k.dev.device.size) :
    disk_backend.load s k = ([], .done (ofBlock (k.dev.device.disk s)) k) :=
  Machine.bind_run_silent (onDevice_run (block_read_run hs)) rfl

theorem disk_store_run (hs : s < k.dev.device.size) :
    disk_backend.store s d k = ([.write .inode s], .done () (k.setDevice
      { k.dev.device with disk := update k.dev.device.disk s d.toBlock })) :=
  onDevice_run (block_write_run hs)

/-- The free map does not look at the other inodes in memory. -/
theorem MapFile.table (h : MapFile F X k) (hdev : k'.dev = k.dev)
    (hm : ∀ q, k.dev.free_map_file = some q → k'.mem q = k.mem q) : MapFile F X k' where
  cache := hdev ▸ h.cache
  width := hdev ▸ h.width
  small := hdev ▸ h.small
  file q hq := by
    rw [hdev] at hq ⊢
    rw [hm q hq]
    exact h.file q hq

/-- Discarding a removed inode releases its sector and those of its file. -/
theorem disk_discard_runs (hev : EvictsInTable ok) (hd : OnDisk k.dev.device d)
    (hF : ∀ t ∈ k.index d, ¬ F t)
    (hk : Freeable F X p k (s :: inodeReleases k.dev.device.disk d d.sectors)) :
    (disk_backend.discard s d).Runs ok k fun es _ k' =>
      Releases F (s :: inodeReleases k.dev.device.disk d d.sectors) es k k' := by
  refine (Passes.runs (Frees.bind (R := [s]) (P := fun _ => True)
    (release_frees (Freeable.left (R := [s]) hk)) hk fun _ k₁ _ h₁ hr => ?_) hev).mono fun _ _ _ _ h => h.1
  refine free_inode_frees (by rw [hr.touched.size]; exact hd.laid) (fun r hr' => ?_) h₁
  have ht := mem_indexReads hr'
  exact Still.after ⟨rfl, hk.map.not_flushed _ (hd.quiet _ ht) (hF _ ht)⟩ hr

end Backend

/-! ### The last close -/

/-- The inode at `p` is gone from the table. -/
structure Dropped {ι δ : Type} (p : Addr) (k k' : Kernel ι δ) : Prop where
  mem : ∀ q, k'.mem q = if q = p then none else k.mem q
  next : k'.next = k.next
  open_inodes : k'.open_inodes = k.open_inodes.erase p

section Close

variable {ok : Event → Prop} {L : Sector → Prop} {D : Sector → InodeDisk} {k k' : Fs} {p : Addr}
  {i : Inode InodeDisk}

theorem Dropped.was_open {q : Addr} {j : Inode InodeDisk} (h : Dropped p k k')
    (hq : k'.mem q = some j) : k.mem q = some j := by
  rw [h.mem] at hq
  split at hq
  · cases hq
  · exact hq

/-- Whatever the last close left open was open, and what was open is that or the inode closed. -/
theorem Dropped.closed (h : Dropped p k k') (hp : k.mem p = some i) {s : Sector}
    (hs : ∀ q j, k'.mem q = some j → j.sector ≠ s) (hne : s ≠ i.sector) :
    ∀ q j, k.mem q = some j → j.sector ≠ s := by
  intro q j hq
  by_cases e : q = p
  · subst e
    obtain rfl : i = j := Option.some.inj (hp.symm.trans hq)
    exact hne.symm
  · exact hs q j (by rw [h.mem, if_neg e]; exact hq)

/-- The inode of the free map stays. -/
theorem Dropped.map_file (h : Dropped p k k') (hk : VolOk L D k) (hp : k.mem p = some i)
    (hne : i.sector ≠ FREE_MAP_SECTOR) (hf : k'.dev.free_map_file = k.dev.free_map_file) :
    ∃ q j, k'.dev.free_map_file = some q ∧ k'.mem q = some j ∧ j.sector = FREE_MAP_SECTOR ∧
      j.deny_write_cnt = 0 := by
  obtain ⟨q, j, hq, hj, hs, hdeny⟩ := hk.map_file
  refine ⟨q, j, hf.trans hq, ?_, hs, hdeny⟩
  rw [h.mem, if_neg]
  · exact hj
  · rintro rfl
    obtain rfl : i = j := Option.some.inj (hp.symm.trans hj)
    exact hne hs

/-- Writing an inode to its sector as it is closed. -/
theorem VolOk.store (h : VolOk L D k) (hp : k.mem p = some i)
    (hne : i.sector ≠ FREE_MAP_SECTOR) (hdrop : Dropped p k k')
    (hdev : k'.dev = (k.setDevice { k.dev.device with
      disk := update k.dev.device.disk i.sector i.data.toBlock }).dev) : VolOk L D k' := by
  obtain ⟨hL, hdata⟩ := h.loaded hp
  have hcache := (takes_write (F := MapData D k) h.cache (h.unheld hL) i.data.toBlock).cache
  have hdisk : k'.dev.device.disk =
      update k.dev.device.disk i.sector i.data.toBlock := by rw [hdev]; rfl
  have hres : ∀ t, k'.dev.device.Resident t → k.dev.device.Resident t := by
    rw [hdev]
    exact fun t => id
  refine h.frame id (by rw [hdev]; rfl) (by rw [hdev]; exact hcache) (by rw [hdev]; rfl)
    (fun hs ht => ?_) (fun t ht => .inl (hres t ht)) (fun _ _ hb => by rw [hdev]; exact hb)
    (fun hq => h.loaded (hdrop.was_open hq)) (fun {s} hs hcl => ?_) h.map_live
    (hdrop.map_file h hp hne (by rw [hdev]; rfl))
  · rw [hdisk, update_of_ne]
    rintro rfl
    exact h.apart hs hL (mem_append_left _ ht)
  · rw [hdisk]
    by_cases e : s = i.sector
    · subst e
      rw [update_self, hdata, InodeDisk.ofBlock_toBlock (h.inRange hL)]
    · rw [update_of_ne e]
      exact h.stored hs (hdrop.closed hp hcl e)

/-- The last close of an inode that was not removed writes it to its sector. -/
theorem inode_close_stores (h : VolOk L D k) (hp : k.mem p = some i) (hc : i.open_cnt = 1)
    (hr : i.removed = false) (hne : i.sector ≠ FREE_MAP_SECTOR) :
    (inode_close disk_backend (some p)).Runs ok k fun es _ k' =>
      es = [.write .inode i.sector] ∧ Dropped p k k' ∧
      k'.dev = (k.setDevice { k.dev.device with
        disk := update k.dev.device.disk i.sector i.data.toBlock }).dev ∧
      VolOk L D k' := by
  refine inode_close_last hp hc ?_
  rw [inode_retire, if_neg (by simp [hr])]
  set k₀ := (k.setInode p { i with open_cnt := i.open_cnt - 1 }).unlink p with hk₀
  refine Machine.Runs.of_run (disk_store_run (k := k₀) (h.valid (h.loaded hp).1)) ?_
  have hdrop : Dropped p k ((k₀.setDevice { k₀.dev.device with
      disk := update k₀.dev.device.disk i.sector i.data.toBlock }).free p) := by
    refine ⟨fun q => ?_, rfl, rfl⟩
    rw [Kernel.free_mem]
    split
    · rfl
    · exact (Kernel.setInode_mem ..).trans (if_neg ‹_›)
  exact ⟨rfl, hdrop, rfl, h.store hp hne hdrop rfl⟩

/-- The last close of a removed inode releases its sectors. -/
theorem inode_close_discards (hev : EvictsInTable ok)
    {held : Addr → Nat} (h : VolOk L D k) (htab : TableOk held k) (hp : k.mem p = some i)
    (hc : i.open_cnt = 1) (hr : i.removed = true) (hne : i.sector ≠ FREE_MAP_SECTOR) :
    (inode_close disk_backend (some p)).Runs ok k fun es _ k' =>
      (released es).Perm (i.sector :: k.owned i.data) ∧ Dropped p k k' ∧
      k'.dev.free_map_file = k.dev.free_map_file ∧
      (∀ t, k'.dev.free_map.bits t = true ↔ k.dev.free_map.bits t = true ∧ t ∉ released es) ∧
      VolOk (fun s => L s ∧ s ≠ i.sector) D k' := by
  obtain ⟨hL, hdata⟩ := h.loaded hp
  obtain ⟨q, j, hq, hj, hjs, -⟩ := h.map_file
  have hqp : q ≠ p := by
    rintro rfl
    obtain rfl : i = j := Option.some.inj (hp.symm.trans hj)
    exact hne hjs
  refine inode_close_last hp hc ?_
  rw [inode_retire, if_pos (by simp [hr])]
  set k₀ := (k.setInode p { i with open_cnt := i.open_cnt - 1 }).unlink p with hk₀
  have hmem₀ : ∀ u, u ≠ p → k₀.mem u = k.mem u := fun u hu =>
    (Kernel.setInode_mem ..).trans (if_neg hu)
  have hmap : MapFile (MapData D k) (MapIndex D k) k₀ := by
    refine h.freeMapOk.toMapFile.table rfl fun u hu => hmem₀ u ?_
    obtain rfl : q = u := Option.some.inj (hq.symm.trans hu)
    exact hqp
  have hperm := inodeReleases_perm k.dev.device.disk i.data i.data.sectors
  have hfree : Freeable (MapData D k) (MapIndex D k) q k₀
      (i.sector :: inodeReleases k.dev.device.disk i.data i.data.sectors) := by
    refine ⟨hmap, hq, (hperm.cons _).nodup_iff.mpr (nodup_cons.mpr ⟨?_, ?_⟩), fun t ht => ?_,
      fun t ht => ?_⟩
    · rw [hdata]
      exact h.apart hL hL
    · rw [hdata]
      exact (h.laid hL).nodup
    all_goals
      rw [List.mem_cons, hperm.mem_iff, hdata] at ht
      rcases ht with rfl | ht
    · exact h.valid hL
    · exact (h.laid hL).valid t ht
    · exact h.marked hL
    · exact h.used hL ht
  refine (disk_discard_runs hev (hdata ▸ h.onDisk hL) (fun t ht => ?_) hfree).mono
    fun es _ k₁ _ hrel => ?_
  · rw [hdata] at ht
    exact h.index_not_map hL ht
  have hdrop : Dropped p k (k₁.free p) := by
    refine ⟨fun u => ?_, hrel.next, hrel.open_inodes⟩
    rw [Kernel.free_mem]
    split
    · rfl
    · rw [hrel.mem]
      exact hmem₀ u ‹_›
  have hset : released es = i.sector :: inodeReleases k.dev.device.disk i.data i.data.sectors :=
    hrel.released
  have hbits : ∀ t, k₁.dev.free_map.bits t = true ↔
      k.dev.free_map.bits t = true ∧ t ∉ released es := by
    intro t
    rw [hset]
    exact hrel.bits t
  have hmemR : ∀ {s t}, L s ∧ s ≠ i.sector → t = s ∨ t ∈ k.owned (D s) → t ∉ released es := by
    rintro s t ⟨hs, hsne⟩ ht hm
    rw [hset, List.mem_cons, hperm.mem_iff, hdata] at hm
    rcases ht with rfl | ht <;> rcases hm with hm | hm
    · exact hsne hm
    · exact h.apart hL hs hm
    · exact h.apart hs hL (hm ▸ ht)
    · exact hsne (h.disjoint hs hL ht hm)
  refine ⟨by rw [hset]; exact hperm.cons _, hdrop, hrel.file, hbits, h.frame (fun hs => hs.1)
    hrel.size hrel.cache hrel.bit_cnt (fun hs ht => ?_)
    (fun t ht => (hrel.resident t ht).imp_right fun hm => ⟨_, h.map_live, hm⟩)
    (fun hs ht hb => (hbits _).mpr ⟨hb, hmemR hs ht⟩)
    (fun hu => ?_) (fun {s} hs hcl => ?_) ⟨h.map_live, fun e => hne e.symm⟩
    (hdrop.map_file h hp hne hrel.file)⟩
  · exact hrel.disk _ (fun hd => h.index_unheld hs.1 ht hd.resident) (h.index_not_map hs.1 ht)
  · obtain ⟨hLu, hdu⟩ := h.loaded (hdrop.was_open hu)
    refine ⟨⟨hLu, fun e => ?_⟩, hdu⟩
    rw [htab.unique (hdrop.was_open hu) hp e, hdrop.mem, if_pos rfl] at hu
    cases hu
  · have hdisk : k₁.dev.device.disk s = k.dev.device.disk s :=
      hrel.disk s (fun hd => h.unheld hs.1 hd.resident) (h.not_map_inode hs.1).1
    show ofBlock (k₁.dev.device.disk s) = _
    rw [hdisk]
    exact h.stored hs.1 (hdrop.closed hp hcl hs.2)

end Close

end Pintos
