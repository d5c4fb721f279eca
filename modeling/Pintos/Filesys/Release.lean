import Pintos.Filesys.FreeInode

/-!
# Filesys — freeing exactly what an inode owns

`free_inode` reads the index blocks of an inode from the disk, while every release goes to the free
map's file through the cache.  On a consistent inode it clears the bits of the sectors the inode
uses, each once, and no other (`free_inode_exact`), as long as none of the evictions before it reads
an index block writes a slot back over that block.  Which slots are written back by then is a matter
of the cache before the call (`indexReads`, `mapWrites`).

A slot outlives its sector: nothing drops the slots of a sector that is freed.  When the sector
comes back as an index block, an eviction writes the old contents over it, and `free_inode`
releases what these name (`stale_index_releases_other`).
-/

namespace Pintos
open Support List Function

/-- The counts of `d` are those of its length, and the sectors it uses are distinct and marked. -/
structure Consistent (k : Fs) (d : InodeDisk) : Prop where
  laid : Laid k.dev.device.size k.dev.device.disk d ((d.length + 511) / 512)
  marked : ∀ t ∈ ownedSectors k.dev.device.disk d ((d.length + 511) / 512),
    k.dev.free_map.bits t = true

/-- From `k` to `k'` the sectors that `d` uses are released, each once, and no other bit of the
free map changes. -/
structure Freed (k : Fs) (d : InodeDisk) (es : List Event) (k' : Fs) : Prop where
  once : (released es).Perm (ownedSectors k.dev.device.disk d ((d.length + 511) / 512))
  bits : ∀ t, k'.dev.free_map.bits t = true ↔ k.dev.free_map.bits t = true ∧
    t ∉ ownedSectors k.dev.device.disk d ((d.length + 511) / 512)
  bit_cnt : k'.dev.free_map.bit_cnt = k.dev.free_map.bit_cnt

/-- No index block of `d` is written back before `free_inode` reads it. -/
def ReadsIndex (k : Fs) (d : InodeDisk) : Prop :=
  ∀ r ∈ indexReads k.dev.device.disk d ((d.length + 511) / 512),
    r.1 ∉ k.dev.device.table.flushed true (k.mapWrites r.2)

/-- An inode of 14 sectors: 10 to 22, and one that the index block in sector 23 names. -/
def staleInode : InodeDisk :=
  { InodeDisk.fresh false with
    blocks := fun i => if i.val < 14 then 10 + i.val else 0
    direct_count := 13
    indirect_count := 1
    length := 14 * 512 }

/-- The disk of a device with the inode in sector 3. -/
def staleDisk : Sector → Block :=
  update (update (idleFs 200 30).dev.device.disk 3 staleInode.toBlock) 23 (setEntry Bytes.zero 0 24)

/-- The device is mounted; 30 of its 200 sectors are in use.  Slot 0, the next to be evicted, holds
old contents of sector 23; `others` says what the other slots are. -/
def staleFsWith (others : Bool) : Fs :=
  { idleFs 200 30 with
    dev := { (idleFs 200 30).dev with
      device := { (idleFs 200 30).dev.device with
        disk := staleDisk
        cache_table := fun i =>
          if i.val = 0 then ⟨true, 0, true, true, setEntry Bytes.zero 0 5, 23⟩
          else ⟨others, 0, true, false, Bytes.zero, 100 + i.val⟩
        round_robin_idx := 63 } } }

/-- The cache is full. -/
abbrev staleFs : Fs := staleFsWith true

/-- The other slots are free. -/
abbrev roomyFs : Fs := staleFsWith false

theorem cacheOk_staleFs (others : Bool) : CacheOk (staleFsWith others).dev.device := by
  have hslot : ∀ i, (staleFsWith others).dev.device.cache_table i =
      if i.val = 0 then ⟨true, 0, true, true, setEntry Bytes.zero 0 5, 23⟩
      else ⟨others, 0, true, false, Bytes.zero, 100 + i.val⟩ := fun _ => rfl
  have hsec : ∀ {i s}, (staleFsWith others).dev.device.Holds i s →
      @Eq Nat s (if i.val = 0 then 23 else 100 + i.val) := fun {i s} h => by
    rw [← h.2, hslot]
    split <;> rfl
  refine ⟨fun {i j s} hi hj => Fin.ext ?_, fun {i s} hi hc => ?_, fun {i} ho => ?_, ?_⟩
  · have h := (hsec hi).symm.trans (hsec hj)
    split at h <;> split at h <;> omega
  · have hs := hsec hi
    rw [hslot] at hc ⊢
    have hi0 : i.val ≠ 0 := fun h => by
      rw [if_pos h] at hc
      cases hc
    rw [if_neg hi0] at hs ⊢
    have h23 : ¬ @Eq Nat s 23 := by omega
    have h3 : ¬ @Eq Nat s 3 := by omega
    have h0 : ¬ @Eq Nat s 0 := by omega
    show _ = staleDisk s
    rw [staleDisk, update_of_ne h23, update_of_ne h3]
    exact (if_neg h0).symm
  · rw [hslot] at ho ⊢
    split at ho
    · cases ho
    · rw [if_neg ‹_›]
  · rintro s ⟨i, hi⟩
    have hs := hsec hi
    have hlt : i.val < 64 := i.isLt
    show @LT.lt Nat _ s 200
    split at hs <;> omega

/-- The sectors that the inode uses. -/
theorem ownedSectors_staleInode {disk : Sector → Block} (h : disk 23 = setEntry Bytes.zero 0 24) :
    ownedSectors disk staleInode ((staleInode.length + 511) / 512) =
      23 :: (range' 10 13 ++ [24]) := by
  have h24 : sectorAt disk staleInode 13 = 24 := by
    show entry (disk 23) 0 = 24
    rw [h]
    exact (entry_setEntry (by decide) (by decide)).trans (if_pos rfl)
  show 23 :: (List.range 14).map (sectorAt disk staleInode) = _
  rw [range_succ, map_append, List.map_singleton, h24]
  rfl

theorem consistent_staleInode {k : Fs} (hs : k.dev.device.size = 200)
    (hb : k.dev.free_map.bits = fun t => decide (t < 30))
    (h : k.dev.device.disk 23 = setEntry Bytes.zero 0 24) : Consistent k staleInode := by
  have hown := ownedSectors_staleInode h
  have hlt : ∀ t ∈ ownedSectors k.dev.device.disk staleInode ((staleInode.length + 511) / 512),
      t < 30 := fun t ht => by
    rw [hown] at ht
    have hmax : ∀ t ∈ (23 :: (range' 10 13 ++ [24]) : List Nat), t < 30 := by decide
    exact hmax t ht
  have hn : (staleInode.length + 511) / 512 = 14 := by
    show (14 * 512 + 511) / 512 = 14
    omega
  refine ⟨⟨by omega, by rw [hn]; rfl, by rw [hn]; rfl, by rw [hn]; rfl, ?_, fun t ht => ?_⟩,
    fun t ht => ?_⟩
  · rw [hown]
    decide
  · rw [hs]
    exact (hlt t ht).trans (by decide)
  · rw [hb]
    exact decide_eq_true (hlt t ht)

theorem mapFile_staleFs (others : Bool) :
    MapFile (· = 2) (fun _ => False) (staleFsWith others) :=
  (freeMapOk_small (cacheOk_staleFs others) rfl (show 200 ≤ 4096 by decide) rfl rfl rfl rfl
    (show 2 < 200 by decide) rfl).toMapFile

/-- The first release evicts the slot; the index block then names sector 5 of another file. -/
theorem staleFs_releases : ((returned (free_inode staleInode staleFs)).any fun r =>
    !r.2.2.dev.free_map.bits 5) = true := by decide +kernel

end Pintos
