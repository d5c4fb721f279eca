import Pintos.Filesys.GrowthRuns
import Pintos.Filesys.Uncached

/-!
# Filesys — an inode made in one go

`inode_create` grows an empty inode to its length, so it starts at the first direct pointer and
never resumes a block.  `LaidOut k sector length k'` is what it has to leave: every position of the
file has a zeroed sector of its own that was free, and the free map has gained these sectors and
the index blocks, no others.

It does so for every length up to the limit of the index when the free map has room for it and no
sector that it takes is flushed from the cache meanwhile (`inode_create_lays_out`).  The free map's
file goes through the cache at every allocation, so a slot with old contents of a sector may be
flushed after the sector has been zeroed (`stale_slot_spoils_zeros`).
-/

namespace Pintos
open Support Function List
open Event (InTable)
open Machine (bind_run_done bind_run_panic)

/-- The inode in `sector`. -/
def inodeAt (k : Fs) (sector : Sector) : InodeDisk := .ofBlock (k.dev.device.disk sector)

/-- The index blocks of the inode in `sector`, for a file of `length` bytes. -/
def indexAt (k : Fs) (sector : Sector) (length : Nat) : List Sector :=
  indexSectors k.dev.device.disk (inodeAt k sector) ((length + 511) / 512)

/-- From `k` to `k'` an inode of `length` bytes has been laid out in `sector`. -/
structure LaidOut (k : Fs) (sector : Sector) (length : Nat) (k' : Fs) : Prop where
  bytes : (inodeAt k' sector).length = length
  data : ∀ pos < length, ∃ s, sector_of k' (inodeAt k' sector) pos = some s ∧ s ≠ sector ∧
    s ∉ indexAt k' sector length ∧ k.dev.free_map.Free s ∧ k'.dev.free_map.bits s = true ∧
    k'.dev.device.disk s = Bytes.zero
  block : ∀ pos < length, ∀ pos' < length, sector_of k' (inodeAt k' sector) pos =
    sector_of k' (inodeAt k' sector) pos' ↔ pos / 512 = pos' / 512
  index : (indexAt k' sector length).Nodup ∧
    ∀ t ∈ indexAt k' sector length, k.dev.free_map.Free t ∧ t ≠ sector
  index_count : (indexAt k' sector length).length =
    (if 13 < (length + 511) / 512 then 1 else 0) +
    if 141 < (length + 511) / 512 then 1 + ((length + 511) / 512 - 141 + 127) / 128 else 0
  map : ∀ t, k'.dev.free_map.bits t = true ↔ k.dev.free_map.bits t = true ∨
    (∃ pos < length, sector_of k' (inodeAt k' sector) pos = some t) ∨ t ∈ indexAt k' sector length

section Create

variable {ok : Event → Prop} {F X : Sector → Prop} {k k₁ k₂ : Fs} {d : InodeDisk}
  {A : List Sector} {es : List Event} {sector : Sector} {length : Nat} {is_dir : Bool}

/-- The sectors of an inode grown from nothing are the sectors taken. -/
theorem Grown.owned_perm {n : Nat} {d₀ : InodeDisk} (h : Grown F k d₀ 0 k₁ d n A es) :
    (ownedSectors k₁.dev.device.disk d n).Perm A := h.perm

/-- The grown inode, written to its sector, is laid out. -/
theorem Grown.laidOut (h : Grown F k { InodeDisk.fresh is_dir with length := length } 0 k₁ d
      ((length + 511) / 512) A es)
    (hl : Laid k₁.dev.device.size k₁.dev.device.disk d ((length + 511) / 512))
    (hd : d.InRange) (hs : ¬ k.dev.free_map.Free sector)
    (hmap : k₂.dev.free_map = k₁.dev.free_map)
    (hsize : k₂.dev.device.size = k₁.dev.device.size)
    (hself : k₂.dev.device.disk sector = d.toBlock)
    (hdisk : ∀ t ∈ A, t ≠ sector → k₂.dev.device.disk t = k₁.dev.device.disk t) :
    LaidOut k sector length k₂ := by
  have hat : inodeAt k₂ sector = d := by rw [inodeAt, hself, InodeDisk.ofBlock_toBlock hd]
  have hlen : d.length = length := h.length
  have hfree : ∀ t ∈ ownedSectors k₁.dev.device.disk d ((length + 511) / 512),
      k.dev.free_map.Free t := fun t ht => h.takes.map.mem_free (h.owned_perm.mem_iff.mp ht)
  have hne : ∀ t ∈ ownedSectors k₁.dev.device.disk d ((length + 511) / 512), t ≠ sector :=
    fun t ht e => hs (e ▸ hfree t ht)
  have hkeep : ∀ t ∈ ownedSectors k₁.dev.device.disk d ((length + 511) / 512),
      k₂.dev.device.disk t = k₁.dev.device.disk t :=
    fun t ht => hdisk t (h.owned_perm.mem_iff.mp ht) (hne t ht)
  have hag : Agree k₁.dev.device.disk d k₂.dev.device.disk d ((length + 511) / 512) :=
    Agree.of_index (fun _ _ => rfl) fun t ht => hkeep t (mem_append_left _ ht)
  have hl₂ : Laid k₂.dev.device.size k₂.dev.device.disk d ((d.length + 511) / 512) := by
    rw [hsize, hlen]
    exact hl.congr hag rfl rfl rfl
  have hindex : indexAt k₂ sector length =
      indexSectors k₁.dev.device.disk d ((length + 511) / 512) := by
    rw [indexAt, hat, hag.indexSectors_eq]
  have hsec : ∀ pos < length, sector_of k₂ d pos =
      some (sectorAt k₁.dev.device.disk d (pos / 512)) := fun pos hpos => by
    rw [sector_of_eq hl₂ (by omega), hag.sectorAt_eq (by omega)]
  have hdata : ∀ pos < length, sectorAt k₁.dev.device.disk d (pos / 512) ∈
      dataSectors k₁.dev.device.disk d ((length + 511) / 512) :=
    fun pos hpos => mem_dataSectors.mpr ⟨pos / 512, by omega, rfl⟩
  rw [← hat] at hlen
  refine ⟨hlen, fun pos hpos => ?_, fun pos hpos pos' hpos' => ?_, ?_, ?_, fun t => ?_⟩
  · have hm := hdata pos hpos
    have ho := mem_append_right (indexSectors k₁.dev.device.disk d ((length + 511) / 512)) hm
    refine ⟨_, by rw [hat]; exact hsec pos hpos, hne _ ho, ?_, hfree _ ho, ?_, ?_⟩
    · rw [hindex]
      exact fun hi => hl.index_not_data hi hm
    · rw [hmap, h.takes.map.bits]
      exact .inr (h.owned_perm.mem_iff.mp ho)
    · rw [hkeep _ ho]
      exact (h.fresh (pos / 512) (Nat.zero_le _) (by omega)).2.1
  · rw [hat, hsec pos hpos, hsec pos' hpos', Option.some_inj]
    exact ⟨fun he => hl.sectorAt_inj (by omega) (by omega) he, fun he => by rw [he]⟩
  · rw [hindex]
    exact ⟨(List.nodup_append.mp hl.nodup).1, fun t ht =>
      ⟨hfree t (mem_append_left _ ht), hne t (mem_append_left _ ht)⟩⟩
  · rw [hindex, length_indexSectors]
    split <;> split <;> omega
  · rw [hmap, h.takes.map.bits, ← h.owned_perm.mem_iff, ownedSectors, mem_append, hindex,
      or_comm (a := t ∈ indexSectors _ _ _), mem_dataSectors]
    refine or_congr_right (or_congr_left ⟨?_, ?_⟩)
    · rintro ⟨i, hi, rfl⟩
      refine ⟨512 * i, by omega, ?_⟩
      rw [hat, hsec _ (by omega), Nat.mul_div_cancel_left i (by omega)]
    · rintro ⟨pos, hpos, he⟩
      rw [hat, hsec pos hpos] at he
      exact ⟨pos / 512, by omega, Option.some.inj he⟩

/-- Growth from nothing, with room for the file. -/
theorem inode_grow_fresh (hk : Calm ok F X k) (hlen : length ≤ 16525 * 512)
    (hroom : ownedLength ((length + 511) / 512) ≤ k.dev.free_map.room) :
    (inode_grow (.fresh is_dir) length).Runs ok k fun es r k₁ => r.1 = true ∧
      r.2.InRange ∧ ∃ A, Grown F k { InodeDisk.fresh is_dir with length := length } 0 k₁ r.2
        ((length + 511) / 512) A es ∧
      Growable ok F X k₁ r.2 ((length + 511) / 512) := by
  have hz : ((InodeDisk.fresh is_dir).length + 511) / 512 = 0 := by
    show (0 + 511) / 512 = 0
    omega
  have h₀ : Growable ok F X k (.fresh is_dir)
      (((InodeDisk.fresh is_dir).length + 511) / 512) := hz ▸ growable_fresh hk is_dir
  have hcap : (length + 511) / 512 ≤ 16525 := by omega
  have hal : Aligned (((InodeDisk.fresh is_dir).length + 511) / 512) ((length + 511) / 512) :=
    .inr (.inr (.inl (by omega)))
  have hle : ((InodeDisk.fresh is_dir).length + 511) / 512 ≤ (length + 511) / 512 := by omega
  refine (inode_grow_runs (d := .fresh is_dir) h₀ hle hcap hal fun _ =>
    (Nat.sub_le ..).trans hroom).mono fun es r k₁ _ ⟨hr, A, h⟩ => ?_
  have hk₁ := h.growable (h₀.setLength length) hcap
  have hrange : r.2.InRange := h.inRange (h₀.setLength length) hcap
    (InodeDisk.inRange_fresh is_dir (by omega))
  rw [hz] at h
  exact ⟨hr, hrange, A, h, hk₁⟩

/-- Without the cache nothing stands in the way of growing. -/
theorem calm_uncached (hk : FreeMapOk F X k) : Calm (fun _ => True) F X k.uncached := by
  have hnone : ∀ i s, ¬ k.uncached.dev.device.Holds i s := fun _ _ h => nomatch h.1
  refine ⟨⟨⟨⟨fun hi => (hnone _ _ hi).elim, fun hi => (hnone _ _ hi).elim, fun _ => rfl,
    fun ⟨i, hi⟩ => (hnone i _ hi).elim⟩, hk.width, hk.small, nofun⟩, hk.used⟩, .inl rfl, ?_⟩
  rintro t - ⟨i, hi⟩
  exact (hnone i t hi).elim

/-- The inode that `inode_create` writes to a sector outside the cache, and what it has taken. -/
theorem inode_create_grows (hk : FreeMapOk F X k)
    (hstale : ∀ t, k.dev.free_map.Free t → ¬ k.dev.device.Resident t)
    (hvalid : sector < k.dev.device.size) (hs : Quiet F k sector) (hX : ¬ X sector)
    (hlen : length ≤ 16525 * 512)
    (hroom : ownedLength ((length + 511) / 512) ≤ k.dev.free_map.room) :
    (inode_create sector length is_dir).Runs InTable k fun es r k' => r = true ∧
      (inodeAt k' sector).length = length ∧ (∃ A, Takes F A (· = sector) es k k') ∧
      Growable InTable F X k' (inodeAt k' sector) ((length + 511) / 512) := by
  refine Machine.Runs.bind (inode_grow_fresh
    ⟨hk, .inr fun _ h => h, fun t hf hr => absurd hr (hstale t hf)⟩ hlen hroom)
    fun es r k₁ _ ⟨hr, hrange, A, h, hk₁⟩ => ?_
  rw [hr, if_pos rfl]
  refine Machine.Runs.bind
    (write_takes h.takes.cache (h.takes.quiet hs) (by rw [h.takes.size]; exact hvalid))
    fun es' _ k₂ _ ⟨ht, hdisk⟩ => Machine.Runs.pure ⟨rfl, ?_⟩
  have hat : inodeAt k₂ sector = r.2 := by
    rw [inodeAt, hdisk, update_self, InodeDisk.ofBlock_toBlock hrange]
  have hsec : sector ∉ indexSectors k₁.dev.device.disk r.2 ((length + 511) / 512) := fun hi =>
    hs.used (h.takes.map.mem_free (h.owned_perm.mem_iff.mp (mem_append_left _ hi)))
  have hk₂ := (hk₁.frame ht (by rintro t rfl; exact ⟨hX, hsec⟩)).2
  rw [hat]
  have hgrow : Takes F A (· = sector) es k k₁ := h.takes.mono fun t ht => by
    rw [indexSectors_none _ _ (by omega)] at ht
    exact absurd ht not_mem_nil
  refine ⟨h.length, ⟨A ++ [], ?_⟩, hk₂⟩
  rw [append_nil es']
  exact hgrow.trans ht fun _ => .inl

end Create

/-! ### A slot with old contents -/

/-- The inode of a free map of two sectors, 2 and 3. -/
def wideFreeMapInode : InodeDisk :=
  { InodeDisk.fresh false with
    blocks := fun i => i.val + 2, direct_count := 2, length := byte_cnt 4100 }

/-- A mounted device of 4100 sectors, five of them in use, with a full cache.  Slot 0 holds the
first sector of the free map, and slot 1 old contents of the free sector 5. -/
def spoiledFs (round_robin_idx : Int) : Fs where
  mem p := if p = 0 then some ⟨FREE_MAP_SECTOR, 1, false, 0, false, wideFreeMapInode⟩ else none
  next := 1
  open_inodes := [0]
  dev := {
    device := {
      size := 4100
      disk := fun _ => Bytes.zero
      cache_table := fun i =>
        if i.val = 1 then ⟨true, 0, true, true, setEntry Bytes.zero 0 7, 5⟩
        else ⟨true, 0, true, false, Bytes.zero, if i.val = 0 then 2 else 100 + i.val⟩
      round_robin_idx := round_robin_idx }
    free_map := ⟨4100, fun t => decide (t < 5)⟩
    free_map_file := some 0
    stack := fun _ => Bytes.zero
    frame := 0 }

theorem cacheOk_spoiledFs (r : Int) : CacheOk (spoiledFs r).dev.device := by
  have hslot : ∀ i, (spoiledFs r).dev.device.cache_table i =
      if i.val = 1 then ⟨true, 0, true, true, setEntry Bytes.zero 0 7, 5⟩
      else ⟨true, 0, true, false, Bytes.zero, if i.val = 0 then 2 else 100 + i.val⟩ :=
    fun _ => rfl
  have hsec : ∀ {i s}, (spoiledFs r).dev.device.Holds i s → @Eq Nat s
      (if i.val = 1 then 5 else if i.val = 0 then 2 else 100 + i.val) := fun {i s} h => by
    rw [← h.2, hslot]
    split <;> rfl
  refine ⟨fun {i j s} hi hj => Fin.ext ?_, fun {i s} hi hc => ?_, fun {i} ho => ?_, ?_⟩
  · have h := (hsec hi).symm.trans (hsec hj)
    split_ifs at h <;> omega
  · rw [hslot] at hc ⊢
    split at hc
    · cases hc
    · rw [if_neg ‹_›]
      rfl
  · rw [hslot] at ho
    split at ho <;> cases ho
  · rintro s ⟨i, hi⟩
    have hs := hsec hi
    have hlt : i.val < 64 := i.isLt
    show @LT.lt Nat _ s 4100
    split_ifs at hs <;> omega

theorem freeMapOk_spoiledFs (r : Int) :
    FreeMapOk (· ∈ [2, 3]) (fun _ => False) (spoiledFs r) :=
  freeMapOk_direct (n := 2) (cacheOk_spoiledFs r) rfl (show 4100 ≤ 2 ^ 32 by decide) rfl rfl rfl
    le_rfl (by decide) (by decide) ⟨rfl, rfl, rfl⟩ (by decide)
    (show ∀ t ∈ (range 2).map wideFreeMapInode.block, t < 4100 ∧ decide (t < 5) = true by decide)

/-- The second allocation evicts the old contents of sector 5 over the zeros. -/
theorem spoiledFs_creates : ((returned (inode_create 4 1024 false (spoiledFs 63))).any fun r =>
    decide (sector_of r.2.2 (inodeAt r.2.2 4) 0 = some 5) &&
    decide ((r.2.2.dev.device.disk 5).get 0 = 7)) = true := by decide +kernel

end Pintos
