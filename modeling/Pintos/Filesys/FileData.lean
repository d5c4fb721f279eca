import Pintos.Filesys.Layout

/-!
# Filesys — reading and writing the data of an inode

`byte_to_sector` and the two loops of `inode_read_at` and `inode_write_at`, which carry each chunk
of a request through the cache.  `byteAt dev d pos` is byte `pos` of the file as the cache shows it.

`inode_read_loop_runs` and `inode_write_loop_runs`: on an inode that is laid out, with no dirty
slot for an index block, the loops read and write the bytes of the file and nothing else.
-/

namespace Pintos
open Support List
open Machine (bind_run_silent pure_run)

/-! ### The functions -/

/-- `byte_to_sector`; a position off the end of the last index block reads out of bounds. -/
def byte_to_sector (d : InodeDisk) (pos : Nat) : Machine Event Device Sector :=
  if pos < d.length then
    if pos < 13 * 512 then pure (d.block (pos / 512))
    else if pos < (13 + 128) * 512 then do
      let blocks ← block_read (d.block ((pos - 13 * 512) / (128 * 512) + 13))
      pure (entry blocks ((pos - 13 * 512) % (128 * 512) / 512))
    else do
      let blocks ← block_read (d.block 14)
      let idx := (pos - (13 + 128) * 512) / (128 * 512)
      if 128 ≤ idx then Machine.panic
      else do
        let blocks ← block_read (entry blocks idx)
        pure (entry blocks ((pos - (13 + 128) * 512) % (128 * 512) / 512))
  else pure 4294967295

/-- The bytes that one turn of either loop moves. -/
def chunk_size (d : InodeDisk) (size offset : Nat) : Nat :=
  min size (min (d.length - offset) (512 - offset % 512))

/-- The loop of `inode_read_at`; a turn moves at least one byte, so `size` turns are enough. -/
def inode_read_loop (d : InodeDisk) : Nat → Nat → Nat → Machine Event Device (List UInt8)
  | 0, _, _ => pure []
  | fuel + 1, size, offset => do
    if size = 0 then pure []
    else do
      let sector_idx ← byte_to_sector d offset
      let chunk := chunk_size d size offset
      if chunk = 0 then pure []
      else do
        let bytes ← cache_read sector_idx (offset % 512) chunk
        let rest ← inode_read_loop d fuel (size - chunk) (offset + chunk)
        pure (bytes ++ rest)

/-- The loop of `inode_write_at`: the number of bytes written. -/
def inode_write_loop (d : InodeDisk) : Nat → List UInt8 → Nat → Machine Event Device Nat
  | 0, _, _ => pure 0
  | fuel + 1, buffer, offset => do
    if buffer.length = 0 then pure 0
    else do
      let sector_idx ← byte_to_sector d offset
      let chunk := chunk_size d buffer.length offset
      if chunk = 0 then pure 0
      else do
        cache_write sector_idx (buffer.take chunk) (offset % 512)
        let rest ← inode_write_loop d fuel (buffer.drop chunk) (offset + chunk)
        pure (chunk + rest)

/-! ### What they read and write -/

/-- Byte `pos` of the file. -/
def byteAt (dev : Device) (d : InodeDisk) (pos : Nat) : UInt8 :=
  (dev.logical (sectorAt dev.disk d (pos / 512))).get (pos % 512)

/-- The layout of an inode on a device, by its length; no index block waits in the cache. -/
structure OnDisk (dev : Device) (d : InodeDisk) : Prop where
  cache : CacheOk dev
  laid : Laid dev.size dev.disk d ((d.length + 511) / 512)
  quiet : ∀ t ∈ indexSectors dev.disk d ((d.length + 511) / 512), ¬ dev.Dirty t

section Data

variable {dev dev' : Device} {d : InodeDisk} {n : Nat} {ok : Event → Prop} {disk : Sector → Block}
  {R W : Sector → Prop} {size : Nat} {es : List Event}

theorem Laid.sectorAt_lt (h : Laid size disk d n) {i : Nat} (hi : i < n) :
    sectorAt disk d i < size :=
  h.valid _ (mem_append_right _ (mem_dataSectors.mpr ⟨i, hi, rfl⟩))

theorem Laid.index_lt (h : Laid size disk d n) {t : Sector} (ht : t ∈ indexSectors disk d n) :
    t < size := h.valid _ (mem_append_left _ ht)

theorem Laid.sectorAt_inj (h : Laid size disk d n) {i j : Nat} (hi : i < n) (hj : j < n)
    (he : sectorAt disk d i = sectorAt disk d j) : i = j :=
  inj_on_of_nodup_map (List.nodup_append.mp h.nodup).2.1 (List.mem_range.mpr hi)
    (List.mem_range.mpr hj) he

theorem Laid.index_not_data (h : Laid size disk d n) {t : Sector} (ht : t ∈ indexSectors disk d n) :
    t ∉ dataSectors disk d n :=
  fun hd => (List.nodup_append.mp h.nodup).2.2 t ht t hd rfl

/-- `byte_to_sector` reads the sector off the layout. -/
theorem byte_to_sector_run (hl : Laid dev.size dev.disk d ((d.length + 511) / 512)) {pos : Nat}
    (hpos : pos < d.length) :
    byte_to_sector d pos dev = ([], .done (sectorAt dev.disk d (pos / 512)) dev) := by
  have hcap := hl.cap
  unfold byte_to_sector sectorAt
  rw [if_pos hpos]
  by_cases h₁ : pos < 13 * 512
  · rw [if_pos h₁, if_pos (by omega), pure_run]
  · rw [if_neg h₁, if_neg (show ¬ pos / 512 < 13 by omega)]
    by_cases h₂ : pos < (13 + 128) * 512
    · have hi : (pos - 13 * 512) / (128 * 512) + 13 = 13 := by omega
      have hlt := hl.index_lt (mem_indexSectors.mpr (.inl ⟨by omega, rfl⟩))
      rw [if_pos h₂, if_pos (by omega), hi]
      refine bind_run_silent (block_read_run hlt) ?_
      rw [show (pos - 13 * 512) % (128 * 512) / 512 = pos / 512 - 13 by omega, pure_run]
    · have hk : (pos - (13 + 128) * 512) / (128 * 512) = (pos / 512 - 141) / 128 := by omega
      have hlt := hl.index_lt (mem_indexSectors.mpr (.inr (.inl ⟨by omega, rfl⟩)))
      have hlt' : entry (dev.disk (d.block 14)) ((pos / 512 - 141) / 128) < dev.size :=
        hl.index_lt (mem_indexSectors.mpr (.inr (.inr ⟨_, by omega, rfl⟩)))
      rw [if_neg h₂, if_neg (by omega)]
      refine bind_run_silent (block_read_run hlt) ?_
      rw [hk, if_neg (show ¬ 128 ≤ (pos / 512 - 141) / 128 by omega)]
      refine bind_run_silent (block_read_run hlt') ?_
      rw [show (pos - (13 + 128) * 512) % (128 * 512) / 512 = (pos / 512 - 141) % 128 by omega,
        pure_run, levelTwo]

/-- Accesses that spare the index blocks keep the layout. -/
theorem Access.agree (ha : Access R W es dev dev')
    (hq : ∀ t ∈ indexSectors dev.disk d n, ¬ dev.Dirty t ∧ ¬ W t) :
    Agree dev.disk d dev'.disk d n :=
  Agree.of_index (fun _ _ => rfl) fun t ht => ha.disk_eq t (hq t ht).1 (hq t ht).2

/-- Accesses that write data of the inode only. -/
theorem OnDisk.access (h : OnDisk dev d) (ha : Access R W es dev dev')
    (hW : ∀ t, W t → t ∉ indexSectors dev.disk d ((d.length + 511) / 512)) :
    Agree dev.disk d dev'.disk d ((d.length + 511) / 512) ∧ OnDisk dev' d := by
  have hag := ha.agree (d := d) fun t ht => ⟨h.quiet t ht, fun hw => hW t hw ht⟩
  refine ⟨hag, ha.ok, ?_, fun t ht hd => ?_⟩
  · rw [ha.size_eq]
    exact h.laid.congr hag rfl rfl rfl
  · rw [hag.indexSectors_eq] at ht
    rcases ha.dirty t hd with hd | hw
    · exact h.quiet t ht hd
    · exact hW t hw ht

/-- `size` bytes of the file from `offset`. -/
def fileRead (dev : Device) (d : InodeDisk) (offset size : Nat) : List UInt8 :=
  (List.range size).map fun j => byteAt dev d (offset + j)

theorem fileRead_add (dev : Device) (d : InodeDisk) (offset a b : Nat) :
    fileRead dev d offset (a + b) = fileRead dev d offset a ++ fileRead dev d (offset + a) b := by
  simp [fileRead, List.range_add, Function.comp_def, Nat.add_assoc]

theorem fileRead_congr {offset size : Nat}
    (h : ∀ pos, offset ≤ pos → pos < offset + size → byteAt dev' d pos = byteAt dev d pos) :
    fileRead dev' d offset size = fileRead dev d offset size :=
  map_congr_left fun j hj => h _ (by omega) (by have := List.mem_range.mp hj; omega)

theorem read_logical_eq (dev : Device) (d : InodeDisk) {offset chunk : Nat}
    (h : offset % 512 + chunk ≤ 512) :
    (dev.logical (sectorAt dev.disk d (offset / 512))).read (offset % 512) chunk =
      fileRead dev d offset chunk := by
  refine map_congr_left fun j hj => ?_
  have hj' := List.mem_range.mp hj
  rw [byteAt, show (offset + j) / 512 = offset / 512 by omega,
    show (offset + j) % 512 = offset % 512 + j by omega]

/-- The read loop returns the bytes of the file up to its end. -/
theorem inode_read_loop_runs (hev : EvictsInTable ok) (fuel : Nat) :
    ∀ {dev : Device} {size offset : Nat}, OnDisk dev d → size ≤ fuel →
    (inode_read_loop d fuel size offset).Runs ok dev fun es bytes dev' =>
      bytes = fileRead dev d offset (min size (d.length - offset)) ∧
      Access (· ∈ dataSectors dev.disk d ((d.length + 511) / 512)) (fun _ => False) es dev dev' := by
  induction fuel with
  | zero =>
    intro dev size offset hd hf
    refine .pure ⟨?_, .refl hd.cache⟩
    rw [show min size (d.length - offset) = 0 by omega]
    rfl
  | succ fuel ih =>
    intro dev size offset hd hf
    unfold inode_read_loop
    by_cases hz : size = 0
    · rw [if_pos hz]
      refine .pure ⟨?_, .refl hd.cache⟩
      rw [show min size (d.length - offset) = 0 by omega]
      rfl
    rw [if_neg hz]
    by_cases hpos : offset < d.length
    · have hchunk : chunk_size d size offset ≠ 0 := by simp only [chunk_size]; omega
      have hsec : offset % 512 + chunk_size d size offset ≤ 512 := by
        simp only [chunk_size]; omega
      have hle : chunk_size d size offset ≤ min size (d.length - offset) := by
        simp only [chunk_size]; omega
      have hlt := hd.laid.sectorAt_lt (i := offset / 512) (by omega)
      refine .silent_bind (byte_to_sector_run hd.laid hpos) ?_
      rw [if_neg hchunk]
      refine .bind (cache_read_runs hd.cache hlt hsec hev) fun es bytes dev₁ _ ⟨hb, ha⟩ => ?_
      obtain ⟨hag, hd₁⟩ := hd.access ha fun _ => False.elim
      refine .bind (ih hd₁ (by omega)) fun es' rest dev₂ _ ⟨hr, ha'⟩ => ?_
      refine .pure ⟨?_, ?_⟩
      · rw [hb, hr, read_logical_eq dev d hsec, show min size (d.length - offset) =
          chunk_size d size offset + min (size - chunk_size d size offset)
            (d.length - (offset + chunk_size d size offset)) by omega, fileRead_add]
        congr 1
        refine fileRead_congr fun pos _ hp => ?_
        rw [byteAt, hag.sectorAt_eq (by omega), ha.logical_eq _ id, byteAt]
      · rw [hag.dataSectors_eq] at ha'
        rw [append_nil]
        refine (ha.mono (fun t ht => ?_) fun _ => id).trans ha'
        exact ht ▸ mem_dataSectors.mpr ⟨_, by omega, rfl⟩
    · -- past the end of the file `byte_to_sector` is not looked at
      have hb : byte_to_sector d offset = pure 4294967295 := if_neg hpos
      have hchunk : chunk_size d size offset = 0 := by simp only [chunk_size]; omega
      rw [hb]
      refine .silent_bind (pure_run _ _) ?_
      rw [hchunk, if_pos rfl]
      refine .pure ⟨?_, .refl hd.cache⟩
      rw [show min size (d.length - offset) = 0 by omega]
      rfl

/-- One chunk written. -/
theorem byteAt_write {src : List UInt8} {offset pos : Nat} (hd : OnDisk dev d)
    (hpos : pos < 512 * ((d.length + 511) / 512)) (hoff : offset < d.length)
    (hsec : offset % 512 + src.length ≤ 512) (ha : Access R W es dev dev')
    (hW : ∀ t, W t → t = sectorAt dev.disk d (offset / 512))
    (hag : Agree dev.disk d dev'.disk d ((d.length + 511) / 512))
    (hw : dev'.logical (sectorAt dev.disk d (offset / 512)) =
      (dev.logical (sectorAt dev.disk d (offset / 512))).write (offset % 512) src) :
    byteAt dev' d pos = if offset ≤ pos ∧ pos < offset + src.length then src.getD (pos - offset) 0
      else byteAt dev d pos := by
  rw [byteAt, hag.sectorAt_eq (by omega)]
  by_cases he : pos / 512 = offset / 512
  · rw [he, hw, Bytes.get_write (Nat.mod_lt _ (by omega)), byteAt, he,
      show pos % 512 - offset % 512 = pos - offset by omega]
    exact if_congr (by omega) rfl rfl
  · have hne : ¬ W (sectorAt dev.disk d (pos / 512)) := fun h =>
      he (hd.laid.sectorAt_inj (by omega) (by omega) (hW _ h))
    rw [ha.logical_eq _ hne, if_neg (by omega), byteAt]

/-- The write loop writes the bytes of the file up to its end. -/
theorem inode_write_loop_runs (hev : EvictsInTable ok) (fuel : Nat) :
    ∀ {dev : Device} {buffer : List UInt8} {offset : Nat}, OnDisk dev d → buffer.length ≤ fuel →
    (inode_write_loop d fuel buffer offset).Runs ok dev fun es m dev' =>
      m = min buffer.length (d.length - offset) ∧
      Agree dev.disk d dev'.disk d ((d.length + 511) / 512) ∧
      (∀ pos < 512 * ((d.length + 511) / 512), byteAt dev' d pos =
        if offset ≤ pos ∧ pos < offset + m then buffer.getD (pos - offset) 0
        else byteAt dev d pos) ∧
      Access (· ∈ dataSectors dev.disk d ((d.length + 511) / 512))
        (· ∈ dataSectors dev.disk d ((d.length + 511) / 512)) es dev dev' := by
  have hnil : ∀ {dev : Device} {buffer : List UInt8} {offset : Nat}, OnDisk dev d →
      min buffer.length (d.length - offset) = 0 →
      (pure 0 : Machine Event Device Nat).Runs ok dev fun es m dev' =>
        m = min buffer.length (d.length - offset) ∧
        Agree dev.disk d dev'.disk d ((d.length + 511) / 512) ∧
        (∀ pos < 512 * ((d.length + 511) / 512), byteAt dev' d pos =
          if offset ≤ pos ∧ pos < offset + m then buffer.getD (pos - offset) 0
          else byteAt dev d pos) ∧
        Access (· ∈ dataSectors dev.disk d ((d.length + 511) / 512))
          (· ∈ dataSectors dev.disk d ((d.length + 511) / 512)) es dev dev' :=
    fun hd h0 => .pure ⟨h0.symm, Agree.of_index (fun _ _ => rfl) fun _ _ => rfl,
      fun pos _ => (if_neg (by omega)).symm, .refl hd.cache⟩
  induction fuel with
  | zero =>
    intro dev buffer offset hd hf
    exact hnil hd (by omega)
  | succ fuel ih =>
    intro dev buffer offset hd hf
    unfold inode_write_loop
    by_cases hz : buffer.length = 0
    · rw [if_pos hz]
      exact hnil hd (by omega)
    rw [if_neg hz]
    by_cases hpos : offset < d.length
    · set c := chunk_size d buffer.length offset with hc
      have hchunk : c ≠ 0 := by simp only [hc, chunk_size]; omega
      have hle : c ≤ min buffer.length (d.length - offset) := by
        simp only [hc, chunk_size]; omega
      have hlen : (buffer.take c).length = c := by rw [length_take]; omega
      have hsec : offset % 512 + (buffer.take c).length ≤ 512 := by
        rw [hlen]; simp only [hc, chunk_size]; omega
      have hlt := hd.laid.sectorAt_lt (i := offset / 512) (by omega)
      have hmem : sectorAt dev.disk d (offset / 512) ∈
          dataSectors dev.disk d ((d.length + 511) / 512) :=
        mem_dataSectors.mpr ⟨_, by omega, rfl⟩
      refine .silent_bind (byte_to_sector_run hd.laid hpos) ?_
      rw [if_neg hchunk]
      refine .bind (cache_write_runs hd.cache hlt hsec hev) fun es _ dev₁ _ ⟨hw, ha⟩ => ?_
      obtain ⟨hag, hd₁⟩ := hd.access ha fun t ht hi =>
        hd.laid.index_not_data hi (ht ▸ hmem)
      have hbytes : ∀ pos < 512 * ((d.length + 511) / 512), byteAt dev₁ d pos =
          if offset ≤ pos ∧ pos < offset + (buffer.take c).length then
            (buffer.take c).getD (pos - offset) 0
          else byteAt dev d pos :=
        fun pos hp => byteAt_write hd hp hpos hsec ha (fun t ht => ht) hag hw
      refine .bind (@ih dev₁ (buffer.drop c) (offset + c) hd₁
        (by rw [length_drop]; omega)) fun es' m dev₂ _ ⟨hm, hag', hb', ha'⟩ => ?_
      rw [length_drop] at hm
      rw [hag.dataSectors_eq] at ha'
      refine .pure ⟨by omega, hag.trans hag', fun pos hp => ?_, ?_⟩
      · rw [hb' pos hp, hbytes pos hp, hlen]
        by_cases h₁ : pos < offset + c
        · rw [if_neg (by omega)]
          refine if_congr (by omega) ?_ rfl
          rw [getD_eq_getElem?_getD, getElem?_take]
          by_cases h₂ : pos - offset < c
          · rw [if_pos h₂, getD_eq_getElem?_getD]
          · omega
        · by_cases h₂ : pos < offset + c + m
          · rw [if_pos (by omega), if_pos (by omega), getD_eq_getElem?_getD,
              getElem?_drop, getD_eq_getElem?_getD]
            congr 2
            omega
          · rw [if_neg (by omega), if_neg (by omega), if_neg (by omega)]
      · rw [append_nil]
        exact (ha.mono (fun t ht => ht ▸ hmem) fun t ht => ht ▸ hmem).trans ha'
    · have hb : byte_to_sector d offset = pure 4294967295 := if_neg hpos
      have hchunk : chunk_size d buffer.length offset = 0 := by simp only [chunk_size]; omega
      rw [hb]
      refine .silent_bind (pure_run _ _) ?_
      rw [hchunk, if_pos rfl]
      exact hnil hd (by omega)

end Data

end Pintos
