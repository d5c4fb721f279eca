import Pintos.Filesys.GrowthFailure

/-!
# Filesys — the length of a file and what backs it

`inode_write_at` grows a file to the end of the write before it copies anything.  The counts of the
three levels follow the length, whatever the disk holds, as long as the length fits the index: 16525
sectors (`inode_grow_counts`).  Nothing compares the length with that limit.

`write_backed_iff`: a write leaves an inode whose length is backed, or returns a short count, exactly
when its end is not between the limit and the largest `off_t`.  An end beyond that wraps to a
negative number, and the file does not grow.
-/

namespace Pintos
open Support Function
open Machine (bind_done)

/-- The counts of a file of `n` sectors. -/
structure BlockCounts (d : InodeDisk) (n : Nat) : Prop where
  direct : d.direct_count = min n 13
  indirect : d.indirect_count = min (n - 13) 128
  double : d.double_indirect_count = n - 141

/-- The length is what the three levels hold, so every position has an entry in an index block. -/
structure Backed (d : InodeDisk) : Prop where
  counts : (d.length + 511) / 512 =
    d.direct_count + d.indirect_count + d.double_indirect_count
  cap : (d.length + 511) / 512 ≤ 16525
  entries : ∀ pos < d.length, (13 + 128) * 512 ≤ pos →
    (pos - (13 + 128) * 512) / (128 * 512) < 128

/-- What a write of `size` bytes at `offset` to the inode at `p` has to come to. -/
structure WriteBacked (p : Addr) (offset size : Nat) (out : Outcome Fs Nat) : Prop where
  backed : ∀ m k', out = .done m k' → m ≤ size ∧ ∃ i, k'.mem p = some i ∧ Backed i.data
  short : 16525 * 512 < offset + size → ∃ m k', out = .done m k' ∧ m < size

theorem BlockCounts.backed {d : InodeDisk} (h : BlockCounts d ((d.length + 511) / 512))
    (hcap : (d.length + 511) / 512 ≤ 16525) : Backed d where
  counts := by
    rw [h.direct, h.indirect, h.double]
    omega
  cap := hcap
  entries pos hpos _ := by omega

/-! ### The counts of a growth -/

section BlockCounts

variable {k k' : Fs} {d : InodeDisk} {es : List Event} {n g : Nat} {r : InodeDisk × Nat}

/-- The loop counts what it fills, whatever the allocations say. -/
theorem grow_loop_counts {τ : Type} {get : τ → Nat → Sector} {set : τ → Nat → Sector → τ}
    {limit : Nat} (g : Nat) : ∀ {k k' : Fs} {es : List Event} {arr : τ} {cnt : Nat}
    {r : τ × Nat × Nat}, grow_loop get set limit g arr cnt k = (es, .done r k') →
    r.2.1 = cnt + min g (limit - cnt) ∧ r.2.2 = g - min g (limit - cnt) := by
  induction g with
  | zero =>
    intro k k' es arr cnt r h
    cases h
    exact ⟨by simp, by simp⟩
  | succ g ih =>
    intro k k' es arr cnt r h
    unfold grow_loop at h
    by_cases hc : cnt < limit
    · rw [if_pos hc] at h
      obtain ⟨_, _, _, _, -, h, -⟩ := bind_done h
      obtain ⟨_, _, _, _, -, h, -⟩ := bind_done h
      obtain ⟨h₁, h₂⟩ := ih h
      exact ⟨by omega, by omega⟩
    · rw [if_neg hc] at h
      cases h
      exact ⟨by show cnt = _; omega, by show g + 1 = _; omega⟩

theorem grow_direct_counts (hd : BlockCounts d n) (h : grow_direct d g k = (es, .done r k')) :
    BlockCounts r.1 (n + min g (13 - n)) ∧ r.2 = g - min g (13 - n) := by
  obtain ⟨_, s, _, _, hs, hp, -⟩ := bind_done h
  cases hp
  obtain ⟨h₁, h₂⟩ := grow_loop_counts g hs
  have hlim : DIRECT_BLOCKS = 13 := rfl
  rw [hd.direct] at h₁ h₂
  refine ⟨⟨?_, ?_, ?_⟩, ?_⟩
  · show s.2.1 = _
    omega
  · exact hd.indirect.trans (by omega)
  · exact hd.double.trans (by omega)
  · show s.2.2 = _
    omega

theorem index_block_counts {i : Nat} {fresh : Bool} {r : InodeDisk × Block} (hd : BlockCounts d n)
    (h : index_block i d fresh k = (es, .done r k')) : BlockCounts r.1 n := by
  obtain ⟨_, b, _, _, -, h, -⟩ := bind_done h
  cases fresh with
  | true =>
    obtain ⟨_, d', _, _, ha, hp, -⟩ := bind_done h
    cases hp
    rcases allocate_into_done ha with rfl | ⟨t, rfl⟩
    · exact hd
    · exact ⟨hd.direct, hd.indirect, hd.double⟩
  | false =>
    obtain ⟨_, b', _, _, -, hp, -⟩ := bind_done h
    cases hp
    exact hd

theorem grow_indirect_counts (hd : BlockCounts d n) (hn : g ≠ 0 → 13 ≤ n)
    (h : grow_indirect d g k = (es, .done r k')) :
    BlockCounts r.1 (n + min g (141 - n)) ∧ r.2 = g - min g (141 - n) := by
  unfold grow_indirect at h
  split at h
  · cases h
    rw [show n + min g (141 - n) = n by omega]
    exact ⟨hd, by show g = _; omega⟩
  · obtain ⟨_, r₁, _, _, h₁, h, -⟩ := bind_done h
    obtain ⟨_, s, _, _, hs, h, -⟩ := bind_done h
    obtain ⟨_, _, _, _, -, hp, -⟩ := bind_done h
    cases hp
    have hd₁ := index_block_counts hd h₁
    obtain ⟨h₂, h₃⟩ := grow_loop_counts g hs
    have hlim : INDIRECT_BLOCK_ENTRIES = 128 := rfl
    have hn := hn ‹_›
    rw [hd₁.indirect] at h₂ h₃
    refine ⟨⟨?_, ?_, ?_⟩, ?_⟩
    · exact hd₁.direct.trans (by omega)
    · show s.2.1 = _
      omega
    · exact hd₁.double.trans (by omega)
    · show s.2.2 = _
      omega

/-- Within the limit, the loop over the second-level blocks takes all it has to. -/
theorem grow_level_two_counts (fuel : Nat) : ∀ {k k' : Fs} {es : List Event} {one two : Block}
    {count g : Nat} {r : Block × Nat × Nat}, g ≤ fuel → count + g ≤ 16384 →
    grow_level_two fuel one two count g k = (es, .done r k') →
    r.2.1 = count + g ∧ r.2.2 = 0 := by
  induction fuel with
  | zero =>
    intro k k' es one two count g r hg _ h
    cases h
    exact ⟨by show count = _; omega, by show g = 0; omega⟩
  | succ fuel ih =>
    intro k k' es one two count g r hg hcap h
    have hlim : DOUBLE_INDIRECT_BLOCK_ENTRIES = 16384 := rfl
    unfold grow_level_two at h
    split at h
    · obtain ⟨_, r₁, _, _, -, h, -⟩ := bind_done h
      obtain ⟨_, s, _, _, hs, h, -⟩ := bind_done h
      obtain ⟨_, _, _, _, -, h, -⟩ := bind_done h
      obtain ⟨h₁, h₂⟩ := grow_loop_counts g hs
      obtain ⟨h₃, h₄⟩ := ih (by omega) (by omega) h
      exact ⟨by omega, h₄⟩
    · cases h
      exact ⟨by show count = _; omega, by show g = 0; omega⟩

theorem grow_double_counts (hd : BlockCounts d n) (hn : g ≠ 0 → 141 ≤ n) (hcap : n + g ≤ 16525)
    (h : grow_double d g k = (es, .done r k')) : BlockCounts r.1 (n + g) := by
  unfold grow_double at h
  split at h
  · cases h
    rw [show n + g = n by omega]
    exact hd
  · obtain ⟨_, r₁, _, _, h₁, h, -⟩ := bind_done h
    obtain ⟨_, b, _, _, -, h, -⟩ := bind_done h
    obtain ⟨_, s, _, _, hs, h, -⟩ := bind_done h
    obtain ⟨_, _, _, _, -, hp, -⟩ := bind_done h
    cases hp
    have hd₁ := index_block_counts hd h₁
    have hn := hn ‹_›
    obtain ⟨h₂, -⟩ := grow_level_two_counts g le_rfl (by rw [hd₁.double]; omega) hs
    rw [hd₁.double] at h₂
    refine ⟨hd₁.direct.trans (by omega), hd₁.indirect.trans (by omega), ?_⟩
    show s.2.1 = _
    omega

/-- Growth within the limit keeps the counts in step with the length. -/
theorem inode_grow_counts {length : Nat} {r : Bool × InodeDisk}
    (hd : BlockCounts d ((d.length + 511) / 512)) (hle : d.length ≤ length)
    (hcap : (length + 511) / 512 ≤ 16525) (h : inode_grow d length k = (es, .done r k')) :
    BlockCounts r.2 ((length + 511) / 512) := by
  have hle' : (d.length + 511) / 512 ≤ (length + 511) / 512 := by omega
  obtain ⟨_, _, _, _, -, h, -⟩ := bind_done h
  rw [grow_sectors_eq (hle'.trans hcap) hcap hle'] at h
  generalize (d.length + 511) / 512 = n at *
  generalize (length + 511) / 512 = n' at *
  obtain ⟨g, rfl⟩ := Nat.exists_eq_add_of_le hle'
  have hd₀ : BlockCounts { d with length := length } n := ⟨hd.direct, hd.indirect, hd.double⟩
  rw [Nat.add_sub_cancel_left] at h
  simp only at h
  split at h
  · cases h
    rw [show n + g = n by omega]
    exact hd₀
  · obtain ⟨_, r₁, _, _, h₁, h, -⟩ := bind_done h
    obtain ⟨_, r₂, _, _, h₂, h, -⟩ := bind_done h
    obtain ⟨_, r₃, _, _, h₃, hp, -⟩ := bind_done h
    cases hp
    obtain ⟨hd₁, hg₁⟩ := grow_direct_counts hd₀ h₁
    obtain ⟨hd₂, hg₂⟩ := grow_indirect_counts hd₁ (by omega) h₂
    have hd₃ := grow_double_counts hd₂ (by omega) (by omega) h₃
    rwa [show n + min g (13 - n) + min r₁.2 (141 - (n + min g (13 - n))) + r₂.2 = n + g by
      omega] at hd₃

end BlockCounts

/-! ### The write -/

section Write

variable {k k' : Fs} {p : Addr} {i : Inode InodeDisk} {buffer : List UInt8} {offset m : Nat}
  {es : List Event}

/-- What a write that returns has done: it has grown the inode or not, and then copied. -/
theorem inode_write_at_parts (hp : k.mem p = some i) (hdeny : i.deny_write_cnt = 0)
    (h : inode_write_at p buffer offset k = (es, .done m k')) :
    ∃ es₁ data k₁, inode_extend i (wrap32 (offset + buffer.length)) k = (es₁, .done data k₁) ∧
      k'.mem p = some { i with data := data } ∧
      m = min buffer.length (data.length - offset) := by
  obtain ⟨_, i', k₁, _, hi, h, -⟩ := bind_done h
  rw [deref_run hp] at hi
  cases hi
  rw [if_neg (by simpa using hdeny)] at h
  obtain ⟨es₁, data, k₂, _, hx, h, -⟩ := bind_done h
  obtain ⟨_, _, k₃, _, hs, hl, -⟩ := bind_done h
  cases hs
  obtain ⟨dev, hloop, rfl⟩ := onDevice_done hl
  exact ⟨es₁, data, k₂, hx, update_self .., inode_write_loop_done _ le_rfl hloop⟩

/-- A write that ends within the limit leaves an inode that is backed. -/
theorem write_within_backed (hp : k.mem p = some i) (hdeny : i.deny_write_cnt = 0)
    (hd : BlockCounts i.data ((i.data.length + 511) / 512))
    (hcap : (i.data.length + 511) / 512 ≤ 16525) (hend : offset + buffer.length ≤ 16525 * 512)
    (h : inode_write_at p buffer offset k = (es, .done m k')) :
    m ≤ buffer.length ∧ ∃ i', k'.mem p = some i' ∧ Backed i'.data := by
  obtain ⟨es₁, data, k₁, hx, hmem, hm⟩ := inode_write_at_parts hp hdeny h
  refine ⟨by omega, _, hmem, ?_⟩
  rw [show (offset : Int) + buffer.length = ((offset + buffer.length : Nat) : Int) by simp,
    wrap32_of_lt (by omega)] at hx
  unfold inode_extend at hx
  split at hx
  · split at hx
    · cases hx
    · obtain ⟨_, r, _, _, hg, hr, -⟩ := bind_done hx
      cases hr
      have hlen := (inode_grow_done hg).2.1
      rw [Int.toNat_natCast] at hg hlen
      have hc := inode_grow_counts hd (by omega) (by omega) hg
      rw [← hlen] at hc
      exact hc.backed (by rw [hlen]; omega)
  · cases hx
    exact hd.backed hcap

/-- A write whose end is no `off_t` does not grow the file, and returns a short count. -/
theorem write_wrapped_short (hp : k.mem p = some i) (hdeny : i.deny_write_cnt = 0)
    (hd : OnDisk k.dev.device i.data) (hofs : offset < 2 ^ 31) (hsize : buffer.length < 2 ^ 31)
    (hend : 2 ^ 31 ≤ offset + buffer.length) :
    (inode_write_at p buffer offset).Runs Event.InTable k fun _ m k' =>
      m < buffer.length ∧ k'.mem p = some i := by
  have hcap := hd.laid.cap
  have hext : inode_extend i (wrap32 (offset + buffer.length)) = pure i.data := by
    have := wrap32_neg hend (by omega)
    rw [Nat.cast_add] at this
    exact if_neg (by omega)
  refine Machine.Runs.silent_bind (deref_run hp) ?_
  rw [if_neg (by simpa using hdeny), hext]
  refine Machine.Runs.silent_bind (Machine.pure_run _ _) (Machine.Runs.modify_bind ?_)
  refine Machine.Runs.mono (onDevice_runs (k := k.setInode p i)
    (inode_write_loop_runs (fun _ h => h) _ hd le_rfl)) ?_
  rintro es m k' - ⟨dev, rfl, hm, -⟩
  exact ⟨by omega, update_self ..⟩

/-- A write is backed, or short, unless its end lies between the limit of the index and the
largest `off_t`. -/
theorem write_backed_iff (hp : k.mem p = some i) (hdeny : i.deny_write_cnt = 0)
    (hd : OnDisk k.dev.device i.data) (hofs : offset < 2 ^ 31) (hsize : buffer.length < 2 ^ 31)
    (hev : ∀ e ∈ (inode_write_at p buffer offset k).1, e.InTable) :
    WriteBacked p offset buffer.length (inode_write_at p buffer offset k).2 ↔
      ¬ (16525 * 512 < offset + buffer.length ∧ offset + buffer.length < 2 ^ 31) := by
  have hcap := hd.laid.cap
  have hcounts : BlockCounts i.data ((i.data.length + 511) / 512) :=
    ⟨hd.laid.direct, hd.laid.indirect, hd.laid.double⟩
  constructor
  · rintro hw ⟨hover, hlt⟩
    obtain ⟨m, k', hm, hshort⟩ := hw.short hover
    have hext : (i.data.length : Int) < wrap32 (offset + buffer.length) := by
      rw [show (offset : Int) + buffer.length = ((offset + buffer.length : Nat) : Int) by simp,
        wrap32_of_lt hlt]
      omega
    rw [inode_write_at_done hp hdeny hext hofs hsize (eq_of_outcome hm)] at hshort
    exact lt_irrefl _ hshort
  · intro hno
    by_cases hend : offset + buffer.length ≤ 16525 * 512
    · exact ⟨fun m k' hm => write_within_backed hp hdeny hcounts hcap hend (eq_of_outcome hm),
        fun hover => absurd hend (by omega)⟩
    · obtain ⟨m, k', hm, hshort, hmem⟩ :=
        write_wrapped_short hp hdeny hd hofs hsize (by omega) hev
      refine ⟨fun m' k'' h => ?_, fun _ => ⟨m, k', hm, hshort⟩⟩
      rw [hm] at h
      cases h
      exact ⟨hshort.le, i, hmem, hcounts.backed hcap⟩

end Write

theorem onDisk_fresh {dev : Device} (h : CacheOk dev) (is_dir : Bool) :
    OnDisk dev (.fresh is_dir) := by
  have hn : ((InodeDisk.fresh is_dir).length + 511) / 512 = 0 := by
    show (0 + 511) / 512 = 0
    omega
  have hown : ownedSectors dev.disk (.fresh is_dir) 0 = [] := rfl
  refine ⟨h, ?_, ?_⟩
  · rw [hn]
    refine ⟨by omega, rfl, rfl, rfl, ?_, ?_⟩
    · rw [hown]; exact List.nodup_nil
    · rw [hown]; simp
  · rw [hn, indexSectors_none _ _ (by omega)]
    simp

/-- An empty file, open. -/
def emptyInode : Inode InodeDisk := ⟨4, 1, false, 0, false, .fresh false⟩

theorem write_backed_idleFs :
    WriteBacked 1 0 1 (inode_write_at 1 [7] 0 ((idleFs 160 5).setInode 1 emptyInode)).2 := by
  have hr : Ready (idleFs 160 5) 4 :=
    ready_idleFs (by omega) (by omega) (by omega) (by omega)
  obtain ⟨F, X, hk, -⟩ := hr.file
  have hd : OnDisk ((idleFs 160 5).setInode 1 emptyInode).dev.device emptyInode.data :=
    onDisk_fresh hk.cache false
  have hsize : ([7] : List UInt8).length < 2 ^ 31 := by decide
  have hev : ∀ e ∈ (inode_write_at 1 [7] 0 ((idleFs 160 5).setInode 1 emptyInode)).1, e.InTable := by
    decide +kernel
  exact (write_backed_iff rfl rfl hd (by decide) hsize hev).mpr (by decide)

/-- A mounted device of 20000 sectors, the first 10 of them in use, with an empty file open. -/
def bigFs : Fs where
  mem p := if p = 0 then some ⟨FREE_MAP_SECTOR, 1, false, 0, false,
      { InodeDisk.fresh false with
        blocks := fun i => i.val + 2, direct_count := 5, length := byte_cnt 20000 }⟩
    else if p = 1 then some emptyInode else none
  next := 2
  open_inodes := [1, 0]
  dev := {
    device := {
      size := 20000
      disk := fun _ => Bytes.zero
      cache_table := fun _ => ⟨false, 0, false, false, Bytes.zero, 0⟩
      round_robin_idx := 0 }
    free_map := ⟨20000, fun t => decide (t < 10)⟩
    free_map_file := some 0
    stack := fun _ => Bytes.zero
    frame := 0 }

/-- One byte written just beyond what the index can hold, with sectors to spare. -/
theorem write_beyond_limit : bigFs.mem 1 = some emptyInode ∧
    FreeMapOk (· ∈ [2, 3, 4, 5, 6]) (fun _ => False) bigFs ∧
    OnDisk bigFs.dev.device emptyInode.data ∧ 16525 + 131 < bigFs.dev.free_map.room ∧
    ¬ WriteBacked 1 (16525 * 512) 1 (inode_write_at 1 [7] (16525 * 512) bigFs).2 := by
  have hnone : ∀ {i t}, ¬ bigFs.dev.device.Holds i t := fun h => by cases h.1
  have hcache : CacheOk bigFs.dev.device :=
    ⟨fun hi => absurd hi hnone, fun hi => absurd hi hnone, fun _ => rfl,
      fun ⟨_, hr⟩ => absurd hr hnone⟩
  refine ⟨rfl, ?_, onDisk_fresh hcache false, ?_, fun hw => ?_⟩
  · exact freeMapOk_direct (n := 5) hcache rfl (by decide) rfl rfl rfl le_rfl (by decide)
      (by decide) ⟨rfl, rfl, rfl⟩ (by decide) (by decide)
  · rw [show bigFs.dev.free_map.room = 20000 - 10 from Bitmap.room_init (by omega)]
    omega
  · obtain ⟨m, k', hm, hshort⟩ := hw.short (by omega)
    have hext : ((emptyInode.data.length : Nat) : Int) <
        wrap32 ((16525 * 512 : Nat) + ([7] : List UInt8).length) := by
      rw [← Nat.cast_add, wrap32_of_lt (by decide)]
      decide
    have hone := inode_write_at_done rfl rfl hext (by omega) (by decide) (eq_of_outcome hm)
    rw [hone] at hshort
    exact absurd hshort (by decide)

end Pintos
