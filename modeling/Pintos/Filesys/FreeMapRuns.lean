import Pintos.Filesys.CreateInode
import Pintos.Filesys.VolumeOk
import Pintos.Lib.BitmapRuns

/-!
# Filesys — the free map over a whole run

`free-map.c` after formatting: a device whose cache is empty gets a free map and its file
(`free_map_init`, `free_map_create`), and then groups of sectors are allocated and released in any
order.  `Formatted F X p k` is what formatting leaves (`free_map_create_formats`), and
`FreeMapRun F X k₀ held k` a run from there that has handed out the sectors `held` and not taken
them back.  Between the calls the cache may serve anybody who spares the file.

In every state of a run the map marks what it marked after formatting and `held`, and its file
holds the map (`Tracks`).  So no call hands out a sector twice, a call fails only when there is no
group of free sectors, and a map of the same size that is read from the file, whatever it held
before, is the map in memory (`free_map_exclusive`).
-/

namespace Pintos
open Support List Function
open Event (InTable)

/-! ### The functions -/

/-- `free_map_init`. -/
def free_map_init : Machine Event Fs Unit :=
  Machine.modify fun k => k.setFreeMap
    (bitmap_mark (bitmap_mark (bitmap_create k.dev.device.size) FREE_MAP_SECTOR) ROOT_DIR_SECTOR)

/-- `free_map_create`. -/
def free_map_create : Machine Event Fs Unit := do
  let k ← Machine.get
  let created ← inode_create FREE_MAP_SECTOR (bitmap_file_size k.dev.free_map) false
  if created then do
    let p ← inode_open disk_backend FREE_MAP_SECTOR
    Machine.modify fun k => { k with dev := { k.dev with free_map_file := some p } }
    let written ← bitmap_write
    if written then pure () else Machine.panic
  else Machine.panic

/-- `bitmap_read (free_map, free_map_file)`. -/
def bitmap_read : Machine Event Fs Bool := do
  let k ← Machine.get
  if k.dev.free_map.bit_cnt = 0 then pure true
  else
    match k.dev.free_map_file with
    | none => Machine.panic
    | some p => do
      let size := byte_cnt k.dev.free_map.bit_cnt
      let bytes ← inode_read_at p size 0
      Machine.modify fun k => k.setFreeMap (bitmap_load k.dev.free_map bytes)
      pure (bytes.length == size)

/-! ### Formatting -/

/-- The file system before it is formatted: nothing is cached and no inode is open.  The free map
has to fit on the device and into an inode. -/
structure Blank (k : Fs) : Prop where
  cache : ∀ i, (k.dev.device.cache_table i).occupied = false ∧
    (k.dev.device.cache_table i).dirty = false
  closed : k.open_inodes = []
  file : k.dev.free_map_file = none
  room : 2 < k.dev.device.size
  fits : byte_cnt k.dev.device.size ≤ 16525 * 512

/-- The free map is marked, its file is open as `p` and holds it. -/
structure Formatted (F X : Sector → Prop) (p : Addr) (k : Fs) : Prop where
  ok : FreeMapOk F X k
  file : k.dev.free_map_file = some p
  system : k.dev.free_map.bits FREE_MAP_SECTOR = true ∧ k.dev.free_map.bits ROOT_DIR_SECTOR = true
  stored : Stored k

section Format

variable {k : Fs}

theorem Blank.not_resident (h : Blank k) (t : Sector) : ¬ k.dev.device.Resident t := by
  rintro ⟨i, ho, -⟩
  rw [(h.cache i).1] at ho
  cases ho

theorem Blank.cacheOk (h : Blank k) : CacheOk k.dev.device :=
  ⟨fun hi => absurd ⟨_, hi⟩ (h.not_resident _), fun hi => absurd ⟨_, hi⟩ (h.not_resident _),
    fun _ => (h.cache _).2, fun hr => absurd hr (h.not_resident _)⟩

/-- The map that `free_map_init` makes marks the first two sectors. -/
theorem bits_free_map_init (size t : Nat) :
    (bitmap_mark (bitmap_mark (bitmap_create size) FREE_MAP_SECTOR) ROOT_DIR_SECTOR).bits t =
      decide (t < 2) := by
  simp only [bitmap_mark, bitmap_create, update_apply, FREE_MAP_SECTOR, ROOT_DIR_SECTOR]
  by_cases h₁ : t = 1
  · simp [h₁]
  · by_cases h₀ : t = 0
    · simp [h₀]
    · simp [h₁, h₀]
      omega

/-- A device with more than two sectors has room for the file of its map. -/
theorem ownedLength_le_room {size : Nat} (h : 2 < size) :
    ownedLength ((byte_cnt size + 511) / 512) ≤
      (bitmap_mark (bitmap_mark (bitmap_create size) FREE_MAP_SECTOR) ROOT_DIR_SECTOR).room := by
  have hroom : (bitmap_mark (bitmap_mark (bitmap_create size) FREE_MAP_SECTOR)
      ROOT_DIR_SECTOR).room = size - 2 := by
    rw [Bitmap.room_eq, ← Bitmap.room_init h.le, Bitmap.room_eq]
    exact countP_congr fun t _ => by rw [bits_free_map_init]
  rw [hroom]
  simp only [ownedLength, byte_cnt]
  omega

/-- An inode that lies on the device becomes the file of the free map. -/
theorem freeMapOk_open {F X : Sector → Prop} {ok : Event → Prop} {i : Inode InodeDisk} {n : Nat}
    (hg : Growable ok F X k i.data n) (hn : (i.data.length + 511) / 512 = n)
    (hlen : bitmap_file_size k.dev.free_map ≤ i.data.length) (hdeny : i.deny_write_cnt = 0) :
    FreeMapOk (· ∈ dataSectors k.dev.device.disk i.data n)
      (· ∈ indexSectors k.dev.device.disk i.data n)
      { k.malloc i with dev := { k.dev with free_map_file := some k.next } } where
  cache := hg.calm.cache
  width := hg.calm.width
  small := hg.calm.small
  file p hp := by
    obtain rfl : k.next = p := Option.some.inj hp
    refine ⟨i, update_self .., hdeny, hlen, ⟨hg.calm.cache, ?_, ?_⟩, ?_, ?_⟩
    · rw [hn]
      exact hg.laid
    · rw [hn]
      rintro t ht ⟨j, hj, -⟩
      exact (hg.quiet t ht).absent ⟨j, hj⟩
    · rw [hn]
      exact fun t => Iff.rfl
    · rw [hn]
      exact fun t => Iff.rfl
  used t ht := hg.used t (ht.elim (mem_append_right _) (mem_append_left _))

/-- Formatting a blank device. -/
theorem free_map_create_formats (h : Blank k) :
    (free_map_init >>= fun _ => free_map_create).Runs InTable k fun _ _ k' =>
      ∃ F X p, Formatted F X p k' := by
  have hev : ∀ r, InTable (.evict r) → ∃ i, slotOf r = some i := fun _ hr => hr
  have hfits := h.fits
  have hsmall : k.dev.device.size ≤ 2 ^ 32 := by
    simp only [byte_cnt] at hfits
    omega
  refine .modify_bind (.get_bind ?_)
  have hk : FreeMapOk (fun _ => False) (fun _ => False) (k.setFreeMap (bitmap_mark
      (bitmap_mark (bitmap_create k.dev.device.size) FREE_MAP_SECTOR) ROOT_DIR_SECTOR)) :=
    ⟨⟨h.cacheOk, rfl, hsmall, fun p hp => by simp [h.file] at hp⟩,
      fun _ ht => ht.elim False.elim False.elim⟩
  have hquiet : Quiet (fun _ => False) (k.setFreeMap (bitmap_mark
      (bitmap_mark (bitmap_create k.dev.device.size) FREE_MAP_SECTOR) ROOT_DIR_SECTOR))
      FREE_MAP_SECTOR :=
    ⟨fun hf => Bool.false_ne_true (hf.2.symm.trans (bits_free_map_init _ _)), id, h.not_resident _⟩
  refine .bind (inode_create_grows hk (fun t _ => h.not_resident t)
    (Nat.lt_trans (by decide) h.room) hquiet id hfits (ownedLength_le_room h.room)) ?_
  rintro es r k₁ - ⟨hr, hlen, ⟨A, ht⟩, hg⟩
  rw [hr, if_pos rfl]
  have hopen : k₁.opened FREE_MAP_SECTOR = none := by
    rw [Kernel.opened, ht.open_inodes]
    exact congrArg (find? _) h.closed
  have hlt : FREE_MAP_SECTOR < k₁.dev.device.size := by
    rw [ht.size]
    exact Nat.lt_trans (by decide) h.room
  refine .bind (.get_bind ?_) fun _ p k₂ _ (hk₂ : p = k₁.next ∧
    k₂ = k₁.malloc ⟨FREE_MAP_SECTOR, 1, false, 0, false, inodeAt k₁ FREE_MAP_SECTOR⟩) => ?_
  · rw [hopen]
    refine .silent_bind (disk_load_run hlt) ?_
    exact .get_bind (.modify_bind (.pure ⟨rfl, rfl⟩))
  obtain ⟨rfl, rfl⟩ := hk₂
  have hcnt : k₁.dev.free_map.bit_cnt = k.dev.device.size := ht.map.bit_cnt
  have hok := freeMapOk_open (i := ⟨FREE_MAP_SECTOR, 1, false, 0, false,
    inodeAt k₁ FREE_MAP_SECTOR⟩) hg (by rw [hlen])
    (by rw [hlen, bitmap_file_size, hcnt]; exact le_rfl) rfl
  refine .modify_bind (.bind (bitmap_write_runs hok.toMapFile hev rfl) ?_)
  rintro es' b k₃ - ⟨hb, dev, hk₃, -, hok₃, hst⟩
  rw [hb, if_pos rfl]
  subst hk₃
  refine .pure ⟨_, _, k₁.next, ⟨hok₃, hok.used⟩, rfl, ⟨?_, ?_⟩, hst⟩
  · exact (ht.map.bits _).mpr (.inl (bits_free_map_init _ _))
  · exact (ht.map.bits _).mpr (.inl (bits_free_map_init _ _))

end Format

/-! ### Allocating and releasing -/

/-- The sectors that `free_map_allocate (cnt)` hands out when it returns `r`. -/
def granted (r : Option Sector) (cnt : Nat) : Set Sector :=
  {t | ∃ s ∈ r, s ≤ t ∧ t < s + cnt}

/-- From `k₀` the calls of `free_map_allocate` and `free_map_release` have led to `k`, with the
sectors `held` handed out and not released. -/
inductive FreeMapRun (F X : Sector → Prop) (k₀ : Fs) : Set Sector → Fs → Prop
  | formatted : FreeMapRun F X k₀ ∅ k₀
  | allocate {held : Set Sector} {k k' : Fs} {cnt : Nat} {es : List Event} {r : Option Sector}
      (before : FreeMapRun F X k₀ held k) (call : free_map_allocate cnt k = (es, .done r k')) :
      FreeMapRun F X k₀ (held ∪ granted r cnt) k'
  | release {held : Set Sector} {k k' : Fs} {s : Sector} {cnt : Nat} {es : List Event}
      (before : FreeMapRun F X k₀ held k) (own : ∀ t, s ≤ t → t < s + cnt → t ∈ held)
      (call : free_map_release s cnt k = (es, .done () k')) :
      FreeMapRun F X k₀ (held \ granted (some s) cnt) k'
  | elsewhere {held : Set Sector} {k : Fs} {R W : Sector → Prop} {es : List Event} {dev : Device}
      (before : FreeMapRun F X k₀ held k) (access : Access R W es k.dev.device dev)
      (spares : ∀ t, F t ∨ X t → ¬ W t) : FreeMapRun F X k₀ held (k.setDevice dev)

/-- `k` marks what `k₀` marked and `held`, and the file of the map holds it. -/
structure Tracks (F X : Sector → Prop) (p : Addr) (k₀ : Fs) (held : Set Sector) (k : Fs) :
    Prop where
  ok : FreeMapOk F X k
  file : k.dev.free_map_file = some p
  stored : Stored k
  width : k.dev.free_map.bit_cnt = k₀.dev.free_map.bit_cnt
  bits : ∀ t, k.dev.free_map.bits t = true ↔ k₀.dev.free_map.bits t = true ∨ t ∈ held
  free : ∀ t ∈ held, k₀.dev.free_map.Free t

section Runs

variable {F X : Sector → Prop} {p : Addr} {k₀ k k' : Fs} {held : Set Sector} {ok : Event → Prop}
  {R W : Sector → Prop}

theorem mem_granted_some {s t : Sector} {cnt : Nat} :
    t ∈ granted (some s) cnt ↔ s ≤ t ∧ t < s + cnt := by
  simp [granted]

theorem Formatted.tracks (h : Formatted F X p k₀) : Tracks F X p k₀ ∅ k₀ :=
  ⟨h.ok, h.file, h.stored, rfl, fun t => by simp, fun _ ht => absurd ht (Set.notMem_empty _)⟩

/-- The file keeps its bytes when others use the cache. -/
theorem Stored.access {es : List Event} {dev : Device} (h : Stored k) (hk : FreeMapOk F X k)
    (ha : Access R W es k.dev.device dev) (hW : ∀ t, F t ∨ X t → ¬ W t) :
    Stored (k.setDevice dev) := by
  intro q i hq hi pos hpos
  obtain ⟨j, hj, -, hlen, hd, hF, hX⟩ := hk.file q hq
  obtain rfl : i = j := Option.some.inj (hi.symm.trans hj)
  obtain ⟨hag, -⟩ := hd.access ha fun t ht hx => hW t (.inr ((hX t).mp hx)) ht
  have hpos' : pos < bitmap_file_size k.dev.free_map := hpos
  have hlt : pos / 512 < (i.data.length + 511) / 512 := by omega
  refine Eq.trans ?_ (h q i hq hi pos hpos)
  rw [byteAt, byteAt, Kernel.setDevice_device, hag.sectorAt_eq hlt, ha.logical_eq]
  exact hW _ (.inl ((hF _).mp (mem_dataSectors.mpr ⟨_, hlt, rfl⟩)))

theorem Tracks.elsewhere {es : List Event} {dev : Device} (h : Tracks F X p k₀ held k)
    (ha : Access R W es k.dev.device dev) (hW : ∀ t, F t ∨ X t → ¬ W t) :
    Tracks F X p k₀ held (k.setDevice dev) :=
  ⟨⟨h.ok.access ha fun t ht => hW t (.inr ht), h.ok.used⟩, h.file, h.stored.access h.ok ha hW, h.width, h.bits,
    h.free⟩

/-- A sector is free when it was free after formatting and is not handed out. -/
theorem Tracks.free_iff (h : Tracks F X p k₀ held k) (t : Sector) :
    k.dev.free_map.Free t ↔ k₀.dev.free_map.Free t ∧ t ∉ held := by
  rw [Bitmap.Free, Bitmap.Free, h.width, ← Bool.not_eq_true, ← Bool.not_eq_true, h.bits, not_or,
    and_assoc]

/-- What a call of `free_map_allocate` hands out, or why it fails. -/
theorem free_map_allocate_tracks (h : Tracks F X p k₀ held k)
    (hev : EvictsInTable ok) (cnt : Nat) :
    (free_map_allocate cnt).Runs ok k fun _ r k' =>
      (∀ t ∈ granted r cnt, k₀.dev.free_map.Free t ∧ t ∉ held) ∧
      (r = none → ∀ s, s + cnt ≤ k.dev.device.size →
        ∃ t, s ≤ t ∧ t < s + cnt ∧ ¬ (k₀.dev.free_map.Free t ∧ t ∉ held)) ∧
      Tracks F X p k₀ (held ∪ granted r cnt) k' := by
  cases hs : bitmap_scan k.dev.free_map 0 cnt false with
  | none =>
    refine .get_bind ?_
    rw [hs]
    refine .emit_bind fun _ => .pure ?_
    have hnil : granted none cnt = ∅ := by simp [granted]
    rw [hnil, Set.union_empty]
    refine ⟨fun t ht => absurd ht (Set.notMem_empty t), fun _ s hle => ?_, h⟩
    obtain ⟨t, hst, hlt, hb⟩ := bitmap_scan_eq_none hs (by rw [h.ok.width]; exact hle)
    refine ⟨t, hst, hlt, fun hf => ?_⟩
    rw [← h.free_iff] at hf
    exact nomatch hb.symm.trans hf.2
  | some s =>
    refine (free_map_allocate_scan h.ok (.inr hev) hs).mono
      fun es r k' _ ⟨dev, es₁, hr, _, hk', _, _, hok, hst⟩ => ?_
    obtain ⟨hle, hclear⟩ := bitmap_scan_some hs
    have hfree : ∀ t ∈ granted (some s) cnt, k₀.dev.free_map.Free t ∧ t ∉ held := fun t ht => by
      obtain ⟨h₁, h₂⟩ := mem_granted_some.mp ht
      exact (h.free_iff t).mp ⟨lt_of_lt_of_le h₂ hle, hclear t h₁ h₂⟩
    subst hr
    refine ⟨hfree, fun hn => (nomatch hn), hok, ?_, hst, ?_, fun t => ?_, fun t ht => ?_⟩
    · rw [hk']
      exact h.file
    · rw [hk']
      exact h.width
    · have hbit : k'.dev.free_map.bits t =
          if s ≤ t ∧ t < s + cnt then true else k.dev.free_map.bits t := by
        rw [hk']
        rfl
      rw [hbit, Set.mem_union, mem_granted_some]
      split
      · simp [*]
      · simp [h.bits, *]
    · exact ht.elim (h.free t) fun ht => (hfree t ht).1

/-- A release of sectors that are held. -/
theorem free_map_release_tracks {s : Sector} {cnt : Nat} (h₀ : Formatted F X p k₀)
    (h : Tracks F X p k₀ held k) (hev : EvictsInTable ok)
    (own : ∀ t, s ≤ t → t < s + cnt → t ∈ held) (hs : s + cnt ≤ k.dev.device.size) :
    (free_map_release s cnt).Runs ok k fun _ _ k' =>
      Tracks F X p k₀ (held \ granted (some s) cnt) k' := by
  have hall : bitmap_all k.dev.free_map s cnt = true := by
    rw [bitmap_all, Bool.not_eq_true', bitmap_contains_eq_false]
    exact fun t h₁ h₂ => (h.bits t).mpr (.inr (own t h₁ h₂))
  refine (free_map_release_group h.ok.toMapFile hev h.file hs hall).mono ?_
  rintro es - k' - ⟨dev, es₁, -, hk', -, hok, hst⟩
  have hbit : ∀ t, k'.dev.free_map.bits t =
      if s ≤ t ∧ t < s + cnt then false else k.dev.free_map.bits t := fun t => by
    rw [hk']
    rfl
  refine ⟨⟨hok, fun t ht hf => ?_⟩, ?_, hst, ?_, fun t => ?_, fun t ht => h.free t ht.1⟩
  · have hb := hf.2
    rw [hbit] at hb
    split at hb
    · rename_i hin
      exact h₀.ok.used t ht (h.free t (own t hin.1 hin.2))
    · exact h.ok.used t ht ⟨by rw [hk'] at hf; exact hf.1, hb⟩
  · rw [hk']
    exact h.file
  · rw [hk']
    exact h.width
  · rw [hbit, Set.mem_sdiff, mem_granted_some]
    split
    · rename_i hin
      have hf := (h.free t (own t hin.1 hin.2)).2
      simp [hf, hin]
    · simp [h.bits, *]

/-- Every state of a run. -/
theorem FreeMapRun.tracks (run : FreeMapRun F X k₀ held k) (h₀ : Formatted F X p k₀) :
    Tracks F X p k₀ held k := by
  have hev : ∀ r, InTable (.evict r) → ∃ i, slotOf r = some i := fun _ hr => hr
  induction run with
  | formatted => exact h₀.tracks
  | allocate before call ih =>
    exact ((free_map_allocate_tracks ih hev _).of_done call (emits_free_map_allocate _ call)).2.2
  | @release held k k' s cnt es before own call ih =>
    have hs : s + cnt ≤ k.dev.device.size := by
      -- the assertion of `free_map_release` holds, as the call returned
      by_contra hlt
      have hpanic : free_map_release s cnt k = ([], .panic k) := by
        rw [← ih.ok.width] at hlt
        simp [free_map_release, Machine.bind_run, hlt]
      cases hpanic.symm.trans call
    exact (free_map_release_tracks h₀ ih hev own hs).of_done call
      (emits_free_map_release s cnt call)
  | elsewhere before access spares ih => exact ih.elsewhere access spares

/-- Reading the map from its file into any map of its size. -/
theorem bitmap_read_tracks (h : Tracks F X p k₀ held k) (hev : EvictsInTable ok) {b : Bitmap}
    (hb : b.bit_cnt = k.dev.free_map.bit_cnt) :
    bitmap_read.Runs ok (k.setFreeMap b) fun _ r k' => r = true ∧
      k'.dev.free_map.bit_cnt = k.dev.free_map.bit_cnt ∧
      ∀ t < k.dev.free_map.bit_cnt, k'.dev.free_map.bits t = k.dev.free_map.bits t := by
  refine .get_bind ?_
  rw [Kernel.setFreeMap_free_map, Kernel.setFreeMap_file, hb]
  split
  · rename_i h0
    exact .pure ⟨rfl, hb, fun t ht => absurd ht (by omega)⟩
  · rw [h.file]
    obtain ⟨i, hi, -, hlen, hd, -, -⟩ := h.ok.file p h.file
    have hlen' : byte_cnt k.dev.free_map.bit_cnt ≤ i.data.length := hlen
    refine .bind (.silent_bind (deref_run (k := k.setFreeMap b) hi)
      (onDevice_runs (inode_read_loop_runs hev _ hd le_rfl)))
      fun es bytes k' _ ⟨dev, hk', hbytes, _⟩ => ?_
    -- the file is as long as the map, so the read is not short
    have himage : bytes = bitmap_bytes k.dev.free_map := by
      rw [hbytes, Nat.sub_zero, Nat.min_eq_left hlen']
      refine ext_getElem ?_ fun pos h₁ h₂ => ?_
      · simp [fileRead, bitmap_file_size]
      · have hst := h.stored p i h.file hi pos (by rw [← length_bitmap_bytes]; exact h₂)
        rw [getD_eq_getElem _ _ h₂] at hst
        simpa [fileRead] using hst
    subst himage hk'
    refine .modify_bind (.pure ⟨?_, hb, fun t ht => ?_⟩)
    · rw [length_bitmap_bytes]
      exact beq_self_eq_true _
    · exact bits_bitmap_load _ hb ht

/-- Formatting gives a free map, and from there no sequence of allocations and releases hands out a
sector twice or misses a free group, and a map read back from the file, as at a remount, is the
map in memory, bit for bit. -/
theorem free_map_exclusive :
    (∀ k, Blank k → (free_map_init >>= fun _ => free_map_create).Runs InTable k
      fun _ _ k₀ => ∃ F X p, Formatted F X p k₀) ∧
    ∀ {F X : Sector → Prop} {p : Addr} {k₀ k : Fs} {held : Set Sector}, Formatted F X p k₀ →
      FreeMapRun F X k₀ held k →
      (∀ cnt, (free_map_allocate cnt).Runs InTable k fun _ r _ =>
        (∀ t ∈ granted r cnt, t < k.dev.device.size ∧ t ≠ FREE_MAP_SECTOR ∧
          t ≠ ROOT_DIR_SECTOR ∧ t ∉ held) ∧
        (r = none → ∀ s, s + cnt ≤ k.dev.device.size →
          ∃ t, s ≤ t ∧ t < s + cnt ∧ ¬ (k₀.dev.free_map.Free t ∧ t ∉ held))) ∧
      ∀ b : Bitmap, b.bit_cnt = k.dev.free_map.bit_cnt →
        bitmap_read.Runs InTable (k.setFreeMap b) fun _ r k' => r = true ∧
          k'.dev.free_map.bit_cnt = k.dev.free_map.bit_cnt ∧
          ∀ t < k.dev.free_map.bit_cnt, k'.dev.free_map.bits t = k.dev.free_map.bits t := by
  have hev : ∀ r, InTable (.evict r) → ∃ i, slotOf r = some i := fun _ hr => hr
  refine ⟨fun k h => free_map_create_formats h, fun h₀ run => ?_⟩
  have h := run.tracks h₀
  refine ⟨fun cnt => ?_, fun b hb => bitmap_read_tracks h hev hb⟩
  refine (free_map_allocate_tracks h hev cnt).mono fun es r k' _ ⟨hr, hnone, _⟩ =>
    ⟨fun t ht => ?_, hnone⟩
  obtain ⟨hfree, hheld⟩ := hr t ht
  have hlt : t < _ := hfree.1
  rw [← h.width, h.ok.width] at hlt
  refine ⟨hlt, ?_, ?_, hheld⟩
  · rintro rfl
    exact nomatch hfree.2.symm.trans h₀.system.1
  · rintro rfl
    exact nomatch hfree.2.symm.trans h₀.system.2

end Runs

/-- A device of `size` sectors before it is formatted. -/
def blankFs (size : Nat) : Fs where
  mem _ := none
  next := 0
  open_inodes := []
  dev := {
    device := {
      size := size
      disk := fun _ => Bytes.zero
      cache_table := fun _ => ⟨false, 0, false, false, Bytes.zero, 0⟩
      round_robin_idx := 0 }
    free_map := bitmap_create 0
    free_map_file := none
    stack := fun _ => Bytes.zero
    frame := 0 }

/-- Formatting `blankFs 40` and allocating three sectors. -/
def formatAndAllocate : Option ((List Event × Unit × Fs) × List Event × Option Sector × Fs) := do
  let r ← returned ((free_map_init >>= fun _ => free_map_create) (blankFs 40))
  let r' ← returned (free_map_allocate 3 r.2.2)
  pure (r, r')

theorem formatAndAllocate_returns : (formatAndAllocate.any fun (r, r') =>
    decide (∀ e ∈ r.1, e.InTable) && decide (r'.2.1 = some 3) &&
    decide (r'.2.2.dev.free_map.bit_cnt = 40)) = true := by decide +kernel

theorem blank_blankFs {size : Nat} (h : 2 < size) (hf : byte_cnt size ≤ 16525 * 512) :
    Blank (blankFs size) :=
  ⟨fun _ => ⟨rfl, rfl⟩, rfl, rfl, h, hf⟩

/-- After formatting and an allocation of three sectors, the next two are others, and an empty map
gets the three bits from the file. -/
theorem free_map_exclusive_blankFs : ∃ F X p k₀ k, Formatted F X p k₀ ∧
    FreeMapRun F X k₀ (∅ ∪ granted (some 3) 3) k ∧
    ((free_map_allocate 2).Runs InTable k fun _ r _ =>
      ∀ t ∈ granted r 2, t ∉ granted (some 3) 3) ∧
    bitmap_read.Runs InTable (k.setFreeMap (bitmap_create k.dev.free_map.bit_cnt)) fun _ r k' =>
      r = true ∧ ∀ t, 3 ≤ t → t < 6 → k'.dev.free_map.bits t = true := by
  obtain ⟨⟨⟨es, u, k₀⟩, es', r, k⟩, hrun, h⟩ :=
    (Option.any_eq_true _ _).mp formatAndAllocate_returns
  simp only [Bool.and_eq_true, decide_eq_true_eq] at h
  obtain ⟨⟨hev, rfl⟩, hcnt⟩ := h
  obtain ⟨hr₁, hr₂⟩ : returned ((free_map_init >>= fun _ => free_map_create) (blankFs 40)) =
      some (es, u, k₀) ∧ returned (free_map_allocate 3 k₀) = some (es', some 3, k) := by
    simpa [formatAndAllocate, Option.bind_eq_some_iff] using hrun
  obtain ⟨F, X, p, h₀⟩ := (free_map_exclusive.1 _ (blank_blankFs (by decide) (by decide))).of_done
    (returned_eq_some hr₁) hev
  have run : FreeMapRun F X k₀ (∅ ∪ granted (some 3) 3) k :=
    .allocate .formatted (returned_eq_some hr₂)
  obtain ⟨hall, hread⟩ := free_map_exclusive.2 h₀ run
  have hbits := (run.tracks h₀).bits
  refine ⟨F, X, p, k₀, k, h₀, run, ?_, (hread (bitmap_create _) rfl).mono fun _ _ k' _ h =>
    ⟨h.1, fun t h₃ h₆ => (h.2.2 t (by omega)).trans
      ((hbits t).mpr (.inr (.inr (mem_granted_some.mpr ⟨h₃, h₆⟩))))⟩⟩
  exact (hall 2).mono fun _ r _ _ h t ht hin => (h.1 t ht).2.2.2 (.inr hin)

end Pintos
