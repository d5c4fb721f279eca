import Pintos.Filesys.Kernel

/-!
# Filesys — the free map

`free-map.c`: a bitmap of the sectors in use, kept in memory and written through to its own file
at every change.  The write goes through the cache, so it may evict any slot; `MapFile F X k`
says what keeps it within bounds: the file is laid out on the data sectors `F` and the index
blocks `X` and is long enough for the map.  `FreeMapOk F X k` says besides that the map marks these
sectors.

`free_map_allocate_scan` and `free_map_release_group` say what a change of the map does: a group of
bits, and an access of the cache that writes `F` only and leaves the map in its file (`Stored`).
`free_map_allocate_runs` is the case of one sector.
-/

namespace Pintos
open Support
open Machine (emit)

/-! ### The functions -/

/-- `bitmap_write (free_map, free_map_file)`.  The file is as long as the map, or `free_map_open`
would have panicked, so `inode_write_at` does not extend it. -/
def bitmap_write : Machine Event Fs Bool := do
  let k ← Machine.get
  match k.dev.free_map_file with
  | none => Machine.panic
  | some p => do
    let inode ← deref p
    let bytes := bitmap_bytes k.dev.free_map
    if inode.deny_write_cnt ≠ 0 then pure (bytes.length == 0)
    else if inode.data.length < bytes.length then Machine.panic
    else do
      let written ← onDevice (inode_write_loop inode.data bytes.length bytes 0)
      pure (written == bytes.length)

/-- `free_map_file == NULL || bitmap_write (free_map, free_map_file)`. -/
def free_map_sync : Machine Event Fs Bool := do
  let k ← Machine.get
  match k.dev.free_map_file with
  | none => pure true
  | some _ => bitmap_write

/-- `free_map_allocate`. -/
def free_map_allocate (cnt : Nat) : Machine Event Fs (Option Sector) := do
  let k ← Machine.get
  match bitmap_scan k.dev.free_map 0 cnt false with
  | none => do
    emit (.allocate none false)
    pure none
  | some sector => do
    Machine.modify fun k => k.setFreeMap (bitmap_set_multiple k.dev.free_map sector cnt true)
    let written ← free_map_sync
    if written then do
      let k ← Machine.get
      emit (.allocate (some sector) (cache_lookup k.dev.device sector).isSome)
      pure (some sector)
    else do
      Machine.modify fun k => k.setFreeMap (bitmap_set_multiple k.dev.free_map sector cnt false)
      emit (.allocate none false)
      pure none

/-- `free_map_release`. -/
def free_map_release (sector : Sector) (cnt : Nat) : Machine Event Fs Unit := do
  let k ← Machine.get
  if sector + cnt ≤ k.dev.free_map.bit_cnt ∧ bitmap_all k.dev.free_map sector cnt = true then do
    Machine.modify fun k => k.setFreeMap (bitmap_set_multiple k.dev.free_map sector cnt false)
    emit (.release sector)
    let _ ← bitmap_write
    pure ()
  else Machine.panic

/-! ### The free map and its file -/

/-- The file of the free map uses the data sectors `F` and the index blocks `X`. -/
structure MapFile (F X : Sector → Prop) (k : Fs) : Prop where
  cache : CacheOk k.dev.device
  width : k.dev.free_map.bit_cnt = k.dev.device.size
  small : k.dev.device.size ≤ 2 ^ 32
  file : ∀ p, k.dev.free_map_file = some p → ∃ i, k.mem p = some i ∧ i.deny_write_cnt = 0 ∧
    bitmap_file_size k.dev.free_map ≤ i.data.length ∧ OnDisk k.dev.device i.data ∧
    (∀ t, t ∈ dataSectors k.dev.device.disk i.data ((i.data.length + 511) / 512) ↔ F t) ∧
    ∀ t, t ∈ indexSectors k.dev.device.disk i.data ((i.data.length + 511) / 512) ↔ X t

/-- The map marks the sectors of its file. -/
structure FreeMapOk (F X : Sector → Prop) (k : Fs) : Prop extends MapFile F X k where
  used : ∀ t, F t ∨ X t → ¬ k.dev.free_map.Free t

/-- The file of the free map holds the map, as a reader through the cache sees it. -/
def Stored (k : Fs) : Prop :=
  ∀ p i, k.dev.free_map_file = some p → k.mem p = some i →
    ∀ pos < bitmap_file_size k.dev.free_map,
      byteAt k.dev.device i.data pos = (bitmap_bytes k.dev.free_map).getD pos 0

section FreeMap

variable {F X : Sector → Prop} {k k' : Fs} {ok : Event → Prop} {p : Addr} {t : Sector}

/-- Accesses that spare the file's index blocks. -/
theorem MapFile.access {R W : Sector → Prop} {es : List Event} {dev : Device}
    (h : MapFile F X k) (ha : Access R W es k.dev.device dev) (hW : ∀ t, X t → ¬ W t) :
    MapFile F X (k.setDevice dev) where
  cache := ha.ok
  width := h.width.trans ha.size_eq.symm
  small := le_of_eq_of_le ha.size_eq h.small
  file p hp := by
    obtain ⟨i, hi, hdeny, hlen, hd, hF, hX⟩ := h.file p hp
    obtain ⟨hag, hd'⟩ := hd.access ha fun t ht hx => hW t ((hX t).mp hx) ht
    refine ⟨i, hi, hdeny, hlen, hd', fun t => ?_, fun t => ?_⟩
    · rw [Kernel.setDevice_device, hag.dataSectors_eq]
      exact hF t
    · rw [Kernel.setDevice_device, hag.indexSectors_eq]
      exact hX t

/-- A change of the map. -/
theorem MapFile.setFreeMap (h : MapFile F X k) {b : Bitmap}
    (hb : b.bit_cnt = k.dev.free_map.bit_cnt) : MapFile F X (k.setFreeMap b) where
  cache := h.cache
  width := hb.trans h.width
  small := h.small
  file p hp := by
    obtain ⟨i, hi, hdeny, hlen, hrest⟩ := h.file p hp
    refine ⟨i, hi, hdeny, ?_, hrest⟩
    rw [Kernel.setFreeMap_free_map, bitmap_file_size, hb]
    exact hlen

/-- While the file is open, its index blocks are no data of it. -/
theorem MapFile.apart (h : MapFile F X k) (hp : k.dev.free_map_file = some p) (ht : X t) :
    ¬ F t := by
  obtain ⟨i, -, -, -, hd, hF, hX⟩ := h.file p hp
  exact fun hf => hd.laid.index_not_data ((hX t).mpr ht) ((hF t).mpr hf)

/-- Writing the map through to its file. -/
theorem bitmap_write_runs (h : MapFile F X k) (hev : EvictsInTable ok)
    (hp : k.dev.free_map_file = some p) :
    bitmap_write.Runs ok k fun es b k' => b = true ∧ ∃ dev, k' = k.setDevice dev ∧
      Access F F es k.dev.device dev ∧ MapFile F X k' ∧ Stored k' := by
  obtain ⟨i, hi, hdeny, hlen, hd, hF, hX⟩ := h.file p hp
  refine .get_bind ?_
  rw [hp]
  refine .silent_bind (deref_run hi) ?_
  rw [if_neg (by simpa using hdeny), if_neg (by rw [length_bitmap_bytes]; omega)]
  refine .bind (onDevice_runs (inode_write_loop_runs hev _ hd le_rfl))
    fun es m k' _ ⟨dev, hk', hm, _, hbytes, ha⟩ => .pure ?_
  rw [length_bitmap_bytes] at hm ⊢
  obtain rfl : m = bitmap_file_size k.dev.free_map := by omega
  have ha' : Access F F es k.dev.device dev :=
    ha.mono (fun t => (hF t).mp) fun t => (hF t).mp
  subst hk'
  rw [List.append_nil]
  refine ⟨beq_self_eq_true _, dev, rfl, ha', h.access ha' fun t ht => h.apart hp ht, ?_⟩
  intro q j hq hj pos hpos
  obtain rfl : p = q := Option.some.inj (hp.symm.trans hq)
  obtain rfl : i = j := Option.some.inj (hi.symm.trans hj)
  have hpos' : pos < bitmap_file_size k.dev.free_map := hpos
  exact (hbytes pos (by omega)).trans (if_pos ⟨Nat.zero_le _, by omega⟩)

theorem free_map_sync_runs (h : MapFile F X k)
    (hev : k.dev.free_map_file = none ∨ EvictsInTable ok) :
    free_map_sync.Runs ok k fun es b k' => b = true ∧ ∃ dev, k' = k.setDevice dev ∧
      Access F F es k.dev.device dev ∧ MapFile F X k' ∧ Stored k' := by
  refine .get_bind ?_
  cases hp : k.dev.free_map_file with
  | none =>
    refine .pure ⟨rfl, _, rfl, .refl h.cache, h, fun p _ hq => ?_⟩
    exact nomatch hp.symm.trans hq
  | some p => exact bitmap_write_runs h (hev.resolve_left (by rw [hp]; nofun)) hp

/-- `free_map_allocate` marks the first group of free sectors. -/
theorem free_map_allocate_scan {cnt : Nat} (h : FreeMapOk F X k)
    (hev : k.dev.free_map_file = none ∨ EvictsInTable ok)
    (hs : bitmap_scan k.dev.free_map 0 cnt false = some t) :
    (free_map_allocate cnt).Runs ok k fun es r k' => ∃ dev es₁, r = some t ∧
      es = es₁ ++ [.allocate (some t) (cache_lookup dev t).isSome] ∧
      k' = (k.setFreeMap (bitmap_set_multiple k.dev.free_map t cnt true)).setDevice dev ∧
      Access F F es₁ k.dev.device dev ∧ ok (.allocate (some t) (cache_lookup dev t).isSome) ∧
      FreeMapOk F X k' ∧ Stored k' := by
  refine .get_bind ?_
  rw [hs]
  refine .modify_bind ?_
  have h₁ : MapFile F X (k.setFreeMap (bitmap_set_multiple k.dev.free_map t cnt true)) :=
    h.setFreeMap rfl
  refine .bind (free_map_sync_runs h₁ hev) fun es b k₁ _ ⟨hb, dev, hk₁, ha, hok, hst⟩ => ?_
  subst hb hk₁
  refine .get_bind (.emit_bind fun he => .pure ?_)
  exact ⟨dev, es, rfl, rfl, rfl, ha, he, ⟨hok, fun u hu hf => h.used u hu (free_of_set_true hf)⟩,
    hst⟩

/-- `free_map_allocate (1)` marks a free sector, unless there is none. -/
theorem free_map_allocate_runs (h : FreeMapOk F X k)
    (hev : k.dev.free_map_file = none ∨ EvictsInTable ok)
    (hfull : ok (.allocate none false) → 0 < k.dev.free_map.room) :
    (free_map_allocate 1).Runs ok k fun es r k' => ∃ t dev es₁, r = some t ∧
      es = es₁ ++ [.allocate (some t) (cache_lookup dev t).isSome] ∧
      bitmap_scan k.dev.free_map 0 1 false = some t ∧
      k' = (k.setFreeMap (bitmap_set_multiple k.dev.free_map t 1 true)).setDevice dev ∧
      Access F F es₁ k.dev.device dev ∧ ok (.allocate (some t) (cache_lookup dev t).isSome) ∧
      FreeMapOk F X k' := by
  cases hs : bitmap_scan k.dev.free_map 0 1 false with
  | none =>
    refine .get_bind ?_
    rw [hs]
    refine .emit_bind fun he => ?_
    obtain ⟨t, ht⟩ := Bitmap.room_pos (hfull he)
    exact absurd (hs.symm.trans ht) nofun
  | some t =>
    exact (free_map_allocate_scan h hev hs).mono
      fun es r k' _ ⟨dev, es₁, hr, hes, hk', ha, he, hok, _⟩ =>
        ⟨t, dev, es₁, hr, hes, rfl, hk', ha, he, hok⟩

/-- `free_map_release` clears the bits of marked sectors. -/
theorem free_map_release_group {s : Sector} {cnt : Nat} (h : MapFile F X k)
    (hev : EvictsInTable ok) (hp : k.dev.free_map_file = some p)
    (hs : s + cnt ≤ k.dev.device.size) (hm : bitmap_all k.dev.free_map s cnt = true) :
    (free_map_release s cnt).Runs ok k fun es _ k' => ∃ dev es₁, es = .release s :: es₁ ∧
      k' = (k.setFreeMap (bitmap_set_multiple k.dev.free_map s cnt false)).setDevice dev ∧
      Access F F es₁ k.dev.device dev ∧ MapFile F X k' ∧ Stored k' := by
  refine .get_bind ?_
  rw [if_pos ⟨by rw [h.width]; exact hs, hm⟩]
  have h₁ : MapFile F X (k.setFreeMap (bitmap_set_multiple k.dev.free_map s cnt false)) :=
    h.setFreeMap rfl
  refine .modify_bind (.emit_bind fun _ => ?_)
  refine .bind (bitmap_write_runs h₁ hev hp) fun es b k₁ _ ⟨_, dev, hk₁, ha, hok, hst⟩ => .pure ?_
  rw [List.append_nil]
  exact ⟨dev, es, rfl, hk₁, ha, hok, hst⟩

end FreeMap

end Pintos
