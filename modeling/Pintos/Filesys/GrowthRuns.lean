import Pintos.Filesys.InodeGrow

/-!
# Filesys — runs of `inode_create` and `inode_grow`

An inode is made by `inode_create` and grows by calls of `inode_grow` (`Produced`).  `IndexKept`
is what a call must leave intact: the positions below the old length keep their sectors, and the
new positions get distinct sectors that were free and that the inode did not use.

`GrowthSound Call k₀ sector` says that every call of such a run keeps the index, where `Call old
length` holds of the lengths of each call.  It holds when every call is `Aligned`
(`growth_sound_of_aligned`), and fails for growth from any length to any larger one
(`growth_unsound`): growing a file of 142 sectors to 143 replaces the sector of position 141.
-/

namespace Pintos
open Support List Option Function
open InodeDisk (ofBlock)

/-- The result of `byte_to_sector`. -/
def sector_of (k : Fs) (d : InodeDisk) (pos : Nat) : Option Sector :=
  match (byte_to_sector d pos k.dev.device).2 with
  | .done s _ => some s
  | .panic _ => none

/-- A call that took the inode from `d` to `d'`, of `length` bytes, kept its block index. -/
structure IndexKept (k : Fs) (d : InodeDisk) (length : Nat) (k' : Fs) (d' : InodeDisk) : Prop where
  bytes : d'.length = length
  old : ∀ pos < d.length, (sector_of k d pos).isSome = true ∧
    sector_of k' d' pos = sector_of k d pos
  fresh : ∀ i, bytes_to_sectors d.length ≤ i → i < bytes_to_sectors d'.length → ∃ s,
    sector_of k' d' (512 * i) = some s ∧ k.dev.free_map.Free s ∧
    s ∉ ownedSectors k.dev.device.disk d (bytes_to_sectors d.length)
  distinct : ∀ i j, bytes_to_sectors d.length ≤ i → i < bytes_to_sectors d'.length →
    bytes_to_sectors d.length ≤ j → j < bytes_to_sectors d'.length →
    sector_of k' d' (512 * i) = sector_of k' d' (512 * j) → i = j

/-- No allocation fails and no round-robin index wraps. -/
def Event.Served : Event → Prop
  | .allocate none _ => False
  | .evict r => 0 ≤ r
  | _ => True

instance : DecidablePred Event.Served
  | .allocate none _ => isFalse id
  | .allocate (some _) _ => isTrue trivial
  | .evict r => inferInstanceAs (Decidable (0 ≤ r))
  | .write _ _ => isTrue trivial
  | .fill _ => isTrue trivial
  | .put _ _ _ => isTrue trivial
  | .release _ => isTrue trivial
  | .grow _ _ => isTrue trivial
  | .relock => isTrue trivial
  | .stray _ => isTrue trivial

/-- A mounted file system in which `sector` is set aside for a new inode and no slot of the cache
holds it or a free sector. -/
structure Ready (k : Fs) (sector : Sector) : Prop where
  file : ∃ F X : Sector → Prop, FreeMapOk F X k ∧ ¬ F sector ∧ ¬ X sector
  unheld : ∀ t, k.dev.free_map.Free t ∨ t = sector → ¬ k.dev.device.Resident t
  valid : sector < k.dev.device.size
  used : ¬ k.dev.free_map.Free sector

/-- The inode that `inode_create` starts from. -/
def InodeDisk.fresh (is_dir : Bool) : InodeDisk :=
  { InodeDisk.zero with
    length := 0, is_dir := is_dir, dir_parent := ROOT_DIR_SECTOR, magic := INODE_MAGIC }

/-- `d` is what `inode_create` and then calls of `inode_grow` have made of the inode of `sector`,
with all allocations served and the lengths of each call in `Call`. -/
inductive Produced (Call : Nat → Nat → Prop) (k₀ : Fs) (sector : Sector) :
    Fs → InodeDisk → Prop
  | create {length : Nat} {is_dir : Bool} {es : List Event} {k : Fs}
      (call : Call 0 length) (served : ∀ e ∈ es, e.Served)
      (run : inode_create sector length is_dir k₀ = (es, .done true k)) :
      Produced Call k₀ sector k (ofBlock (k.dev.device.disk sector))
  | grow {k k' : Fs} {d d' : InodeDisk} {length : Nat} {es : List Event}
      (before : Produced Call k₀ sector k d) (call : Call d.length length)
      (served : ∀ e ∈ es, e.Served) (run : inode_grow d length k = (es, .done (true, d') k')) :
      Produced Call k₀ sector k' d'

/-- Every call of such a run returns and keeps the index. -/
def GrowthSound (Call : Nat → Nat → Prop) (k₀ : Fs) (sector : Sector) : Prop :=
  (∀ length is_dir, Call 0 length →
    (inode_create sector length is_dir).Runs Event.Served k₀ fun _ r k => r = true ∧
      IndexKept k₀ (.fresh is_dir) length k (.ofBlock (k.dev.device.disk sector))) ∧
  ∀ k d, Produced Call k₀ sector k d → ∀ length, Call d.length length →
    (inode_grow d length).Runs Event.Served k fun _ r k' => r.1 = true ∧ IndexKept k d length k' r.2

section Runs

variable {ok : Event → Prop} {F X W : Sector → Prop} {k k' : Fs} {d d' : InodeDisk} {n : Nat}
  {A : List Sector} {es : List Event} {length : Nat} {sector : Sector}

theorem sector_of_eq (hl : Laid k.dev.device.size k.dev.device.disk d ((d.length + 511) / 512))
    {pos : Nat} (hpos : pos < d.length) :
    sector_of k d pos = some (sectorAt k.dev.device.disk d (pos / 512)) := by
  rw [sector_of, byte_to_sector_run hl hpos]

/-- Writes that spare the index blocks leave the inode as it was. -/
theorem Growable.frame (h : Growable ok F X k d n) (ht : Takes F A W es k k')
    (hW : ∀ t, W t → ¬ X t ∧ t ∉ indexSectors k.dev.device.disk d n) :
    Agree k.dev.device.disk d k'.dev.device.disk d n ∧ Growable ok F X k' d n := by
  have hag : Agree k.dev.device.disk d k'.dev.device.disk d n :=
    Agree.of_index (fun _ _ => rfl) fun t hi =>
      ht.disk_quiet (h.quiet t hi) fun hw => (hW t hw).2 hi
  refine ⟨hag, ht.calm h.calm fun t hw => (hW t hw).1, ?_, ?_, ?_, ?_⟩
  · rw [ht.size]
    exact h.laid.congr hag rfl rfl rfl
  · rw [hag.ownedSectors_eq]
    exact fun t hi => ht.not_free (h.used t hi)
  · rw [hag.indexSectors_eq]
    exact fun t hi => ht.quiet (h.quiet t hi)
  · rw [hag.indexSectors_eq]
    exact h.apart

/-- Sound growth keeps the index. -/
theorem Grown.indexKept (hk : Growable ok F X k d ((d.length + 511) / 512))
    (hmono : d.length ≤ length) (hcap : (length + 511) / 512 ≤ 16525)
    (h : Grown F k { d with length := length } ((d.length + 511) / 512) k' d'
      ((length + 511) / 512) A es) : IndexKept k d length k' d' := by
  have hlen : d'.length = length := h.length
  have hk' := h.growable (hk.setLength length) hcap
  have hl' : Laid k'.dev.device.size k'.dev.device.disk d' ((d'.length + 511) / 512) := by
    rw [hlen]
    exact hk'.laid
  have hcap₀ := hk.laid.cap
  have hle := h.le
  have hn : bytes_to_sectors d.length = (d.length + 511) / 512 := bytes_to_sectors_eq (by omega)
  have hn' : bytes_to_sectors d'.length = (length + 511) / 512 := by
    rw [hlen]
    exact bytes_to_sectors_eq (by omega)
  have hag : Agree k.dev.device.disk d k'.dev.device.disk d' ((d.length + 511) / 512) :=
    ⟨h.agree.direct, h.agree.one, h.agree.one_entries, h.agree.two, h.agree.two_entries,
      h.agree.entries⟩
  have hnew : ∀ i, i < (length + 511) / 512 →
      sector_of k' d' (512 * i) = some (sectorAt k'.dev.device.disk d' i) := fun i hi => by
    rw [sector_of_eq hl' (by omega), Nat.mul_div_cancel_left i (by omega)]
  refine ⟨hlen, ?_, ?_, ?_⟩
  · intro pos hpos
    rw [sector_of_eq hk.laid hpos, sector_of_eq hl' (by omega), hag.sectorAt_eq (by omega)]
    exact ⟨rfl, rfl⟩
  · intro i hi hi'
    rw [hn] at hi ⊢
    rw [hn'] at hi'
    have hA := (h.fresh i hi hi').1
    exact ⟨_, hnew i hi', h.takes.map.mem_free hA, fun ho => hk.used _ ho (h.takes.map.mem_free hA)⟩
  · intro i j _ hi _ hj he
    rw [hn'] at hi hj
    rw [hnew i hi, hnew j hj] at he
    exact hk'.laid.sectorAt_inj hi hj (Option.some.inj he)

/-- An inode without data. -/
theorem growable_fresh (hk : Calm ok F X k) (is_dir : Bool) :
    Growable ok F X k (.fresh is_dir) 0 := by
  have hown : ownedSectors k.dev.device.disk (.fresh is_dir) 0 = [] := rfl
  have hidx : indexSectors k.dev.device.disk (.fresh is_dir) 0 = [] := rfl
  refine ⟨hk, ⟨by omega, rfl, rfl, rfl, ?_, ?_⟩, ?_, ?_, ?_⟩
  · rw [hown]; exact nodup_nil
  · rw [hown]; simp
  · rw [hown]; simp
  · rw [hidx]; simp
  · rw [hidx]; simp

/-- What growth makes of an inode in range is in range. -/
theorem Grown.inRange {n' : Nat} (hk : Growable ok F X k d n) (h : Grown F k d n k' d' n' A es)
    (hcap : n' ≤ 16525) (hd : d.InRange) : d'.InRange := by
  intro i
  have hsmall : ∀ t ∈ A, t < 2 ^ 32 := fun t ht => by
    have hf := (h.takes.map.mem_free ht).1
    rw [hk.calm.width] at hf
    exact lt_of_lt_of_le hf hk.calm.small
  by_cases hi : i < 15
  · have hw : ∀ e : InodeDisk, e.words i = e.block i := fun e => if_pos hi
    rw [hw]
    rcases h.pointers i hi with e | hm
    · rw [e, ← hw]
      exact hd i
    · exact hsmall _ hm
  · have hw := hd i
    simp only [InodeDisk.words, if_neg hi] at hw ⊢
    have h₁ := h.direct
    have h₂ := h.indirect
    have h₃ := h.double
    split
    · rw [h.dir_parent]; exact hw
    · split <;> omega
    · omega
    · omega
    · omega
    · rw [h.start]; exact hw
    · rw [h.length]; exact hw
    · rw [h.magic]; exact hw
    · omega

/-- The lengths of a call: growth up to 16525 sectors that resumes no partly filled block. -/
def AlignedCall (old length : Nat) : Prop :=
  old ≤ length ∧ length ≤ 16525 * 512 ∧
    Aligned (bytes_to_sectors old) (bytes_to_sectors length)

theorem AlignedCall.sectors {old length : Nat} (h : AlignedCall old length) :
    (old + 511) / 512 ≤ (length + 511) / 512 ∧ (length + 511) / 512 ≤ 16525 ∧
      Aligned ((old + 511) / 512) ((length + 511) / 512) := by
  obtain ⟨hle, hcap, hal⟩ := h
  rw [bytes_to_sectors_eq (by omega), bytes_to_sectors_eq (by omega)] at hal
  exact ⟨by omega, by omega, hal⟩

/-- One call of `inode_grow`. -/
theorem inode_grow_call (hfull : ¬ ok (.allocate none false))
    (hk : Growable ok F X k d ((d.length + 511) / 512))
    (hc : AlignedCall d.length length) :
    (inode_grow d length).Runs ok k fun _ r k' => r.1 = true ∧ IndexKept k d length k' r.2 ∧
      Growable ok F X k' r.2 ((r.2.length + 511) / 512) := by
  obtain ⟨hle, hcap, hal⟩ := hc.sectors
  refine (inode_grow_runs hk hle hcap hal fun h => absurd h hfull).mono fun es r k' _ ⟨hr, A, h⟩ => ⟨hr, ?_, ?_⟩
  · exact h.indexKept hk hc.1 hcap
  · rw [show r.2.length = length from h.length]
    exact h.growable (hk.setLength length) hcap

theorem InodeDisk.inRange_fresh (is_dir : Bool) (h : length < 2 ^ 32) :
    ({ InodeDisk.fresh is_dir with length := length } : InodeDisk).InRange := by
  intro i
  simp only [InodeDisk.words, InodeDisk.fresh, InodeDisk.zero, InodeDisk.block]
  split
  · omega
  · split <;> first | exact h | decide | (cases is_dir <;> simp)

/-- The call of `inode_create`. -/
theorem inode_create_call {is_dir : Bool} (hfull : ¬ ok (.allocate none false))
    (hk : Calm ok F X k) (hs : Quiet F k sector)
    (hX : ¬ X sector) (hlt : sector < k.dev.device.size) (hc : AlignedCall 0 length) :
    (inode_create sector length is_dir).Runs ok k fun _ r k' => r = true ∧
      IndexKept k (.fresh is_dir) length k' (.ofBlock (k'.dev.device.disk sector)) ∧
      Growable ok F X k' (.ofBlock (k'.dev.device.disk sector))
        (((ofBlock (k'.dev.device.disk sector)).length + 511) / 512) := by
  obtain ⟨hle, hcap, hal⟩ := hc.sectors
  have hz : ((InodeDisk.fresh is_dir).length + 511) / 512 = 0 := by
    show (0 + 511) / 512 = 0
    omega
  have h₀ : Growable ok F X k (.fresh is_dir) (((InodeDisk.fresh is_dir).length + 511) / 512) :=
    hz ▸ growable_fresh hk is_dir
  refine Machine.Runs.bind (inode_grow_runs (d := .fresh is_dir) h₀ hle hcap hal
    fun h => absurd h hfull) fun es r k₁ _ ⟨hr, A, h⟩ => ?_
  rw [hr, if_pos rfl]
  have hk₁ := h.growable (h₀.setLength length) hcap
  have hq := h.takes.quiet hs
  refine Machine.Runs.bind (write_takes h.takes.cache hq (by rw [h.takes.size]; exact hlt))
    fun es' _ k₂ _ ⟨ht, hdisk⟩ => Machine.Runs.pure ?_
  have hrange : r.2.InRange := h.inRange (h₀.setLength length) hcap
    (InodeDisk.inRange_fresh is_dir (by have := hc.2.1; omega))
  rw [hdisk, update_self, InodeDisk.ofBlock_toBlock hrange]
  have hlen : r.2.length = length := h.length
  -- the new inode uses sectors that were free, so not the one it is written to
  have hsec : sector ∉ indexSectors k₁.dev.device.disk r.2 ((length + 511) / 512) := fun hi => by
    rcases h.index_old sector hi with hi | hi
    · rw [hz, indexSectors_none _ _ (by omega)] at hi
      exact absurd hi not_mem_nil
    · exact hs.used (h.takes.map.mem_free hi)
  obtain ⟨hag, hk₂⟩ := hk₁.frame ht (by rintro t rfl; exact ⟨hX, hsec⟩)
  have hkept := h.indexKept h₀ hc.1 hcap
  have hsame : ∀ pos < length, sector_of k₂ r.2 pos = sector_of k₁ r.2 pos := fun pos hpos => by
    rw [sector_of_eq (by rw [hlen]; exact hk₂.laid) (by omega),
      sector_of_eq (by rw [hlen]; exact hk₁.laid) (by omega), hag.sectorAt_eq (by omega)]
  have hn : bytes_to_sectors r.2.length = (length + 511) / 512 := by
    rw [hlen]
    exact bytes_to_sectors_eq (by have := hc.2.1; omega)
  refine ⟨rfl, ⟨hlen, fun pos hpos => absurd hpos (Nat.not_lt_zero pos), fun i hi hi' => ?_,
    fun i j hi hi' hj hj' he => ?_⟩, by rw [hlen]; exact hk₂⟩
  · rw [hsame _ (by omega)]
    exact hkept.fresh i hi hi'
  · rw [hsame _ (by omega), hsame _ (by omega)] at he
    exact hkept.distinct i j hi hi' hj hj' he

/-- A ready file system is calm. -/
theorem Ready.calm (h : Ready k sector) : ∃ F X : Sector → Prop,
    Calm Event.Served F X k ∧ Quiet F k sector ∧ ¬ X sector := by
  obtain ⟨F, X, hfm, hF, hX⟩ := h.file
  refine ⟨F, X, ⟨hfm, .inr fun _ hr => slotOf_of_nonneg hr, fun t hf hres => ?_⟩,
    ⟨h.used, hF, h.unheld _ (.inr rfl)⟩, hX⟩
  exact absurd hres (h.unheld t (.inl hf))

/-- Whatever a run has produced can grow on. -/
theorem Produced.growable {k₀ : Fs} (h₀ : Calm Event.Served F X k₀) (hs : Quiet F k₀ sector)
    (hX : ¬ X sector) (hlt : sector < k₀.dev.device.size) (h : Produced AlignedCall k₀ sector k d) :
    Growable Event.Served F X k d ((d.length + 511) / 512) := by
  induction h with
  | create call served run =>
    exact ((inode_create_call id h₀ hs hX hlt call).of_done run served).2.2
  | grow before call served run ih =>
    exact ((inode_grow_call id ih call).of_done run served).2.2

/-- Growth that resumes no partly filled second-level block keeps the index, call by call. -/
theorem growth_sound_of_aligned {k₀ : Fs} {sector : Sector} (hr : Ready k₀ sector) :
    GrowthSound AlignedCall k₀ sector := by
  obtain ⟨F, X, h₀, hs, hX⟩ := hr.calm
  refine ⟨fun length is_dir hc => ?_, fun k d hp length hc => ?_⟩
  · exact (inode_create_call id h₀ hs hX hr.valid hc).mono fun _ _ _ _ h => ⟨h.1, h.2.1⟩
  · have hk := hp.growable h₀ hs hX hr.valid
    exact (inode_grow_call id hk hc).mono fun _ _ _ _ h => ⟨h.1, h.2.1⟩

end Runs

/-! ### Growth from a partly filled block -/

/-- The lengths of a call: growth up to 16525 sectors. -/
def GrowingCall (old length : Nat) : Prop := old ≤ length ∧ length ≤ 16525 * 512

/-- The inode of a free map that fits into sector 2. -/
def idleFreeMapInode (length : Nat) : InodeDisk :=
  { InodeDisk.fresh false with
    blocks := update (fun _ => 0) 0 2, direct_count := 1, length := length }

/-- A mounted device of `size` sectors, the first `used` of them in use, with an empty cache. -/
def idleFs (size used : Nat) : Fs where
  mem p := if p = 0 then
      some ⟨FREE_MAP_SECTOR, 1, false, 0, false, idleFreeMapInode (byte_cnt size)⟩
    else none
  next := 1
  open_inodes := [0]
  dev := {
    device := {
      size := size
      disk := fun t => if t = 0 then (idleFreeMapInode (byte_cnt size)).toBlock else Bytes.zero
      cache_table := fun _ => ⟨false, 0, false, false, Bytes.zero, 0⟩
      round_robin_idx := 0 }
    free_map := ⟨size, fun t => decide (t < used)⟩
    free_map_file := some 0
    stack := fun _ => Bytes.zero
    frame := 0 }

/-- A free map whose file has `n` direct sectors. -/
theorem freeMapOk_direct {k : Fs} {n : Nat} {i : Inode InodeDisk} (hc : CacheOk k.dev.device)
    (hw : k.dev.free_map.bit_cnt = k.dev.device.size) (hs : k.dev.device.size ≤ 2 ^ 32)
    (hf : k.dev.free_map_file = some 0) (hm : k.mem 0 = some i) (hd : i.deny_write_cnt = 0)
    (hlen : bitmap_file_size k.dev.free_map ≤ i.data.length)
    (hn : (i.data.length + 511) / 512 = n) (h13 : n ≤ 13)
    (hcount : i.data.direct_count = n ∧ i.data.indirect_count = 0 ∧
      i.data.double_indirect_count = 0) (hnd : ((List.range n).map i.data.block).Nodup)
    (hused : ∀ t ∈ (List.range n).map i.data.block,
      t < k.dev.device.size ∧ k.dev.free_map.bits t = true) :
    FreeMapOk (· ∈ (List.range n).map i.data.block) (fun _ => False) k := by
  have hdata : dataSectors k.dev.device.disk i.data n = (List.range n).map i.data.block := by
    refine map_congr_left fun j hj => ?_
    have := List.mem_range.mp hj
    exact if_pos (by omega)
  have hidx := indexSectors_none k.dev.device.disk i.data h13
  refine ⟨⟨hc, hw, hs, fun p hp => ?_⟩, ?_⟩
  · obtain rfl : 0 = p := Option.some.inj (hf.symm.trans hp)
    refine ⟨i, hm, hd, hlen, ⟨hc, ?_, ?_⟩, fun t => ?_, fun t => ?_⟩
    · rw [hn]
      refine ⟨by omega, by omega, by omega, by omega, ?_, ?_⟩
      · rw [ownedSectors, hdata, hidx, nil_append]
        exact hnd
      · rw [ownedSectors, hdata, hidx, nil_append]
        exact fun t ht => (hused t ht).1
    · rw [hn, hidx]
      simp
    · rw [hn, hdata]
    · rw [hn, hidx]
      simp
  · rintro t (h | h) hf
    · exact absurd (hused t h).2 (by simp [hf.2])
    · exact h

/-- A free map of at most 4096 bits, with its file open in sector 2. -/
theorem freeMapOk_small {k : Fs} (hc : CacheOk k.dev.device)
    (hw : k.dev.free_map.bit_cnt = k.dev.device.size) (hs : k.dev.device.size ≤ 4096)
    (hf : k.dev.free_map_file = some 0) {i : Inode InodeDisk} (hm : k.mem 0 = some i)
    (hd : i.deny_write_cnt = 0) (hi : i.data = idleFreeMapInode (byte_cnt k.dev.device.size))
    (h₂ : 2 < k.dev.device.size) (hu : k.dev.free_map.bits 2 = true) :
    FreeMapOk (· = 2) (fun _ => False) k := by
  have hn : (i.data.length + 511) / 512 = 1 := by
    rw [hi]
    show (byte_cnt k.dev.device.size + 511) / 512 = 1
    simp only [byte_cnt]
    omega
  have hblock : (List.range 1).map i.data.block = [2] := by rw [hi]; rfl
  have h := freeMapOk_direct hc hw (by omega) hf hm hd (by rw [bitmap_file_size, hw, hi]; exact le_rfl)
    hn (by omega) (by rw [hi]; exact ⟨rfl, rfl, rfl⟩) (by rw [hblock]; exact nodup_singleton 2)
    (by rw [hblock]; simpa using ⟨h₂, hu⟩)
  simpa only [hblock, List.mem_singleton] using h

theorem ready_idleFs {size used sector : Nat} (h₁ : 2 < sector) (h₂ : sector < used)
    (h₃ : used ≤ size) (h₄ : size ≤ 4096) : Ready (idleFs size used) sector := by
  have hnone : ∀ t, ¬ (idleFs size used).dev.device.Resident t := by
    rintro t ⟨i, ho, -⟩
    cases ho
  have hcache : CacheOk (idleFs size used).dev.device :=
    ⟨fun hi => absurd ⟨_, hi⟩ (hnone _), fun hi => absurd ⟨_, hi⟩ (hnone _), fun _ => rfl,
      fun hr => absurd hr (hnone _)⟩
  refine ⟨⟨(· = 2), fun _ => False, freeMapOk_small hcache rfl h₄ rfl rfl rfl rfl ?_ ?_, ?_, id⟩,
    fun t _ => hnone t, ?_, fun hf => ?_⟩
  · show 2 < size
    omega
  · exact decide_eq_true (by omega)
  · show ¬ sector = 2
    omega
  · show sector < size
    omega
  · have : used ≤ sector := by simpa using of_decide_eq_false hf.2
    omega

theorem growth_sound_idleFs : Ready (idleFs 160 5) 4 ∧ GrowthSound AlignedCall (idleFs 160 5) 4 :=
  ⟨ready_idleFs (by omega) (by omega) (by omega) (by omega),
    growth_sound_of_aligned (ready_idleFs (by omega) (by omega) (by omega) (by omega))⟩

/-- A file of 142 sectors is made and grows by one: the two runs. -/
def grow_142_143 : Option ((List Event × Bool × Fs) × List Event × (Bool × InodeDisk) × Fs) := do
  let r ← returned (inode_create 4 (142 * 512) false (idleFs 160 5))
  let r' ← returned (inode_grow (.ofBlock (r.2.2.dev.device.disk 4)) (143 * 512) r.2.2)
  pure (r, r')

/-- Both calls succeed with all allocations served, and the sector of position 141 is
replaced. -/
theorem grow_142_143_replaces : (grow_142_143.any fun (r, r') =>
    r.2.1 && r'.2.1.1 && decide (∀ e ∈ r.1 ++ r'.1, e.Served) &&
    decide ((ofBlock (r.2.2.dev.device.disk 4)).length = 142 * 512) &&
    decide (sector_of r.2.2 (.ofBlock (r.2.2.dev.device.disk 4)) (141 * 512) = some 149) &&
    decide (sector_of r'.2.2 r'.2.1.2 (141 * 512) = some 150)) = true := by decide +kernel

/-- Growth in general does not keep the index. -/
theorem growth_unsound : Ready (idleFs 160 5) 4 ∧ ¬ GrowthSound GrowingCall (idleFs 160 5) 4 := by
  refine ⟨ready_idleFs (by omega) (by omega) (by omega) (by omega), fun ⟨_, hgrow⟩ => ?_⟩
  obtain ⟨⟨⟨es, b, k⟩, es', ⟨b', d⟩, k'⟩, hr, hall⟩ := (Option.any_eq_true _ _).mp grow_142_143_replaces
  simp only [Bool.and_eq_true, decide_eq_true_eq] at hall
  obtain ⟨⟨⟨⟨⟨rfl, rfl⟩, hserved⟩, hlen⟩, h₁⟩, h₂⟩ := hall
  simp only [grow_142_143, bind_eq_bind, bind_eq_some_iff] at hr
  obtain ⟨r, hcreate, r', hrun, he⟩ := hr
  obtain ⟨rfl, rfl⟩ := Prod.mk.inj (Option.some.inj he)
  have hp : Produced GrowingCall (idleFs 160 5) 4 k (.ofBlock (k.dev.device.disk 4)) :=
    .create ⟨by omega, by omega⟩ (fun e he => hserved e (mem_append_left _ he))
      (returned_eq_some hcreate)
  have hc : GrowingCall (ofBlock (k.dev.device.disk 4)).length (143 * 512) := by
    rw [hlen]
    exact ⟨by omega, by omega⟩
  have hkept := ((hgrow k _ hp (143 * 512) hc).of_done (returned_eq_some hrun)
    fun e he => hserved e (mem_append_right _ he)).2
  have hold := (hkept.old (141 * 512) (by rw [hlen]; omega)).2
  rw [h₁, h₂] at hold
  exact absurd hold (by decide)

end Pintos
