import Mathlib.Data.List.Perm.Basic
import Pintos.Filesys.Evictions
import Pintos.Filesys.GrowthRuns

/-!
# Filesys — freeing the sectors of an inode

`free_inode` releases the data sectors of a deleted inode level by level, and each index block
after the sectors it names.  `Releases F R es k k'` says what releasing does: the bits of `R` are
cleared in turn, and otherwise only the free map's file goes through the cache.

`free_inode_frees`: on a laid-out inode it releases every sector the inode uses, each once, if no
index block is written back from the cache before `free_inode` reads it (`indexReads`).
-/

namespace Pintos
open Support List

/-! ### The functions -/

/-- `free_map_release (s, 1)` for each of `sectors`. -/
def release_all (sectors : List Sector) : Machine Event Fs Unit :=
  sectors.forM fun s => free_map_release s 1

/-- The second-level block `level_one[i]` and the first `count` sectors it names. -/
def free_level_two (level_one : Block) (count i : Nat) : Machine Event Fs Unit := do
  let level_two ← onDevice (block_read (entry level_one i))
  release_all ((List.range count).map (entry level_two))
  free_map_release (entry level_one i) 1

/-- The double indirect blocks, with `sector_count` sectors left. -/
def free_double (data : InodeDisk) (sector_count : Nat) : Machine Event Fs Unit :=
  if sector_count = 0 then pure ()
  else do
    let level_one ← onDevice (block_read (data.block 14))
    let complete := data.double_indirect_count / 128
    (List.range complete).forM (free_level_two level_one 128)
    -- `sector_count` is a `size_t`
    let left := (sector_count + (4294967296 - 128 * complete % 4294967296)) % 4294967296
    if left = 0 then free_map_release (data.block 14) 1
    else do
      free_level_two level_one (data.double_indirect_count % 128) complete
      free_map_release (data.block 14) 1

/-- The indirect blocks, with `sector_count` sectors left; the number left after them. -/
def free_indirect (data : InodeDisk) (sector_count : Nat) : Machine Event Fs Nat :=
  if sector_count = 0 then pure 0
  else do
    let block ← onDevice (block_read (data.block 13))
    release_all ((List.range data.indirect_count).map (entry block))
    free_map_release (data.block 13) 1
    pure ((sector_count + (4294967296 - data.indirect_count % 4294967296)) % 4294967296)

/-- `free_inode`. -/
def free_inode (data : InodeDisk) : Machine Event Fs Unit := do
  let sector_count := bytes_to_sectors data.length
  release_all ((List.range (min sector_count DIRECT_BLOCKS)).map data.block)
  let left ← free_indirect data (sector_count - min sector_count DIRECT_BLOCKS)
  free_double data left

/-! ### What releasing touches -/

/-- The sectors released in a trace, in turn. -/
def released (es : List Event) : List Sector :=
  es.filterMap fun
    | .release s => some s
    | _ => none

structure Releases (F : Sector → Prop) (R : List Sector) (es : List Event) (k k' : Fs) : Prop where
  mem : k'.mem = k.mem
  next : k'.next = k.next
  open_inodes : k'.open_inodes = k.open_inodes
  file : k'.dev.free_map_file = k.dev.free_map_file
  bit_cnt : k'.dev.free_map.bit_cnt = k.dev.free_map.bit_cnt
  bits : ∀ t, k'.dev.free_map.bits t = true ↔ k.dev.free_map.bits t = true ∧ t ∉ R
  released : released es = R
  size : k'.dev.device.size = k.dev.device.size
  cache : CacheOk k'.dev.device
  disk : ∀ t, ¬ k.dev.device.Dirty t → ¬ F t → k'.dev.device.disk t = k.dev.device.disk t
  resident : ∀ t, k'.dev.device.Resident t → k.dev.device.Resident t ∨ F t
  dirty : ∀ t, k'.dev.device.Dirty t → k.dev.device.Dirty t ∨ F t

theorem released_append (es es' : List Event) : released (es ++ es') = released es ++ released es' :=
  filterMap_append ..

theorem released_ofCache {es : List Event} (h : ∀ e ∈ es, e.OfCache) : released es = [] := by
  refine List.filterMap_eq_nil_iff.mpr fun e he => ?_
  have := h e he
  cases e <;> first | rfl | cases this

section Frame

variable {F X : Sector → Prop} {R R' : List Sector} {es es' : List Event} {k k' k'' : Fs}
  {t : Sector} {p : Addr}

theorem Releases.refl (h : CacheOk k.dev.device) : Releases F [] [] k k :=
  ⟨rfl, rfl, rfl, rfl, rfl, by simp, rfl, rfl, h, fun _ _ _ => rfl, fun _ => .inl, fun _ => .inl⟩

theorem Releases.trans (h : Releases F R es k k') (h' : Releases F R' es' k' k'') :
    Releases F (R ++ R') (es ++ es') k k'' where
  mem := h'.mem.trans h.mem
  next := h'.next.trans h.next
  open_inodes := h'.open_inodes.trans h.open_inodes
  file := h'.file.trans h.file
  bit_cnt := h'.bit_cnt.trans h.bit_cnt
  bits t := by rw [h'.bits, h.bits, mem_append, not_or, and_assoc]
  released := by rw [released_append, h.released, h'.released]
  size := h'.size.trans h.size
  cache := h'.cache
  disk t hd hF :=
    (h'.disk t (fun hd' => (h.dirty t hd').elim hd hF) hF).trans (h.disk t hd hF)
  resident t ht := (h'.resident t ht).elim (h.resident t) .inr
  dirty t ht := (h'.dirty t ht).elim (h.dirty t) .inr

/-- What freeing relies on: the file of the free map is open, and the sectors to free are distinct
and in use. -/
structure Freeable (F X : Sector → Prop) (p : Addr) (k : Fs) (R : List Sector) : Prop where
  map : MapFile F X k
  file : k.dev.free_map_file = some p
  nodup : R.Nodup
  valid : ∀ t ∈ R, t < k.dev.device.size
  marked : ∀ t ∈ R, k.dev.free_map.bits t = true

theorem Freeable.left (h : Freeable F X p k (R ++ R')) : Freeable F X p k R :=
  ⟨h.map, h.file, (List.nodup_append.mp h.nodup).1, fun t ht => h.valid t (mem_append_left _ ht),
    fun t ht => h.marked t (mem_append_left _ ht)⟩

/-- After the first sectors are freed the rest can be. -/
theorem Freeable.right (h : Freeable F X p k (R ++ R')) (hr : Releases F R es k k')
    (hk' : MapFile F X k') : Freeable F X p k' R' :=
  ⟨hk', hr.file.trans h.file, (List.nodup_append.mp h.nodup).2.1,
    fun t ht => by rw [hr.size]; exact h.valid t (mem_append_right _ ht),
    fun t ht => (hr.bits t).mpr ⟨h.marked t (mem_append_right _ ht), fun hR =>
      (List.nodup_append.mp h.nodup).2.2 t hR t ht rfl⟩⟩

/-- From `k` the machine releases the sectors `R` in turn. -/
def Frees {α : Type} (F X : Sector → Prop) (R : List Sector) (m : Machine Event Fs α) (k : Fs)
    (Q : α → Prop) : Prop :=
  Passes R.length m k fun es a k' => Releases F R es k k' ∧ MapFile F X k' ∧ Q a

theorem Frees.bind {α β : Type} {m : Machine Event Fs α} {c : α → Machine Event Fs β} {Q : α → Prop}
    {P : β → Prop} (h : Frees F X R m k Q) (hk : Freeable F X p k (R ++ R'))
    (hc : ∀ a k', Q a → Freeable F X p k' R' → Rewrites R.length k k' → Frees F X R' (c a) k' P) :
    Frees F X (R ++ R') (m >>= c) k P := by
  unfold Frees
  rw [length_append]
  refine Passes.bind h fun es a k' ⟨hr, hk', hQ⟩ hw => ?_
  exact (hc a k' hQ (hk.right hr hk') hw).mono fun es' b k'' ⟨hr', hk'', hP⟩ =>
    ⟨hr.trans hr', hk'', hP⟩

theorem Frees.pure {α : Type} {a : α} {Q : α → Prop} (h : MapFile F X k) (ha : Q a) :
    Frees F X [] (Pure.pure a) k Q :=
  Passes.pure h.cache.proper ⟨.refl h.cache, h, ha⟩

/-- `free_map_release` of one sector. -/
theorem release_frees (h : Freeable F X p k [t]) :
    Frees F X [t] (free_map_release t 1) k fun _ => True := by
  have hvalid := h.valid t (mem_singleton.mpr rfl)
  have hmark := h.marked t (mem_singleton.mpr rfl)
  set k₁ := k.setFreeMap (bitmap_set_multiple k.dev.free_map t 1 false) with hk₁
  have hw := bitmap_write_passes (k := k₁) (h.map.setFreeMap rfl) h.file
  have hrun : free_map_release t 1 k =
      (Machine.emit (.release t) >>= fun _ => bitmap_write >>= fun _ => Pure.pure ()) k₁ := by
    refine Machine.bind_run_silent (Machine.get_run k) ?_
    rw [if_pos ⟨by rw [h.map.width]; exact hvalid, by rw [bitmap_all_one]; exact hmark⟩]
    exact Machine.bind_run_silent (Machine.modify_run _ _) rfl
  rcases hm : bitmap_write k₁ with ⟨es, ⟨b, k'⟩ | k'⟩
  · obtain ⟨⟨-, dev, rfl, ha, hok, -⟩, hs, hr⟩ := hw.done hm
    have hrun' : free_map_release t 1 k = (.release t :: es, .done () (k₁.setDevice dev)) := by
      simp [hrun, Machine.bind_run, hm]
    refine ⟨fun hb => ?_, fun hb => nomatch hrun'.symm.trans hb⟩
    cases hrun'.symm.trans hb
    refine ⟨⟨⟨rfl, rfl, rfl, rfl, rfl, fun u => ?_, ?_, ha.size_eq, ha.ok, ha.disk_eq, ha.resident,
      ha.dirty⟩, hok, trivial⟩, hs, hr.sectors, hr.touched⟩
    · show (bitmap_set_multiple k.dev.free_map t 1 false).bits u = true ↔ _
      rw [bits_set_one, List.mem_singleton]
      split <;> simp [*]
    · show t :: released es = [t]
      rw [released_ofCache ha.events]
  · obtain ⟨hs, e, he, hne⟩ := hw.panic hm
    have hrun' : free_map_release t 1 k = (.release t :: es, .panic k') := by
      simp [hrun, Machine.bind_run, hm]
    refine ⟨fun hb => (nomatch hrun'.symm.trans hb), fun hb => ?_⟩
    cases hrun'.symm.trans hb
    exact ⟨hs, e, mem_cons_of_mem _ he, hne⟩

/-- A list of sectors released in turn. -/
theorem release_all_frees (R : List Sector) : ∀ {k : Fs}, Freeable F X p k R →
    Frees F X R (release_all R) k fun _ => True := by
  induction R with
  | nil => exact fun h => .pure h.map trivial
  | cons t R ih =>
    intro k h
    exact Frees.bind (R := [t]) (release_frees (Freeable.left (R := [t]) h)) h
      fun _ k' _ h' _ => ih h'

end Frame

/-! ### The order of release -/

/-- What `free_level_two` releases: the sectors block `s` names, then `s`. -/
def levelReleases (disk : Sector → Block) (count : Nat) (s : Sector) : List Sector :=
  (List.range count).map (entry (disk s)) ++ [s]

/-- What `free_double` releases of a file of `141 + m` sectors. -/
def doubleReleases (disk : Sector → Block) (d : InodeDisk) (m : Nat) : List Sector :=
  (List.range (m / 128)).flatMap (fun i => levelReleases disk 128 (levelTwo disk d i)) ++
    (if m % 128 = 0 then [] else levelReleases disk (m % 128) (levelTwo disk d (m / 128))) ++
    [d.block 14]

/-- What `free_inode` releases of a file of `n` sectors. -/
def inodeReleases (disk : Sector → Block) (d : InodeDisk) (n : Nat) : List Sector :=
  (List.range (min n 13)).map d.block ++
    (if n ≤ 13 then [] else levelReleases disk (min (n - 13) 128) (d.block 13)) ++
    (if n ≤ 141 then [] else doubleReleases disk d (n - 141))

section Order

variable {disk : Sector → Block} {d : InodeDisk} {n : Nat}

/-- The data sectors of the double indirect blocks, block by block. -/
theorem doubleData_eq (m : Nat) : (List.range m).map (fun i => sectorAt disk d (141 + i)) =
      (List.range (m / 128)).flatMap
        (fun i => (List.range 128).map (entry (disk (levelTwo disk d i)))) ++
      (List.range (m % 128)).map (entry (disk (levelTwo disk d (m / 128)))) := by
  have hsec : ∀ i j, j < 128 →
      sectorAt disk d (141 + (128 * i + j)) = entry (disk (levelTwo disk d i)) j := fun i j hj => by
    rw [sectorAt, if_neg (by omega), if_neg (by omega), Nat.add_sub_cancel_left,
      show (128 * i + j) / 128 = i by omega, show (128 * i + j) % 128 = j by omega]
  have hwhole : ∀ c, (List.range (128 * c)).map (fun i => sectorAt disk d (141 + i)) =
      (List.range c).flatMap
        (fun i => (List.range 128).map (entry (disk (levelTwo disk d i)))) := fun c => by
    induction c with
    | zero => rfl
    | succ c ih =>
      rw [Nat.mul_succ, List.range_add, map_append, ih,
        range_succ (n := c), flatMap_append, List.map_map]
      congr 1
      rw [flatMap_singleton]
      exact map_congr_left fun j hj => hsec c j (List.mem_range.mp hj)
  conv_lhs => rw [← Nat.div_add_mod m 128]
  rw [List.range_add, map_append, hwhole, List.map_map]
  congr 1
  refine map_congr_left fun j hj => ?_
  have := List.mem_range.mp hj
  exact hsec _ j (by omega)

/-- The data sectors of a file, level by level. -/
theorem dataSectors_levels (disk : Sector → Block) (d : InodeDisk) (n : Nat) :
    dataSectors disk d n = (List.range (min n 13)).map d.block ++
      (List.range (min (n - 13) 128)).map (entry (disk (d.block 13))) ++
      (List.range (n - 141)).map (fun i => sectorAt disk d (141 + i)) := by
  have hsplit : List.range n = List.range (min n 13) ++
      (List.range (min (n - 13) 128)).map (13 + ·) ++ (List.range (n - 141)).map (141 + ·) := by
    by_cases h₁ : n ≤ 13
    · rw [show min n 13 = n by omega, show min (n - 13) 128 = 0 by omega, show n - 141 = 0 by omega]
      simp
    · by_cases h₂ : n ≤ 141
      · rw [show min n 13 = 13 by omega, show min (n - 13) 128 = n - 13 by omega,
          show n - 141 = 0 by omega, ← List.range_add, show 13 + (n - 13) = n by omega]
        simp
      · rw [show min n 13 = 13 by omega, show min (n - 13) 128 = 128 by omega,
          ← List.range_add, show 13 + 128 = 141 by omega, ← List.range_add,
          show 141 + (n - 141) = n by omega]
  rw [dataSectors, hsplit, map_append, map_append, List.map_map, List.map_map]
  congr 1
  congr 1
  · refine map_congr_left fun i hi => ?_
    have := List.mem_range.mp hi
    exact if_pos (by omega)
  · refine map_congr_left fun i hi => ?_
    have := List.mem_range.mp hi
    show sectorAt disk d (13 + i) = _
    rw [sectorAt, if_neg (by omega), if_pos (by omega), Nat.add_sub_cancel_left]

/-- Whole second-level blocks: the sectors they name, and the blocks. -/
theorem wholeReleases_perm (c : Nat) :
    ((List.range c).flatMap fun i => levelReleases disk 128 (levelTwo disk d i)).Perm
      ((List.range c).flatMap (fun i => (List.range 128).map (entry (disk (levelTwo disk d i)))) ++
        (List.range c).map (levelTwo disk d)) := by
  refine (flatMap_append_perm (List.range c) _ fun i => [levelTwo disk d i]).symm.trans ?_
  rw [← map_eq_flatMap]

/-- `free_inode` releases the sectors of the file, each once. -/
theorem inodeReleases_perm (disk : Sector → Block) (d : InodeDisk) (n : Nat) :
    (inodeReleases disk d n).Perm (ownedSectors disk d n) := by
  rw [ownedSectors, dataSectors_levels, inodeReleases]
  by_cases h₁ : n ≤ 13
  · rw [indexSectors_none disk d h₁, if_pos h₁, if_pos (by omega),
      show min (n - 13) 128 = 0 by omega, show n - 141 = 0 by omega]
    simp
  rw [if_neg h₁]
  by_cases h₂ : n ≤ 141
  · rw [indexSectors_one disk d (by omega) h₂, if_pos h₂, show n - 141 = 0 by omega]
    refine List.perm_iff_count.mpr fun a => ?_
    simp only [levelReleases, count_append, List.range_zero, map_nil, count_nil]
    omega
  rw [if_neg h₂, doubleData_eq, doubleReleases]
  generalize hm : n - 141 = m
  refine List.perm_iff_count.mpr fun a => ?_
  have hw := List.perm_iff_count.mp (@wholeReleases_perm disk d (m / 128)) a
  by_cases h₃ : m % 128 = 0
  · rw [indexSectors_two disk d (by omega) (show (n - 141 + 127) / 128 = m / 128 by omega),
      if_pos h₃, h₃]
    simp only [levelReleases, count_append, count_cons, List.range_zero, map_nil,
      count_nil] at hw ⊢
    omega
  · rw [indexSectors_two disk d (by omega) (show (n - 141 + 127) / 128 = m / 128 + 1 by omega),
      if_neg h₃, range_succ (n := m / 128), map_append]
    simp only [levelReleases, count_append, count_cons, List.map_cons, map_nil,
      count_nil] at hw ⊢
    omega

end Order

/-! ### The run -/

section Run

variable {F X : Sector → Prop} {k k' : Fs} {d : InodeDisk} {p : Addr} {disk : Sector → Block}

/-- Block `t` is as on `disk`, and will be so after `n` changes of the free map. -/
def Still (disk : Sector → Block) (k : Fs) (n : Nat) (t : Sector) : Prop :=
  k.dev.device.disk t = disk t ∧ t ∉ k.dev.device.table.flushed true (k.mapWrites n)

theorem Still.after {n m : Nat} {t : Sector} (h : Still disk k (n + m) t)
    (hr : Rewrites n k k') : Still disk k' m t := by
  obtain ⟨hd, hf⟩ := h
  rw [hr.flushed_add, mem_append, not_or] at hf
  exact ⟨(hr.touched.disk t hf.1).trans hd, hf.2⟩

theorem free_level_two_frees {one : Block} {count i n : Nat} (hs : Still disk k n (entry one i))
    (h : Freeable F X p k (levelReleases disk count (entry one i))) :
    Frees F X (levelReleases disk count (entry one i)) (free_level_two one count i) k
      fun _ => True := by
  refine Passes.silent_bind (onDevice_run (block_read_run (h.valid _ (by simp [levelReleases])))) ?_
  rw [hs.1]
  exact Frees.bind (release_all_frees _ h.left) h fun _ k' _ h' _ => release_frees h'

@[simp] theorem length_levelReleases (disk : Sector → Block) (count : Nat) (s : Sector) :
    (levelReleases disk count s).length = count + 1 := by
  simp [levelReleases]

/-- The loop over the whole second-level blocks. -/
theorem free_whole_frees {one : Block} (c : Nat) : ∀ {k : Fs} {a : Nat},
    Freeable F X p k ((range' a c).flatMap fun i => levelReleases disk 128 (entry one i)) →
    (∀ j < c, Still disk k (129 * j) (entry one (a + j))) →
    Frees F X ((range' a c).flatMap fun i => levelReleases disk 128 (entry one i))
      ((range' a c).forM (free_level_two one 128)) k fun _ => True := by
  induction c with
  | zero => exact fun h _ => .pure h.map trivial
  | succ c ih =>
    intro k a h hs
    rw [range'_succ, flatMap_cons] at h ⊢
    refine Frees.bind (free_level_two_frees (hs 0 (by omega)) h.left) h fun _ k' _ h' hr => ?_
    refine ih h' fun j hj => ?_
    rw [length_levelReleases] at hr
    have := hs (j + 1) (by omega)
    rw [show 129 * (j + 1) = 128 + 1 + 129 * j by omega,
      show a + (j + 1) = a + 1 + j by omega] at this
    exact this.after hr

theorem free_indirect_frees {n : Nat} (hc : d.indirect_count = min (n - 13) 128) (hcap : n ≤ 16525)
    (hs : 13 < n → Still disk k 0 (d.block 13)) (h : Freeable F X p k
      (if n ≤ 13 then [] else levelReleases disk (min (n - 13) 128) (d.block 13))) :
    Frees F X (if n ≤ 13 then [] else levelReleases disk (min (n - 13) 128) (d.block 13))
      (free_indirect d (n - min n DIRECT_BLOCKS)) k (· = n - 141) := by
  have hlim : DIRECT_BLOCKS = 13 := rfl
  unfold free_indirect
  by_cases hn : n ≤ 13
  · rw [if_pos hn] at h ⊢
    rw [if_pos (by omega)]
    exact .pure h.map (by omega)
  · rw [if_neg hn] at h ⊢
    rw [if_neg (by omega)]
    refine Passes.silent_bind
      (onDevice_run (block_read_run (h.valid _ (by simp [levelReleases])))) ?_
    rw [(hs (by omega)).1, hc]
    refine Frees.bind (release_all_frees _ h.left) h fun _ k' _ h' _ => ?_
    rw [← append_nil [d.block 13]] at h' ⊢
    exact Frees.bind (release_frees h'.left) h' fun _ k'' _ h'' _ => .pure h''.map (by omega)

theorem free_double_frees {m : Nat} (hc : d.double_indirect_count = m) (hcap : m ≤ 16384)
    (hone : 0 < m → Still disk k 0 (d.block 14))
    (htwo : ∀ i, 128 * i < m → Still disk k (129 * i) (levelTwo disk d i))
    (h : Freeable F X p k (if m = 0 then [] else doubleReleases disk d m)) :
    Frees F X (if m = 0 then [] else doubleReleases disk d m) (free_double d m) k
      fun _ => True := by
  unfold free_double
  by_cases hm : m = 0
  · rw [if_pos hm] at h ⊢
    rw [if_pos hm]
    exact .pure h.map trivial
  rw [if_neg hm] at h ⊢
  rw [if_neg hm]
  refine Passes.silent_bind (onDevice_run (block_read_run (h.valid _ (by simp [doubleReleases])))) ?_
  rw [(hone (by omega)).1, hc]
  have hleft : (m + (4294967296 - 128 * (m / 128) % 4294967296)) % 4294967296 = m % 128 := by omega
  dsimp only
  rw [hleft]
  rw [doubleReleases, List.append_assoc, range_eq_range'] at h ⊢
  refine Frees.bind (free_whole_frees (m / 128) h.left fun j hj => ?_) h fun _ k₁ _ h₁ hr => ?_
  · rw [Nat.zero_add]
    exact htwo j (by omega)
  by_cases h0 : m % 128 = 0
  · rw [if_pos h0, if_pos h0] at *
    exact release_frees h₁
  · rw [if_neg h0, if_neg h0] at *
    refine Frees.bind (free_level_two_frees (n := 0) ?_ h₁.left) h₁ fun _ k₂ _ h₂ _ =>
      release_frees h₂
    refine Still.after (n := 129 * (m / 128)) (htwo (m / 128) (by omega)) ?_
    have hlen : ((range' 0 (m / 128)).flatMap fun i =>
        levelReleases disk 128 (entry (disk (d.block 14)) i)).length = 129 * (m / 128) := by
      simp [length_flatMap, Nat.mul_comm]
    rwa [← hlen]

/-- The index blocks that `free_inode` reads, each with the number of sectors it has released by
then. -/
def indexReads (disk : Sector → Block) (d : InodeDisk) (n : Nat) : List (Sector × Nat) :=
  (if n ≤ 13 then [] else [(d.block 13, 13)]) ++
    if n ≤ 141 then [] else (d.block 14, 142) ::
      (List.range ((n - 141 + 127) / 128)).map fun i => (levelTwo disk d i, 142 + 129 * i)

theorem mem_indexReads {n : Nat} {r : Sector × Nat} (h : r ∈ indexReads disk d n) :
    r.1 ∈ indexSectors disk d n := by
  rw [mem_indexSectors]
  rcases mem_append.mp h with h | h <;> split at h
  · cases h
  · rw [mem_singleton.mp h]
    exact .inl ⟨by omega, rfl⟩
  · cases h
  · rcases mem_cons.mp h with rfl | h
    · exact .inr (.inl ⟨by omega, rfl⟩)
    · obtain ⟨i, hi, rfl⟩ := mem_map.mp h
      exact .inr (.inr ⟨i, by have := mem_range.mp hi; omega, rfl⟩)

/-- `free_inode` of a file with sectors of its own releases all of them, if the index blocks are on
the disk as it comes to them. -/
theorem free_inode_frees (hl : Laid k.dev.device.size disk d ((d.length + 511) / 512))
    (hs : ∀ r ∈ indexReads disk d ((d.length + 511) / 512), Still disk k r.2 r.1)
    (h : Freeable F X p k (inodeReleases disk d ((d.length + 511) / 512))) :
    Frees F X (inodeReleases disk d ((d.length + 511) / 512)) (free_inode d) k fun _ => True := by
  have hcap := hl.cap
  have hlim : DIRECT_BLOCKS = 13 := rfl
  unfold free_inode
  rw [bytes_to_sectors_eq (by omega)]
  generalize hn : (d.length + 511) / 512 = n at *
  rw [inodeReleases, List.append_assoc] at h ⊢
  refine Frees.bind (release_all_frees _ h.left) h fun _ k₁ _ h₁ hr₁ => ?_
  rw [length_map, length_range] at hr₁
  refine Frees.bind (free_indirect_frees hl.indirect hcap (fun h13 => ?_) h₁.left) h₁ ?_
  · rw [show min n 13 = 13 by omega] at hr₁
    exact (hs (d.block 13, 13) (by simp [indexReads]; omega)).after (m := 0) hr₁
  intro left k₂ hleft h₂ hr₂
  rw [hleft]
  have hcase : (if n ≤ 141 then [] else doubleReleases disk d (n - 141)) =
      if n - 141 = 0 then [] else doubleReleases disk d (n - 141) := if_congr (by omega) rfl rfl
  rw [hcase] at h₂ ⊢
  have hr : 141 < n → Rewrites 142 k k₂ := fun h141 => by
    have := hr₁.trans hr₂
    rwa [if_neg (by omega), length_levelReleases, show min n 13 + (min (n - 13) 128 + 1) = 142 by
      omega] at this
  have hdc := hl.double
  generalize hm : n - 141 = m at *
  refine free_double_frees hdc (by omega) (fun _ => ?_) (fun i hi => ?_) h₂
  · exact Still.after (n := 142) (m := 0) (hs (d.block 14, 142) (by simp [indexReads]; omega))
      (hr (by omega))
  · refine (hs (levelTwo disk d i, 142 + 129 * i) ?_).after (hr (by omega))
    rw [indexReads, if_neg (show ¬ n ≤ 141 by omega)]
    refine mem_append_right _ (mem_cons_of_mem _ (mem_map.mpr ⟨i, mem_range.mpr (by omega), rfl⟩))

end Run

end Pintos
