import Pintos.Filesys.Evictions
import Pintos.Filesys.Growth

/-!
# Filesys — growing beside the cache

What `inode_grow` does itself goes past the cache; only the free map's file, written at every
allocation, goes through it.  `k.uncached` is `k` with an empty cache and that file closed, so that
a run from it does what growing does and nothing else.

`Couples m Q`: where the run of `m` without the cache returns, the run from a state `Beside` it
returns the same value, unless an index leaves the table.  The disks agree at every sector but those
that the writes of the map flush, which the slots before the run decide (`Kernel.mapWrites`).
Nothing is asked of the slots, so that this holds with stale ones as well.
-/

namespace Pintos
open Support Function List
open Machine (bind_run_done bind_run_panic bind_run_silent get_run modify_run)

/-- `k` with an empty cache, and the file of the free map closed. -/
def Kernel.uncached (k : Fs) : Fs :=
  { k with dev := { k.dev with
    free_map_file := none
    device := { k.dev.device with
      cache_table := fun _ => ⟨false, 0, false, false, Bytes.zero, 0⟩ } } }

/-- `u` is reached without the cache and `k` with it, from `k₀`; on the way the map has been
written to its file, with the index blocks `X`, for each sector taken, at most `N` times. -/
structure Beside (X : Sector → Prop) (N : Nat) (k₀ u k : Fs) : Prop where
  closed : u.dev.free_map_file = none
  free_map : k.dev.free_map = u.dev.free_map
  stack : k.dev.stack = u.dev.stack
  frame : k.dev.frame = u.dev.frame
  size : k.dev.device.size = u.dev.device.size
  disk : ∀ t, t ∉ k₀.dev.device.table.flushed true (k₀.mapWrites N) →
    k.dev.device.disk t = u.dev.device.disk t
  mem : k.mem = k₀.mem
  file : k.dev.free_map_file = k₀.dev.free_map_file
  width : k.dev.free_map.bit_cnt = k₀.dev.free_map.bit_cnt
  sectors : k.dev.device.size = k₀.dev.device.size
  index : ∀ t, X t → k.dev.device.disk t = k₀.dev.device.disk t
  proper : k.dev.device.Proper
  room : u.dev.free_map.room ≤ k₀.dev.free_map.room
  table : k.dev.device.table = (k₀.mapWrites (k₀.dev.free_map.room - u.dev.free_map.room)).foldl
    (SlotTable.touch true) k₀.dev.device.table
  sound : k₀.dev.device.table.Sound true
    (k₀.mapWrites (k₀.dev.free_map.room - u.dev.free_map.room))

/-- The two runs of `m` go together, as long as it writes no index block of the map and takes no
more than `N` sectors. -/
structure Couples {α : Type} (X : Sector → Prop) (N : Nat) (k₀ : Fs) (m : Machine Event Fs α)
    (Q : α → Prop) : Prop where
  alone : ∀ {u es a u'}, u.dev.free_map_file = none → m u = (es, .done a u') →
    Q a ∧ u'.dev.free_map_file = none ∧ u'.dev.free_map.room ≤ u.dev.free_map.room
  beside : ∀ {u es a u' k}, m u = (es, .done a u') → Beside X N k₀ u k →
    (∀ t, .write .inode t ∈ es → ¬ X t) → k₀.dev.free_map.room ≤ u'.dev.free_map.room + N →
    (∃ es' k', m k = (es', .done a k') ∧ Beside X N k₀ u' k') ∨
    (∃ es' k', m k = (es', .panic k')) ∧ ¬ k₀.dev.device.table.Sound true (k₀.mapWrites N)

section Rules

variable {α β : Type} {F X : Sector → Prop} {N n : Nat} {k₀ u k : Fs} {m : Machine Event Fs α}
  {Q Q' : α → Prop} {P : β → Prop}

theorem beside_uncached (h : k₀.dev.device.Proper) : Beside X N k₀ k₀.uncached k₀ :=
  ⟨rfl, rfl, rfl, rfl, rfl, fun _ _ => rfl, rfl, rfl, rfl, rfl, fun _ _ => rfl, h, le_rfl,
    by simp [Kernel.uncached, Kernel.mapWrites],
    by simp [Kernel.uncached, Kernel.mapWrites, SlotTable.Sound, SlotTable.reached]⟩

theorem Couples.pure {a : α} (h : Q a) : Couples X N k₀ (Pure.pure a) Q where
  alone hu hm := by
    cases hm
    exact ⟨h, hu, le_rfl⟩
  beside hm hk _ _ := by
    cases hm
    exact .inl ⟨_, _, rfl, hk⟩

theorem Couples.mono (h : Couples X N k₀ m Q) (hQ : ∀ a, Q a → Q' a) : Couples X N k₀ m Q' :=
  ⟨fun hu hm => ⟨hQ _ (h.alone hu hm).1, (h.alone hu hm).2⟩, h.beside⟩

theorem Couples.bind {c : α → Machine Event Fs β} (h : Couples X N k₀ m Q)
    (hc : ∀ a, Q a → Couples X N k₀ (c a) P) : Couples X N k₀ (m >>= c) P where
  alone hu hm := by
    obtain ⟨_, a, u₁, _, h₁, h₂, -⟩ := Machine.bind_done hm
    obtain ⟨hQ, hu₁, hle⟩ := h.alone hu h₁
    obtain ⟨hP, hu₂, hle'⟩ := (hc a hQ).alone hu₁ h₂
    exact ⟨hP, hu₂, hle'.trans hle⟩
  beside {u es b u' k} hm hk hX hN := by
    obtain ⟨es₁, a, u₁, es₂, h₁, h₂, rfl⟩ := Machine.bind_done hm
    obtain ⟨hQ, hu₁, -⟩ := h.alone hk.closed h₁
    have hle := ((hc a hQ).alone hu₁ h₂).2.2
    rcases h.beside h₁ hk (fun t ht => hX t (mem_append_left _ ht)) (by omega) with
      ⟨es', k₁, hr, hk₁⟩ | ⟨⟨es', k₁, hr⟩, hs⟩
    · rcases (hc a hQ).beside h₂ hk₁ (fun t ht => hX t (mem_append_right _ ht)) hN with
        ⟨es'', k₂, hr', hk₂⟩ | ⟨⟨es'', k₂, hr'⟩, hs⟩
      · exact .inl ⟨_, k₂, by rw [bind_run_done hr, hr'], hk₂⟩
      · exact .inr ⟨⟨_, k₂, by rw [bind_run_done hr, hr']⟩, hs⟩
    · exact .inr ⟨⟨_, k₁, bind_run_panic hr⟩, hs⟩

theorem Couples.emit (e : Event) : Couples X N k₀ (Machine.emit e) fun _ => True where
  alone hu hm := by
    cases hm
    exact ⟨trivial, hu, le_rfl⟩
  beside hm hk _ _ := by
    cases hm
    exact .inl ⟨_, _, rfl, hk⟩

theorem couples_uninit : Couples X N k₀ uninit fun _ => True where
  alone hu hm := by
    cases hm
    exact ⟨trivial, hu, le_rfl⟩
  beside {u es a u' k} hm hk _ _ := by
    cases hm
    refine .inl ⟨[], { k with dev := { k.dev with frame := k.dev.frame + 1 } }, ?_,
      { hk with frame := congrArg (· + 1) hk.frame }⟩
    show ([], Outcome.done (k.dev.stack k.dev.frame) _) = _
    simp only [hk.stack, hk.frame]

theorem couples_block_write (t : Sector) (b : Block) :
    Couples X N k₀ (onDevice (block_write .inode t b)) fun _ => True := by
  have hrun : ∀ {u u' : Fs} {es a}, onDevice (block_write .inode t b) u = (es, .done a u') →
      t < u.dev.device.size ∧ es = [.write .inode t] ∧
      u' = u.setDevice { u.dev.device with disk := update u.dev.device.disk t b } := by
    intro u u' es a hm
    by_cases ht : t < u.dev.device.size
    · cases (onDevice_run (block_write_run ht)).symm.trans hm
      exact ⟨ht, rfl, rfl⟩
    · obtain ⟨d, hd, -⟩ := onDevice_done hm
      rw [block_write, bind_run_silent (get_run _) rfl, if_neg ht] at hd
      cases hd
  refine ⟨fun hu hm => ?_, fun {u es a u' k} hm hk hX _ => ?_⟩
  · obtain ⟨-, -, rfl⟩ := hrun hm
    exact ⟨trivial, hu, le_rfl⟩
  · obtain ⟨ht, rfl, rfl⟩ := hrun hm
    refine .inl ⟨_, _, onDevice_run (block_write_run (hk.size ▸ ht)), { hk with
      disk := fun s hs => ?_
      index := fun s hs => ?_
      proper := ⟨hk.proper.valid, hk.proper.idle⟩ }⟩
    · by_cases e : s = t
      · subst e
        simp
      · simpa [e] using hk.disk s hs
    · have hne : s ≠ t := by
        rintro rfl
        exact hX s (by simp) hs
      simpa [hne] using hk.index s hs

end Rules

/-! ### The allocations -/

section Allocate

variable {F X : Sector → Prop} {N n : Nat} {k₀ u k : Fs} {t : Sector}

/-- The writes of the map after the first `n`. -/
theorem Kernel.mapWrites_split (k : Fs) (h : n + 1 ≤ N) :
    k.mapWrites N = k.mapWrites n ++ (k.mapWrites 1 ++ k.mapWrites (N - (n + 1))) := by
  rw [← Kernel.mapWrites_add, ← Kernel.mapWrites_add]
  congr 1
  omega

/-- The next write of the map flushes none of its index blocks. -/
theorem Beside.spared (h : Beside X N k₀ u k) (hm : MapFile F X k₀) {p : Addr}
    (hp : k₀.dev.free_map_file = some p) (ht : X t) :
    t ∉ k.dev.device.table.flushed true (k₀.mapWrites 1) := fun hf => by
  obtain ⟨i, -, -, -, hd, -, hX⟩ := hm.file p hp
  refine hm.not_flushed (k₀.dev.free_map.room - u.dev.free_map.room + 1)
    (hd.quiet t ((hX t).mpr ht)) (hm.apart hp ht) ?_
  rw [Kernel.mapWrites_add, SlotTable.flushed_append, ← h.table]
  exact mem_append_right _ hf

/-- Beside the run, `free_map_sync` goes through the sectors of the map's file. -/
theorem Beside.sync (h : Beside X N k₀ u k) (hm : MapFile F X k₀) {b : Bitmap}
    (hb : b.bit_cnt = k₀.dev.free_map.bit_cnt) :
    match (free_map_sync (k.setFreeMap b)).2 with
    | .done a k' => a = true ∧ k.dev.device.table.Sound true (k₀.mapWrites 1) ∧
        ∃ dev, k' = (k.setFreeMap b).setDevice dev ∧
          Touched true (k₀.mapWrites 1) k.dev.device dev ∧
          ∀ t, X t → dev.disk t = k.dev.device.disk t
    | .panic _ => ¬ k.dev.device.table.Sound true (k₀.mapWrites 1) := by
  cases hp : k₀.dev.free_map_file with
  | none =>
    have hnil : k₀.mapWrites 1 = [] := by simp [Kernel.mapWrites, Kernel.mapSectors, hp]
    have hrun : free_map_sync (k.setFreeMap b) = ([], .done true (k.setFreeMap b)) := by
      refine bind_run_silent (get_run _) ?_
      simp only [Kernel.setFreeMap_file, h.file, hp]
      rfl
    rw [hrun, hnil]
    exact ⟨rfl, by simp [SlotTable.Sound, SlotTable.reached], k.dev.device, rfl, .refl h.proper,
      fun _ _ => rfl⟩
  | some p =>
    obtain ⟨i, hi, hdeny, hlen, hd, -, hX⟩ := hm.file p hp
    have hbits : bitmap_file_size b = bitmap_file_size k₀.dev.free_map := by
      rw [bitmap_file_size, hb]
      rfl
    have hag : Agree k₀.dev.device.disk i.data k.dev.device.disk i.data
        ((i.data.length + 511) / 512) :=
      Agree.of_index (fun _ _ => rfl) fun t ht => h.index t ((hX t).mp ht)
    have hrange : rangeSectors k.dev.device.disk i.data 0 (bitmap_file_size b) =
        k₀.mapWrites 1 := by
      simp only [Kernel.mapWrites, Kernel.mapSectors, hp, Option.bind_some, hi, hbits]
      simpa using hag.rangeSectors_eq (by omega)
    have hw : (k.setFreeMap b).mapWrites 1 = k₀.mapWrites 1 := by
      rw [← hrange]
      simp [Kernel.mapWrites, Kernel.mapSectors, h.file, h.mem, hp, hi]
    have hacc := bitmap_write_accesses (k := k.setFreeMap b) (h.file.trans hp)
      ((congrFun h.mem p).trans hi) hdeny (hbits ▸ hlen)
      ⟨h.proper, h.sectors ▸ hd.laid.congr hag rfl rfl rfl, fun t ht => by
        rw [Kernel.setFreeMap_device, hag.indexSectors_eq] at ht
        rw [Kernel.setFreeMap_free_map, Kernel.setFreeMap_device, hrange]
        exact h.spared hm hp ((hX t).mp ht)⟩
    have hrun : free_map_sync (k.setFreeMap b) = bitmap_write (k.setFreeMap b) := by
      refine bind_run_silent (get_run _) ?_
      simp only [Kernel.setFreeMap_file, h.file, hp]
    rw [hrun]
    rcases hbw : bitmap_write (k.setFreeMap b) with ⟨es, ⟨a, k'⟩ | k'⟩ <;> rw [hbw, hw] at hacc
    · obtain ⟨ha, hs, hr, dev, rfl⟩ := hacc
      have ht := hr.touched
      rw [hw] at ht
      exact ⟨ha, hs, dev, rfl, ht, fun t hx => ht.disk t (h.spared hm hp hx)⟩
    · exact hacc

/-- Without the cache an allocation only marks a sector. -/
theorem allocate_uncached {es : List Event} {a : Option Sector} {u' : Fs}
    (hu : u.dev.free_map_file = none) (hr : free_map_allocate 1 u = (es, .done a u')) :
    bitmap_scan u.dev.free_map 0 1 false = none ∧ a = none ∧ u' = u ∨
    ∃ t b, u.dev.free_map.Takes [t] b ∧ a = some t ∧ u' = u.setFreeMap b := by
  simp only [free_map_allocate, Machine.bind_run, get_run] at hr
  cases hs : bitmap_scan u.dev.free_map 0 1 false with
  | none =>
    rw [hs] at hr
    cases hr
    exact .inl ⟨rfl, rfl, rfl⟩
  | some t =>
    simp only [hs, Machine.bind_run, modify_run, free_map_sync, get_run, Kernel.setFreeMap_file,
      hu] at hr
    cases hr
    exact .inr ⟨t, _, ⟨hs, rfl⟩, rfl, rfl⟩

/-- An allocation takes the same sector on both sides; with the cache, the map is written. -/
theorem couples_allocate (hm : MapFile F X k₀) :
    Couples X N k₀ (free_map_allocate 1) fun _ => True where
  alone hu hr := by
    rcases allocate_uncached hu hr with ⟨-, -, rfl⟩ | ⟨t, b, hb, -, rfl⟩
    · exact ⟨trivial, hu, le_rfl⟩
    · exact ⟨trivial, hu, by rw [hb.room]; exact Nat.le_add_right ..⟩
  beside {u es a u' k} hr hk _ hN := by
    rcases allocate_uncached hk.closed hr with ⟨hs, rfl, rfl⟩ | ⟨t, b, hb, rfl, rfl⟩
    · refine .inl ⟨[.allocate none false], k, ?_, hk⟩
      simp only [free_map_allocate, Machine.bind_run, get_run, hk.free_map, hs]
      rfl
    have hroom : u.dev.free_map.room = b.room + 1 := hb.room
    have hle := hk.room
    rw [Kernel.setFreeMap_free_map] at hN
    have hn : k₀.dev.free_map.room - b.room =
        k₀.dev.free_map.room - u.dev.free_map.room + 1 := by omega
    have hsplit := k₀.mapWrites_split (n := k₀.dev.free_map.room - u.dev.free_map.room)
      (show _ ≤ N by omega)
    have hrun : free_map_allocate 1 k = ((free_map_sync >>= fun written =>
        if written then do
          let k ← Machine.get
          Machine.emit (.allocate (some t) (cache_lookup k.dev.device t).isSome)
          pure (some t)
        else do
          Machine.modify fun k => k.setFreeMap (bitmap_set_multiple k.dev.free_map t 1 false)
          Machine.emit (.allocate none false)
          pure none : Machine Event Fs (Option Sector)) (k.setFreeMap b)) := by
      simp only [free_map_allocate]
      refine bind_run_silent (get_run k) ?_
      rw [hk.free_map, hb.1]
      refine bind_run_silent (modify_run _ k) ?_
      rw [hk.free_map, hb.2]
    have hsync := hk.sync hm (b := b) (by rw [hb.bit_cnt, ← hk.free_map, hk.width])
    rw [hrun]
    rcases hs : free_map_sync (k.setFreeMap b) with ⟨es', ⟨a, k'⟩ | k'⟩ <;> rw [hs] at hsync
    · obtain ⟨rfl, hsd, dev, rfl, ht, hx⟩ := hsync
      refine .inl ⟨_, (k.setFreeMap b).setDevice dev, bind_run_done hs, { hk with
        free_map := rfl
        size := ht.size.trans hk.size
        disk := fun s hf => ?_
        width := hb.bit_cnt.trans (hk.free_map ▸ hk.width)
        sectors := ht.size.trans hk.sectors
        index := fun s hs => (hx s hs).trans (hk.index s hs)
        proper := ht.proper
        room := ?_
        table := ?_
        sound := ?_ }⟩
      · have hf' := hf
        rw [hsplit, SlotTable.flushed_append, SlotTable.flushed_append, ← hk.table] at hf'
        simp only [mem_append, not_or] at hf'
        exact (ht.disk s hf'.2.1).trans (hk.disk s hf)
      · rw [Kernel.setFreeMap_free_map]
        omega
      · rw [Kernel.setFreeMap_free_map, hn, Kernel.mapWrites_add, foldl_append, ← hk.table]
        exact ht.table
      · rw [Kernel.setFreeMap_free_map, hn, Kernel.mapWrites_add, SlotTable.sound_append, ← hk.table]
        exact ⟨hk.sound, hsd⟩
    · refine .inr ⟨⟨_, _, bind_run_panic hs⟩, ?_⟩
      rw [hsplit, SlotTable.sound_append, SlotTable.sound_append, ← hk.table]
      exact fun h => hsync h.2.1

end Allocate

/-! ### The parts of `inode_grow` -/

section Grow

variable {F X : Sector → Prop} {N : Nat} {k₀ : Fs} {d : InodeDisk} {grow length : Nat}

theorem couples_allocate_into (hm : MapFile F X k₀) {τ : Type} (set : τ → Nat → Sector → τ)
    (arr : τ) (i : Nat) :
    Couples X N k₀ (allocate_into set arr i) fun r => r = arr ∨ ∃ t, r = set arr i t :=
  Couples.bind (couples_allocate hm) fun r _ => by
    cases r with
    | none => exact .pure (.inl rfl)
    | some t => exact .pure (.inr ⟨t, rfl⟩)

/-- The loop ends at the limit or when nothing is left to grow. -/
theorem couples_grow_loop (hm : MapFile F X k₀) {τ : Type} (get : τ → Nat → Sector)
    (set : τ → Nat → Sector → τ) (limit : Nat) : ∀ (grow : Nat) (arr : τ) (cnt : Nat),
    cnt ≤ limit → Couples X N k₀ (grow_loop get set limit grow arr cnt)
      fun r => r.2.2 = 0 ∨ r.2.1 = limit
  | 0, _, _, _ => .pure (.inl rfl)
  | grow + 1, arr, cnt, h => by
    unfold grow_loop
    split
    · exact .bind (couples_allocate_into hm set arr cnt) fun arr _ =>
        .bind (couples_block_write _ _) fun _ _ =>
        couples_grow_loop hm get set limit grow arr (cnt + 1) (by omega)
    · exact .pure (.inr (show cnt = limit by omega))

theorem couples_grow_direct (hm : MapFile F X k₀) (h : d.direct_count ≤ DIRECT_BLOCKS) :
    Couples X N k₀ (grow_direct d grow) fun r =>
      r.1.indirect_count = d.indirect_count ∧
      r.1.double_indirect_count = d.double_indirect_count :=
  .bind (couples_grow_loop hm _ _ _ _ _ _ h) fun _ _ => .pure ⟨rfl, rfl⟩

/-- An index block that is allocated, not read. -/
theorem couples_index_block (hm : MapFile F X k₀) (i : Nat) :
    Couples X N k₀ (index_block i d true) fun r =>
      r.1.indirect_count = d.indirect_count ∧
      r.1.double_indirect_count = d.double_indirect_count :=
  .bind couples_uninit fun _ _ => .bind (couples_allocate_into hm _ _ _) fun r hr => .pure <| by
    rcases hr with rfl | ⟨t, rfl⟩ <;> exact ⟨rfl, rfl⟩

theorem couples_grow_indirect (hm : MapFile F X k₀) (h : d.indirect_count = 0) :
    Couples X N k₀ (grow_indirect d grow) fun r =>
      r.1.double_indirect_count = d.double_indirect_count := by
  unfold grow_indirect
  split
  · exact .pure rfl
  · rw [h]
    refine .bind (couples_index_block hm 13) fun r hr =>
      .bind (couples_grow_loop hm _ _ _ _ _ _ (by rw [hr.1, h]; exact Nat.zero_le _)) fun _ _ =>
      .bind (couples_block_write _ _) fun _ _ => .pure hr.2

/-- Started at a multiple of 128, the loop allocates every second-level block. -/
theorem couples_grow_level_two (hm : MapFile F X k₀) : ∀ (fuel : Nat) (one two : Block)
    (count grow : Nat), count % 128 = 0 ∨ grow = 0 →
    Couples X N k₀ (grow_level_two fuel one two count grow) fun _ => True
  | 0, _, _, _, _, _ => .pure trivial
  | fuel + 1, one, two, count, grow, h => by
    unfold grow_level_two
    split
    · have hc : count % 128 = 0 := by omega
      rw [level_two_block, if_pos hc]
      refine .bind (.bind (Q := fun _ => True) (P := fun _ => True)
        ((couples_allocate_into hm _ _ _).mono fun _ _ => trivial) fun _ _ => .pure trivial)
        fun r _ => .bind (couples_grow_loop hm _ _ _ _ _ _ (Nat.zero_le _)) fun s hs =>
        .bind (couples_block_write _ _) fun _ _ =>
        couples_grow_level_two hm fuel _ _ _ _ (by omega)
    · exact .pure trivial

theorem couples_grow_double (hm : MapFile F X k₀) (h : d.double_indirect_count = 0) :
    Couples X N k₀ (grow_double d grow) fun _ => True := by
  unfold grow_double
  split
  · exact .pure trivial
  · rw [h]
    exact .bind (couples_index_block hm 14) fun r hr => .bind couples_uninit fun _ _ =>
      .bind (couples_grow_level_two hm _ _ _ _ _ (.inl (by rw [hr.2, h]))) fun _ _ =>
      .bind (couples_block_write _ _) fun _ _ => .pure trivial

/-- Growing an inode without index blocks. -/
theorem couples_inode_grow (hm : MapFile F X k₀) (h : d.direct_count ≤ DIRECT_BLOCKS)
    (h₁ : d.indirect_count = 0) (h₂ : d.double_indirect_count = 0) :
    Couples X N k₀ (inode_grow d length) fun _ => True := by
  refine .bind (.emit _) fun _ _ => ?_
  dsimp only
  split
  · exact .pure trivial
  · exact .bind (couples_grow_direct hm h) fun r hr =>
      .bind (couples_grow_indirect hm (hr.1.trans h₁)) fun r' hr' =>
      .bind (couples_grow_double hm (hr'.trans (hr.2.trans h₂))) fun _ _ => .pure trivial

end Grow

end Pintos
