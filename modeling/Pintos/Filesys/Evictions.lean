import Pintos.Filesys.FreeMap
import Pintos.Filesys.Replacement

/-!
# Filesys — the evictions of a change of the free map

The round-robin index of the cache is an `int`.  Where it has wrapped to a negative number the
slot it names may lie before the table, and the eviction does not return.  A call that returns has
therefore evicted slots of the table only (`Event.InTable`), and what `Runs Event.InTable` says of a
function holds of every call of it that returns.

Every allocation and every release writes the free map to its file, through the cache and over the
same sectors, so the evictions of `n` of them are foretold by the cache before the first
(`mapWrites`).  `m.Passes n k Q`: `m` makes `n` changes of the map from `k`; it returns exactly if the
indices name slots, and then meets `Q`.
-/

namespace Pintos
open Support Machine List
open Event (InTable)

section Device

theorem emits_block_read (s : Sector) : Emits InTable (block_read s) :=
  Emits.get_bind fun _ => .ite (.pure _) Emits.panic

theorem emits_block_write (w : Writer) (s : Sector) (b : Block) :
    Emits InTable (block_write w s b) :=
  Emits.get_bind fun _ => .ite (.bind (.emit trivial) fun _ => .modify _) Emits.panic

theorem emits_cache_get_free_entry : Emits InTable cache_get_free_entry :=
  Emits.get_bind fun _ => by
    split
    · exact .modify_bind (.pure _)
    · exact .pure _

theorem emits_cache_evict : Emits InTable cache_evict := by
  refine .bind emits_cache_get_free_entry fun r => ?_
  cases r with
  | some idx => exact .pure _
  | none =>
    refine .modify_bind (.get_bind fun d => ?_)
    -- the event is in the table, or the next step panics
    cases hs : slotOf d.round_robin_idx with
    | none => exact fun s es a s' h => by cases h
    | some idx =>
      refine .bind (.emit ⟨idx, hs⟩) fun _ => ?_
      exact .bind (.ite (emits_block_write _ _ _) (.pure _)) fun _ =>
        Emits.modify_bind (.pure _)

theorem emits_cache_bring (s : Sector) (f : Bool → Bool) :
    Emits InTable (cache_bring s f) := by
  refine .get_bind fun d => ?_
  split
  · exact .pure _
  · exact .bind emits_cache_evict fun _ => .modify_bind <|
      Emits.bind (emits_block_read s) fun _ => .bind (.emit trivial) fun _ =>
      Emits.modify_bind (.pure _)

theorem emits_cache_write (s : Sector) (source : List UInt8) (ofs : Nat) :
    Emits InTable (cache_write s source ofs) :=
  Emits.bind (emits_cache_bring s _) fun _ => .ite Emits.panic <|
    Emits.bind (.emit trivial) fun _ => .modify _

theorem emits_cache_read (s : Sector) (ofs size : Nat) :
    Emits InTable (cache_read s ofs size) :=
  Emits.bind (emits_cache_bring s _) fun _ => .ite Emits.panic <|
    Emits.modify_bind <| .get_bind fun _ => .pure _

theorem emits_byte_to_sector (d : InodeDisk) (pos : Nat) :
    Emits InTable (byte_to_sector d pos) :=
  Emits.ite (.ite (.pure _) <| .ite (.bind (emits_block_read _) fun _ => .pure _) <|
    Emits.bind (emits_block_read _) fun _ => .ite Emits.panic <|
    Emits.bind (emits_block_read _) fun _ => .pure _) (.pure _)

theorem emits_inode_write_loop (d : InodeDisk) (fuel : Nat) : ∀ (buffer : List UInt8)
    (offset : Nat), Emits InTable (inode_write_loop d fuel buffer offset) := by
  induction fuel with
  | zero => exact fun _ _ => .pure _
  | succ fuel ih =>
    intro buffer offset
    exact .ite (.pure _) <| .bind (emits_byte_to_sector d offset) fun _ =>
      Emits.ite (.pure _) <| .bind (emits_cache_write _ _ _) fun _ =>
      Emits.bind (ih _ _) fun _ => .pure _

theorem emits_inode_read_loop (d : InodeDisk) (fuel : Nat) : ∀ (size offset : Nat),
    Emits InTable (inode_read_loop d fuel size offset) := by
  induction fuel with
  | zero => exact fun _ _ => .pure _
  | succ fuel ih =>
    intro size offset
    exact .ite (.pure _) <| .bind (emits_byte_to_sector d offset) fun _ =>
      Emits.ite (.pure _) <| .bind (emits_cache_read _ _ _) fun _ =>
      Emits.bind (ih _ _) fun _ => .pure _

end Device

section FreeMap

theorem emits_deref {ι δ : Type} (p : Addr) :
    Emits InTable (deref p : Machine Event (Kernel ι δ) (Inode ι)) :=
  Emits.get_bind fun _ => by
    split
    · exact .pure _
    · exact .panic

theorem emits_bitmap_write : Emits InTable bitmap_write :=
  Emits.get_bind fun _ => by
    split
    · exact .panic
    · exact .bind (emits_deref _) fun _ => .ite (.pure _) <| .ite Emits.panic <|
        Emits.bind (.zoom (emits_inode_write_loop _ _ _ _)) fun _ => .pure _

theorem emits_free_map_release (s : Sector) (cnt : Nat) :
    Emits InTable (free_map_release s cnt) :=
  Emits.get_bind fun _ => .ite (.modify_bind <| .bind (.emit trivial) fun _ =>
    Emits.bind emits_bitmap_write fun _ => .pure _) Emits.panic

theorem emits_free_map_allocate (cnt : Nat) : Emits InTable (free_map_allocate cnt) :=
  Emits.get_bind fun _ => by
    split
    · exact .bind (.emit trivial) fun _ => .pure _
    · refine .modify_bind (.bind (.get_bind fun _ => ?_) fun _ => ?_)
      · split
        · exact .pure _
        · exact emits_bitmap_write
      · exact .ite (.get_bind fun _ => .bind (.emit trivial) fun _ =>
          Emits.pure _) (.modify_bind <| .bind (.emit trivial) fun _ =>
          Emits.pure _)

end FreeMap

/-! ### Changes of the free map, one after the other -/

/-- The sectors that a write of the free map to its file goes through, in turn. -/
def Kernel.mapSectors (k : Fs) : List Sector :=
  match k.dev.free_map_file.bind k.mem with
  | some i => rangeSectors k.dev.device.disk i.data 0 (bitmap_file_size k.dev.free_map)
  | none => []

/-- The sectors that `n` writes go through. -/
def Kernel.mapWrites (k : Fs) (n : Nat) : List Sector := (replicate n k.mapSectors).flatten

/-- From `k` to `k'` the free map has been written to its file `n` times. -/
structure Rewrites (n : Nat) (k k' : Fs) : Prop where
  sectors : k'.mapSectors = k.mapSectors
  touched : Touched true (k.mapWrites n) k.dev.device k'.dev.device

/-- From `k` the machine changes the free map `n` times and meets `Q`, unless an index leaves the
table. -/
structure Passes {α : Type} (n : Nat) (m : Machine Event Fs α) (k : Fs)
    (Q : List Event → α → Fs → Prop) : Prop where
  done : ∀ {es a k'}, m k = (es, .done a k') →
    Q es a k' ∧ k.dev.device.table.Sound true (k.mapWrites n) ∧ Rewrites n k k'
  panic : ∀ {es k'}, m k = (es, .panic k') →
    ¬ k.dev.device.table.Sound true (k.mapWrites n) ∧ ∃ e ∈ es, ¬ e.InTable

section Passes

variable {α β : Type} {n n' : Nat} {k k' k'' : Fs} {m : Machine Event Fs α} {p : Addr}
  {Q : List Event → α → Fs → Prop} {P : List Event → β → Fs → Prop} {F X : Sector → Prop}

theorem Kernel.mapWrites_add (k : Fs) (n n' : Nat) :
    k.mapWrites (n + n') = k.mapWrites n ++ k.mapWrites n' := by
  rw [mapWrites, replicate_add, flatten_append]
  rfl

theorem Rewrites.mapWrites_eq (h : Rewrites n k k') (n' : Nat) : k'.mapWrites n' = k.mapWrites n' := by
  rw [Kernel.mapWrites, h.sectors, Kernel.mapWrites]

theorem Rewrites.trans (h : Rewrites n k k') (h' : Rewrites n' k' k'') : Rewrites (n + n') k k'' :=
  ⟨h'.sectors.trans h.sectors, by
    rw [Kernel.mapWrites_add, ← h.mapWrites_eq n']
    exact h.touched.trans h'.touched⟩

/-- The sectors written back by the first changes and by those after them. -/
theorem Rewrites.flushed_add (h : Rewrites n k k') (n' : Nat) :
    k.dev.device.table.flushed true (k.mapWrites (n + n')) =
      k.dev.device.table.flushed true (k.mapWrites n) ++
      k'.dev.device.table.flushed true (k'.mapWrites n') := by
  rw [Kernel.mapWrites_add, SlotTable.flushed_append, h.mapWrites_eq, h.touched.table]

theorem Rewrites.sound_add (h : Rewrites n k k') (n' : Nat) :
    k.dev.device.table.Sound true (k.mapWrites (n + n')) ↔
      k.dev.device.table.Sound true (k.mapWrites n) ∧
      k'.dev.device.table.Sound true (k'.mapWrites n') := by
  rw [Kernel.mapWrites_add, SlotTable.sound_append, h.mapWrites_eq, h.touched.table]

theorem Passes.pure {a : α} (hd : k.dev.device.Proper) (h : Q [] a k) :
    Passes 0 (Pure.pure a) k Q := by
  refine ⟨fun hm => ?_, fun hm => nomatch hm⟩
  cases hm
  exact ⟨h, by simp [Kernel.mapWrites, SlotTable.Sound, SlotTable.reached], rfl, .refl hd⟩

theorem Passes.bind {c : α → Machine Event Fs β} (h : Passes n m k Q)
    (hc : ∀ es a k', Q es a k' → Rewrites n k k' →
      Passes n' (c a) k' fun es' b k'' => P (es ++ es') b k'') :
    Passes (n + n') (m >>= c) k P := by
  rcases hm : m k with ⟨es, ⟨a, k₁⟩ | k₁⟩
  · obtain ⟨hQ, hs, hr⟩ := h.done hm
    have h' := hc es a k₁ hQ hr
    rcases hc' : c a k₁ with ⟨es', ⟨b, k₂⟩ | k₂⟩
    · obtain ⟨hP, hs', hr'⟩ := h'.done hc'
      refine ⟨fun hb => ?_, fun hb => ?_⟩ <;> rw [bind_run_done hm, hc'] at hb <;> cases hb
      exact ⟨hP, (hr.sound_add n').mpr ⟨hs, hs'⟩, hr.trans hr'⟩
    · obtain ⟨hs', e, he, hne⟩ := h'.panic hc'
      refine ⟨fun hb => ?_, fun hb => ?_⟩ <;> rw [bind_run_done hm, hc'] at hb <;> cases hb
      exact ⟨fun hs => hs' ((hr.sound_add n').mp hs).2, e, mem_append_right _ he, hne⟩
  · obtain ⟨hs, he⟩ := h.panic hm
    refine ⟨fun hb => ?_, fun hb => ?_⟩ <;> rw [bind_run_panic hm] at hb <;> cases hb
    refine ⟨fun hs' => hs ?_, he⟩
    rw [Kernel.mapWrites_add, SlotTable.sound_append] at hs'
    exact hs'.1

theorem Passes.mono {Q' : List Event → α → Fs → Prop} (h : Passes n m k Q)
    (hQ : ∀ es a k', Q es a k' → Q' es a k') : Passes n m k Q' :=
  ⟨fun hm => ⟨hQ _ _ _ (h.done hm).1, (h.done hm).2⟩, h.panic⟩

/-- A first part that returns without an event and leaves the device and the map as they are. -/
theorem Passes.silent_bind {c : α → Machine Event Fs β} {a : α} (hm : m k = ([], .done a k))
    (h : Passes n (c a) k P) : Passes n (m >>= c) k P :=
  ⟨fun hb => h.done ((bind_run_silent hm rfl).symm.trans hb),
    fun hb => h.panic ((bind_run_silent hm rfl).symm.trans hb)⟩

theorem Passes.runs {ok : Event → Prop} (h : Passes n m k Q) (hev : EvictsInTable ok) :
    m.Runs ok k Q := by
  intro hok
  rcases hm : m k with ⟨es, ⟨a, k'⟩ | k'⟩
  all_goals rw [hm] at hok
  · exact ⟨a, k', rfl, (h.done hm).1⟩
  · obtain ⟨-, e, he, hne⟩ := h.panic hm
    refine absurd ?_ hne
    have := hok e he
    cases e with
    | evict r => exact hev r this
    | _ => trivial

/-- A write of the map to its file, whatever the other slots hold. -/
theorem bitmap_write_accesses {i : Inode InodeDisk} (hp : k.dev.free_map_file = some p)
    (hi : k.mem p = some i) (hdeny : i.deny_write_cnt = 0)
    (hlen : bitmap_file_size k.dev.free_map ≤ i.data.length)
    (h : Reachable true k.dev.device i.data 0 (bitmap_file_size k.dev.free_map)) :
    match (bitmap_write k).2 with
    | .done b k' => b = true ∧ k.dev.device.table.Sound true (k.mapWrites 1) ∧ Rewrites 1 k k' ∧
        ∃ dev, k' = k.setDevice dev
    | .panic _ => ¬ k.dev.device.table.Sound true (k.mapWrites 1) := by
  have hsec : k.mapWrites 1 =
      rangeSectors k.dev.device.disk i.data 0 (bitmap_file_size k.dev.free_map) := by
    simp [Kernel.mapWrites, Kernel.mapSectors, hp, hi]
  have hbytes := length_bitmap_bytes k.dev.free_map
  have hmin : min (bitmap_bytes k.dev.free_map).length (i.data.length - 0) =
      bitmap_file_size k.dev.free_map := by omega
  have hloop := inode_write_loop_accesses _ (show Reachable true k.dev.device i.data 0
    (min (bitmap_bytes k.dev.free_map).length (i.data.length - 0)) by rw [hmin]; exact h) le_rfl
  rw [hmin] at hloop
  have hrun : bitmap_write k = (onDevice (inode_write_loop i.data
      (bitmap_bytes k.dev.free_map).length (bitmap_bytes k.dev.free_map) 0) >>= fun written =>
      Pure.pure (written == (bitmap_bytes k.dev.free_map).length)) k := by
    refine bind_run_silent (get_run k) ?_
    rw [hp]
    refine bind_run_silent (deref_run hi) ?_
    rw [if_neg (by simpa using hdeny), if_neg (by omega)]
  unfold Accesses at hloop
  rw [hrun, hsec]
  rcases hm : inode_write_loop i.data (bitmap_bytes k.dev.free_map).length
    (bitmap_bytes k.dev.free_map) 0 k.dev.device with ⟨es, ⟨c, dev⟩ | dev⟩
  all_goals rw [hm] at hloop
  · obtain ⟨rfl, hs, ht⟩ := hloop
    rw [bind_run_done (onDevice_run hm)]
    have hag := ht.agree h.kept
    refine ⟨by simp [hbytes], hs, ⟨?_, ?_⟩, dev, rfl⟩
    · simp only [Kernel.mapSectors, Kernel.setDevice_file, Kernel.setDevice_mem, hp,
        Option.bind_some, hi]
      exact hag.rangeSectors_eq (show 0 + bitmap_file_size k.dev.free_map ≤ _ by omega)
    · rw [hsec]
      exact ht
  · have hz : onDevice (inode_write_loop i.data (bitmap_bytes k.dev.free_map).length
        (bitmap_bytes k.dev.free_map) 0) k = (es, .panic (k.setDevice dev)) := by
      simp only [onDevice, zoom, hm]
    rw [bind_run_panic hz]
    exact hloop

/-- What is written back while the map is, is neither a clean sector nor any but the map's. -/
theorem MapFile.not_flushed (h : MapFile F X k) (n : Nat) {t : Sector}
    (hd : ¬ k.dev.device.Dirty t) (hF : ¬ F t) :
    t ∉ k.dev.device.table.flushed true (k.mapWrites n) := fun hf => by
  rcases SlotTable.dirty_of_flushed hf with hf | ⟨-, hf⟩
  · exact hd (Device.dirty_iff.mpr hf)
  · obtain ⟨l, hl, ht⟩ := mem_flatten.mp hf
    rw [eq_of_mem_replicate hl, Kernel.mapSectors] at ht
    split at ht
    · rename_i i hi
      obtain ⟨p, hp, hi⟩ := Option.bind_eq_some_iff.mp hi
      obtain ⟨j, hj, -, hlen, -, hF', -⟩ := h.file p hp
      obtain rfl : i = j := Option.some.inj (hi.symm.trans hj)
      refine hF ((hF' t).mp ?_)
      rw [rangeSectors] at ht
      split at ht
      · cases ht
      · obtain ⟨b, hb, rfl⟩ := mem_map.mp ht
        have := mem_range'_1.mp hb
        exact mem_dataSectors.mpr ⟨b, by omega, rfl⟩
    · cases ht

theorem bitmap_write_passes (h : MapFile F X k) (hp : k.dev.free_map_file = some p) :
    Passes 1 bitmap_write k fun es b k' => b = true ∧ ∃ dev, k' = k.setDevice dev ∧
      Access F F es k.dev.device dev ∧ MapFile F X k' ∧ Stored k' := by
  obtain ⟨i, hi, hdeny, hlen, hd, -⟩ := h.file p hp
  have hacc := bitmap_write_accesses hp hi hdeny hlen (hd.reachable (by omega))
  have hruns : bitmap_write.Runs InTable k _ := bitmap_write_runs h (fun _ h => h) hp
  refine ⟨fun hm => ?_, fun hm => ?_⟩ <;> rw [hm] at hacc
  · exact ⟨hruns.of_done hm (emits_bitmap_write hm), hacc.2.1, hacc.2.2.1⟩
  · refine ⟨hacc, ?_⟩
    by_contra hno
    simp only [not_exists, not_and, not_not] at hno
    obtain ⟨a, k₁, hdone, -⟩ := hruns (by rw [hm]; exact hno)
    rw [hm] at hdone
    cases hdone

end Passes

end Pintos
