import Pintos.Filesys.Device
import Pintos.Lib.Stdint

/-!
# Filesys — the buffer cache

The functions of `buffer-cache.c`, each under `cache_lock` and so atomic.  `logical d s` is what a
reader of `s` through the cache sees: the slot that holds `s`, or else the disk.

`CacheOk` is the invariant of the table: no two slots hold one sector, a slot that is not dirty
equals its sector.  `Access R W es d d'` says what a sequence of cache operations can do that
loads only sectors of `R` and writes only sectors of `W`: the logical contents change on `W` only,
and a sector that is neither dirty nor in `W` keeps its disk contents, whatever is evicted
meanwhile.
-/

namespace Pintos
open Support Function List
open Machine (bind_run emit)
open Device (Holds setSlot_other setSlot_self)

/-! ### The functions -/

/-- `cache_lookup`: the first occupied slot that holds `s`. -/
def cache_lookup (d : Device) (s : Sector) : Option (Fin CACHE_SIZE) :=
  (finRange CACHE_SIZE).find? fun i => decide (d.Holds i s)

/-- `cache_get_free_entry`: the first free slot, which it marks occupied. -/
def cache_get_free_entry : Machine Event Device (Option (Fin CACHE_SIZE)) := do
  let d ← Machine.get
  match (finRange CACHE_SIZE).find? fun i => !(d.cache_table i).occupied with
  | some i => do
    Machine.modify fun d => d.setSlot i { d.cache_table i with occupied := true }
    pure (some i)
  | none => pure none

/-- `i % CACHE_SIZE` as an index: C's remainder has the sign of `i`, and a negative one lies
outside the table. -/
def slotOf (i : Int) : Option (Fin CACHE_SIZE) :=
  if 0 ≤ i.tmod 64 then some (Fin.ofNat 64 (i.tmod 64).toNat) else none

/-- `block_write` of a slot, if its dirty bit asks for it. -/
def cache_flush (dirty : Bool) (e : CacheEntry) : Machine Event Device Unit :=
  if dirty then block_write .cache e.disk_sector e.block else pure ()

/-- The fields that `cache_init`, `cache_evict` and a last write-back reset; the block and the
sector keep what they held. -/
def CacheEntry.reset (e : CacheEntry) : CacheEntry :=
  { e with occupied := false, open_cnt := 0, dirty := false, accessed := false }

/-- `cache_evict`. -/
def cache_evict : Machine Event Device (Fin CACHE_SIZE) := do
  match ← cache_get_free_entry with
  | some idx => pure idx
  | none => do
    Machine.modify fun d => { d with round_robin_idx := wrap32 (d.round_robin_idx + 1) }
    let d ← Machine.get
    emit (.evict d.round_robin_idx)
    match slotOf d.round_robin_idx with
    | none => Machine.panic
    | some idx => do
      let e := d.cache_table idx
      cache_flush e.dirty e
      Machine.modify fun d => d.setSlot idx (d.cache_table idx).reset
      pure idx

/-- The slot of `s`, loaded from the disk if there is none.  `cache_read` clears the dirty bit of
a slot it loads, `cache_write` leaves it. -/
def cache_bring (s : Sector) (dirty : Bool → Bool) : Machine Event Device (Fin CACHE_SIZE) := do
  let d ← Machine.get
  match cache_lookup d s with
  | some idx => pure idx
  | none => do
    let idx ← cache_evict
    Machine.modify fun d => d.setSlot idx
      { d.cache_table idx with
        occupied := true, disk_sector := s, dirty := dirty (d.cache_table idx).dirty }
    let b ← block_read s
    emit (.fill s)
    Machine.modify fun d => d.setSlot idx { d.cache_table idx with block := b }
    pure idx

/-- `cache_write`; `memcpy` past the end of the slot's block is undefined. -/
def cache_write (s : Sector) (source : List UInt8) (sector_ofs : Nat) :
    Machine Event Device Unit := do
  let idx ← cache_bring s id
  if 512 < sector_ofs + source.length then Machine.panic
  else do
    emit (.put s sector_ofs source.length)
    Machine.modify fun d => d.setSlot idx
      { d.cache_table idx with
        accessed := true, dirty := true,
        block := (d.cache_table idx).block.write sector_ofs source }

/-- `cache_read`. -/
def cache_read (s : Sector) (sector_ofs size : Nat) : Machine Event Device (List UInt8) := do
  let idx ← cache_bring s fun _ => false
  if 512 < sector_ofs + size then Machine.panic
  else do
    Machine.modify fun d => d.setSlot idx { d.cache_table idx with accessed := true }
    let d ← Machine.get
    pure ((d.cache_table idx).block.read sector_ofs size)

/-- One turn of the loop of `cache_writeback`. -/
def cache_writeback_slot (last_write_back : Bool) (i : Fin CACHE_SIZE) :
    Machine Event Device Unit := do
  let d ← Machine.get
  let e := d.cache_table i
  cache_flush (e.occupied && e.dirty) e
  Machine.modify fun d => d.setSlot i
    { e with dirty := if e.occupied && e.dirty then false else e.dirty }
  Machine.modify fun d => if last_write_back then d.setSlot i (d.cache_table i).reset else d

/-- `cache_writeback`. -/
def cache_writeback (last_write_back : Bool) : Machine Event Device Unit :=
  (finRange CACHE_SIZE).forM (cache_writeback_slot last_write_back)

/-- `cache_init`. -/
def cache_init (d : Device) : Device :=
  { d with cache_table := fun i => (d.cache_table i).reset }

/-! ### The invariant and the logical contents -/

/-- What a reader of `s` through the cache sees. -/
def Device.logical (d : Device) (s : Sector) : Block :=
  match cache_lookup d s with
  | some i => (d.cache_table i).block
  | none => d.disk s

structure CacheOk (d : Device) : Prop where
  unique : ∀ {i j s}, d.Holds i s → d.Holds j s → i = j
  clean : ∀ {i s}, d.Holds i s → (d.cache_table i).dirty = false →
    (d.cache_table i).block = d.disk s
  idle : ∀ {i}, (d.cache_table i).occupied = false → (d.cache_table i).dirty = false
  valid : ∀ {s}, d.Resident s → s < d.size

variable {d : Device} {s : Sector} {i : Fin CACHE_SIZE}

theorem cache_lookup_holds (h : cache_lookup d s = some i) : d.Holds i s := by
  simpa using find?_some h

theorem cache_lookup_eq_none : cache_lookup d s = none ↔ ¬ d.Resident s := by
  simp [cache_lookup, Device.Resident]

theorem CacheOk.lookup (h : CacheOk d) (hi : d.Holds i s) : cache_lookup d s = some i := by
  cases hl : cache_lookup d s with
  | none => exact absurd ⟨i, hi⟩ (cache_lookup_eq_none.mp hl)
  | some j => rw [h.unique (cache_lookup_holds hl) hi]

theorem CacheOk.logical_of_holds (h : CacheOk d) (hi : d.Holds i s) :
    d.logical s = (d.cache_table i).block := by
  simp only [Device.logical, h.lookup hi]

theorem Device.logical_of_not_resident (h : ¬ d.Resident s) : d.logical s = d.disk s := by
  simp only [Device.logical, cache_lookup_eq_none.mpr h]

/-- A direct write to another sector. -/
theorem Device.logical_update {s t : Sector} (h : s ≠ t) (b : Block) :
    { d with disk := update d.disk t b }.logical s = d.logical s := by
  show (match cache_lookup d s with
    | some i => (d.cache_table i).block
    | none => update d.disk t b s) = d.logical s
  rw [update_of_ne h]
  rfl

/-- A sector that is not dirty reads the same through the cache and from the disk. -/
theorem CacheOk.logical_of_not_dirty (h : CacheOk d) (hs : ¬ d.Dirty s) :
    d.logical s = d.disk s := by
  by_cases hr : d.Resident s
  · obtain ⟨i, hi⟩ := hr
    rw [h.logical_of_holds hi]
    exact h.clean hi (by simpa using fun hd => hs ⟨i, hi, hd⟩)
  · exact Device.logical_of_not_resident hr

/-! ### Vacating a slot -/

/-- The events that `buffer-cache.c` emits. -/
def Event.OfCache : Event → Prop
  | .write .cache _ | .fill _ | .put _ _ _ | .evict _ => True
  | _ => False

/-- Slot `i` is free for use in `d₁`: the other slots are as in `d`, and what slot `i` held has
gone to the disk if it was dirty. -/
structure Vacates (es : List Event) (d d₁ : Device) (i : Fin CACHE_SIZE) : Prop where
  size : d₁.size = d.size
  others : ∀ j, j ≠ i → d₁.cache_table j = d.cache_table j
  idle : (d₁.cache_table i).dirty = false
  disk : ∀ s, d₁.disk s =
    if d.Holds i s ∧ (d.cache_table i).dirty = true then (d.cache_table i).block else d.disk s
  events : ∀ e ∈ es, e.OfCache

/-- An eviction whose index names a slot, or no eviction. -/
def Event.InTable : Event → Prop
  | .evict r => ∃ i, slotOf r = some i
  | _ => True

instance : DecidablePred Event.InTable
  | .evict r => decidable_of_iff ((slotOf r).isSome = true) Option.isSome_iff_exists
  | .write _ _ => isTrue trivial
  | .fill _ => isTrue trivial
  | .put _ _ _ => isTrue trivial
  | .allocate _ _ => isTrue trivial
  | .release _ => isTrue trivial
  | .grow _ _ => isTrue trivial
  | .relock => isTrue trivial
  | .stray _ => isTrue trivial

/-- The evictions that are `ok` name slots. -/
def EvictsInTable (ok : Event → Prop) : Prop := ∀ r, ok (.evict r) → ∃ i, slotOf r = some i

theorem slotOf_of_nonneg {i : Int} (h : 0 ≤ i) : ∃ k, slotOf i = some k := by
  have : 0 ≤ i.tmod 64 := by rw [Int.tmod_eq_emod_of_nonneg h]; omega
  exact ⟨_, if_pos this⟩

theorem cache_flush_run {b : Bool} {e : CacheEntry} (h : e.disk_sector < d.size) :
    cache_flush b e d = if b then ([.write .cache e.disk_sector],
      .done () { d with disk := update d.disk e.disk_sector e.block })
    else ([], .done () d) := by
  cases b with
  | false => rfl
  | true => simp [cache_flush, block_write, bind_run, h]

section Runs

variable {ok : Event → Prop} {d : Device} {i : Fin CACHE_SIZE}

theorem cache_evict_of_free
    (hf : (finRange CACHE_SIZE).find? (fun i => !(d.cache_table i).occupied) = some i) :
    cache_evict d = ([], .done i (d.setSlot i { d.cache_table i with occupied := true })) := by
  simp [cache_evict, cache_get_free_entry, bind_run, hf]

/-- With every slot occupied, the index moves on and the slot it names is flushed and dropped. -/
theorem cache_evict_of_full {r : Int}
    (hf : (finRange CACHE_SIZE).find? (fun i => !(d.cache_table i).occupied) = none)
    (hr : r = wrap32 (d.round_robin_idx + 1)) (hi : slotOf r = some i)
    (hlt : (d.cache_table i).disk_sector < d.size) :
    cache_evict d = (.evict r :: if (d.cache_table i).dirty = true then
        [.write .cache (d.cache_table i).disk_sector] else [],
      .done i (({ d with
        round_robin_idx := r
        disk := if (d.cache_table i).dirty = true then
          update d.disk (d.cache_table i).disk_sector (d.cache_table i).block
          else d.disk } : Device).setSlot i (d.cache_table i).reset)) := by
  cases hdirty : (d.cache_table i).dirty <;>
    simp [cache_evict, cache_get_free_entry, bind_run, hf, ← hr, hi, hdirty, cache_flush,
      block_write, hlt]

theorem cache_evict_runs (hd : CacheOk d) (hev : EvictsInTable ok) :
    cache_evict.Runs ok d fun es i d₁ => Vacates es d d₁ i := by
  intro hok
  cases hf : (finRange CACHE_SIZE).find? (fun i => !(d.cache_table i).occupied) with
  | some i =>
    have hi : (d.cache_table i).occupied = false := by simpa using find?_some hf
    rw [cache_evict_of_free hf]
    refine ⟨_, _, rfl, rfl, fun j hj => setSlot_other hj, ?_, fun s => ?_,
      by simp⟩
    · simpa using hd.idle hi
    · rw [if_neg (by rintro ⟨⟨ho, -⟩, -⟩; rw [hi] at ho; cases ho)]
      rfl
  | none =>
    have hocc : ∀ i, (d.cache_table i).occupied = true := by simpa using hf
    set r := wrap32 (d.round_robin_idx + 1) with hrr
    obtain ⟨i, hi⟩ : ∃ i, slotOf r = some i := by
      refine hev r (hok _ ?_)
      simp only [cache_evict, cache_get_free_entry, bind_run, Machine.get_run, hf,
        Machine.pure_run, Machine.modify_run, Machine.emit_run, ← hrr]
      cases slotOf r <;> simp
    have hv : d.Holds i (d.cache_table i).disk_sector := ⟨hocc i, rfl⟩
    have hsec : ∀ s, d.Holds i s ↔ (d.cache_table i).disk_sector = s :=
      fun s => ⟨fun h => h.2, fun h => ⟨hocc i, h⟩⟩
    rw [cache_evict_of_full hf hrr hi (hd.valid ⟨i, hv⟩)]
    refine ⟨_, _, rfl, rfl, fun j hj => setSlot_other hj, by simp [CacheEntry.reset],
      fun s => ?_, ?_⟩
    · simp only [Device.setSlot_disk, hsec]
      cases (d.cache_table i).dirty with
      | false => simp
      | true => simp [update_apply, eq_comm]
    · cases (d.cache_table i).dirty <;> simp [Event.OfCache]

end Runs

/-! ### Accesses -/

/-- Cache operations from `d` to `d'` that load only sectors of `R` and write only sectors of
`W`. -/
structure Access (R W : Sector → Prop) (es : List Event) (d d' : Device) : Prop where
  size_eq : d'.size = d.size
  ok : CacheOk d'
  logical_eq : ∀ s, ¬ W s → d'.logical s = d.logical s
  disk_eq : ∀ s, ¬ d.Dirty s → ¬ W s → d'.disk s = d.disk s
  resident : ∀ s, d'.Resident s → d.Resident s ∨ R s
  dirty : ∀ s, d'.Dirty s → d.Dirty s ∨ W s
  events : ∀ e ∈ es, e.OfCache

section Access

variable {R W : Sector → Prop} {es es' : List Event} {d d' d'' : Device}

theorem Access.refl (h : CacheOk d) : Access R W [] d d :=
  ⟨rfl, h, fun _ _ => rfl, fun _ _ _ => rfl, fun _ => .inl, fun _ => .inl, by simp⟩

theorem Access.trans (h : Access R W es d d') (h' : Access R W es' d' d'') :
    Access R W (es ++ es') d d'' where
  size_eq := h'.size_eq.trans h.size_eq
  ok := h'.ok
  logical_eq s hs := (h'.logical_eq s hs).trans (h.logical_eq s hs)
  disk_eq s hd hs :=
    (h'.disk_eq s (fun hd' => (h.dirty s hd').elim hd hs) hs).trans (h.disk_eq s hd hs)
  resident s hs := (h'.resident s hs).elim (h.resident s) .inr
  dirty s hs := (h'.dirty s hs).elim (h.dirty s) .inr
  events e he := (List.mem_append.mp he).elim (h.events e) (h'.events e)

theorem Access.mono {R' W' : Sector → Prop} (h : Access R W es d d') (hR : ∀ s, R s → R' s)
    (hW : ∀ s, W s → W' s) : Access R' W' es d d' where
  size_eq := h.size_eq
  ok := h.ok
  logical_eq s hs := h.logical_eq s fun hw => hs (hW s hw)
  disk_eq s hd hs := h.disk_eq s hd fun hw => hs (hW s hw)
  resident s hs := (h.resident s hs).imp id (hR s)
  dirty s hs := (h.dirty s hs).imp id (hW s)
  events := h.events

end Access

/-- A vacated slot loaded with a sector the cache did not hold. -/
theorem Vacates.load {es : List Event} {d d₁ d' : Device} (h : Vacates es d d₁ i) (hd : CacheOk d)
    (hs : ¬ d.Resident s) (hlt : s < d.size) (hsize : d'.size = d₁.size) (hdisk : d'.disk = d₁.disk)
    (hoth : ∀ j, j ≠ i → d'.cache_table j = d₁.cache_table j) (hi : d'.Holds i s)
    (hclean : (d'.cache_table i).dirty = false) (hblock : (d'.cache_table i).block = d₁.disk s) :
    Access (· = s) (fun _ => False) (es ++ [.fill s]) d d' := by
  have hsi : ¬ d.Holds i s := fun h => hs ⟨i, h⟩
  have hdisk' : ∀ t, d'.disk t =
      if d.Holds i t ∧ (d.cache_table i).dirty = true then (d.cache_table i).block
      else d.disk t := fun t => by rw [hdisk, h.disk]
  have hds : d'.disk s = d.disk s := by rw [hdisk', if_neg fun h => hsi h.1]
  have htab : ∀ j, j ≠ i → d'.cache_table j = d.cache_table j :=
    fun j hj => (hoth j hj).trans (h.others j hj)
  have hholds : ∀ j t, j ≠ i → (d'.Holds j t ↔ d.Holds j t) := fun j t hj => by
    rw [Holds, Holds, htab j hj]
  have hit : ∀ t, d'.Holds i t → t = s := fun t ht => ht.2.symm.trans hi.2
  have hres : ∀ t, d'.Resident t → d.Resident t ∨ t = s := by
    rintro t ⟨j, hj⟩
    by_cases e : j = i
    · exact .inr (hit t (e ▸ hj))
    · exact .inl ⟨j, (hholds j t e).mp hj⟩
  -- a sector another slot holds has kept its disk contents: only slot `i` was flushed
  have hkeep : ∀ j t, j ≠ i → d.Holds j t → d'.disk t = d.disk t := fun j t hj ht => by
    rw [hdisk', if_neg fun h => hj (hd.unique ht h.1)]
  have hok : CacheOk d' := by
    refine ⟨fun {j k t} hj hk => ?_, fun {j t} hj hc => ?_, fun {j} ho => ?_, fun {t} ht => ?_⟩
    · by_cases ej : j = i <;> by_cases ek : k = i
      · rw [ej, ek]
      · exact absurd ⟨k, hit t (ej ▸ hj) ▸ (hholds k t ek).mp hk⟩ hs
      · exact absurd ⟨j, hit t (ek ▸ hk) ▸ (hholds j t ej).mp hj⟩ hs
      · exact hd.unique ((hholds j t ej).mp hj) ((hholds k t ek).mp hk)
    · by_cases ej : j = i
      · subst ej
        rw [hblock, hit t hj, hdisk]
      · have hj' := (hholds j t ej).mp hj
        rw [hkeep j t ej hj', htab j ej]
        exact hd.clean hj' (by rwa [← htab j ej])
    · by_cases ej : j = i
      · subst ej; rw [hi.1] at ho; cases ho
      · rw [htab j ej] at ho ⊢; exact hd.idle ho
    · rw [hsize, h.size]
      rcases hres t ht with ht | rfl
      · exact hd.valid ht
      · exact hlt
  refine ⟨hsize.trans h.size, hok, fun t _ => ?_, fun t ht _ => ?_, hres, ?_, fun e he => ?_⟩
  · by_cases e : t = s
    · subst e
      rw [hok.logical_of_holds hi, hblock, ← hdisk, hds, Device.logical_of_not_resident hs]
    · by_cases hr : d.Resident t
      · obtain ⟨j, hj⟩ := hr
        rw [hd.logical_of_holds hj]
        by_cases ej : j = i
        · subst ej
          have hnr : ¬ d'.Resident t := by
            rintro ⟨k, hk⟩
            by_cases ek : k = j
            · exact e (hit t (ek ▸ hk))
            · exact ek (hd.unique ((hholds k t ek).mp hk) hj)
          rw [Device.logical_of_not_resident hnr, hdisk']
          by_cases hdy : (d.cache_table j).dirty = true
          · rw [if_pos ⟨hj, hdy⟩]
          · rw [if_neg fun h => hdy h.2]
            exact (hd.clean hj (by simpa using hdy)).symm
        · rw [hok.logical_of_holds ((hholds j t ej).mpr hj), htab j ej]
      · have hnr : ¬ d'.Resident t := fun h => (hres t h).elim hr e
        rw [Device.logical_of_not_resident hnr, Device.logical_of_not_resident hr, hdisk',
          if_neg fun h => hr ⟨i, h.1⟩]
  · rw [hdisk', if_neg fun h => ht ⟨i, h⟩]
  · rintro t ⟨j, hj, hdy⟩
    by_cases ej : j = i
    · subst ej; rw [hclean] at hdy; cases hdy
    · exact .inl ⟨j, (hholds j t ej).mp hj, by rwa [← htab j ej]⟩
  · rcases List.mem_append.mp he with he | he
    · exact h.events e he
    · rw [List.mem_singleton.mp he]
      trivial

/-! ### Slots that keep their sector -/

section Keep

variable {d : Device} {i : Fin CACHE_SIZE} {s : Sector} {e : CacheEntry}

theorem Device.holds_setSlot_iff (hi : d.Holds i s) (ho : e.occupied = true)
    (hs : e.disk_sector = s) (j : Fin CACHE_SIZE) (t : Sector) :
    (d.setSlot i e).Holds j t ↔ d.Holds j t := by
  by_cases ej : j = i
  · subst ej
    simp only [Holds, setSlot_self, ho, hs, hi.1, hi.2]
  · simp only [Holds, setSlot_other ej]

/-- A slot rewritten for the sector it holds. -/
theorem CacheOk.setSlot (hd : CacheOk d) (hi : d.Holds i s) (ho : e.occupied = true)
    (hs : e.disk_sector = s) (hc : e.dirty = false → e.block = d.disk s) :
    CacheOk (d.setSlot i e) := by
  have hiff := Device.holds_setSlot_iff hi ho hs
  refine ⟨fun hj hk => hd.unique ((hiff _ _).mp hj) ((hiff _ _).mp hk), fun {j t} hj hcl => ?_,
    fun {j} hocc => ?_, fun {t} ht => hd.valid (ht.imp fun j h => (hiff j t).mp h)⟩
  · by_cases ej : j = i
    · subst ej
      rw [setSlot_self] at hcl ⊢
      rw [hc hcl, ← hi.2, ((hiff j t).mp hj).2]
      rfl
    · rw [setSlot_other ej] at hcl ⊢
      exact hd.clean ((hiff j t).mp hj) hcl
  · by_cases ej : j = i
    · subst ej; rw [setSlot_self, ho] at hocc; cases hocc
    · rw [setSlot_other ej] at hocc ⊢; exact hd.idle hocc

theorem CacheOk.logical_setSlot (hd : CacheOk d) (hi : d.Holds i s) (ho : e.occupied = true)
    (hs : e.disk_sector = s) (hc : e.dirty = false → e.block = d.disk s) (t : Sector) :
    (d.setSlot i e).logical t = if t = s then e.block else d.logical t := by
  have hok := hd.setSlot hi ho hs hc
  have hiff := Device.holds_setSlot_iff hi ho hs
  split
  · rename_i h
    rw [h, hok.logical_of_holds ((hiff i s).mpr hi), setSlot_self]
  · rename_i hne
    by_cases hr : d.Resident t
    · obtain ⟨j, hj⟩ := hr
      have ej : j ≠ i := fun e => hne (hj.2.symm.trans (e ▸ hi.2))
      rw [hok.logical_of_holds ((hiff j t).mpr hj), hd.logical_of_holds hj, setSlot_other ej]
    · rw [Device.logical_of_not_resident hr, Device.logical_of_not_resident
        fun h => hr (h.imp fun j h => (hiff j t).mp h)]
      rfl

/-- The slot of `s` rewritten, by a `put` into it or by nothing at all. -/
theorem CacheOk.access_setSlot {W : Sector → Prop} {es : List Event} (hd : CacheOk d)
    (hi : d.Holds i s) (ho : e.occupied = true) (hs : e.disk_sector = s)
    (hW : ¬ W s → e.dirty = (d.cache_table i).dirty ∧ e.block = (d.cache_table i).block)
    (hc : W s → e.dirty = true) (hes : es = [] ∨ ∃ ofs n, es = [.put s ofs n]) :
    Access (fun _ => False) W es d (d.setSlot i e) := by
  have hiff := Device.holds_setSlot_iff hi ho hs
  have hc' : e.dirty = false → e.block = d.disk s := fun h => by
    by_cases hw : W s
    · rw [hc hw] at h; cases h
    · rw [(hW hw).2]; exact hd.clean hi ((hW hw).1 ▸ h)
  have hres : ∀ t, (d.setSlot i e).Resident t → d.Resident t :=
    fun t h => h.imp fun j h => (hiff j t).mp h
  refine ⟨rfl, hd.setSlot hi ho hs hc', fun t ht => ?_, fun _ _ _ => rfl,
    fun t h => .inl (hres t h), fun t ht => ?_, fun e he => ?_⟩
  · rw [hd.logical_setSlot hi ho hs hc']
    split
    · rename_i h
      subst h
      rw [(hW ht).2, hd.logical_of_holds hi]
    · rfl
  · obtain ⟨j, hj, hdy⟩ := ht
    have hj' := (hiff j t).mp hj
    by_cases hw : W t
    · exact .inr hw
    · refine .inl ⟨j, hj', ?_⟩
      by_cases ej : j = i
      · subst ej
        rw [setSlot_self] at hdy
        have : s = t := hi.2.symm.trans hj'.2
        rwa [← (hW (this ▸ hw)).1]
      · rwa [setSlot_other ej] at hdy
  · rcases hes with rfl | ⟨ofs, n, rfl⟩
    · cases he
    · rw [List.mem_singleton.mp he]
      trivial

end Keep

section Runs

variable {ok : Event → Prop} {d : Device} {s : Sector}

theorem cache_bring_runs {f : Bool → Bool} (hf : f false = false) (hd : CacheOk d)
    (hs : s < d.size) (hev : EvictsInTable ok) :
    (cache_bring s f).Runs ok d fun es i d' =>
      Access (· = s) (fun _ => False) es d d' ∧ d'.Holds i s := by
  refine .get_bind ?_
  cases hl : cache_lookup d s with
  | some i => exact .pure ⟨.refl hd, cache_lookup_holds hl⟩
  | none =>
    have hnr := cache_lookup_eq_none.mp hl
    refine .bind (cache_evict_runs hd hev) fun es i d₁ _ hv => ?_
    refine .modify_bind (block_read_bind (by simpa [hv.size] using hs) ?_)
    refine .emit_bind fun _ => .modify_bind (.pure ?_)
    refine ⟨hv.load hd hnr hs rfl rfl (fun j hj => ?_) ?_ ?_ ?_, ?_⟩
    · rw [setSlot_other hj, setSlot_other hj]
    all_goals simp [Holds, hv.idle, hf]

/-- `cache_read` returns the logical contents and leaves them as they were. -/
theorem cache_read_runs {ofs size : Nat} (hd : CacheOk d) (hs : s < d.size)
    (hle : ofs + size ≤ 512) (hev : EvictsInTable ok) :
    (cache_read s ofs size).Runs ok d fun es bytes d' =>
      bytes = (d.logical s).read ofs size ∧ Access (· = s) (fun _ => False) es d d' := by
  refine .bind (cache_bring_runs rfl hd hs hev) fun es i d₁ _ ⟨ha, hi⟩ => ?_
  rw [if_neg (by omega)]
  refine .modify_bind (.get_bind (.pure ⟨?_, ?_⟩))
  · rw [setSlot_self, ← ha.logical_eq s id, ha.ok.logical_of_holds hi]
  · refine ha.trans (.mono (R := fun _ => False) (W := fun _ => False)
      (ha.ok.access_setSlot hi ?_ ?_ ?_ False.elim (.inl rfl)) (fun _ => False.elim) fun _ => id)
    · exact hi.1
    · exact hi.2
    · exact fun _ => ⟨rfl, rfl⟩

/-- `cache_write` writes into the logical contents of one sector. -/
theorem cache_write_runs {ofs : Nat} {src : List UInt8} (hd : CacheOk d) (hs : s < d.size)
    (hle : ofs + src.length ≤ 512) (hev : EvictsInTable ok) :
    (cache_write s src ofs).Runs ok d fun es _ d' =>
      d'.logical s = (d.logical s).write ofs src ∧ Access (· = s) (· = s) es d d' := by
  refine .bind (cache_bring_runs rfl hd hs hev) fun es i d₁ _ ⟨ha, hi⟩ => ?_
  rw [if_neg (by omega)]
  refine .emit_bind fun _ => .modify ⟨?_, ?_⟩
  · rw [ha.ok.logical_setSlot hi (by exact hi.1) (by exact hi.2) (by simp), if_pos rfl, ← ha.logical_eq s id,
      ha.ok.logical_of_holds hi]
  · refine (ha.mono (fun _ => id) fun _ => False.elim).trans
      (.mono (R := fun _ => False) (W := (· = s)) (ha.ok.access_setSlot hi ?_ ?_
        (fun h => absurd rfl h) (fun _ => ?_) (.inr ⟨ofs, _, rfl⟩)) (fun _ => False.elim)
        fun _ => id)
    · exact hi.1
    · exact hi.2
    · rfl

end Runs

/-! ### Write-back -/

section Writeback

variable {d : Device} {i : Fin CACHE_SIZE} {s : Sector}

/-- A dirty slot written to its sector is clean. -/
theorem CacheOk.access_flush (hd : CacheOk d) (hi : d.Holds i s) :
    Access (fun _ => False) (fun _ => False) [.write .cache s] d
      (({ d with disk := update d.disk s (d.cache_table i).block } : Device).setSlot i
        { d.cache_table i with dirty := false }) := by
  set d' := ({ d with disk := update d.disk s (d.cache_table i).block } : Device).setSlot i
    { d.cache_table i with dirty := false } with hd'
  have hiff : ∀ j t, d'.Holds j t ↔ d.Holds j t := fun j t => by
    by_cases ej : j = i
    · subst ej; simp only [Holds, hd', setSlot_self]
    · simp only [Holds, hd', setSlot_other ej]
  have hblock : ∀ j, (d'.cache_table j).block = (d.cache_table j).block := fun j => by
    by_cases ej : j = i
    · subst ej; rw [hd', setSlot_self]
    · rw [hd', setSlot_other ej]
  have hdirty : ∀ j, (d'.cache_table j).dirty = true → (d.cache_table j).dirty = true ∧ j ≠ i :=
    fun j h => by
      by_cases ej : j = i
      · subst ej; rw [hd', setSlot_self] at h; cases h
      · rw [hd', setSlot_other ej] at h; exact ⟨h, ej⟩
  have hdisk : ∀ t, d'.disk t = if t = s then (d.cache_table i).block else d.disk t :=
    fun t => update_apply ..
  have hres : ∀ t, d'.Resident t → d.Resident t := fun t h => h.imp fun j h => (hiff j t).mp h
  have hok : CacheOk d' := by
    refine ⟨fun hj hk => hd.unique ((hiff _ _).mp hj) ((hiff _ _).mp hk), fun {j t} hj hc => ?_,
      fun {j} ho => ?_, fun {t} ht => hd.valid (hres t ht)⟩
    · rw [hblock, hdisk]
      have hj' := (hiff j t).mp hj
      split
      · rename_i e
        subst e
        rw [hd.unique hj' hi]
      · rename_i hne
        have ej : j ≠ i := fun e => hne (hj'.2.symm.trans (e ▸ hi.2))
        refine hd.clean hj' ?_
        rwa [hd', setSlot_other ej] at hc
    · by_cases ej : j = i
      · subst ej; rw [hd', setSlot_self]
      · rw [hd', setSlot_other ej] at ho ⊢; exact hd.idle ho
  refine ⟨rfl, hok, fun t _ => ?_, fun t ht _ => ?_, fun t h => .inl (hres t h), fun t ht => ?_,
    by simp [Event.OfCache]⟩
  · by_cases hr : d.Resident t
    · obtain ⟨j, hj⟩ := hr
      rw [hd.logical_of_holds hj, hok.logical_of_holds ((hiff j t).mpr hj), hblock]
    · have hne : t ≠ s := fun e => hr (e ▸ ⟨i, hi⟩)
      rw [Device.logical_of_not_resident hr, Device.logical_of_not_resident fun h => hr (hres t h),
        hdisk, if_neg hne]
  · rw [hdisk]
    split
    · rename_i e
      subst e
      exact hd.clean hi (by simpa using fun h => ht ⟨i, hi, h⟩)
    · rfl
  · obtain ⟨j, hj, h⟩ := ht
    exact .inl ⟨j, (hiff j t).mp hj, (hdirty j h).1⟩

/-- A slot that is not dirty may be dropped. -/
theorem CacheOk.access_reset (hd : CacheOk d) (hi : (d.cache_table i).dirty = false) :
    Access (fun _ => False) (fun _ => False) [] d (d.setSlot i (d.cache_table i).reset) := by
  set d' := d.setSlot i (d.cache_table i).reset with hd'
  have hholds : ∀ j t, d'.Holds j t → d.Holds j t ∧ j ≠ i := fun j t h => by
    by_cases ej : j = i
    · subst ej
      have := h.1
      rw [hd', setSlot_self] at this
      cases this
    · rw [Holds, hd', setSlot_other ej] at h; exact ⟨h, ej⟩
  have hres : ∀ t, d'.Resident t → d.Resident t := fun t h => h.imp fun j h => (hholds j t h).1
  have hok : CacheOk d' := by
    refine ⟨fun hj hk => hd.unique (hholds _ _ hj).1 (hholds _ _ hk).1, fun {j t} hj hc => ?_,
      fun {j} ho => ?_, fun {t} ht => hd.valid (hres t ht)⟩
    · obtain ⟨hj', ej⟩ := hholds j t hj
      rw [hd', setSlot_other ej] at hc ⊢
      exact hd.clean hj' hc
    · by_cases ej : j = i
      · subst ej; rw [hd', setSlot_self]; rfl
      · rw [hd', setSlot_other ej] at ho ⊢; exact hd.idle ho
  refine ⟨rfl, hok, fun t _ => ?_, fun _ _ _ => rfl, fun t h => .inl (hres t h), fun t ht => ?_,
    by simp⟩
  · by_cases hr : d.Resident t
    · obtain ⟨j, hj⟩ := hr
      by_cases ej : j = i
      · subst ej
        have hnr : ¬ d'.Resident t := by
          rintro ⟨k, hk⟩
          obtain ⟨hk', ek⟩ := hholds k t hk
          exact ek (hd.unique hk' hj)
        rw [Device.logical_of_not_resident hnr, hd.logical_of_holds hj]
        exact (hd.clean hj hi).symm
      · have hj' : d'.Holds j t := by rw [Holds, hd', setSlot_other ej]; exact hj
        rw [hok.logical_of_holds hj', hd.logical_of_holds hj, hd', setSlot_other ej]
    · rw [Device.logical_of_not_resident hr, Device.logical_of_not_resident fun h => hr (hres t h)]
      rfl
  · obtain ⟨j, hj, h⟩ := ht
    obtain ⟨hj', ej⟩ := hholds j t hj
    rw [hd', setSlot_other ej] at h
    exact .inl ⟨j, hj', h⟩

variable {ok : Event → Prop} {last : Bool}

theorem cache_writeback_slot_runs (hd : CacheOk d) :
    (cache_writeback_slot last i).Runs ok d fun es _ d' =>
      Access (fun _ => False) (fun _ => False) es d d' ∧ (d'.cache_table i).dirty = false ∧
      (last = true → (d'.cache_table i).occupied = false) ∧
      ∀ j, j ≠ i → d'.cache_table j = d.cache_table j := by
  refine .get_bind (.bind (Q := fun es _ d' => Access (fun _ => False)
    (fun _ => False) es d (d'.setSlot i { d.cache_table i with dirty := false }) ∧
    d'.cache_table = d.cache_table) ?_ fun es _ d₁ _ ⟨ha, ht⟩ => ?_)
  · cases ho : (d.cache_table i).occupied && (d.cache_table i).dirty with
    | false =>
      refine .pure ⟨?_, rfl⟩
      have hdy : (d.cache_table i).dirty = false := by
        by_cases h : (d.cache_table i).occupied = true
        · simpa [h] using ho
        · exact hd.idle (by simpa using h)
      have he : d.setSlot i { d.cache_table i with dirty := false } = d := by
        rw [← hdy]
        simp [Device.setSlot]
      rw [he]
      exact .refl hd
    | true =>
      have hi : d.Holds i (d.cache_table i).disk_sector := ⟨(Bool.and_eq_true_iff.mp ho).1, rfl⟩
      intro _
      rw [cache_flush_run (hd.valid ⟨i, hi⟩)]
      exact ⟨_, _, rfl, hd.access_flush hi, rfl⟩
  · have hslot : ∀ j, j ≠ i → d₁.cache_table j = d.cache_table j := fun j _ => by rw [ht]
    have hcl : (if (d.cache_table i).occupied && (d.cache_table i).dirty then false
        else (d.cache_table i).dirty) = false := by
      cases ho : (d.cache_table i).occupied with
      | false => simpa using hd.idle ho
      | true => cases (d.cache_table i).dirty <;> rfl
    refine .modify_bind (.modify ?_)
    simp only [hcl]
    cases last with
    | false =>
      refine ⟨by simpa using ha, by simp, by simp, fun j hj => ?_⟩
      rw [if_neg (by simp), setSlot_other hj, hslot j hj]
    | true =>
      refine ⟨?_, by simp [CacheEntry.reset], by simp [CacheEntry.reset], fun j hj => ?_⟩
      · have := ha.trans (ha.ok.access_reset (i := i) (by rw [setSlot_self]))
        simpa using this
      · rw [if_pos rfl, setSlot_other hj, setSlot_other hj, hslot j hj]

/-- The loop of `cache_writeback`, over any list of slots. -/
theorem cache_writeback_loop_runs (l : List (Fin CACHE_SIZE)) (hd : CacheOk d) :
    (l.forM (cache_writeback_slot last)).Runs ok d fun es _ d' =>
      Access (fun _ => False) (fun _ => False) es d d' ∧
      ∀ j, (j ∈ l → (d'.cache_table j).dirty = false ∧
        (last = true → (d'.cache_table j).occupied = false)) ∧
        (j ∉ l → d'.cache_table j = d.cache_table j) := by
  induction l generalizing d with
  | nil => exact .pure ⟨.refl hd, by simp⟩
  | cons i l ih =>
    show (cache_writeback_slot last i >>= fun _ => l.forM (cache_writeback_slot last)).Runs ok d _
    refine .bind (cache_writeback_slot_runs hd) fun es _ d₁ _ ⟨ha, hc, hl, ho⟩ => ?_
    refine (ih ha.ok).mono fun es' _ d₂ _ ⟨ha', hj⟩ => ⟨ha.trans ha', fun j => ⟨fun hm => ?_,
      fun hm => ?_⟩⟩
    · by_cases hjl : j ∈ l
      · exact (hj j).1 hjl
      · obtain rfl : j = i := (List.mem_cons.mp hm).resolve_right hjl
        rw [(hj j).2 hjl]
        exact ⟨hc, hl⟩
    · rw [List.mem_cons, not_or] at hm
      rw [(hj j).2 hm.2, ho j hm.1]

/-- After a write-back the disk is what a reader through the cache saw. -/
theorem cache_writeback_runs (hd : CacheOk d) : (cache_writeback last).Runs ok d fun es _ d' =>
      Access (fun _ => False) (fun _ => False) es d d' ∧ (∀ t, ¬ d'.Dirty t) ∧
      (last = true → ∀ t, ¬ d'.Resident t) ∧ ∀ t, d'.disk t = d.logical t := by
  refine (cache_writeback_loop_runs _ hd).mono fun es _ d' _ ⟨ha, hj⟩ => ?_
  have hclean : ∀ t, ¬ d'.Dirty t := by
    rintro t ⟨j, -, hdy⟩
    rw [((hj j).1 (mem_finRange j)).1] at hdy
    cases hdy
  refine ⟨ha, hclean, ?_, fun t => ?_⟩
  · rintro hl t ⟨j, ho, -⟩
    rw [((hj j).1 (mem_finRange j)).2 hl] at ho
    cases ho
  · rw [← ha.ok.logical_of_not_dirty (hclean t), ha.logical_eq t id]

end Writeback

end Pintos
