import Pintos.Filesys.Growth

/-!
# Filesys — what growing touches

`Takes F A W es k k'` says what a stretch of `inode_grow` can do: it takes the sectors `A` from the
free map in turn, writes directly only sectors of `A` and `W`, and otherwise only lets the free
map's file, on the sectors `F`, go through the cache.  A sector that is `Quiet` (in use, not of
that file, not in the cache) keeps its contents: no eviction reaches it.

`Calm` is what growing relies on: the free map is sound, and no free sector is handed out while a
slot still holds it, either because there is none or because the run leaves that event out.
`Supplied ok n k` says the same of failed allocations: `n` sectors are free, or the run leaves out
that an allocation fails.
-/

namespace Pintos
open Support Function

/-- In use, not of the free map's file, and not in the cache. -/
structure Quiet (F : Sector → Prop) (k : Fs) (t : Sector) : Prop where
  used : ¬ k.dev.free_map.Free t
  other : ¬ F t
  absent : ¬ k.dev.device.Resident t

structure Takes (F : Sector → Prop) (A : List Sector) (W : Sector → Prop) (es : List Event)
    (k k' : Fs) : Prop where
  mem : k'.mem = k.mem
  next : k'.next = k.next
  open_inodes : k'.open_inodes = k.open_inodes
  file : k'.dev.free_map_file = k.dev.free_map_file
  size : k'.dev.device.size = k.dev.device.size
  map : k.dev.free_map.Takes A k'.dev.free_map
  cache : CacheOk k'.dev.device
  logical : ∀ t, t ∉ A → ¬ W t → ¬ F t → k'.dev.device.logical t = k.dev.device.logical t
  disk : ∀ t, ¬ k.dev.device.Dirty t → t ∉ A → ¬ W t → ¬ F t →
    k'.dev.device.disk t = k.dev.device.disk t
  resident : ∀ t, k'.dev.device.Resident t → k.dev.device.Resident t ∨ F t
  dirty : ∀ t, k'.dev.device.Dirty t → k.dev.device.Dirty t ∨ F t
  writes : ∀ t, .write .inode t ∈ es → t ∈ A ∨ W t

/-- The free map is sound, and a free sector that a slot holds is not handed out. -/
structure Calm (ok : Event → Prop) (F X : Sector → Prop) (k : Fs) : Prop extends
    FreeMapOk F X k where
  evict : k.dev.free_map_file = none ∨ EvictsInTable ok
  stale : ∀ t, k.dev.free_map.Free t → k.dev.device.Resident t → ¬ ok (.allocate (some t) true)

/-- If an allocation may fail, `n` sectors are free. -/
def Supplied (ok : Event → Prop) (n : Nat) (k : Fs) : Prop :=
  ok (.allocate none false) → n ≤ k.dev.free_map.room

section Frame

variable {n n' : Nat} {ok : Event → Prop} {F X W W' : Sector → Prop} {A A' : List Sector}
  {es es' : List Event} {k k' k'' : Fs} {t : Sector}

theorem Takes.refl (h : CacheOk k.dev.device) : Takes F [] W [] k k :=
  ⟨rfl, rfl, rfl, rfl, rfl, rfl, h, fun _ _ _ _ => rfl, fun _ _ _ _ _ => rfl, fun _ => .inl,
    fun _ => .inl, by simp⟩

section

variable (h : Takes F A W es k k')
include h

theorem Takes.trans (h' : Takes F A' W' es' k' k'') (hW : ∀ t, W' t → W t ∨ t ∈ A) :
    Takes F (A ++ A') W (es ++ es') k k'' where
  mem := h'.mem.trans h.mem
  next := h'.next.trans h.next
  open_inodes := h'.open_inodes.trans h.open_inodes
  file := h'.file.trans h.file
  size := h'.size.trans h.size
  map := h.map.append h'.map
  cache := h'.cache
  logical t hA hw hF := by
    rw [List.mem_append, not_or] at hA
    rw [h'.logical t hA.2 (fun h => (hW t h).elim hw hA.1) hF, h.logical t hA.1 hw hF]
  disk t hd hA hw hF := by
    rw [List.mem_append, not_or] at hA
    rw [h'.disk t (fun hd' => (h.dirty t hd').elim hd hF) hA.2
      (fun h => (hW t h).elim hw hA.1) hF, h.disk t hd hA.1 hw hF]
  resident t ht := (h'.resident t ht).elim (h.resident t) .inr
  dirty t ht := (h'.dirty t ht).elim (h.dirty t) .inr
  writes t ht := by
    rcases List.mem_append.mp ht with ht | ht
    · exact (h.writes t ht).imp_left (List.mem_append_left _)
    · rcases h'.writes t ht with ht | ht
      · exact .inl (List.mem_append_right _ ht)
      · exact (hW t ht).symm.imp_left (List.mem_append_left _)

theorem Takes.mono (hW : ∀ t, W t → W' t) : Takes F A W' es k k' :=
  { h with
    logical := fun t hA hw => h.logical t hA fun hw' => hw (hW t hw')
    disk := fun t hd hA hw => h.disk t hd hA fun hw' => hw (hW t hw')
    writes := fun t ht => (h.writes t ht).imp_right (hW t) }

theorem Takes.not_free (ht : ¬ k.dev.free_map.Free t) :
    ¬ k'.dev.free_map.Free t := fun hf => ht ((h.map.free t).mp hf).1

/-- A quiet sector stays quiet. -/
theorem Takes.quiet (ht : Quiet F k t) : Quiet F k' t :=
  ⟨h.not_free ht.used, ht.other, fun hr => (h.resident t hr).elim ht.absent ht.other⟩

/-- A quiet sector keeps its contents. -/
theorem Takes.disk_quiet (ht : Quiet F k t) (hw : ¬ W t) :
    k'.dev.device.disk t = k.dev.device.disk t :=
  h.disk t (fun hd => ht.absent hd.resident) (fun hA => ht.used (h.map.mem_free hA)) hw ht.other

end

theorem Supplied.mono (h : Supplied ok n k) (hn : n' ≤ n) : Supplied ok n' k :=
  fun he => hn.trans (h he)

/-- What is left when sectors have been taken. -/
theorem Takes.supplied {m : Nat} (h : Takes F A W es k k') (hr : Supplied ok n k)
    (hn : m + A.length ≤ n) : Supplied ok m k' := fun he => by
  have hroom := h.map.room
  have hm := hr he
  omega

/-- A direct write of a sector that no slot holds. -/
theorem takes_write (h : CacheOk k.dev.device) (ht : ¬ k.dev.device.Resident t) (b : Block) :
    Takes F [] (· = t) [.write .inode t] k (k.setDevice
      { k.dev.device with disk := update k.dev.device.disk t b }) := by
  have hne : ∀ {i s}, k.dev.device.Holds i s → s ≠ t := fun hi e => ht ⟨_, e ▸ hi⟩
  refine ⟨rfl, rfl, rfl, rfl, rfl, rfl, ⟨h.unique, fun {i s} hi hc => ?_, h.idle, h.valid⟩,
    fun u _ hu _ => Device.logical_update hu b, fun u _ _ hu _ => update_of_ne hu ..,
    fun _ => .inl, fun _ => .inl, by simp⟩
  exact (h.clean hi hc).trans (update_of_ne (hne hi) ..).symm

/-- Taking sectors and writing none of the free map's keeps it sound. -/
theorem Takes.calm (h : Takes F A W es k k') (hk : Calm ok F X k)
    (hW : ∀ t, W t → ¬ X t) : Calm ok F X k' where
  cache := h.cache
  width := h.map.bit_cnt.trans (hk.width.trans h.size.symm)
  small := le_of_eq_of_le h.size hk.small
  file p hp := by
    rw [h.file] at hp
    obtain ⟨i, hi, hdeny, hlen, hd, hF, hX⟩ := hk.file p hp
    have hkeep : ∀ t, X t → k'.dev.device.disk t = k.dev.device.disk t := fun t ht =>
      h.disk t (hd.quiet t ((hX t).mpr ht))
        (fun hA => hk.used t (.inr ht) (h.map.mem_free hA)) (fun hw => hW t hw ht)
        (hk.toFreeMapOk.apart hp ht)
    have hag : Agree k.dev.device.disk i.data k'.dev.device.disk i.data
        ((i.data.length + 511) / 512) :=
      Agree.of_index (fun _ _ => rfl) fun t ht => hkeep t ((hX t).mp ht)
    refine ⟨i, by rw [h.mem]; exact hi, hdeny, ?_, ⟨h.cache, ?_, fun t ht hdy => ?_⟩, ?_, ?_⟩
    · rw [bitmap_file_size, h.map.bit_cnt]
      exact hlen
    · rw [h.size]
      exact hd.laid.congr hag rfl rfl rfl
    · rw [hag.indexSectors_eq] at ht
      rcases h.dirty t hdy with hdy | hf
      · exact hd.quiet t ht hdy
      · exact hk.toFreeMapOk.apart hp ((hX t).mp ht) hf
    · rw [hag.dataSectors_eq]
      exact hF
    · rw [hag.indexSectors_eq]
      exact hX
  used t ht hf := hk.used t ht ((h.map.free t).mp hf).1
  evict := by rw [h.file]; exact hk.evict
  stale t hf hr := by
    have hf' := ((h.map.free t).mp hf).1
    refine hk.stale t hf' ((h.resident t hr).resolve_right fun hF => ?_)
    exact hk.used t (.inl hF) hf'

/-- An allocation takes one sector and leaves it quiet. -/
theorem allocate_takes (h : Calm ok F X k) (hr : Supplied ok 1 k) :
    (free_map_allocate 1).Runs ok k fun es r k' => ∃ t, r = some t ∧
      Takes F [t] (fun _ => False) es k k' ∧ Quiet F k' t ∧ t < k.dev.device.size := by
  refine (free_map_allocate_runs h.toFreeMapOk h.evict hr).mono
    fun es r k' _ ⟨t, dev, es₁, hr, hes, hs, hk', ha, hok, _⟩ => ⟨t, hr, ?_⟩
  have hfree := bitmap_scan_free hs
  have hF : ¬ F t := fun hF => h.used t (.inl hF) hfree
  subst hk' hes
  refine ⟨⟨rfl, rfl, rfl, rfl, ha.size_eq, ⟨hs, rfl⟩, ha.ok, fun u _ _ hu => ha.logical_eq u hu,
    fun u hd _ _ hu => ha.disk_eq u hd hu, ha.resident, ha.dirty, fun u hu => ?_⟩,
    ⟨fun hf => (free_set_true.mp hf).2 rfl, hF, fun hr => ?_⟩, ?_⟩
  · rcases List.mem_append.mp hu with hu | hu
    · exact (ha.events _ hu).elim
    · simp at hu
  · have hl : (cache_lookup dev t).isSome = true := by
      cases hl : cache_lookup dev t with
      | none => exact absurd hr (cache_lookup_eq_none.mp hl)
      | some _ => rfl
    rw [hl] at hok
    exact h.stale t hfree ((ha.resident t hr).resolve_right hF) hok
  · rw [← h.width]
    exact hfree.1

theorem uninit_takes (h : CacheOk k.dev.device) :
    uninit.Runs ok k fun es _ k' => Takes F [] (fun _ => False) es k k' ∧
      k'.dev.device = k.dev.device ∧ k'.dev.free_map = k.dev.free_map := by
  refine Machine.Runs.get_bind (Machine.Runs.modify_bind (Machine.Runs.pure ⟨?_, rfl, rfl⟩))
  exact ⟨rfl, rfl, rfl, rfl, rfl, rfl, h, fun _ _ _ _ => rfl, fun _ _ _ _ _ => rfl,
    fun _ => .inl, fun _ => .inl, by simp⟩

/-- A direct write of a quiet sector. -/
theorem write_takes {b : Block} (h : CacheOk k.dev.device) (ht : Quiet F k t)
    (hs : t < k.dev.device.size) :
    (onDevice (block_write .inode t b)).Runs ok k fun es _ k' =>
      Takes F [] (· = t) es k k' ∧ k'.dev.device.disk = update k.dev.device.disk t b := by
  refine (onDevice_runs (Q := fun es _ d => es = [.write .inode t] ∧
    d = { k.dev.device with disk := update k.dev.device.disk t b })
    (fun _ => ?_)).mono ?_
  · rw [block_write_run hs]
    exact ⟨(), _, rfl, rfl, rfl⟩
  · rintro es _ k' - ⟨d, rfl, rfl, rfl⟩
    exact ⟨takes_write h ht.absent b, rfl⟩

/-- A read of an index block. -/
theorem onDevice_read_bind {α : Type} {c : Block → Machine Event Fs α}
    {P : List Event → α → Fs → Prop} (hs : t < k.dev.device.size)
    (h : (c (k.dev.device.disk t)).Runs ok k P) :
    (onDevice (block_read t) >>= c).Runs ok k P :=
  Machine.Runs.silent_bind (onDevice_run (block_read_run hs)) h

end Frame

end Pintos
