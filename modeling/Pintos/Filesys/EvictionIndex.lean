import Pintos.Filesys.CacheRefinement

/-!
# Filesys — the slot an eviction names

`round_robin_idx` is an `int` that `cache_evict` only increments, and the slot is its signed
remainder by 64.  The eviction number `k` of a run sees the index `wrap32 k` (`Ticks.mem_iff`).  So
the slots lie in the table up to the eviction number `2 ^ 31`, whose index is the least `int` and a
multiple of 64, and the next eviction names the slot `-63` (`evictions_in_table_iff`).

The next eviction is reached (`eviction_outside`): a device with more sectors than the table has
slots always has a sector to miss (`exists_absent`), so reads fill the table and then evict, each
time moving the index by one (`Overruns`).
-/

namespace Pintos
open Support List
open CacheCall (performAll)

/-! ### The indices of a run -/

theorem evictions_evict (r : Int) (es : List Event) :
    evictions (.evict r :: es) = evictions es + 1 := by
  simp [evictions]

theorem evictions_other {e : Event} (h : ∀ i, e ≠ .evict i) (es : List Event) :
    evictions (e :: es) = evictions es := by
  cases e <;> first | exact absurd rfl (h _) | simp [evictions]

variable {es : List Event} {d : Device} {s : Sector} {i : Fin CACHE_SIZE}

/-- The indices of the evictions, in order. -/
theorem Ticks.mem_iff {r r' : Int} (h : Ticks r es r') (i : Int) :
    .evict i ∈ es ↔ ∃ k : Nat, 1 ≤ k ∧ k ≤ evictions es ∧ i = wrap32 (r + k) := by
  induction h with
  | nil r =>
    refine ⟨nofun, ?_⟩
    rintro ⟨k, hk, hle, -⟩
    exact absurd (hk.trans hle) (by decide)
  | @evict r r' es _ ih =>
    rw [List.mem_cons, ih, evictions_evict]
    constructor
    · rintro (h | ⟨k, -, hle, rfl⟩)
      · exact ⟨1, le_rfl, Nat.le_add_left .., Event.evict.inj h⟩
      · refine ⟨k + 1, Nat.le_add_left .., Nat.succ_le_succ hle, ?_⟩
        rw [wrap32_wrap32_add]
        congr 1
        push_cast
        ring
    · rintro ⟨k, hk, hle, rfl⟩
      obtain ⟨k, rfl⟩ := Nat.exists_eq_add_of_le' hk
      cases k with
      | zero => exact .inl rfl
      | succ k =>
        refine .inr ⟨k + 1, Nat.le_add_left .., Nat.le_of_succ_le_succ hle, ?_⟩
        rw [wrap32_wrap32_add]
        congr 1
        push_cast
        ring
  | other he _ ih =>
    rw [List.mem_cons, ih, evictions_other he]
    exact or_iff_right fun h => he _ h.symm

/-- Up to the eviction number `2 ^ 31` the remainder is not negative. -/
theorem wrap32_slot {k : Nat} (h : k ≤ 2 ^ 31) :
    0 ≤ (wrap32 k).tmod 64 ∧ (wrap32 k).tmod 64 < 64 := by
  rcases Nat.lt_or_eq_of_le h with hlt | rfl
  · have hk : wrap32 k = k := Int.bmod_eq_of_le (by omega) (by omega)
    rw [hk, Int.tmod_eq_emod_of_nonneg (by omega)]
    omega
  · decide

/-- The next eviction. -/
theorem wrap32_overrun : (wrap32 (2147483649 : Nat)).tmod 64 = -63 := by decide +kernel

theorem Ticks.in_table_iff {r' : Int} {T : List Event} (h : Ticks 0 T r') :
    (∀ r, .evict r ∈ T → 0 ≤ r.tmod 64 ∧ r.tmod 64 < 64) ↔ evictions T ≤ 2 ^ 31 := by
  constructor
  · intro hall
    by_contra hgt
    have hmem : .evict (wrap32 (2147483649 : Nat)) ∈ T :=
      (h.mem_iff _).mpr ⟨2147483649, by omega, by omega, by rw [zero_add]⟩
    have hlast := (hall _ hmem).1
    rw [wrap32_overrun] at hlast
    exact absurd hlast (by decide)
  · intro hle r hr
    obtain ⟨k, -, hk, hr⟩ := (h.mem_iff r).mp hr
    rw [hr, zero_add]
    exact wrap32_slot (hk.trans hle)

/-- **The slots of a run's evictions are in the table exactly as long as there are at most `2 ^ 31`
of them.** -/
theorem evictions_in_table_iff (size : Nat) (disk : Sector → Block) (cs : List CacheCall) :
    (∀ r, .evict r ∈ (performAll cs (cache_init (Device.boot size disk))).1 →
      0 ≤ r.tmod 64 ∧ r.tmod 64 < 64) ↔
    evictions (performAll cs (cache_init (Device.boot size disk))).1 ≤ 2 ^ 31 :=
  (CacheCall.counts_performAll cs (cache_init (Device.boot size disk))).in_table_iff

/-! ### A run that leaves the table -/

/-- Every slot is occupied. -/
def Device.Full (d : Device) : Prop := ∀ i, (d.cache_table i).occupied = true

theorem Device.Full.no_free (h : d.Full) :
    (finRange CACHE_SIZE).find? (fun i => !(d.cache_table i).occupied) = none := by
  simpa [Device.Full] using h

/-- The table cannot hold all sectors of a device that has more of them than slots. -/
theorem exists_absent (h : CACHE_SIZE < d.size) : ∃ s < d.size, ¬ d.Resident s := by
  by_contra hall
  push Not at hall
  choose f hf using fun s : Fin d.size => hall s s.isLt
  have hinj : Function.Injective f := fun s t hst =>
    Fin.ext ((hf s).2.symm.trans (hst ▸ (hf t).2))
  exact absurd (Fintype.card_le_of_injective f hinj) (by simpa using h)

/-- A read that misses: the slot that is made free then holds the sector. -/
theorem cache_read_miss {d d₁ : Device} (hs : ¬ d.Resident s)
    (he : cache_evict d = (es, .done i d₁)) (hlt : s < d₁.size) :
    ∃ e : CacheEntry, e.occupied = true ∧
      cache_read s 0 0 d = (es ++ [.fill s], .done [] (d₁.setSlot i e)) := by
  have hl := cache_lookup_eq_none.mpr hs
  refine ⟨⟨true, (d₁.cache_table i).open_cnt, true, false, d₁.disk s, s⟩, rfl, ?_⟩
  simp [cache_read, cache_bring, Machine.bind_run, hl, he, block_read, hlt, Device.setSlot,
    Bytes.read]

theorem cache_read_keeps {d d' : Device} {out : List UInt8} (hd : CacheOk d) (hs : s < d.size)
    (hrun : cache_read s 0 0 d = (es, .done out d')) (he : ∀ e ∈ es, e.InTable) :
    CacheOk d' ∧ d'.size = d.size := by
  have hread := (cache_read_runs hd hs (Nat.zero_le 512) fun _ h => h).of_done hrun he
  exact ⟨hread.2.ok, hread.2.size_eq⟩

/-- Some reads from `d` lead to an eviction of the slot `-63`. -/
def Overruns (d : Device) : Prop :=
  ∃ cs : List CacheCall, (∀ c ∈ cs, ∃ s < d.size, c = .read s 0 0) ∧
    .evict (-2147483647) ∈ (performAll cs d).1

theorem Overruns.read {d d' : Device} {out : List UInt8} (hs : s < d.size)
    (hrun : cache_read s 0 0 d = (es, .done out d')) (hsize : d'.size = d.size) (h : Overruns d') :
    Overruns d := by
  obtain ⟨cs, hcs, hmem⟩ := h
  refine ⟨.read s 0 0 :: cs, ?_, ?_⟩
  · rw [hsize] at hcs
    exact List.forall_mem_cons.mpr ⟨⟨s, hs, rfl⟩, hcs⟩
  · have hperform : (CacheCall.read s 0 0).perform d = (es, .done out d') := hrun
    rw [performAll, Machine.bind_run_done hperform]
    exact mem_append_right _ (Machine.mem_bind_left hmem)

theorem overruns_last (hsize : CACHE_SIZE < d.size) (hfull : d.Full)
    (hr : d.round_robin_idx = -2147483648) : Overruns d := by
  obtain ⟨s, hs, habsent⟩ := exists_absent hsize
  refine ⟨[.read s 0 0], List.forall_mem_singleton.mpr ⟨s, hs, rfl⟩, ?_⟩
  have hl := cache_lookup_eq_none.mpr habsent
  have hwrap : wrap32 (-2147483647) = -2147483647 := by decide
  have hslot : slotOf (-2147483647) = none := by decide
  simp [performAll, CacheCall.perform, cache_read, cache_bring, hl, cache_evict,
    cache_get_free_entry, hfull.no_free, Machine.bind_run, hr, hwrap, hslot]

/-- A read that evicts. -/
theorem read_evicts (hd : CacheOk d) (hsize : CACHE_SIZE < d.size) (hfull : d.Full)
    (hi : slotOf (wrap32 (d.round_robin_idx + 1)) = some i) :
    ∃ s < d.size, ∃ es d', cache_read s 0 0 d = (es, .done [] d') ∧ CacheOk d' ∧
      d'.size = d.size ∧ d'.Full ∧ d'.round_robin_idx = wrap32 (d.round_robin_idx + 1) := by
  obtain ⟨s, hs, habsent⟩ := exists_absent hsize
  have hevict := cache_evict_of_full hfull.no_free rfl hi (hd.valid ⟨i, hfull i, rfl⟩)
  obtain ⟨e, he, hrun⟩ := cache_read_miss habsent hevict hs
  obtain ⟨hok, hsize'⟩ := cache_read_keeps hd hs hrun
    (by cases (d.cache_table i).dirty <;> simp [Event.InTable, hi])
  refine ⟨s, hs, _, _, hrun, hok, hsize', fun j => ?_, rfl⟩
  by_cases hj : j = i
  · subst hj
    rwa [Device.setSlot_self]
  · rw [Device.setSlot_other hj, Device.setSlot_other hj]
    exact hfull j

/-- From a full table, `n` evictions short of the last index that is not negative. -/
theorem overruns_full (n : Nat) : ∀ {d : Device}, CacheOk d → CACHE_SIZE < d.size → d.Full →
    d.round_robin_idx + n = 2147483647 → 0 ≤ d.round_robin_idx → Overruns d := by
  induction n with
  | zero =>
    intro d hd hsize hfull hr _
    have hwrap : wrap32 (d.round_robin_idx + 1) = -2147483648 := by
      rw [show d.round_robin_idx = 2147483647 by simpa using hr]
      decide
    obtain ⟨s, hs, es, d', hrun, hd', hsize', hfull', hr'⟩ :=
      read_evicts (i := 0) hd hsize hfull (by rw [hwrap]; decide)
    refine .read hs hrun hsize' (overruns_last (hsize' ▸ hsize) hfull' ?_)
    rw [hr', hwrap]
  | succ n ih =>
    intro d hd hsize hfull hr hpos
    have hwrap : wrap32 (d.round_robin_idx + 1) = d.round_robin_idx + 1 :=
      Int.bmod_eq_of_le (by omega) (by omega)
    obtain ⟨i, hi⟩ := slotOf_of_nonneg (i := d.round_robin_idx + 1) (by omega)
    obtain ⟨s, hs, es, d', hrun, hd', hsize', hfull', hr'⟩ :=
      read_evicts hd hsize hfull (hwrap ▸ hi)
    rw [hwrap] at hr'
    refine .read hs hrun hsize' (ih hd' (hsize' ▸ hsize) hfull' ?_ ?_)
    · rw [hr']
      push_cast at hr
      omega
    · omega

/-- The slots that are free. -/
def Device.freeSlots (d : Device) : Finset (Fin CACHE_SIZE) :=
  Finset.univ.filter fun i => (d.cache_table i).occupied = false

/-- A read that takes a free slot. -/
theorem read_fills (hd : CacheOk d) (hsize : CACHE_SIZE < d.size) (hfree : ¬ d.Full) :
    ∃ s < d.size, ∃ es d', cache_read s 0 0 d = (es, .done [] d') ∧ CacheOk d' ∧
      d'.size = d.size ∧ d'.freeSlots.card < d.freeSlots.card ∧
      d'.round_robin_idx = d.round_robin_idx := by
  obtain ⟨s, hs, habsent⟩ := exists_absent hsize
  obtain ⟨i, hf⟩ : ∃ i, (finRange CACHE_SIZE).find?
      (fun i => !(d.cache_table i).occupied) = some i := by
    refine Option.isSome_iff_exists.mp (List.find?_isSome.mpr ?_)
    simpa [Device.Full] using hfree
  have hi : (d.cache_table i).occupied = false := by simpa using find?_some hf
  obtain ⟨e, he, hrun⟩ := cache_read_miss habsent (cache_evict_of_free hf) hs
  obtain ⟨hok, hsize'⟩ := cache_read_keeps hd hs hrun (by simp [Event.InTable])
  refine ⟨s, hs, _, _, hrun, hok, hsize', Finset.card_lt_card ?_, rfl⟩
  refine Finset.ssubset_iff_of_subset (fun j hj => ?_) |>.mpr ⟨i, ?_, ?_⟩
  · rw [Device.freeSlots, Finset.mem_filter] at hj ⊢
    refine ⟨Finset.mem_univ j, ?_⟩
    by_cases hji : j = i
    · rwa [hji]
    · have hoccupied := hj.2
      rwa [Device.setSlot_other hji, Device.setSlot_other hji] at hoccupied
  · exact Finset.mem_filter.mpr ⟨Finset.mem_univ i, hi⟩
  · intro hmem
    have hfalse := (Finset.mem_filter.mp hmem).2
    rw [Device.setSlot_self, he] at hfalse
    cases hfalse

theorem overruns_fill (n : Nat) : ∀ {d : Device}, CacheOk d → CACHE_SIZE < d.size →
    d.freeSlots.card ≤ n → d.round_robin_idx = 0 → Overruns d := by
  induction n with
  | zero =>
    intro d hd hsize hn hr
    refine overruns_full 2147483647 hd hsize (fun i => ?_) (by rw [hr]; rfl) (by rw [hr])
    have hempty : d.freeSlots = ∅ := Finset.card_eq_zero.mp (Nat.le_zero.mp hn)
    have hi : i ∉ d.freeSlots := by rw [hempty]; exact Finset.notMem_empty i
    simpa [Device.freeSlots] using hi
  | succ n ih =>
    intro d hd hsize hn hr
    by_cases hfull : d.Full
    · exact overruns_full 2147483647 hd hsize hfull (by rw [hr]; rfl) (by rw [hr])
    · obtain ⟨s, hs, es, d', hrun, hd', hsize', hcard, hr'⟩ := read_fills hd hsize hfull
      refine .read hs hrun hsize' (ih hd' (hsize' ▸ hsize) ?_ (hr'.trans hr))
      exact Nat.le_of_lt_succ (hcard.trans_le hn)

/-- On a device of 65 sectors, reads of valid sectors lead to an eviction of the slot `-63`. -/
theorem eviction_outside : ∃ cs : List CacheCall, (∀ c ∈ cs, ∃ s < 65, c = .read s 0 0) ∧
    .evict (-2147483647) ∈ (performAll cs
      (cache_init (Device.boot 65 fun _ => Bytes.zero))).1 ∧
    (-2147483647 : Int).tmod 64 = -63 := by
  obtain ⟨cs, hcs, hmem⟩ := overruns_fill _
    (represents_cache_init 65 fun _ => Bytes.zero).ok (by decide) le_rfl rfl
  exact ⟨cs, hcs, hmem, by decide⟩

end Pintos
