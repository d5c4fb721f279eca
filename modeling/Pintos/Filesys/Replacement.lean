import Pintos.Filesys.FileData

/-!
# Filesys — which slots the cache replaces

What `cache_read` and `cache_write` evict is decided by the sectors that the slots hold, by the
dirty bits and by the round-robin index; the bytes play no part.  `Device.table` is that much of
the cache, and `SlotTable.touch` what an access of a sector does to it, so that the evictions of a
list of accesses can be foretold from the table before them: the indices they reach (`reached`) and
the sectors they write back (`flushed`).

`Accesses w ss m d Q`: from `d` the machine `m` accesses the sectors `ss` in turn.  It returns
exactly if the indices all name slots (`Sound`), and then the disk has changed at the sectors
written back only.  Nothing is assumed of the bytes in the slots, so that this holds of a cache
whose slots are stale as well.
-/

namespace Pintos
open Support Function List
open Machine (bind_run)

/-! ### The policy -/

/-- The sector that each slot holds, if any, with its dirty bit, and the index. -/
structure SlotTable where
  slots : Fin CACHE_SIZE → Option (Sector × Bool)
  round_robin_idx : Int

/-- The part of the cache that replacement looks at. -/
def Device.table (d : Device) : SlotTable where
  slots i := if (d.cache_table i).occupied then
    some ((d.cache_table i).disk_sector, (d.cache_table i).dirty) else none
  round_robin_idx := d.round_robin_idx

namespace SlotTable

variable {p : SlotTable} {w : Bool} {s t : Sector} {ss ts : List Sector}

theorem CACHE_SIZE_pos : 0 < CACHE_SIZE := by decide

/-- The slot for `s`: the one that holds it, or a free one, or the next in turn, with the index
then reached. -/
def choose (p : SlotTable) (s : Sector) : Fin CACHE_SIZE × Option Int :=
  match (finRange CACHE_SIZE).find? fun i => (p.slots i).any (decide <| ·.1 = s) with
  | some i => (i, none)
  | none =>
    match (finRange CACHE_SIZE).find? fun i => (p.slots i).isNone with
    | some i => (i, none)
    | none =>
      let r := wrap32 (p.round_robin_idx + 1)
      ((slotOf r).getD ⟨0, CACHE_SIZE_pos⟩, some r)

/-- The sector that an access of `s` writes back, if any. -/
def flushes (p : SlotTable) (s : Sector) : Option Sector :=
  match (p.choose s).2, p.slots (p.choose s).1 with
  | some _, some (t, true) => some t
  | _, _ => none

/-- The table after a read, or a write, of `s`. -/
def touch (w : Bool) (p : SlotTable) (s : Sector) : SlotTable where
  slots := update p.slots (p.choose s).1
    (some (s, w || decide (p.slots (p.choose s).1 = some (s, true))))
  round_robin_idx := (p.choose s).2.getD p.round_robin_idx

/-- The indices that reads, or writes, of the sectors reach. -/
def reached (w : Bool) (p : SlotTable) : List Sector → List Int
  | [] => []
  | s :: ss => (p.choose s).2.toList ++ (p.touch w s).reached w ss

/-- The sectors that they write back. -/
def flushed (w : Bool) (p : SlotTable) : List Sector → List Sector
  | [] => []
  | s :: ss => (p.flushes s).toList ++ (p.touch w s).flushed w ss

/-- Every index names a slot. -/
def Sound (w : Bool) (p : SlotTable) (ss : List Sector) : Prop :=
  ∀ r ∈ p.reached w ss, (slotOf r).isSome = true

instance : Decidable (p.Sound w ss) := inferInstanceAs (Decidable (∀ r ∈ p.reached w ss, _))

theorem reached_append (ss ts : List Sector) :
    p.reached w (ss ++ ts) = p.reached w ss ++ (ss.foldl (touch w) p).reached w ts := by
  induction ss generalizing p with
  | nil => rfl
  | cons s ss ih => simp [reached, ih]

theorem flushed_append (ss ts : List Sector) :
    p.flushed w (ss ++ ts) = p.flushed w ss ++ (ss.foldl (touch w) p).flushed w ts := by
  induction ss generalizing p with
  | nil => rfl
  | cons s ss ih => simp [flushed, ih]

theorem sound_append :
    p.Sound w (ss ++ ts) ↔ p.Sound w ss ∧ (ss.foldl (touch w) p).Sound w ts := by
  simp only [Sound, reached_append, mem_append, or_imp, forall_and]

/-- What is written back was dirty before, or has been written since. -/
theorem dirty_of_flushed (h : t ∈ p.flushed w ss) :
    (∃ i, p.slots i = some (t, true)) ∨ w = true ∧ t ∈ ss := by
  induction ss generalizing p with
  | nil => cases h
  | cons s ss ih =>
    rcases mem_append.mp h with h | h
    · left
      rw [Option.mem_toList, flushes] at h
      split at h
      · rename_i u hu
        obtain rfl := Option.some.inj h
        exact ⟨_, hu⟩
      · cases h
    · rcases ih h with ⟨i, hi⟩ | ⟨hw, ht⟩
      · simp only [touch, update_apply] at hi
        split at hi
        · obtain ⟨rfl, hd⟩ : s = t ∧ (w = true ∨ p.slots (p.choose s).1 = some (s, true)) := by
            simpa using hi
          exact hd.symm.imp (fun h => ⟨_, h⟩) fun h => ⟨h, mem_cons_self ..⟩
        · exact .inl ⟨i, hi⟩
      · exact .inr ⟨hw, mem_cons_of_mem _ ht⟩

end SlotTable

open SlotTable (touch)

/-! ### The cache follows the policy -/

section Table

variable {d : Device} {i : Fin CACHE_SIZE} {s t : Sector} {b : Bool}

theorem Device.slots_eq_some : d.table.slots i = some (s, b) ↔
    d.Holds i s ∧ (d.cache_table i).dirty = b := by
  simp only [Device.table, Device.Holds]
  split <;> simp [*]

theorem Device.dirty_iff : d.Dirty s ↔ ∃ i, d.table.slots i = some (s, true) := by
  simp only [Device.Dirty, Device.slots_eq_some]

theorem Device.lookup_table (d : Device) (s : Sector) : cache_lookup d s =
    (finRange CACHE_SIZE).find? fun i => (d.table.slots i).any (decide <| ·.1 = s) := by
  refine congrArg (find? · _) (funext fun i => ?_)
  simp only [Device.table, Device.Holds]
  by_cases h : (d.cache_table i).occupied = true <;> simp [h]

theorem Device.free_table (d : Device) :
    (finRange CACHE_SIZE).find? (fun i => !(d.cache_table i).occupied) =
      (finRange CACHE_SIZE).find? fun i => (d.table.slots i).isNone := by
  refine congrArg (find? · _) (funext fun i => ?_)
  simp only [Device.table]
  cases (d.cache_table i).occupied <;> rfl

theorem Device.table_setSlot (d : Device) (i : Fin CACHE_SIZE) (e : CacheEntry) :
    (d.setSlot i e).table =
      ⟨update d.table.slots i (if e.occupied then some (e.disk_sector, e.dirty) else none),
        d.table.round_robin_idx⟩ := by
  refine congrArg (SlotTable.mk · _) (funext fun j => ?_)
  by_cases h : j = i
  · subst h
    simp [Device.table]
  · simp [Device.table, h, Device.setSlot_other h]

end Table

/-- The slots hold sectors of the device, and the free ones are not dirty. -/
structure Device.Proper (d : Device) : Prop where
  valid : ∀ {s}, d.Resident s → s < d.size
  idle : ∀ {i}, (d.cache_table i).occupied = false → (d.cache_table i).dirty = false

theorem CacheOk.proper {d : Device} (h : CacheOk d) : d.Proper := ⟨h.valid, h.idle⟩

/-- From `d` to `d'` the sectors `ss` have been read, or written, in turn. -/
structure Touched (w : Bool) (ss : List Sector) (d d' : Device) : Prop where
  size : d'.size = d.size
  table : d'.table = ss.foldl (touch w) d.table
  disk : ∀ t, t ∉ d.table.flushed w ss → d'.disk t = d.disk t
  proper : d'.Proper

/-- From `d` the machine accesses the sectors `ss` in turn and returns a value of `Q`, unless an
index leaves the table. -/
def Accesses {α : Type} (w : Bool) (ss : List Sector) (m : Machine Event Device α) (d : Device)
    (Q : α → Prop) : Prop :=
  match (m d).2 with
  | .done a d' => Q a ∧ d.table.Sound w ss ∧ Touched w ss d d'
  | .panic _ => ¬ d.table.Sound w ss

section Accesses

variable {α β : Type} {w : Bool} {ss ts : List Sector} {d d' d'' : Device} {s : Sector}
  {m : Machine Event Device α} {Q : α → Prop} {P : β → Prop} {k : α → Machine Event Device β}
  {i : Fin CACHE_SIZE} {f : Bool → Bool} {es : List Event} {a : α}

theorem Touched.refl (h : d.Proper) : Touched w [] d d := ⟨rfl, rfl, fun _ _ => rfl, h⟩

theorem Touched.trans (h : Touched w ss d d') (h' : Touched w ts d' d'') :
    Touched w (ss ++ ts) d d'' where
  size := h'.size.trans h.size
  table := by rw [h'.table, h.table, foldl_append]
  disk t ht := by
    rw [SlotTable.flushed_append, mem_append, not_or, ← h.table] at ht
    exact (h'.disk t ht.2).trans (h.disk t ht.1)
  proper := h'.proper

theorem Accesses.pure (hd : d.Proper) (h : Q a) : Accesses w [] (Pure.pure a) d Q :=
  ⟨h, by simp [SlotTable.Sound, SlotTable.reached], .refl hd⟩

theorem Accesses.bind (h : Accesses w ss m d Q)
    (hk : ∀ a d', Q a → Touched w ss d d' → Accesses w ts (k a) d' P) :
    Accesses w (ss ++ ts) (m >>= k) d P := by
  unfold Accesses at h ⊢
  rw [SlotTable.sound_append]
  rcases hm : m d with ⟨es, a | s⟩
  all_goals rw [hm] at h
  · obtain ⟨hQ, hs, ht⟩ := h
    have h' := hk a _ hQ ht
    unfold Accesses at h'
    rw [Machine.bind_run_done hm, ← ht.table]
    split at h' <;> rename_i hr <;> simp only [hr]
    · exact ⟨h'.1, ⟨hs, h'.2.1⟩, ht.trans h'.2.2⟩
    · exact fun hs' => h' hs'.2
  · rw [Machine.bind_run_panic hm]
    exact fun hs => h hs.1

theorem Accesses.map {f : α → β} (h : Accesses w ss m d Q) (hf : ∀ a, Q a → P (f a)) :
    Accesses w ss (m >>= fun a => Pure.pure (f a)) d P := by
  rw [← append_nil ss]
  exact h.bind fun a d' hQ ht => .pure ht.proper (hf a hQ)

/-- A first part that touches nothing. -/
theorem Accesses.silent_bind (hm : m d = ([], .done a d)) (h : Accesses w ss (k a) d P) :
    Accesses w ss (m >>= k) d P := by
  unfold Accesses at h ⊢
  rw [Machine.bind_run_done hm]
  exact h

theorem Accesses.returns (h : Accesses w ss m d Q) (hs : d.table.Sound w ss) :
    m.Returns d fun a d' => Q a ∧ Touched w ss d d' := by
  unfold Accesses at h
  rcases hm : m d with ⟨es, a | s⟩
  all_goals rw [hm] at h
  · exact ⟨es, _, _, hm, h.1, h.2.2⟩
  · exact absurd hs h

theorem Accesses.of_done (h : Accesses w ss m d Q) (hm : m d = (es, .done a d')) :
    Q a ∧ d.table.Sound w ss ∧ Touched w ss d d' := by
  unfold Accesses at h
  rwa [hm] at h

/-- A sector that no slot holds is loaded into the slot that `cache_evict` returns. -/
theorem cache_bring_of_miss {d₁ : Device} (hl : cache_lookup d s = none)
    (he : cache_evict d = (es, .done i d₁)) (hs : s < d₁.size) :
    cache_bring s f d = (es ++ [.fill s], .done i (d₁.setSlot i { d₁.cache_table i with
      occupied := true, disk_sector := s, dirty := f (d₁.cache_table i).dirty,
      block := d₁.disk s })) := by
  simp [cache_bring, bind_run, hl, he, block_read, hs, Device.setSlot]

/-- A slot that now holds `s`, the others being those of `d`. -/
theorem Device.Proper.of_slot (h : d.Proper) (hs : s < d.size) (hsize : d'.size = d.size)
    (hi : d'.Holds i s) (hoth : ∀ j, j ≠ i → d'.cache_table j = d.cache_table j) : d'.Proper := by
  refine ⟨?_, fun {j} ho => ?_⟩
  · rintro t ⟨j, hj⟩
    rw [hsize]
    by_cases e : j = i
    · rw [← hj.2, e, hi.2]
      exact hs
    · rw [Device.Holds, hoth j e] at hj
      exact h.valid ⟨j, hj⟩
  · by_cases e : j = i
    · rw [e, hi.1] at ho
      cases ho
    · rw [hoth j e] at ho ⊢
      exact h.idle ho

/-- The slot for `s`, brought into the cache. -/
theorem cache_bring_accesses (hf : f false = false) (hd : d.Proper) (hs : s < d.size) :
    match (cache_bring s f d).2 with
    | .done i d' => d.table.Sound false [s] ∧ Touched false [s] d d' ∧ d'.Holds i s ∧
        i = (d.table.choose s).1
    | .panic _ => ¬ d.table.Sound false [s] := by
  have hlook := d.lookup_table s
  have hfree := d.free_table
  cases hl : cache_lookup d s with
  | some i =>
    have hc : d.table.choose s = (i, none) := by simp [SlotTable.choose, ← hlook, hl]
    have hi := cache_lookup_holds hl
    have hkeep : d.table.touch false s = d.table := by
      have he : (some (s, decide (d.table.slots i = some (s, true)))) = d.table.slots i := by
        rw [Device.slots_eq_some.mpr ⟨hi, rfl⟩]
        cases (d.cache_table i).dirty <;> simp
      simp [touch, hc, he]
    rw [show cache_bring s f d = ([], .done i d) by simp [cache_bring, bind_run, hl]]
    refine ⟨by simp [SlotTable.Sound, SlotTable.reached, hc], ⟨rfl, hkeep.symm, fun _ _ => rfl, hd⟩,
      hi, by rw [hc]⟩
  | none =>
    have hne : ∀ i, d.table.slots i ≠ some (s, true) := fun i h =>
      cache_lookup_eq_none.mp hl ⟨i, (Device.slots_eq_some.mp h).1⟩
    cases hf' : (finRange CACHE_SIZE).find? (fun i => !(d.cache_table i).occupied) with
    | some i =>
      have hc : d.table.choose s = (i, none) := by
        simp [SlotTable.choose, ← hlook, hl, ← hfree, hf']
      have hidle := hd.idle (i := i) (by simpa using find?_some hf')
      rw [cache_bring_of_miss hl (cache_evict_of_free hf') hs]
      refine ⟨by simp [SlotTable.Sound, SlotTable.reached, hc], ⟨rfl, ?_, fun _ _ => rfl,
        hd.of_slot hs rfl (i := i) ?_ fun j hj => ?_⟩, ?_, by rw [hc]⟩
      · simp [Device.table_setSlot, touch, hc, hne, hidle, hf]
      · simp [Device.Holds]
      · simp [Device.setSlot_other hj]
      · simp [Device.Holds]
    | none =>
      have hc : d.table.choose s = ((slotOf (wrap32 (d.round_robin_idx + 1))).getD
          ⟨0, SlotTable.CACHE_SIZE_pos⟩,
          some (wrap32 (d.round_robin_idx + 1))) := by
        simp only [SlotTable.choose, ← hlook, hl, ← hfree, hf']
        rfl
      cases hi : slotOf (wrap32 (d.round_robin_idx + 1)) with
      | none =>
        have hrun : (cache_bring s f d).2 =
            .panic { d with round_robin_idx := wrap32 (d.round_robin_idx + 1) } := by
          simp [cache_bring, cache_evict, cache_get_free_entry, bind_run, hl, hf', hi]
        rw [hrun]
        simp [SlotTable.Sound, SlotTable.reached, hc, hi]
      | some i =>
        rw [hi, Option.getD_some] at hc
        have hocc : (d.cache_table i).occupied = true := by
          simpa using find?_eq_none.mp hf' i (mem_finRange i)
        have hv := hd.valid ⟨i, hocc, rfl⟩
        rw [cache_bring_of_miss hl (cache_evict_of_full hf' rfl hi hv) hs]
        refine ⟨by simp [SlotTable.Sound, SlotTable.reached, hc, hi], ⟨rfl, ?_, fun t ht => ?_,
          hd.of_slot hs rfl (i := i) ?_ fun j hj => ?_⟩, ?_, by rw [hc]⟩
        · simp [Device.table_setSlot, touch, hc, hne, hf, CacheEntry.reset]
          exact ⟨rfl, rfl⟩
        · rw [SlotTable.flushed, SlotTable.flushes, hc,
            Device.slots_eq_some.mpr ⟨⟨hocc, rfl⟩, rfl⟩] at ht
          cases hdy : (d.cache_table i).dirty with
          | false => simp
          | true =>
            have hne : t ≠ (d.cache_table i).disk_sector := by
              simpa [hdy, SlotTable.flushed] using ht
            simp [hne]
        · simp [Device.Holds]
        · simp [Device.setSlot_other hj]
        · simp [Device.Holds]

/-- The slot that was brought in, rewritten by a read or a write. -/
theorem Touched.setSlot {e : CacheEntry} (h : Touched false [s] d d') (hs : s < d.size)
    (hi : d'.Holds i s) (hc : i = (d.table.choose s).1) (ho : e.occupied = true)
    (hse : e.disk_sector = s) (hw : e.dirty = (w || (d'.cache_table i).dirty)) :
    Touched w [s] d (d'.setSlot i e) := by
  subst hc
  have hdirty : (d'.cache_table (d.table.choose s).1).dirty =
      decide (d.table.slots (d.table.choose s).1 = some (s, true)) := by
    have hslot := (Device.slots_eq_some (b := _)).mpr ⟨hi, rfl⟩
    rw [h.table] at hslot
    simpa [touch] using hslot.symm
  refine ⟨h.size, ?_, h.disk, h.proper.of_slot (by rw [h.size]; exact hs) rfl (i := _)
    (by simpa [Device.Holds] using ⟨ho, hse⟩) fun j hj => Device.setSlot_other hj⟩
  rw [Device.table_setSlot, h.table, ho, if_pos rfl, hse, hw, hdirty]
  simp [touch]

theorem cache_read_accesses {ofs size : Nat} (hd : d.Proper) (hs : s < d.size)
    (hle : ofs + size ≤ 512) : Accesses false [s] (cache_read s ofs size) d fun _ => True := by
  have h := cache_bring_accesses (f := fun _ => false) rfl hd hs
  unfold Accesses cache_read
  rcases hm : cache_bring s (fun _ => false) d with ⟨es, ⟨i, d'⟩ | d'⟩
  all_goals rw [hm] at h
  · obtain ⟨hsd, ht, hi, hc⟩ := h
    rw [Machine.bind_run_done hm, if_neg (by omega)]
    exact ⟨trivial, hsd, ht.setSlot hs hi hc hi.1 hi.2 rfl⟩
  · rw [Machine.bind_run_panic hm]
    exact h

theorem cache_write_accesses {ofs : Nat} {src : List UInt8} (hd : d.Proper) (hs : s < d.size)
    (hle : ofs + src.length ≤ 512) : Accesses true [s] (cache_write s src ofs) d fun _ => True := by
  have h := cache_bring_accesses (f := id) rfl hd hs
  unfold Accesses cache_write
  rcases hm : cache_bring s id d with ⟨es, ⟨i, d'⟩ | d'⟩
  all_goals rw [hm] at h
  · obtain ⟨hsd, ht, hi, hc⟩ := h
    rw [Machine.bind_run_done hm, if_neg (by omega)]
    exact ⟨trivial, hsd, ht.setSlot hs hi hc hi.1 hi.2 rfl⟩
  · rw [Machine.bind_run_panic hm]
    exact h

end Accesses

/-! ### The loops over a file -/

/-- The sectors of the blocks in which `m` bytes from `offset` on lie. -/
def rangeSectors (disk : Sector → Block) (d : InodeDisk) (offset m : Nat) : List Sector :=
  if m = 0 then []
  else (range' (offset / 512) ((offset + m + 511) / 512 - offset / 512)).map (sectorAt disk d)

/-- The inode is laid out, and its index blocks are not written back meanwhile. -/
structure Reachable (w : Bool) (dev : Device) (d : InodeDisk) (offset m : Nat) : Prop where
  proper : dev.Proper
  laid : Laid dev.size dev.disk d ((d.length + 511) / 512)
  kept : ∀ t ∈ indexSectors dev.disk d ((d.length + 511) / 512),
    t ∉ dev.table.flushed w (rangeSectors dev.disk d offset m)

section Files

variable {α β : Type} {w : Bool} {dev dev' : Device} {d : InodeDisk} {offset m c : Nat}
  {P : β → Prop}

/-- The first chunk of a range, and the others. -/
theorem rangeSectors_turn (disk : Sector → Block) (d : InodeDisk) (hm : 0 < m)
    (hc : c = min m (512 - offset % 512)) : rangeSectors disk d offset m =
      sectorAt disk d (offset / 512) :: rangeSectors disk d (offset + c) (m - c) := by
  obtain ⟨n, hn⟩ : ∃ n, (offset + m + 511) / 512 - offset / 512 = n + 1 :=
    ⟨(offset + m + 511) / 512 - offset / 512 - 1, by omega⟩
  rw [rangeSectors, if_neg (by omega), hn, range'_succ, map_cons, rangeSectors]
  congr 1
  split
  · rw [show n = 0 by omega]
    rfl
  · rw [show (offset + c) / 512 = offset / 512 + 1 by omega,
      show (offset + c + (m - c) + 511) / 512 - (offset / 512 + 1) = n by omega]

/-- An inode on the device whose index blocks are not dirty. -/
theorem OnDisk.reachable (h : OnDisk dev d) (hle : m ≤ d.length - offset) :
    Reachable w dev d offset m := by
  refine ⟨h.cache.proper, h.laid, fun t ht hf => ?_⟩
  rcases SlotTable.dirty_of_flushed hf with hd | ⟨-, hd⟩
  · exact h.quiet t ht (Device.dirty_iff.mpr hd)
  · refine h.laid.index_not_data ht ?_
    rw [rangeSectors] at hd
    split at hd
    · cases hd
    · obtain ⟨i, hi, rfl⟩ := mem_map.mp hd
      have := mem_range'_1.mp hi
      exact mem_dataSectors.mpr ⟨i, by omega, rfl⟩

/-- Accesses that do not write back the index blocks keep the layout. -/
theorem Touched.agree {ss : List Sector} {n : Nat} (h : Touched w ss dev dev')
    (hk : ∀ t ∈ indexSectors dev.disk d n, t ∉ dev.table.flushed w ss) :
    Agree dev.disk d dev'.disk d n :=
  Agree.of_index (fun _ _ => rfl) fun t ht => h.disk t (hk t ht)

theorem Agree.rangeSectors_eq {disk disk' : Sector → Block}
    (h : Agree disk d disk' d ((d.length + 511) / 512)) (hle : offset + m ≤ d.length) :
    rangeSectors disk' d offset m = rangeSectors disk d offset m := by
  unfold rangeSectors
  split
  · rfl
  · refine map_congr_left fun i hi => h.sectorAt_eq ?_
    have := mem_range'_1.mp hi
    omega

/-- One turn of either loop. -/
theorem turn_accesses {io : Sector → Machine Event Device α} {next : α → Machine Event Device β}
    {x : β} (h : Reachable w dev d offset m) (hm : 0 < m) (hle : offset + m ≤ d.length)
    (hc : c = min m (512 - offset % 512))
    (hio : ∀ s < dev.size, Accesses w [s] (io s) dev fun _ => True)
    (hnext : ∀ a dev', Reachable w dev' d (offset + c) (m - c) →
      Accesses w (rangeSectors dev'.disk d (offset + c) (m - c)) (next a) dev' P) :
    Accesses w (rangeSectors dev.disk d offset m)
      (byte_to_sector d offset >>= fun s => if c = 0 then pure x else io s >>= next) dev P := by
  have hkept := h.kept
  refine .silent_bind (byte_to_sector_run h.laid (by omega)) ?_
  rw [if_neg (by omega)]
  rw [rangeSectors_turn dev.disk d hm hc] at hkept ⊢
  rw [← singleton_append] at hkept ⊢
  refine Accesses.bind (hio _ (h.laid.sectorAt_lt (by omega))) fun a dev' _ ht => ?_
  simp only [SlotTable.flushed_append, mem_append, not_or, ← ht.table] at hkept
  have hag := ht.agree fun t hi => (hkept t hi).1
  rw [← hag.rangeSectors_eq (by omega)] at hkept ⊢
  refine hnext a dev' ⟨ht.proper, ?_, fun t hi => (hkept t ?_).2⟩
  · rw [ht.size]
    exact h.laid.congr hag rfl rfl rfl
  · rwa [hag.indexSectors_eq] at hi

theorem inode_read_loop_accesses (fuel : Nat) : ∀ {dev : Device} {size offset : Nat},
    Reachable false dev d offset (min size (d.length - offset)) → size ≤ fuel →
    Accesses false (rangeSectors dev.disk d offset (min size (d.length - offset)))
      (inode_read_loop d fuel size offset) dev fun _ => True := by
  induction fuel with
  | zero =>
    intro dev size offset h hf
    rw [show size = 0 by omega, Nat.zero_min]
    exact .pure h.proper trivial
  | succ fuel ih =>
    intro dev size offset h hf
    unfold inode_read_loop
    by_cases hz : size = 0
    · rw [if_pos hz, hz, Nat.zero_min]
      exact .pure h.proper trivial
    rw [if_neg hz]
    by_cases hpos : offset < d.length
    · refine turn_accesses h (by omega) (by omega) (by simp only [chunk_size]; omega)
        (fun s hs => cache_read_accesses h.proper hs (by simp only [chunk_size]; omega))
        fun bytes dev' h' => ?_
      have hm : min size (d.length - offset) - chunk_size d size offset =
          min (size - chunk_size d size offset) (d.length - (offset + chunk_size d size offset)) := by
        simp only [chunk_size]; omega
      rw [hm] at h' ⊢
      exact (ih h' (by simp only [chunk_size]; omega)).map fun _ _ => trivial
    · rw [show byte_to_sector d offset = pure 4294967295 from if_neg hpos,
        show min size (d.length - offset) = 0 by omega]
      refine .silent_bind rfl ?_
      rw [show chunk_size d size offset = 0 by simp only [chunk_size]; omega, if_pos rfl]
      exact .pure h.proper trivial

theorem inode_write_loop_accesses (fuel : Nat) : ∀ {dev : Device} {buffer : List UInt8}
    {offset : Nat}, Reachable true dev d offset (min buffer.length (d.length - offset)) →
    buffer.length ≤ fuel →
    Accesses true (rangeSectors dev.disk d offset (min buffer.length (d.length - offset)))
      (inode_write_loop d fuel buffer offset) dev
      (· = min buffer.length (d.length - offset)) := by
  induction fuel with
  | zero =>
    intro dev buffer offset h hf
    rw [show buffer.length = 0 by omega, Nat.zero_min]
    exact .pure h.proper rfl
  | succ fuel ih =>
    intro dev buffer offset h hf
    unfold inode_write_loop
    by_cases hz : buffer.length = 0
    · rw [if_pos hz, hz, Nat.zero_min]
      exact .pure h.proper rfl
    rw [if_neg hz]
    by_cases hpos : offset < d.length
    · set c := chunk_size d buffer.length offset with hc
      simp only [chunk_size] at hc
      refine turn_accesses h (by omega) (by omega) (by omega) (fun s hs =>
        cache_write_accesses h.proper hs (by rw [length_take]; omega)) fun _ dev' h' => ?_
      rw [show min buffer.length (d.length - offset) - c =
        min (buffer.drop c).length (d.length - (offset + c)) by rw [length_drop]; omega] at h' ⊢
      refine (ih h' (by rw [length_drop]; omega)).map fun n hn => ?_
      rw [hn, length_drop]
      omega
    · rw [show byte_to_sector d offset = pure 4294967295 from if_neg hpos,
        show min buffer.length (d.length - offset) = 0 by omega]
      refine .silent_bind rfl ?_
      rw [show chunk_size d buffer.length offset = 0 by simp only [chunk_size]; omega, if_pos rfl]
      exact .pure h.proper rfl

end Files

end Pintos
