import Pintos.Filesys.GrowthFrame

/-!
# Filesys — growth keeps the block index sound

Each part of `inode_grow` extends a laid-out inode by the sectors it takes (`Grown`): positions the
inode had keep their sectors, the new positions name new, zeroed ones, and the sectors the inode
uses are those it used and those taken.  `Grown.trans` chains the parts.

The part for the double indirect blocks does so only from a whole second-level block on, since it
fills a block from entry 0.
-/

namespace Pintos
open Support Function List

/-- From `k` to `k'` the inode `d` of `n` sectors has grown to `d'` of `n'` by the sectors `A`. -/
structure Grown (F : Sector → Prop) (k : Fs) (d : InodeDisk) (n : Nat) (k' : Fs) (d' : InodeDisk)
    (n' : Nat) (A : List Sector) (es : List Event) : Prop where
  le : n ≤ n'
  takes : Takes F A (· ∈ indexSectors k.dev.device.disk d n) es k k'
  agree : Agree k.dev.device.disk d k'.dev.device.disk d' n
  direct : d'.direct_count = min n' 13
  indirect : d'.indirect_count = min (n' - 13) 128
  double : d'.double_indirect_count = n' - 141
  fresh : ∀ i, n ≤ i → i < n' → sectorAt k'.dev.device.disk d' i ∈ A ∧
    k'.dev.device.disk (sectorAt k'.dev.device.disk d' i) = Bytes.zero ∧
    Quiet F k' (sectorAt k'.dev.device.disk d' i)
  index : ∀ t ∈ indexSectors k'.dev.device.disk d' n', Quiet F k' t
  index_old : ∀ t ∈ indexSectors k'.dev.device.disk d' n',
    t ∈ indexSectors k.dev.device.disk d n ∨ t ∈ A
  perm : (ownedSectors k'.dev.device.disk d' n').Perm (ownedSectors k.dev.device.disk d n ++ A)
  pointers : ∀ i < 15, d'.block i = d.block i ∨ d'.block i ∈ A
  length : d'.length = d.length
  is_dir : d'.is_dir = d.is_dir
  dir_parent : d'.dir_parent = d.dir_parent
  start : d'.start = d.start
  magic : d'.magic = d.magic

/-- What growing an inode of `n` sectors relies on. -/
structure Growable (ok : Event → Prop) (F X : Sector → Prop) (k : Fs) (d : InodeDisk)
    (n : Nat) : Prop where
  calm : Calm ok F X k
  laid : Laid k.dev.device.size k.dev.device.disk d n
  used : ∀ t ∈ ownedSectors k.dev.device.disk d n, ¬ k.dev.free_map.Free t
  quiet : ∀ t ∈ indexSectors k.dev.device.disk d n, Quiet F k t
  apart : ∀ t ∈ indexSectors k.dev.device.disk d n, ¬ X t

/-- The index blocks of a file of `n` sectors, and its data sectors. -/
abbrev ownedLength (n : Nat) : Nat := min 1 (n - 13) + min 1 (n - 141) + (n - 141 + 127) / 128 + n

theorem ownedLength_mono {m n : Nat} (h : m ≤ n) : ownedLength m ≤ ownedLength n := by
  unfold ownedLength
  omega

theorem length_indexSectors (disk : Sector → Block) (d : InodeDisk) (n : Nat) :
    (indexSectors disk d n).length = min 1 (n - 13) + min 1 (n - 141) + (n - 141 + 127) / 128 := by
  simp only [indexSectors, length_append, length_map, length_range]
  split <;> split <;> simp only [length_nil, length_singleton] <;> omega

theorem length_ownedSectors (disk : Sector → Block) (d : InodeDisk) (n : Nat) :
    (ownedSectors disk d n).length = ownedLength n := by
  rw [ownedSectors, length_append, length_indexSectors, dataSectors, length_map,
    length_range]

theorem getD_mem {l : List Sector} {j : Nat} (h : j < l.length) : l.getD j 0 ∈ l := by
  rw [getD_eq_getElem?_getD, List.getElem?_eq_getElem h]
  exact getElem_mem _

section Grown

variable {ok : Event → Prop} {F X : Sector → Prop} {k k' k'' : Fs} {d d' d'' : InodeDisk}
  {n n' n'' : Nat} {A A' : List Sector} {es es' : List Event}

/-- The inode can grow again. -/
theorem Grown.growable (h : Grown F k d n k' d' n' A es) (hk : Growable ok F X k d n)
    (hcap : n' ≤ 16525) : Growable ok F X k' d' n' where
  calm := h.takes.calm hk.calm hk.apart
  laid := {
    cap := hcap
    direct := h.direct
    indirect := h.indirect
    double := h.double
    nodup := by
      rw [h.perm.nodup_iff, nodup_append]
      refine ⟨hk.laid.nodup, h.takes.map.nodup, fun t ht u hu e => ?_⟩
      exact hk.used t ht (h.takes.map.mem_free (e ▸ hu))
    valid := fun t ht => by
      rw [h.takes.size]
      rcases List.mem_append.mp (h.perm.mem_iff.mp ht) with ht | ht
      · exact hk.laid.valid t ht
      · rw [← hk.calm.width]
        exact (h.takes.map.mem_free ht).1 }
  used t ht hf := by
    obtain ⟨hf, hA⟩ := (h.takes.map.free t).mp hf
    rcases List.mem_append.mp (h.perm.mem_iff.mp ht) with ht | ht
    · exact hk.used t ht hf
    · exact hA ht
  quiet := h.index
  apart t ht := by
    rcases h.index_old t ht with ht | ht
    · exact hk.apart t ht
    · exact fun hX => hk.calm.used t (.inr hX) (h.takes.map.mem_free ht)

theorem Grown.trans (h : Grown F k d n k' d' n' A es) (h' : Grown F k' d' n' k'' d'' n'' A' es')
    (hk : Growable ok F X k' d' n') : Grown F k d n k'' d'' n'' (A ++ A') (es ++ es') where
  le := h.le.trans h'.le
  takes := h.takes.trans h'.takes h.index_old
  agree := h.agree.trans (h'.agree.mono h.le)
  direct := h'.direct
  indirect := h'.indirect
  double := h'.double
  fresh i hi hi' := by
    by_cases hm : i < n'
    · obtain ⟨hA, hz, hq⟩ := h.fresh i hi hm
      rw [h'.agree.sectorAt_eq hm]
      refine ⟨mem_append_left _ hA, ?_, h'.takes.quiet hq⟩
      rw [h'.takes.disk_quiet hq fun ht =>
        hk.laid.index_not_data ht (mem_dataSectors.mpr ⟨i, hm, rfl⟩), hz]
    · obtain ⟨hA, hz, hq⟩ := h'.fresh i (by omega) hi'
      exact ⟨mem_append_right _ hA, hz, hq⟩
  index := h'.index
  index_old t ht := by
    rw [mem_append, ← or_assoc]
    exact (h'.index_old t ht).imp (h.index_old t) id
  perm := by
    rw [← List.append_assoc]
    exact h'.perm.trans (h.perm.append_right A')
  pointers i hi := by
    rw [mem_append]
    rcases h'.pointers i hi with e | hm
    · rw [e]
      exact (h.pointers i hi).imp id .inl
    · exact .inr (.inr hm)
  length := h'.length.trans h.length
  is_dir := h'.is_dir.trans h.is_dir
  dir_parent := h'.dir_parent.trans h.dir_parent
  start := h'.start.trans h.start
  magic := h'.magic.trans h.magic

/-- A part that adds the index blocks `I` and the data sectors `D`. -/
theorem Grown.of_parts {I D : List Sector} (hk : Growable ok F X k d n)
    (ht : Takes F A (· ∈ indexSectors k.dev.device.disk d n) es k k')
    (hag : Agree k.dev.device.disk d k'.dev.device.disk d' n)
    (hsec : ∀ j < D.length, sectorAt k'.dev.device.disk d' (n + j) = D.getD j 0)
    (hidx : indexSectors k'.dev.device.disk d' (n + D.length) =
      indexSectors k.dev.device.disk d n ++ I)
    (hperm : A.Perm (I ++ D)) (hI : ∀ t ∈ I, Quiet F k' t)
    (hD : ∀ t ∈ D, Quiet F k' t ∧ k'.dev.device.disk t = Bytes.zero)
    (hptr : ∀ i < 15, d'.block i = d.block i ∨ d'.block i ∈ A)
    (h₁ : d'.direct_count = min (n + D.length) 13)
    (h₂ : d'.indirect_count = min (n + D.length - 13) 128)
    (h₃ : d'.double_indirect_count = n + D.length - 141)
    (hrest : d'.length = d.length ∧ d'.is_dir = d.is_dir ∧ d'.dir_parent = d.dir_parent ∧
      d'.start = d.start ∧ d'.magic = d.magic) :
    Grown F k d n k' d' (n + D.length) A es := by
  obtain ⟨hlen, hdir, hpar, hst, hmag⟩ := hrest
  refine ⟨Nat.le_add_right .., ht, hag, h₁, h₂, h₃, fun i hi hi' => ?_, fun t h => ?_,
    fun t h => ?_, ?_, hptr, hlen, hdir, hpar, hst, hmag⟩
  · obtain ⟨j, rfl⟩ := Nat.exists_eq_add_of_le hi
    have hj : j < D.length := by omega
    have hm : D.getD j 0 ∈ D := getD_mem hj
    rw [hsec j hj]
    exact ⟨hperm.mem_iff.mpr (mem_append_right _ hm), (hD _ hm).2, (hD _ hm).1⟩
  · rw [hidx] at h
    exact (List.mem_append.mp h).elim (fun h => ht.quiet (hk.quiet t h)) (hI t)
  · rw [hidx] at h
    exact (List.mem_append.mp h).imp id fun h => hperm.mem_iff.mpr (mem_append_left _ h)
  · rw [ownedSectors, ownedSectors, hidx, hag.dataSectors_extend hsec]
    refine Perm.trans ?_ (hperm.symm.append_left _)
    refine List.perm_iff_count.mpr fun a => ?_
    simp only [count_append]
    omega

/-- A part that finds nothing to do. -/
theorem Grown.keep (hk : Growable ok F X k d n)
    (ht : Takes F [] (· ∈ indexSectors k.dev.device.disk d n) es k k')
    (hb : ∀ i < 15, d'.block i = d.block i)
    (hi : ∀ t ∈ indexSectors k.dev.device.disk d n, k'.dev.device.disk t = k.dev.device.disk t)
    (h₁ : d'.direct_count = d.direct_count) (h₂ : d'.indirect_count = d.indirect_count)
    (h₃ : d'.double_indirect_count = d.double_indirect_count)
    (hrest : d'.length = d.length ∧ d'.is_dir = d.is_dir ∧ d'.dir_parent = d.dir_parent ∧
      d'.start = d.start ∧ d'.magic = d.magic) : Grown F k d n k' d' n [] es := by
  have hag : Agree k.dev.device.disk d k'.dev.device.disk d' n := Agree.of_index hb hi
  obtain ⟨hlen, hdir, hpar, hst, hmag⟩ := hrest
  refine ⟨le_rfl, ht, hag, h₁.trans hk.laid.direct, h₂.trans hk.laid.indirect,
    h₃.trans hk.laid.double, fun i h h' => by omega, ?_, ?_, ?_, fun i hi => .inl (hb i hi),
    hlen, hdir, hpar, hst, hmag⟩
  · rw [hag.indexSectors_eq]
    exact fun t h => ht.quiet (hk.quiet t h)
  · rw [hag.indexSectors_eq]
    exact fun t h => .inl h
  · rw [hag.ownedSectors_eq, append_nil]

/-- What a growth leaves of the sectors that growing to `m` takes. -/
theorem Grown.supplied {m : Nat} (h : Grown F k d n k' d' n' A es) (hm : n' ≤ m)
    (hr : Supplied ok (ownedLength m - ownedLength n) k) :
    Supplied ok (ownedLength m - ownedLength n') k' := by
  have hlen := h.perm.length_eq
  rw [length_append, length_ownedSectors, length_ownedSectors] at hlen
  have hle := ownedLength_mono hm
  exact h.takes.supplied hr (by omega)

end Grown

/-! ### Filling an array -/

section Loop

variable {ok : Event → Prop} {F X : Sector → Prop} {k : Fs}

theorem allocate_into_runs {τ : Type} {set : τ → Nat → Sector → τ} {arr : τ} {i : Nat}
    (h : Calm ok F X k) (hr : Supplied ok 1 k) :
    (allocate_into set arr i).Runs ok k fun es a k' => ∃ t, a = set arr i t ∧
      Takes F [t] (fun _ => False) es k k' ∧ Quiet F k' t ∧ t < k.dev.device.size := by
  refine .bind (allocate_takes h hr) fun es r k' _ ⟨t, hr, ht, hq, hs⟩ => ?_
  subst hr
  refine .pure ⟨t, rfl, ?_, hq, hs⟩
  rw [append_nil]
  exact ht

/-- An array with `t` at `c` and `L` from `c + 1` on. -/
theorem getD_cons_from {t e : Sector} {L : List Sector} {c j : Nat} :
    (if c + 1 ≤ j ∧ j < c + 1 + L.length then L.getD (j - (c + 1)) 0 else if j = c then t else e) =
      if c ≤ j ∧ j < c + (t :: L).length then (t :: L).getD (j - c) 0 else e := by
  rw [length_cons]
  by_cases hj : j = c
  · rw [if_neg (by omega), if_pos hj, if_pos (by omega), hj, Nat.sub_self]
    rfl
  · rw [if_neg hj]
    by_cases hj' : c < j ∧ j < c + 1 + L.length
    · rw [if_pos (by omega), if_pos (by omega), show j - c = (j - (c + 1)) + 1 by omega]
      rfl
    · rw [if_neg (by omega), if_neg (by omega)]

/-- The loop stores the sectors it takes, in turn, and zeroes them. -/
theorem grow_loop_runs {τ : Type} {get : τ → Nat → Sector} {set : τ → Nat → Sector → τ}
    {limit M : Nat} (hset : ∀ arr i j t, i < limit → j < M → t < 2 ^ 32 →
      get (set arr i t) j = if j = i then t else get arr j) (hM : limit ≤ M) (g : Nat) :
    ∀ {k : Fs} {arr : τ} {cnt : Nat}, Calm ok F X k → Supplied ok (min g (limit - cnt)) k →
    (grow_loop get set limit g arr cnt).Runs ok k fun es r k' => ∃ D : List Sector,
      D.length = min g (limit - cnt) ∧ r.2.1 = cnt + D.length ∧ r.2.2 = g - D.length ∧
      Takes F D (fun _ => False) es k k' ∧
      (∀ t ∈ D, Quiet F k' t ∧ k'.dev.device.disk t = Bytes.zero) ∧
      ∀ j < M, get r.1 j =
        if cnt ≤ j ∧ j < cnt + D.length then D.getD (j - cnt) 0 else get arr j := by
  induction g with
  | zero =>
    intro k arr cnt hk _
    refine .pure ⟨[], by simp, rfl, rfl, Takes.refl hk.cache, by simp, fun j _ => ?_⟩
    rw [if_neg (by simp only [length_nil]; omega)]
  | succ g ih =>
    intro k arr cnt hk hr
    unfold grow_loop
    by_cases hc : cnt < limit
    · rw [if_pos hc]
      refine .bind (allocate_into_runs hk (hr.mono (by omega))) fun es arr₁ k₁ _ ⟨t, harr, ht, hq, hs⟩ => ?_
      have hk₁ := ht.calm hk fun _ => False.elim
      have hget : ∀ j < M, get arr₁ j = if j = cnt then t else get arr j := fun j hj => by
        rw [harr]
        exact hset arr cnt j t hc hj (lt_of_lt_of_le hs hk.small)
      rw [hget cnt (by omega), if_pos rfl]
      refine .bind (write_takes hk₁.cache hq (by rw [ht.size]; exact hs))
        fun es' _ k₂ _ ⟨hw, hdisk⟩ => ?_
      have hk₂ := hw.calm hk₁ fun u hu hX => hk.used u (.inr hX)
        (ht.map.mem_free (List.mem_singleton.mpr hu))
      have hr₂ := hw.supplied (ht.supplied (m := min g (limit - (cnt + 1))) hr
        (by rw [length_singleton]; omega)) le_rfl
      refine (ih hk₂ hr₂).mono fun es'' r k₃ _ ⟨D, hlen, hcnt, hg, ht', hD, hr⟩ => ?_
      have hq₂ := hw.quiet hq
      refine ⟨t :: D, ?_, ?_, ?_, ?_, ?_, fun j hj => ?_⟩
      · rw [length_cons, hlen]; omega
      · rw [length_cons, hcnt]; omega
      · rw [length_cons, hg]; omega
      · have h₁ := ht.trans hw fun u hu => .inr (List.mem_singleton.mpr hu)
        rw [← List.append_assoc]
        exact h₁.trans ht' fun _ => False.elim
      · intro u hu
        rcases List.mem_cons.mp hu with rfl | hu
        · refine ⟨ht'.quiet hq₂, ?_⟩
          rw [ht'.disk_quiet hq₂ id, hdisk, update_self]
        · exact hD u hu
      · rw [hr j hj, hget j hj, getD_cons_from]
    · rw [if_neg hc]
      refine .pure ⟨[], ?_, rfl, rfl, Takes.refl hk.cache, by simp, fun j _ => ?_⟩
      · rw [length_nil]; omega
      · rw [if_neg (by simp only [length_nil]; omega)]

end Loop

/-! ### The direct blocks -/

section Parts

variable {ok : Event → Prop} {F X : Sector → Prop} {k : Fs} {d : InodeDisk} {n g : Nat}

theorem pointer_setPointer {b : Fin 15 → Sector} {i j : Nat} {t : Sector} (hi : i < 15)
    (hj : j < 15) : pointer (setPointer b i t) j = if j = i then t else pointer b j := by
  have h : Fin.ofNat 15 j = Fin.ofNat 15 i ↔ j = i := by
    simp only [Fin.ext_iff, Fin.val_ofNat]
    omega
  simp only [setPointer, pointer, update_apply, h]

theorem grow_direct_runs (hk : Growable ok F X k d n)
    (hr : Supplied ok (ownedLength (n + min g (13 - n)) - ownedLength n) k) :
    (grow_direct d g).Runs ok k fun es r k' => ∃ A,
      Grown F k d n k' r.1 (n + min g (13 - n)) A es ∧ r.2 = g - min g (13 - n) := by
  have hlim : DIRECT_BLOCKS = 13 := rfl
  have hdc := hk.laid.direct
  refine .bind (grow_loop_runs (M := 15)
    (fun b i j t hi hj _ => pointer_setPointer (by omega) hj) (by omega) g hk.calm
    (hr.mono (by unfold ownedLength; omega)))
    fun es r k' _ ⟨D, hlen, hcnt, hg, ht, hD, hr⟩ => ?_
  have hlen' : D.length = min g (13 - n) := by omega
  refine .pure ⟨D, ?_, by rw [hg, hlen']⟩
  rw [hdc] at hcnt hr
  rw [append_nil, ← hlen']
  set d' : InodeDisk := { d with blocks := r.1, direct_count := r.2.1 } with hd'
  have hb : ∀ j < 15, d'.block j = if min n 13 ≤ j ∧ j < min n 13 + D.length then
      D.getD (j - min n 13) 0 else d.block j := hr
  by_cases hn : n < 13
  · have hag : Agree k.dev.device.disk d k'.dev.device.disk d' n :=
      ⟨fun i hi => by rw [hb i (by omega), if_neg (by omega)], fun h => by omega,
        fun i hi => by omega, fun h => by omega, fun i hi => by omega,
        fun i j _ hi => by omega⟩
    have hsec : ∀ j < D.length, sectorAt k'.dev.device.disk d' (n + j) = D.getD j 0 :=
      fun j hj => by
        rw [sectorAt, if_pos (by omega), hb _ (by omega), if_pos (by omega)]
        congr 1
        omega
    refine Grown.of_parts hk (ht.mono fun _ => False.elim) hag hsec (I := []) ?_
      (Perm.refl D) (by simp) hD (fun i hi => ?_) ?_ ?_ ?_ ⟨rfl, rfl, rfl, rfl, rfl⟩
    · rw [indexSectors_none _ _ (by omega), indexSectors_none _ _ (by omega)]
      rfl
    · rw [hb i hi]
      split
      · exact .inr (getD_mem (by omega))
      · exact .inl rfl
    · show r.2.1 = _
      omega
    · show d.indirect_count = _
      rw [hk.laid.indirect]
      omega
    · show d.double_indirect_count = _
      rw [hk.laid.double]
      omega
  · have h0 : D = [] := eq_nil_of_length_eq_zero (by omega)
    subst h0
    refine Grown.keep hk (ht.mono fun _ => False.elim) (fun i hi => ?_)
      (fun t h => ht.disk_quiet (hk.quiet t h) id) ?_ rfl rfl ⟨rfl, rfl, rfl, rfl, rfl⟩
    · rw [hb i hi, if_neg (by simp only [length_nil]; omega)]
    · show r.2.1 = _
      rw [hdc, hcnt]
      rfl

/-! ### The indirect blocks -/

/-- Index block `i` is at hand: pointer `i` names the sector `t`, which is new, in `T`, or was named
before. -/
structure IndexBlock (F : Sector → Prop) (k : Fs) (d : InodeDisk) (i : Nat) (isNew : Prop)
    (es : List Event) (r : InodeDisk × Block) (k' : Fs) (T : List Sector) (t : Sector) : Prop where
  inode : r.1 = d.setBlock i t
  takes : Takes F T (fun _ => False) es k k'
  quiet : Quiet F k' t
  lt : t < k.dev.device.size
  taken : isNew → T = [t]
  kept : ¬ isNew → T = [] ∧ t = d.block i ∧ r.2 = k.dev.device.disk t

theorem index_block_runs {i : Nat} {fresh : Bool} {isNew : Prop} (hnew : fresh = true ↔ isNew)
    (hk : Growable ok F X k d n)
    (hold : ¬ isNew → d.block i ∈ indexSectors k.dev.device.disk d n)
    (hr : isNew → Supplied ok 1 k) :
    (index_block i d fresh).Runs ok k fun es r k' => ∃ T t, IndexBlock F k d i isNew es r k' T t := by
  refine .bind (uninit_takes (F := F) hk.calm.cache) fun es b k₁ _ ⟨ht, hdev, _⟩ => ?_
  cases fresh with
  | true =>
    rw [if_pos rfl]
    refine .bind (allocate_into_runs (ht.calm hk.calm fun _ => False.elim)
        (ht.supplied (hr (hnew.mp rfl)) le_rfl))
      fun es' r k₂ _ ⟨t, hr, ht', hq, hs⟩ => .pure
        ⟨[t], t, hr, ?_, hq, ht.size ▸ hs, fun _ => rfl, fun h => absurd (hnew.mp rfl) h⟩
    rw [append_nil]
    exact ht.trans ht' fun _ => False.elim
  | false =>
    have hnew : ¬ isNew := fun h => Bool.false_ne_true (hnew.mpr h)
    rw [if_neg (by simp)]
    have hs := hk.laid.index_lt (hold hnew)
    have hq := hk.quiet _ (hold hnew)
    refine onDevice_read_bind (ht.size ▸ hs) (.pure
      ⟨[], d.block i, ?_, ?_, ht.quiet hq, hs, fun h => absurd h hnew, fun _ => ⟨rfl, rfl, ?_⟩⟩)
    · rw [InodeDisk.setBlock, InodeDisk.block, update_eq_self]
    · rw [append_nil]
      exact ht
    · rw [hdev]

section IndexBlock

variable {k' k₂ k₃ : Fs} {i : Nat} {isNew : Prop} {es es₂ es₃ : List Event} {r : InodeDisk × Block}
  {A D T : List Sector} {t : Sector}

section

variable (h : IndexBlock F k d i isNew es r k' T t)
include h

theorem IndexBlock.length [Decidable isNew] : T.length = if isNew then 1 else 0 := by
  split
  · rw [h.taken ‹_›]
    rfl
  · rw [(h.kept ‹_›).1]
    rfl

theorem IndexBlock.eq_of_mem {u : Sector} (hu : u ∈ T) : u = t := by
  by_cases hnew : isNew
  · rw [h.taken hnew] at hu
    exact List.mem_singleton.mp hu
  · rw [(h.kept hnew).1] at hu
    cases hu

theorem IndexBlock.named : ¬ isNew ∧ t = d.block i ∨ t ∈ T := by
  by_cases hnew : isNew
  · exact .inr (h.taken hnew ▸ List.mem_singleton_self t)
  · exact .inl ⟨hnew, (h.kept hnew).2.1⟩

/-- The block is written after sectors `A` are taken: the index blocks of before are still quiet, and
apart from it they keep their contents. -/
theorem IndexBlock.written (hk : Growable ok F X k d n)
    (hold : ¬ isNew → d.block i ∈ indexSectors k.dev.device.disk d n)
    (ht : Takes F A (fun _ => False) es₂ k' k₂) (hw : Takes F [] (· = t) es₃ k₂ k₃) :
    Takes F (T ++ A) (· ∈ indexSectors k.dev.device.disk d n) (es ++ (es₂ ++ es₃)) k k₃ ∧
      ∀ u ∈ indexSectors k.dev.device.disk d n, u ≠ t →
        k₃.dev.device.disk u = k.dev.device.disk u := by
  have htake := h.takes.trans ht fun _ => False.elim
  constructor
  · rw [← List.append_assoc, ← append_nil (T ++ A)]
    refine (htake.mono fun _ => False.elim).trans hw ?_
    rintro u rfl
    obtain ⟨hnew, hu⟩ | hu := h.named
    · exact .inl (hu.symm ▸ hold hnew)
    · exact .inr (mem_append_left _ hu)
  · intro u hu hne
    have hq := hk.quiet u hu
    rw [hw.disk_quiet (htake.quiet hq) hne, htake.disk_quiet hq id]

end

/-- Sectors that were taken and zeroed stay so when a block from before is written. -/
theorem Takes.zeroed (ht : Takes F A (fun _ => False) es₂ k' k₂) (hq : Quiet F k' t)
    (hw : Takes F [] (· = t) es₃ k₂ k₃) (hA : ∀ u ∈ D, u ∈ A)
    (hD : ∀ u ∈ D, Quiet F k₂ u ∧ k₂.dev.device.disk u = Bytes.zero) :
    ∀ u ∈ D, Quiet F k₃ u ∧ k₃.dev.device.disk u = Bytes.zero := by
  intro u hu
  have hne : u ≠ t := fun e => hq.used (ht.map.mem_free (hA _ (e ▸ hu)))
  exact ⟨hw.quiet (hD u hu).1, (hw.disk_quiet (hD u hu).1 hne).trans (hD u hu).2⟩

end IndexBlock

/-- The index blocks of a file with double indirect blocks. -/
theorem indexSectors_two (disk : Sector → Block) (d : InodeDisk) {c : Nat} (h : 141 < n)
    (hc : (n - 141 + 127) / 128 = c) :
    indexSectors disk d n = d.block 13 :: d.block 14 :: (List.range c).map (levelTwo disk d) := by
  rw [indexSectors, if_pos (by omega), if_pos h, hc]
  rfl

/-- The blocks of an index with double indirect blocks are distinct. -/
theorem Laid.index_apart {size : Nat} {disk : Sector → Block} (hl : Laid size disk d n)
    (h : 141 < n) : d.block 13 ≠ d.block 14 ∧ ∀ i, 141 + 128 * i < n →
      levelTwo disk d i ≠ d.block 13 ∧ levelTwo disk d i ≠ d.block 14 := by
  have hnd := (List.nodup_append.mp hl.nodup).1
  rw [indexSectors_two disk d h rfl, nodup_cons, nodup_cons] at hnd
  refine ⟨fun e => hnd.1 (by rw [e]; exact List.mem_cons_self ..), fun i hi => ?_⟩
  have hm : levelTwo disk d i ∈ (List.range ((n - 141 + 127) / 128)).map (levelTwo disk d) :=
    List.mem_map.mpr ⟨i, List.mem_range.mpr (by omega), rfl⟩
  exact ⟨fun e => hnd.1 (e ▸ List.mem_cons_of_mem _ hm), fun e => hnd.2.1 (e ▸ hm)⟩

theorem grow_indirect_runs (hk : Growable ok F X k d n) (hn : g ≠ 0 → 13 ≤ n)
    (hr₀ : Supplied ok (ownedLength (n + min g (141 - n)) - ownedLength n) k) :
    (grow_indirect d g).Runs ok k fun es r k' => ∃ A,
      Grown F k d n k' r.1 (n + min g (141 - n)) A es ∧ r.2 = g - min g (141 - n) := by
  unfold grow_indirect
  by_cases hg : g = 0
  · rw [if_pos hg, show n + min g (141 - n) = n by omega]
    exact .pure ⟨[], Grown.keep hk (Takes.refl hk.calm.cache) (fun _ _ => rfl)
      (fun _ _ => rfl) rfl rfl rfl ⟨rfl, rfl, rfl, rfl, rfl⟩, by omega⟩
  rw [if_neg hg]
  have hn := hn hg
  have hlim : INDIRECT_BLOCK_ENTRIES = 128 := rfl
  have hic := hk.laid.indirect
  have hnew : (d.indirect_count == 0) = true ↔ n = 13 := by
    rw [beq_iff_eq]
    omega
  have hold : n ≠ 13 → d.block 13 ∈ indexSectors k.dev.device.disk d n :=
    fun h => mem_indexSectors.mpr (.inl ⟨by omega, rfl⟩)
  unfold ownedLength at hr₀
  refine .bind (index_block_runs hnew hk hold fun h => hr₀.mono (by omega))
    fun es ⟨d₁, one⟩ k₁ _ ⟨T, t, hI⟩ => ?_
  have hTlen := hI.length
  obtain rfl : d₁ = d.setBlock 13 t := hI.inode
  have hk₁ := hI.takes.calm hk.calm fun _ => False.elim
  refine .bind (grow_loop_runs (M := 128)
    (fun b i j t hi _ ht => entry_setEntry (by omega) ht) (by omega) g hk₁
    (hI.takes.supplied hr₀ (by show min g (_ - d.indirect_count) + _ ≤ _; split at hTlen <;> omega)))
    fun es' s k₂ _ ⟨D, hlen, hcnt, hg', ht₂, hD, he⟩ => ?_
  replace hlen : D.length = min g (_ - d.indirect_count) := hlen
  replace hcnt : s.2.1 = d.indirect_count + D.length := hcnt
  replace he : ∀ j < 128, entry s.1 j = if d.indirect_count ≤ j ∧ j < d.indirect_count + D.length then
    D.getD (j - d.indirect_count) 0 else entry one j := he
  obtain ⟨c, hc⟩ : ∃ c, c = min (n - 13) 128 := ⟨_, rfl⟩
  rw [hic, ← hc] at hlen hcnt he
  have hlen' : D.length = min g (141 - n) := by omega
  have hcase : (n ≤ 141 ∧ c = n - 13 ∧ n + D.length ≤ 141) ∨
      (141 < n ∧ c = 128 ∧ D.length = 0) := by omega
  have hb : ∀ i < 15, (d.setBlock 13 t).block i = if i = 13 then t else d.block i :=
    fun i hi => InodeDisk.block_setBlock (by omega) hi
  rw [hb 13 (by omega), if_pos rfl]
  refine .bind (write_takes ht₂.cache (ht₂.quiet hI.quiet) (by rw [ht₂.size, hI.takes.size]; exact hI.lt))
    fun es'' _ k₃ _ ⟨ht₃, hdisk⟩ => .pure ⟨T ++ D, ?_, by rw [hg', hlen']⟩
  obtain ⟨htakes, hkeep⟩ := hI.written hk hold ht₂ ht₃
  rw [append_nil, ← hlen']
  have hpos : n = 13 → 0 < D.length := by omega
  clear hlen hlen' hc hg'
  set d' : InodeDisk := { d.setBlock 13 t with indirect_count := s.2.1 } with hd'
  replace hb : ∀ i < 15, d'.block i = if i = 13 then t else d.block i := hb
  have hb' : d'.block 13 = t := (hb 13 (by omega)).trans (if_pos rfl)
  have hsame : ∀ i < 15, i ≠ 13 → d'.block i = d.block i := fun i hi hne =>
    (hb i hi).trans (if_neg hne)
  have hkept : 13 < n → t = d.block 13 ∧ one = k.dev.device.disk t := fun h =>
    (hI.kept (by omega)).2
  have hblk : ∀ j < 128, entry (k₃.dev.device.disk t) j =
      if c ≤ j ∧ j < c + D.length then D.getD (j - c) 0 else entry one j := fun j hj => by
    rw [hdisk, update_self]
    exact he j hj
  have hag : Agree k.dev.device.disk d k₃.dev.device.disk d' n := by
    refine ⟨fun i hi => hsame i (by omega) (by omega), fun h => hb'.trans (hkept h).1, fun i hi => ?_,
      fun h => hsame 14 (by omega) (by omega), fun i hi => ?_, fun i j hj hi => ?_⟩
    · obtain ⟨h₁, h₂⟩ := hkept (by omega)
      rw [← h₁, hblk i (by omega), if_neg (by omega), h₂]
    · rw [levelTwo, hkeep _ (mem_indexSectors.mpr (.inr (.inl ⟨by omega, rfl⟩)))
        (by rw [(hkept (by omega)).1]; exact (hk.laid.index_apart (by omega)).1.symm), levelTwo]
    · rw [hkeep _ (mem_indexSectors.mpr (.inr (.inr ⟨i, by omega, rfl⟩)))
        (by rw [(hkept (by omega)).1]; exact ((hk.laid.index_apart (by omega)).2 i (by omega)).1)]
  have hsec : ∀ j < D.length, sectorAt k₃.dev.device.disk d' (n + j) = D.getD j 0 :=
    fun j hj => by
      rw [sectorAt, if_neg (by omega), if_pos (by omega), hb', hblk _ (by omega), if_pos (by omega)]
      congr 1
      omega
  refine Grown.of_parts hk htakes hag hsec (I := T) ?_ (Perm.refl _)
    (fun u hu => hI.eq_of_mem hu ▸ ht₃.quiet (ht₂.quiet hI.quiet))
    (ht₂.zeroed hI.quiet ht₃ (fun _ => id) hD) (fun i hi => ?_) ?_ ?_ ?_ ⟨rfl, rfl, rfl, rfl, rfl⟩
  · by_cases h13 : n = 13
    · rw [indexSectors_one _ _ (by omega) (by omega), indexSectors_none _ _ (by omega), hb',
        hI.taken h13]
      rfl
    · rw [(hI.kept h13).1, append_nil]
      by_cases h141 : n ≤ 141
      · rw [indexSectors_one _ _ (by omega) (by omega), indexSectors_one _ _ (by omega) h141, hb',
          (hkept (by omega)).1]
      · rw [show n + D.length = n by omega]
        exact hag.indexSectors_eq
  · by_cases hi13 : i = 13
    · rw [hi13, hb', mem_append]
      exact hI.named.imp And.right .inl
    · exact .inl (hsame i hi hi13)
  · show d.direct_count = _
    rw [hk.laid.direct]
    omega
  · show s.2.1 = _
    omega
  · show d.double_indirect_count = _
    rw [hk.laid.double]
    omega

/-! ### The double indirect blocks -/

/-- Whole second-level blocks `L` from entry `c` of `one` on name `g` new data sectors `D`. -/
structure LevelTwoGrown (F : Sector → Prop) (k : Fs) (one : Block) (c g : Nat) (es : List Event)
    (one' : Block) (k' : Fs) (A L D : List Sector) : Prop where
  blocks : L.length = (g + 127) / 128
  data : D.length = g
  perm : A.Perm (L ++ D)
  takes : Takes F A (fun _ => False) es k k'
  quiet : ∀ t ∈ L, Quiet F k' t
  zero : ∀ t ∈ D, Quiet F k' t ∧ k'.dev.device.disk t = Bytes.zero
  entries : ∀ i < 128, entry one' i =
    if c ≤ i ∧ i < c + L.length then L.getD (i - c) 0 else entry one i
  sectors : ∀ j < g, entry (k'.dev.device.disk (L.getD (j / 128) 0)) (j % 128) = D.getD j 0

theorem LevelTwoGrown.none {one : Block} {c : Nat} (h : CacheOk k.dev.device) :
    LevelTwoGrown F k one c 0 [] one k [] [] [] where
  blocks := rfl
  data := rfl
  perm := Perm.refl _
  takes := Takes.refl h
  quiet := by simp
  zero := by simp
  entries i _ := by rw [if_neg (by simp only [length_nil]; omega)]
  sectors := by omega

/-- One block `t` that names the sectors `D₁`, and what follows. -/
theorem LevelTwoGrown.cons {k₁ k₂ : Fs} {one one' b : Block} {c : Nat} {t : Sector}
    {A L D D₁ : List Sector} {es es' : List Event} (hc : c < 128) (hlt : t < 2 ^ 32)
    (htake : Takes F (t :: D₁) (fun _ => False) es k k₁) (hq : Quiet F k₁ t)
    (hD : ∀ u ∈ D₁, Quiet F k₁ u ∧ k₁.dev.device.disk u = Bytes.zero)
    (hb : k₁.dev.device.disk t = b) (he : ∀ j < 128, j < D₁.length → entry b j = D₁.getD j 0)
    (hlen : D₁.length = min g 128) (hg : g ≠ 0)
    (h : LevelTwoGrown F k₁ (setEntry one c t) (c + 1) (g - D₁.length) es' one' k₂ A L D) :
    LevelTwoGrown F k one c g (es ++ es') one' k₂ (t :: D₁ ++ A) (t :: L) (D₁ ++ D) where
  blocks := by rw [length_cons, h.blocks]; omega
  data := by rw [length_append, h.data]; omega
  perm := by
    refine List.perm_iff_count.mpr fun a => ?_
    have := List.perm_iff_count.mp h.perm a
    simp only [List.cons_append, count_cons, count_append] at this ⊢
    omega
  takes := htake.trans h.takes fun _ => False.elim
  quiet u hu := by
    rcases List.mem_cons.mp hu with rfl | hu
    · exact h.takes.quiet hq
    · exact h.quiet u hu
  zero u hu := by
    rcases List.mem_append.mp hu with hu | hu
    · obtain ⟨hq, hz⟩ := hD u hu
      exact ⟨h.takes.quiet hq, by rw [h.takes.disk_quiet hq id, hz]⟩
    · exact h.zero u hu
  entries i hi := by rw [h.entries i hi, entry_setEntry hc hlt, getD_cons_from]
  sectors j hj := by
    by_cases hj' : j < D₁.length
    · rw [show j / 128 = 0 by omega, show j % 128 = j by omega]
      show entry (k₂.dev.device.disk t) j = _
      rw [h.takes.disk_quiet hq id, hb, he j (by omega) hj']
      simp only [getD_eq_getElem?_getD, getElem?_append_left hj']
    · have hlen₁ : D₁.length = 128 := by omega
      have hs := h.sectors (j - 128) (by omega)
      rw [show (j - 128) % 128 = j % 128 by omega] at hs
      rw [show j / 128 = (j - 128) / 128 + 1 by omega]
      refine hs.trans ?_
      simp only [getD_eq_getElem?_getD, getElem?_append_right (Nat.le_of_not_lt hj'),
        hlen₁]

theorem grow_level_two_done (fuel : Nat) (one two : Block) (count : Nat) :
    grow_level_two fuel one two count 0 = pure (one, count, 0) := by
  cases fuel with
  | zero => rfl
  | succ fuel => exact if_neg fun h => h.2 rfl

/-- From a whole number of second-level blocks on, the loop adds whole blocks. -/
theorem grow_level_two_runs (fuel : Nat) :
    ∀ {k : Fs} {one two : Block} {c g : Nat}, Calm ok F X k → g ≤ fuel → 128 * c + g ≤ 16384 →
    Supplied ok (g + (g + 127) / 128) k →
    (grow_level_two fuel one two (128 * c) g).Runs ok k fun es r k' => ∃ A L D,
      r.2 = (128 * c + g, 0) ∧ LevelTwoGrown F k one c g es r.1 k' A L D := by
  have hnone : ∀ {fuel : Nat} {k : Fs} {one two : Block} {c count : Nat}, CacheOk k.dev.device →
      (grow_level_two fuel one two count 0).Runs ok k fun es r k' => ∃ A L D,
        r.2 = (count, 0) ∧ LevelTwoGrown F k one c 0 es r.1 k' A L D := fun h => by
    rw [grow_level_two_done]
    exact .pure ⟨[], [], [], rfl, .none h⟩
  induction fuel with
  | zero =>
    intro k one two c g hk hg _ _
    obtain rfl : g = 0 := by omega
    exact hnone hk.cache
  | succ fuel ih =>
    intro k one two c g hk hg hcap hr₀
    by_cases h0 : g = 0
    · subst h0
      exact hnone hk.cache
    unfold grow_level_two
    have hlim : DOUBLE_INDIRECT_BLOCK_ENTRIES = 16384 := rfl
    rw [if_pos ⟨by omega, h0⟩, show 128 * c / 128 = c by omega]
    have hcond : 128 * c % 128 = 0 := by omega
    have hblock : (level_two_block one two (128 * c)).Runs ok k fun es r k' => ∃ t,
        r = (setEntry one c t, two) ∧ Takes F [t] (fun _ => False) es k k' ∧ Quiet F k' t ∧
        t < k.dev.device.size := by
      rw [level_two_block, if_pos hcond, show 128 * c / 128 = c by omega]
      refine .bind (allocate_into_runs hk (hr₀.mono (by omega))) fun es r k₁ _ ⟨t, hr, ht⟩ =>
        Machine.Runs.pure ⟨t, by rw [hr], ?_⟩
      rw [append_nil]
      exact ht
    refine .bind hblock fun es r k₁ _ ⟨t, hr, ht, hq, hs⟩ => ?_
    subst hr
    have hk₁ := ht.calm hk fun _ => False.elim
    have hlt : t < 2 ^ 32 := lt_of_lt_of_le hs hk.small
    have hr₁ := ht.supplied (m := g + (g + 127) / 128 - 1) hr₀
      (by rw [length_singleton]; omega)
    refine .bind (grow_loop_runs (M := 128)
      (fun b i j u hi _ hu => entry_setEntry hi hu) le_rfl g hk₁ (hr₁.mono (by omega)))
      fun es' s k₂ _ ⟨D₁, hlen, hcnt, hg', ht₂, hD, he⟩ => ?_
    rw [entry_setEntry (by omega) hlt, if_pos rfl]
    refine .bind (write_takes ht₂.cache (ht₂.quiet hq) (by rw [ht₂.size, ht.size]; exact hs))
      fun es'' _ k₃ _ ⟨ht₃, hdisk⟩ => ?_
    have hX : ¬ X t := fun hX => hk.used t (.inr hX) (ht.map.mem_free (List.mem_singleton.mpr rfl))
    have hk₃ := ht₃.calm (ht₂.calm hk₁ fun _ => False.elim) fun u hu => hu ▸ hX
    have htake : Takes F (t :: D₁) (fun _ => False) (es ++ (es' ++ es'')) k k₃ := by
      rw [← List.append_assoc, ← append_nil (t :: D₁)]
      exact (ht.trans ht₂ fun _ => False.elim).trans ht₃ fun u hu => .inr (by rw [hu]; simp)
    have hnext : (grow_level_two fuel (setEntry one c t) s.1 (128 * c + s.2.1) s.2.2).Runs ok k₃
        fun es r k' => ∃ A L D, r.2 = (128 * c + g, 0) ∧
          LevelTwoGrown F k₃ (setEntry one c t) (c + 1) (g - D₁.length) es r.1 k' A L D := by
      rw [hg', hcnt, Nat.zero_add]
      by_cases hgs : g ≤ 128
      · rw [show g - D₁.length = 0 by omega, show D₁.length = g by omega]
        exact hnone hk₃.cache
      · rw [show 128 * c + D₁.length = 128 * (c + 1) by omega,
          show 128 * c + g = 128 * (c + 1) + (g - D₁.length) by omega]
        have hr₂ := ht₂.supplied (m := g - D₁.length + (g - D₁.length + 127) / 128) hr₁ (by omega)
        exact ih hk₃ (by omega) (by omega) (ht₃.supplied hr₂ le_rfl)
    refine hnext.mono fun es₄ r k₄ _ ⟨A, L, D, hr, h⟩ => ⟨t :: D₁ ++ A, t :: L, D₁ ++ D, hr, ?_⟩
    rw [show es ++ (es' ++ (es'' ++ es₄)) = es ++ (es' ++ es'') ++ es₄ by simp]
    refine .cons (by omega) hlt htake (ht₃.quiet (ht₂.quiet hq))
      (ht₂.zeroed hq ht₃ (fun _ => id) hD) (by rw [hdisk, update_self]) (fun j hj hj' => ?_)
      (by omega) h0 h
    rw [he j hj, if_pos (by omega), Nat.sub_zero]

end Parts

end Pintos
