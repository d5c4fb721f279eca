import Pintos.Filesys.GrowthSound

/-!
# Filesys — `inode_grow` as a whole

The last part of `inode_grow`, for the double indirect blocks, and the three parts chained.
`Aligned n n'` is the growth that `inode_grow` carries out soundly: from `n` to `n'` sectors
without resuming a partly filled second-level block.
-/

namespace Pintos
open Support Function List

/-- Growing from `n` to `n'` sectors resumes no partly filled second-level block. -/
def Aligned (n n' : Nat) : Prop := n' ≤ n ∨ n' ≤ 141 ∨ n ≤ 141 ∨ (n - 141) % 128 = 0

instance (n n' : Nat) : Decidable (Aligned n n') := inferInstanceAs (Decidable (_ ∨ _))

section Double

variable {ok : Event → Prop} {F X : Sector → Prop} {k : Fs} {d : InodeDisk} {n g : Nat}

theorem grow_double_runs (hk : Growable ok F X k d n)
    (hn : g ≠ 0 → 141 ≤ n ∧ (n - 141) % 128 = 0) (hcap : n + g ≤ 16525)
    (hr₀ : Supplied ok (ownedLength (n + g) - ownedLength n) k) :
    (grow_double d g).Runs ok k fun es r k' => ∃ A,
      Grown F k d n k' r.1 (n + g) A es ∧ r.2 = 0 := by
  unfold grow_double
  by_cases hg : g = 0
  · rw [if_pos hg, hg]
    exact .pure ⟨[], Grown.keep hk (Takes.refl hk.calm.cache) (fun _ _ => rfl)
      (fun _ _ => rfl) rfl rfl rfl ⟨rfl, rfl, rfl, rfl, rfl⟩, rfl⟩
  rw [if_neg hg]
  obtain ⟨hn, hal⟩ := hn hg
  obtain ⟨c, hc⟩ : ∃ c, n = 141 + 128 * c := ⟨(n - 141) / 128, by omega⟩
  have hdc : d.double_indirect_count = 128 * c := by rw [hk.laid.double]; omega
  have hnew : (d.double_indirect_count == 0) = true ↔ n = 141 := by
    rw [beq_iff_eq]
    omega
  have hold : n ≠ 141 → d.block 14 ∈ indexSectors k.dev.device.disk d n :=
    fun h => mem_indexSectors.mpr (.inr (.inl ⟨by omega, rfl⟩))
  unfold ownedLength at hr₀
  refine .bind (index_block_runs hnew hk hold fun h => hr₀.mono (by omega))
    fun es ⟨d₁, one⟩ k₁ _ ⟨T, t, hI⟩ => ?_
  obtain rfl : d₁ = d.setBlock 14 t := hI.inode
  refine .bind (uninit_takes (F := F) hI.takes.cache) fun es₁ two k₂ _ ⟨ht₂, hdev, _⟩ => ?_
  have hk₂ := ht₂.calm (hI.takes.calm hk.calm fun _ => False.elim) fun _ => False.elim
  have hTlen := hI.length
  have hr₂ := ht₂.supplied (hI.takes.supplied (m := g + (g + 127) / 128) hr₀
    (by split at hTlen <;> omega)) le_rfl
  rw [show (d.setBlock 14 t).double_indirect_count = 128 * c from hdc]
  refine .bind (grow_level_two_runs g hk₂ le_rfl (by omega) hr₂) fun es₂ s k₃ _
    ⟨A, L, D, hs, hL⟩ => ?_
  have ht₃ := ht₂.trans hL.takes fun _ => False.elim
  have hq₃ := ht₃.quiet hI.quiet
  have hb : ∀ i < 15, (d.setBlock 14 t).block i = if i = 14 then t else d.block i :=
    fun i hi => InodeDisk.block_setBlock (by omega) hi
  rw [hb 14 (by omega), if_pos rfl]
  refine .bind (write_takes ht₃.cache hq₃ (by rw [ht₃.size, hI.takes.size]; exact hI.lt))
    fun es₃ _ k₄ _ ⟨ht₄, hdisk⟩ => .pure ⟨T ++ A, ?_, by rw [hs]⟩
  obtain ⟨htakes, hkeep⟩ := hI.written hk hold ht₃ ht₄
  rw [List.append_assoc] at htakes
  rw [append_nil]
  set d' : InodeDisk := { d.setBlock 14 t with double_indirect_count := s.2.1 } with hd'
  replace hb : ∀ i < 15, d'.block i = if i = 14 then t else d.block i := hb
  have hb' : d'.block 14 = t := (hb 14 (by omega)).trans (if_pos rfl)
  have hsame : ∀ i < 15, i ≠ 14 → d'.block i = d.block i := fun i hi hne =>
    (hb i hi).trans (if_neg hne)
  have hkept : 141 < n → t = d.block 14 ∧ one = k.dev.device.disk t := fun h =>
    (hI.kept (by omega)).2
  have h13 : d.block 13 ≠ t := fun e => by
    rcases hI.named with ⟨h141, ht⟩ | hT
    · exact (hk.laid.index_apart (by omega)).1 (e.trans ht)
    · exact (hk.quiet (d.block 13) (mem_indexSectors.mpr (.inl ⟨by omega, rfl⟩))).used
        (hI.takes.map.mem_free (e ▸ hT))
  have htwo : ∀ i, levelTwo k₄.dev.device.disk d' i = entry s.1 i := fun i => by
    rw [levelTwo, hb', hdisk, update_self]
  have hold₂ : ∀ i < c, entry s.1 i = levelTwo k.dev.device.disk d i := fun i hi => by
    obtain ⟨h₁, h₂⟩ := hkept (by omega)
    rw [hL.entries i (by omega), if_neg (by omega), h₂, h₁]
    rfl
  have hnew₂ : ∀ i < L.length, entry s.1 (c + i) = L.getD i 0 := fun i hi => by
    have := hL.blocks
    rw [hL.entries _ (by omega), if_pos (by omega), Nat.add_sub_cancel_left]
  have hag : Agree k.dev.device.disk d k₄.dev.device.disk d' n := by
    refine ⟨fun i hi => hsame i (by omega) (by omega), fun _ => hsame 13 (by omega) (by omega),
      fun i hi => ?_, fun h => hb'.trans (hkept h).1, fun i hi => ?_, fun i j hj hi => ?_⟩
    · rw [hkeep _ (mem_indexSectors.mpr (.inl ⟨by omega, rfl⟩)) h13]
    · rw [← hold₂ i (by omega), ← htwo i, levelTwo, levelTwo, hb', ← (hkept (by omega)).1]
    · refine congrArg (entry · j) (hkeep _ (mem_indexSectors.mpr (.inr (.inr ⟨i, by omega, rfl⟩))) ?_)
      rw [(hkept (by omega)).1]
      exact ((hk.laid.index_apart (by omega)).2 i (by omega)).2
  have hsec : ∀ j < D.length, sectorAt k₄.dev.device.disk d' (n + j) = D.getD j 0 :=
    fun j hj => by
      have hjL : j / 128 < L.length := by rw [hL.blocks]; have := hL.data; omega
      have hne : L.getD (j / 128) 0 ≠ t := fun e => hI.quiet.used
        (ht₃.map.mem_free (hL.perm.mem_iff.mpr (mem_append_left _ (e ▸ getD_mem hjL))))
      rw [sectorAt, if_neg (by omega), if_neg (by omega),
        show (n + j - 141) / 128 = c + j / 128 by omega, show (n + j - 141) % 128 = j % 128 by omega,
        htwo, hnew₂ _ hjL, hdisk, update_of_ne hne]
      exact hL.sectors j (hL.data ▸ hj)
  have hlen := hL.data
  rw [show n + g = n + D.length by rw [hlen]]
  refine Grown.of_parts hk htakes hag hsec (I := T ++ L) ?_ ?_ (fun u hu => ?_)
    (ht₃.zeroed hI.quiet ht₄ (fun u hu => hL.perm.mem_iff.mpr (mem_append_right _ hu)) hL.zero)
    (fun i hi => ?_) ?_ ?_ ?_ ⟨rfl, rfl, rfl, rfl, rfl⟩
  · have hmap : (List.range (c + L.length)).map (levelTwo k₄.dev.device.disk d') =
        (List.range c).map (levelTwo k.dev.device.disk d) ++ L := by
      rw [List.range_add, map_append]
      refine congrArg₂ (· ++ ·) (map_congr_left fun i hi => ?_) ?_
      · rw [htwo, hold₂ i (List.mem_range.mp hi)]
      · refine ext_getElem (by simp) fun i h₁ h₂ => ?_
        have hi : i < L.length := h₂
        rw [getElem_map, getElem_map, getElem_range, htwo, hnew₂ i hi]
        simp [List.getD, hi]
    have hblocks := hL.blocks
    rw [indexSectors_two _ _ (by omega) (show (n + D.length - 141 + 127) / 128 = c + L.length by omega),
      hmap, hb', hsame 13 (by omega) (by omega)]
    by_cases h141 : n = 141
    · rw [indexSectors_one _ _ (by omega) (by omega), hI.taken h141, show c = 0 by omega]
      rfl
    · rw [indexSectors_two _ _ (by omega) (show (n - 141 + 127) / 128 = c by omega),
        (hI.kept h141).1, (hkept (by omega)).1]
      rfl
  · rw [List.append_assoc]
    exact hL.perm.append_left T
  · rcases List.mem_append.mp hu with hu | hu
    · exact hI.eq_of_mem hu ▸ ht₄.quiet hq₃
    · exact ht₄.quiet (hL.quiet u hu)
  · by_cases hi14 : i = 14
    · rw [hi14, hb', mem_append]
      exact hI.named.imp And.right .inl
    · exact .inl (hsame i hi hi14)
  · show d.direct_count = _
    rw [hk.laid.direct]
    omega
  · show d.indirect_count = _
    rw [hk.laid.indirect]
    omega
  · show s.2.1 = _
    rw [hs]
    omega

end Double

/-! ### The whole function -/

theorem grow_sectors_eq {old length : Nat} (hold : (old + 511) / 512 ≤ 16525)
    (hlen : (length + 511) / 512 ≤ 16525) (hle : (old + 511) / 512 ≤ (length + 511) / 512) :
    grow_sectors old length = (length + 511) / 512 - (old + 511) / 512 := by
  rw [grow_sectors, bytes_to_sectors_eq (by omega), bytes_to_sectors_eq (by omega)]
  omega

section Whole

variable {ok : Event → Prop} {F X : Sector → Prop} {k k' : Fs} {d : InodeDisk} {n : Nat}

theorem Takes.cons {A : List Sector} {W : Sector → Prop} {es : List Event} {e : Event}
    (h : Takes F A W es k k') (he : ∀ w s, e ≠ .write w s) : Takes F A W (e :: es) k k' :=
  { h with writes := fun t ht => h.writes t ((List.mem_cons.mp ht).resolve_left (he _ t).symm) }

/-- The layout does not look at the length. -/
theorem Growable.setLength (h : Growable ok F X k d n) (length : Nat) :
    Growable ok F X k { d with length := length } n :=
  ⟨h.calm, ⟨h.laid.cap, h.laid.direct, h.laid.indirect, h.laid.double, h.laid.nodup,
    h.laid.valid⟩, h.used, h.quiet, h.apart⟩

/-- Where it resumes no partly filled block, `inode_grow` extends the inode to the length asked
for. -/
theorem inode_grow_runs {length : Nat} (hk : Growable ok F X k d ((d.length + 511) / 512))
    (hle : (d.length + 511) / 512 ≤ (length + 511) / 512) (hcap : (length + 511) / 512 ≤ 16525)
    (hal : Aligned ((d.length + 511) / 512) ((length + 511) / 512))
    (hr : Supplied ok (ownedLength ((length + 511) / 512) - ownedLength ((d.length + 511) / 512)) k) :
    (inode_grow d length).Runs ok k fun es r k' => r.1 = true ∧ ∃ A,
      Grown F k { d with length := length } ((d.length + 511) / 512) k' r.2
        ((length + 511) / 512) A es := by
  refine .emit_bind fun _ => ?_
  rw [grow_sectors_eq hk.laid.cap hcap hle]
  generalize (d.length + 511) / 512 = n at *
  generalize (length + 511) / 512 = n' at *
  obtain ⟨g, rfl⟩ := Nat.exists_eq_add_of_le hle
  rw [Nat.add_sub_cancel_left]
  have hk := hk.setLength length
  by_cases hg : g = 0
  · rw [if_pos hg, hg]
    exact .pure ⟨rfl, [], Grown.keep hk ((Takes.refl hk.calm.cache).cons (by simp))
      (fun _ _ => rfl) (fun _ _ => rfl) rfl rfl rfl ⟨rfl, rfl, rfl, rfl, rfl⟩⟩
  rw [if_neg hg]
  have hpart : ∀ {m m'}, m' ≤ n + g → ownedLength m' - ownedLength m ≤
      ownedLength (n + g) - ownedLength m := fun h => Nat.sub_le_sub_right (ownedLength_mono h) _
  refine .bind (grow_direct_runs (g := g) hk (hr.mono (hpart (by omega)))) fun es₁ r₁ k₁ _ ⟨A₁, h₁, hg₁⟩ => ?_
  have hk₁ := h₁.growable hk (by omega)
  have hr₁ := h₁.supplied (by omega) hr
  rw [hg₁]
  refine .bind (grow_indirect_runs (g := g - min g (13 - n)) hk₁ (by omega)
    (hr₁.mono (hpart (by omega))))
    fun es₂ r₂ k₂ _ ⟨A₂, h₂, hg₂⟩ => ?_
  have hk₂ := h₂.growable hk₁ (by omega)
  have hr₂ := h₂.supplied (by omega) hr₁
  rw [hg₂]
  have hal₂ : g - min g (13 - n) - min (g - min g (13 - n)) (141 - (n + min g (13 - n))) ≠ 0 →
      141 ≤ n + min g (13 - n) + min (g - min g (13 - n)) (141 - (n + min g (13 - n))) ∧
      (n + min g (13 - n) + min (g - min g (13 - n)) (141 - (n + min g (13 - n))) - 141) % 128 =
        0 := by
    unfold Aligned at hal
    omega
  refine .bind (grow_double_runs hk₂ hal₂ (by omega) (hr₂.mono (hpart (by omega))))
    fun es₃ r₃ k₃ _ ⟨A₃, h₃, _⟩ => .pure ⟨rfl, A₁ ++ (A₂ ++ A₃), ?_⟩
  have h := h₁.trans (h₂.trans h₃ hk₂) hk₁
  rw [show n + min g (13 - n) + min (g - min g (13 - n)) (141 - (n + min g (13 - n))) +
    (g - min g (13 - n) - min (g - min g (13 - n)) (141 - (n + min g (13 - n)))) = n + g by
    omega] at h
  rw [append_nil]
  exact { h with takes := h.takes.cons (by simp) }

end Whole

end Pintos
