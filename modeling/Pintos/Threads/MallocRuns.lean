import Pintos.Threads.Malloc

/-!
# Threads — The heap invariant

Every arena that is handed out is cut into blocks, each of which is live or on the free list of its
descriptor (`Heap.Core`).  The functions change one of four things at a time: an arena comes, a
block is taken, a block is given back, an arena goes.  Between calls every arena has a live block
besides (`Heap.Occupied`).

`heap_sound` collects what holds after any calls: live blocks are apart from each other, from free
blocks and from headers, the counters are right, arenas are kept exactly as long as they have a live
block, and the next call runs without a failed assertion.
-/

namespace Pintos
open Function List Option

variable {d e : Desc} {p q b n c cap x b' start : Nat} {s s' : Heap} {live : Live} {l : List Nat}

/-! ### Blocks of an arena -/

/-- The blocks of the arena `p`. -/
def Desc.blocks (d : Desc) (p : Nat) : List Nat :=
  (List.range d.blocks_per_arena).map fun i => p + ARENA_SIZE + i * d.block_size

theorem descs_ok : ∀ d ∈ descs, 16 ≤ d.block_size ∧ d.block_size ≤ 1024 ∧ 0 < d.blocks_per_arena ∧
    ARENA_SIZE + d.blocks_per_arena * d.block_size ≤ PGSIZE := by
  decide

theorem descs_small : ∀ d ∈ descs, d.blocks_per_arena ≤ 255 := by decide

theorem Desc.mem_blocks : b ∈ d.blocks p ↔
    ∃ i < d.blocks_per_arena, b = p + ARENA_SIZE + i * d.block_size := by
  simp [Desc.blocks, eq_comm]

/-- A block lies in its page, after the header. -/
theorem Desc.blocks_bounds (hd : d ∈ descs) (hb : b ∈ d.blocks p) :
    p + ARENA_SIZE ≤ b ∧ b + d.block_size ≤ p + PGSIZE := by
  obtain ⟨i, hi, rfl⟩ := Desc.mem_blocks.mp hb
  obtain ⟨-, -, -, hfit⟩ := descs_ok d hd
  have hmul : (i + 1) * d.block_size ≤ d.blocks_per_arena * d.block_size :=
    Nat.mul_le_mul_right _ hi
  rw [Nat.add_mul, Nat.one_mul] at hmul
  omega

/-- Two blocks of an arena. -/
theorem Desc.blocks_apart (hb : b ∈ d.blocks p) (hb' : b' ∈ d.blocks p) (hne : b ≠ b') :
    b + d.block_size ≤ b' ∨ b' + d.block_size ≤ b := by
  obtain ⟨i, -, rfl⟩ := Desc.mem_blocks.mp hb
  obtain ⟨j, -, rfl⟩ := Desc.mem_blocks.mp hb'
  rcases Nat.lt_trichotomy i j with h | rfl | h
  · have := Nat.mul_le_mul_right d.block_size h
    rw [Nat.succ_mul] at this
    omega
  · exact absurd rfl hne
  · have := Nat.mul_le_mul_right d.block_size h
    rw [Nat.succ_mul] at this
    omega

theorem Desc.blocks_nodup (hd : d ∈ descs) (p : Nat) : (d.blocks p).Nodup := by
  refine List.nodup_range.map fun i j hij => ?_
  have hpos := (descs_ok d hd).1
  exact Nat.eq_of_mul_eq_mul_right (show 0 < d.block_size by omega) (by simpa using hij)

theorem round_down_of_mem (hp : p % PGSIZE = 0) (h : p + PGSIZE ≤ 2 ^ 32) (hle : p ≤ b)
    (hlt : b < p + PGSIZE) : pg_round_down b = p ∧ pg_ofs b = b - p := by
  rw [pg_round_down_eq (by omega), pg_ofs_eq]
  simp only [PGSIZE] at *
  omega

/-! ### The invariant -/

/-- `c` pages from `p` on are an arena. -/
structure ArenaOk (s : Heap) (p c : Nat) : Prop where
  aligned : p % PGSIZE = 0
  pos : 0 < p
  fits : p + c * PGSIZE ≤ 2 ^ 32
  magic : (s.header p).magic = ARENA_MAGIC
  big : (s.header p).desc = none → (s.header p).free_cnt = c ∧ 0 < c
  small : ∀ d, (s.header p).desc = some d → c = 1 ∧ d ∈ descs

/-- The block `b` of `n` bytes is in the arena of `c` pages at `p`, and not free. -/
inductive LiveAt (s : Heap) (p c b n : Nat) : Prop where
  | big (desc : (s.header p).desc = none) (start : b = p + ARENA_SIZE)
      (fits : n + ARENA_SIZE ≤ c * PGSIZE)
  | small (d : Desc) (desc : (s.header p).desc = some d) (mem : b ∈ d.blocks p)
      (fits : n ≤ d.block_size) (taken : b ∉ s.free_list d)

/-- The arenas, the free lists and the live blocks fit together. -/
structure Heap.Core (live : Live) (s : Heap) : Prop where
  arena : ∀ p c, s.pages p = some c → ArenaOk s p c
  apart : ∀ p c q e, s.pages p = some c → s.pages q = some e → p ≠ q →
    p + c * PGSIZE ≤ q ∨ q + e * PGSIZE ≤ p
  nodup : ∀ d, (s.free_list d).Nodup
  listed : ∀ d b, b ∈ s.free_list d →
    ∃ p c, s.pages p = some c ∧ (s.header p).desc = some d ∧ b ∈ d.blocks p
  taken : ∀ b n, live b = some n → ∃ p c, s.pages p = some c ∧ LiveAt s p c b n
  covers : ∀ p c d, s.pages p = some c → (s.header p).desc = some d → ∀ b ∈ d.blocks p,
    b ∈ s.free_list d ∨ (live b).isSome = true
  count : ∀ p c d, s.pages p = some c → (s.header p).desc = some d →
    (s.header p).free_cnt = (s.free_list d).countP fun b => pg_round_down b = p

/-- Every arena has a live block. -/
def Heap.Occupied (live : Live) (s : Heap) : Prop :=
  ∀ p c, s.pages p = some c → ∃ b n, live b = some n ∧ pg_round_down b = p

namespace ArenaOk

section

variable (h : ArenaOk s p c)
include h

theorem cnt_pos : 0 < c := by
  cases hdesc : (s.header p).desc with
  | none => exact (h.big hdesc).2
  | some d => rw [(h.small d hdesc).1]; exact Nat.one_pos

theorem block (hdesc : (s.header p).desc = some d) (hb : b ∈ d.blocks p) :
    p + ARENA_SIZE ≤ b ∧ b + d.block_size ≤ p + c * PGSIZE ∧ pg_round_down b = p ∧
      pg_ofs b = b - p := by
  obtain ⟨hc, hd⟩ := h.small d hdesc
  obtain ⟨hle, hlt⟩ := Desc.blocks_bounds hd hb
  have hfits := h.fits
  rw [hc, Nat.one_mul] at hfits ⊢
  have := (descs_ok d hd).1
  exact ⟨hle, hlt, round_down_of_mem h.aligned hfits (by omega) (by omega)⟩

theorem block_to_arena (hdesc : (s.header p).desc = some d) (hb : b ∈ d.blocks p) :
    s.block_to_arena b = some p := by
  obtain ⟨hle, -, hpage, hofs⟩ := h.block hdesc hb
  obtain ⟨i, hi, rfl⟩ := Desc.mem_blocks.mp hb
  obtain ⟨hc, hd⟩ := h.small d hdesc
  have hbound := (Desc.blocks_bounds hd hb).2
  have hmod : (pg_ofs (p + ARENA_SIZE + i * d.block_size) + 2 ^ 32 - ARENA_SIZE) % 2 ^ 32 =
      i * d.block_size := by
    simp only [ARENA_SIZE, PGSIZE] at *
    omega
  rw [Heap.block_to_arena, hpage, if_pos ⟨by have := h.pos; omega, h.magic⟩, hdesc]
  simp only
  rw [hmod, Nat.mul_mod_left, if_pos rfl]

theorem big_block (hc : 0 < c) :
    pg_round_down (p + ARENA_SIZE) = p ∧ pg_ofs (p + ARENA_SIZE) = ARENA_SIZE := by
  have hfits := h.fits
  have := round_down_of_mem (b := p + ARENA_SIZE) h.aligned (by
    simp only [PGSIZE] at *
    omega) (by omega) (by simp only [ARENA_SIZE, PGSIZE]; omega)
  rwa [Nat.add_sub_cancel_left] at this

theorem block_size_small (hdesc : (s.header p).desc = some d) (hb : b ∈ d.blocks p) :
    s.block_size b = some d.block_size := by
  rw [Heap.block_size, h.block_to_arena hdesc hb]
  simp only [bind_eq_bind, bind_some, hdesc]

theorem big_to_arena (hdesc : (s.header p).desc = none) :
    s.block_to_arena (p + ARENA_SIZE) = some p := by
  obtain ⟨hpage, hofs⟩ := h.big_block (h.big hdesc).2
  rw [Heap.block_to_arena, hpage, if_pos ⟨by have := h.pos; omega, h.magic⟩, hdesc]
  exact if_pos hofs

theorem block_size_big (hdesc : (s.header p).desc = none) :
    s.block_size (p + ARENA_SIZE) = some (c * PGSIZE - ARENA_SIZE) := by
  obtain ⟨hcnt, hc⟩ := h.big hdesc
  have hfits := h.fits
  rw [Heap.block_size, h.big_to_arena hdesc]
  simp only [bind_eq_bind, bind_some, hdesc, hcnt, (h.big_block hc).2,
    Option.some.injEq]
  simp only [ARENA_SIZE, PGSIZE] at *
  omega

/-- The counter of an arena of small blocks changes. -/
theorem recount (hmagic : (s'.header p).magic = (s.header p).magic)
    (hdesc : (s'.header p).desc = (s.header p).desc)
    (hbig : (s.header p).desc = none → (s'.header p).free_cnt = (s.header p).free_cnt) :
    ArenaOk s' p c :=
  ⟨h.aligned, h.pos, h.fits, hmagic.trans h.magic, fun hn => by
      rw [hdesc] at hn
      rw [hbig hn]
      exact h.big hn,
    fun d hd => h.small d (hdesc ▸ hd)⟩

end

end ArenaOk

namespace LiveAt

theorem page (h : LiveAt s p c b n) (hok : ArenaOk s p c) : pg_round_down b = p := by
  cases h with
  | big hdesc hb => rw [hb]; exact (hok.big_block (hok.big hdesc).2).1
  | small d hdesc hmem => exact (hok.block hdesc hmem).2.2.1

/-- A live block is as large as has been asked for, and lies in its arena after the header. -/
theorem extent (h : LiveAt s p c b n) (hok : ArenaOk s p c) : ∃ cap, s.block_size b = some cap ∧
    n ≤ cap ∧ p + ARENA_SIZE ≤ b ∧ b + cap ≤ p + c * PGSIZE := by
  cases h with
  | big hdesc hb hfits =>
    subst hb
    exact ⟨_, hok.block_size_big hdesc, by omega, le_rfl, by omega⟩
  | small d hdesc hmem hfits =>
    obtain ⟨hle, hlt, -, -⟩ := hok.block hdesc hmem
    exact ⟨_, hok.block_size_small hdesc hmem, hfits, hle, hlt⟩

theorem to_arena (h : LiveAt s p c b n) (hok : ArenaOk s p c) : s.block_to_arena b = some p := by
  cases h with
  | big hdesc hb => rw [hb]; exact hok.big_to_arena hdesc
  | small d hdesc hmem => exact hok.block_to_arena hdesc hmem

/-- Two live blocks of one arena. -/
theorem apart {n' cap' : Nat} (h : LiveAt s p c b n) (h' : LiveAt s p c b' n') (hok : ArenaOk s p c)
    (hne : b ≠ b') (hcap : s.block_size b = some cap) (hcap' : s.block_size b' = some cap') :
    b + cap ≤ b' ∨ b' + cap' ≤ b := by
  cases h with
  | big hdesc hb =>
    cases h' with
    | big _ hb' => exact absurd (hb.trans hb'.symm) hne
    | small d hdesc' => exact absurd (hdesc.symm.trans hdesc') nofun
  | small d hdesc hmem =>
    cases h' with
    | big hdesc' => exact absurd (hdesc'.symm.trans hdesc) nofun
    | small d' hdesc' hmem' =>
      obtain rfl : d = d' := Option.some.inj (hdesc.symm.trans hdesc')
      rw [hok.block_size_small hdesc hmem] at hcap
      rw [hok.block_size_small hdesc hmem'] at hcap'
      obtain rfl := Option.some.inj hcap
      obtain rfl := Option.some.inj hcap'
      exact Desc.blocks_apart hmem hmem' hne

end LiveAt

namespace Heap.Core

/-- A live block is in the arena that its page begins with. -/
theorem live_page (h : s.Core live) (hb : live b = some n) :
    ∃ c, s.pages (pg_round_down b) = some c ∧ LiveAt s (pg_round_down b) c b n := by
  obtain ⟨p, c, hp, hat⟩ := h.taken b n hb
  rw [hat.page (h.arena p c hp)]
  exact ⟨c, hp, hat⟩

theorem free_page (h : s.Core live) (hb : b ∈ s.free_list d) :
    ∃ c, s.pages (pg_round_down b) = some c ∧ (s.header (pg_round_down b)).desc = some d ∧
      b ∈ d.blocks (pg_round_down b) := by
  obtain ⟨p, c, hp, hdesc, hmem⟩ := h.listed d b hb
  rw [((h.arena p c hp).block hdesc hmem).2.2.1]
  exact ⟨c, hp, hdesc, hmem⟩

/-- The size of a live block, as `block_size` finds it. -/
theorem live_size (h : s.Core live) (hb : live b = some n) :
    ∃ cap, s.block_size b = some cap ∧ n ≤ cap := by
  obtain ⟨c, hp, hat⟩ := h.live_page hb
  obtain ⟨cap, hcap, hn, -⟩ := hat.extent (h.arena _ c hp)
  exact ⟨cap, hcap, hn⟩

theorem live_apart {n' cap' : Nat} (h : s.Core live) (hb : live b = some n)
    (hb' : live b' = some n') (hne : b ≠ b') (hcap : s.block_size b = some cap)
    (hcap' : s.block_size b' = some cap') : b + cap ≤ b' ∨ b' + cap' ≤ b := by
  obtain ⟨c, hp, hat⟩ := h.live_page hb
  obtain ⟨c', hp', hat'⟩ := h.live_page hb'
  by_cases hpage : pg_round_down b = pg_round_down b'
  · rw [← hpage] at hp' hat'
    obtain rfl : c = c' := Option.some.inj (hp.symm.trans hp')
    exact hat.apart hat' (h.arena _ c hp) hne hcap hcap'
  · obtain ⟨k, hk, -, hle, hlt⟩ := hat.extent (h.arena _ c hp)
    obtain ⟨k', hk', -, hle', hlt'⟩ := hat'.extent (h.arena _ c' hp')
    obtain rfl : cap = k := Option.some.inj (hcap.symm.trans hk)
    obtain rfl : cap' = k' := Option.some.inj (hcap'.symm.trans hk')
    rcases h.apart _ c _ c' hp hp' hpage with ha | ha <;> omega

/-- A live block is apart from every header. -/
theorem header_apart (h : s.Core live) (hb : live b = some n) (hcap : s.block_size b = some cap)
    (hp : s.pages p = some c) :
    b + cap ≤ p ∨ p + ARENA_SIZE ≤ b := by
  obtain ⟨c', hp', hat⟩ := h.live_page hb
  obtain ⟨k, hk, -, hle, hlt⟩ := hat.extent (h.arena _ c' hp')
  obtain rfl : cap = k := Option.some.inj (hcap.symm.trans hk)
  by_cases hpage : pg_round_down b = p
  · exact .inr (hpage ▸ hle)
  · have hc := (h.arena p c hp).cnt_pos
    rcases h.apart _ c' _ c hp' hp hpage with ha | ha <;> omega

theorem live_ne_zero (h : s.Core live) (hb : live b = some n) : b ≠ 0 := by
  obtain ⟨c, hp, hat⟩ := h.live_page hb
  obtain ⟨k, -, -, hle, -⟩ := hat.extent (h.arena _ c hp)
  have := (h.arena _ c hp).pos
  omega

/-! ### Changes -/

/-- The arena at `p` by itself: its blocks are live, or on the free list that its counter counts. -/
structure ArenaSound (live : Live) (s : Heap) (p c : Nat) : Prop where
  arena : ArenaOk s p c
  listed : ∀ d b, b ∈ s.free_list d → pg_round_down b = p →
    (s.header p).desc = some d ∧ b ∈ d.blocks p
  taken : ∀ b n, live b = some n → pg_round_down b = p → LiveAt s p c b n
  covers : ∀ d, (s.header p).desc = some d → ∀ b ∈ d.blocks p,
    b ∈ s.free_list d ∨ (live b).isSome = true
  count : ∀ d, (s.header p).desc = some d →
    (s.header p).free_cnt = (s.free_list d).countP fun b => pg_round_down b = p

variable {a cnt : Nat} {live' : Live}

theorem sound (h : s.Core live) (hp : s.pages p = some c) : ArenaSound live s p c := by
  refine ⟨h.arena p c hp, fun d b hb e => ?_, fun b n hb e => ?_, fun d => h.covers p c d hp,
    fun d => h.count p c d hp⟩
  · obtain ⟨-, -, hdesc, hmem⟩ := h.free_page hb
    exact e ▸ ⟨hdesc, hmem⟩
  · obtain ⟨c', hp', hat⟩ := h.live_page hb
    subst e
    obtain rfl : c = c' := Option.some.inj (hp.symm.trans hp')
    exact hat

/-- There are no blocks outside of arenas. -/
theorem no_block (h : s.Core live) (hp : s.pages p = none) :
    (∀ d b, b ∈ s.free_list d → pg_round_down b ≠ p) ∧
      ∀ b n, live b = some n → pg_round_down b ≠ p := by
  refine ⟨fun d b hb e => ?_, fun b n hb e => ?_⟩
  · obtain ⟨c, hc, -⟩ := h.free_page hb
    exact nomatch hp.symm.trans (e ▸ hc : s.pages p = some c)
  · obtain ⟨c, hc, -⟩ := h.live_page hb
    exact nomatch hp.symm.trans (e ▸ hc : s.pages p = some c)

/-- An arena that has kept its header and its blocks. -/
theorem ArenaSound.congr (h : ArenaSound live s p c) (hheader : s'.header p = s.header p)
    (hnodup : ∀ e, (s.free_list e).Nodup ∧ (s'.free_list e).Nodup)
    (hlist : ∀ e b, pg_round_down b = p → (b ∈ s'.free_list e ↔ b ∈ s.free_list e))
    (hlive : ∀ b, pg_round_down b = p → live' b = live b) : ArenaSound live' s' p c := by
  refine ⟨h.arena.recount (by rw [hheader]) (by rw [hheader]) fun _ => by rw [hheader],
    fun d b hb hbp => ?_, fun b n hb hbp => ?_, fun d hd b hb => ?_, fun d hd => ?_⟩
  · rw [hheader]
    exact h.listed d b ((hlist d b hbp).mp hb) hbp
  · rw [hlive b hbp] at hb
    cases h.taken b n hb hbp with
    | big hdesc hstart hfits => exact .big (by rwa [hheader]) hstart hfits
    | small d hdesc hmem hfits htaken =>
      exact .small d (by rwa [hheader]) hmem hfits fun hb => htaken ((hlist d b hbp).mp hb)
  · rw [hheader] at hd
    have hbp := (h.arena.block hd hb).2.2.1
    rw [hlist d b hbp, hlive b hbp]
    exact h.covers d hd b hb
  · rw [hheader] at hd ⊢
    rw [h.count d hd, countP_eq_length_filter, countP_eq_length_filter]
    refine ((perm_ext_iff_of_nodup ((hnodup d).1.filter _) ((hnodup d).2.filter _)).mpr
      fun x => ?_).length_eq
    rw [List.mem_filter, List.mem_filter, decide_eq_true_iff]
    exact and_congr_left fun hx => (hlist d x hx).symm

section

variable (h : s.Core live)
include h

/-- One arena changes, comes or goes. -/
theorem change (hpages : ∀ q, q ≠ a → s'.pages q = s.pages q)
    (hheader : ∀ q c, s.pages q = some c → q ≠ a → s'.header q = s.header q)
    (hnodup : ∀ e, (s'.free_list e).Nodup)
    (hlist : ∀ e b, pg_round_down b ≠ a → (b ∈ s'.free_list e ↔ b ∈ s.free_list e))
    (hlive : ∀ b, pg_round_down b ≠ a → live' b = live b)
    (hnew : ∀ c, s'.pages a = some c → ArenaSound live' s' a c ∧ ∀ q e, s.pages q = some e →
      q ≠ a → a + c * PGSIZE ≤ q ∨ q + e * PGSIZE ≤ a)
    (hgone : s'.pages a = none → (∀ e b, b ∈ s'.free_list e → pg_round_down b ≠ a) ∧
      ∀ b n, live' b = some n → pg_round_down b ≠ a) : s'.Core live' := by
  have hsound : ∀ p c, s'.pages p = some c → ArenaSound live' s' p c := by
    intro p c hp
    rcases eq_or_ne p a with rfl | hne
    · exact (hnew c hp).1
    · rw [hpages p hne] at hp
      exact (h.sound hp).congr (hheader p c hp hne) (fun e => ⟨h.nodup e, hnodup e⟩)
        (fun e b hb => hlist e b (hb ▸ hne)) fun b hb => hlive b (hb ▸ hne)
  -- a block, live or free, is in an arena
  have hsome : ∀ b, (s'.pages a = none → pg_round_down b ≠ a) →
      (pg_round_down b ≠ a → ∃ c, s.pages (pg_round_down b) = some c) →
      ∃ c, s'.pages (pg_round_down b) = some c := by
    intro b hnone hsome
    by_cases hb : pg_round_down b = a
    · rw [hb]
      exact Option.ne_none_iff_exists'.mp fun hn => hnone hn hb
    · rw [hpages _ hb]
      exact hsome hb
  refine ⟨fun p c hp => (hsound p c hp).arena, fun p c q e hp hq hne => ?_, hnodup,
    fun e b hb => ?_, fun b n hb => ?_, fun p c d hp => (hsound p c hp).covers d,
    fun p c d hp => (hsound p c hp).count d⟩
  · rcases eq_or_ne p a with rfl | hpa
    · rw [hpages q hne.symm] at hq
      exact (hnew c hp).2 q e hq hne.symm
    · rw [hpages p hpa] at hp
      rcases eq_or_ne q a with rfl | hqa
      · exact ((hnew e hq).2 p c hp hpa).symm
      · rw [hpages q hqa] at hq
        exact h.apart p c q e hp hq hne
  · obtain ⟨c, hc⟩ := hsome b (fun hn => (hgone hn).1 e b hb) fun hne =>
      (h.free_page ((hlist e b hne).mp hb)).imp fun _ => And.left
    obtain ⟨hdesc, hmem⟩ := (hsound _ c hc).listed e b hb rfl
    exact ⟨_, c, hc, hdesc, hmem⟩
  · obtain ⟨c, hc⟩ := hsome b (fun hn => (hgone hn).2 b n hb) fun hne =>
      (h.live_page ((hlive b hne).symm.trans hb)).imp fun _ => And.left
    exact ⟨_, c, hc, (hsound _ c hc).taken b n hb rfl⟩

/-- A store into a live block. -/
theorem store {size : Nat} (hb : live b = some n) (hcap : s.block_size b = some cap)
    (hle : b ≤ start) (hlt : start + size ≤ b + cap) (value : Nat → UInt8) :
    (s.store start size value).Core live := by
  have hzero : s.pages 0 = none := Option.eq_none_iff_forall_ne_some.mpr fun c hc =>
    Nat.lt_irrefl 0 (h.arena 0 c hc).pos
  refine h.change (fun _ _ => rfl) (fun p c hp _ => if_neg fun hover => ?_) h.nodup
    (fun _ _ _ => Iff.rfl) (fun _ _ => rfl) (fun c hc => nomatch hzero.symm.trans hc)
    fun _ => h.no_block hzero
  rcases h.header_apart hb hcap hp with ha | ha <;> omega

/-- New pages begin no arena yet. -/
theorem fresh_none (hf : FreshAt s a cnt) (hcnt : 0 < cnt) : s.pages a = none := by
  refine Option.eq_none_iff_forall_ne_some.mpr fun c hp => ?_
  have hc := (h.arena a c hp).cnt_pos
  rcases hf.apart a c hp with ha | ha <;> simp only [PGSIZE] at ha <;> omega

/-- A large block. -/
theorem new_big (hf : FreshAt s a cnt) (hcnt : 0 < cnt) (hn : n + ARENA_SIZE ≤ cnt * PGSIZE) :
    ((s.setPages a (some cnt)).setHeader a ⟨ARENA_MAGIC, none, cnt⟩).Core
      (update live (a + ARENA_SIZE) (some n)) := by
  obtain ⟨hfree, hold⟩ := h.no_block (h.fresh_none hf hcnt)
  have hok : ArenaOk ((s.setPages a (some cnt)).setHeader a ⟨ARENA_MAGIC, none, cnt⟩) a cnt :=
    ⟨hf.aligned, hf.pos, hf.fits, by simp, by simp [hcnt], by simp⟩
  refine h.change (fun q hq => setPages_of_ne hq) (fun q c _ hq => setHeader_of_ne hq) h.nodup
    (fun _ _ _ => Iff.rfl) (fun b hb => update_of_ne (fun e => hb ?_) ..) (fun c hc => ?_)
    fun hgone => by simp at hgone
  · rw [e, (hok.big_block hcnt).1]
  · obtain rfl : cnt = c := by simpa using hc
    refine ⟨⟨hok, fun d b hb e => absurd e (hfree d b hb), fun b m hb e => ?_, by simp, by simp⟩,
      fun q e hq _ => hf.apart q e hq⟩
    rcases eq_or_ne b (a + ARENA_SIZE) with hbe | hbe
    · rw [hbe, update_self] at hb
      obtain rfl := Option.some.inj hb
      exact .big (by simp) hbe hn
    · rw [update_of_ne hbe] at hb
      exact absurd e (hold b m hb)

/-- A new arena of small blocks, all of them free. -/
theorem new_small {a : Nat} (hf : FreshAt s a 1) (hd : d ∈ descs) (hempty : s.free_list d = []) :
    (((s.setPages a (some 1)).setHeader a ⟨ARENA_MAGIC, some d, d.blocks_per_arena⟩).setFree d
      (d.blocks a)).Core live := by
  obtain ⟨hfree, hold⟩ := h.no_block (h.fresh_none hf Nat.one_pos)
  have hok : ArenaOk (((s.setPages a (some 1)).setHeader a
      ⟨ARENA_MAGIC, some d, d.blocks_per_arena⟩).setFree d (d.blocks a)) a 1 :=
    ⟨hf.aligned, hf.pos, hf.fits, by simp, by simp, by simp [hd]⟩
  have hpage : ∀ b ∈ d.blocks a, pg_round_down b = a := fun b hb => (hok.block (by simp) hb).2.2.1
  refine h.change (fun q hq => setPages_of_ne hq) (fun q c _ hq => setHeader_of_ne hq)
    (fun e => ?_) (fun e b hb => ?_) (fun _ _ => rfl) (fun c hc => ?_) fun hgone => by simp at hgone
  · rcases eq_or_ne e d with rfl | he
    · rw [setFree_self]
      exact Desc.blocks_nodup hd a
    · rw [setFree_of_ne he]
      exact h.nodup e
  · rcases eq_or_ne e d with rfl | he
    · rw [setFree_self, hempty]
      exact iff_of_false (fun hm => hb (hpage b hm)) not_mem_nil
    · rw [setFree_of_ne he]
      rfl
  · obtain rfl : 1 = c := by simpa using hc
    refine ⟨⟨hok, fun e b hb he => ?_, fun b n hb he => absurd he (hold b n hb),
      fun e he b hb => .inl ?_, fun e he => ?_⟩, fun q e hq _ => hf.apart q e hq⟩
    · rcases eq_or_ne e d with rfl | hed
      · rw [setFree_self] at hb
        exact ⟨by simp, hb⟩
      · rw [setFree_of_ne hed] at hb
        exact absurd he (hfree e b hb)
    · obtain rfl : d = e := by simpa using he
      rwa [setFree_self]
    · obtain rfl : d = e := by simpa using he
      rw [setFree_self, List.countP_eq_length.mpr fun b hb => by simp [hpage b hb]]
      simp [Desc.blocks]

/-- An arena has as many free blocks as its counter says, at most all. -/
theorem count_le (hp : s.pages p = some c) (hdesc : (s.header p).desc = some d) :
    (s.header p).free_cnt ≤ d.blocks_per_arena ∧
      ((s.header p).free_cnt = d.blocks_per_arena → ∀ b ∈ d.blocks p, b ∈ s.free_list d) := by
  have hsub : ((s.free_list d).filter fun b => pg_round_down b = p).Subperm (d.blocks p) := by
    refine subperm_of_subset ((h.nodup d).filter _) fun b hb => ?_
    obtain ⟨hb, hpage⟩ := List.mem_filter.mp hb
    exact ((h.sound hp).listed d b hb (of_decide_eq_true hpage)).2
  have hlen : (d.blocks p).length = d.blocks_per_arena := by simp [Desc.blocks]
  rw [h.count p c d hp hdesc, countP_eq_length_filter]
  refine ⟨hlen ▸ hsub.length_le, fun he b hb => ?_⟩
  exact (List.mem_filter.mp ((hsub.perm_of_length_le (by omega)).mem_iff.mpr hb)).1

/-- The block `b` of the arena `p` goes to the free list, or from it. -/
theorem switch {v : Option Nat} (hp : s.pages p = some c) (hdesc : (s.header p).desc = some d)
    (hb : b ∈ d.blocks p) (hnodup : l.Nodup) (hl : ∀ x, x ≠ b → (x ∈ l ↔ x ∈ s.free_list d))
    (hv : v = none ∧ b ∈ l ∨ ∃ n, v = some n ∧ n ≤ d.block_size ∧ b ∉ l)
    (hcnt : cnt = l.countP fun x => pg_round_down x = p) :
    ((s.setFree d l).setHeader p { s.header p with free_cnt := cnt }).Core (update live b v) := by
  have hold := h.sound hp
  have hpage := (hold.arena.block hdesc hb).2.2.1
  have hdesc' : (((s.setFree d l).setHeader p { s.header p with free_cnt := cnt }).header p).desc =
      some d := by
    rw [setHeader_self]
    exact hdesc
  -- membership in the lists, but for the block itself
  have hlist : ∀ e x, x ≠ b → (x ∈ (s.setFree d l).free_list e ↔ x ∈ s.free_list e) := by
    intro e x hx
    rcases eq_or_ne e d with rfl | he
    · rw [setFree_self]
      exact hl x hx
    · rw [setFree_of_ne he]
  have hne : ∀ x, pg_round_down x ≠ p → x ≠ b := fun x hx e => hx (e ▸ hpage)
  refine h.change (fun _ _ => rfl) (fun q _ _ hq => setHeader_of_ne hq) (fun e => ?_)
    (fun e x hx => hlist e x (hne x hx)) (fun x hx => update_of_ne (hne x hx) ..)
    (fun c' hc => ⟨?_, fun q e hq hne => h.apart p c' q e hc hq hne.symm⟩)
    fun hn => nomatch hp.symm.trans hn
  · rcases eq_or_ne e d with rfl | he
    · rw [setHeader_free_list, setFree_self]
      exact hnodup
    · rw [setHeader_free_list, setFree_of_ne he]
      exact h.nodup e
  · obtain rfl : c = c' := Option.some.inj (hp.symm.trans hc)
    refine ⟨hold.arena.recount (by rw [setHeader_self]) (by rw [setHeader_self])
        fun hn => absurd (hn.symm.trans hdesc) nofun,
      fun e x hx hxp => ?_, fun x n hx hxp => ?_, fun e he x hx => ?_, fun e he => ?_⟩
    · obtain rfl : e = d := by
        by_contra he
        rw [setHeader_free_list, setFree_of_ne he] at hx
        exact he (Option.some.inj ((hold.listed e x hx hxp).1.symm.trans hdesc))
      rcases eq_or_ne x b with rfl | hxb
      · exact ⟨hdesc', hb⟩
      · exact ⟨hdesc', (hold.listed e x ((hlist e x hxb).mp hx) hxp).2⟩
    · rcases eq_or_ne x b with rfl | hxb
      · rw [update_self] at hx
        rcases hv with ⟨hv, -⟩ | ⟨m, hv, hm, hbl⟩
        · nomatch hv.symm.trans hx
        · obtain rfl : m = n := Option.some.inj (hv.symm.trans hx)
          exact .small d hdesc' hb hm (by rwa [setHeader_free_list, setFree_self])
      · rw [update_of_ne hxb] at hx
        cases hold.taken x n hx hxp with
        | big hd => exact nomatch hd.symm.trans hdesc
        | small e hd hm hfits htaken =>
          exact .small e (by rwa [setHeader_self]) hm hfits fun hx =>
            htaken ((hlist e x hxb).mp hx)
    · obtain rfl : d = e := Option.some.inj (hdesc'.symm.trans he)
      rcases eq_or_ne x b with rfl | hxb
      · rw [update_self, setHeader_free_list, setFree_self]
        rcases hv with ⟨-, hbl⟩ | ⟨m, hv, -⟩
        · exact .inl hbl
        · exact .inr (by rw [hv]; rfl)
      · rw [update_of_ne hxb]
        exact (hold.covers d hdesc x hx).imp_left (hlist d x hxb).mpr
    · obtain rfl : d = e := Option.some.inj (hdesc'.symm.trans he)
      rw [setHeader_self, setHeader_free_list, setFree_self]
      exact hcnt

/-- A block is taken from the free list. -/
theorem take (hl : s.free_list d = b :: l) (hn : n ≤ d.block_size) :
    ∃ cnt, (s.header (pg_round_down b)).free_cnt = cnt + 1 ∧ cnt < d.blocks_per_arena ∧
      ((s.setFree d l).setHeader (pg_round_down b)
        { s.header (pg_round_down b) with free_cnt := cnt }).Core (update live b (some n)) := by
  have hb : b ∈ s.free_list d := hl ▸ List.mem_cons_self
  obtain ⟨c, hp, hdesc, hmem⟩ := h.free_page hb
  have hcount := h.count _ c d hp hdesc
  rw [hl, countP_cons_of_pos (by simp)] at hcount
  have hle := (h.count_le hp hdesc).1
  obtain ⟨hbl, hnl⟩ := List.nodup_cons.mp (hl ▸ h.nodup d)
  refine ⟨_, hcount, by omega, h.switch hp hdesc hmem hnl (fun x hx => ?_)
    (.inr ⟨n, rfl, hn, hbl⟩) rfl⟩
  rw [hl, List.mem_cons, or_iff_right hx]

/-- A live block is given back. -/
theorem give (hp : s.pages p = some c) (hdesc : (s.header p).desc = some d) (hb : b ∈ d.blocks p)
    (hfree : b ∉ s.free_list d) : ((s.setFree d (b :: s.free_list d)).setHeader p
      { s.header p with free_cnt := (s.header p).free_cnt + 1 }).Core (update live b none) := by
  have hpage := ((h.arena p c hp).block hdesc hb).2.2.1
  refine h.switch hp hdesc hb (List.nodup_cons.mpr ⟨hfree, h.nodup d⟩) (fun x hx => ?_)
    (.inl ⟨rfl, List.mem_cons_self⟩) ?_
  · rw [List.mem_cons, or_iff_right hx]
  · rw [countP_cons_of_pos (by simpa using hpage), h.count p c d hp hdesc]

/-- An arena whose counter is not full has a live block. -/
theorem exists_live (hp : s.pages p = some c) (hdesc : (s.header p).desc = some d)
    (hlt : (s.header p).free_cnt < d.blocks_per_arena) :
    ∃ b n, live b = some n ∧ pg_round_down b = p := by
  have hok := h.arena p c hp
  by_contra hnone
  push Not at hnone
  have hsub : (d.blocks p).Subperm ((s.free_list d).filter fun b => pg_round_down b = p) := by
    refine subperm_of_subset (Desc.blocks_nodup (hok.small d hdesc).2 p) fun b hb => ?_
    have hpage := (hok.block hdesc hb).2.2.1
    rcases h.covers p c d hp hdesc b hb with hfree | hlive
    · exact List.mem_filter.mpr ⟨hfree, decide_eq_true hpage⟩
    · obtain ⟨n, hn⟩ := Option.isSome_iff_exists.mp hlive
      exact absurd hpage (hnone b n hn)
  have hlen := hsub.length_le
  rw [← countP_eq_length_filter, ← h.count p c d hp hdesc] at hlen
  simp [Desc.blocks] at hlen
  omega

end

end Heap.Core

/-! ### Loops over an arena -/

section Loops

variable {a : Nat} {is : List Nat}

theorem arena_to_block_eq (hpos : 0 < a) (hmagic : (s.header a).magic = ARENA_MAGIC)
    (hdesc : (s.header a).desc = some d) {i : Nat} (hi : i < d.blocks_per_arena) :
    s.arena_to_block a i = some (a + ARENA_SIZE + i * d.block_size) := by
  rw [Heap.arena_to_block, if_pos ⟨by omega, hmagic⟩, hdesc]
  exact if_pos hi

theorem setFree_setFree {l' : List Nat} : (s.setFree d l).setFree d l' = s.setFree d l' := by
  simp [Heap.setFree]

theorem push_blocks_runs (hpos : 0 < a) (hmagic : (s.header a).magic = ARENA_MAGIC)
    (hdesc : (s.header a).desc = some d) (his : ∀ i ∈ is, i < d.blocks_per_arena) :
    Heap.push_blocks d a is s = some (s.setFree d
      (s.free_list d ++ is.map fun i => a + ARENA_SIZE + i * d.block_size)) := by
  induction is generalizing s with
  | nil => simp [Heap.push_blocks, Heap.setFree]
  | cons i is ih =>
    rw [Heap.push_blocks, arena_to_block_eq hpos hmagic hdesc (his i List.mem_cons_self)]
    simp only [bind_eq_bind, bind_some]
    rw [ih (by exact hmagic) (by exact hdesc) fun j hj => his j (List.mem_cons_of_mem _ hj),
      setFree_setFree, Heap.setFree_self, List.append_assoc]
    rfl

/-- The blocks are removed one by one. -/
theorem remove_blocks_runs (hpos : 0 < a) (hmagic : (s.header a).magic = ARENA_MAGIC)
    (hdesc : (s.header a).desc = some d) (his : ∀ i ∈ is, i < d.blocks_per_arena)
    (hnodup : (is.map fun i => a + ARENA_SIZE + i * d.block_size).Nodup)
    (hlist : (s.free_list d).Nodup)
    (hmem : ∀ b ∈ is.map fun i => a + ARENA_SIZE + i * d.block_size, b ∈ s.free_list d) :
    Heap.remove_blocks d a is s = some (s.setFree d ((s.free_list d).filter
      fun b => b ∉ is.map fun i => a + ARENA_SIZE + i * d.block_size)) := by
  induction is generalizing s with
  | nil => simp [Heap.remove_blocks, Heap.setFree]
  | cons i is ih =>
    obtain ⟨hi, hnodup⟩ := List.nodup_cons.mp hnodup
    rw [Heap.remove_blocks, arena_to_block_eq hpos hmagic hdesc (his i List.mem_cons_self)]
    simp only [bind_eq_bind, bind_some]
    rw [if_pos (hmem _ List.mem_cons_self), ih (by exact hmagic) (by exact hdesc)
      (fun j hj => his j (List.mem_cons_of_mem _ hj)) hnodup]
    · rw [setFree_setFree, Heap.setFree_self, hlist.erase_eq_filter, List.filter_filter]
      congr 2
      grind
    · rw [Heap.setFree_self]
      exact hlist.erase _
    · intro b hb
      rw [Heap.setFree_self, hlist.mem_erase_iff]
      refine ⟨fun he => hi ?_, hmem b (List.mem_cons_of_mem _ hb)⟩
      subst he
      exact hb

end Loops

/-! ### Functions -/

namespace Heap

theorem update_live (live : Live) (b n : Nat) : ∀ x m, live x = some m →
    ∃ m', update live b (some n) x = some m' := by
  intro x m hx
  by_cases hxb : x = b
  · exact ⟨n, by rw [hxb, update_self]⟩
  · exact ⟨m, by rwa [update_of_ne hxb]⟩

/-- What `malloc` does: it returns a new block, or null and does nothing. -/
structure Allocates (live : Live) (size : Nat) (s : Heap) (r : Nat × Heap) : Prop where
  core : r.2.Core (live.add r.1 size)
  occupied : r.2.Occupied (live.add r.1 size)
  memory : r.2.memory = s.memory
  new : live r.1 = none
  null : r.1 = 0 → r.2 = s

theorem Core.live_zero (h : s.Core live) : live 0 = none := by
  cases hz : live 0 with
  | none => rfl
  | some n => exact absurd rfl (h.live_ne_zero hz)

theorem allocates_null (h : s.Core live) (ho : s.Occupied live) (size : Nat) :
    Allocates live size s (0, s) := by
  have hadd : live.add 0 size = live := if_pos rfl
  exact ⟨hadd ▸ h, hadd ▸ ho, rfl, h.live_zero, fun _ => rfl⟩

theorem Core.free_not_live (h : s.Core live) (hb : b ∈ s.free_list d) : live b = none := by
  cases hn : live b with
  | none => rfl
  | some n =>
    obtain ⟨c, hp, hdesc, -⟩ := h.free_page hb
    obtain ⟨c', hp', hat⟩ := h.live_page hn
    cases hat with
    | big hdesc' => exact absurd (hdesc'.symm.trans hdesc) nofun
    | small d' hdesc' hmem hfits htaken =>
      obtain rfl : d = d' := Option.some.inj (hdesc.symm.trans hdesc')
      exact absurd hb htaken

variable {alloc : Nat → Option Nat} {r : Nat × Heap} {size : Nat} {value : Nat → UInt8}

/-- The end of `malloc`. -/
theorem pop_block_runs (h : s.Core live) (hl : s.free_list d = b :: l) (hsize : size ≤ d.block_size)
    (ho : ∀ p c, s.pages p = some c → pg_round_down b ≠ p →
      ∃ x n, live x = some n ∧ pg_round_down x = p) :
    ∃ r, pop_block d s = some r ∧ r.1 ≠ 0 ∧ r.2.Core (live.add r.1 size) ∧
      r.2.Occupied (live.add r.1 size) ∧ r.2.memory = s.memory ∧ live r.1 = none := by
  have hb : b ∈ s.free_list d := hl ▸ List.mem_cons_self
  obtain ⟨c, hp, hdesc, hmem⟩ := h.free_page hb
  obtain ⟨cnt, hcnt, hlt, hcore⟩ := h.take hl hsize
  have hok := h.arena _ c hp
  have hbpa := descs_small d (hok.small d hdesc).2
  have hb0 : b ≠ 0 := by
    have hle := (hok.block hdesc hmem).1
    have hpos := hok.pos
    omega
  have hadd : live.add b size = update live b (some size) := if_neg hb0
  have harena : (s.setFree d l).block_to_arena b = some (pg_round_down b) :=
    hok.block_to_arena hdesc hmem
  have hwrap : ((s.header (pg_round_down b)).free_cnt + 2 ^ 32 - 1) % 2 ^ 32 = cnt := by omega
  refine ⟨(b, (s.setFree d l).setHeader (pg_round_down b)
    { s.header (pg_round_down b) with free_cnt := cnt }), ?_, hb0, hadd ▸ hcore, ?_, rfl,
    h.free_not_live hb⟩
  · rw [pop_block, hl]
    simp only [harena, bind_eq_bind, bind_some, setFree_header, hwrap]
  · rw [hadd]
    intro q c' hq
    by_cases hpage : pg_round_down b = q
    · exact ⟨b, size, update_self .., hpage⟩
    · obtain ⟨x, n, hx, hxq⟩ := ho q c' hq hpage
      obtain ⟨m, hm⟩ := update_live live b size x n hx
      exact ⟨x, m, hm, hxq⟩

theorem allocates_big {a cnt size : Nat} (h : s.Core live) (ho : s.Occupied live)
    (hf : FreshAt s a cnt) (hcnt : 0 < cnt) (hn : size + ARENA_SIZE ≤ cnt * PGSIZE) :
    Allocates live size s (a + ARENA_SIZE,
      (s.setPages a (some cnt)).setHeader a ⟨ARENA_MAGIC, none, cnt⟩) := by
  have hadd : live.add (a + ARENA_SIZE) size =
      update live (a + ARENA_SIZE) (some size) := if_neg (by simp)
  have hcore := h.new_big hf hcnt hn
  have hpage : pg_round_down (a + ARENA_SIZE) = a :=
    ((hcore.arena a cnt (by simp)).big_block hcnt).1
  refine ⟨hadd ▸ hcore, ?_, rfl, ?_, fun hz => absurd hz (by simp)⟩
  · rw [hadd]
    intro q c hq
    by_cases hqa : q = a
    · exact ⟨_, size, update_self .., hqa ▸ hpage⟩
    · rw [setHeader_pages, setPages_of_ne hqa] at hq
      obtain ⟨x, n, hx, hxq⟩ := ho q c hq
      obtain ⟨m, hm⟩ := update_live live (a + ARENA_SIZE) size x n hx
      exact ⟨x, m, hm, hxq⟩
  · cases hlive : live (a + ARENA_SIZE) with
    | none => rfl
    | some n =>
      obtain ⟨c, hp, -⟩ := h.live_page hlive
      rw [hpage] at hp
      exact nomatch (h.fresh_none hf hcnt).symm.trans hp

/-- A block of a new arena. -/
theorem new_block_runs {a size : Nat} (h : s.Core live) (ho : s.Occupied live) (hd : d ∈ descs)
    (hempty : s.free_list d = []) (hf : FreshAt s a 1) (hsize : size ≤ d.block_size) :
    ∃ r, (do
      let s ← push_blocks d a (List.range d.blocks_per_arena)
        ((s.setPages a (some 1)).setHeader a ⟨ARENA_MAGIC, some d, d.blocks_per_arena⟩)
      pop_block d s) = some r ∧ Allocates live size s r := by
  have hcore := h.new_small hf hd hempty
  obtain ⟨b, l, hl⟩ := exists_cons_of_ne_nil (show d.blocks a ≠ [] by
    have := (descs_ok d hd).2.2.1
    simp [Desc.blocks]
    omega)
  have hb : b ∈ d.blocks a := hl ▸ List.mem_cons_self
  have hpage := ((hcore.arena a 1 (by simp)).block (by simp) hb).2.2.1
  obtain ⟨r, hrun, hne, hcore', hocc, hmem, hnew⟩ :=
    pop_block_runs hcore (by rw [setFree_self, hl]) hsize fun p c hp hpb => by
      have hpa : p ≠ a := fun he => hpb (he ▸ hpage)
      rw [setFree_pages, setHeader_pages, setPages_of_ne hpa] at hp
      exact ho p c hp
  refine ⟨r, ?_, hcore', hocc, hmem, hnew, fun hz => absurd hz hne⟩
  rw [push_blocks_runs hf.pos (by simp) (by simp) fun i hi => List.mem_range.mp hi,
    setHeader_free_list, setPages_free_list, hempty, nil_append]
  exact hrun

theorem malloc_runs (h : s.Core live) (ho : s.Occupied live) (hsize : SizeOk size)
    (hfresh : Fresh s alloc) :
    ∃ r, malloc alloc size s = some r ∧ Allocates live size s r := by
  rw [malloc]
  by_cases hz : size = 0
  · exact ⟨_, if_pos hz, allocates_null h ho size⟩
  rw [if_neg hz]
  cases hfind : descs.find? fun d => d.block_size ≥ size with
  | none =>
    have hmod : (size + ARENA_SIZE + PGSIZE - 1) % 2 ^ 32 = size + ARENA_SIZE + PGSIZE - 1 := by
      simp only [SizeOk, ARENA_SIZE, PGSIZE] at *
      omega
    simp only [hmod, palloc_get_multiple]
    cases hal : alloc ((size + ARENA_SIZE + PGSIZE - 1) / PGSIZE) with
    | none => exact ⟨_, rfl, allocates_null h ho size⟩
    | some a =>
      have hcnt : 0 < (size + ARENA_SIZE + PGSIZE - 1) / PGSIZE := by
        simp only [ARENA_SIZE, PGSIZE]
        omega
      have hf := hfresh _ a hcnt hal
      have hn : size + ARENA_SIZE ≤ (size + ARENA_SIZE + PGSIZE - 1) / PGSIZE * PGSIZE := by
        simp only [ARENA_SIZE, PGSIZE]
        omega
      exact ⟨_, rfl, allocates_big h ho hf hcnt hn⟩
  | some d =>
    have hd : d ∈ descs := mem_of_find?_eq_some hfind
    have hle : size ≤ d.block_size := by simpa using find?_some hfind
    simp only [palloc_get_multiple]
    by_cases hempty : s.free_list d = []
    · rw [if_pos hempty]
      cases hal : alloc 1 with
      | none => exact ⟨_, rfl, allocates_null h ho size⟩
      | some a => exact new_block_runs h ho hd hempty (hfresh 1 a Nat.one_pos hal) hle
    · rw [if_neg hempty]
      obtain ⟨b, l, hl⟩ := exists_cons_of_ne_nil hempty
      obtain ⟨r, hrun, hne, hcore, hocc, hmem, hnew⟩ :=
        pop_block_runs h hl hle fun p c hp _ => ho p c hp
      exact ⟨r, hrun, hcore, hocc, hmem, hnew, fun hz => absurd hz hne⟩

/-- What `free` does: the other blocks are as before. -/
structure Frees (live : Live) (b : Nat) (s s' : Heap) : Prop where
  core : s'.Core (live.remove b)
  occupied : s'.Occupied (live.remove b)
  memory : ∀ x n cap, live x = some n → x ≠ b → s.block_size x = some cap →
    ∀ i < cap, s'.memory (x + i) = s.memory (x + i)

theorem store_header {size : Nat} (h : p + ARENA_SIZE ≤ start ∨ start + size ≤ p) :
    (s.store start size value).header p = s.header p := if_neg (by omega)

theorem store_memory {size : Nat} (h : x < start ∨ start + size ≤ x) :
    (s.store start size value).memory x = s.memory x :=
  if_neg (by omega)

theorem live_remove : live.remove b x = some n ↔ x ≠ b ∧ live x = some n := by
  by_cases hx : x = b
  · simp [Live.remove, hx]
  · simp [Live.remove, hx]

/-- An arena without live blocks, but for `b`, is given back. -/
theorem give_pages {s₁ : Heap} {l : Desc → List Nat} (h : s.Core live)
    (hp : s.pages p = some c) (hs₁ : s₁ = { s with free_list := l })
    (hlist : ∀ e, l e = (s.free_list e).filter fun x => pg_round_down x ≠ p)
    (hlive : ∀ x n, live x = some n → x ≠ b → pg_round_down x ≠ p)
    (hb : ∀ n, live b = some n → pg_round_down b = p) :
    ∃ s', palloc_free_multiple p c s₁ = some s' ∧ s'.Core (live.remove b) ∧
      s'.pages = update s.pages p none ∧
      ∀ x, x < p ∨ p + c * PGSIZE ≤ x → s'.memory x = s.memory x := by
  subst hs₁
  refine ⟨_, if_pos hp, ?_, rfl, fun x hx => store_memory hx⟩
  refine h.change (fun q hq => setPages_of_ne hq) (fun q e hq hne => store_header ?_) (fun e => ?_)
    (fun e x hx => ?_) (fun x hx => ?_) (fun c' hc => nomatch setPages_self.symm.trans hc)
    fun _ => ⟨fun e x hx => ?_, fun x n hx => ?_⟩
  · have hcnt := (h.arena q e hq).cnt_pos
    simp only [ARENA_SIZE, PGSIZE] at *
    rcases h.apart q e p c hq hp hne with ha | ha <;> simp only [PGSIZE] at ha <;> omega
  · rw [show (_ : Heap).free_list e = l e from rfl, hlist]
    exact (h.nodup e).filter _
  · rw [show (_ : Heap).free_list e = l e from rfl, hlist, List.mem_filter, decide_eq_true_iff]
    exact and_iff_left hx
  · rcases eq_or_ne x b with rfl | hxb
    · rw [Live.remove, update_self]
      exact (Option.eq_none_iff_forall_ne_some.mpr fun n hn => hx (hb n hn)).symm
    · exact update_of_ne hxb ..
  · rw [show (_ : Heap).free_list e = l e from rfl, hlist, List.mem_filter] at hx
    exact of_decide_eq_true hx.2
  · obtain ⟨hxb, hx⟩ := live_remove.mp hx
    exact hlive x n hx hxb

theorem Occupied.give_pages (ho : s.Occupied live)
    (hpages : s'.pages = update s.pages p none) (hpage : pg_round_down b = p) :
    s'.Occupied (live.remove b) := by
  intro q c hq
  have hqp : q ≠ p := fun he => by
    rw [hpages, he, update_self] at hq
    nomatch hq
  rw [hpages, update_of_ne hqp] at hq
  obtain ⟨x, m, hx, hxq⟩ := ho q c hq
  have hxb : x ≠ b := fun he => hqp (by rw [← hxq, he, hpage])
  exact ⟨x, m, live_remove.mpr ⟨hxb, hx⟩, hxq⟩

/-- A live block of another arena is outside of its pages. -/
theorem Core.live_outside (h : s.Core live) (hx : live x = some n)
    (hcap : s.block_size x = some cap) (hp : s.pages p = some c) (hne : pg_round_down x ≠ p) :
    x + cap ≤ p ∨ p + c * PGSIZE ≤ x := by
  obtain ⟨c', hp', hat⟩ := h.live_page hx
  obtain ⟨k, hk, -, hle, hlt⟩ := hat.extent (h.arena _ c' hp')
  obtain rfl : cap = k := Option.some.inj (hcap.symm.trans hk)
  rcases h.apart _ c' p c hp' hp hne with ha | ha <;> omega

theorem free_big (h : s.Core live) (ho : s.Occupied live)
    (hp : s.pages p = some c) (hdesc : (s.header p).desc = none) (hstart : b = p + ARENA_SIZE) :
    ∃ s', palloc_free_multiple p c s = some s' ∧ Frees live b s s' := by
  have hok := h.arena p c hp
  have hpage : pg_round_down b = p := hstart ▸ (hok.big_block hok.cnt_pos).1
  have hother : ∀ x n, live x = some n → x ≠ b → pg_round_down x ≠ p := by
    intro x n hx hxb hpx
    obtain ⟨c', -, hat⟩ := h.live_page hx
    rw [hpx] at hat
    cases hat with
    | big _ hx => exact hxb (hx.trans hstart.symm)
    | small d hdesc' => exact absurd (hdesc.symm.trans hdesc') nofun
  have hlist : ∀ e, s.free_list e = (s.free_list e).filter fun x => pg_round_down x ≠ p := by
    intro e
    refine (List.filter_eq_self.mpr fun x hx => ?_).symm
    refine decide_eq_true (show pg_round_down x ≠ p from fun hpx => ?_)
    obtain ⟨-, -, hdesc', -⟩ := h.free_page hx
    rw [hpx] at hdesc'
    exact absurd (hdesc.symm.trans hdesc') nofun
  obtain ⟨s', hrun, hcore, hpages, hmemory⟩ :=
    give_pages h hp rfl hlist hother fun _ _ => hpage
  refine ⟨s', hrun, hcore, ho.give_pages hpages hpage, fun x m cap hx hxb hcap i hi => ?_⟩
  refine hmemory _ ?_
  rcases h.live_outside hx hcap hp (hother x m hx hxb) with ha | ha <;> omega

/-- A normal block that is given back to its arena: the state before the arena is looked at. -/
def givenBack (d : Desc) (p b : Nat) (s : Heap) : Heap :=
  let s := s.memset b 0xcc d.block_size
  (s.setFree d (b :: s.free_list d)).setHeader p
    { s.header p with free_cnt := (s.header p).free_cnt + 1 }

theorem free_small_runs (h : s.Core live) (ho : s.Occupied live) (hb : live b = some n)
    (hp : s.pages p = some c) (hdesc : (s.header p).desc = some d) (hmem : b ∈ d.blocks p)
    (htaken : b ∉ s.free_list d) :
    ∃ s', free_small d p b s = some s' ∧ Frees live b s s' := by
  have hok := h.arena p c hp
  have hcap := hok.block_size_small hdesc hmem
  have hpage := (hok.block hdesc hmem).2.2.1
  have hstore := h.store hb hcap le_rfl le_rfl fun _ => 0xcc
  have hheader : (s.memset b 0xcc d.block_size).header p = s.header p := store_header (by
    have := (hok.block hdesc hmem).1
    omega)
  have hgive : (givenBack d p b s).Core (live.remove b) :=
    hstore.give hp (by exact hheader ▸ hdesc) hmem htaken
  have hgdesc : ((givenBack d p b s).header p).desc = some d := by
    rw [givenBack, setHeader_self]
    exact hheader ▸ hdesc
  have hgcnt : ((givenBack d p b s).header p).free_cnt = (s.header p).free_cnt + 1 := by
    rw [givenBack, setHeader_self]
    exact congrArg (·.free_cnt + 1) hheader
  obtain ⟨hle, hall⟩ := hgive.count_le hp hgdesc
  have hbpa := descs_small d (hok.small d hdesc).2
  have hwrap : (((s.memset b 0xcc d.block_size).header p).free_cnt + 1) % 2 ^ 32 =
      ((s.memset b 0xcc d.block_size).header p).free_cnt + 1 := Nat.mod_eq_of_lt (by
    rw [hheader]
    omega)
  have hmemory : ∀ x m cap, live x = some m → x ≠ b → s.block_size x = some cap → ∀ i < cap,
      (givenBack d p b s).memory (x + i) = s.memory (x + i) := by
    intro x m cap hx hxb hxcap i hi
    show (s.store b d.block_size fun _ => 0xcc).memory (x + i) = s.memory (x + i)
    refine store_memory ?_
    rcases h.live_apart hx hb hxb hxcap hcap with ha | ha <;> omega
  have hrun : free_small d p b s =
      if ((givenBack d p b s).header p).free_cnt ≥ d.blocks_per_arena then
        if ((givenBack d p b s).header p).free_cnt = d.blocks_per_arena then do
          let s ← remove_blocks d p (List.range d.blocks_per_arena) (givenBack d p b s)
          palloc_free_multiple p 1 s
        else none
      else some (givenBack d p b s) := by
    rw [free_small]
    simp only [setFree_header, hwrap, givenBack, setHeader_self]
  rw [hrun]
  by_cases hfull : ((givenBack d p b s).header p).free_cnt = d.blocks_per_arena
  · rw [if_pos hfull.ge, if_pos hfull]
    -- all blocks of the arena are on the free list, so none of them is live
    have hblocks := hall hfull
    have hnone : ∀ x m, live.remove b x = some m → x ≠ b → pg_round_down x ≠ p := by
      intro x m hx _ hpx
      obtain ⟨c', -, hat⟩ := hgive.live_page hx
      rw [hpx] at hat
      cases hat with
      | big hdesc' => exact absurd (hdesc'.symm.trans hgdesc) nofun
      | small d' hdesc' hmem' _ htaken' =>
        obtain rfl : d = d' := Option.some.inj (hgdesc.symm.trans hdesc')
        exact htaken' (hblocks x hmem')
    have hremove := remove_blocks_runs hok.pos (hgive.arena p c hp).magic hgdesc
      (fun i hi => List.mem_range.mp hi) (Desc.blocks_nodup (hok.small d hdesc).2 p)
      (hgive.nodup d) hblocks
    have hlist : ∀ e, update (givenBack d p b s).free_list d
        (((givenBack d p b s).free_list d).filter fun x => x ∉ d.blocks p) e =
          ((givenBack d p b s).free_list e).filter fun x => pg_round_down x ≠ p := by
      intro e
      by_cases he : e = d
      · subst he
        rw [update_self]
        refine List.filter_congr fun x hx => decide_eq_decide.mpr (not_congr ?_)
        obtain ⟨-, -, -, hx⟩ := hgive.free_page hx
        exact ⟨fun hx => ((hgive.arena p c hp).block hgdesc hx).2.2.1, fun hpx => hpx ▸ hx⟩
      · rw [update_of_ne he]
        refine (List.filter_eq_self.mpr fun x hx => ?_).symm
        refine decide_eq_true (show pg_round_down x ≠ p from fun hpx => ?_)
        obtain ⟨-, -, hdesc', -⟩ := hgive.free_page hx
        rw [hpx] at hdesc'
        exact he (Option.some.inj (hdesc'.symm.trans hgdesc))
    obtain ⟨s', hfree, hcore, hpages, hmem'⟩ :=
      give_pages hgive hp rfl hlist hnone fun n hn => absurd rfl (live_remove.mp hn).1
    have hidem : (live.remove b).remove b = live.remove b := update_idem ..
    rw [hidem] at hcore
    refine ⟨s', ?_, hcore, ho.give_pages hpages hpage, fun x m cap hx hxb hxcap i hi => ?_⟩
    · rw [hremove, ← (hok.small d hdesc).1]
      exact hfree
    · have hout := h.live_outside hx hxcap hp (hnone x m (live_remove.mpr ⟨hxb, hx⟩) hxb)
      rw [hmem' _ (by omega), hmemory x m cap hx hxb hxcap i hi]
  · rw [if_neg (by omega)]
    refine ⟨_, rfl, hgive, fun q c' hq => ?_, hmemory⟩
    by_cases hqp : q = p
    · subst hqp
      exact hgive.exists_live hq hgdesc (by omega)
    · obtain ⟨x, m, hx, hxq⟩ := ho q c' hq
      have hxb : x ≠ b := fun he => hqp (by rw [← hxq, he, hpage])
      exact ⟨x, m, live_remove.mpr ⟨hxb, hx⟩, hxq⟩

theorem free_runs (h : s.Core live) (ho : s.Occupied live)
    (hb : b = 0 ∨ (live b).isSome = true) : ∃ s', free b s = some s' ∧ Frees live b s s' := by
  rw [free]
  rcases hb with rfl | hb
  · have hremove : live.remove 0 = live := by
      rw [Live.remove, ← h.live_zero, update_eq_self]
    refine ⟨s, if_pos rfl, ?_, ?_, fun _ _ _ _ _ _ _ _ => rfl⟩ <;> rwa [hremove]
  · obtain ⟨n, hn⟩ := Option.isSome_iff_exists.mp hb
    obtain ⟨c, hp, hat⟩ := h.live_page hn
    rw [if_neg (h.live_ne_zero hn), hat.to_arena (h.arena _ c hp)]
    simp only [bind_eq_bind, bind_some]
    cases hat with
    | big hdesc hstart =>
      rw [hdesc, ((h.arena _ c hp).big hdesc).1]
      exact free_big h ho hp hdesc hstart
    | small d hdesc hmem _ htaken =>
      rw [hdesc]
      exact free_small_runs h ho hn hp hdesc hmem htaken

theorem live_ne {p : Nat} (hx : live x = some n) (hp : live p = none) : x ≠ p := by
  rintro rfl
  rw [hp] at hx
  cases hx

theorem add_live {p : Nat} (size : Nat) (hx : live x = some n) (hp : live p = none) :
    live.add p size x = some n := by
  unfold Live.add
  split
  · exact hx
  · rwa [update_of_ne (live_ne hx hp)]

theorem add_self {p size : Nat} (hp : p ≠ 0) : live.add p size p = some size := by
  rw [Live.add, if_neg hp, update_self]

/-- A new block is stored into: other blocks are as before. -/
theorem Allocates.store {size len : Nat} (h : Allocates live size s r) (hr : r.1 ≠ 0)
    (hlen : len ≤ size) (value : Nat → UInt8) :
    (r.2.store r.1 len value).Core (live.add r.1 size) ∧ ∀ x n, live x = some n → ∀ i < n,
        (r.2.store r.1 len value).memory (x + i) = s.memory (x + i) := by
  have hself : live.add r.1 size r.1 = some size := add_self hr
  obtain ⟨cap, hcap, hle⟩ := h.core.live_size hself
  refine ⟨h.core.store hself hcap le_rfl (by omega) value, fun x n hx i hi => ?_⟩
  have hne : x ≠ r.1 := live_ne hx h.new
  have hx' := add_live size hx h.new
  obtain ⟨cap', hcap', hle'⟩ := h.core.live_size hx'
  rw [store_memory, h.memory]
  rcases h.core.live_apart hx' hself hne hcap' hcap with ha | ha <;> omega

/-- After a call of the allocator: what was live and still is has its bytes. -/
structure Keeps (live live' : Live) (s s' : Heap) : Prop where
  core : s'.Core live'
  occupied : s'.Occupied live'
  memory : ∀ x n, live x = some n → live' x = some n → ∀ i < n, s'.memory (x + i) = s.memory (x + i)

theorem Allocates.keeps (h : Allocates live size s r) : Keeps live (live.add r.1 size) s r.2 :=
  ⟨h.core, h.occupied, fun _ _ _ _ _ _ => by rw [h.memory]⟩

theorem Frees.keeps (h : s.Core live) (hf : Frees live b s s') :
    Keeps live (live.remove b) s s' := by
  refine ⟨hf.core, hf.occupied, fun x n hx hx' i hi => ?_⟩
  obtain ⟨cap, hcap, hle⟩ := h.live_size hx
  exact hf.memory x n cap hx (live_remove.mp hx').1 hcap i (by omega)

theorem calloc_runs {a b : Nat} (h : s.Core live) (ho : s.Occupied live) (hsize : SizeOk (a * b))
    (hfresh : Fresh s alloc) :
    ∃ r, calloc alloc a b s = some r ∧ Keeps live (live.add r.1 (a * b)) s r.2 := by
  have hmod : a * b % 2 ^ 32 = a * b := by
    unfold SizeOk at hsize
    exact Nat.mod_eq_of_lt (by omega)
  simp only [calloc, hmod]
  split
  · exact ⟨_, rfl, (allocates_null h ho _).keeps⟩
  · obtain ⟨r, hr, hal⟩ := malloc_runs h ho hsize hfresh
    simp only [hr, bind_eq_bind, bind_some]
    split
    case isTrue hne =>
      obtain ⟨hcore, hmem⟩ := hal.store hne le_rfl fun _ => 0
      exact ⟨_, rfl, hcore, hal.occupied, fun x n hx _ => hmem x n hx⟩
    case isFalse => exact ⟨r, rfl, hal.keeps⟩

theorem remove_add {p old size : Nat} (hne : old ≠ p) :
    (live.add p size).remove old = (live.remove old).add p size := by
  unfold Live.add Live.remove
  split
  · rfl
  · exact update_comm hne.symm ..

/-- The end of `realloc`: the bytes are copied and the old block is freed. -/
theorem move_runs {old size : Nat} (min_size : Nat) (hal : Allocates live size s r) (hr : r.1 ≠ 0)
    (hn : live old = some n) (hmin : min_size ≤ size) (hle : min n size ≤ min_size) :
    ∃ s', free old (r.2.memcpy r.1 old min_size) = some s' ∧
      Keeps live ((live.remove old).add r.1 size) s s' ∧
      ∀ i < min n size, s'.memory (r.1 + i) = s.memory (old + i) := by
  have hne : old ≠ r.1 := live_ne hn hal.new
  have hself : live.add r.1 size r.1 = some size := add_self hr
  obtain ⟨hcore, hmem⟩ := hal.store hr hmin fun i => r.2.memory (old + i)
  obtain ⟨s', hfree, hs'⟩ := free_runs hcore hal.occupied
    (.inr (Option.isSome_iff_exists.mpr ⟨n, add_live size hn hal.new⟩))
  have hkeeps := hs'.keeps hcore
  rw [remove_add hne] at hkeeps
  refine ⟨s', hfree, ⟨hkeeps.core, hkeeps.occupied, fun x m hx hx' i hi => ?_⟩, fun i hi => ?_⟩
  · rw [hkeeps.memory x m (add_live size hx hal.new) hx' i hi]
    exact hmem x m hx i hi
  · have hnew : (live.remove old).add r.1 size r.1 = some size := add_self hr
    rw [hkeeps.memory r.1 size hself hnew i (by omega), ← hal.memory]
    have hin : r.1 ≤ r.1 + i ∧ r.1 + i < r.1 + min_size := by omega
    exact (if_pos hin).trans (by rw [Nat.add_sub_cancel_left])

/-- `realloc` returns; it keeps the bytes of the old block, or has not changed anything. -/
theorem realloc_runs {old size : Nat} (h : s.Core live) (ho : s.Occupied live)
    (hold : old = 0 ∨ (live old).isSome = true) (hsize : SizeOk size) (hfresh : Fresh s alloc) :
    ∃ r, realloc alloc old size s = some r ∧
      Keeps live (live.after r.1 (.realloc old size alloc)) s r.2 ∧
      (size ≠ 0 → r.1 = 0 → r.2 = s) ∧
      (r.1 ≠ 0 → ∀ n, live old = some n → ∀ i < min n size,
        r.2.memory (r.1 + i) = s.memory (old + i)) := by
  by_cases hz : size = 0
  · simp only [realloc, Live.after, if_pos hz]
    obtain ⟨s', hfree, hs'⟩ := free_runs h ho hold
    exact ⟨(0, s'), by rw [hfree]; rfl, hs'.keeps h, fun hne => absurd hz hne,
      fun hne => absurd rfl hne⟩
  · obtain ⟨r, hr, hal⟩ := malloc_runs h ho hsize hfresh
    simp only [realloc, Live.after, if_neg hz, hr, bind_eq_bind, bind_some]
    by_cases hnull : r.1 = 0
    · have hkeeps := hal.keeps
      rw [Live.add, if_pos hnull] at hkeeps
      refine ⟨r, if_neg fun hc => hc.2 hnull, ?_, fun _ _ => hal.null hnull,
        fun hne => absurd hnull hne⟩
      rwa [if_pos hnull]
    · rcases hold with rfl | hold
      · have hremove : live.remove 0 = live := by
          rw [Live.remove, ← h.live_zero, update_eq_self]
        refine ⟨r, if_neg fun hc => hc.1 rfl, ?_, fun _ hz => absurd hz hnull, fun _ n hn => ?_⟩
        · rw [if_neg hnull, hremove]
          exact hal.keeps
        · rw [h.live_zero] at hn
          cases hn
      · obtain ⟨n, hn⟩ := Option.isSome_iff_exists.mp hold
        obtain ⟨old_size, hold_size, hle⟩ := hal.core.live_size (add_live size hn hal.new)
        rw [if_pos ⟨h.live_ne_zero hn, hnull⟩, hold_size]
        simp only [bind_some]
        obtain ⟨s', hfree, hkeeps, hmem⟩ := move_runs
          (if size < old_size then size else old_size) hal hnull hn (by split <;> omega)
          (by split <;> omega)
        refine ⟨(r.1, s'), by rw [hfree]; rfl, ?_, fun _ hz => absurd hz hnull, ?_⟩
        · rw [if_neg hnull]
          exact hkeeps
        · intro _ m hm i hi
          obtain rfl : n = m := Option.some.inj (hn.symm.trans hm)
          exact hmem i hi

/-! ### Runs -/

/-- A call returns, and keeps the invariant; a call of the allocator also keeps all bytes. -/
theorem perform_runs {call : HeapCall} (h : s.Core live) (ho : s.Occupied live)
    (hcall : call.Enabled live s) : ∃ r, call.perform s = some r ∧
      r.2.Core (live.after r.1 call) ∧ r.2.Occupied (live.after r.1 call) ∧
      ((∀ start size value, call ≠ .store start size value) →
        Keeps live (live.after r.1 call) s r.2) := by
  -- It is enough to have `Keeps` for all calls but a store.
  have hkeeps {r : Nat × Heap} (hk : Keeps live (live.after r.1 call) s r.2) :
      r.2.Core (live.after r.1 call) ∧ r.2.Occupied (live.after r.1 call) ∧
      ((∀ start size value, call ≠ .store start size value) →
        Keeps live (live.after r.1 call) s r.2) := ⟨hk.core, hk.occupied, fun _ => hk⟩
  cases call with
  | malloc size alloc =>
    obtain ⟨r, hr, hal⟩ := malloc_runs h ho hcall.1 hcall.2
    exact ⟨r, hr, hkeeps hal.keeps⟩
  | calloc a b alloc =>
    obtain ⟨r, hr, hk⟩ := calloc_runs h ho hcall.2.2.1 hcall.2.2.2
    exact ⟨r, hr, hkeeps hk⟩
  | realloc old size alloc =>
    obtain ⟨r, hr, hk, -⟩ := realloc_runs h ho hcall.1 hcall.2.1 hcall.2.2
    exact ⟨r, hr, hkeeps hk⟩
  | free b =>
    obtain ⟨s', hfree, hs'⟩ := free_runs h ho hcall
    have hperform : (HeapCall.free b).perform s = some (0, s') := by
      rw [HeapCall.perform, hfree]
      rfl
    exact ⟨(0, s'), hperform, hkeeps (hs'.keeps h)⟩
  | store start size value =>
    obtain ⟨b, n, hn, hle, hlt⟩ := hcall
    obtain ⟨cap, hcap, hn_le⟩ := h.live_size hn
    exact ⟨_, rfl, h.store hn hcap hle (by omega) value, ho,
      fun hne => absurd rfl (hne start size value)⟩

theorem core_init (header : Nat → Arena) (memory : Nat → UInt8) :
    (⟨header, fun _ => [], memory, fun _ => none⟩ : Heap).Core fun _ => none := by
  refine ⟨?_, ?_, fun _ => nodup_nil, ?_, ?_, ?_, ?_⟩ <;> intros <;> contradiction

theorem run_core (run : HeapRun live s) : s.Core live ∧ s.Occupied live := by
  induction run with
  | init header memory => exact ⟨core_init header memory, fun _ _ hp => nomatch hp⟩
  | call run enabled h ih =>
    obtain ⟨r, hr, hcore, hocc, -⟩ := perform_runs ih.1 ih.2 enabled
    obtain rfl : r = _ := Option.some.inj (hr.symm.trans h)
    exact ⟨hcore, hocc⟩

/-- A live block is apart from every free block, with the links that are stored there. -/
theorem Core.free_apart (h : s.Core live) (hb : live b = some n) (hcap : s.block_size b = some cap)
    (hx : x ∈ s.free_list d) :
    b + cap ≤ x ∨ x + d.block_size ≤ b := by
  obtain ⟨c, hp, hat⟩ := h.live_page hb
  obtain ⟨c', hp', hdesc', hmem'⟩ := h.free_page hx
  have hne : b ≠ x := live_ne hb (h.free_not_live hx)
  obtain ⟨hlo, hhi, -, -⟩ := (h.arena _ c' hp').block hdesc' hmem'
  obtain ⟨k, hk, -, hle, hlt⟩ := hat.extent (h.arena _ c hp)
  obtain rfl : cap = k := Option.some.inj (hcap.symm.trans hk)
  by_cases hpage : pg_round_down b = pg_round_down x
  · rw [← hpage] at hdesc' hmem'
    cases hat with
    | big hdesc _ =>
      rw [hdesc] at hdesc'
      cases hdesc'
    | small e hdesc hmem _ _ =>
      obtain rfl : e = d := Option.some.inj (hdesc.symm.trans hdesc')
      rw [(h.arena _ c hp).block_size_small hdesc hmem] at hcap
      obtain rfl := Option.some.inj hcap
      exact Desc.blocks_apart hmem hmem' hne
  · rcases h.apart _ c _ c' hp hp' hpage with ha | ha <;> omega

end Heap

/-- What holds of a heap between calls. -/
structure Heap.Sound (live : Live) (s : Heap) : Prop where
  large : ∀ b n, live b = some n → ∃ cap, s.block_size b = some cap ∧ n ≤ cap
  disjoint : ∀ b n cap b' n' cap', live b = some n → live b' = some n' → b ≠ b' →
    s.block_size b = some cap → s.block_size b' = some cap' → b + cap ≤ b' ∨ b' + cap' ≤ b
  headers : ∀ b n cap p c, live b = some n → s.block_size b = some cap → s.pages p = some c →
    b + cap ≤ p ∨ p + ARENA_SIZE ≤ b
  links : ∀ b n cap d x, live b = some n → s.block_size b = some cap → x ∈ s.free_list d →
    b + cap ≤ x ∨ x + d.block_size ≤ b
  counts : ∀ p c d, s.pages p = some c → (s.header p).desc = some d →
    (s.header p).free_cnt = (s.free_list d).countP fun b => pg_round_down b = p
  returned : ∀ p, (s.pages p).isSome = true ↔ ∃ b n, live b = some n ∧ pg_round_down b = p

/-- The heap is sound after any calls; the next call returns, with no assertion failed, and keeps
the bytes of the blocks that stay live; `realloc` moves its block's bytes or changes nothing. -/
theorem heap_sound (run : HeapRun live s) : s.Sound live ∧
    (∀ call : HeapCall, call.Enabled live s → ∃ r, call.perform s = some r ∧
      ((∀ start size value, call ≠ .store start size value) → ∀ b n, live b = some n →
        live.after r.1 call b = some n → ∀ i < n, r.2.memory (b + i) = s.memory (b + i))) ∧
    ∀ old size alloc, (HeapCall.realloc old size alloc).Enabled live s →
      ∃ r, s.realloc alloc old size = some r ∧ (size ≠ 0 → r.1 = 0 → r.2 = s) ∧
        (r.1 ≠ 0 → ∀ n, live old = some n → ∀ i < min n size,
          r.2.memory (r.1 + i) = s.memory (old + i)) := by
  obtain ⟨h, ho⟩ := Heap.run_core run
  refine ⟨⟨?_, ?_, ?_, ?_, h.count, ?_⟩, ?_, ?_⟩
  · exact fun b n hb => h.live_size hb
  · exact fun b n cap b' n' cap' hb hb' hne hcap hcap' => h.live_apart hb hb' hne hcap hcap'
  · exact fun b n cap p c hb hcap hp => h.header_apart hb hcap hp
  · exact fun b n cap d x hb hcap hx => h.free_apart hb hcap hx
  · intro p
    refine ⟨fun hp => ?_, fun ⟨b, n, hb, hpage⟩ => ?_⟩
    · obtain ⟨c, hc⟩ := Option.isSome_iff_exists.mp hp
      exact ho p c hc
    · obtain ⟨c, hc, -⟩ := h.live_page hb
      rw [← hpage, hc]
      rfl
  · intro call hcall
    obtain ⟨r, hr, -, -, hkeeps⟩ := Heap.perform_runs h ho hcall
    exact ⟨r, hr, fun hne => (hkeeps hne).memory⟩
  · intro old size alloc hcall
    obtain ⟨r, hr, -, hnull, hmoved⟩ := Heap.realloc_runs h ho hcall.1 hcall.2.1 hcall.2.2
    exact ⟨r, hr, hnull, hmoved⟩

/-- The heap after `malloc_init`. -/
def emptyHeap : Heap := ⟨fun _ => ⟨0, none, 0⟩, fun _ => [], fun _ => 0, fun _ => none⟩

/-- So many pages are left. -/
def lastPages (left cnt : Nat) : Option Nat := if cnt = left then some 4096 else none

theorem fresh_lastPages {left : Nat} (h : left < 2 ^ 20) : Fresh emptyHeap (lastPages left) := by
  intro cnt a _ ha
  unfold lastPages at ha
  split at ha <;> cases ha
  subst cnt
  exact ⟨rfl, by decide, by unfold PGSIZE; omega, fun _ _ hq => nomatch hq⟩

/-- Two blocks of one arena are taken, the second is written to, and the first is freed. -/
theorem heap_sound_second : ∃ live s', HeapRun live s' ∧ s'.Sound live ∧ live 4108 = none ∧
    live 4140 = some 30 ∧ s'.memory 4141 = 7 := by
  let first : HeapCall := .malloc 20 (lastPages 1)
  let second : HeapCall := .malloc 30 fun _ => none
  let third : HeapCall := .store 4140 5 fun _ => 7
  have hcalls : ((first.perform emptyHeap).bind fun r => (second.perform r.2).bind fun r₂ =>
      (third.perform r₂.2).bind fun r₃ => ((HeapCall.free 4108).perform r₃.2).map fun r₄ =>
        (r.1, r₂.1, r₄.2.memory 4141)) = some (4108, 4140, 7) := by decide +kernel
  obtain ⟨⟨p, s₁⟩, h₁, hcalls⟩ := Option.bind_eq_some_iff.mp hcalls
  obtain ⟨⟨p₂, s₂⟩, h₂, hcalls⟩ := Option.bind_eq_some_iff.mp hcalls
  obtain ⟨⟨p₃, s₃⟩, h₃, hcalls⟩ := Option.bind_eq_some_iff.mp hcalls
  obtain ⟨⟨p₄, s₄⟩, h₄, he⟩ := Option.map_eq_some_iff.mp hcalls
  obtain ⟨rfl, rfl, hbyte⟩ : p = 4108 ∧ p₂ = 4140 ∧ s₄.memory 4141 = 7 := by simpa using he
  have hrun := HeapRun.call (c := first) (.init (fun _ => ⟨0, none, 0⟩) fun _ => 0)
    ⟨by unfold SizeOk; decide, fresh_lastPages (by decide)⟩ h₁
  have hrun := hrun.call (c := second) ⟨by unfold SizeOk; decide, fun _ _ _ ha => nomatch ha⟩ h₂
  have hrun := hrun.call (c := third) ⟨4140, 30, rfl, le_rfl, by decide⟩ h₃
  have hrun := hrun.call (c := .free 4108) (Or.inr rfl) h₄
  exact ⟨_, s₄, hrun, (heap_sound hrun).1, rfl, rfl, hbyte⟩

end Pintos
