import Pintos.Lib.BitmapRuns
import Pintos.Threads.Vaddr
import Mathlib

/-!
# Threads — Page allocator

`threads/palloc.c` and the memory size that `start.S` detects for it.  A pool is a bitmap and the
address of its first page; the bitmap itself lies in the pages before, from `map_start` on.  Pages
are requested and given back one call after another.

`PageRun kb limit held s`: the allocator, initialised on a machine with `kb` kB of memory, has come
to the state `s` by calls that returned, and the ranges `held user` of the pool `user` are handed
out and not given back.  `page_allocator_sound` collects what holds in every such state.
-/

namespace Pintos
open Function

/-- Why the kernel stops: `PANIC` with its message, or a failed `ASSERT`. -/
inductive Panic where
  | message (text : String)
  | assertion
  deriving DecidableEq

/-- An operation whose failure is a failed assertion. -/
def asserted {α : Type} : Option α → Except Panic α
  | some a => .ok a
  | none => .error .assertion

/-- `DIV_ROUND_UP`. -/
def DIV_ROUND_UP (x step : Nat) : Nat := (x + step - 1) / step

/-- `enum palloc_flags`. -/
structure PallocFlags where
  PAL_ASSERT : Bool
  PAL_ZERO : Bool
  PAL_USER : Bool

/-- `struct pool`, with the address of its bitmap. -/
structure Pool where
  used_map : Bitmap
  map_start : Nat
  base : Nat

/-- `kernel_pool` and `user_pool`, and the memory. -/
structure Palloc where
  kernel_pool : Pool
  user_pool : Pool
  memory : Nat → UInt8

namespace Palloc

/-- The pool that `PAL_USER` selects. -/
def pool (s : Palloc) (user : Bool) : Pool := if user then s.user_pool else s.kernel_pool

def setPool (s : Palloc) (user : Bool) (p : Pool) : Palloc :=
  if user then { s with user_pool := p } else { s with kernel_pool := p }

/-- `memset`. -/
def memset (s : Palloc) (start : Nat) (value : UInt8) (size : Nat) : Palloc :=
  { s with memory := fun a => if start ≤ a ∧ a < start + size then value else s.memory a }

theorem pool_setPool (s : Palloc) (user user' : Bool) (p : Pool) :
    (s.setPool user p).pool user' = if user' = user then p else s.pool user' := by
  cases user <;> cases user' <;> rfl

end Palloc

/-! ### The source -/

/-- `start.S`: the pages of `kb` kB of memory, capped at 64 MB. -/
def init_ram_pages (kb : Nat) : Nat := (if kb ≤ 0x10000 then kb else 0x10000) >>> 2

/-- `init_pool`. -/
def init_pool (base page_cnt : Nat) (name : String) : Except Panic Pool :=
  let bm_pages := DIV_ROUND_UP (bitmap_buf_size page_cnt) PGSIZE
  if bm_pages > page_cnt then
    .error (.message ("Not enough memory in " ++ name ++ " for bitmap."))
  else do
    let page_cnt := page_cnt - bm_pages
    let used_map ← asserted (bitmap_create_in_buf page_cnt (bm_pages * PGSIZE))
    return ⟨used_map, base, base + bm_pages * PGSIZE⟩

/-- `palloc_init`, on the memory as it was. -/
def palloc_init (ram_pages user_page_limit : Nat) (memory : Nat → UInt8) :
    Except Panic Palloc := do
  let free_start ← asserted (ptov (1024 * 1024))
  let free_end ← asserted (ptov (ram_pages * PGSIZE))
  let free_pages := (free_end - free_start) / PGSIZE
  let user_pages := free_pages / 2
  let user_pages := if user_pages > user_page_limit then user_page_limit else user_pages
  let kernel_pages := free_pages - user_pages
  let kernel_pool ← init_pool free_start kernel_pages "kernel pool"
  let user_pool ← init_pool (free_start + kernel_pages * PGSIZE) user_pages "user pool"
  return ⟨kernel_pool, user_pool, memory⟩

/-- `palloc_get_multiple`. -/
def palloc_get_multiple (flags : PallocFlags) (page_cnt : Nat) (s : Palloc) :
    Except Panic (Option Nat × Palloc) :=
  let pool := s.pool flags.PAL_USER
  if page_cnt = 0 then .ok (none, s)
  else
    match bitmap_scan_and_flip pool.used_map 0 page_cnt false with
    | (some page_idx, used_map) =>
      let pages := pool.base + PGSIZE * page_idx
      let s := s.setPool flags.PAL_USER { pool with used_map }
      .ok (some pages, if flags.PAL_ZERO then s.memset pages 0 (PGSIZE * page_cnt) else s)
    | (none, _) =>
      if flags.PAL_ASSERT then .error (.message "palloc_get: out of pages") else .ok (none, s)

/-- `page_from_pool`. -/
def page_from_pool (pool : Pool) (page : Nat) : Bool :=
  let page_no := pg_no page
  let start_page := pg_no pool.base
  let end_page := start_page + bitmap_size pool.used_map
  page_no ≥ start_page && page_no < end_page

/-- The pool that `palloc_free_multiple` takes for the owner of `pages`. -/
def owner (s : Palloc) (pages : Nat) : Option Bool :=
  if page_from_pool s.kernel_pool pages then some false
  else if page_from_pool s.user_pool pages then some true
  else none

/-- `palloc_free_multiple`. -/
def palloc_free_multiple (pages page_cnt : Nat) (s : Palloc) : Except Panic Palloc :=
  if pg_ofs pages ≠ 0 then .error .assertion
  else if pages = 0 ∨ page_cnt = 0 then .ok s
  else
    match owner s pages with
    | none => .error .assertion
    | some user =>
      let pool := s.pool user
      let page_idx := pg_no pages - pg_no pool.base
      let s := s.memset pages 0xcc (PGSIZE * page_cnt)
      if pool.used_map.InBounds page_idx page_cnt ∧
          bitmap_all pool.used_map page_idx page_cnt = true then
        let used_map := bitmap_set_multiple pool.used_map page_idx page_cnt false
        .ok (s.setPool user { pool with used_map })
      else .error .assertion

/-! ### What the pools are -/

/-- The addresses of `cnt` pages from `pages` on. -/
def pageRange (r : Nat × Nat) : Set Nat := Set.Ico r.1 (r.1 + PGSIZE * r.2)

namespace Pool

/-- The pages of the bitmap. -/
def mapPages (p : Pool) : Set Nat := Set.Ico p.map_start p.base

/-- The pages of the pool. -/
def pages (p : Pool) : Set Nat := pageRange (p.base, bitmap_size p.used_map)

/-- The address after the last page. -/
def stop (p : Pool) : Nat := p.base + PGSIZE * bitmap_size p.used_map

/-- The pool and its bitmap occupy whole pages, and the bitmap fits in its own. -/
structure Sound (p : Pool) : Prop where
  map_start : PGSIZE ∣ p.map_start
  base : PGSIZE ∣ p.base
  fits : p.map_start + bitmap_buf_size (bitmap_size p.used_map) ≤ p.base

end Pool

/-- The pools one after the other, in the free memory of a machine with `ram_pages` pages. -/
structure PoolsLaidOut (ram_pages : Nat) (s : Palloc) : Prop where
  sound : ∀ user, (s.pool user).Sound
  start : (s.pool false).map_start = PHYS_BASE + 1024 * 1024
  next : (s.pool false).stop = (s.pool true).map_start
  stop : (s.pool true).stop ≤ PHYS_BASE + ram_pages * PGSIZE

/-- The ranges `held` are what the bitmaps mark as used. -/
def PagesOwned (held : Bool → List (Nat × Nat)) (s : Palloc) : Prop :=
  ∀ user, ∃ runs, (s.pool user).used_map.Covers runs ∧
    held user = runs.map fun r => ((s.pool user).base + PGSIZE * r.1, r.2)

/-- A run of calls, each of which returned, on a machine with `kb` kB of memory. -/
inductive PageRun (kb user_page_limit : Nat) : (Bool → List (Nat × Nat)) → Palloc → Prop
  | init {memory : Nat → UInt8} {s : Palloc}
      (call : palloc_init (init_ram_pages kb) user_page_limit memory = .ok s) :
      PageRun kb user_page_limit (fun _ => []) s
  | get {held : Bool → List (Nat × Nat)} {s s' : Palloc} {flags : PallocFlags} {page_cnt p : Nat}
      (run : PageRun kb user_page_limit held s)
      (call : palloc_get_multiple flags page_cnt s = .ok (some p, s')) :
      PageRun kb user_page_limit
        (update held flags.PAL_USER ((p, page_cnt) :: held flags.PAL_USER)) s'
  | get_null {held : Bool → List (Nat × Nat)} {s s' : Palloc} {flags : PallocFlags}
      {page_cnt : Nat} (run : PageRun kb user_page_limit held s)
      (call : palloc_get_multiple flags page_cnt s = .ok (none, s')) :
      PageRun kb user_page_limit held s'
  | free {held : Bool → List (Nat × Nat)} {s s' : Palloc} {user : Bool} {r : Nat × Nat}
      (run : PageRun kb user_page_limit held s) (mem : r ∈ held user)
      (call : palloc_free_multiple r.1 r.2 s = .ok s') :
      PageRun kb user_page_limit (update held user ((held user).erase r)) s'

/-! ### Initialisation -/

theorem asserted_ok {α : Type} {x : Option α} {a : α} (h : asserted x = .ok a) : x = some a := by
  cases x with
  | none => cases h
  | some b => exact congrArg some (Except.ok.inj h)

theorem bind_ok {ε α β : Type} {x : Except ε α} {f : α → Except ε β} {b : β}
    (h : (x >>= f) = .ok b) : ∃ a, x = .ok a ∧ f a = .ok b := by
  cases x with
  | error e => cases h
  | ok a => exact ⟨a, rfl, h⟩

theorem init_pool_ok {base page_cnt : Nat} {name : String} {p : Pool}
    (h : init_pool base page_cnt name = .ok p) (hb : PGSIZE ∣ base) :
    p.Sound ∧ p.map_start = base ∧ p.used_map.Covers [] ∧ p.stop = base + PGSIZE * page_cnt := by
  simp only [init_pool] at h
  split at h
  · cases h
  · rename_i hle
    generalize DIV_ROUND_UP (bitmap_buf_size page_cnt) PGSIZE = bm_pages at h hle
    obtain ⟨m, hm, h⟩ := bind_ok h
    obtain rfl := Except.ok.inj h
    have hm := asserted_ok hm
    rw [bitmap_create_in_buf] at hm
    split at hm
    · obtain rfl := Option.some.inj hm
      refine ⟨⟨hb, Nat.dvd_add hb ⟨bm_pages, Nat.mul_comm ..⟩, ?_⟩, rfl, Bitmap.covers_create _, ?_⟩
      · show base + bitmap_buf_size (page_cnt - bm_pages) ≤ base + bm_pages * PGSIZE
        omega
      · show base + bm_pages * 4096 + 4096 * (page_cnt - bm_pages) = base + 4096 * page_cnt
        omega
    · cases hm

theorem init_ram_pages_le (kb : Nat) : init_ram_pages kb ≤ 0x4000 := by
  rw [init_ram_pages, Nat.shiftRight_eq_div_pow]
  split <;> omega

theorem le_init_ram_pages {kb : Nat} (h : 1024 ≤ kb) : 256 ≤ init_ram_pages kb := by
  rw [init_ram_pages, Nat.shiftRight_eq_div_pow]
  split <;> omega

theorem palloc_init_ok {ram_pages user_page_limit : Nat} {memory : Nat → UInt8} {s : Palloc}
    (h : palloc_init ram_pages user_page_limit memory = .ok s) (hmin : 256 ≤ ram_pages)
    (hmax : ram_pages ≤ 0x4000) : PoolsLaidOut ram_pages s ∧ PagesOwned (fun _ => []) s := by
  have hfree : (ram_pages * PGSIZE + PHYS_BASE - (1024 * 1024 + PHYS_BASE)) / PGSIZE =
      ram_pages - 256 := by
    show (ram_pages * 4096 + 0xc0000000 - (1024 * 1024 + 0xc0000000)) / 4096 = _
    omega
  simp only [palloc_init, ptov_eq (show 1024 * 1024 < 0x40000000 by norm_num),
    ptov_eq (show ram_pages * PGSIZE < 0x40000000 by simp only [PGSIZE]; omega)] at h
  obtain ⟨free_start, hs, h⟩ := bind_ok h
  obtain rfl := Except.ok.inj hs
  obtain ⟨free_end, he, h⟩ := bind_ok h
  obtain rfl := Except.ok.inj he
  rw [hfree] at h
  have hle : (if (ram_pages - 256) / 2 > user_page_limit then user_page_limit
      else (ram_pages - 256) / 2) ≤ ram_pages - 256 := by split <;> omega
  generalize (if (ram_pages - 256) / 2 > user_page_limit then user_page_limit
      else (ram_pages - 256) / 2) = user_pages at h hle
  obtain ⟨kernel_pool, hk, h⟩ := bind_ok h
  obtain ⟨user_pool, hu, h⟩ := bind_ok h
  obtain rfl := Except.ok.inj h
  obtain ⟨hk, hkm, hkc, hkb⟩ := init_pool_ok hk ⟨0xc0100, rfl⟩
  obtain ⟨hu, hum, huc, hub⟩ := init_pool_ok hu
    (Nat.dvd_add ⟨0xc0100, rfl⟩ ⟨ram_pages - 256 - user_pages, Nat.mul_comm ..⟩)
  refine ⟨⟨fun user => ?_, hkm.trans (Nat.add_comm ..), ?_, ?_⟩, fun user => ⟨[], ?_, rfl⟩⟩
  · cases user with
    | false => exact hk
    | true => exact hu
  · exact hkb.trans (by rw [show Palloc.pool _ true = user_pool from rfl, hum, Nat.mul_comm PGSIZE])
  · refine hub.trans_le ?_
    show 1024 * 1024 + 0xc0000000 + (ram_pages - 256 - user_pages) * 4096 + 4096 * user_pages ≤
      0xc0000000 + ram_pages * 4096
    omega
  · cases user with
    | false => exact hkc
    | true => exact huc

/-! ### The two calls -/

section Calls

variable {ram_pages : Nat} {held : Bool → List (Nat × Nat)} {s s' : Palloc} {flags : PallocFlags}
  {page_cnt p : Nat} {user : Bool} {r : Nat × Nat} {used_map : Bitmap}

/-- The pools of `s'` are those of `s` but for the bitmap of `user`, which is now `used_map`. -/
def MapSet (s : Palloc) (user : Bool) (used_map : Bitmap) (s' : Palloc) : Prop :=
  ∀ user', s'.pool user' =
    if user' = user then { s.pool user with used_map } else s.pool user'

theorem palloc_get_some (h : palloc_get_multiple flags page_cnt s = .ok (some p, s')) :
    0 < page_cnt ∧ ∃ idx, bitmap_scan (s.pool flags.PAL_USER).used_map 0 page_cnt false = some idx ∧
      p = (s.pool flags.PAL_USER).base + PGSIZE * idx ∧
      MapSet s flags.PAL_USER
        (bitmap_set_multiple (s.pool flags.PAL_USER).used_map idx page_cnt true) s' := by
  simp only [palloc_get_multiple, bitmap_scan_and_flip] at h
  split at h
  · cases h
  · rename_i hcnt
    cases hscan : bitmap_scan (s.pool flags.PAL_USER).used_map 0 page_cnt false with
    | none =>
      simp only [hscan] at h
      split at h <;> cases h
    | some idx =>
      simp only [hscan] at h
      obtain ⟨hp, hs⟩ := Prod.mk.inj (Except.ok.inj h)
      refine ⟨Nat.pos_of_ne_zero hcnt, idx, rfl, (Option.some.inj hp).symm, fun user' => ?_⟩
      rw [← hs, ← Palloc.pool_setPool]
      split <;> rfl

theorem palloc_get_null (h : palloc_get_multiple flags page_cnt s = .ok (none, s')) : s' = s := by
  simp only [palloc_get_multiple, bitmap_scan_and_flip] at h
  split at h
  · exact (Prod.mk.inj (Except.ok.inj h)).2.symm
  · cases hscan : bitmap_scan (s.pool flags.PAL_USER).used_map 0 page_cnt false with
    | none =>
      simp only [hscan] at h
      split at h
      · cases h
      · exact (Prod.mk.inj (Except.ok.inj h)).2.symm
    | some idx =>
      simp only [hscan] at h
      cases (Prod.mk.inj (Except.ok.inj h)).1

/-- A request that is not met has scanned the bitmap in vain. -/
theorem palloc_get_fails (hcnt : 0 < page_cnt)
    (h : ∀ p s', palloc_get_multiple flags page_cnt s ≠ .ok (some p, s')) :
    bitmap_scan (s.pool flags.PAL_USER).used_map 0 page_cnt false = none := by
  by_contra hscan
  obtain ⟨idx, hscan⟩ := Option.ne_none_iff_exists'.mp hscan
  simp only [palloc_get_multiple, bitmap_scan_and_flip, if_neg hcnt.ne', hscan] at h
  exact h _ _ rfl

theorem palloc_free_ok (howner : owner s p = some user) (hofs : pg_ofs p = 0) (hp : p ≠ 0)
    (hcnt : 0 < page_cnt)
    (hall : (s.pool user).used_map.InBounds (pg_no p - pg_no (s.pool user).base) page_cnt ∧
      bitmap_all (s.pool user).used_map (pg_no p - pg_no (s.pool user).base) page_cnt = true) :
    ∃ s', palloc_free_multiple p page_cnt s = .ok s' ∧ MapSet s user (bitmap_set_multiple
      (s.pool user).used_map (pg_no p - pg_no (s.pool user).base) page_cnt false) s' := by
  simp only [palloc_free_multiple, howner]
  rw [if_neg (not_not.mpr hofs), if_neg (by omega), if_pos hall]
  exact ⟨_, rfl, fun user' => Palloc.pool_setPool (s.memset p 0xcc _) user user' _⟩

theorem PoolsLaidOut.of_shape (h : PoolsLaidOut ram_pages s)
    (hs : ∀ user, (s'.pool user).map_start = (s.pool user).map_start ∧
      (s'.pool user).base = (s.pool user).base ∧
      bitmap_size (s'.pool user).used_map = bitmap_size (s.pool user).used_map) :
    PoolsLaidOut ram_pages s' := by
  have hstop : ∀ user, (s'.pool user).stop = (s.pool user).stop := fun user => by
    rw [Pool.stop, Pool.stop, (hs user).2.1, (hs user).2.2]
  refine ⟨fun user => ⟨?_, ?_, ?_⟩, (hs false).1.trans h.start, ?_, (hstop true).trans_le h.stop⟩
  · rw [(hs user).1]
    exact (h.sound user).map_start
  · rw [(hs user).2.1]
    exact (h.sound user).base
  · rw [(hs user).1, (hs user).2.1, (hs user).2.2]
    exact (h.sound user).fits
  · rw [hstop, (hs true).1, h.next]

theorem MapSet.laidOut (h : MapSet s user used_map s')
    (hsize : used_map.bit_cnt = (s.pool user).used_map.bit_cnt) (hl : PoolsLaidOut ram_pages s) :
    PoolsLaidOut ram_pages s' := by
  refine hl.of_shape fun user' => ?_
  rw [h user']
  split
  · rename_i he
    subst he
    exact ⟨rfl, rfl, hsize⟩
  · exact ⟨rfl, rfl, rfl⟩

/-- The runs of one bitmap have changed, and with them the ranges of that pool. -/
theorem MapSet.owned {runs : List (Nat × Nat)} (h : MapSet s user used_map s')
    (ho : PagesOwned held s) (hc : used_map.Covers runs) :
    PagesOwned (update held user
      (runs.map fun r => ((s.pool user).base + PGSIZE * r.1, r.2))) s' := by
  intro user'
  rw [h user']
  by_cases he : user' = user
  · subst he
    rw [if_pos rfl, update_self]
    exact ⟨runs, hc, rfl⟩
  · rw [if_neg he, update_of_ne he]
    exact ho user'

/-- An address of the pool, as `pg_no` sees it. -/
theorem page_from_pool_eq {q : Pool} (hq : PGSIZE ∣ q.base) :
    page_from_pool q p = true ↔ p ∈ q.pages := by
  obtain ⟨k, hk⟩ := hq
  simp only [page_from_pool, pg_no_eq, Pool.pages, pageRange, Set.mem_Ico, Bool.and_eq_true,
    decide_eq_true_eq, hk, PGSIZE]
  omega

theorem PoolsLaidOut.pages_apart (h : PoolsLaidOut ram_pages s) (hp : p ∈ (s.pool user).pages)
    {user' : Bool} (hp' : p ∈ (s.pool user').pages) : user = user' := by
  have hnext := h.next
  have hfits := (h.sound true).fits
  simp only [Pool.stop] at hnext
  cases user <;> cases user'
  · rfl
  · have h₁ := hp.2
    have h₂ := hp'.1
    dsimp only at h₁ h₂
    omega
  · have h₁ := hp'.2
    have h₂ := hp.1
    dsimp only at h₁ h₂
    omega
  · rfl

/-- The pages of a pool are found to be its own. -/
theorem PoolsLaidOut.owner_eq (h : PoolsLaidOut ram_pages s) (hp : p ∈ (s.pool user).pages) :
    owner s p = some user := by
  have hiff : ∀ u, page_from_pool (s.pool u) p = true ↔ u = user := fun u =>
    (page_from_pool_eq (h.sound u).base).trans ⟨fun hp' => h.pages_apart hp' hp, fun e => e ▸ hp⟩
  have hk : page_from_pool s.kernel_pool p = true ↔ false = user := hiff false
  have hu : page_from_pool s.user_pool p = true ↔ true = user := hiff true
  cases user with
  | false => rw [owner, if_pos (hk.mpr rfl)]
  | true => rw [owner, if_neg (by simp [hk]), if_pos (hu.mpr rfl)]

theorem palloc_get_keeps (hl : PoolsLaidOut ram_pages s) (ho : PagesOwned held s)
    (h : palloc_get_multiple flags page_cnt s = .ok (some p, s')) :
    PoolsLaidOut ram_pages s' ∧ PagesOwned
      (update held flags.PAL_USER ((p, page_cnt) :: held flags.PAL_USER)) s' := by
  obtain ⟨hpos, idx, hscan, rfl, hset⟩ := palloc_get_some h
  obtain ⟨runs, hc, hheld⟩ := ho flags.PAL_USER
  refine ⟨hset.laidOut rfl hl, ?_⟩
  rw [hheld]
  exact hset.owned ho (hc.scan_and_flip hpos hscan)

/-- A range that is handed out lies in the pool it was requested from. -/
theorem PagesOwned.subset_pages (ho : PagesOwned held s) (hr : r ∈ held user) :
    pageRange r ⊆ (s.pool user).pages := by
  obtain ⟨runs, hc, hheld⟩ := ho user
  rw [hheld] at hr
  obtain ⟨run, hrun, rfl⟩ := List.mem_map.mp hr
  have hb := (hc.bound run hrun).2
  rintro a ⟨h₁, h₂⟩
  simp only [Pool.pages, pageRange, Set.mem_Ico, bitmap_size, PGSIZE] at h₁ h₂ ⊢
  omega

theorem palloc_free_run (hl : PoolsLaidOut ram_pages s) (ho : PagesOwned held s)
    (hr : r ∈ held user) :
    owner s r.1 = some user ∧ ∃ s', palloc_free_multiple r.1 r.2 s = .ok s' ∧
      PoolsLaidOut ram_pages s' ∧
      PagesOwned (update held user ((held user).erase r)) s' := by
  have hsub := ho.subset_pages hr
  obtain ⟨runs, hc, hheld⟩ := ho user
  have hr' := hheld ▸ hr
  obtain ⟨run, hrun, rfl⟩ := List.mem_map.mp hr'
  obtain ⟨hpos, hb⟩ := hc.bound run hrun
  obtain ⟨k, hk⟩ := (hl.sound user).base
  have howner := hl.owner_eq (hsub ⟨le_rfl, by simp only [PGSIZE]; omega⟩)
  refine ⟨howner, ?_⟩
  have hofs : pg_ofs ((s.pool user).base + PGSIZE * run.1) = 0 := by
    rw [pg_ofs_eq, hk, ← Nat.mul_add, Nat.mul_mod_right]
  have hidx : pg_no ((s.pool user).base + PGSIZE * run.1) - pg_no (s.pool user).base = run.1 := by
    rw [pg_no_eq, pg_no_eq, hk, ← Nat.mul_add, Nat.mul_div_cancel_left _ (by norm_num),
      Nat.mul_div_cancel_left _ (by norm_num), Nat.add_sub_cancel_left]
  have hne : (s.pool user).base + PGSIZE * run.1 ≠ 0 := by
    have := (hl.sound user).fits
    rw [bitmap_buf_size] at this
    omega
  obtain ⟨s', hcall, hset⟩ := palloc_free_ok howner hofs hne hpos
    (by rw [hidx]; exact ⟨⟨by omega, hb⟩, hc.all hrun⟩)
  rw [hidx] at hset
  refine ⟨s', hcall, hset.laidOut rfl hl, ?_⟩
  have hinj : Injective fun r : Nat × Nat => ((s.pool user).base + PGSIZE * r.1, r.2) := by
    rintro ⟨a, b⟩ ⟨a', b'⟩ he
    simp only [Prod.mk.injEq, PGSIZE] at he ⊢
    omega
  rw [hheld, ← List.map_erase hinj]
  exact hset.owned ho (hc.set_false hrun)

end Calls

/-! ### Runs -/

section Runs

variable {kb user_page_limit : Nat} {held : Bool → List (Nat × Nat)} {s : Palloc}

theorem PageRun.keeps (run : PageRun kb user_page_limit held s) (hkb : 1024 ≤ kb) :
    PoolsLaidOut (init_ram_pages kb) s ∧ PagesOwned held s := by
  induction run with
  | init call => exact palloc_init_ok call (le_init_ram_pages hkb) (init_ram_pages_le kb)
  | get _ call ih => exact palloc_get_keeps ih.1 ih.2 call
  | get_null _ call ih =>
    rw [palloc_get_null call]
    exact ih
  | free _ mem call ih =>
    obtain ⟨-, s', hs', hkeeps⟩ := palloc_free_run ih.1 ih.2 mem
    rw [Except.ok.inj (call.symm.trans hs')]
    exact hkeeps

/-- What holds of the allocator, on a machine with `kb` kB of memory, when the ranges `held` are
handed out. -/
structure PagesSound (kb : Nat) (held : Bool → List (Nat × Nat)) (s : Palloc) : Prop where
  /-- Pools and bitmaps are whole pages of RAM, and each bitmap fits in its own. -/
  sound : ∀ user, (s.pool user).Sound ∧ (s.pool user).mapPages ∪ (s.pool user).pages ⊆
    Set.Ico PHYS_BASE (PHYS_BASE + kb * 1024)
  /-- Pools and bitmaps are apart. -/
  apart : [(s.pool false).mapPages, (s.pool false).pages, (s.pool true).mapPages,
    (s.pool true).pages].Pairwise Disjoint
  /-- So are the ranges handed out. -/
  held_apart : (held false ++ held true).Pairwise fun r r' => Disjoint (pageRange r) (pageRange r')
  /-- They lie in the pool requested, on page boundaries, and overlap no bitmap. -/
  held_inside : ∀ user, ∀ r ∈ held user, pageRange r ⊆ (s.pool user).pages ∧ PGSIZE ∣ r.1 ∧
    ∀ user', Disjoint (pageRange r) (s.pool user').mapPages
  /-- A request fails only where no group of that many pages of its pool is free. -/
  get : ∀ flags page_cnt, 0 < page_cnt →
    (∀ p s', palloc_get_multiple flags page_cnt s ≠ .ok (some p, s')) →
    ¬ ∃ p, PGSIZE ∣ p ∧ pageRange (p, page_cnt) ⊆ (s.pool flags.PAL_USER).pages ∧
      ∀ r ∈ held flags.PAL_USER, Disjoint (pageRange (p, page_cnt)) (pageRange r)
  /-- A range is given back to the pool it is from. -/
  free : ∀ user, ∀ r ∈ held user, owner s r.1 = some user ∧
    ∃ s', palloc_free_multiple r.1 r.2 s = .ok s'

theorem pageRange_apart {r r' : Nat × Nat} (base : Nat) (h : Bitmap.RunsApart r r') :
    Disjoint (pageRange (base + PGSIZE * r.1, r.2)) (pageRange (base + PGSIZE * r'.1, r'.2)) := by
  simp only [pageRange, Set.Ico_disjoint_Ico, PGSIZE]
  rcases h with h | h <;> omega

/-- Bitmaps and pools in the order of their addresses. -/
theorem PoolsLaidOut.regions_apart {ram_pages : Nat} (h : PoolsLaidOut ram_pages s) :
    [(s.pool false).mapPages, (s.pool false).pages, (s.pool true).mapPages,
      (s.pool true).pages].Pairwise Disjoint := by
  have hk := (h.sound false).fits
  have hu := (h.sound true).fits
  have hnext := h.next
  simp only [Pool.stop] at hnext
  simp only [List.pairwise_cons, List.forall_mem_cons, Pool.mapPages, Pool.pages, pageRange,
    Set.Ico_disjoint_Ico]
  refine ⟨⟨?_, ?_, ?_, by simp⟩, ⟨?_, ?_, by simp⟩, ⟨?_, by simp⟩, by simp⟩ <;> omega

theorem PoolsLaidOut.inside {ram_pages : Nat} (h : PoolsLaidOut ram_pages s) (user : Bool) :
    (s.pool user).mapPages ∪ (s.pool user).pages ⊆
      Set.Ico PHYS_BASE (PHYS_BASE + ram_pages * PGSIZE) := by
  have hk := (h.sound false).fits
  have hu := (h.sound true).fits
  have hstart := h.start
  have hnext := h.next
  have hstop := h.stop
  simp only [Pool.stop] at hnext hstop
  rintro a (⟨h₁, h₂⟩ | ⟨h₁, h₂⟩)
  · cases user <;> constructor <;> omega
  · dsimp only at h₁ h₂
    cases user <;> constructor <;> omega

theorem PagesOwned.apart (ho : PagesOwned held s) (user : Bool) :
    (held user).Pairwise fun r r' => Disjoint (pageRange r) (pageRange r') := by
  obtain ⟨runs, hc, hheld⟩ := ho user
  rw [hheld, List.pairwise_map]
  exact hc.apart.imp (pageRange_apart _)

/-- No free group of pages is overlooked. -/
theorem PagesOwned.scan_none (ho : PagesOwned held s) {user : Bool} {page_cnt p : Nat}
    (hbase : PGSIZE ∣ (s.pool user).base) (hcnt : 0 < page_cnt)
    (hscan : bitmap_scan (s.pool user).used_map 0 page_cnt false = none) (hp : PGSIZE ∣ p)
    (hsub : pageRange (p, page_cnt) ⊆ (s.pool user).pages) :
    ∃ r ∈ held user, ¬ Disjoint (pageRange (p, page_cnt)) (pageRange r) := by
  obtain ⟨runs, hc, hheld⟩ := ho user
  obtain ⟨k, hk⟩ := hbase
  obtain ⟨q, rfl⟩ := hp
  have hfirst := hsub (show PGSIZE * q ∈ _ from ⟨le_rfl, by simp only [PGSIZE]; omega⟩)
  have hlast := hsub (show PGSIZE * q + PGSIZE * page_cnt - 1 ∈ _ from
    ⟨by simp only [PGSIZE]; omega, by simp only [PGSIZE]; omega⟩)
  simp only [Pool.pages, pageRange, Set.mem_Ico, bitmap_size, hk, PGSIZE] at hfirst hlast
  obtain ⟨run, hrun, hmeet⟩ := hc.scan_none hscan (show q - k + page_cnt ≤ _ by omega)
  refine ⟨_, hheld ▸ List.mem_map_of_mem hrun, fun hd => hmeet ?_⟩
  have hpos := (hc.bound run hrun).1
  simp only [pageRange, Set.Ico_disjoint_Ico, hk, PGSIZE] at hd
  rw [Bitmap.RunsApart]
  omega

theorem page_allocator_sound (hkb : 1024 ≤ kb) (run : PageRun kb user_page_limit held s) :
    PagesSound kb held s := by
  obtain ⟨hl, ho⟩ := run.keeps hkb
  have hapart := hl.regions_apart
  have hram : init_ram_pages kb * PGSIZE ≤ kb * 1024 := by
    simp only [init_ram_pages, Nat.shiftRight_eq_div_pow, PGSIZE]
    split <;> omega
  have hclear : ∀ user user', Disjoint (s.pool user).pages (s.pool user').mapPages := by
    simp only [List.pairwise_cons, List.forall_mem_cons] at hapart
    obtain ⟨⟨h₁, -, h₂, -⟩, ⟨h₃, -⟩, ⟨h₄, -⟩, -⟩ := hapart
    rintro (_ | _) (_ | _)
    exacts [h₁.symm, h₃, h₂.symm, h₄.symm]
  refine ⟨fun user => ⟨hl.sound user, (hl.inside user).trans ?_⟩, hapart, ?_, ?_, ?_, ?_⟩
  · exact Set.Ico_subset_Ico_right (Nat.add_le_add_left hram _)
  · refine List.pairwise_append.mpr ⟨ho.apart false, ho.apart true, fun r hr r' hr' => ?_⟩
    refine Set.disjoint_left.mpr fun a ha ha' => Bool.false_ne_true ?_
    exact hl.pages_apart (ho.subset_pages hr ha) (ho.subset_pages hr' ha')
  · intro user r hr
    refine ⟨ho.subset_pages hr, ?_, fun user' => (hclear user user').mono_left (ho.subset_pages hr)⟩
    obtain ⟨runs, -, hheld⟩ := ho user
    rw [hheld] at hr
    obtain ⟨run, -, rfl⟩ := List.mem_map.mp hr
    exact Nat.dvd_add (hl.sound user).base ⟨run.1, rfl⟩
  · rintro flags page_cnt hcnt hnull ⟨p, hp, hsub, hfree⟩
    obtain ⟨r, hr, hmeet⟩ := ho.scan_none (hl.sound _).base hcnt (palloc_get_fails hcnt hnull) hp hsub
    exact hmeet (hfree r hr)
  · intro user r hr
    obtain ⟨howner, s', hs', -⟩ := palloc_free_run hl ho hr
    exact ⟨howner, s', hs'⟩

end Runs

/-- Five pages beyond the first megabyte, of which the pools have two and one besides their bitmaps:
each pool gives a page, and the kernel's is given back. -/
theorem palloc_calls_small : ∃ s s₁ s₂ s₃,
    palloc_init (init_ram_pages 1044) 2 (fun _ => 0) = .ok s ∧
    palloc_get_multiple ⟨true, false, false⟩ 1 s = .ok (some (PHYS_BASE + 0x101000), s₁) ∧
    palloc_get_multiple ⟨false, false, true⟩ 1 s₁ = .ok (some (PHYS_BASE + 0x104000), s₂) ∧
    palloc_free_multiple (PHYS_BASE + 0x101000) 1 s₂ = .ok s₃ :=
  ⟨⟨⟨bitmap_create 2, PHYS_BASE + 0x100000, PHYS_BASE + 0x101000⟩,
    ⟨bitmap_create 1, PHYS_BASE + 0x103000, PHYS_BASE + 0x104000⟩, _⟩, _, _, _, rfl, rfl, rfl, rfl⟩

theorem page_allocator_sound_small : ∃ held s, held false = [] ∧
    held true = [(PHYS_BASE + 0x104000, 1)] ∧ PagesSound 1044 held s := by
  obtain ⟨s, s₁, s₂, s₃, hs, h₁, h₂, h₃⟩ := palloc_calls_small
  have hrun := ((PageRun.init hs).get h₁).get h₂
  exact ⟨_, s₃, rfl, rfl, page_allocator_sound (by norm_num)
    (@PageRun.free _ _ _ _ _ false (PHYS_BASE + 0x101000, 1) hrun (by decide) h₃)⟩

end Pintos
