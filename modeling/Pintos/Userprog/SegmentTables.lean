import Pintos.Filesys.FileContents
import Pintos.Userprog.PagedirDestroy
import Pintos.Userprog.Segments

/-!
# Userprog — Segments in the page tables

`load_segment` over page tables: `install_page` of `process.c` is here `pagedir_get_page` and
`pagedir_set_page` on the words of a page directory, and the pages that `palloc_get_page` returns
hold bytes.  `Loading.user_page` is what the processor finds at a page of the user.

The words refine a map of pages (`Refines`), and pages that are obtained are free, so the operations
keep to the contract of `load_segment` (`loading_api_runs`).  `segment_loaded_exact`: what is loaded
is the image that the program header describes, on every file system that reads the file as its
bytes, the one on disk among them (`readsAs_disk`).
-/

namespace Pintos
open Support Function Option
open Phdr (file_page mem_page p_vaddr read_bytes zero_bytes)

/-- `install_page`. -/
def install_page (init_page_dir ram_pages pd upage kpage : Nat) (writable : Bool)
    (alloc : Option Nat) (m : Words) : Option (Bool × Words) := do
  match ← pagedir_get_page pd upage m with
  | none => pagedir_set_page init_page_dir ram_pages pd upage kpage writable alloc m
  | some _ => some (false, m)

/-! ### The machine -/

/-- A process that loads its program. -/
structure Loading (K : Type) where
  fs : K
  words : Words
  /-- The bytes of pages, by the address of the page. -/
  frames : Nat → Nat → UInt8
  /-- What the next calls of `palloc_get_page` return. -/
  pool : Nat → Option Nat
  /-- The page last obtained. -/
  kpage : Nat

namespace Loading

variable {K : Type}

/-- `s` over the file system `k`. -/
def setFs (k : K) (s : Loading K) : Loading K := { s with fs := k }

/-- The page `v` of the user, as it is found through the page directory `pd`. -/
def user_page (pd : Nat) (s : Loading K) (v : Nat) : Option UserPage :=
  match pagedir_get_page pd (PGSIZE * v) s.words, is_flag PTE_W pd (PGSIZE * v) s.words with
  | some (some kpage), some writable => some ⟨s.frames kpage, writable⟩
  | _, _ => none

end Loading

/-- The operations that `load_segment` calls, on page tables.  A page that `pagedir_set_page` did
not need is passed over. -/
def loading_api {K : Type} (I : FsApi K)
    (init_page_dir ram_pages pd : Nat) : ∀ o : SysOp, Machine Event (Loading K) o.Res
  | .fs o => (I o).zoom Loading.fs Loading.setFs
  | .palloc_get_page => do
    let s ← Machine.get
    Machine.modify fun s => { s with
      pool := fun n => s.pool (n + 1), kpage := (s.pool 0).getD s.kpage }
    pure (s.pool 0).isSome
  | .install_page upage bytes writable => do
    let s ← Machine.get
    match install_page init_page_dir ram_pages pd upage s.kpage writable (s.pool 0) s.words with
    | some (installed, words) => do
      Machine.modify fun s => { s with
        words := words
        frames := update s.frames s.kpage fun i => bytes.getD i 0
        pool := fun n => s.pool (n + 1) }
      pure installed
    | none => Machine.panic
  | _ => Machine.panic

/-! ### What it refines -/

section Refinement

variable {K : Type} {I : FsApi K} {init_page_dir ram_pages pd : Nat}
  {tables : Nat → Option Nat} {k : Words} {d : PageMap} {m : Words} {page : Nat}

/-- A page that `palloc_get_page` may return. -/
structure PageMap.Free (init_page_dir ram_pages pd : Nat) (d : PageMap) (page : Nat) : Prop where
  kernel : KernelPage page
  ram : (page - PHYS_BASE) / PGSIZE < ram_pages
  init : page ≠ init_page_dir
  unheld : ¬ d.Holds pd page

/-- The pages in the pool are free, and each is returned once. -/
structure PageMap.Pool (init_page_dir ram_pages pd : Nat) (d : PageMap) (pool : Nat → Option Nat) :
    Prop where
  free : ∀ n page, pool n = some page → d.Free init_page_dir ram_pages pd page
  inj : ∀ n n' page, pool n = some page → pool n' = some page → n = n'

/-- The pages of the user in the map. -/
def PageMap.user_pages (d : PageMap) (frames : Nat → Nat → UInt8) : Pages := fun v =>
  (d.map v).map fun mp => ⟨frames mp.frame, mp.writable⟩

theorem Refines.is_writable (h : Refines init_page_dir pd tables k d m) (hpd : pd ≠ 0) {va : Nat}
    (hva : va < PHYS_BASE) {mp : Mapping} (hmp : d.map (va / PGSIZE) = some mp) :
    is_flag PTE_W pd va m = some mp.writable := by
  rw [is_flag, h.lookup hpd (hva.trans (by norm_num [PHYS_BASE]))]
  cases ht : d.tables (pd_no va) with
  | none => exact absurd (hmp.symm.trans (h.map_none ht)) (by simp)
  | some pt =>
    have hok := h.user _ (pd_no_user hva) pt ht _ (pt_no_lt va)
    rw [← page_no_eq, hmp] at hok
    show some (decide (m pt (pt_no va) &&& 2 ^ 1 ≠ 0)) = _
    rw [← hok.2.2.1]
    simp only [flag_ne_zero, Bool.decide_eq_true]

/-- The processor finds the pages of the map. -/
theorem Refines.user_page {s : Loading K} (h : Refines init_page_dir pd tables k d s.words)
    (hpd : pd ≠ 0) : s.user_page pd = d.user_pages s.frames := by
  funext v
  have hdiv : PGSIZE * v / PGSIZE = v := Nat.mul_div_cancel_left _ (by decide)
  rw [Loading.user_page, PageMap.user_pages]
  by_cases hv : PGSIZE * v < PHYS_BASE
  · rw [h.get_page hpd hv, hdiv]
    cases hmp : d.map v with
    | none => rfl
    | some mp =>
      rw [h.is_writable hpd hv (by rw [hdiv]; exact hmp)]
      have hofs : pg_ofs (PGSIZE * v) = 0 := by
        rw [pg_ofs_eq, Nat.mul_mod_right]
      simp only [map_some, hofs, Nat.add_zero]
  · have hnone : pagedir_get_page pd (PGSIZE * v) s.words = none :=
      if_neg (by simpa [is_user_vaddr] using hv)
    have hmap := h.map_kernel (Nat.not_lt.mp hv)
    rw [hdiv] at hmap
    rw [hnone, hmap]
    rfl

/-- A page that the directory does not hold is not seen. -/
theorem PageMap.user_pages_unheld {frames : Nat → Nat → UInt8} {bytes : Nat → UInt8}
    (h : ¬ d.Holds pd page) :
    d.user_pages (update frames page bytes) = d.user_pages frames := by
  funext v
  rw [PageMap.user_pages, PageMap.user_pages]
  cases hmp : d.map v with
  | none => rfl
  | some mp =>
    have hne : mp.frame ≠ page := fun he => h (.inr (.inr ⟨v, mp, hmp, he⟩))
    rw [map_some, map_some, update_of_ne hne]

/-- What `pagedir_set_page` makes of the map: a page is added, and perhaps a page table. -/
theorem PageMap.after_set_page (pd : Nat) {upage kpage : Nat} {writable : Bool} {alloc : Option Nat}
    (hr : d.returns (.set_page upage kpage writable alloc) = true) :
    (d.after (.set_page upage kpage writable alloc)).map =
        update d.map (upage / PGSIZE) (some ⟨kpage, writable, fun _ => false⟩) ∧
      ∀ page, (d.after (.set_page upage kpage writable alloc)).Holds pd page →
        d.Holds pd page ∨ page = kpage ∨ alloc = some page := by
  have hmap : ∀ {e : PageMap}, e.map = d.map → ∀ page v mp,
      (e.setMap upage (some ⟨kpage, writable, fun _ => false⟩)).map v = some mp →
      mp.frame = page → d.Holds pd page ∨ page = kpage ∨ alloc = some page := by
    intro e he page v mp hv hf
    by_cases hve : v = upage / PGSIZE
    · rw [hve, PageMap.setMap_self] at hv
      cases hv
      exact .inr (.inl hf.symm)
    · rw [PageMap.setMap_of_ne hve, he] at hv
      exact .inl (.inr (.inr ⟨v, mp, hv, hf⟩))
  simp only [PageMap.after, PageMap.returns] at hr ⊢
  cases ht : d.tables (pd_no upage) with
  | some pt =>
    refine ⟨rfl, fun page hold => ?_⟩
    rcases hold with hold | ⟨i, hi⟩ | ⟨v, mp, hv, hf⟩
    · exact .inl (.inl hold)
    · exact .inl (.inr (.inl ⟨i, hi⟩))
    · exact hmap rfl page v mp hv hf
  | none =>
    cases alloc with
    | none => rw [ht] at hr; cases hr
    | some pt =>
      refine ⟨rfl, fun page hold => ?_⟩
      rcases hold with hold | ⟨i, hi⟩ | ⟨v, mp, hv, hf⟩
      · exact .inl (.inl hold)
      · rw [PageMap.setMap_tables] at hi
        by_cases hie : i = pd_no upage
        · rw [hie, PageMap.setTable_self] at hi
          exact .inr (.inr hi)
        · rw [PageMap.setTable_of_ne hie] at hi
          exact .inl (.inr (.inl ⟨i, hi⟩))
      · exact hmap rfl page v mp hv hf

/-- `s` is a machine for the space `t`, with the map `d`. -/
structure Loading.Models (init_page_dir ram_pages pd : Nat) (tables : Nat → Option Nat) (k : Words)
    (F : K → Prop) (d : PageMap) (t : Space) (s : Loading K) : Prop where
  words : Refines init_page_dir pd tables k d s.words
  pages : t.pages = d.user_pages s.frames
  pool : d.Pool init_page_dir ram_pages pd s.pool
  obtained : t.obtained = true →
    d.Free init_page_dir ram_pages pd s.kpage ∧ ∀ n, s.pool n ≠ some s.kpage
  file : F s.fs

variable {F : K → Prop} {t : Space} {s : Loading K} {ok : Event → Prop} {file : List UInt8}

theorem PageMap.Pool.tail {pool : Nat → Option Nat} (h : d.Pool init_page_dir ram_pages pd pool) :
    d.Pool init_page_dir ram_pages pd fun n => pool (n + 1) :=
  ⟨fun n => h.free (n + 1), fun _ _ page hn hn' => Nat.succ.inj (h.inj _ _ page hn hn')⟩

section

variable (h : s.Models init_page_dir ram_pages pd tables k F d t)
include h

theorem loading_palloc :
    (loading_api I init_page_dir ram_pages pd .palloc_get_page).Runs ok s fun _ r s' =>
      s'.Models init_page_dir ram_pages pd tables k F d { t with obtained := r } := by
  refine Machine.Runs.get_bind (Machine.Runs.modify_bind (Machine.Runs.pure ?_))
  refine ⟨h.words, h.pages, h.pool.tail, fun hsome => ?_, h.file⟩
  obtain ⟨page, hpage⟩ := Option.isSome_iff_exists.mp hsome
  rw [show (s.pool 0).getD s.kpage = page by rw [hpage, getD_some]]
  exact ⟨h.pool.free 0 page hpage, fun n hn => nomatch h.pool.inj _ _ page hpage hn⟩

/-- `install_page` maps the page that was obtained, unless there is one already or no page table
could be had. -/
theorem install_page_runs (hpd : pd ≠ 0) (hinit : pd ≠ init_page_dir) (ht : t.obtained = true)
    {upage : Nat} (halign : upage % PGSIZE = 0) (huser : upage < PHYS_BASE) (writable : Bool) :
    ∃ r m, install_page init_page_dir ram_pages pd upage s.kpage writable (s.pool 0) s.words =
        some (r, m) ∧
      (r = false ∧ Refines init_page_dir pd tables k d m ∨
       r = true ∧ d.map (upage / PGSIZE) = none ∧ ∃ d', Refines init_page_dir pd tables k d' m ∧
          d'.map = update d.map (upage / PGSIZE) (some ⟨s.kpage, writable, fun _ => false⟩) ∧
          ∀ page, d'.Holds pd page → d.Holds pd page ∨ page = s.kpage ∨ s.pool 0 = some page) := by
  obtain ⟨hfree, -⟩ := h.obtained ht
  rw [install_page, h.words.get_page hpd huser]
  cases hmp : d.map (upage / PGSIZE) with
  | some mp => exact ⟨false, s.words, rfl, .inl ⟨rfl, h.words⟩⟩
  | none =>
    have hready : d.Ready init_page_dir ram_pages pd
        (.set_page upage s.kpage writable (s.pool 0)) := by
      refine ⟨by rw [pg_ofs_eq]; exact halign, huser, hmp, hfree.kernel, hfree.ram,
        fun pt hpt => ?_⟩
      have hpt' := h.pool.free 0 pt hpt
      exact ⟨hpt'.kernel, fun he => hpt'.unheld (.inl he), hpt'.init,
        fun i hi => hpt'.unheld (.inr (.inl ⟨i, hi⟩))⟩
    obtain ⟨m, hrun, hm⟩ := h.words.set_page_runs hpd hinit hready
    refine ⟨_, m, hrun, ?_⟩
    cases hret : d.returns (.set_page upage s.kpage writable (s.pool 0)) with
    | true =>
      obtain ⟨hmap, hholds⟩ := PageMap.after_set_page pd hret
      exact .inr ⟨rfl, rfl, _, hm, hmap, hholds⟩
    | false =>
      refine .inl ⟨rfl, ?_⟩
      simp only [PageMap.returns, Bool.or_eq_false_iff, isSome_eq_false_iff,
        isNone_iff_eq_none] at hret
      simpa only [PageMap.after, hret.1, hret.2] using hm

theorem loading_install (hpd : pd ≠ 0) (hinit : pd ≠ init_page_dir) (ht : t.obtained = true)
    {upage : Nat} (halign : upage % PGSIZE = 0) (huser : upage < PHYS_BASE) (bytes : List UInt8)
    (writable : Bool) :
    (loading_api I init_page_dir ram_pages pd (.install_page upage bytes writable)).Runs ok s
      fun _ r s' => ∃ t', Space.post file t (.install_page upage bytes writable) r t' ∧
        ∃ d', s'.Models init_page_dir ram_pages pd tables k F d' t' := by
  obtain ⟨hfree, hnext⟩ := h.obtained ht
  obtain ⟨r, m, hrun, hcases⟩ := install_page_runs h hpd hinit ht halign huser writable
  refine Machine.Runs.get_bind ?_
  rw [hrun]
  refine Machine.Runs.modify_bind (Machine.Runs.pure ?_)
  have hframes : d.user_pages (update s.frames s.kpage fun i => bytes.getD i 0) =
    d.user_pages s.frames := PageMap.user_pages_unheld hfree.unheld
  rcases hcases with ⟨rfl, hm⟩ | ⟨rfl, hnone, d', hm, hmap, hholds⟩
  · exact ⟨_, .inl ⟨rfl, rfl⟩, d, hm, h.pages.trans hframes.symm, h.pool.tail, nofun, h.file⟩
  · refine ⟨_, .inr ⟨rfl, ?_, rfl⟩, d', hm, ?_, ⟨fun n page hn => ?_, h.pool.tail.inj⟩, nofun,
      h.file⟩
    · rw [h.pages, PageMap.user_pages, hnone, Option.map_none]
    · funext v
      show update t.pages (upage / PGSIZE) _ v = d'.user_pages _ v
      by_cases hv : v = upage / PGSIZE
      · rw [hv, update_self, PageMap.user_pages, hmap, update_self, map_some]
        show _ = some (UserPage.mk (update s.frames s.kpage _ s.kpage) writable)
        rw [update_self]
      · rw [update_of_ne hv, h.pages, ← hframes, PageMap.user_pages, PageMap.user_pages,
          hmap, update_of_ne hv]
    · -- the rest of the pool is neither the page that was installed nor the new page table
      obtain ⟨hkernel, hram, hne, hunheld⟩ := h.pool.free (n + 1) page hn
      refine ⟨hkernel, hram, hne, fun hold => ?_⟩
      rcases hholds page hold with hold | rfl | hzero
      · exact hunheld hold
      · exact hnext (n + 1) hn
      · exact nomatch h.pool.inj _ _ page hn hzero

end

/-- `inode_read_at` reads the inode at `p` as the bytes `file`. -/
def ReadsAs (I : FsApi K) (ok : Event → Prop) (F : K → Prop) (p : Addr)
    (file : List UInt8) : Prop :=
  ∀ k size offset, F k → (I (.inode_read_at p size offset)).Runs ok k fun _ r k' =>
    r = (file.drop offset).take size ∧ F k'

/-- The operations keep to the contract of `load_segment`. -/
theorem loading_api_runs {p : Addr} (hfile : ReadsAs I ok F p file) (hpd : pd ≠ 0)
    (hinit : pd ≠ init_page_dir) (o : SysOp) (t : Space) (s : Loading K) (ho : t.pre p o)
    (hs : ∃ d, s.Models init_page_dir ram_pages pd tables k F d t) :
    (loading_api I init_page_dir ram_pages pd o).Runs ok s fun _ r s' =>
      ∃ t', t.post file o r t' ∧ ∃ d, s'.Models init_page_dir ram_pages pd tables k F d t' := by
  obtain ⟨d, hs⟩ := hs
  cases o with
  | palloc_get_page =>
    exact (loading_palloc hs).mono fun _ r s' _ h => ⟨_, rfl, d, h⟩
  | install_page upage bytes writable =>
    obtain ⟨hobtained, halign, huser⟩ := ho
    exact loading_install hs hpd hinit hobtained halign huser bytes writable
  | fs o =>
    cases o with
    | inode_read_at q size offset =>
      obtain rfl : q = p := ho
      refine Machine.Runs.zoom ((hfile s.fs size offset hs.file).mono ?_)
      rintro es r k' - ⟨hr, hk'⟩
      exact ⟨t, ⟨hr, rfl⟩, d, { hs with file := hk' }⟩
    | _ => exact ho.elim
  | _ => exact ho.elim

/-- The page tables of the process are those of a map, and `palloc_get_page` returns free pages. -/
def Loading.Ready (init_page_dir ram_pages pd : Nat) (tables : Nat → Option Nat) (k : Words)
    (s : Loading K) : Prop :=
  ∃ d, Refines init_page_dir pd tables k d s.words ∧ d.Pool init_page_dir ram_pages pd s.pool

end Refinement

/-- **Segments.**  For a file and a program header that `validate_segment` accepts: the sizes are
computed without overflow and make whole pages; the pages lie between the first page and the kernel;
and `load_segment` fails or adds exactly these pages, with the bytes of the file and zeros after
them, writable if the header says so. -/
theorem segment_loaded_exact {K : Type} (I : FsApi K) (ok : Event → Prop)
    (F : K → Prop) (file : OpenFile) (bytes phdr : List UInt8) (hbytes : bytes.length < 2 ^ 31)
    (hfile : ReadsAs I ok F file.inode bytes)
    (hvalid : validate_segment phdr bytes.length = true) :
    Phdr.Sizes phdr ∧
    (1 ≤ p_vaddr phdr / PGSIZE ∧ PGSIZE * (p_vaddr phdr / PGSIZE + Phdr.pages phdr) =
        (p_vaddr phdr + Phdr.p_memsz phdr + (PGSIZE - 1)) / PGSIZE * PGSIZE ∧
      PGSIZE * (p_vaddr phdr / PGSIZE + Phdr.pages phdr) ≤ PHYS_BASE) ∧
    ∀ (init_page_dir ram_pages pd : Nat) (tables : Nat → Option Nat) (k : Words) (s : Loading K),
      pd ≠ 0 → pd ≠ init_page_dir → s.Ready init_page_dir ram_pages pd tables k → F s.fs →
      ((load_segment file (file_page phdr) (mem_page phdr) (read_bytes phdr)
          (zero_bytes phdr) (Phdr.writable phdr)).run
        (loading_api I init_page_dir ram_pages pd)).Runs ok s fun _ r s' =>
          r.1 = true → SegmentAdded bytes (Phdr.p_offset phdr / PGSIZE * PGSIZE)
            (p_vaddr phdr / PGSIZE) (Phdr.pages phdr) (read_bytes phdr)
            (Phdr.writable phdr) (s.user_page pd) (s'.user_page pd) := by
  have h := Phdr.valid_of_validate hvalid
  refine ⟨h.sizes, h.pages_user, fun init_page_dir ram_pages pd tables k s hpd hinit hs hF => ?_⟩
  obtain ⟨d, hwords, hpool⟩ := hs
  have hmodels : s.Models init_page_dir ram_pages pd tables k F d
      ⟨d.user_pages s.frames, false⟩ := ⟨hwords, rfl, hpool, nofun, hF⟩
  refine (Prog.Meets.runs (loading_api_runs hfile hpd hinit) (load_segment_meets hbytes h rfl)
    ⟨d, hmodels⟩).mono ?_
  rintro es r s' - ⟨t', hadded, d', hmodels'⟩ htrue
  rw [hwords.user_page hpd, hmodels'.words.user_page hpd, ← hmodels'.pages]
  exact hadded htrue

/-- On disk, a file that is laid out is read as its contents. -/
theorem readsAs_disk {p : Addr} {i : Inode InodeDisk} {bytes : List UInt8} :
    ReadsAs disk_api Event.InTable (fun k => k.mem p = some i ∧ CacheOk k.device ∧
      FilePlaced k.device i.data ∧ contents k.device i.data = bytes) p bytes := by
  rintro k size offset ⟨hp, hcache, hplaced, rfl⟩
  refine (inode_read_at_keeps hp hcache hplaced).mono ?_
  rintro es r k' - ⟨hr, hmem, hcache', hplaced', hcontents, -⟩
  exact ⟨hr, hmem ▸ hp, hcache', hplaced', hcontents⟩

/-- A program header for a writable segment of eight bytes at 0x8048000, three of them in the
file. -/
def byte_header : List UInt8 :=
  [1, 0, 0, 0, 0, 0, 0, 0, 0, 0x80, 4, 8] ++ List.replicate 4 0 ++ [3, 0, 0, 0, 8, 0, 0, 0, 6] ++
    List.replicate 7 0

/-- A process with an empty page directory, and a file of three bytes. -/
def byteLoading : Loading Fs where
  fs := byteFs 0
  words := newWords
  frames := fun _ _ => 0xcc
  pool := fun n => if n = 0 then some 0xc0180000 else if n = 1 then some 0xc0300000 else none
  kpage := 0

theorem byteLoading_ready :
    byteLoading.Ready (bootPages 0) 1024 0xc0200000 (kernelTables bootPages 1) bootWords := by
  have hpool : ∀ n page, byteLoading.pool n = some page →
      n = 0 ∧ page = 0xc0180000 ∨ n = 1 ∧ page = 0xc0300000 := by
    intro n page hn
    simp only [byteLoading] at hn
    split_ifs at hn with h₀ h₁
    · exact .inl ⟨h₀, (Option.some.inj hn).symm⟩
    · exact .inr ⟨h₁, (Option.some.inj hn).symm⟩
  refine ⟨_, Refines.create bootWords_kernelDir (by decide)
    (fun _ => kernelTables_bootPages (by decide)), fun n page hn => ?_, fun n n' page hn hn' => ?_⟩
  · rcases hpool n page hn with ⟨-, rfl⟩ | ⟨-, rfl⟩
    · exact ⟨⟨by decide, by decide, by decide⟩, by decide, by decide,
        not_holds_new (by decide) (by decide)⟩
    · exact ⟨⟨by decide, by decide, by decide⟩, by decide, by decide,
        not_holds_new (by decide) (by decide)⟩
  · rcases hpool n page hn with ⟨rfl, rfl⟩ | ⟨rfl, rfl⟩ <;>
      rcases hpool n' _ hn' with ⟨rfl, he⟩ | ⟨rfl, he⟩
    · rfl
    · nomatch he
    · nomatch he
    · rfl

/-- The segment is loaded: its page holds the bytes of the file, and zeros after them. -/
theorem segment_loaded_bytes : ∃ es file s',
    (load_segment (.file ⟨0, 0, false⟩) (file_page byte_header) (mem_page byte_header)
        (read_bytes byte_header) (zero_bytes byte_header)
        (Phdr.writable byte_header)).run (loading_api disk_api (bootPages 0) 1024 0xc0200000)
      byteLoading = (es, .done (true, file) s') ∧
    ∃ page, s'.user_page 0xc0200000 0x8048 = some page ∧ page.writable = true ∧
      page.bytes 0 = 1 ∧ page.bytes 2 = 3 ∧ page.bytes 3 = 0 := by
  have hrun : (returned ((load_segment (.file ⟨0, 0, false⟩) (file_page byte_header)
      (mem_page byte_header) (read_bytes byte_header) (zero_bytes byte_header)
      (Phdr.writable byte_header)).run (loading_api disk_api (bootPages 0) 1024 0xc0200000)
      byteLoading)).any (fun r => r.2.1.1 && r.1.all fun e => decide e.InTable) = true := by
    decide +kernel
  obtain ⟨⟨es, ⟨r, file⟩, s'⟩, hdone, hall⟩ := (Option.any_eq_true _ _).mp hrun
  obtain ⟨hr, hev⟩ := (Bool.and_eq_true _ _).mp hall
  obtain rfl : r = true := hr
  have hev' : ∀ e ∈ es, e.InTable := fun e he => of_decide_eq_true (List.all_eq_true.mp hev e he)
  obtain ⟨-, -, hload⟩ := segment_loaded_exact disk_api Event.InTable _ (.file ⟨0, 0, false⟩) [1, 2, 3]
    byte_header (by decide) readsAs_disk (by decide)
  have hadded := (hload (bootPages 0) 1024 0xc0200000 _ _ byteLoading (by decide) (by decide)
    byteLoading_ready ⟨rfl, cacheOk_byteFs 0, filePlaced_byteFs 0, by decide +kernel⟩).of_done
    (returned_eq_some hdone) hev' rfl
  obtain ⟨page, hpage, hw, hbytes⟩ := hadded.added 0 (by decide)
  have h₀ := (hbytes 0 (by decide)).1 (by decide)
  have h₂ := (hbytes 2 (by decide)).1 (by decide)
  exact ⟨es, file, s', returned_eq_some hdone, page, hpage, hw, (Option.some.inj h₀).symm,
    (Option.some.inj h₂).symm, (hbytes 3 (by decide)).2 (by decide)⟩

end Pintos
