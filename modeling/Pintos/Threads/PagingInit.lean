import Pintos.Userprog.Pagedir

/-!
# Threads — The kernel's page directory

`paging_init` of `threads/init.c`, which maps physical memory from `PHYS_BASE` on.  Every page
directory of a process starts as a copy of the one it makes, and `paging_init_kernelDir` is what
`pagedir_create` may rely on.
-/

namespace Pintos
open Function List Option

/-- The words, the page table at hand and how many pages `palloc_get_page` has returned. -/
structure Paging where
  words : Words
  pt : Nat
  allocated : Nat

/-- The loop body of `paging_init`.  `alloc n` is the page that the call `n` of `palloc_get_page`
returns; these calls do not fail, because of `PAL_ASSERT`. -/
def paging_page (alloc : Nat → Nat) (_start _end_kernel_text pd : Nat) (s : Paging) (page : Nat) :
    Option Paging := do
  let vaddr ← ptov (page * PGSIZE)
  let in_kernel_text := decide (_start ≤ vaddr ∧ vaddr < _end_kernel_text)
  let s ←
    if s.words pd (pd_no vaddr) = 0 then do
      let pt := alloc s.allocated
      let pde ← pde_create pt
      some (⟨(s.words.fill pt 0).set pd (pd_no vaddr) pde, pt, s.allocated + 1⟩ : Paging)
    else some s
  let pte ← pte_create_kernel vaddr (!in_kernel_text)
  some { s with words := s.words.set s.pt (pt_no vaddr) pte }

/-- `paging_init`, up to the change of the page directory base register. -/
def paging_init (init_ram_pages : Nat) (alloc : Nat → Nat) (_start _end_kernel_text : Nat)
    (m : Words) : Option Paging :=
  (List.range init_ram_pages).foldlM (paging_page alloc _start _end_kernel_text (alloc 0))
    ⟨m.fill (alloc 0) 0, 0, 1⟩

/-- The page tables once `n` of them have been allocated. -/
def kernelTables (alloc : Nat → Nat) (n i : Nat) : Option Nat :=
  if pd_no PHYS_BASE ≤ i ∧ i < pd_no PHYS_BASE + n then some (alloc (i - pd_no PHYS_BASE + 1))
  else none

variable {alloc : Nat → Nat} {s : Paging} {p : Nat}

/-- `palloc_get_page` returns pages, no two of them the same. -/
structure Supplies (alloc : Nat → Nat) : Prop where
  page : ∀ n ≤ 256, KernelPage (alloc n)
  inj : ∀ a ≤ 256, ∀ b ≤ 256, alloc a = alloc b → a = b

/-- The loop of `paging_init`, when it has come to the page `p`. -/
structure Paging.At (alloc : Nat → Nat) (p : Nat) (s : Paging) : Prop where
  dir : KernelDir (alloc 0) (kernelTables alloc ((p + 1023) / 1024)) s.words
  allocated : s.allocated = (p + 1023) / 1024 + 1
  pt : 0 < p → s.pt = alloc ((p + 1023) / 1024)

/-- Only the words of the directory itself matter. -/
theorem KernelDir.congr {pd : Nat} {tables : Nat → Option Nat} {m m' : Words}
    (h : KernelDir pd tables m) (he : m' pd = m pd) : KernelDir pd tables m' where
  user := he ▸ h.user
  empty := he ▸ h.empty
  table := he ▸ h.table
  inj := h.inj

theorem kernelTables_eq (n i : Nat) : kernelTables alloc n i =
    if 768 ≤ i ∧ i < 768 + n then some (alloc (i - 768 + 1)) else none := rfl

/-- A page table is added. -/
theorem KernelDir.grow (ha : Supplies alloc) {n e : Nat} {m : Words} (hn : n < 256)
    (h : KernelDir (alloc 0) (kernelTables alloc n) m) (he : e ≠ 0)
    (hget : pde_get_pt e = some (alloc (n + 1))) :
    KernelDir (alloc 0) (kernelTables alloc (n + 1))
      ((m.fill (alloc (n + 1)) 0).set (alloc 0) (768 + n) e) := by
  have hne : alloc 0 ≠ alloc (n + 1) := fun he => by
    have := ha.inj 0 (by omega) (n + 1) (by omega) he
    omega
  have hold : ∀ i, i ≠ 768 + n →
      (m.fill (alloc (n + 1)) 0).set (alloc 0) (768 + n) e (alloc 0) i = m (alloc 0) i := by
    intro i hi
    rw [Words.set, update_self, update_of_ne hi, Words.fill, update_of_ne hne]
  have htables : ∀ i, i ≠ 768 + n → kernelTables alloc (n + 1) i = kernelTables alloc n i := by
    intro i hi
    rw [kernelTables_eq, kernelTables_eq]
    exact if_congr (by omega) rfl rfl
  have hnew : kernelTables alloc (n + 1) (768 + n) = some (alloc (n + 1)) := by
    rw [kernelTables_eq, if_pos (by omega), Nat.add_sub_cancel_left]
  refine ⟨fun i hi => ?_, fun i hi ht => ?_, fun i pt ht => ?_, fun i j pt ht ht' => ?_⟩
  · have hi' : i < 768 := hi
    rw [hold i (by omega), htables i (by omega)]
    exact h.user i hi
  · by_cases hin : i = 768 + n
    · rw [hin, hnew] at ht
      nomatch ht
    · rw [hold i hin]
      exact h.empty i hi (htables i hin ▸ ht)
  · by_cases hin : i = 768 + n
    · subst hin
      rw [hnew, Option.some.injEq] at ht
      subst ht
      rw [Words.set, update_self, update_self]
      exact ⟨by omega, hne.symm, he, hget⟩
    · rw [hold i hin]
      exact h.table i pt (htables i hin ▸ ht)
  · rw [kernelTables_eq] at ht ht'
    split at ht <;> split at ht' <;> simp only [Option.some.injEq, reduceCtorEq] at ht ht'
    have := ha.inj _ (by omega) _ (by omega) (ht.trans ht'.symm)
    omega

/-- One page. -/
theorem Paging.At.step (ha : Supplies alloc) (h : s.At alloc p) (hp : p < 2 ^ 18)
    (_start _end_kernel_text : Nat) :
    ∃ s', paging_page alloc _start _end_kernel_text (alloc 0) s p = some s' ∧
      s'.At alloc (p + 1) := by
  have hva : ptov (p * PGSIZE) = some (p * PGSIZE + PHYS_BASE) := ptov_eq (by
    simp only [PGSIZE]
    omega)
  have hno : pd_no (p * PGSIZE + PHYS_BASE) = 768 + p / 1024 := by
    rw [pd_no_eq]
    simp only [PGSIZE, PHYS_BASE]
    omega
  have hpage : KernelPage (p * PGSIZE + PHYS_BASE) := by
    refine ⟨?_, by omega, ?_⟩
    · rw [pg_ofs_eq]
      simp only [PGSIZE, PHYS_BASE]
      omega
    · simp only [PGSIZE]
      omega
  have hpte : ∀ writable, ∃ e, pte_create_kernel (p * PGSIZE + PHYS_BASE) writable = some e :=
    fun writable => ⟨_, by rw [pte_create_kernel, if_pos hpage.aligned, hpage.vtop_eq]; rfl⟩
  obtain ⟨e, he⟩ := hpte (!decide (_start ≤ p * PGSIZE + PHYS_BASE ∧
    p * PGSIZE + PHYS_BASE < _end_kernel_text))
  rw [paging_page, hva]
  simp only [bind_eq_bind, bind_some, hno, he]
  rcases Nat.eq_zero_or_pos (p % 1024) with hz | hpos
  · -- the first page of a table
    have hn : (p + 1023) / 1024 = p / 1024 := by omega
    have hn' : (p + 1 + 1023) / 1024 = p / 1024 + 1 := by omega
    have hdir := hn ▸ h.dir
    have hempty := hdir.empty (768 + p / 1024) (by omega) (by rw [kernelTables_eq, if_neg (by omega)])
    obtain ⟨pde, hpde, hpde₀, -, hget⟩ := pde_create_eq (ha.page (p / 1024 + 1) (by omega))
    rw [if_pos hempty, h.allocated, hn, hpde]
    refine ⟨_, rfl, ?_, ?_, fun _ => ?_⟩
    · rw [hn']
      refine (hdir.grow ha (by omega) hpde₀ hget).congr (update_of_ne (fun h0 => ?_) _ _)
      have := ha.inj 0 (by omega) _ (by omega) h0
      omega
    · rw [hn']
    · rw [hn']
  · have hn : (p + 1023) / 1024 = p / 1024 + 1 := by omega
    have hn' : (p + 1 + 1023) / 1024 = p / 1024 + 1 := by omega
    have hdir := hn ▸ h.dir
    have htable := hdir.table (768 + p / 1024) _ (by rw [kernelTables_eq, if_pos (by omega)])
    rw [if_neg htable.2.2.1]
    refine ⟨_, rfl, ?_, ?_, fun _ => ?_⟩
    · rw [hn']
      refine hdir.congr (update_of_ne (fun h0 => ?_) _ _)
      rw [h.pt (by omega), hn] at h0
      have := ha.inj 0 (by omega) _ (by omega) h0
      omega
    · rw [hn', ← hn]
      exact h.allocated
    · rw [hn', ← hn]
      exact h.pt (by omega)

/-- What `paging_init` leaves, for up to 1 GB of memory. -/
theorem paging_init_kernelDir (ha : Supplies alloc) {init_ram_pages : Nat}
    (hram : init_ram_pages ≤ 2 ^ 18) (_start _end_kernel_text : Nat) (m : Words) :
    ∃ s, paging_init init_ram_pages alloc _start _end_kernel_text m = some s ∧
      KernelDir (alloc 0) (kernelTables alloc ((init_ram_pages + 1023) / 1024)) s.words := by
  have hloop : ∀ p ≤ init_ram_pages, ∃ s, (List.range p).foldlM
      (paging_page alloc _start _end_kernel_text (alloc 0)) ⟨m.fill (alloc 0) 0, 0, 1⟩ = some s ∧
        s.At alloc p := by
    intro p hp
    induction p with
    | zero =>
      have hzero : ∀ i, m.fill (alloc 0) 0 (alloc 0) i = 0 := fun i => by
        rw [Words.fill, update_self]
      have hnone : ∀ i, kernelTables alloc ((0 + 1023) / 1024) i = none := fun i => by
        rw [kernelTables_eq, if_neg (by omega)]
      refine ⟨_, rfl, ⟨fun i _ => ⟨hzero i, hnone i⟩, fun i _ _ => hzero i, fun i pt ht => ?_,
        fun i j pt ht => ?_⟩, rfl, fun h => absurd h (lt_irrefl 0)⟩
      · exact absurd ((hnone i).symm.trans ht) nofun
      · exact absurd ((hnone i).symm.trans ht) nofun
    | succ p ih =>
      obtain ⟨s, hs, hat⟩ := ih (by omega)
      obtain ⟨s', hs', hat'⟩ := hat.step ha (by omega) _start _end_kernel_text
      refine ⟨s', ?_, hat'⟩
      rw [range_succ, foldlM_append, hs]
      simp only [bind_eq_bind, bind_some, foldlM_cons, hs', foldlM_nil]
      rfl
  obtain ⟨s, hs, hat⟩ := hloop init_ram_pages le_rfl
  exact ⟨s, hs, hat.dir⟩

end Pintos
