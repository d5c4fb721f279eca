import Pintos.Threads.Pte

/-!
# Userprog — Page directories

`userprog/pagedir.c`, over the words of the pages that hold page directories and page tables.  What
`palloc_get_page` returns is an argument, `none` where it fails; what is given to `palloc_free_page`
is recorded, and the page is overwritten as that function does.  The functions are `none` where an
assertion fails.  The processor's copy of the tables, which `invalidate_pagedir` drops, is left out.

`PageMap` is what a page directory is for: a partial map from user pages to frames, each with its
flags.  `PageMap.after` gives each call its effect on it, `PageMap.Ready` its precondition.
-/

namespace Pintos
open Function

/-- The words of each page, by the address of the page. -/
abbrev Words : Type := Nat → Nat → Nat

namespace Words

/-- Word `i` of the page becomes `word`. -/
def set (m : Words) (page i word : Nat) : Words :=
  update m page (update (m page) i word)

/-- All words of the page become `word`. -/
def fill (m : Words) (page word : Nat) : Words := update m page fun _ => word

end Words

/-! ### The source -/

/-- `pagedir_create`. -/
def pagedir_create (init_page_dir : Nat) (alloc : Option Nat) (m : Words) : Option Nat × Words :=
  match alloc with
  | none => (none, m)
  | some pd => (some pd, update m pd (m init_page_dir))

/-- `lookup_page`: the page table and the index of the entry, or null. -/
def lookup_page (pd vaddr : Nat) (create : Bool) (alloc : Option Nat) (m : Words) :
    Option (Option (Nat × Nat) × Words) :=
  if pd = 0 ∨ create = true ∧ is_user_vaddr vaddr = false then none
  else if m pd (pd_no vaddr) = 0 then
    if create then
      match alloc with
      | none => some (none, m)
      | some pt => do
        let m := m.fill pt 0
        let pde ← pde_create pt
        let m := m.set pd (pd_no vaddr) pde
        let pt ← pde_get_pt (m pd (pd_no vaddr))
        some (some (pt, pt_no vaddr), m)
    else some (none, m)
  else do
    let pt ← pde_get_pt (m pd (pd_no vaddr))
    some (some (pt, pt_no vaddr), m)

/-- `pagedir_set_page`. -/
def pagedir_set_page (init_page_dir ram_pages pd upage kpage : Nat) (writable : Bool)
    (alloc : Option Nat) (m : Words) : Option (Bool × Words) :=
  if pg_ofs upage = 0 ∧ pg_ofs kpage = 0 ∧ is_user_vaddr upage = true ∧
      (vtop kpage).any (fun paddr => paddr >>> PTSHIFT < ram_pages) = true ∧ pd ≠ init_page_dir then do
    let r ← lookup_page pd upage true alloc m
    let m := r.2
    match r.1 with
    | some (pt, i) =>
      if m pt i &&& PTE_P = 0 then do
        let pte ← pte_create_user kpage writable
        some (true, m.set pt i pte)
      else none
    | none => some (false, m)
  else none

/-- `pagedir_get_page`. -/
def pagedir_get_page (pd uaddr : Nat) (m : Words) : Option (Option Nat) :=
  if is_user_vaddr uaddr then do
    let r ← lookup_page pd uaddr false none m
    match r.1 with
    | some (pt, i) =>
      if m pt i &&& PTE_P ≠ 0 then do
        let page ← pte_get_page (m pt i)
        some (some (page + pg_ofs uaddr))
      else some none
    | none => some none
  else none

/-- `pagedir_clear_page`. -/
def pagedir_clear_page (pd upage : Nat) (m : Words) : Option Words :=
  if pg_ofs upage = 0 ∧ is_user_vaddr upage = true then do
    let r ← lookup_page pd upage false none m
    match r.1 with
    | some (pt, i) =>
      if m pt i &&& PTE_P ≠ 0 then some (m.set pt i (m pt i &&& complement PTE_P)) else some m
    | none => some m
  else none

/-- A flag of the entry for `vpage` is read. -/
def is_flag (flag pd vpage : Nat) (m : Words) : Option Bool := do
  let r ← lookup_page pd vpage false none m
  match r.1 with
  | some (pt, i) => some (decide (m pt i &&& flag ≠ 0))
  | none => some false

/-- A flag of the entry for `vpage` is set or cleared. -/
def set_flag (flag pd vpage : Nat) (value : Bool) (m : Words) : Option Words := do
  let r ← lookup_page pd vpage false none m
  match r.1 with
  | some (pt, i) =>
    some (m.set pt i (if value then m pt i ||| flag else m pt i &&& complement flag))
  | none => some m

/-- `pagedir_is_dirty`. -/
def pagedir_is_dirty : Nat → Nat → Words → Option Bool := is_flag PTE_D

/-- `pagedir_set_dirty`. -/
def pagedir_set_dirty : Nat → Nat → Bool → Words → Option Words := set_flag PTE_D

/-- `pagedir_is_accessed`. -/
def pagedir_is_accessed : Nat → Nat → Words → Option Bool := is_flag PTE_A

/-- `pagedir_set_accessed`. -/
def pagedir_set_accessed : Nat → Nat → Bool → Words → Option Words := set_flag PTE_A

/-- The pages given to `palloc_free_page`, in turn, and the words. -/
structure Freeing where
  freed : List Nat
  words : Words

/-- `palloc_free_page`, which fills the page with 0xcc. -/
def Freeing.palloc_free_page (s : Freeing) (page : Nat) : Freeing :=
  ⟨s.freed ++ [page], s.words.fill page 0xcccccccc⟩

/-- The inner loop of `pagedir_destroy`, over the entries `is` of the table `pt`. -/
def destroy_entries (pt : Nat) : List Nat → Freeing → Option Freeing
  | [], s => some s
  | i :: is, s =>
    if s.words pt i &&& PTE_P ≠ 0 then do
      let page ← pte_get_page (s.words pt i)
      destroy_entries pt is (s.palloc_free_page page)
    else destroy_entries pt is s

/-- The outer loop, over the entries `is` of the directory. -/
def destroy_tables (pd : Nat) : List Nat → Freeing → Option Freeing
  | [], s => some s
  | i :: is, s =>
    if s.words pd i &&& PTE_P ≠ 0 then do
      let pt ← pde_get_pt (s.words pd i)
      let s ← destroy_entries pt (List.range (PGSIZE / 4)) s
      destroy_tables pd is (s.palloc_free_page pt)
    else destroy_tables pd is s

/-- `pagedir_destroy`. -/
def pagedir_destroy (init_page_dir pd : Nat) (m : Words) : Option Freeing :=
  if pd = 0 then some ⟨[], m⟩
  else if pd = init_page_dir then none
  else do
    let s ← destroy_tables pd (List.range (pd_no PHYS_BASE)) ⟨[], m⟩
    some (s.palloc_free_page pd)

/-! ### Calls -/

/-- The calls that change a page directory; `pagedir_set_page` comes with what `palloc_get_page`
would return. -/
inductive DirCall where
  | set_page (upage kpage : Nat) (writable : Bool) (alloc : Option Nat)
  | clear_page (upage : Nat)
  | set_dirty (vpage : Nat) (dirty : Bool)
  | set_accessed (vpage : Nat) (accessed : Bool)

/-- Make a call: whether `pagedir_set_page` was successful, and the words. -/
def DirCall.perform (init_page_dir ram_pages pd : Nat) (m : Words) :
    DirCall → Option (Bool × Words)
  | .set_page upage kpage writable alloc =>
    pagedir_set_page init_page_dir ram_pages pd upage kpage writable alloc m
  | .clear_page upage => (pagedir_clear_page pd upage m).map (true, ·)
  | .set_dirty vpage dirty => (pagedir_set_dirty pd vpage dirty m).map (true, ·)
  | .set_accessed vpage accessed => (pagedir_set_accessed pd vpage accessed m).map (true, ·)

/-- Calls in turn. -/
def dir_calls (init_page_dir ram_pages pd : Nat) :
    List DirCall → Words → Option (List Bool × Words)
  | [], m => some ([], m)
  | c :: cs, m => do
    let r ← c.perform init_page_dir ram_pages pd m
    let rs ← dir_calls init_page_dir ram_pages pd cs r.2
    some (r.1 :: rs.1, rs.2)

/-! ### The partial map -/

/-- The flags that the kernel sets and reads. -/
inductive Flag where
  | accessed
  | dirty
  deriving DecidableEq

/-- The bit of an entry that is the flag. -/
def Flag.bit : Flag → Nat
  | .accessed => 5
  | .dirty => 6

/-- What a user page is mapped to. -/
structure Mapping where
  frame : Nat
  writable : Bool
  flags : Flag → Bool

/-- A page directory as a partial map.  `map` and `asked` go by page number: what a user page is
mapped to, and the flags last set for a kernel page.  `tables` goes by directory index. -/
structure PageMap where
  map : Nat → Option Mapping
  tables : Nat → Option Nat
  asked : Nat → Flag → Option Bool

namespace PageMap

/-- A new directory: the kernel's page tables and nothing else. -/
def new (tables : Nat → Option Nat) : PageMap := ⟨fun _ => none, tables, fun _ _ => none⟩

/-- The page of `va` becomes mapped to `mapping`. -/
def setMap (d : PageMap) (va : Nat) (mapping : Option Mapping) : PageMap :=
  { d with map := update d.map (va / PGSIZE) mapping }

/-- The directory entry for `va` becomes the page table `pt`. -/
def setTable (d : PageMap) (va pt : Nat) : PageMap :=
  { d with tables := update d.tables (pd_no va) (some pt) }

/-- The flag is asked for, of the kernel page of `va`. -/
def setAsked (d : PageMap) (f : Flag) (va : Nat) (value : Bool) : PageMap :=
  let flags := update (d.asked (va / PGSIZE)) f (some value)
  { d with asked := update d.asked (va / PGSIZE) flags }

/-- A flag of the page of `va` is set: in the map, if that is a user page and mapped. -/
def setFlag (d : PageMap) (f : Flag) (va : Nat) (value : Bool) : PageMap :=
  if is_user_vaddr va then
    d.setMap va ((d.map (va / PGSIZE)).map fun mp =>
      { mp with flags := update mp.flags f value })
  else d.setAsked f va value

variable {d : PageMap} {va pt : Nat} {mapping : Option Mapping}

@[simp] theorem setMap_tables : (d.setMap va mapping).tables = d.tables := rfl

@[simp] theorem setMap_self : (d.setMap va mapping).map (va / PGSIZE) = mapping :=
  update_self _ _ _

theorem setMap_of_ne {v : Nat} (h : v ≠ va / PGSIZE) : (d.setMap va mapping).map v = d.map v :=
  update_of_ne h _ _

@[simp] theorem setTable_self : (d.setTable va pt).tables (pd_no va) = some pt :=
  update_self _ _ _

theorem setTable_of_ne {i : Nat} (h : i ≠ pd_no va) : (d.setTable va pt).tables i = d.tables i :=
  update_of_ne h _ _

variable {f : Flag} {value : Bool}

theorem setFlag_user (h : va < PHYS_BASE) : d.setFlag f va value =
    d.setMap va ((d.map (va / PGSIZE)).map fun mp =>
      { mp with flags := update mp.flags f value }) :=
  if_pos (decide_eq_true h)

@[simp] theorem setAsked_self : (d.setAsked f va value).asked (va / PGSIZE) =
    update (d.asked (va / PGSIZE)) f (some value) :=
  update_self _ _ _

theorem setAsked_of_ne {v : Nat} (h : v ≠ va / PGSIZE) :
    (d.setAsked f va value).asked v = d.asked v :=
  update_of_ne h _ _

theorem setFlag_kernel (h : PHYS_BASE ≤ va) : d.setFlag f va value = d.setAsked f va value :=
  if_neg (by simpa [is_user_vaddr] using h)

/-- What a call makes of the map. -/
def after (d : PageMap) : DirCall → PageMap
  | .set_page upage kpage writable alloc =>
    match d.tables (pd_no upage), alloc with
    | some _, _ => d.setMap upage (some ⟨kpage, writable, fun _ => false⟩)
    | none, some pt =>
      (d.setTable upage pt).setMap upage (some ⟨kpage, writable, fun _ => false⟩)
    | none, none => d
  | .clear_page upage => d.setMap upage none
  | .set_dirty vpage value => d.setFlag .dirty vpage value
  | .set_accessed vpage value => d.setFlag .accessed vpage value

/-- What it returns. -/
def returns (d : PageMap) : DirCall → Bool
  | .set_page upage _ _ alloc => (d.tables (pd_no upage)).isSome || alloc.isSome
  | _ => true

/-- The map after calls in turn. -/
def afterAll (d : PageMap) : List DirCall → PageMap
  | [] => d
  | c :: cs => (d.after c).afterAll cs

/-- What they return. -/
def returnsAll (d : PageMap) : List DirCall → List Bool
  | [] => []
  | c :: cs => d.returns c :: (d.after c).returnsAll cs

/-- Each of the calls satisfies `P` when it is made. -/
def Along (P : PageMap → DirCall → Prop) (d : PageMap) : List DirCall → Prop
  | [] => True
  | c :: cs => P d c ∧ (d.after c).Along P cs

/-- What the assertions ask of a call, and what `palloc_get_page` promises: a page that is neither
a directory nor one of the tables. -/
def Ready (init_page_dir ram_pages pd : Nat) (d : PageMap) : DirCall → Prop
  | .set_page upage kpage _ alloc =>
    pg_ofs upage = 0 ∧ upage < PHYS_BASE ∧ d.map (upage / PGSIZE) = none ∧ KernelPage kpage ∧
      (kpage - PHYS_BASE) / PGSIZE < ram_pages ∧
      ∀ pt, alloc = some pt → KernelPage pt ∧ pt ≠ pd ∧ pt ≠ init_page_dir ∧
        ∀ i, d.tables i ≠ some pt
  | .clear_page upage => pg_ofs upage = 0 ∧ upage < PHYS_BASE
  | .set_dirty vpage _ | .set_accessed vpage _ => vpage < 2 ^ 32

/-- The directory, a page table of it or a page that it maps. -/
def Holds (pd : Nat) (d : PageMap) (page : Nat) : Prop :=
  page = pd ∨ (∃ i, d.tables i = some page) ∨ ∃ v mp, d.map v = some mp ∧ mp.frame = page

/-- `pagedir_set_page` is given a page that `palloc_get_page` has returned: it is not in use here,
nor returned again. -/
def Granted (pd : Nat) (d : PageMap) : DirCall → Prop
  | .set_page _ kpage _ alloc =>
    ¬ d.Holds pd kpage ∧ ∀ pt, alloc = some pt → pt ≠ kpage ∧ ¬ d.Holds pd pt
  | _ => True

end PageMap

/-! ### The kernel's directory -/

/-- The kernel's page directory, with page tables `tables`: the user part is empty. -/
structure KernelDir (init_page_dir : Nat) (tables : Nat → Option Nat) (m : Words) : Prop where
  user : ∀ i < pd_no PHYS_BASE, m init_page_dir i = 0 ∧ tables i = none
  empty : ∀ i < 1024, tables i = none → m init_page_dir i = 0
  table : ∀ i pt, tables i = some pt → i < 1024 ∧ pt ≠ init_page_dir ∧ m init_page_dir i ≠ 0 ∧
    pde_get_pt (m init_page_dir i) = some pt
  inj : ∀ i j pt, tables i = some pt → tables j = some pt → i = j

end Pintos
