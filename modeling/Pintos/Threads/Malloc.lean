import Pintos.Threads.Vaddr

/-!
# Threads — Memory blocks

`threads/malloc.c`.  A small block is one of the equal blocks of an arena, a page with a header; a
large block has pages of its own.  The state is the headers by page, the free lists, the bytes, and
the pages that the page allocator has handed out.  A store into bytes that belong to a header
destroys that header.  The functions are `none` where an assertion fails, and where pages are given
back that were not handed out.

The descriptors are told apart by their block size.  What the page allocator would return, for each
number of pages, is an argument of the functions that may call it.
-/

namespace Pintos
open Function

/-- `struct desc`, without the free list. -/
structure Desc where
  block_size : Nat
  blocks_per_arena : Nat
  deriving DecidableEq

/-- `struct arena`. -/
structure Arena where
  magic : Nat
  desc : Option Desc
  free_cnt : Nat

/-- `ARENA_MAGIC`. -/
abbrev ARENA_MAGIC : Nat := 0x9a548eed

/-- `sizeof (struct arena)`. -/
abbrev ARENA_SIZE : Nat := 12

/-- The loop of `malloc_init`, with room for so many descriptors. -/
def malloc_init_loop : (room block_size : Nat) → Option (List Desc)
  | 0, block_size => if block_size < PGSIZE / 2 then none else some []
  | room + 1, block_size =>
    if block_size < PGSIZE / 2 then
      (malloc_init_loop room (block_size * 2)).map
        (⟨block_size, (PGSIZE - ARENA_SIZE) / block_size⟩ :: ·)
    else some []

/-- `malloc_init`. -/
def malloc_init : Option (List Desc) := malloc_init_loop 10 16

/-- `descs`. -/
def descs : List Desc := malloc_init.getD []

structure Heap where
  header : Nat → Arena
  free_list : Desc → List Nat
  memory : Nat → UInt8
  /-- How many pages have been handed out from an address on. -/
  pages : Nat → Option Nat

namespace Heap

def setHeader (s : Heap) (a : Nat) (h : Arena) : Heap :=
  { s with header := update s.header a h }

def setFree (s : Heap) (d : Desc) (l : List Nat) : Heap :=
  { s with free_list := update s.free_list d l }

def setPages (s : Heap) (a : Nat) (cnt : Option Nat) : Heap :=
  { s with pages := update s.pages a cnt }

/-- Store `size` bytes. -/
def store (s : Heap) (start size : Nat) (value : Nat → UInt8) : Heap :=
  { s with
    memory := fun a => if start ≤ a ∧ a < start + size then value (a - start) else s.memory a
    header := fun p =>
      if 0 < size ∧ p < start + size ∧ start < p + ARENA_SIZE then ⟨0, none, 0⟩ else s.header p }

/-- `memset`. -/
def memset (s : Heap) (dst : Nat) (value : UInt8) (size : Nat) : Heap :=
  s.store dst size fun _ => value

/-- `memcpy`. -/
def memcpy (s : Heap) (dst src size : Nat) : Heap := s.store dst size fun i => s.memory (src + i)

section Fields

variable {s : Heap} {a b start size : Nat} {h : Arena} {d e : Desc} {l : List Nat}
  {cnt : Option Nat} {value : Nat → UInt8}

@[simp] theorem setHeader_self : (s.setHeader a h).header a = h := update_self ..

theorem setHeader_of_ne (hne : b ≠ a) : (s.setHeader a h).header b = s.header b :=
  update_of_ne hne ..

@[simp] theorem setHeader_free_list : (s.setHeader a h).free_list = s.free_list := rfl

@[simp] theorem setHeader_pages : (s.setHeader a h).pages = s.pages := rfl

@[simp] theorem setFree_self : (s.setFree d l).free_list d = l := update_self ..

theorem setFree_of_ne (hne : e ≠ d) : (s.setFree d l).free_list e = s.free_list e :=
  update_of_ne hne ..

@[simp] theorem setFree_header : (s.setFree d l).header = s.header := rfl

@[simp] theorem setFree_pages : (s.setFree d l).pages = s.pages := rfl

@[simp] theorem setPages_self : (s.setPages a cnt).pages a = cnt := update_self ..

theorem setPages_of_ne (hne : b ≠ a) : (s.setPages a cnt).pages b = s.pages b :=
  update_of_ne hne ..

@[simp] theorem setPages_header : (s.setPages a cnt).header = s.header := rfl

@[simp] theorem setPages_free_list : (s.setPages a cnt).free_list = s.free_list := rfl

end Fields

/-- `palloc_get_multiple`: the pages, or null. -/
def palloc_get_multiple (alloc : Nat → Option Nat) (page_cnt : Nat) (s : Heap) :
    Option Nat × Heap :=
  match alloc page_cnt with
  | none => (none, s)
  | some a => (some a, s.setPages a (some page_cnt))

/-- `palloc_free_multiple`, which fills the pages with 0xcc. -/
def palloc_free_multiple (a page_cnt : Nat) (s : Heap) : Option Heap :=
  if s.pages a = some page_cnt then
    some ((s.setPages a none).memset a 0xcc (page_cnt * PGSIZE))
  else none

/-- `block_to_arena`. -/
def block_to_arena (s : Heap) (b : Nat) : Option Nat :=
  let a := pg_round_down b
  if a ≠ 0 ∧ (s.header a).magic = ARENA_MAGIC then
    match (s.header a).desc with
    | none => if pg_ofs b = ARENA_SIZE then some a else none
    | some d =>
      if (pg_ofs b + 2 ^ 32 - ARENA_SIZE) % 2 ^ 32 % d.block_size = 0 then some a else none
  else none

/-- `arena_to_block`. -/
def arena_to_block (s : Heap) (a idx : Nat) : Option Nat :=
  if a ≠ 0 ∧ (s.header a).magic = ARENA_MAGIC then
    match (s.header a).desc with
    | none => none
    | some d =>
      if idx < d.blocks_per_arena then some (a + ARENA_SIZE + idx * d.block_size) else none
  else none

/-- The loop of `malloc` over the blocks of a new arena. -/
def push_blocks (d : Desc) (a : Nat) : List Nat → Heap → Option Heap
  | [], s => some s
  | i :: is, s => do
    let b ← s.arena_to_block a i
    push_blocks d a is (s.setFree d (s.free_list d ++ [b]))

/-- The end of `malloc`: a block is taken from the free list. -/
def pop_block (d : Desc) (s : Heap) : Option (Nat × Heap) :=
  match s.free_list d with
  | [] => none
  | b :: l => do
    let s := s.setFree d l
    let a ← s.block_to_arena b
    let h := s.header a
    some (b, s.setHeader a { h with free_cnt := (h.free_cnt + 2 ^ 32 - 1) % 2 ^ 32 })

/-- `malloc`. -/
def malloc (alloc : Nat → Option Nat) (size : Nat) (s : Heap) : Option (Nat × Heap) :=
  if size = 0 then some (0, s)
  else
    match descs.find? fun d => d.block_size ≥ size with
    | none =>
      let page_cnt := (size + ARENA_SIZE + PGSIZE - 1) % 2 ^ 32 / PGSIZE
      match palloc_get_multiple alloc page_cnt s with
      | (none, s) => some (0, s)
      | (some a, s) => some (a + ARENA_SIZE, s.setHeader a ⟨ARENA_MAGIC, none, page_cnt⟩)
    | some d =>
      if s.free_list d = [] then
        match palloc_get_multiple alloc 1 s with
        | (none, s) => some (0, s)
        | (some a, s) => do
          let s := s.setHeader a ⟨ARENA_MAGIC, some d, d.blocks_per_arena⟩
          let s ← push_blocks d a (List.range d.blocks_per_arena) s
          pop_block d s
      else pop_block d s

/-- `calloc`. -/
def calloc (alloc : Nat → Option Nat) (a b : Nat) (s : Heap) : Option (Nat × Heap) :=
  let size := a * b % 2 ^ 32
  if size < a ∨ size < b then some (0, s)
  else do
    let r ← malloc alloc size s
    if r.1 ≠ 0 then some (r.1, r.2.memset r.1 0 size) else some r

/-- `block_size`. -/
def block_size (s : Heap) (block : Nat) : Option Nat := do
  let a ← s.block_to_arena block
  match (s.header a).desc with
  | some d => some d.block_size
  | none => some ((PGSIZE * (s.header a).free_cnt + 2 ^ 32 - pg_ofs block) % 2 ^ 32)

/-- The loop of `free` over the blocks of an unused arena. -/
def remove_blocks (d : Desc) (a : Nat) : List Nat → Heap → Option Heap
  | [], s => some s
  | i :: is, s => do
    let b ← s.arena_to_block a i
    if b ∈ s.free_list d then remove_blocks d a is (s.setFree d ((s.free_list d).erase b))
    else none

/-- `free` of a normal block `p` of the arena `a`. -/
def free_small (d : Desc) (a p : Nat) (s : Heap) : Option Heap :=
  let s := s.memset p 0xcc d.block_size
  let s := s.setFree d (p :: s.free_list d)
  let free_cnt := ((s.header a).free_cnt + 1) % 2 ^ 32
  let s := s.setHeader a { s.header a with free_cnt }
  if free_cnt ≥ d.blocks_per_arena then
    if free_cnt = d.blocks_per_arena then do
      let s ← remove_blocks d a (List.range d.blocks_per_arena) s
      palloc_free_multiple a 1 s
    else none
  else some s

/-- `free`. -/
def free (p : Nat) (s : Heap) : Option Heap :=
  if p = 0 then some s
  else do
    let a ← s.block_to_arena p
    match (s.header a).desc with
    | some d => free_small d a p s
    | none => palloc_free_multiple a (s.header a).free_cnt s

/-- `realloc`. -/
def realloc (alloc : Nat → Option Nat) (old_block new_size : Nat) (s : Heap) :
    Option (Nat × Heap) :=
  if new_size = 0 then (free old_block s).map (0, ·)
  else do
    let r ← malloc alloc new_size s
    if old_block ≠ 0 ∧ r.1 ≠ 0 then do
      let old_size ← r.2.block_size old_block
      let min_size := if new_size < old_size then new_size else old_size
      let s ← free old_block (r.2.memcpy r.1 old_block min_size)
      some (r.1, s)
    else some r

end Heap

/-! ### Calls -/

/-- The calls, and a store of the program into a block. -/
inductive HeapCall where
  | malloc (size : Nat) (alloc : Nat → Option Nat)
  | calloc (a b : Nat) (alloc : Nat → Option Nat)
  | realloc (old_block new_size : Nat) (alloc : Nat → Option Nat)
  | free (p : Nat)
  | store (start size : Nat) (value : Nat → UInt8)

/-- Make the call: what it returns, null for `free` and a store. -/
def HeapCall.perform (s : Heap) : HeapCall → Option (Nat × Heap)
  | .malloc size alloc => s.malloc alloc size
  | .calloc a b alloc => s.calloc alloc a b
  | .realloc old_block new_size alloc => s.realloc alloc old_block new_size
  | .free p => (s.free p).map (0, ·)
  | .store start size value => some (0, s.store start size value)

/-- The live blocks: the size that was asked for, by address. -/
abbrev Live : Type := Nat → Option Nat

/-- The block that a call has returned, null if it has failed, becomes live. -/
def Live.add (live : Live) (p size : Nat) : Live :=
  if p = 0 then live else update live p (some size)

def Live.remove (live : Live) (p : Nat) : Live := update live p none

/-- The live blocks after a call that has returned `p`. -/
def Live.after (live : Live) (p : Nat) : HeapCall → Live
  | .malloc size _ => live.add p size
  | .calloc a b _ => live.add p (a * b)
  | .realloc old_block new_size _ =>
    if new_size = 0 then live.remove old_block
    else if p = 0 then live
    else (live.remove old_block).add p new_size
  | .free block => live.remove block
  | .store _ _ _ => live

/-- `cnt` pages from `a` on are not handed out. -/
structure FreshAt (s : Heap) (a cnt : Nat) : Prop where
  aligned : a % PGSIZE = 0
  pos : 0 < a
  fits : a + cnt * PGSIZE ≤ 2 ^ 32
  apart : ∀ q c, s.pages q = some c → a + cnt * PGSIZE ≤ q ∨ q + c * PGSIZE ≤ a

/-- The page allocator returns pages that are not handed out. -/
def Fresh (s : Heap) (alloc : Nat → Option Nat) : Prop :=
  ∀ cnt a, 0 < cnt → alloc cnt = some a → FreshAt s a cnt

/-- A size that does not overflow. -/
def SizeOk (size : Nat) : Prop := size + ARENA_SIZE + (PGSIZE - 1) ≤ 2 ^ 32 - 1

/-- The call may be made: on live blocks only, and with sizes that do not overflow. -/
def HeapCall.Enabled (live : Live) (s : Heap) : HeapCall → Prop
  | .malloc size alloc => SizeOk size ∧ Fresh s alloc
  | .calloc a b alloc => a < 2 ^ 32 ∧ b < 2 ^ 32 ∧ SizeOk (a * b) ∧ Fresh s alloc
  | .realloc old_block new_size alloc =>
    (old_block = 0 ∨ (live old_block).isSome = true) ∧ SizeOk new_size ∧ Fresh s alloc
  | .free p => p = 0 ∨ (live p).isSome = true
  | .store start size _ => ∃ b n, live b = some n ∧ b ≤ start ∧ start + size ≤ b + n

/-- Calls from the state after `malloc_init` on; the memory is arbitrary. -/
inductive HeapRun : Live → Heap → Prop where
  | init (header : Nat → Arena) (memory : Nat → UInt8) :
      HeapRun (fun _ => none) ⟨header, fun _ => [], memory, fun _ => none⟩
  | call {live : Live} {s s' : Heap} {c : HeapCall} {p : Nat} (run : HeapRun live s)
      (enabled : c.Enabled live s) (h : c.perform s = some (p, s')) :
      HeapRun (live.after p c) s'

end Pintos
