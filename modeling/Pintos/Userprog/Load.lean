import Pintos.Userprog.Syscall

/-!
# Userprog — loading and ending a process

`load` and its helpers, `start_process` and, of `exception.c`, `kill`.  The executable is open while
`load` reads it; write access is denied at the end of a successful `load` and given back by the
`file_close` that follows.

The fields of the headers are read from the bytes of the file at the offsets of `struct Elf32_Ehdr`
and `struct Elf32_Phdr`.
-/

namespace Pintos
open Support

/-! ### The headers -/

/-- A `Elf32_Half` at `ofs`. -/
def half_at (bytes : List UInt8) (ofs : Nat) : Nat :=
  (bytes.getD ofs 0).toNat + 256 * (bytes.getD (ofs + 1) 0).toNat

/-- A `Elf32_Word` at `ofs`. -/
def word_at (bytes : List UInt8) (ofs : Nat) : Nat :=
  Bytes.word (bytes.getD ofs 0) (bytes.getD (ofs + 1) 0) (bytes.getD (ofs + 2) 0)
    (bytes.getD (ofs + 3) 0)

/-- `sizeof (struct Elf32_Ehdr)`. -/
abbrev EHDR_SIZE : Nat := 52

/-- `sizeof (struct Elf32_Phdr)`. -/
abbrev PHDR_SIZE : Nat := 32

namespace Ehdr

/-- `e_entry`. -/
def e_entry (ehdr : List UInt8) : Nat := word_at ehdr 24

/-- `e_phoff`. -/
def e_phoff (ehdr : List UInt8) : Nat := word_at ehdr 28

/-- `e_phnum`. -/
def e_phnum (ehdr : List UInt8) : Nat := half_at ehdr 44

/-- The checks of `load` on the bytes it read for the header. -/
def valid (ehdr : List UInt8) : Bool :=
  ehdr.length = EHDR_SIZE && ehdr.take 7 == [0x7f, 0x45, 0x4c, 0x46, 1, 1, 1] &&
    half_at ehdr 16 == 2 && half_at ehdr 18 == 3 && word_at ehdr 20 == 1 &&
    half_at ehdr 42 == PHDR_SIZE && decide (e_phnum ehdr ≤ 1024)

end Ehdr

namespace Phdr

/-- `p_type`. -/
def p_type (phdr : List UInt8) : Nat := word_at phdr 0

/-- `p_offset`. -/
def p_offset (phdr : List UInt8) : Nat := word_at phdr 4

/-- `p_vaddr`. -/
def p_vaddr (phdr : List UInt8) : Nat := word_at phdr 8

/-- `p_filesz`. -/
def p_filesz (phdr : List UInt8) : Nat := word_at phdr 16

/-- `p_memsz`. -/
def p_memsz (phdr : List UInt8) : Nat := word_at phdr 20

/-- `p_flags`. -/
def p_flags (phdr : List UInt8) : Nat := word_at phdr 24

/-- `(phdr.p_flags & PF_W) != 0`. -/
def writable (phdr : List UInt8) : Bool := (p_flags phdr).testBit 1

end Phdr

/-- What `load` does with a segment. -/
inductive SegmentType where
  | PT_LOAD
  /-- `PT_DYNAMIC`, `PT_INTERP` and `PT_SHLIB`: the file cannot be loaded. -/
  | refused
  | ignored

/-- The segment type of a value of `p_type`. -/
def SegmentType.ofNat : Nat → SegmentType
  | 1 => .PT_LOAD
  | 2 | 3 | 5 => .refused
  | _ => .ignored

/-- `validate_segment`, for a file of `length` bytes. -/
def validate_segment (phdr : List UInt8) (length : Nat) : Bool :=
  Phdr.p_offset phdr % PGSIZE == Phdr.p_vaddr phdr % PGSIZE &&
    decide (Phdr.p_offset phdr ≤ length) &&
    decide (Phdr.p_filesz phdr ≤ Phdr.p_memsz phdr) &&
    Phdr.p_memsz phdr != 0 &&
    is_user_vaddr (Phdr.p_vaddr phdr) &&
    is_user_vaddr (ptr (Phdr.p_vaddr phdr + Phdr.p_memsz phdr)) &&
    decide (Phdr.p_vaddr phdr ≤ ptr (Phdr.p_vaddr phdr + Phdr.p_memsz phdr)) &&
    decide (PGSIZE ≤ Phdr.p_vaddr phdr)

/-! ### Segments and the stack -/

/-- The difference of two values of `uint32_t`. -/
def sub32 (a b : Nat) : Nat := (a + 4294967296 - b) % 4294967296

/-- `ROUND_UP (x, PGSIZE)` of a `uint32_t`. -/
def round_up_page (x : Nat) : Nat := ptr (x + PGSIZE - 1) / PGSIZE * PGSIZE

/-- The loop of `load_segment`: whether it succeeds, and the file.  It makes at most `turns` turns;
one that does not end with them does not end. -/
def load_segment_loop (writable : Bool) : Nat → OpenFile → Nat → Nat → Nat →
    SysProg (Bool × OpenFile)
  | turns, file, upage, read_bytes, zero_bytes =>
    if read_bytes = 0 ∧ zero_bytes = 0 then pure (true, file)
    else match turns with
      | 0 => on_fs assert_failed
      | turns + 1 => do
        let page_read_bytes := if read_bytes < PGSIZE then read_bytes else PGSIZE
        let page_zero_bytes := PGSIZE - page_read_bytes
        let kpage ← sys .palloc_get_page
        if kpage then do
          let r ← on_fs (file_read file page_read_bytes)
          if r.1.length = page_read_bytes then do
            let installed ← sys (.install_page upage r.1 writable)
            if installed then
              load_segment_loop writable turns r.2 (ptr (upage + PGSIZE))
                (sub32 read_bytes page_read_bytes) (sub32 zero_bytes page_zero_bytes)
            else pure (false, r.2)
          else pure (false, r.2)
        else pure (false, file)

/-- `load_segment`.  A turn of its loop takes a page. -/
def load_segment (file : OpenFile) (ofs : Int) (upage read_bytes zero_bytes : Nat)
    (writable : Bool) : SysProg (Bool × OpenFile) :=
  if ptr (read_bytes + zero_bytes) % PGSIZE = 0 ∧ upage % PGSIZE = 0 ∧ ofs % PGSIZE = 0 then do
    let file ← on_fs (file_seek file ofs)
    load_segment_loop writable (ptr (read_bytes + zero_bytes) / PGSIZE) file upage read_bytes
      zero_bytes
  else on_fs assert_failed

namespace Phdr

/-- `read_bytes`, as `load` computes it for a segment. -/
def read_bytes (phdr : List UInt8) : Nat :=
  if 0 < p_filesz phdr then ptr (p_vaddr phdr % PGSIZE + p_filesz phdr) else 0

/-- `zero_bytes`. -/
def zero_bytes (phdr : List UInt8) : Nat :=
  sub32 (round_up_page (ptr (p_vaddr phdr % PGSIZE + p_memsz phdr))) (read_bytes phdr)

/-- `file_page`, as an `off_t`. -/
def file_page (phdr : List UInt8) : Int := wrap32 (p_offset phdr / PGSIZE * PGSIZE)

/-- `mem_page`. -/
def mem_page (phdr : List UInt8) : Nat := p_vaddr phdr / PGSIZE * PGSIZE

end Phdr

/-- A segment of the type `PT_LOAD`. -/
def load_phdr (file : OpenFile) (phdr : List UInt8) : SysProg (Bool × OpenFile) := do
  let length ← on_fs (file_length file)
  if validate_segment phdr length then
    load_segment file (Phdr.file_page phdr) (Phdr.mem_page phdr) (Phdr.read_bytes phdr)
      (Phdr.zero_bytes phdr) (Phdr.writable phdr)
  else pure (false, file)

/-- The loop of `load` over the program headers, with `n` of them left. -/
def load_phdrs : Nat → OpenFile → Int → SysProg (Bool × OpenFile)
  | 0, file, _ => pure (true, file)
  | n + 1, file, file_ofs => do
    let length ← on_fs (file_length file)
    if file_ofs < 0 ∨ length < file_ofs then pure (false, file)
    else do
      let file ← on_fs (file_seek file file_ofs)
      let r ← on_fs (file_read file PHDR_SIZE)
      if r.1.length = PHDR_SIZE then
        match SegmentType.ofNat (Phdr.p_type r.1) with
        | .ignored => load_phdrs n r.2 (wrap32 (file_ofs + PHDR_SIZE))
        | .refused => pure (false, r.2)
        | .PT_LOAD => do
          let s ← load_phdr r.2 r.1
          if s.1 then load_phdrs n s.2 (wrap32 (file_ofs + PHDR_SIZE)) else pure (false, s.2)
      else pure (false, r.2)

/-- `setup_stack`. -/
def setup_stack : SysProg Bool := do
  let kpage ← sys .palloc_get_page
  if kpage then sys (.install_page (PHYS_BASE - PGSIZE) [] true) else pure false

/-- The arguments are copied below the top of the stack: the stack pointer and their number. -/
def push_args : Nat → List UInt8 → List UInt8 → Nat → Nat → SysProg (Nat × Nat)
  | 0, _, _, stack_pointer, argc => pure (stack_pointer, argc)
  | turns + 1, token, save_ptr, stack_pointer, argc => do
    let stack_pointer := stack_pointer - (token.length + 1)
    store_bytes token stack_pointer
    match strtok_r save_ptr [32] with
    | none => pure (stack_pointer, argc + 1)
    | some (token, save_ptr) => push_args turns token save_ptr stack_pointer (argc + 1)

/-- The addresses of `argc` arguments, of which the next one is at `args_pointer`. -/
def push_addresses : Nat → Nat → Nat → SysProg Nat
  | 0, stack_pointer, _ => pure stack_pointer
  | argc + 1, stack_pointer, args_pointer => do
    let stack_pointer := stack_pointer - 4
    store_bytes (Bytes.le32 args_pointer) stack_pointer
    let arg ← load_string args_pointer
    push_addresses argc stack_pointer (args_pointer + arg.length + 1)

/-- The stack of the program: its stack pointer. -/
def setup_arguments (token save_ptr : List UInt8) : SysProg Nat := do
  let r ← push_args (save_ptr.length + 1) token save_ptr PHYS_BASE 0
  let stack_pointer := r.1 - 4
  store_bytes [0] stack_pointer
  let stack_pointer ← push_addresses r.2 stack_pointer r.1
  store_bytes (Bytes.le32 stack_pointer) (stack_pointer - 4)
  store_bytes (Bytes.le32 r.2) (stack_pointer - 8)
  store_bytes (Bytes.le32 0) (stack_pointer - 12)
  pure (stack_pointer - 12)

/-! ### `load` -/

/-- The part of `load` that reads the open file: the entry point and the stack pointer of a program
that could be loaded, and the file. -/
def load_file (file : OpenFile) (token save_ptr : List UInt8) :
    SysProg (Option (Nat × Nat) × OpenFile) := do
  let r ← on_fs (file_read file EHDR_SIZE)
  if Ehdr.valid r.1 then do
    let s ← load_phdrs (Ehdr.e_phnum r.1) r.2 (wrap32 (Ehdr.e_phoff r.1))
    if s.1 then do
      let stack ← setup_stack
      if stack then do
        let esp ← setup_arguments token save_ptr
        pure (some (Ehdr.e_entry r.1, esp), s.2)
      else pure (none, s.2)
    else pure (none, s.2)
  else pure (none, r.2)

/-- The end of `load`: the file is protected if the program was loaded, and then closed. -/
def load_done (success : Bool) (file : OpenFile) : SysProg Unit := do
  let byte ← sys .byte_after_dir
  if success then do
    let r ← on_fs (file_deny_write file byte)
    on_fs (file_close r.1 r.2)
  else on_fs (file_close file byte)

/-- `load`: the entry point and the stack pointer, or nothing. -/
def load (file_name : List UInt8) : SysProg (Option (Nat × Nat)) := do
  let pagedir ← sys .pagedir_create
  if pagedir then
    match strtok_r (c_string file_name) [32] with
    | none => on_fs assert_failed
    | some (token, save_ptr) => do
      let current_dir ← sys .current_dir
      match ← on_fs (filesys_open current_dir token) with
      | none => pure none
      | some file => do
        let r ← load_file file token save_ptr
        load_done r.1.isSome r.2
        pure r.1
  else pure none

/-- `start_process`: the entry point and the stack pointer the program starts with. -/
def start_process (file_name : List UInt8) : SysProg (Nat × Nat) := do
  let success ← load file_name
  sys (.set_is_loaded success.isSome)
  match success with
  | none => thread_exit
  | some start => pure start

/-- `kill`, for an exception in user mode. -/
def kill : SysProg Unit := thread_exit

end Pintos
