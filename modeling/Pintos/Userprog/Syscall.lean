import Pintos.Filesys.File
import Pintos.Threads.Vaddr
import Pintos.Userprog.Process

/-!
# Userprog — system calls

`syscall.c`, as programs over the operations they use: the memory of the calling process and its
fields in `struct thread`, the file system, `file_lock`, and the calls that start, await and end
processes.  What memory happens to hold where the code reads uninitialised or foreign bytes is an
operation of its own, with any answer.

An address is a number, taken modulo 2^32 when it is used.  A pointer of the user is dereferenced
byte by byte, by `load` and `store`; page 0 is never mapped, so that a null string is an unmapped
one.  A program that calls `exit` or `thread_exit` does not go on.
-/

namespace Pintos
open Support

/-! ### The interface -/

/-- The operations of the kernel that a system call uses. -/
inductive SysOp where
  /-- `pagedir_get_page (thread_current ()->pagedir, address) != NULL`. -/
  | pagedir_get_page (address : Nat)
  /-- A byte of the user is read. -/
  | load (address : Nat)
  /-- A byte of the user is written. -/
  | store (address : Nat) (byte : UInt8)
  | file_struct_list
  | set_file_struct_list (files : List (Int × OpenFile))
  | current_dir
  | set_current_dir (dir : Option Dir)
  | fs (o : FsOp)
  /-- `lock_acquire (&file_lock)`. -/
  | lock_acquire
  /-- `lock_release (&file_lock)`. -/
  | lock_release
  /-- What follows a `struct dir` in its block of the heap, where `struct file` has `deny_write`. -/
  | byte_after_dir
  /-- What the stack holds where `dir_add` builds an entry. -/
  | uninit_entry
  /-- The value of a function that returns none. -/
  | uninit_result
  /-- `->file` of a null `struct file_struct`. -/
  | null_file_struct
  | exit (status : Int)
  | thread_exit
  | process_execute (file_name : List UInt8)
  /-- `sema_down (&child->child_proc_thread->sema_proc_exec)`, then `child->is_loaded`. -/
  | is_loaded (pid : Int)
  | process_wait (child_tid : Int)
  | input_getc
  | putbuf (buffer : List UInt8)
  | shutdown_power_off
  /-- `child->is_loaded = success`, then `sema_up (&thread_current ()->sema_proc_exec)`. -/
  | set_is_loaded (success : Bool)
  /-- `t->pagedir = pagedir_create ()`: whether it is not null. -/
  | pagedir_create
  /-- `palloc_get_page (PAL_USER)`: whether there is one. -/
  | palloc_get_page
  /-- `install_page (upage, kpage, writable)` of a page that holds `bytes`, and zeros after them. -/
  | install_page (upage : Nat) (bytes : List UInt8) (writable : Bool)

/-- The answers. -/
abbrev SysOp.Res : SysOp → Type
  | .pagedir_get_page _ | .byte_after_dir | .is_loaded _ | .pagedir_create | .palloc_get_page
  | .install_page _ _ _ => Bool
  | .load _ | .input_getc => UInt8
  | .file_struct_list => List (Int × OpenFile)
  | .current_dir => Option Dir
  | .fs o => o.Res
  | .uninit_entry => List UInt8
  | .uninit_result | .process_execute _ | .process_wait _ => Int
  | .null_file_struct | .exit _ | .thread_exit | .shutdown_power_off => Empty
  | _ => Unit

/-- A program over the interface. -/
abbrev SysProg : Type → Type := Prog SysOp SysOp.Res

/-- The program that calls `o`. -/
abbrev sys (o : SysOp) : SysProg o.Res := Prog.op o

/-- A program of the file system. -/
def on_fs {α : Type} (p : FsProg α) : SysProg α := p.embed .fs fun _ r => r

theorem on_fs_bind {α β : Type} (p : FsProg α) (f : α → FsProg β) :
    on_fs (p >>= f) = on_fs p >>= fun a => on_fs (f a) := Prog.embed_bind p f

/-- `exit`. -/
def exit {α : Type} (status : Int) : SysProg α := .call (.exit status) fun e => nomatch e

/-- `thread_exit`. -/
def thread_exit {α : Type} : SysProg α := .call .thread_exit fun e => nomatch e

/-- A field of a null `struct file_struct` is read. -/
def null_file_struct {α : Type} : SysProg α := .call .null_file_struct fun e => nomatch e

/-! ### The memory of the user -/

/-- A pointer. -/
def ptr (address : Nat) : Nat := address % 4294967296

/-- `is_user_vaddr (address) && pagedir_get_page (…, address) != NULL`. -/
def is_mapped (address : Nat) : SysProg Bool :=
  if is_user_vaddr (ptr address) then sys (.pagedir_get_page (ptr address)) else pure false

/-- `n` bytes from `address` on. -/
def load_bytes : Nat → Nat → SysProg (List UInt8)
  | 0, _ => pure []
  | n + 1, address => do
    let byte ← sys (.load (ptr address))
    let rest ← load_bytes n (address + 1)
    pure (byte :: rest)

/-- Write `bytes` from `address` on. -/
def store_bytes : List UInt8 → Nat → SysProg Unit
  | [], _ => pure ()
  | byte :: bytes, address => do
    sys (.store (ptr address) byte)
    store_bytes bytes (address + 1)

/-- `((int *) esp)[i]`. -/
def load_word (esp i : Nat) : SysProg Nat := do
  let bytes ← load_bytes 4 (esp + 4 * i)
  pure (Bytes.word (bytes.getD 0 0) (bytes.getD 1 0) (bytes.getD 2 0) (bytes.getD 3 0))

/-- The string at `address`.  One without a null byte runs through the whole address space. -/
def load_string_loop : Nat → Nat → SysProg (List UInt8)
  | 0, _ => pure []
  | turns + 1, address => do
    let byte ← sys (.load (ptr address))
    if byte = 0 then pure []
    else do
      let rest ← load_string_loop turns (address + 1)
      pure (byte :: rest)

/-- The string at `address`. -/
def load_string (address : Nat) : SysProg (List UInt8) := load_string_loop 4294967296 address

/-! ### Checks of pointers -/

/-- `is_valid_addr`. -/
def is_valid_addr (address : Nat) : SysProg Unit := do
  let mapped ← is_mapped address
  if mapped then pure () else exit (-1)

/-- `is_valid_ptr`. -/
def is_valid_ptr (address : Nat) : SysProg Bool :=
  if ptr address = 0 then pure false else is_mapped address

/-- `is_full_valid_ptr`, with `size` bytes still to check. -/
def is_full_valid_ptr : Nat → Nat → SysProg Bool
  | _, 0 => pure true
  | address, size + 1 => do
    let valid ← is_valid_ptr address
    if valid then is_full_valid_ptr (address + 1) size else pure false

/-- `MIN_FILENAME_LENGTH`. -/
abbrev MIN_FILENAME_LENGTH : Nat := 1

/-- `MAX_FILENAME_LENGTH`. -/
abbrev MAX_FILENAME_LENGTH : Nat := 14

/-- The loop of `is_valid_filename`, at the character `len`. -/
def is_valid_filename_loop (file_name : Nat) : Nat → Nat → SysProg Int
  | 0, _ => pure (-2)
  | turns + 1, len => do
    let mapped ← is_mapped (file_name + len)
    if mapped then do
      let byte ← sys (.load (ptr (file_name + len)))
      if byte = 0 then
        -- the function ends without a `return` if the string is empty
        if MIN_FILENAME_LENGTH ≤ len then pure len else sys .uninit_result
      else is_valid_filename_loop file_name turns (len + 1)
    else pure (-1)

/-- `is_valid_filename`. -/
def is_valid_filename (file_name : Nat) : SysProg Int :=
  is_valid_filename_loop file_name (MAX_FILENAME_LENGTH + 1) 0

/-! ### Descriptors -/

/-- `get_file_struct_for_fd`. -/
def get_file_struct_for_fd (files : List (Int × OpenFile)) (fd : Int) : Option OpenFile :=
  (files.find? fun e => e.1 == fd).map Prod.snd

/-- `allocate_fd`. -/
def allocate_fd (files : List (Int × OpenFile)) : Int :=
  match files.getLast? with
  | none => 2
  | some e => wrap32 (e.1 + 1)

/-- The list with `file` for the first file of `fd`. -/
def set_file (fd : Int) (file : OpenFile) : List (Int × OpenFile) → List (Int × OpenFile)
  | [] => []
  | e :: files => if e.1 = fd then (fd, file) :: files else e :: set_file fd file files

/-- The file of `fd` in `thread_current ()->file_struct_list`. -/
def file_of (fd : Int) : SysProg (Option OpenFile) := do
  let files ← sys .file_struct_list
  pure (get_file_struct_for_fd files fd)

/-- The `struct file` of `fd` changes. -/
def update_file (fd : Int) (file : OpenFile) : SysProg Unit := do
  let files ← sys .file_struct_list
  sys (.set_file_struct_list (set_file fd file files))

/-! ### The calls -/

/-- `filesys_create` in the current directory. -/
def create_file (name : List UInt8) (initial_size : Int) (is_dir : Bool) : SysProg Bool := do
  let current_dir ← sys .current_dir
  let e ← sys .uninit_entry
  on_fs (filesys_create current_dir name initial_size is_dir e)

/-- `k_create`. -/
def k_create (file_name initial_size : Nat) : SysProg Bool := do
  let value ← is_valid_filename file_name
  if value = -2 then pure false
  else if value ≤ 0 then exit (-1)
  else do
    sys .lock_acquire
    let name ← load_string file_name
    let status ← create_file name (wrap32 initial_size) false
    sys .lock_release
    pure status

/-- `k_remove`. -/
def k_remove (file_name : Nat) : SysProg Bool := do
  let value ← is_valid_filename file_name
  if value ≤ 0 then pure false
  else do
    sys .lock_acquire
    let name ← load_string file_name
    let current_dir ← sys .current_dir
    let status ← on_fs (filesys_remove current_dir name)
    sys .lock_release
    pure status

/-- `k_open`. -/
def k_open (file_name : Nat) : SysProg Int := do
  let value ← is_valid_filename file_name
  if value ≤ 0 then pure (-1)
  else do
    sys .lock_acquire
    let name ← load_string file_name
    let current_dir ← sys .current_dir
    match ← on_fs (filesys_open current_dir name) with
    | none => do
      sys .lock_release
      pure (-1)
    | some file => do
      let files ← sys .file_struct_list
      let fd := allocate_fd files
      sys (.set_file_struct_list (files ++ [(fd, file)]))
      sys .lock_release
      pure fd

/-- `k_filesize`. -/
def k_filesize (fd : Int) : SysProg Int := do
  sys .lock_acquire
  match ← file_of fd with
  | none => null_file_struct
  | some file => do
    let filesize ← on_fs (file_length file)
    sys .lock_release
    pure filesize

/-- `k_write`. -/
def k_write (fd : Int) (buffer size : Nat) : SysProg Int :=
  if fd ≤ 0 then pure 0
  else do
    let valid ← is_full_valid_ptr buffer size
    if valid then do
      sys .lock_acquire
      if fd = 1 then do
        let bytes ← load_bytes size buffer
        sys (.putbuf bytes)
        sys .lock_release
        pure (wrap32 size)
      else
        match ← file_of fd with
        | none => do
          sys .lock_release
          pure 0
        | some file => do
          let is_dir ← on_fs (inode_is_dir file.inode)
          if is_dir then do
            sys .lock_release
            pure (-1)
          else do
            let bytes ← load_bytes size buffer
            let r ← on_fs (file_write file bytes)
            update_file fd r.2
            sys .lock_release
            pure r.1
    else exit (-1)

/-- The loop of `k_read` over the keyboard. -/
def getc_loop : Nat → Nat → SysProg Unit
  | 0, _ => pure ()
  | n + 1, address => do
    let byte ← sys .input_getc
    sys (.store (ptr address) byte)
    getc_loop n (address + 1)

/-- `k_read`. -/
def k_read (fd : Int) (buffer size : Nat) : SysProg Int :=
  if fd = 1 ∨ fd < 0 then exit (-1)
  else do
    let valid ← is_full_valid_ptr buffer size
    if valid then
      if fd = 0 then do
        getc_loop size buffer
        pure (wrap32 size)
      else
        match ← file_of fd with
        | none => pure (-1)
        | some file =>
          if ptr buffer = 0 then pure (-1)
          else do
            sys .lock_acquire
            let r ← on_fs (file_read file (wrap32 size))
            store_bytes r.1 buffer
            update_file fd r.2
            sys .lock_release
            pure r.1.length
    else exit (-1)

/-- `k_seek`. -/
def k_seek (fd : Int) (pos : Nat) : SysProg Unit := do
  sys .lock_acquire
  match ← file_of fd with
  | none => null_file_struct
  | some file => do
    let file ← on_fs (file_seek file (wrap32 pos))
    update_file fd file
    sys .lock_release

/-- `k_tell`. -/
def k_tell (fd : Int) : SysProg Int := do
  sys .lock_acquire
  match ← file_of fd with
  | none => do
    sys .lock_release
    pure (-1)
  | some file => do
    sys .lock_release
    pure file.pos

/-- `k_close`. -/
def k_close (fd : Int) : SysProg Unit := do
  match ← file_of fd with
  | none => pure ()
  | some file => do
    sys .lock_acquire
    let byte ← sys .byte_after_dir
    on_fs (file_close file byte)
    let files ← sys .file_struct_list
    sys (.set_file_struct_list (files.eraseP fun e => e.1 == fd))
    sys .lock_release

/-- `k_chdir`. -/
def k_chdir (path : Nat) : SysProg Bool := do
  let name ← load_string path
  let current_dir ← sys .current_dir
  let r ← on_fs (filesys_chdir current_dir name)
  sys (.set_current_dir r.2)
  pure r.1

/-- `k_mkdir`. -/
def k_mkdir (path : Nat) : SysProg Bool := do
  sys .lock_acquire
  let name ← load_string path
  let status ← create_file name 0 true
  sys .lock_release
  pure status

/-- `k_readdir`. -/
def k_readdir (fd : Int) (path : Nat) : SysProg Bool := do
  match ← file_of fd with
  | none => pure false
  | some file => do
    let is_dir ← on_fs (inode_is_dir file.inode)
    if is_dir then do
      let r ← on_fs (dir_readdir ⟨file.inode, file.pos⟩)
      update_file fd (file.setPos r.2)
      match r.1 with
      | none => pure false
      | some name => do
        store_bytes (name ++ [0]) path
        pure true
    else pure false

/-- `k_isdir`. -/
def k_isdir (fd : Int) : SysProg Bool := do
  match ← file_of fd with
  | none => pure false
  | some file => on_fs (inode_is_dir file.inode)

/-- `k_inumber`. -/
def k_inumber (fd : Int) : SysProg Int := do
  match ← file_of fd with
  | none => pure (-1)
  | some file => do
    let inumber ← on_fs (inode_get_inumber file.inode)
    pure (wrap32 inumber)

/-- `exec`. -/
def exec (cmd_line : Nat) : SysProg Int := do
  let file_name ← load_string cmd_line
  let pid ← sys (.process_execute file_name)
  if pid = -1 then exit (-1)
  else do
    let is_loaded ← sys (.is_loaded pid)
    pure (if is_loaded then pid else -1)

/-! ### The handler -/

/-- The system calls that `syscall_handler` knows. -/
inductive SyscallNumber where
  | SYS_HALT | SYS_EXIT | SYS_EXEC | SYS_WAIT | SYS_CREATE | SYS_REMOVE | SYS_OPEN | SYS_FILESIZE
  | SYS_READ | SYS_WRITE | SYS_SEEK | SYS_TELL | SYS_CLOSE | SYS_CHDIR | SYS_MKDIR | SYS_READDIR
  | SYS_ISDIR | SYS_INUMBER
  | other

/-- The system call of a number of `syscall-nr.h`. -/
def SyscallNumber.ofNat : Nat → SyscallNumber
  | 0 => .SYS_HALT
  | 1 => .SYS_EXIT
  | 2 => .SYS_EXEC
  | 3 => .SYS_WAIT
  | 4 => .SYS_CREATE
  | 5 => .SYS_REMOVE
  | 6 => .SYS_OPEN
  | 7 => .SYS_FILESIZE
  | 8 => .SYS_READ
  | 9 => .SYS_WRITE
  | 10 => .SYS_SEEK
  | 11 => .SYS_TELL
  | 12 => .SYS_CLOSE
  | 15 => .SYS_CHDIR
  | 16 => .SYS_MKDIR
  | 17 => .SYS_READDIR
  | 18 => .SYS_ISDIR
  | 19 => .SYS_INUMBER
  | _ => .other

/-- `create_args`: `fd`, `buffer` and `size`. -/
def create_args (esp : Nat) : SysProg (Nat × Nat × Nat) := do
  let fd ← load_word esp 1
  let buffer ← load_word esp 2
  let size ← load_word esp 3
  is_valid_addr buffer
  is_valid_addr (buffer + size)
  pure (fd, buffer, size)

/-- A `bool` in `eax`. -/
def ofBool (b : Bool) : Option Int := some (if b then 1 else 0)

/-- The `switch` of `syscall_handler`: what it leaves in `eax`, or nothing. -/
def dispatch (esp : Nat) : SyscallNumber → SysProg (Option Int)
  | .SYS_CHDIR => do ofBool <$> k_chdir (← load_word esp 1)
  | .SYS_MKDIR => do ofBool <$> k_mkdir (← load_word esp 1)
  | .SYS_READDIR => do
    let fd ← load_word esp 1
    let path ← load_word esp 2
    ofBool <$> k_readdir (wrap32 fd) path
  | .SYS_ISDIR => do ofBool <$> k_isdir (wrap32 (← load_word esp 1))
  | .SYS_INUMBER => do some <$> k_inumber (wrap32 (← load_word esp 1))
  | .SYS_EXEC => do
    let exec_buffer ← load_word esp 1
    is_valid_addr exec_buffer
    some <$> exec exec_buffer
  | .SYS_EXIT => do
    let exit_status ← load_word esp 1
    exit (wrap32 exit_status)
  | .SYS_WAIT => do
    let child_tid ← load_word esp 1
    some <$> sys (.process_wait (wrap32 child_tid))
  | .SYS_OPEN => do
    let open_name ← load_word esp 1
    is_valid_addr open_name
    some <$> k_open open_name
  | .SYS_READ => do
    let args ← create_args esp
    some <$> k_read (wrap32 args.1) args.2.1 args.2.2
  | .SYS_WRITE => do
    let args ← create_args esp
    some <$> k_write (wrap32 args.1) args.2.1 args.2.2
  | .SYS_CREATE => do
    let create_name ← load_word esp 1
    let size ← load_word esp 2
    ofBool <$> k_create create_name size
  | .SYS_SEEK => do
    let seek_fd ← load_word esp 1
    let position ← load_word esp 2
    k_seek (wrap32 seek_fd) position
    pure none
  | .SYS_REMOVE => do ofBool <$> k_remove (← load_word esp 1)
  | .SYS_HALT => .call .shutdown_power_off fun e => nomatch e
  | .SYS_TELL => do some <$> k_tell (wrap32 (← load_word esp 1))
  | .SYS_CLOSE => do
    k_close (wrap32 (← load_word esp 1))
    pure none
  | .SYS_FILESIZE => do some <$> k_filesize (wrap32 (← load_word esp 1))
  | .other => thread_exit

/-- `syscall_handler`. -/
def syscall_handler (esp : Nat) : SysProg (Option Int) := do
  is_valid_addr esp
  is_valid_addr (esp + 4)
  let syscall ← load_word esp 0
  dispatch esp (.ofNat syscall)

/-! ### The calling process -/

/-- The byte at `address` is in mapped memory of the user. -/
def UserMapped (pages : Finset Nat) (address : Nat) : Prop :=
  address < PHYS_BASE ∧ address / PGSIZE ∈ pages

instance (pages : Finset Nat) (address : Nat) : Decidable (UserMapped pages address) :=
  inferInstanceAs (Decidable (_ ∧ _))

/-- What becomes of the calling process. -/
inductive Fate where
  | running
  | ended
  | power_off
  /-- The kernel has touched memory of the user that is not mapped, and panics. -/
  | page_fault
  deriving DecidableEq

/-- The calling process, over the file system `K`.  `memory` has the bytes of the mapped pages;
which of them are writable is left to the page tables. -/
structure Caller (K : Type) where
  fs : K
  pagedir : Finset Nat
  memory : Nat → UInt8
  file_struct_list : List (Int × OpenFile)
  current_dir : Option Dir
  /-- Its record in the list of the parent. -/
  child : ChildProcess
  file_lock : Bool
  /-- The keys that will be pressed. -/
  input : Nat → UInt8
  /-- Whether the next calls of `palloc_get_page` find a page. -/
  pool : Nat → Bool
  fate : Fate

/-- What memory and the other processes answer. -/
structure Env where
  byte_after_dir : Bool
  uninit_entry : List UInt8
  uninit_result : Int
  process_execute : List UInt8 → Int
  is_loaded : Int → Bool
  process_wait : Int → Int
  entry_size : uninit_entry.length = ENTRY_SIZE

namespace Caller

variable {K : Type}

/-- `c` over the file system `k`. -/
def setFs (k : K) (c : Caller K) : Caller K := { c with fs := k }

/-- The process `c`, over another file system. -/
def onFs {L : Type} (c : Caller L) (k : K) : Caller K where
  fs := k
  pagedir := c.pagedir
  memory := c.memory
  file_struct_list := c.file_struct_list
  current_dir := c.current_dir
  child := c.child
  file_lock := c.file_lock
  input := c.input
  pool := c.pool
  fate := c.fate

/-- `process_exit`. -/
def process_exit (c : Caller K) : Caller K :=
  { c with
    child := if c.child.cur_status = .alive then
        { c.child with cur_status := .killed, exit_status := -1 }
      else c.child
    pagedir := ∅
    fate := .ended }

/-- `exit (status)` up to `thread_exit`. -/
def set_status (c : Caller K) (status : Int) : Caller K :=
  { c with child := { c.child with
      exit_status := status
      cur_status := if status = -1 then .killed else .exited } }

end Caller

section Api

variable {K : Type} {I : FsApi K}

/-- `page_fault` in the kernel. -/
def page_fault {α : Type} : Machine Event (Caller K) α := do
  Machine.modify fun c => { c with fate := .page_fault }
  Machine.panic

/-- The interface, over an implementation of the file system. -/
def sys_api (I : FsApi K) (env : Env) :
    ∀ o : SysOp, Machine Event (Caller K) o.Res
  | .pagedir_get_page address => do
    let c ← Machine.get
    if is_user_vaddr address then pure (decide (address / PGSIZE ∈ c.pagedir))
    else Machine.panic
  | .load address => do
    let c ← Machine.get
    if UserMapped c.pagedir address then pure (c.memory address) else page_fault
  | .store address byte => do
    let c ← Machine.get
    if UserMapped c.pagedir address then
      Machine.modify fun c => { c with memory := Function.update c.memory address byte }
    else page_fault
  | .file_struct_list => do
    let c ← Machine.get
    pure c.file_struct_list
  | .set_file_struct_list files => Machine.modify fun c => { c with file_struct_list := files }
  | .current_dir => do
    let c ← Machine.get
    pure c.current_dir
  | .set_current_dir dir => Machine.modify fun c => { c with current_dir := dir }
  | .fs o => (I o).zoom Caller.fs Caller.setFs
  | .lock_acquire => do
    let c ← Machine.get
    if c.file_lock then Machine.panic else Machine.modify fun c => { c with file_lock := true }
  | .lock_release => do
    let c ← Machine.get
    if c.file_lock then Machine.modify fun c => { c with file_lock := false } else Machine.panic
  | .byte_after_dir => pure env.byte_after_dir
  | .uninit_entry => pure env.uninit_entry
  | .uninit_result => pure env.uninit_result
  | .null_file_struct => Machine.panic
  | .exit status => do
    Machine.modify fun c => (c.set_status status).process_exit
    Machine.panic
  | .thread_exit => do
    Machine.modify Caller.process_exit
    Machine.panic
  | .process_execute file_name => pure (env.process_execute file_name)
  | .is_loaded pid => pure (env.is_loaded pid)
  | .process_wait child_tid => pure (env.process_wait child_tid)
  | .input_getc => do
    let c ← Machine.get
    Machine.modify fun c => { c with input := fun n => c.input (n + 1) }
    pure (c.input 0)
  | .putbuf _ => pure ()
  | .shutdown_power_off => do
    Machine.modify fun c => { c with fate := .power_off }
    Machine.panic
  | .set_is_loaded success =>
    Machine.modify fun c => { c with child := { c.child with is_loaded := success } }
  | .pagedir_create => do
    let c ← Machine.get
    Machine.modify fun c => { c with pool := fun n => c.pool (n + 1), pagedir := ∅ }
    pure (c.pool 0)
  | .palloc_get_page => do
    let c ← Machine.get
    Machine.modify fun c => { c with pool := fun n => c.pool (n + 1) }
    pure (c.pool 0)
  | .install_page upage bytes _ => do
    let c ← Machine.get
    -- `pagedir_set_page` may need a page for a page table
    Machine.modify fun c => { c with pool := fun n => c.pool (n + 1) }
    if upage / PGSIZE ∈ c.pagedir ∨ c.pool 0 = false then pure false
    else do
      Machine.modify fun c => { c with
        pagedir := insert (upage / PGSIZE) c.pagedir
        memory := fun a =>
          if a / PGSIZE = upage / PGSIZE then bytes.getD (a % PGSIZE) 0 else c.memory a }
      pure true

/-- A program of the file system works on the file system. -/
theorem run_on_fs {α : Type} {env : Env} (p : FsProg α) :
    (on_fs p).run (sys_api I env) = (p.run I).zoom Caller.fs Caller.setFs := by
  have := Machine.lawful (ε := Event) (σ := Caller K)
  have hid : ∀ c : Caller K, Caller.setFs c.fs c = c := fun _ => rfl
  have hget : ∀ (k : K) (c : Caller K), (Caller.setFs k c).fs = k := fun _ _ => rfl
  have hput : ∀ (k k' : K) (c : Caller K),
      Caller.setFs k' (Caller.setFs k c) = Caller.setFs k' c := fun _ _ _ => rfl
  exact Prog.run_embed hid hget hput (fun o => bind_pure (sys_api I env (.fs o))) p

theorem on_fs_ends {α : Type} {env : Env} {p : FsProg α} {c : Caller K} {Q : α → Caller K → Prop}
    (h : (p.run I).Ends c.fs fun a k => Q a (c.setFs k)) :
    ((on_fs p).run (sys_api I env)).Ends c Q := by
  rw [run_on_fs]
  exact .zoom h

section Ops

variable {I : FsApi K} {env : Env} {c : Caller K}

theorem lock_acquire_ends : (sys_api I env .lock_acquire).Ends c fun _ c' =>
    c' = { c with file_lock := true } :=
  Machine.Ends.get_bind (.ite (fun _ => .panic) fun _ => .modify rfl)

theorem lock_release_ends : (sys_api I env .lock_release).Ends c fun _ c' =>
    c' = { c with file_lock := false } :=
  Machine.Ends.get_bind (.ite (fun _ => .modify rfl) fun _ => .panic)

theorem file_struct_list_ends : (sys_api I env .file_struct_list).Ends c fun files c' =>
    c' = c ∧ files = c.file_struct_list :=
  Machine.Ends.get_bind (.pure ⟨rfl, rfl⟩)

theorem file_of_ends {fd : Int} : ((file_of fd).run (sys_api I env)).Ends c fun r c' =>
    c' = c ∧ r = get_file_struct_for_fd c.file_struct_list fd := by
  refine Prog.ends_bind (Prog.ends_op file_struct_list_ends) ?_
  rintro _ c ⟨rfl, rfl⟩
  exact Prog.ends_pure ⟨rfl, rfl⟩

theorem set_file_struct_list_ends (files : List (Int × OpenFile)) :
    (sys_api I env (.set_file_struct_list files)).Ends c fun _ c' =>
      c' = { c with file_struct_list := files } :=
  Machine.Ends.modify rfl

theorem update_file_ends {fd : Int} {file : OpenFile} :
    ((update_file fd file).run (sys_api I env)).Ends c fun _ c' =>
      c' = { c with file_struct_list := set_file fd file c.file_struct_list } := by
  refine Prog.ends_bind (Prog.ends_op file_struct_list_ends) ?_
  rintro _ c ⟨rfl, rfl⟩
  exact Prog.ends_op (.modify rfl)

end Ops

/-! ### Programs that change nothing -/

/-- The operation only reads. -/
def SysOp.reads : SysOp → Bool
  | .pagedir_get_page _ | .load _ | .file_struct_list | .current_dir | .byte_after_dir
  | .uninit_entry | .uninit_result | .process_execute _ | .is_loaded _ | .process_wait _
  | .putbuf _ => true
  | _ => false

/-- The program only reads. -/
def Reads {α : Type} (p : SysProg α) : Prop := p.Calls (fun o => o.reads = true) fun _ => True

section Reads

variable {α β : Type} {I : FsApi K} {env : Env} {p : SysProg α}

theorem reads_pure (a : α) : Reads (pure a : SysProg α) := trivial

theorem reads_sys {o : SysOp} (h : o.reads = true) : Reads (sys o) := Prog.Calls.op h

theorem Reads.bind {f : α → SysProg β} (h : Reads p) (hf : ∀ a, Reads (f a)) : Reads (p >>= f) :=
  Prog.Calls.bind h fun a _ => hf a

/-- A program that only reads leaves the state as it is. -/
theorem Reads.ends (h : Reads p) (c : Caller K) :
    (p.run (sys_api I env)).Ends c fun _ c' => c' = c := by
  refine (Prog.Calls.ends (P := (· = c)) ?_ h rfl).mono fun _ _ hc => hc.2
  rintro o c ho rfl
  cases o with
  | pagedir_get_page =>
    exact .get_bind (.ite (fun _ => .pure rfl) fun _ => .panic)
  | load =>
    exact .get_bind (.ite (fun _ => .pure rfl) fun _ => .modify_bind Machine.Ends.panic)
  | file_struct_list | current_dir => exact .get_bind (.pure rfl)
  | byte_after_dir | uninit_entry | uninit_result | process_execute | is_loaded | process_wait
  | putbuf => exact .pure rfl
  | _ => cases ho

theorem reads_is_mapped (address : Nat) : Reads (is_mapped address) := by
  unfold is_mapped
  split
  · exact reads_sys rfl
  · exact reads_pure _

theorem reads_load_string_loop (turns : Nat) : ∀ address, Reads (load_string_loop turns address) := by
  induction turns with
  | zero => exact fun _ => reads_pure _
  | succ turns ih =>
    intro address
    refine (reads_sys rfl).bind fun byte => ?_
    split
    · exact reads_pure _
    · exact (ih _).bind fun _ => reads_pure _

theorem reads_is_valid_filename (file_name : Nat) : Reads (is_valid_filename file_name) := by
  have hloop : ∀ turns len, Reads (is_valid_filename_loop file_name turns len) := by
    intro turns
    induction turns with
    | zero => exact fun _ => reads_pure _
    | succ turns ih =>
      intro len
      refine (reads_is_mapped _).bind fun mapped => ?_
      split
      · refine (reads_sys rfl).bind fun byte => ?_
        split
        · split
          · exact reads_pure _
          · exact reads_sys rfl
        · exact ih _
      · exact reads_pure _
  exact hloop _ _

theorem reads_load_bytes (n : Nat) : ∀ address, Reads (load_bytes n address) := by
  induction n with
  | zero => exact fun _ => reads_pure _
  | succ n ih =>
    exact fun address => (reads_sys rfl).bind fun _ => (ih _).bind fun _ => reads_pure _

theorem reads_load_word (esp i : Nat) : Reads (load_word esp i) :=
  (reads_load_bytes 4 _).bind fun _ => reads_pure _

theorem reads_is_full_valid_ptr (size : Nat) : ∀ address, Reads (is_full_valid_ptr address size) := by
  induction size with
  | zero => exact fun _ => reads_pure _
  | succ size ih =>
    intro address
    refine Reads.bind ?_ fun valid => ?_
    · unfold is_valid_ptr
      split
      · exact reads_pure _
      · exact reads_is_mapped _
    · split
      · exact ih _
      · exact reads_pure _

end Reads

end Api

end Pintos
