import Pintos.Filesys.Directory

/-!
# Filesys — path names

The functions of `filesys.c` that take a path.  `thread_current ()->current_dir` is a parameter,
and `filesys_chdir` returns what it leaves there.

A file of `file.c` and a directory share `filesys_open`, which returns a `struct dir` cast to a
`struct file`.  `file_close` then reads `deny_write` past the end of the `struct dir`: of a
directory the flag is whatever lies there.
-/

namespace Pintos
open Support

/-- The string `"/"`. -/
abbrev SLASH : List UInt8 := [47]

/-- The string `"."`. -/
abbrev DOT : List UInt8 := [46]

/-- The string `".."`. -/
abbrev DOTDOT : List UInt8 := [46, 46]

/-- The inode that `component` names in `dir`, or null. -/
def component_inode (dir : Option Dir) (component : List UInt8) : FsProg (Option Addr) :=
  if component = DOTDOT then get_dir_parent_inode dir else dir_lookup dir component

/-- The loop of `dir_from_path`, at the component `prev` with `ptr` still to be tokenised.  A turn
takes a token, so that `turns` as many as the path has bytes are enough. -/
def dir_from_path_loop : Nat → Option Dir → List UInt8 → List UInt8 → FsProg (Option Dir)
  | 0, dir, _, _ => pure dir
  | turns + 1, dir, prev, ptr =>
    match strtok_r ptr SLASH with
    | none => pure dir
    | some (cur, ptr) =>
      if prev = DOT then dir_from_path_loop turns dir cur ptr
      else do
        match ← component_inode dir prev with
        | none => pure none
        | some inode => do
          let is_dir ← inode_is_dir inode
          if is_dir then do
            dir_close dir
            let dir ← dir_open (some inode)
            dir_from_path_loop turns dir cur ptr
          else do
            call (.inode_close (some inode))
            dir_from_path_loop turns dir cur ptr

/-- The start directory of `dir_from_path`. -/
def start_dir (current_dir : Option Dir) (path_copy : List UInt8) : FsProg (Option Dir) :=
  match current_dir with
  | none => dir_open_root
  | some cwd => if path_copy.head? = some 47 then dir_open_root else dir_reopen cwd

/-- `dir_from_path`. -/
def dir_from_path (current_dir : Option Dir) (path : List UInt8) : FsProg (Option Dir) := do
  let path_copy := c_string path
  let dir ← start_dir current_dir path_copy
  match strtok_r path_copy SLASH with
  | none => pure dir
  | some (prev, ptr) => dir_from_path_loop path_copy.length dir prev ptr

/-- The loop of `file_name_from_path`. -/
def file_name_loop : Nat → List UInt8 → List UInt8 → List UInt8
  | 0, prev, _ => prev
  | turns + 1, prev, ptr =>
    match strtok_r ptr SLASH with
    | none => prev
    | some (cur, ptr) => file_name_loop turns cur ptr

/-- `file_name_from_path`. -/
def file_name_from_path (path : List UInt8) : List UInt8 :=
  file_name_loop (c_string path).length [] (c_string path)

/-- The part of `filesys_create` that sets `success`: whether it succeeds, and `inode_sector`; `e`
is what the stack holds where `dir_add` builds the entry. -/
def create_in (dir : Option Dir) (file_name : List UInt8) (initial_size : Int) (is_dir : Bool)
    (e : List UInt8) : FsProg (Bool × Sector) := do
  if file_name = DOT ∨ file_name = DOTDOT ∨ dir.isNone then pure (false, 0)
  else
    match ← call .free_map_allocate with
    | none => pure (false, 0)
    | some inode_sector => do
      let created ← call (.inode_create inode_sector initial_size is_dir)
      if created then do
        let added ← dir_add dir file_name inode_sector e
        pure (added, inode_sector)
      else pure (false, inode_sector)

/-- `filesys_create`. -/
def filesys_create (current_dir : Option Dir) (name : List UInt8) (initial_size : Int)
    (is_dir : Bool) (e : List UInt8) : FsProg Bool := do
  let dir ← dir_from_path current_dir name
  let file_name := file_name_from_path name
  let r ← create_in dir file_name initial_size is_dir e
  if r.1 = false ∧ r.2 ≠ 0 then do
    call (.free_map_release r.2)
    dir_close dir
    pure r.1
  else do
    dir_close dir
    pure r.1

/-- `struct file`. -/
structure File where
  inode : Addr
  pos : Nat
  deny_write : Bool

/-- What `filesys_open` returns: a file, or a directory cast to one. -/
inductive OpenFile where
  | file (f : File)
  | dir (d : Dir)

/-- The inode of the handle; it is the first field of either struct. -/
def OpenFile.inode : OpenFile → Addr
  | .file f => f.inode
  | .dir d => d.inode

/-- `file_open` of an inode, with memory to spare. -/
def file_open (inode : Addr) : File := ⟨inode, 0, false⟩

/-- `file_close`; `byte` is what follows a `struct dir`. -/
def file_close (file : OpenFile) (byte : Bool) : FsProg Unit := do
  let deny_write := match file with
    | .file f => f.deny_write
    | .dir _ => byte
  if deny_write then do
    call (.inode_allow_write file.inode)
    call (.inode_close (some file.inode))
  else call (.inode_close (some file.inode))

/-- The end of `filesys_open`. -/
def open_inode : Option Addr → FsProg (Option OpenFile)
  | none => pure none
  | some inode => do
    let is_dir ← inode_is_dir inode
    if is_dir then do
      let dir ← dir_open (some inode)
      pure (dir.map .dir)
    else pure (some (.file (file_open inode)))

/-- `filesys_open`. -/
def filesys_open (current_dir : Option Dir) (name : List UInt8) : FsProg (Option OpenFile) := do
  let dir ← dir_from_path current_dir name
  let file_name := file_name_from_path name
  match dir with
  | none => pure none
  | some dir => do
    let is_root ← dir_is_root (some dir)
    if is_root ∧ file_name = [] then pure (some (.dir dir))
    else if file_name = DOT then pure (some (.dir dir))
    else do
      let inode ← component_inode (some dir) file_name
      dir_close (some dir)
      open_inode inode

/-- `filesys_remove`. -/
def filesys_remove (current_dir : Option Dir) (name : List UInt8) : FsProg Bool := do
  let dir ← dir_from_path current_dir name
  let file_name := file_name_from_path name
  match dir with
  | none => pure false
  | some dir => do
    let success ← dir_remove (some dir) file_name
    dir_close (some dir)
    pure success

/-- `filesys_chdir`: whether it succeeds, and the current directory it leaves. -/
def filesys_chdir (current_dir : Option Dir) (new_path : List UInt8) :
    FsProg (Bool × Option Dir) := do
  let dir ← dir_from_path current_dir new_path
  let file_name := file_name_from_path new_path
  match dir with
  | none => pure (false, current_dir)
  | some dir =>
    if file_name = DOT then pure (true, some dir)
    else do
      let is_root ← dir_is_root (some dir)
      if file_name = [] ∧ is_root then pure (true, some dir)
      else do
        let inode ← component_inode (some dir) file_name
        dir_close (some dir)
        match ← dir_open inode with
        | none => pure (false, current_dir)
        | some dir => do
          dir_close current_dir
          pure (true, some dir)

end Pintos
