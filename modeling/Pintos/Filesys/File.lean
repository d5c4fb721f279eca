import Pintos.Filesys.Paths

/-!
# Filesys — files

The rest of `file.c`.  A `struct dir` that `filesys_open` returned goes through the same functions:
its inode and its position lie where a `struct file` has them, and its `deny_write` is the byte that
follows it, a parameter `byte` here.

An `off_t` is signed.  A size that the caller had as `unsigned` arrives here wrapped.
-/

namespace Pintos
open Support

namespace OpenFile

/-- `file->pos`. -/
def pos : OpenFile → Nat
  | .file f => f.pos
  | .dir d => d.pos

/-- `file->pos = pos`. -/
def setPos (file : OpenFile) (pos : Nat) : OpenFile :=
  match file with
  | .file f => .file { f with pos := pos }
  | .dir d => .dir { d with pos := pos }

/-- `file->deny_write`. -/
def deny_write (file : OpenFile) (byte : Bool) : Bool :=
  match file with
  | .file f => f.deny_write
  | .dir _ => byte

/-- `file->deny_write = b`: the file, and the byte that follows a `struct dir`. -/
def setDeny (file : OpenFile) (byte b : Bool) : OpenFile × Bool :=
  match file with
  | .file f => (.file { f with deny_write := b }, byte)
  | .dir d => (.dir d, b)

@[simp] theorem setPos_inode (file : OpenFile) (pos : Nat) :
    (file.setPos pos).inode = file.inode := by
  cases file <;> rfl

@[simp] theorem setPos_pos (file : OpenFile) (pos : Nat) : (file.setPos pos).pos = pos := by
  cases file <;> rfl

end OpenFile

/-- `file_reopen`. -/
def file_reopen (file : OpenFile) : FsProg OpenFile := do
  let inode ← call (.inode_reopen file.inode)
  pure (.file (file_open inode))

/-- `file_read`: the bytes read, and the file. -/
def file_read (file : OpenFile) (size : Int) : FsProg (List UInt8 × OpenFile) := do
  let bytes ← call (.inode_read_at file.inode size.toNat file.pos)
  pure (bytes, file.setPos (file.pos + bytes.length))

/-- `inode_write_at` with the length of `buffer` for the size.  A negative size writes nothing, but
a file that ends before `offset + size` still grows. -/
def write_wrapped (p : Addr) (buffer : List UInt8) (offset : Nat) : FsProg Nat :=
  let size := wrap32 buffer.length
  if 0 ≤ size then call (.inode_write_at p buffer offset)
  else if 0 ≤ offset + size then call (.inode_write_at p [] (offset + size).toNat)
  else pure 0

/-- `file_write`: the number of bytes written, and the file. -/
def file_write (file : OpenFile) (buffer : List UInt8) : FsProg (Nat × OpenFile) := do
  let written ← write_wrapped file.inode buffer file.pos
  pure (written, file.setPos (file.pos + written))

/-- `file_deny_write`. -/
def file_deny_write (file : OpenFile) (byte : Bool) : FsProg (OpenFile × Bool) :=
  if file.deny_write byte then pure (file, byte)
  else do
    call (.inode_deny_write file.inode)
    pure (file.setDeny byte true)

/-- `file_allow_write`. -/
def file_allow_write (file : OpenFile) (byte : Bool) : FsProg (OpenFile × Bool) :=
  if file.deny_write byte then do
    call (.inode_allow_write file.inode)
    pure (file.setDeny byte false)
  else pure (file, byte)

/-- `file_length`. -/
def file_length (file : OpenFile) : FsProg Nat := inode_length file.inode

/-- `file_seek`. -/
def file_seek (file : OpenFile) (new_pos : Int) : FsProg OpenFile :=
  if 0 ≤ new_pos then pure (file.setPos new_pos.toNat) else assert_failed

end Pintos
