import Pintos.Filesys.Entries
import Pintos.Filesys.FileContents
import Pintos.Filesys.Undenied
import Pintos.Userprog.Buffers
import Pintos.Userprog.Descriptors

/-!
# Userprog — the position of a directory descriptor

`filesys_open` returns a `struct dir` as a `struct file`, so that `k_seek` and `k_read` move the
position that `k_readdir` reads entries at.  Only `k_write` looks whether the file is a directory.

A run on one descriptor is an open and then any calls on it, with anything between them that leaves
the descriptor alone (`CursorRun`).  `cursor_aligned_iff`: as long as every seek goes to a multiple
of 20 and every read moves by one, so is the position, and `k_readdir` returns names of entries in
use; and a call that breaks the condition breaks the alignment.
-/

namespace Pintos
open Support List Function
open Prog (ends_pure ends_bind ends_op)

/-- A call on a descriptor. -/
inductive CursorCall where
  | read (buffer size : Nat)
  | write (buffer size : Nat)
  | seek (pos : Nat)
  | tell
  | readdir (path : Nat)

namespace CursorCall

/-- Make the call. -/
def perform (fd : Int) : CursorCall → SysProg Unit
  | read buffer size => do let _ ← k_read fd buffer size
  | write buffer size => do let _ ← k_write fd buffer size
  | seek pos => k_seek fd pos
  | tell => do let _ ← k_tell fd
  | readdir path => do let _ ← k_readdir fd path

/-- The call moves the position of a directory of `length` bytes from `pos` by whole entries. -/
def Aligned (length pos : Nat) : CursorCall → Prop
  | read _ size => 20 ∣ min (wrap32 size).toNat (length - pos)
  | seek pos => 20 ∣ (wrap32 pos).toNat
  | write _ _ | tell | readdir _ => True

end CursorCall

/-- The descriptor `fd` refers to the directory `dir`, with the inode `i`. -/
structure RefersTo (c : Caller Fs) (fd : Int) (dir : Dir) (i : Inode InodeDisk) : Prop where
  file : get_file_struct_for_fd c.file_struct_list fd = some (.dir dir)
  inode : c.fs.mem dir.inode = some i
  is_dir : i.data.is_dir = true

/-- Calls on the directory descriptor `fd`, each of which moves by whole entries. -/
inductive CursorRun (fd : Int) : Caller Fs → Dir → Prop where
  | opened {c c' : Caller Fs} {env : Env} {file_name : Nat} {es : List Event} {dir : Dir}
      {i : Inode InodeDisk}
      (h : (k_open file_name).run (sys_api disk_api env) c = (es, .done fd c')) (hfd : 2 ≤ fd)
      (hnew : get_file_struct_for_fd c.file_struct_list fd = none) (hdir : RefersTo c' fd dir i) :
      CursorRun fd c' dir
  | elsewhere {c c' : Caller Fs} {dir : Dir} {i : Inode InodeDisk} (run : CursorRun fd c dir)
      (hdir : RefersTo c' fd dir i) : CursorRun fd c' dir
  | call {c c' : Caller Fs} {env : Env} {op : CursorCall} {es : List Event} {dir dir' : Dir}
      {i i' : Inode InodeDisk} (run : CursorRun fd c dir) (hdir : RefersTo c fd dir i)
      (haligned : op.Aligned i.data.length dir.pos)
      (h : (op.perform fd).run (sys_api disk_api env) c = (es, .done () c'))
      (hdir' : RefersTo c' fd dir' i') : CursorRun fd c' dir'

/-! ### The list after a call -/

section Calls

variable {c : Caller Fs} {env : Env} {fd : Int} {file file' : OpenFile} {dir : Dir}
  {i : Inode InodeDisk} {files : List (Int × OpenFile)} {buffer size : Nat}

theorem get_set_file (h : get_file_struct_for_fd files fd = some file) :
    get_file_struct_for_fd (set_file fd file' files) fd = some file' := by
  induction files with
  | nil => cases h
  | cons e files ih =>
    by_cases he : e.1 = fd
    · simp [set_file, he, get_file_struct_for_fd]
    · have hskip (l : List (Int × OpenFile)) :
          get_file_struct_for_fd (e :: l) fd = get_file_struct_for_fd l fd := by
        simp [get_file_struct_for_fd, he]
      rw [set_file, if_neg he, hskip]
      exact ih ((hskip files).symm.trans h)

/-- Stores of the kernel into the memory of the user leave the files alone. -/
theorem store_bytes_ends (bytes : List UInt8) : ∀ (address : Nat) (c : Caller Fs),
    ((store_bytes bytes address).run (sys_api disk_api env)).Ends c fun _ c' =>
      c'.file_struct_list = c.file_struct_list ∧ c'.fs = c.fs ∧
      ∀ a, (∀ j < bytes.length, a ≠ ptr (address + j)) → c'.memory a = c.memory a := by
  induction bytes with
  | nil => exact fun _ c => ends_pure ⟨rfl, rfl, fun _ _ => rfl⟩
  | cons byte bytes ih =>
    intro address c
    have hstore : (sys_api disk_api env (.store (ptr address) byte)).Ends c fun _ c' =>
        c' = { c with memory := update c.memory (ptr address) byte } :=
      Machine.Ends.get_bind (Machine.Ends.ite (fun _ => Machine.Ends.modify rfl)
        fun _ => Machine.Ends.modify_bind Machine.Ends.panic)
    refine ends_bind (ends_op hstore) ?_
    rintro - _ rfl
    refine (ih (address + 1) _).mono ?_
    rintro - c' ⟨hfiles, hfs, hmem⟩
    refine ⟨hfiles, hfs, fun a ha => ?_⟩
    rw [hmem a fun j hj => ?_]
    · exact update_of_ne (ha 0 (Nat.succ_pos _)) ..
    · rw [Nat.add_assoc, Nat.add_comm 1]
      exact ha (j + 1) (Nat.succ_lt_succ hj)

/-- The bytes that were stored. -/
theorem store_bytes_memory (bytes : List UInt8) : ∀ (address : Nat) (c : Caller Fs),
    bytes.length ≤ 4294967296 →
    ((store_bytes bytes address).run (sys_api disk_api env)).Ends c fun _ c' =>
      ∀ j < bytes.length, c'.memory (ptr (address + j)) = bytes.getD j 0 := by
  induction bytes with
  | nil => exact fun _ c _ => ends_pure nofun
  | cons byte bytes ih =>
    intro address c hlen
    rw [length_cons] at hlen
    have hstore : (sys_api disk_api env (.store (ptr address) byte)).Ends c fun _ c' =>
        c'.memory (ptr address) = byte :=
      Machine.Ends.get_bind (Machine.Ends.ite
        (fun _ => Machine.Ends.modify (update_self ..))
        fun _ => Machine.Ends.modify_bind Machine.Ends.panic)
    refine ends_bind (ends_op hstore) fun _ c₁ hbyte es a c' hrun => ?_
    have hrest := ih (address + 1) c₁ (by omega) hrun
    obtain ⟨-, -, hkept⟩ := store_bytes_ends bytes (address + 1) c₁ hrun
    intro j hj
    cases j with
    | zero =>
      -- the later bytes lie elsewhere
      rw [Nat.add_zero, hkept (ptr address) fun j hj => ?_, hbyte]
      · rfl
      · simp only [ptr]
        omega
    | succ j =>
      rw [← Nat.add_assoc, Nat.add_right_comm]
      exact hrest j (Nat.lt_of_succ_lt_succ hj)

theorem k_seek_ends {pos : Nat} (h : get_file_struct_for_fd c.file_struct_list fd = some file) :
    ((k_seek fd pos).run (sys_api disk_api env)).Ends c fun _ c' =>
      get_file_struct_for_fd c'.file_struct_list fd = some (file.setPos (wrap32 pos).toNat) := by
  refine ends_bind (ends_op lock_acquire_ends) ?_
  rintro - _ rfl
  refine ends_bind file_of_ends ?_
  rintro r _ ⟨rfl, rfl⟩
  rw [show get_file_struct_for_fd _ fd = some file from h]
  have hseek : ((file_seek file (wrap32 pos)).run disk_api).Ends c.fs fun file' k =>
      k = c.fs ∧ file' = file.setPos (wrap32 pos).toNat := by
    unfold file_seek
    split
    · exact ends_pure ⟨rfl, rfl⟩
    · intro es a k hr
      cases hr
  refine ends_bind (on_fs_ends (Q := fun file' c' => c'.file_struct_list = c.file_struct_list ∧
    file' = file.setPos (wrap32 pos).toNat) (hseek.mono fun _ _ hk => ⟨rfl, hk.2⟩)) ?_
  rintro _ c₁ ⟨hfiles, rfl⟩
  refine ends_bind update_file_ends ?_
  rintro - _ rfl
  refine (ends_op lock_release_ends).mono ?_
  rintro - _ rfl
  exact get_set_file (hfiles ▸ h)

theorem k_tell_ends : ((k_tell fd).run (sys_api disk_api env)).Ends c fun _ c' =>
    c'.file_struct_list = c.file_struct_list := by
  refine ends_bind (ends_op lock_acquire_ends) ?_
  rintro - _ rfl
  refine ends_bind file_of_ends ?_
  rintro r _ ⟨rfl, rfl⟩
  cases get_file_struct_for_fd c.file_struct_list fd <;>
    exact ends_bind (ends_op lock_release_ends) fun _ _ hc => ends_pure (by rw [hc])

theorem exit_ends {α : Type} {status : Int} {Q : α → Caller Fs → Prop} :
    ((exit status : SysProg α).run (sys_api disk_api env)).Ends c Q := by
  intro es a c' hr
  cases hr

/-- `is_full_valid_ptr` refuses bytes at the null pointer. -/
theorem is_full_valid_ptr_ends (address size : Nat) :
    ((is_full_valid_ptr address size).run (sys_api disk_api env)).Ends c fun valid c' =>
      c' = c ∧ (valid = true → ptr address = 0 → size = 0) := by
  intro es valid c' hrun
  rw [is_full_valid_ptr_run] at hrun
  cases hrun
  refine ⟨rfl, fun hvalid hnull => ?_⟩
  by_contra hsize
  exact (of_decide_eq_true hvalid 0 (Nat.pos_of_ne_zero hsize)).1 hnull

/-- `k_write` turns a directory down. -/
theorem k_write_ends (hfd : 2 ≤ fd) (h : RefersTo c fd dir i) :
    ((k_write fd buffer size).run (sys_api disk_api env)).Ends c fun _ c' =>
      c'.file_struct_list = c.file_struct_list := by
  rw [k_write, if_neg (by omega)]
  refine ends_bind (is_full_valid_ptr_ends buffer size) ?_
  rintro valid c ⟨rfl, -⟩
  split
  swap
  · exact exit_ends
  refine ends_bind (ends_op lock_acquire_ends) ?_
  rintro - _ rfl
  rw [if_neg (by omega)]
  refine ends_bind file_of_ends ?_
  rintro r _ ⟨rfl, rfl⟩
  rw [show get_file_struct_for_fd _ fd = some (.dir dir) from h.file]
  refine ends_bind (on_fs_ends (Q := fun is_dir c' => c' = { c with file_lock := true } ∧
    is_dir = true) (inode_is_dir_ends.mono ?_)) ?_
  · rintro _ _ ⟨rfl, j, hj, rfl⟩
    obtain rfl : i = j := Option.some.inj (h.inode.symm.trans hj)
    exact ⟨rfl, h.is_dir⟩
  rintro _ _ ⟨rfl, rfl⟩
  refine ends_bind (ends_op lock_release_ends) ?_
  rintro - _ rfl
  exact ends_pure rfl

/-- `k_read` moves the position by the bytes read. -/
theorem k_read_ends (hfd : 2 ≤ fd) (h : get_file_struct_for_fd c.file_struct_list fd = some file)
    (hi : c.fs.mem file.inode = some i) :
    ((k_read fd buffer size).run (sys_api disk_api env)).Ends c fun _ c' =>
      get_file_struct_for_fd c'.file_struct_list fd =
        some (file.setPos (file.pos + min (wrap32 size).toNat (i.data.length - file.pos))) := by
  rw [k_read, if_neg (by omega)]
  refine ends_bind (is_full_valid_ptr_ends buffer size) ?_
  rintro valid c ⟨rfl, hnull⟩
  split
  swap
  · exact exit_ends
  rw [if_neg (by omega)]
  refine ends_bind file_of_ends ?_
  rintro r c ⟨rfl, rfl⟩
  rw [h]
  dsimp only
  split
  · -- nothing is read, and nothing was asked for
    obtain rfl : size = 0 := hnull ‹_› ‹_›
    have hsame : file.setPos (file.pos + min (wrap32 (0 : Nat)).toNat
        (i.data.length - file.pos)) = file := by
      have hzero : (wrap32 (0 : Nat)).toNat = 0 := rfl
      rw [hzero, Nat.zero_min]
      cases file <;> rfl
    rw [hsame]
    exact ends_pure h
  · refine ends_bind (ends_op lock_acquire_ends) ?_
    rintro - _ rfl
    have hread : ((file_read file (wrap32 size)).run disk_api).Ends c.fs fun r _ =>
        r.2 = file.setPos (file.pos + min (wrap32 size).toNat (i.data.length - file.pos)) := by
      refine ends_bind (ends_op (disk_read_ends _ _ _ _)) ?_
      rintro bytes k ⟨-, j, hj, hlen⟩
      obtain rfl : i = j := Option.some.inj (hi.symm.trans hj)
      exact ends_pure (by rw [hlen])
    refine ends_bind (on_fs_ends (Q := fun r c' =>
      c'.file_struct_list = c.file_struct_list ∧ r.2 = file.setPos (file.pos +
        min (wrap32 size).toNat (i.data.length - file.pos)))
      (hread.mono fun _ _ hr => ⟨rfl, hr⟩)) ?_
    rintro ⟨bytes, file'⟩ c₁ ⟨hfiles, rfl⟩
    refine ends_bind (store_bytes_ends bytes buffer c₁) ?_
    rintro - c₂ ⟨hfiles', -, -⟩
    refine ends_bind update_file_ends ?_
    rintro - _ rfl
    refine ends_bind (ends_op lock_release_ends) ?_
    rintro - _ rfl
    exact ends_pure (get_set_file (hfiles'.trans hfiles ▸ h))

end Calls

/-! ### Entries -/

section Entries

variable {p : Addr} {i : Inode InodeDisk} {bytes : List UInt8} {k : Fs}

/-- The name of an entry in use, as `dir_readdir` copies it. -/
def UsedName (bytes name : List UInt8) : Prop :=
  ∃ j, UsedEntry bytes j ∧ name = (DirEntry.name (entryAt bytes j)).take NAME_MAX

theorem dir_readdir_loop_used (turns : Nat) : ∀ (j : Nat) (k : Fs), k.mem p = some i →
    CacheOk k.device → FilePlaced k.device i.data → contents k.device i.data = bytes →
    ((dir_readdir_loop p turns (20 * j)).run disk_api).Ends k fun r _ =>
      ∀ name ∈ r.1, UsedName bytes name := by
  induction turns with
  | zero => exact fun j k _ _ _ _ => ends_pure nofun
  | succ turns ih =>
    intro j k hp hcache hfile hbytes
    have hread : (disk_api (.inode_read_at p 20 (20 * j))).Ends k fun e k' =>
        e = entryAt bytes j ∧ k'.mem = k.mem ∧ CacheOk k'.device ∧
        FilePlaced k'.device i.data ∧ contents k'.device i.data = bytes := by
      intro es e k' hrun
      obtain ⟨he, hmem, hcache', hfile', hkept, -⟩ :=
        (inode_read_at_keeps hp hcache hfile).of_done hrun (emits_inode_read_at _ _ _ hrun)
      rw [hbytes] at he hkept
      exact ⟨he, hmem, hcache', hfile', hkept⟩
    refine ends_bind (ends_op hread) ?_
    rintro _ k' ⟨rfl, hmem, hcache', hfile', hbytes'⟩
    split
    · split
      · rename_i hlen huse
        refine ends_pure fun name hname => ?_
        exact ⟨j, ⟨length_entryAt_eq.mp hlen, huse⟩, (Option.some.inj hname).symm⟩
      · exact ih (j + 1) k' (hmem ▸ hp) hcache' hfile' hbytes'
    · exact ends_pure nofun

theorem inode_length_ends (p : Addr) (k : Fs) :
    ((inode_length p).run disk_api).Ends k fun _ k' => k' = k :=
  ends_bind (ends_op inode_stat_ends) fun _ _ h => ends_pure h.1

/-- From an entry boundary, `dir_readdir` returns names of entries in use. -/
theorem dir_readdir_used {dir : Dir} (hp : k.mem dir.inode = some i) (hcache : CacheOk k.device)
    (hfile : FilePlaced k.device i.data) (hpos : 20 ∣ dir.pos) :
    ((dir_readdir dir).run disk_api).Ends k fun r _ =>
      ∀ name ∈ r.1, UsedName (contents k.device i.data) name := by
  obtain ⟨j, hj⟩ := hpos
  refine ends_bind (ends_op inode_lock_acquire_ends) ?_
  rintro - _ ⟨i', hi', -, rfl⟩
  obtain rfl : i = i' := Option.some.inj (hp.symm.trans hi')
  refine ends_bind (inode_length_ends _ _) ?_
  rintro length _ rfl
  rw [hj]
  refine ends_bind (dir_readdir_loop_used (i := { i with inode_lock := true }) _ j _ ?_ hcache
    hfile rfl) fun r _ hr => ?_
  · rw [Kernel.setInode_mem, if_pos rfl]
  · exact ends_bind (ends_op inode_lock_release_ends) fun _ _ _ => ends_pure hr

end Entries

/-! ### Runs -/

section Runs

variable {c : Caller Fs} {env : Env} {fd : Int} {dir : Dir} {i : Inode InodeDisk}

/-- `k_readdir` stores the position that `dir_readdir` leaves, and copies the name. -/
theorem k_readdir_ends {path : Nat} {Q : Option (List UInt8) × Nat → Prop} (h : RefersTo c fd dir i)
    (hQ : ((dir_readdir dir).run disk_api).Ends c.fs fun r _ => Q r) :
    ((k_readdir fd path).run (sys_api disk_api env)).Ends c fun b c' => ∃ r, Q r ∧
      get_file_struct_for_fd c'.file_struct_list fd = some (.dir ⟨dir.inode, r.2⟩) ∧
      (b = true → ∃ name ∈ r.1, name.length ≤ NAME_MAX → ∀ m ≤ name.length,
        c'.memory (ptr (path + m)) = (name ++ [0]).getD m 0) := by
  refine ends_bind file_of_ends ?_
  rintro r c ⟨rfl, rfl⟩
  rw [h.file]
  refine ends_bind (on_fs_ends (Q := fun is_dir c' => c' = c ∧ is_dir = true)
    (inode_is_dir_ends.mono ?_)) ?_
  · rintro _ _ ⟨rfl, j, hj, rfl⟩
    obtain rfl : i = j := Option.some.inj (h.inode.symm.trans hj)
    exact ⟨rfl, h.is_dir⟩
  rintro _ c ⟨rfl, rfl⟩
  refine ends_bind (on_fs_ends (Q := fun r c' =>
    c'.file_struct_list = c.file_struct_list ∧ Q r) (hQ.mono fun _ _ hr => ⟨rfl, hr⟩)) ?_
  rintro r c₁ ⟨hfiles, hr⟩
  refine ends_bind update_file_ends ?_
  rintro - _ rfl
  have hget : get_file_struct_for_fd (set_file fd (.dir ⟨dir.inode, r.2⟩) c₁.file_struct_list) fd =
      some (.dir ⟨dir.inode, r.2⟩) := get_set_file (hfiles.symm ▸ h.file)
  cases hname : r.1 with
  | none => exact ends_pure ⟨r, hr, hget, nofun⟩
  | some name =>
    have hstore : ((store_bytes (name ++ [0]) path).run (sys_api disk_api env)).Ends
        { c₁ with file_struct_list := set_file fd (.dir ⟨dir.inode, r.2⟩) c₁.file_struct_list }
        fun _ c' => get_file_struct_for_fd c'.file_struct_list fd = some (.dir ⟨dir.inode, r.2⟩) ∧
          (name.length ≤ NAME_MAX → ∀ m ≤ name.length,
            c'.memory (ptr (path + m)) = (name ++ [0]).getD m 0) := by
      intro es _ c' hrun
      obtain ⟨hlist, -, -⟩ := store_bytes_ends _ _ _ hrun
      refine ⟨by rw [hlist]; exact hget, fun (hlen : name.length ≤ 14) m hm => ?_⟩
      have hlen' : (name ++ [0]).length = name.length + 1 := length_append
      exact store_bytes_memory _ _ _ (by omega) hrun m (by omega)
    exact ends_bind hstore fun _ _ hc => ends_pure ⟨r, hr, hc.1, fun _ => ⟨name, hname, hc.2⟩⟩

/-- What a call does to the position. -/
theorem CursorCall.perform_ends (op : CursorCall) (hfd : 2 ≤ fd) (h : RefersTo c fd dir i)
    (hpos : 20 ∣ dir.pos) : ((op.perform fd).run (sys_api disk_api env)).Ends c fun _ c' =>
      ∃ pos, get_file_struct_for_fd c'.file_struct_list fd = some (.dir ⟨dir.inode, pos⟩) ∧
        (20 ∣ pos ↔ op.Aligned i.data.length dir.pos) := by
  cases op with
  | read buffer size =>
    refine ends_bind (k_read_ends hfd h.file h.inode) fun _ _ hc => ends_pure ?_
    exact ⟨_, hc, (Nat.dvd_add_iff_right hpos).symm⟩
  | write buffer size =>
    refine ends_bind (k_write_ends hfd h) fun _ _ hc => ends_pure ?_
    exact ⟨_, hc ▸ h.file, iff_of_true hpos trivial⟩
  | seek pos => exact (k_seek_ends h.file).mono fun _ _ hc => ⟨_, hc, Iff.rfl⟩
  | tell =>
    refine ends_bind k_tell_ends fun _ _ hc => ends_pure ?_
    exact ⟨_, hc ▸ h.file, iff_of_true hpos trivial⟩
  | readdir path =>
    refine ends_bind (k_readdir_ends h fun es r k' hrun => ((peaceful_dir_readdir dir).ends
      (fun _ _ _ _ _ _ _ _ => trivial) trivial hrun).1) ?_
    rintro _ _ ⟨r, ⟨n, hn⟩, hc, -⟩
    exact ends_pure ⟨_, hc, iff_of_true (hn ▸ hpos.add ⟨n, rfl⟩) trivial⟩

/-- A directory is opened at an entry boundary. -/
theorem k_open_pos {file_name : Nat} {es : List Event} {c' : Caller Fs}
    (h : (k_open file_name).run (sys_api disk_api env) c = (es, .done fd c')) (hfd : 2 ≤ fd)
    (hnew : get_file_struct_for_fd c.file_struct_list fd = none)
    (hdir : get_file_struct_for_fd c'.file_struct_list fd = some (.dir dir)) : dir.pos = 0 := by
  rcases k_open_appends _ h with ⟨hfail, -⟩ | ⟨file, ⟨_, path, _, _, k, -, hopen⟩, -, hfiles⟩
  · omega
  · rw [hfiles, get_file_append (get_file_eq_none.mp hnew), if_pos rfl] at hdir
    obtain ⟨ho, -⟩ := (peaceful_filesys_open c.current_dir).ends (fun _ _ _ _ _ _ _ _ => trivial)
      trivial hopen
    exact (ho _ hdir).2

theorem CursorRun.aligned (run : CursorRun fd c dir) : 2 ≤ fd ∧ 20 ∣ dir.pos := by
  induction run with
  | opened h hfd hnew hdir =>
    rw [k_open_pos h hfd hnew hdir.file]
    exact ⟨hfd, Nat.dvd_zero 20⟩
  | elsewhere _ _ ih => exact ih
  | call _ hdir haligned h hdir' ih =>
    obtain ⟨pos, hget, hiff⟩ := CursorCall.perform_ends _ ih.1 hdir ih.2 h
    obtain rfl := OpenFile.dir.inj (Option.some.inj (hdir'.file.symm.trans hget))
    exact ⟨ih.1, hiff.mpr haligned⟩

/-- **The position of a directory descriptor is an entry boundary**, exactly as long as reads and
seeks move it by whole entries; then `k_readdir` returns names of entries in use. -/
theorem cursor_aligned_iff (run : CursorRun fd c dir) (hdir : RefersTo c fd dir i) : 20 ∣ dir.pos ∧
    (∀ env op es c' dir', (CursorCall.perform fd op).run (sys_api disk_api env) c =
      (es, .done () c') → get_file_struct_for_fd c'.file_struct_list fd = some (.dir dir') →
      (20 ∣ dir'.pos ↔ op.Aligned i.data.length dir.pos)) ∧
    (CacheOk c.fs.device → FilePlaced c.fs.device i.data →
      ∀ env path es c', (k_readdir fd path).run (sys_api disk_api env) c = (es, .done true c') →
        ∃ name, UsedName (contents c.fs.device i.data) name ∧ ∀ m ≤ name.length,
          c'.memory (ptr (path + m)) = (name ++ [0]).getD m 0) := by
  obtain ⟨hfd, hpos⟩ := run.aligned
  refine ⟨hpos, ?_, ?_⟩
  · intro env op es c' dir' hrun hget'
    obtain ⟨pos, hget, hiff⟩ := op.perform_ends hfd hdir hpos hrun
    obtain rfl := OpenFile.dir.inj (Option.some.inj (hget'.symm.trans hget))
    exact hiff
  · intro hcache hfile env path es c' hrun
    obtain ⟨r, hr, -, hname⟩ := k_readdir_ends hdir
      (dir_readdir_used hdir.inode hcache hfile hpos) hrun
    obtain ⟨name, hmem, hcopy⟩ := hname rfl
    have hused := hr name hmem
    obtain ⟨j, -, htake⟩ := hused
    exact ⟨name, hr name hmem, hcopy (htake ▸ length_take_le _ _)⟩

end Runs

/-! ### A directory of two entries -/

/-- The inode of the root directory. -/
def listDisk : InodeDisk :=
  { InodeDisk.fresh true with blocks := fun _ => 5, direct_count := 1, length := 40 }

/-- The entries `ab` and `cd`. -/
def listBytes : List UInt8 :=
  [7, 0, 0, 0, 97, 98, 0, 0, 0, 0, 0, 0, 0, 0, 0, 0, 0, 0, 0, 1,
   9, 0, 0, 0, 99, 100, 0, 0, 0, 0, 0, 0, 0, 0, 0, 0, 0, 0, 0, 1]

/-- A process with the path `/` at 0x1000. -/
def listCaller : Caller Fs :=
  (rootUsers.process 0).onFs (rootUsers.fs.setDevice { rootUsers.fs.dev.device with
    disk := fun t => if t = ROOT_DIR_SECTOR then listDisk.toBlock
      else if t = 5 then Bytes.zero.write 0 listBytes else rootUsers.fs.dev.device.disk t })

theorem contents_listCaller : contents listCaller.fs.device listDisk = listBytes := by
  decide +kernel

theorem filePlaced_listCaller : FilePlaced listCaller.fs.device listDisk := by
  refine ⟨fun pos hpos => ⟨5, by decide, ?_⟩, fun pos pos' _ hpos hpos' _ _ => ?_, nofun, nofun⟩
  · have hlen : pos < 40 := hpos
    have hdiv : pos / 512 = 0 := by omega
    rw [byte_to_sector, if_pos hpos, if_pos (by omega), hdiv]
    rfl
  · have hlen : pos < 40 ∧ pos' < 40 := ⟨hpos, hpos'⟩
    omega

/-- The root directory, opened: it is listed from the first entry on. -/
theorem cursor_aligned_list : ∃ c dir i, CursorRun 2 c dir ∧ RefersTo c 2 dir i ∧ 20 ∣ dir.pos ∧
    ∃ es c', (k_readdir 2 4200).run (sys_api disk_api quietEnv) c = (es, .done true c') ∧
      ∃ name, UsedName listBytes name ∧ ∀ m ≤ name.length,
        c'.memory (ptr (4200 + m)) = (name ++ [0]).getD m 0 := by
  have hdisk : InodeDisk.ofBlock listDisk.toBlock = listDisk :=
    InodeDisk.ofBlock_toBlock (InodeDisk.inRange_of_lt (by decide))
  obtain ⟨es, c, hopen, href, hdev, hlist⟩ : ∃ es c,
      (k_open 4096).run (sys_api disk_api quietEnv) listCaller = (es, .done 2 c) ∧
      RefersTo c 2 ⟨1, 0⟩ ⟨1, 1, false, 0, false, .ofBlock listDisk.toBlock⟩ ∧
      c.fs.device = listCaller.fs.device ∧
      (returned ((k_readdir 2 4200).run (sys_api disk_api quietEnv) c)).map (fun r => r.2.1) =
        some true := ⟨_, _, rfl, ⟨rfl, rfl, rfl⟩, rfl, by decide +kernel⟩
  rw [hdisk] at href
  obtain ⟨⟨es', _, c'⟩, hrun, rfl⟩ := Option.map_eq_some_iff.mp hlist
  have hcache : CacheOk listCaller.fs.device :=
    ⟨fun hi => (nomatch hi.1), fun hi _ => (nomatch hi.1), fun _ => rfl,
      fun ⟨_, ho, _⟩ => (nomatch ho)⟩
  have run : CursorRun 2 c ⟨1, 0⟩ := .opened hopen le_rfl rfl href
  obtain ⟨hpos, -, hnames⟩ := cursor_aligned_iff run href
  rw [hdev] at hnames
  have hname := hnames hcache filePlaced_listCaller _ _ _ _ (returned_eq_some hrun)
  rw [contents_listCaller] at hname
  exact ⟨c, _, _, run, href, hpos, es', c', returned_eq_some hrun, hname⟩

/-- After a seek to 1, `k_readdir` returns the name `b`, which no entry has. -/
theorem cursor_misaligned :
    (returned ((do let _ ← k_open 4096; k_seek 2 1 : SysProg Unit).run (sys_api disk_api quietEnv)
      listCaller)).map (fun r => r.2.2.file_struct_list.map fun e => (e.1, e.2.pos)) =
        some [(2, 1)] ∧
    (returned ((do let _ ← k_open 4096; k_seek 2 1; k_readdir 2 4200 : SysProg Bool).run
      (sys_api disk_api quietEnv) listCaller)).map
        (fun r => (r.2.1, r.2.2.memory 4200, r.2.2.memory 4201)) = some (true, 98, 0) ∧
    ¬ UsedName (contents listCaller.fs.device listDisk) [98] := by
  refine ⟨by decide +kernel, by decide +kernel, ?_⟩
  rw [contents_listCaller]
  rintro ⟨j, ⟨hj, -⟩, hname⟩
  have hj : j < 2 := hj
  interval_cases j <;> exact absurd hname (by decide)

end Pintos
