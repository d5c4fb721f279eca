import Pintos.Filesys.OpenHandles
import Pintos.Userprog.UserMemory

/-!
# Userprog — who denies writes

`file_deny_write` raises the counter of the inode and sets the flag of the `struct file`;
`file_allow_write` and `file_close` take that back.  The counter of an inode is therefore the number
of open `struct file` objects on it with the flag set, over the files that the kernel holds and the
descriptors of every process (`denial_exact`).

A directory is opened as a `struct dir` and closed by `file_close` through a cast: what `file_close`
takes for the flag is a byte that nobody set.  If that byte is not zero, the counter of the directory
drops below zero and the directory refuses every write from then on (`close_dir_denies`).
-/

namespace Pintos
open Support List
open Prog (ends_pure ends_bind ends_op)

/-! ### The users of the file system -/

/-- The file system, the `struct file` objects of the kernel, and `n` processes. -/
structure FileUsers (n : Nat) where
  fs : Fs
  kernel : List File
  process : Fin n → Caller Unit

/-- Where a `struct file` is kept. -/
inductive Place (n : Nat) where
  | kernel (j : Nat)
  | descriptor (t : Fin n) (fd : Int)

/-- The calls that open, close, deny and allow. -/
inductive FileCall (n : Nat) where
  | file_open (sector : Sector)
  | file_reopen (file : Place n)
  | file_deny_write (file : Place n)
  | file_allow_write (file : Place n)
  | file_close (j : Nat)
  | k_open (t : Fin n) (file_name : Nat) (env : Env)
  | k_close (t : Fin n) (fd : Int) (env : Env)

namespace FileUsers

variable {n : Nat}

/-- The `struct file` at `file`. -/
def fileAt (s : FileUsers n) : Place n → Option File
  | .kernel j => s.kernel[j]?
  | .descriptor t fd =>
    match get_file_struct_for_fd (s.process t).file_struct_list fd with
    | some (.file f) => some f
    | _ => none

/-- The `struct file` at `file` becomes `f`. -/
def setFile (s : FileUsers n) (f : File) : Place n → FileUsers n
  | .kernel j => { s with kernel := s.kernel.set j f }
  | .descriptor t fd => { s with process := Function.update s.process t { s.process t with
      file_struct_list := set_file fd (.file f) (s.process t).file_struct_list } }

/-- A call of the process `t` returned in the state `c`. -/
def back (s : FileUsers n) (t : Fin n) (c : Caller Fs) : FileUsers n :=
  { s with fs := c.fs, process := Function.update s.process t (c.onFs ()) }

/-- A call, if it returns. -/
def perform (s : FileUsers n) : FileCall n → Option (FileUsers n)
  | .file_open sector => do
    let (_, p, k) ← returned (disk_api (.inode_open sector) s.fs)
    -- directories are opened by `dir_open`
    if (k.mem p).all fun inode => inode.data.is_dir then none
    else some { s with fs := k, kernel := s.kernel ++ [Pintos.file_open p] }
  | .file_reopen file => do
    let f ← s.fileAt file
    match returned ((Pintos.file_reopen (.file f)).run disk_api s.fs) with
    | some (_, .file f', k) => some { s with fs := k, kernel := s.kernel ++ [f'] }
    | _ => none
  | .file_deny_write file => do
    let f ← s.fileAt file
    match returned ((Pintos.file_deny_write (.file f) false).run disk_api s.fs) with
    | some (_, (.file f', _), k) => some { s.setFile f' file with fs := k }
    | _ => none
  | .file_allow_write file => do
    let f ← s.fileAt file
    match returned ((Pintos.file_allow_write (.file f) false).run disk_api s.fs) with
    | some (_, (.file f', _), k) => some { s.setFile f' file with fs := k }
    | _ => none
  | .file_close j => do
    let f ← s.kernel[j]?
    let (_, _, k) ← returned ((Pintos.file_close (.file f) false).run disk_api s.fs)
    some { s with fs := k, kernel := s.kernel.eraseIdx j }
  | .k_open t file_name env => do
    let (_, _, c) ← returned ((Pintos.k_open file_name).run (sys_api disk_api env)
      ((s.process t).onFs s.fs))
    some (s.back t c)
  | .k_close t fd env => do
    let (_, _, c) ← returned ((Pintos.k_close fd).run (sys_api disk_api env)
      ((s.process t).onFs s.fs))
    some (s.back t c)

/-- A `struct dir` is closed only where a null byte follows it. -/
def NullAfterDir (s : FileUsers n) : FileCall n → Prop
  | .k_close t fd env => ∀ d,
      get_file_struct_for_fd (s.process t).file_struct_list fd = some (.dir d) →
        env.byte_after_dir = false
  | _ => True

/-- The states of the runs from `s₀` in which a null byte follows every `struct dir` that is
closed. -/
inductive Reached (s₀ : FileUsers n) : FileUsers n → Prop where
  | start : Reached s₀ s₀
  | step {s s' : FileUsers n} {call : FileCall n} (h : Reached s₀ s) (hcall : s.NullAfterDir call)
      (hs : s.perform call = some s') : Reached s₀ s'

/-! ### Counting open objects -/

/-- The open objects with `w`. -/
def count (s : FileUsers n) (w : OpenFile → Bool) : Nat :=
  s.kernel.countP (fun f => w (.file f)) +
    ∑ t, (s.process t).file_struct_list.countP fun e => w e.2

end FileUsers

namespace OpenFile

/-- The object is open on the inode at `p`. -/
def on (p : Addr) (o : OpenFile) : Bool := o.inode == p

/-- The object is a `struct file` on the inode at `p`. -/
def fileOn (p : Addr) : OpenFile → Bool
  | .file f => f.inode == p
  | .dir _ => false

/-- The object is a `struct file` on the inode at `p` that denies writes. -/
def denies (p : Addr) : OpenFile → Bool
  | .file f => f.inode == p && f.deny_write
  | .dir _ => false

end OpenFile

section Count

variable {n j : Nat} {s s' : FileUsers n} {w w' : OpenFile → Bool} {f g : File} {c : Caller Fs}
  {p : Addr} {files : List (Int × OpenFile)}

theorem countP_set_file {fd : Int} {o o' : OpenFile} (h : get_file_struct_for_fd files fd = some o)
    :
    (set_file fd o' files).countP (fun e => w e.2) + (w o).toNat =
      files.countP (fun e => w e.2) + (w o').toNat := by
  induction files with
  | nil => cases h
  | cons e files ih =>
    by_cases he : e.1 = fd
    · obtain rfl : e.2 = o := by simpa [get_file_struct_for_fd, he] using h
      rw [set_file, if_pos he, countP_cons, countP_cons]
      cases w e.2 <;> cases w o' <;> simp
    · have h' : get_file_struct_for_fd files fd = some o := by
        simpa [get_file_struct_for_fd, he] using h
      have := ih h'
      rw [set_file, if_neg he, countP_cons, countP_cons]
      omega

theorem countP_close {fd : Int} {o : OpenFile} (h : get_file_struct_for_fd files fd = some o) :
    (files.eraseP fun e => e.1 == fd).countP (fun e => w e.2) + (w o).toNat =
      files.countP fun e => w e.2 := by
  induction files with
  | nil => cases h
  | cons e files ih =>
    by_cases he : e.1 = fd
    · obtain rfl : e.2 = o := by simpa [get_file_struct_for_fd, he] using h
      rw [eraseP_cons_of_pos (by simpa using he), countP_cons]
      cases w e.2 <;> simp
    · have h' : get_file_struct_for_fd files fd = some o := by
        simpa [get_file_struct_for_fd, he] using h
      have := ih h'
      rw [eraseP_cons_of_neg (by simpa using he), countP_cons, countP_cons]
      omega

theorem countP_eraseIdx {files : List File} (h : files[j]? = some f) :
    (files.eraseIdx j).countP (fun f => w (.file f)) + (w (.file f)).toNat =
      files.countP fun f => w (.file f) := by
  induction files generalizing j with
  | nil => cases h
  | cons x files ih =>
    cases j with
    | zero =>
      obtain rfl : x = f := by simpa using h
      rw [eraseIdx_cons_zero, countP_cons]
      cases w (.file x) <;> simp
    | succ j =>
      have := ih (j := j) (by simpa using h)
      rw [eraseIdx_cons_succ, countP_cons, countP_cons]
      omega

theorem countP_set {files : List File} (h : files[j]? = some f) :
    (files.set j g).countP (fun f => w (.file f)) + (w (.file f)).toNat =
      files.countP (fun f => w (.file f)) + (w (.file g)).toNat := by
  induction files generalizing j with
  | nil => cases h
  | cons x files ih =>
    cases j with
    | zero =>
      obtain rfl : x = f := by simpa using h
      rw [set_cons_zero, countP_cons, countP_cons]
      cases w (.file x) <;> cases w (.file g) <;> simp
    | succ j =>
      have := ih (j := j) (by simpa using h)
      rw [set_cons_succ, countP_cons, countP_cons]
      omega

namespace FileUsers

theorem count_mono (h : ∀ o, w o = true → w' o = true) : s.count w ≤ s.count w' :=
  Nat.add_le_add (countP_mono_left fun _ _ => h _)
    (Finset.sum_le_sum fun _ _ => countP_mono_left fun _ _ => h _)

/-- Only the files of the process `t` change. -/
theorem count_update {u : Caller Unit} {t : Fin n} {a b : Nat} (hk : s'.kernel = s.kernel)
    (hp : s'.process = Function.update s.process t u)
    (hu : (u.file_struct_list.countP fun e => w e.2) + a =
      ((s.process t).file_struct_list.countP fun e => w e.2) + b) :
    s'.count w + a = s.count w + b := by
  have hsum : ∀ v : Fin n → Caller Unit, (∑ t, (v t).file_struct_list.countP fun e => w e.2) =
      ((v t).file_struct_list.countP fun e => w e.2) +
        ∑ r ∈ Finset.univ.erase t, (v r).file_struct_list.countP fun e => w e.2 :=
    fun v => (Finset.add_sum_erase _ _ (Finset.mem_univ t)).symm
  have hrest : (∑ r ∈ Finset.univ.erase t, (s'.process r).file_struct_list.countP fun e => w e.2) =
      ∑ r ∈ Finset.univ.erase t, (s.process r).file_struct_list.countP fun e => w e.2 := by
    refine Finset.sum_congr rfl fun r hr => ?_
    rw [hp, Function.update_of_ne (Finset.ne_of_mem_erase hr)]
  rw [count, count, hk, hsum s'.process, hsum s.process, hrest, hp, Function.update_self]
  omega

theorem count_setFile {file : Place n} (h : s.fileAt file = some f) :
    (s.setFile g file).count w + (w (.file f)).toNat = s.count w + (w (.file g)).toNat := by
  cases file with
  | kernel j =>
    have := countP_set (w := w) (g := g) h
    show _ + _ + _ = _ + _ + _
    simp only [setFile]
    omega
  | descriptor t fd =>
    refine count_update rfl rfl (countP_set_file ?_)
    rw [fileAt] at h
    split at h
    · cases h
      assumption
    · cases h

theorem count_cons {k : Fs} :
    ({ s with fs := k, kernel := s.kernel ++ [f] } : FileUsers n).count w =
      s.count w + (w (.file f)).toNat := by
  rw [count, count, countP_append]
  cases hw : w (.file f) <;> simp [hw]
  omega

end FileUsers

end Count

/-! ### One call -/

section Calls

variable {k : Fs} {held : Addr → Nat} {p : Addr} {c : Caller Fs} {env : Env} {byte : Bool}
  {f : File}

theorem inode_deny_write_ends : (disk_api (.inode_deny_write p)).Ends k fun _ k' =>
    ∃ i, k.mem p = some i ∧ k' = k.setInode p { i with deny_write_cnt := i.deny_write_cnt + 1 } :=
  deref_bind_ends fun i hp => Machine.Ends.modify_bind
    (Machine.Ends.ite (fun _ => Machine.Ends.pure ⟨i, hp, rfl⟩) fun _ => Machine.Ends.panic)

theorem inode_allow_write_ends : (disk_api (.inode_allow_write p)).Ends k fun _ k' =>
    ∃ i, k.mem p = some i ∧ k' = k.setInode p { i with deny_write_cnt := i.deny_write_cnt - 1 } :=
  deref_bind_ends fun i hp =>
    Machine.Ends.ite (fun _ => Machine.Ends.modify ⟨i, hp, rfl⟩) fun _ => Machine.Ends.panic

/-- The flag of `f` becomes `b`: either it is already, or the counter of the inode follows. -/
def Flags (f : File) (b : Bool) (k k' : Fs) : Prop :=
  (f.deny_write = b ∧ k' = k) ∨ ∃ i, k.mem f.inode = some i ∧ k' = k.setInode f.inode
    { i with deny_write_cnt := i.deny_write_cnt + b.toNat - f.deny_write.toNat }

theorem file_deny_write_ends : ((file_deny_write (.file f) byte).run disk_api).Ends k fun r k' =>
      r.1 = .file { f with deny_write := true } ∧ Flags f true k k' := by
  obtain ⟨inode, pos, deny⟩ := f
  cases deny with
  | true => exact ends_pure ⟨rfl, .inl ⟨rfl, rfl⟩⟩
  | false =>
    refine ends_bind (ends_op inode_deny_write_ends) ?_
    rintro - _ ⟨i, hi, rfl⟩
    exact ends_pure ⟨rfl, .inr ⟨i, hi, by simp [OpenFile.inode]⟩⟩

theorem file_allow_write_ends : ((file_allow_write (.file f) byte).run disk_api).Ends k fun r k' =>
      r.1 = .file { f with deny_write := false } ∧ Flags f false k k' := by
  obtain ⟨inode, pos, deny⟩ := f
  cases deny with
  | false => exact ends_pure ⟨rfl, .inl ⟨rfl, rfl⟩⟩
  | true =>
    refine ends_bind (ends_op inode_allow_write_ends) ?_
    rintro - _ ⟨i, hi, rfl⟩
    exact ends_pure ⟨rfl, .inr ⟨i, hi, by simp [OpenFile.inode]⟩⟩

theorem file_reopen_ends (h : TableOk held k) :
    ((file_reopen (.file f)).run disk_api).Ends k fun r k' =>
      r = .file (file_open f.inode) ∧ Over k held k' (plus held f.inode) := by
  refine ends_bind (ends_op (inode_reopen_ends h)) ?_
  rintro _ k' ⟨rfl, hk⟩
  exact ends_pure ⟨rfl, hk⟩

/-- From `k` to `k'` a handle on `p` goes, and `allowed` denials of writes with it. -/
structure Closes (held : Addr → Nat) (p : Addr) (allowed : Nat) (k k' : Fs) : Prop where
  table : TableOk (minus held p) k'
  keeps : ∀ {q i}, k'.mem q = some i → ∃ j, k.mem q = some j ∧ j.data = i.data ∧
    i.deny_write_cnt = j.deny_write_cnt - if q = p then allowed else 0

theorem file_close_ends {o : OpenFile} (h : TableOk held k) (hp : 0 < held o.inode) :
    ((file_close o byte).run disk_api).Ends k fun _ k' =>
      Closes held o.inode (o.deny_write byte).toNat k k' := by
  have hflag : file_close o byte = if o.deny_write byte then do
        call (.inode_allow_write o.inode)
        call (.inode_close (some o.inode))
      else call (.inode_close (some o.inode)) := by
    cases o <;> rfl
  rw [hflag]
  cases o.deny_write byte with
  | false =>
    refine (ends_op (h.close_ends disk_backend_quiet hp)).mono fun _ k' hk => ⟨hk.1, ?_⟩
    intro q i hq
    obtain ⟨c, hc⟩ := hk.2 q i hq
    exact ⟨_, hc, rfl, by simp⟩
  | true =>
    refine ends_bind (ends_op inode_allow_write_ends) ?_
    rintro - _ ⟨i, hi, rfl⟩
    have hcount : i.open_cnt = held o.inode := h.counted hi
    have h' : TableOk held (k.setInode o.inode { i with deny_write_cnt := i.deny_write_cnt - 1 }) :=
      h.setInode hi rfl hcount hp fun _ _ => rfl
    refine (ends_op (h'.close_ends disk_backend_quiet hp)).mono fun _ k' hk => ⟨hk.1, ?_⟩
    intro q j hq
    obtain ⟨c, hc⟩ := hk.2 q j hq
    rw [Kernel.setInode_mem] at hc
    split at hc
    · rename_i e
      have hj := Option.some.inj hc
      have hdata : i.data = j.data := (Inode.mk.inj hj).2.2.2.2.2
      have hdeny : i.deny_write_cnt - 1 = j.deny_write_cnt := (Inode.mk.inj hj).2.2.2.1
      subst e
      exact ⟨i, hi, hdata, by rw [if_pos rfl]; exact hdeny.symm⟩
    · rename_i e
      exact ⟨_, hc, rfl, by simp [e]⟩

/-- What `filesys_open` has on the inode it opened: an object that denies nothing. -/
structure Opened (k : Fs) (held : Addr → Nat) (o : OpenFile) (k' : Fs) : Prop where
  table : Over k held k' (plus held o.inode)
  allows : ∀ {f}, o = .file f → f.deny_write = false
  regular : ∀ {f}, o = .file f → ∃ i, k'.mem f.inode = some i ∧ i.data.is_dir = false

/-- `k_open` opens at most one object, which becomes the last descriptor. -/
theorem k_open_ends {file_name : Nat} (h : TableOk held c.fs) :
    ((k_open file_name).run (sys_api disk_api env)).Ends c fun _ c' =>
      (c'.file_struct_list = c.file_struct_list ∧ ∃ held', Over c.fs held c'.fs held') ∨
      ∃ e : Int × OpenFile, c'.file_struct_list = c.file_struct_list ++ [e] ∧
        Opened c.fs held e.2 c'.fs := by
  refine ends_bind (Reads.ends (reads_is_valid_filename file_name) c) ?_
  rintro value c rfl
  split
  · exact ends_pure (.inl ⟨rfl, held, Over.refl h⟩)
  refine ends_bind (ends_op lock_acquire_ends) ?_
  rintro - _ rfl
  refine ends_bind (Reads.ends (reads_load_string_loop _ _) _) ?_
  rintro name _ rfl
  refine ends_bind (Reads.ends (reads_sys rfl) _) ?_
  rintro current_dir _ rfl
  refine ends_bind (on_fs_ends (Q := fun r c' => c' = ({ c with file_lock := true } :
      Caller Fs).setFs c'.fs ∧ ∃ held', Over c.fs held c'.fs held' ∧ ∀ o ∈ r,
        Opened c.fs held o c'.fs) ((filesys_open_ends current_dir name h).mono ?_)) ?_
  · rintro r k' ⟨held', hover, hr⟩
    refine ⟨rfl, held', hover, fun o ho => ?_⟩
    obtain ⟨rfl, hf⟩ := hr o ho
    exact ⟨hover, fun e => (hf _ e).1, fun e => (hf _ e).2⟩
  · rintro r c₁ ⟨hc₁, held', hover, hr⟩
    cases r with
    | none =>
      refine ends_bind (ends_op lock_release_ends) ?_
      rintro - _ rfl
      exact ends_pure (.inl ⟨by rw [hc₁]; rfl, held', hover⟩)
    | some o =>
      refine ends_bind (ends_op file_struct_list_ends) ?_
      rintro _ c₁ ⟨rfl, rfl⟩
      refine ends_bind (ends_op (set_file_struct_list_ends _)) ?_
      rintro - _ rfl
      refine ends_bind (ends_op lock_release_ends) ?_
      rintro - _ rfl
      refine ends_pure (.inr ⟨(allocate_fd c₁.file_struct_list, o), ?_, hr o rfl⟩)
      show c₁.file_struct_list ++ _ = _
      rw [hc₁]
      rfl

/-- `k_close` closes the object of the descriptor. -/
theorem k_close_ends {fd : Int} (h : TableOk held c.fs)
    (hl : ∀ e ∈ c.file_struct_list, 0 < held e.2.inode) :
    ((k_close fd).run (sys_api disk_api env)).Ends c fun _ c' =>
      (get_file_struct_for_fd c.file_struct_list fd = none ∧ c' = c) ∨
      ∃ o, get_file_struct_for_fd c.file_struct_list fd = some o ∧
        c'.file_struct_list = c.file_struct_list.eraseP (fun e => e.1 == fd) ∧
        Closes held o.inode (o.deny_write env.byte_after_dir).toNat c.fs c'.fs := by
  refine ends_bind file_of_ends ?_
  rintro r c ⟨rfl, hr⟩
  cases r with
  | none => exact ends_pure (.inl ⟨hr.symm, rfl⟩)
  | some o =>
    have ho : 0 < held o.inode := by
      obtain ⟨e, he, rfl⟩ := Option.map_eq_some_iff.mp hr.symm
      exact hl e (mem_of_find?_eq_some he)
    refine ends_bind (ends_op lock_acquire_ends) ?_
    rintro - _ rfl
    refine ends_bind (ends_op (Machine.Ends.pure
      (Q := fun byte c' => c' = { c with file_lock := true } ∧ byte = env.byte_after_dir)
      ⟨rfl, rfl⟩)) ?_
    rintro _ _ ⟨rfl, rfl⟩
    refine ends_bind (on_fs_ends (Q := fun _ c' => c'.file_struct_list = c.file_struct_list ∧
      Closes held o.inode (o.deny_write env.byte_after_dir).toNat c.fs c'.fs)
      ((file_close_ends h ho).mono fun _ _ hk => ⟨rfl, hk⟩)) ?_
    rintro - c₁ ⟨hfiles, hclose⟩
    refine ends_bind (ends_op file_struct_list_ends) ?_
    rintro _ c₁ ⟨rfl, rfl⟩
    refine ends_bind (ends_op (set_file_struct_list_ends _)) ?_
    rintro - _ rfl
    refine (ends_op lock_release_ends).mono ?_
    rintro - _ rfl
    refine .inr ⟨o, hr.symm, ?_, hclose⟩
    show c₁.file_struct_list.eraseP _ = _
    rw [hfiles]

end Calls

/-! ### The counters are exact -/

section Accounts

variable {n : Nat} {s s' s₀ : FileUsers n} {held held' : Addr → Nat} {p : Addr}
  {i : Inode InodeDisk} {call : FileCall n} {o : OpenFile} {file : Place n} {f : File}

open OpenFile (denies fileOn)

/-- The counters of the inodes agree with the open objects. -/
structure Accounted (s : FileUsers n) (held : Addr → Nat) : Prop where
  table : TableOk held s.fs
  handles : ∀ p, s.count (OpenFile.on p) ≤ held p
  denied : ∀ {p i}, s.fs.mem p = some i → i.deny_write_cnt = s.count (denies p)
  regular : ∀ {p i}, s.fs.mem p = some i → i.data.is_dir = true → s.count (fileOn p) = 0

theorem OpenFile.on_of_fileOn (h : o.fileOn p = true) : o.on p = true := by
  cases o with
  | file f => exact h
  | dir d => cases h

theorem OpenFile.fileOn_of_denies (h : o.denies p = true) : o.fileOn p = true := by
  cases o with
  | file f => exact (Bool.and_eq_true_iff.mp h).1
  | dir d => cases h

namespace Accounted

section

variable (h : Accounted s held)
include h

theorem count_closed (hp : s.fs.mem p = none) : s.count (OpenFile.on p) = 0 := by
  by_contra hc
  obtain ⟨i, hi⟩ := (h.table.handles p).mp (by have := h.handles p; omega)
  exact nomatch hp.symm.trans hi

/-- More handles, and no change of a flag. -/
theorem grow (hk : Over s.fs held s'.fs held') (hon : ∀ p, s'.count (OpenFile.on p) ≤ held' p)
    (hden : ∀ p, s'.count (denies p) = s.count (denies p))
    (hfile : ∀ p i, s'.fs.mem p = some i → i.data.is_dir = true →
      s'.count (fileOn p) = s.count (fileOn p)) : Accounted s' held' := by
  have hzero : ∀ {p}, s.fs.mem p = none → s.count (fileOn p) = 0 := fun hp =>
    Nat.le_zero.mp (h.count_closed hp ▸ s.count_mono fun _ => OpenFile.on_of_fileOn)
  refine ⟨hk.table, hon, fun {p i} hp => ?_, fun {p i} hp hd => ?_⟩
  · rw [hden p]
    cases ho : s.fs.mem p with
    | some j =>
      obtain ⟨c, hc⟩ := hk.keeps ho
      obtain rfl := Option.some.inj (hp.symm.trans hc)
      have hj := h.denied ho
      exact hj
    | none =>
      have hd : s.count (denies p) = 0 :=
        Nat.le_zero.mp (hzero ho ▸ s.count_mono fun _ => OpenFile.fileOn_of_denies)
      rw [(hk.fresh hp ho).2.1, hd]
      rfl
  · rw [hfile p i hp hd]
    cases ho : s.fs.mem p with
    | some j =>
      obtain ⟨c, hc⟩ := hk.keeps ho
      obtain rfl := Option.some.inj (hp.symm.trans hc)
      exact h.regular ho hd
    | none => exact hzero ho

/-- A new object that denies nothing. -/
theorem opened (hk : Opened s.fs held o s'.fs) (hc : ∀ w, s'.count w = s.count w + (w o).toNat) :
    Accounted s' (plus held o.inode) := by
  refine h.grow hk.table (fun p => ?_) (fun p => ?_) fun p i hp hd => ?_
  · rw [hc]
    have := h.handles p
    by_cases e : o.inode = p
    · subst e
      rw [plus_self]
      have : (o.on o.inode).toNat ≤ 1 := Bool.toNat_le _
      omega
    · have hon : o.on p = false := beq_false_of_ne e
      rw [hon, plus_of_ne (Ne.symm e)]
      exact this
  · rw [hc]
    cases o with
    | dir d => rfl
    | file f => simp [denies, hk.allows rfl]
  · rw [hc]
    cases o with
    | dir d => rfl
    | file f =>
      obtain ⟨j, hj, hreg⟩ := hk.regular rfl
      by_cases e : f.inode = p
      · subst e
        obtain rfl := Option.some.inj (hp.symm.trans hj)
        rw [hreg] at hd
        cases hd
      · simp [fileOn, e]

/-- The flag of `f` becomes `b`, and the counter of its inode changes with it. -/
theorem flagged {b : Bool} (hi : s.fs.mem f.inode = some i) (hfs : s'.fs = s.fs.setInode f.inode
      { i with deny_write_cnt := i.deny_write_cnt + b.toNat - f.deny_write.toNat })
    (hc : ∀ w, s'.count w + (w (.file f)).toNat =
      s.count w + (w (.file { f with deny_write := b })).toNat) : Accounted s' held := by
  have hcount : i.open_cnt = held f.inode := h.table.counted hi
  have hon : ∀ p, s'.count (OpenFile.on p) = s.count (OpenFile.on p) := fun p =>
    Nat.add_right_cancel (hc (OpenFile.on p))
  have hfile : ∀ p, s'.count (fileOn p) = s.count (fileOn p) := fun p =>
    Nat.add_right_cancel (hc (fileOn p))
  refine ⟨?_, fun p => hon p ▸ h.handles p, fun {p j} hp => ?_, fun {p j} hp hd => ?_⟩
  · rw [hfs]
    exact h.table.setInode hi rfl hcount ((h.table.handles _).mpr ⟨i, hi⟩) fun _ _ => rfl
  · have hw := hc (denies p)
    rw [hfs, Kernel.setInode_mem] at hp
    split at hp
    · rename_i e
      subst e
      obtain rfl := Option.some.inj hp
      have hden := h.denied hi
      simp only [denies, beq_self_eq_true, Bool.true_and] at hw
      show i.deny_write_cnt + _ - _ = _
      omega
    · rename_i e
      have hne : (f.inode == p) = false := beq_false_of_ne (Ne.symm e)
      simp only [denies, hne, Bool.false_and] at hw
      rw [h.denied hp]
      exact congrArg Nat.cast (Nat.add_right_cancel hw).symm
  · rw [hfile]
    rw [hfs, Kernel.setInode_mem] at hp
    split at hp
    · rename_i e
      subst e
      obtain rfl := Option.some.inj hp
      exact h.regular hi hd
    · exact h.regular hp hd

/-- An object is closed, with a denial if its flag was set. -/
theorem closed (hk : Closes held o.inode (o.denies o.inode).toNat s.fs s'.fs)
    (hc : ∀ w, s'.count w + (w o).toNat = s.count w) : Accounted s' (minus held o.inode) := by
  refine ⟨hk.table, fun p => ?_, fun {p i} hp => ?_, fun {p i} hp hd => ?_⟩
  · have hle := h.handles p
    rw [← hc] at hle
    by_cases e : p = o.inode
    · subst e
      have hon : o.on o.inode = true := beq_self_eq_true _
      rw [hon, Bool.toNat_true] at hle
      rw [minus_self]
      omega
    · rw [minus_of_ne e]
      omega
  · obtain ⟨j, hj, -, hden⟩ := hk.keeps hp
    have hw := hc (denies p)
    rw [hden, h.denied hj, ← hw]
    split
    · rename_i e
      subst e
      omega
    · rename_i e
      have hno : o.denies p = false := by
        cases o with
        | dir d => rfl
        | file f => exact Bool.and_eq_false_imp.mpr fun hf => absurd (beq_iff_eq.mp hf) (Ne.symm e)
      simp [hno]
  · obtain ⟨j, hj, hdata, -⟩ := hk.keeps hp
    have hw := hc (fileOn p)
    have := h.regular hj (hdata ▸ hd)
    omega

/-- The flag of the file at `file` becomes `b`. -/
theorem setFile {b : Bool} {k : Fs} (hf : s.fileAt file = some f) (hk : Flags f b s.fs k) :
    Accounted ({ s.setFile { f with deny_write := b } file with fs := k } : FileUsers n) held := by
  have hc : ∀ w, ({ s.setFile { f with deny_write := b } file with fs := k } : FileUsers n).count w +
      (w (.file f)).toNat = s.count w + (w (.file { f with deny_write := b })).toNat :=
    fun w => FileUsers.count_setFile hf
  rcases hk with ⟨rfl, rfl⟩ | ⟨i, hi, rfl⟩
  · have hsame : ∀ w, _ = _ := fun w => Nat.add_right_cancel (hc w)
    exact h.grow (Over.refl h.table) (fun p => hsame _ ▸ h.handles p) (fun p => hsame _)
      fun p _ _ _ => hsame _
  · exact h.flagged hi rfl hc

/-- The objects of the processes have handles. -/
theorem held_of_mem {t : Fin n} {e : Int × OpenFile} (he : e ∈ (s.process t).file_struct_list) :
    0 < held e.2.inode := by
  refine lt_of_lt_of_le ?_ (h.handles _)
  refine Nat.add_pos_right _ (Finset.sum_pos_iff.mpr ⟨t, Finset.mem_univ t, ?_⟩)
  exact List.countP_pos_iff.mpr ⟨e, he, beq_self_eq_true _⟩

/-- A file that is open is on no directory. -/
theorem regular_of_fileAt (hf : s.fileAt file = some f) :
    ∃ i, s.fs.mem f.inode = some i ∧ i.data.is_dir = false := by
  have hpos : 0 < s.count (fileOn f.inode) := by
    have hc := FileUsers.count_setFile (g := ⟨f.inode + 1, 0, false⟩)
      (w := fileOn f.inode) hf
    have h₁ : fileOn f.inode (.file f) = true := beq_self_eq_true _
    have h₂ : fileOn f.inode (.file ⟨f.inode + 1, 0, false⟩) = false :=
      beq_false_of_ne (Nat.succ_ne_self _)
    rw [h₁, h₂, Bool.toNat_true, Bool.toNat_false] at hc
    omega
  obtain ⟨i, hi⟩ := (h.table.handles f.inode).mp
    (lt_of_lt_of_le hpos (le_trans (s.count_mono fun _ => OpenFile.on_of_fileOn) (h.handles _)))
  refine ⟨i, hi, ?_⟩
  cases hd : i.data.is_dir with
  | false => rfl
  | true =>
    have := h.regular hi hd
    omega

/-- One call. -/
theorem step (hcall : s.NullAfterDir call) (hs : s.perform call = some s') :
    ∃ held', Accounted s' held' := by
  cases call with
  | file_open sector =>
    obtain ⟨⟨es, p, k⟩, hr, hs⟩ := Option.bind_eq_some_iff.mp hs
    have hk := inode_open_ends disk_backend_quiet h.table (returned_eq_some hr)
    dsimp only at hs
    split at hs
    · cases hs
    · rename_i hdir
      cases hs
      refine ⟨_, h.opened (o := .file (file_open p)) ⟨hk, ?_, ?_⟩ fun w => FileUsers.count_cons⟩
      · rintro _ ⟨⟩
        rfl
      · rintro _ ⟨⟩
        obtain ⟨i, hi⟩ := (hk.table.handles p).mp (by rw [plus_self]; omega)
        exact ⟨i, hi, by simpa [hi] using hdir⟩
  | file_reopen file =>
    obtain ⟨f, hf, hs⟩ := Option.bind_eq_some_iff.mp hs
    split at hs
    · rename_i es f' k hr
      cases hs
      obtain ⟨⟨⟩, hk⟩ := file_reopen_ends h.table (returned_eq_some hr)
      refine ⟨_, h.opened (o := .file (file_open f.inode)) ⟨hk, ?_, ?_⟩
        fun w => FileUsers.count_cons⟩
      · rintro _ ⟨⟩
        rfl
      · rintro _ ⟨⟩
        obtain ⟨i, hi, hd⟩ := h.regular_of_fileAt hf
        obtain ⟨c, hc⟩ := hk.keeps hi
        exact ⟨_, hc, hd⟩
    · cases hs
  | file_deny_write file =>
    obtain ⟨f, hf, hs⟩ := Option.bind_eq_some_iff.mp hs
    split at hs
    · rename_i es f' byte k hr
      cases hs
      obtain ⟨⟨⟩, hk⟩ := file_deny_write_ends (returned_eq_some hr)
      exact ⟨held, h.setFile hf hk⟩
    · cases hs
  | file_allow_write file =>
    obtain ⟨f, hf, hs⟩ := Option.bind_eq_some_iff.mp hs
    split at hs
    · rename_i es f' byte k hr
      cases hs
      obtain ⟨⟨⟩, hk⟩ := file_allow_write_ends (returned_eq_some hr)
      exact ⟨held, h.setFile hf hk⟩
    · cases hs
  | file_close j =>
    obtain ⟨f, hf, hs⟩ := Option.bind_eq_some_iff.mp hs
    obtain ⟨⟨es, u, k⟩, hr, hs⟩ := Option.bind_eq_some_iff.mp hs
    cases hs
    obtain ⟨i, hi, -⟩ := h.regular_of_fileAt (show s.fileAt (.kernel j) = some f from hf)
    have hk := file_close_ends (o := .file f) h.table ((h.table.handles _).mpr ⟨i, hi⟩)
      (returned_eq_some hr)
    refine ⟨_, h.closed (o := .file f) ?_ fun w => ?_⟩
    · simpa [denies, OpenFile.inode, OpenFile.deny_write] using hk
    · have := countP_eraseIdx (w := w) hf
      simp only [FileUsers.count]
      omega
  | k_open t file_name env =>
    obtain ⟨⟨es, v, c⟩, hr, hs⟩ := Option.bind_eq_some_iff.mp hs
    cases hs
    obtain ⟨hfiles, held', hk⟩ | ⟨e, hfiles, hk⟩ :=
      k_open_ends (c := (s.process t).onFs s.fs) h.table (returned_eq_some hr)
    · have hsame : ∀ w, (s.back t c).count w = s.count w := fun w =>
        FileUsers.count_update (a := 0) (b := 0) rfl rfl (by
          show c.file_struct_list.countP _ + 0 = _
          rw [hfiles]
          rfl)
      exact ⟨held', h.grow hk (fun p => le_trans (hsame _ ▸ h.handles p) (hk.le p))
        (fun p => hsame _) fun p _ _ _ => hsame _⟩
    · refine ⟨_, h.opened hk fun w => ?_⟩
      refine FileUsers.count_update (a := 0) rfl rfl ?_
      show c.file_struct_list.countP _ + 0 = _
      rw [hfiles, countP_append]
      cases hw : w e.2 <;> simp [hw] <;> rfl
  | k_close t fd env =>
    obtain ⟨⟨es, v, c⟩, hr, hs⟩ := Option.bind_eq_some_iff.mp hs
    cases hs
    obtain ⟨-, rfl⟩ | ⟨o, ho, hfiles, hk⟩ :=
      k_close_ends (c := (s.process t).onFs s.fs) h.table (fun e he => h.held_of_mem he)
        (returned_eq_some hr)
    · have hback : s.back t ((s.process t).onFs s.fs) = s := by
        show { s with process := Function.update s.process t (s.process t) } = s
        rw [Function.update_eq_self]
      exact ⟨held, by rwa [hback]⟩
    · have hflag : o.deny_write env.byte_after_dir = o.denies o.inode := by
        cases o with
        | file f => simp [OpenFile.deny_write, denies, OpenFile.inode]
        | dir d => exact hcall d ho
      rw [hflag] at hk
      refine ⟨_, h.closed hk fun w => ?_⟩
      refine FileUsers.count_update (b := 0) rfl rfl ?_
      show c.file_struct_list.countP _ + _ = _
      rw [hfiles]
      exact countP_close ho

end

end Accounted

/-- No object is open, and no inode denies writes. -/
structure NothingOpen (s : FileUsers n) : Prop where
  kernel : s.kernel = []
  process : ∀ t, (s.process t).file_struct_list = []
  allows : ∀ p i, s.fs.mem p = some i → i.deny_write_cnt = 0

theorem NothingOpen.accounted (h : NothingOpen s) (ht : TableOk held s.fs) : Accounted s held := by
  have hc : ∀ w, s.count w = 0 := by
    intro w
    simp [FileUsers.count, h.kernel, h.process]
  exact ⟨ht, fun p => by rw [hc]; exact Nat.zero_le _,
    fun hp => by rw [hc]; exact h.allows _ _ hp, fun _ _ => hc _⟩

theorem FileUsers.Reached.accounted (h₀ : Accounted s₀ held) (h : s₀.Reached s) :
    ∃ held', Accounted s held' := by
  induction h with
  | start => exact ⟨held, h₀⟩
  | step _ hcall hs ih =>
    obtain ⟨held', h'⟩ := ih
    exact h'.step hcall hs

/-- The counter of an inode is the number of open `struct file` objects on it that deny writes, as
long as a null byte follows every `struct dir` that is closed.  It never leaves the range from zero
to the number of openers, and a directory refuses no write. -/
theorem denial_exact (ht : TableOk held s₀.fs) (hn : NothingOpen s₀) (hr : s₀.Reached s)
    (hp : s.fs.mem p = some i) :
    i.deny_write_cnt = s.count (OpenFile.denies p) ∧ 0 ≤ i.deny_write_cnt ∧
      i.deny_write_cnt ≤ i.open_cnt ∧ (i.data.is_dir = true → i.deny_write_cnt = 0) := by
  obtain ⟨held', h⟩ := hr.accounted (hn.accounted ht)
  have hd := h.denied hp
  have hfile : s.count (OpenFile.denies p) ≤ s.count (OpenFile.fileOn p) :=
    s.count_mono fun _ => OpenFile.fileOn_of_denies
  have hon : s.count (OpenFile.fileOn p) ≤ s.count (OpenFile.on p) :=
    s.count_mono fun _ => OpenFile.on_of_fileOn
  have hheld := h.handles p
  have hopen := h.table.counted hp
  refine ⟨hd, by omega, by omega, fun hdir => ?_⟩
  have := h.regular hp hdir
  omega

/-- A file system with an empty root directory, and a process with the path `/` at 0x1000. -/
def rootUsers : FileUsers 1 where
  fs := smallFs.setDevice { smallFs.dev.device with
    disk := Function.update smallFs.dev.device.disk ROOT_DIR_SECTOR (InodeDisk.fresh true).toBlock }
  kernel := []
  process := fun _ =>
    { chdirCaller.onFs () with memory := fun a => if a = 4096 then '/'.toNat.toUInt8 else 0 }

theorem nothingOpen_rootUsers : NothingOpen rootUsers := by
  refine ⟨rfl, fun _ => rfl, fun p i hp => ?_⟩
  by_cases e : p = 0
  · subst e
    obtain rfl := Option.some.inj hp
    rfl
  · have : rootUsers.fs.mem p = none := if_neg e
    exact nomatch this.symm.trans hp

/-- A file opened and denied. -/
theorem denial_exact_rootUsers :
    ∃ s i, rootUsers.Reached s ∧ s.fs.mem 1 = some i ∧ i.deny_write_cnt = 1 ∧
      i.deny_write_cnt = s.count (OpenFile.denies 1) ∧ i.deny_write_cnt ≤ i.open_cnt := by
  have hrun : (((rootUsers.perform (.file_open 3)).bind
      (·.perform (.file_deny_write (.kernel 0)))).bind (·.fs.mem 1)).map Inode.deny_write_cnt =
        some 1 := by
    decide +kernel
  obtain ⟨i, hi, hden⟩ := Option.map_eq_some_iff.mp hrun
  obtain ⟨s, hs, hi⟩ := Option.bind_eq_some_iff.mp hi
  obtain ⟨s₁, hs₁, hs⟩ := Option.bind_eq_some_iff.mp hs
  have hr₁ : rootUsers.Reached s₁ :=
    .step .start (show rootUsers.NullAfterDir (.file_open 3) from trivial) hs₁
  have hr : rootUsers.Reached s :=
    .step hr₁ (show s₁.NullAfterDir (.file_deny_write (.kernel 0)) from trivial) hs
  obtain ⟨hd, -, hle, -⟩ := denial_exact (client_smallFs.table.congr rfl rfl rfl)
    nothingOpen_rootUsers hr hi
  exact ⟨s, i, hr, hi, hden, hd, hle⟩

/-- The root directory is opened twice and closed once, where the byte after the `struct dir` is not
zero: it refuses writes. -/
theorem close_dir_denies : ((([.k_open 0 4096 quietEnv, .k_open 0 4096 quietEnv,
        .k_close 0 2 { quietEnv with byte_after_dir := true }] : List (FileCall 1)).foldlM
        FileUsers.perform rootUsers).map fun s =>
      ((s.fs.mem 1).map fun i => (i.data.is_dir, i.deny_write_cnt),
        (returned (disk_api (.inode_write_at 1 [65] 0) s.fs)).map fun r => r.2.1)) =
      some (some (true, -1), some 0) := by
  decide +kernel

end Accounts

end Pintos
