import Pintos.Filesys.GrowthFailure
import Pintos.Filesys.Undenied
import Pintos.Userprog.Endings

/-!
# Userprog — writes to a running program

`load` denies writes to the executable when the program could be loaded, and then closes the file.
`file_close` allows writes again, so that the program runs from a file that anybody can change: in
no state between two system calls is there an inode that refuses writes (`Os.Reached.allowing`).  A
write to a running program is harmless exactly if it has nothing to write
(`executable_write_iff`).
-/

namespace Pintos
open Support Function List

/-! ### Programs of the kernel that deny nothing -/

/-- No descriptor denies writes. -/
def FilesAllow (files : List (Int × OpenFile)) : Prop := ∀ e ∈ files, e.2.Allows

/-- The operation denies and allows nothing. -/
def denies_nothing : SysOp → Prop
  | .fs o => o.peaceful = true
  | .set_file_struct_list files => FilesAllow files
  | _ => True

/-- The answers in a state in which nothing denies writes. -/
def nothing_denied : ∀ o : SysOp, o.Res → Prop
  | .file_struct_list, files => FilesAllow files
  | .byte_after_dir, byte => byte = false
  | _, _ => True

/-- The program denies nothing as long as nothing is denied, and its value is in `Q`. -/
def Harmless {α : Type} (p : SysProg α) (Q : α → Prop) : Prop :=
  p.Meets (fun (_ : Unit) o => denies_nothing o) (fun _ o r _ => nothing_denied o r)
    (fun a _ => Q a) ()

section Rules

variable {α β : Type} {p : SysProg α} {Q : α → Prop} {P : β → Prop}

theorem Harmless.pure {a : α} (h : Q a) : Harmless (Pure.pure a : SysProg α) Q := h

theorem Harmless.mono {P : α → Prop} (h : Harmless p Q) (hQP : ∀ a, Q a → P a) : Harmless p P :=
  Prog.Meets.mono h fun a _ => hQP a

theorem Harmless.bind {f : α → SysProg β} (h : Harmless p Q) (hf : ∀ a, Q a → Harmless (f a) P) :
    Harmless (p >>= f) P :=
  Prog.meets_bind.mpr (Prog.Meets.mono h fun a _ => hf a)

theorem Harmless.sys {o : SysOp} (h : denies_nothing o) : Harmless (sys o) (nothing_denied o) :=
  ⟨h, fun _ _ hr => hr⟩

theorem Harmless.sys_bind {o : SysOp} {f : o.Res → SysProg β} (h : denies_nothing o)
    (hf : ∀ r, nothing_denied o r → Harmless (f r) P) :
    Harmless (Pintos.sys o >>= f) P := (Harmless.sys h).bind hf

theorem Harmless.map {f : α → β} (h : Harmless p fun a => P (f a)) :
    Harmless (f <$> p) P := Prog.meets_map.mpr h

theorem Harmless.ite {c : Prop} [Decidable c] {p' : SysProg α} (h : Harmless p Q)
    (h' : Harmless p' Q) : Harmless (if c then p else p') Q := by
  split
  · exact h
  · exact h'

theorem Peaceful.harmless {q : FsProg α} (h : Peaceful q Q) : Harmless (on_fs q) Q := by
  have hpre : ∀ (_ : Unit) (o : FsOp), o.peaceful = true → denies_nothing (.fs o) := fun _ _ ho => ho
  exact Prog.Calls.embed hpre h ()

theorem Reads.harmless (h : Reads p) : Harmless p fun _ => True := by
  induction p with
  | done a => trivial
  | call o next ih =>
    have ho : o.reads = true := h.1
    refine ⟨?_, fun r _ _ => ih r (h.2 r () trivial)⟩
    cases o with
    | fs | set_file_struct_list => cases ho
    | _ => trivial

theorem harmless_exit (status : Int) : Harmless (exit status : SysProg α) Q :=
  ⟨trivial, fun e => nomatch e⟩

theorem harmless_thread_exit : Harmless (thread_exit : SysProg α) Q :=
  ⟨trivial, fun e => nomatch e⟩

theorem harmless_null_file_struct : Harmless (null_file_struct : SysProg α) Q :=
  ⟨trivial, fun e => nomatch e⟩

end Rules

/-! ### Memory and descriptors -/

section Calls

variable {files : List (Int × OpenFile)} {fd : Int} {o : OpenFile}

theorem harmless_store_bytes (bytes : List UInt8) : ∀ address,
    Harmless (store_bytes bytes address) fun _ => True := by
  induction bytes with
  | nil => exact fun _ => .pure trivial
  | cons byte bytes ih => exact fun address => .sys_bind trivial fun _ _ => ih _

theorem harmless_is_valid_addr (address : Nat) : Harmless (is_valid_addr address) fun _ => True :=
  (reads_is_mapped address).harmless.bind fun _ _ => .ite (.pure trivial) (harmless_exit _)

theorem FilesAllow.get (h : FilesAllow files) (ho : get_file_struct_for_fd files fd = some o) :
    o.Allows := by
  obtain ⟨e, he, rfl⟩ := Option.map_eq_some_iff.mp ho
  exact h e (mem_of_find?_eq_some he)

theorem FilesAllow.set_file (h : FilesAllow files) (ho : o.Allows) :
    FilesAllow (set_file fd o files) := by
  induction files with
  | nil => exact h
  | cons e files ih =>
    obtain ⟨he, hrest⟩ := List.forall_mem_cons.mp h
    rw [Pintos.set_file]
    split
    · exact List.forall_mem_cons.mpr ⟨ho, hrest⟩
    · exact List.forall_mem_cons.mpr ⟨he, ih hrest⟩

theorem harmless_file_of (fd : Int) : Harmless (file_of fd) fun r => ∀ o ∈ r, o.Allows :=
  .sys_bind trivial fun _ hfiles => .pure fun _ ho => hfiles.get ho

theorem harmless_update_file (h : o.Allows) : Harmless (update_file fd o) fun _ => True :=
  .sys_bind trivial fun _ hfiles => .mono (.sys (hfiles.set_file h)) fun _ _ => trivial

/-! ### The calls -/

-- the unifier is not to compute a size
attribute [local irreducible] wrap32

theorem harmless_release {α : Type} (a : α) :
    Harmless (do sys .lock_release; pure a : SysProg α) fun _ => True :=
  .sys_bind trivial fun _ _ => .pure trivial

theorem harmless_create_file (name : List UInt8) (initial_size : Int) (is_dir : Bool) :
    Harmless (create_file name initial_size is_dir) fun _ => True :=
  .sys_bind trivial fun _ _ => .sys_bind trivial fun _ _ => (peaceful_filesys_create _ _ _ _).harmless

theorem reads_load_string (address : Nat) : Reads (load_string address) :=
  reads_load_string_loop _ _

theorem harmless_k_create (file_name initial_size : Nat) :
    Harmless (k_create file_name initial_size) fun _ => True := by
  refine (reads_is_valid_filename file_name).harmless.bind fun _ _ =>
    .ite (.pure trivial) (.ite (harmless_exit _) (.sys_bind trivial fun _ _ => ?_))
  exact (reads_load_string file_name).harmless.bind fun _ _ =>
    (harmless_create_file _ _ _).bind fun _ _ => harmless_release _

theorem harmless_k_remove (file_name : Nat) : Harmless (k_remove file_name) fun _ => True := by
  refine (reads_is_valid_filename file_name).harmless.bind fun _ _ =>
    .ite (.pure trivial) (.sys_bind trivial fun _ _ => ?_)
  exact (reads_load_string file_name).harmless.bind fun _ _ => .sys_bind trivial fun _ _ =>
    (peaceful_filesys_remove _).harmless.bind fun _ _ => harmless_release _

theorem harmless_k_open (file_name : Nat) : Harmless (k_open file_name) fun _ => True := by
  refine (reads_is_valid_filename file_name).harmless.bind fun _ _ =>
    .ite (.pure trivial) (.sys_bind trivial fun _ _ => ?_)
  refine (reads_load_string file_name).harmless.bind fun _ _ => .sys_bind trivial fun _ _ =>
    (peaceful_filesys_open _).harmless.bind fun r hr => ?_
  cases r with
  | none => exact harmless_release _
  | some o =>
    refine .sys_bind trivial fun files hfiles => .sys_bind ?_ fun _ _ => harmless_release _
    exact List.forall_mem_append.mpr ⟨hfiles, List.forall_mem_singleton.mpr (hr o rfl).1⟩

theorem harmless_k_filesize (fd : Int) : Harmless (k_filesize fd) fun _ => True := by
  refine .sys_bind trivial fun _ _ => (harmless_file_of fd).bind fun r _ => ?_
  cases r with
  | none => exact harmless_null_file_struct
  | some o => exact (peaceful_stat _).harmless.bind fun _ _ => harmless_release _

theorem harmless_k_write (fd : Int) (buffer size : Nat) :
    Harmless (k_write fd buffer size) fun _ => True := by
  refine .ite (.pure trivial) ((reads_is_full_valid_ptr _ _).harmless.bind fun _ _ =>
    .ite (.sys_bind trivial fun _ _ => .ite ?_ ?_) (harmless_exit _))
  · exact (reads_load_bytes _ _).harmless.bind fun _ _ =>
      .sys_bind trivial fun _ _ => harmless_release _
  · refine (harmless_file_of fd).bind fun r hr => ?_
    cases r with
    | none => exact harmless_release _
    | some o =>
      refine (peaceful_stat _).harmless.bind fun _ _ => .ite (harmless_release _) ?_
      exact (reads_load_bytes _ _).harmless.bind fun _ _ =>
        (peaceful_file_write (hr o rfl) _).harmless.bind fun _ h =>
          (harmless_update_file h).bind fun _ _ => harmless_release _

theorem harmless_k_read (fd : Int) (buffer size : Nat) :
    Harmless (k_read fd buffer size) fun _ => True := by
  have hgetc : ∀ n address, Harmless (getc_loop n address) fun _ => True := by
    intro n
    induction n with
    | zero => exact fun _ => .pure trivial
    | succ n ih =>
      exact fun address => .sys_bind trivial fun _ _ => .sys_bind trivial fun _ _ => ih _
  refine .ite (harmless_exit _) ((reads_is_full_valid_ptr _ _).harmless.bind fun _ _ =>
    .ite (.ite ((hgetc _ _).bind fun _ _ => .pure trivial) ?_) (harmless_exit _))
  refine (harmless_file_of fd).bind fun r hr => ?_
  cases r with
  | none => exact .pure trivial
  | some o =>
    refine .ite (.pure trivial) (.sys_bind trivial fun _ _ => ?_)
    exact (peaceful_file_read (hr o rfl) _).harmless.bind fun _ h =>
      (harmless_store_bytes _ _).bind fun _ _ =>
        (harmless_update_file h).bind fun _ _ => harmless_release _

theorem harmless_k_seek (fd : Int) (pos : Nat) : Harmless (k_seek fd pos) fun _ => True := by
  refine .sys_bind trivial fun _ _ => (harmless_file_of fd).bind fun r hr => ?_
  cases r with
  | none => exact harmless_null_file_struct
  | some o =>
    exact (peaceful_file_seek (hr o rfl) _).harmless.bind fun _ h =>
      (harmless_update_file h).bind fun _ _ => .mono (.sys trivial) fun _ _ => trivial

theorem harmless_k_tell (fd : Int) : Harmless (k_tell fd) fun _ => True := by
  refine .sys_bind trivial fun _ _ => (harmless_file_of fd).bind fun r _ => ?_
  cases r <;> exact harmless_release _

/-- `k_close` denies nothing because no descriptor does, and no `struct dir` seems to. -/
theorem harmless_k_close (fd : Int) : Harmless (k_close fd) fun _ => True := by
  refine (harmless_file_of fd).bind fun r hr => ?_
  cases r with
  | none => exact .pure trivial
  | some o =>
    refine .sys_bind trivial fun _ _ => .sys_bind trivial fun byte hbyte => ?_
    obtain rfl : byte = false := hbyte
    refine (peaceful_file_close (hr o rfl)).harmless.bind fun _ _ => ?_
    refine .sys_bind trivial fun files hfiles => .sys_bind ?_ fun _ _ =>
      .mono (.sys trivial) fun _ _ => trivial
    exact fun e he => hfiles e (mem_of_mem_eraseP he)

theorem harmless_k_chdir (path : Nat) : Harmless (k_chdir path) fun _ => True :=
  (reads_load_string path).harmless.bind fun _ _ => .sys_bind trivial fun _ _ =>
    (peaceful_filesys_chdir _).harmless.bind fun _ _ => .sys_bind trivial fun _ _ => .pure trivial

theorem harmless_k_mkdir (path : Nat) : Harmless (k_mkdir path) fun _ => True :=
  .sys_bind trivial fun _ _ => (reads_load_string path).harmless.bind fun _ _ =>
    (harmless_create_file _ _ _).bind fun _ _ => harmless_release _

theorem harmless_k_readdir (fd : Int) (path : Nat) : Harmless (k_readdir fd path) fun _ => True := by
  refine (harmless_file_of fd).bind fun r hr => ?_
  cases r with
  | none => exact .pure trivial
  | some o =>
    refine (peaceful_stat _).harmless.bind fun _ _ => .ite ?_ (.pure trivial)
    refine (peaceful_dir_readdir _).harmless.bind fun r _ =>
      (harmless_update_file ((hr o rfl).setPos _)).bind fun _ _ => ?_
    cases r.1 with
    | none => exact .pure trivial
    | some name => exact (harmless_store_bytes _ _).bind fun _ _ => .pure trivial

theorem harmless_k_isdir (fd : Int) : Harmless (k_isdir fd) fun _ => True := by
  refine (harmless_file_of fd).bind fun r _ => ?_
  cases r with
  | none => exact .pure trivial
  | some o => exact (peaceful_stat _).harmless

theorem harmless_k_inumber (fd : Int) : Harmless (k_inumber fd) fun _ => True := by
  refine (harmless_file_of fd).bind fun r _ => ?_
  cases r with
  | none => exact .pure trivial
  | some o => exact (peaceful_stat _).harmless.bind fun _ _ => .pure trivial

theorem harmless_exec (cmd_line : Nat) : Harmless (exec cmd_line) fun _ => True :=
  (reads_load_string cmd_line).harmless.bind fun _ _ => .sys_bind trivial fun _ _ =>
    .ite (harmless_exit _) (.sys_bind trivial fun _ _ => .pure trivial)

theorem harmless_word {α : Type} {f : Nat → SysProg α} {esp i : Nat}
    (h : ∀ w, Harmless (f w) fun _ => True) :
    Harmless (do let w ← load_word esp i; f w) fun _ => True :=
  (reads_load_word esp i).harmless.bind fun w _ => h w

theorem harmless_create_args (esp : Nat) : Harmless (create_args esp) fun _ => True :=
  harmless_word fun _ => harmless_word fun _ => harmless_word fun _ =>
    (harmless_is_valid_addr _).bind fun _ _ => (harmless_is_valid_addr _).bind fun _ _ =>
      .pure trivial

/-- No system call denies writes. -/
theorem harmless_dispatch (esp : Nat) (number : SyscallNumber) :
    Harmless (dispatch esp number) fun _ => True := by
  cases number with
  | SYS_HALT => exact ⟨trivial, fun e => nomatch e⟩
  | other => exact harmless_thread_exit
  | SYS_EXIT => exact harmless_word fun _ => harmless_exit _
  | SYS_WAIT => exact harmless_word fun _ => .map (.mono (.sys trivial) fun _ _ => trivial)
  | SYS_EXEC =>
    exact harmless_word fun _ => (harmless_is_valid_addr _).bind fun _ _ =>
      .map (harmless_exec _)
  | SYS_OPEN =>
    exact harmless_word fun _ => (harmless_is_valid_addr _).bind fun _ _ =>
      .map (harmless_k_open _)
  | SYS_READ => exact (harmless_create_args esp).bind fun _ _ => .map (harmless_k_read _ _ _)
  | SYS_WRITE => exact (harmless_create_args esp).bind fun _ _ => .map (harmless_k_write _ _ _)
  | SYS_CREATE => exact harmless_word fun _ => harmless_word fun _ => .map (harmless_k_create _ _)
  | SYS_SEEK =>
    exact harmless_word fun _ => harmless_word fun _ =>
      (harmless_k_seek _ _).bind fun _ _ => .pure trivial
  | SYS_READDIR => exact harmless_word fun _ => harmless_word fun _ => .map (harmless_k_readdir _ _)
  | SYS_CLOSE => exact harmless_word fun _ => (harmless_k_close _).bind fun _ _ => .pure trivial
  | SYS_REMOVE => exact harmless_word fun _ => .map (harmless_k_remove _)
  | SYS_CHDIR => exact harmless_word fun _ => .map (harmless_k_chdir _)
  | SYS_MKDIR => exact harmless_word fun _ => .map (harmless_k_mkdir _)
  | SYS_ISDIR => exact harmless_word fun _ => .map (harmless_k_isdir _)
  | SYS_INUMBER => exact harmless_word fun _ => .map (harmless_k_inumber _)
  | SYS_TELL => exact harmless_word fun _ => .map (harmless_k_tell _)
  | SYS_FILESIZE => exact harmless_word fun _ => .map (harmless_k_filesize _)

theorem harmless_syscall_handler (esp : Nat) : Harmless (syscall_handler esp) fun _ => True :=
  (harmless_is_valid_addr _).bind fun _ _ => (harmless_is_valid_addr _).bind fun _ _ =>
    harmless_word fun _ => harmless_dispatch _ _

/-! ### Loading -/

theorem harmless_load_segment_loop (writable : Bool) (turns : Nat) :
    ∀ {o : OpenFile} (upage read_bytes zero_bytes : Nat), o.Allows →
      Harmless (load_segment_loop writable turns o upage read_bytes zero_bytes)
        fun r => r.2.Allows := by
  induction turns with
  | zero =>
    intro o upage read_bytes zero_bytes h
    exact .ite (.pure h) peaceful_assert_failed.harmless
  | succ turns ih =>
    intro o upage read_bytes zero_bytes h
    refine .ite (.pure h) (.sys_bind trivial fun _ _ => .ite ?_ (.pure h))
    refine (peaceful_file_read h _).harmless.bind fun r hr => .ite ?_ (.pure hr)
    exact .sys_bind trivial fun _ _ => .ite (ih _ _ _ hr) (.pure hr)

theorem harmless_load_phdr (h : o.Allows) (phdr : List UInt8) :
    Harmless (load_phdr o phdr) fun r => r.2.Allows := by
  refine (peaceful_stat _).harmless.bind fun _ _ => .ite (.ite ?_ ?_) (.pure h)
  · exact (peaceful_file_seek h _).harmless.bind fun _ h' =>
      harmless_load_segment_loop _ _ _ _ _ h'
  · exact peaceful_assert_failed.harmless

theorem harmless_load_phdrs (n : Nat) : ∀ {o : OpenFile} (file_ofs : Int), o.Allows →
    Harmless (load_phdrs n o file_ofs) fun r => r.2.Allows := by
  induction n with
  | zero => exact fun _ h => .pure h
  | succ n ih =>
    intro o file_ofs h
    refine (peaceful_stat _).harmless.bind fun _ _ => .ite (.pure h) ?_
    refine (peaceful_file_seek h _).harmless.bind fun o₁ h₁ =>
      (peaceful_file_read h₁ _).harmless.bind fun r hr => .ite ?_ (.pure hr)
    split
    · exact ih _ hr
    · exact .pure hr
    · exact (harmless_load_phdr hr _).bind fun s hs => .ite (ih _ hs) (.pure hs)

theorem harmless_setup_arguments (token save_ptr : List UInt8) :
    Harmless (setup_arguments token save_ptr) fun _ => True := by
  have hargs : ∀ turns token save_ptr stack_pointer argc,
      Harmless (push_args turns token save_ptr stack_pointer argc) fun _ => True := by
    intro turns
    induction turns with
    | zero => exact fun _ _ _ _ => .pure trivial
    | succ turns ih =>
      intro token save_ptr stack_pointer argc
      refine (harmless_store_bytes _ _).bind fun _ _ => ?_
      split
      · exact .pure trivial
      · exact ih _ _ _ _
  have haddresses : ∀ argc stack_pointer args_pointer,
      Harmless (push_addresses argc stack_pointer args_pointer) fun _ => True := by
    intro argc
    induction argc with
    | zero => exact fun _ _ => .pure trivial
    | succ argc ih =>
      exact fun stack_pointer args_pointer => (harmless_store_bytes _ _).bind fun _ _ =>
        (reads_load_string _).harmless.bind fun _ _ => ih _ _
  exact (hargs _ _ _ _ _).bind fun _ _ => (harmless_store_bytes _ _).bind fun _ _ =>
    (haddresses _ _ _).bind fun _ _ => (harmless_store_bytes _ _).bind fun _ _ =>
      (harmless_store_bytes _ _).bind fun _ _ => (harmless_store_bytes _ _).bind fun _ _ =>
        .pure trivial

theorem harmless_load_file (h : o.Allows) (token save_ptr : List UInt8) :
    Harmless (load_file o token save_ptr) fun r => r.2.Allows := by
  have hstack : Harmless setup_stack fun _ => True :=
    .sys_bind trivial fun _ _ => .ite (.sys trivial) (.pure trivial)
  refine (peaceful_file_read h _).harmless.bind fun r hr => .ite ?_ (.pure hr)
  refine (harmless_load_phdrs _ _ hr).bind fun s hs => .ite ?_ (.pure hs)
  refine hstack.bind fun _ _ => .ite ?_ (.pure hs)
  exact (harmless_setup_arguments _ _).bind fun _ _ => .pure hs

end Calls

/-! ### On the machine -/

section Machine

variable {α β : Type} {env : Env} {c : Caller Fs} {p : SysProg α} {Q : α → Prop} {k : Fs}

/-- Nothing denies writes. -/
structure Caller.Allowing (c : Caller Fs) : Prop where
  fs : Undenied c.fs
  files : FilesAllow c.file_struct_list

/-- Where nothing denies writes, the program leaves nothing that does, whether it returns or ends the
process; what it returns is in `Q`. -/
def KeepsAllowing (env : Env) (p : SysProg α) (Q : α → Prop) : Prop :=
  ∀ c : Caller Fs, c.fate = .running → c.Allowing →
    (p.run (sys_api disk_api env)).Ends c (fun a c' => Q a ∧ c'.fate = .running ∧ c'.Allowing) ∧
    ∀ es c', p.run (sys_api disk_api env) c = (es, .panic c') → c'.fate = .ended → c'.Allowing

theorem KeepsAllowing.bind {f : α → SysProg β} {P : β → Prop} (h : KeepsAllowing env p Q)
    (hf : ∀ a, Q a → KeepsAllowing env (f a) P) : KeepsAllowing env (p >>= f) P := by
  intro c hc hal
  obtain ⟨hends, hpanic⟩ := h c hc hal
  refine ⟨Prog.ends_bind hends fun a c' ⟨ha, hc', hal'⟩ => (hf a ha c' hc' hal').1, ?_⟩
  intro es c' hr he
  rw [Prog.run_bind] at hr
  obtain ⟨es₁, x, hx⟩ : ∃ es₁ x, p.run (sys_api disk_api env) c = (es₁, x) := ⟨_, _, rfl⟩
  cases x with
  | panic c₁ =>
    rw [Machine.bind_run_panic hx] at hr
    cases hr
    exact hpanic _ _ hx he
  | done a c₁ =>
    obtain ⟨ha, hc₁, hal₁⟩ := hends hx
    rw [Machine.bind_run_done hx] at hr
    exact (hf a ha c₁ hc₁ hal₁).2 _ _ (Prod.ext rfl (Prod.mk.inj hr).2) he

theorem keepsAllowing_sys {o : SysOp} (henv : env.byte_after_dir = false) (ho : denies_nothing o)
    (hc : c.fate = .running) (hal : c.Allowing) : (sys_api disk_api env o).Ends c fun r c' =>
      nothing_denied o r ∧ c'.fate = .running ∧ c'.Allowing := by
  have hrun : (sys_api disk_api env o).Ends c fun _ c' => c'.fate = .running :=
    sys_api_running o c hc
  suffices h : (sys_api disk_api env o).Ends c fun r c' => nothing_denied o r ∧ c'.Allowing from
    fun es r c' hr => ⟨(h hr).1, hrun hr, (h hr).2⟩
  cases o with
  | fs o =>
    refine .zoom ((disk_api_undenied o c.fs ho hal.fs).mono fun _ _ hk => ?_)
    exact ⟨trivial, hk, hal.files⟩
  | set_file_struct_list files => exact .modify ⟨trivial, hal.fs, ho⟩
  | file_struct_list => exact .get_bind (.pure ⟨hal.files, hal⟩)
  | byte_after_dir => exact .pure ⟨henv, hal⟩
  | pagedir_get_page =>
    exact .get_bind (.ite (fun _ => .pure ⟨trivial, hal⟩) fun _ => .panic)
  | load =>
    refine .get_bind (.ite (fun _ => .pure ⟨trivial, hal⟩) fun _ => ?_)
    exact .modify_bind Machine.Ends.panic
  | store =>
    refine .get_bind (.ite (fun _ => .modify ⟨trivial, hal.fs, hal.files⟩) fun _ => ?_)
    exact .modify_bind Machine.Ends.panic
  | lock_acquire =>
    exact .get_bind (.ite (fun _ => .panic) fun _ => .modify ⟨trivial, hal.fs, hal.files⟩)
  | lock_release =>
    exact .get_bind (.ite (fun _ => .modify ⟨trivial, hal.fs, hal.files⟩) fun _ => .panic)
  | install_page =>
    refine .get_bind (.modify_bind (.ite (fun _ => .pure ⟨trivial, hal.fs, hal.files⟩) fun _ => ?_))
    exact .modify_bind (.pure ⟨trivial, hal.fs, hal.files⟩)
  | input_getc | palloc_get_page | pagedir_create =>
    exact .get_bind (.modify_bind (.pure ⟨trivial, hal.fs, hal.files⟩))
  | current_dir => exact .get_bind (.pure ⟨trivial, hal⟩)
  | set_current_dir | set_is_loaded => exact .modify ⟨trivial, hal.fs, hal.files⟩
  | null_file_struct | exit | thread_exit | shutdown_power_off => exact fun _ r => nomatch r
  | _ => exact .pure ⟨trivial, hal⟩

theorem Harmless.keepsAllowing (henv : env.byte_after_dir = false) (h : Harmless p Q) :
    KeepsAllowing env p Q := by
  have hI : ∀ o (_ : Unit) (c : Caller Fs), denies_nothing o → c.fate = .running ∧ c.Allowing →
      (sys_api disk_api env o).Ends c fun r c' => ∃ _ : Unit, nothing_denied o r ∧
        c'.fate = .running ∧ c'.Allowing :=
    fun o _ c ho hc => (keepsAllowing_sys henv ho hc.1 hc.2).mono fun _ _ h => ⟨(), h⟩
  have hF : ∀ o (_ : Unit) (c : Caller Fs) es c', denies_nothing o → c.fate = .running ∧ c.Allowing →
      sys_api disk_api env o c = (es, .panic c') → c'.fate = .ended → c'.Allowing := by
    intro o _ c es c' _ hc hr he
    obtain ⟨-, c₁, rfl, hfs, hfiles⟩ := sys_api_ended hc.1 hr he
    exact ⟨hfs ▸ hc.2.fs, hfiles ▸ hc.2.files⟩
  refine fun c hc hal => ⟨?_, fun es c' hr he => ?_⟩
  · exact (Prog.Meets.ends hI h ⟨hc, hal⟩).mono fun a c' ⟨_, ha, hc'⟩ => ⟨ha, hc'⟩
  · exact Prog.Meets.panics hI hF h ⟨hc, hal⟩ hr he

/-- A program of the file system that leaves no inode denied. -/
theorem keepsAllowing_on_fs {q : FsProg α}
    (h : ∀ k, Undenied k → (q.run disk_api).Ends k fun a k' => Q a ∧ Undenied k') :
    KeepsAllowing env (on_fs q) Q := by
  refine fun c hc hal => ⟨?_, fun es c' hr he => ?_⟩
  · exact on_fs_ends ((h c.fs hal.fs).mono fun a k' hk => ⟨hk.1, hc, hk.2, hal.files⟩)
  · rw [run_on_fs] at hr
    simp only [Machine.zoom] at hr
    split at hr
    · cases hr
    · cases hr
      cases hc.symm.trans he

/-- The end of a successful `load`: what `file_deny_write` denies, `file_close` allows again. -/
theorem deny_close_undenied {o : OpenFile} (ho : o.Allows) (h : Undenied k) :
    ((do let r ← file_deny_write o false; file_close r.1 r.2).run disk_api).Ends k
      fun _ k' => True ∧ Undenied k' := by
  have hflag : o.deny_write false = false := by
    cases o with
    | dir d => rfl
    | file f => exact ho f rfl
  have hprog : (do let r ← file_deny_write o false; file_close r.1 r.2) = (do
      call (.inode_deny_write o.inode)
      call (.inode_allow_write o.inode)
      call (.inode_close (some o.inode))) := by
    rw [file_deny_write, hflag]
    cases o <;> rfl
  rw [hprog]
  refine Prog.ends_bind (Q := fun _ k₁ => ∃ i, k.mem o.inode = some i ∧
    k₁ = k.setInode o.inode { i with deny_write_cnt := i.deny_write_cnt + 1 }) ?_ ?_
  · exact Prog.ends_op (deref_bind_ends fun i hp => .modify_bind (.ite
      (fun _ => .pure ⟨i, hp, rfl⟩) fun _ => .panic))
  rintro - _ ⟨i, hi, rfl⟩
  have hzero : i.deny_write_cnt = 0 := h _ i hi
  refine Prog.ends_bind (Prog.ends_op (deref_bind_ends fun j hj => .ite
    (fun _ => .modify (Q := fun _ => Undenied) ?_) fun _ => .panic))
    fun _ k₂ h₂ => (Peaceful.undenied (peaceful_call rfl) h₂)
  rw [Kernel.setInode_mem, if_pos rfl] at hj
  obtain rfl := Option.some.inj hj
  intro q l hq
  rw [Kernel.setInode_mem] at hq
  split at hq
  · cases hq
    show i.deny_write_cnt + 1 - 1 = 0
    omega
  · rename_i hne
    rw [Kernel.setInode_mem, if_neg hne] at hq
    exact h q l hq

theorem keepsAllowing_load_done (henv : env.byte_after_dir = false) (success : Bool) {o : OpenFile}
    (ho : o.Allows) : KeepsAllowing env (load_done success o) fun _ => True := by
  refine (Harmless.sys (o := .byte_after_dir) trivial |>.keepsAllowing henv).bind fun byte hbyte => ?_
  obtain rfl : byte = false := hbyte
  cases success with
  | false => exact (peaceful_file_close ho).harmless.keepsAllowing henv
  | true =>
    rw [← on_fs_bind]
    exact keepsAllowing_on_fs fun k hk => deny_close_undenied ho hk

theorem keepsAllowing_load (henv : env.byte_after_dir = false) (file_name : List UInt8) :
    KeepsAllowing env (load file_name) fun _ => True := by
  have hpure : ∀ a : Option (Nat × Nat), KeepsAllowing env (pure a) fun _ => True :=
    fun a => (Harmless.pure trivial).keepsAllowing henv
  refine ((Harmless.sys (o := .pagedir_create) trivial).keepsAllowing henv).bind fun pagedir _ => ?_
  split
  · split
    · exact peaceful_assert_failed.harmless.keepsAllowing henv
    · refine ((Harmless.sys (o := .current_dir) trivial).keepsAllowing henv).bind fun _ _ => ?_
      refine ((peaceful_filesys_open _).harmless.keepsAllowing henv).bind fun r hr => ?_
      cases r with
      | none => exact hpure none
      | some o =>
        refine ((harmless_load_file (hr o rfl).1 _ _).keepsAllowing henv).bind fun r hr => ?_
        exact (keepsAllowing_load_done henv _ hr).bind fun _ _ => hpure _
  · exact hpure none

/-- A process that starts leaves nothing that denies writes, its executable included. -/
theorem keepsAllowing_start_process (henv : env.byte_after_dir = false) (file_name : List UInt8) :
    KeepsAllowing env (start_process file_name) fun _ => True := by
  refine (keepsAllowing_load henv file_name).bind fun success _ => ?_
  refine ((Harmless.sys (o := .set_is_loaded _) trivial).keepsAllowing henv).bind fun _ _ => ?_
  cases success with
  | none => exact harmless_thread_exit.keepsAllowing henv
  | some start => exact (Harmless.pure trivial).keepsAllowing henv

end Machine

/-! ### Running programs -/

/-- The file system and `n` processes, with the sector of the executable of each one that runs a
program. -/
structure Os (n : Nat) where
  fs : Fs
  file_lock : Bool
  process : Fin n → Caller Unit
  executable : Fin n → Option Sector

/-- What happens between two system calls. -/
inductive OsStep (n : Nat) where
  /-- The program of `t` computes. -/
  | user (t : Fin n) (memory : Nat → UInt8)
  | syscall (t : Fin n) (esp : Nat) (env : Env)
  /-- The program of `t` causes an exception. -/
  | exception (t : Fin n) (env : Env)
  /-- A thread made by `parent`, or by the kernel, starts as process `t`. -/
  | start (parent : Option (Fin n)) (t : Fin n) (file_name : List UInt8) (pool : Nat → Bool)
      (env : Env)

/-- The directory that `thread_create` gives a thread. -/
def thread_dir : Option Dir → FsProg (Option Dir)
  | some dir => dir_reopen dir
  | none => pure none

/-- The sector of the inode that `load` opens. -/
def executable_sector (file_name : List UInt8) (c : Caller Fs) : Option Sector := do
  let (token, _) ← strtok_r (c_string file_name) [32]
  match (filesys_open c.current_dir token).run disk_api c.fs with
  | (_, .done (some file) k) => (k.mem file.inode).map Inode.sector
  | _ => none

namespace Os

variable {n : Nat}

/-- The process `t`, as the kernel sees it in a system call. -/
def caller (s : Os n) (t : Fin n) : Caller Fs :=
  { (s.process t).onFs s.fs with file_lock := s.file_lock }

/-- Process `t` is left in the state `c`. -/
def back (s : Os n) (t : Fin n) (c : Caller Fs) : Os n :=
  { s with
    fs := c.fs
    file_lock := c.file_lock
    process := update s.process t (c.onFs ()) }

/-- The kernel has run for process `t`, which goes on or has ended. -/
def after {α : Type} (s : Os n) (t : Fin n) : List Event × Outcome (Caller Fs) α → Option (Os n)
  | (_, .done _ c) => some (s.back t c)
  | (_, .panic c) => if c.fate = .ended then some (s.back t c) else none

/-- The thread that runs `start_process` as process `t`. -/
def thread (s : Os n) (t : Fin n) (k : Fs) (dir : Option Dir) (pool : Nat → Bool) : Caller Fs :=
  { s.caller t with
    fs := k
    pagedir := ∅
    file_struct_list := []
    current_dir := dir
    child := create_child_process
    pool := pool
    fate := .running }

/-- A step, if it can be taken and the kernel does not panic. -/
def perform (s : Os n) : OsStep n → Option (Os n)
  | .user t memory => some (s.back t { s.caller t with memory := memory })
  | .syscall t esp env =>
    if (s.process t).fate = .running then
      s.after t ((syscall_handler esp).run (sys_api disk_api env) (s.caller t))
    else none
  | .exception t env =>
    if (s.process t).fate = .running then
      s.after t (kill.run (sys_api disk_api env) (s.caller t))
    else none
  | .start parent t file_name pool env =>
    if (s.process t).fate = .running then none
    else
      match (thread_dir (parent.bind fun r => (s.process r).current_dir)).run disk_api s.fs with
      | (_, .done dir k) =>
        let c := s.thread t k dir pool
        let sector := executable_sector file_name c
        (s.after t ((start_process file_name).run (sys_api disk_api env) c)).map fun s' =>
          { s' with executable := update s'.executable t sector }
      | _ => none

end Os

/-- A null byte follows the `struct dir` that the step may close. -/
def OsStep.NullAfterDir {n : Nat} : OsStep n → Prop
  | .syscall _ _ env | .start _ _ _ _ env => env.byte_after_dir = false
  | _ => True

section Runs

variable {n : Nat} {s s' s₀ : Os n} {step : OsStep n} {t : Fin n} {c : Caller Fs}

/-- The states of the runs from `s₀` in which a null byte follows every `struct dir` that is
closed. -/
inductive Os.Reached (s₀ : Os n) : Os n → Prop where
  | start : Reached s₀ s₀
  | step {s s' : Os n} {step : OsStep n} (h : Reached s₀ s) (hstep : step.NullAfterDir)
      (hs : s.perform step = some s') : Reached s₀ s'

/-- No inode and no descriptor denies writes. -/
structure Os.Allowing (s : Os n) : Prop where
  fs : Undenied s.fs
  files : ∀ t, FilesAllow (s.process t).file_struct_list

theorem Os.Allowing.caller (h : s.Allowing) (t : Fin n) : (s.caller t).Allowing :=
  ⟨h.fs, h.files t⟩

theorem Os.Allowing.back (h : s.Allowing) (hc : c.Allowing) : (s.back t c).Allowing := by
  refine ⟨hc.fs, fun r => ?_⟩
  by_cases e : r = t
  · subst e
    simp only [Os.back, update_self]
    exact hc.files
  · simp only [Os.back, update_of_ne e]
    exact h.files r

/-- What the kernel does for a process. -/
theorem Os.Allowing.after {α : Type} {p : SysProg α} {env : Env} {Q : α → Prop} (h : s.Allowing)
    (hp : KeepsAllowing env p Q) (hc : c.fate = .running) (hal : c.Allowing)
    (hs : s.after t (p.run (sys_api disk_api env) c) = some s') : s'.Allowing := by
  obtain ⟨hends, hpanic⟩ := hp c hc hal
  obtain ⟨es, x, hx⟩ : ∃ es x, p.run (sys_api disk_api env) c = (es, x) := ⟨_, _, rfl⟩
  rw [hx] at hs
  cases x with
  | done a c' =>
    obtain rfl := Option.some.inj hs
    exact h.back (hends hx).2.2
  | panic c' =>
    rw [Os.after] at hs
    split at hs
    · obtain rfl := Option.some.inj hs
      exact h.back (hpanic _ _ hx ‹_›)
    · cases hs

theorem Os.Allowing.perform (h : s.Allowing) (hstep : step.NullAfterDir)
    (hs : s.perform step = some s') : s'.Allowing := by
  cases step with
  | user t memory =>
    obtain rfl := Option.some.inj hs
    exact h.back ⟨h.fs, h.files t⟩
  | syscall t esp env =>
    rw [Os.perform] at hs
    split at hs
    · exact h.after ((harmless_syscall_handler esp).keepsAllowing hstep) ‹_› (h.caller t) hs
    · cases hs
  | exception t env =>
    rw [Os.perform] at hs
    split at hs
    · rename_i hrun
      cases hs
      exact h.back ⟨h.fs, h.files t⟩
    · cases hs
  | start parent t file_name pool env =>
    rw [Os.perform] at hs
    split at hs
    · cases hs
    split at hs
    · rename_i es dir k hk
      have hdir : Peaceful (thread_dir (parent.bind fun r => (s.process r).current_dir))
          fun _ => True := by
        cases parent.bind fun r => (s.process r).current_dir with
        | none => exact .pure trivial
        | some d => exact (peaceful_dir_reopen d).mono fun _ _ => trivial
      have hund : Undenied k := (hdir.undenied h.fs hk).2
      obtain ⟨s₁, hs₁, rfl⟩ := Option.map_eq_some_iff.mp hs
      have hthread : (s.thread t k dir pool).Allowing := ⟨hund, forall_mem_nil _⟩
      have h₁ := h.after (keepsAllowing_start_process hstep file_name) rfl hthread hs₁
      exact ⟨h₁.fs, h₁.files⟩
    · cases hs

/-- Between two system calls no inode refuses writes. -/
theorem Os.Reached.allowing (h₀ : s₀.Allowing) (hr : s₀.Reached s) : s.Allowing := by
  induction hr with
  | start => exact h₀
  | step _ hstep hs ih => exact ih.perform hstep hs

end Runs

/-! ### Writes to an executable -/

section Writes

variable {n : Nat} {s s₀ : Os n} {p : Addr} {i : Inode InodeDisk} {k k' : Fs} {es : List Event}
  {buffer : List UInt8} {offset m : Nat}

/-- The inode `i` at `p` and the bytes of the file are the same. -/
structure SameFile (i : Inode InodeDisk) (p : Addr) (k k' : Fs) : Prop where
  inode : k'.mem p = some i
  bytes : ∀ pos < i.data.length,
    byteAt k'.dev.device i.data pos = byteAt k.dev.device i.data pos

/-- The write does not extend a file of `length` bytes, and has no byte for it. -/
def NothingToWrite (length : Nat) (buffer : List UInt8) (offset : Nat) : Prop :=
  wrap32 (offset + buffer.length) ≤ length ∧ (buffer = [] ∨ length ≤ offset)

theorem inode_write_loop_nothing {d : InodeDisk} {dev : Device} (fuel : Nat)
    (h : buffer = [] ∨ d.length ≤ offset) :
    inode_write_loop d fuel buffer offset dev = ([], .done 0 dev) := by
  cases fuel with
  | zero => rfl
  | succ fuel =>
    unfold inode_write_loop
    split
    · rfl
    · rename_i hb
      have hofs : d.length ≤ offset := h.resolve_left fun e => hb (by rw [e]; rfl)
      have hsector : byte_to_sector d offset dev = ([], .done 4294967295 dev) := by
        rw [byte_to_sector, if_neg (by omega)]
        rfl
      have hchunk : chunk_size d buffer.length offset = 0 := by
        rw [chunk_size]
        omega
      rw [Machine.bind_run_silent hsector rfl, hchunk]
      rfl

/-- On an inode that refuses no writes, a write leaves the file as it is exactly if it has nothing to
write. -/
theorem inode_write_at_nothing (hp : k.mem p = some i) (hd : i.deny_write_cnt = 0)
    (hw : inode_write_at p buffer offset k = (es, .done m k')) :
    m = 0 ∧ SameFile i p k k' ↔ NothingToWrite i.data.length buffer offset := by
  obtain ⟨_, j, k₁, _, hj, hw, -⟩ := Machine.bind_done hw
  rw [deref_run hp] at hj
  cases hj
  rw [if_neg (by simpa using hd)] at hw
  obtain ⟨_, data, k₂, _, hx, hw, -⟩ := Machine.bind_done hw
  obtain ⟨_, _, k₃, _, hset, hw, -⟩ := Machine.bind_done hw
  cases hset
  obtain ⟨dev, hl, rfl⟩ := onDevice_done hw
  have hm : m = min buffer.length (data.length - offset) := inode_write_loop_done _ le_rfl hl
  have hmem : ((k₂.setInode p { i with data := data }).setDevice dev).mem p =
      some { i with data := data } := (Kernel.setInode_mem ..).trans (if_pos rfl)
  by_cases hext : (i.data.length : Int) < wrap32 (offset + buffer.length)
  · -- the file gets longer
    refine iff_of_false (fun h => ?_) fun h => absurd h.1 (by omega)
    rw [inode_extend, if_pos hext] at hx
    split at hx
    · cases hx
    obtain ⟨_, r, _, _, hg, hr, -⟩ := Machine.bind_done hx
    cases hr
    have hlen : r.2.length = (wrap32 (offset + buffer.length)).toNat := (inode_grow_done hg).2.1
    have hsame := Option.some.inj (hmem.symm.trans h.2.inode)
    have hdata : r.2 = i.data := (Inode.mk.inj hsame).2.2.2.2.2
    rw [hdata] at hlen
    omega
  · rw [inode_extend, if_neg hext] at hx
    cases hx
    constructor
    · rintro ⟨h, -⟩
      refine ⟨by omega, ?_⟩
      by_cases hb : buffer = []
      · exact .inl hb
      · have := List.length_pos_iff.mpr hb
        exact .inr (by omega)
    · rintro ⟨-, h⟩
      rw [inode_write_loop_nothing _ h] at hl
      cases hl
      exact ⟨rfl, hmem, fun _ _ => rfl⟩

/-- The inode `i` at `p` is that of a program that runs. -/
def Os.RunsFrom (s : Os n) (p : Addr) (i : Inode InodeDisk) : Prop :=
  s.fs.mem p = some i ∧
    ∃ t, (s.process t).fate = .running ∧ s.executable t = some i.sector

/-- **Writes to a running program.**  In a run in which a null byte follows every `struct dir` that
is closed, a write to the inode of a running program returns 0 and leaves the file as it is exactly
if it has nothing to write. -/
theorem executable_write_iff (h₀ : s₀.Allowing) (hr : s₀.Reached s) (hp : s.RunsFrom p i)
    (hw : disk_api (.inode_write_at p buffer offset) s.fs = (es, .done m k')) :
    m = 0 ∧ SameFile i p s.fs k' ↔ NothingToWrite i.data.length buffer offset :=
  inode_write_at_nothing hp.1 ((hr.allowing h₀).fs p i hp.1) hw

/-- The stack of a system call at `esp`. -/
def call_stack (esp : Nat) (words : List Nat) (a : Nat) : UInt8 :=
  Bytes.leByte (words.getD ((a - esp) / 4) 0) ((a - esp) % 4)

/-- A program without segments. -/
def program_header : List UInt8 :=
  [0x7f, 0x45, 0x4c, 0x46, 1, 1, 1] ++ List.replicate 9 0 ++ [2, 0, 3, 0, 1, 0, 0, 0] ++
    List.replicate 18 0 ++ [32, 0] ++ List.replicate 8 0

/-- The program is the file `a`, of sector 3; process 0 has not started, and process 1 runs. -/
def programOs : Os 2 where
  fs := smallFs.setDevice { smallFs.dev.device with
    disk := fun t =>
      if t = ROOT_DIR_SECTOR then InodeDisk.toBlock { InodeDisk.fresh true with
        blocks := update (fun _ => 0) 0 5, direct_count := 1, length := ENTRY_SIZE }
      else if t = 4 then Bytes.zero.write 0 program_header
      else if t = 5 then Bytes.zero.write 0 ([3, 0, 0, 0, 97] ++ List.replicate 14 0 ++ [1])
      else smallFs.dev.device.disk t }
  file_lock := false
  process := fun t => { chdirCaller.onFs () with fate := if t = 0 then .ended else .running }
  executable := fun _ => none

/-- Process 0 starts the program, and process 1 opens its file. -/
def openSteps : List (OsStep 2) :=
  [.start none 0 [97] (fun _ => true) quietEnv,
    .user 1 (call_stack 4096 [6, 4112, 0, 0, 97]), .syscall 1 4096 quietEnv]

theorem programOs_allowing : programOs.Allowing := by
  refine ⟨fun p i hp => ?_, fun t => forall_mem_nil _⟩
  by_cases e : p = 0
  · subst e
    obtain rfl := Option.some.inj hp
    rfl
  · have : programOs.fs.mem p = none := if_neg e
    exact nomatch this.symm.trans hp

theorem Os.Reached.foldlM {steps : List (OsStep n)} (hstep : ∀ step ∈ steps, step.NullAfterDir) :
    ∀ {s₁ : Os n}, s₀.Reached s₁ → steps.foldlM Os.perform s₁ = some s → s₀.Reached s := by
  induction steps with
  | nil =>
    intro s₁ h hs
    obtain rfl := Option.some.inj hs
    exact h
  | cons step steps ih =>
    intro s₁ h hs
    obtain ⟨s₂, h₂, hs⟩ := Option.bind_eq_some_iff.mp hs
    obtain ⟨hnull, hrest⟩ := List.forall_mem_cons.mp hstep
    exact ih hrest (h.step hnull h₂) hs

/-- The file of the program is open at address 4, and a byte is written to it. -/
theorem executable_write_programOs : ∃ s i es m k', programOs.Reached s ∧ s.RunsFrom 4 i ∧
      disk_api (.inode_write_at 4 [65] 0) s.fs = (es, .done m k') ∧
      ¬ (m = 0 ∧ SameFile i 4 s.fs k') := by
  have hrun : (openSteps.foldlM Os.perform programOs).map (fun s =>
      ((s.process 0).fate, s.executable 0, (s.fs.mem 4).map Inode.sector,
        (returned (disk_api (.inode_write_at 4 [65] 0) s.fs)).isSome)) =
      some (.running, some 3, some 3, true) := by
    decide +kernel
  obtain ⟨s, hs, hlook⟩ := Option.map_eq_some_iff.mp hrun
  obtain ⟨hfate, hexe, hmem, hret⟩ : (s.process 0).fate = .running ∧ s.executable 0 = some 3 ∧
      (s.fs.mem 4).map Inode.sector = some 3 ∧
      (returned (disk_api (.inode_write_at 4 [65] 0) s.fs)).isSome = true := by
    simpa only [Prod.mk.injEq] using hlook
  obtain ⟨i, hi, hsector⟩ := Option.map_eq_some_iff.mp hmem
  obtain ⟨⟨es, m, k'⟩, hw⟩ := Option.isSome_iff_exists.mp hret
  have hnull : ∀ step ∈ openSteps, step.NullAfterDir := by
    simp only [openSteps, List.forall_mem_cons]
    exact ⟨rfl, trivial, rfl, forall_mem_nil _⟩
  have hr : programOs.Reached s := Os.Reached.foldlM hnull .start hs
  have hp : s.RunsFrom 4 i := ⟨hi, 0, hfate, by rw [hexe, hsector]⟩
  refine ⟨s, i, es, m, k', hr, hp, returned_eq_some hw, fun h => ?_⟩
  obtain ⟨hle, hb | hofs⟩ :=
    (executable_write_iff programOs_allowing hr hp (returned_eq_some hw)).mp h
  · cases hb
  · have hone : wrap32 ((0 : Nat) + ([65] : List UInt8).length) = 1 := by decide
    omega

/-- The first byte of the file of sector 3. -/
def first_byte (k : Fs) : Option (List UInt8) := do
  let (_, p, k) ← returned (disk_api (.inode_open 3) k)
  let (_, bytes, _) ← returned (disk_api (.inode_read_at p 1 0) k)
  pure bytes

/-- Process 1 writes to the file of the program that process 0 runs, and the file changes. -/
theorem running_program_overwritten : (openSteps.foldlM Os.perform programOs).map (fun s =>
        ((s.process 0).fate, s.executable 0, first_byte s.fs)) =
      some (.running, some 3, some [0x7f]) ∧
    ((openSteps ++ ([.user 1 (call_stack 4096 [9, 2, 4112, 1, 65]),
        .syscall 1 4096 quietEnv] : List (OsStep 2))).foldlM
        Os.perform programOs).map (fun s =>
        ((s.process 0).fate, s.executable 0, first_byte s.fs)) =
      some (.running, some 3, some [65]) := by
  decide +kernel

end Writes

end Pintos
