import Pintos.Userprog.Endings

/-!
# Userprog — the buffers that `read` and `write` accept

`create_args` looks at the first byte of a buffer and at the byte after its last one,
`is_full_valid_ptr` at every byte.  The byte after the last is none of the buffer: a buffer that
ends where the mapped pages end, or at `PHYS_BASE`, is refused, though every byte of it is mapped.
A buffer of no bytes is looked at as well, and `k_read` turns a null one down.

`buffers_accepted_iff` says, for each of the two calls, which mappings it decides as it should:
those where the buffer is not mapped, or the bytes that `create_args` looks at are mapped too.
-/

namespace Pintos
open Support
open Prog (run_bind_silent run_silent run_bind ends_bind ends_op)
open Machine (bind_run_silent get_run bind_run_panic bind_run)

variable {K : Type} {I : FsApi K} {env : Env} {c : Caller K}
  {esp buffer size address : Nat} {fd : Int} {file : OpenFile} {α : Type}

/-- Every byte of the buffer is an address of the user, mapped and not null. -/
def BufferMapped (pages : Finset Nat) (buffer size : Nat) : Prop :=
  ∀ j < size, ptr (buffer + j) ≠ 0 ∧ UserMapped pages (ptr (buffer + j))

instance (pages : Finset Nat) (buffer size : Nat) : Decidable (BufferMapped pages buffer size) :=
  inferInstanceAs (Decidable (∀ j < size, _))

theorem bufferMapped_succ {pages : Finset Nat} : BufferMapped pages address (size + 1) ↔
    (ptr address ≠ 0 ∧ UserMapped pages (ptr address)) ∧ BufferMapped pages (address + 1) size := by
  refine Nat.forall_lt_succ_left'.trans (and_congr_right fun _ => forall₂_congr fun j _ => ?_)
  rw [Nat.add_right_comm, Nat.add_assoc]

/-- The arguments of `read` and `write`, on the stack. -/
structure BufferArgs (c : Caller K) (esp : Nat) (fd : Int) (buffer size : Nat) : Prop where
  mapped : ∀ i, 1 ≤ i → i ≤ 3 → WordMapped c.pagedir esp i
  fd : wrap32 (wordAt c.memory esp 1) = fd
  buffer : wordAt c.memory esp 2 = buffer
  size : wordAt c.memory esp 3 = size

/-- `k_read` from the file operation on. -/
def read_file (fd : Int) (file : OpenFile) (buffer size : Nat) : SysProg Int := do
  sys .lock_acquire
  let r ← on_fs (file_read file (wrap32 size))
  store_bytes r.1 buffer
  update_file fd r.2
  sys .lock_release
  pure r.1.length

/-- `k_write` from the file operation on. -/
def write_file (fd : Int) (file : OpenFile) (buffer size : Nat) : SysProg Int := do
  sys .lock_acquire
  let bytes ← load_bytes size buffer
  let r ← on_fs (file_write file bytes)
  update_file fd r.2
  sys .lock_release
  pure r.1

/-- The process has ended with the status −1. -/
def exited {α : Type} (c : Caller K) : List Event × Outcome (Caller K) α :=
  ([], .panic ((c.set_status (-1)).process_exit))

/-! ### The checks -/

theorem is_mapped_run : (is_mapped address).run (sys_api I env) c =
    ([], .done (decide (UserMapped c.pagedir (ptr address))) c) := by
  unfold is_mapped
  by_cases h : is_user_vaddr (ptr address) = true
  · have hlt : ptr address < PHYS_BASE := of_decide_eq_true h
    have hget : sys_api I env (.pagedir_get_page (ptr address)) c =
        ([], .done (decide (ptr address / PGSIZE ∈ c.pagedir)) c) :=
      bind_run_silent (get_run c) (by rw [if_pos h]; rfl)
    rw [if_pos h, Prog.run_op, hget]
    simp only [UserMapped, hlt, true_and]
  · have hlt : ¬ ptr address < PHYS_BASE := fun hlt => h (decide_eq_true hlt)
    rw [if_neg h, decide_eq_false fun hm : UserMapped c.pagedir (ptr address) => hlt hm.1]
    rfl

theorem is_valid_addr_run : (is_valid_addr address).run (sys_api I env) c =
    if UserMapped c.pagedir (ptr address) then ([], .done () c) else exited c := by
  refine run_bind_silent is_mapped_run ?_
  by_cases h : UserMapped c.pagedir (ptr address)
  · rw [decide_eq_true h, if_pos rfl, if_pos h]
    rfl
  · rw [decide_eq_false h, if_neg Bool.false_ne_true, if_neg h]
    rfl

theorem is_valid_ptr_run : (is_valid_ptr address).run (sys_api I env) c =
    ([], .done (decide (ptr address ≠ 0 ∧ UserMapped c.pagedir (ptr address))) c) := by
  unfold is_valid_ptr
  by_cases h : ptr address = 0
  · rw [if_pos h, decide_eq_false fun hm => hm.1 h]
    rfl
  · rw [if_neg h, is_mapped_run]
    simp only [ne_eq, h, not_false_eq_true, true_and]

theorem is_full_valid_ptr_run : (is_full_valid_ptr address size).run (sys_api I env) c =
    ([], .done (decide (BufferMapped c.pagedir address size)) c) := by
  induction size generalizing address with
  | zero =>
    rw [decide_eq_true (p := BufferMapped c.pagedir address 0) nofun]
    rfl
  | succ size ih =>
    refine run_bind_silent is_valid_ptr_run ?_
    by_cases h : ptr address ≠ 0 ∧ UserMapped c.pagedir (ptr address)
    · have hiff : BufferMapped c.pagedir address (size + 1) ↔
          BufferMapped c.pagedir (address + 1) size :=
        bufferMapped_succ.trans (and_iff_right h)
      rw [decide_eq_true h, if_pos rfl, ih]
      simp only [hiff]
    · rw [decide_eq_false h, if_neg Bool.false_ne_true,
        decide_eq_false fun hm => h (bufferMapped_succ.mp hm).1]
      rfl

theorem load_bytes_run {n : Nat} (h : BytesMapped c.pagedir address n) :
    (load_bytes n address).run (sys_api I env) c =
      ([], .done ((List.range n).map fun i => c.memory (ptr (address + i))) c) := by
  induction n generalizing address with
  | zero => rfl
  | succ n ih =>
    obtain ⟨hfirst, hrest⟩ := bytesMapped_succ.mp h
    have hload : sys_api I env (.load (ptr address)) c = ([], .done (c.memory (ptr address)) c) :=
      bind_run_silent (get_run c) (by rw [if_pos hfirst]; rfl)
    refine run_silent hload (run_bind_silent (ih hrest) ?_)
    have hmap : (fun i => c.memory (ptr (address + 1 + i))) =
        (fun i => c.memory (ptr (address + i))) ∘ Nat.succ := by
      funext i
      rw [Function.comp_apply, Nat.add_right_comm, Nat.add_assoc]
    rw [hmap, List.range_succ_eq_map, List.map_cons, List.map_map]
    rfl

theorem load_word_run {i : Nat} (h : WordMapped c.pagedir esp i) :
    (load_word esp i).run (sys_api I env) c = ([], .done (wordAt c.memory esp i) c) :=
  run_bind_silent (load_bytes_run h) rfl

/-- A first part that ends the process. -/
theorem run_bind_exited {α β : Type} {p : SysProg α} {f : α → SysProg β}
    (h : p.run (sys_api I env) c = exited c) : (p >>= f).run (sys_api I env) c = exited c := by
  rw [run_bind]
  exact bind_run_panic h

/-- `create_args` and what follows it. -/
theorem create_args_run {f : Nat × Nat × Nat → SysProg α} (h : BufferArgs c esp fd buffer size) :
    (create_args esp >>= f).run (sys_api I env) c =
      if UserMapped c.pagedir (ptr buffer) ∧ UserMapped c.pagedir (ptr (buffer + size)) then
        (f (wordAt c.memory esp 1, buffer, size)).run (sys_api I env) c
      else exited c := by
  have hargs : (create_args esp).run (sys_api I env) c =
      if UserMapped c.pagedir (ptr buffer) ∧ UserMapped c.pagedir (ptr (buffer + size)) then
        ([], .done (wordAt c.memory esp 1, buffer, size) c)
      else exited c := by
    refine run_bind_silent (load_word_run (h.mapped 1 le_rfl (by omega))) ?_
    refine run_bind_silent (load_word_run (h.mapped 2 (by omega) (by omega))) ?_
    refine run_bind_silent (load_word_run (h.mapped 3 (by omega) le_rfl)) ?_
    rw [h.buffer, h.size]
    by_cases hfirst : UserMapped c.pagedir (ptr buffer)
    · refine run_bind_silent (is_valid_addr_run.trans (if_pos hfirst)) ?_
      by_cases hend : UserMapped c.pagedir (ptr (buffer + size))
      · refine run_bind_silent (is_valid_addr_run.trans (if_pos hend)) ?_
        rw [if_pos ⟨hfirst, hend⟩]
        rfl
      · rw [if_neg fun hb => hend hb.2]
        exact run_bind_exited (is_valid_addr_run.trans (if_neg hend))
    · rw [if_neg fun hb => hfirst hb.1]
      exact run_bind_exited (is_valid_addr_run.trans (if_neg hfirst))
  split
  · rename_i hb
    exact run_bind_silent (hargs.trans (if_pos hb)) rfl
  · rename_i hb
    exact run_bind_exited (hargs.trans (if_neg hb))

/-! ### The calls -/

/-- The inode at `p` is open and no directory. -/
def RegularAt (I : FsApi K) (k : K) (p : Addr) : Prop :=
  ∃ stat : Stat, I (.inode_stat p) k = ([], .done stat k) ∧ stat.is_dir = false

theorem file_of_run (h : get_file_struct_for_fd c.file_struct_list fd = some file) :
    (file_of fd).run (sys_api I env) c = ([], .done (some file) c) :=
  run_silent (bind_run_silent (get_run c) rfl) (by rw [h]; rfl)

theorem k_read_run (hfd : 2 ≤ fd)
    (hfile : get_file_struct_for_fd c.file_struct_list fd = some file) :
    (k_read fd buffer size).run (sys_api I env) c = if BufferMapped c.pagedir buffer size then
        if ptr buffer = 0 then ([], .done (-1) c)
        else (read_file fd file buffer size).run (sys_api I env) c
      else exited c := by
  rw [k_read, if_neg (by omega)]
  refine run_bind_silent is_full_valid_ptr_run ?_
  by_cases hmapped : BufferMapped c.pagedir buffer size
  · rw [decide_eq_true hmapped, if_pos rfl, if_pos hmapped, if_neg (by omega)]
    refine run_bind_silent (file_of_run hfile) ?_
    dsimp only
    split <;> rfl
  · rw [decide_eq_false hmapped, if_neg Bool.false_ne_true, if_neg hmapped]
    rfl

theorem k_write_run (hfd : 2 ≤ fd)
    (hfile : get_file_struct_for_fd c.file_struct_list fd = some file)
    (hreg : RegularAt I c.fs file.inode) :
    (k_write fd buffer size).run (sys_api I env) c = if BufferMapped c.pagedir buffer size then
        (write_file fd file buffer size).run (sys_api I env) c
      else exited c := by
  obtain ⟨stat, hstat, hdir⟩ := hreg
  rw [k_write, if_neg (by omega)]
  refine run_bind_silent is_full_valid_ptr_run ?_
  by_cases hmapped : BufferMapped c.pagedir buffer size
  · rw [decide_eq_true hmapped, if_pos rfl, if_pos hmapped, write_file]
    cases hlock : c.file_lock with
    | true =>
      have hpanic : sys_api I env .lock_acquire c = ([], .panic c) :=
        bind_run_silent (get_run c) (by rw [if_pos hlock]; rfl)
      exact (bind_run_panic hpanic).trans (bind_run_panic hpanic).symm
    | false =>
      have hdone : sys_api I env .lock_acquire c = ([], .done () { c with file_lock := true }) :=
        bind_run_silent (get_run c) (by rw [if_neg (by simp [hlock])]; rfl)
      refine run_silent hdone ?_
      rw [if_neg (by omega)]
      refine run_bind_silent (file_of_run hfile) ?_
      have hisdir : (on_fs (inode_is_dir file.inode)).run (sys_api I env)
          { c with file_lock := true } = ([], .done false { c with file_lock := true }) := by
        have hrun : (inode_is_dir file.inode).run I c.fs = ([], .done false c.fs) :=
          run_silent hstat (by rw [hdir]; rfl)
        rw [run_on_fs]
        simp only [Machine.zoom, hrun]
        rfl
      refine run_bind_silent hisdir ?_
      rw [if_neg Bool.false_ne_true]
      symm
      exact run_silent hdone rfl
  · rw [decide_eq_false hmapped, if_neg Bool.false_ne_true, if_neg hmapped]
    rfl

/-! ### Programs that do not end the process -/

/-- The program does not end the process. -/
def Continues {α : Type} (p : SysProg α) : Prop := p.Calls (fun o => o.ends = false) fun _ => True

theorem Continues.ne_exited {p : SysProg α} (h : Continues p) (hc : c.fate = .running) :
    p.run (sys_api I env) c ≠ exited c := by
  intro hrun
  refine Prog.Meets.panics (R := fun (_ : Unit) (c : Caller K) => c.fate = .running)
    (F := fun c' => c'.fate ≠ .ended) ?_ ?_ h hc hrun rfl
  · exact fun o _ c _ hc => (sys_api_running o c hc).mono fun _ _ h => ⟨(), trivial, h⟩
  · intro o _ c es c' ho hc hr he
    have := (sys_api_ended hc hr he).1
    exact Bool.false_ne_true (ho.symm.trans this)

theorem continues_on_fs (p : FsProg α) : Continues (on_fs p) := by
  have hpre : ∀ (_ : Unit) (o : FsOp), True → (SysOp.fs o).ends = false := fun _ _ _ => rfl
  exact Prog.Calls.embed hpre (Prog.calls_any p) ()

theorem continues_load_bytes (n : Nat) : ∀ address, Continues (load_bytes n address) := by
  induction n with
  | zero => exact fun _ => .pure trivial
  | succ n ih =>
    exact fun address => .op_bind rfl fun _ => .bind (ih (address + 1)) fun _ _ => .pure trivial

theorem continues_store_bytes (bytes : List UInt8) :
    ∀ address, Continues (store_bytes bytes address) := by
  induction bytes with
  | nil => exact fun _ => .pure trivial
  | cons _ bytes ih => exact fun address => .op_bind rfl fun _ => ih (address + 1)

theorem continues_update_file (fd : Int) (file : OpenFile) : Continues (update_file fd file) :=
  .op_bind rfl fun _ => .op rfl

section Sizes

-- the unifier is not to compute a size
attribute [local irreducible] wrap32

theorem continues_read_file : Continues (read_file fd file buffer size) :=
  .op_bind rfl fun _ => .bind (continues_on_fs _) fun _ _ =>
    .bind (continues_store_bytes _ _) fun _ _ => .bind (continues_update_file _ _) fun _ _ =>
      .op_bind rfl fun _ => .pure trivial

theorem continues_write_file : Continues (write_file fd file buffer size) :=
  .op_bind rfl fun _ => .bind (continues_load_bytes _ _) fun _ _ =>
    .bind (continues_on_fs _) fun _ _ => .bind (continues_update_file _ _) fun _ _ =>
      .op_bind rfl fun _ => .pure trivial

end Sizes

/-! ### Exactly the mapped buffers -/

/-- From `c`, on any file system where `file` is a regular file, `call` goes on to `body` if the
buffer is mapped, and ends the process with −1 otherwise. -/
def AcceptsMapped (env : Env) (c : Caller K) (file : OpenFile) (buffer size : Nat)
    (call body : SysProg (Option Int)) : Prop :=
  ∀ I : FsApi K, RegularAt I c.fs file.inode →
    (BufferMapped c.pagedir buffer size →
      call.run (sys_api I env) c = body.run (sys_api I env) c) ∧
    (¬ BufferMapped c.pagedir buffer size → call.run (sys_api I env) c = exited c)

/-- A file system of regular files that does nothing else. -/
def regularApi (K : Type) : FsApi K
  | .inode_stat _ => pure ⟨0, 0, false, 0, 0⟩
  | _ => Machine.panic

theorem regularAt_regularApi (k : K) (p : Addr) : RegularAt (regularApi K) k p := ⟨_, rfl, rfl⟩

theorem run_map_congr {α β : Type} {f : α → β} {p q : SysProg α}
    (h : p.run (sys_api I env) c = q.run (sys_api I env) c) :
    (f <$> p).run (sys_api I env) c = (f <$> q).run (sys_api I env) c := by
  show (p >>= fun a => pure (f a)).run _ c = (q >>= fun a => pure (f a)).run _ c
  rw [run_bind, run_bind, bind_run, bind_run, h]

/-- A call that `create_args` lets through, and whose own check lets `body'` through, is to go on to
`body`. -/
theorem acceptsMapped_iff {call : SysProg (Option Int)} {p body body' : SysProg Int}
    (hcall : ∀ I : FsApi K, call.run (sys_api I env) c =
      if UserMapped c.pagedir (ptr buffer) ∧ UserMapped c.pagedir (ptr (buffer + size)) then
        (some <$> p).run (sys_api I env) c
      else exited c)
    (hp : ∀ I : FsApi K, RegularAt I c.fs file.inode →
      p.run (sys_api I env) c = if BufferMapped c.pagedir buffer size then
        body'.run (sys_api I env) c
      else exited c)
    (hbody : Continues body) (hrunning : c.fate = .running) :
    AcceptsMapped env c file buffer size call (some <$> body) ↔
      (BufferMapped c.pagedir buffer size → (UserMapped c.pagedir (ptr buffer) ∧
        UserMapped c.pagedir (ptr (buffer + size))) ∧
        ∀ I : FsApi K, RegularAt I c.fs file.inode →
          (some <$> body').run (sys_api I env) c = (some <$> body).run (sys_api I env) c) := by
  constructor
  · intro h hmapped
    have hchecked : UserMapped c.pagedir (ptr buffer) ∧
        UserMapped c.pagedir (ptr (buffer + size)) := by
      by_contra hno
      have hrun := (h (regularApi K) (regularAt_regularApi _ _)).1 hmapped
      rw [hcall, if_neg hno] at hrun
      have hcont : Continues (some <$> body) := Prog.Calls.bind hbody fun _ _ => .pure trivial
      exact hcont.ne_exited hrunning hrun.symm
    refine ⟨hchecked, fun I hreg => ?_⟩
    have hrun := (h I hreg).1 hmapped
    rw [hcall, if_pos hchecked] at hrun
    exact (run_map_congr ((hp I hreg).trans (if_pos hmapped))).symm.trans hrun
  · intro h I hreg
    refine ⟨fun hmapped => ?_, fun hmapped => ?_⟩
    · obtain ⟨hchecked, hsame⟩ := h hmapped
      rw [hcall, if_pos hchecked, run_map_congr ((hp I hreg).trans (if_pos hmapped))]
      exact hsame I hreg
    · rw [hcall]
      split
      · exact run_bind_exited ((hp I hreg).trans (if_neg hmapped))
      · rfl

/-- Where no file is ever read, `read_file` does not return. -/
theorem read_file_regularApi :
    ((some <$> read_file fd file buffer size).run (sys_api (regularApi K) env)).Ends c
      fun _ _ => False := by
  have hread : ∀ k, ((file_read file (wrap32 size)).run (regularApi K)).Ends k fun _ _ => False :=
    fun k => ends_bind (Q := fun _ _ => False) (ends_op Machine.Ends.panic) fun _ _ => False.elim
  refine ends_bind (Q := fun _ _ => False) ?_ fun _ _ => False.elim
  refine ends_bind (ends_op lock_acquire_ends) fun _ c₁ _ => ?_
  exact ends_bind (on_fs_ends (hread c₁.fs)) fun _ _ => False.elim

/-- **The buffers that `read` and `write` accept** are exactly the mapped ones, exactly if
`create_args` finds the first byte of a mapped buffer and the byte after its last mapped, and
`k_read` finds no null pointer. -/
theorem buffers_accepted_iff (hargs : BufferArgs c esp fd buffer size) (hfd : 2 ≤ fd)
    (hfile : get_file_struct_for_fd c.file_struct_list fd = some file)
    (hrunning : c.fate = .running) :
    (AcceptsMapped env c file buffer size (dispatch esp .SYS_READ)
        (some <$> read_file fd file buffer size) ↔
      (BufferMapped c.pagedir buffer size → ptr buffer ≠ 0 ∧ UserMapped c.pagedir (ptr buffer) ∧
        UserMapped c.pagedir (ptr (buffer + size)))) ∧
    (AcceptsMapped env c file buffer size (dispatch esp .SYS_WRITE)
        (some <$> write_file fd file buffer size) ↔
      (BufferMapped c.pagedir buffer size → UserMapped c.pagedir (ptr buffer) ∧
        UserMapped c.pagedir (ptr (buffer + size)))) := by
  constructor
  · have hdispatch : ∀ I : FsApi K,
        (dispatch esp .SYS_READ).run (sys_api I env) c = _ := fun I => create_args_run hargs
    simp only [hargs.fd] at hdispatch
    have hread : ∀ I : FsApi K, RegularAt I c.fs file.inode →
        (k_read fd buffer size).run (sys_api I env) c = if BufferMapped c.pagedir buffer size then
          (if ptr buffer = 0 then pure (-1) else read_file fd file buffer size : SysProg Int).run
            (sys_api I env) c
        else exited c := by
      intro I _
      rw [k_read_run hfd hfile]
      split
      · split <;> rfl
      · rfl
    refine (acceptsMapped_iff hdispatch hread continues_read_file hrunning).trans
      (imp_congr_right fun _ => ?_)
    rw [and_comm, and_congr_left fun _ => ?_]
    refine ⟨fun h hz => ?_, fun hz I _ => by rw [if_neg hz]⟩
    have hrun := h (regularApi K) (regularAt_regularApi _ _)
    rw [if_pos hz] at hrun
    exact read_file_regularApi hrun.symm
  · have hdispatch : ∀ I : FsApi K,
        (dispatch esp .SYS_WRITE).run (sys_api I env) c = _ := fun I => create_args_run hargs
    simp only [hargs.fd] at hdispatch
    refine (acceptsMapped_iff hdispatch (fun I hreg => k_write_run hfd hfile hreg)
      continues_write_file hrunning).trans (imp_congr_right fun _ => ?_)
    exact and_iff_left fun _ _ => rfl

/-- A process with the page at 0x1000 mapped only, and a regular file open, that calls `read` or
`write` with a buffer at 0x1ff0. -/
def bufferCaller (size : UInt8) : Caller Fs :=
  { exitCaller with memory := fun a =>
      if a = 4100 then 2 else if a = 4104 then 240 else if a = 4105 then 31
      else if a = 4108 then size else 0 }

theorem bufferArgs_bufferCaller (size : UInt8) :
    BufferArgs (bufferCaller size) 4096 2 8176 size.toNat := by
  refine ⟨fun i hlo hhi j hj => ?_, show wrap32 (Bytes.word 2 0 0 0) = 2 by decide,
    show Bytes.word 240 31 0 0 = 8176 by decide, ?_⟩
  · have hptr : ptr (4096 + 4 * i + j) = 4096 + 4 * i + j := Nat.mod_eq_of_lt (by omega)
    have hpage : (4096 + 4 * i + j) / 4096 = 1 := by omega
    rw [hptr]
    exact ⟨by show _ < 3221225472; omega, hpage ▸ Finset.mem_singleton_self 1⟩
  · show size.toNat + 256 * 0 + 65536 * 0 + 16777216 * 0 = size.toNat
    omega

/-- A buffer that ends one byte before the page does. -/
theorem buffers_accepted_bufferCaller :
    AcceptsMapped quietEnv (bufferCaller 15) (.file ⟨1, 0, false⟩) 8176 15
      (dispatch 4096 .SYS_READ) (some <$> read_file 2 (.file ⟨1, 0, false⟩) 8176 15) ∧
    AcceptsMapped quietEnv (bufferCaller 15) (.file ⟨1, 0, false⟩) 8176 15
      (dispatch 4096 .SYS_WRITE) (some <$> write_file 2 (.file ⟨1, 0, false⟩) 8176 15) := by
  constructor
  · exact (buffers_accepted_iff (bufferArgs_bufferCaller 15) le_rfl rfl rfl).1.mpr
      fun _ => by decide
  · exact (buffers_accepted_iff (bufferArgs_bufferCaller 15) le_rfl rfl rfl).2.mpr
      fun _ => by decide

/-- A buffer that ends where the page does is mapped, and refused. -/
theorem buffer_refused : BufferMapped (bufferCaller 16).pagedir 8176 16 ∧
    RegularAt disk_api (bufferCaller 16).fs 1 ∧
    (dispatch 4096 .SYS_READ).run (sys_api disk_api quietEnv) (bufferCaller 16) =
      exited (bufferCaller 16) ∧
    (dispatch 4096 .SYS_WRITE).run (sys_api disk_api quietEnv) (bufferCaller 16) =
      exited (bufferCaller 16) := by
  have hend : ¬ (UserMapped (bufferCaller 16).pagedir (ptr 8176) ∧
      UserMapped (bufferCaller 16).pagedir (ptr (8176 + 16))) := by decide
  refine ⟨by decide, ⟨_, rfl, rfl⟩, ?_, ?_⟩
  · exact (create_args_run (bufferArgs_bufferCaller 16)).trans (if_neg hend)
  · exact (create_args_run (bufferArgs_bufferCaller 16)).trans (if_neg hend)

end Pintos
