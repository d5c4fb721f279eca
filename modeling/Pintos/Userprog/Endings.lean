import Pintos.Userprog.Load
import Pintos.Userprog.UserMemory

/-!
# Userprog — what a process leaves open

A process ends in `process_exit`, whether it called `exit`, was killed for an exception, could not be
loaded or made an unknown system call.  `process_exit` gives back the pages of the process, but
looks neither at `file_struct_list` nor at `current_dir`: no inode loses a handle
(`ending_releases_iff`).
-/

namespace Pintos
open Support
open Machine (bind_run get_run)

/-- The handles that the process has on the inode at `p`. -/
def Caller.handles {K : Type} (c : Caller K) (p : Addr) : Nat :=
  (c.file_struct_list.countP fun e => e.2.inode == p) +
    if c.current_dir.any (·.inode == p) then 1 else 0

/-- The open count of the inode at `p`. -/
def open_cnt {ι δ : Type} (k : Kernel ι δ) (p : Addr) : Int :=
  match k.mem p with
  | some inode => inode.open_cnt
  | none => 0

/-- From `c` to `c'`, every inode loses the handles that the process had on it. -/
def Released {ι δ : Type} (c c' : Caller (Kernel ι δ)) : Prop :=
  ∀ p, open_cnt c'.fs p = open_cnt c.fs p - c.handles p

section Endings

variable {ι δ : Type} {c c' : Caller (Kernel ι δ)}

theorem Caller.handles_eq_zero :
    (∀ p, c.handles p = 0) ↔ c.file_struct_list = [] ∧ c.current_dir = none := by
  constructor
  · intro h
    refine ⟨List.eq_nil_iff_forall_not_mem.mpr fun e he => ?_, ?_⟩
    · have hpos : 0 < c.file_struct_list.countP fun e' => e'.2.inode == e.2.inode :=
        List.countP_pos_iff.mpr ⟨e, he, beq_self_eq_true _⟩
      have := h e.2.inode
      rw [Caller.handles] at this
      omega
    · cases hd : c.current_dir with
      | none => rfl
      | some d =>
        have := h d.inode
        simp [Caller.handles, hd] at this
  · rintro ⟨hf, hd⟩ p
    simp [Caller.handles, hf, hd]

/-- `process_exit` releases what the process has open exactly if that is nothing. -/
theorem process_exit_released :
    Released c c.process_exit ↔ c.file_struct_list = [] ∧ c.current_dir = none := by
  rw [← Caller.handles_eq_zero]
  refine forall_congr' fun p => ?_
  show open_cnt c.fs p = open_cnt c.fs p - (c.handles p : Int) ↔ _
  omega

/-- An operation that returns leaves the process running. -/
theorem sys_api_running {K : Type} {I : FsApi K} {env : Env} (o : SysOp)
    (c : Caller K) (hc : c.fate = .running) :
    (sys_api I env o).Ends c fun _ c' => c'.fate = .running := by
  cases o with
  | fs o => exact .zoom fun _ _ _ _ => hc
  | pagedir_get_page =>
    exact .get_bind (.ite (fun _ => .pure hc) fun _ => .panic)
  | load =>
    refine .get_bind (.ite (fun _ => .pure hc) fun _ => ?_)
    exact .modify_bind Machine.Ends.panic
  | store =>
    refine .get_bind (.ite (fun _ => .modify hc) fun _ => ?_)
    exact .modify_bind Machine.Ends.panic
  | lock_acquire =>
    exact .get_bind (.ite (fun _ => .panic) fun _ => .modify hc)
  | lock_release =>
    exact .get_bind (.ite (fun _ => .modify hc) fun _ => .panic)
  | install_page =>
    refine .get_bind (.modify_bind (.ite (fun _ => .pure hc) fun _ => .modify_bind (.pure hc)))
  | input_getc | palloc_get_page | pagedir_create =>
    exact .get_bind (.modify_bind (.pure hc))
  | file_struct_list | current_dir => exact .get_bind (.pure hc)
  | set_file_struct_list | set_current_dir | set_is_loaded => exact .modify hc
  | null_file_struct | exit | thread_exit | shutdown_power_off => exact fun _ r => nomatch r
  | _ => exact .pure hc

/-- The operation ends the process. -/
def SysOp.ends : SysOp → Bool
  | .exit _ | .thread_exit => true
  | _ => false

/-- An operation that ends the process ends it in `process_exit`. -/
theorem sys_api_ended {K : Type} {I : FsApi K} {env : Env} {o : SysOp}
    {c c' : Caller K} {es : List Event} (hc : c.fate = .running)
    (hr : sys_api I env o c = (es, .panic c')) (he : c'.fate = .ended) :
    o.ends = true ∧ ∃ c₁ : Caller K, c' = c₁.process_exit ∧ c₁.fs = c.fs ∧
      c₁.file_struct_list = c.file_struct_list := by
  cases o with
  | fs o =>
    simp only [sys_api, Machine.zoom] at hr
    split at hr
    · cases hr
    · cases hr
      cases hc.symm.trans he
  | pagedir_get_page | lock_acquire | lock_release =>
    simp only [sys_api, bind_run, get_run] at hr
    split at hr <;> cases hr
    cases hc.symm.trans he
  | load | store =>
    simp only [sys_api, bind_run, get_run] at hr
    split at hr <;> cases hr
    cases he
  | install_page =>
    simp only [sys_api, bind_run, get_run, Machine.modify_run] at hr
    split at hr <;> cases hr
  | null_file_struct =>
    cases hr
    cases hc.symm.trans he
  | shutdown_power_off =>
    cases hr
    cases he
  | exit status =>
    cases hr
    exact ⟨rfl, c.set_status status, rfl, rfl, rfl⟩
  | thread_exit =>
    cases hr
    exact ⟨rfl, c, rfl, rfl, rfl⟩
  | _ => cases hr

/-- **What the end of a process releases.**  Whatever the kernel runs for the process until it ends,
it ends in `process_exit`, which changes no open count; so the handles of the process are released
exactly if it has none. -/
theorem ending_releases_iff {α : Type} (p : SysProg α) (env : Env) (c : Caller Fs)
    (hc : c.fate = .running) (he : (p.run (sys_api disk_api env) c).2.state.fate = .ended) :
    ∃ c₁ : Caller Fs, (p.run (sys_api disk_api env) c).2.state = c₁.process_exit ∧
      (∀ q, open_cnt c₁.process_exit.fs q = open_cnt c₁.fs q) ∧
      (Released c₁ c₁.process_exit ↔ c₁.file_struct_list = [] ∧ c₁.current_dir = none) := by
  have hI : ∀ o (_ : Unit) (c : Caller Fs), True → c.fate = .running →
      (sys_api disk_api env o).Ends c fun _ c' => ∃ t : Unit, True ∧ c'.fate = .running :=
    fun o _ c _ hc => (sys_api_running o c hc).mono fun _ _ h => ⟨(), trivial, h⟩
  have hF : ∀ o (_ : Unit) (c : Caller Fs) es c', True → c.fate = .running →
      sys_api disk_api env o c = (es, .panic c') → c'.fate = .ended →
        ∃ c₁ : Caller Fs, c' = c₁.process_exit :=
    fun _ _ _ _ _ _ hc hr he => (sys_api_ended hc hr he).2.imp fun _ h => h.1
  obtain ⟨es, x, hx⟩ : ∃ es x, p.run (sys_api disk_api env) c = (es, x) := ⟨_, _, rfl⟩
  rw [hx] at he ⊢
  have hend : ∃ c₁ : Caller Fs, x.state = c₁.process_exit := by
    cases x with
    | done a c' =>
      obtain ⟨-, -, hrun⟩ := Prog.Meets.ends (R := fun _ c => c.fate = .running) hI
        (Prog.calls_any p) hc hx
      exact nomatch hrun.symm.trans he
    | panic c' =>
      exact Prog.Meets.panics (R := fun _ c => c.fate = .running)
        (F := fun c' => c'.fate = .ended → ∃ c₁ : Caller Fs, c' = c₁.process_exit) hI hF
        (Prog.calls_any p) hc hx he
  obtain ⟨c₁, hc₁⟩ := hend
  exact ⟨c₁, hc₁, fun _ => rfl, process_exit_released⟩

/-- A process with one file open, on the inode at address 1, that calls `exit (0)`. -/
def exitCaller : Caller Fs :=
  { chdirCaller with
    fs := smallFs.malloc ⟨3, 1, false, 0, false, smallFile⟩
    memory := fun a => if a = 4096 then 1 else 0
    file_struct_list := [(2, .file ⟨1, 0, false⟩)] }

theorem ending_releases_exitCaller :
    let c' := ((syscall_handler 4096).run (sys_api disk_api quietEnv) exitCaller).2.state
    c'.fate = .ended ∧ ∃ c₁ : Caller Fs, c' = c₁.process_exit ∧
      (∀ q, open_cnt c₁.process_exit.fs q = open_cnt c₁.fs q) ∧
      (Released c₁ c₁.process_exit ↔ c₁.file_struct_list = [] ∧ c₁.current_dir = none) := by
  intro c'
  have he : c'.fate = .ended := by decide +kernel
  exact ⟨he, ending_releases_iff (syscall_handler 4096) quietEnv exitCaller rfl he⟩

/-- The file stays open after the process has ended. -/
theorem exit_keeps_file_open :
    let c' := ((syscall_handler 4096).run (sys_api disk_api quietEnv) exitCaller).2.state
    c'.fate = .ended ∧ exitCaller.handles 1 = 1 ∧ open_cnt exitCaller.fs 1 = 1 ∧
      open_cnt c'.fs 1 = 1 := by
  decide +kernel

end Endings

end Pintos
