import Pintos.Filesys.DiskApi
import Pintos.Filesys.File

/-!
# Filesys — calls that deny and allow nothing

Of the operations of the interface only `inode_deny_write` and `inode_allow_write` change the number
of those who deny writes to an inode.  The programs of `directory.c` and `filesys.c` call neither
(`Peaceful`), so that they keep every counter at zero (`Peaceful.undenied`).
-/

namespace Pintos
open Support

/-- The operation neither denies nor allows writes. -/
def FsOp.peaceful : FsOp → Bool
  | .inode_deny_write _ | .inode_allow_write _ => false
  | _ => true

/-- The program neither denies nor allows writes, and its value is in `Q`. -/
abbrev Peaceful {α : Type} (p : FsProg α) (Q : α → Prop) : Prop :=
  p.Calls (fun o => o.peaceful = true) Q

/-! ### The programs -/

section Programs

variable {α : Type} {dir : Option Dir} {name : List UInt8} {p : Addr} {o : OpenFile}

theorem peaceful_call {o : FsOp} (h : o.peaceful = true) : Peaceful (call o) fun _ => True :=
  Prog.Calls.op h

theorem peaceful_assert_failed {Q : α → Prop} : Peaceful assert_failed Q :=
  ⟨rfl, fun e => nomatch e⟩

theorem peaceful_stat (f : Stat → α) :
    Peaceful (do let stat ← call (.inode_stat p); pure (f stat)) fun _ => True :=
  .op_bind rfl fun _ => .pure trivial

/-- A directory is opened at its first entry. -/
theorem peaceful_dir_open (inode : Option Addr) :
    Peaceful (dir_open inode) fun r => ∀ d ∈ r, d.pos = 0 := by
  cases inode with
  | none => exact .op_bind rfl fun _ => .pure nofun
  | some inode =>
    refine .pure fun d hd => ?_
    cases hd
    rfl

theorem peaceful_dir_close (dir : Option Dir) : Peaceful (dir_close dir) fun _ => True := by
  cases dir with
  | none => exact .pure trivial
  | some dir => exact .op rfl

theorem peaceful_lookup (dir : Dir) : Peaceful (lookup dir name) fun _ => True := by
  have hloop : ∀ turns ofs, Peaceful (lookup_loop dir.inode name turns ofs) fun _ => True := by
    intro turns
    induction turns with
    | zero => exact fun _ => .pure trivial
    | succ turns ih =>
      exact fun ofs => .op_bind rfl fun e => .ite (.ite (.pure trivial) (ih _)) (.pure trivial)
  exact .bind (peaceful_stat _) fun _ _ => hloop _ _

theorem peaceful_dir_lookup : Peaceful (dir_lookup dir name) fun _ => True := by
  cases dir with
  | none => exact peaceful_assert_failed
  | some dir =>
    refine .op_bind rfl fun _ => .bind (peaceful_lookup dir) fun r _ => ?_
    cases r with
    | none => exact .op_bind rfl fun _ => .pure trivial
    | some r => exact .op_bind rfl fun _ => .op_bind rfl fun _ => .pure trivial

theorem peaceful_component_inode : Peaceful (component_inode dir name) fun _ => True := by
  refine .ite ?_ peaceful_dir_lookup
  cases dir with
  | none => exact .pure trivial
  | some dir => exact .bind (peaceful_stat _) fun _ _ => .op_bind rfl fun _ => .pure trivial

theorem peaceful_dir_is_root : Peaceful (dir_is_root dir) fun _ => True := by
  cases dir with
  | none => exact .pure trivial
  | some dir => exact .bind (peaceful_stat _) fun _ _ => .pure trivial

theorem peaceful_dir_open_root : Peaceful dir_open_root fun r => ∀ d ∈ r, d.pos = 0 :=
  .op_bind rfl fun _ => peaceful_dir_open _

theorem peaceful_dir_reopen (dir : Dir) : Peaceful (dir_reopen dir) fun r => ∀ d ∈ r, d.pos = 0 :=
  .op_bind rfl fun _ => peaceful_dir_open _

theorem peaceful_dir_from_path (current_dir : Option Dir) (path : List UInt8) :
    Peaceful (dir_from_path current_dir path) fun r => ∀ d ∈ r, d.pos = 0 := by
  have hloop : ∀ (turns : Nat) (dir : Option Dir) (prev ptr : List UInt8), (∀ d ∈ dir, d.pos = 0) →
      Peaceful (dir_from_path_loop turns dir prev ptr) fun r => ∀ d ∈ r, d.pos = 0 := by
    intro turns
    induction turns with
    | zero => exact fun _ _ _ h => .pure h
    | succ turns ih =>
      intro dir prev ptr h
      unfold dir_from_path_loop
      split
      · exact .pure h
      · refine .ite (ih _ _ _ h) (.bind peaceful_component_inode fun r _ => ?_)
        cases r with
        | none => exact .pure nofun
        | some inode =>
          refine .bind (peaceful_stat _) fun _ _ => .ite ?_ ?_
          · exact .bind (peaceful_dir_close _) fun _ _ =>
              .bind (peaceful_dir_open _) fun _ hdir => ih _ _ _ hdir
          · exact .op_bind rfl fun _ => ih _ _ _ h
  have hstart : Peaceful (start_dir current_dir (c_string path)) fun r => ∀ d ∈ r, d.pos = 0 := by
    cases current_dir with
    | none => exact peaceful_dir_open_root
    | some cwd => exact .ite peaceful_dir_open_root (peaceful_dir_reopen cwd)
  refine .bind hstart fun dir hdir => ?_
  split
  · exact .pure hdir
  · exact hloop _ _ _ _ hdir

/-- An object that does not deny writes. -/
def OpenFile.Allows (o : OpenFile) : Prop := ∀ f, o = .file f → f.deny_write = false

theorem OpenFile.Allows.setPos (h : o.Allows) (pos : Nat) : (o.setPos pos).Allows := by
  cases o with
  | dir d => exact nofun
  | file f =>
    rintro _ ⟨⟩
    exact h f rfl

/-- What `filesys_open` returns does not deny writes, and stands at the start. -/
theorem peaceful_filesys_open (current_dir : Option Dir) :
    Peaceful (filesys_open current_dir name) fun r => ∀ o ∈ r, o.Allows ∧ o.pos = 0 := by
  have hdir : ∀ d : Dir, d.pos = 0 → Peaceful (pure (some (.dir d))) fun r : Option OpenFile =>
      ∀ o ∈ r, o.Allows ∧ o.pos = 0 := by
    refine fun d hd => .pure fun o ho => ?_
    cases ho
    exact ⟨nofun, hd⟩
  refine .bind (peaceful_dir_from_path _ _) fun dir h => ?_
  cases dir with
  | none => exact .pure nofun
  | some dir =>
    have hopen := hdir dir (h dir rfl)
    refine .bind peaceful_dir_is_root fun _ _ => .ite hopen (.ite hopen ?_)
    refine .bind peaceful_component_inode fun r _ => .bind (peaceful_dir_close _) fun _ _ => ?_
    cases r with
    | none => exact .pure nofun
    | some inode =>
      refine .bind (peaceful_stat _) fun _ _ => .ite (hdir _ rfl) (.pure fun o ho => ?_)
      cases ho
      refine ⟨?_, rfl⟩
      rintro _ ⟨⟩
      rfl

theorem peaceful_dir_add (inode_sector : Sector) (e : List UInt8) :
    Peaceful (dir_add dir name inode_sector e) fun _ => True := by
  have hslot : ∀ p turns ofs e, Peaceful (free_slot_loop p turns ofs e) fun _ => True := by
    intro p turns
    induction turns with
    | zero => exact fun _ _ => .pure trivial
    | succ turns ih =>
      exact fun ofs e => .op_bind rfl fun _ => .ite (.ite (ih _ _) (.pure trivial)) (.pure trivial)
  cases dir with
  | none => exact peaceful_assert_failed
  | some dir =>
    refine .op_bind rfl fun _ => .ite (.op_bind rfl fun _ => .pure trivial) ?_
    refine .bind (peaceful_lookup dir) fun r _ => ?_
    cases r with
    | some r => exact .op_bind rfl fun _ => .pure trivial
    | none =>
      refine .bind (Q := fun _ => True) ?_ fun _ _ => .op_bind rfl fun _ => .pure trivial
      refine .bind (peaceful_stat _) fun _ _ => .bind (Q := fun _ => True) ?_ fun _ _ => ?_
      · exact .op_bind rfl fun _ => .op_bind rfl fun _ => .op_bind rfl fun _ => .pure trivial
      · exact .bind (peaceful_stat _) fun _ _ => .bind (hslot _ _ _ _) fun _ _ =>
          .op_bind rfl fun _ => .pure trivial

theorem peaceful_filesys_create (current_dir : Option Dir) (initial_size : Int) (is_dir : Bool)
    (e : List UInt8) :
    Peaceful (filesys_create current_dir name initial_size is_dir e) fun _ => True := by
  refine .bind (peaceful_dir_from_path _ _) fun dir _ => .bind (Q := fun _ => True) ?_ fun r _ => ?_
  · refine .ite (.pure trivial) (.op_bind rfl fun sector => ?_)
    cases sector with
    | none => exact .pure trivial
    | some sector =>
      refine .op_bind rfl fun _ => .ite ?_ (.pure trivial)
      exact .bind (peaceful_dir_add _ _) fun _ _ => .pure trivial
  · refine .ite (.op_bind rfl fun _ => ?_) ?_ <;>
      exact .bind (peaceful_dir_close _) fun _ _ => .pure trivial

theorem peaceful_dir_is_empty : Peaceful (dir_is_empty p) fun _ => True := by
  have hloop : ∀ turns ofs, Peaceful (dir_is_empty_loop p turns ofs) fun _ => True := by
    intro turns
    induction turns with
    | zero => exact fun _ => .pure trivial
    | succ turns ih =>
      exact fun ofs => .op_bind rfl fun e => .ite (.ite (.pure trivial) (ih _)) (.pure trivial)
  exact .bind (peaceful_stat _) fun _ _ => hloop _ _

theorem peaceful_filesys_remove (current_dir : Option Dir) :
    Peaceful (filesys_remove current_dir name) fun _ => True := by
  refine .bind (peaceful_dir_from_path _ _) fun dir _ => ?_
  cases dir with
  | none => exact .pure trivial
  | some dir =>
    refine .bind (Q := fun _ => True) ?_ fun _ _ =>
      .bind (peaceful_dir_close _) fun _ _ => .pure trivial
    refine .op_bind rfl fun _ => .bind (peaceful_lookup dir) fun r _ => ?_
    cases r with
    | none => exact .op_bind rfl fun _ => .op_bind rfl fun _ => .pure trivial
    | some r =>
      refine .op_bind rfl fun inode => .bind (Q := fun _ => True) ?_ fun _ _ =>
        .op_bind rfl fun _ => .op_bind rfl fun _ => .pure trivial
      refine .bind (Q := fun _ => True) ?_ fun _ _ => .ite ?_ (.pure trivial)
      · refine .bind (peaceful_stat _) fun _ _ => .bind (peaceful_stat _) fun _ _ => ?_
        exact .ite (.pure trivial) (.ite peaceful_dir_is_empty (.pure trivial))
      · refine .op_bind rfl fun _ => .ite ?_ (.pure trivial)
        exact .op_bind rfl fun _ => .pure trivial

theorem peaceful_filesys_chdir (current_dir : Option Dir) :
    Peaceful (filesys_chdir current_dir name) fun _ => True := by
  refine .bind (peaceful_dir_from_path _ _) fun dir _ => ?_
  cases dir with
  | none => exact .pure trivial
  | some dir =>
    refine .ite (.pure trivial) (.bind peaceful_dir_is_root fun _ _ => .ite (.pure trivial) ?_)
    refine .bind peaceful_component_inode fun r _ => .bind (peaceful_dir_close _) fun _ _ => ?_
    refine .bind (peaceful_dir_open _) fun dir _ => ?_
    cases dir with
    | none => exact .pure trivial
    | some dir => exact .bind (peaceful_dir_close _) fun _ _ => .pure trivial

/-- Whatever it reads, `dir_readdir` moves by whole entries. -/
theorem peaceful_dir_readdir (dir : Dir) :
    Peaceful (dir_readdir dir) fun r => ∃ n, r.2 = dir.pos + 20 * n := by
  have hloop : ∀ turns pos, Peaceful (dir_readdir_loop dir.inode turns pos) fun r =>
      ∃ n, r.2 = pos + 20 * n := by
    intro turns
    induction turns with
    | zero => exact fun pos => .pure ⟨0, rfl⟩
    | succ turns ih =>
      intro pos
      refine .op_bind rfl fun e => .ite (.ite (.pure ⟨1, rfl⟩) ((ih _).mono ?_)) (.pure ⟨0, rfl⟩)
      rintro r ⟨n, hn⟩
      exact ⟨n + 1, hn.trans (by rw [ENTRY_SIZE]; omega)⟩
  exact .op_bind rfl fun _ => .bind (peaceful_stat _) fun _ _ => .bind (hloop _ _) fun _ hr =>
    .op_bind rfl fun _ => .pure hr

theorem peaceful_file_read (h : o.Allows) (size : Int) :
    Peaceful (file_read o size) fun r => r.2.Allows :=
  .op_bind rfl fun _ => .pure (h.setPos _)

-- the unifier is not to compute a size
attribute [local irreducible] wrap32

theorem peaceful_file_write (h : o.Allows) (buffer : List UInt8) :
    Peaceful (file_write o buffer) fun r => r.2.Allows :=
  .bind (Q := fun _ => True) (.ite (.op rfl) (.ite (.op rfl) (.pure trivial)))
    fun _ _ => .pure (h.setPos _)

theorem peaceful_file_seek (h : o.Allows) (new_pos : Int) :
    Peaceful (file_seek o new_pos) OpenFile.Allows :=
  .ite (.pure (h.setPos _)) peaceful_assert_failed

/-- An object that does not deny writes is closed in peace, if a null byte follows a
`struct dir`. -/
theorem peaceful_file_close (h : o.Allows) : Peaceful (file_close o false) fun _ => True := by
  cases o with
  | dir d => exact .op rfl
  | file f =>
    show Peaceful (if f.deny_write = true then _ else _) _
    rw [h f rfl]
    exact .op rfl

end Programs

/-! ### The disk -/

/-- No inode in memory refuses writes. -/
def Undenied {ι δ : Type} (k : Kernel ι δ) : Prop :=
  ∀ p i, k.mem p = some i → i.deny_write_cnt = 0

section Disk

variable {k k' : Fs} {p : Addr} {i : Inode InodeDisk}

theorem Undenied.same (h : Undenied k) (hk : SameTable k k') : Undenied k' := by
  intro p i hp
  rw [hk.mem] at hp
  exact h p i hp

theorem Undenied.setInode (h : Undenied k) (hi : i.deny_write_cnt = 0) :
    Undenied (k.setInode p i) := by
  intro q j hq
  rw [Kernel.setInode_mem] at hq
  split at hq
  · cases hq
    exact hi
  · exact h q j hq

theorem Below.undenied {α : Type} {m : Machine Event Fs α} (hm : Below m) (h : Undenied k) :
    m.Ends k fun _ => Undenied := (hm k).mono fun _ _ hk => h.same hk

theorem inode_reopen_undenied (h : Undenied k) :
    (inode_reopen p : Machine Event Fs Addr).Ends k fun _ => Undenied :=
  deref_bind_ends fun i hp => .modify_bind (.pure (h.setInode (h p i hp)))

theorem inode_open_undenied (s : Sector) (h : Undenied k) :
    (inode_open disk_backend s).Ends k fun _ => Undenied := by
  refine .get_bind ?_
  split
  · exact inode_reopen_undenied h
  · refine .bind ((below_disk_load s).undenied h) fun d k₁ h₁ => ?_
    refine .get_bind (.modify_bind (.pure ?_))
    intro q j hq
    rw [Kernel.malloc_mem] at hq
    split at hq
    · cases hq
      rfl
    · exact h₁ q j hq

theorem inode_close_undenied (p : Option Addr) (h : Undenied k) :
    (inode_close disk_backend p).Ends k fun _ => Undenied := by
  cases p with
  | none => exact .pure h
  | some p =>
    refine deref_bind_ends fun i hp => .modify_bind ?_
    have h₁ : Undenied (k.setInode p { i with open_cnt := i.open_cnt - 1 }) :=
      h.setInode (h p i hp)
    refine .ite (fun _ => ?_) fun _ => .pure h₁
    refine .modify_bind (.bind
      ((below_inode_retire _).undenied (k := (k.setInode p _).unlink p) h₁) fun _ k₂ h₂ => ?_)
    refine .modify fun q j hq => ?_
    rw [Kernel.free_mem] at hq
    split at hq
    · cases hq
    · exact h₂ q j hq

theorem inode_write_at_undenied (buffer : List UInt8) (offset : Nat) (h : Undenied k) :
    (inode_write_at p buffer offset).Ends k fun _ => Undenied := by
  refine deref_bind_ends fun i hp => .ite (fun _ => .pure h) fun _ => ?_
  refine .bind ((below_inode_extend _ _).undenied h) fun d k₁ h₁ => ?_
  refine .modify_bind ((below_onDevice _).undenied ?_)
  exact h₁.setInode (h p i hp)

/-- A peaceful operation keeps the counters at zero. -/
theorem disk_api_undenied (o : FsOp) (k : Fs) (ho : o.peaceful = true) (h : Undenied k) :
    (disk_api o).Ends k fun _ => Undenied := by
  cases o with
  | inode_open s => exact inode_open_undenied s h
  | inode_reopen p => exact inode_reopen_undenied h
  | inode_close p => exact inode_close_undenied p h
  | inode_remove p | set_dir_parent p =>
    exact deref_bind_ends fun i hp => .modify (h.setInode (h p i hp))
  | inode_stat p => exact deref_bind_ends fun _ _ => .pure h
  | inode_read_at p size offset => exact (below_inode_read_at p size offset).undenied h
  | inode_write_at p buffer offset => exact inode_write_at_undenied buffer offset h
  | inode_create s length is_dir =>
    exact .ite (fun _ => (below_inode_create _ _ _).undenied h) fun _ => .panic
  | inode_lock_acquire p =>
    refine deref_bind_ends fun i hp => .ite (fun _ => ?_) fun _ =>
      Machine.Ends.modify (h.setInode (h p i hp))
    exact .bind (Q := fun _ _ => True) (.emit trivial) fun _ _ _ => .panic
  | inode_lock_release p =>
    exact deref_bind_ends fun i hp => .ite
      (fun _ => .modify (h.setInode (h p i hp))) fun _ => .panic
  | free_map_allocate => exact (below_free_map_allocate 1).undenied h
  | free_map_release s => exact (below_free_map_release s 1).undenied h
  | panic => exact .panic
  | inode_deny_write | inode_allow_write => cases ho

/-- So does a peaceful program. -/
theorem Peaceful.undenied {α : Type} {q : FsProg α} {Q : α → Prop} (hq : Peaceful q Q)
    (h : Undenied k) : (q.run disk_api).Ends k fun a k' => Q a ∧ Undenied k' :=
  Prog.Calls.ends disk_api_undenied hq h

end Disk

end Pintos
