import Pintos.Filesys.Chdir
import Pintos.Filesys.File
import Pintos.Filesys.GrowthFailure

/-!
# Filesys — the current directories of a run

The threads change their directories, start other threads, which inherit them, and make other calls
of the file system in between.  A call is `Frugal` if it gives back no handle but those it takes; the
calls that have nothing to do with current directories are (`OtherCall.frugal`).  No call whatever
makes an open inode another one: while a handle is out on it, it has its sector, and is a directory or
none (`Descends`).

`chdir_enters_directories`: `filesys_chdir` enters directories only exactly if the walk along the
path fails or comes to no regular file; and in every run whose calls of it are such, the current
directory of each thread is null or an open directory.
-/

namespace Pintos
open Support List
open Prog (ends_bind ends_pure ends_op)

/-! ### What becomes of an open inode -/

/-- The inodes of `k'` that were there at `k` have the sector and the kind they had. -/
structure Descends (k k' : Fs) : Prop where
  next : k.next ≤ k'.next
  old : ∀ {p j}, k'.mem p = some j → p < k.next →
    ∃ i, k.mem p = some i ∧ j.sector = i.sector ∧ j.data.is_dir = i.data.is_dir

section Descends

variable {k k₁ k' : Fs} {p : Addr} {i j : Inode InodeDisk}

theorem Descends.refl (k : Fs) : Descends k k := ⟨le_rfl, fun hp _ => ⟨_, hp, rfl, rfl⟩⟩

theorem Descends.trans (h : Descends k k₁) (h' : Descends k₁ k') : Descends k k' := by
  refine ⟨h.next.trans h'.next, fun hp hlt => ?_⟩
  obtain ⟨i₁, hi₁, hs₁, hd₁⟩ := h'.old hp (hlt.trans_le h.next)
  obtain ⟨i, hi, hs, hd⟩ := h.old hi₁ hlt
  exact ⟨i, hi, hs₁.trans hs, hd₁.trans hd⟩

theorem Descends.of_same (h : SameTable k k') : Descends k k' :=
  ⟨h.next.ge, fun hp _ => ⟨_, h.mem ▸ hp, rfl, rfl⟩⟩

theorem Descends.set (hp : k.mem p = some i) (hs : j.sector = i.sector)
    (hd : j.data.is_dir = i.data.is_dir) : Descends k (k.setInode p j) := by
  refine ⟨le_rfl, fun {q l} hq _ => ?_⟩
  rw [Kernel.setInode_mem] at hq
  split at hq
  · rename_i e
    cases hq
    exact ⟨i, e ▸ hp, hs, hd⟩
  · exact ⟨l, hq, rfl, rfl⟩

/-- A new inode is at an address that was never used. -/
theorem Descends.malloc (k : Fs) (i : Inode InodeDisk) : Descends k (k.malloc i) := by
  refine ⟨Nat.le_succ _, fun {q l} hq hlt => ?_⟩
  rw [Kernel.malloc_mem, if_neg (Nat.ne_of_lt hlt)] at hq
  exact ⟨l, hq, rfl, rfl⟩

theorem Descends.free (k : Fs) (p : Addr) : Descends k (k.free p) := by
  refine ⟨le_rfl, fun {q l} hq _ => ?_⟩
  rw [Kernel.free_mem] at hq
  split at hq
  · cases hq
  · exact ⟨l, hq, rfl, rfl⟩

theorem inode_reopen_descends (p : Addr) (k : Fs) :
    (inode_reopen p : Machine Event Fs Addr).Ends k fun _ k' => Descends k k' :=
  deref_bind_ends fun _ hi => .modify_bind (.pure (.set hi rfl rfl))

/-- What a call does to the inodes that are open. -/
theorem disk_api_descends (o : FsOp) (k : Fs) : (disk_api o).Ends k fun _ k' => Descends k k' := by
  have hbelow : ∀ {α : Type} {m : Machine Event Fs α}, Below m →
      m.Ends k fun _ k' => Descends k k' := fun h => (h k).mono fun _ _ hk => .of_same hk
  cases o with
  | inode_open s =>
    refine .get_bind ?_
    cases k.opened s with
    | some p => exact inode_reopen_descends p k
    | none =>
      refine .bind (below_disk_load s k) fun d k₁ h₁ => .get_bind ?_
      exact .modify_bind (.pure ((Descends.of_same h₁).trans (.malloc k₁ _)))
  | inode_reopen p => exact inode_reopen_descends p k
  | inode_close p =>
    cases p with
    | none => exact .pure (.refl k)
    | some p =>
      refine deref_bind_ends fun i hi => .modify_bind ?_
      have hset : Descends k (k.setInode p { i with open_cnt := i.open_cnt - 1 }) :=
        .set hi rfl rfl
      refine .ite (fun _ => .modify_bind ?_) fun _ =>
        Machine.Ends.pure hset
      refine .bind (below_inode_retire _ _) fun _ k₁ h₁ => .modify ?_
      have hlink : Descends k ((k.setInode p { i with open_cnt := i.open_cnt - 1 }).unlink p) :=
        ⟨hset.next, hset.old⟩
      exact (hlink.trans (.of_same h₁)).trans (.free k₁ p)
  | inode_remove p =>
    exact deref_bind_ends fun _ hi => .modify (.set hi rfl rfl)
  | inode_stat p => exact deref_bind_ends fun _ _ => .pure (.refl k)
  | set_dir_parent p parent =>
    exact deref_bind_ends fun _ hi => .modify (.set hi rfl rfl)
  | inode_read_at p size offset => exact hbelow (below_inode_read_at p size offset)
  | inode_write_at p buffer offset =>
    refine deref_bind_ends fun i hi => .ite (fun _ => .pure (.refl k)) fun _ => ?_
    have hext : ∀ stop, (inode_extend i stop).Ends k fun d k₁ =>
        SameTable k k₁ ∧ d.is_dir = i.data.is_dir := by
      intro stop es d k₁ hr
      refine ⟨below_inode_extend _ _ k hr, ?_⟩
      have hkind : (inode_extend i stop).Ends k fun d _ => d.is_dir = i.data.is_dir :=
        Machine.Ends.ite (fun _ => .ite (fun _ => ?_) fun _ => ?_) fun _ => .pure rfl
      · exact hkind hr
      · exact .bind (Q := fun _ _ => True) (fun _ _ _ _ => trivial) fun _ _ _ =>
          Machine.Ends.panic
      · exact .bind (fun _ _ _ h => (inode_grow_done h).2.2) fun _ _ h => .pure h
    refine .bind (hext _) ?_
    rintro d k₁ ⟨h₁, hd⟩
    refine .modify_bind ((below_onDevice _ _).mono fun _ k₂ h₂ => ?_)
    have hi₁ : k₁.mem p = some i := by rw [h₁.mem, hi]
    have hset : Descends k₁ (k₁.setInode p { i with data := d }) := .set hi₁ rfl hd
    exact ((Descends.of_same h₁).trans hset).trans (.of_same h₂)
  | inode_create s length is_dir =>
    exact .ite (fun _ => hbelow (below_inode_create s _ is_dir)) fun _ =>
      Machine.Ends.panic
  | inode_lock_acquire p =>
    refine inode_lock_acquire_ends.mono ?_
    rintro - k' ⟨i, hi, -, rfl⟩
    exact .set hi rfl rfl
  | inode_lock_release p =>
    refine inode_lock_release_ends.mono ?_
    rintro - k' ⟨i, hi, rfl⟩
    exact .set hi rfl rfl
  | inode_deny_write p =>
    refine deref_bind_ends fun i hi => .modify_bind ?_
    exact .ite (fun _ => .pure (.set hi rfl rfl)) fun _ =>
      Machine.Ends.panic
  | inode_allow_write p =>
    refine deref_bind_ends fun i hi => .ite (fun _ => ?_) fun _ => .panic
    exact .modify (.set hi rfl rfl)
  | free_map_allocate => exact hbelow (below_free_map_allocate 1)
  | free_map_release s => exact hbelow (below_free_map_release s 1)
  | panic => exact .panic

/-- So does any program. -/
theorem run_descends {α : Type} (m : FsProg α) (k : Fs) :
    (m.run disk_api).Ends k fun _ k' => Descends k k' := by
  refine (Prog.Calls.ends (P := fun k' => Descends k k') (fun o k₁ _ h₁ => ?_)
    (Prog.calls_any m) (.refl k)).mono fun _ _ h => h.2
  exact (disk_api_descends o k₁).mono fun _ _ h => h₁.trans h

/-- An inode with a handle out on it stays the inode it was. -/
theorem Descends.still_open {held held' : Addr → Nat} (h : Descends k k') (ht : TableOk held k)
    (ht' : TableOk held' k') (hp : k.mem p = some i) (hpos : 0 < held' p) :
    ∃ j, k'.mem p = some j ∧ j.sector = i.sector ∧ j.data.is_dir = i.data.is_dir := by
  obtain ⟨j, hj⟩ := (ht'.handles p).mp hpos
  have hlt : p < k.next := by
    by_contra hge
    rw [ht.fresh p (Nat.le_of_not_lt hge)] at hp
    cases hp
  obtain ⟨i', hi', hs, hd⟩ := h.old hj hlt
  obtain rfl := Option.some.inj (hp.symm.trans hi')
  exact ⟨j, hj, hs, hd⟩

end Descends

/-! ### Handles -/

/-- `m` gives back no handle but those it takes. -/
def Frugal {α : Type} (m : FsProg α) : Prop :=
  ∀ ⦃k : Fs⦄ ⦃held : Addr → Nat⦄, TableOk held k →
    (m.run disk_api).Ends k fun _ k' => ∃ held', held ≤ held' ∧ TableOk held' k'

/-- The calls on paths and files that leave the handles of the threads alone. -/
inductive OtherCall : ∀ {α : Type}, FsProg α → Prop where
  | filesys_create (current_dir : Option Dir) (path : List UInt8) (initial_size : Int)
      (is_dir : Bool) (e : List UInt8) :
      OtherCall (filesys_create current_dir path initial_size is_dir e)
  | filesys_remove (current_dir : Option Dir) (path : List UInt8) :
      OtherCall (filesys_remove current_dir path)
  | file_read (file : OpenFile) (size : Int) : OtherCall (file_read file size)
  | file_write (file : OpenFile) (buffer : List UInt8) : OtherCall (file_write file buffer)
  | file_deny_write (file : OpenFile) (byte : Bool) : OtherCall (file_deny_write file byte)
  | file_allow_write (file : OpenFile) (byte : Bool) : OtherCall (file_allow_write file byte)
  | file_length (file : OpenFile) : OtherCall (file_length file)
  | file_seek (file : OpenFile) (new_pos : Int) : OtherCall (file_seek file new_pos)
  | dir_readdir (dir : Dir) : OtherCall (dir_readdir dir)
  | inode_is_dir (p : Addr) : OtherCall (inode_is_dir p)
  | inode_get_inumber (p : Addr) : OtherCall (inode_get_inumber p)

/-- Whether `dir` is a handle on the inode at `p`. -/
def on (dir : Option Dir) (p : Addr) : Nat := if dir.map Dir.inode = some p then 1 else 0

section Frugal

variable {α : Type} {k : Fs} {held : Addr → Nat} {current_dir : Option Dir} {m : FsProg α}

theorem on_some (dir : Dir) (p : Addr) :
    on (some dir) p = (Pi.single dir.inode 1 : Addr → Nat) p := by
  by_cases e : p = dir.inode
  · subst e
    simp [on]
  · simp [on, e, Ne.symm e]

theorem below_dir_is_root (dir : Dir) : Below ((dir_is_root (some dir)).run disk_api) :=
  fun k => ends_bind (below_stat _ k) fun _ _ h => ends_pure h

theorem Neutral.frugal (h : Neutral m) : Frugal m :=
  fun _ held ht => (h ht).mono fun _ _ h' => ⟨held, le_rfl, h'⟩

/-- A walk along a path, and then what gives back the handle that the walk has ended with. -/
theorem frugal_from_path {n : Option Dir → FsProg α} (path : List UInt8) (hnone : Neutral (n none))
    (hsome : ∀ dir ⦃k : Fs⦄ ⦃held : Addr → Nat⦄, TableOk (plus held dir.inode) k →
      ((n (some dir)).run disk_api).Ends k fun _ k' => TableOk held k') :
    Frugal (dir_from_path current_dir path >>= n) := by
  intro k held ht
  refine ends_bind (dir_from_path_ends current_dir path ht) ?_
  rintro r k₁ ⟨held₁, h₁, hr⟩
  cases r with
  | none => exact (hnone h₁.table).mono fun _ _ h => ⟨held₁, h₁.le, h⟩
  | some dir =>
    obtain rfl := hr dir rfl
    exact (hsome dir h₁.table).mono fun _ _ h => ⟨held, le_rfl, h⟩

theorem frugal_filesys_create (path : List UInt8) (initial_size : Int) (is_dir : Bool)
    (e : List UInt8) : Frugal (filesys_create current_dir path initial_size is_dir e) := by
  have hrelease : ∀ s, Neutral (call (.free_map_release s)) := fun s =>
    .op fun k _ ht => (below_free_map_release s 1 k).mono fun _ _ hk => ht.same hk
  refine frugal_from_path path ?_ fun dir k held ht => ?_
  · refine .bind (neutral_create_in _ _ _ _ _) fun r => ?_
    have hclose : Neutral (do dir_close none; pure r.1) := .bind (.pure _) fun _ => .pure _
    exact .ite (.bind (hrelease _) fun _ => hclose) hclose
  · refine ends_bind (neutral_create_in _ _ _ _ _ ht) fun r k₁ h₁ => ?_
    split
    · refine ends_bind (hrelease _ h₁) fun _ k₂ h₂ => ?_
      exact ends_bind (dir_close_ends h₂) fun _ _ h => ends_pure h
    · exact ends_bind (dir_close_ends h₁) fun _ _ h => ends_pure h

theorem frugal_filesys_remove (path : List UInt8) : Frugal (filesys_remove current_dir path) := by
  refine frugal_from_path path (.pure _) fun dir k held ht => ?_
  refine ends_bind (neutral_dir_remove _ _ ht) fun b k₁ h₁ => ?_
  exact ends_bind (dir_close_ends h₁) fun _ _ h => ends_pure h

theorem neutral_deny_write (p : Addr) : Neutral (call (.inode_deny_write p)) :=
  .op fun _ _ ht => deref_bind_ends fun _ hi => .modify_bind
    (.ite (fun _ => .pure (ht.update hi rfl rfl)) fun _ => .panic)

theorem neutral_allow_write (p : Addr) : Neutral (call (.inode_allow_write p)) :=
  .op fun _ _ ht => deref_bind_ends fun _ hi =>
    .ite (fun _ => .modify (ht.update hi rfl rfl)) fun _ => .panic

theorem neutral_dir_readdir (dir : Dir) : Neutral (dir_readdir dir) := by
  have hloop : ∀ turns pos, Neutral (dir_readdir_loop dir.inode turns pos) := by
    intro turns
    induction turns with
    | zero => exact fun _ => .pure _
    | succ turns ih =>
      exact fun _ => .bind (neutral_read_at _ _) fun _ => .ite (.ite (.pure _) (ih _)) (.pure _)
  exact .bind neutral_lock_acquire fun _ => .bind (neutral_stat _) fun _ =>
    .bind (hloop _ _) fun _ => .bind neutral_lock_release fun _ => .pure _

theorem OtherCall.frugal (h : OtherCall m) : Frugal m := by
  cases h with
  | filesys_create => exact frugal_filesys_create ..
  | filesys_remove => exact frugal_filesys_remove ..
  | file_read => exact Neutral.frugal (.bind (neutral_read_at _ _) fun _ => .pure _)
  | file_write =>
    refine Neutral.frugal (.bind ?_ fun _ => .pure _)
    unfold write_wrapped
    exact .ite (neutral_write_at _ _) (.ite (neutral_write_at _ _) (.pure _))
  | file_deny_write =>
    exact Neutral.frugal (.ite (.pure _) (.bind (neutral_deny_write _) fun _ => .pure _))
  | file_allow_write =>
    exact Neutral.frugal (.ite (.bind (neutral_allow_write _) fun _ => .pure _) (.pure _))
  | file_seek => exact Neutral.frugal (.ite (.pure _) neutral_assert_failed)
  | dir_readdir => exact (neutral_dir_readdir _).frugal
  | file_length | inode_is_dir | inode_get_inumber => exact (neutral_stat _).frugal

/-- `filesys_chdir` gives back the handle on the old current directory at most, and takes one on the
new. -/
theorem filesys_chdir_handles (path : List UInt8) (ht : TableOk held k)
    (hcwd : ∀ cwd ∈ current_dir, 0 < held cwd.inode) :
    ((filesys_chdir current_dir path).run disk_api).Ends k fun r k' => ∃ held',
      TableOk held' k' ∧ (∀ p, held p + on r.2 p ≤ held' p + on current_dir p) ∧
      (r.1 = false → r.2 = current_dir) := by
  refine ends_bind (dir_from_path_ends current_dir path ht) ?_
  rintro r k₁ ⟨held₁, h₁, hr⟩
  cases r with
  | none =>
    exact ends_pure ⟨held₁, h₁.table, fun p => Nat.add_le_add_right (h₁.le p) _, fun _ => rfl⟩
  | some dir =>
    obtain rfl := hr dir rfl
    have hkept : ∀ {k' : Fs} (d : Dir), TableOk (plus held d.inode) k' → ∃ held',
        TableOk held' k' ∧ (∀ p, held p + on (some d) p ≤ held' p + on current_dir p) ∧
        (true = false → some d = current_dir) := by
      intro k' d hd
      refine ⟨_, hd, fun p => ?_, nofun⟩
      rw [on_some]
      exact Nat.le_add_right _ _
    dsimp only
    split
    · exact ends_pure (hkept dir h₁.table)
    refine ends_bind (below_dir_is_root dir k₁) fun is_root k₂ h₂ => ?_
    have ht₂ := h₁.table.same h₂
    split
    · exact ends_pure (hkept dir ht₂)
    refine component_inode_counts _ ht₂ fun r k₃ h₃ => ?_
    cases r with
    | none =>
      exact .pure ⟨held, h₃, fun p => le_rfl, fun _ => rfl⟩
    | some q =>
      refine ends_bind (Q := fun d k' => d = some ⟨q, 0⟩ ∧ k' = k₃) (ends_pure ⟨rfl, rfl⟩) ?_
      rintro _ k₃ ⟨rfl, rfl⟩
      cases current_dir with
      | none => exact .pure (hkept ⟨q, 0⟩ h₃)
      | some cwd =>
        have hpos := hcwd cwd rfl
        refine ends_bind (ends_op (h₃.close_ends disk_backend_quiet
          (Nat.lt_of_lt_of_le hpos (Nat.le_add_right _ _)))) fun _ k' h' => ?_
        refine ends_pure ⟨_, h'.1, fun p => ?_, nofun⟩
        rw [on_some, on_some]
        simp only [taken, minus, plus, Pi.sub_apply, Pi.add_apply]
        omega

end Frugal

/-! ### Runs -/

/-- The part of `thread_create` that sets the current directory of the new thread. -/
def inherit_dir : Option Dir → FsProg (Option Dir)
  | none => pure none
  | some current_dir => dir_reopen current_dir

/-- The file system, the current directory of each thread and the other handles in use. -/
structure Threads where
  fs : Fs
  current_dirs : List (Option Dir)
  files : List Addr

/-- The handles of the threads. -/
def Threads.handles (s : Threads) : List Addr :=
  s.current_dirs.filterMap (Option.map Dir.inode) ++ s.files

/-- `k` holds a tree in which the current directory is there, and the path names a directory. -/
def ChdirOk (k : Fs) (current_dir : Option Dir) (path : List UInt8) : Prop :=
  ∃ D f held, AtRest held f ∧ CwdOk f current_dir ∧
    (f.dev.nodes FREE_MAP_SECTOR).is_dir = false ∧ Mirrors D f k ∧ NamesDir f current_dir path

/-- A run of the threads from `s₀`. -/
inductive ThreadsRun (s₀ : Threads) : Threads → Prop where
  | start : ThreadsRun s₀ s₀
  | filesys_chdir {s : Threads} {before after : List (Option Dir)} {current_dir : Option Dir}
      {path : List UInt8} {es : List Event} {r : Bool × Option Dir} {k' : Fs}
      (run : ThreadsRun s₀ s) (thread : s.current_dirs = before ++ current_dir :: after)
      (ok : ChdirOk s.fs current_dir path)
      (returns : (filesys_chdir current_dir path).run disk_api s.fs = (es, .done r k'))
      (inTable : ∀ e ∈ es, e.InTable) : ThreadsRun s₀ ⟨k', before ++ r.2 :: after, s.files⟩
  | thread_create {s : Threads} {current_dir : Option Dir} {es : List Event} {r : Option Dir}
      {k' : Fs} (run : ThreadsRun s₀ s) (thread : current_dir ∈ s.current_dirs)
      (returns : (inherit_dir current_dir).run disk_api s.fs = (es, .done r k')) :
      ThreadsRun s₀ ⟨k', r :: s.current_dirs, s.files⟩
  | filesys_open {s : Threads} {current_dir : Option Dir} {path : List UInt8} {es : List Event}
      {file : Option OpenFile} {k' : Fs} (run : ThreadsRun s₀ s)
      (returns : (filesys_open current_dir path).run disk_api s.fs = (es, .done file k')) :
      ThreadsRun s₀ ⟨k', s.current_dirs, (file.map OpenFile.inode).toList ++ s.files⟩
  | file_close {s : Threads} {file : OpenFile} {byte : Bool} {es : List Event} {k' : Fs}
      (run : ThreadsRun s₀ s) (opened : file.inode ∈ s.files)
      (returns : (file_close file byte).run disk_api s.fs = (es, .done () k')) :
      ThreadsRun s₀ ⟨k', s.current_dirs, s.files.erase file.inode⟩
  | call {s : Threads} {α : Type} {m : FsProg α} {es : List Event} {r : α} {k' : Fs}
      (run : ThreadsRun s₀ s) (call : OtherCall m)
      (returns : m.run disk_api s.fs = (es, .done r k')) :
      ThreadsRun s₀ ⟨k', s.current_dirs, s.files⟩

/-- Every current directory is null or an open directory, and the handles of the threads are among
those that are out. -/
structure Threads.Sound (s : Threads) : Prop where
  counted : ∃ held, TableOk held s.fs ∧ ∀ p, s.handles.count p ≤ held p
  open_dir : ∀ dir, some dir ∈ s.current_dirs → ∃ i, s.fs.mem dir.inode = some i ∧
    i.data.is_dir = true

section Runs

variable {s s₀ : Threads} {k' k : Fs} {dir : Dir} {before after : List (Option Dir)}
  {current_dir : Option Dir} {held : Addr → Nat}

theorem count_inodes (dirs : List (Option Dir)) (p : Addr) :
    ((current_dir :: dirs).filterMap (Option.map Dir.inode)).count p =
      (dirs.filterMap (Option.map Dir.inode)).count p + on current_dir p := by
  cases current_dir with
  | none => simp [on]
  | some dir =>
    have hcons : (some dir :: dirs).filterMap (Option.map Dir.inode) =
      dir.inode :: dirs.filterMap (Option.map Dir.inode) := rfl
    rw [hcons, count_cons, on]
    simp

/-- A handle in use is out. -/
theorem Threads.handles_pos (hc : ∀ p, s.handles.count p ≤ held p)
    (hdir : some dir ∈ s.current_dirs) : 0 < held dir.inode := by
  refine lt_of_lt_of_le (List.count_pos_iff.mpr ?_) (hc _)
  exact mem_append_left _ (List.mem_filterMap.mpr ⟨some dir, hdir, rfl⟩)

/-- A call that leaves every handle of the threads out leaves the current directories open. -/
theorem Threads.Sound.keeps (h : s.Sound) (hk : Descends s.fs k') {held' : Addr → Nat}
    (ht : TableOk held' k') (hdir : some dir ∈ s.current_dirs) (hpos : 0 < held' dir.inode) :
    ∃ i, k'.mem dir.inode = some i ∧ i.data.is_dir = true := by
  obtain ⟨⟨held, htable, -⟩, hopen⟩ := h
  obtain ⟨i, hi, hd⟩ := hopen dir hdir
  obtain ⟨j, hj, -, hjd⟩ := hk.still_open htable ht hi hpos
  exact ⟨j, hj, hjd.trans hd⟩

/-- One thread has the current directory `current_dir`; the handles of all. -/
theorem count_handles (k : Fs) (files : List Addr) (p : Addr) :
    (Threads.mk k (before ++ current_dir :: after) files).handles.count p =
      (Threads.mk k (before ++ after) files).handles.count p + on current_dir p := by
  simp only [Threads.handles, filterMap_append, count_append, count_inodes]
  omega

/-- What `filesys_chdir` enters is open, and a directory. -/
theorem ChdirOk.enters {path : List UInt8} {es : List Event} {r : Bool × Option Dir}
    (h : ChdirOk k current_dir path)
    (hr : (filesys_chdir current_dir path).run disk_api k = (es, .done r k'))
    (he : ∀ e ∈ es, e.InTable) (htrue : r.1 = true) :
    ∀ dir ∈ r.2, ∃ i, k'.mem dir.inode = some i ∧ i.data.is_dir = true := by
  obtain ⟨D, f, held, hrest, hcwd, hmap, hm, hnames⟩ := h
  obtain ⟨hiff, f', hdev, hm'⟩ := (chdir_enters_iff hrest hcwd hmap hm path).of_done hr he
  obtain ⟨t, -, hdir, d, i, hd, hi, rfl⟩ := (hiff.mpr hnames).entered htrue
  intro dir hmem
  obtain rfl : d = dir := Option.some.inj (hd.symm.trans hmem)
  refine ⟨i, hi, ?_⟩
  obtain ⟨hlive, hdata⟩ := hm'.volume.loaded hi
  rw [hdata, ← (hm'.nodes hlive).is_dir, hdev]
  exact hdir.2

theorem inherit_dir_ends (current_dir : Option Dir) (ht : TableOk held k) :
    ((inherit_dir current_dir).run disk_api).Ends k fun r k' =>
      r.map Dir.inode = current_dir.map Dir.inode ∧
      ∃ held', TableOk held' k' ∧ ∀ p, held p + on r p ≤ held' p := by
  cases current_dir with
  | none => exact ends_pure ⟨rfl, held, ht, fun p => le_rfl⟩
  | some cwd =>
    refine ends_bind (ends_op (inode_reopen_ends ht)) ?_
    rintro q k' ⟨rfl, h'⟩
    refine ends_pure ⟨rfl, _, h'.table, fun p => ?_⟩
    rw [on_some]
    exact le_rfl

theorem file_close_table (file : OpenFile) (byte : Bool) (ht : TableOk held k)
    (hpos : 0 < held file.inode) :
    ((file_close file byte).run disk_api).Ends k fun _ k' =>
      TableOk (minus held file.inode) k' := by
  have hclose : ∀ {k₁ : Fs}, TableOk held k₁ →
      ((call (.inode_close (some file.inode))).run disk_api).Ends k₁ fun _ k' =>
        TableOk (minus held file.inode) k' := fun h₁ =>
    ends_op ((h₁.close_ends disk_backend_quiet hpos).mono fun _ _ h => h.1)
  have hdeny : ∀ deny_write : Bool, ((if deny_write then do
      call (.inode_allow_write file.inode)
      call (.inode_close (some file.inode))
    else call (.inode_close (some file.inode)) : FsProg Unit).run disk_api).Ends k fun _ k' =>
      TableOk (minus held file.inode) k' := by
    intro deny_write
    cases deny_write with
    | true => exact ends_bind (neutral_allow_write _ ht) fun _ k₁ h₁ => hclose h₁
    | false => exact hclose ht
  cases file with
  | file f => exact hdeny f.deny_write
  | dir d => exact hdeny byte

/-- The current directories stay open directories. -/
theorem ThreadsRun.sound (h₀ : s₀.Sound) (h : ThreadsRun s₀ s) : s.Sound := by
  induction h with
  | start => exact h₀
  | @filesys_chdir s before after current_dir path es r k' _ hthread hok hr he ih =>
    obtain ⟨held, htable, hc⟩ := ih.counted
    have hmem : ∀ cwd, some cwd = current_dir → some cwd ∈ s.current_dirs := by
      rintro cwd rfl
      rw [hthread]
      exact mem_append_right _ (List.mem_cons_self ..)
    obtain ⟨held', ht', hle, hfalse⟩ := filesys_chdir_handles path htable
      (fun cwd hcwd => s.handles_pos hc (hmem cwd hcwd.symm)) hr
    have hcount : ∀ p, (Threads.mk k' (before ++ r.2 :: after) s.files).handles.count p ≤
        held' p := by
      intro p
      have hp := hc p
      rw [show s = ⟨s.fs, before ++ current_dir :: after, s.files⟩ by rw [← hthread],
        count_handles] at hp
      rw [count_handles]
      have := hle p
      have hsame : (Threads.mk k' (before ++ after) s.files).handles =
        (Threads.mk s.fs (before ++ after) s.files).handles := rfl
      rw [hsame]
      omega
    refine ⟨⟨held', ht', hcount⟩, fun dir hdir => ?_⟩
    have hkeep : some dir ∈ s.current_dirs → ∃ i, k'.mem dir.inode = some i ∧
        i.data.is_dir = true := fun hold =>
      ih.keeps (run_descends _ _ hr) ht' hold (Threads.handles_pos hcount hdir)
    rcases List.mem_append.mp hdir with hb | hb
    · exact hkeep (by rw [hthread]; exact mem_append_left _ hb)
    rcases List.mem_cons.mp hb with hnew | ha
    · cases htrue : r.1 with
      | true => exact hok.enters hr he htrue dir hnew.symm
      | false => exact hkeep (hmem dir (hnew.trans (hfalse htrue)))
    · exact hkeep (by rw [hthread]; exact mem_append_right _ (List.mem_cons_of_mem _ ha))
  | @thread_create s current_dir es r k' _ hthread hr ih =>
    obtain ⟨held, htable, hc⟩ := ih.counted
    obtain ⟨hinode, held', ht', hle⟩ := inherit_dir_ends current_dir htable hr
    have hcount : ∀ p, (Threads.mk k' (r :: s.current_dirs) s.files).handles.count p ≤ held' p := by
      intro p
      have hp : s.handles.count p ≤ held p := hc p
      have := hle p
      simp only [Threads.handles, count_append, count_inodes] at hp ⊢
      omega
    refine ⟨⟨held', ht', hcount⟩, fun dir hdir => ?_⟩
    have hpos := Threads.handles_pos hcount hdir
    rcases List.mem_cons.mp hdir with rfl | hold
    · -- the new thread has the inode of a current directory
      obtain ⟨cwd, rfl, hcwd⟩ := Option.map_eq_some_iff.mp hinode.symm
      rw [← hcwd] at hpos ⊢
      exact ih.keeps (run_descends _ _ hr) ht' hthread hpos
    · exact ih.keeps (run_descends _ _ hr) ht' hold hpos
  | @filesys_open s current_dir path es file k' _ hr ih =>
    obtain ⟨held, htable, hc⟩ := ih.counted
    obtain ⟨held', h', hfile⟩ := filesys_open_ends current_dir path htable hr
    have hcount : ∀ p, (Threads.mk k' s.current_dirs
        ((file.map OpenFile.inode).toList ++ s.files)).handles.count p ≤ held' p := by
      intro p
      have hp : s.handles.count p ≤ held p := hc p
      cases file with
      | none => exact hp.trans (h'.le p)
      | some file =>
        obtain ⟨rfl, -⟩ := hfile file rfl
        simp only [Threads.handles, count_append, Option.map_some, Option.toList_some, count_cons,
          count_nil] at hp ⊢
        by_cases e : p = file.inode
        · subst e
          rw [plus_self]
          simp only [beq_self_eq_true, if_true]
          omega
        · rw [plus_of_ne e]
          simp only [beq_iff_eq, Ne.symm e, if_false]
          omega
    refine ⟨⟨_, h'.table, hcount⟩, fun dir hdir => ?_⟩
    exact ih.keeps (run_descends _ _ hr) h'.table hdir (Threads.handles_pos hcount hdir)
  | @file_close s file byte es k' _ hfile hr ih =>
    obtain ⟨held, htable, hc⟩ := ih.counted
    have hin : 0 < s.handles.count file.inode :=
      List.count_pos_iff.mpr (mem_append_right _ hfile)
    have ht' := file_close_table file byte htable (lt_of_lt_of_le hin (hc _)) hr
    have hcount : ∀ p, (Threads.mk k' s.current_dirs (s.files.erase file.inode)).handles.count p ≤
        minus held file.inode p := by
      intro p
      have hp : s.handles.count p ≤ held p := hc p
      simp only [Threads.handles, count_append, count_erase] at hp ⊢
      have hpos : 0 < s.files.count file.inode := List.count_pos_iff.mpr hfile
      by_cases e : p = file.inode
      · subst e
        rw [minus_self]
        simp only [beq_self_eq_true, if_true]
        omega
      · rw [minus_of_ne e]
        simp only [beq_iff_eq, Ne.symm e, if_false]
        omega
    refine ⟨⟨_, ht', hcount⟩, fun dir hdir => ?_⟩
    exact ih.keeps (run_descends _ _ hr) ht' hdir (Threads.handles_pos hcount hdir)
  | @call s α m es r k' _ hm hr ih =>
    obtain ⟨held, htable, hc⟩ := ih.counted
    obtain ⟨held', hle, ht'⟩ := hm.frugal htable hr
    have hcount : ∀ p, (Threads.mk k' s.current_dirs s.files).handles.count p ≤ held' p :=
      fun p => (hc p).trans (hle p)
    refine ⟨⟨held', ht', hcount⟩, fun dir hdir => ?_⟩
    exact ih.keeps (run_descends _ _ hr) ht' hdir (Threads.handles_pos hcount hdir)

/-- **Current directories.**  From every tree, current directory and path `filesys_chdir` returns;
it enters directories only exactly if the walk along the whole path fails or comes to no regular
file.  In every run whose calls of it are such, the current directory of each thread is null or an
open directory. -/
theorem chdir_enters_directories {D : Sector → InodeDisk} {f : Flat} {held : Addr → Nat}
    (h : AtRest held f) (hcwd : CwdOk f current_dir)
    (hmap : (f.dev.nodes FREE_MAP_SECTOR).is_dir = false) (hm : Mirrors D f k) (h₀ : s₀.Sound)
    (hrun : ThreadsRun s₀ s) (path : List UInt8) :
    ((filesys_chdir current_dir path).run disk_api).Runs Event.InTable k (fun _ r k' =>
      EntersDir f k k' current_dir path r ↔ NamesDir f current_dir path) ∧
    ∀ cwd ∈ s.current_dirs, cwd = none ∨ ∃ dir i, cwd = some dir ∧
      s.fs.mem dir.inode = some i ∧ i.data.is_dir = true := by
  refine ⟨?_, fun cwd hmem => ?_⟩
  · exact (chdir_enters_iff h hcwd hmap hm path).mono fun _ _ _ _ hiff => hiff.1
  · cases cwd with
    | none => exact .inl rfl
    | some dir =>
      obtain ⟨i, hi, hd⟩ := (hrun.sound h₀).open_dir dir hmem
      exact .inr ⟨dir, i, rfl, hi, hd⟩

/-- One thread on the small tree, without a current directory. -/
def treeThreads : Threads := ⟨treeFs, [none], []⟩

theorem sound_treeThreads : treeThreads.Sound :=
  ⟨⟨_, tableOk_idleVolume, fun _ => Nat.zero_le _⟩, fun _ h => by cases List.mem_singleton.mp h⟩

/-- The thread enters the directory `d`, creates the file `c` there and starts another thread. -/
theorem chdir_enters_treeFs : AtRest (fun p => if p = 0 then 1 else 0) treeFlat ∧
    CwdOk treeFlat none ∧ Mirrors treeInodes treeFlat treeFs ∧ NamesDir treeFlat none [100] ∧
    ((filesys_chdir none [100]).run disk_api).Runs Event.InTable treeFs (fun _ r k' =>
      EntersDir treeFlat treeFs k' none [100] r) ∧
    treeThreads.Sound ∧ ∃ s dir, ThreadsRun treeThreads s ∧ s.current_dirs = [some dir, some dir] ∧
      ∀ cwd ∈ s.current_dirs, cwd = none ∨ ∃ dir i, cwd = some dir ∧
        s.fs.mem dir.inode = some i ∧ i.data.is_dir = true := by
  have hcwd : CwdOk treeFlat none := fun _ h => nomatch h
  have hnames : NamesDir treeFlat none [100] := .inr (by decide +kernel)
  have hcalls : ((returned ((filesys_chdir none [100]).run disk_api treeFs)).any fun r₁ =>
      decide (∀ e ∈ r₁.1, e.InTable) && decide (r₁.2.1.2 = some ⟨2, 0⟩) &&
      (returned ((filesys_create (some ⟨2, 0⟩) [99] 0 false (replicate 20 0)).run disk_api
        r₁.2.2)).any fun r₂ =>
      r₂.2.1 && (returned ((inherit_dir (some ⟨2, 0⟩)).run disk_api r₂.2.2)).any fun r₃ =>
      decide (r₃.2.1 = some ⟨2, 0⟩)) = true := by decide +kernel
  obtain ⟨⟨es₁, r₁, k₁⟩, h₁, hcalls⟩ := (Option.any_eq_true _ _).mp hcalls
  simp only [Bool.and_eq_true, decide_eq_true_eq] at hcalls
  obtain ⟨⟨hev, hdir₁⟩, hcalls⟩ := hcalls
  obtain ⟨⟨es₂, r₂, k₂⟩, h₂, hcalls⟩ := (Option.any_eq_true _ _).mp hcalls
  simp only [Bool.and_eq_true] at hcalls
  obtain ⟨-, hcalls⟩ := hcalls
  obtain ⟨⟨es₃, r₃, k₃⟩, h₃, hcalls⟩ := (Option.any_eq_true _ _).mp hcalls
  have hdir₃ : r₃ = some ⟨2, 0⟩ := of_decide_eq_true hcalls
  have hok : ChdirOk treeFs none [100] :=
    ⟨treeInodes, treeFlat, _, atRest_treeFlat, hcwd, rfl, mirrors_treeFs, hnames⟩
  have run₁ : ThreadsRun treeThreads ⟨k₁, [] ++ r₁.2 :: [], []⟩ :=
    .filesys_chdir .start rfl hok (returned_eq_some h₁) hev
  have run₂ := run₁.call (.filesys_create ..) (returned_eq_some h₂)
  have run₃ := run₂.thread_create (by rw [hdir₁]; exact List.mem_cons_self ..) (returned_eq_some h₃)
  obtain ⟨hcall, hdirs⟩ := chdir_enters_directories atRest_treeFlat hcwd rfl mirrors_treeFs
    sound_treeThreads run₃ [100]
  refine ⟨atRest_treeFlat, hcwd, mirrors_treeFs, hnames, ?_, sound_treeThreads, _, ⟨2, 0⟩, run₃, ?_,
    hdirs⟩
  · exact hcall.mono fun _ _ _ _ hiff => hiff.mpr hnames
  · rw [hdir₁, hdir₃]
    rfl

/-- `a` is a regular file, and `filesys_chdir` makes it the current directory. -/
theorem chdir_enters_file : treeFlat.dev.resolve ROOT_DIR_SECTOR (components [97]) = none ∧
    ((returned ((filesys_chdir none [97]).run disk_api treeFs)).any fun r =>
      r.2.1.1 && r.2.1.2.any fun dir => (r.2.2.mem dir.inode).any fun i =>
        i.sector == 3 && !i.data.is_dir) = true := by
  decide +kernel

end Runs

end Pintos
