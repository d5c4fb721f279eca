import Pintos.Filesys.Directory
import Pintos.Filesys.VolumeOk

/-!
# Filesys — the interface on the disk

`disk_api` is the interface of `inode.h` and `free-map.h` as `inode.c` and `free-map.c` implement it
on the disk.  The table of open inodes is in memory, and nothing below it touches it: a machine is
`Below` the table if it leaves the table as it is whenever it returns.  So what an operation does to
the table is what the functions of `OpenInodes` say, whatever the disk holds.
-/

namespace Pintos
open Support

/-- The interface on the disk. -/
def disk_api : FsApi Fs
  | .inode_open sector => inode_open disk_backend sector
  | .inode_reopen p => inode_reopen p
  | .inode_close p => inode_close disk_backend p
  | .inode_remove p => inode_remove p
  | .inode_stat p => do
    let inode ← deref p
    pure ⟨inode.sector, inode.open_cnt, inode.data.is_dir, inode.data.dir_parent,
      inode.data.length⟩
  | .set_dir_parent p parent => do
    let inode ← deref p
    Machine.modify fun k =>
      k.setInode p { inode with data := { inode.data with dir_parent := parent } }
  | .inode_read_at p size offset => inode_read_at p size offset
  | .inode_write_at p buffer offset => inode_write_at p buffer offset
  | .inode_create sector length is_dir =>
    -- `ASSERT (length >= 0)`
    if 0 ≤ length then inode_create sector length.toNat is_dir else Machine.panic
  | .inode_lock_acquire p => inode_lock_acquire p
  | .inode_lock_release p => inode_lock_release p
  | .inode_deny_write p => inode_deny_write p
  | .inode_allow_write p => inode_allow_write p
  | .free_map_allocate => free_map_allocate 1
  | .free_map_release sector => free_map_release sector 1
  | .panic => Machine.panic

/-! ### Below the table -/

/-- The tables of open inodes are the same. -/
structure SameTable {ι δ : Type} (k k' : Kernel ι δ) : Prop where
  mem : k'.mem = k.mem
  next : k'.next = k.next
  open_inodes : k'.open_inodes = k.open_inodes

/-- `m` leaves the table of open inodes as it is. -/
def Below {ι δ α : Type} (m : Machine Event (Kernel ι δ) α) : Prop :=
  ∀ k, m.Ends k fun _ k' => SameTable k k'

section Below

variable {ι δ α β : Type} {m : Machine Event (Kernel ι δ) α} {k k' k'' : Kernel ι δ} {p : Addr}

theorem SameTable.refl (k : Kernel ι δ) : SameTable k k := ⟨rfl, rfl, rfl⟩

theorem SameTable.trans (h : SameTable k k') (h' : SameTable k' k'') : SameTable k k'' :=
  ⟨h'.mem.trans h.mem, h'.next.trans h.next, h'.open_inodes.trans h.open_inodes⟩

theorem Below.pure (a : α) : Below (Pure.pure a : Machine Event (Kernel ι δ) α) :=
  fun k => .pure (SameTable.refl k)

theorem Below.panic : Below (Machine.panic : Machine Event (Kernel ι δ) α) :=
  fun _ => .panic

theorem Below.emit (e : Event) : Below (Machine.emit e : Machine Event (Kernel ι δ) Unit) :=
  fun k => .emit (SameTable.refl k)

theorem Below.modify {f : Kernel ι δ → Kernel ι δ} (h : ∀ k, SameTable k (f k)) :
    Below (Machine.modify f : Machine Event (Kernel ι δ) Unit) :=
  fun k => .modify (h k)

theorem Below.bind {n : α → Machine Event (Kernel ι δ) β} (h : Below m) (hn : ∀ a, Below (n a)) :
    Below (m >>= n) := fun k =>
  Machine.Ends.bind (h k) fun a k' hk => (hn a k').mono fun _ _ hk' => hk.trans hk'

theorem Below.get_bind {n : Kernel ι δ → Machine Event (Kernel ι δ) β} (h : ∀ k, Below (n k)) :
    Below (Machine.get >>= n) := fun k => .get_bind (h k k)

theorem Below.ite {c : Prop} [Decidable c] {m m' : Machine Event (Kernel ι δ) α} (h : Below m)
    (h' : Below m') : Below (if c then m else m') := by
  split
  · exact h
  · exact h'

theorem Below.forM {l : List β} {f : β → Machine Event (Kernel ι δ) PUnit}
    (h : ∀ b, Below (f b)) : Below (l.forM f) := by
  induction l with
  | nil => exact .pure _
  | cons b l ih => exact .bind (h b) fun _ => ih

theorem below_deref (p : Addr) : Below (deref p : Machine Event (Kernel ι δ) (Inode ι)) := by
  refine .get_bind fun k => ?_
  cases k.mem p with
  | none => exact .panic
  | some i => exact .pure i

/-- A call that returns has not dereferenced a bad address. -/
theorem deref_bind_ends {n : Inode ι → Machine Event (Kernel ι δ) α}
    {Q : α → Kernel ι δ → Prop} (h : ∀ i, k.mem p = some i → (n i).Ends k Q) :
    (deref p >>= n).Ends k Q := by
  intro es a k' hr
  cases hp : k.mem p with
  | none =>
    have hpanic : (deref p : Machine Event (Kernel ι δ) (Inode ι)) k = ([], .panic k) := by
      simp [deref, Machine.bind_run, hp]
    rw [Machine.bind_run_panic hpanic] at hr
    cases hr
  | some i => exact h i hp (((Machine.bind_run_silent (deref_run hp) rfl).symm.trans hr :))

end Below

section Disk

variable {α : Type}

theorem below_onDevice (m : Machine Event Device α) : Below (onDevice m) := fun _ =>
  Machine.Ends.zoom fun _ _ _ _ => ⟨rfl, rfl, rfl⟩

theorem below_uninit : Below uninit :=
  Below.get_bind fun _ => .bind (.modify fun _ => ⟨rfl, rfl, rfl⟩) fun _ => .pure _

theorem below_bitmap_write : Below bitmap_write := by
  refine .get_bind fun k => ?_
  split
  · exact .panic
  · refine .bind (below_deref _) fun i => .ite (.pure _) (.ite Below.panic ?_)
    exact .bind (below_onDevice _) fun _ => .pure _

theorem below_free_map_sync : Below free_map_sync := by
  refine .get_bind fun k => ?_
  split
  · exact .pure _
  · exact below_bitmap_write

theorem below_free_map_allocate (cnt : Nat) : Below (free_map_allocate cnt) := by
  refine .get_bind fun k => ?_
  split
  · exact .bind (.emit _) fun _ => .pure _
  · refine .bind (.modify fun _ => ⟨rfl, rfl, rfl⟩) fun _ => ?_
    refine .bind below_free_map_sync fun written => .ite ?_ ?_
    · exact .get_bind fun _ => .bind (.emit _) fun _ => .pure _
    · refine .bind (.modify fun _ => ⟨rfl, rfl, rfl⟩) fun _ => ?_
      exact .bind (.emit _) fun _ => .pure _

theorem below_free_map_release (s : Sector) (cnt : Nat) : Below (free_map_release s cnt) := by
  refine .get_bind fun k => .ite ?_ Below.panic
  refine .bind (.modify fun _ => ⟨rfl, rfl, rfl⟩) fun _ => ?_
  exact .bind (.emit _) fun _ => .bind below_bitmap_write fun _ => .pure _

theorem below_release_all (sectors : List Sector) : Below (release_all sectors) :=
  Below.forM fun s => below_free_map_release s 1

theorem below_free_level_two (level_one : Block) (count i : Nat) :
    Below (free_level_two level_one count i) :=
  Below.bind (below_onDevice _) fun _ => .bind (below_release_all _) fun _ =>
    below_free_map_release _ _

theorem below_free_inode (d : InodeDisk) : Below (free_inode d) := by
  refine .bind (below_release_all _) fun _ => .bind ?_ fun left => ?_
  · refine .ite (.pure _) (.bind (below_onDevice _) fun _ => ?_)
    refine .bind (below_release_all _) fun _ => ?_
    exact .bind (below_free_map_release _ _) fun _ => .pure _
  · refine .ite (.pure _) (.bind (below_onDevice _) fun one => ?_)
    refine .bind (.forM fun i => below_free_level_two _ _ _) fun _ => ?_
    refine .ite (below_free_map_release _ _) ?_
    exact .bind (below_free_level_two _ _ _) fun _ => below_free_map_release _ _

theorem below_allocate_into {τ : Type} (set : τ → Nat → Sector → τ) (arr : τ) (i : Nat) :
    Below (allocate_into set arr i) := by
  refine .bind (below_free_map_allocate 1) fun r => ?_
  cases r <;> exact .pure _

theorem below_grow_loop {τ : Type} (get : τ → Nat → Sector) (set : τ → Nat → Sector → τ)
    (limit g : Nat) : ∀ arr cnt, Below (grow_loop get set limit g arr cnt) := by
  induction g with
  | zero => exact fun _ _ => .pure _
  | succ g ih =>
    intro arr cnt
    refine .ite (.bind (below_allocate_into _ _ _) fun arr => ?_) (.pure _)
    exact .bind (below_onDevice _) fun _ => ih _ _

theorem below_index_block (i : Nat) (d : InodeDisk) (fresh : Bool) :
    Below (index_block i d fresh) := by
  refine .bind below_uninit fun _ => .ite ?_ ?_
  · exact .bind (below_allocate_into _ _ _) fun _ => .pure _
  · exact .bind (below_onDevice _) fun _ => .pure _

theorem below_level_two_block (one two : Block) (count : Nat) :
    Below (level_two_block one two count) := by
  refine .ite ?_ ?_
  · exact .bind (below_allocate_into _ _ _) fun _ => .pure _
  · exact .bind (below_onDevice _) fun _ => .pure _

theorem below_grow_level_two (fuel : Nat) : ∀ one two count g,
    Below (grow_level_two fuel one two count g) := by
  induction fuel with
  | zero => exact fun _ _ _ _ => .pure _
  | succ fuel ih =>
    intro one two count g
    refine .ite (.bind (below_level_two_block _ _ _) fun r => ?_) (.pure _)
    refine .bind (below_grow_loop _ _ _ _ _ _) fun s => ?_
    exact .bind (below_onDevice _) fun _ => ih _ _ _ _

theorem below_inode_grow (d : InodeDisk) (length : Nat) : Below (inode_grow d length) := by
  refine .bind (.emit _) fun _ => .ite (.pure _) ?_
  refine .bind ?_ fun r₁ => .bind ?_ fun r₂ => .bind ?_ fun _ => .pure _
  · exact .bind (below_grow_loop _ _ _ _ _ _) fun _ => .pure _
  · refine .ite (.pure _) (.bind (below_index_block _ _ _) fun r => ?_)
    refine .bind (below_grow_loop _ _ _ _ _ _) fun s => ?_
    exact .bind (below_onDevice _) fun _ => .pure _
  · refine .ite (.pure _) (.bind (below_index_block _ _ _) fun r => ?_)
    refine .bind below_uninit fun _ => .bind (below_grow_level_two _ _ _ _ _) fun s => ?_
    exact .bind (below_onDevice _) fun _ => .pure _

theorem below_inode_create (s : Sector) (length : Nat) (is_dir : Bool) :
    Below (inode_create s length is_dir) := by
  refine .bind (below_inode_grow _ _) fun r => .ite ?_ (.pure _)
  exact .bind (below_onDevice _) fun _ => .pure _

theorem below_inode_extend (i : Inode InodeDisk) (stop : Int) : Below (inode_extend i stop) := by
  refine .ite (.ite ?_ ?_) (.pure _)
  · exact .bind (.emit _) fun _ => .panic
  · exact .bind (below_inode_grow _ _) fun _ => .pure _

theorem below_inode_read_at (p : Addr) (size offset : Nat) : Below (inode_read_at p size offset) :=
  Below.bind (below_deref p) fun _ => below_onDevice _

theorem below_disk_load (s : Sector) : Below (disk_backend.load s) :=
  Below.bind (below_onDevice _) fun _ => .pure _

theorem below_inode_retire (i : Inode InodeDisk) : Below (inode_retire disk_backend i) := by
  refine .ite ?_ (below_onDevice _)
  exact .bind (below_free_map_release _ _) fun _ => below_free_inode _

/-- A read that returns has read up to the end of the file, or all it was asked for. -/
theorem inode_read_loop_length (d : InodeDisk) (fuel : Nat) : ∀ (size offset : Nat) (dev : Device),
    size ≤ fuel → (inode_read_loop d fuel size offset).Ends dev fun r _ =>
      r.length = min size (d.length - offset) := by
  induction fuel with
  | zero =>
    intro size offset dev hsize
    exact .pure (by simp; omega)
  | succ fuel ih =>
    intro size offset dev hsize
    refine .ite (fun h => .pure (by simp; omega)) fun hpos => ?_
    refine .bind (Q := fun _ _ => True) (fun _ _ _ _ => trivial) fun s dev₁ _ => ?_
    refine .ite (fun h => .pure ?_) fun hchunk => ?_
    · simp only [chunk_size] at h
      rw [List.length_nil]
      omega
    have hread : ∀ dev, (cache_read s (offset % 512) (chunk_size d size offset)).Ends dev
        fun r _ => r.length = chunk_size d size offset := fun dev => by
      refine .bind (Q := fun _ _ => True) (fun _ _ _ _ => trivial) fun i dev₁ _ => ?_
      refine .ite (fun _ => .panic) fun _ => .modify_bind ?_
      exact .get_bind (.pure (by simp [Bytes.read]))
    refine .bind (hread dev₁) fun bytes dev₂ hb => ?_
    refine .bind (ih _ _ dev₂ (by omega)) fun rest dev₃ hrest => .pure ?_
    have hle : chunk_size d size offset ≤ min size (d.length - offset) := by
      simp only [chunk_size]
      omega
    rw [List.length_append, hb, hrest]
    omega

theorem disk_read_ends (p : Addr) (size offset : Nat) (k : Fs) :
    (disk_api (.inode_read_at p size offset)).Ends k fun r k' => SameTable k k' ∧
      ∃ i, k.mem p = some i ∧ r.length = min size (i.data.length - offset) := by
  refine deref_bind_ends fun i hi => .zoom ?_
  exact (inode_read_loop_length _ _ _ _ _ le_rfl).mono fun r _ hr => ⟨⟨rfl, rfl, rfl⟩, i, hi, hr⟩

/-- No read of the disk is longer than asked for. -/
theorem disk_read_length (p : Addr) (size offset : Nat) (k : Fs) :
    (disk_api (.inode_read_at p size offset)).Ends k fun r _ => r.length ≤ size := by
  refine (disk_read_ends p size offset k).mono ?_
  rintro r _ ⟨-, i, -, hr⟩
  omega

end Disk

end Pintos
