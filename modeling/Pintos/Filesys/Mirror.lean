import Pintos.Filesys.FileContents
import Pintos.Filesys.TableRuns
import Pintos.Filesys.Tree

/-!
# Filesys — the disk holds the tree

`Mirrors D f k`: the inodes in memory are the same, and the files of `f` are those that the sound
volume of `k` holds; `D s` is what the inode of `s` says.

`disk_reads`: whenever a call that looks for a file is legal, it returns on the disk, with the
answer that it has on byte arrays, and the disk holds the tree still.  So what a program of such
calls does on byte arrays it does on the disk (`OnTree.disk`).  The one condition is that the cache
finds its slots in the table.
-/

namespace Pintos
open Support Option Function

/-- The inode, without what it says of the file. -/
def Inode.bare {ι : Type} (i : Inode ι) : Inode Unit :=
  ⟨i.sector, i.open_cnt, i.removed, i.deny_write_cnt, i.inode_lock, ()⟩

/-- The file `n` is the one that the inode `d` describes on the device. -/
structure Node.On (n : Node) (dev : Device) (d : InodeDisk) : Prop where
  is_dir : n.is_dir = d.is_dir
  dir_parent : n.dir_parent = d.dir_parent
  bytes : n.bytes = contents dev d

/-- The disk of `k` holds the files of `f`, and the inodes in memory are the same. -/
structure Mirrors (D : Sector → InodeDisk) (f : Flat) (k : Fs) : Prop where
  volume : VolOk (fun s => f.dev.live s = true) D k
  mem : ∀ p, f.mem p = (k.mem p).map Inode.bare
  next : f.next = k.next
  open_inodes : f.open_inodes = k.open_inodes
  free_map : f.dev.free_map = k.freeMap
  nodes : ∀ {s}, f.dev.live s = true → (f.dev.nodes s).On k.device (D s)

section Mirrors

variable {D : Sector → InodeDisk} {f : Flat} {k k' : Fs} {held : Addr → Nat} {p : Addr}
  {i : Inode Unit} {j : Inode InodeDisk}

theorem Mirrors.of_disk (h : Mirrors D f k) (hp : k.mem p = some j) : f.mem p = some j.bare := by
  rw [h.mem, hp]
  rfl

theorem Mirrors.of_flat (h : Mirrors D f k) (hp : f.mem p = some i) :
    ∃ j, k.mem p = some j ∧ j.bare = i := by
  rw [h.mem] at hp
  exact Option.map_eq_some_iff.mp hp

/-- The table is sound in memory if it is on byte arrays. -/
theorem Mirrors.table (h : Mirrors D f k) (ht : TableOk held f) : TableOk held k where
  nodup := h.open_inodes ▸ ht.nodup
  listed p := by
    rw [← h.open_inodes, ht.listed, h.mem]
    simp [map_eq_some_iff]
  fresh p hp := by
    have hn := ht.fresh p (le_of_eq_of_le h.next hp)
    rw [h.mem] at hn
    exact Option.map_eq_none_iff.mp hn
  unique hp hq hs := ht.unique (h.of_disk hp) (h.of_disk hq) hs
  counted hp := ht.counted (h.of_disk hp)
  handles p := by
    rw [ht.handles, h.mem]
    simp [map_eq_some_iff]

/-- The table is sound on byte arrays if it is in memory. -/
theorem Mirrors.table_flat (h : Mirrors D f k) (ht : TableOk held k) : TableOk held f where
  nodup := h.open_inodes ▸ ht.nodup
  listed p := by
    rw [h.open_inodes, ht.listed, h.mem]
    simp [map_eq_some_iff]
  fresh p hp := by
    rw [h.mem, ht.fresh p (le_of_eq_of_le h.next.symm hp)]
    rfl
  unique hp hq hs := by
    obtain ⟨i, hi, rfl⟩ := h.of_flat hp
    obtain ⟨j, hj, rfl⟩ := h.of_flat hq
    exact ht.unique hi hj hs
  counted hp := by
    obtain ⟨i, hi, rfl⟩ := h.of_flat hp
    exact ht.counted hi
  handles p := by
    rw [ht.handles, h.mem]
    simp [map_eq_some_iff]

/-- A field of an inode in memory changes that says nothing of the file. -/
theorem Mirrors.setInode (h : Mirrors D f k) (hp : k.mem p = some j) (j' : Inode InodeDisk)
    (hs : j'.sector = j.sector) (hd : j'.data = j.data)
    (hw : j'.deny_write_cnt = j.deny_write_cnt) :
    Mirrors D (f.setInode p j'.bare) (k.setInode p j') where
  volume := h.volume.setInode hp hs hd hw
  mem q := by
    rw [Kernel.setInode_mem, Kernel.setInode_mem]
    split
    · rfl
    · exact h.mem q
  next := h.next
  open_inodes := h.open_inodes
  free_map := h.free_map
  nodes := h.nodes

/-- The contents of the files are the same if the index blocks and the data are. -/
theorem Node.On.congr {n : Node} {dev dev' : Device} {d : InodeDisk} (h : n.On dev d)
    (hidx : ∀ t ∈ indexSectors dev.disk d d.sectors, dev'.disk t = dev.disk t)
    (hdata : ∀ t ∈ dataSectors dev.disk d d.sectors, dev'.logical t = dev.logical t) :
    n.On dev' d := by
  have hag : Agree dev.disk d dev'.disk d d.sectors := Agree.of_index (fun _ _ => rfl) hidx
  refine ⟨h.is_dir, h.dir_parent, h.bytes.trans (contents_congr fun pos hpos => ?_).symm⟩
  have hlt : pos / 512 < d.sectors := by
    show pos / 512 < (d.length + 511) / 512
    omega
  rw [byteAt, byteAt, hag.sectorAt_eq hlt, hdata _ (mem_dataSectors.mpr ⟨_, hlt, rfl⟩)]

/-- The cache reads data of a file. -/
theorem Mirrors.access {s : Sector} {dev : Device} {es : List Event} (h : Mirrors D f k)
    (hs : f.dev.live s = true)
    (ha : Access (· ∈ k.data (D s)) (fun _ => False) es k.device dev) :
    Mirrors D f (k.setDevice dev) := by
  have hquiet : ∀ {u t}, f.dev.live u = true → t ∈ k.index (D u) → dev.disk t = k.device.disk t :=
    fun hu ht => ha.disk_eq _ (fun hd => h.volume.index_unheld hu ht hd.resident) id
  refine ⟨?_, h.mem, h.next, h.open_inodes, h.free_map, fun hu => ?_⟩
  · refine h.volume.frame id ha.size_eq ha.ok rfl hquiet (fun t ht => ?_) (fun _ _ => id)
      h.volume.loaded (fun hu hcl => ?_) h.volume.map_live h.volume.map_file
    · exact (ha.resident t ht).imp_right fun hd => ⟨s, hs, hd⟩
    · rw [← h.volume.stored hu hcl]
      exact congrArg _ (ha.disk_eq _ (fun hd => h.volume.unheld hu hd.resident) id)
  · exact (h.nodes hu).congr (fun t ht => hquiet hu ht) fun t _ => ha.logical_eq t id

/-- An inode that is not open is loaded. -/
theorem Mirrors.malloc {s : Sector} (h : Mirrors D f k) (ht : TableOk held f)
    (hs : f.dev.live s = true) (hcl : ∀ q j, k.mem q = some j → j.sector ≠ s) :
    Mirrors D (f.malloc ⟨s, 1, false, 0, false, ()⟩)
      (k.malloc ⟨s, 1, false, 0, false, InodeDisk.ofBlock (k.device.disk s)⟩) where
  volume := h.volume.malloc ((h.table ht).fresh _ le_rfl) hs hcl rfl rfl
  mem q := by
    rw [Kernel.malloc_mem, Kernel.malloc_mem, h.next]
    split
    · rfl
    · exact h.mem q
  next := congrArg (· + 1) h.next
  open_inodes := congrArg₂ List.cons h.next h.open_inodes
  free_map := h.free_map
  nodes := h.nodes

/-- The last handle on an inode goes, and the inode is written to its sector. -/
theorem Mirrors.drop (h : Mirrors D f k) (hp : k.mem p = some j) (hc : j.open_cnt = 1)
    (hdrop : Dropped p k k')
    (hdev : k'.dev = (k.setDevice { k.device with
      disk := update k.device.disk j.sector j.data.toBlock }).dev)
    (hv : VolOk (fun s => f.dev.live s = true) D k') : Mirrors D (closed f p j.bare) k' := by
  have hclosed : closed f p j.bare =
      ((f.setInode p { j.bare with open_cnt := j.open_cnt - 1 }).unlink p).free p := if_pos hc
  have hdevice : k'.device = { k.device with
      disk := update k.device.disk j.sector j.data.toBlock } := congrArg Volume.device hdev
  have hj := (h.volume.loaded hp).1
  have hne : ∀ {u t}, f.dev.live u = true → t ∈ k.owned (D u) → t ≠ j.sector :=
    fun hu ht e => h.volume.apart hu hj (e ▸ ht)
  rw [hclosed]
  refine ⟨hv, fun q => ?_, h.next.trans hdrop.next.symm, ?_, ?_, fun {u} hu => ?_⟩
  · rw [Kernel.free_mem, hdrop.mem]
    split
    · rfl
    · exact ((Kernel.setInode_mem ..).trans (if_neg ‹_›)).trans (h.mem q)
  · rw [hdrop.open_inodes, ← h.open_inodes]
    rfl
  · exact h.free_map.trans (congrArg Volume.free_map hdev).symm
  · rw [hdevice]
    refine (h.nodes hu).congr (fun t ht => ?_) fun t ht => ?_
    · exact update_of_ne (hne hu (List.mem_append_left _ ht)) ..
    · exact Device.logical_update (hne hu (List.mem_append_right _ ht)) _

end Mirrors

/-- The tree that a volume holds. -/
def Kernel.flatten (live : Sector → Bool) (D : Sector → InodeDisk) (k : Fs) : Flat where
  mem p := (k.mem p).map Inode.bare
  next := k.next
  open_inodes := k.open_inodes
  dev := {
    free_map := k.freeMap
    nodes := fun s => ⟨(D s).is_dir, (D s).dir_parent, contents k.device (D s), k.owned (D s)⟩
    live := live
    pending := [] }

/-- Every sound volume holds a tree. -/
theorem mirrors_flatten {live : Sector → Bool} {D : Sector → InodeDisk} {k : Fs}
    (h : VolOk (fun s => live s = true) D k) : Mirrors D (k.flatten live D) k :=
  ⟨h, fun _ => rfl, rfl, rfl, rfl, fun _ => ⟨rfl, rfl, rfl⟩⟩

/-! ### The calls -/

section Reads

variable {D : Sector → InodeDisk} {f : Flat} {k : Fs} {o : FsOp}

/-- **The disk is a tree of byte arrays to those who look for a file.**  A legal call returns, with
the answer it has on byte arrays. -/
theorem disk_reads (hl : Legal f o) (h : Mirrors D f k) :
    (disk_api o).Runs Event.InTable k fun _ r k' => ∃ f', Answered f o r f' ∧ Mirrors D f' k' := by
  cases o with
  | inode_open s =>
    obtain ⟨hs, held, ht⟩ := hl
    by_cases hop : ∃ p j, k.mem p = some j ∧ j.sector = s
    · obtain ⟨p, j, hp, hj⟩ := hop
      exact .of_run (inode_open_hit (h.table ht) hp hj)
        ⟨_, ⟨[], inode_open_hit ht (h.of_disk hp) hj⟩,
          h.setInode hp { j with open_cnt := j.open_cnt + 1 } rfl rfl rfl⟩
    · have hcl : ∀ q j, k.mem q = some j → j.sector ≠ s := fun q j hq e => hop ⟨q, j, hq, e⟩
      have hclf : ∀ q i, f.mem q = some i → i.sector ≠ s := by
        intro q i hq
        obtain ⟨j, hj, rfl⟩ := h.of_flat hq
        exact hcl q j hj
      refine inode_open_miss (h.table ht) hcl (.of_run
        (disk_load_run (h.volume.valid hs)) ⟨_, ⟨[], ?_⟩, h.malloc ht hs hcl⟩)
      rw [← h.next]
      exact flat_open_run ht hs hclf
  | inode_reopen p =>
    obtain ⟨i, hi⟩ := hl
    obtain ⟨j, hj, rfl⟩ := h.of_flat hi
    exact .of_run (inode_reopen_run hj) ⟨_, ⟨[], inode_reopen_run hi⟩,
      h.setInode hj { j with open_cnt := j.open_cnt + 1 } rfl rfl rfl⟩
  | inode_close q =>
    cases q with
    | none => exact .pure ⟨f, ⟨[], rfl⟩, h⟩
    | some p =>
      obtain ⟨i, hi, hlast⟩ := hl
      obtain ⟨j, hj, rfl⟩ := h.of_flat hi
      have hrun := flat_close_run hi fun hc => (hlast hc).1
      by_cases hc : j.open_cnt = 1
      · refine (inode_close_stores h.volume hj hc (hlast hc).1 (hlast hc).2).mono ?_
        rintro es _ k' - ⟨-, hdrop, hdev, hv⟩
        exact ⟨_, ⟨[], hrun⟩, h.drop hj hc hdrop hdev hv⟩
      · refine .of_run (inode_close_more hj hc) ⟨_, ⟨[], hrun⟩, ?_⟩
        have hclosed : closed f p j.bare =
            f.setInode p { j.bare with open_cnt := j.open_cnt - 1 } := if_neg hc
        rw [hclosed]
        exact h.setInode hj { j with open_cnt := j.open_cnt - 1 } rfl rfl rfl
  | inode_stat p =>
    obtain ⟨i, hi⟩ := hl
    obtain ⟨j, hj, rfl⟩ := h.of_flat hi
    refine .silent_bind (deref_run hj) (.pure ⟨f, ⟨[], ?_⟩, h⟩)
    obtain ⟨hlive, hdata⟩ := h.volume.loaded hj
    have hnode : (f.node j.bare).On k.device j.data := hdata ▸ h.nodes hlive
    rw [flat_stat_run hi, hnode.is_dir, hnode.dir_parent, hnode.bytes, length_contents]
    rfl
  | inode_read_at p size offset =>
    obtain ⟨i, hi⟩ := hl
    obtain ⟨j, hj, rfl⟩ := h.of_flat hi
    obtain ⟨hlive, hdata⟩ := h.volume.loaded hj
    have hnode : (f.node j.bare).On k.device j.data := hdata ▸ h.nodes hlive
    have hdisk : OnDisk k.device j.data := hdata ▸ h.volume.onDisk hlive
    refine .silent_bind (deref_run hj) (.mono (onDevice_runs
      (inode_read_loop_runs (fun _ h => h) _ hdisk le_rfl)) ?_)
    rintro es bytes k' - ⟨dev, rfl, hbytes, ha⟩
    rw [hdata] at ha
    refine ⟨f, ⟨[], ?_⟩, h.access hlive ha⟩
    rw [flat_read_run hi, hnode.bytes, hbytes, fileRead_eq_contents]
  | inode_lock_acquire p =>
    obtain ⟨i, hi, hlock⟩ := hl
    obtain ⟨j, hj, rfl⟩ := h.of_flat hi
    exact .of_run (inode_lock_acquire_run hj hlock) ⟨_, ⟨[], inode_lock_acquire_run hi hlock⟩,
        h.setInode hj { j with inode_lock := true } rfl rfl rfl⟩
  | inode_lock_release p =>
    obtain ⟨i, hi, hlock⟩ := hl
    obtain ⟨j, hj, rfl⟩ := h.of_flat hi
    exact .of_run (inode_lock_release_run hj hlock) ⟨_, ⟨[], inode_lock_release_run hi hlock⟩,
        h.setInode hj { j with inode_lock := false } rfl rfl rfl⟩
  | _ => exact hl.elim

/-- What a program of such calls does on byte arrays, it does on the disk. -/
theorem OnTree.disk {α : Type} {m : FsProg α} {Q : α → Flat → Prop} (hm : OnTree f m Q)
    (h : Mirrors D f k) :
    (m.run disk_api).Runs Event.InTable k fun _ a k' => ∃ f', Q a f' ∧ Mirrors D f' k' :=
  Prog.Meets.runs (fun _ _ _ => disk_reads) hm h

end Reads

end Pintos
