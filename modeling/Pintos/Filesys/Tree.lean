import Pintos.Filesys.Entries
import Pintos.Filesys.Flat
import Pintos.Filesys.Handles

/-!
# Filesys — reading a directory tree

The files of a file system form a tree: every directory has a parent, and its entries name files.
`FlatDisk.Linked` says that they are there.

The functions of `filesys.c` that look for a file open inodes, read them and close them again.
`Legal f o` are the calls they may make: an inode is opened only if its file is there, and the last
handle on an inode is given back only if the inode is to stay.  `OnTree f m Q`: from `f` the program
`m` makes such calls only, and on byte arrays it ends in `Q`.
-/

namespace Pintos
open Support
open Machine (bind_run_silent)

/-- The directories name files that are there, by names that are not empty. -/
structure FlatDisk.Linked (D : FlatDisk) : Prop where
  root : D.live ROOT_DIR_SECTOR = true ∧ (D.nodes ROOT_DIR_SECTOR).is_dir = true
  parent : ∀ {s}, D.live s = true → (D.nodes s).is_dir = true →
    D.live (D.nodes s).dir_parent = true ∧ (D.nodes (D.nodes s).dir_parent).is_dir = true
  entries : ∀ {s j}, D.live s = true → (D.nodes s).is_dir = true → UsedEntry (D.nodes s).bytes j →
    D.live (DirEntry.inode_sector (entryAt (D.nodes s).bytes j)) = true ∧
      DirEntry.name (entryAt (D.nodes s).bytes j) ≠ []

section Linked

variable {D : FlatDisk} {s t : Sector} {name : List UInt8}

/-- A name in a directory is the name of a file. -/
theorem FlatDisk.Linked.live_find (h : D.Linked) (hs : D.live s = true)
    (hd : (D.nodes s).is_dir = true) (hf : findSector (D.nodes s).bytes name = some t) :
    D.live t = true := by
  obtain ⟨j, hj, rfl⟩ := Option.map_eq_some_iff.mp hf
  exact (h.entries hs hd (findEntry_used hj).1).1

/-- No entry has the empty name. -/
theorem FlatDisk.Linked.find_nil (h : D.Linked) (hs : D.live s = true)
    (hd : (D.nodes s).is_dir = true) : findSector (D.nodes s).bytes [] = none := by
  rw [findSector, Option.map_eq_none_iff]
  cases hf : findEntry (D.nodes s).bytes [] with
  | none => rfl
  | some j =>
    obtain ⟨hused, hname⟩ := findEntry_used hf
    exact absurd hname (h.entries hs hd hused).2

end Linked

/-! ### The calls -/

/-- A call that looks for a file. -/
def Legal (f : Flat) : FsOp → Prop
  | .inode_open s => f.dev.live s = true ∧ ∃ held, TableOk held f
  | .inode_reopen p | .inode_stat p | .inode_read_at p _ _ => ∃ i, f.mem p = some i
  | .inode_close none => True
  | .inode_close (some p) => ∃ i, f.mem p = some i ∧
      (i.open_cnt = 1 → i.removed = false ∧ i.sector ≠ FREE_MAP_SECTOR)
  | .inode_lock_acquire p => ∃ i, f.mem p = some i ∧ i.inode_lock = false
  | .inode_lock_release p => ∃ i, f.mem p = some i ∧ i.inode_lock = true
  | _ => False

/-- On byte arrays the call answers `r` and leaves `f'`. -/
def Answered (f : Flat) (o : FsOp) (r : o.Res) (f' : Flat) : Prop :=
  ∃ es, flat_api o f = (es, .done r f')

/-- From `f` the program makes legal calls only and ends in `Q`. -/
abbrev OnTree {α : Type} (f : Flat) (m : FsProg α) (Q : α → Flat → Prop) : Prop :=
  m.Meets Legal Answered Q f

/-- Between two calls: no inode is locked, and the file of the free map is open. -/
structure AtRest (held : Addr → Nat) (f : Flat) : Prop where
  table : TableOk held f
  unlocked : Unlocked f
  linked : f.dev.Linked
  map_open : ∃ p i, f.mem p = some i ∧ i.sector = FREE_MAP_SECTOR

/-- Since `f₀` handles have been taken, and the files are the same. -/
structure Since (f₀ : Flat) (held₀ : Addr → Nat) (f : Flat) (held : Addr → Nat) : Prop where
  dev : f.dev = f₀.dev
  handles : Over f₀ held₀ f held

/-- From `f` to `f'` a search for the inode of a sector has answered `r`: a handle, or null. -/
def Answers (f : Flat) (held : Addr → Nat) (r : Option Addr) (f' : Flat) : Option Sector → Prop
  | none => r = none ∧ Since f held f' held
  | some t => ∃ q j, r = some q ∧ Since f held f' (plus held q) ∧ f'.mem q = some j ∧ j.sector = t

section Calls

variable {α : Type} {f f₀ f₁ : Flat} {held held₀ held₁ : Addr → Nat} {p : Addr} {i : Inode Unit}
  {s : Sector} {Q : α → Flat → Prop} {m : Unit → FsProg α}

theorem Since.trans (h : Since f₀ held₀ f held) (h' : Since f held f₁ held₁) :
    Since f₀ held₀ f₁ held₁ := ⟨h'.dev.trans h.dev, h.handles.trans h'.handles⟩

/-- A call with one answer. -/
theorem OnTree.call_bind {o : FsOp} {m : o.Res → FsProg α} {es : List Event} {r : o.Res}
    {f' : Flat} (hl : Legal f o) (hr : flat_api o f = (es, .done r f')) (hm : OnTree f' (m r) Q) :
    OnTree f (call o >>= m) Q := by
  refine .op_bind hl ?_
  rintro r₁ f₁ ⟨es₁, hr₁⟩
  cases hr.symm.trans hr₁
  exact hm

theorem flat_read_run (hp : f.mem p = some i) (size offset : Nat) :
    flat_api (.inode_read_at p size offset) f =
      ([], .done (((f.node i).bytes.drop offset).take size) f) :=
  bind_run_silent (deref_run hp) rfl

theorem flat_stat_run (hp : f.mem p = some i) :
    flat_api (.inode_stat p) f = ([], .done ⟨i.sector, i.open_cnt, (f.node i).is_dir,
      (f.node i).dir_parent, (f.node i).bytes.length⟩ f) :=
  bind_run_silent (deref_run hp) rfl

/-- The inode at `p` reads as its file. -/
theorem readsFrom_flat (hp : f.mem p = some i) : ReadsFrom Legal Answered f p (f.node i).bytes where
  stat := ⟨i, hp⟩
  read _ _ := ⟨i, hp⟩
  length := by
    rintro r f' ⟨es, hr⟩
    cases (flat_stat_run hp).symm.trans hr
    exact ⟨rfl, rfl⟩
  bytes := by
    rintro size offset r f' ⟨es, hr⟩
    cases (flat_read_run hp size offset).symm.trans hr
    exact ⟨rfl, rfl⟩

/-- A field of an open inode. -/
theorem onTree_stat (hp : f.mem p = some i) (g : Stat → α) :
    OnTree f (do let stat ← call (.inode_stat p); pure (g stat)) fun r f' => f' = f ∧
      r = g ⟨i.sector, i.open_cnt, (f.node i).is_dir, (f.node i).dir_parent,
        (f.node i).bytes.length⟩ :=
  .call_bind ⟨i, hp⟩ (flat_stat_run hp) ⟨rfl, rfl⟩

/-- A first open of a file that is there. -/
theorem flat_open_run (h : TableOk held f) (hs : f.dev.live s = true)
    (hcl : ∀ q j, f.mem q = some j → j.sector ≠ s) :
    flat_api (.inode_open s) f = ([], .done f.next (f.malloc ⟨s, 1, false, 0, false, ()⟩)) := by
  have hload : flat_backend.load s f = ([], .done () f) := by
    simp [flat_backend, expect, Machine.bind_run, hs]
  refine bind_run_silent (Machine.get_run f) ?_
  rw [h.opened_eq_none.mpr hcl]
  exact bind_run_silent hload rfl

/-- `inode_open` of a file that is there. -/
theorem onTree_open (h : TableOk held f) (hs : f.dev.live s = true) :
    OnTree f (call (.inode_open s)) fun q f' => Answers f held (some q) f' (some s) := by
  refine ⟨⟨hs, held, h⟩, ?_⟩
  rintro q f' ⟨es, hr⟩
  by_cases hop : ∃ p i, f.mem p = some i ∧ i.sector = s
  · obtain ⟨p, i, hp, his⟩ := hop
    cases (inode_open_hit h hp his).symm.trans hr
    refine ⟨_, { i with open_cnt := i.open_cnt + 1 }, rfl, ⟨rfl, h.over_reopen hp⟩, ?_, his⟩
    rw [Kernel.setInode_mem, if_pos rfl]
  · have hcl : ∀ q j, f.mem q = some j → j.sector ≠ s := fun q j hq e => hop ⟨q, j, hq, e⟩
    cases (flat_open_run h hs hcl).symm.trans hr
    refine ⟨_, ⟨s, 1, false, 0, false, ()⟩, rfl, ⟨rfl, h.over_malloc hcl⟩, ?_, rfl⟩
    rw [Kernel.malloc_mem, if_pos rfl]

theorem onTree_reopen (h : TableOk held f) (hp : f.mem p = some i) :
    OnTree f (call (.inode_reopen p)) fun q f' => q = p ∧ Since f held f' (plus held p) := by
  refine ⟨⟨i, hp⟩, ?_⟩
  rintro q f' ⟨es, hr⟩
  cases (inode_reopen_run hp).symm.trans hr
  exact ⟨rfl, rfl, h.over_reopen hp⟩

/-- The state after the close of a handle on the inode `i` at `p`. -/
def closed (f : Flat) (p : Addr) (i : Inode Unit) : Flat :=
  let f' := f.setInode p { i with open_cnt := i.open_cnt - 1 }
  if i.open_cnt = 1 then (f'.unlink p).free p else f'

theorem closed_dev : (closed f p i).dev = f.dev := by
  rw [closed]
  split <;> rfl

/-- What a close leaves open was open. -/
theorem closed_mem (hp : f.mem p = some i) {q : Addr} {j : Inode Unit}
    (hq : (closed f p i).mem q = some j) : ∃ c, f.mem q = some { j with open_cnt := c } := by
  have hset : (f.setInode p { i with open_cnt := i.open_cnt - 1 }).mem q = some j := by
    rw [closed] at hq
    split at hq
    · rw [Kernel.free_mem] at hq
      split at hq
      · cases hq
      · exact hq
    · exact hq
  rw [Kernel.setInode_mem] at hset
  split at hset
  · rename_i e
    cases hset
    exact ⟨i.open_cnt, e ▸ hp⟩
  · exact ⟨j.open_cnt, hset⟩

/-- `inode_close` of an inode that is not removed. -/
theorem flat_close_run (hp : f.mem p = some i) (hr : i.open_cnt = 1 → i.removed = false) :
    flat_api (.inode_close (some p)) f = ([], .done () (closed f p i)) := by
  rw [closed]
  split
  · rename_i hc
    refine bind_run_silent (deref_run hp) ?_
    refine bind_run_silent (Machine.modify_run ..) ?_
    rw [if_pos (by show i.open_cnt - 1 = 0; omega), inode_retire, if_neg (by simp [hr hc])]
    rfl
  · exact inode_close_more hp ‹_›

theorem TableOk.closed (h : TableOk held f) (hp : f.mem p = some i) :
    TableOk (minus held p) (closed f p i) := by
  rw [Pintos.closed]
  split
  · rename_i hc
    have hone : (1 : Int) = held p := hc ▸ h.counted hp
    exact h.close_last (fun q hq => (Kernel.setInode_mem ..).trans (if_neg hq)) rfl rfl (by omega)
  · exact h.close_more hp ‹_›

/-- `inode_close` of a handle taken since `f₀`; what stays open is as before. -/
theorem onTree_close (h₀ : AtRest held₀ f₀) (h : Since f₀ held₀ f held) (hp : held₀ p < held p) :
    OnTree f (call (.inode_close (some p))) fun _ f' => Since f₀ held₀ f' (minus held p) ∧
      ∀ q j, f'.mem q = some j → ∃ c, f.mem q = some { j with open_cnt := c } := by
  obtain ⟨hdev, h⟩ := h
  obtain ⟨i, hi⟩ := (h.table.handles p).mp (Nat.zero_lt_of_lt hp)
  have hcount : i.open_cnt = held p := h.table.counted hi
  have hnone : i.open_cnt = 1 → f₀.mem p = none := fun hone => by
    cases hf : f₀.mem p with
    | none => rfl
    | some j => exact absurd ((h₀.table.handles p).mpr ⟨j, hf⟩) (by omega)
  have hfresh : i.open_cnt = 1 → i.removed = false := fun hone => (h.fresh hi (hnone hone)).1
  refine ⟨⟨i, hi, fun hone => ⟨hfresh hone, fun hs => ?_⟩⟩, ?_⟩
  · -- the free map's inode has been there since `f₀`
    obtain ⟨q, j, hq, hjs⟩ := h₀.map_open
    obtain ⟨j', hj', hjs'⟩ := h.open_still hq
    have hqp : q = p := h.table.unique hj' hi (by rw [hs, hjs', hjs])
    rw [hqp, hnone hone] at hq
    cases hq
  rintro u f' ⟨es, hr⟩
  cases (flat_close_run hi hfresh).symm.trans hr
  refine ⟨⟨closed_dev.trans hdev, ?_⟩, fun q j => closed_mem hi⟩
  rw [closed]
  split
  · rename_i hc
    exact h.close_last (by omega) (hnone hc)
      (fun q hq => (Kernel.setInode_mem ..).trans (if_neg hq)) rfl rfl (by omega)
  · exact h.close_more hp hi ‹_›

/-- `inode_close` of any handle on a file that stays. -/
theorem onTree_close_any (h : TableOk held f) (hp : f.mem p = some i) (hr : i.removed = false)
    (hs : i.sector ≠ FREE_MAP_SECTOR) :
    OnTree f (call (.inode_close (some p))) fun _ f' => f'.dev = f.dev ∧ TableOk (minus held p) f' ∧
      ∀ q j, f'.mem q = some j → ∃ c, f.mem q = some { j with open_cnt := c } := by
  refine ⟨⟨i, hp, fun _ => ⟨hr, hs⟩⟩, ?_⟩
  rintro u f' ⟨es, hrun⟩
  cases (flat_close_run hp fun _ => hr).symm.trans hrun
  exact ⟨closed_dev, h.closed hp, fun q j => closed_mem hp⟩

theorem onTree_lock_acquire (hp : f.mem p = some i) (hl : i.inode_lock = false)
    (hm : OnTree (f.setInode p { i with inode_lock := true }) (m ()) Q) :
    OnTree f (call (.inode_lock_acquire p) >>= m) Q :=
  .call_bind ⟨i, hp, hl⟩ (inode_lock_acquire_run hp hl) hm

theorem onTree_lock_release (hp : f.mem p = some i) (hl : i.inode_lock = true)
    (hm : OnTree (f.setInode p { i with inode_lock := false }) (m ()) Q) :
    OnTree f (call (.inode_lock_release p) >>= m) Q :=
  .call_bind ⟨i, hp, hl⟩ (inode_lock_release_run hp hl) hm

end Calls

end Pintos
