import Pintos.Filesys.Mirror
import Pintos.Filesys.Walk

/-!
# Filesys — what a path means

The reference meaning of a path is a walk in which every component but the last names a directory
(`FlatDisk.resolve`).  `dir_from_path` goes along the path without that check: a component that
names a regular file is closed again, and the walk goes on in the directory that it was in.

`path_resolves_iff`: on a disk that holds a tree, `dir_from_path` and `file_name_from_path` give
what the path means exactly if the walk fails or comes to no regular file.  Then the calls that take
a path fail wherever it means nothing.
-/

namespace Pintos
open Support

namespace FlatDisk

/-- The reference meaning of a walk: a component is `.`, or `..`, or the name of a directory. -/
def resolve (D : FlatDisk) : Sector → List (List UInt8) → Option Sector
  | s, [] => some s
  | s, c :: cs =>
    if c = DOT then D.resolve s cs
    else
      match D.component s c with
      | none => none
      | some t => if (D.nodes t).is_dir then D.resolve t cs else none

/-- The walk comes to a component that names a regular file. -/
def passes_file (D : FlatDisk) : Sector → List (List UInt8) → Bool
  | _, [] => false
  | s, c :: cs =>
    if c = DOT then D.passes_file s cs
    else
      match D.component s c with
      | none => false
      | some t => if (D.nodes t).is_dir then D.passes_file t cs else true

variable {D : FlatDisk} {s t : Sector} {cs : List (List UInt8)}

/-- A walk that comes to a regular file has no meaning. -/
theorem resolve_of_passes (h : D.passes_file s cs = true) : D.resolve s cs = none := by
  fun_induction D.passes_file s cs with
  | case1 s => cases h
  | case2 s cs ih => rw [resolve, if_pos rfl, ih h]
  | case3 s c cs hc hnone => cases h
  | case4 s c cs hc t hsome hdir ih =>
    rw [resolve, if_neg hc, hsome]
    simp only [hdir, if_true, ih h]
  | case5 s c cs hc t hsome hdir =>
    rw [resolve, if_neg hc, hsome]
    simp only [hdir, Bool.false_eq_true, if_false]

/-- Any other walk ends where it should. -/
theorem walk_of_not_passes (h : D.passes_file s cs = false) : D.walk s cs = D.resolve s cs := by
  fun_induction D.passes_file s cs with
  | case1 s => rfl
  | case2 s cs ih => rw [resolve, walk, if_pos rfl, if_pos rfl, ih h]
  | case3 s c cs hc hnone => rw [resolve, walk, if_neg hc, if_neg hc, hnone]
  | case4 s c cs hc t hsome hdir ih =>
    rw [resolve, walk, if_neg hc, if_neg hc, hsome]
    simp only [hdir, if_true, ih h]
  | case5 s c cs hc t hsome hdir => cases h

/-- The walk ends where it should exactly if it fails or comes to no regular file. -/
theorem walk_eq_resolve_iff :
    D.walk s cs = D.resolve s cs ↔ D.walk s cs = none ∨ D.passes_file s cs = false := by
  cases hp : D.passes_file s cs with
  | false => exact iff_of_true (walk_of_not_passes hp) (.inr rfl)
  | true =>
    rw [resolve_of_passes hp]
    simp

end FlatDisk

/-- The directory that a path means. -/
def meaning (f : Flat) (current_dir : Option Dir) (path : List UInt8) : Option Sector :=
  f.dev.resolve (start_sector f current_dir path) (components path).dropLast

/-- The walk along the path fails, or every component but the last is a directory where it comes
to it. -/
def Straight (f : Flat) (current_dir : Option Dir) (path : List UInt8) : Prop :=
  target f current_dir path = none ∨
    f.dev.passes_file (start_sector f current_dir path) (components path).dropLast = false

/-- `r` is a handle on the inode of the sector, or null if there is none. -/
def Found {ι δ : Type} (k : Kernel ι δ) (r : Option Dir) : Option Sector → Prop
  | none => r = none
  | some t => ∃ dir i, r = some dir ∧ k.mem dir.inode = some i ∧ i.sector = t

theorem Found.unique {ι δ : Type} {k : Kernel ι δ} {r : Option Dir} :
    ∀ {o o' : Option Sector}, Found k r o → Found k r o' → o = o'
  | none, none, _, _ => rfl
  | none, some _, h, ⟨_, _, h', _⟩ => by rw [h] at h'; cases h'
  | some _, none, ⟨_, _, h, _⟩, h' => by rw [h'] at h; cases h
  | some _, some _, ⟨d, i, h, hi, hs⟩, ⟨d', i', h', hi', hs'⟩ => by
    obtain rfl := Option.some.inj (h.symm.trans h')
    obtain rfl := Option.some.inj (hi.symm.trans hi')
    rw [← hs, ← hs']

section Resolution

variable {D : Sector → InodeDisk} {f f' : Flat} {k : Fs} {held : Addr → Nat}
  {current_dir : Option Dir} {path : List UInt8} {r : Option Dir}

theorem Ended.found : ∀ {o}, Ended f held r f' o → Found f' r o
  | none, h => h.1
  | some _, ⟨dir, hr, _, i, hi, hs⟩ => ⟨dir, i, hr, hi, hs⟩

theorem Ended.dev : ∀ {o}, Ended f held r f' o → f'.dev = f.dev
  | none, ⟨_, _, h⟩ => h.dev
  | some _, ⟨_, _, h, _⟩ => h.dev

/-- A handle is the same on the disk. -/
theorem Mirrors.found (h : Mirrors D f k) : ∀ {o}, Found f r o → Found k r o
  | none, hr => hr
  | some _, ⟨dir, _, hr, hi, hs⟩ => by
    obtain ⟨j, hj, rfl⟩ := h.of_flat hi
    exact ⟨dir, j, hr, hj, hs⟩

/-! ### Where the walk fails -/

theorem onTree_filesys_open_lost (h : AtRest held f) (hcwd : CwdOk f current_dir)
    (ht : target f current_dir path = none) :
    OnTree f (filesys_open current_dir path) fun r f' => r = none ∧ f'.dev = f.dev := by
  refine .bind (onTree_dir_from_path h hcwd path) ?_
  intro r f₁ hr
  rw [ht] at hr
  obtain ⟨rfl, p, hp⟩ := hr
  exact ⟨rfl, hp.dev⟩

theorem onTree_filesys_remove_lost (h : AtRest held f) (hcwd : CwdOk f current_dir)
    (ht : target f current_dir path = none) :
    OnTree f (filesys_remove current_dir path) fun r f' => r = false ∧ f'.dev = f.dev := by
  refine .bind (onTree_dir_from_path h hcwd path) ?_
  intro r f₁ hr
  rw [ht] at hr
  obtain ⟨rfl, p, hp⟩ := hr
  exact ⟨rfl, hp.dev⟩

theorem onTree_filesys_create_lost (h : AtRest held f) (hcwd : CwdOk f current_dir)
    (ht : target f current_dir path = none) (initial_size : Int) (is_dir : Bool) (e : List UInt8) :
    OnTree f (filesys_create current_dir path initial_size is_dir e) fun r f' =>
      r = false ∧ f'.dev = f.dev := by
  refine .bind (onTree_dir_from_path h hcwd path) ?_
  intro r f₁ hr
  rw [ht] at hr
  obtain ⟨rfl, p, hp⟩ := hr
  have hin : create_in none (file_name_from_path path) initial_size is_dir e = pure (false, 0) :=
    if_pos (.inr (.inr rfl))
  dsimp only
  rw [hin]
  exact ⟨rfl, hp.dev⟩

/-- The calls that take a path fail from `k` and leave the files as they are. -/
structure Refuses (D : Sector → InodeDisk) (f : Flat) (k : Fs) (current_dir : Option Dir)
    (path : List UInt8) : Prop where
  filesys_open : ((filesys_open current_dir path).run disk_api).Runs Event.InTable k
    fun _ r k' => r = none ∧ ∃ f', f'.dev = f.dev ∧ Mirrors D f' k'
  filesys_create : ∀ initial_size is_dir e,
    ((filesys_create current_dir path initial_size is_dir e).run disk_api).Runs Event.InTable k
      fun _ r k' => r = false ∧ ∃ f', f'.dev = f.dev ∧ Mirrors D f' k'
  filesys_remove : ((filesys_remove current_dir path).run disk_api).Runs Event.InTable k
    fun _ r k' => r = false ∧ ∃ f', f'.dev = f.dev ∧ Mirrors D f' k'

/-- Where the walk fails, so do the calls. -/
theorem refuses_of_lost (h : AtRest held f) (hcwd : CwdOk f current_dir) (hm : Mirrors D f k)
    (ht : target f current_dir path = none) : Refuses D f k current_dir path where
  filesys_open := ((onTree_filesys_open_lost h hcwd ht).disk hm).mono
    fun _ _ _ _ ⟨f', ⟨hr, hdev⟩, hm'⟩ => ⟨hr, f', hdev, hm'⟩
  filesys_create n b e := ((onTree_filesys_create_lost h hcwd ht n b e).disk hm).mono
    fun _ _ _ _ ⟨f', ⟨hr, hdev⟩, hm'⟩ => ⟨hr, f', hdev, hm'⟩
  filesys_remove := ((onTree_filesys_remove_lost h hcwd ht).disk hm).mono
    fun _ _ _ _ ⟨f', ⟨hr, hdev⟩, hm'⟩ => ⟨hr, f', hdev, hm'⟩

/-- `dir_from_path` and `file_name_from_path`, as the calls that take a path use them. -/
def resolve_path (current_dir : Option Dir) (path : List UInt8) :
    FsProg (Option Dir × List UInt8) := do
  let dir ← dir_from_path current_dir path
  pure (dir, file_name_from_path path)

/-- **Paths.**  The two functions give the directory that the path means and its last component
exactly if the walk fails or comes to no regular file; then the calls that take a path fail where it
means nothing. -/
theorem path_resolves_iff (h : AtRest held f) (hcwd : CwdOk f current_dir) (hm : Mirrors D f k)
    (path : List UInt8) :
    ((resolve_path current_dir path).run disk_api).Runs Event.InTable k (fun _ r k' =>
      (Found k' r.1 (meaning f current_dir path) ∧ r.2 = (components path).getLastD [] ↔
        Straight f current_dir path) ∧
      ∃ f', f'.dev = f.dev ∧ Mirrors D f' k') ∧
    (Straight f current_dir path → meaning f current_dir path = none →
      Refuses D f k current_dir path) := by
  have hwalk : target f current_dir path = meaning f current_dir path ↔
      Straight f current_dir path := FlatDisk.walk_eq_resolve_iff
  constructor
  · have htree : OnTree f (resolve_path current_dir path) fun r f' =>
        Ended f held r.1 f' (target f current_dir path) ∧ r.2 = file_name_from_path path := by
      refine .bind (onTree_dir_from_path h hcwd path) ?_
      exact fun r f' hr => ⟨hr, rfl⟩
    refine (htree.disk hm).mono ?_
    rintro es r k' - ⟨f', ⟨hend, hname⟩, hm'⟩
    have hfound : Found k' r.1 (target f current_dir path) := hm'.found hend.found
    refine ⟨?_, f', hend.dev, hm'⟩
    rw [← hwalk, hname, file_name_from_path_eq]
    constructor
    · rintro ⟨hmean, -⟩
      exact hfound.unique hmean
    · intro e
      exact ⟨e ▸ hfound, rfl⟩
  · intro hs hnone
    exact refuses_of_lost h hcwd hm ((hwalk.mpr hs).trans hnone)

/-! ### A small tree -/

/-- A file of one sector, `t`. -/
def oneBlock (is_dir : Bool) (t : Sector) (length : Nat) : InodeDisk :=
  { InodeDisk.fresh is_dir with
    blocks := Function.update (fun _ => 0) 0 t, direct_count := 1, length := length }

/-- The inodes of `treeFs`. -/
def treeInodes (s : Sector) : InodeDisk :=
  if s = 1 then oneBlock true 5 40
  else if s = 3 then smallFile
  else if s = 6 then oneBlock true 7 20
  else if s = 8 then oneBlock false 9 1
  else idleFreeMapInode (byte_cnt 16)

/-- A mounted device whose root directory names a regular file `a` and a directory `d`, which names a
regular file `b`. -/
def treeFs : Fs := idleVolume 16 10 fun t =>
  if t ∈ [0, 1, 3, 6, 8] then (treeInodes t).toBlock
  else if t = 5 then Bytes.zero.write 0 ([3, 0, 0, 0, 97] ++ List.replicate 14 0 ++ [1] ++
    [6, 0, 0, 0, 100] ++ List.replicate 14 0 ++ [1])
  else if t = 7 then Bytes.zero.write 0 ([8, 0, 0, 0, 98] ++ List.replicate 14 0 ++ [1])
  else Bytes.zero

/-- Its tree. -/
def treeFlat : Flat := treeFs.flatten (fun s => s ∈ [0, 1, 3, 6, 8]) treeInodes

theorem treeFlat_live {s : Sector} :
    treeFlat.dev.live s = true ↔ s = 0 ∨ s = 1 ∨ s = 3 ∨ s = 6 ∨ s = 8 := by
  show decide (s ∈ [0, 1, 3, 6, 8]) = true ↔ _
  simp

theorem mirrors_treeFs : Mirrors treeInodes treeFlat treeFs := by
  have hlaid : ∀ s, s = 0 ∨ s = 1 ∨ s = 3 ∨ s = 6 ∨ s = 8 →
      Laid 16 treeFs.dev.device.disk (treeInodes s) (treeInodes s).sectors ∧
      ownedSectors treeFs.dev.device.disk (treeInodes s) (treeInodes s).sectors =
        [(treeInodes s).block 0] := by
    rintro s (rfl | rfl | rfl | rfl | rfl) <;> exact laid_one rfl rfl rfl rfl (by decide)
  have hlive : (fun s => treeFlat.dev.live s = true) =
      fun s => s = 0 ∨ s = 1 ∨ s = 3 ∨ s = 6 ∨ s = 8 := funext fun _ => propext treeFlat_live
  refine mirrors_flatten (hlive ▸ volOk_idleVolume (by omega) (by omega) (by decide) rfl ?_
    (fun s hs => (hlaid s hs).1) ?_ ?_)
  · rintro s (rfl | rfl | rfl | rfl | rfl) <;>
      exact ⟨by decide, InodeDisk.inRange_of_lt (by decide), rfl⟩
  · intro s hs t ht
    obtain rfl := List.mem_singleton.mp ((hlaid s hs).2 ▸ ht)
    rcases hs with rfl | rfl | rfl | rfl | rfl <;> decide
  · intro s s' t hs hs' ht ht'
    obtain rfl := List.mem_singleton.mp ((hlaid s hs).2 ▸ ht)
    have hb := List.mem_singleton.mp ((hlaid s' hs').2 ▸ ht')
    rcases hs with rfl | rfl | rfl | rfl | rfl <;> rcases hs' with rfl | rfl | rfl | rfl | rfl <;>
      first | rfl | cases hb

theorem atRest_treeFlat : AtRest (fun p => if p = 0 then 1 else 0) treeFlat := by
  have hmem : ∀ {p i}, treeFlat.mem p = some i → p = 0 ∧ i.inode_lock = false := by
    intro p i hp
    obtain ⟨j, hj, rfl⟩ := mirrors_treeFs.of_flat hp
    obtain ⟨rfl, rfl⟩ := idleVolume_mem hj
    exact ⟨rfl, rfl⟩
  refine ⟨mirrors_treeFs.table_flat tableOk_idleVolume, fun p i hp => (hmem hp).2, ?_,
    0, _, rfl, rfl⟩
  refine ⟨by decide, fun hs hd => ?_, fun {s j} hs hd hj => ?_⟩
  · rw [treeFlat_live] at hs
    rcases hs with rfl | rfl | rfl | rfl | rfl
    · cases hd
    · decide
    · cases hd
    · decide
    · cases hd
  · rw [treeFlat_live] at hs
    rcases hs with rfl | rfl | rfl | rfl | rfl
    · cases hd
    · have hlt : j < 2 := hj.1
      interval_cases j <;> decide +kernel
    · cases hd
    · have hlt : j < 1 := hj.1
      interval_cases j
      decide +kernel
    · cases hd

/-- The path `d/b` means the directory `d`, and the file `b` in it. -/
theorem path_resolves_treeFs : AtRest (fun p => if p = 0 then 1 else 0) treeFlat ∧
    CwdOk treeFlat none ∧ Mirrors treeInodes treeFlat treeFs ∧
    Straight treeFlat none [100, 47, 98] ∧
    ((resolve_path none [100, 47, 98]).run disk_api).Runs Event.InTable treeFs fun _ r k' =>
      Found k' r.1 (some 6) ∧ r.2 = [98] := by
  have hcwd : CwdOk treeFlat none := fun _ h => nomatch h
  have hs : Straight treeFlat none [100, 47, 98] := .inr (by decide +kernel)
  have hmeans : meaning treeFlat none [100, 47, 98] = some 6 := by decide +kernel
  refine ⟨atRest_treeFlat, hcwd, mirrors_treeFs, hs, ?_⟩
  refine (path_resolves_iff atRest_treeFlat hcwd mirrors_treeFs [100, 47, 98]).1.mono ?_
  rintro es r k' - ⟨hiff, -⟩
  rw [← hmeans]
  exact hiff.mpr hs

/-- The path `a/a` means nothing, since `a` is a regular file, but it leads to the root directory,
and `filesys_open` opens the file `a` in it. -/
theorem file_passed_over : meaning treeFlat none [97, 47, 97] = none ∧
    ((returned ((resolve_path none [97, 47, 97]).run disk_api treeFs)).any fun r =>
      r.2.1.1.isSome && decide (r.2.1.2 = [97])) = true ∧
    ((returned ((filesys_open none [97, 47, 97]).run disk_api treeFs)).any fun r =>
      r.2.1.any fun file => (r.2.2.mem file.inode).any fun i => i.sector == 3) = true := by
  decide +kernel

end Resolution

end Pintos
