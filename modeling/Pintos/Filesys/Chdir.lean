import Pintos.Filesys.Conservation

/-!
# Filesys — changing the current directory

`filesys_chdir` opens whatever the last component of the path names.  It does not look whether that
is a directory, and `dir_from_path` passes over regular files on the way.

`chdir_enters_iff`: from every tree, current directory and path the call returns; it enters only
directories, and leaves the current directory alone where it fails, exactly if the walk along the
whole path fails or comes to no regular file.
-/

namespace Pintos
open Support List Option

theorem ne_nil_of_mem_tokens {s delimiters t : List UInt8} (h : t ∈ tokens s delimiters) :
    t ≠ [] := by
  have := (List.mem_filter.mp h).2
  simpa using this

/-! ### The last component -/

namespace FlatDisk

variable {D : FlatDisk} {s : Sector}

theorem walk_append (es : List (List UInt8)) : ∀ (s : Sector) (cs : List (List UInt8)),
    D.walk s (cs ++ es) = (D.walk s cs).bind fun t => D.walk t es := by
  intro s cs
  fun_induction D.walk s cs with
  | case1 s => rfl
  | case2 s cs ih => rw [List.cons_append, walk, if_pos rfl, ih]
  | case3 s c cs hc hnone => rw [List.cons_append, walk, if_neg hc, hnone]; rfl
  | case4 s c cs hc t hsome hdir ih =>
    rw [List.cons_append, walk, if_neg hc, hsome]
    simp only [hdir, if_true, ih]
  | case5 s c cs hc t hsome hdir ih =>
    rw [List.cons_append, walk, if_neg hc, hsome]
    simp only [hdir, Bool.false_eq_true, if_false, ih]

/-- A walk that comes to no regular file comes to none further on. -/
theorem passes_file_of_append {es : List (List UInt8)} {t : Sector} :
    ∀ {s : Sector} {cs : List (List UInt8)}, D.passes_file s (cs ++ es) = false →
      D.walk s cs = some t → D.passes_file t es = false := by
  intro s cs hp hw
  fun_induction D.walk s cs with
  | case1 s =>
    obtain rfl := Option.some.inj hw
    exact hp
  | case2 s cs ih =>
    rw [List.cons_append, passes_file, if_pos rfl] at hp
    exact ih hp hw
  | case3 s c cs hc hnone => cases hw
  | case4 s c cs hc u hsome hdir ih =>
    rw [List.cons_append, passes_file, if_neg hc, hsome] at hp
    simp only [hdir, if_true] at hp
    exact ih hp hw
  | case5 s c cs hc u hsome hdir ih =>
    rw [List.cons_append, passes_file, if_neg hc, hsome] at hp
    simp [hdir] at hp

end FlatDisk

/-- What `filesys_chdir` enters: the directory the walk ends in, if the last component is `.` or the
path is that of the root directory, and else what the last component names there. -/
def entered (f : Flat) (current_dir : Option Dir) (path : List UInt8) : Option Sector :=
  (target f current_dir path).bind fun s =>
    if (components path).getLastD [] = DOT ∨
        (components path).getLastD [] = [] ∧ s = ROOT_DIR_SECTOR then some s
    else f.dev.component s ((components path).getLastD [])

/-- The walk along the whole path fails, or every component is a directory where it comes to it. -/
def NamesDir (f : Flat) (current_dir : Option Dir) (path : List UInt8) : Prop :=
  f.dev.walk (start_sector f current_dir path) (components path) = none ∨
    f.dev.passes_file (start_sector f current_dir path) (components path) = false

section Entered

variable {f : Flat} {current_dir : Option Dir} {path : List UInt8} {t : Sector}
  {cs : List (List UInt8)}

/-- A path has no component, or a last one, which is not empty. -/
theorem components_cases (path : List UInt8) : components path = [] ∨
    ∃ cs c, components path = cs ++ [c] ∧ c ≠ [] := by
  rcases eq_nil_or_concat (components path) with h | ⟨cs, c, h⟩
  · exact .inl h
  · rw [concat_eq_append] at h
    have hmem : c ∈ tokens (c_string path) SLASH := by
      show c ∈ components path
      rw [h]
      exact mem_append_right _ (List.mem_singleton.mpr rfl)
    exact .inr ⟨cs, c, h, ne_nil_of_mem_tokens hmem⟩

/-- Without a component the walk is where it starts. -/
theorem entered_of_nil (h : f.dev.Linked) (hcwd : CwdOk f current_dir)
    (hnil : components path = []) (ht : entered f current_dir path = some t) :
    t = start_sector f current_dir path := by
  have hs : f.dev.IsDir (start_sector f current_dir path) := isDir_start_sector h hcwd
  rw [entered, target, hnil] at ht
  simp only [dropLast_nil, FlatDisk.walk, bind_some, getLastD_nil] at ht
  split at ht
  · exact (Option.some.inj ht).symm
  · have hfind : f.dev.component (start_sector f current_dir path) [] = none :=
      h.find_nil hs.1 hs.2
    rw [hfind] at ht
    cases ht

/-- With a last component, `filesys_chdir` goes on from the walk along the others. -/
theorem entered_of_concat {c : List UInt8} (hcs : components path = cs ++ [c]) (hc : c ≠ []) :
    entered f current_dir path = (f.dev.walk (start_sector f current_dir path) cs).bind fun s =>
        if c = DOT then some s else f.dev.component s c := by
  rw [entered, target, hcs]
  simp [hc]

/-- It enters something exactly if the walk along the whole path ends somewhere. -/
theorem entered_eq_none_iff {c : List UInt8} (hcs : components path = cs ++ [c]) (hc : c ≠ []) :
    entered f current_dir path = none ↔
      f.dev.walk (start_sector f current_dir path) (components path) = none := by
  rw [entered_of_concat hcs hc, hcs, FlatDisk.walk_append]
  cases f.dev.walk (start_sector f current_dir path) cs with
  | none => rfl
  | some s =>
    simp only [bind_some, FlatDisk.walk]
    split
    · rfl
    · cases f.dev.component s c with
      | none => rfl
      | some u => by_cases hd : (f.dev.nodes u).is_dir = true <;> simp [hd]

/-- What a path with directories only leads to is a directory, and what the path means. -/
theorem resolve_of_entered (h : f.dev.Linked) (hcwd : CwdOk f current_dir)
    (hp : f.dev.passes_file (start_sector f current_dir path) (components path) = false)
    (ht : entered f current_dir path = some t) :
    f.dev.resolve (start_sector f current_dir path) (components path) = some t ∧ f.dev.IsDir t := by
  have hs : f.dev.IsDir (start_sector f current_dir path) := isDir_start_sector h hcwd
  have hwalk := FlatDisk.walk_of_not_passes hp
  have hres : f.dev.resolve (start_sector f current_dir path) (components path) = some t := by
    rcases components_cases path with hnil | ⟨cs, c, hcs, hc⟩
    · rw [entered_of_nil h hcwd hnil ht, hnil]
      rfl
    · rw [← hwalk, hcs, FlatDisk.walk_append]
      rw [entered_of_concat hcs hc] at ht
      obtain ⟨s, hs, ht⟩ := Option.bind_eq_some_iff.mp ht
      have hlast := FlatDisk.passes_file_of_append (hcs ▸ hp) hs
      rw [hs, bind_some]
      rw [FlatDisk.passes_file] at hlast
      rw [FlatDisk.walk]
      split at ht
      · rw [if_pos ‹_›]
        exact ht
      · rw [if_neg ‹_›, ht] at hlast ⊢
        simp only [FlatDisk.passes_file] at hlast
        split at hlast
        · simp only [*, if_true, FlatDisk.walk]
        · cases hlast
  exact ⟨hres, h.isDir_walk hs (hwalk.trans hres)⟩

end Entered

/-! ### The call -/

/-- The call has returned `r`: what it entered is the current directory, or nothing has changed. -/
def Entered (f : Flat) (current_dir : Option Dir) (r : Bool × Option Dir) (f' : Flat) :
    Option Sector → Prop
  | none => r = (false, current_dir) ∧ ∀ cwd ∈ current_dir, ∀ s, cwd.At f s → cwd.At f' s
  | some t => ∃ dir, r = (true, some dir) ∧ dir.At f' t

section Chdir

variable {D : Sector → InodeDisk} {f f₁ f' : Flat} {k : Fs} {held held₁ : Addr → Nat}
  {current_dir : Option Dir} {path : List UInt8} {dir cwd : Dir} {s t : Sector}

/-- A handle from before is a handle on the same inode. -/
theorem Since.still_at (h : Since f held f₁ held₁) (hat : dir.At f s) : dir.At f₁ s := by
  obtain ⟨i, hi, rfl⟩ := hat
  obtain ⟨j, hj, hs⟩ := h.handles.open_still hi
  exact ⟨j, hj, hs⟩

/-- The old current directory is closed. -/
theorem onTree_close_cwd (hcwd : CwdOk f (some cwd))
    (hmap : (f.dev.nodes FREE_MAP_SECTOR).is_dir = false) (h₁ : Since f held f₁ held₁)
    (hat : dir.At f₁ t) (hd : 0 < minus held₁ cwd.inode dir.inode) :
    OnTree f₁ (dir_close (some cwd)) fun _ f' => f'.dev = f.dev ∧ dir.At f' t := by
  obtain ⟨i, hi, hdir, hr⟩ := hcwd cwd rfl
  obtain ⟨c, hc⟩ := h₁.handles.keeps hi
  have hne : i.sector ≠ FREE_MAP_SECTOR := fun e => by
    rw [e, FlatDisk.IsDir, hmap] at hdir
    exact absurd hdir.2 Bool.false_ne_true
  refine (onTree_close_any h₁.handles.table hc hr hne).mono ?_
  rintro u f' ⟨hdev, htable, hwas⟩
  obtain ⟨j, hj⟩ := (htable.handles dir.inode).mp hd
  obtain ⟨c', hc'⟩ := hwas _ j hj
  obtain ⟨l, hl, rfl⟩ := hat
  obtain rfl := Option.some.inj (hl.symm.trans hc')
  exact ⟨hdev.trans h₁.dev, j, hj, rfl⟩

theorem onTree_dir_is_root {i : Inode Unit} (hi : f.mem dir.inode = some i) :
    OnTree f (dir_is_root (some dir)) fun b f' => f' = f ∧ b = (i.sector == ROOT_DIR_SECTOR) := by
  refine .bind (onTree_stat hi Stat.sector) ?_
  rintro _ _ ⟨rfl, rfl⟩
  exact ⟨rfl, rfl⟩

theorem onTree_dir_open_null (f : Flat) : OnTree f (dir_open none) fun d f' => d = none ∧ f' = f :=
  OnTree.call_bind (o := .inode_close none) trivial rfl ⟨rfl, rfl⟩

/-- `filesys_chdir` enters what `entered` says. -/
theorem onTree_filesys_chdir (h : AtRest held f) (hcwd : CwdOk f current_dir)
    (hmap : (f.dev.nodes FREE_MAP_SECTOR).is_dir = false) (path : List UInt8) :
    OnTree f (filesys_chdir current_dir path) fun r f' => f'.dev = f.dev ∧
      Entered f current_dir r f' (entered f current_dir path) := by
  refine .bind (onTree_dir_from_path h hcwd path) ?_
  intro r f₁ hr
  rw [entered]
  cases ht : target f current_dir path with
  | none =>
    rw [ht] at hr
    obtain ⟨rfl, p, h₁⟩ := hr
    exact ⟨h₁.dev, rfl, fun cwd _ s hat => h₁.still_at hat⟩
  | some s =>
    rw [ht] at hr
    obtain ⟨dir, rfl, h₁, hat⟩ := hr
    have hs : f.dev.IsDir s := h.linked.isDir_walk (isDir_start_sector h.linked hcwd) ht
    rw [file_name_from_path_eq, bind_some]
    dsimp only
    by_cases hdot : (components path).getLastD [] = DOT
    · rw [if_pos hdot, if_pos (.inl hdot)]
      exact ⟨h₁.dev, dir, rfl, hat⟩
    rw [if_neg hdot]
    obtain ⟨i, hi, rfl⟩ := hat
    refine .bind (onTree_dir_is_root hi) ?_
    rintro is_root f₁ ⟨rfl, rfl⟩
    by_cases hroot : (components path).getLastD [] = [] ∧ i.sector = ROOT_DIR_SECTOR
    · rw [if_pos (.inr hroot), if_pos ⟨hroot.1, beq_iff_eq.mpr hroot.2⟩]
      exact ⟨h₁.dev, dir, rfl, i, hi, rfl⟩
    rw [if_neg fun e => e.elim hdot hroot, if_neg fun e => hroot ⟨e.1, beq_iff_eq.mp e.2⟩]
    refine .bind (onTree_component_inode h h₁ hi hs) ?_
    intro r f₂ hr
    cases hc : f.dev.component i.sector ((components path).getLastD []) with
    | none =>
      rw [hc] at hr
      obtain ⟨rfl, h₂⟩ := hr
      refine .bind (onTree_close h (h₁.trans h₂) (lt_plus_self held _)) ?_
      rintro _ f₃ ⟨h₃, -⟩
      refine .bind (onTree_dir_open_null f₃) ?_
      rintro _ _ ⟨rfl, rfl⟩
      exact ⟨h₃.dev, rfl, fun cwd _ s hat => h₃.still_at hat⟩
    | some t =>
      rw [hc] at hr
      obtain ⟨q, j, rfl, h₂, hj, rfl⟩ := hr
      have hgone : minus (plus (plus held dir.inode) q) dir.inode = plus held q :=
        minus_plus_comm
      have hat : (⟨q, 0⟩ : Dir).At f₂ j.sector := ⟨j, hj, rfl⟩
      refine .bind (onTree_close_at h (h₁.trans h₂) ?_ hat ?_) ?_
      · exact lt_of_lt_of_le (lt_plus_self held _) (Nat.le_add_right _ _)
      · rw [hgone, plus_self]
        exact Nat.succ_pos _
      rintro _ f₃ ⟨h₃, hat₃⟩
      rw [hgone] at h₃
      refine .bind (Q := fun d f' => d = some ⟨q, 0⟩ ∧ f' = f₃) ⟨rfl, rfl⟩ ?_
      rintro _ f₃ ⟨rfl, rfl⟩
      cases current_dir with
      | none => exact ⟨h₃.dev, ⟨q, 0⟩, rfl, hat₃⟩
      | some cwd =>
        have hpos : 0 < held cwd.inode := by
          obtain ⟨l, hl, -⟩ := hcwd cwd rfl
          exact (h.table.handles _).mpr ⟨l, hl⟩
        refine .bind (onTree_close_cwd hcwd hmap h₃ hat₃ ?_) ?_
        · by_cases e : q = cwd.inode
          · subst e
            simpa using hpos
          · rw [minus_of_ne e, plus_self]
            exact Nat.succ_pos _
        · rintro _ f' ⟨hdev, hat'⟩
          exact ⟨hdev, ⟨q, 0⟩, rfl, hat'⟩

/-- The call enters directories only, the one that the path means, and otherwise leaves the current
directory as it is, and open. -/
structure EntersDir (f : Flat) (k k' : Fs) (current_dir : Option Dir) (path : List UInt8)
    (r : Bool × Option Dir) : Prop where
  entered : r.1 = true → ∃ t,
    f.dev.resolve (start_sector f current_dir path) (components path) = some t ∧
    f.dev.IsDir t ∧ Found k' r.2 (some t)
  refused : r.1 = false → r.2 = current_dir ∧ ∀ cwd ∈ current_dir, ∃ i j,
    k.mem cwd.inode = some i ∧ k'.mem cwd.inode = some j ∧ j.sector = i.sector ∧
    f.dev.IsDir j.sector

/-- **`chdir` enters directories.**  From every tree, current directory and path the call returns;
it enters directories only exactly if the walk along the whole path fails or comes to no regular
file. -/
theorem chdir_enters_iff (h : AtRest held f) (hcwd : CwdOk f current_dir)
    (hmap : (f.dev.nodes FREE_MAP_SECTOR).is_dir = false) (hm : Mirrors D f k)
    (path : List UInt8) :
    ((filesys_chdir current_dir path).run disk_api).Runs Event.InTable k fun _ r k' =>
      (EntersDir f k k' current_dir path r ↔ NamesDir f current_dir path) ∧
      ∃ f', f'.dev = f.dev ∧ Mirrors D f' k' := by
  refine ((onTree_filesys_chdir h hcwd hmap path).disk hm).mono ?_
  rintro es r k' - ⟨f', ⟨hdev, hent⟩, hm'⟩
  refine ⟨?_, f', hdev, hm'⟩
  cases ht : entered f current_dir path with
  | none =>
    rw [ht] at hent
    obtain ⟨rfl, hsame⟩ := hent
    refine iff_of_true ⟨nofun, fun _ => ⟨rfl, fun cwd hc => ?_⟩⟩ ?_
    · obtain ⟨i, hi, hdir, -⟩ := hcwd cwd hc
      obtain ⟨j, hj, hs⟩ := hsame cwd hc _ ⟨i, hi, rfl⟩
      obtain ⟨i', hi', rfl⟩ := hm.of_flat hi
      obtain ⟨j', hj', rfl⟩ := hm'.of_flat hj
      refine ⟨i', j', hi', hj', hs, ?_⟩
      have hs' : j'.sector = i'.bare.sector := hs
      rw [hs']
      exact hdir
    · rcases components_cases path with hnil | ⟨cs, c, hcs, hc⟩
      · right
        rw [hnil]
        rfl
      · exact .inl ((entered_eq_none_iff hcs hc).mp ht)
  | some t =>
    rw [ht] at hent
    obtain ⟨dir, rfl, i, hi, his⟩ := hent
    have hfound : Found k' (some dir) (some t) := hm'.found ⟨dir, i, rfl, hi, his⟩
    constructor
    · intro henters
      obtain ⟨u, hu, -⟩ := henters.entered rfl
      right
      by_contra hp
      rw [FlatDisk.resolve_of_passes (by simpa using hp)] at hu
      cases hu
    · intro hnames
      have hp : f.dev.passes_file (start_sector f current_dir path) (components path) = false := by
        rcases hnames with hnone | hp
        · rcases components_cases path with hnil | ⟨cs, c, hcs, hc⟩
          · rw [hnil]
            rfl
          · rw [(entered_eq_none_iff hcs hc).mpr hnone] at ht
            cases ht
        · exact hp
      obtain ⟨hres, hdir⟩ := resolve_of_entered h.linked hcwd hp ht
      exact ⟨fun _ => ⟨t, hres, hdir, hfound⟩, nofun⟩

end Chdir

end Pintos
