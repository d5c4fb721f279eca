import Pintos.Filesys.Paths
import Pintos.Filesys.Tree

/-!
# Filesys — the walk along a path

On byte arrays, what `dir_from_path` does is a function of the files: it starts at a sector and goes
along the components of the path but the last one.  `FlatDisk.walk` is that function.  It leaves out
a component that names a file which is no directory, as the code does, and fails at a component that
names nothing.

`onTree_dir_from_path`: `dir_from_path` makes legal calls only and returns a handle on the directory
that the walk ends in; where the walk fails it returns null and keeps the handle on the directory it
was in.
-/

namespace Pintos
open Support

/-! ### Where a path leads -/

namespace FlatDisk

/-- The sector that `component` names in the directory of `s`. -/
def component (D : FlatDisk) (s : Sector) (component : List UInt8) : Option Sector :=
  if component = DOTDOT then some (D.nodes s).dir_parent
  else findSector (D.nodes s).bytes component

/-- The walk from `s`: where it ends, or nothing if a component names nothing. -/
def walk (D : FlatDisk) : Sector → List (List UInt8) → Option Sector
  | s, [] => some s
  | s, c :: cs =>
    if c = DOT then D.walk s cs
    else
      match D.component s c with
      | none => none
      | some t => if (D.nodes t).is_dir then D.walk t cs else D.walk s cs

/-- `s` is a directory that is there. -/
def IsDir (D : FlatDisk) (s : Sector) : Prop := D.live s = true ∧ (D.nodes s).is_dir = true

variable {D : FlatDisk} {s t : Sector}

/-- A component of a path through a directory names a file. -/
theorem Linked.live_component (h : D.Linked) (hs : D.IsDir s) {c : List UInt8}
    (hc : D.component s c = some t) : D.live t = true := by
  rw [FlatDisk.component] at hc
  split at hc
  · cases hc
    exact (h.parent hs.1 hs.2).1
  · exact h.live_find hs.1 hs.2 hc

/-- A walk from a directory ends in one. -/
theorem Linked.isDir_walk (h : D.Linked) : ∀ {cs : List (List UInt8)} {s t : Sector},
    D.IsDir s → D.walk s cs = some t → D.IsDir t
  | [], s, t, hs, hw => Option.some.inj hw ▸ hs
  | c :: cs, s, t, hs, hw => by
    rw [FlatDisk.walk] at hw
    split at hw
    · exact h.isDir_walk hs hw
    · split at hw
      · cases hw
      · rename_i u hu
        split at hw
        · exact h.isDir_walk ⟨h.live_component hs hu, ‹_›⟩ hw
        · exact h.isDir_walk hs hw

end FlatDisk

/-- The components of a path. -/
def components (path : List UInt8) : List (List UInt8) := tokens (c_string path) SLASH

/-- The sector of the directory that a path starts at. -/
def start_sector (f : Flat) (current_dir : Option Dir) (path : List UInt8) : Sector :=
  match current_dir with
  | none => ROOT_DIR_SECTOR
  | some cwd =>
    if (c_string path).head? = some 47 then ROOT_DIR_SECTOR
    else ((f.mem cwd.inode).map Inode.sector).getD ROOT_DIR_SECTOR

/-- Where `dir_from_path` leads. -/
def target (f : Flat) (current_dir : Option Dir) (path : List UInt8) : Option Sector :=
  f.dev.walk (start_sector f current_dir path) (components path).dropLast

/-! ### The last component -/

theorem file_name_loop_eq (turns : Nat) : ∀ prev ptr, ptr.length ≤ turns →
    file_name_loop turns prev ptr = (tokens ptr SLASH).getLastD prev := by
  induction turns with
  | zero =>
    intro prev ptr h
    rw [List.length_eq_zero_iff.mp (Nat.le_zero.mp h)]
    rfl
  | succ turns ih =>
    intro prev ptr h
    rw [file_name_loop]
    split
    · rename_i hn
      rw [strtok_r_none hn]
      rfl
    · rename_i cur ptr' hs
      obtain ⟨htok, -, hlt⟩ := strtok_r_some hs
      rw [ih _ _ (by omega), htok, List.getLastD_cons]

/-- `file_name_from_path` is the last component, or the empty string. -/
theorem file_name_from_path_eq (path : List UInt8) :
    file_name_from_path path = (components path).getLastD [] :=
  file_name_loop_eq _ _ _ le_rfl

/-! ### The walk on byte arrays -/

/-- The inode of `dir` is the one of `s`. -/
def Dir.At (f : Flat) (dir : Dir) (s : Sector) : Prop := ∃ i, f.mem dir.inode = some i ∧ i.sector = s

/-- The current directory is null, or an open directory that is not removed. -/
def CwdOk (f : Flat) (current_dir : Option Dir) : Prop :=
  ∀ cwd ∈ current_dir, ∃ i, f.mem cwd.inode = some i ∧ f.dev.IsDir i.sector ∧ i.removed = false

/-- The walk has ended with `r`, in the directory of a sector or nowhere; where it failed, it keeps a
handle. -/
def Ended (f : Flat) (held : Addr → Nat) (r : Option Dir) (f' : Flat) : Option Sector → Prop
  | none => r = none ∧ ∃ p, Since f held f' (plus held p)
  | some t => ∃ dir, r = some dir ∧ Since f held f' (plus held dir.inode) ∧ dir.At f' t

section Walk

variable {f f₀ : Flat} {held held₀ : Addr → Nat} {p : Addr} {i : Inode Unit} {s : Sector}
  {name path : List UInt8} {dir : Dir} {current_dir : Option Dir}

/-- While the inode at `p` is locked, it is there and locked. -/
theorem Over.locked_mem (h : Over (f₀.setInode p { i with inode_lock := true }) held₀ f held) :
    ∃ j, f.mem p = some j ∧ j.inode_lock = true ∧ j.sector = i.sector := by
  obtain ⟨c, hc⟩ := h.keeps (show (f₀.setInode p _).mem p = some _ by
    rw [Kernel.setInode_mem, if_pos rfl])
  exact ⟨_, hc, rfl, rfl⟩

/-- `dir_lookup` finds the inode that the entry names. -/
theorem onTree_dir_lookup (h : TableOk held f) (hu : Unlocked f) (hp : f.mem dir.inode = some i)
    (hlive : ∀ t, findSector (f.node i).bytes name = some t → f.dev.live t = true) :
    OnTree f (dir_lookup (some dir) name) fun r f' =>
      Answers f held r f' (findSector (f.node i).bytes name) := by
  have hl := hu _ i hp
  have hcount : i.open_cnt = held dir.inode := h.counted hp
  have h₁ : TableOk held (f.setInode dir.inode { i with inode_lock := true }) :=
    h.setInode hp rfl hcount ((h.handles _).mpr ⟨i, hp⟩) fun _ _ => rfl
  have hp₁ : (f.setInode dir.inode { i with inode_lock := true }).mem dir.inode =
      some { i with inode_lock := true } := by rw [Kernel.setInode_mem, if_pos rfl]
  refine onTree_lock_acquire hp hl (.bind (readsFrom_flat hp₁).lookup ?_)
  rintro r f₁ ⟨rfl, rfl⟩
  have hnode : (f.setInode dir.inode { i with inode_lock := true }).node
      { i with inode_lock := true } = f.node i := rfl
  rw [hnode]
  rw [findSector] at hlive ⊢
  cases hf : findEntry (f.node i).bytes name with
  | none =>
    refine onTree_lock_release hp₁ rfl ⟨rfl, rfl, ?_⟩
    exact (Over.refl h₁).locked hp hl hp₁
  | some j =>
    refine .bind (onTree_open h₁ (hlive _ (by rw [hf]; rfl))) ?_
    rintro q f₂ ⟨q', k, hq, ⟨hdev, hover⟩, hk, hs⟩
    obtain rfl := Option.some.inj hq
    obtain ⟨l, hlm, hll, -⟩ := hover.locked_mem
    have hend := hover.locked hp hl hlm
    refine onTree_lock_release hlm hll ?_
    obtain ⟨k', hk'⟩ := (hend.table.handles q).mp (by rw [plus_self]; exact Nat.succ_pos _)
    refine ⟨q, k', rfl, ⟨hdev, hend⟩, hk', ?_⟩
    rw [Kernel.setInode_mem] at hk'
    split at hk'
    · rename_i e
      subst e
      obtain rfl := Option.some.inj hk'
      rw [show k = l from Option.some.inj (hk.symm.trans hlm)] at hs
      exact hs
    · rw [show k' = k from Option.some.inj (hk'.symm.trans hk)]
      exact hs

/-- `component_inode` finds what the component names. -/
theorem onTree_component_inode (h₀ : AtRest held₀ f₀) (h : Since f₀ held₀ f held)
    (hp : f.mem dir.inode = some i) (hd : f₀.dev.IsDir i.sector) :
    OnTree f (component_inode (some dir) name) fun r f' =>
      Answers f held r f' (f₀.dev.component i.sector name) := by
  have hlive : ∀ t, f₀.dev.component i.sector name = some t → f.dev.live t = true :=
    fun t ht => h.dev ▸ h₀.linked.live_component hd ht
  have hnode : f.node i = f₀.dev.nodes i.sector := congrFun (congrArg _ h.dev) _
  unfold component_inode FlatDisk.component at *
  split
  · refine .bind (onTree_stat hp Stat.dir_parent) ?_
    rintro r _ ⟨rfl, rfl⟩
    rw [if_pos ‹_›] at hlive
    rw [hnode]
    refine .bind (onTree_open h.handles.table (hlive _ rfl)) ?_
    exact fun q f' hq => hq
  · rw [if_neg ‹_›] at hlive
    rw [← hnode] at hlive ⊢
    exact onTree_dir_lookup h.handles.table (h.handles.unlocked h₀.unlocked) hp hlive

/-- `inode_close` of a handle taken on the way. -/
theorem onTree_close_at (h₀ : AtRest held₀ f₀) (h : Since f₀ held₀ f held) (hp : held₀ p < held p)
    (hdir : dir.At f s) (hd : 0 < minus held p dir.inode) :
    OnTree f (call (.inode_close (some p))) fun _ f' =>
      Since f₀ held₀ f' (minus held p) ∧ dir.At f' s := by
  refine (onTree_close h₀ h hp).mono ?_
  rintro u f' ⟨hsince, hkeep⟩
  refine ⟨hsince, ?_⟩
  obtain ⟨j, hj⟩ := (hsince.handles.table.handles _).mp hd
  obtain ⟨c, hc⟩ := hkeep _ j hj
  obtain ⟨i, hi, rfl⟩ := hdir
  obtain rfl := Option.some.inj (hi.symm.trans hc)
  exact ⟨j, hj, rfl⟩

theorem lt_plus_self (held : Addr → Nat) (p : Addr) : held p < plus held p p := by
  rw [plus_self]
  exact Nat.lt_succ_self _

/-- The loop of `dir_from_path`, which has one handle since `f₀`, on the directory it is in. -/
theorem onTree_dir_from_path_loop (h₀ : AtRest held₀ f₀) (turns : Nat) :
    ∀ {f : Flat} (dir : Dir) (s : Sector) (prev ptr : List UInt8), ptr.length < turns →
    Since f₀ held₀ f (plus held₀ dir.inode) → dir.At f s → f₀.dev.IsDir s →
    OnTree f (dir_from_path_loop turns (some dir) prev ptr) fun r f' =>
      Ended f₀ held₀ r f' (f₀.dev.walk s (prev :: tokens ptr SLASH).dropLast) := by
  induction turns with
  | zero => exact fun _ _ _ _ hlt => absurd hlt (Nat.not_lt_zero _)
  | succ turns ih =>
    intro f dir s prev ptr hlt h hat hs
    unfold dir_from_path_loop
    split
    · rename_i hn
      rw [strtok_r_none hn]
      exact ⟨dir, rfl, h, hat⟩
    · rename_i cur ptr' htok
      obtain ⟨htok, -, hshort⟩ := strtok_r_some htok
      have hlt' : ptr'.length < turns := by omega
      rw [htok, List.dropLast_cons_cons, FlatDisk.walk]
      split
      · exact ih dir s cur ptr' hlt' h hat hs
      · obtain ⟨i, hi, rfl⟩ := hat
        refine .bind (onTree_component_inode h₀ h hi hs) ?_
        intro r f₁ hr
        cases hc : f₀.dev.component i.sector prev with
        | none =>
          rw [hc] at hr
          obtain ⟨rfl, h₁⟩ := hr
          exact ⟨rfl, _, h.trans h₁⟩
        | some t =>
          rw [hc] at hr
          obtain ⟨q, j, rfl, hq, hj, rfl⟩ := hr
          have h₁ := h.trans hq
          have hnode : f₁.node j = f₀.dev.nodes j.sector := congrFun (congrArg _ h₁.dev) _
          refine .bind (onTree_stat hj Stat.is_dir) ?_
          rintro b f₁ ⟨rfl, rfl⟩
          rw [hnode]
          dsimp only
          split
          · -- the handle on the directory goes, the one on the next stays
            have hgone : minus (plus (plus held₀ dir.inode) q) dir.inode = plus held₀ q :=
              minus_plus_comm
            have hat₁ : (⟨q, 0⟩ : Dir).At f₁ j.sector := ⟨j, hj, rfl⟩
            refine .bind (onTree_close_at h₀ h₁ ?_ hat₁ ?_) ?_
            · exact lt_of_lt_of_le (lt_plus_self held₀ _) (Nat.le_add_right _ _)
            · rw [hgone, plus_self]
              exact Nat.succ_pos _
            · rintro _ f₂ ⟨h₂, hat₂⟩
              rw [hgone] at h₂
              exact ih _ _ cur ptr' hlt' h₂ hat₂ ⟨h₀.linked.live_component hs hc, ‹_›⟩
          · have hgone : minus (plus (plus held₀ dir.inode) q) q = plus held₀ dir.inode :=
              minus_plus
            obtain ⟨k, hk, hks⟩ := hq.handles.open_still hi
            have hat₁ : dir.At f₁ i.sector := ⟨k, hk, hks⟩
            refine .bind (onTree_close_at h₀ h₁ ?_ hat₁ ?_) ?_
            · exact lt_of_le_of_lt (h.handles.le q) (lt_plus_self _ q)
            · rw [hgone, plus_self]
              exact Nat.succ_pos _
            · rintro _ f₂ ⟨h₂, hat₂⟩
              rw [hgone] at h₂
              exact ih _ _ cur ptr' hlt' h₂ hat₂ hs

/-- A path starts in a directory. -/
theorem isDir_start_sector (h : f.dev.Linked) (hcwd : CwdOk f current_dir) :
    f.dev.IsDir (start_sector f current_dir path) := by
  unfold start_sector
  split
  · exact h.root
  · split
    · exact h.root
    · obtain ⟨i, hi, hd, -⟩ := hcwd _ rfl
      rw [hi]
      exact hd

theorem onTree_start_dir (h : AtRest held f) (hcwd : CwdOk f current_dir) (path : List UInt8) :
    OnTree f (start_dir current_dir (c_string path)) fun r f' =>
      Ended f held r f' (some (start_sector f current_dir path)) := by
  have hroot : OnTree f dir_open_root fun r f' => Ended f held r f' (some ROOT_DIR_SECTOR) := by
    refine .bind (onTree_open h.table h.linked.root.1) ?_
    rintro q f' ⟨q', j, hq, hsince, hj, hs⟩
    obtain rfl := Option.some.inj hq
    exact ⟨⟨q, 0⟩, rfl, hsince, j, hj, hs⟩
  cases current_dir with
  | none => exact hroot
  | some cwd =>
    unfold start_dir start_sector
    dsimp only
    split
    · exact hroot
    · obtain ⟨i, hi, -⟩ := hcwd cwd rfl
      refine .bind (onTree_reopen h.table hi) ?_
      rintro q f' ⟨rfl, hsince⟩
      obtain ⟨j, hj, hs⟩ := hsince.handles.open_still hi
      refine ⟨⟨cwd.inode, 0⟩, rfl, hsince, j, hj, ?_⟩
      rw [hi]
      exact hs

/-- `dir_from_path` ends where the walk along the path does. -/
theorem onTree_dir_from_path (h : AtRest held f) (hcwd : CwdOk f current_dir) (path : List UInt8) :
    OnTree f (dir_from_path current_dir path) fun r f' =>
      Ended f held r f' (target f current_dir path) := by
  refine .bind (onTree_start_dir h hcwd path) ?_
  rintro _ f₁ ⟨dir, rfl, hsince, hat⟩
  rw [target, components]
  split
  · rename_i hn
    rw [strtok_r_none hn]
    exact ⟨dir, rfl, hsince, hat⟩
  · rename_i prev ptr hs
    obtain ⟨htok, -, hlt⟩ := strtok_r_some hs
    rw [htok]
    exact onTree_dir_from_path_loop h _ _ _ _ _ hlt hsince hat (isDir_start_sector h.linked hcwd)

end Walk

end Pintos
