import Pintos.Filesys.OpenHandles
import Pintos.Filesys.Resolution

/-!
# Filesys — the open counts that path operations leave

A program is `Neutral` if it gives back every handle it takes, whatever the disk holds: a table of
open inodes that is sound for some handles is sound for the same handles afterwards.  `dir_add` and
`dir_remove` are, and so is what `filesys_create` and `filesys_remove` do in the directory that the
path leads to.

`dir_from_path` is not: where a component is missing it keeps the handle on the directory it was in.
And `filesys_chdir` gives back the old current directory only if it looks up the last component, not
if this is `.` or the path is that of the root directory.  `open_counts_iff` says for each of the
four calls exactly when it leaves the counts that it should.
-/

namespace Pintos
open Support Option
open Prog (ends_bind ends_op yields_bind ends_pure)
open Machine.Ends (yields)
open Event (InTable)

/-- `m` gives back every handle it takes. -/
def Neutral {α : Type} (m : FsProg α) : Prop :=
  ∀ ⦃k : Fs⦄ ⦃held : Addr → Nat⦄, TableOk held k →
    (m.run disk_api).Ends k fun _ k' => TableOk held k'

section Neutral

variable {α β : Type} {m : FsProg α} {k : Fs} {held : Addr → Nat} {p : Addr} {n : α → FsProg β}

theorem Neutral.pure (a : α) : Neutral (Pure.pure a : FsProg α) := fun _ _ h => ends_pure h

theorem Neutral.bind (h : Neutral m) (hn : ∀ a, Neutral (n a)) :
    Neutral (m >>= n) := fun _ _ ht => ends_bind (h ht) fun a _ ht' => hn a ht'

theorem Neutral.ite {c : Prop} [Decidable c] {m' : FsProg α} (h : Neutral m) (h' : Neutral m') :
    Neutral (if c then m else m') := by
  split
  · exact h
  · exact h'

/-- What leaves the table alone is neutral. -/
theorem Neutral.of_below (h : Below (m.run disk_api)) : Neutral m :=
  fun k _ ht => (h k).mono fun _ _ hk => ht.same hk

theorem Neutral.op {o : FsOp} (h : ∀ (k : Fs) (held : Addr → Nat), TableOk held k →
    (disk_api o).Ends k fun _ k' => TableOk held k') : Neutral (call o) :=
  fun k held ht => ends_op (h k held ht)

theorem neutral_assert_failed : Neutral (assert_failed : FsProg α) :=
  fun _ _ _ => .bind (Q := fun _ _ => False) Machine.Ends.panic fun _ _ h => h.elim

/-- A field of an inode changes that is neither its sector nor its count. -/
theorem TableOk.update {ι δ : Type} {k : Kernel ι δ} {i j : Inode ι} (h : TableOk held k)
    (hp : k.mem p = some i) (hs : j.sector = i.sector) (hc : j.open_cnt = i.open_cnt) :
    TableOk held (k.setInode p j) :=
  h.setInode hp hs (hc.trans (h.counted hp)) ((h.handles p).mpr ⟨i, hp⟩) fun _ _ => rfl

theorem neutral_lock_acquire : Neutral (call (.inode_lock_acquire p)) := by
  refine .op fun _ _ ht => (inode_lock_acquire_ends).mono ?_
  rintro - k' ⟨i, hi, -, rfl⟩
  exact ht.update hi rfl rfl

theorem neutral_lock_release : Neutral (call (.inode_lock_release p)) := by
  refine .op fun _ _ ht => (inode_lock_release_ends).mono ?_
  rintro - k' ⟨i, hi, rfl⟩
  exact ht.update hi rfl rfl

theorem neutral_remove : Neutral (call (.inode_remove p)) :=
  .op fun _ _ ht => deref_bind_ends fun _ hi => .modify (ht.update hi rfl rfl)

theorem neutral_set_dir_parent (parent : Sector) : Neutral (call (.set_dir_parent p parent)) :=
  .op fun _ _ ht => deref_bind_ends fun _ hi => .modify (ht.update hi rfl rfl)

/-- A write changes what the inode says of the file. -/
theorem neutral_write_at (buffer : List UInt8) (offset : Nat) :
    Neutral (call (.inode_write_at p buffer offset)) := by
  refine .op fun k _ ht => deref_bind_ends fun i hi => .ite (fun _ => .pure ht) fun _ => ?_
  refine .bind (below_inode_extend i _ k) fun d k₁ hk => ?_
  refine .modify_bind ((below_onDevice _ _).mono fun _ k₂ hk₂ => ?_)
  have hi₁ : k₁.mem p = some i := by rw [hk.mem, hi]
  have hset : TableOk _ (k₁.setInode p { i with data := d }) := (ht.same hk).update hi₁ rfl rfl
  exact hset.same hk₂

theorem neutral_close_null : Neutral (call (.inode_close none)) :=
  .op fun _ _ ht => .pure ht

/-- An inode is opened, and closed again. -/
theorem Neutral.opened {sector : Sector} {m : Addr → FsProg α} (hm : ∀ p, Neutral (m p))
    (hn : ∀ a, Neutral (n a)) :
    Neutral (do
      let p ← call (.inode_open sector)
      let a ← m p
      call (.inode_close (some p))
      n a) := by
  intro k held ht
  refine ends_bind (ends_op (inode_open_ends disk_backend_quiet ht)) fun p k₁ h₁ => ?_
  refine ends_bind (hm p h₁.table) fun a k₂ h₂ => ?_
  have hpos : 0 < plus held p p := by
    rw [plus_self]
    exact Nat.succ_pos _
  refine ends_bind (ends_op (h₂.close_ends disk_backend_quiet hpos)) fun _ k₃ h₃ => ?_
  rw [minus_plus] at h₃
  exact hn a h₃.1

/-! ### In a directory -/

theorem neutral_stat (f : Stat → α) : Neutral (do let stat ← call (.inode_stat p); pure (f stat)) :=
  .of_below (below_stat f)

theorem neutral_read_at (size offset : Nat) : Neutral (call (.inode_read_at p size offset)) :=
  .op fun k _ ht => (below_inode_read_at p size offset k).mono fun _ _ hk => ht.same hk

theorem neutral_free_slot_loop (turns : Nat) : ∀ ofs e, Neutral (free_slot_loop p turns ofs e) := by
  induction turns with
  | zero => exact fun _ _ => .pure _
  | succ turns ih =>
    intro ofs e
    exact .bind (neutral_read_at _ _) fun _ => .ite (.ite (ih _ _) (.pure _)) (.pure _)

theorem neutral_dir_is_empty : Neutral (dir_is_empty p) := by
  have hloop : ∀ turns ofs, Neutral (dir_is_empty_loop p turns ofs) := by
    intro turns
    induction turns with
    | zero => exact fun _ => .pure _
    | succ turns ih =>
      exact fun ofs => .bind (neutral_read_at _ _) fun _ => .ite (.ite (.pure _) (ih _)) (.pure _)
  exact .bind (neutral_stat _) fun _ => hloop _ _

theorem neutral_dir_add (dir : Option Dir) (name : List UInt8) (inode_sector : Sector)
    (e : List UInt8) : Neutral (dir_add dir name inode_sector e) := by
  cases dir with
  | none => exact neutral_assert_failed
  | some dir =>
    have hend : ∀ b : Bool, Neutral (do call (.inode_lock_release dir.inode); pure b) :=
      fun b => .bind neutral_lock_release fun _ => .pure b
    refine .bind neutral_lock_acquire fun _ => .ite (hend _) ?_
    refine .bind (.of_below (below_lookup dir)) fun r => ?_
    cases r with
    | some r => exact hend _
    | none =>
      refine .bind (.bind (neutral_stat _) fun parent => ?_) fun b => hend b
      refine .bind (.opened (fun p => neutral_set_dir_parent parent) fun _ => .pure _) ?_
      intro _
      refine .bind (neutral_stat _) fun length => .bind (neutral_free_slot_loop _ _ _) ?_
      exact fun slot => .bind (neutral_write_at _ _) fun _ => .pure _

theorem neutral_dir_remove (dir : Option Dir) (name : List UInt8) :
    Neutral (dir_remove dir name) := by
  cases dir with
  | none => exact neutral_assert_failed
  | some dir =>
    have hend : ∀ b : Bool, Neutral (do call (.inode_lock_release dir.inode); pure b) :=
      fun b => .bind neutral_lock_release fun _ => .pure b
    refine .bind neutral_lock_acquire fun _ => .bind (.of_below (below_lookup dir)) fun r => ?_
    cases r with
    | none => exact .bind neutral_close_null fun _ => hend _
    | some r =>
      refine .opened (fun inode => .bind ?_ fun b => .ite ?_ (.pure _)) fun b => hend b
      · refine .bind (neutral_stat _) fun _ => .bind (neutral_stat _) fun _ => ?_
        exact .ite (.pure _) (.ite neutral_dir_is_empty (.pure _))
      · exact .bind (neutral_write_at _ _) fun _ =>
          .ite (.bind neutral_remove fun _ => .pure _) (.pure _)

theorem neutral_create_in (dir : Option Dir) (file_name : List UInt8) (initial_size : Int)
    (is_dir : Bool) (e : List UInt8) : Neutral (create_in dir file_name initial_size is_dir e) := by
  have hallocate : Neutral (call .free_map_allocate) :=
    .op fun k _ ht => (below_free_map_allocate 1 k).mono fun _ _ hk => ht.same hk
  have hcreate : ∀ s, Neutral (call (.inode_create s initial_size is_dir)) := fun s =>
    .op fun k _ ht => .ite
      (fun _ => (below_inode_create s _ is_dir k).mono fun _ _ hk => ht.same hk)
      fun _ => .panic
  refine .ite (.pure _) (.bind hallocate fun sector => ?_)
  cases sector with
  | none => exact .pure _
  | some sector =>
    refine .bind (hcreate sector) fun created => .ite ?_ (.pure _)
    exact .bind (neutral_dir_add _ _ _ _) fun _ => .pure _

end Neutral

/-! ### The counts -/

/-- The `open_cnt` of the inode at `p`, 0 if there is none. -/
def open_count (k : Fs) (p : Addr) : Int :=
  match k.mem p with
  | some i => i.open_cnt
  | none => 0

/-- From `k` to `k'` the inode at `gained` is opened once more and the one at `lost` once less. -/
def Counted (k k' : Fs) (gained lost : Option Addr) : Prop :=
  ∀ q, open_count k' q + (if lost = some q then 1 else 0) =
    open_count k q + if gained = some q then 1 else 0

section Counts

variable {D : Sector → InodeDisk} {f : Flat} {k k' k₁ : Fs} {held held' : Addr → Nat} {p : Addr}
  {current_dir : Option Dir} {dir : Dir} {path : List UInt8}

theorem TableOk.open_count_eq (h : TableOk held k) (q : Addr) : open_count k q = held q := by
  rw [open_count]
  cases hq : k.mem q with
  | some i => exact h.counted hq
  | none =>
    have hzero : held q = 0 := Nat.eq_zero_of_not_pos fun hpos => by
      obtain ⟨i, hi⟩ := (h.handles q).mp hpos
      rw [hq] at hi
      cases hi
    rw [hzero]
    rfl

theorem counted_iff (h : TableOk held k) (h' : TableOk held' k') {gained lost : Option Addr} :
    Counted k k' gained lost ↔ ∀ q, held' q + (if lost = some q then 1 else 0) =
      held q + if gained = some q then 1 else 0 := by
  refine forall_congr' fun q => ?_
  rw [h.open_count_eq, h'.open_count_eq]
  split <;> split <;> omega

theorem counted_same (h : TableOk held k) (h' : TableOk held k') : Counted k k' none none :=
  (counted_iff h h').mpr fun _ => rfl

theorem counted_plus (h : TableOk held k) (h' : TableOk (plus held p) k') :
    Counted k k' (some p) none := by
  refine (counted_iff h h').mpr fun q => ?_
  by_cases e : q = p
  · simp [e]
  · simp [e, Ne.symm e]

/-- A handle that is kept shows in the counts. -/
theorem not_counted_same (h : TableOk held k) (h' : TableOk (plus held p) k') :
    ¬ Counted k k' none none := fun hc => by
  have := (counted_iff h h').mp hc p
  rw [plus_self] at this
  simp at this

/-- Where the walk ends, and the handle it has then. -/
def Walked (held : Addr → Nat) (r : Option Dir) (k : Fs) : Option Sector → Prop
  | none => r = none ∧ ∃ p, TableOk (plus held p) k
  | some s => ∃ dir i, r = some dir ∧ TableOk (plus held dir.inode) k ∧
      k.mem dir.inode = some i ∧ i.sector = s

theorem dir_from_path_yields (h : AtRest held f) (hcwd : CwdOk f current_dir)
    (hm : Mirrors D f k) (path : List UInt8) :
    ((dir_from_path current_dir path).run disk_api).Yields InTable k fun r k₁ =>
      Walked held r k₁ (target f current_dir path) := by
  refine Machine.Runs.yields (((onTree_dir_from_path h hcwd path).disk hm).mono ?_)
  rintro es r k₁ - ⟨f₁, hend, hm₁⟩
  cases ht : target f current_dir path with
  | none =>
    rw [ht] at hend
    obtain ⟨hr, p, hp⟩ := hend
    exact ⟨hr, p, hm₁.table hp.handles.table⟩
  | some s =>
    rw [ht] at hend
    obtain ⟨dir, hr, hp, i, hi, hs⟩ := hend
    obtain ⟨j, hj, rfl⟩ := hm₁.of_flat hi
    exact ⟨dir, j, hr, hm₁.table hp.handles.table, hj, hs⟩

/-- The handle of the walk is given back. -/
theorem dir_close_ends (h : TableOk (plus held dir.inode) k) :
    ((dir_close (some dir)).run disk_api).Ends k fun _ k' => TableOk held k' := by
  have hpos : 0 < plus held dir.inode dir.inode := by
    rw [plus_self]
    exact Nat.succ_pos _
  refine ends_op ((h.close_ends disk_backend_quiet hpos).mono fun _ k' hk => ?_)
  rw [minus_plus] at hk
  exact hk.1

theorem filesys_create_counts (h : AtRest held f) (hcwd : CwdOk f current_dir)
    (hm : Mirrors D f k) (path : List UInt8) (initial_size : Int) (is_dir : Bool)
    (e : List UInt8) :
    ((filesys_create current_dir path initial_size is_dir e).run disk_api).Yields InTable k
      fun _ k' => Counted k k' none none ↔ target f current_dir path ≠ none := by
  have hk : TableOk held k := hm.table h.table
  refine yields_bind (dir_from_path_yields h hcwd hm path) fun r k₁ hr => ?_
  cases ht : target f current_dir path with
  | none =>
    rw [ht] at hr
    obtain ⟨rfl, p, hp⟩ := hr
    have hin : create_in none (file_name_from_path path) initial_size is_dir e =
      pure (false, 0) := if_pos (.inr (.inr rfl))
    dsimp only
    rw [hin]
    exact yields (Machine.Ends.pure (iff_of_false (not_counted_same hk hp) fun hne => hne rfl))
  | some s =>
    rw [ht] at hr
    obtain ⟨dir, i, rfl, hp, -, -⟩ := hr
    refine yields (ends_bind (neutral_create_in _ _ _ _ _ hp) fun r k₂ h₂ => ?_)
    have hclose : ∀ {k₃ : Fs}, TableOk (plus held dir.inode) k₃ →
        ((do dir_close (some dir); pure r.1 : FsProg Bool).run disk_api).Ends k₃ fun _ k' =>
          Counted k k' none none ↔ some s ≠ none := fun h₃ =>
      ends_bind (dir_close_ends h₃) fun _ k' h' =>
        ends_pure (iff_of_true (counted_same hk h') (some_ne_none s))
    split
    · refine ends_bind (ends_op (below_free_map_release _ _ k₂)) fun _ k₃ h₃ => ?_
      exact hclose (h₂.same h₃)
    · exact hclose h₂

theorem filesys_remove_counts (h : AtRest held f) (hcwd : CwdOk f current_dir)
    (hm : Mirrors D f k) (path : List UInt8) :
    ((filesys_remove current_dir path).run disk_api).Yields InTable k fun _ k' =>
      Counted k k' none none ↔ target f current_dir path ≠ none := by
  have hk : TableOk held k := hm.table h.table
  refine yields_bind (dir_from_path_yields h hcwd hm path) fun r k₁ hr => ?_
  cases ht : target f current_dir path with
  | none =>
    rw [ht] at hr
    obtain ⟨rfl, p, hp⟩ := hr
    exact yields (Machine.Ends.pure (iff_of_false (not_counted_same hk hp) fun hne => hne rfl))
  | some s =>
    rw [ht] at hr
    obtain ⟨dir, i, rfl, hp, -, -⟩ := hr
    refine yields (ends_bind (neutral_dir_remove _ _ hp) fun b k₂ h₂ => ?_)
    refine ends_bind (dir_close_ends h₂) fun _ k' h' => ends_pure ?_
    exact iff_of_true (counted_same hk h') (some_ne_none s)

/-- `component_inode`, and then the directory it looks in is closed. -/
theorem component_inode_counts {α : Type} {n : Option Addr → FsProg α} {P : α → Fs → Prop}
    (name : List UInt8) (h : TableOk (plus held dir.inode) k)
    (hn : ∀ r k', TableOk (taken held r) k' → ((n r).run disk_api).Ends k' P) :
    ((do
      let inode ← component_inode (some dir) name
      dir_close (some dir)
      n inode).run disk_api).Ends k P := by
  refine ends_bind (component_inode_ends dir h) fun r k₁ h₁ => ?_
  have hout : taken (plus held dir.inode) r = plus (taken held r) dir.inode := by
    cases r with
    | none => rfl
    | some q => exact plus_comm
  have ht := h₁.table
  rw [hout] at ht
  exact ends_bind (dir_close_ends ht) fun _ k' h' => hn r k' h'

theorem dir_is_root_ends {i : Inode InodeDisk} (hi : k.mem dir.inode = some i) :
    ((dir_is_root (some dir)).run disk_api).Ends k fun b k' =>
      k' = k ∧ b = (i.sector == ROOT_DIR_SECTOR) := by
  have hstat : (disk_api (.inode_stat dir.inode)).Ends k fun r k' => k' = k ∧ r.sector = i.sector :=
    deref_bind_ends fun j hj => .pure
      ⟨rfl, congrArg Inode.sector (Option.some.inj (hj.symm.trans hi))⟩
  refine ends_bind (ends_bind (ends_op hstat) fun r k₁ hr => ends_pure
    (Q := fun s k₁ => k₁ = k ∧ s = i.sector) hr) ?_
  rintro s k₁ ⟨rfl, rfl⟩
  exact ends_pure ⟨rfl, rfl⟩

/-- What a call that returned `r` should do to the counts, where the walk ends as `target` says: a
handle on what it returns is taken, and a failed call leaves the counts as they are. -/
def OpenCounted (k : Fs) (target : Option Sector) (k' : Fs) : Option OpenFile → Prop
  | none => Counted k k' none none ↔ target ≠ none
  | some file => Counted k k' (some file.inode) none

theorem filesys_open_counts (h : AtRest held f) (hcwd : CwdOk f current_dir)
    (hm : Mirrors D f k) (path : List UInt8) :
    ((filesys_open current_dir path).run disk_api).Yields InTable k fun r k' =>
      OpenCounted k (target f current_dir path) k' r := by
  have hk : TableOk held k := hm.table h.table
  refine yields_bind (dir_from_path_yields h hcwd hm path) fun r k₁ hr => ?_
  cases ht : target f current_dir path with
  | none =>
    rw [ht] at hr
    obtain ⟨rfl, p, hp⟩ := hr
    exact yields (Machine.Ends.pure (iff_of_false (not_counted_same hk hp) fun hne => hne rfl))
  | some s =>
    rw [ht] at hr
    obtain ⟨dir, i, rfl, hp, hi, -⟩ := hr
    refine yields (ends_bind (dir_is_root_ends hi) ?_)
    rintro is_root k₁ ⟨rfl, -⟩
    split
    · exact ends_pure (counted_plus hk hp)
    · split
      · exact ends_pure (counted_plus hk hp)
      · refine component_inode_counts _ hp fun r k₂ h₂ => ?_
        cases r with
        | none =>
          exact ends_pure (iff_of_true (counted_same hk h₂) (some_ne_none s))
        | some q =>
          refine ends_bind inode_is_dir_ends ?_
          rintro is_dir k₂ ⟨rfl, -⟩
          split
          · exact ends_pure (counted_plus hk h₂)
          · exact ends_pure (counted_plus hk h₂)

/-- The last component is looked up, or there is no old current directory. -/
def LooksUp (f : Flat) (current_dir : Option Dir) (path : List UInt8) : Prop :=
  current_dir = none ∨ (components path).getLastD [] ≠ DOT ∧
    ((components path).getLastD [] = [] → target f current_dir path ≠ some ROOT_DIR_SECTOR)

/-- A successful `filesys_chdir` should take a handle on the new current directory and give back the
one on the old. -/
def ChdirCounted (f : Flat) (k : Fs) (current_dir : Option Dir) (path : List UInt8) (k' : Fs)
    (r : Bool × Option Dir) : Prop :=
  if r.1 then Counted k k' (r.2.map Dir.inode) (current_dir.map Dir.inode) ↔
    LooksUp f current_dir path
  else Counted k k' none none ↔ target f current_dir path ≠ none

/-- The old current directory is not closed. -/
theorem counted_kept_iff (h : TableOk held k) (h' : TableOk (plus held p) k')
    (current_dir : Option Dir) :
    Counted k k' (some p) (current_dir.map Dir.inode) ↔ current_dir = none := by
  cases current_dir with
  | none => exact iff_of_true (counted_plus h h') rfl
  | some cwd =>
    refine iff_of_false (fun hc => ?_) (some_ne_none cwd)
    have hq := (counted_iff h h').mp hc cwd.inode
    by_cases e : cwd.inode = p
    · simp [e] at hq
    · simp [e, Ne.symm e] at hq

/-- The old current directory is closed. -/
theorem counted_moved (h : TableOk held k) (hp : 0 < held p) {q : Addr}
    (h' : TableOk (minus (plus held q) p) k') : Counted k k' (some q) (some p) := by
  refine (counted_iff h h').mpr fun x => ?_
  by_cases ep : x = p
  · by_cases eq : x = q
    · subst ep eq
      simp
    · subst ep
      simp [eq, Ne.symm eq]
      omega
  · by_cases eq : x = q
    · subst eq
      simp [ep, Ne.symm ep]
    · simp [ep, eq, Ne.symm ep, Ne.symm eq]

theorem filesys_chdir_counts (h : AtRest held f) (hcwd : CwdOk f current_dir)
    (hm : Mirrors D f k) (path : List UInt8) :
    ((filesys_chdir current_dir path).run disk_api).Yields InTable k fun r k' =>
      ChdirCounted f k current_dir path k' r := by
  have hk : TableOk held k := hm.table h.table
  refine yields_bind (dir_from_path_yields h hcwd hm path) fun r k₁ hr => ?_
  unfold ChdirCounted LooksUp
  cases ht : target f current_dir path with
  | none =>
    rw [ht] at hr
    obtain ⟨rfl, p, hp⟩ := hr
    exact yields (Machine.Ends.pure (iff_of_false (not_counted_same hk hp) fun hne => hne rfl))
  | some s =>
    rw [ht] at hr
    obtain ⟨dir, i, rfl, hp, hi, rfl⟩ := hr
    rw [file_name_from_path_eq]
    refine yields ?_
    dsimp only
    split
    · rename_i hdot
      refine ends_pure ((counted_kept_iff hk hp current_dir).trans ?_)
      rw [hdot]
      simp
    rename_i hdot
    refine ends_bind (dir_is_root_ends hi) ?_
    rintro is_root k₁ ⟨rfl, rfl⟩
    split
    · rename_i hroot
      obtain ⟨hname, hroot⟩ := hroot
      refine ends_pure ((counted_kept_iff hk hp current_dir).trans ?_)
      rw [hname, beq_iff_eq.mp hroot]
      simp
    · rename_i hroot
      have hlook : (components path).getLastD [] ≠ DOT ∧
          ((components path).getLastD [] = [] → some i.sector ≠ some ROOT_DIR_SECTOR) :=
        ⟨hdot, fun hname e => hroot ⟨hname, beq_iff_eq.mpr (Option.some.inj e)⟩⟩
      refine component_inode_counts _ hp fun r k₂ h₂ => ?_
      cases r with
      | none =>
        exact .pure (iff_of_true (counted_same hk h₂) (some_ne_none _))
      | some q =>
        cases current_dir with
        | none =>
          exact .pure (iff_of_true (counted_plus hk h₂) (.inl rfl))
        | some cwd =>
          obtain ⟨j, hj, -⟩ := hcwd cwd rfl
          have hpos : 0 < held cwd.inode := (h.table.handles _).mpr ⟨j, hj⟩
          refine ends_bind (Q := fun d k₃ => d = some ⟨q, 0⟩ ∧ k₃ = k₂) (ends_pure ⟨rfl, rfl⟩) ?_
          rintro _ k₂ ⟨rfl, rfl⟩
          refine ends_bind (ends_op (h₂.close_ends disk_backend_quiet
            (Nat.lt_of_lt_of_le hpos (Nat.le_add_right _ _)))) fun _ k' hk' => ?_
          exact ends_pure (iff_of_true (counted_moved hk hpos hk'.1) (.inr hlook))

/-- **Open counts.**  For every tree, current directory and path: `filesys_create`,
`filesys_remove` and a `filesys_open` or `filesys_chdir` that fails leave the counts as they are
exactly if no component but the last is missing; a `filesys_open` that succeeds takes a handle on
what it opens; and a `filesys_chdir` that succeeds moves the handle from the old current directory
to the new exactly if it looks the last component up, or there was no old one. -/
theorem open_counts_iff (h : AtRest held f) (hcwd : CwdOk f current_dir) (hm : Mirrors D f k)
    (path : List UInt8) :
    (∀ initial_size is_dir e,
      ((filesys_create current_dir path initial_size is_dir e).run disk_api).Yields InTable k
        fun _ k' => Counted k k' none none ↔ target f current_dir path ≠ none) ∧
    ((filesys_remove current_dir path).run disk_api).Yields InTable k (fun _ k' =>
      Counted k k' none none ↔ target f current_dir path ≠ none) ∧
    ((filesys_open current_dir path).run disk_api).Yields InTable k (fun r k' =>
      OpenCounted k (target f current_dir path) k' r) ∧
    ((filesys_chdir current_dir path).run disk_api).Yields InTable k (fun r k' =>
      ChdirCounted f k current_dir path k' r) :=
  ⟨filesys_create_counts h hcwd hm path, filesys_remove_counts h hcwd hm path,
    filesys_open_counts h hcwd hm path, filesys_chdir_counts h hcwd hm path⟩

/-- The counts at the tree with one file: `filesys_open` of the file takes a handle on it. -/
theorem open_counts_treeFs : AtRest (fun p => if p = 0 then 1 else 0) treeFlat ∧
    CwdOk treeFlat none ∧ Mirrors treeInodes treeFlat treeFs ∧
    ((filesys_open none [97]).run disk_api).Yields InTable treeFs fun r k' =>
      OpenCounted treeFs (some ROOT_DIR_SECTOR) k' r :=
  have hcwd : CwdOk treeFlat none := fun _ h => nomatch h
  ⟨atRest_treeFlat, hcwd, mirrors_treeFs,
    (open_counts_iff atRest_treeFlat hcwd mirrors_treeFs [97]).2.2.1⟩

/-- The file `x/y` cannot be opened, and the root directory, which was closed, stays open. -/
theorem lost_walk_keeps_handle : ∃ es k',
    (filesys_open none [120, 47, 121]).run disk_api treeFs = (es, .done none k') ∧
    open_count treeFs 1 = 0 ∧ open_count k' 1 = 1 := by
  have hrun : ((returned ((filesys_open none [120, 47, 121]).run disk_api treeFs)).any fun r =>
      r.2.1.isNone && decide (open_count r.2.2 1 = 1)) = true := by decide +kernel
  obtain ⟨⟨es, r, k'⟩, hr, hk⟩ := (Option.any_eq_true _ _).mp hrun
  obtain ⟨hnone, hcount⟩ := Bool.and_eq_true_iff.mp hk
  obtain rfl : r = none := Option.isNone_iff_eq_none.mp hnone
  exact ⟨es, k', returned_eq_some hr, rfl, of_decide_eq_true hcount⟩

end Counts

end Pintos
