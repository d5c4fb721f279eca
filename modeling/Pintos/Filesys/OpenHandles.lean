import Pintos.Filesys.DiskApi
import Pintos.Filesys.Handles
import Pintos.Filesys.Paths

/-!
# Filesys — the handles that opening a path takes

On the disk a walk along a path can stop at many places, and what it finds depends on every sector
it reads.  The handles it takes do not: whatever the disk holds, a call of `filesys_open` that
returns has given back every handle it took but the one on the inode it returns.  Only a walk that
ends at a missing component keeps the handle on the directory it was in.

`filesys_open_ends` says so in terms of `Over`; the inodes that were open before are where they
were, and only their counts differ.
-/

namespace Pintos
open Support
open Prog (ends_bind ends_op ends_pure run_bind)

/-- Below the table nothing touches it. -/
structure Backend.Quiet {ι δ : Type} (B : Backend ι δ) : Prop where
  load : ∀ s, Below (B.load s)
  retire : ∀ i, Below (inode_retire B i)

theorem disk_backend_quiet : disk_backend.Quiet := ⟨below_disk_load, below_inode_retire⟩

/-! ### Opening and closing -/

section Table

variable {ι δ : Type} {B : Backend ι δ} {k k₀ k' : Kernel ι δ} {held held₀ : Addr → Nat}
  {p : Addr} {i : Inode ι} {s : Sector}

theorem TableOk.same (h : TableOk held k) (hk : SameTable k k') : TableOk held k' :=
  h.congr hk.mem hk.next hk.open_inodes

theorem Over.same (h : Over k₀ held₀ k held) (hk : SameTable k k') : Over k₀ held₀ k' held :=
  h.congr hk.mem hk.next hk.open_inodes

theorem inode_open_ends (hB : B.Quiet) (h : TableOk held k) :
    (inode_open B s).Ends k fun p k' => Over k held k' (plus held p) := by
  by_cases hop : ∃ p i, k.mem p = some i ∧ i.sector = s
  · obtain ⟨p, i, hp, hs⟩ := hop
    intro es q k' hr
    rw [inode_open_hit h hp hs] at hr
    cases hr
    exact h.over_reopen hp
  · have hcl : ∀ q j, k.mem q = some j → j.sector ≠ s := fun q j hq e => hop ⟨q, j, hq, e⟩
    refine .get_bind ?_
    rw [h.opened_eq_none.mpr hcl]
    refine .bind (hB.load s k) fun d k₁ hk => .get_bind ?_
    refine .modify_bind (.pure ?_)
    have hcl₁ : ∀ q j, k₁.mem q = some j → j.sector ≠ s := by rw [hk.mem]; exact hcl
    exact ((h.same hk).over_malloc hcl₁).base_congr hk.mem.symm

theorem inode_reopen_ends (h : TableOk held k) :
    (inode_reopen p : Machine Event (Kernel ι δ) Addr).Ends k fun q k' =>
      q = p ∧ Over k held k' (plus held p) := by
  refine deref_bind_ends fun i hp => ?_
  exact .modify_bind (.pure ⟨rfl, h.over_reopen hp⟩)

/-- The last close takes the inode out of the table, and nothing else. -/
theorem inode_close_last_ends (hB : B.Quiet) (hp : k.mem p = some i) (hc : i.open_cnt = 1) :
    (inode_close B (some p)).Ends k fun _ k' => ∃ k₁ : Kernel ι δ, k' = k₁.free p ∧
      (∀ q, q ≠ p → k₁.mem q = k.mem q) ∧ k₁.next = k.next ∧
      k₁.open_inodes = k.open_inodes.erase p := by
  refine deref_bind_ends fun j hj => .modify_bind ?_
  obtain rfl : i = j := Option.some.inj (hp.symm.trans hj)
  rw [if_pos (by show i.open_cnt - 1 = 0; omega)]
  refine .modify_bind (.bind (hB.retire _ _) fun _ k₁ hk => ?_)
  refine .modify ⟨k₁, rfl, fun q hq => ?_, hk.next, hk.open_inodes⟩
  rw [hk.mem]
  exact (Kernel.setInode_mem ..).trans (if_neg hq)

/-- `inode_close` of a handle taken since `k₀` gives it back. -/
theorem Over.close_ends (hB : B.Quiet) (h : Over k₀ held₀ k held) (h₀ : TableOk held₀ k₀)
    (hp : held₀ p < held p) :
    (inode_close B (some p)).Ends k fun _ k' => Over k₀ held₀ k' (minus held p) := by
  obtain ⟨i, hi⟩ := (h.table.handles p).mp (by omega)
  have hcount : i.open_cnt = held p := h.table.counted hi
  by_cases hc : i.open_cnt = 1
  · have hzero : held₀ p = 0 := by omega
    have hn : k₀.mem p = none := by
      cases hf : k₀.mem p with
      | none => rfl
      | some j => exact absurd ((h₀.handles p).mpr ⟨j, hf⟩) (by omega)
    refine (inode_close_last_ends hB hi hc).mono ?_
    rintro - - ⟨k₁, rfl, hm, hnext, ho⟩
    exact h.close_last hzero hn hm hnext ho (by omega)
  · intro es u k' hr
    rw [inode_close_more hi hc] at hr
    cases hr
    exact h.close_more hp hi hc

/-- `inode_close` of a handle: the other inodes stay, and of this one only the count changes. -/
theorem TableOk.close_ends (hB : B.Quiet) (h : TableOk held k) (hp : 0 < held p) :
    (inode_close B (some p)).Ends k fun _ k' => TableOk (minus held p) k' ∧
      ∀ q i, k'.mem q = some i → ∃ c, k.mem q = some { i with open_cnt := c } := by
  obtain ⟨i, hi⟩ := (h.handles p).mp hp
  have hcount : i.open_cnt = held p := h.counted hi
  by_cases hc : i.open_cnt = 1
  · refine (inode_close_last_ends hB hi hc).mono ?_
    rintro - - ⟨k₁, rfl, hm, hnext, ho⟩
    refine ⟨h.close_last hm hnext ho (by omega), fun q j hq => ⟨j.open_cnt, ?_⟩⟩
    rw [Kernel.free_mem] at hq
    split at hq
    · cases hq
    · rw [← hm q ‹_›]
      exact hq
  · intro es u k' hr
    rw [inode_close_more hi hc] at hr
    cases hr
    refine ⟨h.close_more hi hc, fun q j hq => ?_⟩
    rw [Kernel.setInode_mem] at hq
    split at hq
    · rename_i e
      cases hq
      exact ⟨i.open_cnt, e ▸ hi⟩
    · exact ⟨j.open_cnt, hq⟩

theorem inode_lock_acquire_ends : (inode_lock_acquire p : Machine Event (Kernel ι δ) Unit).Ends k
    fun _ k' => ∃ i, k.mem p = some i ∧ i.inode_lock = false ∧
      k' = k.setInode p { i with inode_lock := true } := by
  refine deref_bind_ends fun i hp => .ite (fun _ => ?_) fun hl =>
    Machine.Ends.modify ⟨i, hp, by simpa using hl, rfl⟩
  exact .bind (Q := fun _ _ => True) (.emit trivial) fun _ _ _ => .panic

theorem inode_lock_release_ends : (inode_lock_release p : Machine Event (Kernel ι δ) Unit).Ends k
    fun _ k' => ∃ i, k.mem p = some i ∧ k' = k.setInode p { i with inode_lock := false } := by
  exact deref_bind_ends fun i hp =>
    Machine.Ends.ite (fun _ => .modify ⟨i, hp, rfl⟩) fun _ => .panic

end Table

/-! ### The walk -/

section Walk

variable {k k₀ : Fs} {held held₀ : Addr → Nat} {p : Addr} {name : List UInt8}

theorem inode_stat_ends : (disk_api (.inode_stat p)).Ends k fun r k' => k' = k ∧
    ∃ i, k.mem p = some i ∧ r.is_dir = i.data.is_dir :=
  deref_bind_ends fun i hp => .pure ⟨rfl, i, hp, rfl⟩

theorem inode_is_dir_ends : ((inode_is_dir p).run disk_api).Ends k fun b k' => k' = k ∧
    ∃ i, k.mem p = some i ∧ b = i.data.is_dir :=
  ends_bind (ends_op inode_stat_ends) fun _ _ h => ends_pure h

theorem below_stat {α : Type} (f : Stat → α) :
    Below ((do let stat ← call (.inode_stat p); pure (f stat) : FsProg α).run disk_api) := fun _ =>
  ends_bind (ends_op inode_stat_ends) fun _ _ h => ends_pure (h.1 ▸ SameTable.refl _)

/-- A lookup reads only. -/
theorem below_lookup_loop (turns : Nat) : ∀ ofs,
    Below ((lookup_loop p name turns ofs).run disk_api) := by
  induction turns with
  | zero => exact fun _ => .pure _
  | succ turns ih =>
    intro ofs
    unfold lookup_loop
    rw [run_bind, Prog.run_op]
    refine .bind (below_inode_read_at _ _ _) fun e => ?_
    split
    · split
      · exact .pure _
      · exact ih _
    · exact .pure _

theorem below_lookup (dir : Dir) : Below ((lookup dir name).run disk_api) := by
  rw [lookup, run_bind]
  exact .bind (below_stat _) fun length => below_lookup_loop _ _

/-- `dir_lookup` takes a handle on the inode it returns. -/
theorem dir_lookup_ends (dir : Dir) (h : TableOk held k) :
    ((dir_lookup (some dir) name).run disk_api).Ends k fun r k' => Over k held k' (taken held r) := by
  refine ends_bind (ends_op inode_lock_acquire_ends) ?_
  rintro - k₁ ⟨i, hi, hl, rfl⟩
  have hcount : i.open_cnt = held dir.inode := h.counted hi
  have h₁ : TableOk held (k.setInode dir.inode { i with inode_lock := true }) :=
    h.setInode hi rfl hcount ((h.handles _).mpr ⟨i, hi⟩) fun _ _ => rfl
  refine ends_bind (below_lookup dir _) fun r k₂ hk => ?_
  have hover := (Over.refl h₁).same hk
  cases r with
  | none =>
    refine ends_bind (ends_op inode_lock_release_ends) ?_
    rintro - k₃ ⟨j, hj, rfl⟩
    exact ends_pure (hover.locked hi hl hj)
  | some r =>
    refine ends_bind (ends_op (inode_open_ends disk_backend_quiet hover.table)) ?_
    intro q k₃ hq
    refine ends_bind (ends_op inode_lock_release_ends) ?_
    rintro - k₄ ⟨j, hj, rfl⟩
    exact ends_pure ((hover.trans hq).locked hi hl hj)

theorem component_inode_ends (dir : Dir) (h : TableOk held k) :
    ((component_inode (some dir) name).run disk_api).Ends k fun r k' =>
      Over k held k' (taken held r) := by
  unfold component_inode
  split
  · refine ends_bind (below_stat _ _) fun parent k₁ hk => ?_
    refine ends_bind (ends_op (inode_open_ends disk_backend_quiet (h.same hk))) ?_
    exact fun q k₂ hq => ends_pure (hq.base_congr hk.mem.symm)
  · exact dir_lookup_ends dir h

/-- The loop of `dir_from_path` has one handle since `k₀`, on the directory it is in. -/
theorem dir_from_path_loop_ends (h₀ : TableOk held₀ k₀) (turns : Nat) : ∀ {k : Fs} (dir : Dir)
    (prev ptr : List UInt8), Over k₀ held₀ k (plus held₀ dir.inode) →
    ((dir_from_path_loop turns (some dir) prev ptr).run disk_api).Ends k fun r k' =>
      ∃ held', Over k₀ held₀ k' held' ∧ ∀ d ∈ r, held' = plus held₀ d.inode := by
  induction turns with
  | zero =>
    intro k dir prev ptr h
    exact ends_pure ⟨_, h, fun d hd => by cases hd; rfl⟩
  | succ turns ih =>
    intro k dir prev ptr h
    unfold dir_from_path_loop
    split
    · exact ends_pure ⟨_, h, fun d hd => by cases hd; rfl⟩
    · split
      · exact ih _ _ _ h
      · refine ends_bind (component_inode_ends dir h.table) fun r k₁ hk₁ => ?_
        have h₁ := h.trans hk₁
        cases r with
        | none => exact ends_pure ⟨_, h₁, nofun⟩
        | some q =>
          refine ends_bind inode_is_dir_ends ?_
          rintro b _ ⟨rfl, -⟩
          split
          · -- the handle on the directory goes, the one on the next stays
            refine ends_bind (ends_op (h₁.close_ends disk_backend_quiet h₀
              (lt_of_lt_of_le (by rw [plus_self]; exact Nat.lt_succ_self _)
                (Nat.le_add_right _ _)))) fun _ k₂ hk₂ => ?_
            refine ih _ _ _ ?_
            rwa [taken, minus_plus_comm] at hk₂
          · refine ends_bind (ends_op (h₁.close_ends disk_backend_quiet h₀
              (lt_of_le_of_lt (Nat.le_add_right _ _) (by
                rw [taken, plus_self]; exact Nat.lt_succ_self _)))) fun _ k₂ hk₂ => ?_
            refine ih _ _ _ ?_
            rwa [taken, minus_plus] at hk₂

theorem dir_from_path_ends (current_dir : Option Dir) (path : List UInt8) (h : TableOk held k) :
    ((dir_from_path current_dir path).run disk_api).Ends k fun r k' =>
      ∃ held', Over k held k' held' ∧ ∀ d ∈ r, held' = plus held d.inode := by
  have hroot : (dir_open_root.run disk_api).Ends k fun r k' =>
      ∃ d, r = some d ∧ Over k held k' (plus held d.inode) :=
    ends_bind (ends_op (inode_open_ends disk_backend_quiet h))
      fun p k' hk => ends_pure ⟨⟨p, 0⟩, rfl, hk⟩
  have hstart : ((start_dir current_dir (c_string path)).run disk_api).Ends k fun r k' =>
      ∃ d, r = some d ∧ Over k held k' (plus held d.inode) := by
    unfold start_dir
    split
    · exact hroot
    · split
      · exact hroot
      · refine ends_bind (ends_op (inode_reopen_ends h)) ?_
        rintro q k' ⟨rfl, hk⟩
        exact ends_pure ⟨⟨_, 0⟩, rfl, hk⟩
  refine ends_bind hstart ?_
  rintro _ k₁ ⟨d, rfl, hk⟩
  split
  · exact ends_pure ⟨_, hk, fun d hd => by cases hd; rfl⟩
  · exact dir_from_path_loop_ends h _ _ _ _ hk

/-- `filesys_open` takes a handle on the inode it returns, and a file it returns is on no
directory. -/
theorem filesys_open_ends (current_dir : Option Dir) (path : List UInt8) (h : TableOk held k) :
    ((filesys_open current_dir path).run disk_api).Ends k fun r k' =>
      ∃ held', Over k held k' held' ∧ ∀ o ∈ r, held' = plus held o.inode ∧
        ∀ f, o = .file f → f.deny_write = false ∧
          ∃ i, k'.mem f.inode = some i ∧ i.data.is_dir = false := by
  refine ends_bind (dir_from_path_ends current_dir path h) ?_
  rintro r k₁ ⟨held₁, h₁, hr⟩
  cases r with
  | none => exact ends_pure ⟨_, h₁, nofun⟩
  | some dir =>
    obtain rfl := hr dir rfl
    refine ends_bind (below_stat _ _) fun is_root k₂ hk => ?_
    have h₂ := h₁.same hk
    have hdir : ((pure (some (.dir dir)) : FsProg (Option OpenFile)).run disk_api).Ends k₂
        fun r k' => ∃ held', Over k held k' held' ∧ ∀ o ∈ r, held' = plus held o.inode ∧
          ∀ f, o = .file f → f.deny_write = false ∧
            ∃ i, k'.mem f.inode = some i ∧ i.data.is_dir = false := by
      refine ends_pure ⟨_, h₂, fun o ho => ?_⟩
      cases ho
      exact ⟨rfl, nofun⟩
    split
    · exact hdir
    · split
      · exact hdir
      · refine ends_bind (component_inode_ends dir h₂.table) fun r k₃ hk₃ => ?_
        have h₃ := h₂.trans hk₃
        have hlt : held dir.inode < taken (plus held dir.inode) r dir.inode := by
          refine lt_of_lt_of_le ?_ (hk₃.le _)
          rw [plus_self]
          exact Nat.lt_succ_self _
        refine ends_bind (ends_op (h₃.close_ends disk_backend_quiet h hlt)) fun _ k₄ hk₄ => ?_
        cases r with
        | none => exact ends_pure ⟨_, hk₄, nofun⟩
        | some q =>
          rw [taken, minus_plus_comm] at hk₄
          refine ends_bind inode_is_dir_ends ?_
          rintro b _ ⟨rfl, i, hi, rfl⟩
          split
          · exact ends_pure ⟨_, hk₄, fun o ho => by cases ho; exact ⟨rfl, nofun⟩⟩
          · rename_i hdir'
            refine ends_pure ⟨_, hk₄, fun o ho => ?_⟩
            cases ho
            exact ⟨rfl, fun f hf => by cases hf; exact ⟨rfl, i, hi, by simpa using hdir'⟩⟩

end Walk

end Pintos
