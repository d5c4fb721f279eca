import Pintos.Filesys.DirectoryMap

/-!
# Filesys — listing a directory while it changes

`dir_readdir` goes over the slots of a directory from its position on, and returns the name in the
next one that is in use.  Each call holds the lock of the directory, so that others come between
calls only: `dir_add` and `dir_remove`, through any handle, and whatever leaves the directory alone.

A name keeps its slot for as long as it is there, and the position only goes up.  So a listing from
the start returns no name twice that is there all the time, it ends when it is left alone, and when it
ends it has returned each such name, whatever else comes and goes (`readdir_exact`).
-/

namespace Pintos
open Support List Option

section Readdir

variable {p : Addr} {v : DirView} {b : List UInt8}

theorem onDir_dir_readdir_loop (turns : Nat) : ∀ j, entryCount v.bytes < turns + j →
    OnDir p v (dir_readdir_loop p turns (20 * j)) fun r v' => v' = v ∧
      ∃ n j', r = (n.map (take NAME_MAX), 20 * j') ∧ (slotsOf v.bytes).Next j n j' := by
  induction turns with
  | zero =>
    intro j hj
    exact ⟨rfl, none, j, rfl, .finished fun k hk => (slotsOf v.bytes).beyond k
      (show entryCount v.bytes ≤ k by omega)⟩
  | succ turns ih =>
    intro j hj
    refine .op_bind (.inl rfl) ?_
    rintro r v ⟨rfl, hr⟩
    obtain rfl : r = entryAt v.bytes j := hr rfl
    by_cases hlt : j < entryCount v.bytes
    · rw [if_pos (length_entryAt_eq.mpr hlt)]
      split
      · rename_i huse
        exact ⟨rfl, some _, j + 1, rfl, .found le_rfl (slotsOf_used ⟨hlt, huse⟩)
          fun k hk hlt => by omega⟩
      · rename_i huse
        refine (ih (j + 1) (by omega)).mono ?_
        rintro r _ ⟨rfl, n, j', rfl, hnext⟩
        exact ⟨rfl, n, j', rfl, hnext.skip (slotsOf_eq_none.mpr fun h => huse h.2)⟩
    · rw [if_neg (fun h => hlt (length_entryAt_eq.mp h))]
      exact ⟨rfl, none, j, rfl, .finished fun k hk => (slotsOf v.bytes).beyond k
        (show entryCount v.bytes ≤ k by omega)⟩

theorem onDir_dir_readdir (j : Nat) : OnDir p ⟨false, none, b⟩ (dir_readdir ⟨p, 20 * j⟩)
    fun r v' => v' = ⟨false, none, b⟩ ∧
      ∃ n j', r = (n.map (take NAME_MAX), 20 * j') ∧ (slotsOf b).Next j n j' := by
  refine .op_bind ⟨rfl, rfl⟩ ?_
  rintro - _ rfl
  refine .bind readsFrom_onDir.inode_length ?_
  rintro _ _ ⟨rfl, rfl⟩
  refine .bind (onDir_dir_readdir_loop _ j (Nat.lt_add_right j (Nat.lt_succ_self _))) ?_
  rintro r _ ⟨rfl, hr⟩
  refine .op_bind ⟨rfl, rfl⟩ ?_
  rintro - _ rfl
  exact ⟨rfl, hr⟩

end Readdir

/-! ### Listings -/

section Scan

variable {K : Type} {I : FsApi K} {p : Addr} {R : DirView → K → Prop}
  {start : List UInt8} {changes : List (Change (List UInt8) Sector)} {k : K}
  {visited : List (List (Change (List UInt8) Sector))} {returned : List (List UInt8)} {pos : Nat}

/-- Calls of `dir_readdir` on one `struct dir` from position 0 on, with steps of others between
them: the maps that there were, the names returned, and the position. -/
inductive ScanRun (I : FsApi K) (p : Addr) (R : DirView → K → Prop)
    (start : List UInt8) : List (List (Change (List UInt8) Sector)) → List (List UInt8) → Nat →
    List (Change (List UInt8) Sector) → K → Prop where
  | start {changes : List (Change (List UInt8) Sector)} {k : K}
      (run : DirRun I p R start changes k) : ScanRun I p R start [changes] [] 0 changes k
  | readdir {visited : List (List (Change (List UInt8) Sector))} {returned : List (List UInt8)}
      {pos pos' : Nat} {changes : List (Change (List UInt8) Sector)} {k k' : K} {es : List Event}
      {name : List UInt8} (scan : ScanRun I p R start visited returned pos changes k)
      (h : (dir_readdir ⟨p, pos⟩).run I k = (es, .done (some name, pos') k')) :
      ScanRun I p R start visited (name :: returned) pos' changes k'
  | step {visited : List (List (Change (List UInt8) Sector))} {returned : List (List UInt8)}
      {pos : Nat} {changes changes' : List (Change (List UInt8) Sector)} {k k' : K}
      (scan : ScanRun I p R start visited returned pos changes k)
      (h : DirStep I p R changes k changes' k') :
      ScanRun I p R start (changes' :: visited) returned pos changes' k'

/-- A valid name is returned as it is. -/
theorem DirHolds.take_name {b : List UInt8} {j j' : Nat} {n : List UInt8}
    (h : DirHolds b changes) (hnext : (slotsOf b).Next j (some n) j') : n.take NAME_MAX = n := by
  cases hnext with
  | found hle hj hfree =>
    refine take_of_length_le (h.names n ?_)
    rw [(h.holds.map n _).mp ⟨_, hj⟩]
    exact some_ne_none _

/-- A listing is a scan of the slots. -/
theorem ScanRun.scan (himp : Implements I p R) (hempty : ∀ j, ¬ UsedEntry start j)
    (run : ScanRun I p R start visited returned pos changes k) :
    ∃ b j, R ⟨false, none, b⟩ k ∧ DirHolds b changes ∧ pos = 20 * j ∧
      Slots.Scan visited returned j (slotsOf b) changes := by
  induction run with
  | start run =>
    obtain ⟨b, hk, hb, -⟩ := run.holds himp hempty
    exact ⟨b, 0, hk, hb, rfl, .start hb.holds⟩
  | readdir _ h ih =>
    obtain ⟨b, j, hk, hb, rfl, scan⟩ := ih
    obtain ⟨_, ⟨rfl, n, j', hr, hnext⟩, hk'⟩ :=
      (himp.returns (onDir_dir_readdir j) hk).of_done h
    cases n with
    | none => cases hr
    | some n =>
      rw [map_some, hb.take_name hnext] at hr
      cases hr
      exact ⟨b, j', hk', hb, rfl, .next scan hnext⟩
  | step _ h ih =>
    obtain ⟨b, j, hk, hb, rfl, scan⟩ := ih
    obtain ⟨b', hk', hb', hstep, -⟩ := h.slots himp hk hb
    exact ⟨b', j, hk', hb', rfl, .step scan hstep⟩

/-- The loop of `fsutil_ls` from the position `pos` on, for at most `turns` turns: the names that it
prints. -/
def fsutil_ls_loop (p : Addr) : Nat → Nat → FsProg (Option (List (List UInt8)))
  | 0, _ => pure none
  | turns + 1, pos => do
    let r ← dir_readdir ⟨p, pos⟩
    match r.1 with
    | none => pure (some [])
    | some name =>
      let names ← fsutil_ls_loop p turns r.2
      pure (names.map (name :: ·))

/-- A listing that is left alone comes to its end. -/
theorem fsutil_ls_loop_returns {b : List UInt8} (himp : Implements I p R)
    (hb : DirHolds b changes) (turns : Nat) : ∀ {j : Nat} {k : K} {returned : List (List UInt8)},
    R ⟨false, none, b⟩ k → Slots.Scan visited returned j (slotsOf b) changes →
    entryCount b - j < turns →
    ((fsutil_ls_loop p turns (20 * j)).run I).Returns k fun r _ => ∃ names, r = some names ∧
      ∀ name, Change.Stays visited name → (names ++ returned).count name = 1 := by
  induction turns with
  | zero =>
    intro j k returned _ _ hlt
    omega
  | succ turns ih =>
    intro j k returned hk scan hlt
    rw [fsutil_ls_loop, Prog.run_bind]
    refine (himp.returns (onDir_dir_readdir j) hk).bind ?_
    rintro _ k' ⟨_, ⟨rfl, n, j', rfl, hnext⟩, hk'⟩
    cases n with
    | none =>
      refine .pure ⟨[], rfl, fun name hn => ?_⟩
      rw [nil_append]
      convert scan.exact hnext name hn
    | some n =>
      have hle : j < j' ∧ j' ≤ entryCount b := by
        cases hnext with
        | found hle hj _ => exact ⟨by omega, (slotsOf b).lt_count hj⟩
      rw [map_some, hb.take_name hnext]
      dsimp only
      rw [Prog.run_bind]
      refine (ih hk' (scan.next hnext) (by omega)).bind ?_
      rintro _ k'' ⟨names, rfl, hexact⟩
      exact .pure ⟨n :: names, rfl, fun name hn => (perm_middle.count_eq name).symm.trans
        (hexact name hn)⟩

/-- **A listing neither skips nor repeats** a name that is there all the time, and returns no name
that is never there, however the calls of others come between. -/
theorem readdir_exact (himp : Implements I p R) (hempty : ∀ j, ¬ UsedEntry start j)
    (run : ScanRun I p R start visited returned pos changes k) :
    (∀ name, Change.Stays visited name → returned.count name ≤ 1) ∧
    (∀ name ∈ returned, ∃ changes ∈ visited, Change.map changes name ≠ none) ∧
    (((dir_readdir ⟨p, pos⟩).run I).Returns k fun r _ =>
      (∀ name, r.1 = some name → pos < r.2 ∧ Change.map changes name ≠ none) ∧
      (r.1 = none → ∀ name, Change.Stays visited name → returned.count name = 1)) ∧
    ∃ turns, ((fsutil_ls_loop p turns pos).run I).Returns k fun r _ => ∃ names, r = some names ∧
      ∀ name, Change.Stays visited name → (names ++ returned).count name = 1 := by
  obtain ⟨b, j, hk, hb, rfl, scan⟩ := run.scan himp hempty
  refine ⟨fun name hn => ?_, fun name => scan.passed_visited, ?_, entryCount b - j + 1,
    fsutil_ls_loop_returns himp hb _ hk scan (Nat.lt_succ_self _)⟩
  · convert scan.count_le hn
  refine (himp.returns (onDir_dir_readdir j) hk).mono ?_
  rintro _ k' ⟨_, ⟨rfl, n, j', rfl, hnext⟩, -⟩
  refine ⟨fun name hname => ?_, fun hend name hn => ?_⟩
  · obtain ⟨n, rfl, hn⟩ := Option.map_eq_some_iff.mp hname
    rw [hb.take_name hnext] at hn
    subst hn
    cases hnext with
    | found hle hj _ =>
      rw [(hb.holds.map _ _).mp ⟨_, hj⟩]
      exact ⟨by show 20 * j < 20 * _; omega, some_ne_none _⟩
  · obtain rfl : n = none := Option.map_eq_none_iff.mp hend
    convert scan.exact hnext name hn

end Scan

/-- The names `a` and `b` are there, and `b` goes when `a` has been listed: the next call finds no
more. -/
theorem readdir_exact_removed : ∃ pos k, ScanRun array_api 1 Eq []
      [[.removed [98], .added [98] 8, .added [97] 7], [.added [98] 8, .added [97] 7]]
      [[97]] pos [.removed [98], .added [98] 8, .added [97] 7] k ∧
    ((dir_readdir ⟨1, pos⟩).run array_api).Returns k fun r _ =>
      r.1 = none ∧ [[97]].count ([97] : List UInt8) = 1 := by
  have hcalls : ((returned ((dir_add (some ⟨1, 0⟩) [97] 7 (replicate 20 0)).run array_api
      ⟨false, none, []⟩)).bind fun r₁ =>
    (returned ((dir_add (some ⟨1, 0⟩) [98] 8 (replicate 20 0)).run array_api r₁.2.2)).bind fun r₂ =>
    (returned ((dir_readdir ⟨1, 0⟩).run array_api r₂.2.2)).bind fun r₃ =>
    (returned ((dir_remove (some ⟨1, 0⟩) [98]).run array_api r₃.2.2)).bind fun r₄ =>
    (returned ((dir_readdir ⟨1, 20⟩).run array_api r₄.2.2)).map fun r₅ =>
      ((r₁.2.1, r₂.2.1, r₄.2.1), r₃.2.1, r₅.2.1)) =
      some ((true, true, true), (some [97], 20), none, 40) := by decide +kernel
  obtain ⟨⟨es₁, ok₁, k₁⟩, h₁, hcalls⟩ := Option.bind_eq_some_iff.mp hcalls
  obtain ⟨⟨es₂, ok₂, k₂⟩, h₂, hcalls⟩ := Option.bind_eq_some_iff.mp hcalls
  obtain ⟨⟨es₃, r₃, k₃⟩, h₃, hcalls⟩ := Option.bind_eq_some_iff.mp hcalls
  obtain ⟨⟨es₄, ok₄, k₄⟩, h₄, hcalls⟩ := Option.bind_eq_some_iff.mp hcalls
  obtain ⟨⟨es₅, r₅, k₅⟩, h₅, hcalls⟩ := Option.map_eq_some_iff.mp hcalls
  simp only [Prod.mk.injEq] at hcalls
  obtain ⟨⟨rfl, rfl, rfl⟩, rfl, rfl⟩ := hcalls
  have run : DirRun array_api 1 Eq [] [.added [98] 8, .added [97] 7] k₂ :=
    .step (.step (.start rfl) (.adds (by decide) (by decide) rfl (returned_eq_some h₁)))
      (.adds (by decide) (by decide) rfl (returned_eq_some h₂))
  have scan := ScanRun.step (.readdir (.start run) (returned_eq_some h₃))
    (.removes (returned_eq_some h₄))
  have hexact := readdir_exact (implements_array_api 1) (by simp [UsedEntry, entryCount]) scan
  have hend := hexact.2.2.1.of_done (returned_eq_some h₅)
  exact ⟨20, k₄, scan, _, _, _, returned_eq_some h₅, rfl,
    hend.2 rfl [97] (by simp [Change.Stays, Change.map])⟩

end Pintos
