import Pintos.Filesys.GrowthRuns

/-!
# Filesys — growth on a full disk

`free_map_allocate` reports a full disk, but no caller in `inode_grow` looks: the sector number
stays what it was, is written to all the same, and `inode_grow` returns true with the length
updated (`inode_grow_done`).  So a failed allocation is never atomic
(`failed_growth_not_atomic`); on a full disk the zero fill of a new file goes to sector 0, the
inode of the free map (`full_disk_overwrites_free_map`).
-/

namespace Pintos
open Support
open Machine (zoom bind_done)

/-- Some allocation failed. -/
def FailsAllocation (es : List Event) : Prop := ∃ c, Event.allocate none c ∈ es

/-- A run of `inode_grow` that fails and leaves no trace: the inode and the free map are as before,
and only sectors it was given were written. -/
def AtomicFailure (d : InodeDisk) (k : Fs) (run : List Event × Outcome Fs (Bool × InodeDisk)) :
    Prop :=
  (∃ d' k', run.2 = .done (false, d') k' ∧ d' = d ∧ k'.dev.free_map.bits = k.dev.free_map.bits) ∧
    ∀ s, Event.write .inode s ∈ run.1 → ∃ c, Event.allocate (some s) c ∈ run.1

section Failure

variable {k k' : Fs} {d : InodeDisk} {es : List Event} {r : InodeDisk × Nat} {g i length : Nat}

/-- The parts of `inode_grow` leave the length and the kind alone. -/
theorem grow_direct_fields (h : grow_direct d g k = (es, .done r k')) :
    r.1.length = d.length ∧ r.1.is_dir = d.is_dir := by
  obtain ⟨_, a, _, _, -, hp, -⟩ := bind_done h
  cases hp
  exact ⟨rfl, rfl⟩

theorem allocate_into_done {τ : Type} {set : τ → Nat → Sector → τ} {arr arr' : τ}
    (h : allocate_into set arr i k = (es, .done arr' k')) :
    arr' = arr ∨ ∃ t, arr' = set arr i t := by
  obtain ⟨_, r, _, _, -, hp, -⟩ := bind_done h
  cases r with
  | none => cases hp; exact .inl rfl
  | some t => cases hp; exact .inr ⟨t, rfl⟩

theorem index_block_fields {fresh : Bool} {r : InodeDisk × Block}
    (h : index_block i d fresh k = (es, .done r k')) :
    r.1.length = d.length ∧ r.1.is_dir = d.is_dir := by
  obtain ⟨_, b, _, _, -, h, -⟩ := bind_done h
  cases fresh with
  | true =>
    obtain ⟨_, d', _, _, ha, hp, -⟩ := bind_done h
    cases hp
    rcases allocate_into_done ha with rfl | ⟨t, rfl⟩ <;> exact ⟨rfl, rfl⟩
  | false =>
    obtain ⟨_, b', _, _, -, hp, -⟩ := bind_done h
    cases hp
    exact ⟨rfl, rfl⟩

theorem grow_indirect_fields (h : grow_indirect d g k = (es, .done r k')) :
    r.1.length = d.length ∧ r.1.is_dir = d.is_dir := by
  unfold grow_indirect at h
  split at h
  · cases h
    exact ⟨rfl, rfl⟩
  · obtain ⟨_, r₁, _, _, h₁, h, -⟩ := bind_done h
    obtain ⟨_, s, _, _, -, h, -⟩ := bind_done h
    obtain ⟨_, _, _, _, -, hp, -⟩ := bind_done h
    cases hp
    exact index_block_fields h₁

theorem grow_double_fields (h : grow_double d g k = (es, .done r k')) :
    r.1.length = d.length ∧ r.1.is_dir = d.is_dir := by
  unfold grow_double at h
  split at h
  · cases h
    exact ⟨rfl, rfl⟩
  · obtain ⟨_, r₁, _, _, h₁, h, -⟩ := bind_done h
    obtain ⟨_, b, _, _, -, h, -⟩ := bind_done h
    obtain ⟨_, s, _, _, -, h, -⟩ := bind_done h
    obtain ⟨_, _, _, _, -, hp, -⟩ := bind_done h
    cases hp
    exact index_block_fields h₁

/-- Whatever the free map says, `inode_grow` returns true and has set the length. -/
theorem inode_grow_done {r : Bool × InodeDisk} (h : inode_grow d length k = (es, .done r k')) :
    r.1 = true ∧ r.2.length = length ∧ r.2.is_dir = d.is_dir := by
  obtain ⟨_, _, _, _, -, h, -⟩ := bind_done h
  simp only at h
  split at h
  · cases h
    exact ⟨rfl, rfl, rfl⟩
  · obtain ⟨_, r₁, _, _, h₁, h, -⟩ := bind_done h
    obtain ⟨_, r₂, _, _, h₂, h, -⟩ := bind_done h
    obtain ⟨_, r₃, _, _, h₃, hp, -⟩ := bind_done h
    cases hp
    obtain ⟨hl₁, hd₁⟩ := grow_direct_fields h₁
    obtain ⟨hl₂, hd₂⟩ := grow_indirect_fields h₂
    obtain ⟨hl₃, hd₃⟩ := grow_double_fields h₃
    exact ⟨rfl, hl₃.trans (hl₂.trans hl₁), hd₃.trans (hd₂.trans hd₁)⟩

/-- The write loop stops at the end of the file only. -/
theorem inode_write_loop_done (fuel : Nat) : ∀ {buffer : List UInt8} {offset : Nat}
    {dev dev' : Device} {es : List Event} {m : Nat}, buffer.length ≤ fuel →
    inode_write_loop d fuel buffer offset dev = (es, .done m dev') →
    m = min buffer.length (d.length - offset) := by
  induction fuel with
  | zero =>
    intro buffer offset dev dev' es m hf h
    cases h
    omega
  | succ fuel ih =>
    intro buffer offset dev dev' es m hf h
    unfold inode_write_loop at h
    split at h
    · cases h
      omega
    · obtain ⟨_, s, _, _, -, h, -⟩ := bind_done h
      have hc : chunk_size d buffer.length offset =
          min buffer.length (min (d.length - offset) (512 - offset % 512)) := rfl
      simp only at h
      split at h
      · cases h
        omega
      · obtain ⟨_, _, _, _, -, h, -⟩ := bind_done h
        obtain ⟨_, rest, _, _, hr, hp, -⟩ := bind_done h
        have hrest := ih (by rw [List.length_drop]; omega) hr
        rw [List.length_drop] at hrest
        cases hp
        omega

/-- `inode_create` does not report a failure. -/
theorem inode_create_done {sector : Sector} {is_dir b : Bool}
    (h : inode_create sector length is_dir k = (es, .done b k')) : b = true := by
  obtain ⟨_, r, _, _, hg, h, -⟩ := bind_done h
  rw [(inode_grow_done hg).1, if_pos rfl] at h
  obtain ⟨_, _, _, _, -, hp, -⟩ := bind_done h
  cases hp
  rfl

/-- A write that needs the file extended does not report fewer bytes than asked for. -/
theorem inode_write_at_done {p : Addr} {buffer : List UInt8} {offset m : Nat}
    {inode : Inode InodeDisk} (hp : k.mem p = some inode) (hdeny : inode.deny_write_cnt = 0)
    (hext : (inode.data.length : Int) < wrap32 (offset + buffer.length))
    (hofs : offset < 2 ^ 31) (hsize : buffer.length < 2 ^ 31)
    (h : inode_write_at p buffer offset k = (es, .done m k')) : m = buffer.length := by
  have hw : wrap32 ((offset : Int) + buffer.length) = ((offset + buffer.length : Nat) : Int) := by
    simp only [wrap32, Int.bmod_def] at hext ⊢
    omega
  obtain ⟨_, i, k₁, _, hi, h, -⟩ := bind_done h
  rw [deref_run hp] at hi
  cases hi
  rw [if_neg (by simpa using hdeny)] at h
  obtain ⟨_, data, _, _, hx, h, -⟩ := bind_done h
  obtain ⟨_, _, _, _, -, hl, -⟩ := bind_done h
  obtain ⟨dev, hl, -⟩ := onDevice_done hl
  have hm := inode_write_loop_done _ le_rfl hl
  rw [inode_extend, if_pos hext] at hx
  split at hx
  · cases hx
  obtain ⟨_, r, _, _, hg, hr, -⟩ := bind_done hx
  cases hr
  have hlen := (inode_grow_done hg).2.1
  rw [hw, Int.toNat_natCast] at hlen
  omega

end Failure

/-- A failed allocation is never handled: `inode_grow` does not fail atomically, `inode_create`
does not report it, and neither does a write that extends its file. -/
theorem failed_growth_not_atomic (d : InodeDisk) (length : Nat) (k : Fs) :
    (FailsAllocation (inode_grow d length k).1 → ¬ AtomicFailure d k (inode_grow d length k)) ∧
    (∀ sector is_dir k', (inode_create sector length is_dir k).2 ≠ .done false k') ∧
    ∀ (p : Addr) (buffer : List UInt8) (offset : Nat) (inode : Inode InodeDisk) (m : Nat)
      (k' : Fs), k.mem p = some inode → inode.deny_write_cnt = 0 →
      (inode.data.length : Int) < wrap32 (offset + buffer.length) →
      offset < 2 ^ 31 → buffer.length < 2 ^ 31 →
      (inode_write_at p buffer offset k).2 = .done m k' → ¬ m < buffer.length := by
  refine ⟨fun _ h => ?_, fun sector is_dir k' h => ?_,
    fun p buffer offset inode m k' hp hd hx ho hs h => ?_⟩
  · obtain ⟨⟨d', k', hr, -, -⟩, -⟩ := h
    exact absurd (inode_grow_done (eq_of_outcome hr)).1 (by simp)
  · exact absurd (inode_create_done (eq_of_outcome h)) (by simp)
  · rw [inode_write_at_done hp hd hx ho hs (eq_of_outcome h)]
    omega

/-- On a full disk a new file of one sector overwrites the inode of the free map, and the growth
counts as a success. -/
theorem full_disk_overwrites_free_map :
    FailsAllocation (inode_grow (.fresh false) 512 (idleFs 8 8)).1 ∧
    Event.write .inode FREE_MAP_SECTOR ∈ (inode_grow (.fresh false) 512 (idleFs 8 8)).1 ∧
    ¬ AtomicFailure (.fresh false) (idleFs 8 8) (inode_grow (.fresh false) 512 (idleFs 8 8)) := by
  refine ⟨⟨false, by decide +kernel⟩, by decide +kernel, fun h => ?_⟩
  obtain ⟨⟨d', k', hr, -, -⟩, -⟩ := h
  exact absurd (inode_grow_done (eq_of_outcome hr)).1 (by simp)

end Pintos
