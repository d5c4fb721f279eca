import Pintos.Filesys.Kernel

/-!
# Filesys — the table of open inodes

The functions of `inode.c` on `open_inodes`.  They reach what lies below at three places, the
fields of a `Backend`: an inode is loaded at the first open, and at the last close it is stored,
or discarded if it was removed.

`TableOk held k`: no two inodes in memory are of one sector, the list has every inode in memory
once, and the open count of the inode at `p` is `held p`, the number of handles on it, which is
positive.  Each function keeps the table sound, with one handle more or less.
-/

namespace Pintos
open Support Function List
open Machine (bind_run_silent emit)

/-- What lies below the table. -/
structure Backend (ι δ : Type) where
  /-- `block_read (fs_device, sector, &inode->data)`. -/
  load : Sector → Machine Event (Kernel ι δ) ι
  /-- `block_write (fs_device, sector, &inode->data)`. -/
  store : Sector → ι → Machine Event (Kernel ι δ) Unit
  /-- The release of the inode's sector and of the sectors of its file. -/
  discard : Sector → ι → Machine Event (Kernel ι δ) Unit

namespace Kernel

variable {ι δ : Type}

/-- The first inode of `sector` in the list. -/
def opened (k : Kernel ι δ) (sector : Sector) : Option Addr :=
  k.open_inodes.find? fun p => (k.mem p).any fun inode => inode.sector == sector

/-- `malloc` and `list_push_front` of an inode. -/
def malloc (k : Kernel ι δ) (inode : Inode ι) : Kernel ι δ :=
  { k with
    mem := update k.mem k.next (some inode)
    next := k.next + 1
    open_inodes := k.next :: k.open_inodes }

/-- `list_remove`. -/
def unlink (k : Kernel ι δ) (p : Addr) : Kernel ι δ :=
  { k with open_inodes := k.open_inodes.erase p }

/-- `free`. -/
def free (k : Kernel ι δ) (p : Addr) : Kernel ι δ :=
  { k with mem := update k.mem p none }

end Kernel

section Functions

variable {ι δ : Type} (B : Backend ι δ)

/-- `inode_reopen`, of an inode that is not null. -/
def inode_reopen (p : Addr) : Machine Event (Kernel ι δ) Addr := do
  let inode ← deref p
  Machine.modify fun k => k.setInode p { inode with open_cnt := inode.open_cnt + 1 }
  pure p

/-- `inode_open`, with memory to spare. -/
def inode_open (sector : Sector) : Machine Event (Kernel ι δ) Addr := do
  let k ← Machine.get
  match k.opened sector with
  | some p => inode_reopen p
  | none => do
    let data ← B.load sector
    let k ← Machine.get
    Machine.modify fun k => k.malloc
      { sector := sector, open_cnt := 1, removed := false, deny_write_cnt := 0,
        inode_lock := false, data := data }
    pure k.next

/-- What `inode_close` does with the inode that lost its last handle, before it frees it. -/
def inode_retire (inode : Inode ι) : Machine Event (Kernel ι δ) Unit :=
  if inode.removed then B.discard inode.sector inode.data
  else B.store inode.sector inode.data

/-- `inode_close`. -/
def inode_close : Option Addr → Machine Event (Kernel ι δ) Unit
  | none => pure ()
  | some p => do
    let inode ← deref p
    let inode := { inode with open_cnt := inode.open_cnt - 1 }
    Machine.modify fun k => k.setInode p inode
    if inode.open_cnt = 0 then do
      Machine.modify fun k => k.unlink p
      inode_retire B inode
      Machine.modify fun k => k.free p
    else pure ()

/-- `inode_remove`. -/
def inode_remove (p : Addr) : Machine Event (Kernel ι δ) Unit := do
  let inode ← deref p
  Machine.modify fun k => k.setInode p { inode with removed := true }

/-- `inode_lock_acquire`: `lock_acquire` panics if the running thread holds the lock. -/
def inode_lock_acquire (p : Addr) : Machine Event (Kernel ι δ) Unit := do
  let inode ← deref p
  if inode.inode_lock then do
    emit .relock
    Machine.panic
  else Machine.modify fun k => k.setInode p { inode with inode_lock := true }

/-- `inode_lock_release`: `lock_release` panics if the running thread does not hold the lock. -/
def inode_lock_release (p : Addr) : Machine Event (Kernel ι δ) Unit := do
  let inode ← deref p
  if inode.inode_lock then Machine.modify fun k => k.setInode p { inode with inode_lock := false }
  else Machine.panic

/-- `inode_deny_write`. -/
def inode_deny_write (p : Addr) : Machine Event (Kernel ι δ) Unit := do
  let inode ← deref p
  let inode := { inode with deny_write_cnt := inode.deny_write_cnt + 1 }
  Machine.modify fun k => k.setInode p inode
  if inode.deny_write_cnt ≤ inode.open_cnt then pure () else Machine.panic

/-- `inode_allow_write`. -/
def inode_allow_write (p : Addr) : Machine Event (Kernel ι δ) Unit := do
  let inode ← deref p
  if inode.deny_write_cnt ≤ inode.open_cnt then
    Machine.modify fun k => k.setInode p { inode with deny_write_cnt := inode.deny_write_cnt - 1 }
  else Machine.panic

end Functions

/-! ### The table -/

/-- The table is sound and `held p` handles are out on the inode at `p`. -/
structure TableOk {ι δ : Type} (held : Addr → Nat) (k : Kernel ι δ) : Prop where
  nodup : k.open_inodes.Nodup
  listed : ∀ p, p ∈ k.open_inodes ↔ ∃ i, k.mem p = some i
  fresh : ∀ p, k.next ≤ p → k.mem p = none
  unique : ∀ {p q i j}, k.mem p = some i → k.mem q = some j → i.sector = j.sector → p = q
  counted : ∀ {p i}, k.mem p = some i → i.open_cnt = held p
  handles : ∀ p, 0 < held p ↔ ∃ i, k.mem p = some i

section Table

variable {ι δ : Type} {held held' : Addr → Nat} {k k' : Kernel ι δ} {p q : Addr} {i : Inode ι}
  {s : Sector}

theorem Kernel.setInode_mem (k : Kernel ι δ) (p q : Addr) (i : Inode ι) :
    (k.setInode p i).mem q = if q = p then some i else k.mem q := update_apply ..

@[simp] theorem Kernel.setInode_dev (k : Kernel ι δ) (p : Addr) (i : Inode ι) :
    (k.setInode p i).dev = k.dev := rfl

@[simp] theorem Kernel.malloc_dev (k : Kernel ι δ) (i : Inode ι) : (k.malloc i).dev = k.dev := rfl

theorem Kernel.malloc_mem (k : Kernel ι δ) (q : Addr) (i : Inode ι) :
    (k.malloc i).mem q = if q = k.next then some i else k.mem q := update_apply ..

theorem Kernel.free_mem (k : Kernel ι δ) (p q : Addr) :
    (k.free p).mem q = if q = p then none else k.mem q := update_apply ..

section

variable (h : TableOk held k)
include h

theorem TableOk.opened_eq_some : k.opened s = some p ↔ ∃ i, k.mem p = some i ∧ i.sector = s := by
  have hany : ∀ q, (k.mem q).any (fun inode => inode.sector == s) = true ↔
      ∃ i, k.mem q = some i ∧ i.sector = s := fun q => by simp [Option.any_eq_true]
  constructor
  · intro hf
    exact (hany p).mp (by simpa using find?_some hf)
  · rintro ⟨i, hi, rfl⟩
    have hmem : p ∈ k.open_inodes := (h.listed p).mpr ⟨i, hi⟩
    cases hf : k.opened i.sector with
    | none => exact absurd ((hany p).mpr ⟨i, hi, rfl⟩) (List.find?_eq_none.mp hf p hmem)
    | some q =>
      obtain ⟨j, hj, hs⟩ := (hany q).mp (by simpa using find?_some hf)
      rw [h.unique hj hi hs]

theorem TableOk.opened_eq_none : k.opened s = none ↔ ∀ p i, k.mem p = some i → i.sector ≠ s := by
  constructor
  · intro hn p i hi hs
    rw [h.opened_eq_some.mpr ⟨i, hi, hs⟩] at hn
    cases hn
  · intro hn
    cases hf : k.opened s with
    | none => rfl
    | some p =>
      obtain ⟨i, hi, hs⟩ := h.opened_eq_some.mp hf
      exact absurd hs (hn p i hi)

theorem TableOk.ne_next (hp : k.mem p = some i) : p ≠ k.next := by
  rintro rfl
  rw [h.fresh _ le_rfl] at hp
  cases hp

/-- The table does not look below. -/
theorem TableOk.congr (hm : k'.mem = k.mem) (hn : k'.next = k.next)
    (ho : k'.open_inodes = k.open_inodes) : TableOk held k' := by
  refine ⟨by rw [ho]; exact h.nodup, ?_, ?_, ?_, ?_, ?_⟩
  · rw [hm, ho]; exact h.listed
  · rw [hm, hn]; exact h.fresh
  · rw [hm]; exact h.unique
  · rw [hm]; exact h.counted
  · rw [hm]; exact h.handles

/-- Another inode of the same sector in the place of an inode. -/
theorem TableOk.setInode (hp : k.mem p = some i) {j : Inode ι} (hs : j.sector = i.sector)
    (hc : j.open_cnt = held' p) (hpos : 0 < held' p) (hheld : ∀ q, q ≠ p → held' q = held q) :
    TableOk held' (k.setInode p j) := by
  have hsome : ∀ q, (∃ i', (k.setInode p j).mem q = some i') ↔ ∃ i', k.mem q = some i' := by
    intro q
    rw [Kernel.setInode_mem]
    split
    · rename_i e
      subst e
      exact ⟨fun _ => ⟨i, hp⟩, fun _ => ⟨j, rfl⟩⟩
    · rfl
  -- the sectors are the ones before
  have hsec : ∀ {q i'}, (k.setInode p j).mem q = some i' →
      ∃ i'', k.mem q = some i'' ∧ i''.sector = i'.sector := by
    intro q i' hq
    rw [Kernel.setInode_mem] at hq
    split at hq
    · rename_i e
      cases hq
      exact ⟨i, e ▸ hp, hs.symm⟩
    · exact ⟨i', hq, rfl⟩
  refine ⟨h.nodup, fun q => (h.listed q).trans (hsome q).symm, fun q hq => ?_, ?_, ?_, fun q => ?_⟩
  · rw [Kernel.setInode_mem, if_neg (fun e => ?_)]
    · exact h.fresh q hq
    · have := h.fresh q hq
      rw [e, hp] at this
      cases this
  · intro q q' i₁ i₂ h₁ h₂ he
    obtain ⟨_, h₁', e₁⟩ := hsec h₁
    obtain ⟨_, h₂', e₂⟩ := hsec h₂
    exact h.unique h₁' h₂' (e₁.trans (he.trans e₂.symm))
  · intro q i' hq
    rw [Kernel.setInode_mem] at hq
    split at hq
    · rename_i e
      cases hq
      rw [e, hc]
    · rename_i e
      rw [hheld q e]
      exact h.counted hq
  · rw [hsome]
    by_cases e : q = p
    · subst e
      exact ⟨fun _ => ⟨i, hp⟩, fun _ => hpos⟩
    · rw [hheld q e]
      exact h.handles q

/-- The first handle on the inode of a sector. -/
theorem TableOk.malloc (hs : ∀ p j, k.mem p = some j → j.sector ≠ i.sector) (hi : i.open_cnt = 1)
    (hheld : ∀ q, held' q = if q = k.next then 1 else held q) : TableOk held' (k.malloc i) := by
  have hnext : k.mem k.next = none := h.fresh _ le_rfl
  refine ⟨List.nodup_cons.mpr ⟨fun hm => ?_, h.nodup⟩, fun q => ?_, fun q hq => ?_, ?_, ?_,
    fun q => ?_⟩
  · obtain ⟨j, hj⟩ := (h.listed _).mp hm
    rw [hnext] at hj
    cases hj
  · rw [Kernel.malloc_mem]
    show q ∈ k.next :: k.open_inodes ↔ _
    rw [List.mem_cons, h.listed]
    split <;> simp [*]
  · have hq' : k.next < q := hq
    rw [Kernel.malloc_mem, if_neg (ne_of_gt hq')]
    exact h.fresh q hq'.le
  · intro q q' i₁ i₂ h₁ h₂ he
    rw [Kernel.malloc_mem] at h₁ h₂
    split at h₁ <;> split at h₂
    · rename_i e e'
      rw [e, e']
    · cases h₁
      exact absurd he.symm (hs _ _ h₂)
    · cases h₂
      exact absurd he (hs _ _ h₁)
    · exact h.unique h₁ h₂ he
  · intro q j hq
    rw [Kernel.malloc_mem] at hq
    rw [hheld]
    split at hq
    · rename_i e
      cases hq
      rw [if_pos e, hi]
      rfl
    · rename_i e
      rw [if_neg e]
      exact h.counted hq
  · rw [Kernel.malloc_mem, hheld]
    split
    · simp
    · exact h.handles q

/-- The last handle on the inode at `p` goes. -/
theorem TableOk.free (hm : ∀ q, q ≠ p → k'.mem q = k.mem q) (hn : k'.next = k.next)
    (ho : k'.open_inodes = k.open_inodes.erase p)
    (hheld : ∀ q, held' q = if q = p then 0 else held q) : TableOk held' (k'.free p) := by
  have hmem : ∀ q, (k'.free p).mem q = if q = p then none else k.mem q := by
    intro q
    rw [Kernel.free_mem]
    split
    · rfl
    · exact hm q ‹_›
  have hof : ∀ {q j}, (k'.free p).mem q = some j → q ≠ p ∧ k.mem q = some j := by
    intro q j hq
    rw [hmem] at hq
    split at hq
    · cases hq
    · exact ⟨‹_›, hq⟩
  refine ⟨?_, fun q => ?_, fun q hq => ?_, ?_, ?_, fun q => ?_⟩
  · show k'.open_inodes.Nodup
    rw [ho]
    exact h.nodup.erase p
  · show q ∈ k'.open_inodes ↔ _
    rw [ho, h.nodup.mem_erase_iff, hmem, h.listed]
    split <;> simp [*]
  · have hq' : k.next ≤ q := hn ▸ hq
    rw [hmem]
    split
    · rfl
    · exact h.fresh q hq'
  · intro q q' i₁ i₂ h₁ h₂ he
    exact h.unique (hof h₁).2 (hof h₂).2 he
  · intro q j hq
    obtain ⟨hne, hq⟩ := hof hq
    rw [hheld, if_neg hne]
    exact h.counted hq
  · rw [hmem, hheld]
    split
    · simp
    · exact h.handles q

end

end Table

/-! ### The calls -/

section Calls

variable {ι δ : Type} {B : Backend ι δ} {held : Addr → Nat} {k : Kernel ι δ} {p : Addr}
  {i : Inode ι} {s : Sector} {ok : Event → Prop}

theorem inode_reopen_run (hp : k.mem p = some i) :
    (inode_reopen p : Machine Event (Kernel ι δ) Addr) k =
      ([], .done p (k.setInode p { i with open_cnt := i.open_cnt + 1 })) :=
  bind_run_silent (deref_run hp) rfl

theorem inode_remove_run (hp : k.mem p = some i) :
    (inode_remove p : Machine Event (Kernel ι δ) Unit) k =
      ([], .done () (k.setInode p { i with removed := true })) :=
  bind_run_silent (deref_run hp) rfl

theorem inode_lock_acquire_run (hp : k.mem p = some i) (hl : i.inode_lock = false) :
    (inode_lock_acquire p : Machine Event (Kernel ι δ) Unit) k =
      ([], .done () (k.setInode p { i with inode_lock := true })) := by
  refine bind_run_silent (deref_run hp) ?_
  rw [hl]
  rfl

theorem inode_lock_release_run (hp : k.mem p = some i) (hl : i.inode_lock = true) :
    (inode_lock_release p : Machine Event (Kernel ι δ) Unit) k =
      ([], .done () (k.setInode p { i with inode_lock := false })) := by
  refine bind_run_silent (deref_run hp) ?_
  rw [if_pos hl]
  rfl

/-- A second open returns the inode in memory. -/
theorem inode_open_hit (h : TableOk held k) (hp : k.mem p = some i) (hs : i.sector = s) :
    inode_open B s k = ([], .done p (k.setInode p { i with open_cnt := i.open_cnt + 1 })) := by
  refine bind_run_silent (Machine.get_run k) ?_
  rw [h.opened_eq_some.mpr ⟨i, hp, hs⟩]
  exact inode_reopen_run hp

/-- A first open loads the inode. -/
theorem inode_open_miss (h : TableOk held k) (hs : ∀ p i, k.mem p = some i → i.sector ≠ s)
    {Q : List Event → Addr → Kernel ι δ → Prop}
    (hl : (B.load s).Runs ok k fun es data k₁ => Q es k₁.next (k₁.malloc
      { sector := s, open_cnt := 1, removed := false, deny_write_cnt := 0, inode_lock := false,
        data := data })) :
    (inode_open B s).Runs ok k Q := by
  refine Machine.Runs.get_bind ?_
  rw [h.opened_eq_none.mpr hs]
  refine Machine.Runs.bind hl fun es data k₁ _ hQ => ?_
  refine Machine.Runs.get_bind (Machine.Runs.modify_bind (Machine.Runs.pure ?_))
  rw [append_nil]
  exact hQ

/-- A close that leaves other handles. -/
theorem inode_close_more (hp : k.mem p = some i) (hc : i.open_cnt ≠ 1) : inode_close B (some p) k =
      ([], .done () (k.setInode p { i with open_cnt := i.open_cnt - 1 })) := by
  refine bind_run_silent (deref_run hp) ?_
  refine bind_run_silent (Machine.modify_run ..) ?_
  rw [if_neg (by show ¬ i.open_cnt - 1 = 0; omega)]
  rfl

/-- The last close. -/
theorem inode_close_last (hp : k.mem p = some i) (hc : i.open_cnt = 1)
    {Q : List Event → Unit → Kernel ι δ → Prop}
    (hb : (inode_retire B { i with open_cnt := i.open_cnt - 1 }).Runs ok
      ((k.setInode p { i with open_cnt := i.open_cnt - 1 }).unlink p)
      fun es _ k₁ => Q es () (k₁.free p)) :
    (inode_close B (some p)).Runs ok k Q := by
  refine Machine.Runs.silent_bind (deref_run hp) (Machine.Runs.modify_bind ?_)
  rw [if_pos (by show i.open_cnt - 1 = 0; omega)]
  refine Machine.Runs.modify_bind (Machine.Runs.bind hb fun es _ k₁ _ hQ => ?_)
  refine Machine.Runs.modify ?_
  rw [append_nil]
  exact hQ

end Calls

end Pintos
