import Pintos.Filesys.OpenInodes

/-!
# Filesys — handles taken and given back

A call of `filesys.c` opens inodes along its way and closes most of them again.  `Over f₀ held₀ f
held` is what holds in between: since `f₀`, handles have been taken and none given back that was out
before, so that the inodes open at `f₀` are still where they were, and only their counts differ.

A handle taken since `f₀` can be closed (`Over.close_runs`), and the inode goes only if it was not
open at `f₀`.
-/

namespace Pintos
open Support
open Kernel (free_mem malloc_mem setInode_mem)

/-- The table at `f` with handles `held`, seen from the table at `f₀` with handles `held₀`. -/
structure Over {ι δ : Type} (f₀ : Kernel ι δ) (held₀ : Addr → Nat) (f : Kernel ι δ)
    (held : Addr → Nat) : Prop where
  table : TableOk held f
  le : ∀ p, held₀ p ≤ held p
  keeps : ∀ {p i}, f₀.mem p = some i → ∃ c, f.mem p = some { i with open_cnt := c }
  fresh : ∀ {p i}, f.mem p = some i → f₀.mem p = none →
    i.removed = false ∧ i.deny_write_cnt = 0 ∧ i.inode_lock = false

/-- One more handle on the inode at `p`. -/
abbrev plus (held : Addr → Nat) (p : Addr) : Addr → Nat := held + Pi.single p 1

/-- One handle less. -/
abbrev minus (held : Addr → Nat) (p : Addr) : Addr → Nat := held - Pi.single p 1

/-- The handles with one more on the inode that a call returned. -/
def taken (held : Addr → Nat) : Option Addr → Addr → Nat
  | none => held
  | some p => plus held p

/-- No inode is locked. -/
def Unlocked {ι δ : Type} (f : Kernel ι δ) : Prop := ∀ p i, f.mem p = some i → i.inode_lock = false

section Held

variable {held : Addr → Nat} {p q : Addr}

@[simp] theorem plus_self : plus held p p = held p + 1 := by simp

theorem plus_of_ne (h : q ≠ p) : plus held p q = held q := by simp [h]

@[simp] theorem minus_self : minus held p p = held p - 1 := by simp

theorem minus_of_ne (h : q ≠ p) : minus held p q = held q := by simp [h]

@[simp] theorem minus_plus : minus (plus held p) p = held := by
  funext q
  by_cases h : q = p
  · subst h
    rw [minus_self, plus_self, Nat.add_sub_cancel]
  · rw [minus_of_ne h, plus_of_ne h]

theorem plus_comm : plus (plus held p) q = plus (plus held q) p := add_right_comm ..

theorem minus_plus_comm : minus (plus (plus held p) q) p = plus held q := by
  rw [plus_comm, minus_plus]

end Held

section Over

variable {ι δ : Type} {f₀ f f' f₁ : Kernel ι δ} {held₀ held held' held₁ : Addr → Nat} {p : Addr}
  {i : Inode ι}

theorem Over.refl (h : TableOk held f) : Over f held f held :=
  ⟨h, fun _ => le_rfl, fun hp => ⟨_, hp⟩, fun hp hn => by rw [hn] at hp; cases hp⟩

section

variable (h : Over f₀ held₀ f held)
include h

theorem Over.trans (h' : Over f held f' held') : Over f₀ held₀ f' held' := by
  refine ⟨h'.table, fun p => (h.le p).trans (h'.le p), fun hp => ?_, fun {p i'} hp hn => ?_⟩
  · obtain ⟨c, hp⟩ := h.keeps hp
    obtain ⟨c', hp⟩ := h'.keeps hp
    exact ⟨c', hp⟩
  · cases hf : f.mem p with
    | none => exact h'.fresh hp hf
    | some j =>
      obtain ⟨c, hj⟩ := h'.keeps hf
      obtain rfl : i' = { j with open_cnt := c } := Option.some.inj (hp.symm.trans hj)
      have := h.fresh hf hn
      exact this

/-- The inodes open at `f₀` are still open, with the same sector. -/
theorem Over.open_still (hp : f₀.mem p = some i) : ∃ j, f.mem p = some j ∧ j.sector = i.sector := by
  obtain ⟨c, hc⟩ := h.keeps hp
  exact ⟨_, hc, rfl⟩

theorem Over.unlocked (hu : Unlocked f₀) : Unlocked f := by
  intro p i hp
  cases h₀ : f₀.mem p with
  | none => exact (h.fresh hp h₀).2.2
  | some j =>
    obtain ⟨c, hc⟩ := h.keeps h₀
    obtain rfl := Option.some.inj (hp.symm.trans hc)
    have hj := hu p j h₀
    exact hj

/-- What lies below the table does not matter. -/
theorem Over.congr (hm : f'.mem = f.mem) (hn : f'.next = f.next)
    (ho : f'.open_inodes = f.open_inodes) : Over f₀ held₀ f' held :=
  ⟨h.table.congr hm hn ho, h.le, fun hp => by rw [hm]; exact h.keeps hp,
    fun hp hn' => h.fresh (hm ▸ hp) hn'⟩

theorem Over.base_congr (hm : f₁.mem = f₀.mem) : Over f₁ held₀ f held :=
  ⟨h.table, h.le, fun hp => h.keeps (hm ▸ hp), fun hp hn => h.fresh hp (hm ▸ hn)⟩

end

/-- Another handle on an open inode. -/
theorem TableOk.over_reopen (h : TableOk held f) (hp : f.mem p = some i) :
    Over f held (f.setInode p { i with open_cnt := i.open_cnt + 1 }) (plus held p) := by
  have hcount : i.open_cnt = held p := h.counted hp
  refine ⟨h.setInode hp rfl ?_ ?_ fun q hq => plus_of_ne hq, fun q => Nat.le_add_right .., ?_, ?_⟩
  · rw [plus_self]
    show i.open_cnt + 1 = _
    rw [hcount]
    rfl
  · rw [plus_self]
    exact Nat.succ_pos _
  · intro q j hq
    rw [setInode_mem]
    split
    · rename_i e
      subst e
      obtain rfl : i = j := Option.some.inj (hp.symm.trans hq)
      exact ⟨_, rfl⟩
    · exact ⟨_, hq⟩
  · intro q j hq hn
    rw [setInode_mem] at hq
    split at hq
    · rename_i e
      rw [e, hp] at hn
      cases hn
    · rw [hn] at hq
      cases hq

/-- The first handle on an inode. -/
theorem TableOk.over_malloc (h : TableOk held f) {s : Sector} {d : ι}
    (hs : ∀ p j, f.mem p = some j → j.sector ≠ s) :
    Over f held (f.malloc ⟨s, 1, false, 0, false, d⟩) (plus held f.next) := by
  have hnext : f.mem f.next = none := h.fresh _ le_rfl
  have hzero : held f.next = 0 := Nat.eq_zero_of_not_pos fun hpos => by
    obtain ⟨j, hj⟩ := (h.handles _).mp hpos
    rw [hnext] at hj
    cases hj
  refine ⟨h.malloc hs rfl fun q => ?_, fun q => Nat.le_add_right .., fun {q j} hq => ?_,
    fun {q j} hq hn => ?_⟩
  · split
    · rename_i e
      rw [e, plus_self, hzero]
    · exact plus_of_ne ‹_›
  · refine ⟨j.open_cnt, ?_⟩
    rw [malloc_mem, if_neg (h.ne_next hq)]
    exact hq
  · rw [malloc_mem] at hq
    split at hq
    · cases hq
      exact ⟨rfl, rfl, rfl⟩
    · rw [hn] at hq
      cases hq

/-- One of several handles on the inode at `p` goes. -/
theorem TableOk.close_more (h : TableOk held f) (hp : f.mem p = some i) (hc : i.open_cnt ≠ 1) :
    TableOk (minus held p) (f.setInode p { i with open_cnt := i.open_cnt - 1 }) := by
  have hcount : i.open_cnt = held p := h.counted hp
  have hpos : 0 < held p := (h.handles p).mpr ⟨i, hp⟩
  refine h.setInode hp rfl ?_ ?_ fun q hq => minus_of_ne hq
  · rw [minus_self]
    show i.open_cnt - 1 = _
    omega
  · rw [minus_self]
    omega

/-- The only handle on the inode at `p` goes. -/
theorem TableOk.close_last (h : TableOk held f) (hm : ∀ q, q ≠ p → f'.mem q = f.mem q)
    (hn : f'.next = f.next) (ho : f'.open_inodes = f.open_inodes.erase p) (hone : held p = 1) :
    TableOk (minus held p) (f'.free p) := by
  refine h.free hm hn ho fun q => ?_
  split
  · rename_i e
    rw [e, minus_self, hone]
  · exact minus_of_ne ‹_›

/-- One of several handles goes. -/
theorem Over.close_more (h : Over f₀ held₀ f held) (hp : held₀ p < held p)
    (hi : f.mem p = some i) (hc : i.open_cnt ≠ 1) :
    Over f₀ held₀ (f.setInode p { i with open_cnt := i.open_cnt - 1 }) (minus held p) := by
  refine ⟨h.table.close_more hi hc, fun q => ?_, fun {q j} hq => ?_, fun {q j} hq hn => ?_⟩
  · by_cases e : q = p
    · rw [e, minus_self]
      omega
    · rw [minus_of_ne e]
      exact h.le q
  · obtain ⟨c, hc⟩ := h.keeps hq
    rw [setInode_mem]
    split
    · rename_i e
      subst e
      obtain rfl : i = { j with open_cnt := c } := Option.some.inj (hi.symm.trans hc)
      exact ⟨_, rfl⟩
    · exact ⟨c, hc⟩
  · rw [setInode_mem] at hq
    split at hq
    · rename_i e
      cases hq
      have := h.fresh hi (e ▸ hn)
      exact this
    · exact h.fresh hq hn

/-- The last handle goes, on an inode that was not open at `f₀`. -/
theorem Over.close_last (h : Over f₀ held₀ f held) (hp : held₀ p = 0) (hn₀ : f₀.mem p = none)
    (hm : ∀ q, q ≠ p → f'.mem q = f.mem q) (hn : f'.next = f.next)
    (ho : f'.open_inodes = f.open_inodes.erase p) (hone : held p = 1) :
    Over f₀ held₀ (f'.free p) (minus held p) := by
  refine ⟨h.table.close_last hm hn ho hone, fun q => ?_, fun {q j} hq => ?_, fun {q j} hq hn => ?_⟩
  · by_cases e : q = p
    · rw [e, hp]
      exact Nat.zero_le _
    · rw [minus_of_ne e]
      exact h.le q
  · obtain ⟨c, hc⟩ := h.keeps hq
    refine ⟨c, ?_⟩
    have hne : q ≠ p := by
      rintro rfl
      rw [hn₀] at hq
      cases hq
    rw [free_mem, if_neg hne, hm q hne]
    exact hc
  · rw [free_mem] at hq
    split at hq
    · cases hq
    · rw [hm q ‹_›] at hq
      exact h.fresh hq hn

/-- The handles taken while the inode at `p` was locked, once it is unlocked. -/
theorem Over.locked {j : Inode ι} (hp : f₀.mem p = some i) (hl : i.inode_lock = false)
    (h : Over (f₀.setInode p { i with inode_lock := true }) held₀ f held) (hj : f.mem p = some j) :
    Over f₀ held₀ (f.setInode p { j with inode_lock := false }) held := by
  obtain ⟨c, hc⟩ := h.keeps (show (f₀.setInode p _).mem p = some _ by
    rw [setInode_mem, if_pos rfl])
  obtain rfl : j = _ := Option.some.inj (hj.symm.trans hc)
  have hcount : c = held p := h.table.counted hj
  have htable := h.table.setInode hj (j := { i with open_cnt := c, inode_lock := false }) rfl hcount
    ((h.table.handles p).mpr ⟨_, hj⟩) fun _ _ => rfl
  refine ⟨htable, h.le, fun {q j} hq => ?_, fun {q j} hq hn => ?_⟩
  · rw [setInode_mem]
    split
    · rename_i e
      subst e
      obtain rfl : i = j := Option.some.inj (hp.symm.trans hq)
      exact ⟨c, by rw [← hl]⟩
    · rename_i e
      exact h.keeps (by rw [setInode_mem, if_neg e]; exact hq)
  · have hne : q ≠ p := by
      rintro rfl
      rw [hp] at hn
      cases hn
    rw [setInode_mem, if_neg hne] at hq
    exact h.fresh hq (by rw [setInode_mem, if_neg hne]; exact hn)

end Over

end Pintos
