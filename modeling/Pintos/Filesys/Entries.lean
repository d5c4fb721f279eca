import Pintos.Filesys.Directory

/-!
# Filesys — the entries of a directory

A directory is a byte array read in steps of 20 bytes.  `findEntry bytes name` is the first entry in
use with a name.

`ReadsFrom` is a contract under which the inode at an address reads as a byte array.  Under it
`lookup` finds the entry it should and changes nothing (`ReadsFrom.lookup`), whatever else the
contract says.
-/

namespace Pintos
open Support List

/-- Entry `j` of a directory. -/
def entryAt (bytes : List UInt8) (j : Nat) : List UInt8 := (bytes.drop (20 * j)).take 20

/-- The number of whole entries. -/
def entryCount (bytes : List UInt8) : Nat := bytes.length / 20

/-- Entry `j` is in use. -/
def UsedEntry (bytes : List UInt8) (j : Nat) : Prop :=
  j < entryCount bytes ∧ DirEntry.in_use (entryAt bytes j) = true

/-- The first entry in use with the name `name`. -/
def findEntry (bytes name : List UInt8) : Option Nat :=
  (List.range (entryCount bytes)).find? fun j =>
    DirEntry.in_use (entryAt bytes j) && DirEntry.name (entryAt bytes j) == name

/-- The sector that `name` names in a directory. -/
def findSector (bytes name : List UInt8) : Option Sector :=
  (findEntry bytes name).map fun j => DirEntry.inode_sector (entryAt bytes j)

section Entries

variable {bytes name : List UInt8} {j : Nat}

theorem length_entryAt : (entryAt bytes j).length = min 20 (bytes.length - 20 * j) := by
  simp [entryAt]

theorem length_entryAt_eq : (entryAt bytes j).length = 20 ↔ j < entryCount bytes := by
  rw [length_entryAt, entryCount]
  omega

theorem findEntry_used (h : findEntry bytes name = some j) :
    UsedEntry bytes j ∧ DirEntry.name (entryAt bytes j) = name := by
  have hm := mem_of_find?_eq_some h
  have hp := find?_some h
  simp only [Bool.and_eq_true, beq_iff_eq] at hp
  exact ⟨⟨List.mem_range.mp hm, hp.1⟩, hp.2⟩

/-- The first of the numbers from `j` on. -/
theorem find?_range'_step {n : Nat} {p : Nat → Bool} (h : j < n) : (range' j (n - j)).find? p =
      if p j then some j else (range' (j + 1) (n - (j + 1))).find? p := by
  rw [show n - j = (n - (j + 1)) + 1 by omega, range'_succ, find?_cons]
  cases p j <;> rfl

end Entries

/-! ### Reading a directory -/

section Read

variable {τ : Type} {pre : τ → FsOp → Prop} {post : τ → ∀ o : FsOp, o.Res → τ → Prop} {t : τ}
  {p : Addr} {bytes name : List UInt8} {pos : Nat}

/-- From `t`, reads of the inode at `p` find the file `bytes` and change nothing. -/
structure ReadsFrom (pre : τ → FsOp → Prop) (post : τ → ∀ o : FsOp, o.Res → τ → Prop) (t : τ)
    (p : Addr) (bytes : List UInt8) : Prop where
  stat : pre t (.inode_stat p)
  read : ∀ size offset, pre t (.inode_read_at p size offset)
  length : ∀ {r t'}, post t (.inode_stat p) r t' → t' = t ∧ r.length = bytes.length
  bytes : ∀ {size offset r t'}, post t (.inode_read_at p size offset) r t' →
    t' = t ∧ r = (bytes.drop offset).take size

section

variable (h : ReadsFrom pre post t p bytes)
include h

/-- A read of one entry. -/
theorem ReadsFrom.entry {j : Nat} {r : List UInt8} {t' : τ}
    (hr : post t (.inode_read_at p ENTRY_SIZE (20 * j)) r t') : t' = t ∧ r = entryAt bytes j :=
  h.bytes hr

theorem ReadsFrom.inode_length :
    (inode_length p).Meets pre post (fun n t' => t' = t ∧ n = bytes.length) t :=
  .op_bind h.stat fun _ _ hr => h.length hr

/-- The loop of `lookup` from entry `j` on. -/
theorem ReadsFrom.lookup_loop (turns : Nat) : ∀ j,
    entryCount bytes < turns + j → (lookup_loop p name turns (20 * j)).Meets pre post
      (fun r t' => t' = t ∧ r = ((range' j (entryCount bytes - j)).find? fun j =>
        DirEntry.in_use (entryAt bytes j) && DirEntry.name (entryAt bytes j) == name).map
        fun j => (entryAt bytes j, 20 * j)) t := by
  induction turns with
  | zero =>
    intro j hj
    rw [show entryCount bytes - j = 0 by omega]
    exact ⟨rfl, rfl⟩
  | succ turns ih =>
    intro j hj
    refine .op_bind (h.read _ _) fun r t' hr => ?_
    obtain ⟨rfl, rfl⟩ := h.entry hr
    by_cases hlt : j < entryCount bytes
    · rw [if_pos (length_entryAt_eq.mpr hlt), find?_range'_step hlt]
      split
      · exact ⟨rfl, rfl⟩
      · exact ih (j + 1) (by omega)
    · rw [if_neg (fun h => hlt (length_entryAt_eq.mp h)), show entryCount bytes - j = 0 by omega]
      exact ⟨rfl, rfl⟩

theorem ReadsFrom.lookup : (lookup ⟨p, pos⟩ name).Meets pre post (fun r t' => t' = t ∧
      r = (findEntry bytes name).map fun j => (entryAt bytes j, 20 * j)) t := by
  refine .bind h.inode_length ?_
  rintro n _ ⟨rfl, rfl⟩
  rw [findEntry, range_eq_range']
  exact h.lookup_loop _ 0 (Nat.lt_succ_self _)

end

end Read

end Pintos
