import Pintos.Filesys.Entries
import Pintos.Filesys.Flat
import Pintos.Support.Slots

/-!
# Filesys — a directory is a map from names to sectors

`dir_add` writes a new entry over the first one that is not in use, or at the end, and `dir_remove`
clears a flag.  Over an inode that is a byte array that grows, the entries are slots that hold the
map which the calls made (`slotsOf`, `Slots.Holds`).

What the calls ask of the inodes is a contract (`DirView.pre`, `DirView.post`): the directory is
locked and released, its bytes are read and written, and one inode at a time is opened and closed
besides.  `directory_map` holds over any implementation of it.
-/

namespace Pintos
open Support List
open DirEntry (in_use inode_sector set_in_use set_inode_sector set_name)

/-! ### Entries and slots -/

section Entries

variable {bytes e name : List UInt8} {i j : Nat}

theorem getElem?_entryAt : (entryAt bytes j)[i]? = if i < 20 then bytes[20 * j + i]? else none := by
  rw [entryAt, getElem?_take, getElem?_drop]

theorem entryAt_overwrite (hi : 20 * i ≤ bytes.length) (he : e.length = 20) :
    entryAt (overwrite bytes (20 * i) e) j = if j = i then e else entryAt bytes j := by
  refine ext_getElem? fun l => ?_
  rw [getElem?_entryAt, getElem?_overwrite hi, he]
  by_cases hl : l < 20
  · rw [if_pos hl]
    by_cases hj : j = i
    · subst hj
      rw [if_pos rfl, if_neg (by omega), if_pos (by omega), Nat.add_sub_cancel_left]
    · rw [if_neg hj, getElem?_entryAt, if_pos hl]
      split
      · rfl
      · rw [if_neg (by omega)]
  · rw [if_neg hl]
    split
    · exact (List.getElem?_eq_none (by omega)).symm
    · rw [getElem?_entryAt, if_neg hl]

theorem entryCount_overwrite (hi : 20 * i ≤ bytes.length) (he : e.length = 20) :
    entryCount (overwrite bytes (20 * i) e) = max (entryCount bytes) (i + 1) := by
  rw [entryCount, length_overwrite hi, he, entryCount]
  omega

instance (bytes : List UInt8) (j : Nat) : Decidable (UsedEntry bytes j) :=
  inferInstanceAs (Decidable (_ ∧ _))

/-- The entries of a directory as slots. -/
def slotsOf (bytes : List UInt8) : Slots (List UInt8) Sector where
  slot j := if UsedEntry bytes j then
      some (DirEntry.name (entryAt bytes j), inode_sector (entryAt bytes j))
    else none
  count := entryCount bytes
  beyond j hj := if_neg fun h => by
    have := h.1
    omega

theorem slotsOf_eq_none : (slotsOf bytes).slot j = none ↔ ¬ UsedEntry bytes j := by
  show (if _ then _ else _) = none ↔ _
  split <;> simp_all

theorem slotsOf_used (h : UsedEntry bytes j) : (slotsOf bytes).slot j =
    some (DirEntry.name (entryAt bytes j), inode_sector (entryAt bytes j)) := if_pos h

theorem usedEntry_overwrite (hi : 20 * i ≤ bytes.length) (he : e.length = 20) :
    UsedEntry (overwrite bytes (20 * i) e) j ↔
      if j = i then in_use e = true else UsedEntry bytes j := by
  rw [UsedEntry, entryAt_overwrite hi he, entryCount_overwrite hi he]
  split
  · exact and_iff_right (by omega)
  · rename_i hj
    refine and_congr_left fun _ => ⟨fun hlt => ?_, fun hlt => by omega⟩
    have : 20 * i / 20 ≤ bytes.length / 20 := Nat.div_le_div_right hi
    rw [entryCount] at hlt ⊢
    omega

/-- An entry in use, written over entry `i` or at the end. -/
theorem slotsOf_put (hi : 20 * i ≤ bytes.length) (he : e.length = 20)
    (huse : in_use e = true) : slotsOf (overwrite bytes (20 * i) e) =
      (slotsOf bytes).put i (DirEntry.name e) (inode_sector e) := by
  refine Slots.ext (funext fun j => ?_) (entryCount_overwrite hi he)
  rw [Slots.slot_put]
  show (if UsedEntry _ j then some (DirEntry.name (entryAt _ j), _) else none) = _
  simp only [usedEntry_overwrite hi he, entryAt_overwrite hi he]
  by_cases hj : j = i
  · simp [hj, huse]
  · simp only [hj, if_false]
    rfl

/-- An entry that is not in use, written over entry `i`. -/
theorem slotsOf_clear (hi : i < entryCount bytes) (he : e.length = 20)
    (huse : in_use e = false) :
    slotsOf (overwrite bytes (20 * i) e) = (slotsOf bytes).clear i := by
  have hle : 20 * i ≤ bytes.length := by
    rw [entryCount] at hi
    omega
  refine Slots.ext (funext fun j => ?_) ((entryCount_overwrite hle he).trans (max_eq_left hi))
  rw [Slots.slot_clear]
  show (if UsedEntry _ j then some (DirEntry.name (entryAt _ j), _) else none) = _
  simp only [usedEntry_overwrite hle he, entryAt_overwrite hle he]
  by_cases hj : j = i
  · simp [hj, huse]
  · simp only [hj, if_false]
    rfl

/-- What `lookup` finds. -/
theorem slotsOf_findEntry (h : findEntry bytes name = some j) :
    (slotsOf bytes).slot j = some (name, inode_sector (entryAt bytes j)) := by
  obtain ⟨hused, hname⟩ := findEntry_used h
  rw [slotsOf_used hused, hname]

theorem findEntry_eq_none (h : findEntry bytes name = none) (s : Sector) :
    (slotsOf bytes).slot j ≠ some (name, s) := by
  intro hj
  by_cases hused : UsedEntry bytes j
  · rw [slotsOf_used hused] at hj
    have hnone := List.find?_eq_none.mp h j (List.mem_range.mpr hused.1)
    simp only [hused.2, Bool.true_and, beq_iff_eq] at hnone
    exact hnone (Prod.mk.inj (Option.some.inj hj)).1
  · exact nomatch (slotsOf_eq_none.mpr hused).symm.trans hj

end Entries

/-! ### The entry that `dir_add` writes -/

section Entry

variable {e name : List UInt8} {s : Sector}

/-- The new entry, over what the buffer held. -/
def newEntry (e name : List UInt8) (s : Sector) : List UInt8 :=
  set_inode_sector (set_name (set_in_use e true) name) s

theorem length_set_in_use (b : Bool) : (set_in_use e b).length = e.length :=
  length_set

section

variable (he : e.length = 20)
include he

theorem length_set_name : (set_name e name).length = 20 := by
  simp only [set_name, NAME_MAX, length_append, length_take, length_cons,
    length_drop, he]
  omega

theorem length_newEntry : (newEntry e name s).length = 20 := by
  have hlen : (set_name (set_in_use e true) name).length = 20 :=
    length_set_name ((length_set_in_use true).trans he)
  rw [newEntry, set_inode_sector, length_append, Bytes.length_le32, length_drop,
    hlen]

theorem newEntry_eq (hname : name.length ≤ 14) : newEntry e name s =
    Bytes.le32 s ++ (name ++ 0 :: (e.set 19 1).drop (5 + name.length)) := by
  have htake : ((e.set 19 1).take 4).length = 4 := by
    rw [length_take, length_set, he]
    rfl
  rw [newEntry, set_inode_sector, set_name, set_in_use, if_pos rfl,
    List.append_assoc, drop_left' htake, take_of_length_le hname,
    show min name.length NAME_MAX = name.length from min_eq_left hname,
    show 4 + name.length + 1 = 5 + name.length by omega]

theorem in_use_newEntry (hname : name.length ≤ 14) : in_use (newEntry e name s) = true := by
  have hlast : (newEntry e name s)[19]? = some 1 := by
    rw [newEntry_eq he hname, getElem?_append_right (by simp), Bytes.length_le32,
      getElem?_append_right (by omega),
      show 19 - 4 - name.length = 14 - name.length + 1 by omega,
      getElem?_cons_succ, getElem?_drop,
      show 5 + name.length + (14 - name.length) = 19 by omega, getElem?_set_self (by omega)]
  rw [in_use, getD_eq_getElem?_getD, hlast]
  rfl

theorem name_newEntry (hname : name.length ≤ 14) (hz : 0 ∉ name) :
    DirEntry.name (newEntry e name s) = name := by
  have hall : ∀ c ∈ name, (c != 0) = true := fun c hc => by
    simpa using ne_of_mem_of_not_mem hc hz
  rw [DirEntry.name, newEntry_eq he hname, drop_left' (Bytes.length_le32 s), c_string,
    takeWhile_append_of_pos hall]
  simp

theorem inode_sector_newEntry (hname : name.length ≤ 14) (hs : s < 2 ^ 32) :
    inode_sector (newEntry e name s) = s := by
  rw [newEntry_eq he hname]
  exact (Bytes.word_le32 s).trans (Nat.mod_eq_of_lt hs)

theorem in_use_set_in_use : in_use (set_in_use e false) = false := by
  rw [in_use, set_in_use, getD_eq_getElem?_getD,
    getElem?_set_self (by omega)]
  rfl

end

end Entry

/-! ### The contract -/

/-- What the calls on a directory see: whether its lock is held, the inode that is open besides, and
the bytes of the directory. -/
structure DirView where
  locked : Bool
  child : Option (Addr × Sector)
  bytes : List UInt8

namespace DirView

/-- `q` is the inode that is open besides. -/
def HasChild (v : DirView) (q : Addr) : Prop := ∃ s, v.child = some (q, s)

/-- The calls that are made on the directory at `p`. -/
def pre (p : Addr) (v : DirView) : FsOp → Prop
  | .inode_lock_acquire q => q = p ∧ v.locked = false
  | .inode_lock_release q => q = p ∧ v.locked = true
  | .inode_stat q | .inode_read_at q _ _ => q = p ∨ v.HasChild q
  | .inode_write_at q _ offset => q = p ∧ offset ≤ v.bytes.length
  | .inode_open _ => v.child = none
  | .inode_close none => True
  | .inode_close (some q) | .inode_remove q | .set_dir_parent q _ => v.HasChild q
  | _ => False

/-- What they do: the directory is a byte array that grows, and nothing else changes it. -/
def post (p : Addr) (v : DirView) : ∀ o : FsOp, o.Res → DirView → Prop
  | .inode_lock_acquire _, _, v' => v' = { v with locked := true }
  | .inode_lock_release _, _, v' => v' = { v with locked := false }
  | .inode_stat q, r, v' => v' = v ∧ (q = p → r.length = v.bytes.length)
  | .inode_read_at q size offset, r, v' =>
    v' = v ∧ (q = p → r = (v.bytes.drop offset).take size)
  | .inode_write_at _ buffer offset, r, v' =>
    r = buffer.length ∧ v' = { v with bytes := overwrite v.bytes offset buffer }
  | .inode_open s, q, v' => v' = { v with child := some (q, s) }
  | .inode_close (some _), _, v' => v' = { v with child := none }
  | _, _, v' => v' = v

end DirView

/-- The program makes the calls of the contract, and ends in `Q`. -/
abbrev OnDir {α : Type} (p : Addr) (v : DirView) (m : FsProg α) (Q : α → DirView → Prop) : Prop :=
  m.Meets (DirView.pre p) (DirView.post p) Q v

section Calls

variable {p : Addr} {v : DirView} {b name e : List UInt8} {pos : Nat} {s : Sector}

theorem readsFrom_onDir : ReadsFrom (DirView.pre p) (DirView.post p) v p v.bytes where
  stat := .inl rfl
  read _ _ := .inl rfl
  length h := ⟨h.1, h.2 rfl⟩
  bytes h := ⟨h.1, h.2 rfl⟩

theorem onDir_stat {α : Type} {q : Addr} (f : Stat → α) (h : q = p ∨ v.HasChild q) :
    OnDir p v (do let stat ← call (.inode_stat q); pure (f stat)) fun _ v' => v' = v :=
  .op_bind h fun _ _ h => h.1

/-- The loop of `dir_add` ends at the first free slot, with an entry to overwrite. -/
theorem onDir_free_slot_loop (turns : Nat) : ∀ (j : Nat) (e : List UInt8),
    entryCount v.bytes < turns + j → j ≤ entryCount v.bytes → e.length = 20 →
    (∀ k < j, (slotsOf v.bytes).slot k ≠ none) →
    OnDir p v (free_slot_loop p turns (20 * j) e) fun r v' => v' = v ∧
      ∃ i, r.1 = 20 * i ∧ r.2.length = 20 ∧ (slotsOf v.bytes).FirstFree i := by
  induction turns with
  | zero =>
    intro j e hj hle
    omega
  | succ turns ih =>
    intro j e hturns hle he hbefore
    refine .op_bind (.inl rfl) ?_
    rintro r v ⟨rfl, hr⟩
    obtain rfl : r = entryAt v.bytes j := hr rfl
    have hlen : (entryAt v.bytes j ++ e.drop (entryAt v.bytes j).length).length = 20 := by
      rw [length_append, length_drop, he, length_entryAt]
      omega
    by_cases hlt : j < entryCount v.bytes
    · have hfull : (entryAt v.bytes j).length = 20 := length_entryAt_eq.mpr hlt
      have hbuf : entryAt v.bytes j ++ e.drop (entryAt v.bytes j).length = entryAt v.bytes j := by
        rw [hfull, drop_of_length_le he.le, append_nil]
      rw [if_pos hfull, hbuf]
      split
      · refine ih (j + 1) _ (by omega) hlt hfull fun k hk => ?_
        rcases Nat.lt_succ_iff_lt_or_eq.mp hk with hk | rfl
        · exact hbefore k hk
        · rw [slotsOf_used ⟨hlt, ‹_›⟩]
          exact Option.some_ne_none _
      · refine ⟨rfl, j, rfl, hfull, ?_, hle, hbefore⟩
        exact slotsOf_eq_none.mpr fun h => absurd h.2 ‹_›
    · rw [if_neg fun h => hlt (length_entryAt_eq.mp h)]
      exact ⟨rfl, j, rfl, hlen, (slotsOf v.bytes).beyond j (Nat.le_of_not_lt hlt), hle, hbefore⟩

/-- `dir_lookup` opens the sector of the name, or nothing. -/
theorem onDir_dir_lookup : OnDir p ⟨false, none, b⟩ (dir_lookup (some ⟨p, pos⟩) name) fun r v' =>
    (r = none ∧ v' = ⟨false, none, b⟩ ∧ ∀ j s, (slotsOf b).slot j ≠ some (name, s)) ∨
    ∃ q j s, r = some q ∧ (slotsOf b).slot j = some (name, s) ∧ v' = ⟨false, some (q, s), b⟩ := by
  refine .op_bind ⟨rfl, rfl⟩ ?_
  rintro - _ rfl
  refine .bind readsFrom_onDir.lookup ?_
  rintro _ _ ⟨rfl, rfl⟩
  cases hfind : findEntry b name with
  | none =>
    refine .op_bind ⟨rfl, rfl⟩ ?_
    rintro - _ rfl
    exact .inl ⟨rfl, rfl, fun _ _ => findEntry_eq_none hfind _⟩
  | some j =>
    refine .op_bind rfl ?_
    rintro q _ rfl
    refine .op_bind ⟨rfl, rfl⟩ ?_
    rintro - _ rfl
    exact .inr ⟨q, j, _, rfl, slotsOf_findEntry hfind, rfl⟩

/-- `dir_add` of a name that is new and valid, at the first free slot. -/
theorem onDir_dir_add_entry (he : e.length = 20) (hname : name.length ≤ 14) (hz : 0 ∉ name)
    (hs : s < 2 ^ 32) : OnDir p ⟨true, none, b⟩ (dir_add_entry ⟨p, pos⟩ name s e) fun r v' =>
      r = true ∧ ∃ i b', v' = ⟨true, none, b'⟩ ∧ (slotsOf b).FirstFree i ∧
        slotsOf b' = (slotsOf b).put i name s ∧ b'.length = max b.length (20 * (i + 1)) := by
  refine .bind (onDir_stat _ (.inl rfl)) ?_
  rintro parent _ rfl
  have hparent : OnDir p ⟨true, none, b⟩ (inode_set_dir_parent parent s)
      fun _ v' => v' = ⟨true, none, b⟩ := by
    refine .op_bind rfl ?_
    rintro q _ rfl
    refine .op_bind ⟨s, rfl⟩ ?_
    rintro - _ rfl
    refine .op_bind ⟨s, rfl⟩ ?_
    rintro - _ rfl
    rfl
  refine .bind hparent ?_
  rintro - _ rfl
  refine .bind readsFrom_onDir.inode_length ?_
  rintro _ _ ⟨rfl, rfl⟩
  refine .bind (onDir_free_slot_loop _ 0 e (Nat.lt_succ_self _) (Nat.zero_le _) he nofun) ?_
  rintro ⟨ofs, e'⟩ _ ⟨rfl, i, rfl, he', hfree⟩
  have hi : 20 * i ≤ b.length := by
    have hle : i ≤ b.length / 20 := hfree.le
    omega
  have hlen : (newEntry e' name s).length = 20 := length_newEntry he'
  refine .op_bind ⟨rfl, hi⟩ ?_
  rintro _ _ ⟨rfl, rfl⟩
  refine ⟨?_, i, overwrite b (20 * i) (newEntry e' name s), rfl, hfree, ?_, ?_⟩
  · exact beq_iff_eq.mpr hlen
  · rw [slotsOf_put hi hlen (in_use_newEntry he' hname), name_newEntry he' hname hz,
      inode_sector_newEntry he' hname hs]
  · rw [length_overwrite hi, hlen]
    rfl

/-- `dir_add` adds a name exactly if it is valid and new. -/
theorem onDir_dir_add (he : e.length = 20) (hz : 0 ∉ name) (hs : s < 2 ^ 32) :
    OnDir p ⟨false, none, b⟩ (dir_add (some ⟨p, pos⟩) name s e) fun r v' =>
      ∃ b', v' = ⟨false, none, b'⟩ ∧
        (r = true ↔ name ≠ [] ∧ name.length ≤ 14 ∧ ∀ j s, (slotsOf b).slot j ≠ some (name, s)) ∧
        (r = true → ∃ i, (slotsOf b).FirstFree i ∧ slotsOf b' = (slotsOf b).put i name s ∧
          b'.length = max b.length (20 * (i + 1))) ∧
        (r = false → b' = b) := by
  refine .op_bind ⟨rfl, rfl⟩ ?_
  rintro - _ rfl
  split
  · rename_i hinvalid
    refine .op_bind ⟨rfl, rfl⟩ ?_
    rintro - _ rfl
    refine ⟨b, rfl, ⟨nofun, fun ⟨hne, hlen, _⟩ => ?_⟩, nofun, fun _ => rfl⟩
    rcases hinvalid with hnil | hlong
    · exact absurd hnil hne
    · exact absurd hlen (Nat.not_le.mpr hlong)
  · rename_i hvalid
    rw [not_or, Nat.not_lt] at hvalid
    refine .bind readsFrom_onDir.lookup ?_
    rintro _ _ ⟨rfl, rfl⟩
    cases hfind : findEntry b name with
    | some j =>
      refine .op_bind ⟨rfl, rfl⟩ ?_
      rintro - _ rfl
      exact ⟨b, rfl, ⟨nofun, fun h => absurd (slotsOf_findEntry hfind) (h.2.2 j _)⟩, nofun,
        fun _ => rfl⟩
    | none =>
      refine .bind (onDir_dir_add_entry he hvalid.2 hz hs) ?_
      rintro _ _ ⟨rfl, i, b', rfl, hfree, hslots, hlen⟩
      refine .op_bind ⟨rfl, rfl⟩ ?_
      rintro - _ rfl
      exact ⟨b', rfl, iff_of_true rfl ⟨hvalid.1, hvalid.2, fun j s => findEntry_eq_none hfind s⟩,
        fun _ => ⟨i, hfree, hslots, hlen⟩, nofun⟩

/-- Whatever the checks of `dir_remove` find, they change nothing. -/
theorem onDir_dir_removable {q : Addr} (hq : v.HasChild q) :
    OnDir p v (dir_removable q) fun _ v' => v' = v := by
  have hloop : ∀ turns ofs, OnDir p v (dir_is_empty_loop q turns ofs) fun _ v' => v' = v := by
    intro turns
    induction turns with
    | zero => exact fun _ => rfl
    | succ turns ih =>
      intro ofs
      refine .op_bind (.inr hq) ?_
      rintro r v ⟨rfl, -⟩
      split
      · split
        · rfl
        · exact ih _
      · rfl
  refine .bind (onDir_stat _ (.inr hq)) ?_
  rintro is_dir v rfl
  refine .bind (onDir_stat _ (.inr hq)) ?_
  rintro open_cnt v rfl
  split
  · rfl
  · split
    · refine .bind (onDir_stat _ (.inr hq)) ?_
      rintro length v rfl
      exact hloop _ _
    · rfl

/-- `dir_remove` clears the slot of the name, or leaves the directory. -/
theorem onDir_dir_remove : OnDir p ⟨false, none, b⟩ (dir_remove (some ⟨p, pos⟩) name) fun r v' =>
    ∃ b', v' = ⟨false, none, b'⟩ ∧ b'.length = b.length ∧
      (r = true → ∃ j s, (slotsOf b).slot j = some (name, s) ∧ slotsOf b' = (slotsOf b).clear j) ∧
      (r = false → b' = b) := by
  refine .op_bind ⟨rfl, rfl⟩ ?_
  rintro - _ rfl
  refine .bind readsFrom_onDir.lookup ?_
  rintro _ _ ⟨rfl, rfl⟩
  cases hfind : findEntry b name with
  | none =>
    refine .op_bind trivial ?_
    rintro - _ rfl
    refine .op_bind ⟨rfl, rfl⟩ ?_
    rintro - _ rfl
    exact ⟨b, rfl, rfl, nofun, fun _ => rfl⟩
  | some j =>
    obtain ⟨⟨hj, -⟩, -⟩ := findEntry_used hfind
    have hle : 20 * j ≤ b.length := by
      have : j < b.length / 20 := hj
      omega
    have he : (entryAt b j).length = 20 := length_entryAt_eq.mpr hj
    refine .op_bind rfl ?_
    rintro q _ rfl
    have hentry : OnDir p ⟨true, some (q, inode_sector (entryAt b j)), b⟩
        (dir_remove_entry ⟨p, pos⟩ q (entryAt b j) (20 * j)) fun r v' =>
        ∃ b', v' = ⟨true, some (q, inode_sector (entryAt b j)), b'⟩ ∧
          b'.length = b.length ∧ (r = true → slotsOf b' = (slotsOf b).clear j) ∧
          (r = false → b' = b) := by
      refine .bind (onDir_dir_removable ⟨_, rfl⟩) ?_
      rintro removable _ rfl
      split
      · refine .op_bind ⟨rfl, hle⟩ ?_
        rintro _ _ ⟨rfl, rfl⟩
        rw [if_pos ((length_set_in_use false).trans he)]
        refine .op_bind ⟨_, rfl⟩ ?_
        rintro - _ rfl
        refine ⟨_, rfl, ?_, fun _ => ?_, nofun⟩
        · rw [length_overwrite hle, length_set_in_use, he]
          have : j < b.length / 20 := hj
          omega
        · exact slotsOf_clear hj ((length_set_in_use false).trans he) (in_use_set_in_use he)
      · exact ⟨b, rfl, rfl, nofun, fun _ => rfl⟩
    refine .bind hentry ?_
    rintro r _ ⟨b', rfl, hlen, htrue, hfalse⟩
    refine .op_bind ⟨_, rfl⟩ ?_
    rintro - _ rfl
    refine .op_bind ⟨rfl, rfl⟩ ?_
    rintro - _ rfl
    exact ⟨b', rfl, hlen, fun hr => ⟨j, _, slotsOf_findEntry hfind, htrue hr⟩, hfalse⟩

end Calls

/-! ### Runs -/

section Runs

variable {K : Type} {I : FsApi K} {p : Addr} {R : DirView → K → Prop}
  {start : List UInt8} {changes : List (Change (List UInt8) Sector)} {k : K}

/-- The operations return and keep to the contract, as `R` sees their state. -/
def Implements (I : FsApi K) (p : Addr) (R : DirView → K → Prop) : Prop :=
  ∀ o v k, DirView.pre p v o → R v k →
    (I o).Returns k fun r k' => ∃ v', DirView.post p v o r v' ∧ R v' k'

theorem Implements.returns {α : Type} {m : FsProg α} {v : DirView} {Q : α → DirView → Prop}
    (h : Implements I p R) (hm : OnDir p v m Q) (hk : R v k) :
    (m.run I).Returns k fun a k' => ∃ v', Q a v' ∧ R v' k' := Prog.Meets.returns h hm hk

/-- A call of `dir_add` or `dir_remove` on the directory, or what else leaves it alone.  A call that
succeeds is a change of the map. -/
inductive DirStep (I : FsApi K) (p : Addr) (R : DirView → K → Prop)
    (changes : List (Change (List UInt8) Sector)) (k : K) :
    List (Change (List UInt8) Sector) → K → Prop where
  | elsewhere {k' : K} (h : ∀ b, R ⟨false, none, b⟩ k → R ⟨false, none, b⟩ k') :
      DirStep I p R changes k changes k'
  | adds {k' : K} {pos : Nat} {name e : List UInt8} {s : Sector} {es : List Event} (hz : 0 ∉ name)
      (hs : s < 2 ^ 32) (he : e.length = ENTRY_SIZE)
      (h : (dir_add (some ⟨p, pos⟩) name s e).run I k = (es, .done true k')) :
      DirStep I p R changes k (.added name s :: changes) k'
  | add_fails {k' : K} {pos : Nat} {name e : List UInt8} {s : Sector} {es : List Event}
      (hz : 0 ∉ name) (hs : s < 2 ^ 32) (he : e.length = ENTRY_SIZE)
      (h : (dir_add (some ⟨p, pos⟩) name s e).run I k = (es, .done false k')) :
      DirStep I p R changes k changes k'
  | removes {k' : K} {pos : Nat} {name : List UInt8} {es : List Event}
      (h : (dir_remove (some ⟨p, pos⟩) name).run I k = (es, .done true k')) :
      DirStep I p R changes k (.removed name :: changes) k'
  | remove_fails {k' : K} {pos : Nat} {name : List UInt8} {es : List Event}
      (h : (dir_remove (some ⟨p, pos⟩) name).run I k = (es, .done false k')) :
      DirStep I p R changes k changes k'

/-- Calls on one directory, whose bytes are `start` before the first. -/
inductive DirRun (I : FsApi K) (p : Addr) (R : DirView → K → Prop)
    (start : List UInt8) : List (Change (List UInt8) Sector) → K → Prop where
  | start {k : K} (h : R ⟨false, none, start⟩ k) : DirRun I p R start [] k
  | step {changes changes' : List (Change (List UInt8) Sector)} {k k' : K}
      (run : DirRun I p R start changes k) (h : DirStep I p R changes k changes' k') :
      DirRun I p R start changes' k'

/-- The slots hold the map that the changes make, and the names are valid. -/
structure DirHolds (b : List UInt8) (changes : List (Change (List UInt8) Sector)) : Prop where
  holds : (slotsOf b).Holds changes
  names : ∀ name, Change.map changes name ≠ none → name.length ≤ 14

theorem DirHolds.absent {b name : List UInt8} (h : DirHolds b changes) :
    (∀ j s, (slotsOf b).slot j ≠ some (name, s)) ↔ Change.map changes name = none := by
  rw [Option.eq_none_iff_forall_ne_some]
  refine ⟨fun hno s hs => ?_, fun hno j s hj => hno s ((h.holds.map name s).mp ⟨j, hj⟩)⟩
  obtain ⟨j, hj⟩ := (h.holds.map name s).mpr hs
  exact hno j s hj

/-- What a step does to the slots, and to the length of the directory. -/
theorem DirStep.slots {changes' : List (Change (List UInt8) Sector)} {k' : K} {b : List UInt8}
    (himp : Implements I p R) (h : DirStep I p R changes k changes' k')
    (hk : R ⟨false, none, b⟩ k) (hb : DirHolds b changes) :
    ∃ b', R ⟨false, none, b'⟩ k' ∧ DirHolds b' changes' ∧
      (slotsOf b).Step changes (slotsOf b') changes' ∧
      b'.length = max b.length (20 * (slotsOf b').count) := by
  have hcount : 20 * (slotsOf b).count ≤ b.length := Nat.mul_div_le b.length 20
  have hsame : ∀ {k'}, R ⟨false, none, b⟩ k' → ∃ b', R ⟨false, none, b'⟩ k' ∧ DirHolds b' changes ∧
      (slotsOf b).Step changes (slotsOf b') changes ∧
      b'.length = max b.length (20 * (slotsOf b').count) := fun hk' =>
    ⟨b, hk', hb, .same, (max_eq_left hcount).symm⟩
  cases h with
  | elsewhere h => exact hsame (h b hk)
  | @adds _ pos name e s es hz hs he h =>
    obtain ⟨_, ⟨b', rfl, hiff, htrue, -⟩, hk'⟩ :=
      (himp.returns (onDir_dir_add he hz hs) hk).of_done h
    obtain ⟨-, hname, habsent⟩ := hiff.mp rfl
    obtain ⟨i, hfree, hslots, hlen⟩ := htrue rfl
    have hstep : (slotsOf b).Step changes (slotsOf b') (.added name s :: changes) :=
      hslots ▸ .put hfree (hb.absent.mp habsent)
    refine ⟨b', hk', ⟨hstep.holds hb.holds, fun n hn => ?_⟩, hstep, ?_⟩
    · by_cases he : n = name
      · exact he ▸ hname
      · exact hb.names n (by rwa [Change.map, if_neg he] at hn)
    · have : (slotsOf b').count = max (slotsOf b).count (i + 1) := by
        rw [hslots]
        rfl
      omega
  | add_fails hz hs he h =>
    obtain ⟨_, ⟨b', rfl, -, -, hfalse⟩, hk'⟩ :=
      (himp.returns (onDir_dir_add he hz hs) hk).of_done h
    obtain rfl := hfalse rfl
    exact hsame hk'
  | @removes _ pos name es h =>
    obtain ⟨_, ⟨b', rfl, hlen, htrue, -⟩, hk'⟩ := (himp.returns onDir_dir_remove hk).of_done h
    obtain ⟨j, s, hj, hslots⟩ := htrue rfl
    have hstep : (slotsOf b).Step changes (slotsOf b') (.removed name :: changes) :=
      hslots ▸ .clear hj
    refine ⟨b', hk', ⟨hstep.holds hb.holds, fun n hn => hb.names n fun hnone => hn ?_⟩, hstep, ?_⟩
    · rw [Change.map, hnone, ite_self]
    · have : (slotsOf b').count = (slotsOf b).count := by
        rw [hslots]
        rfl
      omega
  | remove_fails h =>
    obtain ⟨_, ⟨b', rfl, -, -, hfalse⟩, hk'⟩ := (himp.returns onDir_dir_remove hk).of_done h
    obtain rfl := hfalse rfl
    exact hsame hk'

/-- The directory holds the map that the calls made, and is as long as it has to be. -/
theorem DirRun.holds (himp : Implements I p R) (hempty : ∀ j, ¬ UsedEntry start j)
    (run : DirRun I p R start changes k) : ∃ b, R ⟨false, none, b⟩ k ∧ DirHolds b changes ∧
      b.length = max start.length (20 * Change.peak changes) := by
  induction run with
  | start h =>
    refine ⟨start, h, ⟨.nil fun j => slotsOf_eq_none.mpr (hempty j), fun _ hn => ?_⟩, ?_⟩
    · exact absurd rfl hn
    · exact (max_eq_left (Nat.zero_le _)).symm
  | @step changes changes' k k' _ h ih =>
    obtain ⟨b, hk, hb, hlen⟩ := ih
    obtain ⟨b', hk', hb', hstep, hlen'⟩ := h.slots himp hk hb
    have hcount : (slotsOf b).count = max (start.length / 20) (Change.peak changes) := by
      show b.length / 20 = _
      omega
    have hcount' := hstep.count hb.holds hcount
    have hpeak := hstep.peak_le
    exact ⟨b', hk', hb', by omega⟩

/-- **A directory is a map from names to sectors.**  After any calls of `dir_add` and `dir_remove`,
`dir_lookup` finds exactly the names that were added and not removed since, and opens the sector
they were added with; `dir_add` adds exactly the valid names that are not there; and the directory
is no longer than the names that were there at once need. -/
theorem directory_map (himp : Implements I p R) (hempty : ∀ j, ¬ UsedEntry start j)
    (run : DirRun I p R start changes k) :
    (∀ pos name, ((dir_lookup (some ⟨p, pos⟩) name).run I).Returns k fun r k' =>
      (r ≠ none ↔ Change.map changes name ≠ none) ∧
      ∀ q ∈ r, ∃ s b, Change.map changes name = some s ∧ R ⟨false, some (q, s), b⟩ k') ∧
    (∀ pos name s e, 0 ∉ name → s < 2 ^ 32 → e.length = ENTRY_SIZE →
      ((dir_add (some ⟨p, pos⟩) name s e).run I).Returns k fun r _ =>
        (r = true ↔ Change.map changes name = none ∧ 1 ≤ name.length ∧ name.length ≤ 14)) ∧
    (∀ pos name, ((dir_remove (some ⟨p, pos⟩) name).run I).Returns k fun r _ =>
      r = true → Change.map changes name ≠ none) ∧
    ((inode_length p).run I).Returns k fun n _ =>
      n = max start.length (20 * Change.peak changes) ∧
      (start = [] → n = 20 * Change.peak changes) := by
  obtain ⟨b, hk, hb, hlen⟩ := run.holds himp hempty
  refine ⟨fun pos name => ?_, fun pos name s e hz hs he => ?_, fun pos name => ?_, ?_⟩
  · refine (himp.returns onDir_dir_lookup hk).mono ?_
    rintro r k' ⟨_, ⟨rfl, -, habsent⟩ | ⟨q, j, s, rfl, hj, rfl⟩, hk'⟩
    · exact ⟨iff_of_false (fun h => h rfl) (fun h => h (hb.absent.mp habsent)), nofun⟩
    · have hmap := (hb.holds.map name s).mp ⟨j, hj⟩
      refine ⟨iff_of_true (Option.some_ne_none q) (by rw [hmap]; exact Option.some_ne_none s), ?_⟩
      rintro _ ⟨⟩
      exact ⟨s, b, hmap, hk'⟩
  · refine (himp.returns (onDir_dir_add he hz hs) hk).mono ?_
    rintro r k' ⟨_, ⟨b', -, hiff, -⟩, -⟩
    rw [hiff, hb.absent, ← length_pos_iff]
    exact ⟨fun ⟨h₁, h₂, h₃⟩ => ⟨h₃, h₁, h₂⟩, fun ⟨h₃, h₁, h₂⟩ => ⟨h₁, h₂, h₃⟩⟩
  · refine (himp.returns onDir_dir_remove hk).mono ?_
    rintro r k' ⟨_, ⟨b', -, -, htrue, -⟩, -⟩ hr
    obtain ⟨j, s, hj, -⟩ := htrue hr
    rw [(hb.holds.map name s).mp ⟨j, hj⟩]
    exact Option.some_ne_none s
  · refine (himp.returns readsFrom_onDir.inode_length hk).mono ?_
    rintro n k' ⟨_, ⟨-, rfl⟩, -⟩
    refine ⟨hlen, fun hnil => ?_⟩
    show b.length = _
    rw [hlen, hnil]
    exact Nat.max_eq_right (Nat.zero_le _)

end Runs

/-! ### A byte array that grows -/

/-- The contract, implemented by its own state: every inode but the directory is at address 0. -/
def array_api : FsApi DirView
  | .inode_lock_acquire _ => Machine.modify fun v => { v with locked := true }
  | .inode_lock_release _ => Machine.modify fun v => { v with locked := false }
  | .inode_stat _ => do
    let v ← Machine.get
    pure ⟨0, 1, false, 0, v.bytes.length⟩
  | .inode_read_at _ size offset => do
    let v ← Machine.get
    pure ((v.bytes.drop offset).take size)
  | .inode_write_at _ buffer offset => do
    Machine.modify fun v => { v with bytes := overwrite v.bytes offset buffer }
    pure buffer.length
  | .inode_open s => do
    Machine.modify fun v => { v with child := some (0, s) }
    pure 0
  | .inode_close (some _) => Machine.modify fun v => { v with child := none }
  | .inode_close none | .inode_remove _ | .set_dir_parent _ _ => pure ()
  | _ => Machine.panic

theorem implements_array_api (p : Addr) : Implements array_api p Eq := by
  rintro o v _ hpre rfl
  cases o with
  | inode_lock_acquire | inode_lock_release => exact ⟨_, _, _, rfl, _, rfl, rfl⟩
  | inode_stat => exact ⟨_, _, _, rfl, _, ⟨rfl, fun _ => rfl⟩, rfl⟩
  | inode_read_at => exact ⟨_, _, _, rfl, _, ⟨rfl, fun _ => rfl⟩, rfl⟩
  | inode_write_at => exact ⟨_, _, _, rfl, _, ⟨rfl, rfl⟩, rfl⟩
  | inode_open | inode_remove | set_dir_parent => exact ⟨_, _, _, rfl, _, rfl, rfl⟩
  | inode_close q => cases q <;> exact ⟨_, _, _, rfl, _, rfl, rfl⟩
  | _ => cases hpre

/-- The name `a`, added with sector 7, is found there. -/
theorem directory_map_added : ∃ k, DirRun array_api 1 Eq [] [.added [97] 7] k ∧
    ((dir_lookup (some ⟨1, 0⟩) [97]).run array_api).Returns k fun r k' =>
      ∃ q b, r = some q ∧ k' = ⟨false, some (q, 7), b⟩ := by
  have hadd : (returned ((dir_add (some ⟨1, 0⟩) [97] 7 (List.replicate 20 0)).run array_api
      ⟨false, none, []⟩)).map (fun r => r.2.1) = some true := by decide +kernel
  obtain ⟨⟨es, ok, k⟩, hrun, hok⟩ := Option.map_eq_some_iff.mp hadd
  obtain rfl : ok = true := hok
  have run : DirRun array_api 1 Eq [] [.added [97] 7] k :=
    .step (.start rfl) (.adds (by decide) (by decide) rfl (returned_eq_some hrun))
  refine ⟨k, run, ?_⟩
  obtain ⟨hlookup, -⟩ :=
    directory_map (implements_array_api 1) (by simp [UsedEntry, entryCount]) run
  refine (hlookup 0 [97]).mono ?_
  rintro r k' ⟨hiff, hopen⟩
  cases r with
  | none => exact absurd rfl (hiff.mpr (by decide))
  | some q =>
    obtain ⟨s, b, hs, rfl⟩ := hopen q rfl
    cases hs
    exact ⟨q, b, rfl, rfl⟩

end Pintos
