import Pintos.Filesys.DiskApi
import Pintos.Filesys.TableRuns
import Pintos.Userprog.Syscall

/-!
# Userprog — the user memory that a system call touches

`TouchesMapped pages m p`: on the pages `pages` with the contents `m`, the program `p` reads and
writes mapped bytes of the user only, whatever the file system, the other processes and the fields of
the calling process answer.  A read of a file gives no more bytes than were asked for.

`syscall_handler` looks at the first byte of the words 0 and 1 of the stack; only these two words
are sure to end the process if they are not mapped.  `handler_touches_mapped_iff` says for which
stacks and page mappings a system call touches mapped memory only.  `is_valid_filename_exact_iff`
is about what the check of a file name returns.
-/

namespace Pintos
open Support List Function
open Machine (bind_run get_run pure_run)

/-! ### The contract -/

/-- The operation does not touch memory that is not mapped. -/
def touch_ok (pages : Finset Nat) (_ : Nat → UInt8) : SysOp → Prop
  | .load address | .store address _ => UserMapped pages address
  | .pagedir_get_page address => is_user_vaddr address = true
  | .pagedir_create | .install_page _ _ _ => False
  | _ => True

/-- The answers, and what memory holds then. -/
def answer_ok (pages : Finset Nat) (m : Nat → UInt8) : ∀ o : SysOp, o.Res → (Nat → UInt8) → Prop
  | .pagedir_get_page address, r, m' => r = decide (address / PGSIZE ∈ pages) ∧ m' = m
  | .load address, r, m' => r = m address ∧ m' = m
  | .store address byte, _, m' => m' = update m address byte
  | .fs (.inode_read_at _ size _), r, m' => r.length ≤ size ∧ m' = m
  | _, _, m' => m' = m

/-- `p` touches mapped memory only, and then meets `Q`. -/
abbrev Touching {α : Type} (pages : Finset Nat) (Q : α → (Nat → UInt8) → Prop) (p : SysProg α)
    (m : Nat → UInt8) : Prop := p.Meets (touch_ok pages) (answer_ok pages) Q m

/-- `p` touches mapped memory only. -/
def TouchesMapped {α : Type} (pages : Finset Nat) (m : Nat → UInt8) (p : SysProg α) : Prop :=
  Touching pages (fun _ _ => True) p m

/-! ### Words and strings -/

/-- Word `i` of the stack is mapped, on all of its bytes. -/
def WordMapped (pages : Finset Nat) (esp i : Nat) : Prop :=
  ∀ j < 4, UserMapped pages (ptr (esp + 4 * i + j))

instance (pages : Finset Nat) (esp i : Nat) : Decidable (WordMapped pages esp i) :=
  inferInstanceAs (Decidable (∀ j < 4, _))

/-- Word `i` of the stack. -/
def wordAt (m : Nat → UInt8) (esp i : Nat) : Nat :=
  Bytes.word (m (ptr (esp + 4 * i))) (m (ptr (esp + 4 * i + 1))) (m (ptr (esp + 4 * i + 2)))
    (m (ptr (esp + 4 * i + 3)))

/-- The first `n` bytes at `address` are mapped. -/
def BytesMapped (pages : Finset Nat) (address n : Nat) : Prop :=
  ∀ i < n, UserMapped pages (ptr (address + i))

/-- The string at `address` is mapped, up to and with a null byte. -/
def StringMapped (pages : Finset Nat) (m : Nat → UInt8) (address : Nat) : Prop :=
  ∃ n, BytesMapped pages address (n + 1) ∧ m (ptr (address + n)) = 0

section Mapped

variable {pages : Finset Nat} {m : Nat → UInt8} {address n : Nat}

theorem bytesMapped_succ : BytesMapped pages address (n + 1) ↔
    UserMapped pages (ptr address) ∧ BytesMapped pages (address + 1) n := by
  refine ⟨fun h => ⟨h 0 (Nat.succ_pos n), fun i hi => ?_⟩, fun h i hi => ?_⟩
  · have := h (i + 1) (Nat.succ_lt_succ hi)
    rwa [← Nat.add_assoc, Nat.add_right_comm] at this
  · cases i with
    | zero => exact h.1
    | succ i =>
      have := h.2 i (Nat.lt_of_succ_lt_succ hi)
      rwa [Nat.add_right_comm] at this

theorem BytesMapped.le {k : Nat} (h : BytesMapped pages address n) (hk : k ≤ n) :
    BytesMapped pages address k := fun i hi => h i (hi.trans_le hk)

/-- A string that does not end at its first byte. -/
theorem exists_null_succ {turns : Nat} (hz : m (ptr address) ≠ 0) :
    (∃ n < turns + 1, BytesMapped pages address (n + 1) ∧ m (ptr (address + n)) = 0) ↔
      UserMapped pages (ptr address) ∧
        ∃ n < turns, BytesMapped pages (address + 1) (n + 1) ∧ m (ptr (address + 1 + n)) = 0 := by
  constructor
  · rintro ⟨n, hn, hm, hzero⟩
    cases n with
    | zero => exact absurd hzero hz
    | succ n =>
      obtain ⟨h₀, hm⟩ := bytesMapped_succ.mp hm
      rw [← Nat.add_assoc, Nat.add_right_comm] at hzero
      exact ⟨h₀, n, Nat.lt_of_succ_lt_succ hn, hm, hzero⟩
  · rintro ⟨h₀, n, hn, hm, hzero⟩
    rw [Nat.add_right_comm] at hzero
    exact ⟨n + 1, Nat.succ_lt_succ hn, bytesMapped_succ.mpr ⟨h₀, hm⟩, hzero⟩

/-- No string without a null byte is mapped: the kernel is above. -/
theorem not_bytesMapped (h : 4294967296 ≤ n) : ¬ BytesMapped pages address n := by
  intro hm
  have hlt := (hm (4294967295 - address % 4294967296) (by omega)).1
  rw [ptr, show (address + (4294967295 - address % 4294967296)) % 4294967296 = 4294967295 by omega]
    at hlt
  exact absurd hlt (by decide)

end Mapped

section Rules

variable {pages : Finset Nat} {m : Nat → UInt8} {α : Type} {address esp i n : Nat}
  {Q : List UInt8 → (Nat → UInt8) → Prop}

theorem touching_bind {β : Type} {p : SysProg α} {f : α → SysProg β} {Q : β → (Nat → UInt8) → Prop} :
    Touching pages Q (p >>= f) m ↔ Touching pages (fun a => Touching pages Q (f a)) p m :=
  Prog.meets_bind

theorem touching_load {Q : UInt8 → (Nat → UInt8) → Prop} :
    Touching pages Q (sys (.load address)) m ↔ UserMapped pages address ∧ Q (m address) m := by
  refine and_congr_right fun _ => ⟨fun h => h _ _ ⟨rfl, rfl⟩, ?_⟩
  rintro h r m' ⟨rfl, rfl⟩
  exact h

theorem touching_store {byte : UInt8} {Q : Unit → (Nat → UInt8) → Prop} :
    Touching pages Q (sys (.store address byte)) m ↔
      UserMapped pages address ∧ Q () (update m address byte) := by
  refine and_congr_right fun _ => ⟨fun h => h () _ rfl, ?_⟩
  rintro h ⟨⟩ m' rfl
  exact h

theorem touching_is_mapped {Q : Bool → (Nat → UInt8) → Prop} :
    Touching pages Q (is_mapped address) m ↔ Q (decide (UserMapped pages (ptr address))) m := by
  unfold is_mapped
  split
  · rename_i h
    have hlt : ptr address < PHYS_BASE := by simpa [is_user_vaddr] using h
    have hd : decide (UserMapped pages (ptr address)) = decide (ptr address / PGSIZE ∈ pages) := by
      simp only [UserMapped, hlt, true_and]
    rw [hd]
    refine ⟨fun hQ => hQ.2 _ _ ⟨rfl, rfl⟩, fun hQ => ⟨h, ?_⟩⟩
    rintro r m' ⟨rfl, rfl⟩
    exact hQ
  · rename_i h
    have hlt : ¬ ptr address < PHYS_BASE := by simpa [is_user_vaddr] using h
    rw [decide_eq_false fun hm : UserMapped pages (ptr address) => hlt hm.1]
    exact Iff.rfl

theorem touching_exit {status : Int} {Q : α → (Nat → UInt8) → Prop} :
    Touching pages Q (exit status) m := ⟨trivial, fun r => nomatch r⟩

theorem touching_is_valid_addr {Q : Unit → (Nat → UInt8) → Prop} :
    Touching pages Q (is_valid_addr address) m ↔ (UserMapped pages (ptr address) → Q () m) := by
  rw [is_valid_addr, touching_bind, touching_is_mapped]
  by_cases h : UserMapped pages (ptr address)
  · rw [decide_eq_true h, if_pos rfl]
    exact ⟨fun hQ _ => hQ, fun hQ => hQ h⟩
  · rw [decide_eq_false h, if_neg Bool.false_ne_true]
    exact ⟨fun _ hm => absurd hm h, fun _ => touching_exit⟩

theorem touching_load_bytes : Touching pages Q (load_bytes n address) m ↔
      BytesMapped pages address n ∧ Q ((List.range n).map fun i => m (ptr (address + i))) m := by
  induction n generalizing address Q with
  | zero => exact ⟨fun h => ⟨nofun, h⟩, fun h => h.2⟩
  | succ n ih =>
    rw [load_bytes, touching_bind, touching_load, touching_bind, ih, ← and_assoc,
      bytesMapped_succ, range_succ_eq_map, List.map_cons, List.map_map]
    have hmap : (fun i => m (ptr (address + 1 + i))) =
        (fun i => m (ptr (address + i))) ∘ Nat.succ := by
      funext i
      rw [comp_apply, Nat.add_right_comm, Nat.add_assoc]
    rw [hmap]
    exact Iff.rfl

theorem touching_load_word {Q : Nat → (Nat → UInt8) → Prop} :
    Touching pages Q (load_word esp i) m ↔ WordMapped pages esp i ∧ Q (wordAt m esp i) m := by
  rw [load_word, touching_bind, touching_load_bytes]
  exact Iff.rfl

theorem touching_store_bytes {bytes : List UInt8} {Q : Unit → (Nat → UInt8) → Prop}
    (hQ : ∀ m, Q () m) :
    Touching pages Q (store_bytes bytes address) m ↔ BytesMapped pages address bytes.length := by
  induction bytes generalizing address m with
  | nil => exact ⟨fun _ => nofun, fun _ => hQ m⟩
  | cons byte bytes ih =>
    rw [store_bytes, touching_bind, touching_store, ih, length_cons, bytesMapped_succ]

/-- The string is read up to its null byte, or for `turns` characters. -/
theorem touching_load_string_loop (hQ : ∀ s, Q s m) (turns : Nat) :
    Touching pages Q (load_string_loop turns address) m ↔
      (∃ n < turns, BytesMapped pages address (n + 1) ∧ m (ptr (address + n)) = 0) ∨
        BytesMapped pages address turns := by
  induction turns generalizing address Q with
  | zero => exact ⟨fun _ => .inr nofun, fun _ => hQ []⟩
  | succ turns ih =>
    rw [load_string_loop, touching_bind, touching_load]
    by_cases hz : m (ptr address) = 0
    · rw [if_pos hz]
      constructor
      · exact fun h => .inl ⟨0, Nat.succ_pos _, bytesMapped_succ.mpr ⟨h.1, nofun⟩, hz⟩
      · rintro (⟨n, -, hn, -⟩ | h)
        · exact ⟨(bytesMapped_succ.mp hn).1, hQ _⟩
        · exact ⟨(bytesMapped_succ.mp h).1, hQ _⟩
    · have hrest : Touching pages (fun s => Touching pages Q (pure (m (ptr address) :: s)))
          (load_string_loop turns (address + 1)) m ↔ _ := ih fun s => hQ (m (ptr address) :: s)
      rw [if_neg hz, touching_bind, hrest, exists_null_succ hz, bytesMapped_succ, and_or_left]

theorem touching_load_string (hQ : ∀ s, Q s m) :
    Touching pages Q (load_string address) m ↔ StringMapped pages m address := by
  rw [load_string, touching_load_string_loop hQ]
  constructor
  · rintro (⟨n, -, hn⟩ | h)
    · exact ⟨n, hn⟩
    · exact absurd h (not_bytesMapped le_rfl)
  · rintro ⟨n, hn⟩
    refine .inl ⟨n, Nat.lt_of_not_le fun hle => ?_, hn⟩
    exact not_bytesMapped (hle.trans (Nat.le_succ n)) hn.1

/-- The file system does not touch the memory of the user. -/
theorem touching_on_fs {p : FsProg α} {Q : α → (Nat → UInt8) → Prop} (hQ : ∀ a, Q a m) :
    Touching pages Q (on_fs p) m := by
  induction p with
  | done a => exact hQ a
  | call o next ih =>
    refine ⟨trivial, fun r m' hr => ?_⟩
    obtain rfl : m' = m := by
      cases o <;> first | exact hr | exact hr.2
    exact ih r

/-- An operation that does not touch it. -/
theorem touching_sys {o : SysOp} {Q : o.Res → (Nat → UInt8) → Prop} (ho : touch_ok pages m o)
    (hm : ∀ r m', answer_ok pages m o r m' → m' = m) (hQ : ∀ r, Q r m) :
    Touching pages Q (sys o) m := ⟨ho, fun r m' hr => hm r m' hr ▸ hQ r⟩

end Rules

/-! ### File names -/

section FileName

variable {pages : Finset Nat} {m : Nat → UInt8} {address n : Nat} {Q : Int → (Nat → UInt8) → Prop}
  {v : Int}

/-- Byte `i` at `address` is a character of a string. -/
def NameByte (pages : Finset Nat) (m : Nat → UInt8) (address i : Nat) : Prop :=
  UserMapped pages (ptr (address + i)) ∧ m (ptr (address + i)) ≠ 0

/-- The characters stop at byte `n`, and `is_valid_filename` may return `v`. -/
def NameStops (pages : Finset Nat) (m : Nat → UInt8) (address n : Nat) (v : Int) : Prop :=
  (∀ i < n, NameByte pages m address i) ∧
    (¬ UserMapped pages (ptr (address + n)) ∧ v = -1 ∨
      UserMapped pages (ptr (address + n)) ∧ m (ptr (address + n)) = 0 ∧ (n = 0 ∨ v = n))

theorem NameStops.not_named (h : NameStops pages m address n v) :
    ¬ NameByte pages m address n := fun hn => by
  rcases h.2 with h | h
  · exact h.1 hn.1
  · exact hn.2 h.2.1

theorem NameStops.le {k : Nat} (h : NameStops pages m address n v)
    (hk : ¬ NameByte pages m address k) : n ≤ k :=
  Nat.le_of_not_lt fun hlt => hk (h.1 k hlt)

theorem touching_filename_loop {turns len : Nat} (hlen : ∀ i < len, NameByte pages m address i) :
    Touching pages Q (is_valid_filename_loop address turns len) m ↔
      (∀ n v, len ≤ n → n < len + turns → NameStops pages m address n v → Q v m) ∧
        ((∀ i < len + turns, NameByte pages m address i) → Q (-2) m) := by
  induction turns generalizing len with
  | zero => exact ⟨fun h => ⟨fun _ _ _ _ => by omega, fun _ => h⟩, fun h => h.2 hlen⟩
  | succ turns ih =>
    -- where the characters stop here, they stop nowhere else
    have hstop : ¬ NameByte pages m address len →
        (((∀ n v, len ≤ n → n < len + (turns + 1) → NameStops pages m address n v → Q v m) ∧
          ((∀ i < len + (turns + 1), NameByte pages m address i) → Q (-2) m)) ↔
        ∀ v, NameStops pages m address len v → Q v m) := fun hnot => by
      refine ⟨fun h v hv => h.1 len v le_rfl (by omega) hv, fun h => ⟨fun n v hn _ hv => ?_, ?_⟩⟩
      · obtain rfl : n = len := Nat.le_antisymm (hv.le hnot) hn
        exact h v hv
      · exact fun hall => absurd (hall len (by omega)) hnot
    rw [is_valid_filename_loop, touching_bind, touching_is_mapped]
    by_cases hm : UserMapped pages (ptr (address + len))
    · rw [decide_eq_true hm, if_pos rfl, touching_bind, touching_load]
      by_cases hz : m (ptr (address + len)) = 0
      · rw [if_pos hz, hstop fun h => h.2 hz, and_iff_right hm]
        by_cases hmin : MIN_FILENAME_LENGTH ≤ len
        · rw [if_pos hmin]
          refine ⟨fun h v hv => ?_, fun h => h len ⟨hlen, Or.inr ⟨hm, hz, Or.inr rfl⟩⟩⟩
          rcases hv.2 with hv | ⟨-, -, hv⟩
          · exact absurd hm hv.1
          · obtain rfl : v = len := hv.resolve_left (Nat.ne_of_gt hmin)
            exact h
        · rw [if_neg hmin]
          refine ⟨fun h v _ => h.2 v m rfl, fun h => ⟨trivial, fun v m' hm' => ?_⟩⟩
          obtain rfl : m' = m := hm'
          exact h v ⟨hlen, Or.inr ⟨hm, hz, Or.inl (Nat.eq_zero_of_not_pos hmin)⟩⟩
      · have hnext : ∀ i < len + 1, NameByte pages m address i := fun i hi => by
          rcases Nat.lt_succ_iff_lt_or_eq.mp hi with hi | rfl
          · exact hlen i hi
          · exact ⟨hm, hz⟩
        rw [if_neg hz, ih hnext, and_iff_right hm, show len + 1 + turns = len + (turns + 1) by omega]
        refine and_congr_left fun _ => ⟨fun h n v hn hlt hv => ?_, fun h n v hn => h n v (by omega)⟩
        have hne : n ≠ len := fun hn => hv.not_named (hn ▸ ⟨hm, hz⟩)
        exact h n v (by omega) hlt hv
    · rw [decide_eq_false hm, if_neg Bool.false_ne_true, hstop fun h => hm h.1]
      refine ⟨fun h v hv => ?_, fun h => h (-1) ⟨hlen, Or.inl ⟨hm, rfl⟩⟩⟩
      rcases hv.2 with hv | hv
      · rw [hv.2]
        exact h
      · exact absurd hv.1 hm

/-- What `is_valid_filename` may return. -/
theorem touching_filename_iff :
    Touching pages Q (is_valid_filename address) m ↔
      (∀ n v, n < 15 → NameStops pages m address n v → Q v m) ∧
        ((∀ i < 15, NameByte pages m address i) → Q (-2) m) := by
  rw [is_valid_filename, touching_filename_loop fun i hi => absurd hi (Nat.not_lt_zero i)]
  simp only [Nat.zero_le, Nat.zero_add, true_implies]

/-- A name that passes `is_valid_filename` is mapped, up to and with its null byte. -/
theorem touching_is_valid_filename (hQ : ∀ v, (0 < v → StringMapped pages m address) → Q v m) :
    Touching pages Q (is_valid_filename address) m := by
  refine touching_filename_iff.mpr ⟨fun n v _ hv => hQ v fun hpos => ?_, fun _ => hQ (-2) (by omega)⟩
  rcases hv.2 with hn | ⟨hm, hz, -⟩
  · omega
  · refine ⟨n, fun i hi => ?_, hz⟩
    rcases Nat.lt_succ_iff_lt_or_eq.mp hi with hi | rfl
    · exact (hv.1 i hi).1
    · exact hm

/-- What `is_valid_filename` is to return. -/
structure FilenameResult (pages : Finset Nat) (m : Nat → UInt8) (address : Nat) (v : Int) : Prop where
  length : ∀ n, 1 ≤ n → n ≤ 14 → (∀ i < n, NameByte pages m address i) →
    UserMapped pages (ptr (address + n)) → m (ptr (address + n)) = 0 → v = n
  unmapped : ∀ n ≤ 14, (∀ i < n, NameByte pages m address i) →
    ¬ UserMapped pages (ptr (address + n)) → v = -1
  long : (∀ i < 15, NameByte pages m address i) → v = -2
  empty : UserMapped pages (ptr address) → m (ptr address) = 0 → v ≤ 0

theorem filenameResult_of_nameStops (h : NameStops pages m address n v) (hn : n < 15)
    (hne : ¬ (UserMapped pages (ptr address) ∧ m (ptr address) = 0)) :
    FilenameResult pages m address v where
  length k hk _ hnamed hm hz := by
    have hstop : NameStops pages m address k k := ⟨hnamed, Or.inr ⟨hm, hz, Or.inr rfl⟩⟩
    obtain rfl : n = k := Nat.le_antisymm (h.le hstop.not_named) (hstop.le h.not_named)
    rcases h.2 with h | h
    · exact absurd hm h.1
    · exact h.2.2.resolve_left (by omega)
  unmapped k _ hnamed hm := by
    have hstop : NameStops pages m address k (-1) := ⟨hnamed, Or.inl ⟨hm, rfl⟩⟩
    obtain rfl : n = k := Nat.le_antisymm (h.le hstop.not_named) (hstop.le h.not_named)
    rcases h.2 with h | h
    · exact h.2
    · exact absurd h.1 hm
  long hall := absurd (hall n hn) h.not_named
  empty hm hz := absurd ⟨hm, hz⟩ hne

/-- It does, except for the empty string: what it returns then is not defined. -/
theorem is_valid_filename_exact_iff :
    Touching pages (fun v m' => FilenameResult pages m address v ∧ m' = m)
        (is_valid_filename address) m ↔
      ¬ (UserMapped pages (ptr address) ∧ m (ptr address) = 0) := by
  rw [touching_filename_iff]
  refine ⟨fun h hempty => ?_, fun h => ⟨fun n v hn hv => ⟨filenameResult_of_nameStops hv hn h, rfl⟩,
    fun hall => ⟨⟨?_, ?_, fun _ => rfl, fun hm hz => absurd ⟨hm, hz⟩ h⟩, rfl⟩⟩⟩
  · have hone := (h.1 0 1 (by decide) ⟨fun i hi => absurd hi (Nat.not_lt_zero i),
      Or.inr ⟨hempty.1, hempty.2, Or.inl rfl⟩⟩).1
    exact absurd (hone.empty hempty.1 hempty.2) (by decide)
  · exact fun n _ hn _ _ hz => absurd hz (hall n (by omega)).2
  · exact fun n hn _ hm => absurd (hall n (by omega)).1 hm

/-- The empty string at the start of the code segment. -/
theorem is_valid_filename_of_empty :
    ¬ Touching {0x8048} (fun v m' => FilenameResult {0x8048} (fun _ => 0) 0x8048000 v ∧
      m' = fun _ => 0) (is_valid_filename 0x8048000) fun _ => 0 := by
  intro h
  have hone := ((touching_filename_iff.mp h).1 0 1 (by decide)
    ⟨fun i hi => absurd hi (Nat.not_lt_zero i), Or.inr ⟨by decide, rfl, Or.inl rfl⟩⟩).1
  exact absurd (hone.empty (by decide) rfl) (by decide)

end FileName

/-! ### The calls -/

section Calls

-- the conditions on sizes are not to be evaluated
attribute [local irreducible] wrap32

variable {pages : Finset Nat} {m : Nat → UInt8} {address size : Nat} {fd : Int}
  {Q : Bool → (Nat → UInt8) → Prop} {file : OpenFile} {α : Type} {dir : Dir}

/-- A buffer that passes `is_full_valid_ptr` is mapped. -/
theorem touching_is_full_valid_ptr (hQ : ∀ b, (b = true → BytesMapped pages address size) → Q b m) :
    Touching pages Q (is_full_valid_ptr address size) m := by
  induction size generalizing address Q with
  | zero => exact hQ true fun _ => nofun
  | succ size ih =>
    rw [is_full_valid_ptr, touching_bind, is_valid_ptr]
    split
    · exact hQ false nofun
    · rw [touching_is_mapped]
      by_cases hm : UserMapped pages (ptr address)
      · rw [decide_eq_true hm, if_pos rfl]
        exact ih fun b hb => hQ b fun h => bytesMapped_succ.mpr ⟨hm, hb h⟩
      · rw [decide_eq_false hm, if_neg Bool.false_ne_true]
        exact hQ false nofun

/-- Any file, or none, may be open as `fd`. -/
theorem touching_file_of {Q : Option OpenFile → (Nat → UInt8) → Prop} :
    Touching pages Q (file_of fd) m ↔ ∀ file, Q file m := by
  refine ⟨fun h file => ?_, fun hQ =>
    touching_bind.mpr (touching_sys trivial (fun _ _ h => h) fun _ => hQ _)⟩
  cases file with
  | none => exact h.2 [] m rfl
  | some file =>
    have hq : Q (get_file_struct_for_fd [(fd, file)] fd) m := h.2 [(fd, file)] m rfl
    rwa [get_file_struct_for_fd, find?_cons_of_pos (by simp)] at hq

theorem touching_update_file {Q : Unit → (Nat → UInt8) → Prop} (hQ : Q () m) :
    Touching pages Q (update_file fd file) m :=
  touching_bind.mpr (touching_sys trivial (fun _ _ h => h) fun _ =>
    touching_sys trivial (fun _ _ h => h) fun _ => hQ)

theorem touching_create_file {name : List UInt8} {initial_size : Int} {is_dir : Bool}
    (hQ : ∀ b, Q b m) :
    Touching pages Q (create_file name initial_size is_dir) m :=
  touching_bind.mpr (touching_sys trivial (fun _ _ h => h) fun _ =>
    touching_bind.mpr (touching_sys trivial (fun _ _ h => h) fun _ => touching_on_fs hQ))

/-- `lock_acquire (&file_lock)` and what follows. -/
theorem touching_lock {p : SysProg α} {Q : α → (Nat → UInt8) → Prop} :
    Touching pages Q (sys .lock_acquire >>= fun _ => p) m ↔ Touching pages Q p m := by
  exact ⟨fun h => h.2 () m rfl, fun h => touching_sys trivial (fun _ _ h => h) fun _ => h⟩

/-- `lock_release (&file_lock)` and the return. -/
theorem touching_unlock {a : α} : TouchesMapped pages m (do sys .lock_release; pure a) :=
  touching_bind.mpr (touching_sys trivial (fun _ _ h => h) fun _ => trivial)

theorem k_create_touches : TouchesMapped pages m (k_create address size) := by
  refine touching_bind.mpr (touching_is_valid_filename fun v hv => ?_)
  split
  · trivial
  · split
    · exact touching_exit
    · refine touching_lock.mpr (touching_bind.mpr ((touching_load_string fun name => ?_).mpr
        (hv (by omega))))
      exact touching_bind.mpr (touching_create_file fun b => touching_unlock)

theorem k_remove_touches : TouchesMapped pages m (k_remove address) := by
  refine touching_bind.mpr (touching_is_valid_filename fun v hv => ?_)
  split
  · trivial
  · refine touching_lock.mpr (touching_bind.mpr ((touching_load_string fun name => ?_).mpr
      (hv (by omega))))
    refine touching_bind.mpr (touching_sys trivial (fun _ _ h => h) fun current_dir => ?_)
    exact touching_bind.mpr (touching_on_fs fun b => touching_unlock)

theorem k_open_touches : TouchesMapped pages m (k_open address) := by
  refine touching_bind.mpr (touching_is_valid_filename fun v hv => ?_)
  split
  · trivial
  · refine touching_lock.mpr (touching_bind.mpr ((touching_load_string fun name => ?_).mpr
      (hv (by omega))))
    refine touching_bind.mpr (touching_sys trivial (fun _ _ h => h) fun current_dir => ?_)
    refine touching_bind.mpr (touching_on_fs fun r => ?_)
    cases r with
    | none => exact touching_unlock
    | some file =>
      refine touching_bind.mpr (touching_sys trivial (fun _ _ h => h) fun files => ?_)
      exact touching_bind.mpr (touching_sys trivial (fun _ _ h => h) fun _ => touching_unlock)

theorem k_filesize_touches : TouchesMapped pages m (k_filesize fd) := by
  refine touching_lock.mpr (touching_bind.mpr (touching_file_of.mpr fun file => ?_))
  cases file with
  | none => exact ⟨trivial, fun r => nomatch r⟩
  | some file => exact touching_bind.mpr (touching_on_fs fun length => touching_unlock)

theorem touching_buffer {Q : List UInt8 → (Nat → UInt8) → Prop}
    (h : BytesMapped pages address size) (hQ : ∀ bytes, Q bytes m) :
    Touching pages Q (load_bytes size address) m := touching_load_bytes.mpr ⟨h, hQ _⟩

theorem k_write_touches : TouchesMapped pages m (k_write fd address size) := by
  unfold k_write
  split
  · trivial
  · refine touching_bind.mpr (touching_is_full_valid_ptr fun b hb => ?_)
    split
    · rename_i hvalid
      refine touching_lock.mpr ?_
      split
      · refine touching_bind.mpr (touching_buffer (hb hvalid) fun bytes => ?_)
        exact touching_bind.mpr (touching_sys trivial (fun _ _ h => h) fun _ => touching_unlock)
      · refine touching_bind.mpr (touching_file_of.mpr fun file => ?_)
        cases file with
        | none => exact touching_unlock
        | some file =>
          refine touching_bind.mpr (touching_on_fs fun is_dir => ?_)
          split
          · exact touching_unlock
          · refine touching_bind.mpr (touching_buffer (hb hvalid) fun bytes => ?_)
            refine touching_bind.mpr (touching_on_fs fun r => ?_)
            exact touching_bind.mpr (touching_update_file touching_unlock)
    · exact touching_exit

theorem touching_getc_loop {Q : Unit → (Nat → UInt8) → Prop} (hQ : ∀ m, Q () m)
    (h : BytesMapped pages address size) : Touching pages Q (getc_loop size address) m := by
  induction size generalizing address m with
  | zero => exact hQ m
  | succ size ih =>
    obtain ⟨h₀, h⟩ := bytesMapped_succ.mp h
    refine touching_bind.mpr (touching_sys trivial (fun _ _ h => h) fun byte => ?_)
    exact touching_bind.mpr (touching_store.mpr ⟨h₀, ih h⟩)

/-- `file_read` reads no more than it is asked for. -/
theorem touching_file_read {n : Int} {Q : List UInt8 × OpenFile → (Nat → UInt8) → Prop}
    (hQ : ∀ r : List UInt8 × OpenFile, r.1.length ≤ n.toNat → Q r m) :
    Touching pages Q (on_fs (file_read file n)) m := by
  refine ⟨trivial, fun bytes m' hr => ?_⟩
  obtain ⟨hlen, rfl⟩ : bytes.length ≤ n.toNat ∧ m' = m := hr
  exact hQ (bytes, _) hlen

theorem k_read_touches : TouchesMapped pages m (k_read fd address size) := by
  unfold k_read
  split
  · exact touching_exit
  · refine touching_bind.mpr (touching_is_full_valid_ptr fun b hb => ?_)
    split
    · rename_i hvalid
      split
      · exact touching_bind.mpr (touching_getc_loop (fun _ => trivial) (hb hvalid))
      · refine touching_bind.mpr (touching_file_of.mpr fun file => ?_)
        cases file with
        | none => trivial
        | some file =>
          show Touching pages _ (if ptr address = 0 then _ else _) m
          split
          · trivial
          · refine touching_lock.mpr (touching_bind.mpr (touching_file_read fun r hr => ?_))
            refine touching_bind.mpr ((touching_store_bytes fun _ => ?_).mpr
              ((hb hvalid).le (hr.trans (toNat_wrap32_le size))))
            exact touching_bind.mpr (touching_update_file touching_unlock)
    · exact touching_exit

theorem k_seek_touches {pos : Nat} : TouchesMapped pages m (k_seek fd pos) := by
  refine touching_lock.mpr (touching_bind.mpr (touching_file_of.mpr fun file => ?_))
  cases file with
  | none => exact ⟨trivial, fun r => nomatch r⟩
  | some file =>
    refine touching_bind.mpr (touching_on_fs fun file => ?_)
    refine touching_bind.mpr (touching_update_file ?_)
    exact touching_sys trivial (fun _ _ h => h) fun _ => trivial

theorem k_tell_touches : TouchesMapped pages m (k_tell fd) := by
  refine touching_lock.mpr (touching_bind.mpr (touching_file_of.mpr fun file => ?_))
  cases file <;> exact touching_unlock

theorem k_close_touches : TouchesMapped pages m (k_close fd) := by
  refine touching_bind.mpr (touching_file_of.mpr fun file => ?_)
  cases file with
  | none => trivial
  | some file =>
    refine touching_lock.mpr ?_
    refine touching_bind.mpr (touching_sys trivial (fun _ _ h => h) fun byte => ?_)
    refine touching_bind.mpr (touching_on_fs fun _ => ?_)
    refine touching_bind.mpr (touching_sys trivial (fun _ _ h => h) fun files => ?_)
    refine touching_bind.mpr (touching_sys trivial (fun _ _ h => h) fun _ => ?_)
    exact touching_sys trivial (fun _ _ h => h) fun _ => trivial

theorem k_isdir_touches : TouchesMapped pages m (k_isdir fd) := by
  refine touching_bind.mpr (touching_file_of.mpr fun file => ?_)
  cases file with
  | none => trivial
  | some file => exact touching_on_fs fun _ => trivial

theorem k_inumber_touches : TouchesMapped pages m (k_inumber fd) := by
  refine touching_bind.mpr (touching_file_of.mpr fun file => ?_)
  cases file with
  | none => trivial
  | some file => exact touching_bind.mpr (touching_on_fs fun _ => trivial)

/-! ### The calls that do not check -/

theorem k_chdir_touches_iff : TouchesMapped pages m (k_chdir address) ↔
    StringMapped pages m address := by
  refine touching_bind.trans (touching_load_string fun name => ?_)
  refine touching_bind.mpr (touching_sys trivial (fun _ _ h => h) fun current_dir => ?_)
  refine touching_bind.mpr (touching_on_fs fun r => ?_)
  exact touching_bind.mpr (touching_sys trivial (fun _ _ h => h) fun _ => trivial)

theorem k_mkdir_touches_iff : TouchesMapped pages m (k_mkdir address) ↔
    StringMapped pages m address := by
  refine touching_lock.trans (touching_bind.trans (touching_load_string fun name => ?_))
  exact touching_bind.mpr (touching_create_file fun _ => touching_unlock)

theorem exec_touches_iff : TouchesMapped pages m (exec address) ↔ StringMapped pages m address := by
  refine touching_bind.trans (touching_load_string fun name => ?_)
  refine touching_bind.mpr (touching_sys trivial (fun _ _ h => h) fun pid => ?_)
  split
  · exact touching_exit
  · exact touching_bind.mpr (touching_sys trivial (fun _ _ h => h) fun _ => trivial)

theorem touching_inode_is_dir {p : Addr} :
    Touching pages Q (on_fs (inode_is_dir p)) m ↔ ∀ b, Q b m :=
  ⟨fun h b => h.2 ⟨0, 1, b, 1, 0⟩ m rfl, touching_on_fs⟩

/-- A name that `dir_readdir` copies has 14 characters at most. -/
theorem touching_dir_readdir {Q : Option (List UInt8) × Nat → (Nat → UInt8) → Prop}
    (hQ : ∀ r : Option (List UInt8) × Nat, (∀ name ∈ r.1, name.length ≤ NAME_MAX) → Q r m) :
    Touching pages Q (on_fs (dir_readdir dir)) m := by
  have hloop : ∀ turns pos (P : Option (List UInt8) × Nat → (Nat → UInt8) → Prop),
      (∀ r : Option (List UInt8) × Nat, (∀ name ∈ r.1, name.length ≤ NAME_MAX) → P r m) →
      Touching pages P (on_fs (dir_readdir_loop dir.inode turns pos)) m := by
    intro turns
    induction turns with
    | zero => exact fun pos P hP => hP (none, pos) nofun
    | succ turns ih =>
      intro pos P hP
      refine ⟨trivial, fun e m' hm => ?_⟩
      obtain rfl : m' = m := hm.2
      show Touching pages P (on_fs (if e.length = ENTRY_SIZE then _ else _)) m'
      split
      · split
        · exact hP (some _, _) fun name hn => by cases hn; exact length_take_le ..
        · exact ih _ P hP
      · exact hP (none, pos) nofun
  rw [dir_readdir, on_fs_bind, touching_bind]
  refine touching_on_fs fun _ => ?_
  rw [on_fs_bind, touching_bind]
  refine touching_on_fs fun length => ?_
  rw [on_fs_bind, touching_bind]
  refine hloop _ _ _ fun r hr => ?_
  rw [on_fs_bind, touching_bind]
  exact touching_on_fs fun _ => hQ r hr

/-- An entry in use, with a name of 14 characters. -/
def longEntry : List UInt8 := [0, 0, 0, 0] ++ List.replicate 14 97 ++ [0, 1]

/-- A name may have as many. -/
theorem touching_dir_readdir_long {Q : Option (List UInt8) × Nat → (Nat → UInt8) → Prop}
    (h : Touching pages Q (on_fs (dir_readdir dir)) m) :
    Q (some (List.replicate 14 97), dir.pos + ENTRY_SIZE) m :=
  have hlock := h.2 () m rfl
  have hlength := hlock.2 ⟨0, 1, true, 1, 0⟩ m rfl
  have hread := hlength.2 longEntry m ⟨Nat.le_refl _, rfl⟩
  hread.2 () m rfl

/-- A name and its null byte are 15 bytes at most, and may be as many. -/
theorem k_readdir_touches_iff : TouchesMapped pages m (k_readdir fd address) ↔
    BytesMapped pages address 15 := by
  constructor
  · intro h
    have hfile := touching_file_of.mp (touching_bind.mp h) (some (.dir ⟨0, 0⟩))
    have hdir := touching_inode_is_dir.mp (touching_bind.mp hfile) true
    have hname := touching_dir_readdir_long (touching_bind.mp hdir)
    have hfiles := (touching_bind.mp hname).2 [] m rfl
    exact (touching_store_bytes fun _ => trivial).mp (touching_bind.mp (hfiles.2 () m rfl))
  · intro h
    refine touching_bind.mpr (touching_file_of.mpr fun file => ?_)
    cases file with
    | none => trivial
    | some file =>
      refine touching_bind.mpr (touching_on_fs fun is_dir => ?_)
      split
      · refine touching_bind.mpr (touching_dir_readdir fun r hr => ?_)
        refine touching_bind.mpr (touching_update_file ?_)
        obtain ⟨name, pos⟩ := r
        cases name with
        | none => trivial
        | some name =>
          refine touching_bind.mpr ((touching_store_bytes fun _ => trivial).mpr (h.le ?_))
          rw [length_append]
          exact Nat.succ_le_succ (hr name rfl)
      · trivial

end Calls

/-! ### The handler -/

/-- What a system call needs mapped, once the first bytes of the words 0 and 1 are: the words it
reads, and what it does not check before it touches it. -/
def ArgumentsMapped (pages : Finset Nat) (m : Nat → UInt8) (esp : Nat) : SyscallNumber → Prop
  | .SYS_CHDIR | .SYS_MKDIR =>
    WordMapped pages esp 1 ∧ StringMapped pages m (wordAt m esp 1)
  | .SYS_EXEC => WordMapped pages esp 1 ∧
      (UserMapped pages (ptr (wordAt m esp 1)) → StringMapped pages m (wordAt m esp 1))
  | .SYS_READDIR => WordMapped pages esp 1 ∧ WordMapped pages esp 2 ∧
      BytesMapped pages (wordAt m esp 2) 15
  | .SYS_CREATE | .SYS_SEEK => WordMapped pages esp 1 ∧ WordMapped pages esp 2
  | .SYS_READ | .SYS_WRITE =>
    WordMapped pages esp 1 ∧ WordMapped pages esp 2 ∧ WordMapped pages esp 3
  | .SYS_HALT | .other => True
  | _ => WordMapped pages esp 1

section Handler

attribute [local irreducible] wrap32

variable {pages : Finset Nat} {m : Nat → UInt8} {esp : Nat} {p : Nat → SysProg (Option Int)}

theorem touches_map_iff {α β : Type} {f : α → β} {p : SysProg α} :
    TouchesMapped pages m (f <$> p) ↔ TouchesMapped pages m p := Prog.meets_map

/-- A call that reads word 1 and then touches mapped memory only. -/
theorem touches_word (h : ∀ w, TouchesMapped pages m (p w)) :
    TouchesMapped pages m (load_word esp 1 >>= p) ↔ WordMapped pages esp 1 := by
  refine touching_bind.trans (touching_load_word.trans ?_)
  exact and_iff_left (h _)

theorem touches_word_iff {P : Nat → Prop} (h : ∀ w, TouchesMapped pages m (p w) ↔ P w) :
    TouchesMapped pages m (load_word esp 1 >>= p) ↔
      WordMapped pages esp 1 ∧ P (wordAt m esp 1) := by
  refine touching_bind.trans (touching_load_word.trans ?_)
  exact and_congr_right fun _ => h _

theorem touches_two_words {p : Nat → Nat → SysProg (Option Int)} {P : Nat → Nat → Prop}
    (h : ∀ w w', TouchesMapped pages m (p w w') ↔ P w w') :
    TouchesMapped pages m (do let w ← load_word esp 1; let w' ← load_word esp 2; p w w') ↔
      WordMapped pages esp 1 ∧ WordMapped pages esp 2 ∧ P (wordAt m esp 1) (wordAt m esp 2) := by
  refine touching_bind.trans (touching_load_word.trans (and_congr_right fun _ => ?_))
  refine touching_bind.trans (touching_load_word.trans (and_congr_right fun _ => ?_))
  exact h _ _

theorem touches_create_args {p : Nat × Nat × Nat → SysProg (Option Int)}
    (h : ∀ args, TouchesMapped pages m (p args)) :
    TouchesMapped pages m (create_args esp >>= p) ↔
      WordMapped pages esp 1 ∧ WordMapped pages esp 2 ∧ WordMapped pages esp 3 := by
  refine touching_bind.trans ?_
  refine touching_bind.trans (touching_load_word.trans (and_congr_right fun _ => ?_))
  refine touching_bind.trans (touching_load_word.trans (and_congr_right fun _ => ?_))
  refine touching_bind.trans (touching_load_word.trans (and_iff_left ?_))
  refine touching_bind.mpr (touching_is_valid_addr.mpr fun _ => ?_)
  exact touching_bind.mpr (touching_is_valid_addr.mpr fun _ => h _)

theorem dispatch_touches_iff (number : SyscallNumber) :
    TouchesMapped pages m (dispatch esp number) ↔ ArgumentsMapped pages m esp number := by
  cases number with
  | SYS_HALT => exact iff_of_true ⟨trivial, fun r => nomatch r⟩ trivial
  | other => exact iff_of_true ⟨trivial, fun r => nomatch r⟩ trivial
  | SYS_EXIT => exact touches_word fun w => touching_exit
  | SYS_WAIT =>
    refine touches_word fun w => touches_map_iff.mpr ?_
    exact touching_sys trivial (fun _ _ h => h) fun _ => trivial
  | SYS_EXEC =>
    refine touches_word_iff (P := fun w => UserMapped pages (ptr w) → StringMapped pages m w)
      fun w => touching_bind.trans (touching_is_valid_addr.trans ?_)
    exact imp_congr_right fun _ => touches_map_iff.trans exec_touches_iff
  | SYS_CHDIR => exact touches_word_iff fun w => touches_map_iff.trans k_chdir_touches_iff
  | SYS_MKDIR => exact touches_word_iff fun w => touches_map_iff.trans k_mkdir_touches_iff
  | SYS_READDIR =>
    exact touches_two_words fun w w' => touches_map_iff.trans k_readdir_touches_iff
  | SYS_CREATE =>
    refine (touches_two_words (P := fun _ _ => True) fun w w' => ?_).trans
      (and_congr_right fun _ => and_iff_left trivial)
    exact iff_of_true (touches_map_iff.mpr k_create_touches) trivial
  | SYS_SEEK =>
    refine (touches_two_words (P := fun _ _ => True) fun w w' => ?_).trans
      (and_congr_right fun _ => and_iff_left trivial)
    exact iff_of_true (touching_bind.mpr (k_seek_touches.mono fun _ _ _ => trivial)) trivial
  | SYS_READ => exact touches_create_args fun args => touches_map_iff.mpr k_read_touches
  | SYS_WRITE => exact touches_create_args fun args => touches_map_iff.mpr k_write_touches
  | SYS_OPEN =>
    refine touches_word fun w => touching_bind.mpr (touching_is_valid_addr.mpr fun _ => ?_)
    exact touches_map_iff.mpr k_open_touches
  | SYS_REMOVE => exact touches_word fun w => touches_map_iff.mpr k_remove_touches
  | SYS_FILESIZE => exact touches_word fun w => touches_map_iff.mpr k_filesize_touches
  | SYS_TELL => exact touches_word fun w => touches_map_iff.mpr k_tell_touches
  | SYS_CLOSE =>
    exact touches_word fun w => touching_bind.mpr (k_close_touches.mono fun _ _ _ => trivial)
  | SYS_ISDIR => exact touches_word fun w => touches_map_iff.mpr k_isdir_touches
  | SYS_INUMBER => exact touches_word fun w => touches_map_iff.mpr k_inumber_touches

/-- A word lies on the page of its first byte or on that of the next word. -/
theorem wordMapped_zero (h : UserMapped pages (ptr esp)) (h' : UserMapped pages (ptr (esp + 4))) :
    WordMapped pages esp 0 := by
  obtain ⟨hlt, hpage⟩ := h
  obtain ⟨hlt', hpage'⟩ := h'
  intro j hj
  simp only [ptr, PHYS_BASE, PGSIZE] at *
  have hj' : (esp + 4 * 0 + j) % 4294967296 / 4096 = esp % 4294967296 / 4096 ∨
      (esp + 4 * 0 + j) % 4294967296 / 4096 = (esp + 4) % 4294967296 / 4096 := by omega
  refine ⟨by simp only [PHYS_BASE]; omega, ?_⟩
  rcases hj' with e | e
  · rw [e]; exact hpage
  · rw [e]; exact hpage'

theorem touches_handler_iff (esp : Nat) : TouchesMapped pages m (syscall_handler esp) ↔
      (UserMapped pages (ptr esp) → UserMapped pages (ptr (esp + 4)) →
        ArgumentsMapped pages m esp (.ofNat (wordAt m esp 0))) := by
  refine touching_bind.trans (touching_is_valid_addr.trans (forall_congr' fun h => ?_))
  refine touching_bind.trans (touching_is_valid_addr.trans (forall_congr' fun h' => ?_))
  refine touching_bind.trans (touching_load_word.trans ?_)
  rw [and_iff_right (wordMapped_zero h h')]
  exact dispatch_touches_iff _

end Handler

/-! ### The machine -/

/-- The process has the pages `pages` with the contents `m`, and goes on. -/
structure Caller.Shows {K : Type} (pages : Finset Nat) (m : Nat → UInt8) (c : Caller K) : Prop where
  pagedir : c.pagedir = pages
  memory : c.memory = m
  running : c.fate = .running

section Machine

variable {K : Type} {I : FsApi K} {env : Env} {pages : Finset Nat} {es : List Event}

/-- The machine answers as the contract says. -/
theorem sys_api_answers
    (hI : ∀ p size offset k, (I (.inode_read_at p size offset)).Ends k fun r _ => r.length ≤ size)
    (o : SysOp) (m : Nat → UInt8) (c : Caller K) (ho : touch_ok pages m o) (hc : c.Shows pages m) :
    (sys_api I env o).Ends c fun r c' => ∃ m', answer_ok pages m o r m' ∧ c'.Shows pages m' := by
  obtain ⟨rfl, rfl, hrun⟩ := hc
  cases o with
  | pagedir_get_page a =>
    refine .get_bind (.ite (fun _ => ?_) fun h => absurd ho h)
    exact .pure ⟨_, ⟨rfl, rfl⟩, rfl, rfl, hrun⟩
  | load a =>
    refine .get_bind (.ite (fun _ => ?_) fun h => absurd ho h)
    exact .pure ⟨_, ⟨rfl, rfl⟩, rfl, rfl, hrun⟩
  | store a b =>
    refine .get_bind (.ite (fun _ => ?_) fun h => absurd ho h)
    exact .modify ⟨_, rfl, rfl, rfl, hrun⟩
  | fs o =>
    refine .zoom fun es r k hr => ⟨c.memory, ?_, rfl, rfl, hrun⟩
    cases o with
    | inode_read_at p size offset => exact ⟨hI p size offset _ hr, rfl⟩
    | _ => rfl
  | pagedir_create | install_page => exact ho.elim
  | lock_acquire =>
    refine .get_bind (.ite (fun _ => .panic) fun _ => ?_)
    exact .modify ⟨_, rfl, rfl, rfl, hrun⟩
  | lock_release =>
    refine .get_bind (.ite (fun _ => ?_) fun _ => .panic)
    exact .modify ⟨_, rfl, rfl, rfl, hrun⟩
  | input_getc | palloc_get_page =>
    exact .get_bind (.modify_bind (.pure ⟨_, rfl, rfl, rfl, hrun⟩))
  | file_struct_list | current_dir =>
    exact .get_bind (.pure ⟨_, rfl, rfl, rfl, hrun⟩)
  | set_file_struct_list | set_current_dir | set_is_loaded =>
    exact .modify ⟨_, rfl, rfl, rfl, hrun⟩
  | null_file_struct | exit | thread_exit | shutdown_power_off => exact fun _ r => nomatch r
  | _ => exact .pure ⟨_, rfl, rfl, rfl, hrun⟩

/-- A call that touches mapped memory does not fault. -/
theorem sys_api_fault {o : SysOp} {m : Nat → UInt8} {c c' : Caller K} (ho : touch_ok pages m o)
    (hc : c.Shows pages m) (hr : sys_api I env o c = (es, .panic c')) : c'.fate ≠ .page_fault := by
  obtain ⟨rfl, rfl, hrun⟩ := hc
  have hstay : c.fate ≠ .page_fault := by simp [hrun]
  cases o with
  | fs o =>
    simp only [sys_api, Machine.zoom] at hr
    split at hr
    · cases hr
    · cases hr
      exact hstay
  | pagedir_get_page a =>
    have hok : is_user_vaddr a = true := ho
    simp only [sys_api, bind_run, get_run, if_pos hok, pure_run] at hr
    cases hr
  | load a =>
    have hok : UserMapped c.pagedir a := ho
    simp only [sys_api, bind_run, get_run, if_pos hok, pure_run] at hr
    cases hr
  | store a b =>
    have hok : UserMapped c.pagedir a := ho
    simp only [sys_api, bind_run, get_run, if_pos hok, Machine.modify_run] at hr
    cases hr
  | pagedir_create | install_page => exact ho.elim
  | lock_acquire =>
    simp only [sys_api, bind_run, get_run] at hr
    split at hr
    · cases hr
      exact hstay
    · cases hr
  | lock_release =>
    simp only [sys_api, bind_run, get_run] at hr
    split at hr
    · cases hr
    · cases hr
      exact hstay
  | null_file_struct =>
    cases hr
    exact hstay
  | exit | thread_exit | shutdown_power_off =>
    cases hr
    simp [Caller.process_exit]
  | _ => cases hr

/-- On a machine whose reads are no longer than asked for, a program that touches mapped memory only
does not fault. -/
theorem TouchesMapped.no_page_fault {α : Type} {p : SysProg α} {c c' : Caller K}
    (hI : ∀ p size offset k, (I (.inode_read_at p size offset)).Ends k fun r _ => r.length ≤ size)
    (h : TouchesMapped c.pagedir c.memory p) (hc : c.fate = .running)
    (hr : p.run (sys_api I env) c = (es, .panic c')) : c'.fate ≠ .page_fault :=
  Prog.Meets.panics (R := Caller.Shows c.pagedir) (F := fun c => c.fate ≠ .page_fault)
    (sys_api_answers hI) (fun _ _ _ _ _ => sys_api_fault) h ⟨rfl, rfl, hc⟩ hr

end Machine

/-- A process that calls `chdir` with a pointer to a page it has not mapped. -/
def chdirCaller : Caller Fs where
  fs := smallFs
  pagedir := {1}
  -- word 0 is `SYS_CHDIR`, word 1 is 0x3000
  memory := fun a => if a = 4096 then 15 else if a = 4101 then 48 else 0
  file_struct_list := []
  current_dir := none
  child := create_child_process
  file_lock := false
  input := fun _ => 0
  pool := fun _ => true
  fate := .running

/-- Memory that holds zeros, and no other processes. -/
def quietEnv : Env where
  byte_after_dir := false
  uninit_entry := List.replicate 20 0
  uninit_result := 0
  process_execute := fun _ => -1
  is_loaded := fun _ => false
  process_wait := fun _ => -1
  entry_size := rfl

end Pintos
