import Pintos.Userprog.Load

/-!
# Userprog — Segments of a program

What `validate_segment` accepts has sizes that 32 bits hold (`Phdr.Valid.sizes`), and what
`load_segment` makes of it: a number of pages, the first of the bytes of the file and the rest zero.

`load_segment` obtains pages, fills them from the file and installs them; `Space.pre` and
`Space.post` say what it may call and what it is answered, over the pages of the user in the
abstract.  Under that contract it loads the segment or fails (`load_segment_meets`), and its loop
does not run out of turns.
-/

namespace Pintos
open Support Function List

/-! ### Sizes -/

namespace Phdr

variable {phdr : List UInt8} {length : Nat}

/-- The number of pages of a segment. -/
def pages (phdr : List UInt8) : Nat :=
  (p_vaddr phdr % PGSIZE + p_memsz phdr + (PGSIZE - 1)) / PGSIZE

/-- What `validate_segment` has tested. -/
structure Valid (phdr : List UInt8) (length : Nat) : Prop where
  same_offset : p_offset phdr % PGSIZE = p_vaddr phdr % PGSIZE
  offset_le : p_offset phdr ≤ length
  filesz_le : p_filesz phdr ≤ p_memsz phdr
  memsz_pos : 0 < p_memsz phdr
  low : PGSIZE ≤ p_vaddr phdr
  high : p_vaddr phdr + p_memsz phdr < PHYS_BASE

theorem valid_of_validate (h : validate_segment phdr length = true) : Valid phdr length := by
  have hv : p_vaddr phdr < 4294967296 := Bytes.word_lt ..
  have hm : p_memsz phdr < 4294967296 := Bytes.word_lt ..
  simp only [validate_segment, Bool.and_eq_true, beq_iff_eq, decide_eq_true_eq, bne_iff_ne,
    is_user_vaddr] at h
  obtain ⟨⟨⟨⟨⟨⟨⟨hofs, hlen⟩, hsize⟩, hpos⟩, huser⟩, hend⟩, hwrap⟩, hlow⟩ := h
  refine ⟨hofs, hlen, hsize, by omega, hlow, ?_⟩
  -- a sum that wraps around is smaller than both
  simp only [ptr, PHYS_BASE] at hend hwrap ⊢
  omega

/-- `load` computes the sizes of a segment as if its numbers had no bound. -/
structure Sizes (phdr : List UInt8) : Prop where
  read_fits : p_vaddr phdr % PGSIZE + p_filesz phdr < 2 ^ 32
  total_fits : p_vaddr phdr % PGSIZE + p_memsz phdr + (PGSIZE - 1) < 2 ^ 32
  read : read_bytes phdr = if 0 < p_filesz phdr then p_vaddr phdr % PGSIZE + p_filesz phdr else 0
  read_le : read_bytes phdr ≤ PGSIZE * pages phdr
  zero : zero_bytes phdr = PGSIZE * pages phdr - read_bytes phdr
  whole : (read_bytes phdr + zero_bytes phdr) % PGSIZE = 0

theorem Valid.sizes (h : Valid phdr length) : Sizes phdr := by
  obtain ⟨-, -, hsize, -, -, hhigh⟩ := h
  have hread : read_bytes phdr =
      if 0 < p_filesz phdr then p_vaddr phdr % PGSIZE + p_filesz phdr else 0 := by
    rw [read_bytes]
    simp only [ptr, PGSIZE, PHYS_BASE] at *
    split <;> omega
  have hround : round_up_page (ptr (p_vaddr phdr % PGSIZE + p_memsz phdr)) =
      PGSIZE * pages phdr := by
    simp only [round_up_page, ptr, pages, PGSIZE, PHYS_BASE] at *
    omega
  have hle : read_bytes phdr ≤ PGSIZE * pages phdr := by
    rw [hread]
    simp only [pages, PGSIZE, PHYS_BASE] at *
    split <;> omega
  have hzero : zero_bytes phdr = PGSIZE * pages phdr - read_bytes phdr := by
    rw [zero_bytes, hround, sub32]
    simp only [pages, PGSIZE, PHYS_BASE] at *
    omega
  refine ⟨?_, ?_, hread, hle, hzero, ?_⟩
  · simp only [PGSIZE, PHYS_BASE] at *
    omega
  · simp only [PGSIZE, PHYS_BASE] at *
    omega
  · rw [hzero, Nat.add_sub_cancel' hle, Nat.mul_mod_right]

/-- The pages of a segment are user pages, and not the first. -/
theorem Valid.pages_user (h : Valid phdr length) : 1 ≤ p_vaddr phdr / PGSIZE ∧
    PGSIZE * (p_vaddr phdr / PGSIZE + pages phdr) =
      (p_vaddr phdr + p_memsz phdr + (PGSIZE - 1)) / PGSIZE * PGSIZE ∧
    PGSIZE * (p_vaddr phdr / PGSIZE + pages phdr) ≤ PHYS_BASE := by
  obtain ⟨-, -, -, -, hlow, hhigh⟩ := h
  simp only [pages, PGSIZE, PHYS_BASE] at *
  omega

end Phdr

/-! ### Pages of the user -/

/-- A page of the user: what it holds, and whether the user may write to it. -/
structure UserPage where
  bytes : Nat → UInt8
  writable : Bool

/-- The pages of the user by their numbers. -/
abbrev Pages : Type := Nat → Option UserPage

/-- From `before` to `after`, the pages from `first` on are added, `count` of them.  They hold
`read_bytes` bytes of the file from `pos` on, and zeros after them. -/
structure SegmentAdded (file : List UInt8) (pos first count read_bytes : Nat) (writable : Bool)
    (before after : Pages) : Prop where
  fresh : ∀ i < count, before (first + i) = none
  kept : ∀ v, v < first ∨ first + count ≤ v → after v = before v
  added : ∀ i < count, ∃ page, after (first + i) = some page ∧ page.writable = writable ∧
    ∀ j < PGSIZE, (PGSIZE * i + j < read_bytes →
        file[pos + (PGSIZE * i + j)]? = some (page.bytes j)) ∧
      (read_bytes ≤ PGSIZE * i + j → page.bytes j = 0)

section Added

variable {file : List UInt8} {pos first count read_bytes : Nat} {writable : Bool}
  {before after : Pages}

theorem segmentAdded_none {first : Nat} :
    SegmentAdded file pos first 0 read_bytes writable before before :=
  ⟨nofun, fun _ _ => rfl, nofun⟩

/-- One page, and those after it. -/
theorem SegmentAdded.cons {bytes : List UInt8} (hnone : before first = none)
    (hbytes : bytes = (file.drop pos).take (min read_bytes PGSIZE))
    (hlen : bytes.length = min read_bytes PGSIZE)
    (h : SegmentAdded file (pos + min read_bytes PGSIZE) (first + 1) count
      (read_bytes - min read_bytes PGSIZE) writable
      (update before first (some ⟨fun i => bytes.getD i 0, writable⟩)) after) :
    SegmentAdded file pos first (count + 1) read_bytes writable before after := by
  have hfirst : after first = some ⟨fun i => bytes.getD i 0, writable⟩ := by
    rw [h.kept first (.inl (Nat.lt_succ_self _)), update_self]
  refine ⟨fun i hi => ?_, fun v hv => ?_, fun i hi => ?_⟩
  · cases i with
    | zero => exact hnone
    | succ i =>
      have hfresh := h.fresh i (by omega)
      rwa [update_of_ne (by omega), show first + 1 + i = first + (i + 1) by omega]
        at hfresh
  · rw [h.kept v (by omega), update_of_ne (by omega)]
  · cases i with
    | zero =>
      refine ⟨_, hfirst, rfl, fun j hj => ⟨fun hread => ?_, fun hzero => ?_⟩⟩
      · have hj' : j < min read_bytes PGSIZE := by omega
        show file[pos + (PGSIZE * 0 + j)]? = some (bytes.getD j 0)
        have hget : bytes[j]? = file[pos + j]? := by
          rw [hbytes, getElem?_take_of_lt hj', getElem?_drop]
        rw [Nat.mul_zero, Nat.zero_add, ← hget, getD_eq_getElem?_getD,
          List.getElem?_eq_getElem (hlen ▸ hj'), Option.getD_some]
      · show bytes.getD j 0 = 0
        exact getD_eq_default _ _ (by omega)
    | succ i =>
      obtain ⟨page, hpage, hw, hall⟩ := h.added i (by omega)
      refine ⟨page, by rwa [show first + (i + 1) = first + 1 + i by omega], hw, fun j hj => ?_⟩
      obtain ⟨hread, hzero⟩ := hall j hj
      refine ⟨fun hlt => ?_, fun hle => hzero (by simp only [PGSIZE] at *; omega)⟩
      -- a page before this one has been read whole
      have hmin : min read_bytes PGSIZE = PGSIZE := by simp only [PGSIZE] at *; omega
      rw [hmin] at hread
      rw [← hread (by simp only [PGSIZE] at *; omega)]
      congr 1
      simp only [PGSIZE]
      omega

end Added

/-! ### The contract -/

/-- The pages of the user, and whether a page of memory has been obtained for the next one. -/
structure Space where
  pages : Pages
  obtained : Bool

/-- What `load_segment` calls: it reads the file at `p`, and installs user pages. -/
def Space.pre (p : Addr) (t : Space) : SysOp → Prop
  | .palloc_get_page => True
  | .install_page upage _ _ => t.obtained = true ∧ upage % PGSIZE = 0 ∧ upage < PHYS_BASE
  | .fs (.inode_read_at q _ _) => q = p
  | _ => False

/-- The answers, for a file that holds `file`. -/
def Space.post (file : List UInt8) (t : Space) : ∀ o : SysOp, o.Res → Space → Prop
  | .palloc_get_page, r, t' => t' = { t with obtained := r }
  | .install_page upage bytes writable, r, t' =>
    r = false ∧ t' = { t with obtained := false } ∨
    r = true ∧ t.pages (upage / PGSIZE) = none ∧
      t' = ⟨update t.pages (upage / PGSIZE)
        (some ⟨fun i => bytes.getD i 0, writable⟩), false⟩
  | .fs (.inode_read_at _ size offset), r, t' => r = (file.drop offset).take size ∧ t' = t
  | _, _, _ => False

/-- `m` keeps to the contract, and then meets `Q`. -/
abbrev OnPages {α : Type} (p : Addr) (file : List UInt8) (Q : α → Space → Prop) (m : SysProg α)
    (t : Space) : Prop := m.Meets (Space.pre p) (Space.post file) Q t

section OnPages

variable {p : Addr} {bytes : List UInt8} {t : Space}

theorem onPages_file_read {α : Type} {file : OpenFile} {size : Nat}
    {next : List UInt8 × OpenFile → SysProg α} {Q : α → Space → Prop} (hp : file.inode = p)
    (h : OnPages p bytes Q (next ((bytes.drop file.pos).take size,
      file.setPos (file.pos + ((bytes.drop file.pos).take size).length))) t) :
    OnPages p bytes Q (on_fs (file_read file size) >>= next) t := by
  refine ⟨hp, ?_⟩
  rintro _ _ ⟨rfl, rfl⟩
  exact h

/-- The loop loads as many pages as it has turns, or fails. -/
theorem load_segment_loop_meets (writable : Bool) (turns : Nat) :
    ∀ {file : OpenFile} {upage read_bytes zero_bytes : Nat} {t : Space}, file.inode = p →
      upage % PGSIZE = 0 → read_bytes + zero_bytes = PGSIZE * turns →
      upage + PGSIZE * turns ≤ PHYS_BASE →
      OnPages p bytes (fun r t' => r.1 = true → SegmentAdded bytes file.pos (upage / PGSIZE) turns
          read_bytes writable t.pages t'.pages)
        (load_segment_loop writable turns file upage read_bytes zero_bytes) t := by
  induction turns with
  | zero =>
    intro file upage read_bytes zero_bytes t _ _ hsum _
    rw [load_segment_loop, if_pos (by omega)]
    exact fun _ => segmentAdded_none
  | succ turns ih =>
    intro file upage read_bytes zero_bytes t hp halign hsum hhigh
    have hpage : (if read_bytes < PGSIZE then read_bytes else PGSIZE) = min read_bytes PGSIZE := by
      split <;> omega
    have hsub : sub32 read_bytes (min read_bytes PGSIZE) = read_bytes - min read_bytes PGSIZE ∧
        sub32 zero_bytes (PGSIZE - min read_bytes PGSIZE) =
          zero_bytes - (PGSIZE - min read_bytes PGSIZE) ∧
        ptr (upage + PGSIZE) = upage + PGSIZE := by
      simp only [sub32, ptr, PGSIZE, PHYS_BASE] at *
      omega
    rw [load_segment_loop, if_neg (by simp only [PGSIZE] at hsum; omega)]
    simp only [hpage]
    refine Prog.Meets.op_bind trivial fun kpage t₁ ht₁ => ?_
    obtain rfl : t₁ = { t with obtained := kpage } := ht₁
    split
    · rename_i hkpage
      refine onPages_file_read hp ?_
      split
      · rename_i hlen
        refine Prog.Meets.op_bind ⟨hkpage, halign, by simp only [PGSIZE] at hhigh ⊢; omega⟩
          fun installed t₂ ht₂ => ?_
        rcases ht₂ with ⟨rfl, -⟩ | ⟨rfl, hnone, rfl⟩
        · exact nofun
        · rw [hsub.1, hsub.2.1, hsub.2.2, if_pos rfl]
          refine (ih (by simpa using hp) ?_ ?_ ?_).mono fun r t' hadded htrue => ?_
          · simp only [PGSIZE] at *; omega
          · simp only [PGSIZE] at *; omega
          · simp only [PGSIZE] at *; omega
          · have hrest := hadded htrue
            rw [show (upage + PGSIZE) / PGSIZE = upage / PGSIZE + 1 by
              simp only [PGSIZE]; omega, OpenFile.setPos_pos, hlen] at hrest
            exact hrest.cons hnone rfl hlen
      · exact nofun
    · exact nofun

/-- `load_segment` loads a segment that has been validated, or fails; no assertion fails. -/
theorem load_segment_meets {phdr : List UInt8} {file : OpenFile} (hbytes : bytes.length < 2 ^ 31)
    (h : Phdr.Valid phdr bytes.length) (hp : file.inode = p) :
    OnPages p bytes (fun r t' => r.1 = true → SegmentAdded bytes
          (Phdr.p_offset phdr / PGSIZE * PGSIZE) (Phdr.p_vaddr phdr / PGSIZE) (Phdr.pages phdr)
          (Phdr.read_bytes phdr) (Phdr.writable phdr) t.pages t'.pages)
      (load_segment file (Phdr.file_page phdr) (Phdr.mem_page phdr) (Phdr.read_bytes phdr)
        (Phdr.zero_bytes phdr) (Phdr.writable phdr)) t := by
  have hsizes := h.sizes
  obtain ⟨-, -, huser⟩ := h.pages_user
  have hsum : Phdr.read_bytes phdr + Phdr.zero_bytes phdr = PGSIZE * Phdr.pages phdr := by
    rw [hsizes.zero, Nat.add_sub_cancel' hsizes.read_le]
  have hptr : ptr (Phdr.read_bytes phdr + Phdr.zero_bytes phdr) = PGSIZE * Phdr.pages phdr := by
    rw [hsum]
    simp only [ptr, PGSIZE, PHYS_BASE] at *
    omega
  -- the offset of the segment is below the length of the file, which is an `off_t`
  have hpage : Phdr.file_page phdr = ((Phdr.p_offset phdr / PGSIZE * PGSIZE : Nat) : Int) := by
    have hle := h.offset_le
    rw [Phdr.file_page, wrap32, Int.bmod_def]
    simp only [PGSIZE] at *
    split <;> omega
  have hmem : Phdr.mem_page phdr / PGSIZE = Phdr.p_vaddr phdr / PGSIZE := by
    simp only [Phdr.mem_page, PGSIZE]
    omega
  rw [load_segment, hptr, hpage, if_pos]
  · rw [file_seek, if_pos (Int.natCast_nonneg _), Int.toNat_natCast,
      Nat.mul_div_cancel_left _ (by decide)]
    have hroom : Phdr.mem_page phdr + PGSIZE * Phdr.pages phdr ≤ PHYS_BASE := by
      simp only [Phdr.mem_page, PGSIZE, PHYS_BASE] at *
      omega
    have halign : Phdr.mem_page phdr % PGSIZE = 0 := Nat.mul_mod_left _ _
    refine (load_segment_loop_meets _ _ (by simpa using hp) halign hsum hroom).mono
      fun r t' hadded htrue => ?_
    have h' := hadded htrue
    rwa [OpenFile.setPos_pos, hmem] at h'
  · refine ⟨Nat.mul_mod_right _ _, Nat.mul_mod_left _ _, ?_⟩
    rw [Nat.cast_mul]
    exact Int.mul_emod_left _ _

end OnPages

end Pintos
