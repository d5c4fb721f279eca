import Pintos.Threads.MallocRuns

/-!
# Threads — sizes that overflow

`malloc` adds the header and rounds up to pages in 32 bits, and `calloc` compares the product with
the factors only.  A block is as large as was asked for exactly if neither overflows (`SizeOk`):
`block_large_iff`.  For a size of 11 bytes less than 2^32 or more, `malloc` takes one page, as for
4084 bytes; for a product that overflows unseen, `calloc` is a `malloc` of what is left of it.

What a call stores then may run over headers.  But no header that it leaves says that a block
reaches beyond 2^32 (`Bounded`), so that the new block cannot be as large as was asked for.
-/

namespace Pintos
open Function List Option

variable {p a b n cap size : Nat} {s s' : Heap} {live : Live} {alloc : Nat → Option Nat}
  {r : Nat × Heap} {c : HeapCall}

/-- The call is for a block of `n` bytes, with arguments of 32 bits; there are no zero pages. -/
def HeapCall.Asks (live : Live) (s : Heap) (n : Nat) : HeapCall → Prop
  | .malloc size alloc => n = size ∧ size < 2 ^ 32 ∧ alloc 0 = none ∧ Fresh s alloc
  | .calloc a b alloc => n = a * b ∧ a < 2 ^ 32 ∧ b < 2 ^ 32 ∧ alloc 0 = none ∧ Fresh s alloc
  | .realloc old_block new_size alloc => n = new_size ∧ new_size < 2 ^ 32 ∧
      (old_block = 0 ∨ (live old_block).isSome = true) ∧ alloc 0 = none ∧ Fresh s alloc
  | _ => False

/-- The blocks of an arena with this header, if it is one, end below 2^32 where it starts after the
null page. -/
def Arena.Bounded (h : Arena) : Prop :=
  h.magic = ARENA_MAGIC → match h.desc with
    | none => 0 < h.free_cnt ∧ PGSIZE * (h.free_cnt + 1) ≤ 2 ^ 32
    | some d => SizeOk d.block_size

namespace Heap

theorem bounded_store (start size : Nat) (value : Nat → UInt8) (hb : (s.header a).Bounded) :
    ((s.store start size value).header a).Bounded := by
  simp only [Heap.store]
  split
  · exact nofun
  · exact hb

theorem bounded_free_multiple {q cnt : Nat} (hb : (s.header a).Bounded)
    (h : palloc_free_multiple q cnt s = some s') : (s'.header a).Bounded := by
  unfold palloc_free_multiple at h
  split at h
  · exact Option.some.inj h ▸ bounded_store (s := s.setPages q none) _ _ _ hb
  · cases h

theorem remove_blocks_header {d : Desc} {is : List Nat}
    (h : remove_blocks d a is s = some s') : s'.header = s.header := by
  induction is generalizing s with
  | nil => rw [← Option.some.inj h]
  | cons i is ih =>
    obtain ⟨x, -, h⟩ := Option.bind_eq_some_iff.mp h
    split at h
    · exact (ih h).trans (setFree_header ..)
    · cases h

/-- The header of a small arena stays one, unless the block has been written over it. -/
theorem bounded_free_small {d : Desc} {q : Nat} (hb : (s.header a).Bounded)
    (hd : (s.header q).desc = some d) (h : free_small d q p s = some s') :
    (s'.header a).Bounded := by
  have hset : ∀ t : Heap, t.header = (s.memset p 0xcc d.block_size).header → ∀ free_cnt,
      ((t.setHeader q { t.header q with free_cnt }).header a).Bounded := by
    intro t ht free_cnt
    by_cases e : a = q
    · subst e
      simp only [setHeader_self, ht, memset, Heap.store]
      split
      · exact nofun
      · simpa only [Arena.Bounded, hd] using hb
    · rw [setHeader_of_ne e, ht]
      exact bounded_store p d.block_size _ hb
  simp only [free_small] at h
  split at h
  · split at h
    · obtain ⟨t, ht, h⟩ := Option.bind_eq_some_iff.mp h
      refine bounded_free_multiple ?_ h
      rw [remove_blocks_header ht]
      exact hset _ rfl _
    · cases h
  · exact Option.some.inj h ▸ hset _ rfl _

/-- `free` keeps the bound, whatever the state. -/
theorem bounded_free {old : Nat} (hb : (s.header a).Bounded) (h : free old s = some s') :
    (s'.header a).Bounded := by
  unfold free at h
  split at h
  · exact Option.some.inj h ▸ hb
  obtain ⟨q, -, h⟩ := Option.bind_eq_some_iff.mp h
  split at h
  · exact bounded_free_small hb ‹_› h
  · exact bounded_free_multiple hb h

/-- The size of a block is read from the header of its arena. -/
theorem bounded_block_size (hb : (s.header (pg_round_down p)).Bounded)
    (hcap : s.block_size p = some cap) : SizeOk cap := by
  simp only [Heap.block_size, block_to_arena, Arena.Bounded] at hb hcap
  split at hcap
  case isTrue hmagic =>
    replace hb := hb hmagic.2
    cases hdesc : (s.header (pg_round_down p)).desc with
    | none =>
      simp only [hdesc] at hb hcap
      split at hcap <;> simp [hdesc] at hcap
      simp only [SizeOk, ARENA_SIZE, PGSIZE] at *
      omega
    | some d =>
      simp only [hdesc] at hb hcap
      split at hcap <;> simp [hdesc] at hcap
      exact hcap ▸ hb
  case isFalse => cases hcap

/-- `malloc` of a size that is too large for every descriptor. -/
theorem malloc_bounded (hsize : 1024 < size) (hnull : alloc 0 = none) (hfresh : Fresh s alloc)
    (h : malloc alloc size s = some r) (hp : r.1 ≠ 0) :
    (r.2.header (pg_round_down r.1)).Bounded := by
  have hfind : (descs.find? fun d => d.block_size ≥ size) = none := by
    refine find?_eq_none.mpr fun d hd => ?_
    have := (descs_ok d hd).2.1
    simp only [decide_eq_true_eq]
    omega
  rw [malloc, if_neg (by omega), hfind] at h
  generalize hcnt : (size + ARENA_SIZE + PGSIZE - 1) % 2 ^ 32 / PGSIZE = cnt at h
  simp only [palloc_get_multiple] at h
  cases hpage : alloc cnt with
  | none =>
    rw [hpage] at h
    cases h
    exact absurd rfl hp
  | some page =>
    rw [hpage] at h
    cases h
    have hpos : 0 < cnt := Nat.pos_of_ne_zero fun e => by
      rw [e, hnull] at hpage
      cases hpage
    obtain ⟨haligned, hpage, hfits, -⟩ := hfresh cnt page hpos hpage
    have hbound : PGSIZE * (cnt + 1) ≤ 2 ^ 32 := by
      unfold PGSIZE at *
      omega
    rw [(round_down_of_mem haligned (by unfold PGSIZE at *; omega) (Nat.le_add_right _ _)
      (Nat.add_lt_add_left (by decide) _)).1, setHeader_self]
    exact fun _ => ⟨hpos, hbound⟩

/-- Whatever a call asks for, the header of the block that it returns is bounded. -/
theorem asks_bounded (hc : c.Asks live s n) (h : c.perform s = some (p, s')) (hp : p ≠ 0)
    (hn : ¬ SizeOk n) : (s'.header (pg_round_down p)).Bounded := by
  simp only [SizeOk, ARENA_SIZE, PGSIZE] at hn
  cases c with
  | malloc size alloc =>
    obtain ⟨rfl, -, hnull, hfresh⟩ := hc
    exact malloc_bounded (by omega) hnull hfresh h hp
  | calloc a b alloc =>
    obtain ⟨rfl, -, -, hnull, hfresh⟩ := hc
    simp only [HeapCall.perform, calloc] at h
    split at h
    case isTrue => cases h; exact absurd rfl hp
    case isFalse hle =>
      have hsize : 1024 < a * b % 2 ^ 32 := by
        by_contra hsmall
        have : a * b ≤ 1024 * 1024 := Nat.mul_le_mul (by omega) (by omega)
        omega
      obtain ⟨r, hr, h⟩ := Option.bind_eq_some_iff.mp h
      split at h <;> cases h
      · exact bounded_store _ _ _ (malloc_bounded hsize hnull hfresh hr hp)
      · exact malloc_bounded hsize hnull hfresh hr hp
  | realloc old size alloc =>
    obtain ⟨rfl, -, -, hnull, hfresh⟩ := hc
    simp only [HeapCall.perform, realloc, if_neg (show n ≠ 0 by omega)] at h
    obtain ⟨r, hr, h⟩ := Option.bind_eq_some_iff.mp h
    split at h
    case isFalse => cases h; exact malloc_bounded (by omega) hnull hfresh hr hp
    case isTrue hnew =>
      obtain ⟨old_size, -, h⟩ := Option.bind_eq_some_iff.mp h
      obtain ⟨s₁, hfree, h⟩ := Option.bind_eq_some_iff.mp h
      cases h
      exact bounded_free (bounded_store _ _ _ (malloc_bounded (by omega) hnull hfresh hr hp)) hfree
  | free | store => exact hc.elim

end Heap

/-- **The block that a call returns is as large as was asked for** exactly if the size does not
overflow. -/
theorem block_large_iff (run : HeapRun live s) (hc : c.Asks live s n)
    (h : c.perform s = some (p, s')) (hp : p ≠ 0) :
    (∃ cap, s'.block_size p = some cap ∧ n ≤ cap) ↔ SizeOk n := by
  obtain ⟨hcore, ho⟩ := Heap.run_core run
  constructor
  · rintro ⟨cap, hcap, hle⟩
    by_contra hn
    have hok := Heap.bounded_block_size (Heap.asks_bounded hc h hp hn) hcap
    unfold SizeOk at hn hok
    omega
  intro hn
  have hen : c.Enabled live s := by
    cases c with
    | malloc => exact ⟨hc.1 ▸ hn, hc.2.2.2⟩
    | calloc => exact ⟨hc.2.1, hc.2.2.1, hc.1 ▸ hn, hc.2.2.2.2⟩
    | realloc => exact ⟨hc.2.2.1, hc.1 ▸ hn, hc.2.2.2.2⟩
    | free | store => exact hc.elim
  obtain ⟨r, hr, hafter, -⟩ := Heap.perform_runs hcore ho hen
  obtain rfl := Option.some.inj (hr.symm.trans h)
  refine hafter.live_size ?_
  cases c with
  | malloc => exact hc.1 ▸ Heap.add_self hp
  | calloc => exact hc.1 ▸ Heap.add_self hp
  | realloc old size alloc =>
    have hz : size ≠ 0 := fun hz => by
      simp only [HeapCall.perform, Heap.realloc, if_pos hz] at h
      obtain ⟨_, -, h⟩ := Option.map_eq_some_iff.mp h
      cases h
      exact hp rfl
    simp only [Live.after, if_neg hz, if_neg hp, hc.1]
    exact Heap.add_self hp
  | free | store => exact hc.elim

/-- One page is left: 2000 bytes fit, and 0xfffffff8 bytes seem to. -/
theorem block_large_lastPages :
    (∃ s', (HeapCall.malloc 2000 (lastPages 1)).perform emptyHeap = some (4108, s') ∧
      ∃ cap, s'.block_size 4108 = some cap ∧ 2000 ≤ cap) ∧
    ∃ s', (HeapCall.malloc 0xfffffff8 (lastPages 1)).perform emptyHeap = some (4108, s') ∧
      ¬ ∃ cap, s'.block_size 4108 = some cap ∧ 0xfffffff8 ≤ cap := by
  have hrun := HeapRun.init (fun _ => ⟨0, none, 0⟩) fun _ => 0
  have hfresh : Fresh emptyHeap (lastPages 1) := fresh_lastPages (by decide)
  exact ⟨⟨_, rfl, (block_large_iff hrun (c := .malloc 2000 (lastPages 1))
      ⟨rfl, by decide, rfl, hfresh⟩ rfl (by decide)).mpr (by unfold SizeOk; decide)⟩,
    _, rfl, fun h => absurd ((block_large_iff hrun (c := .malloc 0xfffffff8 (lastPages 1))
      ⟨rfl, by decide, rfl, hfresh⟩ rfl (by decide)).mp h) (by unfold SizeOk; decide)⟩

/-- A block of 4084 bytes for 0xfffffff8, and one of 135156 bytes for 0x10001 times 0x10001. -/
theorem malloc_size_overflows :
    (HeapCall.malloc 0xfffffff8 (lastPages 1)).Asks (fun _ => none) emptyHeap 0xfffffff8 ∧
    ((emptyHeap.malloc (lastPages 1) 0xfffffff8).bind fun r => r.2.block_size r.1) = some 4084 ∧
    (HeapCall.calloc 0x10001 0x10001 (lastPages 33)).Asks (fun _ => none) emptyHeap
      (0x10001 * 0x10001) ∧
    ((emptyHeap.calloc (lastPages 33) 0x10001 0x10001).bind fun r => r.2.block_size r.1) =
      some 135156 :=
  ⟨⟨rfl, by decide, rfl, fresh_lastPages (by decide)⟩, by decide +kernel,
    ⟨rfl, by decide, by decide, rfl, fresh_lastPages (by decide)⟩, by decide +kernel⟩

end Pintos
