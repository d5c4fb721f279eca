import Pintos.Userprog.Pagedir

/-!
# Userprog — Page directories refine a partial map

`Refines` relates the words of a page directory and its tables to the map `PageMap`: an entry of the
directory is a table of the map or zero, an entry of a user table says what the map says
(`EntryOk`), and an entry of a kernel table has the bits it had but for the flags asked for
(`asAsked`).  One entry is written at a time (`Refines.set_entry`), and the two indices of an address
say which (`page_no_eq`), so a call on one page is not seen on another.
-/

namespace Pintos
open Function Option
open PageMap (setAsked_of_ne setMap setMap_of_ne setMap_self setTable_of_ne setTable_self)

variable {init_page_dir ram_pages pd i j pt w va kpage : Nat} {k m : Words} {d d' : PageMap}
  {e : Nat} {mp : Option Mapping} {writable : Bool}

/-! ### Entries -/

/-- What an entry says of a user page. -/
def EntryOk (e : Nat) : Option Mapping → Prop
  | none => e.testBit 0 = false
  | some mp => e.testBit 0 = true ∧ pte_get_page e = some mp.frame ∧ e.testBit 1 = mp.writable ∧
      ∀ f : Flag, e.testBit f.bit = mp.flags f

/-- The bits of an entry that was `e`, with the flags asked for. -/
def asAsked (e : Nat) (asked : Flag → Option Bool) (b : Nat) : Bool :=
  if b = Flag.accessed.bit then (asked .accessed).getD (e.testBit b)
  else if b = Flag.dirty.bit then (asked .dirty).getD (e.testBit b)
  else e.testBit b

theorem asAsked_none (e b : Nat) : asAsked e (fun _ => none) b = e.testBit b := by
  simp [asAsked]

theorem asAsked_update {asked : Flag → Option Bool} (f : Flag) (value : Bool) (b : Nat) :
    asAsked e (update asked f (some value)) b = if b = f.bit then value else asAsked e asked b := by
  cases f <;> grind [asAsked, Flag.bit, update]

/-- The entry with the flag set or cleared. -/
def withFlag (e : Nat) (f : Flag) (value : Bool) : Nat :=
  if value then e ||| 2 ^ f.bit else e &&& complement (2 ^ f.bit)

theorem testBit_withFlag {e b : Nat} {f : Flag} {value : Bool} (hb : b < 32) :
    (withFlag e f value).testBit b = if b = f.bit then value else e.testBit b := by
  cases value with
  | false =>
    rw [withFlag, if_neg Bool.false_ne_true, testBit_clear hb]
    by_cases h : b = f.bit
    · simp [h]
    · simp [h, Ne.symm h]
  | true =>
    rw [withFlag, if_pos rfl, testBit_set]
    by_cases h : b = f.bit
    · simp [h]
    · simp [h, Ne.symm h]

theorem Flag.bit_lt (f : Flag) : 1 < f.bit ∧ f.bit < 12 := by cases f <;> decide

theorem Flag.bit_inj {f g : Flag} : f.bit = g.bit ↔ f = g := by
  cases f <;> cases g <;> decide

/-- Entries with the same frame and the same bits but the flag. -/
theorem EntryOk.withFlag (h : EntryOk e mp) (f : Flag) (value : Bool) :
    EntryOk (Pintos.withFlag e f value)
      (mp.map fun mp => { mp with flags := update mp.flags f value }) := by
  have hf := f.bit_lt
  have hbit : ∀ b, b ≠ f.bit → b < 32 →
      (Pintos.withFlag e f value).testBit b = e.testBit b := fun b hb hlt => by
    rw [testBit_withFlag hlt, if_neg hb]
  cases mp with
  | none => exact (hbit 0 (by omega) (by omega)).trans h
  | some mp =>
    obtain ⟨hp, hframe, hw, hflags⟩ := h
    refine ⟨(hbit 0 (by omega) (by omega)).trans hp, ?_, (hbit 1 (by omega) (by omega)).trans hw,
      fun g => ?_⟩
    · rw [pte_get_page, addr_congr fun b hb hlt => hbit b (by omega) hlt]
      exact hframe
    · have hg := g.bit_lt
      show _ = update mp.flags f value g
      rw [testBit_withFlag (by omega), update_apply, hflags g]
      exact if_congr Flag.bit_inj rfl rfl

theorem EntryOk.cleared : EntryOk (e &&& complement PTE_P) none := by
  show (e &&& complement (2 ^ 0)).testBit 0 = false
  rw [testBit_clear (by norm_num)]
  simp

theorem EntryOk.present_iff (h : EntryOk e mp) : e &&& PTE_P ≠ 0 ↔ mp.isSome = true := by
  rw [show PTE_P = 2 ^ 0 from rfl, flag_ne_zero]
  cases mp with
  | none => simp [show e.testBit 0 = false from h, -Nat.testBit_zero]
  | some mp => simp [h.1, -Nat.testBit_zero]

/-! ### The relation -/

/-- The words are those of the page directory `pd` and its tables, for the map `d`; `k` are the
words when `pd` was created, and `tables` the kernel's tables. -/
structure Refines (init_page_dir pd : Nat) (tables : Nat → Option Nat) (k : Words) (d : PageMap)
    (m : Words) : Prop where
  absent : ∀ i < 1024, d.tables i = none → m pd i = 0
  table : ∀ i pt, d.tables i = some pt → i < 1024 ∧ pt ≠ pd ∧ pt ≠ init_page_dir ∧ m pd i ≠ 0 ∧
    pde_get_pt (m pd i) = some pt
  inj : ∀ i j pt, d.tables i = some pt → d.tables j = some pt → i = j
  mapped : ∀ v mp, d.map v = some mp → v / 1024 < 768 ∧ (d.tables (v / 1024)).isSome = true
  user : ∀ i < 768, ∀ pt, d.tables i = some pt → ∀ j < 1024, EntryOk (m pt j) (d.map (1024 * i + j))
  kept : ∀ i, 768 ≤ i → d.tables i = tables i
  kernelDir : ∀ i, 768 ≤ i → i < 1024 → m pd i = k init_page_dir i
  kernel : ∀ i, 768 ≤ i → ∀ pt, d.tables i = some pt → ∀ j < 1024, ∀ b < 32,
    (m pt j).testBit b = asAsked (k pt j) (d.asked (1024 * i + j)) b
  base : m init_page_dir = k init_page_dir

variable {tables : Nat → Option Nat}

theorem pd_no_phys_base : pd_no PHYS_BASE = 768 := by decide

theorem pd_no_user (h : va < PHYS_BASE) : pd_no va < 768 := by
  rw [pd_no_eq]
  simp only [PHYS_BASE] at h
  omega

theorem pd_no_kernel (h : PHYS_BASE ≤ va) : 768 ≤ pd_no va := by
  rw [pd_no_eq]
  simp only [PHYS_BASE] at h
  omega

theorem pd_no_lt (h : va < 2 ^ 32) : pd_no va < 1024 := by
  rw [pd_no_eq]
  omega

theorem pt_no_lt (va : Nat) : pt_no va < 1024 := by
  rw [pt_no_eq]
  omega

@[simp] theorem Words.set_same : (m.set pt j w) pt j = w := by
  simp [Words.set]

theorem Words.set_page (h : i ≠ pt) : (m.set pt j w) i = m i := update_of_ne h _ _

theorem Words.set_index {j' : Nat} (h : j' ≠ j) : (m.set pt j w) i j' = m i j' := by
  by_cases hi : i = pt
  · subst hi
    rw [Words.set, update_self, update_of_ne h]
  · rw [Words.set_page hi]

namespace Refines

/-- A new directory. -/
theorem create (hk : KernelDir init_page_dir tables k) (hinit : pd ≠ init_page_dir)
    (hfresh : ∀ i, tables i ≠ some pd) :
    Refines init_page_dir pd tables k (.new tables) (update k pd (k init_page_dir)) where
  absent i hi h := by
    rw [update_self]
    exact hk.empty i hi h
  table i pt h := by
    obtain ⟨hi, hpt, hne, hget⟩ := hk.table i pt h
    rw [update_self]
    exact ⟨hi, fun he => hfresh i (he ▸ h), hpt, hne, hget⟩
  inj := hk.inj
  mapped v mp h := nomatch h
  user i hi pt h := by
    rw [show (PageMap.new tables).tables i = tables i from rfl,
      (hk.user i (pd_no_phys_base ▸ hi)).2] at h
    nomatch h
  kept i _ := rfl
  kernelDir i _ _ := by rw [update_self]
  kernel i hi pt h j hj b hb := by
    have hne : pt ≠ pd := fun he => hfresh i (he ▸ h)
    rw [update_of_ne hne]
    exact (asAsked_none _ _).symm
  base := update_of_ne hinit.symm _ _

variable (h : Refines init_page_dir pd tables k d m)
include h

theorem lookup (hpd : pd ≠ 0) (hva : va < 2 ^ 32) :
    lookup_page pd va false none m = some ((d.tables (pd_no va)).map (·, pt_no va), m) := by
  rw [lookup_page, if_neg (by simpa using hpd)]
  cases ht : d.tables (pd_no va) with
  | none => rw [if_pos (h.absent _ (pd_no_lt hva) ht)]; rfl
  | some pt =>
    obtain ⟨-, -, -, hne, hget⟩ := h.table _ _ ht
    rw [if_neg hne, hget]
    rfl

/-- One entry is written, and the map changes at its page only. -/
theorem set_entry (hpt : d.tables i = some pt) (hj : j < 1024) (htables : d'.tables = d.tables)
    (hmap : ∀ v, v ≠ 1024 * i + j → d'.map v = d.map v)
    (hasked : ∀ v, v ≠ 1024 * i + j → d'.asked v = d.asked v)
    (huser : i < 768 → EntryOk w (d'.map (1024 * i + j)))
    (hkernel : 768 ≤ i → d'.map (1024 * i + j) = none ∧
      ∀ b < 32, w.testBit b = asAsked (k pt j) (d'.asked (1024 * i + j)) b) :
    Refines init_page_dir pd tables k d' (m.set pt j w) := by
  obtain ⟨-, hpd, hinit, -, -⟩ := h.table i pt hpt
  have hdir : m.set pt j w pd = m pd := Words.set_page hpd.symm
  -- another entry is in another table or has another index there
  have hother : ∀ i' pt' j', d.tables i' = some pt' → ¬ (i' = i ∧ j' = j) →
      m.set pt j w pt' j' = m pt' j' := by
    intro i' pt' j' ht hne
    by_cases hp : pt' = pt
    · subst hp
      exact Words.set_index fun hj => hne ⟨h.inj _ _ _ ht hpt, hj⟩
    · rw [Words.set_page hp]
  have hno : ∀ i' j', j' < 1024 → ¬ (i' = i ∧ j' = j) → 1024 * i' + j' ≠ 1024 * i + j := by
    omega
  refine ⟨?_, ?_, ?_, ?_, ?_, ?_, ?_, ?_, ?_⟩
  · intro i hi ht
    rw [hdir]
    exact h.absent i hi (htables ▸ ht)
  · intro i pt ht
    rw [hdir]
    exact h.table i pt (htables ▸ ht)
  · rw [htables]
    exact h.inj
  · intro v mp hv
    rw [htables]
    by_cases he : v = 1024 * i + j
    · rw [he, show (1024 * i + j) / 1024 = i by omega, hpt]
      refine ⟨?_, rfl⟩
      by_contra hi
      rw [he, (hkernel (by omega)).1] at hv
      nomatch hv
    · exact h.mapped v mp (hmap v he ▸ hv)
  · intro i' hi' pt' ht j' hj'
    rw [htables] at ht
    by_cases he : i' = i ∧ j' = j
    · obtain ⟨rfl, rfl⟩ := he
      obtain rfl : pt = pt' := Option.some.inj (hpt.symm.trans ht)
      rw [Words.set_same]
      exact huser hi'
    · rw [hother i' pt' j' ht he, hmap _ (hno i' j' hj' he)]
      exact h.user i' hi' pt' ht j' hj'
  · rw [htables]
    exact h.kept
  · rw [hdir]
    exact h.kernelDir
  · intro i' hi' pt' ht j' hj' b hb
    rw [htables] at ht
    by_cases he : i' = i ∧ j' = j
    · obtain ⟨rfl, rfl⟩ := he
      obtain rfl : pt = pt' := Option.some.inj (hpt.symm.trans ht)
      rw [Words.set_same]
      exact (hkernel hi').2 b hb
    · rw [hother i' pt' j' ht he, hasked _ (hno i' j' hj' he)]
      exact h.kernel i' hi' pt' ht j' hj' b hb
  · rw [Words.set_page hinit.symm]
    exact h.base

/-- A page table is added for a user page. -/
theorem set_table (hinit : pd ≠ init_page_dir) (hva : va < PHYS_BASE)
    (hnone : d.tables (pd_no va) = none) (hne : pt ≠ pd) (hne' : pt ≠ init_page_dir)
    (hfresh : ∀ i, d.tables i ≠ some pt) (hw : w ≠ 0) (hget : pde_get_pt w = some pt) :
    Refines init_page_dir pd tables k (d.setTable va pt) ((m.fill pt 0).set pd (pd_no va) w) := by
  have hno := pd_no_user hva
  have hdir : ∀ i, i ≠ pd_no va → (m.fill pt 0).set pd (pd_no va) w pd i = m pd i := by
    intro i hi
    rw [Words.set_index hi, Words.fill, update_of_ne hne.symm]
  have hpage : ∀ p, p ≠ pd → p ≠ pt → (m.fill pt 0).set pd (pd_no va) w p = m p := by
    intro p hp hp'
    rw [Words.set_page hp, Words.fill, update_of_ne hp']
  have hnew : ∀ j, (m.fill pt 0).set pd (pd_no va) w pt j = 0 := by
    intro j
    rw [Words.set_page hne, Words.fill, update_self]
  have htable : ∀ i pt', (d.setTable va pt).tables i = some pt' →
      i = pd_no va ∧ pt' = pt ∨ i ≠ pd_no va ∧ pt' ≠ pt ∧ d.tables i = some pt' := by
    intro i pt' ht
    by_cases hi : i = pd_no va
    · rw [hi, setTable_self] at ht
      exact .inl ⟨hi, (Option.some.inj ht).symm⟩
    · rw [setTable_of_ne hi] at ht
      exact .inr ⟨hi, fun he => hfresh i (he ▸ ht), ht⟩
  have hmap : ∀ j < 1024, d.map (1024 * pd_no va + j) = none := by
    intro j hj
    by_contra hsome
    obtain ⟨mp, hmp⟩ := Option.ne_none_iff_exists'.mp hsome
    have := (h.mapped _ mp hmp).2
    rw [show (1024 * pd_no va + j) / 1024 = pd_no va by omega, hnone] at this
    nomatch this
  refine ⟨?_, ?_, ?_, ?_, ?_, ?_, ?_, ?_, ?_⟩
  · intro i hi ht
    have hi' : i ≠ pd_no va := fun he => by
      rw [he, setTable_self] at ht
      nomatch ht
    rw [setTable_of_ne hi'] at ht
    rw [hdir i hi']
    exact h.absent i hi ht
  · intro i pt' ht
    rcases htable i pt' ht with ⟨rfl, rfl⟩ | ⟨hi, -, ht⟩
    · rw [Words.set_same]
      exact ⟨by omega, hne, hne', hw, hget⟩
    · rw [hdir i hi]
      exact h.table i pt' ht
  · intro i j pt' ht ht'
    rcases htable i pt' ht with ⟨hi, hp⟩ | ⟨-, hp, ht⟩ <;>
      rcases htable j pt' ht' with ⟨hj, hp'⟩ | ⟨-, hp', ht'⟩
    · exact hi.trans hj.symm
    · exact absurd hp hp'
    · exact absurd hp' hp
    · exact h.inj i j pt' ht ht'
  · intro v mp hv
    obtain ⟨hlt, hsome⟩ := h.mapped v mp hv
    refine ⟨hlt, ?_⟩
    by_cases hi : v / 1024 = pd_no va
    · rw [hi, setTable_self]
      rfl
    · rw [setTable_of_ne hi]
      exact hsome
  · intro i hi pt' ht j hj
    rcases htable i pt' ht with ⟨rfl, rfl⟩ | ⟨-, hp, ht⟩
    · rw [hnew, show (d.setTable va pt').map _ = _ from hmap j hj]
      rfl
    · rw [hpage pt' (h.table i pt' ht).2.1 hp]
      exact h.user i hi pt' ht j hj
  · intro i hi
    rw [setTable_of_ne (by omega)]
    exact h.kept i hi
  · intro i hi hlt
    rw [hdir i (by omega)]
    exact h.kernelDir i hi hlt
  · intro i hi pt' ht j hj b hb
    rcases htable i pt' ht with ⟨rfl, rfl⟩ | ⟨-, hp, ht⟩
    · omega
    · rw [hpage pt' (h.table i pt' ht).2.1 hp]
      exact h.kernel i hi pt' ht j hj b hb
  · rw [hpage _ hinit.symm hne'.symm]
    exact h.base

/-! ### Calls -/

/-- An unmapped page stays so. -/
theorem map_none (ht : d.tables (pd_no va) = none) : d.map (va / PGSIZE) = none := by
  by_contra hsome
  obtain ⟨mp, hmp⟩ := Option.ne_none_iff_exists'.mp hsome
  have hlt := pt_no_lt va
  have := (h.mapped _ mp hmp).2
  rw [show va / PGSIZE / 1024 = pd_no va by rw [page_no_eq]; omega, ht] at this
  nomatch this

/-- A kernel page is not in the map. -/
theorem map_kernel (hva : PHYS_BASE ≤ va) : d.map (va / PGSIZE) = none := by
  by_contra hsome
  obtain ⟨mp, hmp⟩ := Option.ne_none_iff_exists'.mp hsome
  have := (h.mapped _ mp hmp).1
  simp only [PHYS_BASE, PGSIZE] at *
  omega

theorem set_flag_runs (hpd : pd ≠ 0) (hva : va < 2 ^ 32) (f : Flag) (value : Bool) :
    ∃ m', set_flag (2 ^ f.bit) pd va value m = some m' ∧
      Refines init_page_dir pd tables k (d.setFlag f va value) m' := by
  rw [set_flag, h.lookup hpd hva]
  have hno := page_no_eq va
  have hlt := pt_no_lt va
  rcases lt_or_ge va PHYS_BASE with huser | hkernel
  · rw [PageMap.setFlag_user huser]
    cases ht : d.tables (pd_no va) with
    | none =>
      refine ⟨m, rfl, ?_⟩
      rw [setMap, h.map_none ht, Option.map_none, ← h.map_none ht, update_eq_self]
      exact h
    | some pt =>
      refine ⟨_, rfl, h.set_entry ht hlt rfl (fun v hv => ?_) (fun _ _ => rfl) (fun hi => ?_)
        fun hi => absurd (pd_no_user huser) (by omega)⟩
      · exact setMap_of_ne (hno ▸ hv)
      · rw [← hno, setMap_self, hno]
        exact (h.user _ hi pt ht _ hlt).withFlag f value
  · rw [PageMap.setFlag_kernel hkernel]
    cases ht : d.tables (pd_no va) with
    | none =>
      refine ⟨m, rfl, { h with kernel := fun i hi pt hpt j hj b hb => ?_ }⟩
      have hne : 1024 * i + j ≠ va / PGSIZE := fun he => by
        rw [show i = pd_no va by omega] at hpt
        nomatch ht.symm.trans hpt
      rw [setAsked_of_ne hne]
      exact h.kernel i hi pt hpt j hj b hb
    | some pt =>
      refine ⟨_, rfl, h.set_entry ht hlt rfl (fun _ _ => rfl) (fun v hv => ?_)
        (fun hi => absurd (pd_no_kernel hkernel) (by omega)) fun hi => ⟨?_, fun b hb => ?_⟩⟩
      · exact setAsked_of_ne (hno ▸ hv)
      · exact hno ▸ h.map_kernel hkernel
      · rw [← hno, PageMap.setAsked_self, asAsked_update, hno, ← h.kernel _ hi pt ht _ hlt b hb]
        exact testBit_withFlag hb

theorem clear_page_runs (hpd : pd ≠ 0) (hofs : pg_ofs va = 0) (hva : va < PHYS_BASE) :
    ∃ m', pagedir_clear_page pd va m = some m' ∧
      Refines init_page_dir pd tables k (d.setMap va none) m' := by
  rw [pagedir_clear_page, if_pos ⟨hofs, decide_eq_true hva⟩,
    h.lookup hpd (hva.trans (by norm_num [PHYS_BASE]))]
  have hno := page_no_eq va
  have hlt := pt_no_lt va
  have hsame : d.map (va / PGSIZE) = none → d.setMap va none = d := fun hn => by
    rw [setMap, ← hn, update_eq_self]
  cases ht : d.tables (pd_no va) with
  | none => exact ⟨m, rfl, by rwa [hsame (h.map_none ht)]⟩
  | some pt =>
    have hok := h.user _ (pd_no_user hva) pt ht _ hlt
    by_cases hp : m pt (pt_no va) &&& PTE_P ≠ 0
    · refine ⟨_, if_pos hp, h.set_entry ht hlt rfl (fun v hv => ?_) (fun _ _ => rfl)
        (fun hi => ?_) fun hi => absurd (pd_no_user hva) (by omega)⟩
      · exact setMap_of_ne (hno ▸ hv)
      · rw [← hno, setMap_self]
        exact EntryOk.cleared
    · refine ⟨m, if_neg hp, ?_⟩
      rw [hok.present_iff, Bool.not_eq_true, isSome_eq_false_iff, isNone_iff_eq_none,
        ← hno] at hp
      rwa [hsame hp]

/-- The entry of an unmapped page is written. -/
theorem write_entry (hva : va < PHYS_BASE) (ht : d.tables (pd_no va) = some pt) {e : Nat}
    (he : EntryOk e (some ⟨kpage, writable, fun _ => false⟩)) :
    Refines init_page_dir pd tables k (d.setMap va (some ⟨kpage, writable, fun _ => false⟩))
      (m.set pt (pt_no va) e) := by
  have hno := page_no_eq va
  refine h.set_entry ht (pt_no_lt va) rfl (fun v hv => ?_) (fun _ _ => rfl) (fun hi => ?_)
    fun hi => absurd (pd_no_user hva) (by omega)
  · exact setMap_of_ne (hno ▸ hv)
  · rw [← hno, setMap_self]
    exact he

/-- The end of `pagedir_set_page`, once there is a page table. -/
theorem set_entry_runs (hva : va < PHYS_BASE) (ht : d.tables (pd_no va) = some pt)
    (hmap : d.map (va / PGSIZE) = none) (hk : KernelPage kpage) (writable : Bool) :
    ∃ e, pte_create_user kpage writable = some e ∧ m pt (pt_no va) &&& PTE_P = 0 ∧
      Refines init_page_dir pd tables k (d.setMap va (some ⟨kpage, writable, fun _ => false⟩))
        (m.set pt (pt_no va) e) := by
  obtain ⟨e, he, hframe, h0, h1, h5, h6⟩ := pte_create_user_eq hk writable
  refine ⟨e, he, ?_, h.write_entry hva ht ⟨h0, hframe, h1, fun f => ?_⟩⟩
  · have hok := h.user _ (pd_no_user hva) pt ht _ (pt_no_lt va)
    rw [← page_no_eq, hmap] at hok
    by_contra hp
    exact absurd (hok.present_iff.mp hp) (by simp)
  · cases f with
    | accessed => exact h5
    | dirty => exact h6

theorem set_page_runs (hpd : pd ≠ 0) (hinit : pd ≠ init_page_dir) {alloc : Option Nat}
    (hr : d.Ready init_page_dir ram_pages pd (.set_page va kpage writable alloc)) :
    ∃ m', pagedir_set_page init_page_dir ram_pages pd va kpage writable alloc m =
        some (d.returns (.set_page va kpage writable alloc), m') ∧
      Refines init_page_dir pd tables k (d.after (.set_page va kpage writable alloc)) m' := by
  obtain ⟨hofs, hva, hmap, hk, hram, halloc⟩ := hr
  have huser : is_user_vaddr va = true := decide_eq_true hva
  have hvtop : (vtop kpage).any (fun paddr => paddr >>> PTSHIFT < ram_pages) = true := by
    rw [hk.vtop_eq, any_some, Nat.shiftRight_eq_div_pow]
    exact decide_eq_true hram
  rw [pagedir_set_page, if_pos ⟨hofs, hk.aligned, huser, hvtop, hinit⟩]
  unfold lookup_page
  rw [if_neg (by simp [hpd, huser])]
  simp only [PageMap.after, PageMap.returns]
  cases ht : d.tables (pd_no va) with
  | some pt =>
    obtain ⟨-, -, -, hne, hget⟩ := h.table _ _ ht
    obtain ⟨e, he, hp, hnew⟩ := h.set_entry_runs hva ht hmap hk writable
    rw [if_neg hne, hget]
    exact ⟨_, (if_pos hp).trans (by rw [he]; rfl), hnew⟩
  | none =>
    rw [if_pos (h.absent _ (pd_no_lt (hva.trans (by norm_num [PHYS_BASE]))) ht), if_pos trivial]
    cases alloc with
    | none => exact ⟨m, rfl, h⟩
    | some pt =>
      obtain ⟨hpt, hne, hne', hfresh⟩ := halloc pt rfl
      obtain ⟨w, hw, hw₀, -, hget⟩ := pde_create_eq hpt
      have h' := h.set_table hinit hva ht hne hne' hfresh hw₀ hget
      obtain ⟨e, he, hp, hnew⟩ :=
        h'.set_entry_runs hva setTable_self hmap hk writable
      refine ⟨_, ?_, hnew⟩
      simp only [hw, bind_eq_bind, bind_some, Words.set_same, hget]
      exact (if_pos hp).trans (by rw [he]; rfl)

/-- One call. -/
theorem step (hpd : pd ≠ 0) (hinit : pd ≠ init_page_dir) {c : DirCall}
    (hr : d.Ready init_page_dir ram_pages pd c) :
    ∃ m', c.perform init_page_dir ram_pages pd m = some (d.returns c, m') ∧
      Refines init_page_dir pd tables k (d.after c) m' := by
  cases c with
  | set_page upage kpage writable alloc => exact h.set_page_runs hpd hinit hr
  | clear_page upage =>
    obtain ⟨m', hrun, h'⟩ := h.clear_page_runs hpd hr.1 hr.2
    exact ⟨m', by rw [DirCall.perform, hrun]; rfl, h'⟩
  | set_dirty vpage value =>
    obtain ⟨m', hrun, h'⟩ := h.set_flag_runs hpd hr .dirty value
    exact ⟨m', congrArg (Option.map (true, ·)) hrun, h'⟩
  | set_accessed vpage value =>
    obtain ⟨m', hrun, h'⟩ := h.set_flag_runs hpd hr .accessed value
    exact ⟨m', congrArg (Option.map (true, ·)) hrun, h'⟩

/-- Calls in turn. -/
theorem run (hpd : pd ≠ 0) (hinit : pd ≠ init_page_dir) {cs : List DirCall}
    (hr : d.Along (PageMap.Ready init_page_dir ram_pages pd) cs) :
    ∃ m', dir_calls init_page_dir ram_pages pd cs m = some (d.returnsAll cs, m') ∧
      Refines init_page_dir pd tables k (d.afterAll cs) m' := by
  induction cs generalizing d m with
  | nil => exact ⟨m, rfl, h⟩
  | cons c cs ih =>
    obtain ⟨m₁, hstep, h₁⟩ := h.step hpd hinit hr.1
    obtain ⟨m₂, hrun, h₂⟩ := ih h₁ hr.2
    exact ⟨m₂, by simp [dir_calls, hstep, hrun, PageMap.returnsAll], h₂⟩

/-! ### What is read back -/

theorem get_page (hpd : pd ≠ 0) (hva : va < PHYS_BASE) :
    pagedir_get_page pd va m = some ((d.map (va / PGSIZE)).map fun mp => mp.frame + pg_ofs va) := by
  rw [pagedir_get_page, if_pos (show is_user_vaddr va = true from decide_eq_true hva),
    h.lookup hpd (hva.trans (by norm_num [PHYS_BASE]))]
  cases ht : d.tables (pd_no va) with
  | none => rw [h.map_none ht]; rfl
  | some pt =>
    have hok := h.user _ (pd_no_user hva) pt ht _ (pt_no_lt va)
    have hp := hok.present_iff
    rw [← page_no_eq] at hok hp
    cases hmp : d.map (va / PGSIZE) with
    | none => simp_all
    | some mp =>
      rw [hmp] at hok hp
      have hframe := hok.2.1
      simp_all

theorem is_flag_mapped (hpd : pd ≠ 0) (hva : va < PHYS_BASE) {mp : Mapping}
    (hmp : d.map (va / PGSIZE) = some mp) (f : Flag) :
    is_flag (2 ^ f.bit) pd va m = some (mp.flags f) := by
  rw [is_flag, h.lookup hpd (hva.trans (by norm_num [PHYS_BASE]))]
  cases ht : d.tables (pd_no va) with
  | none => exact absurd (hmp.symm.trans (h.map_none ht)) nofun
  | some pt =>
    have hok := h.user _ (pd_no_user hva) pt ht _ (pt_no_lt va)
    rw [← page_no_eq, hmp] at hok
    show some (decide (m pt (pt_no va) &&& 2 ^ f.bit ≠ 0)) = _
    rw [← hok.2.2.2 f]
    simp only [flag_ne_zero, Bool.decide_eq_true]

end Refines

end Pintos
