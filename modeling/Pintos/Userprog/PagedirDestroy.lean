import Pintos.Threads.PagingInit
import Pintos.Userprog.PagedirRuns

/-!
# Userprog — What `pagedir_destroy` frees

`pagedir_destroy` overwrites each page that it frees, while it still reads the directory and its
tables.  It frees every page once because what the directory holds is pairwise apart
(`PageMap.Exclusive`), which calls keep as long as `pagedir_set_page` is given pages of
`palloc_get_page` (`PageMap.Exclusive.run`).  `page_tables_refine` is the whole of a directory's life.
-/

namespace Pintos
open List Option Function
open PageMap (Granted setMap_of_ne setMap_self setTable_of_ne setTable_self)

variable {init_page_dir ram_pages pd pt va : Nat} {tables : Nat → Option Nat} {k m m' : Words}
  {d d' : PageMap} {i p : Nat} {alloc : Option Nat} {cs : List DirCall} {writable : Bool}

/-! ### What a directory holds -/

/-- A frame is mapped once, and is no page of the directory itself. -/
structure PageMap.Exclusive (pd : Nat) (d : PageMap) : Prop where
  inj : ∀ v v' mp mp', d.map v = some mp → d.map v' = some mp' → mp.frame = mp'.frame → v = v'
  dir : ∀ v mp, d.map v = some mp → mp.frame ≠ pd
  table : ∀ v mp i, d.map v = some mp → d.tables i ≠ some mp.frame

namespace PageMap.Exclusive

theorem new (tables : Nat → Option Nat) : (PageMap.new tables).Exclusive pd where
  inj _ _ _ _ h := nomatch h
  dir _ _ h := nomatch h
  table _ _ _ h := nomatch h

section

variable (h : d.Exclusive pd)
include h

/-- Pages are unmapped, or their flags change. -/
theorem mono (htables : d'.tables = d.tables)
    (hmap : ∀ v mp', d'.map v = some mp' → ∃ mp, d.map v = some mp ∧ mp.frame = mp'.frame) :
    d'.Exclusive pd where
  inj v v' mp mp' hv hv' he := by
    obtain ⟨mq, hq, hf⟩ := hmap v mp hv
    obtain ⟨mq', hq', hf'⟩ := hmap v' mp' hv'
    exact h.inj v v' mq mq' hq hq' (by rw [hf, hf', he])
  dir v mp hv := by
    obtain ⟨mq, hq, hf⟩ := hmap v mp hv
    exact hf ▸ h.dir v mq hq
  table v mp i hv := by
    obtain ⟨mq, hq, hf⟩ := hmap v mp hv
    rw [htables, ← hf]
    exact h.table v mq i hq

theorem setFlag (f : Flag) (va : Nat) (value : Bool) : (d.setFlag f va value).Exclusive pd := by
  rcases lt_or_ge va PHYS_BASE with huser | hkernel
  · rw [PageMap.setFlag_user huser]
    refine h.mono rfl fun v mp' hv => ?_
    by_cases he : v = va / PGSIZE
    · rw [he, setMap_self, map_eq_some_iff] at hv
      obtain ⟨mp, hmp, rfl⟩ := hv
      exact ⟨mp, he ▸ hmp, rfl⟩
    · rw [setMap_of_ne he] at hv
      exact ⟨mp', hv, rfl⟩
  · rw [PageMap.setFlag_kernel hkernel]
    exact h.mono rfl fun v mp' hv => ⟨mp', hv, rfl⟩

/-- A page that the directory does not hold is mapped. -/
theorem setMap {kpage : Nat} {flags : Flag → Bool} (hfree : ¬ d.Holds pd kpage) :
    (d.setMap va (some ⟨kpage, writable, flags⟩)).Exclusive pd := by
  have hcases : ∀ v mp, (d.setMap va (some ⟨kpage, writable, flags⟩)).map v = some mp →
      v = va / PGSIZE ∧ mp.frame = kpage ∨ d.map v = some mp ∧ mp.frame ≠ kpage := by
    intro v mp hv
    by_cases he : v = va / PGSIZE
    · rw [he, setMap_self] at hv
      exact .inl ⟨he, by rw [← Option.some.inj hv]⟩
    · rw [setMap_of_ne he] at hv
      exact .inr ⟨hv, fun hf => hfree (.inr (.inr ⟨v, mp, hv, hf⟩))⟩
  refine ⟨fun v v' mp mp' hv hv' he => ?_, fun v mp hv hf => ?_, fun v mp i hv ht => ?_⟩
  · rcases hcases v mp hv with ⟨h₁, hf⟩ | ⟨h₁, hf⟩ <;>
      rcases hcases v' mp' hv' with ⟨h₂, hf'⟩ | ⟨h₂, hf'⟩
    · exact h₁.trans h₂.symm
    · exact absurd (he ▸ hf) hf'
    · exact absurd (he.trans hf') hf
    · exact h.inj v v' mp mp' h₁ h₂ he
  · rcases hcases v mp hv with ⟨-, hk⟩ | ⟨hv, -⟩
    · exact hfree (.inl (hk ▸ hf))
    · exact h.dir v mp hv hf
  · rcases hcases v mp hv with ⟨-, hk⟩ | ⟨hv, -⟩
    · exact hfree (.inr (.inl ⟨i, hk ▸ ht⟩))
    · exact h.table v mp i hv ht

/-- A page that the directory does not hold becomes a page table. -/
theorem setTable (hfree : ¬ d.Holds pd pt) : (d.setTable va pt).Exclusive pd := by
  refine ⟨h.inj, h.dir, fun v mp i hv ht => ?_⟩
  by_cases hi : i = pd_no va
  · rw [hi, setTable_self] at ht
    exact hfree (.inr (.inr ⟨v, mp, hv, (Option.some.inj ht).symm⟩))
  · rw [setTable_of_ne hi] at ht
    exact h.table v mp i hv ht

theorem step {c : DirCall} (hg : d.Granted pd c) : (d.after c).Exclusive pd := by
  cases c with
  | set_page upage kpage writable alloc =>
    obtain ⟨hk, halloc⟩ := hg
    simp only [PageMap.after]
    cases d.tables (pd_no upage) with
    | some pt => exact h.setMap hk
    | none =>
      cases alloc with
      | none => exact h
      | some pt =>
        obtain ⟨hne, hpt⟩ := halloc pt rfl
        refine (h.setTable hpt).setMap fun hold => ?_
        rcases hold with hold | ⟨i, hi⟩ | hold
        · exact hk (.inl hold)
        · by_cases he : i = pd_no upage
          · rw [he, setTable_self] at hi
            exact hne (Option.some.inj hi)
          · rw [setTable_of_ne he] at hi
            exact hk (.inr (.inl ⟨i, hi⟩))
        · exact hk (.inr (.inr hold))
  | clear_page upage =>
    refine h.mono rfl fun v mp' hv => ⟨mp', ?_, rfl⟩
    by_cases he : v = upage / PGSIZE
    · rw [he, PageMap.after, setMap_self] at hv
      cases hv
    · rwa [PageMap.after, setMap_of_ne he] at hv
  | set_dirty vpage value => exact h.setFlag .dirty vpage value
  | set_accessed vpage value => exact h.setFlag .accessed vpage value

theorem run (hg : d.Along (Granted pd) cs) : (d.afterAll cs).Exclusive pd := by
  induction cs generalizing d with
  | nil => exact h
  | cons c cs ih => exact ih (h.step hg.1) hg.2

end

end PageMap.Exclusive

/-! ### The loops -/

/-- The frames of the pages `1024 * i + j` with `j` in `js`. -/
def PageMap.frames (d : PageMap) (i : Nat) (js : List Nat) : List Nat :=
  js.filterMap fun j => (d.map (1024 * i + j)).map Mapping.frame

/-- What the directory entry `i` refers to. -/
def PageMap.entryPages (d : PageMap) (i : Nat) : List Nat :=
  (d.tables i).elim [] fun pt => d.frames i (List.range 1024) ++ [pt]

/-- What the directory entries `is` refer to. -/
def PageMap.pages (d : PageMap) (is : List Nat) : List Nat := is.flatMap d.entryPages

theorem Freeing.words_of_ne {s : Freeing} {page p : Nat} (h : p ≠ page) :
    (s.palloc_free_page page).words p = s.words p := update_of_ne h _ _

theorem destroy_entries_runs (d : PageMap) {i : Nat} (js : List Nat) (s : Freeing)
    (hok : ∀ j ∈ js, EntryOk (s.words pt j) (d.map (1024 * i + j)))
    (hne : ∀ p ∈ d.frames i js, p ≠ pt) :
    ∃ s', destroy_entries pt js s = some s' ∧ s'.freed = s.freed ++ d.frames i js ∧
      ∀ p, p ∉ d.frames i js → s'.words p = s.words p := by
  induction js generalizing s with
  | nil => exact ⟨s, rfl, (append_nil _).symm, fun _ _ => rfl⟩
  | cons j js ih =>
    have hj := hok j List.mem_cons_self
    have hp := hj.present_iff
    rw [destroy_entries]
    cases hmp : d.map (1024 * i + j) with
    | none =>
      have hframes : d.frames i (j :: js) = d.frames i js := by simp [PageMap.frames, hmp]
      rw [hmp] at hp
      rw [hframes] at hne ⊢
      rw [if_neg fun h => nomatch hp.mp h]
      exact ih s (fun j' hj' => hok j' (List.mem_cons_of_mem _ hj')) hne
    | some mp =>
      have hframes : d.frames i (j :: js) = mp.frame :: d.frames i js := by
        simp [PageMap.frames, hmp]
      rw [hmp] at hp hj
      rw [hframes] at hne ⊢
      have hpt : mp.frame ≠ pt := hne _ List.mem_cons_self
      obtain ⟨s', hrun, hfreed, hwords⟩ := ih (s.palloc_free_page mp.frame) (fun j' hj' => by
          rw [Freeing.words_of_ne hpt.symm]
          exact hok j' (List.mem_cons_of_mem _ hj'))
        fun p hp => hne p (List.mem_cons_of_mem _ hp)
      refine ⟨s', ?_, ?_, fun p hp => ?_⟩
      · rw [if_pos (hp.mpr rfl), hj.2.1]
        exact hrun
      · rw [hfreed, Freeing.palloc_free_page, List.append_assoc]
        rfl
      · rw [List.mem_cons, not_or] at hp
        rw [hwords p hp.2, Freeing.words_of_ne hp.1]

/-- The directory entry `i` refers to the page: as its table, or through it. -/
def PageMap.RefersTo (d : PageMap) (i p : Nat) : Prop :=
  ∃ pt, d.tables i = some pt ∧ (p = pt ∨ p ∈ d.frames i (List.range 1024))

theorem PageMap.mem_frames {js : List Nat} :
    p ∈ d.frames i js ↔ ∃ j ∈ js, ∃ mp, d.map (1024 * i + j) = some mp ∧ mp.frame = p := by
  simp [PageMap.frames, List.mem_filterMap]

theorem PageMap.mem_entryPages : p ∈ d.entryPages i ↔ d.RefersTo i p := by
  unfold PageMap.entryPages PageMap.RefersTo
  cases d.tables i with
  | none => simp
  | some pt => simp [or_comm]

theorem PageMap.mem_pages {is : List Nat} {p : Nat} :
    p ∈ d.pages is ↔ ∃ i ∈ is, d.RefersTo i p := by
  simp only [PageMap.pages, mem_flatMap, PageMap.mem_entryPages]

section

variable (h : Refines init_page_dir pd tables k d m)
include h

/-- No two directory entries refer to one page, and none to the directory. -/
theorem Refines.refersTo_inj (hx : d.Exclusive pd) {i j p : Nat} (hi : d.RefersTo i p)
    (hj : d.RefersTo j p) : i = j := by
  obtain ⟨pt, ht, hp⟩ := hi
  obtain ⟨pt', ht', hp'⟩ := hj
  rw [PageMap.mem_frames] at hp hp'
  rcases hp with rfl | ⟨a, ha, mp, hmp, hf⟩ <;> rcases hp' with hp' | ⟨b, hb, mp', hmp', hf'⟩
  · exact h.inj i j p ht (hp' ▸ ht')
  · exact absurd (hf' ▸ ht) (hx.table _ mp' i hmp')
  · exact absurd (by rw [hf, hp', ht']) (hx.table _ mp j hmp)
  · have := hx.inj _ _ mp mp' hmp hmp' (hf.trans hf'.symm)
    rw [List.mem_range] at ha hb
    omega

theorem Refines.not_refersTo_dir (hx : d.Exclusive pd) {i : Nat} : ¬ d.RefersTo i pd := by
  rintro ⟨pt, ht, rfl | hp⟩
  · exact (h.table i _ ht).2.1 rfl
  · obtain ⟨j, -, mp, hmp, hf⟩ := PageMap.mem_frames.mp hp
    exact hx.dir _ mp hmp hf

theorem destroy_tables_runs (hx : d.Exclusive pd) (is : List Nat) (s : Freeing)
    (hlt : ∀ i ∈ is, i < 768) (hnodup : is.Nodup) (hdir : s.words pd = m pd)
    (htab : ∀ i ∈ is, ∀ pt, d.tables i = some pt → s.words pt = m pt) :
    ∃ s', destroy_tables pd is s = some s' ∧ s'.freed = s.freed ++ d.pages is ∧
      ∀ p, p ∉ d.pages is → s'.words p = s.words p := by
  induction is generalizing s with
  | nil => exact ⟨s, rfl, (append_nil _).symm, fun _ _ => rfl⟩
  | cons i is ih =>
    obtain ⟨hi, hnodup⟩ := List.nodup_cons.mp hnodup
    have hlt' : ∀ j ∈ is, j < 768 := fun j hj => hlt j (List.mem_cons_of_mem _ hj)
    rw [destroy_tables, hdir]
    cases ht : d.tables i with
    | none =>
      have hz := h.absent i ((hlt i List.mem_cons_self).trans (by norm_num)) ht
      have hpages : d.pages (i :: is) = d.pages is := by
        simp [PageMap.pages, PageMap.entryPages, ht]
      rw [if_neg (by rw [hz]; decide), hpages]
      exact ih s hlt' hnodup hdir fun j hj => htab j (List.mem_cons_of_mem _ hj)
    | some pt =>
      obtain ⟨-, hne, -, -, hget⟩ := h.table i pt ht
      have hp : m pd i &&& PTE_P ≠ 0 := fun hz => by
        rw [pde_get_pt, if_neg (not_not.mpr hz)] at hget
        cases hget
      have hpages : d.pages (i :: is) = d.frames i (List.range 1024) ++ pt :: d.pages is := by
        simp [PageMap.pages, PageMap.entryPages, ht]
      have hrefers : ∀ p ∈ d.frames i (List.range 1024), d.RefersTo i p := fun p hp =>
        ⟨pt, ht, .inr hp⟩
      obtain ⟨s₁, hrun₁, hfreed₁, hwords₁⟩ := destroy_entries_runs d (List.range 1024) s
        (fun j hj => by
          rw [htab i List.mem_cons_self pt ht]
          exact h.user i (hlt i List.mem_cons_self) pt ht j (List.mem_range.mp hj))
        fun p hp he => by
          obtain ⟨j, -, mp, hmp, hf⟩ := PageMap.mem_frames.mp hp
          exact hx.table _ mp i hmp (by rw [hf, he, ht])
      -- what is freed for this entry is neither the directory nor a later table
      have hkeep : ∀ p, ¬ d.RefersTo i p → (s₁.palloc_free_page pt).words p = s.words p := by
        intro p hp
        rw [Freeing.words_of_ne fun he => hp ⟨pt, ht, .inl he⟩,
          hwords₁ p fun hmem => hp (hrefers p hmem)]
      obtain ⟨s₂, hrun₂, hfreed₂, hwords₂⟩ := ih (s₁.palloc_free_page pt) hlt' hnodup
        ((hkeep pd (h.not_refersTo_dir hx)).trans hdir) fun j hj pt' ht' => by
          rw [hkeep pt' fun hp => hi (h.refersTo_inj hx hp ⟨pt', ht', .inl rfl⟩ ▸ hj)]
          exact htab j (List.mem_cons_of_mem _ hj) pt' ht'
      refine ⟨s₂, ?_, ?_, fun p hp => ?_⟩
      · rw [if_pos hp, hget]
        rw [bind_eq_bind, bind_some, show PGSIZE / 4 = 1024 from rfl, hrun₁]
        exact hrun₂
      · rw [hfreed₂, hpages, Freeing.palloc_free_page, hfreed₁]
        simp
      · rw [PageMap.mem_pages] at hp
        rw [hwords₂ p fun hmem => hp ?_, hkeep p fun hr => hp ⟨i, List.mem_cons_self, hr⟩]
        obtain ⟨j, hj, hr⟩ := PageMap.mem_pages.mp hmem
        exact ⟨j, List.mem_cons_of_mem _ hj, hr⟩

/-- What is freed: each once. -/
theorem Refines.pages_nodup (hx : d.Exclusive pd) : (d.pages (List.range 768) ++ [pd]).Nodup := by
  refine List.nodup_append.mpr ⟨List.nodup_flatMap.mpr ⟨fun i _ => ?_, ?_⟩,
    nodup_singleton _, ?_⟩
  · unfold PageMap.entryPages
    cases ht : d.tables i with
    | none => exact nodup_nil
    | some pt =>
      refine List.nodup_append.mpr ⟨?_, nodup_singleton _, ?_⟩
      · refine List.nodup_range.filterMap fun a b p ha hb => ?_
        obtain ⟨mp, hmp, hf⟩ := Option.map_eq_some_iff.mp ha
        obtain ⟨mp', hmp', hf'⟩ := Option.map_eq_some_iff.mp hb
        have := hx.inj _ _ mp mp' hmp hmp' (hf.trans hf'.symm)
        omega
      · rintro p hp q hq rfl
        obtain rfl := List.mem_singleton.mp hq
        obtain ⟨j, -, mp, hmp, hf⟩ := PageMap.mem_frames.mp hp
        exact hx.table _ mp i hmp (hf ▸ ht)
  · refine List.nodup_range.imp fun {i j} hne p hi hj => hne ?_
    exact h.refersTo_inj hx (PageMap.mem_entryPages.mp hi) (PageMap.mem_entryPages.mp hj)
  · rintro p hp q hq rfl
    obtain rfl := List.mem_singleton.mp hq
    obtain ⟨i, -, hr⟩ := PageMap.mem_pages.mp hp
    exact h.not_refersTo_dir hx hr

end

/-- `pagedir_destroy` frees the pages still mapped, the user page tables and the directory, each
once, and leaves every other page alone. -/
def Destroyed (init_page_dir pd : Nat) (d : PageMap) (m : Words) : Prop :=
  ∃ s, pagedir_destroy init_page_dir pd m = some s ∧ s.freed.Nodup ∧
    (∀ p, p ∈ s.freed ↔ p = pd ∨ (∃ i < pd_no PHYS_BASE, d.tables i = some p) ∨
      ∃ v mp, d.map v = some mp ∧ mp.frame = p) ∧
    ∀ p, p ∉ s.freed → s.words p = m p

theorem Refines.mem_pages_iff (h : Refines init_page_dir pd tables k d m) {p : Nat} :
    p ∈ d.pages (List.range 768) ↔ (∃ i < 768, d.tables i = some p) ∨
      ∃ v mp, d.map v = some mp ∧ mp.frame = p := by
  rw [PageMap.mem_pages]
  constructor
  · rintro ⟨i, hi, pt, ht, rfl | hp⟩
    · exact .inl ⟨i, List.mem_range.mp hi, ht⟩
    · obtain ⟨j, -, mp, hmp, hf⟩ := PageMap.mem_frames.mp hp
      exact .inr ⟨_, mp, hmp, hf⟩
  · rintro (⟨i, hi, ht⟩ | ⟨v, mp, hmp, hf⟩)
    · exact ⟨i, List.mem_range.mpr hi, p, ht, .inl rfl⟩
    · obtain ⟨hlt, hsome⟩ := h.mapped v mp hmp
      obtain ⟨pt, ht⟩ := Option.isSome_iff_exists.mp hsome
      refine ⟨v / 1024, List.mem_range.mpr hlt, pt, ht, .inr (PageMap.mem_frames.mpr ?_)⟩
      refine ⟨v % 1024, List.mem_range.mpr (Nat.mod_lt _ (by norm_num)), mp, ?_, hf⟩
      rwa [Nat.div_add_mod]

theorem Refines.destroy (h : Refines init_page_dir pd tables k d m) (hx : d.Exclusive pd)
    (hpd : pd ≠ 0) (hinit : pd ≠ init_page_dir) : Destroyed init_page_dir pd d m := by
  obtain ⟨s, hrun, hfreed, hwords⟩ := destroy_tables_runs h hx (List.range 768)
    ⟨[], m⟩ (fun i hi => List.mem_range.mp hi) nodup_range rfl fun _ _ _ _ => rfl
  rw [nil_append] at hfreed
  refine ⟨s.palloc_free_page pd, ?_, ?_, fun p => ?_, fun p hp => ?_⟩
  · rw [pagedir_destroy, if_neg hpd, if_neg hinit, pd_no_phys_base, hrun]
    rfl
  · rw [Freeing.palloc_free_page, hfreed]
    exact h.pages_nodup hx
  · rw [Freeing.palloc_free_page, hfreed, mem_append, List.mem_singleton, h.mem_pages_iff,
      pd_no_phys_base, or_comm]
  · rw [Freeing.palloc_free_page, mem_append, List.mem_singleton, not_or, hfreed] at hp
    rw [Freeing.words_of_ne hp.2, hwords p hp.1]

/-! ### The life of a directory -/

/-- What is read through the directory is what the map says. -/
structure ReadsBack (pd : Nat) (d : PageMap) (m : Words) : Prop where
  get_page : ∀ u < PHYS_BASE, pagedir_get_page pd u m =
    some ((d.map (u / PGSIZE)).map fun mp => mp.frame + pg_ofs u)
  is_dirty : ∀ u < PHYS_BASE, ∀ mp, d.map (u / PGSIZE) = some mp →
    pagedir_is_dirty pd u m = some (mp.flags .dirty)
  is_accessed : ∀ u < PHYS_BASE, ∀ mp, d.map (u / PGSIZE) = some mp →
    pagedir_is_accessed pd u m = some (mp.flags .accessed)

/-- The kernel's part is as in `k`: the directory entries, and all of an entry of a page table but
the flags asked for of its page. -/
structure KernelKept (init_page_dir pd : Nat) (tables : Nat → Option Nat) (k : Words) (d : PageMap)
    (m : Words) : Prop where
  directory : ∀ i, pd_no PHYS_BASE ≤ i → i < 1024 → m pd i = k init_page_dir i
  base : m init_page_dir = k init_page_dir
  entries : ∀ i pt, tables i = some pt → ∀ j < 1024, ∀ b < 32,
    (m pt j).testBit b = asAsked (k pt j) (d.asked (1024 * i + j)) b

theorem lookup_page_null {create : Bool} (h : lookup_page pd va create alloc m = some (none, m')) :
    m' = m := by
  unfold lookup_page at h
  split at h
  · nomatch h
  · split at h
    · split at h
      · cases alloc with
        | none => exact (congrArg Prod.snd (Option.some.inj h)).symm
        | some pt =>
          obtain ⟨pde, -, h⟩ := Option.bind_eq_some_iff.mp h
          obtain ⟨pt', -, h⟩ := Option.bind_eq_some_iff.mp h
          nomatch h
      · exact (congrArg Prod.snd (Option.some.inj h)).symm
    · obtain ⟨pt, -, h⟩ := Option.bind_eq_some_iff.mp h
      nomatch h

theorem set_page_failed {upage kpage : Nat}
    (h : pagedir_set_page init_page_dir ram_pages pd upage kpage writable alloc m =
      some (false, m')) : m' = m := by
  unfold pagedir_set_page at h
  split at h
  · obtain ⟨⟨r, m₁⟩, hlook, h⟩ := Option.bind_eq_some_iff.mp h
    cases r with
    | none =>
      obtain rfl : m₁ = m' := congrArg Prod.snd (Option.some.inj h)
      exact lookup_page_null hlook
    | some r =>
      simp only at h
      split at h
      · obtain ⟨e, -, h⟩ := Option.bind_eq_some_iff.mp h
        nomatch h
      · nomatch h
  · nomatch h

/-- A page directory made by `pagedir_create`, whatever calls are made on it. -/
theorem page_tables_refine {alloc : Option Nat} {m₀ : Words} (hk : KernelDir init_page_dir tables k)
    (hcreate : pagedir_create init_page_dir alloc k = (some pd, m₀)) (hpage : KernelPage pd)
    (hinit : pd ≠ init_page_dir) (hfresh : ∀ i, tables i ≠ some pd)
    (hr : (PageMap.new tables).Along (PageMap.Ready init_page_dir ram_pages pd) cs) :
    ∃ m, dir_calls init_page_dir ram_pages pd cs m₀ = some ((PageMap.new tables).returnsAll cs, m) ∧
      ReadsBack pd ((PageMap.new tables).afterAll cs) m ∧
      KernelKept init_page_dir pd tables k ((PageMap.new tables).afterAll cs) m ∧
      (∀ upage kpage writable alloc m', pagedir_set_page init_page_dir ram_pages pd upage kpage
        writable alloc m = some (false, m') → m' = m) ∧
      ((PageMap.new tables).Along (Granted pd) cs →
        Destroyed init_page_dir pd ((PageMap.new tables).afterAll cs) m) := by
  have hpd : pd ≠ 0 := fun he => by
    have := hpage.le
    rw [he] at this
    exact absurd this (by decide)
  obtain rfl : update k pd (k init_page_dir) = m₀ := by
    cases alloc with
    | none => nomatch hcreate
    | some p =>
      simp only [pagedir_create, Prod.mk.injEq, Option.some.injEq] at hcreate
      rw [← hcreate.2, hcreate.1]
  obtain ⟨m, hrun, h⟩ := (Refines.create hk hinit hfresh).run hpd hinit hr
  refine ⟨m, hrun, ⟨fun u hu => h.get_page hpd hu, fun u hu mp hmp => ?_, fun u hu mp hmp => ?_⟩,
    ⟨fun i hi => h.kernelDir i (pd_no_phys_base ▸ hi), h.base, fun i pt ht j hj => ?_⟩,
    fun _ _ _ _ _ => set_page_failed, fun hg => ?_⟩
  · exact h.is_flag_mapped hpd hu hmp .dirty
  · exact h.is_flag_mapped hpd hu hmp .accessed
  · have hi : 768 ≤ i := by
      by_contra hi
      have := (hk.user i (by rw [pd_no_phys_base]; omega)).2
      exact absurd (this.symm.trans ht) nofun
    exact h.kernel i hi pt ((h.kept i hi).trans ht) j hj
  · exact h.destroy ((PageMap.Exclusive.new tables).run hg) hpd hinit

/-- Pages from 1 MB on, in turn. -/
def bootPages (n : Nat) : Nat := PHYS_BASE + 0x100000 + PGSIZE * n

theorem bootPages_supplies : Supplies bootPages where
  page n hn := by
    refine ⟨?_, ?_, ?_⟩
    · rw [pg_ofs_eq, bootPages]
      simp only [PHYS_BASE, PGSIZE]
      omega
    · rw [bootPages]
      omega
    · rw [bootPages]
      simp only [PHYS_BASE, PGSIZE]
      omega
  inj a _ b _ h := by
    simp only [bootPages, PGSIZE] at h
    omega

/-- The words that `paging_init` leaves on a machine of two pages. -/
def bootWords : Words :=
  ((paging_init 2 bootPages 0xc0020000 0xc0030000 fun _ _ => 0).map Paging.words).getD fun _ _ => 0

theorem bootWords_kernelDir : KernelDir (bootPages 0) (kernelTables bootPages 1) bootWords := by
  obtain ⟨s, hs, h⟩ := paging_init_kernelDir bootPages_supplies
    (show 2 ≤ 2 ^ 18 by norm_num) 0xc0020000 0xc0030000 fun _ _ => 0
  rw [bootWords, hs]
  exact h

/-- The words of a new directory at 2 MB. -/
def newWords : Words := (pagedir_create (bootPages 0) (some 0xc0200000) bootWords).2

theorem kernelTables_bootPages (h : p ≠ bootPages 1) : kernelTables bootPages 1 i ≠ some p := by
  rw [kernelTables_eq]
  split
  · rw [show i - 768 + 1 = 1 by omega]
    exact fun he => h (Option.some.inj he).symm
  · nofun

theorem not_holds_new {pd p : Nat} (hpd : p ≠ pd) (h : p ≠ bootPages 1) :
    ¬ (PageMap.new (kernelTables bootPages 1)).Holds pd p := by
  rintro (he | ⟨i, hi⟩ | ⟨v, mp, hv, -⟩)
  · exact hpd he
  · exact kernelTables_bootPages h hi
  · nomatch hv

/-- The first page of a new directory can be mapped. -/
theorem ready_first : (PageMap.new (kernelTables bootPages 1)).Ready (bootPages 0) 512 0xc0200000
    (.set_page 0x8048000 0xc0180000 true (some 0xc0300000)) := by
  refine ⟨by decide, by decide, rfl, ⟨by decide, by decide, by decide⟩, by decide, ?_⟩
  rintro pt ⟨⟩
  refine ⟨⟨by decide, by decide, by decide⟩, by decide, by decide, fun i => ?_⟩
  exact kernelTables_bootPages (by decide)

/-- A page is mapped and marked as dirty, and the directory destroyed. -/
theorem page_tables_refine_dirty :
    ∃ m, dir_calls (bootPages 0) 512 0xc0200000 [.set_page 0x8048000 0xc0180000 true
        (some 0xc0300000), .set_dirty 0x8048000 true] newWords = some ([true, true], m) ∧
      pagedir_get_page 0xc0200000 0x8048123 m = some (some 0xc0180123) ∧
      pagedir_is_dirty 0xc0200000 0x8048123 m = some true ∧
      ∃ s, pagedir_destroy (bootPages 0) 0xc0200000 m = some s ∧ s.freed.Nodup := by
  have hcreate : pagedir_create (bootPages 0) (some 0xc0200000) bootWords =
    (some 0xc0200000, newWords) := rfl
  have hr : (PageMap.new (kernelTables bootPages 1)).Along (PageMap.Ready (bootPages 0) 512 0xc0200000)
      [.set_page 0x8048000 0xc0180000 true (some 0xc0300000), .set_dirty 0x8048000 true] :=
    ⟨ready_first, show 0x8048000 < 2 ^ 32 by norm_num, trivial⟩
  obtain ⟨m, hrun, hread, -, -, hdestroy⟩ := page_tables_refine bootWords_kernelDir hcreate
    ⟨by decide, by decide, by decide⟩ (by decide) (fun _ => kernelTables_bootPages (by decide)) hr
  obtain ⟨s, hs, hnodup, -⟩ := hdestroy ⟨⟨not_holds_new (by decide) (by decide), by
    rintro pt ⟨⟩
    exact ⟨by decide, not_holds_new (by decide) (by decide)⟩⟩, trivial, trivial⟩
  exact ⟨m, hrun, hread.get_page 0x8048123 (by decide),
    hread.is_dirty 0x8048123 (by decide) _ rfl, s, hs, hnodup⟩

/-- A frame that is mapped at two pages is freed twice. -/
theorem shared_frame_freed_twice : ∃ (cs : List DirCall) (r : List Bool × Words) (s : Freeing),
    (PageMap.new (kernelTables bootPages 1)).Along (PageMap.Ready (bootPages 0) 512 0xc0200000) cs ∧
    dir_calls (bootPages 0) 512 0xc0200000 cs newWords = some r ∧
    pagedir_destroy (bootPages 0) 0xc0200000 r.2 = some s ∧ s.freed.count 0xc0180000 = 2 := by
  refine ⟨[.set_page 0x8048000 0xc0180000 true (some 0xc0300000),
    .set_page 0x8049000 0xc0180000 true none], ?_⟩
  have hrun : ((dir_calls (bootPages 0) 512 0xc0200000
      [.set_page 0x8048000 0xc0180000 true (some 0xc0300000),
        .set_page 0x8049000 0xc0180000 true none] newWords).bind fun r =>
      (pagedir_destroy (bootPages 0) 0xc0200000 r.2).map fun s =>
        s.freed.count 0xc0180000) = some 2 := by decide +kernel
  obtain ⟨r, hr, hs⟩ := Option.bind_eq_some_iff.mp hrun
  obtain ⟨s, hs, hcount⟩ := Option.map_eq_some_iff.mp hs
  exact ⟨r, s, ⟨ready_first, ⟨by decide, by decide, rfl, ⟨by decide, by decide, by decide⟩,
    by decide, nofun⟩, trivial⟩, hr, hs, hcount⟩

/-- An entry of the kernel changes: the first, when its page is marked as dirty; and a page may be
freed twice. -/
theorem kernel_entries_modified : (¬ ∀ (init_page_dir ram_pages pd : Nat)
    (tables : Nat → Option Nat) (alloc : Option Nat) (k m₀ m : Words) (cs : List DirCall)
    (rs : List Bool), KernelDir init_page_dir tables k →
      pagedir_create init_page_dir alloc k = (some pd, m₀) → KernelPage pd → pd ≠ init_page_dir →
      (∀ i, tables i ≠ some pd) →
      (PageMap.new tables).Along (PageMap.Ready init_page_dir ram_pages pd) cs →
      dir_calls init_page_dir ram_pages pd cs m₀ = some (rs, m) →
      ∀ i pt, tables i = some pt → ∀ j < 1024, m pt j = k pt j) ∧
    ∃ (cs : List DirCall) (r : List Bool × Words) (s : Freeing),
      (PageMap.new (kernelTables bootPages 1)).Along
        (PageMap.Ready (bootPages 0) 512 0xc0200000) cs ∧
      dir_calls (bootPages 0) 512 0xc0200000 cs newWords = some r ∧
      pagedir_destroy (bootPages 0) 0xc0200000 r.2 = some s ∧ s.freed.count 0xc0180000 = 2 := by
  refine ⟨fun h => ?_, shared_frame_freed_twice⟩
  have hword : ((dir_calls (bootPages 0) 2 0xc0200000 [.set_dirty PHYS_BASE true] newWords).map
      fun r => r.2 (bootPages 1) 0) = some 67 := by decide +kernel
  obtain ⟨⟨rs, m⟩, hrun, hm⟩ := Option.map_eq_some_iff.mp hword
  have hcreate : pagedir_create (bootPages 0) (some 0xc0200000) bootWords =
    (some 0xc0200000, newWords) := rfl
  have heq := h _ 2 _ _ _ bootWords _ m [.set_dirty PHYS_BASE true] rs bootWords_kernelDir hcreate
    ⟨by decide, by decide, by decide⟩ (by decide) (fun _ => kernelTables_bootPages (by decide))
    ⟨show PHYS_BASE < 2 ^ 32 by decide, trivial⟩ hrun 768 (bootPages 1) rfl 0 (by norm_num)
  have hold : bootWords (bootPages 1) 0 = 3 := by decide +kernel
  exact absurd (hm.symm.trans (heq.trans hold)) (by decide)

end Pintos
