import Pintos.Threads.Scheduler

/-!
# Threads — the scheduler's invariant

`Inv run s`: `run` is the running thread, if there is one; the run queue has the ready threads but
the idle one, each once; the waiters of a semaphore are the threads blocked in `sema_down` on it;
every other blocked thread is the idle one or is being created.  In the middle of a thread switch no
thread is running, and `schedule` makes one run (`Inv.schedule`).

`scheduler_sound`: every state after `thread_start` is sound, and no move fails an assertion there.
-/

namespace Pintos
open List Function
namespace Sched

variable {Sema : Type}

/-! ### Fields -/

section Fields

variable (s : Sched Sema) (t u : Tid)

theorem status_setStatus (st : Status) : (s.setStatus t st).status u =
    if u = t then (s.status t).map fun _ => st else s.status u := by
  unfold setStatus update status
  by_cases h : u = t
  · subst h
    simp [Option.map_map, comp_def]
  · simp [h]

@[simp] theorem code_setStatus (st : Status) : (s.setStatus t st).code u = s.code u := by
  unfold setStatus update code
  by_cases h : u = t
  · subst h
    simp [Option.map_map, comp_def]
  · simp [h]

@[simp] theorem creating_setStatus (st : Status) :
    (s.setStatus t st).creating u = s.creating u := by
  unfold setStatus update creating
  by_cases h : u = t
  · subst h
    cases s.threads u <;> simp
  · simp [h]

theorem code_setCode (c : Code Sema) : (s.setCode t c).code u =
    if u = t then (s.code t).map fun _ => c else s.code u := by
  unfold setCode update code
  by_cases h : u = t
  · subst h
    simp [Option.map_map, comp_def]
  · simp [h]

@[simp] theorem status_setCode (c : Code Sema) : (s.setCode t c).status u = s.status u := by
  unfold setCode update status
  by_cases h : u = t
  · subst h
    simp [Option.map_map, comp_def]
  · simp [h]

@[simp] theorem creating_setCode (c : Code Sema) : (s.setCode t c).creating u = s.creating u := by
  unfold setCode update creating
  by_cases h : u = t
  · subst h
    cases s.threads u <;> simp
  · simp [h]

theorem creating_setCreating (c : Option Tid) : (s.setCreating t c).creating u =
    if u = t then (s.threads t).bind fun _ => c else s.creating u := by
  unfold setCreating update creating
  by_cases h : u = t
  · subst h
    cases s.threads u <;> simp
  · simp [h]

@[simp] theorem status_setCreating (c : Option Tid) :
    (s.setCreating t c).status u = s.status u := by
  unfold setCreating update status
  by_cases h : u = t
  · subst h
    simp [Option.map_map, comp_def]
  · simp [h]

@[simp] theorem code_setCreating (c : Option Tid) : (s.setCreating t c).code u = s.code u := by
  unfold setCreating update code
  by_cases h : u = t
  · subst h
    simp [Option.map_map, comp_def]
  · simp [h]

theorem status_free_page : (s.free_page t).status u = if u = t then none else s.status u := by
  unfold free_page status
  by_cases h : u = t <;> simp [h]

theorem code_free_page : (s.free_page t).code u = if u = t then none else s.code u := by
  unfold free_page code
  by_cases h : u = t <;> simp [h]

theorem creating_free_page : (s.free_page t).creating u = if u = t then none else s.creating u := by
  unfold free_page creating
  by_cases h : u = t <;> simp [h]

variable {s t u}

theorem status_isSome : (s.status t).isSome = (s.threads t).isSome := by simp [status]

theorem code_isSome : (s.code t).isSome = (s.threads t).isSome := by simp [code]

end Fields

/-! ### The invariant -/

/-- One thread runs `idle`, and `idle_thread` is set once it has set it. -/
def IdleOk (s : Sched Sema) : Prop :=
  ∃ i c, s.code i = some c ∧ c.idle ∧ (∀ t d, s.code t = some d → d.idle → t = i) ∧
    (c = .idle_begin → s.idle_thread = none ∧
      (s.status i = some .running ∨ s.status i = some .ready)) ∧
    (c ≠ .idle_begin → s.idle_thread = some i)

/-- The scheduler is sound, with `run` running. -/
structure Inv (run : Option Tid) (s : Sched Sema) : Prop where
  running : ∀ t, s.status t = some .running ↔ run = some t
  ready : ∀ t, t ∈ s.ready_list ↔ s.status t = some .ready ∧ s.idle_thread ≠ some t
  ready_nodup : s.ready_list.Nodup
  waiters : ∀ x t, t ∈ (s.sema x).waiters ↔
    s.status t = some .blocked ∧ s.code t = some (.sema_down x)
  waiters_nodup : ∀ x, (s.sema x).waiters.Nodup
  blocked : ∀ t, s.status t = some .blocked → s.code t = some .run →
    ∃ p, s.creating p = some t
  created : ∀ p t, s.creating p = some t → s.status t = some .blocked ∧ s.code t = some .run
  creator : ∀ p q t, s.creating p = some t → s.creating q = some t → p = q
  idle : s.IdleOk

section Schedule

variable {s : Sched Sema} {run : Option Tid} {s' : Sched Sema} {n : Tid}

/-- The thread `n` gets the processor. -/
theorem Inv.enter (h : Inv none s) (hn : s.ready_list = n :: s'.ready_list ∨
      s.ready_list = [] ∧ s'.ready_list = [] ∧ s.idle_thread = some n)
    (hstatus : ∀ t, s'.status t = if t = n then some .running else s.status t)
    (hcode : ∀ t, s'.code t = s.code t) (hcreating : ∀ t, s'.creating t = s.creating t)
    (hi : s'.idle_thread = s.idle_thread) (hsema : s'.sema = s.sema) : Inv (some n) s' where
  running := by grind [h.running]
  ready := by
    intro t
    have := h.ready t
    have := h.ready_nodup
    grind
  ready_nodup := by
    have := h.ready_nodup
    grind
  waiters := by
    obtain ⟨i, c, hic, hc, huniq, hbegin, hset⟩ := h.idle
    intro x t
    have := h.waiters x t
    have := h.ready n
    grind [Code.idle]
  waiters_nodup := by simpa [hsema] using h.waiters_nodup
  blocked := by
    intro t
    have := h.blocked t
    grind
  created := by
    obtain ⟨i, c, hic, hc, huniq, hbegin, hset⟩ := h.idle
    intro p t hp
    have := h.created p t
    have := h.ready n
    grind [Code.idle]
  creator := by simpa [hcreating] using h.creator
  idle := by
    obtain ⟨i, c, hic, hc, huniq, hbegin, hset⟩ := h.idle
    refine ⟨i, c, by rw [hcode, hic], hc, by simpa [hcode] using huniq, ?_, by rwa [hi]⟩
    grind

/-- The page of a thread that is dying is released. -/
theorem Inv.free_page {p : Tid} (h : Inv run s) (hp : s.status p = some .dying)
    (hcode : s.code p = some .run) (hcreating : s.creating p = none) :
    Inv run (s.free_page p) where
  running := by grind [status_free_page, h.running]
  ready := by
    intro t
    rw [status_free_page]
    have := h.ready t
    grind [Sched.free_page]
  ready_nodup := h.ready_nodup
  waiters := by
    intro x t
    rw [status_free_page, code_free_page]
    have := h.waiters x t
    grind [Sched.free_page]
  waiters_nodup := h.waiters_nodup
  blocked := by
    intro t
    simp only [status_free_page, code_free_page, creating_free_page]
    have := h.blocked t
    grind
  created := by
    intro q t
    simp only [status_free_page, code_free_page, creating_free_page]
    have := h.created q t
    grind
  creator := by
    intro q q' t
    simp only [creating_free_page]
    have := h.creator q q' t
    grind
  idle := by
    obtain ⟨i, c, hic, hc, huniq, hbegin, hset⟩ := h.idle
    have hne : i ≠ p := by
      rintro rfl
      grind [Code.idle]
    refine ⟨i, c, ?_, hc, ?_, ?_, hset⟩
    · rw [code_free_page, if_neg hne, hic]
    · intro t d
      rw [code_free_page]
      have := huniq t d
      grind
    · rw [status_free_page, if_neg hne]
      exact hbegin

/-- There is a thread to run. -/
theorem Inv.next (h : Inv none s) : ∃ n s', s.next_thread_to_run = (some n, s') ∧
    (s.threads n).isSome ∧ s' = { s with ready_list := s'.ready_list } ∧
    (s.ready_list = n :: s'.ready_list ∨
      s.ready_list = [] ∧ s'.ready_list = [] ∧ s.idle_thread = some n) := by
  unfold next_thread_to_run
  cases hl : s.ready_list with
  | nil =>
    obtain ⟨i, c, hic, -, -, hbegin, hset⟩ := h.idle
    -- before `idle_thread` is set, the thread that will set it is ready
    have hne : c ≠ .idle_begin := by
      intro hc
      obtain ⟨hnone, hr | hr⟩ := hbegin hc
      · cases (h.running i).mp hr
      · have := (h.ready i).mpr ⟨hr, by simp [hnone]⟩
        simp [hl] at this
    refine ⟨i, s, by rw [hset hne], ?_, rfl, .inr ⟨rfl, hl, hset hne⟩⟩
    rw [← code_isSome, hic]
    rfl
  | cons n rest =>
    have hn : s.status n = some .ready := ((h.ready n).mp (by simp [hl])).1
    refine ⟨n, _, rfl, ?_, rfl, .inl rfl⟩
    rw [← status_isSome, hn]
    rfl

/-- `n` is marked as running. -/
theorem Inv.enter_next {rest : List Tid} (h : Inv none s) (hn : (s.threads n).isSome)
    (hlist : s.ready_list = n :: rest ∨ s.ready_list = [] ∧ rest = [] ∧ s.idle_thread = some n) :
    Inv (some n) ({ s with ready_list := rest, cur := n }.setStatus n .running) := by
  refine h.enter hlist (fun t => ?_) (fun t => ?_) (fun t => ?_) rfl rfl
  · rw [status_setStatus]
    split
    · obtain ⟨th, hth⟩ := Option.isSome_iff_exists.mp hn
      simp [status, hth]
    · rfl
  · rw [code_setStatus]
    rfl
  · rw [creating_setStatus]
    rfl

/-- `schedule` makes a thread run. -/
theorem Inv.schedule (h : Inv none s)
    (hdying : s.status s.cur = some .dying → s.code s.cur = some .run ∧ s.creating s.cur = none) :
    ∃ s', s.schedule = some s' ∧ Inv (some s'.cur) s' := by
  obtain ⟨n, s₁, hnext, hn, hs₁, hlist⟩ := h.next
  have hrun : s.status s.cur ≠ some .running := fun e => by cases (h.running _).mp e
  have henter := h.enter_next hn hlist
  simp only [Sched.schedule, hnext, if_neg hrun, Option.isNone_iff_eq_none, if_neg (Option.isSome_iff_ne_none.mp hn)]
  by_cases hcur : s.cur = n
  · rw [if_pos hcur]
    refine ⟨_, rfl, ?_⟩
    rw [hs₁]
    subst hcur
    exact henter
  · rw [if_neg hcur]
    refine ⟨_, rfl, ?_⟩
    rw [hs₁]
    simp only [thread_schedule_tail]
    split
    · rename_i hd
      have hst : s.status s.cur = some .dying := by
        have := hd.1
        rw [status_setStatus, if_neg hcur] at this
        exact this
      refine henter.free_page hd.1 ?_ ?_
      · rw [code_setStatus]
        exact (hdying hst).1
      · rw [creating_setStatus]
        exact (hdying hst).2
    · exact henter

/-- The running thread loses the processor, with the status `st`, on the lists `r` and `w`. -/
theorem Inv.leave (h : Inv (some s.cur) s) (st : Status) (r : List Tid) (w : Sema → Semaphore)
    (hst : st ≠ .running)
    (hready : ∀ t, t ∈ r ↔ t ∈ s.ready_list ∨ t = s.cur ∧ st = .ready ∧ s.idle_thread ≠ some s.cur)
    (hnodup : r.Nodup)
    (hsema : ∀ x t, t ∈ (w x).waiters ↔ t ∈ (s.sema x).waiters ∨
      t = s.cur ∧ st = .blocked ∧ s.code s.cur = some (.sema_down x))
    (hwnodup : ∀ x, (w x).waiters.Nodup)
    (hblock : st = .blocked → s.code s.cur ≠ some .run)
    (hidle : st ≠ .ready → s.code s.cur ≠ some .idle_begin) :
    Inv none ({ s with ready_list := r, sema := w }.setStatus s.cur st : Sched Sema) := by
  have hcur := (h.running s.cur).mpr rfl
  have hstatus : ∀ t, ({ s with ready_list := r, sema := w }.setStatus s.cur st : Sched Sema).status
      t = if t = s.cur then some st else s.status t := by
    intro t
    rw [status_setStatus]
    split
    · show (s.status s.cur).map _ = _
      rw [hcur]
      rfl
    · rfl
  have hcode : ∀ t, ({ s with ready_list := r, sema := w }.setStatus s.cur st : Sched Sema).code t =
      s.code t := fun t => code_setStatus ..
  have hcreating : ∀ t, ({ s with ready_list := r, sema := w }.setStatus s.cur st :
      Sched Sema).creating t = s.creating t := fun t => creating_setStatus ..
  constructor
  · grind [h.running]
  · intro t
    have := h.ready t
    have := hready t
    rw [hstatus]
    show t ∈ r ↔ _ ∧ s.idle_thread ≠ _
    grind
  · exact hnodup
  · intro x t
    have := h.waiters x t
    have := hsema x t
    rw [hstatus, hcode]
    show t ∈ (w x).waiters ↔ _
    grind
  · exact hwnodup
  · intro t
    have := h.blocked t
    grind
  · intro p t hp
    have := h.created p t
    grind
  · simpa [hcreating] using h.creator
  · obtain ⟨i, c, hic, hc, huniq, hbegin, hset⟩ := h.idle
    refine ⟨i, c, by rw [hcode, hic], hc, by simpa [hcode] using huniq, ?_, hset⟩
    intro hb
    refine ⟨(hbegin hb).1, ?_⟩
    have := (hbegin hb).2
    grind

/-- The running thread goes on at another point. -/
theorem Inv.goto {c : Code Sema} (h : Inv (some s.cur) s)
    (hcode : ∀ t, s'.code t = if t = s.cur then some c else s.code t)
    (hstatus : ∀ t, s'.status t = s.status t) (hcreating : ∀ t, s'.creating t = s.creating t)
    (hready : s'.ready_list = s.ready_list) (hsema : ∀ x, (s'.sema x).waiters = (s.sema x).waiters)
    (hi : ∀ t, t ≠ s.cur → (s'.idle_thread = some t ↔ s.idle_thread = some t)) (hidle : s'.IdleOk) :
    Inv (some s.cur) s' where
  running := by simpa [hstatus] using h.running
  ready := by
    intro t
    have := h.ready t
    have := h.running s.cur
    grind
  ready_nodup := hready ▸ h.ready_nodup
  waiters := by
    intro x t
    have := h.waiters x t
    have := h.running s.cur
    grind
  waiters_nodup := by simpa [hsema] using h.waiters_nodup
  blocked := by
    intro t
    have := h.blocked t
    have := h.running s.cur
    grind
  created := by
    intro p t hp
    have := h.created p t
    have := h.running s.cur
    grind
  creator := by simpa [hcreating] using h.creator
  idle := hidle

/-- A blocked thread that is in no list, or was, becomes ready. -/
theorem Inv.wake (h : Inv run s) (hn : s.status n = some .blocked) (hidle : s.idle_thread ≠ some n)
    (hstatus : ∀ t, s'.status t = if t = n then some .ready else s.status t)
    (hcode : ∀ t, s'.code t = s.code t)
    (hcreating : ∀ t c, s'.creating t = some c ↔ s.creating t = some c ∧ c ≠ n)
    (hi : s'.idle_thread = s.idle_thread) (hready : s'.ready_list = s.ready_list ++ [n])
    (hsema : ∀ x t, t ∈ (s'.sema x).waiters ↔ t ∈ (s.sema x).waiters ∧ t ≠ n)
    (hwnodup : ∀ x, (s'.sema x).waiters.Nodup) : Inv run s' where
  running := by grind [h.running]
  ready := by
    intro t
    have := h.ready t
    grind
  ready_nodup := by
    have := h.ready n
    have := h.ready_nodup
    grind
  waiters := by
    intro x t
    have := h.waiters x t
    grind
  waiters_nodup := hwnodup
  blocked := by
    intro t ht hc
    have hne : t ≠ n := by grind
    obtain ⟨p, hp⟩ := h.blocked t (by rwa [hstatus, if_neg hne] at ht) (by rwa [hcode] at hc)
    exact ⟨p, (hcreating p t).mpr ⟨hp, hne⟩⟩
  created := by
    intro p t hp
    have := h.created p t
    grind
  creator := by
    intro p q t hp hq
    exact h.creator p q t ((hcreating _ _).mp hp).1 ((hcreating _ _).mp hq).1
  idle := by
    obtain ⟨i, c, hic, hc, huniq, hbegin, hset⟩ := h.idle
    refine ⟨i, c, by rw [hcode, hic], hc, by simpa [hcode] using huniq, ?_, by rwa [hi]⟩
    grind

/-- A new thread is initialised. -/
theorem Inv.init_thread (h : Inv (some s.cur) s) (hc : s.creating s.cur = none)
    (hn : s.threads n = none) : Inv (some s.cur) (s.init_thread n) := by
  have hne : s.cur ≠ n := by
    rintro rfl
    have := h.running s.cur
    grind [status]
  have hn' : s.status n = none ∧ s.code n = none ∧ s.creating n = none := by
    simp [status, code, creating, hn]
  have hstatus : ∀ t, (s.init_thread n).status t = if t = n then some .blocked else s.status t := by
    intro t
    rw [Sched.init_thread, status_setCreating]
    by_cases ht : t = n <;> simp [status, ht]
  have hcode : ∀ t, (s.init_thread n).code t = if t = n then some .run else s.code t := by
    intro t
    rw [Sched.init_thread, code_setCreating]
    by_cases ht : t = n <;> simp [code, ht]
  have hcreating : ∀ t, (s.init_thread n).creating t =
      if t = s.cur then some n else s.creating t := by
    intro t
    rw [Sched.init_thread, creating_setCreating]
    by_cases ht : t = s.cur
    · subst ht
      have := h.running s.cur
      cases hth : s.threads s.cur with
      | none => grind [status]
      | some th => simp [hne, hth]
    · simp only [ht, if_false]
      by_cases ht' : t = n
      · subst ht'
        simp [creating, hn]
      · simp [creating, ht']
  constructor
  · intro t
    have := h.running t
    grind
  · intro t
    have := h.ready t
    show t ∈ s.ready_list ↔ _ ∧ s.idle_thread ≠ _
    grind
  · exact h.ready_nodup
  · intro x t
    have := h.waiters x t
    show t ∈ (s.sema x).waiters ↔ _
    grind
  · exact h.waiters_nodup
  · intro t ht hr
    by_cases htn : t = n
    · exact ⟨s.cur, by rw [hcreating, if_pos rfl, htn]⟩
    · obtain ⟨p, hp⟩ := h.blocked t (by grind) (by grind)
      exact ⟨p, by grind⟩
  · intro p t hp
    have := h.created p t
    grind
  · intro p q t hp hq
    have := h.creator p q t
    have := h.created p t
    have := h.created q t
    grind
  · obtain ⟨i, c, hic, hcc, huniq, hbegin, hset⟩ := h.idle
    have hin : i ≠ n := by
      rintro rfl
      rw [hn'.2.1] at hic
      cases hic
    refine ⟨i, c, by rw [hcode, if_neg hin, hic], hcc, ?_, by rwa [hstatus, if_neg hin], hset⟩
    intro t d ht hd
    have := huniq t d
    grind [Code.idle]

end Schedule

/-! ### Moves -/

section Moves

variable {s : Sched Sema}

theorem Inv.cur_isSome (h : Inv (some s.cur) s) : (s.threads s.cur).isSome := by
  rw [← status_isSome, (h.running s.cur).mpr rfl]
  rfl

theorem Inv.code_set_cur (h : Inv (some s.cur) s) (c : Code Sema) (t : Tid) :
    (s.setCode s.cur c).code t = if t = s.cur then some c else s.code t := by
  obtain ⟨th, hth⟩ := Option.isSome_iff_exists.mp h.cur_isSome
  rw [code_setCode]
  simp [code, hth]

/-- `schedule` after the running thread has taken the status `st`, if that is not dying. -/
theorem Inv.switch {st : Status} {r : List Tid} {w : Sema → Semaphore}
    (h : Inv none ({ s with ready_list := r, sema := w }.setStatus s.cur st : Sched Sema))
    (hst : st ≠ .dying) :
    ∃ s', ({ s with ready_list := r, sema := w }.setStatus s.cur st : Sched Sema).schedule =
      some s' ∧ Inv (some s'.cur) s' := by
  refine h.schedule fun hd => ?_
  have hd : Option.map (fun _ => st) (s.status s.cur) = some .dying := by
    rw [← hd]
    exact ((status_setStatus ..).trans (if_pos rfl)).symm
  obtain ⟨-, -, hd⟩ := Option.map_eq_some_iff.mp hd
  exact absurd hd hst

theorem Inv.thread_yield (h : Inv (some s.cur) s) :
    ∃ s', s.thread_yield = some s' ∧ Inv (some s'.cur) s' := by
  have hcur : s.cur ∉ s.ready_list := by
    have := h.running s.cur
    have := h.ready s.cur
    grind
  unfold Sched.thread_yield
  split
  · rename_i hi
    exact (h.leave .ready s.ready_list s.sema nofun (by simp [hi]) h.ready_nodup (by simp)
      h.waiters_nodup nofun (absurd rfl)).switch nofun
  · rename_i hi
    exact (h.leave .ready (s.ready_list ++ [s.cur]) s.sema nofun (by simp [hi])
      (List.nodup_append_comm.mp (List.nodup_cons.mpr ⟨hcur, h.ready_nodup⟩)) (by simp)
      h.waiters_nodup nofun (absurd rfl)).switch nofun

theorem Inv.idle_block (h : Inv (some s.cur) s) (hc : s.code s.cur = some .idle_loop) :
    ∃ s', s.thread_block = some s' ∧ Inv (some s'.cur) s' :=
  (h.leave .blocked s.ready_list s.sema nofun (by simp) h.ready_nodup (by simp [hc])
    h.waiters_nodup (by simp [hc]) (by simp [hc])).switch nofun

theorem Inv.thread_exit (h : Inv (some s.cur) s) (hc : s.code s.cur = some .run)
    (hn : s.creating s.cur = none) : ∃ s', s.thread_exit = some s' ∧ Inv (some s'.cur) s' := by
  refine (h.leave .dying s.ready_list s.sema nofun (by simp) h.ready_nodup (by simp)
    h.waiters_nodup nofun (by simp [hc])).schedule fun _ => ?_
  rw [code_setStatus, creating_setStatus]
  exact ⟨hc, hn⟩

/-- A thread that does not run `idle` goes on at a point outside of `idle`. -/
theorem IdleOk.goto {s' : Sched Sema} {c d : Code Sema} (h : s.IdleOk)
    (hd : s.code s.cur = some d) (hdi : d.idle = false) (hc : c.idle = false)
    (hcode : ∀ t, s'.code t = if t = s.cur then some c else s.code t)
    (hstatus : ∀ t, s'.status t = s.status t) (hi : s'.idle_thread = s.idle_thread) :
    s'.IdleOk := by
  obtain ⟨i, b, hib, hb, huniq, hbegin, hset⟩ := h
  have hne : i ≠ s.cur := by
    rintro rfl
    grind
  refine ⟨i, b, by rw [hcode, if_neg hne, hib], hb, ?_, by rwa [hi, hstatus], by rwa [hi]⟩
  intro t e ht he
  have := huniq t e
  grind

theorem Inv.sema_down {x : Sema} (h : Inv (some s.cur) s) (hc : s.code s.cur = some .run) :
    Inv (some s.cur) (s.setCode s.cur (.sema_down x)) :=
  h.goto (h.code_set_cur _) (status_setCode s _ · _) (creating_setCode s _ · _) rfl (fun _ => rfl)
    (fun _ _ => Iff.rfl)
    (h.idle.goto hc rfl rfl (h.code_set_cur _) (status_setCode s _ · _) rfl)

theorem Inv.idle_begin (h : Inv (some s.cur) s) (hc : s.code s.cur = some .idle_begin) :
    Inv (some s.cur) ({ s with idle_thread := some s.cur }.setCode s.cur .idle_up) := by
  have hcode : ∀ t, ({ s with idle_thread := some s.cur }.setCode s.cur .idle_up :
      Sched Sema).code t = if t = s.cur then some .idle_up else s.code t := h.code_set_cur .idle_up
  obtain ⟨i, c, hic, hci, huniq, hbegin, -⟩ := h.idle
  have hi : s.cur = i := huniq _ _ hc rfl
  have hnone : s.idle_thread = none := by
    subst hi
    exact (hbegin (Option.some.inj (hic.symm.trans hc))).1
  refine h.goto hcode (status_setCode _ _ · _) (creating_setCode _ _ · _) rfl (fun _ => rfl)
    (fun t ht => ?_) ⟨s.cur, .idle_up, by rw [hcode, if_pos rfl], rfl, ?_, nofun, fun _ => rfl⟩
  · show some s.cur = some t ↔ _
    simp [hnone, Ne.symm ht]
  · intro t d ht hd
    have := huniq t d
    grind

theorem Inv.idle_up (h : Inv (some s.cur) s) (hc : s.code s.cur = some .idle_up) :
    Inv (some s.cur) (s.setCode s.cur .idle_loop) := by
  obtain ⟨i, c, hic, hci, huniq, -, hset⟩ := h.idle
  have hi : s.cur = i := huniq _ _ hc rfl
  subst hi
  obtain rfl : c = .idle_up := Option.some.inj (hic.symm.trans hc)
  have hcode := h.code_set_cur .idle_loop
  refine h.goto hcode (status_setCode _ _ · _) (creating_setCode _ _ · _) rfl (fun _ => rfl)
    (fun _ _ => Iff.rfl)
    ⟨s.cur, .idle_loop, by rw [hcode, if_pos rfl], rfl, ?_, nofun, fun _ => hset nofun⟩
  intro t d ht hd
  have := huniq t d
  grind

/-- `thread_unblock` at the end of `thread_create`. -/
theorem Inv.thread_unblock {n : Tid} (h : Inv (some s.cur) s) (hn : s.creating s.cur = some n) :
    ∃ s', (s.setCreating s.cur none).thread_unblock n = some s' ∧ Inv (some s'.cur) s' := by
  obtain ⟨hb, hr⟩ := h.created _ _ hn
  have hidle : s.idle_thread ≠ some n := by
    obtain ⟨i, c, hic, hci, huniq, hbegin, hset⟩ := h.idle
    grind [Code.idle]
  refine ⟨_, if_pos (by rw [status_setCreating, hb]), ?_⟩
  refine h.wake (n := n) hb hidle (fun t => ?_) (fun t => ?_) (fun t c => ?_) rfl rfl (fun x t => ?_)
    h.waiters_nodup
  · rw [status_setStatus]
    show (if t = n then Option.map _ ((s.setCreating s.cur none).status n)
      else (s.setCreating s.cur none).status t) = _
    rw [status_setCreating, status_setCreating, hb]
    rfl
  · rw [code_setStatus]
    exact code_setCreating ..
  · rw [creating_setStatus]
    show (s.setCreating s.cur none).creating t = some c ↔ _
    rw [creating_setCreating]
    have := h.creator t s.cur c
    by_cases ht : t = s.cur
    · subst ht
      simp [hn]
      grind
    · simp [ht]
      grind
  · have := h.waiters x t
    show t ∈ (s.sema x).waiters ↔ _
    grind

variable [DecidableEq Sema]

theorem Inv.sema_down_turn {x : Sema} (h : Inv (some s.cur) s)
    (hc : s.code s.cur = some (.sema_down x)) :
    ∃ s', s.sema_down_turn x = some s' ∧ Inv (some s'.cur) s' := by
  have hcur : s.cur ∉ (s.sema x).waiters := by
    have := h.running s.cur
    have := h.waiters x s.cur
    grind
  by_cases hv : (s.sema x).value = 0
  · rw [show s.sema_down_turn x = Sched.thread_block (s.setSema x
      ⟨(s.sema x).value, (s.sema x).waiters ++ [s.cur]⟩) from if_pos hv]
    refine (h.leave .blocked s.ready_list _ nofun (by simp) h.ready_nodup (fun y t => ?_)
      (fun y => ?_) (by simp [hc]) (by simp [hc])).switch nofun
    · by_cases hy : y = x
      · subst hy
        simp [hc]
      · simp [hy, hc, Ne.symm hy]
    · by_cases hy : y = x
      · subst hy
        simpa using List.nodup_append_comm.mp (List.nodup_cons.mpr ⟨hcur, h.waiters_nodup y⟩)
      · simpa [hy] using h.waiters_nodup y
  · refine ⟨_, if_neg hv, ?_⟩
    have hcode : ∀ t, ((s.setSema x ⟨(s.sema x).value - 1, (s.sema x).waiters⟩).setCode s.cur
        .run).code t = if t = s.cur then some .run else s.code t := h.code_set_cur .run
    have hstatus : ∀ t, ((s.setSema x ⟨(s.sema x).value - 1, (s.sema x).waiters⟩).setCode s.cur
        .run).status t = s.status t := (status_setCode _ _ · _)
    refine h.goto hcode hstatus (creating_setCode _ _ · _) rfl (fun y => ?_) (fun _ _ => Iff.rfl)
      (h.idle.goto hc rfl rfl hcode hstatus rfl)
    show (Function.update s.sema x _ y).waiters = _
    by_cases hy : y = x
    · subst hy
      simp
    · simp [hy]

/-- `sema_up` wakes the first waiter, which is blocked. -/
theorem Inv.sema_up {run : Option Tid} (h : Inv run s) (x : Sema) :
    ∃ s', s.sema_up x = some s' ∧ s'.cur = s.cur ∧ Inv run s' := by
  cases hw : (s.sema x).waiters with
  | nil =>
    simp only [Sched.sema_up, hw]
    refine ⟨_, rfl, rfl, ?_⟩
    have hsame : ∀ y, ((s.setSema x ⟨((s.sema x).value + 1) % 4294967296,
        []⟩).sema y).waiters = (s.sema y).waiters := by
      intro y
      show (Function.update s.sema x _ y).waiters = _
      by_cases hy : y = x
      · subst hy
        simp [hw]
      · simp [hy]
    exact { h with
      waiters := fun y t => by rw [hsame]; exact h.waiters y t
      waiters_nodup := fun y => by rw [hsame]; exact h.waiters_nodup y }
  | cons n rest =>
    obtain ⟨hb, hc⟩ := (h.waiters x n).mp (by simp [hw])
    have hnodup := h.waiters_nodup x
    rw [hw] at hnodup
    have hidle : s.idle_thread ≠ some n := by
      obtain ⟨i, c, hic, hci, huniq, hbegin, hset⟩ := h.idle
      grind [Code.idle]
    simp only [Sched.sema_up, hw]
    refine ⟨_, if_pos hb, rfl, h.wake (n := n) hb hidle (fun t => ?_) (code_setStatus _ _ · _)
      (fun t c => ?_) rfl rfl (fun y t => ?_) (fun y => ?_)⟩
    · rw [status_setStatus]
      show (if t = n then Option.map _ (s.status n) else s.status t) = _
      rw [hb]
      rfl
    · rw [creating_setStatus]
      show s.creating t = some c ↔ _
      have := h.created t c
      grind
    · show t ∈ (Function.update s.sema x _ y).waiters ↔ _
      by_cases hy : y = x
      · subst hy
        simp [hw]
        grind
      · have := h.waiters y t
        simp [hy]
        grind
    · show (Function.update s.sema x _ y).waiters.Nodup
      by_cases hy : y = x
      · subst hy
        simpa using (List.nodup_cons.mp hnodup).2
      · simpa [hy] using h.waiters_nodup y

/-- No move fails an assertion, and every move keeps the invariant. -/
theorem Inv.perform {m : Move Sema} (h : Inv (some s.cur) s) (hm : s.Enabled m) :
    ∃ s', s.perform m = some s' ∧ Inv (some s'.cur) s' := by
  cases m with
  | thread_yield => exact h.thread_yield
  | sema_down x => exact ⟨_, rfl, h.sema_down hm⟩
  | sema_down_turn x => exact h.sema_down_turn hm
  | sema_up x =>
    obtain ⟨s', hs, hcur, hinv⟩ := h.sema_up x
    exact ⟨s', hs, hcur ▸ hinv⟩
  | thread_exit => exact h.thread_exit hm.1 hm.2
  | init_thread t => exact ⟨_, rfl, h.init_thread hm.2.1 hm.2.2⟩
  | thread_unblock t => exact h.thread_unblock hm.2
  | idle_begin => exact ⟨_, rfl, h.idle_begin hm⟩
  | idle_up =>
    obtain ⟨s', hs, hcur, hinv⟩ := (h.idle_up hm).sema_up s.idle_started
    exact ⟨s', hs, hcur ▸ hinv⟩
  | idle_block => exact h.idle_block hm

end Moves

/-! ### Runs -/

section Runs

variable {s : Sched Sema}

theorem Inv.boot {main idle : Tid} (h : main ≠ idle) (value : Sema → Nat) (idle_started : Sema) :
    Inv (some main) (boot main idle value idle_started) := by
  have hthreads : ∀ t, (Sched.boot main idle value idle_started).threads t =
      if t = main then some ⟨.running, .run, none⟩
      else if t = idle then some ⟨.ready, .idle_begin, none⟩ else none := by
    intro t
    simp only [Sched.boot, update_apply]
  refine ⟨?_, ?_, nodup_singleton _, ?_, fun _ => nodup_nil, ?_, ?_, ?_,
    idle, .idle_begin, ?_, rfl, ?_, ?_, absurd rfl⟩
  all_goals simp only [status, code, creating, hthreads]
  · grind
  · intro t
    show t ∈ [idle] ↔ _ ∧ (none : Option Tid) ≠ _
    grind
  · intro x t
    show t ∈ [] ↔ _
    grind
  · grind
  · grind
  · grind
  · grind
  · grind [Code.idle]
  · intro _
    exact ⟨rfl, by grind⟩

/-- A blocked thread waits for a semaphore, is being created or is the idle thread. -/
theorem Inv.blocked_cases {run : Option Tid} {t : Tid} (h : Inv run s)
    (ht : s.status t = some .blocked) :
    (∃ x, s.code t = some (.sema_down x)) ∨ s.code t = some .run ∨ s.idle_thread = some t := by
  obtain ⟨i, d, hid, -, huniq, hbegin, hset⟩ := h.idle
  obtain ⟨th, hth, -⟩ := Option.map_eq_some_iff.mp ht
  have hc : s.code t = some th.code := by simp [code, hth]
  cases hcode : th.code with
  | run => exact .inr (.inl (hcode ▸ hc))
  | sema_down x => exact .inl ⟨x, hcode ▸ hc⟩
  | idle_begin | idle_up | idle_loop =>
    rw [hcode] at hc
    have := huniq _ _ hc rfl
    grind

variable [DecidableEq Sema]

theorem Reachable.inv (h : Reachable s) : Inv (some s.cur) s := by
  induction h with
  | boot h value idle_started => exact Inv.boot h value idle_started
  | step _ m hm hs ih =>
    obtain ⟨s', hs', hinv⟩ := ih.perform hm
    obtain rfl : s' = _ := Option.some.inj (hs'.symm.trans hs)
    exact hinv

/-- The thread is where its status says: running, on the run queue, waiting for a semaphore or being
created; only the idle thread is nowhere while it does not run. -/
def Kept (s : Sched Sema) (t : Tid) : Status → Prop
  | .running => t = s.cur
  | .ready => t ∈ s.ready_list ∨ s.idle_thread = some t
  | .blocked => (∃ x, s.code t = some (.sema_down x) ∧ t ∈ (s.sema x).waiters) ∨
      s.idle_thread = some t ∨ ∃ p, s.creating p = some t
  | .dying => True

/-- What holds in every state of the scheduler. -/
structure Sound (s : Sched Sema) : Prop where
  one_running : ∃! t, s.status t = some .running
  ready : ∀ t, s.idle_thread ≠ some t → (t ∈ s.ready_list ↔ s.status t = some .ready)
  ready_once : ∀ t ∈ s.ready_list, s.ready_list.count t = 1
  idle_off : ∀ t, s.idle_thread = some t → t ∉ s.ready_list
  waiting : ∀ x, ∀ t ∈ (s.sema x).waiters, s.status t = some .blocked ∧
    (s.sema x).waiters.count t = 1 ∧ t ∉ s.ready_list ∧ ∀ y, y ≠ x → t ∉ (s.sema y).waiters
  asserts : ∀ m, s.Enabled m → s.perform m ≠ none
  kept : ∀ t st, s.status t = some st → s.Kept t st

theorem Inv.sound (h : Inv (some s.cur) s) : s.Sound where
  one_running :=
    ⟨s.cur, (h.running _).mpr rfl, fun t ht => (Option.some.inj ((h.running t).mp ht)).symm⟩
  ready t ht := by
    have := h.ready t
    grind
  ready_once t ht := count_eq_one_of_mem h.ready_nodup ht
  idle_off t ht hm := ((h.ready t).mp hm).2 ht
  waiting x t ht := by
    obtain ⟨hb, hc⟩ := (h.waiters x t).mp ht
    refine ⟨hb, count_eq_one_of_mem (h.waiters_nodup x) ht, fun hm => ?_, fun y hy hm => ?_⟩
    · have := ((h.ready t).mp hm).1
      grind
    · have := ((h.waiters y t).mp hm).2
      grind
  asserts m hm := by
    obtain ⟨s', hs, -⟩ := h.perform hm
    simp [hs]
  kept t st ht := by
    cases st with
    | running => exact (Option.some.inj ((h.running t).mp ht)).symm
    | ready =>
      have := h.ready t
      show t ∈ s.ready_list ∨ _
      grind
    | blocked =>
      obtain ⟨x, hc⟩ | hc | hi := h.blocked_cases ht
      · exact .inl ⟨x, hc, (h.waiters x t).mpr ⟨ht, hc⟩⟩
      · exact .inr (.inr (h.blocked t ht hc))
      · exact .inr (.inl hi)
    | dying => trivial

/-- Every state after `thread_start` is sound. -/
theorem scheduler_sound (h : Reachable s) : s.Sound := h.inv.sound

/-- The initial thread has blocked in `thread_start`, and the idle thread runs. -/
theorem scheduler_sound_first_switch : ∃ s : Sched Unit,
    ((boot 1 2 (fun _ => 0) ()).setCode 1 (.sema_down ())).sema_down_turn () = some s ∧
      s.cur = 2 ∧ s.Sound := by
  have h₀ : Reachable (boot 1 2 (fun _ : Unit => 0) ()) := .boot (by decide) _ _
  have h₁ := h₀.step (.sema_down ()) rfl rfl
  exact ⟨_, rfl, rfl, scheduler_sound (h₁.step (.sema_down_turn ()) rfl rfl)⟩

end Runs

end Sched
end Pintos
