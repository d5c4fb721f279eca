import Pintos.Userprog.ProcessSteps

/-!
# Userprog — runs of processes
-/

namespace Pintos
open Function List

/-! ### Runs that can be computed -/

instance Code.decidableDown {Sema : Type} :
    ∀ c : Option (Code Sema), Decidable (∃ x, c = some (.sema_down x))
  | some (.sema_down x) => isTrue ⟨x, rfl⟩
  | none | some .run | some .idle_begin | some .idle_up | some .idle_loop => isFalse (by simp)

instance Sched.decidableInterruptible {Sema : Type} (s : Sched Sema) : Decidable s.interruptible :=
  decidable_of_iff (¬ ∃ x, s.code s.cur = some (.sema_down x)) not_exists

namespace System

instance decidableEnabled (s : System) (a : Act) : Decidable (s.Enabled a) :=
  @instDecidableAnd _ _ (inferInstanceAs (Decidable (s.fault = none)))
    (match a with
    | .statement => inferInstanceAs (Decidable (_ ∧ _ ∧ _))
    | .turn => inferInstanceAs (Decidable (∃ _, _))
    | .exec | .exec_fails | .exit _ | .process_execute => inferInstanceAs (Decidable (_ ∧ _ ∧ _))
    | .process_wait _ | .kill | .load _ => inferInstanceAs (Decidable (_ ∧ _))
    | .thread_yield | .sema_up _ => inferInstanceAs (Decidable (Sched.interruptible _))
    | .sema_down _ | .idle_begin | .idle_up | .idle_block => inferInstanceAs (Decidable (_ = _)))

/-- The state after the moves, if each is enabled and meets `ok`. -/
def runs (ok : System → Act → Prop) [∀ s a, Decidable (ok s a)] : System → List Act → Option System
  | s, [] => some s
  | s, a :: rest => if s.Enabled a ∧ ok s a then runs ok (s.perform a) rest else none

variable {s s' : System} {a : Act} {ok : System → Act → Prop}

theorem Reachable.runs [∀ s a, Decidable (ok s a)] (as : List Act) :
    ∀ {s s' : System}, Reachable ok s → s.runs ok as = some s' → Reachable ok s' := by
  induction as with
  | nil =>
    intro s s' h hs
    cases hs
    exact h
  | cons a rest ih =>
    intro s s' h hs
    simp only [System.runs] at hs
    split at hs
    · rename_i ha
      exact ih (h.step a ha.1 ha.2) hs
    · cases hs

/-- A state that a list of moves leads to. -/
theorem Reachable.of_runs (ok : System → Act → Prop) [∀ s a, Decidable (ok s a)]
    (P : System → Bool) (as : List Act) (h : (System.boot.runs ok as).any P) :
    ∃ s, Reachable ok s ∧ P s := by
  obtain ⟨s, hs, hP⟩ := (Option.any_eq_true _ _).mp h
  exact ⟨s, Reachable.boot.runs as hs, hP⟩

/-- What every move keeps holds in every run. -/
theorem Reachable.keeps {I : System → Prop} (hboot : I System.boot)
    (hstep : ∀ s a, s.Base → I s → ok s a → Outcome s a (s.perform a) → I (s.perform a))
    (h : Reachable ok s) : I s := by
  induction h with
  | boot => exact hboot
  | step h a ha hok ih => exact hstep _ a h.base ih hok (h.base.performs ha).outcome

/-! ### Parents and children -/

/-- A thread makes its last switch after its children have left its list, but for the initial
thread, whose page stays. -/
def ChildrenFirst (s : System) (a : Act) : Prop :=
  a = .statement → s.pc s.sched.cur = .pexit_switch →
    s.sched.cur = s.sched.initial_thread ∨ s.child_processes s.sched.cur = []

instance (s : System) (a : Act) : Decidable (ChildrenFirst s a) :=
  inferInstanceAs (Decidable (_ → _ → _))

/-- The parent of a thread in a list is there, and no thread has missed it. -/
structure Parents (s : System) : Prop where
  page : ∀ c p, s.parent c = some p → (s.pc c).listed → s.sched.code p ≠ none
  fault : ∀ t, s.fault ≠ some (.dead_parent t)

theorem Parents.step (hbase : s.Base) (h : s.Parents) (hok : ChildrenFirst s a)
    (ho : Outcome s a s') : s'.Parents := by
  cases ho with
  | stops f hf hs =>
    subst hs
    refine ⟨h.page, fun t ht => ?_⟩
    cases ht
    obtain ⟨rfl, hl, p, hp, hnone⟩ := hf
    exact h.page _ p hp hl hnone
  | moves hm =>
    refine ⟨fun c p hp hl hnone => ?_, fun t => hm.fault ▸ h.fault t⟩
    rw [hm.parent] at hp
    have hl' := hm.listed_before hl
    obtain hnone | ⟨rfl, hne, ha, hpc⟩ := hm.code p hnone
    · exact h.page c p hp hl' hnone
    · -- the last switch of `p`, whose list still has `c`
      have hc := (hbase.shape.listed _ c).mpr ⟨hp, hl'⟩
      obtain he | he := hok ha hpc
      · exact hne he
      · rw [he] at hc
        cases hc
  | creates exec hc hsame =>
    refine ⟨fun c p hp hl => ?_, fun t => hsame.1 ▸ h.fault t⟩
    have := hc.runs
    have := h.page c p
    rw [hc.code, update_apply]
    grind [Creates, Pc.listed]

theorem Parents.boot : System.boot.Parents := by
  refine ⟨fun c p hp _ => ?_, fun t => by simp [System.boot]⟩
  simp only [System.boot, update_apply] at hp
  split at hp
  · cases hp
    simp [System.boot, Sched.boot, Sched.code]
  · cases hp

/-- **No dead parent**: in every run in which threads leave after their children, a thread finds the
page of its parent whenever it uses the list there. -/
theorem parents_outlive_accesses (h : Reachable ChildrenFirst s) (t : Tid) :
    s.fault ≠ some (.dead_parent t) :=
  (h.keeps Parents.boot fun _ _ hb hi hok ho => hi.step hb hok ho).fault t

/-- Up to the return of `exec`: the initial thread has started process 3, which has started
process 4. -/
def two_processes : List Act :=
  [.process_execute, .statement, .thread_yield, .idle_begin, .idle_up, .idle_block, .load true,
    .statement, .statement, .statement, .exec, .statement, .statement, .statement, .turn,
    .thread_yield, .load true, .statement, .statement, .statement, .thread_yield, .thread_yield,
    .turn, .statement]

/-- The eight statements from `exit` to the last switch. -/
def exits (status : Int) : List Act := .exit status :: List.replicate 8 .statement

/-- Process 4 leaves before process 3. -/
theorem parents_outlive_accesses_child_first : ∃ s, Reachable ChildrenFirst s ∧
    (s.exists_page 3 = false ∧ s.exists_page 4 = false) ∧ s.fault ≠ some (.dead_parent 4) := by
  obtain ⟨s, h, hs⟩ := Reachable.of_runs ChildrenFirst
    (fun s => !s.exists_page 3 && !s.exists_page 4)
    (two_processes ++ .thread_yield :: exits 0 ++ .thread_yield :: exits 0) (by decide +kernel)
  exact ⟨s, h, by simpa using hs, parents_outlive_accesses h 4⟩

/-- Process 3 leaves first, and then process 4 calls `exit`. -/
theorem exit_after_parent : ∃ s, Reachable (fun _ _ => True) s ∧
    s.fault = some (.dead_parent 4) := by
  obtain ⟨s, h, hs⟩ := Reachable.of_runs (fun _ _ => True)
    (fun s => s.fault = some (.dead_parent 4))
    (two_processes ++ exits 0 ++ [.exit 0, .statement]) (by decide +kernel)
  exact ⟨s, h, by simpa using hs⟩

/-! ### Semaphores in pages -/

/-- A thread makes its last switch when its parent is not awake in `sema_down` on one of its
semaphores. -/
def ParentOut (s : System) (a : Act) : Prop :=
  a = .statement → s.pc s.sched.cur = .pexit_switch →
    ∀ p ∈ s.parent s.sched.cur, s.sched.status p ≠ some .blocked →
      s.pc p ≠ .exec_downing s.sched.cur ∧ s.pc p ≠ .wait_downing s.sched.cur

instance (s : System) (a : Act) : Decidable (ParentOut s a) :=
  inferInstanceAs (Decidable (_ → _ → ∀ p ∈ _, _ → _ ∧ _))

/-- The page of a semaphore is there as long as a thread is inside `sema_down` on it. -/
def SemasThere (s : System) : Prop :=
  ∀ p c, s.pc p = .exec_downing c ∨ s.pc p = .wait_downing c → s.sched.code c ≠ none

/-- Nobody is blocked on the semaphores of a thread that is about to make its last switch. -/
theorem Base.not_blocked {p c : Tid} (h : s.Base) (hc : s.pc c = .pexit_switch)
    (hp : s.pc p = .exec_downing c ∨ s.pc p = .wait_downing c) :
    s.parent c = some p ∧ s.sched.status p ≠ some .blocked := by
  obtain hp | hp := hp
  · refine ⟨(h.exec.execing p c (by rw [hp]; rfl)).1, fun hb => ?_⟩
    have := h.exec.blocked p c ((h.shape.sched.waiters _ p).mpr ⟨hb, (h.shape.exec_code p c).mp hp⟩)
    rw [hc] at this
    cases this
  · refine ⟨h.wait.waiting p c (by rw [hp]; rfl), fun hb => ?_⟩
    exact h.wait.blocked p c
      ((h.shape.sched.waiters _ p).mpr ⟨hb, (h.shape.wait_code p c).mp hp⟩) hc

theorem SemasThere.step (hbase : s.Base) (h : s.SemasThere) (hok : ParentOut s a)
    (ho : Outcome s a s') : s'.SemasThere := by
  cases ho with
  | stops f _ hs =>
    subst hs
    exact h
  | moves hm =>
    intro p c hp hnone
    obtain hnone | ⟨rfl, -, ha, hpc⟩ := hm.code c hnone
    · by_cases he : p = s.sched.cur
      · subst he
        obtain he | hc := hm.page c hp
        · exact h _ c (he ▸ hp) hnone
        · exact hc hnone
      · exact h p c (hm.others p he ▸ hp) hnone
    · have hne : p ≠ s.sched.cur := by
        rintro rfl
        rw [hm.stays hpc] at hp
        exact hp.elim nofun nofun
      rw [hm.others p hne] at hp
      obtain ⟨hpar, hb⟩ := hbase.not_blocked hpc hp
      obtain ⟨he, he'⟩ := hok ha hpc p hpar hb
      exact hp.elim he he'
  | creates exec hc hsame =>
    intro p c hp
    have := h p c
    rw [hc.code, update_apply]
    grind [Creates]

/-- **No semaphore dies under a waiter**: in every run in which no thread makes its last switch
while its parent is awake in `sema_down` on one of its semaphores, the page of a child is there as
long as its parent is in `sema_down` on one of its semaphores. -/
theorem semas_outlive_waiters (h : Reachable ParentOut s) {p c : Tid}
    (hp : s.pc p = .exec_downing c ∨ s.pc p = .wait_downing c) : s.exists_page c := by
  have hboot : System.boot.SemasThere := fun p c hp => hp.elim nofun nofun
  exact exists_page_iff.mpr (h.keeps hboot (fun _ _ hb hi hok ho => hi.step hb hok ho) p c hp)

/-- Process 3 is blocked in `exec` as process 4 runs. -/
theorem semas_outlive_waiters_exec : ∃ s, Reachable ParentOut s ∧
    (s.pc 3 = .exec_downing 4 ∧ s.sched.cur = 4) ∧ s.exists_page 4 := by
  obtain ⟨s, h, hs⟩ := Reachable.of_runs ParentOut
    (fun s => s.pc 3 = .exec_downing 4 ∧ s.sched.cur = 4) (two_processes.take 20)
    (by decide +kernel)
  have hs : s.pc 3 = .exec_downing 4 ∧ s.sched.cur = 4 := by simpa using hs
  exact ⟨s, h, hs, semas_outlive_waiters h (.inl hs.1)⟩

/-- Process 4 wakes process 3 up and runs on to its end. -/
theorem page_released_under_waiter : ∃ s, Reachable (fun _ _ => True) s ∧
    s.pc 3 = .exec_downing 4 ∧ s.exists_page 4 = false := by
  obtain ⟨s, h, hs⟩ := Reachable.of_runs (fun _ _ => True)
    (fun s => s.pc 3 = .exec_downing 4 ∧ s.exists_page 4 = false)
    (two_processes.take 20 ++ exits 0) (by decide +kernel)
  exact ⟨s, h, by simpa using hs⟩

/-! ### `exec` -/

/-- While its parent is in `exec`, a thread neither leaves the list before the parent has looked its
record up nor makes its last switch before the parent has left `sema_down`, and there is memory for
a thread. -/
def ExecTimely (s : System) (a : Act) : Prop :=
  a ≠ .exec_fails ∧ (a = .statement → ∀ p ∈ s.parent s.sched.cur,
    (s.pc s.sched.cur = .pexit_remove →
      s.pc p ≠ .created s.sched.cur true ∧ s.pc p ≠ .exec_get_child s.sched.cur) ∧
    (s.pc s.sched.cur = .pexit_switch →
      s.pc p ≠ .exec_down s.sched.cur ∧ s.pc p ≠ .exec_downing s.sched.cur))

instance (s : System) (a : Act) : Decidable (ExecTimely s a) :=
  inferInstanceAs (Decidable (_ ∧ (_ → ∀ p ∈ _, (_ → _ ∧ _) ∧ (_ → _ ∧ _))))

/-- What `exec` is about to use is there. -/
structure ExecFinds (s : System) : Prop where
  record : ∀ p c, s.pc p = .created c true ∨ s.pc p = .exec_get_child c → (s.pc c).listed
  page : ∀ p c, s.pc p = .exec_down c ∨ s.pc p = .exec_downing c → s.sched.code c ≠ none

theorem ExecFinds.step (hbase : s.Base) (h : s.ExecFinds) (hok : ExecTimely s a)
    (ho : Outcome s a s') : s'.ExecFinds := by
  cases ho with
  | stops f _ hs =>
    subst hs
    exact ⟨h.record, h.page⟩
  | moves hm =>
    -- a thread that is in `exec` afterwards has been there, one statement back or not at all
    have hback : ∀ p, s'.pc p = s.pc p ∨ p = s.sched.cur ∧ (s.pc p).Flows (s'.pc p) := by
      intro p
      by_cases he : p = s.sched.cur
      · subst he
        exact hm.flows.imp id fun hf => ⟨rfl, hf.1⟩
      · exact .inl (hm.others p he)
    refine ⟨fun p c hp => ?_, fun p c hp hnone => ?_⟩
    · have hold : s.pc p = .created c true ∨ s.pc p = .exec_get_child c := by
        obtain he | ⟨-, hf⟩ := hback p
        · exact he ▸ hp
        · have := hf.exec (c := c)
          grind
      have hl := h.record p c hold
      by_cases he : c = s.sched.cur
      · subst he
        have hpar : s.parent s.sched.cur = some p := by
          refine (hbase.exec.execing p _ ?_).1
          obtain he | he := hold <;> rw [he] <;> rfl
        obtain hl' | hn | hr := hm.listed hl
        · exact hl'
        · cases hn.symm.trans hpar
        · obtain he | ⟨-, ha | hi⟩ := hm.flows
          · rw [he, hr]
            rfl
          · obtain ⟨hne, hne'⟩ := (hok.2 ha p hpar).1 hr
            exact (hold.elim hne hne').elim
          · rw [hr] at hi
            cases hi
      · rwa [hm.others c he]
    · obtain hnone | ⟨rfl, -, ha, hpc⟩ := hm.code c hnone
      · obtain he | ⟨-, hf⟩ := hback p
        · exact h.page p c (he ▸ hp) hnone
        · obtain hp | hp := hp
          · have hget := hf.exec.2.2.1 hp
            have hl := h.record p c (.inr hget)
            have hpar := (hbase.exec.execing p c (by rw [hget]; rfl)).1
            refine hbase.shape.alive c (by rw [hpar]; nofun) (fun hc => ?_) hnone
            rw [hc] at hl
            cases hl
          · exact h.page p c (.inl (hf.exec.2.2.2 hp)) hnone
      · have hne : p ≠ s.sched.cur := by
          rintro rfl
          rw [hm.stays hpc] at hp
          exact hp.elim nofun nofun
        rw [hm.others p hne] at hp
        have hpar : s.parent s.sched.cur = some p := by
          refine (hbase.exec.execing p _ ?_).1
          obtain he | he := hp <;> rw [he] <;> rfl
        obtain ⟨he, he'⟩ := (hok.2 ha p hpar).2 hpc
        exact hp.elim he he'
  | creates exec hc hsame =>
    have hold := hbase.shape.born_of_run hc.runs
    refine ⟨fun p c hp => ?_, fun p c hp => ?_⟩
    · have := h.record p c
      grind [Creates, Pc.listed]
    · have := h.page p c
      rw [hc.code, update_apply]
      grind [Creates]

theorem Reachable.exec_finds (h : Reachable ExecTimely s) : s.ExecFinds :=
  h.keeps ⟨fun _ _ hp => hp.elim nofun nofun, fun _ _ hp => hp.elim nofun nofun⟩
    fun _ _ hb hi hok ho => hi.step hb hok ho

/-- The call that returns is the one at the head of the log. -/
theorem Outcome.returns {e : Returned} (ho : Outcome s a s') (he : s'.log = e :: s.log) :
    s.Returns e ∧ a = .statement := by
  cases ho with
  | stops f _ hs =>
    subst hs
    exact absurd (congrArg length he) (by simp [System.stop])
  | moves hm =>
    obtain ⟨hlog, -⟩ | ⟨e', he', hr, -, ha⟩ := hm.log
    · exact absurd (congrArg length (hlog.symm.trans he)) (by simp)
    · obtain rfl := (List.cons.inj (he.symm.trans he')).1
      exact ⟨hr, ha⟩
  | creates exec hc hsame =>
    exact absurd (congrArg length (hsame.2.1.symm.trans he)) (by simp)

/-- **`exec` reports the load**: in every run whose moves are timely, `exec` returns the pid if the
program was loaded and -1 if not, finds the record and the semaphore of its child, does not end its
caller, and nobody is left waiting for a child that has started. -/
theorem exec_reports_load (h : Reachable ExecTimely s) (ha : s.Enabled a) (hok : ExecTimely s a) :
    (∀ p c r, (s.perform a).log = .exec p c r :: s.log →
      ∃ success, s.loaded c = some success ∧ r = if success then (c : Int) else -1) ∧
    (∀ p c, s.pc p = .exec_get_child c → c ∈ s.child_processes p) ∧
    (∀ p c, s.pc p = .exec_down c ∨ s.pc p = .exec_downing c → s.exists_page c) ∧
    (a = .exec ∨ a = .exec_fails → (s.perform a).ended = s.ended) ∧
    ∀ p c, p ∈ (s.sched.sema (.sema_proc_exec c)).waiters → (s.pc c).started = false := by
  have hbase := h.base
  refine ⟨fun p c r hlog => ?_, fun p c hp => ?_, fun p c hp => ?_, fun hexec => ?_,
    hbase.exec.blocked⟩
  · obtain ⟨⟨rfl, hpc, rfl⟩, -⟩ := (hbase.performs ha).outcome.returns hlog
    obtain ⟨hpar, hne, hs⟩ := hbase.exec.done _ c hpc
    exact ⟨_, hbase.records.loaded c hne (by rw [hpar]; nofun) hs, rfl⟩
  · have hpar := (hbase.exec.execing p c (by rw [hp]; rfl)).1
    exact (hbase.shape.listed p c).mpr ⟨hpar, h.exec_finds.record p c (.inr hp)⟩
  · exact exists_page_iff.mpr (h.exec_finds.page p c hp)
  · obtain rfl | rfl := hexec
    · obtain ⟨hc, -⟩ := hbase.shape.process_execute true ha.2.1 ha.2.2.1
      exact hc.history.1
    · exact absurd rfl hok.1

/-- Process 3 has just left `sema_down`, and `exec` is about to return 4. -/
theorem exec_reports_load_two_processes : ∃ s, Reachable ExecTimely s ∧
    (s.perform .statement).log = .exec 3 4 4 :: s.log ∧
    ∃ success, s.loaded 4 = some success ∧ (4 : Int) = if success then ((4 : Tid) : Int) else -1 := by
  obtain ⟨s, h, hs⟩ := Reachable.of_runs ExecTimely
    (fun s => s.Enabled .statement ∧ ExecTimely s .statement ∧
      (s.perform .statement).log = .exec 3 4 4 :: s.log) (two_processes.take 23)
    (by decide +kernel)
  have hs : s.Enabled .statement ∧ ExecTimely s .statement ∧
      (s.perform .statement).log = .exec 3 4 4 :: s.log := by simpa using hs
  exact ⟨s, h, hs.2.2, (exec_reports_load h hs.1 hs.2.1).1 3 4 4 hs.2.2⟩

/-- Process 4 runs to its end before process 3 looks its record up. -/
theorem exec_misses_record : ∃ s, Reachable (fun _ _ => True) s ∧ s.pc 3 = .exec_get_child 4 ∧
    4 ∉ s.child_processes 3 ∧ s.fault = some (.null_record 3) := by
  obtain ⟨s, h, hs⟩ := Reachable.of_runs (fun _ _ => True)
    (fun s => s.pc 3 = .exec_get_child 4 ∧ 4 ∉ s.child_processes 3 ∧
      s.fault = some (.null_record 3))
    (two_processes.take 12 ++ [.thread_yield, .thread_yield, .load true, .statement, .statement,
      .statement] ++ exits 0 ++ [.statement]) (by decide +kernel)
  exact ⟨s, h, by simpa using hs⟩

end System
end Pintos
