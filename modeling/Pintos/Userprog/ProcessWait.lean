import Pintos.Userprog.ProcessRuns

/-!
# Userprog — what `process_wait` returns

A process knows a child once `exec` has returned its pid (`Known`), and has waited for it once a
`process_wait` has returned since (`Waited`).  `Waits` says how the log goes with `is_awaited`: the
flag is set exactly while the parent is in the `process_wait` that set it and ever after.

`wait_returns_status`: in every run in which a child is still in the list when its parent first
looks for it, is not between its last two writes when the parent reads `exit_status`, and makes its
last switch when the parent is not at `sema_down`, `process_wait` returns what it should.
-/

namespace Pintos

/-- `exec` or `process_execute` has returned `c` to `p`. -/
def Known (p c : Tid) (log : List Returned) : Prop :=
  .exec p c c ∈ log ∨ .process_execute p c ∈ log

/-- `process_wait (c)` has returned to `p` since `c` has been known to it. -/
def Waited (p c : Tid) : List Returned → Prop
  | [] => False
  | .wait q d _ :: log => q = p ∧ d = c ∧ Known p c log ∨ Waited p c log
  | .exec _ _ _ :: log | .process_execute _ _ :: log => Waited p c log

instance (p c : Tid) (log : List Returned) : Decidable (Known p c log) :=
  inferInstanceAs (Decidable (_ ∨ _))

instance decidableWaited (p c : Tid) : ∀ log : List Returned, Decidable (Waited p c log)
  | [] => isFalse id
  | .wait q d _ :: log =>
    have := decidableWaited p c log
    inferInstanceAs (Decidable ((q = p ∧ d = c ∧ Known p c log) ∨ Waited p c log))
  | .exec _ _ _ :: log | .process_execute _ _ :: log => decidableWaited p c log

theorem known_of_waited {p c : Tid} {log : List Returned} (h : Waited p c log) : Known p c log := by
  induction log with
  | nil => cases h
  | cons e log ih =>
    have hk : Known p c log := by
      cases e with
      | process_execute t d | exec t d r => exact ih h
      | wait t d r => exact h.elim (fun hw => hw.2.2) ih
    exact hk.imp (List.mem_cons_of_mem e) (List.mem_cons_of_mem e)

namespace Pc

/-- The child that `exec` or `process_execute` has created and not yet returned. -/
def creates : Pc → Option Tid
  | .created c _ | .exec_get_child c | .exec_down c | .exec_downing c | .exec_is_loaded c => some c
  | _ => none

/-- The child that this `process_wait` has marked. -/
def marked : Pc → Option Tid
  | .wait_cur_status c | .wait_down c | .wait_downing c | .wait_exit_status c => some c
  | _ => none

variable {c : Tid} {pc b : Pc}

theorem Flows.creates (h : pc.Flows b) (hb : b.creates = some c) : pc.creates = some c := by
  cases pc <;> simp only [Pc.Flows] at h <;> grind [Pc.creates]

theorem Flows.marked (h : pc.Flows b) (hb : b.marked = some c) :
    pc.marked = some c ∨ pc = .wait_set_awaited c ∧ b = .wait_cur_status c := by
  cases pc <;> simp only [Pc.Flows] at h <;> grind [Pc.marked]

theorem Flows.still_marked (h : pc.Flows b) (hpc : pc.marked = some c) :
    b.marked = some c ∨ b = .user := by
  cases pc <;> simp only [Pc.Flows] at h <;> grind [Pc.marked]

theorem Flows.wait (h : pc.Flows b) :
    (b = .wait_down c → pc = .wait_cur_status c) ∧ (b = .wait_downing c → pc = .wait_down c) := by
  cases pc <;> simp only [Pc.Flows] at h <;> grind

theorem waiting_of_marked {pc : Pc} (h : pc.marked = some c) : pc.waiting = some c := by
  cases pc <;> first | exact h | cases h

end Pc

namespace System

variable {s s' : System} {a : Act}

/-- The moves that let `process_wait` return what it should. -/
def WaitTimely (s : System) (a : Act) : Prop :=
  a = .statement → match s.pc s.sched.cur with
  | .wait_get_child c => Known s.sched.cur c s.log → ¬ Waited s.sched.cur c s.log →
      c ∈ s.child_processes s.sched.cur
  | .wait_exit_status c => s.pc c ≠ .pexit_set_status
  | .pexit_switch => ∀ p ∈ s.parent s.sched.cur,
      s.pc p ≠ .wait_down s.sched.cur ∧ s.pc p ≠ .wait_downing s.sched.cur
  | _ => True

instance (s : System) (a : Act) : Decidable (WaitTimely s a) :=
  @instDecidableForall _ _ inferInstance <| match s.pc s.sched.cur with
    | .wait_get_child _ => inferInstanceAs (Decidable (_ → _ → _))
    | .wait_exit_status _ => inferInstanceAs (Decidable (_ ≠ _))
    | .pexit_switch => inferInstanceAs (Decidable (∀ p ∈ _, _ ∧ _))
    | .user | .created _ _ | .exec_get_child _ | .exec_down _ | .exec_downing _ | .exec_is_loaded _
    | .wait_is_awaited _ | .wait_set_awaited _ | .wait_cur_status _ | .wait_down _
    | .wait_downing _ | .load | .start_get_child _ | .start_set_loaded _ | .start_up _
    | .exit_get_child _ | .exit_set_status _ | .exit_set_cur _ | .pexit_get_child | .pexit_remove
    | .pexit_test | .pexit_set_cur | .pexit_set_status | .pexit_up => isTrue trivial

/-- The log goes with the flags, and the semaphore that a parent is at is there. -/
structure Waits (s : System) : Prop where
  known : ∀ p c, Known p c s.log → c < s.next_tid
  creates : ∀ p c, (s.pc p).creates = some c →
    s.parent c = some p ∧ (s.record c).is_awaited = false
  waited : ∀ p c, Waited p c s.log → (s.record c).is_awaited
  awaited : ∀ p c, s.parent c = some p → (s.record c).is_awaited → Known p c s.log →
    (s.pc p).marked = some c ∨ Waited p c s.log
  marked : ∀ p c, (s.pc p).marked = some c → ¬ Waited p c s.log
  flag : ∀ p c, (s.pc p).marked = some c → (s.record c).is_awaited
  page : ∀ p c, s.pc p = .wait_down c ∨ s.pc p = .wait_downing c → s.sched.code c ≠ none

/-- The page of the semaphore that a parent comes to is there: the child is alive. -/
theorem Waits.page_step (hbase : s.Base) (h : s.Waits) (hok : WaitTimely s a) (hm : s.Moves a s')
    {p c : Tid} (hp : s'.pc p = .wait_down c ∨ s'.pc p = .wait_downing c) :
    s'.sched.code c ≠ none := by
  intro hnone
  obtain hnone | ⟨rfl, -, ha, hpc⟩ := hm.code c hnone
  · by_cases he : p = s.sched.cur
    · subst he
      obtain he | ⟨hf, -⟩ := hm.flows
      · exact h.page _ c (he ▸ hp) hnone
      · obtain hp | hp := hp
        · have hfrom := hf.wait.1 hp
          have hpar := hbase.wait.waiting _ c (by rw [hfrom]; rfl)
          have halive : (s.record c).cur_status = .alive := by
            obtain he | he := hm.alive c hp
            · cases hfrom.symm.trans he
            · exact he
          refine hbase.shape.alive c (by rw [hpar]; nofun) (fun hc => ?_) hnone
          have ho := hbase.records.own c _ hpar
          rw [hc] at ho
          exact ho.1 halive
        · exact h.page _ c (.inl (hf.wait.2 hp)) hnone
    · exact h.page p c (hm.others p he ▸ hp) hnone
  · have hne : p ≠ s.sched.cur := by
      rintro rfl
      rw [hm.stays hpc] at hp
      exact hp.elim nofun nofun
    rw [hm.others p hne] at hp
    have hpar : s.parent s.sched.cur = some p := by
      refine hbase.wait.waiting p _ ?_
      obtain he | he := hp <;> rw [he] <;> rfl
    have hok := hok ha
    rw [hpc] at hok
    obtain ⟨he, he'⟩ := hok p hpar
    exact hp.elim he he'

/-- A move after which the log is the same. -/
theorem Waits.move (hbase : s.Base) (h : s.Waits) (hok : WaitTimely s a) (hm : s.Moves a s')
    (hlog : s'.log = s.log) (huser : s'.pc s.sched.cur = .user → s.pc s.sched.cur = .user ∨
      ∃ x, s.pc s.sched.cur = .start_up x) : s'.Waits := by
  have hflow : ∀ c, (s'.pc s.sched.cur).creates = some c → (s.pc s.sched.cur).creates = some c := by
    intro c hc
    obtain he | ⟨hf, -⟩ := hm.flows
    · rwa [he] at hc
    · exact hf.creates hc
  have hmark : ∀ c, (s'.pc s.sched.cur).marked = some c → (s.pc s.sched.cur).marked = some c ∨
      s.pc s.sched.cur = .wait_set_awaited c ∧ s'.pc s.sched.cur = .wait_cur_status c := by
    intro c hc
    obtain he | ⟨hf, -⟩ := hm.flows
    · exact .inl (he ▸ hc)
    · exact hf.marked hc
  have hstill : ∀ c, (s.pc s.sched.cur).marked = some c → (s'.pc s.sched.cur).marked = some c := by
    intro c hc
    obtain he | ⟨hf, -⟩ := hm.flows
    · rwa [he]
    · obtain hb | hb := hf.still_marked hc
      · exact hb
      · obtain he | ⟨x, he⟩ := huser hb <;> rw [he] at hc <;> cases hc
  have hset : ∀ c, s.pc s.sched.cur = .wait_set_awaited c → s.parent c = some s.sched.cur ∧
      (s.record c).is_awaited = false := fun c hc =>
    ⟨hbase.wait.waiting _ c (by rw [hc]; rfl), hbase.wait.set_awaited _ c hc⟩
  refine ⟨fun p c hk => ?_, fun p c hp => ?_, fun p c hw => ?_, fun p c hp ha hk => ?_,
    fun p c hp => ?_, fun p c hp => ?_, fun p c hp => h.page_step hbase hok hm hp⟩
  · rw [hm.next]
    exact h.known p c (hlog ▸ hk)
  · have := h.creates p c
    have := hm.others p
    rw [hm.parent, hm.awaited]
    grind [Pc.creates]
  · rw [hm.awaited, h.waited p c (hlog ▸ hw)]
    rfl
  · rw [hm.parent] at hp
    rw [hm.awaited] at ha
    rw [hlog] at hk ⊢
    have := h.awaited p c hp
    have := hm.others p
    grind [Pc.marked]
  · rw [hlog]
    have := h.marked p c
    have := h.waited p c
    have := hm.others p
    grind
  · rw [hm.awaited]
    have := h.flag p c
    have := hm.others p
    grind

/-- A call returns. -/
theorem Waits.returns {e : Returned} (hbase : s.Base) (h : s.Waits) (hok : WaitTimely s a)
    (hm : s.Moves a s') (hlog : s'.log = e :: s.log) (he : s.Returns e)
    (huser : s'.pc s.sched.cur = .user) (ha : a = .statement) : s'.Waits := by
  have hok := hok ha
  have hflag : ∀ c, (s'.record c).is_awaited = (s.record c).is_awaited := by
    intro c
    rw [hm.awaited, huser]
    simp
  have hpage : ∀ p c, s'.pc p = .wait_down c ∨ s'.pc p = .wait_downing c →
      s'.sched.code c ≠ none := fun p c hp => h.page_step hbase (fun _ => hok) hm hp
  have hmark : ∀ p c, (s'.pc p).marked = some c → (s.pc p).marked = some c ∧ p ≠ s.sched.cur := by
    intro p c hp
    have := hm.others p
    grind [Pc.marked]
  have hcreates : ∀ p c, (s'.pc p).creates = some c → (s.pc p).creates = some c := by
    intro p c hp
    have := hm.others p
    grind [Pc.creates]
  have hold : ∀ p c, p ≠ s.sched.cur → (s.pc p).marked = some c → (s'.pc p).marked = some c :=
    fun p c hp hc => (hm.others p hp).symm ▸ hc
  have hcreate : ∀ p c, (s.pc p).creates = some c → c < s.next_tid := by
    intro p c hp
    by_contra hn
    have := (h.creates p c hp).1
    have := (hbase.shape.unborn c (Nat.le_of_not_lt hn)).1
    grind
  refine ⟨fun p c hk => ?_, fun p c hp => ?_, fun p c hw => ?_, fun p c hp hf hk => ?_,
    fun p c hp => ?_, fun p c hp => ?_, hpage⟩
  · rw [hm.next]
    rw [hlog] at hk
    have := h.known p c
    cases e with
    | process_execute t d =>
      have := hcreate t d
      grind [Known, Returns, Pc.creates]
    | exec t d r =>
      have := hcreate t d
      grind [Known, Returns, Pc.creates]
    | wait t d r => grind [Known]
  · rw [hm.parent, hflag]
    exact h.creates p c (hcreates p c hp)
  · rw [hflag]
    rw [hlog] at hw
    cases e with
    | process_execute t d | exec t d r => exact h.waited p c hw
    | wait t d r =>
      obtain ⟨rfl, rfl, hk⟩ | hw := hw
      · obtain ⟨rfl, ⟨hpc, hd, -⟩ | ⟨-, hf, -⟩ | ⟨hpc, -⟩⟩ := he
        · rw [hpc] at hok
          by_contra hf
          exact hd (hok hk fun hw => hf (h.waited _ d hw))
        · exact hf
        · exact h.flag _ d (by rw [hpc]; rfl)
      · exact h.waited p c hw
  · rw [hflag] at hf
    rw [hm.parent] at hp
    rw [hlog] at hk ⊢
    have hwas := h.awaited p c hp hf
    have hself := h.creates p c
    cases e with
    | process_execute t d | exec t d r =>
      have := hold p c
      grind [Known, Waited, Returns, Pc.creates, Pc.marked]
    | wait t d r =>
      have := hold p c
      have hk : Known p c s.log := by grind [Known]
      show _ ∨ (t = p ∧ d = c ∧ Known p c s.log ∨ Waited p c s.log)
      grind [Returns, Pc.marked]
  · obtain ⟨hp, hne⟩ := hmark p c hp
    rw [hlog]
    have := h.marked p c hp
    cases e with
    | process_execute t d | exec t d r => exact this
    | wait t d r => grind [Waited, Returns]
  · rw [hflag]
    exact h.flag p c (hmark p c hp).1

theorem Waits.create {exec : Bool} (hbase : s.Base) (h : s.Waits)
    (hc : Creates s s' s.sched.cur exec) (hlog : s'.log = s.log) : s'.Waits := by
  have hold := hbase.shape.born_of_run hc.runs
  have hnew := hbase.shape.unborn s.next_tid (Nat.le_refl _)
  have hwaited : ∀ p, ¬ Waited p s.next_tid s.log := fun p hw =>
    Nat.lt_irrefl _ (h.known p _ (known_of_waited hw))
  refine ⟨fun p c hk => ?_, fun p c hp => ?_, fun p c hw => ?_, fun p c hp hf hk => ?_,
    fun p c hp => ?_, fun p c hp => ?_, fun p c hp => ?_⟩
  · have := h.known p c (hlog ▸ hk)
    rw [hc.next]
    exact Nat.lt_succ_of_lt this
  · have := h.creates p c
    grind [Creates, Pc.creates, create_child_process]
  · rw [hlog] at hw
    have := h.waited p c hw
    grind [Creates]
  · rw [hlog] at hk ⊢
    have := h.awaited p c
    grind [Creates, Pc.marked, create_child_process]
  · rw [hlog]
    have := h.marked p c
    grind [Creates, Pc.marked]
  · have := h.flag p c
    have := hbase.wait.waiting p c
    have : (s.pc p).marked = some c → (s.pc p).waiting = some c := Pc.waiting_of_marked
    grind [Creates, Pc.marked]
  · have := h.page p c
    rw [hc.code, Function.update_apply]
    grind [Creates]

theorem Waits.step (hbase : s.Base) (h : s.Waits) (hok : WaitTimely s a) (ho : Outcome s a s') :
    s'.Waits := by
  cases ho with
  | stops f _ hs =>
    subst hs
    exact ⟨h.known, h.creates, h.waited, h.awaited, h.marked, h.flag, h.page⟩
  | moves hm =>
    obtain ⟨hlog, huser⟩ | ⟨e, hlog, he, huser, ha⟩ := hm.log
    · exact h.move hbase hok hm hlog huser
    · exact h.returns hbase hok hm hlog he huser ha
  | creates exec hc hsame => exact h.create hbase hc hsame.2.1

theorem Reachable.waits (h : Reachable WaitTimely s) : s.Waits := by
  refine h.keeps ⟨fun p c hk => ?_, nofun, nofun, nofun, nofun, nofun,
    fun p c hp => hp.elim nofun nofun⟩ fun _ _ hb hi hok ho => hi.step hb hok ho
  exact hk.elim nofun nofun

/-- The status that a record shows once its thread is no longer alive, but for the moment between
the two writes of `process_exit`. -/
theorem Own.status {pc : Pc} {r : ChildProcess} {ended : Option Int} {loaded : Option Bool}
    (h : Own pc r ended loaded) (hr : r.cur_status ≠ .alive) (hpc : pc ≠ .pexit_set_status) :
    ended = some r.exit_status := by
  cases pc <;> simp only [Own] at h <;> grind

/-- **`process_wait` returns the status**: in every run whose moves are timely, `process_wait`
returns -1 for a pid that is not a child of the caller, and for a pid that `exec` has returned to the
caller the status of the child at the first call and -1 at each later one; the semaphore that it
waits on is there, and nobody is left waiting for a child that has come to its end. -/
theorem wait_returns_status (h : Reachable WaitTimely s) (ha : s.Enabled a) (hok : WaitTimely s a) :
    (∀ p c r, (s.perform a).log = .wait p c r :: s.log → (s.parent c ≠ some p → r = -1) ∧
      (Known p c s.log → if Waited p c s.log then r = -1 else s.ended c = some r)) ∧
    (∀ p c, s.pc p = .wait_down c ∨ s.pc p = .wait_downing c → s.exists_page c) ∧
    ∀ p c, p ∈ (s.sched.sema (.sema_proc_wait c)).waiters → s.pc c ≠ .pexit_switch := by
  have hbase := h.base
  have hw := h.waits
  refine ⟨fun p c r hlog => ?_, fun p c hp => exists_page_iff.mpr (hw.page p c hp),
    hbase.wait.blocked⟩
  obtain ⟨hret, hstmt⟩ := (hbase.performs ha).outcome.returns hlog
  have hok := hok hstmt
  obtain ⟨rfl, ⟨hpc, hc, rfl⟩ | ⟨hpc, hf, rfl⟩ | ⟨hpc, rfl⟩⟩ := hret
  · refine ⟨fun _ => rfl, fun hk => ?_⟩
    rw [hpc] at hok
    split
    · rfl
    · rename_i hn
      exact absurd (hok hk hn) hc
  · have hpar := hbase.wait.waiting _ c (by rw [hpc]; rfl)
    refine ⟨fun _ => rfl, fun hk => ?_⟩
    obtain hm | hn := hw.awaited _ c hpar hf hk
    · rw [hpc] at hm
      cases hm
    · exact (if_pos hn).mpr rfl
  · have hpar := hbase.wait.waiting _ c (by rw [hpc]; rfl)
    rw [hpc] at hok
    refine ⟨fun hn => absurd hpar hn, fun _ => ?_⟩
    rw [if_neg (hw.marked _ c (by rw [hpc]; rfl))]
    exact Own.status (hbase.records.own c _ hpar) (hbase.wait.done _ c hpc) hok

/-- Process 3 has waited for process 4 in `sema_down` and is about to return its status. -/
theorem wait_returns_status_seven : ∃ s, Reachable WaitTimely s ∧ Known 3 4 s.log ∧
    ¬ Waited 3 4 s.log ∧ (s.perform .statement).log = .wait 3 4 7 :: s.log ∧
    s.ended 4 = some 7 := by
  obtain ⟨s, h, hs⟩ := Reachable.of_runs WaitTimely
    (fun s => s.Enabled .statement ∧ WaitTimely s .statement ∧ Known 3 4 s.log ∧
      ¬ Waited 3 4 s.log ∧ (s.perform .statement).log = .wait 3 4 7 :: s.log)
    (two_processes ++ [.process_wait 4, .statement, .statement, .statement, .statement, .statement,
      .turn] ++ (exits 7).take 8 ++ [.thread_yield, .thread_yield, .turn]) (by decide +kernel)
  have hs : s.Enabled .statement ∧ WaitTimely s .statement ∧ Known 3 4 s.log ∧
      ¬ Waited 3 4 s.log ∧ (s.perform .statement).log = .wait 3 4 7 :: s.log := by
    simpa [-decide_not] using hs
  obtain ⟨ha, hok, hk, hn, hlog⟩ := hs
  have hwait := ((wait_returns_status h ha hok).1 3 4 7 hlog).2 hk
  rw [if_neg hn] at hwait
  exact ⟨s, h, hk, hn, hlog, hwait⟩

/-- Process 4 comes to its end before process 3 looks for it. -/
theorem wait_after_exit : ∃ s, Reachable (fun _ _ => True) s ∧ Known 3 4 s.log ∧
    ¬ Waited 3 4 s.log ∧ s.Enabled .statement ∧
    (s.perform .statement).log = .wait 3 4 (-1) :: s.log ∧ s.ended 4 = some 7 := by
  obtain ⟨s, h, hs⟩ := Reachable.of_runs (fun _ _ => True)
    (fun s => Known 3 4 s.log ∧ ¬ Waited 3 4 s.log ∧ s.Enabled .statement ∧
      (s.perform .statement).log = .wait 3 4 (-1) :: s.log ∧ s.ended 4 = some 7)
    (two_processes ++ .thread_yield :: exits 7 ++ [.thread_yield, .process_wait 4])
    (by decide +kernel)
  exact ⟨s, h, by simpa [-decide_not] using hs⟩

end System
end Pintos
