import Pintos.Threads.SchedulerRuns

/-!
# Threads — what a move leaves alone

What each move of the scheduler does to the parts that other code can see: where the threads are
(`code`, which is `none` for a page that has been released), which threads are being created, and
the semaphores.
-/

namespace Pintos
open Function
namespace Sched

variable {Sema : Type} {s s' : Sched Sema} {c : Tid}

/-- `s` with the processor given to `n`. -/
def resume (s : Sched Sema) (n : Tid) (rest : List Tid) : Sched Sema :=
  { s with ready_list := rest, cur := n }.setStatus n .running

/-- `schedule` gives the processor to a thread, and releases the page of the thread that it leaves
if that is dying. -/
theorem schedule_cases (h : s.schedule = some s') : ∃ n rest,
    s' = s.resume n rest ∧ (s.status s.cur = some .dying → s.cur = n ∨ s.cur = s.initial_thread) ∨
    s' = (s.resume n rest).free_page s.cur ∧ s.cur ≠ s.initial_thread ∧
      s.status s.cur = some .dying := by
  have hnext : s.next_thread_to_run.2 =
      { s with ready_list := s.next_thread_to_run.2.ready_list } := by
    unfold next_thread_to_run
    split <;> rfl
  simp only [schedule] at h
  split at h
  · cases h
  · split at h
    · cases h
    · rename_i n _
      split at h
      · cases h
      · refine ⟨n, s.next_thread_to_run.2.ready_list, ?_⟩
        split at h
        · rename_i hcur
          cases h
          refine .inl ⟨?_, fun _ => .inl hcur⟩
          subst hcur
          rw [hnext]
          rfl
        · rename_i hne
          cases h
          rw [hnext]
          have hst : ({ s with ready_list := s.next_thread_to_run.2.ready_list, cur := n }.setStatus
              n .running : Sched Sema).status s.cur = s.status s.cur := by
            rw [status_setStatus, if_neg hne]
            rfl
          simp only [thread_schedule_tail, hst]
          by_cases hd : s.status s.cur = some .dying ∧ s.cur ≠ s.initial_thread
          · exact .inr ⟨if_pos hd, hd.2, hd.1⟩
          · refine .inl ⟨if_neg hd, fun hs => .inr ?_⟩
            by_contra hi
            exact hd ⟨hs, hi⟩

@[simp] theorem code_resume (n : Tid) (rest : List Tid) : (s.resume n rest).code = s.code :=
  funext fun _ => code_setStatus ..

@[simp] theorem creating_resume (n : Tid) (rest : List Tid) :
    (s.resume n rest).creating = s.creating := funext fun _ => creating_setStatus ..

/-- What other code sees of the scheduler is the same. -/
structure Same (s s' : Sched Sema) : Prop where
  code : s'.code = s.code
  creating : s'.creating = s.creating
  initial : s'.initial_thread = s.initial_thread
  idle_started : s'.idle_started = s.idle_started

theorem Same.refl (s : Sched Sema) : Same s s := ⟨rfl, rfl, rfl, rfl⟩

/-- A switch away from a thread that is not dying. -/
theorem schedule_same (h : s.schedule = some s') (hs : s.status s.cur ≠ some .dying) :
    Same s s' ∧ s'.sema = s.sema := by
  obtain ⟨n, rest, ⟨rfl, -⟩ | ⟨-, -, hd⟩⟩ := schedule_cases h
  · exact ⟨⟨code_resume n rest, creating_resume n rest, rfl, rfl⟩, rfl⟩
  · exact absurd hd hs

theorem Same.trans {s'' : Sched Sema} (h : Same s s') (h' : Same s' s'') : Same s s'' :=
  ⟨h'.code.trans h.code, h'.creating.trans h.creating, h'.initial.trans h.initial,
    h'.idle_started.trans h.idle_started⟩

theorem same_setStatus (t : Tid) (st : Status) : Same s (s.setStatus t st) :=
  ⟨funext fun _ => code_setStatus .., funext fun _ => creating_setStatus .., rfl, rfl⟩

/-- The thread that is left has taken the status `st`. -/
theorem schedule_setStatus_same {st : Status} (h : (s.setStatus s.cur st).schedule = some s')
    (hst : st ≠ .dying) : Same s s' ∧ s'.sema = s.sema := by
  have hs : (s.setStatus s.cur st).status s.cur ≠ some .dying := by
    rw [status_setStatus, if_pos rfl]
    cases s.status s.cur with
    | none => nofun
    | some _ => simpa using hst
  obtain ⟨hsame, hsema⟩ := schedule_same h hs
  exact ⟨(same_setStatus s.cur st).trans hsame, hsema⟩

theorem thread_yield_same (h : s.thread_yield = some s') : Same s s' ∧ s'.sema = s.sema := by
  unfold thread_yield at h
  split at h
  · exact schedule_setStatus_same h nofun
  · obtain ⟨hsame, hsema⟩ :=
      schedule_setStatus_same (s := { s with ready_list := s.ready_list ++ [s.cur] }) h nofun
    exact ⟨{ hsame with }, hsema⟩

theorem thread_block_same (h : s.thread_block = some s') : Same s s' ∧ s'.sema = s.sema :=
  schedule_setStatus_same h nofun

/-- The end of `thread_exit`: the page of the thread is gone, but for the initial one. -/
theorem thread_exit_frame (h : s.thread_exit = some s') (hc : s.creating s.cur = none) :
    s'.creating = s.creating ∧ s'.idle_started = s.idle_started ∧
      s'.initial_thread = s.initial_thread ∧ s'.sema = s.sema ∧
      (s'.code = s.code ∨
        s.cur ≠ s.initial_thread ∧ s'.code = Function.update s.code s.cur none) := by
  have hsame := same_setStatus (s := s) s.cur .dying
  obtain ⟨n, rest, ⟨rfl, -⟩ | ⟨rfl, hi, -⟩⟩ := schedule_cases h
  · exact ⟨(creating_resume ..).trans hsame.creating, rfl, rfl, rfl,
      .inl ((code_resume ..).trans hsame.code)⟩
  · refine ⟨funext fun t => ?_, rfl, rfl, rfl, .inr ⟨hi, funext fun t => ?_⟩⟩
    · rw [creating_free_page, creating_resume, hsame.creating]
      split
      · rename_i e
        rw [e]
        exact hc.symm
      · rfl
    · rw [code_free_page, code_resume, hsame.code, update_apply]
      rfl

/-- A new thread. -/
theorem init_thread_frame (hcur : s.code s.cur ≠ none) (hne : s.cur ≠ c) (hc : s.threads c = none) :
    (s.init_thread c).code = Function.update s.code c (some .run) ∧
      (s.init_thread c).creating = Function.update s.creating s.cur (some c) := by
  constructor
  · funext t
    rw [init_thread, code_setCreating, update_apply]
    by_cases ht : t = c <;> simp [code, ht]
  · funext t
    rw [init_thread, creating_setCreating, update_apply]
    by_cases ht : t = s.cur
    · subst ht
      cases hth : s.threads s.cur with
      | none => simp [code, hth] at hcur
      | some th => simp [hne, hth]
    · simp only [ht, if_false]
      by_cases ht' : t = c
      · subst ht'
        simp [creating, hc]
      · simp [creating, ht']

/-- A thread on its way into the run queue. -/
theorem thread_unblock_same (h : s.thread_unblock c = some s') : Same s s' ∧ s'.sema = s.sema := by
  unfold thread_unblock at h
  split at h
  · cases h
    exact ⟨{ same_setStatus (s := { s with ready_list := s.ready_list ++ [c] }) c .ready with }, rfl⟩
  · cases h

/-- The new thread is no longer being created. -/
theorem create_unblock_frame (h : (s.setCreating s.cur none).thread_unblock c = some s') :
    s'.code = s.code ∧ s'.creating = Function.update s.creating s.cur none ∧
      s'.idle_started = s.idle_started ∧ s'.initial_thread = s.initial_thread ∧
      s'.sema = s.sema := by
  obtain ⟨hsame, hsema⟩ := thread_unblock_same h
  refine ⟨hsame.code.trans (funext fun _ => code_setCreating ..),
    hsame.creating.trans (funext fun t => ?_), hsame.idle_started, hsame.initial, hsema⟩
  rw [creating_setCreating, update_apply]
  split
  · cases s.threads s.cur <;> rfl
  · rfl

/-- The running thread goes on elsewhere. -/
theorem setCode_frame {c : Code Sema} (hcur : s.code s.cur ≠ none) :
    (s.setCode s.cur c).code = Function.update s.code s.cur (some c) ∧
      (s.setCode s.cur c).creating = s.creating := by
  refine ⟨funext fun t => ?_, funext fun t => creating_setCode ..⟩
  rw [code_setCode, update_apply]
  cases h : s.code s.cur with
  | none => exact absurd h hcur
  | some _ => rfl

variable [DecidableEq Sema] {x : Sema}

/-- `sema_up` adds one to the value, and takes the first waiter off. -/
theorem sema_up_frame (h : s.sema_up x = some s') : Same s s' ∧ s'.sema = Function.update s.sema x
      ⟨((s.sema x).value + 1) % 4294967296, (s.sema x).waiters.tail⟩ := by
  cases hw : (s.sema x).waiters with
  | nil =>
    simp only [sema_up, hw] at h
    cases h
    exact ⟨⟨rfl, rfl, rfl, rfl⟩, rfl⟩
  | cons t rest =>
    simp only [sema_up, hw] at h
    obtain ⟨hsame, hsema⟩ := thread_unblock_same h
    exact ⟨{ hsame with }, hsema⟩

/-- A turn that finds the value zero: the thread joins the waiters. -/
theorem sema_down_turn_zero (h : s.sema_down_turn x = some s') (hv : (s.sema x).value = 0) :
    Same s s' ∧ s'.sema = Function.update s.sema x
      ⟨(s.sema x).value, (s.sema x).waiters ++ [s.cur]⟩ := by
  rw [show s.sema_down_turn x = thread_block (s.setSema x
    ⟨(s.sema x).value, (s.sema x).waiters ++ [s.cur]⟩) from if_pos hv] at h
  obtain ⟨hsame, hsema⟩ := thread_block_same h
  exact ⟨{ hsame with }, hsema⟩

/-- A turn that finds the value positive: `sema_down` returns. -/
theorem sema_down_turn_pos (h : s.sema_down_turn x = some s') (hv : (s.sema x).value ≠ 0)
    (hcur : s.code s.cur ≠ none) :
    s'.code = Function.update s.code s.cur (some .run) ∧ s'.creating = s.creating ∧
      s'.idle_started = s.idle_started ∧ s'.initial_thread = s.initial_thread ∧
      s'.sema = Function.update s.sema x ⟨(s.sema x).value - 1, (s.sema x).waiters⟩ := by
  rw [show s.sema_down_turn x = some ((s.setSema x
    ⟨(s.sema x).value - 1, (s.sema x).waiters⟩).setCode s.cur .run) from if_neg hv] at h
  cases h
  obtain ⟨hcode, hcreating⟩ := setCode_frame (c := .run)
    (s := s.setSema x ⟨(s.sema x).value - 1, (s.sema x).waiters⟩) hcur
  exact ⟨hcode, hcreating, rfl, rfl, rfl⟩

end Sched
end Pintos
