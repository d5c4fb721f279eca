import Pintos.Threads.SchedulerFrame
import Pintos.Userprog.Process

/-!
# Userprog — what holds of the processes in every run

Four groups of facts, each kept by every move.  `Shape`: the lists of children are what the threads
say, and a thread inside `sema_down` is known to the scheduler as such.  `Records`: what the record
of a thread says, by where the thread is.  `ExecSema` and `WaitSema`: the two semaphores of a thread
have the value one exactly from the `sema_up` of the thread to the `sema_down` of its parent, and
nobody is left among the waiters after that `sema_up`.

The move lemmas say that each kind of move keeps all four.
-/

namespace Pintos
open Function
open Sched (Move)

namespace Pc

/-- The child that `exec` waits for, as long as it has not. -/
def execing : Pc → Option Tid
  | .created c true | .exec_get_child c | .exec_down c | .exec_downing c => some c
  | _ => none

/-- The child that `process_wait` has found. -/
def waiting : Pc → Option Tid
  | .wait_is_awaited c | .wait_set_awaited c | .wait_cur_status c | .wait_down c
  | .wait_downing c | .wait_exit_status c => some c
  | _ => none

/-- The child that `process_wait` has marked, as long as it has not waited for it. -/
def awaiting : Pc → Option Tid
  | .wait_cur_status c | .wait_down c | .wait_downing c => some c
  | _ => none

/-- `sema_up (&sema_proc_exec)` is done. -/
def started : Pc → Bool
  | .load | .start_get_child _ | .start_set_loaded _ | .start_up _ => false
  | _ => true

/-- The record is in the list of the parent. -/
def listed : Pc → Bool
  | .pexit_test | .pexit_set_cur | .pexit_set_status | .pexit_up | .pexit_switch => false
  | _ => true

/-- The thread is not inside a call of the scheduler that other threads can see. -/
def quiet : Pc → Bool
  | .created _ _ | .exec_downing _ | .wait_downing _ | .pexit_switch => false
  | _ => true

/-- The thread runs its program, or a call of it that returns. -/
def active : Pc → Bool
  | .user | .created _ _ | .exec_get_child _ | .exec_down _ | .exec_downing _ | .exec_is_loaded _
  | .wait_get_child _ | .wait_is_awaited _ | .wait_set_awaited _ | .wait_cur_status _
  | .wait_down _ | .wait_downing _ | .wait_exit_status _ => true
  | _ => false

/-- The thread is neither inside of `exec` nor at a child of `process_wait`. -/
def apart : Pc → Bool
  | .user | .wait_get_child _ | .load | .start_get_child _ | .start_set_loaded _ | .start_up _
  | .exit_get_child _ | .exit_set_status _ | .exit_set_cur _ | .pexit_get_child | .pexit_remove
  | .pexit_test | .pexit_set_cur | .pexit_set_status | .pexit_up => true
  | _ => false

variable {pc : Pc}

theorem apart_spec (h : pc.apart) : pc.quiet ∧ pc.execing = none ∧ pc.waiting = none ∧
    ∀ c, pc ≠ .exec_is_loaded c := by
  cases pc <;> first | (cases h; done) | exact ⟨rfl, rfl, rfl, nofun⟩

theorem active_of_waiting {c : Tid} (h : pc.waiting = some c) : pc.active := by
  cases pc <;> first | rfl | cases h

theorem listed_of_active (h : pc.active) : pc.listed := by
  cases pc <;> first | rfl | cases h

theorem started_of_active (h : pc.active) : pc.started := by
  cases pc <;> first | rfl | cases h

theorem waiting_of_awaiting {c : Tid} (h : pc.awaiting = some c) : pc.waiting = some c := by
  cases pc <;> first | exact h | cases h

end Pc

/-- What the record of a thread says, by where the thread is. -/
def Own (pc : Pc) (r : ChildProcess) (ended : Option Int) (loaded : Option Bool) : Prop :=
  match pc with
  | .start_get_child b | .start_set_loaded b =>
    r.cur_status = .alive ∧ ended = none ∧ loaded = some b
  | .start_up b => r.cur_status = .alive ∧ ended = none ∧ loaded = some b ∧ r.is_loaded = b
  | .exit_get_child st | .exit_set_status st => r.cur_status = .alive ∧ ended = some st
  | .exit_set_cur st => r.cur_status = .alive ∧ ended = some st ∧ r.exit_status = st
  | .pexit_get_child | .pexit_remove | .pexit_test =>
    ended = if r.cur_status = .alive then some (-1) else some r.exit_status
  | .pexit_set_cur => r.cur_status = .alive ∧ ended = some (-1)
  | .pexit_set_status => r.cur_status = .killed ∧ ended = some (-1)
  | .pexit_up | .pexit_switch => r.cur_status ≠ .alive ∧ ended = some r.exit_status
  | _ => r.cur_status = .alive ∧ ended = none

theorem own_of_active {pc : Pc} {r : ChildProcess} {ended : Option Int} {loaded : Option Bool}
    (h : pc.active) : Own pc r ended loaded ↔ r.cur_status = .alive ∧ ended = none := by
  cases pc <;> first | exact Iff.rfl | cases h

/-- `is_awaited` does not matter. -/
theorem Own.congr {pc : Pc} {r r' : ChildProcess} {ended : Option Int} {loaded : Option Bool}
    (h : Own pc r ended loaded) (hc : r'.cur_status = r.cur_status)
    (he : r'.exit_status = r.exit_status) (hl : r'.is_loaded = r.is_loaded) :
    Own pc r' ended loaded := by
  unfold Own at *
  rw [hc, he, hl]
  exact h

namespace System

/-- The record of `t` is as for a thread at `pc`. -/
abbrev OwnAt (s : System) (t : Tid) (pc : Pc) : Prop :=
  Own pc (s.record t) (s.ended t) (s.loaded t)

/-- The lists, the pages and the scheduler fit where the threads are. -/
structure Shape (s : System) : Prop where
  sched : s.sched.Inv (some s.sched.cur)
  idle_started : s.sched.idle_started = .other 0
  next : 2 < s.next_tid
  born : ∀ t, s.sched.code t ≠ none → t < s.next_tid
  unborn : ∀ c, s.next_tid ≤ c → s.parent c = none ∧ s.pc c = .user
  alive : ∀ c, s.parent c ≠ none → s.pc c ≠ .pexit_switch → s.sched.code c ≠ none
  listed : ∀ p c, c ∈ s.child_processes p ↔ s.parent c = some p ∧ (s.pc c).listed
  nodup : ∀ p, (s.child_processes p).Nodup
  exec_code : ∀ t c, s.pc t = .exec_downing c ↔
    s.sched.code t = some (.sema_down (.sema_proc_exec c))
  wait_code : ∀ t c, s.pc t = .wait_downing c ↔
    s.sched.code t = some (.sema_down (.sema_proc_wait c))
  creating : ∀ t c, s.sched.creating t = some c ↔ ∃ b, s.pc t = .created c b

/-- The records say what has become of the threads. -/
structure Records (s : System) : Prop where
  unborn : ∀ c, s.next_tid ≤ c → s.ended c = none
  own : ∀ c p, s.parent c = some p → Own (s.pc c) (s.record c) (s.ended c) (s.loaded c)
  loaded : ∀ c, c ≠ 2 → s.parent c ≠ none → (s.pc c).started →
    s.loaded c = some (s.record c).is_loaded

/-- `sema_proc_exec` is up from the `sema_up` in `start_process` to the `sema_down` in `exec`. -/
structure ExecSema (s : System) : Prop where
  unborn : ∀ c, s.next_tid ≤ c → (s.sched.sema (.sema_proc_exec c)).value = 0
  execing : ∀ p c, (s.pc p).execing = some c → s.parent c = some p ∧ c ≠ 2 ∧
    (s.sched.sema (.sema_proc_exec c)).value = if (s.pc c).started then 1 else 0
  done : ∀ p c, s.pc p = .exec_is_loaded c → s.parent c = some p ∧ c ≠ 2 ∧ (s.pc c).started
  blocked : ∀ t c, t ∈ (s.sched.sema (.sema_proc_exec c)).waiters → (s.pc c).started = false

/-- `sema_proc_wait` is up from the `sema_up` in `process_exit` to the `sema_down` in
`process_wait`. -/
structure WaitSema (s : System) : Prop where
  unborn : ∀ c, s.next_tid ≤ c → (s.sched.sema (.sema_proc_wait c)).value = 0
  waiting : ∀ p c, (s.pc p).waiting = some c → s.parent c = some p
  set_awaited : ∀ p c, s.pc p = .wait_set_awaited c → (s.record c).is_awaited = false
  awaiting : ∀ p c, (s.pc p).awaiting = some c → (s.record c).is_awaited
  value : ∀ c, s.parent c ≠ none →
    ((s.record c).is_awaited = false ∨ ∃ p, (s.pc p).awaiting = some c) →
    (s.sched.sema (.sema_proc_wait c)).value = if s.pc c = .pexit_switch then 1 else 0
  done : ∀ p c, s.pc p = .wait_exit_status c → (s.record c).cur_status ≠ .alive
  blocked : ∀ t c, t ∈ (s.sched.sema (.sema_proc_wait c)).waiters → s.pc c ≠ .pexit_switch

/-- What holds in every run. -/
structure Base (s : System) : Prop where
  shape : s.Shape
  records : s.Records
  exec : s.ExecSema
  wait : s.WaitSema

variable {s s' : System} {t : Tid} {a b : Pc} {sc : Sched KSema} {c : Tid}
  {f : ChildProcess → ChildProcess} {p : Tid} {x : KSema}

theorem Shape.born_of_run (h : s.Shape) (hrun : s.sched.code t = some .run) : t < s.next_tid :=
  h.born t (by rw [hrun]; nofun)

theorem Shape.not_creating (h : s.Shape) (ht : ∀ c x, s.pc t ≠ .created c x) :
    s.sched.creating t = none := by
  cases hx : s.sched.creating t with
  | none => rfl
  | some c =>
    obtain ⟨x, hx⟩ := (h.creating t c).mp hx
    exact absurd hx (ht c x)

theorem Base.stop (h : s.Base) (f : Fault) : (s.stop f).Base :=
  ⟨{ h.shape with }, { h.records with }, { h.exec with }, { h.wait with }⟩

/-! ### Statements that touch no semaphore -/

/-- `t` goes from `a` to `b`, and no other thread goes anywhere. -/
structure Step (s s' : System) (t : Tid) (a b : Pc) : Prop where
  here : s.pc t = a
  pc : ∀ u, s'.pc u = if u = t then b else s.pc u
  parent : s'.parent = s.parent
  next : s'.next_tid = s.next_tid
  born : t < s.next_tid

section Step

variable (hs : Step s s' t a b)
include hs

/-- The scheduler knows where `t` is, and the lists follow. -/
theorem Shape.step (h : s.Shape) (hinv : s'.sched.Inv (some s'.sched.cur))
    (hidle : s'.sched.idle_started = s.sched.idle_started)
    (hothers : ∀ u, u ≠ t → s'.sched.code u = s.sched.code u ∧
      s'.sched.creating u = s.sched.creating u)
    (hcode : s'.sched.code t ≠ none ∨ b = .pexit_switch)
    (hexec : ∀ c, b = .exec_downing c ↔ s'.sched.code t = some (.sema_down (.sema_proc_exec c)))
    (hwait : ∀ c, b = .wait_downing c ↔ s'.sched.code t = some (.sema_down (.sema_proc_wait c)))
    (hcreating : ∀ c, s'.sched.creating t = some c ↔ ∃ x, b = .created c x)
    (hlists : s'.child_processes = s.child_processes ∧ (s.parent t = none ∨ b.listed = a.listed) ∨
      ∃ p, (s.parent t = some p ∧ a.listed ∧ b.listed = false) ∧ ∀ q, s'.child_processes q =
        if q = p then (s.child_processes p).erase t else s.child_processes q) : s'.Shape where
  sched := hinv
  idle_started := hidle.trans h.idle_started
  next := hs.next ▸ h.next
  born := by
    intro u
    have := h.born u
    have := hothers u
    grind [Step]
  unborn := by
    intro c
    have := h.unborn c
    grind [Step]
  alive := by
    intro c
    have := h.alive c
    have := hothers c
    grind [Step]
  listed := by
    intro p c
    have := h.listed p c
    have := h.nodup p
    grind [Step]
  nodup := by
    intro q
    have := h.nodup q
    grind [List.Nodup.erase]
  exec_code := by
    intro u c
    have := h.exec_code u c
    have := hothers u
    grind [Step]
  wait_code := by
    intro u c
    have := h.wait_code u c
    have := hothers u
    grind [Step]
  creating := by
    intro u c
    have := h.creating u c
    have := hothers u
    grind [Step]

/-- The scheduler sees nothing. -/
theorem Shape.plain (h : s.Shape) (hinv : s'.sched.Inv (some s'.sched.cur))
    (hsame : Sched.Same s.sched s'.sched) (hrun : s.sched.code t = some .run) (hfrom : a.quiet)
    (hto : b.quiet ∨ b = .pexit_switch)
    (hlists : s'.child_processes = s.child_processes ∧ (s.parent t = none ∨ b.listed = a.listed) ∨
      ∃ p, (s.parent t = some p ∧ a.listed ∧ b.listed = false) ∧ ∀ q, s'.child_processes q =
        if q = p then (s.child_processes p).erase t else s.child_processes q) : s'.Shape := by
  have hcr := h.not_creating (t := t) (by grind [Step, Pc.quiet])
  have hcode : s'.sched.code t = some .run := hsame.code ▸ hrun
  have hcreating : s'.sched.creating t = none := hsame.creating ▸ hcr
  refine h.step hs hinv hsame.idle_started (by simp [hsame.code, hsame.creating]) (.inl ?_)
    (fun c => ?_) (fun c => ?_) (fun c => ?_) hlists
  all_goals grind [Pc.quiet]

theorem Records.step (h : s.Records)
    (hothers : ∀ c, c ≠ t → s'.ended c = s.ended c ∧ s'.loaded c = s.loaded c ∧
      (s'.record c).cur_status = (s.record c).cur_status ∧
      (s'.record c).exit_status = (s.record c).exit_status ∧
      (s'.record c).is_loaded = (s.record c).is_loaded)
    (hown : ∀ p, s.parent t = some p → s.OwnAt t a → s'.OwnAt t b)
    (hloaded : s.parent t ≠ none → b.started → s'.loaded t = some (s'.record t).is_loaded ∨
      a.started ∧ s'.loaded t = s.loaded t ∧ (s'.record t).is_loaded = (s.record t).is_loaded) :
    s'.Records where
  unborn := by
    intro c
    have := h.unborn c
    have := hothers c
    grind [Step]
  own := by
    intro c p hp
    rw [hs.pc]
    rw [hs.parent] at hp
    split
    · rename_i e
      subst e
      exact hown p hp (hs.here ▸ h.own c p hp)
    · rename_i hne
      obtain ⟨he, hl, hc, hx, hi⟩ := hothers c hne
      rw [he, hl]
      exact (h.own c p hp).congr hc hx hi
  loaded := by
    intro c
    have := h.loaded c
    have := hothers c
    grind [Step]

/-- The records do not change inside of `exec` and `process_wait`. -/
theorem Records.active (h : s.Records) (hsame : s'.record = s.record ∧ s'.ended = s.ended ∧
      s'.loaded = s.loaded) (hfrom : a.active) (hto : b.active) : s'.Records := by
  obtain ⟨hrecord, hended, hloaded⟩ := hsame
  refine h.step hs (fun c _ => ?_) (fun p hp ho => ?_) fun _ _ => .inr ?_
  · simp [hrecord, hended, hloaded]
  · rw [OwnAt, hrecord, hended, own_of_active hto]
    exact (own_of_active hfrom).mp ho
  · simp [hrecord, hloaded, Pc.started_of_active hfrom]

theorem ExecSema.step (h : s.ExecSema)
    (hsema : ∀ c, s'.sched.sema (.sema_proc_exec c) = s.sched.sema (.sema_proc_exec c))
    (hstarted : b.started = a.started) (hto : ∀ c, b ≠ .exec_is_loaded c)
    (hexec : ∀ c, b.execing = some c → a.execing = some c) : s'.ExecSema where
  unborn := by simpa [hsema, hs.next] using h.unborn
  execing := by
    intro p c
    have := h.execing p c
    grind [Step]
  done := by
    intro p c
    have := h.done p c
    grind [Step]
  blocked := by
    intro p c
    have := h.blocked p c
    grind [Step]

theorem WaitSema.step (h : s.WaitSema)
    (hsema : ∀ c, s'.sched.sema (.sema_proc_wait c) = s.sched.sema (.sema_proc_wait c))
    (hfrom : a ≠ .pexit_switch) (hto : b ≠ .pexit_switch)
    (hmono : ∀ c, (s.record c).cur_status ≠ .alive → (s'.record c).cur_status ≠ .alive)
    (hflag : ∀ c, (s'.record c).is_awaited = (s.record c).is_awaited ∨ b.awaiting = some c)
    (hwait : ∀ c, b.waiting = some c → s.parent c = some t)
    (hset : ∀ c, b = .wait_set_awaited c → (s'.record c).is_awaited = false)
    (hawait : ∀ c, b.awaiting = some c → (s'.record c).is_awaited ∧
      (a.awaiting = some c ∨ (s.record c).is_awaited = false))
    (hdone : ∀ c, b = .wait_exit_status c → (s'.record c).cur_status ≠ .alive) : s'.WaitSema where
  unborn := by simpa [hsema, hs.next] using h.unborn
  waiting := by
    intro p c
    have := h.waiting p c
    grind [Step]
  set_awaited := by
    intro p c
    have := h.set_awaited p c
    have := h.waiting p c
    have : b.awaiting = some c → b.waiting = some c := Pc.waiting_of_awaiting
    grind [Step, Pc.waiting]
  awaiting := by
    intro p c
    have := h.awaiting p c
    grind [Step]
  value := by
    intro c hp
    have := h.value c
    grind [Step]
  done := by
    intro p c
    have := h.done p c
    grind [Step]
  blocked := by
    intro p c
    have := h.blocked p c
    grind [Step]

/-- The thread goes on outside of `process_wait`. -/
theorem WaitSema.outside (h : s.WaitSema)
    (hsema : ∀ c, s'.sched.sema (.sema_proc_wait c) = s.sched.sema (.sema_proc_wait c))
    (hrecord : ∀ c, (s'.record c).is_awaited = (s.record c).is_awaited ∧
      ((s.record c).cur_status ≠ .alive → (s'.record c).cur_status ≠ .alive))
    (hfrom : a ≠ .pexit_switch) (hto : b ≠ .pexit_switch) (hb : b.waiting = none) :
    s'.WaitSema := by
  refine h.step hs hsema hfrom hto (fun c => (hrecord c).2) (fun c => .inl (hrecord c).1)
    (by simp [hb]) ?_ (fun c hc => ?_) ?_
  · rintro c rfl
    cases hb
  · cases hb.symm.trans (Pc.waiting_of_awaiting hc)
  · rintro c rfl
    cases hb

/-- A statement that touches no record but its own, outside of `exec` and `process_wait`. -/
theorem Base.own_step (h : s.Base)
    (hsame : s'.sched = s.sched ∧ s'.child_processes = s.child_processes)
    (hothers : ∀ c, c ≠ t → s'.record c = s.record c ∧ s'.ended c = s.ended c ∧
      s'.loaded c = s.loaded c)
    (hself : (s'.record t).is_awaited = (s.record t).is_awaited ∧
      ((s.record t).cur_status ≠ .alive → (s'.record t).cur_status ≠ .alive))
    (hrun : s.sched.code t = some .run) (hfrom : a.quiet) (hto : b.apart)
    (hlisted : s.parent t = none ∨ b.listed = a.listed) (hstarted : b.started = a.started)
    (hown : ∀ p, s.parent t = some p → s.OwnAt t a → s'.OwnAt t b)
    (hloaded : b.started → s'.loaded t = s.loaded t ∧
      (s'.record t).is_loaded = (s.record t).is_loaded) : s'.Base := by
  obtain ⟨hsched, hchildren⟩ := hsame
  obtain ⟨hquiet, hexec, hwait, hdone⟩ := Pc.apart_spec hto
  refine ⟨h.shape.plain hs (hsched ▸ h.shape.sched) (hsched ▸ .refl _) hrun hfrom (.inl hquiet)
      (.inl ⟨hchildren, hlisted⟩),
    h.records.step hs (fun c hc => ?_) hown fun _ hb => .inr ⟨hstarted ▸ hb, hloaded hb⟩,
    h.exec.step hs (by simp [hsched]) hstarted hdone (by simp [hexec]),
    h.wait.outside hs (by simp [hsched]) (fun c => ?_) ?_ ?_ hwait⟩
  · rw [(hothers c hc).1]
    exact ⟨(hothers c hc).2.1, (hothers c hc).2.2, rfl, rfl, rfl⟩
  · have := hothers c
    grind
  · rintro rfl
    cases hfrom
  · rintro rfl
    cases hto

end Step

theorem pc_goto (u : Tid) : (s.goto t b).pc u = if u = t then b else s.pc u :=
  update_apply ..

/-- The running thread goes on at `b`, after a move of the scheduler. -/
theorem Shape.goes (h : s.Shape) (sc : Sched KSema) (b : Pc) (hcode : s.sched.code t ≠ none)
    (hpc : s.pc t = a) : Step s ({ s with sched := sc }.goto t b) t a b :=
  ⟨hpc, pc_goto, rfl, rfl, h.born t hcode⟩

theorem record_setRecord (f : ChildProcess → ChildProcess) (u : Tid) :
    (s.setRecord t f).record u = if u = t then f (s.record t) else s.record u :=
  update_apply ..

section

variable (h : s.Base) (hrun : s.sched.code t = some .run)
include h hrun

/-- `t` goes on at `b`, and nothing else changes. -/
theorem Base.goto (hpc : s.pc t = a) (hfrom : a.quiet) (hto : b.apart)
    (hlisted : s.parent t = none ∨ b.listed = a.listed) (hstarted : b.started = a.started)
    (hown : ∀ p, s.parent t = some p → s.OwnAt t a → s.OwnAt t b) : (s.goto t b).Base :=
  h.own_step ⟨hpc, pc_goto, rfl, rfl, h.shape.born_of_run hrun⟩ ⟨rfl, rfl⟩
    (fun _ _ => ⟨rfl, rfl, rfl⟩) ⟨rfl, id⟩ hrun hfrom hto hlisted hstarted hown fun _ => ⟨rfl, rfl⟩

/-- `t` writes to its own record and goes on at `b`. -/
theorem Base.write_own (hf : ∀ r, (f r).is_awaited = r.is_awaited ∧
      (r.cur_status ≠ .alive → (f r).cur_status ≠ .alive)) (hpc : s.pc t = a) (hfrom : a.quiet)
    (hto : b.apart) (hlisted : b.listed = a.listed) (hstarted : b.started = a.started)
    (hown : ∀ p, s.parent t = some p → s.OwnAt t a →
      Own b (f (s.record t)) (s.ended t) (s.loaded t))
    (hloaded : b.started → (f (s.record t)).is_loaded = (s.record t).is_loaded) :
    ((s.setRecord t f).goto t b).Base := by
  have hr : ((s.setRecord t f).goto t b).record t = f (s.record t) :=
    (record_setRecord f t).trans (if_pos rfl)
  refine h.own_step ⟨hpc, pc_goto, rfl, rfl, h.shape.born_of_run hrun⟩ ⟨rfl, rfl⟩
    (fun c hc => ⟨?_, rfl, rfl⟩) (hr ▸ hf _) hrun hfrom hto (.inr hlisted) hstarted
    (fun p hp ho => ?_) fun hb => ⟨rfl, hr ▸ hloaded hb⟩
  · exact (record_setRecord f c).trans (if_neg hc)
  · rw [OwnAt, hr]
    exact hown p hp ho

/-- `t` comes to an end, with `st`. -/
theorem Base.end_with {st : Int} (hpc : s.pc t = .user)
    (hb : b = .exit_get_child st ∨ b = .pexit_get_child ∧ st = -1) :
    ({ s with ended := update s.ended t (some st) }.goto t b).Base := by
  have hself : (update s.ended t (some st)) t = some st := update_self ..
  have hto : b.apart ∧ b.listed ∧ b.started := by
    obtain rfl | ⟨rfl, -⟩ := hb <;> exact ⟨rfl, rfl, rfl⟩
  refine h.own_step ⟨hpc, pc_goto, rfl, rfl, h.shape.born_of_run hrun⟩ ⟨rfl, rfl⟩
    (fun c hc => ⟨rfl, update_of_ne hc .., rfl⟩) ⟨rfl, id⟩ hrun rfl hto.1 (.inr hto.2.1) hto.2.2
    (fun p hp ho => ?_) fun _ => ⟨rfl, rfl⟩
  show Own b (s.record t) (update s.ended t (some st) t) (s.loaded t)
  rw [hself]
  obtain rfl | ⟨rfl, rfl⟩ := hb
  · exact ⟨ho.1, rfl⟩
  · exact (if_pos ho.1).symm

/-- `load` returns. -/
theorem Base.load {success : Bool} (hpc : s.pc t = .load) :
    ({ s with loaded := update s.loaded t (some success) }.goto t
      (.start_get_child success)).Base :=
  h.own_step ⟨hpc, pc_goto, rfl, rfl, h.shape.born_of_run hrun⟩ ⟨rfl, rfl⟩
    (fun _ hc => ⟨rfl, rfl, update_of_ne hc ..⟩) ⟨rfl, id⟩ hrun rfl rfl (.inr rfl) rfl
    (fun _ _ ho => ⟨ho.1, ho.2, update_self ..⟩) fun hb => absurd hb Bool.false_ne_true

/-- `exec` or `process_wait` returns. -/
theorem Base.return_to {e : Returned} (hpc : s.pc t = a) (hfrom : a.quiet) (ha : a.active) :
    (s.return_to t e).Base :=
  h.own_step ⟨hpc, pc_goto, rfl, rfl, h.shape.born_of_run hrun⟩ ⟨rfl, rfl⟩
    (fun _ _ => ⟨rfl, rfl, rfl⟩) ⟨rfl, id⟩ hrun hfrom rfl (.inr (Pc.listed_of_active ha).symm)
    (Pc.started_of_active ha).symm (fun _ _ ho => (own_of_active ha).mp ho) fun _ => ⟨rfl, rfl⟩

/-- A statement of `process_wait` that writes at most `is_awaited`. -/
theorem Base.wait_step
    (hf : ∀ r, f r = r ∨ f r = { r with is_awaited := true } ∧ b = .wait_cur_status c)
    (hpc : s.pc t = a) (hfrom : a.quiet) (ha : a.active) (hto : b.quiet) (hb : b.waiting = some c)
    (hparent : s.parent c = some t)
    (hset : b = .wait_set_awaited c → (s.record c).is_awaited = false)
    (hawait : b.awaiting = some c → (f (s.record c)).is_awaited ∧
      (a.awaiting = some c ∨ (s.record c).is_awaited = false))
    (hdone : b = .wait_exit_status c → (s.record c).cur_status ≠ .alive) :
    ((s.setRecord c f).goto t b).Base := by
  have hbexec : b.execing = none ∧ ∀ c, b ≠ .exec_is_loaded c := by
    cases b <;> first | (cases hb; done) | exact ⟨rfl, nofun⟩
  have hba := Pc.active_of_waiting hb
  have hfc := hf (s.record c)
  have hrec : ∀ u, ((s.setRecord c f).goto t b).record u =
      if u = c then f (s.record c) else s.record u := record_setRecord f
  have hs : Step s ((s.setRecord c f).goto t b) t a b :=
    ⟨hpc, pc_goto, rfl, rfl, h.shape.born_of_run hrun⟩
  refine ⟨h.shape.plain hs h.shape.sched (.refl _) hrun hfrom (.inl hto) (.inl ⟨rfl, .inr ?_⟩),
    h.records.step hs (fun u _ => ⟨rfl, rfl, ?_⟩) (fun p hp ho => ?_) (fun _ _ => .inr ?_),
    h.exec.step hs (fun _ => rfl) ?_ hbexec.2 (by simp [hbexec.1]),
    h.wait.step hs (fun _ => rfl) ?_ ?_ (fun u => ?_) (fun u => ?_) (fun u hu => ?_)
      (fun u hu => ?_) (fun u hu => ?_) (fun u hu => ?_)⟩
  · rw [Pc.listed_of_active ha, Pc.listed_of_active hba]
  · grind
  · refine (own_of_active hba).mpr ?_
    have := (own_of_active ha).mp ho
    have := hrec t
    grind [System.goto, System.setRecord]
  · have := hrec t
    exact ⟨Pc.started_of_active ha, rfl, by grind⟩
  · rw [Pc.started_of_active ha, Pc.started_of_active hba]
  · grind [Pc.quiet]
  · grind [Pc.quiet]
  · have := hrec u
    grind
  · have := hrec u
    grind [Pc.awaiting]
  · grind
  · have hu' := hu ▸ hb
    have := hrec u
    grind [Pc.waiting]
  · have := Pc.waiting_of_awaiting hu
    have := hrec u
    grind
  · have hu' := hu ▸ hb
    have := hrec u
    grind [Pc.waiting]

/-- A statement of `process_wait` that only reads. -/
theorem Base.wait_goto (hpc : s.pc t = a) (hfrom : a.quiet) (ha : a.active) (hto : b.quiet)
    (hb : b.waiting = some c) (hparent : s.parent c = some t)
    (hset : b = .wait_set_awaited c → (s.record c).is_awaited = false)
    (hawait : b.awaiting = some c → (s.record c).is_awaited ∧
      (a.awaiting = some c ∨ (s.record c).is_awaited = false))
    (hdone : b = .wait_exit_status c → (s.record c).cur_status ≠ .alive) : (s.goto t b).Base := by
  have hc : s.setRecord c id = s := by simp [setRecord]
  have := h.wait_step (f := id) hrun (fun _ => .inl rfl) hpc hfrom ha hto hb hparent hset hawait
    hdone
  rwa [hc] at this

theorem Base.list_remove (hpc : s.pc t = .pexit_remove) (hp : s.parent t = some p) :
    ((s.list_remove t p).goto t .pexit_test).Base := by
  have hs : Step s ((s.list_remove t p).goto t .pexit_test) t .pexit_remove .pexit_test :=
    ⟨hpc, pc_goto, rfl, rfl, h.shape.born_of_run hrun⟩
  exact ⟨h.shape.plain hs h.shape.sched (.refl _) hrun rfl (.inl rfl)
      (.inr ⟨p, ⟨hp, rfl, rfl⟩, fun _ => update_apply ..⟩),
    h.records.step hs (fun _ _ => ⟨rfl, rfl, rfl, rfl, rfl⟩) (fun _ _ => id)
      fun _ _ => .inr ⟨rfl, rfl, rfl⟩,
    h.exec.step hs (fun _ => rfl) rfl nofun nofun,
    h.wait.outside hs (fun _ => rfl) (fun _ => ⟨rfl, id⟩) nofun nofun rfl⟩

/-- `get_child` finds the child in `exec`. -/
theorem Base.exec_found (hpc : s.pc t = .exec_get_child c) : (s.goto t (.exec_down c)).Base := by
  have hs : Step s (s.goto t (.exec_down c)) t (.exec_get_child c) (.exec_down c) :=
    ⟨hpc, pc_goto, rfl, rfl, h.shape.born_of_run hrun⟩
  exact ⟨h.shape.plain hs h.shape.sched (.refl _) hrun rfl (.inl rfl) (.inl ⟨rfl, .inr rfl⟩),
    h.records.active hs ⟨rfl, rfl, rfl⟩ rfl rfl, h.exec.step hs (fun _ => rfl) rfl nofun fun _ => id,
    h.wait.outside hs (fun _ => rfl) (fun _ => ⟨rfl, id⟩) nofun nofun rfl⟩

end

/-! ### Moves of the scheduler alone -/

/-- A move of the scheduler that fits does not fail an assertion. -/
theorem Shape.schedule {m : Move KSema} (h : s.Shape) (hm : s.sched.Enabled m) :
    ∃ sc, s.sched.perform m = some sc ∧ sc.Inv (some sc.cur) ∧
      ∀ k, s.schedule m k = k { s with sched := sc } := by
  obtain ⟨sc, hsc, hinv⟩ := h.sched.perform hm
  refine ⟨sc, hsc, hinv, fun k => ?_⟩
  simp only [System.schedule, hsc]

/-- A move that no thread in `exec` or `process_wait` can see, except that the running thread may
join the waiters of the semaphore that it is at. -/
theorem Base.sched_step (h : s.Base) (hinv : sc.Inv (some sc.cur))
    (hidle : sc.idle_started = s.sched.idle_started)
    (hnone : ∀ u, (s.sched.code u = none → sc.code u = none) ∧
      (sc.code u = none → s.sched.code u = none ∨ s.pc u = .pexit_switch))
    (hexec : ∀ u c, sc.code u = some (.sema_down (.sema_proc_exec c)) ↔
      s.sched.code u = some (.sema_down (.sema_proc_exec c)))
    (hwait : ∀ u c, sc.code u = some (.sema_down (.sema_proc_wait c)) ↔
      s.sched.code u = some (.sema_down (.sema_proc_wait c)))
    (hcreating : sc.creating = s.sched.creating)
    (hsema : ∀ x, (∀ n, x ≠ .other n) → (sc.sema x).value = (s.sched.sema x).value ∧
      ∀ u ∈ (sc.sema x).waiters, u ∈ (s.sched.sema x).waiters ∨
        s.sched.code u = some (.sema_down x) ∧ (s.sched.sema x).value = 0) :
    ({ s with sched := sc } : System).Base := by
  have hex := fun c => hsema (.sema_proc_exec c) nofun
  have hwa := fun c => hsema (.sema_proc_wait c) nofun
  refine ⟨?_, { h.records with }, ?_, ?_⟩
  · have hs := h.shape
    refine ⟨hinv, hidle.trans hs.idle_started, hs.next, ?_, hs.unborn, ?_, hs.listed, hs.nodup, ?_,
      ?_, ?_⟩
    · intro u hu
      exact hs.born u fun hn => hu ((hnone u).1 hn)
    · intro c hp hc hn
      exact ((hnone c).2 hn).elim (hs.alive c hp hc) hc
    · intro u c
      exact (hs.exec_code u c).trans (hexec u c).symm
    · intro u c
      exact (hs.wait_code u c).trans (hwait u c).symm
    · intro u c
      rw [show ({ s with sched := sc } : System).sched.creating = _ from hcreating]
      exact hs.creating u c
  · refine ⟨fun c hc => ?_, fun p c hp => ?_, h.exec.done, fun u c hu => ?_⟩
    · exact (hex c).1.trans (h.exec.unborn c hc)
    · obtain ⟨hpar, hne, hv⟩ := h.exec.execing p c hp
      exact ⟨hpar, hne, (hex c).1.trans hv⟩
    · obtain hu | ⟨hcode, hv⟩ := (hex c).2 u hu
      · exact h.exec.blocked u c hu
      · have hpc := (h.shape.exec_code u c).mpr hcode
        have := (h.exec.execing u c (by rw [hpc]; rfl)).2.2
        show (s.pc c).started = false
        grind
  · refine ⟨fun c hc => ?_, h.wait.waiting, h.wait.set_awaited, h.wait.awaiting, fun c hp ha => ?_,
      h.wait.done, fun u c hu => ?_⟩
    · exact (hwa c).1.trans (h.wait.unborn c hc)
    · exact (hwa c).1.trans (h.wait.value c hp ha)
    · obtain hu | ⟨hcode, hv⟩ := (hwa c).2 u hu
      · exact h.wait.blocked u c hu
      · have hpc := (h.shape.wait_code u c).mpr hcode
        have hpar := h.wait.waiting u c (by rw [hpc]; rfl)
        have := h.wait.value c (by rw [hpar]; nofun) (.inr ⟨u, by rw [hpc]; rfl⟩)
        show s.pc c ≠ .pexit_switch
        grind

/-- A move that changes nothing that other code can see. -/
theorem Base.same (h : s.Base) (hinv : sc.Inv (some sc.cur)) (hsame : Sched.Same s.sched sc)
    (hsema : ∀ x, (∀ n, x ≠ .other n) → (sc.sema x).value = (s.sched.sema x).value ∧
      ∀ u ∈ (sc.sema x).waiters, u ∈ (s.sched.sema x).waiters ∨
        s.sched.code u = some (.sema_down x) ∧ (s.sched.sema x).value = 0) :
    ({ s with sched := sc } : System).Base :=
  h.sched_step hinv hsame.idle_started (by simp +contextual [hsame.code]) (by simp [hsame.code])
    (by simp [hsame.code]) hsame.creating hsema

/-- The running thread goes on elsewhere, outside of `exec` and `process_wait`. -/
theorem Base.recode {c d : Code KSema} (h : s.Base) (hinv : sc.Inv (some sc.cur))
    (hidle : sc.idle_started = s.sched.idle_started) (hd : s.sched.code s.sched.cur = some d)
    (hcode : sc.code = update s.sched.code s.sched.cur (some c))
    (hx : ∀ x, c = .sema_down x ∨ d = .sema_down x → ∃ n, x = .other n)
    (hcreating : sc.creating = s.sched.creating)
    (hsema : ∀ x, (∀ n, x ≠ .other n) → sc.sema x = s.sched.sema x) :
    ({ s with sched := sc } : System).Base := by
  refine h.sched_step hinv hidle (fun u => ?_) (fun u e => ?_) (fun u e => ?_) hcreating
    fun x hx => ?_
  · rw [hcode, update_apply]
    grind
  · have := hx (.sema_proc_exec e)
    rw [hcode, update_apply]
    grind
  · have := hx (.sema_proc_wait e)
    rw [hcode, update_apply]
    grind
  · rw [hsema x hx]
    exact ⟨rfl, fun _ hu => .inl hu⟩

/-! ### `sema_down` -/

/-- The running thread enters or leaves `sema_down`. -/
theorem Base.repoint {d : Code KSema} (h : s.Base) (hs : Step s s' t a b)
    (hinv : s'.sched.Inv (some s'.sched.cur))
    (hidle : s'.sched.idle_started = s.sched.idle_started)
    (hcode : s'.sched.code = update s.sched.code t (some d))
    (hcreating : s'.sched.creating = s.sched.creating)
    (hsame : s'.child_processes = s.child_processes ∧ s'.record = s.record ∧ s'.ended = s.ended ∧
      s'.loaded = s.loaded)
    (hfrom : a.active ∧ ∀ c x, a ≠ .created c x) (hto : b.active ∧ ∀ c x, b ≠ .created c x)
    (hexec : ∀ c, b = .exec_downing c ↔ d = .sema_down (.sema_proc_exec c))
    (hwait : ∀ c, b = .wait_downing c ↔ d = .sema_down (.sema_proc_wait c)) :
    s'.Shape ∧ s'.Records := by
  have hd : s'.sched.code t = some d := by rw [hcode, update_self]
  have hcr := h.shape.not_creating (t := t) (hs.here ▸ hfrom.2)
  refine ⟨h.shape.step hs hinv hidle (fun u hu => ?_) (.inl (by simp [hd])) (by simpa [hd] using hexec)
    (by simpa [hd] using hwait) (fun c => ?_) (.inl ⟨hsame.1, .inr ?_⟩),
    h.records.active hs hsame.2 hfrom.1 hto.1⟩
  · rw [hcode, hcreating, update_of_ne hu]
    exact ⟨rfl, rfl⟩
  · rw [hcreating, hcr]
    exact ⟨nofun, fun ⟨x, hx⟩ => absurd hx (hto.2 c x)⟩
  · rw [Pc.listed_of_active hfrom.1, Pc.listed_of_active hto.1]

/-- `exec` calls `sema_down`. -/
theorem Base.enter_exec (h : s.Base) (hrun : s.sched.code s.sched.cur = some .run)
    (hpc : s.pc s.sched.cur = .exec_down c) (hinv : sc.Inv (some sc.cur))
    (hsc : sc = s.sched.setCode s.sched.cur (.sema_down (.sema_proc_exec c))) :
    ({ s with sched := sc }.goto s.sched.cur (.exec_downing c) : System).Base := by
  have hcur : s.sched.code s.sched.cur ≠ none := by rw [hrun]; nofun
  have hs := h.shape.goes sc (.exec_downing c) hcur hpc
  subst hsc
  obtain ⟨hcode, hcreating⟩ := Sched.setCode_frame (c := .sema_down (.sema_proc_exec c)) hcur
  obtain ⟨hshape, hrecords⟩ := h.repoint hs hinv rfl hcode hcreating ⟨rfl, rfl, rfl, rfl⟩
    ⟨rfl, nofun⟩ ⟨rfl, nofun⟩ (by simp) (by simp)
  exact ⟨hshape, hrecords, h.exec.step hs (fun _ => rfl) rfl nofun fun _ => id,
    h.wait.outside hs (fun _ => rfl) (fun _ => ⟨rfl, id⟩) nofun nofun rfl⟩

/-- `process_wait` calls `sema_down`. -/
theorem Base.enter_wait (h : s.Base) (hrun : s.sched.code s.sched.cur = some .run)
    (hpc : s.pc s.sched.cur = .wait_down c) (hinv : sc.Inv (some sc.cur))
    (hsc : sc = s.sched.setCode s.sched.cur (.sema_down (.sema_proc_wait c))) :
    ({ s with sched := sc }.goto s.sched.cur (.wait_downing c) : System).Base := by
  have hcur : s.sched.code s.sched.cur ≠ none := by rw [hrun]; nofun
  have hs := h.shape.goes sc (.wait_downing c) hcur hpc
  subst hsc
  obtain ⟨hcode, hcreating⟩ := Sched.setCode_frame (c := .sema_down (.sema_proc_wait c)) hcur
  have hwaiting := h.wait.waiting s.sched.cur c (by rw [hpc]; rfl)
  have hawaited := h.wait.awaiting s.sched.cur c (by rw [hpc]; rfl)
  obtain ⟨hshape, hrecords⟩ := h.repoint hs hinv rfl hcode hcreating ⟨rfl, rfl, rfl, rfl⟩
    ⟨rfl, nofun⟩ ⟨rfl, nofun⟩ (by simp) (by simp)
  refine ⟨hshape, hrecords, h.exec.step hs (fun _ => rfl) rfl nofun nofun,
    h.wait.step hs (fun _ => rfl) nofun nofun (fun _ => id) (fun _ => .inl rfl) (fun e he => ?_) nofun
      (fun e he => ?_) nofun⟩
  · cases he
    exact hwaiting
  · cases he
    exact ⟨hawaited, .inl rfl⟩

/-- `sema_down` returns to `exec`. -/
theorem Base.leave_exec (h : s.Base) (hinv : sc.Inv (some sc.cur))
    (hpc : s.pc s.sched.cur = .exec_downing c)
    (hturn : s.sched.sema_down_turn (.sema_proc_exec c) = some sc)
    (hv : (s.sched.sema (.sema_proc_exec c)).value ≠ 0) :
    ({ s with sched := sc }.goto s.sched.cur (.exec_is_loaded c) : System).Base := by
  have hcur := (h.shape.exec_code _ c).mp hpc
  obtain ⟨hcode, hcreating, hidle, -, hsema⟩ :=
    Sched.sema_down_turn_pos hturn hv (by rw [hcur]; nofun)
  obtain ⟨hpar, hne, hval⟩ := h.exec.execing s.sched.cur c (by rw [hpc]; rfl)
  have hstarted : (s.pc c).started := by grind
  have hs := h.shape.goes sc (.exec_is_loaded c) (by rw [hcur]; nofun) hpc
  obtain ⟨hshape, hrecords⟩ := h.repoint hs hinv hidle hcode hcreating ⟨rfl, rfl, rfl, rfl⟩
    ⟨rfl, nofun⟩ ⟨rfl, nofun⟩ (by simp) (by simp)
  refine ⟨hshape, hrecords, ?_,
    h.wait.outside hs (fun e => ?_) (fun _ => ⟨rfl, id⟩) nofun nofun rfl⟩
  · refine ⟨fun e he => ?_, fun p e hp => ?_, fun p e hp => ?_, fun u e hu => ?_⟩
    · show (sc.sema (.sema_proc_exec e)).value = 0
      have := h.exec.unborn e he
      rw [hsema, update_apply]
      grind
    · show s.parent e = some p ∧ e ≠ 2 ∧ (sc.sema (.sema_proc_exec e)).value = _
      have := h.exec.execing p e
      rw [hsema, update_apply]
      rw [pc_goto] at hp ⊢
      grind [Pc.execing, Pc.started]
    · show s.parent e = some p ∧ e ≠ 2 ∧ _
      have := h.exec.done p e
      rw [pc_goto] at hp ⊢
      grind [Pc.started]
    · have hu : u ∈ (sc.sema (.sema_proc_exec e)).waiters := hu
      have := h.exec.blocked u e
      rw [hsema, update_apply] at hu
      rw [pc_goto]
      grind [Pc.started]
  · show sc.sema _ = _
    simp [hsema]

/-- `sema_down` returns to `process_wait`. -/
theorem Base.leave_wait (h : s.Base) (hinv : sc.Inv (some sc.cur))
    (hpc : s.pc s.sched.cur = .wait_downing c)
    (hturn : s.sched.sema_down_turn (.sema_proc_wait c) = some sc)
    (hv : (s.sched.sema (.sema_proc_wait c)).value ≠ 0) :
    ({ s with sched := sc }.goto s.sched.cur (.wait_exit_status c) : System).Base := by
  have hcur := (h.shape.wait_code _ c).mp hpc
  obtain ⟨hcode, hcreating, hidle, -, hsema⟩ :=
    Sched.sema_down_turn_pos hturn hv (by rw [hcur]; nofun)
  have hpar := h.wait.waiting s.sched.cur c (by rw [hpc]; rfl)
  have hawaited := h.wait.awaiting s.sched.cur c (by rw [hpc]; rfl)
  have hval := h.wait.value c (by rw [hpar]; nofun) (.inr ⟨s.sched.cur, by rw [hpc]; rfl⟩)
  have hswitch : s.pc c = .pexit_switch := by grind
  have hstatus : (s.record c).cur_status ≠ .alive := by
    have := h.records.own c _ hpar
    rw [hswitch] at this
    exact this.1
  have hs := h.shape.goes sc (.wait_exit_status c) (by rw [hcur]; nofun) hpc
  obtain ⟨hshape, hrecords⟩ := h.repoint hs hinv hidle hcode hcreating ⟨rfl, rfl, rfl, rfl⟩
    ⟨rfl, nofun⟩ ⟨rfl, nofun⟩ (by simp) (by simp)
  refine ⟨hshape, hrecords, h.exec.step hs (fun e => ?_) rfl nofun nofun, ?_⟩
  · show sc.sema _ = _
    simp [hsema]
  · refine ⟨fun e he => ?_, fun p e hp => ?_, fun p e hp => ?_, fun p e hp => ?_, fun e he ha => ?_,
      fun p e hp => ?_, fun u e hu => ?_⟩
    · show (sc.sema (.sema_proc_wait e)).value = 0
      have := h.wait.unborn e he
      rw [hsema, update_apply]
      grind
    · show s.parent e = some p
      have := h.wait.waiting p e
      rw [pc_goto] at hp
      grind [Pc.waiting]
    · show (s.record e).is_awaited = false
      have := h.wait.set_awaited p e
      rw [pc_goto] at hp
      grind
    · show (s.record e).is_awaited = true
      have := h.wait.awaiting p e
      rw [pc_goto] at hp
      grind [Pc.awaiting]
    · show (sc.sema (.sema_proc_wait e)).value = _
      have ha : (s.record e).is_awaited = false ∨
          ∃ p, (if p = s.sched.cur then Pc.wait_exit_status c else s.pc p).awaiting = some e := by
        refine ha.imp id fun ⟨p, hp⟩ => ⟨p, ?_⟩
        rwa [pc_goto] at hp
      have := h.wait.value e he
      have hother : ∀ p, (s.pc p).awaiting = some c → p = s.sched.cur := by
        intro p hp
        have := h.wait.waiting p c (Pc.waiting_of_awaiting hp)
        grind
      rw [hsema, update_apply, pc_goto]
      grind [Pc.awaiting]
    · show (s.record e).cur_status ≠ .alive
      have := h.wait.done p e
      rw [pc_goto] at hp
      grind
    · have hu : u ∈ (sc.sema (.sema_proc_wait e)).waiters := hu
      have := h.wait.blocked u e
      rw [hsema, update_apply] at hu
      rw [pc_goto]
      grind

/-! ### `sema_up` -/

/-- No two threads wait for one semaphore of a thread. -/
theorem waiters_tail (h : s.sched.Inv (some s.sched.cur))
    (hp : ∀ u, s.sched.code u = some (.sema_down x) → u = p) :
    (s.sched.sema x).waiters.tail = [] := by
  have hall : ∀ u ∈ (s.sched.sema x).waiters, u = p :=
    fun u hu => hp u ((h.waiters x u).mp hu).2
  have hnodup := h.waiters_nodup x
  cases hw : (s.sched.sema x).waiters with
  | nil => rfl
  | cons a rest =>
    cases rest with
    | nil => rfl
    | cons c rest =>
      rw [hw] at hall hnodup
      have ha := hall a (by simp)
      have hc := hall c (by simp)
      subst ha
      simp [hc] at hnodup

/-- `sema_up` in `start_process`. -/
theorem ExecSema.up (h : s.ExecSema) (hshape : s.Shape) (hs : Step s s' t a b)
    (hup : s.sched.sema_up (.sema_proc_exec t) = some s'.sched)
    (hfrom : a.started = false) (hto : b.started) (hb : b.apart) : s'.ExecSema := by
  obtain ⟨-, hexec, -, hdone⟩ := Pc.apart_spec hb
  obtain ⟨-, hsema⟩ := Sched.sema_up_frame hup
  have htail := waiters_tail (s := s) (x := .sema_proc_exec t) (p := (s.parent t).getD 0)
    hshape.sched fun u hu => by
      have hu' := (hshape.exec_code u t).mpr hu
      rw [(h.execing u t (by rw [hu']; rfl)).1]
      rfl
  have hvalue : ∀ c, s'.sched.sema (.sema_proc_exec c) = if c = t then
      ⟨((s.sched.sema (.sema_proc_exec t)).value + 1) % 4294967296, []⟩
      else s.sched.sema (.sema_proc_exec c) := by
    intro c
    rw [hsema, update_apply, htail]
    simp
  refine ⟨fun c hc => ?_, fun q c hq => ?_, fun q c hq => ?_, fun u c hu => ?_⟩
  · have := h.unborn c
    grind [Step]
  · have := h.execing q c
    grind [Step]
  · have := h.done q c
    grind [Step]
  · have := h.blocked u c
    grind [Step]

/-- `sema_up` in `start_process`, and what follows it. -/
theorem Base.start_up {success : Bool} (h : s.Base) (hs : Step s s' t (.start_up success) b)
    (hinv : s'.sched.Inv (some s'.sched.cur))
    (hup : s.sched.sema_up (.sema_proc_exec t) = some s'.sched)
    (hrun : s.sched.code t = some .run)
    (hsame : s'.child_processes = s.child_processes ∧ s'.record = s.record ∧
      s'.loaded = s.loaded ∧ ∀ c, c ≠ t → s'.ended c = s.ended c)
    (hb : b = .user ∧ s'.ended t = s.ended t ∨ b = .pexit_get_child ∧ s'.ended t = some (-1)) :
    s'.Base := by
  obtain ⟨hframe, hsema⟩ := Sched.sema_up_frame hup
  obtain ⟨hchildren, hrecord, hloaded, hended⟩ := hsame
  have hto : b.apart ∧ b.listed ∧ b.started := by
    obtain ⟨rfl, -⟩ | ⟨rfl, -⟩ := hb <;> exact ⟨rfl, rfl, rfl⟩
  obtain ⟨hapart, hlisted, hstarted⟩ := hto
  have hspec := Pc.apart_spec hapart
  refine ⟨h.shape.plain hs hinv hframe hrun rfl (.inl hspec.1) (.inl ⟨hchildren, .inr hlisted⟩),
    h.records.step hs (fun c hc => by simp [hrecord, hloaded, hended c hc]) (fun p hp ho => ?_)
      (fun hp _ => .inl ?_),
    h.exec.up h.shape hs hup rfl hstarted hapart,
    h.wait.outside hs (by simp [hsema]) (by simp [hrecord]) nofun ?_ hspec.2.2.1⟩
  · rw [OwnAt, hrecord]
    obtain ⟨rfl, he⟩ | ⟨rfl, he⟩ := hb
    · exact ⟨ho.1, he.trans ho.2.1⟩
    · exact he.trans (if_pos ho.1).symm
  · obtain ⟨p, hp⟩ := Option.ne_none_iff_exists'.mp hp
    have ho := h.records.own t p hp
    rw [hs.here] at ho
    rw [hrecord, hloaded, ho.2.2.1, ho.2.2.2]
  · rintro rfl
    cases hapart

/-- `sema_up` in `process_exit`. -/
theorem WaitSema.up (h : s.WaitSema) (hshape : s.Shape) (hs : Step s s' t .pexit_up .pexit_switch)
    (hup : s.sched.sema_up (.sema_proc_wait t) = some s'.sched) (hrecord : s'.record = s.record) :
    s'.WaitSema := by
  obtain ⟨-, hsema⟩ := Sched.sema_up_frame hup
  have htail := waiters_tail (s := s) (x := .sema_proc_wait t) (p := (s.parent t).getD 0)
    hshape.sched fun u hu => by
      have hu' := (hshape.wait_code u t).mpr hu
      rw [h.waiting u t (by rw [hu']; rfl)]
      rfl
  have hwait : ∀ c, s'.sched.sema (.sema_proc_wait c) = if c = t then
      ⟨((s.sched.sema (.sema_proc_wait t)).value + 1) % 4294967296, []⟩
      else s.sched.sema (.sema_proc_wait c) := by
    intro c
    rw [hsema, update_apply, htail]
    simp
  refine ⟨fun c hc => ?_, fun p c hp => ?_, fun p c hp => ?_, fun p c hp => ?_, fun c hc ha => ?_,
    fun p c hp => ?_, fun u c hu => ?_⟩
  · have := h.unborn c
    grind [Step]
  · have := h.waiting p c
    grind [Step, Pc.waiting]
  · have := h.set_awaited p c
    grind [Step]
  · have := h.awaiting p c
    grind [Step, Pc.awaiting]
  · have ha' : (s.record c).is_awaited = false ∨ ∃ p, (s.pc p).awaiting = some c := by
      rw [hrecord] at ha
      refine ha.imp id fun ⟨p, hp⟩ => ⟨p, ?_⟩
      grind [Step, Pc.awaiting]
    have := h.value c
    grind [Step]
  · have := h.done p c
    grind [Step]
  · have := h.blocked u c
    grind [Step]

theorem Base.pexit_up (h : s.Base) (hinv : sc.Inv (some sc.cur))
    (hup : s.sched.sema_up (.sema_proc_wait t) = some sc) (hrun : s.sched.code t = some .run)
    (hpc : s.pc t = .pexit_up) : ({ s with sched := sc }.goto t .pexit_switch : System).Base := by
  obtain ⟨hframe, hsema⟩ := Sched.sema_up_frame hup
  have hs := h.shape.goes sc .pexit_switch (by rw [hrun]; nofun) hpc
  refine ⟨h.shape.plain hs hinv hframe hrun rfl (.inr rfl) (.inl ⟨rfl, .inr rfl⟩),
    h.records.step hs (fun _ _ => ⟨rfl, rfl, rfl, rfl, rfl⟩) (fun _ _ => id)
      (fun _ _ => .inr ⟨rfl, rfl, rfl⟩),
    h.exec.step hs (fun c => ?_) rfl nofun nofun, h.wait.up h.shape hs hup rfl⟩
  show sc.sema _ = _
  simp [hsema]

/-! ### `thread_create` -/

/-- `t` has created the thread `next_tid`, which does not run yet. -/
structure Creates (s s' : System) (t : Tid) (exec : Bool) : Prop where
  from_user : s.pc t = .user
  runs : s.sched.code t = some .run
  code : s'.sched.code = update s.sched.code s.next_tid (some .run)
  creating : s'.sched.creating = update s.sched.creating t (some s.next_tid)
  sema : s'.sched.sema = s.sched.sema
  pc : ∀ u, s'.pc u = if u = t then .created s.next_tid exec else
    if u = s.next_tid then .load else s.pc u
  parent : ∀ u, s'.parent u = if u = s.next_tid then some t else s.parent u
  children : ∀ u, s'.child_processes u =
    if u = t then s.child_processes t ++ [s.next_tid] else s.child_processes u
  record : ∀ u, s'.record u = if u = s.next_tid then create_child_process else s.record u
  next : s'.next_tid = s.next_tid + 1
  history : s'.ended = s.ended ∧ s'.loaded = s.loaded

section
variable {exec : Bool} (hc : Creates s s' t exec)
include hc

theorem Shape.create (h : s.Shape) (hinv : s'.sched.Inv (some s'.sched.cur))
    (hidle : s'.sched.idle_started = s.sched.idle_started) : s'.Shape where
  sched := hinv
  idle_started := hidle.trans h.idle_started
  next := by
    have := h.next
    grind [Creates]
  born := by
    intro u
    have := h.born u
    rw [hc.code, update_apply]
    grind [Creates]
  unborn := by
    intro c
    have := h.unborn c
    have := h.born_of_run hc.runs
    grind [Creates]
  alive := by
    intro c
    have := h.alive c
    rw [hc.code, update_apply]
    grind [Creates]
  listed := by
    intro p c
    have := h.listed p c
    have := h.unborn s.next_tid (Nat.le_refl _)
    have := h.born_of_run hc.runs
    grind [Creates, Pc.listed]
  nodup := by
    intro p
    have := h.nodup p
    have := h.listed t s.next_tid
    have := h.unborn s.next_tid (Nat.le_refl _)
    rw [hc.children]
    grind [List.nodup_append]
  exec_code := by
    intro u c
    have := h.exec_code u c
    have := h.unborn s.next_tid (Nat.le_refl _)
    have := h.born_of_run hc.runs
    rw [hc.code, update_apply]
    grind [Creates]
  wait_code := by
    intro u c
    have := h.wait_code u c
    have := h.unborn s.next_tid (Nat.le_refl _)
    have := h.born_of_run hc.runs
    rw [hc.code, update_apply]
    grind [Creates]
  creating := by
    intro u c
    have := h.creating u c
    have := h.unborn s.next_tid (Nat.le_refl _)
    have := h.born_of_run hc.runs
    rw [hc.creating, update_apply]
    grind [Creates]

theorem Records.create (h : s.Records) (hshape : s.Shape) : s'.Records := by
  have hold := hshape.born_of_run hc.runs
  have hnew := h.unborn s.next_tid (Nat.le_refl _)
  refine ⟨fun c hn => ?_, fun c p hp => ?_, fun c => ?_⟩
  · have := h.unborn c
    grind [Creates]
  · have := h.own c p
    rw [hc.parent] at hp
    rw [hc.pc, hc.record, hc.history.1, hc.history.2]
    split
    · rename_i ht
      subst ht
      have hne : c ≠ s.next_tid := Nat.ne_of_lt hold
      simp only [hne, if_false] at hp ⊢
      have ho := h.own c p hp
      rw [hc.from_user] at ho
      exact ho
    · split
      · rename_i hn
        subst hn
        exact ⟨rfl, hnew⟩
      · rename_i hn
        exact h.own c p (by simpa [hn] using hp)
  · have := h.loaded c
    grind [Creates, Pc.started]

theorem ExecSema.create (h : s.ExecSema) (hshape : s.Shape) : s'.ExecSema := by
  have hold := hshape.born_of_run hc.runs
  have hnew := hshape.unborn s.next_tid (Nat.le_refl _)
  have := hshape.next
  refine ⟨fun c => ?_, fun p c hp => ?_, fun p c hp => ?_, fun u c hu => ?_⟩
  · have := h.unborn c
    grind [Creates]
  · have := h.unborn c
    have := h.execing p c
    have : (Pc.created s.next_tid exec).execing = some c → c = s.next_tid := by
      cases exec <;> simp +contextual [Pc.execing, eq_comm]
    grind [Creates, Pc.execing, Pc.started]
  · have := h.done p c
    grind [Creates, Pc.started]
  · have := h.blocked u c
    grind [Creates, Pc.started]

theorem WaitSema.create (h : s.WaitSema) (hshape : s.Shape) : s'.WaitSema := by
  have hold := hshape.born_of_run hc.runs
  have hnew := hshape.unborn s.next_tid (Nat.le_refl _)
  refine ⟨fun c => ?_, fun p c hp => ?_, fun p c hp => ?_, fun p c hp => ?_, fun c hp ha => ?_,
    fun p c hp => ?_, fun u c hu => ?_⟩
  · have := h.unborn c
    grind [Creates]
  · have := h.waiting p c
    grind [Creates, Pc.waiting]
  · have := h.set_awaited p c
    have := h.waiting p c
    grind [Creates, Pc.waiting]
  · have := h.awaiting p c
    have := h.waiting p c
    have : (s.pc p).awaiting = some c → (s.pc p).waiting = some c := Pc.waiting_of_awaiting
    grind [Creates, Pc.awaiting]
  · have := h.value c
    have := h.unborn c
    by_cases hn : c = s.next_tid
    · grind [Creates]
    · have ha' : (s.record c).is_awaited = false ∨ ∃ p, (s.pc p).awaiting = some c := by
        rw [hc.record, if_neg hn] at ha
        refine ha.imp id fun ⟨p, hp⟩ => ⟨p, ?_⟩
        grind [Creates, Pc.awaiting]
      grind [Creates]
  · have := h.done p c
    have := h.waiting p c
    grind [Creates, Pc.waiting]
  · have := h.blocked u c
    grind [Creates]

theorem Base.create (h : s.Base) (hinv : s'.sched.Inv (some s'.sched.cur))
    (hidle : s'.sched.idle_started = s.sched.idle_started) : s'.Base :=
  ⟨h.shape.create hc hinv hidle, h.records.create hc h.shape, h.exec.create hc h.shape,
    h.wait.create hc h.shape⟩

end

/-- `process_execute`, up to the new thread. -/
theorem Shape.process_execute (h : s.Shape) (exec : Bool)
    (hcode : s.sched.code s.sched.cur = some .run) (hpc : s.pc s.sched.cur = .user) :
    Creates s (s.process_execute s.sched.cur exec) s.sched.cur exec ∧
      ∃ sc, sc.Inv (some sc.cur) ∧ sc.idle_started = s.sched.idle_started ∧
        sc.initial_thread = s.sched.initial_thread ∧
        (s.process_execute s.sched.cur exec).sched = sc ∧
        (s.process_execute s.sched.cur exec).fault = s.fault ∧
        (s.process_execute s.sched.cur exec).log = s.log := by
  have hnew : s.sched.threads s.next_tid = none := by
    by_contra hn
    exact Nat.lt_irrefl _ (h.born s.next_tid (by simpa [Sched.code] using hn))
  obtain ⟨hframe, hframe'⟩ := Sched.init_thread_frame (s := s.sched) (c := s.next_tid)
    (by simp [hcode]) (Nat.ne_of_lt (h.born_of_run hcode)) hnew
  obtain ⟨sc, hsc, hinv, heq⟩ := h.schedule (m := .init_thread s.next_tid)
    ⟨hcode, h.not_creating (by simp [hpc]), hnew⟩
  cases hsc
  unfold System.process_execute
  rw [heq]
  exact ⟨⟨hpc, hcode, hframe, hframe', rfl, fun u => by simp only [update_apply],
    fun u => update_apply .., fun u => update_apply ..,
    fun u => update_apply .., rfl, rfl, rfl⟩, _, hinv, rfl, rfl, rfl, rfl, rfl⟩

/-- `thread_unblock` in `thread_create`. -/
theorem Base.created {exec : Bool} (h : s.Base)
    (hs : Step s s' s.sched.cur (.created c exec) b) (hinv : s'.sched.Inv (some s'.sched.cur))
    (hrun : s.sched.code s.sched.cur = some .run)
    (hun : (s.sched.setCreating s.sched.cur none).thread_unblock c = some s'.sched)
    (hsame : s'.child_processes = s.child_processes ∧ s'.record = s.record ∧ s'.ended = s.ended ∧
      s'.loaded = s.loaded) (hb : b = .user ∨ b = .exec_get_child c ∧ exec) : s'.Base := by
  obtain ⟨hcode, hcreating, hidle, -, hsema⟩ := Sched.create_unblock_frame hun
  have hto : b.active ∧ b.quiet ∧ b.waiting = none ∧ b ≠ .pexit_switch ∧
      ∀ c, b ≠ .exec_is_loaded c := by
    obtain rfl | ⟨rfl, -⟩ := hb <;> exact ⟨rfl, rfl, rfl, nofun, nofun⟩
  obtain ⟨hactive, hquiet, hwait, hswitch, hdone⟩ := hto
  refine ⟨h.shape.step hs hinv hidle (fun u hu => ?_) (.inl ?_) (fun e => ?_) (fun e => ?_)
      (fun e => ?_) (.inl ⟨hsame.1, .inr (Pc.listed_of_active hactive)⟩),
    h.records.active hs hsame.2 rfl hactive,
    h.exec.step hs (by simp [hsema]) (Pc.started_of_active hactive) hdone fun e he => ?_,
    h.wait.outside hs (by simp [hsema]) (by simp [hsame.2.1]) nofun hswitch hwait⟩
  · rw [hcode, hcreating, update_of_ne hu]
    exact ⟨rfl, rfl⟩
  · rw [hcode, hrun]
    nofun
  · rw [hcode, hrun]
    grind [Pc.quiet]
  · rw [hcode, hrun]
    grind [Pc.quiet]
  · rw [hcreating, update_self]
    grind [Pc.quiet]
  · obtain rfl | ⟨rfl, rfl⟩ := hb
    · cases he
    · exact he

/-! ### `thread_exit` -/

/-- The last switch. -/
theorem Base.thread_exit (h : s.Base) (hinv : sc.Inv (some sc.cur))
    (hex : s.sched.thread_exit = some sc) (hpc : s.pc s.sched.cur = .pexit_switch)
    (hrun : s.sched.code s.sched.cur = some .run) :
    ({ s with sched := sc } : System).Base := by
  have hcreating := h.shape.not_creating (t := s.sched.cur) (by rw [hpc]; nofun)
  obtain ⟨hcr, hidle, -, hsema, hcode⟩ := Sched.thread_exit_frame hex hcreating
  have hcases : ∀ u, sc.code u = s.sched.code u ∨ u = s.sched.cur ∧ sc.code u = none := by
    intro u
    obtain hcode | ⟨-, hcode⟩ := hcode
    · exact .inl (by rw [hcode])
    · rw [hcode, update_apply]
      split
      · exact .inr ⟨‹_›, rfl⟩
      · exact .inl rfl
  refine h.sched_step hinv hidle (fun u => ?_) (fun u e => ?_) (fun u e => ?_) hcr fun x _ =>
    hsema ▸ ⟨rfl, fun _ => .inl⟩
  all_goals have := hcases u
  all_goals grind

/-! ### Moves without a statement -/

/-- A turn of `sema_down` that finds the value zero. -/
theorem Base.turn_zero (h : s.Base) (hinv : sc.Inv (some sc.cur))
    (hcode : s.sched.code s.sched.cur = some (.sema_down x))
    (hturn : s.sched.sema_down_turn x = some sc) (hv : (s.sched.sema x).value = 0) :
    ({ s with sched := sc } : System).Base := by
  obtain ⟨hsame, hsema⟩ := Sched.sema_down_turn_zero hturn hv
  refine h.same hinv hsame fun y _ => ?_
  rw [hsema, update_apply]
  split
  · rename_i he
    subst he
    refine ⟨rfl, fun u hu => ?_⟩
    obtain hu | hu := List.mem_append.mp hu
    · exact .inl hu
    · obtain rfl := List.mem_singleton.mp hu
      exact .inr ⟨hcode, hv⟩
  · exact ⟨rfl, fun _ hu => .inl hu⟩

theorem Base.boot : System.boot.Base := by
  have hparent : ∀ c, System.boot.parent c = if c = 2 then some 1 else none := by
    intro c
    simp only [System.boot, update_apply]
  have hchildren : ∀ p, System.boot.child_processes p = if p = 1 then [2] else [] := by
    intro p
    simp only [System.boot, update_apply]
  have hcode : ∀ t, System.boot.sched.code t =
      if t = 1 then some .run else if t = 2 then some .idle_begin else none := by
    intro t
    simp only [System.boot, Sched.boot, Sched.code, update_apply]
    split
    · rfl
    · split <;> rfl
  have hcreating : ∀ t, System.boot.sched.creating t = none := by
    intro t
    simp only [System.boot, Sched.boot, Sched.creating, update_apply]
    split
    · rfl
    · split <;> rfl
  refine ⟨⟨Sched.Inv.boot (by decide) _ _, rfl, by decide, ?_, ?_, ?_, ?_, ?_, ?_, ?_, ?_⟩,
    ⟨fun _ _ => rfl, fun _ _ _ => ⟨rfl, rfl⟩, ?_⟩,
    ⟨fun _ _ => rfl, by simp [System.boot, Pc.execing], by simp [System.boot],
      by simp [System.boot, Sched.boot]⟩,
    ⟨fun _ _ => rfl, by simp [System.boot, Pc.waiting], by simp [System.boot],
      by simp [System.boot, Pc.awaiting], fun _ _ _ => rfl, by simp [System.boot],
      by simp [System.boot]⟩⟩
  · intro t
    have : System.boot.next_tid = 3 := rfl
    grind
  · intro c hc
    have : System.boot.next_tid = 3 := rfl
    exact ⟨by grind, rfl⟩
  · grind
  · intro p c
    have : (System.boot.pc c).listed := rfl
    grind
  · grind
  · intro t c
    have : System.boot.pc t = .user := rfl
    grind
  · intro t c
    have : System.boot.pc t = .user := rfl
    grind
  · intro t c
    have : System.boot.pc t = .user := rfl
    grind
  · intro c hne hp
    grind

end System
end Pintos
